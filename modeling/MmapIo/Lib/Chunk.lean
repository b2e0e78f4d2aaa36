import MmapIo.Lib.Round
/-!
# Chunk — cutting a range into pieces, and iterators that say how many are left

`Partition` is the specification of a chunked walk over `[lo, hi)`: consecutive non-empty ranges, all of the chunk size but
the last.  `chunkFrom` is the walk a loop makes, and meets it.  `Yields` is the whole life of an exact-size iterator: the
items it returns, what it announces before each of them, and that it then stays at its end; a `next` that may fail is
`none`, so an iterator that yields never does.
-/
namespace MmapIo
namespace Chunk

variable {σ α β : Type}

/-- Consecutive non-empty ranges from `lo` to `hi`, of `c` each but the last, which has at most `c`. -/
def Partition (c hi : Nat) : Nat → List (Nat × Nat) → Prop
  | lo, [] => lo = hi
  | lo, r :: rs => r.1 = lo ∧ r.1 < r.2 ∧ r.2 ≤ r.1 + c ∧ (rs ≠ [] → r.2 = r.1 + c) ∧ Partition c hi r.2 rs

theorem advance_lt {c hi lo : Nat} (hc : 0 < c) (h : lo < hi) : hi - (lo + min (hi - lo) c) < hi - lo := by
  omega

/-- The ranges of a walk that takes at most `c` at a time. -/
def chunkFrom (c : Nat) (hc : 0 < c) (hi lo : Nat) : List (Nat × Nat) :=
  if lo < hi then (lo, lo + min (hi - lo) c) :: chunkFrom c hc hi (lo + min (hi - lo) c) else []
termination_by hi - lo
decreasing_by
  rename_i h
  exact advance_lt hc h

section

variable {c hi lo : Nat} {hc : 0 < c}

theorem chunkFrom_of_lt (h : lo < hi) :
    chunkFrom c hc hi lo = (lo, lo + min (hi - lo) c) :: chunkFrom c hc hi (lo + min (hi - lo) c) := by
  rw [chunkFrom, if_pos h]

theorem chunkFrom_of_ge (h : hi ≤ lo) : chunkFrom c hc hi lo = [] := by
  rw [chunkFrom, if_neg (Nat.not_lt.2 h)]

/-- **The walk is a partition.** -/
theorem partition_chunkFrom (h : lo ≤ hi) : Partition c hi lo (chunkFrom c hc hi lo) := by
  fun_induction chunkFrom c hc hi lo with
  | case1 lo hlt ih =>
    refine ⟨rfl, by simp only; omega, by simp only; omega, fun hne => ?_, ih (by omega)⟩
    -- there is a next range, so this one did not reach the end
    have hnext : lo + min (hi - lo) c < hi := by
      by_contra hge
      exact hne (chunkFrom_of_ge (Nat.not_lt.1 hge))
    simp only
    omega
  | case2 lo hge => exact Nat.le_antisymm h (Nat.not_lt.1 hge)

/-- **The number of ranges is the ceiling quotient of what is left.** -/
theorem length_chunkFrom : (chunkFrom c hc hi lo).length = (hi - lo) ⌈/⌉ c := by
  fun_induction chunkFrom c hc hi lo with
  | case1 lo hlt ih =>
    rw [List.length_cons, ih]
    rcases Nat.le_total (hi - lo) c with hle | hle
    · rw [Nat.min_eq_left hle, show hi - (lo + (hi - lo)) = 0 by omega, zero_ceilDiv]
      refine Nat.le_antisymm ?_ ?_
      · exact Nat.succ_le_of_lt (Nat.not_le.1 (fun h => by have := (ceilDiv_le_iff_le_mul hc).1 h; omega))
      · exact (ceilDiv_le_iff_le_mul hc).2 (by omega)
    · rw [Nat.min_eq_right hle, show hi - lo = hi - (lo + c) + c by omega, Nat.ceilDiv_eq_add_pred_div,
        Nat.ceilDiv_eq_add_pred_div, show hi - (lo + c) + c + c - 1 = hi - (lo + c) + c - 1 + c by omega,
        Nat.add_div_right _ hc]
  | case2 lo hge => rw [show hi - lo = 0 by omega, zero_ceilDiv]; rfl

theorem mem_chunkFrom {r : Nat × Nat} (h : r ∈ chunkFrom c hc hi lo) : lo ≤ r.1 ∧ r.1 < r.2 ∧ r.2 ≤ hi := by
  fun_induction chunkFrom c hc hi lo with
  | case1 lo hlt ih =>
    rcases List.mem_cons.1 h with rfl | h
    · simp only
      omega
    · have := ih h
      omega
  | case2 lo hge => cases h

/-- **The pieces of a list along the walk are the list.** -/
theorem flatMap_chunkFrom (l : List α) (hl : l.length = hi) :
    (chunkFrom c hc hi lo).flatMap (fun r => l.extract r.1 r.2) = l.drop lo := by
  fun_induction chunkFrom c hc hi lo with
  | case1 lo hlt ih =>
    rw [List.flatMap_cons, ih, List.extract_eq_take_drop, Nat.add_sub_cancel_left, ← List.drop_drop]
    exact List.take_append_drop _ _
  | case2 lo hge =>
    rw [List.drop_eq_nil_of_le (by omega)]
    rfl

end

/-! ## Exact-size iterators -/

/-- **The iterator yields these items and then nothing**, and announces before each call how many are left. -/
def Yields (next : σ → Option (Option α × σ)) (hint : σ → Nat × Option Nat) : σ → List α → Prop
  | s, [] => hint s = (0, some 0) ∧ next s = some (none, s)
  | s, a :: as => hint s = (as.length + 1, some (as.length + 1)) ∧
      ∃ s', next s = some (some a, s') ∧ Yields next hint s' as

/-- An iterator whose items are mapped. -/
def mapNext (f : α → β) (next : σ → Option (Option α × σ)) (s : σ) : Option (Option β × σ) :=
  (next s).map (fun (o, s) => (o.map f, s))

theorem Yields.map {next : σ → Option (Option α × σ)} {hint : σ → Nat × Option Nat} (f : α → β) :
    ∀ {s : σ} {as : List α}, Yields next hint s as → Yields (mapNext f next) hint s (as.map f)
  | s, [], ⟨hhint, hnext⟩ => ⟨hhint, by rw [mapNext, hnext]; rfl⟩
  | s, a :: as, ⟨hhint, s', hnext, hrest⟩ => by
    refine ⟨by rw [List.length_map]; exact hhint, s', ?_, Yields.map f hrest⟩
    rw [mapNext, hnext]
    rfl

end Chunk
end MmapIo
