import MmapIo.NonShared
import MmapIo.PinEntries
/-!
# Validation — the three range checks and what they guarantee

`ensure_in_bounds`, `slice_range` (`utils.rs`) and `view_parts` (`atomic.rs`) refuse an overflowing range in two ways, by a
checked and by a saturating addition.  Each is compared with the natural-number law `offset + len ≤ total` over the whole
range of its arguments; `range_validation_exact` adds what follows for the entries of the atomic set along every run of the
views and resizes of a mapping (`Pin.run_entries`).
-/
namespace MmapIo

open Word NonShared

/-- `view_parts`: the range it registers and hands out.  `register` is `register_atomic` on the registry of the mapping, and
`total` the length read under the guard.  The range is computed in `u64` and cast to `usize`. -/
def viewParts {ρ : Type} (w : Width) (register : Span → Nat → Except Conflict ρ) (total : Nat) (cell : Cell)
    (offset count : Nat) : Except MmapIoError (Span × ρ) :=
  if offset % cell.size ≠ 0 then .error (.misaligned cell.size offset) else
  let len := saturatingMul 64 cell.size count
  if saturatingAdd 64 offset len > total then .error (.outOfBounds offset len total) else
  let range : Span := ⟨offset % 2 ^ w.bits, wrappingAdd 64 offset len % 2 ^ w.bits⟩
  match register range cell.size with
  | .error c => .error c.toError
  | .ok reg => .ok (range, reg)

/-- **`ensure_in_bounds` accepts exactly the ranges that end inside.** -/
theorem ensureInBounds_eq {offset len total : Nat} (ht : total < 2 ^ 64) :
    ensureInBounds offset len total = if offset + len ≤ total then .ok () else .error (.outOfBounds offset len total) := by
  unfold ensureInBounds
  by_cases h : offset + len < 2 ^ 64
  · rw [checkedAdd_of_lt h]
  · rw [checkedAdd, if_neg h, if_neg (by omega)]

/-- **`slice_range` accepts exactly the ranges that end inside and are `usize`**, and returns them unchanged. -/
theorem sliceRange_exact {w : Width} {offset len total : Nat} (ht : total < 2 ^ 64) :
    sliceRange w offset len total =
      if offset + len ≤ total ∧ offset + len < 2 ^ w.bits then .ok (offset, offset + len)
      else .error (.outOfBounds offset len total) := by
  unfold sliceRange
  by_cases h : offset + len ≤ total
  · rw [checkedAdd_of_lt (by omega), Option.filter_some_pos (by simpa using h)]
    simp only [okOr_some, bind, Except.bind]
    by_cases hw : offset + len < 2 ^ w.bits
    · rw [if_pos ⟨h, hw⟩, tryFrom_of_lt (show offset < 2 ^ w.bits by omega), tryFrom_of_lt hw]
    · rw [if_neg (fun hc => hw hc.2), tryFrom_of_ge (Nat.not_lt.1 hw)]
      cases tryFrom w.bits offset <;> rfl
  · have hnone : (checkedAdd 64 offset len).filter (fun e => decide (e ≤ total)) = none := by
      unfold checkedAdd
      split
      · exact Option.filter_some_neg (by simpa using h)
      · rfl
    rw [if_neg (fun hc => h hc.1), hnone]
    rfl

/-- **`view_parts` checks the alignment, then the exact bounds, then the registry**, which is asked for the range itself. -/
theorem viewParts_eq {ρ : Type} {w : Width} (register : Span → Nat → Except Conflict ρ) {total : Nat}
    (ht : total ≤ w.maxLen) (cell : Cell) (offset count : Nat) :
    viewParts w register total cell offset count =
      if ¬ cell.size ∣ offset then .error (.misaligned cell.size offset)
      else if total < offset + cell.size * count then
        .error (.outOfBounds offset (saturatingMul 64 cell.size count) total)
      else match register ⟨offset, offset + cell.size * count⟩ cell.size with
        | .error c => .error c.toError
        | .ok reg => .ok (⟨offset, offset + cell.size * count⟩, reg) := by
  have hmax := w.lt_of_le_maxLen ht
  have hw := w.maxLen_lt
  unfold viewParts
  by_cases hd : cell.size ∣ offset
  · rw [if_neg (not_not.2 (Nat.mod_eq_zero_of_dvd hd)), if_neg (not_not.2 hd)]
    by_cases hfit : offset + cell.size * count ≤ total
    · have hlen : saturatingMul 64 cell.size count = cell.size * count :=
        saturatingMul_of_le hmax (Nat.le_trans (Nat.le_add_left ..) hfit)
      have hsat : ¬ saturatingAdd 64 offset (cell.size * count) > total :=
        hlen ▸ Nat.not_lt.2 ((saturating_le hmax).2 hfit)
      have hu64 : wrappingAdd 64 offset (cell.size * count) = offset + cell.size * count := wrappingAdd_of_lt (by omega)
      simp only [hlen, if_neg hsat, if_neg (Nat.not_lt.2 hfit), hu64, Nat.mod_eq_of_lt (show offset < 2 ^ w.bits by omega),
        Nat.mod_eq_of_lt (show offset + cell.size * count < 2 ^ w.bits by omega)]
    · have hsat : ¬ saturatingAdd 64 offset (saturatingMul 64 cell.size count) ≤ total := fun h =>
        hfit ((saturating_le hmax).1 h)
      simp only [if_pos (Nat.not_le.1 hsat), if_pos (Nat.not_le.1 hfit)]
  · rw [if_pos (fun h => hd (Nat.dvd_of_mod_eq_zero h)), if_pos hd]

/-- **Range validation is exact.**  Over all `u64` arguments `ensure_in_bounds` and the 64-bit `slice_range` accept exactly
the ranges with `offset + len ≤ total`, the 32-bit one exactly those that are also `usize`, and an accepted range is
returned unchanged.  For every mapping of up to `isize::MAX` bytes and every registry, `view_parts` gets past its checks
exactly when the offset is a multiple of the element size and the elements end inside the mapping; it reports the alignment
before the bounds and these before a conflict.  And in every state that a run of views, drops and resizes reaches, every
entry of the atomic set is of a view that was asked for, starts and ends on an element, has the length of its elements and
lies inside the installed mapping. -/
theorem range_validation_exact :
    (∀ offset len total, offset < 2 ^ 64 → len < 2 ^ 64 → total < 2 ^ 64 →
      ensureInBounds offset len total =
        (if offset + len ≤ total then .ok () else .error (.outOfBounds offset len total)) ∧
      sliceRange .w64 offset len total =
        (if offset + len ≤ total then .ok (offset, offset + len) else .error (.outOfBounds offset len total)) ∧
      sliceRange .w32 offset len total =
        (if offset + len ≤ total ∧ offset + len < 2 ^ 32 then .ok (offset, offset + len)
        else .error (.outOfBounds offset len total))) ∧
    (∀ (ρ : Type) (w : Width) (register : Span → Nat → Except Conflict ρ) (total : Nat) (cell : Cell) (offset count : Nat),
      total ≤ w.maxLen → offset < 2 ^ 64 → count < 2 ^ w.bits →
      viewParts w register total cell offset count =
        if ¬ cell.size ∣ offset then .error (.misaligned cell.size offset)
        else if total < offset + cell.size * count then
          .error (.outOfBounds offset (saturatingMul 64 cell.size count) total)
        else match register ⟨offset, offset + cell.size * count⟩ cell.size with
          | .error c => .error c.toError
          | .ok reg => .ok (⟨offset, offset + cell.size * count⟩, reg)) ∧
    (∀ (V : Type) [DecidableEq V] (P : Platform) (file : List UInt8) (acts : List (Pin.Action V)) (s : Pin.State V),
      file.length ≤ P.width.maxLen → Machine.run (Pin.step P) (Pin.State.init file) acts = some s →
      ∀ e ∈ s.views.reg.atomics.entries, e.size ∣ e.range.start ∧ e.size ∣ e.range.stop ∧ e.range.stop ≤ s.shared.len ∧
        ∃ v count, .call v (.atomicView e.size e.range.start count) ∈ acts ∧
          e.range.stop - e.range.start = e.size * count) := by
  refine ⟨fun offset len total _ _ ht => ⟨ensureInBounds_eq ht, ?_, sliceRange_exact ht⟩, ?_, ?_⟩
  · rw [sliceRange_exact ht]
    by_cases h : offset + len ≤ total
    · rw [if_pos h, if_pos ⟨h, Nat.lt_of_le_of_lt h ht⟩]
    · rw [if_neg h, if_neg (fun hc => h hc.1)]
  · intro ρ w register total cell offset count ht _ _
    exact viewParts_eq register ht cell offset count
  · intro V _ P file acts s hfile hr e he
    have hfits := (Pin.run_entries hfile hr).fits e he
    obtain ⟨count, ⟨v, hcall⟩, hstop⟩ := hfits.length
    exact ⟨hfits.start, hfits.stop, hfits.inside, v, count, hcall, by rw [hstop, Nat.add_sub_cancel_left]⟩

/-- A view of two 4-byte elements at offset 4 of an 8-byte mapping is refused; one element there is registered. -/
def viewThenOutOfBounds : List (Pin.Action Nat) :=
  [.call 0 (.atomicView 4 4 2), Pin.go 0, Pin.go 0, Pin.go 0, .call 1 (.atomicView 4 4 1)] ++ List.replicate 18 (Pin.go 1)

theorem range_validation_exact_oneElement : ∃ s : Pin.State Nat,
    Machine.run (Pin.step linux64) (Pin.State.init (List.replicate 8 0)) viewThenOutOfBounds = some s ∧
      s.views.reg.atomics.entries = [⟨⟨4, 8⟩, 4, 0⟩] ∧ s.shared.len = 8 ∧
      ∀ e ∈ s.views.reg.atomics.entries, e.size ∣ e.range.start ∧ e.size ∣ e.range.stop ∧ e.range.stop ≤ s.shared.len := by
  have hrun : (Machine.run (Pin.step linux64) (Pin.State.init (List.replicate 8 0)) viewThenOutOfBounds).map
      (fun s => (s.views.reg.atomics.entries, s.shared.len)) = some ([⟨⟨4, 8⟩, 4, 0⟩], 8) := by decide +kernel
  obtain ⟨s, hr, heq⟩ := Option.map_eq_some_iff.1 hrun
  obtain ⟨hentries, hlen⟩ := Prod.mk.inj heq
  refine ⟨s, hr, hentries, hlen, fun e he => ?_⟩
  obtain ⟨hstart, hstop, hin, -⟩ := range_validation_exact.2.2 Nat linux64 _ viewThenOutOfBounds s (by decide) hr e he
  exact ⟨hstart, hstop, hin⟩

end MmapIo
