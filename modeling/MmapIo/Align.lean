import MmapIo.Lib.Round
import MmapIo.Utils
/-!
# Align — rounding up to a multiple

`align_up` of `utils.rs` and `huge_layout` of `raw/unix.rs`.  Both round a length up to a multiple; `align_up` does it by
a mask on a power of two and by `div_ceil` on any other alignment, and each path detects its own overflow.  Both paths are
compared with one natural-number law, the least multiple that is at least the value (`Word.ceilMul`), and
`align_up_least_multiple` says where each function answers it and where it saturates or fails.
-/
namespace MmapIo

open Word

/-- The fast path of `align_up`, for a power of two. -/
def alignMask (value alignment : Nat) : Option Nat :=
  let mask := alignment - 1
  (checkedAdd 64 value mask).map (fun v => v &&& notMask 64 mask)

/-- The general path of `align_up`. -/
def alignDiv (value alignment : Nat) : Option Nat := checkedMul 64 (divCeil value alignment) alignment

/-- `align_up`: 0 asks for no alignment, an overflowing multiple saturates. -/
def alignUp (value alignment : Nat) : Nat :=
  if alignment = 0 then value else
  let aligned := if alignment.isPowerOfTwo then alignMask value alignment else alignDiv value alignment
  aligned.getD (2 ^ 64 - 1)

/-- The per-mapping flags of the raw layer (`MapFlags`). -/
structure MapFlags where
  populate : Bool
  huge : Bool
  deriving DecidableEq, Repr

/-- The `InvalidInput` refusal of `huge_layout`: the length and the huge page size it was rounded to. -/
inductive HugeError
  | roundedExceeds (mapLen huge : Nat)
  deriving DecidableEq, Repr

/-- The text of a `huge_layout` refusal. -/
def HugeError.message : HugeError → String
  | .roundedExceeds mapLen huge =>
    s!"anonymous mapping length {mapLen} rounded up to the huge page size ({huge} bytes) exceeds the address space"

/-- `huge_layout`: the OS length and whether `MAP_HUGETLB` is passed.  The request is ignored where huge pages are not
supported (`supported` is `target_os` Linux or Android). -/
def hugeLayout (w : Width) (supported : Bool) (huge mapLen : Nat) (extra : MapFlags) : Except HugeError (Nat × Bool) := do
  if supported && extra.huge then
    let rounded ← okOr (((checkedAdd w.bits mapLen (huge - 1)).map (fun n => n &&& notMask w.bits (huge - 1))).filter
      (fun n => decide (n ≤ w.maxLen))) (.roundedExceeds mapLen huge)
    return (rounded, true)
  return (mapLen, false)

/-! ## What each path computes -/

theorem alignMask_eq {value alignment : Nat} (ha : alignment.isPowerOfTwo) (hab : alignment < 2 ^ 64) :
    alignMask value alignment = if ceilMul value alignment < 2 ^ 64 then some (ceilMul value alignment) else none :=
  mask_eq_ceilMul ha hab

theorem alignDiv_eq (value : Nat) {alignment : Nat} (ha : 0 < alignment) :
    alignDiv value alignment = if ceilMul value alignment < 2 ^ 64 then some (ceilMul value alignment) else none :=
  checkedMul_divCeil 64 value ha

/-- **`align_up` is the least multiple, or saturates.** -/
theorem alignUp_eq (value : Nat) {alignment : Nat} (ha : 0 < alignment) (hab : alignment < 2 ^ 64) :
    alignUp value alignment = if ceilMul value alignment < 2 ^ 64 then ceilMul value alignment else 2 ^ 64 - 1 := by
  have hpath : (if alignment.isPowerOfTwo then alignMask value alignment else alignDiv value alignment) =
      if ceilMul value alignment < 2 ^ 64 then some (ceilMul value alignment) else none := by
    split
    · rename_i hp
      exact alignMask_eq hp hab
    · exact alignDiv_eq value ha
  unfold alignUp
  rw [if_neg (by omega : ¬ alignment = 0), hpath]
  split <;> rfl

theorem alignUp_mono {value value' alignment : Nat} (hab : alignment < 2 ^ 64) (h : value ≤ value') :
    alignUp value alignment ≤ alignUp value' alignment := by
  by_cases ha : alignment = 0
  · simpa [alignUp, ha] using h
  · have hpos := Nat.pos_of_ne_zero ha
    have hmul := ceilMul_mono hpos h
    rw [alignUp_eq value hpos hab, alignUp_eq value' hpos hab]
    split <;> split <;> omega

theorem alignUp_idem {value alignment : Nat} (hab : alignment < 2 ^ 64) :
    alignUp (alignUp value alignment) alignment = alignUp value alignment := by
  by_cases ha : alignment = 0
  · simp [alignUp, ha]
  · have hpos := Nat.pos_of_ne_zero ha
    rw [alignUp_eq value hpos hab]
    split
    · rename_i hfit
      have hself := ceilMul_of_dvd hpos (least_mul value hpos).1.1
      rw [alignUp_eq _ hpos hab, hself, if_pos hfit]
    · -- the largest word rounds up to itself or not at all
      rw [alignUp_eq _ hpos hab]
      have hge := (least_mul (2 ^ 64 - 1) hpos).1.2
      split <;> omega

/-- **`huge_layout` rounds to the least huge multiple, or refuses.** -/
theorem hugeLayout_eq {w : Width} {huge mapLen : Nat} {extra : MapFlags} (hx : extra.huge = true)
    (hp : huge.isPowerOfTwo) (hh : huge < 2 ^ w.bits) :
    hugeLayout w true huge mapLen extra =
      if ceilMul mapLen huge ≤ w.maxLen then .ok (ceilMul mapLen huge, true)
      else .error (.roundedExceeds mapLen huge) := by
  have hmax := w.maxLen_lt
  have hrounded : ((checkedAdd w.bits mapLen (huge - 1)).map (fun n => n &&& notMask w.bits (huge - 1))).filter
      (fun n => decide (n ≤ w.maxLen)) = if ceilMul mapLen huge ≤ w.maxLen then some (ceilMul mapLen huge) else none := by
    rw [mask_eq_ceilMul hp hh]
    by_cases hfit : ceilMul mapLen huge ≤ w.maxLen
    · have hword : ceilMul mapLen huge < 2 ^ w.bits := by omega
      rw [if_pos hfit, if_pos hword, Option.filter_some, if_pos (decide_eq_true hfit)]
    · rw [if_neg hfit, Option.filter_eq_none_iff]
      intro n hn
      split at hn
      · cases hn
        simpa using hfit
      · cases hn
  unfold hugeLayout
  rw [hrounded, hx]
  by_cases hfit : ceilMul mapLen huge ≤ w.maxLen
  · rw [if_pos hfit, if_pos hfit]
    rfl
  · rw [if_neg hfit, if_neg hfit]
    rfl

/-- **Rounding up is the least multiple, where it fits.**  For every word value and alignment, `align_up` leaves the value
alone at alignment 0; otherwise it answers the least multiple `m` that is at least the value when `m` fits in a word, and
saturates to `u64::MAX` when it does not; the mask and the `div_ceil` path agree on every power of two, the saturating case
included; and `align_up` is monotone and idempotent.  `huge_layout`, asked for huge pages, answers the least huge-page
multiple when it is at most `isize::MAX` and refuses otherwise, so the OS length covers the window and is a `usize`. -/
theorem align_up_least_multiple :
    (∀ value alignment : Nat, value < 2 ^ 64 → alignment < 2 ^ 64 →
      (alignment = 0 → alignUp value alignment = value) ∧
      (0 < alignment → ∃ m, IsLeast {m | alignment ∣ m ∧ value ≤ m} m ∧
        alignUp value alignment = (if m < 2 ^ 64 then m else 2 ^ 64 - 1) ∧
        alignDiv value alignment = (if m < 2 ^ 64 then some m else none) ∧
        (alignment.isPowerOfTwo → alignMask value alignment = alignDiv value alignment)) ∧
      alignUp value alignment < 2 ^ 64 ∧
      (∀ value' < 2 ^ 64, value ≤ value' → alignUp value alignment ≤ alignUp value' alignment) ∧
      alignUp (alignUp value alignment) alignment = alignUp value alignment) ∧
    (∀ (w : Width) (huge mapLen : Nat) (extra : MapFlags), 1 ≤ mapLen → mapLen ≤ w.maxLen →
      huge.isPowerOfTwo → huge < 2 ^ w.bits → extra.huge = true →
      ∃ m, IsLeast {m | huge ∣ m ∧ mapLen ≤ m} m ∧
        hugeLayout w true huge mapLen extra =
          (if m ≤ w.maxLen then .ok (m, true) else .error (.roundedExceeds mapLen huge)) ∧
        ∀ osLen flag, hugeLayout w true huge mapLen extra = .ok (osLen, flag) →
          mapLen ≤ osLen ∧ osLen < 2 ^ w.bits) := by
  constructor
  · intro value alignment hv hab
    refine ⟨fun h => by simp [alignUp, h], fun ha => ?_, ?_, fun value' _ => alignUp_mono hab, alignUp_idem hab⟩
    · refine ⟨ceilMul value alignment, least_mul value ha, alignUp_eq value ha hab, alignDiv_eq value ha, fun hp => ?_⟩
      rw [alignMask_eq hp hab, alignDiv_eq value ha]
    · by_cases ha : alignment = 0
      · simpa [alignUp, ha] using hv
      · rw [alignUp_eq value (Nat.pos_of_ne_zero ha) hab]
        split <;> omega
  · intro w huge mapLen extra _ _ hp hh hx
    have hleast := least_mul mapLen (Nat.pos_of_isPowerOfTwo hp)
    have heq : hugeLayout w true huge mapLen extra = if ceilMul mapLen huge ≤ w.maxLen then .ok (ceilMul mapLen huge, true)
        else .error (.roundedExceeds mapLen huge) := hugeLayout_eq hx hp hh
    refine ⟨ceilMul mapLen huge, hleast, heq, fun osLen flag h => ?_⟩
    have hmax := w.maxLen_lt
    rw [heq] at h
    split at h
    · cases h
      exact ⟨hleast.1.2, by omega⟩
    · cases h

/-- Both halves at concrete sizes: a page above 4096 bytes, and a 2 MiB huge page under a 1-byte mapping. -/
theorem align_up_least_multiple_page :
    alignUp (alignUp 4097 4096) 4096 = alignUp 4097 4096 ∧
      ∃ m, IsLeast {m | 2 ^ 21 ∣ m ∧ 1 ≤ m} m ∧
        hugeLayout .w32 true (2 ^ 21) 1 ⟨false, true⟩ =
          (if m ≤ Width.w32.maxLen then .ok (m, true) else .error (.roundedExceeds 1 (2 ^ 21))) := by
  refine ⟨(align_up_least_multiple.1 4097 4096 (by decide) (by decide)).2.2.2.2, ?_⟩
  obtain ⟨m, hm, heq, -⟩ := align_up_least_multiple.2 .w32 (2 ^ 21) 1 ⟨false, true⟩ (by decide) (by decide) ⟨21, rfl⟩
    (by decide) rfl
  exact ⟨m, hm, heq⟩

example : alignUp 4097 4096 = 8192 ∧ alignUp (2 ^ 64 - 2) 4096 = 2 ^ 64 - 1 := by decide

end MmapIo
