import MmapIo.Lib.Word
import Mathlib.Algebra.Order.Floor.Div
import Mathlib.Order.Bounds.Basic
/-!
# Round — rounding a word up to a multiple

The least multiple of an alignment that is at least a value, as a natural number (`ceilMul`), and the two ways a program
computes it on words: the ceiling quotient times the alignment, and, for a power of two, a mask after an addition.  Both
overflow exactly when the least multiple does not fit (`checkedMul_divCeil`, `mask_eq_ceilMul`).
-/
namespace MmapIo
namespace Word

/-- `v.div_ceil(a)`: the quotient, plus one when there is a remainder. -/
def divCeil (v a : Nat) : Nat :=
  if 0 < v % a then v / a + 1 else v / a

/-- The least multiple of `a` that is at least `v`, for a non-zero `a`. -/
def ceilMul (v a : Nat) : Nat := v ⌈/⌉ a * a

/-- **`ceilMul` is the least multiple.** -/
theorem least_mul (v : Nat) {a : Nat} (ha : 0 < a) : IsLeast {m | a ∣ m ∧ v ≤ m} (ceilMul v a) := by
  constructor
  · refine ⟨Nat.dvd_mul_left a _, ?_⟩
    have h := (ceilDiv_le_iff_le_mul ha).1 (Nat.le_refl (v ⌈/⌉ a))
    rwa [Nat.mul_comm] at h
  · rintro m ⟨⟨q, rfl⟩, hm⟩
    have hq : v ⌈/⌉ a ≤ q := (ceilDiv_le_iff_le_mul ha).2 hm
    unfold ceilMul
    rw [Nat.mul_comm a q]
    exact Nat.mul_le_mul_right a hq

/-- A multiple that is at least `v` and less than one alignment above it is the least one. -/
theorem eq_ceilMul {v a m : Nat} (ha : 0 < a) (hd : a ∣ m) (hv : v ≤ m) (hm : m < v + a) : m = ceilMul v a := by
  obtain ⟨⟨hdvd, hge⟩, hleast⟩ := least_mul v ha
  have hle : ceilMul v a ≤ m := hleast ⟨hd, hv⟩
  have hgap : a ∣ m - ceilMul v a := Nat.dvd_sub hd hdvd
  have hzero : m - ceilMul v a = 0 := Nat.eq_zero_of_dvd_of_lt hgap (by omega)
  omega

theorem ceilMul_mono {v v' a : Nat} (ha : 0 < a) (h : v ≤ v') : ceilMul v a ≤ ceilMul v' a := by
  obtain ⟨⟨hdvd, hge⟩, -⟩ := least_mul v' ha
  exact (least_mul v ha).2 ⟨hdvd, Nat.le_trans h hge⟩

theorem ceilMul_of_dvd {v a : Nat} (ha : 0 < a) (h : a ∣ v) : ceilMul v a = v :=
  (eq_ceilMul ha h (Nat.le_refl v) (by omega)).symm

theorem ceilMul_lt (v : Nat) {a : Nat} (ha : 0 < a) : ceilMul v a < v + a := by
  have hr := round_down (v + a - 1) ha
  rw [← eq_ceilMul ha hr.1 (by omega) (by omega)]
  omega

/-- `div_ceil` is the ceiling quotient. -/
theorem divCeil_mul (v : Nat) {a : Nat} (ha : 0 < a) : divCeil v a * a = ceilMul v a := by
  have hdm := Nat.div_add_mod v a
  have hlt := Nat.mod_lt v ha
  unfold divCeil
  split
  · apply eq_ceilMul ha (Nat.dvd_mul_left a _)
    · rw [Nat.add_mul, Nat.mul_comm (v / a)]
      omega
    · rw [Nat.add_mul, Nat.mul_comm (v / a)]
      omega
  · apply eq_ceilMul ha (Nat.dvd_mul_left a _)
    · rw [Nat.mul_comm (v / a)]
      omega
    · rw [Nat.mul_comm (v / a)]
      omega

theorem divCeil_eq (v : Nat) {a : Nat} (ha : 0 < a) : divCeil v a = v ⌈/⌉ a :=
  Nat.eq_of_mul_eq_mul_right ha (divCeil_mul v ha)

/-- A word length rounded by the mask is the least multiple, and the sum under the mask overflows exactly when the least
multiple does. -/
theorem mask_eq_ceilMul {bits v a : Nat} (ha : a.isPowerOfTwo) (hab : a < 2 ^ bits) :
    (checkedAdd bits v (a - 1)).map (fun n => n &&& notMask bits (a - 1)) =
      if ceilMul v a < 2 ^ bits then some (ceilMul v a) else none := by
  have hpos : 0 < a := Nat.pos_of_isPowerOfTwo ha
  obtain ⟨⟨hdvd, hge⟩, -⟩ := least_mul v hpos
  have hlt := ceilMul_lt v hpos
  -- both the word size and the least multiple are multiples of `a`, so nothing lies between them
  have hword : a ∣ 2 ^ bits := by
    obtain ⟨k, rfl⟩ := ha
    exact Nat.pow_dvd_pow 2 (Nat.le_of_lt ((Nat.pow_lt_pow_iff_right (by decide)).1 hab))
  by_cases hfit : v + (a - 1) < 2 ^ bits
  · rw [checkedAdd_of_lt hfit, Option.map_some, and_notMask ha (Nat.le_of_lt hab) hfit]
    have hr := round_down (v + (a - 1)) hpos
    have heq := eq_ceilMul hpos hr.1 (by omega : v ≤ _) (by omega)
    rw [heq, if_pos (by omega)]
  · have hbig : 2 ^ bits ≤ ceilMul v a := by
      by_contra hsmall
      have hgap : a ≤ 2 ^ bits - ceilMul v a := Nat.le_of_dvd (by omega) (Nat.dvd_sub hword hdvd)
      omega
    rw [checkedAdd, if_neg hfit, if_neg (by omega)]
    rfl

/-- The ceiling quotient times the alignment overflows exactly when the least multiple does. -/
theorem checkedMul_divCeil (bits v : Nat) {a : Nat} (ha : 0 < a) :
    checkedMul bits (divCeil v a) a = if ceilMul v a < 2 ^ bits then some (ceilMul v a) else none := by
  unfold checkedMul
  rw [divCeil_mul v ha]

end Word
end MmapIo
