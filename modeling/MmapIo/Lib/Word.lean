import Mathlib.Data.Nat.Bitwise
/-!
# Word — fixed-width unsigned arithmetic on `Nat`

An unsigned machine word of `bits` bits is a `Nat` below `2 ^ bits`.  The checked, wrapping and saturating operations are
defined on all naturals, so a law about every natural is a law about every word.  The masks are those of power-of-two
alignments: `and_pred_eq_mod` reads the low bits, `and_notMask` clears them.
-/
namespace MmapIo
namespace Word

/-- `a.checked_add(b)` at `bits` bits. -/
def checkedAdd (bits a b : Nat) : Option Nat := if a + b < 2 ^ bits then some (a + b) else none

/-- `a.checked_mul(b)` at `bits` bits. -/
def checkedMul (bits a b : Nat) : Option Nat := if a * b < 2 ^ bits then some (a * b) else none

/-- `a.checked_sub(b)`. -/
def checkedSub (a b : Nat) : Option Nat := if b ≤ a then some (a - b) else none

/-- A narrowing conversion to `bits` bits. -/
def tryFrom (bits x : Nat) : Option Nat := if x < 2 ^ bits then some x else none

/-- A wrapping addition at `bits` bits. -/
def wrappingAdd (bits a b : Nat) : Nat := (a + b) % 2 ^ bits

/-- A wrapping subtraction at `bits` bits, of a word `b`. -/
def wrappingSub (bits a b : Nat) : Nat := (a + (2 ^ bits - b)) % 2 ^ bits

/-- A saturating addition at `bits` bits. -/
def saturatingAdd (bits a b : Nat) : Nat := min (a + b) (2 ^ bits - 1)

/-- A saturating multiplication at `bits` bits. -/
def saturatingMul (bits a b : Nat) : Nat := min (a * b) (2 ^ bits - 1)

/-- `!m` at `bits` bits. -/
def notMask (bits m : Nat) : Nat := 2 ^ bits - 1 - m

theorem checkedAdd_eq_some {bits a b c : Nat} : checkedAdd bits a b = some c ↔ a + b = c ∧ c < 2 ^ bits := by
  unfold checkedAdd
  split
  · rename_i h
    constructor
    · intro hc
      cases hc
      exact ⟨rfl, h⟩
    · rintro ⟨rfl, -⟩
      rfl
  · rename_i h
    constructor
    · intro hc
      cases hc
    · rintro ⟨rfl, h'⟩
      exact absurd h' h

theorem checkedAdd_of_lt {bits a b : Nat} (h : a + b < 2 ^ bits) : checkedAdd bits a b = some (a + b) :=
  checkedAdd_eq_some.2 ⟨rfl, h⟩

theorem checkedSub_of_le {a b : Nat} (h : b ≤ a) : checkedSub a b = some (a - b) := if_pos h

theorem checkedSub_of_lt {a b : Nat} (h : a < b) : checkedSub a b = none := if_neg (Nat.not_le.2 h)

theorem tryFrom_of_lt {bits x : Nat} (h : x < 2 ^ bits) : tryFrom bits x = some x := if_pos h

theorem tryFrom_eq_some {bits x y : Nat} (h : tryFrom bits x = some y) : y = x := by
  unfold tryFrom at h
  split at h <;> cases h
  rfl

theorem tryFrom_of_ge {bits x : Nat} (h : 2 ^ bits ≤ x) : tryFrom bits x = none := if_neg (Nat.not_lt.2 h)

theorem wrappingAdd_of_lt {bits a b : Nat} (h : a + b < 2 ^ bits) : wrappingAdd bits a b = a + b := Nat.mod_eq_of_lt h

theorem wrappingSub_of_le {bits a b : Nat} (ha : a < 2 ^ bits) (h : b ≤ a) : wrappingSub bits a b = a - b := by
  unfold wrappingSub
  rw [show a + (2 ^ bits - b) = a - b + 2 ^ bits by omega, Nat.add_mod_right, Nat.mod_eq_of_lt (by omega)]

theorem saturatingAdd_of_lt {bits a b : Nat} (h : a + b < 2 ^ bits) : saturatingAdd bits a b = a + b :=
  Nat.min_eq_left (by omega)

/-- **A saturating bound check is the exact one**, for every bound below the largest word. -/
theorem saturating_le {bits a b c n : Nat} (hn : n < 2 ^ bits - 1) :
    saturatingAdd bits a (saturatingMul bits b c) ≤ n ↔ a + b * c ≤ n := by
  unfold saturatingAdd saturatingMul
  omega

theorem saturatingMul_of_le {bits b c n : Nat} (hn : n < 2 ^ bits - 1) (h : b * c ≤ n) : saturatingMul bits b c = b * c :=
  Nat.min_eq_left (by omega)

/-- **The low bits under a power-of-two mask are the remainder.** -/
theorem and_pred_eq_mod (x : Nat) {g : Nat} (hg : g.isPowerOfTwo) : x &&& (g - 1) = x % g := by
  obtain ⟨k, rfl⟩ := hg
  exact Nat.and_two_pow_sub_one_eq_mod x k

/-- **Clearing the low bits rounds down to the alignment.** -/
theorem and_notMask {bits x g : Nat} (hg : g.isPowerOfTwo) (hgb : g ≤ 2 ^ bits) (hx : x < 2 ^ bits) :
    x &&& notMask bits (g - 1) = x - x % g := by
  obtain ⟨k, rfl⟩ := hg
  have hk : k ≤ bits := (Nat.pow_le_pow_iff_right (by decide)).1 hgb
  have hpos := Nat.one_le_two_pow (n := k)
  have hround : x - x % 2 ^ k = 2 ^ k * (x / 2 ^ k) := by
    have := Nat.div_add_mod x (2 ^ k)
    omega
  have hmask : notMask bits (2 ^ k - 1) = 2 ^ bits - (2 ^ k - 1 + 1) := by
    unfold notMask
    omega
  rw [hround, hmask]
  apply Nat.eq_of_testBit_eq
  intro i
  rw [Nat.testBit_and, Nat.testBit_two_pow_sub_succ (by omega), Nat.testBit_two_pow_sub_one, Nat.testBit_two_pow_mul,
    Nat.testBit_div_two_pow]
  by_cases hi : i < k
  · simp [hi]
  · have hki : k ≤ i := Nat.not_lt.1 hi
    by_cases hb : i < bits
    · simp [hi, hb, hki]
    · have hbit : x.testBit i = false :=
        Nat.testBit_lt_two_pow (Nat.lt_of_lt_of_le hx (Nat.pow_le_pow_right (by decide) (Nat.not_lt.1 hb)))
      simp [hb, hki, hbit]

/-- **Rounding down lands on a multiple, less than one alignment below.** -/
theorem round_down (x : Nat) {g : Nat} (hg : 0 < g) : g ∣ x - x % g ∧ x - x % g ≤ x ∧ x < x - x % g + g := by
  have hm := Nat.mod_lt x hg
  have hle := Nat.mod_le x g
  exact ⟨Nat.dvd_sub_mod x, Nat.sub_le _ _, by omega⟩

end Word
end MmapIo
