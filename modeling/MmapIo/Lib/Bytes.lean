import Mathlib.Data.List.TakeDrop
/-!
# Bytes — overwriting a range of a buffer, and resizing it

`splice` is `copy_from_slice` into a range of a buffer, `setLen` the truncation or extension of a file.  Each is described
by its length and by every element (`getElem?_splice`, `getElem?_setLen`), and by how it acts on a prefix of the buffer,
which is what a shared mapping of a file is.
-/
namespace MmapIo
namespace Bytes

variable {α : Type}

/-- `buf[start..start + data.len()].copy_from_slice(data)`. -/
def splice (buf : List α) (start : Nat) (data : List α) : List α :=
  buf.take start ++ (data ++ buf.drop (start + data.length))

/-- The buffer cut, or extended with `zero`, to `n` elements. -/
def setLen (buf : List α) (n : Nat) (zero : α) : List α := buf.take n ++ List.replicate (n - buf.length) zero

theorem length_splice {buf : List α} {start : Nat} {data : List α} (h : start + data.length ≤ buf.length) :
    (splice buf start data).length = buf.length := by
  unfold splice
  rw [List.length_append, List.length_append, List.length_take, List.length_drop]
  omega

/-- **A splice changes its range and nothing else.** -/
theorem getElem?_splice {buf : List α} {start : Nat} {data : List α} (h : start + data.length ≤ buf.length) (i : Nat) :
    (splice buf start data)[i]? = if start ≤ i ∧ i < start + data.length then data[i - start]? else buf[i]? := by
  have htake : (buf.take start).length = start := by
    rw [List.length_take]
    omega
  unfold splice
  by_cases hlo : i < start
  · rw [List.getElem?_append_left (by omega), List.getElem?_take_of_lt hlo, if_neg (by omega)]
  · rw [List.getElem?_append_right (by omega), htake]
    by_cases hhi : i < start + data.length
    · rw [List.getElem?_append_left (by omega), if_pos ⟨by omega, hhi⟩]
    · rw [List.getElem?_append_right (by omega), List.getElem?_drop, if_neg (by omega)]
      congr 1
      omega

theorem take_splice_end {buf : List α} {start : Nat} {data : List α} (h : start + data.length ≤ buf.length) :
    (splice buf start data).take (start + data.length) = buf.take start ++ data := by
  have htake : (buf.take start).length = start := by
    rw [List.length_take]
    omega
  unfold splice
  rw [← List.append_assoc]
  exact List.take_left' (by rw [List.length_append, htake])

theorem drop_splice {buf : List α} {start k : Nat} {data : List α} (h : start + data.length ≤ buf.length)
    (hk : start + data.length ≤ k) : (splice buf start data).drop k = buf.drop k := by
  apply List.ext_getElem?
  intro i
  rw [List.getElem?_drop, List.getElem?_drop, getElem?_splice h, if_neg (by omega)]

@[simp] theorem splice_nil (buf : List α) (start : Nat) : splice buf start [] = buf := by
  simp [splice]

theorem splice_singleton {buf : List α} {i : Nat} (hi : i < buf.length) (x : α) : splice buf i [x] = buf.set i x := by
  rw [List.set_eq_take_append_cons_drop, if_pos hi]
  rfl

/-- **Two splices in a row are one.** -/
theorem splice_append {buf : List α} {start : Nat} {a b : List α} (h : start + a.length + b.length ≤ buf.length) :
    splice (splice buf start a) (start + a.length) b = splice buf start (a ++ b) := by
  have ha : start + a.length ≤ buf.length := by omega
  apply List.ext_getElem?
  intro i
  rw [getElem?_splice (by rw [length_splice ha]; exact h), getElem?_splice ha,
    getElem?_splice (by rw [List.length_append]; omega), List.length_append]
  by_cases hlo : start + a.length ≤ i
  · by_cases hhi : i < start + a.length + b.length
    · rw [if_pos ⟨hlo, hhi⟩, if_pos (by omega), List.getElem?_append_right (by omega)]
      congr 1
      omega
    · rw [if_neg (by omega), if_neg (by omega), if_neg (by omega)]
  · rw [if_neg (by omega)]
    by_cases hin : start ≤ i
    · rw [if_pos (by omega), if_pos (by omega), List.getElem?_append_left (by omega)]
    · rw [if_neg (by omega), if_neg (by omega)]

/-- **Overwriting one element of what was spliced in.** -/
theorem splice_set {buf : List α} {start : Nat} {data : List α} (h : start + data.length ≤ buf.length) {i : Nat}
    (hi : i < data.length) (x : α) : splice (splice buf start data) (start + i) [x] = splice buf start (data.set i x) := by
  apply List.ext_getElem?
  intro j
  rw [getElem?_splice (by rw [length_splice h, List.length_singleton]; omega), getElem?_splice h,
    getElem?_splice (by rw [List.length_set]; exact h), List.length_set, List.length_singleton, List.getElem?_set]
  by_cases hj : j = start + i
  · subst hj
    rw [if_pos ⟨Nat.le_refl _, Nat.lt_succ_self _⟩, if_pos (by omega), if_pos (by omega), if_pos (by omega), Nat.sub_self]
    rfl
  · rw [if_neg (by omega)]
    by_cases hin : start ≤ j ∧ j < start + data.length
    · rw [if_pos hin, if_pos hin, if_neg (by omega)]
    · rw [if_neg hin, if_neg hin]

/-- **Splicing in what is there** changes nothing. -/
theorem splice_extract {buf : List α} {start stop : Nat} (hle : start ≤ stop) (hstop : stop ≤ buf.length) :
    splice buf start (buf.extract start stop) = buf := by
  have hlen : (buf.extract start stop).length = stop - start := by
    rw [List.extract, List.length_take, List.length_drop]
    omega
  apply List.ext_getElem?
  intro i
  rw [getElem?_splice (by omega), hlen]
  by_cases hi : start ≤ i ∧ i < start + (stop - start)
  · rw [if_pos hi, List.extract, List.getElem?_take_of_lt (by omega), List.getElem?_drop]
    congr 1
    omega
  · rw [if_neg hi]

@[simp] theorem length_setLen (buf : List α) (n : Nat) (zero : α) : (setLen buf n zero).length = n := by
  unfold setLen
  rw [List.length_append, List.length_take, List.length_replicate]
  omega

/-- **A resized buffer keeps its elements below the new length and has `zero` past its old end.** -/
theorem getElem?_setLen (buf : List α) (n : Nat) (zero : α) (i : Nat) :
    (setLen buf n zero)[i]? = if i < n then some (buf[i]?.getD zero) else none := by
  by_cases hn : i < n
  · rw [if_pos hn]
    unfold setLen
    by_cases hb : i < buf.length
    · rw [List.getElem?_append_left (by rw [List.length_take]; omega), List.getElem?_take_of_lt hn,
        List.getElem?_eq_getElem hb]
      rfl
    · rw [List.getElem?_append_right (by rw [List.length_take]; omega), List.getElem?_replicate,
        if_pos (by rw [List.length_take]; omega), List.getElem?_eq_none (Nat.not_lt.1 hb)]
      rfl
  · rw [if_neg hn, List.getElem?_eq_none (by rw [length_setLen]; omega)]

theorem getElem?_setLen_of_lt {buf : List α} {n i : Nat} {x : α} (h : buf[i]? = some x) (hi : i < n) (zero : α) :
    (setLen buf n zero)[i]? = some x := by
  rw [getElem?_setLen, if_pos hi, h]
  rfl

theorem take_setLen {buf : List α} {n k : Nat} (hk : k ≤ n) (hb : k ≤ buf.length) (zero : α) :
    (setLen buf n zero).take k = buf.take k := by
  unfold setLen
  rw [List.take_append_of_le_length (by rw [List.length_take]; omega), List.take_take, Nat.min_eq_left hk]

theorem setLen_of_le {buf : List α} {n : Nat} (h : n ≤ buf.length) (zero : α) : setLen buf n zero = buf.take n := by
  unfold setLen
  rw [Nat.sub_eq_zero_of_le h]
  exact List.append_nil _

end Bytes
end MmapIo
