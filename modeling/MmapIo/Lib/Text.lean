import Mathlib.Data.List.Basic
import Mathlib.Data.List.Induction
import Mathlib.Data.Nat.Digits.Defs
import MmapIo.Lib.Word
/-!
# Text — reading words and numbers off lines of text

A text is a list of characters.  `lines`, `firstToken`, `splitOnce` and `fromStrRadix` are the standard library's readers;
`Numeral` is a string of digits with its value, `fromStrRadix_numeral` reads it back, and a separator outside a word marks
the word's end (`firstToken_append`, `splitOnce_append`, `dropPrefix?_append_sep`).
-/
namespace MmapIo
namespace Text

open Word

/-- `char::is_whitespace`: the Unicode property `White_Space`. -/
def isWhite (c : Char) : Bool :=
  (9 ≤ c.toNat && c.toNat ≤ 13) || c.toNat == 0x20 || c.toNat == 0x85 || c.toNat == 0xa0 || c.toNat == 0x1680
    || (0x2000 ≤ c.toNat && c.toNat ≤ 0x200a) || c.toNat == 0x2028 || c.toNat == 0x2029 || c.toNat == 0x202f
    || c.toNat == 0x205f || c.toNat == 0x3000

/-- A terminated line without the carriage return before its line feed. -/
def chomp (line : List Char) : List Char := if line.getLast? = some '\r' then line.dropLast else line

/-- The lines from here on, `line` being read. -/
def linesFrom (line : List Char) : List Char → List (List Char)
  | [] => if line = [] then [] else [line]
  | c :: cs => if c = '\n' then chomp line :: linesFrom [] cs else linesFrom (line ++ [c]) cs

/-- `BufRead::lines` and `str::lines`: a last line without a line feed is a line too, and keeps a carriage return. -/
def lines (text : List Char) : List (List Char) := linesFrom [] text

/-- `split_whitespace().next()`. -/
def firstToken (cs : List Char) : Option (List Char) :=
  match (cs.dropWhile isWhite).takeWhile (fun c => !isWhite c) with
  | [] => none
  | token => some token

/-- `split_once(c)`. -/
def splitOnce (c : Char) : List Char → Option (List Char × List Char)
  | [] => none
  | d :: ds => if d = c then some ([], ds) else (splitOnce c ds).map (fun p => (d :: p.1, p.2))

/-- `char::to_digit(radix)`, for a radix up to 36. -/
def toDigit (radix : Nat) (c : Char) : Option Nat :=
  let d :=
    if 48 ≤ c.toNat ∧ c.toNat ≤ 57 then c.toNat - 48
    else if 65 ≤ c.toNat ∧ c.toNat ≤ 90 then c.toNat - 55
    else if 97 ≤ c.toNat ∧ c.toNat ≤ 122 then c.toNat - 87
    else radix
  if d < radix then some d else none

/-- One round of the loop of `from_str_radix`. -/
def pushDigit (bits radix acc : Nat) (c : Char) : Option Nat := do
  let mul ← checkedMul bits acc radix
  let d ← toDigit radix c
  checkedAdd bits mul d

/-- `from_str_radix` of an unsigned integer of `bits` bits: one leading plus sign is skipped. -/
def fromStrRadix (bits radix : Nat) : List Char → Option Nat
  | [] | ['+'] | ['-'] => none
  | '+' :: digits => digits.foldlM (pushDigit bits radix) 0
  | digits => digits.foldlM (pushDigit bits radix) 0

/-- A non-empty string of digits. -/
structure Numeral (radix : Nat) where
  digits : List Char
  ne_nil : digits ≠ []
  isDigit : ∀ c ∈ digits, (toDigit radix c).isSome

/-- The number a string of digits writes, the most significant digit first. -/
def digitsValue (radix : Nat) (cs : List Char) : Nat :=
  Nat.ofDigits radix (cs.reverse.map (fun c => (toDigit radix c).getD 0))

def Numeral.value {radix : Nat} (n : Numeral radix) : Nat := digitsValue radix n.digits

/-! ## Words -/

section

variable {c : Char} {pad pre rest : List Char}

theorem firstToken_pad (hp : ∀ c ∈ pad, isWhite c = true) : firstToken (pad ++ rest) = firstToken rest := by
  unfold firstToken
  rw [List.dropWhile_append_of_pos hp]

/-- A word is read up to the next white space, wherever that is. -/
theorem firstToken_append (hne : pre ≠ []) (hp : ∀ c ∈ pre, isWhite c = false) :
    firstToken (pre ++ rest) = some (pre ++ rest.takeWhile (fun c => !isWhite c)) := by
  have hin : ∀ c ∈ pre, (!isWhite c) = true := by
    intro c hc
    rw [hp c hc]
    rfl
  have hdrop : (pre ++ rest).dropWhile isWhite = pre ++ rest := by
    cases pre with
    | nil => exact absurd rfl hne
    | cons d ds => rw [List.cons_append, List.dropWhile_cons_of_neg (by simp [hp d (List.mem_cons_self ..)])]
  unfold firstToken
  rw [hdrop, List.takeWhile_append_of_pos hin]
  split
  · rename_i h
    exact absurd (List.append_eq_nil_iff.1 h).1 hne
  · rfl

/-- The rest of a line after a word: white space comes first, or nothing does. -/
def Closes (rest : List Char) : Prop := ∀ c ∈ rest.head?, isWhite c = true

theorem firstToken_word (hne : pre ≠ []) (hp : ∀ c ∈ pre, isWhite c = false) (hr : Closes rest) :
    firstToken (pre ++ rest) = some pre := by
  have hstop : rest.takeWhile (fun c => !isWhite c) = [] := by
    cases rest with
    | nil => rfl
    | cons d ds => rw [List.takeWhile_cons_of_neg (by simp [hr d rfl])]
  rw [firstToken_append hne hp, hstop, List.append_nil]

theorem splitOnce_append (h : c ∉ pre) : splitOnce c (pre ++ c :: rest) = some (pre, rest) := by
  induction pre with
  | nil => exact if_pos rfl
  | cons d ds ih =>
    rw [List.mem_cons, not_or] at h
    rw [List.cons_append, splitOnce, if_neg (Ne.symm h.1), ih h.2]
    rfl

theorem splitOnce_eq_some {cs : List Char} {p : List Char × List Char} (h : splitOnce c cs = some p) :
    cs = p.1 ++ c :: p.2 := by
  induction cs generalizing p with
  | nil => cases h
  | cons d ds ih =>
    rw [splitOnce] at h
    split at h
    · rename_i hd
      cases h
      rw [hd]
      rfl
    · obtain ⟨q, hq, rfl⟩ := Option.map_eq_some_iff.1 h
      rw [ih hq]
      rfl

/-- A line starts with the word and the separator exactly when that is its first word. -/
theorem dropPrefix?_append_sep {word key : List Char} (hw : c ∉ word) (hk : c ∉ key) :
    (word ++ c :: rest).dropPrefix? (key ++ [c]) = if word = key then some rest else none := by
  split
  · rename_i heq
    rw [heq, ← List.singleton_append, ← List.append_assoc]
    exact List.dropPrefix?_append_of_beq rest (beq_self_eq_true _)
  · rename_i hne
    rw [Option.eq_none_iff_forall_ne_some]
    intro rest' hsome
    obtain ⟨p, hline, hp⟩ := List.dropPrefix?_eq_some_iff.1 hsome
    rw [eq_of_beq hp, List.append_assoc, List.singleton_append] at hline
    -- the line splits at its first separator in one way only
    have hsplit : splitOnce c (word ++ c :: rest) = some (word, rest) := splitOnce_append hw
    rw [hline, splitOnce_append hk] at hsplit
    cases hsplit
    exact hne rfl

end

/-! ## Numbers -/

section

variable {bits radix : Nat} {c : Char}

/-- White space is outside the three runs of digits. -/
theorem toDigit_of_isWhite (h : isWhite c = true) : toDigit radix c = none := by
  simp only [isWhite, Bool.or_eq_true, Bool.and_eq_true, decide_eq_true_eq, beq_iff_eq] at h
  have hdec : ¬ (48 ≤ c.toNat ∧ c.toNat ≤ 57) := by omega
  have hupper : ¬ (65 ≤ c.toNat ∧ c.toNat ≤ 90) := by omega
  have hlower : ¬ (97 ≤ c.toNat ∧ c.toNat ≤ 122) := by omega
  unfold toDigit
  rw [if_neg hdec, if_neg hupper, if_neg hlower]
  exact if_neg (Nat.lt_irrefl radix)

theorem foldlM_eq_none {digits : List Char} (h : c ∈ digits) (hc : toDigit radix c = none) (acc : Nat) :
    digits.foldlM (pushDigit bits radix) acc = none := by
  induction digits generalizing acc with
  | nil => cases h
  | cons d ds ih =>
    rw [List.foldlM_cons]
    rcases List.mem_cons.1 h with rfl | h
    · simp [pushDigit, hc]
    · cases hd : pushDigit bits radix acc d with
      | none => rfl
      | some v => exact ih h v

/-- A string with a character that is no digit is no number. -/
theorem fromStrRadix_eq_none {digits : List Char} (h : c ∈ digits) (hc : toDigit radix c = none) (hs : c ≠ '+') :
    fromStrRadix bits radix digits = none := by
  unfold fromStrRadix
  split
  · rfl
  · rfl
  · rfl
  · rename_i rest _
    have hrest : c ∈ rest := (List.mem_cons.1 h).resolve_left hs
    exact foldlM_eq_none hrest hc 0
  · exact foldlM_eq_none h hc 0

theorem digitsValue_concat (cs : List Char) (c : Char) :
    digitsValue radix (cs ++ [c]) = digitsValue radix cs * radix + (toDigit radix c).getD 0 := by
  unfold digitsValue
  rw [List.reverse_append, List.reverse_singleton, List.singleton_append, List.map_cons, Nat.ofDigits_cons, Nat.add_comm,
    Nat.mul_comm]

/-- The digits are read to their value, unless that is no word: the value of a part is at most that of the whole. -/
theorem foldlM_digits {cs : List Char} (hr : 0 < radix) (h : ∀ c ∈ cs, (toDigit radix c).isSome) :
    cs.foldlM (pushDigit bits radix) 0 = tryFrom bits (digitsValue radix cs) := by
  induction cs using List.reverseRec with
  | nil => exact (tryFrom_of_lt (Nat.two_pow_pos bits)).symm
  | append_singleton cs c ih =>
    obtain ⟨d, hd⟩ := Option.isSome_iff_exists.1 (h c (by simp))
    have hpart : digitsValue radix cs ≤ digitsValue radix cs * radix := Nat.le_mul_of_pos_right _ hr
    rw [List.foldlM_append, ih (fun c hc => h c (List.mem_append_left _ hc)), digitsValue_concat, hd, Option.getD_some]
    by_cases hfit : digitsValue radix cs < 2 ^ bits
    · rw [tryFrom_of_lt hfit]
      simp only [List.foldlM_cons, List.foldlM_nil, Option.bind_eq_bind, Option.bind_some, pushDigit, hd, checkedMul,
        checkedAdd, tryFrom]
      by_cases hmul : digitsValue radix cs * radix < 2 ^ bits
      · rw [if_pos hmul, Option.bind_some]
        split <;> rfl
      · rw [if_neg hmul, if_neg (by omega)]
        rfl
    · rw [tryFrom_of_ge (Nat.not_lt.1 hfit), tryFrom_of_ge (by omega)]
      rfl

theorem Numeral.not_mem (n : Numeral radix) (hc : toDigit radix c = none) : c ∉ n.digits := by
  intro hmem
  have hd := n.isDigit c hmem
  rw [hc] at hd
  cases hd

theorem Numeral.isWhite_eq_false (n : Numeral radix) : ∀ c ∈ n.digits, isWhite c = false := by
  intro c hc
  by_contra hw
  rw [Bool.not_eq_false] at hw
  exact n.not_mem (toDigit_of_isWhite hw) hc

/-- **A string of digits is read to its value**, if that is a word. -/
theorem fromStrRadix_numeral (hr : 0 < radix) (n : Numeral radix) :
    fromStrRadix bits radix n.digits = tryFrom bits n.value := by
  have hplus : '+' ∉ n.digits := n.not_mem (by simp [toDigit])
  have hminus : '-' ∉ n.digits := n.not_mem (by simp [toDigit])
  unfold fromStrRadix
  split
  · rename_i h
    exact absurd h n.ne_nil
  · rename_i h
    exact absurd (h ▸ List.mem_singleton.2 rfl) hplus
  · rename_i h
    exact absurd (h ▸ List.mem_singleton.2 rfl) hminus
  · rename_i h
    exact absurd (h ▸ List.mem_cons_self ..) hplus
  · exact foldlM_digits hr n.isDigit

end

end Text
end MmapIo
