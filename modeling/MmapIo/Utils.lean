import MmapIo.Lib.Word
/-!
# Utils — pointer widths, errors and range checks

The error type of the crate (`errors.rs`) and the range helpers every bounds-checked method calls (`utils.rs`).  A `u64`
or `usize` value is a `Nat`; what depends on the width (`usize::try_from`, `checked_add`, the limits) takes it from
`Width`, so a law holds on both supported targets unless it names one.
-/
namespace MmapIo

open Word

inductive Width where
  | w32
  | w64
  deriving DecidableEq, Repr

def Width.bits : Width → Nat
  | .w32 => 32
  | .w64 => 64

/-- `isize::MAX`, the largest mapping length the raw layer accepts (`range::MAX_LEN`). -/
def Width.maxLen (w : Width) : Nat := 2 ^ (w.bits - 1) - 1

/-- `MAX_MMAP_SIZE`: 128 TB on 64-bit targets, 2 GB on 32-bit ones. -/
def Width.maxMmapSize : Width → Nat
  | .w32 => 2 * 2 ^ 30
  | .w64 => 128 * 2 ^ 40

theorem Width.maxLen_lt (w : Width) : w.maxLen < 2 ^ w.bits := by cases w <;> decide

theorem Width.maxLen_lt_u64 (w : Width) : w.maxLen < 2 ^ 64 := by cases w <;> decide

theorem Width.maxLen_lt_i64 (w : Width) : w.maxLen < 2 ^ 63 := by cases w <;> decide

/-- A mapping's length is below the largest word, where saturating checks are exact. -/
theorem Width.lt_of_le_maxLen (w : Width) {n : Nat} (h : n ≤ w.maxLen) : n < 2 ^ 64 - 1 := by
  have hmax := w.maxLen_lt_i64
  omega

theorem Width.bits_le (w : Width) : w.bits ≤ 64 := by cases w <;> decide

/-! ## Errors -/

/-- What the raw layer's checked arithmetic rejects (`range.rs`, kind `InvalidInput`). -/
inductive RangeError where
  | offsetPastEnd (offset fileLen : Nat)
  | lengthNotU64 (requested : Nat)
  | pastEof (offset requested fileLen : Nat)
  | windowTooBig (available : Nat)
  | exceedsMax (len maxLen : Nat)
  | badGranularity (granularity : Nat)
  | granularityNotU64 (granularity : Nat)
  | deltaNotUsize (delta : Nat)
  | layoutExceedsMax (len delta maxLen : Nat)
  | flushOffset (offset windowLen : Nat)
  | flushPastEnd (offset flushLen windowLen : Nat)
  | badPage (page : Nat)
  | flushOverflow
  deriving DecidableEq, Repr

def RangeError.message : RangeError → String
  | .offsetPastEnd offset fileLen => s!"mapping offset {offset} is past the end of the file ({fileLen} bytes)"
  | .lengthNotU64 requested => s!"mapping length {requested} does not fit in u64"
  | .pastEof offset requested fileLen =>
    s!"mapping range offset {offset} + length {requested} extends past the end of the file ({fileLen} bytes)"
  | .windowTooBig available => s!"file window of {available} bytes does not fit in this target's address space"
  | .exceedsMax len maxLen => s!"mapping length {len} exceeds the largest addressable slice ({maxLen} bytes)"
  | .badGranularity granularity => s!"OS reported an invalid mapping granularity of {granularity} bytes"
  | .granularityNotU64 granularity => s!"granularity {granularity} does not fit in u64"
  | .deltaNotUsize delta => s!"alignment delta {delta} does not fit in usize"
  | .layoutExceedsMax len delta maxLen =>
    s!"mapping length {len} plus alignment {delta} exceeds the largest addressable slice ({maxLen} bytes)"
  | .flushOffset offset windowLen => s!"flush offset {offset} is past the end of the mapping ({windowLen} bytes)"
  | .flushPastEnd offset flushLen windowLen =>
    s!"flush range offset {offset} + length {flushLen} extends past the end of the mapping ({windowLen} bytes)"
  | .badPage page => s!"OS reported an invalid page size of {page} bytes"
  | .flushOverflow => "flush range arithmetic overflowed"

/-- An `io::Error`: the raw layer's own rejection, or one the OS reported, with its text. -/
inductive IoError where
  | invalidInput (e : RangeError)
  | os (text : String)
  deriving DecidableEq, Repr

def IoError.toString : IoError → String
  | .invalidInput e => e.message
  | .os text => text

inductive MmapIoError where
  | io (e : IoError)
  | invalidMode (msg : String)
  | outOfBounds (offset len total : Nat)
  | flushFailed (msg : String)
  | resizeFailed (msg : String)
  | adviceFailed (msg : String)
  | lockFailed (msg : String)
  | unlockFailed (msg : String)
  | misaligned (required offset : Nat)
  | watchFailed (msg : String)
  deriving DecidableEq, Repr

def okOr {ε α : Type} (o : Option α) (e : ε) : Except ε α :=
  match o with
  | some a => .ok a
  | none => .error e

@[simp] theorem okOr_some {ε α : Type} (a : α) (e : ε) : okOr (some a) e = .ok a := rfl

@[simp] theorem okOr_none {ε α : Type} (e : ε) : okOr (none : Option α) e = .error e := rfl

/-! ## Range checks -/

def ensureInBounds (offset len total : Nat) : Except MmapIoError Unit :=
  match checkedAdd 64 offset len with
  | some e => if e ≤ total then .ok () else .error (.outOfBounds offset len total)
  | none => .error (.outOfBounds offset len total)

/-- `slice_range`: `[offset, offset + len)` as `usize` bounds inside `total` bytes. -/
def sliceRange (w : Width) (offset len total : Nat) : Except MmapIoError (Nat × Nat) := do
  let oob := MmapIoError.outOfBounds offset len total
  let e ← okOr ((checkedAdd 64 offset len).filter (fun e => decide (e ≤ total))) oob
  match tryFrom w.bits offset, tryFrom w.bits e with
  | some start, some e => .ok (start, e)
  | _, _ => .error oob

theorem sliceRange_ok {w : Width} {offset len total start stop : Nat}
    (h : sliceRange w offset len total = .ok (start, stop)) : start = offset ∧ stop = offset + len ∧ stop ≤ total := by
  unfold sliceRange at h
  cases ha : (checkedAdd 64 offset len).filter (fun e => decide (e ≤ total)) with
  | none =>
    rw [ha] at h
    cases h
  | some e =>
    obtain ⟨hsum, hle⟩ := Option.filter_eq_some_iff.1 ha
    obtain ⟨rfl, -⟩ := checkedAdd_eq_some.1 hsum
    rw [ha] at h
    simp only [okOr_some, bind, Except.bind] at h
    split at h
    · rename_i start' stop' hs he
      cases h
      unfold tryFrom at hs he
      split at hs
      · cases hs
        split at he
        · cases he
          exact ⟨rfl, rfl, of_decide_eq_true hle⟩
        · cases he
      · cases hs
    · cases h

/-- **A range of a mapping is accepted exactly when it ends inside it**, and then unchanged. -/
theorem sliceRange_eq {w : Width} {offset len total : Nat} (ht : total ≤ w.maxLen) :
    sliceRange w offset len total =
      if offset + len ≤ total then .ok (offset, offset + len) else .error (.outOfBounds offset len total) := by
  have hw := w.maxLen_lt
  have h64 := w.maxLen_lt_u64
  unfold sliceRange
  by_cases h : offset + len ≤ total
  · rw [if_pos h, checkedAdd_of_lt (by omega), Option.filter_some_pos (by simpa using h)]
    simp only [okOr_some, bind, Except.bind]
    rw [tryFrom_of_lt (show offset < 2 ^ w.bits by omega), tryFrom_of_lt (show offset + len < 2 ^ w.bits by omega)]
  · rw [if_neg h]
    have hnone : (checkedAdd 64 offset len).filter (fun e => decide (e ≤ total)) = none := by
      unfold checkedAdd
      split
      · exact Option.filter_some_neg (by simpa using h)
      · rfl
    rw [hnone]
    rfl

end MmapIo
