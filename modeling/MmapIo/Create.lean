import MmapIo.Resize
/-!
# Create — building a shared mapping

The `ReadWrite` path of the builder (`mmap.rs`): `create` sizes the truncated file and `finish_rw` maps it.  The path is
the bytes of its file, or nothing; a constructor returns its `Result` and the path after it.
-/
namespace MmapIo

open Word Bytes

def errZeroSize : String := "Size must be greater than zero"

def validatedCreateSize (w : Width) (size : Option Nat) : Except MmapIoError Nat := do
  let size ← okOr size (.resizeFailed "Size must be set for create() in ReadWrite mode")
  if size = 0 then .error (.resizeFailed errZeroSize)
  else if size > w.maxMmapSize then
    .error (.resizeFailed s!"Size {size} exceeds maximum safe limit of {w.maxMmapSize} bytes")
  else .ok size

theorem validatedCreateSize_ok {w : Width} {size : Option Nat} {n : Nat} (h : validatedCreateSize w size = .ok n) :
    size = some n ∧ 1 ≤ n ∧ n ≤ w.maxMmapSize := by
  cases size with
  | none => cases h
  | some m =>
    simp only [validatedCreateSize, okOr_some, bind, Except.bind] at h
    split at h
    · cases h
    · split at h
      · cases h
      · cases h
        exact ⟨rfl, by omega, by omega⟩

/-- `finish_rw`: map a file of `len` bytes; the touch hint and the huge-page hint change nothing that is modelled. -/
def finishRw (P : Platform) (os : Os) (policy : FlushPolicy) (file : List UInt8) (len : Nat) : Except MmapIoError Inner :=
  match tryFrom P.width.bits len with
  | none => .error (.resizeFailed s!"File length {len} does not fit in usize")
  | some mapLen =>
    match mapFileRw P os file.length mapLen with
    | .error e => .error (.io e)
    | .ok n => .ok
      { file := file
        map := .rw n
        cachedLen := len
        mode := .readWrite
        flushPolicy := policy
        writtenSinceLastFlush := 0
        writesSinceLastFlush := 0
        flusher := match policy with
          | .everyMillis ms => decide (ms ≠ 0)
          | _ => false
        atomics := []
        syncs := [] }

/-- `MemoryMappedFileBuilder::create` in `ReadWrite` mode. -/
def create (P : Platform) (os : Os) (policy : FlushPolicy) (size : Option Nat) (path : Option (List UInt8)) :
    Except MmapIoError Inner × Option (List UInt8) :=
  match validatedCreateSize P.width size with
  | .error e => (.error e, path)
  | .ok size =>
    match os.openFile with
    | some text => (.error (.io (.os text)), path)
    | none =>
      match os.setLen with
      | some text => (.error (.io (.os text)), some [])
      | none =>
        let file := setLen [] size 0
        (finishRw P os policy file size, some file)

/-- **A created mapping** is as long as asked for, and zero. -/
theorem create_ok {P : Platform} (policy : FlushPolicy) {n : Nat} (hpos : 1 ≤ n) (hsize : n ≤ P.width.maxMmapSize)
    (hmax : n ≤ P.width.maxLen) (path : Option (List UInt8)) :
    ∃ s, (create P Os.ok policy (some n) path).1 = .ok s ∧ s.file = List.replicate n 0 ∧ s.map = .rw n ∧ s.cachedLen = n ∧
      s.mode = .readWrite ∧ s.atomics = [] ∧ s.writtenSinceLastFlush = 0 := by
  have hfit : n < 2 ^ P.width.bits := Nat.lt_of_le_of_lt hmax P.width.maxLen_lt
  have hmap : mapFileRw P Os.ok n n = .ok n := mapFileRw_of_le rfl rfl (Nat.le_refl n) hmax
  have hvalid : validatedCreateSize P.width (some n) = .ok n := by
    simp only [validatedCreateSize, okOr_some, bind, Except.bind]
    rw [if_neg (by omega), if_neg (by omega)]
  simp only [create, hvalid, Os.ok, finishRw, tryFrom_of_lt hfit, length_setLen]
  rw [← Os.ok, hmap]
  exact ⟨_, rfl, by simp [setLen], rfl, rfl, rfl, rfl, rfl⟩

end MmapIo
