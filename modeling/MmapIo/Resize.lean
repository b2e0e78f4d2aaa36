import MmapIo.Mmap
/-!
# Resize — growing and shrinking a shared mapping

`resize` with `grow_locked` and both versions of `shrink_locked` (`mmap.rs`).  Every `set_len` and every mapping call may
fail (`Os`).  `resize_cases` says once what a call can do to the file, the mapping and the cached length; the laws of runs
on either platform are derived from it.
-/
namespace MmapIo

open Word Bytes

/-- `map_file_rw` (through `RawMmapOptions::map_mut` and `map_impl`): the length of the new mapping of a file of `fileLen`
bytes. -/
def mapFileRw (P : Platform) (os : Os) (fileLen len : Nat) : Except IoError Nat :=
  match os.metadata with
  | some text => .error (.os text)
  | none =>
    match mapImplLayout P.width fileLen 0 (some len) P.granularity with
    | .error e => .error (.invalidInput e)
    | .ok l =>
      if l.len = 0 then .ok 0 else
      match os.map with
      | some text => .error (.os text)
      | none => .ok l.len

/-- `grow_locked`: extend the file, then map it; a mapping that fails puts the file back, if it can. -/
def growLocked (P : Platform) (os : Os) (currentSize newSize newLen : Nat) (s : Inner) : Except MmapIoError Unit × Inner :=
  match os.setLen with
  | some text => (.error (.io (.os text)), s)
  | none =>
    let s := { s with file := setLen s.file newSize 0 }
    match mapFileRw P os s.file.length newLen with
    | .ok len => (.ok (), { s with map := .rw len })
    | .error e =>
      match os.restore with
      | none => (.error (.io e), { s with file := setLen s.file currentSize 0 })
      | some _ => (.error (.io e), s)

/-- `shrink_locked` (not Windows): map the prefix, then truncate. -/
def shrinkLockedUnix (P : Platform) (os : Os) (newSize newLen : Nat) (s : Inner) : Except MmapIoError Unit × Inner :=
  match mapFileRw P os s.file.length newLen with
  | .error e => (.error (.io e), s)
  | .ok len =>
    match os.setLen with
    | some text => (.error (.io (.os text)), s)
    | none => (.ok (), { s with file := setLen s.file newSize 0, map := .rw len })

/-- `shrink_locked` (Windows): replace the view by an empty placeholder, truncate, map again. -/
def shrinkLockedWindows (P : Platform) (os : Os) (currentLen newSize newLen : Nat) (s : Inner) :
    Except MmapIoError Unit × Inner :=
  match os.placeholder with
  | some text => (.error (.io (.os text)), s)
  | none =>
    let s := { s with map := .rw 0 }
    match os.setLen with
    | some text =>
      match mapFileRw P os s.file.length currentLen with
      | .error e => (.error (.io e), s)
      | .ok len => (.error (.io (.os text)), { s with map := .rw len })
    | none =>
      let s := { s with file := setLen s.file newSize 0 }
      match mapFileRw P os s.file.length newLen with
      | .error e => (.error (.io e), s)
      | .ok len => (.ok (), { s with map := .rw len })

/-- The part of `resize` under the write lock, on a mapping of `currentLen` bytes. -/
def resizeLocked (P : Platform) (os : Os) (currentLen newSize newLen : Nat) (s : Inner) : Except MmapIoError Unit × Inner :=
  if newLen = currentLen then (.ok (), s)
  else if currentLen < newLen then growLocked P os currentLen newSize newLen s
  else if P.windows then shrinkLockedWindows P os currentLen newSize newLen s
  else shrinkLockedUnix P os newSize newLen s

def resize (P : Platform) (os : Os) (newSize : Nat) (s : Inner) : Except MmapIoError Unit × Inner :=
  if s.mode ≠ .readWrite then (.error (.invalidMode "Resize requires ReadWrite mode"), s)
  else if newSize = 0 then (.error (.resizeFailed "New size must be greater than zero"), s)
  else if newSize > P.width.maxMmapSize then
    (.error (.resizeFailed s!"New size {newSize} exceeds maximum safe limit of {P.width.maxMmapSize} bytes"), s)
  else
    match tryFrom P.width.bits newSize with
    | none => (.error (.resizeFailed s!"New size {newSize} does not fit in usize"), s)
    | some newLen =>
      match s.map with
      | .ro _ | .cow _ => (.error (.invalidMode "Resize requires ReadWrite mode"), s)
      | .rw currentLen =>
        let (r, s) := resizeLocked P os currentLen newSize newLen s
        (r, { s with cachedLen := s.mapLen })

/-! ## What a call can do -/

variable {P : Platform} {os : Os}

/-- **A mapping that succeeds has the length asked for**, inside the file and the address space. -/
theorem mapFileRw_ok {fileLen len n : Nat} (h : mapFileRw P os fileLen len = .ok n) :
    n = len ∧ len ≤ fileLen ∧ len ≤ P.width.maxLen := by
  unfold mapFileRw at h
  cases hm : os.metadata with
  | some text =>
    rw [hm] at h
    cases h
  | none =>
    rw [hm] at h
    simp only at h
    cases hl : mapImplLayout P.width fileLen 0 (some len) P.granularity with
    | error e =>
      rw [hl] at h
      cases h
    | ok l =>
      rw [hl] at h
      simp only at h
      obtain ⟨⟨-, hfile, hmax⟩, rfl⟩ := (mapImplLayout_eq P.gran_pow P.gran_lt l).1 hl
      simp only [Option.getD_some, Nat.sub_zero, Nat.zero_mod, Nat.zero_add] at hfile hmax h
      refine ⟨?_, hfile, hmax⟩
      split at h
      · rename_i hz
        cases h
        exact hz.symm
      · cases hmap : os.map with
        | some text =>
          rw [hmap] at h
          cases h
        | none =>
          rw [hmap] at h
          cases h
          rfl

theorem mapFileRw_of_le {fileLen len : Nat} (hq : os.metadata = none) (hm : os.map = none) (hfile : len ≤ fileLen)
    (hmax : len ≤ P.width.maxLen) : mapFileRw P os fileLen len = .ok len := by
  have hl : mapImplLayout P.width fileLen 0 (some len) P.granularity = .ok _ :=
    (mapImplLayout_eq P.gran_pow P.gran_lt _).2 ⟨⟨Nat.zero_le _, by simpa using hfile, by simpa using hmax⟩, rfl⟩
  unfold mapFileRw
  rw [hq, hl, hm]
  simp only [Option.getD_some]
  split
  · rename_i hz
    rw [hz]
  · rfl

/-- **What a `resize` to `m` bytes can do** to a shared mapping of `len` bytes: its result and the state after it. -/
inductive Resized (P : Platform) (os : Os) (s : Inner) (len m : Nat) : Except MmapIoError Unit → Inner → Prop where
  /-- refused for its size, before anything is touched -/
  | refused {msg} (hm : m = 0 ∨ P.width.maxMmapSize < m ∨ 2 ^ P.width.bits ≤ m) :
      Resized P os s len m (.error (.resizeFailed msg)) s
  | same (hm : m = len) : Resized P os s len m (.ok ()) { s with cachedLen := len }
  /-- an OS call failed and the file and the mapping are as before -/
  | failed {e} (hpos : 0 < m) (hm : m ≠ len) : Resized P os s len m (.error (.io e)) { s with cachedLen := len }
  | grown (hm : len < m) (hmax : m ≤ P.width.maxLen) :
      Resized P os s len m (.ok ()) { s with file := setLen s.file m 0, map := .rw m, cachedLen := m }
  /-- the file was extended, not mapped, and put back -/
  | undone {e} (hm : len < m) (hmax : m ≤ P.width.maxMmapSize) (hset : os.setLen = none)
      (hmap : (mapFileRw P os m m).toBool = false) (hback : os.restore = none) :
      Resized P os s len m (.error (.io e)) { s with file := setLen (setLen s.file m 0) len 0, cachedLen := len }
  /-- the file was extended, not mapped, and not put back -/
  | left {e} (hm : len < m) : Resized P os s len m (.error (.io e)) { s with file := setLen s.file m 0, cachedLen := len }
  | shrunk (hpos : 0 < m) (hm : m < len) :
      Resized P os s len m (.ok ()) { s with file := setLen s.file m 0, map := .rw m, cachedLen := m }
  /-- Windows: neither truncated nor mapped again -/
  | emptied {e} (hw : P.windows = true) (hpos : 0 < m) (hm : m < len) :
      Resized P os s len m (.error (.io e)) { s with map := .rw 0, cachedLen := 0 }
  /-- Windows: truncated, not mapped again -/
  | cut {e} (hw : P.windows = true) (hpos : 0 < m) (hm : m < len) :
      Resized P os s len m (.error (.io e)) { s with file := setLen s.file m 0, map := .rw 0, cachedLen := 0 }

theorem resizeLocked_cases {s : Inner} {len m : Nat} (hrw : s.map = .rw len) (hpos : 0 < m)
    (hsize : m ≤ P.width.maxMmapSize) :
    Resized P os s len m (resizeLocked P os len m m s).1
      { (resizeLocked P os len m m s).2 with cachedLen := (resizeLocked P os len m m s).2.mapLen } := by
  have hlen : s.mapLen = len := Inner.mapLen_rw hrw
  unfold resizeLocked
  by_cases heq : m = len
  · rw [if_pos heq]
    simp only [hlen]
    exact .same heq
  rw [if_neg heq]
  by_cases hgrow : len < m
  · rw [if_pos hgrow]
    unfold growLocked
    cases hset : os.setLen with
    | some text =>
      simp only [hlen]
      exact .failed hpos heq
    | none =>
      simp only [length_setLen]
      cases hmap : mapFileRw P os m m with
      | ok n =>
        obtain ⟨rfl, -, hmax⟩ := mapFileRw_ok hmap
        exact .grown hgrow hmax
      | error e =>
        cases hback : os.restore with
        | none =>
          simp only [Inner.mapLen, hrw]
          rw [← hrw]
          exact .undone hgrow hsize hset (by rw [hmap]; rfl) hback
        | some text =>
          simp only [Inner.mapLen, hrw]
          rw [← hrw]
          exact .left hgrow
  rw [if_neg hgrow]
  have hshrink : m < len := by omega
  cases hw : P.windows with
  | true =>
    rw [if_pos rfl]
    unfold shrinkLockedWindows
    cases os.placeholder with
    | some text =>
      simp only [hlen]
      exact .failed hpos heq
    | none =>
      cases os.setLen with
      | some text =>
        simp only
        cases hmap : mapFileRw P os s.file.length len with
        | error e => exact .emptied hw hpos hshrink
        | ok n =>
          obtain ⟨rfl, -, -⟩ := mapFileRw_ok hmap
          simp only [Inner.mapLen, ← hrw]
          exact .failed hpos heq
      | none =>
        simp only [length_setLen]
        cases hmap : mapFileRw P os m m with
        | error e => exact .cut hw hpos hshrink
        | ok n =>
          obtain ⟨rfl, -, -⟩ := mapFileRw_ok hmap
          exact .shrunk hpos hshrink
  | false =>
    rw [if_neg Bool.false_ne_true]
    unfold shrinkLockedUnix
    cases hmap : mapFileRw P os s.file.length m with
    | error e =>
      simp only [hlen]
      exact .failed hpos heq
    | ok n =>
      obtain ⟨rfl, -, -⟩ := mapFileRw_ok hmap
      cases os.setLen with
      | some text =>
        simp only [hlen]
        exact .failed hpos heq
      | none => exact .shrunk hpos hshrink

/-- **Every outcome of `resize` on a shared mapping is one of these.** -/
theorem resize_cases {s : Inner} {len : Nat} (hmode : s.mode = .readWrite) (hrw : s.map = .rw len) (m : Nat) :
    Resized P os s len m (resize P os m s).1 (resize P os m s).2 := by
  unfold resize
  rw [if_neg (not_not.2 hmode)]
  by_cases h0 : m = 0
  · rw [if_pos h0]
    exact .refused (Or.inl h0)
  rw [if_neg h0]
  by_cases hmax : m > P.width.maxMmapSize
  · rw [if_pos hmax]
    exact .refused (Or.inr (Or.inl hmax))
  rw [if_neg hmax]
  by_cases hfit : m < 2 ^ P.width.bits
  · rw [tryFrom_of_lt hfit, hrw]
    exact resizeLocked_cases hrw (Nat.pos_of_ne_zero h0) (Nat.not_lt.1 hmax)
  · rw [tryFrom_of_ge (Nat.not_lt.1 hfit)]
    exact .refused (Or.inr (Or.inr (Nat.not_lt.1 hfit)))

/-- **With every OS call succeeding**, a mapping of the whole file is resized to any size both layers admit. -/
theorem resize_ok {s : Inner} {len m : Nat} (hmode : s.mode = .readWrite) (hrw : s.map = .rw len)
    (hfile : s.file.length = len) (hcached : s.cachedLen = len) (hpos : 0 < m) (hsize : m ≤ P.width.maxMmapSize)
    (hmax : m ≤ P.width.maxLen) :
    resize P Os.ok m s = (.ok (), { s with file := setLen s.file m 0, map := .rw m, cachedLen := m }) := by
  have hfit : m < 2 ^ P.width.bits := Nat.lt_of_le_of_lt hmax P.width.maxLen_lt
  have hmapm : mapFileRw P Os.ok m m = .ok m := mapFileRw_of_le rfl rfl (Nat.le_refl m) hmax
  have hlocked : resizeLocked P Os.ok len m m s = (.ok (), { s with file := setLen s.file m 0, map := .rw m }) := by
    unfold resizeLocked
    by_cases heq : m = len
    · subst heq
      rw [if_pos rfl, setLen_of_le (Nat.le_of_eq hfile.symm), ← hfile, List.take_length, hfile, ← hrw]
    rw [if_neg heq]
    by_cases hgrow : len < m
    · rw [if_pos hgrow]
      unfold growLocked
      simp only [length_setLen, hmapm]
      rfl
    rw [if_neg hgrow]
    cases hw : P.windows with
    | true =>
      rw [if_pos rfl]
      unfold shrinkLockedWindows
      simp only [length_setLen, hmapm]
      rfl
    | false =>
      have hmapf : mapFileRw P Os.ok s.file.length m = .ok m := mapFileRw_of_le rfl rfl (by omega) hmax
      rw [if_neg Bool.false_ne_true]
      unfold shrinkLockedUnix
      rw [hmapf]
      rfl
  unfold resize
  rw [if_neg (not_not.2 hmode), if_neg (by omega), if_neg (by omega), tryFrom_of_lt hfit]
  simp only [hrw, hlocked]
  rfl

end MmapIo
