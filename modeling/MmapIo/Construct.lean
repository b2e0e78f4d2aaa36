import MmapIo.Lib.Machine
import MmapIo.OpenOrCreate
/-!
# Construct — every constructor, one file-system call at a time

The constructors of `MemoryMappedFile` and the terminal methods of its builder (`mmap.rs`), and `load_mmap` (`manager.rs`), as
a machine: one step is one `open`, `set_len` or `metadata` of the constructor, the length query of the raw layer's
`map_impl`, or its `map_file`.  Each may fail (`Os`), and another process may change the length of the file between any two
(`Act.setLen`).  A failed constructor leaves the path as its own cleanup does.
-/
namespace MmapIo
namespace Construct

open Word Bytes Machine

def errZeroLengthFile : String := "Cannot map zero-length file"

/-- What `MemoryMappedFileBuilder` holds. -/
structure BuilderOptions extends Builder where
  mode : Option MmapMode
  cowWritable : Bool
  deriving DecidableEq, Repr

/-- The terminal methods `create`, `create_new`, `open` and `open_or_create`. -/
inductive Terminal where
  | create
  | createNew
  | openAs
  | openOrCreate
  deriving DecidableEq, Repr

inductive Ctor where
  | createRw (size : Nat)
  | openRo
  | openRw
  | openCow
  | openCowWritable
  | fromFile (mode : MmapMode)
  | build (b : BuilderOptions) (t : Terminal)
  deriving DecidableEq, Repr

def loadMmap : MmapMode → Ctor
  | .readOnly => .openRo
  | .readWrite => .openRw
  | .copyOnWrite => .openCow

def Terminal.defaultMode : Terminal → MmapMode
  | .openAs => .readOnly
  | .create | .createNew | .openOrCreate => .readWrite

namespace Ctor

def mode : Ctor → MmapMode
  | createRw _ | openRw => .readWrite
  | openRo => .readOnly
  | openCow | openCowWritable => .copyOnWrite
  | fromFile mode => mode
  | build b t => b.mode.getD t.defaultMode

def cowWritable : Ctor → Bool
  | openCowWritable => true
  | build b _ => b.cowWritable
  | _ => false

/-- The stored flush policy: the builder's on its `ReadWrite` path, else `Never`, the default. -/
def policy : Ctor → FlushPolicy
  | build b t => if (build b t).mode = .readWrite then b.flushPolicy else .never
  | _ => .never

/-- The raw layer is asked for the whole file (`RawMmap::map`, `RawMmapMut::map_mut`), not for an explicit length. -/
def whole : Ctor → Bool
  | createRw _ | openRo | openRw => true
  | openCow | openCowWritable => false
  | fromFile mode => mode ≠ .copyOnWrite
  | build b t => (build b t).mode = .readOnly

/-- The mapping of a constructor that recorded `len` and mapped `mapLen` bytes of `file`. -/
def inner (c : Ctor) (file : List UInt8) (len mapLen : Nat) : Inner where
  file := file
  map := match c.mode with
    | .readOnly => .ro mapLen
    | .readWrite => .rw mapLen
    | .copyOnWrite => if c.cowWritable then .cow (setLen file mapLen 0) else .ro mapLen
  cachedLen := len
  mode := c.mode
  flushPolicy := c.policy
  writtenSinceLastFlush := 0
  writesSinceLastFlush := 0
  flusher := match c.policy with
    | .everyMillis ms => decide (ms ≠ 0)
    | _ => false
  atomics := []
  syncs := []

end Ctor

/-- What comes next. -/
inductive Phase where
  /-- `open` with `create` and `truncate` -/
  | truncating (size : Nat)
  /-- `open` with `create_new`, of `create_new` -/
  | exclusive (size : Nat)
  /-- `open` of an existing file -/
  | opening
  /-- `open` of a pass of `open_or_create_rw_file`, with `passes` left -/
  | openPass (passes : Nat)
  /-- its `create_new` -/
  | createPass (passes size : Nat)
  /-- `file.metadata()`; `again` when `cow_inner` asks once more after it -/
  | querying (again : Bool)
  | sizing (size : Nat)
  /-- the length query of `map_impl`: the recorded length and the explicit one, if there is one -/
  | mapQuery (len : Nat) (request : Option Nat)
  /-- `os::map_file` of `mapLen` bytes -/
  | mapping (len mapLen : Nat)
  | done (r : Except MmapIoError Inner)
  deriving DecidableEq

/-- The cleanup a failure runs from here on. -/
inductive Undo where
  | nothing
  /-- `file.set_len(0)` -/
  | truncate
  /-- `remove_file` -/
  | remove
  deriving DecidableEq, Repr

def Undo.run (path : Option (List UInt8)) : Undo → Option (List UInt8)
  | .nothing => path
  | .truncate => path.map (fun _ => [])
  | .remove => none

structure World where
  path : Option (List UInt8)
  undo : Undo
  phase : Phase
  deriving DecidableEq

namespace World

def file (w : World) : List UInt8 := w.path.getD []

def fail (w : World) (e : MmapIoError) : World := { w with path := w.undo.run w.path, phase := .done (.error e) }

def failIo (w : World) (text : String) : World := w.fail (.io (.os text))

end World

/-- The checks a constructor makes before its first call. -/
def Ctor.begin (P : Platform) : Ctor → Phase
  | .createRw size =>
    if size = 0 then .done (.error (.resizeFailed errZeroSize))
    else if size > P.width.maxMmapSize then
      .done (.error (.resizeFailed s!"Size {size} exceeds maximum safe limit of {P.width.maxMmapSize} bytes"))
    else .truncating size
  | .openRo | .openRw | .openCow | .openCowWritable => .opening
  | .fromFile mode => .querying (mode = .copyOnWrite)
  | .build b .create =>
    if b.mode.getD .readWrite = .readWrite then
      match validatedCreateSize P.width b.size with
      | .error e => .done (.error e)
      | .ok size => .truncating size
    else .opening
  | .build b .createNew =>
    if b.mode.getD .readWrite = .readWrite then
      match validatedCreateSize P.width b.size with
      | .error e => .done (.error e)
      | .ok size => .exclusive size
    else .done (.error (.invalidMode "create_new creates a new ReadWrite mapping; open existing files with open()"))
  | .build _ .openAs => .opening
  | .build b .openOrCreate => if b.mode.getD .readWrite = .readWrite then .openPass 2 else .opening

def start (P : Platform) (c : Ctor) (path : Option (List UInt8)) : World := ⟨path, .nothing, c.begin P⟩

/-- What the open of a truncated or created file arms: `create_rw` and `create_new` clean up after a failure. -/
def Ctor.undoFor (c : Ctor) (existed : Bool) : Undo :=
  match c with
  | .createRw _ => if existed then .truncate else .remove
  | .build _ .createNew => .remove
  | _ => .nothing

def Ctor.opensOrCreates : Ctor → Bool
  | .build b .openOrCreate => b.mode.getD .readWrite = .readWrite
  | _ => false

/-- With the length known, on to the raw layer: `finish_rw` and `cow_inner` pass it on, the others do not. -/
def mapFrom (P : Platform) (c : Ctor) (len : Nat) (w : World) : World :=
  if c.whole then { w with phase := .mapQuery len none } else
  match tryFrom P.width.bits len with
  | none => w.fail (.resizeFailed s!"File length {len} does not fit in usize")
  | some mapLen => { w with phase := .mapQuery len (some mapLen) }

/-- The builder's size, where there is a builder. -/
def Ctor.size : Ctor → Option Nat
  | .build b _ => b.size
  | .createRw size => some size
  | _ => none

/-- The length came back from `file.metadata()`; only `open_or_create` goes on with an empty file that is to be written. -/
def gotLen (P : Platform) (c : Ctor) (len : Nat) (w : World) : World :=
  if c.mode = .readOnly ∨ len ≠ 0 then mapFrom P c len w
  else if c.opensOrCreates then
    match validatedCreateSize P.width c.size with
    | .error e => w.fail e
    | .ok size => { w with phase := .sizing size }
  else w.fail (.resizeFailed errZeroLengthFile)

def errNotFound : String := "No such file or directory (os error 2)"

def errExists : String := "File exists (os error 17)"

/-- **The next call of the constructor.** -/
def call (P : Platform) (c : Ctor) (os : Os) (w : World) : Option World :=
  match w.phase with
  | .truncating size =>
    match os.openFile with
    | some text => some (w.failIo text)
    | none => some ⟨some [], c.undoFor w.path.isSome, .sizing size⟩
  | .exclusive size =>
    match os.openFile, w.path with
    | some text, _ => some (w.failIo text)
    | none, some _ => some (w.failIo errExists)
    | none, none => some ⟨some [], c.undoFor false, .sizing size⟩
  | .opening =>
    match os.openFile, w.path with
    | some text, _ => some (w.failIo text)
    | none, none => some (w.failIo errNotFound)
    | none, some _ => some { w with phase := .querying false }
  | .openPass 0 => some (w.failIo "file was concurrently created and removed")
  | .openPass (passes + 1) =>
    match os.openFile, w.path with
    | some text, _ => some (w.failIo text)
    | none, some _ => some { w with phase := .querying false }
    | none, none =>
      match validatedCreateSize P.width c.size with
      | .error e => some (w.fail e)
      | .ok size => some { w with phase := .createPass passes size }
  | .createPass passes size =>
    match os.openFile, w.path with
    | some text, _ => some (w.failIo text)
    | none, some _ => some { w with phase := .openPass passes }
    | none, none => some ⟨some [], .nothing, .sizing size⟩
  | .querying again =>
    match os.metadata with
    | some text => some (w.failIo text)
    | none => some (if again then { w with phase := .querying false } else gotLen P c w.file.length w)
  | .sizing size =>
    match os.setLen with
    | some text => some (w.failIo text)
    | none => some (mapFrom P c size { w with path := w.path.map (fun file => setLen file size 0) })
  | .mapQuery len request =>
    match os.metadata with
    | some text => some (w.failIo text)
    | none =>
      match mapImplLayout P.width w.file.length 0 request P.granularity with
      | .error e => some (w.fail (.io (.invalidInput e)))
      | .ok l =>
        if l.len = 0 then some { w with phase := .done (.ok (c.inner w.file len 0)) }
        else some { w with phase := .mapping len l.len }
  | .mapping len mapLen =>
    match os.map with
    | some text => some (w.failIo text)
    | none => some { w with phase := .done (.ok (c.inner w.file len mapLen)) }
  | .done _ => none

/-- The constructor's next call, or another process's `set_len` on the file. -/
inductive Act where
  | call (os : Os)
  | setLen (n : Nat)

def step (P : Platform) (c : Ctor) (w : World) : Act → Option World
  | .call os => call P c os w
  | .setLen n => some { w with path := w.path.map (fun file => Bytes.setLen file n 0) }

/-! ## What a call can do -/

/-- Before the raw layer. -/
def Phase.early : Phase → Bool
  | .mapQuery _ _ | .mapping _ _ | .done _ => false
  | _ => true

/-- The lengths a phase carries: a size to be set is not 0, nor is the recorded length of a mapping that must not be empty;
an explicit request is the recorded length; what is mapped fits the address space. -/
def Phase.Sound (P : Platform) (c : Ctor) : Phase → Prop
  | .truncating size | .exclusive size | .createPass _ size | .sizing size => 0 < size
  | .mapQuery len request => (c.mode ≠ .readOnly → 0 < len) ∧ request = if c.whole then none else some len
  | .mapping len mapLen => (c.mode ≠ .readOnly → 0 < len) ∧ (c.whole = false → mapLen = len) ∧ mapLen ≤ P.width.maxLen
  | .done (.ok s) => ∃ file len mapLen, s = c.inner file len mapLen ∧ (c.mode ≠ .readOnly → 0 < len) ∧
      (c.whole = false → mapLen = len) ∧ mapLen ≤ P.width.maxLen
  | _ => True

variable {P : Platform} {c : Ctor} {os : Os} {w w' : World}

theorem mapFrom_cases (P : Platform) (c : Ctor) (len : Nat) (w : World) :
    (∃ e, mapFrom P c len w = w.fail e) ∨
      mapFrom P c len w = { w with phase := .mapQuery len (if c.whole then none else some len) } := by
  unfold mapFrom
  cases hw : c.whole with
  | true => exact Or.inr rfl
  | false =>
    cases hf : tryFrom P.width.bits len with
    | none => exact Or.inl ⟨_, rfl⟩
    | some mapLen =>
      have hlen : mapLen = len := by
        unfold tryFrom at hf
        split at hf <;> cases hf
        rfl
      exact Or.inr (by rw [hlen]; rfl)

/-- **A call before the raw layer** fails, goes on, or hands the raw layer a recorded length. -/
theorem call_early (hs : w.phase.Sound P c) (he : w.phase.early = true) (h : call P c os w = some w') :
    w'.phase.Sound P c ∧ ((∃ e, w'.phase = .done (.error e)) ∨ w'.phase.early = true ∨
      ∃ len, w'.phase = .mapQuery len (if c.whole then none else some len)) := by
  have hfail : ∀ (w : World) e, (w.fail e).phase.Sound P c ∧ ((∃ e', (w.fail e).phase = .done (.error e')) ∨
      (w.fail e).phase.early = true ∨ ∃ len, (w.fail e).phase = .mapQuery len (if c.whole then none else some len)) :=
    fun w e => ⟨trivial, Or.inl ⟨e, rfl⟩⟩
  have hmap : ∀ (w : World) len, (c.mode ≠ .readOnly → 0 < len) → (mapFrom P c len w).phase.Sound P c ∧
      ((∃ e, (mapFrom P c len w).phase = .done (.error e)) ∨ (mapFrom P c len w).phase.early = true ∨
        ∃ len', (mapFrom P c len w).phase = .mapQuery len' (if c.whole then none else some len')) := by
    intro w len hlen
    rcases mapFrom_cases P c len w with ⟨e, heq⟩ | heq <;> rw [heq]
    · exact hfail w e
    · exact ⟨⟨hlen, rfl⟩, Or.inr (Or.inr ⟨len, rfl⟩)⟩
  unfold call at h
  cases hp : w.phase with
  | truncating size =>
    rw [hp] at h hs
    simp only at h
    split at h <;> cases h
    · exact hfail _ _
    · exact ⟨hs, Or.inr (Or.inl rfl)⟩
  | exclusive size =>
    rw [hp] at h hs
    simp only at h
    split at h <;> cases h
    · exact hfail _ _
    · exact hfail _ _
    · exact ⟨hs, Or.inr (Or.inl rfl)⟩
  | opening =>
    rw [hp] at h
    simp only at h
    split at h <;> cases h
    · exact hfail _ _
    · exact hfail _ _
    · exact ⟨trivial, Or.inr (Or.inl rfl)⟩
  | openPass passes =>
    rw [hp] at h
    cases passes with
    | zero =>
      cases h
      exact hfail _ _
    | succ passes =>
      simp only at h
      split at h
      · cases h
        exact hfail _ _
      · cases h
        exact ⟨trivial, Or.inr (Or.inl rfl)⟩
      · split at h <;> cases h
        · exact hfail _ _
        · rename_i size hsize
          exact ⟨(validatedCreateSize_ok hsize).2.1, Or.inr (Or.inl rfl)⟩
  | createPass passes size =>
    rw [hp] at h hs
    simp only at h
    split at h <;> cases h
    · exact hfail _ _
    · exact ⟨trivial, Or.inr (Or.inl rfl)⟩
    · exact ⟨hs, Or.inr (Or.inl rfl)⟩
  | querying again =>
    rw [hp] at h
    simp only at h
    split at h <;> cases h
    · exact hfail _ _
    · cases again with
      | true => exact ⟨trivial, Or.inr (Or.inl rfl)⟩
      | false =>
        rw [if_neg Bool.false_ne_true]
        unfold gotLen
        split
        · rename_i hlen
          exact hmap w _ (fun hm => Nat.pos_of_ne_zero (hlen.resolve_left hm))
        · split
          · split
            · exact hfail _ _
            · rename_i size hsize
              exact ⟨(validatedCreateSize_ok hsize).2.1, Or.inr (Or.inl rfl)⟩
          · exact hfail _ _
  | sizing size =>
    rw [hp] at h hs
    simp only at h
    split at h <;> cases h
    · exact hfail _ _
    · exact hmap _ _ (fun _ => hs)
  | mapQuery len request | mapping len mapLen | done r =>
    rw [hp] at he
    cases he

/-- **The raw layer's query**: it fails, or resolves the explicit length, or else the length of the file at that moment. -/
theorem call_mapQuery {len : Nat} {request : Option Nat} (hp : w.phase = .mapQuery len request)
    (h : call P c os w = some w') : (∃ e, w'.phase = .done (.error e)) ∨
      (request.getD w.file.length = 0 ∧ w'.phase = .done (.ok (c.inner w.file len 0))) ∨
      (request.getD w.file.length ≤ P.width.maxLen ∧ w'.phase = .mapping len (request.getD w.file.length)) := by
  unfold call at h
  rw [hp] at h
  simp only at h
  split at h
  · cases h
    exact Or.inl ⟨_, rfl⟩
  · split at h
    · cases h
      exact Or.inl ⟨_, rfl⟩
    · rename_i l hl
      obtain ⟨⟨-, -, hmax⟩, rfl⟩ := (mapImplLayout_eq P.gran_pow P.gran_lt l).1 hl
      simp only [Nat.sub_zero] at h hmax
      split at h <;> cases h
      · rename_i hz
        exact Or.inr (Or.inl ⟨hz, rfl⟩)
      · exact Or.inr (Or.inr ⟨Nat.le_trans (Nat.le_add_left _ _) hmax, rfl⟩)

theorem call_mapping {len mapLen : Nat} (hp : w.phase = .mapping len mapLen) (h : call P c os w = some w') :
    (∃ e, w'.phase = .done (.error e)) ∨ w'.phase = .done (.ok (c.inner w.file len mapLen)) := by
  unfold call at h
  rw [hp] at h
  simp only at h
  split at h <;> cases h
  · exact Or.inl ⟨_, rfl⟩
  · exact Or.inr rfl

/-- **Every call keeps the lengths of its phase sound**; a mapping that was built is `Ctor.inner` of them. -/
theorem call_sound (hs : w.phase.Sound P c) (h : call P c os w = some w') : w'.phase.Sound P c := by
  cases he : w.phase.early with
  | true => exact (call_early hs he h).1
  | false =>
    cases hp : w.phase with
    | mapQuery len request =>
      rw [hp] at hs
      obtain ⟨hlen, hreq⟩ := hs
      have hexact : c.whole = false → request.getD w.file.length = len := by
        intro hw
        rw [hreq, hw]
        rfl
      rcases call_mapQuery hp h with ⟨e, hp'⟩ | ⟨hz, hp'⟩ | ⟨hmax, hp'⟩ <;> rw [hp']
      · trivial
      · exact ⟨w.file, len, 0, rfl, hlen, fun hw => hz.symm.trans (hexact hw), Nat.zero_le _⟩
      · exact ⟨hlen, hexact, hmax⟩
    | mapping len mapLen =>
      rw [hp] at hs
      rcases call_mapping hp h with ⟨e, hp'⟩ | hp' <;> rw [hp']
      · trivial
      · exact ⟨w.file, len, mapLen, rfl, hs.1, hs.2.1, hs.2.2⟩
    | done r =>
      unfold call at h
      rw [hp] at h
      cases h
    | _ =>
      rw [hp] at he
      cases he

/-- The checks before the first call refuse the arguments, or leave the raw layer to come. -/
theorem begin_cases (P : Platform) (c : Ctor) : (∃ e, c.begin P = .done (.error e)) ∨ (c.begin P).early = true := by
  unfold Ctor.begin
  split <;> repeat' split
  all_goals first | exact Or.inl ⟨_, rfl⟩ | exact Or.inr rfl

theorem begin_sound (P : Platform) (c : Ctor) : (c.begin P).Sound P c := by
  unfold Ctor.begin
  split
  · split
    · trivial
    · split
      · trivial
      · exact Nat.pos_of_ne_zero ‹_›
  all_goals repeat' split
  all_goals first
    | trivial
    | exact (validatedCreateSize_ok ‹_›).2.1

end Construct
end MmapIo
