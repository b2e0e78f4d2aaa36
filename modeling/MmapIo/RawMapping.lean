import MmapIo.HugePages
import MmapIo.Mmap
/-!
# RawMapping — raw mappings and the OS calls behind them

`Mapping`, `RawMmap`, `RawMmapMut` and `RawMmapOptions` (`raw/mod.rs`) over both backends (`raw/unix.rs`, `raw/windows.rs`).
The OS is a `World`: the files, the live mappings by their base address, the open duplicated handles and sections.  What it
answers is an argument (`Answers`).  Two flags watch the contracts: `lied` when the OS broke its own (an address that is not
fresh), `misused` when a call did not meet what the OS asks of it (a range outside every mapping, an unmap of what is not
mapped, a hint that would discard private pages).
-/
namespace MmapIo
namespace Raw

open Word Bytes HugePages

inductive Access where
  | read
  | write
  | copy
  deriving DecidableEq, Repr

inductive Kind where
  | read
  | write
  | copy
  | anon
  deriving DecidableEq, Repr

def Kind.isPrivate : Kind → Bool
  | .copy | .anon => true
  | .read | .write => false

def Access.kind : Access → Kind
  | .read => .read
  | .write => .write
  | .copy => .copy

inductive Protection where
  | readOnly
  | readWrite
  | writeCopy
  deriving DecidableEq, Repr

def Protection.writes : Protection → Bool
  | .readOnly => false
  | .readWrite | .writeCopy => true

inductive FlushMode where
  | sync
  | async
  deriving DecidableEq, Repr

inductive MmapAdvice where
  | normal
  | random
  | sequential
  | willNeed
  | dontNeed
  deriving DecidableEq, Repr

/-- `Backing`; on Windows `Shared` holds a duplicated file handle. -/
inductive Backing where
  | priv
  | shared (dup : Option Nat)
  deriving DecidableEq, Repr

structure Mapping where
  ptr : Nat
  len : Nat
  delta : Nat
  osLen : Nat
  backing : Backing
  kind : Kind
  deriving DecidableEq, Repr

def Mapping.base (m : Mapping) : Nat := m.ptr - m.delta

/-! ## The OS -/

/-- What an OS mapping shows: a file from an offset on, shared, with a section that admits writing or not; a private copy of
one; or private memory. -/
inductive Source where
  | file (f offset : Nat) (writableSection : Bool)
  | copy (f offset : Nat)
  | anon
  deriving DecidableEq, Repr

/-- A live OS mapping; `own` are its private bytes. -/
structure Region where
  len : Nat
  source : Source
  writable : Bool
  own : Nat → Option UInt8

structure World where
  files : Nat → List UInt8
  regions : Nat → Option Region
  handles : Nat → Bool
  sections : Nat
  lied : Prop
  misused : Prop

/-- The OS's answers to the calls of one function. -/
structure Answers where
  metadata : Option String
  /-- the contents of `/proc/meminfo` -/
  meminfo : Option (List Char)
  /-- `DuplicateHandle` -/
  tryClone : Except String Nat
  /-- `CreateFileMappingW` -/
  createSection : Option String
  /-- `mmap` / `MapViewOfFile` -/
  map : Except String Nat
  protect : Option String
  flush : Option String
  syncData : Option String
  advise : Option String
  /-- the error, and whether it is `ERROR_NOT_LOCKED` -/
  lock : Option (String × Bool)

namespace World

/-- An address the OS may return for a new mapping: aligned, not wrapping, away from every live mapping; a view is never
null. -/
def Fresh (P : Platform) (w : World) (base len : Nat) : Prop :=
  P.granularity ∣ base ∧ base + len ≤ 2 ^ P.width.bits ∧ (P.windows = true → 0 < base) ∧
    ∀ b r, w.regions b = some r → base + len ≤ b ∨ b + r.len ≤ base

def place (P : Platform) (base : Nat) (r : Region) (w : World) : World :=
  { w with regions := Function.update w.regions base (some r), lied := w.lied ∨ ¬ w.Fresh P base r.len }

/-- `munmap` / `UnmapViewOfFile`, which takes no length. -/
def unmap (P : Platform) (base len : Nat) (w : World) : World :=
  { w with
    regions := Function.update w.regions base none
    misused := w.misused ∨ ¬ ∃ r, w.regions base = some r ∧ (P.windows = false → r.len = len) }

def openHandle (h : Nat) (w : World) : World :=
  { w with handles := Function.update w.handles h true, lied := w.lied ∨ w.handles h = true }

def closeHandle (h : Nat) (w : World) : World :=
  { w with handles := Function.update w.handles h false, misused := w.misused ∨ w.handles h = false }

/-- A page-aligned, non-empty range inside one live mapping. -/
def InOne (P : Platform) (w : World) (addr count : Nat) (ok : Region → Prop) : Prop :=
  P.page ∣ addr ∧ 0 < count ∧ ∃ b r, w.regions b = some r ∧ b ≤ addr ∧ addr + count ≤ b + r.len ∧ ok r

def check (ok : Prop) (w : World) : World := { w with misused := w.misused ∨ ¬ ok }

/-- The byte `off` bytes into the mapping at `base`; nothing when the access faults. Past the end of a file that was cut the OS
has zeroes up to the end of the page, and here there is nothing. -/
def byte (w : World) (base off : Nat) : Option UInt8 :=
  match w.regions base with
  | none => none
  | some r =>
    if off < r.len then
      match r.source with
      | .file f offset _ => (w.files f)[offset + off]?
      | .copy f offset => (r.own off).or (w.files f)[offset + off]?
      | .anon => some ((r.own off).getD 0)
    else none

/-- Storing a byte of private memory; the first store to a page copies it. -/
def ownPage (page off : Nat) (b : UInt8) (shown : Nat → Option UInt8) (own : Nat → Option UInt8) (j : Nat) : Option UInt8 :=
  if j / page = off / page then some (if j = off then b else (shown j).getD 0) else own j

/-- A store `off` bytes into the mapping at `base`; nothing when it faults. -/
def store (P : Platform) (base off : Nat) (b : UInt8) (w : World) : Option World :=
  match w.regions base with
  | none => none
  | some r =>
    if off < r.len ∧ r.writable = true then
      match r.source with
      | .file f offset _ =>
        if offset + off < (w.files f).length then
          some { w with files := Function.update w.files f ((w.files f).set (offset + off) b) }
        else none
      | .copy _ _ | .anon =>
        let r := { r with own := ownPage P.page off b (w.byte base) r.own }
        some { w with regions := Function.update w.regions base (some r) }
    else none

end World

/-! ## The backends -/

def errNullAddress : IoError := .os "mmap returned a null address"

def errNullView : IoError := .os "MapViewOfFile returned a null view"

/-- `finish` (Unix). -/
def finish (P : Platform) (base len : Nat) (w : World) : Except IoError Nat × World :=
  if base = 0 then (.error errNullAddress, w.unmap P base len) else (.ok base, w)

/-- `map_view` (Windows): the section lives as long as the call. -/
def mapView (P : Platform) (os : Answers) (r : Region) (w : World) : Except IoError Nat × World :=
  match os.createSection with
  | some text => (.error (.os text), w)
  | none =>
    let w := { w with sections := w.sections + 1 }
    match os.map with
    | .error text => (.error (.os text), { w with sections := w.sections - 1 })
    | .ok base =>
      let w := { w.place P base r with sections := w.sections - 1 }
      if base = 0 then (.error errNullView, w) else (.ok base, w)

/-- What `map_file` maps with this access. -/
def regionOf (P : Platform) (f : Nat) (access : Access) (l : Layout) : Region :=
  match access with
  | .read => ⟨l.mapLen, .file f l.alignedOffset (!P.windows), false, fun _ => none⟩
  | .write => ⟨l.mapLen, .file f l.alignedOffset true, true, fun _ => none⟩
  | .copy => ⟨l.mapLen, .copy f l.alignedOffset, true, fun _ => none⟩

def mapFileUnix (P : Platform) (os : Answers) (f : Nat) (access : Access) (l : Layout) (w : World) :
    Except IoError (Nat × Backing) × World :=
  match off64 l.alignedOffset with
  | none => (.error (.os s!"mapping offset {l.alignedOffset} does not fit in this target's off_t"), w)
  | some _ =>
    match os.map with
    | .error text => (.error (.os text), w)
    | .ok base =>
      match finish P base l.mapLen (w.place P base (regionOf P f access l)) with
      | (.error e, w) => (.error e, w)
      | (.ok base, w) => (.ok (base, if access = .write then .shared none else .priv), w)

def mapFileWindows (P : Platform) (os : Answers) (f : Nat) (access : Access) (l : Layout) (w : World) :
    Except IoError (Nat × Backing) × World :=
  match access with
  | .write =>
    match os.tryClone with
    | .error text => (.error (.os text), w)
    | .ok h =>
      match mapView P os (regionOf P f access l) (w.openHandle h) with
      | (.error e, w) => (.error e, w.closeHandle h)
      | (.ok base, w) => (.ok (base, .shared (some h)), w)
  | .read | .copy =>
    match mapView P os (regionOf P f access l) w with
    | (.error e, w) => (.error e, w)
    | (.ok base, w) => (.ok (base, .priv), w)

def mapFile (P : Platform) (os : Answers) (f : Nat) (access : Access) (l : Layout) (w : World) :
    Except IoError (Nat × Backing) × World :=
  if P.windows then mapFileWindows P os f access l w else mapFileUnix P os f access l w

/-- `map_anon` of the backends: the address and the OS length. -/
def mapAnonOs (P : Platform) (os : Answers) (mapLen : Nat) (flags : MapFlags) (w : World) : Except IoError (Nat × Nat) × World :=
  if P.windows then
    match mapView P os ⟨mapLen, .anon, true, fun _ => none⟩ w with
    | (.error e, w) => (.error e, w)
    | (.ok base, w) => (.ok (base, mapLen), w)
  else
    match hugeLayout P.width P.linux (readHugePageSize P.width os.meminfo) mapLen flags with
    | .error e => (.error (.os e.message), w)
    | .ok (osLen, _) =>
      match os.map with
      | .error text => (.error (.os text), w)
      | .ok base =>
        match finish P base osLen (w.place P base ⟨osLen, .anon, true, fun _ => none⟩) with
        | (.error e, w) => (.error e, w)
        | (.ok base, w) => (.ok (base, osLen), w)

def flushOs (P : Platform) (os : Answers) (addr count : Nat) (backing : Backing) (mode : FlushMode) (w : World) :
    Except IoError Unit × World :=
  match backing with
  | .priv => (.ok (), w)
  | .shared dup =>
    let w := w.check (w.InOne P addr count (fun r => ∃ f offset rw, r.source = .file f offset rw))
    match os.flush with
    | some text => (.error (.os text), w)
    | none =>
      match dup, mode with
      | some h, .sync =>
        let w := w.check (w.handles h = true)
        match os.syncData with
        | some text => (.error (.os text), w)
        | none => (.ok (), w)
      | _, _ => (.ok (), w)

/-- The protections `VirtualProtect` grants: those the view's section admits. -/
def Source.Admits : Source → Protection → Prop
  | _, .readOnly => True
  | .anon, .readWrite | .file _ _ true, .readWrite => True
  | .copy _ _, .writeCopy => True
  | _, _ => False

/-- `mprotect` / `VirtualProtect`, of a whole mapping. -/
def protectOs (P : Platform) (os : Answers) (base len : Nat) (prot : Protection) (w : World) : Except IoError Unit × World :=
  let w := w.check (∃ r, w.regions base = some r ∧ r.len = len ∧ (P.windows = true → r.source.Admits prot))
  match os.protect with
  | some text => (.error (.os text), w)
  | none =>
    let r := (w.regions base).map (fun r => { r with writable := prot.writes })
    (.ok (), { w with regions := Function.update w.regions base r })

def adviseOs (P : Platform) (os : Answers) (addr count : Nat) (advice : MmapAdvice) (w : World) : Except IoError Unit × World :=
  if P.windows = true ∧ advice ≠ .willNeed then (.ok (), w) else
  let w := w.check (w.InOne P addr count (fun r => advice = .dontNeed → ∃ f offset rw, r.source = .file f offset rw))
  match os.advise with
  | some text => (.error (.os text), w)
  | none => (.ok (), w)

def lockOs (P : Platform) (os : Answers) (addr count : Nat) (lock : Bool) (w : World) : Except IoError Unit × World :=
  let w := w.check (w.InOne P addr count (fun _ => True))
  match os.lock with
  | none => (.ok (), w)
  | some (text, notLocked) =>
    if P.windows = true ∧ lock = false ∧ notLocked = true then (.ok (), w) else (.error (.os text), w)

/-! ## Mappings -/

namespace Mapping

def empty (align : Nat) (kind : Kind) : Mapping := ⟨if align = 0 then 1 else align, 0, 0, 0, .priv, kind⟩

def fromOs (base : Nat) (l : Layout) (osLen : Nat) (backing : Backing) (kind : Kind) : Mapping :=
  ⟨base + l.delta, l.len, l.delta, osLen, backing, kind⟩

def span (P : Platform) (m : Mapping) (offset len : Nat) : Except IoError (Option (Nat × Nat)) :=
  match flushSpan P.width m.delta m.len offset len P.page with
  | .error e => .error (.invalidInput e)
  | .ok none => .ok none
  | .ok (some (start, count)) => .ok (some (m.base + start, count))

def flush (P : Platform) (os : Answers) (m : Mapping) (offset len : Nat) (mode : FlushMode) (w : World) :
    Except IoError Unit × World :=
  match m.span P offset len with
  | .error e => (.error e, w)
  | .ok none => (.ok (), w)
  | .ok (some (addr, count)) => flushOs P os addr count m.backing mode w

def errDontNeed : IoError := .os ("DontNeed is refused on private (copy-on-write or anonymous) mappings: it would discard " ++
  "the private pages while they may be borrowed")

def advise (P : Platform) (os : Answers) (m : Mapping) (advice : MmapAdvice) (offset len : Nat) (w : World) :
    Except IoError Unit × World :=
  match m.span P offset len with
  | .error e => (.error e, w)
  | .ok span =>
    if advice = .dontNeed ∧ m.kind.isPrivate = true then (.error errDontNeed, w) else
    match span with
    | none => (.ok (), w)
    | some (addr, count) => adviseOs P os addr count advice w

def lock (P : Platform) (os : Answers) (m : Mapping) (lock : Bool) (w : World) : Except IoError Unit × World :=
  match m.span P 0 m.len with
  | .error e => (.error e, w)
  | .ok none => (.ok (), w)
  | .ok (some (addr, count)) => lockOs P os addr count lock w

/-- `drop`: the OS mapping, then the duplicated handle. -/
def drop (P : Platform) (m : Mapping) (w : World) : World :=
  let w := if m.len = 0 then w else w.unmap P m.base m.osLen
  match m.backing with
  | .shared (some h) => w.closeHandle h
  | _ => w

/-- `protect` takes the mapping by value: when it fails the mapping is dropped. -/
def protect (P : Platform) (os : Answers) (m : Mapping) (prot : Protection) (w : World) : Except IoError Mapping × World :=
  if m.len = 0 then (.ok m, w) else
  match protectOs P os m.base m.osLen prot w with
  | (.error e, w) => (.error e, m.drop P w)
  | (.ok (), w) => (.ok m, w)

def errReadOnlySection : IoError := .os ("a read-only file mapping cannot be made writable on Windows: its section was " ++
  "created with PAGE_READONLY; map the file with map_mut and use make_read_only / make_mut to switch")

/-- `mark_shared_writable`. -/
def markSharedWritable (P : Platform) (m : Mapping) : Except IoError Mapping :=
  if P.windows then .error errReadOnlySection else .ok { m with backing := .shared none }

def intoWritable (P : Platform) (os : Answers) (m : Mapping) (w : World) : Except IoError Mapping × World :=
  match m.kind with
  | .read =>
    match (if m.len = 0 then .ok m else m.markSharedWritable P) with
    | .error e => (.error e, m.drop P w)
    | .ok m => protect P os { m with kind := .write } .readWrite w
  | .write | .anon => m.protect P os .readWrite w
  | .copy => m.protect P os .writeCopy w

end Mapping

/-! ## Options -/

/-- `RawMmapOptions`. -/
structure Options where
  offset : Nat
  len : Option Nat
  flags : MapFlags
  deriving DecidableEq, Repr

namespace Options

def mapImpl (P : Platform) (os : Answers) (o : Options) (f : Nat) (access : Access) (w : World) :
    Except IoError Mapping × World :=
  match os.metadata with
  | some text => (.error (.os text), w)
  | none =>
    match mapImplLayout P.width (w.files f).length o.offset o.len P.granularity with
    | .error e => (.error (.invalidInput e), w)
    | .ok l =>
      if l.len = 0 then (.ok (Mapping.empty P.granularity access.kind), w) else
      match mapFile P os f access l w with
      | (.error e, w) => (.error e, w)
      | (.ok (base, backing), w) => (.ok (Mapping.fromOs base l l.mapLen backing access.kind), w)

def mapAnon (P : Platform) (os : Answers) (o : Options) (w : World) : Except IoError Mapping × World :=
  match layout P.width 0 (o.len.getD 0) P.granularity P.width.maxLen with
  | .error e => (.error (.invalidInput e), w)
  | .ok l =>
    if l.len = 0 then (.ok (Mapping.empty P.granularity .anon), w) else
    match mapAnonOs P os l.mapLen o.flags w with
    | (.error e, w) => (.error e, w)
    | (.ok (base, osLen), w) => (.ok (Mapping.fromOs base l osLen .priv .anon), w)

end Options

end Raw
end MmapIo
