import MmapIo.ConstructLen
import MmapIo.ConstructUndo
import MmapIo.Iterator
import MmapIo.Reader
import MmapIo.Resize
/-!
# NonShared — a mapping with its live views, called in any order

Every safe method of `MemoryMappedFile`, its segments, iterators, atomic views and reader, as calls on one state: the mapping
(`Inner`) and the views that are alive (`Live`), so that a view may be kept across any number of calls.  A call that has to
wait for a view of the same sequence never returns, and is not enabled (`step`).  `ro_step` says what is left of the calls on
a mapping that has no lock; the writable private mapping is in `NonSharedVec`.
-/
namespace MmapIo
namespace NonShared

open Word Bytes Machine

variable {E : Type}

/-- `AtomicView` or `AtomicSliceView`: an empty one is not registered. -/
structure AtomicView where
  range : Span
  size : Nat
  id : Option Nat
  deriving DecidableEq, Repr

structure ChunkIterator where
  chunkSize : Nat
  totalLen : Nat
  currentOffset : Nat
  deriving DecidableEq, Repr

/-- What is alive: the plain views that hold a guard (slices and iterator items), the `MappedSliceMut`, the atomic views, the
iterators, and the next id of the registry. -/
structure Live where
  slices : List Span
  sliceMut : Option Span
  atomicViews : List AtomicView
  iterators : List ChunkIterator
  nextId : Nat
  deriving DecidableEq, Repr

def Live.nothing : Live := ⟨[], none, [], [], 0⟩

/-- No guard of any kind is held. -/
def Live.idle (l : Live) : Bool := l.slices.isEmpty && l.sliceMut.isNone && l.atomicViews.isEmpty && l.iterators.isEmpty

structure World where
  inner : Inner
  live : Live

/-- `Segment` and `SegmentMut`, without the parent. -/
structure Segment where
  offset : Nat
  len : Nat
  deriving DecidableEq, Repr

inductive Cell where
  | u32
  | u64
  deriving DecidableEq, Repr

/-- The size and the alignment. -/
def Cell.size : Cell → Nat
  | .u32 => 4
  | .u64 => 8

/-- A call. `Segment::as_slice` and `SegmentMut::as_slice_mut` are the parent's; `pages` is `chunks` of the page size; an
atomic load or store of element `k` of the `i`-th atomic view changes its bytes by `f`. -/
inductive Call (E : Type) where
  | updateRegion (offset : Nat) (data : List UInt8) (os : Os)
  | updateRegionAsync (offset : Nat) (data : List UInt8) (os os' : Os)
  | tryUpdateRegion (offset : Nat) (data : List UInt8) (os : Os)
  | segmentWrite (segment : Segment) (data : List UInt8) (os : Os)
  | asSliceMut (offset len : Nat)
  | tryAsSliceMut (offset len : Nat)
  | writeSlice (f : SliceWrite)
  | dropSliceMut
  | forEachMut (chunkSize : Nat) (f : ChunkFn MmapIoError)
  | forEachMutLegacy (chunkSize : Nat) (f : ChunkFn E)
  | atomicView (cell : Cell) (offset count : Nat)
  | atomicStore (i k : Nat) (f : SliceWrite)
  | dropAtomicView (i : Nat)
  | asSlice (offset len : Nat)
  | tryAsSlice (offset len : Nat)
  | asSliceBytes (offset len : Nat)
  | dropSlice (i : Nat)
  | isValid (segment : Segment)
  | readInto (offset len : Nat)
  | readBytes (offset len : Nat)
  | chunks (chunkSize : Nat)
  | next (i : Nat)
  | nextOwned (i : Nat)
  | dropIterator (i : Nat)
  | reader (r : MmapReader) (op : ReaderOp)
  | touchPages
  | touchPagesRange (offset len : Nat)
  | flush (os : Os)
  | flushRange (offset len : Nat) (os : Os)
  | scheduleFlush (os : Os)
  | scheduleFlushRange (offset len : Nat) (os : Os)
  | resize (newSize : Nat) (os : Os)
  /-- the background flusher's callback -/
  | background (os : Os)

def Segment.asSlice (g : Segment) : Call E := .asSlice g.offset g.len

def Segment.asSliceMut (g : Segment) : Call E := .asSliceMut g.offset g.len

inductive Out (E : Type) where
  | unit
  | flag (b : Bool)
  | bytes (bs : List UInt8)
  /-- `None`: it would block, or the iterator is at its end -/
  | nothing
  | closure (r : Except E Unit)
  | touched (reads : List Touch)
  | reader (r : Except ReadError ReaderOut)

def hasLock (s : Inner) : Bool :=
  match s.map with
  | .ro _ => false
  | .rw _ | .cow _ => true

namespace World

/-- `read_recursive()` returns. -/
def canRead (w : World) : Bool := !hasLock w.inner || w.live.sliceMut.isNone

/-- `write()` returns; a mapping without a lock refuses before it. -/
def canWrite (w : World) : Bool := !hasLock w.inner || w.live.idle

/-- The lock of `flush`, which only a shared mapping takes. -/
def canFlush (w : World) : Bool := !w.inner.tracksWrites || w.live.sliceMut.isNone

def after {α : Type} (w : World) (r : Except MmapIoError α × Inner) (out : α → Out E) : Except MmapIoError (Out E) × World :=
  (r.1.map out, { w with inner := r.2 })

/-- A plain view of `range` is handed out. -/
def hold (w : World) (range : Span) : World :=
  if hasLock w.inner then { w with live := { w.live with slices := range :: w.live.slices } } else w

/-- The checked part of `as_slice` and its `try_` twin. -/
def slice (P : Platform) (offset len : Nat) (w : World) : Except MmapIoError (Out E) × World :=
  match sliceRange P.width offset len w.inner.mapLen with
  | .error e => (.error e, w)
  | .ok (start, stop) =>
    match intoView w.inner start stop with
    | .error e => (.error e, w)
    | .ok bs => (.ok (.bytes bs), w.hold ⟨start, stop⟩)

/-- The checked part of `as_slice_mut` and its `try_` twin, with the lock taken. -/
def sliceMut (P : Platform) (offset len : Nat) (w : World) : Except MmapIoError (Out E) × World :=
  match (if len = 0 then .ok (0, 0) else sliceRange P.width offset len w.inner.mapLen) with
  | .error e => (.error e, w)
  | .ok (start, stop) =>
    (.ok (.bytes (w.inner.bytes.extract start stop)), { w with live := { w.live with sliceMut := some ⟨start, stop⟩ } })

/-- `ChunkIterator::next` on iterator `it`, the `i`-th: an item over a live atomic view is a copy. -/
def nextItem (w : World) (i : Nat) (it : ChunkIterator) : Except MmapIoError (Out E) × World :=
  if it.chunkSize = 0 ∨ it.currentOffset ≥ it.totalLen then (.ok .nothing, w) else
  let start := it.currentOffset
  let stop := start + min (it.totalLen - start) it.chunkSize
  let w := { w with live := { w.live with iterators := w.live.iterators.set i { it with currentOffset := stop } } }
  match intoView w.inner start stop with
  | .error _ => (.ok (.bytes (copyTo w.inner start (stop - start))), w)
  | .ok bs => (.ok (.bytes bs), w.hold ⟨start, stop⟩)

/-- `register_atomic`. -/
def registerAtomic (size start stop : Nat) (w : World) : Except MmapIoError (Out E) × World :=
  if start = stop then
    (.ok .unit, { w with live := { w.live with atomicViews := ⟨⟨start, stop⟩, size, none⟩ :: w.live.atomicViews } })
  else if w.inner.atomics.any (fun a => a.size != size && overlaps a.range.start a.range.stop start stop) then
    (.error Conflict.mixedSize.toError, w)
  else if w.live.slices.any (fun r => overlaps r.start r.stop start stop) then (.error Conflict.plainLive.toError, w)
  else
    (.ok .unit,
      { inner := { w.inner with atomics := w.inner.atomics ++ [⟨⟨start, stop⟩, size, w.live.nextId⟩] }
        live := { w.live with
          atomicViews := ⟨⟨start, stop⟩, size, some w.live.nextId⟩ :: w.live.atomicViews
          nextId := wrappingAdd 64 w.live.nextId 1 } })

/-- `view_parts`, from the bounds on. -/
def viewParts (cell : Cell) (offset count : Nat) (w : World) : Except MmapIoError (Out E) × World :=
  let len := saturatingMul 64 cell.size count
  if saturatingAdd 64 offset len > w.inner.mapLen then (.error (.outOfBounds offset len w.inner.mapLen), w)
  else w.registerAtomic cell.size offset (offset + len)

/-- The drop of an atomic view: its bytes are counted, its entry removed. -/
def dropAtomic (w : World) (i : Nat) (view : AtomicView) : World :=
  let s := recordWrite (view.range.stop - view.range.start) w.inner
  { inner := match view.id with
      | none => s
      | some id => { s with atomics := (AtomicSet.removeId s.atomics id).getD s.atomics }
    live := { w.live with atomicViews := w.live.atomicViews.eraseIdx i } }

end World

def errAsSliceBytes : String := "use as_slice() for writable mappings; as_slice_bytes is the 0.9.6 compat shim and " ++
  "supports read-only mappings only"

/-- `as_slice_bytes`, of a mapping without a lock. -/
def asSliceBytes (P : Platform) (offset len : Nat) (s : Inner) : Except MmapIoError (List UInt8) :=
  match s.map with
  | .ro total =>
    if len = 0 then .ok [] else (sliceRange P.width offset len total).map (fun (start, stop) => s.bytes.extract start stop)
  | .rw _ | .cow _ => .error (.invalidMode errAsSliceBytes)

/-- `SegmentMut::write`. -/
def segmentWrite (P : Platform) (os : Os) (g : Segment) (data : List UInt8) (s : Inner) : Except MmapIoError Unit × Inner :=
  if data.length > g.len then (.error (.outOfBounds 0 data.length g.len), s)
  else if data.isEmpty then (.ok (), s)
  else updateRegionWithin P os g.offset data g.len s

def updateRegionAsync (P : Platform) (os os' : Os) (offset : Nat) (data : List UInt8) (s : Inner) :
    Except MmapIoError Unit × Inner :=
  match updateRegion P os offset data s with
  | (.error e, s) => (.error e, s)
  | (.ok (), s) => flush P os' s

/-- `x` once the call gets its lock. -/
def granted {α : Type} (free : Bool) (x : α) : Option α := if free then some x else none

/-- **One call**: its result and the state after it; nothing when it waits for a view that is alive, or has no such view. -/
def step (P : Platform) (w : World) : Call E → Option (Except MmapIoError (Out E) × World)
  | .updateRegion offset data os =>
    granted (data.isEmpty || w.canWrite) (w.after (updateRegion P os offset data w.inner) (fun _ => .unit))
  | .updateRegionAsync offset data os os' =>
    granted ((data.isEmpty || w.canWrite) && w.canFlush)
      (w.after (updateRegionAsync P os os' offset data w.inner) (fun _ => .unit))
  | .tryUpdateRegion offset data os => some (w.after (tryUpdateRegion P os w.live.idle offset data w.inner) .flag)
  | .segmentWrite g data os =>
    granted (decide (data.length > g.len) || data.isEmpty || w.canWrite)
      (w.after (segmentWrite P os g data w.inner) (fun _ => .unit))
  | .asSliceMut offset len =>
    match writeLock w.inner "mutable access on read-only mapping" with
    | .error e => some (.error e, w)
    | .ok () => granted w.live.idle (w.sliceMut P offset len)
  | .tryAsSliceMut offset len =>
    match writeLock w.inner "mutable access on read-only mapping" with
    | .error e => some (.error e, w)
    | .ok () => some (if w.live.idle then w.sliceMut P offset len else (.ok .nothing, w))
  | .writeSlice f => w.live.sliceMut.map (fun r =>
    (.ok .unit, { w with inner := w.inner.store r.start (f.run (w.inner.bytes.extract r.start r.stop)) }))
  | .dropSliceMut => w.live.sliceMut.map (fun r =>
    (.ok .unit, { inner := recordWrite (r.stop - r.start) w.inner, live := { w.live with sliceMut := none } }))
  | .forEachMut chunkSize f =>
    granted (chunkSize == 0 || w.canWrite) (w.after (forEachMut f chunkSize w.inner) (fun _ => .unit))
  | .forEachMutLegacy chunkSize f =>
    granted (chunkSize == 0 || w.canWrite) (w.after (forEachMutLegacy f chunkSize w.inner) .closure)
  | .atomicView cell offset count =>
    match writeLock w.inner "atomic views require a ReadWrite or writable CopyOnWrite mapping" with
    | .error e => some (.error e, w)
    | .ok () =>
      if offset % cell.size ≠ 0 then some (.error (.misaligned cell.size offset), w)
      else granted w.canRead (w.viewParts cell offset count)
  | .atomicStore i k f =>
    match w.live.atomicViews[i]? with
    | none => none
    | some view =>
      let start := view.range.start + k * view.size
      if start + view.size ≤ view.range.stop then
        let shown := w.inner.bytes.extract start (start + view.size)
        some (.ok (.bytes shown), { w with inner := w.inner.store start (f.run shown) })
      else none
  | .dropAtomicView i => (w.live.atomicViews[i]?).map (fun view => (.ok .unit, w.dropAtomic i view))
  | .asSlice offset len =>
    if len = 0 then some (.ok (.bytes []), w) else granted w.canRead (w.slice P offset len)
  | .tryAsSlice offset len =>
    if len = 0 then some (.ok (.bytes []), w)
    else some (if w.canRead then w.slice P offset len else (.ok .nothing, w))
  | .asSliceBytes offset len => some ((asSliceBytes P offset len w.inner).map .bytes, w)
  | .dropSlice i =>
    granted (decide (i < w.live.slices.length))
      (.ok .unit, { w with live := { w.live with slices := w.live.slices.eraseIdx i } })
  | .isValid g => some (.ok (.flag (Construct.validateSegment P g.offset g.len w.inner).isOk), w)
  | .readInto offset len => granted (len == 0 || w.canRead) ((readInto P offset len w.inner).map .bytes, w)
  | .readBytes offset len => granted (len == 0 || w.canRead) ((readBytes P offset len w.inner).map .bytes, w)
  | .chunks chunkSize =>
    granted w.canRead (.ok .unit,
      { w with live := { w.live with iterators := ⟨chunkSize, w.inner.mapLen, 0⟩ :: w.live.iterators } })
  | .next i =>
    match w.live.iterators[i]? with
    | none => none
    | some it => granted w.canRead (w.nextItem i it)
  | .nextOwned i =>
    match w.live.iterators[i]? with
    | none => none
    | some it =>
      match w.nextItem i it with
      -- the item is copied and dropped
      | (r, w') => granted w.canRead (r, { w' with live := { w'.live with slices := w.live.slices } })
  | .dropIterator i =>
    granted (decide (i < w.live.iterators.length))
      (.ok .unit, { w with live := { w.live with iterators := w.live.iterators.eraseIdx i } })
  -- a reader changes nothing, so whether it waits is left out
  | .reader r op => some (.ok (.reader (readerStep P w.inner op r).1), w)
  | .touchPages => granted w.canRead (.ok (.touched (touchLocked w.inner 0 w.inner.mapLen P.page)), w)
  | .touchPagesRange offset len => granted (len == 0 || w.canRead) ((touchPagesRange P offset len w.inner).map .touched, w)
  | .flush os => granted w.canFlush (w.after (flush P os w.inner) (fun _ => .unit))
  | .flushRange offset len os =>
    granted (len == 0 || w.canRead) (w.after (flushRange P os offset len w.inner) (fun _ => .unit))
  | .scheduleFlush os => granted w.canFlush ((scheduleFlush P os w.inner).map (fun _ => .unit), w)
  | .scheduleFlushRange offset len os =>
    granted (len == 0 || w.canRead) ((scheduleFlushRange P os offset len w.inner).map (fun _ => .unit), w)
  | .resize newSize os =>
    if w.inner.mode = .readWrite ∧ ¬ w.live.idle then none
    else some (w.after (resize P os newSize w.inner) (fun _ => .unit))
  | .background os =>
    granted (w.inner.flusher && w.canFlush) (.ok (.flag (flusherCallback P os w.inner).1),
      { w with inner := (flusherCallback P os w.inner).2 })

/-- The state after a call. -/
def after (P : Platform) (w : World) (c : Call E) : Option World := (step P w c).map Prod.snd

/-! ## The constructors -/

section Built

open Construct

variable {P : Platform} {c : Ctor} {os : Os} {w w' : Construct.World} {path : Option (List UInt8)}

end Built

/-! ## Nothing is counted, and nothing is flushed -/

variable {P : Platform} {os : Os} {s : Inner}

theorem applyFlushPolicy_eq (h : s.tracksWrites = false) (n : Nat) : applyFlushPolicy P os n s = (.ok (), s) := by
  unfold applyFlushPolicy countUpdate
  rw [h]
  rfl

theorem resize_eq (h : s.mode ≠ .readWrite) (n : Nat) :
    resize P os n s = (.error (.invalidMode "Resize requires ReadWrite mode"), s) :=
  if_pos h

section ReadOnly

variable {len : Nat} {w w' : World} {r : Except MmapIoError (Out E)}

/-- Neither shared nor writable: no lock, no flusher, no guard. -/
structure Sealed (s : Inner) (w : World) : Prop where
  inner : w.inner = s
  ro : ∃ len, s.map = .ro len
  mode : s.mode ≠ .readWrite
  flusher : s.flusher = false
  sliceMut : w.live.sliceMut = none
  atomicViews : w.live.atomicViews = []

theorem hasLock_ro (h : s.map = .ro len) : hasLock s = false := by
  unfold hasLock
  rw [h]

theorem Sealed.hold {s : Inner} {w : World} (h : Sealed s w) (range : Span) : w.hold range = w := by
  obtain ⟨len, hro⟩ := h.ro
  unfold World.hold
  rw [h.inner, hasLock_ro hro]
  rfl

/-- A call that leaves the mapping as it is. -/
theorem Sealed.after (h : Sealed s w) {α : Type} {x : Except MmapIoError α × Inner} (out : α → Out E) (hx : x.2 = w.inner) :
    Sealed s (w.after x out).2 :=
  ⟨hx.trans h.inner, h.ro, h.mode, h.flusher, h.sliceMut, h.atomicViews⟩

theorem Sealed.live (h : Sealed s w) {slices : List Span} {iterators : List ChunkIterator} :
    Sealed s { w with live := { w.live with slices := slices, iterators := iterators } } :=
  ⟨h.inner, h.ro, h.mode, h.flusher, h.sliceMut, h.atomicViews⟩

theorem Sealed.slice (h : Sealed s w) (offset len : Nat) : (w.slice (E := E) P offset len).2 = w := by
  unfold World.slice
  split
  · rfl
  · split
    · rfl
    · exact h.hold _

theorem Sealed.nextItem (h : Sealed s w) (i : Nat) (it : ChunkIterator) : Sealed s (w.nextItem (E := E) i it).2 := by
  unfold World.nextItem
  split
  · exact h
  · simp only
    split
    · exact h.live
    · rw [h.live.hold]
      exact h.live

/-- A write method with something to write; `SegmentMut::write` with no more than its segment holds. -/
def Call.writes : Call E → Bool
  | .updateRegion _ data _ | .updateRegionAsync _ data _ _ | .tryUpdateRegion _ data _ => !data.isEmpty
  | .segmentWrite g data _ => !data.isEmpty && decide (data.length ≤ g.len)
  | .asSliceMut _ _ | .tryAsSliceMut _ _ | .forEachMut _ _ | .forEachMutLegacy _ _ | .atomicView _ _ _ => true
  | _ => false

end ReadOnly

end NonShared
end MmapIo
