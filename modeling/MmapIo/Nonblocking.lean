import MmapIo.Lib.RwLock
import MmapIo.Mmap
/-!
# Nonblocking — the `try_` methods against the methods that wait

`as_slice`, `as_slice_mut` and `update_region` of `MemoryMappedFile` (`mmap.rs`) and of `AnonymousMmap` (`anonymous.rs`) with
the mapping's lock and the plain registrations as part of the state, each beside its `try_` twin.  A method that waits has no
result yet (`none`); a `try_` method always has one.  `try_methods_agree` compares the six pairs.
-/
namespace MmapIo
namespace Nonblocking

open Word Bytes

/-- `MappedSlice`: what it shows, and whether it holds a read guard and a registration. -/
structure MappedSlice where
  range : Span
  bytes : List UInt8
  guarded : Bool
  deriving DecidableEq, Repr

/-- `MappedSlice::owned(&[])`. -/
def MappedSlice.empty : MappedSlice := ⟨⟨0, 0⟩, [], false⟩

/-- `MappedSliceMut`: what it shows, and whether its drop counts its bytes. -/
structure MappedSliceMut where
  range : Span
  bytes : List UInt8
  pending : Bool
  deriving DecidableEq, Repr

/-- `register_plain`, with nobody else registering: the ranges of the plain views after it. -/
def registerPlain (atomics : List AtomicEntry) (plain : List Span) (start stop : Nat) : Except MmapIoError (List Span) :=
  if atomics.any (fun a => overlaps a.range.start a.range.stop start stop) then .error Conflict.atomicLive.toError
  else .ok (⟨start, stop⟩ :: plain)

variable {V : Type}

/-- A file mapping with its lock and the ranges of its live plain views. -/
structure MemoryMappedFile (V : Type) where
  inner : Inner
  lock : RwLock V
  plain : List Span

/-- The mapped bytes and `len`, which is set once, with the lock and the live views. -/
structure AnonymousMmap (V : Type) where
  map : List UInt8
  len : Nat
  lock : RwLock V
  plain : List Span
  atomics : List AtomicEntry

variable [DecidableEq V]

/-! ## File mappings -/

namespace MemoryMappedFile

/-- `map_read`, and the lock `try_as_slice` takes, for the holder `v`: the state with the guard, if one is needed; nothing
while a writer is active. -/
def mapRead (v : V) (s : MemoryMappedFile V) : Option (Bool × MemoryMappedFile V) :=
  match s.inner.map with
  | .ro _ => some (false, s)
  | .rw _ | .cow _ => (s.lock.acquireRead v).map (fun lock => (true, { s with lock := lock }))

def dropRead (v : V) (guarded : Bool) (s : MemoryMappedFile V) : MemoryMappedFile V :=
  if guarded then { s with lock := s.lock.releaseRead v } else s

/-- `MapRead::into_view`. -/
def intoView (v : V) (guarded : Bool) (start stop : Nat) (s : MemoryMappedFile V) :
    Except MmapIoError MappedSlice × MemoryMappedFile V :=
  if guarded then
    match registerPlain s.inner.atomics s.plain start stop with
    | .error e => (.error e, s.dropRead v guarded)
    | .ok plain => (.ok ⟨⟨start, stop⟩, s.inner.bytes.extract start stop, true⟩, { s with plain := plain })
  else (.ok ⟨⟨start, stop⟩, s.inner.bytes.extract start stop, false⟩, s)

def asSlice (P : Platform) (v : V) (offset len : Nat) (s : MemoryMappedFile V) :
    Option (Except MmapIoError MappedSlice × MemoryMappedFile V) :=
  if len = 0 then some (.ok .empty, s) else
  match s.mapRead v with
  | none => none
  | some (guarded, s) =>
    match sliceRange P.width offset len s.inner.mapLen with
    | .error e => some (.error e, s.dropRead v guarded)
    | .ok (start, stop) => some (s.intoView v guarded start stop)

def tryAsSlice (P : Platform) (v : V) (offset len : Nat) (s : MemoryMappedFile V) :
    Except MmapIoError (Option MappedSlice) × MemoryMappedFile V :=
  if len = 0 then (.ok (some .empty), s) else
  match s.mapRead v with
  | none => (.ok none, s)
  | some (guarded, s) =>
    match sliceRange P.width offset len s.inner.mapLen with
    | .error e => (.error e, s.dropRead v guarded)
    | .ok (start, stop) =>
      match s.intoView v guarded start stop with
      | (r, s) => (r.map some, s)

def asSliceMut (P : Platform) (v : V) (offset len : Nat) (s : MemoryMappedFile V) :
    Option (Except MmapIoError MappedSliceMut × MemoryMappedFile V) :=
  match writeLock s.inner "mutable access on read-only mapping" with
  | .error e => some (.error e, s)
  | .ok () =>
    match s.lock.acquireWrite v with
    | none => none
    | some lock =>
      match (if len = 0 then .ok (0, 0) else sliceRange P.width offset len s.inner.mapLen) with
      | .error e => some (.error e, { s with lock := lock.releaseWrite })
      | .ok (start, stop) =>
        some (.ok ⟨⟨start, stop⟩, s.inner.bytes.extract start stop, s.inner.tracksWrites⟩, { s with lock := lock })

def tryAsSliceMut (P : Platform) (v : V) (offset len : Nat) (s : MemoryMappedFile V) :
    Except MmapIoError (Option MappedSliceMut) × MemoryMappedFile V :=
  match writeLock s.inner "mutable access on read-only mapping" with
  | .error e => (.error e, s)
  | .ok () =>
    match s.lock.acquireWrite v with
    | none => (.ok none, s)
    | some lock =>
      match (if len = 0 then .ok (0, 0) else sliceRange P.width offset len s.inner.mapLen) with
      | .error e => (.error e, { s with lock := lock.releaseWrite })
      | .ok (start, stop) =>
        (.ok (some ⟨⟨start, stop⟩, s.inner.bytes.extract start stop, s.inner.tracksWrites⟩), { s with lock := lock })

/-- `flush`, which takes a read guard of its own. -/
def flush (P : Platform) (os : Os) (v : V) (s : MemoryMappedFile V) :
    Option (Except MmapIoError Unit × MemoryMappedFile V) :=
  match s.inner.map with
  | .ro _ | .cow _ => some (.ok (), s)
  | .rw len =>
    match s.lock.acquireRead v with
    | none => none
    | some lock =>
      match flushMapped P os len s.inner with
      | (r, inner) => some (r, { s with inner := inner, lock := lock.releaseRead v })

def updateRegion (P : Platform) (os : Os) (v : V) (offset : Nat) (data : List UInt8) (s : MemoryMappedFile V) :
    Option (Except MmapIoError Unit × MemoryMappedFile V) :=
  if data.isEmpty then some (.ok (), s) else
  match writeLock s.inner "Update region requires ReadWrite or CopyOnWrite mode." with
  | .error e => some (.error e, s)
  | .ok () =>
    match s.lock.acquireWrite v with
    | none => none
    | some lock =>
      match sliceRange P.width offset (max data.length data.length) s.inner.mapLen with
      | .error e => some (.error e, { s with lock := lock.releaseWrite })
      | .ok (start, _) =>
        -- the write guard is dropped before the policy runs
        match countUpdate data.length (s.inner.store start data) with
        | (false, inner) => some (.ok (), { s with inner := inner, lock := lock.releaseWrite })
        | (true, inner) => flush P os v { s with inner := inner, lock := lock.releaseWrite }

def tryUpdateRegion (P : Platform) (os : Os) (v : V) (offset : Nat) (data : List UInt8) (s : MemoryMappedFile V) :
    Except MmapIoError Bool × MemoryMappedFile V :=
  if data.isEmpty then (.ok true, s) else
  match writeLock s.inner "Update region requires ReadWrite or CopyOnWrite mode." with
  | .error e => (.error e, s)
  | .ok () =>
    match s.lock.acquireWrite v with
    | none => (.ok false, s)
    | some lock =>
      match sliceRange P.width offset data.length s.inner.mapLen with
      | .error e => (.error e, { s with lock := lock.releaseWrite })
      | .ok (start, _) =>
        match countUpdate data.length (s.inner.store start data) with
        | (false, inner) => (.ok true, { s with inner := inner, lock := lock.releaseWrite })
        | (true, inner) =>
          -- flushed under the same guard, downgraded
          match flushMapped P os inner.mapLen inner with
          | (.ok (), inner) => (.ok true, { s with inner := inner, lock := (lock.downgrade v).releaseRead v })
          | (.error e, inner) => (.error e, { s with inner := inner, lock := (lock.downgrade v).releaseRead v })

end MemoryMappedFile

/-! ## Anonymous mappings

The range is checked before the lock: the length never changes. -/

namespace AnonymousMmap

def asSlice (P : Platform) (v : V) (offset len : Nat) (s : AnonymousMmap V) :
    Option (Except MmapIoError MappedSlice × AnonymousMmap V) :=
  if len = 0 then some (.ok .empty, s) else
  match sliceRange P.width offset len s.len with
  | .error e => some (.error e, s)
  | .ok (start, stop) =>
    match s.lock.acquireRead v with
    | none => none
    | some lock =>
      match registerPlain s.atomics s.plain start stop with
      | .error e => some (.error e, { s with lock := lock.releaseRead v })
      | .ok plain => some (.ok ⟨⟨start, stop⟩, s.map.extract start stop, true⟩, { s with lock := lock, plain := plain })

def tryAsSlice (P : Platform) (v : V) (offset len : Nat) (s : AnonymousMmap V) :
    Except MmapIoError (Option MappedSlice) × AnonymousMmap V :=
  if len = 0 then (.ok (some .empty), s) else
  match sliceRange P.width offset len s.len with
  | .error e => (.error e, s)
  | .ok (start, stop) =>
    match s.lock.acquireRead v with
    | none => (.ok none, s)
    | some lock =>
      match registerPlain s.atomics s.plain start stop with
      | .error e => (.error e, { s with lock := lock.releaseRead v })
      | .ok plain => (.ok (some ⟨⟨start, stop⟩, s.map.extract start stop, true⟩), { s with lock := lock, plain := plain })

/-- The range of `as_mut_slice` and `try_as_mut_slice`. -/
def mutRange (P : Platform) (offset len : Nat) (s : AnonymousMmap V) : Except MmapIoError (Nat × Nat) :=
  if len = 0 then .ok (0, 0) else sliceRange P.width offset len s.len

def asMutSlice (P : Platform) (v : V) (offset len : Nat) (s : AnonymousMmap V) :
    Option (Except MmapIoError MappedSliceMut × AnonymousMmap V) :=
  match s.mutRange P offset len with
  | .error e => some (.error e, s)
  | .ok (start, stop) =>
    match s.lock.acquireWrite v with
    | none => none
    | some lock => some (.ok ⟨⟨start, stop⟩, s.map.extract start stop, false⟩, { s with lock := lock })

def tryAsMutSlice (P : Platform) (v : V) (offset len : Nat) (s : AnonymousMmap V) :
    Except MmapIoError (Option MappedSliceMut) × AnonymousMmap V :=
  match s.mutRange P offset len with
  | .error e => (.error e, s)
  | .ok (start, stop) =>
    match s.lock.acquireWrite v with
    | none => (.ok none, s)
    | some lock => (.ok (some ⟨⟨start, stop⟩, s.map.extract start stop, false⟩), { s with lock := lock })

def updateRegion (P : Platform) (v : V) (offset : Nat) (data : List UInt8) (s : AnonymousMmap V) :
    Option (Except MmapIoError Unit × AnonymousMmap V) :=
  if data.isEmpty then some (.ok (), s) else
  match sliceRange P.width offset data.length s.len with
  | .error e => some (.error e, s)
  | .ok (start, _) =>
    match s.lock.acquireWrite v with
    | none => none
    | some lock => some (.ok (), { s with map := splice s.map start data, lock := lock.releaseWrite })

def tryUpdateRegion (P : Platform) (v : V) (offset : Nat) (data : List UInt8) (s : AnonymousMmap V) :
    Except MmapIoError Bool × AnonymousMmap V :=
  if data.isEmpty then (.ok true, s) else
  match sliceRange P.width offset data.length s.len with
  | .error e => (.error e, s)
  | .ok (start, _) =>
    match s.lock.acquireWrite v with
    | none => (.ok false, s)
    | some lock => (.ok true, { s with map := splice s.map start data, lock := lock.releaseWrite })

end AnonymousMmap

/-! ## The pairs -/

/-- A method that waits and its `try_` twin: when the lock can be taken `atOnce` the twin returns the same and leaves the same
state; when it cannot, the twin returns what the `check` made before the lock says, and leaves the state alone; a request that
is `exempt` from the lock succeeds always. -/
structure Twins {σ α : Type} (atOnce exempt : Prop) (check : Except MmapIoError Unit) (s : σ)
    (waiting : Option (Except MmapIoError α × σ)) (attempt : Except MmapIoError (Option α) × σ) : Prop where
  same : atOnce → ∃ r s', waiting = some (r, s') ∧ attempt = (r.map some, s')
  givesUp : ¬ atOnce → ¬ exempt → attempt = (check.map (fun _ => none), s)
  always : exempt → ∃ a, attempt = (.ok (some a), s)

/-- `bool` as `Option<()>`: written, or not. -/
def written {σ : Type} (attempt : Except MmapIoError Bool × σ) : Except MmapIoError (Option Unit) × σ :=
  (attempt.1.map (fun b => if b then some () else none), attempt.2)

def Writable (lock : RwLock V) : Prop := lock.writer = none ∧ lock.readers = ∅

theorem acquireWrite_of_writable {lock : RwLock V} (h : Writable lock) (v : V) :
    lock.acquireWrite v = some (RwLock.heldBy v) :=
  if_pos h

theorem acquireWrite_of_not_writable {lock : RwLock V} (h : ¬ Writable lock) (v : V) : lock.acquireWrite v = none :=
  if_neg h

theorem acquireRead_of_no_writer {lock : RwLock V} (h : lock.writer = none) (v : V) :
    ∃ lock', lock.acquireRead v = some lock' :=
  ⟨_, if_pos h⟩

theorem acquireRead_of_writer {lock : RwLock V} (h : lock.writer ≠ none) (v : V) : lock.acquireRead v = none :=
  if_neg h

namespace MemoryMappedFile

/-- A read-only mapping has no lock. -/
def Readable (s : MemoryMappedFile V) : Prop := (∃ len, s.inner.map = .ro len) ∨ s.lock.writer = none

theorem mapRead_of_readable {s : MemoryMappedFile V} (h : s.Readable) (v : V) : ∃ g, s.mapRead v = some g := by
  unfold mapRead
  cases hm : s.inner.map with
  | ro len => exact ⟨_, rfl⟩
  | rw _ | cow _ =>
    have hfree : s.lock.writer = none := by
      rcases h with ⟨len, hro⟩ | hfree
      · cases hm.symm.trans hro
      · exact hfree
    obtain ⟨lock, hlock⟩ := acquireRead_of_no_writer hfree v
    exact ⟨(true, { s with lock := lock }), by rw [hlock]; rfl⟩

theorem mapRead_of_not_readable {s : MemoryMappedFile V} (h : ¬ s.Readable) (v : V) : s.mapRead v = none := by
  unfold mapRead
  cases hm : s.inner.map with
  | ro len => exact absurd (Or.inl ⟨len, hm⟩) h
  | rw _ | cow _ =>
    have hheld : s.lock.writer ≠ none := fun hfree => h (Or.inr hfree)
    simp only [acquireRead_of_writer hheld, Option.map_none]

variable (P : Platform) (os : Os) (v : V) (offset : Nat)

theorem twins_asSlice (len : Nat) (s : MemoryMappedFile V) :
    Twins s.Readable (len = 0) (.ok ()) s (s.asSlice P v offset len) (s.tryAsSlice P v offset len) := by
  unfold asSlice tryAsSlice
  refine ⟨?_, ?_, ?_⟩
  · intro h
    by_cases hz : len = 0
    · rw [if_pos hz, if_pos hz]
      exact ⟨_, _, rfl, rfl⟩
    · rw [if_neg hz, if_neg hz]
      obtain ⟨⟨guarded, s'⟩, hg⟩ := mapRead_of_readable h v
      rw [hg]
      simp only
      cases sliceRange P.width offset len s'.inner.mapLen with
      | error e => exact ⟨_, _, rfl, rfl⟩
      | ok range => exact ⟨_, _, rfl, rfl⟩
  · intro h hz
    rw [if_neg hz, mapRead_of_not_readable h]
    rfl
  · intro hz
    rw [if_pos hz]
    exact ⟨_, rfl⟩

theorem twins_asSliceMut (len : Nat) (s : MemoryMappedFile V) :
    Twins (Writable s.lock) False (writeLock s.inner "mutable access on read-only mapping") s
      (s.asSliceMut P v offset len) (s.tryAsSliceMut P v offset len) := by
  unfold asSliceMut tryAsSliceMut
  refine ⟨?_, ?_, False.elim⟩
  · intro h
    cases writeLock s.inner "mutable access on read-only mapping" with
    | error e => exact ⟨_, _, rfl, rfl⟩
    | ok _ =>
      rw [acquireWrite_of_writable h]
      simp only
      cases (if len = 0 then .ok (0, 0) else sliceRange P.width offset len s.inner.mapLen :
        Except MmapIoError (Nat × Nat)) with
      | error e => exact ⟨_, _, rfl, rfl⟩
      | ok range => exact ⟨_, _, rfl, rfl⟩
  · intro h _
    cases writeLock s.inner "mutable access on read-only mapping" with
    | error e => rfl
    | ok _ =>
      rw [acquireWrite_of_not_writable h]
      rfl

theorem tracksWrites_of_countUpdate {n : Nat} {s s' : Inner} (h : countUpdate n s = (true, s')) : ∃ len, s'.map = .rw len := by
  have hsame := countUpdate_same n s
  rw [h] at hsame
  unfold countUpdate Inner.tracksWrites at h
  rw [hsame.map]
  cases hm : s.map with
  | rw len => exact ⟨len, rfl⟩
  | ro _ | cow _ =>
    rw [hm] at h
    cases h

theorem twins_updateRegion (data : List UInt8) (s : MemoryMappedFile V) :
    Twins (Writable s.lock) (data = []) (writeLock s.inner "Update region requires ReadWrite or CopyOnWrite mode.") s
      (s.updateRegion P os v offset data) (written (s.tryUpdateRegion P os v offset data)) := by
  unfold updateRegion tryUpdateRegion written
  refine ⟨?_, ?_, ?_⟩
  · intro h
    by_cases hz : data.isEmpty
    · rw [if_pos hz, if_pos hz]
      exact ⟨_, _, rfl, rfl⟩
    rw [if_neg hz, if_neg hz]
    cases writeLock s.inner "Update region requires ReadWrite or CopyOnWrite mode." with
    | error e => exact ⟨_, _, rfl, rfl⟩
    | ok _ =>
      simp only [acquireWrite_of_writable h, Nat.max_self]
      cases sliceRange P.width offset data.length s.inner.mapLen with
      | error e => exact ⟨_, _, rfl, rfl⟩
      | ok range =>
        obtain ⟨start, stop⟩ := range
        simp only
        rcases hc : countUpdate data.length (s.inner.store start data) with ⟨due, inner⟩
        cases due with
        | false => exact ⟨_, _, rfl, rfl⟩
        | true =>
          obtain ⟨len, hrw⟩ := tracksWrites_of_countUpdate hc
          -- the second lock of `flush` is free again
          have hread : (RwLock.heldBy v).releaseWrite.acquireRead v = some ((RwLock.heldBy v).downgrade v) := rfl
          simp only [flush, hrw, hread, Inner.mapLen_rw hrw]
          rcases flushMapped P os len inner with ⟨r, inner'⟩
          cases r with
          | error e => exact ⟨_, _, rfl, rfl⟩
          | ok _ => exact ⟨_, _, rfl, rfl⟩
  · intro h hz
    rw [if_neg (by simpa using hz)]
    cases writeLock s.inner "Update region requires ReadWrite or CopyOnWrite mode." with
    | error e => rfl
    | ok _ =>
      rw [acquireWrite_of_not_writable h]
      rfl
  · rintro rfl
    exact ⟨(), rfl⟩

/-! The same methods called one at a time, in `Mmap`: the lock and the registrations only decide whether there is a result. -/

/-- The writes `f` through a `MappedSliceMut`, and its drop. -/
def dropMut (m : MappedSliceMut) (f : SliceWrite) (s : MemoryMappedFile V) : MemoryMappedFile V :=
  let inner := s.inner.store m.range.start (f.run m.bytes)
  { s with
    inner := if m.pending then
        { inner with writtenSinceLastFlush := wrappingAdd 64 inner.writtenSinceLastFlush (m.range.stop - m.range.start) }
      else inner
    lock := s.lock.releaseWrite }

theorem mapRead_inner {s s' : MemoryMappedFile V} {guarded : Bool} (h : s.mapRead v = some (guarded, s')) :
    s'.inner = s.inner ∧ (guarded = false ↔ ∃ len, s.inner.map = .ro len) := by
  unfold mapRead at h
  cases hm : s.inner.map with
  | ro len =>
    rw [hm] at h
    cases h
    exact ⟨rfl, iff_of_true rfl ⟨len, rfl⟩⟩
  | rw _ | cow _ =>
    rw [hm] at h
    obtain ⟨lock, -, heq⟩ := Option.map_eq_some_iff.1 h
    cases heq
    exact ⟨rfl, iff_of_false Bool.noConfusion (fun ⟨_, hro⟩ => by cases hro)⟩

theorem dropRead_inner (guarded : Bool) (s : MemoryMappedFile V) : (s.dropRead v guarded).inner = s.inner := by
  unfold dropRead
  split <;> rfl

theorem intoView_bytes {s : MemoryMappedFile V} {guarded : Bool} (h : guarded = false ↔ ∃ len, s.inner.map = .ro len)
    (start stop : Nat) : (s.intoView v guarded start stop).1.map MappedSlice.bytes = MmapIo.intoView s.inner start stop ∧
      (s.intoView v guarded start stop).2.inner = s.inner := by
  unfold intoView MmapIo.intoView
  cases hm : s.inner.map with
  | ro len =>
    rw [h.2 ⟨len, hm⟩]
    exact ⟨rfl, rfl⟩
  | rw _ | cow _ =>
    have hg : guarded = true := by
      cases guarded with
      | true => rfl
      | false =>
        obtain ⟨len, hro⟩ := h.1 rfl
        cases hm.symm.trans hro
    subst hg
    simp only [if_true, registerPlain]
    by_cases hany : s.inner.atomics.any (fun a => overlaps a.range.start a.range.stop start stop) = true
    · rw [if_pos hany, if_pos hany]
      exact ⟨rfl, dropRead_inner v true s⟩
    · rw [if_neg hany, if_neg hany]
      exact ⟨rfl, rfl⟩

theorem asSlice_result {s s' : MemoryMappedFile V} {r : Except MmapIoError MappedSlice} {len : Nat}
    (h : s.asSlice P v offset len = some (r, s')) :
    r.map MappedSlice.bytes = MmapIo.asSlice P offset len s.inner ∧ s'.inner = s.inner := by
  unfold asSlice at h
  unfold MmapIo.asSlice
  split at h
  · rename_i hz
    cases h
    rw [if_pos hz]
    exact ⟨rfl, rfl⟩
  rename_i hz
  rw [if_neg hz]
  split at h
  · cases h
  rename_i guarded s₁ hread
  obtain ⟨hinner, hg⟩ := mapRead_inner v hread
  rw [← hinner] at hg ⊢
  cases hrange : sliceRange P.width offset len s₁.inner.mapLen with
  | error e =>
    rw [hrange] at h
    cases h
    exact ⟨rfl, (dropRead_inner v guarded s₁).trans rfl⟩
  | ok range =>
    rw [hrange] at h
    have hview := intoView_bytes v hg range.1 range.2
    rw [Option.some.inj h] at hview
    exact hview

theorem updateRegion_result {s s' : MemoryMappedFile V} {r : Except MmapIoError Unit} {data : List UInt8}
    (h : s.updateRegion P os v offset data = some (r, s')) : (r, s'.inner) = MmapIo.updateRegion P os offset data s.inner := by
  unfold updateRegion at h
  unfold MmapIo.updateRegion updateRegionWithin applyFlushPolicy
  split at h
  · rename_i hz
    cases h
    rw [if_pos hz]
  rename_i hz
  rw [if_neg hz]
  cases hw : writeLock s.inner "Update region requires ReadWrite or CopyOnWrite mode." with
  | error e =>
    rw [hw] at h
    cases h
    rfl
  | ok _ =>
  rw [hw] at h
  simp only at h ⊢
  split at h
  · cases h
  cases hrange : sliceRange P.width offset (max data.length data.length) s.inner.mapLen with
  | error e =>
    rw [hrange] at h
    cases h
    rfl
  | ok range =>
  rw [hrange] at h
  simp only at h ⊢
  split at h
  · rename_i inner hc
    cases h
    rw [hc]
  rename_i inner hc
  rw [hc]
  unfold flush at h
  simp only at h
  unfold MmapIo.flush
  obtain ⟨len, hrw⟩ := tracksWrites_of_countUpdate hc
  simp only [hrw] at h ⊢
  split at h
  · cases h
  · rcases hf : flushMapped P os len inner with ⟨r', inner'⟩
    rw [hf] at h
    cases h
    rfl

theorem asSliceMut_result {s s' : MemoryMappedFile V} {r : Except MmapIoError MappedSliceMut} {len : Nat}
    (h : s.asSliceMut P v offset len = some (r, s')) (f : SliceWrite) :
    MmapIo.asSliceMut P offset len f s.inner =
      (r.map MappedSliceMut.bytes, match r with | .error _ => s'.inner | .ok m => (s'.dropMut m f).inner) := by
  unfold asSliceMut at h
  unfold MmapIo.asSliceMut
  cases hw : writeLock s.inner "mutable access on read-only mapping" with
  | error e =>
    rw [hw] at h
    cases h
    rfl
  | ok _ =>
  rw [hw] at h
  simp only at h ⊢
  split at h
  · cases h
  cases hrange : (if len = 0 then .ok (0, 0) else sliceRange P.width offset len s.inner.mapLen) with
  | error e =>
    rw [hrange] at h
    cases h
    rfl
  | ok range =>
  rw [hrange] at h
  obtain ⟨start, stop⟩ := range
  cases h
  have htracks : ∀ data, (s.inner.store start data).tracksWrites = s.inner.tracksWrites := by
    intro data
    unfold Inner.store Inner.tracksWrites
    cases hm : s.inner.map <;> simp only [hm]
  simp only [recordWrite, htracks, dropMut]
  rfl

end MemoryMappedFile

namespace AnonymousMmap

variable (P : Platform) (v : V) (offset : Nat)

theorem twins_asSlice (len : Nat) (s : AnonymousMmap V) :
    Twins (s.lock.writer = none) (len = 0) ((sliceRange P.width offset len s.len).map (fun _ => ())) s
      (s.asSlice P v offset len) (s.tryAsSlice P v offset len) := by
  unfold asSlice tryAsSlice
  refine ⟨?_, ?_, ?_⟩
  · intro h
    by_cases hz : len = 0
    · rw [if_pos hz, if_pos hz]
      exact ⟨_, _, rfl, rfl⟩
    rw [if_neg hz, if_neg hz]
    cases sliceRange P.width offset len s.len with
    | error e => exact ⟨_, _, rfl, rfl⟩
    | ok range =>
      obtain ⟨lock, hlock⟩ := acquireRead_of_no_writer h v
      simp only [hlock]
      cases registerPlain s.atomics s.plain range.1 range.2 with
      | error e => exact ⟨_, _, rfl, rfl⟩
      | ok plain => exact ⟨_, _, rfl, rfl⟩
  · intro h hz
    rw [if_neg hz]
    cases sliceRange P.width offset len s.len with
    | error e => rfl
    | ok range =>
      simp only [acquireRead_of_writer h]
      rfl
  · intro hz
    rw [if_pos hz]
    exact ⟨_, rfl⟩

theorem twins_asMutSlice (len : Nat) (s : AnonymousMmap V) :
    Twins (Writable s.lock) False ((s.mutRange P offset len).map (fun _ => ())) s
      (s.asMutSlice P v offset len) (s.tryAsMutSlice P v offset len) := by
  unfold asMutSlice tryAsMutSlice
  refine ⟨?_, ?_, False.elim⟩
  · intro h
    cases s.mutRange P offset len with
    | error e => exact ⟨_, _, rfl, rfl⟩
    | ok range =>
      simp only [acquireWrite_of_writable h]
      exact ⟨_, _, rfl, rfl⟩
  · intro h _
    cases s.mutRange P offset len with
    | error e => rfl
    | ok range =>
      simp only [acquireWrite_of_not_writable h]
      rfl

theorem twins_updateRegion (data : List UInt8) (s : AnonymousMmap V) :
    Twins (Writable s.lock) (data = []) ((sliceRange P.width offset data.length s.len).map (fun _ => ())) s
      (s.updateRegion P v offset data) (written (s.tryUpdateRegion P v offset data)) := by
  unfold updateRegion tryUpdateRegion written
  refine ⟨?_, ?_, ?_⟩
  · intro h
    by_cases hz : data.isEmpty
    · rw [if_pos hz, if_pos hz]
      exact ⟨_, _, rfl, rfl⟩
    rw [if_neg hz, if_neg hz]
    cases sliceRange P.width offset data.length s.len with
    | error e => exact ⟨_, _, rfl, rfl⟩
    | ok range =>
      simp only [acquireWrite_of_writable h]
      exact ⟨_, _, rfl, rfl⟩
  · intro h hz
    rw [if_neg (by simpa using hz)]
    cases sliceRange P.width offset data.length s.len with
    | error e => rfl
    | ok range =>
      simp only [acquireWrite_of_not_writable h]
      rfl
  · rintro rfl
    exact ⟨(), rfl⟩

end AnonymousMmap

/-- **The `try_` methods agree with the methods that wait**, for every file mapping `s` and anonymous mapping `a`, whatever
their bytes, counters, policy, views and lock, every holder `v`, every argument and every outcome of the sync. -/
theorem try_methods_agree (P : Platform) (os : Os) (v : V) (offset len : Nat) (data : List UInt8) (s : MemoryMappedFile V)
    (a : AnonymousMmap V) :
    Twins s.Readable (len = 0) (.ok ()) s (s.asSlice P v offset len) (s.tryAsSlice P v offset len) ∧
    Twins (Writable s.lock) False (writeLock s.inner "mutable access on read-only mapping") s
      (s.asSliceMut P v offset len) (s.tryAsSliceMut P v offset len) ∧
    Twins (Writable s.lock) (data = []) (writeLock s.inner "Update region requires ReadWrite or CopyOnWrite mode.") s
      (s.updateRegion P os v offset data) (written (s.tryUpdateRegion P os v offset data)) ∧
    Twins (a.lock.writer = none) (len = 0) ((sliceRange P.width offset len a.len).map (fun _ => ())) a
      (a.asSlice P v offset len) (a.tryAsSlice P v offset len) ∧
    Twins (Writable a.lock) False ((a.mutRange P offset len).map (fun _ => ())) a
      (a.asMutSlice P v offset len) (a.tryAsMutSlice P v offset len) ∧
    Twins (Writable a.lock) (data = []) ((sliceRange P.width offset data.length a.len).map (fun _ => ())) a
      (a.updateRegion P v offset data) (written (a.tryUpdateRegion P v offset data)) :=
  ⟨s.twins_asSlice P v offset len, s.twins_asSliceMut P v offset len, s.twins_updateRegion P os v offset data,
    a.twins_asSlice P v offset len, a.twins_asMutSlice P v offset len, a.twins_updateRegion P v offset data⟩

end Nonblocking
end MmapIo
