import MmapIo.Lib.FairLock
import MmapIo.Lib.Machine
import MmapIo.ViewsStep
/-!
# Locks — the locks of one writable mapping, one step at a time

Who holds and who waits for the mapping's `RwLock`, the `RwLock` of the atomic set and the eight shard mutexes, while any
number of threads run the read-side calls, the drops of their views and the write calls (`mmap.rs`, `views.rs`,
`iterator.rs`, `atomic.rs`).  Every program counter names the one lock operation of its step (`Pc.act`); `advance` is what the
call computes in that step.  What no lock depends on is left to the call: the shard of its thread, whether the flush policy
asks for a flush after the update, the chunk at which a closure fails, the length a `resize` leaves.
-/
namespace MmapIo
namespace Locks

open Word
open Views (PlainReg)

/-- What does not change: the pointer width, the page size, and whether the mapping is a `ReadWrite` one (else it is a
writable `CopyOnWrite` one). -/
structure Config where
  width : Width
  pageSize : Nat
  shared : Bool

/-- A view that holds a read guard: a `MappedSlice`, an atomic view (`AtomicReg.id`), a `ChunkIterator`. An empty slice and a
snapshot hold nothing. -/
inductive View where
  | plain (reg : PlainReg)
  | atomic (id : Option Nat)
  | iterator (chunkSize totalLen currentOffset : Nat)
  deriving DecidableEq, Repr

/-- The calls that start with `read_recursive`; `next` with the chunk it is about to yield. -/
inductive ReadCall where
  | asSlice (offset len : Nat) (shard : Fin shards)
  | readInto (offset len : Nat)
  | readBytes (offset len : Nat)
  | touchPages
  | touchPagesRange (offset len : Nat)
  | atomicView (size offset count : Nat)
  | chunks (chunkSize : Nat)
  | next (r : Span) (shard : Fin shards)
  | flush
  deriving DecidableEq, Repr

/-- The calls that take the write lock. -/
inductive WriteCall where
  | updateRegion (offset len : Nat) (due : Bool)
  | asSliceMut (offset len : Nat)
  | chunksMut (chunkSize : Nat) (failsAt : Option Nat)
  | resize (newSize leaves : Nat)
  deriving DecidableEq, Repr

/-- Who called `register_plain`. -/
inductive Caller where
  | intoView
  | next
  deriving DecidableEq, Repr

inductive Pc where
  | idle
  | mapRead (c : ReadCall)
  | guarded (c : ReadCall)
  -- `register_plain`
  | pLock (w : Caller) (r : Span) (shard : Fin shards)
  | pInsert (w : Caller) (r : Span) (shard : Fin shards)
  | pLoad (w : Caller) (r : Span) (reg : PlainReg)
  | pReadLock (w : Caller) (r : Span) (reg : PlainReg)
  | pScan (w : Caller) (r : Span) (reg : PlainReg)
  | pUndoLock (w : Caller) (reg : PlainReg)
  | pUndo (w : Caller) (reg : PlainReg)
  -- `copy_out` and `touch`
  | walkLock
  | walk
  -- `register_atomic`
  | aQueue (r : Span) (size : Nat)
  | aWriteLock (r : Span) (size : Nat)
  | aMixed (r : Span) (size : Nat)
  | aIncr (r : Span) (size : Nat)
  | aScanLock (r : Span) (size : Nat) (k : Fin shards)
  | aScan (r : Span) (size : Nat) (k : Fin shards)
  | aDecr
  | aPush (r : Span) (size : Nat)
  | aReleaseOk (id : Nat)
  | aReleaseErr
  -- the drops of `PlainReg` and `AtomicReg`
  | dropLock (reg : PlainReg)
  | dropRemove (reg : PlainReg)
  | dQueue (id : Nat)
  | dWriteLock (id : Nat)
  | dFind (id : Nat)
  | dDecr
  | dRelease
  -- the read guard of the call, or of the view that is dropped, goes last
  | unguard
  -- the write calls, and the drop of a `MappedSliceMut`
  | wQueue (c : WriteCall)
  | wLock (c : WriteCall)
  | wWork (c : WriteCall)
  | wChunk (chunkSize : Nat) (failsAt : Option Nat) (offset : Nat)
  | wCount
  | wRelease (flush : Bool)
  deriving DecidableEq, Repr

/-- What one step does with the locks. -/
inductive Act where
  | work
  | mRead
  | mUnread
  | mQueue
  | mWrite
  | mUnwrite
  | aRead
  | aUnread
  | aQueue
  | aWrite
  | aUnwrite
  | lock (k : Fin shards)
  | unlock (k : Fin shards)
  deriving DecidableEq, Repr

/-- The lock operation of the next step. -/
def Pc.act : Pc → Option Act
  | .idle => none
  | .mapRead _ => some .mRead
  | .pLock _ _ k => some (.lock k)
  | .pInsert _ _ k => some (.unlock k)
  | .pReadLock _ _ _ | .walkLock => some .aRead
  | .pScan _ _ _ | .walk => some .aUnread
  | .pUndoLock _ reg | .dropLock reg => some (.lock reg.shard)
  | .pUndo _ reg | .dropRemove reg => some (.unlock reg.shard)
  | .aQueue _ _ | .dQueue _ => some .aQueue
  | .aWriteLock _ _ | .dWriteLock _ => some .aWrite
  | .aScanLock _ _ k => some (.lock k)
  | .aScan _ _ k => some (.unlock k)
  | .aReleaseOk _ | .aReleaseErr | .dRelease => some .aUnwrite
  | .unguard => some .mUnread
  | .wQueue _ => some .mQueue
  | .wLock _ => some .mWrite
  | .wRelease _ => some .mUnwrite
  | .guarded _ | .pLoad _ _ _ | .aMixed _ _ | .aIncr _ _ | .aDecr | .aPush _ _ | .dFind _ | .dDecr | .wWork _ | .wChunk _ _ _
  | .wCount => some .work

/-- The registry and the length of the mapping, as the lock holders see them. -/
structure Data where
  atomics : AtomicSet
  atomicLive : Nat
  plain : Fin shards → Slab
  len : Nat

def Data.new (len : Nat) : Data := ⟨⟨[], 0⟩, 0, fun _ => Slab.empty, len⟩

def Data.setShard (d : Data) (k : Fin shards) (slab : Slab) : Data := { d with plain := Function.update d.plain k slab }

/-- A thread: where its call is, the views it holds between its calls, and whether it holds a `MappedSliceMut`. -/
structure Local where
  pc : Pc
  views : List View
  sliceMut : Bool

namespace Local

def new : Local := ⟨.idle, [], false⟩

def goto (l : Local) (p : Pc) : Local := { l with pc := p }

/-- The call returns a view, with the read guard it took. -/
def returns (l : Local) (v : View) : Local := { l with pc := .idle, views := v :: l.views }

end Local

/-! ## What a call computes in one step -/

theorem shards_pos : 0 < shards := by decide

/-- `ViewRegistry::touch` walks nothing of an empty range. -/
def touchPc (cfg : Config) (len : Nat) : Pc := if len = 0 ∨ cfg.pageSize = 0 then .unguard else .walkLock

/-- A call once it holds its read guard. -/
def guarded (cfg : Config) (d : Data) (l : Local) : ReadCall → Local
  | .asSlice offset len shard =>
    match sliceRange cfg.width offset len d.len with
    | .error _ => l.goto .unguard
    | .ok (start, stop) => l.goto (.pLock .intoView ⟨start, stop⟩ shard)
  | .readInto offset len | .readBytes offset len =>
    match sliceRange cfg.width offset len d.len with
    | .error _ => l.goto .unguard
    | .ok _ => l.goto .walkLock
  | .touchPages => l.goto (touchPc cfg d.len)
  | .touchPagesRange offset len =>
    match sliceRange cfg.width offset len d.len with
    | .error _ => l.goto .unguard
    | .ok (start, stop) => l.goto (touchPc cfg (stop - (start - start % cfg.pageSize)))
  | .atomicView size offset count =>
    let len := saturatingMul 64 size count
    if saturatingAdd 64 offset len > d.len then l.goto .unguard
    else if offset = offset + len then l.returns (.atomic none)
    else l.goto (.aQueue ⟨offset, offset + len⟩ size)
  | .chunks chunkSize => l.returns (.iterator chunkSize d.len 0)
  | .next r shard => l.goto (.pLock .next r shard)
  | .flush => l.goto .unguard

/-- A write call once it holds the write lock: the length of the mapping after it, and where it goes on. -/
def written (cfg : Config) (len : Nat) (l : Local) : WriteCall → Nat × Local
  | .updateRegion offset n due =>
    match sliceRange cfg.width offset n len with
    | .error _ => (len, l.goto (.wRelease false))
    | .ok _ => (len, l.goto (.wRelease (due && cfg.shared)))
  | .asSliceMut offset n =>
    if n = 0 then (len, { l with pc := .idle, sliceMut := true }) else
    match sliceRange cfg.width offset n len with
    | .error _ => (len, l.goto (.wRelease false))
    | .ok _ => (len, { l with pc := .idle, sliceMut := true })
  | .chunksMut chunkSize failsAt => (len, l.goto (.wChunk chunkSize failsAt 0))
  | .resize _ leaves => (leaves, l.goto (.wRelease false))

/-- **What the call computes in its next step.** -/
def advance (cfg : Config) (d : Data) (l : Local) : Data × Local :=
  match l.pc with
  | .idle => (d, l)
  | .mapRead c => (d, l.goto (.guarded c))
  | .guarded c => (d, guarded cfg d l c)
  | .pLock w r k => (d, l.goto (.pInsert w r k))
  | .pInsert w r k =>
    let (slab, slot) := (d.plain k).insert r
    (d.setShard k slab, l.goto (.pLoad w r ⟨k, slot⟩))
  | .pLoad w r reg => (d, if d.atomicLive = 0 then l.returns (.plain reg) else l.goto (.pReadLock w r reg))
  | .pReadLock w r reg => (d, l.goto (.pScan w r reg))
  | .pScan w r reg =>
    (d, if d.atomics.entries.any (fun a => overlaps a.range.start a.range.stop r.start r.stop)
      then l.goto (.pUndoLock w reg) else l.returns (.plain reg))
  | .pUndoLock w reg => (d, l.goto (.pUndo w reg))
  | .pUndo w reg =>
    (d.setShard reg.shard ((d.plain reg.shard).remove reg.slot),
      match w with
      | .intoView => l.goto .unguard
      | .next => l.goto .walkLock)
  | .walkLock => (d, l.goto .walk)
  | .walk => (d, l.goto .unguard)
  | .aQueue r size => (d, l.goto (.aWriteLock r size))
  | .aWriteLock r size => (d, l.goto (.aMixed r size))
  | .aMixed r size =>
    (d, if d.atomics.entries.any (fun a => a.size != size && overlaps a.range.start a.range.stop r.start r.stop)
      then l.goto .aReleaseErr else l.goto (.aIncr r size))
  | .aIncr r size => ({ d with atomicLive := wrappingAdd 64 d.atomicLive 1 }, l.goto (.aScanLock r size ⟨0, shards_pos⟩))
  | .aScanLock r size k => (d, l.goto (.aScan r size k))
  | .aScan r size k =>
    (d, if (d.plain k).overlaps r.start r.stop then l.goto .aDecr
      else if h : k.val + 1 < shards then l.goto (.aScanLock r size ⟨k.val + 1, h⟩) else l.goto (.aPush r size))
  | .aDecr => ({ d with atomicLive := wrappingSub 64 d.atomicLive 1 }, l.goto .aReleaseErr)
  | .aPush r size =>
    ({ d with atomics := ⟨d.atomics.entries ++ [⟨r, size, d.atomics.nextId⟩], wrappingAdd 64 d.atomics.nextId 1⟩ },
      l.goto (.aReleaseOk d.atomics.nextId))
  | .aReleaseOk id => (d, l.returns (.atomic (some id)))
  | .aReleaseErr => (d, l.goto .unguard)
  | .dropLock reg => (d, l.goto (.dropRemove reg))
  | .dropRemove reg => (d.setShard reg.shard ((d.plain reg.shard).remove reg.slot), l.goto .unguard)
  | .dQueue id => (d, l.goto (.dWriteLock id))
  | .dWriteLock id => (d, l.goto (.dFind id))
  | .dFind id =>
    match AtomicSet.removeId d.atomics.entries id with
    | some entries => ({ d with atomics := ⟨entries, d.atomics.nextId⟩ }, l.goto .dDecr)
    | none => (d, l.goto .dRelease)
  | .dDecr => ({ d with atomicLive := wrappingSub 64 d.atomicLive 1 }, l.goto .dRelease)
  | .dRelease => (d, l.goto .unguard)
  | .unguard => (d, l.goto .idle)
  | .wQueue c => (d, l.goto (.wLock c))
  | .wLock c => (d, l.goto (.wWork c))
  | .wWork c => ({ d with len := (written cfg d.len l c).1 }, (written cfg d.len l c).2)
  | .wChunk chunkSize failsAt offset =>
    (d, if offset < d.len ∧ failsAt ≠ some offset
      then l.goto (.wChunk chunkSize failsAt (offset + min (d.len - offset) chunkSize)) else l.goto .wCount)
  | .wCount => (d, l.goto (.wRelease false))
  | .wRelease flush => (d, if flush then l.goto (.mapRead .flush) else l.goto .idle)

/-! ## Calls -/

inductive Call where
  | read (c : ReadCall)
  /-- `ChunkIterator::next` of the thread's view number `i` -/
  | next (i : Nat) (shard : Fin shards)
  | dropView (i : Nat)
  | write (c : WriteCall)
  | dropSliceMut
  deriving DecidableEq, Repr

/-- What a read-side call does before its first lock. -/
def ReadCall.start (cfg : Config) : ReadCall → Pc
  | .asSlice offset len shard => if len = 0 then .idle else .mapRead (.asSlice offset len shard)
  | .readInto offset len => if len = 0 then .idle else .mapRead (.readInto offset len)
  | .readBytes offset len => if len = 0 then .idle else .mapRead (.readBytes offset len)
  | .touchPages => .mapRead .touchPages
  | .touchPagesRange offset len => if len = 0 then .idle else .mapRead (.touchPagesRange offset len)
  | .atomicView size offset count =>
    if offset % size ≠ 0 then .idle else .mapRead (.atomicView size offset count)
  | .chunks chunkSize => .mapRead (.chunks chunkSize)
  | .next r shard => .mapRead (.next r shard)
  | .flush => if cfg.shared then .mapRead .flush else .idle

/-- What a write call does before it asks for the write lock. -/
def WriteCall.start (cfg : Config) : WriteCall → Pc
  | .updateRegion offset len due => if len = 0 then .idle else .wQueue (.updateRegion offset len due)
  | .asSliceMut offset len => .wQueue (.asSliceMut offset len)
  | .chunksMut chunkSize failsAt => if chunkSize = 0 then .idle else .wQueue (.chunksMut chunkSize failsAt)
  | .resize newSize leaves =>
    if ¬ cfg.shared ∨ newSize = 0 ∨ newSize > cfg.width.maxMmapSize ∨ tryFrom cfg.width.bits newSize = none then .idle
    else .wQueue (.resize newSize leaves)

/-- The drop of a view that its thread no longer lists: `_reg` first, then `_guard`. -/
def View.drop : View → Pc
  | .plain reg => .dropLock reg
  | .atomic (some id) => .dQueue id
  | .atomic none | .iterator _ _ _ => .unguard

/-- A thread outside any call starts one; write calls are for threads that hold no view. -/
def start (cfg : Config) (l : Local) : Call → Option Local
  | .read (.next _ _) => none
  | .read c => some (l.goto (c.start cfg))
  | .next i shard =>
    match l.views[i]? with
    | some (.iterator chunkSize total cur) =>
      if chunkSize = 0 ∨ cur ≥ total then some l else
      let stop := cur + min (total - cur) chunkSize
      some ⟨.mapRead (.next ⟨cur, stop⟩ shard), l.views.set i (.iterator chunkSize total stop), l.sliceMut⟩
    | _ => none
  | .dropView i => (l.views[i]?).map (fun v => ⟨v.drop, l.views.eraseIdx i, l.sliceMut⟩)
  | .write c => if l.views = [] then some (l.goto (c.start cfg)) else none
  | .dropSliceMut => if l.sliceMut then some ⟨.wCount, l.views, false⟩ else none

/-! ## The machine -/

section

variable {T : Type} [DecidableEq T]

/-- The mapping's lock, the lock of the atomic set, and the owner of each shard mutex. -/
structure LockTable (T : Type) where
  m : FairLock T
  a : FairLock T
  shard : Fin shards → Option T

namespace LockTable

def free : LockTable T := ⟨FairLock.free, FairLock.free, fun _ => none⟩

/-- One lock operation of the thread `t`; `none` when it has to wait. -/
def perform (l : LockTable T) (t : T) : Act → Option (LockTable T)
  | .work => some l
  | .mRead => (l.m.readRecursive t).map (fun m => { l with m := m })
  | .mUnread => some { l with m := l.m.releaseRead t }
  | .mQueue => some { l with m := l.m.enqueue t }
  | .mWrite => (l.m.write t).map (fun m => { l with m := m })
  | .mUnwrite => some { l with m := l.m.releaseWrite }
  | .aRead => (l.a.read t).map (fun a => { l with a := a })
  | .aUnread => some { l with a := l.a.releaseRead t }
  | .aQueue => some { l with a := l.a.enqueue t }
  | .aWrite => (l.a.write t).map (fun a => { l with a := a })
  | .aUnwrite => some { l with a := l.a.releaseWrite }
  | .lock k => if l.shard k = none then some { l with shard := Function.update l.shard k (some t) } else none
  | .unlock k => some { l with shard := Function.update l.shard k none }

/-- The thread `u` holds, or waits ahead for, what the operation needs. -/
def Blocks (l : LockTable T) : Act → T → Prop
  | .mRead, u => l.m.writer = some u
  | .mWrite, u => l.m.writer = some u ∨ u ∈ l.m.readers
  | .aRead, u => l.a.writer = some u ∨ u ∈ l.a.queue
  | .aWrite, u => l.a.writer = some u ∨ u ∈ l.a.readers
  | .lock k, u => l.shard k = some u
  | _, _ => False

end LockTable

structure State (T : Type) where
  data : Data
  locks : LockTable T
  threads : T → Local

def State.init (len : Nat) : State T := ⟨Data.new len, LockTable.free, fun _ => Local.new⟩

/-- A thread starts a call, takes the next step of its call, or hands a view to another thread (every view is `Send`). -/
inductive Action (T : Type) where
  | start (t : T) (c : Call)
  | advance (t : T)
  | send (t u : T) (i : Nat)

def step (cfg : Config) (s : State T) : Action T → Option (State T)
  | .start t c =>
    if (s.threads t).pc = .idle then
      (start cfg (s.threads t) c).map (fun l => { s with threads := Function.update s.threads t l })
    else none
  | .advance t =>
    match (s.threads t).pc.act with
    | none => none
    | some act =>
      let (d, l) := advance cfg s.data (s.threads t)
      (s.locks.perform t act).map (fun locks => ⟨d, locks, Function.update s.threads t l⟩)
  | .send t u i =>
    if (s.threads t).pc = .idle ∧ (s.threads u).pc = .idle ∧ t ≠ u then
      ((s.threads t).views[i]?).map (fun v =>
        let threads := Function.update s.threads t { s.threads t with views := (s.threads t).views.eraseIdx i }
        { s with
          locks := { s.locks with m := { s.locks.m.releaseRead t with readers := u :: (s.locks.m.releaseRead t).readers } }
          threads := Function.update threads u { s.threads u with views := v :: (s.threads u).views } })
    else none

/-- The thread has a call or a drop in progress. -/
def State.InCall (s : State T) (t : T) : Prop := (s.threads t).pc ≠ .idle

/-- The next step of `t` has to wait for `u`. -/
def State.WaitsFor (s : State T) (t u : T) : Prop := ∃ act, (s.threads t).pc.act = some act ∧ s.locks.Blocks act u

/-- A write call that waits, and only for views of threads outside any call. -/
def State.WaitsForViews (s : State T) (t : T) : Prop :=
  (s.threads t).pc.act = some .mWrite ∧ (∃ u, s.WaitsFor t u) ∧
    ∀ u, s.WaitsFor t u → ¬ s.InCall u ∧ (s.threads u).views ≠ []

end

end Locks
end MmapIo
