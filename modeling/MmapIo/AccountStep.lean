import MmapIo.Lib.Machine
import MmapIo.Lib.RwLock
import MmapIo.Mmap
/-!
# AccountStep — the flush accounting, one step at a time

The write paths of one `ReadWrite` mapping and its flushes (`mmap.rs`, `segment.rs`, `iterator.rs`, `atomic.rs`) as a machine.
A token `v` stands for one call, with the guard or view it returns until that is dropped; threads run any number of them,
in any interleaving.  One step is one shared access of the source: taking or releasing the mapping's lock, storing one byte,
one `fetch_add`, `swap` or `load` of a counter, the start or the end of a sync.  A store is logged with its writer; what a
successful whole-mapping sync makes durable is what the log held when it started.
-/
namespace MmapIo
namespace Account

open Word

/-- What does not change: the pointer width, the length of the mapping, and `flush_policy`. -/
structure Config where
  width : Width
  len : Nat
  policy : FlushPolicy

/-- Who asked for a whole-mapping sync: a call of `flush` (or a `flush_range` of the whole mapping), the flush policy, or the
`EveryMillis` callback. -/
inductive Cause where
  | explicit
  | policy
  | callback
  deriving DecidableEq, Repr

structure Stored (V : Type) where
  writer : V
  offset : Nat
  byte : UInt8
  durable : Bool
  deriving DecidableEq, Repr

/-- The mapping's lock, its counters, and the history: the stores, the causes of the whole-mapping syncs, the bytes counted
since the last reset of the counter, and the most that ever was. -/
structure Shared (V : Type) where
  lock : RwLock V
  written : Nat
  writes : Nat
  log : List (Stored V)
  flushes : List Cause
  counted : Nat
  peak : Nat

namespace Shared

variable {V : Type}

def new : Shared V := ⟨RwLock.free, 0, 0, [], [], 0, 0⟩

/-- `written_since_last_flush.fetch_add(n)`. -/
def addBytes (g : Shared V) (n : Nat) : Shared V :=
  { g with
    written := wrappingAdd 64 g.written n
    counted := g.counted + n
    peak := max g.peak (g.counted + n) }

/-- `written_since_last_flush.swap(0)`. -/
def takeBytes (g : Shared V) : Shared V := { g with written := 0, counted := 0 }

def store (g : Shared V) (v : V) (offset : Nat) (byte : UInt8) : Shared V :=
  { g with log := g.log ++ [⟨v, offset, byte, false⟩] }

/-- A sync that started when the log held `mark` stores has made those at the offsets `p` durable. -/
def settle (g : Shared V) (mark : Nat) (p : Nat → Bool) : Shared V :=
  { g with log := g.log.mapIdx (fun i e => if i < mark ∧ p e.offset then { e with durable := true } else e) }

end Shared

inductive Op where
  | updateRegion (offset : Nat) (data : List UInt8)
  | tryUpdateRegion (offset : Nat) (data : List UInt8)
  /-- `SegmentMut::write` of a segment `[offset, offset + len)` -/
  | segmentWrite (offset len : Nat) (data : List UInt8)
  | asSliceMut (offset len : Nat)
  | tryAsSliceMut (offset len : Nat)
  | chunksMut (chunkSize : Nat)
  /-- an `AtomicView` or `AtomicSliceView` of `count` elements of `size` bytes -/
  | atomicView (size offset count : Nat)
  | flush
  | flushRange (offset len : Nat)
  | flusherCallback
  deriving DecidableEq, Repr

inductive Pc where
  | idle
  -- `update_region_within`
  | uLock (offset : Nat) (data : List UInt8) (span : Nat)
  | uCheck (offset : Nat) (data : List UInt8) (span : Nat)
  | uStore (pos : Nat) (rest : List UInt8) (len : Nat)
  | uUnlock (len : Nat)
  -- `try_update_region`
  | tLock (offset : Nat) (data : List UInt8)
  | tCheck (offset : Nat) (data : List UInt8)
  | tStore (pos : Nat) (rest : List UInt8) (len : Nat)
  | tDowngrade
  -- `count_update`; `held` when the write lock is (`try_update_region`)
  | countBytes (held : Bool) (len : Nat)
  | countWrites (held : Bool) (pending : Nat)
  -- `flush` and `flush_mapped`
  | fLock (c : Cause)
  | fSwapBytes (c : Cause)
  | fSwapWrites (c : Cause) (bytes : Nat)
  | fSync (c : Cause) (bytes writes : Nat)
  | fSyncing (bytes writes mark : Nat)
  | fRestoreBytes (bytes writes : Nat) (text : String)
  | fRestoreWrites (writes : Nat) (text : String)
  -- `flush_range`
  | rLock (offset len : Nat)
  | rCheck (offset len : Nat)
  | rUnlock
  | rSync (start stop : Nat)
  | rSyncing (start stop mark : Nat)
  -- the callback of the `EveryMillis` flusher
  | load
  -- `as_slice_mut`, `try_as_slice_mut`, the guard, and its drop
  | sLock (offset len : Nat)
  | sTryLock (offset len : Nat)
  | sCheck (offset len : Nat)
  | sHeld (start stop : Nat)
  | sCount (n : Nat)
  -- `drive`: between two calls of the closure, and inside one
  | cLock (chunkSize : Nat)
  | cNext (chunkSize offset : Nat)
  | cChunk (chunkSize offset stop : Nat)
  | cCount (n : Nat)
  -- `view_parts`, the view, and its drop
  | aLock (offset len : Nat)
  | aCheck (offset len : Nat)
  | aHeld (start stop : Nat)
  | aCount (n : Nat)
  -- the guard is dropped and the call returns
  | unlockWrite (r : Except MmapIoError Unit)
  | unlockRead (r : Except MmapIoError Unit)
  | done (r : Except MmapIoError Unit)

/-- What a call does before its first shared access. -/
def Op.start : Op → Pc
  | .updateRegion offset data => if data = [] then .done (.ok ()) else .uLock offset data data.length
  | .tryUpdateRegion offset data => if data = [] then .done (.ok ()) else .tLock offset data
  | .segmentWrite offset len data =>
    if data.length > len then .done (.error (.outOfBounds 0 data.length len))
    else if data = [] then .done (.ok ())
    else .uLock offset data len
  | .asSliceMut offset len => .sLock offset len
  | .tryAsSliceMut offset len => .sTryLock offset len
  | .chunksMut chunkSize => if chunkSize = 0 then .done (.ok ()) else .cLock chunkSize
  | .atomicView size offset count =>
    if offset % size ≠ 0 then .done (.error (.misaligned size offset)) else .aLock offset (saturatingMul 64 size count)
  | .flush => .fLock .explicit
  | .flushRange offset len => if len = 0 then .done (.ok ()) else .rLock offset len
  | .flusherCallback => .load

variable {V : Type} [DecidableEq V]

/-- **One step of a call**: the shared state after it and the next program counter; `none` when it has to wait for the lock,
for its closure or for the drop of what it returned, or is done.  `os` answers a sync, `conflict` the view registry. -/
def micro (cfg : Config) (os : Os) (conflict : Option Conflict) (g : Shared V) (v : V) : Pc → Option (Shared V × Pc)
  | .uLock offset data span => (g.lock.acquireWrite v).map (fun l => ({ g with lock := l }, .uCheck offset data span))
  | .uCheck offset data span =>
    match sliceRange cfg.width offset (max span data.length) cfg.len with
    | .error e => some (g, .unlockWrite (.error e))
    | .ok (start, _) => some (g, .uStore start data data.length)
  | .uStore pos (byte :: rest) len => some (g.store v pos byte, .uStore (pos + 1) rest len)
  | .uStore _ [] len => some (g, .uUnlock len)
  | .uUnlock len => some ({ g with lock := g.lock.releaseWrite }, .countBytes false len)
  | .tLock offset data =>
    match g.lock.acquireWrite v with
    | some l => some ({ g with lock := l }, .tCheck offset data)
    | none => some (g, .done (.ok ()))
  | .tCheck offset data =>
    match sliceRange cfg.width offset data.length cfg.len with
    | .error e => some (g, .unlockWrite (.error e))
    | .ok (start, _) => some (g, .tStore start data data.length)
  | .tStore pos (byte :: rest) len => some (g.store v pos byte, .tStore (pos + 1) rest len)
  | .tStore _ [] len => some (g, .countBytes true len)
  | .tDowngrade => some ({ g with lock := g.lock.downgrade v }, .fSwapBytes .policy)
  | .countBytes held len => some (g.addBytes len, .countWrites held (saturatingAdd 64 g.written len))
  | .countWrites held pending =>
    some ({ g with writes := wrappingAdd 64 g.writes 1 },
      match cfg.policy.due pending (saturatingAdd 64 g.writes 1), held with
      | true, true => .tDowngrade
      | true, false => .fLock .policy
      | false, true => .unlockWrite (.ok ())
      | false, false => .done (.ok ()))
  | .fLock c => (g.lock.acquireRead v).map (fun l => ({ g with lock := l }, .fSwapBytes c))
  | .fSwapBytes c => some (g.takeBytes, .fSwapWrites c g.written)
  | .fSwapWrites c bytes => some ({ g with writes := 0 }, .fSync c bytes g.writes)
  | .fSync c bytes writes => some ({ g with flushes := g.flushes ++ [c] }, .fSyncing bytes writes g.log.length)
  | .fSyncing bytes writes mark =>
    match os.sync with
    | none => some (g.settle mark (fun _ => true), .unlockRead (.ok ()))
    | some text => some (g, .fRestoreBytes bytes writes text)
  | .fRestoreBytes bytes writes text => some (g.addBytes bytes, .fRestoreWrites writes text)
  | .fRestoreWrites writes text =>
    some ({ g with writes := wrappingAdd 64 g.writes writes }, .unlockRead (.error (.flushFailed text)))
  | .rLock offset len => (g.lock.acquireRead v).map (fun l => ({ g with lock := l }, .rCheck offset len))
  | .rCheck offset len =>
    match sliceRange cfg.width offset len cfg.len with
    | .error e => some (g, .unlockRead (.error e))
    | .ok (start, stop) => some (g, if start = 0 ∧ stop = cfg.len then .rUnlock else .rSync start stop)
  | .rUnlock => some ({ g with lock := g.lock.releaseRead v }, .fLock .explicit)
  | .rSync start stop => some (g, .rSyncing start stop g.log.length)
  | .rSyncing start stop mark =>
    match os.sync with
    | none => some (g.settle mark (fun offset => decide (start ≤ offset ∧ offset < stop)), .unlockRead (.ok ()))
    | some text => some (g, .unlockRead (.error (.flushFailed text)))
  | .load => some (g, if g.written = 0 then .done (.ok ()) else .fLock .callback)
  | .sLock offset len => (g.lock.acquireWrite v).map (fun l => ({ g with lock := l }, .sCheck offset len))
  | .sTryLock offset len =>
    match g.lock.acquireWrite v with
    | some l => some ({ g with lock := l }, .sCheck offset len)
    | none => some (g, .done (.ok ()))
  | .sCheck offset len =>
    if len = 0 then some (g, .sHeld 0 0) else
    match sliceRange cfg.width offset len cfg.len with
    | .error e => some (g, .unlockWrite (.error e))
    | .ok (start, stop) => some (g, .sHeld start stop)
  | .sCount n | .cCount n => some (g.addBytes n, .unlockWrite (.ok ()))
  | .cLock chunkSize => (g.lock.acquireWrite v).map (fun l => ({ g with lock := l }, .cNext chunkSize 0))
  | .cNext chunkSize offset =>
    if offset < cfg.len then some (g, .cChunk chunkSize offset (offset + min (cfg.len - offset) chunkSize))
    else some (g, .cCount offset)
  | .aLock offset len => (g.lock.acquireRead v).map (fun l => ({ g with lock := l }, .aCheck offset len))
  | .aCheck offset len =>
    if saturatingAdd 64 offset len > cfg.len then some (g, .unlockRead (.error (.outOfBounds offset len cfg.len))) else
    match conflict with
    | some c => some (g, .unlockRead (.error c.toError))
    | none => some (g, .aHeld offset (offset + len))
  | .aCount n => some (g.addBytes n, .unlockRead (.ok ()))
  | .unlockWrite r => some ({ g with lock := g.lock.releaseWrite }, .done r)
  | .unlockRead r => some ({ g with lock := g.lock.releaseRead v }, .done r)
  | .idle | .sHeld _ _ | .cChunk _ _ _ | .aHeld _ _ | .done _ => none

/-- The bytes a guard, a view or a running closure may store to. -/
def Pc.window : Pc → Option (Nat × Nat)
  | .sHeld start stop | .aHeld start stop | .cChunk _ start stop => some (start, stop)
  | _ => none

/-- A guard or view is dropped, which counts its bytes; a closure returns, `ok` or not. -/
def leavePc (ok : Bool) : Pc → Option Pc
  | .sHeld start stop => some (.sCount (stop - start))
  | .aHeld start stop => some (.aCount (stop - start))
  | .cChunk chunkSize _ stop => some (if ok then .cNext chunkSize stop else .cCount stop)
  | _ => none

inductive Action (V : Type) where
  | call (v : V) (op : Op)
  | advance (v : V) (os : Os) (conflict : Option Conflict)
  | store (v : V) (offset : Nat) (byte : UInt8)
  | leave (v : V) (ok : Bool)

structure State (V : Type) where
  shared : Shared V
  pc : V → Pc

def State.init : State V := ⟨Shared.new, fun _ => .idle⟩

def step (cfg : Config) (s : State V) : Action V → Option (State V)
  | .call v op =>
    match s.pc v with
    | .idle => some { s with pc := Function.update s.pc v op.start }
    | _ => none
  | .advance v os conflict => (micro cfg os conflict s.shared v (s.pc v)).map (fun (g, p) => ⟨g, Function.update s.pc v p⟩)
  | .store v offset byte =>
    match (s.pc v).window with
    | some (start, stop) =>
      if start ≤ offset ∧ offset < stop then some { s with shared := s.shared.store v offset byte } else none
    | none => none
  | .leave v ok => (leavePc ok (s.pc v)).map (fun p => { s with pc := Function.update s.pc v p })

/-- No call in progress, and no guard or view alive. -/
def Pc.resting : Pc → Bool
  | .idle | .done _ => true
  | _ => false

end Account
end MmapIo
