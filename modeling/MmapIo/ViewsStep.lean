import MmapIo.Lib.Machine
import MmapIo.Lib.RwLock
import MmapIo.Views
/-!
# ViewsStep — the registration protocol, one step at a time

`register_plain`, `register_atomic` and the drops of `PlainReg` and `AtomicReg` (`views.rs`) as a machine.  A token `v`
stands for one registration from its call to the end of its drop; threads run any number of them, in any interleaving, so
a run is any order of the tokens' steps.  One step is one shared access of the source: a shard's `lock()` with the insert,
remove or scan under it, one access of `atomic_live`, taking or releasing the lock of the atomic set, one read or update of
the set under that lock.  The shard of a plain registration is part of its call, so it is arbitrary.
-/
namespace MmapIo
namespace Views

open Word

/-- `PlainReg`: where a plain view is registered. -/
structure PlainReg where
  shard : Fin shards
  slot : Nat
  deriving DecidableEq, Repr

/-- `ViewRegistry`, with the holders of the lock of its atomic set. -/
structure ViewRegistry (V : Type) where
  atomics : AtomicSet
  lock : RwLock V
  atomicLive : Nat
  plain : Fin shards → Slab

def ViewRegistry.new {V : Type} : ViewRegistry V := ⟨⟨[], 0⟩, RwLock.free, 0, fun _ => Slab.empty⟩

inductive Pc where
  | idle
  -- `register_plain`
  | pInsert (r : Span) (shard : Fin shards)
  | pLoad (r : Span) (reg : PlainReg)
  | pReadLock (r : Span) (reg : PlainReg)
  | pScan (r : Span) (reg : PlainReg)
  | pReleaseOk (r : Span) (reg : PlainReg)
  | pReleaseErr (r : Span) (reg : PlainReg)
  | pUndo (r : Span) (reg : PlainReg)
  | plainErr (c : Conflict)
  -- a plain view that was returned, and its drop
  | plainLive (r : Span) (reg : PlainReg)
  | pDrop (r : Span) (reg : PlainReg)
  | plainDropped
  -- `register_atomic`
  | aEnter (r : Span) (size : Nat)
  | aWriteLock (r : Span) (size : Nat)
  | aMixed (r : Span) (size : Nat)
  | aIncr (r : Span) (size : Nat)
  | aScan (r : Span) (size : Nat) (k : Nat)
  | aDecr (r : Span) (size : Nat)
  | aReleaseErr (c : Conflict)
  | aPush (r : Span) (size : Nat)
  | aReleaseOk (r : Span) (size : Nat) (id : Nat)
  | atomicErr (c : Conflict)
  -- an atomic view that was returned (`AtomicReg.id`), and its drop
  | atomicLive (r : Span) (size : Nat) (id : Option Nat)
  | dWriteLock (r : Span) (size : Nat) (id : Nat)
  | dFind (r : Span) (size : Nat) (id : Nat)
  | dDecr (id : Nat)
  | dRelease (id : Nat)
  | atomicDropped (id : Option Nat)
  deriving DecidableEq, Repr

variable {V : Type} [DecidableEq V]

/-- **One step of a registration**: the registry after it and the next program counter; `none` when it has to wait for the
lock of the atomic set, or has nothing left to do. -/
def micro (g : ViewRegistry V) (v : V) : Pc → Option (ViewRegistry V × Pc)
  | .pInsert r sh =>
    let (slab, slot) := (g.plain sh).insert r
    some ({ g with plain := Function.update g.plain sh slab }, .pLoad r ⟨sh, slot⟩)
  | .pLoad r reg => some (g, if g.atomicLive = 0 then .plainLive r reg else .pReadLock r reg)
  | .pReadLock r reg => (g.lock.acquireRead v).map (fun l => ({ g with lock := l }, .pScan r reg))
  | .pScan r reg =>
    some (g, if g.atomics.entries.any (fun a => overlaps a.range.start a.range.stop r.start r.stop)
      then .pReleaseErr r reg else .pReleaseOk r reg)
  | .pReleaseOk r reg => some ({ g with lock := g.lock.releaseRead v }, .plainLive r reg)
  | .pReleaseErr r reg => some ({ g with lock := g.lock.releaseRead v }, .pUndo r reg)
  | .pUndo _ reg =>
    some ({ g with plain := Function.update g.plain reg.shard ((g.plain reg.shard).remove reg.slot) },
      .plainErr .atomicLive)
  | .pDrop _ reg =>
    some ({ g with plain := Function.update g.plain reg.shard ((g.plain reg.shard).remove reg.slot) }, .plainDropped)
  | .aEnter r size => some (g, if r.start = r.stop then .atomicLive r size none else .aWriteLock r size)
  | .aWriteLock r size => (g.lock.acquireWrite v).map (fun l => ({ g with lock := l }, .aMixed r size))
  | .aMixed r size =>
    some (g, if g.atomics.entries.any (fun a => a.size != size && overlaps a.range.start a.range.stop r.start r.stop)
      then .aReleaseErr .mixedSize else .aIncr r size)
  | .aIncr r size => some ({ g with atomicLive := wrappingAdd 64 g.atomicLive 1 }, .aScan r size 0)
  | .aScan r size k =>
    if h : k < shards then
      some (g, if (g.plain ⟨k, h⟩).overlaps r.start r.stop then .aDecr r size else .aScan r size (k + 1))
    else some (g, .aPush r size)
  | .aDecr _ _ => some ({ g with atomicLive := wrappingSub 64 g.atomicLive 1 }, .aReleaseErr .plainLive)
  | .aPush r size =>
    some ({ g with atomics := ⟨g.atomics.entries ++ [⟨r, size, g.atomics.nextId⟩], wrappingAdd 64 g.atomics.nextId 1⟩ },
      .aReleaseOk r size g.atomics.nextId)
  | .aReleaseErr c => some ({ g with lock := g.lock.releaseWrite }, .atomicErr c)
  | .aReleaseOk r size id => some ({ g with lock := g.lock.releaseWrite }, .atomicLive r size (some id))
  | .dWriteLock r size id => (g.lock.acquireWrite v).map (fun l => ({ g with lock := l }, .dFind r size id))
  | .dFind _ _ id =>
    match AtomicSet.removeId g.atomics.entries id with
    | some entries => some ({ g with atomics := ⟨entries, g.atomics.nextId⟩ }, .dDecr id)
    | none => some (g, .dRelease id)
  | .dDecr id => some ({ g with atomicLive := wrappingSub 64 g.atomicLive 1 }, .dRelease id)
  | .dRelease id => some ({ g with lock := g.lock.releaseWrite }, .atomicDropped (some id))
  | .idle | .plainErr _ | .plainLive _ _ | .plainDropped | .atomicErr _ | .atomicLive _ _ _ | .atomicDropped _ => none

/-- What a drop of a returned view starts with; an atomic view of an empty range registered nothing. -/
def dropPc : Pc → Option Pc
  | .plainLive r reg => some (.pDrop r reg)
  | .atomicLive r size (some id) => some (.dWriteLock r size id)
  | .atomicLive _ _ none => some (.atomicDropped none)
  | _ => none

/-- What the threads can do: call one of the two registrations, drop a returned view, or let a call in progress take its
next step. -/
inductive Action (V : Type) where
  | registerPlain (v : V) (r : Span) (shard : Fin shards)
  | registerAtomic (v : V) (r : Span) (size : Nat)
  | dropView (v : V)
  | advance (v : V)

def Action.isRegisterAtomic : Action V → Bool
  | .registerAtomic _ _ _ => true
  | _ => false

structure State (V : Type) where
  reg : ViewRegistry V
  pc : V → Pc

def State.init : State V := ⟨ViewRegistry.new, fun _ => .idle⟩

/-- One action. Plain views are of non-empty ranges (`MapRead::into_view`, `ChunkIterator::next`); atomic ones may be
empty. -/
def step (s : State V) : Action V → Option (State V)
  | .registerPlain v r sh =>
    if s.pc v = .idle ∧ r.start < r.stop then some { s with pc := Function.update s.pc v (.pInsert r sh) } else none
  | .registerAtomic v r size =>
    if s.pc v = .idle ∧ r.start ≤ r.stop then some { s with pc := Function.update s.pc v (.aEnter r size) } else none
  | .dropView v => (dropPc (s.pc v)).map (fun p => { s with pc := Function.update s.pc v p })
  | .advance v => (micro s.reg v (s.pc v)).map (fun (g, p) => ⟨g, Function.update s.pc v p⟩)

/-- No call and no drop is in progress. -/
def Pc.resting : Pc → Bool
  | .idle | .plainErr _ | .plainLive _ _ | .plainDropped | .atomicErr _ | .atomicLive _ _ _ | .atomicDropped _ => true
  | _ => false

/-! ## What a program counter says about the registry -/

/-- Inside the write section of the atomic set. -/
def Pc.writing : Pc → Prop
  | .aMixed _ _ | .aIncr _ _ | .aScan _ _ _ | .aDecr _ _ | .aReleaseErr _ | .aPush _ _ | .aReleaseOk _ _ _
  | .dFind _ _ _ | .dDecr _ | .dRelease _ => True
  | _ => False

/-- Inside the read section of the atomic set. -/
def Pc.reading : Pc → Prop
  | .pScan _ _ | .pReleaseOk _ _ | .pReleaseErr _ _ => True
  | _ => False

/-- The slot a registration owns in the shards. -/
def Pc.slot : Pc → Option (Span × PlainReg)
  | .pLoad r reg | .pReadLock r reg | .pScan r reg | .pReleaseOk r reg | .pReleaseErr r reg | .pUndo r reg
  | .plainLive r reg | .pDrop r reg => some (r, reg)
  | _ => none

/-- The entry a registration owns in the atomic set. -/
def Pc.entry : Pc → Option AtomicEntry
  | .aReleaseOk r size id | .atomicLive r size (some id) | .dWriteLock r size id | .dFind r size id => some ⟨r, size, id⟩
  | _ => none

/-- A plain registration that is past its last check. -/
def Pc.settled : Pc → Prop
  | .pReleaseOk _ _ | .plainLive _ _ | .pDrop _ _ => True
  | _ => False

/-- An atomic registration that is counted in `atomic_live`: its range and how many shards it has scanned. -/
def Pc.announced : Pc → Option (Span × Nat)
  | .aScan r _ k => some (r, k)
  | .aPush r _ | .aReleaseOk r _ _ | .atomicLive r _ (some _) | .dWriteLock r _ _ | .dFind r _ _ => some (r, shards)
  | _ => none

/-- What the holder of the write lock has added to `atomic_live` beyond the entries of the set. -/
def Pc.counted : Pc → Nat
  | .aScan _ _ _ | .aDecr _ _ | .aPush _ _ | .dDecr _ => 1
  | _ => 0

/-- An atomic registration that passed the mixed-size check and still holds the write lock. -/
def Pc.checked : Pc → Option (Span × Nat)
  | .aIncr r size | .aScan r size _ | .aPush r size => some (r, size)
  | _ => none

/-- A registration that called `register_atomic`. -/
def Pc.isAtomic : Pc → Bool
  | .aEnter _ _ | .aWriteLock _ _ | .aMixed _ _ | .aIncr _ _ | .aScan _ _ _ | .aDecr _ _ | .aReleaseErr _ | .aPush _ _
  | .aReleaseOk _ _ _ | .atomicErr _ | .atomicLive _ _ _ | .dWriteLock _ _ _ | .dFind _ _ _ | .dDecr _ | .dRelease _
  | .atomicDropped _ => true
  | _ => false

/-- An atomic registration that was given an id. -/
def Pc.pushed : Pc → Bool
  | .aReleaseOk _ _ _ | .atomicLive _ _ (some _) | .dWriteLock _ _ _ | .dFind _ _ _ | .dDecr _ | .dRelease _
  | .atomicDropped (some _) => true
  | _ => false

/-- The range of a registration is as its call promised: non-empty for a plain view and for an atomic one with an
entry. -/
def Pc.ranged : Pc → Prop
  | .pInsert r _ | .pLoad r _ | .pReadLock r _ | .pScan r _ | .pReleaseOk r _ | .pReleaseErr r _ | .pUndo r _
  | .plainLive r _ | .pDrop r _ => r.start < r.stop
  | .aEnter r _ => r.start ≤ r.stop
  | .aWriteLock r _ | .aMixed r _ | .aIncr r _ | .aScan r _ _ | .aDecr r _ | .aPush r _ | .aReleaseOk r _ _
  | .atomicLive r _ (some _) | .dWriteLock r _ _ | .dFind r _ _ => r.start < r.stop
  | .atomicLive r _ none => r.start = r.stop
  | _ => True

end Views
end MmapIo
