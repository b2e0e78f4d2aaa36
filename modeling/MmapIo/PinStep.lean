import MmapIo.Resize
import MmapIo.ViewsStep
/-!
# PinStep — views, writers and resizes of one mapping, one step at a time

The views of a `ReadWrite` mapping with the guards they hold (`MappedSlice`, `ChunkIterator` and its items, `AtomicView`,
`MappedSliceMut`), and the calls that write or remap it (`update_region`, `chunks_mut`, `resize`), as a machine.  A token `v`
stands for one call and the view it returns, until that is dropped; an item of an iterator is a token of its own, with its
own guard.  The registrations are those of `ViewsStep`, step by step, on a registry that is part of the state.

The mapped bytes are the first `len` bytes of `file`; `gen` counts the mappings that were installed, so a view that
remembers `gen` remembers its mapping.
-/
namespace MmapIo
namespace Pin

open Word Bytes

/-- The file, the installed mapping (its length and its number), `cached_len`, the holders of the mapping's lock, and how many
atomic registrations were called. -/
structure Shared (V : Type) where
  file : List UInt8
  len : Nat
  gen : Nat
  cachedLen : Nat
  lock : RwLock V
  registered : Nat

def Shared.install {V : Type} (g : Shared V) (len : Nat) : Shared V := { g with len := len, gen := g.gen + 1 }

inductive Op where
  | asSlice (offset len : Nat)
  /-- `chunks`, and `pages` with the page size -/
  | chunks (chunkSize : Nat)
  | atomicView (size offset count : Nat)
  | asSliceMut (offset len : Nat)
  | updateRegion (offset : Nat) (data : List UInt8)
  | chunksMut (chunkSize : Nat)
  | resize (newSize : Nat)
  deriving DecidableEq, Repr

/-- The result of a call, without the view it returns. -/
abbrev Res := Except MmapIoError Unit

/-- The next step of a call, or the view it returned. -/
inductive Pc (V : Type) where
  | idle
  -- `as_slice`; the slice with its bytes when it was returned; the empty slice, which holds no guard
  | sLock (offset len : Nat)
  | sCheck (offset len gen : Nat)
  | sReg (start stop gen : Nat)
  | slice (start stop gen : Nat) (bytes : List UInt8)
  | sDrop
  | sEmpty (gen : Nat)
  -- `ChunkIterator::new`; the iterator; inside `next`, which produces `item`
  | iLock (chunkSize : Nat)
  | iter (chunkSize total offset gen : Nat)
  | iNext (chunkSize total offset gen : Nat) (item : V)
  -- an item of the iterator `it`: its guard, its registration
  | jLock (it : V) (start stop : Nat)
  | jBegin (start stop gen : Nat)
  | jReg (start stop gen : Nat)
  -- `view_parts`, the atomic view, and the drop of its registration
  | aLock (size offset len : Nat)
  | aCheck (size offset len gen : Nat)
  | aReg (start stop gen : Nat)
  | atomic (start stop gen : Nat)
  | aDrop
  -- `as_slice_mut` and the guard
  | mLock (offset len : Nat)
  | mCheck (offset len gen : Nat)
  | sliceMut (start stop gen : Nat)
  -- `update_region`
  | uLock (offset : Nat) (data : List UInt8)
  | uCheck (offset : Nat) (data : List UInt8)
  | uStore (pos : Nat) (rest : List UInt8)
  -- `drive`: between two calls of the closure, and inside one
  | cLock (chunkSize : Nat)
  | cNext (chunkSize offset : Nat)
  | cChunk (chunkSize offset stop : Nat)
  -- `resize`
  | zLock (newSize newLen : Nat)
  | zCmp (newSize newLen : Nat)
  | gSetLen (cur newSize newLen : Nat)
  | gMap (cur newLen : Nat)
  | gRestore (cur : Nat) (e : IoError)
  | pMap (newSize newLen : Nat)
  | pSetLen (newSize mapLen : Nat)
  | pInstall (mapLen : Nat)
  | wPlaceholder (cur newSize newLen : Nat)
  | wSetLen (cur newSize newLen : Nat)
  | wRestore (cur : Nat) (text : String)
  | wMap (newLen : Nat)
  | zStore (r : Res)
  -- the guard is dropped and the call, or the drop, is over
  | unlockRead (r : Res)
  | unlockWrite (r : Res)
  | done (r : Res)

/-- What a call does before it takes the lock. -/
def Op.start {V : Type} (P : Platform) (gen : Nat) : Op → Pc V
  | .asSlice offset len => if len = 0 then .sEmpty gen else .sLock offset len
  | .chunks chunkSize => .iLock chunkSize
  | .atomicView size offset count =>
    if offset % size ≠ 0 then .done (.error (.misaligned size offset)) else .aLock size offset (saturatingMul 64 size count)
  | .asSliceMut offset len => .mLock offset len
  | .updateRegion offset data => if data = [] then .done (.ok ()) else .uLock offset data
  | .chunksMut chunkSize => if chunkSize = 0 then .done (.ok ()) else .cLock chunkSize
  | .resize newSize =>
    if newSize = 0 then .done (.error (.resizeFailed "New size must be greater than zero"))
    else if newSize > P.width.maxMmapSize then
      .done (.error (.resizeFailed s!"New size {newSize} exceeds maximum safe limit of {P.width.maxMmapSize} bytes"))
    else
      match tryFrom P.width.bits newSize with
      | none => .done (.error (.resizeFailed s!"New size {newSize} does not fit in usize"))
      | some newLen => .zLock newSize newLen

variable {V : Type} [DecidableEq V]

/-- The part of a step that touches the mapping and its lock, for a call that is not registering: the shared state and the
next program counter; `none` when it has to wait for the lock. -/
def micro (P : Platform) (os : Os) (g : Shared V) (v : V) : Pc V → Option (Shared V × Pc V)
  | .sLock offset len => (g.lock.acquireRead v).map (fun l => ({ g with lock := l }, .sCheck offset len g.gen))
  | .iLock chunkSize => (g.lock.acquireRead v).map (fun l => ({ g with lock := l }, .iter chunkSize g.len 0 g.gen))
  | .jLock _ start stop => (g.lock.acquireRead v).map (fun l => ({ g with lock := l }, .jBegin start stop g.gen))
  | .aLock size offset len => (g.lock.acquireRead v).map (fun l => ({ g with lock := l }, .aCheck size offset len g.gen))
  | .mLock offset len => (g.lock.acquireWrite v).map (fun l => ({ g with lock := l }, .mCheck offset len g.gen))
  | .mCheck offset len gen =>
    if len = 0 then some (g, .sliceMut 0 0 gen) else
    match sliceRange P.width offset len g.len with
    | .error e => some (g, .unlockWrite (.error e))
    | .ok (start, stop) => some (g, .sliceMut start stop gen)
  | .uLock offset data => (g.lock.acquireWrite v).map (fun l => ({ g with lock := l }, .uCheck offset data))
  | .uCheck offset data =>
    match sliceRange P.width offset data.length g.len with
    | .error e => some (g, .unlockWrite (.error e))
    | .ok (start, _) => some (g, .uStore start data)
  | .uStore pos (byte :: rest) => some ({ g with file := g.file.set pos byte }, .uStore (pos + 1) rest)
  | .uStore _ [] => some (g, .unlockWrite (.ok ()))
  | .cLock chunkSize => (g.lock.acquireWrite v).map (fun l => ({ g with lock := l }, .cNext chunkSize 0))
  | .cNext chunkSize offset =>
    if offset < g.len then some (g, .cChunk chunkSize offset (offset + min (g.len - offset) chunkSize))
    else some (g, .unlockWrite (.ok ()))
  | .zLock newSize newLen => (g.lock.acquireWrite v).map (fun l => ({ g with lock := l }, .zCmp newSize newLen))
  | .zCmp newSize newLen =>
    some (g, if newLen = g.len then .zStore (.ok ())
      else if g.len < newLen then .gSetLen g.len newSize newLen
      else if P.windows then .wPlaceholder g.len newSize newLen
      else .pMap newSize newLen)
  -- `grow_locked`
  | .gSetLen cur newSize newLen =>
    match os.setLen with
    | some text => some (g, .zStore (.error (.io (.os text))))
    | none => some ({ g with file := setLen g.file newSize 0 }, .gMap cur newLen)
  | .gMap cur newLen =>
    match mapFileRw P os g.file.length newLen with
    | .ok len => some (g.install len, .zStore (.ok ()))
    | .error e => some (g, .gRestore cur e)
  | .gRestore cur e =>
    match os.restore with
    | none => some ({ g with file := setLen g.file cur 0 }, .zStore (.error (.io e)))
    | some _ => some (g, .zStore (.error (.io e)))
  -- `shrink_locked` (not Windows)
  | .pMap newSize newLen =>
    match mapFileRw P os g.file.length newLen with
    | .error e => some (g, .zStore (.error (.io e)))
    | .ok len => some (g, .pSetLen newSize len)
  | .pSetLen newSize mapLen =>
    match os.setLen with
    | some text => some (g, .zStore (.error (.io (.os text))))
    | none => some ({ g with file := setLen g.file newSize 0 }, .pInstall mapLen)
  | .pInstall mapLen => some (g.install mapLen, .zStore (.ok ()))
  -- `shrink_locked` (Windows)
  | .wPlaceholder cur newSize newLen =>
    match os.placeholder with
    | some text => some (g, .zStore (.error (.io (.os text))))
    | none => some (g.install 0, .wSetLen cur newSize newLen)
  | .wSetLen cur newSize newLen =>
    match os.setLen with
    | some text => some (g, .wRestore cur text)
    | none => some ({ g with file := setLen g.file newSize 0 }, .wMap newLen)
  | .wRestore cur text =>
    match mapFileRw P os g.file.length cur with
    | .error e => some (g, .zStore (.error (.io e)))
    | .ok len => some (g.install len, .zStore (.error (.io (.os text))))
  | .wMap newLen =>
    match mapFileRw P os g.file.length newLen with
    | .error e => some (g, .zStore (.error (.io e)))
    | .ok len => some (g.install len, .zStore (.ok ()))
  | .zStore r => some ({ g with cachedLen := g.len }, .unlockWrite r)
  | .unlockRead r => some ({ g with lock := g.lock.releaseRead v }, .done r)
  | .unlockWrite r => some ({ g with lock := g.lock.releaseWrite }, .done r)
  | _ => none

/-- What the threads can do. `next it v`: the iterator `it` starts to produce the item `v`. -/
inductive Action (V : Type) where
  | call (v : V) (op : Op)
  | next (it v : V)
  | advance (v : V) (os : Os) (shard : Fin shards)
  | store (v : V) (offset : Nat) (byte : UInt8)
  /-- a view is dropped, or a closure returns, `ok` or not -/
  | leave (v : V) (ok : Bool)

structure State (V : Type) where
  shared : Shared V
  views : Views.State V
  pc : V → Pc V

def State.init (file : List UInt8) : State V :=
  ⟨⟨file, file.length, 0, file.length, RwLock.free, 0⟩, Views.State.init, fun _ => .idle⟩

def State.setPc (s : State V) (v : V) (p : Pc V) : State V := { s with pc := Function.update s.pc v p }

def State.register (s : State V) (a : Views.Action V) : Option (State V) :=
  (Views.step s.views a).map (fun vs => { s with views := vs })

/-- `next` has returned the item. -/
def Pc.returned : Pc V → Bool
  | .idle | .jLock _ _ _ | .jBegin _ _ _ | .jReg _ _ _ => false
  | _ => true

/-- The next step of `v`: checks that end in a registration, the registration itself, and everything else (`micro`). -/
def advance (P : Platform) (os : Os) (shard : Fin shards) (s : State V) (v : V) : Option (State V) :=
  match s.pc v with
  | .sCheck offset len gen =>
    match sliceRange P.width offset len s.shared.len with
    | .error e => some (s.setPc v (.unlockRead (.error e)))
    | .ok (start, stop) => (s.register (.registerPlain v ⟨start, stop⟩ shard)).map (State.setPc · v (.sReg start stop gen))
  | .sReg start stop gen =>
    match s.views.pc v with
    | .plainLive _ _ => some (s.setPc v (.slice start stop gen (s.shared.file.extract start stop)))
    | .plainErr c => some (s.setPc v (.unlockRead (.error c.toError)))
    | _ => s.register (.advance v)
  | .jBegin start stop gen => (s.register (.registerPlain v ⟨start, stop⟩ shard)).map (State.setPc · v (.jReg start stop gen))
  | .jReg start stop gen =>
    match s.views.pc v with
    | .plainLive _ _ => some (s.setPc v (.slice start stop gen (s.shared.file.extract start stop)))
    -- the item is an owned copy, and lets go of the guard
    | .plainErr _ => some (s.setPc v (.unlockRead (.ok ())))
    | _ => s.register (.advance v)
  | .iNext chunkSize total offset gen item =>
    if (s.pc item).returned then some (s.setPc v (.iter chunkSize total offset gen)) else none
  | .aCheck size offset len gen =>
    if saturatingAdd 64 offset len > s.shared.len then
      some (s.setPc v (.unlockRead (.error (.outOfBounds offset len s.shared.len))))
    else
      (s.register (.registerAtomic v ⟨offset, offset + len⟩ size)).map (fun s =>
        ({ s with shared := { s.shared with registered := s.shared.registered + 1 } }).setPc v
          (.aReg offset (offset + len) gen))
  | .aReg start stop gen =>
    match s.views.pc v with
    | .atomicLive _ _ _ => some (s.setPc v (.atomic start stop gen))
    | .atomicErr c => some (s.setPc v (.unlockRead (.error c.toError)))
    | _ => s.register (.advance v)
  | .sDrop | .aDrop =>
    match s.views.pc v with
    | .plainDropped | .atomicDropped _ => some (s.setPc v (.unlockRead (.ok ())))
    | _ => s.register (.advance v)
  | p => (micro P os s.shared v p).map (fun (g, p) => { s with shared := g, pc := Function.update s.pc v p })

/-- The bytes a view or a running closure may store to. -/
def Pc.window : Pc V → Option (Nat × Nat)
  | .atomic start stop _ | .sliceMut start stop _ | .cChunk _ start stop => some (start, stop)
  | _ => none

def step (P : Platform) (s : State V) : Action V → Option (State V)
  | .call v op =>
    match s.pc v with
    | .idle => some (s.setPc v (op.start P s.shared.gen))
    | _ => none
  | .next it v =>
    match s.pc it, s.pc v with
    | .iter chunkSize total offset gen, .idle =>
      if chunkSize = 0 ∨ offset ≥ total then none else
      let stop := offset + min (total - offset) chunkSize
      some ((s.setPc it (.iNext chunkSize total stop gen v)).setPc v (.jLock it offset stop))
    | _, _ => none
  | .advance v os shard => advance P os shard s v
  | .store v offset byte =>
    match (s.pc v).window with
    | some (start, stop) =>
      if start ≤ offset ∧ offset < stop then
        some { s with shared := { s.shared with file := s.shared.file.set offset byte } }
      else none
    | none => none
  | .leave v ok =>
    match s.pc v with
    | .slice _ _ _ _ => (s.register (.dropView v)).map (State.setPc · v .sDrop)
    | .sEmpty _ => some (s.setPc v (.done (.ok ())))
    | .iter _ _ _ _ => some (s.setPc v (.unlockRead (.ok ())))
    | .atomic _ _ _ => (s.register (.dropView v)).map (State.setPc · v .aDrop)
    | .sliceMut _ _ _ => some (s.setPc v (.unlockWrite (.ok ())))
    | .cChunk chunkSize _ stop => some (s.setPc v (if ok then .cNext chunkSize stop else .unlockWrite (.ok ())))
    | _ => none

end Pin
end MmapIo
