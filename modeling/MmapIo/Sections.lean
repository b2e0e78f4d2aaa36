import MmapIo.Lib.Linear
import MmapIo.NonShared
import MmapIo.ResizeRuns
/-!
# Sections — the methods of a shared mapping, one access at a time

The methods of `MemoryMappedFile` and `SegmentMut` on a `ReadWrite` mapping (`mmap.rs`, `segment.rs`, `iterator.rs`) as
sections of the mapping's lock: a copy moves one byte at a time, a view or a guard is used any number of times before it is
dropped, the closure of `chunks_mut` gets one chunk at a time, and `resize` makes one `set_len` or mapping call at a time.
`len` loads `cached_len` without the lock.  A read or a store outside the mapping faults.  An update ends with its last
store: the count and the flush that a policy asks for come after its section, so what the sections say of the methods is for
a policy that asks for none (`Quiet`), or a mapping that is never flushed.  No atomic view is alive.
-/
namespace MmapIo
namespace Sections

open Word Bytes Linear
open NonShared (Segment segmentWrite)

/-- A call. -/
inductive Op (E : Type) where
  | updateRegion (offset : Nat) (data : List UInt8)
  | tryUpdateRegion (offset : Nat) (data : List UInt8)
  | segmentWrite (g : Segment) (data : List UInt8)
  | asSliceMut (offset len : Nat)
  | tryAsSliceMut (offset len : Nat)
  | chunksMut (chunkSize : Nat) (f : ChunkFn E)
  | resize (newSize : Nat)
  | readInto (offset len : Nat)
  | readBytes (offset len : Nat)
  | asSlice (offset len : Nat)
  | tryAsSlice (offset len : Nat)
  | flush
  | len

inductive Out (E : Type) where
  | unit (r : Except MmapIoError Unit)
  | flag (r : Except MmapIoError Bool)
  | bytes (r : Except MmapIoError (List UInt8))
  /-- the bytes read through a view or a guard, in the order of the reads; `none` when the lock was not free -/
  | view (r : Except MmapIoError (Option (List UInt8)))
  | closure (r : Except MmapIoError (Except E Unit))
  | len (n : Nat)

/-- What comes from outside: the answers of the OS, and the uses of a view or a guard. -/
inductive In where
  | run
  | os (answer : Option String)
  /-- the length query and the mapping call of `map_file_rw` -/
  | map (metadata map : Option String)
  | get (i : Nat)
  | put (i : Nat) (b : UInt8)
  | drop

inductive RLoc where
  /-- `read_into`, `read_bytes`: the range check, then the bytes copied so far -/
  | copyCheck (offset len : Nat)
  | copy (start len : Nat) (dst : List UInt8)
  /-- `as_slice`: the range check and the registration, then the live view and the bytes read through it -/
  | viewCheck (offset len : Nat)
  | view (start stop : Nat) (seen : List UInt8)
  | flush

inductive WLoc (E : Type) where
  /-- `update_region_within`, and `try_update_region`: the range check, then the number of bytes stored -/
  | updateCheck (offset : Nat) (data : List UInt8) (span : Nat) (tries : Bool)
  | update (start : Nat) (data : List UInt8) (stored : Nat) (tries : Bool)
  /-- `as_slice_mut`: the range check, then the live guard and the bytes read through it -/
  | guardCheck (offset len : Nat)
  | guard (start stop : Nat) (seen : List UInt8)
  | chunks (chunkSize : Nat) (f : ChunkFn E)
  | chunk (chunkSize : Nat) (f : ChunkFn E) (total : Nat) (past : List (List UInt8)) (offset : Nat)
  | resize (newSize newLen : Nat)
  /-- `grow_locked`, once the file is extended, and once it has to be put back -/
  | growMap (currentSize newLen : Nat)
  | growRestore (currentSize : Nat) (e : IoError)
  /-- `shrink_locked` (not Windows), once the prefix is mapped -/
  | shrinkSetLen (newSize len : Nat)
  /-- `shrink_locked` (Windows), once the view is replaced, and once the file is truncated or not -/
  | windowsSetLen (currentLen newSize newLen : Nat)
  | windowsMap (len : Nat) (failed : Option IoError)
  /-- the store of `cached_len` -/
  | publish (r : Except MmapIoError Unit)

variable {E : Type}

/-- One access of a read section. -/
def look (P : Platform) : RLoc → In → Inner → Option (RLoc ⊕ Out E)
  | .copyCheck offset len, .run, s =>
    match sliceRange P.width offset len s.mapLen with
    | .error e => some (.inr (.bytes (.error e)))
    | .ok (start, stop) => some (.inl (.copy start (stop - start) []))
  | .copy start len dst, .run, s =>
    if dst.length < len then s.bytes[start + dst.length]?.map (fun b => .inl (.copy start len (dst ++ [b])))
    else some (.inr (.bytes (.ok dst)))
  | .viewCheck offset len, .run, s =>
    match sliceRange P.width offset len s.mapLen with
    | .error e => some (.inr (.view (.error e)))
    | .ok (start, stop) =>
      match intoView s start stop with
      | .error e => some (.inr (.view (.error e)))
      | .ok _ => some (.inl (.view start stop []))
  | .view start stop seen, .get i, s =>
    if i < stop - start then s.bytes[start + i]?.map (fun b => .inl (.view start stop (seen ++ [b]))) else none
  | .view _ _ seen, .drop, _ => some (.inr (.view (.ok (some seen))))
  | .flush, .os answer, s => some (.inr (.unit (flush P { Os.ok with sync := answer } s).1))
  | _, _, _ => none

/-- A store of one byte, inside the mapping. -/
def storeByte (s : Inner) (i : Nat) (b : UInt8) : Option Inner := if i < s.mapLen then some (s.store i [b]) else none

/-- `map_file_rw`, with these answers of the OS. -/
def mapFile (P : Platform) (metadata map : Option String) (s : Inner) (len : Nat) : Except IoError Nat :=
  mapFileRw P { Os.ok with metadata := metadata, map := map } s.file.length len

/-- `resize` under the lock, up to its first OS call. -/
def startResize (P : Platform) (newSize newLen : Nat) (i : In) (s : Inner) : Option (Inner × (WLoc E ⊕ Out E)) :=
  if newLen = s.mapLen then
    match i with
    | .run => some (s, .inl (.publish (.ok ())))
    | _ => none
  else if s.mapLen < newLen then
    match i with
    | .os none => some ({ s with file := setLen s.file newSize 0 }, .inl (.growMap s.mapLen newLen))
    | .os (some text) => some (s, .inl (.publish (.error (.io (.os text)))))
    | _ => none
  else if P.windows then
    match i with
    | .os none => some ({ s with map := .rw 0 }, .inl (.windowsSetLen s.mapLen newSize newLen))
    | .os (some text) => some (s, .inl (.publish (.error (.io (.os text)))))
    | _ => none
  else
    match i with
    | .map metadata map =>
      match mapFile P metadata map s newLen with
      | .error e => some (s, .inl (.publish (.error (.io e))))
      | .ok len => some (s, .inl (.shrinkSetLen newSize len))
    | _ => none

/-- One access of a write section. -/
def edit (P : Platform) : WLoc E → In → Inner → Option (Inner × (WLoc E ⊕ Out E))
  | .updateCheck offset data span tries, .run, s =>
    match sliceRange P.width offset (max span data.length) s.mapLen with
    | .error e => some (s, .inr (if tries then .flag (.error e) else .unit (.error e)))
    | .ok (start, _) => some (s, .inl (.update start data 0 tries))
  | .update start data stored tries, .run, s =>
    match data[stored]? with
    | some b => (storeByte s (start + stored) b).map (fun s => (s, .inl (.update start data (stored + 1) tries)))
    | none => some (s, .inr (if tries then .flag (.ok true) else .unit (.ok ())))
  | .guardCheck offset len, .run, s =>
    match (if len = 0 then .ok (0, 0) else sliceRange P.width offset len s.mapLen) with
    | .error e => some (s, .inr (.view (.error e)))
    | .ok (start, stop) => some (s, .inl (.guard start stop []))
  | .guard start stop seen, .get i, s =>
    if i < stop - start then s.bytes[start + i]?.map (fun b => (s, .inl (.guard start stop (seen ++ [b])))) else none
  | .guard start stop seen, .put i b, s =>
    if i < stop - start then (storeByte s (start + i) b).map (fun s => (s, .inl (.guard start stop seen))) else none
  | .guard _ _ seen, .drop, s => some (s, .inr (.view (.ok (some seen))))
  | .chunks chunkSize f, .run, s => some (s, .inl (.chunk chunkSize f s.mapLen [] 0))
  | .chunk chunkSize f total past offset, .run, s =>
    if offset < total then
      let stop := offset + min (total - offset) chunkSize
      if s.mapLen < stop then none
      else
        let chunk := s.bytes.extract offset stop
        let r := f.run past offset chunk
        match r.2 with
        | .error e => some (s.store offset r.1, .inr (.closure (.ok (.error e))))
        | .ok () => some (s.store offset r.1, .inl (.chunk chunkSize f total (past ++ [chunk]) stop))
    else some (s, .inr (.closure (.ok (.ok ()))))
  | .resize newSize newLen, i, s => startResize P newSize newLen i s
  | .growMap currentSize newLen, .map metadata map, s =>
    match mapFile P metadata map s newLen with
    | .ok len => some ({ s with map := .rw len }, .inl (.publish (.ok ())))
    | .error e => some (s, .inl (.growRestore currentSize e))
  | .growRestore currentSize e, .os answer, s =>
    match answer with
    | none => some ({ s with file := setLen s.file currentSize 0 }, .inl (.publish (.error (.io e))))
    | some _ => some (s, .inl (.publish (.error (.io e))))
  | .shrinkSetLen newSize len, .os answer, s =>
    match answer with
    | none => some ({ s with file := setLen s.file newSize 0, map := .rw len }, .inl (.publish (.ok ())))
    | some text => some (s, .inl (.publish (.error (.io (.os text)))))
  | .windowsSetLen currentLen newSize newLen, .os answer, s =>
    match answer with
    | none => some ({ s with file := setLen s.file newSize 0 }, .inl (.windowsMap newLen none))
    | some text => some (s, .inl (.windowsMap currentLen (some (.os text))))
  | .windowsMap len failed, .map metadata map, s =>
    match mapFile P metadata map s len with
    | .error e => some (s, .inl (.publish (.error (.io e))))
    | .ok len => some ({ s with map := .rw len }, .inl (.publish (match failed with
      | some e => .error (.io e)
      | none => .ok ())))
  | .publish r, .run, s => some ({ s with cachedLen := s.mapLen }, .inr (.unit r))
  | _, _, _ => none

/-- The part of a method before its section: what it answers without the lock, or the section it enters. -/
def plan (P : Platform) : Op E → Plan Nat RLoc (WLoc E) (Out E)
  | .updateRegion offset data =>
    if data.isEmpty then .answer (.unit (.ok ())) else .write (.updateCheck offset data data.length false)
  | .tryUpdateRegion offset data =>
    if data.isEmpty then .answer (.flag (.ok true)) else .write (.updateCheck offset data data.length true)
  | .segmentWrite g data =>
    if data.length > g.len then .answer (.unit (.error (.outOfBounds 0 data.length g.len)))
    else if data.isEmpty then .answer (.unit (.ok ()))
    else .write (.updateCheck g.offset data g.len false)
  | .asSliceMut offset len | .tryAsSliceMut offset len => .write (.guardCheck offset len)
  | .chunksMut chunkSize f => if chunkSize = 0 then .answer (.closure (.ok (.ok ()))) else .write (.chunks chunkSize f)
  | .resize newSize =>
    if newSize = 0 then .answer (.unit (.error (.resizeFailed "New size must be greater than zero")))
    else if newSize > P.width.maxMmapSize then
      .answer (.unit (.error (.resizeFailed
        s!"New size {newSize} exceeds maximum safe limit of {P.width.maxMmapSize} bytes")))
    else
      match tryFrom P.width.bits newSize with
      | none => .answer (.unit (.error (.resizeFailed s!"New size {newSize} does not fit in usize")))
      | some newLen => .write (.resize newSize newLen)
  | .readInto offset len | .readBytes offset len => if len = 0 then .answer (.bytes (.ok [])) else .read (.copyCheck offset len)
  | .asSlice offset len | .tryAsSlice offset len =>
    if len = 0 then .answer (.view (.ok (some []))) else .read (.viewCheck offset len)
  | .flush => .read .flush
  | .len => .peek .len

/-- What a `try_` method answers when it does not get the lock. -/
def busy : Op E → Option (Out E)
  | .tryUpdateRegion _ data => if data.isEmpty then none else some (.flag (.ok false))
  | .tryAsSliceMut _ _ => some (.view (.ok none))
  | .tryAsSlice _ len => if len = 0 then none else some (.view (.ok none))
  | _ => none

/-- Same policy, and the same recorded length unless it is published. -/
structure Kept (s s' : Inner) (published : Prop) : Prop where
  flushPolicy : s'.flushPolicy = s.flushPolicy
  cachedLen : published ∨ s'.cachedLen = s.cachedLen

theorem store_kept (s : Inner) (start : Nat) (data : List UInt8) (published : Prop) : Kept s (s.store start data) published := by
  unfold Inner.store
  split <;> exact ⟨rfl, Or.inr rfl⟩

theorem storeByte_eq {s s' : Inner} {i : Nat} {b : UInt8} (h : storeByte s i b = some s') :
    i < s.mapLen ∧ s' = s.store i [b] := by
  unfold storeByte at h
  split at h
  · rename_i hi
    cases h
    exact ⟨hi, rfl⟩
  · cases h

theorem startResize_kept {P : Platform} {newSize newLen : Nat} {i : In} {s s' : Inner} {x : WLoc E ⊕ Out E}
    {published : Prop} (h : startResize P newSize newLen i s = some (s', x)) : Kept s s' published := by
  unfold startResize at h
  repeat' split at h
  all_goals first | cases h; exact ⟨rfl, Or.inr rfl⟩ | cases h

/-- **Only the last access of a section publishes a length**, and none changes the policy. -/
theorem edit_kept {P : Platform} {l : WLoc E} {i : In} {s s' : Inner} {x : WLoc E ⊕ Out E} (h : edit P l i s = some (s', x)) :
    Kept s s' (x.isRight = true) := by
  cases l with
  | resize newSize newLen => exact startResize_kept h
  | update start data stored tries =>
    cases i <;> simp only [edit, reduceCtorEq] at h
    split at h
    · obtain ⟨t, ht, h⟩ := Option.map_eq_some_iff.1 h
      cases h
      rw [(storeByte_eq ht).2]
      exact store_kept ..
    · cases h
      exact ⟨rfl, Or.inr rfl⟩
  | guard start stop seen =>
    cases i <;> simp only [edit, reduceCtorEq] at h
    case get =>
      split at h
      · obtain ⟨b, -, h⟩ := Option.map_eq_some_iff.1 h
        cases h
        exact ⟨rfl, Or.inr rfl⟩
      · cases h
    case put =>
      split at h
      · obtain ⟨t, ht, h⟩ := Option.map_eq_some_iff.1 h
        cases h
        rw [(storeByte_eq ht).2]
        exact store_kept ..
      · cases h
    case drop =>
      cases h
      exact ⟨rfl, Or.inr rfl⟩
  | chunk chunkSize f total past offset =>
    cases i <;> simp only [edit, reduceCtorEq] at h
    split at h
    · split at h
      · cases h
      · split at h <;> cases h <;> exact store_kept ..
    · cases h
      exact ⟨rfl, Or.inr rfl⟩
  | publish r =>
    cases i <;> simp only [edit, reduceCtorEq] at h
    cases h
    exact ⟨rfl, Or.inl rfl⟩
  | _ =>
    cases i <;> simp only [edit, reduceCtorEq] at h
    all_goals
      first
        | cases h; exact ⟨rfl, Or.inr rfl⟩
        | split at h <;> cases h <;> exact ⟨rfl, Or.inr rfl⟩

/-- A shared mapping and its calls; `cached_len` is what can be read without the lock. -/
def mapping (P : Platform) : Object Inner Nat (Op E) RLoc (WLoc E) In (Out E) where
  pub := Inner.cachedLen
  plan := plan P
  busy := busy
  look := look P
  edit := edit P
  edit_pub := fun h => (edit_kept h).cachedLen.resolve_left Bool.false_ne_true

/-! ## The calls one after the other -/

/-- A use of a mutable guard. -/
inductive Use where
  | get (i : Nat)
  | put (i : Nat) (b : UInt8)

/-- A use of a guard on its bytes: the bytes after it, and the bytes read so far. -/
def use (w : List UInt8 × List UInt8) : Use → List UInt8 × List UInt8
  | .get i => (w.1, w.2 ++ w.1[i]?.toList)
  | .put i b => (w.1.set i b, w.2)

def useAll (uses : List Use) (shown : List UInt8) : List UInt8 × List UInt8 := uses.foldl use (shown, [])

theorem length_useAll (uses : List Use) (shown : List UInt8) : (useAll uses shown).1.length = shown.length := by
  unfold useAll
  induction uses using List.reverseRecOn with
  | nil => rfl
  | append_singleton uses u ih =>
    rw [List.foldl_concat]
    cases u with
    | get i => exact ih
    | put i b =>
      simp only [use, List.length_set]
      exact ih

/-- The writes of these uses. -/
def writesOf (uses : List Use) : SliceWrite where
  run := fun shown => (useAll uses shown).1
  length_run := length_useAll uses

/-- `as_slice_mut` with these uses of the guard. -/
def useGuard (P : Platform) (offset len : Nat) (uses : List Use) (s : Inner) : Except MmapIoError (List UInt8) × Inner :=
  match asSliceMut P offset len (writesOf uses) s with
  | (.ok shown, s) => (.ok (useAll uses shown).2, s)
  | (.error e, s) => (.error e, s)

/-- `as_slice` with reads at these offsets of the view. -/
def useView (P : Platform) (offset len : Nat) (reads : List Nat) (s : Inner) : Except MmapIoError (List UInt8) :=
  (asSlice P offset len s).map (fun shown => reads.filterMap (shown[·]?))

/-- The uses of a guard among what a call is given. -/
def usesOf (ins : List In) : List Use :=
  ins.filterMap (fun i => match i with
    | .get i => some (.get i)
    | .put i b => some (.put i b)
    | _ => none)

/-- The offsets read through a view. -/
def readsOf (ins : List In) : List Nat :=
  ins.filterMap (fun i => match i with
    | .get i => some i
    | _ => none)

/-- What the OS answers to one call after the other, mapping calls apart. -/
def answersOf (ins : List In) : List (Option String) :=
  ins.filterMap (fun i => match i with
    | .os answer => some answer
    | _ => none)

/-- What the OS answers to the length query and the mapping call. -/
def mapAnswersOf (ins : List In) : List (Option String × Option String) :=
  ins.filterMap (fun i => match i with
    | .map metadata map => some (metadata, map)
    | _ => none)

/-- The `k`-th answer, where it came to that call. -/
def answer (ins : List In) (k : Nat) : Option String := (answersOf ins)[k]?.getD none

/-- What the OS answers a flush. -/
def flushOs (ins : List In) : Os := { Os.ok with sync := answer ins 0 }

/-- What the OS answers a resize: a shrink on Windows makes the placeholder before its `set_len`, a grow may have a second
`set_len`. -/
def resizeOs (P : Platform) (newLen mapLen : Nat) (ins : List In) : Os :=
  let maps := (mapAnswersOf ins)[0]?.getD (none, none)
  if P.windows = true ∧ newLen < mapLen then
    { Os.ok with placeholder := answer ins 0, setLen := answer ins 1, metadata := maps.1, map := maps.2 }
  else { Os.ok with setLen := answer ins 0, restore := answer ins 1, metadata := maps.1, map := maps.2 }

/-- A policy under which an update asks for no flush. -/
def Quiet (s : Inner) : Prop :=
  s.flushPolicy = .never ∨ s.flushPolicy = .manual ∨ ∃ ms, s.flushPolicy = .everyMillis ms

/-- **What each call does when it runs alone**, given the answers of the OS and the uses of its view or guard, in terms of the
methods called one at a time: its result and the file, mapping and recorded length after it. A call that gave up found the
lock taken. An update does not depend on the OS. -/
def Serial (P : Platform) : Op E → Option (List In) → Out E → Inner → Inner → Prop
  | .updateRegion offset data, some _, r, s, s' => ∀ os, r = .unit (updateRegion P os offset data s).1 ∧
      SameData (updateRegion P os offset data s).2 s'
  | .tryUpdateRegion offset data, g, r, s, s' => ∀ os, r = .flag (tryUpdateRegion P os g.isSome offset data s).1 ∧
      SameData (tryUpdateRegion P os g.isSome offset data s).2 s'
  | .segmentWrite g data, some _, r, s, s' => ∀ os, r = .unit (NonShared.segmentWrite P os g data s).1 ∧
      SameData (NonShared.segmentWrite P os g data s).2 s'
  | .asSliceMut offset len, some ins, r, s, s' | .tryAsSliceMut offset len, some ins, r, s, s' =>
    r = .view ((useGuard P offset len (usesOf ins) s).1.map some) ∧ SameData (useGuard P offset len (usesOf ins) s).2 s'
  | .chunksMut chunkSize f, some _, r, s, s' =>
    r = .closure (forEachMutLegacy f chunkSize s).1 ∧ SameData (forEachMutLegacy f chunkSize s).2 s'
  | .resize newSize, some ins, r, s, s' => r = .unit (MmapIo.resize P (resizeOs P newSize s.mapLen ins) newSize s).1 ∧
      s' = (MmapIo.resize P (resizeOs P newSize s.mapLen ins) newSize s).2
  | .readInto offset len, some _, r, s, s' => r = .bytes (readInto P offset len s) ∧ s' = s
  | .readBytes offset len, some _, r, s, s' => r = .bytes (readBytes P offset len s) ∧ s' = s
  | .asSlice offset len, some ins, r, s, s' | .tryAsSlice offset len, some ins, r, s, s' =>
    r = .view ((useView P offset len (readsOf ins) s).map some) ∧ s' = s
  | .tryAsSliceMut _ _, none, r, s, s' => r = .view (.ok none) ∧ s' = s
  | .tryAsSlice _ len, none, r, s, s' => len ≠ 0 ∧ r = .view (.ok none) ∧ s' = s
  | .flush, some ins, r, s, s' => r = .unit (MmapIo.flush P (flushOs ins) s).1 ∧ s' = s
  | .len, some _, r, s, s' => r = .len s.cachedLen ∧ s' = s
  | _, none, _, _, _ => False

end Sections
end MmapIo
