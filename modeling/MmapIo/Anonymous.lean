import MmapIo.Atomicity
import MmapIo.Nonblocking
/-!
# Anonymous — the methods of an anonymous mapping, one access at a time

The methods of `AnonymousMmap` (`anonymous.rs`) as sections of its lock.  A range is checked against `len`, which never
changes, before the lock is taken; then a copy moves one byte at a time, and a view or a guard is used any number of times
before it is dropped.  What a method does alone is said by `Nonblocking`, with the lock free (`Serial`).  In every run the
methods are linearizable, and no access leaves the mapping (`anonymous_linearizable`).
-/
namespace MmapIo
namespace Anonymous

open Word Bytes Linear
open Sections (Use use useAll length_useAll useAll_concat)

/-- The mapped bytes and the entries of the live atomic views. -/
structure Memory where
  map : List UInt8
  atomics : List AtomicEntry
  deriving DecidableEq, Repr

inductive Op where
  | readInto (offset len : Nat)
  | updateRegion (offset : Nat) (data : List UInt8)
  | asSlice (offset len : Nat)
  | asMutSlice (offset len : Nat)
  | tryAsSlice (offset len : Nat)
  | tryAsMutSlice (offset len : Nat)
  | tryUpdateRegion (offset : Nat) (data : List UInt8)
  | len

inductive Out where
  | unit (r : Except MmapIoError Unit)
  | flag (r : Except MmapIoError Bool)
  | bytes (r : Except MmapIoError (List UInt8))
  /-- the bytes read through a view or a guard; `none` when the lock was not free -/
  | view (r : Except MmapIoError (Option (List UInt8)))
  | len (n : Nat)

/-- The uses of a view or a guard. -/
inductive In where
  | run
  | get (i : Nat)
  | put (i : Nat) (b : UInt8)
  | drop

inductive RLoc where
  | copy (start len : Nat) (dst : List UInt8)
  /-- `register_plain` -/
  | register (start stop : Nat)
  | view (start stop : Nat) (seen : List UInt8)

inductive WLoc where
  | update (start : Nat) (data : List UInt8) (stored : Nat) (tries : Bool)
  | guard (start stop : Nat) (seen : List UInt8)

/-- One access of a read section. -/
def look : RLoc → In → Memory → Option (RLoc ⊕ Out)
  | .copy start len dst, .run, s =>
    if dst.length < len then s.map[start + dst.length]?.map (fun b => .inl (.copy start len (dst ++ [b])))
    else some (.inr (.bytes (.ok dst)))
  | .register start stop, .run, s =>
    match Nonblocking.registerPlain s.atomics [] start stop with
    | .error e => some (.inr (.view (.error e)))
    | .ok _ => some (.inl (.view start stop []))
  | .view start stop seen, .get i, s =>
    if i < stop - start then s.map[start + i]?.map (fun b => .inl (.view start stop (seen ++ [b]))) else none
  | .view _ _ seen, .drop, _ => some (.inr (.view (.ok (some seen))))
  | _, _, _ => none

def storeByte (s : Memory) (i : Nat) (b : UInt8) : Option Memory :=
  if i < s.map.length then some { s with map := splice s.map i [b] } else none

/-- One access of a write section. -/
def edit : WLoc → In → Memory → Option (Memory × (WLoc ⊕ Out))
  | .update start data stored tries, .run, s =>
    match data[stored]? with
    | some b => (storeByte s (start + stored) b).map (fun s => (s, .inl (.update start data (stored + 1) tries)))
    | none => some (s, .inr (if tries then .flag (.ok true) else .unit (.ok ())))
  | .guard start stop seen, .get i, s =>
    if i < stop - start then s.map[start + i]?.map (fun b => (s, .inl (.guard start stop (seen ++ [b])))) else none
  | .guard start stop seen, .put i b, s =>
    if i < stop - start then (storeByte s (start + i) b).map (fun s => (s, .inl (.guard start stop seen))) else none
  | .guard _ _ seen, .drop, s => some (s, .inr (.view (.ok (some seen))))
  | _, _, _ => none

/-- The range of `as_mut_slice` and `try_as_mut_slice`. -/
def mutRange (P : Platform) (total offset len : Nat) : Except MmapIoError (Nat × Nat) :=
  if len = 0 then .ok (0, 0) else sliceRange P.width offset len total

/-- A method before its lock: `total` is the field `len`. -/
def plan (P : Platform) (total : Nat) : Op → Plan Unit RLoc WLoc Out
  | .readInto offset len =>
    if len = 0 then .answer (.bytes (.ok []))
    else
      match sliceRange P.width offset len total with
      | .error e => .answer (.bytes (.error e))
      | .ok (start, _) => .read (.copy start len [])
  | .updateRegion offset data =>
    if data.isEmpty then .answer (.unit (.ok ()))
    else
      match sliceRange P.width offset data.length total with
      | .error e => .answer (.unit (.error e))
      | .ok (start, _) => .write (.update start data 0 false)
  | .tryUpdateRegion offset data =>
    if data.isEmpty then .answer (.flag (.ok true))
    else
      match sliceRange P.width offset data.length total with
      | .error e => .answer (.flag (.error e))
      | .ok (start, _) => .write (.update start data 0 true)
  | .asSlice offset len | .tryAsSlice offset len =>
    if len = 0 then .answer (.view (.ok (some [])))
    else
      match sliceRange P.width offset len total with
      | .error e => .answer (.view (.error e))
      | .ok (start, stop) => .read (.register start stop)
  | .asMutSlice offset len | .tryAsMutSlice offset len =>
    match mutRange P total offset len with
    | .error e => .answer (.view (.error e))
    | .ok (start, stop) => .write (.guard start stop [])
  | .len => .answer (.len total)

/-- What a `try_` method answers when it does not get the lock. -/
def busy (P : Platform) (total : Nat) : Op → Option Out
  | .tryUpdateRegion offset data =>
    if data.isEmpty then none
    else
      match sliceRange P.width offset data.length total with
      | .error _ => none
      | .ok _ => some (.flag (.ok false))
  | .tryAsSlice offset len =>
    if len = 0 then none
    else
      match sliceRange P.width offset len total with
      | .error _ => none
      | .ok _ => some (.view (.ok none))
  | .tryAsMutSlice offset len =>
    match mutRange P total offset len with
    | .error _ => none
    | .ok _ => some (.view (.ok none))
  | _ => none

/-- An anonymous mapping of `total` bytes and its calls. Nothing is read without the lock but `len`. -/
def mapping (P : Platform) (total : Nat) : Object Memory Unit Op RLoc WLoc In Out where
  pub := fun _ => ()
  plan := plan P total
  busy := busy P total
  look := look
  edit := edit
  edit_pub := fun _ => rfl

/-! ## The calls one after the other -/

/-- The mapping with its lock free and no view alive. -/
def atRest (total : Nat) (s : Memory) : Nonblocking.AnonymousMmap Unit := ⟨s.map, total, RwLock.free, [], s.atomics⟩

/-- `read_into`, of a mapping with no atomic view over the range. -/
def readInto (P : Platform) (total offset len : Nat) (s : Memory) : Except MmapIoError (List UInt8) :=
  if len = 0 then .ok []
  else
    match sliceRange P.width offset len total with
    | .error e => .error e
    | .ok (start, stop) => .ok (s.map.extract start stop)

/-- The uses of a guard among what a call is given. -/
def usesOf (ins : List In) : List Use :=
  ins.filterMap (fun i => match i with
    | .get i => some (.get i)
    | .put i b => some (.put i b)
    | _ => none)

/-- The offsets read through a view. -/
def readsOf (ins : List In) : List Nat :=
  ins.filterMap (fun i => match i with
    | .get i => some i
    | _ => none)

/-- `as_slice` and reads at these offsets of the view. -/
def ViewOf (P : Platform) (total offset len : Nat) (reads : List Nat) (s : Memory)
    (r : Except MmapIoError (Option (List UInt8))) : Prop :=
  (∃ e a, (atRest total s).asSlice P () offset len = some (.error e, a) ∧ r = .error e) ∨
    ∃ m a, (atRest total s).asSlice P () offset len = some (.ok m, a) ∧ r = .ok (some (reads.filterMap (m.bytes[·]?)))

/-- `as_mut_slice` and these uses of the guard. -/
def GuardOf (P : Platform) (total offset len : Nat) (uses : List Use) (s : Memory)
    (r : Except MmapIoError (Option (List UInt8))) (s' : Memory) : Prop :=
  (∃ e a, (atRest total s).asMutSlice P () offset len = some (.error e, a) ∧ r = .error e ∧ s' = s) ∨
    ∃ m a, (atRest total s).asMutSlice P () offset len = some (.ok m, a) ∧
      r = .ok (some (useAll uses m.bytes).2) ∧ s' = { s with map := splice s.map m.range.start (useAll uses m.bytes).1 }

/-- **What each call does when it runs alone**, given the uses of its view or guard: with the lock free or, for a `try_` method
that gave up, not. -/
def Serial (P : Platform) (total : Nat) : Op → Option (List In) → Out → Memory → Memory → Prop
  | .readInto offset len, some _, r, s, s' => r = .bytes (readInto P total offset len s) ∧ s' = s
  | .updateRegion offset data, some _, r, s, s' => ∃ res a, (atRest total s).updateRegion P () offset data = some (res, a) ∧
      r = .unit res ∧ s' = { s with map := a.map }
  | .tryUpdateRegion offset data, some _, r, s, s' => r = .flag ((atRest total s).tryUpdateRegion P () offset data).1 ∧
      s' = { s with map := ((atRest total s).tryUpdateRegion P () offset data).2.map }
  | .tryUpdateRegion offset data, none, r, s, s' =>
    data ≠ [] ∧ offset + data.length ≤ total ∧ r = .flag (.ok false) ∧ s' = s
  | .asSlice offset len, some ins, r, s, s' | .tryAsSlice offset len, some ins, r, s, s' =>
    ∃ v, r = .view v ∧ ViewOf P total offset len (readsOf ins) s v ∧ s' = s
  | .tryAsSlice offset len, none, r, s, s' => len ≠ 0 ∧ offset + len ≤ total ∧ r = .view (.ok none) ∧ s' = s
  | .asMutSlice offset len, some ins, r, s, s' | .tryAsMutSlice offset len, some ins, r, s, s' =>
    ∃ v, r = .view v ∧ GuardOf P total offset len (usesOf ins) s v s'
  | .tryAsMutSlice offset len, none, r, s, s' => (len = 0 ∨ offset + len ≤ total) ∧ r = .view (.ok none) ∧ s' = s
  | .len, some _, r, s, s' => r = .len total ∧ s' = s
  | _, none, _, _, _ => False

variable {P : Platform} {total : Nat} {σ s s' : Memory} {ins : List In} {g : Option (List In)}

theorem usesOf_append (ins rest : List In) : usesOf (ins ++ rest) = usesOf ins ++ usesOf rest := List.filterMap_append ..

theorem readsOf_append (ins rest : List In) : readsOf (ins ++ rest) = readsOf ins ++ readsOf rest := List.filterMap_append ..

/-! ## Read sections -/

/-- **A copy** has the bytes of its range up to where it is. -/
theorem looks_copy {start n : Nat} {l : RLoc} (hl : Looks (mapping P total) σ (.copy start n []) ins l) :
    ∃ dst, l = .copy start n dst ∧ dst.length ≤ n ∧ dst = (σ.map.drop start).take dst.length := by
  induction hl with
  | start => exact ⟨[], rfl, Nat.zero_le _, rfl⟩
  | @next ins l l' i _ hlook ih =>
    obtain ⟨dst, rfl, hle, hdst⟩ := ih
    cases i <;> simp only [mapping, look, reduceCtorEq] at hlook
    split at hlook
    · rename_i hlt
      obtain ⟨b, hb, hlook⟩ := Option.map_eq_some_iff.1 hlook
      cases hlook
      refine ⟨dst ++ [b], rfl, by rw [List.length_append]; exact hlt, ?_⟩
      rw [List.length_append, List.length_singleton, List.take_add_one, ← hdst, List.getElem?_drop, hb]
      rfl
    · cases hlook

/-- **A view** was granted, and every byte read through it is one it shows. -/
theorem looks_view {start stop : Nat} {l : RLoc} (hl : Looks (mapping P total) σ (.register start stop) ins l) :
    l = .register start stop ∧ ins = [] ∨
      ∃ plain, l = .view start stop ((readsOf ins).filterMap ((σ.map.extract start stop)[·]?)) ∧
        Nonblocking.registerPlain σ.atomics [] start stop = .ok plain := by
  induction hl with
  | start => exact Or.inl ⟨rfl, rfl⟩
  | @next ins l l' i _ hlook ih =>
    refine Or.inr ?_
    rcases ih with ⟨rfl, rfl⟩ | ⟨plain, rfl, hreg⟩ <;> cases i <;>
      simp only [mapping, look, reduceCtorEq] at hlook
    · split at hlook
      · cases hlook
      · rename_i plain hreg
        cases hlook
        exact ⟨plain, rfl, hreg⟩
    · rename_i k
      split at hlook
      · rename_i hk
        obtain ⟨b, hb, hlook⟩ := Option.map_eq_some_iff.1 hlook
        cases hlook
        have hbyte : (σ.map.extract start stop)[k]? = some b := by
          rw [List.extract, List.getElem?_take_of_lt hk, List.getElem?_drop, hb]
        refine ⟨plain, ?_, hreg⟩
        rw [readsOf_append, List.filterMap_append, show readsOf [.get k] = [k] from rfl, List.filterMap_cons, hbyte]
        rfl
      · cases hlook
    · cases hlook

/-! ## Write sections -/

theorem storeByte_eq {i : Nat} {b : UInt8} (h : storeByte s i b = some s') :
    i < s.map.length ∧ s' = { s with map := splice s.map i [b] } := by
  unfold storeByte at h
  split at h
  · rename_i hi
    cases h
    exact ⟨hi, rfl⟩
  · cases h

/-- **An update** has stored the first bytes of its data, and nothing else. -/
theorem edits_update {start : Nat} {data : List UInt8} {tries : Bool} {l : WLoc} (hfit : start + data.length ≤ σ.map.length)
    (he : Edits (mapping P total) σ (.update start data 0 tries) ins l s) :
    ∃ k, l = .update start data k tries ∧ k ≤ data.length ∧ s = { σ with map := splice σ.map start (data.take k) } := by
  induction he with
  | start => exact ⟨0, rfl, Nat.zero_le _, by rw [List.take_zero, splice_nil]⟩
  | @next ins l l' i s s' _ hedit ih =>
    obtain ⟨k, rfl, hk, rfl⟩ := ih
    cases i <;> simp only [mapping, edit, reduceCtorEq] at hedit
    split at hedit
    · rename_i b hb
      obtain ⟨t, ht, hedit⟩ := Option.map_eq_some_iff.1 hedit
      cases hedit
      have hlt : k < data.length := (List.getElem?_eq_some_iff.1 hb).1
      have hlen : (data.take k).length = k := by rw [List.length_take]; omega
      refine ⟨k + 1, rfl, hlt, ?_⟩
      have happ : splice (splice σ.map start (data.take k)) (start + (data.take k).length) [b] = _ :=
        splice_append (by rw [hlen, List.length_singleton]; omega)
      rw [hlen] at happ
      rw [(storeByte_eq ht).2, List.take_add_one, hb, Option.toList_some, ← happ]
    · cases hedit

theorem length_extract {start stop : Nat} (hstop : stop ≤ σ.map.length) :
    (σ.map.extract start stop).length = stop - start := by
  rw [List.extract, List.length_take, List.length_drop]
  omega

/-- **A guard** has read and written its range as its uses say, and nothing else. -/
theorem edits_guard {start stop : Nat} {l : WLoc} (hle : start ≤ stop) (hstop : stop ≤ σ.map.length)
    (he : Edits (mapping P total) σ (.guard start stop []) ins l s) :
    l = .guard start stop (useAll (usesOf ins) (σ.map.extract start stop)).2 ∧
      s = { σ with map := splice σ.map start (useAll (usesOf ins) (σ.map.extract start stop)).1 } := by
  induction he with
  | start =>
    refine ⟨rfl, ?_⟩
    show σ = { σ with map := splice σ.map start (σ.map.extract start stop) }
    rw [splice_extract hle hstop]
  | @next ins l l' i s s' _ hedit ih =>
    obtain ⟨rfl, rfl⟩ := ih
    have hlen : (useAll (usesOf ins) (σ.map.extract start stop)).1.length = stop - start := by
      rw [length_useAll, length_extract hstop]
    have hfit : start + (useAll (usesOf ins) (σ.map.extract start stop)).1.length ≤ σ.map.length := by omega
    cases i <;> simp only [mapping, edit, reduceCtorEq] at hedit
    · rename_i k
      have huses : usesOf (ins ++ [.get k]) = usesOf ins ++ [.get k] := usesOf_append ..
      split at hedit
      · rename_i hk
        obtain ⟨b, hb, hedit⟩ := Option.map_eq_some_iff.1 hedit
        cases hedit
        rw [getElem?_splice hfit, if_pos (by omega), Nat.add_sub_cancel_left] at hb
        rw [huses, useAll_concat, use, hb]
        exact ⟨rfl, rfl⟩
      · cases hedit
    · rename_i k b
      have huses : usesOf (ins ++ [.put k b]) = usesOf ins ++ [.put k b] := usesOf_append ..
      split at hedit
      · rename_i hk
        obtain ⟨t, ht, hedit⟩ := Option.map_eq_some_iff.1 hedit
        cases hedit
        rw [(storeByte_eq ht).2, huses, useAll_concat, use]
        refine ⟨rfl, ?_⟩
        simp only
        rw [splice_set hfit (by omega)]
      · cases hedit
    · cases hedit

/-! ## The methods at rest -/

section AtRest

variable (σ) (hmax : total ≤ P.width.maxLen) {offset n : Nat} {data : List UInt8}

theorem writable_free : Nonblocking.Writable (RwLock.free : RwLock Unit) := ⟨rfl, rfl⟩

theorem readable_free : ∃ lock, (RwLock.free : RwLock Unit).acquireRead () = some lock :=
  Option.ne_none_iff_exists'.1 (by decide)

include hmax

theorem updateRegion_atRest (offset : Nat) (hne : data.isEmpty = false) :
    ∃ a, (atRest total σ).updateRegion P () offset data =
        some (if offset + data.length ≤ total then .ok () else .error (.outOfBounds offset data.length total), a) ∧
      a.map = if offset + data.length ≤ total then splice σ.map offset data else σ.map := by
  simp only [Nonblocking.AnonymousMmap.updateRegion, atRest, hne, Bool.false_eq_true, if_false, sliceRange_eq hmax]
  by_cases hfit : offset + data.length ≤ total
  · simp only [if_pos hfit, Nonblocking.acquireWrite_of_writable writable_free]
    exact ⟨_, rfl, rfl⟩
  · simp only [if_neg hfit]
    exact ⟨_, rfl, rfl⟩

theorem tryUpdateRegion_atRest (offset : Nat) (hne : data.isEmpty = false) :
    ((atRest total σ).tryUpdateRegion P () offset data).1 =
      (if offset + data.length ≤ total then .ok true else .error (.outOfBounds offset data.length total)) ∧
    ((atRest total σ).tryUpdateRegion P () offset data).2.map =
      if offset + data.length ≤ total then splice σ.map offset data else σ.map := by
  simp only [Nonblocking.AnonymousMmap.tryUpdateRegion, atRest, hne, Bool.false_eq_true, if_false, sliceRange_eq hmax]
  by_cases hfit : offset + data.length ≤ total
  · simp only [if_pos hfit, Nonblocking.acquireWrite_of_writable writable_free, and_self]
  · simp only [if_neg hfit, and_self]

theorem asSlice_refused (h0 : n ≠ 0) (hfit : ¬ offset + n ≤ total) :
    ∃ a, (atRest total σ).asSlice P () offset n = some (.error (.outOfBounds offset n total), a) := by
  simp only [Nonblocking.AnonymousMmap.asSlice, atRest, if_neg h0, sliceRange_eq hmax, if_neg hfit]
  exact ⟨_, rfl⟩

theorem asSlice_conflict (h0 : n ≠ 0) (hfit : offset + n ≤ total) {e : MmapIoError}
    (hreg : Nonblocking.registerPlain σ.atomics [] offset (offset + n) = .error e) :
    ∃ a, (atRest total σ).asSlice P () offset n = some (.error e, a) := by
  obtain ⟨lock, hlock⟩ := readable_free
  simp only [Nonblocking.AnonymousMmap.asSlice, atRest, if_neg h0, sliceRange_eq hmax, if_pos hfit, hlock, hreg]
  exact ⟨_, rfl⟩

theorem asSlice_granted (h0 : n ≠ 0) (hfit : offset + n ≤ total) {plain : List Span}
    (hreg : Nonblocking.registerPlain σ.atomics [] offset (offset + n) = .ok plain) :
    ∃ m a, (atRest total σ).asSlice P () offset n = some (.ok m, a) ∧ m.bytes = σ.map.extract offset (offset + n) := by
  obtain ⟨lock, hlock⟩ := readable_free
  simp only [Nonblocking.AnonymousMmap.asSlice, atRest, if_neg h0, sliceRange_eq hmax, if_pos hfit, hlock, hreg]
  exact ⟨_, _, rfl, rfl⟩

omit hmax

theorem asSlice_empty : ∃ m a, (atRest total σ).asSlice P () offset 0 = some (.ok m, a) ∧ m.bytes = [] :=
  ⟨_, _, rfl, rfl⟩

theorem asMutSlice_refused {e : MmapIoError} (hrange : mutRange P total offset n = .error e) :
    ∃ a, (atRest total σ).asMutSlice P () offset n = some (.error e, a) := by
  have hsame : (atRest total σ).mutRange P offset n = .error e := hrange
  simp only [Nonblocking.AnonymousMmap.asMutSlice, hsame]
  exact ⟨_, rfl⟩

theorem asMutSlice_granted {start stop : Nat} (hrange : mutRange P total offset n = .ok (start, stop)) :
    ∃ m a, (atRest total σ).asMutSlice P () offset n = some (.ok m, a) ∧ m.range.start = start ∧
      m.bytes = σ.map.extract start stop := by
  have hsame : (atRest total σ).mutRange P offset n = .ok (start, stop) := hrange
  unfold Nonblocking.AnonymousMmap.asMutSlice
  rw [hsame]
  simp only [atRest, Nonblocking.acquireWrite_of_writable writable_free]
  exact ⟨_, _, rfl, rfl, rfl⟩

end AtRest

/-! ## Every call -/

theorem mutRange_ok {offset n start stop : Nat} (h : mutRange P total offset n = .ok (start, stop)) :
    start ≤ stop ∧ stop ≤ total ∧ (n = 0 ∨ offset + n ≤ total) := by
  unfold mutRange at h
  split at h
  · rename_i h0
    cases h
    exact ⟨Nat.le_refl _, Nat.zero_le _, Or.inl h0⟩
  · obtain ⟨rfl, rfl, hfit⟩ := sliceRange_ok h
    exact ⟨Nat.le_add_right _ _, hfit, Or.inr hfit⟩

variable {offset n : Nat} {data : List UInt8} {r : Out} (hmax : total ≤ P.width.maxLen)

include hmax

theorem readInto_serial (hd : Does (mapping P total) (.readInto offset n) g r σ s') :
    g.isSome = true ∧ r = .bytes (readInto P total offset n σ) ∧ s' = σ := by
  unfold readInto
  rw [sliceRange_eq hmax]
  by_cases h0 : n = 0
  · rw [if_pos h0]
    obtain ⟨rfl, hr, hs⟩ := hd.of_answer (show plan P total (.readInto offset n) = _ by rw [plan, if_pos h0]) rfl
    exact ⟨rfl, hr, hs⟩
  rw [if_neg h0]
  by_cases hfit : offset + n ≤ total
  · obtain ⟨rfl, ⟨-, hb⟩ | ⟨ins, l, i, rfl, hl, hlast⟩⟩ := hd.of_read
      (show plan P total (.readInto offset n) = .read (.copy offset n []) by
        rw [plan, if_neg h0, sliceRange_eq hmax, if_pos hfit])
    · cases hb
    · obtain ⟨dst, rfl, hle, hdst⟩ := looks_copy hl
      cases i <;> simp only [mapping, look, reduceCtorEq] at hlast
      split at hlast
      · obtain ⟨b, -, hlast⟩ := Option.map_eq_some_iff.1 hlast
        cases hlast
      · cases hlast
        have hn : dst.length = n := by omega
        rw [hn] at hdst
        simp only [if_pos hfit, List.extract, Nat.add_sub_cancel_left, ← hdst, Option.isSome_some, and_self]
  · rw [if_neg hfit]
    obtain ⟨rfl, hr, hs⟩ := hd.of_answer
      (show plan P total (.readInto offset n) = _ by rw [plan, if_neg h0, sliceRange_eq hmax, if_neg hfit]) rfl
    exact ⟨rfl, hr, hs⟩

/-- A method that shows its bytes is refused, or is the view with its reads; where it does not wait it may give up. -/
theorem view_serial {op : Op} (hplan : plan P total op = plan P total (.asSlice offset n))
    (hbusy : busy P total op = none ∨ busy P total op = busy P total (.tryAsSlice offset n))
    (hd : Does (mapping P total) op g r σ s') : s' = σ ∧
      ((g = none ∧ n ≠ 0 ∧ offset + n ≤ total ∧ r = .view (.ok none) ∧ busy P total op = some r) ∨
        ∃ ins v, g = some ins ∧ r = .view v ∧ ViewOf P total offset n (readsOf ins) σ v) := by
  by_cases h0 : n = 0
  · subst h0
    have hb : busy P total op = none := hbusy.elim id (fun h => h.trans rfl)
    obtain ⟨rfl, rfl, rfl⟩ := hd.of_answer (hplan.trans rfl) hb
    obtain ⟨m, a, ha, hm⟩ : ∃ m a, (atRest total s').asSlice P () offset 0 = some (.ok m, a) ∧ m.bytes = [] :=
      asSlice_empty s'
    exact ⟨rfl, Or.inr ⟨[], _, rfl, rfl, Or.inr ⟨m, a, ha, rfl⟩⟩⟩
  by_cases hfit : offset + n ≤ total
  · obtain ⟨rfl, ⟨rfl, hb⟩ | ⟨ins, l, i, rfl, hl, hlast⟩⟩ := hd.of_read
      (show plan P total op = .read (.register offset (offset + n)) by
        rw [hplan, plan, if_neg h0, sliceRange_eq hmax, if_pos hfit])
    · have hbusy' : busy P total op = some r := hb
      refine ⟨rfl, Or.inl ⟨rfl, h0, hfit, ?_, hbusy'⟩⟩
      rcases hbusy with hn | hn
      · rw [hn] at hbusy'
        cases hbusy'
      · rw [hn, busy, if_neg h0, sliceRange_eq hmax, if_pos hfit] at hbusy'
        cases hbusy'
        rfl
    · refine ⟨rfl, Or.inr ?_⟩
      rcases looks_view hl with ⟨rfl, rfl⟩ | ⟨plain, rfl, hreg⟩ <;> cases i <;>
        simp only [mapping, look, reduceCtorEq] at hlast
      · split at hlast
        · rename_i e hreg
          cases hlast
          obtain ⟨a, ha⟩ := asSlice_conflict _ hmax h0 hfit hreg
          exact ⟨_, _, rfl, rfl, Or.inl ⟨e, a, ha, rfl⟩⟩
        · cases hlast
      · split at hlast
        · obtain ⟨b, -, hlast⟩ := Option.map_eq_some_iff.1 hlast
          cases hlast
        · cases hlast
      · cases hlast
        obtain ⟨m, a, ha, hm⟩ := asSlice_granted _ hmax h0 hfit hreg
        refine ⟨_, _, rfl, rfl, Or.inr ⟨m, a, ha, ?_⟩⟩
        rw [hm, readsOf_append, show readsOf [.drop] = [] from rfl, List.append_nil]
  · have hb : busy P total op = none := by
      refine hbusy.elim id (fun h => h.trans ?_)
      rw [busy, if_neg h0, sliceRange_eq hmax, if_neg hfit]
    obtain ⟨rfl, rfl, rfl⟩ := hd.of_answer
      (show plan P total op = _ by rw [hplan, plan, if_neg h0, sliceRange_eq hmax, if_neg hfit]) hb
    obtain ⟨a, ha⟩ := asSlice_refused s' hmax h0 hfit
    exact ⟨rfl, Or.inr ⟨[], _, rfl, rfl, Or.inl ⟨_, a, ha, rfl⟩⟩⟩

omit hmax in
/-- **The section of an update** stores the whole of it. -/
theorem update_section (hfit : offset + data.length ≤ σ.map.length) {tries : Bool} {l : WLoc} {i : In}
    (he : Edits (mapping P total) σ (.update offset data 0 tries) ins l s) (hlast : edit l i s = some (s', .inr r)) :
    s' = { σ with map := splice σ.map offset data } ∧ r = if tries then .flag (.ok true) else .unit (.ok ()) := by
  obtain ⟨k, rfl, hk, rfl⟩ := edits_update hfit he
  cases i <;> simp only [edit, reduceCtorEq] at hlast
  split at hlast
  · obtain ⟨t, -, hlast⟩ := Option.map_eq_some_iff.1 hlast
    cases hlast
  · rename_i hnone
    cases hlast
    rw [List.take_of_length_le (List.getElem?_eq_none_iff.1 hnone)]
    exact ⟨rfl, rfl⟩

theorem update_serial (hlen : σ.map.length = total) (hd : Does (mapping P total) (.updateRegion offset data) g r σ s') :
    Serial P total (.updateRegion offset data) g r σ s' ∧ s'.map.length = total := by
  cases hne : data.isEmpty with
  | true =>
    obtain ⟨rfl, rfl, rfl⟩ := hd.of_answer (show plan P total (.updateRegion offset data) = _ by rw [plan, if_pos hne]) rfl
    refine ⟨⟨.ok (), atRest total s', ?_, rfl, rfl⟩, hlen⟩
    rw [Nonblocking.AnonymousMmap.updateRegion, if_pos hne]
  | false =>
    obtain ⟨a, ha, hmap⟩ := updateRegion_atRest σ hmax offset hne
    by_cases hfit : offset + data.length ≤ total
    · rw [if_pos hfit] at ha hmap
      rcases hd.of_write (show plan P total (.updateRegion offset data) = .write (.update offset data 0 false) by
          rw [plan, hne, if_neg Bool.false_ne_true, sliceRange_eq hmax, if_pos hfit]) with
        ⟨-, hb, -⟩ | ⟨ins, l, i, s, rfl, he, hlast⟩
      · cases hb
      · obtain ⟨rfl, rfl⟩ := update_section (by omega) he hlast
        exact ⟨⟨_, a, ha, rfl, by rw [hmap]⟩, by rw [length_splice (by omega)]; exact hlen⟩
    · rw [if_neg hfit] at ha hmap
      obtain ⟨rfl, rfl, rfl⟩ := hd.of_answer (show plan P total (.updateRegion offset data) = _ by
        rw [plan, hne, if_neg Bool.false_ne_true, sliceRange_eq hmax, if_neg hfit]) rfl
      exact ⟨⟨_, a, ha, rfl, by rw [hmap]⟩, hlen⟩

theorem tryUpdate_serial (hlen : σ.map.length = total) (hd : Does (mapping P total) (.tryUpdateRegion offset data) g r σ s') :
    Serial P total (.tryUpdateRegion offset data) g r σ s' ∧ s'.map.length = total := by
  cases hne : data.isEmpty with
  | true =>
    obtain ⟨rfl, rfl, rfl⟩ := hd.of_answer (show plan P total (.tryUpdateRegion offset data) = _ by rw [plan, if_pos hne])
      (show busy P total (.tryUpdateRegion offset data) = none by rw [busy, if_pos hne])
    refine ⟨?_, hlen⟩
    show _ = _ ∧ _ = _
    rw [Nonblocking.AnonymousMmap.tryUpdateRegion, if_pos hne]
    exact ⟨rfl, rfl⟩
  | false =>
    obtain ⟨hres, hmap⟩ := tryUpdateRegion_atRest σ hmax offset hne
    by_cases hfit : offset + data.length ≤ total
    · rw [if_pos hfit] at hres hmap
      rcases hd.of_write (show plan P total (.tryUpdateRegion offset data) = .write (.update offset data 0 true) by
          rw [plan, hne, if_neg Bool.false_ne_true, sliceRange_eq hmax, if_pos hfit]) with
        ⟨rfl, hb, rfl⟩ | ⟨ins, l, i, s, rfl, he, hlast⟩
      · have hb' : busy P total (.tryUpdateRegion offset data) = some r := hb
        rw [busy, hne, if_neg Bool.false_ne_true, sliceRange_eq hmax, if_pos hfit] at hb'
        cases hb'
        exact ⟨⟨by rw [← List.isEmpty_eq_false_iff]; exact hne, hfit, rfl, rfl⟩, hlen⟩
      · obtain ⟨rfl, rfl⟩ := update_section (by omega) he hlast
        exact ⟨⟨by rw [hres]; rfl, by rw [hmap]⟩, by rw [length_splice (by omega)]; exact hlen⟩
    · rw [if_neg hfit] at hres hmap
      obtain ⟨rfl, rfl, rfl⟩ := hd.of_answer (show plan P total (.tryUpdateRegion offset data) = _ by
          rw [plan, hne, if_neg Bool.false_ne_true, sliceRange_eq hmax, if_neg hfit])
        (show busy P total (.tryUpdateRegion offset data) = none by
          rw [busy, hne, if_neg Bool.false_ne_true, sliceRange_eq hmax, if_neg hfit])
      exact ⟨⟨by rw [hres], by rw [hmap]⟩, hlen⟩

omit hmax in
/-- A method that lends its bytes mutably is refused, or is the guard with its uses; where it does not wait it may give up. -/
theorem guard_serial (hlen : σ.map.length = total) {op : Op} (hplan : plan P total op = plan P total (.asMutSlice offset n))
    (hbusy : busy P total op = none ∨ busy P total op = busy P total (.tryAsMutSlice offset n))
    (hd : Does (mapping P total) op g r σ s') : s'.map.length = total ∧
      ((g = none ∧ (n = 0 ∨ offset + n ≤ total) ∧ r = .view (.ok none) ∧ s' = σ ∧ busy P total op = some r) ∨
        ∃ ins v, g = some ins ∧ r = .view v ∧ GuardOf P total offset n (usesOf ins) σ v s') := by
  cases hrange : mutRange P total offset n with
  | error e =>
    have hb : busy P total op = none := by
      refine hbusy.elim id (fun h => h.trans ?_)
      rw [busy, hrange]
    obtain ⟨rfl, rfl, rfl⟩ := hd.of_answer (show plan P total op = _ by rw [hplan, plan, hrange]) hb
    obtain ⟨a, ha⟩ := asMutSlice_refused s' hrange
    exact ⟨hlen, Or.inr ⟨[], _, rfl, rfl, Or.inl ⟨e, a, ha, rfl, rfl⟩⟩⟩
  | ok range =>
    obtain ⟨start, stop⟩ := range
    obtain ⟨hle, hstop, hfit⟩ := mutRange_ok hrange
    rcases hd.of_write (show plan P total op = .write (.guard start stop []) by rw [hplan, plan, hrange]) with
      ⟨rfl, hb, rfl⟩ | ⟨ins, l, i, s, rfl, he, hlast⟩
    · have hb' : busy P total op = some r := hb
      refine ⟨hlen, Or.inl ⟨rfl, hfit, ?_, rfl, hb'⟩⟩
      rcases hbusy with hn | hn
      · rw [hn] at hb'
        cases hb'
      · rw [hn, busy, hrange] at hb'
        cases hb'
        rfl
    · obtain ⟨rfl, rfl⟩ := edits_guard hle (by omega) he
      obtain ⟨m, a, ha, hstart, hm⟩ := asMutSlice_granted σ hrange
      have hshown : (useAll (usesOf ins) (σ.map.extract start stop)).1.length = stop - start := by
        rw [length_useAll, length_extract (by omega)]
      cases i <;> simp only [mapping, edit, reduceCtorEq] at hlast
      case get | put =>
        split at hlast
        · obtain ⟨t, -, hlast⟩ := Option.map_eq_some_iff.1 hlast
          cases hlast
        · cases hlast
      case drop =>
        cases hlast
        refine ⟨by rw [length_splice (by omega)]; exact hlen, Or.inr ⟨_, _, rfl, rfl, Or.inr ⟨m, a, ha, ?_⟩⟩⟩
        rw [usesOf_append, show usesOf [.drop] = [] from rfl, List.append_nil, hstart, hm]
        exact ⟨rfl, rfl⟩

/-- **Every call, run alone, is its method**, and leaves as many bytes. -/
theorem does_serial (op : Op) (g : Option (List In)) (r : Out) (σ s' : Memory) (hlen : σ.map.length = total)
    (hd : Does (mapping P total) op g r σ s') : Serial P total op g r σ s' ∧ s'.map.length = total := by
  cases op with
  | readInto offset n =>
    obtain ⟨hg, hr, rfl⟩ := readInto_serial hmax hd
    obtain ⟨ins, rfl⟩ := Option.isSome_iff_exists.1 hg
    exact ⟨⟨hr, rfl⟩, hlen⟩
  | updateRegion offset data => exact update_serial hmax hlen hd
  | tryUpdateRegion offset data => exact tryUpdate_serial hmax hlen hd
  | asSlice offset n =>
    obtain ⟨rfl, ⟨-, -, -, -, hb⟩ | ⟨ins, v, rfl, hr, hv⟩⟩ := view_serial hmax rfl (Or.inl rfl) hd
    · cases hb
    · exact ⟨⟨v, hr, hv, rfl⟩, hlen⟩
  | tryAsSlice offset n =>
    have hplan : plan P total (.tryAsSlice offset n) = plan P total (.asSlice offset n) := rfl
    obtain ⟨rfl, ⟨rfl, h0, hfit, hr, -⟩ | ⟨ins, v, rfl, hr, hv⟩⟩ := view_serial hmax hplan (Or.inr rfl) hd
    · exact ⟨⟨h0, hfit, hr, rfl⟩, hlen⟩
    · exact ⟨⟨v, hr, hv, rfl⟩, hlen⟩
  | asMutSlice offset n =>
    obtain ⟨hlen', ⟨-, -, -, -, hb⟩ | ⟨ins, v, rfl, hr, hv⟩⟩ := guard_serial hlen rfl (Or.inl rfl) hd
    · cases hb
    · exact ⟨⟨v, hr, hv⟩, hlen'⟩
  | tryAsMutSlice offset n =>
    have hplan : plan P total (.tryAsMutSlice offset n) = plan P total (.asMutSlice offset n) := rfl
    obtain ⟨hlen', ⟨rfl, hfit, hr, hs, -⟩ | ⟨ins, v, rfl, hr, hv⟩⟩ := guard_serial hlen hplan (Or.inr rfl) hd
    · exact ⟨⟨hfit, hr, hs⟩, hlen'⟩
    · exact ⟨⟨v, hr, hv⟩, hlen'⟩
  | len =>
    obtain ⟨rfl, rfl, rfl⟩ := hd.of_answer (show plan P total .len = _ from rfl) rfl
    exact ⟨⟨rfl, rfl⟩, hlen⟩

/-! ## No access leaves the mapping -/

/-- The byte the next access of a read section touches. -/
def touched : RLoc → In → Option Nat
  | .copy start len dst, .run => if dst.length < len then some (start + dst.length) else none
  | .view start stop _, .get i => if i < stop - start then some (start + i) else none
  | _, _ => none

/-- The byte the next access of a write section touches. -/
def touchedMut : WLoc → In → Option Nat
  | .update start data stored _, .run => if stored < data.length then some (start + stored) else none
  | .guard start stop _, .get i | .guard start stop _, .put i _ => if i < stop - start then some (start + i) else none
  | _, _ => none

omit hmax

/-- **A read section starts inside the mapping.** -/
theorem plan_read {op : Op} {l₀ : RLoc} (hp : plan P total op = .read l₀) :
    (∃ start n, l₀ = .copy start n [] ∧ start + n ≤ total) ∨ ∃ start stop, l₀ = .register start stop ∧ stop ≤ total := by
  cases op with
  | readInto offset n =>
    simp only [plan] at hp
    split at hp
    · cases hp
    · split at hp
      · cases hp
      · rename_i hrange
        obtain ⟨rfl, rfl, hfit⟩ := sliceRange_ok hrange
        cases hp
        exact Or.inl ⟨_, n, rfl, hfit⟩
  | asSlice offset n | tryAsSlice offset n =>
    simp only [plan] at hp
    split at hp
    · cases hp
    · split at hp
      · cases hp
      · rename_i start stop hrange
        cases hp
        exact Or.inr ⟨start, stop, rfl, (sliceRange_ok hrange).2.2⟩
  | updateRegion | tryUpdateRegion | asMutSlice | tryAsMutSlice =>
    simp only [plan] at hp
    repeat' split at hp
    all_goals cases hp
  | len => cases hp

/-- **A write section starts inside the mapping.** -/
theorem plan_write {op : Op} {l₀ : WLoc} (hp : plan P total op = .write l₀) :
    (∃ start data tries, l₀ = .update start data 0 tries ∧ start + data.length ≤ total) ∨
      ∃ start stop, l₀ = .guard start stop [] ∧ start ≤ stop ∧ stop ≤ total := by
  cases op with
  | updateRegion offset data | tryUpdateRegion offset data =>
    simp only [plan] at hp
    split at hp
    · cases hp
    · split at hp
      · cases hp
      · rename_i hrange
        obtain ⟨rfl, rfl, hfit⟩ := sliceRange_ok hrange
        cases hp
        exact Or.inl ⟨_, data, _, rfl, hfit⟩
  | asMutSlice offset n | tryAsMutSlice offset n =>
    simp only [plan] at hp
    split at hp
    · cases hp
    · rename_i start stop hrange
      cases hp
      obtain ⟨hle, hstop, -⟩ := mutRange_ok hrange
      exact Or.inr ⟨start, stop, rfl, hle, hstop⟩
  | readInto | asSlice | tryAsSlice =>
    simp only [plan] at hp
    repeat' split at hp
    all_goals cases hp
  | len => cases hp

/-- **A read faults exactly when the byte it touches is not mapped.** -/
theorem look_faults {l : RLoc} {i : In} {j : Nat} (ht : touched l i = some j) : look l i s = none ↔ s.map.length ≤ j := by
  cases l <;> cases i <;> simp only [touched, reduceCtorEq] at ht
  all_goals
    split at ht
    · rename_i hin
      cases ht
      rw [look, if_pos hin, Option.map_eq_none_iff, List.getElem?_eq_none_iff]
    · cases ht

/-- **A store, or a read through a guard, faults exactly when the byte it touches is not mapped.** -/
theorem edit_faults {l : WLoc} {i : In} {j : Nat} (ht : touchedMut l i = some j) : edit l i s = none ↔ s.map.length ≤ j := by
  have hstore : ∀ {k b} {f : Memory → Memory × (WLoc ⊕ Out)}, (storeByte s k b).map f = none ↔ s.map.length ≤ k := by
    intro k b f
    rw [Option.map_eq_none_iff, storeByte]
    split
    · exact iff_of_false nofun (by omega)
    · exact iff_of_true rfl (by omega)
  cases l <;> cases i <;> simp only [touchedMut, reduceCtorEq] at ht
  · split at ht
    · rename_i hlt
      cases ht
      rw [edit, List.getElem?_eq_getElem hlt]
      exact hstore
    · cases ht
  · split at ht
    · rename_i hin
      cases ht
      rw [edit, if_pos hin, Option.map_eq_none_iff, List.getElem?_eq_none_iff]
    · cases ht
  · split at ht
    · rename_i hin
      cases ht
      rw [edit, if_pos hin]
      exact hstore
    · cases ht

theorem looks_inside {op : Op} {l₀ l : RLoc} (hp : plan P total op = .read l₀) (hl : Looks (mapping P total) σ l₀ ins l)
    {i : In} {j : Nat} (ht : touched l i = some j) : j < total := by
  rcases plan_read hp with ⟨start, n, rfl, hfit⟩ | ⟨start, stop, rfl, hstop⟩
  · obtain ⟨dst, rfl, -, -⟩ := looks_copy hl
    cases i <;> simp only [touched, reduceCtorEq] at ht
    split at ht <;> cases ht
    omega
  · rcases looks_view hl with ⟨rfl, -⟩ | ⟨plain, rfl, -⟩ <;> cases i <;> simp only [touched, reduceCtorEq] at ht
    split at ht <;> cases ht
    omega

theorem edits_inside (hlen : σ.map.length = total) {op : Op} {l₀ l : WLoc} (hp : plan P total op = .write l₀)
    (he : Edits (mapping P total) σ l₀ ins l s) : s.map.length = total ∧ ∀ i j, touchedMut l i = some j → j < total := by
  rcases plan_write hp with ⟨start, data, tries, rfl, hfit⟩ | ⟨start, stop, rfl, hle, hstop⟩
  · obtain ⟨k, rfl, hk, rfl⟩ := edits_update (by omega) he
    refine ⟨by rw [length_splice (by rw [List.length_take]; omega)]; exact hlen, fun i j ht => ?_⟩
    cases i <;> simp only [touchedMut, reduceCtorEq] at ht
    split at ht <;> cases ht
    omega
  · obtain ⟨rfl, rfl⟩ := edits_guard hle (by omega) he
    have hshown : (useAll (usesOf ins) (σ.map.extract start stop)).1.length = stop - start := by
      rw [length_useAll, length_extract (by omega)]
    refine ⟨by rw [length_splice (by omega)]; exact hlen, fun i j ht => ?_⟩
    cases i <;> simp only [touchedMut, reduceCtorEq] at ht
    all_goals
      split at ht <;> cases ht
      omega

/-! ## Every run -/

variable {V : Type} [DecidableEq V]

include hmax

/-- **An anonymous mapping is linearizable.** Take any number of calls of its methods, their accesses interleaved in any order
the lock admits. Every run is linearized by the methods as they are when they run alone, each given the uses of its view or
guard that the run gave it, a `try_` method giving up only when its range is right; the mapping keeps its length; a byte that is about to be read or written is one of its bytes; and while a
call reads or a view is alive no step changes a byte. -/
theorem anonymous_linearizable (hlen : σ.map.length = total) {acts : List (Act V Op In)}
    {t : State V Memory Op RLoc WLoc In Out} (hr : Machine.run (step (mapping P total)) (init σ) acts = some t) :
    Linearized (mapping P total) (Serial P total) σ acts t ∧ t.shared.map.length = total ∧
      (∀ v op i j, (∃ l, t.pc v = .reading op l ∧ touched l i = some j) ∨
        (∃ l, t.pc v = .writing op l ∧ touchedMut l i = some j) → j < total) ∧
      ∀ v a t', (t.pc v).inRead → step (mapping P total) t a = some t' → t'.shared = t.shared := by
  obtain ⟨hlin, hbase⟩ := linearized (fun s => s.map.length = total) hlen (does_serial hmax) hr
  have hinv := inv_run hr
  refine ⟨hlin, ?_, fun v op i j hin => ?_, fun v a t' hv hs => hinv.shared_moved hv (step_moved hs)⟩
  · exact hinv.holds (fun s => s.map.length = total) hbase fun op l₀ ins l hp he => (edits_inside hbase hp he).1
  · rcases hin with ⟨l, hv, ht⟩ | ⟨l, hv, ht⟩
    · obtain ⟨l₀, ins, hp, -, hl⟩ := hinv.reading v op l hv
      exact looks_inside hp hl ht
    · obtain ⟨l₀, ins, hp, -, he⟩ := hinv.writing v op l hv
      exact (edits_inside hbase hp he).2 i j ht

omit hmax

/-- Two bytes of private memory. -/
def twoBytes : Memory := ⟨[1, 2], []⟩

/-- A view that is read, an update that gives up, and a guard that waits for the view. -/
def viewThenGuard : List (Act Nat Op In) :=
  [.call 0 (.asSlice 0 2), .enter 0, .access 0 .run, .call 1 (.tryUpdateRegion 1 [9]), .giveUp 1, .access 0 (.get 1),
    .access 0 .drop, .leave 0, .call 2 (.asMutSlice 0 2), .enter 2, .access 2 (.put 1 9), .access 2 .drop, .leave 2]

theorem anonymous_linearizable_viewThenGuard :
    ∃ t, Machine.run (step (mapping linux64 2)) (init twoBytes) viewThenGuard = some t ∧
      Linearized (mapping linux64 2) (Serial linux64 2) twoBytes viewThenGuard t ∧ t.shared.map = [1, 9] := by
  obtain ⟨t, ht⟩ := Option.isSome_iff_exists.1
    (show (Machine.run (step (mapping linux64 2)) (init twoBytes) viewThenGuard).isSome = true from rfl)
  have hmax : 2 ≤ linux64.width.maxLen := by decide
  have hlen : twoBytes.map.length = 2 := rfl
  refine ⟨t, ht, (anonymous_linearizable hmax hlen ht).1, ?_⟩
  cases ht
  rfl

end Anonymous
end MmapIo
