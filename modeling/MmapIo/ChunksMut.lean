import MmapIo.Chunks
/-!
# ChunksMut — the mutable chunk driver, call by call

`ChunkIteratorMut::drive` (`iterator.rs`) with what it hands to the closure: the offset, the range, the bytes the closure
finds and leaves, and how the call ends, which may be a panic that unwinds through the loop.  `none` is an overflow or an
index outside the mapping.  `loop_spec` is the loop; `chunk_partition` compares it with the iterators of `Chunks`.
-/
namespace MmapIo
namespace ChunksMut

open Word Bytes CopyOut Chunk

variable {E : Type}

/-- How a call of the closure ends. -/
inductive Outcome (E : Type) where
  | ok
  | err (e : E)
  | panic
  deriving DecidableEq, Repr

/-- An `FnMut(u64, &mut [u8]) -> Result<(), E>` that may panic: given the chunks of its earlier calls, the offset and the
chunk, what it leaves in the chunk and how it ends. -/
structure Closure (E : Type) where
  run : List (List UInt8) → Nat → List UInt8 → List UInt8 × Outcome E
  length_run : ∀ past offset chunk, (run past offset chunk).1.length = chunk.length

def outcomeOf : Except E Unit → Outcome E
  | .ok () => .ok
  | .error e => .err e

/-- A closure that never panics. -/
def ofChunkFn (f : ChunkFn E) : Closure E where
  run past offset chunk := ((f.run past offset chunk).1, outcomeOf (f.run past offset chunk).2)
  length_run := f.length_run

/-- One call of the closure. -/
structure Handed (E : Type) where
  offset : Nat
  range : Nat × Nat
  before : List UInt8
  after : List UInt8
  outcome : Outcome E
  deriving DecidableEq, Repr

/-- How `drive` is left. -/
inductive Exit (E : Type) where
  | returned (r : Except E Unit)
  | unwound

/-- The loop when it is left: its local `offset`, the calls it made and the mapping. -/
structure Driven (E : Type) where
  exit : Exit E
  offset : Nat
  handed : List (Handed E)
  inner : Inner

/-- `let end = offset + (total - offset).min(self.chunk_size)`. -/
def chunkStop (w : Width) (c total offset : Nat) : Option Nat :=
  (checkedSub total offset).bind (fun rest => checkedAdd w.bits offset (min rest c))

theorem chunkStop_some {w : Width} {c total offset stop : Nat} (hlt : offset < total)
    (h : chunkStop w c total offset = some stop) : stop = offset + min (total - offset) c := by
  rw [chunkStop, checkedSub_of_le (Nat.le_of_lt hlt), Option.bind_some] at h
  exact (checkedAdd_eq_some.1 h).1.symm

theorem chunkStop_of_lt {w : Width} {c total offset : Nat} (hmax : total ≤ w.maxLen) (hlt : offset < total) :
    chunkStop w c total offset = some (offset + min (total - offset) c) := by
  have hbits := w.maxLen_lt
  rw [chunkStop, checkedSub_of_le (Nat.le_of_lt hlt), Option.bind_some, checkedAdd_of_lt (by omega)]

theorem chunkStop_lt {w : Width} {c total offset stop : Nat} (hc : 0 < c) (hlt : offset < total)
    (h : chunkStop w c total offset = some stop) : total - stop < total - offset := by
  have := chunkStop_some hlt h
  omega

/-- The loop of `drive`.  The local `offset` is set to `end` after the call, so an unwinding call leaves it as it was. -/
def loop (w : Width) (f : Closure E) (c : Nat) (hc : 0 < c) (total : Nat) (handed : List (Handed E)) (offset : Nat)
    (s : Inner) : Option (Driven E) :=
  if _hlt : offset < total then
    match _h : chunkStop w c total offset with
    | none => none
    | some stop =>
      match slice? s.bytes offset stop with
      | none => none
      | some chunk =>
        let r := f.run (handed.map Handed.before) offset chunk
        let call : Handed E := ⟨offset, (offset, stop), chunk, r.1, r.2⟩
        match r.2 with
        | .ok => loop w f c hc total (handed ++ [call]) stop (s.store offset r.1)
        | .err e => some ⟨.returned (.error e), stop, handed ++ [call], s.store offset r.1⟩
        | .panic => some ⟨.unwound, offset, handed ++ [call], s.store offset r.1⟩
  else some ⟨.returned (.ok ()), offset, handed, s⟩
termination_by total - offset
decreasing_by exact chunkStop_lt hc _hlt _h

/-- `drive`: how it is left, the calls, and the mapping.  An unwinding call leaves before `record_write`. -/
def drive (w : Width) (f : Closure E) (c : Nat) (s : Inner) :
    Option (Except MmapIoError (Exit E) × List (Handed E) × Inner) :=
  match writeLock s "chunks_mut requires a ReadWrite or writable CopyOnWrite mapping" with
  | .error e => some (.error e, [], s)
  | .ok () =>
    if h : c = 0 then some (.ok (.returned (.ok ())), [], s) else
    (loop w f c (Nat.pos_of_ne_zero h) s.mapLen [] 0 s).map (fun d =>
      match d.exit with
      | .returned r => (.ok (.returned r), d.handed, recordWrite d.offset d.inner)
      | .unwound => (.ok .unwound, d.handed, d.inner))

def forEachMutLegacy (w : Width) (f : Closure E) (c : Nat) (s : Inner) :
    Option (Except MmapIoError (Exit E) × List (Handed E) × Inner) := drive w f c s

/-- `for_each_mut`: `self.drive(f)?`. -/
def forEachMut (w : Width) (f : Closure MmapIoError) (c : Nat) (s : Inner) :
    Option (Exit MmapIoError × List (Handed MmapIoError) × Inner) :=
  (drive w f c s).map (fun (r, handed, s) =>
    match r with
    | .error e => (.returned (.error e), handed, s)
    | .ok exit => (exit, handed, s))

/-! ## A mapping that can be written -/

/-- A writable mapping of `total` bytes: shared and backed by the file, or private. -/
def Writable (s : Inner) (total : Nat) : Prop :=
  (s.map = .rw total ∧ total ≤ s.file.length) ∨ ∃ bytes, s.map = .cow bytes ∧ bytes.length = total

section

variable {s : Inner} {total : Nat}

theorem Writable.length_bytes (h : Writable s total) : s.bytes.length = total := by
  rcases h with ⟨hrw, hfile⟩ | ⟨bytes, hcow, hlen⟩
  · rw [Inner.bytes_rw hrw, List.length_take, Nat.min_eq_left hfile]
  · simp only [Inner.bytes, hcow, hlen]

theorem Writable.mapLen (h : Writable s total) : s.mapLen = total := by
  rcases h with ⟨hrw, -⟩ | ⟨bytes, hcow, hlen⟩
  · exact Inner.mapLen_rw hrw
  · simp only [Inner.mapLen, hcow, hlen]

theorem Writable.slice (h : Writable s total) {start stop : Nat} (hle : start ≤ stop) (hstop : stop ≤ total) :
    slice? s.bytes start stop = some (s.bytes.extract start stop) := by
  rw [slice?, if_pos ⟨hle, by rw [h.length_bytes]; exact hstop⟩]

theorem Writable.writeLock (h : Writable s total) (msg : String) : writeLock s msg = .ok () := by
  rcases h with ⟨hrw, -⟩ | ⟨bytes, hcow, -⟩
  · exact writeLock_rw hrw msg
  · simp only [MmapIo.writeLock, hcow]

/-- **What a store inside the mapping does**: its range of the mapped bytes, of a shared mapping's file with them, and no
other byte, no counter and no length. -/
structure Stored (s s' : Inner) (offset : Nat) (data : List UInt8) : Prop where
  bytes : ∀ i, s'.bytes[i]? = if offset ≤ i ∧ i < offset + data.length then data[i - offset]? else s.bytes[i]?
  file : ∀ i, ¬ (offset ≤ i ∧ i < offset + data.length) → s'.file[i]? = s.file[i]?
  written : s'.writtenSinceLastFlush = s.writtenSinceLastFlush
  tracks : s'.tracksWrites = s.tracksWrites

theorem Writable.store (h : Writable s total) {offset : Nat} {data : List UInt8} (hfit : offset + data.length ≤ total) :
    Writable (s.store offset data) total ∧ Stored s (s.store offset data) offset data := by
  rcases h with ⟨hrw, hfile⟩ | ⟨bytes, hcow, hlen⟩
  · have hle : offset + data.length ≤ s.file.length := Nat.le_trans hfit hfile
    have hrw' : (s.store offset data).map = .rw total := by rw [Inner.store_rw hrw, hrw]
    refine ⟨.inl ⟨hrw', ?_⟩, fun i => ?_, fun i hi => ?_, ?_, ?_⟩
    · rw [Inner.store_rw hrw]
      simp only [length_splice hle]
      exact hfile
    · rw [Inner.bytes_rw hrw', Inner.bytes_rw hrw, Inner.store_rw hrw, List.getElem?_take, List.getElem?_take,
        getElem?_splice hle]
      by_cases hi : offset ≤ i ∧ i < offset + data.length
      · rw [if_pos (by omega), if_pos hi, if_pos hi]
      · rw [if_neg hi, if_neg hi]
    · rw [Inner.store_rw hrw]
      simp only [getElem?_splice hle, if_neg hi]
    · rw [Inner.store_rw hrw]
    · simp only [Inner.tracksWrites, hrw', hrw]
  · have hcow' : (s.store offset data).map = .cow (splice bytes offset data) := by simp only [Inner.store, hcow]
    have hle : offset + data.length ≤ bytes.length := hlen ▸ hfit
    refine ⟨.inr ⟨_, hcow', by rw [length_splice hle, hlen]⟩, fun i => ?_, fun i _ => ?_, ?_, ?_⟩
    · simp only [Inner.bytes, hcow', hcow]
      exact getElem?_splice hle i
    · simp only [Inner.store, hcow]
    · simp only [Inner.store, hcow]
    · simp only [Inner.tracksWrites, hcow', hcow]

end

/-! ## The loop -/

/-- `call` covers the byte `i`. -/
def Handed.Covers (call : Handed E) (i : Nat) : Prop := call.range.1 ≤ i ∧ i < call.range.2

/-- The number of bytes handed to the closure. -/
def handedBytes (calls : List (Handed E)) : Nat := (calls.map (fun call => call.range.2 - call.range.1)).sum

/-- **How the calls end**: a return of `Ok` after all of them ended well, with the whole walk handed over; a return of an
error or an unwinding right after the first call that ended so. -/
def Ends (walk : List (Nat × Nat)) (calls : List (Handed E)) : Exit E → Prop
  | .returned (.ok ()) => calls.map Handed.range = walk ∧ ∀ call ∈ calls, call.outcome = .ok
  | .returned (.error e) => ∃ init last, calls = init ++ [last] ∧ last.outcome = .err e ∧ ∀ call ∈ init, call.outcome = .ok
  | .unwound => ∃ init last, calls = init ++ [last] ∧ last.outcome = .panic ∧ ∀ call ∈ init, call.outcome = .ok

/-- **What the calls `calls` of a loop over `walk` did to the mapping `s`**, `past` being the chunks of earlier calls. -/
structure Handing (f : Closure E) (past : List (List UInt8)) (walk : List (Nat × Nat)) (s s' : Inner)
    (calls : List (Handed E)) : Prop where
  ranges : calls.map Handed.range <+: walk
  call : ∀ pre call post, calls = pre ++ call :: post →
    f.run (past ++ pre.map Handed.before) call.offset call.before = (call.after, call.outcome)
  offset : ∀ call ∈ calls, call.offset = call.range.1
  before : ∀ call ∈ calls, call.before = s.bytes.extract call.range.1 call.range.2
  after : ∀ call ∈ calls, s'.bytes.extract call.range.1 call.range.2 = call.after
  frame : ∀ i, (∀ call ∈ calls, ¬ call.Covers i) → s'.bytes[i]? = s.bytes[i]? ∧ s'.file[i]? = s.file[i]?
  written : s'.writtenSinceLastFlush = s.writtenSinceLastFlush
  tracks : s'.tracksWrites = s.tracksWrites

theorem extract_congr {α : Type} {l l' : List α} {start stop : Nat} (h : ∀ i, start ≤ i → i < stop → l[i]? = l'[i]?) :
    l.extract start stop = l'.extract start stop := by
  rw [List.extract_eq_take_drop, List.extract_eq_take_drop]
  apply List.ext_getElem?
  intro i
  rw [List.getElem?_take, List.getElem?_take, List.getElem?_drop, List.getElem?_drop]
  by_cases hi : i < stop - start
  · rw [if_pos hi, if_pos hi]
    exact h (start + i) (by omega) (by omega)
  · rw [if_neg hi, if_neg hi]

theorem handing_nil (f : Closure E) (past : List (List UInt8)) (walk : List (Nat × Nat)) (s : Inner) :
    Handing f past walk s s [] where
  ranges := List.nil_prefix
  call pre call post h := by cases pre <;> cases h
  offset call h := by cases h
  before call h := by cases h
  after call h := by cases h
  frame i _ := ⟨rfl, rfl⟩
  written := rfl
  tracks := rfl

/-- The range of a store reads back what was stored. -/
theorem Stored.extract {s s' : Inner} {offset stop : Nat} {data : List UInt8} (h : Stored s s' offset data)
    (hlen : offset + data.length = stop) : s'.bytes.extract offset stop = data := by
  rw [List.extract_eq_take_drop]
  apply List.ext_getElem?
  intro i
  rw [List.getElem?_take, List.getElem?_drop, h.bytes]
  by_cases hi : i < stop - offset
  · rw [if_pos hi, if_pos (by omega), Nat.add_sub_cancel_left]
  · rw [if_neg hi, List.getElem?_eq_none (by omega)]

/-- **A call, and then the calls of the rest of the walk**, which lies behind it. -/
theorem handing_cons {f : Closure E} {past : List (List UInt8)} {walk : List (Nat × Nat)} {s s₁ s' : Inner}
    {offset stop : Nat} {call : Handed E} {calls : List (Handed E)} (hrange : call.range = (offset, stop))
    (hoffset : call.offset = offset) (hbefore : call.before = s.bytes.extract offset stop)
    (hrun : f.run past call.offset call.before = (call.after, call.outcome))
    (hstored : Stored s s₁ offset call.after) (hstop : offset + call.after.length = stop)
    (hwalk : ∀ r ∈ walk, stop ≤ r.1) (h : Handing f (past ++ [call.before]) walk s₁ s' calls) :
    Handing f past ((offset, stop) :: walk) s s' (call :: calls) := by
  have hbehind : ∀ c ∈ calls, stop ≤ c.range.1 := fun c hc =>
    hwalk _ (h.ranges.subset (List.mem_map_of_mem hc))
  have hout : ∀ i, stop ≤ i → s₁.bytes[i]? = s.bytes[i]? := fun i hi => by
    rw [hstored.bytes, if_neg (by omega)]
  refine ⟨?_, ?_, ?_, ?_, ?_, ?_, h.written.trans hstored.written, h.tracks.trans hstored.tracks⟩
  · rw [List.map_cons, hrange]
    exact List.cons_prefix_cons.2 ⟨rfl, h.ranges⟩
  · rintro pre c post heq
    cases pre with
    | nil =>
      obtain ⟨rfl, -⟩ := List.cons.inj heq
      rw [List.map_nil, List.append_nil]
      exact hrun
    | cons p pre =>
      obtain ⟨rfl, hrest⟩ := List.cons.inj heq
      rw [List.map_cons, List.append_cons]
      exact h.call pre c post hrest
  · intro c hc
    rcases List.mem_cons.1 hc with rfl | hc
    · rw [hoffset, hrange]
    · exact h.offset c hc
  · intro c hc
    rcases List.mem_cons.1 hc with rfl | hc
    · rw [hbefore, hrange]
    · rw [h.before c hc]
      exact extract_congr (fun i hi _ => hout i (Nat.le_trans (hbehind c hc) hi))
  · intro c hc
    rcases List.mem_cons.1 hc with rfl | hc
    · -- the later calls lie behind it
      rw [hrange, ← hstored.extract hstop]
      refine extract_congr (fun i _ hi => (h.frame i (fun c' hc' hcov => ?_)).1)
      have := hbehind c' hc'
      have := hcov.1
      simp only at hi
      omega
    · exact h.after c hc
  · intro i hi
    have hself := hi call List.mem_cons_self
    simp only [Handed.Covers, hrange] at hself
    obtain ⟨hbytes, hfile⟩ := h.frame i (fun c hc => hi c (List.mem_cons_of_mem _ hc))
    rw [hbytes, hfile, hstored.bytes, hstored.file i (by omega), if_neg (by omega)]
    exact ⟨rfl, rfl⟩

/-- A call that ended well before them changes nothing about how the calls end. -/
theorem Ends.cons {walk : List (Nat × Nat)} {calls : List (Handed E)} {exit : Exit E} {call : Handed E}
    (hok : call.outcome = .ok) (h : Ends walk calls exit) : Ends (call.range :: walk) (call :: calls) exit := by
  have hcons : ∀ {init : List (Handed E)}, (∀ x ∈ init, x.outcome = .ok) → ∀ x ∈ call :: init, x.outcome = .ok := by
    intro init hinit x hx
    rcases List.mem_cons.1 hx with rfl | hx
    · exact hok
    · exact hinit x hx
  cases exit with
  | returned r =>
    cases r with
    | ok u => exact ⟨by rw [List.map_cons, h.1], hcons h.2⟩
    | error e =>
      obtain ⟨init, last, rfl, hlast, hinit⟩ := h
      exact ⟨call :: init, last, rfl, hlast, hcons hinit⟩
  | unwound =>
    obtain ⟨init, last, rfl, hlast, hinit⟩ := h
    exact ⟨call :: init, last, rfl, hlast, hcons hinit⟩

theorem handedBytes_cons (call : Handed E) (calls : List (Handed E)) :
    handedBytes (call :: calls) = call.range.2 - call.range.1 + handedBytes calls := rfl

/-- **The loop**, from any offset of the mapping: it returns, makes the calls of a prefix of the walk, and its `offset` has
counted them when it returns. -/
theorem loop_spec {w : Width} (f : Closure E) {c : Nat} (hc : 0 < c) {total : Nat} (hmax : total ≤ w.maxLen)
    (handed : List (Handed E)) (offset : Nat) (s : Inner) (hoff : offset ≤ total) (hs : Writable s total) :
    ∃ d calls, loop w f c hc total handed offset s = some d ∧ d.handed = handed ++ calls ∧
      Handing f (handed.map Handed.before) (chunkFrom c hc total offset) s d.inner calls ∧
      Ends (chunkFrom c hc total offset) calls d.exit ∧
      ∀ r, d.exit = .returned r → d.offset = offset + handedBytes calls := by
  have hbits := w.maxLen_lt
  induction hn : total - offset using Nat.strong_induction_on generalizing handed offset s with
  | _ n ih =>
  by_cases hlt : offset < total
  · -- the chunk at `offset`, and what the closure leaves in it
    obtain ⟨stop, hstop⟩ : ∃ stop, stop = offset + min (total - offset) c := ⟨_, rfl⟩
    have hchunkStop : chunkStop w c total offset = some stop := hstop ▸ chunkStop_of_lt hmax hlt
    have hslice : slice? s.bytes offset stop = some (s.bytes.extract offset stop) := hs.slice (by omega) (by omega)
    have hclen : (s.bytes.extract offset stop).length = stop - offset := by
      rw [List.extract_eq_take_drop, List.length_take, List.length_drop, hs.length_bytes]
      omega
    have hlen := f.length_run (handed.map Handed.before) offset (s.bytes.extract offset stop)
    rw [loop, dif_pos hlt]
    split
    · rename_i h
      rw [hchunkStop] at h
      cases h
    rename_i stop' h
    rw [hchunkStop] at h
    cases h
    simp only [hslice]
    rw [chunkFrom_of_lt hlt, ← hstop]
    generalize hr : f.run (handed.map Handed.before) offset (s.bytes.extract offset stop) = r at hlen ⊢
    obtain ⟨hs₁, hstored⟩ := hs.store (show offset + r.1.length ≤ total by omega)
    have hcons : ∀ {s' : Inner} {calls : List (Handed E)},
        Handing f (handed.map Handed.before ++ [s.bytes.extract offset stop]) (chunkFrom c hc total stop)
          (s.store offset r.1) s' calls →
        Handing f (handed.map Handed.before) ((offset, stop) :: chunkFrom c hc total stop) s s'
          (⟨offset, (offset, stop), s.bytes.extract offset stop, r.1, r.2⟩ :: calls) :=
      fun h => handing_cons rfl rfl rfl hr hstored (show offset + r.1.length = stop by omega)
        (fun x hx => (mem_chunkFrom hx).1) h
    have hone := hcons (handing_nil f _ _ _)
    cases hout : r.2 with
    | ok =>
      rw [hout] at hcons
      obtain ⟨d, calls, hd, hhanded, hh, hends, hoffset⟩ := ih (total - stop) (by omega)
        (handed ++ [⟨offset, (offset, stop), s.bytes.extract offset stop, r.1, .ok⟩]) stop (s.store offset r.1) (by omega)
        hs₁ rfl
      refine ⟨d, _ :: calls, hd, by rw [hhanded, List.append_assoc]; rfl, hcons ?_, ?_, ?_⟩
      · rw [List.map_append] at hh
        exact hh
      · exact Ends.cons rfl hends
      · intro res hres
        rw [hoffset res hres, handedBytes_cons]
        simp only
        omega
    | err e =>
      rw [hout] at hone
      refine ⟨_, [_], rfl, rfl, hone, ⟨[], _, rfl, rfl, fun call h => by cases h⟩, fun res _ => ?_⟩
      simp only [handedBytes, List.map_cons, List.map_nil, List.sum_cons, List.sum_nil]
      omega
    | panic =>
      rw [hout] at hone
      exact ⟨_, [_], rfl, rfl, hone, ⟨[], _, rfl, rfl, fun call h => by cases h⟩, fun res hres => by cases hres⟩
  · rw [loop, dif_neg hlt, chunkFrom_of_ge (Nat.not_lt.1 hlt)]
    refine ⟨_, [], rfl, (List.append_nil _).symm, handing_nil f _ _ s, ⟨rfl, fun call h => by cases h⟩, fun _ _ => rfl⟩

/-- The mapping `drive` leaves: it counts the bytes handed over when it returns. -/
def leave (calls : List (Handed E)) (inner : Inner) : Exit E → Inner
  | .returned _ => recordWrite (handedBytes calls) inner
  | .unwound => inner

/-- **`drive` on a writable mapping**: it makes the calls of a prefix of the walk; when it returns it has counted them. -/
theorem drive_spec {w : Width} (f : Closure E) {c : Nat} (hc : 0 < c) {s : Inner} {total : Nat} (hs : Writable s total)
    (hmax : total ≤ w.maxLen) :
    ∃ exit calls inner, Handing f [] (chunkFrom c hc total 0) s inner calls ∧ Ends (chunkFrom c hc total 0) calls exit ∧
      drive w f c s = some (.ok exit, calls, leave calls inner exit) := by
  obtain ⟨d, calls, hd, hhanded, hh, hends, hoffset⟩ := loop_spec f hc hmax [] 0 s (Nat.zero_le _) hs
  refine ⟨d.exit, calls, d.inner, hh, hends, ?_⟩
  rw [List.nil_append] at hhanded
  rw [drive, hs.writeLock, hs.mapLen]
  simp only [dif_neg (Nat.pos_iff_ne_zero.1 hc), hd, Option.map_some]
  cases hexit : d.exit with
  | returned r => simp only [hhanded, hoffset r hexit, Nat.zero_add, leave]
  | unwound => simp only [hhanded, leave]

theorem recordWrite_written (n : Nat) (s : Inner) : (recordWrite n s).writtenSinceLastFlush =
    if s.tracksWrites then wrappingAdd 64 s.writtenSinceLastFlush n else s.writtenSinceLastFlush := by
  unfold recordWrite
  split <;> rfl

/-- **What `for_each_mut` does along the walk of the iterators**, when it returns `result`: the closure is called on the
ranges in order with their starts, up to and including the first call that fails, whose error is the result; no byte outside
them changes, and the bytes handed over are added to the count of a mapping that is flushed. -/
structure DrivesAlong (f : Closure E) (walk : List (Nat × Nat)) (s s' : Inner) (calls : List (Handed E))
    (result : Except E Unit) : Prop where
  ranges : calls.map Handed.range <+: walk
  offsets : ∀ call ∈ calls, call.offset = call.range.1 ∧ call.before = s.bytes.extract call.range.1 call.range.2
  runs : ∀ pre call post, calls = pre ++ call :: post →
    f.run (pre.map Handed.before) call.offset call.before = (call.after, call.outcome)
  ends : Ends walk calls (.returned result)
  frame : ∀ i, (∀ call ∈ calls, ¬ call.Covers i) → s'.bytes[i]? = s.bytes[i]? ∧ s'.file[i]? = s.file[i]?
  left : ∀ call ∈ calls, s'.bytes.extract call.range.1 call.range.2 = call.after
  counted : s'.writtenSinceLastFlush =
    if s.tracksWrites then wrappingAdd 64 s.writtenSinceLastFlush (handedBytes calls) else s.writtenSinceLastFlush

/-- **The loop of `Iterator` is this one** on a closure that does not panic. -/
theorem loop_ofChunkFn {w : Width} (f : ChunkFn E) {c : Nat} (hc : 0 < c) {total : Nat} (hmax : total ≤ w.maxLen)
    (handed : List (Handed E)) (offset : Nat) (s : Inner) (hs : Writable s total) :
    ∃ d, loop w (ofChunkFn f) c hc total handed offset s = some d ∧
      d.exit = .returned (driveLoop f c hc total (handed.map Handed.before) offset s).1 ∧
      (d.offset, d.inner) = (driveLoop f c hc total (handed.map Handed.before) offset s).2 := by
  induction hn : total - offset using Nat.strong_induction_on generalizing handed offset s with
  | _ n ih =>
  rw [driveLoop]
  by_cases hlt : offset < total
  · obtain ⟨stop, hstop⟩ : ∃ stop, stop = offset + min (total - offset) c := ⟨_, rfl⟩
    have hchunkStop : chunkStop w c total offset = some stop := hstop ▸ chunkStop_of_lt hmax hlt
    have hlen := f.length_run (handed.map Handed.before) offset (s.bytes.extract offset stop)
    rw [List.extract_eq_take_drop, List.length_take, List.length_drop, hs.length_bytes, ← List.extract_eq_take_drop] at hlen
    rw [if_pos hlt, loop, dif_pos hlt, ← hstop]
    split
    · rename_i h
      rw [hchunkStop] at h
      cases h
    rename_i stop' h
    rw [hchunkStop] at h
    cases h
    simp only [hs.slice (show offset ≤ stop by omega) (show stop ≤ total by omega), ofChunkFn]
    generalize f.run (handed.map Handed.before) offset (s.bytes.extract offset stop) = r at hlen ⊢
    obtain ⟨hs₁, -⟩ := hs.store (show offset + r.1.length ≤ total by omega)
    obtain ⟨after, result⟩ := r
    cases result with
    | error e => exact ⟨_, rfl, rfl, rfl⟩
    | ok u =>
      have hrest := ih (total - stop) (by omega) (handed ++ [⟨offset, (offset, stop), s.bytes.extract offset stop, after, .ok⟩])
        stop (s.store offset after) hs₁ rfl
      rw [List.map_append] at hrest
      exact hrest
  · rw [if_neg hlt, loop, dif_neg hlt]
    exact ⟨_, rfl, rfl, rfl⟩

/-- **`drive` of `Iterator` is this one** on a closure that does not panic. -/
theorem drive_ofChunkFn {w : Width} (f : ChunkFn E) (c : Nat) {s : Inner} {total : Nat} (hs : Writable s total)
    (hmax : total ≤ w.maxLen) :
    ∃ calls, drive w (ofChunkFn f) c s =
      some ((MmapIo.drive f c s).1.map Exit.returned, calls, (MmapIo.drive f c s).2) := by
  rw [drive, MmapIo.drive, hs.writeLock]
  by_cases hc : c = 0
  · simp only [dif_pos hc]
    exact ⟨[], rfl⟩
  · simp only [dif_neg hc]
    obtain ⟨d, hd, hexit, hrest⟩ := loop_ofChunkFn f (Nat.pos_of_ne_zero hc) (hs.mapLen.symm ▸ hmax) [] 0 s
      (hs.mapLen.symm ▸ hs)
    rw [List.map_nil] at hexit hrest
    generalize driveLoop f c (Nat.pos_of_ne_zero hc) s.mapLen [] 0 s = r at hexit hrest ⊢
    obtain ⟨result, offset, inner⟩ := r
    obtain ⟨rfl, rfl⟩ := Prod.mk.inj hrest
    rw [hd, Option.map_some, hexit]
    exact ⟨d.handed, rfl⟩

theorem outcomeOf_ne_panic (r : Except E Unit) : outcomeOf r ≠ .panic := by
  cases r <;> nofun

/-- **A closure that does not panic** is driven along the walk to a result. -/
theorem drive_returns {w : Width} (f : ChunkFn E) {c : Nat} (hc : 0 < c) {s : Inner} {total : Nat} (hs : Writable s total)
    (hmax : total ≤ w.maxLen) :
    ∃ result calls s', drive w (ofChunkFn f) c s = some (.ok (.returned result), calls, s') ∧
      DrivesAlong (ofChunkFn f) (chunkFrom c hc total 0) s s' calls result := by
  obtain ⟨exit, calls, inner, hh, hends, hd⟩ := drive_spec (ofChunkFn f) hc hs hmax
  cases exit with
  | returned result =>
    have hsame := recordWrite_same (handedBytes calls) inner
    refine ⟨result, calls, recordWrite (handedBytes calls) inner, hd, hh.ranges,
      fun call hcall => ⟨hh.offset call hcall, hh.before call hcall⟩, hh.call, hends, fun i hi => ?_,
      fun call hcall => ?_, ?_⟩
    · rw [hsame.bytes, hsame.file]
      exact hh.frame i hi
    · rw [hsame.bytes]
      exact hh.after call hcall
    · rw [recordWrite_written, hh.tracks, hh.written]
  | unwound =>
    obtain ⟨init, last, hcalls, hlast, -⟩ := hends
    have hrun := congrArg Prod.snd (hh.call init last [] hcalls)
    rw [hlast] at hrun
    exact absurd hrun (outcomeOf_ne_panic _)

/-- **With a chunk size of 0** the closure is not called, and nothing changes. -/
theorem drive_zero {w : Width} (f : Closure E) {s : Inner} {total : Nat} (hs : Writable s total) :
    drive w f 0 s = some (.ok (.returned (.ok ())), [], s) := by
  rw [drive, hs.writeLock]
  rfl

/-- **The chunks of a mapping.**  For every mapping, every set of live atomic views and every chunk size: `chunks`,
`chunks_owned` and the page iterators yield ranges that partition the mapping, with its bytes and as many as `size_hint`
announces, and nothing for a chunk size of 0; `for_each_mut` and `for_each_mut_legacy` hand the closure the same ranges up
to the first that fails, and for a chunk size of 0 return without a call. -/
theorem chunk_partition (P : Platform) {sort : List AtomicEntry → List AtomicEntry} (hsort : Chunks.Sorts sort) {s : Inner}
    (hbacked : s.bytes.length = s.mapLen) (hmax : s.mapLen ≤ P.width.maxLen) (hok : EntriesOk s.mapLen s.atomics) :
    (∀ c, 0 < c → c < 2 ^ P.width.bits → ∃ items, Chunks.Partitions P.width sort s c (Chunks.chunks s c) items ∧
      (Writable s s.mapLen →
        (∀ (E : Type) (f : ChunkFn E), ∃ result calls s',
          forEachMutLegacy P.width (ofChunkFn f) c s = some (.ok (.returned result), calls, s') ∧
          DrivesAlong (ofChunkFn f) (items.map Chunks.Item.range) s s' calls result) ∧
        ∀ f : ChunkFn MmapIoError, ∃ result calls s',
          forEachMut P.width (ofChunkFn f) c s = some (.returned result, calls, s') ∧
          DrivesAlong (ofChunkFn f) (items.map Chunks.Item.range) s s' calls result)) ∧
    (∃ items, Chunks.Partitions P.width sort s P.page (Chunks.pages P s) items) ∧
    (Yields (Chunks.next P.width sort s) Chunks.sizeHint (Chunks.chunks s 0) [] ∧
      Yields (Chunks.nextOwned P.width sort s) Chunks.sizeHint (Chunks.chunks s 0) []) ∧
    (Writable s s.mapLen →
      (∀ (E : Type) (f : Closure E), forEachMutLegacy P.width f 0 s = some (.ok (.returned (.ok ())), [], s)) ∧
      ∀ f : Closure MmapIoError, forEachMut P.width f 0 s = some (.returned (.ok ()), [], s)) := by
  refine ⟨fun c hc _ => ?_, ?_, ⟨Chunks.chunks_zero, Chunks.chunks_zero.map Chunks.Item.bytes⟩,
    fun hs => ⟨fun E f => drive_zero f hs, fun f => ?_⟩⟩
  · obtain ⟨items, hitems, hranges⟩ := Chunks.chunks_partitions (w := P.width) hsort hbacked hmax hok hc
    refine ⟨items, hitems, fun hs => ⟨fun E f => ?_, fun f => ?_⟩⟩
    · rw [hranges]
      exact drive_returns f hc hs hmax
    · obtain ⟨result, calls, s', hd, halong⟩ := drive_returns f hc hs hmax
      refine ⟨result, calls, s', ?_, by rw [hranges]; exact halong⟩
      rw [forEachMut, hd]
      rfl
  · obtain ⟨items, hitems, -⟩ := Chunks.chunks_partitions (w := P.width) hsort hbacked hmax hok
      (Nat.pos_of_isPowerOfTwo P.page_pow)
    exact ⟨items, hitems⟩
  · rw [forEachMut, drive_zero f hs]
    rfl

/-- A shared mapping of 10 bytes with a live 4-byte atomic view. -/
def tenBytes : Inner :=
  ⟨[0, 1, 2, 3, 4, 5, 6, 7, 8, 9], .rw 10, 10, .readWrite, .never, 0, 0, false, [⟨⟨4, 8⟩, 4, 0⟩], []⟩

theorem tenBytes_ok : EntriesOk tenBytes.mapLen tenBytes.atomics where
  size := by decide
  start := by decide
  stop := by decide
  inside := by decide
  apart e he e' he' x _ _ := by
    rw [List.mem_singleton.1 he, List.mem_singleton.1 he']

theorem chunk_partition_ten : ∃ items, Chunks.Partitions .w64 Chunks.byStart tenBytes 4 (Chunks.chunks tenBytes 4) items ∧
    ∀ f : ChunkFn Unit, ∃ result calls s',
      forEachMutLegacy .w64 (ofChunkFn f) 4 tenBytes = some (.ok (.returned result), calls, s') ∧
      DrivesAlong (ofChunkFn f) (items.map Chunks.Item.range) tenBytes s' calls result := by
  obtain ⟨items, hitems, hdrive⟩ :=
    (chunk_partition linux64 Chunks.byStart_sorts rfl (by decide) tenBytes_ok).1 4 (by decide) (by decide)
  exact ⟨items, hitems, (hdrive (.inl ⟨rfl, by decide⟩)).1 Unit⟩

end ChunksMut
end MmapIo
