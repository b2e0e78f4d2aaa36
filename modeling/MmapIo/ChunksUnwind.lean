import MmapIo.ChunksMut
/-!
# ChunksUnwind — what a panicking closure leaves uncounted

`drive` counts the bytes it handed over after its loop, so a closure that unwinds through the loop leaves before
`record_write`.  `unwind_counts` says when the writes of the closure are counted: exactly when it does not panic and the
counter does not wrap.
-/
namespace MmapIo
namespace ChunksMut

open Word Bytes CopyOut Chunk

variable {E : Type}

/-- How the closure ends on the first of the ranges `walk` on which it does not end well, `past` being the chunks of its
earlier calls and `bytes` the mapped bytes. -/
def endOf (f : Closure E) (bytes : List UInt8) : List (List UInt8) → List (Nat × Nat) → Outcome E
  | _, [] => .ok
  | past, r :: walk =>
    match (f.run past r.1 (bytes.extract r.1 r.2)).2 with
    | .ok => endOf f bytes (past ++ [bytes.extract r.1 r.2]) walk
    | .err e => .err e
    | .panic => .panic

/-- The bytes of the ranges of `walk` it is handed, up to and including that first one. -/
def handOver (f : Closure E) (bytes : List UInt8) : List (List UInt8) → List (Nat × Nat) → Nat
  | _, [] => 0
  | past, r :: walk =>
    match (f.run past r.1 (bytes.extract r.1 r.2)).2 with
    | .ok => r.2 - r.1 + handOver f bytes (past ++ [bytes.extract r.1 r.2]) walk
    | .err _ | .panic => r.2 - r.1

/-- The closure panics on a chunk of the mapping before it returned an error on one. -/
def Panics (f : Closure E) (c : Nat) (hc : 0 < c) (s : Inner) : Prop :=
  endOf f s.bytes [] (chunkFrom c hc s.mapLen 0) = .panic

/-- The counter has room for the bytes the closure is handed. -/
def HasRoom (f : Closure E) (c : Nat) (hc : 0 < c) (s : Inner) : Prop :=
  s.writtenSinceLastFlush + handOver f s.bytes [] (chunkFrom c hc s.mapLen 0) < 2 ^ 64

/-- **The writes between `s` and `s'` are counted**: `pending_bytes` has grown by at least what was handed over, and when it
is 0 nothing has changed. -/
structure Counted (s s' : Inner) (calls : List (Handed E)) : Prop where
  grown : s.writtenSinceLastFlush + handedBytes calls ≤ s'.writtenSinceLastFlush
  clean : s'.writtenSinceLastFlush = 0 → s'.file = s.file

/-- The outcome an exit tells of. -/
def Exit.outcome : Exit E → Outcome E
  | .returned (.ok ()) => .ok
  | .returned (.error e) => .err e
  | .unwound => .panic

/-- How the calls after one that ended well end. -/
theorem Ends.tail {r : Nat × Nat} {walk : List (Nat × Nat)} {call : Handed E} {calls : List (Handed E)} {exit : Exit E}
    (hok : call.outcome = .ok) (h : Ends (r :: walk) (call :: calls) exit) : Ends walk calls exit := by
  -- the last call is not `call`
  have htail : ∀ {o : Outcome E}, o ≠ .ok → (∃ init last, call :: calls = init ++ [last] ∧ last.outcome = o ∧
      ∀ x ∈ init, x.outcome = .ok) → ∃ init last, calls = init ++ [last] ∧ last.outcome = o ∧
      ∀ x ∈ init, x.outcome = .ok := by
    rintro o ho ⟨init, last, heq, hlast, hinit⟩
    cases init with
    | nil =>
      obtain ⟨rfl, -⟩ := List.cons.inj heq
      exact absurd (hlast.symm.trans hok) ho
    | cons x init => exact ⟨init, last, (List.cons.inj heq).2, hlast, fun y hy => hinit y (List.mem_cons_of_mem _ hy)⟩
  cases exit with
  | returned r =>
    cases r with
    | ok u => exact ⟨(List.cons.inj h.1).2, fun x hx => h.2 x (List.mem_cons_of_mem _ hx)⟩
    | error e => exact htail nofun h
  | unwound => exact htail nofun h

/-- A first call that does not end well is the last, and decides the exit. -/
theorem Ends.only {walk : List (Nat × Nat)} {call : Handed E} {calls : List (Handed E)} {exit : Exit E}
    (hne : call.outcome ≠ .ok) (h : Ends walk (call :: calls) exit) : call.outcome = exit.outcome ∧ calls = [] := by
  have honly : ∀ {o : Outcome E}, (∃ init last, call :: calls = init ++ [last] ∧ last.outcome = o ∧
      ∀ x ∈ init, x.outcome = .ok) → call.outcome = o ∧ calls = [] := by
    rintro o ⟨init, last, heq, hlast, hinit⟩
    cases init with
    | nil =>
      obtain ⟨rfl, rfl⟩ := List.cons.inj heq
      exact ⟨hlast, rfl⟩
    | cons x init => exact absurd ((List.cons.inj heq).1 ▸ hinit x List.mem_cons_self) hne
  cases exit with
  | returned r =>
    cases r with
    | ok u => exact absurd (h.2 call List.mem_cons_self) hne
    | error e => exact honly h
  | unwound => exact honly h

/-- **The exit is the first outcome that is not `ok`**, and what was handed over is the walk up to it. -/
theorem endOf_eq {f : Closure E} {bytes : List UInt8} {calls : List (Handed E)} {exit : Exit E} :
    ∀ {past : List (List UInt8)} {walk : List (Nat × Nat)}, calls.map Handed.range <+: walk →
      (∀ pre call post, calls = pre ++ call :: post →
        f.run (past ++ pre.map Handed.before) call.offset call.before = (call.after, call.outcome)) →
      (∀ call ∈ calls, call.offset = call.range.1 ∧ call.before = bytes.extract call.range.1 call.range.2) →
      Ends walk calls exit → endOf f bytes past walk = exit.outcome ∧ handOver f bytes past walk = handedBytes calls := by
  induction calls with
  | nil =>
    intro past walk _ _ _ hends
    cases exit with
    | returned r =>
      cases r with
      | ok u =>
        obtain ⟨rfl, -⟩ := hends
        exact ⟨rfl, rfl⟩
      | error e =>
        obtain ⟨init, last, heq, -⟩ := hends
        cases init <;> cases heq
    | unwound =>
      obtain ⟨init, last, heq, -⟩ := hends
      cases init <;> cases heq
  | cons call calls ih =>
    intro past walk hranges hrun hcall hends
    obtain ⟨rest, rfl⟩ := hranges
    have hhead := hrun [] call calls rfl
    obtain ⟨hoffset, hbefore⟩ := hcall call List.mem_cons_self
    rw [List.map_nil, List.append_nil, hoffset, hbefore] at hhead
    rw [List.map_cons, List.cons_append] at hends ⊢
    rw [endOf, handOver, hhead, handedBytes_cons]
    by_cases hok : call.outcome = .ok
    · simp only [hok, ← hbefore]
      have hrest : ∀ pre x post, calls = pre ++ x :: post →
          f.run (past ++ [call.before] ++ pre.map Handed.before) x.offset x.before = (x.after, x.outcome) := by
        intro pre x post heq
        have := hrun (call :: pre) x post (by rw [heq]; rfl)
        rwa [List.map_cons, List.append_cons] at this
      obtain ⟨hend, hsum⟩ := ih (List.prefix_append _ rest) hrest (fun x hx => hcall x (List.mem_cons_of_mem _ hx))
        (hends.tail hok)
      exact ⟨hend, by rw [hsum]⟩
    · obtain ⟨hlast, rfl⟩ := hends.only hok
      rw [← hlast]
      cases hout : call.outcome with
      | ok => exact absurd hout hok
      | err e => exact ⟨rfl, rfl⟩
      | panic => exact ⟨rfl, rfl⟩

/-! ## A shared mapping -/

section

variable {w : Width} {s : Inner} {total : Nat}

/-- A call of the walk hands over a byte. -/
theorem handedBytes_pos {f : Closure E} {c : Nat} {hc : 0 < c} {inner : Inner} {calls : List (Handed E)}
    (h : Handing f [] (chunkFrom c hc total 0) s inner calls) (hne : calls ≠ []) : 0 < handedBytes calls := by
  cases calls with
  | nil => exact absurd rfl hne
  | cons call calls =>
    obtain ⟨-, hlt, -⟩ := mem_chunkFrom (h.ranges.subset List.mem_cons_self)
    rw [handedBytes_cons]
    omega

/-- A `drive` that returns has counted its calls, unless the counter wrapped. -/
theorem counted_returned {f : Closure E} {c : Nat} {hc : 0 < c} {inner : Inner} {calls : List (Handed E)}
    (hrw : s.map = .rw total) (h : Handing f [] (chunkFrom c hc total 0) s inner calls) :
    Counted s (recordWrite (handedBytes calls) inner) calls ↔ s.writtenSinceLastFlush + handedBytes calls < 2 ^ 64 := by
  have htracks : inner.tracksWrites = true := by
    rw [h.tracks]
    simp only [Inner.tracksWrites, hrw]
  have hwritten : (recordWrite (handedBytes calls) inner).writtenSinceLastFlush =
      wrappingAdd 64 s.writtenSinceLastFlush (handedBytes calls) := by
    rw [recordWrite_written, htracks, h.written]
    rfl
  constructor
  · intro hcounted
    have hgrown := hcounted.grown
    rw [hwritten] at hgrown
    exact Nat.lt_of_le_of_lt hgrown (Nat.mod_lt _ (by decide))
  · intro hroom
    rw [wrappingAdd_of_lt hroom] at hwritten
    refine ⟨Nat.le_of_eq hwritten.symm, fun hzero => ?_⟩
    -- nothing was handed over, so no byte is covered
    have hnil : calls = [] := by
      by_contra hne
      have := handedBytes_pos h hne
      omega
    subst hnil
    rw [(recordWrite_same _ inner).file]
    exact List.ext_getElem? (fun i => (h.frame i (fun call hcall => by cases hcall)).2)

/-- A `drive` that unwinds has not. -/
theorem not_counted_unwound {f : Closure E} {c : Nat} {hc : 0 < c} {inner : Inner} {calls : List (Handed E)}
    (h : Handing f [] (chunkFrom c hc total 0) s inner calls) (hends : Ends (chunkFrom c hc total 0) calls .unwound) :
    ¬ Counted s inner calls := by
  intro hcounted
  have hne : calls ≠ [] := by
    obtain ⟨init, last, rfl, -⟩ := hends
    exact List.append_ne_nil_of_right_ne_nil _ (List.cons_ne_nil _ _)
  have hpos := handedBytes_pos h hne
  have hgrown := hcounted.grown
  rw [h.written] at hgrown
  omega

/-- **`drive` counts the writes of the closure when and only when the closure does not panic and the counter has room.** -/
theorem drive_counts (f : Closure E) {c : Nat} (hc : 0 < c) (hrw : s.map = .rw total) (hfile : total ≤ s.file.length)
    (hmax : total ≤ w.maxLen) :
    ∃ exit calls s', drive w f c s = some (.ok exit, calls, s') ∧
      (Counted s s' calls ↔ ¬ Panics f c hc s ∧ HasRoom f c hc s) := by
  obtain ⟨exit, calls, inner, hh, hends, hd⟩ := drive_spec f hc (.inl ⟨hrw, hfile⟩) hmax
  refine ⟨exit, calls, _, hd, ?_⟩
  have hcalls : ∀ call ∈ calls, call.offset = call.range.1 ∧ call.before = s.bytes.extract call.range.1 call.range.2 :=
    fun call hcall => ⟨hh.offset call hcall, hh.before call hcall⟩
  obtain ⟨hend, hsum⟩ := endOf_eq hh.ranges (fun pre call post heq => hh.call pre call post heq) hcalls hends
  rw [Panics, HasRoom, Inner.mapLen_rw hrw, hend, hsum]
  cases exit with
  | returned r =>
    have hreturned : (Exit.returned r).outcome ≠ .panic := by
      rcases r with _ | _ <;> nofun
    rw [and_iff_right hreturned]
    exact counted_returned hrw hh
  | unwound => exact iff_of_false (not_counted_unwound hh hends) (fun h => h.1 rfl)

end

/-- **Writes in a panicking closure.**  For every shared mapping, chunk size above 0 and closure: the writes made in
`for_each_mut` and `for_each_mut_legacy` are counted, whichever way they are left, when and only when the closure panics on
no chunk it is handed and the counter has room for what it is handed. -/
theorem unwind_counts (P : Platform) {s : Inner} {total : Nat} (hrw : s.map = .rw total) (hfile : total ≤ s.file.length)
    (hmax : total ≤ P.width.maxLen) {c : Nat} (hc : 0 < c) :
    (∀ (E : Type) (f : Closure E), ∃ exit calls s', forEachMutLegacy P.width f c s = some (.ok exit, calls, s') ∧
      (Counted s s' calls ↔ ¬ Panics f c hc s ∧ HasRoom f c hc s)) ∧
    ∀ f : Closure MmapIoError, ∃ exit calls s', forEachMut P.width f c s = some (exit, calls, s') ∧
      (Counted s s' calls ↔ ¬ Panics f c hc s ∧ HasRoom f c hc s) := by
  refine ⟨fun E f => drive_counts f hc hrw hfile hmax, fun f => ?_⟩
  obtain ⟨exit, calls, s', hd, hiff⟩ := drive_counts f hc hrw hfile hmax
  refine ⟨exit, calls, s', ?_, hiff⟩
  rw [forEachMut, hd]
  rfl

/-- A clean shared mapping of 4 bytes. -/
def fourZeros : Inner := ⟨[0, 0, 0, 0], .rw 4, 4, .readWrite, .everyMillis 10, 0, 0, true, [], []⟩

/-- A closure that fills its chunk and ends as it is told. -/
def fill (o : Outcome Unit) : Closure Unit where
  run _ _ chunk := (List.replicate chunk.length 7, o)
  length_run _ _ _ := List.length_replicate

theorem unwind_counts_filled : ∃ exit calls s', forEachMutLegacy .w64 (fill .ok) 2 fourZeros = some (.ok exit, calls, s') ∧
    Counted fourZeros s' calls := by
  obtain ⟨exit, calls, s', hd, hiff⟩ :=
    (unwind_counts linux64 (show fourZeros.map = .rw 4 from rfl) (by decide) (by decide) (show 0 < 2 by decide)).1
      Unit (fill .ok)
  refine ⟨exit, calls, s', hd, hiff.2 ?_⟩
  rw [Panics, HasRoom, show fourZeros.mapLen = 4 from rfl, chunkFrom_of_lt (by decide), chunkFrom_of_lt (by decide),
    chunkFrom_of_ge (by decide)]
  decide

/-- The closure fills the only chunk and panics: four bytes of the file changed, and nothing is pending. -/
theorem unwind_uncounted : ∃ calls s', forEachMutLegacy .w64 (fill .panic) 4 fourZeros = some (.ok .unwound, calls, s') ∧
    handedBytes calls = 4 ∧ s'.writtenSinceLastFlush = 0 ∧ s'.file = [7, 7, 7, 7] ∧ ¬ Counted fourZeros s' calls := by
  have hd : forEachMutLegacy .w64 (fill .panic) 4 fourZeros =
      some (.ok .unwound, [⟨0, (0, 4), [0, 0, 0, 0], [7, 7, 7, 7], .panic⟩], { fourZeros with file := [7, 7, 7, 7] }) := by
    have hloop : loop .w64 (fill .panic) 4 (by decide) 4 [] 0 fourZeros = some ⟨.unwound, 0,
        [⟨0, (0, 4), [0, 0, 0, 0], [7, 7, 7, 7], .panic⟩], { fourZeros with file := [7, 7, 7, 7] }⟩ := by
      rw [loop]
      rfl
    exact congrArg (Option.map _) hloop
  refine ⟨_, _, hd, by decide, by decide, by decide, fun h => absurd (h.clean rfl) (by decide)⟩

end ChunksMut
end MmapIo
