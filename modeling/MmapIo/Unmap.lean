import MmapIo.Lib.Machine
import MmapIo.Mmap
/-!
# Unmap — the sole owner against its background flusher

`MemoryMappedFile::unmap` (`mmap.rs`) of a mapping with one handle and an `EveryMillis` flusher.  The mapping is an `Arc`
with a strong count: the handle is one reference, and the flusher's callback turns its `Weak` into another one from its
`upgrade` to the end of the flush.  `Arc::try_unwrap` takes the mapping out exactly when the count is one; `unmap` then
drops the flusher, which stops and joins the worker, and gives the file back.
-/
namespace MmapIo
namespace Unmap

open Machine

/-- Where the flusher's thread is; a callback goes through the middle three. -/
inductive Worker where
  | sleeping
  | upgraded
  | flushing
  /-- at the drop of the temporary handle -/
  | releasing
  | exited
  deriving DecidableEq, Repr

/-- Where the handle is. -/
inductive Handle where
  | held
  /-- `unmap` returned `Err(self)` -/
  | refused
  /-- `try_unwrap` took the mapping out; the flusher is still to be dropped -/
  | unwrapped (file : List UInt8)
  | joining (file : List UInt8)
  /-- `unmap` returned `Ok(file)` -/
  | returned (file : List UInt8)
  deriving DecidableEq, Repr

structure State where
  /-- the mapping in its allocation, while a strong reference is left -/
  inner : Option Inner
  strong : Nat
  worker : Worker
  stop : Bool
  handle : Handle
  deriving DecidableEq, Repr

def State.init (s : Inner) : State := ⟨some s, 1, .sleeping, false, .held⟩

/-- `Drop` of one strong reference: the last one drops the mapping. -/
def State.release (s : State) : State :=
  { s with strong := s.strong - 1, inner := if s.strong ≤ 1 then none else s.inner }

/-- The next step of the flusher's thread: woken by its time-out it runs the callback of `start_time_based_flusher`, woken by
the shutdown it exits. -/
def workerStep (P : Platform) (os : Os) (s : State) : Option State :=
  match s.worker with
  | .sleeping =>
    if s.stop then some { s with worker := .exited }
    -- `Weak::upgrade`; `None` ends the callback
    else if s.strong = 0 then some s
    else some { s with worker := .upgraded, strong := s.strong + 1 }
  | .upgraded =>
    s.inner.map (fun inner => { s with worker := if inner.writtenSinceLastFlush = 0 then .releasing else .flushing })
  | .flushing => s.inner.map (fun inner => { s with worker := .releasing, inner := some (flush P os inner).2 })
  | .releasing => some { s.release with worker := .sleeping }
  | .exited => none

inductive Action where
  | updateRegion (offset : Nat) (data : List UInt8) (os : Os)
  /-- the call of `unmap`, up to the outcome of `try_unwrap` -/
  | unmap
  /-- the next step of an `unmap` that took the mapping out -/
  | finish
  | worker (os : Os)

def step (P : Platform) (s : State) : Action → Option State
  | .updateRegion offset data os =>
    if s.handle = .held then s.inner.map (fun inner => { s with inner := some (updateRegion P os offset data inner).2 })
    else none
  | .unmap =>
    if s.handle = .held then
      s.inner.map (fun inner =>
        if s.strong = 1 then { s with inner := none, strong := 0, handle := .unwrapped inner.file }
        else { s with handle := .refused })
    else none
  | .finish =>
    match s.handle with
    | .unwrapped file => some { s with stop := true, handle := .joining file }
    | .joining file => if s.worker = .exited then some { s with handle := .returned file } else none
    | _ => none
  | .worker os => workerStep P os s

/-- The callback holds its temporary handle. -/
def Worker.holding : Worker → Bool
  | .upgraded | .flushing | .releasing => true
  | _ => false

/-- The user still has the handle. -/
def Handle.alive : Handle → Bool
  | .held | .refused => true
  | _ => false

/-- **Who holds the mapping**: the count is the handle and the callback's temporary one. -/
structure Inv (s : State) : Prop where
  strong : s.strong = s.handle.alive.toNat + s.worker.holding.toNat
  inner : s.inner.isSome = decide (0 < s.strong)
  gone : s.handle.alive = false → s.worker.holding = false
  exited : s.worker = .exited → s.stop = true
  stop : s.handle.alive = true → s.stop = false
  joining : ∀ file, s.handle = .joining file → s.stop = true

theorem inv_init (s : Inner) : Inv (State.init s) := by
  constructor <;> simp [State.init, Handle.alive, Worker.holding]

variable {P : Platform}

theorem workerStep_inv {s s' : State} {os : Os} (h : Inv s) (hs : workerStep P os s = some s') :
    Inv s' ∧ s'.handle = s.handle ∧ s'.stop = s.stop := by
  obtain ⟨inner, strong, worker, stop, handle⟩ := s
  obtain ⟨h1, h2, h3, h4, h5, h6⟩ := h
  cases worker <;> simp only [workerStep, Option.map_eq_some_iff] at hs
  case sleeping =>
    split at hs
    · cases hs
      refine ⟨⟨?_, ?_, ?_, ?_, ?_, ?_⟩, rfl, rfl⟩ <;> simp_all [Worker.holding]
    · split at hs
      · cases hs
        exact ⟨⟨h1, h2, h3, h4, h5, h6⟩, rfl, rfl⟩
      · cases hs
        refine ⟨⟨?_, ?_, ?_, ?_, ?_, ?_⟩, rfl, rfl⟩ <;> simp_all [Worker.holding]
  case upgraded =>
    obtain ⟨i, rfl, rfl⟩ := hs
    by_cases hz : i.writtenSinceLastFlush = 0
    · refine ⟨⟨?_, ?_, ?_, ?_, ?_, ?_⟩, rfl, rfl⟩ <;> simp_all [Worker.holding]
    · refine ⟨⟨?_, ?_, ?_, ?_, ?_, ?_⟩, rfl, rfl⟩ <;> simp_all [Worker.holding]
  case flushing =>
    obtain ⟨i, rfl, rfl⟩ := hs
    refine ⟨⟨?_, ?_, ?_, ?_, ?_, ?_⟩, rfl, rfl⟩ <;> simp_all [Worker.holding]
  case releasing =>
    cases hs
    refine ⟨⟨?_, ?_, ?_, ?_, ?_, ?_⟩, rfl, rfl⟩ <;> simp_all [Worker.holding, State.release]
  case exited => cases hs

/-- **`try_unwrap` decides by the callback alone**: while the user's handle is the only one of his, `unmap` is refused exactly
when the callback holds its temporary handle. -/
theorem unmap_spec {s : State} (h : Inv s) (hheld : s.handle = .held) : ∃ inner, s.inner = some inner ∧
    step P s .unmap = some (if s.worker.holding then { s with handle := .refused }
      else { s with inner := none, strong := 0, handle := .unwrapped inner.file }) := by
  have hstrong := h.strong
  rw [hheld] at hstrong
  have hpos : 0 < s.strong := by
    rw [hstrong]
    show 0 < 1 + _
    omega
  have hsome := h.inner
  rw [decide_eq_true hpos] at hsome
  obtain ⟨inner, hinner⟩ := Option.isSome_iff_exists.1 hsome
  refine ⟨inner, hinner, ?_⟩
  rw [step, if_pos hheld, hinner, Option.map_some, hstrong]
  cases s.worker.holding <;> rfl

theorem step_inv {s s' : State} {a : Action} (h : Inv s) (hs : step P s a = some s') : Inv s' := by
  cases a with
  | worker os => exact (workerStep_inv h hs).1
  | updateRegion offset data os =>
    simp only [step] at hs
    split at hs
    · obtain ⟨i, hi, rfl⟩ := Option.map_eq_some_iff.1 hs
      have hsome := h.inner
      rw [hi] at hsome
      exact ⟨h.strong, hsome, h.gone, h.exited, h.stop, h.joining⟩
    · cases hs
  | unmap =>
    by_cases hheld : s.handle = .held
    · obtain ⟨inner, -, hstep⟩ := unmap_spec (P := P) h hheld
      obtain ⟨h1, h2, h3, h4, h5, h6⟩ := h
      rw [hstep, Option.some.injEq] at hs
      subst hs
      cases hw : s.worker.holding
      · refine ⟨?_, ?_, ?_, ?_, ?_, ?_⟩ <;> simp_all [Handle.alive]
      · refine ⟨?_, ?_, ?_, ?_, ?_, ?_⟩ <;> simp_all [Handle.alive]
    · rw [step, if_neg hheld] at hs
      cases hs
  | finish =>
    obtain ⟨h1, h2, h3, h4, h5, h6⟩ := h
    simp only [step] at hs
    split at hs
    · cases hs
      refine ⟨?_, ?_, ?_, ?_, ?_, ?_⟩ <;> simp_all [Handle.alive]
    · split at hs
      · cases hs
        refine ⟨?_, ?_, ?_, ?_, ?_, ?_⟩ <;> simp_all [Handle.alive]
      · cases hs
    · cases hs

/-- **When a step leaves the handle refused.** -/
theorem step_refused {s s' : State} {a : Action} (h : Inv s) (hs : step P s a = some s') :
    s'.handle = .refused ↔ s.handle = .refused ∨ a = .unmap ∧ s.worker.holding = true := by
  cases a with
  | worker os =>
    rw [(workerStep_inv h hs).2.1]
    simp
  | updateRegion offset data os =>
    simp only [step] at hs
    split at hs
    · obtain ⟨i, -, rfl⟩ := Option.map_eq_some_iff.1 hs
      simp
    · cases hs
  | unmap =>
    by_cases hheld : s.handle = .held
    · obtain ⟨inner, -, hstep⟩ := unmap_spec (P := P) h hheld
      rw [hstep, Option.some.injEq] at hs
      subst hs
      cases s.worker.holding <;> simp [hheld]
    · rw [step, if_neg hheld] at hs
      cases hs
  | finish =>
    simp only [step] at hs
    split at hs
    · rename_i hh
      cases hs
      simp [hh]
    · rename_i hh
      split at hs
      · cases hs
        simp [hh]
      · cases hs
    · cases hs

/-- Every `unmap` of the run is called while the callback does not hold its temporary handle. -/
def Quiet (P : Platform) (s₀ : Inner) (acts : List Action) : Prop :=
  EachStep (step P) (State.init s₀) (fun s a => a = .unmap → s.worker.holding = false) acts

theorem run_refused {s₀ : Inner} {acts : List Action} {s : State} (hr : run (step P) (State.init s₀) acts = some s) :
    Inv s ∧ (s.handle ≠ .refused ↔ Quiet P s₀ acts) := by
  refine run_induction (fun acts s => Inv s ∧ (s.handle ≠ .refused ↔ Quiet P s₀ acts)) ⟨inv_init s₀, ?_⟩ ?_ acts s hr
  · exact iff_of_true Handle.noConfusion (eachStep_nil _ _ _)
  · intro acts a s s' hrun ih hs
    refine ⟨step_inv ih.1 hs, ?_⟩
    rw [Quiet, eachStep_concat hrun, ← Quiet, ← ih.2, Ne, step_refused ih.1 hs, not_or, not_and, Bool.not_eq_true]

/-- **An `unmap` that took the mapping out returns its file**: the steps left to it and to the worker are enabled. -/
theorem unmap_returns {s : State} {file : List UInt8} (h : Inv s)
    (hhandle : s.handle = .unwrapped file ∨ s.handle = .joining file ∨ s.handle = .returned file) :
    ∃ t, Reaches (step P) s t ∧ t.handle = .returned file := by
  have join : ∀ s : State, Inv s → s.handle = .joining file → ∃ t, Reaches (step P) s t ∧ t.handle = .returned file := by
    intro s h hj
    have hstop := h.joining file hj
    have hidle := h.gone (by rw [hj]; rfl)
    have hexit : ∀ s : State, s.handle = .joining file → s.worker = .exited →
        ∃ t, Reaches (step P) s t ∧ t.handle = .returned file := by
      intro s hj hw
      exact ⟨{ s with handle := .returned file }, Reaches.single (a := .finish) (by simp [step, hj, hw]), rfl⟩
    cases hw : s.worker <;> rw [hw] at hidle <;> try cases hidle
    · obtain ⟨t, ht, hfile⟩ := hexit { s with worker := .exited } hj rfl
      exact ⟨t, Reaches.head (a := .worker Os.ok) (by simp [step, workerStep, hw, hstop]) ht, hfile⟩
    · exact hexit s hj hw
  rcases hhandle with hu | hj | hret
  · have hs : step P s .finish = some { s with stop := true, handle := .joining file } := by simp [step, hu]
    obtain ⟨t, ht, hfile⟩ := join _ (step_inv h hs) rfl
    exact ⟨t, Reaches.head hs ht, hfile⟩
  · exact join s h hj
  · exact ⟨s, ⟨[], rfl⟩, hret⟩

/-- The file an `unmap` took out of the mapping. -/
def Handle.file : Handle → Option (List UInt8)
  | .unwrapped file | .joining file | .returned file => some file
  | .held | .refused => none

/-- **Only `unmap` takes the file**, and it takes the mapping's own. -/
theorem step_file {s s' : State} {a : Action} (h : Inv s) (hs : step P s a = some s') :
    s'.handle.file = s.handle.file ∨
      a = .unmap ∧ s.handle = .held ∧ ∃ inner, s.inner = some inner ∧ s'.handle.file = some inner.file := by
  cases a with
  | worker os =>
    rw [(workerStep_inv h hs).2.1]
    exact Or.inl rfl
  | updateRegion offset data os =>
    simp only [step] at hs
    split at hs
    · obtain ⟨i, -, rfl⟩ := Option.map_eq_some_iff.1 hs
      exact Or.inl rfl
    · cases hs
  | unmap =>
    by_cases hheld : s.handle = .held
    · obtain ⟨inner, hinner, hstep⟩ := unmap_spec (P := P) h hheld
      rw [hstep, Option.some.injEq] at hs
      subst hs
      cases s.worker.holding with
      | false => exact Or.inr ⟨rfl, hheld, inner, hinner, rfl⟩
      | true => exact Or.inl (by rw [hheld]; rfl)
    · rw [step, if_neg hheld] at hs
      cases hs
  | finish =>
    simp only [step] at hs
    split at hs
    · rename_i hh
      cases hs
      exact Or.inl (by rw [hh]; rfl)
    · rename_i hh
      split at hs
      · cases hs
        exact Or.inl (by rw [hh]; rfl)
      · cases hs
    · cases hs

/-- The file of a run's handle is the one the mapping had when `unmap` was called. -/
theorem run_file {s₀ : Inner} {acts : List Action} {s : State} {file : List UInt8}
    (hr : run (step P) (State.init s₀) acts = some s) (hfile : s.handle.file = some file) :
    ∃ pre post u inner, acts = pre ++ .unmap :: post ∧ run (step P) (State.init s₀) pre = some u ∧ u.handle = .held ∧
      u.inner = some inner ∧ file = inner.file := by
  refine run_induction (fun acts s => s.handle.file = some file → ∃ pre post u inner, acts = pre ++ .unmap :: post ∧
    run (step P) (State.init s₀) pre = some u ∧ u.handle = .held ∧ u.inner = some inner ∧ file = inner.file)
    (fun hnone => by cases hnone) ?_ acts s hr hfile
  intro acts a s s' hrun ih hs hfile
  rcases step_file (run_refused hrun).1 hs with hkept | ⟨rfl, hheld, inner, hinner, htaken⟩
  · obtain ⟨pre, post, u, inner, rfl, hu⟩ := ih (hkept ▸ hfile)
    exact ⟨pre, post ++ [a], u, inner, by simp, hu⟩
  · rw [htaken, Option.some.injEq] at hfile
    exact ⟨acts, [], s, inner, rfl, hrun, hheld, hinner, hfile.symm⟩

/-- A file once taken is the one returned. -/
theorem reaches_file {s t : State} {file file' : List UInt8} (h : Inv s) (hfile : s.handle.file = some file)
    (ht : Reaches (step P) s t) (hret : t.handle = .returned file') : file' = file := by
  obtain ⟨acts, hr⟩ := ht
  have hkept : Inv t ∧ t.handle.file = some file := by
    refine run_invariant (fun s => Inv s ∧ s.handle.file = some file) ?_ acts s t ⟨h, hfile⟩ hr
    rintro s a s' ⟨hi, hf⟩ hs
    refine ⟨step_inv hi hs, ?_⟩
    rcases step_file hi hs with hkept | ⟨-, hheld, -⟩
    · exact hkept.trans hf
    · rw [hheld] at hf
      cases hf
  rw [hret] at hkept
  exact Option.some.inj hkept.2

/-- **`unmap` by the sole owner**, over every interleaving with the flusher's callback: it is refused in no run in which it is
called outside the callback's window, and in every other run it is; when it is not refused it returns the file, and no other
file than the mapping had when it was called. -/
theorem unmap_ok_iff (s₀ : Inner) (acts : List Action) (s : State) (hr : run (step P) (State.init s₀) acts = some s) :
    (s.handle ≠ .refused ↔ Quiet P s₀ acts) ∧
    (s.handle ≠ .refused → s.handle ≠ .held → ∃ pre post u inner, acts = pre ++ .unmap :: post ∧
      run (step P) (State.init s₀) pre = some u ∧ u.handle = .held ∧ u.inner = some inner ∧
      (∃ t, Reaches (step P) s t ∧ t.handle = .returned inner.file) ∧
      ∀ t file, Reaches (step P) s t → t.handle = .returned file → file = inner.file) := by
  obtain ⟨h, hiff⟩ := run_refused hr
  refine ⟨hiff, fun hnot hheld => ?_⟩
  obtain ⟨file, hfile, hcases⟩ : ∃ file, s.handle.file = some file ∧
      (s.handle = .unwrapped file ∨ s.handle = .joining file ∨ s.handle = .returned file) := by
    cases hh : s.handle with
    | held => exact absurd hh hheld
    | refused => exact absurd hh hnot
    | unwrapped file => exact ⟨file, rfl, Or.inl rfl⟩
    | joining file => exact ⟨file, rfl, Or.inr (Or.inl rfl)⟩
    | returned file => exact ⟨file, rfl, Or.inr (Or.inr rfl)⟩
  obtain ⟨pre, post, u, inner, hacts, hpre, hu, hinner, rfl⟩ := run_file hr hfile
  exact ⟨pre, post, u, inner, hacts, hpre, hu, hinner, unmap_returns h hcases, fun t file ht => reaches_file h hfile ht⟩

/-- A ReadWrite mapping of 4 bytes, flushed every 10 ms. -/
def fourBytes : Inner := ⟨[0, 0, 0, 0], .rw 4, 4, .readWrite, .everyMillis 10, 0, 0, true, [], []⟩

theorem unmap_ok_iff_fourBytes : ∃ s, run (step linux64) (State.init fourBytes)
    [.updateRegion 0 [1] Os.ok, .worker Os.ok, .worker Os.ok, .worker Os.ok, .worker Os.ok, .unmap] = some s ∧
    ∃ t, Reaches (step linux64) s t ∧ t.handle = .returned [1, 0, 0, 0] := by
  have hr : run (step linux64) (State.init fourBytes)
      [.updateRegion 0 [1] Os.ok, .worker Os.ok, .worker Os.ok, .worker Os.ok, .worker Os.ok, .unmap] =
      some ⟨none, 0, .sleeping, false, .unwrapped [1, 0, 0, 0]⟩ := by rfl
  obtain ⟨-, -, -, inner, -, -, -, -, ⟨t, ht, hret⟩, -⟩ := (unmap_ok_iff fourBytes _ _ hr).2 (by decide) (by decide)
  rw [reaches_file (run_refused hr).1 rfl ht hret] at hret
  exact ⟨_, hr, t, ht, hret⟩

/-- **The sole owner's `unmap` inside the callback's window is refused.** -/
theorem unmap_refused_in_window :
    ¬ ∀ acts s, run (step linux64) (State.init fourBytes) acts = some s → s.handle ≠ .refused := by
  intro h
  have hr : run (step linux64) (State.init fourBytes) [.updateRegion 0 [1] Os.ok, .worker Os.ok, .worker Os.ok, .unmap] =
      some ⟨some ⟨[1, 0, 0, 0], .rw 4, 4, .readWrite, .everyMillis 10, 1, 1, true, [], []⟩, 2, .flushing, false, .refused⟩ := by
    rfl
  exact h _ _ hr rfl

end Unmap
end MmapIo
