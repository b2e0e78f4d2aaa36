import Mathlib.Data.List.Count
import MmapIo.Lib.Machine
/-!
# Flusher — the background flusher and its shutdown

`TimeBasedFlusher` (`flush.rs`) as a machine: the worker loop around the `stop` mutex and the condition variable, and one
`Drop`, on another thread or on the worker inside the callback.  A step takes or releases the mutex, reads or writes `stop`
under it, goes to sleep, wakes (notified, timed out or for no reason), or starts or ends the callback.  The callback may
return or panic at any time after it began, but not before a `Drop` that runs inside it has returned.  The log records the
events the shutdown is about, in order.
-/
namespace MmapIo
namespace Flusher

open Machine

inductive Thread where
  | worker
  | dropper
  deriving DecidableEq, Repr

/-- Where the worker thread is. -/
inductive Worker where
  /-- before `worker.stop.lock()` -/
  | start
  /-- at the test `!*stop` of the inner loop -/
  | head
  /-- in `wait_until`, the mutex released -/
  | asleep
  /-- woken, taking the mutex again; `timed_out()` -/
  | woken (timedOut : Bool)
  | waited (timedOut : Bool)
  /-- at `if *stop { break; }` -/
  | test
  /-- in `MutexGuard::unlocked`, before it releases the mutex -/
  | unlocking
  | calling
  | callback
  /-- after the callback, taking the mutex again -/
  | relock (panicked : Bool)
  /-- out of the loop, the guard still held -/
  | leaving
  | exited
  deriving DecidableEq, Repr

/-- Where `Drop` is. -/
inductive Dropper where
  | idle
  | lock
  | store
  | unlock
  | notify
  | take
  | join
  | returned
  deriving DecidableEq, Repr

inductive Event where
  /-- the worker released the mutex to run the callback -/
  | released
  | began
  | stopSet
  /-- `Drop` returned -/
  | returned
  deriving DecidableEq, Repr

structure State where
  stop : Bool
  /-- the holder of the `stop` mutex -/
  lock : Option Thread
  worker : Worker
  dropper : Dropper
  /-- `Drop` runs on the worker thread, inside the callback -/
  onWorker : Bool
  log : List Event
  deriving DecidableEq, Repr

def State.init : State := ⟨false, none, .start, .idle, false, []⟩

namespace State

def takeLock (s : State) (t : Thread) (next : State) : Option State :=
  if s.lock = none then some { next with lock := some t } else none

def record (s : State) (e : Event) : State := { s with log := s.log ++ [e] }

end State

/-- The worker's next step, when it is not asleep or in the callback. -/
def workerStep (s : State) : Option State :=
  match s.worker with
  | .start => s.takeLock .worker { s with worker := .head }
  | .head => if s.stop then some { s with worker := .test } else some { s with worker := .asleep, lock := none }
  | .woken timedOut => s.takeLock .worker { s with worker := .waited timedOut }
  | .waited timedOut => some { s with worker := if timedOut then .test else .head }
  | .test => some { s with worker := if s.stop then .leaving else .unlocking }
  | .unlocking => some (State.record { s with worker := .calling, lock := none } .released)
  | .calling => some (State.record { s with worker := .callback } .began)
  | .relock panicked => s.takeLock .worker { s with worker := if panicked then .leaving else .head }
  | .leaving => some { s with worker := .exited, lock := none }
  | .asleep | .callback | .exited => none

/-- The next step of `Drop`; `join` waits for the worker's exit. -/
def dropStep (s : State) : Option State :=
  match s.dropper with
  | .lock => s.takeLock .dropper { s with dropper := .store }
  | .store => some (State.record { s with dropper := .unlock, stop := true } .stopSet)
  | .unlock => some { s with dropper := .notify, lock := none }
  | .notify => some { s with dropper := .take, worker := if s.worker = .asleep then .woken false else s.worker }
  | .take => if s.onWorker then some (State.record { s with dropper := .returned } .returned)
    else some { s with dropper := .join }
  | .join => if s.worker = .exited then some (State.record { s with dropper := .returned } .returned) else none
  | .idle | .returned => none

/-- `Drop` has begun and not returned. -/
def Dropper.running : Dropper → Bool
  | .idle | .returned => false
  | _ => true

inductive Action where
  | worker
  /-- a time-out, or a wake-up for no reason -/
  | wake (timedOut : Bool)
  /-- the callback returns, or panics -/
  | finish (panicked : Bool)
  | beginDrop (onWorker : Bool)
  | dropper
  deriving DecidableEq, Repr

def step (s : State) : Action → Option State
  | .worker => workerStep s
  | .wake timedOut => if s.worker = .asleep then some { s with worker := .woken timedOut } else none
  | .finish panicked =>
    if s.worker = .callback ∧ ¬ (s.onWorker = true ∧ s.dropper.running = true) then
      some { s with worker := .relock panicked }
    else none
  | .beginDrop onWorker =>
    if s.dropper = .idle ∧ (onWorker = true → s.worker = .callback) then
      some { s with dropper := .lock, onWorker := onWorker }
    else none
  | .dropper => dropStep s

/-! ## The invariant -/

def Worker.holds : Worker → Bool
  | .head | .waited _ | .test | .unlocking | .leaving => true
  | _ => false

def Dropper.holds : Dropper → Bool
  | .store | .unlock => true
  | _ => false

/-- `Drop` has set `stop`. -/
def Dropper.stored : Dropper → Bool
  | .unlock | .notify | .take | .join | .returned => true
  | _ => false

/-- `Drop` is past its `notify_all`. -/
def Dropper.notified : Dropper → Bool
  | .take | .join | .returned => true
  | _ => false

/-- Who holds the mutex, and how far each side can be, given the other. -/
structure Core (s : State) : Prop where
  workerLock : s.lock = some .worker ↔ s.worker.holds = true
  dropperLock : s.lock = some .dropper ↔ s.dropper.holds = true
  stop : s.stop = s.dropper.stored
  unlocking : s.worker = .unlocking → s.stop = false
  awake : s.dropper.notified = true → s.worker ≠ .asleep
  inside : s.onWorker = true → s.dropper.running = true → s.worker = .callback
  joined : s.onWorker = false → s.dropper = .returned → s.worker = .exited
  settled : s.dropper = .returned → s.worker ≠ .calling
  noJoin : s.onWorker = true → s.dropper ≠ .join

/-- What the log says about the state, and the order of its events. -/
structure Logged (s : State) : Prop where
  stopSet : .stopSet ∈ s.log ↔ s.stop = true
  returned : .returned ∈ s.log ↔ s.dropper = .returned
  calls : s.log.count .released = s.log.count .began + if s.worker = .calling then 1 else 0
  balanced : ∀ pre, pre <+: s.log → pre.count .released ≤ pre.count .began + 1
  noRelease : s.log.Pairwise (fun a b => a = .stopSet → b ≠ .released)
  noBegin : s.log.Pairwise (fun a b => a = .returned → b ≠ .began)

theorem core_init : Core State.init := by
  constructor <;> simp [State.init, Worker.holds, Dropper.holds, Dropper.stored]

theorem takeLock_some {s next s' : State} {t : Thread} (h : s.takeLock t next = some s') :
    s.lock = none ∧ s' = { next with lock := some t } := by
  unfold State.takeLock at h
  split at h
  · rename_i hl
    cases h
    exact ⟨hl, rfl⟩
  · cases h

theorem stored_of_notified {d : Dropper} (h : d.notified = true) : d.stored = true := by
  cases d <;> trivial

/-- **A step of the worker**: it falls asleep or starts to unlock only while `stop` is unset, and calls only after that; it
leaves the callback only when no `Drop` runs inside. -/
theorem Core.workerMoved {s s' : State} (h : Core s) (hdropper : s'.dropper = s.dropper) (hstop : s'.stop = s.stop)
    (hon : s'.onWorker = s.onWorker) (hlock : s'.lock = some .worker ↔ s'.worker.holds = true)
    (hother : s'.lock = some .dropper ↔ s.lock = some .dropper)
    (hsafe : s'.worker = .unlocking ∨ s'.worker = .asleep → s.stop = false)
    (hcalling : s'.worker = .calling → s.worker = .unlocking)
    (hcallback : s.onWorker = true → s.dropper.running = true → s.worker ≠ .callback)
    (hexited : s.worker ≠ .exited) : Core s' where
  workerLock := hlock
  dropperLock := by rw [hother, hdropper]; exact h.dropperLock
  stop := by rw [hstop, hdropper]; exact h.stop
  unlocking := fun hw => by rw [hstop]; exact hsafe (.inl hw)
  awake := by
    intro hn hw
    rw [hdropper] at hn
    have hset := h.stop
    rw [stored_of_notified hn, hsafe (.inr hw)] at hset
    cases hset
  inside := by
    intro ho hr
    rw [hon] at ho
    rw [hdropper] at hr
    exact absurd (h.inside ho hr) (hcallback ho hr)
  joined := by
    intro ho hr
    rw [hon] at ho
    rw [hdropper] at hr
    exact absurd (h.joined ho hr) hexited
  settled := by
    intro hr hw
    rw [hdropper] at hr
    have hset := h.stop
    rw [hr, h.unlocking (hcalling hw)] at hset
    cases hset
  noJoin := by rw [hon, hdropper]; exact h.noJoin

theorem workerStep_core {s s' : State} (h : Core s) (hs : workerStep s = some s') : Core s' := by
  unfold workerStep at hs
  cases hw : s.worker <;> rw [hw] at hs <;> simp only at hs
  case start | woken =>
    obtain ⟨hl, rfl⟩ := takeLock_some hs
    refine h.workerMoved rfl rfl rfl ?_ ?_ ?_ ?_ ?_ ?_ <;> simp [hw, hl, Worker.holds]
  case relock panicked =>
    obtain ⟨hl, rfl⟩ := takeLock_some hs
    cases panicked <;> refine h.workerMoved rfl rfl rfl ?_ ?_ ?_ ?_ ?_ ?_ <;> simp [hw, hl, Worker.holds]
  case head =>
    have hl := h.workerLock.2 (by rw [hw]; rfl)
    split at hs <;> cases hs <;> refine h.workerMoved rfl rfl rfl ?_ ?_ ?_ ?_ ?_ ?_ <;> simp_all [Worker.holds]
  case waited timedOut =>
    have hl := h.workerLock.2 (by rw [hw]; rfl)
    cases hs
    cases timedOut <;> refine h.workerMoved rfl rfl rfl ?_ ?_ ?_ ?_ ?_ ?_ <;> simp [hw, hl, Worker.holds]
  case test =>
    have hl := h.workerLock.2 (by rw [hw]; rfl)
    cases hs
    refine h.workerMoved rfl rfl rfl ?_ ?_ ?_ ?_ ?_ ?_ <;> cases hstop : s.stop <;> simp [hw, hl, Worker.holds]
  case unlocking | calling | leaving =>
    have hl := h.workerLock
    cases hs
    refine h.workerMoved rfl rfl rfl ?_ ?_ ?_ ?_ ?_ ?_ <;> simp_all [Worker.holds, State.record]
  case asleep | callback | exited => cases hs

theorem dropStep_core {s s' : State} (h : Core s) (hs : dropStep s = some s') : Core s' := by
  obtain ⟨stop, lock, worker, dropper, onWorker, log⟩ := s
  obtain ⟨h1, h2, h3, h4, h5, h6, h7, h8, h9⟩ := h
  cases dropper <;> simp only [dropStep] at hs
  case lock =>
    obtain ⟨hl, rfl⟩ := takeLock_some hs
    constructor <;> simp_all [Dropper.holds, Dropper.stored, Dropper.notified, Dropper.running]
  case store =>
    cases hs
    constructor <;> simp_all [Dropper.holds, Dropper.stored, Dropper.notified, Dropper.running, State.record]
    -- the mutex is with `Drop`, so the worker is not about to release it
    rintro rfl
    cases h1
  case unlock =>
    cases hs
    constructor <;> simp_all [Dropper.holds, Dropper.stored, Dropper.notified, Dropper.running]
  case notify =>
    cases hs
    by_cases hw : worker = .asleep <;> constructor <;>
      simp_all [Dropper.holds, Dropper.stored, Dropper.notified, Dropper.running, Worker.holds]
  case take =>
    split at hs <;> cases hs <;> constructor <;>
      simp_all [Dropper.holds, Dropper.stored, Dropper.notified, Dropper.running, State.record]
  case join =>
    split at hs
    · cases hs
      constructor <;> simp_all [Dropper.holds, Dropper.stored, Dropper.notified, Dropper.running, State.record]
    · cases hs
  case idle | returned => cases hs

/-- **Every step keeps the core of the invariant.** -/
theorem step_core {s s' : State} {a : Action} (h : Core s) (hs : step s a = some s') : Core s' := by
  cases a with
  | worker => exact workerStep_core h hs
  | dropper => exact dropStep_core h hs
  | wake timedOut =>
    simp only [step] at hs
    split at hs
    · rename_i hw
      have hl := h.workerLock
      cases hs
      refine h.workerMoved rfl rfl rfl ?_ ?_ ?_ ?_ ?_ ?_ <;> simp_all [Worker.holds]
    · cases hs
  | finish panicked =>
    simp only [step] at hs
    split at hs
    · rename_i hw
      have hl := h.workerLock
      cases hs
      refine h.workerMoved rfl rfl rfl ?_ ?_ ?_ ?_ ?_ ?_ <;> simp_all [Worker.holds]
    · cases hs
  | beginDrop onWorker =>
    simp only [step] at hs
    split at hs
    · rename_i hw
      obtain ⟨h1, h2, h3, h4, h5, h6, h7, h8, h9⟩ := h
      cases hs
      constructor <;> simp_all [Dropper.holds, Dropper.stored, Dropper.notified]
    · cases hs

theorem logged_init : Logged State.init := by
  constructor <;> simp [State.init]

/-- A step that records nothing and neither sets `stop`, returns from `Drop` nor starts or leaves a call. -/
theorem Logged.quiet {s s' : State} (h : Logged s) (hlog : s'.log = s.log) (hstop : s'.stop = s.stop)
    (hret : s'.dropper = .returned ↔ s.dropper = .returned) (hcall : s'.worker = .calling ↔ s.worker = .calling) :
    Logged s' where
  stopSet := by rw [hlog, hstop]; exact h.stopSet
  returned := by rw [hlog, hret]; exact h.returned
  calls := by
    rw [hlog, h.calls]
    simp only [hcall]
  balanced := by rw [hlog]; exact h.balanced
  noRelease := by rw [hlog]; exact h.noRelease
  noBegin := by rw [hlog]; exact h.noBegin

/-- The order of the log after one more event. -/
theorem pairwise_concat {log : List Event} {x y e : Event} (h : log.Pairwise (fun a b => a = x → b ≠ y))
    (hnew : e = y → x ∉ log) : (log ++ [e]).Pairwise (fun a b => a = x → b ≠ y) := by
  rw [List.pairwise_append]
  refine ⟨h, List.pairwise_singleton _ _, ?_⟩
  intro a ha b hb hax hby
  rw [List.mem_singleton] at hb
  subst hax hby
  exact hnew hb.symm ha

/-- **A step that records an event**: a release only while `stop` is unset, a call only before `Drop` has returned. -/
theorem Logged.record {s s' : State} (h : Logged s) {e : Event} (hlog : s'.log = s.log ++ [e])
    (hstop : s'.stop = true ↔ s.stop = true ∨ e = .stopSet)
    (hret : s'.dropper = .returned ↔ s.dropper = .returned ∨ e = .returned)
    (hcall : [e].count .released + (if s.worker = .calling then 1 else 0) =
      [e].count .began + if s'.worker = .calling then 1 else 0)
    (hrelease : e = .released → s.stop = false) (hbegin : e = .began → s.dropper ≠ .returned) : Logged s' where
  stopSet := by
    rw [hlog, List.mem_append, h.stopSet, hstop, List.mem_singleton]
    exact or_congr Iff.rfl eq_comm
  returned := by
    rw [hlog, List.mem_append, h.returned, hret, List.mem_singleton]
    exact or_congr Iff.rfl eq_comm
  calls := by
    have := h.calls
    rw [hlog, List.count_append, List.count_append]
    omega
  balanced := by
    intro pre hpre
    rw [hlog, List.prefix_concat_iff] at hpre
    rcases hpre with rfl | hpre
    · have hcalls := h.calls
      have hone : (if s'.worker = .calling then 1 else 0) ≤ 1 := by split <;> omega
      rw [List.count_append, List.count_append]
      omega
    · exact h.balanced pre hpre
  noRelease := by
    rw [hlog]
    apply pairwise_concat h.noRelease
    intro he hmem
    rw [h.stopSet, hrelease he] at hmem
    cases hmem
  noBegin := by
    rw [hlog]
    apply pairwise_concat h.noBegin
    intro he hmem
    exact hbegin he (h.returned.1 hmem)

theorem workerStep_logged {s s' : State} (hc : Core s) (h : Logged s) (hs : workerStep s = some s') : Logged s' := by
  unfold workerStep at hs
  cases hw : s.worker <;> rw [hw] at hs <;> simp only at hs
  case start | woken =>
    obtain ⟨-, rfl⟩ := takeLock_some hs
    exact h.quiet rfl rfl Iff.rfl (by rw [hw]; simp)
  case relock panicked =>
    obtain ⟨-, rfl⟩ := takeLock_some hs
    exact h.quiet rfl rfl Iff.rfl (by rw [hw]; cases panicked <;> simp)
  case head => split at hs <;> cases hs <;> exact h.quiet rfl rfl Iff.rfl (by rw [hw]; simp)
  case waited timedOut =>
    cases hs
    exact h.quiet rfl rfl Iff.rfl (by rw [hw]; cases timedOut <;> simp)
  case test =>
    cases hs
    exact h.quiet rfl rfl Iff.rfl (by rw [hw]; cases s.stop <;> simp)
  case leaving =>
    cases hs
    exact h.quiet rfl rfl Iff.rfl (by rw [hw]; simp)
  case unlocking =>
    cases hs
    exact h.record rfl (by simp [State.record]) (by simp [State.record]) (by rw [hw]; rfl) (fun _ => hc.unlocking hw)
      (fun he => by cases he)
  case calling =>
    cases hs
    exact h.record rfl (by simp [State.record]) (by simp [State.record]) (by rw [hw]; rfl) (fun he => by cases he)
      (fun _ hret => hc.settled hret hw)
  case asleep | callback | exited => cases hs

theorem dropStep_logged {s s' : State} (h : Logged s) (hs : dropStep s = some s') : Logged s' := by
  unfold dropStep at hs
  cases hd : s.dropper <;> rw [hd] at hs <;> simp only at hs
  case lock =>
    obtain ⟨-, rfl⟩ := takeLock_some hs
    exact h.quiet rfl rfl (by rw [hd]; simp) Iff.rfl
  case unlock =>
    cases hs
    exact h.quiet rfl rfl (by rw [hd]; simp) Iff.rfl
  case notify =>
    cases hs
    refine h.quiet rfl rfl (by rw [hd]; simp) ?_
    by_cases hw : s.worker = .asleep
    · simp [hw]
    · simp [hw]
  case store =>
    cases hs
    exact h.record rfl (by simp [State.record]) (by simp [State.record, hd]) rfl (fun he => by cases he)
      (fun he => by cases he)
  case take =>
    split at hs <;> cases hs
    · exact h.record rfl (by simp [State.record]) (by simp [State.record]) rfl (fun he => by cases he)
        (fun he => by cases he)
    · exact h.quiet rfl rfl (by rw [hd]; simp) Iff.rfl
  case join =>
    split at hs
    · cases hs
      exact h.record rfl (by simp [State.record]) (by simp [State.record]) rfl (fun he => by cases he)
        (fun he => by cases he)
    · cases hs
  case idle | returned => cases hs

/-- **Every step keeps the log in order.** -/
theorem step_logged {s s' : State} {a : Action} (hc : Core s) (h : Logged s) (hs : step s a = some s') : Logged s' := by
  cases a with
  | worker => exact workerStep_logged hc h hs
  | dropper => exact dropStep_logged h hs
  | wake timedOut | finish panicked =>
    simp only [step] at hs
    split at hs
    · cases hs
      rename_i hw
      exact h.quiet rfl rfl Iff.rfl (by simp [hw])
    · cases hs
  | beginDrop onWorker =>
    simp only [step] at hs
    split at hs
    · cases hs
      rename_i hw
      exact h.quiet rfl rfl (by simp [hw.1]) Iff.rfl
    · cases hs

structure Inv (s : State) : Prop where
  core : Core s
  logged : Logged s

theorem run_inv {acts : List Action} {s : State} (hr : run step State.init acts = some s) : Inv s :=
  run_invariant Inv (fun _ _ _ h hs => ⟨step_core h.core hs, step_logged h.core h.logged hs⟩) acts State.init s
    ⟨core_init, logged_init⟩ hr

/-! ## Shutdown -/

/-- **A `Drop` inside the callback never waits**: its next step is always enabled. -/
theorem dropStep_onWorker {s : State} (h : Core s) (hon : s.onWorker = true) (hrun : s.dropper.running = true) :
    ∃ s', dropStep s = some s' := by
  have hw := h.inside hon hrun
  unfold dropStep
  cases hd : s.dropper <;> simp only [hd] at hrun ⊢
  case lock =>
    have hfree : s.lock = none := by
      cases hl : s.lock with
      | none => rfl
      | some t =>
        cases t with
        | worker =>
          have := h.workerLock.1 hl
          rw [hw] at this
          cases this
        | dropper =>
          have := h.dropperLock.1 hl
          rw [hd] at this
          cases this
    unfold State.takeLock
    rw [if_pos hfree]
    exact ⟨_, rfl⟩
  case store | unlock | notify => exact ⟨_, rfl⟩
  case take =>
    rw [if_pos hon]
    exact ⟨_, rfl⟩
  case join => exact absurd hd (h.noJoin hon)
  case idle | returned => cases hrun

theorem exited_forever {acts : List Action} {s s' : State} (hw : s.worker = .exited) (hret : s.dropper = .returned)
    (hr : run step s acts = some s') : s' = s := by
  refine run_invariant (fun t => t = s) ?_ acts s s' rfl hr
  intro t a t' ht hs
  subst ht
  cases a with
  | worker => simp [step, workerStep, hw] at hs
  | dropper => simp [step, dropStep, hret] at hs
  | wake timedOut => simp [step, hw] at hs
  | finish panicked => simp [step, hw] at hs
  | beginDrop onWorker => simp [step, hret] at hs

/-- **The callbacks that begin once `stop` is set were released before**: no release follows, and at most one call is still
to begin. -/
theorem calls_after_stop {s : State} (h : Logged s) {pre post : List Event} (hlog : s.log = pre ++ .stopSet :: post) :
    .released ∉ post ∧ pre.count .began + post.count .began ≤ pre.count .released ∧ post.count .began ≤ 1 := by
  have hpair := h.noRelease
  rw [hlog, List.pairwise_append, List.pairwise_cons] at hpair
  have hpost : .released ∉ post := fun hmem => hpair.2.1.1 _ hmem rfl rfl
  have hbal := h.balanced pre (by rw [hlog]; exact List.prefix_append _ _)
  have hcalls := h.calls
  rw [hlog, List.count_append, List.count_append, List.count_cons_of_ne (by decide), List.count_cons_of_ne (by decide),
    List.count_eq_zero.2 hpost] at hcalls
  refine ⟨hpost, ?_, ?_⟩ <;> omega

/-- **Flusher shutdown**, in every reachable state: a `Drop` on another thread that has returned left the worker exited, for
good; a `Drop` inside the callback always has its next step; no call begins after `Drop` returned; after `notify_all` the
worker does not sleep; a call that begins once `stop` is set was released before. -/
theorem shutdown {acts : List Action} {s : State} (hr : run step State.init acts = some s) :
    (s.onWorker = false → s.dropper = .returned →
      s.worker = .exited ∧ ∀ acts' s', run step s acts' = some s' → s' = s) ∧
    (s.onWorker = true → s.dropper.running = true → s.worker = .callback ∧ ∃ s', step s .dropper = some s') ∧
    (∀ pre post, s.log = pre ++ .returned :: post → .began ∉ post) ∧
    (s.dropper.notified = true → s.worker ≠ .asleep) ∧
    (∀ pre post, s.log = pre ++ .stopSet :: post →
      .released ∉ post ∧ pre.count .began + post.count .began ≤ pre.count .released ∧ post.count .began ≤ 1) := by
  have h := run_inv hr
  refine ⟨?_, ?_, ?_, h.core.awake, fun pre post => calls_after_stop h.logged⟩
  · intro hon hret
    have hw := h.core.joined hon hret
    exact ⟨hw, fun acts' s' hr' => exited_forever hw hret hr'⟩
  · intro hon hrun
    exact ⟨h.core.inside hon hrun, dropStep_onWorker h.core hon hrun⟩
  · intro pre post hlog hmem
    have hpair := h.logged.noBegin
    rw [hlog, List.pairwise_append, List.pairwise_cons] at hpair
    exact hpair.2.1.1 _ hmem rfl rfl

/-- A call released before `stop` is set, with a `Drop` inside it. -/
theorem shutdown_inside_callback :
    (run step State.init [.worker, .worker, .wake true, .worker, .worker, .worker, .worker, .worker, .beginDrop true,
      .dropper, .dropper, .dropper, .dropper, .dropper, .finish false, .worker, .worker, .worker, .worker]).map
        (fun s => (s.worker, s.log)) = some (.exited, [.released, .began, .stopSet, .returned]) ∧
    ∃ s, run step State.init [.worker, .worker, .wake true, .worker, .worker, .worker, .worker, .worker, .beginDrop true] =
      some s ∧ ∃ s', step s .dropper = some s' := by
  refine ⟨by decide, ?_⟩
  have hr : run step State.init [.worker, .worker, .wake true, .worker, .worker, .worker, .worker, .worker, .beginDrop true] =
      some ⟨false, none, .callback, .lock, true, [.released, .began]⟩ := by decide
  exact ⟨_, hr, ((shutdown hr).2.1 rfl rfl).2⟩

end Flusher
end MmapIo
