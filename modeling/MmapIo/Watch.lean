import MmapIo.Lib.Machine
/-!
# Watch — the dispatcher of a file watch and the drop of its handle

`MemoryMappedFile::watch` and `WatchHandle` (`watch.rs`) as a machine: the backend sends events and errors to a FIFO channel,
the dispatcher thread receives them one by one and calls the callback, and one drop of the handle, on another thread or
inside the callback, drops the watcher (no send afterwards), sends `Shutdown` and joins the dispatcher unless it runs on it.
A callback may return or panic, but not before a drop that runs inside it has returned.
-/
namespace MmapIo
namespace Watch

open Machine

inductive ChangeKind where
  | modified
  | metadata
  | removed
  deriving DecidableEq, Repr

/-- `notify::event::ModifyKind`. -/
inductive ModifyKind where
  | any
  | data
  | metadata
  | name
  | other
  deriving DecidableEq, Repr

/-- `notify::event::RemoveKind`. -/
inductive RemoveKind where
  | any
  | file
  | folder
  | other
  deriving DecidableEq, Repr

/-- `notify::EventKind`. -/
inductive NotifyKind where
  | any
  | access
  | create
  | modify (kind : ModifyKind)
  | remove (kind : RemoveKind)
  | other
  deriving DecidableEq, Repr

def mapNotifyKind : NotifyKind → Option ChangeKind
  | .create => some .modified
  | .modify .data => some .modified
  | .modify .metadata => some .metadata
  | .modify .name => some .removed
  | .modify _ => some .modified
  | .remove _ => some .removed
  | .access => none
  | .any | .other => some .modified

/-- What the backend reports: `notify::Result<Event>`. -/
inductive Notice where
  | error
  | event (kind : NotifyKind)
  deriving DecidableEq, Repr

/-- The kind the callback is called with, if it is; an error is surfaced as a change. -/
def Notice.callback : Notice → Option ChangeKind
  | .error => some .modified
  | .event kind => mapNotifyKind kind

inductive Msg where
  | event (n : Notice)
  | shutdown
  deriving DecidableEq, Repr

def Msg.callback : Msg → Option ChangeKind
  | .event n => n.callback
  | .shutdown => none

/-- Where the dispatcher thread is. -/
inductive Dispatcher where
  /-- at `rx.recv()` -/
  | recv
  | handling (n : Notice)
  | callback (kind : ChangeKind)
  | exited
  deriving DecidableEq, Repr

def Dispatcher.inCallback : Dispatcher → Bool
  | .callback _ => true
  | _ => false

/-- Where the drop of the handle is. -/
inductive Dropper where
  | idle
  /-- at `self.watcher.take()` -/
  | take
  | send
  | check
  | join
  | returned
  deriving DecidableEq, Repr

inductive Event where
  | began (kind : ChangeKind)
  | ended
  /-- the drop returned -/
  | returned
  deriving DecidableEq, Repr

structure State where
  queue : List Msg
  dispatcher : Dispatcher
  dropper : Dropper
  /-- the drop runs on the dispatcher thread, inside the callback -/
  onDispatcher : Bool
  /-- the notices put in the channel, in order -/
  sent : List Notice
  log : List Event
  deriving DecidableEq, Repr

def State.init : State := ⟨[], .recv, .idle, false, [], []⟩

def State.record (s : State) (e : Event) : State := { s with log := s.log ++ [e] }

/-- The drop has begun and not returned. -/
def Dropper.running : Dropper → Bool
  | .idle | .returned => false
  | _ => true

/-- The watcher is alive: the backend can send. -/
def Dropper.watching : Dropper → Bool
  | .idle | .take => true
  | _ => false

/-- The next step of the dispatcher's loop, outside the callback. -/
def dispatchStep (s : State) : Option State :=
  match s.dispatcher with
  | .recv =>
    match s.queue with
    | [] => none
    | .shutdown :: queue => some { s with queue := queue, dispatcher := .exited }
    | .event n :: queue => some { s with queue := queue, dispatcher := .handling n }
  | .handling n =>
    match n.callback with
    | some kind => some (State.record { s with dispatcher := .callback kind } (.began kind))
    | none => some { s with dispatcher := .recv }
  | .callback _ | .exited => none

/-- A send fails once the receiver is gone. -/
def State.push (s : State) (m : Msg) : State :=
  if s.dispatcher = .exited then s else { s with queue := s.queue ++ [m] }

@[simp] theorem State.push_dispatcher (s : State) (m : Msg) : (s.push m).dispatcher = s.dispatcher := by
  unfold State.push
  split <;> rfl

@[simp] theorem State.push_dropper (s : State) (m : Msg) : (s.push m).dropper = s.dropper := by
  unfold State.push
  split <;> rfl

@[simp] theorem State.push_onDispatcher (s : State) (m : Msg) : (s.push m).onDispatcher = s.onDispatcher := by
  unfold State.push
  split <;> rfl

theorem State.mem_push {s : State} {m m' : Msg} (h : m' ∈ (s.push m).queue) : m' ∈ s.queue ∨ m' = m := by
  unfold State.push at h
  split at h
  · exact Or.inl h
  · exact (List.mem_append.1 h).imp id List.mem_singleton.1

def dropStep (s : State) : Option State :=
  match s.dropper with
  | .take => some { s with dropper := .send }
  | .send => some { s.push .shutdown with dropper := .check }
  | .check => if s.onDispatcher then some (State.record { s with dropper := .returned } .returned)
    else some { s with dropper := .join }
  | .join => if s.dispatcher = .exited then some (State.record { s with dropper := .returned } .returned) else none
  | .idle | .returned => none

inductive Action where
  | notify (n : Notice)
  | dispatch
  /-- the callback returns, or panics -/
  | finish (panicked : Bool)
  | beginDrop (onDispatcher : Bool)
  | dropper
  deriving DecidableEq, Repr

def step (s : State) : Action → Option State
  | .notify n =>
    if s.dropper.watching then
      some (if s.dispatcher = .exited then s else { s.push (.event n) with sent := s.sent ++ [n] })
    else none
  | .dispatch => dispatchStep s
  | .finish panicked =>
    match s.dispatcher with
    | .callback kind =>
      if s.onDispatcher = true ∧ s.dropper.running = true then none
      else some (State.record { s with dispatcher := if panicked = true ∨ kind = .removed then .exited else .recv } .ended)
    | _ => none
  | .beginDrop onDispatcher =>
    if s.dropper = .idle ∧ (onDispatcher = true → s.dispatcher.inCallback = true) then
      some { s with dropper := .take, onDispatcher := onDispatcher }
    else none
  | .dropper => dropStep s

/-! ## The invariant -/

/-- The kinds the callback was called with, in order. -/
def kinds (log : List Event) : List ChangeKind :=
  log.filterMap (fun e => match e with
    | .began kind => some kind
    | _ => none)

/-- The kind a received notice is about to be called back with. -/
def Dispatcher.pending : Dispatcher → Option ChangeKind
  | .handling n => n.callback
  | _ => none

@[simp] theorem kinds_nil : kinds [] = [] := rfl

@[simp] theorem kinds_append (l l' : List Event) : kinds (l ++ l') = kinds l ++ kinds l' := List.filterMap_append

@[simp] theorem kinds_began (kind : ChangeKind) : kinds [.began kind] = [kind] := rfl

@[simp] theorem kinds_ended : kinds [.ended] = [] := rfl

@[simp] theorem kinds_returned : kinds [.returned] = [] := rfl

/-- How far the drop and the dispatcher can be, given each other. -/
structure Core (s : State) : Prop where
  inside : s.onDispatcher = true → s.dropper.running = true → s.dispatcher.inCallback = true
  joined : s.onDispatcher = false → s.dropper = .returned → s.dispatcher = .exited
  noJoin : s.onDispatcher = true → s.dropper ≠ .join
  noShutdown : s.dropper.watching = true ∨ s.dropper = .send → .shutdown ∉ s.queue

/-- What the log says: the callbacks are those of the notices received, in the order they were sent; calls do not overlap;
`Removed` ends the watch. -/
structure Calls (s : State) : Prop where
  order : s.sent.filterMap Notice.callback = kinds s.log ++ (s.dispatcher.pending.toList ++ s.queue.filterMap Msg.callback)
  returned : .returned ∈ s.log ↔ s.dropper = .returned
  single : (kinds s.log).length = s.log.count .ended + s.dispatcher.inCallback.toNat
  balanced : ∀ pre, pre <+: s.log → pre.count .ended ≤ (kinds pre).length ∧ (kinds pre).length ≤ pre.count .ended + 1
  removed : .removed ∈ kinds s.log → s.dispatcher = .callback .removed ∨ s.dispatcher = .exited
  last : (kinds s.log).Pairwise (fun a _ => a ≠ .removed)

theorem core_init : Core State.init := by
  constructor <;> simp [State.init, Dropper.running]

theorem calls_init : Calls State.init := by
  constructor <;> simp [State.init, Dispatcher.pending, Dispatcher.inCallback]

/-- **A step of the dispatcher**: it leaves the callback only when no drop runs inside, and takes from the channel only. -/
theorem Core.dispatched {s s' : State} (h : Core s) (hdropper : s'.dropper = s.dropper)
    (hon : s'.onDispatcher = s.onDispatcher)
    (hin : s.onDispatcher = true → s.dropper.running = true → s.dispatcher.inCallback = false)
    (hexited : s.dispatcher ≠ .exited) (hqueue : ∀ m ∈ s'.queue, m ∈ s.queue) : Core s' where
  inside := by
    intro ho hr
    rw [hon] at ho
    rw [hdropper] at hr
    have hcall := h.inside ho hr
    rw [hin ho hr] at hcall
    cases hcall
  joined := by
    intro ho hr
    rw [hon] at ho
    rw [hdropper] at hr
    exact absurd (h.joined ho hr) hexited
  noJoin := by rw [hon, hdropper]; exact h.noJoin
  noShutdown := by
    intro hd hmem
    rw [hdropper] at hd
    exact h.noShutdown hd (hqueue _ hmem)

theorem dispatchStep_core {s s' : State} (h : Core s) (hs : dispatchStep s = some s') : Core s' := by
  unfold dispatchStep at hs
  cases hd : s.dispatcher <;> rw [hd] at hs <;> simp only at hs
  case recv =>
    split at hs
    · cases hs
    all_goals
      rename_i queue hq
      cases hs
      refine h.dispatched rfl rfl (fun _ _ => by rw [hd]; rfl) (by rw [hd]; nofun) ?_
      intro m hm
      rw [hq]
      exact List.mem_cons_of_mem _ hm
  case handling n =>
    split at hs <;> cases hs <;>
      exact h.dispatched rfl rfl (fun _ _ => by rw [hd]; rfl) (by rw [hd]; nofun) (fun _ hm => hm)
  case callback | exited => cases hs

theorem dropStep_core {s s' : State} (h : Core s) (hs : dropStep s = some s') : Core s' := by
  obtain ⟨h1, h2, h3, h4⟩ := h
  unfold dropStep at hs
  cases hd : s.dropper <;> rw [hd] at hs <;> simp only at hs
  case take | send =>
    cases hs
    constructor <;> simp_all [Dropper.running, Dropper.watching]
  case check | join =>
    split at hs <;> cases hs <;> constructor <;> simp_all [State.record, Dropper.running, Dropper.watching]
  case idle | returned => cases hs

theorem step_core {s s' : State} {a : Action} (h : Core s) (hs : step s a = some s') : Core s' := by
  cases a with
  | dispatch => exact dispatchStep_core h hs
  | dropper => exact dropStep_core h hs
  | notify n =>
    simp only [step] at hs
    split at hs <;> cases hs
    split
    · exact h
    · refine ⟨by simpa using h.inside, by simpa using h.joined, by simpa using h.noJoin, ?_⟩
      intro hw hmem
      rcases State.mem_push hmem with hold | hnew
      · exact h.noShutdown (by simpa using hw) hold
      · cases hnew
  | finish panicked =>
    simp only [step] at hs
    split at hs
    · rename_i kind hd
      split at hs <;> cases hs
      rename_i hno
      exact h.dispatched rfl rfl (fun ho hr => absurd ⟨ho, hr⟩ hno) (by rw [hd]; nofun) (fun _ hm => hm)
    · cases hs
  | beginDrop onDispatcher =>
    obtain ⟨h1, h2, h3, h4⟩ := h
    simp only [step] at hs
    split at hs <;> cases hs
    constructor <;> simp_all [Dropper.watching]

/-- A step that records nothing and takes the dispatcher neither into nor out of a call. -/
theorem Calls.quiet {s s' : State} (h : Calls s) (hlog : s'.log = s.log)
    (horder : s'.sent.filterMap Notice.callback =
      kinds s.log ++ (s'.dispatcher.pending.toList ++ s'.queue.filterMap Msg.callback))
    (hret : s'.dropper = .returned ↔ s.dropper = .returned)
    (hdisp : s'.dispatcher = s.dispatcher ∨
      s.dispatcher.inCallback = false ∧ s.dispatcher ≠ .exited ∧ s'.dispatcher.inCallback = false) : Calls s' where
  order := by rw [hlog, horder]
  returned := by rw [hlog, hret]; exact h.returned
  single := by
    rw [hlog, h.single]
    rcases hdisp with heq | ⟨hno, -, hno'⟩
    · rw [heq]
    · rw [hno, hno']
  balanced := by rw [hlog]; exact h.balanced
  removed := by
    rw [hlog]
    intro hmem
    rcases hdisp with heq | ⟨hno, hne, -⟩
    · rw [heq]
      exact h.removed hmem
    · rcases h.removed hmem with hc | he
      · rw [hc] at hno
        cases hno
      · exact absurd he hne
  last := by rw [hlog]; exact h.last

/-- The counts of the log after one more event, given those at its end. -/
theorem balanced_concat {log : List Event} {e : Event} {n : Nat}
    (h : ∀ pre, pre <+: log → pre.count .ended ≤ (kinds pre).length ∧ (kinds pre).length ≤ pre.count .ended + 1)
    (hn : (kinds (log ++ [e])).length = (log ++ [e]).count .ended + n) (hle : n ≤ 1) :
    ∀ pre, pre <+: log ++ [e] → pre.count .ended ≤ (kinds pre).length ∧ (kinds pre).length ≤ pre.count .ended + 1 := by
  intro pre hpre
  rcases List.prefix_concat_iff.1 hpre with rfl | hpre
  · omega
  · exact h pre hpre

theorem Calls.began {s : State} (h : Calls s) {n : Notice} {kind : ChangeKind} (hd : s.dispatcher = .handling n)
    (hk : n.callback = some kind) : Calls (State.record { s with dispatcher := .callback kind } (.began kind)) := by
  have hsingle : (kinds (s.log ++ [.began kind])).length = (s.log ++ [Event.began kind]).count Event.ended + 1 := by
    have := h.single
    rw [hd] at this
    rw [kinds_append, List.length_append, this, List.count_append]
    simp [Dispatcher.inCallback]
  have hnever : .removed ∉ kinds s.log := by
    intro hmem
    rcases h.removed hmem with hc | he
    · rw [hd] at hc
      cases hc
    · rw [hd] at he
      cases he
  refine ⟨?_, ?_, hsingle, balanced_concat h.balanced hsingle (Nat.le_refl _), ?_, ?_⟩
  · have := h.order
    rw [hd] at this
    simp only [State.record, kinds_append, kinds_began, Dispatcher.pending] at this ⊢
    rw [this, hk]
    simp
  · simp only [State.record, List.mem_append, List.mem_singleton, reduceCtorEq, or_false]
    exact h.returned
  · simp only [State.record, kinds_append, kinds_began, List.mem_append, List.mem_singleton]
    rintro (hmem | hrem)
    · exact absurd hmem hnever
    · exact Or.inl (by rw [← hrem])
  · simp only [State.record, kinds_append, kinds_began, List.pairwise_append]
    refine ⟨h.last, List.pairwise_singleton _ _, ?_⟩
    intro a ha b _ hrem
    rw [hrem] at ha
    exact hnever ha

theorem Calls.ended {s : State} (h : Calls s) {kind : ChangeKind} {next : Dispatcher} (hd : s.dispatcher = .callback kind)
    (hnext : next = .recv ∧ kind ≠ .removed ∨ next = .exited) :
    Calls (State.record { s with dispatcher := next } .ended) := by
  have hpending : next.pending = none ∧ next.inCallback = false := by
    rcases hnext with ⟨rfl, -⟩ | rfl <;> exact ⟨rfl, rfl⟩
  have hsingle : (kinds (s.log ++ [.ended])).length = (s.log ++ [Event.ended]).count Event.ended + next.inCallback.toNat := by
    have := h.single
    rw [hd] at this
    rw [kinds_append, List.length_append, this, List.count_append, hpending.2]
    simp [Dispatcher.inCallback]
  refine ⟨?_, ?_, hsingle, balanced_concat h.balanced hsingle (by rw [hpending.2]; decide), ?_, ?_⟩
  · have := h.order
    rw [hd] at this
    simp only [State.record, kinds_append, kinds_ended, List.append_nil] at this ⊢
    rw [this, hpending.1]
    rfl
  · simp only [State.record, List.mem_append, List.mem_singleton, reduceCtorEq, or_false]
    exact h.returned
  · simp only [State.record, kinds_append, kinds_ended, List.append_nil]
    intro hmem
    rcases hnext with ⟨-, hne⟩ | hex
    · rcases h.removed hmem with hc | he
      · rw [hd] at hc
        exact absurd (Dispatcher.callback.inj hc) hne
      · rw [hd] at he
        cases he
    · exact Or.inr hex
  · simp only [State.record, kinds_append, kinds_ended, List.append_nil]
    exact h.last

theorem Calls.dropped {s : State} (h : Calls s) : Calls (State.record { s with dropper := .returned } .returned) := by
  have hsingle : (kinds (s.log ++ [.returned])).length =
      (s.log ++ [Event.returned]).count Event.ended + s.dispatcher.inCallback.toNat := by
    rw [kinds_append, List.length_append, h.single, List.count_append]
    simp
  refine ⟨?_, ?_, hsingle, balanced_concat h.balanced hsingle (by cases s.dispatcher.inCallback <;> decide), ?_, ?_⟩
  · simp only [State.record, kinds_append, kinds_returned, List.append_nil]
    exact h.order
  · simp [State.record]
  · simp only [State.record, kinds_append, kinds_returned, List.append_nil]
    exact h.removed
  · simp only [State.record, kinds_append, kinds_returned, List.append_nil]
    exact h.last

theorem dispatchStep_calls {s s' : State} (h : Calls s) (hs : dispatchStep s = some s') : Calls s' := by
  have horder := h.order
  unfold dispatchStep at hs
  cases hd : s.dispatcher <;> rw [hd] at hs horder <;> simp only at hs
  case recv =>
    split at hs <;> cases hs
    · rename_i queue hq
      refine h.quiet rfl ?_ Iff.rfl (Or.inr (by rw [hd]; simp [Dispatcher.inCallback]))
      rw [horder, hq]
      rfl
    · rename_i n queue hq
      refine h.quiet rfl ?_ Iff.rfl (Or.inr (by rw [hd]; simp [Dispatcher.inCallback]))
      rw [horder, hq, List.filterMap_cons]
      simp only [Dispatcher.pending, Msg.callback]
      cases n.callback <;> rfl
  case handling n =>
    split at hs <;> cases hs
    · rename_i kind hk
      exact h.began hd hk
    · rename_i hk
      refine h.quiet rfl ?_ Iff.rfl (Or.inr (by rw [hd]; simp [Dispatcher.inCallback]))
      rw [horder]
      simp only [Dispatcher.pending, hk]
  case callback | exited => cases hs

theorem dropStep_calls {s s' : State} (h : Calls s) (hs : dropStep s = some s') : Calls s' := by
  unfold dropStep at hs
  cases hd : s.dropper <;> rw [hd] at hs <;> simp only at hs
  case take =>
    cases hs
    exact h.quiet rfl h.order (by rw [hd]; simp) (Or.inl rfl)
  case send =>
    cases hs
    by_cases hex : s.dispatcher = .exited
    · rw [State.push, if_pos hex]
      exact h.quiet rfl h.order (by rw [hd]; simp) (Or.inl rfl)
    · rw [State.push, if_neg hex]
      refine h.quiet rfl ?_ (by rw [hd]; simp) (Or.inl rfl)
      rw [h.order, List.filterMap_append]
      simp [Msg.callback]
  case check =>
    split at hs <;> cases hs
    · exact h.dropped
    · exact h.quiet rfl h.order (by rw [hd]; simp) (Or.inl rfl)
  case join =>
    split at hs <;> cases hs
    exact h.dropped
  case idle | returned => cases hs

/-- **Every step keeps the account of the callbacks.** -/
theorem step_calls {s s' : State} {a : Action} (h : Calls s) (hs : step s a = some s') : Calls s' := by
  cases a with
  | dispatch => exact dispatchStep_calls h hs
  | dropper => exact dropStep_calls h hs
  | notify n =>
    simp only [step] at hs
    split at hs <;> cases hs
    by_cases hex : s.dispatcher = .exited
    · rw [if_pos hex]
      exact h
    · rw [if_neg hex, State.push, if_neg hex]
      refine h.quiet rfl ?_ Iff.rfl (Or.inl rfl)
      simp only [List.filterMap_append, h.order, List.append_assoc, List.append_cancel_left_eq]
      rfl
  | finish panicked =>
    simp only [step] at hs
    split at hs
    · rename_i kind hd
      split at hs <;> cases hs
      apply h.ended hd
      by_cases hp : panicked = true ∨ kind = .removed
      · rw [if_pos hp]
        exact Or.inr rfl
      · rw [if_neg hp]
        exact Or.inl ⟨rfl, fun hrem => hp (Or.inr hrem)⟩
    · cases hs
  | beginDrop onDispatcher =>
    simp only [step] at hs
    split at hs <;> cases hs
    rename_i hidle
    exact h.quiet rfl h.order (by simp [hidle.1]) (Or.inl rfl)

/-! ## Callbacks after the drop -/

/-- No message of the queue turns into a callback. -/
def NoBacklog (s : State) : Prop := ∀ m ∈ s.queue, m.callback = none

/-- The condition on a drop inside the callback, when it drops the watcher: the callback reports `Removed`, or no queued
message turns into a callback. -/
def Clear (s : State) (a : Action) : Prop :=
  a = .dropper → s.dropper = .take → s.onDispatcher = true → s.dispatcher = .callback .removed ∨ NoBacklog s

/-- Nothing is left to call back: the dispatcher exits before it would call again. -/
def Hushed (s : State) : Prop :=
  s.dispatcher = .exited ∨ s.dispatcher = .callback .removed ∨ NoBacklog s ∧ s.dispatcher.pending = none

/-- The drop is past the watcher. -/
def Dropper.deaf : Dropper → Bool
  | .send | .check | .join | .returned => true
  | _ => false

theorem Hushed.dispatch {s s' : State} (h : Hushed s) (hs : dispatchStep s = some s') : Hushed s' := by
  unfold dispatchStep at hs
  rcases h with he | hc | ⟨hback, hpend⟩
  · rw [he] at hs
    cases hs
  · rw [hc] at hs
    cases hs
  · cases hd : s.dispatcher <;> rw [hd] at hs hpend <;> simp only at hs
    case recv =>
      split at hs <;> cases hs
      · exact Or.inl rfl
      · rename_i n queue hq
        refine Or.inr (Or.inr ⟨?_, ?_⟩)
        · intro m hm
          exact hback m (by rw [hq]; exact List.mem_cons_of_mem _ hm)
        · exact hback (.event n) (by rw [hq]; exact List.mem_cons_self)
    case handling n =>
      split at hs <;> cases hs
      · rename_i kind hk
        rw [Dispatcher.pending, hk] at hpend
        cases hpend
      · exact Or.inr (Or.inr ⟨hback, rfl⟩)
    case callback | exited => cases hs

theorem Hushed.finish {s s' : State} {panicked : Bool} (h : Hushed s) (hs : step s (.finish panicked) = some s') :
    Hushed s' := by
  simp only [step] at hs
  split at hs
  · rename_i kind hd
    split at hs <;> cases hs
    rcases h with he | hc | ⟨hback, -⟩
    · rw [hd] at he
      cases he
    · rw [hd] at hc
      left
      simp [State.record, Dispatcher.callback.inj hc]
    · by_cases hp : panicked = true ∨ kind = .removed
      · left
        simp [State.record, hp]
      · right; right
        exact ⟨hback, by simp [State.record, hp, Dispatcher.pending]⟩
  · cases hs

/-- **A step past the watcher keeps the dispatcher hushed**, and the step that drops the watcher does, if it is clear. -/
theorem step_hushed {s s' : State} {a : Action} (hc : Core s) (hclear : Clear s a)
    (h : s.onDispatcher = true → s.dropper.deaf = true → Hushed s) (hs : step s a = some s') :
    s'.onDispatcher = true → s'.dropper.deaf = true → Hushed s' := by
  intro hon hdeaf
  cases a with
  | dispatch =>
    have hsame : s'.onDispatcher = s.onDispatcher ∧ s'.dropper = s.dropper := by
      simp only [step, dispatchStep] at hs
      split at hs
      · split at hs <;> cases hs <;> exact ⟨rfl, rfl⟩
      · split at hs <;> cases hs <;> exact ⟨rfl, rfl⟩
      · cases hs
      · cases hs
    rw [hsame.1] at hon
    rw [hsame.2] at hdeaf
    exact (h hon hdeaf).dispatch hs
  | finish panicked =>
    have hsame : s'.onDispatcher = s.onDispatcher ∧ s'.dropper = s.dropper := by
      simp only [step] at hs
      split at hs
      · split at hs <;> cases hs
        exact ⟨rfl, rfl⟩
      · cases hs
    rw [hsame.1] at hon
    rw [hsame.2] at hdeaf
    exact (h hon hdeaf).finish hs
  | notify n =>
    simp only [step] at hs
    split at hs <;> cases hs
    rename_i hw
    have : s.dropper.deaf = true := by
      split at hdeaf
      · exact hdeaf
      · rw [State.push_dropper] at hdeaf
        exact hdeaf
    cases hd : s.dropper <;> rw [hd] at hw this <;> cases hw <;> cases this
  | beginDrop onDispatcher =>
    simp only [step] at hs
    split at hs <;> cases hs
    cases hdeaf
  | dropper =>
    simp only [step, dropStep] at hs
    split at hs
    · rename_i hd
      cases hs
      rcases hclear rfl hd hon with hrem | hback
      · exact Or.inr (Or.inl hrem)
      · have hin := hc.inside hon (by rw [hd]; rfl)
        refine Or.inr (Or.inr ⟨hback, ?_⟩)
        cases hdd : s.dispatcher <;> rw [hdd] at hin <;> first | rfl | cases hin
    · rename_i hd
      cases hs
      rw [State.push_onDispatcher] at hon
      rcases h hon (by rw [hd]; rfl) with he | hcb | ⟨hback, hpend⟩
      · exact Or.inl (by rw [State.push_dispatcher]; exact he)
      · exact Or.inr (Or.inl (by rw [State.push_dispatcher]; exact hcb))
      · refine Or.inr (Or.inr ⟨?_, by rw [State.push_dispatcher]; exact hpend⟩)
        intro m hm
        rcases State.mem_push hm with hm | rfl
        · exact hback m hm
        · rfl
    · rename_i hd
      have hh := fun hon' => h hon' (by rw [hd]; rfl)
      split at hs <;> cases hs <;> exact hh hon
    · rename_i hd
      have hh := fun hon' => h hon' (by rw [hd]; rfl)
      split at hs <;> cases hs
      exact hh hon
    · cases hs
    · cases hs

/-- **A callback begins in a step only from a notice that was received**, so never in a hushed state. -/
theorem step_log {s s' : State} {a : Action} (hs : step s a = some s') :
    s'.log = s.log ∨ ∃ e, s'.log = s.log ++ [e] ∧
      ∀ kind, e = .began kind → ∃ n, s.dispatcher = .handling n ∧ n.callback = some kind := by
  cases a with
  | dispatch =>
    simp only [step, dispatchStep] at hs
    split at hs
    · split at hs <;> cases hs <;> exact Or.inl rfl
    · rename_i n hd
      split at hs <;> cases hs
      · rename_i kind hk
        refine Or.inr ⟨_, rfl, ?_⟩
        intro kind' he
        cases he
        exact ⟨n, hd, hk⟩
      · exact Or.inl rfl
    · cases hs
    · cases hs
  | finish panicked =>
    simp only [step] at hs
    split at hs
    · split at hs <;> cases hs
      exact Or.inr ⟨_, rfl, fun kind he => by cases he⟩
    · cases hs
  | notify n =>
    simp only [step, State.push] at hs
    split at hs <;> cases hs
    left
    split <;> rfl
  | beginDrop onDispatcher =>
    simp only [step] at hs
    split at hs <;> cases hs
    exact Or.inl rfl
  | dropper =>
    simp only [step, dropStep, State.push] at hs
    split at hs
    · cases hs
      exact Or.inl rfl
    · cases hs
      left
      show (if _ then _ else _ : State).log = _
      split <;> rfl
    · split at hs <;> cases hs
      · exact Or.inr ⟨_, rfl, fun kind he => by cases he⟩
      · exact Or.inl rfl
    · split at hs <;> cases hs
      exact Or.inr ⟨_, rfl, fun kind he => by cases he⟩
    · cases hs
    · cases hs

/-- No callback begins after the drop returned. -/
def NoneLate (log : List Event) : Prop := log.Pairwise (fun a b => a = .returned → ∀ kind, b ≠ .began kind)

structure Inv (s : State) : Prop where
  core : Core s
  calls : Calls s

theorem run_inv {acts : List Action} {s : State} (hr : run step State.init acts = some s) : Inv s :=
  run_invariant Inv (fun _ _ _ h hs => ⟨step_core h.core hs, step_calls h.calls hs⟩) acts State.init s
    ⟨core_init, calls_init⟩ hr

theorem step_noneLate {s s' : State} {a : Action} (h : Inv s)
    (hh : s.onDispatcher = true → s.dropper.deaf = true → Hushed s) (hlate : NoneLate s.log) (hs : step s a = some s') :
    NoneLate s'.log := by
  rcases step_log hs with heq | ⟨e, heq, hbegan⟩
  · rw [heq]
    exact hlate
  · rw [heq, NoneLate, List.pairwise_append]
    refine ⟨hlate, List.pairwise_singleton _ _, ?_⟩
    intro x hx y hy hret kind hkind
    rw [List.mem_singleton.1 hy] at hkind
    obtain ⟨n, hd, hk⟩ := hbegan kind hkind
    have hdrop := h.calls.returned.1 (hret ▸ hx)
    cases hon : s.onDispatcher with
    | false =>
      rw [h.core.joined hon hdrop] at hd
      cases hd
    | true =>
      rcases hh hon (by rw [hdrop]; rfl) with he | hc | ⟨-, hpend⟩
      · rw [hd] at he
        cases he
      · rw [hd] at hc
        cases hc
      · rw [hd, Dispatcher.pending, hk] at hpend
        cases hpend

/-- **In a run whose drop is clear no callback begins after it returned.** -/
theorem run_noneLate {acts : List Action} {s : State} (hr : run step State.init acts = some s)
    (hclear : EachStep step State.init Clear acts) :
    NoneLate s.log ∧ (s.onDispatcher = true → s.dropper.deaf = true → Hushed s) := by
  refine run_induction (fun acts s => EachStep step State.init Clear acts →
    NoneLate s.log ∧ (s.onDispatcher = true → s.dropper.deaf = true → Hushed s)) ?_ ?_ acts s hr hclear
  · intro _
    exact ⟨List.Pairwise.nil, fun _ hdeaf => by cases hdeaf⟩
  · intro acts a s s' hrun ih hs hclear
    obtain ⟨hbefore, ha⟩ := (eachStep_concat hrun).1 hclear
    obtain ⟨hlate, hh⟩ := ih hbefore
    have hinv := run_inv hrun
    exact ⟨step_noneLate hinv hh hlate hs, step_hushed hinv.core ha hh hs⟩

/-- The dispatcher works through its queue up to the first notice that turns into a callback. -/
theorem drain : ∀ (ns : List Notice) (rest : List Msg) (s : State), s.dispatcher = .recv →
    s.queue = ns.map .event ++ rest → (∃ n ∈ ns, n.callback ≠ none) →
    ∃ s' kind, Reaches step s s' ∧ s'.log = s.log ++ [.began kind]
  | [], _, _, _, _, h => by
    obtain ⟨n, hn, -⟩ := h
    cases hn
  | n :: ns, rest, s, hd, hq, h => by
    rw [List.map_cons, List.cons_append] at hq
    have hrecv : step s .dispatch = some { s with queue := ns.map .event ++ rest, dispatcher := .handling n } := by
      simp only [step, dispatchStep, hd, hq]
    cases hk : n.callback with
    | some kind =>
      have hcall : step { s with queue := ns.map .event ++ rest, dispatcher := .handling n } .dispatch =
          some (State.record { s with queue := ns.map .event ++ rest, dispatcher := .callback kind } (.began kind)) := by
        simp only [step, dispatchStep, hk]
      exact ⟨_, kind, Reaches.head hrecv (Reaches.single hcall), rfl⟩
    | none =>
      have hskip : step { s with queue := ns.map .event ++ rest, dispatcher := .handling n } .dispatch =
          some { s with queue := ns.map .event ++ rest, dispatcher := .recv } := by
        simp only [step, dispatchStep, hk]
      have hns : ∃ n ∈ ns, n.callback ≠ none := by
        obtain ⟨m, hm, hne⟩ := h
        rcases List.mem_cons.1 hm with rfl | hm
        · exact absurd hk hne
        · exact ⟨m, hm, hne⟩
      obtain ⟨s', kind, hr, hlog⟩ := drain ns rest
        { s with queue := ns.map .event ++ rest, dispatcher := .recv } rfl rfl hns
      exact ⟨s', kind, Reaches.head hrecv (Reaches.head hskip hr), hlog⟩

theorem queue_notices {queue : List Msg} (h : .shutdown ∉ queue) : ∃ ns : List Notice, queue = ns.map .event := by
  induction queue with
  | nil => exact ⟨[], rfl⟩
  | cons m queue ih =>
    obtain ⟨ns, hns⟩ := ih (fun hmem => h (List.mem_cons_of_mem _ hmem))
    cases m with
    | event n => exact ⟨n :: ns, by rw [hns]; rfl⟩
    | shutdown => exact absurd List.mem_cons_self h

/-- **Where the condition fails, a callback can begin after the drop returned.** -/
theorem late_of_not_clear {s : State} {a : Action} (h : Core s) (hnot : ¬ Clear s a) :
    ∃ acts s', run step s acts = some s' ∧ ¬ NoneLate s'.log := by
  simp only [Clear, Classical.not_imp, not_or, NoBacklog, not_forall] at hnot
  obtain ⟨-, hd, hon, hrem, m, hm, hback⟩ := hnot
  have hin := h.inside hon (by rw [hd]; rfl)
  obtain ⟨kind, hkind⟩ : ∃ kind, s.dispatcher = .callback kind := by
    cases hdd : s.dispatcher <;> rw [hdd] at hin <;> first | exact ⟨_, rfl⟩ | cases hin
  have hne : kind ≠ .removed := by
    intro he
    exact hrem (by rw [hkind, he])
  obtain ⟨ns, hns⟩ := queue_notices (h.noShutdown (Or.inl (by rw [hd]; rfl)))
  have hdrop : run step s [.dropper, .dropper, .dropper, .finish false] =
      some ⟨s.queue ++ [.shutdown], .recv, .returned, true, s.sent, s.log ++ [.returned] ++ [.ended]⟩ := by
    simp [run_cons, step, dropStep, hd, State.push, hkind, hon, State.record, Dropper.running, hne]
  have hyield : ∃ n ∈ ns, n.callback ≠ none := by
    rw [hns] at hm
    obtain ⟨n, hn, rfl⟩ := List.mem_map.1 hm
    exact ⟨n, hn, hback⟩
  obtain ⟨s', kind', ⟨acts, hacts⟩, hlog⟩ := drain ns [.shutdown]
    ⟨s.queue ++ [.shutdown], .recv, .returned, true, s.sent, s.log ++ [.returned] ++ [.ended]⟩ rfl (by rw [hns]) hyield
  refine ⟨[.dropper, .dropper, .dropper, .finish false] ++ acts, s', ?_, ?_⟩
  · rw [run_append, hdrop]
    exact hacts
  · intro hlate
    rw [hlog, NoneLate, List.pairwise_append] at hlate
    exact hlate.2.2 .returned (by simp) (.began kind') (by simp) rfl kind' rfl

/-- **The watch and the drop of its handle**, over every run: a drop inside the callback always has its next step; callbacks
do not overlap, follow the order of the notices, and none follows one that reported `Removed`; no callback begins after a
clear drop returned, and one can begin after a drop that is not clear. -/
theorem watch_drop {acts : List Action} {s : State} (hr : run step State.init acts = some s) :
    (s.onDispatcher = true → s.dropper.running = true → ∃ s', step s .dropper = some s') ∧
    (∀ pre, pre <+: s.log → pre.count .ended ≤ (kinds pre).length ∧ (kinds pre).length ≤ pre.count .ended + 1) ∧
    kinds s.log <+: s.sent.filterMap Notice.callback ∧
    (kinds s.log).Pairwise (fun a _ => a ≠ .removed) ∧
    (EachStep step State.init Clear acts → NoneLate s.log) ∧
    ∀ a, ¬ Clear s a → ∃ acts' s', run step s acts' = some s' ∧ ¬ NoneLate s'.log := by
  have h := run_inv hr
  refine ⟨?_, h.calls.balanced, ?_, h.calls.last, fun hclear => (run_noneLate hr hclear).1,
    fun a hnot => late_of_not_clear h.core hnot⟩
  · intro hon hrun
    simp only [step, dropStep]
    cases hd : s.dropper
    case take | send => exact ⟨_, rfl⟩
    case check =>
      rw [if_pos hon]
      exact ⟨_, rfl⟩
    case join => exact absurd hd (h.core.noJoin hon)
    case idle | returned =>
      rw [hd] at hrun
      cases hrun
  · rw [h.calls.order]
    exact List.prefix_append _ _

/-- A drop inside the callback with nothing queued: `Shutdown` is next. -/
theorem watch_drop_idle : ∃ s, run step State.init [.notify .error, .dispatch, .dispatch, .beginDrop true, .dropper, .dropper,
    .dropper, .finish false, .dispatch] = some s ∧ s.dispatcher = .exited ∧ NoneLate s.log ∧
    kinds s.log <+: s.sent.filterMap Notice.callback := by
  have hr : run step State.init [.notify .error, .dispatch, .dispatch, .beginDrop true, .dropper, .dropper, .dropper,
      .finish false, .dispatch] =
      some ⟨[], .exited, .returned, true, [.error], [.began .modified, .returned, .ended]⟩ := by decide
  exact ⟨_, hr, rfl, by simp [NoneLate], (watch_drop hr).2.2.1⟩

/-- **A drop inside the callback with an event queued behind it**: the callback runs once more after the drop returned. -/
theorem late_callback : ¬ ∀ acts s, run step State.init acts = some s → NoneLate s.log := by
  intro h
  have hr : run step State.init [.notify (.event (.modify .data)), .notify (.event (.modify .data)), .dispatch, .dispatch,
      .beginDrop true, .dropper, .dropper, .dropper, .finish false, .dispatch, .dispatch] =
      some ⟨[.shutdown], .callback .modified, .returned, true, [.event (.modify .data), .event (.modify .data)],
        [.began .modified, .returned, .ended, .began .modified]⟩ := by decide
  have hlate := h _ _ hr
  simp [NoneLate] at hlate

end Watch
end MmapIo
