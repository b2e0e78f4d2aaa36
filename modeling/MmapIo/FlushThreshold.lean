import MmapIo.AccountStep
/-!
# FlushThreshold — the automatic flushes under concurrency

A call whose own `fetch_add` brings a counter to the threshold of the policy swaps the counter later, however the other
calls add and swap in between: a counter at or above the threshold has a call that is still to swap it, or one whose flush
failed (`step_threshold`).  A policy without a threshold flushes nothing on its own.
-/
namespace MmapIo
namespace Account

open Word

/-- The bytes at which the policy flushes. -/
def bytesThreshold : FlushPolicy → Option Nat
  | .always => some 1
  | .everyBytes n => if n > 0 then some n else none
  | _ => none

/-- The writes at which the policy flushes. -/
def writesThreshold : FlushPolicy → Option Nat
  | .everyWrites w => if w > 0 then some w else none
  | _ => none

theorem due_of_bytes {policy : FlushPolicy} {n pending : Nat} (h : bytesThreshold policy = some n) (hn : n ≤ pending)
    (writes : Nat) : policy.due pending writes = true := by
  cases policy with
  | always => rfl
  | everyBytes m =>
    simp only [bytesThreshold] at h
    split at h
    · rename_i hm
      cases h
      exact decide_eq_true ⟨hm, hn⟩
    · cases h
  | never | manual | everyWrites | everyMillis => cases h

theorem due_of_writes {policy : FlushPolicy} {w writes : Nat} (h : writesThreshold policy = some w) (hw : w ≤ writes)
    (pending : Nat) : policy.due pending writes = true := by
  cases policy with
  | everyWrites m =>
    simp only [writesThreshold] at h
    split at h
    · rename_i hm
      cases h
      exact decide_eq_true ⟨hm, hw⟩
    · cases h
  | never | manual | always | everyBytes | everyMillis => cases h

theorem bytesThreshold_pos {policy : FlushPolicy} {n : Nat} (h : bytesThreshold policy = some n) : 0 < n := by
  cases policy with
  | always =>
    cases h
    decide
  | everyBytes m =>
    simp only [bytesThreshold] at h
    split at h
    · rename_i hm
      cases h
      exact hm
    · cases h
  | never | manual | everyWrites | everyMillis => cases h

theorem writesThreshold_pos {policy : FlushPolicy} {w : Nat} (h : writesThreshold policy = some w) : 0 < w := by
  cases policy with
  | everyWrites m =>
    simp only [writesThreshold] at h
    split at h
    · rename_i hm
      cases h
      exact hm
    · cases h
  | never | manual | always | everyBytes | everyMillis => cases h

/-- A wrapped sum is at most the saturated one: whoever brings a counter to a threshold sees it there. -/
theorem wrappingAdd_le_saturatingAdd (a b : Nat) : wrappingAdd 64 a b ≤ saturatingAdd 64 a b := by
  unfold wrappingAdd saturatingAdd
  have hlt := Nat.mod_lt (a + b) (show 0 < 2 ^ 64 by decide)
  exact Nat.le_min.2 ⟨Nat.mod_le _ _, by omega⟩

/-- `update_region`, `try_update_region`, `SegmentMut::write` and `flush`. -/
def Op.updateOrFlush : Op → Bool
  | .updateRegion _ _ | .tryUpdateRegion _ _ | .segmentWrite _ _ _ | .flush => true
  | _ => false

def Pc.updateOrFlush : Pc → Prop
  | .idle | .uLock _ _ _ | .uCheck _ _ _ | .uStore _ _ _ | .uUnlock _ | .tLock _ _ | .tCheck _ _ | .tStore _ _ _ | .tDowngrade
  | .countBytes _ _ | .countWrites _ _ | .fLock _ | .fSwapBytes _ | .fSwapWrites _ _ | .fSync _ _ _ | .fSyncing _ _ _
  | .fRestoreBytes _ _ _ | .fRestoreWrites _ _ | .unlockWrite _ | .unlockRead _ | .done _ => True
  | _ => False

/-- The call returns, or will return, an error. -/
def Pc.failing : Pc → Prop
  | .fRestoreBytes _ _ _ | .fRestoreWrites _ _ | .unlockWrite (.error _) | .unlockRead (.error _) | .done (.error _) => True
  | _ => False

/-- Who asked for the flush that a call is about to do. -/
def Pc.cause : Pc → Option Cause
  | .tDowngrade => some .policy
  | .fLock c | .fSwapBytes c | .fSwapWrites c _ | .fSync c _ _ => some c
  | _ => none

/-- The call is still to swap the counter of bytes, having seen it at `n` or more, or whatever it is. -/
def Pc.swapsBytes (n : Nat) : Pc → Prop
  | .countWrites _ pending => n ≤ pending
  | .tDowngrade | .fLock _ | .fSwapBytes _ => True
  | _ => False

/-- The call is still to swap the counter of writes. -/
def Pc.swapsWrites : Pc → Prop
  | .tDowngrade | .fLock _ | .fSwapBytes _ | .fSwapWrites _ _ => True
  | _ => False

variable {V : Type}

/-- What one step of these calls does to the counters and to the flushes. -/
inductive Turn (cfg : Config) (g : Shared V) : Pc → Shared V → Pc → Prop
  /-- locking, checking, storing, and a call of which nothing is left -/
  | work {p p' : Pc} {lock : RwLock V} {log : List (Stored V)} (hf : ¬ p.failing) (hc : p.cause = none)
      (hp : ∀ held pending, p ≠ .countWrites held pending) (hc' : p'.cause = none) :
      Turn cfg g p { g with lock := lock, log := log } p'
  | countBytes {held : Bool} {len : Nat} :
      Turn cfg g (.countBytes held len) (g.addBytes len) (.countWrites held (saturatingAdd 64 g.written len))
  | countWrites {held : Bool} {pending : Nat} {p' : Pc} (hc : p'.cause =
      if cfg.policy.due pending (saturatingAdd 64 g.writes 1) then some .policy else none)
      (hs : cfg.policy.due pending (saturatingAdd 64 g.writes 1) = true → p' = .tDowngrade ∨ p' = .fLock .policy) :
      Turn cfg g (.countWrites held pending) { g with writes := wrappingAdd 64 g.writes 1 } p'
  | lock {p : Pc} {c : Cause} {lock : RwLock V} (hp : p = .tDowngrade ∧ c = .policy ∨ p = .fLock c) :
      Turn cfg g p { g with lock := lock } (.fSwapBytes c)
  | swapBytes {c : Cause} : Turn cfg g (.fSwapBytes c) g.takeBytes (.fSwapWrites c g.written)
  | swapWrites {c : Cause} {bytes : Nat} :
      Turn cfg g (.fSwapWrites c bytes) { g with writes := 0 } (.fSync c bytes g.writes)
  | sync {c : Cause} {bytes writes : Nat} :
      Turn cfg g (.fSync c bytes writes) { g with flushes := g.flushes ++ [c] } (.fSyncing bytes writes g.log.length)
  | fail {bytes writes mark : Nat} {text : String} :
      Turn cfg g (.fSyncing bytes writes mark) g (.fRestoreBytes bytes writes text)
  | restoreBytes {bytes writes : Nat} {text : String} :
      Turn cfg g (.fRestoreBytes bytes writes text) (g.addBytes bytes) (.fRestoreWrites writes text)
  | restoreWrites {writes : Nat} {text : String} : Turn cfg g (.fRestoreWrites writes text)
      { g with writes := wrappingAdd 64 g.writes writes } (.unlockRead (.error (.flushFailed text)))
  /-- the guard is dropped and the call returns -/
  | finish {p : Pc} {r : Except MmapIoError Unit} {lock : RwLock V} (hp : p = .unlockWrite r ∨ p = .unlockRead r) :
      Turn cfg g p { g with lock := lock } (.done r)

/-- One step of a call keeps a threshold: a failing call goes on failing, a call that is to swap does, and a counter that
reaches the threshold is seen there. -/
structure Keeps (swaps : Pc → Prop) (p p' : Pc) (low low' : Prop) : Prop where
  failing : p.failing → p'.failing
  swapping : swaps p → swaps p' ∨ low'
  low : low → p'.failing ∨ swaps p' ∨ low'

theorem cause_of_swapsWrites {p : Pc} (h : p.swapsWrites) : p.cause ≠ none := by
  cases p
  case tDowngrade | fLock | fSwapBytes | fSwapWrites => exact nofun
  all_goals cases h

theorem cause_of_swapsBytes {n : Nat} {p : Pc} (h : p.swapsBytes n) :
    p.cause ≠ none ∨ ∃ held pending, p = .countWrites held pending := by
  cases p
  case countWrites held pending => exact Or.inr ⟨held, pending, rfl⟩
  case tDowngrade | fLock | fSwapBytes => exact Or.inl nofun
  all_goals cases h

theorem failing_done {p : Pc} {r : Except MmapIoError Unit} (hp : p = .unlockWrite r ∨ p = .unlockRead r) (h : p.failing) :
    (Pc.done r).failing := by
  rcases hp with rfl | rfl <;> cases r <;> exact h

theorem Keeps.quiet {swaps : Pc → Prop} {p p' : Pc} {low : Prop} (hf : p.failing → p'.failing) (hs : ¬ swaps p) :
    Keeps swaps p p' low low := ⟨hf, fun h => absurd h hs, fun h => Or.inr (Or.inr h)⟩

variable {cfg : Config} {g g' : Shared V} {p p' : Pc}

theorem Turn.keepsBytes {n : Nat} (hn : bytesThreshold cfg.policy = some n) (h : Turn cfg g p g' p') :
    Keeps (Pc.swapsBytes n) p p' (g.written < n) (g'.written < n) := by
  cases h with
  | work hf hc hp hc' =>
    refine .quiet (fun h => absurd h hf) (fun hs => ?_)
    rcases cause_of_swapsBytes hs with hne | ⟨held, pending, heq⟩
    · exact hne hc
    · exact hp held pending heq
  | countBytes =>
    refine ⟨nofun, nofun, fun _ => ?_⟩
    -- whoever brings the counter to the threshold sees at least what is there
    rcases Nat.lt_or_ge (wrappingAdd 64 g.written _) n with hlt | hge
    · exact Or.inr (Or.inr hlt)
    · exact Or.inr (Or.inl (Nat.le_trans hge (wrappingAdd_le_saturatingAdd ..)))
  | countWrites hc hs =>
    refine ⟨nofun, fun hpending => Or.inl ?_, fun hl => Or.inr (Or.inr hl)⟩
    rcases hs (due_of_bytes hn hpending _) with rfl | rfl <;> trivial
  | lock hp =>
    refine ⟨fun hf => ?_, fun _ => Or.inl trivial, fun hl => Or.inr (Or.inr hl)⟩
    rcases hp with ⟨rfl, -⟩ | rfl <;> cases hf
  | swapBytes =>
    have hzero : g.takeBytes.written < n := bytesThreshold_pos hn
    exact ⟨nofun, fun _ => Or.inr hzero, fun _ => Or.inr (Or.inr hzero)⟩
  | swapWrites => exact .quiet nofun id
  | sync => exact .quiet nofun id
  | fail => exact .quiet nofun id
  | restoreBytes => exact ⟨fun _ => trivial, nofun, fun _ => Or.inl trivial⟩
  | restoreWrites => exact .quiet (fun _ => trivial) id
  | finish hp =>
    refine .quiet (failing_done hp) ?_
    rcases hp with rfl | rfl <;> exact id

theorem Turn.keepsWrites {w : Nat} (hw : writesThreshold cfg.policy = some w) (h : Turn cfg g p g' p') :
    Keeps Pc.swapsWrites p p' (g.writes < w) (g'.writes < w) := by
  cases h with
  | work hf hc hp hc' => exact .quiet (fun h => absurd h hf) (fun hs => cause_of_swapsWrites hs hc)
  | countBytes => exact .quiet nofun id
  | countWrites hc hs =>
    refine ⟨nofun, nofun, fun _ => ?_⟩
    rcases Nat.lt_or_ge (wrappingAdd 64 g.writes 1) w with hlt | hge
    · exact Or.inr (Or.inr hlt)
    · refine Or.inr (Or.inl ?_)
      rcases hs (due_of_writes hw (Nat.le_trans hge (wrappingAdd_le_saturatingAdd ..)) _) with rfl | rfl <;> trivial
  | lock hp =>
    refine ⟨fun hf => ?_, fun _ => Or.inl trivial, fun hl => Or.inr (Or.inr hl)⟩
    rcases hp with ⟨rfl, -⟩ | rfl <;> cases hf
  | swapBytes => exact ⟨nofun, fun _ => Or.inl trivial, fun hl => Or.inr (Or.inr hl)⟩
  | swapWrites =>
    have hzero : 0 < w := writesThreshold_pos hw
    exact ⟨nofun, fun _ => Or.inr hzero, fun _ => Or.inr (Or.inr hzero)⟩
  | sync => exact .quiet nofun id
  | fail => exact .quiet nofun id
  | restoreBytes => exact .quiet (fun _ => trivial) id
  | restoreWrites => exact ⟨fun _ => trivial, nofun, fun _ => Or.inl trivial⟩
  | finish hp =>
    refine .quiet (failing_done hp) ?_
    rcases hp with rfl | rfl <;> exact id

/-- Under a policy that never asks for one, a flush that is about to be done was asked for by its caller. -/
theorem Turn.explicit (hdue : ∀ pending writes, cfg.policy.due pending writes = false) (h : Turn cfg g p g' p')
    (hp : ∀ c, p.cause = some c → c = .explicit) (hg : ∀ c ∈ g.flushes, c = .explicit) :
    (∀ c, p'.cause = some c → c = .explicit) ∧ ∀ c ∈ g'.flushes, c = .explicit := by
  have hnone : p'.cause = none → ∀ c, p'.cause = some c → c = .explicit := by
    intro hc' c hc
    rw [hc'] at hc
    cases hc
  cases h with
  | work hf hc hpc hc' => exact ⟨hnone hc', hg⟩
  | countWrites hc hs =>
    rw [hdue] at hc
    exact ⟨hnone hc, hg⟩
  | lock hpc =>
    refine ⟨fun c hcc => hp c ?_, hg⟩
    cases hcc
    rcases hpc with ⟨rfl, rfl⟩ | rfl <;> rfl
  | swapBytes => exact ⟨fun c hcc => hp c hcc, hg⟩
  | swapWrites => exact ⟨fun c hcc => hp c hcc, hg⟩
  | sync =>
    refine ⟨nofun, fun c hc => ?_⟩
    rcases List.mem_append.1 hc with hc | hc
    · exact hg c hc
    · rw [List.mem_singleton] at hc
      exact hp c (hc ▸ rfl)
  | countBytes => exact ⟨nofun, hg⟩
  | fail => exact ⟨nofun, hg⟩
  | restoreBytes => exact ⟨nofun, hg⟩
  | restoreWrites => exact ⟨nofun, hg⟩
  | finish => exact ⟨nofun, hg⟩

/-- The counter is low, or a call is still to swap it, or one failed. -/
def Guarded (swaps : Pc → Prop) (pc : V → Pc) (low : Prop) : Prop :=
  (∃ v, (pc v).failing) ∨ low ∨ ∃ v, swaps (pc v)

/-- At rest nobody is still to swap, and only a call that returned an error has failed. -/
theorem Guarded.at_rest {swaps : Pc → Prop} {pc : V → Pc} {low : Prop} (h : Guarded swaps pc low)
    (hidle : ¬ swaps .idle) (hdone : ∀ r, ¬ swaps (.done r)) (hrest : ∀ v, (pc v).resting = true)
    (hok : ∀ v e, pc v ≠ .done (.error e)) : low := by
  rcases h with ⟨v, hv⟩ | hlow | ⟨v, hv⟩
  · have hr := hrest v
    cases hpc : pc v <;> rw [hpc] at hr hv
    case done r =>
      cases r with
      | ok => cases hv
      | error e => exact absurd hpc (hok v e)
    case idle => cases hv
    all_goals cases hr
  · exact hlow
  · have hr := hrest v
    cases hpc : pc v <;> rw [hpc] at hr hv
    case idle => exact absurd hv hidle
    case done r => exact absurd hv (hdone r)
    all_goals cases hr

/-! ## Along a run -/

variable [DecidableEq V]

theorem micro_turn {cfg : Config} {os : Os} {conflict : Option Conflict} {g g' : Shared V} {v : V} {p p' : Pc}
    (hp : p.updateOrFlush) (h : micro cfg os conflict g v p = some (g', p')) : Turn cfg g p g' p' ∧ p'.updateOrFlush := by
  have hwork : ∀ {q q' : Pc}, ¬ q.failing → q.cause = none → (∀ held pending, q ≠ .countWrites held pending) →
      q'.cause = none → Turn cfg g q g q' := fun hf hc hq hc' => .work hf hc hq hc'
  cases p
  case uStore pos rest len | tStore pos rest len =>
    cases rest <;> cases h <;> exact ⟨.work id rfl nofun rfl, trivial⟩
  case uLock =>
    simp only [micro, Option.map_eq_some_iff] at h
    obtain ⟨l, -, h⟩ := h
    cases h
    exact ⟨.work id rfl nofun rfl, trivial⟩
  case fLock =>
    simp only [micro, Option.map_eq_some_iff] at h
    obtain ⟨l, -, h⟩ := h
    cases h
    exact ⟨.lock (Or.inr rfl), trivial⟩
  case uCheck | tCheck =>
    simp only [micro] at h
    split at h
    · cases h
      exact ⟨hwork id rfl nofun rfl, trivial⟩
    · cases h
      exact ⟨hwork id rfl nofun rfl, trivial⟩
  case tLock =>
    simp only [micro] at h
    split at h
    · cases h
      exact ⟨.work id rfl nofun rfl, trivial⟩
    · cases h
      exact ⟨hwork id rfl nofun rfl, trivial⟩
  case countWrites held pending =>
    simp only [micro, Option.some.injEq, Prod.mk.injEq] at h
    obtain ⟨rfl, rfl⟩ := h
    cases hdue : cfg.policy.due pending (saturatingAdd 64 g.writes 1) <;> cases held <;>
      exact ⟨.countWrites (by rw [hdue]; rfl) (by rw [hdue]; simp), trivial⟩
  case fSyncing bytes writes mark =>
    simp only [micro] at h
    split at h
    · cases h
      exact ⟨.work id rfl nofun rfl, trivial⟩
    · cases h
      exact ⟨.fail, trivial⟩
  case tDowngrade =>
    cases h
    exact ⟨.lock (Or.inl ⟨rfl, rfl⟩), trivial⟩
  case uUnlock =>
    cases h
    exact ⟨.work id rfl nofun rfl, trivial⟩
  case unlockWrite =>
    cases h
    exact ⟨.finish (Or.inl rfl), trivial⟩
  case unlockRead =>
    cases h
    exact ⟨.finish (Or.inr rfl), trivial⟩
  case countBytes | fSwapBytes | fSwapWrites | fSync | fRestoreBytes | fRestoreWrites =>
    cases h
    exact ⟨by constructor, trivial⟩
  case idle | done => cases h
  all_goals cases hp

theorem Keeps.guarded {swaps : Pc → Prop} {pc : V → Pc} {v : V} {p' : Pc} {low low' : Prop}
    (hk : Keeps swaps (pc v) p' low low') (h : Guarded swaps pc low) : Guarded swaps (Function.update pc v p') low' := by
  have hnew : ∀ {Q : Pc → Prop}, Q p' → ∃ u, Q (Function.update pc v p' u) :=
    fun hQ => ⟨v, by rw [Function.update_self]; exact hQ⟩
  have hother : ∀ {Q : Pc → Prop} {u : V}, u ≠ v → Q (pc u) → ∃ u, Q (Function.update pc v p' u) :=
    fun {_ u} hu hQ => ⟨u, by rw [Function.update_of_ne hu]; exact hQ⟩
  rcases h with ⟨u, hu⟩ | hlow | ⟨u, hu⟩
  · by_cases huv : u = v
    · subst huv
      exact Or.inl (hnew (hk.failing hu))
    · exact Or.inl (hother huv hu)
  · rcases hk.low hlow with hf | hs | hl
    · exact Or.inl (hnew hf)
    · exact Or.inr (Or.inr (hnew hs))
    · exact Or.inr (Or.inl hl)
  · by_cases huv : u = v
    · subst huv
      rcases hk.swapping hu with hs | hl
      · exact Or.inr (Or.inr (hnew hs))
      · exact Or.inr (Or.inl hl)
    · exact Or.inr (Or.inr (hother huv hu))

def Action.updateOrFlush : Action V → Bool
  | .call _ op => op.updateOrFlush
  | _ => true

/-- Where an update or a flush starts, if it does not return at once. -/
theorem start_cases {op : Op} (h : op.updateOrFlush = true) :
    (∃ r, op.start = .done r) ∨ (∃ offset data span, op.start = .uLock offset data span) ∨
      (∃ offset data, op.start = .tLock offset data) ∨ op.start = .fLock .explicit := by
  cases op
  case updateRegion =>
    simp only [Op.start]
    split
    · exact Or.inl ⟨_, rfl⟩
    · exact Or.inr (Or.inl ⟨_, _, _, rfl⟩)
  case tryUpdateRegion =>
    simp only [Op.start]
    split
    · exact Or.inl ⟨_, rfl⟩
    · exact Or.inr (Or.inr (Or.inl ⟨_, _, rfl⟩))
  case segmentWrite =>
    simp only [Op.start]
    split
    · exact Or.inl ⟨_, rfl⟩
    · split
      · exact Or.inl ⟨_, rfl⟩
      · exact Or.inr (Or.inl ⟨_, _, _, rfl⟩)
  case flush => exact Or.inr (Or.inr (Or.inr rfl))
  all_goals cases h

theorem start_updateOrFlush {op : Op} (h : op.updateOrFlush = true) : op.start.updateOrFlush ∧
    (∀ c, op.start.cause = some c → c = .explicit) := by
  rcases start_cases h with ⟨r, hs⟩ | ⟨offset, data, span, hs⟩ | ⟨offset, data, hs⟩ | hs <;> rw [hs]
  · exact ⟨trivial, nofun⟩
  · exact ⟨trivial, nofun⟩
  · exact ⟨trivial, nofun⟩
  · refine ⟨trivial, fun c hc => ?_⟩
    cases hc
    rfl

theorem updateOrFlush_window {p : Pc} (hp : p.updateOrFlush) : p.window = none ∧ ∀ ok, leavePc ok p = none := by
  cases p
  case sHeld | cChunk | aHeld => cases hp
  all_goals exact ⟨rfl, fun _ => rfl⟩

/-- **An action of these calls is a call or one step of one.** -/
theorem step_updateOrFlush {cfg : Config} {s s' : State V} {a : Action V} (ha : a.updateOrFlush = true)
    (hp : ∀ v, (s.pc v).updateOrFlush) (h : step cfg s a = some s') :
    ∃ v g p', s' = ⟨g, Function.update s.pc v p'⟩ ∧ p'.updateOrFlush ∧
      (s.pc v = .idle ∧ g = s.shared ∧ (∃ op : Op, op.updateOrFlush = true ∧ p' = op.start) ∨
        ∃ os conflict, micro cfg os conflict s.shared v (s.pc v) = some (g, p')) := by
  cases a with
  | call v op =>
    simp only [step] at h
    split at h
    swap
    · cases h
    rename_i hidle
    cases h
    exact ⟨v, s.shared, op.start, rfl, (start_updateOrFlush ha).1, Or.inl ⟨hidle, rfl, op, ha, rfl⟩⟩
  | advance v os conflict =>
    simp only [step, Option.map_eq_some_iff] at h
    obtain ⟨⟨g, p⟩, hm, rfl⟩ := h
    exact ⟨v, g, p, rfl, (micro_turn (hp v) hm).2, Or.inr ⟨os, conflict, hm⟩⟩
  | store v offset byte =>
    simp only [step, (updateOrFlush_window (hp v)).1] at h
    cases h
  | leave v ok =>
    simp only [step, (updateOrFlush_window (hp v)).2 ok] at h
    cases h

theorem step_turn {cfg : Config} {s s' : State V} {a : Action V} (ha : a.updateOrFlush = true)
    (hp : ∀ v, (s.pc v).updateOrFlush) (h : step cfg s a = some s') :
    ∃ v p', s'.pc = Function.update s.pc v p' ∧ p'.updateOrFlush ∧
      (s.pc v = .idle ∧ s'.shared = s.shared ∧ (∀ c, p'.cause = some c → c = .explicit) ∨
        Turn cfg s.shared (s.pc v) s'.shared p') := by
  obtain ⟨v, g, p, rfl, hp', ⟨hidle, hg, op, hop, rfl⟩ | ⟨os, conflict, hm⟩⟩ := step_updateOrFlush ha hp h
  · exact ⟨v, _, rfl, hp', Or.inl ⟨hidle, hg, (start_updateOrFlush hop).2⟩⟩
  · exact ⟨v, p, rfl, hp', Or.inr (micro_turn (hp v) hm).1⟩

structure PolicyInv (cfg : Config) (s : State V) : Prop where
  updateOrFlush : ∀ v, (s.pc v).updateOrFlush
  bytes : ∀ n, bytesThreshold cfg.policy = some n → Guarded (Pc.swapsBytes n) s.pc (s.shared.written < n)
  writes : ∀ w, writesThreshold cfg.policy = some w → Guarded Pc.swapsWrites s.pc (s.shared.writes < w)
  explicit : (∀ pending writes, cfg.policy.due pending writes = false) →
    (∀ v c, (s.pc v).cause = some c → c = .explicit) ∧ ∀ c ∈ s.shared.flushes, c = .explicit

/-- **Every action keeps the thresholds.** -/
theorem step_threshold {cfg : Config} {s s' : State V} {a : Action V} (ha : a.updateOrFlush = true) (hi : PolicyInv cfg s)
    (h : step cfg s a = some s') : PolicyInv cfg s' := by
  obtain ⟨v, p, hpc, hp, hcase⟩ := step_turn ha hi.updateOrFlush h
  obtain ⟨g, pc⟩ := s'
  subst hpc
  have hidle : ∀ {swaps : Pc → Prop} {low : Prop}, s.pc v = .idle → ¬ swaps .idle → Keeps swaps (s.pc v) p low low :=
    fun hv hs => by rw [hv]; exact .quiet nofun hs
  refine ⟨?_, fun n hn => ?_, fun w hw => ?_, fun hdue => ?_⟩
  · exact (Function.forall_update_iff s.pc (fun _ q => q.updateOrFlush)).2 ⟨hp, fun u _ => hi.updateOrFlush u⟩
  · rcases hcase with ⟨hv, hg, -⟩ | hturn
    · cases hg
      exact (hidle hv id).guarded (hi.bytes n hn)
    · exact (hturn.keepsBytes hn).guarded (hi.bytes n hn)
  · rcases hcase with ⟨hv, hg, -⟩ | hturn
    · cases hg
      exact (hidle hv id).guarded (hi.writes w hw)
    · exact (hturn.keepsWrites hw).guarded (hi.writes w hw)
  · obtain ⟨hcause, hflushes⟩ := hi.explicit hdue
    obtain ⟨hnew, hflushes'⟩ : (∀ c, p.cause = some c → c = .explicit) ∧ ∀ c ∈ g.flushes, c = .explicit := by
      rcases hcase with ⟨hv, hg, hc⟩ | hturn
      · cases hg
        exact ⟨hc, hflushes⟩
      · exact hturn.explicit hdue (hcause v) hflushes
    refine ⟨?_, hflushes'⟩
    exact (Function.forall_update_iff s.pc (fun _ q => ∀ c, q.cause = some c → c = .explicit)).2
      ⟨hnew, fun u _ => hcause u⟩

theorem run_threshold {cfg : Config} {acts : List (Action V)} {s : State V} (hops : ∀ a ∈ acts, a.updateOrFlush = true)
    (hr : Machine.run (step cfg) State.init acts = some s) : PolicyInv cfg s := by
  refine Machine.run_induction_of (fun _ s => PolicyInv cfg s) ?_ (fun _ _ _ _ ha ih h => step_threshold ha ih h) acts s hr hops
  refine ⟨fun v => trivial, fun n hn => ?_, fun w hw => ?_, fun _ => ⟨nofun, nofun⟩⟩
  · exact Or.inr (Or.inl (bytesThreshold_pos hn))
  · exact Or.inr (Or.inl (writesThreshold_pos hw))

/-- **The automatic flush thresholds hold under concurrency.**  Whatever updates and flushes run, in any interleaving: at
rest, if every call returned `Ok`, the counters are below the threshold of the policy; and under a policy without one no
flush was done but those that were called. -/
theorem flush_thresholds (cfg : Config) (acts : List (Action V)) (s : State V)
    (hr : Machine.run (step cfg) State.init acts = some s) (hops : ∀ a ∈ acts, a.updateOrFlush = true) :
    ((∀ v, (s.pc v).resting = true) → (∀ v e, s.pc v ≠ .done (.error e)) →
      (cfg.policy = .always → s.shared.written = 0) ∧
      (∀ n, cfg.policy = .everyBytes n → 0 < n → s.shared.written < n) ∧
      (∀ w, cfg.policy = .everyWrites w → 0 < w → s.shared.writes < w)) ∧
    (cfg.policy = .never ∨ cfg.policy = .manual ∨ cfg.policy = .everyBytes 0 ∨ cfg.policy = .everyWrites 0 →
      ∀ c ∈ s.shared.flushes, c = .explicit) := by
  have hi := run_threshold hops hr
  constructor
  · intro hrest hok
    have hbytes : ∀ n, bytesThreshold cfg.policy = some n → s.shared.written < n :=
      fun n hn => (hi.bytes n hn).at_rest id (fun _ => id) hrest hok
    refine ⟨fun hp => ?_, fun n hp hn => ?_, fun w hp hw => ?_⟩
    · exact Nat.lt_one_iff.1 (hbytes 1 (by rw [hp]; rfl))
    · exact hbytes n (by rw [hp]; exact if_pos hn)
    · exact (hi.writes w (by rw [hp]; exact if_pos hw)).at_rest id (fun _ => id) hrest hok
  · intro hp
    refine (hi.explicit (fun pending writes => ?_)).2
    rcases hp with hp | hp | hp | hp <;> rw [hp] <;> rfl

def Pc.isOk : Pc → Bool
  | .done (.ok ()) => true
  | _ => false

theorem isOk_resting {p : Pc} (h : p.isOk = true) : p.resting = true ∧ ∀ e, p ≠ .done (.error e) := by
  cases p
  case done r =>
    cases r with
    | ok => exact ⟨rfl, nofun⟩
    | error e => cases h
  all_goals cases h

/-- Two updates of three bytes: the second counts its bytes first, the first crosses `EveryBytes(5)` and flushes both. -/
def crossingUpdates : List (Action Bool) :=
  [.call true (.updateRegion 0 [1, 2, 3])] ++ List.replicate 7 (.advance true Os.ok none) ++
  [.call false (.updateRegion 4 [4, 5, 6])] ++ List.replicate 8 (.advance false Os.ok none) ++
  List.replicate 2 (.advance true Os.ok none) ++ [.advance false Os.ok none] ++ List.replicate 6 (.advance true Os.ok none)

theorem flush_thresholds_crossingUpdates : ∃ s : State Bool,
    Machine.run (step ⟨linux64.width, 8, .everyBytes 5⟩) State.init crossingUpdates = some s ∧
    s.shared.flushes = [.policy] ∧ s.shared.written < 5 := by
  have hd : (Machine.run (step ⟨linux64.width, 8, .everyBytes 5⟩) State.init crossingUpdates).map (fun s =>
      (s.shared.flushes, (s.pc true).isOk, (s.pc false).isOk)) = some ([.policy], true, true) := by decide +kernel
  obtain ⟨s, hs, h⟩ := Option.map_eq_some_iff.1 hd
  simp only [Prod.mk.injEq] at h
  obtain ⟨hf, htrue, hfalse⟩ := h
  have hok : ∀ v, (s.pc v).isOk = true := by
    rintro (_ | _)
    · exact hfalse
    · exact htrue
  have hres := (flush_thresholds _ crossingUpdates s hs (by decide)).1
    (fun v => (isOk_resting (hok v)).1) (fun v => (isOk_resting (hok v)).2)
  exact ⟨s, hs, hf, hres.2.1 5 rfl (by decide)⟩

end Account
end MmapIo
