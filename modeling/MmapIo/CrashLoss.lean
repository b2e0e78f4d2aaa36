import Mathlib.Algebra.BigOperators.Group.Finset.Piecewise
import Mathlib.Order.Interval.Finset.Nat
import MmapIo.Account
import MmapIo.FlushThreshold
import MmapIo.Lib.Backing
/-!
# CrashLoss — what a crash can take back

The machine of `AccountStep`, and a crash in the middle of it.  The OS may have written any byte back at any time, so after a
crash an offset holds what it held at some moment no earlier than its last durable store (`Crash`).  The bytes counted are an
account of the offsets stored to since (`Ledger.Backing`): in every state, `pending_bytes()` and what the calls in progress
have yet to count or took for their flush bound the number of bytes a crash loses.  Under an automatic policy that number is
below the threshold.
-/
namespace MmapIo
namespace Account

open Word Machine Ledger

variable {V : Type}

/-! ## A crash -/

/-- The byte last stored at an offset, if there is one. -/
def contentAt (log : List (Stored V)) (offset : Nat) : Option UInt8 :=
  (log.filter (fun e => decide (e.offset = offset))).getLast?.map Stored.byte

/-- What a crash may leave: every offset as it was when the log held `j` stores, its durable ones among them. -/
def Crash (log : List (Stored V)) (after : Nat → Option UInt8) : Prop :=
  ∀ offset, ∃ j, (∀ i e, log[i]? = some e → e.offset = offset → e.durable = true → i < j) ∧
    after offset = contentAt (log.take j) offset

/-- An offset whose stores are all durable keeps its byte. -/
theorem Crash.content {log : List (Stored V)} {after : Nat → Option UInt8} (h : Crash log after) {offset : Nat}
    (hd : ∀ e ∈ log, e.offset = offset → e.durable = true) : after offset = contentAt log offset := by
  obtain ⟨j, hj, hafter⟩ := h offset
  rw [hafter]
  have hdrop : (log.drop j).filter (fun e => decide (e.offset = offset)) = [] := by
    refine List.filter_eq_nil_iff.2 (fun e he => ?_)
    rw [decide_eq_true_eq]
    intro hoff
    obtain ⟨i, hi⟩ := List.getElem?_of_mem he
    rw [List.getElem?_drop] at hi
    have hlt := hj (j + i) e hi hoff (hd e (List.mem_of_getElem? hi) hoff)
    omega
  have hfilter : (log.take j).filter (fun e => decide (e.offset = offset)) =
      log.filter (fun e => decide (e.offset = offset)) := by
    conv_rhs => rw [← List.take_append_drop j log, List.filter_append, hdrop, List.append_nil]
  unfold contentAt
  rw [hfilter]

/-! ## The bytes of a call -/

/-- The offsets a call has stored to, or may store to next. -/
def Pc.reach : Pc → Option (Finset Nat)
  | .uStore pos rest len | .tStore pos rest len => some (Finset.Ico (pos + rest.length - len) (pos + rest.length))
  | .sHeld start stop | .aHeld start stop => some (Finset.Ico start stop)
  | .cNext _ offset => some (Finset.Ico 0 offset)
  | .cChunk _ _ stop => some (Finset.Ico 0 stop)
  | _ => none

theorem reach_card {p : Pc} {F : Finset Nat} (h : p.reach = some F) : F.card ≤ p.owes := by
  cases p
  case uStore pos rest len | tStore pos rest len =>
    cases h
    rw [Nat.card_Ico]
    simp only [Pc.owes]
    omega
  case sHeld | aHeld | cNext | cChunk =>
    cases h
    rw [Nat.card_Ico]
    exact Nat.le_refl _
  all_goals cases h

/-- One step of a call keeps to its offsets. -/
structure Keeping (g : Shared V) (v : V) (p : Pc) (g' : Shared V) (p' : Pc) : Prop where
  accounts : Accounts g v p g' p'
  sound : p'.sound
  reach : ∀ F', p'.reach = some F' → p.owes = 0 ∨ ∃ F, p.reach = some F ∧ F ⊆ F'
  stores : ∀ offset byte, g' = g.store v offset byte → 0 < p.owes → ∃ F, p.reach = some F ∧ offset ∈ F

theorem ne_store (g : Shared V) (v : V) (offset : Nat) (byte : UInt8) {log : List (Stored V)} (hlog : log.length = g.log.length) :
    log ≠ (g.store v offset byte).log := by
  intro h
  have hlen := congrArg List.length h
  rw [hlog, Shared.store, List.length_append, List.length_singleton] at hlen
  omega

variable [DecidableEq V]

theorem micro_reach {cfg : Config} {os : Os} {conflict : Option Conflict} {g g' : Shared V} {v : V} {p p' : Pc}
    (h : micro cfg os conflict g v p = some (g', p')) {F' : Finset Nat} (hF : p'.reach = some F') :
    p.owes = 0 ∨ ∃ F, p.reach = some F ∧ F ⊆ F' := by
  cases p
  case uStore pos rest len | tStore pos rest len =>
    cases rest with
    | nil =>
      cases h
      cases hF
    | cons byte rest =>
      cases h
      cases hF
      refine Or.inr ⟨_, rfl, ?_⟩
      rw [List.length_cons, show pos + 1 + rest.length = pos + (rest.length + 1) by omega]
  case cNext chunkSize offset =>
    simp only [micro] at h
    split at h
    · cases h
      cases hF
      exact Or.inr ⟨_, rfl, Finset.Ico_subset_Ico_right (Nat.le_add_right ..)⟩
    · cases h
      cases hF
  case uUnlock | countBytes | sCount | cCount | aCount =>
    cases h
    cases hF
  case sHeld | cChunk | aHeld => cases h
  all_goals exact Or.inl rfl

theorem micro_stores {cfg : Config} {os : Os} {conflict : Option Conflict} {g : Shared V} {v : V} {p p' : Pc}
    {offset : Nat} {byte : UInt8} (hs : p.sound) (h : micro cfg os conflict g v p = some (g.store v offset byte, p'))
    (hpos : 0 < p.owes) : ∃ F, p.reach = some F ∧ offset ∈ F := by
  cases p
  case uStore pos rest len | tStore pos rest len =>
    cases rest with
    | nil =>
      simp only [micro, Option.some.injEq, Prod.mk.injEq] at h
      exact absurd (congrArg Shared.log h.1) (ne_store g v offset byte rfl)
    | cons b rest =>
      simp only [micro, Option.some.injEq, Prod.mk.injEq] at h
      have hlog := congrArg Shared.log h.1
      simp only [Shared.store, List.append_cancel_left_eq, List.cons.injEq, Stored.mk.injEq] at hlog
      obtain ⟨⟨-, rfl, -, -⟩, -⟩ := hlog
      refine ⟨_, rfl, Finset.mem_Ico.2 ⟨?_, ?_⟩⟩
      · simp only [Pc.sound, List.length_cons] at hs ⊢
        omega
      · simp only [List.length_cons]
        omega
  case cNext chunkSize off =>
    simp only [micro] at h
    split at h
    · simp only [Option.some.injEq, Prod.mk.injEq] at h
      exact absurd (congrArg Shared.log h.1) (ne_store g v offset byte rfl)
    · simp only [Option.some.injEq, Prod.mk.injEq] at h
      exact absurd (congrArg Shared.log h.1) (ne_store g v offset byte rfl)
  case uUnlock | countBytes | sCount | cCount | aCount =>
    simp only [micro, Option.some.injEq, Prod.mk.injEq] at h
    exact absurd (congrArg Shared.log h.1) (ne_store g v offset byte rfl)
  case sHeld | cChunk | aHeld => cases h
  all_goals cases hpos

theorem leavePc_reach {ok : Bool} {p p' : Pc} (h : leavePc ok p = some p') {F' : Finset Nat} (hF : p'.reach = some F') :
    p.reach = some F' := by
  cases p
  case sHeld | aHeld =>
    cases h
    cases hF
  case cChunk chunkSize start stop =>
    cases h
    cases ok
    · cases hF
    · exact hF
  all_goals cases h

omit [DecidableEq V] in
theorem window_reach {p : Pc} {start stop : Nat} (h : p.window = some (start, stop)) {offset : Nat} (hlo : start ≤ offset)
    (hhi : offset < stop) : ∃ F, p.reach = some F ∧ offset ∈ F := by
  cases p
  case sHeld | aHeld =>
    cases h
    exact ⟨_, rfl, Finset.mem_Ico.2 ⟨hlo, hhi⟩⟩
  case cChunk =>
    cases h
    exact ⟨_, rfl, Finset.mem_Ico.2 ⟨Nat.zero_le _, hhi⟩⟩
  all_goals cases h

/-- **An action keeps to the offsets of its call.** -/
theorem step_keeping {cfg : Config} {s s' : State V} {a : Action V} (hs : ∀ v, (s.pc v).sound)
    (h : step cfg s a = some s') :
    ∃ v p', s'.pc = Function.update s.pc v p' ∧ Keeping s.shared v (s.pc v) s'.shared p' := by
  cases a with
  | call v op =>
    simp only [step] at h
    split at h
    swap
    · cases h
    rename_i hidle
    cases h
    obtain ⟨ho, ht, hsound⟩ := start_owes op
    refine ⟨v, op.start, rfl, ?_⟩
    rw [hidle]
    refine ⟨.quiet (Nat.zero_le _) ht, hsound, fun F hF => Or.inl rfl, fun offset byte _ hpos => ?_⟩
    cases hpos
  | advance v os conflict =>
    simp only [step, Option.map_eq_some_iff] at h
    obtain ⟨⟨g, p⟩, hm, rfl⟩ := h
    obtain ⟨hacc, hsound⟩ := micro_accounts (hs v) hm
    refine ⟨v, p, rfl, hacc, hsound, fun F hF => micro_reach hm hF, fun offset byte hg hpos => ?_⟩
    simp only at hg
    rw [hg] at hm
    exact micro_stores (hs v) hm hpos
  | store v offset byte =>
    simp only [step] at h
    split at h
    swap
    · cases h
    rename_i start stop hw
    split at h
    swap
    · cases h
    rename_i hin
    cases h
    refine ⟨v, s.pc v, (Function.update_eq_self v s.pc).symm, .store (window_owes hw hin.1 hin.2) rfl rfl, hs v,
      fun F hF => Or.inr ⟨F, hF, Finset.Subset.refl F⟩, fun off b hg _ => ?_⟩
    have hlog := congrArg Shared.log hg
    simp only [Shared.store, List.append_cancel_left_eq, List.cons.injEq, Stored.mk.injEq] at hlog
    obtain ⟨⟨-, rfl, -, -⟩, -⟩ := hlog
    exact window_reach hw hin.1 hin.2
  | leave v ok =>
    simp only [step, Option.map_eq_some_iff] at h
    obtain ⟨p, hp, rfl⟩ := h
    obtain ⟨ho, ht, hsound⟩ := leavePc_owes hp
    refine ⟨v, p, rfl, .quiet ho ht, hsound, fun F hF => Or.inr ⟨F, leavePc_reach hp hF, Finset.Subset.refl F⟩,
      fun offset byte hg _ => ?_⟩
    exact absurd (congrArg Shared.log hg) (ne_store s.shared v offset byte rfl)

/-! ## The offsets behind the counter -/

def State.offsets (s : State V) : List Nat := s.shared.log.map Stored.offset

/-- **Every store is durable or among the offsets of an account**, and a call's own are those it may have stored to. -/
def Backed (s : State V) : Prop :=
  ∃ b : Backing V Nat, b.Backs s.offsets s.ledger ∧ ∀ v F, (s.pc v).reach = some F → b.owes v ⊆ F

structure BackedInv (s : State V) : Prop where
  inv : Inv s
  backed : s.shared.peak < 2 ^ 64 → Backed s

omit [DecidableEq V] in
theorem settle_offsets (g : Shared V) (mark : Nat) (p : Nat → Bool) :
    (g.settle mark p).log.map Stored.offset = g.log.map Stored.offset := by
  refine List.ext_getElem? (fun i => ?_)
  rw [List.getElem?_map, List.getElem?_map, getElem?_settle, Option.map_map]
  congr 1
  funext e
  simp only [Function.comp_apply]
  split
  · rfl
  · rfl

omit [DecidableEq V] in
/-- A step stores a byte of a call that owes it, or changes no offset of the log. -/
theorem Accounts.log_cases {g g' : Shared V} {v : V} {p p' : Pc} (h : Accounts g v p g' p') :
    (∃ offset byte, g' = g.store v offset byte ∧ 0 < p.owes ∧ p'.owes = p.owes ∧ p'.taken = p.taken) ∨
      g'.log.map Stored.offset = g.log.map Stored.offset ∧ g'.log.map Stored.writer = g.log.map Stored.writer := by
  cases h with
  | store hpos ho ht => exact Or.inl ⟨_, _, rfl, hpos, ho, ht⟩
  | settle | more => exact Or.inr ⟨settle_offsets .., (settle_keeps ..).1⟩
  | quiet | count | take | start | fail | restore => exact Or.inr ⟨rfl, rfl⟩

theorem ledger_store {s : State V} {v : V} {p : Pc} (offset : Nat) (byte : UInt8) (ho : p.owes = (s.pc v).owes)
    (ht : p.taken = (s.pc v).taken) : State.ledger ⟨s.shared.store v offset byte, Function.update s.pc v p⟩ =
      { s.ledger with log := s.ledger.log ++ [v] } := by
  have howes : Function.update (Pc.owes ∘ s.pc) v p.owes = Pc.owes ∘ s.pc := by
    rw [ho]
    exact Function.update_eq_self v (Pc.owes ∘ s.pc)
  have htaken : Function.update (Pc.taken ∘ s.pc) v p.taken = Pc.taken ∘ s.pc := by
    rw [ht]
    exact Function.update_eq_self v (Pc.taken ∘ s.pc)
  rw [ledger_update, howes, htaken, durableAt_store, Shared.store, List.map_append]
  rfl

/-- **A step keeps every store backed**, while the counter is what was counted. -/
theorem Keeping.backed {s : State V} {v : V} {g : Shared V} {p : Pc} (hw : s.shared.written = s.shared.counted)
    (h : Keeping s.shared v (s.pc v) g p) (hb : Backed s) : Backed ⟨g, Function.update s.pc v p⟩ := by
  obtain ⟨b, hbacks, hreach⟩ := hb
  rcases h.accounts.log_cases with ⟨offset, byte, rfl, hpos, ho, ht⟩ | ⟨hoffsets, hwriters⟩
  · -- the new offset is one the call may store to, and of these it owes as many as there are
    obtain ⟨F, hF, hmem⟩ := h.stores offset byte rfl hpos
    have hsub : insert offset (b.owes v) ⊆ F := Finset.insert_subset hmem (hreach v F hF)
    have hroom : (insert offset (b.owes v)).card ≤ s.ledger.owes v :=
      Nat.le_trans (Finset.card_le_card hsub) (reach_card hF)
    refine ⟨{ b with owes := Function.update b.owes v (insert offset (b.owes v)) }, ?_, ?_⟩
    · rw [ledger_store offset byte ho ht, State.offsets, Shared.store, List.map_append]
      exact hbacks.store hroom
    · intro u F' hF'
      by_cases huv : u = v
      · subst huv
        simp only [Function.update_self] at hF' ⊢
        rcases h.reach F' hF' with hz | ⟨F₀, hF₀, hsub'⟩
        · omega
        · rw [hF] at hF₀
          cases hF₀
          exact Finset.Subset.trans hsub hsub'
      · simp only [Function.update_of_ne huv] at hF' ⊢
        exact hreach u F' hF'
  · obtain ⟨b', hb', hle⟩ := hbacks.effect (h.accounts.effect hw) hwriters
    refine ⟨b', ?_, ?_⟩
    · unfold State.offsets
      rw [hoffsets]
      exact hb'
    · intro u F' hF'
      refine Finset.Subset.trans (hle u) ?_
      by_cases huv : u = v
      · subst huv
        simp only [Function.update_self] at hF'
        rcases h.reach F' hF' with hz | ⟨F₀, hF₀, hsub'⟩
        · have hcard : (b.owes u).card ≤ (s.pc u).owes := hbacks.owes u
          rw [hz] at hcard
          rw [Finset.card_eq_zero.1 (Nat.le_zero.1 hcard)]
          exact Finset.empty_subset _
        · exact Finset.Subset.trans (hreach u F₀ hF₀) hsub'
      · simp only [Function.update_of_ne huv] at hF'
        exact hreach u F' hF'

theorem step_backed {cfg : Config} {s s' : State V} {a : Action V} (hi : BackedInv s) (h : step cfg s a = some s') :
    BackedInv s' := by
  refine ⟨step_inv hi.inv h, fun hlt => ?_⟩
  obtain ⟨v, p, hpc, hkeep⟩ := step_keeping hi.inv.sound h
  obtain ⟨g, pc⟩ := s'
  subst hpc
  have hpeak := Nat.lt_of_le_of_lt hkeep.accounts.counter.1 hlt
  exact hkeep.backed (hi.inv.covered hpeak).1 (hi.backed hpeak)

theorem run_backed {cfg : Config} {acts : List (Action V)} {s : State V} (hr : Machine.run (step cfg) State.init acts = some s) :
    BackedInv s := by
  refine Machine.run_invariant BackedInv (fun _ _ _ hi h => step_backed hi h) acts _ s ⟨init_inv, fun _ => ?_⟩ hr
  exact ⟨Backing.empty, Backing.empty_backs rfl, fun v F hF => Finset.empty_subset _⟩

/-- What a call has yet to count, or took for its flush. -/
def Pc.outstanding (p : Pc) : Nat := p.owes + amount p.taken

omit [DecidableEq V] in
/-- Outside the offsets of the open accounts a crash loses nothing. -/
theorem BackedInv.lost {s : State V} (hi : BackedInv s) (hpeak : s.shared.peak < 2 ^ 64) (live : Finset V)
    (hlive : ∀ v, v ∉ live → (s.pc v).resting = true) :
    ∃ S : Finset Nat, S.card ≤ s.shared.written + ∑ v ∈ live, (s.pc v).outstanding ∧
      ∀ after, Crash s.shared.log after → ∀ offset, offset ∉ S → after offset = contentAt s.shared.log offset := by
  obtain ⟨b, hbacks, -⟩ := hi.backed hpeak
  obtain ⟨S, hcard, hS⟩ := hbacks.outstanding live (fun v hv => (resting_owes (hlive v hv)).1)
    (fun v hv => (resting_owes (hlive v hv)).2)
  refine ⟨S, ?_, fun after hafter offset hoff => hafter.content (fun e he heo => ?_)⟩
  · rw [(hi.inv.covered hpeak).1]
    exact hcard
  · by_contra hd
    obtain ⟨i, hi'⟩ := List.getElem?_of_mem he
    refine hoff (hS i offset ?_ ?_)
    · rw [State.offsets, List.getElem?_map, hi', Option.map_some, heo]
    · rintro ⟨e', he', hd'⟩
      rw [hi'] at he'
      cases he'
      exact hd hd'

inductive Caller where
  | first
  | second
  | third
  deriving DecidableEq, Repr

/-- An update owes one write from before its first store until it counts it. -/
def Pc.owesWrite : Pc → Nat
  | .uStore _ _ _ | .uUnlock _ | .tStore _ _ _ | .countBytes _ _ | .countWrites _ _ => 1
  | _ => 0

/-- The writes a flush took from the counter, and the length of the log when its sync started. -/
def Pc.takenWrites : Pc → Option (Nat × Option Nat)
  | .fSync _ _ writes | .fRestoreBytes _ writes _ | .fRestoreWrites writes _ => some (writes, none)
  | .fSyncing _ writes mark => some (writes, some mark)
  | _ => none

def State.callers (s : State V) : List V := s.shared.log.map Stored.writer

/-- The ledger of the writes. -/
def State.writeLedger (s : State V) : Ledger V :=
  { log := s.callers
    durable := durableAt s.shared.log
    counted := s.shared.writes
    owes := Pc.owesWrite ∘ s.pc
    taken := Pc.takenWrites ∘ s.pc }

/-- What one step of an update or a flush does to the accounting of the writes. -/
inductive CountsWrite (g : Shared V) (v : V) (p : Pc) (g' : Shared V) (p' : Pc) : Prop
  | quiet (hlog : g'.log = g.log) (hw : g'.writes = g.writes) (ho : p.owesWrite ≤ p'.owesWrite)
      (ht : p'.takenWrites = p.takenWrites)
  | store (offset : Nat) (byte : UInt8) (hg : g' = g.store v offset byte) (hp : p.owesWrite = 1)
      (ho : p'.owesWrite = p.owesWrite) (ht : p'.takenWrites = p.takenWrites)
  | count (hlog : g'.log = g.log) (hw : g'.writes = wrappingAdd 64 g.writes 1) (hp : p.owesWrite = 1)
      (ho : p'.owesWrite = 0) (ht : p'.takenWrites = p.takenWrites)
  | take (hlog : g'.log = g.log) (hw : g'.writes = 0) (ho : p'.owesWrite = p.owesWrite) (hp : p.takenWrites = none)
      (ht : p'.takenWrites = some (g.writes, none))
  | start {n : Nat} (hlog : g'.log = g.log) (hw : g'.writes = g.writes) (ho : p'.owesWrite = p.owesWrite)
      (hp : p.takenWrites = some (n, none)) (ht : p'.takenWrites = some (n, some g.log.length))
  | settle {n mark : Nat} (hg : g' = g.settle mark (fun _ => true)) (ho : p'.owesWrite = p.owesWrite)
      (hp : p.takenWrites = some (n, some mark)) (ht : p'.takenWrites = none)
  | fail {n mark : Nat} (hlog : g'.log = g.log) (hw : g'.writes = g.writes) (ho : p'.owesWrite = p.owesWrite)
      (hp : p.takenWrites = some (n, some mark)) (ht : p'.takenWrites = some (n, none))
  | restore {n : Nat} (hlog : g'.log = g.log) (hw : g'.writes = wrappingAdd 64 g.writes n)
      (ho : p'.owesWrite = p.owesWrite) (hp : p.takenWrites = some (n, none)) (ht : p'.takenWrites = none)

theorem micro_countsWrite {cfg : Config} {os : Os} {conflict : Option Conflict} {g g' : Shared V} {v : V} {p p' : Pc}
    (hp : p.updateOrFlush) (h : micro cfg os conflict g v p = some (g', p')) : CountsWrite g v p g' p' := by
  cases p
  case uStore pos rest len | tStore pos rest len =>
    cases rest with
    | nil =>
      cases h
      exact .quiet rfl rfl (Nat.le_refl _) rfl
    | cons byte rest =>
      cases h
      exact .store pos byte rfl rfl rfl rfl
  case uLock | fLock =>
    simp only [micro, Option.map_eq_some_iff] at h
    obtain ⟨l, -, h⟩ := h
    cases h
    exact .quiet rfl rfl (Nat.le_refl _) rfl
  case uCheck | tCheck =>
    simp only [micro] at h
    split at h
    · cases h
      exact .quiet rfl rfl (Nat.le_refl _) rfl
    · cases h
      exact .quiet rfl rfl (Nat.zero_le _) rfl
  case tLock =>
    simp only [micro] at h
    split at h
    · cases h
      exact .quiet rfl rfl (Nat.le_refl _) rfl
    · cases h
      exact .quiet rfl rfl (Nat.le_refl _) rfl
  case countWrites held pending =>
    cases h
    refine .count rfl rfl rfl ?_ ?_
    · split <;> rfl
    · split <;> rfl
  case fSwapWrites =>
    cases h
    exact .take rfl rfl rfl rfl rfl
  case fSync =>
    cases h
    exact .start rfl rfl rfl rfl rfl
  case fSyncing =>
    simp only [micro] at h
    split at h
    · cases h
      exact .settle rfl rfl rfl rfl
    · cases h
      exact .fail rfl rfl rfl rfl rfl
  case fRestoreWrites =>
    cases h
    exact .restore rfl rfl rfl rfl rfl
  case idle | done => cases h
  case uUnlock | tDowngrade | countBytes | fSwapBytes | fRestoreBytes | unlockWrite | unlockRead =>
    cases h
    exact .quiet rfl rfl (Nat.le_refl _) rfl
  all_goals cases hp

theorem writeLedger_update (g : Shared V) (pc : V → Pc) (v : V) (p : Pc) :
    State.writeLedger ⟨g, Function.update pc v p⟩ = ⟨g.log.map Stored.writer, durableAt g.log, g.writes,
      Function.update (Pc.owesWrite ∘ pc) v p.owesWrite, Function.update (Pc.takenWrites ∘ pc) v p.takenWrites⟩ := by
  unfold State.writeLedger State.callers
  rw [Function.comp_update, Function.comp_update]

/-- **A step of the accounting of the writes** is a store by a call that owes a write, or an effect that stores nothing. -/
theorem CountsWrite.effect {s : State V} {v : V} {g : Shared V} {p : Pc}
    (hroom : s.shared.writes + amount (s.pc v).takenWrites + 1 < 2 ^ 64) (h : CountsWrite s.shared v (s.pc v) g p) :
    (State.writeLedger ⟨g, Function.update s.pc v p⟩ = { s.writeLedger with log := s.writeLedger.log ++ [v] } ∧
      s.writeLedger.owes v = 1) ∨
    Ledger.Effect v s.writeLedger (State.writeLedger ⟨g, Function.update s.pc v p⟩) ∧
      g.log.map Stored.writer = s.callers := by
  rw [writeLedger_update]
  cases h with
  | quiet hlog hw ho ht =>
    rw [hlog, hw, update_comp_eq ht]
    exact Or.inr ⟨.owe ho, rfl⟩
  | store offset byte hg hp ho ht =>
    rw [hg, durableAt_store, Shared.store, List.map_append, update_comp_eq ho, update_comp_eq ht]
    exact Or.inl ⟨rfl, hp⟩
  | count hlog hw hp ho ht =>
    have hsum : g.writes = s.shared.writes + 1 := by
      rw [hw]
      exact wrappingAdd_of_lt (by omega)
    rw [hlog, hsum, ho, update_comp_eq ht]
    have heffect := Ledger.Effect.count (v := v) (l := s.writeLedger)
    rw [show s.writeLedger.owes v = 1 from hp] at heffect
    exact Or.inr ⟨heffect, rfl⟩
  | take hlog hw ho hp ht =>
    rw [hlog, hw, ht, update_comp_eq ho]
    exact Or.inr ⟨.take hp, rfl⟩
  | start hlog hw ho hp ht =>
    rw [hlog, hw, ht, update_comp_eq ho]
    have heffect := Ledger.Effect.start (l := s.writeLedger) hp
    rw [show s.writeLedger.log.length = s.shared.log.length from List.length_map ..] at heffect
    exact Or.inr ⟨heffect, rfl⟩
  | settle hg ho hp ht =>
    rw [hg, ht, update_comp_eq ho, (settle_keeps ..).1]
    refine Or.inr ⟨.settle hp (fun i hi hd => ?_), rfl⟩
    rw [show s.writeLedger.log.length = s.shared.log.length from List.length_map ..] at hi
    rcases hd with hm | hd
    · exact settle_durable s.shared hm hi
    · exact (settle_keeps ..).2 hd
  | fail hlog hw ho hp ht =>
    rw [hlog, hw, ht, update_comp_eq ho]
    exact Or.inr ⟨.fail hp, rfl⟩
  | @restore n hlog hw ho hp ht =>
    rw [hp] at hroom
    have hsum : g.writes = s.shared.writes + n := by
      rw [hw]
      exact wrappingAdd_of_lt (Nat.lt_of_succ_lt hroom)
    rw [hlog, hsum, ht, update_comp_eq ho]
    exact Or.inr ⟨.restore hp, rfl⟩

omit [DecidableEq V] in
/-- A step adds at most one write to the counter and what the flushes took from it. -/
theorem CountsWrite.total {g g' : Shared V} {v : V} {p p' : Pc} (h : CountsWrite g v p g' p') :
    g'.writes + amount p'.takenWrites ≤ g.writes + amount p.takenWrites + 1 := by
  have hwrap : ∀ a b, wrappingAdd 64 a b ≤ a + b := fun a b => Nat.mod_le _ _
  cases h with
  | quiet hlog hw ho ht =>
    rw [hw, ht]
    exact Nat.le_succ _
  | store offset byte hg hp ho ht =>
    rw [hg, ht]
    exact Nat.le_succ _
  | count hlog hw hp ho ht =>
    have hle := hwrap g.writes 1
    rw [hw, ht]
    omega
  | take hlog hw ho hp ht =>
    rw [hw, hp, ht]
    simp only [amount, Option.map_some, Option.map_none, Option.getD_some, Option.getD_none]
    omega
  | start hlog hw ho hp ht | fail hlog hw ho hp ht =>
    rw [hw, hp, ht]
    exact Nat.le_succ _
  | settle hg ho hp ht =>
    rw [hg, hp, ht]
    simp only [amount, Option.map_some, Option.map_none, Option.getD_some, Option.getD_none, Shared.settle]
    omega
  | @restore n hlog hw ho hp ht =>
    have hle := hwrap g.writes n
    rw [hw, hp, ht]
    simp only [amount, Option.map_some, Option.map_none, Option.getD_some, Option.getD_none]
    omega

theorem sum_update_add {f : V → Nat} {L : Finset V} {v : V} (hv : v ∈ L) (n : Nat) :
    ∑ u ∈ L, Function.update f v n u + f v = ∑ u ∈ L, f u + n := by
  have hself := Finset.sum_update_of_mem hv f (f v)
  rw [Function.update_eq_self] at hself
  rw [Finset.sum_update_of_mem hv, hself]
  omega

/-- A counter at `c` and what the calls in progress have by `f` come to at most `n`. -/
def AtMost (f : Pc → Nat) (c : Nat) (pc : V → Pc) (n : Nat) : Prop :=
  ∃ L : Finset V, (∀ v, v ∉ L → f (pc v) = 0) ∧ c + ∑ v ∈ L, f (pc v) ≤ n

omit [DecidableEq V] in
theorem AtMost.room {f : Pc → Nat} {c n : Nat} {pc : V → Pc} (h : AtMost f c pc n) (v : V) : c + f (pc v) ≤ n := by
  classical
  obtain ⟨L, hL, hle⟩ := h
  by_cases hv : v ∈ L
  · have hone := Finset.single_le_sum (f := fun u => f (pc u)) (fun _ _ => Nat.zero_le _) hv
    exact Nat.le_trans (Nat.add_le_add_left hone _) hle
  · rw [hL v hv]
    exact Nat.le_trans (Nat.le_add_right ..) hle

/-- One call moves on, and adds at most one. -/
theorem AtMost.update {f : Pc → Nat} {c c' n : Nat} {pc : V → Pc} {v : V} {p : Pc} (h : AtMost f c pc n)
    (hstep : c' + f p ≤ c + f (pc v) + 1) : AtMost f c' (Function.update pc v p) (n + 1) := by
  obtain ⟨L, hL, hle⟩ := h
  refine ⟨insert v L, fun u hu => ?_, ?_⟩
  · rw [Finset.mem_insert, not_or] at hu
    rw [Function.update_of_ne hu.1]
    exact hL u hu.2
  · have hins : ∑ u ∈ insert v L, f (pc u) = ∑ u ∈ L, f (pc u) := Finset.sum_insert_of_eq_zero_if_notMem (hL v)
    have hsum := sum_update_add (f := fun u => f (pc u)) (Finset.mem_insert_self v L) (f p)
    have hupd : ∑ u ∈ insert v L, f (Function.update pc v p u) =
        ∑ u ∈ insert v L, Function.update (fun u => f (pc u)) v (f p) u :=
      Finset.sum_congr rfl (fun u _ => congrFun (Function.comp_update f pc v p) u)
    omega

/-- After `n` steps: at most `n` writes are counted or taken, and every store is durable or of a call whose write is. -/
structure WritesInv (n : Nat) (s : State V) : Prop where
  updateOrFlush : ∀ v, (s.pc v).updateOrFlush
  total : AtMost (fun p => amount p.takenWrites) s.shared.writes s.pc n
  backed : ∃ b : Backing V V, b.Backs s.callers s.writeLedger ∧ ∀ v, b.owes v ⊆ {v}

/-- **A step keeps the writes backed**, as long as the counter of writes cannot overflow. -/
theorem WritesInv.counted {n : Nat} {s : State V} {v : V} {g : Shared V} {p : Pc} (hi : WritesInv n s) (hn : n + 1 < 2 ^ 64)
    (hp : p.updateOrFlush) (h : CountsWrite s.shared v (s.pc v) g p) :
    WritesInv (n + 1) ⟨g, Function.update s.pc v p⟩ := by
  have hroom := hi.total.room v
  refine ⟨(Function.forall_update_iff s.pc (fun _ q => q.updateOrFlush)).2 ⟨hp, fun u _ => hi.updateOrFlush u⟩,
    hi.total.update h.total, ?_⟩
  obtain ⟨b, hbacks, hsub⟩ := hi.backed
  rcases h.effect (by omega) with ⟨hledger, howes⟩ | ⟨heffect, hcallers⟩
  · have hins : insert v (b.owes v) = {v} :=
      Finset.Subset.antisymm (Finset.insert_subset (Finset.mem_singleton_self v) (hsub v))
        (Finset.singleton_subset_iff.2 (Finset.mem_insert_self ..))
    have hstored := hbacks.store (k := v) (v := v) (by rw [hins, howes, Finset.card_singleton])
    have hcallers : State.callers ⟨g, Function.update s.pc v p⟩ = s.callers ++ [v] := congrArg Ledger.log hledger
    rw [hins] at hstored
    refine ⟨{ b with owes := Function.update b.owes v {v} }, ?_, ?_⟩
    · rw [hledger, hcallers]
      exact hstored
    · exact (Function.forall_update_iff b.owes (fun u S => S ⊆ {u})).2 ⟨Finset.Subset.refl _, fun u _ => hsub u⟩
  · obtain ⟨b', hb', hle⟩ := hbacks.effect heffect hcallers
    refine ⟨b', ?_, fun u => Finset.Subset.trans (hle u) (hsub u)⟩
    rw [show State.callers ⟨g, Function.update s.pc v p⟩ = s.callers from hcallers]
    exact hb'

theorem start_writes {op : Op} (h : op.updateOrFlush = true) : op.start.owesWrite = 0 ∧ op.start.takenWrites = none := by
  rcases start_cases h with ⟨r, hs⟩ | ⟨offset, data, span, hs⟩ | ⟨offset, data, hs⟩ | hs <;> rw [hs] <;> exact ⟨rfl, rfl⟩

theorem step_writes {cfg : Config} {n : Nat} {s s' : State V} {a : Action V} (ha : a.updateOrFlush = true)
    (hi : WritesInv n s) (hn : n + 1 < 2 ^ 64) (h : step cfg s a = some s') : WritesInv (n + 1) s' := by
  obtain ⟨v, g, p, rfl, hp, ⟨hidle, rfl, op, hop, rfl⟩ | ⟨os, conflict, hm⟩⟩ := step_updateOrFlush ha hi.updateOrFlush h
  · obtain ⟨ho, ht⟩ := start_writes hop
    refine hi.counted hn hp (.quiet rfl rfl ?_ ?_)
    · rw [hidle, ho]
      exact Nat.le_refl _
    · rw [hidle, ht]
      rfl
  · exact hi.counted hn hp (micro_countsWrite (hi.updateOrFlush v) hm)

theorem run_writes {cfg : Config} {acts : List (Action V)} {s : State V} (hops : ∀ a ∈ acts, a.updateOrFlush = true)
    (hlen : acts.length < 2 ^ 64) (hr : Machine.run (step cfg) State.init acts = some s) : WritesInv acts.length s := by
  refine Machine.run_induction_of (fun as s => as.length < 2 ^ 64 → WritesInv as.length s) ?_ ?_ acts s hr hops hlen
  · intro _
    refine ⟨fun v => trivial, ⟨∅, fun v _ => rfl, Nat.le_refl _⟩, Backing.empty, Backing.empty_backs rfl, fun v => ?_⟩
    exact Finset.empty_subset _
  · intro as a s s' ha ih h hlt
    rw [List.length_append, List.length_singleton] at hlt ⊢
    exact step_writes ha (ih (Nat.lt_of_succ_lt hlt)) hlt h

theorem resting_writes {p : Pc} (h : p.resting = true) : p.owesWrite = 0 ∧ p.takenWrites = none := by
  cases p
  case idle | done => exact ⟨rfl, rfl⟩
  all_goals cases h

/-- At rest a crash loses only bytes of as many calls as are pending. -/
theorem WritesInv.lost {n : Nat} {s : State V} (hi : WritesInv n s) (hrest : ∀ v, (s.pc v).resting = true) :
    ∃ C : Finset V, C.card ≤ s.shared.writes ∧ ∀ after, Crash s.shared.log after → ∀ offset,
      (∀ e ∈ s.shared.log, e.offset = offset → e.writer ∉ C) → after offset = contentAt s.shared.log offset := by
  obtain ⟨b, hbacks, -⟩ := hi.backed
  obtain ⟨C, hcard, hC⟩ := hbacks.outstanding ∅ (fun v _ => (resting_writes (hrest v)).1)
    (fun v _ => (resting_writes (hrest v)).2)
  refine ⟨C, hcard, fun after hafter offset hoff => hafter.content (fun e he heo => ?_)⟩
  by_contra hd
  obtain ⟨i, hi'⟩ := List.getElem?_of_mem he
  refine hoff e he heo (hC i e.writer ?_ ?_)
  · rw [State.callers, List.getElem?_map, hi', Option.map_some]
  · rintro ⟨e', he', hd'⟩
    rw [hi'] at he'
    cases he'
    exact hd hd'

/-! ## The most the counter of bytes ever reached -/

/-- The bytes a call is still to add to the counter: what an update has stored, and what a flush took. -/
def Pc.carried : Pc → Nat
  | .uStore _ rest len | .tStore _ rest len => len - rest.length
  | .uUnlock len | .countBytes _ len => len
  | .fSwapWrites _ bytes | .fSync _ bytes _ | .fSyncing bytes _ _ | .fRestoreBytes bytes _ _ => bytes
  | _ => 0

/-- What one step of an update or a flush does to the counter of bytes. -/
inductive CountsBytes (g : Shared V) (p : Pc) (g' : Shared V) (p' : Pc) : Prop
  | quiet (hw : g'.written = g.written) (hc : g'.counted = g.counted) (hpeak : g'.peak = g.peak)
      (hp : p'.carried ≤ p.carried + 1)
  | add (hg : g' = g.addBytes p.carried) (hp : p'.carried = 0)
  | take (hg : g' = g.takeBytes) (hp : p'.carried = g.written)

theorem micro_countsBytes {cfg : Config} {os : Os} {conflict : Option Conflict} {g g' : Shared V} {v : V} {p p' : Pc}
    (hp : p.updateOrFlush) (h : micro cfg os conflict g v p = some (g', p')) : CountsBytes g p g' p' := by
  cases p
  case uStore pos rest len | tStore pos rest len =>
    cases rest with
    | nil =>
      cases h
      exact .quiet rfl rfl rfl (Nat.le_succ _)
    | cons byte rest =>
      cases h
      refine .quiet rfl rfl rfl ?_
      simp only [Pc.carried, List.length_cons]
      omega
  case uLock | fLock =>
    simp only [micro, Option.map_eq_some_iff] at h
    obtain ⟨l, -, h⟩ := h
    cases h
    exact .quiet rfl rfl rfl (Nat.zero_le _)
  case uCheck | tCheck =>
    simp only [micro] at h
    split at h
    · cases h
      exact .quiet rfl rfl rfl (Nat.zero_le _)
    · cases h
      refine .quiet rfl rfl rfl ?_
      simp only [Pc.carried, Nat.sub_self, Nat.zero_le]
  case tLock =>
    simp only [micro] at h
    split at h <;> cases h <;> exact .quiet rfl rfl rfl (Nat.zero_le _)
  case countBytes | fRestoreBytes =>
    cases h
    exact .add rfl rfl
  case countWrites held pending =>
    cases h
    refine .quiet rfl rfl rfl ?_
    split <;> exact Nat.zero_le _
  case fSwapBytes =>
    cases h
    exact .take rfl rfl
  case fSyncing =>
    simp only [micro] at h
    split at h
    · cases h
      exact .quiet rfl rfl rfl (Nat.zero_le _)
    · cases h
      exact .quiet rfl rfl rfl (Nat.le_succ _)
  case idle | done => cases h
  case uUnlock | fSwapWrites | fSync | tDowngrade | fRestoreWrites | unlockWrite | unlockRead =>
    cases h
    exact .quiet rfl rfl rfl (Nat.le_succ _)
  all_goals cases hp

/-- After `n` steps at most `n` bytes are counted or carried, and the counter never held more. -/
structure PeakInv (n : Nat) (s : State V) : Prop where
  updateOrFlush : ∀ v, (s.pc v).updateOrFlush
  written : s.shared.written ≤ s.shared.counted
  total : AtMost Pc.carried s.shared.counted s.pc n
  peak : s.shared.peak ≤ n

theorem PeakInv.counted {n : Nat} {s : State V} {v : V} {g : Shared V} {p : Pc} (hi : PeakInv n s) (hp : p.updateOrFlush)
    (h : CountsBytes s.shared (s.pc v) g p) : PeakInv (n + 1) ⟨g, Function.update s.pc v p⟩ := by
  have hall : ∀ u, (Function.update s.pc v p u).updateOrFlush :=
    (Function.forall_update_iff s.pc (fun _ q => q.updateOrFlush)).2 ⟨hp, fun u _ => hi.updateOrFlush u⟩
  have hroom := hi.total.room v
  have hpeak := hi.peak
  have hwritten := hi.written
  cases h with
  | quiet hw hc hpk hcarried =>
    refine ⟨hall, by rw [hw, hc]; exact hwritten, hi.total.update ?_, by rw [hpk]; omega⟩
    rw [hc]
    omega
  | add hg hcarried =>
    have hle : wrappingAdd 64 s.shared.written (s.pc v).carried ≤ s.shared.written + (s.pc v).carried := Nat.mod_le _ _
    subst hg
    refine ⟨hall, Nat.le_trans hle (Nat.add_le_add_right hwritten _), hi.total.update ?_, ?_⟩
    · rw [hcarried]
      exact Nat.le_succ _
    · exact Nat.max_le.2 ⟨Nat.le_succ_of_le hpeak, Nat.le_succ_of_le hroom⟩
  | take hg hcarried =>
    subst hg
    refine ⟨hall, Nat.le_refl 0, hi.total.update ?_, Nat.le_succ_of_le hpeak⟩
    show 0 + p.carried ≤ _
    omega

theorem start_carried {op : Op} (h : op.updateOrFlush = true) : op.start.carried = 0 := by
  rcases start_cases h with ⟨r, hs⟩ | ⟨offset, data, span, hs⟩ | ⟨offset, data, hs⟩ | hs <;> rw [hs] <;> rfl

theorem step_peak {cfg : Config} {n : Nat} {s s' : State V} {a : Action V} (ha : a.updateOrFlush = true)
    (hi : PeakInv n s) (h : step cfg s a = some s') : PeakInv (n + 1) s' := by
  obtain ⟨v, g, p, rfl, hp, ⟨-, rfl, op, hop, rfl⟩ | ⟨os, conflict, hm⟩⟩ := step_updateOrFlush ha hi.updateOrFlush h
  · refine hi.counted hp (.quiet rfl rfl rfl ?_)
    rw [start_carried hop]
    exact Nat.zero_le _
  · exact hi.counted hp (micro_countsBytes (hi.updateOrFlush v) hm)

/-- **The counter of bytes cannot pass the number of steps**: each byte was stored in a step of its own. -/
theorem run_peak {cfg : Config} {acts : List (Action V)} {s : State V} (hops : ∀ a ∈ acts, a.updateOrFlush = true)
    (hr : Machine.run (step cfg) State.init acts = some s) : PeakInv acts.length s := by
  refine Machine.run_induction_of (fun as s => PeakInv as.length s) ?_ ?_ acts s hr hops
  · exact ⟨fun v => trivial, Nat.le_refl 0, ⟨∅, fun v _ => rfl, Nat.le_refl 0⟩, Nat.le_refl 0⟩
  · intro as a s s' ha ih h
    rw [List.length_append, List.length_singleton]
    exact step_peak ha ih h

/-! ## The promise of a policy -/

/-- **What an automatic flush policy promises about a crash.**  Updates and flushes in any interleaving, in fewer than
`2 ^ 64` steps: at rest, if every call returned `Ok`, a crash loses nothing under `Always`, fewer than `n` bytes under
`EveryBytes(n)`, and only bytes of fewer than `w` updates under `EveryWrites(w)`. -/
theorem crash_thresholds (cfg : Config) (acts : List (Action V)) (s : State V)
    (hr : Machine.run (step cfg) State.init acts = some s) (hops : ∀ a ∈ acts, a.updateOrFlush = true)
    (hlen : acts.length < 2 ^ 64) (hrest : ∀ v, (s.pc v).resting = true)
    (hok : ∀ v e, s.pc v ≠ .done (.error e)) :
    (cfg.policy = .always → ∀ after, Crash s.shared.log after → ∀ offset, after offset = contentAt s.shared.log offset) ∧
    (∀ n, cfg.policy = .everyBytes n → 0 < n → ∃ S : Finset Nat, S.card < n ∧
      ∀ after, Crash s.shared.log after → ∀ offset, offset ∉ S → after offset = contentAt s.shared.log offset) ∧
    (∀ w, cfg.policy = .everyWrites w → 0 < w → ∃ C : Finset V, C.card < w ∧ ∀ after, Crash s.shared.log after →
      ∀ offset, (∀ e ∈ s.shared.log, e.offset = offset → e.writer ∉ C) → after offset = contentAt s.shared.log offset) := by
  have hi := run_threshold hops hr
  obtain ⟨S, hcard, hS⟩ := (run_backed hr).lost (Nat.lt_of_le_of_lt (run_peak hops hr).peak hlen) ∅ (fun v _ => hrest v)
  rw [Finset.sum_empty, Nat.add_zero] at hcard
  have hbytes : ∀ n, bytesThreshold cfg.policy = some n → S.card < n :=
    fun n hn => Nat.lt_of_le_of_lt hcard ((hi.bytes n hn).at_rest id (fun _ => id) hrest hok)
  refine ⟨fun hp after hafter offset => ?_, fun n hp hn => ⟨S, hbytes n (by rw [hp]; exact if_pos hn), hS⟩, fun w hp hw => ?_⟩
  · have hempty := Finset.card_eq_zero.1 (Nat.lt_one_iff.1 (hbytes 1 (by rw [hp]; rfl)))
    refine hS after hafter offset ?_
    rw [hempty]
    exact Finset.notMem_empty _
  · obtain ⟨C, hle, hC⟩ := (run_writes hops hlen hr).lost hrest
    refine ⟨C, Nat.lt_of_le_of_lt hle ?_, hC⟩
    exact (hi.writes w (by rw [hp]; exact if_pos hw)).at_rest id (fun _ => id) hrest hok

/-- Three updates of one byte: the second is the second write and flushes both. -/
def threeUpdates : List (Action Caller) :=
  [.call .first (.updateRegion 0 [1])] ++ List.replicate 7 (.advance .first Os.ok none) ++
  [.call .second (.updateRegion 4 [2])] ++ List.replicate 13 (.advance .second Os.ok none) ++
  [.call .third (.updateRegion 6 [3])] ++ List.replicate 7 (.advance .third Os.ok none)

/-- Under `EveryWrites(2)` a crash takes back at most the third. -/
theorem crash_thresholds_threeUpdates : ∃ s : State Caller,
    Machine.run (step ⟨linux64.width, 8, .everyWrites 2⟩) State.init threeUpdates = some s ∧
    (s.shared.log.map (fun e => (e.offset, e.durable))) = [(0, true), (4, true), (6, false)] ∧
    ∃ C : Finset Caller, C.card < 2 ∧ ∀ after, Crash s.shared.log after →
      ∀ offset, (∀ e ∈ s.shared.log, e.offset = offset → e.writer ∉ C) → after offset = contentAt s.shared.log offset := by
  have hd : (Machine.run (step ⟨linux64.width, 8, .everyWrites 2⟩) State.init threeUpdates).map (fun s =>
      (s.shared.log.map (fun e => (e.offset, e.durable)), (s.pc .first).isOk, (s.pc .second).isOk,
        (s.pc .third).isOk)) = some ([(0, true), (4, true), (6, false)], true, true, true) := by decide +kernel
  obtain ⟨s, hs, h⟩ := Option.map_eq_some_iff.1 hd
  simp only [Prod.mk.injEq] at h
  obtain ⟨hlog, hfirst, hsecond, hthird⟩ := h
  have hall : ∀ v, (s.pc v).isOk = true := by
    intro v
    cases v with
    | first => exact hfirst
    | second => exact hsecond
    | third => exact hthird
  exact ⟨s, hs, hlog, (crash_thresholds _ threeUpdates s hs (by decide) (by decide)
    (fun v => (isOk_resting (hall v)).1) (fun v => (isOk_resting (hall v)).2)).2.2 2 rfl (by decide)⟩

end Account
end MmapIo
