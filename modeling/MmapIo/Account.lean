import MmapIo.Lib.Ledger
import MmapIo.AccountStep
/-!
# Account — no write escapes the flush accounting

The machine of `AccountStep` read as a ledger (`State.ledger`): a call owes the bytes it will count from its first store to
its `fetch_add`, a flush has taken the counter from its `swap` to the end of its sync or to its restore.  Every step is an
effect on the ledger (`Accounts.effect`), so while the counter does not overflow every store is durable, owed, counted or
taken.
-/
namespace MmapIo
namespace Account

open Word Machine

/-- The bytes a call has yet to count. -/
def Pc.owes : Pc → Nat
  | .uStore _ _ len | .uUnlock len | .tStore _ _ len | .countBytes _ len | .sCount len | .cCount len | .aCount len => len
  | .sHeld start stop | .aHeld start stop => stop - start
  | .cNext _ offset => offset
  | .cChunk _ _ stop => stop
  | _ => 0

/-- What a flush took from the counter, and the length of the log when its sync started. -/
def Pc.taken : Pc → Option (Nat × Option Nat)
  | .fSwapWrites _ bytes | .fSync _ bytes _ | .fRestoreBytes bytes _ _ => some (bytes, none)
  | .fSyncing bytes _ mark => some (bytes, some mark)
  | _ => none

/-- An update still to be copied counts what is left at least. -/
def Pc.sound : Pc → Prop
  | .uStore _ rest len | .tStore _ rest len => rest.length ≤ len
  | _ => True

variable {V : Type}

def durableAt (log : List (Stored V)) : Set Nat := {i | ∃ e, log[i]? = some e ∧ e.durable = true}

theorem getElem?_settle (g : Shared V) (mark : Nat) (p : Nat → Bool) (i : Nat) : (g.settle mark p).log[i]? =
    g.log[i]?.map (fun e => if i < mark ∧ p e.offset then { e with durable := true } else e) :=
  List.getElem?_mapIdx

theorem settle_keeps (g : Shared V) (mark : Nat) (p : Nat → Bool) :
    (g.settle mark p).log.map Stored.writer = g.log.map Stored.writer ∧ durableAt g.log ⊆ durableAt (g.settle mark p).log := by
  constructor
  · refine List.ext_getElem? (fun i => ?_)
    rw [List.getElem?_map, List.getElem?_map, getElem?_settle, Option.map_map]
    congr 1
    funext e
    simp only [Function.comp_apply]
    split
    · rfl
    · rfl
  · rintro i ⟨e, he, hd⟩
    refine ⟨_, (getElem?_settle g mark p i).trans (congrArg _ he), ?_⟩
    simp only
    split
    · rfl
    · exact hd

theorem settle_durable (g : Shared V) {mark i : Nat} (hm : i < mark) (hi : i < g.log.length) :
    i ∈ durableAt (g.settle mark (fun _ => true)).log := by
  refine ⟨_, (getElem?_settle g mark _ i).trans (congrArg _ (List.getElem?_eq_getElem hi)), ?_⟩
  simp only [and_true, if_pos hm]

theorem durableAt_store (g : Shared V) (v : V) (offset : Nat) (byte : UInt8) :
    durableAt (g.store v offset byte).log = durableAt g.log := by
  ext i
  unfold durableAt Shared.store
  constructor
  · rintro ⟨e, he, hd⟩
    by_cases hlt : i < g.log.length
    · rw [List.getElem?_append_left hlt] at he
      exact ⟨e, he, hd⟩
    · rw [List.getElem?_append_right (Nat.not_lt.1 hlt)] at he
      have hmem := List.mem_of_getElem? he
      rw [List.mem_singleton] at hmem
      rw [hmem] at hd
      cases hd
  · rintro ⟨e, he, hd⟩
    exact ⟨e, (List.getElem?_append_left (List.getElem?_eq_some_iff.1 he).1).trans he, hd⟩

def State.ledger (s : State V) : Ledger V :=
  { log := s.shared.log.map Stored.writer
    durable := durableAt s.shared.log
    counted := s.shared.counted
    owes := Pc.owes ∘ s.pc
    taken := Pc.taken ∘ s.pc }

/-- What one step of a call does to the accounting. -/
inductive Accounts (g : Shared V) (v : V) : Pc → Shared V → Pc → Prop
  | quiet {p p' : Pc} {lock : RwLock V} {writes : Nat} (ho : p.owes ≤ p'.owes) (ht : p'.taken = p.taken) :
      Accounts g v p { g with lock := lock, writes := writes } p'
  | store {p p' : Pc} {offset : Nat} {byte : UInt8} (hpos : 0 < p.owes) (ho : p'.owes = p.owes) (ht : p'.taken = p.taken) :
      Accounts g v p (g.store v offset byte) p'
  | count {p p' : Pc} (ho : p'.owes = 0) (ht : p'.taken = p.taken) : Accounts g v p (g.addBytes p.owes) p'
  | take {c : Cause} : Accounts g v (.fSwapBytes c) g.takeBytes (.fSwapWrites c g.written)
  | start {c : Cause} {bytes writes : Nat} :
      Accounts g v (.fSync c bytes writes) { g with flushes := g.flushes ++ [c] } (.fSyncing bytes writes g.log.length)
  | settle {bytes writes mark : Nat} :
      Accounts g v (.fSyncing bytes writes mark) (g.settle mark (fun _ => true)) (.unlockRead (.ok ()))
  | more {start stop mark : Nat} {p : Nat → Bool} :
      Accounts g v (.rSyncing start stop mark) (g.settle mark p) (.unlockRead (.ok ()))
  | fail {bytes writes mark : Nat} {text : String} :
      Accounts g v (.fSyncing bytes writes mark) g (.fRestoreBytes bytes writes text)
  | restore {bytes writes : Nat} {text : String} :
      Accounts g v (.fRestoreBytes bytes writes text) (g.addBytes bytes) (.fRestoreWrites writes text)

/-- While nothing overflows, the counter is what was counted since it was last taken. -/
theorem Accounts.counter {g g' : Shared V} {v : V} {p p' : Pc} (h : Accounts g v p g' p') : g.peak ≤ g'.peak ∧
    (g'.peak < 2 ^ 64 → g.written = g.counted → g'.written = g'.counted) := by
  have hadd : ∀ n, g.peak ≤ (g.addBytes n).peak ∧
      ((g.addBytes n).peak < 2 ^ 64 → g.written = g.counted → (g.addBytes n).written = (g.addBytes n).counted) := by
    intro n
    refine ⟨Nat.le_max_left .., fun hpeak hw => ?_⟩
    have hlt : g.counted + n < 2 ^ 64 := Nat.lt_of_le_of_lt (Nat.le_max_right ..) hpeak
    simp only [Shared.addBytes, hw]
    exact wrappingAdd_of_lt hlt
  cases h with
  | quiet | store | start | settle | more | fail => exact ⟨Nat.le_refl _, fun _ hw => hw⟩
  | take => exact ⟨Nat.le_refl _, fun _ _ => rfl⟩
  | count => exact hadd _
  | restore => exact hadd _

structure Inv (s : State V) : Prop where
  sound : ∀ v, (s.pc v).sound
  covered : s.shared.peak < 2 ^ 64 → s.shared.written = s.shared.counted ∧ s.ledger.Covered

theorem init_inv : Inv (State.init : State V) := by
  refine ⟨fun v => trivial, fun _ => ⟨rfl, ?_⟩⟩
  intro i w hi
  cases hi

variable [DecidableEq V]

theorem micro_accounts {cfg : Config} {os : Os} {conflict : Option Conflict} {g g' : Shared V} {v : V} {p p' : Pc}
    (hp : p.sound) (h : micro cfg os conflict g v p = some (g', p')) : Accounts g v p g' p' ∧ p'.sound := by
  have hquiet : ∀ {q q' : Pc}, q.owes ≤ q'.owes → q'.taken = q.taken → Accounts g v q g q' := fun ho ht => .quiet ho ht
  cases p
  case uStore pos rest len | tStore pos rest len =>
    cases rest with
    | nil =>
      cases h
      exact ⟨hquiet (Nat.le_refl _) rfl, trivial⟩
    | cons byte rest =>
      cases h
      exact ⟨.store (Nat.lt_of_lt_of_le (Nat.succ_pos _) hp) rfl rfl, Nat.le_of_succ_le hp⟩
  case uCheck | tCheck =>
    simp only [micro] at h
    split at h
    · cases h
      exact ⟨hquiet (Nat.le_refl _) rfl, trivial⟩
    · cases h
      exact ⟨hquiet (Nat.zero_le _) rfl, Nat.le_refl _⟩
  case tLock | sTryLock =>
    simp only [micro] at h
    split at h
    · cases h
      exact ⟨.quiet (Nat.le_refl _) rfl, trivial⟩
    · cases h
      exact ⟨hquiet (Nat.le_refl _) rfl, trivial⟩
  case rCheck offset len =>
    simp only [micro] at h
    split at h
    · cases h
      exact ⟨hquiet (Nat.le_refl _) rfl, trivial⟩
    · cases h
      split
      · exact ⟨hquiet (Nat.le_refl _) rfl, trivial⟩
      · exact ⟨hquiet (Nat.le_refl _) rfl, trivial⟩
  case sCheck | aCheck =>
    simp only [micro] at h
    split at h
    · cases h
      exact ⟨hquiet (Nat.le_refl _) rfl, trivial⟩
    · split at h
      · cases h
        exact ⟨hquiet (Nat.le_refl _) rfl, trivial⟩
      · cases h
        exact ⟨hquiet (Nat.zero_le _) rfl, trivial⟩
  case cNext chunkSize offset =>
    simp only [micro] at h
    split at h
    · cases h
      exact ⟨hquiet (Nat.le_add_right ..) rfl, trivial⟩
    · cases h
      exact ⟨hquiet (Nat.le_refl _) rfl, trivial⟩
  case countWrites held pending =>
    cases h
    split
    · exact ⟨.quiet (Nat.le_refl _) rfl, trivial⟩
    · exact ⟨.quiet (Nat.le_refl _) rfl, trivial⟩
    · exact ⟨.quiet (Nat.le_refl _) rfl, trivial⟩
    · exact ⟨.quiet (Nat.le_refl _) rfl, trivial⟩
  case load =>
    cases h
    split
    · exact ⟨hquiet (Nat.le_refl _) rfl, trivial⟩
    · exact ⟨hquiet (Nat.le_refl _) rfl, trivial⟩
  case fSyncing bytes writes mark =>
    simp only [micro] at h
    split at h
    · cases h
      exact ⟨.settle, trivial⟩
    · cases h
      exact ⟨.fail, trivial⟩
  case rSyncing start stop mark =>
    simp only [micro] at h
    split at h
    · cases h
      exact ⟨.more, trivial⟩
    · cases h
      exact ⟨hquiet (Nat.le_refl _) rfl, trivial⟩
  case fSwapBytes c =>
    cases h
    exact ⟨.take, trivial⟩
  case fSync c bytes writes =>
    cases h
    exact ⟨.start, trivial⟩
  case fRestoreBytes bytes writes text =>
    cases h
    exact ⟨.restore, trivial⟩
  case uLock | fLock | rLock | sLock | cLock | aLock =>
    simp only [micro, Option.map_eq_some_iff] at h
    obtain ⟨l, -, h⟩ := h
    cases h
    exact ⟨.quiet (Nat.le_refl _) rfl, trivial⟩
  case countBytes | sCount | cCount | aCount =>
    cases h
    exact ⟨.count rfl rfl, trivial⟩
  case idle | sHeld | cChunk | aHeld | done => cases h
  -- a lock released, a counter of writes, the start of a partial sync
  all_goals
    cases h
    exact ⟨.quiet (Nat.le_refl _) rfl, trivial⟩

theorem start_owes (op : Op) : op.start.owes = 0 ∧ op.start.taken = none ∧ op.start.sound := by
  cases op <;> simp only [Op.start] <;> (try split) <;> (try split) <;> exact ⟨rfl, rfl, trivial⟩

theorem leavePc_owes {ok : Bool} {p p' : Pc} (h : leavePc ok p = some p') :
    p.owes ≤ p'.owes ∧ p'.taken = p.taken ∧ p'.sound := by
  cases p
  case sHeld | aHeld =>
    cases h
    exact ⟨Nat.le_refl _, rfl, trivial⟩
  case cChunk chunkSize start stop =>
    cases h
    cases ok
    · exact ⟨Nat.le_refl _, rfl, trivial⟩
    · exact ⟨Nat.le_refl _, rfl, trivial⟩
  all_goals cases h

theorem window_owes {p : Pc} {start stop : Nat} (h : p.window = some (start, stop)) {offset : Nat} (hlo : start ≤ offset)
    (hhi : offset < stop) : 0 < p.owes := by
  cases p
  case sHeld | aHeld =>
    cases h
    exact Nat.sub_pos_of_lt (Nat.lt_of_le_of_lt hlo hhi)
  case cChunk =>
    cases h
    exact Nat.lt_of_le_of_lt (Nat.zero_le _) hhi
  all_goals cases h

/-- **An action is one step of one call's accounting.** -/
theorem step_accounts {cfg : Config} {s s' : State V} {a : Action V} (hs : ∀ v, (s.pc v).sound)
    (h : step cfg s a = some s') :
    ∃ v p', s'.pc = Function.update s.pc v p' ∧ Accounts s.shared v (s.pc v) s'.shared p' ∧ p'.sound := by
  cases a with
  | call v op =>
    simp only [step] at h
    split at h
    swap
    · cases h
    rename_i hidle
    cases h
    obtain ⟨ho, ht, hsound⟩ := start_owes op
    refine ⟨v, op.start, rfl, ?_, hsound⟩
    rw [hidle]
    exact .quiet (Nat.zero_le _) ht
  | advance v os conflict =>
    simp only [step, Option.map_eq_some_iff] at h
    obtain ⟨⟨g, p⟩, hm, rfl⟩ := h
    exact ⟨v, p, rfl, micro_accounts (hs v) hm⟩
  | store v offset byte =>
    simp only [step] at h
    split at h
    swap
    · cases h
    rename_i start stop hw
    split at h
    swap
    · cases h
    rename_i hin
    cases h
    exact ⟨v, s.pc v, (Function.update_eq_self v s.pc).symm, .store (window_owes hw hin.1 hin.2) rfl rfl, hs v⟩
  | leave v ok =>
    simp only [step, Option.map_eq_some_iff] at h
    obtain ⟨p, hp, rfl⟩ := h
    obtain ⟨ho, ht, hsound⟩ := leavePc_owes hp
    exact ⟨v, p, rfl, .quiet ho ht, hsound⟩

/-! ## The ledger of the machine -/

theorem ledger_update (g : Shared V) (pc : V → Pc) (v : V) (p : Pc) :
    State.ledger ⟨g, Function.update pc v p⟩ = ⟨g.log.map Stored.writer, durableAt g.log, g.counted,
      Function.update (Pc.owes ∘ pc) v p.owes, Function.update (Pc.taken ∘ pc) v p.taken⟩ := by
  unfold State.ledger
  rw [Function.comp_update, Function.comp_update]

/-- **A step of the accounting is an effect on the ledger**, while the counter is what was counted. -/
theorem Accounts.effect {s : State V} {v : V} {g : Shared V} {p : Pc} (hw : s.shared.written = s.shared.counted)
    (h : Accounts s.shared v (s.pc v) g p) : Ledger.Effect v s.ledger (State.ledger ⟨g, Function.update s.pc v p⟩) := by
  have hsame : ∀ {A : Type} {f : Pc → A} {q : Pc}, f q = f (s.pc v) → Function.update (f ∘ s.pc) v (f q) = f ∘ s.pc := by
    intro A f q hq
    rw [hq]
    exact Function.update_eq_self v (f ∘ s.pc)
  rw [ledger_update]
  generalize hp : s.pc v = old at h
  have howes : s.ledger.owes v = old.owes := congrArg Pc.owes hp
  have htaken : s.ledger.taken v = old.taken := congrArg Pc.taken hp
  have htake : p.taken = old.taken → Function.update (Pc.taken ∘ s.pc) v p.taken = Pc.taken ∘ s.pc :=
    fun hq => hsame (hq.trans (congrArg _ hp.symm))
  have howe : p.owes = old.owes → Function.update (Pc.owes ∘ s.pc) v p.owes = Pc.owes ∘ s.pc :=
    fun hq => hsame (hq.trans (congrArg _ hp.symm))
  cases h with
  | quiet ho ht =>
    rw [htake ht]
    exact .owe (howes ▸ ho)
  | store hpos ho ht =>
    rw [htake ht, howe ho, durableAt_store, Shared.store, List.map_append]
    exact .store (howes ▸ hpos)
  | count ho ht =>
    rw [htake ht, ho, ← howes]
    exact .count
  | take =>
    rw [howe rfl, hw]
    exact .take htaken
  | start =>
    rw [howe rfl]
    have heffect := Ledger.Effect.start htaken
    rw [State.ledger, List.length_map] at heffect
    exact heffect
  | settle =>
    rw [howe rfl, (settle_keeps ..).1]
    refine .settle htaken (fun i hi hd => ?_)
    rw [State.ledger, List.length_map] at hi
    rcases hd with hm | hd
    · exact settle_durable s.shared hm hi
    · exact (settle_keeps ..).2 hd
  | more =>
    rw [howe rfl, htake rfl, (settle_keeps ..).1]
    exact .more (settle_keeps ..).2
  | fail =>
    rw [howe rfl]
    exact .fail htaken
  | restore =>
    rw [howe rfl]
    exact .restore htaken

/-! ## Along a run -/

theorem step_inv {cfg : Config} {s s' : State V} {a : Action V} (hi : Inv s) (h : step cfg s a = some s') : Inv s' := by
  obtain ⟨v, p, hpc, hacc, hsound⟩ := step_accounts hi.sound h
  obtain ⟨g, pc⟩ := s'
  subst hpc
  obtain ⟨hpeak, hcounter⟩ := hacc.counter
  refine ⟨?_, fun hlt => ?_⟩
  · exact (Function.forall_update_iff s.pc (fun _ q => q.sound)).2 ⟨hsound, fun u _ => hi.sound u⟩
  · obtain ⟨hw, hcov⟩ := hi.covered (Nat.lt_of_le_of_lt hpeak hlt)
    exact ⟨hcounter hlt hw, (hacc.effect hw).covered hcov⟩

theorem resting_owes {p : Pc} (h : p.resting = true) : p.owes = 0 ∧ p.taken = none := by
  cases p
  case idle | done => exact ⟨rfl, rfl⟩
  all_goals cases h

/-- **No write escapes the flush accounting.**  In every state that a run reaches, if no more than `2 ^ 64 - 1` bytes were
ever counted since a reset of the counter, no call is in progress, no guard or view is alive, and `pending_bytes()` is 0,
then every byte stored is durable. -/
theorem no_write_escapes (cfg : Config) (acts : List (Action V)) (s : State V)
    (hr : Machine.run (step cfg) State.init acts = some s) (hpeak : s.shared.peak < 2 ^ 64)
    (hrest : ∀ v, (s.pc v).resting = true) (hpending : s.shared.written = 0) : ∀ e ∈ s.shared.log, e.durable = true := by
  have hi := Machine.run_invariant Inv (fun _ _ _ hi h => step_inv hi h) acts _ s init_inv hr
  obtain ⟨hw, hcov⟩ := hi.covered hpeak
  intro e he
  obtain ⟨i, hei⟩ := List.getElem?_of_mem he
  have hlen : i < s.ledger.log.length := by
    rw [State.ledger, List.length_map]
    exact (List.getElem?_eq_some_iff.1 hei).1
  obtain ⟨e', he', hd⟩ := hcov.durable (fun v => (resting_owes (hrest v)).1) (hw.symm.trans hpending)
    (fun v => (resting_owes (hrest v)).2) hlen
  rw [hei] at he'
  cases he'
  exact hd

/-- Eight bytes mapped under `FlushPolicy::Never`. -/
def eightBytes : Config := ⟨linux64.width, 8, .never⟩

/-- An update of one byte, a flush whose sync fails, and one that succeeds. -/
def failedFlush : List (Action (Fin 3)) :=
  [.call 0 (.updateRegion 3 [7])] ++ List.replicate 7 (.advance 0 Os.ok none) ++
  [.call 1 .flush] ++ List.replicate 8 (.advance 1 { Os.ok with sync := some "I/O error" } none) ++
  [.call 2 .flush] ++ List.replicate 6 (.advance 2 Os.ok none)

theorem no_write_escapes_failedFlush : ∃ s, Machine.run (step eightBytes) State.init failedFlush = some s ∧
    s.shared.log.length = 1 ∧ ∀ e ∈ s.shared.log, e.durable = true := by
  have hd : (Machine.run (step eightBytes) State.init failedFlush).map (fun s => (s.shared.log.length, s.shared.peak,
      s.shared.written, decide (∀ v, (s.pc v).resting = true))) = some (1, 1, 0, true) := by decide +kernel
  obtain ⟨s, hs, h⟩ := Option.map_eq_some_iff.1 hd
  simp only [Prod.mk.injEq] at h
  obtain ⟨hlen, hpeak, hw, hrest⟩ := h
  exact ⟨s, hs, hlen, no_write_escapes eightBytes failedFlush s hs (by rw [hpeak]; decide) (of_decide_eq_true hrest) hw⟩

end Account
end MmapIo
