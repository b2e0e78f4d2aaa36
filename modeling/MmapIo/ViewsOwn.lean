import Mathlib.Data.Finset.Card
import MmapIo.ViewsStep
/-!
# ViewsOwn — who owns what in the registry

`Move` is `step` inverted: one token's move, with everything it does to the registry.  From it come, one lemma per
operation, who holds the lock (`move_held`), who owns which slot of the shards (`SlabsMatch`), who owns which entry of the
atomic set (`EntriesMatch`) and how many ids were given out (`Calls`).
-/
namespace MmapIo
namespace Views

open Word Machine

variable {V : Type} [DecidableEq V]

/-- **One token's move**: from a program counter to the next, and the registry with it. This is `step`, inverted. -/
inductive Move (g : ViewRegistry V) (v : V) : Pc → ViewRegistry V → Pc → Prop where
  | registerPlain {r sh} (hr : r.start < r.stop) : Move g v .idle g (.pInsert r sh)
  | registerAtomic {r size} (hr : r.start ≤ r.stop) : Move g v .idle g (.aEnter r size)
  | insert {r sh} : Move g v (.pInsert r sh) { g with plain := Function.update g.plain sh ((g.plain sh).insert r).1 }
      (.pLoad r ⟨sh, ((g.plain sh).insert r).2⟩)
  | loadZero {r reg} (h : g.atomicLive = 0) : Move g v (.pLoad r reg) g (.plainLive r reg)
  | loadSome {r reg} (h : g.atomicLive ≠ 0) : Move g v (.pLoad r reg) g (.pReadLock r reg)
  | readLock {r reg l} (h : g.lock.acquireRead v = some l) : Move g v (.pReadLock r reg) { g with lock := l } (.pScan r reg)
  | scanHit {r reg} : Move g v (.pScan r reg) g (.pReleaseErr r reg)
  | scanMiss {r reg} (h : ∀ a ∈ g.atomics.entries, overlaps a.range.start a.range.stop r.start r.stop = false) :
      Move g v (.pScan r reg) g (.pReleaseOk r reg)
  | releaseOk {r reg} : Move g v (.pReleaseOk r reg) { g with lock := g.lock.releaseRead v } (.plainLive r reg)
  | releaseErr {r reg} : Move g v (.pReleaseErr r reg) { g with lock := g.lock.releaseRead v } (.pUndo r reg)
  | undo {r reg} : Move g v (.pUndo r reg)
      { g with plain := Function.update g.plain reg.shard ((g.plain reg.shard).remove reg.slot) } (.plainErr .atomicLive)
  | dropPlain {r reg} : Move g v (.plainLive r reg) g (.pDrop r reg)
  | removed {r reg} : Move g v (.pDrop r reg)
      { g with plain := Function.update g.plain reg.shard ((g.plain reg.shard).remove reg.slot) } .plainDropped
  | enterEmpty {r size} (h : r.start = r.stop) : Move g v (.aEnter r size) g (.atomicLive r size none)
  | enter {r size} (h : r.start ≠ r.stop) : Move g v (.aEnter r size) g (.aWriteLock r size)
  | writeLock {r size l} (h : g.lock.acquireWrite v = some l) :
      Move g v (.aWriteLock r size) { g with lock := l } (.aMixed r size)
  | mixedHit {r size} : Move g v (.aMixed r size) g (.aReleaseErr .mixedSize)
  | mixedMiss {r size} (h : ∀ a ∈ g.atomics.entries, a.size ≠ size →
      overlaps a.range.start a.range.stop r.start r.stop = false) : Move g v (.aMixed r size) g (.aIncr r size)
  | incr {r size} : Move g v (.aIncr r size) { g with atomicLive := wrappingAdd 64 g.atomicLive 1 } (.aScan r size 0)
  | shardHit {r size k} : Move g v (.aScan r size k) g (.aDecr r size)
  | shardMiss {r size} {k : Fin shards} (h : (g.plain k).overlaps r.start r.stop = false) :
      Move g v (.aScan r size k) g (.aScan r size (k + 1))
  | scanned {r size k} (h : shards ≤ k) : Move g v (.aScan r size k) g (.aPush r size)
  | decr {r size} : Move g v (.aDecr r size) { g with atomicLive := wrappingSub 64 g.atomicLive 1 }
      (.aReleaseErr .plainLive)
  | push {r size} : Move g v (.aPush r size)
      { g with atomics := ⟨g.atomics.entries ++ [⟨r, size, g.atomics.nextId⟩], wrappingAdd 64 g.atomics.nextId 1⟩ }
      (.aReleaseOk r size g.atomics.nextId)
  | unlockErr {c} : Move g v (.aReleaseErr c) { g with lock := g.lock.releaseWrite } (.atomicErr c)
  | unlockOk {r size id} : Move g v (.aReleaseOk r size id) { g with lock := g.lock.releaseWrite }
      (.atomicLive r size (some id))
  | dropEmpty {r size} : Move g v (.atomicLive r size none) g (.atomicDropped none)
  | dropAtomic {r size id} : Move g v (.atomicLive r size (some id)) g (.dWriteLock r size id)
  | dropLock {r size id l} (h : g.lock.acquireWrite v = some l) :
      Move g v (.dWriteLock r size id) { g with lock := l } (.dFind r size id)
  | found {r size id es} (h : AtomicSet.removeId g.atomics.entries id = some es) :
      Move g v (.dFind r size id) { g with atomics := ⟨es, g.atomics.nextId⟩ } (.dDecr id)
  | missing {r size id} (h : AtomicSet.removeId g.atomics.entries id = none) : Move g v (.dFind r size id) g (.dRelease id)
  | dropDecr {id} : Move g v (.dDecr id) { g with atomicLive := wrappingSub 64 g.atomicLive 1 } (.dRelease id)
  | dropUnlock {id} : Move g v (.dRelease id) { g with lock := g.lock.releaseWrite } (.atomicDropped (some id))

theorem micro_move {g g' : ViewRegistry V} {v : V} {p p' : Pc} (h : micro g v p = some (g', p')) : Move g v p g' p' := by
  cases p <;> simp only [micro, Option.some.injEq, Prod.mk.injEq, Option.map_eq_some_iff, reduceCtorEq] at h
  case pReadLock | aWriteLock | dWriteLock =>
    obtain ⟨l, hl, rfl, rfl⟩ := h
    constructor
    exact hl
  case aScan r size k =>
    split at h
    · rename_i hk
      cases h
      split
      · exact .shardHit
      · rename_i hov
        exact .shardMiss (k := ⟨k, hk⟩) (by simpa using hov)
    · rename_i hk
      cases h
      exact .scanned (Nat.not_lt.1 hk)
  case dFind r size id =>
    split at h
    · rename_i es hes
      cases h
      exact .found hes
    · rename_i hes
      cases h
      exact .missing hes
  case pScan r reg =>
    obtain ⟨rfl, rfl⟩ := h
    split
    · exact .scanHit
    · rename_i hov
      exact .scanMiss (by simpa using hov)
  case aMixed r size =>
    obtain ⟨rfl, rfl⟩ := h
    split
    · exact .mixedHit
    · rename_i hov
      exact .mixedMiss (by simpa using hov)
  case pLoad | aEnter =>
    obtain ⟨rfl, rfl⟩ := h
    split <;> (constructor; assumption)
  all_goals
    obtain ⟨rfl, rfl⟩ := h
    constructor

/-- The token an action is of. -/
def Action.token : Action V → V
  | .registerPlain v _ _ | .registerAtomic v _ _ | .dropView v | .advance v => v

/-- **An action is its token's move**, and the only one that starts an atomic registration is its call. -/
theorem step_token {s s' : State V} {a : Action V} (h : step s a = some s') :
    ∃ p', s'.pc = Function.update s.pc a.token p' ∧ Move s.reg a.token (s.pc a.token) s'.reg p' ∧
      (a.isRegisterAtomic = true ↔ s.pc a.token = .idle ∧ p'.isAtomic = true) := by
  cases a with
  | registerPlain v r sh =>
    simp only [step] at h
    split at h
    · rename_i hg
      cases h
      exact ⟨_, rfl, hg.1 ▸ .registerPlain hg.2, by simp [Action.isRegisterAtomic, Pc.isAtomic]⟩
    · cases h
  | registerAtomic v r size =>
    simp only [step] at h
    split at h
    · rename_i hg
      cases h
      exact ⟨_, rfl, hg.1 ▸ .registerAtomic hg.2, by simp [Action.isRegisterAtomic, Action.token, Pc.isAtomic, hg.1]⟩
    · cases h
  | dropView v =>
    simp only [step, Option.map_eq_some_iff] at h
    obtain ⟨p', hp', rfl⟩ := h
    cases hp : s.pc v <;> rw [hp] at hp' <;> simp only [dropPc, reduceCtorEq] at hp'
    case plainLive r reg =>
      cases hp'
      exact ⟨_, rfl, hp ▸ .dropPlain, by simp [Action.isRegisterAtomic, Action.token, hp]⟩
    case atomicLive r size id =>
      cases id with
      | none =>
        cases hp'
        exact ⟨_, rfl, hp ▸ .dropEmpty, by simp [Action.isRegisterAtomic, Action.token, hp]⟩
      | some id =>
        cases hp'
        exact ⟨_, rfl, hp ▸ .dropAtomic, by simp [Action.isRegisterAtomic, Action.token, hp]⟩
  | advance v =>
    simp only [step, Option.map_eq_some_iff] at h
    obtain ⟨⟨g, p'⟩, hp', rfl⟩ := h
    refine ⟨p', rfl, micro_move hp', ?_⟩
    simp only [Action.isRegisterAtomic, Action.token, Bool.false_eq_true, false_iff, not_and]
    intro hidle
    rw [hidle] at hp'
    cases hp'

theorem step_move {s s' : State V} {a : Action V} (h : step s a = some s') :
    ∃ v p', s'.pc = Function.update s.pc v p' ∧ Move s.reg v (s.pc v) s'.reg p' ∧
      (a.isRegisterAtomic = true ↔ s.pc v = .idle ∧ p'.isAtomic = true) := ⟨a.token, step_token h⟩

/-! ## The lock -/

theorem move_held {g g' : ViewRegistry V} {v : V} {pc : V → Pc} {p p' : Pc} (hm : Move g v p g' p') (hp : pc v = p)
    (h : Held Pc.writing Pc.reading g.lock pc) : Held Pc.writing Pc.reading g'.lock (Function.update pc v p') := by
  cases hm
  case readLock r reg l hl => exact h.acquireRead hl id trivial
  case writeLock r size l hl => exact h.acquireWrite hl trivial id
  case dropLock r size id' l hl => exact h.acquireWrite hl trivial id
  case releaseOk | releaseErr => exact h.releaseRead (by rw [hp]; trivial) id id
  case unlockErr | unlockOk | dropUnlock => exact h.releaseWrite (by rw [hp]; trivial) id id
  all_goals exact h.stay (by rw [hp]; exact Iff.rfl) (by rw [hp]; exact Iff.rfl)

/-! ## Who owns what

Both kinds of ownership are stated for a family `of : V → Option _` of claims, one per token: the slots of the shards and
the entries of the atomic set are exactly the claims, and no two tokens claim the same one. -/

/-- The live slots of the shards are the slots the tokens own. -/
structure SlabsMatch (plain : Fin shards → Slab) (of : V → Option (Span × PlainReg)) : Prop where
  wf : ∀ sh, (plain sh).Wf
  get : ∀ sh i r, (plain sh).get i = some r ↔ ∃ v, of v = some (r, ⟨sh, i⟩)
  inj : ∀ v u r r' reg, of v = some (r, reg) → of u = some (r', reg) → v = u

namespace SlabsMatch

variable {plain : Fin shards → Slab} {of : V → Option (Span × PlainReg)}

theorem insert (h : SlabsMatch plain of) {v : V} (hv : of v = none) (r : Span) (sh : Fin shards) :
    SlabsMatch (Function.update plain sh ((plain sh).insert r).1)
      (Function.update of v (some (r, ⟨sh, ((plain sh).insert r).2⟩))) := by
  have hfresh := Slab.insert_fresh (h.wf sh) r
  have hget := Slab.insert_get (h.wf sh) r
  generalize ((plain sh).insert r).2 = slot at hfresh hget ⊢
  -- nobody owned the new slot
  have hnobody : ∀ u r', of u ≠ some (r', ⟨sh, slot⟩) := fun u r' hu => by
    rw [(h.get sh slot r').2 ⟨u, hu⟩] at hfresh
    cases hfresh
  refine ⟨fun k => ?_, fun k i r' => ?_, fun u u' r₁ r₂ reg hu hu' => ?_⟩
  · by_cases hk : k = sh
    · subst hk
      rw [Function.update_self]
      exact Slab.wf_insert (h.wf k) r
    · rw [Function.update_of_ne hk]
      exact h.wf k
  · have hothers : (∃ u, Function.update of v (some (r, ⟨sh, slot⟩)) u = some (r', ⟨k, i⟩)) ↔
        (r = r' ∧ sh = k ∧ slot = i) ∨ ∃ u, of u = some (r', ⟨k, i⟩) := by
      constructor
      · rintro ⟨u, hu⟩
        by_cases huv : u = v
        · subst huv
          rw [Function.update_self] at hu
          cases hu
          exact Or.inl ⟨rfl, rfl, rfl⟩
        · rw [Function.update_of_ne huv] at hu
          exact Or.inr ⟨u, hu⟩
      · rintro (⟨rfl, rfl, rfl⟩ | ⟨u, hu⟩)
        · exact ⟨v, Function.update_self ..⟩
        · refine ⟨u, ?_⟩
          rw [Function.update_of_ne (fun huv => by rw [huv, hv] at hu; cases hu)]
          exact hu
    rw [hothers, ← h.get k i r']
    by_cases hk : k = sh
    · subst hk
      rw [Function.update_self, hget]
      by_cases hi : i = slot
      · subst hi
        rw [if_pos rfl, hfresh]
        simp
      · rw [if_neg hi]
        simp [Ne.symm hi]
    · rw [Function.update_of_ne hk]
      simp [Ne.symm hk]
  · by_cases h1 : u = v <;> by_cases h2 : u' = v
    · rw [h1, h2]
    · subst h1
      rw [Function.update_self] at hu
      rw [Function.update_of_ne h2] at hu'
      cases hu
      exact absurd hu' (hnobody u' r₂)
    · subst h2
      rw [Function.update_self] at hu'
      rw [Function.update_of_ne h1] at hu
      cases hu'
      exact absurd hu (hnobody u r₁)
    · rw [Function.update_of_ne h1] at hu
      rw [Function.update_of_ne h2] at hu'
      exact h.inj u u' r₁ r₂ reg hu hu'

theorem remove (h : SlabsMatch plain of) {v : V} {r : Span} {reg : PlainReg} (hv : of v = some (r, reg)) :
    SlabsMatch (Function.update plain reg.shard ((plain reg.shard).remove reg.slot)) (Function.update of v none) := by
  refine ⟨fun k => ?_, fun k i r' => ?_, fun u u' r₁ r₂ reg' hu hu' => ?_⟩
  · by_cases hk : k = reg.shard
    · subst hk
      rw [Function.update_self]
      exact Slab.wf_remove (h.wf reg.shard) reg.slot
    · rw [Function.update_of_ne hk]
      exact h.wf k
  · have hothers : (∃ u, Function.update of v none u = some (r', ⟨k, i⟩)) ↔
        (⟨k, i⟩ : PlainReg) ≠ reg ∧ ∃ u, of u = some (r', ⟨k, i⟩) := by
      constructor
      · rintro ⟨u, hu⟩
        have huv : u ≠ v := fun huv => by
          rw [huv, Function.update_self] at hu
          cases hu
        rw [Function.update_of_ne huv] at hu
        exact ⟨fun hreg => huv (h.inj u v r' r reg (hreg ▸ hu) hv), u, hu⟩
      · rintro ⟨hne, u, hu⟩
        refine ⟨u, ?_⟩
        rw [Function.update_of_ne (fun huv => by rw [huv, hv] at hu; cases hu; exact hne rfl)]
        exact hu
    rw [hothers, ← h.get k i r']
    by_cases hk : k = reg.shard
    · subst hk
      rw [Function.update_self, Slab.remove_get]
      by_cases hi : i = reg.slot
      · subst hi
        simp
      · rw [if_neg hi]
        exact ⟨fun hg => ⟨fun hreg => hi (by rw [← hreg]), hg⟩, fun hg => hg.2⟩
    · rw [Function.update_of_ne hk]
      exact ⟨fun hg => ⟨fun hreg => hk (by rw [← hreg]), hg⟩, fun hg => hg.2⟩
  · have hne : ∀ w r₀, Function.update of v none w = some (r₀, reg') → of w = some (r₀, reg') := fun w r₀ hw => by
      by_cases hwv : w = v
      · rw [hwv, Function.update_self] at hw
        cases hw
      · rw [Function.update_of_ne hwv] at hw
        exact hw
    exact h.inj u u' r₁ r₂ reg' (hne u r₁ hu) (hne u' r₂ hu')

end SlabsMatch

/-- The entries of the atomic set are the entries the tokens own, with distinct ids. -/
structure EntriesMatch (entries : List AtomicEntry) (of : V → Option AtomicEntry) : Prop where
  mem : ∀ e, e ∈ entries ↔ ∃ v, of v = some e
  nodup : (entries.map AtomicEntry.id).Nodup
  inj : ∀ v u e e', of v = some e → of u = some e' → e.id = e'.id → v = u

namespace EntriesMatch

variable {entries : List AtomicEntry} {of : V → Option AtomicEntry}

theorem push (h : EntriesMatch entries of) {v : V} (hv : of v = none) {e : AtomicEntry}
    (hid : ∀ u e', of u = some e' → e'.id ≠ e.id) :
    EntriesMatch (entries ++ [e]) (Function.update of v (some e)) := by
  refine ⟨fun e' => ?_, ?_, fun u u' e₁ e₂ hu hu' heq => ?_⟩
  · rw [List.mem_append, List.mem_singleton, h.mem]
    constructor
    · rintro (⟨u, hu⟩ | rfl)
      · refine ⟨u, ?_⟩
        rw [Function.update_of_ne (fun huv => by rw [huv, hv] at hu; cases hu)]
        exact hu
      · exact ⟨v, Function.update_self ..⟩
    · rintro ⟨u, hu⟩
      by_cases huv : u = v
      · rw [huv, Function.update_self] at hu
        cases hu
        exact Or.inr rfl
      · rw [Function.update_of_ne huv] at hu
        exact Or.inl ⟨u, hu⟩
  · rw [List.map_append, List.map_singleton, List.nodup_append]
    refine ⟨h.nodup, List.nodup_singleton _, ?_⟩
    intro a ha b hb
    obtain ⟨e', he', rfl⟩ := List.mem_map.1 ha
    rw [List.mem_singleton.1 hb]
    obtain ⟨u, hu⟩ := (h.mem e').1 he'
    exact hid u e' hu
  · by_cases h1 : u = v <;> by_cases h2 : u' = v
    · rw [h1, h2]
    · rw [h1, Function.update_self] at hu
      rw [Function.update_of_ne h2] at hu'
      cases hu
      exact absurd heq.symm (hid u' e₂ hu')
    · rw [h2, Function.update_self] at hu'
      rw [Function.update_of_ne h1] at hu
      cases hu'
      exact absurd heq (hid u e₁ hu)
    · rw [Function.update_of_ne h1] at hu
      rw [Function.update_of_ne h2] at hu'
      exact h.inj u u' e₁ e₂ hu hu' heq

theorem remove (h : EntriesMatch entries of) {v : V} {e : AtomicEntry} (hv : of v = some e) {entries' : List AtomicEntry}
    (hp : entries'.Perm (entries.erase e)) : EntriesMatch entries' (Function.update of v none) := by
  have hnd : entries.Nodup := List.Nodup.of_map _ h.nodup
  refine ⟨fun e' => ?_, ?_, fun u u' e₁ e₂ hu hu' heq => ?_⟩
  · rw [hp.mem_iff, hnd.mem_erase_iff, h.mem]
    constructor
    · rintro ⟨hne, u, hu⟩
      refine ⟨u, ?_⟩
      rw [Function.update_of_ne (fun huv => by rw [huv, hv] at hu; cases hu; exact hne rfl)]
      exact hu
    · rintro ⟨u, hu⟩
      have huv : u ≠ v := fun huv => by
        rw [huv, Function.update_self] at hu
        cases hu
      rw [Function.update_of_ne huv] at hu
      exact ⟨fun hee => huv (h.inj u v e' e hu hv (by rw [hee])), u, hu⟩
  · exact ((hp.map AtomicEntry.id).nodup_iff).2 (h.nodup.sublist (List.erase_sublist.map _))
  · have hne : ∀ w e₀, Function.update of v none w = some e₀ → of w = some e₀ := fun w e₀ hw => by
      by_cases hwv : w = v
      · rw [hwv, Function.update_self] at hw
        cases hw
      · rw [Function.update_of_ne hwv] at hw
        exact hw
    exact h.inj u u' e₁ e₂ (hne u e₁ hu) (hne u' e₂ hu') heq

omit [DecidableEq V] in
/-- **As many entries as owners**, in any finite set that holds them all. -/
theorem length_eq_card (h : EntriesMatch entries of) (owners : Finset V) (ho : ∀ v, v ∈ owners ↔ of v ≠ none) :
    entries.length = owners.card := by
  have hnd : entries.Nodup := List.Nodup.of_map _ h.nodup
  rw [← List.toFinset_card_of_nodup hnd]
  refine (Finset.card_bij (fun v hv => (of v).get (Option.isSome_iff_ne_none.2 ((ho v).1 hv))) ?_ ?_ ?_).symm
  · intro v hv
    rw [List.mem_toFinset, h.mem]
    exact ⟨v, (Option.some_get _).symm⟩
  · intro v hv u hu heq
    exact h.inj v u _ _ (Option.some_get _).symm (Option.some_get _).symm (by rw [heq])
  · intro e he
    obtain ⟨v, hv⟩ := (h.mem e).1 (List.mem_toFinset.1 he)
    exact ⟨v, (ho v).2 (by rw [hv]; exact Option.some_ne_none e), by simp [hv]⟩

end EntriesMatch

theorem move_slabs {g g' : ViewRegistry V} {v : V} {pc : V → Pc} {p p' : Pc} (hm : Move g v p g' p') (hp : pc v = p)
    (h : SlabsMatch g.plain (Pc.slot ∘ pc)) : SlabsMatch g'.plain (Pc.slot ∘ Function.update pc v p') := by
  have hv : (Pc.slot ∘ pc) v = p.slot := congrArg Pc.slot hp
  cases hm
  case insert r sh =>
    rw [Function.comp_update]
    exact h.insert hv r sh
  case undo r reg =>
    rw [Function.comp_update]
    exact h.remove hv
  case removed r reg =>
    rw [Function.comp_update]
    exact h.remove hv
  all_goals
    rw [comp_update_eq]
    · exact h
    · exact hv.symm

/-! ## Ids

The ids given out so far are as many as the registrations that were given one; with fewer than `2 ^ 64` calls of
`register_atomic` the counter never wraps, so an id is fresh. -/

/-- `n` registrations called `register_atomic`; `next_id` counts those that were given an id. -/
structure Calls (n nextId : Nat) (pc : V → Pc) : Prop where
  called : ∃ called : Finset V, (∀ v, v ∈ called ↔ (pc v).isAtomic = true) ∧ called.card = n ∧
    nextId = (called.filter (fun v => (pc v).pushed = true)).card
  id_lt : ∀ v e, (pc v).entry = some e → e.id < nextId

theorem isAtomic_of_entry {p : Pc} (h : p.entry ≠ none) : p.isAtomic = true := by
  cases p <;> first | rfl | exact absurd rfl h

namespace Calls

variable {n nextId : Nat} {pc : V → Pc} {v : V} {p' : Pc}

omit [DecidableEq V] in
/-- A registration that was not given an id yet leaves room for one. -/
theorem nextId_lt (h : Calls n nextId pc) (ha : (pc v).isAtomic = true) (hpush : (pc v).pushed = false) : nextId < n := by
  obtain ⟨called, hmem, hcard, hid⟩ := h.called
  rw [hid, ← hcard]
  refine Finset.card_lt_card (Finset.filter_ssubset.2 ⟨v, (hmem v).2 ha, ?_⟩)
  rw [hpush]
  exact Bool.false_ne_true

omit [DecidableEq V] in
theorem length_lt (h : Calls n nextId pc) (ha : (pc v).isAtomic = true) (hv : (pc v).entry = none)
    {entries : List AtomicEntry} (he : EntriesMatch entries (Pc.entry ∘ pc)) : entries.length < n := by
  obtain ⟨called, hmem, hcard, -⟩ := h.called
  rw [he.length_eq_card (called.filter (fun u => (pc u).entry ≠ none)) (fun u => by
    rw [Finset.mem_filter, hmem]
    exact ⟨fun hu => hu.2, fun hu => ⟨isAtomic_of_entry hu, hu⟩⟩), ← hcard]
  exact Finset.card_lt_card (Finset.filter_ssubset.2 ⟨v, (hmem v).2 ha, fun hne => hne hv⟩)

theorem stay (h : Calls n nextId pc) (ha : p'.isAtomic = (pc v).isAtomic) (hpush : p'.pushed = (pc v).pushed)
    (he : p'.entry = (pc v).entry ∨ p'.entry = none) : Calls n nextId (Function.update pc v p') := by
  obtain ⟨called, hmem, hcard, hid⟩ := h.called
  refine ⟨⟨called, fun u => ?_, hcard, ?_⟩, fun u e hu => ?_⟩
  · rw [hmem u]
    exact iff_of_eq (congrArg (· = true) (congrFun (comp_update_eq ha) u).symm)
  · rw [hid]
    exact congrArg Finset.card (Finset.filter_congr fun u _ =>
      iff_of_eq (congrArg (· = true) (congrFun (comp_update_eq hpush) u).symm))
  · by_cases huv : u = v
    · rw [huv, Function.update_self] at hu
      rcases he with he | he
      · exact h.id_lt v e (he ▸ hu)
      · rw [he] at hu
        cases hu
    · rw [Function.update_of_ne huv] at hu
      exact h.id_lt u e hu

theorem call (h : Calls n nextId pc) (ha : (pc v).isAtomic = false) (ha' : p'.isAtomic = true) (hpush : p'.pushed = false)
    (he : p'.entry = none) : Calls (n + 1) nextId (Function.update pc v p') := by
  obtain ⟨called, hmem, hcard, hid⟩ := h.called
  have hv : v ∉ called := fun hv => by
    rw [hmem, ha] at hv
    cases hv
  refine ⟨⟨insert v called, fun u => ?_, by rw [Finset.card_insert_of_notMem hv, hcard], ?_⟩, fun u e hu => ?_⟩
  · rw [Finset.mem_insert]
    by_cases huv : u = v
    · subst huv
      simp [ha']
    · rw [Function.update_of_ne huv, ← hmem u]
      simp [huv]
  · rw [Finset.filter_insert, Function.update_self, hpush, if_neg Bool.false_ne_true, hid]
    refine congrArg Finset.card (Finset.filter_congr fun u hu => ?_)
    rw [Function.update_of_ne (fun huv : u = v => hv (huv ▸ hu))]
  · by_cases huv : u = v
    · rw [huv, Function.update_self, he] at hu
      cases hu
    · rw [Function.update_of_ne huv] at hu
      exact h.id_lt u e hu

theorem push (h : Calls n nextId pc) (ha : (pc v).isAtomic = true) (hpush : (pc v).pushed = false)
    (ha' : p'.isAtomic = true) (hpush' : p'.pushed = true) (he : ∀ e, p'.entry = some e → e.id = nextId) :
    Calls n (nextId + 1) (Function.update pc v p') := by
  obtain ⟨called, hmem, hcard, hid⟩ := h.called
  refine ⟨⟨called, fun u => ?_, hcard, ?_⟩, fun u e hu => ?_⟩
  · rw [hmem]
    by_cases huv : u = v
    · rw [huv, Function.update_self, ha, ha']
    · rw [Function.update_of_ne huv]
  · have hnot : v ∉ called.filter (fun u => (pc u).pushed = true) := fun hv => by
      rw [Finset.mem_filter, hpush] at hv
      cases hv.2
    rw [hid, ← Finset.card_insert_of_notMem hnot]
    refine congrArg Finset.card (Finset.ext fun u => ?_)
    rw [Finset.mem_insert, Finset.mem_filter, Finset.mem_filter]
    by_cases huv : u = v
    · subst huv
      simp [hpush', hmem, ha]
    · rw [Function.update_of_ne huv]
      simp [huv]
  · by_cases huv : u = v
    · rw [huv, Function.update_self] at hu
      exact Nat.lt_succ_of_le (Nat.le_of_eq (he e hu))
    · rw [Function.update_of_ne huv] at hu
      exact Nat.lt_succ_of_lt (h.id_lt u e hu)

end Calls

end Views
end MmapIo
