import MmapIo.ViewsOwn
/-!
# ViewsInv — what every run of the registration protocol keeps

`Inv` ties the registry to the program counters: who holds the lock, who owns which slot and which entry, what
`atomic_live` counts, and the exclusion itself (`Excl`): a plain registration whose slot an atomic one missed in its scan
is not past its last check.  `step_inv` shows that every step keeps it, `run_inv` lifts it to every run with fewer than
`2 ^ 64` atomic registrations (the ids of the set are 64-bit).
-/
namespace MmapIo
namespace Views

open Word Machine

variable {V : Type} [DecidableEq V]

/-! ## What `atomic_live` counts -/

/-- `atomic_live` is the number of entries, and one more while the holder of the write lock is ahead of the set. -/
structure CountsLive (atomicLive len : Nat) (ahead : V → Nat) : Prop where
  one : ∀ v, ahead v = 1 → atomicLive = len + 1
  zero : (∀ v, ahead v = 0) → atomicLive = len

theorem writing_of_counted : ∀ p : Pc, p.counted ≠ 0 → p.writing := by
  intro p hp
  cases p <;> trivial

theorem counted_le_one (p : Pc) : p.counted ≤ 1 := by
  cases p <;> simp [Pc.counted]

omit [DecidableEq V] in
theorem counted_eq_zero {l : RwLock V} {pc : V → Pc} (h : Held Pc.writing Pc.reading l pc) {v u : V} (hv : (pc v).writing)
    (hu : u ≠ v) : (pc u).counted = 0 := by
  by_contra hne
  exact hu (h.writer_unique (writing_of_counted _ hne) hv)

namespace CountsLive

variable {pc : V → Pc} {v : V} {p' : Pc} {live len : Nat}

theorem ahead (h : live = len + 1) (hc' : p'.counted = 1) : CountsLive live len (Pc.counted ∘ Function.update pc v p') := by
  refine ⟨fun _ _ => h, fun hz => ?_⟩
  have hv := hz v
  rw [Function.comp_apply, Function.update_self, hc'] at hv
  cases hv

theorem level (h : live = len) (hothers : ∀ u, u ≠ v → (pc u).counted = 0) (hc' : p'.counted = 0) :
    CountsLive live len (Pc.counted ∘ Function.update pc v p') := by
  refine ⟨fun u hu => ?_, fun _ => h⟩
  rw [Function.comp_apply] at hu
  by_cases huv : u = v
  · rw [huv, Function.update_self, hc'] at hu
    cases hu
  · rw [Function.update_of_ne huv, hothers u huv] at hu
    cases hu

theorem writer_eq (h : CountsLive live len (Pc.counted ∘ pc)) (hothers : ∀ u, u ≠ v → (pc u).counted = 0) :
    live = len + (pc v).counted := by
  rcases Nat.le_one_iff_eq_zero_or_eq_one.1 (counted_le_one (pc v)) with h0 | h1
  · rw [h0]
    refine h.zero fun u => ?_
    by_cases huv : u = v
    · rw [huv]
      exact h0
    · exact hothers u huv
  · rw [h1]
    exact h.one v h1

end CountsLive

theorem move_live {g g' : ViewRegistry V} {v : V} {pc : V → Pc} {p p' : Pc} (hm : Move g v p g' p') (hp : pc v = p)
    (hheld : Held Pc.writing Pc.reading g.lock pc) (hent : EntriesMatch g.atomics.entries (Pc.entry ∘ pc))
    (hlen : p.isAtomic = true → p.entry = none → g.atomics.entries.length + 1 < 2 ^ 64)
    (h : CountsLive g.atomicLive g.atomics.entries.length (Pc.counted ∘ pc)) :
    CountsLive g'.atomicLive g'.atomics.entries.length (Pc.counted ∘ Function.update pc v p') := by
  have hothers : p.writing → ∀ u, u ≠ v → (pc u).counted = 0 := fun hw u hu => counted_eq_zero hheld (hp ▸ hw) hu
  have hlive : p.writing → g.atomicLive = g.atomics.entries.length + p.counted := fun hw => by
    rw [← hp]
    exact h.writer_eq (hothers hw)
  cases hm
  case incr r size =>
    refine CountsLive.ahead ?_ rfl
    rw [hlive trivial]
    exact wrappingAdd_of_lt (hlen rfl rfl)
  case decr r size =>
    refine CountsLive.level ?_ (hothers trivial) rfl
    rw [hlive trivial]
    exact wrappingSub_of_le (hlen rfl rfl) (Nat.le_add_left ..)
  case dropDecr id =>
    refine CountsLive.level ?_ (hothers trivial) rfl
    rw [hlive trivial]
    exact wrappingSub_of_le (hlen rfl rfl) (Nat.le_add_left ..)
  case push r size =>
    refine CountsLive.level ?_ (hothers trivial) rfl
    rw [hlive trivial, List.length_append]
    rfl
  case found r size id es hes =>
    refine CountsLive.ahead ?_ rfl
    have hmem : (⟨r, size, id⟩ : AtomicEntry) ∈ g.atomics.entries := (hent.mem _).2 ⟨v, congrArg Pc.entry hp⟩
    obtain ⟨es', hes', hperm⟩ := AtomicSet.removeId_perm hent.nodup hmem
    cases hes.symm.trans hes'
    rw [hlive trivial, hperm.length_eq, List.length_erase_add_one hmem]
    rfl
  all_goals
    rw [comp_update_eq]
    · exact h
    · exact (congrArg Pc.counted hp).symm

/-! ## Sizes -/

/-- Entries of different sizes do not overlap, and the one about to be pushed keeps that. -/
structure SizesApart (entries : List AtomicEntry) (checked : V → Option (Span × Nat)) : Prop where
  pair : ∀ a ∈ entries, ∀ b ∈ entries, a.size ≠ b.size → overlaps a.range.start a.range.stop b.range.start b.range.stop = false
  next : ∀ v r size, checked v = some (r, size) → ∀ a ∈ entries, a.size ≠ size →
    overlaps a.range.start a.range.stop r.start r.stop = false

theorem overlaps_comm (a b c d : Nat) : overlaps a b c d = overlaps c d a b := by
  unfold overlaps
  rw [Bool.and_comm]

theorem writing_of_checked {p : Pc} {c : Span × Nat} (h : p.checked = some c) : p.writing := by
  cases p <;> trivial

theorem SizesApart.drop {entries : List AtomicEntry} {pc : V → Pc} (h : SizesApart entries (Pc.checked ∘ pc)) {v : V}
    {p' : Pc} (hc : ∀ c, p'.checked = some c → (pc v).checked = some c) {entries' : List AtomicEntry}
    (hsub : ∀ a ∈ entries', a ∈ entries) : SizesApart entries' (Pc.checked ∘ Function.update pc v p') := by
  refine ⟨fun a ha b hb => h.pair a (hsub a ha) b (hsub b hb), fun u r size hu a ha => ?_⟩
  rw [Function.comp_apply] at hu
  by_cases huv : u = v
  · rw [huv, Function.update_self] at hu
    exact h.next v r size (hc _ hu) a (hsub a ha)
  · rw [Function.update_of_ne huv] at hu
    exact h.next u r size hu a (hsub a ha)

theorem move_sizes {g g' : ViewRegistry V} {v : V} {pc : V → Pc} {p p' : Pc} (hm : Move g v p g' p') (hp : pc v = p)
    (hheld : Held Pc.writing Pc.reading g.lock pc) (hent : EntriesMatch g.atomics.entries (Pc.entry ∘ pc))
    (h : SizesApart g.atomics.entries (Pc.checked ∘ pc)) :
    SizesApart g'.atomics.entries (Pc.checked ∘ Function.update pc v p') := by
  cases hm
  case mixedMiss r size hmiss =>
    refine ⟨h.pair, fun u r' size' hu => ?_⟩
    rw [Function.comp_apply] at hu
    by_cases huv : u = v
    · rw [huv, Function.update_self] at hu
      cases hu
      exact hmiss
    · rw [Function.update_of_ne huv] at hu
      exact h.next u r' size' hu
  case push r size =>
    have hnext := h.next v r size (congrArg Pc.checked hp)
    refine ⟨fun a ha b hb hne => ?_, fun u r' size' hu => ?_⟩
    · rw [List.mem_append, List.mem_singleton] at ha hb
      rcases ha with ha | rfl <;> rcases hb with hb | rfl
      · exact h.pair a ha b hb hne
      · exact hnext a ha hne
      · rw [overlaps_comm]
        exact hnext b hb hne.symm
      · exact absurd rfl hne
    · -- nobody else is in the write section
      rw [Function.comp_apply] at hu
      by_cases huv : u = v
      · rw [huv, Function.update_self] at hu
        cases hu
      · rw [Function.update_of_ne huv] at hu
        exact absurd (hheld.writer_unique (writing_of_checked hu) (by rw [hp]; trivial)) huv
  case found r size id es hes =>
    have hmem : (⟨r, size, id⟩ : AtomicEntry) ∈ g.atomics.entries := (hent.mem _).2 ⟨v, congrArg Pc.entry hp⟩
    obtain ⟨es', hes', hperm⟩ := AtomicSet.removeId_perm hent.nodup hmem
    cases hes.symm.trans hes'
    exact h.drop (fun c hc => by cases hc) (fun a ha => List.mem_of_mem_erase (hperm.mem_iff.1 ha))
  case incr | shardMiss | scanned => exact h.drop (fun c hc => by rw [hp]; exact hc) (fun a ha => ha)
  all_goals exact h.drop (fun c hc => by cases hc) (fun a ha => ha)

/-! ## Entries and calls -/

theorem move_entries {g g' : ViewRegistry V} {v : V} {pc : V → Pc} {p p' : Pc} (hm : Move g v p g' p') (hp : pc v = p)
    (hid : ∀ u e, (pc u).entry = some e → e.id < g.atomics.nextId)
    (h : EntriesMatch g.atomics.entries (Pc.entry ∘ pc)) :
    EntriesMatch g'.atomics.entries (Pc.entry ∘ Function.update pc v p') := by
  have hv : (Pc.entry ∘ pc) v = p.entry := congrArg Pc.entry hp
  cases hm
  case push r size =>
    rw [Function.comp_update]
    exact h.push hv (fun u e' hu => Nat.ne_of_lt (hid u e' hu))
  case found r size id es hes =>
    rw [Function.comp_update]
    obtain ⟨es', hes', hperm⟩ := AtomicSet.removeId_perm h.nodup ((h.mem _).2 ⟨v, hv⟩)
    cases hes.symm.trans hes'
    exact h.remove hv hperm
  case missing r size id hes =>
    -- its own entry is there to be found
    obtain ⟨es', hes', -⟩ := AtomicSet.removeId_perm h.nodup ((h.mem _).2 ⟨v, hv⟩)
    cases hes.symm.trans hes'
  all_goals
    rw [comp_update_eq]
    · exact h
    · exact hv.symm

theorem move_calls {g g' : ViewRegistry V} {v : V} {pc : V → Pc} {p p' : Pc} {n : Nat} (hm : Move g v p g' p')
    (hp : pc v = p) (hn : n < 2 ^ 64) (h : Calls n g.atomics.nextId pc) :
    Calls (if p = .idle ∧ p'.isAtomic = true then n + 1 else n) g'.atomics.nextId (Function.update pc v p') := by
  subst hp
  cases hpc : pc v <;> rw [hpc] at hm <;> cases hm
  case idle.registerAtomic r size hr =>
    exact h.call (by rw [hpc]; rfl) rfl rfl rfl
  case aPush.push r size =>
    have hlt : g.atomics.nextId < n := h.nextId_lt (v := v) (by rw [hpc]; rfl) (by rw [hpc]; rfl)
    simp only [reduceCtorEq, false_and, if_false]
    rw [wrappingAdd_of_lt (Nat.lt_of_le_of_lt hlt hn)]
    exact h.push (by rw [hpc]; rfl) (by rw [hpc]; rfl) rfl rfl (fun e he => by cases he; rfl)
  all_goals
    refine h.stay (by rw [hpc]; rfl) (by rw [hpc]; rfl) ?_
    rw [hpc]
    first | exact Or.inl rfl | exact Or.inr rfl

/-! ## The exclusion -/

/-- **A plain registration that an atomic one missed is not settled**: when the atomic registration has already scanned
the shard of an overlapping plain one, that one came later, and so will see it. -/
def Excl (pc : V → Pc) : Prop :=
  ∀ v u r reg r' k, (pc v).slot = some (r, reg) → (pc u).announced = some (r', k) → reg.shard < k →
    overlaps r.start r.stop r'.start r'.stop = true → ¬ (pc v).settled

theorem Excl.plain {pc : V → Pc} (h : Excl pc) {v : V} {p' : Pc} (ha : p'.announced = none)
    (hnew : ∀ u r reg r' k, p'.slot = some (r, reg) → (pc u).announced = some (r', k) → reg.shard < k →
      overlaps r.start r.stop r'.start r'.stop = true → ¬ p'.settled) : Excl (Function.update pc v p') := by
  intro w u r reg r' k hw hu
  have huv : u ≠ v := fun huv => by
    rw [huv, Function.update_self, ha] at hu
    cases hu
  rw [Function.update_of_ne huv] at hu
  by_cases hwv : w = v
  · rw [hwv, Function.update_self] at hw ⊢
    exact hnew u r reg r' k hw hu
  · rw [Function.update_of_ne hwv] at hw ⊢
    exact h w u r reg r' k hw hu

theorem Excl.atomic {pc : V → Pc} (h : Excl pc) {v : V} {p' : Pc} (hs : p'.slot = none)
    (hnew : ∀ w r reg r' k, (pc w).slot = some (r, reg) → p'.announced = some (r', k) → reg.shard < k →
      overlaps r.start r.stop r'.start r'.stop = true → ¬ (pc w).settled) : Excl (Function.update pc v p') := by
  intro w u r reg r' k hw hu
  have hwv : w ≠ v := fun hwv => by
    rw [hwv, Function.update_self, hs] at hw
    cases hw
  rw [Function.update_of_ne hwv] at hw ⊢
  by_cases huv : u = v
  · rw [huv, Function.update_self] at hu
    exact hnew w r reg r' k hw hu
  · rw [Function.update_of_ne huv] at hu
    exact h w u r reg r' k hw hu

theorem announced_cases {p : Pc} {r : Span} {k : Nat} (h : p.announced = some (r, k)) :
    (∃ size id, p.entry = some ⟨r, size, id⟩) ∨ p.counted = 1 := by
  cases p
  case aScan | aPush => exact Or.inr rfl
  case aReleaseOk | dWriteLock | dFind =>
    cases h
    exact Or.inl ⟨_, _, rfl⟩
  case atomicLive r₁ size id =>
    cases id with
    | none => cases h
    | some id =>
      cases h
      exact Or.inl ⟨_, _, rfl⟩
  all_goals cases h

omit [DecidableEq V] in
/-- **A plain registration that loads `atomic_live == 0` overlaps no announced registration**: there is none. -/
theorem announced_of_live_zero {pc : V → Pc} {entries : List AtomicEntry} (hent : EntriesMatch entries (Pc.entry ∘ pc))
    (hlive : CountsLive 0 entries.length (Pc.counted ∘ pc)) {u : V} : (pc u).announced = none := by
  cases hu : (pc u).announced with
  | none => rfl
  | some rk =>
    rcases announced_cases hu with ⟨size, id, he⟩ | hc
    · have hpos := List.length_pos_of_mem ((hent.mem _).2 ⟨u, he⟩)
      by_cases hz : ∀ w, (Pc.counted ∘ pc) w = 0
      · have := hlive.zero hz
        omega
      · obtain ⟨w, hw⟩ := not_forall.1 hz
        have := hlive.one w (Nat.le_antisymm (counted_le_one (pc w)) (Nat.pos_of_ne_zero hw))
        omega
    · exact absurd (hlive.one u hc) (by omega)

theorem move_excl {g g' : ViewRegistry V} {v : V} {pc : V → Pc} {p p' : Pc} (hm : Move g v p g' p') (hp : pc v = p)
    (hheld : Held Pc.writing Pc.reading g.lock pc) (hslab : SlabsMatch g.plain (Pc.slot ∘ pc))
    (hent : EntriesMatch g.atomics.entries (Pc.entry ∘ pc))
    (hlive : CountsLive g.atomicLive g.atomics.entries.length (Pc.counted ∘ pc))
    (h : Excl pc) : Excl (Function.update pc v p') := by
  cases hm
  -- the two steps that settle a plain registration
  case loadZero r reg hz =>
    refine h.plain rfl fun u r₁ reg₁ r' k _ hu _ _ => ?_
    rw [hz] at hlive
    rw [announced_of_live_zero hent hlive] at hu
    cases hu
  case scanMiss r reg hmiss =>
    refine h.plain rfl fun u r₁ reg₁ r' k hs hu _ hov => ?_
    cases hs
    rcases announced_cases hu with ⟨size, id, he⟩ | hc
    · have hno := hmiss _ ((hent.mem _).2 ⟨u, he⟩)
      rw [overlaps_comm, hov] at hno
      cases hno
    · exact absurd (by rw [hp]; trivial) (hheld.no_reader (u := v) (writing_of_counted (pc u) (by rw [hc]; exact one_ne_zero)))
  case releaseOk r reg | dropPlain r reg =>
    refine h.plain rfl fun u r₁ reg₁ r' k hs hu hlt hov => ?_
    have hset := h v u r₁ reg₁ r' k (by rw [hp]; exact hs) hu hlt hov
    rw [hp] at hset
    exact hset
  -- the steps that extend the scan of an atomic one
  case incr r size =>
    refine h.atomic rfl fun w r₁ reg r' k' hw hu hlt hov => ?_
    cases hu
    exact absurd hlt (Nat.not_lt_zero _)
  case shardMiss r size k hmiss =>
    refine h.atomic rfl fun w r₁ reg r' k' hw hu hlt hov => ?_
    cases hu
    rcases Nat.lt_or_eq_of_le (Nat.le_of_lt_succ hlt) with hlt | heq
    · exact h w v r₁ reg _ k hw (by rw [hp]; rfl) hlt hov
    · have hk : reg.shard = k := Fin.ext heq
      have hget := (hslab.get k reg.slot r₁).2 ⟨w, by rw [← hk]; exact hw⟩
      have hov' := (Slab.overlaps_iff (g.plain k) r.start r.stop).2 ⟨reg.slot, r₁, hget, hov⟩
      rw [hmiss] at hov'
      cases hov'
  case scanned r size k hk =>
    refine h.atomic rfl fun w r₁ reg r' k' hw hu hlt hov => ?_
    cases hu
    exact h w v r₁ reg _ k hw (by rw [hp]; rfl) (Nat.lt_of_lt_of_le hlt hk) hov
  case push | unlockOk | dropAtomic | dropLock =>
    exact h.atomic rfl fun w r₁ reg r' k hw hu => h w v r₁ reg r' k hw (by rw [hp]; exact hu)
  case registerPlain | insert | loadSome | readLock | scanHit | releaseErr | undo | removed =>
    exact h.plain rfl fun _ _ _ _ _ _ _ _ _ => id
  all_goals exact h.atomic rfl fun _ _ _ _ _ _ hu => by cases hu

/-! ## The invariant -/

/-- **What holds in every state of a run with `n` atomic registrations so far.** -/
structure Inv (n : Nat) (s : State V) : Prop where
  held : Held Pc.writing Pc.reading s.reg.lock s.pc
  slabs : SlabsMatch s.reg.plain (Pc.slot ∘ s.pc)
  entries : EntriesMatch s.reg.atomics.entries (Pc.entry ∘ s.pc)
  calls : Calls n s.reg.atomics.nextId s.pc
  live : CountsLive s.reg.atomicLive s.reg.atomics.entries.length (Pc.counted ∘ s.pc)
  sizes : SizesApart s.reg.atomics.entries (Pc.checked ∘ s.pc)
  ranged : ∀ v, (s.pc v).ranged
  excl : Excl s.pc

omit [DecidableEq V] in
theorem inv_init : Inv 0 (State.init : State V) where
  held := ⟨fun v => by simp [State.init, ViewRegistry.new, Pc.writing], fun v => by
    simp [State.init, ViewRegistry.new, Pc.reading]⟩
  slabs := ⟨fun _ => Slab.wf_empty, fun sh i r => by
    simp [State.init, ViewRegistry.new, Slab.get_empty, Pc.slot], fun v u r r' reg hv => by cases hv⟩
  entries := ⟨fun e => by simp [State.init, ViewRegistry.new, Pc.entry], List.nodup_nil, fun v u e e' hv => by cases hv⟩
  calls := ⟨⟨∅, fun v => by simp [State.init, Pc.isAtomic], rfl, rfl⟩, fun v e he => by cases he⟩
  live := ⟨fun v hv => (by cases hv), fun _ => rfl⟩
  sizes := ⟨fun a ha => (by cases ha), fun v r size hv => (by cases hv)⟩
  ranged := fun _ => trivial
  excl := fun v u r reg r' k hv => by cases hv

theorem move_ranged {g g' : ViewRegistry V} {v : V} {p p' : Pc} (hm : Move g v p g' p') (h : p.ranged) : p'.ranged := by
  cases hm
  case registerPlain hr | registerAtomic hr => exact hr
  case enter hne => exact Nat.lt_of_le_of_ne h hne
  case enterEmpty heq => exact heq
  all_goals first | exact h | trivial

/-- **Every step keeps the invariant**, as long as the ids do not wrap. -/
theorem step_inv {n : Nat} {s s' : State V} {a : Action V} (hn : n < 2 ^ 64) (h : Inv n s) (hs : step s a = some s') :
    Inv (n + if a.isRegisterAtomic then 1 else 0) s' := by
  obtain ⟨v, p', hpc, hm, hcall⟩ := step_move hs
  obtain ⟨reg', pc'⟩ := s'
  simp only at hpc hm
  subst hpc
  have hlen : (s.pc v).isAtomic = true → (s.pc v).entry = none → s.reg.atomics.entries.length + 1 < 2 ^ 64 :=
    fun ha he => Nat.lt_of_le_of_lt (h.calls.length_lt ha he h.entries) hn
  have hcalls := move_calls hm rfl hn h.calls
  refine ⟨move_held hm rfl h.held, move_slabs hm rfl h.slabs, move_entries hm rfl h.calls.id_lt h.entries, ?_,
    move_live hm rfl h.held h.entries hlen h.live, move_sizes hm rfl h.held h.entries h.sizes, fun u => ?_,
    move_excl hm rfl h.held h.slabs h.entries h.live h.excl⟩
  · by_cases ha : a.isRegisterAtomic = true
    · rw [if_pos (hcall.1 ha)] at hcalls
      rw [if_pos ha]
      exact hcalls
    · rw [if_neg (fun hc => ha (hcall.2 hc))] at hcalls
      rw [if_neg ha]
      exact hcalls
  · simp only
    by_cases hu : u = v
    · rw [hu, Function.update_self]
      exact move_ranged hm (h.ranged v)
    · rw [Function.update_of_ne hu]
      exact h.ranged u

/-- **Every run keeps it**, while fewer than `2 ^ 64` atomic registrations were called. -/
theorem run_inv {acts : List (Action V)} {s : State V} (hr : Machine.run step State.init acts = some s)
    (hn : acts.countP Action.isRegisterAtomic < 2 ^ 64) : Inv (acts.countP Action.isRegisterAtomic) s := by
  refine Machine.run_induction (fun as s => as.countP Action.isRegisterAtomic < 2 ^ 64 →
    Inv (as.countP Action.isRegisterAtomic) s) (fun _ => inv_init) ?_ acts s hr hn
  intro as a s₁ s₂ _ ih hs hlt
  rw [List.countP_append, List.countP_singleton] at hlt ⊢
  have hlt' := Nat.lt_of_le_of_lt (Nat.le_add_right _ _) hlt
  exact step_inv hlt' (ih hlt') hs

end Views
end MmapIo
