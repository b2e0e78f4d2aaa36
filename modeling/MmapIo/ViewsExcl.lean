import Mathlib.Data.Set.Card
import MmapIo.ViewsInv
/-!
# ViewsExcl — view exclusion

What the invariant says about the views that were returned: no plain view shares a byte with an atomic one, no two atomic
views of different element sizes share a byte, and at rest the registry holds exactly the live views.
-/
namespace MmapIo
namespace Views

variable {V : Type}

/-- A plain view that was returned and whose registration is not removed yet. -/
def Pc.plainView : Pc → Option Span
  | .plainLive r _ | .pDrop r _ => some r
  | _ => none

/-- An atomic view that was returned and whose registration is not removed yet: its range and its element size. -/
def Pc.atomicView : Pc → Option (Span × Nat)
  | .atomicLive r size _ | .dWriteLock r size _ | .dFind r size _ => some (r, size)
  | _ => none

/-- **The registry holds exactly the live views**: every live view its own slot or entry, nothing else, and `atomic_live`
is the number of live atomic views that are not empty. -/
structure HoldsExactly (s : State V) : Prop where
  slot_of_live : ∀ v r reg, s.pc v = .plainLive r reg → (s.reg.plain reg.shard).get reg.slot = some r
  live_of_slot : ∀ sh i r, (s.reg.plain sh).get i = some r → ∃! v, s.pc v = .plainLive r ⟨sh, i⟩
  entry_of_live : ∀ v r size id, s.pc v = .atomicLive r size id → r.start < r.stop →
    ∃ i, id = some i ∧ (⟨r, size, i⟩ : AtomicEntry) ∈ s.reg.atomics.entries
  live_of_entry : ∀ e ∈ s.reg.atomics.entries, ∃! v, s.pc v = .atomicLive e.range e.size (some e.id)
  entries_nodup : s.reg.atomics.entries.Nodup
  atomicLive_eq : (s.reg.atomicLive : ℕ∞) = Set.encard {v | ∃ r size id, s.pc v = .atomicLive r size id ∧ r.start < r.stop}

theorem slot_of_plainView {p : Pc} {r : Span} (h : p.plainView = some r) : (∃ reg, p.slot = some (r, reg)) ∧ p.settled := by
  cases p
  case plainLive | pDrop =>
    cases h
    exact ⟨⟨_, rfl⟩, trivial⟩
  all_goals cases h

/-- A returned atomic view is empty, or owns an entry and has scanned every shard. -/
theorem entry_of_atomicView {p : Pc} {r : Span} {size : Nat} (h : p.atomicView = some (r, size)) (hr : p.ranged) :
    r.start = r.stop ∨ (∃ id, p.entry = some ⟨r, size, id⟩) ∧ p.announced = some (r, shards) ∧ r.start < r.stop := by
  cases p
  case dWriteLock | dFind =>
    cases h
    exact Or.inr ⟨⟨_, rfl⟩, rfl, hr⟩
  case atomicLive r₁ size₁ id =>
    cases h
    cases id with
    | none => exact Or.inl hr
    | some id => exact Or.inr ⟨⟨_, rfl⟩, rfl, hr⟩
  all_goals cases h

theorem plainView_ranged {p : Pc} {r : Span} (h : p.plainView = some r) (hr : p.ranged) : r.start < r.stop := by
  cases p
  case plainLive | pDrop =>
    cases h
    exact hr
  all_goals cases h

theorem disjoint_of_empty {a b : Span} (h : a.start = a.stop) : Disjoint a.bytes b.bytes := by
  rw [Span.bytes, h, Set.Ico_self]
  exact Set.empty_disjoint _

theorem disjoint_of_overlaps {a b : Span} (ha : a.start < a.stop) (hb : b.start < b.stop)
    (h : overlaps a.start a.stop b.start b.stop = false) : Disjoint a.bytes b.bytes := by
  by_contra hd
  rw [(overlaps_iff ha hb).2 hd] at h
  cases h

variable {n : Nat} {s : State V}

theorem plain_atomic_disjoint (h : Inv n s) {v u : V} {r r' : Span} {size : Nat} (hv : (s.pc v).plainView = some r)
    (hu : (s.pc u).atomicView = some (r', size)) : Disjoint r.bytes r'.bytes := by
  obtain ⟨⟨reg, hslot⟩, hset⟩ := slot_of_plainView hv
  rcases entry_of_atomicView hu (h.ranged u) with he | ⟨-, hann, hr'⟩
  · exact (disjoint_of_empty he).symm
  · refine disjoint_of_overlaps (plainView_ranged hv (h.ranged v)) hr' ?_
    by_contra hov
    exact h.excl v u r reg r' shards hslot hann reg.shard.isLt (by simpa using hov) hset

theorem atomic_sizes_disjoint (h : Inv n s) {v u : V} {r r' : Span} {size size' : Nat}
    (hv : (s.pc v).atomicView = some (r, size)) (hu : (s.pc u).atomicView = some (r', size')) (hne : size ≠ size') :
    Disjoint r.bytes r'.bytes := by
  rcases entry_of_atomicView hv (h.ranged v) with he | ⟨⟨id, he⟩, -, hr⟩
  · exact disjoint_of_empty he
  rcases entry_of_atomicView hu (h.ranged u) with he' | ⟨⟨id', he'⟩, -, hr'⟩
  · exact (disjoint_of_empty he').symm
  exact disjoint_of_overlaps hr hr'
    (h.sizes.pair _ ((h.entries.mem _).2 ⟨v, he⟩) _ ((h.entries.mem _).2 ⟨u, he'⟩) hne)

theorem slot_of_resting {p : Pc} (hp : p.resting = true) {r : Span} {reg : PlainReg} (h : p.slot = some (r, reg)) :
    p = .plainLive r reg := by
  cases p
  case plainLive =>
    cases h
    rfl
  case idle | plainErr | plainDropped | atomicErr | atomicLive | atomicDropped => cases h
  all_goals cases hp

theorem entry_of_resting {p : Pc} (hp : p.resting = true) {e : AtomicEntry} (h : p.entry = some e) :
    p = .atomicLive e.range e.size (some e.id) := by
  cases p
  case atomicLive r size id =>
    cases id with
    | none => cases h
    | some id =>
      cases h
      rfl
  case idle | plainErr | plainLive | plainDropped | atomicErr | atomicDropped => cases h
  all_goals cases hp

theorem counted_of_resting {p : Pc} (hp : p.resting = true) : p.counted = 0 := by
  cases p <;> first | rfl | cases hp

theorem holdsExactly (h : Inv n s) (hrest : ∀ v, (s.pc v).resting = true) : HoldsExactly s := by
  have hlive : ∀ v r size id, s.pc v = .atomicLive r size id → r.start < r.stop → ∃ i, id = some i := by
    intro v r size id hv hr
    have hrange := h.ranged v
    rw [hv] at hrange
    cases id with
    | none => exact absurd hrange (Nat.ne_of_lt hr)
    | some i => exact ⟨i, rfl⟩
  have hentry : ∀ e, e ∈ s.reg.atomics.entries → ∃! v, s.pc v = .atomicLive e.range e.size (some e.id) := by
    intro e he
    obtain ⟨v, hv⟩ := (h.entries.mem e).1 he
    refine ⟨v, entry_of_resting (hrest v) hv, fun u hu => ?_⟩
    exact h.entries.inj u v e e (congrArg Pc.entry hu) hv rfl
  refine ⟨fun v r reg hv => ?_, fun sh i r hget => ?_, fun v r size id hv hr => ?_, hentry, h.entries.nodup.of_map, ?_⟩
  · exact (h.slabs.get _ _ _).2 ⟨v, congrArg Pc.slot hv⟩
  · obtain ⟨v, hv⟩ := (h.slabs.get sh i r).1 hget
    exact ⟨v, slot_of_resting (hrest v) hv, fun u hu => h.slabs.inj u v r r _ (congrArg Pc.slot hu) hv⟩
  · obtain ⟨i, rfl⟩ := hlive v r size id hv hr
    exact ⟨i, rfl, (h.entries.mem _).2 ⟨v, congrArg Pc.entry hv⟩⟩
  · obtain ⟨called, hmem, -, -⟩ := h.calls.called
    have howners : ∀ v, v ∈ called.filter (fun v => (s.pc v).entry ≠ none) ↔ (s.pc v).entry ≠ none := fun v => by
      rw [Finset.mem_filter, hmem]
      exact ⟨fun hv => hv.2, fun hv => ⟨isAtomic_of_entry hv, hv⟩⟩
    rw [h.live.zero (fun v => counted_of_resting (hrest v)), h.entries.length_eq_card _ howners,
      ← Set.encard_coe_eq_coe_finsetCard]
    refine congrArg Set.encard (Set.ext fun v => ?_)
    rw [Finset.mem_coe, howners, Set.mem_ofPred_eq]
    constructor
    · intro hv
      obtain ⟨e, he⟩ := Option.ne_none_iff_exists'.1 hv
      have hpc := entry_of_resting (hrest v) he
      have hrange := h.ranged v
      rw [hpc] at hrange
      exact ⟨e.range, e.size, some e.id, hpc, hrange⟩
    · rintro ⟨r, size, id, hv, hr⟩
      obtain ⟨i, rfl⟩ := hlive v r size id hv hr
      rw [hv]
      exact Option.some_ne_none _

variable [DecidableEq V]

/-- **View exclusion.** In every state that a run with fewer than `2 ^ 64` atomic registrations reaches, plain views and
atomic views share no byte, nor do atomic views of different element sizes; and whenever no call and no drop is in progress
the registry holds exactly the live views. -/
theorem view_exclusion (acts : List (Action V)) (s : State V) (hr : Machine.run step State.init acts = some s)
    (hn : acts.countP Action.isRegisterAtomic < 2 ^ 64) :
    (∀ v u r r' size, (s.pc v).plainView = some r → (s.pc u).atomicView = some (r', size) → Disjoint r.bytes r'.bytes) ∧
    (∀ v u r r' size size', (s.pc v).atomicView = some (r, size) → (s.pc u).atomicView = some (r', size') →
      size ≠ size' → Disjoint r.bytes r'.bytes) ∧
    ((∀ v, (s.pc v).resting = true) → HoldsExactly s) := by
  have h := run_inv hr hn
  exact ⟨fun _ _ _ _ _ hv hu => plain_atomic_disjoint h hv hu,
    fun _ _ _ _ _ _ hv hu hne => atomic_sizes_disjoint h hv hu hne, holdsExactly h⟩

/-- A plain view of `[0, 4)`, an atomic one beside it, and an atomic registration over the plain view that fails. -/
def threeRegistrations : List (Action Nat) :=
  [.registerPlain 0 ⟨0, 4⟩ ⟨3, by decide⟩, .advance 0, .registerAtomic 1 ⟨4, 8⟩ 4, .advance 1, .advance 1, .advance 1, .advance 1,
    .advance 0] ++ List.replicate 10 (.advance 1) ++ [.advance 1, .advance 0, .advance 0, .advance 0,
    .registerAtomic 2 ⟨2, 6⟩ 4] ++ List.replicate 10 (.advance 2)

theorem view_exclusion_threeRegistrations : ∃ s : State Nat, Machine.run step State.init threeRegistrations = some s ∧
    (s.pc 0).plainView = some ⟨0, 4⟩ ∧ (s.pc 1).atomicView = some (⟨4, 8⟩, 4) ∧ s.pc 2 = .atomicErr .plainLive ∧
    Disjoint (Span.bytes ⟨0, 4⟩) (Span.bytes ⟨4, 8⟩) := by
  have hd : (Machine.run step State.init threeRegistrations).map (fun s => (s.pc 0, s.pc 1, s.pc 2)) =
      some (.plainLive ⟨0, 4⟩ ⟨⟨3, by decide⟩, 0⟩, .atomicLive ⟨4, 8⟩ 4 (some 0), .atomicErr .plainLive) := by decide
  obtain ⟨s, hs, hpc⟩ := Option.map_eq_some_iff.1 hd
  simp only [Prod.mk.injEq] at hpc
  have h0 : (s.pc 0).plainView = some ⟨0, 4⟩ := by rw [hpc.1]; rfl
  have h1 : (s.pc 1).atomicView = some (⟨4, 8⟩, 4) := by rw [hpc.2.1]; rfl
  exact ⟨s, hs, h0, h1, hpc.2.2, (view_exclusion threeRegistrations s hs (by decide)).1 0 1 _ _ _ h0 h1⟩

end Views
end MmapIo
