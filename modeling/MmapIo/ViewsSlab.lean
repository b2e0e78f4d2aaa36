import MmapIo.Lib.Machine
import MmapIo.Views
/-!
# ViewsSlab — a shard's slab over whole runs

`Slab` keeps one set of live ranges twice, as the filled entries and as the complement of the free list.  Here it is run
against what it stands for, the list of the ranges handed out and not yet given back (`Shard.live`): `Shard.Agrees` says how
the two agree in every reachable state, and `slab_bookkeeping` what follows for each call and for the size of the slab.
-/
namespace MmapIo

open Machine (run EachStep)

inductive SlabOp where
  | insert (range : Span)
  | remove (slot : Nat)
  deriving DecidableEq, Repr

/-- A slab and, beside it, the live ranges with the slots they were given. -/
structure Shard where
  slab : Slab
  live : List (Nat × Span)
  deriving DecidableEq, Repr

namespace Shard

def empty : Shard := ⟨Slab.empty, []⟩

/-- One call.  An empty range is never registered; any slot may be removed, live or not. -/
def step (s : Shard) : SlabOp → Option Shard
  | .insert range =>
    if range.start < range.stop then
      some ⟨(s.slab.insert range).1, ((s.slab.insert range).2, range) :: s.live⟩
    else none
  | .remove slot => some ⟨s.slab.remove slot, s.live.filter (fun p => p.1 ≠ slot)⟩

/-- **The two representations agree.** -/
structure Agrees (s : Shard) : Prop where
  wf : s.slab.Wf
  get_iff : ∀ slot r, s.slab.get slot = some r ↔ (slot, r) ∈ s.live
  slots : (s.live.map Prod.fst).Nodup
  nonempty : ∀ p ∈ s.live, p.2.start < p.2.stop
  count : s.slab.entries.length = s.slab.free.length + s.live.length

theorem agrees_empty : Agrees empty where
  wf := Slab.wf_empty
  get_iff slot r := by simp [empty, Slab.get_empty]
  slots := List.nodup_nil
  nonempty p hp := by cases hp
  count := rfl

/-- A slot with no live range is in no live pair. -/
theorem Agrees.not_live {s : Shard} (h : s.Agrees) {slot : Nat} (hs : s.slab.get slot = none) :
    slot ∉ s.live.map Prod.fst := by
  rintro hmem
  obtain ⟨⟨i, r⟩, hp, rfl⟩ := List.mem_map.1 hmem
  rw [(h.get_iff i r).2 hp] at hs
  cases hs

/-! ## What each call does to the two counts -/

theorem insert_count (s : Slab) (range : Span) :
    (s.insert range).1.entries.length + s.free.length = s.entries.length + (s.insert range).1.free.length + 1 ∧
      ((s.insert range).1.entries.length = s.entries.length ∨
        s.entries.length < (s.insert range).1.entries.length ∧ (s.insert range).1.free = []) := by
  unfold Slab.insert
  cases s.free with
  | nil => simp
  | cons slot rest =>
    simp
    omega

/-- A slot that holds no range is left alone by `remove`. -/
theorem remove_of_none {s : Slab} {slot : Nat} (h : s.get slot = none) : s.remove slot = s := by
  unfold Slab.remove
  split
  · rename_i r hr
    rw [Slab.get_eq_some.2 hr] at h
    cases h
  · rfl

theorem remove_count {s : Slab} {slot : Nat} {r : Span} (h : s.get slot = some r) :
    (s.remove slot).entries.length = s.entries.length ∧ (s.remove slot).free.length = s.free.length + 1 := by
  have hr := Slab.get_eq_some.1 h
  unfold Slab.remove
  rw [hr]
  simp

/-- `insert` writes one entry. -/
theorem insert_entries {s : Slab} {range : Span} {i : Nat} (hi : i ≠ (s.insert range).2) :
    (s.insert range).1.entries[i]? = s.entries[i]? := by
  unfold Slab.insert at hi ⊢
  cases hf : s.free with
  | nil =>
    rw [hf] at hi
    simp only at hi ⊢
    rcases Nat.lt_or_gt_of_ne hi with hlt | hgt
    · rw [List.getElem?_append_left hlt]
    · rw [List.getElem?_eq_none (by simp; omega), List.getElem?_eq_none (Nat.le_of_lt hgt)]
  | cons slot rest =>
    rw [hf] at hi
    exact List.getElem?_set_ne (Ne.symm hi)

/-- `remove` writes one entry at most. -/
theorem remove_entries (s : Slab) {slot i : Nat} (hi : i ≠ slot) : (s.remove slot).entries[i]? = s.entries[i]? := by
  unfold Slab.remove
  split
  · exact List.getElem?_set_ne (Ne.symm hi)
  · rfl

/-! ## One step -/

theorem agrees_insert {s : Shard} (h : s.Agrees) {range : Span} (hr : range.start < range.stop) :
    Agrees ⟨(s.slab.insert range).1, ((s.slab.insert range).2, range) :: s.live⟩ where
  wf := Slab.wf_insert h.wf range
  get_iff slot r := by
    have hfresh := h.not_live (Slab.insert_fresh h.wf range)
    rw [Slab.insert_get h.wf range slot, List.mem_cons, Prod.mk.injEq]
    by_cases hs : slot = (s.slab.insert range).2
    · have hnot : (slot, r) ∉ s.live := fun hmem => hfresh (hs ▸ List.mem_map_of_mem hmem)
      simp [hs ▸ hnot, hs, eq_comm]
    · simp [hs, h.get_iff slot r]
  slots := List.nodup_cons.2 ⟨h.not_live (Slab.insert_fresh h.wf range), h.slots⟩
  nonempty p hp := by
    rcases List.mem_cons.1 hp with rfl | hp
    · exact hr
    · exact h.nonempty p hp
  count := by
    have hcount := (insert_count s.slab range).1
    have hold := h.count
    simp only [List.length_cons]
    omega

theorem filter_length {live : List (Nat × Span)} (hnd : (live.map Prod.fst).Nodup) {slot : Nat} {r : Span}
    (hmem : (slot, r) ∈ live) : (live.filter (fun p => p.1 ≠ slot)).length + 1 = live.length := by
  have hone : live.countP (fun p => p.1 = slot) = 1 := by
    have hcount := List.count_eq_one_of_mem hnd (List.mem_map_of_mem (f := Prod.fst) hmem)
    rw [List.count, List.countP_map] at hcount
    rw [← hcount]
    congr 1
  have hsplit := List.length_eq_countP_add_countP (fun p : Nat × Span => decide (p.1 = slot)) (l := live)
  rw [hone] at hsplit
  rw [← List.countP_eq_length_filter, hsplit, Nat.add_comm]
  congr 2
  funext p
  simp

theorem agrees_remove {s : Shard} (h : s.Agrees) (slot : Nat) :
    Agrees ⟨s.slab.remove slot, s.live.filter (fun p => p.1 ≠ slot)⟩ where
  wf := Slab.wf_remove h.wf slot
  get_iff i r := by
    rw [Slab.remove_get, List.mem_filter, ← h.get_iff i r]
    by_cases hi : i = slot
    · simp [hi]
    · simp [hi]
  slots := h.slots.sublist ((List.filter_sublist).map Prod.fst)
  nonempty p hp := h.nonempty p (List.mem_filter.1 hp).1
  count := by
    have hold := h.count
    cases hs : s.slab.get slot with
    | none =>
      have hall : s.live.filter (fun p => p.1 ≠ slot) = s.live := by
        rw [List.filter_eq_self]
        intro p hp
        have hne : p.1 ≠ slot := fun he => h.not_live hs (he ▸ List.mem_map_of_mem hp)
        simpa using hne
      rw [remove_of_none hs, hall]
      exact hold
    | some r =>
      have hlen := filter_length h.slots ((h.get_iff slot r).1 hs)
      obtain ⟨hentries, hfree⟩ := remove_count hs
      simp only at hlen ⊢
      omega

theorem agrees_step {s s' : Shard} {op : SlabOp} (h : s.Agrees) (hs : s.step op = some s') : s'.Agrees := by
  cases op with
  | insert range =>
    rw [step] at hs
    split at hs
    · rename_i hr
      cases hs
      exact agrees_insert h hr
    · cases hs
  | remove slot =>
    cases hs
    exact agrees_remove h slot

/-! ## Whole runs -/

/-- **The slab is as long as the largest number of ranges that were live at once in the run.** -/
structure Peak (ops : List SlabOp) (s : Shard) : Prop where
  bound : ∀ pre t, pre <+: ops → run step empty pre = some t → t.live.length ≤ s.slab.entries.length
  reached : ∃ pre t, pre <+: ops ∧ run step empty pre = some t ∧ t.live.length = s.slab.entries.length

theorem peak_step {ops : List SlabOp} {op : SlabOp} {s s' : Shard} (hr : run step empty ops = some s)
    (hs : s.step op = some s') (ha' : s'.Agrees) (h : Peak ops s) : Peak (ops ++ [op]) s' := by
  have hlast : run step empty (ops ++ [op]) = some s' := Machine.run_concat.2 ⟨s, hr, hs⟩
  -- the slab grows only when the free list is empty, and then every entry is live
  have hgrow : s'.slab.entries.length = s.slab.entries.length ∨
      (s.slab.entries.length ≤ s'.slab.entries.length ∧ s'.live.length = s'.slab.entries.length) := by
    cases op with
    | insert range =>
      rw [step] at hs
      split at hs
      · cases hs
        obtain ⟨-, hkeep | ⟨hlt, hfull⟩⟩ := insert_count s.slab range
        · exact .inl hkeep
        · have hnew := ha'.count
          simp only [hfull, List.length_nil] at hnew ⊢
          exact .inr ⟨Nat.le_of_lt hlt, by omega⟩
      · cases hs
    | remove slot =>
      cases hs
      cases hg : s.slab.get slot with
      | none => exact .inl (by rw [remove_of_none hg])
      | some r => exact .inl (remove_count hg).1
  refine ⟨fun pre t hpre ht => ?_, ?_⟩
  · rw [List.prefix_concat_iff] at hpre
    rcases hpre with rfl | hpre
    · rw [hlast] at ht
      cases ht
      have := ha'.count
      omega
    · have := h.bound pre t hpre ht
      omega
  · rcases hgrow with hkeep | ⟨-, hfull⟩
    · obtain ⟨pre, t, hpre, ht, hlen⟩ := h.reached
      exact ⟨pre, t, hpre.trans (List.prefix_append ops [op]), ht, by rw [hlen, hkeep]⟩
    · exact ⟨ops ++ [op], s', List.prefix_refl _, hlast, hfull⟩

theorem peak_nil : Peak [] empty where
  bound pre t hpre ht := by
    cases List.prefix_nil.1 hpre
    cases ht
    exact Nat.le_refl 0
  reached := ⟨[], empty, List.prefix_refl [], rfl, rfl⟩

/-- **What holds after every run.** -/
theorem run_agrees (ops : List SlabOp) (s : Shard) (hr : run step empty ops = some s) : s.Agrees ∧ Peak ops s := by
  refine Machine.run_induction (fun ops s => s.Agrees ∧ Peak ops s) ⟨agrees_empty, peak_nil⟩ ?_ ops s hr
  rintro ops op s s' hr ⟨ha, hp⟩ hs
  have ha' := agrees_step ha hs
  exact ⟨ha', peak_step hr hs ha' hp⟩

/-- The call does not hand out this slot. -/
def NotIssued (slot : Nat) (s : Shard) (op : SlabOp) : Prop :=
  ∀ range, op = .insert range → (s.slab.insert range).2 ≠ slot

/-- **A slot that is not live stays so until it is issued.** -/
theorem not_live_run {slot : Nat} {s₀ : Shard} (h0 : s₀.Agrees) (hnone : s₀.slab.get slot = none) (ops : List SlabOp)
    (s : Shard) (hr : run step s₀ ops = some s) :
    EachStep step s₀ (NotIssued slot) ops → s.Agrees ∧ s.slab.get slot = none := by
  refine Machine.run_induction (fun ops s => EachStep step s₀ (NotIssued slot) ops → s.Agrees ∧ s.slab.get slot = none)
    (fun _ => ⟨h0, hnone⟩) ?_ ops s hr
  intro ops op s s' hr ih hs heach
  obtain ⟨heach, hnot⟩ := (Machine.eachStep_concat hr).1 heach
  obtain ⟨ha, hget⟩ := ih heach
  refine ⟨agrees_step ha hs, ?_⟩
  cases op with
  | insert range =>
    rw [step] at hs
    split at hs
    · cases hs
      rw [Slab.insert_get ha.wf range slot, if_neg (Ne.symm (hnot range rfl)), hget]
    · cases hs
  | remove other =>
    cases hs
    rw [Slab.remove_get]
    split
    · rfl
    · exact hget

end Shard

open Shard in
/-- **Slab bookkeeping.**  After every run of insertions of non-empty ranges and removals of any slots from the empty slab:
the free list holds exactly the indices of the empty entries, each once; the filled entries are the live ranges under their
slots; `insert` returns a slot with no live range and writes no other entry; `remove` writes no other entry, and once a
slot is removed, removing it again changes nothing until it is issued again; `overlaps` is true exactly when a live range
shares a byte with the range asked for; and the slab has as many entries as ranges were ever live at once. -/
theorem slab_bookkeeping (ops : List SlabOp) (s : Shard) (hr : run Shard.step Shard.empty ops = some s) :
    ((∀ i, i ∈ s.slab.free ↔ s.slab.entries[i]? = some none) ∧ s.slab.free.Nodup) ∧
    ((∀ slot r, s.slab.get slot = some r ↔ (slot, r) ∈ s.live) ∧ (s.live.map Prod.fst).Nodup) ∧
    (∀ range : Span, range.start < range.stop →
      s.slab.get (s.slab.insert range).2 = none ∧ (s.slab.insert range).1.get (s.slab.insert range).2 = some range ∧
      ∀ i, i ≠ (s.slab.insert range).2 → (s.slab.insert range).1.entries[i]? = s.slab.entries[i]?) ∧
    (∀ slot, (s.slab.remove slot).get slot = none ∧
      (∀ i, i ≠ slot → (s.slab.remove slot).entries[i]? = s.slab.entries[i]?) ∧
      ∀ s₁ later s', s.step (.remove slot) = some s₁ → run Shard.step s₁ later = some s' →
        EachStep Shard.step s₁ (NotIssued slot) later → s'.slab.remove slot = s'.slab) ∧
    (∀ start stop, start < stop →
      (s.slab.overlaps start stop = true ↔ ∃ p ∈ s.live, ¬ Disjoint p.2.bytes (Span.mk start stop).bytes)) ∧
    Peak ops s := by
  obtain ⟨ha, hpeak⟩ := run_agrees ops s hr
  refine ⟨⟨ha.wf.free_iff, ha.wf.nodup⟩, ⟨ha.get_iff, ha.slots⟩, fun range _ => ?_, fun slot => ?_,
    fun start stop hlt => ?_, hpeak⟩
  · refine ⟨Slab.insert_fresh ha.wf range, ?_, fun i hi => insert_entries hi⟩
    rw [Slab.insert_get ha.wf range, if_pos rfl]
  · refine ⟨by rw [Slab.remove_get, if_pos rfl], fun i hi => remove_entries s.slab hi, ?_⟩
    intro s₁ later s' h₁ hlater heach
    have hnone : s₁.slab.get slot = none := by
      cases h₁
      rw [Slab.remove_get, if_pos rfl]
    exact remove_of_none (not_live_run (agrees_step ha h₁) hnone later s' hlater heach).2
  · rw [Slab.overlaps_iff]
    constructor
    · rintro ⟨i, r, hget, hov⟩
      have hmem := (ha.get_iff i r).1 hget
      exact ⟨(i, r), hmem, (overlaps_iff (b := ⟨start, stop⟩) (ha.nonempty _ hmem) hlt).1 hov⟩
    · rintro ⟨⟨i, r⟩, hmem, hshare⟩
      exact ⟨i, r, (ha.get_iff i r).2 hmem, (overlaps_iff (b := ⟨start, stop⟩) (ha.nonempty _ hmem) hlt).2 hshare⟩

/-- A slot removed and issued again: two ranges live at once, three inserted. -/
theorem slab_bookkeeping_reuse :
    run Shard.step Shard.empty [.insert ⟨0, 10⟩, .insert ⟨10, 20⟩, .remove 0, .insert ⟨5, 6⟩] =
        some ⟨⟨[some ⟨5, 6⟩, some ⟨10, 20⟩], []⟩, [(0, ⟨5, 6⟩), (1, ⟨10, 20⟩)]⟩ ∧
      Shard.Peak [.insert ⟨0, 10⟩, .insert ⟨10, 20⟩, .remove 0, .insert ⟨5, 6⟩]
        ⟨⟨[some ⟨5, 6⟩, some ⟨10, 20⟩], []⟩, [(0, ⟨5, 6⟩), (1, ⟨10, 20⟩)]⟩ :=
  ⟨by decide, (slab_bookkeeping [.insert ⟨0, 10⟩, .insert ⟨10, 20⟩, .remove 0, .insert ⟨5, 6⟩] _ (by decide)).2.2.2.2.2⟩

end MmapIo
