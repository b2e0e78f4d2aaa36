import Mathlib.Data.List.Perm.Lattice
import Mathlib.Logic.Function.Basic
/-!
# Owned — a list of tags and the holders that own them

Every holder owns at most one tag, `of v`; a list has one occurrence of a tag for every holder that owns it.  Two holders
may own the same tag, so the list says how many holders there are even when tags are reused; removing any occurrence of a
holder's tag keeps the count right.  `OwnedOnce` is the other discipline: what is owned has exactly one owner.
-/
namespace MmapIo

variable {V τ : Type}

/-- The list holds one occurrence of its tag for every owner. -/
def TagsOwned (tags : List τ) (of : V → Option τ) : Prop :=
  ∃ owners : List V, owners.Nodup ∧ (∀ u, u ∈ owners ↔ (of u).isSome = true) ∧ tags.Perm (owners.filterMap of)

namespace TagsOwned

variable {tags : List τ} {of : V → Option τ}

theorem nil (h : ∀ u, of u = none) : TagsOwned ([] : List τ) of :=
  ⟨[], List.nodup_nil, fun u => by simp [h u], List.Perm.nil⟩

/-- **With no owner there is no tag.** -/
theorem eq_nil (h : TagsOwned tags of) (hnone : ∀ u, of u = none) : tags = [] := by
  obtain ⟨owners, -, hmem, hperm⟩ := h
  have hno : owners = [] := by
    rw [List.eq_nil_iff_forall_not_mem]
    intro u hu
    have := (hmem u).1 hu
    rw [hnone u] at this
    cases this
  rw [hno] at hperm
  exact hperm.eq_nil

/-- **An owner's tag is in the list.** -/
theorem mem (h : TagsOwned tags of) {v : V} {t : τ} (hv : of v = some t) : t ∈ tags := by
  obtain ⟨owners, -, hmem, hperm⟩ := h
  rw [hperm.mem_iff, List.mem_filterMap]
  exact ⟨v, (hmem v).2 (by rw [hv]; rfl), hv⟩

variable [DecidableEq V]

/-- **A new owner adds its tag.** -/
theorem push (h : TagsOwned tags of) {v : V} (hv : of v = none) (t : τ) :
    TagsOwned (tags ++ [t]) (Function.update of v (some t)) := by
  obtain ⟨owners, hnd, hmem, hperm⟩ := h
  have hnot : v ∉ owners := fun hin => by
    have := (hmem v).1 hin
    rw [hv] at this
    cases this
  refine ⟨v :: owners, List.nodup_cons.2 ⟨hnot, hnd⟩, fun u => ?_, ?_⟩
  · by_cases hu : u = v
    · subst hu
      simp
    · rw [List.mem_cons, Function.update_of_ne hu, ← hmem u]
      simp [hu]
  · have hold : owners.filterMap (Function.update of v (some t)) = owners.filterMap of := by
      refine List.filterMap_congr (fun u hu => Function.update_of_ne ?_ ..)
      rintro rfl
      exact hnot hu
    rw [List.filterMap_cons, Function.update_self, hold]
    exact (List.perm_append_singleton t tags).trans (hperm.cons t)

/-- **An owner that leaves takes one occurrence of its tag.** -/
theorem drop [DecidableEq τ] (h : TagsOwned tags of) {v : V} {t : τ} (hv : of v = some t) {tags' : List τ}
    (hp : tags'.Perm (tags.erase t)) : TagsOwned tags' (Function.update of v none) := by
  obtain ⟨owners, hnd, hmem, hperm⟩ := h
  have hin : v ∈ owners := (hmem v).2 (by rw [hv]; rfl)
  refine ⟨owners.erase v, hnd.erase v, fun u => ?_, ?_⟩
  · rw [hnd.mem_erase_iff, hmem u]
    by_cases hu : u = v
    · subst hu
      simp
    · simp [hu]
  · have hrest : (owners.erase v).filterMap (Function.update of v none) = (owners.erase v).filterMap of :=
      List.filterMap_congr (fun u hu => Function.update_of_ne (hnd.mem_erase_iff.1 hu).1 ..)
    have hsplit : (owners.filterMap of).Perm (t :: (owners.erase v).filterMap of) := by
      have := (List.perm_cons_erase hin).filterMap of
      rwa [List.filterMap_cons, hv] at this
    rw [hrest]
    have := ((hperm.trans hsplit).erase t)
    rw [List.erase_cons_head] at this
    exact hp.trans this

end TagsOwned

/-! ## One owner each -/

variable {B : Type}

/-- Every live thing has exactly one owner, and an owner's thing is live. -/
structure OwnedOnce (of : V → Option B) (live : B → Prop) : Prop where
  live_iff : ∀ b, live b ↔ ∃ v, of v = some b
  unique : ∀ {v u b}, of v = some b → of u = some b → v = u

namespace OwnedOnce

variable {of : V → Option B} {live live' : B → Prop}

theorem keep (h : OwnedOnce of live) (hl : ∀ b, live' b ↔ live b) : OwnedOnce of live' :=
  ⟨fun b => (hl b).trans (h.live_iff b), h.unique⟩

variable [DecidableEq V]

/-- **A new thing gets an owner that had none.** -/
theorem gain (h : OwnedOnce of live) {v : V} {b : B} (hv : of v = none) (hb : ¬ live b)
    (hl : ∀ c, live' c ↔ c = b ∨ live c) : OwnedOnce (Function.update of v (some b)) live' := by
  have hno : ∀ u, of u ≠ some b := fun u hu => hb ((h.live_iff b).2 ⟨u, hu⟩)
  refine ⟨fun c => ?_, fun {u w c} hu hw => ?_⟩
  · rw [hl c, h.live_iff c]
    constructor
    · rintro (rfl | ⟨u, hu⟩)
      · exact ⟨v, Function.update_self ..⟩
      · refine ⟨u, ?_⟩
        rw [Function.update_of_ne]
        · exact hu
        · rintro rfl
          rw [hv] at hu
          cases hu
    · rintro ⟨u, hu⟩
      by_cases huv : u = v
      · rw [huv, Function.update_self] at hu
        exact Or.inl (Option.some.inj hu).symm
      · rw [Function.update_of_ne huv] at hu
        exact Or.inr ⟨u, hu⟩
  · by_cases huv : u = v <;> by_cases hwv : w = v
    · rw [huv, hwv]
    · rw [huv, Function.update_self] at hu
      rw [Function.update_of_ne hwv, ← hu] at hw
      exact absurd hw (hno w)
    · rw [hwv, Function.update_self] at hw
      rw [Function.update_of_ne huv, ← hw] at hu
      exact absurd hu (hno u)
    · rw [Function.update_of_ne huv] at hu
      rw [Function.update_of_ne hwv] at hw
      exact h.unique hu hw

/-- **An owner that leaves takes its thing with it.** -/
theorem lose (h : OwnedOnce of live) {v : V} {b : B} (hv : of v = some b) (hl : ∀ c, live' c ↔ c ≠ b ∧ live c) :
    OwnedOnce (Function.update of v none) live' := by
  refine ⟨fun c => ?_, fun {u w c} hu hw => ?_⟩
  · rw [hl c, h.live_iff c]
    constructor
    · rintro ⟨hcb, u, hu⟩
      refine ⟨u, ?_⟩
      rw [Function.update_of_ne]
      · exact hu
      · rintro rfl
        rw [hv] at hu
        exact hcb (Option.some.inj hu).symm
    · rintro ⟨u, hu⟩
      by_cases huv : u = v
      · rw [huv, Function.update_self] at hu
        cases hu
      · rw [Function.update_of_ne huv] at hu
        refine ⟨?_, u, hu⟩
        rintro rfl
        exact huv (h.unique hu hv)
  · by_cases huv : u = v
    · rw [huv, Function.update_self] at hu
      cases hu
    · by_cases hwv : w = v
      · rw [hwv, Function.update_self] at hw
        cases hw
      · rw [Function.update_of_ne huv] at hu
        rw [Function.update_of_ne hwv] at hw
        exact h.unique hu hw

end OwnedOnce

end MmapIo
