import Mathlib.Algebra.Order.BigOperators.Group.Finset
import MmapIo.Lib.Ledger
/-!
# Backing — a ledger that says how much, not only whether

Every store of a `Ledger` has a key, and every account stands for a set of keys no larger than its amount (`Backing`).  A
store that is not durable has its key in the set of its writer, of the counter, or of a flusher whose prefix reaches it
(`Backs`).  The effects keep this (`Backs.effect`), so what is not yet durable has at most as many keys as the open accounts
amount to (`Backs.outstanding`).
-/
namespace MmapIo
namespace Ledger

variable {V K : Type}

/-- What a flusher took. -/
def amount (t : Option (Nat × Option Nat)) : Nat := (t.map Prod.fst).getD 0

/-- The keys each account stands for. -/
structure Backing (V K : Type) where
  owes : V → Finset K
  counted : Finset K
  taken : V → Finset K

namespace Backing

def empty : Backing V K := ⟨fun _ => ∅, ∅, fun _ => ∅⟩

/-- The key of store `i` is in one of the accounts that answer for the store. -/
def Answers (b : Backing V K) (l : Ledger V) (i : Nat) (k : K) : Prop :=
  (∃ w, l.log[i]? = some w ∧ k ∈ b.owes w) ∨ k ∈ b.counted ∨
    ∃ v, k ∈ b.taken v ∧ ∀ n mark, l.taken v = some (n, some mark) → i < mark

/-- **Every store is durable or answered for, and no account stands for more keys than its amount.** -/
structure Backs (b : Backing V K) (keys : List K) (l : Ledger V) : Prop where
  length : keys.length = l.log.length
  stores : ∀ i k, keys[i]? = some k → i ∈ l.durable ∨ b.Answers l i k
  owes : ∀ v, (b.owes v).card ≤ l.owes v
  counted : b.counted.card ≤ l.counted
  taken : ∀ v, (b.taken v).card ≤ amount (l.taken v)

variable {b : Backing V K} {keys : List K} {l l' : Ledger V} {v : V}

theorem empty_backs (hlog : l.log = []) : (empty : Backing V K).Backs [] l := by
  refine ⟨by rw [hlog]; rfl, ?_, fun v => Nat.zero_le _, Nat.zero_le _, fun v => Nat.zero_le _⟩
  intro i k hk
  cases hk

namespace Backs

theorem taken_none (h : b.Backs keys l) (hv : l.taken v = none) : b.taken v = ∅ := by
  have hle := h.taken v
  rw [hv] at hle
  exact Finset.card_eq_zero.1 (Nat.le_zero.1 hle)

section Effects

variable [DecidableEq V]

/-- A flusher that had taken nothing takes the counter. -/
theorem take (h : b.Backs keys l) (hv : l.taken v = none) : Backs ⟨b.owes, ∅, Function.update b.taken v b.counted⟩ keys
    { l with counted := 0, taken := Function.update l.taken v (some (l.counted, none)) } := by
  refine ⟨h.length, fun i k hk => ?_, h.owes, Nat.zero_le _, fun w => ?_⟩
  · rcases h.stores i k hk with hd | ho | hc | ⟨w, hkw, hw⟩
    · exact Or.inl hd
    · exact Or.inr (Or.inl ho)
    · refine Or.inr (Or.inr (Or.inr ⟨v, ?_, fun n mark hn => ?_⟩))
      · simp only [Function.update_self]
        exact hc
      · simp only [Function.update_self] at hn
        cases hn
    · have hwv : w ≠ v := by
        rintro rfl
        rw [h.taken_none hv] at hkw
        cases hkw
      refine Or.inr (Or.inr (Or.inr ⟨w, ?_, fun n mark hn => hw n mark ?_⟩))
      · simp only [Function.update_of_ne hwv]
        exact hkw
      · simp only [Function.update_of_ne hwv] at hn
        exact hn
  · by_cases hwv : w = v
    · subst hwv
      simp only [Function.update_self]
      exact h.counted
    · simp only [Function.update_of_ne hwv]
      exact h.taken w

/-- What a flusher took is let go of: its keys are durable, or go where they are answered for. -/
theorem release {counted : Finset K} {n : Nat} {durable : Set Nat} (h : b.Backs keys l)
    (hd : ∀ i < l.log.length, i ∈ l.durable → i ∈ durable)
    (hgone : ∀ i k, i < l.log.length → k ∈ b.taken v → (∀ c mark, l.taken v = some (c, some mark) → i < mark) →
      i ∈ durable ∨ k ∈ counted)
    (hsub : b.counted ⊆ counted) (hcard : counted.card ≤ n) :
    Backs ⟨b.owes, counted, Function.update b.taken v ∅⟩ keys
      { l with durable := durable, counted := n, taken := Function.update l.taken v none } := by
  refine ⟨h.length, fun i k hk => ?_, h.owes, hcard, fun w => ?_⟩
  · have hlt : i < l.log.length := h.length ▸ (List.getElem?_eq_some_iff.1 hk).1
    rcases h.stores i k hk with hdur | ho | hc | ⟨w, hkw, hw⟩
    · exact Or.inl (hd i hlt hdur)
    · exact Or.inr (Or.inl ho)
    · exact Or.inr (Or.inr (Or.inl (hsub hc)))
    · by_cases hwv : w = v
      · subst hwv
        exact (hgone i k hlt hkw hw).imp_right (fun hc => Or.inr (Or.inl hc))
      · refine Or.inr (Or.inr (Or.inr ⟨w, ?_, fun c mark hc => hw c mark ?_⟩))
        · simp only [Function.update_of_ne hwv]
          exact hkw
        · simp only [Function.update_of_ne hwv] at hc
          exact hc
  · by_cases hwv : w = v
    · subst hwv
      simp only [Function.update_self, Finset.card_empty, Nat.zero_le]
    · simp only [Function.update_of_ne hwv]
      exact h.taken w

/-- A flusher's prefix changes: it still reaches the stores it is to answer for. -/
theorem remark {n : Nat} {m m' : Option Nat} (h : b.Backs keys l) (hv : l.taken v = some (n, m))
    (hm : ∀ mark, m' = some mark → l.log.length ≤ mark) :
    b.Backs keys { l with taken := Function.update l.taken v (some (n, m')) } := by
  refine ⟨h.length, fun i k hk => ?_, h.owes, h.counted, fun w => ?_⟩
  · rcases h.stores i k hk with hd | ho | hc | ⟨w, hkw, hw⟩
    · exact Or.inl hd
    · exact Or.inr (Or.inl ho)
    · exact Or.inr (Or.inr (Or.inl hc))
    · refine Or.inr (Or.inr (Or.inr ⟨w, hkw, fun c mark hc => ?_⟩))
      by_cases hwv : w = v
      · subst hwv
        simp only [Function.update_self] at hc
        cases hc
        exact Nat.lt_of_lt_of_le (h.length ▸ (List.getElem?_eq_some_iff.1 hk).1) (hm mark rfl)
      · simp only [Function.update_of_ne hwv] at hc
        exact hw c mark hc
  · by_cases hwv : w = v
    · subst hwv
      simp only [Function.update_self]
      have hle := h.taken w
      rw [hv] at hle
      exact hle
    · simp only [Function.update_of_ne hwv]
      exact h.taken w

variable [DecidableEq K]

/-- A store by a writer that owes room for its key. -/
theorem store {k : K} (h : b.Backs keys l) (hroom : (insert k (b.owes v)).card ≤ l.owes v) :
    Backs { b with owes := Function.update b.owes v (insert k (b.owes v)) } (keys ++ [k]) { l with log := l.log ++ [v] } := by
  have hsub : ∀ w, b.owes w ⊆ Function.update b.owes v (insert k (b.owes v)) w := by
    intro w
    by_cases hw : w = v
    · subst hw
      rw [Function.update_self]
      exact Finset.subset_insert ..
    · rw [Function.update_of_ne hw]
  refine ⟨by simp [h.length], fun i j hj => ?_, ?_, h.counted, h.taken⟩
  · by_cases hlt : i < keys.length
    · rw [List.getElem?_append_left hlt] at hj
      rcases h.stores i j hj with hd | ⟨w, hw, hjw⟩ | hc | ht
      · exact Or.inl hd
      · refine Or.inr (Or.inl ⟨w, ?_, hsub w hjw⟩)
        exact (List.getElem?_append_left (h.length ▸ hlt)).trans hw
      · exact Or.inr (Or.inr (Or.inl hc))
      · exact Or.inr (Or.inr (Or.inr ht))
    · have hlen := (List.getElem?_eq_some_iff.1 hj).1
      rw [List.length_append, List.length_singleton] at hlen
      obtain rfl : i = keys.length := by omega
      rw [List.getElem?_concat_length] at hj
      cases hj
      refine Or.inr (Or.inl ⟨v, ?_, ?_⟩)
      · rw [h.length, List.getElem?_concat_length]
      · simp only [Function.update_self]
        exact Finset.mem_insert_self ..
  · exact (Function.forall_update_iff b.owes (fun w S => S.card ≤ l.owes w)).2 ⟨hroom, fun w _ => h.owes w⟩

/-- A writer counts what it owes: its keys go to the counter. -/
theorem count (h : b.Backs keys l) : Backs ⟨Function.update b.owes v ∅, b.counted ∪ b.owes v, b.taken⟩ keys
    { l with counted := l.counted + l.owes v, owes := Function.update l.owes v 0 } := by
  refine ⟨h.length, fun i k hk => ?_, fun w => ?_, ?_, h.taken⟩
  · rcases h.stores i k hk with hd | ⟨w, hw, hkw⟩ | hc | ht
    · exact Or.inl hd
    · by_cases hwv : w = v
      · subst hwv
        exact Or.inr (Or.inr (Or.inl (Finset.mem_union_right _ hkw)))
      · refine Or.inr (Or.inl ⟨w, hw, ?_⟩)
        simp only [Function.update_of_ne hwv]
        exact hkw
    · exact Or.inr (Or.inr (Or.inl (Finset.mem_union_left _ hc)))
    · exact Or.inr (Or.inr (Or.inr ht))
  · by_cases hwv : w = v
    · subst hwv
      simp only [Function.update_self, Finset.card_empty, Nat.le_refl]
    · simp only [Function.update_of_ne hwv]
      exact h.owes w
  · exact Nat.le_trans (Finset.card_union_le ..) (Nat.add_le_add h.counted (h.owes v))

/-- **An effect that stores nothing keeps every store answered for.** -/
theorem effect (h : b.Backs keys l) (he : Effect v l l') (hlog : l'.log = l.log) :
    ∃ b' : Backing V K, b'.Backs keys l' ∧ ∀ w, b'.owes w ⊆ b.owes w := by
  cases he with
  | owe hle =>
    refine ⟨b, ⟨h.length, h.stores, fun w => ?_, h.counted, h.taken⟩, fun w => Finset.Subset.refl _⟩
    by_cases hwv : w = v
    · subst hwv
      simp only [Function.update_self]
      exact Nat.le_trans (h.owes w) hle
    · simp only [Function.update_of_ne hwv]
      exact h.owes w
  | store hpos =>
    have hlen := congrArg List.length hlog
    rw [List.length_append, List.length_singleton] at hlen
    omega
  | count =>
    refine ⟨_, h.count, fun w => ?_⟩
    by_cases hwv : w = v
    · subst hwv
      simp only [Function.update_self, Finset.empty_subset]
    · simp only [Function.update_of_ne hwv, Finset.Subset.refl]
  | take hv => exact ⟨_, h.take hv, fun w => Finset.Subset.refl _⟩
  | start hv =>
    refine ⟨b, h.remark hv (fun mark hmark => ?_), fun w => Finset.Subset.refl _⟩
    cases hmark
    exact Nat.le_refl _
  | settle hv hd =>
    refine ⟨_, h.release (fun i hi hdur => hd i hi (Or.inr hdur)) (fun i k hi _ hmark => Or.inl ?_) (Finset.Subset.refl _)
      h.counted, fun w => Finset.Subset.refl _⟩
    exact hd i hi (Or.inl (hmark _ _ hv))
  | more hd =>
    refine ⟨b, ⟨h.length, fun i k hk => ?_, h.owes, h.counted, h.taken⟩, fun w => Finset.Subset.refl _⟩
    exact (h.stores i k hk).imp_left (fun hdur => hd hdur)
  | fail hv => exact ⟨b, h.remark hv nofun, fun w => Finset.Subset.refl _⟩
  | restore hv =>
    refine ⟨_, h.release (fun i _ hdur => hdur) (fun i k _ hkv _ => Or.inr (Finset.mem_union_right _ hkv))
      (fun k hk => Finset.mem_union_left _ hk) ?_, fun w => Finset.Subset.refl _⟩
    have hle := h.taken v
    rw [hv] at hle
    exact Nat.le_trans (Finset.card_union_le ..) (Nat.add_le_add h.counted hle)

end Effects

/-- **What is not durable** has its keys among those of the accounts that are still open. -/
theorem outstanding [DecidableEq K] (h : b.Backs keys l) (live : Finset V) (howes : ∀ v, v ∉ live → l.owes v = 0)
    (htaken : ∀ v, v ∉ live → l.taken v = none) : ∃ S : Finset K,
    S.card ≤ l.counted + ∑ v ∈ live, (l.owes v + amount (l.taken v)) ∧
      ∀ i k, keys[i]? = some k → i ∉ l.durable → k ∈ S := by
  refine ⟨b.counted ∪ live.biUnion (fun v => b.owes v ∪ b.taken v), ?_, fun i k hk hd => ?_⟩
  · have hcard : ∀ v, (b.owes v ∪ b.taken v).card ≤ l.owes v + amount (l.taken v) :=
      fun v => Nat.le_trans (Finset.card_union_le ..) (Nat.add_le_add (h.owes v) (h.taken v))
    calc (b.counted ∪ live.biUnion (fun v => b.owes v ∪ b.taken v)).card
        ≤ b.counted.card + (live.biUnion (fun v => b.owes v ∪ b.taken v)).card := Finset.card_union_le ..
      _ ≤ l.counted + ∑ v ∈ live, (b.owes v ∪ b.taken v).card := Nat.add_le_add h.counted Finset.card_biUnion_le
      _ ≤ _ := Nat.add_le_add_left (Finset.sum_le_sum (fun v _ => hcard v)) _
  · have hmem : ∀ v, k ∈ b.owes v ∪ b.taken v → k ∈ live.biUnion (fun v => b.owes v ∪ b.taken v) := by
      intro v hv
      refine Finset.mem_biUnion.2 ⟨v, ?_, hv⟩
      by_contra hnot
      have hle := h.owes v
      rw [howes v hnot] at hle
      rw [h.taken_none (htaken v hnot), Finset.card_eq_zero.1 (Nat.le_zero.1 hle)] at hv
      cases hv
    rcases (h.stores i k hk).resolve_left hd with ⟨w, -, hw⟩ | hc | ⟨w, hw, -⟩
    · exact Finset.mem_union_right _ (hmem w (Finset.mem_union_left _ hw))
    · exact Finset.mem_union_left _ hc
    · exact Finset.mem_union_right _ (hmem w (Finset.mem_union_right _ hw))

end Backs

end Backing

end Ledger
end MmapIo
