import Mathlib.Data.List.Basic
import Mathlib.Data.Set.Basic
import Mathlib.Logic.Function.Basic
/-!
# Ledger — counting what has to be made durable

Writers append to a log and later add what they wrote to one counter; flushers take the counter and then make a prefix of
the log durable, or put back what they took.  A writer owes its count from its first store until it adds it, so a store that
is not durable is owed, counted, or taken by a flusher whose prefix reaches it (`Covered`).  Every effect keeps this,
whoever causes it and in whatever order (`Effect.covered`).
-/
namespace MmapIo

/-- The writer of every store in order, which stores are durable, the counter, what every writer owes, and what every
flusher took: the amount, and the length of the log when its sync started. -/
structure Ledger (V : Type) where
  log : List V
  durable : Set Nat
  counted : Nat
  owes : V → Nat
  taken : V → Option (Nat × Option Nat)

namespace Ledger

variable {V : Type}

/-- The store at index `i` is accounted for by a flusher. -/
def TakenAt (taken : V → Option (Nat × Option Nat)) (i : Nat) : Prop :=
  ∃ v b m, taken v = some (b, m) ∧ 0 < b ∧ ∀ k, m = some k → i < k

/-- **Every store is durable, owed, counted, or taken.** -/
def Covered (l : Ledger V) : Prop :=
  ∀ i w, l.log[i]? = some w → i ∈ l.durable ∨ 0 < l.owes w ∨ 0 < l.counted ∨ TakenAt l.taken i

/-- **With nothing owed, counted or taken, everything is durable.** -/
theorem Covered.durable {l : Ledger V} (h : l.Covered) (howes : ∀ v, l.owes v = 0) (hcounted : l.counted = 0)
    (htaken : ∀ v, l.taken v = none) {i : Nat} (hi : i < l.log.length) : i ∈ l.durable := by
  rcases h i _ (List.getElem?_eq_getElem hi) with hd | ho | hc | ⟨v, b, m, hv, -⟩
  · exact hd
  · rw [howes] at ho
    cases ho
  · rw [hcounted] at hc
    cases hc
  · rw [htaken] at hv
    cases hv

variable [DecidableEq V]

/-- What one step of `v` can do. -/
inductive Effect (v : V) (l : Ledger V) : Ledger V → Prop
  /-- a writer may owe more -/
  | owe {n : Nat} (h : l.owes v ≤ n) : Effect v l { l with owes := Function.update l.owes v n }
  /-- only a writer that owes stores -/
  | store (h : 0 < l.owes v) : Effect v l { l with log := l.log ++ [v] }
  | count : Effect v l { l with counted := l.counted + l.owes v, owes := Function.update l.owes v 0 }
  | take (h : l.taken v = none) :
      Effect v l { l with counted := 0, taken := Function.update l.taken v (some (l.counted, none)) }
  | start {b : Nat} (h : l.taken v = some (b, none)) :
      Effect v l { l with taken := Function.update l.taken v (some (b, some l.log.length)) }
  /-- the sync succeeded: what was stored before it started is durable -/
  | settle {b mark : Nat} {durable : Set Nat} (h : l.taken v = some (b, some mark))
      (hd : ∀ i < l.log.length, i < mark ∨ i ∈ l.durable → i ∈ durable) :
      Effect v l { l with durable := durable, taken := Function.update l.taken v none }
  /-- a sync nobody relies on -/
  | more {durable : Set Nat} (hd : l.durable ⊆ durable) : Effect v l { l with durable := durable }
  | fail {b mark : Nat} (h : l.taken v = some (b, some mark)) :
      Effect v l { l with taken := Function.update l.taken v (some (b, none)) }
  | restore {b : Nat} (h : l.taken v = some (b, none)) :
      Effect v l { l with counted := l.counted + b, taken := Function.update l.taken v none }

variable {taken : V → Option (Nat × Option Nat)} {v : V} {i : Nat}

theorem takenAt_update {new : Option (Nat × Option Nat)} (h : TakenAt taken i)
    (hv : ∀ b m, taken v = some (b, m) → (∀ k, m = some k → i < k) →
      ∃ m', new = some (b, m') ∧ ∀ k, m' = some k → i < k) : TakenAt (Function.update taken v new) i := by
  obtain ⟨u, b, m, hu, hb, hm⟩ := h
  by_cases huv : u = v
  · subst huv
    obtain ⟨m', hnew, hm'⟩ := hv b m hu hm
    exact ⟨u, b, m', by rw [hnew, Function.update_self], hb, hm'⟩
  · exact ⟨u, b, m, by rw [Function.update_of_ne huv, hu], hb, hm⟩

/-- When `v` lets go of what it took, a store is still taken by another, or was taken by `v`. -/
theorem takenAt_release {b : Nat} {m : Option Nat} (hv : taken v = some (b, m)) (h : TakenAt taken i) :
    TakenAt (Function.update taken v none) i ∨ 0 < b ∧ ∀ k, m = some k → i < k := by
  obtain ⟨u, b', m', hu, hb, hm⟩ := h
  by_cases huv : u = v
  · subst huv
    rw [hv] at hu
    cases hu
    exact Or.inr ⟨hb, hm⟩
  · exact Or.inl ⟨u, b', m', by rw [Function.update_of_ne huv, hu], hb, hm⟩

theorem owes_update {owes : V → Nat} {w : V} {n : Nat} (h : owes v ≤ n) (hw : 0 < owes w) :
    0 < Function.update owes v n w := by
  by_cases hwv : w = v
  · subst hwv
    rw [Function.update_self]
    exact Nat.lt_of_lt_of_le hw h
  · rw [Function.update_of_ne hwv]
    exact hw

/-- **Every effect keeps the stores covered.** -/
theorem Effect.covered {l l' : Ledger V} (he : Effect v l l') (h : l.Covered) : l'.Covered := by
  intro i w hi
  cases he with
  | owe hle =>
    rcases h i w hi with hd | ho | hc | ht
    · exact Or.inl hd
    · exact Or.inr (Or.inl (owes_update hle ho))
    · exact Or.inr (Or.inr (Or.inl hc))
    · exact Or.inr (Or.inr (Or.inr ht))
  | store hpos =>
    by_cases hlt : i < l.log.length
    · rw [List.getElem?_append_left hlt] at hi
      exact h i w hi
    · -- the new store is owed by its writer
      have hlen := (List.getElem?_eq_some_iff.1 hi).1
      rw [List.length_append, List.length_singleton] at hlen
      rw [show i = l.log.length by omega, List.getElem?_concat_length] at hi
      cases hi
      exact Or.inr (Or.inl hpos)
  | count =>
    rcases h i w hi with hd | ho | hc | ht
    · exact Or.inl hd
    · by_cases hwv : w = v
      · subst hwv
        exact Or.inr (Or.inr (Or.inl (Nat.add_pos_right _ ho)))
      · exact Or.inr (Or.inl (by simpa [hwv] using ho))
    · exact Or.inr (Or.inr (Or.inl (Nat.add_pos_left hc _)))
    · exact Or.inr (Or.inr (Or.inr ht))
  | take hnone =>
    rcases h i w hi with hd | ho | hc | ht
    · exact Or.inl hd
    · exact Or.inr (Or.inl ho)
    · refine Or.inr (Or.inr (Or.inr ⟨v, l.counted, none, Function.update_self .., hc, fun k hk => ?_⟩))
      cases hk
    · refine Or.inr (Or.inr (Or.inr (takenAt_update ht (fun b m hb => ?_))))
      rw [hnone] at hb
      cases hb
  | start htaken =>
    rcases h i w hi with hd | ho | hc | ht
    · exact Or.inl hd
    · exact Or.inr (Or.inl ho)
    · exact Or.inr (Or.inr (Or.inl hc))
    · -- the store is in the log already, so the sync reaches it
      refine Or.inr (Or.inr (Or.inr (takenAt_update ht (fun b' m hb' hm => ?_))))
      rw [htaken] at hb'
      cases hb'
      refine ⟨_, rfl, fun k hk => ?_⟩
      cases hk
      exact (List.getElem?_eq_some_iff.1 hi).1
  | settle htaken hd =>
    have hlen := (List.getElem?_eq_some_iff.1 hi).1
    rcases h i w hi with hdur | ho | hc | ht
    · exact Or.inl (hd i hlen (Or.inr hdur))
    · exact Or.inr (Or.inl ho)
    · exact Or.inr (Or.inr (Or.inl hc))
    · rcases takenAt_release htaken ht with ht' | ⟨-, hm⟩
      · exact Or.inr (Or.inr (Or.inr ht'))
      · exact Or.inl (hd i hlen (Or.inl (hm _ rfl)))
  | more hsub =>
    rcases h i w hi with hdur | hrest
    · exact Or.inl (hsub hdur)
    · exact Or.inr hrest
  | fail htaken =>
    rcases h i w hi with hd | ho | hc | ht
    · exact Or.inl hd
    · exact Or.inr (Or.inl ho)
    · exact Or.inr (Or.inr (Or.inl hc))
    · refine Or.inr (Or.inr (Or.inr (takenAt_update ht (fun b' m hb' hm => ?_))))
      rw [htaken] at hb'
      cases hb'
      exact ⟨none, rfl, fun k hk => by cases hk⟩
  | restore htaken =>
    rcases h i w hi with hd | ho | hc | ht
    · exact Or.inl hd
    · exact Or.inr (Or.inl ho)
    · exact Or.inr (Or.inr (Or.inl (Nat.add_pos_left hc _)))
    · rcases takenAt_release htaken ht with ht' | ⟨hpos, -⟩
      · exact Or.inr (Or.inr (Or.inr ht'))
      · exact Or.inr (Or.inr (Or.inl (Nat.add_pos_right _ hpos)))

end Ledger

end MmapIo
