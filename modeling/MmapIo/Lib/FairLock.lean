import Mathlib.Data.List.Count
import Mathlib.Logic.Function.Basic
/-!
# FairLock — a readers–writer lock with its queue of writers, and mutexes

A lock that a holder may read any number of times, with the writers that wait for it.  `read` waits behind a queued writer,
`readRecursive` only for an active one; a writer first joins the queue and is granted the lock when nobody holds it.  `Keeps`
says that the lock agrees with what every holder is doing (`wr`, `wait`, `rd`), and each lemma is one operation.  `Owned` says
the same of a family of mutexes.
-/
namespace MmapIo

variable {V : Type}

/-- The active writer, one entry of `readers` for every read guard, and the waiting writers. -/
structure FairLock (V : Type) where
  writer : Option V
  readers : List V
  queue : List V
  deriving DecidableEq

namespace FairLock

def free : FairLock V := ⟨none, [], []⟩

/-- `read_recursive()` granted to `v`. -/
def readRecursive (l : FairLock V) (v : V) : Option (FairLock V) :=
  if l.writer.isNone then some { l with readers := v :: l.readers } else none

/-- `read()` granted to `v`. -/
def read (l : FairLock V) (v : V) : Option (FairLock V) :=
  if l.writer.isNone ∧ l.queue = [] then some { l with readers := v :: l.readers } else none

def enqueue (l : FairLock V) (v : V) : FairLock V := { l with queue := v :: l.queue }

def releaseWrite (l : FairLock V) : FairLock V := { l with writer := none }

variable [DecidableEq V]

/-- `write()` granted to `v`, which waits for it. -/
def write (l : FairLock V) (v : V) : Option (FairLock V) :=
  if l.writer.isNone ∧ l.readers = [] then some { l with writer := some v, queue := l.queue.erase v } else none

def releaseRead (l : FairLock V) (v : V) : FairLock V := { l with readers := l.readers.erase v }

omit [DecidableEq V] in
theorem readRecursive_eq_some {l l' : FairLock V} {v : V} (h : l.readRecursive v = some l') :
    l' = { l with readers := v :: l.readers } := by
  unfold readRecursive at h
  split at h
  · cases h
    rfl
  · cases h

omit [DecidableEq V] in
theorem read_eq_some {l l' : FairLock V} {v : V} (h : l.read v = some l') : l' = { l with readers := v :: l.readers } := by
  unfold read at h
  split at h
  · cases h
    rfl
  · cases h

theorem write_eq_some {l l' : FairLock V} {v : V} (h : l.write v = some l') :
    l.writer = none ∧ l' = { l with writer := some v, queue := l.queue.erase v } := by
  unfold write at h
  split at h
  · rename_i hfree
    cases h
    exact ⟨Option.isNone_iff_eq_none.1 hfree.1, rfl⟩
  · cases h

omit [DecidableEq V] in
/-- **`read_recursive()` waits for an active writer only.** -/
theorem readRecursive_eq_none {l : FairLock V} {v : V} : l.readRecursive v = none ↔ ∃ u, l.writer = some u := by
  unfold readRecursive
  cases l.writer <;> simp

omit [DecidableEq V] in
/-- **`read()` waits behind a queued writer too.** -/
theorem read_eq_none {l : FairLock V} {v : V} : l.read v = none ↔ ∃ u, l.writer = some u ∨ u ∈ l.queue := by
  unfold read
  cases l.writer with
  | none => simp [List.eq_nil_iff_forall_not_mem]
  | some w => simp

theorem write_eq_none {l : FairLock V} {v : V} : l.write v = none ↔ ∃ u, l.writer = some u ∨ u ∈ l.readers := by
  unfold write
  cases l.writer with
  | none => simp [List.eq_nil_iff_forall_not_mem]
  | some w => simp

end FairLock

section Keeps

variable {S : Type} {wr wait : S → Bool} {rd : S → Nat}

/-- The lock is held and waited for exactly as the holders' states say. -/
structure Keeps [DecidableEq V] (wr wait : S → Bool) (rd : S → Nat) (l : FairLock V) (at_ : V → S) : Prop where
  writer : ∀ v, l.writer = some v ↔ wr (at_ v) = true
  reader : ∀ v, l.readers.count v = rd (at_ v)
  waiter : ∀ v, l.queue.count v = (wait (at_ v)).toNat

namespace Keeps

variable [DecidableEq V] {l : FairLock V} {at_ : V → S} {v : V} {p : S}

theorem update_writer (h : ∀ u, l.writer = some u ↔ wr (at_ u) = true) (hp : wr p = wr (at_ v)) (u : V) :
    l.writer = some u ↔ wr (Function.update at_ v p u) = true := by
  by_cases hu : u = v
  · subst hu
    rw [Function.update_self, hp]
    exact h u
  · rw [Function.update_of_ne hu]
    exact h u

theorem update_count {f : S → Nat} {xs : List V} (h : ∀ u, xs.count u = f (at_ u)) (hp : f p = f (at_ v)) (u : V) :
    xs.count u = f (Function.update at_ v p u) := by
  by_cases hu : u = v
  · subst hu
    rw [Function.update_self, hp]
    exact h u
  · rw [Function.update_of_ne hu]
    exact h u

theorem count_cons {f : S → Nat} {xs : List V} (h : ∀ u, xs.count u = f (at_ u)) (hp : f p = f (at_ v) + 1) (u : V) :
    (v :: xs).count u = f (Function.update at_ v p u) := by
  by_cases hu : u = v
  · subst hu
    rw [Function.update_self, hp, List.count_cons_self, h u]
  · rw [Function.update_of_ne hu, List.count_cons_of_ne (Ne.symm hu), h u]

theorem count_erase {f : S → Nat} {xs : List V} (h : ∀ u, xs.count u = f (at_ u)) (hp : f p + 1 = f (at_ v)) (u : V) :
    (xs.erase v).count u = f (Function.update at_ v p u) := by
  by_cases hu : u = v
  · subst hu
    rw [Function.update_self, List.count_erase_self, h u, ← hp]
    exact Nat.add_sub_cancel _ _
  · rw [Function.update_of_ne hu, List.count_erase_of_ne hu, h u]

/-- A step that does nothing with the lock. -/
theorem stay (h : Keeps wr wait rd l at_) (hw : wr p = wr (at_ v)) (hq : wait p = wait (at_ v)) (hr : rd p = rd (at_ v)) :
    Keeps wr wait rd l (Function.update at_ v p) :=
  ⟨update_writer h.writer hw, update_count h.reader hr,
    update_count (f := fun s => (wait s).toNat) h.waiter (congrArg Bool.toNat hq)⟩

theorem gotRead (h : Keeps wr wait rd l at_) (hw : wr p = wr (at_ v)) (hq : wait p = wait (at_ v))
    (hr : rd p = rd (at_ v) + 1) : Keeps wr wait rd { l with readers := v :: l.readers } (Function.update at_ v p) :=
  ⟨update_writer h.writer hw, count_cons h.reader hr,
    update_count (f := fun s => (wait s).toNat) h.waiter (congrArg Bool.toNat hq)⟩

theorem releaseRead (h : Keeps wr wait rd l at_) (hw : wr p = wr (at_ v)) (hq : wait p = wait (at_ v))
    (hr : rd p + 1 = rd (at_ v)) : Keeps wr wait rd (l.releaseRead v) (Function.update at_ v p) :=
  ⟨update_writer h.writer hw, count_erase h.reader hr,
    update_count (f := fun s => (wait s).toNat) h.waiter (congrArg Bool.toNat hq)⟩

theorem enqueue (h : Keeps wr wait rd l at_) (hw : wr p = wr (at_ v)) (hold : wait (at_ v) = false) (hq : wait p = true)
    (hr : rd p = rd (at_ v)) : Keeps wr wait rd (l.enqueue v) (Function.update at_ v p) := by
  refine ⟨update_writer h.writer hw, update_count h.reader hr, ?_⟩
  exact count_cons (f := fun s => (wait s).toNat) h.waiter (by rw [hold, hq]; rfl)

theorem gotWrite (h : Keeps wr wait rd l at_) (hfree : l.writer = none) (hw : wr p = true) (hold : wait (at_ v) = true)
    (hq : wait p = false) (hr : rd p = rd (at_ v)) :
    Keeps wr wait rd { l with writer := some v, queue := l.queue.erase v } (Function.update at_ v p) := by
  refine ⟨?_, update_count h.reader hr, count_erase (f := fun s => (wait s).toNat) h.waiter (by rw [hold, hq]; rfl)⟩
  intro u
  by_cases hu : u = v
  · subst hu
    simp [hw]
  · rw [Function.update_of_ne hu, ← h.writer u, hfree]
    simp [Ne.symm hu]

theorem releaseWrite (h : Keeps wr wait rd l at_) (hold : wr (at_ v) = true) (hw : wr p = false)
    (hq : wait p = wait (at_ v)) (hr : rd p = rd (at_ v)) : Keeps wr wait rd l.releaseWrite (Function.update at_ v p) := by
  refine ⟨?_, update_count h.reader hr,
    update_count (f := fun s => (wait s).toNat) h.waiter (congrArg Bool.toNat hq)⟩
  intro u
  by_cases hu : u = v
  · subst hu
    simp [FairLock.releaseWrite, hw]
  · rw [Function.update_of_ne hu, ← h.writer u, (h.writer v).2 hold]
    simp [FairLock.releaseWrite, Ne.symm hu]

theorem rd_pos_of_mem (h : Keeps wr wait rd l at_) (hv : v ∈ l.readers) : 0 < rd (at_ v) := by
  rw [← h.reader v]
  exact List.count_pos_iff.2 hv

theorem wait_of_mem (h : Keeps wr wait rd l at_) (hv : v ∈ l.queue) : wait (at_ v) = true := by
  have hpos := List.count_pos_iff.2 hv
  rw [h.waiter v] at hpos
  cases hw : wait (at_ v) with
  | true => rfl
  | false =>
    rw [hw] at hpos
    cases hpos

end Keeps

end Keeps

/-! ## A family of mutexes -/

section Owned

variable {K S : Type} [DecidableEq K] [DecidableEq V] {has : S → Option K} {owner : K → Option V} {at_ : V → S} {v : V} {p : S}

/-- Every mutex is locked by the holder whose state says so; a holder has at most one. -/
def Owned (has : S → Option K) (owner : K → Option V) (at_ : V → S) : Prop :=
  ∀ k v, owner k = some v ↔ has (at_ v) = some k

namespace Owned

omit [DecidableEq K] in
theorem stay (h : Owned has owner at_) (hp : has p = has (at_ v)) : Owned has owner (Function.update at_ v p) := by
  intro k u
  by_cases hu : u = v
  · subst hu
    rw [Function.update_self, hp]
    exact h k u
  · rw [Function.update_of_ne hu]
    exact h k u

theorem lock (h : Owned has owner at_) {k : K} (hfree : owner k = none) (hnone : has (at_ v) = none) (hp : has p = some k) :
    Owned has (Function.update owner k (some v)) (Function.update at_ v p) := by
  intro j u
  by_cases hj : j = k
  · subst hj
    rw [Function.update_self]
    by_cases hu : u = v
    · subst hu
      rw [Function.update_self, hp]
      exact ⟨fun _ => rfl, fun _ => rfl⟩
    · rw [Function.update_of_ne hu, ← h j u, hfree]
      simp [Ne.symm hu]
  · rw [Function.update_of_ne hj, h j u]
    by_cases hu : u = v
    · subst hu
      rw [Function.update_self, hp, hnone]
      simp [Ne.symm hj]
    · rw [Function.update_of_ne hu]

theorem unlock (h : Owned has owner at_) {k : K} (hheld : has (at_ v) = some k) (hp : has p = none) :
    Owned has (Function.update owner k none) (Function.update at_ v p) := by
  intro j u
  by_cases hj : j = k
  · subst hj
    rw [Function.update_self]
    by_cases hu : u = v
    · subst hu
      rw [Function.update_self, hp]
      simp
    · rw [Function.update_of_ne hu, ← h j u, (h j v).2 hheld]
      simp [Ne.symm hu]
  · rw [Function.update_of_ne hj, h j u]
    by_cases hu : u = v
    · subst hu
      rw [Function.update_self, hp, hheld]
      simp [Ne.symm hj]
    · rw [Function.update_of_ne hu]

end Owned

end Owned

end MmapIo
