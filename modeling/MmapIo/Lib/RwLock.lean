import Mathlib.Data.Finset.Basic
/-!
# RwLock — a readers–writer lock over a set of holders

`writer` holds the lock exclusively, every member of `readers` holds it shared; the two exclude each other by the
structure's own field, so a lock with both cannot be built.  Each holder takes the lock at most once (a recursive read of
one thread is two holders).  Fairness and queueing are not modelled: an acquisition is enabled whenever no incompatible
holder is active, so the runs of the lock include those of every queueing discipline.
-/
namespace MmapIo

variable {V : Type}

structure RwLock (V : Type) where
  writer : Option V
  readers : Finset V
  excl : writer = none ∨ readers = ∅

namespace RwLock

def free : RwLock V := ⟨none, ∅, Or.inl rfl⟩

@[simp] theorem free_writer : (free : RwLock V).writer = none := rfl

@[simp] theorem free_readers : (free : RwLock V).readers = ∅ := rfl

def releaseWrite (l : RwLock V) : RwLock V := ⟨none, l.readers, Or.inl rfl⟩

@[simp] theorem releaseWrite_writer (l : RwLock V) : (l.releaseWrite).writer = none := rfl

@[simp] theorem releaseWrite_readers (l : RwLock V) : (l.releaseWrite).readers = l.readers := rfl

/-- **A writer excludes every reader.** -/
theorem readers_eq_empty {l : RwLock V} {v : V} (h : l.writer = some v) : l.readers = ∅ := by
  rcases l.excl with hn | he
  · rw [hn] at h
    cases h
  · exact he

/-- **A reader excludes every writer.** -/
theorem writer_eq_none {l : RwLock V} {v : V} (h : v ∈ l.readers) : l.writer = none := by
  rcases l.excl with hn | he
  · exact hn
  · rw [he] at h
    cases h

variable [DecidableEq V]

/-- `read()` / `read_recursive()` granted to `v`: no writer is active. -/
def acquireRead (l : RwLock V) (v : V) : Option (RwLock V) :=
  if l.writer = none then some ⟨none, insert v l.readers, Or.inl rfl⟩ else none

/-- `write()` granted to `v`: nobody holds the lock. -/
def acquireWrite (l : RwLock V) (v : V) : Option (RwLock V) :=
  if l.writer = none ∧ l.readers = ∅ then some ⟨some v, ∅, Or.inr rfl⟩ else none

def releaseRead (l : RwLock V) (v : V) : RwLock V :=
  ⟨l.writer, l.readers.erase v, l.excl.imp id (fun h => by rw [h]; rfl)⟩

/-- `RwLockWriteGuard::downgrade`: the writer `v` becomes a reader without releasing the lock. -/
def downgrade (l : RwLock V) (v : V) : RwLock V := ⟨none, insert v l.readers, Or.inl rfl⟩

def heldBy (v : V) : RwLock V := ⟨some v, ∅, Or.inr rfl⟩

theorem acquireWrite_free (v : V) : (free : RwLock V).acquireWrite v = some (heldBy v) := if_pos ⟨rfl, rfl⟩

theorem acquireRead_of_writer_none {l : RwLock V} (h : l.writer = none) (v : V) :
    ∃ l', l.acquireRead v = some l' ∧ l'.writer = none :=
  ⟨_, if_pos h, rfl⟩

theorem acquireRead_eq_some {l l' : RwLock V} {v : V} (h : l.acquireRead v = some l') :
    l.writer = none ∧ l'.writer = none ∧ l'.readers = insert v l.readers := by
  unfold acquireRead at h
  split at h
  · rename_i hw
    cases h
    exact ⟨hw, rfl, rfl⟩
  · cases h

theorem acquireWrite_eq_some {l l' : RwLock V} {v : V} (h : l.acquireWrite v = some l') :
    l.writer = none ∧ l.readers = ∅ ∧ l'.writer = some v ∧ l'.readers = ∅ := by
  unfold acquireWrite at h
  split at h
  · rename_i hw
    cases h
    exact ⟨hw.1, hw.2, rfl, rfl⟩
  · cases h

@[simp] theorem releaseRead_writer (l : RwLock V) (v : V) : (l.releaseRead v).writer = l.writer := rfl

@[simp] theorem releaseRead_readers (l : RwLock V) (v : V) : (l.releaseRead v).readers = l.readers.erase v := rfl

@[simp] theorem downgrade_writer (l : RwLock V) (v : V) : (l.downgrade v).writer = none := rfl

@[simp] theorem downgrade_readers (l : RwLock V) (v : V) : (l.downgrade v).readers = insert v l.readers := rfl

end RwLock

/-! ## Holders read off their program counters

A machine keeps for every holder a program counter; `wr` and `rd` say at which of them the holder is inside a write or a
read section.  `Held` says that the lock and the program counters agree; each lemma is one lock operation. -/

section Held

variable {Pc : Type} {wr rd : Pc → Prop}

/-- The lock's holders are exactly those whose program counter is inside a section. -/
structure Held (wr rd : Pc → Prop) (l : RwLock V) (pc : V → Pc) : Prop where
  writer : ∀ v, l.writer = some v ↔ wr (pc v)
  reader : ∀ v, v ∈ l.readers ↔ rd (pc v)

namespace Held

variable {l : RwLock V} {pc : V → Pc}

theorem writer_unique (h : Held wr rd l pc) {v u : V} (hv : wr (pc v)) (hu : wr (pc u)) : v = u := by
  have h1 := (h.writer v).2 hv
  rw [(h.writer u).2 hu] at h1
  exact (Option.some.inj h1).symm

theorem no_reader (h : Held wr rd l pc) {v u : V} (hv : wr (pc v)) : ¬ rd (pc u) := by
  intro hu
  have hmem := (h.reader u).2 hu
  rw [RwLock.readers_eq_empty ((h.writer v).2 hv)] at hmem
  cases hmem

variable [DecidableEq V]

theorem stay (h : Held wr rd l pc) {v : V} {p : Pc} (hw : wr p ↔ wr (pc v)) (hr : rd p ↔ rd (pc v)) :
    Held wr rd l (Function.update pc v p) := by
  refine ⟨fun u => ?_, fun u => ?_⟩
  · by_cases hu : u = v
    · subst hu
      rw [Function.update_self, hw]
      exact h.writer u
    · rw [Function.update_of_ne hu]
      exact h.writer u
  · by_cases hu : u = v
    · subst hu
      rw [Function.update_self, hr]
      exact h.reader u
    · rw [Function.update_of_ne hu]
      exact h.reader u

theorem acquireRead (h : Held wr rd l pc) {l' : RwLock V} {v : V} {p : Pc} (hl : l.acquireRead v = some l')
    (hw : ¬ wr p) (hr : rd p) : Held wr rd l' (Function.update pc v p) := by
  obtain ⟨hfree, hw', hr'⟩ := RwLock.acquireRead_eq_some hl
  have hnone : ∀ u, ¬ wr (pc u) := fun u hu => by
    have := (h.writer u).2 hu
    rw [hfree] at this
    cases this
  refine ⟨fun u => ?_, fun u => ?_⟩
  · rw [hw']
    by_cases hu : u = v
    · subst hu
      simp [hw]
    · rw [Function.update_of_ne hu]
      simp [hnone u]
  · rw [hr', Finset.mem_insert]
    by_cases hu : u = v
    · subst hu
      simp [hr]
    · rw [Function.update_of_ne hu]
      simp [hu, h.reader u]

theorem acquireWrite (h : Held wr rd l pc) {l' : RwLock V} {v : V} {p : Pc} (hl : l.acquireWrite v = some l')
    (hw : wr p) (hr : ¬ rd p) : Held wr rd l' (Function.update pc v p) := by
  obtain ⟨hfree, hempty, hw', hr'⟩ := RwLock.acquireWrite_eq_some hl
  refine ⟨fun u => ?_, fun u => ?_⟩
  · rw [hw']
    by_cases hu : u = v
    · subst hu
      simp [hw]
    · rw [Function.update_of_ne hu, ← h.writer u, hfree]
      simp [Ne.symm hu]
  · rw [hr']
    by_cases hu : u = v
    · subst hu
      simp [hr]
    · rw [Function.update_of_ne hu, ← h.reader u, hempty]

theorem releaseRead (h : Held wr rd l pc) {v : V} {p : Pc} (hold : rd (pc v)) (hw : ¬ wr p) (hr : ¬ rd p) :
    Held wr rd (l.releaseRead v) (Function.update pc v p) := by
  have hfree := RwLock.writer_eq_none ((h.reader v).2 hold)
  refine ⟨fun u => ?_, fun u => ?_⟩
  · rw [RwLock.releaseRead_writer]
    by_cases hu : u = v
    · subst hu
      simp [hw, hfree]
    · rw [Function.update_of_ne hu]
      exact h.writer u
  · rw [RwLock.releaseRead_readers, Finset.mem_erase]
    by_cases hu : u = v
    · subst hu
      simp [hr]
    · rw [Function.update_of_ne hu]
      simp [hu, h.reader u]

theorem releaseWrite (h : Held wr rd l pc) {v : V} {p : Pc} (hold : wr (pc v)) (hw : ¬ wr p) (hr : ¬ rd p) :
    Held wr rd l.releaseWrite (Function.update pc v p) := by
  have hempty := RwLock.readers_eq_empty ((h.writer v).2 hold)
  refine ⟨fun u => ?_, fun u => ?_⟩
  · rw [RwLock.releaseWrite_writer]
    by_cases hu : u = v
    · subst hu
      simp [hw]
    · rw [Function.update_of_ne hu]
      simp only [reduceCtorEq, false_iff]
      exact fun hwu => hu (h.writer_unique hwu hold)
  · rw [RwLock.releaseWrite_readers, hempty]
    by_cases hu : u = v
    · subst hu
      simp [hr]
    · rw [Function.update_of_ne hu]
      simp only [Finset.notMem_empty, false_iff]
      exact h.no_reader hold

theorem downgrade (h : Held wr rd l pc) {v : V} {p : Pc} (hold : wr (pc v)) (hw : ¬ wr p) (hr : rd p) :
    Held wr rd (l.downgrade v) (Function.update pc v p) := by
  have hempty := RwLock.readers_eq_empty ((h.writer v).2 hold)
  refine ⟨fun u => ?_, fun u => ?_⟩
  · rw [RwLock.downgrade_writer]
    by_cases hu : u = v
    · subst hu
      simp [hw]
    · rw [Function.update_of_ne hu]
      simp only [reduceCtorEq, false_iff]
      exact fun hwu => hu (h.writer_unique hwu hold)
  · rw [RwLock.downgrade_readers, hempty, Finset.mem_insert]
    by_cases hu : u = v
    · subst hu
      simp [hr]
    · rw [Function.update_of_ne hu]
      simp only [hu, Finset.notMem_empty, or_self, false_iff]
      exact h.no_reader hold

end Held

end Held

end MmapIo
