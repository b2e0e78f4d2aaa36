import Mathlib.Data.List.Perm.Lattice
import Mathlib.Order.CompletePartialOrder
import Mathlib.Order.Interval.Set.Disjoint
import MmapIo.Utils
/-!
# Views — the data of the view registry

The ranges of the live views of one writable mapping (`views.rs`): a slab with a free list per shard for the plain views,
one list of entries for the atomic ones.  What each operation does to the set of live ranges is stated once here
(`Slab.insert_get`, `Slab.mem_remove`, `swapRemove_perm`); the protocol over them is in `ViewsStep`.
-/
namespace MmapIo

/-- Why a view could not be registered. -/
inductive Conflict where
  | atomicLive
  | plainLive
  | mixedSize
  deriving DecidableEq, Repr

def Conflict.message : Conflict → String
  | .atomicLive => "range overlaps a live atomic view of this mapping; read those bytes through the atomic view or copy " ++
    "them with read_into"
  | .plainLive => "range overlaps a live MappedSlice or iterator item of this mapping; drop it before creating an atomic " ++
    "view over the same bytes"
  | .mixedSize => "range overlaps a live atomic view with a different element size; mixed-size atomic access to the same " ++
    "bytes is not allowed"

def Conflict.toError (c : Conflict) : MmapIoError := .invalidMode c.message

/-- A byte range `[start, stop)` of the mapping. -/
structure Span where
  start : Nat
  stop : Nat
  deriving DecidableEq, Repr

def Span.bytes (r : Span) : Set Nat := Set.Ico r.start r.stop

def overlaps (a0 a1 b0 b1 : Nat) : Bool := decide (a0 < b1) && decide (b0 < a1)

/-- **Two non-empty ranges overlap exactly when they share a byte.** -/
theorem overlaps_iff {a b : Span} (ha : a.start < a.stop) (hb : b.start < b.stop) :
    overlaps a.start a.stop b.start b.stop = true ↔ ¬ Disjoint a.bytes b.bytes := by
  rw [Set.not_disjoint_iff]
  simp only [overlaps, Bool.and_eq_true, decide_eq_true_eq, Span.bytes, Set.mem_Ico]
  constructor
  · rintro ⟨h1, h2⟩
    exact ⟨max a.start b.start, by omega, by omega⟩
  · rintro ⟨x, h1, h2⟩
    omega

/-! ## The plain views of one shard -/

def shards : Nat := 8

/-- `Slab`: ranges with a free list. `free` is a stack, its top first. -/
structure Slab where
  entries : List (Option Span)
  free : List Nat
  deriving DecidableEq, Repr

namespace Slab

def empty : Slab := ⟨[], []⟩

/-- `Slab::insert`: the new slab and the slot. -/
def insert (s : Slab) (range : Span) : Slab × Nat :=
  match s.free with
  | slot :: rest => (⟨s.entries.set slot (some range), rest⟩, slot)
  | [] => (⟨s.entries ++ [some range], []⟩, s.entries.length)

def remove (s : Slab) (slot : Nat) : Slab :=
  match s.entries[slot]? with
  | some (some _) => ⟨s.entries.set slot none, slot :: s.free⟩
  | _ => s

def overlaps (s : Slab) (start stop : Nat) : Bool :=
  s.entries.any (fun o => match o with
    | some r => MmapIo.overlaps r.start r.stop start stop
    | none => false)

def get (s : Slab) (slot : Nat) : Option Span := (s.entries[slot]?).join

/-- The free list holds the empty slots, each once. -/
structure Wf (s : Slab) : Prop where
  free_iff : ∀ i, i ∈ s.free ↔ s.entries[i]? = some none
  nodup : s.free.Nodup

theorem get_eq_some {s : Slab} {i : Nat} {r : Span} : s.get i = some r ↔ s.entries[i]? = some (some r) := by
  unfold get
  rw [Option.join_eq_some_iff]

theorem wf_empty : Wf empty := ⟨fun i => by simp [empty], List.nodup_nil⟩

theorem get_empty (i : Nat) : empty.get i = none := by simp [empty, get]

theorem insert_fresh {s : Slab} (h : s.Wf) (range : Span) : s.get (s.insert range).2 = none := by
  unfold insert
  cases hf : s.free with
  | nil => simp [get]
  | cons slot rest =>
    have := (h.free_iff slot).1 (by rw [hf]; exact List.mem_cons_self)
    simp [get, this]

/-- **`insert` fills its slot and no other.** -/
theorem insert_get {s : Slab} (h : s.Wf) (range : Span) (i : Nat) :
    (s.insert range).1.get i = if i = (s.insert range).2 then some range else s.get i := by
  unfold insert get
  cases hf : s.free with
  | nil =>
    simp only
    rcases Nat.lt_trichotomy i s.entries.length with hlt | heq | hgt
    · rw [List.getElem?_append_left hlt, if_neg (Nat.ne_of_lt hlt)]
    · subst heq
      simp
    · rw [if_neg (Nat.ne_of_gt hgt), List.getElem?_eq_none (by simp; omega), List.getElem?_eq_none (Nat.le_of_lt hgt)]
  | cons slot rest =>
    have hslot := (h.free_iff slot).1 (by rw [hf]; exact List.mem_cons_self)
    have hlt := (List.getElem?_eq_some_iff.1 hslot).1
    simp only
    by_cases hi : i = slot
    · subst hi
      rw [if_pos rfl, List.getElem?_set_self hlt]
      rfl
    · rw [if_neg hi, List.getElem?_set_ne (Ne.symm hi)]

theorem wf_insert {s : Slab} (h : s.Wf) (range : Span) : (s.insert range).1.Wf := by
  unfold insert
  cases hf : s.free with
  | nil =>
    refine ⟨fun i => ?_, List.nodup_nil⟩
    have hnone := h.free_iff i
    rw [hf] at hnone
    simp only [List.not_mem_nil, false_iff] at hnone ⊢
    rcases Nat.lt_trichotomy i s.entries.length with hlt | heq | hgt
    · rw [List.getElem?_append_left hlt]
      exact hnone
    · subst heq
      simp
    · rw [List.getElem?_eq_none (by simp; omega)]
      simp
  | cons slot rest =>
    have hnd := h.nodup
    rw [hf, List.nodup_cons] at hnd
    refine ⟨fun i => ?_, hnd.2⟩
    have hiff := h.free_iff i
    rw [hf, List.mem_cons] at hiff
    simp only
    by_cases hi : i = slot
    · subst hi
      have hlt := (List.getElem?_eq_some_iff.1 (hiff.1 (Or.inl rfl))).1
      rw [List.getElem?_set_self hlt]
      simp [hnd.1]
    · rw [List.getElem?_set_ne (Ne.symm hi), ← hiff]
      simp [hi]

/-- **`remove` empties its slot and no other.** -/
theorem remove_get (s : Slab) (slot i : Nat) : (s.remove slot).get i = if i = slot then none else s.get i := by
  unfold remove get
  split
  · rename_i r hr
    have hlt := (List.getElem?_eq_some_iff.1 hr).1
    simp only
    by_cases hi : i = slot
    · subst hi
      rw [if_pos rfl, List.getElem?_set_self hlt]
      rfl
    · rw [if_neg hi, List.getElem?_set_ne (Ne.symm hi)]
  · rename_i hno
    by_cases hi : i = slot
    · subst hi
      rw [if_pos rfl]
      cases he : s.entries[i]? with
      | none => rfl
      | some o =>
        cases o with
        | none => rfl
        | some r => exact absurd he (hno r)
    · rw [if_neg hi]

theorem wf_remove {s : Slab} (h : s.Wf) (slot : Nat) : (s.remove slot).Wf := by
  unfold remove
  split
  · rename_i r hr
    have hlt := (List.getElem?_eq_some_iff.1 hr).1
    have hnot : slot ∉ s.free := fun hmem => by
      rw [(h.free_iff slot).1 hmem] at hr
      cases hr
    refine ⟨fun i => ?_, List.nodup_cons.2 ⟨hnot, h.nodup⟩⟩
    simp only [List.mem_cons]
    by_cases hi : i = slot
    · subst hi
      rw [List.getElem?_set_self hlt]
      simp
    · rw [List.getElem?_set_ne (Ne.symm hi), ← h.free_iff i]
      simp [hi]
  · exact h

/-- **A shard reports an overlap exactly when a live range overlaps.** -/
theorem overlaps_iff (s : Slab) (start stop : Nat) :
    s.overlaps start stop = true ↔ ∃ i r, s.get i = some r ∧ MmapIo.overlaps r.start r.stop start stop = true := by
  unfold overlaps
  rw [List.any_eq_true]
  constructor
  · rintro ⟨o, ho, hov⟩
    obtain ⟨i, hi⟩ := List.getElem?_of_mem ho
    cases o with
    | none => cases hov
    | some r => exact ⟨i, r, get_eq_some.2 hi, hov⟩
  · rintro ⟨i, r, hr, hov⟩
    exact ⟨some r, List.mem_of_getElem? (get_eq_some.1 hr), hov⟩

end Slab

/-! ## The atomic views -/

structure AtomicEntry where
  range : Span
  size : Nat
  id : Nat
  deriving DecidableEq, Repr

structure AtomicSet where
  entries : List AtomicEntry
  nextId : Nat
  deriving DecidableEq, Repr

/-- `Vec::swap_remove`: the last element takes the place of the removed one. -/
def swapRemove {α : Type} (l : List α) (i : Nat) : List α :=
  match l.getLast? with
  | some x => (l.set i x).dropLast
  | none => l

/-- **`swap_remove` removes exactly the element at its index**, up to order. -/
theorem swapRemove_perm {α : Type} (l : List α) (i : Nat) (hi : i < l.length) :
    (swapRemove l i).Perm (l.eraseIdx i) := by
  rcases List.eq_nil_or_concat l with rfl | ⟨l', x, rfl⟩
  · cases hi
  · rw [List.concat_eq_append] at hi ⊢
    unfold swapRemove
    rw [List.getLast?_concat]
    simp only
    rw [List.length_append, List.length_singleton] at hi
    rcases Nat.lt_or_eq_of_le (Nat.le_of_lt_succ hi) with hlt | heq
    · rw [List.set_append_left _ _ hlt, List.dropLast_concat, List.eraseIdx_append_of_lt_length hlt]
      rw [List.set_eq_take_append_cons_drop, if_pos hlt, List.eraseIdx_eq_take_drop_succ, List.append_assoc]
      exact List.Perm.append_left _ (List.perm_append_singleton _ _).symm
    · subst heq
      rw [List.set_append_right _ _ (Nat.le_refl _), Nat.sub_self, List.set_cons_zero, List.dropLast_concat,
        List.eraseIdx_append_of_length_le (Nat.le_refl _), Nat.sub_self, List.eraseIdx_cons_zero, List.append_nil]

namespace AtomicSet

/-- The entries as `AtomicReg::drop` leaves them: the first entry with this id is swapped out, if there is one. -/
def removeId (entries : List AtomicEntry) (id : Nat) : Option (List AtomicEntry) :=
  (entries.findIdx? (fun a => a.id == id)).map (swapRemove entries)

/-- **With distinct ids, dropping a registration removes exactly its own entry.** -/
theorem removeId_perm {entries : List AtomicEntry} (hnd : (entries.map AtomicEntry.id).Nodup) {e : AtomicEntry}
    (he : e ∈ entries) : ∃ entries', removeId entries e.id = some entries' ∧ entries'.Perm (entries.erase e) := by
  unfold removeId
  cases hf : entries.findIdx? (fun a => a.id == e.id) with
  | none => exact absurd (List.findIdx?_eq_none_iff.1 hf e he) (by simp)
  | some i =>
    obtain ⟨hi, hid, -⟩ := List.findIdx?_eq_some_iff_getElem.1 hf
    have hid : entries[i].id = e.id := by simpa using hid
    have hei : entries[i] = e := List.inj_on_of_nodup_map hnd (List.getElem_mem hi) he hid
    refine ⟨_, rfl, (swapRemove_perm entries i hi).trans ?_⟩
    rw [← hei]
    exact (List.erase_getElem hi).symm

/-- **A drop removes one entry with its id**, whichever ids there are. -/
theorem removeId_some {entries entries' : List AtomicEntry} {id : Nat} (h : removeId entries id = some entries') :
    ∃ e ∈ entries, e.id = id ∧ entries'.Perm (entries.erase e) := by
  obtain ⟨i, hf, rfl⟩ := Option.map_eq_some_iff.1 h
  obtain ⟨hi, hid, -⟩ := List.findIdx?_eq_some_iff_getElem.1 hf
  refine ⟨entries[i], List.getElem_mem hi, by simpa using hid, ?_⟩
  exact (swapRemove_perm entries i hi).trans (List.erase_getElem hi).symm

theorem removeId_none {entries : List AtomicEntry} {id : Nat} (h : removeId entries id = none) :
    id ∉ entries.map AtomicEntry.id := by
  intro hmem
  obtain ⟨e, he, rfl⟩ := List.mem_map.1 hmem
  have hno := List.findIdx?_eq_none_iff.1 (Option.map_eq_none_iff.1 h) e he
  simp at hno

end AtomicSet

end MmapIo
