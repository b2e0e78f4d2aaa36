import MmapIo.CopyOut
import MmapIo.Lib.Chunk
import MmapIo.NonShared
/-!
# Chunks — the chunk iterators over a mapping

`ChunkIterator` (`iterator.rs`) with its owned and page variants: `next` with the arithmetic and the slicing it does,
`none` where an operation would overflow or an index leave the mapping, and `size_hint`.  An item over a live atomic view is
a copy made by `copy_out`, any other item lends the mapped bytes.  `chunks_yield` is what every one of them yields.
-/
namespace MmapIo
namespace Chunks

open Word Bytes CopyOut Chunk
open NonShared (ChunkIterator)

/-- A `MappedSlice` from the iterator: lent bytes of the mapping, or a snapshot. -/
inductive Item where
  | lent (range : Nat × Nat) (bytes : List UInt8)
  | snapshot (range : Nat × Nat) (bytes : List UInt8)
  deriving DecidableEq, Repr

def Item.range : Item → Nat × Nat
  | .lent range _ | .snapshot range _ => range

def Item.bytes : Item → List UInt8
  | .lent _ bytes | .snapshot _ bytes => bytes

/-- `ChunkIterator::new`. -/
def chunks (s : Inner) (chunkSize : Nat) : ChunkIterator := ⟨chunkSize, s.mapLen, 0⟩

/-- `PageIterator::new`. -/
def pages (P : Platform) (s : Inner) : ChunkIterator := chunks s P.page

section

variable (w : Width) (sort : List AtomicEntry → List AtomicEntry) (s : Inner)

/-- The mapped bytes `[start, stop)`, lent. -/
def lend (start stop : Nat) : Option Item := (slice? s.bytes start stop).map (Item.lent (start, stop))

/-- A copy of them.  `sort` is the `sort_unstable_by_key` of `copy_out`. -/
def snapshot (start stop : Nat) : Option Item :=
  (copyOut s.bytes (sort (s.atomics.filter (fun a => overlaps a.range.start a.range.stop start stop))) start
    (List.replicate (stop - start) 0)).map (fun c => Item.snapshot (start, stop) c.dst)

/-- The item of `next`: the registration of a plain view fails over a live atomic one. -/
def item (start stop : Nat) : Option Item :=
  match s.map with
  | .ro _ => lend s start stop
  | .rw _ | .cow _ =>
    if s.atomics.any (fun a => overlaps a.range.start a.range.stop start stop) then snapshot sort s start stop
    else lend s start stop

/-- `ChunkIterator::next`. -/
def next (it : ChunkIterator) : Option (Option Item × ChunkIterator) :=
  if it.chunkSize = 0 ∨ it.currentOffset ≥ it.totalLen then some (none, it) else do
  let start := it.currentOffset
  let rest ← checkedSub it.totalLen start
  let stop ← checkedAdd w.bits start (min rest it.chunkSize)
  let chunk ← item sort s start stop
  return (some chunk, { it with currentOffset := stop })

/-- `ChunkIteratorOwned::next` and `PageIteratorOwned::next`: the item is copied into a `Vec`. -/
def nextOwned : ChunkIterator → Option (Option (List UInt8) × ChunkIterator) := mapNext Item.bytes (next w sort s)

end

/-- `size_hint`. -/
def sizeHint (it : ChunkIterator) : Nat × Option Nat :=
  if it.chunkSize = 0 then (0, some 0) else
  let remaining := it.totalLen - it.currentOffset
  let chunks := divCeil remaining it.chunkSize
  (chunks, some chunks)

/-! ## The items -/

/-- What the sort may do: any order of the same entries, by start. -/
structure Sorts (sort : List AtomicEntry → List AtomicEntry) : Prop where
  perm : ∀ l, (sort l).Perm l
  sorted : ∀ l, (sort l).Pairwise (fun a b => a.range.start ≤ b.range.start)

/-- One such sort. -/
def byStart (entries : List AtomicEntry) : List AtomicEntry :=
  entries.mergeSort (fun a b => decide (a.range.start ≤ b.range.start))

theorem byStart_sorts : Sorts byStart where
  perm l := List.mergeSort_perm l _
  sorted l := by
    have htrans : ∀ a b c : AtomicEntry, decide (a.range.start ≤ b.range.start) → decide (b.range.start ≤ c.range.start) →
        decide (a.range.start ≤ c.range.start) := fun a b c hab hbc =>
      decide_eq_true (Nat.le_trans (of_decide_eq_true hab) (of_decide_eq_true hbc))
    have htotal : ∀ a b : AtomicEntry, decide (a.range.start ≤ b.range.start) || decide (b.range.start ≤ a.range.start) := by
      intro a b
      rw [Bool.or_eq_true, decide_eq_true_iff, decide_eq_true_iff]
      exact Nat.le_total _ _
    exact (List.pairwise_mergeSort htrans htotal l).imp of_decide_eq_true

variable {w : Width} {sort : List AtomicEntry → List AtomicEntry} {s : Inner}

/-- `chunk` is of `[start, stop)` and has its bytes. -/
def Shows (s : Inner) (start stop : Nat) (chunk : Item) : Prop :=
  chunk.range = (start, stop) ∧ chunk.bytes = s.bytes.extract start stop

section

variable {start stop : Nat} (hle : start ≤ stop) (hstop : stop ≤ s.bytes.length)

include hle hstop

theorem lend_shows : ∃ chunk, lend s start stop = some chunk ∧ Shows s start stop chunk := by
  rw [lend, slice?, if_pos ⟨hle, hstop⟩]
  exact ⟨_, rfl, rfl, rfl⟩

theorem snapshot_shows (hsort : Sorts sort) (hok : EntriesOk s.bytes.length s.atomics) :
    ∃ chunk, snapshot sort s start stop = some chunk ∧ Shows s start stop chunk := by
  have hlen : (List.replicate (stop - start) (0 : UInt8)).length = stop - start := List.length_replicate
  have hend : start + (stop - start) = stop := by omega
  have hspans : Spans s.atomics start (start + (List.replicate (stop - start) (0 : UInt8)).length)
      (sort (s.atomics.filter (fun a => overlaps a.range.start a.range.stop start stop))) := by
    rw [hlen, hend]
    exact ⟨hsort.perm _, hsort.sorted _⟩
  obtain ⟨c, hc, hfilled⟩ := copyOut_filled hok (by rw [hlen, hend]; exact hstop) hspans
  refine ⟨.snapshot (start, stop) c.dst, by rw [snapshot, hc]; rfl, rfl, ?_⟩
  have hdst := hfilled.dst_eq
  rw [hlen, hend] at hdst
  exact hdst

/-- **An item has the bytes of its range**, lent or copied. -/
theorem item_shows (hsort : Sorts sort) (hok : EntriesOk s.bytes.length s.atomics) :
    ∃ chunk, item sort s start stop = some chunk ∧ Shows s start stop chunk := by
  unfold item
  cases s.map with
  | ro n => exact lend_shows hle hstop
  | rw n | cow bytes =>
    simp only
    split
    · exact snapshot_shows hle hstop hsort hok
    · exact lend_shows hle hstop

end

/-- **The life of a chunk iterator** from any offset of the mapping. -/
theorem yields_from (hsort : Sorts sort) (hok : EntriesOk s.bytes.length s.atomics) {c : Nat} (hc : 0 < c)
    (hmax : s.bytes.length ≤ w.maxLen) (lo : Nat) (hlo : lo ≤ s.bytes.length) :
    ∃ items, Yields (next w sort s) sizeHint ⟨c, s.bytes.length, lo⟩ items ∧
      items.map Item.range = chunkFrom c hc s.bytes.length lo ∧
      ∀ chunk ∈ items, chunk.bytes = s.bytes.extract chunk.range.1 chunk.range.2 := by
  have hbits := w.maxLen_lt
  have hc0 : c ≠ 0 := by omega
  induction hn : s.bytes.length - lo using Nat.strong_induction_on generalizing lo with
  | _ n ih =>
  have hhint : sizeHint ⟨c, s.bytes.length, lo⟩ =
      ((chunkFrom c hc s.bytes.length lo).length, some (chunkFrom c hc s.bytes.length lo).length) := by
    simp only [sizeHint, if_neg hc0, length_chunkFrom, divCeil_eq _ hc]
  by_cases hlt : lo < s.bytes.length
  · obtain ⟨chunk, hchunk, hrange, hbytes⟩ := item_shows (Nat.le_add_right lo (min (s.bytes.length - lo) c)) (by omega)
      hsort hok
    obtain ⟨items, hyields, hranges, hall⟩ := ih (s.bytes.length - (lo + min (s.bytes.length - lo) c)) (by omega)
      (lo + min (s.bytes.length - lo) c) (by omega) rfl
    rw [chunkFrom_of_lt hlt] at hhint ⊢
    have hlen : items.length = (chunkFrom c hc s.bytes.length (lo + min (s.bytes.length - lo) c)).length := by
      rw [← hranges, List.length_map]
    refine ⟨chunk :: items, ⟨by rw [hhint, hlen]; rfl, _, ?_, hyields⟩, by rw [List.map_cons, hrange, hranges], ?_⟩
    · have hnot : ¬ (c = 0 ∨ lo ≥ s.bytes.length) := by omega
      rw [next, if_neg hnot]
      simp only [checkedSub_of_le (Nat.le_of_lt hlt),
        checkedAdd_of_lt (show lo + min (s.bytes.length - lo) c < 2 ^ w.bits by omega), hchunk, bind, Option.bind, pure]
    · intro chunk' hmem
      rcases List.mem_cons.1 hmem with rfl | hmem
      · rw [hbytes, hrange]
      · exact hall chunk' hmem
  · rw [chunkFrom_of_ge (Nat.not_lt.1 hlt)] at hhint ⊢
    refine ⟨[], ⟨hhint, ?_⟩, rfl, fun chunk hmem => by cases hmem⟩
    rw [next, if_pos (Or.inr (Nat.not_lt.1 hlt))]

/-- **The same `next` as a call of the process** (`NonShared`): on an iterator inside the mapping it hands out the item's bytes,
lent or copied, and the iterator moves on alike. -/
theorem next_nextItem {E : Type} (hsort : Sorts sort) {p : NonShared.World} {i : Nat} {it : ChunkIterator}
    (hit : p.live.iterators[i]? = some it) (hlen : it.totalLen ≤ p.inner.bytes.length) (hmax : p.inner.bytes.length ≤ w.maxLen)
    (hok : EntriesOk p.inner.bytes.length p.inner.atomics) :
    ∃ chunk it', next w sort p.inner it = some (chunk, it') ∧
      (p.nextItem (E := E) i it).1 = .ok (chunk.elim .nothing (fun c => .bytes c.bytes)) ∧
      (p.nextItem (E := E) i it).2.live.iterators = p.live.iterators.set i it' := by
  have hbits := w.maxLen_lt
  rw [next, NonShared.World.nextItem]
  by_cases hend : it.chunkSize = 0 ∨ it.currentOffset ≥ it.totalLen
  · obtain ⟨hi, rfl⟩ := List.getElem?_eq_some_iff.1 hit
    rw [if_pos hend, if_pos hend]
    exact ⟨none, _, rfl, rfl, (List.set_getElem_self hi).symm⟩
  · rw [not_or, Nat.not_le] at hend
    obtain ⟨stop, hstop⟩ : ∃ stop, stop = it.currentOffset + min (it.totalLen - it.currentOffset) it.chunkSize := ⟨_, rfl⟩
    have hle : it.currentOffset ≤ stop := by omega
    have hadd : checkedAdd w.bits it.currentOffset (min (it.totalLen - it.currentOffset) it.chunkSize) = some stop := by
      rw [checkedAdd_of_lt (by omega), hstop]
    obtain ⟨chunk, hchunk, -, hbytes⟩ := item_shows hle (by omega) hsort hok
    rw [if_neg (by omega), if_neg (by omega)]
    simp only [checkedSub_of_le (Nat.le_of_lt hend.2), hadd, hchunk, bind, Option.bind, pure, ← hstop]
    refine ⟨some chunk, _, rfl, ?_⟩
    simp only [Option.elim, hbytes]
    cases hv : intoView p.inner it.currentOffset stop with
    | error e => exact ⟨by rw [copyTo, Nat.add_sub_cancel' hle], rfl⟩
    | ok bs =>
      rw [intoView_ok hv]
      refine ⟨rfl, ?_⟩
      simp only [NonShared.World.hold]
      split <;> rfl

/-- **What an iterator in steps of `c` yields**: ranges that partition the mapping, with its bytes, and as many as it
announces; its owned twin yields copies of the same. -/
structure Partitions (w : Width) (sort : List AtomicEntry → List AtomicEntry) (s : Inner) (c : Nat) (it : ChunkIterator)
    (items : List Item) : Prop where
  yields : Yields (next w sort s) sizeHint it items
  owned : Yields (nextOwned w sort s) sizeHint it (items.map Item.bytes)
  ranges : Partition c s.mapLen 0 (items.map Item.range)
  bytes : items.flatMap Item.bytes = s.bytes

/-- **`chunks` partitions the mapping** along the walk `chunkFrom`. -/
theorem chunks_partitions (hsort : Sorts sort) (hbacked : s.bytes.length = s.mapLen) (hmax : s.mapLen ≤ w.maxLen)
    (hok : EntriesOk s.mapLen s.atomics) {c : Nat} (hc : 0 < c) :
    ∃ items, Partitions w sort s c (chunks s c) items ∧ items.map Item.range = chunkFrom c hc s.mapLen 0 := by
  rw [← hbacked] at hmax hok
  obtain ⟨items, hyields, hranges, hall⟩ := yields_from hsort hok hc hmax 0 (Nat.zero_le _)
  have hflat : items.flatMap Item.bytes = s.bytes := by
    have hcut : items.flatMap Item.bytes = (items.map Item.range).flatMap (fun r => s.bytes.extract r.1 r.2) := by
      rw [List.flatMap_map]
      exact List.flatMap_congr hall
    rw [hcut, hranges, flatMap_chunkFrom s.bytes rfl, List.drop_zero]
  rw [hbacked] at hyields hranges
  refine ⟨items, ⟨hyields, hyields.map Item.bytes, ?_, hflat⟩, hranges⟩
  rw [hranges]
  exact partition_chunkFrom (Nat.zero_le _)

/-- A chunk size of 0 yields nothing. -/
theorem chunks_zero : Yields (next w sort s) sizeHint (chunks s 0) [] := by
  have hzero : (chunks s 0).chunkSize = 0 := rfl
  refine ⟨rfl, ?_⟩
  rw [next, if_pos (Or.inl hzero)]

end Chunks
end MmapIo
