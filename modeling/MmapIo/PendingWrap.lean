import Mathlib.Data.List.Induction
import MmapIo.Iterator
/-!
# PendingWrap — the pending counter against the true count

The write paths of one shared mapping, called one at a time, with a tally beside them: the number of bytes counted since the
last successful full flush, as a natural number.  The counter is that number modulo `2 ^ 64` (`runOps_pending`), because
every path adds with a wrapping `fetch_add` and only the copy `count_update` decides on saturates.
-/
namespace MmapIo
namespace PendingWrap

open Word

/-- `as_mut_ptr`: the whole mapping is counted. -/
def asMutPtr (s : Inner) : Except MmapIoError Unit × Inner :=
  match writeLock s "as_mut_ptr requires a writable mapping" with
  | .error e => (.error e, s)
  | .ok () => (.ok (), recordWrite s.mapLen s)

/-- `Drop` of an atomic view of `bytes` bytes. -/
def dropAtomicView (bytes : Nat) (s : Inner) : Inner := recordWrite bytes s

variable {E : Type}

inductive Op (E : Type) where
  | updateRegion (offset : Nat) (data : List UInt8) (os : Os)
  | sliceMut (offset len : Nat) (f : SliceWrite)
  | chunksMut (chunkSize : Nat) (f : ChunkFn E)
  | dropAtomic (bytes : Nat)
  | asMutPtr
  | flush (os : Os)
  | flushRange (offset len : Nat) (os : Os)

def Op.apply (P : Platform) (s : Inner) : Op E → Inner
  | .updateRegion offset data os => (MmapIo.updateRegion P os offset data s).2
  | .sliceMut offset len f => (asSliceMut P offset len f s).2
  | .chunksMut chunkSize f => (drive f chunkSize s).2
  | .dropAtomic bytes => dropAtomicView bytes s
  | .asMutPtr => (PendingWrap.asMutPtr s).2
  | .flush os => (MmapIo.flush P os s).2
  | .flushRange offset len os => (MmapIo.flushRange P os offset len s).2

/-- The bytes an operation counts on a mapping of `total` bytes: those it hands out or writes, if it is accepted. -/
def Op.counts (s : Inner) (total : Nat) : Op E → Nat
  | .updateRegion offset data _ => if offset + data.length ≤ total then data.length else 0
  | .sliceMut offset len _ => if offset + len ≤ total then len else 0
  | .chunksMut chunkSize f => if h : chunkSize = 0 then 0 else
    (driveLoop f chunkSize (Nat.pos_of_ne_zero h) total [] 0 s).2.1
  | .dropAtomic bytes => bytes
  | .asMutPtr => total
  | .flush _ | .flushRange _ _ _ => 0

/-- The operation ends with a successful flush of the whole mapping. -/
def Op.flushes (P : Platform) (s : Inner) (total : Nat) : Op E → Bool
  | .updateRegion offset data os => decide (data ≠ [] ∧ offset + data.length ≤ total) && (countUpdate data.length s).1 &&
      (MmapIo.flush P os s).1.isOk
  | .flush os => (MmapIo.flush P os s).1.isOk
  | .flushRange offset len os => decide (len ≠ 0 ∧ offset = 0 ∧ len = total) && (MmapIo.flush P os s).1.isOk
  | _ => false

/-- A mapping with the true count. -/
structure Tally where
  inner : Inner
  total : Nat

def step (P : Platform) (len : Nat) (op : Op E) (t : Tally) : Tally :=
  ⟨op.apply P t.inner, if op.flushes P t.inner len then 0 else t.total + op.counts t.inner len⟩

def runOps (P : Platform) (len : Nat) (ops : List (Op E)) (t : Tally) : Tally := ops.foldl (fun t op => step P len op t) t

/-! ## One operation -/

section

variable {P : Platform} {s : Inner} {len : Nat}

/-- What no operation changes: the shared mapping and the policy. -/
structure Kept (s s' : Inner) : Prop where
  map : s'.map = s.map
  flushPolicy : s'.flushPolicy = s.flushPolicy

theorem kept_of_same {s' : Inner} (h : SameData s s') : Kept s s' := ⟨h.map, h.flushPolicy⟩

theorem recordWrite_rw (hrw : s.map = .rw len) (bytes : Nat) :
    recordWrite bytes s = { s with writtenSinceLastFlush := wrappingAdd 64 s.writtenSinceLastFlush bytes } := by
  simp only [recordWrite, Inner.tracksWrites, hrw, if_true]

/-- **A flush takes the counter, and puts it back when it fails.** -/
theorem flush_pending (hrw : s.map = .rw len) (hlt : s.writtenSinceLastFlush < 2 ^ 64) (os : Os) :
    (flush P os s).2.writtenSinceLastFlush = if (flush P os s).1.isOk then 0 else s.writtenSinceLastFlush := by
  simp only [flush, hrw, flushMapped]
  rcases rawFlush P os.sync len 0 len with ⟨_ | _, span⟩
  · simp only [wrappingAdd, Nat.zero_add, Nat.mod_eq_of_lt hlt]
    rfl
  · rfl

/-- The outcome of a flush depends on the mapping alone. -/
theorem flush_result {s' : Inner} (hrw : s.map = .rw len) (hrw' : s'.map = .rw len) (os : Os) :
    (flush P os s').1 = (flush P os s).1 := by
  simp only [flush, hrw, hrw', flushMapped]
  rcases rawFlush P os.sync len 0 len with ⟨_ | _, span⟩ <;> rfl

theorem driveLoop_kept (f : ChunkFn E) (chunkSize : Nat) (hsize : 0 < chunkSize) (total : Nat)
    (past : List (List UInt8)) (offset : Nat) (s : Inner) (hrw : s.map = .rw len) :
    Kept s (driveLoop f chunkSize hsize total past offset s).2.2 ∧
      (driveLoop f chunkSize hsize total past offset s).2.2.writtenSinceLastFlush = s.writtenSinceLastFlush := by
  induction hn : total - offset using Nat.strong_induction_on generalizing past offset s with
  | _ n ih =>
  rw [driveLoop]
  by_cases hlt : offset < total
  · rw [if_pos hlt]
    simp only [Inner.store_rw hrw]
    generalize f.run past offset (s.bytes.extract offset (offset + min (total - offset) chunkSize)) = r
    obtain ⟨out, _ | _⟩ := r
    · exact ⟨⟨rfl, rfl⟩, rfl⟩
    · obtain ⟨hkept, hpend⟩ := ih (total - (offset + min (total - offset) chunkSize)) (by omega)
        (past ++ [s.bytes.extract offset (offset + min (total - offset) chunkSize)])
        (offset + min (total - offset) chunkSize) { s with file := Bytes.splice s.file offset out } hrw rfl
      exact ⟨⟨hkept.map, hkept.flushPolicy⟩, hpend⟩
  · rw [if_neg hlt]
    exact ⟨⟨rfl, rfl⟩, rfl⟩

theorem countUpdate_due (hrw : s.map = .rw len) (n : Nat) :
    (countUpdate n s).1 = s.flushPolicy.due (saturatingAdd 64 s.writtenSinceLastFlush n)
      (saturatingAdd 64 s.writesSinceLastFlush 1) := by
  simp only [countUpdate, Inner.tracksWrites, hrw, not_true_eq_false, if_false]

theorem applyFlushPolicy_pending (hrw : s.map = .rw len) (n : Nat) (os : Os) :
    (applyFlushPolicy P os n s).2.writtenSinceLastFlush =
      if (countUpdate n s).1 && (flush P os s).1.isOk then 0 else (s.writtenSinceLastFlush + n) % 2 ^ 64 := by
  have hcount : (countUpdate n s).2.writtenSinceLastFlush = (s.writtenSinceLastFlush + n) % 2 ^ 64 := by
    simp only [countUpdate, Inner.tracksWrites, hrw, not_true_eq_false, if_false]
    rfl
  have hmap : (countUpdate n s).2.map = .rw len := (countUpdate_same n s).map.trans hrw
  have hflush := flush_pending (P := P) hmap (by rw [hcount]; exact Nat.mod_lt _ (by decide)) os
  rw [hcount, flush_result hrw hmap] at hflush
  unfold applyFlushPolicy
  generalize countUpdate n s = r at hcount hflush
  obtain ⟨due, s'⟩ := r
  cases due
  · exact hcount
  · simp only [Bool.true_and]
    exact hflush

/-- **The counter after an operation**: what it counted is added modulo `2 ^ 64`, unless it flushed the whole mapping. -/
structure Adds (P : Platform) (len : Nat) (op : Op E) (s : Inner) : Prop where
  pending : (op.apply P s).writtenSinceLastFlush =
    if op.flushes P s len then 0 else (s.writtenSinceLastFlush + op.counts s len) % 2 ^ 64
  kept : Kept s (op.apply P s)

/-- An operation that changed nothing of the accounting and neither counted nor flushed. -/
theorem adds_nothing {op : Op E} (hlt : s.writtenSinceLastFlush < 2 ^ 64)
    (heq : (op.apply P s).writtenSinceLastFlush = s.writtenSinceLastFlush) (hkept : Kept s (op.apply P s))
    (hflushes : op.flushes P s len = false) (hcounts : op.counts s len = 0) : Adds P len op s where
  pending := by
    rw [heq, hflushes, hcounts, Nat.add_zero, Nat.mod_eq_of_lt hlt]
    rfl
  kept := hkept

theorem updateRegion_adds (hrw : s.map = .rw len) (hmax : len ≤ P.width.maxLen) (hlt : s.writtenSinceLastFlush < 2 ^ 64)
    (offset : Nat) (data : List UInt8) (os : Os) : Adds P len (.updateRegion offset data os : Op E) s := by
  rcases updateRegion_cases P os hrw hmax offset data with ⟨rfl, heq⟩ | ⟨hne, hfit, heq⟩ | ⟨hne, hfit, heq⟩
  · refine adds_nothing hlt ?_ ?_ rfl (by rw [Op.counts, List.length_nil, ite_self])
    · rw [Op.apply, heq]
    · rw [Op.apply, heq]
      exact ⟨rfl, rfl⟩
  · have hmap : ({ s with file := Bytes.splice s.file offset data } : Inner).map = .rw len := hrw
    have hpend := applyFlushPolicy_pending (P := P) hmap data.length os
    have hdue : (countUpdate data.length { s with file := Bytes.splice s.file offset data }).1 =
        (countUpdate data.length s).1 := by
      rw [countUpdate_due hmap, countUpdate_due hrw]
    rw [flush_result (P := P) hrw hmap, hdue] at hpend
    have hflushes : (Op.updateRegion offset data os : Op E).flushes P s len =
        ((countUpdate data.length s).1 && (flush P os s).1.isOk) := by
      rw [Op.flushes, decide_eq_true ⟨hne, hfit⟩, Bool.true_and]
    refine ⟨?_, ?_⟩
    · rw [hflushes, Op.counts, if_pos hfit, Op.apply, heq]
      exact hpend
    · rw [Op.apply, heq]
      have hsame := applyFlushPolicy_same P os data.length { s with file := Bytes.splice s.file offset data }
      exact ⟨hsame.map, hsame.flushPolicy⟩
  · refine adds_nothing hlt ?_ ?_ ?_ (by rw [Op.counts, if_neg hfit])
    · rw [Op.apply, heq]
    · rw [Op.apply, heq]
      exact ⟨rfl, rfl⟩
    · rw [Op.flushes, decide_eq_false (fun h => hfit h.2), Bool.false_and, Bool.false_and]

theorem sliceMut_adds (hrw : s.map = .rw len) (hmax : len ≤ P.width.maxLen) (hlt : s.writtenSinceLastFlush < 2 ^ 64)
    (offset count : Nat) (f : SliceWrite) : Adds P len (.sliceMut offset count f : Op E) s := by
  have hstore : ∀ start data bytes, recordWrite bytes (s.store start data) =
      { s with
        file := Bytes.splice s.file start data
        writtenSinceLastFlush := wrappingAdd 64 s.writtenSinceLastFlush bytes } := by
    intro start data bytes
    rw [Inner.store_rw hrw]
    exact recordWrite_rw (s := { s with file := Bytes.splice s.file start data }) hrw bytes
  have happly : (Op.sliceMut offset count f : Op E).apply P s = (asSliceMut P offset count f s).2 := rfl
  simp only [asSliceMut, writeLock_rw hrw, Inner.mapLen_rw hrw, hstore] at happly
  by_cases h0 : count = 0
  · subst h0
    rw [if_pos rfl] at happly
    refine ⟨?_, ?_⟩ <;> rw [happly]
    · rw [Op.counts, ite_self]
      rfl
    · exact ⟨rfl, rfl⟩
  · rw [if_neg h0, sliceRange_eq hmax] at happly
    by_cases hfit : offset + count ≤ len
    · rw [if_pos hfit] at happly
      refine ⟨?_, ?_⟩ <;> rw [happly]
      · rw [Op.counts, if_pos hfit]
        simp only [Nat.add_sub_cancel_left]
        rfl
      · exact ⟨rfl, rfl⟩
    · rw [if_neg hfit] at happly
      refine adds_nothing hlt (by rw [happly]) ?_ rfl (by rw [Op.counts, if_neg hfit])
      rw [happly]
      exact ⟨rfl, rfl⟩

theorem chunksMut_adds (hrw : s.map = .rw len) (hlt : s.writtenSinceLastFlush < 2 ^ 64) (chunkSize : Nat)
    (f : ChunkFn E) : Adds P len (.chunksMut chunkSize f) s := by
  have happly : (Op.chunksMut chunkSize f).apply P s = (drive f chunkSize s).2 := rfl
  simp only [drive, writeLock_rw hrw, Inner.mapLen_rw hrw] at happly
  by_cases h0 : chunkSize = 0
  · simp only [h0, dite_true] at happly
    subst h0
    refine adds_nothing hlt (by rw [happly]) ?_ rfl rfl
    rw [happly]
    exact ⟨rfl, rfl⟩
  · simp only [h0, dite_false] at happly
    obtain ⟨hkept, hpend⟩ := driveLoop_kept f chunkSize (Nat.pos_of_ne_zero h0) len [] 0 s hrw
    rw [recordWrite_rw (hkept.map.trans hrw), hpend] at happly
    refine ⟨?_, ?_⟩ <;> rw [happly]
    · simp only [Op.counts, h0, dite_false]
      rfl
    · exact ⟨hkept.map, hkept.flushPolicy⟩

theorem flushRange_adds (hrw : s.map = .rw len) (hmax : len ≤ P.width.maxLen) (hlt : s.writtenSinceLastFlush < 2 ^ 64)
    (offset count : Nat) (os : Os) : Adds P len (.flushRange offset count os : Op E) s := by
  have hkept : Kept s ((Op.flushRange offset count os : Op E).apply P s) :=
    kept_of_same (flushRange_same P os offset count s)
  by_cases hwhole : count ≠ 0 ∧ offset = 0 ∧ count = len
  · obtain ⟨h0, rfl, rfl⟩ := hwhole
    have happly : (Op.flushRange 0 count os : Op E).apply P s = (flush P os s).2 := by
      simp only [Op.apply, flushRange, if_neg h0, hrw]
      rw [sliceRange_eq hmax, if_pos (by omega)]
      simp
    refine ⟨?_, hkept⟩
    rw [happly, flush_pending hrw hlt, Op.flushes, decide_eq_true ⟨h0, rfl, rfl⟩, Bool.true_and, Op.counts, Nat.add_zero,
      Nat.mod_eq_of_lt hlt]
  · refine adds_nothing hlt ?_ hkept (by rw [Op.flushes, decide_eq_false hwhole, Bool.false_and]) rfl
    simp only [Op.apply, flushRange]
    by_cases h0 : count = 0
    · rw [if_pos h0]
    · rw [if_neg h0]
      simp only [hrw]
      rw [sliceRange_eq hmax]
      by_cases hfit : offset + count ≤ len
      · rw [if_pos hfit]
        simp only
        rw [if_neg (by omega)]
        rcases rawFlush P os.sync len offset (offset + count - offset) with ⟨_ | _, span⟩ <;> rfl
      · rw [if_neg hfit]

/-- **Every operation adds what it counts, modulo `2 ^ 64`.** -/
theorem op_adds (hrw : s.map = .rw len) (hmax : len ≤ P.width.maxLen) (hlt : s.writtenSinceLastFlush < 2 ^ 64)
    (op : Op E) : Adds P len op s := by
  cases op with
  | updateRegion offset data os => exact updateRegion_adds hrw hmax hlt offset data os
  | sliceMut offset count f => exact sliceMut_adds hrw hmax hlt offset count f
  | chunksMut chunkSize f => exact chunksMut_adds hrw hlt chunkSize f
  | flushRange offset count os => exact flushRange_adds hrw hmax hlt offset count os
  | dropAtomic bytes =>
    refine ⟨?_, kept_of_same (recordWrite_same bytes s)⟩
    rw [Op.apply, dropAtomicView, recordWrite_rw hrw]
    rfl
  | asMutPtr =>
    have happly : (Op.asMutPtr : Op E).apply P s = recordWrite len s := by
      simp only [Op.apply, asMutPtr, writeLock_rw hrw, Inner.mapLen_rw hrw]
    refine ⟨?_, ?_⟩ <;> rw [happly]
    · rw [recordWrite_rw hrw]
      rfl
    · exact kept_of_same (recordWrite_same len s)
  | flush os =>
    refine ⟨?_, kept_of_same (flush_same P os s)⟩
    rw [Op.apply, flush_pending hrw hlt, Op.counts, Nat.add_zero, Nat.mod_eq_of_lt hlt]
    rfl

/-- **An accepted `update_region` hands the mapping to the OS exactly when the policy asks for it.** -/
theorem updateRegion_syncs (hrw : s.map = .rw len) (hpos : 0 < len) (hmax : len ≤ P.width.maxLen) {offset : Nat}
    {data : List UInt8} (hne : data ≠ []) (hfit : offset + data.length ≤ len) (os : Os) :
    (updateRegion P os offset data s).2.syncs ≠ s.syncs ↔ (countUpdate data.length s).1 = true := by
  have heq : updateRegion P os offset data s =
      applyFlushPolicy P os data.length { s with file := Bytes.splice s.file offset data } := by
    rcases updateRegion_cases P os hrw hmax offset data with ⟨h, -⟩ | ⟨-, -, h⟩ | ⟨-, h, -⟩
    · exact absurd h hne
    · exact h
    · exact absurd hfit h
  have hmap : ({ s with file := Bytes.splice s.file offset data } : Inner).map = .rw len := hrw
  have hsyncs : (countUpdate data.length { s with file := Bytes.splice s.file offset data }).2.syncs = s.syncs := by
    simp only [countUpdate, Inner.tracksWrites, hrw, not_true_eq_false, if_false]
  have hmap' := (countUpdate_same data.length { s with file := Bytes.splice s.file offset data }).map.trans hmap
  have hdue := countUpdate_due hmap data.length
  rw [heq, countUpdate_due hrw]
  unfold applyFlushPolicy
  generalize countUpdate data.length { s with file := Bytes.splice s.file offset data } = r at hsyncs hmap' hdue
  obtain ⟨due, s'⟩ := r
  simp only at hsyncs hmap' hdue
  rw [← hdue]
  cases due
  · simp [hsyncs]
  · simp only [flush, hmap', flushMapped, rawFlush]
    rw [flushSpan_eq (by omega) P.page_pow P.page_lt, if_neg (by omega), if_neg (by omega), if_neg (by omega)]
    cases os.sync <;> simp [hsyncs]

end

/-! ## Runs -/

section

variable {P : Platform} {len : Nat}

theorem runOps_concat (ops : List (Op E)) (op : Op E) (t : Tally) :
    runOps P len (ops ++ [op]) t = step P len op (runOps P len ops t) := by
  rw [runOps, List.foldl_append]
  rfl

/-- **The counter is the true count modulo `2 ^ 64`**, after every run. -/
theorem runOps_pending {s₀ : Inner} (hrw : s₀.map = .rw len) (hmax : len ≤ P.width.maxLen)
    (h0 : s₀.writtenSinceLastFlush = 0) (ops : List (Op E)) :
    (runOps P len ops ⟨s₀, 0⟩).inner.writtenSinceLastFlush = (runOps P len ops ⟨s₀, 0⟩).total % 2 ^ 64 ∧
      Kept s₀ (runOps P len ops ⟨s₀, 0⟩).inner := by
  induction ops using List.reverseRecOn with
  | nil => exact ⟨h0, ⟨rfl, rfl⟩⟩
  | append_singleton ops op ih =>
    rw [runOps_concat]
    obtain ⟨hpend, hkept⟩ := ih
    generalize runOps P len ops ⟨s₀, 0⟩ = t at hpend hkept
    have hadds := op_adds (hkept.map.trans hrw) hmax (by rw [hpend]; exact Nat.mod_lt _ (by decide)) op
    refine ⟨?_, ⟨hadds.kept.map.trans hkept.map, hadds.kept.flushPolicy.trans hkept.flushPolicy⟩⟩
    show (op.apply P t.inner).writtenSinceLastFlush = (if op.flushes P t.inner len then 0 else _) % 2 ^ 64
    rw [hadds.pending, hpend]
    split
    · rfl
    · exact Nat.mod_add_mod _ _ _

/-- **The pending counter against the true count**, after every run on an admitted mapping: the counter reads 0 with bytes
pending exactly when the true count is a positive multiple of `2 ^ 64`; under `EveryBytes(n)` an update that brings the true
count to `n` flushes exactly when the wrapped count reaches `n` too; so both are as they should be while the true count is
below `2 ^ 64`. -/
theorem pending_counter {s₀ : Inner} (hw : P.width = .w64) (hrw : s₀.map = .rw len) (hpos : 0 < len)
    (hlen : len ≤ P.width.maxMmapSize) (h0 : s₀.writtenSinceLastFlush = 0) (ops : List (Op E)) (t : Tally)
    (ht : runOps P len ops ⟨s₀, 0⟩ = t) :
    ((t.inner.pendingBytes = 0 → t.total = 0) ↔ (t.total = 0 ∨ ¬ 2 ^ 64 ∣ t.total)) ∧
    (∀ n offset data os, s₀.flushPolicy = .everyBytes n → 0 < n → n < 2 ^ 64 → data ≠ [] → offset + data.length ≤ len →
      n ≤ t.total + data.length →
      ((updateRegion P os offset data t.inner).2.syncs ≠ t.inner.syncs ↔ n ≤ t.total % 2 ^ 64 + data.length)) ∧
    (t.total < 2 ^ 64 → (t.inner.pendingBytes = 0 → t.total = 0) ∧
      ∀ n offset data os, s₀.flushPolicy = .everyBytes n → 0 < n → n < 2 ^ 64 → data ≠ [] → offset + data.length ≤ len →
        n ≤ t.total + data.length → (updateRegion P os offset data t.inner).2.syncs ≠ t.inner.syncs) := by
  have hmax : len ≤ P.width.maxLen := by
    rw [hw] at hlen ⊢
    exact Nat.le_trans hlen (by decide)
  have hrun := runOps_pending (E := E) hrw hmax h0 ops
  rw [ht] at hrun
  obtain ⟨hpend, hkept⟩ := hrun
  have hflush : ∀ n offset data os, s₀.flushPolicy = .everyBytes n → 0 < n → n < 2 ^ 64 → data ≠ [] →
      offset + data.length ≤ len → n ≤ t.total + data.length →
      ((updateRegion P os offset data t.inner).2.syncs ≠ t.inner.syncs ↔ n ≤ t.total % 2 ^ 64 + data.length) := by
    intro n offset data os hpolicy hn hn64 hne hfit _
    rw [updateRegion_syncs (hkept.map.trans hrw) hpos hmax hne hfit, countUpdate_due (hkept.map.trans hrw),
      hkept.flushPolicy, hpolicy, hpend]
    rw [FlushPolicy.due, decide_eq_true_eq, saturatingAdd]
    omega
  refine ⟨?_, hflush, ?_⟩
  · rw [Inner.pendingBytes, hpend, ← Nat.dvd_iff_mod_eq_zero]
    tauto
  · intro hlt
    rw [Inner.pendingBytes, hpend, Nat.mod_eq_of_lt hlt]
    refine ⟨id, ?_⟩
    intro n offset data os hpolicy hn hn64 hne hfit hle
    rw [hflush n offset data os hpolicy hn hn64 hne hfit hle, Nat.mod_eq_of_lt hlt]
    exact hle

end

/-- A shared mapping of 4 bytes under `EveryBytes(2)`. -/
def fourBytes : Inner := ⟨[0, 0, 0, 0], .rw 4, 4, .readWrite, .everyBytes 2, 0, 0, false, [], []⟩

theorem pending_counter_fourBytes : ∃ t, runOps linux64 4 ([.updateRegion 0 [1] Os.ok] : List (Op Unit)) ⟨fourBytes, 0⟩ = t ∧
    t.total = 1 ∧ (updateRegion linux64 Os.ok 1 [1] t.inner).2.syncs ≠ t.inner.syncs := by
  refine ⟨_, rfl, by decide, ?_⟩
  exact ((pending_counter rfl rfl (by decide) (by decide) rfl _ _ rfl).2.2 (by decide)).2 2 1 [1] Os.ok rfl (by decide)
    (by decide) (by decide) (by decide) (by decide)

/-- A shared mapping of 128 TiB, the largest admitted. -/
def largest (file : List UInt8) : Inner :=
  ⟨file, .rw (2 ^ 47), 2 ^ 47, .readWrite, .everyBytes 2, 0, 0, false, [], []⟩

theorem total_asMutPtr (s : Inner) (len k : Nat) :
    (runOps linux64 len (List.replicate k (.asMutPtr : Op Unit)) ⟨s, 0⟩).total = k * len := by
  induction k with
  | zero => exact (Nat.zero_mul len).symm
  | succ k ih =>
    rw [List.replicate_succ', runOps_concat]
    show _ + len = _
    rw [ih, Nat.succ_mul]

/-- **`2 ^ 17` pointers to a mapping of 128 TiB bring the counter back to 0.** -/
theorem pending_counter_wraps : ¬ ∀ ops : List (Op Unit),
    (runOps linux64 (2 ^ 47) ops ⟨largest (List.replicate (2 ^ 47) 0), 0⟩).inner.pendingBytes = 0 →
      (runOps linux64 (2 ^ 47) ops ⟨largest (List.replicate (2 ^ 47) 0), 0⟩).total = 0 := by
  intro h
  have hwrap := h (List.replicate (2 ^ 17) .asMutPtr)
  rw [Inner.pendingBytes, (runOps_pending rfl (by decide) rfl _).1, total_asMutPtr] at hwrap
  exact absurd (hwrap (by decide)) (by decide)

end PendingWrap
end MmapIo
