import MmapIo.Mmap
/-!
# CopyOut — copying reads and page touches around live atomic views

`ViewRegistry::copy_out` and `ViewRegistry::touch` (`views.rs`) with every access they make.  A copy keeps its buffer, the
reads of the mapping so far and the ranges of the buffer written so far; an index outside the buffer, outside the 8-byte
element of an `atomic_load` or outside the mapping, and a subtraction below zero, give `none`.  The sort by start is
`sort_unstable_by_key`, so the spans are any permutation of the overlapping entries that is sorted by start.
-/
namespace MmapIo
namespace CopyOut

open Bytes

/-- One read of the mapping: a range of bytes read plainly, or one atomic load. -/
inductive Access where
  | plain (off len : Nat)
  | atomic (elem size : Nat)
  deriving DecidableEq, Repr

structure Copy where
  dst : List UInt8
  reads : List Access
  writes : List Span
  deriving DecidableEq, Repr

/-- `dst[lo..hi].copy_from_slice(data)`. -/
def Copy.write (c : Copy) (lo hi : Nat) (data : List UInt8) : Option Copy :=
  if lo ≤ hi ∧ hi ≤ c.dst.length ∧ data.length = hi - lo then
    some { c with dst := splice c.dst lo data, writes := c.writes ++ [⟨lo, hi⟩] }
  else none

def Copy.read (c : Copy) (a : Access) : Copy := { c with reads := c.reads ++ [a] }

/-- `a - b` on `usize`. -/
def sub? (a b : Nat) : Option Nat := if b ≤ a then some (a - b) else none

/-- `bytes[lo..hi]`. -/
def slice? (bytes : List UInt8) (lo hi : Nat) : Option (List UInt8) :=
  if lo ≤ hi ∧ hi ≤ bytes.length then some (bytes.extract lo hi) else none

def plainCopy (mem : List UInt8) (start stop dstStart : Nat) (c : Copy) : Option Copy := do
  let lo ← sub? start dstStart
  let hi ← sub? stop dstStart
  let data ← slice? mem start stop
  (c.read (.plain start (stop - start))).write lo hi data

/-- The bytes the load of an element of this size reads: an `AtomicU32` for 4, else an `AtomicU64`. -/
def loadWidth (size : Nat) : Nat := if size = 4 then 4 else 8

/-- `atomic_load`: the element in memory byte order, at the front of an 8-byte buffer. -/
def atomicLoad (mem : List UInt8) (elem size : Nat) : Option (List UInt8) :=
  (slice? mem elem (elem + loadWidth size)).map (fun bytes => bytes ++ List.replicate (8 - loadWidth size) 0)

/-- The body of the loop of `atomic_copy`. -/
def copyElem (mem : List UInt8) (start stop size dstStart elem : Nat) (c : Copy) : Option Copy := do
  let bytes ← atomicLoad mem elem size
  let lo := max elem start
  let hi := min (elem + size) stop
  let dlo ← sub? lo dstStart
  let dhi ← sub? hi dstStart
  let blo ← sub? lo elem
  let bhi ← sub? hi elem
  let data ← slice? bytes blo bhi
  (c.read (.atomic elem (loadWidth size))).write dlo dhi data

/-- `while elem < to { ..; elem += size }`; a loop that outlives its fuel gives `none`. -/
def copyElems (mem : List UInt8) (start stop size dstStart : Nat) : Nat → Nat → Copy → Option Copy
  | 0, elem, c => if elem < stop then none else some c
  | fuel + 1, elem, c =>
    if elem < stop then
      (copyElem mem start stop size dstStart elem c).bind (copyElems mem start stop size dstStart fuel (elem + size))
    else some c

def atomicCopy (mem : List UInt8) (start stop size dstStart : Nat) (c : Copy) : Option Copy :=
  if size = 0 then none else
  let elem := start - start % size
  copyElems mem start stop size dstStart (stop - elem) elem c

/-- `if span.start > pos`: the plain bytes before the span. -/
def copyGap (mem : List UInt8) (start stop : Nat) (span : AtomicEntry) (pos : Nat) (c : Copy) : Option (Nat × Copy) :=
  if span.range.start > pos then
    let plainTo := min span.range.start stop
    (plainCopy mem pos plainTo start c).map (fun c => (plainTo, c))
  else some (pos, c)

/-- `if pos < atomic_to`: the bytes of the span. -/
def copyWithin (mem : List UInt8) (start stop : Nat) (span : AtomicEntry) (pos : Nat) (c : Copy) : Option (Nat × Copy) :=
  let atomicTo := min span.range.stop stop
  if pos < atomicTo then (atomicCopy mem pos atomicTo span.size start c).map (fun c => (atomicTo, c))
  else some (pos, c)

/-- One turn of `for span in &spans`: the new position and copy. -/
def copySpan (mem : List UInt8) (start stop : Nat) (span : AtomicEntry) (pos : Nat) (c : Copy) : Option (Nat × Copy) :=
  (copyGap mem start stop span pos c).bind (fun (pos, c) => copyWithin mem start stop span pos c)

def copySpans (mem : List UInt8) (start stop : Nat) : List AtomicEntry → Nat → Copy → Option (Nat × Copy)
  | [], pos, c => some (pos, c)
  | span :: spans, pos, c =>
    (copySpan mem start stop span pos c).bind (fun (pos, c) => copySpans mem start stop spans pos c)

/-- `ViewRegistry::copy_out` once the overlapping entries are collected and sorted. -/
def copyOut (mem : List UInt8) (spans : List AtomicEntry) (start : Nat) (dst : List UInt8) : Option Copy :=
  let stop := start + dst.length
  (copySpans mem start stop spans start ⟨dst, [], []⟩).bind (fun (pos, c) =>
    if pos < stop then plainCopy mem pos stop start c else some c)

/-- What `copy_out` may iterate over: the entries that overlap `[start, stop)`, in any order that is sorted by start. -/
structure Spans (entries : List AtomicEntry) (start stop : Nat) (spans : List AtomicEntry) : Prop where
  perm : spans.Perm (entries.filter (fun a => overlaps a.range.start a.range.stop start stop))
  sorted : spans.Pairwise (fun a b => a.range.start ≤ b.range.start)

/-- The read of `touch` at one offset. -/
def touchRead (entries : List AtomicEntry) (off : Nat) : Access :=
  match entries.find? (fun a => decide (a.range.start ≤ off ∧ off < a.range.stop)) with
  | some a => .atomic (off - off % a.size) (loadWidth a.size)
  | none => .plain off 1

theorem page_pos {len page : Nat} (h : ¬ (len = 0 ∨ page = 0)) : 0 < page := Nat.pos_of_ne_zero (fun hp => h (.inr hp))

/-- `ViewRegistry::touch`: the reads it makes. -/
def touch (entries : List AtomicEntry) (start len page : Nat) : List Access :=
  if h : len = 0 ∨ page = 0 then [] else (touchOffsets page (page_pos h) (start + len) start).map (touchRead entries)

/-! ## The access rule -/

def Covers (e : AtomicEntry) (x : Nat) : Prop := e.range.start ≤ x ∧ x < e.range.stop

/-- What the registry can hold for a mapping of `n` bytes: elements of 4 or 8 bytes at aligned offsets inside the mapping;
entries of different sizes share no byte. -/
structure EntriesOk (n : Nat) (entries : List AtomicEntry) : Prop where
  size : ∀ e ∈ entries, e.size = 4 ∨ e.size = 8
  start : ∀ e ∈ entries, e.size ∣ e.range.start
  stop : ∀ e ∈ entries, e.size ∣ e.range.stop
  inside : ∀ e ∈ entries, e.range.stop ≤ n
  apart : ∀ e ∈ entries, ∀ e' ∈ entries, ∀ x, Covers e x → Covers e' x → e.size = e'.size

/-- The rule for one read: inside the mapping; a plain read touches no byte of a live entry; an atomic load is of an aligned
element that lies in a live entry of its size, and every live entry that shares a byte with it has its size. -/
def Access.Lawful (n : Nat) (entries : List AtomicEntry) : Access → Prop
  | .plain off len => off + len ≤ n ∧ ∀ x, off ≤ x → x < off + len → ∀ e ∈ entries, ¬ Covers e x
  | .atomic elem size => elem + size ≤ n ∧ size ∣ elem ∧
      (∃ e ∈ entries, e.size = size ∧ e.range.start ≤ elem ∧ elem + size ≤ e.range.stop) ∧
      ∀ x, elem ≤ x → x < elem + size → ∀ e ∈ entries, Covers e x → e.size = size

theorem EntriesOk.loadWidth {n : Nat} {entries : List AtomicEntry} (h : EntriesOk n entries) {e : AtomicEntry}
    (he : e ∈ entries) : loadWidth e.size = e.size := by
  rcases h.size e he with h4 | h8
  · rw [h4]
    rfl
  · rw [h8]
    rfl

theorem EntriesOk.size_pos {n : Nat} {entries : List AtomicEntry} (h : EntriesOk n entries) {e : AtomicEntry}
    (he : e ∈ entries) : 0 < e.size := by
  rcases h.size e he with h4 | h8 <;> omega

/-- An aligned element with a byte in an aligned range lies in it whole. -/
theorem elem_inside {size elem lo hi : Nat} (helem : size ∣ elem) (hlo : size ∣ lo) (hhi : size ∣ hi) {x : Nat}
    (hex : elem ≤ x) (hxe : x < elem + size) (hlx : lo ≤ x) (hxh : x < hi) : lo ≤ elem ∧ elem + size ≤ hi := by
  obtain ⟨k, rfl⟩ := helem
  obtain ⟨a, rfl⟩ := hlo
  obtain ⟨b, rfl⟩ := hhi
  have hak : a < k + 1 := Nat.lt_of_mul_lt_mul_left (a := size) (by rw [Nat.mul_succ]; omega)
  have hkb : k < b := Nat.lt_of_mul_lt_mul_left (a := size) (by omega)
  have hle := Nat.mul_le_mul_left size (Nat.le_of_lt_succ hak)
  have hge := Nat.mul_le_mul_left size hkb
  rw [Nat.mul_succ] at hge
  exact ⟨hle, hge⟩

/-- **The load of an aligned element with a byte in a live entry obeys the rule.** -/
theorem lawful_elem {n : Nat} {entries : List AtomicEntry} (h : EntriesOk n entries) {e : AtomicEntry} (he : e ∈ entries)
    {elem x : Nat} (helem : e.size ∣ elem) (hex : elem ≤ x) (hxe : x < elem + e.size) (hx : Covers e x) :
    (Access.atomic elem (loadWidth e.size)).Lawful n entries := by
  obtain ⟨hlo, hhi⟩ := elem_inside helem (h.start e he) (h.stop e he) hex hxe hx.1 hx.2
  rw [h.loadWidth he]
  refine ⟨Nat.le_trans hhi (h.inside e he), helem, ⟨e, he, rfl, hlo, hhi⟩, ?_⟩
  intro y hy hy' e' he' hcov
  exact h.apart e' he' e he y hcov ⟨by omega, by omega⟩

/-! ## The copy -/

/-- The copy has reached `pos`: the buffer holds the mapping's bytes before `pos`, each of them written once and nothing
else, and every read so far obeyed the rule. -/
structure Filled (mem : List UInt8) (entries : List AtomicEntry) (start len pos : Nat) (c : Copy) : Prop where
  lo : start ≤ pos
  length : c.dst.length = len
  bytes : ∀ i, start + i < pos → c.dst[i]? = mem[start + i]?
  once : ∀ i, c.writes.countP (fun w => decide (w.start ≤ i ∧ i < w.stop)) = if start + i < pos then 1 else 0
  inside : ∀ w ∈ c.writes, w.stop ≤ len
  reads : ∀ a ∈ c.reads, a.Lawful mem.length entries

section Filled

variable {mem : List UInt8} {entries : List AtomicEntry} {start len pos : Nat} {c : Copy}

theorem filled_init {dst : List UInt8} (mem : List UInt8) (entries : List AtomicEntry) (start : Nat) :
    Filled mem entries start dst.length start ⟨dst, [], []⟩ where
  lo := Nat.le_refl _
  length := rfl
  bytes i hi := by omega
  once i := by
    rw [if_neg (by omega)]
    rfl
  inside w hw := by cases hw
  reads a ha := by cases ha

/-- **One lawful read and its write advance the copy.** -/
theorem Filled.advance (h : Filled mem entries start len pos c) (stop : Nat) (hstop : pos ≤ stop)
    (hlen : stop ≤ start + len) (hfit : start + len ≤ mem.length) {a : Access} (ha : a.Lawful mem.length entries) :
    ∃ c', (c.read a).write (pos - start) (stop - start) (mem.extract pos stop) = some c' ∧
      Filled mem entries start len stop c' := by
  have hlo := h.lo
  have hdata : (mem.extract pos stop).length = stop - pos := by
    rw [List.extract_eq_take_drop, List.length_take, List.length_drop]
    omega
  have hroom : pos - start + (mem.extract pos stop).length ≤ c.dst.length := by
    rw [hdata, h.length]
    omega
  unfold Copy.write
  rw [if_pos ⟨by omega, by rw [Copy.read, h.length]; omega, by rw [hdata]; omega⟩]
  refine ⟨_, rfl, Nat.le_trans hlo hstop, ?_, ?_, ?_, ?_, ?_⟩
  · show (splice c.dst _ _).length = len
    rw [length_splice hroom, h.length]
  · intro i hi
    show (splice c.dst _ _)[i]? = _
    rw [getElem?_splice hroom, hdata]
    by_cases hold : start + i < pos
    · rw [if_neg (by omega)]
      exact h.bytes i hold
    · rw [if_pos (by omega), List.extract_eq_take_drop, List.getElem?_take_of_lt (by omega), List.getElem?_drop]
      congr 1
      omega
  · intro i
    show (c.writes ++ _).countP _ = _
    rw [List.countP_append, h.once i, List.countP_singleton]
    by_cases hold : start + i < pos
    · rw [if_pos hold, if_neg (by simp only [decide_eq_true_eq]; omega), if_pos (by omega)]
    · by_cases hnew : start + i < stop
      · rw [if_neg hold, if_pos (by simp only [decide_eq_true_eq]; omega), if_pos hnew]
      · rw [if_neg hold, if_neg (by simp only [decide_eq_true_eq]; omega), if_neg hnew]
  · intro w hw
    rcases List.mem_append.1 hw with hw | hw
    · exact h.inside w hw
    · rw [List.mem_singleton.1 hw]
      show stop - start ≤ len
      omega
  · intro b hb
    rcases List.mem_append.1 hb with hb | hb
    · exact h.reads b hb
    · rw [List.mem_singleton.1 hb]
      exact ha

theorem sub?_of_le {a b : Nat} (h : b ≤ a) : sub? a b = some (a - b) := if_pos h

theorem slice?_of_le {bytes : List UInt8} {lo hi : Nat} (h : lo ≤ hi) (h' : hi ≤ bytes.length) :
    slice? bytes lo hi = some (bytes.extract lo hi) := if_pos ⟨h, h'⟩

/-- **A plain copy of bytes under no live entry.** -/
theorem plainCopy_filled (h : Filled mem entries start len pos c) {stop : Nat} (hstop : pos ≤ stop)
    (hlen : stop ≤ start + len) (hfit : start + len ≤ mem.length)
    (hfree : ∀ x, pos ≤ x → x < stop → ∀ e ∈ entries, ¬ Covers e x) :
    ∃ c', plainCopy mem pos stop start c = some c' ∧ Filled mem entries start len stop c' := by
  have hlo := h.lo
  have hlaw : (Access.plain pos (stop - pos)).Lawful mem.length entries := by
    refine ⟨by omega, ?_⟩
    intro x hx hx'
    exact hfree x hx (by omega)
  obtain ⟨c', hw, hc'⟩ := h.advance stop hstop hlen hfit hlaw
  refine ⟨c', ?_, hc'⟩
  unfold plainCopy
  rw [sub?_of_le hlo, sub?_of_le (Nat.le_trans hlo hstop), slice?_of_le hstop (Nat.le_trans hlen hfit)]
  exact hw

/-- What a load returns, cut to a part of its element, is that part of the mapping. -/
theorem slice?_atomicLoad {size elem : Nat} (hw : loadWidth size = size) (hmem : elem + size ≤ mem.length) (lo hi : Nat)
    (hlo : elem ≤ lo) (hle : lo ≤ hi) (hhi : hi ≤ elem + size) :
    ∃ bytes, atomicLoad mem elem size = some bytes ∧
      slice? bytes (lo - elem) (hi - elem) = some (mem.extract lo hi) := by
  unfold atomicLoad
  rw [hw, slice?_of_le (by omega) hmem]
  have hlen : (mem.extract elem (elem + size)).length = size := by
    rw [List.extract_eq_take_drop, List.length_take, List.length_drop]
    omega
  refine ⟨_, rfl, ?_⟩
  rw [slice?_of_le (by omega) (by rw [List.length_append, hlen]; omega)]
  congr 1
  rw [List.extract_eq_take_drop, List.drop_append_of_le_length (by omega), List.take_append_of_le_length
    (by rw [List.length_drop]; omega), List.extract_eq_take_drop, List.extract_eq_take_drop, List.drop_take,
    List.drop_drop, List.take_take, Nat.min_eq_left (by omega)]
  congr 1
  · omega
  · congr 1
    omega

/-- **One element of an atomic copy**: the part of it in `[pos, stop)` is filled. -/
theorem copyElem_filled (hok : EntriesOk mem.length entries) {e : AtomicEntry} (he : e ∈ entries) {elem stop : Nat}
    (h : Filled mem entries start len (max elem pos) c) (helem : e.size ∣ elem) (hpos : pos < elem + e.size)
    (hin : e.range.start ≤ pos) (hout : stop ≤ e.range.stop) (helt : elem < stop) (hps : pos < stop)
    (hlen : stop ≤ start + len) (hfit : start + len ≤ mem.length) :
    ∃ c', copyElem mem pos stop e.size start elem c = some c' ∧
      Filled mem entries start len (min (elem + e.size) stop) c' := by
  have hlo := h.lo
  have hsize := hok.size_pos he
  have hlaw : (Access.atomic elem (loadWidth e.size)).Lawful mem.length entries :=
    lawful_elem hok he helem (x := max elem pos) (by omega) (by omega) ⟨by omega, by omega⟩
  have hmem : elem + e.size ≤ mem.length := by
    have := hlaw.1
    rw [hok.loadWidth he] at this
    exact this
  obtain ⟨c', hw, hc'⟩ := h.advance (min (elem + e.size) stop) (by omega) (by omega) hfit hlaw
  obtain ⟨bytes, hload, hslice⟩ := slice?_atomicLoad (hok.loadWidth he) hmem (max elem pos) (min (elem + e.size) stop)
    (by omega) (by omega) (by omega)
  refine ⟨c', ?_, hc'⟩
  unfold copyElem
  rw [hload]
  simp only [Option.bind_eq_bind, Option.bind_some]
  rw [sub?_of_le hlo, sub?_of_le (by omega), sub?_of_le (by omega), sub?_of_le (by omega)]
  simp only [Option.bind_some]
  rw [hslice]
  exact hw

/-- **The loop of an atomic copy** fills up to `stop`. -/
theorem copyElems_filled (hok : EntriesOk mem.length entries) {e : AtomicEntry} (he : e ∈ entries) {stop : Nat}
    (hin : e.range.start ≤ pos) (hout : stop ≤ e.range.stop) (hps : pos < stop) (hlen : stop ≤ start + len)
    (hfit : start + len ≤ mem.length) : ∀ (fuel elem : Nat) (c : Copy), stop - elem ≤ fuel → e.size ∣ elem →
      pos < elem + e.size → Filled mem entries start len (min (max elem pos) stop) c →
      ∃ c', copyElems mem pos stop e.size start fuel elem c = some c' ∧ Filled mem entries start len stop c' := by
  intro fuel
  induction fuel with
  | zero =>
    intro elem c hfuel helem hpos h
    rw [copyElems, if_neg (by omega)]
    rw [Nat.min_eq_right (by omega)] at h
    exact ⟨c, rfl, h⟩
  | succ fuel ih =>
    intro elem c hfuel helem hpos h
    have hsize := hok.size_pos he
    rw [copyElems]
    by_cases helt : elem < stop
    · rw [if_pos helt]
      rw [Nat.min_eq_left (by omega)] at h
      obtain ⟨c₁, hc₁, h₁⟩ := copyElem_filled hok he h helem hpos hin hout helt hps hlen hfit
      rw [hc₁]
      apply ih (elem + e.size) c₁ (by omega) (Nat.dvd_add helem (Nat.dvd_refl _)) (by omega)
      rw [Nat.max_eq_left (by omega)]
      exact h₁
    · rw [if_neg helt]
      rw [Nat.min_eq_right (by omega)] at h
      exact ⟨c, rfl, h⟩

/-- **An atomic copy inside one live entry.** -/
theorem atomicCopy_filled (hok : EntriesOk mem.length entries) {e : AtomicEntry} (he : e ∈ entries)
    (h : Filled mem entries start len pos c) {stop : Nat} (hin : e.range.start ≤ pos) (hout : stop ≤ e.range.stop)
    (hps : pos < stop) (hlen : stop ≤ start + len) (hfit : start + len ≤ mem.length) :
    ∃ c', atomicCopy mem pos stop e.size start c = some c' ∧ Filled mem entries start len stop c' := by
  have hsize := hok.size_pos he
  have hmod := Nat.mod_lt pos hsize
  have hmodle := Nat.mod_le pos e.size
  unfold atomicCopy
  rw [if_neg (by omega)]
  apply copyElems_filled hok he hin hout hps hlen hfit _ _ c (Nat.le_refl _) (Nat.dvd_sub_mod pos) (by omega)
  rw [Nat.max_eq_right (by omega), Nat.min_eq_left (by omega)]
  exact h

/-- **One turn of the merge**: a span that is next in the order is passed, whole or up to `stop`. -/
theorem copySpan_filled (hok : EntriesOk mem.length entries) {span : AtomicEntry} (he : span ∈ entries)
    (h : Filled mem entries start len pos c) (hpos : pos ≤ start + len) (hov : span.range.start < start + len)
    (hfit : start + len ≤ mem.length)
    (hnext : ∀ x, pos ≤ x → x < span.range.start → ∀ e ∈ entries, ¬ Covers e x) :
    ∃ pos' c', copySpan mem start (start + len) span pos c = some (pos', c') ∧ pos ≤ pos' ∧ pos' ≤ start + len ∧
      min span.range.stop (start + len) ≤ pos' ∧ Filled mem entries start len pos' c' := by
  have hgap : ∃ c₁, copyGap mem start (start + len) span pos c = some (max pos span.range.start, c₁) ∧
      Filled mem entries start len (max pos span.range.start) c₁ := by
    unfold copyGap
    simp only
    by_cases hgt : span.range.start > pos
    · rw [if_pos hgt, Nat.min_eq_left (by omega), Nat.max_eq_right (by omega)]
      obtain ⟨c₁, hc₁, h₁⟩ := plainCopy_filled h (Nat.le_of_lt hgt) (Nat.le_of_lt hov) hfit hnext
      rw [hc₁]
      exact ⟨c₁, rfl, h₁⟩
    · rw [if_neg hgt, Nat.max_eq_left (by omega)]
      exact ⟨c, rfl, h⟩
  obtain ⟨c₁, hc₁, h₁⟩ := hgap
  rw [copySpan, hc₁, Option.bind_some]
  simp only [copyWithin]
  by_cases hlt : max pos span.range.start < min span.range.stop (start + len)
  · rw [if_pos hlt]
    obtain ⟨c₂, hc₂, h₂⟩ := atomicCopy_filled hok he h₁ (by omega) (Nat.min_le_left _ _) hlt (by omega) hfit
    rw [hc₂]
    exact ⟨_, c₂, rfl, by omega, by omega, Nat.le_refl _, h₂⟩
  · rw [if_neg hlt]
    exact ⟨_, c₁, rfl, by omega, by omega, by omega, h₁⟩

/-- **The merge over the sorted spans.** Every entry with a byte in `[pos, start + len)` is still in the list, so that the
bytes before the next span are under no live entry. -/
theorem copySpans_filled (hok : EntriesOk mem.length entries) (hfit : start + len ≤ mem.length) :
    ∀ (spans : List AtomicEntry) (pos : Nat) (c : Copy), (∀ e ∈ spans, e ∈ entries ∧ e.range.start < start + len) →
      spans.Pairwise (fun a b => a.range.start ≤ b.range.start) → pos ≤ start + len →
      (∀ x, pos ≤ x → x < start + len → ∀ e ∈ entries, Covers e x → e ∈ spans) →
      Filled mem entries start len pos c →
      ∃ pos' c', copySpans mem start (start + len) spans pos c = some (pos', c') ∧ pos' ≤ start + len ∧
        (∀ x, pos' ≤ x → x < start + len → ∀ e ∈ entries, ¬ Covers e x) ∧ Filled mem entries start len pos' c' := by
  intro spans
  induction spans with
  | nil =>
    intro pos c _ _ hpos hleft h
    exact ⟨pos, c, rfl, hpos, fun x hx hx' e he hcov => List.not_mem_nil (hleft x hx hx' e he hcov), h⟩
  | cons span spans ih =>
    intro pos c hmem hsorted hpos hleft h
    obtain ⟨hspan, hov⟩ := hmem span List.mem_cons_self
    rw [List.pairwise_cons] at hsorted
    have hnext : ∀ x, pos ≤ x → x < span.range.start → ∀ e ∈ entries, ¬ Covers e x := by
      intro x hx hx' e he hcov
      rcases List.mem_cons.1 (hleft x hx (by omega) e he hcov) with rfl | hin
      · exact absurd hcov.1 (by omega)
      · have := hsorted.1 e hin
        exact absurd hcov.1 (by omega)
    obtain ⟨pos₁, c₁, hc₁, hle₁, hpos₁, hpast, h₁⟩ := copySpan_filled hok hspan h hpos hov hfit hnext
    rw [copySpans, hc₁]
    apply ih pos₁ c₁ (fun e he => hmem e (List.mem_cons_of_mem _ he)) hsorted.2 hpos₁ ?_ h₁
    intro x hx hx' e he hcov
    rcases List.mem_cons.1 (hleft x (by omega) hx' e he hcov) with rfl | hin
    · exact absurd hcov.2 (by omega)
    · exact hin

theorem Filled.dst_eq (h : Filled mem entries start len (start + len) c) : c.dst = mem.extract start (start + len) := by
  apply List.ext_getElem?
  intro i
  rw [List.extract_eq_take_drop, List.getElem?_take, List.getElem?_drop]
  by_cases hi : i < len
  · rw [if_pos (by omega)]
    exact h.bytes i (by omega)
  · rw [if_neg (by omega)]
    exact List.getElem?_eq_none (by rw [h.length]; omega)

end Filled

/-- **`copy_out`**: with every access in bounds and lawful, the buffer ends as the mapping's bytes, each written once. -/
theorem copyOut_filled {mem : List UInt8} {entries : List AtomicEntry} (hok : EntriesOk mem.length entries) {start : Nat}
    {dst : List UInt8} (hfit : start + dst.length ≤ mem.length) {spans : List AtomicEntry}
    (hspans : Spans entries start (start + dst.length) spans) :
    ∃ c, copyOut mem spans start dst = some c ∧ Filled mem entries start dst.length (start + dst.length) c := by
  have hmem : ∀ e, e ∈ spans ↔ e ∈ entries ∧ e.range.start < start + dst.length ∧ start < e.range.stop := by
    intro e
    rw [hspans.perm.mem_iff, List.mem_filter]
    simp only [overlaps, Bool.and_eq_true, decide_eq_true_eq]
  obtain ⟨pos, c, hc, hpos, hfree, h⟩ := copySpans_filled hok hfit spans start ⟨dst, [], []⟩
    (fun e he => ⟨((hmem e).1 he).1, ((hmem e).1 he).2.1⟩) hspans.sorted (Nat.le_add_right _ _)
    (fun x hx hx' e he hcov => (hmem e).2 ⟨he, Nat.lt_of_le_of_lt hcov.1 hx', Nat.lt_of_le_of_lt hx hcov.2⟩)
    (filled_init mem entries start)
  unfold copyOut
  simp only
  rw [hc]
  simp only [Option.bind_some]
  by_cases hlt : pos < start + dst.length
  · rw [if_pos hlt]
    exact plainCopy_filled h (Nat.le_of_lt hlt) (Nat.le_refl _) hfit hfree
  · rw [if_neg hlt]
    have heq : pos = start + dst.length := by omega
    rw [heq] at h
    exact ⟨c, rfl, h⟩

/-! ## The page touch -/

theorem mem_touchOffsets {page : Nat} {hpage : 0 < page} {stop off x : Nat} (h : x ∈ touchOffsets page hpage stop off) :
    off ≤ x ∧ x < stop := by
  fun_induction touchOffsets page hpage stop off with
  | case1 off hlt ih =>
    rcases List.mem_cons.1 h with rfl | h
    · exact ⟨Nat.le_refl _, hlt⟩
    · have := ih h
      omega
  | case2 off hge => cases h

/-- **The read of a page touch obeys the rule at every offset of the mapping.** -/
theorem touchRead_lawful {n : Nat} {entries : List AtomicEntry} (hok : EntriesOk n entries) {off : Nat} (hoff : off < n) :
    (touchRead entries off).Lawful n entries := by
  unfold touchRead
  cases hf : entries.find? (fun a => decide (a.range.start ≤ off ∧ off < a.range.stop)) with
  | none =>
    refine ⟨hoff, ?_⟩
    intro x hx hx' e he hcov
    have hno := List.find?_eq_none.1 hf e he
    rw [decide_eq_true_eq] at hno
    exact hno ⟨by have := hcov.1; omega, by have := hcov.2; omega⟩
  | some e =>
    have he := List.mem_of_find?_eq_some hf
    have hcov := List.find?_some hf
    rw [decide_eq_true_eq] at hcov
    have hmod := Nat.mod_lt off (hok.size_pos he)
    have hmodle := Nat.mod_le off e.size
    exact lawful_elem hok he (Nat.dvd_sub_mod off) (x := off) (by omega) (by omega) hcov

theorem touch_lawful {n : Nat} {entries : List AtomicEntry} (hok : EntriesOk n entries) {start len : Nat}
    (hfit : start + len ≤ n) (page : Nat) : ∀ a ∈ touch entries start len page, a.Lawful n entries := by
  intro a ha
  unfold touch at ha
  split at ha
  · cases ha
  · obtain ⟨off, hoff, rfl⟩ := List.mem_map.1 ha
    have := mem_touchOffsets hoff
    exact touchRead_lawful hok (by omega)

/-- **Copying reads around atomic views**: for every set of live entries and every order the sort may give the overlapping
ones, a copy inside the mapping returns, fills the buffer with the mapping's bytes, writes each of its bytes once and reads
by the rule; so does every read of a page touch. -/
theorem copying_reads_lawful {mem : List UInt8} {entries : List AtomicEntry} (hok : EntriesOk mem.length entries) :
    (∀ (start : Nat) (dst : List UInt8) (spans : List AtomicEntry), start + dst.length ≤ mem.length →
      Spans entries start (start + dst.length) spans →
      ∃ c, copyOut mem spans start dst = some c ∧ c.dst = mem.extract start (start + dst.length) ∧
        (∀ i, c.writes.countP (fun w => decide (w.start ≤ i ∧ i < w.stop)) = if i < dst.length then 1 else 0) ∧
        ∀ a ∈ c.reads, a.Lawful mem.length entries) ∧
    ∀ start len page, start + len ≤ mem.length → ∀ a ∈ touch entries start len page, a.Lawful mem.length entries := by
  refine ⟨?_, fun start len page hfit => touch_lawful hok hfit page⟩
  intro start dst spans hfit hspans
  obtain ⟨c, hc, h⟩ := copyOut_filled hok hfit hspans
  refine ⟨c, hc, h.dst_eq, ?_, h.reads⟩
  intro i
  rw [h.once i]
  by_cases hi : i < dst.length
  · rw [if_pos hi, if_pos (by omega)]
  · rw [if_neg hi, if_neg (by omega)]

/-- Two nested views of 4-byte elements and one of 8-byte elements; the window starts and ends inside an element. -/
def nested : List AtomicEntry := [⟨⟨16, 24⟩, 8, 0⟩, ⟨⟨4, 12⟩, 4, 1⟩, ⟨⟨4, 8⟩, 4, 2⟩]

theorem nested_ok : EntriesOk 24 nested where
  size := by decide
  start := by decide
  stop := by decide
  inside := by decide
  apart e he e' he' x hx hx' := by
    simp only [nested, List.mem_cons, List.not_mem_nil, or_false] at he he'
    obtain ⟨h1, h2⟩ := hx
    obtain ⟨h3, h4⟩ := hx'
    rcases he with rfl | rfl | rfl <;> rcases he' with rfl | rfl | rfl <;> simp only at * <;> omega

theorem copying_reads_lawful_nested : ∃ c,
    copyOut (List.replicate 24 7) [⟨⟨4, 8⟩, 4, 2⟩, ⟨⟨4, 12⟩, 4, 1⟩, ⟨⟨16, 24⟩, 8, 0⟩] 6 (List.replicate 12 0) = some c ∧
      c.dst = List.replicate 12 7 ∧ c.reads = [.atomic 4 4, .atomic 8 4, .plain 12 4, .atomic 16 8] := by
  obtain ⟨c, hc, hdst, -⟩ := (@copying_reads_lawful (List.replicate 24 7) _ nested_ok).1 6 (List.replicate 12 0)
    [⟨⟨4, 8⟩, 4, 2⟩, ⟨⟨4, 12⟩, 4, 1⟩, ⟨⟨16, 24⟩, 8, 0⟩] (by decide) ⟨by decide, by decide⟩
  refine ⟨c, hc, hdst, ?_⟩
  have hrun : copyOut (List.replicate 24 7) [⟨⟨4, 8⟩, 4, 2⟩, ⟨⟨4, 12⟩, 4, 1⟩, ⟨⟨16, 24⟩, 8, 0⟩] 6 (List.replicate 12 0) =
      some ⟨List.replicate 12 7, [.atomic 4 4, .atomic 8 4, .plain 12 4, .atomic 16 8], [⟨0, 2⟩, ⟨2, 6⟩, ⟨6, 10⟩, ⟨10, 12⟩]⟩ := by
    decide
  rw [hrun] at hc
  cases hc
  rfl

/-! ## The methods of a mapping -/

/-- **What `read_into` copies under the lock is what `copy_out` leaves in the buffer.** -/
theorem copyTo_eq_copyOut {s : Inner} (hok : EntriesOk s.bytes.length s.atomics) {start : Nat} {dst : List UInt8}
    {spans : List AtomicEntry} (hfit : start + dst.length ≤ s.bytes.length)
    (hspans : Spans s.atomics start (start + dst.length) spans) :
    (copyOut s.bytes spans start dst).map Copy.dst = some (copyTo s start dst.length) := by
  obtain ⟨c, hc, h⟩ := copyOut_filled hok hfit hspans
  rw [hc, Option.map_some, h.dst_eq]
  rfl

/-- The read a `Touch` stands for. -/
def touchAccess : Touch → Access
  | .byte off => .plain off 1
  | .element off size => .atomic off (loadWidth size)

/-- **A page touch of a locked mapping makes the reads of `ViewRegistry::touch`.** -/
theorem touchLocked_eq_touch {s : Inner} {len : Nat} (hrw : s.map = .rw len) (start count page : Nat) :
    (touchLocked s start count page).map touchAccess = touch s.atomics start count page := by
  unfold touchLocked touch
  split
  · rfl
  · simp only [hrw, List.map_map]
    congr 1
    funext off
    simp only [Function.comp_apply, touchRead]
    cases s.atomics.find? (fun a => decide (a.range.start ≤ off ∧ off < a.range.stop)) <;> rfl

end CopyOut
end MmapIo
