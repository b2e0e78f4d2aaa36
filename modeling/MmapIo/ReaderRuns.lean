import MmapIo.CopyOut
import MmapIo.NonSharedVec
import MmapIo.Reader
import MmapIo.ResizeRuns
/-!
# ReaderRuns — a reader over a mapping that changes

`MmapReader` on a writable mapping between whose calls `update_region` and `resize` run.  The calls are the ones of `Reader`
with every addition, subtraction, conversion and index checked; nothing is returned where one fails.  Beside the reader a
run carries the mapping as the last refill of the buffer saw it, and whether the reader was repositioned since.
`reader_over_changes` is about every such run.
-/
namespace MmapIo
namespace ReaderRuns

open Word Bytes Machine
open CopyOut (slice? slice?_of_le)

section

variable (P : Platform) (s : Inner)

def read (n : Nat) (r : MmapReader) : Option (Except ReadError (List UInt8) × MmapReader) :=
  let r := { r with bufLen := 0 }
  let total := s.cachedLen
  if r.pos ≥ total then some (.ok [], r) else do
  let remaining ← checkedSub total r.pos
  -- `as usize` must not cut the value, and `buf[..want]` must lie in the caller's buffer
  let want ← tryFrom P.width.bits (min n remaining)
  if want = 0 then return (.ok [], r)
  if n < want then none
  match readInto P r.pos want s with
  | .error e => return (.error (.other e), r)
  | .ok bs =>
    let pos ← checkedAdd 64 r.pos want
    return (.ok bs, { r with pos := pos })

/-- `&self.buf[from..self.buf_len]`. -/
def lend (r : MmapReader) : Option (Except ReadError (List UInt8) × MmapReader) := do
  let offset ← checkedSub r.pos r.bufStart
  let start ← tryFrom P.width.bits offset
  let bs ← slice? r.buf start r.bufLen
  return (.ok bs, r)

/-- The buffer does not hold the position. -/
def stale (r : MmapReader) : Bool := decide (r.bufLen = 0 ∨ r.pos < r.bufStart ∨ r.pos ≥ r.bufStart + r.bufLen)

/-- `fill_buf` of a writable mapping. -/
def fillBufCopied (r : MmapReader) : Option (Except ReadError (List UInt8) × MmapReader) := do
  let bufferedEnd ← checkedAdd 64 r.bufStart r.bufLen
  if r.bufLen = 0 ∨ r.pos < r.bufStart ∨ r.pos ≥ bufferedEnd then
    let r := { r with bufLen := 0 }
    let total := s.cachedLen
    if r.pos ≥ total then return (.ok [], r)
    let remaining ← checkedSub total r.pos
    let n := min remaining readerBufLen
    if r.buf.length < n then none
    match readInto P r.pos n s with
    | .error e => return (.error (.other e), r)
    | .ok bs => lend P { r with buf := splice r.buf 0 bs, bufStart := r.pos, bufLen := n }
  else lend P r

def fillBuf (r : MmapReader) : Option (Except ReadError (List UInt8) × MmapReader) :=
  match s.map with
  | .ro _ => some (r.fillBuf P s)
  | .rw _ | .cow _ => fillBufCopied P s r

end

/-- One call of the reader. -/
def readerStep (P : Platform) (s : Inner) : ReaderOp → MmapReader → Option (Except ReadError ReaderOut × MmapReader)
  | .read n, r => (read P s n r).map (fun (o, r) => (o.map .bytes, r))
  | .seek target, r => some (MmapIo.readerStep P s (.seek target) r)
  | .setPosition pos, r => some (.ok .unit, r.setPosition pos)
  | .fillBuf, r => (fillBuf P s r).map (fun (o, r) => (o.map .bytes, r))
  | .consume amt, r => some (.ok .unit, r.consume amt)

/-- The mapping and its reader.  `refilled` is the mapping at the last refill of the buffer; `current` says that there was
one since the last `read`, `seek` or `set_position`. -/
structure World where
  inner : Inner
  reader : MmapReader
  refilled : Inner
  current : Bool

def World.start (s : Inner) : World := ⟨s, MmapReader.new, s, false⟩

/-- This `fill_buf` reads the mapping. -/
def refills (w : World) : Bool := stale w.reader && decide (w.reader.pos < w.inner.cachedLen)

/-- What a call means for the last refill. -/
def note (w : World) (r : MmapReader) : ReaderOp → World
  | .read _ | .seek _ | .setPosition _ => { w with reader := r, current := false }
  | .fillBuf => if refills w then { w with reader := r, refilled := w.inner, current := true } else { w with reader := r }
  | .consume _ => { w with reader := r }

def call (P : Platform) (w : World) (op : ReaderOp) : Option (Except ReadError ReaderOut × World) :=
  (readerStep P w.inner op w.reader).map (fun (o, r) => (o, note w r op))

/-- A call of the reader, or one on the mapping between two of them. -/
inductive Act where
  | reader (op : ReaderOp)
  | update (offset : Nat) (data : List UInt8) (os : Os)
  | resize (newSize : Nat) (os : Os)

def step (P : Platform) (w : World) : Act → Option World
  | .reader op => (call P w op).map Prod.snd
  | .update offset data os => some { w with inner := (updateRegion P os offset data w.inner).2 }
  | .resize newSize os => some { w with inner := (MmapIo.resize P os newSize w.inner).2 }

/-! ## The mapping -/

/-- A mapping that can be written: shared, or private. -/
def Open (P : Platform) (s : Inner) : Prop :=
  (∃ len, Shape P s len) ∨ ∃ bytes, s.map = .cow bytes ∧ s.cachedLen = bytes.length ∧ bytes.length ≤ P.width.maxLen

variable {P : Platform} {s : Inner} {r : MmapReader}

theorem Open.stable (h : Open P s) : Stable P s := by
  rcases h with ⟨len, h⟩ | ⟨bytes, hcow, hcached, hmax⟩
  · have hlen : s.bytes.length = len := by
      rw [Inner.bytes_rw h.map, List.length_take, Nat.min_eq_left h.le_file]
    exact ⟨h.cachedLen.trans hlen.symm, h.mapLen.trans hlen.symm, hlen ▸ h.le_max⟩
  · have hbytes : s.bytes = bytes := by simp only [Inner.bytes, hcow]
    refine ⟨?_, ?_, ?_⟩ <;> rw [hbytes]
    · exact hcached
    · simp only [Inner.mapLen, hcow]
    · exact hmax

theorem Open.not_ro (h : Open P s) (len : Nat) : s.map ≠ .ro len := by
  rcases h with ⟨len', h⟩ | ⟨bytes, hcow, -⟩
  · rw [h.map]
    nofun
  · rw [hcow]
    nofun

theorem Open.update (os : Os) (h : Open P s) (offset : Nat) (data : List UInt8) :
    Open P (updateRegion P os offset data s).2 := by
  rcases h with ⟨len, h⟩ | ⟨bytes, hcow, hcached, hmax⟩
  · exact .inl ⟨len, h.update os offset data⟩
  · unfold updateRegion
    split
    · exact .inr ⟨bytes, hcow, hcached, hmax⟩
    · rw [NonShared.updateRegionWithin_cow hcow hmax offset data (Nat.le_refl _)]
      split
      · rename_i hfit
        have hlen : (splice bytes offset data).length = bytes.length := length_splice hfit
        exact .inr ⟨_, rfl, hcached.trans hlen.symm, hlen ▸ hmax⟩
      · exact .inr ⟨bytes, hcow, hcached, hmax⟩

/-- A private mapping refuses every resize. -/
theorem resize_cow (os : Os) {bytes : List UInt8} (hcow : s.map = .cow bytes) (newSize : Nat) :
    (MmapIo.resize P os newSize s).2 = s := by
  unfold MmapIo.resize
  rw [hcow]
  split
  · rfl
  split
  · rfl
  split
  · rfl
  cases tryFrom P.width.bits newSize <;> rfl

theorem Open.resize (os : Os) (h : Open P s) (newSize : Nat) : Open P (MmapIo.resize P os newSize s).2 := by
  rcases h with ⟨len, h⟩ | ⟨bytes, hcow, hrest⟩
  · exact .inl (h.resized (resize_cases h.mode h.map newSize))
  · rw [resize_cow os hcow]
    exact .inr ⟨bytes, hcow, hrest⟩

/-! ## The arithmetic -/

/-- The buffer holds what the mapping `seen` had, and starts at an offset that a mapping can have. -/
structure Holds (P : Platform) (seen : Inner) (r : MmapReader) : Prop where
  buffered : Buffered seen r
  start_le : r.bufStart ≤ P.width.maxLen

/-- **`read` computes without overflow.** -/
theorem read_checked (hs : Stable P s) (n : Nat) : read P s n r = some (r.read P s n) := by
  have hmax := hs.le_max
  have hbits := P.width.maxLen_lt
  have hu64 := P.width.maxLen_lt_u64
  unfold read MmapReader.read
  simp only [hs.cachedLen]
  by_cases hpos : r.pos ≥ s.bytes.length
  · rw [if_pos hpos, if_pos hpos]
  rw [if_neg hpos, if_neg hpos, checkedSub_of_le (by omega)]
  simp only [bind, Option.bind]
  rw [tryFrom_of_lt (by omega)]
  simp only
  by_cases hwant : min n (s.bytes.length - r.pos) = 0
  · rw [if_pos hwant, if_pos hwant]
    rfl
  rw [if_neg hwant, if_neg hwant, if_neg (by omega), readInto_ok hs hwant (by omega)]
  simp only
  rw [checkedAdd_of_lt (by omega)]
  rfl

/-- **The buffer is indexed inside**, when it holds the position. -/
theorem lend_checked {seen : Inner} (h : Buffered seen r) (hpos : r.bufStart ≤ r.pos) (hend : r.pos < r.bufStart + r.bufLen) :
    lend P r = some (MmapReader.fillBufCopied.lend r) := by
  have hle := h.le_buf
  have hbits : readerBufLen < 2 ^ P.width.bits := by
    cases P.width <;> decide
  unfold lend MmapReader.fillBufCopied.lend
  rw [checkedSub_of_le hpos]
  simp only [bind, Option.bind]
  rw [tryFrom_of_lt (by omega)]
  simp only
  rw [slice?_of_le (by omega) (by rw [h.length]; exact hle)]
  rfl

/-- The reader after a refill. -/
def refilled (s : Inner) (r : MmapReader) : MmapReader :=
  { r with
    buf := splice r.buf 0 ((s.bytes.drop r.pos).take (min (s.bytes.length - r.pos) readerBufLen))
    bufStart := r.pos
    bufLen := min (s.bytes.length - r.pos) readerBufLen }

theorem buffered_empty {seen : Inner} (h : Buffered seen r) (s : Inner) (pos : Nat) :
    Buffered s { r with bufLen := 0, pos := pos } :=
  ⟨h.length, Nat.zero_le _, fun h0 => absurd h0 (Nat.lt_irrefl 0), rfl⟩

theorem refilled_buffered {seen : Inner} (h : Buffered seen r)
    (hfit : r.pos + min (s.bytes.length - r.pos) readerBufLen ≤ s.bytes.length) : Buffered s (refilled s r) :=
  (buffered_empty h s r.pos).refill (Nat.min_le_right _ _) hfit

/-- **`fill_buf` computes without overflow and stays in its buffer.** -/
theorem fillBufCopied_checked (hs : Stable P s) {seen : Inner} (h : Holds P seen r) :
    fillBufCopied P s r = some (r.fillBufCopied P s) := by
  have hmax := hs.le_max
  have hu63 := P.width.maxLen_lt_i64
  have hstart := h.start_le
  have hle := h.buffered.le_buf
  have hbuf : readerBufLen = 4096 := rfl
  unfold fillBufCopied MmapReader.fillBufCopied
  rw [checkedAdd_of_lt (by omega)]
  simp only [bind, Option.bind, hs.cachedLen]
  by_cases hstale : r.bufLen = 0 ∨ r.pos < r.bufStart ∨ r.pos ≥ r.bufStart + r.bufLen
  · rw [if_pos hstale, if_pos hstale]
    by_cases hpos : r.pos ≥ s.bytes.length
    · rw [if_pos hpos, if_pos hpos]
      rfl
    rw [if_neg hpos, if_neg hpos, checkedSub_of_le (by omega)]
    simp only
    have hfit : r.pos + min (s.bytes.length - r.pos) readerBufLen ≤ s.bytes.length := by omega
    rw [if_neg (by rw [h.buffered.length]; omega), readInto_ok hs (by omega) hfit]
    simp only
    exact lend_checked (refilled_buffered h.buffered hfit) (Nat.le_refl _) (by simp only; omega)
  · rw [if_neg hstale, if_neg hstale]
    exact lend_checked h.buffered (by omega) (by omega)

/-- **What `fill_buf` of a writable mapping does**: nothing is left to lend, the buffer is filled from the mapping and lent
whole, or what it still holds from the position on is lent. -/
theorem fillBufCopied_cases (hs : Stable P s) {seen : Inner} (h : Holds P seen r) :
    (stale r = true ∧ s.bytes.length ≤ r.pos ∧ r.fillBufCopied P s = (.ok [], { r with bufLen := 0 })) ∨
    (stale r = true ∧ r.pos < s.bytes.length ∧ Buffered s (refilled s r) ∧ r.fillBufCopied P s =
      (.ok ((s.bytes.drop r.pos).take (min (s.bytes.length - r.pos) readerBufLen)), refilled s r)) ∨
    (stale r = false ∧ r.bufStart ≤ r.pos ∧ r.pos < r.bufStart + r.bufLen ∧
      r.fillBufCopied P s = (.ok (((seen.bytes.drop r.bufStart).take r.bufLen).drop (r.pos - r.bufStart)), r)) := by
  have hbuf : readerBufLen = 4096 := rfl
  unfold MmapReader.fillBufCopied
  simp only [hs.cachedLen]
  by_cases hstale : r.bufLen = 0 ∨ r.pos < r.bufStart ∨ r.pos ≥ r.bufStart + r.bufLen
  · rw [if_pos hstale]
    by_cases hpos : r.pos ≥ s.bytes.length
    · rw [if_pos hpos]
      exact .inl ⟨decide_eq_true hstale, hpos, rfl⟩
    have hfit : r.pos + min (s.bytes.length - r.pos) readerBufLen ≤ s.bytes.length := by omega
    have hb := refilled_buffered h.buffered hfit
    rw [if_neg hpos, readInto_ok hs (by omega) hfit]
    refine .inr (.inl ⟨decide_eq_true hstale, by omega, hb, ?_⟩)
    have hlend := hb.lend (Nat.le_refl r.pos)
    simp only [refilled, Nat.sub_self, Nat.sub_zero] at hlend
    simp only [MmapReader.fillBufCopied.lend, Nat.sub_self, refilled, hlend]
  · rw [if_neg hstale]
    refine .inr (.inr ⟨decide_eq_false hstale, by omega, by omega, ?_⟩)
    simp only [MmapReader.fillBufCopied.lend]
    rw [List.extract_eq_take_drop, ← List.drop_take, h.buffered.bytes]

/-! ## One call -/

/-- **The invariant**: the mapping can be written, the buffer holds what the last refill saw, and that refill came after the
last repositioning. -/
structure Inv (P : Platform) (w : World) : Prop where
  openMap : Open P w.inner
  holds : Holds P w.refilled w.reader
  current : 0 < w.reader.bufLen → w.current = true

/-- **What a call answers.**  `read` gives the bytes of now; a lent slice is the rest, from the position on, of one refill
made since the reader was last repositioned, and an empty one means the end; a call that fails does not move. -/
structure Answers (w : World) (op : ReaderOp) (o : Except ReadError ReaderOut) (w' : World) : Prop where
  read : ∀ n, op = .read n → o = .ok (.bytes ((w.inner.bytes.drop w.reader.pos).take n)) ∧
    w'.reader.pos = w.reader.pos + min n (w.inner.bytes.length - w.reader.pos)
  fillBuf : op = .fillBuf → ∃ bs, o = .ok (.bytes bs) ∧ w'.reader.pos = w.reader.pos ∧
    (bs = [] → w.inner.bytes.length ≤ w.reader.pos) ∧
    (bs ≠ [] → w'.current = true ∧ w'.reader.bufStart ≤ w.reader.pos ∧
      bs = ((w'.refilled.bytes.drop w'.reader.bufStart).take w'.reader.bufLen).drop (w.reader.pos - w'.reader.bufStart))
  fails : ∀ e, o = .error e → w'.reader.pos = w.reader.pos

theorem start_inv (h : Open P s) : Inv P (World.start s) :=
  ⟨h, ⟨⟨List.length_replicate, Nat.zero_le _, fun h0 => absurd h0 (Nat.lt_irrefl 0), rfl⟩, Nat.zero_le _⟩,
    fun h0 => absurd h0 (Nat.lt_irrefl 0)⟩

variable {w : World}

/-- The buffer is thrown away. -/
def Discards (r r' : MmapReader) : Prop := r'.buf = r.buf ∧ r'.bufStart = r.bufStart ∧ r'.bufLen = 0

theorem Inv.discard (h : Inv P w) {r : MmapReader} (hd : Discards w.reader r) (current : Bool) :
    Inv P { w with reader := r, current := current } := by
  obtain ⟨hbuf, hstart, hlen⟩ := hd
  have hnot : ¬ 0 < r.bufLen := by omega
  refine ⟨h.openMap, ⟨⟨hbuf ▸ h.holds.buffered.length, ?_, fun h0 => absurd h0 hnot, ?_⟩, ?_⟩, fun h0 => absurd h0 hnot⟩
  · rw [hlen]
    exact Nat.zero_le _
  · simp only [hlen, List.take_zero]
  · rw [hstart]
    exact h.holds.start_le

theorem note_refilled (hr : refills w = true) :
    note w r .fillBuf = { w with reader := r, refilled := w.inner, current := true } := if_pos hr

theorem note_kept (hr : refills w = false) : note w r .fillBuf = { w with reader := r } :=
  if_neg (by rw [hr]; exact Bool.false_ne_true)

theorem read_discards (n : Nat) : Discards r (r.read P s n).2 := by
  unfold MmapReader.read
  simp only
  split
  · exact ⟨rfl, rfl, rfl⟩
  split
  · exact ⟨rfl, rfl, rfl⟩
  cases readInto P r.pos (min n (s.cachedLen - r.pos)) s <;> exact ⟨rfl, rfl, rfl⟩

theorem seek_discards (target : SeekFrom) :
    Discards r (r.seek s target).2 ∧ ∀ e, (r.seek s target).1 = .error e → (r.seek s target).2.pos = r.pos := by
  have hgo : ∀ base delta, Discards r (MmapReader.seek.go base delta { r with bufLen := 0 }).2 ∧
      ∀ e, (MmapReader.seek.go base delta { r with bufLen := 0 }).1 = .error e →
        (MmapReader.seek.go base delta { r with bufLen := 0 }).2.pos = r.pos := by
    intro base delta
    unfold MmapReader.seek.go
    cases (if delta ≥ 0 then checkedAdd 64 base delta.natAbs else checkedSub base delta.natAbs) with
    | none => exact ⟨⟨rfl, rfl, rfl⟩, fun _ _ => rfl⟩
    | some p => exact ⟨⟨rfl, rfl, rfl⟩, nofun⟩
  cases target with
  | start n => exact ⟨⟨rfl, rfl, rfl⟩, nofun⟩
  | fromEnd delta => exact hgo _ delta
  | current delta => exact hgo _ delta

theorem call_read (h : Inv P w) (n : Nat) :
    ∃ o w', call P w (.read n) = some (o, w') ∧ Inv P w' ∧ Answers w (.read n) o w' := by
  have hs := h.openMap.stable
  -- the buffer plays no part in it
  obtain ⟨hout, hpos, -⟩ := read_eq hs (buffered_empty h.holds.buffered w.inner w.reader.pos) n
  refine ⟨_, _, by rw [call, readerStep, read_checked hs]; rfl, h.discard (read_discards n) false, ?_, nofun, ?_⟩
  · rintro _ ⟨rfl⟩
    refine ⟨congrArg (Except.map ReaderOut.bytes) hout, hpos.trans ?_⟩
    rw [List.length_take, List.length_drop]
  · intro e he
    have hok := congrArg (Except.map ReaderOut.bytes) hout
    cases he.symm.trans hok

theorem call_seek (h : Inv P w) (target : SeekFrom) :
    ∃ o w', call P w (.seek target) = some (o, w') ∧ Inv P w' ∧ Answers w (.seek target) o w' := by
  obtain ⟨hd, hfail⟩ := seek_discards target
  refine ⟨_, _, rfl, h.discard hd false, nofun, nofun, fun e he => ?_⟩
  change (w.reader.seek w.inner target).1.map ReaderOut.pos = .error e at he
  cases hseek : (w.reader.seek w.inner target).1 with
  | error e' => exact hfail e' hseek
  | ok p =>
    rw [hseek] at he
    cases he

/-- **`fill_buf`**: the buffer holds what the last refill saw, which may be this one. -/
theorem call_fillBuf (h : Inv P w) :
    ∃ o w', call P w .fillBuf = some (o, w') ∧ Inv P w' ∧ Answers w .fillBuf o w' := by
  have hs := h.openMap.stable
  have hcopied : fillBuf P w.inner w.reader = some (w.reader.fillBufCopied P w.inner) := by
    unfold fillBuf
    cases hmap : w.inner.map with
    | ro len => exact absurd hmap (h.openMap.not_ro len)
    | rw len => exact fillBufCopied_checked hs h.holds
    | cow bytes => exact fillBufCopied_checked hs h.holds
  rcases fillBufCopied_cases hs h.holds with ⟨-, hpos, hf⟩ | ⟨hstale, hpos, hb, hf⟩ | ⟨hstale, hstart, hend, hf⟩
  · have hnote : refills w = false := by
      rw [refills, hs.cachedLen, decide_eq_false (Nat.not_lt.2 hpos), Bool.and_false]
    have hcall : call P w .fillBuf = some (.ok (.bytes []), { w with reader := { w.reader with bufLen := 0 } }) := by
      rw [call, readerStep, hcopied, hf, ← note_kept hnote]
      rfl
    have hd : Discards w.reader { w.reader with bufLen := 0 } := ⟨rfl, rfl, rfl⟩
    exact ⟨_, _, hcall, h.discard hd w.current, nofun, fun _ => ⟨[], rfl, rfl, fun _ => hpos, nofun⟩, nofun⟩
  · have hnote : refills w = true := by
      rw [refills, hs.cachedLen, hstale, decide_eq_true hpos]
      rfl
    have hcall : call P w .fillBuf = some
        (.ok (.bytes ((w.inner.bytes.drop w.reader.pos).take (min (w.inner.bytes.length - w.reader.pos) readerBufLen))),
          { w with reader := refilled w.inner w.reader, refilled := w.inner, current := true }) := by
      rw [call, readerStep, hcopied, hf, ← note_refilled hnote]
      rfl
    have hinv : Inv P { w with reader := refilled w.inner w.reader, refilled := w.inner, current := true } :=
      ⟨h.openMap, ⟨hb, Nat.le_trans (Nat.le_of_lt hpos) hs.le_max⟩, fun _ => rfl⟩
    refine ⟨_, _, hcall, hinv, nofun, fun _ => ⟨_, rfl, rfl, fun hnil => ?_, fun _ => ⟨rfl, Nat.le_refl _, ?_⟩⟩, nofun⟩
    · have hlen := congrArg List.length hnil
      have hbuf : readerBufLen = 4096 := rfl
      rw [List.length_take, List.length_drop, List.length_nil] at hlen
      omega
    · simp only [refilled, Nat.sub_self, List.drop_zero]
  · have hnote : refills w = false := by
      rw [refills, hstale, Bool.false_and]
    have hpos : 0 < w.reader.bufLen := by omega
    have hcall : call P w .fillBuf = some (.ok (.bytes
        (((w.refilled.bytes.drop w.reader.bufStart).take w.reader.bufLen).drop (w.reader.pos - w.reader.bufStart))), w) := by
      rw [call, readerStep, hcopied, hf]
      exact congrArg (fun w' => some (_, w')) (note_kept hnote)
    refine ⟨_, _, hcall, h, nofun, fun _ => ⟨_, rfl, rfl, fun hnil => ?_, fun _ => ⟨h.current hpos, hstart, rfl⟩⟩, nofun⟩
    have hlen := congrArg List.length hnil
    have hle := h.holds.buffered.le_len hpos
    rw [List.length_drop, List.length_take, List.length_drop, List.length_nil] at hlen
    omega

/-- **Every call of the reader answers and keeps the invariant.** -/
theorem call_spec (h : Inv P w) (op : ReaderOp) : ∃ o w', call P w op = some (o, w') ∧ Inv P w' ∧ Answers w op o w' := by
  cases op with
  | read n => exact call_read h n
  | seek target => exact call_seek h target
  | setPosition pos =>
    have hd : Discards w.reader (w.reader.setPosition pos) := ⟨rfl, rfl, rfl⟩
    exact ⟨_, _, rfl, h.discard hd false, nofun, nofun, nofun⟩
  | fillBuf => exact call_fillBuf h
  | consume amt =>
    have hb := h.holds.buffered
    exact ⟨_, _, rfl, ⟨h.openMap, ⟨⟨hb.length, hb.le_buf, hb.le_len, hb.bytes⟩, h.holds.start_le⟩, h.current⟩, nofun, nofun,
      nofun⟩

theorem step_inv (h : Inv P w) (a : Act) : ∃ w', step P w a = some w' ∧ Inv P w' := by
  cases a with
  | reader op =>
    obtain ⟨o, w', hcall, hinv, -⟩ := call_spec h op
    exact ⟨w', by rw [step, hcall]; rfl, hinv⟩
  | update offset data os => exact ⟨_, rfl, h.openMap.update os offset data, h.holds, h.current⟩
  | resize newSize os => exact ⟨_, rfl, h.openMap.resize os newSize, h.holds, h.current⟩

/-- **A reader over a changing mapping.**  For every mapping that can be written and every run of calls of its reader,
`update_region`s and resizes: no arithmetic overflows and no index leaves its buffer; the buffer has at most 4096 bytes, and
they are what the mapping had there at the last refill; and the next call, whichever it is, answers from the mapping of now
or from one refill since the last repositioning, and does not move when it fails. -/
theorem reader_over_changes (P : Platform) {s : Inner} (hs : Open P s) (acts : List Act) :
    ∃ w, run (step P) (World.start s) acts = some w ∧ w.reader.bufLen ≤ readerBufLen ∧ Buffered w.refilled w.reader ∧
      ∀ op, ∃ o w', call P w op = some (o, w') ∧ Answers w op o w' := by
  obtain ⟨w, hr, h⟩ := run_total (Inv P) (fun w a h => step_inv h a) acts (World.start s) (start_inv hs)
  refine ⟨w, hr, h.holds.buffered.le_buf, h.holds.buffered, fun op => ?_⟩
  obtain ⟨o, w', hcall, -, hans⟩ := call_spec h op
  exact ⟨o, w', hcall, hans⟩

theorem threeBytes_open : Open linux64 threeBytes := .inl ⟨3, rfl, rfl, rfl, by decide, by decide⟩

/-- A byte is buffered and overwritten; after `set_position` a `read` returns the new one. -/
theorem reader_over_changes_overwritten : ∃ w o w', run (step linux64) (World.start threeBytes)
    [.reader .fillBuf, .update 0 [9] Os.ok, .reader (.setPosition 0)] = some w ∧
    call linux64 w (.read 2) = some (o, w') ∧ o = .ok (.bytes [9, 2]) := by
  obtain ⟨w, hr, -, -, hcall⟩ := reader_over_changes linux64 threeBytes_open
    [.reader .fillBuf, .update 0 [9] Os.ok, .reader (.setPosition 0)]
  obtain ⟨o, w', hc, hans⟩ := hcall (.read 2)
  refine ⟨w, o, w', hr, hc, ?_⟩
  have hbytes : (run (step linux64) (World.start threeBytes)
      [.reader .fillBuf, .update 0 [9] Os.ok, .reader (.setPosition 0)]).map
      (fun w => (w.inner.bytes, w.reader.pos)) = some ([9, 2, 3], 0) := by
    decide +kernel
  rw [hr] at hbytes
  obtain ⟨hb, hp⟩ := Prod.mk.inj (Option.some.inj hbytes)
  rw [(hans.read 2 rfl).1, hb, hp]
  rfl

end ReaderRuns
end MmapIo
