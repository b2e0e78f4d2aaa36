import MmapIo.Lib.Machine
import MmapIo.Mmap
/-!
# Reader — `MmapReader` and `std::io::Cursor`

The reader of `mmap.rs` with its two versions of `fill_buf`: the rest of a read-only mapping lent directly, or a copy of at
most 4096 bytes kept inline on a writable one (`buf`, `buf_start`, `buf_len`), which `read`, `seek` and `set_position` throw
away.  `std::io::Cursor` over the same bytes stands beside it (`cursorStep`), and `reader_is_cursor` runs the two in
lockstep.
-/
namespace MmapIo

open Word Bytes

def readerBufLen : Nat := 4096

structure MmapReader where
  pos : Nat
  buf : List UInt8
  bufStart : Nat
  bufLen : Nat
  deriving DecidableEq, Repr

/-- `MemoryMappedFile::reader`. -/
def MmapReader.new : MmapReader := ⟨0, List.replicate readerBufLen 0, 0, 0⟩

/-- An `io::Error` of the reader: `ErrorKind::Other` around a crate error, or `ErrorKind::InvalidInput`. -/
inductive ReadError where
  | other (e : MmapIoError)
  | invalidInput (msg : String)
  deriving DecidableEq, Repr

inductive SeekFrom where
  | start (n : Nat)
  | fromEnd (delta : Int)
  | current (delta : Int)
  deriving DecidableEq, Repr

/-- A call on the reader; `read` has a buffer of `n` bytes. -/
inductive ReaderOp where
  | read (n : Nat)
  | seek (target : SeekFrom)
  | setPosition (pos : Nat)
  | fillBuf
  | consume (amt : Nat)
  deriving DecidableEq, Repr

/-- What a call returns: the bytes copied or lent, or the new position. -/
inductive ReaderOut where
  | bytes (bs : List UInt8)
  | pos (p : Nat)
  | unit
  deriving DecidableEq, Repr

def invalidSeek : ReadError := .invalidInput "invalid seek to a negative or overflowing position"

namespace MmapReader

variable (P : Platform) (s : Inner)

def read (n : Nat) (r : MmapReader) : Except ReadError (List UInt8) × MmapReader :=
  let r := { r with bufLen := 0 }
  let total := s.cachedLen
  if r.pos ≥ total then (.ok [], r) else
  let want := min n (total - r.pos)
  if want = 0 then (.ok [], r) else
  match readInto P r.pos want s with
  | .error e => (.error (.other e), r)
  | .ok bs => (.ok bs, { r with pos := r.pos + want })

def seek (target : SeekFrom) (r : MmapReader) : Except ReadError Nat × MmapReader :=
  let r := { r with bufLen := 0 }
  match target with
  | .start n => (.ok n, { r with pos := n })
  | .fromEnd delta => go s.cachedLen delta r
  | .current delta => go r.pos delta r
where
  go (base : Nat) (delta : Int) (r : MmapReader) : Except ReadError Nat × MmapReader :=
    match (if delta ≥ 0 then checkedAdd 64 base delta.natAbs else checkedSub base delta.natAbs) with
    | some p => (.ok p, { r with pos := p })
    | none => (.error invalidSeek, r)

def setPosition (pos : Nat) (r : MmapReader) : MmapReader := { r with bufLen := 0, pos := pos }

/-- `fill_buf` of a writable mapping. -/
def fillBufCopied (r : MmapReader) : Except ReadError (List UInt8) × MmapReader :=
  if r.bufLen = 0 ∨ r.pos < r.bufStart ∨ r.pos ≥ r.bufStart + r.bufLen then
    let r := { r with bufLen := 0 }
    let total := s.cachedLen
    if r.pos ≥ total then (.ok [], r) else
    let n := min (total - r.pos) readerBufLen
    match readInto P r.pos n s with
    | .error e => (.error (.other e), r)
    | .ok bs => lend { r with buf := splice r.buf 0 bs, bufStart := r.pos, bufLen := n }
  else lend r
where
  lend (r : MmapReader) : Except ReadError (List UInt8) × MmapReader :=
    (.ok (r.buf.extract (r.pos - r.bufStart) r.bufLen), r)

def fillBuf (r : MmapReader) : Except ReadError (List UInt8) × MmapReader :=
  match s.map with
  | .ro len => (.ok (s.bytes.drop (min ((tryFrom P.width.bits r.pos).getD (2 ^ P.width.bits - 1)) len)), r)
  | .rw _ | .cow _ => fillBufCopied P s r

def consume (amt : Nat) (r : MmapReader) : MmapReader := { r with pos := saturatingAdd 64 r.pos amt }

end MmapReader

def readerStep (P : Platform) (s : Inner) : ReaderOp → MmapReader → Except ReadError ReaderOut × MmapReader
  | .read n, r => let (o, r) := r.read P s n; (o.map .bytes, r)
  | .seek target, r => let (o, r) := r.seek s target; (o.map .pos, r)
  | .setPosition pos, r => (.ok .unit, r.setPosition pos)
  | .fillBuf, r => let (o, r) := r.fillBuf P s; (o.map .bytes, r)
  | .consume amt, r => (.ok .unit, r.consume amt)

/-! ## The cursor of the standard library -/

/-- `u64::checked_add_signed`. -/
def checkedAddSigned (base : Nat) (delta : Int) : Option Nat :=
  if 0 ≤ (base : Int) + delta ∧ (base : Int) + delta < 2 ^ 64 then some ((base : Int) + delta).toNat else none

/-- `Cursor<&[u8]>` at position `pos`; nothing when `pos += amt` overflows, which is a panic. -/
def cursorStep (data : List UInt8) (op : ReaderOp) (pos : Nat) : Option (Except ReadError ReaderOut × Nat) :=
  match op with
  | .read n =>
    let bs := (data.drop (min pos data.length)).take n
    some (.ok (.bytes bs), pos + bs.length)
  | .seek (.start n) => some (.ok (.pos n), n)
  | .seek (.fromEnd delta) => some (go data.length delta)
  | .seek (.current delta) => some (go pos delta)
  | .setPosition p => some (.ok .unit, p)
  | .fillBuf => some (.ok (.bytes (data.drop (min pos data.length))), pos)
  | .consume amt => if pos + amt < 2 ^ 64 then some (.ok .unit, pos + amt) else none
where
  go (base : Nat) (delta : Int) : Except ReadError ReaderOut × Nat :=
    match checkedAddSigned base delta with
    | some p => (.ok (.pos p), p)
    | none => (.error invalidSeek, pos)

/-! ## One call of each -/

/-- A mapping at rest: `len()` is the length of the mapped bytes. -/
structure Stable (P : Platform) (s : Inner) : Prop where
  cachedLen : s.cachedLen = s.bytes.length
  mapLen : s.mapLen = s.bytes.length
  le_max : s.bytes.length ≤ P.width.maxLen

variable {P : Platform} {s : Inner} {r : MmapReader}

theorem readInto_ok (hs : Stable P s) {offset n : Nat} (hn : n ≠ 0) (hfit : offset + n ≤ s.bytes.length) :
    readInto P offset n s = .ok ((s.bytes.drop offset).take n) := by
  unfold readInto
  rw [if_neg hn, hs.mapLen, sliceRange_eq hs.le_max, if_pos hfit]
  simp only [copyTo, List.extract_eq_take_drop, Nat.add_sub_cancel_left]

/-- What is buffered is what the mapping has there. -/
structure Buffered (s : Inner) (r : MmapReader) : Prop where
  length : r.buf.length = readerBufLen
  le_buf : r.bufLen ≤ readerBufLen
  le_len : 0 < r.bufLen → r.bufStart + r.bufLen ≤ s.bytes.length
  bytes : r.buf.take r.bufLen = (s.bytes.drop r.bufStart).take r.bufLen

theorem Buffered.discard (h : Buffered s r) (pos : Nat) : Buffered s { r with bufLen := 0, pos := pos } :=
  ⟨h.length, Nat.zero_le _, fun h0 => absurd h0 (Nat.lt_irrefl 0), by rw [List.take_zero, List.take_zero]⟩

theorem drop_min (l : List UInt8) (n : Nat) : l.drop (min n l.length) = l.drop n := by
  rcases Nat.le_total n l.length with h | h
  · rw [Nat.min_eq_left h]
  · rw [Nat.min_eq_right h, List.drop_length, List.drop_eq_nil_of_le h]

theorem read_eq (hs : Stable P s) (hb : Buffered s r) (n : Nat) :
    (r.read P s n).1 = .ok ((s.bytes.drop r.pos).take n) ∧
    (r.read P s n).2.pos = r.pos + ((s.bytes.drop r.pos).take n).length ∧ Buffered s (r.read P s n).2 := by
  unfold MmapReader.read
  simp only [hs.cachedLen]
  by_cases hpos : r.pos ≥ s.bytes.length
  · rw [if_pos hpos, List.drop_eq_nil_of_le hpos, List.take_nil]
    exact ⟨rfl, rfl, hb.discard r.pos⟩
  rw [if_neg hpos]
  by_cases hwant : min n (s.bytes.length - r.pos) = 0
  · have hn : n = 0 := by omega
    rw [if_pos hwant, hn, List.take_zero]
    exact ⟨rfl, rfl, hb.discard r.pos⟩
  rw [if_neg hwant, readInto_ok hs hwant (by omega)]
  have htake : (s.bytes.drop r.pos).take (min n (s.bytes.length - r.pos)) = (s.bytes.drop r.pos).take n := by
    rw [← List.length_drop, ← List.take_eq_take_min]
  refine ⟨congrArg Except.ok htake, ?_, hb.discard (r.pos + min n (s.bytes.length - r.pos))⟩
  rw [List.length_take, List.length_drop]

theorem seek_go_eq {base : Nat} (hbase : base < 2 ^ 64) (delta : Int) :
    (if delta ≥ 0 then checkedAdd 64 base delta.natAbs else checkedSub base delta.natAbs) = checkedAddSigned base delta := by
  unfold checkedAddSigned checkedAdd checkedSub
  by_cases hd : delta ≥ 0
  · rw [if_pos hd]
    by_cases hlt : base + delta.natAbs < 2 ^ 64
    · rw [if_pos hlt, if_pos (by omega)]
      congr 1
      omega
    · rw [if_neg hlt, if_neg (by omega)]
  · rw [if_neg hd]
    by_cases hle : delta.natAbs ≤ base
    · rw [if_pos hle, if_pos (by omega)]
      congr 1
      omega
    · rw [if_neg hle, if_neg (by omega)]

theorem Buffered.lend (h : Buffered s r) (hpos : r.bufStart ≤ r.pos) :
    r.buf.extract (r.pos - r.bufStart) r.bufLen = (s.bytes.drop r.pos).take (r.bufLen - (r.pos - r.bufStart)) := by
  rw [List.extract_eq_take_drop, ← List.drop_take, h.bytes, List.drop_take, List.drop_drop, Nat.add_sub_cancel' hpos]

theorem Buffered.refill (h : Buffered s r) {n : Nat} (hn : n ≤ readerBufLen) (hfit : r.pos + n ≤ s.bytes.length) :
    Buffered s { r with buf := splice r.buf 0 ((s.bytes.drop r.pos).take n), bufStart := r.pos, bufLen := n } := by
  have hlen : ((s.bytes.drop r.pos).take n).length = n := by
    rw [List.length_take, List.length_drop]
    omega
  have hroom : 0 + ((s.bytes.drop r.pos).take n).length ≤ r.buf.length := by
    rw [hlen, h.length, Nat.zero_add]
    exact hn
  refine ⟨(length_splice hroom).trans h.length, hn, fun _ => hfit, ?_⟩
  have htake := take_splice_end hroom
  rw [Nat.zero_add, hlen, List.take_zero, List.nil_append] at htake
  exact htake

/-- `fill_buf` of a writable mapping lends a prefix of the rest: not empty before the end, and of at most 4096 bytes. -/
theorem fillBufCopied_eq (hs : Stable P s) (hb : Buffered s r) :
    ∃ m, (r.fillBufCopied P s).1 = .ok ((s.bytes.drop r.pos).take m) ∧ m ≤ readerBufLen ∧
      (r.pos < s.bytes.length → 0 < m) ∧ (r.fillBufCopied P s).2.pos = r.pos ∧ Buffered s (r.fillBufCopied P s).2 := by
  unfold MmapReader.fillBufCopied
  by_cases hstale : r.bufLen = 0 ∨ r.pos < r.bufStart ∨ r.pos ≥ r.bufStart + r.bufLen
  · rw [if_pos hstale]
    simp only [hs.cachedLen]
    by_cases hpos : r.pos ≥ s.bytes.length
    · rw [if_pos hpos]
      exact ⟨0, by rw [List.take_zero], Nat.zero_le _, fun h => absurd h (Nat.not_lt.2 hpos), rfl, hb.discard r.pos⟩
    have hn : min (s.bytes.length - r.pos) readerBufLen ≠ 0 := by
      unfold readerBufLen
      omega
    rw [if_neg hpos, readInto_ok hs hn (by omega)]
    have hb' := hb.refill (n := min (s.bytes.length - r.pos) readerBufLen) (Nat.min_le_right ..) (by omega)
    refine ⟨min (s.bytes.length - r.pos) readerBufLen, ?_, Nat.min_le_right .., fun _ => Nat.pos_of_ne_zero hn, rfl, hb'⟩
    have hlend := hb'.lend (Nat.le_refl _)
    rw [Nat.sub_self, Nat.sub_zero] at hlend
    simp only [MmapReader.fillBufCopied.lend, Nat.sub_self]
    exact congrArg Except.ok hlend
  · rw [if_neg hstale]
    have hpos : r.bufStart ≤ r.pos ∧ r.pos < r.bufStart + r.bufLen := by omega
    refine ⟨r.bufLen - (r.pos - r.bufStart), ?_, ?_, fun _ => by omega, rfl, hb⟩
    · exact congrArg Except.ok (hb.lend hpos.1)
    · exact Nat.le_trans (Nat.sub_le _ _) hb.le_buf

/-! ## In lockstep -/

/-- The reader and the cursor side by side: the length the preceding `fill_buf` of the reader returned and what is left of
it, and the bytes obtained (by `read`, or by consuming what `fill_buf` lent) since the position was last set to `origin`. -/
structure Pair where
  reader : MmapReader
  cursor : Nat
  avail : Nat
  rest : List UInt8
  origin : Nat
  got : List UInt8

def Pair.start : Pair := ⟨MmapReader.new, 0, 0, [], 0, []⟩

/-- `u64` arguments, and `consume` of at most what the preceding `fill_buf` returned. -/
def legal (h : Pair) : ReaderOp → Bool
  | .consume amt => decide (amt ≤ h.avail)
  | .seek (.start n) | .setPosition n => decide (n < 2 ^ 64)
  | _ => true

/-- Both do the call; nothing when it is not legal, or the cursor itself overflows. -/
def pairStep (P : Platform) (s : Inner) (h : Pair) (op : ReaderOp) : Option Pair :=
  if legal h op then
    (cursorStep s.bytes op h.cursor).map (fun (_, c) =>
      let (o, r) := readerStep P s op h.reader
      match op, o with
      | .read _, .ok (.bytes bs) => { h with reader := r, cursor := c, rest := [], got := h.got ++ bs }
      | .fillBuf, .ok (.bytes bs) => { h with reader := r, cursor := c, avail := bs.length, rest := bs }
      | .consume amt, _ =>
        if amt ≤ h.rest.length then
          { h with reader := r, cursor := c, rest := h.rest.drop amt, got := h.got ++ h.rest.take amt }
        else { h with reader := r, cursor := c, rest := [], origin := c, got := [] }
      | _, .ok _ => { h with reader := r, cursor := c, rest := [], origin := c, got := [] }
      | _, .error _ => { h with reader := r, cursor := c, rest := [] })
  else none

/-- The same answer; but a `fill_buf` of a writable mapping may return a shorter prefix of the rest, of at most 4096 bytes
and empty only at the end. -/
def alike (s : Inner) (op : ReaderOp) (pos : Nat) (o oc : Except ReadError ReaderOut) : Prop :=
  match op, s.map with
  | .fillBuf, .rw _ | .fillBuf, .cow _ => ∃ bs full, o = .ok (.bytes bs) ∧ oc = .ok (.bytes full) ∧ bs <+: full ∧
      bs.length ≤ readerBufLen ∧ (bs = [] → s.bytes.length ≤ pos)
  | _, _ => o = oc

structure InStep (s : Inner) (h : Pair) : Prop where
  pos : h.reader.pos = h.cursor
  pos_lt : h.cursor < 2 ^ 64
  buffered : Buffered s h.reader
  rest : h.rest = (s.bytes.drop h.cursor).take h.rest.length
  cursor : h.cursor = h.origin + h.got.length
  got : h.got = (s.bytes.drop h.origin).take h.got.length

theorem fillBuf_eq (hs : Stable P s) (hb : Buffered s r) :
    ∃ bs, (r.fillBuf P s).1 = .ok bs ∧ bs = (s.bytes.drop r.pos).take bs.length ∧
      alike s .fillBuf r.pos (.ok (.bytes bs)) (.ok (.bytes (s.bytes.drop r.pos))) ∧
      (r.fillBuf P s).2.pos = r.pos ∧ Buffered s (r.fillBuf P s).2 := by
  have hcopied : (∃ len, s.map = .rw len) ∨ (∃ bs, s.map = .cow bs) → ∃ bs, (r.fillBufCopied P s).1 = .ok bs ∧
      bs = (s.bytes.drop r.pos).take bs.length ∧
      alike s .fillBuf r.pos (.ok (.bytes bs)) (.ok (.bytes (s.bytes.drop r.pos))) ∧
      (r.fillBufCopied P s).2.pos = r.pos ∧ Buffered s (r.fillBufCopied P s).2 := by
    intro hmap
    obtain ⟨m, hout, hle, hne, hpos, hb'⟩ := fillBufCopied_eq hs hb
    have hlen : ((s.bytes.drop r.pos).take m).length ≤ m := List.length_take_le ..
    have halike : ∃ bs full, (Except.ok (.bytes ((s.bytes.drop r.pos).take m)) : Except ReadError ReaderOut) =
        .ok (.bytes bs) ∧ (Except.ok (.bytes (s.bytes.drop r.pos)) : Except ReadError ReaderOut) = .ok (.bytes full) ∧
        bs <+: full ∧ bs.length ≤ readerBufLen ∧ (bs = [] → s.bytes.length ≤ r.pos) := by
      refine ⟨_, _, rfl, rfl, List.take_prefix .., Nat.le_trans hlen hle, fun hnil => ?_⟩
      by_contra hlt
      have hlen0 := congrArg List.length hnil
      rw [List.length_take, List.length_drop, List.length_nil] at hlen0
      have := hne (Nat.not_le.1 hlt)
      omega
    refine ⟨_, hout, ?_, ?_, hpos, hb'⟩
    · rw [List.length_take, ← List.take_eq_take_min]
    · unfold alike
      rcases hmap with ⟨len, hm⟩ | ⟨bs, hm⟩ <;> rw [hm] <;> exact halike
  unfold MmapReader.fillBuf
  cases hmap : s.map with
  | rw len => exact hcopied (Or.inl ⟨len, hmap⟩)
  | cow bs => exact hcopied (Or.inr ⟨bs, hmap⟩)
  | ro len =>
    have hlen : len = s.bytes.length := by
      rw [← hs.mapLen, Inner.mapLen, hmap]
    have hstart : min ((tryFrom P.width.bits r.pos).getD (2 ^ P.width.bits - 1)) len = min r.pos s.bytes.length := by
      have hlt := Nat.lt_of_le_of_lt hs.le_max P.width.maxLen_lt
      rw [hlen]
      by_cases hfit : r.pos < 2 ^ P.width.bits
      · rw [tryFrom_of_lt hfit, Option.getD_some]
      · rw [tryFrom_of_ge (Nat.not_lt.1 hfit), Option.getD_none, Nat.min_eq_right (by omega), Nat.min_eq_right (by omega)]
    refine ⟨_, rfl, ?_, ?_, rfl, hb⟩
    · rw [hstart, drop_min, List.take_length]
    · unfold alike
      rw [hstart, drop_min, hmap]

/-- **One call of each**: the answers are alike, the positions stay equal and the buffer stays right. -/
theorem readerStep_alike (hs : Stable P s) (hb : Buffered s r) (hlt : r.pos < 2 ^ 64) {op : ReaderOp} {p : Pair}
    (hlegal : legal p op = true) {oc : Except ReadError ReaderOut} {c : Nat}
    (hc : cursorStep s.bytes op r.pos = some (oc, c)) :
    alike s op r.pos (readerStep P s op r).1 oc ∧ (readerStep P s op r).2.pos = c ∧ c < 2 ^ 64 ∧
      Buffered s (readerStep P s op r).2 := by
  have hlen : s.bytes.length < 2 ^ 64 := Nat.lt_of_le_of_lt hs.le_max P.width.maxLen_lt_u64
  cases op with
  | read n =>
    cases hc
    obtain ⟨hout, hpos, hb'⟩ := read_eq hs hb n
    rw [drop_min]
    refine ⟨?_, hpos, ?_, hb'⟩
    · simp only [alike, readerStep, hout]
      rfl
    · rw [List.length_take, List.length_drop]
      omega
  | seek target =>
    have hgo : ∀ base delta, base < 2 ^ 64 → some (cursorStep.go r.pos base delta) = some (oc, c) →
        (MmapReader.seek.go base delta { r with bufLen := 0 }).1.map ReaderOut.pos = oc ∧
        (MmapReader.seek.go base delta { r with bufLen := 0 }).2.pos = c ∧ c < 2 ^ 64 ∧
        Buffered s (MmapReader.seek.go base delta { r with bufLen := 0 }).2 := by
      intro base delta hbase hcur
      unfold cursorStep.go at hcur
      unfold MmapReader.seek.go
      rw [seek_go_eq hbase]
      cases hadd : checkedAddSigned base delta with
      | none =>
        rw [hadd] at hcur
        cases hcur
        exact ⟨rfl, rfl, hlt, hb.discard r.pos⟩
      | some q =>
        rw [hadd] at hcur
        cases hcur
        refine ⟨rfl, rfl, ?_, hb.discard c⟩
        unfold checkedAddSigned at hadd
        split at hadd
        · cases hadd
          omega
        · cases hadd
    cases target with
    | start n =>
      cases hc
      exact ⟨rfl, rfl, by simpa [legal] using hlegal, hb.discard c⟩
    | fromEnd delta =>
      simp only [alike, readerStep, MmapReader.seek, hs.cachedLen]
      exact hgo _ delta hlen hc
    | current delta =>
      simp only [alike, readerStep, MmapReader.seek]
      exact hgo _ delta hlt hc
  | setPosition q =>
    cases hc
    exact ⟨rfl, rfl, by simpa [legal] using hlegal, hb.discard c⟩
  | fillBuf =>
    cases hc
    obtain ⟨bs, hout, -, halike, hpos, hb'⟩ := fillBuf_eq hs hb
    rw [drop_min]
    refine ⟨?_, hpos, hlt, hb'⟩
    simp only [readerStep, hout]
    exact halike
  | consume amt =>
    simp only [cursorStep] at hc
    split at hc
    · rename_i hfit
      cases hc
      exact ⟨rfl, saturatingAdd_of_lt hfit, hfit, hb.length, hb.le_buf, hb.le_len, hb.bytes⟩
    · cases hc

theorem cursorStep_error {data : List UInt8} {op : ReaderOp} {pos c : Nat} {e : ReadError}
    (h : cursorStep data op pos = some (.error e, c)) : c = pos := by
  have hgo : ∀ base delta, cursorStep.go pos base delta = (.error e, c) → c = pos := by
    intro base delta hg
    unfold cursorStep.go at hg
    cases hadd : checkedAddSigned base delta with
    | none =>
      rw [hadd] at hg
      cases hg
      rfl
    | some q =>
      rw [hadd] at hg
      cases hg
  cases op with
  | seek target =>
    cases target with
    | start n => cases h
    | fromEnd delta => exact hgo _ delta (Option.some.inj h)
    | current delta => exact hgo _ delta (Option.some.inj h)
  | consume amt =>
    simp only [cursorStep] at h
    split at h <;> cases h
  | read n => cases h
  | setPosition q => cases h
  | fillBuf => cases h

theorem got_append {data got bs : List UInt8} {origin pos : Nat} (hgot : got = (data.drop origin).take got.length)
    (hpos : pos = origin + got.length) (hbs : bs = (data.drop pos).take bs.length) :
    got ++ bs = (data.drop origin).take (got ++ bs).length := by
  rw [List.length_append, List.take_add, List.drop_drop, ← hpos, ← hgot, ← hbs]

theorem take_length_take (l : List UInt8) (n : Nat) : l.take n = l.take (l.take n).length := by
  rw [List.length_take, ← List.take_eq_take_min]

theorem alike_error {op : ReaderOp} {pos : Nat} {o oc : Except ReadError ReaderOut} {e : ReadError}
    (h : alike s op pos o oc) (ho : o = .error e) : oc = .error e := by
  unfold alike at h
  split at h
  · obtain ⟨bs, full, hbs, -⟩ := h
    rw [hbs] at ho
    cases ho
  · obtain ⟨bs, full, hbs, -⟩ := h
    rw [hbs] at ho
    cases ho
  · exact h.symm.trans ho

/-- **Every legal call keeps the two in step.** -/
theorem pairStep_inStep (hs : Stable P s) {h h' : Pair} {op : ReaderOp} (hi : InStep s h)
    (hstep : pairStep P s h op = some h') : InStep s h' := by
  unfold pairStep at hstep
  split at hstep
  swap
  · cases hstep
  rename_i hlegal
  rw [Option.map_eq_some_iff] at hstep
  obtain ⟨⟨oc, c⟩, hc, hstep⟩ := hstep
  rw [← hi.pos] at hc
  have hlt : h.reader.pos < 2 ^ 64 := hi.pos ▸ hi.pos_lt
  obtain ⟨halike, hpos, hclt, hb⟩ := readerStep_alike hs hi.buffered hlt hlegal hc
  -- a call that sets the position starts over at it
  have hset : InStep s ⟨(readerStep P s op h.reader).2, c, h.avail, [], c, []⟩ :=
    ⟨hpos, hclt, hb, rfl, rfl, rfl⟩
  cases op with
  | read n =>
    obtain ⟨hout, -, -⟩ := read_eq hs hi.buffered n
    cases hc
    simp only [readerStep, hout, Except.map] at hstep hpos hb
    subst hstep
    rw [drop_min]
    rw [drop_min] at hpos hclt
    refine ⟨hpos, hclt, hb, rfl, ?_, ?_⟩
    · rw [List.length_append, ← Nat.add_assoc, ← hi.cursor, hi.pos]
    · refine got_append hi.got hi.cursor ?_
      rw [hi.pos]
      exact take_length_take _ n
  | seek target =>
    simp only at hstep
    cases hout : (readerStep P s (.seek target) h.reader).1 with
    | ok o =>
      rw [hout] at hstep
      subst hstep
      exact hset
    | error e =>
      have hoc : oc = .error e := halike.symm.trans hout
      rw [hoc] at hc
      have hkeep := (cursorStep_error hc).trans hi.pos
      rw [hout] at hstep
      subst hstep
      exact ⟨hpos, hclt, hb, rfl, hkeep.trans hi.cursor, hi.got⟩
  | setPosition q =>
    subst hstep
    exact hset
  | fillBuf =>
    obtain ⟨bs, hout, hbs, -, hpos', hb'⟩ := fillBuf_eq hs hi.buffered
    cases hc
    simp only [readerStep, hout, Except.map] at hstep
    subst hstep
    exact ⟨hpos', hlt, hb', hbs, hi.pos.trans hi.cursor, hi.got⟩
  | consume amt =>
    simp only at hstep
    split at hstep
    · rename_i hle
      have hcur : c = h.cursor + amt := by
        rw [hi.pos] at hc
        simp only [cursorStep] at hc
        split at hc
        · cases hc
          rfl
        · cases hc
      have hlen : (h.rest.take amt).length = amt := List.length_take_of_le hle
      subst hstep
      refine ⟨hpos, hclt, hb, ?_, ?_, ?_⟩
      · rw [hcur, List.length_drop]
        conv => lhs; rw [hi.rest, List.drop_take, List.drop_drop]
      · rw [hcur, hi.cursor, List.length_append, hlen, Nat.add_assoc]
      · refine got_append hi.got hi.cursor ?_
        rw [hlen]
        conv => lhs; rw [hi.rest, List.take_take, Nat.min_eq_left hle]
    · subst hstep
      exact hset

theorem InStep.consume_lt {h : Pair} (hi : InStep s h) (hs : Stable P s) {amt : Nat} (hamt : amt ≤ h.rest.length) :
    h.cursor + amt < 2 ^ 64 := by
  have hlen : s.bytes.length < 2 ^ 64 := Nat.lt_of_le_of_lt hs.le_max P.width.maxLen_lt_u64
  have hlt := hi.pos_lt
  have hrest := congrArg List.length hi.rest
  rw [List.length_take, List.length_drop] at hrest
  omega

theorem start_inStep (s : Inner) : InStep s Pair.start :=
  ⟨rfl, by decide, ⟨List.length_replicate, Nat.zero_le _, fun h => absurd h (Nat.lt_irrefl 0), rfl⟩, rfl, rfl, rfl⟩

/-- **The reader is a cursor.**  After any legal calls on a mapping whose bytes stay as they are, the two stand at the same
position, what was obtained since the position was last set is the bytes of the mapping from there on, once each and in
order, and the next call is answered alike: the same result and the same position after it, the old one if it fails.
Consuming no more than what is left of the last `fill_buf` never overflows the cursor. -/
theorem reader_is_cursor (P : Platform) (s : Inner) (hs : Stable P s) (ops : List ReaderOp) (h : Pair)
    (hrun : Machine.run (pairStep P s) Pair.start ops = some h) :
    h.reader.pos = h.cursor ∧ h.cursor = h.origin + h.got.length ∧
    h.got = (s.bytes.drop h.origin).take h.got.length ∧
    (∀ amt ≤ h.rest.length, cursorStep s.bytes (.consume amt) h.cursor = some (.ok .unit, h.cursor + amt)) ∧
    ∀ op, legal h op = true → ∀ oc c, cursorStep s.bytes op h.cursor = some (oc, c) →
      alike s op h.cursor (readerStep P s op h.reader).1 oc ∧ (readerStep P s op h.reader).2.pos = c ∧
      ∀ e, (readerStep P s op h.reader).1 = .error e → (readerStep P s op h.reader).2.pos = h.reader.pos := by
  have hi := Machine.run_invariant (InStep s) (fun _ _ _ hi hstep => pairStep_inStep hs hi hstep) ops Pair.start h
    (start_inStep s) hrun
  refine ⟨hi.pos, hi.cursor, hi.got, fun amt hamt => if_pos (hi.consume_lt hs hamt), ?_⟩
  intro op hlegal oc c hc
  rw [← hi.pos] at hc ⊢
  obtain ⟨halike, hpos, -, -⟩ := readerStep_alike hs hi.buffered (hi.pos ▸ hi.pos_lt) hlegal hc
  refine ⟨halike, hpos, ?_⟩
  intro e he
  have hoc : oc = .error e := alike_error halike he
  rw [hoc] at hc
  rw [hpos, cursorStep_error hc]

def threeBytes : Inner :=
  ⟨[1, 2, 3], .rw 3, 3, .readWrite, .never, 0, 0, false, [], []⟩

/-- A failed seek between a buffered byte and a read: the two bytes that were left come next. -/
theorem reader_is_cursor_failedSeek : ∃ h, Machine.run (pairStep linux64 threeBytes) Pair.start
    [.fillBuf, .consume 1, .seek (.current (-2)), .read 5] = some h ∧ h.reader.pos = 3 ∧
    h.got = (threeBytes.bytes.drop h.origin).take 3 := by
  have hd : (Machine.run (pairStep linux64 threeBytes) Pair.start
      [.fillBuf, .consume 1, .seek (.current (-2)), .read 5]).map (fun h => (h.cursor, h.got.length)) = some (3, 3) := by
    decide +kernel
  obtain ⟨h, hrun, hh⟩ := Option.map_eq_some_iff.1 hd
  obtain ⟨hc, hl⟩ := Prod.mk.inj hh
  have hs : Stable linux64 threeBytes := ⟨rfl, rfl, by decide⟩
  obtain ⟨hpos, -, hgot, -⟩ := reader_is_cursor linux64 threeBytes hs _ h hrun
  exact ⟨h, hrun, hpos.trans hc, hl ▸ hgot⟩

end MmapIo
