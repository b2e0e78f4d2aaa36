import MmapIo.Lib.Bytes
import MmapIo.RawRange
import MmapIo.Views
/-!
# Mmap — one mapping and its methods, called one at a time

`MemoryMappedFile` (`mmap.rs`) as a state `Inner` with one function per method.  The state holds the backing file and the
installed mapping; a shared mapping of `len` bytes is the first `len` bytes of the file, a private one has its own bytes.
What the OS answers is an argument (`Os`), so every method is a function of the state, the arguments and those answers;
`set_len`, `map` and the syncs that fail change nothing.  A method returns its `Result` with the state after it.
-/
namespace MmapIo

open Word Bytes

/-- The target: pointer width, `cfg(windows)`, `cfg(target_os = "linux")`, page size and mapping granularity. -/
structure Platform where
  width : Width
  windows : Bool
  linux : Bool
  page : Nat
  granularity : Nat
  page_pow : page.isPowerOfTwo
  page_lt : page < 2 ^ width.bits
  gran_pow : granularity.isPowerOfTwo
  gran_lt : granularity < 2 ^ width.bits

def windows64 : Platform where
  width := .w64
  windows := true
  linux := false
  page := 4096
  granularity := 65536
  page_pow := ⟨12, rfl⟩
  page_lt := by decide
  gran_pow := ⟨16, rfl⟩
  gran_lt := by decide

def linux64 : Platform where
  width := .w64
  windows := false
  linux := true
  page := 4096
  granularity := 4096
  page_pow := ⟨12, rfl⟩
  page_lt := by decide
  gran_pow := ⟨12, rfl⟩
  gran_lt := by decide

/-- What the OS answers to the calls of one method: `none` is success, `some text` an error with its text. -/
structure Os where
  /-- the open of a constructor -/
  openFile : Option String
  /-- `msync(MS_SYNC)` / `FlushViewOfFile` + `FlushFileBuffers` -/
  sync : Option String
  /-- `sync_file_range` / `msync(MS_ASYNC)` -/
  writeback : Option String
  setLen : Option String
  /-- the length query of `map_impl` -/
  metadata : Option String
  map : Option String
  /-- the best-effort `set_len` after a failed grow -/
  restore : Option String
  /-- the empty placeholder of the Windows shrink -/
  placeholder : Option String

def Os.ok : Os := ⟨none, none, none, none, none, none, none, none⟩

inductive MmapMode where
  | readOnly
  | readWrite
  | copyOnWrite
  deriving DecidableEq, Repr

inductive FlushPolicy where
  | never
  | manual
  | always
  | everyBytes (n : Nat)
  | everyWrites (w : Nat)
  | everyMillis (ms : Nat)
  deriving DecidableEq, Repr

/-- `MapVariant`: a read-only or shared mapping of the file's first `len` bytes, or a private copy. -/
inductive MapVariant where
  | ro (len : Nat)
  | rw (len : Nat)
  | cow (bytes : List UInt8)
  deriving DecidableEq, Repr

/-- `Inner`. `flusher` says whether a background flusher is attached, `atomics` are the entries of the live atomic views, and
`syncs` records the spans handed to the OS to be made durable, the latest last. -/
structure Inner where
  file : List UInt8
  map : MapVariant
  cachedLen : Nat
  mode : MmapMode
  flushPolicy : FlushPolicy
  writtenSinceLastFlush : Nat
  writesSinceLastFlush : Nat
  flusher : Bool
  atomics : List AtomicEntry
  syncs : List (Nat × Nat)
  deriving DecidableEq, Repr

namespace Inner

/-- The length of the installed mapping (`MapRead::len`, `guard.len()`). -/
def mapLen (s : Inner) : Nat :=
  match s.map with
  | .ro len | .rw len => len
  | .cow bytes => bytes.length

def bytes (s : Inner) : List UInt8 :=
  match s.map with
  | .ro len | .rw len => s.file.take len
  | .cow bytes => bytes

/-- `guard[start..start + data.len()].copy_from_slice(data)`: a shared mapping writes the file. -/
def store (s : Inner) (start : Nat) (data : List UInt8) : Inner :=
  match s.map with
  | .ro _ => s
  | .rw _ => { s with file := splice s.file start data }
  | .cow bytes => { s with map := .cow (splice bytes start data) }

theorem mapLen_rw {s : Inner} {len : Nat} (h : s.map = .rw len) : s.mapLen = len := by
  rw [mapLen, h]

theorem bytes_rw {s : Inner} {len : Nat} (h : s.map = .rw len) : s.bytes = s.file.take len := by
  rw [bytes, h]

theorem store_rw {s : Inner} {len : Nat} (h : s.map = .rw len) (start : Nat) (data : List UInt8) :
    s.store start data = { s with file := splice s.file start data } := by
  simp only [store, h]

def pendingBytes (s : Inner) : Nat := s.writtenSinceLastFlush

def tracksWrites (s : Inner) : Bool :=
  match s.map with
  | .rw _ => true
  | _ => false

end Inner

def errCowReadOnly : String := "copy-on-write mapping is read-only; open it with open_cow_writable() or the builder's " ++
    "cow_writable(true) to write privately"

/-- `write_lock`: whether the mapping can be written. -/
def writeLock (s : Inner) (msg : String) : Except MmapIoError Unit :=
  match s.map with
  | .ro _ => .error (.invalidMode (if s.mode = .copyOnWrite then errCowReadOnly else msg))
  | .rw _ | .cow _ => .ok ()

theorem writeLock_rw {s : Inner} {len : Nat} (h : s.map = .rw len) (msg : String) : writeLock s msg = .ok () := by
  simp only [writeLock, h]

/-! ## Flushing -/

/-- `Mapping::flush`: the span handed to the OS, if the range is not empty, and the result. -/
def rawFlush (P : Platform) (outcome : Option String) (mapLen offset len : Nat) : Except IoError Unit × Option (Nat × Nat) :=
  match flushSpan P.width 0 mapLen offset len P.page with
  | .error e => (.error (.invalidInput e), none)
  | .ok none => (.ok (), none)
  | .ok (some span) =>
    match outcome with
    | none => (.ok (), some span)
    | some text => (.error (.os text), some span)

/-- `flush_mapped`, on a shared mapping of `len` bytes: the counters are taken before the sync and put back when it
fails. -/
def flushMapped (P : Platform) (os : Os) (len : Nat) (s : Inner) : Except MmapIoError Unit × Inner :=
  let bytes := s.writtenSinceLastFlush
  let writes := s.writesSinceLastFlush
  let s := { s with writtenSinceLastFlush := 0, writesSinceLastFlush := 0 }
  match rawFlush P os.sync len 0 len with
  | (.ok (), span) => (.ok (), { s with syncs := s.syncs ++ span.toList })
  | (.error e, span) =>
    (.error (.flushFailed e.toString),
      { s with
        writtenSinceLastFlush := wrappingAdd 64 s.writtenSinceLastFlush bytes
        writesSinceLastFlush := wrappingAdd 64 s.writesSinceLastFlush writes
        syncs := s.syncs ++ span.toList })

def flush (P : Platform) (os : Os) (s : Inner) : Except MmapIoError Unit × Inner :=
  match s.map with
  | .ro _ | .cow _ => (.ok (), s)
  | .rw len => flushMapped P os len s

def flushRange (P : Platform) (os : Os) (offset len : Nat) (s : Inner) : Except MmapIoError Unit × Inner :=
  if len = 0 then (.ok (), s) else
  match s.map with
  | .ro _ | .cow _ =>
    match sliceRange P.width offset len s.mapLen with
    | .error e => (.error e, s)
    | .ok _ => (.ok (), s)
  | .rw total =>
    match sliceRange P.width offset len total with
    | .error e => (.error e, s)
    | .ok (start, stop) =>
      if start = 0 ∧ stop = total then flush P os s else
      match rawFlush P os.sync total start (stop - start) with
      | (.ok (), span) => (.ok (), { s with syncs := s.syncs ++ span.toList })
      | (.error e, span) => (.error (.flushFailed e.toString), { s with syncs := s.syncs ++ span.toList })

/-- `off64_t::try_from` of a `u64`. -/
def off64 (x : Nat) : Option Nat := if x < 2 ^ 63 then some x else none

/-- `start_writeback` (Linux). -/
def startWriteback (outcome : Option String) (offset len : Nat) : Except IoError Unit :=
  match off64 offset, off64 len with
  | some _, some _ =>
    match outcome with
    | none => .ok ()
    | some text => .error (.os text)
  | _, _ => .error (.os s!"write-back range {offset} + {len} does not fit in off64_t")

def scheduleMapped (P : Platform) (os : Os) (mapLen start count : Nat) : Except MmapIoError Unit :=
  if count = 0 then .ok () else
  match (if P.linux then startWriteback os.writeback start count else (rawFlush P os.writeback mapLen start count).1) with
  | .ok () => .ok ()
  | .error e => .error (.flushFailed s!"schedule_flush: {e.toString}")

def scheduleFlush (P : Platform) (os : Os) (s : Inner) : Except MmapIoError Unit :=
  match s.map with
  | .ro _ | .cow _ => .ok ()
  | .rw len => scheduleMapped P os len 0 len

def scheduleFlushRange (P : Platform) (os : Os) (offset len : Nat) (s : Inner) : Except MmapIoError Unit :=
  if len = 0 then .ok () else
  match s.map with
  | .ro _ | .cow _ => (sliceRange P.width offset len s.mapLen).map (fun _ => ())
  | .rw total =>
    match sliceRange P.width offset len total with
    | .error e => .error e
    | .ok (start, stop) => scheduleMapped P os total start (stop - start)

/-- The decision of `count_update`; `EveryMillis` flushes from its background thread. -/
def FlushPolicy.due (pending writes : Nat) : FlushPolicy → Bool
  | .never | .manual | .everyMillis _ => false
  | .always => true
  | .everyBytes n => decide (n > 0 ∧ pending ≥ n)
  | .everyWrites w => decide (w > 0 ∧ writes ≥ w)

/-- `count_update`: count one `update_region` of `written` bytes; whether the policy asks for a flush. -/
def countUpdate (written : Nat) (s : Inner) : Bool × Inner :=
  if ¬ s.tracksWrites then (false, s) else
  let pending := saturatingAdd 64 s.writtenSinceLastFlush written
  let writes := saturatingAdd 64 s.writesSinceLastFlush 1
  (s.flushPolicy.due pending writes,
    { s with
      writtenSinceLastFlush := wrappingAdd 64 s.writtenSinceLastFlush written
      writesSinceLastFlush := wrappingAdd 64 s.writesSinceLastFlush 1 })

def applyFlushPolicy (P : Platform) (os : Os) (written : Nat) (s : Inner) : Except MmapIoError Unit × Inner :=
  match countUpdate written s with
  | (true, s) => flush P os s
  | (false, s) => (.ok (), s)

def recordWrite (bytes : Nat) (s : Inner) : Inner :=
  if s.tracksWrites then { s with writtenSinceLastFlush := wrappingAdd 64 s.writtenSinceLastFlush bytes } else s

/-- The callback of the `EveryMillis` flusher: flush when something is pending. -/
def flusherCallback (P : Platform) (os : Os) (s : Inner) : Bool × Inner :=
  if s.writtenSinceLastFlush = 0 then (false, s) else
  match flush P os s with
  | (.ok (), s) => (true, s)
  | (.error _, s) => (false, s)

/-! ## Writing -/

def updateRegionWithin (P : Platform) (os : Os) (offset : Nat) (data : List UInt8) (span : Nat) (s : Inner) :
    Except MmapIoError Unit × Inner :=
  match writeLock s "Update region requires ReadWrite or CopyOnWrite mode." with
  | .error e => (.error e, s)
  | .ok () =>
    match sliceRange P.width offset (max span data.length) s.mapLen with
    | .error e => (.error e, s)
    | .ok (start, _) => applyFlushPolicy P os data.length (s.store start data)

def updateRegion (P : Platform) (os : Os) (offset : Nat) (data : List UInt8) (s : Inner) : Except MmapIoError Unit × Inner :=
  if data.isEmpty then (.ok (), s) else updateRegionWithin P os offset data data.length s

/-- `try_update_region`; `free` says whether the lock can be taken at once. -/
def tryUpdateRegion (P : Platform) (os : Os) (free : Bool) (offset : Nat) (data : List UInt8) (s : Inner) :
    Except MmapIoError Bool × Inner :=
  if data.isEmpty then (.ok true, s) else
  match writeLock s "Update region requires ReadWrite or CopyOnWrite mode." with
  | .error e => (.error e, s)
  | .ok () =>
    if ¬ free then (.ok false, s) else
    match sliceRange P.width offset data.length s.mapLen with
    | .error e => (.error e, s)
    | .ok (start, _) =>
      match countUpdate data.length (s.store start data) with
      | (false, s) => (.ok true, s)
      | (true, s) =>
        match flushMapped P os s.mapLen s with
        | (.ok (), s) => (.ok true, s)
        | (.error e, s) => (.error e, s)

/-- Writes through a `&mut [u8]`: any change of the bytes that keeps their number. -/
structure SliceWrite where
  run : List UInt8 → List UInt8
  length_run : ∀ bs, (run bs).length = bs.length

/-- `as_slice_mut`, the writes `f` through the guard it returns, and the drop of the guard. The result is the slice as the
guard first showed it. -/
def asSliceMut (P : Platform) (offset len : Nat) (f : SliceWrite) (s : Inner) : Except MmapIoError (List UInt8) × Inner :=
  match writeLock s "mutable access on read-only mapping" with
  | .error e => (.error e, s)
  | .ok () =>
    match (if len = 0 then .ok (0, 0) else sliceRange P.width offset len s.mapLen) with
    | .error e => (.error e, s)
    | .ok (start, stop) =>
      let shown := s.bytes.extract start stop
      (.ok shown, recordWrite (stop - start) (s.store start (f.run shown)))

/-! ## Reading -/

/-- `MapRead::copy_to`: `len` mapped bytes from `start`. -/
def copyTo (s : Inner) (start len : Nat) : List UInt8 := s.bytes.extract start (start + len)

/-- `read_into` a buffer of `len` bytes: its contents. -/
def readInto (P : Platform) (offset len : Nat) (s : Inner) : Except MmapIoError (List UInt8) :=
  if len = 0 then .ok [] else
  match sliceRange P.width offset len s.mapLen with
  | .error e => .error e
  | .ok (start, _) => .ok (copyTo s start len)

def readBytes (P : Platform) (offset len : Nat) (s : Inner) : Except MmapIoError (List UInt8) :=
  if len = 0 then .ok [] else
  match sliceRange P.width offset len s.mapLen with
  | .error e => .error e
  | .ok (start, stop) => .ok (copyTo s start (stop - start))

/-- `MapRead::into_view`: a plain view is refused over a live atomic one. -/
def intoView (s : Inner) (start stop : Nat) : Except MmapIoError (List UInt8) :=
  match s.map with
  | .ro _ => .ok (s.bytes.extract start stop)
  | .rw _ | .cow _ =>
    if s.atomics.any (fun a => overlaps a.range.start a.range.stop start stop) then .error Conflict.atomicLive.toError
    else .ok (s.bytes.extract start stop)

theorem intoView_ok {s : Inner} {start stop : Nat} {shown : List UInt8} (h : intoView s start stop = .ok shown) :
    shown = s.bytes.extract start stop := by
  unfold intoView at h
  split at h
  · exact (Except.ok.inj h).symm
  all_goals
    split at h
    · cases h
    · exact (Except.ok.inj h).symm

/-- `as_slice`: the bytes the view shows. -/
def asSlice (P : Platform) (offset len : Nat) (s : Inner) : Except MmapIoError (List UInt8) :=
  if len = 0 then .ok [] else
  match sliceRange P.width offset len s.mapLen with
  | .error e => .error e
  | .ok (start, stop) => intoView s start stop

/-- One read of a page walk: a plain byte, or an aligned element of a live atomic view. -/
inductive Touch where
  | byte (off : Nat)
  | element (off size : Nat)
  deriving DecidableEq, Repr

/-- The walk `while off < end { ..; off += page }`. -/
def touchOffsets (page : Nat) (hpage : 0 < page) (stop off : Nat) : List Nat :=
  if off < stop then off :: touchOffsets page hpage stop (off + page) else []
termination_by stop - off

/-- `touch_locked`: the reads of `touch_range_with_ptr`, or of `ViewRegistry::touch` on a locked mapping. -/
def touchLocked (s : Inner) (start len page : Nat) : List Touch :=
  if h : len = 0 ∨ page = 0 then [] else
  let offs := touchOffsets page (by omega) (start + len) start
  match s.map with
  | .ro _ => offs.map .byte
  | .rw _ | .cow _ => offs.map (fun off =>
    match s.atomics.find? (fun a => decide (a.range.start ≤ off ∧ off < a.range.stop)) with
    | some a => .element (off - off % a.size) a.size
    | none => .byte off)

/-- `touch_pages_range`: the reads it makes. -/
def touchPagesRange (P : Platform) (offset len : Nat) (s : Inner) : Except MmapIoError (List Touch) :=
  if len = 0 then .ok [] else
  match sliceRange P.width offset len s.mapLen with
  | .error e => .error e
  | .ok (start, stop) =>
    let firstPage := start - start % P.page
    .ok (touchLocked s firstPage (stop - firstPage) P.page)

/-! ## What the accounting leaves alone

Counting and flushing change the two counters and the record of syncs; `SameData` says that they change nothing else. -/

/-- Same file, mapping and configuration; only the accounting may differ. -/
structure SameData (s s' : Inner) : Prop where
  file : s'.file = s.file
  map : s'.map = s.map
  cachedLen : s'.cachedLen = s.cachedLen
  mode : s'.mode = s.mode
  flushPolicy : s'.flushPolicy = s.flushPolicy
  flusher : s'.flusher = s.flusher
  atomics : s'.atomics = s.atomics

namespace SameData

variable {s s' s'' : Inner}

theorem refl (s : Inner) : SameData s s := ⟨rfl, rfl, rfl, rfl, rfl, rfl, rfl⟩

theorem trans (h : SameData s s') (h' : SameData s' s'') : SameData s s'' :=
  ⟨h'.file.trans h.file, h'.map.trans h.map, h'.cachedLen.trans h.cachedLen, h'.mode.trans h.mode,
    h'.flushPolicy.trans h.flushPolicy, h'.flusher.trans h.flusher, h'.atomics.trans h.atomics⟩

theorem bytes (h : SameData s s') : s'.bytes = s.bytes := by
  unfold Inner.bytes
  rw [h.map, h.file]

theorem mapLen (h : SameData s s') : s'.mapLen = s.mapLen := by
  unfold Inner.mapLen
  rw [h.map]

end SameData

variable (P : Platform) (os : Os)

theorem flushMapped_same (len : Nat) (s : Inner) : SameData s (flushMapped P os len s).2 := by
  unfold flushMapped
  rcases rawFlush P os.sync len 0 len with ⟨r, span⟩
  cases r <;> exact ⟨rfl, rfl, rfl, rfl, rfl, rfl, rfl⟩

theorem flush_same (s : Inner) : SameData s (flush P os s).2 := by
  unfold flush
  split
  · exact SameData.refl s
  · exact SameData.refl s
  · exact flushMapped_same P os _ s

theorem flushRange_same (offset len : Nat) (s : Inner) : SameData s (flushRange P os offset len s).2 := by
  unfold flushRange
  split
  · exact SameData.refl s
  · split
    case h_1 | h_2 => split <;> exact SameData.refl s
    case h_3 total htotal =>
      split
      · exact SameData.refl s
      · split
        · exact flush_same P os s
        · split <;> exact ⟨rfl, rfl, rfl, rfl, rfl, rfl, rfl⟩

theorem countUpdate_same (written : Nat) (s : Inner) : SameData s (countUpdate written s).2 := by
  unfold countUpdate
  split
  · exact SameData.refl s
  · exact ⟨rfl, rfl, rfl, rfl, rfl, rfl, rfl⟩

theorem applyFlushPolicy_same (written : Nat) (s : Inner) : SameData s (applyFlushPolicy P os written s).2 := by
  have hc := countUpdate_same written s
  unfold applyFlushPolicy
  split
  · rename_i s₁ hs₁
    rw [hs₁] at hc
    exact hc.trans (flush_same P os s₁)
  · rename_i s₁ hs₁
    rw [hs₁] at hc
    exact hc

theorem recordWrite_same (bytes : Nat) (s : Inner) : SameData s (recordWrite bytes s) := by
  unfold recordWrite
  split
  · exact ⟨rfl, rfl, rfl, rfl, rfl, rfl, rfl⟩
  · exact SameData.refl s

/-- **`update_region` on a shared mapping**: an empty write does nothing, one that fits is stored in the file and counted,
any other is refused. -/
theorem updateRegion_cases {s : Inner} {len : Nat} (hrw : s.map = .rw len) (hmax : len ≤ P.width.maxLen) (offset : Nat)
    (data : List UInt8) :
    (data = [] ∧ updateRegion P os offset data s = (.ok (), s)) ∨
    (data ≠ [] ∧ offset + data.length ≤ len ∧
      updateRegion P os offset data s = applyFlushPolicy P os data.length { s with file := splice s.file offset data }) ∨
    (data ≠ [] ∧ ¬ offset + data.length ≤ len ∧
      updateRegion P os offset data s = (.error (.outOfBounds offset data.length len), s)) := by
  unfold updateRegion updateRegionWithin
  cases data with
  | nil => exact Or.inl ⟨rfl, rfl⟩
  | cons b data =>
    right
    rw [writeLock_rw hrw, Inner.mapLen_rw hrw, Nat.max_self, sliceRange_eq hmax]
    simp only [List.isEmpty_cons, Bool.false_eq_true, if_false, ne_eq, reduceCtorEq, not_false_eq_true, true_and]
    by_cases hfit : offset + (b :: data).length ≤ len
    · rw [if_pos hfit]
      refine Or.inl ⟨hfit, ?_⟩
      simp only [Inner.store_rw hrw]
    · rw [if_neg hfit]
      exact Or.inr ⟨hfit, rfl⟩

/-- **`try_update_region` with the lock free** stores and counts a write that fits, and flushes when that is due. -/
theorem tryUpdateRegion_of_fits {s : Inner} {len : Nat} (hrw : s.map = .rw len) (hmax : len ≤ P.width.maxLen) {offset : Nat}
    {data : List UInt8} (hne : data ≠ []) (hfit : offset + data.length ≤ len) :
    tryUpdateRegion P os true offset data s =
      match countUpdate data.length (s.store offset data) with
      | (false, s) => (.ok true, s)
      | (true, s) =>
        match flushMapped P os s.mapLen s with
        | (.ok (), s) => (.ok true, s)
        | (.error e, s) => (.error e, s) := by
  simp only [tryUpdateRegion, List.isEmpty_iff, hne, if_false, writeLock_rw hrw, Inner.mapLen_rw hrw, sliceRange_eq hmax, hfit,
    if_true, not_true_eq_false]

/-! ## Syncs that succeed -/

variable {P os}

theorem rawFlush_ok {len offset count : Nat} (hmax : len ≤ P.width.maxLen) (hfit : offset + count ≤ len) :
    (rawFlush P none len offset count).1 = .ok () := by
  unfold rawFlush
  rw [flushSpan_eq (by omega) P.page_pow P.page_lt, if_neg (by omega), if_neg (by omega)]
  by_cases h0 : count = 0
  · rw [if_pos h0]
  · rw [if_neg h0]

theorem flushMapped_ok {s : Inner} {len : Nat} (hsync : os.sync = none) (hmax : len ≤ P.width.maxLen) :
    (flushMapped P os len s).1 = .ok () := by
  have hok : (rawFlush P os.sync len 0 len).1 = .ok () := by
    rw [hsync]
    exact rawFlush_ok hmax (by omega)
  unfold flushMapped
  generalize rawFlush P os.sync len 0 len = r at hok
  obtain ⟨res, span⟩ := r
  simp only at hok
  rw [hok]

theorem flush_ok {s : Inner} (hsync : os.sync = none) (hmax : s.mapLen ≤ P.width.maxLen) : (flush P os s).1 = .ok () := by
  unfold flush
  cases hm : s.map with
  | ro len => rfl
  | cow bytes => rfl
  | rw len => exact flushMapped_ok hsync (Inner.mapLen_rw hm ▸ hmax)

theorem applyFlushPolicy_ok {s : Inner} {written : Nat} (hsync : os.sync = none) (hmax : s.mapLen ≤ P.width.maxLen) :
    (applyFlushPolicy P os written s).1 = .ok () := by
  have hsame := countUpdate_same written s
  unfold applyFlushPolicy
  generalize countUpdate written s = r at hsame
  obtain ⟨due, s₁⟩ := r
  cases due with
  | true => exact flush_ok hsync (by rw [hsame.mapLen]; exact hmax)
  | false => rfl

/-- **`flush_range` on a shared mapping**, when the OS does it: a range that fits is synced, another is refused. -/
theorem flushRange_cases {s : Inner} {total : Nat} (hrw : s.map = .rw total) (hsync : os.sync = none)
    (hmax : total ≤ P.width.maxLen) {offset len : Nat} (hlen : len ≠ 0) :
    (offset + len ≤ total → (flushRange P os offset len s).1 = .ok ()) ∧
    (¬ offset + len ≤ total → flushRange P os offset len s = (.error (.outOfBounds offset len total), s)) := by
  simp only [flushRange, hlen, if_false, hrw, sliceRange_eq hmax]
  refine ⟨fun hfit => ?_, fun hfit => by rw [if_neg hfit]⟩
  rw [if_pos hfit]
  simp only
  split
  · exact flush_ok hsync (by rw [Inner.mapLen_rw hrw]; exact hmax)
  · have hok : (rawFlush P os.sync total offset (offset + len - offset)).1 = .ok () := by
      rw [hsync]
      exact rawFlush_ok hmax (by omega)
    generalize rawFlush P os.sync total offset (offset + len - offset) = r at hok
    obtain ⟨res, span⟩ := r
    simp only at hok
    rw [hok]

theorem scheduleMapped_ok {len start count : Nat} (hwb : os.writeback = none) (hmax : len ≤ P.width.maxLen)
    (hfit : start + count ≤ len) : scheduleMapped P os len start count = .ok () := by
  have hlt : P.width.maxLen < 2 ^ 63 := by cases P.width <;> decide
  unfold scheduleMapped
  by_cases h0 : count = 0
  · rw [if_pos h0]
  · rw [if_neg h0, hwb]
    by_cases hl : P.linux = true
    · simp only [hl, if_true, startWriteback, off64, show start < 2 ^ 63 by omega, show count < 2 ^ 63 by omega]
    · simp only [hl, if_false, Bool.false_eq_true, rawFlush_ok hmax hfit]

end MmapIo
