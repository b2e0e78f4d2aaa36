import MmapIo.Create
import MmapIo.Iterator
import MmapIo.Lib.Machine
/-!
# ByteVec — a shared mapping is a byte vector

The purpose of a `ReadWrite` mapping, stated on its own: a vector of bytes (`vecStep`) with range-checked reads and writes,
a resize that truncates or zero-extends, and flushes that change nothing.  `byte_vector_refinement` shows that on a 64-bit
target, with every OS call succeeding, the methods of the mapping answer every sequence of calls as the vector does.
Clones share the one `Inner`, so a call on any handle is a call on this state.
-/
namespace MmapIo

open Bytes Word

variable {E : Type}

/-- A call of a method. The `try_` method finds the lock free: calls run one at a time and no view is held across them. -/
inductive Op (E : Type) where
  | updateRegion (offset : Nat) (data : List UInt8)
  | tryUpdateRegion (offset : Nat) (data : List UInt8)
  | readInto (offset len : Nat)
  | readBytes (offset len : Nat)
  | asSlice (offset len : Nat)
  | asSliceMut (offset len : Nat) (f : SliceWrite)
  | chunksMut (chunkSize : Nat) (f : ChunkFn E)
  | flush
  | flushRange (offset len : Nat)
  | scheduleFlushRange (offset len : Nat)
  | touchPagesRange (offset len : Nat)
  | resize (newSize : Nat)
  /-- the `EveryMillis` callback runs between two calls -/
  | background

inductive Out (E : Type) where
  | unit
  | flag (b : Bool)
  | bytes (bs : List UInt8)
  | closure (r : Except E Unit)

def mapStep (P : Platform) : Op E → Inner → Except MmapIoError (Out E) × Inner
  | .updateRegion offset data, s =>
    let (r, s) := updateRegion P Os.ok offset data s
    (r.map (fun _ => .unit), s)
  | .tryUpdateRegion offset data, s =>
    let (r, s) := tryUpdateRegion P Os.ok true offset data s
    (r.map .flag, s)
  | .readInto offset len, s => ((readInto P offset len s).map .bytes, s)
  | .readBytes offset len, s => ((readBytes P offset len s).map .bytes, s)
  | .asSlice offset len, s => ((asSlice P offset len s).map .bytes, s)
  | .asSliceMut offset len f, s =>
    let (r, s) := asSliceMut P offset len f s
    (r.map .bytes, s)
  | .chunksMut chunkSize f, s =>
    let (r, s) := forEachMutLegacy f chunkSize s
    (r.map .closure, s)
  | .flush, s =>
    let (r, s) := flush P Os.ok s
    (r.map (fun _ => .unit), s)
  | .flushRange offset len, s =>
    let (r, s) := flushRange P Os.ok offset len s
    (r.map (fun _ => .unit), s)
  | .scheduleFlushRange offset len, s => ((scheduleFlushRange P Os.ok offset len s).map (fun _ => .unit), s)
  | .touchPagesRange offset len, s => ((touchPagesRange P offset len s).map (fun _ => .unit), s)
  | .resize newSize, s =>
    let (r, s) := resize P Os.ok newSize s
    (r.map (fun _ => .unit), s)
  | .background, s => (.ok .unit, (flusherCallback P Os.ok s).2)

/-- A request for `[offset, offset + len)` of a vector: it is granted when empty or in range, else refused with its own
offset and length and the vector's length, and changes nothing. -/
def request (v : List UInt8) (offset len : Nat) (out : Out E) (v' : List UInt8) :
    Except MmapIoError (Out E) × List UInt8 :=
  if len = 0 ∨ offset + len ≤ v.length then (.ok out, v') else (.error (.outOfBounds offset len v.length), v)

def vecStep (w : Width) : Op E → List UInt8 → Except MmapIoError (Out E) × List UInt8
  | .updateRegion offset data, v => request v offset data.length .unit (splice v offset data)
  | .tryUpdateRegion offset data, v => request v offset data.length (.flag true) (splice v offset data)
  | .readInto offset len, v | .readBytes offset len, v | .asSlice offset len, v =>
    request v offset len (.bytes ((v.drop offset).take len)) v
  | .asSliceMut offset len f, v =>
    request v offset len (.bytes ((v.drop offset).take len)) (splice v offset (f.run ((v.drop offset).take len)))
  | .chunksMut chunkSize f, v =>
    if h : chunkSize = 0 then (.ok (.closure (.ok ())), v) else
    let (v, r) := mapChunks f chunkSize (Nat.pos_of_ne_zero h) [] 0 v
    (.ok (.closure r), v)
  | .flush, v | .background, v => (.ok .unit, v)
  | .flushRange offset len, v | .scheduleFlushRange offset len, v | .touchPagesRange offset len, v =>
    request v offset len .unit v
  | .resize newSize, v =>
    if newSize = 0 then (.error (.resizeFailed "New size must be greater than zero"), v)
    else if newSize > w.maxMmapSize then
      (.error (.resizeFailed s!"New size {newSize} exceeds maximum safe limit of {w.maxMmapSize} bytes"), v)
    else (.ok .unit, setLen v newSize 0)

/-- The mapping `s` shows the vector `v`. -/
structure Shows (P : Platform) (s : Inner) (v : List UInt8) : Prop where
  mode : s.mode = .readWrite
  map : s.map = .rw v.length
  cachedLen : s.cachedLen = v.length
  file : s.file = v
  atomics : s.atomics = []
  pos : 0 < v.length
  le_size : v.length ≤ P.width.maxMmapSize

variable {P : Platform} {s : Inner} {v : List UInt8}

theorem maxMmapSize_le_maxLen {w : Width} (h : w = .w64) : w.maxMmapSize ≤ w.maxLen := by
  subst h
  decide

namespace Shows

theorem bytes (h : Shows P s v) : s.bytes = v := by
  rw [Inner.bytes_rw h.map, h.file, List.take_length]

theorem mapLen (h : Shows P s v) : s.mapLen = v.length := Inner.mapLen_rw h.map

theorem same {s' : Inner} (h : Shows P s v) (hs : SameData s s') : Shows P s' v :=
  ⟨hs.mode.trans h.mode, hs.map.trans h.map, hs.cachedLen.trans h.cachedLen, hs.file.trans h.file,
    hs.atomics.trans h.atomics, h.pos, h.le_size⟩

theorem write (h : Shows P s v) {v' : List UInt8} (hlen : v'.length = v.length) : Shows P { s with file := v' } v' :=
  ⟨h.mode, hlen ▸ h.map, hlen ▸ h.cachedLen, rfl, h.atomics, hlen ▸ h.pos, hlen ▸ h.le_size⟩

end Shows

/-- One call answers as the vector does, still shows it, and changes nothing when it fails. -/
structure Agrees (P : Platform) (op : Op E) (s : Inner) (v : List UInt8) : Prop where
  out : (mapStep P op s).1 = (vecStep P.width op v).1
  shows : Shows P (mapStep P op s).2 (vecStep P.width op v).2
  unchanged : ∀ e, (mapStep P op s).1 = .error e → (mapStep P op s).2 = s

/-! ## One call at a time -/

theorem Agrees.ok {op : Op E} {o : Out E} {s' : Inner} {v' : List UInt8} (hm : mapStep P op s = (.ok o, s'))
    (hv : vecStep P.width op v = (.ok o, v')) (hs : Shows P s' v') : Agrees P op s v := by
  refine ⟨by rw [hm, hv], by rw [hm, hv]; exact hs, fun e he => ?_⟩
  rw [hm] at he
  cases he

theorem Agrees.refused {op : Op E} {e : MmapIoError} (hm : mapStep P op s = (.error e, s))
    (hv : vecStep P.width op v = (.error e, v)) (h : Shows P s v) : Agrees P op s v :=
  ⟨by rw [hm, hv], by rw [hm, hv]; exact h, fun _ _ => by rw [hm]⟩

theorem request_ok {offset len : Nat} {out : Out E} {v' : List UInt8} (hfit : len = 0 ∨ offset + len ≤ v.length) :
    request v offset len out v' = (.ok out, v') := if_pos hfit

theorem request_error {offset len : Nat} {out : Out E} {v' : List UInt8} (h0 : len ≠ 0) (hfit : ¬ offset + len ≤ v.length) :
    request v offset len out v' = (.error (.outOfBounds offset len v.length), v) :=
  if_neg fun hc => hc.elim h0 hfit

section Calls

variable (hmax : P.width.maxMmapSize ≤ P.width.maxLen) (h : Shows P s v)
include hmax h

theorem agrees_updateRegion (offset : Nat) (data : List UInt8) : Agrees P (.updateRegion offset data : Op E) s v := by
  have hlen := Nat.le_trans h.le_size hmax
  rcases updateRegion_cases P Os.ok h.map hlen offset data with ⟨rfl, hu⟩ | ⟨hne, hfit, hu⟩ | ⟨hne, hfit, hu⟩
  · refine Agrees.ok (by simp only [mapStep, hu]; rfl) (request_ok (Or.inl rfl)) ?_
    rw [splice_nil]
    exact h
  · have hw : Shows P { s with file := splice s.file offset data } (splice v offset data) := by
      rw [h.file]
      exact h.write (length_splice hfit)
    have hok : (applyFlushPolicy P Os.ok data.length { s with file := splice s.file offset data }).1 = .ok () :=
      applyFlushPolicy_ok rfl (by rw [hw.mapLen]; exact Nat.le_trans hw.le_size hmax)
    exact Agrees.ok (by simp only [mapStep, hu, hok]; rfl) (request_ok (Or.inr hfit))
      (hw.same (applyFlushPolicy_same P Os.ok _ _))
  · exact Agrees.refused (by simp only [mapStep, hu]; rfl) (request_error (mt List.length_eq_zero_iff.1 hne) hfit) h

theorem agrees_tryUpdateRegion (offset : Nat) (data : List UInt8) :
    Agrees P (.tryUpdateRegion offset data : Op E) s v := by
  have hlen := Nat.le_trans h.le_size hmax
  by_cases hnil : data = []
  · subst hnil
    refine Agrees.ok (by simp only [mapStep, tryUpdateRegion]; rfl) (request_ok (Or.inl rfl)) ?_
    rw [splice_nil]
    exact h
  have h0 : data.length ≠ 0 := mt List.length_eq_zero_iff.1 hnil
  by_cases hfit : offset + data.length ≤ v.length
  · have hw : Shows P (s.store offset data) (splice v offset data) := by
      rw [Inner.store_rw h.map, h.file]
      exact h.write (length_splice hfit)
    have hc := hw.same (countUpdate_same data.length (s.store offset data))
    have hstep := tryUpdateRegion_of_fits P Os.ok h.map hlen hnil hfit
    generalize hcount : countUpdate data.length (s.store offset data) = r at hc hstep
    obtain ⟨due, s₁⟩ := r
    cases due with
    | false => exact Agrees.ok (by simp only [mapStep, hstep]; rfl) (request_ok (Or.inr hfit)) hc
    | true =>
      have hsame := flushMapped_same P Os.ok s₁.mapLen s₁
      have hok : (flushMapped P Os.ok s₁.mapLen s₁).1 = .ok () :=
        flushMapped_ok rfl (by rw [hc.mapLen]; exact Nat.le_trans hc.le_size hmax)
      generalize hflush : flushMapped P Os.ok s₁.mapLen s₁ = r at hsame hok hstep
      obtain ⟨res, s₂⟩ := r
      simp only at hok
      subst hok
      simp only [hflush] at hstep
      exact Agrees.ok (by simp only [mapStep, hstep]; rfl) (request_ok (Or.inr hfit)) (hc.same hsame)
  · refine Agrees.refused ?_ (request_error h0 hfit) h
    simp only [mapStep, tryUpdateRegion, List.isEmpty_iff, hnil, if_false, writeLock_rw h.map, h.mapLen, sliceRange_eq hlen,
      hfit]
    rfl

omit hmax in
/-- A call that only looks at a range. -/
theorem agrees_range {op : Op E} {offset len : Nat} {out : Out E}
    (hv : vecStep P.width op v = request v offset len out v) (h0 : len = 0 → mapStep P op s = (.ok out, s))
    (hfit : len ≠ 0 → offset + len ≤ v.length → mapStep P op s = (.ok out, s))
    (hunfit : len ≠ 0 → ¬ offset + len ≤ v.length → mapStep P op s = (.error (.outOfBounds offset len v.length), s)) :
    Agrees P op s v := by
  by_cases hz : len = 0
  · exact Agrees.ok (h0 hz) (hv.trans (request_ok (Or.inl hz))) h
  by_cases hin : offset + len ≤ v.length
  · exact Agrees.ok (hfit hz hin) (hv.trans (request_ok (Or.inr hin))) h
  · exact Agrees.refused (hunfit hz hin) (hv.trans (request_error hz hin)) h

theorem agrees_readInto (offset len : Nat) : Agrees P (.readInto offset len : Op E) s v := by
  have hlen := Nat.le_trans h.le_size hmax
  refine agrees_range h rfl (fun hz => ?_) (fun hz hin => ?_) (fun hz hin => ?_)
  · subst hz
    simp only [mapStep, readInto, if_true, List.take_zero]
    rfl
  · simp only [mapStep, readInto, hz, if_false, h.mapLen, sliceRange_eq hlen, hin, if_true, copyTo, h.bytes,
      List.extract_eq_take_drop, Nat.add_sub_cancel_left]
    rfl
  · simp only [mapStep, readInto, hz, if_false, h.mapLen, sliceRange_eq hlen, hin]
    rfl

theorem agrees_readBytes (offset len : Nat) : Agrees P (.readBytes offset len : Op E) s v := by
  have hlen := Nat.le_trans h.le_size hmax
  refine agrees_range h rfl (fun hz => ?_) (fun hz hin => ?_) (fun hz hin => ?_)
  · subst hz
    simp only [mapStep, readBytes, if_true, List.take_zero]
    rfl
  · simp only [mapStep, readBytes, hz, if_false, h.mapLen, sliceRange_eq hlen, hin, if_true, copyTo, h.bytes,
      List.extract_eq_take_drop, Nat.add_sub_cancel_left]
    rfl
  · simp only [mapStep, readBytes, hz, if_false, h.mapLen, sliceRange_eq hlen, hin]
    rfl

theorem agrees_asSlice (offset len : Nat) : Agrees P (.asSlice offset len : Op E) s v := by
  have hlen := Nat.le_trans h.le_size hmax
  refine agrees_range h rfl (fun hz => ?_) (fun hz hin => ?_) (fun hz hin => ?_)
  · subst hz
    simp only [mapStep, asSlice, if_true, List.take_zero]
    rfl
  · simp only [mapStep, asSlice, hz, if_false, h.mapLen, sliceRange_eq hlen, hin, if_true, intoView, h.map, h.atomics,
      List.any_nil, Bool.false_eq_true, h.bytes, List.extract_eq_take_drop, Nat.add_sub_cancel_left]
    rfl
  · simp only [mapStep, asSlice, hz, if_false, h.mapLen, sliceRange_eq hlen, hin]
    rfl

theorem agrees_touchPagesRange (offset len : Nat) : Agrees P (.touchPagesRange offset len : Op E) s v := by
  have hlen := Nat.le_trans h.le_size hmax
  refine agrees_range h rfl (fun hz => ?_) (fun hz hin => ?_) (fun hz hin => ?_)
  · subst hz
    simp only [mapStep, touchPagesRange, if_true]
    rfl
  · simp only [mapStep, touchPagesRange, hz, if_false, h.mapLen, sliceRange_eq hlen, hin, if_true]
    rfl
  · simp only [mapStep, touchPagesRange, hz, if_false, h.mapLen, sliceRange_eq hlen, hin]
    rfl

theorem agrees_scheduleFlushRange (offset len : Nat) : Agrees P (.scheduleFlushRange offset len : Op E) s v := by
  have hlen := Nat.le_trans h.le_size hmax
  refine agrees_range h rfl (fun hz => ?_) (fun hz hin => ?_) (fun hz hin => ?_)
  · subst hz
    simp only [mapStep, scheduleFlushRange, if_true]
    rfl
  · have hok : scheduleMapped P Os.ok v.length offset (offset + len - offset) = .ok () :=
      scheduleMapped_ok rfl hlen (by omega)
    simp only [mapStep, scheduleFlushRange, hz, if_false, h.map, sliceRange_eq hlen, hin, if_true, hok]
    rfl
  · simp only [mapStep, scheduleFlushRange, hz, if_false, h.map, sliceRange_eq hlen, hin]
    rfl

theorem agrees_flush : Agrees P (.flush : Op E) s v := by
  have hok : (flush P Os.ok s).1 = .ok () := flush_ok rfl (by rw [h.mapLen]; exact Nat.le_trans h.le_size hmax)
  exact Agrees.ok (by simp only [mapStep, hok]; rfl) rfl (h.same (flush_same P Os.ok s))

theorem agrees_flushRange (offset len : Nat) : Agrees P (.flushRange offset len : Op E) s v := by
  have hlen := Nat.le_trans h.le_size hmax
  have hsame := h.same (flushRange_same P Os.ok offset len s)
  by_cases hz : len = 0
  · refine Agrees.ok ?_ (request_ok (Or.inl hz)) h
    simp only [mapStep, flushRange, hz, if_true]
    rfl
  obtain ⟨hok, herr⟩ : (_ → (flushRange P Os.ok offset len s).1 = _) ∧ _ := flushRange_cases h.map rfl hlen hz
  by_cases hin : offset + len ≤ v.length
  · exact Agrees.ok (by simp only [mapStep, hok hin]; rfl) (request_ok (Or.inr hin)) hsame
  · exact Agrees.refused (by simp only [mapStep, herr hin]; rfl) (request_error hz hin) h

theorem agrees_asSliceMut (offset len : Nat) (f : SliceWrite) : Agrees P (.asSliceMut offset len f : Op E) s v := by
  have hlen := Nat.le_trans h.le_size hmax
  by_cases hz : len = 0
  · subst hz
    have hnil : f.run [] = [] := List.length_eq_zero_iff.1 (f.length_run [])
    have hvec : vecStep P.width (.asSliceMut offset 0 f : Op E) v = (.ok (.bytes []), v) := by
      simp only [vecStep, List.take_zero, hnil, splice_nil]
      exact request_ok (Or.inl rfl)
    refine Agrees.ok ?_ hvec (h.same (recordWrite_same 0 s))
    simp only [mapStep, asSliceMut, writeLock_rw h.map, if_true, List.extract_eq_take_drop, Nat.sub_self, List.take_zero,
      hnil, Inner.store_rw h.map, splice_nil]
    rfl
  by_cases hin : offset + len ≤ v.length
  · have hshown : ((v.drop offset).take len).length = len := by
      rw [List.length_take, List.length_drop]
      omega
    have hflen : (f.run ((v.drop offset).take len)).length = len := (f.length_run _).trans hshown
    have hw : Shows P (s.store offset (f.run ((v.drop offset).take len)))
        (splice v offset (f.run ((v.drop offset).take len))) := by
      rw [Inner.store_rw h.map, h.file]
      exact h.write (length_splice (by omega))
    refine Agrees.ok ?_ (request_ok (Or.inr hin)) (hw.same (recordWrite_same len _))
    simp only [mapStep, asSliceMut, writeLock_rw h.map, hz, if_false, h.mapLen, sliceRange_eq hlen, hin, if_true, h.bytes,
      List.extract_eq_take_drop, Nat.add_sub_cancel_left]
    rfl
  · refine Agrees.refused ?_ (request_error hz hin) h
    simp only [mapStep, asSliceMut, writeLock_rw h.map, hz, if_false, h.mapLen, sliceRange_eq hlen, hin]
    rfl

omit hmax in
theorem agrees_chunksMut (chunkSize : Nat) (f : ChunkFn E) : Agrees P (.chunksMut chunkSize f) s v := by
  by_cases hz : chunkSize = 0
  · have hvec : vecStep P.width (.chunksMut chunkSize f) v = (.ok (.closure (.ok ())), v) := by
      simp only [vecStep, hz, dite_true]
    refine Agrees.ok ?_ hvec h
    simp only [mapStep, forEachMutLegacy, drive, writeLock_rw h.map, hz, dite_true]
    rfl
  · have hsize := Nat.pos_of_ne_zero hz
    obtain ⟨hres, hsame⟩ := drive_eq h.map (by rw [h.file]) f hsize
    rw [h.bytes, h.file, List.drop_length, List.append_nil] at hsame
    rw [h.bytes] at hres
    refine Agrees.ok (by simp only [mapStep, forEachMutLegacy, hres]; rfl) (by simp only [vecStep, hz, dite_false]; rfl) ?_
    exact (h.write (length_mapChunks ..)).same hsame

theorem agrees_resize (newSize : Nat) : Agrees P (.resize newSize : Op E) s v := by
  by_cases h0 : newSize = 0
  · refine Agrees.refused ?_ (by simp only [vecStep, h0, if_true]; rfl) h
    simp only [mapStep, resize, h.mode, h0, if_true, ne_eq, not_true_eq_false, if_false]
    rfl
  by_cases hbig : newSize > P.width.maxMmapSize
  · refine Agrees.refused ?_ (by simp only [vecStep, h0, if_false, hbig, if_true]; rfl) h
    simp only [mapStep, resize, h.mode, h0, if_false, ne_eq, not_true_eq_false, hbig, if_true]
    rfl
  have hsize := Nat.not_lt.1 hbig
  have hr := resize_ok (P := P) h.mode h.map (by rw [h.file]) h.cachedLen (Nat.pos_of_ne_zero h0) hsize
    (Nat.le_trans hsize hmax)
  rw [h.file] at hr
  refine Agrees.ok (by simp only [mapStep, hr]; rfl) (by simp only [vecStep, h0, if_false, hbig]; rfl) ?_
  exact ⟨h.mode, by rw [length_setLen], (length_setLen ..).symm, rfl, h.atomics,
    by rw [length_setLen]; exact Nat.pos_of_ne_zero h0, by rw [length_setLen]; exact hsize⟩

omit hmax in
theorem agrees_background : Agrees P (.background : Op E) s v := by
  refine Agrees.ok rfl rfl (h.same ?_)
  have hsame := flush_same P Os.ok s
  unfold flusherCallback
  split
  · exact SameData.refl s
  · generalize flush P Os.ok s = r at hsame
    obtain ⟨res, s'⟩ := r
    cases res <;> exact hsame

end Calls

/-- **Every call answers as the vector does.** -/
theorem agrees (hmax : P.width.maxMmapSize ≤ P.width.maxLen) (h : Shows P s v) : ∀ op : Op E, Agrees P op s v
  | .updateRegion offset data => agrees_updateRegion hmax h offset data
  | .tryUpdateRegion offset data => agrees_tryUpdateRegion hmax h offset data
  | .readInto offset len => agrees_readInto hmax h offset len
  | .readBytes offset len => agrees_readBytes hmax h offset len
  | .asSlice offset len => agrees_asSlice hmax h offset len
  | .asSliceMut offset len f => agrees_asSliceMut hmax h offset len f
  | .chunksMut chunkSize f => agrees_chunksMut h chunkSize f
  | .flush => agrees_flush hmax h
  | .flushRange offset len => agrees_flushRange hmax h offset len
  | .scheduleFlushRange offset len => agrees_scheduleFlushRange hmax h offset len
  | .touchPagesRange offset len => agrees_touchPagesRange hmax h offset len
  | .resize newSize => agrees_resize hmax h newSize
  | .background => agrees_background h

/-- **A shared mapping is a byte vector.** On a 64-bit target, for every admitted size, flush policy and sequence of calls
with every OS call succeeding: the mapping is created, and its answers and its visible bytes are those of a vector that
started as that many zeros; and a call that fails changes nothing at all. -/
theorem byte_vector_refinement (P : Platform) (h64 : P.width = .w64) (n : Nat) (hpos : 1 ≤ n)
    (hn : n ≤ P.width.maxMmapSize) (policy : FlushPolicy) (path : Option (List UInt8)) :
    ∃ s₀, (create P Os.ok policy (some n) path).1 = .ok s₀ ∧ ∀ ops : List (Op E),
      (Machine.exec (mapStep P) ops s₀).1 = (Machine.exec (vecStep P.width) ops (List.replicate n 0)).1 ∧
      (Machine.exec (mapStep P) ops s₀).2.bytes = (Machine.exec (vecStep P.width) ops (List.replicate n 0)).2 ∧
      (Machine.exec (mapStep P) ops s₀).2.cachedLen =
        (Machine.exec (vecStep P.width) ops (List.replicate n 0)).2.length ∧
      ∀ (op : Op E) e, (mapStep P op (Machine.exec (mapStep P) ops s₀).2).1 = .error e →
        (mapStep P op (Machine.exec (mapStep P) ops s₀).2).2 = (Machine.exec (mapStep P) ops s₀).2 := by
  have hmax := maxMmapSize_le_maxLen h64
  obtain ⟨s₀, hc, hfile, hmap, hcached, hmode, hatomics, -⟩ :=
    create_ok policy hpos hn (Nat.le_trans hn hmax) path
  have hlen : (List.replicate n (0 : UInt8)).length = n := List.length_replicate
  have h₀ : Shows P s₀ (List.replicate n 0) :=
    ⟨hmode, by rw [hlen]; exact hmap, by rw [hlen]; exact hcached, hfile, hatomics, by rw [hlen]; exact hpos,
      by rw [hlen]; exact hn⟩
  refine ⟨s₀, hc, fun ops => ?_⟩
  obtain ⟨houts, hlast⟩ := Machine.exec_refines (Shows P)
    (fun op s v h => ⟨(agrees hmax h op).out, (agrees hmax h op).shows⟩) ops s₀ _ h₀
  exact ⟨houts, hlast.bytes, hlast.cachedLen, fun op e he => (agrees hmax hlast op).unchanged e he⟩

/-- A write, a grow and a read past the end, on three bytes. -/
def threeCalls : List (Op Unit) := [.updateRegion 1 [7], .resize 5, .readInto 4 2]

theorem byte_vector_refinement_threeCalls : ∃ s₀, (create linux64 Os.ok .always (some 3) none).1 = .ok s₀ ∧
    (Machine.exec (mapStep linux64) threeCalls s₀).2.bytes = [0, 7, 0, 0, 0] := by
  obtain ⟨s₀, hc, hops⟩ := byte_vector_refinement (E := Unit) linux64 rfl 3 (by decide) (by decide) .always none
  exact ⟨s₀, hc, (hops threeCalls).2.1.trans (by decide)⟩

end MmapIo
