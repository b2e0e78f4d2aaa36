import MmapIo.NonShared
import MmapIo.ResizeRuns
/-!
# Segments — segments over a mapping that is resized

`Segment` and `SegmentMut` (`segment.rs`) keep only an offset and a length; what they may touch is decided at each call, by
`is_valid` from the recorded length, by `as_slice` and `as_slice_mut` from the guarded one, and by `write` from the whole
segment under the write lock.  `segments_across_resizes` is about every run of segment writes and resizes, granted or not.
-/
namespace MmapIo
namespace Segments

open Word Bytes Machine
open NonShared (Segment segmentWrite)
open Construct (validateSegment)

/-- A call on the mapping or on a segment of it. -/
inductive Act where
  | resize (newSize : Nat) (os : Os)
  | write (g : Segment) (data : List UInt8) (os : Os)

def Act.isResize : Act → Bool
  | .resize _ _ => true
  | .write _ _ _ => false

def call (P : Platform) : Act → Inner → Except MmapIoError Unit × Inner
  | .resize newSize os, s => MmapIo.resize P os newSize s
  | .write g data os, s => segmentWrite P os g data s

/-- `Segment::is_valid`. -/
def isValid (P : Platform) (g : Segment) (s : Inner) : Bool := (validateSegment P g.offset g.len s).isOk

/-- The whole segment lies in a mapping of `len` bytes. -/
def Inside (g : Segment) (len : Nat) : Prop := g.offset + g.len ≤ len

/-- **A write of `data` at `offset` and the policy after it**: exactly these bytes of the file change, they are added to the
count, and then the policy flushes or not. -/
structure Written (P : Platform) (os : Os) (offset : Nat) (data : List UInt8) (s s' : Inner) : Prop where
  bytes : ∀ i, s'.file[i]? = if offset ≤ i ∧ i < offset + data.length then data[i - offset]? else s.file[i]?
  policy : ∃ due counted, countUpdate data.length (s.store offset data) = (due, counted) ∧
    counted.writtenSinceLastFlush = wrappingAdd 64 s.writtenSinceLastFlush data.length ∧
    s' = if due then (flush P os counted).2 else counted

/-- **What a segment answers** on a mapping of `len` bytes. -/
structure Answers (P : Platform) (g : Segment) (len : Nat) (s : Inner) : Prop where
  valid : isValid P g s = true ↔ g.len = 0 ∨ Inside g len
  slice : isValid P g s = true ↔ ∀ offset n total, asSlice P g.offset g.len s ≠ .error (.outOfBounds offset n total)
  sliceMut : ∀ f, isValid P g s = true ↔ (asSliceMut P g.offset g.len f s).1.isOk = true
  succeeds : ∀ data os, os.sync = none →
    ((segmentWrite P os g data s).1 = .ok () ↔ data = [] ∨ data.length ≤ g.len ∧ Inside g len)
  write : ∀ data os, os.sync = none →
    (data = [] → segmentWrite P os g data s = (.ok (), s)) ∧
    (data ≠ [] → data.length ≤ g.len → Inside g len →
      (segmentWrite P os g data s).1 = .ok () ∧ Written P os g.offset data s (segmentWrite P os g data s).2) ∧
    (g.len < data.length → segmentWrite P os g data s = (.error (.outOfBounds 0 data.length g.len), s)) ∧
    (data ≠ [] → data.length ≤ g.len → ¬ Inside g len →
      segmentWrite P os g data s = (.error (.outOfBounds g.offset g.len len), s))

section

variable {P : Platform} {s : Inner} {len : Nat}

/-- **`SegmentMut::write` on a shared mapping**: too long for the segment, empty, stored and counted, or refused because the
segment is cut off. -/
theorem segmentWrite_cases (os : Os) (h : Shape P s len) (g : Segment) (data : List UInt8) :
    (g.len < data.length ∧ segmentWrite P os g data s = (.error (.outOfBounds 0 data.length g.len), s)) ∨
    (data = [] ∧ segmentWrite P os g data s = (.ok (), s)) ∨
    (data ≠ [] ∧ data.length ≤ g.len ∧ Inside g len ∧
      segmentWrite P os g data s = applyFlushPolicy P os data.length (s.store g.offset data)) ∨
    (data ≠ [] ∧ data.length ≤ g.len ∧ ¬ Inside g len ∧
      segmentWrite P os g data s = (.error (.outOfBounds g.offset g.len len), s)) := by
  unfold segmentWrite
  by_cases hlong : data.length > g.len
  · exact .inl ⟨hlong, if_pos hlong⟩
  rw [if_neg hlong]
  by_cases hnil : data = []
  · exact .inr (.inl ⟨hnil, by rw [hnil]; rfl⟩)
  have hempty : data.isEmpty = false := by
    rw [List.isEmpty_eq_false_iff]
    exact hnil
  rw [hempty, if_neg Bool.false_ne_true, updateRegionWithin, writeLock_rw h.map, h.mapLen,
    Nat.max_eq_left (Nat.not_lt.1 hlong), sliceRange_eq h.le_max]
  by_cases hin : Inside g len
  · exact .inr (.inr (.inl ⟨hnil, Nat.not_lt.1 hlong, hin, by simp only [if_pos (show g.offset + g.len ≤ len from hin)]⟩))
  · exact .inr (.inr (.inr ⟨hnil, Nat.not_lt.1 hlong, hin, by simp only [if_neg (show ¬ g.offset + g.len ≤ len from hin)]⟩))

/-- **What a write that is stored does.** -/
theorem written_applyFlushPolicy (os : Os) (h : Shape P s len) {offset : Nat} {data : List UInt8}
    (hfit : offset + data.length ≤ len) :
    Written P os offset data s (applyFlushPolicy P os data.length (s.store offset data)).2 := by
  have hfile := h.le_file
  have hcounted : (countUpdate data.length (s.store offset data)).2.writtenSinceLastFlush =
      wrappingAdd 64 s.writtenSinceLastFlush data.length := by
    rw [Inner.store_rw h.map, countUpdate, if_neg (by simp [Inner.tracksWrites, h.map])]
  constructor
  · intro i
    rw [(applyFlushPolicy_same P os data.length _).file, Inner.store_rw h.map]
    exact getElem?_splice (by omega) i
  · unfold applyFlushPolicy
    generalize countUpdate data.length (s.store offset data) = r at hcounted
    obtain ⟨due, counted⟩ := r
    refine ⟨due, counted, rfl, hcounted, ?_⟩
    cases due <;> rfl

theorem policy_ok {os : Os} (hsync : os.sync = none) (h : Shape P s len) {g : Segment} {data : List UInt8}
    (hle : data.length ≤ g.len) (hin : Inside g len) :
    (applyFlushPolicy P os data.length (s.store g.offset data)).1 = .ok () := by
  have hshape := h.store (Nat.le_trans (Nat.add_le_add_left hle _) hin)
  exact applyFlushPolicy_ok hsync (by rw [hshape.mapLen]; exact h.le_max)

/-! ## One state -/

theorem isValid_eq (h : Shape P s len) (g : Segment) : isValid P g s = true ↔ g.len = 0 ∨ Inside g len := by
  unfold isValid validateSegment
  rw [h.cachedLen]
  split
  · rename_i h0
    exact iff_of_true rfl (.inl h0)
  · rename_i h0
    rw [Construct.isOk_map, Construct.isOk_sliceRange h.le_max, decide_eq_true_iff]
    exact (or_iff_right h0).symm

theorem asSlice_bounds (h : Shape P s len) (g : Segment) :
    (∀ offset n total, asSlice P g.offset g.len s ≠ .error (.outOfBounds offset n total)) ↔ g.len = 0 ∨ Inside g len := by
  unfold asSlice Inside
  rw [h.mapLen, sliceRange_eq h.le_max]
  by_cases h0 : g.len = 0
  · rw [if_pos h0]
    exact iff_of_true nofun (.inl h0)
  rw [if_neg h0, or_iff_right h0]
  by_cases hin : g.offset + g.len ≤ len
  · rw [if_pos hin]
    refine iff_of_true (fun offset n total => ?_) hin
    simp only [intoView, h.map]
    split <;> nofun
  · rw [if_neg hin]
    exact iff_of_false (fun hno => hno _ _ _ rfl) hin

theorem asSliceMut_bounds (h : Shape P s len) (g : Segment) (f : SliceWrite) :
    (asSliceMut P g.offset g.len f s).1.isOk = true ↔ g.len = 0 ∨ Inside g len := by
  unfold asSliceMut Inside
  rw [writeLock_rw h.map, h.mapLen, sliceRange_eq h.le_max]
  by_cases h0 : g.len = 0
  · rw [if_pos h0]
    exact iff_of_true rfl (.inl h0)
  rw [if_neg h0, or_iff_right h0]
  by_cases hin : g.offset + g.len ≤ len
  · rw [if_pos hin]
    exact iff_of_true rfl hin
  · rw [if_neg hin]
    exact iff_of_false nofun hin

/-- **The three checks agree, and a write does what they say.** -/
theorem answers (h : Shape P s len) (g : Segment) : Answers P g len s where
  valid := isValid_eq h g
  slice := (isValid_eq h g).trans (asSlice_bounds h g).symm
  sliceMut f := (isValid_eq h g).trans (asSliceMut_bounds h g f).symm
  succeeds data os hsync := by
    rcases segmentWrite_cases os h g data with ⟨hlong, hw⟩ | ⟨hnil, hw⟩ | ⟨hne, hle, hin, hw⟩ | ⟨hne, hle, hin, hw⟩ <;> rw [hw]
    · refine iff_of_false nofun ?_
      rintro (rfl | ⟨hle, -⟩)
      · exact Nat.not_lt_zero _ hlong
      · exact Nat.not_le.2 hlong hle
    · exact iff_of_true rfl (.inl hnil)
    · exact iff_of_true (policy_ok hsync h hle hin) (.inr ⟨hle, hin⟩)
    · exact iff_of_false nofun (fun hc => hc.elim hne (fun hc => hin hc.2))
  write data os hsync := by
    rcases segmentWrite_cases os h g data with ⟨hlong, hw⟩ | ⟨hnil, hw⟩ | ⟨hne, hle, hin, hw⟩ | ⟨hne, hle, hin, hw⟩
    · have hne : data ≠ [] := by
        rintro rfl
        exact Nat.not_lt_zero _ hlong
      exact ⟨fun h0 => absurd h0 hne, fun _ hle => absurd hle (Nat.not_le.2 hlong), fun _ => hw,
        fun _ hle => absurd hle (Nat.not_le.2 hlong)⟩
    · exact ⟨fun _ => hw, fun hne => absurd hnil hne, fun hlong => by rw [hnil] at hlong; exact absurd hlong (Nat.not_lt_zero _),
        fun hne => absurd hnil hne⟩
    · have hfit : g.offset + data.length ≤ len := Nat.le_trans (Nat.add_le_add_left hle _) hin
      refine ⟨fun h0 => absurd h0 hne, fun _ _ _ => ?_, fun hlong => absurd hle (Nat.not_le.2 hlong),
        fun _ _ hout => absurd hin hout⟩
      rw [hw]
      exact ⟨policy_ok hsync h hle hin, written_applyFlushPolicy os h hfit⟩
    · exact ⟨fun h0 => absurd h0 hne, fun _ _ hin' => absurd hin' hin, fun hlong => absurd hle (Nat.not_le.2 hlong),
        fun _ _ _ => hw⟩

/-- **Every call keeps the shape**, at some length. -/
theorem call_shape (h : Shape P s len) (a : Act) : ∃ len', Shape P (call P a s).2 len' := by
  cases a with
  | resize m os => exact h.resized (resize_cases h.mode h.map m)
  | write g data os =>
    simp only [call]
    rcases segmentWrite_cases os h g data with ⟨-, hw⟩ | ⟨-, hw⟩ | ⟨-, hle, hin, hw⟩ | ⟨-, -, -, hw⟩ <;> rw [hw]
    · exact ⟨len, h⟩
    · exact ⟨len, h⟩
    · have hfit : g.offset + data.length ≤ len := Nat.le_trans (Nat.add_le_add_left hle _) hin
      exact ⟨len, (h.store hfit).same (applyFlushPolicy_same P os data.length _)⟩
    · exact ⟨len, h⟩

/-! ## Outside the segments

A resize reads the length of the file and never its bytes, so a run goes through the same mappings with its writes and
without them. -/

/-- The same mapping, over files that agree where `D` holds. -/
structure Alike (D : Nat → Prop) (s t : Inner) : Prop where
  mode : s.mode = t.mode
  map : s.map = t.map
  length : s.file.length = t.file.length
  bytes : ∀ i, D i → s.file[i]? = t.file[i]?

variable {D : Nat → Prop} {t : Inner}

theorem Alike.mapLen (h : Alike D s t) : s.mapLen = t.mapLen := by
  unfold Inner.mapLen
  rw [h.map]

theorem Alike.shown (h : Alike D s t) (hrw : s.map = .rw len) {i : Nat} (hi : D i) : s.bytes[i]? = t.bytes[i]? := by
  rw [Inner.bytes_rw hrw, Inner.bytes_rw (h.map ▸ hrw), List.getElem?_take, List.getElem?_take, h.bytes i hi]

theorem Alike.refl (D : Nat → Prop) (s : Inner) : Alike D s s := ⟨rfl, rfl, rfl, fun _ _ => rfl⟩

theorem Alike.setFile (h : Alike D s t) (n : Nat) :
    Alike D { s with file := setLen s.file n 0 } { t with file := setLen t.file n 0 } := by
  refine ⟨h.mode, h.map, by rw [length_setLen, length_setLen], fun i hi => ?_⟩
  rw [getElem?_setLen, getElem?_setLen, h.bytes i hi]

theorem Alike.setMap (h : Alike D s t) (n : Nat) : Alike D { s with map := .rw n } { t with map := .rw n } :=
  ⟨h.mode, rfl, h.length, h.bytes⟩

theorem growLocked_alike (os : Os) (h : Alike D s t) (currentSize newSize newLen : Nat) :
    Alike D (growLocked P os currentSize newSize newLen s).2 (growLocked P os currentSize newSize newLen t).2 := by
  unfold growLocked
  cases os.setLen with
  | some text => exact h
  | none =>
    simp only [length_setLen]
    cases mapFileRw P os newSize newLen with
    | ok n => exact (h.setFile newSize).setMap n
    | error e =>
      cases os.restore with
      | none => exact (h.setFile newSize).setFile currentSize
      | some text => exact h.setFile newSize

theorem shrinkLockedUnix_alike (os : Os) (h : Alike D s t) (newSize newLen : Nat) :
    Alike D (shrinkLockedUnix P os newSize newLen s).2 (shrinkLockedUnix P os newSize newLen t).2 := by
  unfold shrinkLockedUnix
  rw [h.length]
  cases mapFileRw P os t.file.length newLen with
  | error e => exact h
  | ok n =>
    cases os.setLen with
    | some text => exact h
    | none => exact (h.setFile newSize).setMap n

theorem shrinkLockedWindows_alike (os : Os) (h : Alike D s t) (currentLen newSize newLen : Nat) :
    Alike D (shrinkLockedWindows P os currentLen newSize newLen s).2
      (shrinkLockedWindows P os currentLen newSize newLen t).2 := by
  unfold shrinkLockedWindows
  cases os.placeholder with
  | some text => exact h
  | none =>
    cases os.setLen with
    | some text =>
      simp only [h.length]
      cases mapFileRw P os t.file.length currentLen with
      | error e => exact h.setMap 0
      | ok n => exact h.setMap n
    | none =>
      simp only [length_setLen]
      cases mapFileRw P os newSize newLen with
      | error e => exact (h.setFile newSize).setMap 0
      | ok n => exact (h.setFile newSize).setMap n

/-- **A resize does not look at the bytes.** -/
theorem resize_alike (os : Os) (h : Alike D s t) (newSize : Nat) :
    Alike D (MmapIo.resize P os newSize s).2 (MmapIo.resize P os newSize t).2 := by
  unfold MmapIo.resize
  rw [h.mode, h.map]
  by_cases hmode : t.mode ≠ .readWrite
  · rw [if_pos hmode, if_pos hmode]
    exact h
  rw [if_neg hmode, if_neg hmode]
  by_cases h0 : newSize = 0
  · rw [if_pos h0, if_pos h0]
    exact h
  rw [if_neg h0, if_neg h0]
  by_cases hmax : newSize > P.width.maxMmapSize
  · rw [if_pos hmax, if_pos hmax]
    exact h
  rw [if_neg hmax, if_neg hmax]
  cases tryFrom P.width.bits newSize with
  | none => exact h
  | some newLen =>
    cases t.map with
    | ro len => exact h
    | cow bytes => exact h
    | rw len =>
      have hlocked : Alike D (resizeLocked P os len newSize newLen s).2 (resizeLocked P os len newSize newLen t).2 := by
        unfold resizeLocked
        by_cases heq : newLen = len
        · rw [if_pos heq, if_pos heq]
          exact h
        rw [if_neg heq, if_neg heq]
        by_cases hgrow : len < newLen
        · rw [if_pos hgrow, if_pos hgrow]
          exact growLocked_alike os h ..
        rw [if_neg hgrow, if_neg hgrow]
        cases P.windows with
        | true => exact shrinkLockedWindows_alike os h ..
        | false => exact shrinkLockedUnix_alike os h ..
      exact ⟨hlocked.mode, hlocked.map, hlocked.length, hlocked.bytes⟩

/-- **A segment write changes nothing outside its segment.** -/
theorem write_alike (h : Shape P s len) (ha : Alike D s t) {g : Segment} (data : List UInt8) (os : Os)
    (hg : ∀ i, D i → ¬ (g.offset ≤ i ∧ i < g.offset + g.len)) : Alike D (segmentWrite P os g data s).2 t := by
  rcases segmentWrite_cases os h g data with ⟨-, hw⟩ | ⟨-, hw⟩ | ⟨-, hle, hin, hw⟩ | ⟨-, -, -, hw⟩ <;> rw [hw]
  · exact ha
  · exact ha
  · have hfit : g.offset + data.length ≤ len := Nat.le_trans (Nat.add_le_add_left hle _) hin
    have hfile := h.le_file
    have hsame := applyFlushPolicy_same P os data.length (s.store g.offset data)
    rw [Inner.store_rw h.map] at hsame ⊢
    refine ⟨hsame.mode.trans ha.mode, hsame.map.trans ha.map, ?_, fun i hi => ?_⟩
    · rw [hsame.file, length_splice (by omega), ha.length]
    · have hout := hg i hi
      rw [hsame.file, getElem?_splice (by omega), if_neg (by omega), ha.bytes i hi]
  · exact ha

/-- **Segments across resizes.**  On every shared mapping, after every run of segment writes and resizes, granted or
refused or failed on the way: `is_valid`, `as_slice` and `as_slice_mut` accept a segment exactly when it is empty or ends
inside the mapping of now, and a write succeeds, changes and counts its bytes or is refused with the right numbers and no
effect; and the bytes outside the segments written are those of the same run without its writes. -/
theorem segments_across_resizes (P : Platform) {s₀ : Inner} {len₀ : Nat} (h₀ : Shape P s₀ len₀) (acts : List Act) :
    (∃ len, (exec (call P) acts s₀).2.map = .rw len ∧ ∀ g, Answers P g len (exec (call P) acts s₀).2) ∧
    ∀ i, (∀ g data os, Act.write g data os ∈ acts → ¬ (g.offset ≤ i ∧ i < g.offset + g.len)) →
      (exec (call P) acts s₀).2.file[i]? = (exec (call P) (acts.filter Act.isResize) s₀).2.file[i]? ∧
      (exec (call P) acts s₀).2.bytes[i]? = (exec (call P) (acts.filter Act.isResize) s₀).2.bytes[i]? := by
  obtain ⟨len, hshape⟩ := exec_invariant (fun s => ∃ len, Shape P s len) (fun a s h => call_shape h.choose_spec a) acts s₀
    ⟨len₀, h₀⟩
  refine ⟨⟨len, hshape.map, fun g => answers hshape g⟩, fun i hi => ?_⟩
  have halike : Alike (fun j => j = i) (exec (call P) acts s₀).2 (exec (call P) (acts.filter Act.isResize) s₀).2 := by
    refine (exec_erased Act.isResize (fun s t => (∃ len, Shape P s len) ∧ Alike (fun j => j = i) s t) ?_ acts s₀ s₀ ?_
      ⟨⟨len₀, h₀⟩, Alike.refl _ s₀⟩).2
    · rintro a s t hk ⟨⟨len, hs⟩, ha⟩
      cases a with
      | resize m os => exact ⟨call_shape hs _, resize_alike os ha m⟩
      | write g data os => cases hk
    · rintro a hmem hk s t ⟨⟨len, hs⟩, ha⟩
      cases a with
      | resize m os => cases hk
      | write g data os =>
        refine ⟨call_shape hs _, write_alike hs ha data os ?_⟩
        rintro j rfl
        exact hi g data os hmem
  exact ⟨halike.bytes i rfl, halike.shown hshape.map rfl⟩

end

/-- A shared mapping of 8 zero bytes. -/
def eightZeros : Inner := ⟨[0, 0, 0, 0, 0, 0, 0, 0], .rw 8, 8, .readWrite, .never, 0, 0, false, [], []⟩

theorem eightZeros_shape : Shape linux64 eightZeros 8 := ⟨rfl, rfl, rfl, by decide, by decide⟩

/-- The segment `[4, 8)`: written, cut off by a shrink to 6 bytes, and refused there although the data would fit. -/
theorem segments_across_resizes_cut : ∃ s, (exec (call linux64) [.write ⟨4, 4⟩ [1, 2] Os.ok, .resize 6 Os.ok] eightZeros).2 = s ∧
    isValid linux64 ⟨4, 4⟩ s = false ∧
    segmentWrite linux64 Os.ok ⟨4, 4⟩ [9] s = (.error (.outOfBounds 4 4 6), s) ∧ s.file[3]? = some 0 := by
  obtain ⟨⟨len, hmap, hanswers⟩, hout⟩ := segments_across_resizes linux64 eightZeros_shape
    [.write ⟨4, 4⟩ [1, 2] Os.ok, .resize 6 Os.ok]
  obtain rfl : len = 6 := by
    have h6 : (exec (call linux64) [.write ⟨4, 4⟩ [1, 2] Os.ok, .resize 6 Os.ok] eightZeros).2.map = .rw 6 := by rfl
    rw [h6] at hmap
    exact (MapVariant.rw.inj hmap).symm
  refine ⟨_, rfl, by rfl, ((hanswers ⟨4, 4⟩).write [9] Os.ok rfl).2.2.2 (by decide) (by decide) (by unfold Inside; decide), ?_⟩
  rw [(hout 3 (fun g data os h => ?_)).1]
  · rfl
  · simp only [List.mem_cons, Act.write.injEq, reduceCtorEq, List.not_mem_nil, or_false] at h
    rw [h.1]
    decide

end Segments
end MmapIo
