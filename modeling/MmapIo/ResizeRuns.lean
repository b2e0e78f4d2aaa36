import MmapIo.Lib.Machine
import MmapIo.Resize
/-!
# ResizeRuns — resizes under OS failures

Runs of `update_region` and `resize` on one shared mapping whose OS calls succeed or fail at will.  Beside the state a run
carries what the caller may still expect of each byte (`Traced.last`): the value last written at an offset, as long as every
resize asked for since, granted or not, was to a size beyond it.  On Unix the mapping and the file keep every such byte
(`resize_failures_unix`).  On Windows a failed shrink can leave the mapping empty over a file with data; the undo of a
later grow then truncates the file to the empty mapping's length, and that step alone loses data
(`resize_failures_windows`).
-/
namespace MmapIo

open Bytes

/-- A call of a run. -/
inductive Call where
  | update (offset : Nat) (data : List UInt8)
  | resize (newSize : Nat)
  deriving DecidableEq, Repr

/-- The mapping, and the bytes written that no resize since then asked to cut off. -/
structure Traced where
  inner : Inner
  last : Nat → Option UInt8

/-- What may be expected of each byte after a call: an `update_region` that fits writes its bytes, a `resize` gives up
those beyond the size it asks for. -/
def expect (s : Inner) (last : Nat → Option UInt8) : Call → Nat → Option UInt8
  | .update offset data, i =>
    if offset + data.length ≤ s.mapLen ∧ offset ≤ i ∧ i < offset + data.length then data[i - offset]? else last i
  | .resize newSize, i => if i < newSize then last i else none

def call (P : Platform) (os : Os) (s : Inner) : Call → Except MmapIoError Unit × Inner
  | .update offset data => updateRegion P os offset data s
  | .resize newSize => resize P os newSize s

def callStep (P : Platform) (t : Traced) (a : Call × Os) : Option Traced :=
  some ⟨(call P a.2 t.inner a.1).2, expect t.inner t.last a.1⟩

/-- A new shared mapping of a whole file. -/
structure Fresh (P : Platform) (s : Inner) (len : Nat) : Prop where
  mode : s.mode = .readWrite
  map : s.map = .rw len
  cachedLen : s.cachedLen = len
  file : s.file.length = len
  pos : 0 < len
  le_max : len ≤ P.width.maxLen

/-! ## What every call keeps, on both platforms -/

/-- The mapping is shared, inside the file, and `cached_len` is its length. -/
structure Shape (P : Platform) (s : Inner) (len : Nat) : Prop where
  mode : s.mode = .readWrite
  map : s.map = .rw len
  cachedLen : s.cachedLen = len
  le_file : len ≤ s.file.length
  le_max : len ≤ P.width.maxLen

/-- The file has every expected byte; unless it is empty, so does the mapping. -/
structure Remembers (file : List UInt8) (len : Nat) (last : Nat → Option UInt8) : Prop where
  file : ∀ i b, last i = some b → file[i]? = some b
  inside : 0 < len → ∀ i b, last i = some b → i < len

variable {P : Platform} {os : Os} {s : Inner} {len m : Nat} {last : Nat → Option UInt8}

theorem Shape.mapLen (h : Shape P s len) : s.mapLen = len := Inner.mapLen_rw h.map

theorem Shape.same {s' : Inner} (h : Shape P s len) (hs : SameData s s') : Shape P s' len :=
  ⟨hs.mode.trans h.mode, hs.map.trans h.map, hs.cachedLen.trans h.cachedLen, hs.file ▸ h.le_file, h.le_max⟩

theorem Shape.store (h : Shape P s len) {offset : Nat} {data : List UInt8} (hfit : offset + data.length ≤ len) :
    Shape P (s.store offset data) len := by
  have hfile := h.le_file
  rw [Inner.store_rw h.map]
  exact ⟨h.mode, h.map, h.cachedLen, by rw [length_splice (by omega)]; exact hfile, h.le_max⟩

/-- An `update_region` keeps the shape. -/
theorem Shape.update (os : Os) (h : Shape P s len) (offset : Nat) (data : List UInt8) :
    Shape P (updateRegion P os offset data s).2 len := by
  rcases updateRegion_cases P os h.map h.le_max offset data with ⟨-, hu⟩ | ⟨-, hfit, hu⟩ | ⟨-, -, hu⟩ <;> rw [hu]
  · exact h
  · have hstore := h.store hfit
    rw [Inner.store_rw h.map] at hstore
    exact hstore.same (applyFlushPolicy_same P os data.length _)
  · exact h

theorem expect_update_eq {offset : Nat} {data : List UInt8} (h : data = [] ∨ ¬ offset + data.length ≤ s.mapLen) :
    expect s last (.update offset data) = last := by
  funext i
  rw [expect, if_neg]
  rintro ⟨hfit, hlo, hhi⟩
  rcases h with rfl | h
  · exact absurd hhi (Nat.not_lt.2 hlo)
  · exact h hfit

theorem expect_resize_eq_some {i : Nat} {b : UInt8} :
    expect s last (.resize m) i = some b ↔ i < m ∧ last i = some b := by
  rw [expect]
  split
  · rename_i hi
    simp [hi]
  · rename_i hi
    simp [hi]

/-- **An `update_region`** keeps the shape, and the file remembers what it wrote and nothing else changed. -/
theorem update_keeps (os : Os) (h : Shape P s len) (hr : Remembers s.file len last) (offset : Nat) (data : List UInt8) :
    Shape P (updateRegion P os offset data s).2 len ∧
      Remembers (updateRegion P os offset data s).2.file len (expect s last (.update offset data)) ∧
      ∀ i, len ≤ i → (updateRegion P os offset data s).2.file[i]? = s.file[i]? := by
  have hfile := h.le_file
  refine ⟨h.update os offset data, ?_⟩
  rcases updateRegion_cases P os h.map h.le_max offset data with ⟨hnil, hu⟩ | ⟨-, hfit, hu⟩ | ⟨-, hfit, hu⟩
  · rw [hu, expect_update_eq (Or.inl hnil)]
    exact ⟨hr, fun _ _ => rfl⟩
  · rw [hu]
    have hsame := applyFlushPolicy_same P os data.length { s with file := splice s.file offset data }
    rw [hsame.file]
    refine ⟨⟨fun i b hi => ?_, fun hpos i b hi => ?_⟩, fun i hi => ?_⟩
    · rw [expect, h.mapLen] at hi
      rw [getElem?_splice (by omega)]
      by_cases hin : offset ≤ i ∧ i < offset + data.length
      · rw [if_pos ⟨hfit, hin⟩] at hi
        rw [if_pos hin, hi]
      · rw [if_neg (fun hc => hin hc.2)] at hi
        rw [if_neg hin, hr.file i b hi]
    · rw [expect, h.mapLen] at hi
      by_cases hin : offset ≤ i ∧ i < offset + data.length
      · omega
      · rw [if_neg (fun hc => hin hc.2)] at hi
        exact hr.inside hpos i b hi
    · rw [getElem?_splice (by omega), if_neg (by omega)]
  · rw [hu, expect_update_eq (Or.inr (by rw [h.mapLen]; exact hfit))]
    exact ⟨hr, fun _ _ => rfl⟩

/-- The step that loses data: a grow from an empty mapping whose undo truncates the file. -/
def wipes (P : Platform) (os : Os) (s : Inner) : Call → Prop
  | .update _ _ => False
  | .resize m => s.mapLen = 0 ∧ 0 < m ∧ m ≤ P.width.maxMmapSize ∧ os.setLen = none ∧
      (mapFileRw P os m m).toBool = false ∧ os.restore = none

instance (P : Platform) (os : Os) (s : Inner) : ∀ c, Decidable (wipes P os s c)
  | .update _ _ => inferInstanceAs (Decidable False)
  | .resize _ => inferInstanceAs (Decidable (_ ∧ _ ∧ _ ∧ _ ∧ _ ∧ _))

theorem Remembers.resize {file file' : List UInt8} {len' : Nat} (h : Remembers file len last)
    (hfile : ∀ i b, i < m → last i = some b → file[i]? = some b → file'[i]? = some b)
    (hin : 0 < len' → ∀ i b, i < m → last i = some b → i < len') :
    Remembers file' len' (expect s last (.resize m)) := by
  refine ⟨fun i b hi => ?_, fun hpos i b hi => ?_⟩
  · obtain ⟨him, hib⟩ := expect_resize_eq_some.1 hi
    exact hfile i b him hib (h.file i b hib)
  · obtain ⟨him, hib⟩ := expect_resize_eq_some.1 hi
    exact hin hpos i b him hib

/-- **Every `resize`, granted or not, keeps the shape**, at some length. -/
theorem Shape.resized (h : Shape P s len) {r : Except MmapIoError Unit} {s' : Inner} (hz : Resized P os s len m r s') :
    ∃ len', Shape P s' len' := by
  have hfile := h.le_file
  have hmax := h.le_max
  cases hz with
  | refused hm => exact ⟨len, h⟩
  | same hm => exact ⟨len, h.mode, h.map, rfl, hfile, hmax⟩
  | failed hpos hm => exact ⟨len, h.mode, h.map, rfl, hfile, hmax⟩
  | grown hm hmax' => exact ⟨m, h.mode, rfl, rfl, by rw [length_setLen], hmax'⟩
  | undone hm hsize hset hmap hback => exact ⟨len, h.mode, h.map, rfl, by rw [length_setLen], hmax⟩
  | left hm => exact ⟨len, h.mode, h.map, rfl, by rw [length_setLen]; omega, hmax⟩
  | shrunk hpos hm => exact ⟨m, h.mode, rfl, rfl, by rw [length_setLen], by omega⟩
  | emptied hw hpos hm => exact ⟨0, h.mode, rfl, rfl, Nat.zero_le _, Nat.zero_le _⟩
  | cut hw hpos hm => exact ⟨0, h.mode, rfl, rfl, Nat.zero_le _, Nat.zero_le _⟩

/-- **After a `resize` that does not wipe** the file remembers what was not given up. -/
theorem Remembers.resized (h : Shape P s len) (hr : Remembers s.file len last) {r : Except MmapIoError Unit} {s' : Inner}
    (hz : Resized P os s len m r s') (hsafe : ¬ wipes P os s (.resize m)) :
    Remembers s'.file s'.mapLen (expect s last (.resize m)) := by
  -- the mapping was not replaced: what it had to have inside is still inside
  have hold : ∀ {s' : Inner}, s'.mapLen = s.mapLen → 0 < s'.mapLen → ∀ i b, i < m → last i = some b → i < s'.mapLen := by
    intro s' hlen hpos i b _ hib
    rw [hlen, h.mapLen] at hpos ⊢
    exact hr.inside hpos i b hib
  have hcut : ∀ i b, i < m → last i = some b → s.file[i]? = some b → (setLen s.file m 0)[i]? = some b :=
    fun i b him _ hb => getElem?_setLen_of_lt hb him 0
  cases hz with
  | refused hm => exact hr.resize (fun _ _ _ _ hb => hb) (hold rfl)
  | same hm => exact hr.resize (fun _ _ _ _ hb => hb) (hold rfl)
  | failed hpos hm => exact hr.resize (fun _ _ _ _ hb => hb) (hold rfl)
  | grown hm hmax' => exact hr.resize hcut (fun _ i b him _ => him)
  | undone hm hsize hset hmap hback =>
    -- the undo cuts at the mapping's length; a mapping that is not empty has every expected byte
    have hpos : 0 < len := Nat.pos_of_ne_zero fun h0 =>
      hsafe ⟨h.mapLen.trans h0, by omega, hsize, hset, hmap, hback⟩
    refine hr.resize (fun i b him hib hb => ?_) (hold rfl)
    exact getElem?_setLen_of_lt (hcut i b him hib hb) (hr.inside hpos i b hib) 0
  | left hm => exact hr.resize hcut (hold rfl)
  | shrunk hpos hm => exact hr.resize hcut (fun _ i b him _ => him)
  | emptied hw hpos hm => exact hr.resize (fun _ _ _ _ hb => hb) (fun h0 => absurd h0 (Nat.lt_irrefl 0))
  | cut hw hpos hm => exact hr.resize hcut (fun h0 => absurd h0 (Nat.lt_irrefl 0))

/-- **A `resize` that does not wipe** keeps the shape, at some length, and the file remembers what was not given up. -/
theorem resized_keeps (h : Shape P s len) (hr : Remembers s.file len last) {r : Except MmapIoError Unit} {s' : Inner}
    (hz : Resized P os s len m r s') (hsafe : ¬ wipes P os s (.resize m)) :
    ∃ len', Shape P s' len' ∧ Remembers s'.file len' (expect s last (.resize m)) := by
  obtain ⟨len', hshape⟩ := h.resized hz
  have hkept := hr.resized h hz hsafe
  rw [hshape.mapLen] at hkept
  exact ⟨len', hshape, hkept⟩

/-! ## Unix -/

theorem resized_error (hw : P.windows = false) (h : Shape P s len) {e : MmapIoError} {s' : Inner}
    (hz : Resized P os s len m (.error e) s') : s'.mapLen = len ∧ s'.bytes = s.bytes := by
  have hfile := h.le_file
  have hmap := h.map
  cases hz with
  | refused hm => exact ⟨h.mapLen, rfl⟩
  | failed hpos hm => exact ⟨h.mapLen, rfl⟩
  | undone hm hsize hset hmapfail hback =>
    refine ⟨h.mapLen, ?_⟩
    simp only [Inner.bytes, hmap]
    rw [take_setLen (Nat.le_refl _) (by rw [length_setLen]; omega), take_setLen (by omega) hfile]
  | left hm =>
    refine ⟨h.mapLen, ?_⟩
    simp only [Inner.bytes, hmap]
    rw [take_setLen (by omega) hfile]
  | emptied hw' => exact absurd (hw.symm.trans hw') Bool.false_ne_true
  | cut hw' => exact absurd (hw.symm.trans hw') Bool.false_ne_true

/-- Past the mapping the file has only zeros: what a grow that failed left behind. -/
def ZeroTail (s : Inner) : Prop := ∀ i b, s.mapLen ≤ i → s.file[i]? = some b → b = 0

theorem ZeroTail.setLen {s : Inner} (h : ZeroTail s) {i n : Nat} (hlo : s.mapLen ≤ i) (hi : i < n) :
    (setLen s.file n 0)[i]? = some 0 := by
  rw [getElem?_setLen, if_pos hi]
  cases hf : s.file[i]? with
  | none => rfl
  | some b =>
    rw [h i b hlo hf]
    rfl

theorem zeroTail_of_length {s : Inner} (h : s.file.length ≤ s.mapLen) : ZeroTail s := by
  intro i b hlo hi
  rw [List.getElem?_eq_none (by omega)] at hi
  cases hi

theorem resized_zeroTail (hw : P.windows = false) (h : Shape P s len) (ht : ZeroTail s) (hpos : 0 < len)
    {r : Except MmapIoError Unit} {s' : Inner} (hz : Resized P os s len m r s') : ZeroTail s' ∧ 0 < s'.mapLen := by
  have hlen := h.mapLen
  cases hz with
  | refused hm => exact ⟨ht, hlen.symm ▸ hpos⟩
  | same hm => exact ⟨ht, hlen.symm ▸ hpos⟩
  | failed _ hm => exact ⟨ht, hlen.symm ▸ hpos⟩
  | grown hm hmax => exact ⟨zeroTail_of_length (Nat.le_of_eq (length_setLen ..)), Nat.zero_lt_of_lt hm⟩
  | undone hm hsize hset hmap hback =>
    refine ⟨zeroTail_of_length (Nat.le_of_eq ?_), hlen.symm ▸ hpos⟩
    rw [length_setLen]
    exact hlen.symm
  | left hm =>
    refine ⟨fun i b hlo hi => ?_, hlen.symm ▸ hpos⟩
    have him : i < m := by
      have hlt := (List.getElem?_eq_some_iff.1 hi).1
      rw [length_setLen] at hlt
      exact hlt
    rw [ht.setLen hlo him] at hi
    exact (Option.some.inj hi).symm
  | shrunk hm0 hm => exact ⟨zeroTail_of_length (Nat.le_of_eq (length_setLen ..)), hm0⟩
  | emptied hw' => exact absurd (hw.symm.trans hw') Bool.false_ne_true
  | cut hw' => exact absurd (hw.symm.trans hw') Bool.false_ne_true

theorem resized_grown (h : Shape P s len) (ht : ZeroTail s) {s' : Inner} (hz : Resized P os s len m (.ok ()) s') {i : Nat}
    (hlo : len ≤ i) (hhi : i < m) : s'.bytes[i]? = some 0 := by
  cases hz with
  | same hm => exact absurd hhi (by omega)
  | grown hm hmax =>
    rw [Inner.bytes, List.getElem?_take_of_lt hhi]
    exact ht.setLen (by rw [h.mapLen]; exact hlo) hhi
  | shrunk hpos hm => exact absurd hhi (by omega)

structure UnixInv (P : Platform) (t : Traced) : Prop where
  kept : ∃ len, Shape P t.inner len ∧ Remembers t.inner.file len t.last
  pos : 0 < t.inner.mapLen
  tail : ZeroTail t.inner

theorem Fresh.kept (h : Fresh P s len) : Shape P s len ∧ Remembers s.file len (fun _ => none) :=
  ⟨⟨h.mode, h.map, h.cachedLen, Nat.le_of_eq h.file.symm, h.le_max⟩,
    ⟨fun _ _ hi => (by cases hi), fun _ _ _ hi => (by cases hi)⟩⟩

theorem Fresh.unixInv (h : Fresh P s len) : UnixInv P ⟨s, fun _ => none⟩ where
  kept := ⟨len, h.kept⟩
  pos := h.kept.1.mapLen.symm ▸ h.pos
  tail := zeroTail_of_length (by rw [h.file, h.kept.1.mapLen])

/-- **Every call keeps it.** -/
theorem callStep_unixInv (hw : P.windows = false) {t t' : Traced} {a : Call × Os} (h : UnixInv P t)
    (hs : callStep P t a = some t') : UnixInv P t' := by
  obtain ⟨len, hshape, hrem⟩ := h.kept
  obtain ⟨c, os⟩ := a
  cases hs
  cases c with
  | update offset data =>
    obtain ⟨hshape', hrem', hrest⟩ := update_keeps os hshape hrem offset data
    refine ⟨⟨len, hshape', hrem'⟩, hshape'.mapLen.symm ▸ hshape.mapLen ▸ h.pos, fun i b hlo hi => ?_⟩
    have hlo' : len ≤ i := le_of_eq_of_le hshape'.mapLen.symm hlo
    exact h.tail i b (hshape.mapLen.symm ▸ hlo') ((hrest i hlo').symm.trans hi)
  | resize m =>
    have hz : Resized P os t.inner len m _ _ := resize_cases hshape.mode hshape.map m
    have hpos : 0 < len := hshape.mapLen ▸ h.pos
    obtain ⟨htail, hpos'⟩ := resized_zeroTail hw hshape h.tail hpos hz
    exact ⟨resized_keeps hshape hrem hz (fun hwipe => absurd (hshape.mapLen.symm.trans hwipe.1) (by omega)), hpos', htail⟩

/-- **Resizes that fail on Unix.** Whatever the OS answers, after every call of a run the mapping is not empty, lies inside
the file and has the cached length; every byte written and not given up since is in the mapping and in the file; a resize
that fails leaves the mapping's length and bytes unchanged; and a grow that succeeds exposes zeros. -/
theorem resize_failures_unix (hw : P.windows = false) (h : Fresh P s len) (calls : List (Call × Os)) (t : Traced)
    (hr : Machine.run (callStep P) ⟨s, fun _ => none⟩ calls = some t) :
    (t.inner.cachedLen = t.inner.mapLen ∧ 1 ≤ t.inner.mapLen ∧ t.inner.mapLen ≤ t.inner.file.length) ∧
    (∀ i b, t.last i = some b → t.inner.bytes[i]? = some b ∧ t.inner.file[i]? = some b) ∧
    (∀ os m e, (resize P os m t.inner).1 = .error e →
      (resize P os m t.inner).2.mapLen = t.inner.mapLen ∧ (resize P os m t.inner).2.bytes = t.inner.bytes) ∧
    (∀ os m, (resize P os m t.inner).1 = .ok () → ∀ i, t.inner.mapLen ≤ i → i < m →
      (resize P os m t.inner).2.bytes[i]? = some 0) := by
  have hinv := Machine.run_invariant (UnixInv P) (fun _ _ _ hi hs => callStep_unixInv hw hi hs) calls _ t h.unixInv hr
  obtain ⟨len', hshape, hrem⟩ := hinv.kept
  have hpos := hinv.pos
  rw [hshape.mapLen] at hpos ⊢
  refine ⟨⟨hshape.cachedLen, hpos, hshape.le_file⟩, fun i b hib => ?_, fun os m e he => ?_, fun os m hok i hlo hhi => ?_⟩
  · refine ⟨?_, hrem.file i b hib⟩
    rw [Inner.bytes_rw hshape.map, List.getElem?_take_of_lt (hrem.inside hpos i b hib)]
    exact hrem.file i b hib
  · exact resized_error hw hshape (he ▸ resize_cases hshape.mode hshape.map m)
  · exact resized_grown hshape hinv.tail (hok ▸ resize_cases hshape.mode hshape.map m) hlo hhi

/-! ## Windows -/

def NoWipe (P : Platform) : Traced → List (Call × Os) → Prop
  | _, [] => True
  | t, a :: as => ¬ wipes P a.2 t.inner a.1 ∧ ∀ t', callStep P t a = some t' → NoWipe P t' as

theorem callStep_kept {t t' : Traced} {a : Call × Os} (hsafe : ¬ wipes P a.2 t.inner a.1)
    (h : ∃ len, Shape P t.inner len ∧ Remembers t.inner.file len t.last) (hs : callStep P t a = some t') :
    ∃ len, Shape P t'.inner len ∧ Remembers t'.inner.file len t'.last := by
  obtain ⟨len, hshape, hrem⟩ := h
  obtain ⟨c, os⟩ := a
  cases hs
  cases c with
  | update offset data =>
    obtain ⟨hshape', hrem', -⟩ := update_keeps os hshape hrem offset data
    exact ⟨len, hshape', hrem'⟩
  | resize m => exact resized_keeps hshape hrem (resize_cases hshape.mode hshape.map m) hsafe

theorem run_kept : ∀ (calls : List (Call × Os)) (t t' : Traced), NoWipe P t calls →
    (∃ len, Shape P t.inner len ∧ Remembers t.inner.file len t.last) → Machine.run (callStep P) t calls = some t' →
    ∃ len, Shape P t'.inner len ∧ Remembers t'.inner.file len t'.last
  | [], t, t', _, h, hr => by
    cases hr
    exact h
  | a :: as, t, t', hsafe, h, hr => by
    rw [Machine.run_cons, Option.bind_eq_some_iff] at hr
    obtain ⟨t₁, h₁, hr⟩ := hr
    exact run_kept as t₁ t' (hsafe.2 t₁ h₁) (callStep_kept hsafe.1 h h₁) hr

theorem wipes_file (h : Shape P s len) {c : Call} (hwipe : wipes P os s c) : (call P os s c).2.file = [] := by
  cases c with
  | update offset data => exact hwipe.elim
  | resize m =>
    obtain ⟨hzero, hpos, hsize, hset, hmap, hback⟩ := hwipe
    rw [h.mapLen] at hzero
    subst hzero
    have hfit : m < 2 ^ P.width.bits := Nat.lt_of_le_of_lt hsize (by cases P.width <;> decide)
    have hfail : ∃ e, mapFileRw P os m m = .error e := by
      cases hm : mapFileRw P os m m with
      | ok n =>
        rw [hm] at hmap
        cases hmap
      | error e => exact ⟨e, rfl⟩
    obtain ⟨e, he⟩ := hfail
    have hgrow : (growLocked P os 0 m m s).2.file = [] := by
      unfold growLocked
      rw [hset]
      simp only [length_setLen, he, hback]
      exact List.length_eq_zero_iff.1 (length_setLen ..)
    simp only [call, resize, h.mode, h.map, Word.tryFrom_of_lt hfit, resizeLocked]
    rw [if_neg (not_not.2 rfl), if_neg (by omega), if_neg (by omega), if_neg (by omega), if_pos hpos]
    exact hgrow

/-- **Resizes that fail on Windows.** In every run whose calls do not wipe, every byte written and not given up since is
still in the file; and a call that wipes leaves none. -/
theorem resize_failures_windows (h : Fresh P s len) (calls : List (Call × Os)) (t : Traced)
    (hr : Machine.run (callStep P) ⟨s, fun _ => none⟩ calls = some t) (hsafe : NoWipe P ⟨s, fun _ => none⟩ calls) :
    (∀ i b, t.last i = some b → t.inner.file[i]? = some b) ∧
    (∀ c os, wipes P os t.inner c → (call P os t.inner c).2.file = []) := by
  obtain ⟨len', hshape, hrem⟩ := run_kept calls _ t hsafe ⟨len, h.kept⟩ hr
  exact ⟨hrem.file, fun c os hwipe => wipes_file hshape hwipe⟩

/-- A new mapping of ten zero bytes. -/
def tenZeros : Inner where
  file := List.replicate 10 0
  map := .rw 10
  cachedLen := 10
  mode := .readWrite
  flushPolicy := .never
  writtenSinceLastFlush := 0
  writesSinceLastFlush := 0
  flusher := false
  atomics := []
  syncs := []

theorem fresh_tenZeros (P : Platform) : Fresh P tenZeros 10 :=
  ⟨rfl, rfl, rfl, rfl, by decide, by cases hw : P.width <;> decide⟩

/-- A write at offset 3, a shrink whose truncation and remap both fail, and a grow. -/
def shrinkThenGrow (grow : Os) : List (Call × Os) :=
  [(.update 3 [7], Os.ok),
    (.resize 5, { Os.ok with setLen := some "user-mapped section open", map := some "out of address space" }),
    (.resize 20, grow)]

/-- **The undo of a failed grow empties the file**: both resizes asked for more than 3 bytes, and the byte written at
offset 3 is gone. -/
theorem windows_undo_empties_file : Fresh windows64 tenZeros 10 ∧
    ∃ t, Machine.run (callStep windows64) ⟨tenZeros, fun _ => none⟩
      (shrinkThenGrow { Os.ok with map := some "out of address space" }) = some t ∧ t.last 3 = some 7 ∧
      t.inner.file = [] := by
  have hd : (Machine.run (callStep windows64) ⟨tenZeros, fun _ => none⟩
      (shrinkThenGrow { Os.ok with map := some "out of address space" })).map (fun t => (t.last 3, t.inner.file)) =
      some (some 7, []) := by decide
  obtain ⟨t, ht, heq⟩ := Option.map_eq_some_iff.1 hd
  simp only [Prod.mk.injEq] at heq
  exact ⟨fresh_tenZeros windows64, t, ht, heq.1, heq.2⟩

/-- With a grow that succeeds, the same run keeps the byte. -/
theorem resize_failures_windows_grown : ∃ t, Machine.run (callStep windows64) ⟨tenZeros, fun _ => none⟩
    (shrinkThenGrow Os.ok) = some t ∧ t.last 3 = some 7 ∧ t.inner.file[3]? = some 7 := by
  have hd : (Machine.run (callStep windows64) ⟨tenZeros, fun _ => none⟩ (shrinkThenGrow Os.ok)).map (fun t => t.last 3) =
      some (some 7) := by decide
  obtain ⟨t, ht, hlast⟩ := Option.map_eq_some_iff.1 hd
  refine ⟨t, ht, hlast, (resize_failures_windows (fresh_tenZeros windows64) _ t ht ?_).1 3 7 hlast⟩
  refine ⟨by decide, fun t₁ h₁ => ?_⟩
  cases h₁
  refine ⟨by decide, fun t₂ h₂ => ?_⟩
  cases h₂
  exact ⟨by decide, fun _ _ => trivial⟩

/-- On Unix the run that empties the file on Windows keeps the byte in the file and in the mapping. -/
theorem resize_failures_unix_undone : ∃ t, Machine.run (callStep linux64) ⟨tenZeros, fun _ => none⟩
    (shrinkThenGrow { Os.ok with map := some "out of address space" }) = some t ∧ t.last 3 = some 7 ∧
    t.inner.bytes[3]? = some 7 ∧ t.inner.file[3]? = some 7 := by
  have hd : (Machine.run (callStep linux64) ⟨tenZeros, fun _ => none⟩
      (shrinkThenGrow { Os.ok with map := some "out of address space" })).map (fun t => t.last 3) = some (some 7) := by decide
  obtain ⟨t, ht, hlast⟩ := Option.map_eq_some_iff.1 hd
  exact ⟨t, ht, hlast, (resize_failures_unix rfl (fresh_tenZeros linux64) _ t ht).2.1 3 7 hlast⟩

end MmapIo
