import MmapIo.NonSharedVec
import MmapIo.Sections
/-!
# Atomicity — the methods of a shared mapping are linearizable

Every section of `Sections`, run alone, does what the method does when it is called on its own (`does_serial`): the bytes
copied one at a time add up to the splice, the uses of a guard to one write of its range, the chunks to `drive`, the OS calls
of a resize to `resize` with these answers of the OS.  With the lock keeping the sections apart, every run of any number of
calls, interleaved access by access, is a run of the methods one after the other (`calls_linearizable`).
-/
namespace MmapIo
namespace Sections

open Word Bytes Linear
open NonShared (Segment segmentWrite)

variable {E : Type} {P : Platform} {σ s s' : Inner} {len : Nat} {ins : List In}

theorem SameData.symm (h : SameData s s') : SameData s' s :=
  ⟨h.file.symm, h.map.symm, h.cachedLen.symm, h.mode.symm, h.flushPolicy.symm, h.flusher.symm, h.atomics.symm⟩

/-! ## The mapping -/

/-- What `len` mapped bytes lie over: the file, or private pages over a file of that length. -/
inductive Over (s : Inner) (len : Nat) : Option (List UInt8) → Prop
  | file (mode : s.mode = .readWrite) (map : s.map = .rw len) (le_file : len ≤ s.file.length) : Over s len none
  | pages {bytes : List UInt8} (mode : s.mode ≠ .readWrite) (map : s.map = .cow bytes) (length : bytes.length = len)
      (file : s.file.length = len) : Over s len (some s.file)

/-- A writable mapping of `len` bytes. -/
structure Mapped (P : Platform) (base : Option (List UInt8)) (s : Inner) (len : Nat) : Prop where
  base : Over s len base
  cachedLen : s.cachedLen = len
  le_max : len ≤ P.width.maxLen

variable {base : Option (List UInt8)}

namespace Mapped

theorem of_shape (h : Shape P s len) : Mapped P none s len := ⟨.file h.mode h.map h.le_file, h.cachedLen, h.le_max⟩

theorem shape (h : Mapped P none s len) : Shape P s len := by
  obtain ⟨hover, hcached, hmax⟩ := h
  cases hover with
  | file mode map le_file => exact ⟨mode, map, hcached, le_file, hmax⟩

theorem mapLen (h : Mapped P base s len) : s.mapLen = len := by
  cases h.base with
  | file _ map _ => exact Inner.mapLen_rw map
  | pages _ map length _ => rw [NonShared.mapLen_cow map, length]

theorem length_bytes (h : Mapped P base s len) : s.bytes.length = len := by
  cases h.base with
  | file _ map le_file => rw [Inner.bytes_rw map, List.length_take, Nat.min_eq_left le_file]
  | pages _ map length _ => rw [NonShared.bytes_cow map, length]

theorem le_file (h : Mapped P base s len) : len ≤ s.file.length := by
  cases h.base with
  | file _ _ le_file => exact le_file
  | pages _ _ _ file => exact Nat.le_of_eq file.symm

theorem writeLock (h : Mapped P base s len) (msg : String) : MmapIo.writeLock s msg = .ok () := by
  cases h.base with
  | file _ map _ => exact writeLock_rw map msg
  | pages _ map _ _ => exact NonShared.writeLock_cow map msg

theorem store (h : Mapped P base s len) {start : Nat} {data : List UInt8} (hfit : start + data.length ≤ len) :
    Mapped P base (s.store start data) len := by
  obtain ⟨hover, hcached, hmax⟩ := h
  cases hover with
  | file mode map le_file =>
    rw [Inner.store_rw map]
    exact ⟨.file mode map (by rw [length_splice (by omega)]; exact le_file), hcached, hmax⟩
  | pages mode map length file =>
    rw [NonShared.store_cow map]
    exact ⟨.pages mode rfl (by rw [length_splice (by omega)]; exact length) file, hcached, hmax⟩

theorem bytes_store (h : Mapped P base s len) {start : Nat} {data : List UInt8} (hfit : start + data.length ≤ len) :
    (s.store start data).bytes = splice s.bytes start data := by
  cases h.base with
  | file _ map le_file =>
    have hmap : (s.store start data).map = .rw len := by
      rw [Inner.store_rw map]
      exact map
    rw [Inner.bytes_rw hmap, Inner.bytes_rw map, Inner.store_rw map]
    apply List.ext_getElem?
    intro i
    rw [getElem?_splice (by rw [List.length_take]; omega), List.getElem?_take, List.getElem?_take, getElem?_splice (by omega)]
    by_cases hi : i < len
    · rw [if_pos hi, if_pos hi]
    · rw [if_neg hi, if_neg hi, if_neg (by omega)]
  | pages _ map _ _ =>
    rw [NonShared.store_cow map, NonShared.bytes_cow map]
    rfl

theorem store_nil (h : Mapped P base s len) (start : Nat) : s.store start [] = s := by
  cases h.base with
  | file _ map _ => rw [Inner.store_rw map, splice_nil]
  | pages _ map _ _ => rw [NonShared.store_cow map, splice_nil, ← map]

/-- **A store after a store** is one store, when the two splices are one. -/
theorem store_store (h : Mapped P base s len) {a b c : Nat} {x y z : List UInt8}
    (hs : ∀ buf : List UInt8, len ≤ buf.length → splice (splice buf a x) b y = splice buf c z) :
    (s.store a x).store b y = s.store c z := by
  cases h.base with
  | file _ map le_file => simp only [Inner.store, map, hs _ le_file]
  | pages _ map length _ => simp only [Inner.store, map, hs _ (Nat.le_of_eq length.symm)]

end Mapped

/-! ## What a call is given -/

theorem usesOf_append (ins rest : List In) : usesOf (ins ++ rest) = usesOf ins ++ usesOf rest := List.filterMap_append ..

theorem readsOf_append (ins rest : List In) : readsOf (ins ++ rest) = readsOf ins ++ readsOf rest := List.filterMap_append ..

theorem answersOf_append (ins rest : List In) : answersOf (ins ++ rest) = answersOf ins ++ answersOf rest :=
  List.filterMap_append ..

theorem mapAnswersOf_append (ins rest : List In) : mapAnswersOf (ins ++ rest) = mapAnswersOf ins ++ mapAnswersOf rest :=
  List.filterMap_append ..

/-! ## Read sections -/

/-- **A copy** has the bytes of its range up to where it is. -/
theorem looks_copy (h : Mapped P base σ len) {offset n : Nat} {l : RLoc}
    (hl : Looks (mapping P : Object _ _ (Op E) _ _ _ _) σ (.copyCheck offset n) ins l) :
    l = .copyCheck offset n ∨
      ∃ dst, l = .copy offset n dst ∧ offset + n ≤ len ∧ dst.length ≤ n ∧ dst = (σ.bytes.drop offset).take dst.length := by
  induction hl with
  | start => exact Or.inl rfl
  | @next ins l l' i _ hlook ih =>
    refine Or.inr ?_
    rcases ih with rfl | ⟨dst, rfl, hfit, hle, hdst⟩ <;> cases i <;> simp only [mapping, look, reduceCtorEq] at hlook
    · rw [h.mapLen, sliceRange_eq h.le_max] at hlook
      by_cases hfit : offset + n ≤ len
      · rw [if_pos hfit] at hlook
        simp only [Nat.add_sub_cancel_left] at hlook
        cases hlook
        exact ⟨[], rfl, hfit, Nat.zero_le _, rfl⟩
      · rw [if_neg hfit] at hlook
        cases hlook
    · split at hlook
      · rename_i hlt
        obtain ⟨b, hb, hlook⟩ := Option.map_eq_some_iff.1 hlook
        cases hlook
        refine ⟨dst ++ [b], rfl, hfit, by rw [List.length_append]; exact hlt, ?_⟩
        rw [List.length_append, List.length_singleton, List.take_add_one, ← hdst, List.getElem?_drop, hb]
        rfl
      · cases hlook

theorem copyTo_eq (s : Inner) (start n : Nat) : copyTo s start n = (s.bytes.drop start).take n := by
  rw [copyTo, List.extract, Nat.add_sub_cancel_left]

/-- **`read_into` and `read_bytes`** return the bytes of the range, or refuse it. -/
theorem copy_serial (h : Mapped P base σ len) {offset n : Nat} {l : RLoc} {i : In} {r : Out E}
    (hl : Looks (mapping P : Object _ _ (Op E) _ _ _ _) σ (.copyCheck offset n) ins l)
    (hlast : look P l i σ = some (.inr r)) (h0 : n ≠ 0) :
    r = .bytes (readInto P offset n σ) ∧ r = .bytes (readBytes P offset n σ) := by
  unfold readInto readBytes
  rw [if_neg h0, if_neg h0, h.mapLen, sliceRange_eq h.le_max]
  rcases looks_copy h hl with rfl | ⟨dst, rfl, hfit, hle, hdst⟩ <;> cases i <;> simp only [look, reduceCtorEq] at hlast
  · rw [h.mapLen, sliceRange_eq h.le_max] at hlast
    by_cases hfit : offset + n ≤ len
    · rw [if_pos hfit] at hlast
      cases hlast
    · rw [if_neg hfit] at hlast ⊢
      cases hlast
      exact ⟨rfl, rfl⟩
  · split at hlast
    · rw [Option.map_eq_some_iff] at hlast
      obtain ⟨b, -, hlast⟩ := hlast
      cases hlast
    · rename_i hge
      cases hlast
      have hlen : dst.length = n := by omega
      rw [hlen] at hdst
      simp only [if_pos hfit, Nat.add_sub_cancel_left, copyTo_eq, ← hdst, and_self]

/-- **A view** was granted, and every byte read through it is one it shows. -/
theorem looks_view {offset n : Nat} {l : RLoc}
    (hl : Looks (mapping P : Object _ _ (Op E) _ _ _ _) σ (.viewCheck offset n) ins l) :
    l = .viewCheck offset n ∧ ins = [] ∨ ∃ start stop shown,
      l = .view start stop ((readsOf ins).filterMap (shown[·]?)) ∧ sliceRange P.width offset n σ.mapLen = .ok (start, stop) ∧
      intoView σ start stop = .ok shown ∧ shown = σ.bytes.extract start stop := by
  induction hl with
  | start => exact Or.inl ⟨rfl, rfl⟩
  | @next ins l l' i _ hlook ih =>
    refine Or.inr ?_
    rcases ih with ⟨rfl, rfl⟩ | ⟨start, stop, shown, rfl, hrange, hview, hshown⟩ <;> cases i <;>
      simp only [mapping, look, reduceCtorEq] at hlook
    · split at hlook
      · cases hlook
      · rename_i start stop hrange
        split at hlook
        · cases hlook
        · rename_i shown hview
          cases hlook
          exact ⟨start, stop, shown, rfl, hrange, hview, intoView_ok hview⟩
    · rename_i k
      split at hlook
      · rename_i hk
        obtain ⟨b, hb, hlook⟩ := Option.map_eq_some_iff.1 hlook
        cases hlook
        have hbyte : shown[k]? = some b := by
          rw [hshown, List.extract, List.getElem?_take_of_lt hk, List.getElem?_drop, hb]
        refine ⟨start, stop, shown, ?_, hrange, hview, hshown⟩
        rw [readsOf_append, List.filterMap_append, show readsOf [.get k] = [k] from rfl, List.filterMap_cons, hbyte]
        rfl
      · cases hlook
    · cases hlook

theorem asSlice_error {offset n : Nat} {e : MmapIoError} (h0 : n ≠ 0) (h : sliceRange P.width offset n σ.mapLen = .error e) :
    asSlice P offset n σ = .error e := by
  unfold asSlice
  rw [if_neg h0, h]

theorem asSlice_range {offset n start stop : Nat} (h0 : n ≠ 0)
    (h : sliceRange P.width offset n σ.mapLen = .ok (start, stop)) : asSlice P offset n σ = intoView σ start stop := by
  unfold asSlice
  rw [if_neg h0, h]

/-- **`as_slice`** with its reads. -/
theorem view_serial {offset n : Nat} {l : RLoc} {i : In} {r : Out E}
    (hl : Looks (mapping P : Object _ _ (Op E) _ _ _ _) σ (.viewCheck offset n) ins l)
    (hlast : look P l i σ = some (.inr r)) (h0 : n ≠ 0) :
    r = .view ((useView P offset n (readsOf (ins ++ [i])) σ).map some) := by
  unfold useView
  rcases looks_view hl with ⟨rfl, rfl⟩ | ⟨start, stop, shown, rfl, hrange, hview, -⟩ <;> cases i <;>
    simp only [look, reduceCtorEq] at hlast
  · split at hlast
    · rename_i e hrange
      cases hlast
      rw [asSlice_error h0 hrange]
      rfl
    · rename_i start stop hrange
      split at hlast
      · rename_i e hview
        cases hlast
        rw [asSlice_range h0 hrange, hview]
        rfl
      · cases hlast
  · split at hlast
    · rw [Option.map_eq_some_iff] at hlast
      obtain ⟨b, -, hlast⟩ := hlast
      cases hlast
    · cases hlast
  · cases hlast
    rw [asSlice_range h0 hrange, hview, readsOf_append, show readsOf [.drop] = [] from rfl, List.append_nil]
    rfl

/-- The one access of a flush is its last. -/
theorem looks_flush {l : RLoc} (hl : Looks (mapping P : Object _ _ (Op E) _ _ _ _) σ .flush ins l) : l = .flush ∧ ins = [] := by
  induction hl with
  | start => exact ⟨rfl, rfl⟩
  | @next ins l l' i _ hlook ih =>
    obtain ⟨rfl, rfl⟩ := ih
    cases i <;> simp only [mapping, look, reduceCtorEq] at hlook
    cases hlook

/-! ## Updates -/

/-- **An update** has stored the first bytes of its data, and nothing else. -/
theorem edits_update (h : Mapped P base σ len) {offset span : Nat} {data : List UInt8} {tries : Bool} {l : WLoc E}
    (he : Edits (mapping P) σ (.updateCheck offset data span tries) ins l s) :
    l = .updateCheck offset data span tries ∧ s = σ ∨
      ∃ k, l = .update offset data k tries ∧ offset + max span data.length ≤ len ∧ k ≤ data.length ∧
        s = σ.store offset (data.take k) := by
  induction he with
  | start => exact Or.inl ⟨rfl, rfl⟩
  | @next ins l l' i s s' _ hedit ih =>
    refine Or.inr ?_
    rcases ih with ⟨rfl, rfl⟩ | ⟨k, rfl, hfit, hk, rfl⟩ <;> cases i <;> simp only [mapping, edit, reduceCtorEq] at hedit
    · rw [h.mapLen, sliceRange_eq h.le_max] at hedit
      by_cases hfit : offset + max span data.length ≤ len
      · rw [if_pos hfit] at hedit
        cases hedit
        refine ⟨0, rfl, hfit, Nat.zero_le _, ?_⟩
        rw [List.take_zero, h.store_nil]
      · rw [if_neg hfit] at hedit
        cases hedit
    · split at hedit
      · rename_i b hb
        obtain ⟨t, ht, hedit⟩ := Option.map_eq_some_iff.1 hedit
        cases hedit
        have hlt : k < data.length := (List.getElem?_eq_some_iff.1 hb).1
        have hlen : (data.take k).length = k := by rw [List.length_take]; omega
        refine ⟨k + 1, rfl, hfit, hlt, ?_⟩
        rw [(storeByte_eq ht).2, List.take_add_one, hb, Option.toList_some]
        refine h.store_store (fun buf hbuf => ?_)
        have happ : splice (splice buf offset (data.take k)) (offset + (data.take k).length) [b] = _ :=
          splice_append (by rw [hlen, List.length_singleton]; omega)
        rwa [hlen] at happ
      · cases hedit

/-- **The section of `update_region_within`**: the whole write is stored, or nothing when it does not fit. -/
theorem update_section (h : Mapped P base σ len) {offset span : Nat} {data : List UInt8} {tries : Bool} {l : WLoc E} {i : In}
    {r : Out E} (he : Edits (mapping P) σ (.updateCheck offset data span tries) ins l s)
    (hlast : edit P l i s = some (s', .inr r)) :
    (offset + max span data.length ≤ len ∧ s' = σ.store offset data ∧
      r = if tries then .flag (.ok true) else .unit (.ok ())) ∨
    (¬ offset + max span data.length ≤ len ∧ s' = σ ∧
      r = if tries then .flag (.error (.outOfBounds offset (max span data.length) len))
        else .unit (.error (.outOfBounds offset (max span data.length) len))) := by
  rcases edits_update h he with ⟨rfl, rfl⟩ | ⟨k, rfl, hfit, hk, rfl⟩ <;> cases i <;>
    simp only [edit, reduceCtorEq] at hlast
  · rw [h.mapLen, sliceRange_eq h.le_max] at hlast
    by_cases hfit : offset + max span data.length ≤ len
    · rw [if_pos hfit] at hlast
      cases hlast
    · rw [if_neg hfit] at hlast
      cases hlast
      exact Or.inr ⟨hfit, rfl, rfl⟩
  · split at hlast
    · obtain ⟨t, -, hlast⟩ := Option.map_eq_some_iff.1 hlast
      cases hlast
    · rename_i hnone
      cases hlast
      rw [List.take_of_length_le (List.getElem?_eq_none_iff.1 hnone)]
      exact Or.inl ⟨hfit, rfl, rfl⟩

/-- A shared mapping has a policy under which an update asks for no flush. -/
def Unflushed (base : Option (List UInt8)) (s : Inner) : Prop := base = none → Quiet s

/-- **No flush is due** after an update. -/
theorem countUpdate_quiet (h : Mapped P base s len) (hq : Unflushed base s) (written : Nat) :
    (countUpdate written s).1 = false := by
  unfold countUpdate
  cases h.base with
  | file _ map _ =>
    rw [if_neg (by rw [Inner.tracksWrites, map]; simp)]
    rcases hq rfl with hp | hp | ⟨ms, hp⟩ <;> simp only [hp, FlushPolicy.due]
  | pages _ map _ _ => rw [if_pos (by rw [Inner.tracksWrites, map]; simp)]

theorem Unflushed.store (hq : Unflushed base s) (start : Nat) (data : List UInt8) : Unflushed base (s.store start data) := by
  intro hbase
  unfold Quiet
  rw [(store_kept s start data True).flushPolicy]
  exact hq hbase

/-- The policy, run after a write that was stored, asks for nothing and changes no data. -/
theorem policy_quiet (h : Mapped P base σ len) (hq : Unflushed base σ) {offset : Nat} {data : List UInt8}
    (hfit : offset + data.length ≤ len) (os : Os) :
    (applyFlushPolicy P os data.length (σ.store offset data)).1 = .ok () ∧
      SameData (applyFlushPolicy P os data.length (σ.store offset data)).2 (σ.store offset data) := by
  refine ⟨?_, SameData.symm (applyFlushPolicy_same P os _ _)⟩
  have hdue := countUpdate_quiet (h.store hfit) (hq.store offset data) data.length
  unfold applyFlushPolicy
  split
  · rename_i hc
    rw [hc] at hdue
    cases hdue
  · rfl

theorem updateWithin_serial (h : Mapped P base σ len) (hq : Unflushed base σ) {offset span : Nat} {data : List UInt8} {l : WLoc E}
    {i : In} {r : Out E} (he : Edits (mapping P) σ (.updateCheck offset data span false) ins l s)
    (hlast : edit P l i s = some (s', .inr r)) (os : Os) : r = .unit (updateRegionWithin P os offset data span σ).1 ∧
      SameData (updateRegionWithin P os offset data span σ).2 s' := by
  unfold updateRegionWithin
  rw [h.writeLock, h.mapLen, sliceRange_eq h.le_max]
  rcases update_section h he hlast with ⟨hfit, rfl, rfl⟩ | ⟨hfit, rfl, rfl⟩
  · have hin : offset + data.length ≤ len := by omega
    obtain ⟨hok, hsame⟩ := policy_quiet h hq hin os
    simp only [if_pos hfit, hok]
    exact ⟨rfl, hsame⟩
  · simp only [if_neg hfit]
    exact ⟨rfl, SameData.refl _⟩

theorem tryUpdate_serial (h : Mapped P base σ len) (hq : Unflushed base σ) {offset : Nat} {data : List UInt8} (hne : data ≠ [])
    {l : WLoc E} {i : In} {r : Out E} (he : Edits (mapping P) σ (.updateCheck offset data data.length true) ins l s)
    (hlast : edit P l i s = some (s', .inr r)) (os : Os) :
    r = .flag (tryUpdateRegion P os true offset data σ).1 ∧ SameData (tryUpdateRegion P os true offset data σ).2 s' := by
  have hempty : data.isEmpty = false := by
    rw [List.isEmpty_eq_false_iff]
    exact hne
  rcases update_section h he hlast with ⟨hfit, rfl, rfl⟩ | ⟨hfit, rfl, rfl⟩
  · rw [Nat.max_self] at hfit
    have hdue := countUpdate_quiet (h.store hfit) (hq.store offset data) data.length
    have hcount := countUpdate_same data.length (σ.store offset data)
    simp only [tryUpdateRegion, hempty, h.writeLock, h.mapLen, sliceRange_eq h.le_max, hfit, if_true, Bool.false_eq_true,
      if_false, not_true_eq_false]
    generalize countUpdate data.length (σ.store offset data) = c at hcount hdue
    obtain ⟨due, t⟩ := c
    simp only at hdue
    subst hdue
    exact ⟨rfl, SameData.symm hcount⟩
  · rw [Nat.max_self] at hfit
    simp only [tryUpdateRegion, hempty, h.writeLock, h.mapLen, sliceRange_eq h.le_max, hfit, if_false, if_true,
      Bool.false_eq_true, not_true_eq_false, Nat.max_self]
    exact ⟨trivial, SameData.refl _⟩

/-! ## Mutable guards -/

/-- The range a guard covers. -/
def guardRange (P : Platform) (offset n mapLen : Nat) : Except MmapIoError (Nat × Nat) :=
  if n = 0 then .ok (0, 0) else sliceRange P.width offset n mapLen

theorem guardRange_ok (hmax : len ≤ P.width.maxLen) {offset n start stop : Nat}
    (hr : guardRange P offset n len = .ok (start, stop)) : start ≤ stop ∧ stop ≤ len := by
  unfold guardRange at hr
  split at hr
  · cases hr
    exact ⟨Nat.le_refl _, Nat.zero_le _⟩
  · rw [sliceRange_eq hmax] at hr
    split at hr
    · cases hr
      exact ⟨Nat.le_add_right _ _, by assumption⟩
    · cases hr

theorem useAll_concat (uses : List Use) (u : Use) (shown : List UInt8) :
    useAll (uses ++ [u]) shown = use (useAll uses shown) u := by
  rw [useAll, List.foldl_concat, useAll]

/-- The bytes of a range of the mapping, after a store to exactly that range. -/
theorem getElem?_store (h : Mapped P base σ len) {start i : Nat} {data : List UInt8} (hfit : start + data.length ≤ len)
    (hi : i < data.length) : (σ.store start data).bytes[start + i]? = data[i]? := by
  rw [h.bytes_store hfit, getElem?_splice (by rw [h.length_bytes]; exact hfit), if_pos (by omega), Nat.add_sub_cancel_left]

theorem length_extract (h : Mapped P base σ len) {start stop : Nat} (hstop : stop ≤ len) :
    (σ.bytes.extract start stop).length = stop - start := by
  rw [List.extract, List.length_take, List.length_drop, h.length_bytes]
  omega

/-- Storing back what is there changes nothing. -/
theorem store_extract (h : Mapped P base σ len) {start stop : Nat} (hle : start ≤ stop) (hstop : stop ≤ len) :
    σ.store start (σ.bytes.extract start stop) = σ := by
  cases h.base with
  | file _ map le_file =>
    have hshown : σ.bytes.extract start stop = σ.file.extract start stop := by
      rw [Inner.bytes_rw map, List.extract, List.drop_take, List.take_take, Nat.min_eq_left (by omega), List.extract]
    rw [hshown, Inner.store_rw map, splice_extract hle (by omega)]
  | pages _ map length _ =>
    rw [NonShared.bytes_cow map, NonShared.store_cow map, splice_extract hle (by omega), ← map]

/-- **A guard** has read and written its range as its uses say, and nothing else. -/
theorem edits_guard (h : Mapped P base σ len) {offset n : Nat} {l : WLoc E}
    (he : Edits (mapping P) σ (.guardCheck offset n) ins l s) :
    l = .guardCheck offset n ∧ ins = [] ∧ s = σ ∨
      ∃ start stop, guardRange P offset n len = .ok (start, stop) ∧
        l = .guard start stop (useAll (usesOf ins) (σ.bytes.extract start stop)).2 ∧
        s = σ.store start (useAll (usesOf ins) (σ.bytes.extract start stop)).1 := by
  induction he with
  | start => exact Or.inl ⟨rfl, rfl, rfl⟩
  | @next ins l l' i s s' _ hedit ih =>
    refine Or.inr ?_
    rcases ih with ⟨rfl, rfl, rfl⟩ | ⟨start, stop, hrange, rfl, rfl⟩
    · cases i <;> simp only [mapping, edit, reduceCtorEq] at hedit
      rw [h.mapLen, ← guardRange] at hedit
      split at hedit
      · cases hedit
      · rename_i start stop hrange
        cases hedit
        obtain ⟨hle, hstop⟩ := guardRange_ok h.le_max hrange
        exact ⟨start, stop, hrange, rfl, (store_extract h hle hstop).symm⟩
    · obtain ⟨hle, hstop⟩ := guardRange_ok h.le_max hrange
      have hlen : (useAll (usesOf ins) (σ.bytes.extract start stop)).1.length = stop - start := by
        rw [length_useAll, length_extract h hstop]
      have hfit : start + (useAll (usesOf ins) (σ.bytes.extract start stop)).1.length ≤ len := by omega
      cases i <;> simp only [mapping, edit, reduceCtorEq] at hedit
      · rename_i k
        have huses : usesOf (ins ++ [.get k]) = usesOf ins ++ [.get k] := usesOf_append ..
        split at hedit
        · rename_i hk
          obtain ⟨b, hb, hedit⟩ := Option.map_eq_some_iff.1 hedit
          cases hedit
          refine ⟨start, stop, hrange, ?_, ?_⟩
          · rw [huses, useAll_concat, use, ← getElem?_store h hfit (by omega), hb]
            rfl
          · rw [huses, useAll_concat, use]
        · cases hedit
      · rename_i k b
        have huses : usesOf (ins ++ [.put k b]) = usesOf ins ++ [.put k b] := usesOf_append ..
        split at hedit
        · rename_i hk
          obtain ⟨t, ht, hedit⟩ := Option.map_eq_some_iff.1 hedit
          cases hedit
          refine ⟨start, stop, hrange, ?_, ?_⟩
          · rw [huses, useAll_concat, use]
          · rw [(storeByte_eq ht).2, huses, useAll_concat, use]
            exact h.store_store (fun buf hbuf => splice_set (by omega) (by omega) b)
        · cases hedit
      · cases hedit

/-- **`as_slice_mut`** with the uses of its guard. -/
theorem guard_serial (h : Mapped P base σ len) {offset n : Nat} {l : WLoc E} {i : In} {r : Out E}
    (he : Edits (mapping P) σ (.guardCheck offset n) ins l s) (hlast : edit P l i s = some (s', .inr r)) :
    r = .view ((useGuard P offset n (usesOf (ins ++ [i])) σ).1.map some) ∧
      SameData (useGuard P offset n (usesOf (ins ++ [i])) σ).2 s' := by
  have hrefused : ∀ uses e, guardRange P offset n len = .error e →
      asSliceMut P offset n (writesOf uses) σ = (.error e, σ) := by
    intro uses e hrange
    unfold guardRange at hrange
    unfold asSliceMut
    rw [h.writeLock, h.mapLen]
    simp only [hrange]
  have hgranted : ∀ uses start stop, guardRange P offset n len = .ok (start, stop) →
      asSliceMut P offset n (writesOf uses) σ = (.ok (σ.bytes.extract start stop),
        recordWrite (stop - start) (σ.store start ((writesOf uses).run (σ.bytes.extract start stop)))) := by
    intro uses start stop hrange
    unfold guardRange at hrange
    unfold asSliceMut
    rw [h.writeLock, h.mapLen]
    simp only [hrange]
  rcases edits_guard h he with ⟨rfl, rfl, rfl⟩ | ⟨start, stop, hrange, rfl, rfl⟩
  · cases i <;> simp only [edit, reduceCtorEq] at hlast
    rw [h.mapLen, ← guardRange] at hlast
    split at hlast
    · rename_i e hrange
      cases hlast
      simp only [useGuard, hrefused _ e hrange]
      exact ⟨rfl, SameData.refl _⟩
    · cases hlast
  · cases i <;> simp only [edit, reduceCtorEq] at hlast
    case get | put =>
      split at hlast
      · obtain ⟨t, -, hlast⟩ := Option.map_eq_some_iff.1 hlast
        cases hlast
      · cases hlast
    case drop =>
      cases hlast
      rw [usesOf_append, show usesOf [.drop] = [] from rfl, List.append_nil]
      simp only [useGuard, hgranted _ start stop hrange]
      exact ⟨rfl, SameData.symm (recordWrite_same _ _)⟩

/-! ## Chunks -/

/-- **The chunks** from here on are the rest of the loop of `drive`, and the mapping keeps its shape. -/
theorem edits_chunks (h : Mapped P base σ len) {chunkSize : Nat} {f : ChunkFn E} (hsize : 0 < chunkSize) {l : WLoc E}
    (he : Edits (mapping P) σ (.chunks chunkSize f) ins l s) :
    l = .chunks chunkSize f ∧ s = σ ∨
      ∃ past offset, l = .chunk chunkSize f len past offset ∧ Mapped P base s len ∧
        driveLoop f chunkSize hsize len past offset s = driveLoop f chunkSize hsize len [] 0 σ := by
  induction he with
  | start => exact Or.inl ⟨rfl, rfl⟩
  | @next ins l l' i s s' _ hedit ih =>
    refine Or.inr ?_
    rcases ih with ⟨rfl, rfl⟩ | ⟨past, offset, rfl, hshape, hloop⟩ <;> cases i <;>
      simp only [mapping, edit, reduceCtorEq] at hedit
    · cases hedit
      exact ⟨[], 0, by rw [h.mapLen], h, rfl⟩
    · split at hedit
      · rename_i hlt
        split at hedit
        · cases hedit
        · split at hedit
          · cases hedit
          · rename_i hok
            cases hedit
            refine ⟨_, _, rfl, hshape.store ?_, ?_⟩
            · rw [f.length_run, length_extract hshape (by omega)]
              omega
            · rw [← hloop]
              conv => rhs; rw [driveLoop, if_pos hlt]
              simp only [hok]
      · cases hedit

/-- **`chunks_mut`** drives its closure over the mapping. -/
theorem chunks_serial (h : Mapped P base σ len) {chunkSize : Nat} {f : ChunkFn E} (h0 : chunkSize ≠ 0) {l : WLoc E} {i : In}
    {r : Out E} (he : Edits (mapping P) σ (.chunks chunkSize f) ins l s) (hlast : edit P l i s = some (s', .inr r)) :
    r = .closure (forEachMutLegacy f chunkSize σ).1 ∧ SameData (forEachMutLegacy f chunkSize σ).2 s' := by
  have hsize := Nat.pos_of_ne_zero h0
  unfold forEachMutLegacy drive
  rw [h.writeLock, h.mapLen]
  simp only [h0, dite_false]
  rcases edits_chunks h hsize he with ⟨rfl, rfl⟩ | ⟨past, offset, rfl, -, hloop⟩ <;> cases i <;>
    simp only [edit, reduceCtorEq] at hlast
  · cases hlast
  · rw [← hloop, driveLoop]
    split at hlast
    · rename_i hlt
      rw [if_pos hlt]
      split at hlast
      · cases hlast
      · split at hlast
        · rename_i e herr
          cases hlast
          simp only [herr, true_and]
          exact SameData.symm (recordWrite_same _ _)
        · cases hlast
    · rename_i hge
      rw [if_neg hge]
      cases hlast
      exact ⟨rfl, SameData.symm (recordWrite_same _ _)⟩

/-! ## Resizes -/

/-- Where a resize to `newSize` bytes is after these inputs, and in which state. -/
def ResizeAt (P : Platform) (σ : Inner) (len newSize newLen : Nat) (ins : List In) : WLoc E → Inner → Prop
  | .resize size n, s => size = newSize ∧ n = newLen ∧ s = σ ∧ ins = []
  | .growMap current n, s => len < newLen ∧ current = len ∧ n = newLen ∧ s = { σ with file := setLen σ.file newSize 0 } ∧
      answersOf ins = [none] ∧ mapAnswersOf ins = []
  | .growRestore current e, s => len < newLen ∧ current = len ∧ s = { σ with file := setLen σ.file newSize 0 } ∧
      answersOf ins = [none] ∧ ∃ metadata map, mapAnswersOf ins = [(metadata, map)] ∧ mapFile P metadata map s newLen = .error e
  | .shrinkSetLen size n, s => newLen < len ∧ P.windows = false ∧ size = newSize ∧ s = σ ∧
      answersOf ins = [] ∧ ∃ metadata map, mapAnswersOf ins = [(metadata, map)] ∧ mapFile P metadata map σ newLen = .ok n
  | .windowsSetLen current size n, s => newLen < len ∧ P.windows = true ∧ current = len ∧ size = newSize ∧ n = newLen ∧
      s = { σ with map := .rw 0 } ∧ answersOf ins = [none] ∧ mapAnswersOf ins = []
  | .windowsMap n none, s => newLen < len ∧ P.windows = true ∧ n = newLen ∧
      s = { σ with file := setLen σ.file newSize 0, map := .rw 0 } ∧ answersOf ins = [none, none] ∧ mapAnswersOf ins = []
  | .windowsMap n (some e), s => newLen < len ∧ P.windows = true ∧ n = len ∧ s = { σ with map := .rw 0 } ∧
      mapAnswersOf ins = [] ∧ ∃ text, e = .os text ∧ answersOf ins = [none, some text]
  | .publish r, s => resizeLocked P (resizeOs P newLen len ins) len newSize newLen σ = (r, s)
  | _, _ => False

/-- What the OS answers, unless a view is replaced first. -/
theorem resizeOs_unix {newLen : Nat} (hw : ¬ (P.windows = true ∧ newLen < len)) {a : List (Option String)}
    {m : List (Option String × Option String)} (ha : answersOf ins = a) (hm : mapAnswersOf ins = m) :
    resizeOs P newLen len ins = { Os.ok with
      setLen := a[0]?.getD none, restore := a[1]?.getD none
      metadata := (m[0]?.getD (none, none)).1, map := (m[0]?.getD (none, none)).2 } := by
  rw [resizeOs, if_neg hw]
  simp only [answer, ha, hm]

theorem resizeOs_windows {newLen : Nat} (hw : P.windows = true) (hshrink : newLen < len) {a : List (Option String)}
    {m : List (Option String × Option String)} (ha : answersOf ins = a) (hm : mapAnswersOf ins = m) :
    resizeOs P newLen len ins = { Os.ok with
      placeholder := a[0]?.getD none, setLen := a[1]?.getD none
      metadata := (m[0]?.getD (none, none)).1, map := (m[0]?.getD (none, none)).2 } := by
  rw [resizeOs, if_pos ⟨hw, hshrink⟩]
  simp only [answer, ha, hm]

/-- The store of `cached_len` asks nothing of the OS. -/
theorem resizeOs_run (newLen : Nat) : resizeOs P newLen len (ins ++ [.run]) = resizeOs P newLen len ins := by
  have ha : answersOf (ins ++ [.run]) = answersOf ins := by
    rw [answersOf_append]
    exact List.append_nil _
  have hm : mapAnswersOf (ins ++ [.run]) = mapAnswersOf ins := by
    rw [mapAnswersOf_append]
    exact List.append_nil _
  simp only [resizeOs, answer, ha, hm]

theorem answersOf_os {answers : List (Option String)} (ha : answersOf ins = answers) (a : Option String) :
    answersOf (ins ++ [.os a]) = answers ++ [a] := by
  rw [answersOf_append, ha]
  rfl

theorem mapAnswersOf_os {maps : List (Option String × Option String)} (hm : mapAnswersOf ins = maps) (a : Option String) :
    mapAnswersOf (ins ++ [.os a]) = maps := by
  rw [mapAnswersOf_append, hm]
  exact List.append_nil _

theorem answersOf_map {answers : List (Option String)} (ha : answersOf ins = answers) (metadata map : Option String) :
    answersOf (ins ++ [.map metadata map]) = answers := by
  rw [answersOf_append, ha]
  exact List.append_nil _

theorem mapAnswersOf_map {maps : List (Option String × Option String)} (hm : mapAnswersOf ins = maps)
    (metadata map : Option String) : mapAnswersOf (ins ++ [.map metadata map]) = maps ++ [(metadata, map)] := by
  rw [mapAnswersOf_append, hm]
  rfl

theorem resizeLocked_grow {newSize newLen : Nat} (hgrow : len < newLen) (metadata map restore : Option String) :
    resizeLocked P { Os.ok with metadata := metadata, map := map, restore := restore } len newSize newLen σ =
      match mapFile P metadata map { σ with file := setLen σ.file newSize 0 } newLen with
      | .ok n => (.ok (), { σ with file := setLen σ.file newSize 0, map := .rw n })
      | .error e =>
        match restore with
        | none => (.error (.io e), { σ with file := setLen (setLen σ.file newSize 0) len 0 })
        | some _ => (.error (.io e), { σ with file := setLen σ.file newSize 0 }) := by
  rw [resizeLocked, if_neg (by omega), if_pos hgrow]
  rfl

theorem resizeLocked_unix {newSize newLen : Nat} (hw : P.windows = false) (hshrink : newLen < len)
    (metadata map size : Option String) :
    resizeLocked P { Os.ok with metadata := metadata, map := map, setLen := size } len newSize newLen σ =
      match mapFile P metadata map σ newLen with
      | .error e => (.error (.io e), σ)
      | .ok n =>
        match size with
        | some text => (.error (.io (.os text)), σ)
        | none => (.ok (), { σ with file := setLen σ.file newSize 0, map := .rw n }) := by
  rw [resizeLocked, if_neg (by omega), if_neg (by omega), hw, if_neg Bool.false_ne_true]
  rfl

theorem resizeLocked_windows {newSize newLen : Nat} (hw : P.windows = true) (hshrink : newLen < len)
    (metadata map size : Option String) :
    resizeLocked P { Os.ok with metadata := metadata, map := map, setLen := size } len newSize newLen σ =
      match size with
      | some text =>
        match mapFile P metadata map { σ with map := .rw 0 } len with
        | .error e => (.error (.io e), { σ with map := .rw 0 })
        | .ok n => (.error (.io (.os text)), { σ with map := .rw n })
      | none =>
        match mapFile P metadata map { σ with file := setLen σ.file newSize 0, map := .rw 0 } newLen with
        | .error e => (.error (.io e), { σ with file := setLen σ.file newSize 0, map := .rw 0 })
        | .ok n => (.ok (), { σ with file := setLen σ.file newSize 0, map := .rw n }) := by
  rw [resizeLocked, if_neg (by omega), if_neg (by omega), hw]
  rfl

/-- **The first access of a resize.** -/
theorem resizeAt_start (h : Shape P σ len) {newSize newLen : Nat} {i : In} {l : WLoc E}
    (hs : startResize P newSize newLen i σ = some (s', .inl l)) : ResizeAt P σ len newSize newLen [i] l s' := by
  unfold startResize at hs
  rw [h.mapLen] at hs
  by_cases heq : newLen = len
  · rw [if_pos heq] at hs
    split at hs
    · cases hs
      show resizeLocked P _ len newSize newLen σ = _
      rw [resizeLocked, if_pos heq]
    · cases hs
  rw [if_neg heq] at hs
  by_cases hgrow : len < newLen
  · rw [if_pos hgrow] at hs
    have hunix : ¬ (P.windows = true ∧ newLen < len) := by omega
    split at hs
    · cases hs
      exact ⟨hgrow, rfl, rfl, rfl, rfl, rfl⟩
    · rename_i text
      cases hs
      show resizeLocked P _ len newSize newLen σ = _
      rw [resizeOs_unix hunix (a := [some text]) rfl (m := []) rfl, resizeLocked, if_neg heq, if_pos hgrow]
      rfl
    · cases hs
  rw [if_neg hgrow] at hs
  have hshrink : newLen < len := by omega
  cases hw : P.windows with
  | true =>
    rw [hw, if_pos rfl] at hs
    split at hs
    · cases hs
      exact ⟨hshrink, hw, rfl, rfl, rfl, rfl, rfl, rfl⟩
    · rename_i text
      cases hs
      show resizeLocked P _ len newSize newLen σ = _
      rw [resizeOs_windows hw hshrink (a := [some text]) rfl (m := []) rfl, resizeLocked, if_neg heq, if_neg hgrow, hw]
      rfl
    · cases hs
  | false =>
    rw [hw, if_neg Bool.false_ne_true] at hs
    have hunix : ¬ (P.windows = true ∧ newLen < len) := by
      rw [hw]
      exact fun hc => Bool.false_ne_true hc.1
    split at hs
    · rename_i metadata map
      split at hs
      · rename_i e hmap
        cases hs
        show resizeLocked P _ len newSize newLen σ = _
        rw [resizeOs_unix hunix (a := []) rfl (m := [(metadata, map)]) rfl]
        exact (resizeLocked_unix hw hshrink metadata map none).trans (by rw [hmap])
      · rename_i n hmap
        cases hs
        exact ⟨hshrink, hw, rfl, rfl, rfl, metadata, map, rfl, hmap⟩
    · cases hs

/-- **Every later access of a resize.** -/
theorem resizeAt_edit (h : Shape P σ len) {newSize newLen : Nat} {i : In} {l l' : WLoc E}
    (hat : ResizeAt P σ len newSize newLen ins l s) (hedit : edit P l i s = some (s', .inl l')) :
    ResizeAt P σ len newSize newLen (ins ++ [i]) l' s' := by
  cases l with
  | resize size n =>
    obtain ⟨rfl, rfl, rfl, rfl⟩ := hat
    exact resizeAt_start h hedit
  | growMap current n =>
    obtain ⟨hgrow, rfl, rfl, rfl, ha, hm⟩ := hat
    have hunix : ¬ (P.windows = true ∧ n < current) := by omega
    cases i <;> simp only [edit, reduceCtorEq] at hedit
    rename_i metadata map
    split at hedit
    · rename_i k hmap
      cases hedit
      show resizeLocked P _ current newSize n σ = _
      rw [resizeOs_unix hunix (answersOf_map ha metadata map) (mapAnswersOf_map hm metadata map)]
      exact (resizeLocked_grow hgrow metadata map none).trans (by rw [hmap])
    · rename_i e hmap
      cases hedit
      exact ⟨hgrow, rfl, rfl, answersOf_map ha metadata map, metadata, map, mapAnswersOf_map hm metadata map, hmap⟩
  | growRestore current e =>
    obtain ⟨hgrow, rfl, rfl, ha, metadata, map, hm, hmap⟩ := hat
    have hunix : ¬ (P.windows = true ∧ newLen < current) := by omega
    cases i <;> simp only [edit, reduceCtorEq] at hedit
    split at hedit
    all_goals
      cases hedit
      show resizeLocked P _ current newSize newLen σ = _
      rw [resizeOs_unix hunix (answersOf_os ha _) (mapAnswersOf_os hm _)]
      exact (resizeLocked_grow hgrow metadata map _).trans (by rw [hmap]; rfl)
  | shrinkSetLen size n =>
    obtain ⟨hshrink, hw, rfl, rfl, ha, metadata, map, hm, hmap⟩ := hat
    have hunix : ¬ (P.windows = true ∧ newLen < len) := by
      rw [hw]
      exact fun hc => Bool.false_ne_true hc.1
    cases i <;> simp only [edit, reduceCtorEq] at hedit
    split at hedit
    all_goals
      cases hedit
      show resizeLocked P _ len size newLen s = _
      rw [resizeOs_unix hunix (answersOf_os ha _) (mapAnswersOf_os hm _)]
      exact (resizeLocked_unix hw hshrink metadata map _).trans (by rw [hmap]; rfl)
  | windowsSetLen current size n =>
    obtain ⟨hshrink, hw, rfl, rfl, rfl, rfl, ha, hm⟩ := hat
    cases i <;> simp only [edit, reduceCtorEq] at hedit
    rename_i cut
    split at hedit
    · cases hedit
      exact ⟨hshrink, hw, rfl, rfl, answersOf_os ha none, mapAnswersOf_os hm none⟩
    · rename_i text
      cases hedit
      exact ⟨hshrink, hw, rfl, rfl, mapAnswersOf_os hm (some text), text, rfl, answersOf_os ha (some text)⟩
  | windowsMap n failed =>
    cases i <;> simp only [edit, reduceCtorEq] at hedit
    rename_i metadata map
    cases failed with
    | none =>
      obtain ⟨hshrink, hw, rfl, rfl, ha, hm⟩ := hat
      split at hedit
      all_goals
        rename_i hmap
        cases hedit
        show resizeLocked P _ len newSize n σ = _
        rw [resizeOs_windows hw hshrink (answersOf_map ha metadata map) (mapAnswersOf_map hm metadata map)]
        exact (resizeLocked_windows hw hshrink metadata map none).trans (by simp only [hmap])
    | some e =>
      obtain ⟨hshrink, hw, rfl, rfl, hm, text, rfl, ha⟩ := hat
      split at hedit
      all_goals
        rename_i hmap
        cases hedit
        show resizeLocked P _ n newSize newLen σ = _
        rw [resizeOs_windows hw hshrink (answersOf_map ha metadata map) (mapAnswersOf_map hm metadata map)]
        exact (resizeLocked_windows hw hshrink metadata map (some text)).trans (by simp only [hmap])
  | publish r =>
    cases i <;> simp only [edit, reduceCtorEq] at hedit
    cases hedit
  | _ => exact hat.elim

theorem edits_resize (h : Shape P σ len) {newSize newLen : Nat} {l : WLoc E}
    (he : Edits (mapping P) σ (.resize newSize newLen) ins l s) : ResizeAt P σ len newSize newLen ins l s := by
  induction he with
  | start => exact ⟨rfl, rfl, rfl, rfl⟩
  | next _ hedit ih => exact resizeAt_edit h ih hedit

/-- **`resize`** under the lock, with the answers the OS gave. -/
theorem resize_serial (h : Shape P σ len) {newSize newLen : Nat} {l : WLoc E} {i : In} {r : Out E}
    (he : Edits (mapping P) σ (.resize newSize newLen) ins l s) (hlast : edit P l i s = some (s', .inr r)) :
    r = .unit (resizeLocked P (resizeOs P newLen len (ins ++ [i])) len newSize newLen σ).1 ∧
      s' = { (resizeLocked P (resizeOs P newLen len (ins ++ [i])) len newSize newLen σ).2 with
        cachedLen := (resizeLocked P (resizeOs P newLen len (ins ++ [i])) len newSize newLen σ).2.mapLen } := by
  have hat := edits_resize h he
  cases l with
  | publish res =>
    have hlocked : resizeLocked P (resizeOs P newLen len ins) len newSize newLen σ = (res, s) := hat
    cases i <;> simp only [edit, reduceCtorEq] at hlast
    cases hlast
    rw [resizeOs_run, hlocked]
    exact ⟨rfl, rfl⟩
  | resize size n =>
    simp only [edit] at hlast
    unfold startResize at hlast
    repeat' split at hlast
    all_goals cases hlast
  | growMap | growRestore | shrinkSetLen | windowsSetLen | windowsMap =>
    cases i <;> simp only [edit, reduceCtorEq] at hlast
    all_goals split at hlast <;> cases hlast
  | _ => exact hat.elim

/-! ## Every call -/

theorem resize_eq (h : Shape P σ len) {newSize newLen : Nat} (h0 : ¬ newSize = 0) (hmax : ¬ newSize > P.width.maxMmapSize)
    (hfit : tryFrom P.width.bits newSize = some newLen) (os : Os) :
    MmapIo.resize P os newSize σ = ((resizeLocked P os len newSize newLen σ).1,
      { (resizeLocked P os len newSize newLen σ).2 with
        cachedLen := (resizeLocked P os len newSize newLen σ).2.mapLen }) := by
  unfold MmapIo.resize
  rw [if_neg (not_not.2 h.mode), if_neg h0, if_neg hmax, hfit]
  simp only [h.map]

/-- Only a mapping of the file itself is resized. -/
def Resizes (base : Option (List UInt8)) (op : Op E) : Prop := ∀ n, op = .resize n → base = none

/-- A size that does not fit is refused before the OS is asked. -/
theorem resize_refused (h : Shape P σ len) {newSize : Nat} {r : Out E} (hp : plan P (.resize newSize : Op E) = .answer r)
    (os : Os) : r = .unit (MmapIo.resize P os newSize σ).1 ∧ σ = (MmapIo.resize P os newSize σ).2 := by
  simp only [plan] at hp
  unfold MmapIo.resize
  rw [if_neg (not_not.2 h.mode)]
  split at hp
  · rename_i h0
    cases hp
    rw [if_pos h0]
    exact ⟨rfl, rfl⟩
  · rename_i h0
    rw [if_neg h0]
    split at hp
    · rename_i hmax
      cases hp
      rw [if_pos hmax]
      exact ⟨rfl, rfl⟩
    · rename_i hmax
      rw [if_neg hmax]
      cases hfit : tryFrom P.width.bits newSize with
      | none =>
        rw [hfit] at hp
        cases hp
        exact ⟨rfl, rfl⟩
      | some newLen =>
        rw [hfit] at hp
        cases hp

/-- **What a call answers without the lock** is what its method answers. -/
theorem answer_serial (h : Mapped P base σ len) {op : Op E} (hres : Resizes base op) {r : Out E}
    (hp : plan P op = .answer r) : Serial P op (some []) r σ σ := by
  cases op with
  | updateRegion offset data =>
    simp only [plan] at hp
    split at hp
    · rename_i hempty
      cases hp
      intro os
      rw [updateRegion, if_pos hempty]
      exact ⟨rfl, SameData.refl _⟩
    · cases hp
  | tryUpdateRegion offset data =>
    simp only [plan] at hp
    split at hp
    · rename_i hempty
      cases hp
      intro os
      rw [tryUpdateRegion, if_pos hempty]
      exact ⟨rfl, SameData.refl _⟩
    · cases hp
  | segmentWrite g data =>
    simp only [plan] at hp
    split at hp
    · rename_i hlong
      cases hp
      intro os
      rw [NonShared.segmentWrite, if_pos hlong]
      exact ⟨rfl, SameData.refl _⟩
    · rename_i hlong
      split at hp
      · rename_i hempty
        cases hp
        intro os
        rw [NonShared.segmentWrite, if_neg hlong, if_pos hempty]
        exact ⟨rfl, SameData.refl _⟩
      · cases hp
  | chunksMut chunkSize f =>
    simp only [plan] at hp
    split at hp
    · rename_i h0
      cases hp
      simp only [Serial, forEachMutLegacy, drive, h.writeLock, h0, dite_true]
      exact ⟨trivial, SameData.refl _⟩
    · cases hp
  | resize newSize =>
    cases hres newSize rfl
    exact resize_refused h.shape hp _
  | readInto offset n =>
    simp only [plan] at hp
    split at hp
    · rename_i h0
      cases hp
      exact ⟨by rw [readInto, if_pos h0], rfl⟩
    · cases hp
  | readBytes offset n =>
    simp only [plan] at hp
    split at hp
    · rename_i h0
      cases hp
      exact ⟨by rw [readBytes, if_pos h0], rfl⟩
    · cases hp
  | asSlice offset n | tryAsSlice offset n =>
    simp only [plan] at hp
    split at hp
    · rename_i h0
      cases hp
      refine ⟨?_, rfl⟩
      rw [useView, asSlice, if_pos h0]
      rfl
    · cases hp
  | asSliceMut | tryAsSliceMut | flush | len => cases hp

/-- **What a `try_` method answers without the lock.** -/
theorem busy_serial (h : Mapped P base σ len) {op : Op E} {r : Out E} (hb : busy op = some r) : Serial P op none r σ σ := by
  cases op with
  | tryUpdateRegion offset data =>
    simp only [busy] at hb
    split at hb
    · cases hb
    · rename_i hne
      cases hb
      intro os
      simp only [tryUpdateRegion, if_neg hne, h.writeLock, Option.isSome_none, Bool.false_eq_true, not_false_eq_true, if_true]
      exact ⟨trivial, SameData.refl _⟩
  | tryAsSliceMut offset n =>
    cases hb
    exact ⟨rfl, rfl⟩
  | tryAsSlice offset n =>
    simp only [busy] at hb
    split at hb
    · cases hb
    · rename_i h0
      cases hb
      exact ⟨h0, rfl, rfl⟩
  | _ => cases hb

/-- **A read section**, alone, is its method. -/
theorem look_serial (h : Mapped P base σ len) {op : Op E} {l₀ l : RLoc} {i : In} {r : Out E} (hp : plan P op = .read l₀)
    (hl : Looks (mapping P : Object _ _ (Op E) _ _ _ _) σ l₀ ins l) (hlast : look P l i σ = some (.inr r)) :
    Serial P op (some (ins ++ [i])) r σ σ := by
  cases op with
  | readInto offset n =>
    simp only [plan] at hp
    split at hp
    · cases hp
    · rename_i h0
      cases hp
      exact ⟨(copy_serial h hl hlast h0).1, rfl⟩
  | readBytes offset n =>
    simp only [plan] at hp
    split at hp
    · cases hp
    · rename_i h0
      cases hp
      exact ⟨(copy_serial h hl hlast h0).2, rfl⟩
  | asSlice offset n | tryAsSlice offset n =>
    simp only [plan] at hp
    split at hp
    · cases hp
    · rename_i h0
      cases hp
      exact ⟨view_serial hl hlast h0, rfl⟩
  | flush =>
    cases hp
    obtain ⟨rfl, rfl⟩ := looks_flush hl
    cases i <;> simp only [look, reduceCtorEq] at hlast
    cases hlast
    exact ⟨rfl, rfl⟩
  | updateRegion | tryUpdateRegion | segmentWrite | chunksMut =>
    simp only [plan] at hp
    repeat' split at hp
    all_goals cases hp
  | resize newSize =>
    simp only [plan] at hp
    repeat' split at hp
    all_goals cases hp
  | asSliceMut | tryAsSliceMut | len => cases hp

/-- **A write section**, alone, is its method. -/
theorem edit_serial (h : Mapped P base σ len) (hq : Unflushed base σ) {op : Op E} (hres : Resizes base op) {l₀ l : WLoc E}
    {i : In} {r : Out E} (hp : plan P op = .write l₀) (he : Edits (mapping P) σ l₀ ins l s)
    (hlast : edit P l i s = some (s', .inr r)) : Serial P op (some (ins ++ [i])) r σ s' := by
  cases op with
  | updateRegion offset data =>
    simp only [plan] at hp
    split at hp
    · cases hp
    · rename_i hne
      cases hp
      intro os
      rw [updateRegion, if_neg hne]
      exact updateWithin_serial h hq he hlast os
  | tryUpdateRegion offset data =>
    simp only [plan] at hp
    split at hp
    · cases hp
    · rename_i hne
      cases hp
      exact tryUpdate_serial h hq (by simpa using hne) he hlast
  | segmentWrite g data =>
    simp only [plan] at hp
    split at hp
    · cases hp
    · rename_i hlong
      split at hp
      · cases hp
      · rename_i hne
        cases hp
        intro os
        rw [NonShared.segmentWrite, if_neg hlong, if_neg hne]
        exact updateWithin_serial h hq he hlast os
  | asSliceMut offset n | tryAsSliceMut offset n =>
    cases hp
    exact guard_serial h he hlast
  | chunksMut chunkSize f =>
    simp only [plan] at hp
    split at hp
    · cases hp
    · rename_i h0
      cases hp
      exact chunks_serial h h0 he hlast
  | resize newSize =>
    simp only [plan] at hp
    split at hp
    · cases hp
    · rename_i h0
      split at hp
      · cases hp
      · rename_i hmax
        split at hp
        · cases hp
        · rename_i newLen hfit
          cases hp
          cases hres newSize rfl
          obtain ⟨hr, hs⟩ := resize_serial h.shape he hlast
          obtain rfl := (tryFrom_eq_some hfit).symm
          show _ = _ ∧ _ = _
          rw [h.mapLen, resize_eq h.shape h0 hmax hfit]
          exact ⟨hr, hs⟩
  | readInto | readBytes | asSlice | tryAsSlice =>
    simp only [plan] at hp
    split at hp <;> cases hp
  | flush | len => cases hp

/-- **Every call, run alone, is its method.** -/
theorem does_serial (h : Mapped P base σ len) (hq : Unflushed base σ) {op : Op E} (hres : Resizes base op)
    {g : Option (List In)} {r : Out E} (hd : Does (mapping P) op g r σ s') : Serial P op g r σ s' := by
  cases hd with
  | answer hp => exact answer_serial h hres hp
  | @peek f _ hp =>
    cases op with
    | len =>
      cases hp
      exact ⟨rfl, rfl⟩
    | _ =>
      simp only [mapping, plan] at hp
      repeat' split at hp
      all_goals cases hp
  | read hp hl hlast => exact look_serial h hp hl hlast
  | write hp he hlast => exact edit_serial h hq hres hp he hlast
  | busy hb => exact busy_serial h hb

theorem mapped_update (h : Mapped P base σ len) {offset span : Nat} {data : List UInt8} {tries : Bool} {l : WLoc E} {i : In}
    {r : Out E} (he : Edits (mapping P) σ (.updateCheck offset data span tries) ins l s)
    (hlast : edit P l i s = some (s', .inr r)) : Mapped P base s' len := by
  rcases update_section h he hlast with ⟨hfit, rfl, -⟩ | ⟨-, rfl, -⟩
  · exact h.store (by omega)
  · exact h

theorem mapped_guard (h : Mapped P base σ len) {offset n : Nat} {l : WLoc E} {i : In} {r : Out E}
    (he : Edits (mapping P) σ (.guardCheck offset n) ins l s) (hlast : edit P l i s = some (s', .inr r)) :
    Mapped P base s' len := by
  rcases edits_guard h he with ⟨rfl, -, rfl⟩ | ⟨start, stop, hrange, rfl, rfl⟩
  · cases i <;> simp only [edit, reduceCtorEq] at hlast
    split at hlast
    · cases hlast
      exact h
    · cases hlast
  · obtain ⟨hle, hstop⟩ := guardRange_ok h.le_max hrange
    have hstore : Mapped P base (σ.store start (useAll (usesOf ins) (σ.bytes.extract start stop)).1) len :=
      h.store (by rw [length_useAll, length_extract h hstop]; omega)
    cases i <;> simp only [edit, reduceCtorEq] at hlast
    case get | put =>
      split at hlast
      · obtain ⟨t, -, hlast⟩ := Option.map_eq_some_iff.1 hlast
        cases hlast
      · cases hlast
    case drop =>
      cases hlast
      exact hstore

theorem mapped_chunks (h : Mapped P base σ len) {chunkSize : Nat} {f : ChunkFn E} (h0 : chunkSize ≠ 0) {l : WLoc E} {i : In}
    {r : Out E} (he : Edits (mapping P) σ (.chunks chunkSize f) ins l s) (hlast : edit P l i s = some (s', .inr r)) :
    Mapped P base s' len := by
  rcases edits_chunks h (Nat.pos_of_ne_zero h0) he with ⟨rfl, rfl⟩ | ⟨past, offset, rfl, hmapped, -⟩ <;> cases i <;>
    simp only [edit, reduceCtorEq] at hlast
  · cases hlast
  · split at hlast
    · split at hlast
      · cases hlast
      · split at hlast <;> cases hlast
        refine hmapped.store ?_
        rw [f.length_run, length_extract hmapped (by omega)]
        omega
    · cases hlast
      exact hmapped

/-- **Every call, run alone, leaves a mapping**, of some length. -/
theorem does_mapped (h : Mapped P base σ len) {op : Op E} (hres : Resizes base op) {g : Option (List In)} {r : Out E}
    (hd : Does (mapping P) op g r σ s') : ∃ len', Mapped P base s' len' := by
  cases hd with
  | answer | peek | read | busy => exact ⟨len, h⟩
  | @write ins l₀ l i r _ s _ hp he hlast =>
    cases op with
    | resize newSize =>
      cases hres newSize rfl
      simp only [mapping, plan] at hp
      split at hp
      · cases hp
      · rename_i h0
        split at hp
        · cases hp
        · rename_i hmax
          split at hp
          · cases hp
          · rename_i newLen hfit
            cases hp
            obtain ⟨-, rfl⟩ := resize_serial h.shape he hlast
            have hresize := resize_eq h.shape h0 hmax hfit (resizeOs P newLen len (ins ++ [i]))
            obtain ⟨len', hshape⟩ := h.shape.resized (resize_cases h.shape.mode h.shape.map newSize)
            rw [hresize] at hshape
            exact ⟨len', .of_shape hshape⟩
    | updateRegion | tryUpdateRegion =>
      simp only [mapping, plan] at hp
      split at hp <;> cases hp
      exact ⟨len, mapped_update h he hlast⟩
    | segmentWrite g data =>
      simp only [mapping, plan] at hp
      split at hp
      · cases hp
      · split at hp <;> cases hp
        exact ⟨len, mapped_update h he hlast⟩
    | asSliceMut | tryAsSliceMut =>
      cases hp
      exact ⟨len, mapped_guard h he hlast⟩
    | chunksMut chunkSize f =>
      simp only [mapping, plan] at hp
      split at hp
      · cases hp
      · rename_i h0
        cases hp
        exact ⟨len, mapped_chunks h h0 he hlast⟩
    | readInto | readBytes | asSlice | tryAsSlice =>
      simp only [mapping, plan] at hp
      split at hp <;> cases hp
    | flush | len => cases hp

/-! ## The policy -/

theorem edits_flushPolicy {l₀ l : WLoc E} (he : Edits (mapping P) σ l₀ ins l s) : s.flushPolicy = σ.flushPolicy := by
  induction he with
  | start => rfl
  | next _ hedit ih => exact (edit_kept hedit).flushPolicy.trans ih

theorem does_flushPolicy {op : Op E} {g : Option (List In)} {r : Out E} (hd : Does (mapping P) op g r σ s') :
    s'.flushPolicy = σ.flushPolicy := by
  cases hd with
  | answer | peek | read | busy => rfl
  | write _ he hlast => exact (edit_kept hlast).flushPolicy.trans (edits_flushPolicy he)

/-- A shared mapping under a policy by which an update asks for no flush. -/
structure Shared (P : Platform) (s : Inner) : Prop where
  mapped : ∃ len, Mapped P none s len
  quiet : Quiet s

/-- **A shared mapping**: every call, run alone, is its method, and leaves one. -/
theorem does_shared (op : Op E) (g : Option (List In)) (r : Out E) (s s' : Inner) (h : Shared P s)
    (hd : Does (mapping P) op g r s s') : Serial P op g r s s' ∧ Shared P s' := by
  obtain ⟨⟨len, hmapped⟩, hquiet⟩ := h
  refine ⟨does_serial hmapped (fun _ => hquiet) (fun _ _ => rfl) hd, does_mapped hmapped (fun _ _ => rfl) hd, ?_⟩
  unfold Quiet
  rw [does_flushPolicy hd]
  exact hquiet

/-! ## Every run -/

variable {V : Type} [DecidableEq V]

/-- **The methods of a shared mapping are linearizable**, under a policy by which an update asks for no flush. Take any number
of calls on a `ReadWrite` mapping, their accesses interleaved in any order the lock admits, the OS answering as it likes. The
calls that took effect, each once, can be replayed one after the other with the methods themselves, each given what the run
gave it: the uses of its view or guard, the answers of the OS, or that it gave up. Every call that returned is among them
with its result, nothing takes effect that was not called, a call that returned before another was made comes before it, and
when no writer is inside the mapping holds what the replay leaves. -/
theorem calls_linearizable (h : Shape P σ len) (hquiet : Quiet σ) {acts : List (Act V (Op E) In)}
    {t : State V Inner (Op E) RLoc (WLoc E) In (Out E)}
    (hr : Machine.run (step (mapping P)) (init σ) acts = some t) : Linearized (mapping P) (Serial P) σ acts t :=
  (linearized (Shared P) ⟨⟨len, .of_shape h⟩, hquiet⟩ (does_shared (P := P)) hr).1

/-- Two bytes, mapped. -/
def twoBytes : Inner := ⟨[1, 2], .rw 2, 2, .readWrite, .manual, 0, 0, false, [], []⟩

theorem shape_twoBytes : Shape linux64 twoBytes 2 := ⟨rfl, rfl, rfl, by decide, by decide⟩

/-- A guard that stores a 9, an update that gives up meanwhile, a length query, and a read that waits for the guard. -/
def guardReadLen : List (Act Nat (Op Unit) In) :=
  [.call 0 (.asSliceMut 0 2), .call 1 (.readInto 0 2), .enter 0, .access 0 .run, .access 0 (.put 1 9), .call 2 .len,
    .enter 2, .call 3 (.tryUpdateRegion 0 [7]), .giveUp 3, .access 0 (.get 1), .access 0 .drop, .leave 0, .enter 1,
    .access 1 .run, .access 1 .run, .access 1 .run, .access 1 .run, .leave 1]

theorem calls_linearizable_guardReadLen :
    ∃ t, Machine.run (step (mapping linux64)) (init twoBytes) guardReadLen = some t ∧
      Linearized (mapping linux64) (Serial linux64) twoBytes guardReadLen t ∧
      t.order.map Entry.who = [2, 3, 0, 1] ∧ t.shared.bytes = [1, 9] := by
  obtain ⟨t, ht⟩ := Option.isSome_iff_exists.1
    (show (Machine.run (step (mapping linux64)) (init twoBytes) guardReadLen).isSome = true from rfl)
  refine ⟨t, ht, calls_linearizable shape_twoBytes (Or.inr (Or.inl rfl)) ht, ?_⟩
  cases ht
  exact ⟨rfl, rfl⟩

/-! ## No access leaves the mapping -/

/-- The bytes the next access of a read section touches. -/
def touched : RLoc → In → Option Span
  | .copy start n dst, .run => if dst.length < n then some ⟨start + dst.length, start + dst.length + 1⟩ else none
  | .view start stop _, .get i => if i < stop - start then some ⟨start + i, start + i + 1⟩ else none
  | _, _ => none

/-- The bytes the next access of a write section touches. -/
def touchedMut : WLoc E → In → Option Span
  | .update start data stored _, .run => if stored < data.length then some ⟨start + stored, start + stored + 1⟩ else none
  | .guard start stop _, .get i | .guard start stop _, .put i _ =>
    if i < stop - start then some ⟨start + i, start + i + 1⟩ else none
  | .chunk chunkSize _ total _ offset, .run =>
    if offset < total then some ⟨offset, offset + min (total - offset) chunkSize⟩ else none
  | _, _ => none

/-- **A read faults exactly when a byte it touches is not mapped.** -/
theorem look_faults (h : Mapped P base s len) {l : RLoc} {i : In} {r : Span} (ht : touched l i = some r) :
    (look P l i s : Option (RLoc ⊕ Out E)) = none ↔ len < r.stop := by
  have hbyte : ∀ {k} {f : UInt8 → RLoc ⊕ Out E}, s.bytes[k]?.map f = none ↔ len < k + 1 := by
    intro k f
    rw [Option.map_eq_none_iff, List.getElem?_eq_none_iff, h.length_bytes, Nat.lt_succ_iff]
  cases l <;> cases i <;> simp only [touched, reduceCtorEq] at ht
  all_goals
    split at ht
    · rename_i hin
      cases ht
      rw [look, if_pos hin]
      exact hbyte
    · cases ht

/-- **A store, or a read through a guard, faults exactly when a byte it touches is not mapped.** -/
theorem edit_faults (h : Mapped P base s len) {l : WLoc E} {i : In} {r : Span} (ht : touchedMut l i = some r) :
    edit P l i s = none ↔ len < r.stop := by
  have hstore : ∀ {k b} {f : Inner → Inner × (WLoc E ⊕ Out E)}, (storeByte s k b).map f = none ↔ len < k + 1 := by
    intro k b f
    rw [Option.map_eq_none_iff, storeByte, h.mapLen]
    split
    · exact iff_of_false (Option.some_ne_none _) (by omega)
    · exact iff_of_true rfl (by omega)
  cases l with
  | update start data stored tries =>
    cases i <;> simp only [touchedMut, reduceCtorEq] at ht
    split at ht
    · rename_i hlt
      cases ht
      rw [edit, List.getElem?_eq_getElem hlt]
      exact hstore
    · cases ht
  | guard start stop seen =>
    cases i <;> simp only [touchedMut, reduceCtorEq] at ht
    all_goals
      split at ht
      · rename_i hin
        cases ht
        rw [edit, if_pos hin]
        first
          | exact hstore
          | rw [Option.map_eq_none_iff, List.getElem?_eq_none_iff, h.length_bytes, Nat.lt_succ_iff]
      · cases ht
  | chunk chunkSize f total past offset =>
    cases i <;> simp only [touchedMut, reduceCtorEq] at ht
    split at ht
    · rename_i hlt
      cases ht
      simp only [edit, if_pos hlt, h.mapLen]
      split
      · exact iff_of_true rfl ‹_›
      · split <;> exact iff_of_false (Option.some_ne_none _) ‹_›
    · cases ht
  | _ => cases i <;> cases ht

theorem looks_inside (h : Mapped P base σ len) {op : Op E} {l₀ l : RLoc} {i : In} {r : Span} (hp : plan P op = .read l₀)
    (hl : Looks (mapping P : Object _ _ (Op E) _ _ _ _) σ l₀ ins l) (ht : touched l i = some r) : r.stop ≤ len := by
  have hcopy : ∀ {offset n}, Looks (mapping P : Object _ _ (Op E) _ _ _ _) σ (.copyCheck offset n) ins l → r.stop ≤ len := by
    intro offset n hl
    rcases looks_copy h hl with rfl | ⟨dst, rfl, hfit, -, -⟩ <;> cases i <;> simp only [touched, reduceCtorEq] at ht
    split at ht
    · cases ht
      simp only
      omega
    · cases ht
  have hview : ∀ {offset n}, Looks (mapping P : Object _ _ (Op E) _ _ _ _) σ (.viewCheck offset n) ins l → r.stop ≤ len := by
    intro offset n hl
    rcases looks_view hl with ⟨rfl, -⟩ | ⟨start, stop, shown, rfl, hrange, -, -⟩ <;> cases i <;>
      simp only [touched, reduceCtorEq] at ht
    rw [h.mapLen, sliceRange_eq h.le_max] at hrange
    split at hrange
    · cases hrange
      split at ht
      · cases ht
        simp only
        omega
      · cases ht
    · cases hrange
  cases op with
  | readInto | readBytes =>
    simp only [plan] at hp
    split at hp <;> cases hp
    exact hcopy hl
  | asSlice | tryAsSlice =>
    simp only [plan] at hp
    split at hp <;> cases hp
    exact hview hl
  | flush =>
    cases hp
    rw [(looks_flush hl).1] at ht
    cases i <;> cases ht
  | updateRegion | tryUpdateRegion | segmentWrite | chunksMut | resize =>
    simp only [plan] at hp
    repeat' split at hp
    all_goals cases hp
  | asSliceMut | tryAsSliceMut | len => cases hp

theorem edits_inside (h : Mapped P base σ len) {op : Op E} (hres : Resizes base op) {l₀ l : WLoc E} {i : In} {r : Span}
    (hp : plan P op = .write l₀) (he : Edits (mapping P) σ l₀ ins l s) (ht : touchedMut l i = some r) :
    Mapped P base s len ∧ r.stop ≤ len := by
  have hupdate : ∀ {offset span data tries}, Edits (mapping P) σ (.updateCheck offset data span tries) ins l s →
      Mapped P base s len ∧ r.stop ≤ len := by
    intro offset span data tries he
    rcases edits_update h he with ⟨rfl, rfl⟩ | ⟨k, rfl, hfit, hk, rfl⟩ <;> cases i <;>
      simp only [touchedMut, reduceCtorEq] at ht
    split at ht
    · cases ht
      exact ⟨h.store (by rw [List.length_take]; omega), by simp only; omega⟩
    · cases ht
  have hguard : ∀ {offset n}, Edits (mapping P) σ (.guardCheck offset n) ins l s → Mapped P base s len ∧ r.stop ≤ len := by
    intro offset n he
    rcases edits_guard h he with ⟨rfl, -, rfl⟩ | ⟨start, stop, hrange, rfl, rfl⟩
    · cases i <;> cases ht
    · obtain ⟨hle, hstop⟩ := guardRange_ok h.le_max hrange
      refine ⟨h.store (by rw [length_useAll, length_extract h hstop]; omega), ?_⟩
      cases i <;> simp only [touchedMut, reduceCtorEq] at ht
      all_goals
        split at ht
        · cases ht
          simp only
          omega
        · cases ht
  cases op with
  | updateRegion | tryUpdateRegion =>
    simp only [plan] at hp
    split at hp <;> cases hp
    exact hupdate he
  | segmentWrite g data =>
    simp only [plan] at hp
    split at hp
    · cases hp
    · split at hp <;> cases hp
      exact hupdate he
  | asSliceMut | tryAsSliceMut =>
    cases hp
    exact hguard he
  | chunksMut chunkSize f =>
    simp only [plan] at hp
    split at hp
    · cases hp
    · rename_i h0
      cases hp
      rcases edits_chunks h (Nat.pos_of_ne_zero h0) he with ⟨rfl, rfl⟩ | ⟨past, offset, rfl, hmapped, -⟩ <;> cases i <;>
        simp only [touchedMut, reduceCtorEq] at ht
      split at ht
      · cases ht
        exact ⟨hmapped, by simp only; omega⟩
      · cases ht
  | resize newSize =>
    -- no access of a resize touches a byte
    exfalso
    simp only [plan] at hp
    split at hp
    · cases hp
    · split at hp
      · cases hp
      · split at hp
        · cases hp
        · cases hp
          cases hres newSize rfl
          have hat := edits_resize h.shape he
          cases l <;> first | exact hat.elim | (cases i <;> cases ht)
  | readInto | readBytes | asSlice | tryAsSlice =>
    simp only [plan] at hp
    split at hp <;> cases hp
  | flush | len => cases hp

/-- **No access leaves the mapping.** In every run, however updates, guards, chunk closures, reads, live views and resizes
interleave and whatever the OS answers, the bytes a call is about to read or write lie inside the mapping installed then,
and that mapping inside the file. -/
theorem accesses_inside (h : Shape P σ len) {acts : List (Act V (Op E) In)} {t : State V Inner (Op E) RLoc (WLoc E) In (Out E)}
    (hr : Machine.run (step (mapping P)) (init σ) acts = some t) {v : V} {op : Op E} {i : In} {r : Span}
    (hin : (∃ l, t.pc v = .reading op l ∧ touched l i = some r) ∨ (∃ l, t.pc v = .writing op l ∧ touchedMut l i = some r)) :
    r.stop ≤ t.shared.mapLen ∧ t.shared.mapLen ≤ t.shared.file.length := by
  have hinv := inv_run hr
  obtain ⟨len', hbase⟩ := base_holds (fun s => ∃ len', Mapped P none s len') ⟨len, .of_shape h⟩
    (fun op g r s s' ⟨len, hm⟩ hd => does_mapped hm (fun _ _ => rfl) hd) hr
  rcases hin with ⟨l, hv, ht⟩ | ⟨l, hv, ht⟩
  · have hshared : t.shared = t.base := hinv.shared fun u uop k hu => hinv.no_reading hu hv
    obtain ⟨l₀, ins, hp, -, hl⟩ := hinv.reading v op l hv
    rw [hshared] at hl ⊢
    rw [hbase.mapLen]
    exact ⟨looks_inside hbase hp hl ht, hbase.le_file⟩
  · obtain ⟨l₀, ins, hp, -, he⟩ := hinv.writing v op l hv
    obtain ⟨hmapped, hstop⟩ := edits_inside hbase (fun _ _ => rfl) hp he ht
    rw [hmapped.mapLen]
    exact ⟨hstop, hmapped.le_file⟩

/-- A grow before a read of its last byte, and a shrink that waits for the read. -/
def resizedRead : List (Act Nat (Op Unit) In) :=
  [.call 0 (.resize 4), .enter 0, .call 1 (.readInto 3 1), .access 0 (.os none), .access 0 (.map none none), .access 0 .run,
    .leave 0, .enter 1, .call 2 (.resize 1), .access 1 .run]

theorem accesses_inside_read : ∃ t, Machine.run (step (mapping linux64)) (init twoBytes) resizedRead = some t ∧
    step (mapping linux64) t (.enter 2) = none ∧ (4 : Nat) ≤ t.shared.mapLen := by
  obtain ⟨t, ht⟩ := Option.isSome_iff_exists.1
    (show (Machine.run (step (mapping linux64)) (init twoBytes) resizedRead).isSome = true by decide)
  have hpc : t.pc 1 = .reading (.readInto 3 1) (.copy 3 1 []) := by
    cases ht
    rfl
  refine ⟨t, ht, ?_, (accesses_inside shape_twoBytes ht (i := .run) (r := ⟨3, 4⟩) (Or.inl ⟨_, hpc, rfl⟩)).1⟩
  cases ht
  rfl

end Sections
end MmapIo
