import MmapIo.Lib.Linear
import MmapIo.NonSharedVec
import MmapIo.RawMapping
/-!
# Advice — hints and page locks under the mapping's lock

`advise` (`advise.rs`), `lock` and `unlock` (`lock.rs`) as sections of the mapping's lock: the range check, then the OS call
on the pages of the range.  A hint, and a page lock, hold a read guard and change nothing; `DontNeed` on a private mapping
takes the write lock, and the OS puts back the file's bytes page by page.  `does_serial` says what a call does when it runs
alone, `looks_span` and `edits_discard` what it hands to the OS.
-/
namespace MmapIo
namespace Advice

open Word Bytes Linear
open Raw (MmapAdvice)

inductive Op where
  | advise (offset len : Nat) (advice : MmapAdvice)
  | lock (offset len : Nat)
  | unlock (offset len : Nat)

/-- The OS call that `advise_span` or `lock_span` makes. -/
inductive SpanCall where
  | advise (advice : MmapAdvice)
  | lock (lock : Bool)

/-- What the OS answers; `notLocked` is the `ERROR_NOT_LOCKED` of `VirtualUnlock`. -/
inductive In where
  | run
  | os (answer : Option String)
  | notLocked

inductive RLoc where
  | check (offset len : Nat) (c : SpanCall)
  | call (addr count : Nat) (c : SpanCall)

inductive WLoc where
  | check (offset len : Nat)
  /-- `madvise(MADV_DONTNEED)` up to the byte `stop`, before its `k`-th page of the mapping -/
  | discard (k stop : Nat)

/-- The error of a call that failed. -/
def SpanCall.failed (P : Platform) (text : String) : SpanCall → MmapIoError
  | .advise _ => .adviceFailed ((if P.windows then "PrefetchVirtualMemory" else "madvise") ++ " failed: " ++ text)
  | .lock true =>
    .lockFailed (if P.windows then "VirtualLock failed: " ++ text ++ ". This operation may require elevated privileges."
      else "mlock failed: " ++ text ++ ". This operation typically requires elevated privileges.")
  | .lock false => .unlockFailed ((if P.windows then "VirtualUnlock" else "munlock") ++ " failed: " ++ text)

/-- The result of a call, from what the OS answers. Windows has no hint but the prefetch. -/
def SpanCall.returns (P : Platform) (c : SpanCall) (i : In) : Option (Except MmapIoError Unit) :=
  match c, i with
  | .advise advice, .run => if P.windows = true ∧ advice ≠ .willNeed then some (.ok ()) else none
  | .advise advice, .os answer =>
    if P.windows = true ∧ advice ≠ .willNeed then none
    else some (match answer with
      | none => .ok ()
      | some text => .error (c.failed P text))
  | .lock _, .os answer =>
    some (match answer with
      | none => .ok ()
      | some text => .error (c.failed P text))
  | .lock false, .notLocked => if P.windows then some (.ok ()) else none
  | _, _ => none

/-- One access of a read section. -/
def look (P : Platform) : RLoc → In → Inner → Option (RLoc ⊕ Except MmapIoError Unit)
  | .check offset len c, .run, s =>
    match pageSpan P.width P.page s.mapLen offset len with
    | .error e => some (.inr (.error e))
    | .ok (addr, count) => some (.inl (.call addr count c))
  | .call _ _ c, i, _ => (c.returns P i).map .inr
  | _, _, _ => none

/-- The private copy of the `k`-th page is thrown away: its bytes are the file's. -/
def discardPage (page k : Nat) (s : Inner) : Inner :=
  match s.map with
  | .cow bytes =>
    { s with map := .cow (splice bytes (k * page) (s.file.extract (k * page) (min ((k + 1) * page) bytes.length))) }
  | .ro _ | .rw _ => s

/-- One access of a write section. Only Linux promises that the page is thrown away. -/
def edit (P : Platform) : WLoc → In → Inner → Option (Inner × (WLoc ⊕ Except MmapIoError Unit))
  | .check offset len, .run, s =>
    match pageSpan P.width P.page s.mapLen offset len with
    | .error e => some (s, .inr (.error e))
    | .ok (addr, count) => some (s, .inl (.discard (addr / P.page) (addr + count)))
  | .discard k stop, .run, s =>
    if P.windows then some (s, .inr (.ok ()))
    else if P.linux = true ∨ stop ≤ k * P.page then none
    else some (s, .inl (.discard (k + 1) stop))
  | .discard k stop, .os answer, s =>
    if P.windows then none
    else
      match answer with
      | some text => some (s, .inr (.error ((SpanCall.advise .dontNeed).failed P text)))
      | none =>
        if k * P.page < stop then some (discardPage P.page k s, .inl (.discard (k + 1) stop)) else some (s, .inr (.ok ()))
  | _, _, _ => none

/-- A call before its section. `priv` says that the mapping is a writable copy-on-write one. -/
def plan (priv : Bool) : Op → Plan Nat RLoc WLoc (Except MmapIoError Unit)
  | .advise offset len advice =>
    if len = 0 then .answer (.ok ())
    else if priv = true ∧ advice = .dontNeed then .write (.check offset len)
    else .read (.check offset len (.advise advice))
  | .lock offset len => if len = 0 then .answer (.ok ()) else .read (.check offset len (.lock true))
  | .unlock offset len => if len = 0 then .answer (.ok ()) else .read (.check offset len (.lock false))

theorem discardPage_cachedLen (page k : Nat) (s : Inner) : (discardPage page k s).cachedLen = s.cachedLen := by
  unfold discardPage
  split <;> rfl

theorem edit_cachedLen {P : Platform} {l l' : WLoc} {i : In} {s s' : Inner} (h : edit P l i s = some (s', .inl l')) :
    s'.cachedLen = s.cachedLen := by
  cases l <;> cases i <;> simp only [edit, reduceCtorEq] at h
  · split at h
    · cases h
    · cases h
      rfl
  · split at h
    · cases h
    · split at h
      · cases h
      · cases h
        rfl
  · split at h
    · cases h
    · split at h
      · cases h
      · split at h
        · cases h
          exact discardPage_cachedLen ..
        · cases h

/-- The hints and page locks of a mapping. -/
def advice (P : Platform) (priv : Bool) : Object Inner Nat Op RLoc WLoc In (Except MmapIoError Unit) where
  pub := Inner.cachedLen
  plan := plan priv
  busy := fun _ => none
  look := look P
  edit := edit P
  edit_pub := edit_cachedLen

/-! ## The calls one after the other -/

/-- What a call on a range returns: the range is checked, then it is what the last answer of the OS makes it. -/
def Returns (P : Platform) (c : SpanCall) (offset len : Nat) (ins : List In) (r : Except MmapIoError Unit) (s : Inner) : Prop :=
  if len = 0 then r = .ok ()
  else if s.mapLen < offset + len then r = .error (.outOfBounds offset len s.mapLen)
  else ins.getLast?.bind (c.returns P) = some r

/-- The `p`-th page holds a byte of the range. -/
def Meets (P : Platform) (offset len p : Nat) : Prop := offset < (p + 1) * P.page ∧ p * P.page < offset + len

/-- **What `DontNeed` leaves of the private bytes**: some pages of the range hold the file's bytes again, every other byte of
the mapping is what it was, and so is everything else. When Linux reports success they are all the pages of the range; on
Windows there are none. -/
structure Discarded (P : Platform) (offset len : Nat) (r : Except MmapIoError Unit) (s s' : Inner) : Prop where
  pages : ∃ dropped : Nat → Bool, (∀ p, dropped p = true → Meets P offset len p) ∧
    (P.windows = true → ∀ p, dropped p = false) ∧
    (P.windows = false → P.linux = true → r = .ok () → ∀ p, Meets P offset len p → dropped p = true) ∧
    ∀ i < s.mapLen, s'.bytes[i]? = if dropped (i / P.page) then s.file[i]? else s.bytes[i]?
  length : s'.mapLen = s.mapLen
  rest : s' = { s with map := .cow s'.bytes }

/-- **What each call does when it runs alone**, given the answers of the OS. -/
def Serial (P : Platform) (priv : Bool) : Op → Option (List In) → Except MmapIoError Unit → Inner → Inner → Prop
  | .advise offset len advice, some ins, r, s, s' => Returns P (.advise advice) offset len ins r s ∧
      if priv = true ∧ advice = .dontNeed ∧ len ≠ 0 ∧ offset + len ≤ s.mapLen then Discarded P offset len r s s' else s' = s
  | .lock offset len, some ins, r, s, s' => Returns P (.lock true) offset len ins r s ∧ s' = s
  | .unlock offset len, some ins, r, s, s' => Returns P (.lock false) offset len ins r s ∧ s' = s
  | _, none, _, _, _ => False

variable {P : Platform} {priv : Bool} {σ s s' : Inner} {ins : List In}

/-- **The span of a read section** is page aligned, not empty and inside the mapping. -/
theorem looks_span (hmax : σ.mapLen ≤ P.width.maxLen) {offset len : Nat} {c : SpanCall} {l : RLoc}
    (hl : Looks (advice P priv) σ (.check offset len c) ins l) :
    l = .check offset len c ∨ offset + len ≤ σ.mapLen ∧
      l = .call (offset - offset % P.page) (offset + len - (offset - offset % P.page)) c := by
  induction hl with
  | start => exact Or.inl rfl
  | @next ins l l' i _ hlook ih =>
    refine Or.inr ?_
    rcases ih with rfl | ⟨-, rfl⟩
    · cases i <;> simp only [advice, look, reduceCtorEq] at hlook
      rw [pageSpan_eq hmax] at hlook
      by_cases hfit : offset + len ≤ σ.mapLen
      · rw [if_pos hfit] at hlook
        cases hlook
        exact ⟨hfit, rfl⟩
      · rw [if_neg hfit] at hlook
        cases hlook
    · simp only [advice, look] at hlook
      obtain ⟨r, -, heq⟩ := Option.map_eq_some_iff.1 hlook
      cases heq

theorem returns_advise (hw : ¬ P.windows = true) (advice : MmapAdvice) (answer : Option String) :
    (SpanCall.advise advice).returns P (.os answer) = some (match answer with
      | none => .ok ()
      | some text => .error ((SpanCall.advise advice).failed P text)) :=
  if_neg (fun hc => hw hc.1)

/-- **A read section** returns what its range and the OS say. -/
theorem span_returns (hmax : σ.mapLen ≤ P.width.maxLen) {offset len : Nat} (h0 : len ≠ 0) {c : SpanCall} {l : RLoc} {i : In}
    {r : Except MmapIoError Unit} (hl : Looks (advice P priv) σ (.check offset len c) ins l)
    (hlast : look P l i σ = some (.inr r)) : Returns P c offset len (ins ++ [i]) r σ := by
  unfold Returns
  rw [if_neg h0]
  rcases looks_span hmax hl with rfl | ⟨hfit, rfl⟩
  · cases i <;> simp only [look, reduceCtorEq] at hlast
    rw [pageSpan_eq hmax] at hlast
    by_cases hfit : offset + len ≤ σ.mapLen
    · rw [if_pos hfit] at hlast
      cases hlast
    · rw [if_neg hfit] at hlast
      cases hlast
      rw [if_pos (by omega)]
  · simp only [look] at hlast
    obtain ⟨r', hr, heq⟩ := Option.map_eq_some_iff.1 hlast
    cases heq
    rw [if_neg (by omega), List.getLast?_concat]
    exact hr

/-! ## Private pages -/

variable {bs : List UInt8} {offset len k : Nat}

/-- **A page that is thrown away**: its bytes are the file's, the others what they were. -/
theorem getElem?_discard {file : List UInt8} (hfile : file.length = bs.length) {page : Nat} (hpage : 0 < page)
    (hk : k * page < bs.length) {i : Nat} (hi : i < bs.length) :
    (splice bs (k * page) (file.extract (k * page) (min ((k + 1) * page) bs.length)))[i]? =
      if i / page = k then file[i]? else bs[i]? := by
  have hnext : (k + 1) * page = k * page + page := Nat.succ_mul k page
  have hlen : (file.extract (k * page) (min ((k + 1) * page) bs.length)).length =
      min ((k + 1) * page) bs.length - k * page := by
    rw [List.extract, List.length_take, List.length_drop]
    omega
  have hin : i / page = k ↔ k * page ≤ i ∧ i < (k + 1) * page := by
    rw [← Nat.le_div_iff_mul_le hpage, ← Nat.div_lt_iff_lt_mul hpage]
    omega
  rw [getElem?_splice (by omega), hlen]
  by_cases hik : i / page = k
  · have hb := hin.1 hik
    rw [if_pos hik, if_pos (by omega), List.extract, List.getElem?_take_of_lt (by omega), List.getElem?_drop]
    congr 1
    omega
  · have hb : ¬ (k * page ≤ i ∧ i < (k + 1) * page) := fun hb => hik (hin.2 hb)
    rw [if_neg hik, if_neg (by omega)]

/-- `madvise(MADV_DONTNEED)` before the `k`-th page: pages of the range before it are thrown away, on Linux all of them. -/
structure Discarding (P : Platform) (offset len k : Nat) (σ s : Inner) : Prop where
  pages : ∃ dropped : Nat → Bool, (∀ p, dropped p = true → Meets P offset len p ∧ p < k) ∧
    (P.linux = true → ∀ p, Meets P offset len p → p < k → dropped p = true) ∧
    ∀ i < σ.mapLen, s.bytes[i]? = if dropped (i / P.page) then σ.file[i]? else σ.bytes[i]?
  length : s.mapLen = σ.mapLen
  rest : s = { σ with map := .cow s.bytes }

theorem page_pos (P : Platform) : 0 < P.page := Nat.pos_of_isPowerOfTwo P.page_pow

/-- The first page of the range. -/
theorem first_le_of_meets {p : Nat} (h : Meets P offset len p) : offset / P.page ≤ p :=
  Nat.lt_succ_iff.1 ((Nat.div_lt_iff_lt_mul (page_pos P)).2 h.1)

theorem meets_of_first_le (hk : offset / P.page ≤ k) (hstop : k * P.page < offset + len) : Meets P offset len k :=
  ⟨(Nat.div_lt_iff_lt_mul (page_pos P)).1 (Nat.lt_succ_iff.2 hk), hstop⟩

theorem discarding_start (hm : σ.map = .cow bs) : Discarding P offset len (offset / P.page) σ σ where
  pages := by
    refine ⟨fun _ => false, fun p hp => absurd hp Bool.false_ne_true, fun _ p hp hlt => ?_, fun i _ => rfl⟩
    exact absurd hlt (Nat.not_lt.2 (first_le_of_meets hp))
  length := rfl
  rest := by rw [NonShared.bytes_cow hm, ← hm]

/-- A page is thrown away. -/
theorem Discarding.drop (h : Discarding P offset len k σ s) (hfile : σ.file.length = σ.mapLen) (hk : offset / P.page ≤ k)
    (hfit : offset + len ≤ σ.mapLen) (hstop : k * P.page < offset + len) :
    Discarding P offset len (k + 1) σ (discardPage P.page k s) := by
  obtain ⟨⟨dropped, hmeets, hall, hbytes⟩, hlength, hrest⟩ := h
  have hmap : s.map = .cow s.bytes := by rw [hrest]; rfl
  have hsfile : s.file = σ.file := by rw [hrest]
  have hslen : s.bytes.length = σ.mapLen := by rw [← hlength, NonShared.mapLen_cow hmap]
  have heq : discardPage P.page k s = { σ with map := .cow (splice s.bytes (k * P.page)
      (σ.file.extract (k * P.page) (min ((k + 1) * P.page) s.bytes.length))) } := by
    unfold discardPage
    rw [hmap]
    simp only [hsfile]
    rw [hrest]
  have hnext : (k + 1) * P.page = k * P.page + P.page := Nat.succ_mul k P.page
  rw [heq]
  refine ⟨⟨fun p => dropped p || p == k, fun p hp => ?_, fun hlinux p hp hlt => ?_, fun i hi => ?_⟩, ?_, rfl⟩
  · rcases Bool.or_eq_true_iff.1 hp with hp | hp
    · exact ⟨(hmeets p hp).1, Nat.lt_succ_of_lt (hmeets p hp).2⟩
    · cases beq_iff_eq.1 hp
      exact ⟨meets_of_first_le hk hstop, Nat.lt_succ_self k⟩
  · rcases Nat.lt_succ_iff_lt_or_eq.1 hlt with hlt | rfl
    · simp only [hall hlinux p hp hlt, Bool.true_or]
    · simp only [beq_self_eq_true, Bool.or_true]
  · show (splice s.bytes (k * P.page) _)[i]? = _
    rw [getElem?_discard (by omega) (page_pos P) (by omega) (by omega), hbytes i hi]
    by_cases hik : i / P.page = k
    · simp only [hik, if_true, beq_self_eq_true, Bool.or_true]
    · simp only [hik, if_false, beq_eq_false_iff_ne.2 hik, Bool.or_false]
  · show (splice s.bytes (k * P.page) _).length = _
    rw [length_splice, hslen]
    rw [List.extract, List.length_take, List.length_drop]
    omega

/-- A page is kept. -/
theorem Discarding.keep (h : Discarding P offset len k σ s) (hlinux : P.linux ≠ true) :
    Discarding P offset len (k + 1) σ s := by
  obtain ⟨⟨dropped, hmeets, -, hbytes⟩, hlength, hrest⟩ := h
  refine ⟨⟨dropped, fun p hp => ?_, fun hl => absurd hl hlinux, hbytes⟩, hlength, hrest⟩
  exact ⟨(hmeets p hp).1, Nat.lt_succ_of_lt (hmeets p hp).2⟩

/-- **The section of `DontNeed`**: the pages before the one it is at are done, and its span is page aligned and inside the
mapping. -/
theorem edits_discard (hm : σ.map = .cow bs) (hfile : σ.file.length = bs.length) (hmax : bs.length ≤ P.width.maxLen) {l : WLoc}
    (he : Edits (advice P priv) σ (.check offset len) ins l s) :
    l = .check offset len ∧ s = σ ∨ ∃ k, l = .discard k (offset + len) ∧ offset + len ≤ σ.mapLen ∧ offset / P.page ≤ k ∧
      (P.windows = true → k = offset / P.page) ∧ Discarding P offset len k σ s := by
  have hlen : σ.mapLen = bs.length := NonShared.mapLen_cow hm
  induction he with
  | start => exact Or.inl ⟨rfl, rfl⟩
  | @next ins l l' i s s' _ hedit ih =>
    refine Or.inr ?_
    rcases ih with ⟨rfl, rfl⟩ | ⟨k, rfl, hfit, hk, hwin, hdis⟩ <;> cases i <;>
      simp only [advice, edit, reduceCtorEq] at hedit
    · rw [pageSpan_eq (by omega)] at hedit
      by_cases hfit : offset + len ≤ s.mapLen
      · rw [if_pos hfit] at hedit
        cases hedit
        have hfirst : (offset - offset % P.page) / P.page = offset / P.page := by
          rw [← Nat.mul_div_self_eq_mod_sub_self, Nat.mul_div_cancel_left _ (page_pos P)]
        have hstop : offset - offset % P.page + (offset + len - (offset - offset % P.page)) = offset + len := by omega
        exact ⟨offset / P.page, by rw [hfirst, hstop], hfit, Nat.le_refl _, fun _ => rfl, discarding_start hm⟩
      · rw [if_neg hfit] at hedit
        cases hedit
    · split at hedit
      · cases hedit
      · rename_i hw
        split at hedit
        · cases hedit
        · rename_i hkeep
          cases hedit
          exact ⟨k + 1, rfl, hfit, Nat.le_succ_of_le hk, fun h => absurd h hw, hdis.keep (fun hl => hkeep (Or.inl hl))⟩
    · split at hedit
      · cases hedit
      · rename_i hw
        split at hedit
        · cases hedit
        · split at hedit
          · rename_i hlt
            cases hedit
            exact ⟨k + 1, rfl, hfit, Nat.le_succ_of_le hk, fun h => absurd h hw, hdis.drop (by omega) hk hfit hlt⟩
          · cases hedit

/-- **`DontNeed` on private pages**, alone. -/
theorem discard_serial (hm : σ.map = .cow bs) (hfile : σ.file.length = bs.length) (hmax : bs.length ≤ P.width.maxLen)
    (h0 : len ≠ 0) {l : WLoc} {i : In} {r : Except MmapIoError Unit} (he : Edits (advice P priv) σ (.check offset len) ins l s)
    (hlast : edit P l i s = some (s', .inr r)) :
    Returns P (.advise .dontNeed) offset len (ins ++ [i]) r σ ∧
      if offset + len ≤ σ.mapLen then Discarded P offset len r σ s' else s' = σ := by
  have hlen : σ.mapLen = bs.length := NonShared.mapLen_cow hm
  unfold Returns
  rw [if_neg h0]
  rcases edits_discard hm hfile hmax he with ⟨rfl, rfl⟩ | ⟨k, rfl, hfit, hk, hwin, hdis⟩
  · cases i <;> simp only [edit, reduceCtorEq] at hlast
    rw [pageSpan_eq (by omega)] at hlast
    by_cases hfit : offset + len ≤ s.mapLen
    · rw [if_pos hfit] at hlast
      cases hlast
    · rw [if_neg hfit] at hlast
      cases hlast
      rw [if_pos (by omega), if_neg hfit]
      exact ⟨rfl, rfl⟩
  · rw [if_neg (by omega), if_pos hfit, List.getLast?_concat, Option.bind_some]
    obtain ⟨⟨dropped, hmeets, hall, hbytes⟩, hlength, hrest⟩ := hdis
    have hnone : P.windows = true → ∀ p, dropped p = false := by
      intro hw p
      by_contra hp
      obtain ⟨hp, hlt⟩ := hmeets p (by simpa using hp)
      have := first_le_of_meets hp
      rw [hwin hw] at hlt
      omega
    -- what is left to say is whether all pages are gone
    have hdiscarded : (P.windows = false → P.linux = true → r = .ok () → ∀ p, Meets P offset len p → p < k) →
        Discarded P offset len r σ s := by
      intro hdone
      refine ⟨⟨dropped, fun p hp => (hmeets p hp).1, hnone, fun hw hl hr p hp => ?_, hbytes⟩, hlength, hrest⟩
      exact hall hl p hp (hdone hw hl hr p hp)
    cases i <;> simp only [edit, reduceCtorEq] at hlast
    · split at hlast
      · rename_i hw
        cases hlast
        exact ⟨if_pos ⟨hw, by decide⟩, hdiscarded (fun h => absurd (hw.symm.trans h) Bool.noConfusion)⟩
      · split at hlast
        · cases hlast
        · cases hlast
    · split at hlast
      · cases hlast
      · rename_i hw
        rw [returns_advise hw]
        split at hlast
        · cases hlast
          exact ⟨rfl, hdiscarded (fun _ _ h => by cases h)⟩
        · split at hlast
          · cases hlast
          · rename_i hge
            cases hlast
            refine ⟨rfl, hdiscarded (fun _ _ _ p hp => ?_)⟩
            exact Nat.lt_of_mul_lt_mul_right (Nat.lt_of_lt_of_le hp.2 (Nat.not_lt.1 hge))

/-! ## Every call -/

/-- The pages of a writable copy-on-write mapping lie over a file of its length. -/
def PrivatePages (s : Inner) : Prop := ∃ bytes, s.map = .cow bytes ∧ s.file.length = bytes.length

theorem returns_zero {c : SpanCall} {offset : Nat} : Returns P c offset 0 ins (.ok ()) σ := by
  unfold Returns
  rw [if_pos rfl]

/-- **Every call, run alone**, returns what its range and the OS say; only `DontNeed` on private pages changes anything. -/
theorem does_serial (hmax : σ.mapLen ≤ P.width.maxLen) (hpriv : priv = true → PrivatePages σ) {op : Op}
    {g : Option (List In)} {r : Except MmapIoError Unit} (hd : Does (advice P priv) op g r σ s') :
    Serial P priv op g r σ s' := by
  have hquiet : ∀ {advice : MmapAdvice} {offset len : Nat}, ¬ (priv = true ∧ advice = .dontNeed) ∨ len = 0 →
      if priv = true ∧ advice = .dontNeed ∧ len ≠ 0 ∧ offset + len ≤ σ.mapLen then Discarded P offset len r σ σ
      else σ = σ := by
    intro advice offset len h
    rw [if_neg]
    rintro ⟨hp, ha, h0, -⟩
    exact h.elim (fun h => h ⟨hp, ha⟩) h0
  cases hd with
  | answer hp =>
    cases op <;> simp only [advice, plan] at hp
    case advise offset len adv =>
      split at hp
      · rename_i h0
        cases hp
        subst h0
        exact ⟨returns_zero, hquiet (Or.inr rfl)⟩
      · split at hp <;> cases hp
    all_goals
      split at hp
      · rename_i h0
        cases hp
        subst h0
        exact ⟨returns_zero, rfl⟩
      · cases hp
  | peek hp =>
    cases op <;> simp only [advice, plan] at hp <;> repeat' split at hp
    all_goals cases hp
  | read hp hl hlast =>
    cases op <;> simp only [advice, plan] at hp
    case advise offset len adv =>
      split at hp
      · cases hp
      · rename_i h0
        split at hp
        · cases hp
        · rename_i hno
          cases hp
          exact ⟨span_returns hmax h0 hl hlast, hquiet (Or.inl hno)⟩
    all_goals
      split at hp
      · cases hp
      · rename_i h0
        cases hp
        exact ⟨span_returns hmax h0 hl hlast, rfl⟩
  | write hp he hlast =>
    cases op <;> simp only [advice, plan] at hp
    case advise offset len adv =>
      split at hp
      · cases hp
      · rename_i h0
        split at hp
        · rename_i hyes
          obtain ⟨hp', rfl⟩ := hyes
          cases hp
          obtain ⟨bytes, hm, hfile⟩ := hpriv hp'
          have hlen : σ.mapLen = bytes.length := NonShared.mapLen_cow hm
          obtain ⟨hret, hdis⟩ := discard_serial hm hfile (hlen ▸ hmax) h0 he hlast
          refine ⟨hret, ?_⟩
          simpa only [hp', h0, true_and, ne_eq, not_false_eq_true] using hdis
        · cases hp
    all_goals split at hp <;> cases hp
  | busy hb => cases hb

end Advice
end MmapIo
