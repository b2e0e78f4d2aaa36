import MmapIo.Construct
import MmapIo.Reader
/-!
# ConstructLen — the recorded length against the mapped one

A constructor records a length (`cached_len`) and maps the file; where it asks the raw layer for the whole file, the raw
layer queries the length again, and another process may have changed it in between.  Over every interleaving the two
lengths agree exactly when the last `set_len` of another process between the two, if there is one, sets the length the file
had (`length_agreement`); a constructor that passes its length on always agrees, and then the reader and the checks against
`len()` agree with `as_slice` and `read_into`.
-/
namespace MmapIo
namespace Construct

open Machine Word

variable {P : Platform} {c : Ctor} {os : Os} {w w' : World}

/-- The recorded length is the mapped one, and a mapping that can be written, or is private, is not empty. -/
structure Agrees (s : Inner) : Prop where
  len : s.cachedLen = s.mapLen
  nonempty : s.mode ≠ .readOnly → s.mapLen ≠ 0

/-- The raw layer's own query, when it decides the length, finds the recorded one. -/
def SameLen (w : World) : Act → Prop
  | .call _ => ∀ len, w.phase = .mapQuery len none → w.file.length = len
  | .setLen _ => True

theorem mapLen_inner (c : Ctor) (file : List UInt8) (len mapLen : Nat) : (c.inner file len mapLen).mapLen = mapLen := by
  unfold Ctor.inner Inner.mapLen
  cases c.mode with
  | readOnly => rfl
  | readWrite => rfl
  | copyOnWrite =>
    cases c.cowWritable with
    | true => exact Bytes.length_setLen ..
    | false => rfl

theorem agrees_inner {file : List UInt8} {len mapLen : Nat} (hlen : c.mode ≠ .readOnly → 0 < len) :
    Agrees (c.inner file len mapLen) ↔ mapLen = len := by
  constructor
  · intro h
    have := h.len
    rw [mapLen_inner] at this
    exact this.symm
  · rintro rfl
    refine ⟨(mapLen_inner ..).symm, ?_⟩
    intro hm
    rw [mapLen_inner]
    exact Nat.ne_of_gt (hlen hm)

/-- What the run so far says about the two lengths: the condition `same` on the steps taken decides whether they agree. -/
def Track (same : Prop) : Phase → Prop
  | .mapping len mapLen => mapLen = len ↔ same
  | .done (.ok s) => Agrees s ↔ same
  | .done (.error _) => True
  | _ => same

theorem track_early {same : Prop} {ph : Phase} (he : ph.early = true) : Track same ph ↔ same := by
  cases ph
  case mapQuery | mapping | done => cases he
  all_goals exact Iff.rfl

theorem sameLen_of_early (he : w.phase.early = true) : SameLen w (.call os) := by
  intro len hp
  rw [hp] at he
  cases he

/-- **One call keeps the account of the lengths.** -/
theorem call_track {same : Prop} (hs : w.phase.Sound P c) (ht : Track same w.phase) (h : call P c os w = some w') :
    Track (same ∧ SameLen w (.call os)) w'.phase := by
  cases he : w.phase.early with
  | true =>
    have hsame := (track_early he).1 ht
    rcases (call_early hs he h).2 with ⟨e, hp'⟩ | he' | ⟨len, hp'⟩
    · rw [hp']
      trivial
    · exact (track_early he').2 ⟨hsame, sameLen_of_early he⟩
    · rw [hp']
      exact ⟨hsame, sameLen_of_early he⟩
  | false =>
    cases hp : w.phase with
    | mapQuery len request =>
      rw [hp] at hs ht
      obtain ⟨hlen, hreq⟩ := hs
      -- an explicit request is the recorded length; else the file decides
      have hiff : request.getD w.file.length = len ↔ same ∧ SameLen w (.call os) := by
        have hsame : SameLen w (.call os) ↔ request = none → w.file.length = len := by
          constructor
          · intro hsl hnone
            exact hsl len (by rw [hp, hnone])
          · intro hsl len' hp'
            rw [hp] at hp'
            cases hp'
            exact hsl rfl
        rw [hsame, and_iff_right (show same from ht), hreq]
        cases c.whole <;> simp
      rcases call_mapQuery hp h with ⟨e, hp'⟩ | ⟨hz, hp'⟩ | ⟨-, hp'⟩ <;> rw [hp']
      · trivial
      · show Agrees _ ↔ _
        rw [agrees_inner hlen, ← hiff, hz]
      · exact hiff
    | mapping len mapLen =>
      rw [hp] at hs ht
      have hsame : SameLen w (.call os) := by
        intro len' hp'
        rw [hp] at hp'
        cases hp'
      rcases call_mapping hp h with ⟨e, hp'⟩ | hp' <;> rw [hp']
      · trivial
      · show Agrees _ ↔ _
        rw [agrees_inner hs.1, and_iff_left hsame]
        exact ht
    | done r =>
      unfold call at h
      rw [hp] at h
      cases h
    | _ =>
      rw [hp] at he
      cases he

theorem run_track {path : Option (List UInt8)} {acts : List Act} (hr : run (step P c) (start P c path) acts = some w) :
    w.phase.Sound P c ∧ Track (EachStep (step P c) (start P c path) SameLen acts) w.phase := by
  refine run_induction (fun acts w => w.phase.Sound P c ∧
    Track (EachStep (step P c) (start P c path) SameLen acts) w.phase) ⟨begin_sound P c, ?_⟩ ?_ acts w hr
  · have hnil := eachStep_nil (step P c) (start P c path) SameLen
    rcases begin_cases P c with ⟨e, hp⟩ | he
    · rw [start, hp]
      trivial
    · exact (track_early he).2 hnil
  · intro acts a w w' hrun ih hs
    rw [propext (eachStep_concat hrun)]
    cases a with
    | call os => exact ⟨call_sound ih.1 hs, call_track ih.1 ih.2 hs⟩
    | setLen n =>
      cases hs
      simp only [SameLen, and_true]
      exact ih

/-! ## The other process between the two queries -/

/-- The length that the constructor's own next call finds, or sets. -/
def World.ownLen (w : World) : Option Nat :=
  match w.phase with
  | .querying _ => w.path.map List.length
  | .sizing size => some size
  | _ => none

/-- The raw layer's own query comes next, and decides what is mapped. -/
def World.AsksRaw (w : World) : Prop := ∃ len, w.phase = .mapQuery len none

/-- **The file keeps its length between the two queries**: of the `set_len` calls that another process makes after the
constructor took the length and before the raw layer asks for it, the last one, if there is one, sets that length. -/
def Restored (P : Platform) (c : Ctor) (path : Option (List UInt8)) (acts : List Act) : Prop :=
  ∀ (pre : List Act) (os : Os) (sets : List Nat) (os' : Os) (post : List Act) (w w' : World) (n : Nat),
    acts = pre ++ .call os :: (sets.map Act.setLen ++ .call os' :: post) → run (step P c) (start P c path) pre = some w →
    call P c os w = some w' → w'.AsksRaw → w.ownLen = some n → ∀ m, sets.getLast? = some m → m = n

/-- A constructor that sets a length, or goes on to, has a file. -/
def Opened (c : Ctor) (w : World) : Prop :=
  match w.phase with
  | .querying _ => c.opensOrCreates = true → w.path ≠ none
  | .sizing _ => w.path ≠ none
  | _ => True

theorem begin_opened (P : Platform) (c : Ctor) : (∀ size, c.begin P ≠ .sizing size) ∧
    ∀ again, c.begin P = .querying again → c.opensOrCreates = false := by
  unfold Ctor.begin
  split <;> repeat' split
  all_goals refine ⟨nofun, fun again h => ?_⟩
  all_goals first | rfl | cases h

theorem start_opened (P : Platform) (c : Ctor) (path : Option (List UInt8)) : Opened c (start P c path) := by
  obtain ⟨hsizing, hquerying⟩ := begin_opened P c
  unfold Opened start
  cases hb : c.begin P with
  | querying again =>
    intro hopens
    rw [hquerying again hb] at hopens
    cases hopens
  | sizing size => exact absurd hb (hsizing size)
  | _ => trivial

/-- `w'` asks the raw layer for a file whose length is the recorded one. -/
def Took (w w' : World) : Prop :=
  ∀ len, w'.phase = .mapQuery len none →
    (w.path = none ∧ w'.path = none ∧ len = 0) ∨ (w.ownLen = some len ∧ w'.path.map List.length = some len)

theorem mapFrom_took {len : Nat} {v : World} (h : (v.path = none ∧ w.path = none ∧ len = 0) ∨
    (w.ownLen = some len ∧ v.path.map List.length = some len)) :
    Opened c (mapFrom P c len v) ∧ Took w (mapFrom P c len v) := by
  rcases mapFrom_cases P c len v with ⟨e, heq⟩ | heq <;> rw [heq]
  · exact ⟨trivial, fun _ hp => by cases hp⟩
  · refine ⟨trivial, fun len' hp => ?_⟩
    obtain ⟨rfl, -⟩ := Phase.mapQuery.inj hp
    exact h.imp (fun h => ⟨h.2.1, h.1, h.2.2⟩) id

/-- **A call that asks the raw layer next** has just taken the length. -/
theorem call_took (ho : Opened c w) (h : call P c os w = some w') : Opened c w' ∧ Took w w' := by
  have hfail : ∀ (v : World) e, Opened c (v.fail e) ∧ Took w (v.fail e) := fun v e => ⟨trivial, fun _ hp => by cases hp⟩
  unfold call at h
  cases hp : w.phase with
  | truncating size | exclusive size | createPass passes size =>
    rw [hp] at h
    simp only at h
    split at h <;> cases h
    all_goals first
      | exact hfail _ _
      | exact ⟨trivial, fun _ hq => by cases hq⟩
      | exact ⟨nofun, fun _ hq => by cases hq⟩
  | opening =>
    rw [hp] at h
    simp only at h
    split at h <;> cases h
    · exact hfail _ _
    · exact hfail _ _
    · rename_i hpath
      refine ⟨fun _ => ?_, fun _ hq => by cases hq⟩
      show w.path ≠ none
      rw [hpath]
      nofun
  | openPass passes =>
    rw [hp] at h
    cases passes with
    | zero =>
      cases h
      exact hfail _ _
    | succ passes =>
      simp only at h
      split at h
      · cases h
        exact hfail _ _
      · rename_i hpath
        cases h
        refine ⟨fun _ => ?_, fun _ hq => by cases hq⟩
        show w.path ≠ none
        rw [hpath]
        nofun
      · split at h <;> cases h
        · exact hfail _ _
        · exact ⟨trivial, fun _ hq => by cases hq⟩
  | querying again =>
    have hown : w.ownLen = w.path.map List.length := by rw [World.ownLen, hp]
    rw [Opened, hp] at ho
    rw [hp] at h
    simp only at h
    split at h <;> cases h
    · exact hfail _ _
    · cases again with
      | true => exact ⟨ho, fun _ hq => by cases hq⟩
      | false =>
        rw [if_neg Bool.false_ne_true]
        unfold gotLen
        split
        · refine mapFrom_took ?_
          unfold World.file
          cases hpath : w.path with
          | none => exact Or.inl ⟨rfl, rfl, rfl⟩
          | some file =>
            rw [hown, hpath]
            exact Or.inr ⟨rfl, rfl⟩
        · split
          · rename_i hopens
            split
            · exact hfail _ _
            · exact ⟨ho hopens, fun _ hq => by cases hq⟩
          · exact hfail _ _
  | sizing size =>
    have hown : w.ownLen = some size := by rw [World.ownLen, hp]
    rw [Opened, hp] at ho
    rw [hp] at h
    simp only at h
    split at h <;> cases h
    · exact hfail _ _
    · obtain ⟨file, hpath⟩ := Option.ne_none_iff_exists'.1 ho
      refine mapFrom_took (Or.inr ⟨hown, ?_⟩)
      simp only [hpath, Option.map_some, Bytes.length_setLen]
  | mapQuery len request =>
    have hlate : (∃ r, w'.phase = .done r) ∨ ∃ len mapLen, w'.phase = .mapping len mapLen := by
      rcases call_mapQuery hp h with ⟨e, hp'⟩ | ⟨-, hp'⟩ | ⟨-, hp'⟩
      · exact Or.inl ⟨_, hp'⟩
      · exact Or.inl ⟨_, hp'⟩
      · exact Or.inr ⟨_, _, hp'⟩
    rcases hlate with ⟨r, hp'⟩ | ⟨l, m, hp'⟩ <;> rw [Opened, Took, hp'] <;> exact ⟨trivial, fun _ hq => by cases hq⟩
  | mapping len mapLen =>
    obtain ⟨r, hp'⟩ : ∃ r, w'.phase = .done r := by
      rcases call_mapping hp h with ⟨e, hp'⟩ | hp' <;> exact ⟨_, hp'⟩
    rw [Opened, Took, hp']
    exact ⟨trivial, fun _ hq => by cases hq⟩
  | done r =>
    rw [hp] at h
    cases h

/-- **What the other process leaves**: the length its last `set_len` sets. -/
theorem run_setLens (P : Platform) (c : Ctor) (sets : List Nat) : ∀ w : World,
    ∃ w', run (step P c) w (sets.map Act.setLen) = some w' ∧ w'.phase = w.phase ∧ (w.path = none → w'.path = none) ∧
      ∀ n, w.path.map List.length = some n → w'.path.map List.length = some (sets.getLast?.getD n) := by
  induction sets using List.reverseRecOn with
  | nil => exact fun w => ⟨w, rfl, rfl, id, fun n hn => hn⟩
  | append_singleton sets m ih =>
    intro w
    obtain ⟨v, hr, hphase, hnone, hlen⟩ := ih w
    refine ⟨{ v with path := v.path.map (fun file => Bytes.setLen file m 0) }, ?_, hphase, fun hw => ?_, fun n hn => ?_⟩
    · rw [List.map_append]
      exact run_concat.2 ⟨v, hr, rfl⟩
    · simp only [hnone hw, Option.map_none]
    · obtain ⟨file, hv, -⟩ := Option.map_eq_some_iff.1 (hlen n hn)
      simp only [hv, Option.map_some, Bytes.length_setLen, List.getLast?_concat, Option.getD_some]

/-- The constructor's last call took the length `len`, and since then only the other process has moved. -/
def TakenLast (P : Platform) (c : Ctor) (path : Option (List UInt8)) (acts : List Act) (w : World) (len : Nat) : Prop :=
  ∃ (pre : List Act) (os : Os) (sets : List Nat) (w₀ w₁ : World), acts = pre ++ .call os :: sets.map Act.setLen ∧
    run (step P c) (start P c path) pre = some w₀ ∧ call P c os w₀ = some w₁ ∧ w₁.AsksRaw ∧ w₀.ownLen = some len ∧
    w.path.map List.length = some (sets.getLast?.getD len)

/-- **Before the raw layer's own query** there is the call that took the length, and after it the other process only. -/
theorem run_took {path : Option (List UInt8)} {acts : List Act} (hr : run (step P c) (start P c path) acts = some w) :
    Opened c w ∧ ∀ len, w.phase = .mapQuery len none → (w.path = none ∧ len = 0) ∨ TakenLast P c path acts w len := by
  refine run_induction (fun acts w => Opened c w ∧ ∀ len, w.phase = .mapQuery len none →
    (w.path = none ∧ len = 0) ∨ TakenLast P c path acts w len) ⟨?_, ?_⟩ ?_ acts w hr
  · exact start_opened P c path
  · intro len hq
    have hb : c.begin P = .mapQuery len none := hq
    rcases begin_cases P c with ⟨e, hp⟩ | he
    · rw [hb] at hp
      cases hp
    · rw [hb] at he
      cases he
  · intro acts a w w' hrun ih hs
    cases a with
    | call os =>
      obtain ⟨ho, htook⟩ := call_took ih.1 hs
      refine ⟨ho, fun len hq => ?_⟩
      rcases htook len hq with ⟨-, hpath, hlen⟩ | ⟨hown, hpath⟩
      · exact Or.inl ⟨hpath, hlen⟩
      · exact Or.inr ⟨acts, os, [], w, w', rfl, hrun, hs, ⟨len, hq⟩, hown, hpath⟩
    | setLen m =>
      cases hs
      obtain ⟨ho, hraw⟩ := ih
      refine ⟨?_, fun len hq => ?_⟩
      · unfold Opened at ho ⊢
        cases hp : w.phase <;> simp only [hp, ne_eq, Option.map_eq_none_iff] at ho ⊢
        all_goals exact ho
      · rcases hraw len hq with ⟨hpath, hlen⟩ | ⟨pre, os, sets, w₀, w₁, rfl, hpre, hcall, hasks, hown, hpath⟩
        · exact Or.inl ⟨by simp only [hpath, Option.map_none], hlen⟩
        · refine Or.inr ⟨pre, os, sets ++ [m], w₀, w₁, ?_, hpre, hcall, hasks, hown, ?_⟩
          · rw [List.append_assoc, List.map_append]
            rfl
          · obtain ⟨file, hw, -⟩ := Option.map_eq_some_iff.1 hpath
            simp only [hw, Option.map_some, Bytes.length_setLen, List.getLast?_concat, Option.getD_some]

/-- **The raw layer's query finds the recorded length exactly when the other process left it.** -/
theorem sameLen_iff_restored {path : Option (List UInt8)} {acts : List Act}
    (hr : run (step P c) (start P c path) acts = some w) :
    EachStep (step P c) (start P c path) SameLen acts ↔ Restored P c path acts := by
  constructor
  · rintro hsame pre os sets os' post w₀ w₁ n rfl hpre hcall ⟨len, hasks⟩ hown m hlast
    obtain ⟨ho, -⟩ := run_took hpre
    obtain ⟨w₂, hsets, hphase, -, hlen⟩ := run_setLens P c sets w₁
    -- the length taken is the recorded one, and the file had it
    have htook : n = len ∧ w₁.path.map List.length = some len := by
      rcases (call_took ho hcall).2 len hasks with ⟨hnone, -, -⟩ | ⟨hown', hpath⟩
      · unfold World.ownLen at hown
        unfold Opened at ho
        cases hp : w₀.phase <;> rw [hp] at hown ho <;> simp only [hnone, Option.map_none, reduceCtorEq] at hown
        exact absurd hnone ho
      · exact ⟨Option.some.inj (hown.symm.trans hown'), hpath⟩
    obtain ⟨rfl, hfile⟩ := htook
    have hbefore : run (step P c) (start P c path) (pre ++ .call os :: sets.map Act.setLen) = some w₂ := by
      rw [run_append, hpre, Option.bind_some, run_cons]
      show (call P c os w₀).bind _ = _
      rw [hcall]
      exact hsets
    have hquery := hsame (pre ++ .call os :: sets.map Act.setLen) (.call os') post w₂
      (by rw [List.append_assoc, List.cons_append]) hbefore n (hphase.trans hasks)
    obtain ⟨file, hw₂, heq⟩ := Option.map_eq_some_iff.1 (hlen n hfile)
    rw [World.file, hw₂, Option.getD_some, heq, hlast] at hquery
    exact hquery
  · rintro hrestored pre a post w₂ rfl hpre
    cases a with
    | setLen m => trivial
    | call os' =>
      intro len hp
      rcases (run_took hpre).2 len hp with ⟨hpath, rfl⟩ | ⟨pre', os, sets, w₀, w₁, rfl, hpre', hcall, hasks, hown, hpath⟩
      · rw [World.file, hpath]
        rfl
      · have hlast := hrestored pre' os sets os' post w₀ w₁ len (by rw [List.append_assoc, List.cons_append]) hpre' hcall
          hasks hown
        obtain ⟨file, hw₂, heq⟩ := Option.map_eq_some_iff.1 hpath
        rw [World.file, hw₂, Option.getD_some, heq]
        cases hsets : sets.getLast? with
        | none => rfl
        | some m => exact hlast m hsets

/-! ## The methods that use `len()` -/

/-- `validate_segment` (`Segment::is_valid`): against `len()`. -/
def validateSegment (P : Platform) (offset len : Nat) (s : Inner) : Except MmapIoError Unit :=
  if len = 0 then .ok () else (sliceRange P.width offset len s.cachedLen).map (fun _ => ())

/-- The check of `prefetch_range`, against `len()`. -/
def checkPrefetch (offset len : Nat) (s : Inner) : Except MmapIoError Unit :=
  if len = 0 then .ok () else ensureInBounds offset len s.cachedLen

/-- The check of `lock_all`: the range `len()` bytes long, against the mapping. -/
def checkLockAll (P : Platform) (s : Inner) : Except MmapIoError Unit :=
  if s.cachedLen = 0 then .ok () else (sliceRange P.width 0 s.cachedLen s.mapLen).map (fun _ => ())

theorem isOk_ensureInBounds {offset len total : Nat} (ht : total < 2 ^ 64) :
    (ensureInBounds offset len total).isOk = decide (offset + len ≤ total) := by
  unfold ensureInBounds checkedAdd
  by_cases hfit : offset + len ≤ total
  · rw [if_pos (by omega), decide_eq_true hfit]
    simp only [hfit, if_true]
    rfl
  · rw [decide_eq_false hfit]
    split
    · rename_i stop hstop
      split at hstop <;> cases hstop
      rw [if_neg hfit]
      rfl
    · rfl

theorem isOk_sliceRange {offset len total : Nat} (ht : total ≤ P.width.maxLen) :
    (sliceRange P.width offset len total).isOk = decide (offset + len ≤ total) := by
  rw [sliceRange_eq ht]
  by_cases hfit : offset + len ≤ total
  · rw [if_pos hfit, decide_eq_true hfit]
    rfl
  · rw [if_neg hfit, decide_eq_false hfit]
    rfl

theorem isOk_map {α β : Type} (x : Except MmapIoError α) (f : α → β) : (x.map f).isOk = x.isOk := by
  cases x <;> rfl

theorem isOk_readInto (P : Platform) (offset len : Nat) (s : Inner) :
    (readInto P offset len s).isOk = if len = 0 then true else (sliceRange P.width offset len s.mapLen).isOk := by
  unfold readInto
  split
  · rfl
  · split <;> rename_i h <;> rw [h] <;> rfl

theorem isOk_asSlice {s : Inner} (hatomics : s.atomics = []) (offset len : Nat) :
    (asSlice P offset len s).isOk = if len = 0 then true else (sliceRange P.width offset len s.mapLen).isOk := by
  have hview : ∀ start stop, (intoView s start stop).isOk = true := by
    intro start stop
    unfold intoView
    rw [hatomics]
    split <;> rfl
  unfold asSlice
  split
  · rfl
  · split <;> rename_i h <;> rw [h]
    · rfl
    · exact hview _ _

/-- The methods that use `len()` accept the ranges that `as_slice` and `read_into` accept. -/
structure RangesAgree (P : Platform) (s : Inner) : Prop where
  slice : ∀ offset len, (asSlice P offset len s).isOk = (readInto P offset len s).isOk
  segment : ∀ offset len, (validateSegment P offset len s).isOk = (readInto P offset len s).isOk
  prefetch : ∀ offset len, (checkPrefetch offset len s).isOk = (readInto P offset len s).isOk
  lockAll : (checkLockAll P s).isOk = true

/-- `MmapReader` never fails: `read` copies what `read_into` reads there, and `fill_buf` lends what `as_slice` shows there,
nothing only at the end of the mapping. -/
structure ReaderAgrees (P : Platform) (s : Inner) : Prop where
  read : ∀ (r : MmapReader) (n : Nat), ∃ bs, (r.read P s n).1 = .ok bs ∧
    readInto P r.pos (min n (s.mapLen - r.pos)) s = .ok bs ∧ (r.read P s n).2.pos = r.pos + min n (s.mapLen - r.pos)
  fillBuf : ∀ r : MmapReader, (r.fillBuf P s).1.isOk = true
  lent : s.bytes.length = s.mapLen → ∀ r : MmapReader, Buffered s r → ∃ bs, (r.fillBuf P s).1 = .ok bs ∧
    asSlice P r.pos bs.length s = .ok bs ∧ (bs = [] → s.mapLen ≤ r.pos)

/-- **With the lengths agreeing, `len()` and the mapping accept the same ranges.** -/
theorem Agrees.ranges {s : Inner} (h : Agrees s) (hatomics : s.atomics = []) (hmax : s.mapLen ≤ P.width.maxLen) :
    RangesAgree P s := by
  refine ⟨fun offset len => ?_, fun offset len => ?_, fun offset len => ?_, ?_⟩
  · rw [isOk_readInto, isOk_asSlice hatomics]
  · rw [isOk_readInto, validateSegment, h.len]
    split
    · rfl
    · exact isOk_map _ _
  · rw [isOk_readInto, checkPrefetch, h.len]
    split
    · rfl
    · rw [isOk_ensureInBounds (Nat.lt_of_le_of_lt hmax P.width.maxLen_lt_u64), isOk_sliceRange hmax]
  · rw [checkLockAll, h.len]
    split
    · rfl
    · rw [isOk_map, isOk_sliceRange hmax]
      simp

theorem readInto_fits {s : Inner} (hmax : s.mapLen ≤ P.width.maxLen) {offset len : Nat} (hfit : offset + len ≤ s.mapLen)
    (h0 : len ≠ 0) : readInto P offset len s = .ok (copyTo s offset len) := by
  unfold readInto
  rw [if_neg h0, sliceRange_eq hmax, if_pos hfit]

/-- **`read` is `read_into`** of as much as is left. -/
theorem Agrees.read {s : Inner} (h : Agrees s) (hmax : s.mapLen ≤ P.width.maxLen) (r : MmapReader) (n : Nat) :
    ∃ bs, (r.read P s n).1 = .ok bs ∧ readInto P r.pos (min n (s.mapLen - r.pos)) s = .ok bs ∧
      (r.read P s n).2.pos = r.pos + min n (s.mapLen - r.pos) := by
  unfold MmapReader.read
  simp only [h.len]
  by_cases hpos : r.pos ≥ s.mapLen
  · have hnone : min n (s.mapLen - r.pos) = 0 := by omega
    rw [if_pos hpos, hnone]
    exact ⟨[], rfl, rfl, rfl⟩
  · rw [if_neg hpos]
    by_cases hwant : min n (s.mapLen - r.pos) = 0
    · rw [if_pos hwant, hwant]
      exact ⟨[], rfl, rfl, rfl⟩
    · rw [if_neg hwant, readInto_fits hmax (by omega) hwant]
      exact ⟨_, rfl, rfl, rfl⟩

theorem Agrees.isOk_fillBuf {s : Inner} (h : Agrees s) (hmax : s.mapLen ≤ P.width.maxLen) (r : MmapReader) :
    (r.fillBuf P s).1.isOk = true := by
  have hcopied : (r.fillBufCopied P s).1.isOk = true := by
    unfold MmapReader.fillBufCopied MmapReader.fillBufCopied.lend
    simp only [h.len]
    split
    · by_cases hpos : r.pos ≥ s.mapLen
      · rw [if_pos hpos]
        rfl
      · have hwant : min (s.mapLen - r.pos) readerBufLen ≠ 0 := by
          unfold readerBufLen
          omega
        rw [if_neg hpos, readInto_fits hmax (by omega) hwant]
        rfl
    · rfl
  unfold MmapReader.fillBuf
  split
  · rfl
  · exact hcopied
  · exact hcopied

/-- **What `fill_buf` lends, `as_slice` shows.** -/
theorem Agrees.lent {s : Inner} (h : Agrees s) (hatomics : s.atomics = []) (hmax : s.mapLen ≤ P.width.maxLen)
    (hbytes : s.bytes.length = s.mapLen) {r : MmapReader} (hb : Buffered s r) :
    ∃ bs, (r.fillBuf P s).1 = .ok bs ∧ asSlice P r.pos bs.length s = .ok bs ∧ (bs = [] → s.mapLen ≤ r.pos) := by
  have hs : Stable P s := ⟨h.len.trans hbytes.symm, hbytes.symm, hbytes ▸ hmax⟩
  obtain ⟨bs, hlent, htake, halike, -, -⟩ := fillBuf_eq hs hb
  refine ⟨bs, hlent, ?_, ?_⟩
  · by_cases h0 : bs.length = 0
    · rw [List.length_eq_zero_iff.1 h0]
      rfl
    · have hlen := congrArg List.length htake
      rw [List.length_take, List.length_drop] at hlen
      have hfit : r.pos + bs.length ≤ s.mapLen := by omega
      have hshown : s.bytes.extract r.pos (r.pos + bs.length) = bs := by
        rw [List.extract_eq_take_drop, Nat.add_sub_cancel_left, ← htake]
      unfold asSlice intoView
      rw [if_neg h0, sliceRange_eq hmax, if_pos hfit, hatomics]
      simp only [List.any_nil, Bool.false_eq_true, if_false, hshown]
      split <;> rfl
  · rintro rfl
    unfold alike at halike
    rw [← hbytes]
    split at halike
    · obtain ⟨bs', full, hbs, -, -, -, hend⟩ := halike
      cases hbs
      exact hend rfl
    · obtain ⟨bs', full, hbs, -, -, -, hend⟩ := halike
      cases hbs
      exact hend rfl
    · have hnil := ReaderOut.bytes.inj (Except.ok.inj halike)
      exact List.drop_eq_nil_iff.1 hnil.symm

/-- **Length agreement at construction**, over every interleaving with another process's `set_len`: a constructor that
returns a mapping recorded the mapped length, and a writable or private mapping is not empty, exactly when the other process
left the file at that length between the constructor's own length step and the raw layer's query; one that passes its length
on always does so; and then the methods that use `len()`, and the reader, agree with those that use the mapping. -/
theorem length_agreement (c : Ctor) (path : Option (List UInt8)) (acts : List Act) (w : World) (s : Inner)
    (hr : run (step P c) (start P c path) acts = some w) (hdone : w.phase = .done (.ok s)) :
    (Agrees s ↔ Restored P c path acts) ∧ (c.whole = false → Agrees s) ∧
    (Agrees s → RangesAgree P s ∧ ReaderAgrees P s) := by
  obtain ⟨hsound, htrack⟩ := run_track hr
  rw [hdone] at hsound htrack
  obtain ⟨file, len, mapLen, rfl, hlen, hexact, hmax⟩ := hsound
  refine ⟨htrack.trans (sameLen_iff_restored hr), ?_, ?_⟩
  · intro hw
    exact (agrees_inner hlen).2 (hexact hw)
  · intro hagrees
    have hmapped : (c.inner file len mapLen).mapLen ≤ P.width.maxLen := by
      rw [mapLen_inner]
      exact hmax
    exact ⟨hagrees.ranges rfl hmapped, hagrees.read hmapped, hagrees.isOk_fillBuf hmapped,
      fun hbytes r hb => hagrees.lent rfl hmapped hbytes hb⟩

/-- `open_rw` of a file of 4 bytes, which another process cuts and restores between the two queries. -/
theorem length_agreement_alone : ∃ w s, run (step linux64 .openRw) (start linux64 .openRw (some [1, 2, 3, 4]))
    [.call Os.ok, .call Os.ok, .setLen 0, .setLen 4, .call Os.ok, .call Os.ok] = some w ∧ w.phase = .done (.ok s) ∧
    s.mapLen = 4 ∧ Restored linux64 .openRw (some [1, 2, 3, 4])
      [.call Os.ok, .call Os.ok, .setLen 0, .setLen 4, .call Os.ok, .call Os.ok] ∧ RangesAgree linux64 s := by
  have hr : run (step linux64 .openRw) (start linux64 .openRw (some [1, 2, 3, 4]))
      [.call Os.ok, .call Os.ok, .setLen 0, .setLen 4, .call Os.ok, .call Os.ok] =
      some ⟨some [0, 0, 0, 0], .nothing, .done (.ok (Ctor.openRw.inner [0, 0, 0, 0] 4 4))⟩ := rfl
  have hagrees : Agrees (Ctor.openRw.inner [0, 0, 0, 0] 4 4) := (agrees_inner (fun _ => by decide)).2 rfl
  obtain ⟨hiff, -, hranges⟩ := length_agreement .openRw _ _ _ _ hr rfl
  exact ⟨_, _, hr, rfl, rfl, hiff.1 hagrees, (hranges hagrees).1⟩

/-- **Another process truncates the file between the two queries of `open_rw`**: 4 bytes recorded, an empty mapping. -/
theorem length_disagreement : ∃ w s, run (step linux64 .openRw) (start linux64 .openRw (some [1, 2, 3, 4]))
    [.call Os.ok, .call Os.ok, .setLen 0, .call Os.ok] = some w ∧ w.phase = .done (.ok s) ∧ s.mode = .readWrite ∧
    s.cachedLen = 4 ∧ s.mapLen = 0 ∧ ¬ Agrees s := by
  refine ⟨_, _, rfl, rfl, rfl, rfl, rfl, ?_⟩
  intro h
  exact h.nonempty (by decide) rfl

end Construct
end MmapIo
