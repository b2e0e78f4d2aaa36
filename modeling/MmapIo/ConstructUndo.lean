import MmapIo.Construct
/-!
# ConstructUndo — what a failed creation leaves behind

The four ways to create a `ReadWrite` mapping, run alone on their path.  `create_rw` and the builder's `create_new` undo
what they did when a later call fails; the builder's `create` and `open_or_create` do not, so a call that is refused once
the file was made or sized leaves it there (`creation_clean_iff`).
-/
namespace MmapIo
namespace Construct

open Machine Word Bytes

/-- `create_rw`, and `create`, `create_new` and `open_or_create` in `ReadWrite` mode. -/
def Ctor.creates : Ctor → Bool
  | .createRw _ => true
  | .build _ .openAs => false
  | .build b _ => b.mode.getD .readWrite = .readWrite
  | _ => false

/-- `create_new` and `open_or_create`, which never truncate. -/
def Ctor.keepsData : Ctor → Bool
  | .build _ .createNew | .build _ .openOrCreate => true
  | _ => false

/-- `create` and `open_or_create`, which have no cleanup. -/
def Ctor.leavesFile : Ctor → Bool
  | .build _ .create | .build _ .openOrCreate => true
  | _ => false

/-- A failed call on a missing path leaves it missing, on an empty file leaves it empty; and data that is not to be truncated
stays, whatever the call returns. -/
structure Clean (c : Ctor) (path : Option (List UInt8)) (w : World) : Prop where
  missing : ∀ e, w.phase = .done (.error e) → path = none → w.path = none
  empty : ∀ e, w.phase = .done (.error e) → path = some [] → w.path = some []
  kept : c.keepsData = true → path.getD [] ≠ [] → w.path = path

/-- A call without cleanup has made the file, or sized the empty one. -/
def Exposed (c : Ctor) (path : Option (List UInt8)) : Phase → Prop
  | .sizing _ => c.leavesFile = true ∧ path = none
  | .mapQuery _ _ | .mapping _ _ => c.leavesFile = true ∧ (path = none ∨ path = some [])
  | _ => False

/-- The next call fails: the OS says so, or the raw layer rejects the length. -/
def Refused (P : Platform) (w : World) (os : Os) : Prop :=
  match w.phase with
  | .sizing _ => os.setLen ≠ none
  | .mapQuery _ request => os.metadata ≠ none ∨ (mapImplLayout P.width w.file.length 0 request P.granularity).isOk = false
  | .mapping _ _ => os.map ≠ none
  | _ => False

/-- No call is refused while the file is exposed. -/
def Spared (P : Platform) (c : Ctor) (path : Option (List UInt8)) (w : World) (os : Os) : Prop :=
  Exposed c path w.phase → ¬ Refused P w os

variable {P : Platform} {c : Ctor} {os : Os} {w w' : World} {path : Option (List UInt8)}

/-! ## What a call owns -/

/-- Nothing was done to the path yet. -/
structure Untouched (path : Option (List UInt8)) (w : World) : Prop where
  now : w.path = path
  undo : w.undo = .nothing

/-- The call made or emptied the file, which now holds `file`. -/
structure Made (c : Ctor) (path : Option (List UInt8)) (file : List UInt8) (w : World) : Prop where
  now : w.path = some file
  undo : w.undo = c.undoFor path.isSome
  kept : c.keepsData = true → path = none ∨ c.opensOrCreates = true ∧ path = some []

/-- Where the call is with the file, at each phase. -/
def Owns (P : Platform) (c : Ctor) (path : Option (List UInt8)) (w : World) : Prop :=
  match w.phase with
  | .truncating size => Untouched path w ∧ c.keepsData = false ∧ 0 < size ∧ size ≤ P.width.maxMmapSize
  | .exclusive size => Untouched path w ∧ 0 < size ∧ size ≤ P.width.maxMmapSize
  | .createPass _ size => Untouched path w ∧ c.opensOrCreates = true ∧ 0 < size ∧ size ≤ P.width.maxMmapSize
  | .openPass _ => Untouched path w ∧ c.opensOrCreates = true
  | .querying _ => Untouched path w ∧ c.opensOrCreates = true ∧ path.isSome = true
  | .sizing size => Made c path [] w ∧ 0 < size ∧ size ≤ P.width.maxMmapSize
  | .mapQuery _ _ | .mapping _ _ => (Untouched path w ∧ path.getD [] ≠ []) ∨ ∃ file, file ≠ [] ∧ Made c path file w
  | .opening | .done _ => False

theorem Untouched.clean_fail (h : Untouched path w) (e : MmapIoError) : Clean c path (w.fail e) := by
  have hpath : (w.fail e).path = path := by
    show w.undo.run w.path = path
    rw [h.undo, h.now]
    rfl
  refine ⟨?_, ?_, ?_⟩
  · intro _ _ hnone
    rw [hpath, hnone]
  · intro _ _ hempty
    rw [hpath, hempty]
  · intro _ _
    exact hpath

theorem Made.path_nil {file : List UInt8} (h : Made c path file w) (hk : c.keepsData = true) : path.getD [] = [] := by
  rcases h.kept hk with hp | ⟨-, hp⟩ <;> rw [hp] <;> rfl

/-- **A failure after the file was made** is clean where there is a cleanup, or where the file was and still is empty. -/
theorem Made.clean_fail {file : List UInt8} (hc : c.creates = true) (h : Made c path file w) (e : MmapIoError) :
    Clean c path (w.fail e) ↔ ¬ (c.leavesFile = true ∧ (path = none ∨ path = some [] ∧ file ≠ [])) := by
  have hpath : (w.fail e).path = (c.undoFor path.isSome).run (some file) := by
    show w.undo.run w.path = _
    rw [h.undo, h.now]
  have hkept : c.keepsData = true → path.getD [] ≠ [] → (w.fail e).path = path :=
    fun hk hne => absurd (h.path_nil hk) hne
  cases hl : c.leavesFile with
  | true =>
    have hundo : c.undoFor path.isSome = .nothing := by
      cases c with
      | build b t => cases t <;> first | rfl | cases hl
      | _ => cases hl
    rw [hundo] at hpath
    constructor
    · rintro hclean ⟨-, hp | ⟨hp, hne⟩⟩
      · cases hpath.symm.trans (hclean.missing e rfl hp)
      · have := hpath.symm.trans (hclean.empty e rfl hp)
        exact hne (Option.some.inj this)
    · intro hn
      refine ⟨?_, ?_, hkept⟩
      · intro _ _ hp
        exact absurd ⟨rfl, Or.inl hp⟩ hn
      · intro _ _ hp
        rw [hpath]
        by_cases hne : file = []
        · rw [hne]
          rfl
        · exact absurd ⟨rfl, Or.inr ⟨hp, hne⟩⟩ hn
  | false =>
    refine ⟨fun _ => by simp, fun _ => ?_⟩
    refine ⟨?_, ?_, hkept⟩
    · rintro _ _ rfl
      rw [hpath]
      cases c with
      | createRw size => rfl
      | build b t =>
        cases t with
        | createNew => rfl
        | openAs => cases hc
        | create | openOrCreate => cases hl
      | _ => cases hc
    · rintro _ _ rfl
      rw [hpath]
      cases c with
      | createRw size => rfl
      | build b t =>
        cases t with
        | createNew =>
          -- an exclusive create never gets here with a file that was there
          rcases h.kept rfl with hp | ⟨hp, -⟩ <;> cases hp
        | openAs => cases hc
        | create | openOrCreate => cases hl
      | _ => cases hc

theorem clean_ok {s : Inner} (hd : w.phase = .done (.ok s)) (hkept : c.keepsData = true → path.getD [] ≠ [] → w.path = path) :
    Clean c path w := by
  refine ⟨?_, ?_, hkept⟩
  · intro e he
    cases hd.symm.trans he
  · intro e he
    cases hd.symm.trans he

theorem Made.of_eq {file : List UInt8} (h : Made c path file w) (ph : Phase) : Made c path file { w with phase := ph } :=
  ⟨h.now, h.undo, h.kept⟩

theorem Untouched.of_eq (h : Untouched path w) (ph : Phase) : Untouched path { w with phase := ph } := ⟨h.now, h.undo⟩

theorem Untouched.file_eq (h : Untouched path w) : w.file = path.getD [] := by
  unfold World.file
  rw [h.now]

/-! ## One call -/

/-- What the call comes to: it goes on, and nothing was refused while exposed; or it is over, clean when nothing was. -/
def Goes (P : Platform) (c : Ctor) (path : Option (List UInt8)) (spared : Prop) (w : World) : Prop :=
  (Owns P c path w ∧ spared) ∨ (∃ r, w.phase = .done r) ∧ (Clean c path w ↔ spared)

theorem Untouched.goes_fail {spared : Prop} (h : Untouched path w) (hs : spared) (e : MmapIoError) :
    Goes P c path spared (w.fail e) :=
  Or.inr ⟨⟨_, rfl⟩, iff_of_true (h.clean_fail e) hs⟩

theorem mapFrom_of_lt {len : Nat} (h : len < 2 ^ P.width.bits) (w : World) :
    mapFrom P c len w = { w with phase := .mapQuery len (if c.whole then none else some len) } := by
  unfold mapFrom
  rw [tryFrom_of_lt h]
  cases c.whole <;> rfl

theorem mode_of_opensOrCreates (h : c.opensOrCreates = true) : c.mode = .readWrite := by
  cases c with
  | build b t =>
    cases t with
    | openOrCreate => exact of_decide_eq_true h
    | _ => cases h
  | _ => cases h

theorem undoFor_of_opensOrCreates (h : c.opensOrCreates = true) (existed : Bool) : c.undoFor existed = .nothing := by
  cases c with
  | build b t =>
    cases t with
    | openOrCreate => rfl
    | _ => cases h
  | _ => cases h

theorem maxMmapSize_lt (P : Platform) {size : Nat} (h : size ≤ P.width.maxMmapSize) : size < 2 ^ P.width.bits := by
  have hlt : P.width.maxMmapSize < 2 ^ P.width.bits := by cases P.width <;> decide
  exact Nat.lt_of_le_of_lt h hlt

/-- **With the length of an existing file known**: a file with data is left as it is, an empty one is to be sized. -/
theorem gotLen_goes {spared : Prop} (hoc : c.opensOrCreates = true) (h : Untouched path w) (hex : path.isSome = true)
    (hs : spared) : Goes P c path spared (gotLen P c w.file.length w) := by
  unfold gotLen
  rw [mode_of_opensOrCreates hoc, h.file_eq]
  by_cases hlen : (path.getD []).length = 0
  · rw [if_neg (by simp [hlen]), if_pos hoc]
    have hempty : path = some [] := by
      obtain ⟨file, rfl⟩ := Option.isSome_iff_exists.1 hex
      rw [show file = [] from List.eq_nil_of_length_eq_zero hlen]
    cases hv : validatedCreateSize P.width c.size with
    | error e => exact h.goes_fail hs e
    | ok size =>
      obtain ⟨-, hpos, hmax⟩ := validatedCreateSize_ok hv
      refine Or.inl ⟨⟨⟨h.now.trans hempty, ?_, fun _ => Or.inr ⟨hoc, hempty⟩⟩, hpos, hmax⟩, hs⟩
      exact h.undo.trans (undoFor_of_opensOrCreates hoc _).symm
  · rw [if_pos (Or.inr hlen)]
    rcases mapFrom_cases P c (path.getD []).length w with ⟨e, heq⟩ | heq <;> rw [heq]
    · exact h.goes_fail hs e
    · refine Or.inl ⟨Or.inl ⟨h.of_eq _, ?_⟩, hs⟩
      intro hnil
      rw [hnil] at hlen
      exact hlen rfl

theorem spared_of_not (h : ¬ Exposed c path w.phase) : Spared P c path w os := fun he => absurd he h

theorem goes_done {spared : Prop} {s : Inner} (hd : w.phase = .done (.ok s)) (hs : spared)
    (hkept : c.keepsData = true → path.getD [] ≠ [] → w.path = path) : Goes P c path spared w :=
  Or.inr ⟨⟨_, hd⟩, iff_of_true (clean_ok hd hkept) hs⟩

/-- **A call of the raw layer that fails** is unclean exactly when it was refused while exposed. -/
theorem goes_fail_mapped {e : MmapIoError} (hc : c.creates = true) (hr : Refused P w os)
    (hex : Exposed c path w.phase ↔ c.leavesFile = true ∧ (path = none ∨ path = some []))
    (ho : (Untouched path w ∧ path.getD [] ≠ []) ∨ ∃ file, file ≠ [] ∧ Made c path file w) :
    Goes P c path (Spared P c path w os) (w.fail e) := by
  rcases ho with ⟨hu, hne⟩ | ⟨file, hne, hm⟩
  · refine hu.goes_fail (spared_of_not ?_) e
    rw [hex]
    rintro ⟨-, hp | hp⟩ <;> rw [hp] at hne <;> exact hne rfl
  · refine Or.inr ⟨⟨_, rfl⟩, ?_⟩
    rw [hm.clean_fail hc, Spared, hex]
    simp [hr, hne]

theorem mapped_kept (ho : (Untouched path w ∧ path.getD [] ≠ []) ∨ ∃ file, file ≠ [] ∧ Made c path file w) :
    c.keepsData = true → path.getD [] ≠ [] → w.path = path := by
  intro hk hne
  rcases ho with ⟨hu, -⟩ | ⟨file, -, hm⟩
  · exact hu.now
  · exact absurd (hm.path_nil hk) hne

theorem mapped_of_eq (ph : Phase) (ho : (Untouched path w ∧ path.getD [] ≠ []) ∨ ∃ file, file ≠ [] ∧ Made c path file w) :
    (Untouched path { w with phase := ph } ∧ path.getD [] ≠ []) ∨
      ∃ file, file ≠ [] ∧ Made c path file { w with phase := ph } := by
  rcases ho with ⟨hu, hne⟩ | ⟨file, hne, hm⟩
  · exact Or.inl ⟨hu.of_eq ph, hne⟩
  · exact Or.inr ⟨file, hne, hm.of_eq ph⟩

/-- Until the file is opened nothing is exposed: the path is as it was, or the open made the file. -/
theorem opening_goes (ho : Owns P c path w) (h : call P c os w = some w') (hs : ∀ size, w.phase ≠ .sizing size)
    (he : w.phase.early = true) : Goes P c path (Spared P c path w os) w' := by
  have hspared : ¬ Exposed c path w.phase → Spared P c path w os := spared_of_not
  unfold Owns at ho
  unfold call at h
  cases hp : w.phase with
  | truncating size =>
    rw [hp] at h ho hspared
    obtain ⟨hu, hk, hsize⟩ := ho
    simp only at h
    split at h <;> cases h
    · exact hu.goes_fail (hspared id) _
    · refine Or.inl ⟨⟨⟨rfl, by rw [hu.now], ?_⟩, hsize⟩, hspared id⟩
      intro hk'
      cases hk.symm.trans hk'
  | exclusive size =>
    rw [hp] at h ho hspared
    obtain ⟨hu, hsize⟩ := ho
    simp only at h
    split at h <;> cases h
    · exact hu.goes_fail (hspared id) _
    · exact hu.goes_fail (hspared id) _
    · rename_i hnone
      rw [hu.now] at hnone
      exact Or.inl ⟨⟨⟨rfl, by rw [hnone]; rfl, fun _ => Or.inl hnone⟩, hsize⟩, hspared id⟩
  | openPass passes =>
    rw [hp] at h ho hspared
    obtain ⟨hu, hoc⟩ := ho
    cases passes with
    | zero =>
      cases h
      exact hu.goes_fail (hspared id) _
    | succ passes =>
      simp only at h
      split at h
      · cases h
        exact hu.goes_fail (hspared id) _
      · rename_i hsome
        cases h
        rw [hu.now] at hsome
        exact Or.inl ⟨⟨hu.of_eq _, hoc, by rw [hsome]; rfl⟩, hspared id⟩
      · split at h <;> cases h
        · exact hu.goes_fail (hspared id) _
        · rename_i size hsize
          exact Or.inl ⟨⟨hu.of_eq _, hoc, (validatedCreateSize_ok hsize).2⟩, hspared id⟩
  | createPass passes size =>
    rw [hp] at h ho hspared
    obtain ⟨hu, hoc, hsize⟩ := ho
    simp only at h
    split at h <;> cases h
    · exact hu.goes_fail (hspared id) _
    · exact Or.inl ⟨⟨hu.of_eq _, hoc⟩, hspared id⟩
    · rename_i hnone
      rw [hu.now] at hnone
      exact Or.inl ⟨⟨⟨rfl, (undoFor_of_opensOrCreates hoc _).symm, fun _ => Or.inl hnone⟩, hsize⟩, hspared id⟩
  | querying again =>
    rw [hp] at h ho hspared
    obtain ⟨hu, hoc, hex⟩ := ho
    simp only at h
    split at h <;> cases h
    · exact hu.goes_fail (hspared id) _
    · cases again with
      | true => exact Or.inl ⟨⟨hu.of_eq _, hoc, hex⟩, hspared id⟩
      | false => exact gotLen_goes hoc hu hex (hspared id)
  | sizing size => exact absurd hp (hs size)
  | mapQuery len request | mapping len mapLen =>
    rw [hp] at he
    cases he
  | opening | done r =>
    rw [hp] at ho
    cases ho

/-- The size is set on a file that the call made: a refusal there is the one that may leave the file behind. -/
theorem sizing_goes (hc : c.creates = true) {size : Nat} (hp : w.phase = .sizing size) (ho : Owns P c path w)
    (h : call P c os w = some w') : Goes P c path (Spared P c path w os) w' := by
  unfold Owns at ho
  unfold call at h
  rw [hp] at h ho
  obtain ⟨hm, hpos, hmax⟩ := ho
  simp only at h
  split at h <;> cases h
  · rename_i text hset
    have hrefused : Refused P w os := by
      simp only [Refused, hp, hset]
      exact Option.some_ne_none text
    refine Or.inr ⟨⟨_, rfl⟩, ?_⟩
    unfold World.failIo
    rw [hm.clean_fail hc, Spared, hp]
    simp [Exposed, hrefused]
  · rename_i hset
    have hs : Spared P c path w os := by
      intro _
      simp only [Refused, hp, hset]
      simp
    rw [mapFrom_of_lt (maxMmapSize_lt P hmax)]
    refine Or.inl ⟨Or.inr ⟨setLen [] size 0, ?_, ?_, hm.undo, hm.kept⟩, hs⟩
    · intro hnil
      have hlen := congrArg List.length hnil
      rw [length_setLen] at hlen
      exact Nat.ne_of_gt hpos hlen
    · show w.path.map _ = _
      rw [hm.now]
      rfl

theorem mapQuery_goes (hc : c.creates = true) {len : Nat} {request : Option Nat} (hp : w.phase = .mapQuery len request)
    (ho : Owns P c path w) (h : call P c os w = some w') : Goes P c path (Spared P c path w os) w' := by
  have hex : Exposed c path w.phase ↔ c.leavesFile = true ∧ (path = none ∨ path = some []) := by
    rw [hp]
    rfl
  unfold Owns at ho
  unfold call at h
  rw [hp] at h ho
  simp only at h
  split at h
  · rename_i text hmeta
    cases h
    refine goes_fail_mapped hc ?_ hex ho
    simp only [Refused, hp, hmeta]
    exact Or.inl (Option.some_ne_none text)
  · rename_i hmeta
    split at h
    · rename_i e hl
      cases h
      refine goes_fail_mapped hc ?_ hex ho
      simp only [Refused, hp, hl]
      exact Or.inr rfl
    · rename_i l hl
      have hs : Spared P c path w os := by
        intro _
        simp only [Refused, hp, hmeta, hl]
        rintro (hne | hne)
        · exact hne rfl
        · cases hne
      split at h <;> cases h
      · exact goes_done rfl hs (mapped_kept (mapped_of_eq _ ho))
      · exact Or.inl ⟨mapped_of_eq _ ho, hs⟩

theorem mapping_goes (hc : c.creates = true) {len mapLen : Nat} (hp : w.phase = .mapping len mapLen)
    (ho : Owns P c path w) (h : call P c os w = some w') : Goes P c path (Spared P c path w os) w' := by
  have hex : Exposed c path w.phase ↔ c.leavesFile = true ∧ (path = none ∨ path = some []) := by
    rw [hp]
    rfl
  unfold Owns at ho
  unfold call at h
  rw [hp] at h ho
  simp only at h
  split at h <;> cases h
  · rename_i text hmap
    refine goes_fail_mapped hc ?_ hex ho
    simp only [Refused, hp, hmap]
    exact Option.some_ne_none text
  · rename_i hmap
    have hs : Spared P c path w os := by
      intro _
      simp only [Refused, hp, hmap]
      simp
    exact goes_done rfl hs (mapped_kept (mapped_of_eq _ ho))

/-- **One call** of a creating entry point. -/
theorem call_goes (hc : c.creates = true) (ho : Owns P c path w) (h : call P c os w = some w') :
    Goes P c path (Spared P c path w os) w' := by
  cases hp : w.phase with
  | sizing size => exact sizing_goes hc hp ho h
  | mapQuery len request => exact mapQuery_goes hc hp ho h
  | mapping len mapLen => exact mapping_goes hc hp ho h
  | done r =>
    unfold Owns at ho
    rw [hp] at ho
    cases ho
  | _ => exact opening_goes ho h (by rw [hp]; nofun) (by rw [hp]; rfl)

/-! ## Whole runs -/

/-- The constructor alone on its path: the calls, each with the outcome the OS gives it. -/
def alone (P : Platform) (c : Ctor) (w : World) (os : Os) : Option World := call P c os w

theorem start_goes (hc : c.creates = true) {spared : Prop} (hs : spared) : Goes P c path spared (start P c path) := by
  have hfail : ∀ e, Goes P c path spared ⟨path, .nothing, .done (.error e)⟩ :=
    fun e => Untouched.goes_fail (w := ⟨path, .nothing, .opening⟩) ⟨rfl, rfl⟩ hs e
  have hu : ∀ ph, Untouched path ⟨path, .nothing, ph⟩ := fun ph => ⟨rfl, rfl⟩
  unfold start
  cases c with
  | createRw size =>
    simp only [Ctor.begin]
    split
    · exact hfail _
    · split
      · exact hfail _
      · exact Or.inl ⟨⟨hu _, rfl, by omega, by omega⟩, hs⟩
  | build b t =>
    cases t with
    | create =>
      simp only [Ctor.begin, if_pos (of_decide_eq_true hc)]
      split
      · exact hfail _
      · rename_i size hsize
        exact Or.inl ⟨⟨hu _, rfl, (validatedCreateSize_ok hsize).2⟩, hs⟩
    | createNew =>
      simp only [Ctor.begin, if_pos (of_decide_eq_true hc)]
      split
      · exact hfail _
      · rename_i size hsize
        exact Or.inl ⟨⟨hu _, (validatedCreateSize_ok hsize).2⟩, hs⟩
    | openOrCreate =>
      simp only [Ctor.begin, if_pos (of_decide_eq_true hc)]
      exact Or.inl ⟨⟨hu _, hc⟩, hs⟩
    | openAs => cases hc
  | _ => cases hc

theorem run_goes (hc : c.creates = true) {oss : List Os} (hr : run (alone P c) (start P c path) oss = some w) :
    Goes P c path (EachStep (alone P c) (start P c path) (Spared P c path) oss) w := by
  refine run_induction (fun oss w => Goes P c path (EachStep (alone P c) (start P c path) (Spared P c path) oss) w)
    (start_goes hc (eachStep_nil _ _ _)) ?_ oss w hr
  intro oss os w w' hrun ih hcall
  rw [propext (eachStep_concat hrun)]
  rcases ih with ⟨ho, hsofar⟩ | ⟨⟨r, hd⟩, -⟩
  · rw [and_iff_right hsofar]
    exact call_goes hc ho hcall
  · unfold alone call at hcall
    rw [hd] at hcall
    cases hcall

theorem not_exposed_of_undone (h : c.leavesFile = false) (ph : Phase) : ¬ Exposed c path ph := by
  intro he
  cases ph <;> first | exact he | cases h.symm.trans he.1

/-- **What a creation leaves behind**, for every path, size and script of OS outcomes: an error leaves a missing path
missing and an empty file empty, and `create_new` and `open_or_create` keep a file with data, exactly when no call was refused
after an entry point without cleanup had made the file or sized the empty one; `create_rw` and `create_new` always clean up. -/
theorem creation_clean_iff (c : Ctor) (hc : c.creates = true) (path : Option (List UInt8)) (oss : List Os) (w : World)
    (r : Except MmapIoError Inner) (hr : run (alone P c) (start P c path) oss = some w) (hdone : w.phase = .done r) :
    (Clean c path w ↔ EachStep (alone P c) (start P c path) (Spared P c path) oss) ∧
      (c.leavesFile = false → Clean c path w) := by
  have hiff : Clean c path w ↔ EachStep (alone P c) (start P c path) (Spared P c path) oss := by
    rcases run_goes hc hr with ⟨ho, -⟩ | ⟨-, hiff⟩
    · unfold Owns at ho
      rw [hdone] at ho
      cases ho
    · exact hiff
  refine ⟨hiff, ?_⟩
  intro hl
  refine hiff.2 ?_
  intro pre os post v _ _
  exact spared_of_not (not_exposed_of_undone hl v.phase)

/-- The builder with `size` and nothing else. -/
def sized (size : Nat) : BuilderOptions := ⟨⟨some size, .never⟩, none, false⟩

/-- `create_new` whose mapping the OS refuses: the new file is removed again. -/
theorem creation_clean_removed : ∃ w e, run (alone linux64 (.build (sized 8) .createNew))
    (start linux64 (.build (sized 8) .createNew) none) [Os.ok, Os.ok, Os.ok, { Os.ok with map := some "ENOMEM" }] = some w ∧
    w.phase = .done (.error e) ∧ w.path = none := by
  have hr : run (alone linux64 (.build (sized 8) .createNew)) (start linux64 (.build (sized 8) .createNew) none)
      [Os.ok, Os.ok, Os.ok, { Os.ok with map := some "ENOMEM" }] =
      some ⟨none, .remove, .done (.error (.io (.os "ENOMEM")))⟩ := by decide
  refine ⟨_, _, hr, rfl, ?_⟩
  exact ((creation_clean_iff _ rfl none _ _ _ hr rfl).2 rfl).missing _ rfl rfl

/-- **`open_or_create` of a missing path whose `set_len` the OS refuses**: an empty file stays behind. -/
theorem creation_left_behind : ∃ w e, run (alone linux64 (.build (sized 8) .openOrCreate))
    (start linux64 (.build (sized 8) .openOrCreate) none) [Os.ok, Os.ok, { Os.ok with setLen := some "ENOSPC" }] = some w ∧
    w.phase = .done (.error e) ∧ w.path = some [] ∧ ¬ Clean (.build (sized 8) .openOrCreate) none w := by
  have hr : run (alone linux64 (.build (sized 8) .openOrCreate)) (start linux64 (.build (sized 8) .openOrCreate) none)
      [Os.ok, Os.ok, { Os.ok with setLen := some "ENOSPC" }] =
      some ⟨some [], .nothing, .done (.error (.io (.os "ENOSPC")))⟩ := by decide
  refine ⟨_, _, hr, rfl, rfl, ?_⟩
  intro hclean
  cases hclean.missing _ rfl rfl

end Construct
end MmapIo
