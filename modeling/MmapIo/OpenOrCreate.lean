import Mathlib.Data.List.Infix
import MmapIo.Lib.Machine
import MmapIo.Create
/-!
# OpenOrCreate — processes that open or create one path

`open_or_create_rw_file` of `mmap.rs`, one file-system call a step: the open, the length query, the exclusive create and the
`set_len` of one process may come between any two of another (`raceStep`).  A process that finds the file empty sizes it
later, whatever has become of it; `open_or_create_keeps_data` says when that never cuts it.
-/
namespace MmapIo

open Word Bytes

/-- The fields of `MemoryMappedFileBuilder` that its `ReadWrite` path reads. -/
structure Builder where
  size : Option Nat
  flushPolicy : FlushPolicy
  deriving DecidableEq, Repr

/-- Where a process is in `open_or_create`. -/
inductive OpenPhase where
  /-- before the `open` of a pass, with `passes` left -/
  | opening (passes : Nat)
  /-- the file is open; its length comes next -/
  | querying
  /-- its length was 0; `set_len(size)` comes next -/
  | extending (size : Nat)
  /-- there was no file; `create_new` comes next -/
  | creating (passes size : Nat)
  /-- the file is created; `set_len(size)` comes next -/
  | sizing (size : Nat)
  /-- `open_or_create_rw_file` returned `(file, len)`; `finish_rw` comes next -/
  | opened (len : Nat)
  | mapped (len : Nat)
  | failed (e : MmapIoError)
  deriving DecidableEq, Repr

/-- The next call of a process: its phase and the path after it, nothing once it has returned. -/
def openStep (P : Platform) (b : Builder) (os : Os) (path : Option (List UInt8)) :
    OpenPhase → Option (OpenPhase × Option (List UInt8))
  | .opening 0 => some (.failed (.io (.os "file was concurrently created and removed")), path)
  | .opening (passes + 1) =>
    match os.openFile, path with
    | some text, _ => some (.failed (.io (.os text)), path)
    | none, some _ => some (.querying, path)
    | none, none =>
      match validatedCreateSize P.width b.size with
      | .error e => some (.failed e, path)
      | .ok size => some (.creating passes size, path)
  | .querying =>
    match os.metadata with
    | some text => some (.failed (.io (.os text)), path)
    | none =>
      let len := (path.getD []).length
      if len > 0 then some (.opened len, path) else
      match validatedCreateSize P.width b.size with
      | .error e => some (.failed e, path)
      | .ok size => some (.extending size, path)
  | .creating passes size =>
    match os.openFile, path with
    | some text, _ => some (.failed (.io (.os text)), path)
    -- `AlreadyExists`: the next pass opens it
    | none, some _ => some (.opening passes, path)
    | none, none => some (.sizing size, some [])
  | .extending size | .sizing size =>
    match os.setLen with
    | some text => some (.failed (.io (.os text)), path)
    | none => some (.opened size, path.map (fun file => setLen file size 0))
  | .opened len =>
    match finishRw P os b.flushPolicy (path.getD []) len with
    | .error e => some (.failed e, path)
    | .ok _ => some (.mapped len, path)
  | .mapped _ | .failed _ => none

/-- The size a process is about to give the file. -/
def OpenPhase.target : OpenPhase → Option Nat
  | .extending size | .creating _ size | .sizing size => some size
  | _ => none

/-- What one call of a process can do to its phase and to the path. -/
inductive OpenStep (b : Builder) (path : Option (List UInt8)) : OpenPhase → OpenPhase → Option (List UInt8) → Prop
  /-- an open, a query of a file with data, an error: nothing is owed -/
  | quiet {ph ph' : OpenPhase} (h : ph'.target = none) : OpenStep b path ph ph' path
  /-- there is no file, or an empty one -/
  | found {ph ph' : OpenPhase} {n : Nat} (hempty : path.getD [] = []) (hsize : b.size = some n)
      (h : ph'.target = some n) : OpenStep b path ph ph' path
  | created {passes n : Nat} (hnone : path = none) : OpenStep b path (.creating passes n) (.sizing n) (some [])
  | sized {ph : OpenPhase} {n : Nat} (h : ph.target = some n) :
      OpenStep b path ph (.opened n) (path.map (fun file => setLen file n 0))

theorem openStep_cases {P : Platform} {b : Builder} {os : Os} {path path' : Option (List UInt8)} {ph ph' : OpenPhase}
    (h : openStep P b os path ph = some (ph', path')) : OpenStep b path ph ph' path' := by
  cases ph with
  | opening passes =>
    cases passes with
    | zero =>
      cases h
      exact .quiet rfl
    | succ passes =>
      simp only [openStep] at h
      split at h
      · cases h
        exact .quiet rfl
      · cases h
        exact .quiet rfl
      · split at h
        · cases h
          exact .quiet rfl
        · rename_i size hsize
          cases h
          exact .found rfl (validatedCreateSize_ok hsize).1 rfl
  | querying =>
    simp only [openStep] at h
    split at h
    · cases h
      exact .quiet rfl
    · split at h
      · cases h
        exact .quiet rfl
      · rename_i hlen
        split at h
        · cases h
          exact .quiet rfl
        · rename_i size hsize
          cases h
          exact .found (List.eq_nil_of_length_eq_zero (by omega)) (validatedCreateSize_ok hsize).1 rfl
  | creating passes size =>
    simp only [openStep] at h
    split at h
    · cases h
      exact .quiet rfl
    · cases h
      exact .quiet rfl
    · cases h
      exact .created rfl
  | extending size | sizing size =>
    simp only [openStep] at h
    split at h
    · cases h
      exact .quiet rfl
    · cases h
      exact .sized rfl
  | opened len =>
    simp only [openStep] at h
    split at h
    · cases h
      exact .quiet rfl
    · cases h
      exact .quiet rfl
  | mapped len => cases h
  | failed e => cases h

/-! ## The race -/

section Race

variable {ι : Type} [DecidableEq ι]

structure Race (ι : Type) where
  path : Option (List UInt8)
  phase : ι → OpenPhase

def Race.start (ι : Type) (path : Option (List UInt8)) : Race ι := ⟨path, fun _ => .opening 2⟩

def Race.bytes (s : Race ι) : List UInt8 := s.path.getD []

inductive RaceAct (ι : Type) where
  | call (p : ι) (os : Os)
  | write (p : ι) (offset : Nat) (data : List UInt8)

/-- A process does its next call, or writes through its mapping, inside the file. -/
def raceStep (P : Platform) (b : ι → Builder) (s : Race ι) : RaceAct ι → Option (Race ι)
  | .call p os =>
    (openStep P (b p) os s.path (s.phase p)).map (fun (ph, path) => ⟨path, Function.update s.phase p ph⟩)
  | .write p offset data =>
    match s.phase p with
    | .mapped len =>
      if offset + data.length ≤ len ∧ offset + data.length ≤ s.bytes.length then
        some { s with path := s.path.map (fun file => splice file offset data) }
      else none
    | _ => none

/-- No call of any process, after any run, shortens the file or changes a byte of it. -/
def KeepsData (P : Platform) (b : ι → Builder) (path : Option (List UInt8)) : Prop :=
  ∀ acts s p os s', Machine.run (raceStep P b) (Race.start ι path) acts = some s →
    raceStep P b s (.call p os) = some s' → s.bytes.length ≤ s'.bytes.length ∧ s.bytes <+: s'.bytes

variable {P : Platform} {b : ι → Builder} {s s' : Race ι}

theorem raceStep_call {p : ι} {os : Os} (h : raceStep P b s (.call p os) = some s') :
    ∃ old new path, s.phase p = old ∧ OpenStep (b p) s.path old new path ∧ s' = ⟨path, Function.update s.phase p new⟩ := by
  simp only [raceStep, Option.map_eq_some_iff] at h
  obtain ⟨⟨new, path⟩, hopen, rfl⟩ := h
  exact ⟨_, new, path, rfl, openStep_cases hopen, rfl⟩

theorem raceStep_write {p : ι} {offset : Nat} {data : List UInt8} (h : raceStep P b s (.write p offset data) = some s') :
    s'.phase = s.phase ∧ s'.bytes.length = s.bytes.length := by
  simp only [raceStep] at h
  split at h
  swap
  · cases h
  split at h
  swap
  · cases h
  rename_i hfit
  cases h
  refine ⟨rfl, ?_⟩
  unfold Race.bytes at hfit ⊢
  cases hpath : s.path with
  | none => rfl
  | some file =>
    rw [hpath] at hfit
    exact length_splice hfit.2

/-- Every size a process is about to give is one that cuts nothing: the file is empty or already that long. -/
structure Fits (n : Nat) (s : Race ι) : Prop where
  length : s.bytes = [] ∨ s.bytes.length = n
  target : ∀ p m, (s.phase p).target = some m → m = n

/-- A file with data in it is sized by nobody. -/
structure HasData (s : Race ι) : Prop where
  bytes : s.bytes ≠ []
  target : ∀ p, (s.phase p).target = none

theorem Fits.step {n : Nat} (hsize : ∀ p, (b p).size = some n) {a : RaceAct ι} (hi : Fits n s)
    (h : raceStep P b s a = some s') : Fits n s' := by
  cases a with
  | write p offset data =>
    obtain ⟨hphase, hlen⟩ := raceStep_write h
    refine ⟨?_, hphase ▸ hi.target⟩
    rw [← List.length_eq_zero_iff, hlen, List.length_eq_zero_iff]
    exact hi.length
  | call p os =>
    obtain ⟨old, new, path, hold, hcase, rfl⟩ := raceStep_call h
    have htarget : (∀ m, new.target = some m → m = n) → ∀ q m, (Function.update s.phase p new q).target = some m → m = n :=
      fun hnew => (Function.forall_update_iff s.phase (fun _ ph => ∀ m, ph.target = some m → m = n)).2
        ⟨hnew, fun q _ => hi.target q⟩
    cases hcase with
    | quiet hnone =>
      refine ⟨hi.length, htarget (fun m hm => ?_)⟩
      rw [hnone] at hm
      cases hm
    | found hempty hm hnew =>
      refine ⟨hi.length, htarget (fun m' hm' => ?_)⟩
      rw [hnew, ← hm, hsize p] at hm'
      exact (Option.some.inj hm').symm
    | created hnone =>
      refine ⟨Or.inl rfl, htarget (fun m hm => hi.target p m ?_)⟩
      rw [hold]
      exact hm
    | sized hm =>
      refine ⟨?_, htarget (fun m hm => by cases hm)⟩
      have hmn := hi.target p _ (hold ▸ hm)
      unfold Race.bytes
      cases s.path with
      | none => exact Or.inl rfl
      | some file => exact Or.inr ((length_setLen ..).trans hmn)

/-- **With one size for all, no call cuts.** -/
theorem Fits.keeps {n : Nat} {p : ι} {os : Os} (hi : Fits n s) (h : raceStep P b s (.call p os) = some s') :
    s.bytes <+: s'.bytes := by
  obtain ⟨old, new, path, hold, hcase, rfl⟩ := raceStep_call h
  cases hcase with
  | quiet hnone => exact List.prefix_refl _
  | found hempty hm hnew => exact List.prefix_refl _
  | created hnone =>
    unfold Race.bytes
    rw [hnone]
    exact List.prefix_refl _
  | sized hm =>
    have hmn := hi.target p _ (hold ▸ hm)
    rcases hi.length with hnil | hlen
    · rw [hnil]
      exact List.nil_prefix
    · unfold Race.bytes at hlen ⊢
      cases hpath : s.path with
      | none => exact List.nil_prefix
      | some file =>
        rw [hpath, Option.getD_some] at hlen
        rw [Option.map_some, Option.getD_some, Option.getD_some, setLen_of_le (by omega), hmn, ← hlen, List.take_length]

theorem HasData.call {p : ι} {os : Os} (hi : HasData s) (h : raceStep P b s (.call p os) = some s') :
    s'.path = s.path ∧ ∀ q, (s'.phase q).target = none := by
  obtain ⟨old, new, path, hold, hcase, rfl⟩ := raceStep_call h
  have hnone := hi.target p
  cases hcase with
  | quiet hnew =>
    exact ⟨rfl, (Function.forall_update_iff s.phase (fun _ ph => ph.target = none)).2 ⟨hnew, fun q _ => hi.target q⟩⟩
  | found hempty hm hnew => exact absurd hempty hi.bytes
  | created hpath =>
    rw [hold] at hnone
    cases hnone
  | sized hm =>
    rw [hold, hm] at hnone
    cases hnone

theorem HasData.step {a : RaceAct ι} (hi : HasData s) (h : raceStep P b s a = some s') : HasData s' := by
  cases a with
  | write p offset data =>
    obtain ⟨hphase, hlen⟩ := raceStep_write h
    refine ⟨?_, hphase ▸ hi.target⟩
    have hpos := List.length_pos_iff.2 hi.bytes
    exact List.length_pos_iff.1 (by omega)
  | call p os =>
    obtain ⟨hpath, htarget⟩ := hi.call h
    refine ⟨?_, htarget⟩
    unfold Race.bytes
    rw [hpath]
    exact hi.bytes

theorem raceStep_of_openStep {p : ι} {os : Os} {old new : OpenPhase} {path : Option (List UInt8)} (hold : s.phase p = old)
    (h : openStep P (b p) os s.path old = some (new, path)) :
    raceStep P b s (.call p os) = some ⟨path, Function.update s.phase p new⟩ := by
  simp only [raceStep, hold, h, Option.map_some]

theorem run_extending {p : ι} {k n : Nat} (hpath : s.path = some []) (hphase : s.phase p = .opening (k + 1))
    (hp : validatedCreateSize P.width (b p).size = .ok n) :
    ∃ s', Machine.run (raceStep P b) s [.call p Os.ok, .call p Os.ok] = some s' ∧ s'.path = some [] ∧
      s'.phase = Function.update s.phase p (.extending n) := by
  have h₁ : raceStep P b s (.call p Os.ok) = some ⟨some [], Function.update s.phase p .querying⟩ :=
    raceStep_of_openStep hphase (by rw [hpath]; rfl)
  refine ⟨⟨some [], Function.update s.phase p (.extending n)⟩, ?_, rfl, rfl⟩
  have h₂ : raceStep P b ⟨some [], Function.update s.phase p .querying⟩ (.call p Os.ok) =
      some ⟨some [], Function.update (Function.update s.phase p .querying) p (.extending n)⟩ :=
    raceStep_of_openStep (Function.update_self ..) (by simp [openStep, Os.ok, hp])
  rw [Function.update_idem] at h₂
  rw [Machine.run_cons, h₁, Option.bind_some, Machine.run_cons, h₂, Option.bind_some, Machine.run_nil]

theorem run_sizing {p : ι} {k n : Nat} (hpath : s.path = none) (hphase : s.phase p = .opening (k + 1))
    (hp : validatedCreateSize P.width (b p).size = .ok n) :
    ∃ s', Machine.run (raceStep P b) s [.call p Os.ok, .call p Os.ok] = some s' ∧ s'.path = some [] ∧
      s'.phase = Function.update s.phase p (.sizing n) := by
  have h₁ : raceStep P b s (.call p Os.ok) = some ⟨none, Function.update s.phase p (.creating k n)⟩ :=
    raceStep_of_openStep hphase (by rw [hpath]; simp [openStep, Os.ok, hp])
  refine ⟨⟨some [], Function.update s.phase p (.sizing n)⟩, ?_, rfl, rfl⟩
  have h₂ : raceStep P b ⟨none, Function.update s.phase p (.creating k n)⟩ (.call p Os.ok) =
      some ⟨some [], Function.update (Function.update s.phase p (.creating k n)) p (.sizing n)⟩ :=
    raceStep_of_openStep (Function.update_self ..) rfl
  rw [Function.update_idem] at h₂
  rw [Machine.run_cons, h₁, Option.bind_some, Machine.run_cons, h₂, Option.bind_some, Machine.run_nil]

theorem raceStep_sized {p : ι} {n : Nat} {file : List UInt8} (hpath : s.path = some file)
    (hphase : s.phase p = .extending n ∨ s.phase p = .sizing n) :
    raceStep P b s (.call p Os.ok) = some ⟨some (setLen file n 0), Function.update s.phase p (.opened n)⟩ := by
  rcases hphase with h | h
  · exact raceStep_of_openStep h (by rw [hpath]; rfl)
  · exact raceStep_of_openStep h (by rw [hpath]; rfl)

/-- **Two processes of different sizes can cut the file**: one sees it empty, and sizes it after the other has. -/
theorem race_cuts (path : Option (List UInt8)) (hpath : path.getD [] = []) {p q : ι} (hpq : p ≠ q) {big small : Nat}
    (hp : validatedCreateSize P.width (b p).size = .ok big) (hq : validatedCreateSize P.width (b q).size = .ok small) :
    ∃ acts s s', Machine.run (raceStep P b) (Race.start ι path) acts = some s ∧
      raceStep P b s (.call q Os.ok) = some s' ∧ s.bytes.length = big ∧ s'.bytes.length = small := by
  obtain ⟨s₁, hrun₁, hpath₁, hp₁, hq₁⟩ : ∃ s₁, Machine.run (raceStep P b) (Race.start ι path) [.call p Os.ok, .call p Os.ok] =
      some s₁ ∧ s₁.path = some [] ∧ (s₁.phase p = .extending big ∨ s₁.phase p = .sizing big) ∧
      s₁.phase q = .opening 2 := by
    cases path with
    | none =>
      obtain ⟨s₁, hrun, hpath₁, hphase⟩ := run_sizing (s := Race.start ι none) (k := 1) rfl rfl hp
      refine ⟨s₁, hrun, hpath₁, Or.inr ?_, ?_⟩
      · rw [hphase, Function.update_self]
      · rw [hphase, Function.update_of_ne hpq.symm]
        rfl
    | some file =>
      cases hpath
      obtain ⟨s₁, hrun, hpath₁, hphase⟩ := run_extending (s := Race.start ι (some [])) (k := 1) rfl rfl hp
      refine ⟨s₁, hrun, hpath₁, Or.inl ?_, ?_⟩
      · rw [hphase, Function.update_self]
      · rw [hphase, Function.update_of_ne hpq.symm]
        rfl
  obtain ⟨s₂, hrun₂, hpath₂, hphase₂⟩ := run_extending (k := 1) hpath₁ hq₁ hq
  have hp₂ : s₂.phase p = .extending big ∨ s₂.phase p = .sizing big := by
    rw [hphase₂, Function.update_of_ne hpq]
    exact hp₁
  have hq₂ : s₂.phase q = .extending small := by
    rw [hphase₂, Function.update_self]
  refine ⟨[.call p Os.ok, .call p Os.ok] ++ [.call q Os.ok, .call q Os.ok] ++ [.call p Os.ok],
    ⟨some (setLen [] big 0), Function.update s₂.phase p (.opened big)⟩, _, ?_,
    raceStep_sized rfl (Or.inl ?_), length_setLen .., length_setLen ..⟩
  · rw [Machine.run_append, Machine.run_append, hrun₁, Option.bind_some, hrun₂, Option.bind_some, Machine.run_cons,
      raceStep_sized hpath₂ hp₂]
    rfl
  · exact (Function.update_of_ne hpq.symm ..).trans hq₂

/-- **When racing calls keep the data**: exactly when the file had data from the start, or all ask for one size. -/
theorem open_or_create_keeps_data (P : Platform) (b : ι → Builder) (path : Option (List UInt8))
    (hvalid : ∀ p, ∃ n, validatedCreateSize P.width (b p).size = .ok n) :
    KeepsData P b path ↔ path.getD [] ≠ [] ∨ ∀ p q, (b p).size = (b q).size := by
  constructor
  · intro hkeeps
    by_contra hno
    rw [not_or, not_not] at hno
    obtain ⟨hempty, hdiff⟩ := hno
    apply hdiff
    -- whichever of the two is larger, the other cuts it
    have hle : ∀ p q n m, validatedCreateSize P.width (b p).size = .ok n →
        validatedCreateSize P.width (b q).size = .ok m → n ≤ m := by
      intro p q n m hn hm
      by_cases hpq : p = q
      · rw [hpq, hm] at hn
        exact (Except.ok.inj hn).symm.le
      obtain ⟨acts, s, s', hrun, hstep, hlen, hlen'⟩ := race_cuts path hempty hpq hn hm
      have hle := (hkeeps acts s q Os.ok s' hrun hstep).1
      omega
    intro p q
    obtain ⟨n, hn⟩ := hvalid p
    obtain ⟨m, hm⟩ := hvalid q
    have hnm : n = m := Nat.le_antisymm (hle p q n m hn hm) (hle q p m n hm hn)
    rw [(validatedCreateSize_ok hn).1, (validatedCreateSize_ok hm).1, hnm]
  · intro hcond acts s p os s' hrun hstep
    suffices hpre : s.bytes <+: s'.bytes from ⟨hpre.length_le, hpre⟩
    by_cases hempty : path.getD [] = []
    · obtain ⟨n, hn⟩ := hvalid p
      have hsize : ∀ q, (b q).size = some n := by
        intro q
        rw [(hcond.resolve_left (not_not.2 hempty)) q p]
        exact (validatedCreateSize_ok hn).1
      have h0 : Fits n (Race.start ι path) := ⟨Or.inl hempty, fun q m hm => by cases hm⟩
      exact (Machine.run_invariant (Fits n) (fun _ _ _ hi h => hi.step hsize h) acts _ s h0 hrun).keeps hstep
    · have h0 : HasData (Race.start ι path) := ⟨hempty, fun q => rfl⟩
      have hi := Machine.run_invariant HasData (fun _ _ _ hi h => hi.step h) acts _ s h0 hrun
      unfold Race.bytes
      rw [(hi.call hstep).1]

end Race

/-- Every process asks for eight bytes. -/
theorem open_or_create_keeps_data_eight : KeepsData linux64 (fun _ : Nat => ⟨some 8, .never⟩) none :=
  (open_or_create_keeps_data linux64 _ none (fun _ => ⟨8, rfl⟩)).2 (Or.inr (fun _ _ => rfl))

/-- Process 0 asks for eight bytes, process 1 for four. -/
def eightAndFour (p : Nat) : Builder := ⟨some (if p = 0 then 8 else 4), .never⟩

/-- Process 1 sees the file process 0 has just created, still empty; process 0 sizes it, maps it and writes its last byte. -/
def createdThenSeen : List (RaceAct Nat) :=
  [.call 0 Os.ok, .call 0 Os.ok, .call 1 Os.ok, .call 1 Os.ok, .call 0 Os.ok, .call 0 Os.ok, .write 0 7 [9]]

/-- **The byte another process wrote is cut off.** -/
theorem open_or_create_cuts : ∃ s s', Machine.run (raceStep linux64 eightAndFour) (Race.start Nat none) createdThenSeen = some s ∧
    raceStep linux64 eightAndFour s (.call 1 Os.ok) = some s' ∧ s.bytes = [0, 0, 0, 0, 0, 0, 0, 9] ∧
    s'.bytes = [0, 0, 0, 0] ∧ ¬ KeepsData linux64 eightAndFour none := by
  have hd : ((Machine.run (raceStep linux64 eightAndFour) (Race.start Nat none) createdThenSeen).bind (fun s =>
      (raceStep linux64 eightAndFour s (.call 1 Os.ok)).map (fun s' => (s.bytes, s'.bytes)))) =
      some ([0, 0, 0, 0, 0, 0, 0, 9], [0, 0, 0, 0]) := by decide +kernel
  obtain ⟨s, hrun, hd⟩ := Option.bind_eq_some_iff.1 hd
  obtain ⟨s', hstep, hb⟩ := Option.map_eq_some_iff.1 hd
  obtain ⟨hb₁, hb₂⟩ := Prod.mk.inj hb
  refine ⟨s, s', hrun, hstep, hb₁, hb₂, fun hkeeps => ?_⟩
  have hlen := (hkeeps createdThenSeen s 1 Os.ok s' hrun hstep).1
  rw [hb₁, hb₂] at hlen
  exact absurd hlen (by decide)

end MmapIo
