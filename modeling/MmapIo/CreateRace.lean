import MmapIo.ConstructLen
import MmapIo.ConstructUndo
/-!
# CreateRace — processes that create one path for themselves

`create_new` makes a file of its own or none.  Any number of processes call it on one path, each with its own size, while
others open the path; every system call of every process is a step of its own, the `remove_file` after a failed creation
among them.  A file is a number, so that a process that has it open keeps it when its name goes.  At most one of the calls
ever succeeds (`create_new_exclusive`), and where the OS refuses nothing one does (`create_new_succeeds`).
-/
namespace MmapIo
namespace CreateRace

open Word Bytes Construct

/-- A process between two system calls. -/
structure Proc where
  phase : Phase
  undo : Undo
  /-- the file it made or opened -/
  file : Option Nat
  /-- it failed, and `remove_file` comes next -/
  removing : Bool

/-- The file the path names, the bytes of every file, and the next file to be made. -/
structure Disk where
  named : Option Nat
  bytes : Nat → List UInt8
  next : Nat

structure State (ι : Type) where
  disk : Disk
  proc : ι → Proc

/-- What the calls of a process see: its own file once it has one, until then the path. -/
def Proc.world (d : Disk) (p : Proc) : World := ⟨(p.file.or d.named).map d.bytes, p.undo, p.phase⟩

def Disk.put (d : Disk) (file : Option Nat) (bytes : List UInt8) : Disk :=
  match file with
  | some f => { d with bytes := Function.update d.bytes f bytes }
  | none => d

/-- The disk and the process after a call that came to `w`. -/
def commit (d : Disk) (p : Proc) (w : World) : Disk × Proc :=
  match w.phase with
  | .done (.error e) => (d, ⟨.done (.error e), .nothing, p.file, decide (p.undo = .remove)⟩)
  | ph =>
    match p.phase with
    | .exclusive _ => (⟨some d.next, Function.update d.bytes d.next (w.path.getD []), d.next + 1⟩, ⟨ph, w.undo, some d.next, false⟩)
    | .opening => (d, ⟨ph, w.undo, d.named, false⟩)
    | _ => (d.put p.file (w.path.getD []), ⟨ph, w.undo, p.file, false⟩)

inductive Act (ι : Type) where
  | call (i : ι) (os : Os)
  /-- the best-effort `remove_file`, granted or not -/
  | remove (i : ι) (granted : Bool)
  | write (i : ι) (start : Nat) (data : List UInt8)

section Machine

variable {ι : Type} [DecidableEq ι]

/-- A process does its next system call, or writes through the mapping it was given. -/
def step (P : Platform) (c : ι → Ctor) (s : State ι) : Act ι → Option (State ι)
  | .call i os =>
    (call P (c i) os ((s.proc i).world s.disk)).map (fun w =>
      ⟨(commit s.disk (s.proc i) w).1, Function.update s.proc i (commit s.disk (s.proc i) w).2⟩)
  | .remove i granted =>
    if (s.proc i).removing then
      some ⟨if granted then { s.disk with named := none } else s.disk, Function.update s.proc i { s.proc i with removing := false }⟩
    else none
  | .write i start data =>
    match (s.proc i).phase, (s.proc i).file with
    | .done (.ok m), some f =>
      if m.map = .rw m.mapLen ∧ start + data.length ≤ m.mapLen then
        some { s with disk := s.disk.put (some f) (splice (s.disk.bytes f) start data) }
      else none
    | _, _ => none

/-- Every process before its first system call, the path as `path`. -/
def start (P : Platform) (c : ι → Ctor) (path : Option (List UInt8)) : State ι :=
  ⟨⟨path.map (fun _ => 0), fun _ => path.getD [], 1⟩, fun i => ⟨(c i).begin P, .nothing, none, false⟩⟩

end Machine

def createsNew : Ctor → Bool
  | .build _ .createNew => true
  | _ => false

/-- The constructors that open a file and leave it as it is. -/
def onlyOpens : Ctor → Bool
  | .openRo | .openRw | .openCow | .openCowWritable | .build _ .openAs => true
  | _ => false

/-! ## What a step does to the files -/

/-- What one step of a process can do to the disk; only `create_new` makes, sizes or removes a file, and only a store through
a mapping writes. -/
inductive Touch (p : Proc) (makes writes : Bool) (d : Disk) : Disk → Prop
  | nothing : Touch p makes writes d d
  | made (hm : makes = true) (hn : d.named = none) :
      Touch p makes writes d ⟨some d.next, Function.update d.bytes d.next [], d.next + 1⟩
  | sized {f n : Nat} (hm : makes = true) (hf : p.file = some f) (hempty : d.bytes f = []) :
      Touch p makes writes d { d with bytes := Function.update d.bytes f (setLen [] n 0) }
  | wrote {f start : Nat} {data : List UInt8} (hw : writes = true) (hf : p.file = some f)
      (hfit : start + data.length ≤ (d.bytes f).length) :
      Touch p makes writes d { d with bytes := Function.update d.bytes f (splice (d.bytes f) start data) }
  | removed {f : Nat} (hm : makes = true) (hf : p.file = some f) (hn : d.named = some f) :
      Touch p makes writes d { d with named := none }

namespace Touch

variable {p : Proc} {makes writes : Bool} {d d' : Disk}

theorem next_le (h : Touch p makes writes d d') : d.next ≤ d'.next := by
  cases h with
  | made => exact Nat.le_succ _
  | nothing | sized | wrote | removed => exact Nat.le_refl _

/-- A file with data in it keeps its length. -/
theorem length_eq (h : Touch p makes writes d d') {f : Nat} (hf : f < d.next) (hne : (d.bytes f).length ≠ 0) :
    (d'.bytes f).length = (d.bytes f).length := by
  cases h with
  | nothing | removed => rfl
  | made =>
    simp only
    rw [Function.update_of_ne (Nat.ne_of_lt hf)]
  | @sized g n hm hg hempty =>
    have hfg : f ≠ g := by
      rintro rfl
      exact hne (by rw [hempty]; rfl)
    simp only
    rw [Function.update_of_ne hfg]
  | @wrote g start data hw hg hfit =>
    simp only
    by_cases hfg : f = g
    · subst hfg
      rw [Function.update_self, length_splice hfit]
    · rw [Function.update_of_ne hfg]

/-- The length of a file that is not the process's own, or that it does not make, stays. -/
theorem length_other (h : Touch p makes writes d d') {f : Nat} (hf : f < d.next) (hown : makes = true → p.file ≠ some f) :
    (d'.bytes f).length = (d.bytes f).length := by
  cases h with
  | nothing | removed => rfl
  | made =>
    simp only
    rw [Function.update_of_ne (Nat.ne_of_lt hf)]
  | @sized g n hm hg hempty =>
    have hfg : f ≠ g := by
      rintro rfl
      exact hown hm hg
    simp only
    rw [Function.update_of_ne hfg]
  | @wrote g start data hw hg hfit =>
    simp only
    by_cases hfg : f = g
    · subst hfg
      rw [Function.update_self, length_splice hfit]
    · rw [Function.update_of_ne hfg]

/-- The name of a file that is not the process's own stays. -/
theorem named_other (h : Touch p makes writes d d') {f : Nat} (hn : d.named = some f) (hown : makes = true → p.file ≠ some f) :
    d'.named = some f := by
  cases h with
  | nothing | sized | wrote => exact hn
  | made hm hnone =>
    rw [hnone] at hn
    cases hn
  | removed hm hf hg =>
    rw [hg] at hn
    cases hn
    exact absurd hf (hown hm)

/-- Without a store through a mapping, the bytes of every file stay at its front. -/
theorem grows (h : Touch p makes false d d') {f : Nat} (hf : f < d.next) : d.bytes f <+: d'.bytes f := by
  cases h with
  | nothing | removed => exact List.prefix_refl _
  | made =>
    simp only
    rw [Function.update_of_ne (Nat.ne_of_lt hf)]
  | @sized g n hm hg hempty =>
    simp only
    by_cases hfg : f = g
    · subst hfg
      rw [hempty]
      exact List.nil_prefix
    · rw [Function.update_of_ne hfg]
  | wrote hw => cases hw

end Touch

/-! ## Where a process stands -/

/-- The process has the named file, of length `n`. -/
def Holds (d : Disk) (p : Proc) (n : Nat) : Prop :=
  ∃ f, p.file = some f ∧ d.named = some f ∧ (d.bytes f).length = n

/-- `create_new` was asked for `n` bytes and may have them. -/
structure Asked (P : Platform) (c : Ctor) (n : Nat) : Prop where
  mode : c.mode = .readWrite
  size : c.size = some n
  pos : 1 ≤ n
  le : n ≤ P.width.maxMmapSize

/-- Where a `create_new` is with its file. -/
def Creates (P : Platform) (c : Ctor) (d : Disk) (p : Proc) : Prop :=
  match p.phase with
  | .exclusive size => p.file = none ∧ p.undo = .nothing ∧ Asked P c size
  | .sizing size => Holds d p 0 ∧ p.undo = .remove ∧ Asked P c size
  | .mapQuery len request => Holds d p len ∧ p.undo = .remove ∧ Asked P c len ∧ request = some len
  | .mapping len mapLen => Holds d p len ∧ p.undo = .remove ∧ Asked P c len ∧ mapLen = len
  | .done (.ok m) => Holds d p m.mapLen ∧ Asked P c m.mapLen
  | .done (.error _) => p.removing = true → ∃ n, Holds d p n
  | _ => False

/-- Where an `open` is with the file it found: a length it has read, if not 0, is the file's. -/
def Opens (c : Ctor) (d : Disk) (p : Proc) : Prop :=
  match p.phase with
  | .opening => p.file = none ∧ p.undo = .nothing
  | .querying again => again = false ∧ p.file ≠ none ∧ p.undo = .nothing
  | .mapQuery len request => (∃ f, p.file = some f ∧ (len ≠ 0 → (d.bytes f).length = len)) ∧ p.undo = .nothing ∧
      (c.mode ≠ .readOnly → len ≠ 0) ∧ request = if c.whole then none else some len
  | .mapping _ mapLen => (∃ f, p.file = some f ∧ (d.bytes f).length = mapLen) ∧ p.undo = .nothing ∧ mapLen ≠ 0
  | .done (.ok m) => ∃ f, p.file = some f ∧ (m.mapLen = 0 ∧ c.mode = .readOnly ∨ m.mapLen ≠ 0 ∧ (d.bytes f).length = m.mapLen)
  | .done (.error _) => p.removing = false
  | _ => False

/-- The two kinds of process of this race. -/
def Party (c : Ctor) : Prop := createsNew c = true ∨ onlyOpens c = true

instance (c : Ctor) : Decidable (Party c) := inferInstanceAs (Decidable (_ ∨ _))

/-- Where a process stands. -/
def Stands (P : Platform) (c : Ctor) (d : Disk) (p : Proc) : Prop :=
  if createsNew c = true then Creates P c d p else Opens c d p

/-! ## One system call -/

variable {P : Platform} {c : Ctor} {os : Os} {d : Disk} {p : Proc} {w : World}

/-- A call that fails leaves the files as they are; one that had made its file removes it next. -/
theorem commit_error {e : MmapIoError} (hw : w.phase = .done (.error e)) :
    commit d p w = (d, ⟨.done (.error e), .nothing, p.file, decide (p.undo = .remove)⟩) := by
  unfold commit
  rw [hw]

theorem world_path {f : Nat} (hf : p.file = some f) : (p.world d).path = some (d.bytes f) := by
  unfold Proc.world
  rw [hf]
  rfl

theorem world_file {f : Nat} (hf : p.file = some f) : (p.world d).file = d.bytes f := by
  unfold World.file
  rw [world_path hf]
  rfl

/-- What a call leaves alone is put back as it was. -/
theorem put_same {f : Nat} (hf : p.file = some f) : d.put p.file ((p.world d).path.getD []) = d := by
  rw [world_path hf, hf]
  unfold Disk.put
  simp only [Option.getD_some, Function.update_eq_self]

/-- The phases whose call only looks at the file that is open. -/
def looks : Phase → Bool
  | .querying _ | .mapQuery _ _ | .mapping _ _ => true
  | _ => false

/-- **A call that only looks** fails, or leaves the path as it is. -/
theorem call_looks {v : World} (hl : looks w.phase = true) (h : call P c os w = some v) :
    (∃ e, v.phase = .done (.error e)) ∨ v.path = w.path ∧ v.undo = w.undo := by
  have hmap : ∀ len, (∃ e, (mapFrom P c len w).phase = .done (.error e)) ∨
      (mapFrom P c len w).path = w.path ∧ (mapFrom P c len w).undo = w.undo := by
    intro len
    rcases mapFrom_cases P c len w with ⟨e, heq⟩ | heq <;> rw [heq]
    · exact Or.inl ⟨e, rfl⟩
    · exact Or.inr ⟨rfl, rfl⟩
  unfold call at h
  cases hp : w.phase with
  | querying again =>
    rw [hp] at h
    simp only at h
    split at h <;> cases h
    · exact Or.inl ⟨_, rfl⟩
    · cases again with
      | true => exact Or.inr ⟨rfl, rfl⟩
      | false =>
        rw [if_neg Bool.false_ne_true]
        unfold gotLen
        split
        · exact hmap _
        · split
          · split
            · exact Or.inl ⟨_, rfl⟩
            · exact Or.inr ⟨rfl, rfl⟩
          · exact Or.inl ⟨_, rfl⟩
  | mapQuery len request =>
    rw [hp] at h
    simp only at h
    split at h
    · cases h
      exact Or.inl ⟨_, rfl⟩
    · split at h
      · cases h
        exact Or.inl ⟨_, rfl⟩
      · split at h <;> cases h
        · exact Or.inr ⟨rfl, rfl⟩
        · exact Or.inr ⟨rfl, rfl⟩
  | mapping len mapLen =>
    rw [hp] at h
    simp only at h
    split at h <;> cases h
    · exact Or.inl ⟨_, rfl⟩
    · exact Or.inr ⟨rfl, rfl⟩
  | _ =>
    rw [hp] at hl
    cases hl

/-- Such a call, once the process has its file, moves the process on and nothing else. -/
theorem commit_looks {f : Nat} (hf : p.file = some f) (hl : looks p.phase = true) (h : call P c os (p.world d) = some w)
    (hw : ∀ e, w.phase ≠ .done (.error e)) : commit d p w = (d, ⟨w.phase, p.undo, p.file, false⟩) := by
  rcases call_looks hl h with ⟨e, he⟩ | ⟨hpath, hundo⟩
  · exact absurd he (hw e)
  · unfold commit
    rw [hpath, put_same hf, hundo]
    split
    · exact absurd ‹_› (hw _)
    · cases hp : p.phase with
      | opening | exclusive =>
        rw [hp] at hl
        cases hl
      | _ => rfl

/-- What the commit of a call comes to. -/
structure Committed (makes writes : Bool) (d : Disk) (p : Proc) (d' : Disk) (p' : Proc) : Prop where
  touch : Touch p makes writes d d'
  removing : p'.removing = true → (∃ e, p'.phase = .done (.error e)) ∧ makes = true
  file : p'.file = p.file ∨ p.file = none ∧ (makes = true → d.named = none ∧ p'.file = some d.next ∧ d'.next = d.next + 1) ∧
    (makes = false → p'.file = d.named)

theorem createsNew_undo (hc : createsNew c = true) (existed : Bool) : c.undoFor existed = .remove := by
  cases c with
  | build b t =>
    cases t with
    | createNew => rfl
    | _ => cases hc
  | _ => cases hc

theorem createsNew_whole (hc : createsNew c = true) (hm : c.mode = .readWrite) : c.whole = false := by
  cases c with
  | build b t =>
    show decide ((Ctor.build b t).mode = .readOnly) = false
    rw [hm]
    rfl
  | _ => cases hc

/-- A creation fails. -/
theorem creates_fail {e : MmapIoError} (hw : w.phase = .done (.error e)) (hh : p.undo = .remove → ∃ n, Holds d p n) :
    Creates P c (commit d p w).1 (commit d p w).2 ∧ Committed true false d p (commit d p w).1 (commit d p w).2 := by
  rw [commit_error hw]
  refine ⟨fun hr => hh (of_decide_eq_true hr), .nothing, fun _ => ⟨⟨e, rfl⟩, rfl⟩, Or.inl rfl⟩

/-- **One system call of `create_new`.** -/
theorem creates_call (hc : createsNew c = true) (hs : Creates P c d p) (h : call P c os (p.world d) = some w) :
    Creates P c (commit d p w).1 (commit d p w).2 ∧ Committed true false d p (commit d p w).1 (commit d p w).2 := by
  have hworld : (p.world d).phase = p.phase := rfl
  unfold Creates at hs
  cases hp : p.phase with
  | exclusive size =>
    unfold call at h
    rw [hworld, hp] at h
    rw [hp] at hs
    obtain ⟨hf, hu, hasked⟩ := hs
    have hpath : (p.world d).path = d.named.map d.bytes := by
      unfold Proc.world
      rw [hf]
      rfl
    have hno : p.undo = .remove → ∃ n, Holds d p n := by
      rw [hu]
      nofun
    simp only at h
    split at h
    · cases h
      exact creates_fail rfl hno
    · cases h
      exact creates_fail rfl hno
    · rename_i hnone
      cases h
      have hn : d.named = none := by
        rw [hpath] at hnone
        exact Option.map_eq_none_iff.1 hnone
      have hcommit : commit d p ⟨some [], c.undoFor false, .sizing size⟩ =
          (⟨some d.next, Function.update d.bytes d.next [], d.next + 1⟩, ⟨.sizing size, c.undoFor false, some d.next, false⟩) := by
        unfold commit
        rw [hp]
        rfl
      rw [hcommit]
      refine ⟨⟨⟨d.next, rfl, rfl, ?_⟩, createsNew_undo hc false, hasked⟩, .made rfl hn, nofun, Or.inr ⟨hf, fun _ => ⟨hn, rfl, rfl⟩, nofun⟩⟩
      simp only [Function.update_self, List.length_nil]
  | sizing size =>
    unfold call at h
    rw [hworld, hp] at h
    rw [hp] at hs
    obtain ⟨⟨f, hf, hn, hlen⟩, hu, hasked⟩ := hs
    have hempty : d.bytes f = [] := List.eq_nil_of_length_eq_zero hlen
    simp only at h
    split at h
    · cases h
      exact creates_fail rfl (fun _ => ⟨0, f, hf, hn, hlen⟩)
    · cases h
      rw [mapFrom_of_lt (maxMmapSize_lt P hasked.le), createsNew_whole hc hasked.mode]
      have hcommit : commit d p ⟨(p.world d).path.map (fun file => setLen file size 0), (p.world d).undo, .mapQuery size (some size)⟩ =
          ({ d with bytes := Function.update d.bytes f (setLen [] size 0) }, ⟨.mapQuery size (some size), p.undo, some f, false⟩) := by
        unfold commit
        rw [hp, world_path hf, hempty, hf]
        rfl
      simp only [Bool.false_eq_true, if_false]
      rw [hcommit]
      refine ⟨⟨⟨f, rfl, hn, ?_⟩, hu, hasked, rfl⟩, .sized rfl hf hempty, nofun, Or.inl hf.symm⟩
      simp only [Function.update_self, length_setLen]
  | mapQuery len request =>
    rw [hp] at hs
    obtain ⟨⟨f, hf, hn, hlen⟩, hu, hasked, hreq⟩ := hs
    have hlooks : looks p.phase = true := by rw [hp]; rfl
    rcases call_mapQuery (hworld.trans hp) h with ⟨e, hw⟩ | ⟨hz, hw⟩ | ⟨hmax, hw⟩
    · exact creates_fail hw (fun _ => ⟨len, f, hf, hn, hlen⟩)
    · rw [hreq, Option.getD_some] at hz
      exact absurd hz (Nat.ne_of_gt hasked.pos)
    · rw [hreq, Option.getD_some] at hw
      rw [commit_looks hf hlooks h (by rw [hw]; nofun), hw]
      exact ⟨⟨⟨f, hf, hn, hlen⟩, hu, hasked, rfl⟩, .nothing, nofun, Or.inl rfl⟩
  | mapping len mapLen =>
    rw [hp] at hs
    obtain ⟨⟨f, hf, hn, hlen⟩, hu, hasked, rfl⟩ := hs
    have hlooks : looks p.phase = true := by rw [hp]; rfl
    rcases call_mapping (hworld.trans hp) h with ⟨e, hw⟩ | hw
    · exact creates_fail hw (fun _ => ⟨_, f, hf, hn, hlen⟩)
    · rw [commit_looks hf hlooks h (by rw [hw]; nofun), hw]
      refine ⟨?_, .nothing, nofun, Or.inl rfl⟩
      unfold Creates
      simp only [mapLen_inner]
      exact ⟨⟨f, hf, hn, hlen⟩, hasked⟩
  | done r =>
    unfold call at h
    rw [hworld, hp] at h
    cases h
  | _ =>
    rw [hp] at hs
    cases hs

theorem onlyOpens_whole (hc : onlyOpens c = true) (hm : c.mode = .readOnly) : c.whole = true := by
  cases c with
  | openRo | openRw => rfl
  | openCow | openCowWritable => cases hm
  | build b t => exact decide_eq_true hm
  | createRw | fromFile => cases hc

theorem onlyOpens_opens (hc : onlyOpens c = true) : c.opensOrCreates = false := by
  cases c with
  | build b t =>
    cases t with
    | openAs => rfl
    | _ => cases hc
  | _ => rfl

/-- Only a mapping that is not empty asks the OS for one. -/
theorem mapQuery_pos {v : World} {len n : Nat} {request : Option Nat} (hp : w.phase = .mapQuery len request)
    (h : call P c os w = some v) (hv : v.phase = .mapping len n) : n ≠ 0 := by
  unfold call at h
  rw [hp] at h
  simp only at h
  split at h
  · cases h
    cases hv
  · split at h
    · cases h
      cases hv
    · split at h
      · cases h
        cases hv
      · rename_i hne
        cases h
        cases hv
        exact hne

theorem opens_fail {e : MmapIoError} (hw : w.phase = .done (.error e)) (hu : p.undo = .nothing) :
    Opens c (commit d p w).1 (commit d p w).2 ∧ Committed false false d p (commit d p w).1 (commit d p w).2 := by
  rw [commit_error hw, hu]
  exact ⟨rfl, .nothing, nofun, Or.inl rfl⟩

/-- **One system call of an open.** -/
theorem opens_call (hc : onlyOpens c = true) (hs : Opens c d p) (h : call P c os (p.world d) = some w) :
    Opens c (commit d p w).1 (commit d p w).2 ∧ Committed false false d p (commit d p w).1 (commit d p w).2 := by
  have hworld : (p.world d).phase = p.phase := rfl
  unfold Opens at hs
  cases hp : p.phase with
  | opening =>
    unfold call at h
    rw [hworld, hp] at h
    rw [hp] at hs
    obtain ⟨hf, hu⟩ := hs
    have hpath : (p.world d).path = d.named.map d.bytes := by
      unfold Proc.world
      rw [hf]
      rfl
    simp only at h
    split at h
    · cases h
      exact opens_fail rfl hu
    · cases h
      exact opens_fail rfl hu
    · rename_i file hsome
      cases h
      obtain ⟨f, hn, -⟩ := Option.map_eq_some_iff.1 (hpath.symm.trans hsome)
      have hcommit : commit d p { p.world d with phase := .querying false } = (d, ⟨.querying false, p.undo, d.named, false⟩) := by
        unfold commit
        rw [hp]
        rfl
      rw [hcommit]
      refine ⟨⟨rfl, ?_, hu⟩, .nothing, nofun, Or.inr ⟨hf, nofun, fun _ => rfl⟩⟩
      simp only [hn]
      exact Option.some_ne_none f
  | querying again =>
    rw [hp] at hs
    obtain ⟨rfl, hne, hu⟩ := hs
    obtain ⟨f, hf⟩ := Option.ne_none_iff_exists'.1 hne
    have hlooks : looks p.phase = true := by rw [hp]; rfl
    have hcall := h
    unfold call at hcall
    rw [hworld, hp] at hcall
    simp only [Bool.false_eq_true, if_false] at hcall
    split at hcall
    · cases hcall
      exact opens_fail rfl hu
    · cases hcall
      rw [world_file hf] at h ⊢
      unfold gotLen at h ⊢
      split
      · rename_i hlen
        rw [if_pos hlen] at h
        rcases mapFrom_cases P c (d.bytes f).length (p.world d) with ⟨e, heq⟩ | heq <;> rw [heq] at h ⊢
        · exact opens_fail rfl hu
        · rw [commit_looks hf hlooks h nofun]
          refine ⟨⟨⟨f, hf, fun _ => rfl⟩, hu, fun hm => hlen.resolve_left hm, rfl⟩, .nothing, nofun, Or.inl rfl⟩
      · rw [if_neg (by rw [onlyOpens_opens hc]; exact Bool.false_ne_true)]
        exact opens_fail rfl hu
  | mapQuery len request =>
    rw [hp] at hs
    obtain ⟨⟨f, hf, hlen⟩, hu, hm, hreq⟩ := hs
    have hlooks : looks p.phase = true := by rw [hp]; rfl
    -- an explicit length is the file's own, as it was not 0
    have hget : request.getD (p.world d).file.length = (d.bytes f).length := by
      rw [hreq, world_file hf]
      cases hw : c.whole with
      | true => rfl
      | false =>
        refine (hlen (hm (fun hro => ?_))).symm
        rw [onlyOpens_whole hc hro] at hw
        cases hw
    rcases call_mapQuery (hworld.trans hp) h with ⟨e, hw⟩ | ⟨hz, hw⟩ | ⟨hmax, hw⟩
    · exact opens_fail hw hu
    · rw [hget] at hz
      rw [commit_looks hf hlooks h (by rw [hw]; nofun), hw]
      refine ⟨⟨f, hf, Or.inl ⟨mapLen_inner .., ?_⟩⟩, .nothing, nofun, Or.inl rfl⟩
      by_contra hro
      have hne := hm hro
      exact hne ((hlen hne).symm.trans hz)
    · have hne := mapQuery_pos (hworld.trans hp) h hw
      rw [hget] at hw hne
      rw [commit_looks hf hlooks h (by rw [hw]; nofun), hw]
      exact ⟨⟨⟨f, hf, rfl⟩, hu, hne⟩, .nothing, nofun, Or.inl rfl⟩
  | mapping len mapLen =>
    rw [hp] at hs
    obtain ⟨⟨f, hf, hlen⟩, hu, hne⟩ := hs
    have hlooks : looks p.phase = true := by rw [hp]; rfl
    rcases call_mapping (hworld.trans hp) h with ⟨e, hw⟩ | hw
    · exact opens_fail hw hu
    · rw [commit_looks hf hlooks h (by rw [hw]; nofun), hw]
      refine ⟨⟨f, hf, Or.inr ?_⟩, .nothing, nofun, Or.inl rfl⟩
      rw [mapLen_inner]
      exact ⟨hne, hlen⟩
  | done r =>
    unfold call at h
    rw [hworld, hp] at h
    cases h
  | _ =>
    rw [hp] at hs
    cases hs

/-- **One system call of a process.** -/
theorem stands_call (hc : Party c) (hs : Stands P c d p) (h : call P c os (p.world d) = some w) :
    Stands P c (commit d p w).1 (commit d p w).2 ∧ Committed (createsNew c) false d p (commit d p w).1 (commit d p w).2 := by
  unfold Stands at hs ⊢
  cases hnew : createsNew c with
  | true =>
    rw [if_pos hnew] at hs
    exact creates_call hnew hs h
  | false =>
    rw [if_neg (by rw [hnew]; exact Bool.false_ne_true)] at hs
    refine opens_call (hc.resolve_left ?_) hs h
    rw [hnew]
    exact Bool.false_ne_true

/-! ## What the others do -/

section Frame

variable {q : Proc} {makes writes : Bool} {d' : Disk}

theorem Holds.touch {n : Nat} (h : Holds d q n) (ht : Touch p makes writes d d') (hlt : ∀ f, q.file = some f → f < d.next)
    (hown : makes = true → ∀ f, q.file = some f → p.file ≠ some f) : Holds d' q n := by
  obtain ⟨f, hf, hn, hlen⟩ := h
  exact ⟨f, hf, ht.named_other hn (fun hm => hown hm f hf),
    (ht.length_other (hlt f hf) (fun hm => hown hm f hf)).trans hlen⟩

/-- **A process with another file leaves a creation where it stands.** -/
theorem Creates.touch (h : Creates P c d q) (ht : Touch p makes writes d d') (hlt : ∀ f, q.file = some f → f < d.next)
    (hown : makes = true → ∀ f, q.file = some f → p.file ≠ some f) : Creates P c d' q := by
  unfold Creates at h ⊢
  cases hq : q.phase with
  | exclusive size =>
    rw [hq] at h
    exact h
  | sizing size =>
    rw [hq] at h
    exact ⟨h.1.touch ht hlt hown, h.2⟩
  | mapQuery len request =>
    rw [hq] at h
    exact ⟨h.1.touch ht hlt hown, h.2⟩
  | mapping len mapLen =>
    rw [hq] at h
    exact ⟨h.1.touch ht hlt hown, h.2⟩
  | done r =>
    rw [hq] at h
    cases r with
    | ok m => exact ⟨h.1.touch ht hlt hown, h.2⟩
    | error e =>
      intro hr
      obtain ⟨n, hn⟩ := h hr
      exact ⟨n, hn.touch ht hlt hown⟩
  | _ =>
    rw [hq] at h
    cases h

/-- **No process moves an open from where it stands.** -/
theorem Opens.touch (h : Opens c d q) (ht : Touch p makes writes d d') (hlt : ∀ f, q.file = some f → f < d.next) : Opens c d' q := by
  have hkeep : ∀ f n, q.file = some f → n ≠ 0 → (d.bytes f).length = n → (d'.bytes f).length = n :=
    fun f n hf hn hlen => (ht.length_eq (hlt f hf) (hlen ▸ hn)).trans hlen
  unfold Opens at h ⊢
  cases hq : q.phase with
  | opening | querying =>
    rw [hq] at h
    exact h
  | mapQuery len request =>
    rw [hq] at h
    obtain ⟨⟨f, hf, hlen⟩, hrest⟩ := h
    exact ⟨⟨f, hf, fun hne => hkeep f len hf hne (hlen hne)⟩, hrest⟩
  | mapping len mapLen =>
    rw [hq] at h
    obtain ⟨⟨f, hf, hlen⟩, hu, hne⟩ := h
    exact ⟨⟨f, hf, hkeep f mapLen hf hne hlen⟩, hu, hne⟩
  | done r =>
    rw [hq] at h
    cases r with
    | ok m =>
      obtain ⟨f, hf, hm⟩ := h
      exact ⟨f, hf, hm.imp_right (fun hm => ⟨hm.1, hkeep f m.mapLen hf hm.1 hm.2⟩)⟩
    | error e => exact h
  | _ =>
    rw [hq] at h
    cases h

theorem Stands.touch (h : Stands P c d q) (ht : Touch p makes writes d d') (hlt : ∀ f, q.file = some f → f < d.next)
    (hown : createsNew c = true → makes = true → ∀ f, q.file = some f → p.file ≠ some f) : Stands P c d' q := by
  unfold Stands at h ⊢
  split
  · rename_i hc
    rw [if_pos hc] at h
    exact h.touch ht hlt (hown hc)
  · rename_i hc
    rw [if_neg hc] at h
    exact h.touch ht hlt

end Frame

/-! ## Along a run -/

section Runs

variable {ι : Type} {cs : ι → Ctor} {path : Option (List UInt8)} {s s' : State ι}

structure Inv (P : Platform) (cs : ι → Ctor) (path : Option (List UInt8)) (s : State ι) : Prop where
  fresh : ∀ i f, (s.proc i).file = some f → f < s.disk.next
  named : ∀ f, s.disk.named = some f → f < s.disk.next
  /-- a file is made by one process -/
  own : ∀ i j f, createsNew (cs i) = true → createsNew (cs j) = true → (s.proc i).file = some f → (s.proc j).file = some f → i = j
  stands : ∀ i, Stands P (cs i) s.disk (s.proc i)
  removing : ∀ i, (s.proc i).removing = true → (∃ e, (s.proc i).phase = .done (.error e)) ∧ createsNew (cs i) = true
  existing : ∀ file, path = some file → s.disk.named = some 0 ∧ (s.disk.bytes 0).length = file.length ∧
    ∀ i, createsNew (cs i) = true → (s.proc i).file = none

theorem begin_creates (P : Platform) (hc : createsNew c = true) :
    (∃ e, c.begin P = .done (.error e)) ∨ ∃ size, c.begin P = .exclusive size ∧ Asked P c size := by
  cases c with
  | build b t =>
    cases t with
    | createNew =>
      simp only [Ctor.begin]
      split
      · rename_i hmode
        split
        · exact Or.inl ⟨_, rfl⟩
        · rename_i size hsize
          obtain ⟨hs, hpos, hle⟩ := validatedCreateSize_ok hsize
          exact Or.inr ⟨size, rfl, hmode, hs, hpos, hle⟩
      · exact Or.inl ⟨_, rfl⟩
    | _ => cases hc
  | _ => cases hc

theorem begin_opens (P : Platform) (hc : onlyOpens c = true) : c.begin P = .opening := by
  cases c with
  | build b t =>
    cases t with
    | openAs => rfl
    | _ => cases hc
  | openRo | openRw | openCow | openCowWritable => rfl
  | _ => cases hc

theorem start_inv (hparties : ∀ i, Party (cs i)) : Inv P cs path (start P cs path) := by
  refine ⟨nofun, fun f hf => ?_, nofun, fun i => ?_, nofun, fun file hp => ?_⟩
  · obtain ⟨_, -, rfl⟩ := Option.map_eq_some_iff.1 hf
    exact Nat.zero_lt_one
  · unfold Stands
    split
    · rename_i hc
      unfold Creates start
      rcases begin_creates P hc with ⟨e, hb⟩ | ⟨size, hb, hasked⟩ <;> simp only [hb]
      · nofun
      · exact ⟨trivial, trivial, hasked⟩
    · rename_i hc
      unfold Opens start
      simp only [begin_opens P ((hparties i).resolve_left hc)]
      exact ⟨trivial, trivial⟩
  · subst hp
    exact ⟨rfl, rfl, fun i _ => rfl⟩

variable [DecidableEq ι]

/-- **A process that stands where it should leaves everyone where they should.** -/
theorem Inv.moved (hi : Inv P cs path s) {i : ι} {writes : Bool} {d' : Disk} {p' : Proc}
    (hcom : Committed (createsNew (cs i)) writes s.disk (s.proc i) d' p') (hstands : Stands P (cs i) d' p') :
    Inv P cs path ⟨d', Function.update s.proc i p'⟩ := by
  have hnext := hcom.touch.next_le
  have hall : ∀ {Q : ι → Proc → Prop}, Q i p' → (∀ j, j ≠ i → Q j (s.proc j)) → ∀ j, Q j (Function.update s.proc i p' j) :=
    fun {Q} hnew hold => (Function.forall_update_iff s.proc (fun j q => Q j q)).2 ⟨hnew, hold⟩
  -- the file of another creation is not the one this process makes, sizes or removes
  have hown : ∀ j, j ≠ i → createsNew (cs j) = true → createsNew (cs i) = true → ∀ f, (s.proc j).file = some f →
      (s.proc i).file ≠ some f ∧ p'.file ≠ some f := by
    intro j hji hcj hci f hf
    have hne : (s.proc i).file ≠ some f := fun hf' => hji (hi.own j i f hcj hci hf hf')
    refine ⟨hne, ?_⟩
    rcases hcom.file with heq | ⟨-, hmakes, -⟩
    · rw [heq]
      exact hne
    · rw [(hmakes hci).2.1]
      intro heq
      cases heq
      exact Nat.lt_irrefl _ (hi.fresh j _ hf)
  refine ⟨hall (Q := fun j q => ∀ f, q.file = some f → f < d'.next) (fun f hf => ?_)
    (fun j _ f hf => Nat.lt_of_lt_of_le (hi.fresh j f hf) hnext), fun f hf => ?_, fun j k f hcj hck hj hk => ?_,
    hall (Q := fun j q => Stands P (cs j) d' q) hstands (fun j hji => ?_),
    hall (Q := fun j q => q.removing = true → (∃ e, q.phase = .done (.error e)) ∧ createsNew (cs j) = true) hcom.removing
      (fun j _ => hi.removing j), fun file hp => ?_⟩
  · rcases hcom.file with heq | ⟨-, hmakes, hfinds⟩
    · exact Nat.lt_of_lt_of_le (hi.fresh i f (heq ▸ hf)) hnext
    · cases hm : createsNew (cs i) with
      | true =>
        obtain ⟨-, hnew, hd'⟩ := hmakes hm
        rw [hnew] at hf
        cases hf
        rw [hd']
        exact Nat.lt_succ_self _
      | false => exact Nat.lt_of_lt_of_le (hi.named f ((hfinds hm).symm.trans hf)) hnext
  · cases hcom.touch with
    | made =>
      cases hf
      exact Nat.lt_succ_self _
    | nothing | sized | wrote => exact hi.named f hf
    | removed => cases hf
  · by_cases hji : j = i
    · by_cases hki : k = i
      · rw [hji, hki]
      · subst hji
        simp only [Function.update_self, Function.update_of_ne hki] at hj hk
        exact absurd hj (hown k hki hck hcj f hk).2
    · by_cases hki : k = i
      · subst hki
        simp only [Function.update_self, Function.update_of_ne hji] at hj hk
        exact absurd hk (hown j hji hcj hck f hj).2
      · simp only [Function.update_of_ne hji, Function.update_of_ne hki] at hj hk
        exact hi.own j k f hcj hck hj hk
  · exact (hi.stands j).touch hcom.touch (hi.fresh j) (fun hcj hci f hf => (hown j hji hcj hci f hf).1)
  · obtain ⟨hn, hlen, hnone⟩ := hi.existing file hp
    have hnot : createsNew (cs i) = true → (s.proc i).file ≠ some 0 := by
      intro hci
      rw [hnone i hci]
      nofun
    refine ⟨hcom.touch.named_other hn hnot, (hcom.touch.length_other (hi.named 0 hn) hnot).trans hlen,
      hall (Q := fun j q => createsNew (cs j) = true → q.file = none) (fun hci => ?_) (fun j _ => hnone j)⟩
    rcases hcom.file with heq | ⟨-, hmakes, -⟩
    · rw [heq]
      exact hnone i hci
    · cases hn.symm.trans (hmakes hci).1

omit [DecidableEq ι] in
theorem Inv.creates (hi : Inv P cs path s) {i : ι} (hc : createsNew (cs i) = true) : Creates P (cs i) s.disk (s.proc i) := by
  have hs := hi.stands i
  unfold Stands at hs
  rw [if_pos hc] at hs
  exact hs

omit [DecidableEq ι] in
/-- **A mapping lies within its file**, whoever has it. -/
theorem Inv.mapped (hi : Inv P cs path s) {i : ι} {m : Inner} (hm : (s.proc i).phase = .done (.ok m)) :
    ∃ f, (s.proc i).file = some f ∧ (m.mapLen = 0 ∧ (cs i).mode = .readOnly ∨
      m.mapLen ≠ 0 ∧ (s.disk.bytes f).length = m.mapLen) := by
  have hs := hi.stands i
  unfold Stands at hs
  split at hs
  · unfold Creates at hs
    rw [hm] at hs
    obtain ⟨⟨f, hf, -, hlen⟩, hasked⟩ := hs
    exact ⟨f, hf, Or.inr ⟨Nat.ne_of_gt hasked.pos, hlen⟩⟩
  · unfold Opens at hs
    rw [hm] at hs
    exact hs

omit [DecidableEq ι] in
/-- What a failed creation is about to remove is its own file. -/
theorem Inv.removes (hi : Inv P cs path s) {i : ι} (hr : (s.proc i).removing = true) :
    ∃ f, (s.proc i).file = some f ∧ s.disk.named = some f := by
  obtain ⟨⟨e, he⟩, hc⟩ := hi.removing i hr
  have hs := hi.creates hc
  unfold Creates at hs
  rw [he] at hs
  obtain ⟨n, f, hf, hn, -⟩ := hs hr
  exact ⟨f, hf, hn⟩

/-- **One step is one touch of the disk**, and everyone stands where they should after it. -/
theorem step_inv (hparties : ∀ i, Party (cs i)) (hi : Inv P cs path s) {a : Act ι} (h : step P cs s a = some s') :
    Inv P cs path s' := by
  cases a with
  | call i os =>
    simp only [step, Option.map_eq_some_iff] at h
    obtain ⟨w, hcall, rfl⟩ := h
    obtain ⟨hs, hcom⟩ := stands_call (hparties i) (hi.stands i) hcall
    exact hi.moved hcom hs
  | remove i granted =>
    simp only [step] at h
    split at h
    swap
    · cases h
    rename_i hr
    cases h
    obtain ⟨⟨e, he⟩, hc⟩ := hi.removing i hr
    obtain ⟨f, hf, hn⟩ := hi.removes hr
    have htouch : Touch (s.proc i) (createsNew (cs i)) false s.disk (if granted then { s.disk with named := none } else s.disk) := by
      cases granted
      · exact .nothing
      · exact .removed hc hf hn
    refine hi.moved ⟨htouch, nofun, Or.inl rfl⟩ ?_
    · unfold Stands
      rw [if_pos hc]
      unfold Creates
      simp only [he]
      nofun
  | write i start data =>
    simp only [step] at h
    split at h
    swap
    · cases h
    rename_i m f hm hf
    split at h
    swap
    · cases h
    rename_i hfit
    cases h
    have htouch : ∀ makes, Touch (s.proc i) makes true s.disk (s.disk.put (some f) (splice (s.disk.bytes f) start data)) := by
      intro makes
      refine .wrote rfl hf ?_
      obtain ⟨f', hf', hm'⟩ := hi.mapped hm
      rw [hf] at hf'
      cases hf'
      omega
    have hcom : Committed (createsNew (cs i)) true s.disk (s.proc i) _ (s.proc i) := ⟨htouch _, hi.removing i, Or.inl rfl⟩
    have hmoved := hi.moved hcom ((hi.stands i).touch (htouch false) (hi.fresh i) nofun)
    rw [Function.update_eq_self] at hmoved
    exact hmoved

theorem run_inv (hparties : ∀ i, Party (cs i)) {acts : List (Act ι)} (hr : Machine.run (step P cs) (start P cs path) acts = some s) :
    Inv P cs path s :=
  Machine.run_invariant (Inv P cs path) (fun _ _ _ hi h => step_inv hparties hi h) acts _ s (start_inv hparties) hr

end Runs

/-- Process `i` was given the mapping `m`. -/
def State.given {ι : Type} (s : State ι) (i : ι) (m : Inner) : Prop := (s.proc i).phase = .done (.ok m)

section Runs

variable {ι : Type} {cs : ι → Ctor} {path : Option (List UInt8)} {s s' : State ι}

theorem Inv.winner (hi : Inv P cs path s) {i : ι} {m : Inner} (hc : createsNew (cs i) = true) (hm : s.given i m) :
    Holds s.disk (s.proc i) m.mapLen ∧ Asked P (cs i) m.mapLen := by
  have hs := hi.creates hc
  unfold Creates at hs
  rw [State.given] at hm
  rw [hm] at hs
  exact hs

theorem Inv.exclusive (hi : Inv P cs path s) {i j : ι} {n n' : Nat} (hci : createsNew (cs i) = true)
    (hcj : createsNew (cs j) = true) (h : Holds s.disk (s.proc i) n) (h' : Holds s.disk (s.proc j) n') : i = j := by
  obtain ⟨f, hf, hn, -⟩ := h
  obtain ⟨f', hf', hn', -⟩ := h'
  cases hn.symm.trans hn'
  exact hi.own i j f hci hcj hf hf'

variable [DecidableEq ι]

/-- **`create_new` makes a file of its own or none.**  Whoever creates and opens the path, and whatever the OS refuses: at most
one `create_new` succeeds, none where there was a file; its mapping is of the size it asked for and the path names its file,
of that length; every mapping given out is the whole of its file, or empty and read-only; a file that was there stays and keeps
its length; no call but a store through a mapping changes a byte; and what a failed call removes is the file it made. -/
theorem create_new_exclusive (P : Platform) (cs : ι → Ctor) (hparties : ∀ i, Party (cs i)) (path : Option (List UInt8))
    (acts : List (Act ι)) (s : State ι) (hr : Machine.run (step P cs) (start P cs path) acts = some s) :
    (∀ i j m m', createsNew (cs i) = true → createsNew (cs j) = true → s.given i m → s.given j m' → i = j) ∧
    (∀ i m, createsNew (cs i) = true → s.given i m → path = none ∧ (cs i).size = some m.mapLen ∧
      ∃ f, (s.proc i).file = some f ∧ s.disk.named = some f ∧ (s.disk.bytes f).length = m.mapLen) ∧
    (∀ i m, s.given i m → ∃ f, (s.proc i).file = some f ∧
      (m.mapLen = 0 ∧ (cs i).mode = .readOnly ∨ m.mapLen ≠ 0 ∧ (s.disk.bytes f).length = m.mapLen)) ∧
    (∀ file, path = some file → s.disk.named = some 0 ∧ (s.disk.bytes 0).length = file.length) ∧
    (∀ i os s', step P cs s (.call i os) = some s' → ∀ f, f < s.disk.next → s.disk.bytes f <+: s'.disk.bytes f) ∧
    ∀ i, (s.proc i).removing = true → (∃ f, (s.proc i).file = some f ∧ s.disk.named = some f) ∧
      ∀ j m, createsNew (cs j) = true → ¬ s.given j m := by
  have hi := run_inv hparties hr
  refine ⟨fun i j m m' hci hcj hm hm' => hi.exclusive hci hcj (hi.winner hci hm).1 (hi.winner hcj hm').1, fun i m hc hm => ?_,
    fun i m hm => hi.mapped hm, fun file hp => ⟨(hi.existing file hp).1, (hi.existing file hp).2.1⟩, fun i os s' hs f hf => ?_,
    fun i hrem => ⟨hi.removes hrem, fun j m hc hm => ?_⟩⟩
  · obtain ⟨⟨f, hf, hn, hlen⟩, hasked⟩ := hi.winner hc hm
    refine ⟨?_, hasked.size, f, hf, hn, hlen⟩
    cases hp : path with
    | none => rfl
    | some file =>
      rw [(hi.existing file hp).2.2 i hc] at hf
      cases hf
  · simp only [step, Option.map_eq_some_iff] at hs
    obtain ⟨w, hcall, rfl⟩ := hs
    exact (stands_call (hparties i) (hi.stands i) hcall).2.touch.grows hf
  · obtain ⟨⟨e, he⟩, hci⟩ := hi.removing i hrem
    obtain ⟨f, hf, hn⟩ := hi.removes hrem
    have hij : i = j := hi.exclusive hci hc ⟨f, hf, hn, rfl⟩ (hi.winner hc hm).1
    subst hij
    cases he.symm.trans hm

end Runs

inductive Rival where
  | first
  | second
  | reader
  deriving DecidableEq, Repr

/-- Two processes create eight bytes and four, a third opens the path. -/
def rivals : Rival → Ctor
  | .first => .build (sized 8) .createNew
  | .second => .build (sized 4) .createNew
  | .reader => .openRw

theorem rivals_party (i : Rival) : Party (rivals i) := by
  cases i <;> decide

/-- The first makes and sizes its file, the reader maps it, the first cannot, and removes the name; then comes the second. -/
def removedAndMade : List (Act Rival) :=
  [.call .first Os.ok, .call .first Os.ok, .call .reader Os.ok, .call .reader Os.ok, .call .reader Os.ok, .call .reader Os.ok,
   .call .first Os.ok, .call .first { Os.ok with map := some "ENOMEM" }, .remove .first true, .call .second Os.ok,
   .call .second Os.ok, .call .second Os.ok, .call .second Os.ok, .write .reader 7 [9], .write .second 3 [5]]

/-- The reader keeps the eight bytes it mapped; the path is the second's. -/
theorem create_new_exclusive_removedAndMade : ∃ s, Machine.run (step linux64 rivals) (start linux64 rivals none) removedAndMade = some s ∧
    s.disk.named = some 2 ∧ s.disk.bytes 1 = [0, 0, 0, 0, 0, 0, 0, 9] ∧ s.disk.bytes 2 = [0, 0, 0, 5] ∧
    (∃ m, s.given .second m) ∧ ∀ i m, createsNew (rivals i) = true → s.given i m → i = .second := by
  have hd : (Machine.run (step linux64 rivals) (start linux64 rivals none) removedAndMade).map (fun s =>
      (s.disk.named, s.disk.bytes 1, s.disk.bytes 2, (s.proc .second).phase)) =
      some (some 2, [0, 0, 0, 0, 0, 0, 0, 9], [0, 0, 0, 5], .done (.ok ((rivals .second).inner [0, 0, 0, 0] 4 4))) := by
    decide +kernel
  obtain ⟨s, hs, h⟩ := Option.map_eq_some_iff.1 hd
  simp only [Prod.mk.injEq] at h
  obtain ⟨hn, h1, h2, hgiven⟩ := h
  refine ⟨s, hs, hn, h1, h2, ⟨_, hgiven⟩, fun i m hc hm => ?_⟩
  exact (create_new_exclusive linux64 rivals rivals_party none removedAndMade s hs).1 i .second m _ hc rfl hm hgiven

/-! ## When the OS refuses nothing -/

/-- The call goes on, or has its mapping. -/
def Alive (ph : Phase) : Prop := ∀ e, ph ≠ .done (.error e)

/-- A creation that has its file goes on. -/
theorem creates_alive (hs : Creates P c d p) (hsize : ∀ n, c.size = some n → n ≤ P.width.maxLen)
    (hx : ∀ size, p.phase ≠ .exclusive size) (h : call P c Os.ok (p.world d) = some w) : Alive w.phase := by
  have hworld : (p.world d).phase = p.phase := rfl
  unfold Creates at hs
  unfold call at h
  rw [hworld] at h
  cases hp : p.phase with
  | exclusive size => exact absurd hp (hx size)
  | sizing size =>
    rw [hp] at h hs
    obtain ⟨-, -, hasked⟩ := hs
    cases h
    rw [mapFrom_of_lt (maxMmapSize_lt P hasked.le)]
    nofun
  | mapQuery len request =>
    rw [hp] at h hs
    obtain ⟨⟨f, hf, -, hlen⟩, -, hasked, rfl⟩ := hs
    have hlayout : mapImplLayout P.width (p.world d).file.length 0 (some len) P.granularity = .ok ⟨0, 0, len, len⟩ := by
      refine (mapImplLayout_eq P.gran_pow P.gran_lt _).2 ?_
      have hle := hsize len hasked.size
      simp only [world_file hf, hlen, Option.getD_some, Nat.zero_mod, Nat.zero_le, Nat.sub_zero, Nat.zero_add, Nat.le_refl,
        true_and, and_true]
      exact hle
    simp only at h
    rw [hlayout] at h
    change (if len = 0 then _ else _) = some w at h
    split at h <;> cases h
    · nofun
    · nofun
  | mapping len mapLen =>
    rw [hp] at h
    cases h
    nofun
  | done r =>
    rw [hp] at h
    cases h
  | _ =>
    rw [hp] at hs
    cases hs

/-- The exclusive open alone: it makes the file, or finds one and fails. -/
theorem exclusive_call {size : Nat} (hp : p.phase = .exclusive size) (hf : p.file = none) (hu : p.undo = .nothing)
    (h : call P c Os.ok (p.world d) = some w) :
    d.named = none ∧ (commit d p w).1.named = some d.next ∧ (commit d p w).2.file = some d.next ∧ Alive (commit d p w).2.phase ∨
      d.named ≠ none ∧ (commit d p w).1 = d ∧ (commit d p w).2.removing = false := by
  have hworld : (p.world d).phase = .exclusive size := hp
  have hpath : (p.world d).path = d.named.map d.bytes := by
    unfold Proc.world
    rw [hf]
    rfl
  unfold call at h
  rw [hworld, hpath] at h
  cases hn : d.named with
  | none =>
    rw [hn] at h
    cases h
    left
    unfold commit
    rw [hp]
    exact ⟨rfl, rfl, rfl, nofun⟩
  | some f =>
    rw [hn] at h
    cases h
    refine Or.inr ⟨Option.some_ne_none f, ?_⟩
    rw [commit_error (e := .io (.os errExists)) rfl, hu]
    exact ⟨rfl, rfl⟩

theorem put_named (file : Option Nat) (bytes : List UInt8) : (d.put file bytes).named = d.named := by
  cases file <;> rfl

/-- Only an exclusive open names a file, and only an open gives the process one. -/
theorem commit_named (he : ∀ size, p.phase ≠ .exclusive size) :
    (commit d p w).1.named = d.named ∧ (p.phase ≠ .opening → (commit d p w).2.file = p.file) := by
  unfold commit
  split
  · exact ⟨rfl, fun _ => rfl⟩
  · split
    · exact absurd ‹_› (he _)
    · exact ⟨rfl, fun ho => absurd ‹_› ho⟩
    · exact ⟨put_named .., fun _ => rfl⟩

theorem commit_phase : (commit d p w).2.phase = w.phase := by
  unfold commit
  split
  · exact (‹w.phase = _›).symm
  · split <;> rfl

section Runs

variable {ι : Type} {cs : ι → Ctor} {path : Option (List UInt8)} {s s' : State ι}

/-- Either no process has got anywhere, or one has the path and goes on. -/
structure Going (P : Platform) (cs : ι → Ctor) (s : State ι) : Prop where
  untouched : s.disk.named = none → ∀ i, createsNew (cs i) = true → (s.proc i).phase = (cs i).begin P
  held : ∀ f, s.disk.named = some f → ∃ i, createsNew (cs i) = true ∧ (s.proc i).file = some f ∧ Alive (s.proc i).phase
  quiet : ∀ i, (s.proc i).removing = false

theorem start_going : Going P cs (start P cs none) := ⟨fun _ _ _ => rfl, nofun, fun _ => rfl⟩

variable [DecidableEq ι]

/-- A process that is not the one with the path moves. -/
theorem Going.other (hg : Going P cs s) {i : ι} {d' : Disk} {p' : Proc} (hn : d'.named = s.disk.named)
    (hwait : s.disk.named = none → createsNew (cs i) = true → p'.phase = (cs i).begin P)
    (hheld : ∀ f, s.disk.named = some f → createsNew (cs i) = true → (s.proc i).file = some f → Alive (s.proc i).phase →
      p'.file = some f ∧ Alive p'.phase)
    (hr : p'.removing = false) : Going P cs ⟨d', Function.update s.proc i p'⟩ := by
  have hall : ∀ {Q : ι → Proc → Prop}, Q i p' → (∀ j, j ≠ i → Q j (s.proc j)) → ∀ j, Q j (Function.update s.proc i p' j) :=
    fun {Q} hnew hold => (Function.forall_update_iff s.proc (fun j q => Q j q)).2 ⟨hnew, hold⟩
  refine ⟨fun hnone => ?_, fun f hf => ?_, hall (Q := fun _ q => q.removing = false) hr (fun j _ => hg.quiet j)⟩
  · exact hall (Q := fun j q => createsNew (cs j) = true → q.phase = (cs j).begin P) (hwait (hn.symm.trans hnone))
      (fun j _ => hg.untouched (hn.symm.trans hnone) j)
  · obtain ⟨j, hcj, hfile, halive⟩ := hg.held f (hn.symm.trans hf)
    refine ⟨j, hcj, ?_⟩
    by_cases hji : j = i
    · subst hji
      simp only [Function.update_self]
      exact hheld f (hn.symm.trans hf) hcj hfile halive
    · simp only [Function.update_of_ne hji]
      exact ⟨hfile, halive⟩

/-- **Every step goes on**, where the OS refuses nothing. -/
theorem step_going (hparties : ∀ i, Party (cs i)) (hsizes : ∀ i n, createsNew (cs i) = true → (cs i).size = some n →
    n ≤ P.width.maxLen) (hi : Inv P cs path s) (hg : Going P cs s) {a : Act ι} (hos : ∀ i os, a = .call i os → os = Os.ok)
    (h : step P cs s a = some s') : Going P cs s' := by
  cases a with
  | call i os =>
    cases hos i os rfl
    simp only [step, Option.map_eq_some_iff] at h
    obtain ⟨w, hcall, rfl⟩ := h
    obtain ⟨-, hcom⟩ := stands_call (hparties i) (hi.stands i) hcall
    cases hc : createsNew (cs i) with
    | true =>
      have hs := hi.creates hc
      by_cases hx : ∃ size, (s.proc i).phase = .exclusive size
      · obtain ⟨size, hp⟩ := hx
        unfold Creates at hs
        rw [hp] at hs
        obtain ⟨hf, hu, -⟩ := hs
        rcases exclusive_call hp hf hu hcall with ⟨-, hn, hfile, halive⟩ | ⟨hn, hd, hr⟩
        · -- the path is this process's from here on
          refine ⟨fun hnone => ?_, fun f hf' => ?_, ?_⟩
          · cases hn.symm.trans hnone
          · cases hn.symm.trans hf'
            refine ⟨i, hc, ?_⟩
            simp only [Function.update_self]
            exact ⟨hfile, halive⟩
          · refine (Function.forall_update_iff s.proc (fun _ q => q.removing = false)).2 ⟨?_, fun j _ => hg.quiet j⟩
            by_contra hr
            obtain ⟨⟨e, he⟩, -⟩ := hcom.removing (Bool.not_eq_false _ ▸ hr)
            exact halive e he
        · refine hg.other (by rw [hd]) (fun hnone => absurd hnone hn) (fun f _ _ hf' _ => ?_) hr
          rw [hf] at hf'
          cases hf'
      · have hx' : ∀ size, (s.proc i).phase ≠ .exclusive size := fun size hp => hx ⟨size, hp⟩
        have halive := creates_alive hs (hsizes i · hc) hx' hcall
        rw [← commit_phase (d := s.disk) (p := s.proc i)] at halive
        obtain ⟨hn, hfile⟩ := commit_named (d := s.disk) (w := w) hx'
        refine hg.other hn (fun hnone => ?_) (fun f _ _ hf _ => ⟨(hfile ?_).trans hf, halive⟩) ?_
        · rcases begin_creates P hc with ⟨e, hb⟩ | ⟨size, hb, -⟩
          · have hdone : ((s.proc i).world s.disk).phase = .done (.error e) := (hg.untouched hnone i hc).trans hb
            unfold call at hcall
            rw [hdone] at hcall
            cases hcall
          · exact absurd ((hg.untouched hnone i hc).trans hb) (hx' size)
        · intro ho
          unfold Creates at hs
          rw [ho] at hs
          exact hs
        · by_contra hr
          obtain ⟨⟨e, he⟩, -⟩ := hcom.removing (Bool.not_eq_false _ ▸ hr)
          exact halive e he
    | false =>
      have hno : createsNew (cs i) ≠ true := by
        rw [hc]
        exact Bool.false_ne_true
      have hx : ∀ size, (s.proc i).phase ≠ .exclusive size := by
        intro size hp
        have hs := hi.stands i
        unfold Stands at hs
        rw [if_neg hno] at hs
        unfold Opens at hs
        rw [hp] at hs
        exact hs
      refine hg.other (commit_named hx).1 (fun _ hc' => absurd hc' hno) (fun _ _ hc' => absurd hc' hno) ?_
      by_contra hr
      exact hno (hcom.removing (Bool.not_eq_false _ ▸ hr)).2
  | remove i granted =>
    simp only [step, hg.quiet i] at h
    cases h
  | write i start data =>
    simp only [step] at h
    split at h
    swap
    · cases h
    split at h
    swap
    · cases h
    cases h
    exact ⟨fun hn => hg.untouched hn, fun f hf => hg.held f hf, hg.quiet⟩

/-- **Where the OS refuses nothing, one succeeds.**  No file was there, the sizes can be mapped, and some process asks for one:
once every `create_new` has returned, exactly one was given its mapping. -/
theorem create_new_succeeds (P : Platform) (cs : ι → Ctor) (hparties : ∀ i, Party (cs i))
    (hsizes : ∀ i n, createsNew (cs i) = true → (cs i).size = some n → n ≤ P.width.maxLen) (i : ι) (hc : createsNew (cs i) = true)
    (size : Nat) (hvalid : (cs i).begin P = .exclusive size) (acts : List (Act ι)) (hos : ∀ j os, Act.call j os ∈ acts → os = Os.ok)
    (s : State ι) (hr : Machine.run (step P cs) (start P cs none) acts = some s)
    (hdone : ∀ j, createsNew (cs j) = true → ∃ r, (s.proc j).phase = .done r) :
    ∃ j m, (createsNew (cs j) = true ∧ s.given j m) ∧ ∀ k m', createsNew (cs k) = true → s.given k m' → k = j := by
  have hboth : Inv P cs none s ∧ Going P cs s := by
    refine Machine.run_induction (fun as s => (∀ j os, Act.call j os ∈ as → os = Os.ok) → Inv P cs none s ∧ Going P cs s)
      (fun _ => ⟨start_inv hparties, start_going⟩) ?_ acts s hr hos
    intro as a s s' _ ih hstep hall
    obtain ⟨hi, hg⟩ := ih (fun j os hmem => hall j os (List.mem_append_left _ hmem))
    refine ⟨step_inv hparties hi hstep, step_going hparties hsizes hi hg (fun j os ha => hall j os ?_) hstep⟩
    rw [ha]
    exact List.mem_append_right _ (List.mem_singleton.2 rfl)
  obtain ⟨hi, hg⟩ := hboth
  cases hn : s.disk.named with
  | none =>
    obtain ⟨r, hr⟩ := hdone i hc
    rw [hg.untouched hn i hc, hvalid] at hr
    cases hr
  | some f =>
    obtain ⟨j, hcj, -, halive⟩ := hg.held f hn
    obtain ⟨r, hr⟩ := hdone j hcj
    cases r with
    | error e => exact absurd hr (halive e)
    | ok m =>
      refine ⟨j, m, ⟨hcj, hr⟩, fun k m' hck hm' => ?_⟩
      exact hi.exclusive hck hcj (hi.winner hck hm').1 (hi.winner hcj hr).1

end Runs

/-- Both create the path, one step after the other; the reader opens it. -/
def sideBySide : List (Act Rival) :=
  [.call .second Os.ok, .call .first Os.ok, .call .second Os.ok, .call .reader Os.ok, .call .second Os.ok, .call .reader Os.ok,
   .call .second Os.ok]

theorem create_new_succeeds_sideBySide : ∃ s, Machine.run (step linux64 rivals) (start linux64 rivals none) sideBySide = some s ∧
    (s.proc .first).phase = .done (.error (.io (.os errExists))) ∧ ∃ j m, s.given j m ∧ ∀ k m', createsNew (rivals k) = true →
      s.given k m' → k = j := by
  have hd : (Machine.run (step linux64 rivals) (start linux64 rivals none) sideBySide).map (fun s =>
      ((s.proc .first).phase, (s.proc .second).phase)) = some (.done (.error (.io (.os errExists))),
        .done (.ok ((rivals .second).inner [0, 0, 0, 0] 4 4))) := by decide +kernel
  obtain ⟨s, hs, h⟩ := Option.map_eq_some_iff.1 hd
  obtain ⟨hfirst, hsecond⟩ := Prod.mk.inj h
  have hdone : ∀ j, createsNew (rivals j) = true → ∃ r, (s.proc j).phase = .done r := by
    intro j hj
    cases j with
    | first => exact ⟨_, hfirst⟩
    | second => exact ⟨_, hsecond⟩
    | reader => cases hj
  have hsizes : ∀ i n, createsNew (rivals i) = true → (rivals i).size = some n → n ≤ linux64.width.maxLen := by
    intro i n _ hn
    cases i with
    | first | second =>
      cases hn
      decide
    | reader => cases hn
  have hos : ∀ j os, Act.call j os ∈ sideBySide → os = Os.ok := by
    intro j os hmem
    simp only [sideBySide, List.mem_cons, Act.call.injEq, List.not_mem_nil, or_false] at hmem
    rcases hmem with h | h | h | h | h | h | h <;> exact h.2
  obtain ⟨j, m, ⟨-, hm⟩, hall⟩ := create_new_succeeds linux64 rivals rivals_party hsizes .second rfl 4 rfl sideBySide hos s hs
    hdone
  exact ⟨s, hs, hfirst, j, m, hm, hall⟩

end CreateRace
end MmapIo
