import MmapIo.RawViews
import MmapIo.ResizeRuns
/-!
# RawInner — a shared mapping over the raw layer

`Inner` says of a `ReadWrite` mapping that it shows the first bytes of its file.  Here it is what the source makes it: a
`RawMmapMut` behind a lock, replaced by a new one at every resize (`Held`).  `grow_locked` and both versions of `shrink_locked`
are written out as the raw calls they make, the value that is dropped when it goes out of scope included.  Every run of stores
and resizes over the OS is a run of `Inner` with the same results, in which the one value behind the lock shows exactly what
`Inner` says, and nothing that was mapped on the way is left (`resizes_over_os`).
-/
namespace MmapIo
namespace Raw

open Word Bytes

variable {V : Type} [DecidableEq V]

def State.dropVal (P : Platform) (s : State V) (v : V) : State V :=
  match s.vals v with
  | some x => ⟨x.map.drop P s.world, Function.update s.vals v none⟩
  | none => s

/-- What a `ReadWrite` mapping without huge pages holds of the OS.  The value behind the lock goes by the name `cur`, the next one by `spare`. -/
structure Held (V : Type) where
  state : State V
  cur : V
  spare : V
  file : Nat
  cachedLen : Nat

/-- What the OS answers to the calls of one `resize`. -/
structure ResizeAnswers where
  setLen : Option String
  map : Answers
  restore : Option String

namespace Held

/-- `guard.len()` -/
def len (h : Held V) : Nat := ((h.state.vals h.cur).map (fun x => x.map.len)).getD 0

/-- A `set_len` that succeeds. -/
def setLen (n : Nat) (h : Held V) : Held V :=
  { h with state := { h.state with world := { h.state.world with
    files := Function.update h.state.world.files h.file (Bytes.setLen (h.state.world.files h.file) n 0) } } }

/-- `map_file_rw` without huge pages, into the spare name.  With them it would add the hint of `advise_huge_pages`, whose
outcome is only logged. -/
def mapFileRw (P : Platform) (os : Answers) (len : Nat) (h : Held V) : Except IoError Unit × Held V :=
  let res := Options.mapImpl P os ⟨0, some len, ⟨false, false⟩⟩ h.file .write h.state.world
  (res.1.map (fun _ => ()), { h with state := h.state.put h.spare true res })

/-- `RawMmapMut::map_anon(0)`, into the spare name. -/
def mapNothing (P : Platform) (os : Answers) (h : Held V) : Except IoError Unit × Held V :=
  let res := Options.mapAnon P os ⟨0, some 0, ⟨false, false⟩⟩ h.state.world
  (res.1.map (fun _ => ()), { h with state := h.state.put h.spare true res })

/-- `*map = new_map`: the old value is dropped. -/
def replace (P : Platform) (h : Held V) : Held V :=
  { h with state := h.state.dropVal P h.cur, cur := h.spare, spare := h.cur }

/-- `new_map` goes out of scope. -/
def discard (P : Platform) (h : Held V) : Held V := { h with state := h.state.dropVal P h.spare }

def growLocked (P : Platform) (os : ResizeAnswers) (currentSize newSize newLen : Nat) (h : Held V) :
    Except MmapIoError Unit × Held V :=
  match os.setLen with
  | some text => (.error (.io (.os text)), h)
  | none =>
    match (h.setLen newSize).mapFileRw P os.map newLen with
    | (.ok (), h) => (.ok (), h.replace P)
    | (.error e, h) =>
      match os.restore with
      | none => (.error (.io e), h.setLen currentSize)
      | some _ => (.error (.io e), h)

def shrinkLockedUnix (P : Platform) (os : ResizeAnswers) (newSize newLen : Nat) (h : Held V) :
    Except MmapIoError Unit × Held V :=
  match h.mapFileRw P os.map newLen with
  | (.error e, h) => (.error (.io e), h)
  | (.ok (), h) =>
    match os.setLen with
    | some text => (.error (.io (.os text)), h.discard P)
    | none => (.ok (), (h.setLen newSize).replace P)

/-- `*map = map_file_rw(..)?`, and then `r`. -/
def remap (P : Platform) (os : Answers) (len : Nat) (r : Except MmapIoError Unit) (h : Held V) : Except MmapIoError Unit × Held V :=
  match h.mapFileRw P os len with
  | (.error e, h) => (.error (.io e), h)
  | (.ok (), h) => (r, h.replace P)

/-- The view goes before the file is cut: `drop(std::mem::replace(map, RawMmapMut::map_anon(0)?))`. -/
def shrinkLockedWindows (P : Platform) (os : ResizeAnswers) (currentLen newSize newLen : Nat) (h : Held V) :
    Except MmapIoError Unit × Held V :=
  match h.mapNothing P os.map with
  | (.error e, h) => (.error (.io e), h)
  | (.ok (), h) =>
    let h := h.replace P
    match os.setLen with
    | some text => h.remap P os.map currentLen (.error (.io (.os text)))
    | none => (h.setLen newSize).remap P os.map newLen (.ok ())

def resizeLocked (P : Platform) (os : ResizeAnswers) (currentLen newSize newLen : Nat) (h : Held V) :
    Except MmapIoError Unit × Held V :=
  if newLen = currentLen then (.ok (), h)
  else if currentLen < newLen then h.growLocked P os currentLen newSize newLen
  else if P.windows then h.shrinkLockedWindows P os currentLen newSize newLen
  else h.shrinkLockedUnix P os newSize newLen

def resize (P : Platform) (os : ResizeAnswers) (newSize : Nat) (h : Held V) : Except MmapIoError Unit × Held V :=
  if newSize = 0 then (.error (.resizeFailed "New size must be greater than zero"), h)
  else if newSize > P.width.maxMmapSize then
    (.error (.resizeFailed s!"New size {newSize} exceeds maximum safe limit of {P.width.maxMmapSize} bytes"), h)
  else
    match tryFrom P.width.bits newSize with
    | none => (.error (.resizeFailed s!"New size {newSize} does not fit in usize"), h)
    | some newLen =>
      let (r, h) := h.resizeLocked P os h.len newSize newLen
      (r, { h with cachedLen := h.len })

/-- `guard[start..start + data.len()].copy_from_slice(data)`, byte by byte. -/
def write (P : Platform) (start : Nat) : List UInt8 → Held V → Option (Held V)
  | [], h => some h
  | b :: data, h => (step P h.state (.store h.cur start b)).bind (fun s => write P (start + 1) data { h with state := s })

end Held

/-! ## What the value behind the lock shows -/

/-- The value behind the lock is the only one there is, and shows the first `len` bytes of the file. -/
structure Installed (P : Platform) (h : Held V) (len : Nat) : Prop where
  inv : Inv P h.state
  ne : h.cur ≠ h.spare
  cur : h.state.views.vals h.cur = some (View.new len true (.shared h.file 0))
  spare : h.state.vals h.spare = none

/-- A new value waits under the spare name. -/
structure Waiting (P : Platform) (h : Held V) (len newLen : Nat) : Prop where
  inv : Inv P h.state
  ne : h.cur ≠ h.spare
  cur : h.state.views.vals h.cur = some (View.new len true (.shared h.file 0))
  spare : h.state.views.vals h.spare = some (View.new newLen true (.shared h.file 0))

/-- What a call of the handle leaves alone: the other values, the other files.  It reaches its state by raw calls. -/
structure Moved (P : Platform) (h h' : Held V) : Prop where
  file : h'.file = h.file
  raw : Machine.Reaches (step P) h.state h'.state
  names : ∀ v, v = h'.cur ∨ v = h'.spare ↔ v = h.cur ∨ v = h.spare
  vals : ∀ v, v ≠ h.cur → v ≠ h.spare → h'.state.vals v = h.state.vals v
  files : ∀ g, g ≠ h.file → h'.state.world.files g = h.state.world.files g

namespace Moved

variable {P : Platform} {h h' h'' : Held V}

theorem refl (h : Held V) : Moved P h h :=
  ⟨rfl, ⟨[], rfl⟩, fun _ => Iff.rfl, fun _ _ _ => rfl, fun _ _ => rfl⟩

theorem trans (m : Moved P h h') (m' : Moved P h' h'') : Moved P h h'' := by
  refine ⟨m'.file.trans m.file, m.raw.trans m'.raw, fun v => (m'.names v).trans (m.names v), fun v hc hs => ?_, fun g hg => ?_⟩
  · have hv : ¬ (v = h'.cur ∨ v = h'.spare) := fun hv => ((m.names v).1 hv).elim hc hs
    exact (m'.vals v (fun hc' => hv (Or.inl hc')) (fun hs' => hv (Or.inr hs'))).trans (m.vals v hc hs)
  · exact (m'.files g (by rw [m.file]; exact hg)).trans (m.files g hg)

end Moved

section Primitives

variable {P : Platform} {os : Answers} {h : Held V} {len n : Nat}

namespace Installed

omit [DecidableEq V] in
/-- A file that is resized shows through. -/
theorem setLen (hi : Installed P h len) (n : Nat) : Installed P (h.setLen n) len :=
  ⟨hi.inv.alike ⟨fun _ => rfl, rfl, rfl, Iff.rfl⟩, hi.ne, hi.cur, hi.spare⟩

end Installed

theorem setLen_moved (n : Nat) : Moved P h (h.setLen n) :=
  ⟨rfl, ⟨[.setLen h.file n], rfl⟩, fun _ => Iff.rfl, fun _ _ _ => rfl, fun _ hg => Function.update_of_ne hg ..⟩

omit [DecidableEq V] in
theorem setLen_bytes (n : Nat) : (h.setLen n).state.world.files h.file = Bytes.setLen (h.state.world.files h.file) n 0 :=
  Function.update_self ..

/-- A raw constructor into the spare name. -/
theorem put_moved {isMut : Bool} {res : Except IoError Mapping × World}
    (hraw : Machine.Reaches (step P) h.state (h.state.put h.spare isMut res))
    (hfiles : (h.state.put h.spare isMut res).world.files = h.state.world.files) :
    Moved P h { h with state := h.state.put h.spare isMut res } := by
  refine ⟨rfl, hraw, fun _ => Iff.rfl, fun v _ hs => ?_, fun g _ => congrFun hfiles g⟩
  obtain ⟨res, w⟩ := res
  cases res with
  | ok m => exact Function.update_of_ne hs ..
  | error e => exact Function.update_of_ne hs ..

/-- A constructor that fails leaves the handle as it was; one that succeeds leaves a value waiting. -/
theorem Installed.put (hi : Installed P h len) (res : Except IoError Mapping × World)
    {want : Mapping → Option Region → Prop} (hc : Created P h.state.world true want res.1 res.2)
    (hview : ∀ m r, want m r → (m.len ≠ 0 → res.2.regions m.base = r) →
      Value.view res.2 ⟨m, true⟩ = View.new n true (.shared h.file 0)) :
    (h.state.put h.spare true res).world.files = h.state.world.files ∧
      ((∃ e, res.1 = .error e) ∧ Installed P { h with state := h.state.put h.spare true res } len ∨
        (∃ m, res.1 = .ok m) ∧ Waiting P { h with state := h.state.put h.spare true res } len n) := by
  obtain ⟨res, w⟩ := res
  have hinv := hi.inv.created hi.spare hc
  rcases hc.views hi.inv hi.spare with ⟨⟨e, rfl⟩, heq⟩ | ⟨m, r, rfl, hwant, hr, heq⟩
  · refine ⟨congrArg Views.files heq, Or.inl ⟨⟨e, rfl⟩, hinv, hi.ne, ?_, Function.update_self ..⟩⟩
    simp only [heq]
    exact hi.cur
  · refine ⟨congrArg Views.files heq, Or.inr ⟨⟨m, rfl⟩, hinv, hi.ne, ?_, ?_⟩⟩
    · simp only [heq, Views.put]
      rw [Function.update_of_ne hi.ne]
      exact hi.cur
    · simp only [heq, Views.put]
      rw [Function.update_self]
      exact congrArg some (hview m r hwant hr)

/-- **`map_file_rw`** shows the first bytes of the file in a new value, or does nothing. -/
theorem Installed.mapFileRw (hi : Installed P h len) (os : Answers) (n : Nat)
    (hlied : ¬ (h.mapFileRw P os n).2.state.world.lied) :
    Moved P h (h.mapFileRw P os n).2 ∧ (h.mapFileRw P os n).2.state.world.files = h.state.world.files ∧
      ((∃ e, (h.mapFileRw P os n).1 = .error e) ∧ Installed P (h.mapFileRw P os n).2 len ∨
        (h.mapFileRw P os n).1 = .ok () ∧ Waiting P (h.mapFileRw P os n).2 len n) := by
  unfold Held.mapFileRw at hlied ⊢
  simp only [put_world] at hlied
  have hc := mapImpl_created ⟨0, some n, ⟨false, false⟩⟩ hi.inv.positive hlied
  obtain ⟨hfiles, hres⟩ := hi.put _ hc (n := n) (fun m r hwant hr => by
    obtain ⟨n', hwin, hview⟩ := view_window true hwant hr
    simp only [Views.window, Option.getD_some] at hwin
    split at hwin
    · cases hwin
      exact hview
    · cases hwin)
  refine ⟨put_moved ⟨[.map h.spare .write ⟨0, some n, ⟨false, false⟩⟩ h.file os], ?_⟩ hfiles, hfiles, ?_⟩
  · rw [Machine.run_cons]
    simp only [step, hi.spare, if_true]
    rfl
  · rcases hres with ⟨⟨e, he⟩, hinst⟩ | ⟨⟨m, hm⟩, hwait⟩
    · exact Or.inl ⟨⟨e, congrArg (Except.map (fun _ => ())) he⟩, hinst⟩
    · exact Or.inr ⟨congrArg (Except.map (fun _ => ())) hm, hwait⟩

/-- **The empty placeholder** is made without the OS. -/
theorem Installed.mapNothing (hi : Installed P h len) (os : Answers) :
    Moved P h (h.mapNothing P os).2 ∧ (h.mapNothing P os).2.state.world = h.state.world ∧
      (h.mapNothing P os).1 = .ok () ∧ Waiting P (h.mapNothing P os).2 len 0 := by
  have hl : layout P.width 0 0 P.granularity P.width.maxLen = .ok ⟨0, 0, 0, 0⟩ := by
    refine (layout_eq P.gran_pow P.gran_lt P.width.maxLen_lt _).2 ?_
    simp
  have hres : Options.mapAnon P os ⟨0, some 0, ⟨false, false⟩⟩ h.state.world =
      (.ok (Mapping.empty P.granularity .anon), h.state.world) := by
    simp only [Options.mapAnon, Option.getD_some, hl, if_true]
  have hc : Created P h.state.world true (ShowsZeros P ⟨0, some 0, ⟨false, false⟩⟩)
      (.ok (Mapping.empty P.granularity .anon)) h.state.world := by
    refine .empty rfl rfl ⟨Nat.zero_le _, rfl, fun hc => absurd rfl hc⟩
  unfold Held.mapNothing
  simp only [hres]
  obtain ⟨hfiles, hres'⟩ := hi.put (.ok (Mapping.empty P.granularity .anon), h.state.world) (n := 0) hc
    (fun m r hwant hr => view_zeros hwant hr)
  refine ⟨put_moved ⟨[.mapAnon h.spare ⟨0, some 0, ⟨false, false⟩⟩ os], ?_⟩ hfiles, rfl, rfl, ?_⟩
  · rw [Machine.run_cons]
    simp only [step, hi.spare, if_true, hres]
    rfl
  · rcases hres' with ⟨⟨e, he⟩, -⟩ | ⟨-, hwait⟩
    · cases he
    · exact hwait

/-- One of two values goes, and leaves the other as it was. -/
theorem Inv.dropVal {s : State V} {v u : V} {x : View} (h : Inv P s) (hv : s.views.vals v = some x) (hne : u ≠ v) :
    Inv P (s.dropVal P v) ∧ (s.dropVal P v).views.vals u = s.views.vals u ∧ (s.dropVal P v).vals v = none ∧
      (s.dropVal P v).world.files = s.world.files ∧ Machine.Reaches (step P) s (s.dropVal P v) ∧
      ∀ w, w ≠ v → (s.dropVal P v).vals w = s.vals w := by
  obtain ⟨y, hy, -⟩ := Option.map_eq_some_iff.1 hv
  have hdrop : s.dropVal P v = ⟨y.map.drop P s.world, Function.update s.vals v none⟩ := by
    unfold State.dropVal
    rw [hy]
  have hviews := views_dropped h hy (SameOwn.refl _) rfl rfl
  rw [hdrop]
  refine ⟨h.dropped hy (SameOwn.refl _), ?_, Function.update_self .., congrArg Views.files hviews, ⟨[.drop v], ?_⟩,
    fun w hw => Function.update_of_ne hw ..⟩
  · rw [hviews]
    exact Function.update_of_ne hne ..
  · rw [Machine.run_cons]
    simp only [step, hy, Option.map_some]
    rfl

/-- **The new value is put behind the lock**, the old one is dropped. -/
theorem Waiting.replace (hw : Waiting P h len n) :
    Moved P h (h.replace P) ∧ (h.replace P).state.world.files = h.state.world.files ∧ Installed P (h.replace P) n := by
  obtain ⟨hinv, hother, hgone, hfiles, hraw, hvals⟩ := hw.inv.dropVal hw.cur hw.ne.symm
  refine ⟨⟨rfl, hraw, fun v => Or.comm, fun v hc _ => hvals v hc, fun g _ => congrFun hfiles g⟩, hfiles, hinv, hw.ne.symm, ?_,
    hgone⟩
  exact hother.trans hw.spare

/-- The new value is not used. -/
theorem Waiting.discard (hw : Waiting P h len n) :
    Moved P h (h.discard P) ∧ (h.discard P).state.world.files = h.state.world.files ∧ Installed P (h.discard P) len := by
  obtain ⟨hinv, hother, hgone, hfiles, hraw, hvals⟩ := hw.inv.dropVal hw.spare hw.ne
  refine ⟨⟨rfl, hraw, fun v => Iff.rfl, fun v _ hs => hvals v hs, fun g _ => congrFun hfiles g⟩, hfiles, hinv, hw.ne, ?_, hgone⟩
  exact hother.trans hw.cur

omit [DecidableEq V] in
theorem Waiting.setLen (hw : Waiting P h len n) (m : Nat) : Waiting P (h.setLen m) len n :=
  ⟨hw.inv.alike ⟨fun _ => rfl, rfl, rfl, Iff.rfl⟩, hw.ne, hw.cur, hw.spare⟩

omit [DecidableEq V] in
theorem Installed.len_eq (hi : Installed P h len) : h.len = len := by
  obtain ⟨x, hx, hview⟩ := Option.map_eq_some_iff.1 hi.cur
  unfold Held.len
  rw [hx]
  exact congrArg View.len hview

/-! ## Results -/

theorem finish_error {base k : Nat} {w w' : World} {e : IoError} (h : finish P base k w = (.error e, w')) :
    ∃ text, e = .os text := by
  unfold finish at h
  split at h <;> cases h
  exact ⟨_, rfl⟩

theorem mapView_error {r : Region} {w w' : World} {e : IoError} (h : mapView P os r w = (.error e, w')) :
    ∃ text, e = .os text := by
  unfold mapView at h
  split at h
  · cases h
    exact ⟨_, rfl⟩
  · split at h
    · cases h
      exact ⟨_, rfl⟩
    · simp only at h
      split at h <;> cases h
      exact ⟨_, rfl⟩

/-- The errors of `map_file` are the OS's. -/
theorem mapFile_error {f : Nat} {access : Access} {l : Layout} {w w' : World} {e : IoError}
    (h : mapFile P os f access l w = (.error e, w')) : ∃ text, e = .os text := by
  unfold mapFile mapFileWindows mapFileUnix at h
  split at h
  · split at h
    · split at h
      · cases h
        exact ⟨_, rfl⟩
      · split at h <;> cases h
        rename_i hv
        exact mapView_error hv
    · split at h <;> cases h
      rename_i hv
      exact mapView_error hv
    · split at h <;> cases h
      rename_i hv
      exact mapView_error hv
  · split at h
    · cases h
      exact ⟨_, rfl⟩
    · split at h
      · cases h
        exact ⟨_, rfl⟩
      · split at h <;> cases h
        rename_i hf
        exact finish_error hf

/-- **`map_file_rw` returns what `Inner` says it returns**, to an OS that refuses the same. -/
theorem mapFileRw_result (os : Answers) (n : Nat) (h : Held V) (setLen restore : Option String) :
    ∃ os' : Os, os'.setLen = setLen ∧ os'.restore = restore ∧ os'.placeholder = none ∧
      MmapIo.mapFileRw P os' (h.state.world.files h.file).length n = (h.mapFileRw P os n).1.map (fun _ => n) := by
  simp only [MmapIo.mapFileRw, Held.mapFileRw, Options.mapImpl]
  cases os.metadata with
  | some text => exact ⟨⟨none, none, none, setLen, some text, none, restore, none⟩, rfl, rfl, rfl, rfl⟩
  | none =>
    cases hl : mapImplLayout P.width (h.state.world.files h.file).length 0 (some n) P.granularity with
    | error e => exact ⟨⟨none, none, none, setLen, none, none, restore, none⟩, rfl, rfl, rfl, rfl⟩
    | ok l =>
      have hlen : l.len = n := by
        obtain ⟨-, rfl⟩ := (mapImplLayout_eq P.gran_pow P.gran_lt l).1 hl
        rfl
      by_cases h0 : l.len = 0
      · refine ⟨⟨none, none, none, setLen, none, none, restore, none⟩, rfl, rfl, rfl, ?_⟩
        simp only [if_pos h0]
        rw [← hlen, h0]
        rfl
      · cases hm : mapFile P os h.file .write l h.state.world with
        | mk res w =>
          cases res with
          | error e =>
            obtain ⟨text, rfl⟩ := mapFile_error hm
            refine ⟨⟨none, none, none, setLen, none, some text, restore, none⟩, rfl, rfl, rfl, ?_⟩
            simp only [if_neg h0, hm]
            rfl
          | ok b =>
            refine ⟨⟨none, none, none, setLen, none, none, restore, none⟩, rfl, rfl, rfl, ?_⟩
            simp only [if_neg h0, hm]
            rw [hlen]
            rfl

theorem dropVal_lied {s : State V} {v : V} (hl : s.world.lied) : (s.dropVal P v).world.lied := by
  unfold State.dropVal
  split
  · exact drop_lied hl
  · exact hl

end Primitives

/-! ## Resizing -/

/-- `Inner` shows what the handle holds. -/
structure Mirrors (P : Platform) (h : Held V) (s : Inner) (len : Nat) : Prop where
  inst : Installed P h len
  map : s.map = .rw len
  file : s.file = h.state.world.files h.file

/-- The handle's call did what `Inner`'s does. -/
def Follows (P : Platform) (h : Held V) (res : Except MmapIoError Unit × Held V) (res' : Except MmapIoError Unit × Inner) : Prop :=
  res'.1 = res.1 ∧ Moved P h res.2 ∧ ∃ len, Mirrors P res.2 res'.2 len

section Resize

variable {P : Platform} {os : ResizeAnswers} {h : Held V} {s : Inner} {len : Nat}

/-- **Growing**: extend, map, replace; or extend, fail to map, and cut again. -/
theorem growLocked_follows (hm : Mirrors P h s len) (newSize newLen : Nat)
    (hlied : ¬ (h.growLocked P os len newSize newLen).2.state.world.lied) :
    ∃ os' : Os, Follows P h (h.growLocked P os len newSize newLen) (MmapIo.growLocked P os' len newSize newLen s) := by
  unfold Held.growLocked at hlied ⊢
  cases hset : os.setLen with
  | some text =>
    refine ⟨{ Os.ok with setLen := some text }, rfl, Moved.refl h, len, hm⟩
  | none =>
    simp only [hset] at hlied
    obtain ⟨os', hset', hback', -, hres⟩ := mapFileRw_result (P := P) os.map newLen (h.setLen newSize) none os.restore
    have hspec := (hm.inst.setLen newSize).mapFileRw os.map newLen
    have hbytes : (h.setLen newSize).state.world.files (h.setLen newSize).file = Bytes.setLen s.file newSize 0 := by
      rw [hm.file]
      exact setLen_bytes newSize
    have hmoved := setLen_moved (P := P) (h := h) newSize
    rw [hbytes] at hres
    refine ⟨os', ?_⟩
    unfold Follows MmapIo.growLocked
    simp only [hset', hback', hres]
    generalize (h.setLen newSize).mapFileRw P os.map newLen = res at hlied hspec ⊢
    obtain ⟨r, h₂⟩ := res
    have hlied₂ : ¬ h₂.state.world.lied := by
      intro hl
      refine hlied ?_
      cases r with
      | ok u => exact dropVal_lied hl
      | error e =>
        simp only
        split <;> exact hl
    obtain ⟨hmoved₂, hfiles₂, hcases⟩ := hspec hlied₂
    have hfile₂ : h₂.state.world.files h₂.file = Bytes.setLen s.file newSize 0 := by
      rw [hfiles₂, hmoved₂.file]
      exact hbytes
    rcases hcases with ⟨⟨e, rfl⟩, hinst⟩ | ⟨rfl, hwait⟩
    · simp only [Except.map]
      cases os.restore with
      | none =>
        refine ⟨rfl, (hmoved.trans hmoved₂).trans (setLen_moved len), len, hinst.setLen len, hm.map, ?_⟩
        simp only
        rw [← hfile₂]
        exact (setLen_bytes len).symm
      | some text => exact ⟨rfl, hmoved.trans hmoved₂, len, hinst, hm.map, hfile₂.symm⟩
    · obtain ⟨hmoved₃, hfiles₃, hinst⟩ := hwait.replace
      refine ⟨rfl, (hmoved.trans hmoved₂).trans hmoved₃, newLen, hinst, rfl, ?_⟩
      simp only
      rw [hfiles₃, hmoved₃.file]
      exact hfile₂.symm

/-- **Shrinking where the file may be cut under a view**: map the prefix, cut, replace. -/
theorem shrinkLockedUnix_follows (hm : Mirrors P h s len) (newSize newLen : Nat)
    (hlied : ¬ (h.shrinkLockedUnix P os newSize newLen).2.state.world.lied) :
    ∃ os' : Os, Follows P h (h.shrinkLockedUnix P os newSize newLen) (MmapIo.shrinkLockedUnix P os' newSize newLen s) := by
  obtain ⟨os', hset', -, -, hres⟩ := mapFileRw_result (P := P) os.map newLen h os.setLen none
  have hspec := hm.inst.mapFileRw os.map newLen
  rw [← hm.file] at hres
  refine ⟨os', ?_⟩
  unfold Held.shrinkLockedUnix at hlied ⊢
  unfold Follows MmapIo.shrinkLockedUnix
  simp only [hset', hres]
  generalize h.mapFileRw P os.map newLen = res at hlied hspec ⊢
  obtain ⟨r, h₂⟩ := res
  have hlied₂ : ¬ h₂.state.world.lied := by
    intro hl
    refine hlied ?_
    cases r with
    | error e => exact hl
    | ok u =>
      simp only
      split <;> exact dropVal_lied hl
  obtain ⟨hmoved₂, hfiles₂, hcases⟩ := hspec hlied₂
  have hfile₂ : h₂.state.world.files h₂.file = s.file := by rw [hfiles₂, hmoved₂.file, hm.file]
  rcases hcases with ⟨⟨e, rfl⟩, hinst⟩ | ⟨rfl, hwait⟩
  · exact ⟨rfl, hmoved₂, len, hinst, hm.map, hfile₂.symm⟩
  · simp only [Except.map]
    cases os.setLen with
    | some text =>
      obtain ⟨hmoved₃, hfiles₃, hinst⟩ := hwait.discard
      refine ⟨rfl, hmoved₂.trans hmoved₃, len, hinst, hm.map, ?_⟩
      simp only
      rw [hfiles₃, hmoved₃.file]
      exact hfile₂.symm
    | none =>
      obtain ⟨hmoved₃, hfiles₃, hinst⟩ := (hwait.setLen newSize).replace
      refine ⟨rfl, (hmoved₂.trans (setLen_moved newSize)).trans hmoved₃, newLen, hinst, rfl, ?_⟩
      simp only
      rw [hfiles₃, hmoved₃.file, ← hfile₂]
      exact (setLen_bytes newSize).symm

/-- **Mapping again**: an error, and the mapping is as it was; or the new one. -/
theorem remap_cases {os : Answers} (hm : Mirrors P h s len) (n : Nat) (r : Except MmapIoError Unit)
    (hlied : ¬ (h.remap P os n r).2.state.world.lied) :
    Moved P h (h.remap P os n r).2 ∧
      ((∃ e, (h.mapFileRw P os n).1 = .error e ∧ (h.remap P os n r).1 = .error (.io e) ∧ Mirrors P (h.remap P os n r).2 s len) ∨
        (h.mapFileRw P os n).1 = .ok () ∧ (h.remap P os n r).1 = r ∧
          Mirrors P (h.remap P os n r).2 { s with map := .rw n } n) := by
  have hspec := hm.inst.mapFileRw os n
  unfold Held.remap at hlied ⊢
  generalize h.mapFileRw P os n = res at hlied hspec ⊢
  obtain ⟨res, h₂⟩ := res
  have hlied₂ : ¬ h₂.state.world.lied := by
    intro hl
    refine hlied ?_
    cases res with
    | error e => exact hl
    | ok u => exact dropVal_lied hl
  obtain ⟨hmoved₂, hfiles₂, hcases⟩ := hspec hlied₂
  have hfile₂ : h₂.state.world.files h₂.file = s.file := by rw [hfiles₂, hmoved₂.file, hm.file]
  rcases hcases with ⟨⟨e, rfl⟩, hinst⟩ | ⟨rfl, hwait⟩
  · exact ⟨hmoved₂, Or.inl ⟨e, rfl, rfl, hinst, hm.map, hfile₂.symm⟩⟩
  · obtain ⟨hmoved₃, hfiles₃, hinst⟩ := hwait.replace
    refine ⟨hmoved₂.trans hmoved₃, Or.inr ⟨rfl, rfl, hinst, rfl, ?_⟩⟩
    simp only
    rw [hfiles₃, hmoved₃.file]
    exact hfile₂.symm

/-- **Shrinking where a view pins the length**: an empty placeholder, cut, map again. -/
theorem shrinkLockedWindows_follows (hm : Mirrors P h s len) (newSize newLen : Nat)
    (hlied : ¬ (h.shrinkLockedWindows P os len newSize newLen).2.state.world.lied) :
    ∃ os' : Os, Follows P h (h.shrinkLockedWindows P os len newSize newLen)
      (MmapIo.shrinkLockedWindows P os' len newSize newLen s) := by
  obtain ⟨hmoved, hworld, hok, hwait⟩ := hm.inst.mapNothing os.map
  unfold Held.shrinkLockedWindows at hlied ⊢
  generalize h.mapNothing P os.map = res at hlied hmoved hworld hok hwait ⊢
  obtain ⟨r, h₁⟩ := res
  simp only at hok hwait hmoved hworld
  subst hok
  obtain ⟨hmoved', hfiles', hinst'⟩ := hwait.replace
  simp only at hlied ⊢
  have hm₂ : Mirrors P (h₁.replace P) { s with map := .rw 0 } 0 := by
    refine ⟨hinst', rfl, ?_⟩
    simp only
    rw [hfiles', hworld, hmoved'.file, hmoved.file]
    exact hm.file
  generalize h₁.replace P = h₂ at hlied hmoved' hm₂ ⊢
  have hgone := hmoved.trans hmoved'
  cases hset : os.setLen with
  | some text =>
    simp only [hset] at hlied ⊢
    obtain ⟨os', hset', -, hplace', hres⟩ := mapFileRw_result (P := P) os.map len h₂ (some text) none
    rw [← hm₂.file] at hres
    obtain ⟨hmoved₃, hcases⟩ := remap_cases hm₂ len (.error (.io (.os text))) hlied
    refine ⟨os', ?_⟩
    unfold Follows MmapIo.shrinkLockedWindows
    simp only [hplace', hset', hres]
    rcases hcases with ⟨e, he, hr, hm₃⟩ | ⟨he, hr, hm₃⟩ <;> simp only [he, hr, Except.map, true_and]
    · exact ⟨hgone.trans hmoved₃, 0, hm₃⟩
    · exact ⟨hgone.trans hmoved₃, len, hm₃⟩
  | none =>
    simp only [hset] at hlied ⊢
    obtain ⟨os', hset', -, hplace', hres⟩ := mapFileRw_result (P := P) os.map newLen (h₂.setLen newSize) none none
    have hm₃ : Mirrors P (h₂.setLen newSize) { s with file := Bytes.setLen s.file newSize 0, map := .rw 0 } 0 := by
      refine ⟨hm₂.inst.setLen newSize, rfl, ?_⟩
      have hfile := hm₂.file
      simp only at hfile ⊢
      rw [hfile]
      exact (setLen_bytes newSize).symm
    rw [← hm₃.file] at hres
    obtain ⟨hmoved₃, hcases⟩ := remap_cases hm₃ newLen (.ok ()) hlied
    have hcut := hgone.trans (setLen_moved newSize)
    refine ⟨os', ?_⟩
    unfold Follows MmapIo.shrinkLockedWindows
    simp only [hplace', hset', hres]
    rcases hcases with ⟨e, he, hr, hm₄⟩ | ⟨he, hr, hm₄⟩ <;> simp only [he, hr, Except.map, true_and]
    · exact ⟨hcut.trans hmoved₃, 0, hm₄⟩
    · exact ⟨hcut.trans hmoved₃, newLen, hm₄⟩

theorem resizeLocked_follows (hm : Mirrors P h s len) (newSize newLen : Nat)
    (hlied : ¬ (h.resizeLocked P os len newSize newLen).2.state.world.lied) :
    ∃ os' : Os, Follows P h (h.resizeLocked P os len newSize newLen) (MmapIo.resizeLocked P os' len newSize newLen s) := by
  unfold Held.resizeLocked at hlied ⊢
  unfold MmapIo.resizeLocked
  by_cases heq : newLen = len
  · simp only [if_pos heq]
    exact ⟨Os.ok, rfl, Moved.refl h, len, hm⟩
  · simp only [if_neg heq] at hlied ⊢
    by_cases hgrow : len < newLen
    · simp only [if_pos hgrow] at hlied ⊢
      exact growLocked_follows hm newSize newLen hlied
    · simp only [if_neg hgrow] at hlied ⊢
      cases hw : P.windows with
      | true =>
        simp only [hw, if_true] at hlied ⊢
        exact shrinkLockedWindows_follows hm newSize newLen hlied
      | false =>
        simp only [hw, Bool.false_eq_true, if_false] at hlied ⊢
        exact shrinkLockedUnix_follows hm newSize newLen hlied

/-- `Inner` shows what the handle holds and records. -/
def Shows (P : Platform) (h : Held V) (s : Inner) : Prop :=
  ∃ len, Shape P s len ∧ Mirrors P h s len ∧ s.cachedLen = h.cachedLen

/-- **`resize` over the OS is `resize` of `Inner`.** -/
theorem resize_follows (hs : Shows P h s) (newSize : Nat) (hlied : ¬ (h.resize P os newSize).2.state.world.lied) :
    ∃ os' : Os, (MmapIo.resize P os' newSize s).1 = (h.resize P os newSize).1 ∧ Moved P h (h.resize P os newSize).2 ∧
      Shows P (h.resize P os newSize).2 (MmapIo.resize P os' newSize s).2 := by
  obtain ⟨len, hshape, hm, hcached⟩ := hs
  have hlen := hm.inst.len_eq
  have hkeep : ∀ os', ∃ len', Shape P (MmapIo.resize P os' newSize s).2 len' := fun os' =>
    hshape.resized (resize_cases hshape.mode hshape.map newSize)
  unfold Held.resize at hlied ⊢
  unfold MmapIo.resize at hkeep ⊢
  simp only [if_neg (not_not.2 hshape.mode), hlen, hshape.map] at hlied hkeep ⊢
  by_cases h0 : newSize = 0
  · simp only [if_pos h0]
    exact ⟨Os.ok, trivial, Moved.refl h, len, hshape, hm, hcached⟩
  simp only [if_neg h0] at hlied hkeep ⊢
  by_cases hmax : newSize > P.width.maxMmapSize
  · simp only [if_pos hmax]
    exact ⟨Os.ok, trivial, Moved.refl h, len, hshape, hm, hcached⟩
  simp only [if_neg hmax] at hlied hkeep ⊢
  cases hfit : tryFrom P.width.bits newSize with
  | none => exact ⟨Os.ok, rfl, Moved.refl h, len, hshape, hm, hcached⟩
  | some newLen =>
    simp only [hfit] at hlied hkeep ⊢
    obtain ⟨os', hres, hmoved, len', hm'⟩ := resizeLocked_follows hm newSize newLen hlied
    obtain ⟨len'', hshape'⟩ := hkeep os'
    have hlen'' : len'' = len' := by
      have hmap := hshape'.map
      simp only [hm'.map] at hmap
      cases hmap
      rfl
    subst hlen''
    refine ⟨os', hres, ⟨hmoved.file, hmoved.raw, hmoved.names, hmoved.vals, hmoved.files⟩, len'', hshape', ?_, ?_⟩
    · exact ⟨⟨hm'.inst.inv, hm'.inst.ne, hm'.inst.cur, hm'.inst.spare⟩, hm'.map, hm'.file⟩
    · simp only [Inner.mapLen, hm'.map]
      exact hm'.inst.len_eq.symm

theorem mapFileRw_lied (os : Answers) (n : Nat) (hl : h.state.world.lied) : (h.mapFileRw P os n).2.state.world.lied := by
  unfold Held.mapFileRw
  simp only [put_world]
  exact mapImpl_lied _ hl

theorem remap_lied {os : Answers} {n : Nat} {r : Except MmapIoError Unit} (hl : h.state.world.lied) :
    (h.remap P os n r).2.state.world.lied := by
  have hmap := mapFileRw_lied (P := P) os n hl
  unfold Held.remap
  cases hres : h.mapFileRw P os n with
  | mk res h₂ =>
    rw [hres] at hmap
    cases res with
    | error e => exact hmap
    | ok u => exact dropVal_lied hmap

theorem resizeLocked_lied {newSize newLen : Nat} (hl : h.state.world.lied) :
    (h.resizeLocked P os len newSize newLen).2.state.world.lied := by
  unfold Held.resizeLocked
  split
  · exact hl
  split
  · unfold Held.growLocked
    split
    · exact hl
    · have hmap : ((h.setLen newSize).mapFileRw P os.map newLen).2.state.world.lied := mapFileRw_lied os.map newLen hl
      cases hres : (h.setLen newSize).mapFileRw P os.map newLen with
      | mk res h₂ =>
        rw [hres] at hmap
        cases res with
        | ok u => exact dropVal_lied hmap
        | error e =>
          simp only
          split <;> exact hmap
  split
  · have hnothing : (h.mapNothing P os.map).2.state.world.lied := by
      unfold Held.mapNothing
      simp only [put_world]
      exact mapAnon_lied _ hl
    unfold Held.shrinkLockedWindows
    cases hres : h.mapNothing P os.map with
    | mk res h₂ =>
      rw [hres] at hnothing
      cases res with
      | error e => exact hnothing
      | ok u =>
        have hgone : (h₂.replace P).state.world.lied := dropVal_lied hnothing
        simp only
        split
        · exact remap_lied hgone
        · exact remap_lied hgone
  · have hmap := mapFileRw_lied (P := P) os.map newLen hl
    unfold Held.shrinkLockedUnix
    cases hres : h.mapFileRw P os.map newLen with
    | mk res h₂ =>
      rw [hres] at hmap
      cases res with
      | error e => exact hmap
      | ok u =>
        simp only
        split <;> exact dropVal_lied hmap

theorem resize_lied {newSize : Nat} (hl : h.state.world.lied) : (h.resize P os newSize).2.state.world.lied := by
  unfold Held.resize
  split
  · exact hl
  split
  · exact hl
  split
  · exact hl
  · exact resizeLocked_lied hl

end Resize

/-! ## Reading and writing -/

section Bytes

variable {P : Platform} {h : Held V} {s : Inner} {len : Nat}

omit [DecidableEq V] in
/-- The value behind the lock. -/
theorem Installed.value (hi : Installed P h len) :
    ∃ m, h.state.vals h.cur = some ⟨m, true⟩ ∧ m.len = len ∧
      Value.view h.state.world ⟨m, true⟩ = View.new len true (.shared h.file 0) := by
  obtain ⟨⟨m, isMut⟩, hx, hview⟩ := Option.map_eq_some_iff.1 hi.cur
  have hmut : isMut = true := congrArg View.isMut hview
  subst hmut
  exact ⟨m, hx, congrArg View.len hview, hview⟩

omit [DecidableEq V] in
/-- **What a load through the lock sees** is the byte of `Inner`. -/
theorem Mirrors.read (hm : Mirrors P h s len) :
    ∃ x, h.state.vals h.cur = some x ∧ x.map.len = len ∧
      ∀ i, i < len → h.state.world.byte x.map.base (x.map.delta + i) = s.bytes[i]? := by
  obtain ⟨m, hx, hlen, hview⟩ := hm.inst.value
  refine ⟨_, hx, hlen, fun i hi => ?_⟩
  have hb := hm.inst.inv.backed _ _ hx (by simp only; omega)
  have hread := byte_eq_read hb (i := i) (by simp only; omega)
  simp only at hread ⊢
  rw [hread, hview, Inner.bytes_rw hm.map, List.getElem?_take_of_lt hi, hm.file]
  unfold View.read View.new
  rw [if_pos hi, if_neg (by omega)]
  simp only [Nat.zero_add]

/-- **A store through the lock** is the store of `Inner`. -/
theorem store_follows (hpage : P.page ∣ P.granularity) (hs : Shows P h s) (i : Nat) (b : UInt8) (hi : i < s.mapLen) :
    ∃ st, step P h.state (.store h.cur i b) = some st ∧ Moved P h { h with state := st } ∧
      Shows P { h with state := st } (s.store i [b]) := by
  obtain ⟨len, hshape, hm, hcached⟩ := hs
  obtain ⟨m, hx, hlen, hview⟩ := hm.inst.value
  have hle := hshape.le_file
  rw [hshape.mapLen] at hi
  have hfile : i < (h.state.world.files h.file).length := by
    rw [← hm.file]
    omega
  have heq := store_views hm.inst.inv hpage hx (i := i) (by omega) b
  have hstored : Views.store P.page h.state.views h.cur (View.new len true (.shared h.file 0)) i b =
      some { h.state.views with
        files := Function.update h.state.world.files h.file ((h.state.world.files h.file).set i b) } := by
    unfold Views.store View.new
    simp only [if_pos hi, if_neg (show len ≠ 0 by omega), Nat.zero_add]
    exact if_pos hfile
  rw [hview, hstored, Option.map_eq_some_iff] at heq
  obtain ⟨w, hw, hviews⟩ := heq
  have hstep : step P h.state (.store h.cur i b) = some ⟨w, h.state.vals⟩ := by
    simp only [step, hx]
    rw [if_pos (by omega), hw]
    rfl
  have hfiles : w.files = Function.update h.state.world.files h.file ((h.state.world.files h.file).set i b) :=
    congrArg Views.files hviews
  refine ⟨_, hstep, ⟨rfl, Machine.Reaches.single hstep, fun _ => Iff.rfl, fun _ _ _ => rfl, fun g hg => ?_⟩, len,
    hshape.store (by rw [List.length_singleton]; omega), ⟨⟨?_, hm.inst.ne, ?_, hm.inst.spare⟩, ?_, ?_⟩, ?_⟩
  · simp only [hfiles]
    exact Function.update_of_ne hg ..
  · exact hm.inst.inv.alike (store_alike hw)
  · exact (congrFun (congrArg Views.vals hviews) h.cur).trans hm.inst.cur
  · rw [Inner.store_rw hm.map]
    exact hm.map
  · rw [Inner.store_rw hm.map]
    simp only [hfiles, Function.update_self]
    rw [hm.file, splice_singleton hfile]
  · rw [Inner.store_rw hm.map]
    exact hcached

/-- **A copy into the mapping**, byte by byte, is one store of `Inner`. -/
theorem write_follows (hpage : P.page ∣ P.granularity) : ∀ (data : List UInt8) (start : Nat) (h : Held V) (s : Inner),
    Shows P h s → start + data.length ≤ s.mapLen →
      ∃ h', h.write P start data = some h' ∧ Moved P h h' ∧ Shows P h' (s.store start data)
  | [], start, h, s, hs, _ => by
    obtain ⟨len, hshape, hm, hcached⟩ := hs
    refine ⟨h, rfl, Moved.refl h, ?_⟩
    rw [Inner.store_rw hm.map, splice_nil]
    exact ⟨len, hshape, hm, hcached⟩
  | b :: data, start, h, s, hs, hfit => by
    rw [List.length_cons] at hfit
    obtain ⟨st, hstep, hmoved, hs₁⟩ := store_follows hpage hs start b (by omega)
    have hmap : (s.store start [b]).mapLen = s.mapLen := by
      obtain ⟨len, hshape, -⟩ := hs
      rw [(hshape.store (by rw [List.length_singleton]; rw [hshape.mapLen] at hfit; omega)).mapLen, hshape.mapLen]
    obtain ⟨h', hwrite, hmoved', hs'⟩ := write_follows hpage data (start + 1) _ _ hs₁ (by rw [hmap]; omega)
    refine ⟨h', ?_, hmoved.trans hmoved', ?_⟩
    · simp only [Held.write, hstep, Option.bind_some]
      exact hwrite
    · obtain ⟨len, hshape, hm, -⟩ := hs
      have hle := hshape.le_file
      rw [hshape.mapLen] at hfit
      have hsplit : (s.store start [b]).store (start + 1) data = s.store start (b :: data) := by
        rw [Inner.store_rw hm.map, Inner.store_rw hm.map, Inner.store_rw (by exact hm.map)]
        have hsp : splice (splice s.file start [b]) (start + [b].length) data = splice s.file start ([b] ++ data) :=
          splice_append (by rw [List.length_singleton]; omega)
        rw [List.length_singleton] at hsp
        simp only [hsp, List.singleton_append]
      rw [← hsplit]
      exact hs'

end Bytes

/-! ## Runs -/

abbrev Log := List (Except MmapIoError Unit)

/-- A copy into the mapping, or a resize with the OS's answers. -/
inductive HandleCall (O : Type) where
  | write (start : Nat) (data : List UInt8)
  | resize (newSize : Nat) (os : O)

/-- Without the answers. -/
def HandleCall.erase {O : Type} : HandleCall O → HandleCall Unit
  | .write start data => .write start data
  | .resize newSize _ => .resize newSize ()

def heldStep (P : Platform) (h : Held V × Log) : HandleCall ResizeAnswers → Option (Held V × Log)
  | .write start data => if start + data.length ≤ h.1.len then (h.1.write P start data).map (fun h' => (h', h.2)) else none
  | .resize newSize os => some ((h.1.resize P os newSize).2, h.2 ++ [(h.1.resize P os newSize).1])

def innerStep (P : Platform) (s : Inner × Log) : HandleCall Os → Option (Inner × Log)
  | .write start data => if start + data.length ≤ s.1.mapLen then some (s.1.store start data, s.2) else none
  | .resize newSize os => some ((MmapIo.resize P os newSize s.1).2, s.2 ++ [(MmapIo.resize P os newSize s.1).1])

/-- The end of `finish_rw`: the whole file is mapped, and its length recorded. -/
def Held.finishRw (P : Platform) (os : Answers) (cur spare : V) (f : Nat) (t : State V) : Except IoError (Held V) :=
  let n := (t.world.files f).length
  let res := Options.mapImpl P os ⟨0, some n, ⟨false, false⟩⟩ f .write t.world
  res.1.map (fun _ => ⟨t.put cur true res, cur, spare, f, n⟩)

section Runs

variable {P : Platform}

/-- A new mapping of a file is what `Inner` says it is. -/
theorem finishRw_shows {os : Answers} {cur spare : V} {f : Nat} {t : State V} {h : Held V} {s : Inner} (hinv : Inv P t)
    (hne : cur ≠ spare) (hcur : t.vals cur = none) (hspare : t.vals spare = none)
    (hmap : Held.finishRw P os cur spare f t = .ok h) (hlied : ¬ h.state.world.lied) (hs : Fresh P s (t.world.files f).length)
    (hfile : s.file = t.world.files f) :
    Shows P h s ∧ h.file = f ∧ (h.cur = cur ∧ h.spare = spare) ∧ h.state.world.files = t.world.files ∧
      Machine.Reaches (step P) t h.state ∧ ∀ v, v ≠ cur → h.state.vals v = t.vals v := by
  simp only [Held.finishRw] at hmap
  have hraw : step P t (.map cur .write ⟨0, some (t.world.files f).length, ⟨false, false⟩⟩ f os) = some (t.put cur true
      (Options.mapImpl P os ⟨0, some (t.world.files f).length, ⟨false, false⟩⟩ f .write t.world)) := by
    simp only [step, hcur, if_true]
    rfl
  have hc : ¬ (Options.mapImpl P os ⟨0, some (t.world.files f).length, ⟨false, false⟩⟩ f .write t.world).2.lied →
      Created P t.world true _ _ _ := mapImpl_created ⟨0, some (t.world.files f).length, ⟨false, false⟩⟩ hinv.positive
  generalize Options.mapImpl P os ⟨0, some (t.world.files f).length, ⟨false, false⟩⟩ f .write t.world = res at hmap hraw hc
  obtain ⟨res, w⟩ := res
  cases res with
  | error e => cases hmap
  | ok m =>
    cases hmap
    have hc := hc hlied
    rcases hc.views hinv hcur with ⟨⟨e, he⟩, -⟩ | ⟨m', r, hm', hwant, hr, heq⟩
    · cases he
    · cases hm'
      have hfiles : w.files = t.world.files := congrArg Views.files heq
      obtain ⟨n, hwin, hview⟩ := view_window true hwant hr
      have hn : n = (t.world.files f).length := by
        simp only [Views.window, Option.getD_some] at hwin
        split at hwin
        · cases hwin
          rfl
        · cases hwin
      refine ⟨⟨(t.world.files f).length, ⟨hs.mode, hs.map, hs.cachedLen, by rw [hs.file], hs.le_max⟩,
        ⟨⟨hinv.created hcur hc, hne, ?_, ?_⟩, hs.map, ?_⟩, hs.cachedLen⟩, rfl, ⟨rfl, rfl⟩, hfiles, Machine.Reaches.single hraw,
        fun v hv => Function.update_of_ne hv ..⟩
      · simp only [heq, Views.put, Function.update_self, hview, hn]
        rfl
      · exact (Function.update_of_ne hne.symm ..).trans hspare
      · exact hfile.trans (congrFun hfiles f).symm

theorem finishRw_lied {os : Answers} {cur spare : V} {f : Nat} {t : State V} {h : Held V}
    (hmap : Held.finishRw P os cur spare f t = .ok h) (hl : t.world.lied) : h.state.world.lied := by
  simp only [Held.finishRw] at hmap
  have hlied : (Options.mapImpl P os ⟨0, some (t.world.files f).length, ⟨false, false⟩⟩ f .write t.world).2.lied :=
    mapImpl_lied _ hl
  generalize Options.mapImpl P os ⟨0, some (t.world.files f).length, ⟨false, false⟩⟩ f .write t.world = res at hmap hlied
  obtain ⟨res, w⟩ := res
  cases res with
  | error e => cases hmap
  | ok m =>
    cases hmap
    exact hlied

theorem write_lied : ∀ {data : List UInt8} {start : Nat} {h h' : Held V}, h.write P start data = some h' →
    h.state.world.lied → h'.state.world.lied
  | [], start, h, h', hw, hl => by
    cases hw
    exact hl
  | b :: data, start, h, h', hw, hl => by
    obtain ⟨st, hstep, hw⟩ := Option.bind_eq_some_iff.1 hw
    exact write_lied hw (step_lied hstep hl)

theorem heldStep_lied {h h' : Held V × Log} {a : HandleCall ResizeAnswers} (hs : heldStep P h a = some h')
    (hl : h.1.state.world.lied) : h'.1.state.world.lied := by
  cases a with
  | write start data =>
    simp only [heldStep] at hs
    split at hs
    · obtain ⟨h₁, hw, rfl⟩ := Option.map_eq_some_iff.1 hs
      exact write_lied hw hl
    · cases hs
  | resize newSize os =>
    cases hs
    exact resize_lied hl

/-- **One call of the handle is one call of `Inner`**, to an OS that answers alike. -/
theorem heldStep_follows (hpage : P.page ∣ P.granularity) {h h' : Held V × Log} {s : Inner} {a : HandleCall ResizeAnswers}
    (hshows : Shows P h.1 s) (hs : heldStep P h a = some h') (hlied : ¬ h'.1.state.world.lied) :
    ∃ a' : HandleCall Os, a'.erase = a.erase ∧ ∃ s', innerStep P (s, h.2) a' = some (s', h'.2) ∧ Moved P h.1 h'.1 ∧
      Shows P h'.1 s' := by
  obtain ⟨h, log⟩ := h
  cases a with
  | write start data =>
    simp only [heldStep] at hs
    split at hs
    · rename_i hfit
      have hlen : h.len = s.mapLen := by
        obtain ⟨len, hshape, hm, -⟩ := hshows
        rw [hm.inst.len_eq, hshape.mapLen]
      rw [hlen] at hfit
      obtain ⟨h₁, hw, hmoved, hshows₁⟩ := write_follows hpage data start h s hshows hfit
      rw [hw, Option.map_some] at hs
      cases hs
      refine ⟨.write start data, rfl, _, ?_, hmoved, hshows₁⟩
      simp only [innerStep]
      exact if_pos hfit
    · cases hs
  | resize newSize os =>
    cases hs
    obtain ⟨os', hres, hmoved, hshows₁⟩ := resize_follows hshows newSize hlied
    refine ⟨.resize newSize os', rfl, _, ?_, hmoved, hshows₁⟩
    simp only [innerStep, hres]

/-- **Resizes over the OS.**  A `ReadWrite` mapping made of raw values, without huge pages and next to any others, that is
written through and resized while the OS refuses what it likes: every run is a run of `Inner` with the same results; the
loads through the lock see `Inner`'s bytes; and the value behind the lock is the only one the runs leave, no OS mapping on
the way is lost. -/
theorem resizes_over_os (P : Platform) (hpage : P.page ∣ P.granularity) (files : Nat → List UInt8) (before : List (Act V))
    (t : State V) (hbefore : Machine.run (step P) (init files) before = some t) (os : Answers) (cur spare : V) (f : Nat)
    (hne : cur ≠ spare) (hcur : t.vals cur = none) (hspare : t.vals spare = none) (h : Held V)
    (hmap : Held.finishRw P os cur spare f t = .ok h) (s : Inner) (hs : Fresh P s (t.world.files f).length)
    (hfile : s.file = t.world.files f) (calls : List (HandleCall ResizeAnswers)) (h' : Held V) (log : Log)
    (hrun : Machine.run (heldStep P) (h, []) calls = some (h', log)) (hos : ¬ h'.state.world.lied) :
    ∃ (calls' : List (HandleCall Os)) (s' : Inner), calls'.map HandleCall.erase = calls.map HandleCall.erase ∧
      Machine.run (innerStep P) (s, []) calls' = some (s', log) ∧
      s'.file = h'.state.world.files f ∧ s'.cachedLen = h'.cachedLen ∧
      (∃ x, h'.state.vals h'.cur = some x ∧ x.map.len = s'.mapLen ∧
        ∀ i, i < s'.mapLen → h'.state.world.byte x.map.base (x.map.delta + i) = s'.bytes[i]?) ∧
      (∀ v, v ≠ h'.cur → h'.state.vals v = t.vals v) ∧ (∀ g, g ≠ f → h'.state.world.files g = t.world.files g) ∧
      (∀ b r, h'.state.world.regions b = some r → ∃ v x, h'.state.vals v = some x ∧ x.map.base = b ∧
        (v = h'.cur ∨ t.vals v = some x)) ∧
      Machine.Reaches (step P) (init files) h'.state ∧ ¬ h'.state.world.misused := by
  have hall : ¬ h.state.world.lied ∧ ∃ (calls' : List (HandleCall Os)) (s' : Inner),
      calls'.map HandleCall.erase = calls.map HandleCall.erase ∧ Machine.run (innerStep P) (s, []) calls' = some (s', log) ∧
      Moved P h h' ∧ Shows P h' s' := by
    refine Machine.run_induction (fun as u => ¬ u.1.state.world.lied → ¬ h.state.world.lied ∧ ∃ (calls' : List (HandleCall Os))
      (s' : Inner), calls'.map HandleCall.erase = as.map HandleCall.erase ∧
      Machine.run (innerStep P) (s, []) calls' = some (s', u.2) ∧ Moved P h u.1 ∧ Shows P u.1 s') (fun hl => ?_) ?_ calls
      (h', log) hrun hos
    · have hinv := inv_run hpage hbefore (fun hlt => hl (finishRw_lied hmap hlt))
      exact ⟨hl, [], s, rfl, rfl, Moved.refl h, (finishRw_shows hinv hne hcur hspare hmap hl hs hfile).1⟩
    · intro as a u u' hu ih hstep hl'
      have hl : ¬ u.1.state.world.lied := fun hl => hl' (heldStep_lied hstep hl)
      obtain ⟨hl₀, calls', s', hmap', hrun', hmoved, hshows⟩ := ih hl
      obtain ⟨a', ha', s'', hs'', hmoved', hshows'⟩ := heldStep_follows hpage hshows hstep hl'
      refine ⟨hl₀, calls' ++ [a'], s'', ?_, Machine.run_concat.2 ⟨_, hrun', hs''⟩, hmoved.trans hmoved', hshows'⟩
      rw [List.map_append, List.map_append, hmap', List.map_singleton, List.map_singleton, ha']
  obtain ⟨hl, calls', s', hcalls, hrun', hmoved, len, hshape, hm, hcached⟩ := hall
  have hinv := inv_run hpage hbefore (fun hlt => hl (finishRw_lied hmap hlt))
  obtain ⟨-, hf, hnames, hfiles, hraw, hvals⟩ := finishRw_shows hinv hne hcur hspare hmap hl hs hfile
  have hothers : ∀ v, v ≠ h'.cur → h'.state.vals v = t.vals v := by
    intro v hv
    by_cases hv' : v = cur ∨ v = spare
    · -- the other of the two names: nothing has it
      have hnone : t.vals v = none := by rcases hv' with rfl | rfl <;> assumption
      rw [← hnames.1, ← hnames.2] at hv'
      rcases (hmoved.names v).2 hv' with hc | hc
      · exact absurd hc hv
      · rw [hnone, hc]
        exact hm.inst.spare
    · rw [not_or] at hv'
      exact (hmoved.vals v (by rw [hnames.1]; exact hv'.1) (by rw [hnames.2]; exact hv'.2)).trans (hvals v hv'.1)
  obtain ⟨x, hx, hlen, hread⟩ := hm.read
  have hinv' := hm.inst.inv
  refine ⟨calls', s', hcalls, hrun', ?_, hcached, ⟨x, hx, by rw [hlen, hshape.mapLen], by rw [hshape.mapLen]; exact hread⟩,
    hothers, fun g hg => ?_, fun b r hr => ?_, ?_, hinv'.proper⟩
  · rw [hm.file, hmoved.file, hf]
  · rw [hmoved.files g (by rw [hf]; exact hg), hfiles]
  · obtain ⟨v, hv⟩ := (hinv'.regions.live_iff b).1 (by rw [hr]; rfl)
    obtain ⟨y, hy, hown⟩ := Option.bind_eq_some_iff.1 hv
    unfold Value.owned at hown
    split at hown
    · cases hown
    · cases hown
      refine ⟨v, y, hy, rfl, ?_⟩
      by_cases hv' : v = h'.cur
      · exact Or.inl hv'
      · exact Or.inr ((hothers v hv').symm.trans hy)
  · exact (show Machine.Reaches (step P) (init files) t from ⟨before, hbefore⟩).trans (hraw.trans hmoved.raw)

/-- A store, a grow that cannot be mapped nor undone, and a shrink. -/
def failedGrow : List (HandleCall ResizeAnswers) :=
  [.write 0 [9],
   .resize 5 ⟨none, { obliging 0 0 none with map := .error "out of memory" }, some "denied"⟩,
   .resize 2 ⟨none, obliging 8192 0 none, none⟩]

def threeBytes : Inner := ⟨[1, 2, 3], .rw 3, 3, .readWrite, .never, 0, 0, false, [], []⟩

theorem resizes_over_os_failedGrow : ∃ (h h' : Held Bool) (log : Log),
    Held.finishRw linux64 (obliging 4096 0 none) true false 0 (init (fun _ => [1, 2, 3])) = .ok h ∧
      Machine.run (heldStep linux64) (h, []) failedGrow = some (h', log) ∧ h'.cur = false ∧ h'.cachedLen = 2 ∧
      h'.state.world.files 0 = [9, 2] ∧ h'.state.world.regions 4096 = none ∧ ¬ h'.state.world.misused ∧
      ∃ x, h'.state.vals false = some x ∧ h'.state.world.byte x.map.base (x.map.delta + 1) = some 2 := by
  obtain ⟨h, hh⟩ : ∃ h, Held.finishRw linux64 (obliging 4096 0 none) true false 0 (init (fun _ => [1, 2, 3])) = .ok h := ⟨_, rfl⟩
  obtain ⟨⟨h', log⟩, hrun⟩ : ∃ u, Machine.run (heldStep linux64) (h, []) failedGrow = some u := by
    cases hh
    exact ⟨_, rfl⟩
  have hos : ¬ h'.state.world.lied := by
    cases hh
    cases hrun
    rintro ((hl | hl) | hl)
    · exact hl
    · refine hl ⟨by decide, by decide, fun _ => by decide, fun b r hr => ?_⟩
      cases hr
    · refine hl ⟨by decide, by decide, fun _ => by decide, fun b r hr => ?_⟩
      by_cases hb : b = 4096
      · subst hb
        cases hr
        right
        decide
      · change Function.update (fun _ => none) 4096 _ b = some r at hr
        rw [Function.update_of_ne hb] at hr
        cases hr
  obtain ⟨_, _, -, -, -, -, -, -, -, -, -, hproper⟩ := resizes_over_os linux64 (by decide)
    (fun _ => [1, 2, 3]) [] (init (fun _ => [1, 2, 3])) rfl (obliging 4096 0 none) true false 0 (by decide) rfl rfl h hh threeBytes
    ⟨rfl, rfl, rfl, rfl, by decide, by decide⟩ rfl failedGrow h' log hrun hos
  refine ⟨h, h', log, hh, hrun, ?_, ?_, ?_, ?_, hproper, ?_⟩
  · cases hh
    cases hrun
    rfl
  · cases hh
    cases hrun
    rfl
  · cases hh
    cases hrun
    rfl
  · cases hh
    cases hrun
    rfl
  · cases hh
    cases hrun
    exact ⟨_, rfl, rfl⟩

end Runs

end Raw
end MmapIo
