import MmapIo.Lib.Machine
import MmapIo.Lib.Owned
import MmapIo.RawMapping
/-!
# RawRuns — who owns which OS mapping

Runs of the raw layer: values are mapped, converted, flushed, advised, locked, written through and dropped, and every OS call
answers as it likes.  Each non-empty value owns one OS mapping and each OS mapping has one owner, on Windows the same holds of
the duplicated handles and no section stays open; a conversion that fails takes its mapping with it.  So every call the layer
makes meets the OS's contract (`raw_ownership`).
-/
namespace MmapIo
namespace Raw

open Word

/-- A live value: `RawMmap` or `RawMmapMut`. -/
structure Value where
  map : Mapping
  isMut : Bool
  deriving DecidableEq, Repr

structure State (V : Type) where
  world : World
  vals : V → Option Value

inductive Act (V : Type) where
  /-- `RawMmapOptions::map`, `map_mut`, `map_copy` -/
  | map (v : V) (access : Access) (o : Options) (f : Nat) (os : Answers)
  | mapAnon (v : V) (o : Options) (os : Answers)
  | makeMut (v : V) (os : Answers)
  | makeReadOnly (v : V) (os : Answers)
  | drop (v : V)
  | flush (v : V) (offset len : Nat) (mode : FlushMode) (os : Answers)
  | advise (v : V) (advice : MmapAdvice) (offset len : Nat) (os : Answers)
  | lock (v : V) (lock : Bool) (os : Answers)
  | store (v : V) (i : Nat) (b : UInt8)
  /-- a file is resized through its `File` -/
  | setLen (f n : Nat)

variable {V : Type} [DecidableEq V]

/-- `v` gets the value, or nothing when there is an error. -/
def State.put (s : State V) (v : V) (isMut : Bool) : Except IoError Mapping × World → State V
  | (.ok m, w) => ⟨w, Function.update s.vals v (some ⟨m, isMut⟩)⟩
  | (.error _, w) => ⟨w, Function.update s.vals v none⟩

def step (P : Platform) (s : State V) : Act V → Option (State V)
  | .map v access o f os =>
    if s.vals v = none then some (s.put v (decide (access ≠ .read)) (o.mapImpl P os f access s.world)) else none
  | .mapAnon v o os => if s.vals v = none then some (s.put v true (o.mapAnon P os s.world)) else none
  | .makeMut v os =>
    match s.vals v with
    | some ⟨m, false⟩ => some (s.put v true (m.intoWritable P os s.world))
    | _ => none
  | .makeReadOnly v os =>
    match s.vals v with
    | some ⟨m, true⟩ => some (s.put v false (m.protect P os .readOnly s.world))
    | _ => none
  | .drop v => (s.vals v).map (fun x => ⟨x.map.drop P s.world, Function.update s.vals v none⟩)
  | .flush v offset len mode os =>
    match s.vals v with
    | some ⟨m, true⟩ => some { s with world := (m.flush P os offset len mode s.world).2 }
    | _ => none
  | .advise v advice offset len os =>
    (s.vals v).map (fun x => { s with world := (x.map.advise P os advice offset len s.world).2 })
  | .lock v lock os => (s.vals v).map (fun x => { s with world := (x.map.lock P os lock s.world).2 })
  | .store v i b =>
    match s.vals v with
    | some ⟨m, true⟩ => if i < m.len then (s.world.store P m.base (m.delta + i) b).map (fun w => { s with world := w }) else none
    | _ => none
  | .setLen f n =>
    some { s with world := { s.world with
      files := Function.update s.world.files f (Bytes.setLen (s.world.files f) n 0) } }

/-- The OS before the first call. -/
def init (files : Nat → List UInt8) : State V := ⟨⟨files, fun _ => none, fun _ => false, 0, False, False⟩, fun _ => none⟩

/-! ## What a value stands on -/

/-- What a mapping of this kind is backed by. -/
def Stands (P : Platform) : Kind → Backing → Source → Prop
  | .read, .priv, .file _ _ ws => ws = !P.windows
  | .write, .shared dup, .file _ _ ws => ws = true ∧ dup.isSome = P.windows
  | .copy, .priv, .copy _ _ => True
  | .anon, .priv, .anon => True
  | _, _, _ => False

namespace Stands

variable {P : Platform} {b : Backing} {src : Source}

theorem read (h : Stands P .read b src) : b = .priv ∧ ∃ f offset, src = .file f offset (!P.windows) := by
  cases b <;> cases src <;> simp only [Stands] at h
  exact ⟨rfl, _, _, by rw [h]⟩

theorem write (h : Stands P .write b src) :
    (∃ dup, b = .shared dup ∧ dup.isSome = P.windows) ∧ ∃ f offset, src = .file f offset true := by
  cases b <;> cases src <;> simp only [Stands] at h
  exact ⟨⟨_, rfl, h.2⟩, _, _, by rw [h.1]⟩

theorem copy (h : Stands P .copy b src) : b = .priv ∧ ∃ f offset, src = .copy f offset := by
  cases b <;> cases src <;> simp only [Stands] at h
  exact ⟨rfl, _, _, rfl⟩

theorem anon (h : Stands P .anon b src) : b = .priv ∧ src = .anon := by
  cases b <;> cases src <;> simp only [Stands] at h
  exact ⟨rfl, rfl⟩

/-- What shares memory with a file shows that file. -/
theorem shared {kind : Kind} {dup : Option Nat} (h : Stands P kind (.shared dup) src) :
    ∃ f offset ws, src = .file f offset ws := by
  cases kind <;> cases src <;> simp only [Stands] at h
  exact ⟨_, _, _, rfl⟩

theorem notPrivate {kind : Kind} (h : Stands P kind b src) (hk : ¬ kind.isPrivate = true) :
    ∃ f offset ws, src = .file f offset ws := by
  cases kind with
  | read =>
    obtain ⟨-, f, offset, hsrc⟩ := h.read
    exact ⟨f, offset, _, hsrc⟩
  | write =>
    obtain ⟨-, f, offset, hsrc⟩ := h.write
    exact ⟨f, offset, _, hsrc⟩
  | copy | anon => exact absurd rfl hk

end Stands

/-- Where the file may be mapped from: a multiple of the granularity.  Memory without a file is all the value's own. -/
def Source.Sited (P : Platform) (delta : Nat) : Source → Prop
  | .file _ offset _ | .copy _ offset => P.granularity ∣ offset
  | .anon => delta = 0

/-- The live OS mapping a value stands on: exactly its own length, as writable as the value. -/
structure Backed (P : Platform) (w : World) (isMut : Bool) (m : Mapping) : Prop where
  region : ∃ r, w.regions m.base = some r ∧ r.len = m.osLen ∧ r.writable = isMut ∧ Stands P m.kind m.backing r.source ∧
    r.source.Sited P m.delta
  inside : m.delta + m.len ≤ m.osLen
  fits : m.delta + m.len ≤ P.width.maxLen
  aligned : P.granularity ∣ m.base

/-- The base of the OS mapping a value owns. -/
def Value.owned (x : Value) : Option Nat := if x.map.len = 0 then none else some x.map.base

/-- The duplicated handle of a backing. -/
def Backing.dup : Backing → Option Nat
  | .shared dup => dup
  | .priv => none

def Value.dup (x : Value) : Option Nat := x.map.backing.dup

/-- **Ownership**: live OS mappings and open handles belong to exactly one value each, and nothing was misused. -/
structure Inv (P : Platform) (s : State V) : Prop where
  regions : OwnedOnce (fun v => (s.vals v).bind Value.owned) (fun b => (s.world.regions b).isSome = true)
  handles : OwnedOnce (fun v => (s.vals v).bind Value.dup) (fun h => s.world.handles h = true)
  backed : ∀ v x, s.vals v = some x → x.map.len ≠ 0 → Backed P s.world x.isMut x.map
  empty : ∀ v x, s.vals v = some x → x.map.len = 0 → x.map.backing = .priv
  apart : ∀ b r b' r', s.world.regions b = some r → s.world.regions b' = some r' → b ≠ b' →
    b + r.len ≤ b' ∨ b' + r'.len ≤ b
  sections : s.world.sections = 0
  proper : ¬ s.world.misused

/-! ## What the calls do to the world -/

/-- Nothing but memory contents differs. -/
structure Quiet (w w' : World) : Prop where
  files : w'.files = w.files
  regions : w'.regions = w.regions
  handles : w'.handles = w.handles
  sections : w'.sections = w.sections
  lied : w'.lied ↔ w.lied
  misused : w'.misused ↔ w.misused

namespace Quiet

variable {w w' w'' : World}

theorem refl (w : World) : Quiet w w := ⟨rfl, rfl, rfl, rfl, Iff.rfl, Iff.rfl⟩

theorem trans (h : Quiet w w') (h' : Quiet w' w'') : Quiet w w'' :=
  ⟨h'.files.trans h.files, h'.regions.trans h.regions, h'.handles.trans h.handles, h'.sections.trans h.sections,
    h'.lied.trans h.lied, h'.misused.trans h.misused⟩

/-- A call that meets its contract leaves no trace. -/
theorem check {ok : Prop} (h : ok) : Quiet w (w.check ok) :=
  ⟨rfl, rfl, rfl, rfl, Iff.rfl, by simp [World.check, h]⟩

end Quiet

/-- **What mapping a region can do**: fail and change nothing, or place it at a fresh address that is not null. -/
inductive Mapped (P : Platform) (w : World) (r : Region) : Except IoError Nat → World → Prop where
  | failed {e : IoError} {w' : World} (h : Quiet w w') : Mapped P w r (.error e) w'
  | ok {base : Nat} {w' : World} (hpos : 0 < base) (hfresh : w.Fresh P base r.len) (h : Quiet (w.place P base r) w') :
      Mapped P w r (.ok base) w'

variable {P : Platform} {os : Answers} {w : World} {r : Region}

/-- A fresh address is the base of no mapping. -/
theorem Fresh.vacant (hpos : ∀ b r, w.regions b = some r → 0 < r.len) {base len : Nat} (h : w.Fresh P base len)
    (hlen : 0 < len) : w.regions base = none := by
  cases hr : w.regions base with
  | none => rfl
  | some r =>
    have := hpos base r hr
    have := h.2.2.2 base r hr
    omega

theorem mapView_mapped (hw : P.windows = true) (hlied : ¬ (mapView P os r w).2.lied) :
    Mapped P w r (mapView P os r w).1 (mapView P os r w).2 := by
  unfold mapView at hlied ⊢
  cases hsec : os.createSection with
  | some text => exact .failed (Quiet.refl w)
  | none =>
    cases hmap : os.map with
    | error text => exact .failed ⟨rfl, rfl, rfl, rfl, Iff.rfl, Iff.rfl⟩
    | ok base =>
      simp only [hsec, hmap] at hlied ⊢
      by_cases h0 : base = 0
      · -- a view is never null
        rw [if_pos h0] at hlied
        have hfresh := not_not.1 (not_or.1 hlied).2
        exact absurd (hfresh.2.2.1 hw) (by omega)
      · rw [if_neg h0] at hlied ⊢
        exact .ok (Nat.pos_of_ne_zero h0) (not_not.1 (not_or.1 hlied).2) ⟨rfl, rfl, rfl, rfl, Iff.rfl, Iff.rfl⟩

/-- **`mmap`**: a null address is unmapped again. -/
theorem finish_mapped (hpos : ∀ b r, w.regions b = some r → 0 < r.len) (hlen : 0 < r.len)
    {base : Nat} (hlied : ¬ (finish P base r.len (w.place P base r)).2.lied) :
    Mapped P w r (finish P base r.len (w.place P base r)).1 (finish P base r.len (w.place P base r)).2 := by
  unfold finish at hlied ⊢
  by_cases h0 : base = 0
  · rw [if_pos h0] at hlied ⊢
    have hfresh : w.Fresh P base r.len := not_not.1 (not_or.1 hlied).2
    have hvacant := Fresh.vacant hpos hfresh hlen
    refine .failed ⟨rfl, ?_, rfl, rfl, ?_, ?_⟩
    · simp only [World.unmap, World.place, Function.update_idem]
      rw [← hvacant]
      exact Function.update_eq_self ..
    · simp [World.unmap, World.place, hfresh]
    · simp [World.unmap, World.place]
  · rw [if_neg h0] at hlied ⊢
    exact .ok (Nat.pos_of_ne_zero h0) (not_not.1 (not_or.1 hlied).2) (Quiet.refl _)

/-- The handle `try_clone` returned, if there was one to make. -/
def openDup (dup : Option Nat) (w : World) : World :=
  match dup with
  | none => w
  | some h => w.openHandle h

/-- **What a constructor can do**: fail and change nothing, make an empty value out of nothing, or map what the value stands
on; `want` says which value and which mapping. -/
inductive Created (P : Platform) (w : World) (isMut : Bool) (want : Mapping → Option Region → Prop) :
    Except IoError Mapping → World → Prop where
  | failed {e : IoError} {w' : World} (h : Quiet w w') : Created P w isMut want (.error e) w'
  | empty {m : Mapping} (hlen : m.len = 0) (hb : m.backing = .priv) (hw : want m none) : Created P w isMut want (.ok m) w
  | mapped {m : Mapping} {r : Region} {w' : World} (hw : want m (some r)) (hlen : m.len ≠ 0) (hr : r.len = m.osLen)
      (hwr : r.writable = isMut) (hst : Stands P m.kind m.backing r.source ∧ r.source.Sited P m.delta) (hin : m.delta + m.len ≤ m.osLen) (hfit : m.delta + m.len ≤ P.width.maxLen)
      (hfresh : w.Fresh P m.base r.len) (hdup : ∀ h, m.backing.dup = some h → w.handles h = false)
      (h : Quiet ((openDup m.backing.dup w).place P m.base r) w') : Created P w isMut want (.ok m) w'

/-- Giving back the handle that was made leaves no trace. -/
theorem closeHandle_quiet {h : Nat} {w' : World} (hfree : w.handles h = false) (hq : Quiet (w.openHandle h) w') :
    Quiet w (w'.closeHandle h) := by
  refine ⟨hq.files, hq.regions, ?_, hq.sections, hq.lied.trans ?_, ?_⟩
  · simp only [World.closeHandle, hq.handles, World.openHandle, Function.update_idem]
    rw [← hfree]
    exact Function.update_eq_self ..
  · simp [World.openHandle, hfree]
  · simp [World.closeHandle, hq.handles, hq.misused, World.openHandle]

theorem base_fromOs (base : Nat) (l : Layout) (osLen : Nat) (backing : Backing) (kind : Kind) :
    (Mapping.fromOs base l osLen backing kind).base = base := Nat.add_sub_cancel ..

theorem regionOf_len (f : Nat) (access : Access) (l : Layout) : (regionOf P f access l).len = l.mapLen := by
  cases access <;> rfl

theorem regionOf_writable (f : Nat) (access : Access) (l : Layout) :
    (regionOf P f access l).writable = decide (access ≠ .read) := by
  cases access <;> rfl

section MapFile

variable {f : Nat} {access : Access} {l : Layout}

/-- The value shows this layout of the file. -/
def ShowsFile (P : Platform) (f : Nat) (access : Access) (l : Layout) (m : Mapping) (r : Option Region) : Prop :=
  m.len = l.len ∧ (l.len ≠ 0 → m.delta = l.delta ∧ r = some (regionOf P f access l))

theorem regionOf_sited (hoff : P.granularity ∣ l.alignedOffset) (delta : Nat) : (regionOf P f access l).source.Sited P delta := by
  cases access <;> exact hoff

/-- **A value made of what was mapped for it.** -/
theorem created_fromOs (hlen : l.len ≠ 0) (hmap : l.mapLen = l.delta + l.len) (hfit : l.mapLen ≤ P.width.maxLen)
    (hoff : P.granularity ∣ l.alignedOffset) {base : Nat} {backing : Backing} {w' : World} (hst : Stands P access.kind backing (regionOf P f access l).source)
    (hfresh : w.Fresh P base l.mapLen) (hdup : ∀ h, backing.dup = some h → w.handles h = false)
    (hq : Quiet ((openDup backing.dup w).place P base (regionOf P f access l)) w') :
    Created P w (decide (access ≠ .read)) (ShowsFile P f access l) (.ok (Mapping.fromOs base l l.mapLen backing access.kind))
      w' := by
  refine .mapped (r := regionOf P f access l) ⟨rfl, fun _ => ⟨rfl, rfl⟩⟩ hlen (regionOf_len f access l)
    (regionOf_writable f access l) ⟨hst, regionOf_sited hoff _⟩ (Nat.le_of_eq hmap.symm) (hmap ▸ hfit) ?_ hdup ?_
  · rw [base_fromOs, regionOf_len]
    exact hfresh
  · rw [base_fromOs]
    exact hq

theorem mapFileUnix_created (hw : P.windows = false) (hpos : ∀ b r, w.regions b = some r → 0 < r.len) (hlen : l.len ≠ 0)
    (hmap : l.mapLen = l.delta + l.len) (hfit : l.mapLen ≤ P.width.maxLen) (hoff : P.granularity ∣ l.alignedOffset)
    (hlied : ¬ (mapFileUnix P os f access l w).2.lied) :
    Created P w (decide (access ≠ .read)) (ShowsFile P f access l)
      ((mapFileUnix P os f access l w).1.map (fun b => Mapping.fromOs b.1 l l.mapLen b.2 access.kind))
      (mapFileUnix P os f access l w).2 := by
  unfold mapFileUnix at hlied ⊢
  cases hsys : off64 l.alignedOffset with
  | none => exact .failed (Quiet.refl w)
  | some off =>
    cases hm : os.map with
    | error text => exact .failed (Quiet.refl w)
    | ok base =>
      simp only [hsys, hm] at hlied ⊢
      have hspec : ¬ (finish P base (regionOf P f access l).len (w.place P base (regionOf P f access l))).2.lied →
          Mapped P w (regionOf P f access l) _ _ := finish_mapped hpos (by rw [regionOf_len]; omega)
      rw [regionOf_len] at hspec
      generalize finish P base l.mapLen (w.place P base (regionOf P f access l)) = res at hlied hspec ⊢
      obtain ⟨res, w'⟩ := res
      cases hspec (by cases res <;> exact hlied) with
      | failed hq => exact .failed hq
      | ok hpos' hfresh hq =>
        rw [regionOf_len] at hfresh
        cases access with
        | read => exact created_fromOs hlen hmap hfit hoff rfl hfresh (fun h hh => by cases hh) hq
        | write => exact created_fromOs hlen hmap hfit hoff ⟨rfl, by rw [hw]; rfl⟩ hfresh (fun h hh => by cases hh) hq
        | copy => exact created_fromOs hlen hmap hfit hoff trivial hfresh (fun h hh => by cases hh) hq

theorem mapFileWindows_created (hw : P.windows = true) (hlen : l.len ≠ 0) (hmap : l.mapLen = l.delta + l.len)
    (hfit : l.mapLen ≤ P.width.maxLen) (hoff : P.granularity ∣ l.alignedOffset)
    (hlied : ¬ (mapFileWindows P os f access l w).2.lied) :
    Created P w (decide (access ≠ .read)) (ShowsFile P f access l)
      ((mapFileWindows P os f access l w).1.map (fun b => Mapping.fromOs b.1 l l.mapLen b.2 access.kind))
      (mapFileWindows P os f access l w).2 := by
  unfold mapFileWindows at hlied ⊢
  cases access with
  | write =>
    cases hclone : os.tryClone with
    | error text => exact .failed (Quiet.refl w)
    | ok h =>
      simp only [hclone] at hlied ⊢
      have hspec : ¬ (mapView P os (regionOf P f .write l) (w.openHandle h)).2.lied →
          Mapped P (w.openHandle h) (regionOf P f .write l) _ _ := mapView_mapped hw
      generalize mapView P os (regionOf P f .write l) (w.openHandle h) = res at hlied hspec ⊢
      obtain ⟨res, w'⟩ := res
      cases hspec (by cases res <;> exact hlied) with
      | failed hq =>
        -- the handle just made is closed again
        have hfree : w.handles h = false := by
          have := (not_congr hq.lied).1 hlied
          exact Bool.not_eq_true _ ▸ (not_or.1 this).2
        exact .failed (closeHandle_quiet hfree hq)
      | ok hpos' hfresh hq =>
        have hfree : w.handles h = false := by
          have := (not_congr hq.lied).1 hlied
          exact Bool.not_eq_true _ ▸ (not_or.1 (not_or.1 this).1).2
        rw [regionOf_len] at hfresh
        show Created P w _ (ShowsFile P f _ l) (.ok (Mapping.fromOs _ l l.mapLen (.shared (some h)) Access.write.kind)) w'
        refine created_fromOs hlen hmap hfit hoff ⟨rfl, by rw [hw]; rfl⟩ hfresh (fun k hk => ?_) hq
        cases hk
        exact hfree
  | read =>
    simp only at hlied ⊢
    have hspec : ¬ (mapView P os (regionOf P f .read l) w).2.lied → Mapped P w (regionOf P f .read l) _ _ := mapView_mapped hw
    generalize mapView P os (regionOf P f .read l) w = res at hlied hspec ⊢
    obtain ⟨res, w'⟩ := res
    cases hspec (by cases res <;> exact hlied) with
    | failed hq => exact .failed hq
    | ok hpos' hfresh hq =>
      rw [regionOf_len] at hfresh
      show Created P w _ (ShowsFile P f _ l) (.ok (Mapping.fromOs _ l l.mapLen .priv Access.read.kind)) w'
      exact created_fromOs hlen hmap hfit hoff rfl hfresh (fun h hh => by cases hh) hq
  | copy =>
    simp only at hlied ⊢
    have hspec : ¬ (mapView P os (regionOf P f .copy l) w).2.lied → Mapped P w (regionOf P f .copy l) _ _ := mapView_mapped hw
    generalize mapView P os (regionOf P f .copy l) w = res at hlied hspec ⊢
    obtain ⟨res, w'⟩ := res
    cases hspec (by cases res <;> exact hlied) with
    | failed hq => exact .failed hq
    | ok hpos' hfresh hq =>
      rw [regionOf_len] at hfresh
      show Created P w _ (ShowsFile P f _ l) (.ok (Mapping.fromOs _ l l.mapLen .priv Access.copy.kind)) w'
      exact created_fromOs hlen hmap hfit hoff trivial hfresh (fun h hh => by cases hh) hq

/-- The value shows the window the options ask for. -/
def ShowsWindow (P : Platform) (f fileLen : Nat) (access : Access) (o : Options) (m : Mapping) (r : Option Region) : Prop :=
  ∃ l, mapImplLayout P.width fileLen o.offset o.len P.granularity = .ok l ∧ ShowsFile P f access l m r

theorem Created.mono {isMut : Bool} {want want' : Mapping → Option Region → Prop} {res : Except IoError Mapping} {w' : World}
    (h : Created P w isMut want res w') (hw : ∀ m r, want m r → want' m r) : Created P w isMut want' res w' := by
  cases h with
  | failed hq => exact .failed hq
  | empty hlen hb hm => exact .empty hlen hb (hw _ _ hm)
  | mapped hm hlen hr hwr hst hin hfit hfresh hdup hq => exact .mapped (hw _ _ hm) hlen hr hwr hst hin hfit hfresh hdup hq

/-- **`RawMmapOptions::map`, `map_mut`, `map_copy`.** -/
theorem mapImpl_created (o : Options) (hpos : ∀ b r, w.regions b = some r → 0 < r.len)
    (hlied : ¬ (o.mapImpl P os f access w).2.lied) :
    Created P w (decide (access ≠ .read)) (ShowsWindow P f (w.files f).length access o) (o.mapImpl P os f access w).1 (o.mapImpl P os f access w).2 := by
  unfold Options.mapImpl at hlied ⊢
  cases hmeta : os.metadata with
  | some text => exact .failed (Quiet.refl w)
  | none =>
    cases hl : mapImplLayout P.width (w.files f).length o.offset o.len P.granularity with
    | error e => exact .failed (Quiet.refl w)
    | ok l =>
      simp only [hmeta, hl] at hlied ⊢
      obtain ⟨⟨-, -, hmax⟩, hlay⟩ := (mapImplLayout_eq P.gran_pow P.gran_lt l).1 hl
      by_cases h0 : l.len = 0
      · rw [if_pos h0]
        exact .empty rfl rfl ⟨l, hl, h0.symm, fun hc => absurd h0 hc⟩
      · rw [if_neg h0] at hlied ⊢
        have hoff : P.granularity ∣ l.alignedOffset := by rw [hlay]; exact Nat.dvd_sub_mod _
        have hmap : l.mapLen = l.delta + l.len := by rw [hlay]
        have hfit : l.mapLen ≤ P.width.maxLen := by rw [hlay]; exact hmax
        have hspec : ¬ (mapFile P os f access l w).2.lied → Created P w (decide (access ≠ .read)) (ShowsFile P f access l)
            ((mapFile P os f access l w).1.map (fun b => Mapping.fromOs b.1 l l.mapLen b.2 access.kind))
            (mapFile P os f access l w).2 := by
          unfold mapFile
          cases hw : P.windows with
          | true => exact fun h => mapFileWindows_created hw h0 hmap hfit hoff h
          | false => exact fun h => mapFileUnix_created hw hpos h0 hmap hfit hoff h
        generalize mapFile P os f access l w = res at hlied hspec ⊢
        obtain ⟨res, w'⟩ := res
        cases res with
        | error e => exact (hspec hlied).mono (fun m r hm => ⟨l, hl, hm⟩)
        | ok b => exact (hspec hlied).mono (fun m r hm => ⟨l, hl, hm⟩)

end MapFile

theorem hugeLayout_le {meminfo : Option (List Char)} {mapLen osLen : Nat} {flags : MapFlags} {flag : Bool}
    (h : hugeLayout P.width P.linux (HugePages.readHugePageSize P.width meminfo) mapLen flags = .ok (osLen, flag)) :
    mapLen ≤ osLen := by
  cases hx : (P.linux && flags.huge) with
  | false =>
    simp only [hugeLayout, hx, Bool.false_eq_true, if_false] at h
    cases h
    exact Nat.le_refl _
  | true =>
    obtain ⟨hl, hf⟩ := Bool.and_eq_true_iff.1 hx
    obtain ⟨hpow, hlt⟩ := HugePages.readHugePageSize_pow (w := P.width) meminfo
    rw [hl, hugeLayout_eq hf hpow hlt] at h
    split at h
    · cases h
      exact (Word.least_mul mapLen (Nat.pos_of_isPowerOfTwo hpow)).1.2
    · cases h

/-- **`map_anon` of the backends** maps at least what it was asked for. -/
theorem mapAnonOs_mapped (hpos : ∀ b r, w.regions b = some r → 0 < r.len) {mapLen : Nat} {flags : MapFlags} (hlen : mapLen ≠ 0)
    (hlied : ¬ (mapAnonOs P os mapLen flags w).2.lied) :
    ∃ osLen, mapLen ≤ osLen ∧ Mapped P w ⟨osLen, .anon, true, fun _ => none⟩
      ((mapAnonOs P os mapLen flags w).1.map Prod.fst) (mapAnonOs P os mapLen flags w).2 ∧
      ∀ b, (mapAnonOs P os mapLen flags w).1 = .ok b → b.2 = osLen := by
  unfold mapAnonOs at hlied ⊢
  cases hw : P.windows with
  | true =>
    simp only [hw, if_true] at hlied ⊢
    have hspec : ¬ (mapView P os ⟨mapLen, .anon, true, fun _ => none⟩ w).2.lied →
        Mapped P w ⟨mapLen, .anon, true, fun _ => none⟩ _ _ := mapView_mapped hw
    generalize mapView P os ⟨mapLen, .anon, true, fun _ => none⟩ w = res at hlied hspec ⊢
    obtain ⟨res, w'⟩ := res
    refine ⟨mapLen, Nat.le_refl _, ?_⟩
    cases res with
    | error e => exact ⟨hspec hlied, fun b hb => by cases hb⟩
    | ok base =>
      refine ⟨hspec hlied, fun b hb => ?_⟩
      cases hb
      rfl
  | false =>
    simp only [hw, Bool.false_eq_true, if_false] at hlied ⊢
    cases hhuge : hugeLayout P.width P.linux (HugePages.readHugePageSize P.width os.meminfo) mapLen flags with
    | error e => exact ⟨mapLen, Nat.le_refl _, .failed (Quiet.refl w), fun b hb => by cases hb⟩
    | ok lay =>
      obtain ⟨osLen, flag⟩ := lay
      have hle := hugeLayout_le hhuge
      cases hm : os.map with
      | error text => exact ⟨mapLen, Nat.le_refl _, .failed (Quiet.refl w), fun b hb => by cases hb⟩
      | ok base =>
        simp only [hhuge, hm] at hlied ⊢
        have hspec : ¬ (finish P base osLen (w.place P base ⟨osLen, .anon, true, fun _ => none⟩)).2.lied →
            Mapped P w ⟨osLen, .anon, true, fun _ => none⟩ _ _ := finish_mapped hpos (by simp only; omega)
        generalize finish P base osLen (w.place P base ⟨osLen, .anon, true, fun _ => none⟩) = res at hlied hspec ⊢
        obtain ⟨res, w'⟩ := res
        refine ⟨osLen, hle, ?_⟩
        cases res with
        | error e => exact ⟨hspec hlied, fun b hb => by cases hb⟩
        | ok base' =>
          refine ⟨hspec hlied, fun b hb => ?_⟩
          cases hb
          rfl

/-- The value is new memory of the length asked for. -/
def ShowsZeros (P : Platform) (o : Options) (m : Mapping) (r : Option Region) : Prop :=
  o.len.getD 0 ≤ P.width.maxLen ∧ m.len = o.len.getD 0 ∧
    (m.len ≠ 0 → m.delta = 0 ∧ ∃ osLen, r = some ⟨osLen, .anon, true, fun _ => none⟩)

/-- **`RawMmapOptions::map_anon`.** -/
theorem mapAnon_created (o : Options) (hpos : ∀ b r, w.regions b = some r → 0 < r.len)
    (hlied : ¬ (o.mapAnon P os w).2.lied) : Created P w true (ShowsZeros P o) (o.mapAnon P os w).1 (o.mapAnon P os w).2 := by
  unfold Options.mapAnon at hlied ⊢
  cases hl : layout P.width 0 (o.len.getD 0) P.granularity P.width.maxLen with
  | error e => exact .failed (Quiet.refl w)
  | ok l =>
    simp only [hl] at hlied ⊢
    obtain ⟨hmax, hlay⟩ := (layout_eq P.gran_pow P.gran_lt P.width.maxLen_lt l).1 hl
    rw [Nat.zero_mod, Nat.zero_add] at hmax hlay
    have hlen : l.len = o.len.getD 0 := by rw [hlay]
    by_cases h0 : l.len = 0
    · rw [if_pos h0]
      exact .empty rfl rfl ⟨hmax, h0.symm.trans hlen, fun hc => absurd rfl hc⟩
    · rw [if_neg h0] at hlied ⊢
      have hmap : l.mapLen = l.len := by rw [hlay]
      have hdelta : l.delta = 0 := by rw [hlay]
      have hfit : l.len ≤ P.width.maxLen := by rw [hlay]; exact hmax
      have hspec : ¬ (mapAnonOs P os l.mapLen o.flags w).2.lied → _ := mapAnonOs_mapped hpos (by omega)
      generalize mapAnonOs P os l.mapLen o.flags w = res at hlied hspec ⊢
      obtain ⟨res, w'⟩ := res
      cases res with
      | error e =>
        obtain ⟨osLen, -, hm, -⟩ := hspec hlied
        cases hm with
        | failed hq => exact .failed hq
      | ok b =>
        obtain ⟨base, osLen'⟩ := b
        obtain ⟨osLen, hle, hm, hsnd⟩ := hspec hlied
        have hos := hsnd _ rfl
        simp only at hos
        subst hos
        cases hm with
        | ok hpos' hfresh hq =>
          refine .mapped (r := ⟨osLen', .anon, true, fun _ => none⟩) ⟨hmax, hlen, fun _ => ⟨hdelta, osLen', rfl⟩⟩ h0 rfl rfl
            ⟨trivial, hdelta⟩ ?_ ?_ ?_ (fun h hh => by cases hh) ?_
          · simp only [Mapping.fromOs]
            omega
          · simp only [Mapping.fromOs]
            omega
          · rw [base_fromOs]
            exact hfresh
          · rw [base_fromOs]
            exact hq

/-! ## What the values own -/

section Values

variable {B : Type} {vals : V → Option Value} {v : V}

theorem bind_update (g : Value → Option B) (x : Option Value) :
    (fun u => (Function.update vals v x u).bind g) = Function.update (fun u => (vals u).bind g) v (x.bind g) := by
  funext u
  by_cases hu : u = v
  · rw [hu, Function.update_self, Function.update_self]
  · rw [Function.update_of_ne hu, Function.update_of_ne hu]

/-- A value that owns as much as what was there before changes nothing. -/
theorem bind_update_eq {g : Value → Option B} {x : Option Value} (h : x.bind g = (vals v).bind g) :
    (fun u => (Function.update vals v x u).bind g) = fun u => (vals u).bind g := by
  rw [bind_update, h]
  exact Function.update_eq_self v (fun u => (vals u).bind g)

theorem vals_update {x : Option Value} {u : V} {y : Value} (h : Function.update vals v x u = some y) :
    (u = v ∧ x = some y) ∨ (u ≠ v ∧ vals u = some y) := by
  by_cases hu : u = v
  · rw [hu, Function.update_self] at h
    exact Or.inl ⟨hu, h⟩
  · rw [Function.update_of_ne hu] at h
    exact Or.inr ⟨hu, h⟩

end Values

section Keep

variable {s : State V} {w' : World} {v : V} {x : Value} {m : Mapping}

omit [DecidableEq V] in
theorem Inv.positive (h : Inv P s) (b : Nat) (r : Region) (hr : s.world.regions b = some r) : 0 < r.len := by
  obtain ⟨v, hv⟩ := (h.regions.live_iff b).1 (by rw [hr]; rfl)
  obtain ⟨x, hx, hown⟩ := Option.bind_eq_some_iff.1 hv
  unfold Value.owned at hown
  split at hown
  · cases hown
  · rename_i hlen
    cases hown
    have hb := h.backed v x hx hlen
    obtain ⟨r', hr', hl, -, -⟩ := hb.region
    rw [hr] at hr'
    cases hr'
    have := hb.inside
    omega

theorem Backed.frame {isMut : Bool} (h : Backed P w isMut m) (hr : w'.regions m.base = w.regions m.base) :
    Backed P w' isMut m := by
  obtain ⟨r, hr', hrest⟩ := h.region
  exact ⟨⟨r, hr.trans hr', hrest⟩, h.inside, h.fits, h.aligned⟩

omit [DecidableEq V] in
theorem Inv.quiet (h : Inv P s) (hq : Quiet s.world w') : Inv P ⟨w', s.vals⟩ where
  regions := h.regions.keep (fun b => by rw [hq.regions])
  handles := h.handles.keep (fun b => by rw [hq.handles])
  backed := fun v x hx hlen => (h.backed v x hx hlen).frame (by rw [hq.regions])
  empty := h.empty
  apart := fun b r b' r' hb hb' => by
    simp only [hq.regions] at hb hb'
    exact h.apart b r b' r' hb hb'
  sections := hq.sections.trans h.sections
  proper := fun hm => h.proper (hq.misused.1 hm)

/-- **A new value**, out of nothing or out of what was mapped for it. -/
theorem Inv.created (h : Inv P s) (hv : s.vals v = none) {isMut : Bool} {want : Mapping → Option Region → Prop}
    {res : Except IoError Mapping} (hc : Created P s.world isMut want res w') : Inv P (s.put v isMut (res, w')) := by
  cases hc with
  | failed hq =>
    have hsame : Function.update s.vals v none = s.vals := by
      rw [← hv]
      exact Function.update_eq_self v s.vals
    simp only [State.put, hsame]
    exact h.quiet hq
  | @empty m hlen hb hwant =>
    have hown : (some (Value.mk m isMut)).bind Value.owned = (s.vals v).bind Value.owned := by
      rw [hv]
      exact if_pos hlen
    have hdup : (some (Value.mk m isMut)).bind Value.dup = (s.vals v).bind Value.dup := by
      rw [hv]
      simp [Value.dup, Backing.dup, hb]
    refine ⟨?_, ?_, fun u y hu hy => ?_, fun u y hu hy => ?_, h.apart, h.sections, h.proper⟩
    · simp only [State.put]
      rw [bind_update_eq hown]
      exact h.regions
    · simp only [State.put]
      rw [bind_update_eq hdup]
      exact h.handles
    · rcases vals_update hu with ⟨-, hc⟩ | ⟨-, hu⟩
      · cases hc
        exact absurd hlen hy
      · exact h.backed u y hu hy
    · rcases vals_update hu with ⟨-, hc⟩ | ⟨-, hu⟩
      · cases hc
        exact hb
      · exact h.empty u y hu hy
  | @mapped m r _ hwant hlen hr hwr hst hin hfit hfresh hdup hq =>
    have hvacant := Fresh.vacant h.positive hfresh (by omega)
    have hregions : w'.regions = Function.update s.world.regions m.base (some r) := by
      rw [hq.regions]
      unfold openDup
      cases m.backing.dup <;> rfl
    have hother : ∀ b, s.world.regions b ≠ none → w'.regions b = s.world.regions b := by
      intro b hb
      rw [hregions, Function.update_of_ne]
      rintro rfl
      exact hb hvacant
    refine ⟨?_, ?_, fun u y hu hy => ?_, fun u y hu hy => ?_, ?_, ?_, ?_⟩
    · simp only [State.put]
      rw [bind_update, show (some (Value.mk m isMut)).bind Value.owned = some m.base from if_neg hlen]
      refine h.regions.gain (by simp [hv]) (by simp [hvacant]) (fun b => ?_)
      rw [hregions]
      by_cases hb : b = m.base
      · simp [hb]
      · simp [hb]
    · simp only [State.put]
      rw [bind_update]
      have hhandles : w'.handles = (openDup m.backing.dup s.world).handles := hq.handles
      show OwnedOnce (Function.update (fun u => (s.vals u).bind Value.dup) v m.backing.dup) _
      cases hd : m.backing.dup with
      | none =>
        have hcur : (s.vals v).bind Value.dup = none := by rw [hv]; rfl
        rw [← hcur, Function.update_eq_self v (fun u => (s.vals u).bind Value.dup)]
        refine h.handles.keep (fun k => ?_)
        rw [hhandles, hd]
        rfl
      | some k =>
        refine h.handles.gain (by simp [hv]) (by rw [hdup k hd]; exact Bool.false_ne_true) (fun c => ?_)
        rw [hhandles, hd]
        by_cases hc : c = k
        · simp [openDup, World.openHandle, hc]
        · simp [openDup, World.openHandle, hc]
    · rcases vals_update hu with ⟨-, hc⟩ | ⟨-, hu⟩
      · cases hc
        exact ⟨⟨r, by simp only [State.put]; rw [hregions]; exact Function.update_self .., hr, hwr, hst⟩, hin, hfit, hfresh.1⟩
      · obtain ⟨r', hr', -⟩ := (h.backed u y hu hy).region
        exact (h.backed u y hu hy).frame (hother _ (by rw [hr']; exact Option.some_ne_none _))
    · rcases vals_update hu with ⟨-, hc⟩ | ⟨-, hu⟩
      · cases hc
        exact absurd hy hlen
      · exact h.empty u y hu hy
    · intro b₁ r₁ b₂ r₂ h₁ h₂ hne
      simp only [State.put] at h₁ h₂
      rw [hregions] at h₁ h₂
      by_cases hb₁ : b₁ = m.base
      · rw [Function.update_of_ne (fun hc => hne (hb₁.trans hc.symm))] at h₂
        rw [hb₁, Function.update_self] at h₁
        cases h₁
        rw [hb₁]
        exact hfresh.2.2.2 b₂ r₂ h₂
      · rw [Function.update_of_ne hb₁] at h₁
        by_cases hb₂ : b₂ = m.base
        · rw [hb₂, Function.update_self] at h₂
          cases h₂
          rw [hb₂]
          exact (hfresh.2.2.2 b₁ r₁ h₁).symm
        · rw [Function.update_of_ne hb₂] at h₂
          exact h.apart b₁ r₁ b₂ r₂ h₁ h₂ hne
    · refine hq.sections.trans (Eq.trans ?_ h.sections)
      unfold openDup
      cases m.backing.dup <;> rfl
    · intro hm
      refine h.proper ?_
      have hm' := hq.misused.1 hm
      unfold openDup at hm'
      cases hd : m.backing.dup with
      | none =>
        rw [hd] at hm'
        exact hm'
      | some k =>
        rw [hd] at hm'
        exact hm'

omit [DecidableEq V] in
/-- Another value stands on another mapping. -/
theorem Inv.others (h : Inv P s) (hv : s.vals v = some x) (hx : x.map.len ≠ 0) {u : V} {y : Value} (hu : s.vals u = some y)
    (hy : y.map.len ≠ 0) (hne : u ≠ v) : y.map.base ≠ x.map.base := by
  intro hbase
  refine hne (h.regions.unique (b := y.map.base) ?_ ?_)
  · rw [hu]
    exact if_neg hy
  · rw [hv, hbase]
    exact if_neg hx

/-- The handle of a backing is closed with it. -/
def closeDup (dup : Option Nat) (w : World) : World :=
  match dup with
  | none => w
  | some h => w.closeHandle h

theorem drop_eq (m : Mapping) (w : World) :
    m.drop P w = closeDup m.backing.dup (if m.len = 0 then w else w.unmap P m.base m.osLen) := by
  unfold Mapping.drop closeDup Backing.dup
  cases m.backing with
  | priv => rfl
  | shared dup => cases dup <;> rfl

/-- Two mappings with the same memory and handle. -/
structure SameOwn (m m' : Mapping) : Prop where
  len : m'.len = m.len
  base : m'.base = m.base
  osLen : m'.osLen = m.osLen
  delta : m'.delta = m.delta
  dup : m'.backing.dup = m.backing.dup

theorem SameOwn.refl (m : Mapping) : SameOwn m m := ⟨rfl, rfl, rfl, rfl, rfl⟩

theorem closeDup_regions (dup : Option Nat) (w : World) : (closeDup dup w).regions = w.regions := by
  cases dup <;> rfl

theorem closeDup_sections (dup : Option Nat) (w : World) : (closeDup dup w).sections = w.sections := by
  cases dup <;> rfl

/-- **A value that is dropped** takes its OS mapping and its handle with it. -/
theorem Inv.dropped (h : Inv P s) (hv : s.vals v = some x) (hm : SameOwn x.map m) :
    Inv P ⟨m.drop P s.world, Function.update s.vals v none⟩ := by
  have hdupv : (s.vals v).bind Value.dup = x.map.backing.dup := by rw [hv]; rfl
  rw [drop_eq, hm.len, hm.base, hm.osLen, hm.dup]
  -- the handle, in either case
  have hhandles : ∀ w : World, w.handles = s.world.handles →
      OwnedOnce (fun u => (Function.update s.vals v none u).bind Value.dup)
        (fun k => (closeDup x.map.backing.dup w).handles k = true) := by
    intro w hw
    rw [bind_update]
    show OwnedOnce (Function.update (fun u => (s.vals u).bind Value.dup) v none) _
    cases hd : x.map.backing.dup with
    | none =>
      rw [← hd, ← hdupv, Function.update_eq_self v (fun u => (s.vals u).bind Value.dup)]
      exact h.handles.keep (fun k => by rw [hdupv, hd]; simp only [closeDup, hw])
    | some k =>
      refine h.handles.lose (b := k) (by rw [← hd]; exact hdupv) (fun c => ?_)
      by_cases hc : c = k
      · simp [closeDup, World.closeHandle, hc]
      · simp [closeDup, World.closeHandle, hc, hw]
  have hmisused : ∀ w : World, w.handles = s.world.handles → ¬ w.misused → ¬ (closeDup x.map.backing.dup w).misused := by
    intro w hw hmis
    cases hd : x.map.backing.dup with
    | none => exact hmis
    | some k =>
      have hopen : s.world.handles k = true := (h.handles.live_iff k).2 ⟨v, by rw [← hd]; exact hdupv⟩
      simp [closeDup, World.closeHandle, hw, hopen, hmis]
  have hempty : ∀ u y, Function.update s.vals v none u = some y → y.map.len = 0 → y.map.backing = .priv := by
    intro u y hu hy
    rcases vals_update hu with ⟨-, hc⟩ | ⟨-, hu⟩
    · cases hc
    · exact h.empty u y hu hy
  by_cases hlen : x.map.len = 0
  · rw [if_pos hlen]
    refine ⟨?_, hhandles _ rfl, fun u y hu hy => ?_, hempty, ?_, ?_, hmisused _ rfl h.proper⟩
    · simp only [closeDup_regions]
      rw [bind_update_eq (by rw [hv]; exact (if_pos hlen).symm)]
      exact h.regions
    · rcases vals_update hu with ⟨-, hc⟩ | ⟨-, hu⟩
      · cases hc
      · exact (h.backed u y hu hy).frame (by rw [closeDup_regions])
    · simp only [closeDup_regions]
      exact h.apart
    · simp only [closeDup_sections]
      exact h.sections
  · rw [if_neg hlen]
    obtain ⟨r, hr, hrl, -⟩ := (h.backed v x hv hlen).region
    have hownv : (s.vals v).bind Value.owned = some x.map.base := by rw [hv]; exact if_neg hlen
    refine ⟨?_, hhandles _ rfl, fun u y hu hy => ?_, hempty, ?_, ?_, hmisused _ rfl ?_⟩
    · simp only [closeDup_regions]
      rw [bind_update]
      refine h.regions.lose hownv (fun c => ?_)
      by_cases hc : c = x.map.base
      · simp [World.unmap, hc]
      · simp [World.unmap, hc]
    · rcases vals_update hu with ⟨-, hc⟩ | ⟨hne, hu⟩
      · cases hc
      · refine (h.backed u y hu hy).frame ?_
        rw [closeDup_regions]
        exact Function.update_of_ne (h.others hv hlen hu hy hne) ..
    · intro b₁ r₁ b₂ r₂ h₁ h₂ hne
      simp only [closeDup_regions, World.unmap] at h₁ h₂
      have hb₁ : b₁ ≠ x.map.base := by
        rintro rfl
        rw [Function.update_self] at h₁
        cases h₁
      have hb₂ : b₂ ≠ x.map.base := by
        rintro rfl
        rw [Function.update_self] at h₂
        cases h₂
      rw [Function.update_of_ne hb₁] at h₁
      rw [Function.update_of_ne hb₂] at h₂
      exact h.apart b₁ r₁ b₂ r₂ h₁ h₂ hne
    · simp only [closeDup_sections]
      exact h.sections
    · simp only [World.unmap, not_or, not_not]
      exact ⟨h.proper, r, hr, fun _ => hrl⟩

/-- **`protect`** on a value that owns its mapping: it stands on it as before, with the protection asked for, or it is gone
with it. -/
theorem Inv.protected (h : Inv P s) (prot : Protection) (hv : s.vals v = some x) (hm : SameOwn x.map m)
    (hempty : m.len = 0 → m.backing = .priv)
    (hst : ∀ r, s.world.regions x.map.base = some r → x.map.len ≠ 0 → Stands P x.map.kind x.map.backing r.source →
      Stands P m.kind m.backing r.source ∧ (P.windows = true → r.source.Admits prot)) :
    Inv P (s.put v (prot.writes) (m.protect P os prot s.world)) := by
  unfold Mapping.protect
  by_cases hlen : m.len = 0
  · -- nothing is mapped: only the type changes
    rw [if_pos hlen]
    have hlenx : x.map.len = 0 := hm.len ▸ hlen
    refine ⟨?_, ?_, fun u y hu hy => ?_, fun u y hu hy => ?_, h.apart, h.sections, h.proper⟩
    · simp only [State.put]
      rw [bind_update_eq (by rw [hv]; exact (if_pos hlen).trans (if_pos hlenx).symm)]
      exact h.regions
    · simp only [State.put]
      rw [bind_update_eq (by rw [hv]; exact hm.dup)]
      exact h.handles
    · rcases vals_update hu with ⟨-, hc⟩ | ⟨-, hu⟩
      · cases hc
        exact absurd hlen hy
      · exact h.backed u y hu hy
    · rcases vals_update hu with ⟨-, hc⟩ | ⟨-, hu⟩
      · cases hc
        exact hempty hlen
      · exact h.empty u y hu hy
  · rw [if_neg hlen]
    have hlenx : x.map.len ≠ 0 := hm.len ▸ hlen
    have hb := h.backed v x hv hlenx
    obtain ⟨r, hr, hrl, -, hstand, hsite⟩ := hb.region
    obtain ⟨hstand', hadmits⟩ := hst r hr hlenx hstand
    have hok : ∃ r, s.world.regions m.base = some r ∧ r.len = m.osLen ∧ (P.windows = true → r.source.Admits prot) :=
      ⟨r, by rw [hm.base]; exact hr, by rw [hm.osLen]; exact hrl, hadmits⟩
    have hquiet := h.quiet (Quiet.check (w := s.world) hok)
    unfold protectOs
    cases hprot : os.protect with
    | some text => exact hquiet.dropped hv hm
    | none =>
      have hregion : (s.world.regions m.base).map (fun r => { r with writable := prot.writes }) =
          some { r with writable := prot.writes } := by
        rw [hm.base, hr]
        rfl
      simp only [State.put, World.check, hregion]
      refine ⟨?_, ?_, fun u y hu hy => ?_, fun u y hu hy => ?_, ?_, h.sections, hquiet.proper⟩
      · rw [bind_update_eq (by
          rw [hv]
          exact (if_neg hlen).trans ((congrArg some hm.base).trans (if_neg hlenx).symm))]
        refine h.regions.keep (fun b => ?_)
        by_cases hb' : b = m.base
        · simp [hb', hm.base, hr]
        · simp [hb']
      · rw [bind_update_eq (by rw [hv]; exact hm.dup)]
        exact h.handles
      · rcases vals_update hu with ⟨-, hc⟩ | ⟨hne, hu⟩
        · cases hc
          refine ⟨⟨_, Function.update_self .., by rw [← hm.osLen] at hrl; exact hrl, rfl, hstand',
            by rw [hm.delta]; exact hsite⟩, ?_, ?_, ?_⟩
          · rw [hm.len, hm.osLen, hm.delta]
            exact hb.inside
          · rw [hm.len, hm.delta]
            exact hb.fits
          · rw [hm.base]
            exact hb.aligned
        · refine (h.backed u y hu hy).frame (Function.update_of_ne ?_ ..)
          rw [hm.base]
          exact h.others hv hlenx hu hy hne
      · rcases vals_update hu with ⟨-, hc⟩ | ⟨-, hu⟩
        · cases hc
          exact absurd hy hlen
        · exact h.empty u y hu hy
      · -- the mapping keeps its place and its length
        have hold : ∀ b r', Function.update s.world.regions m.base (some { r with writable := prot.writes }) b =
            some r' → ∃ r'', s.world.regions b = some r'' ∧ r''.len = r'.len := by
          intro b r' hb'
          by_cases hbm : b = m.base
          · rw [hbm, Function.update_self] at hb'
            cases hb'
            exact ⟨r, by rw [hbm, hm.base]; exact hr, rfl⟩
          · rw [Function.update_of_ne hbm] at hb'
            exact ⟨r', hb', rfl⟩
        intro b₁ r₁ b₂ r₂ h₁ h₂ hne
        obtain ⟨r₁', h₁', hl₁⟩ := hold b₁ r₁ h₁
        obtain ⟨r₂', h₂', hl₂⟩ := hold b₂ r₂ h₂
        have := h.apart b₁ r₁' b₂ r₂' h₁' h₂' hne
        omega

omit [DecidableEq V] in
/-- **What `make_mut` does** with a value: it drops it, or changes the protection of a mapping that admits it. -/
theorem Inv.intoWritable_cases (h : Inv P s) (hv : s.vals v = some x) (os : Answers) :
    (∃ e, x.map.intoWritable P os s.world = (.error e, x.map.drop P s.world)) ∨
      ∃ m prot, x.map.intoWritable P os s.world = m.protect P os prot s.world ∧ prot.writes = true ∧ SameOwn x.map m ∧
        (m.len = 0 → m.backing = .priv) ∧
        ∀ r, s.world.regions x.map.base = some r → x.map.len ≠ 0 → Stands P x.map.kind x.map.backing r.source →
          Stands P m.kind m.backing r.source ∧ (P.windows = true → r.source.Admits prot) := by
  have hempty : x.map.len = 0 → x.map.backing = .priv := h.empty v x hv
  unfold Mapping.intoWritable
  cases hk : x.map.kind with
  | read =>
    by_cases hlen : x.map.len = 0
    · rw [if_pos hlen]
      exact Or.inr ⟨{ x.map with kind := .write }, .readWrite, rfl, rfl, ⟨rfl, rfl, rfl, rfl, rfl⟩, hempty,
        fun r _ hne => absurd hlen hne⟩
    · rw [if_neg hlen]
      unfold Mapping.markSharedWritable
      cases hw : P.windows with
      | true => exact Or.inl ⟨_, rfl⟩
      | false =>
        rw [if_neg Bool.false_ne_true]
        obtain ⟨r₀, -, -, -, hst₀, -⟩ := (h.backed v x hv hlen).region
        have hpriv : x.map.backing = .priv := by
          rw [hk] at hst₀
          exact hst₀.read.1
        refine Or.inr ⟨{ x.map with backing := .shared none, kind := .write }, .readWrite, rfl, rfl,
          ⟨rfl, rfl, rfl, rfl, by rw [hpriv]; rfl⟩, fun hl => absurd hl hlen, fun r _ _ hst => ?_⟩
        obtain ⟨-, f, offset, hsrc⟩ := hst.read
        rw [hsrc, hw]
        exact ⟨⟨rfl, by rw [hw]; rfl⟩, fun _ => trivial⟩
  | write =>
    refine Or.inr ⟨x.map, .readWrite, rfl, rfl, SameOwn.refl _, hempty, fun r _ _ hst => ⟨by rw [hk]; exact hst, fun _ => ?_⟩⟩
    obtain ⟨-, f, offset, hsrc⟩ := hst.write
    rw [hsrc]
    trivial
  | anon =>
    refine Or.inr ⟨x.map, .readWrite, rfl, rfl, SameOwn.refl _, hempty, fun r _ _ hst => ⟨by rw [hk]; exact hst, fun _ => ?_⟩⟩
    rw [hst.anon.2]
    trivial
  | copy =>
    refine Or.inr ⟨x.map, .writeCopy, rfl, rfl, SameOwn.refl _, hempty, fun r _ _ hst => ⟨by rw [hk]; exact hst, fun _ => ?_⟩⟩
    obtain ⟨-, f, offset, hsrc⟩ := hst.copy
    rw [hsrc]
    trivial

/-- **`make_mut`.** -/
theorem Inv.intoWritable (h : Inv P s) (hv : s.vals v = some x) (os : Answers) :
    Inv P (s.put v true (x.map.intoWritable P os s.world)) := by
  rcases h.intoWritable_cases hv os with ⟨e, heq⟩ | ⟨m, prot, heq, hprot, hm, hempty, hst⟩
  · rw [heq]
    exact h.dropped hv (SameOwn.refl _)
  · rw [heq, ← hprot]
    exact h.protected prot hv hm hempty hst

/-- **`make_read_only`.** -/
theorem Inv.makeReadOnly (h : Inv P s) (hv : s.vals v = some x) :
    Inv P (s.put v false (x.map.protect P os .readOnly s.world)) :=
  h.protected .readOnly hv (SameOwn.refl _) (h.empty v x hv)
    (fun r _ _ hst => ⟨hst, fun _ => by cases r.source <;> trivial⟩)

/-! ## Ranges of a value -/

/-- **What a value hands to the OS** of itself is page-aligned and inside its mapping. -/
theorem Backed.span (hpage : P.page ∣ P.granularity) {isMut : Bool} (h : Backed P w isMut m) {offset len addr count : Nat}
    (hs : m.span P offset len = .ok (some (addr, count))) {ok : Region → Prop}
    (hok : ∀ r, Stands P m.kind m.backing r.source → ok r) : w.InOne P addr count ok := by
  unfold Mapping.span at hs
  rw [flushSpan_eq h.fits P.page_pow P.page_lt] at hs
  obtain ⟨r, hr, hrl, -, hst, -⟩ := h.region
  have hin := h.inside
  obtain ⟨hdvd, hle, -⟩ := round_down (m.delta + offset) (Nat.pos_of_isPowerOfTwo P.page_pow)
  split_ifs at hs with h₁ h₂ h₃
  · cases hs
  · cases hs
    exact ⟨Nat.dvd_add (hpage.trans h.aligned) hdvd, by omega, m.base, r, hr, by omega, by omega, hok r hst⟩

/-- An empty value hands nothing to the OS. -/
theorem span_empty (hlen : m.len = 0) {offset len addr count : Nat} : m.span P offset len ≠ .ok (some (addr, count)) := by
  intro hs
  unfold Mapping.span flushSpan at hs
  rw [hlen] at hs
  cases offset with
  | zero =>
    rw [checkedSub_of_le (Nat.le_refl 0)] at hs
    simp only [okOr_some, bind, Except.bind] at hs
    by_cases h0 : len = 0
    · rw [if_neg (by omega), if_pos h0] at hs
      cases hs
    · rw [if_pos (by omega)] at hs
      cases hs
  | succ offset =>
    rw [checkedSub_of_lt (Nat.succ_pos _)] at hs
    cases hs

omit [DecidableEq V] in
theorem Inv.span (h : Inv P s) (hpage : P.page ∣ P.granularity) (hv : s.vals v = some x) {offset len addr count : Nat}
    (hs : x.map.span P offset len = .ok (some (addr, count))) {ok : Region → Prop}
    (hok : ∀ r, Stands P x.map.kind x.map.backing r.source → ok r) : s.world.InOne P addr count ok :=
  (h.backed v x hv (fun hlen => span_empty hlen hs)).span hpage hs hok

omit [DecidableEq V] in
/-- **`flush`** writes back file pages, through a handle that is open. -/
theorem Inv.flush_quiet (h : Inv P s) (hpage : P.page ∣ P.granularity) (hv : s.vals v = some x) (offset len : Nat)
    (mode : FlushMode) (os : Answers) : Quiet s.world (x.map.flush P os offset len mode s.world).2 := by
  unfold Mapping.flush
  cases hs : x.map.span P offset len with
  | error e => exact Quiet.refl _
  | ok span =>
    cases span with
    | none => exact Quiet.refl _
    | some span =>
      obtain ⟨addr, count⟩ := span
      simp only [flushOs]
      cases hb : x.map.backing with
      | priv => exact Quiet.refl _
      | shared dup =>
        have hin : s.world.InOne P addr count (fun r => ∃ f offset rw, r.source = .file f offset rw) := by
          refine h.span hpage hv hs (fun r hst => ?_)
          rw [hb] at hst
          exact hst.shared
        have hq := Quiet.check (w := s.world) hin
        cases hf : os.flush with
        | some text => exact hq
        | none =>
          cases dup with
          | none => exact hq
          | some k =>
            cases mode with
            | async => exact hq
            | sync =>
              have hopen : s.world.handles k = true :=
                (h.handles.live_iff k).2 ⟨v, by rw [hv]; simp [Value.dup, Backing.dup, hb]⟩
              simp only
              cases os.syncData with
              | none => exact hq.trans (Quiet.check hopen)
              | some text => exact hq.trans (Quiet.check hopen)

omit [DecidableEq V] in
/-- **`advise`** never discards private pages. -/
theorem Inv.advise_quiet (h : Inv P s) (hpage : P.page ∣ P.granularity) (hv : s.vals v = some x) (advice : MmapAdvice)
    (offset len : Nat) (os : Answers) : Quiet s.world (x.map.advise P os advice offset len s.world).2 := by
  unfold Mapping.advise
  cases hs : x.map.span P offset len with
  | error e => exact Quiet.refl _
  | ok span =>
    simp only
    split
    · exact Quiet.refl _
    · rename_i hkind
      cases span with
      | none => exact Quiet.refl _
      | some span =>
        obtain ⟨addr, count⟩ := span
        simp only [adviseOs]
        split
        · exact Quiet.refl _
        · have hin : s.world.InOne P addr count (fun r => advice = .dontNeed → ∃ f offset rw, r.source = .file f offset rw) :=
            h.span hpage hv hs (fun r hst hadv => hst.notPrivate (fun hp => hkind ⟨hadv, hp⟩))
          cases os.advise with
          | none => exact Quiet.check hin
          | some text => exact Quiet.check hin

omit [DecidableEq V] in
theorem Inv.lock_quiet (h : Inv P s) (hpage : P.page ∣ P.granularity) (hv : s.vals v = some x) (lock : Bool)
    (os : Answers) :
    Quiet s.world (x.map.lock P os lock s.world).2 := by
  unfold Mapping.lock
  cases hs : x.map.span P 0 x.map.len with
  | error e => exact Quiet.refl _
  | ok span =>
    cases span with
    | none => exact Quiet.refl _
    | some span =>
      obtain ⟨addr, count⟩ := span
      have hin : s.world.InOne P addr count (fun _ => True) := h.span hpage hv hs (fun _ _ => trivial)
      have hq := Quiet.check (w := s.world) hin
      simp only [lockOs]
      cases os.lock with
      | none => exact hq
      | some e =>
        simp only
        split
        · exact hq
        · exact hq

/-! ## Stores -/

/-- What is known of a mapping without its bytes. -/
def Region.shape (r : Region) : Nat × Source × Bool := (r.len, r.source, r.writable)

/-- Only contents differ. -/
structure Alike (w w' : World) : Prop where
  regions : ∀ b, (w'.regions b).map Region.shape = (w.regions b).map Region.shape
  handles : w'.handles = w.handles
  sections : w'.sections = w.sections
  misused : w'.misused ↔ w.misused

theorem Alike.region (h : Alike w w') {b : Nat} (hr : w.regions b = some r) :
    ∃ r', w'.regions b = some r' ∧ r'.len = r.len ∧ r'.source = r.source ∧ r'.writable = r.writable := by
  have hshape := h.regions b
  rw [hr] at hshape
  cases hr' : w'.regions b with
  | none =>
    rw [hr'] at hshape
    cases hshape
  | some r' =>
    rw [hr'] at hshape
    simp only [Option.map_some, Option.some.injEq, Region.shape, Prod.mk.injEq] at hshape
    exact ⟨r', rfl, hshape.1, hshape.2.1, hshape.2.2⟩

theorem Alike.symm (h : Alike w w') : Alike w' w :=
  ⟨fun b => (h.regions b).symm, h.handles.symm, h.sections.symm, h.misused.symm⟩

omit [DecidableEq V] in
theorem Inv.alike (h : Inv P s) (ha : Alike s.world w') : Inv P ⟨w', s.vals⟩ where
  regions := h.regions.keep (fun b => by rw [← Option.isSome_map, ha.regions b, Option.isSome_map])
  handles := h.handles.keep (fun b => by rw [ha.handles])
  backed := fun v x hx hlen => by
    have hb := h.backed v x hx hlen
    obtain ⟨r, hr, hl, hw, hst⟩ := hb.region
    obtain ⟨r', hr', hl', hs', hw'⟩ := ha.region hr
    exact ⟨⟨r', hr', hl'.trans hl, hw'.trans hw, by rw [hs']; exact hst⟩, hb.inside, hb.fits, hb.aligned⟩
  empty := h.empty
  apart := fun b₁ r₁ b₂ r₂ h₁ h₂ hne => by
    obtain ⟨q₁, hq₁, hl₁, -⟩ := ha.symm.region h₁
    obtain ⟨q₂, hq₂, hl₂, -⟩ := ha.symm.region h₂
    have := h.apart b₁ q₁ b₂ q₂ hq₁ hq₂ hne
    omega
  sections := ha.sections.trans h.sections
  proper := fun hm => h.proper (ha.misused.1 hm)

/-- **A store** changes bytes. -/
theorem store_alike {base off : Nat} {b : UInt8} (h : w.store P base off b = some w') : Alike w w' := by
  unfold World.store at h
  cases hr : w.regions base with
  | none =>
    rw [hr] at h
    cases h
  | some r =>
    rw [hr] at h
    simp only at h
    have hpage : ∀ own, Alike w { w with regions := Function.update w.regions base (some { r with own := own }) } := by
      refine fun own => ⟨fun c => ?_, rfl, rfl, Iff.rfl⟩
      by_cases hc : c = base
      · simp [hc, hr, Region.shape]
      · simp [hc]
    split at h
    · split at h
      · split at h
        · cases h
          exact ⟨fun _ => rfl, rfl, rfl, Iff.rfl⟩
        · cases h
      · cases h
        exact hpage _
      · cases h
        exact hpage _
    · cases h

end Keep

/-! ## An OS that broke its contract stays known -/

section Lied

variable {m : Mapping} {f : Nat} {access : Access}

theorem mapView_lied (h : w.lied) : (mapView P os r w).2.lied := by
  unfold mapView
  split
  · exact h
  · split
    · exact h
    · simp only
      split <;> exact Or.inl h

theorem finish_lied {base len : Nat} (h : w.lied) : (finish P base len w).2.lied := by
  unfold finish
  split <;> exact h

theorem mapFile_lied {l : Layout} (h : w.lied) : (mapFile P os f access l w).2.lied := by
  unfold mapFile
  split
  · unfold mapFileWindows
    split
    · split
      · exact h
      · rename_i k _
        have hv : (mapView P os (regionOf P f .write l) (w.openHandle k)).2.lied := mapView_lied (Or.inl h)
        split <;> simp_all [World.closeHandle]
    · have hv : (mapView P os (regionOf P f .read l) w).2.lied := mapView_lied h
      split <;> simp_all
    · have hv : (mapView P os (regionOf P f .copy l) w).2.lied := mapView_lied h
      split <;> simp_all
  · unfold mapFileUnix
    split
    · exact h
    · split
      · exact h
      · rename_i base _
        have hf : (finish P base l.mapLen (w.place P base (regionOf P f access l))).2.lied := finish_lied (Or.inl h)
        split <;> simp_all

theorem mapImpl_lied (o : Options) (h : w.lied) : (o.mapImpl P os f access w).2.lied := by
  unfold Options.mapImpl
  split
  · exact h
  · split
    · exact h
    · rename_i l _
      split
      · exact h
      · have hm : (mapFile P os f access l w).2.lied := mapFile_lied h
        split <;> simp_all

theorem mapAnonOs_lied {mapLen : Nat} {flags : MapFlags} (h : w.lied) : (mapAnonOs P os mapLen flags w).2.lied := by
  unfold mapAnonOs
  split
  · have hv : (mapView P os ⟨mapLen, .anon, true, fun _ => none⟩ w).2.lied := mapView_lied h
    split <;> simp_all
  · split
    · exact h
    · rename_i osLen _ _
      split
      · exact h
      · rename_i base _
        have hf : (finish P base osLen (w.place P base ⟨osLen, .anon, true, fun _ => none⟩)).2.lied := finish_lied (Or.inl h)
        split <;> simp_all

theorem mapAnon_lied (o : Options) (h : w.lied) : (o.mapAnon P os w).2.lied := by
  unfold Options.mapAnon
  split
  · exact h
  · rename_i l _
    split
    · exact h
    · have hm : (mapAnonOs P os l.mapLen o.flags w).2.lied := mapAnonOs_lied h
      split <;> simp_all

theorem drop_lied (h : w.lied) : (m.drop P w).lied := by
  have hw : (if m.len = 0 then w else w.unmap P m.base m.osLen).lied := by
    split <;> exact h
  unfold Mapping.drop
  simp only
  split <;> exact hw

theorem protect_lied {prot : Protection} (h : w.lied) : (m.protect P os prot w).2.lied := by
  unfold Mapping.protect protectOs
  split
  · exact h
  · cases os.protect with
    | none => exact h
    | some text => exact drop_lied h

theorem intoWritable_lied (h : w.lied) : (m.intoWritable P os w).2.lied := by
  unfold Mapping.intoWritable
  split
  · split
    · exact drop_lied h
    · exact protect_lied h
  · exact protect_lied h
  · exact protect_lied h
  · exact protect_lied h

theorem flush_lied {offset len : Nat} {mode : FlushMode} (h : w.lied) : (m.flush P os offset len mode w).2.lied := by
  unfold Mapping.flush
  split
  · exact h
  · exact h
  · unfold flushOs
    split
    · exact h
    · simp only
      split
      · exact h
      · split
        · split <;> exact h
        · exact h

theorem advise_lied {advice : MmapAdvice} {offset len : Nat} (h : w.lied) : (m.advise P os advice offset len w).2.lied := by
  unfold Mapping.advise
  split
  · exact h
  · split
    · exact h
    · split
      · exact h
      · unfold adviseOs
        split
        · exact h
        · simp only
          split <;> exact h

theorem lock_lied {lock : Bool} (h : w.lied) : (m.lock P os lock w).2.lied := by
  unfold Mapping.lock
  split
  · exact h
  · exact h
  · unfold lockOs
    simp only
    split
    · exact h
    · split <;> exact h

theorem store_lied {base off : Nat} {b : UInt8} {w' : World} (hs : w.store P base off b = some w') (h : w.lied) : w'.lied := by
  unfold World.store at hs
  split at hs
  · cases hs
  · split at hs
    · split at hs
      · split at hs
        · cases hs
          exact h
        · cases hs
      · cases hs
        exact h
      · cases hs
        exact h
    · cases hs

end Lied

/-! ## Runs -/

section Runs

variable {s s' : State V} {a : Act V}

theorem put_world (v : V) (isMut : Bool) (res : Except IoError Mapping × World) : (s.put v isMut res).world = res.2 := by
  obtain ⟨res, w⟩ := res
  cases res <;> rfl

theorem step_lied (hs : step P s a = some s') (h : s.world.lied) : s'.world.lied := by
  cases a with
  | map v access o f os =>
    simp only [step] at hs
    split at hs
    · cases hs
      rw [put_world]
      exact mapImpl_lied o h
    · cases hs
  | mapAnon v o os =>
    simp only [step] at hs
    split at hs
    · cases hs
      rw [put_world]
      exact mapAnon_lied o h
    · cases hs
  | makeMut v os =>
    simp only [step] at hs
    split at hs
    · cases hs
      rw [put_world]
      exact intoWritable_lied h
    · cases hs
  | makeReadOnly v os =>
    simp only [step] at hs
    split at hs
    · cases hs
      rw [put_world]
      exact protect_lied h
    · cases hs
  | drop v =>
    obtain ⟨x, -, rfl⟩ := Option.map_eq_some_iff.1 hs
    exact drop_lied h
  | flush v offset len mode os =>
    simp only [step] at hs
    split at hs
    · cases hs
      exact flush_lied h
    · cases hs
  | advise v advice offset len os =>
    obtain ⟨x, -, rfl⟩ := Option.map_eq_some_iff.1 hs
    exact advise_lied h
  | lock v lock os =>
    obtain ⟨x, -, rfl⟩ := Option.map_eq_some_iff.1 hs
    exact lock_lied h
  | store v i b =>
    simp only [step] at hs
    split at hs
    · split at hs
      · obtain ⟨w', hw', rfl⟩ := Option.map_eq_some_iff.1 hs
        exact store_lied hw' h
      · cases hs
    · cases hs
  | setLen f n =>
    cases hs
    exact h

/-- **Every call keeps ownership**, whatever the OS answers. -/
theorem step_inv (hpage : P.page ∣ P.granularity) (h : Inv P s) (hs : step P s a = some s') (hlied : ¬ s'.world.lied) :
    Inv P s' := by
  cases a with
  | map v access o f os =>
    simp only [step] at hs
    split at hs
    · rename_i hv
      cases hs
      rw [put_world] at hlied
      exact h.created hv (mapImpl_created o h.positive hlied)
    · cases hs
  | mapAnon v o os =>
    simp only [step] at hs
    split at hs
    · rename_i hv
      cases hs
      rw [put_world] at hlied
      exact h.created hv (mapAnon_created o h.positive hlied)
    · cases hs
  | makeMut v os =>
    simp only [step] at hs
    split at hs
    · rename_i m hv
      cases hs
      exact h.intoWritable hv os
    · cases hs
  | makeReadOnly v os =>
    simp only [step] at hs
    split at hs
    · rename_i m hv
      cases hs
      exact h.makeReadOnly hv
    · cases hs
  | drop v =>
    obtain ⟨x, hv, rfl⟩ := Option.map_eq_some_iff.1 hs
    exact h.dropped hv (SameOwn.refl _)
  | flush v offset len mode os =>
    simp only [step] at hs
    split at hs
    · rename_i m hv
      cases hs
      exact h.quiet (h.flush_quiet hpage hv offset len mode os)
    · cases hs
  | advise v advice offset len os =>
    obtain ⟨x, hv, rfl⟩ := Option.map_eq_some_iff.1 hs
    exact h.quiet (h.advise_quiet hpage hv advice offset len os)
  | lock v lock os =>
    obtain ⟨x, hv, rfl⟩ := Option.map_eq_some_iff.1 hs
    exact h.quiet (h.lock_quiet hpage hv lock os)
  | store v i b =>
    simp only [step] at hs
    split at hs
    · split at hs
      · obtain ⟨w', hw', rfl⟩ := Option.map_eq_some_iff.1 hs
        exact h.alike (store_alike hw')
      · cases hs
    · cases hs
  | setLen f n =>
    cases hs
    exact h.alike ⟨fun _ => rfl, rfl, rfl, Iff.rfl⟩

omit [DecidableEq V] in
theorem inv_init (files : Nat → List UInt8) : Inv P (init files : State V) where
  regions := ⟨fun b => by simp [init], fun hv => by simp [init] at hv⟩
  handles := ⟨fun b => by simp [init], fun hv => by simp [init] at hv⟩
  backed := fun v x hx => by cases hx
  empty := fun v x hx => by cases hx
  apart := fun b r b' r' hb => by cases hb
  sections := rfl
  proper := id

theorem inv_run (hpage : P.page ∣ P.granularity) {files : Nat → List UInt8} {acts : List (Act V)}
    (hrun : Machine.run (step P) (init files) acts = some s) (hlied : ¬ s.world.lied) : Inv P s := by
  refine Machine.run_induction (fun _ t => ¬ t.world.lied → Inv P t) (fun _ => inv_init files) ?_ acts s hrun hlied
  intro as a t t' _ ih hstep hlied'
  exact step_inv hpage (ih (fun hl => hlied' (step_lied hstep hl))) hstep hlied'

/-- **Ownership of the raw layer's resources.**  After any run, whatever the OS answered, each live OS mapping belongs to one
value: it is exactly as long as the value will unmap, covers its window and is writable when the value is; no two overlap.
The same holds of the duplicated handles, no section is left open, and every call that was made met the OS's contract. -/
theorem raw_ownership (P : Platform) (hpage : P.page ∣ P.granularity) (files : Nat → List UInt8) (acts : List (Act V))
    (t : State V) (hrun : Machine.run (step P) (init files) acts = some t) (hos : ¬ t.world.lied) :
    (∀ b r, t.world.regions b = some r → ∃ v x, t.vals v = some x ∧ x.map.len ≠ 0 ∧ x.map.base = b ∧ r.len = x.map.osLen ∧
      x.map.delta + x.map.len ≤ r.len ∧ r.writable = x.isMut ∧
      ∀ u y, t.vals u = some y → y.map.len ≠ 0 → y.map.base = b → u = v) ∧
    (∀ v x, t.vals v = some x → x.map.len ≠ 0 → ∃ r, t.world.regions x.map.base = some r) ∧
    (∀ b r b' r', t.world.regions b = some r → t.world.regions b' = some r' → b ≠ b' →
      b + r.len ≤ b' ∨ b' + r'.len ≤ b) ∧
    (∀ k, t.world.handles k = true ↔ ∃ v x, t.vals v = some x ∧ x.map.backing = .shared (some k)) ∧
    (∀ v u x y k, t.vals v = some x → t.vals u = some y → x.map.backing = .shared (some k) →
      y.map.backing = .shared (some k) → v = u) ∧
    t.world.sections = 0 ∧ ¬ t.world.misused := by
  have h := inv_run hpage hrun hos
  have hdup : ∀ v x k, t.vals v = some x → (x.map.backing = .shared (some k) ↔ (t.vals v).bind Value.dup = some k) := by
    intro v x k hv
    rw [hv]
    simp only [Option.bind_some, Value.dup]
    cases x.map.backing <;> simp [Backing.dup]
  refine ⟨fun b r hr => ?_, fun v x hv hlen => ?_, h.apart, fun k => ?_, fun v u x y k hv hu hx hy => ?_, h.sections, h.proper⟩
  · obtain ⟨v, hv⟩ := (h.regions.live_iff b).1 (by rw [hr]; rfl)
    obtain ⟨x, hx, hown⟩ := Option.bind_eq_some_iff.1 hv
    unfold Value.owned at hown
    split at hown
    · cases hown
    · rename_i hlen
      cases hown
      have hb := h.backed v x hx hlen
      obtain ⟨r', hr', hl, hw, -⟩ := hb.region
      rw [hr] at hr'
      cases hr'
      refine ⟨v, x, hx, hlen, rfl, hl, hl ▸ hb.inside, hw, fun u y hu hy hbase => ?_⟩
      refine h.regions.unique (b := x.map.base) ?_ hv
      rw [hu, ← hbase]
      exact if_neg hy
  · obtain ⟨r, hr, -⟩ := (h.backed v x hv hlen).region
    exact ⟨r, hr⟩
  · refine (h.handles.live_iff k).trans ⟨?_, ?_⟩
    · rintro ⟨v, hv⟩
      obtain ⟨x, hx, -⟩ := Option.bind_eq_some_iff.1 hv
      exact ⟨v, x, hx, (hdup v x k hx).2 hv⟩
    · rintro ⟨v, x, hx, hk⟩
      exact ⟨v, (hdup v x k hx).1 hk⟩
  · exact h.handles.unique ((hdup v x k hv).1 hx) ((hdup u y k hu).1 hy)

end Runs

/-- Every call succeeds but, maybe, the last kind. -/
def obliging (base handle : Nat) (protect : Option String) : Answers :=
  ⟨none, none, .ok handle, none, .ok base, protect, none, none, none, none⟩

/-- Two views of one file on Windows; one is flushed and then cannot be made read-only. -/
def failedConversion : List (Act Bool) :=
  [.map true .write ⟨0, none, ⟨false, false⟩⟩ 0 (obliging 65536 7 none),
   .map false .read ⟨1, none, ⟨false, false⟩⟩ 0 (obliging 131072 8 none),
   .flush true 0 3 .sync (obliging 0 0 none),
   .makeReadOnly true (obliging 0 0 (some "access denied"))]

theorem raw_ownership_failedConversion : ∃ t : State Bool,
    Machine.run (step windows64) (init (fun _ => [1, 2, 3])) failedConversion = some t ∧ t.vals true = none ∧
      t.world.regions 65536 = none ∧ (∃ r, t.world.regions 131072 = some r) ∧ t.world.handles 7 = false ∧
      t.world.sections = 0 ∧ ¬ t.world.misused := by
  obtain ⟨t, ht⟩ : ∃ t, Machine.run (step windows64) (init (fun _ => [1, 2, 3])) failedConversion = some t := ⟨_, rfl⟩
  have hlied : ¬ t.world.lied := by
    cases ht
    rintro (((h | h) | h) | h)
    · exact h
    · cases h
    · refine h ⟨by decide, by decide, fun _ => by decide, fun b r hr => ?_⟩
      cases hr
    · refine h ⟨by decide, by decide, fun _ => by decide, fun b r hr => ?_⟩
      by_cases hb : b = 65536
      · subst hb
        cases hr
        right
        decide
      · change Function.update (fun _ => none) 65536 _ b = some r at hr
        rw [Function.update_of_ne hb] at hr
        cases hr
  obtain ⟨-, hlive, -, -, -, hsec, hproper⟩ := raw_ownership windows64 (by decide) _ _ t ht hlied
  refine ⟨t, ht, ?_, ?_, ?_, ?_, hsec, hproper⟩
  · cases ht
    rfl
  · cases ht
    rfl
  · cases ht
    exact hlive false _ rfl (by decide)
  · cases ht
    rfl

end Raw
end MmapIo
