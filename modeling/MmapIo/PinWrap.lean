import MmapIo.Pin
/-!
# PinWrap — when the ids of the registry wrap

`register_atomic` numbers the atomic views with a wrapping counter, and the drop of a view removes the first entry with its
number.  While one atomic view lives, `2 ^ 64 - 1` others can be created and dropped; the next one gets the number of the
first, and its drop removes the entry of the first.  A slice over the bytes of the first is then granted, and a store through
the first changes it (`reaches_changed_slice`).
-/
namespace MmapIo
namespace Views

variable {V : Type} [DecidableEq V]

def micros : Nat → ViewRegistry V → V → Pc → Option (ViewRegistry V × Pc)
  | 0, g, _, p => some (g, p)
  | n + 1, g, v, p => (micro g v p).bind (fun (g, p) => micros n g v p)

/-- A registry at rest with these atomic views and no plain one. -/
def resting (entries : List AtomicEntry) (nextId live : Nat) : ViewRegistry V :=
  ⟨⟨entries, nextId⟩, RwLock.free, live, fun _ => Slab.empty⟩

def holding (v : V) (entries : List AtomicEntry) (nextId live : Nat) : ViewRegistry V :=
  ⟨⟨entries, nextId⟩, RwLock.heldBy v, live, fun _ => Slab.empty⟩

variable {entries entries' : List AtomicEntry} {nextId live : Nat} {v : V} {r : Span}

theorem micros_step {g g' : ViewRegistry V} {p p' : Pc} (h : micro g v p = some (g', p')) (n : Nat) :
    micros (n + 1) g v p = micros n g' v p' := by
  rw [micros, h, Option.bind_some]

theorem micros_add {g g' : ViewRegistry V} {p p' : Pc} : ∀ (m : Nat) {n : Nat}, micros m g v p = some (g', p') →
    micros (m + n) g v p = micros n g' v p'
  | 0, n, h => by
    cases h
    rw [Nat.zero_add]
  | m + 1, n, h => by
    rw [micros, Option.bind_eq_some_iff] at h
    obtain ⟨⟨g₁, p₁⟩, hm, h⟩ := h
    rw [Nat.add_right_comm, micros_step hm]
    exact micros_add m h

theorem micros_scan (v : V) (entries : List AtomicEntry) (nextId live : Nat) (r : Span) (size : Nat) :
    micros 9 (holding v entries nextId live) v (.aScan r size 0) = some (holding v entries nextId live, .aPush r size) := rfl

/-- **An atomic registration that meets no other view**, from its call to its return. -/
theorem micros_register (hr : r.start ≠ r.stop) {size : Nat} (hmix : ∀ a ∈ entries, a.size = size) :
    micros 15 (resting entries nextId live) v (.aEnter r size) = some
      (resting (entries ++ [⟨r, size, nextId⟩]) (Word.wrappingAdd 64 nextId 1) (Word.wrappingAdd 64 live 1),
        .atomicLive r size (some nextId)) := by
  have hany : (entries.any (fun a => a.size != size && overlaps a.range.start a.range.stop r.start r.stop)) = false := by
    rw [List.any_eq_false]
    intro a ha
    simp [hmix a ha]
  have hmixed : micro (holding v entries nextId live) v (.aMixed r size) =
      some (holding v entries nextId live, .aIncr r size) := by
    simp only [micro, holding, hany]
    rfl
  have henter : micro (resting entries nextId live) v (.aEnter r size) =
      some (resting entries nextId live, .aWriteLock r size) := by
    simp only [micro, if_neg hr]
  have hlock : micro (resting entries nextId live) v (.aWriteLock r size) =
      some (holding v entries nextId live, .aMixed r size) := by
    simp only [micro, resting, RwLock.acquireWrite_free, Option.map_some]
    rfl
  have hincr : micro (holding v entries nextId live) v (.aIncr r size) =
      some (holding v entries nextId (Word.wrappingAdd 64 live 1), .aScan r size 0) := rfl
  have hscan : micros 11 (holding v entries nextId (Word.wrappingAdd 64 live 1)) v (.aScan r size 0) =
      micros 2 (holding v entries nextId (Word.wrappingAdd 64 live 1)) v (.aPush r size) :=
    micros_add (n := 2) 9 (micros_scan v entries nextId _ r size)
  rw [micros_step henter, micros_step hlock, micros_step hmixed, micros_step hincr, hscan]
  rfl

/-- **The drop of an atomic view**: the first entry with its number goes. -/
theorem micros_drop {size id : Nat} (hid : AtomicSet.removeId entries id = some entries') :
    micros 4 (resting entries nextId live) v (.dWriteLock r size id) =
      some (resting entries' nextId (Word.wrappingSub 64 live 1), .atomicDropped (some id)) := by
  have hlock : micro (resting entries nextId live) v (.dWriteLock r size id) =
      some (holding v entries nextId live, .dFind r size id) := by
    simp only [micro, resting, RwLock.acquireWrite_free, Option.map_some]
    rfl
  have hfind : micro (holding v entries nextId live) v (.dFind r size id) =
      some (holding v entries' nextId live, .dDecr id) := by
    simp only [micro, holding, hid]
  rw [micros_step hlock, micros_step hfind]
  rfl

/-- **A plain registration over bytes that no entry covers.** -/
theorem micros_plain (hlive : live ≠ 0) (hfree : ∀ a ∈ entries, ¬ overlaps a.range.start a.range.stop r.start r.stop)
    (sh : Fin shards) :
    ∃ (g : ViewRegistry V) (reg : PlainReg),
      micros 5 (resting entries nextId live) v (.pInsert r sh) = some (g, .plainLive r reg) := by
  have hany : entries.any (fun a => overlaps a.range.start a.range.stop r.start r.stop) = false := by
    rw [List.any_eq_false]
    exact hfree
  simp only [micros, micro, resting, RwLock.acquireRead, RwLock.free_writer, if_true, if_neg hlive, hany,
    Bool.false_eq_true, if_false, Option.bind_some, Option.map_some]
  exact ⟨_, _, rfl⟩

end Views

namespace Pin

open Views (resting micros)
open Machine (Reaches)

variable {V : Type} [DecidableEq V] {P : Platform} {s : State V} {v : V} {entries entries' : List AtomicEntry}
  {nextId live : Nat}

theorem step_go {p : Pc V} (hpc : s.pc v = p) (hp : (∃ start stop gen, p = .aReg start stop gen) ∨ p = .aDrop ∨
    ∃ start stop gen, p = .sReg start stop gen) {reg : Views.ViewRegistry V} {q : Views.Pc}
    (hm : Views.micro s.views.reg v (s.views.pc v) = some (reg, q)) :
    step P s (go v) = some { s with views := ⟨reg, Function.update s.views.pc v q⟩ } := by
  have hreg : s.register (.advance v) = some { s with views := ⟨reg, Function.update s.views.pc v q⟩ } := by
    simp only [State.register, Views.step, hm, Option.map_some]
  simp only [step, go, advance, hpc]
  rcases hp with ⟨start, stop, gen, rfl⟩ | rfl | ⟨start, stop, gen, rfl⟩
  all_goals
    simp only
    split
    · rename_i hq
      rw [hq] at hm
      cases hm
    · rename_i hq
      rw [hq] at hm
      cases hm
    · exact hreg

theorem reaches_go {p : Pc V} (hp : (∃ start stop gen, p = .aReg start stop gen) ∨ p = .aDrop ∨
    ∃ start stop gen, p = .sReg start stop gen) {reg : Views.ViewRegistry V} {q : Views.Pc} :
    ∀ (n : Nat) {s : State V} {reg₀ : Views.ViewRegistry V} {q₀ : Views.Pc}, s.pc v = p → s.views.reg = reg₀ →
      s.views.pc v = q₀ → micros n reg₀ v q₀ = some (reg, q) →
      Reaches (step P) s { s with views := ⟨reg, Function.update s.views.pc v q⟩ }
  | 0, s, _, _, _, hreg, hq, h => by
    cases h
    rw [← hreg, ← hq, Function.update_eq_self]
    exact ⟨[], rfl⟩
  | n + 1, s, reg₀, q₀, hpc, hreg, hq, h => by
    rw [micros, Option.bind_eq_some_iff] at h
    obtain ⟨⟨reg₁, q₁⟩, hm, h⟩ := h
    rw [← hreg, ← hq] at hm
    have hrest := reaches_go hp n (s := { s with views := ⟨reg₁, Function.update s.views.pc v q₁⟩ }) hpc rfl
      (Function.update_self ..) h
    rw [Function.update_idem] at hrest
    exact Reaches.head (step_go hpc hp hm) hrest

/-- Nobody writes, and the registry holds these atomic views. -/
structure Quiet (s : State V) (entries : List AtomicEntry) (nextId live : Nat) : Prop where
  file : s.shared.file = List.replicate 16 0
  len : s.shared.len = 16
  writer : s.shared.lock.writer = none
  reg : s.views.reg = resting entries nextId live

/-! ## The steps around a registration -/

theorem step_call (op : Op) (hpc : s.pc v = .idle) : step P s (.call v op) = some (s.setPc v (op.start P s.shared.gen)) := by
  simp only [step, hpc]

theorem step_aLock {size offset len : Nat} {l : RwLock V} (hpc : s.pc v = .aLock size offset len)
    (hl : s.shared.lock.acquireRead v = some l) :
    step P s (go v) =
      some (State.setPc { s with shared := { s.shared with lock := l } } v (.aCheck size offset len s.shared.gen)) := by
  simp only [step, go, advance, hpc, micro, hl, Option.map_some, State.setPc]

theorem step_sLock {offset len : Nat} {l : RwLock V} (hpc : s.pc v = .sLock offset len)
    (hl : s.shared.lock.acquireRead v = some l) :
    step P s (go v) =
      some (State.setPc { s with shared := { s.shared with lock := l } } v (.sCheck offset len s.shared.gen)) := by
  simp only [step, go, advance, hpc, micro, hl, Option.map_some, State.setPc]

theorem step_sCheck {offset len gen start stop : Nat} (hpc : s.pc v = .sCheck offset len gen)
    (hrange : sliceRange P.width offset len s.shared.len = .ok (start, stop)) (hlt : start < stop)
    (hreg : s.views.pc v = .idle) :
    step P s (go v) = some (State.setPc
      { s with views := ⟨s.views.reg, Function.update s.views.pc v (.pInsert ⟨start, stop⟩ ⟨0, by decide⟩)⟩ } v
      (.sReg start stop gen)) := by
  simp only [step, go, advance, hpc, hrange, State.register, Views.step, hreg, hlt, and_self, if_true, Option.map_some]

theorem step_sReg {start stop gen : Nat} {r : Span} {reg : Views.PlainReg} (hpc : s.pc v = .sReg start stop gen)
    (hreg : s.views.pc v = .plainLive r reg) :
    step P s (go v) = some (s.setPc v (.slice start stop gen (s.shared.file.extract start stop))) := by
  simp only [step, go, advance, hpc, hreg]

theorem step_aCheck {size offset len gen : Nat} (hpc : s.pc v = .aCheck size offset len gen)
    (hfit : Word.saturatingAdd 64 offset len ≤ s.shared.len) (hreg : s.views.pc v = .idle) :
    step P s (go v) = some (State.setPc
      ⟨{ s.shared with registered := s.shared.registered + 1 },
        ⟨s.views.reg, Function.update s.views.pc v (.aEnter ⟨offset, offset + len⟩ size)⟩, s.pc⟩ v
      (.aReg offset (offset + len) gen)) := by
  have hle : offset ≤ offset + len := Nat.le_add_right offset len
  simp only [step, go, advance, hpc, if_neg (Nat.not_lt.2 hfit), State.register, Views.step, hreg, hle, and_self, if_true,
    Option.map_some]

theorem step_aReg {start stop gen size : Nat} {r : Span} {id : Option Nat} (hpc : s.pc v = .aReg start stop gen)
    (hreg : s.views.pc v = .atomicLive r size id) : step P s (go v) = some (s.setPc v (.atomic start stop gen)) := by
  simp only [step, go, advance, hpc, hreg]

theorem step_leave {start stop gen size id : Nat} {r : Span} (hpc : s.pc v = .atomic start stop gen)
    (hreg : s.views.pc v = .atomicLive r size (some id)) :
    step P s (.leave v true) =
      some (State.setPc { s with views := ⟨s.views.reg, Function.update s.views.pc v (.dWriteLock r size id)⟩ } v .aDrop) := by
  simp only [step, hpc, State.register, Views.step, hreg, Views.dropPc, Option.map_some]

theorem step_aDrop {id : Option Nat} (hpc : s.pc v = .aDrop) (hreg : s.views.pc v = .atomicDropped id) :
    step P s (go v) = some (s.setPc v (.unlockRead (.ok ()))) := by
  simp only [step, go, advance, hpc, hreg]

theorem step_unlockRead {r : Res} (hpc : s.pc v = .unlockRead r) :
    step P s (go v) =
      some (State.setPc { s with shared := { s.shared with lock := s.shared.lock.releaseRead v } } v (.done r)) := by
  simp only [step, go, advance, hpc, micro, Option.map_some, State.setPc]

theorem step_store {start stop gen offset : Nat} {byte : UInt8} (hpc : s.pc v = .atomic start stop gen)
    (hin : start ≤ offset ∧ offset < stop) :
    step P s (.store v offset byte) = some { s with shared := { s.shared with file := s.shared.file.set offset byte } } := by
  simp only [step, hpc, Pc.window, if_pos hin]

/-- **A view of eight bytes is opened**, from its call to its return. -/
theorem Quiet.reaches_atomic (hq : Quiet s entries nextId live) (hmix : ∀ a ∈ entries, a.size = 8) (hpc : s.pc v = .idle)
    (hreg : s.views.pc v = .idle) {offset : Nat} (hmod : offset % 8 = 0) (hle : offset + 8 ≤ 16) :
    ∃ s', Reaches (step P) s s' ∧
      Quiet s' (entries ++ [⟨⟨offset, offset + 8⟩, 8, nextId⟩]) (Word.wrappingAdd 64 nextId 1) (Word.wrappingAdd 64 live 1) ∧
      s'.pc = Function.update s.pc v (.atomic offset (offset + 8) s.shared.gen) ∧
      s'.views.pc = Function.update s.views.pc v (.atomicLive ⟨offset, offset + 8⟩ 8 (some nextId)) := by
  obtain ⟨l, hl, hlw⟩ := RwLock.acquireRead_of_writer_none hq.writer v
  have hstart : (Op.atomicView 8 offset 1).start P s.shared.gen = (.aLock 8 offset 8 : Pc V) := by
    simp only [Op.start, hmod]
    rfl
  have hfit : Word.saturatingAdd 64 offset 8 ≤ s.shared.len := by
    rw [Word.saturatingAdd_of_lt (by omega), hq.len]
    exact hle
  have hnew : (⟨offset, offset + 8⟩ : Span).start ≠ (⟨offset, offset + 8⟩ : Span).stop := by
    simp
  have hcall := step_call (P := P) (.atomicView 8 offset 1) hpc
  rw [hstart] at hcall
  have hopen := Reaches.head hcall (Reaches.head (step_aLock (Function.update_self ..) hl)
    (Reaches.head (step_aCheck (Function.update_self ..) hfit hreg)
      (Reaches.trans (reaches_go (Or.inl ⟨_, _, _, rfl⟩) 15 (Function.update_self ..) hq.reg (Function.update_self ..)
          (Views.micros_register hnew hmix))
        (Reaches.single (step_aReg (Function.update_self ..) (Function.update_self ..))))))
  refine ⟨_, hopen, ⟨hq.file, hq.len, hlw, rfl⟩, ?_, ?_⟩
  · simp only [State.setPc, Function.update_idem]
  · simp only [State.setPc, Function.update_idem]

/-- **A view is dropped**: the first entry with its number goes. -/
theorem Quiet.reaches_done (hq : Quiet s entries nextId live) {start stop gen size id : Nat} {r : Span}
    (hpc : s.pc v = .atomic start stop gen) (hreg : s.views.pc v = .atomicLive r size (some id))
    (hid : AtomicSet.removeId entries id = some entries') :
    ∃ s', Reaches (step P) s s' ∧ Quiet s' entries' nextId (Word.wrappingSub 64 live 1) ∧
      s'.pc = Function.update s.pc v (.done (.ok ())) ∧
      s'.views.pc = Function.update s.views.pc v (.atomicDropped (some id)) := by
  have hdrop := Reaches.head (step_leave (P := P) hpc hreg)
    (Reaches.trans (reaches_go (Or.inr (Or.inl rfl)) 4 (Function.update_self ..) hq.reg (Function.update_self ..)
        (Views.micros_drop hid))
      (Reaches.head (step_aDrop (Function.update_self ..) (Function.update_self ..))
        (Reaches.single (step_unlockRead (Function.update_self ..)))))
  refine ⟨_, hdrop, ⟨hq.file, hq.len, hq.writer, rfl⟩, ?_, ?_⟩
  · simp only [State.setPc, Function.update_idem]
  · simp only [State.setPc, Function.update_idem]

/-- **A slice is granted over bytes that no entry covers.** -/
theorem Quiet.reaches_slice (hq : Quiet s entries nextId live) (hlive : live ≠ 0) {len : Nat} (hpos : len ≠ 0)
    (hle : len ≤ 16) (hfree : ∀ a ∈ entries, ¬ overlaps a.range.start a.range.stop 0 len) (hpc : s.pc v = .idle)
    (hreg : s.views.pc v = .idle) :
    ∃ s', Reaches (step P) s s' ∧ s'.shared.file = s.shared.file ∧
      s'.pc = Function.update s.pc v (.slice 0 len s.shared.gen (s.shared.file.extract 0 len)) := by
  obtain ⟨l, hl, -⟩ := RwLock.acquireRead_of_writer_none hq.writer v
  obtain ⟨g, reg, hm⟩ := Views.micros_plain (v := v) (r := ⟨0, len⟩) hlive hfree ⟨0, by decide⟩
  have hcall := step_call (P := P) (.asSlice 0 len) hpc
  simp only [Op.start, if_neg hpos] at hcall
  have hrange : sliceRange P.width 0 len s.shared.len = .ok (0, len) := by
    have hmax : 16 ≤ P.width.maxLen := by cases P.width <;> decide
    rw [hq.len, sliceRange_eq hmax, Nat.zero_add, if_pos hle]
  have hslice := Reaches.head hcall (Reaches.head (step_sLock (Function.update_self ..) hl)
    (Reaches.head (step_sCheck (Function.update_self ..) hrange (Nat.pos_of_ne_zero hpos) hreg)
      (Reaches.trans (reaches_go (Or.inr (Or.inr ⟨_, _, _, rfl⟩)) 5 (Function.update_self ..) hq.reg
          (Function.update_self ..) hm)
        (Reaches.single (step_sReg (Function.update_self ..) (Function.update_self ..))))))
  refine ⟨_, hslice, rfl, ?_⟩
  simp only [State.setPc, Function.update_idem]

/-! ## Once around the counter -/

theorem removeId_first (a b : AtomicEntry) : AtomicSet.removeId [a, b] a.id = some [b] := by
  simp [AtomicSet.removeId, List.findIdx?_cons, swapRemove]

theorem removeId_second {a b : AtomicEntry} (h : a.id ≠ b.id) : AtomicSet.removeId [a, b] b.id = some [a] := by
  simp [AtomicSet.removeId, List.findIdx?_cons, swapRemove, h]

/-- `k` atomic registrations were made; the first one still lives, and it is the only one. -/
structure Round (k : Nat) (s : State Nat) : Prop where
  quiet : Quiet s [⟨⟨0, 8⟩, 8, 0⟩] (k % 2 ^ 64) 1
  pc : ∃ gen, s.pc 0 = .atomic 0 8 gen
  unused : ∀ u, k ≤ u → s.pc u = .idle ∧ s.views.pc u = .idle

variable {k : Nat} {s : State Nat}

theorem reaches_first : ∃ s, Reaches (step P) (State.init (List.replicate 16 0)) s ∧ Round 1 s := by
  have hq : Quiet (State.init (List.replicate 16 0) : State Nat) [] 0 0 := ⟨rfl, rfl, rfl, rfl⟩
  obtain ⟨s, hreach, hquiet, hpc, hreg⟩ := hq.reaches_atomic (P := P) (v := 0) nofun rfl rfl (Nat.zero_mod 8) (by decide)
  refine ⟨s, hreach, hquiet, ⟨_, by rw [hpc, Function.update_self]⟩, fun u hu => ?_⟩
  have hne : u ≠ 0 := Nat.ne_of_gt hu
  rw [hpc, hreg, Function.update_of_ne hne, Function.update_of_ne hne]
  exact ⟨rfl, rfl⟩

/-- A second view comes and goes. -/
theorem Round.reaches_done (h : Round k s)
    (hid : AtomicSet.removeId [⟨⟨0, 8⟩, 8, 0⟩, ⟨⟨8, 16⟩, 8, k % 2 ^ 64⟩] (k % 2 ^ 64) = some entries) :
    ∃ s', Reaches (step P) s s' ∧ Quiet s' entries ((k + 1) % 2 ^ 64) 1 ∧
      ∀ u, u ≠ k → s'.pc u = s.pc u ∧ s'.views.pc u = s.views.pc u := by
  obtain ⟨hpc, hreg⟩ := h.unused k (Nat.le_refl k)
  obtain ⟨s₁, hreach₁, hquiet₁, hpc₁, hreg₁⟩ := h.quiet.reaches_atomic (P := P) (by simp) hpc hreg (Nat.mod_self 8)
    (Nat.le_refl 16)
  obtain ⟨s₂, hreach₂, hquiet₂, hpc₂, hreg₂⟩ := hquiet₁.reaches_done (P := P) (v := k) (by rw [hpc₁, Function.update_self])
    (by rw [hreg₁, Function.update_self]) hid
  refine ⟨s₂, hreach₁.trans hreach₂, ?_, fun u hu => ?_⟩
  · have hnext : Word.wrappingAdd 64 (k % 2 ^ 64) 1 = (k + 1) % 2 ^ 64 := Nat.mod_add_mod k (2 ^ 64) 1
    rw [← hnext]
    exact hquiet₂
  · rw [hpc₂, hpc₁, hreg₂, hreg₁, Function.update_idem, Function.update_idem, Function.update_of_ne hu,
      Function.update_of_ne hu]
    exact ⟨rfl, rfl⟩

/-- Before the counter wraps, that view takes its own entry with it. -/
theorem Round.succ (h : Round k s) (hpos : 0 < k) (hlt : k < 2 ^ 64) : ∃ s', Reaches (step P) s s' ∧ Round (k + 1) s' := by
  have hk : k % 2 ^ 64 = k := Nat.mod_eq_of_lt hlt
  obtain ⟨s', hreach, hquiet, hsame⟩ := h.reaches_done (P := P) (by
    rw [hk]
    exact removeId_second (Nat.ne_of_lt hpos))
  obtain ⟨gen, hpc⟩ := h.pc
  refine ⟨s', hreach, hquiet, ⟨gen, ?_⟩, fun u hu => ?_⟩
  · rw [(hsame 0 (Nat.ne_of_lt hpos)).1, hpc]
  · obtain ⟨hpc', hreg'⟩ := hsame u (Nat.ne_of_gt hu)
    rw [hpc', hreg']
    exact h.unused u (Nat.le_of_succ_le hu)

theorem reaches_round : ∀ k, k < 2 ^ 64 → ∃ s, Reaches (step P) (State.init (List.replicate 16 0)) s ∧ Round (k + 1) s
  | 0, _ => reaches_first
  | k + 1, hlt => by
    obtain ⟨s, hreach, hround⟩ := reaches_round k (Nat.lt_of_succ_lt hlt)
    obtain ⟨s', hreach', hround'⟩ := hround.succ (P := P) (Nat.succ_pos k) hlt
    exact ⟨s', hreach.trans hreach', hround'⟩

/-- **When the numbers wrap, a slice changes**: the view that got the number of the first one takes the entry of the first one
with it, and a slice is granted under the first one. -/
theorem reaches_changed_slice : ∃ (s : State Nat) (v gen : Nat) (bytes : List UInt8),
    Reaches (step P) (State.init (List.replicate 16 0)) s ∧ s.pc v = .slice 0 8 gen bytes ∧
      s.shared.file.extract 0 8 ≠ bytes := by
  obtain ⟨s, hreach, hround⟩ := reaches_round (P := P) (2 ^ 64 - 1) (by decide)
  rw [show 2 ^ 64 - 1 + 1 = 2 ^ 64 from rfl] at hround
  obtain ⟨s₁, hreach₁, hquiet, hsame⟩ := hround.reaches_done (P := P) (removeId_first ⟨⟨0, 8⟩, 8, 0⟩ ⟨⟨8, 16⟩, 8, 0⟩)
  obtain ⟨gen, hpc⟩ := hround.pc
  have hpc₁ : s₁.pc 0 = .atomic 0 8 gen := by rw [(hsame 0 (by decide)).1, hpc]
  -- the slice of a token that was not used yet
  obtain ⟨hidle, hregIdle⟩ := hround.unused (2 ^ 64 + 1) (by decide)
  obtain ⟨hpcs, hregs⟩ := hsame (2 ^ 64 + 1) (by decide)
  obtain ⟨s₂, hreach₂, hfile, hpc₂⟩ := hquiet.reaches_slice (P := P) (v := 2 ^ 64 + 1) one_ne_zero (by decide : 8 ≠ 0)
    (by decide) (by decide) (hpcs.trans hidle) (hregs.trans hregIdle)
  have hatomic : s₂.pc 0 = .atomic 0 8 gen := by rw [hpc₂, Function.update_of_ne (by decide), hpc₁]
  have hstore : step P s₂ (.store 0 0 1) = _ := step_store hatomic ⟨Nat.le_refl 0, by decide⟩
  have hslice : s₂.pc (2 ^ 64 + 1) = .slice 0 8 s₁.shared.gen (s₁.shared.file.extract 0 8) := by
    rw [hpc₂, Function.update_self]
  refine ⟨_, 2 ^ 64 + 1, _, _, ((hreach.trans hreach₁).trans hreach₂).trans (Reaches.single hstore), hslice, ?_⟩
  have hne : (s₂.shared.file.set 0 1).extract 0 8 ≠ s₁.shared.file.extract 0 8 := by
    rw [hfile, hquiet.file]
    decide
  exact hne

/-- A zero-length slice, and a `resize` while it lives. -/
def emptySliceActs : List (Action Nat) := [.call 0 (.asSlice 0 0), .call 1 (.resize 8)] ++ List.replicate 6 (go 1)

/-- A shrink while a zero-length slice lives, as far as the cut of the file. -/
def cutActs : List (Action Nat) := [.call 0 (.asSlice 0 0), .call 1 (.resize 2)] ++ List.replicate 4 (go 1)

/-- Two kinds of views do not pin: the slice of a zero-length request keeps neither its mapping nor the file under it, and
once the numbers of the atomic views wrap a slice does not keep its bytes. -/
theorem live_views_do_not_pin :
    (∃ s v, Machine.run (step linux64) (State.init (List.replicate 4 0)) emptySliceActs = some s ∧
      (s.pc v).view = some (0, 0, 0) ∧ ¬ Pinned s v) ∧
    (∃ s v, Machine.run (step linux64) (State.init (List.replicate 4 0)) cutActs = some s ∧
      (s.pc v).view = some (0, 0, 0) ∧ s.shared.gen = 0 ∧ s.shared.file.length < s.shared.len) ∧
    ∃ (acts : List (Action Nat)) (s : State Nat) (v gen : Nat) (bytes : List UInt8),
      Machine.run (step linux64) (State.init (List.replicate 16 0)) acts = some s ∧ s.pc v = .slice 0 8 gen bytes ∧
      s.shared.file.extract 0 8 ≠ bytes ∧ ¬ Pinned s v := by
  refine ⟨?_, ?_, ?_⟩
  · have hrun : (Machine.run (step linux64) (State.init (List.replicate 4 0)) emptySliceActs).map
        (fun s => ((s.pc 0).view, s.shared.gen)) = some (some (0, 0, 0), 1) := by decide +kernel
    obtain ⟨s, hr, heq⟩ := Option.map_eq_some_iff.1 hrun
    obtain ⟨hview, hgen⟩ := Prod.mk.inj heq
    refine ⟨s, 0, hr, hview, fun h => ?_⟩
    have hsame := (h 0 0 0 hview).2.1
    rw [hgen] at hsame
    cases hsame
  · have hrun : (Machine.run (step linux64) (State.init (List.replicate 4 0)) cutActs).map
        (fun s => ((s.pc 0).view, s.shared.gen, s.shared.file.length, s.shared.len)) = some (some (0, 0, 0), 0, 2, 4) := by
      decide +kernel
    obtain ⟨s, hr, heq⟩ := Option.map_eq_some_iff.1 hrun
    simp only [Prod.mk.injEq] at heq
    obtain ⟨hview, hgen, hfile, hlen⟩ := heq
    exact ⟨s, 0, hr, hview, hgen, by omega⟩
  · obtain ⟨s, v, gen, bytes, ⟨acts, hr⟩, hpc, hne⟩ := reaches_changed_slice (P := linux64)
    refine ⟨acts, s, v, gen, bytes, hr, hpc, hne, fun h => ?_⟩
    exact hne ((h 0 8 gen (by rw [hpc]; rfl)).2.2.2 bytes hpc)

end Pin
end MmapIo
