import MmapIo.Lib.Owned
import MmapIo.Pin
/-!
# PinEntries — what an entry of the atomic set says about the mapping

Every entry of the atomic set is of a view whose registration holds a guard of the mapping, so no mapping is installed while
there is one.  An id may be given out twice once `2 ^ 64` registrations were made, and then a drop may remove the other
entry with its id; the number of entries with an id still is the number of registrations that hold it (`TagsOwned`), which is
all that is needed.  `run_entries` is the invariant along every run of the machine of `PinStep`.
-/
namespace MmapIo

/-- **An entry fits a mapping of `n` bytes**: it is the range of a request that was made, starts on an element and ends
inside the mapping.  `asked size offset count` are the requests. -/
structure EntryFits (asked : Nat → Nat → Nat → Prop) (n : Nat) (r : Span) (size : Nat) : Prop where
  start : size ∣ r.start
  length : ∃ count, asked size r.start count ∧ r.stop = r.start + size * count
  inside : r.stop ≤ n

theorem EntryFits.stop {asked : Nat → Nat → Nat → Prop} {n : Nat} {r : Span} {size : Nat} (h : EntryFits asked n r size) :
    size ∣ r.stop := by
  obtain ⟨count, -, hstop⟩ := h.length
  rw [hstop]
  exact Nat.dvd_add h.start (Nat.dvd_mul_right size count)

namespace Views

variable {V : Type} [DecidableEq V]

/-- The range and the element size of an atomic registration, while it is in progress or its view lives. -/
def Pc.atomicRange : Pc → Option (Span × Nat)
  | .aEnter r size | .aWriteLock r size | .aMixed r size | .aIncr r size | .aScan r size _ | .aDecr r size | .aPush r size
  | .aReleaseOk r size _ | .atomicLive r size _ | .dWriteLock r size _ | .dFind r size _ => some (r, size)
  | _ => none

/-- The id a registration holds in the atomic set. -/
def Pc.id (p : Pc) : Option Nat := p.entry.map AtomicEntry.id

theorem atomicRange_of_id {p : Pc} {n : Nat} (h : p.id = some n) : p.atomicRange ≠ none := by
  cases p
  case aReleaseOk | dWriteLock | dFind => nofun
  case atomicLive r size id =>
    cases id <;> nofun
  all_goals cases h

/-- Only a call of `register_atomic` makes a range, and it keeps it. -/
theorem move_atomicRange {g g' : ViewRegistry V} {v : V} {p p' : Pc} (hm : Move g v p g' p') {x : Span × Nat}
    (h : p'.atomicRange = some x) : p.atomicRange = some x ∨ p = .idle ∧ p' = .aEnter x.1 x.2 := by
  cases hm
  case registerAtomic r size hr =>
    cases h
    exact .inr ⟨rfl, rfl⟩
  all_goals first | exact .inl h | cases h

/-- **Where the entries come from**: they were there, or the move adds its own. -/
theorem move_mem {g g' : ViewRegistry V} {v : V} {p p' : Pc} (hm : Move g v p g' p') {e : AtomicEntry}
    (h : e ∈ g'.atomics.entries) : e ∈ g.atomics.entries ∨ p.atomicRange = some (e.range, e.size) := by
  cases hm
  case push r size =>
    rcases List.mem_append.1 h with h | h
    · exact .inl h
    · rw [List.mem_singleton] at h
      subst h
      exact .inr rfl
  case found r size id es hes =>
    obtain ⟨e', -, -, hperm⟩ := AtomicSet.removeId_some hes
    exact .inl (List.mem_of_mem_erase (hperm.mem_iff.1 h))
  all_goals exact .inl h

/-- **The ids of the set are those the registrations hold**, whether or not an id was given out twice. -/
theorem move_owned {g g' : ViewRegistry V} {v : V} {pc : V → Pc} {p p' : Pc} (hm : Move g v p g' p') (hp : pc v = p)
    (h : TagsOwned (g.atomics.entries.map AtomicEntry.id) (Pc.id ∘ pc)) :
    TagsOwned (g'.atomics.entries.map AtomicEntry.id) (Pc.id ∘ Function.update pc v p') := by
  have hof : (Pc.id ∘ pc) v = p.id := by rw [Function.comp_apply, hp]
  cases hm
  case push r size =>
    rw [List.map_append, Function.comp_update]
    exact h.push hof g.atomics.nextId
  case found r size id es hes =>
    obtain ⟨e, he, rfl, hperm⟩ := AtomicSet.removeId_some hes
    rw [Function.comp_update]
    refine h.drop hof ((hperm.map AtomicEntry.id).trans ?_)
    have hsplit := ((List.perm_cons_erase he).map AtomicEntry.id).erase e.id
    rw [List.map_cons, List.erase_cons_head] at hsplit
    exact hsplit.symm
  case missing r size id hno =>
    -- the registration holds the id, so the set has an entry with it
    exact absurd (h.mem hof) (AtomicSet.removeId_none hno)
  all_goals
    rw [Machine.comp_update_eq (by rw [hp]; rfl)]
    exact h

end Views

namespace Pin

open Word Bytes

variable {V : Type} {P : Platform} {asked : Nat → Nat → Nat → Prop} {os : Os} {g g' : Shared V} {v : V} {p p' : Pc V}

/-- An atomic view or its registration: the token may have a range in the registry. -/
def Pc.registers : Pc V → Prop
  | .aReg _ _ _ | .atomic _ _ _ | .aDrop => True
  | _ => False

theorem reading_of_registers (h : p.registers) : p.reading := by
  cases p
  case aReg | atomic | aDrop => trivial
  all_goals cases h

/-- What was computed before the step that uses it: the length of an aligned atomic view, the mapping of a shrink. -/
def Pc.Bounded (P : Platform) (asked : Nat → Nat → Nat → Prop) : Pc V → Prop
  | .aLock size offset len | .aCheck size offset len _ =>
    size ∣ offset ∧ ∃ count, asked size offset count ∧ len = saturatingMul 64 size count
  | .pSetLen _ mapLen | .pInstall mapLen => mapLen ≤ P.width.maxLen
  | _ => True

theorem start_bounded {op : Op} (hop : ∀ size offset count, op = .atomicView size offset count → asked size offset count)
    (gen : Nat) : (op.start P gen : Pc V).Bounded P asked := by
  cases op <;> simp only [Op.start]
  case chunks | asSliceMut => trivial
  case atomicView size offset count =>
    split
    · trivial
    · rename_i h
      exact ⟨Nat.dvd_of_mod_eq_zero (Decidable.not_not.1 h), count, hop size offset count rfl, rfl⟩
  case asSlice | updateRegion | chunksMut => split <;> trivial
  case resize newSize =>
    split
    · trivial
    · split
      · trivial
      · split <;> trivial

variable [DecidableEq V]

/-- What a step of `micro` does to the lock and to the length of the mapping. -/
inductive Shift (P : Platform) (g : Shared V) (v : V) : Pc V → Shared V → Pc V → Prop
  | enterRead {p p' : Pc V} {l : RwLock V} (hl : g.lock.acquireRead v = some l) (hr : p'.reading) (hw : ¬ p'.writing) :
      Shift P g v p { g with lock := l } p'
  | enterWrite {p p' : Pc V} {l : RwLock V} (hl : g.lock.acquireWrite v = some l) (hw : p'.writing) :
      Shift P g v p { g with lock := l } p'
  | write {p p' : Pc V} {g' : Shared V} (hw : p.writing) (hw' : p'.writing) (hlock : g'.lock = g.lock)
      (hlen : g.len ≤ P.width.maxLen → g'.len ≤ P.width.maxLen) : Shift P g v p g' p'
  | leaveRead {r : Res} : Shift P g v (.unlockRead r) { g with lock := g.lock.releaseRead v } (.done r)
  | leaveWrite {r : Res} : Shift P g v (.unlockWrite r) { g with lock := g.lock.releaseWrite } (.done r)

theorem micro_shift (hb : p.Bounded P asked) (h : micro P os g v p = some (g', p')) :
    Shift P g v p g' p' ∧ p'.Bounded P asked ∧ ¬ p.registers ∧ ¬ p'.registers := by
  have hstay : ∀ {q q' : Pc V}, q.writing → q'.writing → Shift P g v q g q' := fun hw hw' => .write hw hw' rfl id
  have hmax : ∀ {fileLen newLen len : Nat}, mapFileRw P os fileLen newLen = .ok len → len ≤ P.width.maxLen := by
    intro fileLen newLen len hm
    obtain ⟨rfl, -, hmax⟩ := mapFileRw_ok hm
    exact hmax
  cases p
  case sLock | iLock | jLock =>
    simp only [micro, Option.map_eq_some_iff] at h
    obtain ⟨l, hl, h⟩ := h
    cases h
    exact ⟨.enterRead hl trivial id, trivial, id, id⟩
  case aLock =>
    simp only [micro, Option.map_eq_some_iff] at h
    obtain ⟨l, hl, h⟩ := h
    cases h
    exact ⟨.enterRead hl trivial id, hb, id, id⟩
  case mLock | uLock | cLock | zLock =>
    simp only [micro, Option.map_eq_some_iff] at h
    obtain ⟨l, hl, h⟩ := h
    cases h
    exact ⟨.enterWrite hl trivial, trivial, id, id⟩
  case unlockRead =>
    cases h
    exact ⟨.leaveRead, trivial, id, id⟩
  case unlockWrite =>
    cases h
    exact ⟨.leaveWrite, trivial, id, id⟩
  case mCheck | uCheck | cNext =>
    simp only [micro] at h
    repeat' split at h
    all_goals
      cases h
      exact ⟨hstay trivial trivial, trivial, id, id⟩
  case uStore pos data =>
    cases data <;> cases h
    · exact ⟨hstay trivial trivial, trivial, id, id⟩
    · exact ⟨.write trivial trivial rfl id, trivial, id, id⟩
  case zCmp newSize newLen =>
    cases h
    split
    · exact ⟨hstay trivial trivial, trivial, id, id⟩
    · split
      · exact ⟨hstay trivial trivial, trivial, id, id⟩
      · split <;> exact ⟨hstay trivial trivial, trivial, id, id⟩
  case gSetLen | wSetLen | gRestore =>
    simp only [micro] at h
    split at h <;> cases h <;> exact ⟨.write trivial trivial rfl id, trivial, id, id⟩
  case wPlaceholder =>
    simp only [micro] at h
    split at h <;> cases h
    · exact ⟨hstay trivial trivial, trivial, id, id⟩
    · exact ⟨.write trivial trivial rfl (fun _ => Nat.zero_le _), trivial, id, id⟩
  case gMap | wMap | wRestore =>
    simp only [micro] at h
    split at h
    · rename_i hm
      cases h
      first
        | exact ⟨hstay trivial trivial, trivial, id, id⟩
        | exact ⟨.write trivial trivial rfl (fun _ => hmax hm), trivial, id, id⟩
    · rename_i hm
      cases h
      first
        | exact ⟨hstay trivial trivial, trivial, id, id⟩
        | exact ⟨.write trivial trivial rfl (fun _ => hmax hm), trivial, id, id⟩
  case pMap =>
    simp only [micro] at h
    split at h
    · cases h
      exact ⟨hstay trivial trivial, trivial, id, id⟩
    · rename_i hm
      cases h
      exact ⟨hstay trivial trivial, hmax hm, id, id⟩
  case pSetLen newSize mapLen =>
    simp only [micro] at h
    split at h <;> cases h
    · exact ⟨hstay trivial trivial, trivial, id, id⟩
    · exact ⟨.write trivial trivial rfl id, hb, id, id⟩
  case pInstall mapLen =>
    cases h
    exact ⟨.write trivial trivial rfl (fun _ => hb), trivial, id, id⟩
  case zStore =>
    cases h
    exact ⟨.write trivial trivial rfl id, trivial, id, id⟩
  all_goals cases h

/-! ## Along a run -/

/-- **Every entry fits the installed mapping**, the ids in the set are those the registrations hold, and a registration with
a range holds a guard. -/
structure Entries (P : Platform) (asked : Nat → Nat → Nat → Prop) (s : State V) : Prop where
  held : Held Pc.writing Pc.reading s.shared.lock s.pc
  small : s.shared.len ≤ P.width.maxLen
  bounded : ∀ v, (s.pc v).Bounded P asked
  range : ∀ v r size, (s.views.pc v).atomicRange = some (r, size) → (s.pc v).registers ∧ EntryFits asked s.shared.len r size
  owned : TagsOwned (s.views.reg.atomics.entries.map AtomicEntry.id) (Views.Pc.id ∘ s.views.pc)
  fits : ∀ e ∈ s.views.reg.atomics.entries, EntryFits asked s.shared.len e.range e.size

omit [DecidableEq V] in
/-- While somebody writes there is no range and no entry. -/
theorem Entries.quiet {s : State V} (hi : Entries P asked s) {v : V} (hw : (s.pc v).writing) :
    (∀ u, (s.views.pc u).atomicRange = none) ∧ s.views.reg.atomics.entries = [] := by
  have hrange : ∀ u, (s.views.pc u).atomicRange = none := by
    intro u
    cases hu : (s.views.pc u).atomicRange with
    | none => rfl
    | some x =>
      have hreg := (hi.range u x.1 x.2 hu).1
      exact absurd (reading_of_registers hreg) (hi.held.no_reader hw)
  refine ⟨hrange, List.map_eq_nil_iff.1 (hi.owned.eq_nil (fun u => ?_))⟩
  cases hu : (Views.Pc.id ∘ s.views.pc) u with
  | none => rfl
  | some n => exact absurd (hrange u) (Views.atomicRange_of_id hu)

/-- **A token moves on the mapping's side**: the lock, the length, a program counter outside the registry. -/
theorem Entries.micro {s : State V} (hi : Entries P asked s) {v : V} (h : micro P os s.shared v (s.pc v) = some (g', p')) :
    Entries P asked ⟨g', s.views, Function.update s.pc v p'⟩ := by
  obtain ⟨hshift, hb, hno, hno'⟩ := micro_shift (hi.bounded v) h
  have hbounded : ∀ u, (Function.update s.pc v p' u).Bounded P asked := by
    intro u
    by_cases hu : u = v
    · subst hu
      rw [Function.update_self]
      exact hb
    · rw [Function.update_of_ne hu]
      exact hi.bounded u
  -- the acting token has no range, and the others keep their program counters
  have hrange : ∀ u r size, (s.views.pc u).atomicRange = some (r, size) →
      (Function.update s.pc v p' u).registers ∧ EntryFits asked s.shared.len r size := by
    intro u r size hu
    obtain ⟨hreg, hfits⟩ := hi.range u r size hu
    have hne : u ≠ v := by
      rintro rfl
      exact hno hreg
    rw [Function.update_of_ne hne]
    exact ⟨hreg, hfits⟩
  generalize hp : s.pc v = p at hshift
  cases hshift with
  | enterRead hl hr hw => exact ⟨hi.held.acquireRead hl hw hr, hi.small, hbounded, hrange, hi.owned, hi.fits⟩
  | enterWrite hl hw =>
    exact ⟨hi.held.acquireWrite hl hw (not_reading_of_writing hw), hi.small, hbounded, hrange, hi.owned, hi.fits⟩
  | write hw hw' hlock hlen =>
    have hwv : (s.pc v).writing := hp ▸ hw
    obtain ⟨hnone, hempty⟩ := hi.quiet hwv
    refine ⟨?_, hlen hi.small, hbounded, fun u r size hu => ?_, hi.owned, fun e he => ?_⟩
    · rw [hlock]
      exact hi.held.stay (iff_of_true hw' hwv) (iff_of_false (not_reading_of_writing hw') (not_reading_of_writing hwv))
    · rw [hnone u] at hu
      cases hu
    · rw [hempty] at he
      cases he
  | leaveRead => exact ⟨hi.held.releaseRead (hp ▸ trivial) id id, hi.small, hbounded, hrange, hi.owned, hi.fits⟩
  | leaveWrite => exact ⟨hi.held.releaseWrite (hp ▸ trivial) id id, hi.small, hbounded, hrange, hi.owned, hi.fits⟩

/-- **A token moves inside its section**, without the registry. -/
theorem Entries.stay {s : State V} (hi : Entries P asked s) {v : V} {p' : Pc V} (hr : p'.reading ↔ (s.pc v).reading)
    (hw : p'.writing ↔ (s.pc v).writing) (hb : p'.Bounded P asked)
    (hreg : (s.views.pc v).atomicRange ≠ none → p'.registers) : Entries P asked (s.setPc v p') := by
  refine ⟨hi.held.stay hw hr, hi.small, fun u => ?_, fun u r size hu => ?_, hi.owned, hi.fits⟩
  · by_cases huv : u = v
    · subst huv
      simp only [State.setPc, Function.update_self]
      exact hb
    · simp only [State.setPc, Function.update_of_ne huv]
      exact hi.bounded u
  · obtain ⟨hold, hfits⟩ := hi.range u r size hu
    refine ⟨?_, hfits⟩
    by_cases huv : u = v
    · subst huv
      simp only [State.setPc, Function.update_self]
      exact hreg (by
        have hsome : (s.views.pc u).atomicRange = some (r, size) := hu
        rw [hsome]
        nofun)
    · simp only [State.setPc, Function.update_of_ne huv]
      exact hold

/-- **A token moves in the registry.**  Only a call of `register_atomic` brings a new range, which has to fit. -/
theorem Entries.register {s s' : State V} (hi : Entries P asked s) {a : Views.Action V} (h : s.register a = some s')
    (hcall : ∀ r size, a = .registerAtomic a.token r size → (s.pc a.token).registers ∧ EntryFits asked s.shared.len r size) :
    Entries P asked s' := by
  obtain ⟨vs, hvs, rfl⟩ := register_eq h
  obtain ⟨q, hpc, hm, hatomic⟩ := Views.step_token hvs
  have hq : vs.pc a.token = q := by rw [hpc, Function.update_self]
  -- the range after the move was there before, or it is the call's
  have hrange : ∀ r size, q.atomicRange = some (r, size) → (s.pc a.token).registers ∧ EntryFits asked s.shared.len r size := by
    intro r size hrange
    rcases Views.move_atomicRange hm hrange with hold | ⟨hidle, henter⟩
    · exact hi.range _ r size hold
    · have hcalled : a.isRegisterAtomic = true := hatomic.2 ⟨hidle, by rw [henter]; rfl⟩
      cases a with
      | registerAtomic v r' size' =>
        simp only [Views.step] at hvs
        split at hvs
        · cases hvs
          simp only [Views.Action.token, Function.update_self] at hq
          rw [← hq] at henter
          cases henter
          exact hcall r size rfl
        · cases hvs
      | registerPlain | dropView | advance => cases hcalled
  refine ⟨hi.held, hi.small, hi.bounded, fun u r size hu => ?_, ?_, fun e he => ?_⟩
  · by_cases huv : u = a.token
    · subst huv
      exact hrange r size (hq ▸ hu)
    · have hsame : vs.pc u = s.views.pc u := by rw [hpc, Function.update_of_ne huv]
      exact hi.range u r size (hsame ▸ hu)
  · have howned := Views.move_owned hm rfl hi.owned
    rw [← hpc] at howned
    exact howned
  · rcases Views.move_mem hm he with hold | hrange
    · exact hi.fits e hold
    · exact (hi.range _ _ _ hrange).2

theorem setPc_register {s s' : State V} {a : Views.Action V} (h : s.register a = some s') (v : V) (p' : Pc V) :
    (s.setPc v p').register a = some (s'.setPc v p') := by
  obtain ⟨vs, hvs, rfl⟩ := register_eq h
  simp only [State.register, State.setPc, hvs, Option.map_some]

/-- A token inside a read section goes on inside, and leaves the registry alone. -/
theorem Entries.read {s : State V} (hi : Entries P asked s) {v : V} {p p' : Pc V} (hpc : s.pc v = p) (hr : p.reading)
    (hr' : p'.reading) (hb : p'.Bounded P asked) (hreg : (s.views.pc v).atomicRange ≠ none → p'.registers) :
    Entries P asked (s.setPc v p') := by
  have hno : ∀ {q : Pc V}, q.reading → ¬ q.writing := fun hq hw => not_reading_of_writing hw hq
  subst hpc
  exact hi.stay (iff_of_true hr' hr) (iff_of_false (hno hr') (hno hr)) hb hreg

omit [DecidableEq V] in
/-- A token that is at no atomic view has no range. -/
theorem Entries.no_range {s : State V} (hi : Entries P asked s) {v : V} {p : Pc V} (hpc : s.pc v = p) (hno : ¬ p.registers) :
    (s.views.pc v).atomicRange = none := by
  cases hv : (s.views.pc v).atomicRange with
  | none => rfl
  | some x => exact absurd (hpc ▸ (hi.range v x.1 x.2 hv).1) hno

/-- A token inside a read section goes on inside and moves in the registry, but not to call `register_atomic`. -/
theorem Entries.readRegister {s s' : State V} (hi : Entries P asked s) {v : V} {p p' : Pc V} (hpc : s.pc v = p)
    (hr : p.reading) (hr' : p'.reading) (hb : p'.Bounded P asked) (hreg : p.registers → p'.registers) {a : Views.Action V}
    (h : s.register a = some s') (hcall : a.isRegisterAtomic = false) : Entries P asked (s'.setPc v p') := by
  have hset : Entries P asked (s.setPc v p') := by
    refine hi.read hpc hr hr' hb (fun hne => ?_)
    by_cases hp : p.registers
    · exact hreg hp
    · exact absurd (hi.no_range hpc hp) hne
  refine hset.register (setPc_register h v p') (fun r size ha => ?_)
  rw [ha] at hcall
  cases hcall

theorem Entries.advance {s s' : State V} (hi : Entries P asked s) {v : V} {shard : Fin shards}
    (h : advance P os shard s v = some s') : Entries P asked s' := by
  have hb := hi.bounded v
  -- a registration or a drop that goes on in the registry
  have hgo : s.register (.advance v) = some s' → Entries P asked s' :=
    fun h => hi.register h (fun r size ha => by cases ha)
  unfold Pin.advance at h
  cases hpc : s.pc v <;> rw [hpc] at hb <;> simp only [hpc] at h
  case sCheck offset len gen =>
    split at h
    · cases h
      exact hi.read hpc trivial trivial trivial (fun hne => absurd (hi.no_range hpc id) hne)
    · rw [Option.map_eq_some_iff] at h
      obtain ⟨s₁, hreg, rfl⟩ := h
      exact hi.readRegister hpc trivial trivial trivial id hreg rfl
  case jBegin start stop gen =>
    rw [Option.map_eq_some_iff] at h
    obtain ⟨s₁, hreg, rfl⟩ := h
    exact hi.readRegister hpc trivial trivial trivial id hreg rfl
  case sReg start stop gen | jReg start stop gen =>
    split at h
    · cases h
      exact hi.read hpc trivial trivial trivial (fun hne => absurd (hi.no_range hpc id) hne)
    · cases h
      exact hi.read hpc trivial trivial trivial (fun hne => absurd (hi.no_range hpc id) hne)
    · exact hgo h
  case iNext chunkSize total offset gen item =>
    split at h
    · cases h
      exact hi.read hpc trivial trivial trivial (fun hne => absurd (hi.no_range hpc id) hne)
    · cases h
  case aCheck size offset len gen =>
    split at h
    · cases h
      exact hi.read hpc trivial trivial trivial (fun hne => absurd (hi.no_range hpc id) hne)
    · rename_i hfit
      rw [Option.map_eq_some_iff] at h
      obtain ⟨s₁, hreg, rfl⟩ := h
      obtain ⟨hd, count, hasked, rfl⟩ := hb
      have hmax := P.width.lt_of_le_maxLen hi.small
      have hle := (saturating_le hmax).1 (Nat.not_lt.1 hfit)
      rw [saturatingMul_of_le hmax (Nat.le_trans (Nat.le_add_left ..) hle)] at hreg ⊢
      have hset : Entries P asked (s.setPc v (.aReg offset (offset + size * count) gen)) :=
        hi.read hpc trivial trivial trivial (fun _ => trivial)
      have hnext := hset.register (setPc_register hreg v _) (fun r size' ha => by
        cases ha
        refine ⟨?_, hd, ⟨count, hasked, rfl⟩, hle⟩
        simp only [State.setPc, Views.Action.token, Function.update_self]
        trivial)
      exact ⟨hnext.held, hnext.small, hnext.bounded, hnext.range, hnext.owned, hnext.fits⟩
  case aReg start stop gen =>
    split at h
    · cases h
      exact hi.read hpc trivial trivial trivial (fun _ => trivial)
    · rename_i c hc
      cases h
      exact hi.read hpc trivial trivial trivial (fun hne => absurd (by rw [hc]; rfl) hne)
    · exact hgo h
  case sDrop | aDrop =>
    split at h
    · rename_i hc
      cases h
      exact hi.read hpc trivial trivial trivial (fun hne => absurd (by rw [hc]; rfl) hne)
    · rename_i hc
      cases h
      exact hi.read hpc trivial trivial trivial (fun hne => absurd (by rw [hc]; rfl) hne)
    · exact hgo h
  all_goals
    rw [Option.map_eq_some_iff] at h
    obtain ⟨⟨g, p⟩, hm, rfl⟩ := h
    exact hi.micro (hpc ▸ hm)

/-- A token outside both sections goes on outside. -/
theorem Entries.wait {s : State V} (hi : Entries P asked s) {v : V} {p p' : Pc V} (hpc : s.pc v = p) (hr : ¬ p.reading)
    (hw : ¬ p.writing) (hr' : ¬ p'.reading) (hw' : ¬ p'.writing) (hb : p'.Bounded P asked) : Entries P asked (s.setPc v p') := by
  have hno : ¬ p.registers := fun h => hr (reading_of_registers h)
  have hnone := hi.no_range hpc hno
  subst hpc
  exact hi.stay (iff_of_false hr' hr) (iff_of_false hw' hw) hb (fun hne => absurd hnone hne)

/-- The writer goes on inside. -/
theorem Entries.write {s : State V} (hi : Entries P asked s) {v : V} {p p' : Pc V} (hpc : s.pc v = p) (hw : p.writing)
    (hw' : p'.writing) (hb : p'.Bounded P asked) : Entries P asked (s.setPc v p') := by
  subst hpc
  have hnone := (hi.quiet hw).1 v
  exact hi.stay (iff_of_false (not_reading_of_writing hw') (not_reading_of_writing hw)) (iff_of_true hw' hw) hb
    (fun hne => absurd hnone hne)

/-- **Every action keeps the entries fitting.** -/
theorem Entries.step {s s' : State V} {a : Action V} (hi : Entries P asked s)
    (ha : ∀ v size offset count, a = .call v (.atomicView size offset count) → asked size offset count)
    (h : step P s a = some s') : Entries P asked s' := by
  cases a with
  | call v op =>
    simp only [Pin.step] at h
    split at h
    swap
    · cases h
    rename_i hidle
    cases h
    obtain ⟨hr, hw, -⟩ := start_outside (P := P) op s.shared.gen
    exact hi.wait hidle id id hr hw (start_bounded (fun _ _ _ hop => ha v _ _ _ (by rw [hop])) s.shared.gen)
  | next it v =>
    simp only [Pin.step] at h
    split at h
    swap
    · cases h
    rename_i chunkSize total offset gen hit hv
    split at h
    · cases h
    · cases h
      have hne : it ≠ v := by
        rintro rfl
        rw [hit] at hv
        cases hv
      have h₁ : Entries P asked (s.setPc it (.iNext chunkSize total (offset + min (total - offset) chunkSize) gen v)) :=
        hi.read hit trivial trivial trivial (fun hn => absurd (hi.no_range hit id) hn)
      exact h₁.wait ((Function.update_of_ne hne.symm ..).trans hv) id id id id trivial
  | advance v os shard => exact hi.advance h
  | store v offset byte =>
    simp only [Pin.step] at h
    split at h
    swap
    · cases h
    split at h
    swap
    · cases h
    cases h
    exact ⟨hi.held, hi.small, hi.bounded, hi.range, hi.owned, hi.fits⟩
  | leave v ok =>
    simp only [Pin.step] at h
    cases hpc : s.pc v <;> simp only [hpc] at h
    case slice =>
      rw [Option.map_eq_some_iff] at h
      obtain ⟨s₁, hreg, rfl⟩ := h
      exact hi.readRegister hpc trivial trivial trivial id hreg rfl
    case atomic =>
      rw [Option.map_eq_some_iff] at h
      obtain ⟨s₁, hreg, rfl⟩ := h
      exact hi.readRegister hpc trivial trivial trivial (fun _ => trivial) hreg rfl
    case sEmpty =>
      cases h
      exact hi.wait hpc id id id id trivial
    case iter =>
      cases h
      exact hi.read hpc trivial trivial trivial (fun hne => absurd (hi.no_range hpc id) hne)
    case sliceMut =>
      cases h
      exact hi.write hpc trivial trivial trivial
    case cChunk =>
      cases h
      cases ok
      · exact hi.write hpc trivial trivial trivial
      · exact hi.write hpc trivial trivial trivial
    all_goals cases h

omit [DecidableEq V] in
theorem init_entries {file : List UInt8} (hfile : file.length ≤ P.width.maxLen) :
    Entries P asked (State.init file : State V) where
  held := ⟨fun v => iff_of_false nofun id, fun v => iff_of_false (Finset.notMem_empty v) id⟩
  small := hfile
  bounded _ := trivial
  range v r size h := by cases h
  owned := TagsOwned.nil (fun _ => rfl)
  fits e he := by cases he

/-- **Along every run every entry of the atomic set fits the installed mapping**, and is of a view that was asked for. -/
theorem run_entries {file : List UInt8} (hfile : file.length ≤ P.width.maxLen) {acts : List (Action V)} {s : State V}
    (hr : Machine.run (Pin.step P) (State.init file) acts = some s) :
    Entries P (fun size offset count => ∃ v, .call v (.atomicView size offset count) ∈ acts) s := by
  refine Machine.run_induction_of (fun _ s => Entries P
    (fun size offset count => ∃ v, .call v (.atomicView size offset count) ∈ acts) s) (init_entries hfile) ?_ acts s hr
    (fun a ha => ha)
  intro as a s s' hmem ih h
  exact ih.step (fun v size offset count ha => ⟨v, ha ▸ hmem⟩) h

end Pin
end MmapIo
