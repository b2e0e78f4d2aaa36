import MmapIo.PinStep
import MmapIo.ViewsExcl
/-!
# Pin — live views pin the mapping

Every view but an empty slice holds a guard of the mapping's lock, so while it lives nobody remaps, and nobody stores to its
bytes but through it: the writers are kept out by the guard, the atomic views by the registry (`ViewsExcl`).  `Good` says
what each program counter knows about the mapping; a step keeps what the acting token knows (`micro_turn`), and what the
others know stays true because the step changes nothing (`Good.same`), or only a writer acts (`Good.outside`), or the store
is to bytes that no slice has (`Good.store`).
-/
namespace MmapIo
namespace Views

/-- The range of a registration in progress or of a view. -/
def Pc.span : Pc → Option Span
  | .pInsert r _ | .pLoad r _ | .pReadLock r _ | .pScan r _ | .pReleaseOk r _ | .pReleaseErr r _ | .pUndo r _
  | .plainLive r _ | .pDrop r _ | .aEnter r _ | .aWriteLock r _ | .aMixed r _ | .aIncr r _ | .aScan r _ _ | .aDecr r _
  | .aPush r _ | .aReleaseOk r _ _ | .atomicLive r _ _ | .dWriteLock r _ _ | .dFind r _ _ => some r
  | _ => none

variable {V : Type} [DecidableEq V]

theorem micro_span {g g' : ViewRegistry V} {v : V} {p p' : Pc} (h : micro g v p = some (g', p')) :
    p'.span = p.span ∨ p'.span = none := by
  have hm := micro_move h
  cases hm with
  | registerPlain | registerAtomic => cases h
  | undo | removed | unlockErr | decr | mixedHit | found | missing | dropDecr | dropUnlock | dropEmpty => exact Or.inr rfl
  | _ => exact Or.inl rfl

theorem step_advance {s s' : State V} {v : V} (h : step s (.advance v) = some s') :
    ((s'.pc v).span = (s.pc v).span ∨ (s'.pc v).span = none) ∧ ∀ u, u ≠ v → s'.pc u = s.pc u := by
  simp only [step, Option.map_eq_some_iff] at h
  obtain ⟨⟨g, p⟩, hm, rfl⟩ := h
  refine ⟨?_, fun u hu => Function.update_of_ne hu ..⟩
  simp only [Function.update_self]
  exact micro_span hm

theorem step_registerPlain {s s' : State V} {v : V} {r : Span} {shard : Fin shards}
    (h : step s (.registerPlain v r shard) = some s') :
    (s'.pc v).span = some r ∧ ∀ u, u ≠ v → s'.pc u = s.pc u := by
  simp only [step] at h
  split at h
  · cases h
    refine ⟨?_, fun u hu => Function.update_of_ne hu ..⟩
    simp only [Function.update_self]
    rfl
  · cases h

theorem step_registerAtomic {s s' : State V} {v : V} {r : Span} {size : Nat}
    (h : step s (.registerAtomic v r size) = some s') :
    (s'.pc v).span = some r ∧ ∀ u, u ≠ v → s'.pc u = s.pc u := by
  simp only [step] at h
  split at h
  · cases h
    refine ⟨?_, fun u hu => Function.update_of_ne hu ..⟩
    simp only [Function.update_self]
    rfl
  · cases h

theorem step_dropView {s s' : State V} {v : V} (h : step s (.dropView v) = some s') : ∀ u, u ≠ v → s'.pc u = s.pc u := by
  simp only [step, Option.map_eq_some_iff] at h
  obtain ⟨p, -, rfl⟩ := h
  exact fun u hu => Function.update_of_ne hu ..

end Views

namespace Pin

open Word Bytes

variable {V : Type}

/-- Inside a read section of the mapping's lock. -/
def Pc.reading : Pc V → Prop
  | .sCheck _ _ _ | .sReg _ _ _ | .slice _ _ _ _ | .sDrop | .iter _ _ _ _ | .iNext _ _ _ _ _ | .jBegin _ _ _ | .jReg _ _ _
  | .aCheck _ _ _ _ | .aReg _ _ _ | .atomic _ _ _ | .aDrop | .unlockRead _ => True
  | _ => False

/-- Inside its write section. -/
def Pc.writing : Pc V → Prop
  | .mCheck _ _ _ | .sliceMut _ _ _ | .uCheck _ _ | .uStore _ _ | .cNext _ _ | .cChunk _ _ _ | .zCmp _ _ | .gSetLen _ _ _
  | .gMap _ _ | .gRestore _ _ | .pMap _ _ | .pSetLen _ _ | .pInstall _ | .wPlaceholder _ _ _ | .wSetLen _ _ _ | .wRestore _ _
  | .wMap _ | .zStore _ | .unlockWrite _ => True
  | _ => False

/-- A range of the mapping `gen`, which is the installed one. -/
structure Within (g : Shared V) (start stop gen : Nat) : Prop where
  gen : gen = g.gen
  le : start ≤ stop
  le_len : stop ≤ g.len

/-- What a program counter knows about the mapping; `vp` is where the token is in the registry, and `kept` says that slices
keep their bytes. -/
def Good (P : Platform) (kept : Prop) (g : Shared V) (vp : Views.Pc) : Pc V → Prop
  | .sCheck _ _ gen | .aCheck _ _ _ gen => gen = g.gen
  | .iter _ total _ gen | .iNext _ total _ gen _ => Within g 0 total gen
  | .jBegin start stop gen => Within g start stop gen
  | .sReg start stop gen | .jReg start stop gen | .aReg start stop gen =>
    Within g start stop gen ∧ (vp.span = some ⟨start, stop⟩ ∨ vp.span = none)
  | .slice start stop gen bytes =>
    Within g start stop gen ∧ (∃ reg, vp = .plainLive ⟨start, stop⟩ reg) ∧ (kept → g.file.extract start stop = bytes)
  | .atomic start stop gen => Within g start stop gen ∧ ∃ size id, vp = .atomicLive ⟨start, stop⟩ size id
  | .sliceMut start stop gen => Within g start stop gen ∧ g.len ≤ g.file.length
  | .mCheck _ _ gen => gen = g.gen ∧ g.len ≤ g.file.length
  | .zLock newSize newLen => newLen = newSize
  | .zCmp newSize newLen | .pMap newSize newLen => newLen = newSize ∧ g.len ≤ g.file.length
  | .gSetLen cur newSize _ => g.len = cur ∧ cur ≤ newSize ∧ g.len ≤ g.file.length
  | .gMap cur _ | .gRestore cur _ => g.len = cur ∧ g.len ≤ g.file.length
  | .pSetLen newSize mapLen => mapLen ≤ newSize ∧ mapLen ≤ P.width.maxLen ∧ g.len ≤ g.file.length
  -- between the truncation and the swap the old mapping is longer than the file
  | .pInstall mapLen => mapLen ≤ g.file.length ∧ mapLen ≤ P.width.maxLen
  | .wSetLen _ _ _ => g.len = 0
  | .uCheck _ _ | .uStore _ _ | .cNext _ _ | .cChunk _ _ _ | .wPlaceholder _ _ _ | .wRestore _ _ | .wMap _ | .zStore _
  | .unlockWrite _ => g.len ≤ g.file.length
  | _ => True

variable {P : Platform} {kept : Prop} {g g' : Shared V} {vp : Views.Pc} {p p' : Pc V}

theorem Within.same {start stop gen : Nat} (h : Within g start stop gen) (hlen : g'.len = g.len) (hgen : g'.gen = g.gen) :
    Within g' start stop gen := ⟨h.gen.trans hgen.symm, h.le, hlen ▸ h.le_len⟩

theorem Good.same (h : Good P kept g vp p) (hfile : g'.file = g.file) (hlen : g'.len = g.len) (hgen : g'.gen = g.gen) :
    Good P kept g' vp p := by
  cases p <;> simp only [Good, hfile, hlen, hgen] at h ⊢
  case iter | iNext | jBegin => exact h.same hlen hgen
  case slice => exact ⟨h.1.same hlen hgen, h.2.1, by rw [hfile]; exact h.2.2⟩
  case sReg | jReg | aReg | atomic | sliceMut => exact ⟨h.1.same hlen hgen, h.2⟩
  all_goals exact h

/-- Who is outside both sections knows nothing about the mapping. -/
theorem Good.outside (h : Good P kept g vp p) (hr : ¬ p.reading) (hw : ¬ p.writing) : Good P kept g' vp p := by
  cases p
  case zLock => exact h
  case idle | sLock | sEmpty | iLock | jLock | aLock | mLock | uLock | cLock | done => trivial
  all_goals first | exact absurd trivial hr | exact absurd trivial hw

/-- A store to bytes that the token's slice, if it keeps its bytes, does not have. -/
theorem Good.store (h : Good P kept g vp p) {offset : Nat} {byte : UInt8}
    (hout : kept → ∀ start stop gen bytes, p = .slice start stop gen bytes → ¬ (start ≤ offset ∧ offset < stop)) :
    Good P kept { g with file := g.file.set offset byte } vp p := by
  cases p <;> simp only [Good, List.length_set] at h ⊢
  case slice start stop gen bytes =>
    refine ⟨h.1.same rfl rfl, h.2.1, fun hk => ?_⟩
    rw [← h.2.2 hk]
    have hno := hout hk start stop gen bytes rfl
    rw [List.extract_eq_take_drop, List.extract_eq_take_drop]
    refine List.ext_getElem? (fun i => ?_)
    rw [List.getElem?_take, List.getElem?_take, List.getElem?_drop, List.getElem?_drop]
    by_cases hi : i < stop - start
    · rw [if_pos hi, if_pos hi, List.getElem?_set_ne (by omega)]
    · rw [if_neg hi, if_neg hi]
  case iter | iNext | jBegin => exact h.same rfl rfl
  case sReg | jReg | aReg | atomic | sliceMut => exact ⟨h.1.same rfl rfl, h.2⟩
  all_goals exact h

/-! ## The acting token -/

theorem not_jLock_of_inside (h : p.reading ∨ p.writing) (it : V) (start stop : Nat) : p ≠ .jLock it start stop := by
  rintro rfl
  rcases h with h | h <;> cases h

theorem not_reading_of_writing (h : p.writing) : ¬ p.reading := by
  cases p
  case mCheck | sliceMut | uCheck | uStore | cNext | cChunk | zCmp | gSetLen | gMap | gRestore | pMap | pSetLen | pInstall
      | wPlaceholder | wSetLen | wRestore | wMap | zStore | unlockWrite => exact id
  all_goals cases h

theorem window_cases {start stop : Nat} (h : p.window = some (start, stop)) :
    (∃ gen, p = .atomic start stop gen) ∨ p.writing := by
  cases p
  case atomic =>
    cases h
    exact Or.inl ⟨_, rfl⟩
  case sliceMut | cChunk => exact Or.inr trivial
  all_goals cases h

theorem start_outside (op : Op) (gen : Nat) : ¬ (op.start P gen : Pc V).reading ∧ ¬ (op.start P gen : Pc V).writing ∧
    ∀ it start stop, (op.start P gen : Pc V) ≠ .jLock it start stop := by
  cases op <;> simp only [Op.start]
  case chunks | asSliceMut => exact ⟨id, id, nofun⟩
  case asSlice | atomicView | updateRegion | chunksMut | resize =>
    repeat' split
    all_goals exact ⟨id, id, nofun⟩

/-- A call knows the size it asks for, and nothing else. -/
theorem start_good (op : Op) (gen : Nat) (g : Shared V) (vp : Views.Pc) : Good P kept g vp (op.start P gen) := by
  cases op <;> simp only [Op.start]
  case chunks | asSliceMut => trivial
  case asSlice | atomicView | updateRegion | chunksMut => split <;> trivial
  case resize newSize =>
    split
    · trivial
    · split
      · trivial
      · split
        · trivial
        · rename_i newLen hnew
          unfold tryFrom at hnew
          split at hnew
          · cases hnew
            rfl
          · cases hnew

variable [DecidableEq V] {os : Os} {v : V}

/-- What a step of `micro` can do. -/
inductive Turn (P : Platform) (kept : Prop) (g : Shared V) (v : V) (vp : Views.Pc) : Pc V → Shared V → Pc V → Prop
  | enterRead {p p' : Pc V} {l : RwLock V} (hl : g.lock.acquireRead v = some l) (hp : ¬ p.reading ∧ ¬ p.writing)
      (hr : p'.reading) (hw : ¬ p'.writing) (hit : ∀ it start stop, p' ≠ .jLock it start stop)
      (hgood : (∀ it start stop, p = .jLock it start stop → start ≤ stop ∧ stop ≤ g.len) → Good P kept g vp p') :
      Turn P kept g v vp p { g with lock := l } p'
  | enterWrite {p p' : Pc V} {l : RwLock V} (hl : g.lock.acquireWrite v = some l) (hp : ¬ p.reading ∧ ¬ p.writing)
      (hw : p'.writing) (hgood : g.len ≤ g.file.length → Good P kept g vp p') : Turn P kept g v vp p { g with lock := l } p'
  | write {p p' : Pc V} {g' : Shared V} (hw : p.writing) (hw' : p'.writing) (hlock : g'.lock = g.lock)
      (hreg : g'.registered = g.registered) (hlen : g.len ≤ P.width.maxLen → g'.len ≤ P.width.maxLen)
      (hgood : Good P kept g' vp p') : Turn P kept g v vp p g' p'
  | leaveRead {r : Res} : Turn P kept g v vp (.unlockRead r) { g with lock := g.lock.releaseRead v } (.done r)
  | leaveWrite {r : Res} : Turn P kept g v vp (.unlockWrite r) { g with lock := g.lock.releaseWrite } (.done r)

theorem micro_turn (hp : Good P kept g vp p) (h : micro P os g v p = some (g', p')) : Turn P kept g v vp p g' p' := by
  -- a step of the writer that changes neither the file nor the mapping
  have hstay : ∀ {q q' : Pc V}, q.writing → q'.writing → Good P kept g vp q' → Turn P kept g v vp q g q' :=
    fun hw hw' hgood => .write hw hw' rfl rfl id hgood
  cases p
  case sLock | aLock =>
    simp only [micro, Option.map_eq_some_iff] at h
    obtain ⟨l, hl, h⟩ := h
    cases h
    exact .enterRead hl ⟨id, id⟩ trivial id nofun (fun _ => rfl)
  case iLock =>
    simp only [micro, Option.map_eq_some_iff] at h
    obtain ⟨l, hl, h⟩ := h
    cases h
    exact .enterRead hl ⟨id, id⟩ trivial id nofun (fun _ => ⟨rfl, Nat.zero_le _, Nat.le_refl _⟩)
  case jLock it start stop =>
    simp only [micro, Option.map_eq_some_iff] at h
    obtain ⟨l, hl, h⟩ := h
    cases h
    refine .enterRead hl ⟨id, id⟩ trivial id nofun (fun hj => ?_)
    exact ⟨rfl, (hj it start stop rfl).1, (hj it start stop rfl).2⟩
  case mLock =>
    simp only [micro, Option.map_eq_some_iff] at h
    obtain ⟨l, hl, h⟩ := h
    cases h
    exact .enterWrite hl ⟨id, id⟩ trivial (fun hb => ⟨rfl, hb⟩)
  case uLock | cLock =>
    simp only [micro, Option.map_eq_some_iff] at h
    obtain ⟨l, hl, h⟩ := h
    cases h
    exact .enterWrite hl ⟨id, id⟩ trivial id
  case zLock =>
    simp only [micro, Option.map_eq_some_iff] at h
    obtain ⟨l, hl, h⟩ := h
    cases h
    exact .enterWrite hl ⟨id, id⟩ trivial (fun hb => ⟨hp, hb⟩)
  case mCheck offset len gen =>
    obtain ⟨hgen, hb⟩ := hp
    simp only [micro] at h
    split at h
    · cases h
      exact hstay trivial trivial ⟨⟨hgen, Nat.le_refl _, Nat.zero_le _⟩, hb⟩
    · split at h
      · cases h
        exact hstay trivial trivial hb
      · rename_i start stop hs
        cases h
        obtain ⟨rfl, rfl, hlen⟩ := sliceRange_ok hs
        exact hstay trivial trivial ⟨⟨hgen, Nat.le_add_right .., hlen⟩, hb⟩
  case uCheck | cNext =>
    simp only [micro] at h
    split at h
    · cases h
      exact hstay trivial trivial hp
    · cases h
      exact hstay trivial trivial hp
  case uStore pos rest =>
    cases rest with
    | nil =>
      cases h
      exact hstay trivial trivial hp
    | cons byte rest =>
      cases h
      refine .write trivial trivial rfl rfl id ?_
      simp only [Good, List.length_set]
      exact hp
  case zCmp newSize newLen =>
    obtain ⟨hnew, hb⟩ := hp
    simp only [micro, Option.some.injEq, Prod.mk.injEq] at h
    obtain ⟨rfl, rfl⟩ := h
    split
    · exact hstay trivial trivial hb
    · split
      · rename_i hlt
        exact hstay trivial trivial ⟨rfl, Nat.le_of_lt (hnew ▸ hlt), hb⟩
      · split
        · exact hstay trivial trivial hb
        · exact hstay trivial trivial ⟨hnew, hb⟩
  case gSetLen cur newSize newLen =>
    obtain ⟨hcur, hle, hb⟩ := hp
    simp only [micro] at h
    split at h
    · cases h
      exact hstay trivial trivial hb
    · cases h
      refine .write trivial trivial rfl rfl id ⟨hcur, ?_⟩
      simp only [length_setLen]
      omega
  case gMap cur newLen =>
    obtain ⟨hcur, hb⟩ := hp
    simp only [micro] at h
    split at h
    · rename_i len hm
      cases h
      obtain ⟨rfl, hfile, hmax⟩ := mapFileRw_ok hm
      exact .write trivial trivial rfl rfl (fun _ => hmax) hfile
    · cases h
      exact hstay trivial trivial ⟨hcur, hb⟩
  case gRestore cur e =>
    obtain ⟨hcur, hb⟩ := hp
    simp only [micro] at h
    split at h
    · cases h
      refine .write trivial trivial rfl rfl id ?_
      simp only [Good, length_setLen]
      exact Nat.le_of_eq hcur
    · cases h
      exact hstay trivial trivial hb
  case pMap newSize newLen =>
    obtain ⟨hnew, hb⟩ := hp
    simp only [micro] at h
    split at h
    · cases h
      exact hstay trivial trivial hb
    · rename_i len hm
      cases h
      obtain ⟨rfl, -, hmax⟩ := mapFileRw_ok hm
      exact hstay trivial trivial ⟨Nat.le_of_eq hnew, hmax, hb⟩
  case pSetLen newSize mapLen =>
    obtain ⟨hle, hmax, hb⟩ := hp
    simp only [micro] at h
    split at h
    · cases h
      exact hstay trivial trivial hb
    · cases h
      refine .write trivial trivial rfl rfl id ?_
      simp only [Good, length_setLen]
      exact ⟨hle, hmax⟩
  case wPlaceholder cur newSize newLen =>
    simp only [micro] at h
    split at h
    · cases h
      exact hstay trivial trivial hp
    · cases h
      exact .write trivial trivial rfl rfl (fun _ => Nat.zero_le _) rfl
  case wSetLen cur newSize newLen =>
    have hzero : ∀ n, g.len ≤ n := fun n => Nat.le_trans (Nat.le_of_eq hp) (Nat.zero_le n)
    simp only [micro] at h
    split at h
    · cases h
      exact hstay trivial trivial (hzero _)
    · cases h
      exact .write trivial trivial rfl rfl id (hzero _)
  case wRestore | wMap =>
    simp only [micro] at h
    split at h
    · cases h
      exact hstay trivial trivial hp
    · rename_i len hm
      cases h
      obtain ⟨rfl, hfile, hmax⟩ := mapFileRw_ok hm
      exact .write trivial trivial rfl rfl (fun _ => hmax) hfile
  case pInstall mapLen =>
    cases h
    exact .write trivial trivial rfl rfl (fun _ => hp.2) hp.1
  case zStore r =>
    cases h
    exact .write trivial trivial rfl rfl id hp
  case unlockRead r =>
    cases h
    exact .leaveRead
  case unlockWrite r =>
    cases h
    exact .leaveWrite
  all_goals cases h

/-! ## Along a run -/

/-- An item that waits for its guard is in the `next` of its iterator, whose pin keeps the range valid. -/
def Items (pc : V → Pc V) : Prop :=
  ∀ v it start stop, pc v = .jLock it start stop →
    start ≤ stop ∧ ∃ chunkSize total offset gen, pc it = .iNext chunkSize total offset gen v ∧ stop ≤ total

/-- The registry is what a run of the registrations leaves. -/
def Registered (vs : Views.State V) (n : Nat) : Prop :=
  ∃ as, Machine.run Views.step Views.State.init as = some vs ∧ as.countP Views.Action.isRegisterAtomic = n

structure Inv (P : Platform) (kept : Prop) (s : State V) : Prop where
  held : Held Pc.writing Pc.reading s.shared.lock s.pc
  good : ∀ v, Good P kept s.shared (s.views.pc v) (s.pc v)
  items : Items s.pc
  backed : (∀ v, ¬ (s.pc v).writing) → s.shared.len ≤ s.shared.file.length
  small : s.shared.len ≤ P.width.maxLen
  views : Registered s.views s.shared.registered

theorem Registered.step {vs vs' : Views.State V} {n : Nat} (h : Registered vs n) {a : Views.Action V}
    (hs : Views.step vs a = some vs') : Registered vs' (n + if a.isRegisterAtomic then 1 else 0) := by
  obtain ⟨as, hr, rfl⟩ := h
  refine ⟨as ++ [a], Machine.run_concat.2 ⟨vs, hr, hs⟩, ?_⟩
  rw [List.countP_append, List.countP_singleton]

theorem Items.update {pc : V → Pc V} (h : Items pc) {v : V} {p' : Pc V} (hnew : ∀ it start stop, p' ≠ .jLock it start stop)
    (hit : ∀ chunkSize total offset gen u it start stop, pc v = .iNext chunkSize total offset gen u →
      pc u ≠ .jLock it start stop) : Items (Function.update pc v p') := by
  intro u it start stop hu
  by_cases huv : u = v
  · subst huv
    rw [Function.update_self] at hu
    exact absurd hu (hnew it start stop)
  rw [Function.update_of_ne huv] at hu
  obtain ⟨hle, chunkSize, total, offset, gen, hpc, hstop⟩ := h u it start stop hu
  have hne : it ≠ v := by
    rintro rfl
    exact hit _ _ _ _ _ _ _ _ hpc hu
  exact ⟨hle, chunkSize, total, offset, gen, by rw [Function.update_of_ne hne]; exact hpc, hstop⟩

/-- **One token moves**: the invariant from what it knows afterwards, what the others still know, and the lock. -/
theorem inv_update {s : State V} {v : V} {p' : Pc V} {g' : Shared V} {vs' : Views.State V}
    (hheld : Held Pc.writing Pc.reading g'.lock (Function.update s.pc v p')) (hgood : Good P kept g' (vs'.pc v) p')
    (hother : ∀ u, u ≠ v → vs'.pc u = s.views.pc u) (hframe : ∀ u, u ≠ v → Good P kept g' (s.views.pc u) (s.pc u))
    (hitems : Items (Function.update s.pc v p'))
    (hbacked : ¬ p'.writing → (∀ u, u ≠ v → ¬ (s.pc u).writing) → g'.len ≤ g'.file.length)
    (hsmall : g'.len ≤ P.width.maxLen) (hviews : Registered vs' g'.registered) :
    Inv P kept ⟨g', vs', Function.update s.pc v p'⟩ := by
  refine ⟨hheld, fun u => ?_, hitems, fun hno => ?_, hsmall, hviews⟩
  · by_cases hu : u = v
    · subst hu
      simp only [Function.update_self]
      exact hgood
    · simp only [Function.update_of_ne hu]
      rw [hother u hu]
      exact hframe u hu
  · refine hbacked ?_ (fun u hu => ?_)
    · have h := hno v
      simp only [Function.update_self] at h
      exact h
    · have h := hno u
      simp only [Function.update_of_ne hu] at h
      exact h

theorem Inv.stay {s : State V} (hi : Inv P kept s) {v : V} {p' : Pc V} {vs' : Views.State V} {n : Nat}
    (hr : p'.reading ↔ (s.pc v).reading) (hw : p'.writing ↔ (s.pc v).writing) (hgood : Good P kept s.shared (vs'.pc v) p')
    (hother : ∀ u, u ≠ v → vs'.pc u = s.views.pc u) (hitems : Items (Function.update s.pc v p')) (hviews : Registered vs' n) :
    Inv P kept ⟨{ s.shared with registered := n }, vs', Function.update s.pc v p'⟩ := by
  refine inv_update (hi.held.stay hw hr) (hgood.same rfl rfl rfl) hother (fun u _ => (hi.good u).same rfl rfl rfl) hitems
    (fun hno hno' => hi.backed (fun u => ?_)) hi.small hviews
  by_cases hu : u = v
  · subst hu
    exact fun h => hno (hw.2 h)
  · exact hno' u hu

theorem Inv.register {s : State V} (hi : Inv P kept s) {v : V} {vs' : Views.State V} {n : Nat}
    (hgood : Good P kept s.shared (vs'.pc v) (s.pc v)) (hother : ∀ u, u ≠ v → vs'.pc u = s.views.pc u)
    (hviews : Registered vs' n) : Inv P kept ⟨{ s.shared with registered := n }, vs', s.pc⟩ := by
  have hitems : Items (Function.update s.pc v (s.pc v)) := by
    rw [Function.update_eq_self]
    exact hi.items
  have h := hi.stay Iff.rfl Iff.rfl hgood hother hitems hviews
  rw [Function.update_eq_self] at h
  exact h

theorem Inv.outside {s : State V} (hi : Inv P kept s) {v u : V} (hw : (s.pc v).writing) (hu : u ≠ v) (g' : Shared V) :
    Good P kept g' (s.views.pc u) (s.pc u) :=
  (hi.good u).outside (hi.held.no_reader hw) (fun hwu => hu (hi.held.writer_unique hwu hw))

theorem Inv.micro {s : State V} (hi : Inv P kept s) {v : V} (h : micro P os s.shared v (s.pc v) = some (g', p')) :
    Inv P kept ⟨g', s.views, Function.update s.pc v p'⟩ := by
  have hturn := micro_turn (hi.good v) h
  have hsame : ∀ l u, u ≠ v → Good P kept { s.shared with lock := l } (s.views.pc u) (s.pc u) :=
    fun l u _ => (hi.good u).same rfl rfl rfl
  have hnone : ¬ (s.pc v).writing → (∀ u, u ≠ v → ¬ (s.pc u).writing) → s.shared.len ≤ s.shared.file.length := by
    intro hv hother
    refine hi.backed (fun u => ?_)
    by_cases hu : u = v
    · rw [hu]
      exact hv
    · exact hother u hu
  have hitems : (∀ it start stop, p' ≠ .jLock it start stop) → Items (Function.update s.pc v p') := by
    refine fun hnew => hi.items.update hnew (fun chunkSize total offset gen u it start stop hnext => ?_)
    rw [hnext] at h
    cases h
  generalize hp : s.pc v = p at hturn
  cases hturn with
  | enterRead hl hout hr hw hit hgood =>
    refine inv_update (hi.held.acquireRead hl hw hr) ?_ (fun _ _ => rfl) (hsame _) (hitems hit)
      (fun _ => hnone (hp ▸ hout.2)) hi.small hi.views
    refine (hgood (fun it start stop hj => ?_)).same rfl rfl rfl
    -- the pin of the iterator keeps the item's range inside the mapping
    obtain ⟨hle, chunkSize, total, offset, gen, hpc, hstop⟩ := hi.items v it start stop (hp.trans hj)
    have hpin := hi.good it
    rw [hpc] at hpin
    exact ⟨hle, Nat.le_trans hstop hpin.le_len⟩
  | enterWrite hl hout hw hgood =>
    have hfree : ∀ u, ¬ (s.pc u).writing := by
      intro u hu
      have hwriter := (hi.held.writer u).2 hu
      rw [(RwLock.acquireWrite_eq_some hl).1] at hwriter
      cases hwriter
    exact inv_update (hi.held.acquireWrite hl hw (not_reading_of_writing hw)) ((hgood (hi.backed hfree)).same rfl rfl rfl)
      (fun _ _ => rfl) (hsame _) (hitems (not_jLock_of_inside (Or.inr hw))) (fun hno => absurd hw hno)
      hi.small hi.views
  | write hw hw' hlock hreg hlen hgood =>
    have hwv : (s.pc v).writing := hp ▸ hw
    refine inv_update ?_ hgood (fun _ _ => rfl) (fun u hu => hi.outside hwv hu g')
      (hitems (not_jLock_of_inside (Or.inr hw'))) (fun hno => absurd hw' hno) (hlen hi.small) (hreg ▸ hi.views)
    rw [hlock]
    exact hi.held.stay (iff_of_true hw' hwv) (iff_of_false (not_reading_of_writing hw') (not_reading_of_writing hwv))
  | leaveRead =>
    exact inv_update (hi.held.releaseRead (hp ▸ trivial) id id) trivial (fun _ _ => rfl) (hsame _) (hitems nofun)
      (fun _ => hnone (hp ▸ id)) hi.small hi.views
  | leaveWrite =>
    have hgood := hi.good v
    rw [hp] at hgood
    exact inv_update (hi.held.releaseWrite (hp ▸ trivial) id id) trivial (fun _ _ => rfl) (hsame _) (hitems nofun)
      (fun _ _ => hgood) hi.small hi.views

theorem register_eq {s s' : State V} {a : Views.Action V} (h : s.register a = some s') :
    ∃ vs, Views.step s.views a = some vs ∧ s' = { s with views := vs } := by
  simp only [State.register, Option.map_eq_some_iff] at h
  obtain ⟨vs, hvs, rfl⟩ := h
  exact ⟨vs, hvs, rfl⟩

/-- A token inside a read section that is not an iterator in `next` goes on inside. -/
theorem Inv.read {s : State V} (hi : Inv P kept s) {v : V} {p p' : Pc V} {vs' : Views.State V} {n : Nat} (hpc : s.pc v = p)
    (hr : p.reading) (hnext : ∀ chunkSize total offset gen u, p ≠ .iNext chunkSize total offset gen u)
    (hr' : p'.reading) (hgood : Good P kept s.shared (vs'.pc v) p') (hother : ∀ u, u ≠ v → vs'.pc u = s.views.pc u)
    (hviews : Registered vs' n) : Inv P kept ⟨{ s.shared with registered := n }, vs', Function.update s.pc v p'⟩ := by
  have hno : ∀ {q : Pc V}, q.reading → ¬ q.writing := fun hq hw => not_reading_of_writing hw hq
  subst hpc
  exact hi.stay (iff_of_true hr' hr) (iff_of_false (hno hr') (hno hr)) hgood hother
    (hi.items.update (not_jLock_of_inside (Or.inl hr')) (fun _ _ _ _ _ _ _ _ h => absurd h (hnext _ _ _ _ _))) hviews

theorem Inv.registering {s s' : State V} (hi : Inv P kept s) {v : V} {start stop gen : Nat}
    (hpc : s.pc v = .sReg start stop gen ∨ s.pc v = .jReg start stop gen ∨ s.pc v = .aReg start stop gen)
    (h : s.register (.advance v) = some s') : Inv P kept s' := by
  obtain ⟨vs, hvs, rfl⟩ := register_eq h
  obtain ⟨hspan, hother⟩ := Views.step_advance hvs
  have hgood := hi.good v
  have hrange : Within s.shared start stop gen ∧ ((vs.pc v).span = some ⟨start, stop⟩ ∨ (vs.pc v).span = none) := by
    have hold : Within s.shared start stop gen ∧
        ((s.views.pc v).span = some ⟨start, stop⟩ ∨ (s.views.pc v).span = none) := by
      rcases hpc with hpc | hpc | hpc <;> rw [hpc] at hgood <;> exact hgood
    refine ⟨hold.1, ?_⟩
    rcases hspan with hsame | hover
    · rw [hsame]
      exact hold.2
    · exact Or.inr hover
  refine hi.register ?_ hother (hi.views.step hvs)
  rcases hpc with hpc | hpc | hpc <;> rw [hpc] <;> exact hrange

theorem span_eq {vp : Views.Pc} {r r' : Span} (h : vp.span = some r ∨ vp.span = none) (hr : vp.span = some r') : r' = r := by
  rcases h with h | h
  · rw [h] at hr
    exact (Option.some.inj hr).symm
  · rw [h] at hr
    cases hr

theorem Inv.returned {s : State V} (hi : Inv P kept s) {v : V} {start stop gen : Nat} {r : Span} {reg : Views.PlainReg}
    (hpc : s.pc v = .sReg start stop gen ∨ s.pc v = .jReg start stop gen) (hlive : s.views.pc v = .plainLive r reg) :
    Inv P kept (s.setPc v (.slice start stop gen (s.shared.file.extract start stop))) := by
  have hgood := hi.good v
  have hold : Within s.shared start stop gen ∧
      ((s.views.pc v).span = some ⟨start, stop⟩ ∨ (s.views.pc v).span = none) := by
    rcases hpc with hpc | hpc <;> rw [hpc] at hgood <;> exact hgood
  have hr : r = ⟨start, stop⟩ := span_eq hold.2 (by rw [hlive]; rfl)
  have hslice : Good P kept s.shared (s.views.pc v) (.slice start stop gen (s.shared.file.extract start stop) : Pc V) :=
    ⟨hold.1, ⟨reg, hr ▸ hlive⟩, fun _ => rfl⟩
  rcases hpc with hpc | hpc <;> exact hi.read hpc trivial nofun trivial hslice (fun _ _ => rfl) hi.views

theorem Inv.advance {s s' : State V} (hi : Inv P kept s) {v : V} {shard : Fin shards}
    (h : advance P os shard s v = some s') : Inv P kept s' := by
  have hgood := hi.good v
  unfold Pin.advance at h
  cases hpc : s.pc v <;> rw [hpc] at hgood <;> simp only [hpc] at h
  case sCheck offset len gen =>
    split at h
    · cases h
      exact hi.read hpc trivial nofun trivial trivial (fun _ _ => rfl) hi.views
    · rename_i start stop hs
      rw [Option.map_eq_some_iff] at h
      obtain ⟨s₁, hreg, rfl⟩ := h
      obtain ⟨vs, hvs, rfl⟩ := register_eq hreg
      obtain ⟨rfl, rfl, hlen⟩ := sliceRange_ok hs
      obtain ⟨hspan, hother⟩ := Views.step_registerPlain hvs
      exact hi.read hpc trivial nofun trivial ⟨⟨hgood, Nat.le_add_right .., hlen⟩, Or.inl hspan⟩ hother (hi.views.step hvs)
  case sReg start stop gen =>
    split at h
    · rename_i r reg hlive
      cases h
      exact hi.returned (Or.inl hpc) hlive
    · cases h
      exact hi.read hpc trivial nofun trivial trivial (fun _ _ => rfl) hi.views
    · exact hi.registering (Or.inl hpc) h
  case jBegin start stop gen =>
    rw [Option.map_eq_some_iff] at h
    obtain ⟨s₁, hreg, rfl⟩ := h
    obtain ⟨vs, hvs, rfl⟩ := register_eq hreg
    obtain ⟨hspan, hother⟩ := Views.step_registerPlain hvs
    exact hi.read hpc trivial nofun trivial ⟨hgood, Or.inl hspan⟩ hother (hi.views.step hvs)
  case jReg start stop gen =>
    split at h
    · rename_i r reg hlive
      cases h
      exact hi.returned (Or.inr hpc) hlive
    · cases h
      exact hi.read hpc trivial nofun trivial trivial (fun _ _ => rfl) hi.views
    · exact hi.registering (Or.inr (Or.inl hpc)) h
  case iNext chunkSize total offset gen item =>
    split at h
    · rename_i hret
      cases h
      refine hi.stay (by rw [hpc]; exact Iff.rfl) (by rw [hpc]; exact Iff.rfl) hgood (fun _ _ => rfl) ?_ hi.views
      refine hi.items.update nofun (fun _ _ _ _ u it start stop hnext hu => ?_)
      rw [hpc] at hnext
      cases hnext
      rw [hu] at hret
      cases hret
    · cases h
  case aCheck size offset len gen =>
    split at h
    · cases h
      exact hi.read hpc trivial nofun trivial trivial (fun _ _ => rfl) hi.views
    · rename_i hfit
      rw [Option.map_eq_some_iff] at h
      obtain ⟨s₁, hreg, rfl⟩ := h
      obtain ⟨vs, hvs, rfl⟩ := register_eq hreg
      obtain ⟨hspan, hother⟩ := Views.step_registerAtomic hvs
      have hlen : offset + len ≤ s.shared.len := by
        have hmax := Nat.lt_of_le_of_lt hi.small P.width.maxLen_lt_i64
        unfold saturatingAdd at hfit
        omega
      exact hi.read hpc trivial nofun trivial ⟨⟨hgood, Nat.le_add_right .., hlen⟩, Or.inl hspan⟩ hother (hi.views.step hvs)
  case aReg start stop gen =>
    split at h
    · rename_i r size id hlive
      cases h
      have hr : r = ⟨start, stop⟩ := span_eq hgood.2 (by rw [hlive]; rfl)
      exact hi.read hpc trivial nofun trivial ⟨hgood.1, size, id, hr ▸ hlive⟩ (fun _ _ => rfl) hi.views
    · cases h
      exact hi.read hpc trivial nofun trivial trivial (fun _ _ => rfl) hi.views
    · exact hi.registering (Or.inr (Or.inr hpc)) h
  case sDrop | aDrop =>
    split at h
    · cases h
      exact hi.read hpc trivial nofun trivial trivial (fun _ _ => rfl) hi.views
    · cases h
      exact hi.read hpc trivial nofun trivial trivial (fun _ _ => rfl) hi.views
    · obtain ⟨vs, hvs, rfl⟩ := register_eq h
      exact hi.register (by rw [hpc]; trivial) (Views.step_advance hvs).2 (hi.views.step hvs)
  all_goals
    rw [Option.map_eq_some_iff] at h
    obtain ⟨⟨g, p⟩, hm, rfl⟩ := h
    exact hi.micro (hpc ▸ hm)

theorem Inv.wait {s : State V} (hi : Inv P kept s) {v : V} {p p' : Pc V} (hpc : s.pc v = p) (hr : ¬ p.reading) (hw : ¬ p.writing)
    (hr' : ¬ p'.reading) (hw' : ¬ p'.writing) (hgood : Good P kept s.shared (s.views.pc v) p')
    (hitems : Items (Function.update s.pc v p')) : Inv P kept (s.setPc v p') := by
  subst hpc
  exact hi.stay (iff_of_false hr' hr) (iff_of_false hw' hw) hgood (fun _ _ => rfl) hitems hi.views

theorem Inv.write {s : State V} (hi : Inv P kept s) {v : V} {p p' : Pc V} (hpc : s.pc v = p) (hw : p.writing) (hw' : p'.writing)
    (hgood : Good P kept s.shared (s.views.pc v) p') : Inv P kept (s.setPc v p') := by
  subst hpc
  refine hi.stay (iff_of_false (not_reading_of_writing hw') (not_reading_of_writing hw)) (iff_of_true hw' hw) hgood
    (fun _ _ => rfl) (hi.items.update (not_jLock_of_inside (Or.inr hw')) (fun _ _ _ _ _ _ _ _ h => ?_)) hi.views
  rw [h] at hw
  cases hw

theorem Inv.next {s : State V} (hi : Inv P kept s) {it v : V} {chunkSize total offset gen stop : Nat}
    (hit : s.pc it = .iter chunkSize total offset gen) (hv : s.pc v = .idle) (hle : offset ≤ stop) (hstop : stop ≤ total) :
    Inv P kept ((s.setPc it (.iNext chunkSize total stop gen v)).setPc v (.jLock it offset stop)) := by
  have hne : it ≠ v := by
    rintro rfl
    rw [hit] at hv
    cases hv
  have hgood := hi.good it
  rw [hit] at hgood
  have h₁ : Inv P kept (s.setPc it (.iNext chunkSize total stop gen v)) := hi.read hit trivial nofun trivial hgood (fun _ _ => rfl) hi.views
  have hv₁ : (s.setPc it (.iNext chunkSize total stop gen v)).pc v = .idle := (Function.update_of_ne hne.symm ..).trans hv
  refine h₁.wait hv₁ id id id id trivial ?_
  intro u it' start stop' hu
  by_cases huv : u = v
  · subst huv
    rw [Function.update_self] at hu
    cases hu
    exact ⟨hle, chunkSize, total, _, gen, by rw [Function.update_of_ne hne]; exact Function.update_self .., hstop⟩
  · rw [Function.update_of_ne huv] at hu
    obtain ⟨hle', c, t, o, gen', hpc, hstop'⟩ := h₁.items u it' start stop' hu
    have hne' : it' ≠ v := by
      rintro rfl
      rw [hv₁] at hpc
      cases hpc
    exact ⟨hle', c, t, o, gen', by rw [Function.update_of_ne hne']; exact hpc, hstop'⟩

/-- **A store through an atomic view changes no byte of a slice** that keeps its bytes. -/
theorem Inv.atomic_store {s : State V} (hi : Inv P kept s) (hlt : kept → s.shared.registered < 2 ^ 64) {v : V} {start stop gen : Nat}
    (hv : s.pc v = .atomic start stop gen) {offset : Nat} (hlo : start ≤ offset) (hhi : offset < stop) (byte : UInt8) (u : V) :
    Good P kept { s.shared with file := s.shared.file.set offset byte } (s.views.pc u) (s.pc u) := by
  refine (hi.good u).store (fun hk start' stop' gen' bytes hu hin => ?_)
  have hslice := hi.good u
  have hatomic := hi.good v
  rw [hu] at hslice
  rw [hv] at hatomic
  obtain ⟨-, ⟨reg, hplain⟩, -⟩ := hslice
  obtain ⟨-, size, id, hlive⟩ := hatomic
  obtain ⟨as, hrun, hcount⟩ := hi.views
  have hdis := Views.plain_atomic_disjoint (Views.run_inv hrun (hcount ▸ hlt hk))
    (show (s.views.pc u).plainView = some ⟨start', stop'⟩ by rw [hplain]; rfl)
    (show (s.views.pc v).atomicView = some (⟨start, stop⟩, size) by rw [hlive]; rfl)
  exact Set.disjoint_left.1 hdis ⟨hin.1, hin.2⟩ ⟨hlo, hhi⟩

/-- **Every action keeps the invariant**; for the bytes of the slices, while fewer than `2 ^ 64` atomic registrations were
called. -/
theorem step_inv {s s' : State V} {a : Action V} (hi : Inv P kept s) (hlt : kept → s.shared.registered < 2 ^ 64)
    (h : step P s a = some s') : Inv P kept s' := by
  cases a with
  | call v op =>
    simp only [step] at h
    split at h
    swap
    · cases h
    rename_i hidle
    cases h
    obtain ⟨hr, hw, hnew⟩ := start_outside op s.shared.gen
    refine hi.wait hidle id id hr hw (start_good op _ _ _) (hi.items.update hnew (fun _ _ _ _ _ _ _ _ hnext => ?_))
    rw [hidle] at hnext
    cases hnext
  | next it v =>
    simp only [step] at h
    split at h
    swap
    · cases h
    rename_i chunkSize total offset gen hit hv
    split at h
    · cases h
    · cases h
      exact hi.next hit hv (Nat.le_add_right ..) (by omega)
  | advance v os shard => exact hi.advance h
  | store v offset byte =>
    simp only [step] at h
    split at h
    swap
    · cases h
    rename_i start stop hwin
    split at h
    swap
    · cases h
    rename_i hin
    cases h
    have hlen : (s.shared.file.set offset byte).length = s.shared.file.length := List.length_set
    refine ⟨hi.held, fun u => ?_, hi.items, fun hno => ?_, hi.small, hi.views⟩
    · rcases window_cases hwin with ⟨gen, hpc⟩ | hw
      · exact hi.atomic_store hlt hpc hin.1 hin.2 byte u
      · -- the writer stores; nobody else is inside
        by_cases hu : u = v
        · subst hu
          refine (hi.good u).store (fun _ _ _ _ _ hslice => ?_)
          rw [hslice] at hw
          cases hw
        · exact hi.outside hw hu _
    · rw [hlen]
      exact hi.backed hno
  | leave v ok =>
    simp only [step] at h
    have hgood := hi.good v
    cases hpc : s.pc v <;> rw [hpc] at hgood <;> simp only [hpc] at h
    case slice | atomic =>
      rw [Option.map_eq_some_iff] at h
      obtain ⟨s₁, hreg, rfl⟩ := h
      obtain ⟨vs, hvs, rfl⟩ := register_eq hreg
      exact hi.read hpc trivial nofun trivial trivial (Views.step_dropView hvs) (hi.views.step hvs)
    case sEmpty =>
      cases h
      refine hi.wait hpc id id id id trivial (hi.items.update nofun (fun _ _ _ _ _ _ _ _ hnext => ?_))
      rw [hpc] at hnext
      cases hnext
    case iter =>
      cases h
      exact hi.read hpc trivial nofun trivial trivial (fun _ _ => rfl) hi.views
    case sliceMut =>
      cases h
      exact hi.write hpc trivial trivial hgood.2
    case cChunk =>
      cases h
      cases ok
      · exact hi.write hpc trivial trivial hgood
      · exact hi.write hpc trivial trivial hgood
    all_goals cases h

theorem micro_registered (h : micro P os g v p = some (g', p')) : g'.registered = g.registered := by
  cases p
  case uStore pos rest => cases rest <;> cases h <;> rfl
  case sLock | iLock | jLock | aLock | mLock | uLock | cLock | zLock =>
    simp only [micro, Option.map_eq_some_iff] at h
    obtain ⟨l, -, h⟩ := h
    cases h
    rfl
  case mCheck =>
    simp only [micro] at h
    split at h
    · cases h
      rfl
    · split at h <;> cases h <;> rfl
  case uCheck | cNext | gSetLen | gMap | gRestore | pMap | pSetLen | wPlaceholder | wSetLen | wRestore | wMap =>
    simp only [micro] at h
    split at h <;> cases h <;> rfl
  case zCmp | pInstall | zStore | unlockRead | unlockWrite =>
    cases h
    rfl
  all_goals cases h

theorem register_shared {s s' : State V} {a : Views.Action V} (h : s.register a = some s') : s'.shared = s.shared := by
  obtain ⟨vs, -, rfl⟩ := register_eq h
  rfl

theorem advance_registered {s s' : State V} {shard : Fin shards} (h : advance P os shard s v = some s') :
    s.shared.registered ≤ s'.shared.registered := by
  unfold Pin.advance at h
  cases hpc : s.pc v <;> simp only [hpc] at h
  case sCheck =>
    split at h
    · cases h
      exact Nat.le_refl _
    · rw [Option.map_eq_some_iff] at h
      obtain ⟨s₁, hreg, rfl⟩ := h
      exact Nat.le_of_eq (congrArg Shared.registered (register_shared hreg)).symm
  case jBegin =>
    rw [Option.map_eq_some_iff] at h
    obtain ⟨s₁, hreg, rfl⟩ := h
    exact Nat.le_of_eq (congrArg Shared.registered (register_shared hreg)).symm
  case aCheck =>
    split at h
    · cases h
      exact Nat.le_refl _
    · rw [Option.map_eq_some_iff] at h
      obtain ⟨s₁, hreg, rfl⟩ := h
      have hsame := congrArg Shared.registered (register_shared hreg)
      exact Nat.le_succ_of_le (Nat.le_of_eq hsame.symm)
  case sReg | jReg | aReg | sDrop | aDrop =>
    split at h
    · cases h
      exact Nat.le_refl _
    · cases h
      exact Nat.le_refl _
    · exact Nat.le_of_eq (congrArg Shared.registered (register_shared h)).symm
  case iNext =>
    split at h
    · cases h
      exact Nat.le_refl _
    · cases h
  all_goals
    rw [Option.map_eq_some_iff] at h
    obtain ⟨⟨g, p⟩, hm, rfl⟩ := h
    exact Nat.le_of_eq (micro_registered hm).symm

theorem step_registered {s s' : State V} {a : Action V} (h : step P s a = some s') :
    s.shared.registered ≤ s'.shared.registered := by
  cases a with
  | advance v os shard => exact advance_registered h
  | call v op =>
    simp only [step] at h
    split at h <;> cases h
    exact Nat.le_refl _
  | next it v =>
    simp only [step] at h
    split at h
    · split at h <;> cases h
      exact Nat.le_refl _
    · cases h
  | store v offset byte =>
    simp only [step] at h
    split at h
    · split at h <;> cases h
      exact Nat.le_refl _
    · cases h
  | leave v ok =>
    simp only [step] at h
    cases hpc : s.pc v <;> simp only [hpc] at h
    case slice | atomic =>
      rw [Option.map_eq_some_iff] at h
      obtain ⟨s₁, hreg, rfl⟩ := h
      exact Nat.le_of_eq (congrArg Shared.registered (register_shared hreg)).symm
    all_goals
      cases h
      try exact Nat.le_refl _

theorem init_inv {file : List UInt8} (hfile : file.length ≤ P.width.maxLen) : Inv P kept (State.init file : State V) := by
  refine ⟨⟨fun v => ?_, fun v => ?_⟩, fun v => trivial, nofun, fun _ => Nat.le_refl _, hfile, ⟨[], rfl, rfl⟩⟩
  · exact iff_of_false nofun id
  · exact iff_of_false (Finset.notMem_empty v) id

theorem run_inv {file : List UInt8} (hfile : file.length ≤ P.width.maxLen) {acts : List (Action V)} {s : State V}
    (hr : Machine.run (step P) (State.init file) acts = some s) : Inv P (s.shared.registered < 2 ^ 64) s := by
  have hall : ∀ {kept : Prop}, (kept → s.shared.registered < 2 ^ 64) → Inv P kept s := by
    intro kept
    refine Machine.run_induction (fun _ s => (kept → s.shared.registered < 2 ^ 64) → Inv P kept s)
      (fun _ => init_inv hfile) ?_ acts s hr
    intro as a s s' _ ih h hlt'
    have hlt : kept → s.shared.registered < 2 ^ 64 := fun hk => Nat.lt_of_le_of_lt (step_registered h) (hlt' hk)
    exact step_inv (ih hlt) hlt h
  exact hall id

/-! ## What the views see -/

/-- A view that was returned: its range and its mapping. An iterator is a view of the whole mapping. -/
def Pc.view : Pc V → Option (Nat × Nat × Nat)
  | .slice start stop gen _ | .atomic start stop gen | .sliceMut start stop gen => some (start, stop, gen)
  | .iter _ total _ gen | .iNext _ total _ gen _ => some (0, total, gen)
  | .sEmpty gen => some (0, 0, gen)
  | _ => none

/-- The view of `v`, if there is one, lies within the installed mapping, which is the one it was created from, the file is as
long, and a slice has the bytes it was created with. -/
def Pinned (s : State V) (v : V) : Prop :=
  ∀ start stop gen, (s.pc v).view = some (start, stop, gen) →
    stop ≤ s.shared.len ∧ gen = s.shared.gen ∧ stop ≤ s.shared.file.length ∧
    ∀ bytes, s.pc v = .slice start stop gen bytes → s.shared.file.extract start stop = bytes

/-- The bytes a slice or an item was created with. -/
def Pc.shown : Pc V → Option (List UInt8)
  | .slice _ _ _ bytes => some bytes
  | .sEmpty _ => some []
  | _ => none

/-- **What holds of the view of `v`** in every state: it lies within the installed mapping and within the file; unless it is
an empty slice its mapping is the installed one, and the file is as long as that; an empty slice has its bytes, and while
fewer than `2 ^ 64` atomic registrations were called so has every slice and item. -/
structure Anchored (s : State V) (v : V) (start stop gen : Nat) : Prop where
  le : start ≤ stop
  mapped : stop ≤ s.shared.len
  filed : stop ≤ s.shared.file.length
  same : (∀ g, s.pc v ≠ .sEmpty g) → gen = s.shared.gen ∧ s.shared.len ≤ s.shared.file.length
  bytes : ∀ bytes, (s.pc v).shown = some bytes → (∃ g, s.pc v = .sEmpty g) ∨ s.shared.registered < 2 ^ 64 →
    s.shared.file.extract start stop = bytes

/-- A view that is not an empty slice knows its mapping, and that the file is as long as the mapping. -/
theorem Inv.view {s : State V} (hi : Inv P kept s) (hempty : ∀ gen, s.pc v ≠ .sEmpty gen) {start stop gen : Nat}
    (hv : (s.pc v).view = some (start, stop, gen)) : Within s.shared start stop gen ∧ s.shared.len ≤ s.shared.file.length := by
  have hgood := hi.good v
  have hreader : (s.pc v).reading → s.shared.len ≤ s.shared.file.length :=
    fun hr => hi.backed (fun u hu => hi.held.no_reader hu hr)
  cases hpc : s.pc v <;> rw [hpc] at hv hgood hreader
  case slice | atomic =>
    cases hv
    exact ⟨hgood.1, hreader trivial⟩
  case sliceMut =>
    cases hv
    exact hgood
  case iter | iNext =>
    cases hv
    exact ⟨hgood, hreader trivial⟩
  case sEmpty => exact absurd hpc (hempty _)
  all_goals cases hv

/-- **Live views pin the mapping.**  In every state that a run reaches every view is anchored: its range is mapped and in the
file, and, with two exceptions, its mapping is the installed one and its bytes are those it was created with.  The empty
slice of a zero-length request outlives its mapping, and the bytes of the other slices are kept while fewer than `2 ^ 64`
atomic views were registered. -/
theorem live_views_pin (P : Platform) (file : List UInt8) (hfile : file.length ≤ P.width.maxLen) (acts : List (Action V))
    (s : State V) (hr : Machine.run (step P) (State.init file) acts = some s) (v : V) (start stop gen : Nat)
    (hv : (s.pc v).view = some (start, stop, gen)) : Anchored s v start stop gen := by
  have hi := run_inv hfile hr
  by_cases hempty : ∃ g, s.pc v = .sEmpty g
  · obtain ⟨g, hpc⟩ := hempty
    rw [hpc] at hv
    cases hv
    refine ⟨Nat.le_refl _, Nat.zero_le _, Nat.zero_le _, fun h => absurd hpc (h _), fun bytes hshown _ => ?_⟩
    rw [hpc] at hshown
    cases hshown
    rfl
  · obtain ⟨hwithin, hbacked⟩ := hi.view (fun g hg => hempty ⟨g, hg⟩) hv
    refine ⟨hwithin.le, hwithin.le_len, Nat.le_trans hwithin.le_len hbacked, fun _ => ⟨hwithin.gen, hbacked⟩,
      fun bytes hshown hor => ?_⟩
    have hgood := hi.good v
    cases hpc : s.pc v <;> rw [hpc] at hshown hv hgood <;> cases hshown
    · cases hv
      exact hgood.2.2 (hor.resolve_left hempty)
    · exact absurd ⟨_, hpc⟩ hempty

/-- The next step of `v`, with every OS call succeeding. -/
def go (v : V) : Action V := .advance v Os.ok ⟨0, by decide⟩

/-- An iterator over eight bytes, four at a time; its first item outlives it. -/
def outlivingItem : List (Action Nat) :=
  [.call 0 (.chunks 4), go 0, .next 0 1] ++ List.replicate 5 (go 1) ++ [go 0, .leave 0 true, go 0]

theorem live_views_pin_outlivingItem : ∃ s : State Nat,
    Machine.run (step linux64) (State.init [1, 2, 3, 4, 5, 6, 7, 8]) outlivingItem = some s ∧
      s.pc 1 = .slice 0 4 0 [1, 2, 3, 4] ∧ Anchored s 1 0 4 0 := by
  have hrun : (Machine.run (step linux64) (State.init [1, 2, 3, 4, 5, 6, 7, 8]) outlivingItem).map
      (fun s => ((s.pc 1).view, (s.pc 1).shown)) = some (some (0, 4, 0), some [1, 2, 3, 4]) := by decide +kernel
  obtain ⟨s, hr, heq⟩ := Option.map_eq_some_iff.1 hrun
  obtain ⟨hview, hshown⟩ := Prod.mk.inj heq
  refine ⟨s, hr, ?_, live_views_pin linux64 _ (by decide) outlivingItem s hr 1 0 4 0 hview⟩
  cases hpc : s.pc 1 <;> rw [hpc] at hview hshown <;> cases hshown
  cases hview
  rfl

end Pin
end MmapIo
