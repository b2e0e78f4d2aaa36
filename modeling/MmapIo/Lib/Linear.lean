import MmapIo.Lib.Machine
import MmapIo.Lib.RwLock
/-!
# Linear — operations inside sections of one readers–writer lock

An object is shared by any number of calls.  A call may be answered from its arguments alone, load the published part of the
state without the lock, or take the lock and make its accesses one at a time; a call that does not wait may give up instead.
Only the last access of a write section may change the published part.  Beside the state a run carries the order in which
its calls took effect, each at one of its own steps between its call and its return, and what each call was given from
outside: the inputs of its accesses, or that it gave up.  Replaying the calls alone, in that order and given that, yields the
results they returned (`inv_run`), and a call that returned before another was made comes before it (`before_of_returned`).
-/
namespace MmapIo
namespace Linear

/-- How an operation begins. -/
inductive Plan (Pub RLoc WLoc Res : Type) where
  /-- answered from its arguments alone -/
  | answer (r : Res)
  /-- one load of the published part, without the lock -/
  | peek (f : Pub → Res)
  | read (l : RLoc)
  | write (l : WLoc)

/-- An object: `look` and `edit` are the single accesses of a read and of a write section, each with what the environment
answers to it; they return the next local state or the operation's result. An access that faults returns nothing. -/
structure Object (St Pub Op RLoc WLoc In Res : Type) where
  pub : St → Pub
  plan : Op → Plan Pub RLoc WLoc Res
  /-- the answer of an operation that does not wait for the lock -/
  busy : Op → Option Res
  look : RLoc → In → St → Option (RLoc ⊕ Res)
  edit : WLoc → In → St → Option (St × (WLoc ⊕ Res))
  edit_pub : ∀ {l i σ σ' l'}, edit l i σ = some (σ', .inl l') → pub σ' = pub σ

variable {V St Pub Op RLoc WLoc In Res : Type}

/-! ## An operation alone -/

section Alone

variable (o : Object St Pub Op RLoc WLoc In Res)

/-- A read section that started at `l₀` is at this point after these inputs. -/
inductive Looks (σ : St) (l₀ : RLoc) : List In → RLoc → Prop
  | start : Looks σ l₀ [] l₀
  | next {ins : List In} {l l' : RLoc} {i : In} (h : Looks σ l₀ ins l) (hl : o.look l i σ = some (.inl l')) :
      Looks σ l₀ (ins ++ [i]) l'

/-- A write section that started at `l₀` in the state `σ₀` is at this point, in this state, after these inputs. -/
inductive Edits (σ₀ : St) (l₀ : WLoc) : List In → WLoc → St → Prop
  | start : Edits σ₀ l₀ [] l₀ σ₀
  | next {ins : List In} {l l' : WLoc} {i : In} {σ σ' : St} (h : Edits σ₀ l₀ ins l σ)
      (he : o.edit l i σ = some (σ', .inl l')) : Edits σ₀ l₀ (ins ++ [i]) l' σ'

/-- The operation, run alone in `σ`, returns this result and leaves this state when its accesses are given these inputs; given
nothing, it gives up. -/
inductive Does (op : Op) : Option (List In) → Res → St → St → Prop
  | answer {r : Res} {σ : St} (hp : o.plan op = .answer r) : Does op (some []) r σ σ
  | peek {f : Pub → Res} {σ : St} (hp : o.plan op = .peek f) : Does op (some []) (f (o.pub σ)) σ σ
  | read {ins : List In} {l₀ l : RLoc} {i : In} {r : Res} {σ : St} (hp : o.plan op = .read l₀) (h : Looks o σ l₀ ins l)
      (hl : o.look l i σ = some (.inr r)) : Does op (some (ins ++ [i])) r σ σ
  | write {ins : List In} {l₀ l : WLoc} {i : In} {r : Res} {σ σ' σ'' : St} (hp : o.plan op = .write l₀)
      (h : Edits o σ l₀ ins l σ') (he : o.edit l i σ' = some (σ'', .inr r)) : Does op (some (ins ++ [i])) r σ σ''
  | busy {r : Res} {σ : St} (hb : o.busy op = some r) : Does op none r σ σ

variable {o} {op : Op} {g : Option (List In)} {r : Res} {σ σ' : St}

theorem Does.of_answer {r₀ : Res} (hp : o.plan op = .answer r₀) (hb : o.busy op = none) (h : Does o op g r σ σ') :
    g = some [] ∧ r = r₀ ∧ σ' = σ := by
  cases h with
  | answer hq =>
    rw [hp] at hq
    cases hq
    exact ⟨rfl, rfl, rfl⟩
  | peek hq | read hq | write hq =>
    rw [hp] at hq
    cases hq
  | busy hq =>
    rw [hb] at hq
    cases hq

theorem Does.of_read {l₀ : RLoc} (hp : o.plan op = .read l₀) (h : Does o op g r σ σ') :
    σ' = σ ∧ (g = none ∧ o.busy op = some r ∨
      ∃ ins l i, g = some (ins ++ [i]) ∧ Looks o σ l₀ ins l ∧ o.look l i σ = some (.inr r)) := by
  cases h with
  | answer hq | peek hq | write hq =>
    rw [hp] at hq
    cases hq
  | read hq hl hlast =>
    rw [hp] at hq
    cases hq
    exact ⟨rfl, Or.inr ⟨_, _, _, rfl, hl, hlast⟩⟩
  | busy hq => exact ⟨rfl, Or.inl ⟨rfl, hq⟩⟩

theorem Does.of_write {l₀ : WLoc} (hp : o.plan op = .write l₀) (h : Does o op g r σ σ') :
    g = none ∧ o.busy op = some r ∧ σ' = σ ∨
      ∃ ins l i σ₁, g = some (ins ++ [i]) ∧ Edits o σ l₀ ins l σ₁ ∧ o.edit l i σ₁ = some (σ', .inr r) := by
  cases h with
  | answer hq | peek hq | read hq =>
    rw [hp] at hq
    cases hq
  | write hq he hlast =>
    rw [hp] at hq
    cases hq
    exact Or.inr ⟨_, _, _, _, rfl, he, hlast⟩
  | busy hq => exact Or.inl ⟨rfl, hq, rfl⟩

end Alone

/-! ## Objects that share one lock -/

/-- The plan, with its places and its result renamed. -/
def Plan.map {RLoc' WLoc' Res' : Type} (f : RLoc → RLoc') (g : WLoc → WLoc') (k : Res → Res') :
    Plan Pub RLoc WLoc Res → Plan Pub RLoc' WLoc' Res'
  | answer r => .answer (k r)
  | peek p => .peek (fun x => k (p x))
  | read l => .read (f l)
  | write l => .write (g l)

section Part

variable {Op₁ RLoc₁ WLoc₁ In₁ Res₁ Op₂ RLoc₂ WLoc₂ In₂ Res₂ : Type}

/-- Every section of `o₁` is one of `o`, under other names. -/
structure Part (o : Object St Pub Op RLoc WLoc In Res) (o₁ : Object St Pub Op₁ RLoc₁ WLoc₁ In₁ Res₁) where
  rloc : RLoc₁ → RLoc
  wloc : WLoc₁ → WLoc
  input : In₁ → In
  res : Res₁ → Res
  look : ∀ {l i σ x}, o.look (rloc l) i σ = some x →
    ∃ i₁ x₁, i = input i₁ ∧ o₁.look l i₁ σ = some x₁ ∧ x = x₁.map rloc res
  edit : ∀ {l i σ σ' x}, o.edit (wloc l) i σ = some (σ', x) →
    ∃ i₁ x₁, i = input i₁ ∧ o₁.edit l i₁ σ = some (σ', x₁) ∧ x = x₁.map wloc res

namespace Part

variable {o : Object St Pub Op RLoc WLoc In Res} {o₁ : Object St Pub Op₁ RLoc₁ WLoc₁ In₁ Res₁} {σ σ' : St}

theorem looks (p : Part o o₁) {l₀ : RLoc₁} {ins : List In} {l : RLoc} (h : Looks o σ (p.rloc l₀) ins l) :
    ∃ ins₁ l₁, ins = ins₁.map p.input ∧ l = p.rloc l₁ ∧ Looks o₁ σ l₀ ins₁ l₁ := by
  induction h with
  | start => exact ⟨[], l₀, rfl, rfl, .start⟩
  | next _ hl ih =>
    obtain ⟨ins₁, l₁, rfl, rfl, hls⟩ := ih
    obtain ⟨i₁, x₁, rfl, hx, heq⟩ := p.look hl
    cases x₁ with
    | inl l₂ => exact ⟨ins₁ ++ [i₁], l₂, by rw [List.map_append, List.map_singleton], Sum.inl.inj heq, hls.next hx⟩
    | inr r => cases heq

theorem edits (p : Part o o₁) {l₀ : WLoc₁} {ins : List In} {l : WLoc} (h : Edits o σ (p.wloc l₀) ins l σ') :
    ∃ ins₁ l₁, ins = ins₁.map p.input ∧ l = p.wloc l₁ ∧ Edits o₁ σ l₀ ins₁ l₁ σ' := by
  induction h with
  | start => exact ⟨[], l₀, rfl, rfl, .start⟩
  | next _ he ih =>
    obtain ⟨ins₁, l₁, rfl, rfl, hes⟩ := ih
    obtain ⟨i₁, x₁, rfl, hx, heq⟩ := p.edit he
    cases x₁ with
    | inl l₂ => exact ⟨ins₁ ++ [i₁], l₂, by rw [List.map_append, List.map_singleton], Sum.inl.inj heq, hes.next hx⟩
    | inr r => cases heq

/-- **An operation of the part**, run alone in the whole, does what it does in the part, given the same. -/
theorem does (p : Part o o₁) {op : Op} {op₁ : Op₁} (hpub : o.pub = o₁.pub)
    (hplan : o.plan op = (o₁.plan op₁).map p.rloc p.wloc p.res) (hbusy : o.busy op = (o₁.busy op₁).map p.res)
    {g : Option (List In)} {r : Res} (h : Does o op g r σ σ') :
    ∃ g₁ r₁, g = g₁.map (List.map p.input) ∧ r = p.res r₁ ∧ Does o₁ op₁ g₁ r₁ σ σ' := by
  cases h with
  | answer hp =>
    rw [hp] at hplan
    cases hq : o₁.plan op₁ <;> rw [hq] at hplan <;> cases hplan
    exact ⟨some [], _, rfl, rfl, .answer hq⟩
  | peek hp =>
    rw [hp] at hplan
    cases hq : o₁.plan op₁ <;> rw [hq] at hplan <;> cases hplan
    rw [hpub]
    exact ⟨some [], _, rfl, rfl, .peek hq⟩
  | read hp hl hlast =>
    rw [hp] at hplan
    cases hq : o₁.plan op₁ <;> rw [hq] at hplan <;> cases hplan
    obtain ⟨ins₁, l₁, rfl, rfl, hls⟩ := p.looks hl
    obtain ⟨i₁, x₁, rfl, hx, heq⟩ := p.look hlast
    cases x₁ with
    | inl l₂ => cases heq
    | inr r₁ =>
      refine ⟨some (ins₁ ++ [i₁]), r₁, ?_, Sum.inr.inj heq, .read hq hls hx⟩
      rw [Option.map_some, List.map_append, List.map_singleton]
  | write hp he hlast =>
    rw [hp] at hplan
    cases hq : o₁.plan op₁ <;> rw [hq] at hplan <;> cases hplan
    obtain ⟨ins₁, l₁, rfl, rfl, hes⟩ := p.edits he
    obtain ⟨i₁, x₁, rfl, hx, heq⟩ := p.edit hlast
    cases x₁ with
    | inl l₂ => cases heq
    | inr r₁ =>
      refine ⟨some (ins₁ ++ [i₁]), r₁, ?_, Sum.inr.inj heq, .write hq hes hx⟩
      rw [Option.map_some, List.map_append, List.map_singleton]
  | busy hb =>
    rw [hbusy] at hb
    obtain ⟨r₁, hr, rfl⟩ := Option.map_eq_some_iff.1 hb
    exact ⟨none, r₁, rfl, rfl, .busy hr⟩

end Part

variable (o₁ : Object St Pub Op₁ RLoc₁ WLoc₁ In₁ Res₁) (o₂ : Object St Pub Op₂ RLoc₂ WLoc₂ In₂ Res₂)

variable {o₁ o₂}

end Part

/-- A call that took effect: what it was given, the inputs of its accesses or that it gave up, and what it returns. -/
structure Entry (V Op In Res : Type) where
  who : V
  op : Op
  given : Option (List In)
  res : Res

/-- The calls can take effect one after the other from `σ₀`, given this and with these results, and leave this state. -/
inductive Legal (does : Op → Option (List In) → Res → St → St → Prop) (σ₀ : St) : List (Entry V Op In Res) → St → Prop
  | nil : Legal does σ₀ [] σ₀
  | snoc {es : List (Entry V Op In Res)} {e : Entry V Op In Res} {σ σ' : St} (h : Legal does σ₀ es σ)
      (hd : does e.op e.given e.res σ σ') : Legal does σ₀ (es ++ [e]) σ'

/-- **A legal order stays legal** under a coarser account of every operation, and keeps what every operation keeps. -/
theorem Legal.mono {does does' : Op → Option (List In) → Res → St → St → Prop} {σ₀ σ : St} {es : List (Entry V Op In Res)}
    (h : Legal does σ₀ es σ) (I : St → Prop) (h0 : I σ₀)
    (hstep : ∀ op g r σ σ', I σ → does op g r σ σ' → does' op g r σ σ' ∧ I σ') : Legal does' σ₀ es σ ∧ I σ := by
  induction h with
  | nil => exact ⟨.nil, h0⟩
  | snoc _ hd ih =>
    obtain ⟨hlegal, hi⟩ := ih
    obtain ⟨hd', hi'⟩ := hstep _ _ _ _ _ hi hd
    exact ⟨.snoc hlegal hd', hi'⟩

/-! ## The machine -/

/-- Where a call is. -/
inductive Pc (Op RLoc WLoc Res : Type) where
  | idle
  | called (op : Op)
  | reading (op : Op) (l : RLoc)
  | writing (op : Op) (l : WLoc)
  /-- the result is known, the lock is still held -/
  | readLeave (op : Op) (r : Res)
  | writeLeave (op : Op) (r : Res)
  | done (op : Op) (r : Res)

namespace Pc

def inWrite : Pc Op RLoc WLoc Res → Prop
  | writing _ _ | writeLeave _ _ => True
  | _ => False

def inRead : Pc Op RLoc WLoc Res → Prop
  | reading _ _ | readLeave _ _ => True
  | _ => False

/-- Before its first access. -/
def fresh : Pc Op RLoc WLoc Res → Prop
  | idle | called _ => True
  | _ => False

/-- What the call did, once it took effect. -/
def outcome : Pc Op RLoc WLoc Res → Option (Op × Res)
  | readLeave op r | writeLeave op r | done op r => some (op, r)
  | _ => none

end Pc

/-- The lock, the calls, the shared state; what each call was given so far; `base` and `order` are the state after the calls
that took effect, and these. -/
structure State (V St Op RLoc WLoc In Res : Type) where
  lock : RwLock V
  pc : V → Pc Op RLoc WLoc Res
  shared : St
  given : V → Option (List In)
  base : St
  order : List (Entry V Op In Res)

inductive Act (V Op In : Type) where
  | call (v : V) (op : Op)
  /-- the answer, the load without the lock, or the acquisition -/
  | enter (v : V)
  | giveUp (v : V)
  | access (v : V) (i : In)
  | leave (v : V)

def init (σ₀ : St) : State V St Op RLoc WLoc In Res := ⟨RwLock.free, fun _ => .idle, σ₀, fun _ => some [], σ₀, []⟩

section Step

variable [DecidableEq V] (o : Object St Pub Op RLoc WLoc In Res)

def State.at (s : State V St Op RLoc WLoc In Res) (v : V) (p : Pc Op RLoc WLoc Res) : State V St Op RLoc WLoc In Res :=
  { s with pc := Function.update s.pc v p }

/-- An access of `v` is given the input `i`. -/
def State.give (s : State V St Op RLoc WLoc In Res) (v : V) (i : In) : State V St Op RLoc WLoc In Res :=
  { s with given := Function.update s.given v ((s.given v).map (· ++ [i])) }

/-- The call of `v` gives up. -/
def State.refuse (s : State V St Op RLoc WLoc In Res) (v : V) : State V St Op RLoc WLoc In Res :=
  { s with given := Function.update s.given v none }

/-- The call of `v` takes effect and leaves the state `σ`. -/
def State.commit (s : State V St Op RLoc WLoc In Res) (v : V) (op : Op) (r : Res) (σ : St) : State V St Op RLoc WLoc In Res :=
  { s with base := σ, order := s.order ++ [⟨v, op, s.given v, r⟩] }

@[simp] theorem State.given_give (s : State V St Op RLoc WLoc In Res) (v : V) (i : In) :
    (s.give v i).given v = (s.given v).map (· ++ [i]) := Function.update_self ..

@[simp] theorem State.given_refuse (s : State V St Op RLoc WLoc In Res) (v : V) : (s.refuse v).given v = none :=
  Function.update_self ..

def step (s : State V St Op RLoc WLoc In Res) : Act V Op In → Option (State V St Op RLoc WLoc In Res)
  | .call v op =>
    match s.pc v with
    | .idle => some (s.at v (.called op))
    | _ => none
  | .enter v =>
    match s.pc v with
    | .called op =>
      match o.plan op with
      | .answer r => some ((s.at v (.done op r)).commit v op r s.base)
      | .peek f => some ((s.at v (.done op (f (o.pub s.shared)))).commit v op (f (o.pub s.shared)) s.base)
      | .read l => (s.lock.acquireRead v).map (fun lock => { s.at v (.reading op l) with lock := lock })
      | .write l => (s.lock.acquireWrite v).map (fun lock => { s.at v (.writing op l) with lock := lock })
    | _ => none
  | .giveUp v =>
    match s.pc v with
    | .called op => (o.busy op).map (fun r => ((s.refuse v).at v (.done op r)).commit v op r s.base)
    | _ => none
  | .access v i =>
    match s.pc v with
    | .reading op l =>
      match o.look l i s.shared with
      | some (.inl l') => some ((s.give v i).at v (.reading op l'))
      | some (.inr r) => some (((s.give v i).at v (.readLeave op r)).commit v op r s.base)
      | none => none
    | .writing op l =>
      match o.edit l i s.shared with
      | some (σ, .inl l') => some { (s.give v i).at v (.writing op l') with shared := σ }
      | some (σ, .inr r) => some { ((s.give v i).at v (.writeLeave op r)).commit v op r σ with shared := σ }
      | none => none
    | _ => none
  | .leave v =>
    match s.pc v with
    | .readLeave op r => some { s.at v (.done op r) with lock := s.lock.releaseRead v }
    | .writeLeave op r => some { s.at v (.done op r) with lock := s.lock.releaseWrite }
    | _ => none

/-- What one step can do. -/
inductive Moved (s : State V St Op RLoc WLoc In Res) : State V St Op RLoc WLoc In Res → Prop
  | call {v : V} {op : Op} (hv : s.pc v = .idle) : Moved s (s.at v (.called op))
  /-- a call that takes no lock takes effect and returns -/
  | quick {v : V} {op : Op} {r : Res} (hv : s.pc v = .called op)
      (hr : o.plan op = .answer r ∨ ∃ f, o.plan op = .peek f ∧ f (o.pub s.shared) = r) :
      Moved s ((s.at v (.done op r)).commit v op r s.base)
  | giveUp {v : V} {op : Op} {r : Res} (hv : s.pc v = .called op) (hb : o.busy op = some r) :
      Moved s (((s.refuse v).at v (.done op r)).commit v op r s.base)
  | enterRead {v : V} {op : Op} {l : RLoc} {lock : RwLock V} (hv : s.pc v = .called op) (hp : o.plan op = .read l)
      (hl : s.lock.acquireRead v = some lock) : Moved s { s.at v (.reading op l) with lock := lock }
  | enterWrite {v : V} {op : Op} {l : WLoc} {lock : RwLock V} (hv : s.pc v = .called op) (hp : o.plan op = .write l)
      (hl : s.lock.acquireWrite v = some lock) : Moved s { s.at v (.writing op l) with lock := lock }
  | look {v : V} {op : Op} {l l' : RLoc} {i : In} (hv : s.pc v = .reading op l)
      (hl : o.look l i s.shared = some (.inl l')) : Moved s ((s.give v i).at v (.reading op l'))
  | lookLast {v : V} {op : Op} {l : RLoc} {i : In} {r : Res} (hv : s.pc v = .reading op l)
      (hl : o.look l i s.shared = some (.inr r)) : Moved s (((s.give v i).at v (.readLeave op r)).commit v op r s.base)
  | edit {v : V} {op : Op} {l l' : WLoc} {i : In} {σ : St} (hv : s.pc v = .writing op l)
      (he : o.edit l i s.shared = some (σ, .inl l')) : Moved s { (s.give v i).at v (.writing op l') with shared := σ }
  | editLast {v : V} {op : Op} {l : WLoc} {i : In} {σ : St} {r : Res} (hv : s.pc v = .writing op l)
      (he : o.edit l i s.shared = some (σ, .inr r)) :
      Moved s { ((s.give v i).at v (.writeLeave op r)).commit v op r σ with shared := σ }
  | leaveRead {v : V} {op : Op} {r : Res} (hv : s.pc v = .readLeave op r) :
      Moved s { s.at v (.done op r) with lock := s.lock.releaseRead v }
  | leaveWrite {v : V} {op : Op} {r : Res} (hv : s.pc v = .writeLeave op r) :
      Moved s { s.at v (.done op r) with lock := s.lock.releaseWrite }

variable {o} {s s' : State V St Op RLoc WLoc In Res}

theorem step_moved {a : Act V Op In} (h : step o s a = some s') : Moved o s s' := by
  cases a with
  | call v op =>
    simp only [step] at h
    split at h
    · rename_i hv
      cases h
      exact .call hv
    · cases h
  | enter v =>
    simp only [step] at h
    split at h
    · rename_i op hv
      split at h
      · rename_i r hp
        cases h
        exact .quick hv (Or.inl hp)
      · rename_i f hp
        cases h
        exact .quick hv (Or.inr ⟨f, hp, rfl⟩)
      · rename_i l hp
        obtain ⟨lock, hl, rfl⟩ := Option.map_eq_some_iff.1 h
        exact .enterRead hv hp hl
      · rename_i l hp
        obtain ⟨lock, hl, rfl⟩ := Option.map_eq_some_iff.1 h
        exact .enterWrite hv hp hl
    · cases h
  | giveUp v =>
    simp only [step] at h
    split at h
    · rename_i op hv
      obtain ⟨r, hb, rfl⟩ := Option.map_eq_some_iff.1 h
      exact .giveUp hv hb
    · cases h
  | access v i =>
    simp only [step] at h
    split at h
    · rename_i op l hv
      split at h
      · rename_i l' hl
        cases h
        exact .look hv hl
      · rename_i r hl
        cases h
        exact .lookLast hv hl
      · cases h
    · rename_i op l hv
      split at h
      · rename_i σ l' he
        cases h
        exact .edit hv he
      · rename_i σ r he
        cases h
        exact .editLast hv he
      · cases h
    · cases h
  | leave v =>
    simp only [step] at h
    split at h
    · rename_i op r hv
      cases h
      exact .leaveRead hv
    · rename_i op r hv
      cases h
      exact .leaveWrite hv
    · cases h

/-! ## What every run keeps -/

/-- The calls that took effect are legal; a call inside a section is where it would be alone in the state they left. -/
structure Inv (o : Object St Pub Op RLoc WLoc In Res) (σ₀ : St) (s : State V St Op RLoc WLoc In Res) : Prop where
  held : Held Pc.inWrite Pc.inRead s.lock s.pc
  legal : Legal (Does o) σ₀ s.order s.base
  shared : (∀ v op l, s.pc v ≠ .writing op l) → s.shared = s.base
  pub : o.pub s.shared = o.pub s.base
  reading : ∀ v op l, s.pc v = .reading op l →
    ∃ l₀ ins, o.plan op = .read l₀ ∧ s.given v = some ins ∧ Looks o s.shared l₀ ins l
  writing : ∀ v op l, s.pc v = .writing op l →
    ∃ l₀ ins, o.plan op = .write l₀ ∧ s.given v = some ins ∧ Edits o s.base l₀ ins l s.shared
  fresh : ∀ v, (s.pc v).fresh → s.given v = some []
  nodup : (s.order.map Entry.who).Nodup
  committed : ∀ e, e ∈ s.order ↔ (s.pc e.who).outcome = some (e.op, e.res) ∧ e.given = s.given e.who

omit [DecidableEq V] in
theorem inv_init (o : Object St Pub Op RLoc WLoc In Res) (σ₀ : St) :
    Inv o σ₀ (init σ₀ : State V St Op RLoc WLoc In Res) where
  held := ⟨fun v => by simp [init, Pc.inWrite], fun v => by simp [init, Pc.inRead]⟩
  legal := .nil
  shared := fun _ => rfl
  pub := rfl
  reading := fun _ _ _ h => by cases h
  writing := fun _ _ _ h => by cases h
  fresh := fun _ _ => rfl
  nodup := List.nodup_nil
  committed := fun e => by simp [init, Pc.outcome]

variable {σ₀ : St}

/-- Where the calls are after one of them moved. -/
theorem pc_at {P : Pc Op RLoc WLoc Res → Prop} {v u : V} {p : Pc Op RLoc WLoc Res}
    (h : P (Function.update s.pc v p u)) : (u = v ∧ P p) ∨ (u ≠ v ∧ P (s.pc u)) := by
  by_cases hu : u = v
  · subst hu
    rw [Function.update_self] at h
    exact Or.inl ⟨rfl, h⟩
  · rw [Function.update_of_ne hu] at h
    exact Or.inr ⟨hu, h⟩

/-- **A call that moves without taking effect** changes no entry of the order. -/
theorem Inv.committed_at (h : Inv o σ₀ s) {v : V} {p : Pc Op RLoc WLoc Res} (hp : p.outcome = (s.pc v).outcome)
    {given : V → Option (List In)} (hg : ∀ u, (s.pc u).outcome ≠ none → given u = s.given u) (e : Entry V Op In Res) :
    e ∈ s.order ↔ (Function.update s.pc v p e.who).outcome = some (e.op, e.res) ∧ e.given = given e.who := by
  have hout : (Function.update s.pc v p e.who).outcome = (s.pc e.who).outcome := by
    by_cases hu : e.who = v
    · rw [hu, Function.update_self, hp]
    · rw [Function.update_of_ne hu]
  rw [h.committed e, hout]
  refine and_congr_right (fun hsome => ?_)
  rw [hg e.who (by rw [hsome]; exact Option.some_ne_none _)]

/-- **A call that takes effect** is the one new entry. -/
theorem Inv.committed_commit (h : Inv o σ₀ s) {v : V} {op : Op} {r : Res} {p : Pc Op RLoc WLoc Res}
    (hv : (s.pc v).outcome = none) (hp : p.outcome = some (op, r)) {given : V → Option (List In)}
    (hg : ∀ u, u ≠ v → given u = s.given u) (e : Entry V Op In Res) : e ∈ s.order ++ [⟨v, op, given v, r⟩] ↔
      (Function.update s.pc v p e.who).outcome = some (e.op, e.res) ∧ e.given = given e.who := by
  rw [List.mem_append, List.mem_singleton, h.committed e]
  by_cases hu : e.who = v
  · obtain ⟨who, eop, egiven, eres⟩ := e
    simp only at hu
    subst hu
    rw [Function.update_self, hv, hp]
    simp only [reduceCtorEq, false_and, false_or, Entry.mk.injEq, true_and, Option.some.injEq, Prod.mk.injEq]
    constructor
    · rintro ⟨rfl, rfl, rfl⟩
      exact ⟨⟨rfl, rfl⟩, rfl⟩
    · rintro ⟨⟨rfl, rfl⟩, rfl⟩
      exact ⟨rfl, rfl, rfl⟩
  · rw [Function.update_of_ne hu, hg e.who hu]
    constructor
    · rintro (he | rfl)
      · exact he
      · exact absurd rfl hu
    · exact Or.inl

omit [DecidableEq V] in
theorem Inv.nodup_commit (h : Inv o σ₀ s) {v : V} (hv : (s.pc v).outcome = none) (op : Op) (g : Option (List In)) (r : Res) :
    ((s.order ++ [(⟨v, op, g, r⟩ : Entry V Op In Res)]).map Entry.who).Nodup := by
  rw [List.map_append, List.map_singleton]
  refine List.nodup_append.2 ⟨h.nodup, List.nodup_singleton _, ?_⟩
  rintro u hu w hw rfl
  obtain ⟨e, he, rfl⟩ := List.mem_map.1 hu
  rw [List.mem_singleton] at hw
  have hout := ((h.committed e).1 he).1
  rw [hw, hv] at hout
  cases hout

/-- A call outside a write section does not keep the others from being outside one. -/
theorem not_writing_of_at {v : V} {p : Pc Op RLoc WLoc Res} (hv : ∀ op l, s.pc v ≠ .writing op l)
    (h : ∀ u op l, Function.update s.pc v p u ≠ .writing op l) (u : V) (op : Op) (l : WLoc) : s.pc u ≠ .writing op l := by
  by_cases hu : u = v
  · rw [hu]
    exact hv op l
  · have := h u op l
    rwa [Function.update_of_ne hu] at this

theorem Inv.reading_at (h : Inv o σ₀ s) {v : V} {p : Pc Op RLoc WLoc Res} (hp : ∀ op l, p ≠ .reading op l)
    {given : V → Option (List In)} (hg : ∀ u, u ≠ v → given u = s.given u) (u : V) (op : Op) (l : RLoc)
    (hu : Function.update s.pc v p u = .reading op l) :
    ∃ l₀ ins, o.plan op = .read l₀ ∧ given u = some ins ∧ Looks o s.shared l₀ ins l := by
  rcases pc_at (P := (· = .reading op l)) hu with ⟨-, hc⟩ | ⟨hne, hu⟩
  · exact absurd hc (hp op l)
  · rw [hg u hne]
    exact h.reading u op l hu

theorem Inv.writing_at (h : Inv o σ₀ s) {v : V} {p : Pc Op RLoc WLoc Res} (hp : ∀ op l, p ≠ .writing op l)
    {given : V → Option (List In)} (hg : ∀ u, u ≠ v → given u = s.given u) (u : V) (op : Op) (l : WLoc)
    (hu : Function.update s.pc v p u = .writing op l) :
    ∃ l₀ ins, o.plan op = .write l₀ ∧ given u = some ins ∧ Edits o s.base l₀ ins l s.shared := by
  rcases pc_at (P := (· = .writing op l)) hu with ⟨-, hc⟩ | ⟨hne, hu⟩
  · exact absurd hc (hp op l)
  · rw [hg u hne]
    exact h.writing u op l hu

theorem Inv.fresh_at (h : Inv o σ₀ s) {v : V} {p : Pc Op RLoc WLoc Res} {given : V → Option (List In)}
    (hp : p.fresh → given v = some []) (hg : ∀ u, u ≠ v → given u = s.given u) (u : V)
    (hu : (Function.update s.pc v p u).fresh) : given u = some [] := by
  rcases pc_at (P := Pc.fresh) hu with ⟨rfl, hc⟩ | ⟨hne, hu⟩
  · exact hp hc
  · rw [hg u hne]
    exact h.fresh u hu

/-- What the others were given stays. -/
theorem given_of_ne {v : V} {x : Option (List In)} (u : V) (hu : u ≠ v) : Function.update s.given v x u = s.given u :=
  Function.update_of_ne hu ..

theorem given_of_outcome {v : V} {x : Option (List In)} (hv : (s.pc v).outcome = none) (u : V)
    (hu : (s.pc u).outcome ≠ none) : Function.update s.given v x u = s.given u :=
  given_of_ne u (fun huv => hu (by rw [huv, hv]))

omit [DecidableEq V] in
/-- Inside a write section there is no reader. -/
theorem Inv.no_reading (h : Inv o σ₀ s) {v u : V} {op uop : Op} {l : WLoc} {k : RLoc} (hv : s.pc v = .writing op l) :
    s.pc u ≠ .reading uop k := by
  intro hu
  exact h.held.no_reader (v := v) (u := u) (by rw [hv]; trivial) (by rw [hu]; trivial)

/-- **Every step keeps the invariant.** -/
theorem inv_moved (h : Inv o σ₀ s) (hm : Moved o s s') : Inv o σ₀ s' := by
  cases hm with
  | @call v op hv =>
    exact ⟨h.held.stay (by simp [hv, Pc.inWrite]) (by simp [hv, Pc.inRead]), h.legal,
      fun hw => h.shared (not_writing_of_at (by simp [hv]) hw), h.pub, h.reading_at (by simp) (fun _ _ => rfl),
      h.writing_at (by simp) (fun _ _ => rfl), h.fresh_at (fun _ => h.fresh v (by rw [hv]; trivial)) (fun _ _ => rfl),
      h.nodup, h.committed_at (by rw [hv]; rfl) (fun _ _ => rfl)⟩
  | @quick v op r hv hr =>
    have hdoes : Does o op (s.given v) r s.base s.base := by
      rw [h.fresh v (by rw [hv]; trivial)]
      rcases hr with hp | ⟨f, hp, rfl⟩
      · exact .answer hp
      · rw [h.pub]
        exact .peek hp
    exact ⟨h.held.stay (by simp [hv, Pc.inWrite]) (by simp [hv, Pc.inRead]), h.legal.snoc hdoes,
      fun hw => h.shared (not_writing_of_at (by simp [hv]) hw), h.pub, h.reading_at (by simp) (fun _ _ => rfl),
      h.writing_at (by simp) (fun _ _ => rfl), h.fresh_at (fun hc => hc.elim) (fun _ _ => rfl),
      h.nodup_commit (by rw [hv]; rfl) op _ r, h.committed_commit (by rw [hv]; rfl) rfl (fun _ _ => rfl)⟩
  | @giveUp v op r hv hb =>
    have hdoes : Does o op ((s.refuse v).given v) r s.base s.base := by
      rw [State.given_refuse]
      exact .busy hb
    exact ⟨h.held.stay (by simp [hv, Pc.inWrite]) (by simp [hv, Pc.inRead]), h.legal.snoc hdoes,
      fun hw => h.shared (not_writing_of_at (by simp [hv]) hw), h.pub, h.reading_at (by simp) given_of_ne,
      h.writing_at (by simp) given_of_ne, h.fresh_at (fun hc => hc.elim) given_of_ne,
      h.nodup_commit (by rw [hv]; rfl) op _ r, h.committed_commit (by rw [hv]; rfl) rfl given_of_ne⟩
  | @enterRead v op l₀ lock hv hp hl =>
    refine ⟨h.held.acquireRead hl (by simp [Pc.inWrite]) (by simp [Pc.inRead]), h.legal,
      fun hw => h.shared (not_writing_of_at (by simp [hv]) hw), h.pub, fun u uop l hu => ?_,
      h.writing_at (by simp) (fun _ _ => rfl), h.fresh_at (fun hc => hc.elim) (fun _ _ => rfl), h.nodup,
      h.committed_at (by rw [hv]; rfl) (fun _ _ => rfl)⟩
    rcases pc_at (P := (· = .reading uop l)) hu with ⟨rfl, hc⟩ | ⟨-, hu⟩
    · cases hc
      exact ⟨l₀, [], hp, h.fresh u (by rw [hv]; trivial), .start⟩
    · exact h.reading u uop l hu
  | @enterWrite v op l₀ lock hv hp hl =>
    -- nobody was inside, so the section starts in the state the calls before it left
    have hbase : s.shared = s.base := by
      refine h.shared (fun u uop l hu => ?_)
      have hin := (h.held.writer u).2 (by rw [hu]; trivial)
      rw [(RwLock.acquireWrite_eq_some hl).1] at hin
      cases hin
    refine ⟨h.held.acquireWrite hl (by simp [Pc.inWrite]) (by simp [Pc.inRead]), h.legal, fun _ => hbase, h.pub,
      h.reading_at (by simp) (fun _ _ => rfl), fun u uop l hu => ?_, h.fresh_at (fun hc => hc.elim) (fun _ _ => rfl), h.nodup,
      h.committed_at (by rw [hv]; rfl) (fun _ _ => rfl)⟩
    rcases pc_at (P := (· = .writing uop l)) hu with ⟨rfl, hc⟩ | ⟨-, hu⟩
    · cases hc
      refine ⟨l₀, [], hp, h.fresh u (by rw [hv]; trivial), ?_⟩
      show Edits o s.base l₀ [] l₀ s.shared
      rw [hbase]
      exact .start
    · exact h.writing u uop l hu
  | @look v op l l' i hv hl =>
    have hnone : (s.pc v).outcome = none := by rw [hv]; rfl
    refine ⟨h.held.stay (by simp [hv, Pc.inWrite]) (by simp [hv, Pc.inRead]), h.legal,
      fun hw => h.shared (not_writing_of_at (by simp [hv]) hw), h.pub, fun u uop k hu => ?_,
      h.writing_at (by simp) given_of_ne, h.fresh_at (fun hc => hc.elim) given_of_ne, h.nodup,
      h.committed_at (by rw [hnone]; rfl) (given_of_outcome hnone)⟩
    rcases pc_at (P := (· = .reading uop k)) hu with ⟨rfl, hc⟩ | ⟨hne, hu⟩
    · cases hc
      obtain ⟨l₀, ins, hp, hg, hls⟩ := h.reading u op l hv
      refine ⟨l₀, ins ++ [i], hp, ?_, hls.next hl⟩
      show Function.update s.given u _ u = _
      rw [Function.update_self, hg, Option.map_some]
    · show ∃ l₀ ins, _ ∧ Function.update s.given v _ u = some ins ∧ _
      rw [given_of_ne u hne]
      exact h.reading u uop k hu
  | @lookLast v op l i r hv hl =>
    -- a reader is inside, so no writer is: what it read is what the calls before it left
    have hbase : s.shared = s.base := h.shared fun u uop k hu => h.no_reading hu hv
    obtain ⟨l₀, ins, hp, hg, hls⟩ := h.reading v op l hv
    rw [hbase] at hls hl
    have hdoes : Does o op ((s.give v i).given v) r s.base s.base := by
      rw [State.given_give, hg, Option.map_some]
      exact .read hp hls hl
    exact ⟨h.held.stay (by simp [hv, Pc.inWrite]) (by simp [hv, Pc.inRead]), h.legal.snoc hdoes, fun _ => hbase,
      h.pub, h.reading_at (by simp) given_of_ne, h.writing_at (by simp) given_of_ne,
      h.fresh_at (fun hc => hc.elim) given_of_ne, h.nodup_commit (by rw [hv]; rfl) op _ r,
      h.committed_commit (by rw [hv]; rfl) rfl given_of_ne⟩
  | @edit v op l l' i σ hv he =>
    have hnone : (s.pc v).outcome = none := by rw [hv]; rfl
    refine ⟨h.held.stay (by simp [hv, Pc.inWrite]) (by simp [hv, Pc.inRead]), h.legal, fun hw => ?_,
      (o.edit_pub he).trans h.pub, fun u uop k hu => ?_, fun u uop k hu => ?_,
      h.fresh_at (fun hc => hc.elim) given_of_ne, h.nodup, h.committed_at (by rw [hnone]; rfl) (given_of_outcome hnone)⟩
    · exact absurd (Function.update_self ..) (hw v op l')
    · rcases pc_at (P := (· = .reading uop k)) hu with ⟨-, hc⟩ | ⟨-, hu⟩
      · cases hc
      · exact absurd hu (h.no_reading hv)
    · rcases pc_at (P := (· = .writing uop k)) hu with ⟨rfl, hc⟩ | ⟨hne, hu⟩
      · cases hc
        obtain ⟨l₀, ins, hp, hg, hes⟩ := h.writing u op l hv
        refine ⟨l₀, ins ++ [i], hp, ?_, hes.next he⟩
        show Function.update s.given u _ u = _
        rw [Function.update_self, hg, Option.map_some]
      · have hu' : s.pc u = .writing uop k := hu
        exact absurd (h.held.writer_unique (by rw [hu']; trivial) (by rw [hv]; trivial)) hne
  | @editLast v op l i σ r hv he =>
    obtain ⟨l₀, ins, hp, hg, hes⟩ := h.writing v op l hv
    have hdoes : Does o op ((s.give v i).given v) r s.base σ := by
      rw [State.given_give, hg, Option.map_some]
      exact .write hp hes he
    refine ⟨h.held.stay (by simp [hv, Pc.inWrite]) (by simp [hv, Pc.inRead]), h.legal.snoc hdoes, fun _ => rfl,
      rfl, fun u uop k hu => ?_, fun u uop k hu => ?_, h.fresh_at (fun hc => hc.elim) given_of_ne,
      h.nodup_commit (by rw [hv]; rfl) op _ r, h.committed_commit (by rw [hv]; rfl) rfl given_of_ne⟩
    · rcases pc_at (P := (· = .reading uop k)) hu with ⟨-, hc⟩ | ⟨-, hu⟩
      · cases hc
      · exact absurd hu (h.no_reading hv)
    · rcases pc_at (P := (· = .writing uop k)) hu with ⟨-, hc⟩ | ⟨hne, hu⟩
      · cases hc
      · have hu' : s.pc u = .writing uop k := hu
        exact absurd (h.held.writer_unique (by rw [hu']; trivial) (by rw [hv]; trivial)) hne
  | @leaveRead v op r hv =>
    exact ⟨h.held.releaseRead (by rw [hv]; trivial) (by simp [Pc.inWrite]) (by simp [Pc.inRead]), h.legal,
      fun hw => h.shared (not_writing_of_at (by simp [hv]) hw), h.pub, h.reading_at (by simp) (fun _ _ => rfl),
      h.writing_at (by simp) (fun _ _ => rfl), h.fresh_at (fun hc => hc.elim) (fun _ _ => rfl), h.nodup,
      h.committed_at (by rw [hv]; rfl) (fun _ _ => rfl)⟩
  | @leaveWrite v op r hv =>
    exact ⟨h.held.releaseWrite (by rw [hv]; trivial) (by simp [Pc.inWrite]) (by simp [Pc.inRead]), h.legal,
      fun hw => h.shared (not_writing_of_at (by simp [hv]) hw), h.pub, h.reading_at (by simp) (fun _ _ => rfl),
      h.writing_at (by simp) (fun _ _ => rfl), h.fresh_at (fun hc => hc.elim) (fun _ _ => rfl), h.nodup,
      h.committed_at (by rw [hv]; rfl) (fun _ _ => rfl)⟩

/-- **While a read section is open nothing changes.** -/
theorem Inv.shared_moved (h : Inv o σ₀ s) {v : V} (hv : (s.pc v).inRead) (hm : Moved o s s') : s'.shared = s.shared := by
  have hno : ∀ u op l, s.pc u ≠ .writing op l := fun u op l hu =>
    h.held.no_reader (v := u) (u := v) (by rw [hu]; trivial) hv
  cases hm with
  | edit hu _ | editLast hu _ => exact absurd hu (hno _ _ _)
  | _ => rfl

theorem inv_run {acts : List (Act V Op In)} (hr : Machine.run (step o) (init σ₀) acts = some s) : Inv o σ₀ s :=
  Machine.run_invariant (Inv o σ₀) (fun _ _ _ h hs => inv_moved h (step_moved hs)) acts _ _ (inv_init o σ₀) hr

omit [DecidableEq V] in
/-- **At every moment** what is shared has what the calls leave, as long as no write section loses it on the way. -/
theorem Inv.holds (h : Inv o σ₀ s) (I : St → Prop) (hbase : I s.base)
    (hedits : ∀ op l₀ ins l, o.plan op = .write l₀ → Edits o s.base l₀ ins l s.shared → I s.shared) : I s.shared := by
  by_cases hw : ∃ v op l, s.pc v = .writing op l
  · obtain ⟨v, op, l, hv⟩ := hw
    obtain ⟨l₀, ins, hp, -, he⟩ := h.writing v op l hv
    exact hedits op l₀ ins l hp he
  · rw [h.shared (fun v op l hv => hw ⟨v, op, l, hv⟩)]
    exact hbase

/-! ## The order of the calls -/

/-- A step keeps the entries there are. -/
theorem order_moved (hm : Moved o s s') : s.order <+: s'.order := by
  cases hm with
  | quick | giveUp | lookLast | editLast => exact List.prefix_append _ _
  | call | enterRead | enterWrite | look | edit | leaveRead | leaveWrite => exact List.prefix_refl _

theorem order_run {acts : List (Act V Op In)} (hr : Machine.run (step o) s acts = some s') : s.order <+: s'.order :=
  Machine.run_invariant (fun t => s.order <+: t.order) (fun _ _ _ h hs => h.trans (order_moved (step_moved hs))) acts _ _
    (List.prefix_refl _) hr

/-- The first entry stands before the second. -/
def Before (es : List (Entry V Op In Res)) (e e' : Entry V Op In Res) : Prop := ∃ a b c, es = a ++ e :: b ++ e' :: c

omit [DecidableEq V] in
theorem before_of_prefix {es es' : List (Entry V Op In Res)} (hpre : es <+: es') {e e' : Entry V Op In Res} (he : e ∈ es)
    (he' : e' ∈ es') (hnot : e' ∉ es) : Before es' e e' := by
  obtain ⟨rest, rfl⟩ := hpre
  obtain ⟨a, b, rfl⟩ := List.append_of_mem he
  have hrest : e' ∈ rest := (List.mem_append.1 he').resolve_left hnot
  obtain ⟨b', c, rfl⟩ := List.append_of_mem hrest
  exact ⟨a, b ++ b', c, by simp⟩

/-- **A call that returned before another was made took effect before it.** -/
theorem before_of_returned {pre post : List (Act V Op In)} (hpre : Machine.run (step o) (init σ₀) pre = some s)
    (hpost : Machine.run (step o) s post = some s') {e e' : Entry V Op In Res} (hdone : s.pc e.who = .done e.op e.res)
    (hidle : s.pc e'.who = .idle) (he : e ∈ s'.order) (he' : e' ∈ s'.order) : Before s'.order e e' := by
  have hinv := inv_run hpre
  have hgrown := order_run hpost
  -- the call has one entry, and that is in the order already
  have hin : ⟨e.who, e.op, s.given e.who, e.res⟩ ∈ s.order := (hinv.committed _).2 ⟨by rw [hdone]; rfl, rfl⟩
  have hentry : e = ⟨e.who, e.op, s.given e.who, e.res⟩ :=
    List.inj_on_of_nodup_map (inv_run ((Machine.run_append ..).trans (by rw [hpre]; exact hpost))).nodup he
      (hgrown.subset hin) rfl
  refine before_of_prefix hgrown (by rw [hentry]; exact hin) he' (fun hin' => ?_)
  have hout := ((hinv.committed e').1 hin').1
  rw [hidle] at hout
  cases hout

/-! ## What the calls are given -/

/-- What the call of `v` has been given after an action: an access gives it an input, and once it gives up it has nothing. -/
def give (v : V) (g : Option (List In)) : Act V Op In → Option (List In)
  | .giveUp u => if u = v then none else g
  | .access u i => if u = v then g.map (· ++ [i]) else g
  | .call _ _ | .enter _ | .leave _ => g

/-- What the actions of a run give the call of `v`. -/
def given (acts : List (Act V Op In)) (v : V) : Option (List In) := acts.foldl (give v) (some [])

theorem given_step {a : Act V Op In} (h : step o s a = some s') (v : V) : s'.given v = give v (s.given v) a := by
  have hupdate : ∀ {u : V} {x : Option (List In)}, Function.update s.given u x v = if u = v then x else s.given v := by
    intro u x
    by_cases hu : u = v
    · rw [if_pos hu, hu, Function.update_self]
    · rw [if_neg hu, Function.update_of_ne (Ne.symm hu)]
  have haccess : ∀ {u : V} {i : In}, Function.update s.given u ((s.given u).map (· ++ [i])) v =
      if u = v then (s.given v).map (· ++ [i]) else s.given v := by
    intro u i
    rw [hupdate]
    split
    · rename_i hu
      rw [hu]
    · rfl
  cases a with
  | call u op =>
    simp only [step] at h
    split at h <;> cases h
    rfl
  | enter u =>
    simp only [step] at h
    split at h
    · split at h
      · cases h
        rfl
      · cases h
        rfl
      · obtain ⟨lock, -, rfl⟩ := Option.map_eq_some_iff.1 h
        rfl
      · obtain ⟨lock, -, rfl⟩ := Option.map_eq_some_iff.1 h
        rfl
    · cases h
  | giveUp u =>
    simp only [step] at h
    split at h
    · obtain ⟨r, -, rfl⟩ := Option.map_eq_some_iff.1 h
      exact hupdate
    · cases h
  | access u i =>
    simp only [step] at h
    split at h
    · split at h <;> cases h <;> exact haccess
    · split at h <;> cases h <;> exact haccess
    · cases h
  | leave u =>
    simp only [step] at h
    split at h <;> cases h <;> rfl

theorem given_run {acts : List (Act V Op In)} (hr : Machine.run (step o) (init σ₀) acts = some s) (v : V) :
    s.given v = given acts v := by
  refine Machine.run_induction (fun acts s => s.given v = given acts v) rfl (fun acts a s s' _ ih hs => ?_) acts s hr
  rw [given_step hs, ih, given, given, List.foldl_concat]

/-! ## The whole run -/

/-- **The run is linearized**: the calls that took effect, each once and between its call and its return, are legal one after
the other, given what the run gave them and with the results they returned; what is shared at rest is what they leave. -/
structure Linearized (o : Object St Pub Op RLoc WLoc In Res) (spec : Op → Option (List In) → Res → St → St → Prop) (σ₀ : St)
    (acts : List (Act V Op In)) (s : State V St Op RLoc WLoc In Res) : Prop where
  legal : Legal spec σ₀ s.order s.base
  once : (s.order.map Entry.who).Nodup
  given : ∀ e ∈ s.order, e.given = given acts e.who
  returned : ∀ v op r, s.pc v = .done op r → ⟨v, op, Linear.given acts v, r⟩ ∈ s.order
  called : ∀ e ∈ s.order, (s.pc e.who).outcome = some (e.op, e.res)
  shared : (∀ v op l, s.pc v ≠ .writing op l) → s.shared = s.base
  before : ∀ pre post s₁, acts = pre ++ post → Machine.run (step o) (init σ₀) pre = some s₁ →
    ∀ e ∈ s.order, ∀ e' ∈ s.order, s₁.pc e.who = .done e.op e.res → s₁.pc e'.who = .idle → Before s.order e e'

/-- **The state the calls leave** has whatever each of them keeps when it runs alone. -/
theorem base_holds (I : St → Prop) (h0 : I σ₀) (hstep : ∀ op g r σ σ', I σ → Does o op g r σ σ' → I σ')
    {acts : List (Act V Op In)} (hr : Machine.run (step o) (init σ₀) acts = some s) : I s.base :=
  ((inv_run hr).legal.mono I h0 (fun op g r σ σ' hi hd => ⟨hd, hstep op g r σ σ' hi hd⟩)).2

/-- **Every run is linearized** by any account of the operations that holds of each of them alone. -/
theorem linearized {spec : Op → Option (List In) → Res → St → St → Prop} (I : St → Prop) (h0 : I σ₀)
    (hstep : ∀ op g r σ σ', I σ → Does o op g r σ σ' → spec op g r σ σ' ∧ I σ') {acts : List (Act V Op In)}
    (hr : Machine.run (step o) (init σ₀) acts = some s) : Linearized o spec σ₀ acts s ∧ I s.base := by
  have hinv := inv_run hr
  obtain ⟨hlegal, hi⟩ := hinv.legal.mono I h0 hstep
  refine ⟨⟨hlegal, hinv.nodup, fun e he => ?_, fun v op r hv => ?_, fun e he => ((hinv.committed e).1 he).1, hinv.shared, ?_⟩,
    hi⟩
  · rw [((hinv.committed e).1 he).2, given_run hr]
  · exact (hinv.committed _).2 ⟨by rw [hv]; rfl, (given_run hr v).symm⟩
  · intro pre post s₁ hacts hpre e he e' he' hdone hidle
    subst hacts
    rw [Machine.run_append, hpre] at hr
    exact before_of_returned hpre hr hdone hidle he he'

end Step

end Linear
end MmapIo
