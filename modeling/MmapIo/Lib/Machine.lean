import Mathlib.Data.List.Induction
import Mathlib.Logic.Function.Basic
/-!
# Machine — runs of a partial step function

A machine is a step function `step : σ → α → Option σ`: the action `a` is enabled in `s` exactly when it returns a next
state.  A run is a list of actions, executed from left to right; `run` returns the state reached, or nothing when some
action was not enabled.  Nothing is said about who chooses the actions, so a law about every run is a law about every
interleaving.
-/
namespace MmapIo
namespace Machine

variable {σ τ α : Type}

/-- The state a list of actions reaches, if every action is enabled when its turn comes. -/
def run (step : σ → α → Option σ) : σ → List α → Option σ
  | s, [] => some s
  | s, a :: as => (step s a).bind (fun s' => run step s' as)

@[simp] theorem run_nil (step : σ → α → Option σ) (s : σ) : run step s [] = some s := rfl

theorem run_cons (step : σ → α → Option σ) (s : σ) (a : α) (as : List α) :
    run step s (a :: as) = (step s a).bind (fun s' => run step s' as) := rfl

theorem run_append (step : σ → α → Option σ) : ∀ (as bs : List α) (s : σ),
    run step s (as ++ bs) = (run step s as).bind (fun s' => run step s' bs)
  | [], _, _ => rfl
  | a :: as, bs, s => by
    rw [List.cons_append, run_cons, run_cons]
    cases step s a with
    | none => rfl
    | some s' => exact run_append step as bs s'

theorem run_concat {step : σ → α → Option σ} {as : List α} {a : α} {s s'' : σ} :
    run step s (as ++ [a]) = some s'' ↔ ∃ s', run step s as = some s' ∧ step s' a = some s'' := by
  rw [run_append, Option.bind_eq_some_iff]
  simp [run_cons]

/-- **What every step keeps, every run keeps.** -/
theorem run_invariant {step : σ → α → Option σ} (P : σ → Prop)
    (hstep : ∀ s a s', P s → step s a = some s' → P s') :
    ∀ (as : List α) (s s' : σ), P s → run step s as = some s' → P s'
  | [], s, s', h, hr => by
    cases hr
    exact h
  | a :: as, s, s', h, hr => by
    rw [run_cons, Option.bind_eq_some_iff] at hr
    obtain ⟨s₁, h₁, hr⟩ := hr
    exact run_invariant P hstep as s₁ s' (hstep s a s₁ h h₁) hr

/-- **A machine that can always go on runs every list of actions.** -/
theorem run_total {step : σ → α → Option σ} (I : σ → Prop) (hstep : ∀ s a, I s → ∃ s', step s a = some s' ∧ I s') :
    ∀ (as : List α) (s : σ), I s → ∃ s', run step s as = some s' ∧ I s'
  | [], s, h => ⟨s, rfl, h⟩
  | a :: as, s, h => by
    obtain ⟨s₁, h₁, hi⟩ := hstep s a h
    obtain ⟨s', hr, hi'⟩ := run_total I hstep as s₁ hi
    exact ⟨s', by rw [run_cons, h₁]; exact hr, hi'⟩

/-- **Induction along a run, the last action last**: the property may speak of the actions taken so far. -/
theorem run_induction {step : σ → α → Option σ} {s₀ : σ} (P : List α → σ → Prop) (h0 : P [] s₀)
    (hstep : ∀ as a s s', run step s₀ as = some s → P as s → step s a = some s' → P (as ++ [a]) s')
    (as : List α) (s : σ) (hr : run step s₀ as = some s) : P as s := by
  induction as using List.reverseRecOn generalizing s with
  | nil =>
    cases hr
    exact h0
  | append_singleton as a ih =>
    obtain ⟨s₁, hr₁, hs⟩ := run_concat.1 hr
    exact hstep as a s₁ s hr₁ (ih s₁ hr₁) hs

/-- **Induction along a run of actions of one kind.** -/
theorem run_induction_of {step : σ → α → Option σ} {s₀ : σ} {kind : α → Prop} (P : List α → σ → Prop) (h0 : P [] s₀)
    (hstep : ∀ as a s s', kind a → P as s → step s a = some s' → P (as ++ [a]) s')
    (as : List α) (s : σ) (hr : run step s₀ as = some s) (hkind : ∀ a ∈ as, kind a) : P as s := by
  refine run_induction (fun as s => (∀ a ∈ as, kind a) → P as s) (fun _ => h0) ?_ as s hr hkind
  intro as a s s' _ ih hs hall
  refine hstep as a s s' (hall a ?_) (ih (fun b hb => hall b ?_)) hs
  · exact List.mem_append_right _ (List.mem_singleton_self a)
  · exact List.mem_append_left _ hb

/-- Every action of the run is taken in a state that meets the condition. -/
def EachStep (step : σ → α → Option σ) (s₀ : σ) (C : σ → α → Prop) (as : List α) : Prop :=
  ∀ pre a post s, as = pre ++ a :: post → run step s₀ pre = some s → C s a

theorem eachStep_nil (step : σ → α → Option σ) (s₀ : σ) (C : σ → α → Prop) : EachStep step s₀ C [] := by
  intro pre a post s has
  cases pre <;> cases has

theorem eachStep_concat {step : σ → α → Option σ} {s₀ s : σ} {C : σ → α → Prop} {as : List α} {a : α}
    (hr : run step s₀ as = some s) : EachStep step s₀ C (as ++ [a]) ↔ EachStep step s₀ C as ∧ C s a := by
  constructor
  · intro h
    refine ⟨?_, h as a [] s rfl hr⟩
    intro pre b post t has ht
    exact h pre b (post ++ [a]) t (by rw [has, List.append_assoc, List.cons_append]) ht
  · rintro ⟨h, hlast⟩ pre b post t has ht
    rcases List.eq_nil_or_concat post with rfl | ⟨post', c, rfl⟩
    · obtain ⟨rfl, hb⟩ := List.append_inj' has rfl
      rw [hr] at ht
      cases ht
      exact (List.cons.inj hb).1 ▸ hlast
    · rw [List.concat_eq_append, ← List.cons_append, ← List.append_assoc] at has
      exact h pre b post' t (List.append_inj_left' has rfl) ht

def Reaches (step : σ → α → Option σ) (s s' : σ) : Prop := ∃ as, run step s as = some s'

theorem Reaches.trans {step : σ → α → Option σ} {s s' s'' : σ} (h : Reaches step s s') (h' : Reaches step s' s'') :
    Reaches step s s'' := by
  obtain ⟨as, has⟩ := h
  obtain ⟨bs, hbs⟩ := h'
  exact ⟨as ++ bs, by rw [run_append, has]; exact hbs⟩

theorem Reaches.head {step : σ → α → Option σ} {s s' s'' : σ} {a : α} (h : step s a = some s') (h' : Reaches step s' s'') :
    Reaches step s s'' := by
  obtain ⟨as, has⟩ := h'
  exact ⟨a :: as, by rw [run_cons, h]; exact has⟩

theorem Reaches.single {step : σ → α → Option σ} {s s' : σ} {a : α} (h : step s a = some s') : Reaches step s s' :=
  Reaches.head h ⟨[], rfl⟩

theorem update_comp_eq {V A B : Type} [DecidableEq V] {f : A → B} {pc : V → A} {v : V} {x : B} (h : x = f (pc v)) :
    Function.update (f ∘ pc) v x = f ∘ pc := by
  rw [h]
  exact Function.update_eq_self v (f ∘ pc)

theorem comp_update_eq {V A B : Type} [DecidableEq V] {f : A → B} {pc : V → A} {v : V} {p' : A} (h : f p' = f (pc v)) :
    f ∘ Function.update pc v p' = f ∘ pc := by
  rw [Function.comp_update, update_comp_eq h]

/-! ## Total steps with an output -/

section Exec

variable {ο : Type}

/-- The outputs of a list of calls, and the state after them. -/
def exec (step : α → σ → ο × σ) : List α → σ → List ο × σ
  | [], s => ([], s)
  | a :: as, s =>
    let (o, s) := step a s
    let (os, s) := exec step as s
    (o :: os, s)

theorem exec_cons (step : α → σ → ο × σ) (a : α) (as : List α) (s : σ) :
    exec step (a :: as) s = ((step a s).1 :: (exec step as (step a s).2).1, (exec step as (step a s).2).2) := rfl

/-- **What every call keeps, every run keeps.** -/
theorem exec_invariant {step : α → σ → ο × σ} (I : σ → Prop) (hstep : ∀ a s, I s → I (step a s).2) :
    ∀ (as : List α) (s : σ), I s → I (exec step as s).2
  | [], _, h => h
  | a :: as, s, h => exec_invariant I hstep as _ (hstep a s h)

/-- **Unwinding**: a run stays related to the run without the calls that are not kept, when a kept call relates what it
reaches and a call that is left out stays related to where it started. -/
theorem exec_erased {step : α → σ → ο × σ} (keep : α → Bool) (R : σ → τ → Prop) {step' : α → τ → ο × τ}
    (hkeep : ∀ a s t, keep a = true → R s t → R (step a s).2 (step' a t).2) :
    ∀ (as : List α) (s : σ) (t : τ), (∀ a ∈ as, keep a = false → ∀ s t, R s t → R (step a s).2 t) → R s t →
      R (exec step as s).2 (exec step' (as.filter keep) t).2
  | [], _, _, _, h => h
  | a :: as, s, t, herase, h => by
    have hrest : ∀ b ∈ as, keep b = false → ∀ s t, R s t → R (step b s).2 t :=
      fun b hb => herase b (List.mem_cons_of_mem _ hb)
    rw [exec_cons]
    cases hk : keep a with
    | true =>
      rw [List.filter_cons_of_pos hk, exec_cons]
      exact exec_erased keep R hkeep as _ _ hrest (hkeep a s t hk h)
    | false =>
      rw [List.filter_cons_of_neg (by rw [hk]; exact Bool.false_ne_true)]
      exact exec_erased keep R hkeep as _ _ hrest (herase a List.mem_cons_self hk s t h)

/-- **Two machines whose related states answer alike and stay related answer every run alike.** -/
theorem exec_refines {step : α → σ → ο × σ} {step' : α → τ → ο × τ} (R : σ → τ → Prop)
    (hstep : ∀ a s t, R s t → (step a s).1 = (step' a t).1 ∧ R (step a s).2 (step' a t).2) :
    ∀ (as : List α) (s : σ) (t : τ), R s t →
      (exec step as s).1 = (exec step' as t).1 ∧ R (exec step as s).2 (exec step' as t).2
  | [], _, _, h => ⟨rfl, h⟩
  | a :: as, s, t, h => by
    obtain ⟨hout, hnext⟩ := hstep a s t h
    obtain ⟨houts, hlast⟩ := exec_refines R hstep as _ _ hnext
    rw [exec_cons, exec_cons, hout, houts]
    exact ⟨rfl, hlast⟩

end Exec

end Machine
end MmapIo
