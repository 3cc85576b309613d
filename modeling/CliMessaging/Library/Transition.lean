import Mathlib.Data.List.Basic

/-! # Runs of a labelled transition system

A run lists the labels of its steps, so that a statement can speak about what
happened on the way as well as about the state reached. -/

namespace CliMessaging.Transition

variable {σ ε : Type*} {step : σ → ε → σ → Prop}

/-- `Run step s es t`: the steps labelled `es` lead from `s` to `t`. -/
inductive Run (step : σ → ε → σ → Prop) : σ → List ε → σ → Prop where
  | nil (s) : Run step s [] s
  | cons {s t u e es} : step s e t → Run step t es u → Run step s (e :: es) u

theorem Run.single {s t : σ} {e : ε} (h : step s e t) : Run step s [e] t :=
  .cons h (.nil t)

theorem Run.append {s t u : σ} {es fs : List ε} (h : Run step s es t)
    (k : Run step t fs u) : Run step s (es ++ fs) u := by
  induction h with
  | nil => exact k
  | cons hs _ ih => exact .cons hs (ih k)

theorem Run.snoc {s t u : σ} {es : List ε} {e : ε} (h : Run step s es t)
    (k : step t e u) : Run step s (es ++ [e]) u :=
  h.append (.single k)

theorem Run.mono {step' : σ → ε → σ → Prop} {s t : σ} {es : List ε} (h : Run step s es t)
    (hsub : ∀ s e t, step s e t → step' s e t) : Run step' s es t := by
  induction h with
  | nil => exact .nil _
  | cons hs _ ih => exact .cons (hsub _ _ _ hs) ih

/-- A property of states and of the labels before them that every admissible step
extends by its label holds at the end of every run of admissible steps. -/
theorem Run.history {I : List ε → σ → Prop} {P : ε → Prop}
    (hstep : ∀ es s e t, I es s → P e → step s e t → I (es ++ [e]) t)
    {s t : σ} {es : List ε} (h : Run step s es t) (hP : ∀ e ∈ es, P e)
    (past : List ε) (hs : I past s) : I (past ++ es) t := by
  induction h generalizing past with
  | nil => simpa using hs
  | cons hst _ ih =>
      have hnext := hstep _ _ _ _ hs (hP _ (by simp)) hst
      simpa using ih (fun e he => hP e (by simp [he])) _ hnext

/-- The induction rule for state invariants. -/
theorem Run.invariant {I : σ → Prop} {P : ε → Prop}
    (hstep : ∀ s e t, I s → P e → step s e t → I t)
    {s t : σ} {es : List ε} (h : Run step s es t) (hP : ∀ e ∈ es, P e) (hs : I s) : I t :=
  h.history (I := fun _ => I) (fun _ => hstep) hP [] hs

/-- A fact about each label, drawn from an invariant of the state before its step. -/
theorem Run.forall_label {I : σ → Prop} {P Q : ε → Prop}
    (hstep : ∀ s e t, I s → P e → step s e t → I t ∧ Q e)
    {s t : σ} {es : List ε} (h : Run step s es t) (hP : ∀ e ∈ es, P e) (hs : I s) :
    ∀ e ∈ es, Q e := by
  induction h with
  | nil => simp
  | cons hst _ ih =>
      obtain ⟨ht, hq⟩ := hstep _ _ _ hs (hP _ (by simp)) hst
      intro e he
      rcases List.mem_cons.mp he with rfl | he
      · exact hq
      · exact ih (fun e he => hP e (by simp [he])) ht e he

theorem Run.of_append {s u : σ} {es fs : List ε} (h : Run step s (es ++ fs) u) :
    ∃ t, Run step s es t ∧ Run step t fs u := by
  induction es generalizing s with
  | nil => exact ⟨s, .nil s, h⟩
  | cons e es ih =>
      cases h with
      | cons hst hrun =>
          obtain ⟨t, hes, hfs⟩ := ih hrun
          exact ⟨t, .cons hst hes, hfs⟩

/-- When the label of a step determines its outcome, the labels of a run do. -/
theorem Run.unique (hdet : ∀ s e t t', step s e t → step s e t' → t = t')
    {s t t' : σ} {es : List ε} (h : Run step s es t) (k : Run step s es t') : t = t' := by
  induction h with
  | nil =>
      cases k
      rfl
  | cons hst _ ih =>
      cases k with
      | cons kst krun =>
          rw [hdet _ _ _ _ kst hst] at krun
          exact ih krun

/-- Every label of a run marks a step out of a state the run passes through. -/
theorem Run.split_of_mem {s t : σ} {es : List ε} (h : Run step s es t) {e : ε}
    (he : e ∈ es) : ∃ past u v future, es = past ++ e :: future ∧
      Run step s past u ∧ step u e v ∧ Run step v future t := by
  induction h with
  | nil => simp at he
  | @cons s _ _ e' es hst hrun ih =>
      rcases List.mem_cons.mp he with rfl | he
      · exact ⟨[], s, _, es, rfl, .nil s, hst, hrun⟩
      · obtain ⟨past, u, v, future, rfl, hpast, huv, hfuture⟩ := ih he
        exact ⟨e' :: past, u, v, future, rfl, .cons hst hpast, huv, hfuture⟩

/-- The induction rule for simulations. -/
theorem Run.simulation {τ ζ : Type*} {step' : τ → ζ → τ → Prop} {R : σ → τ → Prop}
    {S : ε → ζ → Prop} {P : ε → Prop}
    (hstep : ∀ s e s' t, R s t → P e → step s e s' → ∃ f t', step' t f t' ∧ S e f ∧ R s' t')
    {s s' : σ} {t : τ} {es : List ε} (h : Run step s es s') (hP : ∀ e ∈ es, P e) (hst : R s t) :
    ∃ fs t', Run step' t fs t' ∧ List.Forall₂ S es fs ∧ R s' t' := by
  induction h generalizing t with
  | nil s => exact ⟨[], t, .nil t, .nil, hst⟩
  | cons hs _ ih =>
      obtain ⟨f, t', hf, hef, hst'⟩ := hstep _ _ _ _ hst (hP _ (by simp)) hs
      obtain ⟨fs, t'', hrun, hall, hend⟩ := ih (fun e he => hP e (by simp [he])) hst'
      exact ⟨f :: fs, t'', .cons hf hrun, .cons hef hall, hend⟩

/-- A simulation in which a step may be matched by no step at all: `abs` gives the label of
the step that matches it. -/
theorem Run.stuttering {τ ζ : Type*} {step' : τ → ζ → τ → Prop} {R : σ → τ → Prop}
    {abs : ε → Option ζ}
    (hstep : ∀ s e s' t, R s t → step s e s' →
      ∃ t', Run step' t (abs e).toList t' ∧ R s' t')
    {s s' : σ} {t : τ} {es : List ε} (h : Run step s es s') (hst : R s t) :
    ∃ t', Run step' t (es.filterMap abs) t' ∧ R s' t' := by
  induction h generalizing t with
  | nil s => exact ⟨t, .nil t, hst⟩
  | @cons s _ _ e es hs _ ih =>
      obtain ⟨t₁, hfirst, ht₁⟩ := hstep _ _ _ _ hst hs
      obtain ⟨t', hrest, ht'⟩ := ih ht₁
      refine ⟨t', ?_, ht'⟩
      rw [← List.singleton_append, List.filterMap_append]
      have hone : [e].filterMap abs = (abs e).toList := by cases habs : abs e <;> simp [habs]
      rw [hone]
      exact hfirst.append hrest

/-! ## Registers -/

/-- The stamp of the last label that has one. -/
def lastStamp {τ : Type*} (stamp : ε → Option τ) (es : List ε) : Option τ :=
  (es.filterMap stamp).getLast?

theorem lastStamp_snoc {τ : Type*} (stamp : ε → Option τ) (es : List ε) (e : ε) :
    lastStamp stamp (es ++ [e]) = (stamp e).or (lastStamp stamp es) := by
  unfold lastStamp
  rw [List.filterMap_append]
  cases hstamp : stamp e with
  | none => simp [hstamp]
  | some x => simp [hstamp]

/-- A register that is set by every step with a stamp, and that every other step keeps or
removes, holds the last stamp. -/
theorem Run.lastStamp {τ : Type*} {I P : σ → Prop} (stamp : ε → Option τ)
    (Holds : σ → τ → Prop) (hinv : ∀ s e t, I s → step s e t → I t)
    (hset : ∀ s e t x, I s → step s e t → stamp e = some x → P t → Holds t x)
    (hkeep : ∀ s e t, I s → step s e t → stamp e = none → P t →
      P s ∧ ∀ x, Holds s x → Holds t x)
    {s t : σ} {es : List ε} (h : Run step s es t) (hs : I s) (hnone : ¬ P s) (ht : P t) :
    ∃ x, Transition.lastStamp stamp es = some x ∧ Holds t x := by
  have hall := h.history (P := fun _ => True)
    (I := fun past s => I s ∧ (P s → ∃ x, Transition.lastStamp stamp past = some x ∧ Holds s x))
    (fun past s e t hpast _ hst => by
      refine ⟨hinv s e t hpast.1 hst, fun hp => ?_⟩
      rw [lastStamp_snoc]
      cases hstamp : stamp e with
      | some x => exact ⟨x, rfl, hset s e t x hpast.1 hst hstamp hp⟩
      | none =>
          obtain ⟨hbefore, hsame⟩ := hkeep s e t hpast.1 hst hstamp hp
          obtain ⟨x, hlast, hx⟩ := hpast.2 hbefore
          exact ⟨x, hlast, hsame x hx⟩)
    (fun _ _ => trivial) [] ⟨hs, fun hp => absurd hp hnone⟩
  exact hall.2 ht

end CliMessaging.Transition
