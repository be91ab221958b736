import Mathlib.Data.List.Basic

/-!
# Runs of a deterministic-action transition system

A system is an executable step function: an action is enabled in a state when
the step returns a state. A run may be confined to steps that meet a condition
on the state before the step and the action taken, so that a property can be
proved of every run whose steps all meet it.
-/

namespace SparkRing.TransitionSystem

variable {σ α : Type*} {step : σ → α → Option σ} {good good' : σ → α → Prop} {init s t : σ}

/-- States reached from `init` by steps that all meet `good`. -/
inductive Reachable (step : σ → α → Option σ) (good : σ → α → Prop) (init : σ) : σ → Prop
  /-- The empty run. -/
  | start : Reachable step good init init
  /-- One more step of a run. -/
  | next {s t : σ} {a : α} : Reachable step good init s → good s a → step s a = some t →
      Reachable step good init t

/-- Every step is allowed. -/
def Unrestricted (_ : σ) (_ : α) : Prop := True

/-- A property of the first state that every step keeps holds in every reachable
state. The step may use that its first state is reachable, so invariants are
proved one on top of another. -/
theorem Reachable.invariant (P : σ → Prop) (h : Reachable step good init s) (h0 : P init)
    (hstep : ∀ s a t, Reachable step good init s → P s → good s a → step s a = some t → P t) : P s := by
  induction h with
  | start => exact h0
  | next hs hg ha ih => exact hstep _ _ _ hs ih hg ha

/-- Runs compose. -/
theorem Reachable.trans (hs : Reachable step good init s) (ht : Reachable step good s t) : Reachable step good init t := by
  induction ht with
  | start => exact hs
  | next _ hg ha ih => exact .next ih hg ha

/-- A weaker condition on the steps reaches at least as much. -/
theorem Reachable.mono (hw : ∀ s a, good s a → good' s a) (h : Reachable step good init s) : Reachable step good' init s := by
  induction h with
  | start => exact .start
  | next _ hg ha ih => exact .next ih (hw _ _ hg) ha

/-- Whichever steps of a kind are taken, as long as one is enabled, a state with the
property is reached. -/
inductive Inevitable (step : σ → α → Option σ) (kind : α → Prop) (P : σ → Prop) : σ → Prop
  /-- The state has the property. -/
  | now {s : σ} : P s → Inevitable step kind P s
  /-- Some step is enabled, and every one leads on. -/
  | later {s : σ} : (∃ a t, kind a ∧ step s a = some t) →
      (∀ a t, kind a → step s a = some t → Inevitable step kind P t) → Inevitable step kind P s

/-- A property is inevitable where steps decrease a measure and some step is enabled
until it holds. -/
theorem Inevitable.of_measure {μ : Type*} {r : μ → μ → Prop} (hr : WellFounded r) (measure : σ → μ) {kind : α → Prop}
    {I P : σ → Prop} (hkeep : ∀ s a t, I s → kind a → step s a = some t → I t ∧ r (measure t) (measure s))
    (hprogress : ∀ s, I s → ¬P s → ∃ a t, kind a ∧ step s a = some t) (hs : I s) : Inevitable step kind P s := by
  induction h : measure s using hr.induction generalizing s with
  | h m ih =>
    by_cases hP : P s
    · exact .now hP
    refine .later (hprogress s hs hP) fun a t ha ht => ?_
    obtain ⟨hI, hless⟩ := hkeep s a t hs ha ht
    exact ih (measure t) (h ▸ hless) hI rfl

/-- Take the actions of a list in order. -/
def runs (step : σ → α → Option σ) : σ → List α → Option σ
  | s, [] => some s
  | s, a :: as => (step s a).bind fun t => runs step t as

/-- Two lists of actions, one after the other. -/
theorem runs_append (step : σ → α → Option σ) (s : σ) (as bs : List α) :
    runs step s (as ++ bs) = (runs step s as).bind fun t => runs step t bs := by
  induction as generalizing s with
  | nil => rfl
  | cons a as ih => simp only [List.cons_append, runs, Option.bind_assoc, ih]

/-- An executed list of actions is a run. -/
theorem Reachable.of_runs : ∀ {as : List α} {s t : σ}, Reachable step Unrestricted init s →
    runs step s as = some t → Reachable step Unrestricted init t
  | [], s, t, hs, h => by
    simp only [runs, Option.some.injEq] at h
    exact h ▸ hs
  | a :: as, s, t, hs, h => by
    simp only [runs] at h
    obtain ⟨u, hu, ht⟩ := Option.bind_eq_some_iff.mp h
    exact Reachable.of_runs (.next hs trivial hu) ht

/-- A run that an executed list of actions ends with a state of property `p`. -/
theorem Reachable.exists_of_runs (step : σ → α → Option σ) (init : σ) (as : List α) (p : σ → Bool)
    (h : (runs step init as).map p = some true) : ∃ s, Reachable step Unrestricted init s ∧ p s = true := by
  obtain ⟨s, hs, hp⟩ := Option.map_eq_some_iff.mp h
  exact ⟨s, .of_runs .start hs, hp⟩

/-- A run under a condition that every step of an executed list passes a check of, where the
check may rest on what holds in every state of such a run. -/
theorem Reachable.exists_of_guarded_runs (check : σ → α → Bool) (step : σ → α → Option σ) (init : σ)
    (hcheck : ∀ s a, Reachable step good init s → check s a = true → good s a) (as : List α) (p : σ → Bool)
    (h : (runs (fun s a => if check s a then step s a else none) init as).map p = some true) :
    ∃ s, Reachable step good init s ∧ p s = true := by
  have hruns : ∀ (as : List α) (s t : σ), Reachable step good init s →
      runs (fun s a => if check s a then step s a else none) s as = some t → Reachable step good init t := by
    intro as
    induction as with
    | nil =>
      intro s t hs ht
      simp only [runs, Option.some.injEq] at ht
      exact ht ▸ hs
    | cons a as ih =>
      intro s t hs ht
      simp only [runs] at ht
      obtain ⟨u, hu, ht⟩ := Option.bind_eq_some_iff.mp ht
      obtain ⟨hc, hu⟩ := Option.ite_none_right_eq_some.mp hu
      exact ih u t (.next hs (hcheck s a hs hc) hu) ht
  obtain ⟨s, hs, hp⟩ := Option.map_eq_some_iff.mp h
  exact ⟨s, hruns as init s .start hs, hp⟩

/-- A run under a condition that every step of an executed list passes a check of. -/
theorem Reachable.exists_of_checked_runs (check : σ → α → Bool) (hcheck : ∀ s a, check s a = true → good s a)
    (step : σ → α → Option σ) (init : σ) (as : List α) (p : σ → Bool)
    (h : (runs (fun s a => if check s a then step s a else none) init as).map p = some true) :
    ∃ s, Reachable step good init s ∧ p s = true :=
  Reachable.exists_of_guarded_runs check step init (fun s a _ => hcheck s a) as p h

end SparkRing.TransitionSystem
