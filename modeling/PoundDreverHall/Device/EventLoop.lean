import Mathlib.Tactic.Common

/-!
# Devices - event loops

An event loop handles one event after the other, in any order in which they arrive.  A run is the
list of its events, and a property of all runs is proved once for one event and then along the
list.

Main results:

- Theorem {lit}`always_iff_run`: a property of every state of a run is one of the states that the
  beginnings of the list lead to.
- Theorem {lit}`Always.of_eachStep`: the invariant rule, for runs whose steps all meet a condition.
- Theorem {lit}`always_iff_eachStep`: a property holds in every state of a run exactly when every
  step meets a condition without which the step breaks the property.
-/

namespace EventLoop

variable {σ ε : Type*}

/-- The state after the events of a list. -/
def run (step : σ → ε → σ) (s : σ) (es : List ε) : σ :=
  es.foldl step s

@[simp]
theorem run_nil (step : σ → ε → σ) (s : σ) : run step s [] = s :=
  rfl

@[simp]
theorem run_cons (step : σ → ε → σ) (s : σ) (e : ε) (es : List ε) :
    run step s (e :: es) = run step (step s e) es :=
  rfl

/-- The property holds in every state of the run. -/
def Always (step : σ → ε → σ) (P : σ → Prop) (s : σ) : List ε → Prop
  | [] => P s
  | e :: es => P s ∧ Always step P (step s e) es

/-- Every step of the run meets the condition on the state before it and the event. -/
def EachStep (step : σ → ε → σ) (ok : σ → ε → Prop) (s : σ) : List ε → Prop
  | [] => True
  | e :: es => ok s e ∧ EachStep step ok (step s e) es

variable {step : σ → ε → σ} {P I : σ → Prop} {ok : σ → ε → Prop} {s : σ} {es : List ε}

/-- The property holds at the beginning. -/
theorem Always.head (h : Always step P s es) : P s := by
  cases es with
  | nil => exact h
  | cons e es => exact h.1

theorem Always.mono (h : Always step I s es) (hP : ∀ s, I s → P s) : Always step P s es := by
  induction es generalizing s with
  | nil => exact hP s h
  | cons e es ih =>
      constructor
      · exact hP s h.1
      · exact ih h.2

/-- The states of a run are those that the beginnings of the list lead to. -/
theorem always_iff_run :
    Always step P s es ↔ ∀ pre, pre <+: es → P (run step s pre) := by
  induction es generalizing s with
  | nil =>
      constructor
      · intro h pre hpre
        rw [List.prefix_nil.mp hpre]
        exact h
      · intro h
        exact h [] List.prefix_rfl
  | cons e es ih =>
      constructor
      · intro h pre hpre
        cases pre with
        | nil => exact h.1
        | cons d pre =>
            obtain ⟨rfl, hrest⟩ := List.cons_prefix_cons.mp hpre
            exact ih.mp h.2 pre hrest
      · intro h
        constructor
        · exact h [] List.nil_prefix
        · refine ih.mpr fun pre hpre => ?_
          exact h (e :: pre) (List.cons_prefix_cons.mpr ⟨rfl, hpre⟩)

/-- The invariant rule: what holds at the beginning and is kept by every step that meets the
condition holds along a run whose steps all meet it. -/
theorem Always.of_eachStep (hinit : I s) (hstep : ∀ s e, I s → ok s e → I (step s e))
    (h : EachStep step ok s es) : Always step I s es := by
  induction es generalizing s with
  | nil => exact hinit
  | cons e es ih =>
      constructor
      · exact hinit
      · exact ih (hstep s e hinit h.1) h.2

/-- The invariant rule for steps without a condition. -/
theorem Always.of_step (hinit : I s) (hstep : ∀ s e, I s → I (step s e)) (es : List ε) :
    Always step I s es := by
  induction es generalizing s with
  | nil => exact hinit
  | cons e es ih =>
      constructor
      · exact hinit
      · exact ih (hstep s e hinit)

/-- The condition is exact: an invariant that every step with the condition keeps gives the
property, and a step without the condition, from a state with the invariant, breaks it. -/
theorem always_iff_eachStep (hinit : I s) (hP : ∀ s, I s → P s)
    (hstep : ∀ s e, I s → ok s e → I (step s e))
    (hbreak : ∀ s e, I s → ¬ ok s e → ¬ P (step s e)) :
    Always step P s es ↔ EachStep step ok s es := by
  constructor
  · intro h
    induction es generalizing s with
    | nil => trivial
    | cons e es ih =>
        have hok : ok s e := by
          by_contra hnot
          exact hbreak s e hinit hnot h.2.head
        exact ⟨hok, ih (hstep s e hinit hok) h.2⟩
  · intro h
    exact (Always.of_eachStep hinit hstep h).mono hP

end EventLoop
