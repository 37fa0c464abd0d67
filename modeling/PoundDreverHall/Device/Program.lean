import Mathlib.Tactic.Common

/-!
# Devices - driver programs

A driver routine performs operations on a device one after the other; what it
does next may depend on every response.  A program is the tree of these choices,
so a statement about all traces of a program is a statement about every
behaviour of the device.

Main results:

- Definition {lit}`Program`: a routine over a set of operations.
- Theorem {lit}`performs_bind`: a trace of a sequence splits.
- Theorem {lit}`Emits.bind`: what a sequence emits, whatever the device answers.
- Theorem {lit}`Spec.bind`: what holds of the trace and of the result of a sequence.
- Theorem {lit}`performs_except_bind`: a sequence that can fail and does not.
-/

namespace Device

/-- A routine that performs operations {lit}`o` with responses of type {lit}`R o`
and returns an {lit}`α`. -/
inductive Program {O : Type} (R : O → Type) (α : Type) : Type where
  | done (a : α)
  | perform (o : O) (next : R o → Program R α)

namespace Program

variable {O : Type} {R : O → Type} {α β : Type}

/-- Sequential composition. -/
def bind : Program R α → (α → Program R β) → Program R β
  | .done a, f => f a
  | .perform o next, f => .perform o fun r => (next r).bind f

instance : Monad (Program R) where
  pure := .done
  bind := bind

theorem bind_bind {γ : Type} (p : Program R α) (f : α → Program R β) (g : β → Program R γ) :
    (p.bind f).bind g = p.bind fun a => (f a).bind g := by
  induction p with
  | done a => rfl
  | perform o next ih => exact congrArg (perform o) (funext ih)

theorem bind_done (p : Program R α) : p.bind done = p := by
  induction p with
  | done a => rfl
  | perform o next ih => exact congrArg (perform o) (funext ih)

instance : LawfulMonad (Program R) :=
  LawfulMonad.mk' (Program R) bind_done (fun _ _ => rfl) bind_bind

/-- A single operation. -/
def op (o : O) : Program R (R o) :=
  .perform o .done

/-! ## Traces -/

/-- The program performs the operations of the trace, gets the responses in it, and
returns the value. -/
inductive Performs : Program R α → List ((o : O) × R o) → α → Prop where
  | done (a : α) : Performs (.done a) [] a
  | perform {o : O} {next : R o → Program R α} {r : R o} {tr : List ((o : O) × R o)} {a : α}
      (rest : Performs (next r) tr a) : Performs (.perform o next) (⟨o, r⟩ :: tr) a

/-- A program that is over performs nothing. -/
theorem performs_pure {tr : List ((o : O) × R o)} {a b : α} :
    Performs (pure a : Program R α) tr b ↔ tr = [] ∧ b = a := by
  constructor
  · rintro ⟨⟩
    exact ⟨rfl, rfl⟩
  · rintro ⟨rfl, rfl⟩
    exact .done b

/-- An operation performs itself. -/
theorem performs_op {tr : List ((o : O) × R o)} {o : O} {r : R o} :
    Performs (op o) tr r ↔ tr = [⟨o, r⟩] := by
  constructor
  · rintro (_ | ⟨⟨⟩⟩)
    rfl
  · rintro rfl
    exact .perform (.done r)

/-- A trace of a sequence splits into the traces of its parts. -/
theorem performs_bind {p : Program R α} {f : α → Program R β} {tr : List ((o : O) × R o)}
    {b : β} :
    Performs (p >>= f) tr b ↔
      ∃ tr₁ a tr₂, Performs p tr₁ a ∧ Performs (f a) tr₂ b ∧ tr = tr₁ ++ tr₂ := by
  induction p generalizing tr with
  | done a =>
      constructor
      · intro h
        exact ⟨[], a, tr, .done a, h, rfl⟩
      · rintro ⟨tr₁, a, tr₂, ⟨⟩, h, rfl⟩
        exact h
  | perform o next ih =>
      constructor
      · intro h
        cases h with
        | perform rest =>
            rcases (ih _).mp rest with ⟨tr₁, a, tr₂, h₁, h₂, rfl⟩
            exact ⟨_, a, tr₂, .perform h₁, h₂, rfl⟩
      · rintro ⟨tr₁, a, tr₂, h₁, h₂, rfl⟩
        cases h₁ with
        | perform rest => exact .perform ((ih _).mpr ⟨_, a, tr₂, rest, h₂, rfl⟩)

/-- A device that always gives the same answer to an operation lets every program return. -/
theorem exists_performs_of_answer (answer : (o : O) → R o) (p : Program R α) :
    ∃ tr a, Performs p tr a ∧ ∀ e ∈ tr, e.2 = answer e.1 := by
  induction p with
  | done a => exact ⟨[], a, .done a, fun _ he => absurd he List.not_mem_nil⟩
  | perform o next ih =>
      rcases ih (answer o) with ⟨tr, a, h, hanswers⟩
      refine ⟨_, a, .perform h, fun e he => ?_⟩
      rcases List.mem_cons.mp he with rfl | he
      · rfl
      · exact hanswers e he

/-- A program returns whatever a device answers. -/
theorem exists_performs (answer : (o : O) → R o) (p : Program R α) :
    ∃ tr a, Performs p tr a := by
  rcases exists_performs_of_answer answer p with ⟨tr, a, h, -⟩
  exact ⟨tr, a, h⟩

/-! ## Emissions -/

section Emits

variable {ε : Type} (obs : (o : O) → List ε)

/-- What a trace shows of its operations. -/
def shown (tr : List ((o : O) × R o)) : List ε :=
  tr.flatMap fun e => obs e.1

/-- Every run of the program shows {lit}`es`, whatever the device answers. -/
def Emits (p : Program R α) (es : List ε) : Prop :=
  ∀ tr a, Performs p tr a → shown obs tr = es

variable {obs}

theorem Emits.pure (a : α) : Emits obs (Pure.pure a : Program R α) [] := by
  intro tr b h
  obtain ⟨rfl, -⟩ := performs_pure.mp h
  rfl

theorem Emits.op (o : O) : Emits obs (op o : Program R (R o)) (obs o) := by
  intro tr r h
  rw [performs_op.mp h]
  simp [shown]

/-- A sequence shows what its parts show. -/
theorem Emits.bind {p : Program R α} {f : α → Program R β} {es es' : List ε}
    (hp : Emits obs p es) (hf : ∀ a, Emits obs (f a) es') : Emits obs (p >>= f) (es ++ es') := by
  intro tr b h
  rcases performs_bind.mp h with ⟨tr₁, a, tr₂, h₁, h₂, rfl⟩
  rw [← hp tr₁ a h₁, ← hf a tr₂ b h₂, shown, List.flatMap_append]
  rfl

/-- Changing the value that is returned shows nothing. -/
theorem Emits.bind_pure {p : Program R α} {es : List ε} (hp : Emits obs p es) (f : α → β) :
    Emits obs (p >>= fun a => Pure.pure (f a)) es := by
  have h := hp.bind fun a => (Emits.pure (f a) : Emits obs _ [])
  rwa [List.append_nil] at h

end Emits

/-! ## Specifications -/

section Spec

/-- A property of traces that holds of the empty trace and is kept by concatenation. -/
structure Closed (T : List ((o : O) × R o) → Prop) : Prop where
  nil : T []
  append : ∀ {tr tr'}, T tr → T tr' → T (tr ++ tr')

/-- Every run of the program has a trace with property {lit}`T` and returns a value with
property {lit}`Q`, whatever the device answers. -/
def Spec (p : Program R α) (T : List ((o : O) × R o) → Prop) (Q : α → Prop) : Prop :=
  ∀ tr a, Performs p tr a → T tr ∧ Q a

variable {T : List ((o : O) × R o) → Prop} {P Q : α → Prop} {S : β → Prop}

/-- A value that is returned at once. -/
theorem Spec.pure (hT : Closed T) {a : α} (h : Q a) : Spec (Pure.pure a : Program R α) T Q := by
  intro tr b hrun
  rcases performs_pure.mp hrun with ⟨rfl, rfl⟩
  exact ⟨hT.nil, h⟩

/-- A single operation. -/
theorem Spec.op {o : O} (h : ∀ r, T [⟨o, r⟩]) : Spec (op o : Program R (R o)) T fun _ => True := by
  intro tr r hrun
  rw [performs_op] at hrun
  subst hrun
  exact ⟨h r, trivial⟩

/-- One program after another; the property of traces is kept by concatenation. -/
theorem Spec.bind (hT : Closed T) {p : Program R α} {f : α → Program R β} (hp : Spec p T P)
    (hf : ∀ a, P a → Spec (f a) T S) : Spec (p >>= f) T S := by
  intro tr b h
  rcases performs_bind.mp h with ⟨tr₁, a, tr₂, h₁, h₂, rfl⟩
  have hfirst := hp tr₁ a h₁
  have hsecond := hf a hfirst.2 tr₂ b h₂
  exact ⟨hT.append hfirst.1 hsecond.1, hsecond.2⟩

/-- A specification may be weakened. -/
theorem Spec.mono {T' : List ((o : O) × R o) → Prop} {p : Program R α} (h : Spec p T P)
    (hT : ∀ tr, T tr → T' tr) (hQ : ∀ a, P a → Q a) : Spec p T' Q :=
  fun tr a hrun => ⟨hT tr (h tr a hrun).1, hQ a (h tr a hrun).2⟩

end Spec

/-! ## Programs that can fail -/

section Except

variable {ε : Type} {p : ExceptT ε (Program R) α} {f : α → ExceptT ε (Program R) β}
  {tr : List ((o : O) × R o)} {a : α} {b : β}

theorem performs_except_pure {c : α} :
    Performs (pure a : ExceptT ε (Program R) α).run tr (.ok c) ↔ tr = [] ∧ c = a := by
  rw [ExceptT.run_pure, performs_pure, Except.ok.injEq]

/-- A program that fails does not return. -/
theorem not_performs_throw {e : ε} :
    ¬Performs (throw e : ExceptT ε (Program R) α).run tr (.ok a) := by
  rw [ExceptT.run_throw, performs_pure]
  rintro ⟨-, ⟨⟩⟩

/-- A sequence that does not fail is one of parts that do not fail. -/
theorem performs_except_bind :
    Performs (p >>= f).run tr (.ok b) ↔
      ∃ tr₁ a tr₂, Performs p.run tr₁ (.ok a) ∧ Performs (f a).run tr₂ (.ok b) ∧
        tr = tr₁ ++ tr₂ := by
  rw [ExceptT.run_bind, performs_bind]
  constructor
  · rintro ⟨tr₁, result, tr₂, h₁, h₂, rfl⟩
    cases result with
    | ok a => exact ⟨tr₁, a, tr₂, h₁, h₂, rfl⟩
    | error e => exact absurd (performs_pure.mp h₂).2 (by simp)
  · rintro ⟨tr₁, a, tr₂, h₁, h₂, rfl⟩
    exact ⟨tr₁, .ok a, tr₂, h₁, h₂, rfl⟩

/-- An operation as a program that can fail. -/
theorem performs_except_lift {o : O} {r : R o} :
    Performs (ExceptT.lift (op o) : ExceptT ε (Program R) (R o)).run tr (.ok r) ↔
      tr = [⟨o, r⟩] := by
  rw [ExceptT.run_lift]
  constructor
  · intro h
    rcases performs_bind.mp h with ⟨tr₁, r', tr₂, h₁, h₂, rfl⟩
    rcases performs_pure.mp h₂ with ⟨rfl, hr⟩
    rw [List.append_nil, Except.ok.inj hr]
    exact performs_op.mp h₁
  · rintro rfl
    exact performs_bind.mpr ⟨_, r, [], performs_op.mpr rfl, .done _, rfl⟩

end Except

end Program

end Device
