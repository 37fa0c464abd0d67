import PoundDreverHall.Device.Program

/-!
# Devices - triples

A device has a state, and its responses to the operations of a program depend on that
state.  A triple says what holds after a program has run against a device from a state
with a given property.

Main results:

- Definition {lit}`Follows`: a trace that the device can produce.
- Theorem {lit}`Triple.bind`: the rule of sequence.
- Theorem {lit}`exists_run`: a device that always answers lets every program run.
- Theorem {lit}`follows_instrument`: a record of the steps of a device changes none of them.
-/

namespace Device

open Program

variable {O : Type} {R : O → Type} {σ α β : Type}

/-- A device: a state, an operation, a response that is possible there, and the state
after. -/
abbrev Machine {O : Type} (R : O → Type) (σ : Type) : Type :=
  σ → (o : O) → R o → σ → Prop

/-- The device takes the steps of the trace. -/
inductive Follows (D : Machine R σ) : σ → List ((o : O) × R o) → σ → Prop where
  | nil (s : σ) : Follows D s [] s
  | cons {s s' s'' : σ} {o : O} {r : R o} {tr : List ((o : O) × R o)}
      (first : D s o r s') (rest : Follows D s' tr s'') : Follows D s (⟨o, r⟩ :: tr) s''

variable {D : Machine R σ}

theorem follows_append {s s'' : σ} {tr tr' : List ((o : O) × R o)} :
    Follows D s (tr ++ tr') s'' ↔ ∃ s', Follows D s tr s' ∧ Follows D s' tr' s'' := by
  induction tr generalizing s with
  | nil =>
      constructor
      · intro h
        exact ⟨s, .nil s, h⟩
      · rintro ⟨s', ⟨⟩, h⟩
        exact h
  | cons e tr ih =>
      constructor
      · intro h
        cases h with
        | cons first rest =>
            rcases ih.mp rest with ⟨s', h₁, h₂⟩
            exact ⟨s', .cons first h₁, h₂⟩
      · rintro ⟨s', h₁, h₂⟩
        cases h₁ with
        | cons first rest => exact .cons first (ih.mpr ⟨s', rest, h₂⟩)

/-- Whatever a device does can be done by a device that does more. -/
theorem Follows.imp {D' : Machine R σ} {s s' : σ} {tr : List ((o : O) × R o)}
    (h : Follows D s tr s') (hD : ∀ s o r s', D s o r s' → D' s o r s') : Follows D' s tr s' := by
  induction h with
  | nil s => exact .nil s
  | cons first rest ih => exact .cons (hD _ _ _ _ first) ih

/-- A view of the state under which every step of a device is a step of another one. -/
theorem Follows.map {σ' : Type} {D' : Machine R σ'} (view : σ → σ') {s s' : σ}
    {tr : List ((o : O) × R o)} (h : Follows D s tr s')
    (hD : ∀ s o r s', D s o r s' → D' (view s) o r (view s')) :
    Follows D' (view s) tr (view s') := by
  induction h with
  | nil s => exact .nil _
  | cons first rest ih => exact .cons (hD _ _ _ _ first) ih

/-- A device whose steps can be followed by another one, in related states, is followed by it in every
trace. -/
theorem Follows.simulates {σ' : Type} {D' : Machine R σ'} {rel : σ' → σ → Prop} {s s' : σ}
    {tr : List ((o : O) × R o)} (h : Follows D s tr s')
    (hD : ∀ t s o r s', rel t s → D s o r s' → ∃ t', D' t o r t' ∧ rel t' s') {t : σ'}
    (hrel : rel t s) : ∃ t', Follows D' t tr t' ∧ rel t' s' := by
  induction h generalizing t with
  | nil s => exact ⟨t, .nil t, hrel⟩
  | cons first rest ih =>
      rcases hD _ _ _ _ _ hrel first with ⟨t₁, hstep, hrel₁⟩
      rcases ih hrel₁ with ⟨t', hfollows, hrel'⟩
      exact ⟨t', .cons hstep hfollows, hrel'⟩

/-- What every step of a device keeps is kept by a trace. -/
theorem Follows.invariant {I : σ → Prop} {s s' : σ} {tr : List ((o : O) × R o)}
    (h : Follows D s tr s') (hI : I s) (hD : ∀ s o r s', I s → D s o r s' → I s') : I s' := by
  induction h with
  | nil s => exact hI
  | cons first rest ih => exact ih (hD _ _ _ _ hI first)

/-- What holds of every step of a device holds of every event of a trace. -/
theorem Follows.forall_mem {E : (o : O) × R o → Prop} {s s' : σ} {tr : List ((o : O) × R o)}
    (h : Follows D s tr s') (hE : ∀ s o r s', D s o r s' → E ⟨o, r⟩) : ∀ e ∈ tr, E e := by
  induction h with
  | nil s => exact fun e he => absurd he List.not_mem_nil
  | cons first rest ih =>
      intro e he
      rcases List.mem_cons.mp he with rfl | he
      · exact hE _ _ _ _ first
      · exact ih e he

/-- A device that always has a response lets every program run. -/
theorem exists_run (htotal : ∀ s o, ∃ r s', D s o r s') (p : Program R α) (s : σ) :
    ∃ tr a s', Performs p tr a ∧ Follows D s tr s' := by
  induction p generalizing s with
  | done a => exact ⟨[], a, s, .done a, .nil s⟩
  | perform o next ih =>
      rcases htotal s o with ⟨r, s', hstep⟩
      rcases ih r s' with ⟨tr, a, s'', hrun, hfollows⟩
      exact ⟨_, a, s'', .perform hrun, .cons hstep hfollows⟩

/-- From every state with {lit}`P`, the program returns in a state with {lit}`Q`. -/
def Triple (D : Machine R σ) (P : σ → Prop) (p : Program R α) (Q : α → σ → Prop) : Prop :=
  ∀ s tr a s', P s → Performs p tr a → Follows D s tr s' → Q a s'

namespace Triple

variable {P : σ → Prop} {Q : α → σ → Prop} {S : β → σ → Prop}

theorem pure {a : α} (h : ∀ s, P s → Q a s) : Triple D P (Pure.pure a : Program R α) Q := by
  intro s tr b s' hP hrun hfollows
  rcases performs_pure.mp hrun with ⟨rfl, rfl⟩
  cases hfollows
  exact h s hP

/-- The rule of a single operation. -/
theorem op {o : O} {Q : R o → σ → Prop} (h : ∀ s r s', P s → D s o r s' → Q r s') :
    Triple D P (Program.op o) Q := by
  intro s tr r s' hP hrun hfollows
  rw [performs_op] at hrun
  subst hrun
  rcases hfollows with _ | ⟨hstep, ⟨⟩⟩
  exact h s r s' hP hstep

/-- The rule of sequence. -/
theorem bind {p : Program R α} {f : α → Program R β} (hp : Triple D P p Q)
    (hf : ∀ a, Triple D (Q a) (f a) S) : Triple D P (p >>= f) S := by
  intro s tr b s'' hP hrun hfollows
  rcases performs_bind.mp hrun with ⟨tr₁, a, tr₂, h₁, h₂, rfl⟩
  rcases follows_append.mp hfollows with ⟨s', hf₁, hf₂⟩
  exact hf a s' tr₂ b s'' (hp s tr₁ a s' hP h₁ hf₁) h₂ hf₂

end Triple

/-! ## Instruments -/

section Instrument

variable {τ : Type} (note : τ → σ → (o : O) → R o → τ)

/-- A device with a record that is brought up to date at every step. -/
def instrument (D : Machine R σ) : Machine R (σ × τ) :=
  fun s o r s' => D s.1 o r s'.1 ∧ s'.2 = note s.2 s.1 o r

/-- The steps of an instrumented device are the steps of the device. -/
theorem follows_instrument {s s' : σ} {tr : List ((o : O) × R o)} (t : τ) :
    Follows D s tr s' ↔ ∃ t', Follows (instrument note D) (s, t) tr (s', t') := by
  constructor
  · intro h
    induction h generalizing t with
    | nil s => exact ⟨t, .nil _⟩
    | cons first rest ih =>
        rcases ih (note t _ _ _) with ⟨t', hrest⟩
        exact ⟨t', .cons ⟨first, rfl⟩ hrest⟩
  · rintro ⟨t', h⟩
    exact h.map Prod.fst fun _ _ _ _ hstep => hstep.1

end Instrument

end Device
