import PoundDreverHall.Device.Triple

/-!
# Devices - what holds throughout a run

A triple says what holds when a program has returned.  A device that is looked at while the program
is still running shows what holds after any beginning of its trace.

Main results:

- Definition {lit}`Throughout`: what holds after every beginning of every run.
- Theorem {lit}`Throughout.bind`: the rule of sequence.
-/

namespace Device

open Program

variable {O : Type} {R : O → Type} {σ α β : Type} {D : Machine R σ}

/-- From every state with {lit}`P`, the device has {lit}`I` after every beginning of a run. -/
def Throughout (D : Machine R σ) (P : σ → Prop) (p : Program R α) (I : σ → Prop) : Prop :=
  ∀ s tr a tr₁ tr₂ s₁, P s → Performs p tr a → tr = tr₁ ++ tr₂ → Follows D s tr₁ s₁ → I s₁

namespace Throughout

variable {P P' I I' : σ → Prop} {Q : α → σ → Prop} {p : Program R α} {f : α → Program R β}

theorem weaken (h : Throughout D P p I) (hP : ∀ s, P' s → P s) (hI : ∀ s, I s → I' s) :
    Throughout D P' p I' :=
  fun s tr a tr₁ tr₂ s₁ hs hrun hsplit hfollows =>
    hI s₁ (h s tr a tr₁ tr₂ s₁ (hP s hs) hrun hsplit hfollows)

theorem pure {a : α} (h : ∀ s, P s → I s) : Throughout D P (Pure.pure a : Program R α) I := by
  intro s tr b tr₁ tr₂ s₁ hP hrun hsplit hfollows
  rcases performs_pure.mp hrun with ⟨rfl, -⟩
  rw [(List.append_eq_nil_iff.mp hsplit.symm).1] at hfollows
  cases hfollows
  exact h s hP

/-- What holds throughout a run holds at its end. -/
theorem triple (h : Throughout D P p I) : Triple D P p fun _ s => I s :=
  fun s tr a s' hP hrun hfollows =>
    h s tr a tr [] s' hP hrun (List.append_nil tr).symm hfollows

/-- The rule of a single operation. -/
theorem op {o : O} (h : ∀ s, P s → I s) (hstep : ∀ s r s', P s → D s o r s' → I s') :
    Throughout D P (Program.op o) I := by
  intro s tr r tr₁ tr₂ s₁ hP hrun hsplit hfollows
  rw [performs_op] at hrun
  rcases tr₁ with _ | ⟨e, tr₁⟩
  · cases hfollows
    exact h s hP
  · rw [hrun, List.cons_append, List.cons.injEq] at hsplit
    rcases hsplit with ⟨rfl, hrest⟩
    rw [(List.append_eq_nil_iff.mp hrest.symm).1] at hfollows
    rcases hfollows with _ | ⟨hfirst, ⟨⟩⟩
    exact hstep s r s₁ hP hfirst

/-- The rule of sequence.  A beginning of the run ends in the first program or in the second. -/
theorem bind (hp : Throughout D P p I) (hq : Triple D P p Q)
    (hf : ∀ a, Throughout D (Q a) (f a) I) : Throughout D P (p >>= f) I := by
  intro s tr b tr₁ tr₂ s₁ hP hrun hsplit hfollows
  rcases performs_bind.mp hrun with ⟨front, a, back, hfront, hback, rfl⟩
  rcases List.append_eq_append_iff.mp hsplit with ⟨rest, rfl, hrest⟩ | ⟨rest, hrest, -⟩
  · rcases follows_append.mp hfollows with ⟨s', hfirst, hsecond⟩
    exact hf a s' back b rest tr₂ s₁ (hq s front a s' hP hfront hfirst) hback hrest hsecond
  · exact hp s front a tr₁ rest s₁ hP hfront hrest hfollows

end Throughout

end Device
