import PoundDreverHall.Clocked.Run

/-!
# Clocked systems - runs in pieces

A run can be put together from pieces: a first stream up to some edge and another
one from there on.  A state leads to another if a finite piece of a run connects
them, and what is known along every piece is known along the whole.

Main results:

- Theorem {lit}`run_splice_add`: a run over a spliced stream.
- Theorem {lit}`Leads.trans`: pieces are put together.
- Theorems {lit}`Leads.extend` and {lit}`Leads.resume`: a run is continued by a piece.
-/

namespace Clocked

variable {ι σ : Type*} {step : ι → σ → σ}

/-! ## Spliced streams -/

/-- The first {lit}`n` inputs of one stream, then another stream. -/
def splice (n : ℕ) (ins ins' : ℕ → ι) (k : ℕ) : ι :=
  if k < n then ins k else ins' (k - n)

/-- The first stream, up to the splice. -/
theorem splice_of_lt {n k : ℕ} (ins ins' : ℕ → ι) (h : k < n) : splice n ins ins' k = ins k :=
  if_pos h

/-- The second stream, from there on. -/
theorem splice_add (n : ℕ) (ins ins' : ℕ → ι) (k : ℕ) : splice n ins ins' (n + k) = ins' k := by
  rw [splice, if_neg (by omega), Nat.add_sub_cancel_left]

/-- Up to the splice the run is that of the first stream. -/
theorem run_splice_of_le {n k : ℕ} (s : σ) (ins ins' : ℕ → ι) (h : k ≤ n) :
    run step s (splice n ins ins') k = run step s ins k :=
  run_congr fun j hj => splice_of_lt ins ins' (by omega)

/-- From there on it is that of the second one. -/
theorem run_splice_add (s : σ) (ins ins' : ℕ → ι) (n k : ℕ) :
    run step s (splice n ins ins') (n + k) = run step (run step s ins n) ins' k := by
  rw [run_add, run_splice_of_le s ins ins' (Nat.le_refl _)]
  exact run_congr fun j _ => splice_add n ins ins' j

/-- The same input again and again, counted from the second time. -/
theorem run_const_succ (s : σ) (i : ι) (n : ℕ) :
    run step s (fun _ => i) (n + 1) = run step (step i s) (fun _ => i) n := by
  rw [Nat.add_comm, run_add]
  rfl

/-! ## Pieces of runs -/

variable (step) in
/-- A finite piece of a run connects two states, and {lit}`Q` holds of every state
met on it and the input taken there. -/
def Leads (Q : σ → ι → Prop) (s s' : σ) : Prop :=
  ∃ ins n, (∀ k < n, Q (run step s ins k) (ins k)) ∧ run step s ins n = s'

section Leads

variable {Q R : σ → ι → Prop} {s s' s'' : σ}

theorem Leads.imp (h : Leads step Q s s') (hQR : ∀ s i, Q s i → R s i) : Leads step R s s' := by
  rcases h with ⟨ins, n, hpiece, hend⟩
  exact ⟨ins, n, fun k hk => hQR _ _ (hpiece k hk), hend⟩

/-- One step is a piece. -/
theorem Leads.single {i : ι} (h : Q s i) : Leads step Q s (step i s) := by
  refine ⟨fun _ => i, 1, ?_, rfl⟩
  intro k hk
  obtain rfl : k = 0 := by omega
  exact h

/-- What holds on both sides of a splice holds along the spliced stream. -/
theorem forall_splice {ins ins' : ℕ → ι} {n n' : ℕ}
    (h : ∀ k < n, Q (run step s ins k) (ins k))
    (h' : ∀ k < n', Q (run step (run step s ins n) ins' k) (ins' k)) :
    ∀ k < n + n', Q (run step s (splice n ins ins') k) (splice n ins ins' k) := by
  intro k hk
  by_cases hlt : k < n
  · rw [run_splice_of_le s ins ins' (Nat.le_of_lt hlt), splice_of_lt ins ins' hlt]
    exact h k hlt
  · obtain ⟨j, rfl⟩ := Nat.exists_eq_add_of_le (Nat.le_of_not_lt hlt)
    rw [run_splice_add, splice_add]
    exact h' j (by omega)

/-- Pieces are joined end to end. -/
theorem Leads.trans (h : Leads step Q s s') (h' : Leads step Q s' s'') :
    Leads step Q s s'' := by
  rcases h with ⟨ins, n, hpiece, rfl⟩
  rcases h' with ⟨ins', n', hpiece', rfl⟩
  exact ⟨splice n ins ins', n + n', forall_splice hpiece hpiece', run_splice_add s ins ins' n n'⟩

/-- A run is continued from any edge on: by a piece, and after it by one input. -/
theorem Leads.extend (s : σ) (ins : ℕ → ι) (t : ℕ) (i : ι)
    (h : Leads step Q (run step s ins t) s') :
    ∃ ins' u, t ≤ u ∧ (∀ k < t, ins' k = ins k) ∧
      (∀ k, t ≤ k → k < u → Q (run step s ins' k) (ins' k)) ∧ run step s ins' u = s' ∧
      ∀ k, u ≤ k → ins' k = i := by
  rcases h with ⟨piece, n, hpiece, rfl⟩
  let rest := splice n piece fun _ => i
  have hrun : ∀ k ≤ n, run step s (splice t ins rest) (t + k) =
      run step (run step s ins t) piece k := by
    intro k hk
    rw [run_splice_add, run_splice_of_le _ piece _ hk]
  refine ⟨splice t ins rest, t + n, by omega, fun k hk => splice_of_lt ins rest hk, ?_,
    hrun n (Nat.le_refl n), ?_⟩
  · intro k htk hku
    obtain ⟨j, rfl⟩ := Nat.exists_eq_add_of_le htk
    have hinput : splice t ins rest (t + j) = piece j := by
      rw [splice_add]
      exact splice_of_lt piece _ (by omega)
    rw [hrun j (by omega), hinput]
    exact hpiece j (by omega)
  · intro k huk
    obtain ⟨j, rfl⟩ : ∃ j, k = t + (n + j) := ⟨k - t - n, by omega⟩
    rw [splice_add]
    exact splice_add n piece _ j

/-- A run is continued after an edge: by a piece, and after it by the input of that edge. -/
theorem Leads.resume {s₀ : σ} {ins : ℕ → ι} {t : ℕ} {i : ι} (hrun : run step s₀ ins t = s)
    (hi : ins t = i) (h : Leads step Q (step i s) s') :
    ∃ ins' u, t < u ∧ (∀ k ≤ t, ins' k = ins k ∧ run step s₀ ins' k = run step s₀ ins k) ∧
      (∀ k, t < k → k < u → Q (run step s₀ ins' k) (ins' k)) ∧ run step s₀ ins' u = s' ∧
      ∀ k, u ≤ k → ins' k = i := by
  have hnext : run step s₀ ins (t + 1) = step i s := by rw [run_succ, hi, hrun]
  rcases Leads.extend s₀ ins (t + 1) i (hnext ▸ h) with
    ⟨ins', u, htu, hsame, hpiece, hend, hafter⟩
  refine ⟨ins', u, htu, fun k hk => ⟨hsame k (by omega), ?_⟩, hpiece, hend, hafter⟩
  exact run_congr fun j hj => hsame j (by omega)

end Leads

end Clocked
