import Mathlib.Data.List.Basic
import Mathlib.Data.Nat.Init
import Mathlib.Tactic.Common

/-!
# Clocked systems - runs over input streams

A clocked system is a step function that consumes one input on every clock
edge.  This file fixes the state reached after a number of edges, the log of
what was observed on the way, and the two rules every later proof uses: an
invariant that one edge preserves holds after every edge, and a relation between
two states that one edge preserves holds along two runs.

Main results:

- Theorem {lit}`run_invariant`: a property preserved by each edge of a run
  holds along the run.
- Theorem {lit}`run_related`: a relation preserved by each pair of edges holds
  along two runs over the same inputs.
- Theorem {lit}`run_add`: a run splits at any edge.
- Theorem {lit}`log_eq_of_forall`: two observations that agree on every edge
  leave the same log.
-/

namespace Clocked

variable {ι σ α : Type*}

/-! ## Runs -/

/-- State of a clocked system after the first {lit}`n` edges of an input stream. -/
def run (step : ι → σ → σ) (s : σ) (ins : ℕ → ι) : ℕ → σ
  | 0 => s
  | n + 1 => step (ins n) (run step s ins n)

@[simp]
theorem run_zero (step : ι → σ → σ) (s : σ) (ins : ℕ → ι) :
    run step s ins 0 = s :=
  rfl

theorem run_succ (step : ι → σ → σ) (s : σ) (ins : ℕ → ι) (n : ℕ) :
    run step s ins (n + 1) = step (ins n) (run step s ins n) :=
  rfl

/-- A run of {lit}`m + n` edges is a run of {lit}`m` edges continued by the
remaining {lit}`n` inputs. -/
theorem run_add (step : ι → σ → σ) (s : σ) (ins : ℕ → ι) (m n : ℕ) :
    run step s ins (m + n) =
      run step (run step s ins m) (fun k => ins (m + k)) n := by
  induction n with
  | zero => rfl
  | succ n ih =>
      rw [← Nat.add_assoc, run_succ, ih]
      rfl

/-- Only the first {lit}`n` inputs matter for the first {lit}`n` edges. -/
theorem run_congr {step : ι → σ → σ} {s : σ} {ins ins' : ℕ → ι} {n : ℕ}
    (h : ∀ k < n, ins k = ins' k) :
    run step s ins n = run step s ins' n := by
  induction n with
  | zero => rfl
  | succ n ih =>
      rw [run_succ, run_succ, h n (Nat.lt_succ_self n),
        ih fun k hk => h k (Nat.lt_succ_of_lt hk)]

/-- The invariant rule: what holds initially and is preserved by every edge of
the run holds after every edge. -/
theorem run_invariant {step : ι → σ → σ} {s : σ} {ins : ℕ → ι} (P : σ → Prop)
    (hinit : P s)
    (hstep : ∀ n, P (run step s ins n) → P (step (ins n) (run step s ins n)))
    (n : ℕ) : P (run step s ins n) := by
  induction n with
  | zero => exact hinit
  | succ n ih => exact hstep n ih

/-- The two-run rule: a relation between two states that every pair of edges
preserves holds along two runs over the same inputs. -/
theorem run_related {step : ι → σ → σ} {s s' : σ} {ins : ℕ → ι} (R : σ → σ → Prop)
    (hinit : R s s')
    (hstep : ∀ n, R (run step s ins n) (run step s' ins n) →
      R (step (ins n) (run step s ins n)) (step (ins n) (run step s' ins n)))
    (n : ℕ) : R (run step s ins n) (run step s' ins n) := by
  induction n with
  | zero => exact hinit
  | succ n ih => exact hstep n ih

/-! ## Logs -/

/-- Everything observed on the first {lit}`n` edges, in order. -/
def log (obs : ℕ → List α) (n : ℕ) : List α :=
  (List.range n).flatMap obs

@[simp]
theorem log_zero (obs : ℕ → List α) : log obs 0 = [] :=
  rfl

theorem log_succ (obs : ℕ → List α) (n : ℕ) :
    log obs (n + 1) = log obs n ++ obs n := by
  simp [log, List.range_succ]

/-- A log splits at any edge. -/
theorem log_add (obs : ℕ → List α) (m n : ℕ) :
    log obs (m + n) = log obs m ++ log (fun k => obs (m + k)) n := by
  induction n with
  | zero => simp
  | succ n ih => rw [← Nat.add_assoc, log_succ, log_succ, ih, List.append_assoc]

/-- Observations that agree on every edge leave the same log. -/
theorem log_eq_of_forall {obs obs' : ℕ → List α} {n : ℕ}
    (h : ∀ k < n, obs k = obs' k) : log obs n = log obs' n := by
  induction n with
  | zero => rfl
  | succ n ih =>
      rw [log_succ, log_succ, ih fun k hk => h k (Nat.lt_succ_of_lt hk),
        h n (Nat.lt_succ_self n)]

/-- Edges that show nothing leave nothing in the log. -/
theorem log_eq_nil {obs : ℕ → List α} {n : ℕ} (h : ∀ k < n, obs k = []) :
    log obs n = [] := by
  rw [log_eq_of_forall h]
  simp [log]

/-- An earlier log is the beginning of a later one. -/
theorem log_prefix_log (obs : ℕ → List α) {m n : ℕ} (hmn : m ≤ n) : log obs m <+: log obs n := by
  obtain ⟨d, rfl⟩ := Nat.exists_eq_add_of_le hmn
  rw [log_add]
  exact List.prefix_append _ _

theorem mem_log {obs : ℕ → List α} {n : ℕ} {a : α} : a ∈ log obs n ↔ ∃ k < n, a ∈ obs k := by
  simp [log]

/-- The log of a list of inputs shows what they show. -/
theorem log_getD (f : ι → List α) (l : List ι) (i : ι) :
    log (fun n => f (l.getD n i)) l.length = l.flatMap f := by
  induction l with
  | nil => rfl
  | cons a l ih =>
      rw [List.length_cons, Nat.add_comm, log_add, List.flatMap_cons, ← ih]
      simp [log_succ, Nat.add_comm 1]

end Clocked
