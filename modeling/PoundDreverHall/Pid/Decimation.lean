import PoundDreverHall.Clocked.Divider
import PoundDreverHall.Pid.Output

/-!
# PID controller - decimation

A counter divides the clock by the decimation, and its zeros are the ticks.  The
integrator and the average change one cycle after a tick, the three products one cycle
later, and the output only with the products.

Main results:

- Theorem {lit}`counts_run`: the counter of a running controller is a divider.
- Theorem {lit}`decimation_periodic`: ticks come at their period, and the output holds
  in between.
-/

namespace PoundDreverHall
namespace PidCore

open Clocked FixedPoint

/-! ## The counter -/

theorem toNat_nextCntW {s : State} (hdec : 0 < s.decimateR.toNat) :
    (nextCntW s).toNat = if s.decimateR.toNat - 1 ≤ s.cntR.toNat then 0 else s.cntR.toNat + 1 := by
  have hlt := s.decimateR.isLt
  have hcnt := s.cntR.isLt
  have hdecimate : (s.decimateR.setWidth 32 - 1#32).toNat = s.decimateR.toNat - 1 := by
    rw [BitVec.toNat_sub, BitVec.toNat_setWidth]
    simp only [BitVec.toNat_ofNat]
    omega
  have hcount : (s.cntR.setWidth 32).toNat = s.cntR.toNat := by
    rw [BitVec.toNat_setWidth]
    omega
  simp only [nextCntW, apply_ite BitVec.toNat, BitVec.le_def, hdecimate, hcount]
  split_ifs with hlast
  · rfl
  · rw [BitVec.toNat_add]
    simp only [BitVec.toNat_ofNat]
    omega

/-- The decimation in effect: {lit}`max(1, decimate_i)`. -/
def decimation (i : Input) : ℕ := max 1 i.decimateI.toNat

theorem toNat_decimateR_step {i : Input} {s : State} (hactive : i.active = true) :
    (step i s).decimateR.toNat = decimation i := by
  rw [step_active hactive, decimation]
  simp only [apply_ite BitVec.toNat, BitVec.lt_def, BitVec.toNat_ofNat]
  split_ifs <;> omega

/-! ## Runs -/

section Runs

variable (s₀ : State) (ins : ℕ → Input)

/-- There is a tick in cycle {lit}`n`. -/
def Ticks (n : ℕ) : Prop := tick1W (ins n) (run step s₀ ins n) = true

instance (n : ℕ) : Decidable (Ticks s₀ ins n) :=
  inferInstanceAs (Decidable (_ = _))

/-- The register changes with the edge that ends cycle {lit}`n`. -/
def Changes {α : Type} (r : State → α) (n : ℕ) : Prop :=
  r (run step s₀ ins (n + 1)) ≠ r (run step s₀ ins n)

/-- The controller stays enabled, and the settings that the output depends on directly
stay the same. -/
structure Enabled : Prop where
  active : ∀ n, (ins n).active = true
  decimateI : ∀ n, (ins n).decimateI = (ins 0).decimateI
  gainI : ∀ n, (ins n).gainI = (ins 0).gainI
  biasI : ∀ n, (ins n).biasI = (ins 0).biasI
  satwidthI : ∀ n, (ins n).satwidthI = (ins 0).satwidthI

variable {s₀ ins} (h : Enabled ins)

include h

/-- From the second cycle on the counter divides by the decimation. -/
theorem counts_run :
    Counts (decimation (ins 0)) fun n => (run step s₀ ins (1 + n)).cntR.toNat := by
  intro n
  have hdec : (run step s₀ ins (1 + n)).decimateR.toNat = decimation (ins 0) := by
    rw [add_comm, run_succ, toNat_decimateR_step (h.active n), decimation, decimation,
      h.decimateI n]
  have hpos : 0 < decimation (ins 0) := Nat.lt_of_lt_of_le Nat.one_pos (le_max_left 1 _)
  show (run step s₀ ins (1 + n + 1)).cntR.toNat = _
  rw [run_succ, step_active (h.active (1 + n))]
  simp only
  rw [toNat_nextCntW (by rw [hdec]; exact hpos), hdec]

theorem ticks_iff (n : ℕ) : Ticks s₀ ins n ↔ (run step s₀ ins n).cntR.toNat = 0 := by
  have hen := (active_iff.mp (h.active n)).2
  rw [Ticks, tick1W, hen, Bool.true_and, beq_iff_eq, ← BitVec.toNat_inj]
  rfl

/-- There is a tick after the first cycle. -/
theorem exists_tick : ∃ n, 1 ≤ n ∧ Ticks s₀ ins n := by
  have hcounts : Counts (decimation (ins 0)) fun n => (run step s₀ ins (1 + n)).cntR.toNat :=
    counts_run h
  rcases hcounts.exists_zero with ⟨n, hn⟩
  exact ⟨1 + n, by omega, (ticks_iff h _).mpr hn⟩

/-- From a tick after the first cycle on, ticks come at their period. -/
theorem ticks_periodic {m n : ℕ} (hm : 1 ≤ m) (htick : Ticks s₀ ins m) (hmn : m ≤ n) :
    Ticks s₀ ins n ↔ decimation (ins 0) ∣ n - m := by
  rw [ticks_iff h] at htick ⊢
  have hpos : 0 < decimation (ins 0) := Nat.lt_of_lt_of_le Nat.one_pos (le_max_left 1 _)
  obtain ⟨a, rfl⟩ := Nat.exists_eq_add_of_le hm
  obtain ⟨b, rfl⟩ := Nat.exists_eq_add_of_le (show 1 ≤ n by omega)
  have hcounts : Counts (decimation (ins 0)) fun n => (run step s₀ ins (1 + n)).cntR.toNat :=
    counts_run h
  rw [hcounts.zero_iff hpos htick (by omega : a ≤ b), Nat.add_sub_add_left]

/-! ## What a tick changes -/

theorem tick1R_run (n : ℕ) :
    (run step s₀ ins (n + 1)).tick1R = true ↔ Ticks s₀ ins n := by
  rw [run_succ, step_active (h.active n)]
  rfl

theorem tick2R_run (n : ℕ) :
    (run step s₀ ins (n + 2)).tick2R = true ↔ Ticks s₀ ins n := by
  rw [run_succ, step_active (h.active (n + 1))]
  exact tick1R_run h n

/-- The integrator and the average change only one cycle after a tick. -/
theorem ticks_of_changes_first {n : ℕ}
    (hchange : Changes s₀ ins State.sumErrorR (n + 1) ∨ Changes s₀ ins State.ykR (n + 1)) :
    Ticks s₀ ins n := by
  rw [← tick1R_run h]
  by_contra htick
  have hlow := eq_false_of_ne_true htick
  simp [Changes, run_succ step s₀ ins (n + 1), step_active (h.active (n + 1)), sumError2W, ykW,
    hlow] at hchange

/-- The products change only two cycles after a tick. -/
theorem ticks_of_changes_second {n : ℕ}
    (hchange : Changes s₀ ins State.pErrorR (n + 2) ∨ Changes s₀ ins State.dErrorR (n + 2) ∨
      Changes s₀ ins State.iErrorR (n + 2)) : Ticks s₀ ins n := by
  rw [← tick2R_run h]
  by_contra htick
  have hlow := eq_false_of_ne_true htick
  simp [Changes, run_succ step s₀ ins (n + 2), step_active (h.active (n + 2)), pErrorW, dErrorW,
    iErrorW, hlow] at hchange

/-- The output changes only with the products, two cycles after a tick. -/
theorem ticks_of_changes_pidOut {n : ℕ} (hchange : Changes s₀ ins pidOut (n + 2)) :
    Ticks s₀ ins n := by
  by_contra htick
  have hproducts := mt (ticks_of_changes_second h) htick
  simp only [Changes, not_or, not_not] at hproducts
  obtain ⟨hp, hd, hi⟩ := hproducts
  apply hchange
  have hsettings : ∀ k, (run step s₀ ins (k + 1)).gainR = (ins 0).gainI ∧
      (run step s₀ ins (k + 1)).biasR = (ins 0).biasI ∧
      (run step s₀ ins (k + 1)).satwidthR = nextSatwidthW (ins 0) := by
    intro k
    rw [run_succ, step_active (h.active k)]
    refine ⟨h.gainI k, h.biasI k, ?_⟩
    simp only [nextSatwidthW, h.satwidthI k]
  obtain ⟨hgain, hbias, hwidth⟩ := hsettings (n + 1)
  obtain ⟨hgain', hbias', hwidth'⟩ := hsettings (n + 2)
  unfold pidOut gainedWideW gainShiftedW gainProdW totalErrorWideW pErrorShiftedW dErrorShiftedW
    iErrorShiftedW
  rw [hp, hd, hi, hgain, hgain', hbias, hbias', hwidth, hwidth']

/-- While the controller stays enabled, the first tick after the first cycle is followed by
ticks at the decimation, integrator and average change only one cycle after a tick and
the products only two, and from the output update of that first tick on, two changes of
the output are at least the decimation apart. -/
theorem decimation_periodic :
    ∃ m, 1 ≤ m ∧ Ticks s₀ ins m ∧ (∀ n, 1 ≤ n → n < m → ¬Ticks s₀ ins n) ∧
      (∀ n, m ≤ n → (Ticks s₀ ins n ↔ decimation (ins 0) ∣ n - m)) ∧
      (∀ n, Changes s₀ ins State.sumErrorR (n + 1) ∨ Changes s₀ ins State.ykR (n + 1) →
        Ticks s₀ ins n) ∧
      (∀ n, Changes s₀ ins State.pErrorR (n + 2) ∨ Changes s₀ ins State.dErrorR (n + 2) ∨
        Changes s₀ ins State.iErrorR (n + 2) → Ticks s₀ ins n) ∧
      ∀ j k, m + 2 ≤ j → j < k → Changes s₀ ins pidOut j → Changes s₀ ins pidOut k →
        decimation (ins 0) ≤ k - j := by
  have hexists : ∃ n, 1 ≤ n ∧ Ticks s₀ ins n := exists_tick h
  obtain ⟨hm, htick⟩ := Nat.find_spec hexists
  have hperiod := fun n => ticks_periodic h hm htick (n := n)
  refine ⟨Nat.find hexists, hm, htick, ?_, hperiod, fun n => ticks_of_changes_first h,
    fun n => ticks_of_changes_second h, ?_⟩
  · intro n hn hlt htick'
    exact Nat.find_min hexists hlt ⟨hn, htick'⟩
  · intro j k hj hjk hchange hchange'
    obtain ⟨j, rfl⟩ := Nat.exists_eq_add_of_le' (show 2 ≤ j by omega)
    obtain ⟨k, rfl⟩ := Nat.exists_eq_add_of_le' (show 2 ≤ k by omega)
    have hdvd := (hperiod j (by omega)).mp (ticks_of_changes_pidOut h hchange)
    have hdvd' := (hperiod k (by omega)).mp (ticks_of_changes_pidOut h hchange')
    have hdiff := Nat.dvd_sub hdvd' hdvd
    have hle := Nat.le_of_dvd (by omega) hdiff
    omega

end Runs

/-- An update every three cycles. -/
def everyThird : Input := { largeError with decimateI := 3#14 }

theorem enabled_everyThird : Enabled fun _ => everyThird :=
  ⟨fun _ => rfl, fun _ => rfl, fun _ => rfl, fun _ => rfl, fun _ => rfl⟩

/-- The output of a controller with decimation 3 holds for three cycles. -/
theorem decimation_periodic_everyThird :
    ∃ m, 1 ≤ m ∧ ∀ j k, m + 2 ≤ j → j < k →
      Changes resetState (fun _ => everyThird) pidOut j →
      Changes resetState (fun _ => everyThird) pidOut k → 3 ≤ k - j := by
  obtain ⟨m, hm, -, -, -, -, -, hhold⟩ :=
    @decimation_periodic resetState (fun _ => everyThird) enabled_everyThird
  exact ⟨m, hm, hhold⟩

end PidCore
end PoundDreverHall
