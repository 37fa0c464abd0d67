import Mathlib.Tactic.IntervalCases
import PoundDreverHall.Clocked.Run
import PoundDreverHall.Rtl.Nco

/-!
# NCO - phase coherence of the output

The magnitude of an output sample goes through a registered address and a
registered ROM, three edges behind the phase it belongs to.  Its sign is taken
from the phase register itself, one edge behind.  This file computes the output
of every enabled run and derives when it is the sine of one delayed phase.

Main results:

- Theorem {lit}`out1O_run`: the output in terms of two phases, two strides
  apart.
- Theorem {lit}`inPhase_three_iff`: at the latency of the magnitude, the sign
  is right exactly when no non-zero entry is looked up within two strides
  before a half-turn.
- Theorem {lit}`coherent_iff`: the exact condition for every latency.
-/

namespace PoundDreverHall
namespace Nco

open Clocked

/-! ## The sine of a phase -/

/-- The quarter-wave reconstruction {lit}`S(p)`. -/
def sineAt (rom : Rom) (phi : BitVec 14) : BitVec 16 :=
  romSigned phi (rom (romAddr phi))

/-- The sign changes with the top bit of the phase. -/
theorem romSigned_eq (phi : BitVec 14) (lookup : BitVec 16) :
    romSigned phi lookup = if phi.msb then -lookup else lookup := by
  have hquadrant : (quadrant phi = .q1 ∨ quadrant phi = .q2) ↔ phi.msb = false := by
    have hmsb : phi.msb = (phi.extractLsb' 12 2).msb := by
      simp [BitVec.msb_eq_getLsbD_last]
    rw [hmsb, quadrant]
    generalize phi.extractLsb' 12 2 = top
    revert top
    decide
  rw [romSigned]
  cases hmsb : phi.msb with
  | false => rw [if_pos (hquadrant.mpr hmsb)]; rfl
  | true =>
      rw [if_neg]
      · rfl
      · rw [hquadrant, hmsb]
        decide

/-- A ROM entry is its own negative only if it is zero. -/
theorem eq_neg_iff {x : BitVec 16} (hx : x ≤ 0x7FFF#16) : x = -x ↔ x = 0#16 := by
  rw [BitVec.le_def] at hx
  rw [← BitVec.toNat_inj, ← BitVec.toNat_inj, BitVec.toNat_neg]
  have hx' : x.toNat ≤ 32767 := hx
  simp only [BitVec.toNat_ofNat]
  omega

/-! ## Enabled runs -/

/-- Settings that stay on the ports while the oscillator is enabled. -/
structure Config where
  strideI : BitVec 12
  shiftI : BitVec 12
  invertI : Bool
  subI : Bool
deriving DecidableEq, Repr

/-- The ports of an enabled oscillator. -/
def Config.input (c : Config) : Input where
  enableI := true
  rstI := false
  strideI := c.strideI
  shiftI := c.shiftI
  invertI := c.invertI
  subI := c.subI

/-- The 14-bit phase increment. -/
def Config.stride (c : Config) : BitVec 14 :=
  c.strideI.setWidth 14

/-- The second phase that goes with a first one. -/
def Config.shifted (c : Config) (phi : BitVec 14) : BitVec 14 :=
  if c.subI then phi - c.shiftI.setWidth 14 else phi + c.shiftI.setWidth 14

/-- The sign of the second output. -/
def Config.inverted (c : Config) (x : BitVec 16) : BitVec 16 :=
  if c.invertI then -x else x

/-- State of an enabled run. -/
def enabledRun (rom : Rom) (c : Config) (s₀ : State) (t : ℕ) : State :=
  run (step rom) s₀ (fun _ => c.input) t

/-- Phase number {lit}`k` from {lit}`phi` on. -/
def Config.orbit (c : Config) (phi : BitVec 14) (k : ℕ) : BitVec 14 :=
  phi + BitVec.ofNat 14 k * c.stride

section Run

variable (rom : Rom) (c : Config) (s₀ : State)

/-- One edge of an enabled run. -/
theorem enabledRun_succ (t : ℕ) :
    enabledRun rom c s₀ (t + 1) =
      { strideR := c.strideI
        shiftR := c.shiftI
        invertR := c.invertI
        subR := c.subI
        phi1R := nextPhi1W (enabledRun rom c s₀ t)
        phi1Pipe1R := (enabledRun rom c s₀ t).phi1R
        phi2Pipe1R := phi2W (enabledRun rom c s₀ t)
        addr1R := romAddr (enabledRun rom c s₀ t).phi1Pipe1R
        addr2R := romAddr (enabledRun rom c s₀ t).phi2Pipe1R
        dout1 := rom (enabledRun rom c s₀ t).addr1R
        dout2 := rom (enabledRun rom c s₀ t).addr2R
        rom1SignedR := romSigned (enabledRun rom c s₀ t).phi1Pipe1R (enabledRun rom c s₀ t).dout1
        rom2SignedR := rom2SignedW (enabledRun rom c s₀ t) } := by
  rw [enabledRun, run_succ]
  simp [step, Config.input, enabledRun]

/-- The phase with which the oscillator leaves its first enabled edge. -/
def startPhase : BitVec 14 :=
  nextPhi1W s₀

theorem orbit_zero (phi : BitVec 14) : c.orbit phi 0 = phi := by
  simp [Config.orbit]

theorem orbit_add (phi : BitVec 14) (k m : ℕ) :
    c.orbit phi (k + m) = c.orbit phi k + BitVec.ofNat 14 m * c.stride := by
  rw [Config.orbit, Config.orbit, BitVec.ofNat_add, BitVec.add_mul, BitVec.add_assoc]

/-- The orbit closes after a full period of the accumulator. -/
theorem orbit_period (phi : BitVec 14) (k m : ℕ) :
    c.orbit phi (k + 2 ^ 14 * m) = c.orbit phi k := by
  have hzero : BitVec.ofNat 14 (2 ^ 14 * m) = 0#14 := by
    apply BitVec.eq_of_toNat_eq
    simp
  rw [orbit_add, hzero, BitVec.zero_mul, BitVec.add_zero]

/-- The second phase of an orbit is the orbit of the second phase. -/
theorem shifted_orbit (phi : BitVec 14) (k : ℕ) :
    c.shifted (c.orbit phi k) = c.orbit (c.shifted phi) k := by
  simp only [Config.shifted, Config.orbit]
  split_ifs
  · rw [BitVec.sub_eq_add_neg, BitVec.sub_eq_add_neg, BitVec.add_assoc, BitVec.add_assoc,
      BitVec.add_comm (BitVec.ofNat 14 k * c.stride)]
  · rw [BitVec.add_assoc, BitVec.add_assoc, BitVec.add_comm (BitVec.ofNat 14 k * c.stride)]

theorem phi1R_run (k : ℕ) :
    (enabledRun rom c s₀ (k + 1)).phi1R = c.orbit (startPhase s₀) k := by
  induction k with
  | zero => rw [enabledRun_succ, orbit_zero]; rfl
  | succ k ih =>
      have hstride : (enabledRun rom c s₀ (k + 1)).strideR = c.strideI := by
        rw [enabledRun_succ]
      rw [enabledRun_succ]
      simp only [nextPhi1W]
      rw [ih, hstride, orbit_add]
      simp [Config.stride]

/-- The first phase output advances along its orbit. -/
theorem phi1O_run (k : ℕ) :
    phi1O (enabledRun rom c s₀ (k + 2)) = c.orbit (startPhase s₀) k := by
  rw [phi1O, enabledRun_succ]
  exact phi1R_run rom c s₀ k

/-- The second phase output is the first one, shifted. -/
theorem phi2O_run (k : ℕ) :
    phi2O (enabledRun rom c s₀ (k + 2)) = c.orbit (c.shifted (startPhase s₀)) k := by
  have hphi : phi2O (enabledRun rom c s₀ (k + 2)) = phi2W (enabledRun rom c s₀ (k + 1)) := by
    rw [phi2O, enabledRun_succ]
  have hshift : (enabledRun rom c s₀ (k + 1)).shiftR = c.shiftI := by
    rw [enabledRun_succ]
  have hsub : (enabledRun rom c s₀ (k + 1)).subR = c.subI := by
    rw [enabledRun_succ]
  rw [hphi, phi2W, phi1R_run, hshift, hsub, ← shifted_orbit]
  rfl

/-- A sample carries the magnitude of the phase three edges back and the sign
of the phase one edge back. -/
theorem out1O_run (t : ℕ) :
    out1O (enabledRun rom c s₀ (t + 3)) =
      romSigned (phi1O (enabledRun rom c s₀ (t + 2)))
        (rom (romAddr (phi1O (enabledRun rom c s₀ t)))) := by
  have hdout : (enabledRun rom c s₀ (t + 2)).dout1 =
      rom (romAddr (enabledRun rom c s₀ t).phi1Pipe1R) := by
    rw [enabledRun_succ, enabledRun_succ]
  rw [out1O, enabledRun_succ rom c s₀ (t + 2)]
  simp only [hdout, phi1O]

theorem out2O_run (t : ℕ) :
    out2O (enabledRun rom c s₀ (t + 3)) =
      c.inverted (romSigned (phi2O (enabledRun rom c s₀ (t + 2)))
        (rom (romAddr (phi2O (enabledRun rom c s₀ t))))) := by
  have hdout : (enabledRun rom c s₀ (t + 2)).dout2 =
      rom (romAddr (enabledRun rom c s₀ t).phi2Pipe1R) := by
    rw [enabledRun_succ, enabledRun_succ]
  have hinvert : (enabledRun rom c s₀ (t + 2)).invertR = c.invertI := by
    rw [enabledRun_succ]
  rw [out2O, enabledRun_succ rom c s₀ (t + 2)]
  simp only [rom2SignedW, hdout, hinvert, phi2O, Config.inverted]

end Run

/-! ## Coherence -/

/-- With latency {lit}`L`, and in every cycle from {lit}`T` on, both outputs are
the sine of one delayed phase. -/
structure Coherent (rom : Rom) (c : Config) (s₀ : State) (L T : ℕ) : Prop where
  phi1_advances : ∀ t ≥ T, phi1O (enabledRun rom c s₀ (t + 1)) =
    phi1O (enabledRun rom c s₀ t) + c.stride
  phi2_shifted : ∀ t ≥ T, phi2O (enabledRun rom c s₀ t) =
    c.shifted (phi1O (enabledRun rom c s₀ t))
  out1 : ∀ t ≥ T, out1O (enabledRun rom c s₀ (t + L)) =
    sineAt rom (phi1O (enabledRun rom c s₀ t))
  out2 : ∀ t ≥ T, out2O (enabledRun rom c s₀ (t + L)) =
    c.inverted (sineAt rom (phi2O (enabledRun rom c s₀ t)))

/-- Along the orbit of {lit}`phi`, the entry looked up at a phase, with the sign
found two strides later, is the sine at latency {lit}`L`. -/
def InPhase (rom : Rom) (c : Config) (phi : BitVec 14) (L : ℕ) : Prop :=
  ∀ k, romSigned (c.orbit phi (k + 2)) (rom (romAddr (c.orbit phi k))) =
    sineAt rom (c.orbit phi (k + 3) - BitVec.ofNat 14 L * c.stride)

/-- No non-zero entry is looked up at a phase of the orbit from which two
strides lead into the other half-turn. -/
def QuietCrossings (rom : Rom) (c : Config) (phi : BitVec 14) : Prop :=
  ∀ k, (c.orbit phi k).msb ≠ (c.orbit phi (k + 2)).msb →
    rom (romAddr (c.orbit phi k)) = 0#16

section Coherence

variable {rom : Rom} {c : Config} {s₀ : State}

theorem orbit_sub (phi : BitVec 14) {m L : ℕ} (h : L ≤ m) :
    c.orbit phi m - BitVec.ofNat 14 L * c.stride = c.orbit phi (m - L) := by
  obtain ⟨d, rfl⟩ := Nat.exists_eq_add_of_le' h
  rw [orbit_add, BitVec.add_sub_cancel, Nat.add_sub_cancel]

/-- At latency three only the signs can differ. -/
theorem inPhase_three_iff (hrom : ∀ a, rom a ≤ 0x7FFF#16) (phi : BitVec 14) :
    InPhase rom c phi 3 ↔ QuietCrossings rom c phi := by
  refine forall_congr' fun k => ?_
  rw [orbit_sub phi (Nat.le_add_left 3 k), Nat.add_sub_cancel, sineAt, romSigned_eq,
    romSigned_eq]
  have hneg := eq_neg_iff (hrom (romAddr (c.orbit phi k)))
  cases (c.orbit phi k).msb <;> cases (c.orbit phi (k + 2)).msb <;> simp [← hneg, eq_comm]

/-- The orbit is periodic, so checking it from some cycle on checks it all. -/
theorem inPhase_iff_eventually (phi : BitVec 14) {L T : ℕ} (hT : 5 ≤ T) :
    InPhase rom c phi L ↔
      ∀ t ≥ T, romSigned (c.orbit phi (t + L - 3)) (rom (romAddr (c.orbit phi (t + L - 5)))) =
        sineAt rom (c.orbit phi (t - 2)) := by
  constructor
  · intro h t ht
    have hk := h (t + L - 5)
    rw [orbit_sub phi (by omega)] at hk
    convert hk using 3 <;> omega
  · intro h k
    -- the same phases come back in a cycle late enough for both sides
    have hk := h (k + 2 ^ 14 * (T + L) + 5 - L) (by omega)
    have hperiod := fun m => orbit_period c phi m (T + L)
    rw [show k + 2 ^ 14 * (T + L) + 5 - L + L - 3 = k + 2 + 2 ^ 14 * (T + L) by omega,
      show k + 2 ^ 14 * (T + L) + 5 - L + L - 5 = k + 2 ^ 14 * (T + L) by omega,
      hperiod, hperiod] at hk
    rw [hk, ← hperiod (k + 3), orbit_sub phi (by omega)]
    congr 2
    omega

theorem inverted_inj {x y : BitVec 16} : c.inverted x = c.inverted y ↔ x = y := by
  rw [Config.inverted, Config.inverted]
  split_ifs
  · exact BitVec.neg_inj
  · exact Iff.rfl

/-- Once the pipeline has filled, a sample in terms of the orbit. -/
theorem out1O_eq (rom : Rom) (c : Config) (s₀ : State) {m : ℕ} (hm : 5 ≤ m) :
    out1O (enabledRun rom c s₀ m) =
      romSigned (c.orbit (startPhase s₀) (m - 3))
        (rom (romAddr (c.orbit (startPhase s₀) (m - 5)))) := by
  obtain ⟨k, rfl⟩ := Nat.exists_eq_add_of_le' hm
  exact (out1O_run rom c s₀ (k + 2)).trans (by rw [phi1O_run, phi1O_run]; rfl)

theorem out2O_eq (rom : Rom) (c : Config) (s₀ : State) {m : ℕ} (hm : 5 ≤ m) :
    out2O (enabledRun rom c s₀ m) =
      c.inverted (romSigned (c.orbit (c.shifted (startPhase s₀)) (m - 3))
        (rom (romAddr (c.orbit (c.shifted (startPhase s₀)) (m - 5))))) := by
  obtain ⟨k, rfl⟩ := Nat.exists_eq_add_of_le' hm
  exact (out2O_run rom c s₀ (k + 2)).trans (by rw [phi2O_run, phi2O_run]; rfl)

theorem phi1O_eq (rom : Rom) (c : Config) (s₀ : State) {m : ℕ} (hm : 2 ≤ m) :
    phi1O (enabledRun rom c s₀ m) = c.orbit (startPhase s₀) (m - 2) := by
  obtain ⟨k, rfl⟩ := Nat.exists_eq_add_of_le' hm
  exact phi1O_run rom c s₀ k

theorem phi2O_eq (rom : Rom) (c : Config) (s₀ : State) {m : ℕ} (hm : 2 ≤ m) :
    phi2O (enabledRun rom c s₀ m) = c.orbit (c.shifted (startPhase s₀)) (m - 2) := by
  obtain ⟨k, rfl⟩ := Nat.exists_eq_add_of_le' hm
  exact phi2O_run rom c s₀ k

/-- The outputs are coherent exactly when both orbits are in phase. -/
theorem coherent_iff_inPhase {L T : ℕ} (hT : 5 ≤ T) :
    Coherent rom c s₀ L T ↔
      InPhase rom c (startPhase s₀) L ∧ InPhase rom c (c.shifted (startPhase s₀)) L := by
  rw [inPhase_iff_eventually _ hT, inPhase_iff_eventually _ hT]
  constructor
  · intro h
    refine ⟨?_, ?_⟩
    · intro t ht
      rw [← out1O_eq rom c s₀ (by omega), ← phi1O_eq rom c s₀ (by omega)]
      exact h.out1 t ht
    · intro t ht
      rw [← inverted_inj (c := c), ← out2O_eq rom c s₀ (by omega),
        ← phi2O_eq rom c s₀ (by omega)]
      exact h.out2 t ht
  · rintro ⟨h1, h2⟩
    refine ⟨?_, ?_, ?_, ?_⟩
    · intro t ht
      rw [phi1O_eq rom c s₀ (by omega), phi1O_eq rom c s₀ (by omega),
        show t + 1 - 2 = t - 2 + 1 by omega, orbit_add]
      simp
    · intro t ht
      rw [phi1O_eq rom c s₀ (by omega), phi2O_eq rom c s₀ (by omega), shifted_orbit]
    · intro t ht
      rw [out1O_eq rom c s₀ (by omega), phi1O_eq rom c s₀ (by omega)]
      exact h1 t ht
    · intro t ht
      rw [out2O_eq rom c s₀ (by omega), phi2O_eq rom c s₀ (by omega), inverted_inj]
      exact h2 t ht

/-- Phase coherence, for every latency: the outputs are the sine of one delayed
phase exactly when both orbits are in phase.  At the latency of the magnitude
that means that no non-zero entry is looked up right before a half-turn. -/
theorem coherent_iff (rom : Rom) (hrom : ∀ a, rom a ≤ 0x7FFF#16) (c : Config) (s₀ : State)
    {T : ℕ} (hT : 5 ≤ T) :
    (∀ L, Coherent rom c s₀ L T ↔
        InPhase rom c (startPhase s₀) L ∧ InPhase rom c (c.shifted (startPhase s₀)) L) ∧
      (Coherent rom c s₀ 3 T ↔
        QuietCrossings rom c (startPhase s₀) ∧
          QuietCrossings rom c (c.shifted (startPhase s₀))) := by
  refine ⟨fun L => coherent_iff_inPhase hT, ?_⟩
  rw [coherent_iff_inPhase hT, inPhase_three_iff hrom, inPhase_three_iff hrom]

end Coherence

/-! ## A ramp -/

/-- A ROM whose entries are all different. -/
def rampRom : Rom :=
  fun a => a.setWidth 16 + 1#16

/-- An eighth of a turn in each cycle. -/
def eighthTurn : Config where
  strideI := 2048#12
  shiftI := 0#12
  invertI := false
  subI := false

theorem rampRom_le (a : BitVec 12) : rampRom a ≤ 0x7FFF#16 := by
  rw [BitVec.le_def, rampRom, BitVec.toNat_add, BitVec.toNat_setWidth]
  have := a.isLt
  simp only [BitVec.toNat_ofNat]
  omega

/-- No latency fits the ramp at an eighth of a turn per cycle. -/
theorem eighthTurn_incoherent : ¬∃ L T, Coherent rampRom eighthTurn resetState L T := by
  rintro ⟨L, T, h⟩
  have hlater : Coherent rampRom eighthTurn resetState L (T + 5) :=
    ⟨fun t ht => h.phi1_advances t (by omega), fun t ht => h.phi2_shifted t (by omega),
      fun t ht => h.out1 t (by omega), fun t ht => h.out2 t (by omega)⟩
  have hphase := ((coherent_iff_inPhase (by omega)).mp hlater).1
  -- the first sample fixes the latency modulo the period, the third refutes it
  have hfirst := hphase 0
  have hthird := hphase 2
  obtain ⟨a, b, hb, rfl⟩ : ∃ a b, b < 8 ∧ L = b + 8 * a :=
    ⟨L / 8, L % 8, Nat.mod_lt _ (by decide), by omega⟩
  have hperiod : BitVec.ofNat 14 (b + 8 * a) * eighthTurn.stride =
      BitVec.ofNat 14 b * eighthTurn.stride := by
    have hstride : eighthTurn.stride = 2048#14 := by decide
    rw [hstride]
    apply BitVec.eq_of_toNat_eq
    simp only [BitVec.toNat_mul, BitVec.toNat_ofNat, Nat.reduceMod, Nat.reducePow]
    omega
  rw [hperiod] at hfirst hthird
  interval_cases b <;> first | exact absurd hfirst (by decide) | exact absurd hthird (by decide)

/-- The exact condition, for the ramp at an eighth of a turn per cycle. -/
theorem coherent_iff_eighthTurn :
    (∀ L, Coherent rampRom eighthTurn resetState L 5 ↔
        InPhase rampRom eighthTurn (startPhase resetState) L ∧
          InPhase rampRom eighthTurn (eighthTurn.shifted (startPhase resetState)) L) ∧
      (Coherent rampRom eighthTurn resetState 3 5 ↔
        QuietCrossings rampRom eighthTurn (startPhase resetState) ∧
          QuietCrossings rampRom eighthTurn (eighthTurn.shifted (startPhase resetState))) :=
  coherent_iff rampRom rampRom_le eighthTurn resetState le_rfl

end Nco
end PoundDreverHall
