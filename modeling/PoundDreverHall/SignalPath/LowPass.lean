import PoundDreverHall.FixedPoint.Average
import PoundDreverHall.SignalPath.Demodulator

/-!
# Signal path - the low-pass filter of the demodulator

The filter averages the demodulator output exponentially, with a weight that software
sets.  Its distance from the output is formed in 16 bits and wraps when the two are far
apart, which a change of the demodulator's input can bring about.

Main results:

- Theorem {lit}`lowPassStays_iff`: in every run from reset the filter stays among the
  outputs if and only if no distance wraps the wrong way.
- Theorem {lit}`lowPass_settles`: where the filter comes to rest under a constant output.
-/

namespace PoundDreverHall
namespace PdhCore

open Clocked FixedPoint

/-! ## One step -/

/-- How far the demodulator output is from the filter. -/
def lpfDistance (s : State) : ℤ := s.path.demodOut.toInt - s.path.demodLpfR.toInt

/-- The wire of the low-pass is the average, with a difference that wraps at 16 bits. -/
theorem Path.toInt_demodLpfW (r : Regs) (p : Path) :
    (Path.demodLpfW r p).toInt =
      wrappedAverage 16 r.demodLpfAlphaR.toNat p.demodOut.toInt p.demodLpfR.toInt := by
  rw [Path.demodLpfW, BitVec.toInt_add, toInt_sshiftRight, BitVec.toInt_sub, wrappedAverage]

section Step

variable {rom : Nco.Rom} {i : Input} {s : State}

/-- An edge outside reset averages. -/
theorem toInt_demodLpfR_step (h : s.resets i = false) :
    (step rom i s).path.demodLpfR.toInt =
      wrappedAverage 16 s.regs.demodLpfAlphaR.toNat s.path.demodOut.toInt
        s.path.demodLpfR.toInt := by
  obtain ⟨d, hpath⟩ := step_path_of_resets rom i s
  rw [hpath, h]
  exact Path.toInt_demodLpfW s.regs s.path

/-- An edge under reset clears the filter. -/
theorem demodLpfR_step_reset (h : s.resets i = true) : (step rom i s).path.demodLpfR = 0#16 := by
  obtain ⟨d, hpath⟩ := step_path_of_resets rom i s
  rw [hpath, h]
  rfl

/-- The distance fits in 16 bits, or the filter follows its input at once, or what wraps is
the whole range or less than one step. -/
def DistanceKept (s : State) : Prop :=
  Fits 16 (lpfDistance s) ∨ s.regs.demodLpfAlphaR = 0#4 ∨ lpfDistance s = 65535 ∨
    lpfDistance s < -65536 + 2 ^ s.regs.demodLpfAlphaR.toNat

instance (s : State) : Decidable (DistanceKept s) :=
  inferInstanceAs (Decidable (_ ∨ _ ∨ _ ∨ _))

/-- A step stays between its two values if and only if the difference did not wrap. -/
theorem between_step_iff (h : s.resets i = false) :
    Between s.path.demodLpfR.toInt s.path.demodOut.toInt (step rom i s).path.demodLpfR.toInt ↔
      DistanceKept s := by
  have halpha := s.regs.demodLpfAlphaR.isLt
  have hzero : s.regs.demodLpfAlphaR.toNat = 0 ↔ s.regs.demodLpfAlphaR = 0#4 :=
    ⟨fun heq => BitVec.eq_of_toNat_eq heq, fun heq => by rw [heq]; rfl⟩
  rw [toInt_demodLpfR_step h,
    between_wrappedAverage_iff (by norm_num) (fits_toInt _) (fits_toInt _) (by omega), hzero,
    DistanceKept, lpfDistance]
  norm_num

end Step

/-! ## Runs from reset -/

/-- A clock period under reset has just ended. -/
def EntersReset (rom : Nco.Rom) (s : State) : Prop :=
  ∃ i s₀, i.rstI = true ∧ s = step rom i s₀

theorem EntersReset.demodLpfR {rom : Nco.Rom} {s : State} (h : EntersReset rom s) :
    s.path.demodLpfR = 0#16 := by
  rcases h with ⟨i, s₀, hi, rfl⟩
  exact demodLpfR_step_reset (by simp [State.resets, hi])

/-- Every step of the filter outside reset ends between its old value and the demodulator
output, and the filter stays in every interval around zero that the outputs so far have
not left. -/
structure LowPassStays (rom : Nco.Rom) (s : State) (ins : ℕ → Input) : Prop where
  between : ∀ n, (run (step rom) s ins n).resets (ins n) = false →
    Between (run (step rom) s ins n).path.demodLpfR.toInt
      (run (step rom) s ins n).path.demodOut.toInt
      (run (step rom) s ins (n + 1)).path.demodLpfR.toInt
  interval : ∀ lo hi : ℤ, lo ≤ 0 → 0 ≤ hi → ∀ n,
    (∀ k < n, lo ≤ (run (step rom) s ins k).path.demodOut.toInt ∧
      (run (step rom) s ins k).path.demodOut.toInt ≤ hi) →
    lo ≤ (run (step rom) s ins n).path.demodLpfR.toInt ∧
      (run (step rom) s ins n).path.demodLpfR.toInt ≤ hi

section Runs

variable {rom : Nco.Rom} {s : State} {ins : ℕ → Input}

/-- Steps that end in between keep the filter among the outputs. -/
theorem interval_of_between (hs : EntersReset rom s)
    (hbetween : ∀ n, (run (step rom) s ins n).resets (ins n) = false →
      Between (run (step rom) s ins n).path.demodLpfR.toInt
        (run (step rom) s ins n).path.demodOut.toInt
        (run (step rom) s ins (n + 1)).path.demodLpfR.toInt)
    {lo hi : ℤ} (hlo : lo ≤ 0) (hhi : 0 ≤ hi) {n : ℕ}
    (hout : ∀ k < n, lo ≤ (run (step rom) s ins k).path.demodOut.toInt ∧
      (run (step rom) s ins k).path.demodOut.toInt ≤ hi) :
    lo ≤ (run (step rom) s ins n).path.demodLpfR.toInt ∧
      (run (step rom) s ins n).path.demodLpfR.toInt ≤ hi := by
  induction n with
  | zero =>
      rw [run_zero, hs.demodLpfR]
      exact ⟨hlo, hhi⟩
  | succ n ih =>
      have hold := ih fun k hk => hout k (Nat.lt_succ_of_lt hk)
      have hnew := hout n (Nat.lt_succ_self n)
      cases hrst : (run (step rom) s ins n).resets (ins n) with
      | true =>
          rw [run_succ, demodLpfR_step_reset hrst]
          exact ⟨hlo, hhi⟩
      | false =>
          have hmem := hbetween n hrst
          exact ⟨(le_min hold.1 hnew.1).trans hmem.1, hmem.2.trans (max_le hold.2 hnew.2)⟩

/-- In a run from reset the filter stays among the outputs of the demodulator if and only if
no step starts with a distance that wraps the wrong way. -/
theorem lowPassStays_iff (hs : EntersReset rom s) (ins : ℕ → Input) :
    LowPassStays rom s ins ↔
      ∀ n, (run (step rom) s ins n).resets (ins n) = false →
        DistanceKept (run (step rom) s ins n) := by
  constructor
  · intro h n hrst
    exact (between_step_iff hrst).mp (h.between n hrst)
  · intro h
    have hbetween : ∀ n, (run (step rom) s ins n).resets (ins n) = false →
        Between (run (step rom) s ins n).path.demodLpfR.toInt
          (run (step rom) s ins n).path.demodOut.toInt
          (run (step rom) s ins (n + 1)).path.demodLpfR.toInt :=
      fun n hrst => (between_step_iff hrst).mpr (h n hrst)
    exact ⟨hbetween, fun lo hi hlo hhi n hout => interval_of_between hs hbetween hlo hhi hout⟩

end Runs

/-! ## A change of sign at the input -/

/-- The entries of the sine table that an eighth of the sample rate shows. -/
def eighthEntry (addr : BitVec 12) : BitVec 16 :=
  match addr with
  | 0#12 => 0x0006#16
  | 2047#12 => 0x5A7D#16
  | 2048#12 => 0x5A86#16
  | _ => 0x7FFF#16

/-- Command words after a reset: the stride of the oscillator, its second output inverted,
the first output demodulated with itself, the enable, and a while later the second output
demodulated with the first and averaged over two samples. -/
def invertWords : List (BitVec 32) :=
  [0#32, 0#32, 0x64000800#32, 0#32, 0x64020001#32, 0#32, 0x6C000000#32, 0#32, 0x64040001#32, 0#32,
    0#32, 0#32, 0#32, 0#32, 0#32, 0#32, 0#32, 0x6C000012#32]

theorem entersReset_resetEntry (rom : Nco.Rom) : EntersReset rom (resetEntry rom) :=
  ⟨quietInput 0x80000000#32, afterReset Path.reset, rfl, rfl⟩

/-- The run of these words, one in each cycle. -/
def invertState (n : ℕ) : State :=
  run (step eighthEntry) (resetEntry eighthEntry) (fun k => quietInput (invertWords.getD k 0#32)) n

/-- The filter jumps from 24577 to -28668 while the output is -16377. -/
theorem invert_jumps :
    (invertState 23).path.demodLpfR.toInt = 24577 ∧
      (invertState 23).path.demodOut.toInt = -16377 ∧
      (invertState 24).path.demodLpfR.toInt = -28668 ∧
      ¬LowPassStays eighthEntry (resetEntry eighthEntry)
        fun k => quietInput (invertWords.getD k 0#32) := by
  have hold : (invertState 23).path.demodLpfR.toInt = 24577 := by decide +kernel
  have hout : (invertState 23).path.demodOut.toInt = -16377 := by decide +kernel
  have hnew : (invertState 24).path.demodLpfR.toInt = -28668 := by decide +kernel
  have hrst : (invertState 23).resets (quietInput (invertWords.getD 23 0#32)) = false := by
    decide +kernel
  refine ⟨hold, hout, hnew, fun h => ?_⟩
  have hbetween := h.between 23 hrst
  rw [← invertState, ← invertState, hold, hout, hnew] at hbetween
  norm_num [Between] at hbetween

theorem lowPassStays_iff_invert :
    LowPassStays eighthEntry (resetEntry eighthEntry)
        (fun k => quietInput (invertWords.getD k 0#32)) ↔
      ∀ n, (invertState n).resets (quietInput (invertWords.getD n 0#32)) = false →
        DistanceKept (invertState n) :=
  lowPassStays_iff (entersReset_resetEntry eighthEntry) _

/-! ## Under a constant output -/

section Constant

variable {rom : Nco.Rom} {s : State} {ins : ℕ → Input} {c : BitVec 16} {alpha : BitVec 4}
  (hrst : ∀ n, (run (step rom) s ins n).resets (ins n) = false)
  (hout : ∀ n, (run (step rom) s ins n).path.demodOut = c)
  (halpha : ∀ n, (run (step rom) s ins n).regs.demodLpfAlphaR = alpha)
  (hstart : |c.toInt - s.path.demodLpfR.toInt| ≤ 32767)

include hrst hout halpha

/-- Under a constant output and a small distance a step is an average. -/
theorem demodLpfR_run_succ {n : ℕ}
    (hdist : |c.toInt - (run (step rom) s ins n).path.demodLpfR.toInt| ≤ 32767) :
    (run (step rom) s ins (n + 1)).path.demodLpfR.toInt =
      average alpha.toNat c.toInt (run (step rom) s ins n).path.demodLpfR.toInt := by
  obtain ⟨hlow, hhigh⟩ := abs_le.mp hdist
  have hfits : Fits 16 (c.toInt - (run (step rom) s ins n).path.demodLpfR.toInt) := by
    constructor <;> norm_num <;> linarith
  rw [run_succ, toInt_demodLpfR_step (hrst n), hout n, halpha n]
  exact wrappedAverage_of_fits (by norm_num) (fits_toInt _) (fits_toInt _) hfits

include hstart

/-- The distance never grows. -/
theorem abs_distance_run (n : ℕ) :
    |c.toInt - (run (step rom) s ins n).path.demodLpfR.toInt| ≤ 32767 := by
  induction n with
  | zero => exact hstart
  | succ n ih =>
      rw [demodLpfR_run_succ hrst hout halpha ih]
      have hmem := abs_le.mp ih
      rw [abs_le]
      rcases le_total (run (step rom) s ins n).path.demodLpfR.toInt c.toInt with hle | hge
      · have hnext := average_mem_of_le (k := alpha.toNat) hle
        constructor <;> linarith
      · have hnext := average_mem_of_ge (k := alpha.toNat) hge
        constructor <;> linarith

/-- Under a constant output that it can reach without wrapping, the filter moves towards the
output, never past it, and comes to rest: at the output from above, and less than one step
short of it from below. -/
theorem lowPass_settles :
    Settles alpha.toNat c.toInt fun n => (run (step rom) s ins n).path.demodLpfR.toInt := by
  have haverages : Averages alpha.toNat c.toInt fun n =>
      (run (step rom) s ins n).path.demodLpfR.toInt :=
    fun n => demodLpfR_run_succ hrst hout halpha (abs_distance_run hrst hout halpha hstart n)
  exact haverages.settles

end Constant

/-- The core without commands, signals or oscillator. -/
structure Quiet (s : State) : Prop where
  live : Live s
  latch : s.latch = .reset
  regs : s.regs = .reset
  rom1SignedR : s.path.uNco.rom1SignedR = 0#16
  ncoOut1R : s.path.ncoOut1R = 0#16
  demodOut : s.path.demodOut = 0#16

/-- An idle bus leaves a quiet core quiet. -/
theorem Quiet.step {s : State} (h : Quiet s) (rom : Nco.Rom) :
    Quiet (step rom (quietInput 0#32) s) := by
  have hdisabled : Path.ncoInput false Regs.reset =
      { enableI := false, rstI := false, strideI := 1#12, shiftI := 0#12, invertI := false,
        subI := false } := rfl
  rw [step_live rom h.live rfl, h.latch, h.regs]
  refine ⟨⟨rfl, rfl⟩, rfl, rfl, ?_, ?_, ?_⟩
  · simp [Path.step, Nco.step, hdisabled, Nco.cleared]
  · exact h.rom1SignedR
  · have href : Path.demodRefW Regs.reset s.path = 0#16 := h.ncoOut1R
    simp [Path.step, href, IqDemod.step]

/-- A filter left below a silent demodulator. -/
def silentState : State :=
  afterReset { Path.reset with demodLpfR := BitVec.ofInt 16 (-1000) }

theorem quiet_silentState (n : ℕ) :
    Quiet (run (step eighthEntry) silentState (fun _ => quietInput 0#32) n) :=
  run_invariant Quiet ⟨⟨rfl, rfl⟩, rfl, rfl, rfl, rfl, rfl⟩
    (fun _ h => h.step eighthEntry) n

theorem lowPass_settles_silent :
    Settles 8 0 fun n =>
      (run (step eighthEntry) silentState (fun _ => quietInput 0#32) n).path.demodLpfR.toInt := by
  have halpha : ∀ n,
      (run (step eighthEntry) silentState (fun _ => quietInput 0#32) n).regs.demodLpfAlphaR =
        8#4 := by
    intro n
    rw [(quiet_silentState n).regs]
    rfl
  exact lowPass_settles
    (fun n => by simp [State.resets, (quiet_silentState n).live.1, ResetSync.released]; rfl)
    (fun n => (quiet_silentState n).demodOut) halpha (by decide)

end PdhCore
end PoundDreverHall
