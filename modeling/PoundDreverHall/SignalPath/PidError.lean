import PoundDreverHall.Pid.Datapath
import PoundDreverHall.SignalPath.FrontEnd

/-!
# Signal path - the error of the controller

The controller subtracts a 14-bit setpoint from the 16-bit input that the selector
routes to it.  The feeds of the front end leave room for the setpoint.  The filter and
the demodulator use all 16 bits, and there the difference wraps.

Main results:

- Theorem {lit}`fits_of_frontEnd`: behind the front end the difference always fits.
- Theorem {lit}`errorExact_iff`: in every state after a reset the error is exact if and only
  if the selector names a feed of the front end or the difference fits.
-/

namespace PoundDreverHall
namespace PdhCore

open Clocked FixedPoint

/-! ## The selected input -/

/-- The selector names a rotated feed or a converter. -/
def IsFrontEnd (pidSelR : BitVec 3) : Prop :=
  pidSelR ≠ 0b100#3 ∧ pidSelR ≠ 0b101#3 ∧ pidSelR ≠ 0b110#3

/-- A selector of the front end routes one of its four registers. -/
theorem Path.pidInW_of_frontEnd {r : Regs} (h : IsFrontEnd r.pidSelR) (p : Path) :
    pidInW r p = p.iFeedR ∨ pidInW r p = p.qFeedR ∨ pidInW r p = p.adcDatA16sR ∨
      pidInW r p = p.adcDatB16sR := by
  obtain ⟨hfir, hdemod, hlpf⟩ := h
  unfold pidInW
  split
  · exact .inl rfl
  · exact .inr (.inl rfl)
  · exact .inr (.inr (.inl rfl))
  · exact .inr (.inr (.inr rfl))
  · contradiction
  · contradiction
  · contradiction
  · exact .inr (.inr (.inl rfl))

/-- The selected input of the front end. -/
theorem Path.InRange.abs_pidInW_le {r : Regs} {p : Path} (h : p.InRange)
    (hsel : IsFrontEnd r.pidSelR) : |(pidInW r p).toInt| ≤ 2 ^ 14 := by
  have hsample : ∀ {x : BitVec 16}, IsSample x → |x.toInt| ≤ 2 ^ 14 := by
    intro x hx
    apply abs_le.mpr
    constructor <;> linarith [hx.1, hx.2]
  rcases pidInW_of_frontEnd hsel p with hin | hin | hin | hin
  · rw [hin]
    exact h.iFeedR
  · rw [hin]
    exact h.qFeedR
  · rw [hin]
    exact hsample h.adcDatA16sR
  · rw [hin]
    exact hsample h.adcDatB16sR

/-! ## The error -/

/-- `error_w` of the controller. -/
def errorW (s : State) : BitVec 16 :=
  PidCore.errorW (Path.pidInput s.rst.rstSyncR s.regs s.path) s.path.uPid

/-- The distance of the selected input from the setpoint. -/
def inputDifference (s : State) : ℤ :=
  (Path.pidInW s.regs s.path).toInt - s.path.uPid.spR.toInt

theorem toInt_errorW_eq_iff (s : State) :
    (errorW s).toInt = inputDifference s ↔ Fits 16 (inputDifference s) := by
  rw [errorW, PidCore.toInt_errorW]
  exact bmod_eq_iff (by decide)

/-- The error is the integer difference, and has its sign. -/
structure ErrorExact (s : State) : Prop where
  exact : (errorW s).toInt = (Path.pidInW s.regs s.path).toInt - s.path.uPid.spR.toInt
  sign : (errorW s).toInt.sign =
    ((Path.pidInW s.regs s.path).toInt - s.path.uPid.spR.toInt).sign

theorem errorExact_iff_fits (s : State) : ErrorExact s ↔ Fits 16 (inputDifference s) := by
  constructor
  · intro h
    exact (toInt_errorW_eq_iff s).mp h.exact
  · intro h
    have hexact := (toInt_errorW_eq_iff s).mpr h
    exact ⟨hexact, congrArg Int.sign hexact⟩

/-- A feed of the front end and a setpoint are never too far apart. -/
theorem fits_of_frontEnd {s : State} (h : s.path.InRange) (hsel : IsFrontEnd s.regs.pidSelR) :
    Fits 16 (inputDifference s) := by
  have hin := abs_le.mp (h.abs_pidInW_le hsel)
  have hsp := fits_toInt s.path.uPid.spR
  unfold inputDifference
  constructor <;> norm_num [Fits] at hin hsp ⊢ <;> linarith [hin.1, hin.2, hsp.1, hsp.2]

/-- In every state after a reset the error is exact if and only if the selector names a feed
of the front end, or the selected value and the setpoint differ by a 16-bit value. -/
theorem errorExact_iff {rom : Nco.Rom} {s : State} (h : WasReset rom s) :
    ErrorExact s ↔
      IsFrontEnd s.regs.pidSelR ∨
        Fits 16 ((Path.pidInW s.regs s.path).toInt - s.path.uPid.spR.toInt) := by
  rw [errorExact_iff_fits]
  constructor
  · exact .inr
  · rintro (hsel | hfits)
    · exact fits_of_frontEnd (inRange_of_wasReset h) hsel
    · exact hfits

/-! ## A demodulated carrier -/

/-- The entries of the sine table that the run below shows. -/
def sineEntry (addr : BitVec 12) : BitVec 16 :=
  match addr with
  | 0#12 => 0x0006#16
  | 1#12 => 0x0013#16
  | _ => 0x7FFF#16

/-- Command words of the run: a reset, the stride of the oscillator, the demodulator as
input of the controller, its lowest setpoint, its enable, and that of the oscillator. -/
def carrierWords : List (BitVec 32) :=
  [0x80000000#32, 0#32, 0#32, 0x64000FFF#32, 0#32, 0x78000140#32, 0#32, 0x60042000#32, 0#32,
    0x60070001#32, 0#32, 0x64040001#32, 0x24040001#32]

/-- Every word is held for four clock periods, and the converters show no signal. -/
def carrierInput (n : ℕ) : Input where
  axiFromPsI := carrierWords.getD (n / 4) 0x24040001#32
  adcDatAI := 8192#14
  adcDatBI := 8192#14
  dmaReadyI := true
  bramReadyI := true

/-- The state after {lit}`n` clock periods of the run. -/
def carrierState (n : ℕ) : State :=
  run (step sineEntry) (afterReset Path.reset) carrierInput n

theorem wasReset_carrierState {n : ℕ} (hn : 0 < n) : WasReset sineEntry (carrierState n) :=
  ⟨afterReset Path.reset, carrierInput, n, ⟨0, hn, rfl⟩, rfl⟩

theorem errorExact_iff_carrier :
    ErrorExact (carrierState 57) ↔
      IsFrontEnd (carrierState 57).regs.pidSelR ∨
        Fits 16 ((Path.pidInW (carrierState 57).regs (carrierState 57).path).toInt -
          (carrierState 57).path.uPid.spR.toInt) :=
  errorExact_iff (wasReset_carrierState (by decide))

/-- The demodulated peak of the carrier is far above the lowest setpoint, and the error is
negative. -/
theorem carrier_wraps :
    WasReset sineEntry (carrierState 57) ∧
      (Path.pidInW (carrierState 57).regs (carrierState 57).path).toInt = 32766 ∧
      (carrierState 57).path.uPid.spR.toInt = -8192 ∧
      (errorW (carrierState 57)).toInt = -24578 ∧
      ¬ErrorExact (carrierState 57) := by
  have hin : (Path.pidInW (carrierState 57).regs (carrierState 57).path).toInt = 32766 := by
    decide +kernel
  have hsp : (carrierState 57).path.uPid.spR.toInt = -8192 := by decide +kernel
  have herror : (errorW (carrierState 57)).toInt = -24578 := by decide +kernel
  refine ⟨wasReset_carrierState (by decide), hin, hsp, herror, ?_⟩
  intro h
  have hexact := h.exact
  rw [herror, hin, hsp] at hexact
  norm_num at hexact

end PdhCore
end PoundDreverHall
