import Mathlib.Logic.Function.Iterate
import PoundDreverHall.Clocked.Splice
import PoundDreverHall.Dma.BurstTrace
import PoundDreverHall.Frame.Control

/-!
# Frames - captures and transfers end

A capture ends after finitely many edges of {lit}`pdh_clk`, whatever the
decimation code, and a transfer ends after finitely many edges of {lit}`fclk0` if
the slave never stalls.  Both are shown by a measure that every edge decreases.

Main results:

- Theorem {lit}`capture_ends` and theorem {lit}`transfer_ends`.
-/

namespace PoundDreverHall

/-! ## Captures -/

namespace BramController

variable {P : Params} {s : State P} {i : Input}

/-- Edges until the count is zero at most, and before that one round of the count
for every address left. -/
def remaining (s : State P) : ℕ :=
  (2 ^ P.aw - 1 - s.addrR.toNat) * (2 ^ 22 + 1) +
    if s.countR = 0#22 then 0 else 2 ^ 22 - s.countR.toNat

theorem step_capturing (hrst : s.rst = .released) (hi : i.rstI = false)
    (hst : s.stateR = .captureData) (hlast : lastAddr s = false) :
    step i s =
      { s with
        uEnableEdgeDetector := { prevD := i.enableI }
        stateR := .captureData
        addrR := nextAddrW s
        countR := nextCountW s } := by
  simp [step, posedge, hi, hrst, ResetSync.released, nextStateW, hst, hlast,
    nextDecimationCodeW, PosedgeDetector.clock]

/-- The next count is zero or one more. -/
theorem nextCountW_cases (hst : s.stateR = .captureData) :
    nextCountW s = 0#22 ∨ nextCountW s = s.countR + 1#22 := by
  simp only [nextCountW, hst]
  split_ifs
  · exact .inl rfl
  · exact .inr rfl

theorem remaining_step (hdepth : P.depth = 2 ^ P.aw) (hrst : s.rst = .released)
    (hi : i.rstI = false) (hst : s.stateR = .captureData) (hlast : lastAddr s = false) :
    remaining (step i s) < remaining s := by
  rw [step_capturing hrst hi hst hlast]
  have haddr : s.addrR.toNat < 2 ^ P.aw - 1 := by
    have hlt := s.addrR.isLt
    have hne : s.addrR.toNat ≠ P.depth - 1 := by
      simpa [lastAddr] using hlast
    omega
  have hcount := s.countR.isLt
  simp only [remaining, nextAddrW, hst]
  by_cases hzero : s.countR = 0#22
  · rw [if_pos hzero, if_pos hzero]
    have hnext : (s.addrR + 1).toNat = s.addrR.toNat + 1 := by
      have hone : (1 : BitVec P.aw).toNat = 1 := Nat.mod_eq_of_lt (show 1 < 2 ^ P.aw by omega)
      rw [BitVec.toNat_add, hone]
      exact Nat.mod_eq_of_lt (by omega)
    rw [hnext]
    -- the address pays for a whole round of the count
    have hround : (if nextCountW s = 0#22 then 0 else 2 ^ 22 - (nextCountW s).toNat) ≤ 2 ^ 22 := by
      split_ifs <;> omega
    have hsplit : 2 ^ P.aw - 1 - s.addrR.toNat =
        2 ^ P.aw - 1 - (s.addrR.toNat + 1) + 1 := by omega
    rw [hsplit, Nat.succ_mul]
    omega
  · rw [if_neg hzero, if_neg hzero]
    have hpos : 0 < 2 ^ 22 - s.countR.toNat := by omega
    rcases nextCountW_cases hst with hnext | hnext
    · rw [hnext, if_pos rfl]
      omega
    · rw [hnext]
      split_ifs with hwrap
      · omega
      · have hsucc : (s.countR + 1#22).toNat = s.countR.toNat + 1 := by
          have hne : (s.countR + 1#22).toNat ≠ 0 := fun h => hwrap (BitVec.eq_of_toNat_eq h)
          rw [BitVec.toNat_add] at hne ⊢
          simp only [BitVec.toNat_ofNat] at hne ⊢
          omega
        omega

end BramController

/-! ## Transfers -/

namespace DmaController

variable {P : Params} {s : State} {i : Input}

/-- Bursts to come after the one under way. -/
def burstsLeft (P : Params) (s : State) : ℕ :=
  if P.finalWriteAddr < s.addrR + addrInc then 0
  else P.finalWriteAddr.toNat - (s.addrR + addrInc).toNat + 1

/-- Edges until the response of the burst under way. -/
def burstRemaining (s : State) : ℕ :=
  match s.stateR with
  | .idle => 0
  | .setAddrAwaitAck => 33
  | .setDataAwaitAck => (burstLen.setWidth 5 - s.beatR).toNat + 1
  | .awaitResp => 0

/-- Edges until the last response at most. -/
def remaining (P : Params) (s : State) : ℕ :=
  burstsLeft P s * 34 + burstRemaining s

/-- The slave accepts everything at once. -/
structure NeverStalls (i : Input) : Prop where
  awready : i.mAxiAwready = true
  wready : i.mAxiWready = true
  bvalid : i.mAxiBvalid = true
  okay : i.mAxiBresp = respOkay

theorem remaining_step (hP : P.finalWriteAddr.toNat + 128 < 2 ^ 32) (hrst : s.rst = .released)
    (hi : i.rstI = false) (hslave : NeverStalls i) (hst : s.stateR ≠ .idle)
    (hnext : nextStateW P i s ≠ .idle) : remaining P (step P i s) < remaining P s := by
  have hstate := step_stateR (P := P) hrst hi
  have haddr := step_addrR (P := P) hrst hi
  have hbeat := step_beatR (P := P) hrst hi
  cases hcase : s.stateR with
  | idle => exact absurd hcase hst
  | setAddrAwaitAck =>
      have hstate' : (step P i s).stateR = .setDataAwaitAck := by
        rw [hstate]
        simp [nextStateW, hcase, hslave.awready]
      have haddr' : (step P i s).addrR = s.addrR := by
        rw [haddr]
        simp [nextAddrW, hcase]
      have hbeat' : (step P i s).beatR = 0#5 := by
        rw [hbeat]
        simp [nextBeatW, hcase, beatBase]
      simp [remaining, burstsLeft, haddr', burstRemaining, hstate', hcase, hbeat', burstLen]
  | setDataAwaitAck =>
      have haddr' : (step P i s).addrR = s.addrR := by
        rw [haddr]
        simp [nextAddrW, hcase]
      have hbeat' : (step P i s).beatR = s.beatR + 1#5 := by
        rw [hbeat]
        simp [nextBeatW, hcase, hslave.wready]
      simp only [remaining, burstsLeft, haddr']
      apply Nat.add_lt_add_left
      by_cases hlast : lastBeat s = true
      · have hstate' : (step P i s).stateR = .awaitResp := by
          rw [hstate]
          simp [nextStateW, hcase, hslave.wready, hlast]
        simp [burstRemaining, hstate', hcase]
      · have hstate' : (step P i s).stateR = .setDataAwaitAck := by
          rw [hstate]
          simp [nextStateW, hcase, hlast]
        have hne : s.beatR ≠ 15#5 := by
          simpa [lastBeat, burstLen] using hlast
        simp only [burstRemaining, hstate', hcase, hbeat', burstLen]
        bv_omega
  | awaitResp =>
      have hmore : ¬P.finalWriteAddr < s.addrR + addrInc := by
        intro hdone
        simp [nextStateW, hcase, hslave.bvalid, hslave.okay, hdone] at hnext
      have hstate' : (step P i s).stateR = .setAddrAwaitAck := by
        rw [hstate]
        simp [nextStateW, hcase, hslave.bvalid, hslave.okay, hmore]
      have haddr' : (step P i s).addrR = s.addrR + addrInc := by
        rw [haddr]
        simp [nextAddrW, hcase, hslave.bvalid, hslave.okay]
      have hle : (s.addrR + addrInc).toNat ≤ P.finalWriteAddr.toNat := by
        simpa [BitVec.lt_def] using hmore
      have hadd : (s.addrR + addrInc + addrInc).toNat = (s.addrR + addrInc).toNat + 128 := by
        rw [BitVec.toNat_add]
        exact Nat.mod_eq_of_lt (by simp only [addrInc, BitVec.toNat_ofNat] at hle ⊢; omega)
      have hfewer : burstsLeft P (step P i s) < burstsLeft P s := by
        rw [burstsLeft, burstsLeft, haddr', if_neg hmore]
        split_ifs with hdone
        · omega
        · have hle' : (s.addrR + addrInc + addrInc).toNat ≤ P.finalWriteAddr.toNat := by
            simpa [BitVec.lt_def] using hdone
          omega
      simp only [remaining, burstRemaining, hstate', hcase]
      omega

end DmaController

/-! ## Schedules of one clock -/

namespace PdhTop

open Clocked

variable {P : Params}

/-- An idle pair of converters. -/
def quietAdc : Adc where
  adcDatAI := 0#14
  adcDatBI := 0#14

/-- A slave that accepts everything at once. -/
def readySlave : Slave where
  mAxiAwready := true
  mAxiWready := true
  mAxiBvalid := true
  mAxiBresp := DmaController.respOkay

section

variable (rom : Nco.Rom)

/-- Edges of {lit}`pdh_clk` bring every capture to its last address. -/
theorem capture_ends (hdepth : P.bram.depth = 2 ^ P.bram.aw) (s : State P)
    (hrst : PdhCore.rstBit s.axiFromPs = false) (hbram : s.uBram.rst = .released)
    (hst : s.uBram.stateR = .captureData) :
    ∃ n, (∀ k < n, BramController.lastAddr
        (run (step rom) s (fun _ => .pdhClk quietAdc) k).uBram = false) ∧
      BramController.lastAddr
        (run (step rom) s (fun _ => .pdhClk quietAdc) n).uBram = true := by
  induction hsize : BramController.remaining s.uBram using Nat.strong_induction_on
    generalizing s with
  | h size ih =>
      cases hlast : BramController.lastAddr s.uBram with
      | true => exact ⟨0, fun k hk => absurd hk (Nat.not_lt_zero k), hlast⟩
      | false =>
          have hi : (bramInput s).rstI = false := hrst
          have hless := BramController.remaining_step hdepth hbram hi hst hlast
          have hstep := BramController.step_capturing hbram hi hst hlast
          rcases ih _ (by rw [← hsize]; exact hless) (pdhEdge rom quietAdc s) hrst
            (by simp [pdhEdge, hstep, hbram]) (by simp [pdhEdge, hstep]) rfl with ⟨n, hbefore, hend⟩
          refine ⟨n + 1, ?_, ?_⟩
          · intro k hk
            cases k with
            | zero => exact hlast
            | succ k =>
                rw [run_const_succ]
                exact hbefore k (by omega)
          · rw [run_const_succ]
            exact hend

/-- Edges of {lit}`fclk0` bring every transfer to its last response. -/
theorem transfer_ends (hP : P.dma.finalWriteAddr.toNat + 128 < 2 ^ 32) (s : State P)
    (hrst : PdhCore.rstBit s.axiFromPs = false) (hdma : s.uDma.rst = .released)
    (hst : s.uDma.stateR ≠ .idle) :
    ∃ n, (∀ k < n, lastResponse readySlave
        (run (step rom) s (fun _ => .fclk0 readySlave) k) = false) ∧
      lastResponse readySlave
        (run (step rom) s (fun _ => .fclk0 readySlave) n) = true := by
  induction hsize : DmaController.remaining P.dma s.uDma using Nat.strong_induction_on
    generalizing s with
  | h size ih =>
      cases hlast : lastResponse readySlave s with
      | true => exact ⟨0, fun k hk => absurd hk (Nat.not_lt_zero k), hlast⟩
      | false =>
          have hslave : DmaController.NeverStalls
              ((readOutInput readySlave s).toDma s.readOut.rdata) := ⟨rfl, rfl, rfl, rfl⟩
          have hi : ((readOutInput readySlave s).toDma s.readOut.rdata).rstI = false := hrst
          have hnext : DmaController.nextStateW P.dma
              ((readOutInput readySlave s).toDma s.readOut.rdata) s.uDma ≠ .idle := by
            simpa [lastResponse] using hlast
          have hless := DmaController.remaining_step hP hdma hi hslave hst hnext
          have hlive := DmaController.step_live P.dma hdma hi
          rcases ih _ (by rw [← hsize]; exact hless) (fclkEdge readySlave s) hrst
            (by simp [fclkEdge, ReadOut.step, hlive])
            (by simp [fclkEdge, ReadOut.step, hlive, hnext]) rfl with ⟨n, hbefore, hend⟩
          refine ⟨n + 1, ?_, ?_⟩
          · intro k hk
            cases k with
            | zero => exact hlast
            | succ k =>
                rw [run_const_succ]
                exact hbefore k (by omega)
          · rw [run_const_succ]
            exact hend

end

/-! ## Reaching a control state -/

/-- A piece of a run without reset along which {lit}`ok` holds of the control
registers. -/
def Reaches (ok : Control → Event → Bool) (rom : Nco.Rom) (s s' : State P) : Prop :=
  Leads (step rom) (fun s e => e.NoReset ∧ ok (control s) e = true) s s'

/-- The control state after an event, where the datapath has no say. -/
def Control.next (c : Control) : Event → Option Control
  | .gpioWrite w => if PdhCore.rstBit w then none else some { c with axiFromPs := w }
  | .pdhClk _ => if c.capturing then none else some (c.pdhEdge false)
  | .fclk0 _ => if c.transferring then none else some (c.fclkEdge false)
  | .bothClk _ _ => none

/-- The control state after a schedule, where the datapath has no say and
{lit}`ok` holds along it. -/
def Control.follow (ok : Control → Event → Bool) (c : Control) : List Event → Option Control
  | [] => some c
  | e :: es => if ok c e then (c.next e).bind fun c => Control.follow ok c es else none

theorem noReset_pdhClk (adc : Adc) : (Event.pdhClk adc).NoReset :=
  trivial

theorem noReset_fclk0 (slave : Slave) : (Event.fclk0 slave).NoReset :=
  trivial

section Reaches

variable {ok : Control → Event → Bool} (rom : Nco.Rom) {s : State P}
  (hrst : PdhCore.rstBit s.axiFromPs = false)

theorem Reaches.refl (s : State P) : Reaches ok rom s s :=
  ⟨fun _ => .pdhClk quietAdc, 0, fun _ hk => absurd hk (Nat.not_lt_zero _), rfl⟩

include hrst

theorem control_of_next {c : Control} {e : Event} (h : (control s).next e = some c) :
    e.NoReset ∧ control (step rom e s) = c := by
  cases e with
  | gpioWrite w =>
      simp only [Control.next] at h
      split_ifs at h with hw
      have hw' : (Event.gpioWrite w).NoReset := eq_false_of_ne_true hw
      exact ⟨hw', by rw [control_step hrst rom hw']; exact Option.some.inj h⟩
  | pdhClk adc =>
      simp only [Control.next] at h
      split_ifs at h with hcapturing
      refine ⟨noReset_pdhClk adc, ?_⟩
      rw [control_step hrst rom (noReset_pdhClk adc), ← Option.some.inj h]
      simp [tick, Control.step, Control.pdhEdge, Control.nextCapturing, hcapturing]
  | fclk0 slave =>
      simp only [Control.next] at h
      split_ifs at h with htransferring
      refine ⟨noReset_fclk0 slave, ?_⟩
      rw [control_step hrst rom (noReset_fclk0 slave), ← Option.some.inj h]
      simp [tick, Control.step, Control.fclkEdge, Control.nextTransferring, htransferring]
  | bothClk adc slave => cases h

/-- A schedule that the control registers can follow is carried out. -/
theorem reaches_of_follow {c : Control} {es : List Event}
    (h : (control s).follow ok es = some c) :
    ∃ s', Reaches ok rom s s' ∧ PdhCore.rstBit s'.axiFromPs = false ∧ control s' = c := by
  induction es generalizing s with
  | nil => exact ⟨s, .refl rom s, hrst, Option.some.inj h⟩
  | cons e es ih =>
      simp only [Control.follow] at h
      split_ifs at h with hok
      rcases Option.bind_eq_some_iff.mp h with ⟨c', hnext, hrest⟩
      obtain ⟨he, hcontrol⟩ := control_of_next rom hrst hnext
      rw [← hcontrol] at hrest
      rcases ih (rstBit_step rom he hrst) hrest with ⟨s', hreach, hbit, hend⟩
      exact ⟨s', (Leads.single ⟨he, hok⟩).trans hreach, hbit, hend⟩

/-- One event again and again, as long as it does the same to the control
registers. -/
theorem reaches_repeat {e : Event} {f : Control → Control} (he : e.NoReset)
    (hok : ∀ k, ok (f^[k] (control s)) e = true) {n : ℕ}
    (hstep : ∀ k < n, (control (run (step rom) s (fun _ => e) k)).step
        (tick (run (step rom) s (fun _ => e) k) e) =
      f (control (run (step rom) s (fun _ => e) k))) :
    Reaches ok rom s (run (step rom) s (fun _ => e) n) ∧
      PdhCore.rstBit (run (step rom) s (fun _ => e) n).axiFromPs = false ∧
      control (run (step rom) s (fun _ => e) n) = f^[n] (control s) := by
  have hbit := rstBit_run rom hrst (fun _ => he)
  have hall : ∀ k ≤ n, control (run (step rom) s (fun _ => e) k) = f^[k] (control s) := by
    intro k hk
    induction k with
    | zero => rfl
    | succ k ih =>
        rw [run_succ, control_step (hbit k) rom he, hstep k hk, ih (Nat.le_of_lt hk),
          Function.iterate_succ_apply']
  refine ⟨⟨fun _ => e, n, fun k hk => ⟨he, ?_⟩, rfl⟩, hbit n, hall n (Nat.le_refl n)⟩
  rw [hall k (Nat.le_of_lt hk)]
  exact hok k

/-- One event again and again, until it does something else. -/
theorem reaches_until {e : Event} {f g : Control → Control} (he : e.NoReset)
    (hok : ∀ k, ok (f^[k] (control s)) e = true) {n : ℕ}
    (hstep : ∀ k < n, (control (run (step rom) s (fun _ => e) k)).step
        (tick (run (step rom) s (fun _ => e) k) e) =
      f (control (run (step rom) s (fun _ => e) k)))
    (hend : (control (run (step rom) s (fun _ => e) n)).step
        (tick (run (step rom) s (fun _ => e) n) e) =
      g (control (run (step rom) s (fun _ => e) n))) :
    ∃ s', Reaches ok rom s s' ∧ PdhCore.rstBit s'.axiFromPs = false ∧
      control s' = g (f^[n] (control s)) := by
  obtain ⟨hreach, hbit, hcontrol⟩ := reaches_repeat rom hrst he hok hstep
  refine ⟨_, hreach.trans (Leads.single ⟨he, ?_⟩), rstBit_step rom he hbit, ?_⟩
  · rw [hcontrol]
    exact hok n
  · rw [control_step hbit rom he, hend, hcontrol]

/-- A capture is carried out to its end. -/
theorem reaches_capture (hdepth : P.bram.depth = 2 ^ P.bram.aw)
    (hbram : (control s).bramRst = .released) (hst : (control s).capturing = true)
    (hok : ∀ k, ok ((Control.pdhEdge false)^[k] (control s)) (.pdhClk quietAdc) = true) :
    ∃ n s', Reaches ok rom s s' ∧ PdhCore.rstBit s'.axiFromPs = false ∧
      control s' = ((Control.pdhEdge false)^[n] (control s)).pdhEdge true := by
  rcases capture_ends rom hdepth s hrst hbram (eq_of_beq hst) with ⟨n, hbefore, hend⟩
  refine ⟨n, reaches_until rom hrst (noReset_pdhClk quietAdc) hok (fun k hk => ?_) ?_⟩
  · rw [tick, hbefore k hk]
    rfl
  · rw [tick, hend]
    rfl

/-- A transfer is carried out to its end. -/
theorem reaches_transfer (hP : P.dma.finalWriteAddr.toNat + 128 < 2 ^ 32)
    (hdma : (control s).dmaRst = .released) (hst : (control s).transferring = true)
    (hok : ∀ k, ok ((Control.fclkEdge false)^[k] (control s)) (.fclk0 readySlave) = true) :
    ∃ n s', Reaches ok rom s s' ∧ PdhCore.rstBit s'.axiFromPs = false ∧
      control s' = ((Control.fclkEdge false)^[n] (control s)).fclkEdge true := by
  rcases transfer_ends rom hP s hrst hdma (bne_iff_ne.mp hst) with ⟨n, hbefore, hend⟩
  refine ⟨n, reaches_until rom hrst (noReset_fclk0 readySlave) hok (fun k hk => ?_) ?_⟩
  · rw [tick, hbefore k hk]
    rfl
  · rw [tick, hend]
    rfl

end Reaches

end PdhTop

end PoundDreverHall
