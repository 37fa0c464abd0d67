import PoundDreverHall.Requests.Words

/-!
# Requests - switching the controller on

`cmd_set_pid` writes eleven registers one after the other while the core clocks on.
The enable is the eighth write; gain, bias and input gain follow it.

Main results:

- Theorem {lit}`cmdSetPid_emits`: the words of a request.
- Theorem {lit}`holds_after`: a register holds the value of the request from its
  write on.
- Theorem {lit}`switchOn_iff`: the controller runs on the requested values alone if and
  only if the registers written after the enable held them before.
-/

namespace PoundDreverHall
namespace Requests

open Clocked Device Server PdhCore

/-! ## The writes of a request -/

/-- The order in which `cmd_set_pid` writes the registers. -/
def pidOrder : List PidCoeffSelE :=
  [.kp, .kd, .ki, .dec, .sp, .alpha, .sat, .en, .gain, .bias, .egain]

/-- The payload of the write to each register. -/
def pidPayload (q : PidRequest) : PidCoeffSelE → BitVec 16
  | .kp => q.kpI
  | .kd => q.kdI
  | .ki => q.kiI
  | .dec => q.dec.setWidth 16
  | .sp => q.spI
  | .alpha => q.alpha.setWidth 16
  | .sat => q.sat.setWidth 16
  | .en => q.en.setWidth 16
  | .gain => q.gainI
  | .bias => q.biasI
  | .egain => q.egainI

/-- The word that writes a register of the request. -/
def pidWrite (q : PidRequest) (sel : PidCoeffSelE) : BitVec 32 :=
  setPidWord sel (pidPayload q sel)

section Emits

variable {F : Type} [SinglePrecision F]

theorem setPidInt16_emits (sel : PidCoeffSelE) (value : BitVec 16) (scale : ℚ) (name : String)
    (fail : SetPidE) (r : Reply F) :
    Program.Emits Call.sent (setPidInt16 sel value scale name fail r)
      (strobed (setPidWord sel value)) :=
  .bind_pure (pdhExecuteCmd_emits _) _

omit [SinglePrecision F] in
theorem setPidUint_emits (sel : PidCoeffSelE) (value : BitVec 32) (name : String)
    (fail : SetPidE) (r : Reply F) :
    Program.Emits Call.sent (setPidUint sel value name fail r)
      (strobed (setPidWord sel (value.setWidth 16))) :=
  .bind_pure (pdhExecuteCmd_emits _) _

/-- A request sends its writes, each strobed once, whatever the callbacks are. -/
theorem cmdSetPid_emits (ctx : CmdCtx F) :
    Program.Emits Call.sent (cmdSetPid ctx)
      ((pidOrder.map (pidWrite (.ofCtx ctx))).flatMap strobed) := by
  refine .bind (setPidInt16_emits _ _ _ _ _ _) fun _ => ?_
  refine .bind (setPidInt16_emits _ _ _ _ _ _) fun _ => ?_
  refine .bind (setPidInt16_emits _ _ _ _ _ _) fun _ => ?_
  refine .bind (setPidUint_emits _ _ _ _ _) fun _ => ?_
  refine .bind (setPidInt16_emits _ _ _ _ _ _) fun _ => ?_
  refine .bind (setPidUint_emits _ _ _ _ _) fun _ => ?_
  refine .bind (setPidUint_emits _ _ _ _ _) fun _ => ?_
  refine .bind (setPidUint_emits _ _ _ _ _) fun _ => ?_
  refine .bind (setPidInt16_emits _ _ _ _ _ _) fun _ => ?_
  exact .bind (setPidInt16_emits _ _ _ _ _ _) fun _ => setPidInt16_emits _ _ _ _ _ _

end Emits

/-! ## Registers along a request -/

/-- A register holds the value of the request. -/
def Holds (q : PidRequest) (r : Regs) : PidCoeffSelE → Prop
  | .kp => r.kpR = q.kpI
  | .kd => r.kdR = q.kdI
  | .ki => r.kiR = q.kiI
  | .dec => r.decR = q.dec.setWidth 14
  | .sp => r.spR = q.spI.setWidth 14
  | .alpha => r.alphaR = q.alpha.setWidth 4
  | .sat => r.satwidthR = q.sat.setWidth 5
  | .en => r.pidEnableR = q.en.getLsbD 0
  | .gain => r.gainR = q.gainI
  | .bias => r.biasR = -q.biasI.setWidth 14
  | .egain => r.egainR = q.egainI

/-- The ten registers besides the enable hold the values of the request. -/
def Encodes (q : PidRequest) (r : Regs) : Prop :=
  ∀ sel, sel ≠ .en → Holds q r sel

/-- If the controller is enabled, it runs on the values of the request. -/
def RunsOn (q : PidRequest) (r : Regs) : Prop :=
  r.pidEnableR = true → Encodes q r

section Writes

variable (q : PidRequest) (r : Regs)

/-- A write sets its register and no other. -/
theorem holds_writePid (sel sel' : PidCoeffSelE) :
    Holds q (writePid sel' (pidPayload q sel') r) sel ↔ sel = sel' ∨ Holds q r sel := by
  cases sel <;> cases sel' <;> simp [Holds, writePid, pidPayload]

/-- After some writes of the request, a register holds its value if it was written or
held it before. -/
theorem holds_foldl (sels : List PidCoeffSelE) (sel : PidCoeffSelE) :
    Holds q ((sels.map (pidWrite q)).foldl (fun r w => execRegs w r) r) sel ↔
      sel ∈ sels ∨ Holds q r sel := by
  induction sels generalizing r with
  | nil => simp
  | cons sel' sels ih =>
      rw [List.map_cons, List.foldl_cons, ih, pidWrite, execRegs_setPidWord, holds_writePid,
        List.mem_cons]
      tauto

theorem holds_after (k : ℕ) (sel : PidCoeffSelE) :
    Holds q (after execRegs (pidOrder.map (pidWrite q)) r k) sel ↔
      sel ∈ pidOrder.take k ∨ Holds q r sel := by
  rw [after, ← List.map_take, holds_foldl]

end Writes

/-- The enable comes after seven writes and before the last three. -/
theorem lt_of_en_mem_take {k : ℕ} (h : .en ∈ pidOrder.take k) : 7 < k := by
  by_contra hk
  have hinit : pidOrder.take k <+: pidOrder.take 7 := List.take_prefix_take_left (by omega)
  have hmem := hinit.subset h
  simp [pidOrder] at hmem

/-- From registers that are not enabled on other values, the writes of a request keep
it so if and only if the last three registers hold its values already. -/
theorem runsOn_after_iff {q : PidRequest} {r : Regs} (hen : q.en = 1#32) (hr : RunsOn q r) :
    (∀ k, RunsOn q (after execRegs (pidOrder.map (pidWrite q)) r k)) ↔
      Holds q r .gain ∧ Holds q r .bias ∧ Holds q r .egain := by
  have henabled : ∀ r, Holds q r .en ↔ r.pidEnableR = true := by
    intro r
    rw [Holds, hen]
    rfl
  constructor
  · intro h
    -- right after the write of the enable
    have hwritten : Holds q (after execRegs (pidOrder.map (pidWrite q)) r 8) .en :=
      (holds_after q r 8 .en).mpr (.inl (by simp [pidOrder]))
    have hencodes := h 8 ((henabled _).mp hwritten)
    have hlast : ∀ sel, sel ≠ .en → sel ∉ pidOrder.take 8 → Holds q r sel := by
      intro sel hsel hmem
      exact ((holds_after q r 8 sel).mp (hencodes sel hsel)).resolve_left hmem
    exact ⟨hlast .gain (by simp) (by simp [pidOrder]), hlast .bias (by simp) (by simp [pidOrder]),
      hlast .egain (by simp) (by simp [pidOrder])⟩
  · rintro ⟨hgain, hbias, hegain⟩ k hrun sel hsel
    rw [holds_after]
    rcases (holds_after q r k .en).mp ((henabled _).mpr hrun) with hwritten | hbefore
    · have hinit : pidOrder.take 7 <+: pidOrder.take k :=
        List.take_prefix_take_left (Nat.le_of_lt (lt_of_en_mem_take hwritten))
      cases sel with
      | en => exact absurd rfl hsel
      | gain => exact .inr hgain
      | bias => exact .inr hbias
      | egain => exact .inr hegain
      | _ => exact .inl (hinit.subset (by simp [pidOrder]))
    · exact .inr (hr ((henabled r).mp hbefore) sel hsel)

/-! ## Switching on -/

/-- The registers once the commands that are pending have been executed. -/
def settledRegs (s : State) : Regs :=
  after execRegs (pending s.latch) s.regs (pending s.latch).length

/-- The clock periods in which the writes of a request are carried. -/
theorem runsOn_run_iff (rom : Nco.Rom) {s : State} (hs : Reachable rom s) {q : PidRequest}
    (hen : q.en = 1#32) {ins : ℕ → Input}
    (hcarries : Carries (busWords ins) ((pidOrder.map (pidWrite q)).flatMap strobed)) :
    (∀ n, RunsOn q (run (step rom) s ins n).regs) ↔
      (∀ k, RunsOn q (after execRegs (pending s.latch) s.regs k)) ∧
        Holds q (settledRegs s) .gain ∧ Holds q (settledRegs s) .bias ∧
          Holds q (settledRegs s) .egain := by
  have hrst : ∀ w ∈ (pidOrder.map (pidWrite q)).flatMap strobed, rstBit w = false := by
    refine rstBit_of_mem_strobed fun c hc => ?_
    rcases List.mem_map.mp hc with ⟨sel, -, rfl⟩
    exact rstBit_setPidWord sel _
  rw [forall_regs_iff (Q := RunsOn q) rom hs hcarries hrst (strobeBit_strobe 0#1 _)]
  change (∀ k, RunsOn q (after execRegs (pending s.latch ++
    risingWords ((pidOrder.map (pidWrite q)).flatMap strobed)) s.regs k)) ↔ _
  rw [forall_after_append, risingWords_strobed]
  refine and_congr_right fun hpending => ?_
  simp only [after_strobed]
  exact runsOn_after_iff hen (hpending _)

/-- In the clock periods of a request that switches the controller on, the controller
runs on the values of the request alone if and only if no pending command enables it on
other values, and gain, bias and input gain are the requested ones already. -/
theorem switchOn_iff {F : Type} [SinglePrecision F] (rom : Nco.Rom) (s : State)
    (hs : Reachable rom s) (ctx : CmdCtx F) (hen : ctx.uintArgs 3 = 1#32)
    (tr : List ((c : Call) × c.Response)) (reply : Reply F)
    (hrun : Program.Performs (cmdSetPid ctx) tr reply) (ins : ℕ → Input)
    (hcarries : Carries (busWords ins) (Program.shown Call.sent tr)) :
    (∀ n, (run (step rom) s ins n).regs.pidEnableR = true →
        Encodes (.ofCtx ctx) (run (step rom) s ins n).regs) ↔
      (∀ k, RunsOn (.ofCtx ctx) (after execRegs (pending s.latch) s.regs k)) ∧
        Holds (.ofCtx ctx) (settledRegs s) .gain ∧ Holds (.ofCtx ctx) (settledRegs s) .bias ∧
          Holds (.ofCtx ctx) (settledRegs s) .egain := by
  rw [cmdSetPid_emits ctx tr reply hrun] at hcarries
  exact runsOn_run_iff rom hs hen hcarries

/-- A request for an output gain of 2, everything else at its value after reset. -/
def doubleGainCtx : CmdCtx ℚ where
  floatArgs := fun i => if i = 4 then 2 else if i = 6 then 1 else 0
  uintArgs := fun i => [1#32, 4#32, 31#32, 1#32].getD i 0#32
  numFloats := 7
  numFloats_le := by omega

/-- The run of the request for a double gain right after reset. -/
theorem exists_doubleGain_run (rom : Nco.Rom) :
    ∃ p tr ins, ∃ reply : Reply ℚ, Reachable rom (afterReset p) ∧
      Program.Performs (cmdSetPid doubleGainCtx) tr reply ∧
        Carries (busWords ins) (Program.shown Call.sent tr) := by
  rcases exists_reachable_afterReset rom with ⟨p, hp⟩
  rcases Program.exists_performs (fun c : Call => (default : c.Response))
    (cmdSetPid doubleGainCtx) with ⟨tr, reply, h⟩
  have hwords := cmdSetPid_emits doubleGainCtx tr reply h
  have hne : Program.shown Call.sent tr ≠ [] := by
    rw [hwords]
    exact List.cons_ne_nil _ _
  rcases exists_carries hne with ⟨x, hx⟩
  exact ⟨p, tr, fun n => ⟨x n, 0#14, 0#14, true, true⟩, reply, hp, h, hx⟩

/-- The equivalence for the request for a double gain right after reset. -/
theorem switchOn_iff_doubleGain :
    ∃ (s : State) (tr : List ((c : Call) × c.Response)) (reply : Reply ℚ) (ins : ℕ → Input),
      Program.Performs (cmdSetPid doubleGainCtx) tr reply ∧
      Carries (busWords ins) (Program.shown Call.sent tr) ∧
      ((∀ n, (run (step fun _ => 0#16) s ins n).regs.pidEnableR = true →
          Encodes (.ofCtx doubleGainCtx) (run (step fun _ => 0#16) s ins n).regs) ↔
        (∀ k, RunsOn (.ofCtx doubleGainCtx) (after execRegs (pending s.latch) s.regs k)) ∧
          Holds (.ofCtx doubleGainCtx) (settledRegs s) .gain ∧
            Holds (.ofCtx doubleGainCtx) (settledRegs s) .bias ∧
              Holds (.ofCtx doubleGainCtx) (settledRegs s) .egain) := by
  rcases exists_doubleGain_run (fun _ => 0#16) with ⟨p, tr, ins, reply, hp, hrun, hcarries⟩
  exact ⟨afterReset p, tr, reply, ins, hrun, hcarries,
    switchOn_iff (fun _ => 0#16) (afterReset p) hp doubleGainCtx rfl tr reply hrun ins hcarries⟩

/-- After reset, the controller is switched on with the gain that reset left. -/
theorem doubleGain_enabled_on_oldGain :
    ∃ (s : State) (tr : List ((c : Call) × c.Response)) (reply : Reply ℚ) (ins : ℕ → Input),
      Reachable (fun _ => 0#16) s ∧ s.regs.pidEnableR = false ∧
      Program.Performs (cmdSetPid doubleGainCtx) tr reply ∧
      Carries (busWords ins) (Program.shown Call.sent tr) ∧
      ∃ n, (run (step fun _ => 0#16) s ins n).regs.pidEnableR = true ∧
        ¬Encodes (.ofCtx doubleGainCtx) (run (step fun _ => 0#16) s ins n).regs := by
  rcases exists_doubleGain_run (fun _ => 0#16) with ⟨p, tr, ins, reply, hp, hrun, hcarries⟩
  refine ⟨afterReset p, tr, reply, ins, hp, rfl, hrun, hcarries, ?_⟩
  rw [cmdSetPid_emits doubleGainCtx tr reply hrun] at hcarries
  by_contra hnever
  have hruns : ∀ n, RunsOn (.ofCtx doubleGainCtx)
      (run (step fun _ => 0#16) (afterReset p) ins n).regs := by
    intro n hen
    by_contra hmixed
    exact hnever ⟨n, hen, hmixed⟩
  have hgain := ((runsOn_run_iff (fun _ => 0#16) hp rfl hcarries).mp hruns).2.1
  have hold : (settledRegs (afterReset p)).gainR = 1024#16 := by
    change (after execRegs (pending .reset) .reset (pending .reset).length).gainR = 1024#16
    decide +kernel
  have hnew : (PidRequest.ofCtx doubleGainCtx).gainI = 2048#16 := by decide +kernel
  rw [Holds, hold, hnew] at hgain
  exact absurd hgain (by decide)

end Requests
end PoundDreverHall
