import PoundDreverHall.Device.Throughout
import PoundDreverHall.Requests.FirInstall
import PoundDreverHall.Requests.Session

/-!
# Requests - requests that are underway

A handler writes its registers one after the other, and the loop runs on whatever they hold.  Most
requests take effect with a single command.  The settings of the controller are new one by one, the
oscillator is switched off while its parameters change, and a ramp is a sequence of voltages.

Main results:

- Definition {lit}`Underway`: the settings that can be in force while a handler runs.
- Theorem {lit}`handler_underway`: no others are in force.
-/

namespace PoundDreverHall
namespace Requests

open Clocked Device Device.Program Server PdhCore SinglePrecision MixedPrecision

/-! ## Settings in between -/

/-- The settings of the controller after a write of one of its registers. -/
def PidSettings.put (new old : PidSettings) : PidCoeffSelE → PidSettings
  | .kp => { old with kp := new.kp }
  | .kd => { old with kd := new.kd }
  | .ki => { old with ki := new.ki }
  | .dec => { old with dec := new.dec }
  | .sp => { old with sp := new.sp }
  | .alpha => { old with alpha := new.alpha }
  | .sat => { old with sat := new.sat }
  | .en => { old with en := new.en }
  | .gain => { old with gain := new.gain }
  | .bias => { old with bias := new.bias }
  | .egain => { old with egain := new.egain }

section Underway

variable {F : Type} [MixedPrecision F]

/-- The settings that can be in force while a handler runs, from the settings {lit}`s`. -/
def Underway (stack : BitVec 32) (ctx : CmdCtx F) (s x : Settings) : Handler → Prop
  | .setPid =>
      ∃ k, x = { s with
        pid := (pidOrder.take k).foldl (PidSettings.put (PidRequest.settings (.ofCtx ctx))) s.pid }
  | .setNco =>
      x = s ∨ x = s.apply stack ctx true .setNco ∨
        ncoArgsCode ctx = .ok ∧ ∃ tuple, x = { s with nco := tuple, ncoEn := false }
  | .sweepRamp =>
      x = s ∨ rampArgsCode ctx = .ok ∧
        (x = { s with dac1DatSel := 0#3 } ∨
          ∃ i < (ctx.uintArgs 0).toNat, ∃ routing, (routing = 0#3 ∨ routing = s.dac1DatSel) ∧
            x = { s.setDac (rampDac ctx) (stepCode ctx i) with dac1DatSel := routing })
  | h => x = s ∨ x = s.apply stack ctx true h

end Underway

/-! ## Beginnings of a sequence of commands -/

/-- The words of some strobed commands, up to any of them. -/
theorem config_strobed_prefix {cmds : List (BitVec 32)} (hrst : ∀ c ∈ cmds, rstBit c = false)
    (b : Board) {words : List (BitVec 32)} (h : words <+: cmds.flatMap strobed) :
    ∃ k, (words.foldl (fun b w => b.send w) b).config =
      (cmds.take k).foldl (fun c w => exec w c) b.config := by
  induction cmds generalizing b words with
  | nil =>
      rw [List.prefix_nil.mp h]
      exact ⟨0, rfl⟩
  | cons c cmds ih =>
      have hc : rstBit c = false := hrst c List.mem_cons_self
      rw [List.flatMap_cons, strobed, List.cons_append, List.cons_append, List.nil_append] at h
      rcases words with _ | ⟨low, _ | ⟨high, words⟩⟩
      · exact ⟨0, rfl⟩
      · refine ⟨0, ?_⟩
        rw [(List.cons_prefix_cons.mp h).1, List.foldl_cons, List.foldl_nil, send_low hc]
        rfl
      · rcases List.cons_prefix_cons.mp h with ⟨hlow, hhigh⟩
        rcases List.cons_prefix_cons.mp hhigh with ⟨hhigh, hwords⟩
        rcases ih (fun c' hc' => hrst c' (List.mem_cons_of_mem c hc'))
          ((strobed c).foldl (fun b w => b.send w) b) hwords with ⟨k, hk⟩
        refine ⟨k + 1, ?_⟩
        have hconfig : ((strobed c).foldl (fun b w => b.send w) b).config = exec c b.config := by
          rw [send_strobed hc, exec_strobe]
        rw [hconfig] at hk
        rw [List.take_succ_cons, hlow, hhigh]
        exact hk

/-- What a routine that sends strobed commands can be interrupted in. -/
theorem throughout_of_emits {α : Type} {p : Routine α} {cmds : List (BitVec 32)}
    (hrst : ∀ c ∈ cmds, rstBit c = false) (h : Emits Call.sent p (cmds.flatMap strobed))
    {P : Board → Prop} {I : Config → Prop}
    (hI : ∀ b, P b → ∀ k, I ((cmds.take k).foldl (fun c w => exec w c) b.config)) :
    Throughout board P p fun b => I b.config := by
  intro b tr a tr₁ tr₂ b₁ hP hrun hsplit hfollows
  have hprefix : shown Call.sent tr₁ <+: cmds.flatMap strobed := by
    rw [← h tr a hrun, hsplit, shown, shown, List.flatMap_append]
    exact List.prefix_append _ _
  rcases config_strobed_prefix hrst b hprefix with ⟨k, hk⟩
  rw [follows_board_sent hfollows, hk]
  exact hI b hP k

/-- Of some commands, only one changes the settings. -/
theorem settings_take {front back : List (BitVec 32)} {w : BitVec 32}
    (hfront : ∀ v ∈ front, ∀ c, settingsOf (exec v c) = settingsOf c)
    (hback : ∀ v ∈ back, ∀ c, settingsOf (exec v c) = settingsOf c) (c : Config) (k : ℕ) :
    settingsOf (((front ++ w :: back).take k).foldl (fun c w => exec w c) c) = settingsOf c ∨
      settingsOf (((front ++ w :: back).take k).foldl (fun c w => exec w c) c) =
        settingsOf ((front ++ w :: back).foldl (fun c w => exec w c) c) := by
  have hkeep : ∀ cmds : List (BitVec 32),
      (∀ v ∈ cmds, ∀ c, settingsOf (exec v c) = settingsOf c) → ∀ c,
      settingsOf (cmds.foldl (fun c w => exec w c) c) = settingsOf c := by
    intro cmds hcmds c
    exact settingsOf_foldl (fun s (_ : Unit) => s) (fun v hv c _ => hcmds v hv c) c ()
  rcases le_or_gt k front.length with hk | hk
  · left
    rw [List.take_append_of_le_length hk]
    exact hkeep _ (fun v hv => hfront v (List.mem_of_mem_take hv)) c
  · right
    obtain ⟨j, rfl⟩ := Nat.exists_eq_add_of_lt hk
    rw [Nat.add_assoc, List.take_length_add_append, List.take_succ_cons, List.foldl_append,
      List.foldl_append, List.foldl_cons, List.foldl_cons, hkeep back hback,
      hkeep _ fun v hv => hback v (List.mem_of_mem_take hv)]

/-! ## The handlers -/

section Handlers

variable {F : Type} [MixedPrecision F] {stack : BitVec 32} {ctx : CmdCtx F} {s : Settings}

/-- Whether the log of a ramp can be opened only matters to a ramp. -/
theorem apply_opened {h : Handler} (hne : h ≠ .sweepRamp) (opened opened' : Bool) :
    s.apply stack ctx opened h = s.apply stack ctx opened' h := by
  cases h with
  | sweepRamp => exact absurd rfl hne
  | _ => rfl

/-- The effect of a handler on the registers is that of its request on the settings. -/
theorem settings_of_configures {h : Handler} (hne : h ≠ .sweepRamp) {f : Config → Config}
    (hf : Configures (h.run stack ctx) f) (c : Config) :
    settingsOf (f c) = (settingsOf c).apply stack ctx true h := by
  rcases exists_run exists_boardNoFiles (h.run stack ctx) ⟨c, 0#32, 0#32⟩ with
    ⟨tr, reply, b', hrun, hnoFiles⟩
  have hfollows : Follows board ⟨c, 0#32, 0#32⟩ tr b' := hnoFiles.imp fun _ _ _ _ h => h.1
  rw [← hf c _ tr reply b' rfl hrun hfollows, apply_opened hne true (fileOpened "sweep_log.csv" tr)]
  exact handler_settings h hrun hfollows

/-- A handler with one command that changes the settings. -/
theorem throughout_once (h : Handler) (hne : h ≠ .sweepRamp) {front back : List (BitVec 32)}
    {w : BitVec 32} (hrst : ∀ c ∈ front ++ w :: back, rstBit c = false)
    (hemits : Emits Call.sent (h.run stack ctx) ((front ++ w :: back).flatMap strobed))
    (hfront : ∀ v ∈ front, ∀ c, settingsOf (exec v c) = settingsOf c)
    (hback : ∀ v ∈ back, ∀ c, settingsOf (exec v c) = settingsOf c) :
    Throughout board (fun b => settingsOf b.config = s) (h.run stack ctx)
      fun b => settingsOf b.config = s ∨ settingsOf b.config = s.apply stack ctx true h := by
  refine throughout_of_emits hrst hemits (I := fun c => settingsOf c = s ∨
    settingsOf c = s.apply stack ctx true h) ?_
  rintro b rfl k
  rw [← settings_of_configures hne (configures_of_emits hrst hemits)]
  exact settings_take hfront hback b.config k

/-- A handler with a single command. -/
theorem throughout_single (h : Handler) (hne : h ≠ .sweepRamp) {w : BitVec 32}
    (hemits : Emits Call.sent (h.run stack ctx) (strobed w)) (hrst : rstBit w = false) :
    Throughout board (fun b => settingsOf b.config = s) (h.run stack ctx)
      fun b => settingsOf b.config = s ∨ settingsOf b.config = s.apply stack ctx true h := by
  have hsingle : ∀ c ∈ [] ++ w :: [], rstBit c = false := List.forall_mem_singleton.mpr hrst
  exact throughout_once h hne hsingle hemits (fun _ hmem => absurd hmem List.not_mem_nil)
    fun _ hmem => absurd hmem List.not_mem_nil

/-- A handler that resets the core. -/
theorem throughout_reset (h : Handler) {first second : BitVec 32}
    (hemits : Emits Call.sent (h.run stack ctx) [first, second]) (hfirst : rstBit first = true)
    (hsecond : (resetBoard.send second).config = Config.reset)
    (happly : s.apply stack ctx true h = Settings.reset) :
    Throughout board (fun b => settingsOf b.config = s) (h.run stack ctx)
      fun b => settingsOf b.config = s ∨ settingsOf b.config = s.apply stack ctx true h := by
  intro b tr r tr₁ tr₂ b₁ hs hrun hsplit hfollows
  have hprefix : shown Call.sent tr₁ <+: [first, second] := by
    rw [← hemits tr r hrun, hsplit, shown, shown, List.flatMap_append]
    exact List.prefix_append _ _
  have hreset : b.send first = resetBoard := Board.send_of_rst hfirst b
  rw [follows_board_sent hfollows, happly]
  generalize shown Call.sent tr₁ = words at hprefix ⊢
  rcases words with _ | ⟨v, _ | ⟨w, words⟩⟩
  · exact .inl hs
  · right
    rw [(List.cons_prefix_cons.mp hprefix).1, List.foldl_cons, List.foldl_nil, hreset]
    rfl
  · right
    rcases List.cons_prefix_cons.mp hprefix with ⟨hv, hrest⟩
    rcases List.cons_prefix_cons.mp hrest with ⟨hw, hnil⟩
    rw [hv, hw, List.prefix_nil.mp hnil, List.foldl_cons, List.foldl_cons, List.foldl_nil, hreset,
      hsecond]
    rfl

/-- A handler that returns at once. -/
theorem throughout_rejected (h : Handler) {r : Reply F} (hpure : h.run stack ctx = pure r) :
    Throughout board (fun b => settingsOf b.config = s) (h.run stack ctx)
      fun b => settingsOf b.config = s ∨ settingsOf b.config = s.apply stack ctx true h := by
  rw [hpure]
  exact Throughout.pure fun _ h => .inl h

/-! ### The controller and the oscillator -/

theorem settingsOf_pidWrite (q : PidRequest) (sel : PidCoeffSelE) (c : Config) :
    settingsOf (exec (pidWrite q sel) c) =
      { settingsOf c with
        pid := PidSettings.put (PidRequest.settings q) (settingsOf c).pid sel } := by
  have hnarrow : ∀ {n : ℕ} (x : BitVec 32), n ≤ 16 → (x.setWidth 16).setWidth n = x.setWidth n :=
    fun x hn => BitVec.setWidth_setWidth_of_le x hn
  have hbit : (q.en.setWidth 16).getLsbD 0 = q.en.getLsbD 0 := by simp
  let withPid : PidSettings → Settings := fun p => { settingsOf c with pid := p }
  let old := (settingsOf c).pid
  rw [exec, pidWrite, cmdW_setPidWord, execRegs_setPidWord]
  cases sel with
  | dec => exact congrArg (fun v => withPid { old with dec := v }) (hnarrow q.dec (by omega))
  | alpha => exact congrArg (fun v => withPid { old with alpha := v }) (hnarrow q.alpha (by omega))
  | sat => exact congrArg (fun v => withPid { old with sat := v }) (hnarrow q.sat (by omega))
  | en => exact congrArg (fun v => withPid { old with en := v }) hbit
  | bias =>
      exact congrArg (fun v => withPid { old with bias := v }) (BitVec.neg_neg)
  | _ => rfl

/-- The controller, after some of its writes. -/
theorem settingsOf_pidWrites (q : PidRequest) (sels : List PidCoeffSelE) (c : Config) :
    settingsOf ((sels.map (pidWrite q)).foldl (fun c w => exec w c) c) =
      { settingsOf c with
        pid := sels.foldl (PidSettings.put (PidRequest.settings q)) (settingsOf c).pid } := by
  induction sels generalizing c with
  | nil => rfl
  | cons sel sels ih =>
      rw [List.map_cons, List.foldl_cons, ih, settingsOf_pidWrite, List.foldl_cons]

theorem cmdSetPid_throughout :
    Throughout board (fun b => settingsOf b.config = s) (cmdSetPid ctx)
      fun b => Underway stack ctx s (settingsOf b.config) .setPid := by
  have hrst : ∀ w ∈ pidOrder.map (pidWrite (.ofCtx ctx)), rstBit w = false := by
    intro w hw
    rcases List.mem_map.mp hw with ⟨sel, -, rfl⟩
    exact rstBit_setPidWord sel _
  refine throughout_of_emits hrst (cmdSetPid_emits ctx)
    (I := fun c => Underway stack ctx s (settingsOf c) .setPid) ?_
  rintro b rfl k
  rw [← List.map_take, settingsOf_pidWrites]
  exact ⟨k, rfl⟩

/-- While the parameters of the oscillator change, it is switched off. -/
theorem ncoEnR_take (ctx : CmdCtx F) {k : ℕ} (hk : 1 ≤ k ∧ k ≤ 5) (c : Config) :
    ((((ncoWrites ctx).map ncoWrite).take k).foldl (fun c w => exec w c) c).regs.ncoEnR =
      false := by
  rw [regs_foldl_exec]
  change (after execRegs ((ncoWrites ctx).map ncoWrite) c.regs k).ncoEnR = false
  rw [after_ncoWrite]
  have hcases : k = 1 ∨ k = 2 ∨ k = 3 ∨ k = 4 ∨ k = 5 := by omega
  rcases hcases with rfl | rfl | rfl | rfl | rfl
  all_goals rfl

theorem cmdSetNco_throughout :
    Throughout board (fun b => settingsOf b.config = s) (cmdSetNco ctx)
      fun b => Underway stack ctx s (settingsOf b.config) .setNco := by
  by_cases hargs : ncoArgsCode ctx = .ok
  · have hemits := cmdSetNco_emits ctx
    rw [if_pos hargs] at hemits
    have hrst := rstBit_of_mem_ncoWrites ctx
    refine throughout_of_emits hrst hemits
      (I := fun c => Underway stack ctx s (settingsOf c) .setNco) ?_
    rintro b rfl k
    have hcases : k = 0 ∨ (1 ≤ k ∧ k ≤ 5) ∨ 6 ≤ k := by omega
    rcases hcases with rfl | hbetween | hall
    · exact .inl rfl
    · have hoff := ncoEnR_take ctx hbetween b.config
      have hothers := settingsOf_ncoWrites ((ncoWrites ctx).take k) b.config
      rw [List.map_take] at hothers
      generalize ((((ncoWrites ctx).map ncoWrite).take k).foldl (fun c w => exec w c) b.config) = c
        at hoff hothers ⊢
      refine .inr (.inr ⟨hargs, ncoTuple c.regs, ?_⟩)
      rw [← hothers (ncoTuple c.regs) false, ← hoff]
      rfl
    · rw [List.take_of_length_le (by simpa [length_ncoWrites] using hall), settingsOf_foldl_nco]
      exact .inr (.inl (if_pos hargs).symm)
  · have hpure : cmdSetNco ctx = pure ⟨(ncoArgsCode ctx).code, []⟩ := if_pos hargs
    rw [hpure]
    exact Throughout.pure fun _ h => .inl h

/-! ### The ramp -/

/-- A command that keeps what holds throughout. -/
theorem throughout_execute {cmd : BitVec 32} {v : CmdView} (hrst : rstBit cmd = false)
    (hdecode : decode (PdhCmdT.strobe.set 1#1 cmd) = some v) {P : Board → Prop}
    {I : Config → Prop} (h : ∀ b, P b → I b.config ∧ I (v.run b.config)) :
    Throughout board P (pdhExecuteCmd cmd) fun b => I b.config := by
  have hemits : Emits Call.sent (pdhExecuteCmd cmd) ([cmd].flatMap strobed) :=
    pdhExecuteCmd_emits cmd
  refine throughout_of_emits (List.forall_mem_singleton.mpr hrst) hemits fun b hP k => ?_
  cases k with
  | zero => exact (h b hP).1
  | succ k =>
      rw [List.take_succ_cons, List.take_nil, List.foldl_cons, List.foldl_nil, ← exec_strobe 1#1,
        exec_of_decode hdecode]
      exact (h b hP).2

/-- A call that sends nothing. -/
theorem throughout_call {c : Call} (hc : c.sent = []) {P : Board → Prop} {I : Config → Prop}
    (h : ∀ b, P b → I b.config) : Throughout board P c.run fun b => I b.config := by
  have hsent : Emits Call.sent c.run [] := hc ▸ Call.run_emits c
  have hemits : Emits Call.sent c.run (([] : List (BitVec 32)).flatMap strobed) := hsent
  refine throughout_of_emits (fun _ hmem => absurd hmem List.not_mem_nil) hemits fun b hP k => ?_
  rw [List.take_nil]
  exact h b hP

/-- The settings during the loop of a ramp. -/
def OnRamp (ctx : CmdCtx F) (s : Settings) (c : Config) : Prop :=
  settingsOf c = { s with dac1DatSel := 0#3 } ∨
    ∃ i < (ctx.uintArgs 0).toNat,
      settingsOf c = { s.setDac (rampDac ctx) (stepCode ctx i) with dac1DatSel := 0#3 }

theorem onRamp_dac {i : ℕ} (hi : i < (ctx.uintArgs 0).toNat) {c : Config} (h : OnRamp ctx s c) :
    OnRamp ctx s ((CmdView.dacCmd (stepCode ctx i) (rampDac ctx)).run c) := by
  refine .inr ⟨i, hi, ?_⟩
  rw [settingsOf_run_dac]
  by_cases hdac : rampDac ctx = 1#1
  · rcases h with h | ⟨j, -, h⟩
    all_goals simp only [h, Settings.setDac, hdac, if_true]
  · rcases h with h | ⟨j, -, h⟩
    all_goals simp only [h, Settings.setDac, hdac, if_false]

theorem readSignal_throughout (sel : CsSelE) :
    Throughout board (fun b => OnRamp ctx s b.config) (readSignal sel : Routine F)
      fun b => OnRamp ctx s b.config := by
  have hexecute := throughout_execute (rstBit_checkSignedWord sel.code)
    (decode_checkSignedWord sel.code) (P := fun b => OnRamp ctx s b.config)
    (I := OnRamp ctx s) fun b h => ⟨h, h⟩
  exact .bind hexecute hexecute.triple fun _ => .pure fun _ h => h

theorem logStep_throughout (demodMode : BitVec 32) (v : F) :
    Throughout board (fun b => OnRamp ctx s b.config) (logStep demodMode v)
      fun b => OnRamp ctx s b.config := by
  have hread : ∀ sel, Throughout board (fun b => OnRamp ctx s b.config) (readSignal sel : Routine F)
      fun b => OnRamp ctx s b.config :=
    readSignal_throughout
  have hprint : ∀ fields, Throughout board (fun b => OnRamp ctx s b.config)
      (Call.fprintfFloats fields).run fun b => OnRamp ctx s b.config :=
    fun _ => throughout_call rfl fun _ h => h
  unfold logStep
  split_ifs
  · exact .bind (hread _) (hread _).triple fun _ => hprint _
  · refine .bind (hread _) (hread _).triple fun _ => ?_
    refine .bind (hread _) (hread _).triple fun _ => ?_
    refine .bind (hread _) (hread _).triple fun _ => ?_
    exact .bind (hread _) (hread _).triple fun _ => hprint _

/-- The loop moves the converter from code to code. -/
theorem rampPoints_throughout {i n : ℕ} (hn : i + n ≤ (ctx.uintArgs 0).toNat) :
    Throughout board (fun b => OnRamp ctx s b.config) (rampPoints ctx i n)
      fun b => OnRamp ctx s b.config := by
  induction n generalizing i with
  | zero => exact .pure fun _ h => h
  | succ n ih =>
      have hdac := throughout_execute (rstBit_setDacWord _ _)
        (decode_setDacWord ((ctx.uintArgs 1).setWidth 1)
          ((rampCode (rampVoltage ctx i)).setWidth 14))
        (P := fun b => OnRamp ctx s b.config) (I := OnRamp ctx s)
        fun b h => ⟨h, onRamp_dac (by omega) h⟩
      refine .bind hdac hdac.triple fun _ => ?_
      have hlog := Throughout.bind (logStep_throughout (ctx.uintArgs 3) (rampVoltage ctx i))
        (logStep_throughout (ctx.uintArgs 3) (rampVoltage ctx i)).triple
        fun _ => ih (i := i + 1) (by omega)
      dsimp only
      split_ifs
      · exact .bind (throughout_call rfl fun _ h => h)
          (throughout_call (I := OnRamp ctx s) rfl fun _ h => h).triple fun _ => hlog
      · exact hlog

/-- The routing that the handler reads is that of the settings. -/
theorem readRouting_triple :
    Triple board (fun b => settingsOf b.config = s)
      (pdhExecuteCmd (checkSignedWord CsSelE.io.code)) fun cb b =>
        settingsOf b.config = s ∧ PdhCallbackT.dac1DatSelR.get cb = s.dac1DatSel ∧
          PdhCallbackT.dac2DatSelR.get cb = s.dac2DatSel ∧
          PdhCallbackT.pidDatSelR.get cb = s.pidDatSel := by
  rintro b tr cb b' rfl hrun hfollows
  rcases performs_readRouting hrun hfollows with ⟨-, hrouting⟩
  rw [Board.routing, Prod.mk.injEq, Prod.mk.injEq] at hrouting
  have hconfig := configures_execute (rstBit_checkSignedWord _) decode_checkIo b.config b tr cb b'
    rfl hrun hfollows
  rw [hconfig]
  exact ⟨rfl, hrouting⟩

theorem settingsOf_run_configIo (dac1 dac2 pid : BitVec 3) (c : Config) :
    settingsOf ((CmdView.configIoCmd dac1 dac2 pid).run c) =
      { settingsOf c with dac1DatSel := dac1, dac2DatSel := dac2, pidDatSel := pid } :=
  rfl

/-- Before the loop the first converter is taken away. -/
theorem onRamp_take {c : Config} (h : settingsOf c = s) :
    OnRamp ctx s ((CmdView.configIoCmd 0#3 s.dac2DatSel s.pidDatSel).run c) := by
  left
  rw [settingsOf_run_configIo, h]

/-- After the loop it is given back. -/
theorem underway_give {c : Config} (hargs : rampArgsCode ctx = .ok) (h : OnRamp ctx s c) :
    Underway stack ctx s
      (settingsOf ((CmdView.configIoCmd s.dac1DatSel s.dac2DatSel s.pidDatSel).run c))
      .sweepRamp := by
  rw [settingsOf_run_configIo]
  rcases h with h | ⟨i, hi, h⟩
  · left
    rw [h]
  · refine .inr ⟨hargs, .inr ⟨i, hi, s.dac1DatSel, .inr rfl, ?_⟩⟩
    rw [h, Settings.setDac]
    split_ifs
    · rfl
    · rfl

theorem cmdSweepRamp_throughout :
    Throughout board (fun b => settingsOf b.config = s) (cmdSweepRamp ctx)
      fun b => Underway stack ctx s (settingsOf b.config) .sweepRamp := by
  have hrst : ∀ dac1 dac2 pid, rstBit (configIoWord dac1 dac2 pid 0#32) = false := by
    intro dac1 dac2 pid
    rw [rstBit_configIoWord]
    rfl
  unfold cmdSweepRamp
  by_cases hargs : rampArgsCode ctx = .ok
  · rw [if_neg (not_not.mpr hargs)]
    have hramp : ∀ c, OnRamp ctx s c → Underway stack ctx s (settingsOf c) .sweepRamp := by
      rintro c (h | ⟨i, hi, h⟩)
      · exact .inr ⟨hargs, .inl h⟩
      · exact .inr ⟨hargs, .inr ⟨i, hi, 0#3, .inl rfl, h⟩⟩
    refine .bind ?_ readRouting_triple fun ioCb => ?_
    · exact throughout_execute (rstBit_checkSignedWord _) decode_checkIo
        (I := fun c => Underway stack ctx s (settingsOf c) .sweepRamp) fun b h => ⟨.inl h, .inl h⟩
    · by_cases hrouting : PdhCallbackT.dac1DatSelR.get ioCb = s.dac1DatSel ∧
          PdhCallbackT.dac2DatSelR.get ioCb = s.dac2DatSel ∧
          PdhCallbackT.pidDatSelR.get ioCb = s.pidDatSel
      · rcases hrouting with ⟨hdac1, hdac2, hpid⟩
        rw [hdac1, hdac2, hpid]
        have htake : Triple board (fun b => settingsOf b.config = s)
            (pdhExecuteCmd (configIoWord 0#3 s.dac2DatSel s.pidDatSel 0#32))
            fun _ b => OnRamp ctx s b.config := by
          intro b tr cb b' h hrun hfollows
          rw [configures_execute (hrst _ _ _) (decode_configIo _ _ _ _) b.config b tr cb b' rfl hrun
            hfollows]
          exact onRamp_take h
        refine .bind (throughout_execute (hrst _ _ _) (decode_configIo _ _ _ _)
            (I := fun c => Underway stack ctx s (settingsOf c) .sweepRamp)
            fun b h => ⟨.inl h.1, hramp _ (onRamp_take h.1)⟩)
          (fun b tr cb b' h => htake b tr cb b' h.1) fun _ => ?_
        have hopen : Throughout board (fun b => OnRamp ctx s b.config)
            (Call.fopen "sweep_log.csv").run fun b => OnRamp ctx s b.config :=
          throughout_call rfl fun _ h => h
        refine .bind (hopen.weaken (fun _ h => h) fun b h => hramp _ h) hopen.triple fun f => ?_
        have hloop : Throughout board (fun b => OnRamp ctx s b.config)
            (rampPoints ctx 0 (ctx.uintArgs 0).toNat) fun b => OnRamp ctx s b.config :=
          rampPoints_throughout (Nat.zero_add _).le
        have hclose : Throughout board (fun b => OnRamp ctx s b.config)
            (Call.fclose "sweep_log.csv").run fun b => OnRamp ctx s b.config :=
          throughout_call rfl fun _ h => h
        have hgive := throughout_execute (hrst _ _ _) (decode_configIo s.dac1DatSel s.dac2DatSel
            s.pidDatSel 0#32) (P := fun b => OnRamp ctx s b.config)
          (I := fun c => Underway stack ctx s (settingsOf c) .sweepRamp)
          fun b h => ⟨hramp _ h, underway_give hargs h⟩
        cases f with
        | false => exact .pure fun b h => hramp _ h
        | true =>
            refine .bind (hloop.weaken (fun _ h => h) fun b h => hramp _ h) hloop.triple fun _ => ?_
            refine .bind (hclose.weaken (fun _ h => h) fun b h => hramp _ h) hclose.triple
              fun _ => ?_
            exact .bind hgive hgive.triple fun _ => .pure fun _ h => h
      · intro b tr a tr₁ tr₂ b₁ h
        exact absurd h.2 hrouting
  · rw [if_pos hargs]
    exact .pure fun _ h => .inl h

/-! ### All of them -/

theorem settingsOf_setRot (select : BitVec 1) (payload : BitVec 16) (c : Config) :
    settingsOf (exec (rotWord select payload) c) = settingsOf c := by
  rw [← exec_strobe 1#1, exec_of_decode (decode_rotWord select payload), CmdView.run, CmdView.exec]
  · split_ifs <;> rfl
  · intro _ _ h
    cases h

/-- While a handler runs, no other settings are in force. -/
theorem handler_underway (h : Handler) :
    Throughout board (fun b => settingsOf b.config = s) (h.run stack ctx)
      fun b => Underway stack ctx s (settingsOf b.config) h := by
  cases h with
  | setLed =>
      by_cases hargs : 255#32 < ctx.uintArgs 0
      · exact throughout_rejected .setLed (if_pos hargs)
      · have hemits : Emits Call.sent (cmdSetLed ctx) (strobed
            (PdhCmdT.ledCode.set ((ctx.uintArgs 0).setWidth 8) (cmdWord .setLed))) := by
          dsimp only [cmdSetLed]
          rw [if_neg hargs]
          exact .bind_pure (pdhExecuteCmd_emits _) _
        refine throughout_single .setLed (by decide) hemits ?_
        rw [rstBit_set (Nat.le_of_ble_eq_true rfl), rstBit_cmdWord]
  | resetFpga => exact throughout_reset .resetFpga cmdResetFpga_emits rfl rfl rfl
  | setDac =>
      exact throughout_single .setDac (by decide) (.bind_pure (pdhExecuteCmd_emits _) _)
        (rstBit_setDacWord _ _)
  | getAdc =>
      exact throughout_single .getAdc (by decide) (.bind_pure (pdhExecuteCmd_emits _) _)
        (rstBit_cmdWord _)
  | checkSigned =>
      exact throughout_single .checkSigned (by decide) (.bind_pure (pdhExecuteCmd_emits _) _)
        (rstBit_checkSignedWord _)
  | setRot =>
      have hrst : ∀ w ∈ [rotWord 0#1 (floatToQ15 (cosf (clampAngle (ctx.floatArgs 0)))),
          rotWord 1#1 (floatToQ15 (sinf (clampAngle (ctx.floatArgs 0))))] ++
          cmdWord .commitRotCoeffs :: [], rstBit w = false :=
        rstBit_rotCommands ctx
      refine throughout_once .setRot (by decide) hrst (cmdSetRot_emits ctx) (fun v hv c => ?_)
        fun _ hmem => absurd hmem List.not_mem_nil
      rcases List.mem_pair.mp hv with rfl | rfl
      · exact settingsOf_setRot _ _ c
      · exact settingsOf_setRot _ _ c
  | getFrame =>
      have hrst : ∀ w ∈ [cmdWord .idle] ++ getFrameWord (decimationOf ctx) (ctx.uintArgs 1) :: [],
          rstBit w = false :=
        rstBit_frameCommands ctx
      refine throughout_once .getFrame (by decide) hrst (cmdGetFrame_emits ctx) (fun v hv c => ?_)
        fun _ hmem => absurd hmem List.not_mem_nil
      rw [List.mem_singleton.mp hv, ← exec_strobe 1#1, exec_of_decode (decode_cmdWord 1#1).1]
      rfl
  | testFrame => exact throughout_rejected .testFrame rfl
  | setPid => exact cmdSetPid_throughout
  | setFir =>
      by_cases hargs : firArgsCode ctx = .ok
      · have hemits := cmdSetFir_emits ctx
        rw [requestWrites, if_pos hargs, firWrites_eq] at hemits
        have hrst : ∀ w ∈ [] ++ setFirWord .inputSel ((ctx.uintArgs 0).setWidth 16) ::
            enabledWrites (codes ctx 0 ctx.numFloats), rstBit w = false :=
          rstBit_of_mem_firWrites _ _
        refine throughout_once .setFir (by decide) hrst hemits
          (fun _ hmem => absurd hmem List.not_mem_nil) fun v hv c => ?_
        exact settingsOf_enabledWrite hv c
      · exact throughout_rejected .setFir (if_pos hargs)
  | setNco => exact cmdSetNco_throughout
  | configIo =>
      by_cases hargs : ioArgsCode ctx = .ok
      · have hemits := cmdConfigIo_emits stack hargs
        cases hstack : rstBit stack with
        | true =>
            have happly : s.apply stack ctx true .configIo = Settings.reset := by
              rw [Settings.apply, if_pos hargs, if_pos hstack]
            refine throughout_reset .configIo hemits ?_ ?_ happly
            · rw [rstBit_strobe, rstBit_configIoWord]
              exact hstack
            · rw [Board.send_of_rst]
              · rfl
              · rw [rstBit_strobe, rstBit_configIoWord]
                exact hstack
        | false =>
            refine throughout_single .configIo (by decide) hemits ?_
            rw [rstBit_configIoWord]
            exact hstack
      · exact throughout_rejected .configIo (if_pos hargs)
  | configDemod =>
      by_cases href : 1#32 < ctx.uintArgs 0
      · exact throughout_rejected .configDemod (if_pos href)
      · by_cases hin : 6#32 < ctx.uintArgs 1
        · exact throughout_rejected .configDemod ((if_neg href).trans (if_pos hin))
        · refine throughout_single .configDemod (by decide) ?_ (rstBit_configDemodWord
            ((ctx.uintArgs 0).setWidth 1) ((ctx.uintArgs 1).setWidth 3)
            ((ctx.uintArgs 2 &&& 0xF#32).setWidth 4))
          change Emits Call.sent (cmdConfigDemod ctx) _
          dsimp only [cmdConfigDemod]
          rw [if_neg href, if_neg hin]
          exact .bind_pure (pdhExecuteCmd_emits _) _
  | sweepRamp => exact cmdSweepRamp_throughout

end Handlers

end Requests
end PoundDreverHall
