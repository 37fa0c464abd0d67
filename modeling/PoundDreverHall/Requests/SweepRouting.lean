import PoundDreverHall.Device.Triple
import PoundDreverHall.Requests.Behaviour
import PoundDreverHall.Requests.Layouts

/-!
# Requests - the routing during a ramp

`cmd_sweep_ramp` reads the routing of the converters, gives the first converter to its register,
and writes the routing back after the ramp.  This file runs the handlers against the register file
and shows when the routing is the one before the request.

Main results:

- Definition {lit}`board`: the register file behind the registers of the bus.
- Theorem {lit}`performs_execute`: a command that is executed and answered.
- Theorem {lit}`rampTail_routing`: the ramp writes the routing back.
- Theorem {lit}`sweep_keeps_routing_iff`: when the request keeps it.
-/

namespace PoundDreverHall
namespace Requests

open Device Program Server PdhCore

/-! ## The register file behind the bus -/

/-- The register file, the command it executed last, and the word on the bus. -/
structure Board where
  config : Config
  latched : BitVec 32
  bus : BitVec 32
deriving DecidableEq, Repr

namespace Board

/-- A write to the bus.  A word with the reset bit resets the register file, and a rising strobe
executes the command. -/
def send (raw : BitVec 32) (b : Board) : Board :=
  if rstBit raw then { config := Config.reset, latched := 0#32, bus := 0#32 }
  else if strobeBit raw && !strobeBit b.bus then
    { config := exec raw b.config, latched := raw, bus := raw }
  else { b with bus := raw }

/-- The callback of the command executed last, with any values of the signals. -/
def Answers (b : Board) (cb : BitVec 32) : Prop :=
  ∃ (d : DacRegs) (o : Observed), d.dac1DatR = b.config.dac1DatR ∧
    d.dac2DatR = b.config.dac2DatR ∧ cb = nextCallbackW b.latched b.config.regs d o

/-- `dac1_dat_sel_r`, `dac2_dat_sel_r` and `pid_sel_r`. -/
def routing (b : Board) : BitVec 3 × BitVec 3 × BitVec 3 :=
  (b.config.regs.dac1DatSelR, b.config.regs.dac2DatSelR, b.config.regs.pidSelR)

end Board

/-- A faithful board: a write acts at once, a read gets the callback of the last command, and
nothing else reaches the registers. -/
def board : Machine Call.Response Board
  | b, .pdhSendCmd raw, _, b' => b' = b.send raw
  | b, .pdhGetCallback, cb, b' => b' = b ∧ b.Answers cb
  | b, _, _, b' => b' = b

/-! ## Executed commands -/

theorem send_low {cmd : BitVec 32} (hrst : rstBit cmd = false) (b : Board) :
    b.send (PdhCmdT.strobe.set 0#1 cmd) = { b with bus := PdhCmdT.strobe.set 0#1 cmd } := by
  rw [Board.send, rstBit_strobe, hrst, strobeBit_strobe]
  rfl

theorem send_high {cmd : BitVec 32} (hrst : rstBit cmd = false) {b : Board}
    (hlow : strobeBit b.bus = false) :
    b.send (PdhCmdT.strobe.set 1#1 cmd) =
      { config := exec (PdhCmdT.strobe.set 1#1 cmd) b.config
        latched := PdhCmdT.strobe.set 1#1 cmd
        bus := PdhCmdT.strobe.set 1#1 cmd } := by
  rw [Board.send, rstBit_strobe, hrst, strobeBit_strobe, hlow]
  rfl

/-- A command is sent twice, and its answer is read. -/
theorem follows_execute {cmd cb : BitVec 32} {tr : List ((c : Call) × c.Response)} {b b' : Board}
    (hrun : Performs (pdhExecuteCmd cmd) tr cb) (hfollows : Follows board b tr b') :
    tr = [⟨.pdhSendCmd (PdhCmdT.strobe.set 0#1 cmd), ()⟩,
        ⟨.pdhSendCmd (PdhCmdT.strobe.set 1#1 cmd), ()⟩, ⟨.pdhGetCallback, cb⟩] ∧
      b' = (b.send (PdhCmdT.strobe.set 0#1 cmd)).send (PdhCmdT.strobe.set 1#1 cmd) ∧
      b'.Answers cb := by
  rcases performs_bind.mp hrun with ⟨tr₁, _, tr', h₁, hrest, rfl⟩
  rcases performs_bind.mp hrest with ⟨tr₂, _, tr₃, h₂, h₃, rfl⟩
  rw [Call.run, performs_op] at h₁ h₂ h₃
  subst h₁ h₂ h₃
  rcases hfollows with _ | ⟨hlow, hfollows⟩
  rcases hfollows with _ | ⟨hhigh, hfollows⟩
  rcases hfollows with _ | ⟨⟨hread, hanswers⟩, hfollows⟩
  cases hfollows
  rw [hlow] at hhigh
  rw [hread]
  exact ⟨rfl, hhigh, hanswers⟩

/-- Without a reset bit, the strobed word is executed once and answered. -/
theorem performs_execute {cmd cb : BitVec 32} {tr : List ((c : Call) × c.Response)} {b b' : Board}
    (hrst : rstBit cmd = false) (hrun : Performs (pdhExecuteCmd cmd) tr cb)
    (hfollows : Follows board b tr b') :
    tr = [⟨.pdhSendCmd (PdhCmdT.strobe.set 0#1 cmd), ()⟩,
        ⟨.pdhSendCmd (PdhCmdT.strobe.set 1#1 cmd), ()⟩, ⟨.pdhGetCallback, cb⟩] ∧
      b'.config = exec (PdhCmdT.strobe.set 1#1 cmd) b.config ∧
      b'.latched = PdhCmdT.strobe.set 1#1 cmd ∧ b'.Answers cb := by
  rcases follows_execute hrun hfollows with ⟨htr, hboard, hanswers⟩
  have hexec : b' =
      { config := exec (PdhCmdT.strobe.set 1#1 cmd) b.config
        latched := PdhCmdT.strobe.set 1#1 cmd
        bus := PdhCmdT.strobe.set 1#1 cmd } := by
    rw [hboard, send_low hrst]
    exact send_high hrst (strobeBit_strobe 0#1 cmd)
  refine ⟨htr, ?_, ?_, hanswers⟩
  · rw [hexec]
  · rw [hexec]

/-- The registers of the rising edge after a command. -/
theorem exec_regs (w : BitVec 32) (c : Config) : (exec w c).regs = execRegs w c.regs := by
  unfold exec execRegs
  cases hcmd : cmdW w with
  | setDac => cases hsel : (dataW w).getLsbD 14 <;> rfl
  | _ => rfl

/-- What a command does to the routing, if its word holds a view. -/
theorem regs_of_execute {v : CmdView} {cmd : BitVec 32}
    (h : decode (PdhCmdT.strobe.set 1#1 cmd) = some v) {c c' : Config}
    (hexec : c' = exec (PdhCmdT.strobe.set 1#1 cmd) c) : c'.regs = v.exec c.regs := by
  rw [hexec, exec_regs, ← next_eq_execRegs, next_of_decode h]

/-! ## The request -/

section Sweep

theorem decode_checkIo :
    decode (PdhCmdT.strobe.set 1#1 (checkSignedWord CsSelE.io.code)) =
      some (.csCmd CsSelE.io.code) := by
  apply CmdView.Holds.decode
  constructor
  · simp (disch := decide) only [checkSignedWord, cmdWord, BitField.get_set_of_disjoint,
      BitField.get_set, CmdView.cmd]
  · simp (disch := decide) only [checkSignedWord, cmdWord, BitField.get_set_of_disjoint,
      BitField.get_set, CmdView.cmd, CmdView.read]

theorem decode_configIo (dac1 dac2 pid : BitVec 3) (cmd : BitVec 32) :
    decode (PdhCmdT.strobe.set 1#1 (configIoWord dac1 dac2 pid cmd)) =
      some (.configIoCmd dac1 dac2 pid) := by
  apply CmdView.Holds.decode
  constructor
  · simp (disch := decide) only [configIoWord, BitField.get_set_of_disjoint,
      BitField.get_set, CmdView.cmd]
  · simp (disch := decide) only [configIoWord, BitField.get_set_of_disjoint,
      BitField.get_set, CmdView.cmd, CmdView.read]

/-- A read of the routing. -/
theorem performs_readRouting {tr : List ((c : Call) × c.Response)} {cb : BitVec 32} {b b' : Board}
    (hrun : Performs (pdhExecuteCmd (checkSignedWord CsSelE.io.code)) tr cb)
    (hfollows : Follows board b tr b') :
    (∀ f, ⟨.fopen f, true⟩ ∉ tr) ∧
      (PdhCallbackT.dac1DatSelR.get cb, PdhCallbackT.dac2DatSelR.get cb,
        PdhCallbackT.pidDatSelR.get cb) = b.routing := by
  rcases performs_execute (rstBit_checkSignedWord _) hrun hfollows with
    ⟨rfl, hconfig, hlatched, d, o, -, -, rfl⟩
  have hregs := regs_of_execute decode_checkIo hconfig
  have hread := readIo_nextCallbackW (hlatched ▸ decode_checkIo) b'.config.regs d o
  rw [CallbackView.readIo, CallbackView.checkIoCb.injEq] at hread
  rw [hread.1, hread.2.1, hread.2.2.1, Board.routing, hregs]
  refine ⟨fun f => ?_, rfl⟩
  simp

/-- A write of the routing. -/
theorem performs_writeRouting {tr : List ((c : Call) × c.Response)} {cb : BitVec 32} {b b' : Board}
    {dac1 dac2 pid : BitVec 3}
    (hrun : Performs (pdhExecuteCmd (configIoWord dac1 dac2 pid 0#32)) tr cb)
    (hfollows : Follows board b tr b') :
    (∀ f, ⟨.fopen f, true⟩ ∉ tr) ∧ b'.routing = (dac1, dac2, pid) := by
  rcases performs_execute (by rw [rstBit_configIoWord]; rfl) hrun hfollows with ⟨rfl, hconfig, -⟩
  have hregs := regs_of_execute (decode_configIo dac1 dac2 pid 0#32) hconfig
  rw [Board.routing, hregs]
  refine ⟨fun f => ?_, rfl⟩
  simp

variable {F : Type} [MixedPrecision F]

/-- What follows the opening of the log writes the routing back. -/
theorem rampTail_routing (ctx : CmdCtx F) (n : ℕ) (dac1 dac2 pid : BitVec 3) (r : Reply F) :
    Triple board (fun _ => True)
      (do
        rampPoints ctx 0 n
        (Call.fclose "sweep_log.csv").run
        let _ ← pdhExecuteCmd (configIoWord dac1 dac2 pid 0#32)
        return r)
      fun _ b => b.routing = (dac1, dac2, pid) := by
  refine Triple.bind (Q := fun _ _ => True) (fun _ _ _ _ _ _ _ => trivial) fun _ => ?_
  refine Triple.bind (Q := fun _ _ => True) (fun _ _ _ _ _ _ _ => trivial) fun _ => ?_
  refine Triple.bind (Q := fun _ b => b.routing = (dac1, dac2, pid)) ?_ fun _ => ?_
  · intro b tr cb b' _ hrun hfollows
    exact (performs_writeRouting hrun hfollows).2
  · exact Triple.pure fun b hb => hb

/-- The three ways in which the request ends: its arguments are rejected, the log is opened and
the routing is written back, or the log cannot be opened and the first converter is left to its
register. -/
theorem performs_cmdSweepRamp {ctx : CmdCtx F} {tr : List ((c : Call) × c.Response)}
    {reply : Reply F} {b b' : Board} (hrun : Performs (cmdSweepRamp ctx) tr reply)
    (hfollows : Follows board b tr b') :
    rampArgsCode ctx ≠ .ok ∧ b'.routing = b.routing ∨
      ⟨.fopen "sweep_log.csv", true⟩ ∈ tr ∧ b'.routing = b.routing ∨
      rampArgsCode ctx = .ok ∧ ⟨.fopen "sweep_log.csv", true⟩ ∉ tr ∧
        b'.routing = (0#3, b.routing.2) := by
  unfold cmdSweepRamp at hrun
  by_cases hargs : rampArgsCode ctx ≠ .ok
  · rw [if_pos hargs] at hrun
    rcases performs_pure.mp hrun with ⟨rfl, -⟩
    cases hfollows
    exact .inl ⟨hargs, rfl⟩
  · rw [if_neg hargs] at hrun
    rcases performs_bind.mp hrun with ⟨tr₁, ioCb, tail₁, hread, hrest₁, rfl⟩
    rcases performs_bind.mp hrest₁ with ⟨tr₂, _, tail₂, hwrite, hrest₂, rfl⟩
    rcases performs_bind.mp hrest₂ with ⟨tr₃, opened, tail₃, hopen, hrest₃, rfl⟩
    rcases follows_append.mp hfollows with ⟨b₁, hf₁, hf₂⟩
    rcases follows_append.mp hf₂ with ⟨b₂, hf₃, hf₄⟩
    rcases follows_append.mp hf₄ with ⟨b₃, hf₅, hf₆⟩
    rcases performs_readRouting hread hf₁ with ⟨hquiet₁, hrouting⟩
    rcases performs_writeRouting hwrite hf₃ with ⟨hquiet₂, htaken⟩
    rw [Call.run, performs_op] at hopen
    subst hopen
    rcases hf₅ with _ | ⟨hsame, ⟨⟩⟩
    cases opened with
    | true =>
        have hback := rampTail_routing ctx _ _ _ _ _ _ _ _ _ trivial hrest₃ hf₆
        refine .inr (.inl ⟨?_, hback.trans hrouting⟩)
        simp
    | false =>
        rcases performs_pure.mp hrest₃ with ⟨rfl, -⟩
        cases hf₆
        refine .inr (.inr ⟨not_not.mp hargs, fun hmem => ?_, ?_⟩)
        · simp only [List.mem_append, List.mem_singleton, List.not_mem_nil, or_false] at hmem
          rcases hmem with hmem | hmem | hmem
          · exact hquiet₁ _ hmem
          · exact hquiet₂ _ hmem
          · cases hmem
        · rw [hsame, htaken, ← hrouting]

/-- `cmd_sweep_ramp` keeps the routing if and only if its arguments are rejected, the log can be
opened, or the first converter was given to its register before. -/
theorem sweep_keeps_routing_iff {ctx : CmdCtx F} {tr : List ((c : Call) × c.Response)}
    {reply : Reply F} {b b' : Board} (hrun : Performs (cmdSweepRamp ctx) tr reply)
    (hfollows : Follows board b tr b') :
    b'.routing = b.routing ↔
      rampArgsCode ctx ≠ .ok ∨ ⟨.fopen "sweep_log.csv", true⟩ ∈ tr ∨
        b.config.regs.dac1DatSelR = 0#3 := by
  rcases performs_cmdSweepRamp hrun hfollows with
    ⟨hargs, hsame⟩ | ⟨hopened, hsame⟩ | ⟨hargs, hfailed, hleft⟩
  · exact iff_of_true hsame (.inl hargs)
  · exact iff_of_true hsame (.inr (.inl hopened))
  · rw [hleft]
    constructor
    · intro hsame
      exact .inr (.inr (congrArg Prod.fst hsame).symm)
    · rintro (hrejected | hopened | hdac1)
      · exact absurd hargs hrejected
      · exact absurd hopened hfailed
      · exact congrArg (·, b.routing.2) hdac1.symm

end Sweep

/-! ## A log that cannot be opened -/

/-- The board, with files that cannot be opened. -/
def boardNoFiles : Machine Call.Response Board :=
  fun b c r b' => board b c r b' ∧ ∀ path, (⟨c, r⟩ : (c : Call) × c.Response) ≠ ⟨.fopen path, true⟩

theorem exists_boardNoFiles (b : Board) (c : Call) : ∃ r b', boardNoFiles b c r b' := by
  cases c with
  | pdhSendCmd raw => exact ⟨(), b.send raw, rfl, by simp⟩
  | pdhGetCallback =>
      let o : Observed := ⟨0#14, 0#14, 0#16, 0#16, 0#16, 0#16, 0#16, false⟩
      exact ⟨_, b, ⟨rfl, ⟨false, b.config.dac1DatR, b.config.dac2DatR⟩, o, rfl, rfl, rfl⟩, by simp⟩
  | fopen path => exact ⟨false, b, rfl, by simp⟩
  | _ => exact ⟨default, b, rfl, by simp⟩

/-- A ramp of two points. -/
def rampCtx : CmdCtx ℚ where
  floatArgs := fun _ => 0
  uintArgs := fun _ => 2#32
  numFloats := 2
  numFloats_le := by omega

/-- The registers after reset, with the first converter given to the controller. -/
def pidBoard : Board where
  config := { Config.reset with regs := { Regs.reset with dac1DatSelR := 0b001#3 } }
  latched := 0#32
  bus := 0#32

theorem exists_pidBoard_run :
    ∃ (tr : List ((c : Call) × c.Response)) (reply : Reply ℚ) (b' : Board),
      Performs (cmdSweepRamp rampCtx) tr reply ∧ Follows board pidBoard tr b' ∧
        ⟨.fopen "sweep_log.csv", true⟩ ∉ tr := by
  rcases exists_run exists_boardNoFiles (cmdSweepRamp rampCtx) pidBoard with
    ⟨tr, reply, b', hrun, hfollows⟩
  refine ⟨tr, reply, b', hrun, hfollows.imp fun _ _ _ _ h => h.1, fun hmem => ?_⟩
  exact hfollows.forall_mem (E := fun e => ∀ path, e ≠ ⟨.fopen path, true⟩)
    (fun _ _ _ _ h => h.2) _ hmem _ rfl

/-- The exact condition, for a log that cannot be opened. -/
theorem sweep_keeps_routing_iff_pidBoard :
    ∃ (tr : List ((c : Call) × c.Response)) (reply : Reply ℚ) (b' : Board),
      Performs (cmdSweepRamp rampCtx) tr reply ∧ Follows board pidBoard tr b' ∧
        ⟨.fopen "sweep_log.csv", true⟩ ∉ tr ∧
        (b'.routing = pidBoard.routing ↔
          rampArgsCode rampCtx ≠ .ok ∨ ⟨.fopen "sweep_log.csv", true⟩ ∈ tr ∨
            pidBoard.config.regs.dac1DatSelR = 0#3) := by
  rcases exists_pidBoard_run with ⟨tr, reply, b', hrun, hfollows, hfailed⟩
  exact ⟨tr, reply, b', hrun, hfollows, hfailed, sweep_keeps_routing_iff hrun hfollows⟩

/-- When the log cannot be opened, the request takes the first converter from the controller and
leaves it to its register. -/
theorem failed_sweep_takes_dac1 :
    ∃ (tr : List ((c : Call) × c.Response)) (reply : Reply ℚ) (b' : Board),
      Performs (cmdSweepRamp rampCtx) tr reply ∧ Follows board pidBoard tr b' ∧
        pidBoard.routing = (1#3, 0#3, 0#3) ∧ b'.routing = (0#3, 0#3, 0#3) := by
  rcases exists_pidBoard_run with ⟨tr, reply, b', hrun, hfollows, hfailed⟩
  refine ⟨tr, reply, b', hrun, hfollows, rfl, ?_⟩
  rcases performs_cmdSweepRamp hrun hfollows with ⟨hargs, -⟩ | ⟨hopened, -⟩ | ⟨-, -, hleft⟩
  · exact absurd (by decide +kernel) hargs
  · exact absurd hopened hfailed
  · exact hleft

end Requests
end PoundDreverHall
