import PoundDreverHall.Device.BitField
import PoundDreverHall.Device.Program

/-!
# Server - `hw_common.h` and `hw_common.c`

The command handlers reach the fabric through one GPIO word in each direction,
the interrupt through a UIO descriptor, and a frame through a mapping of the
memory that the fabric writes to.  A command word is a union of bit-fields that
a handler assigns one by one.
-/

namespace PoundDreverHall
namespace Server

open Device

/-! ## Commands and selectors -/

/-- `pdh_cmd_e`. -/
inductive PdhCmdE where
  | idle
  | setLed
  | setDac
  | getAdc
  | checkSigned
  | setRotCoeffs
  | commitRotCoeffs
  | getFrame
  | setPidCoeffs
  | setNco
  | setFir
  | configDemod
  | configIo
deriving DecidableEq, Repr

/-- The code of a command. -/
def PdhCmdE.code : PdhCmdE → BitVec 4
  | .idle => 0b0000#4
  | .setLed => 0b0001#4
  | .setDac => 0b0010#4
  | .getAdc => 0b0011#4
  | .checkSigned => 0b0100#4
  | .setRotCoeffs => 0b0101#4
  | .commitRotCoeffs => 0b0110#4
  | .getFrame => 0b0111#4
  | .setPidCoeffs => 0b1000#4
  | .setNco => 0b1001#4
  | .setFir => 0b1010#4
  | .configDemod => 0b1011#4
  | .configIo => 0b1110#4

/-- `pid_coeff_sel_e`. -/
inductive PidCoeffSelE where
  | kp
  | kd
  | ki
  | dec
  | sp
  | alpha
  | sat
  | en
  | gain
  | bias
  | egain
deriving DecidableEq, Repr

/-- The code of a PID register. -/
def PidCoeffSelE.code : PidCoeffSelE → BitVec 4
  | .kp => 0b0000#4
  | .kd => 0b0001#4
  | .ki => 0b0010#4
  | .dec => 0b0011#4
  | .sp => 0b0100#4
  | .alpha => 0b0101#4
  | .sat => 0b0110#4
  | .en => 0b0111#4
  | .gain => 0b1000#4
  | .bias => 0b1001#4
  | .egain => 0b1010#4

/-- `fir_update_sel_e`. -/
inductive FirUpdateSelE where
  | addr
  | coeff
  | inputSel
  | memWriteEn
  | chainWriteEn
deriving DecidableEq, Repr

/-- The code of a filter register. -/
def FirUpdateSelE.code : FirUpdateSelE → BitVec 3
  | .addr => 0b000#3
  | .coeff => 0b001#3
  | .inputSel => 0b010#3
  | .memWriteEn => 0b011#3
  | .chainWriteEn => 0b100#3

/-- `nco_coeff_sel_e`. -/
inductive NcoCoeffSelE where
  | stride
  | shift
  | inv
  | sub
  | en
deriving DecidableEq, Repr

/-- The code of an oscillator register. -/
def NcoCoeffSelE.code : NcoCoeffSelE → BitVec 3
  | .stride => 0b000#3
  | .shift => 0b001#3
  | .inv => 0b010#3
  | .sub => 0b011#3
  | .en => 0b100#3

/-- `cs_sel_e`. -/
inductive CsSelE where
  | io
  | adcDatA16s
  | adcDatB16s
  | iFeed
  | qFeed
  | demodLpf
deriving DecidableEq, Repr

/-- The code of a readable register. -/
def CsSelE.code : CsSelE → BitVec 5
  | .io => 0b10000#5
  | .adcDatA16s => 0b00000#5
  | .adcDatB16s => 0b00001#5
  | .iFeed => 0b00110#5
  | .qFeed => 0b00111#5
  | .demodLpf => 0b01001#5

/-! ## `pdh_cmd_t` -/

namespace PdhCmdT

/-- `cmd.val`; every view of the union but `rst_cmd` has its `cmd` field here. -/
abbrev cmd : BitField 32 := ⟨26, 4, by omega⟩

/-- `strobe.val`. -/
abbrev strobe : BitField 32 := ⟨30, 1, by omega⟩

/-- `rst_cmd.rst`. -/
abbrev rst : BitField 32 := ⟨31, 1, by omega⟩

/-- `led_cmd.led_code`. -/
abbrev ledCode : BitField 32 := ⟨0, 8, by omega⟩

/-- `dac_cmd.dac_code`. -/
abbrev dacCode : BitField 32 := ⟨0, 14, by omega⟩

/-- `dac_cmd.dac_sel`. -/
abbrev dacSel : BitField 32 := ⟨14, 1, by omega⟩

/-- `cs_cmd.reg_sel`. -/
abbrev regSel : BitField 32 := ⟨0, 5, by omega⟩

/-- `set_rot_coeff_cmd.rot_payload`. -/
abbrev rotPayload : BitField 32 := ⟨0, 16, by omega⟩

/-- `set_rot_coeff_cmd.rot_select`. -/
abbrev rotSelect : BitField 32 := ⟨16, 1, by omega⟩

/-- `get_frame_cmd.decimation`. -/
abbrev decimation : BitField 32 := ⟨0, 22, by omega⟩

/-- `get_frame_cmd.frame_code`. -/
abbrev frameCode : BitField 32 := ⟨22, 4, by omega⟩

/-- `set_pid_cmd.payload`, `set_nco_cmd.payload` and `set_fir_cmd.payload`. -/
abbrev payload : BitField 32 := ⟨0, 16, by omega⟩

/-- `set_pid_cmd.coeff_sel`. -/
abbrev coeffSel : BitField 32 := ⟨16, 4, by omega⟩

/-- `set_nco_cmd.coeff_sel`. -/
abbrev ncoCoeffSel : BitField 32 := ⟨16, 3, by omega⟩

/-- `set_fir_cmd.update_sel`. -/
abbrev updateSel : BitField 32 := ⟨16, 3, by omega⟩

/-- `config_io_cmd.dac1_dat_sel`. -/
abbrev dac1DatSel : BitField 32 := ⟨0, 3, by omega⟩

/-- `config_io_cmd.dac2_dat_sel`. -/
abbrev dac2DatSel : BitField 32 := ⟨3, 3, by omega⟩

/-- `config_io_cmd.pid_dat_sel`. -/
abbrev pidDatSel : BitField 32 := ⟨6, 3, by omega⟩

/-- `config_demod_cmd.ref_sel`. -/
abbrev refSel : BitField 32 := ⟨0, 1, by omega⟩

/-- `config_demod_cmd.in_sel`. -/
abbrev inSel : BitField 32 := ⟨1, 3, by omega⟩

/-- `config_demod_cmd.lpf_alpha`. -/
abbrev lpfAlpha : BitField 32 := ⟨4, 4, by omega⟩

end PdhCmdT

/-! ## `pdh_callback_t` -/

namespace PdhCallbackT

/-- The `cmd` field of every view. -/
abbrev cmd : BitField 32 := ⟨28, 4, by omega⟩

/-- `led_cb.func_callback`. -/
abbrev funcCallback : BitField 32 := ⟨0, 8, by omega⟩

/-- `dac_cb.dac2_code`. -/
abbrev dac2Code : BitField 32 := ⟨0, 14, by omega⟩

/-- `dac_cb.dac1_code`. -/
abbrev dac1Code : BitField 32 := ⟨14, 14, by omega⟩

/-- `adc_cb.adc_0_code`. -/
abbrev adc0Code : BitField 32 := ⟨0, 14, by omega⟩

/-- `adc_cb.adc_1_code`. -/
abbrev adc1Code : BitField 32 := ⟨14, 14, by omega⟩

/-- `cs_cb.payload`. -/
abbrev payload : BitField 32 := ⟨0, 16, by omega⟩

/-- `cs_cb.reg_sel` and `check_io_cb.reg_sel`. -/
abbrev regSel : BitField 32 := ⟨16, 5, by omega⟩

/-- `set_rot_coeff_cb.cos_theta_r`. -/
abbrev cosThetaR : BitField 32 := ⟨0, 14, by omega⟩

/-- `set_rot_coeff_cb.sin_theta_r`. -/
abbrev sinThetaR : BitField 32 := ⟨14, 14, by omega⟩

/-- `commit_rot_coeff_cb.i_feed`. -/
abbrev iFeed : BitField 32 := ⟨0, 14, by omega⟩

/-- `commit_rot_coeff_cb.q_feed`. -/
abbrev qFeed : BitField 32 := ⟨14, 14, by omega⟩

/-- `get_frame_cb.dma_engaged`. -/
abbrev dmaEngaged : BitField 32 := ⟨0, 1, by omega⟩

/-- `get_frame_cb.decimation`. -/
abbrev decimation : BitField 32 := ⟨1, 22, by omega⟩

/-- `get_frame_cb.frame_code`. -/
abbrev frameCode : BitField 32 := ⟨23, 4, by omega⟩

/-- `set_pid_cb.payload_r` and `set_fir_cb.payload_r`. -/
abbrev payloadR : BitField 32 := ⟨0, 16, by omega⟩

/-- `set_pid_cb.coeff_sel_r`. -/
abbrev coeffSelR : BitField 32 := ⟨16, 4, by omega⟩

/-- `set_fir_cb.update_sel_r`. -/
abbrev updateSelR : BitField 32 := ⟨16, 3, by omega⟩

/-- `set_nco_cb.nco_en_r`. -/
abbrev ncoEnR : BitField 32 := ⟨0, 1, by omega⟩

/-- `set_nco_cb.nco_inv_r`. -/
abbrev ncoInvR : BitField 32 := ⟨1, 1, by omega⟩

/-- `set_nco_cb.nco_sub_r`. -/
abbrev ncoSubR : BitField 32 := ⟨2, 1, by omega⟩

/-- `set_nco_cb.nco_shift_r`. -/
abbrev ncoShiftR : BitField 32 := ⟨3, 12, by omega⟩

/-- `set_nco_cb.nco_stride_r`. -/
abbrev ncoStrideR : BitField 32 := ⟨15, 12, by omega⟩

/-- `config_io_cb.dac1_dat_sel_r` and `check_io_cb.dac1_dat_sel_r`. -/
abbrev dac1DatSelR : BitField 32 := ⟨0, 3, by omega⟩

/-- `config_io_cb.dac2_dat_sel_r` and `check_io_cb.dac2_dat_sel_r`. -/
abbrev dac2DatSelR : BitField 32 := ⟨3, 3, by omega⟩

/-- `config_io_cb.pid_dat_sel_r` and `check_io_cb.pid_dat_sel_r`. -/
abbrev pidDatSelR : BitField 32 := ⟨6, 3, by omega⟩

/-- `config_demod_cb.ref_sel_r`. -/
abbrev refSelR : BitField 32 := ⟨0, 1, by omega⟩

/-- `config_demod_cb.in_sel_r`. -/
abbrev inSelR : BitField 32 := ⟨1, 3, by omega⟩

/-- `config_demod_cb.lpf_alpha_r`. -/
abbrev lpfAlphaR : BitField 32 := ⟨4, 4, by omega⟩

end PdhCallbackT

/-! ## Calls -/

/-- What a handler asks of the hardware and of the operating system.  A line of integers
and a line of {lit}`%f` fields are two calls of `fprintf`. -/
inductive Call where
  | pdhSendCmd (raw : BitVec 32)
  | pdhGetCallback
  | uioAckIrq
  | uioWaitIrq
  | select (tvUsec : BitVec 32)
  | dmaGetFrame (byteOffset : BitVec 32)
  | usleep (usec : BitVec 32)
  | fopen (path : String)
  | fprintf (fields : List ℤ)
  | fprintfFloats (fields : List (List Char))
  | fclose (path : String)
deriving DecidableEq, Repr

/-- The responses: the callback word, the result of `select`, a word of the frame, and
whether the file could be opened. -/
abbrev Call.Response : Call → Type
  | .pdhSendCmd _ => Unit
  | .pdhGetCallback => BitVec 32
  | .uioAckIrq => Unit
  | .uioWaitIrq => Unit
  | .select _ => ℤ
  | .dmaGetFrame _ => BitVec 64
  | .usleep _ => Unit
  | .fopen _ => Bool
  | .fprintf _ => Unit
  | .fprintfFloats _ => Unit
  | .fclose _ => Unit

instance (c : Call) : Inhabited c.Response where
  default :=
    match c with
    | .pdhSendCmd _ => ()
    | .pdhGetCallback => 0#32
    | .uioAckIrq => ()
    | .uioWaitIrq => ()
    | .select _ => (0 : ℤ)
    | .dmaGetFrame _ => 0#64
    | .usleep _ => ()
    | .fopen _ => true
    | .fprintf _ => ()
    | .fprintfFloats _ => ()
    | .fclose _ => ()

/-- A routine of the server. -/
abbrev Routine := Program Call.Response

/-- The routine that makes one call. -/
def Call.run (c : Call) : Routine c.Response := Program.op c

/-- The words that a call sends. -/
def Call.sent : Call → List (BitVec 32)
  | .pdhSendCmd raw => [raw]
  | _ => []

theorem Call.run_emits (c : Call) : Program.Emits Call.sent c.run c.sent :=
  .op c

/-! ## Strobes -/

/-- The strobe is set to 0, then to 1. -/
def strobed (cmd : BitVec 32) : List (BitVec 32) :=
  [PdhCmdT.strobe.set 0#1 cmd, PdhCmdT.strobe.set 1#1 cmd]

/-- `pdh_strobe_cmd`. -/
def pdhStrobeCmd (cmd : BitVec 32) : Routine Unit := do
  (Call.pdhSendCmd (PdhCmdT.strobe.set 0#1 cmd)).run
  (Call.pdhSendCmd (PdhCmdT.strobe.set 1#1 cmd)).run

/-- `pdh_execute_cmd`. -/
def pdhExecuteCmd (cmd : BitVec 32) : Routine (BitVec 32) := do
  (Call.pdhSendCmd (PdhCmdT.strobe.set 0#1 cmd)).run
  (Call.pdhSendCmd (PdhCmdT.strobe.set 1#1 cmd)).run
  Call.pdhGetCallback.run

theorem pdhExecuteCmd_emits (cmd : BitVec 32) :
    Program.Emits Call.sent (pdhExecuteCmd cmd) (strobed cmd) :=
  .bind (Call.run_emits _) fun _ => .bind (Call.run_emits _) fun _ => Call.run_emits _

end Server
end PoundDreverHall
