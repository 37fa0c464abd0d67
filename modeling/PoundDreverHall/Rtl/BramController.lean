import PoundDreverHall.Rtl.Primitives

/-!
# RTL - `bram_controller` and `dc_bram`

On a rising edge of {lit}`enable_i` the controller writes {lit}`DEPTH` samples
into a dual-clock memory, advancing the address at the requested decimation,
and then reports ready again.  The memory is written on {lit}`pdh_clk` and read
on {lit}`axi_clk`; the two ports are kept as separate operations because their
clocks are unrelated.
-/

namespace PoundDreverHall

/-! ## Memory -/

namespace DcBram

/-- Contents of the array `mem`. -/
abbrev Mem (aw : ℕ) := BitVec aw → BitVec 64

/-- One edge of {lit}`wclk`. -/
def write {aw : ℕ} (we : Bool) (waddr : BitVec aw) (wdata : BitVec 64) (mem : Mem aw) :
    Mem aw :=
  if we then Function.update mem waddr wdata else mem

/-- The value {lit}`rdata` takes on one edge of {lit}`rclk`. -/
def read {aw : ℕ} (raddr : BitVec aw) (mem : Mem aw) : BitVec 64 :=
  mem raddr

end DcBram

/-! ## Controller -/

namespace BramController

/-- Module parameters; the defaults are the ones `pdh_top` uses. -/
structure Params where
  depth : ℕ := 16384
  aw : ℕ := 14
deriving DecidableEq, Repr

/-- `state_t`. -/
inductive St where
  | idle
  | captureData
deriving DecidableEq, Repr

/-- Input ports of the write side. -/
structure Input where
  rstI : Bool
  din : BitVec 64
  enableI : Bool
  decimationCodeI : BitVec 22
deriving DecidableEq, Repr

/-- Registers. -/
structure State (P : Params) where
  rst : ResetSync
  uEnableEdgeDetector : PosedgeDetector
  stateR : St
  addrR : BitVec P.aw
  decimationCodeR : BitVec 22
  countR : BitVec 22
deriving DecidableEq, Repr

variable {P : Params}

/-- `enable_sync_edge_w`. -/
def enableSyncEdgeW (i : Input) (s : State P) : Bool :=
  s.uEnableEdgeDetector.q i.enableI

/-- Whether the address has reached the last word (`addr_r == DEPTH-1`). -/
def lastAddr (s : State P) : Bool :=
  s.addrR.toNat == P.depth - 1

/-- `next_state_w`. -/
def nextStateW (i : Input) (s : State P) : St :=
  match s.stateR with
  | .idle => if enableSyncEdgeW i s then .captureData else .idle
  | .captureData => if lastAddr s then .idle else .captureData

/-- `bram_ready_o`. -/
def bramReadyO (s : State P) : Bool := s.stateR == .idle

/-- `bram_we_w`. -/
def bramWeW (s : State P) : Bool := s.stateR == .captureData

/-- `next_addr_w`. -/
def nextAddrW (s : State P) : BitVec P.aw :=
  match s.stateR with
  | .idle => 0
  | .captureData => if s.countR = 0#22 then s.addrR + 1 else s.addrR

/-- `next_decimation_code_w`. -/
def nextDecimationCodeW (i : Input) (s : State P) : BitVec 22 :=
  match s.stateR with
  | .idle => if enableSyncEdgeW i s then i.decimationCodeI else s.decimationCodeR
  | .captureData => s.decimationCodeR

/-- `next_count_w`.  The unsized literal makes the comparison 32 bits wide, so
that a decimation code of zero is never reached. -/
def nextCountW (s : State P) : BitVec 22 :=
  match s.stateR with
  | .idle => 0#22
  | .captureData =>
      if s.decimationCodeR.setWidth 32 - 1#32 ≤ s.countR.setWidth 32 then 0#22
      else s.countR + 1#22

/-- Effect of a rising {lit}`rst_i` between clock edges. -/
def asyncReset (s : State P) : State P :=
  { s with
    rst := .asserted
    uEnableEdgeDetector := .cleared }

/-- Registers cleared by the synchronous reset. -/
def resetRegs (s : State P) : State P :=
  { s with
    stateR := .idle
    addrR := 0
    decimationCodeR := 1#22
    countR := 0#22 }

/-- One rising edge of {lit}`pdh_clk`. -/
def posedge (i : Input) (s : State P) : State P :=
  { (if s.rst.rstSyncR then resetRegs s
      else
        { s with
          stateR := nextStateW i s
          addrR := nextAddrW s
          decimationCodeR := nextDecimationCodeW i s
          countR := nextCountW s }) with
    rst := s.rst.clock i.rstI
    uEnableEdgeDetector := s.uEnableEdgeDetector.clock i.rstI i.enableI }

/-- One clock period with stable inputs. -/
def step (i : Input) (s : State P) : State P :=
  posedge i (if i.rstI then asyncReset s else s)

/-- The memory after the same clock edge. -/
def stepMem (i : Input) (s : State P) (mem : DcBram.Mem P.aw) : DcBram.Mem P.aw :=
  DcBram.write (bramWeW s) s.addrR i.din mem

/-- The state in which {lit}`rst_i` is released. -/
def resetState : State P where
  rst := .asserted
  uEnableEdgeDetector := .cleared
  stateR := .idle
  addrR := 0
  decimationCodeR := 1#22
  countR := 0#22

/-- A clock edge under reset leaves the reset state, whatever came before. -/
theorem step_reset (i : Input) (s : State P) (h : i.rstI = true) :
    step i s = resetState := by
  simp [step, posedge, h, asyncReset, resetRegs, resetState, ResetSync.asserted,
    PosedgeDetector.clock, PosedgeDetector.cleared]

end BramController
end PoundDreverHall
