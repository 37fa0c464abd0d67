import PoundDreverHall.Rtl.Primitives

/-!
# RTL - `dma_controller`

The AXI3 write master that streams the capture BRAM to DDR.  On a rising edge
of {lit}`enable_i` it issues 16-beat incremental bursts from
{lit}`HP0_BASE_ADDR` on, until {lit}`DMA_SIZE` bytes are acknowledged.

The definitions follow `dma_controller.sv` line by line: the next-state logic,
the signal logic, and one clock edge of {lit}`aclk`.
-/

namespace PoundDreverHall
namespace DmaController

/-- Module parameters; the defaults are the ones `pdh_top` uses. -/
structure Params where
  hp0BaseAddr : BitVec 32 := 0x10000000#32
  dmaSize : BitVec 32 := 0x00020000#32
deriving DecidableEq, Repr

/-- `FINAL_WRITE_ADDR`, in 32-bit arithmetic. -/
def Params.finalWriteAddr (P : Params) : BitVec 32 :=
  P.hp0BaseAddr + P.dmaSize - 1#32

/-- `ADDR_INC`: beats per burst times bytes per beat. -/
def addrInc : BitVec 32 := 128#32

/-- `BEAT_BASE`. -/
def beatBase : BitVec 5 := 0#5

/-- `BURST_LEN`: AXI encodes a burst of sixteen beats as fifteen. -/
def burstLen : BitVec 4 := 15#4

/-- The encoding of an OKAY response. -/
def respOkay : BitVec 2 := 0b00#2

/-- `state_t`.  Its two bits have no other value, so the `default` branches of
the source are unreachable. -/
inductive St where
  | idle
  | setAddrAwaitAck
  | setDataAwaitAck
  | awaitResp
deriving DecidableEq, Repr

/-- Input ports. -/
structure Input where
  rstI : Bool
  mAxiAwready : Bool
  mAxiWready : Bool
  mAxiBvalid : Bool
  mAxiBresp : BitVec 2
  enableI : Bool
  dataI : BitVec 64
deriving DecidableEq, Repr

/-- Registers. -/
structure State where
  rst : ResetSync
  enable1ff : Bool
  enable2ff : Bool
  enable3ff : Bool
  uEnableEdgeDetector : PosedgeDetector
  stateR : St
  addrR : BitVec 32
  beatR : BitVec 5
  dataR : BitVec 64
deriving DecidableEq, Repr

/-! ## Combinational logic -/

/-- `enable_sync_edge_w`. -/
def enableSyncEdgeW (s : State) : Bool :=
  s.uEnableEdgeDetector.q s.enable3ff

/-- Whether the beat now offered is the last one of its burst
(`beat_r == BURST_LEN`, the 4-bit constant zero-extended). -/
def lastBeat (s : State) : Bool :=
  s.beatR == burstLen.setWidth 5

/-- `next_state_w`. -/
def nextStateW (P : Params) (i : Input) (s : State) : St :=
  match s.stateR with
  | .idle => if enableSyncEdgeW s then .setAddrAwaitAck else .idle
  | .setAddrAwaitAck => if i.mAxiAwready then .setDataAwaitAck else .setAddrAwaitAck
  | .setDataAwaitAck =>
      if i.mAxiWready && lastBeat s then .awaitResp else .setDataAwaitAck
  | .awaitResp =>
      if i.mAxiBvalid then
        if i.mAxiBresp = respOkay then
          if P.finalWriteAddr < s.addrR + addrInc then .idle else .setAddrAwaitAck
        else .setAddrAwaitAck
      else .awaitResp

/-- `next_addr_w`. -/
def nextAddrW (P : Params) (i : Input) (s : State) : BitVec 32 :=
  match s.stateR with
  | .idle => P.hp0BaseAddr
  | .setAddrAwaitAck => s.addrR
  | .setDataAwaitAck => s.addrR
  | .awaitResp =>
      if i.mAxiBvalid && i.mAxiBresp == respOkay then s.addrR + addrInc else s.addrR

/-- `next_beat_w`. -/
def nextBeatW (i : Input) (s : State) : BitVec 5 :=
  match s.stateR with
  | .idle => beatBase
  | .setAddrAwaitAck => beatBase
  | .setDataAwaitAck => if i.mAxiWready then s.beatR + 1#5 else s.beatR
  | .awaitResp => beatBase

/-- `next_data_w`. -/
def nextDataW (i : Input) (s : State) : BitVec 64 :=
  match s.stateR with
  | .idle => 0#64
  | .setAddrAwaitAck => i.dataI
  | .setDataAwaitAck => if i.mAxiWready then i.dataI else s.dataR
  | .awaitResp => 0#64

/-! ## Output ports -/

/-- `m_axi_awaddr`. -/
def mAxiAwaddr (s : State) : BitVec 32 := s.addrR

/-- `m_axi_awvalid`. -/
def mAxiAwvalid (s : State) : Bool := s.stateR == .setAddrAwaitAck

/-- `m_axi_wdata`. -/
def mAxiWdata (s : State) : BitVec 64 := s.dataR

/-- `m_axi_wvalid`. -/
def mAxiWvalid (s : State) : Bool := s.stateR == .setDataAwaitAck

/-- `m_axi_wlast`. -/
def mAxiWlast (s : State) : Bool := s.stateR == .setDataAwaitAck && lastBeat s

/-- `m_axi_bready`. -/
def mAxiBready (s : State) : Bool := s.stateR == .awaitResp

/-- `dma_ready_o`. -/
def dmaReadyO (s : State) : Bool := s.stateR == .idle

/-- `bram_addr_o`: the word index of the burst plus the beat. -/
def bramAddrO (P : Params) (s : State) : BitVec 32 :=
  ((s.addrR - P.hp0BaseAddr) >>> 3) + s.beatR.setWidth 32

/-! ## Clocked behaviour -/

/-- Effect of a rising {lit}`rst_i` between clock edges. -/
def asyncReset (s : State) : State :=
  { s with
    rst := .asserted
    uEnableEdgeDetector := .cleared }

/-- Registers cleared by the synchronous reset. -/
def resetRegs (P : Params) (s : State) : State :=
  { s with
    enable1ff := false
    enable2ff := false
    enable3ff := false
    stateR := .idle
    addrR := P.hp0BaseAddr
    beatR := beatBase
    dataR := 0#64 }

/-- One rising edge of {lit}`aclk`. -/
def posedge (P : Params) (i : Input) (s : State) : State :=
  { (if s.rst.rstSyncR then resetRegs P s
      else
        { s with
          enable1ff := i.enableI
          enable2ff := s.enable1ff
          enable3ff := s.enable2ff
          stateR := nextStateW P i s
          addrR := nextAddrW P i s
          beatR := nextBeatW i s
          dataR := nextDataW i s }) with
    rst := s.rst.clock i.rstI
    uEnableEdgeDetector := s.uEnableEdgeDetector.clock i.rstI s.enable3ff }

/-- One clock period with stable inputs. -/
def step (P : Params) (i : Input) (s : State) : State :=
  posedge P i (if i.rstI then asyncReset s else s)

/-- The state in which {lit}`rst_i` is released: every register has its reset
value and the reset pipeline is full. -/
def resetState (P : Params) : State where
  rst := .asserted
  enable1ff := false
  enable2ff := false
  enable3ff := false
  uEnableEdgeDetector := .cleared
  stateR := .idle
  addrR := P.hp0BaseAddr
  beatR := beatBase
  dataR := 0#64

/-- A clock edge under reset leaves the reset state, whatever came before. -/
theorem step_reset (P : Params) (i : Input) (s : State) (h : i.rstI = true) :
    step P i s = resetState P := by
  simp [step, posedge, h, asyncReset, resetRegs, resetState, ResetSync.asserted,
    PosedgeDetector.clock, PosedgeDetector.cleared]

end DmaController
end PoundDreverHall
