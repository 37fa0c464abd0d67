import PoundDreverHall.Clocked.Run
import PoundDreverHall.Rtl.BramController
import PoundDreverHall.Rtl.DmaController

/-!
# RTL - the read-out path of `pdh_top`

On {lit}`fclk0` the DMA controller addresses the read port of the capture
memory, and the registered output of that port is its {lit}`data_i`.  The
32-bit word address is truncated to the address width of the memory.
-/

namespace PoundDreverHall
namespace ReadOut

open Clocked

/-- Inputs of one {lit}`fclk0` cycle: reset, the enable level, and the slave. -/
structure Input where
  rstI : Bool
  mAxiAwready : Bool
  mAxiWready : Bool
  mAxiBvalid : Bool
  mAxiBresp : BitVec 2
  enableI : Bool
deriving DecidableEq, Repr

/-- The DMA controller and the output register `rdata` of the memory. -/
structure State where
  uDma : DmaController.State
  rdata : BitVec 64
deriving DecidableEq, Repr

/-- The ports of the DMA controller, with {lit}`data_i` driven by the memory. -/
def Input.toDma (i : Input) (dataI : BitVec 64) : DmaController.Input where
  rstI := i.rstI
  mAxiAwready := i.mAxiAwready
  mAxiWready := i.mAxiWready
  mAxiBvalid := i.mAxiBvalid
  mAxiBresp := i.mAxiBresp
  enableI := i.enableI
  dataI := dataI

/-- One rising edge of {lit}`fclk0`. -/
def step {aw : ℕ} (P : DmaController.Params) (mem : DcBram.Mem aw) (i : Input) (s : State) :
    State where
  uDma := DmaController.step P (i.toDma s.rdata) s.uDma
  rdata := DcBram.read ((DmaController.bramAddrO P s.uDma).setWidth aw) mem

/-- Inputs the DMA controller sees along a run of the read-out path. -/
def dmaInputs {aw : ℕ} (P : DmaController.Params) (mem : DcBram.Mem aw) (s₀ : State)
    (ins : ℕ → Input) (t : ℕ) : DmaController.Input :=
  (ins t).toDma (run (step P mem) s₀ ins t).rdata

/-- Along a run of the read-out path the DMA controller makes a run of its own. -/
theorem run_uDma {aw : ℕ} (P : DmaController.Params) (mem : DcBram.Mem aw) (s₀ : State)
    (ins : ℕ → Input) (n : ℕ) :
    (run (step P mem) s₀ ins n).uDma =
      run (DmaController.step P) s₀.uDma (dmaInputs P mem s₀ ins) n := by
  induction n with
  | zero => rfl
  | succ n ih =>
      rw [run_succ, run_succ, ← ih]
      rfl

end ReadOut
end PoundDreverHall
