import Mathlib.Data.BitVec

/-!
# RTL primitives - reset synchroniser and edge detector

Every clock domain of the design brings the asynchronous reset {lit}`rst_i`
through the same two-register pipeline, and every level that starts a state
machine goes through a `posedge_detector`.  Both have an asynchronous reset: a
rising {lit}`rst_i` sets or clears them between clock edges.  The model keeps
that as a separate operation and leaves only the clocked part in the edge.
-/

namespace PoundDreverHall

/-! ## Reset pipeline -/

/-- The registers `{rst_sync_r, rst_pipe1_r}` of one clock domain. -/
structure ResetSync where
  rstSyncR : Bool
  rstPipe1R : Bool
deriving DecidableEq, Repr

namespace ResetSync

/-- Contents while {lit}`rst_i` is high. -/
def asserted : ResetSync where
  rstSyncR := true
  rstPipe1R := true

/-- Contents once the pipeline has drained. -/
def released : ResetSync where
  rstSyncR := false
  rstPipe1R := false

/-- One clock edge: held at ones by {lit}`rst_i`, shifting zeros in otherwise. -/
def clock (rstI : Bool) (r : ResetSync) : ResetSync :=
  if rstI then asserted else { rstSyncR := r.rstPipe1R, rstPipe1R := false }

@[simp]
theorem clock_true (r : ResetSync) : clock true r = asserted :=
  rfl

@[simp]
theorem clock_false (r : ResetSync) :
    clock false r = { rstSyncR := r.rstPipe1R, rstPipe1R := false } :=
  rfl

@[simp]
theorem clock_released : clock false released = released :=
  rfl

end ResetSync

/-! ## `posedge_detector` -/

/-- The register `prev_D` of a `posedge_detector`. -/
structure PosedgeDetector where
  prevD : Bool
deriving DecidableEq, Repr

namespace PosedgeDetector

/-- Contents after the asynchronous reset. -/
def cleared : PosedgeDetector where
  prevD := false

/-- The combinational output `Q = D & ~prev_D`. -/
def q (p : PosedgeDetector) (d : Bool) : Bool :=
  d && !p.prevD

/-- One clock edge, with the level of the detector's own {lit}`rst` input. -/
def clock (rst d : Bool) (_ : PosedgeDetector) : PosedgeDetector where
  prevD := if rst then false else d

@[simp]
theorem clock_prevD (rst d : Bool) (p : PosedgeDetector) :
    (clock rst d p).prevD = (!rst && d) := by
  cases rst <;> simp [clock]

theorem q_eq_true_iff (p : PosedgeDetector) (d : Bool) :
    p.q d = true ↔ d = true ∧ p.prevD = false := by
  simp [q]

end PosedgeDetector

end PoundDreverHall
