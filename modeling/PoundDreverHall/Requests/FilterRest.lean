import PoundDreverHall.Requests.FirLoad

/-!
# Requests - what the filter comes to rest at

The commands that a request has sent are still on their way through the synchroniser when
the next request begins.  This file follows what the registers and the staging memory come
to rest at: a clock period changes it by the command that rises in that period, and by
nothing else.

Main results:

- Definition {lit}`settled`: the registers and the staging memory at rest.
- Theorem {lit}`settled_step`: one clock period outside reset.
- Theorem {lit}`settled_run`: a run of clock periods.
- Theorem {lit}`rests`: on a silent bus the core comes to rest.
-/

namespace PoundDreverHall
namespace Requests

open Clocked Device Server PdhCore

/-- The registers and the staging memory once the pending commands have been executed. -/
def settled (s : State) : Regs × CoeffSet :=
  (pending s.latch).foldl (fun c w => execStaging w c)
    (s.regs, writeStaging s.regs s.path.uFir.tapCoeffs)

/-! ## One clock period -/

section Step

variable (rom : Nco.Rom) {i : Input} {s : State}

/-- The staging memory has no reset. -/
theorem tapCoeffs_step (i : Input) (s : State) :
    (step rom i s).path.uFir.tapCoeffs = writeStaging s.regs s.path.uFir.tapCoeffs := by
  cases hi : i.rstI with
  | false =>
      simp only [step, hi]
      rfl
  | true =>
      simp only [step, hi]
      rfl

/-- A clock period moves the words in flight on by one register. -/
theorem inFlight_step (l : Latch) (w : BitVec 32) :
    (load l).toList ++ inFlight (l.step false w) =
      inFlight l ++ if strobeBit w && !strobeBit l.axi1ffR then [w] else [] := by
  have hload : (load (l.step false w)).toList =
      if strobeBit l.axi2ffR && !strobeBit l.axi3ffR then [l.axi2ffR] else [] := by
    change (if strobeBit l.axi2ffR && !strobeBit l.axi3ffR then some l.axi2ffR else none).toList = _
    split_ifs <;> rfl
  rw [inFlight, hload, inFlight]
  simp only [List.append_assoc]
  rfl

/-- A clock period outside reset adds the command that rises, if there is one. -/
theorem settled_step (hs : Live s) (hi : i.rstI = false) :
    settled (step rom i s) =
      if strobeBit i.axiFromPsI && !strobeBit s.latch.axi1ffR then
        execStaging i.axiFromPsI (settled s)
      else settled s := by
  have hlatch : (step rom i s).latch = s.latch.step false i.axiFromPsI := by
    rw [step_live rom hs hi]
    rfl
  have hregs : (step rom i s).regs = execRegs s.latch.axiFromPsR s.regs := by
    rw [step_live rom hs hi, next_eq_execRegs]
  -- the command that is executed again has no effect
  have hload : ∀ c, execStaging s.latch.nextAxiFromPsW (execStaging s.latch.axiFromPsR c) =
      (load s.latch).toList.foldl (fun c w => execStaging w c)
        (execStaging s.latch.axiFromPsR c) := by
    intro c
    rw [nextAxiFromPsW_eq]
    cases load s.latch with
    | none => exact execStaging_execStaging _ c
    | some w => rfl
  have hflight := inFlight_step s.latch i.axiFromPsI
  rw [settled, tapCoeffs_step, hlatch, hregs, pending, List.foldl_cons]
  change (inFlight _).foldl _ (execStaging s.latch.nextAxiFromPsW
    (execStaging s.latch.axiFromPsR (s.regs, writeStaging s.regs s.path.uFir.tapCoeffs))) = _
  rw [hload, ← List.foldl_append, hflight, List.foldl_append, settled, pending, List.foldl_cons]
  split_ifs
  · rfl
  · rfl

end Step

/-! ## Runs -/

section Run

variable (rom : Nco.Rom) {s : State} (hs : Live s) {ins : ℕ → Input}

include hs

/-- The command that rises in each clock period is added to those before. -/
theorem settled_run (hins : ∀ n, (ins n).rstI = false)
    (hlow : strobeBit (busWords ins 0) = false) (n : ℕ) :
    settled (run (step rom) s ins n) =
      (risen strobeBit (busWords ins) n).foldl (fun c w => execStaging w c) (settled s) := by
  induction n with
  | zero => rfl
  | succ n ih =>
      have hrise : (strobeBit (ins n).axiFromPsI &&
          !strobeBit (run (step rom) s ins n).latch.axi1ffR) = rise strobeBit (busWords ins) n := by
        cases n with
        | zero =>
            change strobeBit (ins 0).axiFromPsI = false at hlow
            simp [rise, busWords, hlow]
        | succ n =>
            rw [latch_succ rom hs hins]
            rfl
      rw [run_succ, settled_step rom (run_live rom hs hins n) (hins n), hrise, ih, risen_succ,
        List.foldl_append]
      split_ifs
      · rfl
      · rfl

/-- A carried sequence adds its rising words. -/
theorem settled_of_carries {words : List (BitVec 32)} {n : ℕ}
    (hbus : CarriesBy (busWords ins) words n) (hrst : ∀ w ∈ words, rstBit w = false)
    (hlow : strobeBit (words.getD 0 0#32) = false) :
    settled (run (step rom) s ins (n + 1)) =
      (risingWords words).foldl (fun c w => execStaging w c) (settled s) := by
  have hins : ∀ n, (ins n).rstI = false := fun n => hrst _ (hbus.mem n)
  rcases hbus with ⟨idx, hidx, hwords, hn⟩
  have hshown : busWords ins = fun n => words.getD (idx n) 0#32 := by
    funext n
    rw [List.getD_eq_getElem?_getD, hwords n]
    rfl
  have hfirst : strobeBit (busWords ins 0) = false := by
    rw [congrFun hshown 0, hidx.zero, hlow]
  rw [settled_run rom hs hins hfirst, hshown,
    risen_held hidx strobeBit fun j => words.getD j 0#32, hn]
  rfl

variable {w : BitVec 32} (hbus : ∀ n, busWords ins n = w) (hrst : rstBit w = false)
  (hw : s.latch.axi1ffR = w)

include hbus hrst hw

/-- On a silent bus no command is added. -/
theorem settled_of_silent (n : ℕ) : settled (run (step rom) s ins n) = settled s := by
  have hins := rstI_of_silent hbus hrst
  induction n with
  | zero => rfl
  | succ n ih =>
      have hlevel : (run (step rom) s ins n).latch.axi1ffR = w := by
        cases n with
        | zero => exact hw
        | succ n =>
            rw [latch_succ rom hs hins]
            exact hbus n
      have hword : (ins n).axiFromPsI = w := hbus n
      rw [run_succ, settled_step rom (run_live rom hs hins n) (hins n), hlevel, hword, ih]
      simp

/-- After three clock periods nothing is in flight. -/
theorem inFlight_of_silent (n : ℕ) : inFlight (run (step rom) s ins (n + 3)).latch = [] := by
  have hins := rstI_of_silent hbus hrst
  have hlevel : ∀ n, (run (step rom) s ins n).latch.axi1ffR = w := by
    intro n
    cases n with
    | zero => exact hw
    | succ n =>
        rw [latch_succ rom hs hins]
        exact hbus n
  have htwo : ∀ n, (run (step rom) s ins (n + 1)).latch.axi2ffR = w := by
    intro n
    rw [latch_succ rom hs hins, hlevel]
  have hthree : ∀ n, (run (step rom) s ins (n + 2)).latch.axi3ffR = w := by
    intro n
    rw [latch_succ rom hs hins, htwo]
  have hprev : (run (step rom) s ins (n + 3)).latch.uStrobeEdgeDetector.prevD = strobeBit w := by
    rw [latch_succ rom hs hins, hthree]
  rw [inFlight, load, Latch.strobeEdgeW, PosedgeDetector.q, hprev, hlevel, htwo (n + 2),
    hthree (n + 1)]
  simp

/-- The core comes to rest. -/
theorem rests (n : ℕ) :
    (run (step rom) s ins (n + 5)).regs = (settled s).1 ∧
      (run (step rom) s ins (n + 5)).path.uFir.tapCoeffs = (settled s).2 := by
  have hins := rstI_of_silent hbus hrst
  -- one clock period executes the command in the latch, the next one stores the coefficient
  have hregs : ∀ n, (run (step rom) s ins (n + 4)).regs = (settled s).1 := by
    intro n
    have hsettled := settled_of_silent rom hs hbus hrst hw (n + 3)
    rw [settled, pending, inFlight_of_silent rom hs hbus hrst hw n] at hsettled
    rw [run_succ, step_live rom (run_live rom hs hins (n + 3)) (hins (n + 3)), next_eq_execRegs]
    exact congrArg Prod.fst hsettled
  refine ⟨hregs (n + 1), ?_⟩
  have hsettled := settled_of_silent rom hs hbus hrst hw (n + 3)
  rw [settled, pending, inFlight_of_silent rom hs hbus hrst hw n] at hsettled
  have hstore := congrArg Prod.snd hsettled
  rw [run_succ, tapCoeffs_step, hregs n, run_succ, tapCoeffs_step, ← hstore, ← hsettled]
  rfl

end Run

end Requests
end PoundDreverHall
