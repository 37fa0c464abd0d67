import PoundDreverHall.Requests.Behaviour
import PoundDreverHall.Requests.Layouts
import PoundDreverHall.Requests.PidSwitchOn

/-!
# Requests - switching the oscillator over

`cmd_set_nco` disables the oscillator, writes its four parameters, and enables it again.
While the oscillator is enabled, its parameters are those from before the request or
those of the request, and never a mixture.

Main results:

- Theorem {lit}`cmdSetNco_emits`: the words of a request; a rejected one sends none.
- Theorem {lit}`exists_progress`: the registers along a sequence of strobed commands.
- Theorem {lit}`setNco_atomic`: the oscillator is switched over at once.
-/

namespace PoundDreverHall
namespace Requests

open Clocked Device Server PdhCore

/-! ## Oscillator writes -/

section SetNco

variable (sel : NcoCoeffSelE) (payload : BitVec 16)

theorem payload_setNcoWord : PdhCmdT.payload.get (setNcoWord sel payload) = payload :=
  BitField.get_set PdhCmdT.payload payload _

theorem cmdW_setNcoWord : cmdW (setNcoWord sel payload) = .setNco := by
  rw [setNcoWord, cmdW_set (Nat.le_of_ble_eq_true rfl), cmdW_set (Nat.le_of_ble_eq_true rfl),
    cmdW_cmdWord]
  rfl

theorem ncoCoeffSel_setNcoWord :
    (dataW (setNcoWord sel payload)).extractLsb' 16 3 = sel.code := by
  have hpayload := BitField.get_set_of_disjoint (f := PdhCmdT.payload) (g := PdhCmdT.ncoCoeffSel)
    (.inl (Nat.le_refl 16)) payload (PdhCmdT.ncoCoeffSel.set sel.code (cmdWord .setNco))
  rw [dataW_extractLsb' _ (by omega)]
  exact hpayload.trans (BitField.get_set PdhCmdT.ncoCoeffSel sel.code _)

/-- The effect of an oscillator write. -/
theorem execRegs_setNcoWord (r : Regs) :
    execRegs (setNcoWord sel payload) r = writeNco sel payload r := by
  have hpayload := payload_setNcoWord sel payload
  rw [execRegs, cmdW_setNcoWord]
  simp only [ncoCoeffSelectW, ncoCoeffSel_setNcoWord]
  cases sel <;>
    simp only [NcoCoeffSelE.code, execNco, writeNco, dataW_of_payload hpayload,
      getLsbD_zero_of_payload hpayload, Nat.reduceLeDiff]

end SetNco

/-! ## The writes of a request -/

/-- The four parameters of the oscillator. -/
structure NcoTuple where
  stride : BitVec 12
  shift : BitVec 12
  inv : Bool
  sub : Bool
deriving DecidableEq, Repr

/-- The parameters in the registers. -/
def ncoTuple (r : Regs) : NcoTuple where
  stride := r.ncoStrideR
  shift := r.ncoShiftR
  inv := r.ncoInvR
  sub := r.ncoSubR

section Request

variable {F : Type} [MixedPrecision F]

open SinglePrecision

/-- The phase shift that a request asks for. -/
def requestQuadrant (ctx : CmdCtx F) : Quadrant :=
  quadrant (shiftRad (mul (ctx.floatArgs 1) (lit (-1))))

/-- The parameters of a request. -/
def requestTuple (ctx : CmdCtx F) : NcoTuple where
  stride := (strideOf (ctx.floatArgs 0)).setWidth 12
  shift := (requestQuadrant ctx).shiftInt.setWidth 12
  inv := (requestQuadrant ctx).inv.getLsbD 0
  sub := (requestQuadrant ctx).sub.getLsbD 0

/-- The parameters that a request writes, with the payloads. -/
def ncoTupleWrites (ctx : CmdCtx F) : List (NcoCoeffSelE × BitVec 16) :=
  [(.stride, (strideOf (ctx.floatArgs 0)).setWidth 16),
    (.shift, (requestQuadrant ctx).shiftInt.setWidth 16),
    (.inv, (requestQuadrant ctx).inv.setWidth 16),
    (.sub, (requestQuadrant ctx).sub.setWidth 16)]

/-- The registers that an accepted request writes, with the payloads. -/
def ncoWrites (ctx : CmdCtx F) : List (NcoCoeffSelE × BitVec 16) :=
  (.en, 0#16) :: (ncoTupleWrites ctx ++ [(.en, (ctx.uintArgs 0).setWidth 16)])

/-- The word of a write. -/
def ncoWrite (q : NcoCoeffSelE × BitVec 16) : BitVec 32 :=
  setNcoWord q.1 q.2

theorem length_ncoTupleWrites (ctx : CmdCtx F) : (ncoTupleWrites ctx).length = 4 :=
  rfl

theorem length_ncoWrites (ctx : CmdCtx F) : (ncoWrites ctx).length = 6 :=
  rfl

/-- A request sends its writes, each strobed once, whatever the callbacks are.  A rejected
one sends nothing. -/
theorem cmdSetNco_emits (ctx : CmdCtx F) :
    Program.Emits Call.sent (cmdSetNco ctx)
      (if ncoArgsCode ctx = .ok then ((ncoWrites ctx).map ncoWrite).flatMap strobed else []) := by
  unfold cmdSetNco
  by_cases hok : ncoArgsCode ctx = .ok
  · rw [if_pos hok, if_neg (not_not.mpr hok)]
    refine .bind (pdhExecuteCmd_emits _) fun _ => ?_
    refine .bind (pdhExecuteCmd_emits _) fun _ => ?_
    refine .bind (pdhExecuteCmd_emits _) fun _ => ?_
    refine .bind (pdhExecuteCmd_emits _) fun _ => ?_
    refine .bind (pdhExecuteCmd_emits _) fun _ => ?_
    exact .bind_pure (pdhExecuteCmd_emits _) _
  · rw [if_neg hok, if_pos hok]
    exact .pure _

theorem rstBit_of_mem_ncoWrites (ctx : CmdCtx F) :
    ∀ w ∈ (ncoWrites ctx).map ncoWrite, rstBit w = false := by
  intro w hw
  rcases List.mem_map.mp hw with ⟨q, -, rfl⟩
  exact rstBit_setNcoWord q.1 q.2

end Request

/-- The registers after some writes. -/
theorem after_ncoWrite (qs : List (NcoCoeffSelE × BitVec 16)) (r : Regs) (k : ℕ) :
    after execRegs (qs.map ncoWrite) r k = after (fun q => writeNco q.1 q.2) qs r k := by
  rw [after, after, ← List.map_take, List.foldl_map]
  congr 1
  funext r q
  exact execRegs_setNcoWord q.1 q.2 r

section Request

variable {F : Type} [MixedPrecision F] (ctx : CmdCtx F) (r : Regs)

/-- From the first write to the last the oscillator is disabled. -/
theorem ncoEnR_after_ncoWrites {k : ℕ} (hk : k < 5) :
    (after execRegs ((ncoWrites ctx).map ncoWrite) r (k + 1)).ncoEnR = false := by
  rw [after_ncoWrite]
  change (after _ (ncoTupleWrites ctx ++ _) (writeNco .en 0#16 r) k).ncoEnR = false
  rw [after_append_left (by rw [length_ncoTupleWrites]; omega)]
  refine after_invariant (Q := fun r : Regs => r.ncoEnR = false) rfl (fun q hq r hr => ?_) k
  simp only [ncoTupleWrites, List.mem_cons, List.not_mem_nil, or_false] at hq
  rcases hq with rfl | rfl | rfl | rfl <;> exact hr

/-- The last write leaves the parameters of the request. -/
theorem ncoTuple_after_ncoWrites :
    ncoTuple (after execRegs ((ncoWrites ctx).map ncoWrite) r 6) = requestTuple ctx := by
  have hwidth : ∀ x : BitVec 32, (x.setWidth 16).setWidth 12 = x.setWidth 12 :=
    fun x => BitVec.setWidth_setWidth_of_le x (by omega)
  have hbit : ∀ x : BitVec 32, (x.setWidth 16).getLsbD 0 = x.getLsbD 0 := by
    intro x
    simp
  rw [after_ncoWrite, ← length_ncoWrites ctx, after_length]
  simp only [ncoWrites, ncoTupleWrites, List.cons_append, List.nil_append, List.foldl_cons,
    List.foldl_nil, writeNco, ncoTuple, requestTuple, hwidth, hbit]

end Request

/-! ## Registers along a request -/

section Progress

variable (rom : Nco.Rom) {s : State} (hs : Reachable rom s) {ins : ℕ → Input}

include hs

/-- Along a sequence of strobed commands the registers are those after more and more of the
pending commands, and then those after more and more of the sequence. -/
theorem exists_progress {cmds : List (BitVec 32)} (hne : cmds ≠ [])
    (hrst : ∀ w ∈ cmds, rstBit w = false)
    (hcarries : Carries (busWords ins) (cmds.flatMap strobed)) :
    ∃ count, Held count ∧ (∃ last, count last = (pending s.latch).length + cmds.length) ∧
      (∀ n, count n ≤ (pending s.latch).length →
        (run (step rom) s ins n).regs = after execRegs (pending s.latch) s.regs (count n)) ∧
      ∀ n k, count n = (pending s.latch).length + k →
        (run (step rom) s ins n).regs = after execRegs cmds (settledRegs s) k := by
  have hwords := rstBit_of_mem_strobed hrst
  have hins := rstI_of_carries hcarries hwords
  have hlatch : Carries (fun n => (run (step rom) s ins n).latch.axiFromPsR)
      (pending s.latch ++ risingWords (cmds.flatMap strobed)) := by
    cases cmds with
    | nil => exact absurd rfl hne
    | cons c cmds => exact latch_carries rom hs hcarries hwords (strobeBit_strobe 0#1 c)
  rw [risingWords_strobed] at hlatch
  rcases hlatch with ⟨idx, hidx, hcmds, last, hlast⟩
  have hregs := eq_after_of_carries (c := fun n => (run (step rom) s ins n).regs)
    execRegs_execRegs (regs_succ rom hs hins) hidx hcmds
  have hall : ∀ n, (run (step rom) s ins n).regs =
      after execRegs (pending s.latch ++ cmds.map (PdhCmdT.strobe.set 1#1)) s.regs
        (n.casesOn 0 fun n => idx n + 1) := by
    intro n
    cases n with
    | zero => rfl
    | succ n => exact hregs n
  -- at the start none of the commands has been executed
  refine ⟨fun n => n.casesOn 0 fun n => idx n + 1, ⟨rfl, fun n => ?_⟩, ⟨last + 1, ?_⟩,
    fun n hn => ?_, fun n k hn => ?_⟩
  · cases n with
    | zero => exact .inr (by simp [hidx.zero])
    | succ n => simpa using hidx.succ n
  · simpa using hlast
  · rw [hall, after_append_left hn]
  · have hcount : (n.casesOn 0 fun n => idx n + 1 : ℕ) = (pending s.latch).length + k := hn
    rw [hall, hcount, after_append_right, after_strobed, settledRegs]

end Progress

section Silent

variable (rom : Nco.Rom) {s : State} {ins : ℕ → Input} {w : BitVec 32}
  (hbus : ∀ n, busWords ins n = w) (hrst : rstBit w = false)
  (hlow : strobeBit w = true → strobeBit s.latch.axi1ffR = true)

include hbus hrst hlow

/-- A bus that goes on showing a word that was there before adds no command. -/
theorem carries_pending_of_live (hs : Live s) :
    Carries (fun n => (run (step rom) s ins n).latch.axiFromPsR) (pending s.latch) := by
  have hins := rstI_of_silent hbus hrst
  have hnone : ∀ n, 3 ≤ n → load (run (step rom) s ins n).latch = none := by
    intro n hn
    obtain ⟨m, rfl⟩ := Nat.exists_eq_add_of_le' hn
    cases m with
    | zero =>
        rw [Nat.zero_add, load_three rom hs hins, hbus]
        cases hstrobe : strobeBit w with
        | false => rfl
        | true => simp [hlow hstrobe]
    | succ m =>
        rw [Nat.succ_add_eq_add_succ, load_add_four rom hs hins, rise, levelBefore, hbus, hbus]
        simp
  have hall : ∀ n, 3 ≤ n →
      loaded (fun k => load (run (step rom) s ins k).latch) n = inFlight s.latch := by
    intro n hn
    induction n, hn using Nat.le_induction with
    | base => exact loaded_three rom hs hins
    | succ n hn ih =>
        rw [loaded_succ, ih, hnone n hn]
        simp
  exact latch_carries_of_loaded rom hs hins hall

theorem exists_pending_of_live (hs : Live s) (n : ℕ) :
    ∃ k, (run (step rom) s ins n).regs = after execRegs (pending s.latch) s.regs k := by
  have hins := rstI_of_silent hbus hrst
  rcases carries_pending_of_live rom hbus hrst hlow hs with ⟨idx, hidx, hcmds, -⟩
  have hstep : ∀ n, (run (step rom) s ins (n + 1)).regs =
      execRegs (run (step rom) s ins n).latch.axiFromPsR (run (step rom) s ins n).regs := by
    intro n
    rw [run_succ, step_live rom (run_live rom hs hins n) (hins n), next_eq_execRegs]
  have hregs := eq_after_of_carries (c := fun n => (run (step rom) s ins n).regs)
    execRegs_execRegs hstep hidx hcmds
  cases n with
  | zero => exact ⟨0, rfl⟩
  | succ n => exact ⟨idx n + 1, hregs n⟩

/-- In that time the registers only change by the pending commands. -/
theorem exists_pending_of_silent (hs : Reachable rom s) (n : ℕ) :
    ∃ k, (run (step rom) s ins n).regs = after execRegs (pending s.latch) s.regs k := by
  rcases hs.live_or_draining with hlive | hdraining
  · exact exists_pending_of_live rom hbus hrst hlow hlive n
  · -- the reset has left nothing to execute
    refine ⟨0, ?_⟩
    change (run (step rom) s ins n).regs = s.regs
    cases n with
    | zero => rfl
    | succ n =>
        rcases step_draining rom hdraining (rstI_of_silent hbus hrst 0) with ⟨hlive, hlatch, hregs⟩
        have hlow' : strobeBit w = true → strobeBit (step rom (ins 0) s).latch.axi1ffR = true := by
          intro hstrobe
          have hzero := hlow hstrobe
          rw [hdraining.latch] at hzero
          exact absurd hzero Bool.false_ne_true
        rcases exists_pending_of_live rom (fun n => hbus (1 + n)) hrst hlow' hlive n with ⟨k, hk⟩
        rw [hlatch, hregs] at hk
        rw [Nat.add_comm, run_add, hdraining.regs]
        refine hk.trans (after_invariant (Q := (· = Regs.reset)) rfl (fun c hc r hr => ?_) k)
        rw [List.mem_singleton.mp (show c ∈ [0#32] from hc), execRegs_zero, hr]

end Silent

/-! ## The switch -/

/-- While the oscillator is enabled, it runs on the parameters that the pending commands have
left until some cycle, and on the new ones from a later cycle on. -/
def SwitchesAtOnce (rom : Nco.Rom) (s : State) (ins : ℕ → Input) (new : NcoTuple) : Prop :=
  ∃ f g, f ≤ g ∧
    (∀ n, n ≤ f → ∃ k, (run (step rom) s ins n).regs =
      after execRegs (pending s.latch) s.regs k) ∧
    (run (step rom) s ins f).regs = settledRegs s ∧
    (∀ n, f ≤ n → n < g → (run (step rom) s ins n).regs.ncoEnR = true →
      ncoTuple (run (step rom) s ins n).regs = ncoTuple (settledRegs s)) ∧
    ∀ n, g ≤ n → (run (step rom) s ins n).regs.ncoEnR = true →
      ncoTuple (run (step rom) s ins n).regs = new

/-- The writes of an accepted request switch the oscillator over at once. -/
theorem switchesAtOnce_of_carries {F : Type} [MixedPrecision F] (rom : Nco.Rom) {s : State}
    (hs : Reachable rom s) (ctx : CmdCtx F) {ins : ℕ → Input}
    (hcarries : Carries (busWords ins) (((ncoWrites ctx).map ncoWrite).flatMap strobed)) :
    SwitchesAtOnce rom s ins (requestTuple ctx) := by
  have hne : (ncoWrites ctx).map ncoWrite ≠ [] := List.cons_ne_nil _ _
  rcases exists_progress rom hs hne (rstBit_of_mem_ncoWrites ctx) hcarries with
    ⟨count, hcount, ⟨last, hlast⟩, hpending, hwrites⟩
  rw [List.length_map, length_ncoWrites] at hlast
  rcases hcount.exists_first (show (pending s.latch).length ≤ count last by omega) with
    ⟨f, -, hf, hbefore⟩
  rcases hcount.exists_first (show (pending s.latch).length + 6 ≤ count last by omega) with
    ⟨g, -, hg, hmiddle⟩
  have hfg : f ≤ g := by
    by_contra hlt
    have hless := hbefore g (not_le.mp hlt)
    omega
  refine ⟨f, g, hfg, fun n hn => ?_, hwrites f 0 hf, fun n hfn hng hen => ?_, fun n hgn _ => ?_⟩
  · have hle := hcount.monotone hn
    exact ⟨count n, hpending n (by omega)⟩
  · -- in between the oscillator is disabled once the first write has taken effect
    have hle := hcount.monotone hfn
    have hlt := hmiddle n hng
    obtain ⟨k, hk⟩ := Nat.exists_eq_add_of_le (show (pending s.latch).length ≤ count n by omega)
    rw [hwrites n k hk] at hen ⊢
    cases k with
    | zero => rfl
    | succ k =>
        rw [ncoEnR_after_ncoWrites ctx _ (by omega)] at hen
        exact absurd hen Bool.false_ne_true
  · have hle := hcount.monotone hgn
    obtain ⟨k, hk⟩ := Nat.exists_eq_add_of_le (show (pending s.latch).length + 6 ≤ count n by omega)
    rw [hwrites n (6 + k) (by omega), ← ncoTuple_after_ncoWrites ctx (settledRegs s), after, after,
      List.take_of_length_le (by simp [length_ncoWrites]),
      List.take_of_length_le (by simp [length_ncoWrites])]

/-- A rejected request changes no register: it sends nothing, and while the bus keeps its word
only the commands from before are executed.  An accepted request switches the oscillator over
at once. -/
theorem setNco_atomic {F : Type} [MixedPrecision F] (rom : Nco.Rom) (s : State)
    (hs : Reachable rom s) (ctx : CmdCtx F) (tr : List ((c : Call) × c.Response))
    (reply : Reply F) (hrun : Program.Performs (cmdSetNco ctx) tr reply) :
    (ncoArgsCode ctx ≠ .ok →
      Program.shown Call.sent tr = [] ∧
      ∀ (ins : ℕ → Input) (w : BitVec 32), (∀ n, busWords ins n = w) → rstBit w = false →
        (strobeBit w = true → strobeBit s.latch.axi1ffR = true) →
        ∀ n, ∃ k, (run (step rom) s ins n).regs = after execRegs (pending s.latch) s.regs k) ∧
    (ncoArgsCode ctx = .ok →
      ∀ ins : ℕ → Input, Carries (busWords ins) (Program.shown Call.sent tr) →
        SwitchesAtOnce rom s ins (requestTuple ctx)) := by
  have hwords := cmdSetNco_emits ctx tr reply hrun
  constructor
  · intro hrejected
    rw [if_neg hrejected] at hwords
    exact ⟨hwords, fun ins w hbus hrst hlow n =>
      exists_pending_of_silent rom hbus hrst hlow hs n⟩
  · intro hok ins hcarries
    rw [hwords, if_pos hok] at hcarries
    exact switchesAtOnce_of_carries rom hs ctx hcarries

/-- 100 times the lowest frequency, and a shift of 90 degrees. -/
def quarterShift : List ℚ := [762939453125 / 10 ^ 6, 90]

/-- A request for them. -/
def quarterShiftCtx : CmdCtx ℚ where
  floatArgs := fun i => quarterShift.getD i 0
  uintArgs := fun _ => 1#32
  numFloats := quarterShift.length
  numFloats_le := by decide

theorem setNco_atomic_quarterShift :
    ∃ (s : State) (ins : ℕ → Input), Reachable (fun _ => 0#16) s ∧
      SwitchesAtOnce (fun _ => 0#16) s ins (requestTuple quarterShiftCtx) := by
  rcases exists_reachable_afterReset (fun _ => 0#16) with ⟨p, hp⟩
  rcases Program.exists_performs (fun c : Call => (default : c.Response))
    (cmdSetNco quarterShiftCtx) with ⟨tr, reply, hrun⟩
  have hok : ncoArgsCode quarterShiftCtx = .ok := by decide +kernel
  have hwords := cmdSetNco_emits quarterShiftCtx tr reply hrun
  have hne : Program.shown Call.sent tr ≠ [] := by
    rw [hwords, if_pos hok]
    exact List.cons_ne_nil _ _
  rcases exists_carries hne with ⟨x, hx⟩
  exact ⟨afterReset p, fun n => ⟨x n, 0#14, 0#14, true, true⟩, hp,
    (setNco_atomic (fun _ => 0#16) (afterReset p) hp quarterShiftCtx tr reply hrun).2 hok _ hx⟩

end Requests
end PoundDreverHall
