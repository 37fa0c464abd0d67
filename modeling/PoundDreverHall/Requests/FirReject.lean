import PoundDreverHall.Requests.FirInstall

/-!
# Requests - loads that fail

`cmd_set_fir` checks its arguments before it sends a word, but not how many coefficients it was
given.  A coefficient without an address of its own is only found when its echo is compared, and
by then the filter has been written.

Main results:

- Theorem {lit}`loadInto_wrapped`: more than 32 coefficients wrap around the staging memory.
- Theorem {lit}`comesTo_settled`: without a command the filter keeps what it comes to rest at.
- Theorem {lit}`failed_untouched_iff`: when a failed request leaves the filter untouched.
-/

namespace PoundDreverHall
namespace Requests

open Clocked Device Device.Program Server PdhCore

/-! ## Wrapped loads -/

section Wrapped

theorem loadInto_append (i : ℕ) (cs cs' : List (BitVec 16)) (m : CoeffSet) :
    loadInto i (cs ++ cs') m = loadInto (i + cs.length) cs' (loadInto i cs m) := by
  induction cs generalizing i m with
  | nil => rfl
  | cons c cs ih =>
      rw [List.cons_append, loadInto, ih, loadInto, List.length_cons, Nat.add_assoc,
        Nat.add_comm 1]

/-- Addresses wrap around. -/
theorem loadInto_add (i : ℕ) (cs : List (BitVec 16)) (m : CoeffSet) :
    loadInto (i + 32) cs m = loadInto i cs m := by
  induction cs generalizing i m with
  | nil => rfl
  | cons c cs ih =>
      have haddr : (BitVec.ofNat 5 (i + 32) : BitVec 5) = BitVec.ofNat 5 i := by
        apply BitVec.eq_of_toNat_eq
        simp only [BitVec.toNat_ofNat]
        omega
      rw [loadInto, haddr, Nat.add_right_comm, ih]
      rfl

variable {F : Type} [SinglePrecision F] (ctx : CmdCtx F)

/-- What more than 32 coefficients leave in the staging memory: every entry holds the last
coefficient that was sent to it. -/
def wrapped : CoeffSet := fun a =>
  floatToQ15 (ctx.floatArgs (if a.toNat + 32 < ctx.numFloats then a.toNat + 32 else a.toNat))

theorem codes_append (i n n' : ℕ) :
    codes ctx i (n + n') = codes ctx i n ++ codes ctx (i + n) n' := by
  rw [codes, codes, codes, ← List.map_append, List.range'_append_1]

theorem loadInto_wrapped (hn : 32 < ctx.numFloats) (m : CoeffSet) :
    loadInto 0 (codes ctx 0 ctx.numFloats) m = wrapped ctx := by
  have hle := ctx.numFloats_le
  obtain ⟨d, hd⟩ := Nat.exists_eq_add_of_lt hn
  have hsplit : codes ctx 0 ctx.numFloats = codes ctx 0 32 ++ codes ctx 32 (d + 1) := by
    rw [hd, Nat.add_assoc, codes_append]
  rw [hsplit, loadInto_append, length_codes, loadInto_add]
  funext a
  have ha := a.isLt
  have hofNat : BitVec.ofNat 5 a.toNat = a := by simp
  rw [wrapped, ← hofNat]
  by_cases hlow : a.toNat + 32 < ctx.numFloats
  · -- the second round has written the entry again
    have hentry : (codes ctx 32 (d + 1))[a.toNat]? =
        some (loadInto 0 (codes ctx 32 (d + 1)) (loadInto 0 (codes ctx 0 32) m)
          (BitVec.ofNat 5 (0 + a.toNat))) :=
      loadInto_of_lt (by rw [length_codes]; omega) (by rw [length_codes]; omega)
    rw [getElem?_codes ctx (by omega), Nat.zero_add] at hentry
    rw [← Option.some.inj hentry, BitVec.toNat_ofNat, Nat.mod_eq_of_lt ha, if_pos hlow,
      Nat.add_comm]
  · have hentry : (codes ctx 0 32)[a.toNat]? =
        some (loadInto 0 (codes ctx 0 32) m (BitVec.ofNat 5 (0 + a.toNat))) :=
      loadInto_of_lt (by rw [length_codes]) (by rwa [length_codes])
    rw [getElem?_codes ctx ha, Nat.zero_add] at hentry
    rw [loadInto_of_not_mem (by rw [length_codes]; omega) ha (by rw [length_codes]; omega),
      ← Option.some.inj hentry, BitVec.toNat_ofNat, Nat.mod_eq_of_lt ha, if_neg hlow]

end Wrapped

/-! ## The filter at rest -/

/-- The selected input, the staging memory and the active coefficients. -/
@[ext]
structure Filter where
  inputSel : BitVec 3
  staging : CoeffSet
  active : CoeffSet

/-- The filter of a state. -/
def filterOf (s : State) : Filter where
  inputSel := s.regs.firInputSelR
  staging := s.path.uFir.tapCoeffs
  active := Fir.coeffs s.path.uFir

/-- The filter once the pending commands have been executed. -/
def settledFilter (s : State) : Filter where
  inputSel := (settled s).1.firInputSelR
  staging := (settled s).2
  active := if (settled s).1.tapChainWriteEnR then (settled s).2 else Fir.coeffs s.path.uFir

/-- The filter comes to rest. -/
def ComesTo (rom : Nco.Rom) (s : State) (ins : ℕ → Input) (f : Filter) : Prop :=
  ∃ N, ∀ n, N ≤ n → filterOf (run (step rom) s ins n) = f

theorem ComesTo.unique {rom : Nco.Rom} {s : State} {ins : ℕ → Input} {f f' : Filter}
    (h : ComesTo rom s ins f) (h' : ComesTo rom s ins f') : f = f' := by
  rcases h with ⟨N, hN⟩
  rcases h' with ⟨N', hN'⟩
  exact (hN (max N N') (Nat.le_max_left N N')).symm.trans (hN' _ (Nat.le_max_right N N'))

/-- Taps that load go on loading. -/
theorem settled_chain {s : State} (hpending : ∀ c ∈ pending s.latch, KeepsChain c)
    (hchain : s.regs.tapChainWriteEnR = true) : (settled s).1.tapChainWriteEnR = true := by
  have hwrite : ∀ w ∈ pending s.latch, ∀ c : Regs × CoeffSet, c.1.tapChainWriteEnR = true →
      (execStaging w c).1.tapChainWriteEnR = true :=
    fun w hw c hc => hpending w hw c.1 hc
  have hkeep := after_invariant (c := (s.regs, writeStaging s.regs s.path.uFir.tapCoeffs))
    (Q := fun c : Regs × CoeffSet => c.1.tapChainWriteEnR = true) hchain hwrite
    (pending s.latch).length
  rwa [after_length] at hkeep

section Silent

variable (rom : Nco.Rom) {s : State} {w : BitVec 32} {i : Input} {ins : ℕ → Input}

/-- As long as the taps do not load, the active coefficients stay. -/
theorem Between.coeffs_step (h : Between s w) (hi : i.axiFromPsI = w)
    (hchain : (settled s).1.tapChainWriteEnR = false) :
    Fir.coeffs (step rom i s).path.uFir = Fir.coeffs s.path.uFir := by
  have hlow : s.regs.tapChainWriteEnR = false := by
    by_contra hhigh
    rw [settled_chain h.pending (Bool.not_eq_false _ ▸ hhigh)] at hchain
    exact absurd hchain (by decide)
  rcases h.word with ⟨hrst, hreset⟩ | ⟨hrst, -, -⟩
  · have hi' : i.rstI = true := by rw [Input.rstI, hi, hrst]
    rw [(resetting_of_rst rom s hi').coeffs, hreset.coeffs]
  · have hi' : i.rstI = false := by rw [Input.rstI, hi, hrst]
    rcases h.known with hreset | hlive
    · rw [(hreset.step rom hi').2.2.2, hreset.coeffs]
    · have hins : ∀ n, ((fun _ => i : ℕ → Input) n).rstI = false := fun _ => hi'
      have hstep := coeffs_succ rom hlive hins 0
      rw [run_zero, hlow] at hstep
      exact hstep

variable (h : Between s w) (hbus : ∀ n, busWords ins n = w)

include h hbus

theorem Between.coeffs_run (hchain : (settled s).1.tapChainWriteEnR = false) (n : ℕ) :
    Fir.coeffs (run (step rom) s ins n).path.uFir = Fir.coeffs s.path.uFir := by
  induction n with
  | zero => rfl
  | succ n ih =>
      rcases h.run_same rom (n := n) fun k _ => hbus k with ⟨hbetween, hload, -⟩
      simp only [loadPart, Prod.mk.injEq] at hload
      rw [run_succ, hbetween.coeffs_step rom (hbus n) (hload.2.2.2.1.trans hchain), ih]

/-- Held in reset, the filter keeps its staging memory. -/
theorem Between.comesTo_of_rst (hrst : rstBit w = true) :
    ComesTo rom s ins (settledFilter s) := by
  refine ⟨0, fun n _ => ?_⟩
  rcases h.run_same rom (n := n) fun k _ => hbus k with ⟨hbetween, hload, hsel⟩
  have hreset : ∀ {s}, Between s w → Resetting s := by
    intro s hs
    rcases hs.word with ⟨-, hreset⟩ | ⟨hlow, -⟩
    · exact hreset
    · rw [hrst] at hlow
      exact nomatch hlow
  have hbefore := hreset h
  have hafter := hreset hbetween
  rw [settled_of_reset hafter.latch hafter.regs, settled_of_reset hbefore.latch hbefore.regs]
    at hload
  simp only [loadPart, Prod.mk.injEq] at hload
  rw [settledFilter, settled_of_reset hbefore.latch hbefore.regs]
  ext1
  · exact congrArg Regs.firInputSelR hafter.regs
  · exact hload.2.2.2.2
  · exact hafter.coeffs.trans hbefore.coeffs.symm

/-- As long as the bus is silent, the filter comes to rest with what the pending commands leave. -/
theorem Between.comesTo_settled : ComesTo rom s ins (settledFilter s) := by
  cases hrst : rstBit w with
  | true => exact h.comesTo_of_rst rom hbus hrst
  | false =>
      have hins := rstI_of_silent hbus hrst
      have hlive : Live (run (step rom) s ins 2) := live_of_two rom h.known (hins 0) (hins 1)
      have hlatch : (run (step rom) s ins 3).latch.axi1ffR = w := by
        rw [run_succ, step_live rom hlive (hins 2)]
        exact hbus 2
      have hlive₃ : Live (run (step rom) s ins 3) := step_live_live rom hlive (hins 2)
      rcases h.run_same rom (n := 3) fun k _ => hbus k with ⟨-, hload, hsel⟩
      simp only [loadPart, Prod.mk.injEq] at hload
      rcases hload with ⟨-, -, -, hchain, hstaging⟩
      have hbus₃ : ∀ n, busWords (fun j => ins (3 + j)) n = w := fun n => hbus (3 + n)
      have hins₃ : ∀ n, ((fun j => ins (3 + j) : ℕ → Input) n).rstI = false := fun n => hins (3 + n)
      have hrest := rests rom hlive₃ hbus₃ hrst hlatch
      refine ⟨9, fun n hn => ?_⟩
      obtain ⟨d, rfl⟩ := Nat.exists_eq_add_of_le hn
      have hbefore := hrest d
      have hafter := hrest (d + 1)
      rw [← run_add, show 3 + (d + 5) = 8 + d by omega] at hbefore
      rw [← run_add, show 3 + (d + 1 + 5) = 9 + d by omega] at hafter
      rw [filterOf, hafter.1, hafter.2, settledFilter]
      ext1
      · exact hsel
      · exact hstaging
      · cases hload : (settled s).1.tapChainWriteEnR with
        | false => exact h.coeffs_run rom hbus hload (9 + d)
        | true =>
            have hnext := coeffs_succ rom hlive₃ hins₃ (d + 5)
            rw [← run_add, ← run_add, show 3 + (d + 5 + 1) = 9 + d by omega,
              show 3 + (d + 5) = 8 + d by omega, hbefore.1, hchain, hload, hbefore.2,
              hstaging] at hnext
            exact hnext

end Silent

/-! ## Failed requests -/

section Request

variable {F : Type} [MixedPrecision F] (rom : Nco.Rom) {s : State} {w : BitVec 32}

/-- What a load of more than 32 coefficients leaves. -/
def wrappedFilter (ctx : CmdCtx F) : Filter where
  inputSel := ((ctx.uintArgs 0).setWidth 16).setWidth 3
  staging := wrapped ctx
  active := wrapped ctx

/-- The words of a trace leave the filter untouched, however long the bus shows each of them. -/
def Untouched (s : State) (w : BitVec 32) (tr : Trace) : Prop :=
  ∀ ins : ℕ → Input, Carries (busWords ins) (w :: shown Call.sent tr) →
    ComesTo rom s ins (settledFilter s)

/-- The words of a load on a bus that is slow enough for the selection of the input to be seen
outside reset. -/
theorem exists_slow_load (hs : Known s) (inputSel : BitVec 16) (cs : List (BitVec 16))
    (w : BitVec 32) :
    ∃ ins last, CarriesBy (busWords ins) (w :: (firWrites inputSel cs).flatMap strobed) last ∧
      (settled (run (step rom) s ins (last + 1))).1.firInputSelR = inputSel.setWidth 3 := by
  have hne : (firWrites inputSel cs).flatMap strobed ≠ [] := List.cons_ne_nil _ _
  rcases exists_carries hne with ⟨x, hx⟩
  rcases carries_iff.mp hx with ⟨m, hm⟩
  let low : BitVec 32 := PdhCmdT.strobe.set 0#1 (setFirWord .inputSel inputSel)
  let y : ℕ → BitVec 32
    | 0 => w
    | 1 => low
    | 2 => low
    | n + 3 => x n
  have hy : CarriesBy y (w :: (firWrites inputSel cs).flatMap strobed) (m + 1 + 1 + 1) :=
    (CarriesBy.hold (CarriesBy.hold hm rfl) rfl).cons
  let ins : ℕ → Input := fun n => ⟨y n, 0#14, 0#14, true, true⟩
  have hlow : rstBit low = false := by rw [rstBit_strobe, rstBit_setFirWord]
  have hlive : Live (run (step rom) s ins 3) :=
    live_of_two rom (known_step rom hs (ins 0)) hlow hlow
  have hrst := rstBit_of_mem_strobed (rstBit_of_mem_firWrites inputSel cs)
  have hrest : CarriesBy (busWords fun j => ins (3 + j))
      ((firWrites inputSel cs).flatMap strobed) m := by
    have hshift : (busWords fun j => ins (3 + j)) = x := by
      funext j
      rw [busWords, Nat.add_comm 3 j]
    rwa [hshift]
  refine ⟨ins, m + 1 + 1 + 1, hy, ?_⟩
  rw [show m + 1 + 1 + 1 + 1 = 3 + (m + 1) by omega, run_add,
    settled_of_carries rom hlive hrest hrst (strobeBit_strobed _), foldl_strobed, firWrites_eq,
    List.foldl_cons, inputSel_enabledWrites, execStaging, execRegs_setFirWord]
  rfl

/-- What an accepted request with more than 32 coefficients leaves. -/
theorem comesTo_wrapped (hs : Served F rom s w) (ctx : CmdCtx F) (hok : firArgsCode ctx = .ok)
    (hn : 32 < ctx.numFloats) {ins : ℕ → Input} {last : ℕ}
    (hbus : CarriesBy (busWords ins) (w :: (requestWrites ctx).flatMap strobed) last) :
    ((settled (run (step rom) s ins (last + 1))).1.firInputSelR = (settled s).1.firInputSelR ∨
      (settled (run (step rom) s ins (last + 1))).1.firInputSelR =
        (wrappedFilter ctx).inputSel) ∧
    ComesTo rom s ins { wrappedFilter ctx with
      inputSel := (settled (run (step rom) s ins (last + 1))).1.firInputSelR } := by
  rcases installs_of_carriesBy rom hs ctx hok hbus with ⟨c, hload, hsel, hend, hrest⟩
  have hc := (served_between rom hs).consistent.congr hload
  have hcs : codes ctx 0 ctx.numFloats ≠ [] := by
    rw [← List.length_pos_iff, length_codes]
    omega
  have hmemory : (settled (run (step rom) s ins (last + 1))).2 = wrapped ctx := by
    rw [hend, (hc.load (codes ctx 0 ctx.numFloats)).2.2 hcs, loadInto_wrapped ctx hn]
  refine ⟨?_, last + 7, fun n hn => ?_⟩
  · rw [hend, inputSel_enabledWrites]
    exact hsel
  · have hinstalled := hrest n hn
    rw [filterOf, hinstalled.regs, hinstalled.staging, hinstalled.active, hmemory]
    rfl

/-- An accepted request with more than 32 coefficients leaves the filter untouched if and only
if the filter is what it leaves already. -/
theorem untouched_iff_wrapped (hs : Served F rom s w) (ctx : CmdCtx F)
    (hok : firArgsCode ctx = .ok) (hn : 32 < ctx.numFloats) {tr : Trace} {reply : Reply F}
    (hrun : Performs (cmdSetFir ctx) tr reply) :
    Untouched rom s w tr ↔ settledFilter s = wrappedFilter ctx := by
  have hwords := cmdSetFir_emits ctx tr reply hrun
  constructor
  · intro huntouched
    rcases exists_slow_load rom (served_between rom hs).known ((ctx.uintArgs 0).setWidth 16)
      (codes ctx 0 ctx.numFloats) w with ⟨ins, last, hbus, hsel⟩
    have hbus' : CarriesBy (busWords ins) (w :: (requestWrites ctx).flatMap strobed) last := by
      rwa [requestWrites, if_pos hok]
    have hcomes := (comesTo_wrapped rom hs ctx hok hn hbus').2
    rw [hsel] at hcomes
    exact (huntouched ins (carries_iff.mpr ⟨last, hwords ▸ hbus'⟩)).unique hcomes
  · intro hsame ins hbus
    rw [hwords] at hbus
    rcases carries_iff.mp hbus with ⟨last, hlast⟩
    rcases comesTo_wrapped rom hs ctx hok hn hlast with ⟨hsel, hcomes⟩
    have hinput : (settled s).1.firInputSelR = (wrappedFilter ctx).inputSel :=
      congrArg Filter.inputSel hsame
    rw [hinput, or_self] at hsel
    rw [hsel] at hcomes
    rwa [hsame]

/-- A request that fails on a faithful board leaves the filter untouched if and only if its
arguments were rejected, or the filter holds already what its coefficients wrap around to.
One with no more than 32 coefficients does not fail otherwise. -/
theorem failed_untouched_iff (hs : Served F rom s w) (ctx : CmdCtx F) (tr : Trace)
    (reply : Reply F) (hrun : Performs (cmdSetFir ctx) tr reply) (b b' : Board)
    (hfollows : Follows board b tr b') :
    (reply.returnCode ≠ 0 → Untouched rom s w tr) ↔
      firArgsCode ctx ≠ .ok ∨ ctx.numFloats ≤ 32 ∨ settledFilter s = wrappedFilter ctx := by
  have hcode := returnCode_cmdSetFir hrun hfollows
  by_cases hok : firArgsCode ctx = .ok
  · by_cases hn : ctx.numFloats ≤ 32
    · exact iff_of_true (fun hfailed => absurd (hcode.mpr ⟨hok, hn⟩) hfailed) (.inr (.inl hn))
    · have huntouched := untouched_iff_wrapped rom hs ctx hok (Nat.lt_of_not_le hn) hrun
      have hfailed : reply.returnCode ≠ 0 := fun hzero => hn (hcode.mp hzero).2
      rw [huntouched]
      constructor
      · intro h
        exact .inr (.inr (h hfailed))
      · rintro (hrejected | hlow | hsame) -
        · exact absurd hok hrejected
        · exact absurd hlow hn
        · exact hsame
  · refine iff_of_true (fun _ ins hbus => ?_) (.inl hok)
    rw [cmdSetFir_emits ctx tr reply hrun, requestWrites, if_neg hok, List.flatMap_nil] at hbus
    rcases carries_iff.mp hbus with ⟨last, hlast⟩
    exact (served_between rom hs).comesTo_settled rom fun n =>
      List.mem_singleton.mp (hlast.mem n)

end Request

/-! ## Thirty-three coefficients -/

/-- A request with 33 equal coefficients. -/
def overlongCtx : CmdCtx ℚ :=
  loadCtx (List.replicate 33 (1 / 2)) (by decide)

/-- The exact condition, after reset. -/
theorem failed_untouched_iff_overlong :
    ∃ (tr : Trace) (reply : Reply ℚ) (b' : Board),
      Performs (cmdSetFir overlongCtx) tr reply ∧ Follows board resetBoard tr b' ∧
      ((reply.returnCode ≠ 0 →
          Untouched (fun _ => 0#16) (heldInReset fun _ => 0#16) 0x80000000#32 tr) ↔
        firArgsCode overlongCtx ≠ .ok ∨ overlongCtx.numFloats ≤ 32 ∨
          settledFilter (heldInReset fun _ => 0#16) = wrappedFilter overlongCtx) := by
  rcases exists_load overlongCtx with ⟨tr, reply, b', -, hrun, hfollows, -⟩
  exact ⟨tr, reply, b', hrun, hfollows, failed_untouched_iff (fun _ => 0#16)
    (served_heldInReset _) overlongCtx tr reply hrun resetBoard b' hfollows⟩

/-- After reset, 33 coefficients are reported as a failure, and the filter has changed. -/
theorem overlong_touches :
    ∃ (tr : Trace) (reply : Reply ℚ) (b' : Board),
      Served ℚ (fun _ => 0#16) (heldInReset fun _ => 0#16) 0x80000000#32 ∧
      Performs (cmdSetFir overlongCtx) tr reply ∧ Follows board resetBoard tr b' ∧
      reply.returnCode ≠ 0 ∧
      ¬Untouched (fun _ => 0#16) (heldInReset fun _ => 0#16) 0x80000000#32 tr := by
  rcases exists_load overlongCtx with ⟨tr, reply, b', -, hrun, hfollows, -⟩
  have hserved := served_heldInReset fun _ => 0#16
  have hok : firArgsCode overlongCtx = .ok := by decide +kernel
  refine ⟨tr, reply, b', hserved, hrun, hfollows, fun hzero => ?_, fun huntouched => ?_⟩
  · have hlen := ((returnCode_cmdSetFir hrun hfollows).mp hzero).2
    exact absurd hlen (by decide)
  · have hsame := (untouched_iff_wrapped _ hserved overlongCtx hok (by decide) hrun).mp huntouched
    have hentry : (settled (heldInReset fun _ => 0#16)).2 0#5 = wrapped overlongCtx 0#5 :=
      congrFun (congrArg Filter.staging hsame) 0#5
    have hcode : wrapped overlongCtx 0#5 = 0x4000#16 := by decide +kernel
    rw [settled_heldInReset, hcode] at hentry
    exact absurd hentry (by decide)

end Requests
end PoundDreverHall
