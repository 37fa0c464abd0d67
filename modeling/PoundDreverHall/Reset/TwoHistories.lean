import PoundDreverHall.Decoder.CommandStream

/-!
# Reset - two histories

Reset is meant to make the past of the core invisible.  Three places of the core
have no reset of their own: the staging memory of the filter, `nco_out2_r`, and the
registers behind the ROM.  The last two are overwritten before anything can show
them; the staging memory is not.  This file compares two runs with different
pasts that receive the same inputs after a reset.

Main results:

- Theorem {lit}`run_rst`: two clock periods under reset leave nothing of the
  past but the contents of a {lit}`Leftover`.
- Theorem {lit}`Alike.step`: the difference stays invisible over one clock
  period, unless the taps load two different staging memories.
- Theorem {lit}`alike_iff`: the registers of two runs stay alike if and only if
  every word that the pasts left different is written before the taps load it.
- Theorem {lit}`reset_clears`: under that condition the outputs agree in every
  clock period.
-/

namespace PoundDreverHall
namespace PdhCore

open Clocked

/-! ## Outputs -/

/-- The observable outputs. -/
structure Outputs where
  axiToPsO : BitVec 32
  dacDatO : BitVec 14
  ledO : BitVec 8
  irqO : Bool
  dmaDataO : BitVec 64
  dmaEnableO : Bool
  bramEnableO : Bool
deriving DecidableEq, Repr

/-- The observable outputs in a state. -/
def outputs (s : State) : Outputs where
  axiToPsO := axiToPsO s
  dacDatO := dacDatO s
  ledO := ledO s
  irqO := irqO s
  dmaDataO := dmaDataO s
  dmaEnableO := dmaEnableO s
  bramEnableO := bramEnableO s

/-- The first half of a clock period, up to the falling edge. -/
def firstHalf (i : Input) (s : State) : State :=
  negedge i (if i.rstI then asyncReset s else s)

/-- The outputs in the two halves of a clock period: after its falling edge and
after the rising edge that ends it. -/
def observe (rom : Nco.Rom) (i : Input) (s : State) : Outputs × Outputs :=
  (outputs (firstHalf i s), outputs (step rom i s))

/-! ## What reset leaves -/

/-- Contents of the registers and the memory that keep a trace of the past
under reset or in the first periods after it. -/
structure Leftover where
  ncoOut2R : BitVec 16
  ncoFeed2R : BitVec 14
  tapCoeffs : BitVec 5 → BitVec 16

/-- The signal path with other contents there. -/
def Path.withLeftover (p : Path) (l : Leftover) : Path :=
  { p with
    ncoOut2R := l.ncoOut2R
    ncoFeed2R := l.ncoFeed2R
    uFir := { p.uFir with tapCoeffs := l.tapCoeffs } }

/-- The core with other contents there. -/
def State.withLeftover (s : State) (l : Leftover) : State :=
  { s with path := s.path.withLeftover l }

/-- The core while reset is held: the oscillator addresses the first entry of
its ROM. -/
def held (rom : Nco.Rom) : State where
  rst := .asserted
  rstNe := .asserted
  latch := .reset
  regs := .reset
  dac := .reset
  orch := .reset
  irqR := false
  path := { Path.reset with uNco := { Nco.resetState with dout1 := rom 0, dout2 := rom 0 } }
  callbackR := 0#32

/-- One rising edge of the filter under reset. -/
theorem firStep_rst (i : Fir.Input 5 16) (f : Fir.State 5 16) (h : i.rst = true) :
    Fir.step i f = Fir.resetState (Fir.step i f).tapCoeffs := by
  simp [Fir.step, FirTap.step, Fir.resetState, h]

/-- One rising edge of the signal path under reset. -/
theorem Path.step_rst (rom : Nco.Rom) (i : Input) (r : Regs) (d : DacRegs) (p : Path) :
    p.step rom true i r d =
      { Path.reset with
        uNco :=
          { Nco.resetState with
            dout1 := rom p.uNco.addr1R
            dout2 := rom p.uNco.addr2R }
        ncoOut2R := p.ncoOut2R
        uFir := Fir.resetState (Fir.step (firInput true r p) p.uFir).tapCoeffs } := by
  unfold Path.step
  rw [firStep_rst _ _ rfl]
  rfl

/-- One clock period under reset. -/
theorem step_eq_held (rom : Nco.Rom) (s : State) {i : Input} (h : i.rstI = true) :
    step rom i s =
      { held rom with path := s.path.step rom true i s.regs DacRegs.reset } := by
  simp [step, posedge, negedge, asyncReset, h, ResetSync.asserted, held, Latch.step,
    Orchestrator.step, nextIrqR]

/-- Two clock periods under reset. -/
theorem step_step_rst (rom : Nco.Rom) (s : State) {i₀ i₁ : Input} (h₀ : i₀.rstI = true)
    (h₁ : i₁.rstI = true) : ∃ l, step rom i₁ (step rom i₀ s) = (held rom).withLeftover l := by
  rw [step_eq_held rom s h₀, step_eq_held rom _ h₁, Path.step_rst, Path.step_rst]
  exact ⟨⟨s.path.ncoOut2R, 0#14, _⟩, rfl⟩

/-- A further clock period under reset. -/
theorem step_rst_held (rom : Nco.Rom) (l : Leftover) {i : Input} (h : i.rstI = true) :
    ∃ l', step rom i ((held rom).withLeftover l) = (held rom).withLeftover l' := by
  rw [step_eq_held rom _ h, Path.step_rst]
  exact ⟨⟨l.ncoOut2R, 0#14, _⟩, rfl⟩

/-- Two clock periods under reset, or more, leave nothing of the past but the contents of
three places. -/
theorem run_rst (rom : Nco.Rom) (s : State) {ins : ℕ → Input} {m : ℕ} (hm : 2 ≤ m)
    (hrst : ∀ k < m, (ins k).rstI = true) :
    ∃ l, run (step rom) s ins m = (held rom).withLeftover l := by
  induction m, hm using Nat.le_induction with
  | base =>
      rw [run_succ, run_succ, run_zero]
      exact step_step_rst rom s (hrst 0 (by omega)) (hrst 1 (by omega))
  | succ m hm ih =>
      rcases ih fun k hk => hrst k (by omega) with ⟨l, hl⟩
      rw [run_succ, hl]
      exact step_rst_held rom l (hrst m (by omega))

/-! ## Runs that cannot be told apart -/

/-- Other contents that nothing reads: they are the same, or the configuration still has its
reset values and selects other sources. -/
structure Unseen (s : State) (l : Leftover) : Prop where
  out2 : l.ncoOut2R = s.path.ncoOut2R ∨ s.regs = .reset ∧ s.latch.axiFromPsR = 0#32
  feed2 : l.ncoFeed2R = s.path.ncoFeed2R ∨ s.regs = .reset

/-- Two states that differ in unseen contents and in the staging memory. -/
def Alike (s s' : State) : Prop :=
  ∃ l, s' = s.withLeftover l ∧ Unseen s l

theorem alike_held (rom : Nco.Rom) (l l' : Leftover) :
    Alike ((held rom).withLeftover l) ((held rom).withLeftover l') :=
  ⟨l', rfl, ⟨.inr ⟨rfl, rfl⟩, .inr rfl⟩⟩

/-- States alike show the same outputs. -/
theorem Alike.outputs_eq {s s' : State} (h : Alike s s') : outputs s' = outputs s := by
  rcases h with ⟨l, rfl, hunseen⟩
  have hdac : dacDatO (s.withLeftover l) = dacDatO s := by
    rcases hunseen.feed2 with hfeed2 | hregs
    · simp only [dacDatO, State.withLeftover, Path.withLeftover, Path.dacFeedW, hfeed2]
    · simp only [dacDatO, State.withLeftover, Path.withLeftover, Path.dacFeedW, hregs, Regs.reset]
  simp only [outputs, hdac]
  rfl

/-- The first half of a clock period keeps states alike. -/
theorem Alike.firstHalf {s s' : State} (h : Alike s s') (i : Input) :
    Alike (firstHalf i s) (firstHalf i s') := by
  rcases h with ⟨l, rfl, hunseen⟩
  refine ⟨l, ?_, ?_⟩
  · unfold PdhCore.firstHalf
    split_ifs <;> rfl
  · unfold PdhCore.firstHalf
    split_ifs <;> exact ⟨hunseen.out2, hunseen.feed2⟩

/-! ## One clock period of two runs -/

/-- What the staging memory becomes with a rising edge. -/
def nextTapCoeffs (r : Regs) (mem : BitVec 5 → BitVec 16) : BitVec 5 → BitVec 16 :=
  if r.tapMemWriteEnR then Function.update mem r.tapAddrR r.tapCoeffR else mem

/-- The filter takes nothing from its staging memory while the taps do not load. -/
theorem firStep_withTapCoeffs (i : Fir.Input 5 16) (f : Fir.State 5 16)
    (mem : BitVec 5 → BitVec 16)
    (hload : i.rst = false → i.tapChainWriteEnI = true → mem = f.tapCoeffs) :
    Fir.step i { f with tapCoeffs := mem } =
      { Fir.step i f with
        tapCoeffs :=
          if i.tapMemWriteEnI then Function.update mem i.tapAddrI i.tapCoeffI else mem } := by
  unfold Fir.step
  congr 1
  funext k
  cases hrst : i.rst with
  | true => simp [FirTap.step]
  | false =>
      cases hchain : i.tapChainWriteEnI with
      | true => rw [hload hrst hchain]
      | false => simp [FirTap.step, FirTap.nextCoeffW, Fir.dinPipe, FirTap.outW, FirTap.prodWideW]

/-- Under reset the contents of `nco_out2_r` are kept and what they feed is cleared. -/
theorem Path.step_rst_withLeftover (rom : Nco.Rom) (i : Input) (r : Regs) (d : DacRegs)
    (p : Path) (l : Leftover) :
    (p.withLeftover l).step rom true i r d =
      (p.step rom true i r d).withLeftover
        ⟨l.ncoOut2R, 0#14, nextTapCoeffs r l.tapCoeffs⟩ := by
  rw [Path.step_rst, Path.step_rst]
  rfl

/-- Outside reset `nco_out2_r` takes a new value, and its old value only shows in what it
feeds. -/
theorem Path.step_withLeftover (rom : Nco.Rom) (i : Input) (r : Regs) (d : DacRegs)
    (p : Path) (l : Leftover) (hout2 : l.ncoOut2R = p.ncoOut2R ∨ r = .reset)
    (hfeed2 : l.ncoFeed2R = p.ncoFeed2R ∨ r = .reset)
    (hload : r.tapChainWriteEnR = true → l.tapCoeffs = p.uFir.tapCoeffs) :
    (p.withLeftover l).step rom false i r d =
      (p.step rom false i r d).withLeftover
        ⟨Nco.out2O p.uNco, s16ToU14 l.ncoOut2R, nextTapCoeffs r l.tapCoeffs⟩ := by
  have href : demodRefW r (p.withLeftover l) = demodRefW r p := by
    rcases hout2 with hout2 | rfl
    · simp only [demodRefW, withLeftover, hout2]
    · rfl
  have hin : demodInW r (p.withLeftover l) = demodInW r p := by
    rcases hout2 with hout2 | rfl
    · simp only [demodInW, withLeftover, hout2]
      rfl
    · rfl
  have hdata : dmaDataW false i r d (p.withLeftover l) = dmaDataW false i r d p := by
    rcases hout2 with hout2 | rfl
    · rcases hfeed2 with hfeed2 | rfl
      · unfold dmaDataW
        rw [href, hin]
        simp only [withLeftover, hout2, hfeed2]
        rfl
      · rfl
    · rfl
  have hfir : Fir.step (firInput false r (p.withLeftover l)) (p.withLeftover l).uFir =
      { Fir.step (firInput false r p) p.uFir with tapCoeffs := nextTapCoeffs r l.tapCoeffs } :=
    firStep_withTapCoeffs (firInput false r p) p.uFir l.tapCoeffs fun _ => hload
  unfold Path.step
  rw [href, hin, hdata, hfir]
  rfl

/-- The taps load with the rising edge of this period. -/
def tapsLoad (i : Input) (s : State) : Bool :=
  s.regs.tapChainWriteEnR && !i.rstI && !s.rst.rstSyncR

/-- The taps do not load, or they load the same staging memory in both states. -/
def LoadsAlike (i : Input) (s s' : State) : Prop :=
  tapsLoad i s = true → s'.path.uFir.tapCoeffs = s.path.uFir.tapCoeffs

/-- A reset configuration stays as it is while the idle command is latched. -/
theorem regsNext_idle : Regs.next 0#32 Regs.reset = Regs.reset := by
  decide

/-- The rising edge keeps states alike. -/
theorem Alike.posedge {s s' : State} (h : Alike s s') (rom : Nco.Rom) (i : Input)
    (hload : s.rst.rstSyncR = false → s.regs.tapChainWriteEnR = true →
      s'.path.uFir.tapCoeffs = s.path.uFir.tapCoeffs) :
    Alike (posedge rom i s) (posedge rom i s') := by
  rcases h with ⟨l, rfl, hunseen⟩
  cases hrst : s.rst.rstSyncR with
  | true =>
      refine ⟨⟨l.ncoOut2R, 0#14, nextTapCoeffs s.regs l.tapCoeffs⟩, ?_, ?_, ?_⟩
      · simp only [PdhCore.posedge, State.withLeftover, hrst, Path.step_rst_withLeftover]
        rfl
      · right
        simp [PdhCore.posedge, hrst, Latch.step, Latch.reset]
      · left
        simp [PdhCore.posedge, hrst, Path.step]
  | false =>
      have hout2 : l.ncoOut2R = s.path.ncoOut2R ∨ s.regs = .reset :=
        hunseen.out2.imp_right And.left
      refine ⟨⟨Nco.out2O s.path.uNco, Path.s16ToU14 l.ncoOut2R,
        nextTapCoeffs s.regs l.tapCoeffs⟩, ?_, ?_, ?_⟩
      · simp only [PdhCore.posedge, State.withLeftover, hrst,
          Path.step_withLeftover rom i s.regs s.dac s.path l hout2 hunseen.feed2 (hload hrst)]
        rfl
      · left
        simp [PdhCore.posedge, hrst, Path.step]
      · rcases hunseen.out2 with hout2 | ⟨hregs, hword⟩
        · left
          simp [PdhCore.posedge, hrst, Path.step, hout2]
        · right
          simp [PdhCore.posedge, hrst, hregs, hword, regsNext_idle]

/-- One clock period keeps states alike, unless the taps load two different staging
memories. -/
theorem Alike.step {s s' : State} (h : Alike s s') (rom : Nco.Rom) (i : Input)
    (hload : LoadsAlike i s s') : Alike (PdhCore.step rom i s) (PdhCore.step rom i s') := by
  apply (h.firstHalf i).posedge rom i
  intro hrst hchain
  cases hi : i.rstI with
  | true => simp [PdhCore.firstHalf, negedge, asyncReset, hi, ResetSync.asserted] at hrst
  | false =>
      simp only [PdhCore.firstHalf, negedge, hi, Bool.false_eq_true, if_false] at hrst hchain ⊢
      apply hload
      simp [tapsLoad, hi, hrst, hchain]

/-- The converse: if the taps load two different staging memories, the states are alike no
longer. -/
theorem Alike.loadsAlike {s s' : State} (h : Alike s s') (rom : Nco.Rom) (i : Input)
    (hnext : Alike (PdhCore.step rom i s) (PdhCore.step rom i s')) : LoadsAlike i s s' := by
  rcases h with ⟨l, rfl, -⟩
  rcases hnext with ⟨l', hl', -⟩
  intro hload
  simp only [tapsLoad, Bool.and_eq_true, Bool.not_eq_true'] at hload
  rcases hload with ⟨⟨hchain, hi⟩, hrst⟩
  have hcoeffs : Fir.coeffs (PdhCore.step rom i (s.withLeftover l)).path.uFir =
      Fir.coeffs (PdhCore.step rom i s).path.uFir := by
    rw [hl']
    rfl
  simpa [PdhCore.step, PdhCore.posedge, negedge, hi, hrst, State.withLeftover, Path.step,
    Path.withLeftover, Fir.coeffs_step, Path.firInput, hchain] using hcoeffs

/-! ## Words written since -/

/-- The staging memory after one clock period. -/
theorem tapCoeffs_step (rom : Nco.Rom) (i : Input) (s : State) :
    (step rom i s).path.uFir.tapCoeffs = nextTapCoeffs s.regs s.path.uFir.tapCoeffs := by
  cases hi : i.rstI <;> simp [step, posedge, negedge, asyncReset, hi, Path.step, Fir.step,
    Path.firInput, nextTapCoeffs]

/-- Word {lit}`k` of the staging memory is written with the rising edge of this period. -/
def writesTap (s : State) (k : BitVec 5) : Bool :=
  s.regs.tapMemWriteEnR && s.regs.tapAddrR == k

theorem nextTapCoeffs_apply (s : State) (mem : BitVec 5 → BitVec 16) (k : BitVec 5) :
    nextTapCoeffs s.regs mem k = if writesTap s k then s.regs.tapCoeffR else mem k := by
  unfold nextTapCoeffs writesTap
  by_cases hwrite : s.regs.tapMemWriteEnR
  · by_cases hk : s.regs.tapAddrR = k
    · simp [hwrite, hk]
    · simp [hwrite, hk, Function.update_of_ne (Ne.symm hk)]
  · simp [hwrite]

/-- The reset pipeline, the command latch and the configuration agree. -/
structure SameControl (s s' : State) : Prop where
  rst : s'.rst = s.rst
  latch : s'.latch = s.latch
  regs : s'.regs = s.regs

theorem SameControl.step {s s' : State} (h : SameControl s s') (rom : Nco.Rom) (i : Input) :
    SameControl (step rom i s) (step rom i s') := by
  cases hi : i.rstI <;> constructor <;>
    simp [PdhCore.step, posedge, negedge, asyncReset, hi, h.rst, h.latch, h.regs]

theorem Alike.sameControl {s s' : State} (h : Alike s s') : SameControl s s' := by
  rcases h with ⟨l, rfl, -⟩
  exact ⟨rfl, rfl, rfl⟩

/-! ## Runs after a reset -/

section Runs

variable (rom : Nco.Rom) {s s' : State} {ins : ℕ → Input}

/-- A word is the same in both runs if and only if it was so from the start or has been written
since. -/
theorem tapCoeffs_run_iff (h : SameControl s s') (k : BitVec 5) (n : ℕ) :
    (run (step rom) s' ins n).path.uFir.tapCoeffs k =
        (run (step rom) s ins n).path.uFir.tapCoeffs k ↔
      s'.path.uFir.tapCoeffs k = s.path.uFir.tapCoeffs k ∨
        ∃ j < n, writesTap (run (step rom) s ins j) k = true := by
  induction n with
  | zero => simp
  | succ n ih =>
      have hregs := (run_related SameControl h (fun n hn => hn.step rom (ins n)) n).regs
      rw [run_succ, run_succ, tapCoeffs_step, tapCoeffs_step, hregs, nextTapCoeffs_apply,
        nextTapCoeffs_apply]
      by_cases hwrite : writesTap (run (step rom) s ins n) k = true
      · rw [if_pos hwrite, if_pos hwrite]
        exact iff_of_true rfl (.inr ⟨n, Nat.lt_succ_self n, hwrite⟩)
      · rw [if_neg hwrite, if_neg hwrite, ih]
        constructor
        · rintro (hstart | ⟨j, hj, hwritten⟩)
          · exact .inl hstart
          · exact .inr ⟨j, Nat.lt_succ_of_lt hj, hwritten⟩
        · rintro (hstart | ⟨j, hj, hwritten⟩)
          · exact .inl hstart
          · rcases Nat.lt_succ_iff_lt_or_eq.mp hj with hj | rfl
            · exact .inr ⟨j, hj, hwritten⟩
            · exact absurd hwritten hwrite

/-- Whenever the taps load, every word in which the two staging memories differed has been
written since. -/
def RewrittenBeforeLoad (s s' : State) (ins : ℕ → Input) : Prop :=
  ∀ n, tapsLoad (ins n) (run (step rom) s ins n) = true →
    ∀ k, s'.path.uFir.tapCoeffs k = s.path.uFir.tapCoeffs k ∨
      ∃ j < n, writesTap (run (step rom) s ins j) k = true

theorem rewrittenBeforeLoad_iff (h : SameControl s s') :
    RewrittenBeforeLoad rom s s' ins ↔
      ∀ n, LoadsAlike (ins n) (run (step rom) s ins n) (run (step rom) s' ins n) := by
  unfold RewrittenBeforeLoad LoadsAlike
  simp only [funext_iff, tapCoeffs_run_iff rom h]

/-- Runs stay alike if and only if the taps never load a word that the two pasts left different. -/
theorem alike_iff (h : Alike s s') :
    (∀ n, Alike (run (step rom) s ins n) (run (step rom) s' ins n)) ↔
      RewrittenBeforeLoad rom s s' ins := by
  rw [rewrittenBeforeLoad_iff rom h.sameControl]
  constructor
  · intro hall n
    exact (hall n).loadsAlike rom (ins n) (hall (n + 1))
  · intro hload
    exact run_related Alike h fun n hn => hn.step rom (ins n) (hload n)

end Runs

/-- Two runs with any pasts, held in reset for four clock periods or more and fed with the same
inputs from then on, show the same outputs in both halves of every later period, if the taps
never load a word of the staging memory that the two pasts left different. -/
theorem reset_clears (rom : Nco.Rom) (s s' : State) {past past' ins : ℕ → Input} {m m' : ℕ}
    (hm : 4 ≤ m) (hm' : 4 ≤ m') (hrst : ∀ k < m, (past k).rstI = true)
    (hrst' : ∀ k < m', (past' k).rstI = true)
    (hload : RewrittenBeforeLoad rom (run (step rom) s past m) (run (step rom) s' past' m') ins)
    (n : ℕ) :
    observe rom (ins n) (run (step rom) (run (step rom) s' past' m') ins n) =
      observe rom (ins n) (run (step rom) (run (step rom) s past m) ins n) := by
  rcases run_rst rom s (by omega) hrst with ⟨l, hl⟩
  rcases run_rst rom s' (by omega) hrst' with ⟨l', hl'⟩
  rw [hl, hl'] at hload ⊢
  have halike := (alike_iff rom (alike_held rom l l')).mpr hload
  apply Prod.ext
  · exact ((halike n).firstHalf (ins n)).outputs_eq
  · exact (halike (n + 1)).outputs_eq

/-! ## Two pasts that a reset does not clear -/

/-- A bus that carries the given words, then idles; both converters read zero and both ready
levels are high. -/
def busOf (ws : List (BitVec 32)) (k : ℕ) : Input where
  axiFromPsI := ws.getD k 0#32
  adcDatAI := 0#14
  adcDatBI := 0#14
  dmaReadyI := true
  bramReadyI := true

/-- A bus that holds the core in reset. -/
def resetBus (_ : ℕ) : Input :=
  busOf [0x80000000#32] 0

theorem resetBus_rstI (k : ℕ) : (resetBus k).rstI = true := by
  unfold resetBus
  decide

/-- One command, written with the strobe low and then high. -/
def strobedWords (cmd : BitVec 4) (data : BitVec 26) : List (BitVec 32) :=
  [0b00#2 ++ cmd ++ data, 0b01#2 ++ cmd ++ data]

/-- `CMD_SET_FIR` twice: the first word of the staging memory becomes {lit}`0x4000`. -/
def stageWord : ℕ → Input :=
  busOf (strobedWords 0b1010#4 (0b001#10 ++ 0x4000#16) ++ strobedWords 0b1010#4 (0b011#10 ++ 1#16))

/-- After the reset pipelines have drained, `CMD_SET_FIR` makes the taps load, and
`CMD_GET_FRAME` selects the frame that shows the filter. -/
def loadAndShow : ℕ → Input :=
  busOf ([0#32, 0#32] ++ strobedWords 0b1010#4 (0b100#10 ++ 1#16) ++
    strobedWords 0b0111#4 (0b0110#4 ++ 1#22))

/-- A ROM of zeros; the oscillator stays disabled here. -/
def zeroRom : Nco.Rom := fun _ => 0#16

/-- A core that has staged a word. -/
def stagedCore : State :=
  run (step zeroRom) (afterReset Path.reset) stageWord 9

/-- A core with its LEDs on. -/
def litCore : State :=
  { afterReset Path.reset with regs := { Regs.reset with ledR := 0xFF#8 } }

/-- Reset clears the LEDs. -/
theorem reset_clears_litCore :
    observe zeroRom (loadAndShow 12)
        (run (step zeroRom) (run (step zeroRom) litCore resetBus 4) loadAndShow 12) =
      observe zeroRom (loadAndShow 12)
        (run (step zeroRom) (run (step zeroRom) (afterReset Path.reset) resetBus 4)
          loadAndShow 12) := by
  apply reset_clears zeroRom (afterReset Path.reset) litCore (by omega) (by omega)
    (fun k _ => resetBus_rstI k) (fun k _ => resetBus_rstI k)
  intro n _ k
  left
  rfl

/-- Reset does not clear a staged word: the taps load it afterwards, and a frame shows it. -/
theorem staged_word_survives_reset :
    observe zeroRom (loadAndShow 17)
        (run (step zeroRom) (run (step zeroRom) stagedCore resetBus 4) loadAndShow 17) ≠
      observe zeroRom (loadAndShow 17)
        (run (step zeroRom) (run (step zeroRom) (afterReset Path.reset) resetBus 4)
          loadAndShow 17) := by
  decide +kernel

end PdhCore
end PoundDreverHall
