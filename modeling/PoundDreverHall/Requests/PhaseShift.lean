import PoundDreverHall.FixedPoint.Fold
import PoundDreverHall.Nco.PhaseOffset
import PoundDreverHall.Requests.NcoSwitch
import PoundDreverHall.Requests.SweepRouting

/-!
# Requests - the phase shift of the oscillator

`cmd_set_nco` folds the phase shift into a quarter turn and rounds it to one of 4096 codes.
The oscillator unfolds the code into an offset of its second output, and the handler unfolds
the echo into the angle that it reports.  All three are compared in exact arithmetic.

Main results:

- Theorem {lit}`quadrant_eq`: the reduction of the handler is the folding of the angle.
- Theorem {lit}`performs_setNco`: the echo of a request on a faithful board.
- Theorem {lit}`setNco_shifts`: the offset and the report of every accepted request.
-/

namespace PoundDreverHall
namespace Requests

open Clocked Device Device.Program Server PdhCore FixedPoint

/-! ## Rounding -/

/-- Rounding to the nearest integer. -/
theorem abs_roundHalfEven_sub_le (x : ℚ) : |(roundHalfEven x : ℚ) - x| ≤ 1 / 2 := by
  have hle : (((x + 1 / 2).floor : ℤ) : ℚ) ≤ x + 1 / 2 := Rat.floor_le _
  have hlt : x + 1 / 2 < (((x + 1 / 2).floor : ℤ) : ℚ) + 1 := by
    exact_mod_cast Rat.lt_floor_add_one (x + 1 / 2)
  rw [roundHalfEven, abs_le]
  split_ifs with htie
  · have hsame := htie.1
    push_cast
    constructor <;> linarith
  · constructor <;> linarith

/-- The code of a number of steps. -/
theorem exists_code {x : ℚ} (hzero : 0 ≤ x) (hle : x ≤ 4095) :
    ∃ code : ℕ, code ≤ 4095 ∧ |(code : ℚ) - x| ≤ 1 / 2 ∧
      absLong (SinglePrecision.lrintf x) = BitVec.ofNat 32 code := by
  have hround := abs_le.mp (abs_roundHalfEven_sub_le x)
  have hlow : -1 < roundHalfEven x := by
    have hcast : ((-1 : ℤ) : ℚ) < (roundHalfEven x : ℚ) := by
      push_cast
      linarith
    exact_mod_cast hcast
  have hhigh : roundHalfEven x < 4096 := by
    have hcast : (roundHalfEven x : ℚ) < ((4096 : ℤ) : ℚ) := by
      push_cast
      linarith
    exact_mod_cast hcast
  obtain ⟨code, hcode⟩ := Int.eq_ofNat_of_zero_le (show 0 ≤ roundHalfEven x by omega)
  refine ⟨code, by omega, ?_, ?_⟩
  · have hnear := abs_roundHalfEven_sub_le x
    rwa [hcode, Int.cast_natCast] at hnear
  · change absLong (BitVec.ofInt 32 (roundHalfEven x)) = _
    rw [hcode, BitVec.ofInt_natCast, absLong]
    by_cases hpos : code = 0
    · rw [hpos]
      rfl
    · have hint : (BitVec.ofNat 32 code).toInt = code := by
        rw [BitVec.toInt_ofNat', Int.bmod_eq_of_le] <;> omega
      rw [if_pos]
      rw [BitVec.slt_iff_toInt_lt, hint, BitVec.toInt_zero]
      omega

/-! ## The reduction -/

/-- `M_PI_2`, in exact arithmetic. -/
def quarterTurn : ℚ := 157079632679489661923 / 10 ^ 20

theorem quarterTurn_pos : 0 < quarterTurn := by
  rw [quarterTurn]
  norm_num

theorem mPi2_eq : (mPi2 : MixedPrecision.Double ℚ) = quarterTurn := rfl

theorem mPi_eq : (mPi : MixedPrecision.Double ℚ) = (2 * quarterTurn : ℚ) := by
  change (314159265358979323846 / 10 ^ 20 : ℚ) = 2 * quarterTurn
  rw [quarterTurn]
  norm_num

/-- What the handler makes of a folded angle. -/
def foldedQuadrant (f : Folded quarterTurn) : Quadrant where
  shiftInt := absLong (SinglePrecision.lrintf (f.mag / quarterTurn * 4095))
  sub := if f.sub then 1#32 else 0#32
  inv := if f.half then 1#32 else 0#32

/-- The last reduction of the handler; the marks are all ones or all zeros before it. -/
theorem foldedQuadrant_foldHalf (half : Bool) {v : ℚ} (hzero : 0 ≤ v) (hle : v ≤ 2 * quarterTurn)
    {inv : BitVec 32} (hinv : inv = if half then ~~~0#32 else 0#32) :
    foldedQuadrant (foldHalf half v hzero hle) =
      { shiftInt :=
          absLong (SinglePrecision.lrintf
            ((if quarterTurn < v then -(v - 2 * quarterTurn) else v) / quarterTurn * 4095))
        sub := if quarterTurn < v then 1#32 else 0#32
        inv := (if quarterTurn < v then ~~~inv else inv) &&& 1#32 } := by
  subst hinv
  rw [foldHalf]
  by_cases hpast : quarterTurn < v
  · simp only [dif_pos hpast, if_pos hpast]
    cases half <;> rfl
  · simp only [dif_neg hpast, if_neg hpast]
    cases half <;> rfl

/-- The reduction of the handler is the folding of the angle. -/
theorem quadrant_eq {r : ℚ} (hlow : -(2 * quarterTurn) ≤ r) (hhigh : r ≤ 2 * quarterTurn) :
    quadrant r = foldedQuadrant (fold r hlow hhigh) := by
  have hquarter : (mPi2 : MixedPrecision.Double ℚ) = quarterTurn := mPi2_eq
  unfold quadrant
  rw [mPi_eq, hquarter]
  simp only [SinglePrecision.lt, SinglePrecision.lit, MixedPrecision.narrow, MixedPrecision.widen,
    MixedPrecision.doubleAdd, MixedPrecision.doubleSub, MixedPrecision.doubleMul,
    MixedPrecision.doubleDiv, MixedPrecision.doubleNeg, MixedPrecision.doubleLt,
    MixedPrecision.doubleLit, id_eq, decide_eq_true_eq]
  rw [show 2 * (2 * quarterTurn) = 4 * quarterTurn by ring, fold]
  by_cases hneg : r < 0
  · simp only [dif_pos hneg, if_pos hneg, foldTurn]
    by_cases hpast : 2 * quarterTurn < r + 4 * quarterTurn
    · simp only [dif_pos hpast, if_pos hpast]
      exact (foldedQuadrant_foldHalf true _ _ rfl).symm
    · simp only [dif_neg hpast, if_neg hpast]
      exact (foldedQuadrant_foldHalf false _ _ rfl).symm
  · simp only [dif_neg hneg, if_neg hneg, foldTurn]
    by_cases hpast : 2 * quarterTurn < r
    · simp only [dif_pos hpast, if_pos hpast]
      exact (foldedQuadrant_foldHalf true _ _ rfl).symm
    · simp only [dif_neg hpast, if_neg hpast]
      exact (foldedQuadrant_foldHalf false _ _ rfl).symm

/-! ## The shift of a request -/

/-- The angle of a requested shift. -/
theorem shiftRad_eq (shift : ℚ) :
    shiftRad (SinglePrecision.mul shift (SinglePrecision.lit (-1))) =
      -shift / 90 * quarterTurn := by
  unfold shiftRad
  rw [mPi_eq]
  change shift * -1 / 180 * (2 * quarterTurn) = _
  ring

theorem ncoArgsCode_cases {F : Type} [MixedPrecision F] (ctx : CmdCtx F) :
    ncoArgsCode ctx = .ok ∨ ncoArgsCode ctx = .invalidShift ∨ ncoArgsCode ctx = .invalidFreq := by
  simp only [ncoArgsCode]
  split_ifs <;> simp

theorem cast_phaseOffset (code : ℕ) (sub inv : Bool) :
    (Nco.phaseOffset code sub inv : ℚ) = unfolded 8192 (code : ℚ) sub inv := by
  cases sub <;> cases inv <;> simp [Nco.phaseOffset, unfolded]

section Angle

variable {shift : ℚ} (hlow : -180 < shift) (hhigh : shift < 180)

include hlow hhigh

/-- The angle of the shift is less than half a turn. -/
theorem angle_bounds :
    -(2 * quarterTurn) < -shift / 90 * quarterTurn ∧
      -shift / 90 * quarterTurn < 2 * quarterTurn := by
  have hpos := quarterTurn_pos
  constructor <;> nlinarith

/-- The triple of a shift, with the offset and the angle that it stands for. -/
theorem exists_triple :
    ∃ (code : ℕ) (sub inv : Bool),
      quadrant (-shift / 90 * quarterTurn) =
        ⟨BitVec.ofNat 32 code, if sub then 1#32 else 0#32, if inv then 1#32 else 0#32⟩ ∧
      code ≤ 4095 ∧
      NearMod 16384 (3 / 2) (Nco.phaseOffset code sub inv : ℚ) (-shift / 360 * 16384) ∧
      NearMod (4 * quarterTurn) (quarterTurn / 8190)
        (unfolded (2 * quarterTurn) (quarterTurn * code / 4095) sub inv)
        (-shift / 90 * quarterTurn) := by
  have hpos := quarterTurn_pos
  rcases angle_bounds hlow hhigh with ⟨hbelow, habove⟩
  have hnear := near_fold hbelow.le habove.le
  have hfold := quadrant_eq hbelow.le habove.le
  generalize fold _ hbelow.le habove.le = f at hnear hfold
  have hmag : f.mag / quarterTurn ≤ 1 := (div_le_one hpos).mpr f.mag_le
  have hzero : 0 ≤ f.mag / quarterTurn := div_nonneg f.mag_nonneg hpos.le
  rcases exists_code (x := f.mag / quarterTurn * 4095) (by linarith) (by linarith) with
    ⟨code, hcode, hround, hshift⟩
  refine ⟨code, f.sub, f.half, ?_, hcode, ?_, ?_⟩
  · rw [hfold, foldedQuadrant, hshift]
  · have hunits := f.near_units hpos hround
    have hangle := hnear.scale ((4095 + 1) / quarterTurn)
    rw [mul_zero, show (4095 + 1) / quarterTurn * (4 * quarterTurn) = 4 * (4095 + 1) by field_simp,
      show (4095 + 1) / quarterTurn * f.angle = f.angle / quarterTurn * (4095 + 1) by ring,
      show (4095 + 1) / quarterTurn * (-shift / 90 * quarterTurn) = -shift / 360 * 16384 by
        field_simp
        ring] at hangle
    have hoffset := hunits.trans hangle
    rw [add_zero, show (4 * (4095 + 1) : ℚ) = 16384 by norm_num,
      show (2 * (4095 + 1) : ℚ) = 8192 by norm_num] at hoffset
    rwa [cast_phaseOffset]
  · have hread := (f.near_read hpos (show (0 : ℚ) < 4095 by norm_num) hround).trans hnear
    rwa [add_zero, show (2 * 4095 : ℚ) = 8190 by norm_num] at hread

/-- Such a shift is accepted. -/
theorem ncoArgsCode_ne_invalidShift {ctx : CmdCtx ℚ} (hshift : ctx.floatArgs 1 = shift) :
    ncoArgsCode ctx ≠ .invalidShift := by
  rcases angle_bounds hlow hhigh with ⟨hbelow, habove⟩
  have hhalf : (mPi : MixedPrecision.Double ℚ) = (2 * quarterTurn : ℚ) := mPi_eq
  have hrange : (MixedPrecision.doubleLt mPi (MixedPrecision.widen
        (shiftRad (SinglePrecision.mul (ctx.floatArgs 1) (SinglePrecision.lit (-1))))) ||
      MixedPrecision.doubleLt (MixedPrecision.widen
        (shiftRad (SinglePrecision.mul (ctx.floatArgs 1) (SinglePrecision.lit (-1)))))
        (MixedPrecision.doubleNeg mPi)) = false := by
    rw [hshift, shiftRad_eq, hhalf]
    exact Bool.or_eq_false_iff.mpr
      ⟨decide_eq_false (not_lt.mpr habove.le), decide_eq_false (not_lt.mpr hbelow.le)⟩
  simp only [ncoArgsCode, hrange, Bool.false_eq_true, if_false]
  split_ifs <;> exact nofun

end Angle

/-! ## The report -/

/-- The angle that an echo is reported as, in degrees. -/
def registeredShift (code : ℕ) (sub inv : Bool) : ℚ :=
  let fractional := unfolded (2 * quarterTurn) (quarterTurn * code / 4095) sub inv
  let fractional :=
    if 2 * quarterTurn < fractional then fractional - 4 * quarterTurn else fractional
  let degrees := -180 * fractional / (2 * quarterTurn)
  degrees

/-- The report is as good as the echo. -/
theorem near_registeredShift {code : ℕ} {sub inv : Bool} {shift : ℚ}
    (h : NearMod (4 * quarterTurn) (quarterTurn / 8190)
      (unfolded (2 * quarterTurn) (quarterTurn * code / 4095) sub inv)
      (-shift / 90 * quarterTurn)) :
    NearMod 360 (45 / 4095) (registeredShift code sub inv) shift := by
  have hpos := quarterTurn_pos
  have hscale : ∀ fractional : ℚ, NearMod (4 * quarterTurn) (quarterTurn / 8190) fractional
      (-shift / 90 * quarterTurn) →
      NearMod 360 (45 / 4095) (-180 * fractional / (2 * quarterTurn)) shift := by
    intro fractional hnear
    have hdegrees := hnear.scale (-90 / quarterTurn)
    rw [abs_of_neg (div_neg_of_neg_of_pos (by norm_num) hpos),
      show -90 / quarterTurn * (4 * quarterTurn) = -360 by
        field_simp
        norm_num,
      show -(-90 / quarterTurn) * (quarterTurn / 8190) = 45 / 4095 by
        field_simp
        norm_num,
      show -90 / quarterTurn * (-shift / 90 * quarterTurn) = shift by field_simp,
      show -90 / quarterTurn * fractional = -180 * fractional / (2 * quarterTurn) by
        field_simp
        ring] at hdegrees
    exact hdegrees.of_neg_turn
  simp only [registeredShift]
  split_ifs with hpast
  · exact hscale _ h.sub_turn
  · exact hscale _ h

/-- The values of a reply with this name. -/
def reported (name : String) (reply : Reply ℚ) : List (OutputItem ℚ) :=
  reply.outputItems.filter fun item => item.name = name

/-- The shift that is computed from the echo. -/
theorem reported_pushNcoValues {r : Reply ℚ} (hnone : reported "REGISTERED_PHASE_SHIFT" r = [])
    (freq shiftDeg : ℚ) (shiftInt : BitVec 32) (sub inv : Bool) (echoStride echoShift : BitVec 32) :
    reported "REGISTERED_PHASE_SHIFT"
        (r.pushNcoValues freq shiftDeg
          ⟨shiftInt, if sub then 1#32 else 0#32, if inv then 1#32 else 0#32⟩ echoStride echoShift) =
      [⟨"REGISTERED_PHASE_SHIFT", .float (registeredShift echoShift.toNat sub inv)⟩] := by
  have hquarter : (mPi2 : MixedPrecision.Double ℚ) = quarterTurn := mPi2_eq
  have hmark : ∀ mark : Bool, ((if mark = true then 1#32 else 0#32) ≠ 0#32) = (mark = true) := by
    simp
  have hmarks : ∀ x : ℚ, (if inv = true then (if sub = true then x * -1 else x) + 2 * quarterTurn
      else if sub = true then x * -1 else x) = unfolded (2 * quarterTurn) x sub inv := by
    intro x
    cases sub <;> cases inv <;> simp [unfolded]
  unfold reported at hnone
  unfold Reply.pushNcoValues
  rw [mPi_eq, hquarter]
  simp only [reported, Reply.pushCtxCb, List.filter_append, hnone, List.nil_append,
    List.filter_cons, List.filter_nil, String.reduceEq, decide_true, decide_false, if_true,
    Bool.false_eq_true, if_false, List.append_nil, List.cons.injEq, OutputItem.mk.injEq,
    OutputData.float.injEq, true_and, and_true]
  simp only [SinglePrecision.mul, SinglePrecision.lit, MixedPrecision.narrow,
    MixedPrecision.widen, MixedPrecision.doubleAdd, MixedPrecision.doubleSub,
    MixedPrecision.doubleMul, MixedPrecision.doubleDiv, MixedPrecision.doubleLt,
    MixedPrecision.doubleLit, MixedPrecision.doubleOfInt, id_eq, decide_eq_true_eq]
  simp only [hmark, Int.cast_natCast, hmarks, show 2 * (2 * quarterTurn) = 4 * quarterTurn by ring]
  rfl

/-! ## The echo -/

theorem decode_setNcoWord (sel : NcoCoeffSelE) (payload : BitVec 16) :
    decode (PdhCmdT.strobe.set 1#1 (setNcoWord sel payload)) =
      some (.setNcoCmd payload sel.code) := by
  apply CmdView.Holds.decode
  constructor
  · simp (disch := decide) only [setNcoWord, cmdWord, BitField.get_set_of_disjoint,
      BitField.get_set, CmdView.cmd]
  · simp (disch := decide) only [setNcoWord, cmdWord, BitField.get_set_of_disjoint,
      BitField.get_set, CmdView.cmd, CmdView.read]

theorem ncoOfCode_code (sel : NcoCoeffSelE) : NcoCoeffSelE.ofCode sel.code = some sel := by
  cases sel <;> rfl

/-- On a faithful board a write of the oscillator is executed, and its callback shows the shift
in the register. -/
theorem performs_ncoWrite {sel : NcoCoeffSelE} {payload : BitVec 16}
    {tr : List ((c : Call) × c.Response)} {cb : BitVec 32} {b b' : Board}
    (hrun : Performs (pdhExecuteCmd (setNcoWord sel payload)) tr cb)
    (hfollows : Follows board b tr b') :
    b'.config.regs = writeNco sel payload b.config.regs ∧
      PdhCallbackT.ncoShiftR.get cb = b'.config.regs.ncoShiftR := by
  rcases performs_execute (rstBit_setNcoWord sel payload) hrun hfollows with
    ⟨-, hconfig, hlatched, d, o, -, -, rfl⟩
  have hdecode := decode_setNcoWord sel payload
  have hregs := regs_of_execute hdecode hconfig
  rw [CmdView.exec, ncoOfCode_code, Option.elim_some] at hregs
  have hread := read_nextCallbackW (hlatched ▸ hdecode) b'.config.regs d o
  rw [CmdView.answer, CmdView.cmd, CallbackView.read, CallbackView.setNcoCb.injEq] at hread
  exact ⟨hregs, hread.2.2.2.1⟩

section Request

variable {F : Type} [MixedPrecision F]

/-- A request on a faithful board leaves its parameters in the registers, and computes its
report from the echo of the shift. -/
theorem performs_setNco {ctx : CmdCtx F} (hok : ncoArgsCode ctx = .ok)
    {tr : List ((c : Call) × c.Response)} {reply : Reply F} {b b' : Board}
    (hrun : Performs (cmdSetNco ctx) tr reply) (hfollows : Follows board b tr b') :
    ncoTuple b'.config.regs = requestTuple ctx ∧
      ∃ (r : Reply F) (echoStride : BitVec 32),
        (∀ item ∈ r.outputItems, item.name ≠ "REGISTERED_PHASE_SHIFT") ∧
        reply = r.pushNcoValues (ctx.floatArgs 0)
          (SinglePrecision.mul (ctx.floatArgs 1) (SinglePrecision.lit (-1)))
          (requestQuadrant ctx) echoStride ((requestTuple ctx).shift.setWidth 32) := by
  unfold cmdSetNco at hrun
  rw [if_neg (not_not.mpr hok)] at hrun
  rcases performs_bind.mp hrun with ⟨tr₁, _, tail₁, hdisable, hrest₁, rfl⟩
  rcases performs_bind.mp hrest₁ with ⟨tr₂, _, tail₂, hstride, hrest₂, rfl⟩
  rcases performs_bind.mp hrest₂ with ⟨tr₃, _, tail₃, hshift, hrest₃, rfl⟩
  rcases performs_bind.mp hrest₃ with ⟨tr₄, _, tail₄, hinv, hrest₄, rfl⟩
  rcases performs_bind.mp hrest₄ with ⟨tr₅, _, tail₅, hsub, hrest₅, rfl⟩
  rcases performs_bind.mp hrest₅ with ⟨tr₆, cb, tail₆, henable, hreply, rfl⟩
  rcases performs_pure.mp hreply with ⟨rfl, rfl⟩
  rcases follows_append.mp hfollows with ⟨b₁, hf₁, hg₁⟩
  rcases follows_append.mp hg₁ with ⟨b₂, hf₂, hg₂⟩
  rcases follows_append.mp hg₂ with ⟨b₃, hf₃, hg₃⟩
  rcases follows_append.mp hg₃ with ⟨b₄, hf₄, hg₄⟩
  rcases follows_append.mp hg₄ with ⟨b₅, hf₅, hg₅⟩
  rcases follows_append.mp hg₅ with ⟨_, hf₆, ⟨⟩⟩
  have h₁ := (performs_ncoWrite hdisable hf₁).1
  have h₂ := (performs_ncoWrite hstride hf₂).1
  have h₃ := (performs_ncoWrite hshift hf₃).1
  have h₄ := (performs_ncoWrite hinv hf₄).1
  have h₅ := (performs_ncoWrite hsub hf₅).1
  rcases performs_ncoWrite henable hf₆ with ⟨h₆, hecho⟩
  have hregs : b'.config.regs = after execRegs ((ncoWrites ctx).map ncoWrite) b.config.regs 6 := by
    rw [after_ncoWrite, h₆, h₅, h₄, h₃, h₂, h₁]
    rfl
  have htuple : ncoTuple b'.config.regs = requestTuple ctx := by
    rw [hregs]
    exact ncoTuple_after_ncoWrites ctx _
  have hcode : (requestTuple ctx).shift = PdhCallbackT.ncoShiftR.get cb := by
    rw [hecho, ← htuple]
    rfl
  rw [hcode]
  refine ⟨htuple, _, _, ?_, rfl⟩
  simp [Reply.pushCtxCb, Reply.validate]

end Request

/-! ## The shift that is realised and reported -/

/-- The settings of the oscillator in the registers. -/
def ncoSettings (r : Regs) : Nco.Config where
  strideI := r.ncoStrideR
  shiftI := r.ncoShiftR
  invertI := r.ncoInvR
  subI := r.ncoSubR

/-- The registers that an accepted request writes, for the triple that it sends. -/
def tripleWrites (stride : BitVec 32) (code : ℕ) (sub inv : Bool) (en : BitVec 32) :
    List (NcoCoeffSelE × BitVec 16) :=
  [(.en, 0#16), (.stride, stride.setWidth 16), (.shift, BitVec.ofNat 16 code),
    (.inv, (BitVec.ofBool inv).setWidth 16), (.sub, (BitVec.ofBool sub).setWidth 16),
    (.en, en.setWidth 16)]

theorem setWidth_code (code : ℕ) : (BitVec.ofNat 32 code).setWidth 16 = BitVec.ofNat 16 code := by
  apply BitVec.eq_of_toNat_eq
  simp only [BitVec.toNat_setWidth, BitVec.toNat_ofNat]
  omega

theorem setWidth_mark (mark : Bool) :
    (if mark then 1#32 else 0#32).setWidth 16 = (BitVec.ofBool mark).setWidth 16 := by
  cases mark <;> rfl

theorem getLsbD_mark (mark : Bool) : (if mark then 1#32 else 0#32).getLsbD 0 = mark := by
  cases mark <;> rfl

/-- A request for a shift of less than half a turn, in exact arithmetic: the code that it sends
fits, the offset of the triple is within one and a half steps of the shift, and what it reports
on a faithful board is within half a step of the code. -/
theorem setNco_shifts (ctx : CmdCtx ℚ) (hlow : -180 < ctx.floatArgs 1)
    (hhigh : ctx.floatArgs 1 < 180) (hfreq : ncoArgsCode ctx ≠ .invalidFreq)
    (tr : List ((c : Call) × c.Response)) (reply : Reply ℚ)
    (hrun : Performs (cmdSetNco ctx) tr reply) :
    ∃ (code : ℕ) (sub inv : Bool),
      Program.shown Call.sent tr =
        ((tripleWrites (strideOf (ctx.floatArgs 0)) code sub inv (ctx.uintArgs 0)).map
          ncoWrite).flatMap strobed ∧
      code ≤ 4095 ∧
      NearMod 16384 (3 / 2) (Nco.phaseOffset code sub inv : ℚ)
        (-ctx.floatArgs 1 / 360 * 16384) ∧
      ∀ b b' : Board, Follows board b tr b' →
        (ncoSettings b'.config.regs).offset = Nco.phaseOffset code sub inv ∧
        ∃ degrees : ℚ,
          reported "REGISTERED_PHASE_SHIFT" reply =
            [⟨"REGISTERED_PHASE_SHIFT", .float degrees⟩] ∧
          NearMod 360 (45 / 4095) degrees (ctx.floatArgs 1) := by
  have hok : ncoArgsCode ctx = .ok := by
    rcases ncoArgsCode_cases ctx with hok | hshift | hstride
    · exact hok
    · exact absurd hshift (ncoArgsCode_ne_invalidShift hlow hhigh rfl)
    · exact absurd hstride hfreq
  rcases exists_triple hlow hhigh with ⟨code, sub, inv, htriple, hcode, hoffset, hread⟩
  have hquadrant : requestQuadrant ctx =
      ⟨BitVec.ofNat 32 code, if sub then 1#32 else 0#32, if inv then 1#32 else 0#32⟩ := by
    rw [requestQuadrant, shiftRad_eq, htriple]
  refine ⟨code, sub, inv, ?_, hcode, hoffset, fun b b' hfollows => ?_⟩
  · have hwrites : ncoWrites ctx =
        tripleWrites (strideOf (ctx.floatArgs 0)) code sub inv (ctx.uintArgs 0) := by
      rw [ncoWrites, ncoTupleWrites, hquadrant, tripleWrites, setWidth_code, setWidth_mark,
        setWidth_mark]
      rfl
    rw [cmdSetNco_emits ctx tr reply hrun, if_pos hok, hwrites]
  · rcases performs_setNco hok hrun hfollows with ⟨htuple, r, echoStride, hnames, hreply⟩
    have hshift : (requestTuple ctx).shift.toNat = code := by
      rw [requestTuple, hquadrant, BitVec.toNat_setWidth, BitVec.toNat_ofNat]
      omega
    refine ⟨?_, registeredShift code sub inv, ?_, near_registeredShift hread⟩
    · have hmarks : (requestTuple ctx).sub = sub ∧ (requestTuple ctx).inv = inv := by
        simp only [requestTuple, hquadrant, getLsbD_mark, and_self]
      rw [← hshift, ← hmarks.1, ← hmarks.2, ← htuple]
      rfl
    · have hnone : reported "REGISTERED_PHASE_SHIFT" r = [] :=
        List.filter_eq_nil_iff.mpr fun item hitem => by simpa using hnames item hitem
      rw [hreply, hquadrant, reported_pushNcoValues hnone, BitVec.toNat_setWidth, hshift,
        Nat.mod_eq_of_lt (by omega)]

/-- A shift of 90 degrees, reported by a faithful board. -/
theorem setNco_shifts_quarterShift :
    ∃ (tr : List ((c : Call) × c.Response)) (reply : Reply ℚ) (b' : Board),
      Follows board pidBoard tr b' ∧
      ∃ degrees : ℚ,
        reported "REGISTERED_PHASE_SHIFT" reply =
          [⟨"REGISTERED_PHASE_SHIFT", .float degrees⟩] ∧
        NearMod 360 (45 / 4095) degrees (quarterShiftCtx.floatArgs 1) := by
  rcases exists_run exists_boardNoFiles (cmdSetNco quarterShiftCtx) pidBoard with
    ⟨tr, reply, b', hrun, hfollows⟩
  have hboard : Follows board pidBoard tr b' := hfollows.imp fun _ _ _ _ h => h.1
  rcases setNco_shifts quarterShiftCtx (by decide +kernel) (by decide +kernel)
    (by decide +kernel) tr reply hrun with ⟨code, sub, inv, -, -, -, hreport⟩
  exact ⟨tr, reply, b', hboard, (hreport pidBoard b' hboard).2⟩

end Requests
end PoundDreverHall
