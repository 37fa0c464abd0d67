import PoundDreverHall.Rtl.PdhCore
import PoundDreverHall.Server.Handlers

/-!
# Frame - the columns of a frame

The core packs the signals of a frame code into words of 64 bits, `cmd_get_frame` prints the
bit-fields of a word as a row of numbers, and the client names the columns.

Main results:

- Definition {lit}`frameColumnNames`: the names of the columns.
- Definition {lit}`Signals.column`: the signal behind a name.
- Theorem {lit}`frameColumns_dmaDataW`: the row of a packed word.
-/

namespace PoundDreverHall
namespace Frame

open Device PdhCore Server

/-! ## Names -/

/-- `FrameCode`. -/
inductive FrameCode where
  | adcDataIn
  | pidErrTaps
  | ioSumErr
  | oscInspect
  | oscAddrCheck
  | loopback
  | firIo
  | pidIo
  | captureDemod
deriving DecidableEq, Repr

/-- The frame code of a number; the others have no name. -/
def FrameCode.ofCode (code : BitVec 4) : Option FrameCode :=
  match code with
  | 0b0000#4 => some .adcDataIn
  | 0b0001#4 => some .pidErrTaps
  | 0b0010#4 => some .ioSumErr
  | 0b0011#4 => some .oscInspect
  | 0b0100#4 => some .oscAddrCheck
  | 0b0101#4 => some .loopback
  | 0b0110#4 => some .firIo
  | 0b0111#4 => some .pidIo
  | 0b1000#4 => some .captureDemod
  | _ => none

/-- The labels of columns. -/
inductive Column where
  | adcA
  | adcB
  | iFeed
  | qFeed
  | err
  | perr
  | derr
  | ierr
  | pidOut
  | sumErr
  | ncoOut1
  | ncoOut2
  | ncoFeed1
  | ncoFeed2
  | phi1
  | phi2
  | addr1
  | addr2
  | dac1Feed
  | dac2Feed
  | firIn
  | firOut
  | pidIn
  | demodIn
  | demodRef
  | demodOut
  | demodLpf
deriving DecidableEq, Repr

/-- `FRAME_COLUMNS`. -/
def frameColumnNames : FrameCode → List Column
  | .adcDataIn => [.adcA, .adcB, .iFeed, .qFeed]
  | .pidErrTaps => [.err, .perr, .derr, .ierr]
  | .ioSumErr => [.err, .pidOut, .sumErr]
  | .oscInspect => [.ncoOut1, .ncoOut2, .ncoFeed1, .ncoFeed2]
  | .oscAddrCheck => [.phi1, .phi2, .addr1, .addr2]
  | .loopback => [.dac1Feed, .dac2Feed, .adcA, .adcB]
  | .firIo => [.firIn, .firOut]
  | .pidIo => [.pidIn, .err, .pidOut]
  | .captureDemod => [.demodIn, .demodRef, .demodOut, .demodLpf]

/-! ## Signals -/

/-- What the frames are packed from: the inputs and the registers of the core. -/
structure Signals where
  rstSyncR : Bool
  input : PdhCore.Input
  regs : Regs
  dac : DacRegs
  path : Path

namespace Signals

/-- The number that a column shows: signals of 16 and 32 bits are signed, codes of 12 and 14 bits
are not.  A loopback shows the codes of the converters, every other frame their centred
values. -/
def column (s : Signals) (frame : FrameCode) : Column → ℤ
  | .adcA =>
      match frame with
      | .loopback => s.input.adcDatAI.toNat
      | _ => s.path.adcDatA16sR.toInt
  | .adcB =>
      match frame with
      | .loopback => s.input.adcDatBI.toNat
      | _ => s.path.adcDatB16sR.toInt
  | .iFeed => s.path.iFeedR.toInt
  | .qFeed => s.path.qFeedR.toInt
  | .err => (PidCore.errTap s.path.uPid).toInt
  | .perr => (PidCore.perrTap s.path.uPid).toInt
  | .derr => (PidCore.derrTap s.path.uPid).toInt
  | .ierr => (PidCore.ierrTap s.path.uPid).toInt
  | .pidOut => (PidCore.pidOut s.path.uPid).toNat
  | .sumErr => (PidCore.sumErrTap (Path.pidInput s.rstSyncR s.regs s.path) s.path.uPid).toInt
  | .ncoOut1 => s.path.ncoOut1R.toInt
  | .ncoOut2 => s.path.ncoOut2R.toInt
  | .ncoFeed1 => s.path.ncoFeed1R.toNat
  | .ncoFeed2 => s.path.ncoFeed2R.toNat
  | .phi1 => (Nco.phi1O s.path.uNco).toNat
  | .phi2 => (Nco.phi2O s.path.uNco).toNat
  | .addr1 => (Nco.addr1O s.path.uNco).toNat
  | .addr2 => (Nco.addr2O s.path.uNco).toNat
  | .dac1Feed => (Path.dacFeedW s.regs.dac1DatSelR s.dac.dac1DatR s.path).toNat
  | .dac2Feed => (Path.dacFeedW s.regs.dac2DatSelR s.dac.dac2DatR s.path).toNat
  | .firIn => (Path.firInW s.regs s.path).toInt
  | .firOut => (Path.firOutW s.path).toInt
  | .pidIn => (Path.pidInW s.regs s.path).toInt
  | .demodIn => (Path.demodInW s.regs s.path).toInt
  | .demodRef => (Path.demodRefW s.regs s.path).toInt
  | .demodOut => s.path.demodOut.toInt
  | .demodLpf => s.path.demodLpfR.toInt

/-- `dma_data_w`. -/
def word (s : Signals) : BitVec 64 :=
  Path.dmaDataW s.rstSyncR s.input s.regs s.dac s.path

end Signals

/-! ## Fields of a packed word -/

section Fields

variable {raw : BitVec 64} {lo len : ℕ}

theorem unsignedField_eq {n : ℕ} (h : raw.toNat / 2 ^ lo % 2 ^ len = n) :
    unsignedField lo len raw = n := by
  rw [unsignedField, BitVec.extractLsb'_toNat, Nat.shiftRight_eq_div_pow, h]

theorem signedField_eq {x : BitVec len} (h : raw.toNat / 2 ^ lo % 2 ^ len = x.toNat) :
    signedField lo len raw = x.toInt := by
  have hfield : raw.extractLsb' lo len = x := by
    apply BitVec.eq_of_toNat_eq
    rw [BitVec.extractLsb'_toNat, Nat.shiftRight_eq_div_pow, h]
  rw [signedField, hfield]

end Fields

/-! ## Rows -/

theorem toNat_lt_of_le {w n : ℕ} (hw : w ≤ n) (x : BitVec w) : x.toNat < 2 ^ n :=
  x.isLt.trans_le (Nat.pow_le_pow_right Nat.two_pos hw)

/-- The quarters of a word. -/
theorem quarters_eq {raw : BitVec 64} {a b c d : ℕ}
    (hraw : raw.toNat = a * 2 ^ 48 + b * 2 ^ 32 + c * 2 ^ 16 + d) (hb : b < 2 ^ 16)
    (hc : c < 2 ^ 16) (hd : d < 2 ^ 16) :
    raw.toNat / 2 ^ 48 % 2 ^ 16 = a ∧ raw.toNat / 2 ^ 32 % 2 ^ 16 = b ∧
      raw.toNat / 2 ^ 16 % 2 ^ 16 = c ∧ raw.toNat / 2 ^ 0 % 2 ^ 16 = d := by
  omega

/-- Four signals of 16 bits. -/
theorem row_signals (x y z w : BitVec 16) {raw : BitVec 64} (hraw : raw = x ++ y ++ z ++ w) :
    signedField 48 16 raw = x.toInt ∧ signedField 32 16 raw = y.toInt ∧
      signedField 16 16 raw = z.toInt ∧ signedField 0 16 raw = w.toInt := by
  have hsum : raw.toNat = x.toNat * 2 ^ 48 + y.toNat * 2 ^ 32 + z.toNat * 2 ^ 16 + w.toNat := by
    rw [hraw]
    simp only [toNat_pack]
    omega
  rcases quarters_eq hsum y.isLt z.isLt w.isLt with ⟨hx, hy, hz, hw⟩
  exact ⟨signedField_eq hx, signedField_eq hy, signedField_eq hz, signedField_eq hw⟩

/-- A signal of 16 bits, a code, and a signal of 32 bits. -/
theorem row_sum (x : BitVec 16) (y : BitVec 14) (z : BitVec 32) {raw : BitVec 64}
    (hraw : raw = x ++ 0#2 ++ y ++ z) :
    signedField 48 16 raw = x.toInt ∧ unsignedField 32 14 raw = y.toNat ∧
      signedField 0 32 raw = z.toInt := by
  have hx := x.isLt
  have hy := y.isLt
  have hz := z.isLt
  have hsum : raw.toNat = x.toNat * 2 ^ 48 + y.toNat * 2 ^ 32 + z.toNat := by
    rw [hraw]
    simp only [toNat_pack, BitVec.toNat_ofNat]
    omega
  refine ⟨signedField_eq ?_, unsignedField_eq ?_, signedField_eq ?_⟩
  all_goals omega

/-- Two codes and two signals of 16 bits. -/
theorem row_oscillators (x y : BitVec 14) (z w : BitVec 16) {raw : BitVec 64}
    (hraw : raw = 0#2 ++ x ++ 0#2 ++ y ++ z ++ w) :
    unsignedField 48 16 raw = x.toNat ∧ unsignedField 32 16 raw = y.toNat ∧
      signedField 16 16 raw = z.toInt ∧ signedField 0 16 raw = w.toInt := by
  have hcode := toNat_lt_of_le (w := 14) (by decide : 14 ≤ 16)
  have hsum : raw.toNat = x.toNat * 2 ^ 48 + y.toNat * 2 ^ 32 + z.toNat * 2 ^ 16 + w.toNat := by
    rw [hraw]
    simp only [toNat_pack, BitVec.toNat_ofNat]
    omega
  rcases quarters_eq hsum (hcode y) z.isLt w.isLt with ⟨hx, hy, hz, hw⟩
  exact ⟨unsignedField_eq hx, unsignedField_eq hy, signedField_eq hz, signedField_eq hw⟩

/-- Two addresses and two phases. -/
theorem row_addresses (x y : BitVec 12) (z w : BitVec 14) {raw : BitVec 64}
    (hraw : raw = 0#4 ++ x ++ 0#4 ++ y ++ 0#2 ++ z ++ 0#2 ++ w) :
    unsignedField 48 16 raw = x.toNat ∧ unsignedField 32 16 raw = y.toNat ∧
      unsignedField 16 16 raw = z.toNat ∧ unsignedField 0 16 raw = w.toNat := by
  have haddr := toNat_lt_of_le (w := 12) (by decide : 12 ≤ 16)
  have hphi := toNat_lt_of_le (w := 14) (by decide : 14 ≤ 16)
  have hsum : raw.toNat = x.toNat * 2 ^ 48 + y.toNat * 2 ^ 32 + z.toNat * 2 ^ 16 + w.toNat := by
    rw [hraw]
    simp only [toNat_pack, BitVec.toNat_ofNat]
    omega
  rcases quarters_eq hsum (haddr y) (hphi z) (hphi w) with ⟨hx, hy, hz, hw⟩
  exact ⟨unsignedField_eq hx, unsignedField_eq hy, unsignedField_eq hz, unsignedField_eq hw⟩

/-- Four codes of the converters. -/
theorem row_codes (x y z w : BitVec 14) {raw : BitVec 64}
    (hraw : raw = 0#2 ++ x ++ 0#2 ++ y ++ 0#2 ++ z ++ 0#2 ++ w) :
    unsignedField 48 16 raw = x.toNat ∧ unsignedField 32 16 raw = y.toNat ∧
      unsignedField 16 16 raw = z.toNat ∧ unsignedField 0 16 raw = w.toNat := by
  have hcode := toNat_lt_of_le (w := 14) (by decide : 14 ≤ 16)
  have hsum : raw.toNat = x.toNat * 2 ^ 48 + y.toNat * 2 ^ 32 + z.toNat * 2 ^ 16 + w.toNat := by
    rw [hraw]
    simp only [toNat_pack, BitVec.toNat_ofNat]
    omega
  rcases quarters_eq hsum (hcode y) (hcode z) (hcode w) with ⟨hx, hy, hz, hw⟩
  exact ⟨unsignedField_eq hx, unsignedField_eq hy, unsignedField_eq hz, unsignedField_eq hw⟩

/-- A code above two signals of 16 bits. -/
theorem row_control (x : BitVec 14) (y z : BitVec 16) {raw : BitVec 64}
    (hraw : raw = 0#16 ++ 0#2 ++ x ++ y ++ z) :
    unsignedField 32 14 raw = x.toNat ∧ signedField 16 16 raw = y.toInt ∧
      signedField 0 16 raw = z.toInt := by
  have hx := x.isLt
  have hy := y.isLt
  have hz := z.isLt
  have hsum : raw.toNat = x.toNat * 2 ^ 32 + y.toNat * 2 ^ 16 + z.toNat := by
    rw [hraw]
    simp only [toNat_pack, BitVec.toNat_ofNat]
    omega
  refine ⟨unsignedField_eq ?_, signedField_eq ?_, signedField_eq ?_⟩
  all_goals omega

/-! ## The row of a packed word -/

section Row

variable {a b c d a' b' c' d' : ℤ}

theorem row_two (ha : a = a') (hb : b = b') : [a, b] = [a', b'] := by
  rw [ha, hb]

theorem row_three (ha : a = a') (hb : b = b') (hc : c = c') : [a, b, c] = [a', b', c'] := by
  rw [ha, hb, hc]

theorem row_four (ha : a = a') (hb : b = b') (hc : c = c') (hd : d = d') :
    [a, b, c, d] = [a', b', c', d'] := by
  rw [ha, hb, hc, hd]

end Row

/-- The nine frame codes with a name, and the seven without. -/
theorem frameCode_cases (code : BitVec 4) :
    (code = 1#4 ∨ code = 2#4 ∨ code = 3#4 ∨ code = 4#4 ∨ code = 5#4 ∨ code = 6#4 ∨ code = 7#4 ∨
      code = 8#4) ∨
    code = 0#4 ∨ code = 9#4 ∨ code = 10#4 ∨ code = 11#4 ∨ code = 12#4 ∨ code = 13#4 ∨
      code = 14#4 ∨ code = 15#4 := by
  revert code
  decide

/-- The row that is printed for a word shows, under every name of the columns, the signal behind
it.  A frame code without a name has the columns of the default. -/
theorem frameColumns_dmaDataW (s : Signals) :
    frameColumns (s.regs.frameCodeR.setWidth 32) s.word =
      (frameColumnNames ((FrameCode.ofCode s.regs.frameCodeR).getD .adcDataIn)).map
        (s.column ((FrameCode.ofCode s.regs.frameCodeR).getD .adcDataIn)) := by
  have hword : s.word = Path.dmaDataW s.rstSyncR s.input
      { s.regs with frameCodeR := s.regs.frameCodeR } s.dac s.path := rfl
  generalize s.regs.frameCodeR = code at hword ⊢
  rcases frameCode_cases code with
    (rfl | rfl | rfl | rfl | rfl | rfl | rfl | rfl) | hdefault
  · rcases row_signals _ _ _ _ hword with ⟨herr, hperr, hderr, hierr⟩
    exact row_four herr hperr hderr hierr
  · rcases row_sum _ _ _ hword with ⟨herr, hpid, hsum⟩
    exact row_three herr hpid hsum
  · rcases row_oscillators _ _ _ _ hword with ⟨hfeed2, hfeed1, hout2, hout1⟩
    exact row_four hout1 hout2 hfeed1 hfeed2
  · rcases row_addresses _ _ _ _ hword with ⟨haddr2, haddr1, hphi2, hphi1⟩
    exact row_four hphi1 hphi2 haddr1 haddr2
  · rcases row_codes _ _ _ _ hword with ⟨hdac1, hdac2, hadcA, hadcB⟩
    exact row_four hdac1 hdac2 hadcA hadcB
  · -- the upper half of the word is zero
    rcases row_signals 0#16 0#16 _ _ hword with ⟨-, -, hout, hin⟩
    exact row_two hin hout
  · rcases row_control _ _ _ hword with ⟨hout, herr, hin⟩
    exact row_three hin herr hout
  · rcases row_signals _ _ _ _ hword with ⟨hlpf, hout, href, hin⟩
    exact row_four hin href hout hlpf
  · rcases hdefault with rfl | rfl | rfl | rfl | rfl | rfl | rfl | rfl
    all_goals
      rcases row_signals _ _ _ _ hword with ⟨hi, hq, ha, hb⟩
      exact row_four ha hb hi hq

end Frame
end PoundDreverHall
