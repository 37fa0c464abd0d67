import PoundDreverHall.Requests.FirLoad
import PoundDreverHall.Requests.OpenFiles
import PoundDreverHall.Requests.SweepRouting

/-!
# Requests - the echoes of a load

`cmd_set_fir` compares the echo of every write under a mask with what it wrote.  The address
register has five bits, and a request may have 64 coefficients.

Main results:

- Theorem {lit}`performs_setFirReg`: a write and its echo on a faithful board.
- Theorem {lit}`returnCode_cmdSetFir`: the request succeeds if and only if its arguments are
  accepted and it has no more than 32 coefficients.
-/

namespace PoundDreverHall
namespace Requests

open Device Program Server PdhCore

theorem decode_setFirWord (sel : FirUpdateSelE) (payload : BitVec 16) :
    decode (PdhCmdT.strobe.set 1#1 (setFirWord sel payload)) =
      some (.setFirCmd payload sel.code) := by
  apply CmdView.Holds.decode
  constructor
  · simp (disch := decide) only [setFirWord, cmdWord, BitField.get_set_of_disjoint,
      BitField.get_set, CmdView.cmd]
  · simp (disch := decide) only [setFirWord, cmdWord, BitField.get_set_of_disjoint,
      BitField.get_set, CmdView.cmd, CmdView.read]

theorem ofCode_code (sel : FirUpdateSelE) : FirUpdateSelE.ofCode sel.code = some sel := by
  cases sel <;> rfl

/-- The value that a write of the filter reads back, at the width of its register. -/
def echoOf (sel : FirUpdateSelE) (value mask : BitVec 32) : BitVec 32 :=
  (firEcho (value.setWidth 16) sel).setWidth 32 &&& mask

section Write

variable {F : Type} {sel : FirUpdateSelE} {value mask : BitVec 32} {fail : SetFirE} {r : Reply F}
  {tr : List ((c : Call) × c.Response)} {x : BitVec 32 × Reply F} {b b' : Board}

/-- On a faithful board a write is echoed at the width of its register. -/
theorem performs_setFirReg (hrun : Performs (setFirReg sel value mask fail r) tr x)
    (hfollows : Follows board b tr b') :
    x = (echoOf sel value mask, r.validate (echoOf sel value mask) value fail.code) ∧
      b'.config.regs = writeFir sel (value.setWidth 16) b.config.regs := by
  rcases performs_bind.mp hrun with ⟨tr₁, cb, tr₂, hexecute, hreply, rfl⟩
  rcases performs_pure.mp hreply with ⟨rfl, rfl⟩
  rw [List.append_nil] at hfollows
  rcases performs_execute (rstBit_setFirWord _ _) hexecute hfollows with
    ⟨-, hconfig, hlatched, d, o, -, -, rfl⟩
  have hregs := regs_of_execute (decode_setFirWord sel _) hconfig
  rw [CmdView.exec, ofCode_code, Option.elim_some] at hregs
  have hread := read_nextCallbackW (hlatched ▸ decode_setFirWord sel _) b'.config.regs d o
  rw [CmdView.answer, ofCode_code, Option.elim_some, hregs, firRegister_writeFir] at hread
  have hpayload := (CallbackView.setFirCb.inj hread).1
  rw [← hregs] at hpayload
  refine ⟨?_, hregs⟩
  rw [hpayload]
  rfl

/-- The write keeps the reply successful if its echo is the value. -/
theorem returnCode_setFirReg (hrun : Performs (setFirReg sel value mask fail r) tr x)
    (hfollows : Follows board b tr b') (hfail : fail ≠ .ok) :
    x.2.returnCode = 0 ↔ echoOf sel value mask = value ∧ r.returnCode = 0 := by
  rw [(performs_setFirReg hrun hfollows).1]
  refine validateCb_eq_zero_iff ?_
  cases fail with
  | ok => exact absurd rfl hfail
  | _ => exact nofun

end Write

/-! ## Echoes -/

/-- A mask of low bits. -/
theorem toNat_and_mask {mask : BitVec 32} {k : ℕ} (hmask : mask.toNat = 2 ^ k - 1)
    (x : BitVec 32) : (x &&& mask).toNat = x.toNat % 2 ^ k := by
  rw [BitVec.toNat_and, hmask, Nat.and_two_pow_sub_one_eq_mod]

/-- The echo of an address has five bits. -/
theorem echoOf_addr {i : ℕ} (hi : i < 64) :
    echoOf .addr (BitVec.ofNat 32 i) 0x1F#32 = BitVec.ofNat 32 i ↔ i < 32 := by
  rw [← BitVec.toNat_inj, echoOf, toNat_and_mask (k := 5) rfl, firEcho]
  simp only [BitVec.toNat_setWidth, BitVec.toNat_ofNat]
  omega

theorem echoOf_coeff (q15 : BitVec 16) :
    echoOf .coeff (q15.setWidth 32) 0xFFFF#32 = q15.setWidth 32 := by
  have hlt := q15.isLt
  rw [← BitVec.toNat_inj, echoOf, toNat_and_mask (k := 16) rfl, firEcho]
  simp only [BitVec.toNat_setWidth]
  omega

theorem echoOf_inputSel {value : BitVec 32} (h : value ≤ 3#32) :
    echoOf .inputSel value 0x7#32 = value := by
  have hle : value.toNat ≤ 3 := h
  rw [← BitVec.toNat_inj, echoOf, toNat_and_mask (k := 3) rfl, firEcho]
  simp only [BitVec.toNat_setWidth]
  omega

section Request

variable {F : Type} [SinglePrecision F] {ctx : CmdCtx F}
  {tr : List ((c : Call) × c.Response)} {b b' : Board}

/-- The loop succeeds if all addresses have five bits. -/
theorem returnCode_loadCoeffs {r reply : Reply F} {i n : ℕ} (hn : i + n ≤ 64)
    (hrun : Performs (loadCoeffs ctx r i n) tr reply) (hfollows : Follows board b tr b') :
    reply.returnCode = 0 ↔ r.returnCode = 0 ∧ (n = 0 ∨ i + n ≤ 32) := by
  induction n generalizing r i tr b with
  | zero =>
      rcases performs_pure.mp hrun with ⟨-, rfl⟩
      simp
  | succ n ih =>
      rcases performs_bind.mp hrun with ⟨tr₁, x, tail₁, haddr, hrest₁, rfl⟩
      rcases performs_bind.mp hrest₁ with ⟨tr₂, y, tail₂, hcoeff, hrest₂, rfl⟩
      rcases follows_append.mp hfollows with ⟨b₁, hf₁, hf₂⟩
      rcases follows_append.mp hf₂ with ⟨b₂, hf₃, hf₄⟩
      have hfirst := returnCode_setFirReg haddr hf₁ nofun
      have hsecond := returnCode_setFirReg hcoeff hf₃ nofun
      rw [echoOf_addr (by omega)] at hfirst
      rw [ih (by omega) hrest₂ hf₄, hsecond, hfirst]
      constructor
      · rintro ⟨⟨-, hi, hzero⟩, hlast⟩
        exact ⟨hzero, .inr (by omega)⟩
      · rintro ⟨hzero, hlast⟩
        exact ⟨⟨echoOf_coeff _, by omega, hzero⟩, by omega⟩

theorem le_of_firArgsCode (hok : firArgsCode ctx = .ok) : ctx.uintArgs 0 ≤ 3#32 := by
  by_contra hlarge
  rw [firArgsCode, if_pos (BitVec.not_le.mp hlarge)] at hok
  exact nomatch hok

/-- On a faithful board a request succeeds if and only if its arguments are accepted and every
coefficient has an address. -/
theorem returnCode_cmdSetFir {reply : Reply F} (hrun : Performs (cmdSetFir ctx) tr reply)
    (hfollows : Follows board b tr b') :
    reply.returnCode = 0 ↔ firArgsCode ctx = .ok ∧ ctx.numFloats ≤ 32 := by
  unfold cmdSetFir at hrun
  by_cases hok : firArgsCode ctx = .ok
  · rw [if_neg (not_not.mpr hok)] at hrun
    rcases performs_bind.mp hrun with ⟨tr₁, x₁, tail₁, h₁, hrest₁, rfl⟩
    rcases performs_bind.mp hrest₁ with ⟨tr₂, x₂, tail₂, h₂, hrest₂, rfl⟩
    rcases performs_bind.mp hrest₂ with ⟨tr₃, r₃, tail₃, h₃, hrest₃, rfl⟩
    rcases performs_bind.mp hrest₃ with ⟨tr₄, x₄, tail₄, h₄, hrest₄, rfl⟩
    rcases performs_bind.mp hrest₄ with ⟨tr₅, x₅, tail₅, h₅, hrest₅, rfl⟩
    rcases performs_pure.mp hrest₅ with ⟨-, rfl⟩
    rcases follows_append.mp hfollows with ⟨b₁, hf₁, hfollows₁⟩
    rcases follows_append.mp hfollows₁ with ⟨b₂, hf₂, hfollows₂⟩
    rcases follows_append.mp hfollows₂ with ⟨b₃, hf₃, hfollows₃⟩
    rcases follows_append.mp hfollows₃ with ⟨b₄, hf₄, hfollows₄⟩
    rcases follows_append.mp hfollows₄ with ⟨b₅, hf₅, hfollows₅⟩
    have hcode₁ := returnCode_setFirReg h₁ hf₁ nofun
    have hcode₂ := returnCode_setFirReg h₂ hf₂ nofun
    have hcode₃ := returnCode_loadCoeffs (by have hlen := ctx.numFloats_le; omega) h₃ hf₃
    have hcode₄ := returnCode_setFirReg h₄ hf₄ nofun
    have hcode₅ := returnCode_setFirReg h₅ hf₅ nofun
    change x₅.2.returnCode = 0 ↔ _
    change r₃.returnCode = 0 ↔ x₂.2.returnCode = 0 ∧ _ at hcode₃
    change x₂.2.returnCode = 0 ↔ _ ∧ x₁.2.returnCode = 0 at hcode₂
    change x₅.2.returnCode = 0 ↔ _ ∧ x₄.2.returnCode = 0 at hcode₅
    rw [hcode₅, hcode₄, hcode₃, hcode₂, hcode₁]
    constructor
    · rintro ⟨-, -, -, hlast⟩
      exact ⟨hok, by omega⟩
    · rintro ⟨-, hlast⟩
      exact ⟨by decide, by decide, ⟨by decide, echoOf_inputSel (le_of_firArgsCode hok), rfl⟩,
        .inr (by omega)⟩
  · rw [if_pos hok] at hrun
    rcases performs_pure.mp hrun with ⟨-, rfl⟩
    refine iff_of_false (fun hzero => ?_) fun h => hok h.1
    change (firArgsCode ctx).code = 0 at hzero
    cases hcode : firArgsCode ctx with
    | ok => exact hok hcode
    | _ => exact absurd (hcode ▸ hzero) nofun

end Request

end Requests
end PoundDreverHall
