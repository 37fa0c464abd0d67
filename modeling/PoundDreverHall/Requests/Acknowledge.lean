import PoundDreverHall.Requests.FirLoad
import PoundDreverHall.Requests.OpenFiles
import PoundDreverHall.Requests.PidSwitchOn
import PoundDreverHall.Requests.FirEcho

/-!
# Requests - acknowledgements

`cmd_set_pid` and `cmd_set_fir` read a callback after every write and compare its payload with
the value sent, the filter under a mask.  Neither compares the command or the selector that the
callback names, although both are in it.  Nothing is assumed of the callbacks here.

Main results:

- Theorem {lit}`returnCode_cmdSetPid_iff`: what the callbacks of a PID request that succeeds are.
- Theorem {lit}`returnCode_cmdSetFir_iff`: the same for a filter request.
- Theorem {lit}`noFalseAck_iff`: when a request that succeeds was acknowledged.
-/

namespace PoundDreverHall
namespace Requests

open Device Program Server PdhCore

/-! ## Exchanges -/

/-- Every callback that is read in a trace, with the word that was sent last before it. -/
def exchangesFrom (w : BitVec 32) : List ((c : Call) × c.Response) → List (BitVec 32 × BitVec 32)
  | [] => []
  | ⟨.pdhSendCmd raw, _⟩ :: tr => exchangesFrom raw tr
  | ⟨.pdhGetCallback, cb⟩ :: tr => (w, cb) :: exchangesFrom w tr
  | _ :: tr => exchangesFrom w tr

/-- The exchanges of a request. -/
def exchanges (tr : List ((c : Call) × c.Response)) : List (BitVec 32 × BitVec 32) :=
  exchangesFrom 0#32 tr

/-- A command is strobed and answered. -/
def answered (x : BitVec 32 × BitVec 32) : List ((c : Call) × c.Response) :=
  [⟨.pdhSendCmd (PdhCmdT.strobe.set 0#1 x.1), ()⟩,
    ⟨.pdhSendCmd (PdhCmdT.strobe.set 1#1 x.1), ()⟩, ⟨.pdhGetCallback, x.2⟩]

/-- The exchange of a command that is strobed and answered. -/
def raised (x : BitVec 32 × BitVec 32) : BitVec 32 × BitVec 32 :=
  (PdhCmdT.strobe.set 1#1 x.1, x.2)

theorem exchangesFrom_answered (w : BitVec 32) (xs : List (BitVec 32 × BitVec 32)) :
    exchangesFrom w (xs.flatMap answered) = xs.map raised := by
  induction xs generalizing w with
  | nil => rfl
  | cons x xs ih => exact congrArg (raised x :: ·) (ih _)

theorem performs_answered {cmd cb : BitVec 32} {tr : List ((c : Call) × c.Response)}
    (hrun : Performs (pdhExecuteCmd cmd) tr cb) : tr = answered (cmd, cb) := by
  rcases performs_bind.mp hrun with ⟨tr₁, _, tr', h₁, hrest, rfl⟩
  rcases performs_bind.mp hrest with ⟨tr₂, _, tr₃, h₂, h₃, rfl⟩
  rw [Call.run, performs_op] at h₁ h₂ h₃
  subst h₁ h₂ h₃
  rfl

/-! ## What a callback says -/

/-- The callback has the payload of the word, in the bits that the handler looks at. -/
def Echoes (bits : BitVec 32 → BitVec 16) (x : BitVec 32 × BitVec 32) : Prop :=
  PdhCallbackT.payloadR.get x.2 &&& bits x.1 = PdhCmdT.payload.get x.1

/-- The callback names the command and the register of the word. -/
def Names {n : ℕ} (echo sent : BitVec 32 → BitVec n) (x : BitVec 32 × BitVec 32) : Prop :=
  PdhCallbackT.cmd.get x.2 = PdhCmdT.cmd.get x.1 ∧ echo x.2 = sent x.1

/-- The callback has no payload besides the bits that the handler looks at. -/
def Clear (bits : BitVec 32 → BitVec 16) (x : BitVec 32 × BitVec 32) : Prop :=
  PdhCallbackT.payloadR.get x.2 &&& ~~~bits x.1 = 0#16

/-- The callback carries the command, the selector and the payload of the word. -/
def Acknowledges {n : ℕ} (echo sent : BitVec 32 → BitVec n) (x : BitVec 32 × BitVec 32) : Prop :=
  PdhCallbackT.cmd.get x.2 = PdhCmdT.cmd.get x.1 ∧ echo x.2 = sent x.1 ∧
    PdhCallbackT.payloadR.get x.2 = PdhCmdT.payload.get x.1

theorem eq_iff_of_and_eq {a b m : BitVec 16} (h : a &&& m = b) : a = b ↔ a &&& ~~~m = 0#16 := by
  have hsplit : a = (a &&& m) ||| (a &&& ~~~m) := by
    rw [← BitVec.and_or_distrib_left, BitVec.or_not_self, BitVec.and_allOnes]
  constructor
  · intro hab
    rw [← hab] at h
    rw [← h, BitVec.and_assoc, BitVec.and_not_self]
    exact BitVec.and_zero
  · intro hclear
    rw [hclear, h, BitVec.or_zero] at hsplit
    exact hsplit

/-- What the handler does not look at. -/
theorem acknowledges_iff {n : ℕ} {echo sent : BitVec 32 → BitVec n} {bits : BitVec 32 → BitVec 16}
    {x : BitVec 32 × BitVec 32} (h : Echoes bits x) :
    Acknowledges echo sent x ↔ Names echo sent x ∧ Clear bits x := by
  rw [Acknowledges, Names, Clear, ← eq_iff_of_and_eq h, and_assoc]

/-! ## Checked writes -/

/-- A routine that strobes commands and reads a callback after each.  Its return code is 0 if and
only if {lit}`C` holds and every callback echoes its word. -/
def Checks {α : Type} (bits : BitVec 32 → BitVec 16) (C : Prop) (p : Routine α) (code : α → ℕ)
    (cmds : List (BitVec 32)) : Prop :=
  ∀ tr a, Performs p tr a → ∃ xs : List (BitVec 32 × BitVec 32),
    xs.map Prod.fst = cmds ∧ tr = xs.flatMap answered ∧
      (code a = 0 ↔ C ∧ ∀ x ∈ xs, Echoes bits (raised x))

section Rules

variable {α β : Type} {bits : BitVec 32 → BitVec 16} {C D : Prop} {p : Routine α} {code : α → ℕ}
  {code' : β → ℕ} {cmds cmds' : List (BitVec 32)}

theorem Checks.pure {a : α} : Checks bits (code a = 0) (Pure.pure a) code [] := by
  intro tr b hrun
  rcases performs_pure.mp hrun with ⟨rfl, rfl⟩
  exact ⟨[], rfl, rfl, by simp⟩

/-- One routine after the other. -/
theorem Checks.bind {f : α → Routine β} (hp : Checks bits C p code cmds)
    (hf : ∀ a, Checks bits (code a = 0 ∧ D) (f a) code' cmds') :
    Checks bits (C ∧ D) (p >>= f) code' (cmds ++ cmds') := by
  intro tr b hrun
  rcases performs_bind.mp hrun with ⟨tr₁, a, tr₂, h₁, h₂, rfl⟩
  rcases hp tr₁ a h₁ with ⟨xs, rfl, rfl, hcode⟩
  rcases hf a tr₂ b h₂ with ⟨ys, rfl, rfl, hcode'⟩
  refine ⟨xs ++ ys, List.map_append, List.flatMap_append.symm, ?_⟩
  rw [hcode', hcode, List.forall_mem_append]
  tauto

theorem Checks.mono (h : Checks bits C p code cmds) (hC : C ↔ D) : Checks bits D p code cmds := by
  rwa [propext hC] at h

/-- One routine after the other, without a further condition. -/
theorem Checks.seq {f : α → Routine β} (hp : Checks bits C p code cmds)
    (hf : ∀ a, Checks bits (code a = 0) (f a) code' cmds') :
    Checks bits C (p >>= f) code' (cmds ++ cmds') := by
  have hbind : Checks bits (C ∧ True) (p >>= f) code' (cmds ++ cmds') :=
    hp.bind fun a => (hf a).mono (and_iff_left trivial).symm
  exact hbind.mono (and_iff_left trivial)

/-- Changing the result but not its code. -/
theorem Checks.bind_pure (h : Checks bits C p code cmds) {f : α → β}
    (hf : ∀ a, code' (f a) = code a) :
    Checks bits C (p >>= fun a => Pure.pure (f a)) code' cmds := by
  intro tr b hrun
  rcases performs_bind.mp hrun with ⟨tr₁, a, tr₂, h₁, h₂, rfl⟩
  rcases performs_pure.mp h₂ with ⟨rfl, rfl⟩
  rcases h tr₁ a h₁ with ⟨xs, hcmds, rfl, hcode⟩
  exact ⟨xs, hcmds, List.append_nil _, by rw [hf, hcode]⟩

/-- One write and its check. -/
theorem checks_write {cmd : BitVec 32} {f : BitVec 32 → β}
    (hf : ∀ cb, code' (f cb) = 0 ↔ C ∧ Echoes bits (raised (cmd, cb))) :
    Checks bits C (pdhExecuteCmd cmd >>= fun cb => Pure.pure (f cb)) code' [cmd] := by
  intro tr b hrun
  rcases performs_bind.mp hrun with ⟨tr₁, cb, tr₂, h₁, h₂, rfl⟩
  rcases performs_pure.mp h₂ with ⟨rfl, rfl⟩
  obtain rfl := performs_answered h₁
  refine ⟨[(cmd, cb)], rfl, rfl, ?_⟩
  rw [hf, List.forall_mem_singleton]

/-- The exchanges of a routine that checks its writes. -/
theorem Checks.exchanges (h : Checks bits C p code cmds) {tr : List ((c : Call) × c.Response)}
    {a : α} (hrun : Performs p tr a) :
    (exchanges tr).map Prod.fst = cmds.map (PdhCmdT.strobe.set 1#1) ∧
      (code a = 0 ↔ C ∧ ∀ x ∈ exchanges tr, Echoes bits x) := by
  rcases h tr a hrun with ⟨xs, rfl, rfl, hcode⟩
  rw [Requests.exchanges, exchangesFrom_answered, List.map_map, List.map_map]
  constructor
  · rfl
  · rw [hcode, List.forall_mem_map]

end Rules

/-! ## `cmd_set_pid` -/

/-- The controller compares the whole payload. -/
def pidBits (_ : BitVec 32) : BitVec 16 :=
  BitVec.allOnes 16

theorem payload_strobe (v : BitVec 1) (w : BitVec 32) :
    PdhCmdT.payload.get (PdhCmdT.strobe.set v w) = PdhCmdT.payload.get w :=
  BitField.get_set_of_disjoint (f := PdhCmdT.strobe) (g := PdhCmdT.payload)
    (.inr (show 0 + 16 ≤ 30 by omega)) v w

theorem echoes_pid {sel : PidCoeffSelE} {value : BitVec 16} {cb : BitVec 32} :
    Echoes pidBits (raised (setPidWord sel value, cb)) ↔ PdhCallbackT.payloadR.get cb = value := by
  rw [Echoes, raised, payload_strobe, payload_setPidWord, pidBits, BitVec.and_allOnes]

theorem setWidth_eq_iff {x : BitVec 16} {y : BitVec 32} :
    x.setWidth 32 = y ↔ y ≤ 0xFFFF#32 ∧ x = y.setWidth 16 := by
  have hlt := x.isLt
  rw [← BitVec.toNat_inj, ← BitVec.toNat_inj, BitVec.toNat_setWidth, BitVec.toNat_setWidth,
    BitVec.le_def, show (0xFFFF#32).toNat = 65535 from rfl]
  omega

section SetPid

variable {F : Type} [SinglePrecision F]

theorem code_ne_zero {fail : SetPidE} (hfail : fail ≠ .ok) : fail.code ≠ 0 := by
  cases fail with
  | ok => exact absurd rfl hfail
  | _ => simp [SetPidE.code]

theorem checks_setPidInt16 {sel : PidCoeffSelE} {value : BitVec 16} {scale : ℚ} {name : String}
    {fail : SetPidE} (hfail : fail ≠ .ok) (r : Reply F) :
    Checks pidBits (r.returnCode = 0) (setPidInt16 sel value scale name fail r)
      Reply.returnCode [setPidWord sel value] := by
  refine checks_write fun cb => ?_
  rw [echoes_pid]
  exact (validateCb_eq_zero_iff (code_ne_zero hfail)).trans and_comm

omit [SinglePrecision F] in
/-- A value with more than 16 bits is never echoed. -/
theorem checks_setPidUint {sel : PidCoeffSelE} {value : BitVec 32} {name : String}
    {fail : SetPidE} (hfail : fail ≠ .ok) (r : Reply F) :
    Checks pidBits (r.returnCode = 0 ∧ value ≤ 0xFFFF#32) (setPidUint sel value name fail r)
      Reply.returnCode [setPidWord sel (value.setWidth 16)] := by
  refine checks_write fun cb => ?_
  rw [echoes_pid, and_assoc, ← setWidth_eq_iff]
  exact (validateCb_eq_zero_iff (code_ne_zero hfail)).trans and_comm

omit [SinglePrecision F] in
theorem checks_setPidUint_of_le {sel : PidCoeffSelE} {value : BitVec 32} {name : String}
    {fail : SetPidE} (hfail : fail ≠ .ok) (hvalue : value ≤ 0xFFFF#32) (r : Reply F) :
    Checks pidBits (r.returnCode = 0) (setPidUint sel value name fail r)
      Reply.returnCode [setPidWord sel (value.setWidth 16)] :=
  (checks_setPidUint hfail r).mono (and_iff_left hvalue)

/-- A request succeeds if and only if its enable fits and every callback has the payload of its
write. -/
theorem checks_cmdSetPid (ctx : CmdCtx F) :
    Checks pidBits (ctx.uintArgs 3 ≤ 0xFFFF#32) (cmdSetPid ctx) Reply.returnCode
      (pidOrder.map (pidWrite (.ofCtx ctx))) := by
  have hle : ∀ {a b : BitVec 32}, b ≤ 0xFFFF#32 → (if b < a then b else a) ≤ 0xFFFF#32 := by
    intro a b hb
    split_ifs with h
    · exact hb
    · exact BitVec.le_trans (BitVec.not_lt.mp h) hb
  have hdec : (PidRequest.ofCtx ctx).dec ≤ 0xFFFF#32 := hle (by decide)
  have halpha : (PidRequest.ofCtx ctx).alpha ≤ 0xFFFF#32 := hle (by decide)
  have hsat : (PidRequest.ofCtx ctx).sat ≤ 0xFFFF#32 := hle (by decide)
  -- the writes before the enable, the enable, and the writes after it
  refine Checks.mono (C := SetPidE.ok.code = 0 ∧ ctx.uintArgs 3 ≤ 0xFFFF#32) ?_ (and_iff_right rfl)
  refine .bind (checks_setPidInt16 (by decide) _) fun r => ?_
  refine .bind (checks_setPidInt16 (by decide) _) fun r => ?_
  refine .bind (checks_setPidInt16 (by decide) _) fun r => ?_
  refine .bind (checks_setPidUint_of_le (by decide) hdec _) fun r => ?_
  refine .bind (checks_setPidInt16 (by decide) _) fun r => ?_
  refine .bind (checks_setPidUint_of_le (by decide) halpha _) fun r => ?_
  refine .bind (checks_setPidUint_of_le (by decide) hsat _) fun r => ?_
  refine .seq (checks_setPidUint (by decide) _) fun r => ?_
  refine .seq (checks_setPidInt16 (by decide) _) fun r => ?_
  exact .seq (checks_setPidInt16 (by decide) _) fun r => checks_setPidInt16 (by decide) _

end SetPid

/-! ## `cmd_set_fir` -/

/-- The bits of the payload that the filter compares. -/
def firMask : FirUpdateSelE → BitVec 16
  | .addr => 0x1F#16
  | .coeff => 0xFFFF#16
  | .inputSel => 0x7#16
  | .memWriteEn => 0x1#16
  | .chainWriteEn => 0x1#16

/-- The bits that are compared for the register that a word selects. -/
def firBits (w : BitVec 32) : BitVec 16 :=
  (FirUpdateSelE.ofCode (PdhCmdT.updateSel.get w)).elim 0xFFFF#16 firMask

theorem firBits_setFirWord (sel : FirUpdateSelE) (payload : BitVec 16) :
    firBits (PdhCmdT.strobe.set 1#1 (setFirWord sel payload)) = firMask sel := by
  have hsel : PdhCmdT.updateSel.get (PdhCmdT.strobe.set 1#1 (setFirWord sel payload)) =
      sel.code := by
    simp (disch := decide) only [setFirWord, BitField.get_set_of_disjoint, BitField.get_set]
  rw [firBits, hsel, ofCode_code]
  rfl

theorem echoes_fir {sel : FirUpdateSelE} {value : BitVec 16} {cb : BitVec 32} :
    Echoes firBits (raised (setFirWord sel value, cb)) ↔
      PdhCallbackT.payloadR.get cb &&& firMask sel = value := by
  rw [Echoes, raised, payload_strobe, payload_setFirWord, firBits_setFirWord]

theorem setFir_code_ne_zero {fail : SetFirE} (hfail : fail ≠ .ok) : fail.code ≠ 0 := by
  cases fail with
  | ok => exact absurd rfl hfail
  | _ => simp [SetFirE.code]

section SetFir

variable {F : Type}

theorem checks_setFirReg {sel : FirUpdateSelE} {value mask : BitVec 32} {payload : BitVec 16}
    {fail : SetFirE} (hfail : fail ≠ .ok) (hmask : mask = (firMask sel).setWidth 32)
    (hvalue : value ≤ 0xFFFF#32) (hpayload : value.setWidth 16 = payload) (r : Reply F) :
    Checks firBits (r.returnCode = 0) (setFirReg sel value mask fail r) (fun x => x.2.returnCode)
      [setFirWord sel payload] := by
  subst hmask hpayload
  refine checks_write fun cb => ?_
  rw [echoes_fir]
  refine (validateCb_eq_zero_iff (setFir_code_ne_zero hfail)).trans ?_
  rw [← BitVec.setWidth_and, setWidth_eq_iff, and_iff_right hvalue]
  exact and_comm

variable [SinglePrecision F]

/-- The loop writes an address and a value for every coefficient. -/
theorem checks_loadCoeffs (ctx : CmdCtx F) (r : Reply F) {i n : ℕ} (hn : i + n ≤ 64) :
    Checks firBits (r.returnCode = 0) (loadCoeffs ctx r i n) Reply.returnCode
      (coeffWrites i (codes ctx i n)) := by
  induction n generalizing i r with
  | zero => exact .pure
  | succ n ih =>
      have haddr : BitVec.ofNat 32 i ≤ 0xFFFF#32 := by
        rw [BitVec.le_def, BitVec.toNat_ofNat, show (0xFFFF#32).toNat = 65535 from rfl]
        omega
      have hcoeff : (floatToQ15 (ctx.floatArgs i)).setWidth 32 ≤ 0xFFFF#32 := by
        have hlt := (floatToQ15 (ctx.floatArgs i)).isLt
        rw [BitVec.le_def, BitVec.toNat_setWidth, show (0xFFFF#32).toNat = 65535 from rfl]
        omega
      have hpayload : ((floatToQ15 (ctx.floatArgs i)).setWidth 32).setWidth 16 =
          floatToQ15 (ctx.floatArgs i) :=
        (BitVec.setWidth_setWidth_of_le _ (by omega)).trans (BitVec.setWidth_eq _)
      refine .seq (checks_setFirReg (by decide) rfl haddr rfl _) fun x => ?_
      refine .seq (checks_setFirReg (by decide) rfl hcoeff hpayload _) fun y => ?_
      exact ih y.2 (by omega)

/-- The writes of a request, one part after the other. -/
theorem firWrites_parts (inputSel : BitVec 16) (cs : List (BitVec 16)) :
    firWrites inputSel cs =
      [setFirWord .inputSel inputSel] ++ ([setFirWord .memWriteEn 1#16] ++
        (coeffWrites 0 cs ++ ([setFirWord .memWriteEn 0#16] ++
          [setFirWord .chainWriteEn 1#16]))) := by
  simp [firWrites, loadWrites]

/-- A request succeeds if and only if its arguments are accepted and every callback has the payload
of its write in the bits that are compared. -/
theorem checks_cmdSetFir (ctx : CmdCtx F) :
    Checks firBits (firArgsCode ctx = .ok) (cmdSetFir ctx) Reply.returnCode
      (requestWrites ctx) := by
  by_cases hok : firArgsCode ctx = .ok
  · have hsel : ctx.uintArgs 0 ≤ 0xFFFF#32 :=
      BitVec.le_trans (le_of_firArgsCode hok) (by decide)
    have hloop := ctx.numFloats_le
    rw [cmdSetFir, requestWrites, if_pos hok, if_neg (not_not.mpr hok)]
    refine Checks.mono (C := SetFirE.ok.code = 0) ?_ (iff_of_true rfl hok)
    rw [firWrites_parts]
    refine .seq (checks_setFirReg (by decide) rfl hsel rfl _) fun x => ?_
    refine .seq (checks_setFirReg (by decide) rfl (by decide) rfl _) fun x => ?_
    refine .seq (checks_loadCoeffs ctx _ (by omega)) fun r => ?_
    refine .seq (checks_setFirReg (by decide) rfl (by decide) rfl _) fun x => ?_
    exact .bind_pure (checks_setFirReg (by decide) rfl (by decide) rfl _) fun x => rfl
  · rw [cmdSetFir, requestWrites, if_pos hok, if_neg hok]
    refine Checks.mono .pure ?_
    cases hcode : firArgsCode ctx with
    | ok => exact absurd hcode hok
    | _ => simp [SetFirE.code]

end SetFir

/-! ## Acknowledged requests -/

section Acknowledged

variable {F : Type} [SinglePrecision F]

/-- The selector of a PID callback and of a PID word. -/
def NamesPid (x : BitVec 32 × BitVec 32) : Prop :=
  Names PdhCallbackT.coeffSelR.get PdhCmdT.coeffSel.get x

/-- The selector of a filter callback and of a filter word. -/
def NamesFir (x : BitVec 32 × BitVec 32) : Prop :=
  Names PdhCallbackT.updateSelR.get PdhCmdT.updateSel.get x

/-- The callback of a PID write carries the command, the selector and the payload sent. -/
def AcknowledgesPid (x : BitVec 32 × BitVec 32) : Prop :=
  Acknowledges PdhCallbackT.coeffSelR.get PdhCmdT.coeffSel.get x

/-- The callback of a filter write carries the command, the selector and the payload sent. -/
def AcknowledgesFir (x : BitVec 32 × BitVec 32) : Prop :=
  Acknowledges PdhCallbackT.updateSelR.get PdhCmdT.updateSel.get x

/-- A PID request succeeds if and only if its enable fits and every callback has the payload of its
write. -/
theorem returnCode_cmdSetPid_iff (ctx : CmdCtx F) {tr : List ((c : Call) × c.Response)}
    {reply : Reply F} (hrun : Performs (cmdSetPid ctx) tr reply) :
    reply.returnCode = 0 ↔
      ctx.uintArgs 3 ≤ 0xFFFF#32 ∧ ∀ x ∈ exchanges tr, Echoes pidBits x :=
  ((checks_cmdSetPid ctx).exchanges hrun).2

/-- A filter request succeeds if and only if its arguments are accepted and every callback has the
payload of its write in the bits that are compared. -/
theorem returnCode_cmdSetFir_iff (ctx : CmdCtx F) {tr : List ((c : Call) × c.Response)}
    {reply : Reply F} (hrun : Performs (cmdSetFir ctx) tr reply) :
    reply.returnCode = 0 ↔ firArgsCode ctx = .ok ∧ ∀ x ∈ exchanges tr, Echoes firBits x :=
  ((checks_cmdSetFir ctx).exchanges hrun).2

/-- Every write of a request is answered once, in order. -/
theorem exchanges_cmdSetFir (ctx : CmdCtx F) {tr : List ((c : Call) × c.Response)}
    {reply : Reply F} (hrun : Performs (cmdSetFir ctx) tr reply) :
    (exchanges tr).map Prod.fst = (requestWrites ctx).map (PdhCmdT.strobe.set 1#1) :=
  ((checks_cmdSetFir ctx).exchanges hrun).1

theorem exchanges_cmdSetPid (ctx : CmdCtx F) {tr : List ((c : Call) × c.Response)}
    {reply : Reply F} (hrun : Performs (cmdSetPid ctx) tr reply) :
    (exchanges tr).map Prod.fst =
      (pidOrder.map (pidWrite (.ofCtx ctx))).map (PdhCmdT.strobe.set 1#1) :=
  ((checks_cmdSetPid ctx).exchanges hrun).1

omit [SinglePrecision F] in
theorem acknowledged_iff {n : ℕ} {echo sent : BitVec 32 → BitVec n} {bits : BitVec 32 → BitVec 16}
    {xs : List (BitVec 32 × BitVec 32)} {C : Prop} {reply : Reply F}
    (hcode : reply.returnCode = 0 ↔ C ∧ ∀ x ∈ xs, Echoes bits x) :
    (reply.returnCode = 0 → ∀ x ∈ xs, Acknowledges echo sent x) ↔
      ¬ C ∨ (∃ x ∈ xs, ¬ Echoes bits x) ∨ ∀ x ∈ xs, Names echo sent x ∧ Clear bits x := by
  rw [hcode]
  by_cases hC : C
  · by_cases hechoes : ∀ x ∈ xs, Echoes bits x
    · have hack : (∀ x ∈ xs, Acknowledges echo sent x) ↔
          ∀ x ∈ xs, Names echo sent x ∧ Clear bits x :=
        forall₂_congr fun x hx => acknowledges_iff (hechoes x hx)
      rw [hack]
      constructor
      · intro h
        exact Or.inr (Or.inr (h ⟨hC, hechoes⟩))
      · rintro (hnot | ⟨x, hx, hwrong⟩ | hnamed) -
        · exact absurd hC hnot
        · exact absurd (hechoes x hx) hwrong
        · exact hnamed
    · constructor
      · intro _
        simp only [not_forall] at hechoes
        rcases hechoes with ⟨x, hx, hwrong⟩
        exact Or.inr (Or.inl ⟨x, hx, hwrong⟩)
      · intro _ h
        exact absurd h.2 hechoes
  · constructor
    · intro _
      exact Or.inl hC
    · intro _ h
      exact absurd h.1 hC

omit [SinglePrecision F] in
theorem clear_pid (x : BitVec 32 × BitVec 32) : Clear pidBits x := by
  rw [Clear, pidBits, BitVec.not_allOnes]
  exact BitVec.and_zero

/-- A PID request that succeeds was acknowledged if and only if its enable does not fit, or some
callback has another payload, or all callbacks name their writes.  A filter request that succeeds
was acknowledged if and only if some callback has another payload in the bits that are compared, or
all callbacks name their writes and have no other bits in the payload. -/
theorem noFalseAck_iff (ctx ctx' : CmdCtx F) {tr tr' : List ((c : Call) × c.Response)}
    {reply reply' : Reply F} (hpid : Performs (cmdSetPid ctx) tr reply)
    (hfir : Performs (cmdSetFir ctx') tr' reply') :
    ((reply.returnCode = 0 → ∀ x ∈ exchanges tr, AcknowledgesPid x) ↔
        0xFFFF#32 < ctx.uintArgs 3 ∨ (∃ x ∈ exchanges tr, ¬ Echoes pidBits x) ∨
          ∀ x ∈ exchanges tr, NamesPid x) ∧
      ((reply'.returnCode = 0 → ∀ x ∈ exchanges tr', AcknowledgesFir x) ↔
        (∃ x ∈ exchanges tr', ¬ Echoes firBits x) ∨
          ∀ x ∈ exchanges tr', NamesFir x ∧ Clear firBits x) := by
  constructor
  · refine (acknowledged_iff (returnCode_cmdSetPid_iff ctx hpid)).trans ?_
    simp only [BitVec.not_le, clear_pid, and_true, NamesPid]
  · refine (acknowledged_iff (returnCode_cmdSetFir_iff ctx' hfir)).trans ?_
    by_cases hok : firArgsCode ctx' = .ok
    · exact or_iff_right (not_not.mpr hok)
    · have hnone : exchanges tr' = [] := by
        have hwrites := exchanges_cmdSetFir ctx' hfir
        rw [requestWrites, if_neg hok] at hwrites
        exact List.map_eq_nil_iff.mp hwrites
      rw [hnone]
      simp [hok]

end Acknowledged

/-! ## A stale callback -/

theorem snd_of_mem_exchangesFrom {tr : List ((c : Call) × c.Response)}
    (h : ∀ e ∈ tr, e.2 = default) {w : BitVec 32} : ∀ x ∈ exchangesFrom w tr, x.2 = 0#32 := by
  induction tr generalizing w with
  | nil => exact fun x hx => absurd hx List.not_mem_nil
  | cons e tr ih =>
      have hrest := fun v => ih (fun e he => h e (List.mem_cons_of_mem _ he)) (w := v)
      rcases e with ⟨c, r⟩
      cases c with
      | pdhSendCmd raw => exact hrest raw
      | pdhGetCallback =>
          refine List.forall_mem_cons.mpr ⟨?_, hrest w⟩
          exact h ⟨.pdhGetCallback, r⟩ List.mem_cons_self
      | _ => exact hrest w

/-- A request for a controller with all registers at 0. -/
def zeroCtx : CmdCtx ℚ :=
  { doubleGainCtx with
    floatArgs := fun _ => 0
    uintArgs := fun _ => 0#32 }

/-- A run of the request in which every callback is 0. -/
theorem exists_stale_run :
    ∃ tr, ∃ reply : Reply ℚ, Performs (cmdSetPid zeroCtx) tr reply ∧
      ∀ x ∈ exchanges tr, x.2 = 0#32 := by
  rcases exists_performs_of_answer (fun c : Call => (default : c.Response))
    (cmdSetPid zeroCtx) with ⟨tr, reply, hrun, hanswers⟩
  exact ⟨tr, reply, hrun, snd_of_mem_exchangesFrom hanswers⟩

theorem pidPayload_zeroCtx (sel : PidCoeffSelE) : pidPayload (.ofCtx zeroCtx) sel = 0#16 := by
  cases sel <;> decide +kernel

/-- Callbacks that are 0 echo every write of the request. -/
theorem echoes_stale {tr : List ((c : Call) × c.Response)} {reply : Reply ℚ}
    (hrun : Performs (cmdSetPid zeroCtx) tr reply) (hstale : ∀ x ∈ exchanges tr, x.2 = 0#32) :
    ∀ x ∈ exchanges tr, Echoes pidBits x := by
  intro x hx
  have hfst := List.mem_map_of_mem (f := Prod.fst) hx
  rw [exchanges_cmdSetPid zeroCtx hrun, List.map_map, List.mem_map] at hfst
  rcases hfst with ⟨sel, -, hword⟩
  have hpayload : PdhCmdT.payload.get x.1 = 0#16 := by
    rw [← hword, Function.comp_apply, payload_strobe, pidWrite, payload_setPidWord,
      pidPayload_zeroCtx]
  rw [Echoes, hstale x hx, hpayload, show PdhCallbackT.payloadR.get 0#32 = 0#16 from rfl]
  exact BitVec.zero_and

/-- The writes of a PID request are answered, whatever its arguments. -/
theorem exchanges_cmdSetPid_ne_nil {F : Type} [SinglePrecision F] (ctx : CmdCtx F)
    {tr : List ((c : Call) × c.Response)} {reply : Reply F}
    (hrun : Performs (cmdSetPid ctx) tr reply) : exchanges tr ≠ [] := by
  intro hnone
  have hwords := exchanges_cmdSetPid ctx hrun
  rw [hnone] at hwords
  exact List.cons_ne_nil _ _ hwords.symm

/-- A request succeeds although no callback names its write: all registers are to be 0, and so is
the callback of a core that has executed nothing since its reset. -/
theorem succeeds_on_stale :
    ∃ tr, ∃ reply : Reply ℚ, Performs (cmdSetPid zeroCtx) tr reply ∧ reply.returnCode = 0 ∧
      exchanges tr ≠ [] ∧ ∀ x ∈ exchanges tr, ¬ AcknowledgesPid x := by
  rcases exists_stale_run with ⟨tr, reply, hrun, hstale⟩
  have hechoes := echoes_stale hrun hstale
  have hcode := (returnCode_cmdSetPid_iff zeroCtx hrun).mpr ⟨by decide, hechoes⟩
  have hwords := exchanges_cmdSetPid zeroCtx hrun
  refine ⟨tr, reply, hrun, hcode, exchanges_cmdSetPid_ne_nil zeroCtx hrun, ?_⟩
  rintro x hx ⟨hcmd, -, -⟩
  have hfst := List.mem_map_of_mem (f := Prod.fst) hx
  rw [hwords, List.map_map, List.mem_map] at hfst
  rcases hfst with ⟨sel, -, hword⟩
  have hsent : PdhCmdT.cmd.get x.1 = PdhCmdE.setPidCoeffs.code := by
    rw [← hword]
    simp (disch := decide) only [Function.comp_apply, pidWrite, setPidWord, cmdWord,
      BitField.get_set_of_disjoint, BitField.get_set]
  rw [hstale x hx, hsent] at hcmd
  exact absurd hcmd (by decide)

/-- A request that loads one coefficient is accepted, so that its writes are answered. -/
theorem exchanges_half_ne_nil {tr : List ((c : Call) × c.Response)} {reply : Reply ℚ}
    (hrun : Performs (cmdSetFir (loadCtx [1 / 2] (by decide))) tr reply) :
    exchanges tr ≠ [] := by
  intro hnone
  have hwords := exchanges_cmdSetFir _ hrun
  rw [hnone, requestWrites, if_pos (by decide +kernel)] at hwords
  simp [firWrites] at hwords

/-- The equivalence for that request, and for a request that loads one coefficient. -/
theorem noFalseAck_iff_zero :
    ∃ tr tr', ∃ reply reply' : Reply ℚ,
      Performs (cmdSetPid zeroCtx) tr reply ∧
      Performs (cmdSetFir (loadCtx [1 / 2] (by decide))) tr' reply' ∧
      exchanges tr ≠ [] ∧ exchanges tr' ≠ [] ∧
      ((reply.returnCode = 0 → ∀ x ∈ exchanges tr, AcknowledgesPid x) ↔
        0xFFFF#32 < zeroCtx.uintArgs 3 ∨ (∃ x ∈ exchanges tr, ¬ Echoes pidBits x) ∨
          ∀ x ∈ exchanges tr, NamesPid x) ∧
      ((reply'.returnCode = 0 → ∀ x ∈ exchanges tr', AcknowledgesFir x) ↔
        (∃ x ∈ exchanges tr', ¬ Echoes firBits x) ∨
          ∀ x ∈ exchanges tr', NamesFir x ∧ Clear firBits x) := by
  rcases exists_stale_run with ⟨tr, reply, hrun, -⟩
  rcases exists_performs (fun c : Call => (default : c.Response))
    (cmdSetFir (loadCtx [1 / 2] (by decide))) with ⟨tr', reply', hrun'⟩
  have hiff := noFalseAck_iff zeroCtx (loadCtx [1 / 2] (by decide)) hrun hrun'
  exact ⟨tr, tr', reply, reply', hrun, hrun', exchanges_cmdSetPid_ne_nil zeroCtx hrun,
    exchanges_half_ne_nil hrun', hiff⟩

end Requests
end PoundDreverHall
