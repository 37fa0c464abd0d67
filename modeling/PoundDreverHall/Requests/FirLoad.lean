import PoundDreverHall.Requests.Words

/-!
# Requests - loading the filter

`cmd_set_fir` loads the staging memory of the filter one coefficient at a time, and
then lets all taps load from it.  The taps go on loading for good: nothing clears
`tap_chain_write_en_r` again, so that every later load shows in the taps word by word.

Main results:

- Theorem {lit}`serveFir_emits`: the words of a sequence of requests.
- Theorem {lit}`coeffs_complete`: the active coefficients are a committed set throughout
  if later loads change no entry of the staging memory.
-/

namespace PoundDreverHall
namespace Requests

open Clocked Device Server PdhCore

/-- Contents of the staging memory, and the active coefficients. -/
abbrev CoeffSet := BitVec 5 → BitVec 16

/-! ## The writes of a request -/

/-- The writes of the coefficients from tap {lit}`i` on. -/
def coeffWrites (i : ℕ) : List (BitVec 16) → List (BitVec 32)
  | [] => []
  | c :: cs =>
      setFirWord .addr ((BitVec.ofNat 32 i).setWidth 16) :: setFirWord .coeff c ::
        coeffWrites (i + 1) cs

/-- The writes that load the staging memory. -/
def loadWrites (inputSel : BitVec 16) (cs : List (BitVec 16)) : List (BitVec 32) :=
  setFirWord .inputSel inputSel :: setFirWord .memWriteEn 1#16 :: coeffWrites 0 cs

/-- The writes of an accepted request. -/
def firWrites (inputSel : BitVec 16) (cs : List (BitVec 16)) : List (BitVec 32) :=
  loadWrites inputSel cs ++ [setFirWord .memWriteEn 0#16, setFirWord .chainWriteEn 1#16]

/-- The commands of some requests. -/
def requestCmds (reqs : List (BitVec 16 × List (BitVec 16))) : List (BitVec 32) :=
  reqs.flatMap fun q => firWrites q.1 q.2

section Emits

variable {F : Type} [SinglePrecision F]

/-- The codes of the coefficients of a request, from coefficient {lit}`i` on. -/
def codes (ctx : CmdCtx F) (i n : ℕ) : List (BitVec 16) :=
  (List.range' i n).map fun i => floatToQ15 (ctx.floatArgs i)

/-- The writes of a request; a rejected one has none. -/
def requestWrites (ctx : CmdCtx F) : List (BitVec 32) :=
  if firArgsCode ctx = .ok then
    firWrites ((ctx.uintArgs 0).setWidth 16) (codes ctx 0 ctx.numFloats)
  else []

/-- The requests are served one after the other. -/
def serveFir : List (CmdCtx F) → Routine (List (Reply F))
  | [] => pure []
  | ctx :: ctxs => do
      let r ← cmdSetFir ctx
      let rs ← serveFir ctxs
      return r :: rs

omit [SinglePrecision F] in
theorem setFirReg_emits (sel : FirUpdateSelE) {value : BitVec 32} {payload : BitVec 16}
    (hpayload : value.setWidth 16 = payload) (mask : BitVec 32) (fail : SetFirE) (r : Reply F) :
    Program.Emits Call.sent (setFirReg sel value mask fail r)
      (strobed (setFirWord sel payload)) := by
  subst hpayload
  exact .bind_pure (pdhExecuteCmd_emits _) _

theorem loadCoeffs_emits (ctx : CmdCtx F) (r : Reply F) (i n : ℕ) :
    Program.Emits Call.sent (loadCoeffs ctx r i n)
      ((coeffWrites i (codes ctx i n)).flatMap strobed) := by
  induction n generalizing i r with
  | zero => exact .pure r
  | succ n ih =>
      refine .bind (setFirReg_emits .addr rfl _ _ _) fun _ => ?_
      refine .bind (setFirReg_emits .coeff ?_ _ _ _) fun _ => ih _ (i + 1)
      exact BitVec.setWidth_setWidth_of_le _ (by omega)

/-- A request sends its writes, each strobed once, whatever the callbacks are. -/
theorem cmdSetFir_emits (ctx : CmdCtx F) :
    Program.Emits Call.sent (cmdSetFir ctx) ((requestWrites ctx).flatMap strobed) := by
  unfold cmdSetFir requestWrites
  by_cases hok : firArgsCode ctx = .ok
  · rw [if_pos hok, if_neg (not_not.mpr hok)]
    simp only [firWrites, loadWrites, List.flatMap_append, List.flatMap_cons, List.flatMap_nil,
      List.append_assoc, List.append_nil]
    refine .bind (setFirReg_emits .inputSel rfl _ _ _) fun _ => ?_
    refine .bind (setFirReg_emits .memWriteEn rfl _ _ _) fun _ => ?_
    refine .bind (loadCoeffs_emits _ _ _ _) fun _ => ?_
    refine .bind (setFirReg_emits .memWriteEn rfl _ _ _) fun _ => ?_
    exact .bind_pure (setFirReg_emits .chainWriteEn rfl _ _ _) _
  · rw [if_neg hok, if_pos hok]
    exact .pure _

/-- The requests send their writes one after the other. -/
theorem serveFir_emits (ctxs : List (CmdCtx F)) :
    Program.Emits Call.sent (serveFir ctxs) ((ctxs.flatMap requestWrites).flatMap strobed) := by
  induction ctxs with
  | nil => exact .pure []
  | cons ctx ctxs ih =>
      rw [List.flatMap_cons, List.flatMap_append]
      exact .bind (cmdSetFir_emits ctx) fun r => ih.bind_pure (r :: ·)

/-- The accepted requests: the selected input and the codes of the coefficients. -/
def accepted (ctxs : List (CmdCtx F)) : List (BitVec 16 × List (BitVec 16)) :=
  (ctxs.filter fun ctx => firArgsCode ctx = .ok).map fun ctx =>
    ((ctx.uintArgs 0).setWidth 16, codes ctx 0 ctx.numFloats)

/-- The rejected requests write nothing. -/
theorem flatMap_requestWrites (ctxs : List (CmdCtx F)) :
    ctxs.flatMap requestWrites = requestCmds (accepted ctxs) := by
  induction ctxs with
  | nil => rfl
  | cons ctx ctxs ih =>
      rw [List.flatMap_cons, ih, requestWrites]
      by_cases hok : firArgsCode ctx = .ok <;> simp [accepted, requestCmds, hok]

theorem ne_nil_of_mem_accepted {ctxs : List (CmdCtx F)} (h : ∀ ctx ∈ ctxs, 1 ≤ ctx.numFloats)
    {q : BitVec 16 × List (BitVec 16)} (hq : q ∈ accepted ctxs) : q.2 ≠ [] := by
  rcases List.mem_map.mp hq with ⟨ctx, hctx, rfl⟩
  have hpos := h ctx (List.mem_of_mem_filter hctx)
  rw [← List.length_pos_iff, codes, List.length_map, List.length_range']
  exact hpos

end Emits

/-! ## The staging memory -/

/-- The staging memory after one clock period with the given registers. -/
def writeStaging (r : Regs) (m : CoeffSet) : CoeffSet :=
  if r.tapMemWriteEnR then Function.update m r.tapAddrR r.tapCoeffR else m

/-- A command on the registers and, one clock period later, on the staging memory. -/
def execStaging (w : BitVec 32) (c : Regs × CoeffSet) : Regs × CoeffSet :=
  (execRegs w c.1, writeStaging (execRegs w c.1) c.2)

/-- Executing a command twice is executing it once. -/
theorem execStaging_execStaging (w : BitVec 32) (c : Regs × CoeffSet) :
    execStaging w (execStaging w c) = execStaging w c := by
  have hwrite : ∀ r m, writeStaging r (writeStaging r m) = writeStaging r m := by
    intro r m
    unfold writeStaging
    split_ifs <;> simp
  simp only [execStaging, execRegs_execRegs, hwrite]

theorem execStaging_strobe (v : BitVec 1) (w : BitVec 32) (c : Regs × CoeffSet) :
    execStaging (PdhCmdT.strobe.set v w) c = execStaging w c := by
  rw [execStaging, execRegs_strobe, execStaging]

/-- A list of coefficients written to the staging memory from tap {lit}`i` on. -/
def loadInto (i : ℕ) : List (BitVec 16) → CoeffSet → CoeffSet
  | [], m => m
  | c :: cs, m => loadInto (i + 1) cs (Function.update m (BitVec.ofNat 5 i) c)

/-- The staging memory is {lit}`m`, and the coefficient register holds the value
{lit}`a` that the memory has at the address register. -/
structure Staged (a : BitVec 16) (m : CoeffSet) (c : Regs × CoeffSet) : Prop where
  memory : c.2 = m
  coeff : c.1.tapCoeffR = a
  entry : m c.1.tapAddrR = a

/-- Only writes of an address or a coefficient change the staging memory. -/
theorem Staged.execStaging {a : BitVec 16} {m : CoeffSet} {c : Regs × CoeffSet}
    (h : Staged a m c) (sel : FirUpdateSelE) (haddr : sel ≠ .addr) (hcoeff : sel ≠ .coeff)
    (payload : BitVec 16) : Staged a m (execStaging (setFirWord sel payload) c) := by
  have hcoeffR : (writeFir sel payload c.1).tapCoeffR = c.1.tapCoeffR := by
    cases sel <;> first | rfl | contradiction
  have haddrR : (writeFir sel payload c.1).tapAddrR = c.1.tapAddrR := by
    cases sel <;> first | rfl | contradiction
  constructor
  · rw [Requests.execStaging, execRegs_setFirWord, writeStaging, hcoeffR, haddrR, h.coeff,
      h.memory]
    split_ifs
    · rw [← h.entry, Function.update_eq_self]
    · rfl
  · rw [Requests.execStaging, execRegs_setFirWord, hcoeffR, h.coeff]
  · rw [Requests.execStaging, execRegs_setFirWord, haddrR, h.entry]

section CoeffWrite

variable {c : Regs × CoeffSet} (hmem : c.1.tapMemWriteEnR = true) (i : ℕ)

include hmem

/-- The write of an address stores the coefficient of the write before. -/
theorem execStaging_addr :
    execStaging (setFirWord .addr ((BitVec.ofNat 32 i).setWidth 16)) c =
      ({ c.1 with tapAddrR := BitVec.ofNat 5 i },
        Function.update c.2 (BitVec.ofNat 5 i) c.1.tapCoeffR) := by
  simp [execStaging, execRegs_setFirWord, writeFir, writeStaging, hmem]

/-- The write of a coefficient then stores the coefficient. -/
theorem staged_coeffWrite (x : BitVec 16) :
    let c' := execStaging (setFirWord .coeff x)
      (execStaging (setFirWord .addr ((BitVec.ofNat 32 i).setWidth 16)) c)
    Staged x (Function.update c.2 (BitVec.ofNat 5 i) x) c' ∧ c'.1.tapMemWriteEnR = true := by
  rw [execStaging_addr hmem i]
  refine ⟨⟨?_, ?_, ?_⟩, ?_⟩ <;>
    simp [execStaging, execRegs_setFirWord, writeFir, writeStaging, hmem]

end CoeffWrite

/-- The writes of the coefficients load them. -/
theorem staged_coeffWrites (cs : List (BitVec 16)) (i : ℕ) {a : BitVec 16} {m : CoeffSet}
    {c : Regs × CoeffSet} (h : Staged a m c) (hmem : c.1.tapMemWriteEnR = true) :
    Staged (cs.getLastD a) (loadInto i cs m)
      ((coeffWrites i cs).foldl (fun c w => execStaging w c) c) := by
  induction cs generalizing i a m c with
  | nil => exact h
  | cons x cs ih =>
      have hpair := staged_coeffWrite hmem i x
      rw [h.memory] at hpair
      rw [List.getLastD_cons]
      exact ih (i + 1) hpair.1 hpair.2

/-- Later coefficients hide what an entry held before. -/
theorem loadInto_update {cs : List (BitVec 16)} (hcs : cs ≠ []) (i : ℕ) (x : BitVec 16)
    (m : CoeffSet) : loadInto i cs (Function.update m (BitVec.ofNat 5 i) x) = loadInto i cs m := by
  cases cs with
  | nil => exact absurd rfl hcs
  | cons c cs => rw [loadInto, loadInto, Function.update_idem]

/-- The first load after reset. -/
theorem staged_loadWrites (inputSel : BitVec 16) {cs : List (BitVec 16)} (hcs : cs ≠ [])
    (m : CoeffSet) :
    Staged (cs.getLastD 0) (loadInto 0 cs m)
      ((loadWrites inputSel cs).foldl (fun c w => execStaging w c) (Regs.reset, m)) := by
  have hstart : Staged 0#16 (Function.update m (BitVec.ofNat 5 0) 0#16)
      (execStaging (setFirWord .memWriteEn 1#16)
        (execStaging (setFirWord .inputSel inputSel) (Regs.reset, m))) := by
    refine ⟨?_, ?_, ?_⟩ <;>
      simp [execStaging, execRegs_setFirWord, writeFir, writeStaging, Regs.reset]
  have hload := staged_coeffWrites cs 0 hstart
    (by simp [execStaging, execRegs_setFirWord, writeFir])
  rwa [loadInto_update hcs] at hload

/-! ## Later loads -/

/-- Each write of some coefficients from tap {lit}`i` on leaves contents {lit}`Q` in the
staging memory.  The coefficient register holds {lit}`a` before. -/
def EachWrite (Q : CoeffSet → Prop) : ℕ → BitVec 16 → List (BitVec 16) → CoeffSet → Prop
  | _, _, [], _ => True
  | i, a, c :: cs, m =>
      Q (Function.update m (BitVec.ofNat 5 i) a) ∧ Q (Function.update m (BitVec.ofNat 5 i) c) ∧
        EachWrite Q (i + 1) c cs (Function.update m (BitVec.ofNat 5 i) c)

/-- Each write of some loads leaves contents {lit}`Q` in the staging memory. -/
def EachLoad (Q : CoeffSet → Prop) : BitVec 16 → List (List (BitVec 16)) → CoeffSet → Prop
  | _, [], _ => True
  | a, cs :: rest, m => EachWrite Q 0 a cs m ∧ EachLoad Q (cs.getLastD a) rest (loadInto 0 cs m)

/-- The writes of all loads but the first one leave only the set of the first load, or
zeros, in the staging memory. -/
def Settled (m : CoeffSet) : List (List (BitVec 16)) → Prop
  | [] => True
  | cs :: rest =>
      EachLoad (fun m' => m' = (fun _ => 0#16) ∨ m' = loadInto 0 cs m) (cs.getLastD 0) rest
        (loadInto 0 cs m)

section Later

variable {Q : CoeffSet → Prop} {a : BitVec 16} {m : CoeffSet} {c : Regs × CoeffSet}

theorem forall_after_cons {w : BitVec 32} {cmds : List (BitVec 32)} (hzero : Q c.2)
    (h : ∀ k, Q (after execStaging cmds (execStaging w c) k).2) (k : ℕ) :
    Q (after execStaging (w :: cmds) c k).2 := by
  cases k with
  | zero => exact hzero
  | succ k => exact h k

theorem forall_after_coeffWrites {cs : List (BitVec 16)} {i : ℕ} (hc : Staged a m c)
    (hmem : c.1.tapMemWriteEnR = true) (hm : Q m) (h : EachWrite Q i a cs m) (k : ℕ) :
    Q (after execStaging (coeffWrites i cs) c k).2 := by
  induction cs generalizing i a m c k with
  | nil =>
      rw [coeffWrites, after_nil, hc.memory]
      exact hm
  | cons x cs ih =>
      rcases h with ⟨haddr, hcoeff, hrest⟩
      rcases staged_coeffWrite hmem i x with ⟨hstaged, hmem'⟩
      rw [hc.memory] at hstaged
      refine forall_after_cons (hc.memory.symm ▸ hm) (forall_after_cons ?_ ?_) k
      · rw [execStaging_addr hmem, hc.memory, hc.coeff]
        exact haddr
      · exact ih hstaged hmem' hcoeff hrest

/-- A request that comes later loads its set, one write after the other. -/
theorem staged_firWrites (hc : Staged a m c) (inputSel : BitVec 16) (cs : List (BitVec 16)) :
    Staged (cs.getLastD a) (loadInto 0 cs m)
      ((firWrites inputSel cs).foldl (fun c w => execStaging w c) c) := by
  have hopen := (hc.execStaging .inputSel (by simp) (by simp) inputSel).execStaging
    .memWriteEn (by simp) (by simp) 1#16
  have hload := staged_coeffWrites cs 0 hopen (by simp [execStaging, execRegs_setFirWord, writeFir])
  rw [firWrites, loadWrites, List.foldl_append]
  exact (hload.execStaging .memWriteEn (by simp) (by simp) 0#16).execStaging
    .chainWriteEn (by simp) (by simp) 1#16

theorem forall_after_firWrites (hc : Staged a m c) (hm : Q m) (inputSel : BitVec 16)
    {cs : List (BitVec 16)} (h : EachWrite Q 0 a cs m) (k : ℕ) :
    Q (after execStaging (firWrites inputSel cs) c k).2 := by
  have hsel := hc.execStaging .inputSel (by simp) (by simp) inputSel
  have hopen := hsel.execStaging .memWriteEn (by simp) (by simp) 1#16
  have hmem : (execStaging (setFirWord .memWriteEn 1#16)
      (execStaging (setFirWord .inputSel inputSel) c)).1.tapMemWriteEnR = true := by
    simp [execStaging, execRegs_setFirWord, writeFir]
  have hwrites := forall_after_coeffWrites hopen hmem hm h
  have hload := staged_coeffWrites cs 0 hopen hmem
  have hend : Q (loadInto 0 cs m) := by
    have hlast := hwrites (coeffWrites 0 cs).length
    rw [after_length, hload.memory] at hlast
    exact hlast
  have hclose := hload.execStaging .memWriteEn (by simp) (by simp) 0#16
  have hcommit := hclose.execStaging .chainWriteEn (by simp) (by simp) 1#16
  refine forall_after_cons (hc.memory.symm ▸ hm)
    (forall_after_cons (hsel.memory.symm ▸ hm) fun k => ?_) k
  refine (forall_after_append (Q := fun c : Regs × CoeffSet => Q c.2) _ _ _).mpr
    ⟨hwrites, fun k => ?_⟩ k
  rw [after_length]
  refine forall_after_cons (hload.memory.symm ▸ hend)
    (forall_after_cons (hclose.memory.symm ▸ hend) fun k => ?_) k
  rw [after_nil, hcommit.memory]
  exact hend

/-- Along requests that come later, the staging memory only has contents {lit}`Q`. -/
theorem forall_after_requests {reqs : List (BitVec 16 × List (BitVec 16))} (hc : Staged a m c)
    (hm : Q m) (h : EachLoad Q a (reqs.map Prod.snd) m) (k : ℕ) :
    Q (after execStaging (requestCmds reqs) c k).2 := by
  induction reqs generalizing a m c k with
  | nil =>
      rw [requestCmds, List.flatMap_nil, after_nil, hc.memory]
      exact hm
  | cons q reqs ih =>
      rcases h with ⟨hwrite, hrest⟩
      have hrequest := forall_after_firWrites hc hm q.1 hwrite
      have hstaged := staged_firWrites hc q.1 q.2
      have hend := hrequest (firWrites q.1 q.2).length
      rw [after_length, hstaged.memory] at hend
      rw [requestCmds, List.flatMap_cons]
      refine (forall_after_append (Q := fun c : Regs × CoeffSet => Q c.2) _ _ _).mpr
        ⟨hrequest, fun k => ?_⟩ k
      rw [after_length]
      exact ih hstaged hend hrest k

end Later

/-! ## The taps -/

theorem exists_of_mem_coeffWrites {cs : List (BitVec 16)} {i : ℕ} {w : BitVec 32}
    (hw : w ∈ coeffWrites i cs) :
    ∃ sel payload, sel ≠ .chainWriteEn ∧ w = setFirWord sel payload := by
  induction cs generalizing i with
  | nil => exact nomatch hw
  | cons x cs ih =>
      rcases List.mem_cons.mp hw with rfl | hw
      · exact ⟨.addr, _, nofun, rfl⟩
      · rcases List.mem_cons.mp hw with rfl | hw
        · exact ⟨.coeff, _, nofun, rfl⟩
        · exact ih hw

/-- Only the last write of a request is one that lets the taps load. -/
theorem exists_of_mem_loadWrites {inputSel : BitVec 16} {cs : List (BitVec 16)} {w : BitVec 32}
    (hw : w ∈ loadWrites inputSel cs ++ [setFirWord .memWriteEn 0#16]) :
    ∃ sel payload, sel ≠ .chainWriteEn ∧ w = setFirWord sel payload := by
  rcases List.mem_append.mp hw with hw | hw
  · rcases List.mem_cons.mp hw with rfl | hw
    · exact ⟨.inputSel, _, nofun, rfl⟩
    · rcases List.mem_cons.mp hw with rfl | hw
      · exact ⟨.memWriteEn, _, nofun, rfl⟩
      · exact exists_of_mem_coeffWrites hw
  · exact ⟨.memWriteEn, _, nofun, List.mem_singleton.mp hw⟩

theorem requestCmds_cons (q : BitVec 16 × List (BitVec 16))
    (reqs : List (BitVec 16 × List (BitVec 16))) :
    requestCmds (q :: reqs) = (loadWrites q.1 q.2 ++ [setFirWord .memWriteEn 0#16]) ++
      setFirWord .chainWriteEn 1#16 :: requestCmds reqs := by
  rw [requestCmds, List.flatMap_cons, firWrites, requestCmds]
  simp

theorem rstBit_of_mem_requestCmds {reqs : List (BitVec 16 × List (BitVec 16))} :
    ∀ c ∈ requestCmds reqs, rstBit c = false := by
  induction reqs with
  | nil => exact fun c hc => nomatch hc
  | cons q reqs ih =>
      intro c hc
      rw [requestCmds_cons] at hc
      rcases List.mem_append.mp hc with hload | hrest
      · rcases exists_of_mem_loadWrites hload with ⟨sel, payload, -, rfl⟩
        exact rstBit_setFirWord sel payload
      · rcases List.mem_cons.mp hrest with rfl | hrest
        · exact rstBit_setFirWord _ _
        · exact ih c hrest

/-- The command lets all taps load from the staging memory. -/
def Commits (w : BitVec 32) : Prop :=
  cmdW w = .setFir ∧ firUpdateSelW w = .chainWriteEn ∧ (dataW w).getLsbD 0 = true

theorem commits_strobe_setFirWord (sel : FirUpdateSelE) (payload : BitVec 16) :
    Commits (PdhCmdT.strobe.set 1#1 (setFirWord sel payload)) ↔
      sel = .chainWriteEn ∧ payload.getLsbD 0 = true := by
  rw [Commits, cmdW_strobe, cmdW_setFirWord, firUpdateSelW, firUpdateSelCode, dataW_strobe,
    ← firUpdateSelCode, firUpdateSelCode_setFirWord,
    getLsbD_zero_of_payload (payload_setFirWord sel payload)]
  cases sel <;> simp [FirUpdateSelE.code]

section Taps

variable (rom : Nco.Rom) {s : State} {ins : ℕ → Input}

/-- The staging memory along a run. -/
theorem tapCoeffs_succ (hs : Live s) (hins : ∀ n, (ins n).rstI = false) (n : ℕ) :
    (run (step rom) s ins (n + 1)).path.uFir.tapCoeffs =
      writeStaging (run (step rom) s ins n).regs (run (step rom) s ins n).path.uFir.tapCoeffs := by
  rw [run_succ, step_live rom (run_live rom hs hins n) (hins n)]
  rfl

/-- The active coefficients along a run. -/
theorem coeffs_succ (hs : Live s) (hins : ∀ n, (ins n).rstI = false) (n : ℕ) :
    Fir.coeffs (run (step rom) s ins (n + 1)).path.uFir =
      if (run (step rom) s ins n).regs.tapChainWriteEnR then
        (run (step rom) s ins n).path.uFir.tapCoeffs
      else Fir.coeffs (run (step rom) s ins n).path.uFir := by
  rw [run_succ, step_live rom (run_live rom hs hins n) (hins n)]
  exact Fir.coeffs_step _ _

/-- The first state of the core outside reset. -/
def JustReset (s : State) : Prop :=
  ∃ s₀ i₀ i₁ i₂, i₀.rstI = true ∧ i₁.rstI = false ∧ i₂.rstI = false ∧
    s = step rom i₂ (step rom i₁ (step rom i₀ s₀))

theorem JustReset.eq_afterReset (h : JustReset rom s) : s = afterReset s.path := by
  rcases h with ⟨s₀, i₀, i₁, i₂, h₀, h₁, h₂, rfl⟩
  exact step_reset_drain rom s₀ h₀ h₁ h₂

/-- The taps are still under reset while the reset pipelines drain. -/
theorem coeffs_step_draining {i : Input} (hs : Draining s) (hi : i.rstI = false) :
    Fir.coeffs (step rom i s).path.uFir = fun _ => 0#16 := by
  have hpath : (step rom i s).path.uFir =
      Fir.step (Path.firInput true s.regs s.path) s.path.uFir := by
    simp [step, posedge, negedge, hi, hs.rst, Path.step]
  rw [hpath, Fir.coeffs_step]
  rfl

theorem JustReset.coeffs (h : JustReset rom s) : Fir.coeffs s.path.uFir = fun _ => 0#16 := by
  rcases h with ⟨s₀, i₀, i₁, i₂, h₀, h₁, h₂, rfl⟩
  have hrst := step_rst rom s₀ h₀
  exact coeffs_step_draining rom (draining_step rom hrst h₁) h₂

/-- The registers and the staging memory after the first commands of a list, executed
from reset. -/
def loadState (m : CoeffSet) (cmds : List (BitVec 32)) (k : ℕ) : Regs × CoeffSet :=
  after execStaging cmds (.reset, m) k

section FirstLoad

variable {Q : CoeffSet → Prop} {q : BitVec 16 × List (BitVec 16)}
  (reqs : List (BitVec 16 × List (BitVec 16))) (m : CoeffSet)

/-- No tap loads before the commit of the first request. -/
theorem tapChainWriteEnR_loadState {k : ℕ} (hk : k ≤ (loadWrites q.1 q.2).length + 1) :
    (loadState m (requestCmds (q :: reqs)) k).1.tapChainWriteEnR = false := by
  rw [loadState, requestCmds_cons, after_append_left (by simpa using hk)]
  refine after_invariant (Q := fun c : Regs × CoeffSet => c.1.tapChainWriteEnR = false) rfl
    (fun w hw c hc => ?_) k
  rcases exists_of_mem_loadWrites hw with ⟨sel, payload, hsel, rfl⟩
  rw [execStaging, execRegs_setFirWord]
  cases sel with
  | chainWriteEn => exact absurd rfl hsel
  | _ => exact hc

theorem getElem?_commit :
    (requestCmds (q :: reqs))[(loadWrites q.1 q.2).length + 1]? =
      some (setFirWord .chainWriteEn 1#16) := by
  rw [requestCmds_cons, List.getElem?_append_right (by simp)]
  simp

/-- Among the first commands of two requests, only the last one of the first request lets the
taps load. -/
theorem eq_of_commits {inputSel x y : BitVec 16} {cs : List (BitVec 16)} {i : ℕ}
    (hi : i ≤ (loadWrites q.1 q.2).length + 7) {w : BitVec 32}
    (hw : (requestCmds (q :: (inputSel, x :: y :: cs) :: reqs))[i]? = some w)
    (hcommits : Commits (PdhCmdT.strobe.set 1#1 w)) : i = (loadWrites q.1 q.2).length + 1 := by
  by_contra hne
  have hload : ∃ sel payload, sel ≠ .chainWriteEn ∧ w = setFirWord sel payload := by
    rw [requestCmds_cons] at hw
    by_cases hfirst : i < (loadWrites q.1 q.2 ++ [setFirWord .memWriteEn 0#16]).length
    · rw [List.getElem?_append_left hfirst] at hw
      exact exists_of_mem_loadWrites (List.mem_of_getElem? hw)
    · rw [List.getElem?_append_right (by omega)] at hw
      rw [List.length_append, List.length_singleton] at hw hfirst
      have hlen : 6 ≤ (loadWrites inputSel (x :: y :: cs)).length := by
        simp [loadWrites, coeffWrites]
      have hsecond : (loadWrites inputSel (x :: y :: cs))[i - (loadWrites q.1 q.2).length - 2]? =
          some w := by
        rw [show i - ((loadWrites q.1 q.2).length + 1) = i - (loadWrites q.1 q.2).length - 2 + 1 by
          omega, List.getElem?_cons_succ, requestCmds_cons, List.append_assoc,
          List.getElem?_append_left (show _ < (loadWrites inputSel (x :: y :: cs)).length by
            omega)] at hw
        exact hw
      exact exists_of_mem_loadWrites (List.mem_append_left _ (List.mem_of_getElem? hsecond))
  rcases hload with ⟨sel, payload, hsel, rfl⟩
  exact hsel ((commits_strobe_setFirWord sel payload).mp hcommits).1

variable (hq : q.2 ≠ [])

include hq

theorem loadState_add :
    ∃ c, Staged (q.2.getLastD 0) (loadInto 0 q.2 m) c ∧
      ∀ k, loadState m (requestCmds (q :: reqs)) ((loadWrites q.1 q.2).length + k) =
        after execStaging (setFirWord .memWriteEn 0#16 :: setFirWord .chainWriteEn 1#16 ::
          requestCmds reqs) c k := by
  refine ⟨_, staged_loadWrites q.1 hq m, fun k => ?_⟩
  rw [loadState, requestCmds_cons, List.append_assoc, after_append_right, after_length]
  rfl

/-- The staging memory holds the set of the first request until after the commit. -/
theorem loadState_first {k : ℕ} (hk : k ≤ 2) :
    (loadState m (requestCmds (q :: reqs)) ((loadWrites q.1 q.2).length + k)).2 =
      loadInto 0 q.2 m := by
  rcases loadState_add reqs m hq with ⟨c, hc, hstate⟩
  have hclose := hc.execStaging .memWriteEn (by simp) (by simp) 0#16
  have hcommit := hclose.execStaging .chainWriteEn (by simp) (by simp) 1#16
  rw [hstate]
  match k, hk with
  | 0, _ => exact hc.memory
  | 1, _ => exact hclose.memory
  | 2, _ => exact hcommit.memory

/-- From then on it only has contents {lit}`Q`. -/
theorem loadState_later (hm : Q (loadInto 0 q.2 m))
    (h : EachLoad Q (q.2.getLastD 0) (reqs.map Prod.snd) (loadInto 0 q.2 m)) (k : ℕ) :
    Q (loadState m (requestCmds (q :: reqs)) ((loadWrites q.1 q.2).length + k)).2 := by
  rcases loadState_add reqs m hq with ⟨c, hc, hstate⟩
  have hclose := hc.execStaging .memWriteEn (by simp) (by simp) 0#16
  have hcommit := hclose.execStaging .chainWriteEn (by simp) (by simp) 1#16
  rw [hstate]
  exact forall_after_cons (hc.memory.symm ▸ hm) (forall_after_cons (hclose.memory.symm ▸ hm)
    (forall_after_requests hcommit hm h)) k

/-- A second load stores its first address with the last coefficient of the first load. -/
theorem loadState_second (inputSel x y : BitVec 16) (cs : List (BitVec 16)) :
    (loadState m (requestCmds (q :: (inputSel, x :: y :: cs) :: reqs))
        ((loadWrites q.1 q.2).length + 5)).2 =
      Function.update (loadInto 0 q.2 m) 0#5 (q.2.getLastD 0) ∧
    ∀ k, 5 ≤ k → k ≤ 6 →
      (loadState m (requestCmds (q :: (inputSel, x :: y :: cs) :: reqs))
        ((loadWrites q.1 q.2).length + k)).1.tapChainWriteEnR = true := by
  rcases loadState_add ((inputSel, x :: y :: cs) :: reqs) m hq with ⟨c, hc, hstate⟩
  have hclose := hc.execStaging .memWriteEn (by simp) (by simp) 0#16
  have hcommit := hclose.execStaging .chainWriteEn (by simp) (by simp) 1#16
  have hsel := hcommit.execStaging .inputSel (by simp) (by simp) inputSel
  have hopen := hsel.execStaging .memWriteEn (by simp) (by simp) 1#16
  have hmem : (execStaging (setFirWord .memWriteEn 1#16) (execStaging
      (setFirWord .inputSel inputSel) (execStaging (setFirWord .chainWriteEn 1#16)
        (execStaging (setFirWord .memWriteEn 0#16) c)))).1.tapMemWriteEnR = true := by
    simp [execStaging, execRegs_setFirWord, writeFir]
  constructor
  · rw [hstate]
    change (execStaging (setFirWord .addr ((BitVec.ofNat 32 0).setWidth 16)) _).2 = _
    rw [execStaging_addr hmem, hopen.memory, hopen.coeff]
  · intro k hk hk'
    rw [hstate]
    obtain rfl | rfl : k = 5 ∨ k = 6 := by omega
    · simp [after, requestCmds, firWrites, loadWrites, coeffWrites, execStaging,
        execRegs_setFirWord, writeFir]
    · simp [after, requestCmds, firWrites, loadWrites, coeffWrites, execStaging,
        execRegs_setFirWord, writeFir]

end FirstLoad

/-- The words of a list of requests, with the word that the core finds at first. -/
theorem rstBit_of_mem_words {cmds : List (BitVec 32)} (h : ∀ c ∈ cmds, rstBit c = false) :
    ∀ w ∈ 0#32 :: cmds.flatMap strobed, rstBit w = false := by
  intro w hw
  rcases List.mem_cons.mp hw with rfl | hw
  · rfl
  · exact rstBit_of_mem_strobed h w hw

section Cycles

variable (hs : JustReset rom s) {cmds : List (BitVec 32)} (hcmds : ∀ c ∈ cmds, rstBit c = false)
  (hbus : Carries (busWords ins) (0#32 :: cmds.flatMap strobed))

include hs hcmds hbus

/-- The registers follow the commands in the latch by one clock period, the staging memory by
two. -/
theorem exists_index :
    ∃ idx, Held idx ∧
      (∀ n, (0#32 :: cmds.map (PdhCmdT.strobe.set 1#1))[idx n]? =
        some (run (step rom) s ins n).latch.axiFromPsR) ∧
      (∃ n, idx n = cmds.length) ∧
      (∀ n, (run (step rom) s ins (n + 1)).regs =
        (loadState s.path.uFir.tapCoeffs cmds (idx n)).1) ∧
      ∀ n, (run (step rom) s ins (n + 2)).path.uFir.tapCoeffs =
        (loadState s.path.uFir.tapCoeffs cmds (idx n)).2 := by
  have hstart := hs.eq_afterReset
  have hlive : Live s := hstart ▸ live_afterReset _
  have hrst := rstBit_of_mem_words hcmds
  have hins := rstI_of_carries hbus hrst
  have hpending : pending s.latch = [0#32] := by
    rw [hstart]
    simp [afterReset, pending, inFlight, load, Latch.reset, Latch.strobeEdgeW, strobeBit,
      PosedgeDetector.q]
  have hzero : strobeBit 0#32 = false := rfl
  have hlatch := latch_carries_of_live rom hlive hbus hrst fun hhigh =>
    absurd (hzero.symm.trans hhigh) Bool.false_ne_true
  rw [risingWords_cons fun _ => hzero, hzero, risingWords_strobed, hpending] at hlatch
  rcases hlatch with ⟨idx, hidx, hwords, last, hlast⟩
  have hend : idx last = cmds.length := by
    simpa using hlast
  have hregs : ∀ n, (run (step rom) s ins (n + 1)).regs =
      execRegs (run (step rom) s ins n).latch.axiFromPsR (run (step rom) s ins n).regs := by
    intro n
    rw [run_succ, step_live rom (run_live rom hlive hins n) (hins n), next_eq_execRegs]
  have hstate := eq_after_of_carries execStaging_execStaging
    (c := fun n => ((run (step rom) s ins n).regs,
      (run (step rom) s ins (n + 1)).path.uFir.tapCoeffs))
    (fun n => by rw [execStaging, tapCoeffs_succ rom hlive hins (n + 1), hregs n]) hidx hwords
  -- the word 0 executed at first does nothing
  have hfirst : ((run (step rom) s ins 0).regs, (run (step rom) s ins 1).path.uFir.tapCoeffs) =
      (Regs.reset, s.path.uFir.tapCoeffs) := by
    rw [tapCoeffs_succ rom hlive hins, run_zero, writeStaging, hstart]
    rfl
  have hload : ∀ n, ((run (step rom) s ins (n + 1)).regs,
      (run (step rom) s ins (n + 2)).path.uFir.tapCoeffs) =
        loadState s.path.uFir.tapCoeffs cmds (idx n) := by
    intro n
    refine (hstate n).trans ?_
    simp only [hfirst]
    exact after_map (execStaging_strobe 1#1) cmds _ (idx n)
  exact ⟨idx, hidx, hwords, ⟨last, hend⟩, fun n => congrArg Prod.fst (hload n),
    fun n => congrArg Prod.snd (hload n)⟩

end Cycles

/-- The active coefficients are those that a commit found in the staging memory, or zeros. -/
def CompleteAt (s : State) (ins : ℕ → Input) (n : ℕ) : Prop :=
  Fir.coeffs (run (step rom) s ins n).path.uFir = (fun _ => 0#16) ∨
    ∃ m ≤ n, Commits (run (step rom) s ins m).latch.axiFromPsR ∧
      Fir.coeffs (run (step rom) s ins n).path.uFir = (run (step rom) s ins m).path.uFir.tapCoeffs

variable {q : BitVec 16 × List (BitVec 16)} {reqs : List (BitVec 16 × List (BitVec 16))}

/-- The commit of the first request finds the set of the request in the staging memory. -/
theorem tapCoeffs_of_commit (hq : q.2 ≠ []) {idx : ℕ → ℕ} (hidx : Held idx)
    (hstaging : ∀ n, (run (step rom) s ins (n + 2)).path.uFir.tapCoeffs =
      (loadState s.path.uFir.tapCoeffs (requestCmds (q :: reqs)) (idx n)).2)
    {m : ℕ} (hm : idx m = (loadWrites q.1 q.2).length + 2) :
    (run (step rom) s ins m).path.uFir.tapCoeffs = loadInto 0 q.2 s.path.uFir.tapCoeffs := by
  match m with
  | 0 =>
      rw [hidx.zero] at hm
      omega
  | 1 =>
      have hmove := hidx.succ 0
      rw [hidx.zero, hm] at hmove
      omega
  | m + 2 =>
      have hmove := hidx.succ m
      have hmove' : idx (m + 2) = idx (m + 1) ∨ idx (m + 2) = idx (m + 1) + 1 :=
        hidx.succ (m + 1)
      have hcontents := loadState_first (q := q) reqs s.path.uFir.tapCoeffs hq
        (k := idx m - (loadWrites q.1 q.2).length) (by omega)
      rwa [Nat.add_sub_cancel' (by omega), ← hstaging m] at hcontents

variable (hs : JustReset rom s)

include hs

theorem completeAt_of_none
    (hbus : Carries (busWords ins) (0#32 :: (requestCmds []).flatMap strobed)) (n : ℕ) :
    CompleteAt rom s ins n := by
  have hlive : Live s := hs.eq_afterReset rom ▸ live_afterReset _
  have hins := rstI_of_carries hbus (rstBit_of_mem_words rstBit_of_mem_requestCmds)
  rcases exists_index rom hs rstBit_of_mem_requestCmds hbus with ⟨idx, -, -, -, hregs, -⟩
  refine .inl ?_
  induction n with
  | zero => exact hs.coeffs rom
  | succ n ih =>
      have hchain : (run (step rom) s ins n).regs.tapChainWriteEnR = false := by
        cases n with
        | zero =>
            rw [run_zero, hs.eq_afterReset rom]
            rfl
        | succ n =>
            rw [hregs, loadState, requestCmds, List.flatMap_nil, after_nil]
            rfl
      rw [coeffs_succ rom hlive hins, hchain]
      exact ih

/-- While the taps load, the first request has been committed, and the staging memory is empty
or still holds its set. -/
theorem tapCoeffs_of_tapChain (hq : q.2 ≠ []) {idx : ℕ → ℕ} (hidx : Held idx)
    (hregs : ∀ n, (run (step rom) s ins (n + 1)).regs =
      (loadState s.path.uFir.tapCoeffs (requestCmds (q :: reqs)) (idx n)).1)
    (hstaging : ∀ n, (run (step rom) s ins (n + 2)).path.uFir.tapCoeffs =
      (loadState s.path.uFir.tapCoeffs (requestCmds (q :: reqs)) (idx n)).2)
    (hset : Settled s.path.uFir.tapCoeffs (q.2 :: reqs.map Prod.snd)) {n : ℕ}
    (hchain : (run (step rom) s ins n).regs.tapChainWriteEnR = true) :
    (run (step rom) s ins n).path.uFir.tapCoeffs = (fun _ => 0#16) ∨
      (run (step rom) s ins n).path.uFir.tapCoeffs = loadInto 0 q.2 s.path.uFir.tapCoeffs ∧
        (loadWrites q.1 q.2).length + 2 ≤ idx (n - 1) := by
  match n with
  | 0 =>
      rw [run_zero, hs.eq_afterReset rom] at hchain
      exact nomatch hchain
  | 1 =>
      rw [hregs 0, hidx.zero, tapChainWriteEnR_loadState _ _ (Nat.zero_le _)] at hchain
      exact nomatch hchain
  | n + 2 =>
      have hcommit : (loadWrites q.1 q.2).length + 2 ≤ idx (n + 1) := by
        by_contra hbefore
        rw [hregs (n + 1), tapChainWriteEnR_loadState _ _ (by omega)] at hchain
        exact nomatch hchain
      have hloaded : (loadWrites q.1 q.2).length ≤ idx n := by
        have hmove := hidx.succ n
        omega
      have hcontents := loadState_later reqs s.path.uFir.tapCoeffs hq (.inr rfl) hset
        (idx n - (loadWrites q.1 q.2).length)
      rw [Nat.add_sub_cancel' hloaded, ← hstaging n] at hcontents
      exact hcontents.imp_right fun hfirst => ⟨hfirst, hcommit⟩

theorem completeAt_of_settled (hq : q.2 ≠ [])
    (hbus : Carries (busWords ins) (0#32 :: (requestCmds (q :: reqs)).flatMap strobed))
    (hset : Settled s.path.uFir.tapCoeffs (q.2 :: reqs.map Prod.snd)) (n : ℕ) :
    CompleteAt rom s ins n := by
  have hlive : Live s := hs.eq_afterReset rom ▸ live_afterReset _
  have hins := rstI_of_carries hbus (rstBit_of_mem_words rstBit_of_mem_requestCmds)
  rcases exists_index rom hs rstBit_of_mem_requestCmds hbus with
    ⟨idx, hidx, hwords, -, hregs, hstaging⟩
  -- the set of the first request shows only once its commit has been latched
  have hvalue : ∀ n, Fir.coeffs (run (step rom) s ins n).path.uFir = (fun _ => 0#16) ∨
      Fir.coeffs (run (step rom) s ins n).path.uFir =
          loadInto 0 q.2 s.path.uFir.tapCoeffs ∧
        ∃ m < n, (loadWrites q.1 q.2).length + 2 ≤ idx m := by
    intro n
    induction n with
    | zero => exact .inl (hs.coeffs rom)
    | succ n ih =>
        rw [coeffs_succ rom hlive hins]
        cases hchain : (run (step rom) s ins n).regs.tapChainWriteEnR with
        | false =>
            rcases ih with hzero | ⟨hfirst, m, hm, hcommit⟩
            · exact .inl hzero
            · exact .inr ⟨hfirst, m, Nat.lt_succ_of_lt hm, hcommit⟩
        | true =>
            refine Or.imp_right ?_
              (tapCoeffs_of_tapChain rom hs hq hidx hregs hstaging hset hchain)
            exact fun h => ⟨h.1, n - 1, by omega, h.2⟩
  rcases hvalue n with hzero | ⟨hfirst, n', hn', hcommit⟩
  · exact .inl hzero
  · -- the commit is in the latch while the memory still holds what it was loaded with
    rcases hidx.exists_eq hcommit with ⟨m, hm, hidxm⟩
    refine .inr ⟨m, by omega, ?_, ?_⟩
    · have hword := hwords m
      rw [hidxm, List.getElem?_cons_succ, List.getElem?_map, getElem?_commit] at hword
      rw [← Option.some.inj hword, commits_strobe_setFirWord]
      exact ⟨rfl, rfl⟩
    · rw [hfirst, tapCoeffs_of_commit rom hq hidx hstaging hidxm]

/-- A second load stores its first address with the last coefficient of the first load, and
the taps load that before its commit. -/
theorem exists_not_completeAt (hq : q.2 ≠ []) {inputSel x y : BitVec 16} {cs : List (BitVec 16)}
    (hbus : Carries (busWords ins)
      (0#32 :: (requestCmds (q :: (inputSel, x :: y :: cs) :: reqs)).flatMap strobed))
    (hzero : q.2.getLastD 0 ≠ 0#16)
    (hfirst : loadInto 0 q.2 s.path.uFir.tapCoeffs 0#5 ≠ q.2.getLastD 0) :
    ∃ n, ¬CompleteAt rom s ins n := by
  have hlive : Live s := hs.eq_afterReset rom ▸ live_afterReset _
  have hins := rstI_of_carries hbus (rstBit_of_mem_words rstBit_of_mem_requestCmds)
  rcases exists_index rom hs rstBit_of_mem_requestCmds hbus with
    ⟨idx, hidx, hwords, ⟨last, hlast⟩, hregs, hstaging⟩
  rcases loadState_second reqs s.path.uFir.tapCoeffs hq inputSel x y cs with
    ⟨hmemory, hchain⟩
  have hlen : (loadWrites q.1 q.2).length + 5 ≤ idx last := by
    rw [hlast]
    simp [requestCmds, firWrites, loadWrites, coeffWrites]
  rcases hidx.exists_eq hlen with ⟨n, -, hn⟩
  have hmove := hidx.succ n
  have hmove' : idx (n + 2) = idx (n + 1) ∨ idx (n + 2) = idx (n + 1) + 1 := hidx.succ (n + 1)
  have hmove'' : idx (n + 3) = idx (n + 2) ∨ idx (n + 3) = idx (n + 2) + 1 := hidx.succ (n + 2)
  have hcoeffs : Fir.coeffs (run (step rom) s ins (n + 3)).path.uFir =
      Function.update (loadInto 0 q.2 s.path.uFir.tapCoeffs) 0#5 (q.2.getLastD 0) := by
    have hnext := hchain (idx (n + 1) - (loadWrites q.1 q.2).length) (by omega) (by omega)
    rw [Nat.add_sub_cancel' (by omega)] at hnext
    rw [coeffs_succ rom hlive hins (n + 2), hregs (n + 1), hnext, if_pos rfl, hstaging n, hn,
      hmemory]
  refine ⟨n + 3, ?_⟩
  rintro (hnone | ⟨m, hm, hcommits, hsome⟩)
  · rw [hcoeffs] at hnone
    exact hzero ((Function.update_self 0#5 _ _).symm.trans (congrFun hnone 0#5))
  · have hidxm : idx m = (loadWrites q.1 q.2).length + 2 := by
      have hbound : idx m ≤ idx (n + 3) := hidx.monotone hm
      have hword := hwords m
      cases hj : idx m with
      | zero =>
          rw [hj, List.getElem?_cons_zero] at hword
          rw [← Option.some.inj hword] at hcommits
          exact absurd hcommits.1 (by decide)
      | succ i =>
          rw [hj, List.getElem?_cons_succ, List.getElem?_map, Option.map_eq_some_iff] at hword
          rcases hword with ⟨w, hw, hlatch⟩
          rw [← hlatch] at hcommits
          exact congrArg (· + 1) (eq_of_commits reqs (by omega) hw hcommits)
    rw [hcoeffs, tapCoeffs_of_commit rom hq hidx hstaging hidxm] at hsome
    exact hfirst ((congrFun hsome 0#5).symm.trans (Function.update_self 0#5 _ _))

end Taps

/-- Along requests from reset, the active coefficients are a committed set in every clock
period if the requests after the first one leave only its set, or zeros, in the staging
memory. -/
theorem coeffs_complete {F : Type} [SinglePrecision F] (rom : Nco.Rom) (s : State)
    (hs : JustReset rom s) (ctxs : List (CmdCtx F)) (hlen : ∀ ctx ∈ ctxs, 1 ≤ ctx.numFloats)
    (tr : List ((c : Call) × c.Response)) (replies : List (Reply F))
    (hrun : Program.Performs (serveFir ctxs) tr replies) (ins : ℕ → Input)
    (hcarries : Carries (busWords ins) (0#32 :: Program.shown Call.sent tr))
    (hset : Settled s.path.uFir.tapCoeffs ((accepted ctxs).map Prod.snd)) (n : ℕ) :
    CompleteAt rom s ins n := by
  rw [serveFir_emits ctxs tr replies hrun, flatMap_requestWrites] at hcarries
  have hne : ∀ q ∈ accepted ctxs, q.2 ≠ [] := fun q hq => ne_nil_of_mem_accepted hlen hq
  cases hreqs : accepted ctxs with
  | nil =>
      rw [hreqs] at hcarries
      exact completeAt_of_none rom hs hcarries n
  | cons q reqs =>
      rw [hreqs] at hcarries hset hne
      exact completeAt_of_settled rom hs (hne q List.mem_cons_self) hcarries hset n

/-! ## Two loads -/

/-- A request with the given coefficients. -/
def loadCtx (cs : List ℚ) (hcs : cs.length ≤ 64) : CmdCtx ℚ where
  floatArgs := fun i => cs.getD i 0
  uintArgs := fun _ => 0#32
  numFloats := cs.length
  numFloats_le := hcs

/-- Requests can be served from reset. -/
theorem exists_load_run (rom : Nco.Rom) (ctxs : List (CmdCtx ℚ)) :
    ∃ s tr replies ins, JustReset rom s ∧ Program.Performs (serveFir ctxs) tr replies ∧
      Carries (busWords ins) (0#32 :: Program.shown Call.sent tr) := by
  rcases Program.exists_performs (fun c : Call => (default : c.Response)) (serveFir ctxs) with
    ⟨tr, replies, hrun⟩
  rcases exists_carries (List.cons_ne_nil 0#32 (Program.shown Call.sent tr)) with ⟨x, hx⟩
  let inputOf : BitVec 32 → Input := fun w => ⟨w, 0#14, 0#14, true, true⟩
  exact ⟨_, tr, replies, fun n => inputOf (x n),
    ⟨afterReset Path.reset, inputOf 0x80000000#32, inputOf 0#32, inputOf 0#32, by decide, by decide,
      by decide, rfl⟩, hrun, hx⟩

/-- Loading the same coefficient twice. -/
theorem coeffs_complete_reload :
    ∃ (s : State) (tr : List ((c : Call) × c.Response)) (replies : List (Reply ℚ))
      (ins : ℕ → Input),
      Program.Performs (serveFir [loadCtx [1 / 2] (by decide), loadCtx [1 / 2] (by decide)]) tr
        replies ∧
      Carries (busWords ins) (0#32 :: Program.shown Call.sent tr) ∧
      ∀ n, CompleteAt (fun _ => 0#16) s ins n := by
  rcases exists_load_run (fun _ => 0#16) [loadCtx [1 / 2] (by decide), loadCtx [1 / 2] (by decide)]
    with ⟨s, tr, replies, ins, hs, hrun, hcarries⟩
  have haccepted : (accepted [loadCtx [1 / 2] (by decide), loadCtx [1 / 2] (by decide)]).map
      Prod.snd = [[0x4000#16], [0x4000#16]] := by
    decide +kernel
  refine ⟨s, tr, replies, ins, hrun, hcarries, fun n =>
    coeffs_complete _ s hs _ (by simp [loadCtx]) tr replies hrun ins hcarries ?_ n⟩
  rw [haccepted]
  simp [Settled, EachLoad, EachWrite, loadInto]

/-- The first write of the second load is active at once. -/
theorem coeffs_mixed :
    ∃ (s : State) (tr : List ((c : Call) × c.Response)) (replies : List (Reply ℚ))
      (ins : ℕ → Input),
      JustReset (fun _ => 0#16) s ∧
      Program.Performs (serveFir [loadCtx [1 / 2, 1 / 4] (by decide),
        loadCtx [-1 / 2, 3 / 4] (by decide)]) tr replies ∧
      Carries (busWords ins) (0#32 :: Program.shown Call.sent tr) ∧
      ∃ n, ¬CompleteAt (fun _ => 0#16) s ins n := by
  rcases exists_load_run (fun _ => 0#16) [loadCtx [1 / 2, 1 / 4] (by decide),
    loadCtx [-1 / 2, 3 / 4] (by decide)] with ⟨s, tr, replies, ins, hs, hrun, hcarries⟩
  refine ⟨s, tr, replies, ins, hs, hrun, hcarries, ?_⟩
  rw [serveFir_emits _ tr replies hrun, flatMap_requestWrites] at hcarries
  have haccepted : accepted [loadCtx [1 / 2, 1 / 4] (by decide),
      loadCtx [-1 / 2, 3 / 4] (by decide)] =
        [(0#16, [0x4000#16, 0x2000#16]), (0#16, [0xC000#16, 0x6000#16])] := by
    decide +kernel
  rw [haccepted] at hcarries
  exact exists_not_completeAt _ hs (by simp) hcarries (by simp) (by simp [loadInto])

end Requests
end PoundDreverHall
