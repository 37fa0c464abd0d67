import PoundDreverHall.Requests.SweepRouting

/-!
# Requests - the converter that a ramp drives

A request for a ramp names one of the two converters.  `cmd_sweep_ramp` writes the codes to the
register of that converter, but it is always the first converter that it gives to its register.
This file watches the registers and the feeds of both converters while the log is open.

Main results:

- Definition {lit}`bench`: the board with the signals that its converters can be given to.
- Theorem {lit}`performs_sweep`: what is seen at every call while the log is open.
- Theorem {lit}`sweepsOnly_iff`: when the ramp drives the converter it was asked for, and only that.
-/

namespace PoundDreverHall
namespace Requests

open Device Program Server PdhCore

/-! ## The converters -/

/-- `dac1_dat_sel_r` or `dac2_dat_sel_r`. -/
def Board.source (b : Board) (dac : BitVec 1) : BitVec 3 :=
  if dac = 0#1 then b.config.regs.dac1DatSelR else b.config.regs.dac2DatSelR

/-- `dac1_dat_r` or `dac2_dat_r`. -/
def Board.register (b : Board) (dac : BitVec 1) : BitVec 14 :=
  if dac = 0#1 then b.config.dac1DatR else b.config.dac2DatR

/-- The register file, and the signals of the path.  What the controller and the oscillator put
out is an input here: it can be anything at every call. -/
structure Bench where
  board : Board
  path : Path

/-- A faithful board among its signals. -/
def bench : Machine Call.Response Bench := fun s c r s' => board s.board c r s'.board

/-- `dac1_feed_w` or `dac2_feed_w`. -/
def Bench.feed (s : Bench) (dac : BitVec 1) : BitVec 14 :=
  s.path.dacFeedW (s.board.source dac) (s.board.register dac)

/-! ## What is seen during the ramp -/

/-- A call while the log is open: the number of codes programmed since it was opened, the call,
and the bench at that time. -/
structure Sample where
  codes : ℕ
  call : Call
  bench : Bench

/-- A measurement is read: the command executed last asks for a signal. -/
def Sample.Measures (x : Sample) : Prop :=
  x.call = .pdhGetCallback ∧ cmdW x.bench.board.latched = .checkSigned

/-- Whether the log is open, the number of codes programmed since, and the samples taken. -/
structure Record where
  opened : Bool
  codes : ℕ
  samples : List Sample

namespace Record

/-- Nothing seen yet. -/
def empty : Record where
  opened := false
  codes := 0
  samples := []

/-- The samples after a call. -/
def look (t : Record) (s : Bench) (c : Call) : List Sample :=
  if t.opened then ⟨t.codes, c, s⟩ :: t.samples else t.samples

/-- The record after a call. -/
def note (t : Record) (s : Bench) (c : Call) (r : c.Response) : Record :=
  match c, r with
  | .fopen path, opened => ⟨opened, 0, t.look s (.fopen path)⟩
  | .fclose path, _ => ⟨false, t.codes, t.look s (.fclose path)⟩
  | .pdhSendCmd raw, _ =>
      ⟨t.opened, if strobeBit raw ∧ cmdW raw = .setDac then t.codes + 1 else t.codes,
        t.look s (.pdhSendCmd raw)⟩
  | c, _ => ⟨t.opened, t.codes, t.look s c⟩

theorem note_samples (t : Record) (s : Bench) (c : Call) (r : c.Response) :
    (t.note s c r).samples = t.look s c := by
  cases c <;> rfl

end Record

/-- The board, with a record of what is seen. -/
abbrev watched : Machine Call.Response (Bench × Record) := instrument Record.note bench

/-! ## Words of the loop -/

theorem decode_setDacWord (dac : BitVec 1) (code : BitVec 14) :
    decode (PdhCmdT.strobe.set 1#1 (setDacWord dac code)) = some (.dacCmd code dac) := by
  apply CmdView.Holds.decode
  constructor
  · simp (disch := decide) only [setDacWord, cmdWord, BitField.get_set_of_disjoint,
      BitField.get_set, CmdView.cmd]
  · simp (disch := decide) only [setDacWord, cmdWord, BitField.get_set_of_disjoint,
      BitField.get_set, CmdView.cmd, CmdView.read]

/-- A write of a converter changes its register and nothing else. -/
theorem execute_setDac {w : BitVec 32} {dac : BitVec 1} {code : BitVec 14}
    (h : decode w = some (.dacCmd code dac)) {b b' : Board}
    (hexec : b'.config = exec w b.config) :
    cmdW w = .setDac ∧ b'.routing = b.routing ∧ b'.register dac = code ∧
      b'.register (~~~dac) = b.register (~~~dac) := by
  unfold decode at h
  cases hcmd : cmdW w
  all_goals rw [hcmd] at h
  all_goals cases h
  unfold exec at hexec
  rw [hcmd] at hexec
  simp only [Board.routing, Board.register, hexec]
  cases (dataW w).getLsbD 14
  · simp
  · simp

/-- A read of a signal changes no register. -/
theorem execute_checkSigned (sel : BitVec 5) :
    cmdW (PdhCmdT.strobe.set 1#1 (checkSignedWord sel)) = .checkSigned ∧
      ∀ c, exec (PdhCmdT.strobe.set 1#1 (checkSignedWord sel)) c = c := by
  have hcmd : cmdW (PdhCmdT.strobe.set 1#1 (checkSignedWord sel)) = .checkSigned := by
    rw [cmdW_strobe, checkSignedWord, cmdW_set (Nat.le_of_ble_eq_true rfl)]
    rfl
  refine ⟨hcmd, fun c => ?_⟩
  rw [exec, hcmd, execRegs, hcmd]

section Sweep

variable {F : Type} [MixedPrecision F] (ctx : CmdCtx F) (b : Board)

/-- The converter that is asked for: `dac_sel`, at the width of its field. -/
def rampDac : BitVec 1 := (ctx.uintArgs 1).setWidth 1

/-- The code of step {lit}`i`, at the width of its field. -/
def stepCode (i : ℕ) : BitVec 14 := (rampCode (rampVoltage ctx i)).setWidth 14

/-- The selector and the register of the other converter are those before the request, and at a
measurement the converter that was asked for is fed the code programmed last. -/
structure DrivesOnly (x : Sample) : Prop where
  source : x.bench.board.source (~~~rampDac ctx) = b.source (~~~rampDac ctx)
  register : x.bench.board.register (~~~rampDac ctx) = b.register (~~~rampDac ctx)
  feed : x.Measures → ∃ i, x.codes = i + 1 ∧ x.bench.feed (rampDac ctx) = stepCode ctx i

/-- In every run from a board, whatever the signals, the ramp drives the converter it was asked
for and no other. -/
def SweepsOnly : Prop :=
  ∀ (p : Path) (tr : List ((c : Call) × c.Response)) (reply : Reply F) (s : Bench) (t : Record),
    Performs (cmdSweepRamp ctx) tr reply →
    Follows watched (⟨b, p⟩, .empty) tr (s, t) →
    ∀ x ∈ t.samples, DrivesOnly ctx b x

/-! ## The loop -/

/-- What a sample shows in any case. -/
structure Seen (x : Sample) : Prop where
  routing : x.bench.board.routing = (0#3, b.routing.2)
  register : x.bench.board.register (~~~rampDac ctx) = b.register (~~~rampDac ctx)
  code : x.Measures → ∃ i < (ctx.uintArgs 0).toNat, x.codes = i + 1 ∧
    x.bench.board.register (rampDac ctx) = stepCode ctx i

/-- The invariant of the loop: {lit}`m` codes have been programmed, and there is a measurement
for each of the first {lit}`j`. -/
structure Sweeping (m j : ℕ) (s : Bench × Record) : Prop where
  opened : s.2.opened = true
  codes : s.2.codes = m
  le : m ≤ (ctx.uintArgs 0).toNat
  routing : s.1.board.routing = (0#3, b.routing.2)
  register : s.1.board.register (~~~rampDac ctx) = b.register (~~~rampDac ctx)
  code : ∀ i, m = i + 1 → s.1.board.register (rampDac ctx) = stepCode ctx i
  seen : ∀ x ∈ s.2.samples, Seen ctx b x
  measured : ∀ i < j, ∃ x ∈ s.2.samples, x.Measures ∧ x.codes = i + 1

variable {ctx b} {m j : ℕ} {s s' : Bench} {t : Record}

/-- What is seen at a call inside the loop. -/
theorem Sweeping.seen_call (h : Sweeping ctx b m j (s, t)) {c : Call}
    (hcodes : (⟨m, c, s⟩ : Sample).Measures → 0 < m) : Seen ctx b ⟨m, c, s⟩ where
  routing := h.routing
  register := h.register
  code := by
    intro hmeasures
    have hpos := hcodes hmeasures
    obtain ⟨i, rfl⟩ := Nat.exists_eq_succ_of_ne_zero hpos.ne'
    exact ⟨i, Nat.lt_of_succ_le h.le, rfl, h.code i rfl⟩

theorem Sweeping.look (h : Sweeping ctx b m j (s, t)) (c : Call) :
    t.look s c = ⟨m, c, s⟩ :: t.samples := by
  rw [Record.look, if_pos h.opened, h.codes]

/-- A call that keeps the routing and the other register. -/
theorem Sweeping.step (h : Sweeping ctx b m j (s, t)) (c : Call) {m' : ℕ} {t' : Record}
    (hcodes : (⟨m, c, s⟩ : Sample).Measures → 0 < m) (hnote : t' = ⟨true, m', t.look s c⟩)
    (hle : m' ≤ (ctx.uintArgs 0).toNat) (hrouting : s'.board.routing = s.board.routing)
    (hregister : s'.board.register (~~~rampDac ctx) = s.board.register (~~~rampDac ctx))
    (hcode : ∀ i, m' = i + 1 → s'.board.register (rampDac ctx) = stepCode ctx i) :
    Sweeping ctx b m' j (s', t') := by
  rw [h.look c] at hnote
  subst hnote
  constructor
  · rfl
  · rfl
  · exact hle
  · exact hrouting.trans h.routing
  · exact hregister.trans h.register
  · exact hcode
  · intro x hx
    rcases List.mem_cons.mp hx with rfl | hx
    · exact h.seen_call hcodes
    · exact h.seen x hx
  · intro i hi
    rcases h.measured i hi with ⟨x, hx, hmeasures⟩
    exact ⟨x, List.mem_cons_of_mem _ hx, hmeasures⟩

/-- A call that leaves the registers alone. -/
theorem Sweeping.call (h : Sweeping ctx b m j (s, t)) (c : Call) {t' : Record}
    (hcodes : (⟨m, c, s⟩ : Sample).Measures → 0 < m)
    (hnote : t' = ⟨t.opened, t.codes, t.look s c⟩)
    (hconfig : s'.board.config = s.board.config) : Sweeping ctx b m j (s', t') := by
  have hregister : ∀ dac, s'.board.register dac = s.board.register dac := by
    intro dac
    rw [Board.register, Board.register, hconfig]
  refine h.step c hcodes ?_ h.le ?_ (hregister _) fun i hi => (hregister _).trans (h.code i hi)
  · rw [hnote, show t.opened = true from h.opened, show t.codes = m from h.codes]
  · rw [Board.routing, Board.routing, hconfig]

/-- The measurement of the step whose code was programmed last. -/
theorem Sweeping.measure (h : Sweeping ctx b (m + 1) j (s, t)) (hj : m ≤ j) {c : Call}
    {t' : Record} (hmeasures : (⟨m + 1, c, s⟩ : Sample).Measures)
    (hnote : t' = ⟨t.opened, t.codes, t.look s c⟩)
    (hconfig : s'.board.config = s.board.config) : Sweeping ctx b (m + 1) (m + 1) (s', t') := by
  have hcall := h.call c (fun _ => Nat.succ_pos m) hnote hconfig
  refine { hcall with measured := fun i hi => ?_ }
  by_cases hlast : i < m
  · exact hcall.measured i (Nat.lt_of_lt_of_le hlast hj)
  · obtain rfl : i = m := by omega
    rw [h.look c] at hnote
    subst hnote
    exact ⟨_, List.mem_cons_self, hmeasures, rfl⟩

/-- The low word of a command. -/
theorem triple_low {cmd : BitVec 32} (hrst : rstBit cmd = false) :
    Triple watched (Sweeping ctx b m j) (Call.pdhSendCmd (PdhCmdT.strobe.set 0#1 cmd)).run
      fun _ x => Sweeping ctx b m j x ∧ strobeBit x.1.board.bus = false := by
  refine Triple.op fun ⟨s, t⟩ r ⟨s', t'⟩ h ⟨hsend, hnote⟩ => ?_
  have hboard := Eq.trans hsend (send_low hrst s.board)
  refine ⟨h.call (.pdhSendCmd (PdhCmdT.strobe.set 0#1 cmd)) (fun hmeasures => nomatch hmeasures.1)
    (Eq.trans hnote ?_) (by rw [hboard]), ?_⟩
  · simp [Record.note, strobeBit_strobe]
  · rw [hboard]
    exact strobeBit_strobe 0#1 cmd

/-- The high word of a read. -/
theorem triple_read (sel : BitVec 5) :
    Triple watched (fun x => Sweeping ctx b m j x ∧ strobeBit x.1.board.bus = false)
      (Call.pdhSendCmd (PdhCmdT.strobe.set 1#1 (checkSignedWord sel))).run
      fun _ x => Sweeping ctx b m j x ∧ cmdW x.1.board.latched = .checkSigned := by
  refine Triple.op fun ⟨s, t⟩ r ⟨s', t'⟩ ⟨h, hlow⟩ ⟨hsend, hnote⟩ => ?_
  rcases execute_checkSigned sel with ⟨hcmd, hexec⟩
  have hboard := Eq.trans hsend (send_high (rstBit_checkSignedWord sel) hlow)
  refine ⟨h.call (.pdhSendCmd (PdhCmdT.strobe.set 1#1 (checkSignedWord sel)))
    (fun hmeasures => nomatch hmeasures.1) (Eq.trans hnote ?_) ?_, ?_⟩
  · simp [Record.note, hcmd]
  · rw [hboard]
    exact hexec _
  · rw [hboard]
    exact hcmd

/-- The high word of a write of the converter that is asked for. -/
theorem triple_write (hm : m < (ctx.uintArgs 0).toNat) :
    Triple watched (fun x => Sweeping ctx b m j x ∧ strobeBit x.1.board.bus = false)
      (Call.pdhSendCmd (PdhCmdT.strobe.set 1#1 (setDacWord (rampDac ctx) (stepCode ctx m)))).run
      fun _ x => Sweeping ctx b (m + 1) j x ∧ cmdW x.1.board.latched = .setDac := by
  refine Triple.op fun ⟨s, t⟩ r ⟨s', t'⟩ ⟨h, hlow⟩ ⟨hsend, hnote⟩ => ?_
  have hboard := Eq.trans hsend (send_high (rstBit_setDacWord _ _) hlow)
  rcases execute_setDac (decode_setDacWord (rampDac ctx) (stepCode ctx m))
    (congrArg Board.config hboard) with ⟨hcmd, hrouting, hcode, hother⟩
  refine ⟨h.step
    (.pdhSendCmd (PdhCmdT.strobe.set 1#1 (setDacWord (rampDac ctx) (stepCode ctx m))))
    (fun hmeasures => nomatch hmeasures.1) (Eq.trans hnote ?_) hm hrouting hother ?_, ?_⟩
  · simp [Record.note, hcmd, strobeBit_strobe, show t.opened = true from h.opened,
      show t.codes = m from h.codes]
  · intro i hi
    obtain rfl := Nat.succ.inj hi
    exact hcode
  · rw [hboard]
    exact hcmd

/-- A write of the converter that is asked for. -/
theorem triple_setDac (hm : m < (ctx.uintArgs 0).toNat) :
    Triple watched (Sweeping ctx b m j)
      (pdhExecuteCmd (setDacWord (rampDac ctx) (stepCode ctx m)))
      fun _ => Sweeping ctx b (m + 1) j := by
  refine Triple.bind (triple_low (rstBit_setDacWord _ _)) fun _ => ?_
  refine Triple.bind (triple_write hm) fun _ => ?_
  refine Triple.op fun ⟨s, t⟩ r ⟨s', t'⟩ ⟨h, hcmd⟩ ⟨⟨hboard, _⟩, hnote⟩ => ?_
  refine h.call .pdhGetCallback (fun hmeasures => ?_) hnote (by rw [hboard])
  exact absurd (hmeasures.2.symm.trans hcmd) nofun

/-- A measurement. -/
theorem triple_checkSigned (sel : BitVec 5) (hj : m ≤ j) :
    Triple watched (Sweeping ctx b (m + 1) j) (pdhExecuteCmd (checkSignedWord sel))
      fun _ => Sweeping ctx b (m + 1) (m + 1) := by
  refine Triple.bind (triple_low (rstBit_checkSignedWord sel)) fun _ => ?_
  refine Triple.bind (triple_read sel) fun _ => ?_
  refine Triple.op fun ⟨s, t⟩ r ⟨s', t'⟩ ⟨h, hcmd⟩ ⟨⟨hboard, _⟩, hnote⟩ => ?_
  exact h.measure hj ⟨rfl, hcmd⟩ hnote (by rw [hboard])

/-- Every step reads a measurement, in either mode. -/
theorem triple_logStep (demodMode : BitVec 32) (v : F) :
    Triple watched (Sweeping ctx b (m + 1) m) (logStep demodMode v)
      fun _ => Sweeping ctx b (m + 1) (m + 1) := by
  have hread : ∀ sel j, m ≤ j → Triple watched (Sweeping ctx b (m + 1) j) (readSignal (F := F) sel)
      fun _ => Sweeping ctx b (m + 1) (m + 1) :=
    fun sel j hj => Triple.bind (triple_checkSigned sel.code hj) fun _ => Triple.pure fun _ h => h
  have hprint : ∀ fields, Triple watched (Sweeping ctx b (m + 1) (m + 1))
      (Call.fprintfFloats fields).run fun _ => Sweeping ctx b (m + 1) (m + 1) :=
    fun fields => Triple.op fun ⟨s, t⟩ r ⟨s', t'⟩ h ⟨hboard, hnote⟩ =>
      h.call (.fprintfFloats fields) (fun hmeasures => nomatch hmeasures.1) hnote
        (by rw [show s'.board = _ from hboard])
  unfold logStep
  split
  · exact Triple.bind (hread _ m le_rfl) fun _ => hprint _
  · refine Triple.bind (hread _ m le_rfl) fun _ => ?_
    refine Triple.bind (hread _ (m + 1) (Nat.le_succ m)) fun _ => ?_
    refine Triple.bind (hread _ (m + 1) (Nat.le_succ m)) fun _ => ?_
    exact Triple.bind (hread _ (m + 1) (Nat.le_succ m)) fun _ => hprint _

/-- The loop programs and measures every step. -/
theorem triple_rampPoints {i n : ℕ} (hn : i + n = (ctx.uintArgs 0).toNat) :
    Triple watched (Sweeping ctx b i i) (rampPoints ctx i n)
      fun _ => Sweeping ctx b (i + n) (i + n) := by
  induction n generalizing i with
  | zero => exact Triple.pure fun _ h => h
  | succ n ih =>
      refine Triple.bind (triple_setDac (by omega)) fun _ => ?_
      have hrest : Triple watched (Sweeping ctx b (i + 1) i) (do
          logStep (ctx.uintArgs 3) (rampVoltage ctx i)
          rampPoints ctx (i + 1) n) fun _ => Sweeping ctx b (i + (n + 1)) (i + (n + 1)) := by
        refine Triple.bind (triple_logStep _ _) fun _ => ?_
        rw [Nat.add_comm n, ← Nat.add_assoc]
        exact ih (by omega)
      split_ifs
      · refine Triple.bind (Triple.op fun ⟨s, t⟩ r ⟨s', t'⟩ h ⟨hboard, hnote⟩ => ?_) fun _ => hrest
        exact h.call (.usleep (ctx.uintArgs 2)) (fun hmeasures => nomatch hmeasures.1) hnote
          (by rw [show s'.board = _ from hboard])
      · exact hrest

/-- While the log is not open, nothing is recorded. -/
theorem triple_unseen (cmd : BitVec 32) (l : List Sample) :
    Triple watched (fun x => x.2.opened = false ∧ x.2.samples = l) (pdhExecuteCmd cmd)
      fun _ x => x.2.opened = false ∧ x.2.samples = l := by
  have hlook : ∀ (x y : Bench × Record) (c : Call), x.2.opened = false ∧ x.2.samples = l →
      y.2.opened = x.2.opened → y.2.samples = x.2.look x.1 c →
      y.2.opened = false ∧ y.2.samples = l := by
    intro x y c h hopened hsamples
    rw [hopened, hsamples, Record.look, h.1]
    exact ⟨rfl, h.2⟩
  have hsend : ∀ raw, Triple watched (fun x => x.2.opened = false ∧ x.2.samples = l)
      (Call.pdhSendCmd raw).run fun _ x => x.2.opened = false ∧ x.2.samples = l :=
    fun raw => Triple.op fun x r y h hstep =>
      hlook x y (.pdhSendCmd raw) h (by rw [hstep.2]; rfl) (by rw [hstep.2]; rfl)
  refine Triple.bind (hsend _) fun _ => Triple.bind (hsend _) fun _ => ?_
  exact Triple.op fun x r y h hstep =>
    hlook x y .pdhGetCallback h (by rw [hstep.2]; rfl) (by rw [hstep.2]; rfl)

/-- The samples of a ramp: every one shows what it shows in any case, and there is a measurement
of every step. -/
def Sampled (ctx : CmdCtx F) (b : Board) (x : Bench × Record) : Prop :=
  (∀ y ∈ x.2.samples, Seen ctx b y) ∧
    ∀ i < (ctx.uintArgs 0).toNat, ∃ y ∈ x.2.samples, y.Measures ∧ y.codes = i + 1

/-- What follows the opening of the log. -/
theorem triple_rampTail (dac1 dac2 pid : BitVec 3) (r : Reply F) :
    Triple watched (Sweeping ctx b 0 0)
      (do
        rampPoints ctx 0 (ctx.uintArgs 0).toNat
        (Call.fclose "sweep_log.csv").run
        let _ ← pdhExecuteCmd (configIoWord dac1 dac2 pid 0#32)
        return r)
      fun _ => Sampled ctx b := by
  refine Triple.bind (triple_rampPoints (Nat.zero_add _)) fun _ => ?_
  rw [Nat.zero_add]
  refine Triple.bind (Q := fun _ x => x.2.opened = false ∧ Sampled ctx b x) ?_ fun _ => ?_
  · refine Triple.op fun ⟨s, t⟩ r ⟨s', t'⟩ h ⟨hboard, hnote⟩ => ?_
    have hcall : Sweeping ctx b _ _ (s', ⟨t.opened, t.codes, t.look s (.fclose "sweep_log.csv")⟩) :=
      h.call (.fclose "sweep_log.csv") (fun hmeasures => nomatch hmeasures.1) rfl
        (by rw [show s'.board = _ from hboard])
    obtain rfl := hnote
    exact ⟨rfl, hcall.seen, hcall.measured⟩
  · refine Triple.bind (Q := fun _ => Sampled ctx b) ?_ fun _ => Triple.pure fun _ h => h
    intro x tr cb y h hrun hfollows
    have hsame := (triple_unseen _ x.2.samples x tr cb y ⟨h.1, rfl⟩ hrun hfollows).2
    rw [Sampled, hsame]
    exact h.2

/-- A command that is no write of a converter keeps both registers. -/
theorem register_execute {cmd cb : BitVec 32} {tr : List ((c : Call) × c.Response)} {b b' : Board}
    (hrst : rstBit cmd = false) {v : CmdView}
    (hdecode : decode (PdhCmdT.strobe.set 1#1 cmd) = some v) (hv : ∀ code dac, v ≠ .dacCmd code dac)
    (hrun : Performs (pdhExecuteCmd cmd) tr cb) (hfollows : Follows board b tr b')
    (dac : BitVec 1) : b'.register dac = b.register dac := by
  have hconfig := (performs_execute hrst hrun hfollows).2.1
  rw [Board.register, Board.register, hconfig]
  unfold exec
  cases hw : cmdW (PdhCmdT.strobe.set 1#1 cmd) with
  | setDac =>
      rw [decode, hw] at hdecode
      exact absurd (Option.some.inj hdecode).symm (hv _ _)
  | _ => rfl

/-- The steps of the watched bench are steps of the board. -/
theorem follows_board {x y : Bench × Record} {tr : List ((c : Call) × c.Response)}
    (h : Follows watched x tr y) : Follows board x.1.board tr y.1.board :=
  ((follows_instrument Record.note x.2).mpr ⟨y.2, h⟩).map Bench.board fun _ _ _ _ hstep => hstep

/-- What is seen in a run of an accepted request: nothing if the log cannot be opened, and
otherwise the samples of a ramp. -/
theorem performs_sweep (hok : rampArgsCode ctx = .ok) {p : Path}
    {tr : List ((c : Call) × c.Response)} {reply : Reply F} {y : Bench × Record}
    (hrun : Performs (cmdSweepRamp ctx) tr reply)
    (hfollows : Follows watched (⟨b, p⟩, .empty) tr y) :
    ⟨.fopen "sweep_log.csv", false⟩ ∈ tr ∧ y.2.samples = [] ∨ Sampled ctx b y := by
  unfold cmdSweepRamp at hrun
  rw [if_neg (not_not.mpr hok)] at hrun
  rcases performs_bind.mp hrun with ⟨tr₁, ioCb, tail₁, hread, hrest₁, rfl⟩
  rcases performs_bind.mp hrest₁ with ⟨tr₂, _, tail₂, hwrite, hrest₂, rfl⟩
  rcases performs_bind.mp hrest₂ with ⟨tr₃, opened, tail₃, hopen, hrest₃, rfl⟩
  rcases follows_append.mp hfollows with ⟨x₁, hf₁, hf₂⟩
  rcases follows_append.mp hf₂ with ⟨x₂, hf₃, hf₄⟩
  rcases follows_append.mp hf₄ with ⟨x₃, hf₅, hf₆⟩
  -- the routing is read and written before anything is recorded
  have hunseen₁ := triple_unseen _ [] _ _ _ _ ⟨rfl, rfl⟩ hread hf₁
  have hunseen₂ := triple_unseen _ [] _ _ _ _ hunseen₁ hwrite hf₃
  have hrouting := (performs_readRouting hread (follows_board hf₁)).2
  have htaken := (performs_writeRouting hwrite (follows_board hf₃)).2
  have hregister : ∀ dac, x₂.1.board.register dac = b.register dac := by
    intro dac
    have hkept := register_execute (by rw [rstBit_configIoWord]; rfl) (decode_configIo _ _ _ 0#32)
      (by simp) hwrite (follows_board hf₃) dac
    exact hkept.trans (register_execute (rstBit_checkSignedWord _) decode_checkIo (by simp) hread
      (follows_board hf₁) dac)
  rw [Call.run, performs_op] at hopen
  subst hopen
  rcases hf₅ with _ | ⟨⟨hboard, hnote⟩, ⟨⟩⟩
  have hsamples : x₃.2.samples = [] := by
    rw [hnote]
    simp [Record.note, Record.look, hunseen₂.1, hunseen₂.2]
  cases opened with
  | false =>
      rcases performs_pure.mp hrest₃ with ⟨rfl, -⟩
      cases hf₆
      exact .inl ⟨by simp, hsamples⟩
  | true =>
      have hstart : Sweeping ctx b 0 0 x₃ := by
        constructor
        · rw [hnote]
          rfl
        · rw [hnote]
          rfl
        · exact Nat.zero_le _
        · rw [hboard, htaken, ← hrouting]
        · rw [hboard, hregister]
        · intro i hi
          exact absurd hi.symm (Nat.succ_ne_zero i)
        · simp [hsamples]
        · intro i hi
          exact absurd hi (Nat.not_lt_zero i)
      exact .inr (triple_rampTail _ _ _ _ _ _ _ _ hstart hrest₃ hf₆)

/-! ## When the ramp drives its converter -/

/-- The first converter is asked for; or the first converter was given to its register before,
and so was the second one, or to nothing at all while every code is the one it then puts out. -/
def Drivable (ctx : CmdCtx F) (b : Board) : Prop :=
  rampDac ctx = 0#1 ∨ b.source 0#1 = 0#3 ∧
    (b.source 1#1 = 0#3 ∨
      4#3 ≤ b.source 1#1 ∧ ∀ i < (ctx.uintArgs 0).toNat, stepCode ctx i = 8192#14)

theorem dacFeedW_zero (code : BitVec 14) (p : Path) : p.dacFeedW 0#3 code = code := rfl

/-- A converter that is given to nothing. -/
theorem dacFeedW_unassigned {sel : BitVec 3} (hsel : 4#3 ≤ sel) (code : BitVec 14) (p : Path) :
    p.dacFeedW sel code = 8192#14 := by
  have hcases : sel = 4#3 ∨ sel = 5#3 ∨ sel = 6#3 ∨ sel = 7#3 := by
    revert sel
    decide
  rcases hcases with rfl | rfl | rfl | rfl <;> rfl

/-- The selector of the second converter is the one before the request, and that of the first
one is zero. -/
theorem Seen.source_eq {x : Sample} (h : Seen ctx b x) :
    x.bench.board.source 0#1 = 0#3 ∧ x.bench.board.source 1#1 = b.source 1#1 :=
  ⟨congrArg Prod.fst h.routing, congrArg (fun r => r.2.1) h.routing⟩

/-- A sample of a ramp that can drive its converter. -/
theorem Seen.drivesOnly (h : Seen ctx b x) (hdrivable : Drivable ctx b) : DrivesOnly ctx b x := by
  rcases h.source_eq with ⟨hfirst, hsecond⟩
  by_cases hdac : rampDac ctx = 0#1
  · refine ⟨?_, h.register, fun hmeasures => ?_⟩
    · rw [hdac]
      exact hsecond
    · rcases h.code hmeasures with ⟨i, -, hcodes, hcode⟩
      refine ⟨i, hcodes, ?_⟩
      rw [Bench.feed, hcode, hdac, hfirst, dacFeedW_zero]
  · rcases hdrivable with hzero | ⟨hkept, hroute⟩
    · exact absurd hzero hdac
    · have hone : rampDac ctx = 1#1 := (BitVec.eq_zero_or_eq_one _).resolve_left hdac
      refine ⟨?_, h.register, fun hmeasures => ?_⟩
      · rw [hone]
        exact hfirst.trans hkept.symm
      · rcases h.code hmeasures with ⟨i, hi, hcodes, hcode⟩
        refine ⟨i, hcodes, ?_⟩
        rw [Bench.feed, hcode, hone, hsecond]
        rcases hroute with hregister | ⟨hunassigned, hcentre⟩
        · rw [hregister, dacFeedW_zero]
        · rw [dacFeedW_unassigned hunassigned, hcentre i hi]

/-! ## Signals that are no code of the ramp -/

/-- Signals that all differ from a code. -/
def apart (code : BitVec 14) : Path :=
  { Path.reset with
    ncoFeed1R := ~~~code
    ncoFeed2R := ~~~code
    uPid :=
      if code = PidCore.pidOut PidCore.resetState then { PidCore.resetState with biasR := 1#14 }
      else PidCore.resetState }

/-- A converter that is given to a signal. -/
theorem dacFeedW_apart {sel : BitVec 3} (hzero : sel ≠ 0#3) (hlow : ¬4#3 ≤ sel)
    (code register : BitVec 14) : (apart code).dacFeedW sel register ≠ code := by
  have hnot : ~~~code ≠ code := by
    intro hsame
    have hbit := congrArg (BitVec.getLsbD · 0) hsame
    simp at hbit
  have hcases : sel = 1#3 ∨ sel = 2#3 ∨ sel = 3#3 := by
    revert sel
    decide
  rcases hcases with rfl | rfl | rfl
  · change PidCore.pidOut (apart code).uPid ≠ code
    rw [apart]
    split_ifs with hcode
    · rw [hcode]
      decide
    · exact Ne.symm hcode
  · exact hnot
  · exact hnot

/-- The bench, with a log that can be opened and signals that stay. -/
def steady (p : Path) : Machine Call.Response (Bench × Record) :=
  fun x c r y => watched x c r y ∧ y.1.path = p ∧
    ∀ path, (⟨c, r⟩ : (c : Call) × c.Response) ≠ ⟨.fopen path, false⟩

theorem exists_steady (p : Path) (x : Bench × Record) (c : Call) : ∃ r y, steady p x c r y := by
  have hbench : ∀ r b', board x.1.board c r b' →
      (∀ path, (⟨c, r⟩ : (c : Call) × c.Response) ≠ ⟨.fopen path, false⟩) →
      ∃ r y, steady p x c r y :=
    fun r b' hstep hopens => ⟨r, (⟨b', p⟩, x.2.note x.1 c r), ⟨hstep, rfl⟩, rfl, hopens⟩
  cases c with
  | fopen path => exact hbench true x.1.board rfl (by simp)
  | _ =>
      rcases exists_boardNoFiles x.1.board _ with ⟨r, b', hstep, -⟩
      exact hbench r b' hstep (by simp)

/-- An accepted request can be run with these signals, and every step is measured. -/
theorem exists_sampled (ctx : CmdCtx F) (b : Board) (hok : rampArgsCode ctx = .ok) (p : Path) :
    ∃ tr reply y, Performs (cmdSweepRamp ctx) tr reply ∧
      Follows watched (⟨b, p⟩, .empty) tr y ∧ Sampled ctx b y ∧
      ∀ x ∈ y.2.samples, x.bench.path = p := by
  rcases exists_run (exists_steady p) (cmdSweepRamp ctx) (⟨b, p⟩, .empty) with
    ⟨tr, reply, y, hrun, hsteady⟩
  have hfollows : Follows watched (⟨b, p⟩, .empty) tr y := hsteady.imp fun _ _ _ _ h => h.1
  have hpath : y.1.path = p ∧ ∀ x ∈ y.2.samples, x.bench.path = p := by
    refine hsteady.invariant (I := fun y : Bench × Record =>
      y.1.path = p ∧ ∀ x ∈ y.2.samples, x.bench.path = p)
      ⟨rfl, fun x hx => absurd hx List.not_mem_nil⟩ ?_
    rintro x c r y ⟨hsame, hbefore⟩ ⟨⟨-, hnote⟩, hpath, -⟩
    refine ⟨hpath, fun z hz => ?_⟩
    rw [hnote, Record.note_samples, Record.look] at hz
    split_ifs at hz
    · rcases List.mem_cons.mp hz with rfl | hz
      · exact hsame
      · exact hbefore z hz
    · exact hbefore z hz
  refine ⟨tr, reply, y, hrun, hfollows, ?_, hpath.2⟩
  rcases performs_sweep hok hrun hfollows with ⟨hfailed, -⟩ | hsampled
  · exact absurd rfl (hsteady.forall_mem (E := fun e => ∀ path, e ≠ ⟨.fopen path, false⟩)
      (fun _ _ _ _ h => h.2.2) _ hfailed _)
  · exact hsampled

theorem two_le_points (hok : rampArgsCode ctx = .ok) : 2 ≤ (ctx.uintArgs 0).toNat := by
  simp only [rampArgsCode] at hok
  split_ifs at hok with hrange hpoints
  rw [BitVec.lt_def, BitVec.lt_def] at hpoints
  have htwo : (2#32).toNat = 2 := rfl
  omega

/-- A ramp that always drives its converter can do so. -/
theorem drivable_of_sweepsOnly (hok : rampArgsCode ctx = .ok) (h : SweepsOnly ctx b) :
    Drivable ctx b := by
  by_cases hdac : rampDac ctx = 0#1
  · exact .inl hdac
  · have hone : rampDac ctx = 1#1 := (BitVec.eq_zero_or_eq_one _).resolve_left hdac
    rcases exists_sampled ctx b hok (apart (stepCode ctx 0)) with
      ⟨tr, reply, ⟨s, t⟩, hrun, hfollows, ⟨hseen, hmeasured⟩, hpath⟩
    -- what the measurement of a step says about the routing
    have hstep : ∀ i < (ctx.uintArgs 0).toNat, b.source 0#1 = 0#3 ∧
        ∃ register, (apart (stepCode ctx 0)).dacFeedW (b.source 1#1) register = stepCode ctx i := by
      intro i hi
      rcases hmeasured i hi with ⟨x, hx, hmeasures, hcodes⟩
      rcases (hseen x hx).source_eq with ⟨hfirst, hsecond⟩
      have hdrives := h _ _ _ _ _ hrun hfollows x hx
      have hsource := hdrives.source
      rw [hone] at hsource
      rcases hdrives.feed hmeasures with ⟨k, hk, hfeed⟩
      obtain rfl : k = i := by omega
      rw [hone, Bench.feed, hsecond, hpath x hx] at hfeed
      exact ⟨hsource.symm.trans hfirst, _, hfeed⟩
    have hpos : 0 < (ctx.uintArgs 0).toNat := Nat.lt_of_lt_of_le Nat.two_pos (two_le_points hok)
    rcases hstep 0 hpos with ⟨hkept, register, hfeed⟩
    refine .inr ⟨hkept, ?_⟩
    by_cases hregister : b.source 1#1 = 0#3
    · exact .inl hregister
    · by_cases hunassigned : 4#3 ≤ b.source 1#1
      · refine .inr ⟨hunassigned, fun i hi => ?_⟩
        rcases (hstep i hi).2 with ⟨register, hcentre⟩
        rw [← hcentre, dacFeedW_unassigned hunassigned]
      · exact absurd hfeed (dacFeedW_apart hregister hunassigned _ _)

/-- `cmd_sweep_ramp` drives the converter it was asked for and no other, whatever the signals, if
and only if it was asked for the first one, or the first one had its register before and the
second one puts out the codes anyway. -/
theorem sweepsOnly_iff (ctx : CmdCtx F) (b : Board) (hok : rampArgsCode ctx = .ok) :
    SweepsOnly ctx b ↔ Drivable ctx b := by
  constructor
  · exact drivable_of_sweepsOnly hok
  · intro hdrivable p tr reply s t hrun hfollows x hx
    rcases performs_sweep hok hrun hfollows with ⟨-, hnone⟩ | hsampled
    · rw [show t.samples = [] from hnone] at hx
      exact absurd hx List.not_mem_nil
    · exact (hsampled.1 x hx).drivesOnly hdrivable

end Sweep

/-! ## A ramp of the second converter -/

/-- A ramp of two points on the second converter. -/
def secondCtx : CmdCtx ℚ :=
  { rampCtx with uintArgs := fun k => if k = 0 then 2#32 else if k = 1 then 1#32 else 0#32 }

/-- The exact condition, with the first converter given to the controller. -/
theorem sweepsOnly_iff_second : SweepsOnly secondCtx pidBoard ↔ Drivable secondCtx pidBoard :=
  sweepsOnly_iff secondCtx pidBoard (by decide +kernel)

/-- The registers after reset, with the second converter given to the controller. -/
def secondPidBoard : Board :=
  { pidBoard with
    config := { Config.reset with regs := { Regs.reset with dac2DatSelR := 0b001#3 } } }

/-- A ramp of the second converter takes the first one from the controller, and leaves the
second one to it. -/
theorem second_not_driven :
    rampArgsCode secondCtx = .ok ∧ secondCtx.uintArgs 1 = 1#32 ∧
      ¬SweepsOnly secondCtx pidBoard ∧ ¬SweepsOnly secondCtx secondPidBoard := by
  have hok : rampArgsCode secondCtx = .ok := by decide +kernel
  refine ⟨hok, rfl, fun htaken => ?_, fun hleft => ?_⟩
  · rcases drivable_of_sweepsOnly hok htaken with hfirst | ⟨hkept, -⟩
    · exact absurd hfirst (by decide)
    · exact absurd hkept (by decide)
  · rcases drivable_of_sweepsOnly hok hleft with hfirst | ⟨-, hregister | ⟨hunassigned, -⟩⟩
    · exact absurd hfirst (by decide)
    · exact absurd hregister (by decide)
    · exact absurd hunassigned (by decide)

end Requests
end PoundDreverHall
