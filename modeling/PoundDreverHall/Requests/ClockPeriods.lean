import PoundDreverHall.Requests.BoardRefinement
import PoundDreverHall.Requests.Underway

/-!
# Requests - the settings in every clock period

The accesses to the core are far apart, and the loop runs in every clock period between them.  This
file shows which settings it runs on: before a word has passed the synchroniser those from before
the access, and afterwards those of the register file.

Main results:

- Theorem {lit}`config_passes`: a clock period shows the registers from before the word on the bus,
  or those after it.
- Theorem {lit}`session_clockPeriods`: in every clock period of any sequence of texts, the settings
  are those that the text being served can have in force.
-/

namespace PoundDreverHall
namespace Requests

open Clocked Device Device.Program Server PdhCore

/-! ## A word on the bus -/

section Word

variable (rom : Nco.Rom) {b : Board} {s : State} {ins : ℕ → Input} {v w : BitVec 32} {n : ℕ}

/-- A core in reset keeps the settings of a reset. -/
theorem config_step_asserted {i : Input} (h : Asserted s) (hi : i.rstI = false) :
    (step rom i s).config = Config.reset := by
  have hdraining := draining_step rom h hi
  have hdac : (step rom i s).dac = .reset := by
    simp [step, posedge, negedge, hi, h.2, ResetSync.asserted]
  rw [State.config, hdraining.regs, hdac]
  rfl

/-- Out of reset, the registers keep their values until the first word is executed. -/
theorem InReset.config_passes (h : InReset s) (hrst : rstBit w = false)
    (hbus : ∀ k < n, busWords ins k = w) :
    (run (step rom) s ins n).config = resetBoard.config ∨
      (run (step rom) s ins n).config = (resetBoard.send w).config := by
  have hins : ∀ k < n, (ins k).rstI = false := by
    intro k hk
    rw [Input.rstI, show (ins k).axiFromPsI = w from hbus k hk, hrst]
  rcases n with _ | _ | n
  · exact .inl h.config
  · exact .inl (config_step_asserted rom h.asserted (hins 0 (by omega)))
  · have hrests := h.rests rom (hins 0 (by omega)) (hins 1 (by omega))
    have hlate : ∀ k < n, busWords (fun k => ins (2 + k)) k = w :=
      fun k hk => hbus (2 + k) (by omega)
    rw [show n + 1 + 1 = 2 + n by omega, run_add]
    rcases Nat.lt_or_ge n 5 with hn | hn
    · exact .inl (hrests.config_of_le rom hrst (by omega) hlate)
    · exact .inr (hrests.config_of_ge rom hrst hn hlate)

/-- A clock period shows the registers from before the word on the bus, or those after it. -/
theorem config_passes (h : CaughtUp b v s) (hbus : ∀ k < n, busWords ins k = w) :
    (run (step rom) s ins n).config = b.config ∨
      (run (step rom) s ins n).config = (b.send w).config := by
  by_cases hrst : rstBit w = true
  · cases n with
    | zero =>
        rcases h with ⟨-, rfl, hreset⟩ | ⟨-, -, hrests, -⟩
        · exact .inl hreset.config
        · exact .inl hrests.config
    | succ n =>
        right
        have hi : (ins n).rstI = true := by
          rw [Input.rstI, show (ins n).axiFromPsI = w from hbus n (Nat.lt_succ_self n), hrst]
        rw [run_succ, (inReset_step rom _ hi).config, Board.send_of_rst hrst]
        rfl
  · have hclear : rstBit w = false := Bool.eq_false_iff.mpr hrst
    rcases h with ⟨-, rfl, hreset⟩ | ⟨-, -, hrests, -⟩
    · exact hreset.config_passes rom hclear hbus
    · rcases Nat.lt_or_ge n 5 with hn | hn
      · exact .inl (hrests.config_of_le rom hclear (by omega) hbus)
      · exact .inr (hrests.config_of_ge rom hclear hn hbus)

end Word

/-! ## Commands whose callback is read -/

/-- Whether a command was sent after the callback that was read last. -/
def unread (pending : Bool) (tr : Trace) : Bool :=
  tr.foldl (fun pending e =>
    match e.1 with
    | .pdhSendCmd _ => true
    | .pdhGetCallback => false
    | _ => pending) pending

/-- The commands of a trace in two parts. -/
theorem unread_append (pending : Bool) (tr tr' : Trace) :
    unread pending (tr ++ tr') = unread (unread pending tr) tr' :=
  List.foldl_append

/-- The routine reads a callback after its last command, and reads one in any case. -/
def ReadsBack {α : Type} (p : Routine α) : Prop :=
  ∀ pending tr a, Performs p tr a → unread pending tr = false

/-- The routine reads a callback after its last command, if it sends any. -/
def Answered {α : Type} (p : Routine α) : Prop :=
  ∀ tr a, Performs p tr a → unread false tr = false

section ReadsBack

variable {α β : Type} {p : Routine α} {f : α → Routine β}

/-- A routine that ends by reading a callback leaves none unread. -/
theorem ReadsBack.answered (h : ReadsBack p) : Answered p :=
  h false

theorem answered_pure (a : α) : Answered (pure a : Routine α) := by
  intro tr b hrun
  rw [(performs_pure.mp hrun).1]
  rfl

/-- A call that does not send. -/
theorem answered_call {c : Call} (h : c.sent = []) : Answered c.run := by
  intro tr r hrun
  rw [performs_op.mp hrun]
  cases c with
  | pdhSendCmd raw => exact absurd h (List.cons_ne_nil _ _)
  | _ => rfl

/-- One routine after another. -/
theorem answered_bind (hp : Answered p) (hf : ∀ a, Answered (f a)) : Answered (p >>= f) := by
  intro tr b hrun
  rcases performs_bind.mp hrun with ⟨tr₁, a, tr₂, h₁, h₂, rfl⟩
  rw [unread_append, hp tr₁ a h₁]
  exact hf a tr₂ b h₂

/-- A callback that is read first stays read, if what follows reads its own. -/
theorem readsBack_bind (hp : ReadsBack p) (hf : ∀ a, Answered (f a)) : ReadsBack (p >>= f) := by
  intro pending tr b hrun
  rcases performs_bind.mp hrun with ⟨tr₁, a, tr₂, h₁, h₂, rfl⟩
  rw [unread_append, hp pending tr₁ a h₁]
  exact hf a tr₂ b h₂

/-- Whatever is sent before. -/
theorem readsBack_after (hf : ∀ a, ReadsBack (f a)) : ReadsBack (p >>= f) := by
  intro pending tr b hrun
  rcases performs_bind.mp hrun with ⟨tr₁, a, tr₂, h₁, h₂, rfl⟩
  rw [unread_append]
  exact hf a _ tr₂ b h₂

theorem readsBack_getCallback : ReadsBack Call.pdhGetCallback.run := by
  intro pending tr cb hrun
  rw [performs_op.mp hrun]
  rfl

/-- `pdh_execute_cmd` reads the callback of its command. -/
theorem readsBack_execute (cmd : BitVec 32) : ReadsBack (pdhExecuteCmd cmd) := by
  rw [pdhExecuteCmd_eq]
  exact readsBack_after fun _ => readsBack_getCallback

/-- A command whose answer is only looked at. -/
theorem answered_execute (cmd : BitVec 32) (f : BitVec 32 → β) :
    Answered (pdhExecuteCmd cmd >>= fun cb => pure (f cb)) :=
  (readsBack_bind (readsBack_execute cmd) fun _ => answered_pure _).answered

end ReadsBack

/-! ### The handlers -/

section Handlers

variable {F : Type}

/-- The entries of a frame need no command. -/
theorem answered_dumpFrame (frameCode offset : BitVec 32) (n : ℕ) :
    Answered (dumpFrame frameCode offset n) := by
  induction n generalizing offset with
  | zero => exact answered_pure _
  | succ n ih =>
      exact answered_bind (answered_call rfl) fun _ => answered_bind (answered_call rfl) fun _ =>
        ih _

/-- Nor does the log. -/
theorem answered_logFrame (frameCode : BitVec 32) (r : Reply F) :
    Answered (logFrame frameCode r) := by
  refine answered_bind (answered_call rfl) fun f => ?_
  dsimp only
  split_ifs
  · exact answered_bind (answered_dumpFrame _ _ _) fun _ =>
      answered_bind (answered_call rfl) fun _ => answered_pure _
  · exact answered_pure _
  · exact answered_bind (answered_dumpFrame _ _ _) fun _ =>
      answered_bind (answered_call rfl) fun _ => answered_pure _
  · exact answered_pure _

/-- `cmd_set_pid` reads the callback of every write. -/
theorem answered_setPid [SinglePrecision F] (ctx : CmdCtx F) : Answered (cmdSetPid ctx) := by
  have hint : ∀ sel value scale name fail (r : Reply F),
      Answered (setPidInt16 sel value scale name fail r) :=
    fun _ _ _ _ _ _ => answered_execute _ _
  have huint : ∀ sel value name fail (r : Reply F), Answered (setPidUint sel value name fail r) :=
    fun _ _ _ _ _ => answered_execute _ _
  refine answered_bind (hint _ _ _ _ _ _) fun _ => ?_
  refine answered_bind (hint _ _ _ _ _ _) fun _ => ?_
  refine answered_bind (hint _ _ _ _ _ _) fun _ => ?_
  refine answered_bind (huint _ _ _ _ _) fun _ => ?_
  refine answered_bind (hint _ _ _ _ _ _) fun _ => ?_
  refine answered_bind (huint _ _ _ _ _) fun _ => ?_
  refine answered_bind (huint _ _ _ _ _) fun _ => ?_
  refine answered_bind (huint _ _ _ _ _) fun _ => ?_
  refine answered_bind (hint _ _ _ _ _ _) fun _ => ?_
  exact answered_bind (hint _ _ _ _ _ _) fun _ => hint _ _ _ _ _ _

/-- So does `cmd_set_fir`. -/
theorem answered_setFir [SinglePrecision F] (ctx : CmdCtx F) : Answered (cmdSetFir ctx) := by
  have hreg : ∀ sel value mask fail (r : Reply F), Answered (setFirReg sel value mask fail r) :=
    fun _ _ _ _ _ => answered_execute _ _
  have hload : ∀ (r : Reply F) i n, Answered (loadCoeffs ctx r i n) := by
    intro r i n
    induction n generalizing r i with
    | zero => exact answered_pure _
    | succ n ih =>
        exact answered_bind (hreg _ _ _ _ _) fun _ => answered_bind (hreg _ _ _ _ _) fun _ =>
          ih _ _
  dsimp only [cmdSetFir]
  split_ifs
  · exact answered_pure _
  · refine answered_bind (hreg _ _ _ _ _) fun _ => ?_
    refine answered_bind (hreg _ _ _ _ _) fun _ => ?_
    refine answered_bind (hload _ _ _) fun _ => ?_
    refine answered_bind (hreg _ _ _ _ _) fun _ => ?_
    exact answered_bind (hreg _ _ _ _ _) fun _ => answered_pure _

section MixedPrecision

variable [MixedPrecision F]

/-- So does `cmd_set_nco`. -/
theorem answered_setNco (ctx : CmdCtx F) : Answered (cmdSetNco ctx) := by
  have hexecute : ∀ cmd, Answered (pdhExecuteCmd cmd) := fun cmd => (readsBack_execute cmd).answered
  dsimp only [cmdSetNco]
  split_ifs
  · exact answered_pure _
  · refine answered_bind (hexecute _) fun _ => ?_
    refine answered_bind (hexecute _) fun _ => ?_
    refine answered_bind (hexecute _) fun _ => ?_
    refine answered_bind (hexecute _) fun _ => ?_
    refine answered_bind (hexecute _) fun _ => ?_
    exact answered_execute _ _

/-- The steps of a ramp read the callback of every command. -/
theorem answered_rampPoints (ctx : CmdCtx F) (i n : ℕ) : Answered (rampPoints ctx i n) := by
  have hread : ∀ sel, Answered (readSignal sel : Routine F) := fun _ => answered_execute _ _
  have hlog : ∀ demodMode (v : F), Answered (logStep demodMode v) := by
    intro demodMode v
    dsimp only [logStep]
    split_ifs
    · exact answered_bind (hread _) fun _ => answered_call rfl
    · refine answered_bind (hread _) fun _ => ?_
      refine answered_bind (hread _) fun _ => ?_
      refine answered_bind (hread _) fun _ => ?_
      exact answered_bind (hread _) fun _ => answered_call rfl
  induction n generalizing i with
  | zero => exact answered_pure _
  | succ n ih =>
      refine answered_bind (readsBack_execute _).answered fun _ => ?_
      dsimp only
      split_ifs
      · refine answered_bind (answered_call rfl) fun _ => ?_
        exact answered_bind (hlog _ _) fun _ => ih _
      · exact answered_bind (hlog _ _) fun _ => ih _

/-- So does the whole of `cmd_sweep_ramp`. -/
theorem answered_sweepRamp (ctx : CmdCtx F) : Answered (cmdSweepRamp ctx) := by
  have hexecute : ∀ cmd, Answered (pdhExecuteCmd cmd) := fun cmd => (readsBack_execute cmd).answered
  dsimp only [cmdSweepRamp]
  split_ifs
  · exact answered_pure _
  · refine answered_bind (hexecute _) fun _ => answered_bind (hexecute _) fun _ => ?_
    refine answered_bind (answered_call rfl) fun opened => ?_
    split_ifs
    · refine answered_bind (answered_rampPoints ctx _ _) fun _ => ?_
      exact answered_bind (answered_call rfl) fun _ => answered_execute _ _
    · exact answered_pure _

/-- Every handler reads the callback of its last command. -/
theorem handler_answered (h : Handler) (stack : BitVec 32) (ctx : CmdCtx F) :
    Answered (h.run stack ctx) := by
  cases h with
  | setLed =>
      change Answered (cmdSetLed ctx)
      dsimp only [cmdSetLed]
      split_ifs
      · exact answered_pure _
      · exact answered_execute _ _
  | resetFpga =>
      exact (readsBack_after fun _ => readsBack_after fun _ =>
        readsBack_bind readsBack_getCallback fun _ => answered_pure _).answered
  | setDac => exact answered_execute _ _
  | getAdc => exact answered_execute _ _
  | checkSigned => exact answered_execute _ _
  | setRot =>
      refine (readsBack_after fun _ => readsBack_after fun _ => readsBack_after fun _ =>
        readsBack_after fun _ => ?_ : ReadsBack (cmdSetRot ctx)).answered
      exact readsBack_bind readsBack_getCallback fun _ => answered_execute _ _
  | getFrame =>
      change Answered (cmdGetFrame ctx)
      dsimp only [cmdGetFrame]
      rw [← decimationOf]
      refine (readsBack_after fun _ => readsBack_after fun _ => readsBack_after fun _ =>
        readsBack_after fun sel => ?_ : ReadsBack _).answered
      refine readsBack_bind readsBack_getCallback fun cb => ?_
      by_cases hsel : 0 < sel
      · rw [if_pos hsel]
        exact answered_bind (answered_call rfl) fun _ => answered_bind (answered_call rfl) fun _ =>
          answered_logFrame _ _
      · rw [if_neg hsel]
        exact answered_logFrame _ _
  | testFrame => exact answered_pure _
  | setPid => exact answered_setPid ctx
  | setFir => exact answered_setFir ctx
  | setNco => exact answered_setNco ctx
  | configIo =>
      change Answered (cmdConfigIo stack ctx)
      dsimp only [cmdConfigIo]
      split_ifs
      · exact answered_pure _
      · exact answered_execute _ _
  | configDemod =>
      change Answered (cmdConfigDemod ctx)
      dsimp only [cmdConfigDemod]
      split_ifs
      · exact answered_pure _
      · exact answered_pure _
      · exact answered_execute _ _
  | sweepRamp => exact answered_sweepRamp ctx

end MixedPrecision

end Handlers

/-! ## Between the accesses -/

section Accesses

variable {rom : Nco.Rom} {b₀ b : Board} {g g' : Gpio}

/-- The core shows the registers of one register file or those of the other. -/
def Near (rom : Nco.Rom) (b₀ b : Board) (g : Gpio) : Prop :=
  ∀ n s, Passes rom n g s → s.config = b₀.config ∨ s.config = b.config

/-- A board that has caught up is near the same board with a word sent. -/
theorem CaughtUp.near {w : BitVec 32} (h : CaughtUp b w g.core) : Near rom b (b.send g.bus) g := by
  rintro n s ⟨ins, hins, rfl⟩
  exact config_passes rom h hins

/-- It stays near while clock periods pass. -/
theorem Near.passes (h : Near rom b₀ b g) {n : ℕ} (hpass : Passes rom n g g'.core)
    (hbus : g'.bus = g.bus) : Near rom b₀ b g' :=
  fun m s hs => h (n + m) s (hpass.trans hbus hs)

/-- One access.  After a callback has been read the core shows one register file only. -/
theorem near_step {c : Call} {r : c.Response} (hb : Represents rom b g) (hnear : Near rom b₀ b g)
    (h : slowGpio rom g c r g') :
    ∃ b₁ b', board b c r b' ∧ Represents rom b' g' ∧ Near rom b₁ b' g' ∧ (b₁ = b₀ ∨ b₁ = b) ∧
      ∀ pending, (pending = false → b₀ = b) → unread pending [⟨c, r⟩] = false → b₁ = b' := by
  rcases slowGpio_step hb h with ⟨b', hstep, hb'⟩
  cases c with
  | pdhSendCmd raw =>
      rcases h with ⟨⟨n, hn, hpass⟩, rfl⟩
      cases hstep
      exact ⟨b, _, rfl, hb', (hb.caughtUp hn hpass).near, .inr rfl,
        fun _ _ h => Bool.noConfusion (show true = false from h)⟩
  | pdhGetCallback =>
      rcases h with ⟨⟨n, hn, hpass⟩, hbus, -⟩
      have hcaughtUp := hb.caughtUp hn hpass
      have hnear' : Near rom b (b.send g'.bus) g' := hcaughtUp.near
      rw [hbus, hcaughtUp.send_eq] at hnear'
      rcases hstep with ⟨rfl, hanswers⟩
      exact ⟨b', b', ⟨rfl, hanswers⟩, hb', hnear', .inr rfl, fun _ _ _ => rfl⟩
  | _ =>
      rcases h with ⟨⟨n, hpass⟩, hbus⟩
      cases hstep
      exact ⟨b₀, b, rfl, hb', hnear.passes hpass hbus, .inl rfl, fun _ hquiet hread => hquiet hread⟩

/-- What the register file has after every beginning of some accesses, the core has in every clock
period after them. -/
theorem near_follows {I : Config → Prop} {tr : Trace} {pending : Bool} (hb : Represents rom b g)
    (hnear : Near rom b₀ b g) (hquiet : pending = false → b₀ = b) (hI₀ : I b₀.config)
    (hI : ∀ tr₁ tr₂ b₁, tr = tr₁ ++ tr₂ → Follows board b tr₁ b₁ → I b₁.config)
    (hfollows : Follows (slowGpio rom) g tr g') :
    ∃ b₁ b', Follows board b tr b' ∧ Represents rom b' g' ∧ Near rom b₁ b' g' ∧ I b₁.config ∧
      I b'.config ∧ (unread pending tr = false → b₁ = b') := by
  induction hfollows generalizing b₀ b pending with
  | nil g =>
      exact ⟨b₀, b, .nil b, hb, hnear, hI₀, hI [] [] b rfl (.nil b), hquiet⟩
  | cons first rest ih =>
      rcases near_step hb hnear first with ⟨b₁, b', hstep, hb', hnear', hb₁, hread⟩
      have hI₁ : I b₁.config := by
        rcases hb₁ with rfl | rfl
        · exact hI₀
        · exact hI [] _ _ rfl (.nil _)
      rcases ih hb' hnear' (hread pending hquiet) hI₁
          (fun tr₁ tr₂ b₂ hsplit hfollows => hI (_ :: tr₁) tr₂ b₂ (by rw [hsplit]; rfl)
            (.cons hstep hfollows)) with ⟨b₂, b'', hrest⟩
      exact ⟨b₂, b'', .cons hstep hrest.1, hrest.2⟩

end Accesses

/-! ## Texts -/

section Texts

variable {rom : Nco.Rom} {F : Type} [MixedPrecision F]

/-- The settings that can be in force while a text is served. -/
def Serving (F : Type) [MixedPrecision F] (stack : BitVec 32) (inbuff : List Char)
    (s x : Settings) : Prop :=
  match (loadContext (cString inbuff.dropLast) : Option (LoadedCtx F)) with
  | none => x = s
  | some ctx =>
      match findEntry ctx.name with
      | none => x = s
      | some e => if e.check ctx = .ok then Underway stack ctx.toCmdCtx s x e.func else x = s

/-- A request leaves no command unread. -/
theorem serve_answered (stack : BitVec 32) (inbuff : List Char) :
    Answered (Server.serve F stack inbuff) := by
  intro tr reply hrun
  cases hload : (loadContext (cString inbuff.dropLast) : Option (LoadedCtx F)) with
  | none =>
      rw [((performs_serve_none hload).mp hrun).1]
      rfl
  | some ctx =>
      rcases performs_serve_some hload hrun with ⟨e, r, -, hhandler, -⟩ | ⟨-, rfl, -⟩
      · exact handler_answered e.func stack ctx.toCmdCtx tr r hhandler
      · rfl

/-- No other settings are in force on the register file. -/
theorem serve_underway {stack : BitVec 32} {inbuff : List Char} {s : Settings} :
    Throughout board (fun b => settingsOf b.config = s) (Server.serve F stack inbuff)
      fun b => Serving F stack inbuff s (settingsOf b.config) := by
  intro b tr reply tr₁ tr₂ b₁ hs hrun hsplit hfollows
  have hsilent : tr = [] → settingsOf b₁.config = s := by
    rintro rfl
    rw [(List.append_eq_nil_iff.mp hsplit.symm).1] at hfollows
    cases hfollows
    exact hs
  unfold Serving
  cases hload : (loadContext (cString inbuff.dropLast) : Option (LoadedCtx F)) with
  | none => exact hsilent ((performs_serve_none hload).mp hrun).1
  | some ctx =>
      rcases performs_serve_some hload hrun with ⟨e, r, he, hhandler, -⟩ | ⟨hnone, hnil, -⟩
      · dsimp only
        rw [he.1]
        dsimp only
        rw [if_pos he.2]
        exact handler_underway e.func b tr r tr₁ tr₂ b₁ hs hhandler hsplit hfollows
      · dsimp only
        cases hentry : findEntry ctx.name with
        | none => exact hsilent hnil
        | some e =>
            dsimp only
            rw [if_neg fun hcheck => hnone e ⟨hentry, hcheck⟩]
            exact hsilent hnil

theorem caughtUp_heldInReset (rom : Nco.Rom) :
    CaughtUp resetBoard 0x80000000#32 (heldInReset rom) :=
  .inl ⟨by decide, rfl, inReset_step rom _ (by decide)⟩

/-- The callback of every command of some texts has been read. -/
theorem unread_requests (done : List (Request F)) :
    unread false (done.flatMap Request.trace) = false := by
  induction done with
  | nil => rfl
  | cons q done ih =>
      rw [List.flatMap_cons, unread_append, serve_answered _ _ _ _ q.served]
      exact ih

/-- After some texts from reset, the core shows the registers of the register file. -/
theorem near_requests (done : List (Request F)) {b : Board} {g g' : Gpio}
    (h : CaughtUp b g.bus g.core)
    (hfollows : Follows (slowGpio rom) g (done.flatMap Request.trace) g') :
    ∃ b', Follows board b (done.flatMap Request.trace) b' ∧ Represents rom b' g' ∧
      Near rom b' b' g' := by
  have hb : Represents rom b g := by
    rw [← h.send_eq]
    exact h.represents g.bus
  have hnear : Near rom b b g := by
    have hnear : Near rom b (b.send g.bus) g := h.near
    rwa [h.send_eq] at hnear
  rcases near_follows (I := fun _ => True) hb hnear (fun _ : false = false => rfl) trivial
    (fun _ _ _ _ _ => trivial) hfollows with ⟨b₁, b', hboard, hb', hnear', -, -, hsame⟩
  rw [hsame (unread_requests done)] at hnear'
  exact ⟨b', hboard, hb', hnear'⟩

/-- In every clock period after some texts and a beginning of the next one, from reset, the settings
in force are those that this text can have in force on what the texts before it have set. -/
theorem session_clockPeriods (done : List (Request F)) (q : Request F) {tr₁ tr₂ : Trace}
    (hsplit : q.trace = tr₁ ++ tr₂) {g : Gpio}
    (hfollows : Follows (slowGpio rom) ⟨heldInReset rom, 0x80000000#32⟩
      (done.flatMap Request.trace ++ tr₁) g) {n : ℕ} {s : State} (hpasses : Passes rom n g s) :
    Serving F q.stack q.inbuff (done.foldl (fun x q => q.settings x) Settings.reset)
      (settingsOf s.config) := by
  rcases follows_append.mp hfollows with ⟨g₁, hdone, hnow⟩
  rcases near_requests done (g := ⟨heldInReset rom, 0x80000000#32⟩) (caughtUp_heldInReset rom)
    hdone with ⟨b, hboard, hb, hnear⟩
  have hstore : settingsOf b.config = done.foldl (fun x q => q.settings x) Settings.reset :=
    requests_settings done hboard
  have hserving : ∀ tr₁' tr₂' b₁, tr₁ = tr₁' ++ tr₂' → Follows board b tr₁' b₁ →
      Serving F q.stack q.inbuff (done.foldl (fun x q => q.settings x) Settings.reset)
        (settingsOf b₁.config) := by
    intro tr₁' tr₂' b₁ hsplit' hfollows'
    have hbeginning : q.trace = tr₁' ++ (tr₂' ++ tr₂) := by rw [hsplit, hsplit', List.append_assoc]
    exact serve_underway b q.trace q.reply tr₁' _ b₁ hstore q.served hbeginning hfollows'
  rcases near_follows (I := fun c => Serving F q.stack q.inbuff
      (done.foldl (fun x q => q.settings x) Settings.reset) (settingsOf c)) hb hnear
    (fun _ : false = false => rfl) (hserving [] tr₁ b rfl (.nil b)) hserving hnow with
    ⟨b₁, b', -, -, hnear', hb₁, hb', -⟩
  rcases hnear' n s hpasses with hs | hs
  · rw [hs]
    exact hb₁
  · rw [hs]
    exact hb'

/-! ### The last of three texts -/

/-- However soon the clock period is after the third of the texts, it has the settings from before
that text or those after it. -/
theorem session_clockPeriods_threeTexts :
    ∃ (done : List (Request ℚ)) (q : Request ℚ) (g : Gpio),
      (done ++ [q]).map (fun q => (q.stack, q.inbuff)) =
        threeTexts.map (fun text => (0#32, text)) ∧
      Follows (slowGpio fun _ => 0#16) ⟨heldInReset fun _ => 0#16, 0x80000000#32⟩
        (done.flatMap Request.trace ++ q.trace) g ∧
      ∀ n s, Passes (fun _ => 0#16) n g s →
        settingsOf s.config = { Settings.reset with led := 5#8 } ∨
          settingsOf s.config = { Settings.reset with
            led := 5#8, dac1DatSel := 1#3, dac2DatSel := 0#3, pidDatSel := 2#3 } := by
  rcases exists_requests (F := ℚ) (fun _ => 0#16) 0#32 threeTexts
    ⟨heldInReset fun _ => 0#16, 0x80000000#32⟩ with ⟨requests, g, hsame, hfollows⟩
  rcases exists_of_map_eq_three hsame with ⟨q₁, q₂, q₃, rfl, h₁, h₂, h₃⟩
  have hsession : Follows (slowGpio fun _ => 0#16) ⟨heldInReset fun _ => 0#16, 0x80000000#32⟩
      ([q₁, q₂].flatMap Request.trace ++ q₃.trace) g := by
    simpa using hfollows
  refine ⟨[q₁, q₂], q₃, g, hsame, hsession, fun n s hpasses => ?_⟩
  have hserving := session_clockPeriods [q₁, q₂] q₃ (List.append_nil _).symm hsession hpasses
  simp only [Prod.mk.injEq] at h₁ h₂ h₃
  have hstore : ∀ ramp₁ ramp₂, (Settings.reset.serve ℚ 0#32 ramp₁ threeTexts[0]).serve ℚ 0#32 ramp₂
      threeTexts[1] = { Settings.reset with led := 5#8 } := by
    decide +kernel
  have hload : ∃ (ctx : LoadedCtx ℚ) (e : CmdEntry),
      loadContext (cString threeTexts[2].dropLast) = some ctx ∧
        findEntry ctx.name = some e ∧ e.check ctx = .ok ∧ e.func = .configIo ∧
          ({ Settings.reset with led := 5#8 } : Settings).apply 0#32 ctx.toCmdCtx true .configIo =
            { Settings.reset with
              led := 5#8, dac1DatSel := 1#3, dac2DatSel := 0#3, pidDatSel := 2#3 } := by
    refine ⟨_, _, rfl, rfl, ?_⟩
    decide +kernel
  rcases hload with ⟨ctx, e, hctx, he, hcheck, hfunc, happly⟩
  simp only [List.foldl_cons, List.foldl_nil, Request.settings, h₁, h₂, h₃] at hserving
  have hstored := hstore (fileOpened "sweep_log.csv" q₁.trace) (fileOpened "sweep_log.csv" q₂.trace)
  change Serving ℚ 0#32 threeTexts[2] ((Settings.reset.serve ℚ 0#32 _ threeTexts[0]).serve ℚ 0#32 _
    threeTexts[1]) _ at hserving
  rw [hstored] at hserving
  simp only [Serving, hctx, he, hcheck, hfunc, if_true, Underway] at hserving
  rw [← happly]
  exact hserving

end Texts

end Requests
end PoundDreverHall
