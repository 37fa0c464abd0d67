import PoundDreverHall.Frame.Commands

/-!
# Frames - the frame of an order given at rest

Software finds the control registers settled and writes {lit}`CMD_IDLE` and
{lit}`CMD_GET_FRAME`, each with its strobe low and then high.  The core samples the
words in the order in which they are written, but it may miss some of them.  An edge of
the ready level still shows that a frame is complete that was ordered by the last word.

Main results:

- Theorem {lit}`Samples.step`: the words on their way stay in order.
- Theorem {lit}`frameComplete_of_edge`: before an edge of the ready level the last word
  was latched, and its frame was captured and read out.
-/

namespace PoundDreverHall
namespace PdhTop

open Clocked

namespace Control

/-! ## Rest -/

/-- No word is on its way, no frame is ordered, captured or read out, and the ready level
of the DMA controller has arrived. -/
structure Settled (c : Control) : Prop where
  coreRst : c.coreRst = .released
  bramRst : c.bramRst = .released
  dmaRst : c.dmaRst = .released
  axi1ffR : c.latch.axi1ffR = c.axiFromPs
  axi2ffR : c.latch.axi2ffR = c.axiFromPs
  axi3ffR : c.latch.axi3ffR = c.axiFromPs
  prevD : c.latch.uStrobeEdgeDetector.prevD = PdhCore.strobeBit c.axiFromPs
  free : c.orch.dmaStateR = .armed ∧ c.cmd ≠ .getFrame ∨ c.orch.dmaStateR = .stale
  bramEnableR : c.orch.bramEnableR = false
  bramEdgeAcquiredR : c.orch.bramEdgeAcquiredR = false
  bramEdge : c.bramEdge.prevD = false
  capturing : c.capturing = false
  dmaEnableR : c.orch.dmaEnableR = false
  enable1ff : c.enable1ff = false
  enable2ff : c.enable2ff = false
  enable3ff : c.enable3ff = false
  transferring : c.transferring = false
  ready : ReadyHigh c

instance (c : Control) : Decidable (ReadyHigh c) :=
  inferInstanceAs (Decidable (_ ∧ _ ∧ _ ∧ _))

section Settled

variable {c : Control} (h : Settled c)

include h

theorem Settled.sound : Sound c where
  bramRst := by rw [h.bramRst, h.coreRst]
  corePipe := by simp [h.coreRst, ResetSync.released]
  dmaPipe := by simp [h.dmaRst, ResetSync.released]
  coreReset := by simp [h.coreRst, ResetSync.released]
  dmaReset := by simp [h.dmaRst, ResetSync.released]

theorem Settled.quiet : Quiet c := by
  refine ⟨h.transferring, ?_, h.ready.rises, h.ready.leads⟩
  simp [EnableFalls, h.dmaEnableR, h.enable1ff, h.enable2ff, h.enable3ff]

/-- Settled control registers are in the first or in the last phase. -/
theorem Settled.exists_at :
    ∃ p, (p = .armed ∧ c.cmd ≠ .getFrame ∨ p = .stale) ∧ At c p := by
  rcases h.free with ⟨hst, hcmd⟩ | hst
  · exact ⟨.armed, .inl ⟨rfl, hcmd⟩, h.sound,
      ⟨hst, h.bramEnableR, h.bramEdge, h.bramEdgeAcquiredR, h.capturing⟩, h.quiet⟩
  · exact ⟨.stale, .inr rfl, h.sound, ⟨hst, h.bramEnableR, h.capturing⟩, h.quiet⟩

end Settled

/-! ## Words in order -/

/-- What the core has sampled of the bus are words up to number {lit}`a`, in order. -/
def Samples (word : ℕ → BitVec 32) (a : ℕ) (latch : PdhCore.Latch) : Prop :=
  ∃ i j k l, l ≤ k ∧ k ≤ j ∧ j ≤ i ∧ i ≤ a ∧ latch.axi1ffR = word i ∧ latch.axi2ffR = word j ∧
    latch.axi3ffR = word k ∧ latch.uStrobeEdgeDetector.prevD = PdhCore.strobeBit (word l)

section Samples

variable {c : Control} {word : ℕ → BitVec 32} {a b : ℕ}

theorem Samples.mono {latch : PdhCore.Latch} (h : Samples word a latch) (hab : a ≤ b) :
    Samples word b latch := by
  obtain ⟨i, j, k, l, hlk, hkj, hji, hia, hwords⟩ := h
  exact ⟨i, j, k, l, hlk, hkj, hji, hia.trans hab, hwords⟩

theorem Settled.samples (h : Settled c) (hbus : c.axiFromPs = word a) :
    Samples word a c.latch := by
  refine ⟨a, a, a, a, le_rfl, le_rfl, le_rfl, le_rfl, ?_, ?_, ?_, ?_⟩
  · rw [h.axi1ffR, hbus]
  · rw [h.axi2ffR, hbus]
  · rw [h.axi3ffR, hbus]
  · rw [h.prevD, hbus]

/-- One event keeps the samples in order. -/
theorem Samples.step (h : Samples word a c.latch) (hsync : c.coreRst.rstSyncR = false)
    (hbus : c.axiFromPs = word a) (e : Tick) : Samples word a (c.step e).latch := by
  have hpdh : ∀ last, Samples word a (c.pdhEdge last).latch := by
    intro last
    obtain ⟨i, j, k, l, hlk, hkj, hji, hia, h1, h2, h3, -⟩ := h
    refine ⟨a, i, j, k, hkj, hji, hia, le_rfl, ?_, ?_, ?_, ?_⟩ <;>
      simp [Control.pdhEdge, PdhCore.Latch.step, hsync, hbus, h1, h2, h3]
  cases e with
  | word w => exact h
  | fclk done => exact h
  | pdh last => exact hpdh last
  | both last done => exact hpdh last

end Samples

/-! ## The words of an order -/

/-- After any word come {lit}`CMD_IDLE` and {lit}`CMD_GET_FRAME`, each with its strobe low
and then high. -/
structure OrderWords (word : ℕ → BitVec 32) : Prop where
  low₁ : PdhCore.strobeBit (word 1) = false
  idle : PdhCore.cmdW (word 2) = .idle
  low₃ : PdhCore.strobeBit (word 3) = false
  getFrame : PdhCore.cmdW (word 4) = .getFrame

/-- A strobe that rises belongs to {lit}`CMD_IDLE`, or to {lit}`CMD_GET_FRAME` when there
are no other words on their way any more. -/
theorem OrderWords.of_edge {word : ℕ → BitVec 32} (hw : OrderWords word) {a : ℕ} (ha : a ≤ 4)
    {latch : PdhCore.Latch} (h : Samples word a latch) (hedge : latch.strobeEdgeW = true) :
    latch.axi3ffR = word 2 ∨
      a = 4 ∧ latch.axi1ffR = word 4 ∧ latch.axi2ffR = word 4 ∧ latch.axi3ffR = word 4 := by
  obtain ⟨i, j, k, l, hlk, hkj, hji, hia, h1, h2, h3, h4⟩ := h
  obtain ⟨hhigh, hlow⟩ := (PosedgeDetector.q_eq_true_iff _ _).mp hedge
  rw [h3] at hhigh
  rw [h4] at hlow
  have hne : l ≠ k := by
    rintro rfl
    rw [hhigh] at hlow
    cases hlow
  have hk₁ : k ≠ 1 := by
    rintro rfl
    rw [hw.low₁] at hhigh
    cases hhigh
  have hk₃ : k ≠ 3 := by
    rintro rfl
    rw [hw.low₃] at hhigh
    cases hhigh
  rcases (by omega : k = 2 ∨ k = 4) with rfl | rfl
  · exact .inl h3
  · obtain rfl : j = 4 := by omega
    obtain rfl : i = 4 := by omega
    exact .inr ⟨by omega, h1, h2, h3⟩

/-- No command of the order raises an interrupt when its strobe rises. -/
theorem OrderWords.dmaReadyEdgeW_of_nextIrqR {word : ℕ → BitVec 32} (hw : OrderWords word) {a : ℕ}
    (ha : a ≤ 4) {c : Control} (h : Samples word a c.latch)
    (hirq : PdhCore.nextIrqR c.coreRst.rstSyncR c.latch c.orch = true) :
    c.orch.dmaReadyEdgeW = true := by
  have hquiet : ¬(c.latch.strobeEdgeW = true ∧ PdhCore.cmdIncomingW c.latch ≠ .idle ∧
      PdhCore.cmdIncomingW c.latch ≠ .getFrame) := by
    rintro ⟨hedge, hidle, hframe⟩
    rw [PdhCore.cmdIncomingW] at hidle hframe
    rcases hw.of_edge ha h hedge with hword | ⟨-, -, -, hword⟩
    · exact hidle (by rw [hword, hw.idle])
    · exact hframe (by rw [hword, hw.getFrame])
  by_contra hready
  simp [PdhCore.nextIrqR, hquiet, hready] at hirq

/-- The word is on the bus, has been sampled, and is executed. -/
structure Executes (w : BitVec 32) (c : Control) : Prop where
  axiFromPs : c.axiFromPs = w
  axi1ffR : c.latch.axi1ffR = w
  axi2ffR : c.latch.axi2ffR = w
  axi3ffR : c.latch.axi3ffR = w
  prevD : c.latch.uStrobeEdgeDetector.prevD = PdhCore.strobeBit w
  axiFromPsR : c.latch.axiFromPsR = w

section Executes

variable {c : Control} {w : BitVec 32}

/-- A word is executed from the edge on that finds it everywhere. -/
theorem executes_pdhEdge {latch : PdhCore.Latch} (hlatch : latch = c.latch.step false c.axiFromPs)
    (hbus : c.axiFromPs = w) (h1 : c.latch.axi1ffR = w) (h2 : c.latch.axi2ffR = w)
    (h3 : c.latch.axi3ffR = w)
    (hnext : c.latch.strobeEdgeW = true ∨ c.latch.axiFromPsR = w) :
    latch.axi1ffR = w ∧ latch.axi2ffR = w ∧ latch.axi3ffR = w ∧
      latch.uStrobeEdgeDetector.prevD = PdhCore.strobeBit w ∧ latch.axiFromPsR = w := by
  subst hlatch
  refine ⟨hbus, h1, h2, ?_, ?_⟩
  · simp [PdhCore.Latch.step, h3]
  · simp only [PdhCore.Latch.step, PdhCore.Latch.nextAxiFromPsW, Bool.false_eq_true, if_false]
    split_ifs with hedge
    · exact h3
    · exact hnext.resolve_left hedge

theorem Executes.step (h : Executes w c) (hsync : c.coreRst.rstSyncR = false) (e : Tick)
    (hbus : (c.step e).axiFromPs = w) : Executes w (c.step e) := by
  have hpdh := executes_pdhEdge rfl h.axiFromPs h.axi1ffR h.axi2ffR h.axi3ffR (.inr h.axiFromPsR)
  obtain ⟨h1, h2, h3, h4, h5⟩ := hpdh
  cases e with
  | word v => exact ⟨hbus, h.axi1ffR, h.axi2ffR, h.axi3ffR, h.prevD, h.axiFromPsR⟩
  | fclk done => exact ⟨hbus, h.axi1ffR, h.axi2ffR, h.axi3ffR, h.prevD, h.axiFromPsR⟩
  | pdh last =>
      refine ⟨hbus, ?_, ?_, ?_, ?_, ?_⟩ <;>
        simpa only [Control.step, Control.pdhEdge, hsync]
  | both last done =>
      refine ⟨hbus, ?_, ?_, ?_, ?_, ?_⟩ <;>
        simpa only [Control.step, Control.pdhEdge, hsync]

end Executes

end Control

/-! ## Runs -/

/-- The run starts settled, and before event {lit}`n` the software has written the words
of an order up to number {lit}`a n`. -/
structure OrderRun {P : Params} (rom : Nco.Rom) (s₀ : State P) (ins : ℕ → Event)
    (word : ℕ → BitVec 32) (a : ℕ → ℕ) : Prop where
  settled : (control s₀).Settled
  words : Control.OrderWords word
  rstBit : PdhCore.rstBit s₀.axiFromPs = false
  noReset : ∀ n, (ins n).NoReset
  bus : ∀ n, (run (step rom) s₀ ins n).axiFromPs = word (a n)
  mono : Monotone a
  le : ∀ n, a n ≤ 4

namespace OrderRun

variable {P : Params} {rom : Nco.Rom} {s₀ : State P} {ins : ℕ → Event} {word : ℕ → BitVec 32}
  {a : ℕ → ℕ} (h : OrderRun rom s₀ ins word a)

include h

theorem control_succ (n : ℕ) :
    control (run (step rom) s₀ ins (n + 1)) =
      (control (run (step rom) s₀ ins n)).step (ticks rom s₀ ins n) :=
  control_step (rstBit_run rom h.rstBit h.noReset n) rom (h.noReset n)

theorem coreRst (n : ℕ) : (control (run (step rom) s₀ ins n)).coreRst = .released := by
  induction n with
  | zero => exact h.settled.coreRst
  | succ n ih =>
      rw [h.control_succ]
      cases ticks rom s₀ ins n <;>
        simp only [Control.step, Control.pdhEdge, Control.fclkEdge, ih,
          ResetSync.clock_released]

theorem rstSyncR (n : ℕ) : (control (run (step rom) s₀ ins n)).coreRst.rstSyncR = false := by
  rw [h.coreRst]
  rfl

theorem samples (n : ℕ) :
    Control.Samples word (a n) (control (run (step rom) s₀ ins n)).latch := by
  induction n with
  | zero => exact h.settled.samples (h.bus 0)
  | succ n ih =>
      rw [h.control_succ]
      exact (ih.step (h.rstSyncR n) (h.bus n) _).mono (h.mono (Nat.le_succ n))

/-- Only an edge of the ready level raises the interrupt. -/
theorem dmaReadyEdgeW_of_nextIrqR {n : ℕ}
    (hirq : PdhCore.nextIrqR (run (step rom) s₀ ins n).uPdhCore.rst.rstSyncR
      (run (step rom) s₀ ins n).uPdhCore.latch (run (step rom) s₀ ins n).uPdhCore.orch = true) :
    (control (run (step rom) s₀ ins n)).orch.dmaReadyEdgeW = true :=
  h.words.dmaReadyEdgeW_of_nextIrqR (h.le n) (h.samples n) hirq

/-- A latched {lit}`CMD_GET_FRAME` is the last word, which is executed from then on. -/
theorem executes {l : ℕ} {w : BitVec 32} (hlatch : Latches rom s₀ ins l w)
    (hw : PdhCore.cmdW w = .getFrame) :
    w = word 4 ∧ a l = 4 ∧
      ∀ n, l < n → (control (run (step rom) s₀ ins n)).Executes (word 4) := by
  obtain ⟨hedge, -, hload⟩ := hlatch
  obtain ⟨hstrobe, haxi3⟩ : (run (step rom) s₀ ins l).uPdhCore.latch.strobeEdgeW = true ∧
      (run (step rom) s₀ ins l).uPdhCore.latch.axi3ffR = w := by
    simpa [PdhCore.load] using hload
  rcases h.words.of_edge (h.le l) (h.samples l) hstrobe with hidle | ⟨hal, h1, h2, h3⟩
  · have hsame : w = word 2 := haxi3.symm.trans hidle
    rw [hsame, h.words.idle] at hw
    cases hw
  have hbus : ∀ n, l ≤ n → (control (run (step rom) s₀ ins n)).axiFromPs = word 4 := by
    intro n hln
    have hmono := h.mono hln
    have hle := h.le n
    rw [← show a n = 4 by omega]
    exact h.bus n
  refine ⟨haxi3.symm.trans h3, hal, ?_⟩
  intro n hln
  induction n, hln using Nat.le_induction with
  | base =>
      rcases control_step_of_pdhEdge rom (rstBit_run rom h.rstBit h.noReset l) hedge with
        ⟨last, -, hnext⟩
      have hpdh := Control.executes_pdhEdge (hnext.trans (by rw [← h.rstSyncR l]; rfl))
        (hbus l le_rfl) h1 h2 h3 (.inl hstrobe)
      obtain ⟨k1, k2, k3, k4, k5⟩ := hpdh
      exact ⟨hbus (l + 1) (Nat.le_succ l), k1, k2, k3, k4, k5⟩
  | succ n hln ih =>
      have hnext := hbus (n + 1) (by omega)
      rw [h.control_succ] at hnext ⊢
      exact ih.step (h.rstSyncR n) _ hnext

/-- A {lit}`CMD_GET_FRAME` that replaces another command was latched in between. -/
theorem exists_latches_getFrame {v o : ℕ} (hvo : v ≤ o)
    (hbefore : (control (run (step rom) s₀ ins v)).cmd ≠ .getFrame)
    (hafter : (control (run (step rom) s₀ ins o)).cmd = .getFrame) :
    ∃ l w, v ≤ l ∧ l < o ∧ Latches rom s₀ ins l w ∧ PdhCore.cmdW w = .getFrame := by
  induction o, hvo using Nat.le_induction with
  | base => exact absurd hafter hbefore
  | succ o hvo ih =>
      by_cases hcmd : (control (run (step rom) s₀ ins o)).cmd = .getFrame
      · rcases ih hcmd with ⟨l, w, hvl, hlo, hlatch⟩
        exact ⟨l, w, hvl, Nat.lt_succ_of_lt hlo, hlatch⟩
      · have hbit := rstBit_run rom h.rstBit h.noReset o
        have hchange : (step rom (ins o) (run (step rom) s₀ ins o)).uPdhCore.cmd ≠
            (run (step rom) s₀ ins o).uPdhCore.cmd := by
          intro hsame
          exact hcmd (hsame.symm.trans hafter)
        rcases load_of_cmd_step hbit rom (h.noReset o) (h.rstSyncR o) hchange with
          ⟨hedge, w, hload, hw⟩
        exact ⟨o, w, hvo, Nat.lt_succ_self o, ⟨hedge, h.rstSyncR o, hload⟩, hw.trans hafter⟩

/-- Without a transfer the ready level stays high, and has no edge. -/
theorem exists_transferring {i : ℕ}
    (hedge : (control (run (step rom) s₀ ins i)).orch.dmaReadyEdgeW = true) :
    ∃ j ≤ i, (control (run (step rom) s₀ ins j)).transferring = true := by
  by_contra hnone
  push Not at hnone
  have hready : ∀ j ≤ i, Control.ReadyHigh (control (run (step rom) s₀ ins j)) := by
    intro j hj
    induction j with
    | zero => exact h.settled.ready
    | succ j ih =>
        have hidle := eq_false_of_ne_true (hnone j (by omega))
        rw [h.control_succ]
        exact (ih (by omega)).step (h.rstSyncR j) hidle _
  have hnoedge := (hready i le_rfl).falls.noEdge
  rw [hedge] at hnoedge
  cases hnoedge

end OrderRun

/-! ## The frame of the order -/

/-- After the order latched at {lit}`l` one frame was captured and read out before event
{lit}`n`, and no other capture or read-out was started. -/
def FrameComplete {P : Params} (rom : Nco.Rom) (s₀ : State P) (ins : ℕ → Event) (l n : ℕ) : Prop :=
  ∃ c d t u, l < c ∧ c < d ∧ d < t ∧ t < u ∧ u < n ∧
    Starts (captureLevel rom s₀ ins) c ∧ Ends (captureLevel rom s₀ ins) d ∧
    Starts (transferLevel rom s₀ ins) t ∧ Ends (transferLevel rom s₀ ins) u ∧
    (∀ j, l ≤ j → j < n → Starts (captureLevel rom s₀ ins) j → j = c) ∧
    ∀ j, l ≤ j → j < n → Starts (transferLevel rom s₀ ins) j → j = t

section Levels

variable {P : Params} {rom : Nco.Rom} {s₀ : State P} {ins : ℕ → Event} {p : Phase} {m : ℕ → ℕ}
  (hat : ∀ n, Control.At (control (run (step rom) s₀ ins n)) (Phase.next^[m n] p))

include hat

theorem captureLevel_iff_index (n : ℕ) :
    captureLevel rom s₀ ins n = true ↔ (p.index + m n) % 9 = 3 :=
  (hat n).capturing_iff.trans (iterate_eq_iff p .capturing (m n))

theorem transferLevel_iff_index (n : ℕ) :
    transferLevel rom s₀ ins n = true ↔ (p.index + m n) % 9 = 6 :=
  (hat n).transferring_iff.trans (iterate_eq_iff p .transferring (m n))

end Levels

section Moves

variable {P : Params} {rom : Nco.Rom} {s₀ : State P} {ins : ℕ → Event} {word : ℕ → BitVec 32}
  {a : ℕ → ℕ} {p : Phase} {m : ℕ → ℕ} (hm : Held m)
  (hat : ∀ n, Control.At (control (run (step rom) s₀ ins n)) (Phase.next^[m n] p))
  (hleave : ∀ n, m (n + 1) = m n + 1 →
    Control.MayLeave (control (run (step rom) s₀ ins n)) (Phase.next^[m n] p))

include hm

/-- The counter of the phases. -/
theorem index_succ (n : ℕ) :
    p.index + m (n + 1) = p.index + m n ∨ p.index + m (n + 1) = p.index + m n + 1 := by
  rcases hm.succ n with hstay | hmove <;> omega

include hat

/-- Before an edge of the ready level a transfer has ended. -/
theorem exists_transfer_end (h : OrderRun rom s₀ ins word a) {i : ℕ}
    (hedge : (control (run (step rom) s₀ ins i)).orch.dmaReadyEdgeW = true) :
    ∃ u < i, (p.index + m u) % 9 = 6 ∧ m (u + 1) = m u + 1 := by
  rcases h.exists_transferring hedge with ⟨j, hji, hbusy⟩
  have hphase : (p.index + m j) % 9 = 6 :=
    (iterate_eq_iff p .transferring (m j)).mp ((hat j).transferring_iff.mp hbusy)
  have hlt : m j < m i := by
    rcases Nat.eq_or_lt_of_le (hm.monotone hji) with hsame | hlt
    · -- no edge during the transfer
      have hi : Phase.next^[m i] p = .transferring := by
        rw [← hsame]
        exact (iterate_eq_iff p .transferring (m j)).mpr hphase
      have hreadOut := (hat i).readOut
      rw [hi] at hreadOut
      exact absurd hreadOut.2.2.noEdge (by rw [hedge]; decide)
    · exact hlt
  rcases hm.exists_move hlt with ⟨u, hui, hu, hu'⟩
  exact ⟨u, hui, by rw [hu, hphase], by omega⟩

include hleave

omit hm hat in
/-- The round ends with another command. -/
theorem released_of_move {v : ℕ} (hphase : (p.index + m v) % 9 = 8) (hv : m (v + 1) = m v + 1) :
    (control (run (step rom) s₀ ins v)).cmd ≠ .getFrame := by
  have hrelease := hleave v hv
  rwa [(iterate_eq_iff p .stale (m v)).mpr hphase] at hrelease

omit hat in
/-- While the order is executed, no phase is entered twice. -/
theorem eq_of_same_phase {l : ℕ}
    (hcmd : ∀ n, l < n → (control (run (step rom) s₀ ins n)).cmd = .getFrame) {j k : ℕ}
    (hj : l ≤ j) (hk : l ≤ k) (hmod : (p.index + m j) % 9 = (p.index + m k) % 9)
    (hne : (p.index + m j) % 9 ≠ 8) (hj' : m (j + 1) = m j + 1) (hk' : m (k + 1) = m k + 1) :
    j = k := by
  -- a round between two moves would release the order
  have hround : ∀ {j k}, l ≤ j → (p.index + m j) % 9 = (p.index + m k) % 9 →
      (p.index + m j) % 9 ≠ 8 → ¬m j < m k := by
    intro j k hj hmod hne hlt
    rcases hm.exists_move (show m j + 8 - (p.index + m j) % 9 < m k by omega) with
      ⟨v, -, hv, hv'⟩
    have hjv : j < v := hm.move_lt (by omega)
    exact released_of_move hleave (by omega) (by omega) (hcmd v (by omega))
  have hsame : m j = m k := by
    have hjk := hround hj hmod hne
    have hkj := hround hk hmod.symm (by rwa [← hmod])
    omega
  rcases Nat.lt_trichotomy j k with hlt | heq | hgt
  · have hle : m (j + 1) ≤ m k := hm.monotone hlt
    omega
  · exact heq
  · have hle : m (k + 1) ≤ m j := hm.monotone hgt
    omega

omit hat in
/-- The order of a frame was preceded by another command. -/
theorem exists_other_command (hp : p = .armed ∧ (control s₀).cmd ≠ .getFrame ∨ p = .stale)
    {o : ℕ} (ho : (p.index + m o) % 9 = 0) (ho' : m (o + 1) = m o + 1) :
    ∃ v ≤ o, (control (run (step rom) s₀ ins v)).cmd ≠ .getFrame := by
  by_cases hzero : m o = 0
  · rcases hp with ⟨-, hcmd⟩ | rfl
    · exact ⟨0, Nat.zero_le o, hcmd⟩
    · rw [hzero] at ho
      cases ho
  · rcases hm.exists_move (show m o - 1 < m o by omega) with ⟨v, hvo, hv, hv'⟩
    exact ⟨v, hvo.le, released_of_move hleave (by omega) (by omega)⟩

/-- The transfer that ended before an edge of the ready level is that of the order. -/
theorem frameComplete_of_moves (h : OrderRun rom s₀ ins word a)
    (hp : p = .armed ∧ (control s₀).cmd ≠ .getFrame ∨ p = .stale) {i n : ℕ} (hin : i ≤ n)
    (hedge : (control (run (step rom) s₀ ins i)).orch.dmaReadyEdgeW = true) :
    ∃ l < i, a l = 4 ∧ Latches rom s₀ ins l (word 4) ∧ FrameComplete rom s₀ ins l n := by
  rcases exists_transfer_end hm hat h hedge with ⟨u, hui, hu, hu'⟩
  have hpast : 6 ≤ m u := by
    rcases hp with ⟨rfl, -⟩ | rfl
    · rw [show Phase.armed.index = 0 from rfl] at hu
      omega
    · rw [show Phase.stale.index = 8 from rfl] at hu
      omega
  rcases hm.exists_move (show m u - 1 < m u by omega) with ⟨t, htu, ht, ht'⟩
  rcases hm.exists_move (show m u - 3 < m u by omega) with ⟨d, hdu, hd, hd'⟩
  rcases hm.exists_move (show m u - 4 < m u by omega) with ⟨c, hcu, hc, hc'⟩
  rcases hm.exists_move (show m u - 6 < m u by omega) with ⟨o, hou, ho, ho'⟩
  have hoc : o < c := hm.move_lt (by omega)
  have hcd : c < d := hm.move_lt (by omega)
  have hdt : d < t := hm.move_lt (by omega)
  -- the order follows another command, so it was latched in this run
  have horder := hleave o (by omega)
  have hphase : (p.index + m o) % 9 = Phase.armed.index := by
    rw [show Phase.armed.index = 0 from rfl]
    omega
  rw [(iterate_eq_iff p .armed (m o)).mpr hphase] at horder
  rcases exists_other_command hm hleave hp hphase (by omega) with ⟨v, hvo, hother⟩
  rcases h.exists_latches_getFrame hvo hother horder.2 with ⟨l, w, -, hlo, hlatch, hw⟩
  obtain ⟨rfl, hal, hexecutes⟩ := h.executes hlatch hw
  have hcmd : ∀ n, l < n → (control (run (step rom) s₀ ins n)).cmd = .getFrame := by
    intro n hln
    rw [Control.cmd, (hexecutes n hln).axiFromPsR, hw]
  have hcapture := fun j => captureLevel_iff_index hat j
  have htransfer := fun j => transferLevel_iff_index hat j
  have hf := index_succ (p := p) hm
  have hstartC : Starts (captureLevel rom s₀ ins) c :=
    (starts_iff_move hf (by decide) hcapture c).mpr (by omega)
  have hstartT : Starts (transferLevel rom s₀ ins) t :=
    (starts_iff_move hf (by decide) htransfer t).mpr (by omega)
  refine ⟨l, by omega, hal, hlatch, c, d, t, u, by omega, hcd, hdt, htu, by omega, hstartC,
    (ends_iff_move hf hcapture d).mpr (by omega), hstartT,
    (ends_iff_move hf htransfer u).mpr (by omega), ?_, ?_⟩
  · intro j hlj _ hstart
    obtain ⟨hj, hj'⟩ := (starts_iff_move hf (by decide) hcapture j).mp hstart
    exact eq_of_same_phase hm hleave hcmd hlj (by omega) (by omega) (by omega) (by omega)
      (by omega)
  · intro j hlj _ hstart
    obtain ⟨hj, hj'⟩ := (starts_iff_move hf (by decide) htransfer j).mp hstart
    exact eq_of_same_phase hm hleave hcmd hlj (by omega) (by omega) (by omega) (by omega)
      (by omega)

end Moves

/-- An edge of the ready level shows that the frame of the order is complete. -/
theorem frameComplete_of_edge {P : Params} {rom : Nco.Rom} {s₀ : State P} {ins : ℕ → Event}
    {word : ℕ → BitVec 32} {a : ℕ → ℕ} (h : OrderRun rom s₀ ins word a) {i n : ℕ} (hin : i ≤ n)
    (hedge : (control (run (step rom) s₀ ins i)).orch.dmaReadyEdgeW = true) :
    ∃ l < i, a l = 4 ∧ Latches rom s₀ ins l (word 4) ∧ FrameComplete rom s₀ ins l n := by
  rcases h.settled.exists_at with ⟨p, hp, hat₀⟩
  have hmoves : ∃ m, Held m ∧
      (∀ n, Control.At (control (run (step rom) s₀ ins n)) (Phase.next^[m n] p)) ∧
      ∀ n, m (n + 1) = m n + 1 →
        Control.MayLeave (control (run (step rom) s₀ ins n)) (Phase.next^[m n] p) := by
    apply Clocked.exists_moves hat₀
    intro n p hn
    rw [h.control_succ]
    exact Control.phase_step hn _
  rcases hmoves with ⟨m, hm, hat, hleave⟩
  exact frameComplete_of_moves hm hat hleave h hp hin hedge

end PdhTop
end PoundDreverHall
