import PoundDreverHall.System.InterruptLine

/-!
# System - an interrupt is delivered

An interrupt of the core that finds the line low becomes an edge of the line, which the UIO device
counts.  While the device is neither enabled again nor read, it stays readable from then on.

Main results:

- Theorem {lit}`reports_run`: an interrupt line that rises makes the device readable.
- Theorem {lit}`exists_irqF2p_rises`: an interrupt of the core makes the line rise.
-/

namespace PoundDreverHall
namespace System

open Clocked PdhTop Server

/-! ## The device -/

/-- The device waits for an interrupt. -/
def Uio.Armed (u : Uio) : Prop :=
  u.enabled = true ∧ u.count = u.lastRead

/-- An interrupt has been counted and not read. -/
def Uio.Reports (u : Uio) : Prop :=
  u.lastRead < u.count

/-- An interrupt of an armed device is reported. -/
theorem Uio.Armed.interrupt {u : Uio} (h : u.Armed) : u.interrupt.Reports := by
  rw [Uio.interrupt, if_pos h.1]
  exact (Nat.lt_succ_of_le h.2.ge)

/-- A second one changes nothing. -/
theorem Uio.Reports.interrupt {u : Uio} (h : u.Reports) : u.interrupt.Reports := by
  rw [Uio.interrupt]
  split_ifs
  · exact Nat.lt_succ_of_lt h
  · exact h

/-- A device with something to report does not block `read`. -/
theorem Uio.Reports.readable {u : Uio} (h : u.Reports) : u.readable = true := by
  have hne : u.count ≠ u.lastRead := (ne_of_lt h).symm
  simpa [Uio.readable] using hne

section Device

variable {P : Params} {rom : Nco.Rom} {b₀ : Board P} {ms : ℕ → Move}

/-- The interrupt line rises in step {lit}`n`. -/
def lineRises (rom : Nco.Rom) (b₀ : Board P) (ms : ℕ → Move) (n : ℕ) : Bool :=
  irqF2p (run (Board.step rom) b₀ ms (n + 1)).fabric &&
    !irqF2p (run (Board.step rom) b₀ ms n).fabric

/-- The device counts the edges of the line, while it is neither enabled nor read. -/
theorem uio_succ {n : ℕ} (hn : ∀ e ∈ (ms n).calls, ∃ w, e = ⟨.pdhSendCmd w, ()⟩) :
    (run (Board.step rom) b₀ ms (n + 1)).uio =
      if lineRises rom b₀ ms n then (run (Board.step rom) b₀ ms n).uio.interrupt
      else (run (Board.step rom) b₀ ms n).uio := by
  rw [lineRises, run_succ]
  cases hm : ms n with
  | clock e => rfl
  | call c resp =>
      rcases hn ⟨c, resp⟩ (by simp [hm, Move.calls]) with ⟨w, hcall⟩
      cases hcall
      have hline : irqF2p (gpioWrite w (run (Board.step rom) b₀ ms n).fabric) =
          irqF2p (run (Board.step rom) b₀ ms n).fabric :=
        congrArg (BitVec.getLsbD · 2) (gpioWrite_line w _).2
      simp [Board.step, hline]

/-- An interrupt line that rises makes the device readable. -/
theorem reports_run {t n r : ℕ} (harmed : (run (Board.step rom) b₀ ms t).uio.Armed)
    (hcalls : ∀ k, t ≤ k → k < n → ∀ e ∈ (ms k).calls, ∃ w, e = ⟨.pdhSendCmd w, ()⟩)
    (htr : t ≤ r) (hrn : r < n) (hrises : lineRises rom b₀ ms r = true) :
    (run (Board.step rom) b₀ ms n).uio.Reports := by
  have hboth : ∀ m, t ≤ m → m ≤ n →
      (∀ k, t ≤ k → k < m → lineRises rom b₀ ms k = false) ∧
          (run (Board.step rom) b₀ ms m).uio.Armed ∨
        (run (Board.step rom) b₀ ms m).uio.Reports := by
    intro m htm hmn
    induction m, htm using Nat.le_induction with
    | base => exact .inl ⟨fun k htk hkt => absurd hkt (by omega), harmed⟩
    | succ m htm ih =>
        rw [uio_succ (hcalls m htm hmn)]
        cases hline : lineRises rom b₀ ms m with
        | false =>
            rcases ih (by omega) with ⟨hlow, hm⟩ | hm
            · refine .inl ⟨fun k htk hkm => ?_, hm⟩
              rcases Nat.lt_succ_iff_lt_or_eq.mp hkm with hlt | rfl
              · exact hlow k htk hlt
              · exact hline
            · exact .inr hm
        | true =>
            rcases ih (by omega) with ⟨-, hm⟩ | hm
            · exact .inr hm.interrupt
            · exact .inr hm.interrupt
  rcases hboth n (by omega) le_rfl with ⟨hlow, -⟩ | hreports
  · rw [hlow r htr hrn] at hrises
    cases hrises
  · exact hreports

end Device

/-! ## The line -/

section Line

variable {P : Params} (rom : Nco.Rom) {s : PdhTop.State P} {es : ℕ → Event}

/-- The events up to a step, and edges of both clocks from then on. -/
def fairAfter (es : ℕ → Event) (k n : ℕ) : Event :=
  if n < k then es n else .bothClk quietAdc readySlave

theorem fairAfter_of_lt {k n : ℕ} (hn : n < k) : fairAfter es k n = es n :=
  if_pos hn

/-- From then on both clocks have an edge at every event. -/
theorem fairAfter_of_le {k n : ℕ} (hn : k ≤ n) :
    fairAfter es k n = .bothClk quietAdc readySlave :=
  if_neg (by omega)

/-- Until then the run is the one before. -/
theorem run_fairAfter {k n : ℕ} (hn : n ≤ k) :
    run (PdhTop.step rom) s (fairAfter es k) n = run (PdhTop.step rom) s es n :=
  run_congr fun _ hj => fairAfter_of_lt (hj.trans_le hn)

/-- The fair rest keeps up when the beginning does. -/
theorem fclkKeepsUp_fairAfter {k : ℕ}
    (hkeeps : ∀ n ≤ k,
      waited (fun n => (es n).isPdhEdge) (fun n => (es n).isFclkEdge) n < 31) :
    FclkKeepsUp (fairAfter es k) := by
  intro n
  rcases Nat.lt_or_ge k n with hlt | hle
  · obtain ⟨m, rfl⟩ := Nat.exists_eq_add_of_lt hlt
    have hfar : (fairAfter es k (k + m)).isFclkEdge = true := by
      rw [fairAfter_of_le (Nat.le_add_right k m)]
      rfl
    rw [waited, if_pos hfar]
    omega
  · have hsame : waited (fun n => (fairAfter es k n).isPdhEdge)
        (fun n => (fairAfter es k n).isFclkEdge) n =
          waited (fun n => (es n).isPdhEdge) (fun n => (es n).isFclkEdge) n := by
      refine waited_congr fun j hj => ?_
      rw [fairAfter_of_lt (hj.trans_le hle)]
      exact ⟨rfl, rfl⟩
    rw [hsame]
    exact hkeeps n hle

theorem fclkEdges_fairAfter {k n : ℕ} (hn : n ≤ k) :
    fclkEdges (fairAfter es k) n = fclkEdges es n := by
  induction n with
  | zero => rfl
  | succ n ih =>
      have hbefore := ih (Nat.le_of_succ_le hn)
      simp only [fclkEdges] at hbefore ⊢
      rw [Nat.count_succ, Nat.count_succ, hbefore, fairAfter_of_lt hn]

/-- From a low line on, an interrupt of the core is followed by an edge of the line. -/
theorem exists_irqF2p_rises {k : ℕ}
    (hkeeps : ∀ n ≤ k, waited (fun n => (es n).isPdhEdge) (fun n => (es n).isFclkEdge) n < 31)
    (hstretch : s.irqStretchR = 0#5) (hsync : s.irqSyncR = 0#3) {p m : ℕ} (hpm : p < m)
    (hmk : m ≤ k) (hedge : (es p).isPdhEdge = true)
    (hirq : PdhCore.irqO (run (PdhTop.step rom) s es p).uPdhCore = true)
    (hedges : fclkEdges es (p + 1) + 3 ≤ fclkEdges es m) :
    ∃ q r, q ≤ r ∧ r < m ∧ PdhCore.irqO (run (PdhTop.step rom) s es q).uPdhCore = true ∧
      irqF2p (run (PdhTop.step rom) s es (r + 1)) = true ∧
      irqF2p (run (PdhTop.step rom) s es r) = false := by
  let line := interruptLine rom s (fairAfter es k)
  have hpulse : ∀ n < k, (line.near n = true ∧ line.pulse n = true) ↔
      (es n).isPdhEdge = true ∧
        PdhCore.irqO (run (PdhTop.step rom) s es n).uPdhCore = true := by
    intro n hn
    simp only [line, interruptLine, fairAfter_of_lt hn, run_fairAfter rom hn.le]
  have hsome : ∃ n, line.near n = true ∧ line.pulse n = true :=
    ⟨p, (hpulse p (hpm.trans_le hmk)).mpr ⟨hedge, hirq⟩⟩
  -- the first interrupt, which finds the line low
  have hle : Nat.find hsome ≤ p :=
    Nat.find_min' hsome ((hpulse p (hpm.trans_le hmk)).mpr ⟨hedge, hirq⟩)
  have hfirst := (hpulse _ (hle.trans_lt (hpm.trans_le hmk))).mp (Nat.find_spec hsome)
  have hzero : line.stretch 0 = 0 := congrArg BitVec.toNat hstretch
  have hlow : ∀ b ∈ line.chain 0, b = false := by
    change ∀ b ∈ syncChain s, b = false
    rw [syncChain, hsync]
    simp
  have hmono : fclkEdges es (Nat.find hsome + 1) ≤ fclkEdges es (p + 1) :=
    Nat.count_monotone _ (Nat.succ_le_succ hle)
  have hcount : fclkEdges (fairAfter es k) (Nat.find hsome + 1) + 3 ≤
      fclkEdges (fairAfter es k) m := by
    rw [fclkEdges_fairAfter (by omega), fclkEdges_fairAfter hmk]
    omega
  have hline : line.KeepsUp := fclkKeepsUp_fairAfter hkeeps
  rcases Crossing.exists_rises hline hzero hlow (fun n hn => Nat.find_min hsome hn)
    (Nat.find_spec hsome) (hle.trans_lt hpm) hcount with ⟨r, hqr, hrm, hrises⟩
  have hrises' : (irqF2p (run (PdhTop.step rom) s (fairAfter es k) (r + 1)) &&
      !irqF2p (run (PdhTop.step rom) s (fairAfter es k) r)) = true := hrises
  rw [run_fairAfter rom (by omega), run_fairAfter rom (by omega)] at hrises'
  simp only [Bool.and_eq_true, Bool.not_eq_true'] at hrises'
  exact ⟨Nat.find hsome, r, hqr, hrm, hfirst.2, hrises'⟩

end Line

end System
end PoundDreverHall
