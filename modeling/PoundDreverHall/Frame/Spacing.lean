import PoundDreverHall.Clocked.Sampling
import PoundDreverHall.Frame.Progress

/-!
# Frames - spacing of the captured samples

The write enable stays on for the whole capture, so an address holds the last word
that was on the input while it was selected.  That word is a whole number of
decimation periods away from the first one, except at the last address: the
controller leaves it after a single cycle.

Main results:

- Theorem {lit}`capturing_run`: registers and memory in each cycle of a capture.
- Theorem {lit}`capturesEvenly_iff`: the samples are evenly spaced exactly when the last
  one does not show the difference.
-/

namespace PoundDreverHall
namespace BramController

open Clocked

variable {P : Params}

/-! ## Controller and memory -/

/-- The controller with the memory it writes. -/
structure Capture (P : Params) where
  ctrl : State P
  mem : DcBram.Mem P.aw

/-- One edge of {lit}`pdh_clk` on both. -/
def edge (i : Input) (c : Capture P) : Capture P where
  ctrl := step i c.ctrl
  mem := stepMem i c.ctrl c.mem

/-- An enable edge reaches a controller that waits for one, and no reset follows. -/
structure Starts (ins : ℕ → Input) (c : Capture P) : Prop where
  rst : c.ctrl.rst = .released
  idle : c.ctrl.stateR = .idle
  enable : enableSyncEdgeW (ins 0) c.ctrl = true
  noReset : ∀ n, (ins n).rstI = false

/-- The decimation code that the enable edge takes over. -/
def spacing (ins : ℕ → Input) : ℕ :=
  (ins 0).decimationCodeI.toNat

/-- When {lit}`bram_ready_o` returns high, every address has been written and holds the
input of its own multiple of the spacing, counted from the first capture cycle. -/
def CapturesEvenly (ins : ℕ → Input) (c : Capture P) : Prop :=
  ∃ n, 0 < n ∧
    (∀ m, 0 < m → m < n → bramReadyO (run edge c ins m).ctrl = false) ∧
    bramReadyO (run edge c ins n).ctrl = true ∧
    (∀ k < P.depth, ∃ m < n, bramWeW (run edge c ins m).ctrl = true ∧
      (run edge c ins m).ctrl.addrR.toNat = k) ∧
    ∀ k < P.depth,
      (run edge c ins n).mem (BitVec.ofNat P.aw k) = (ins (1 + spacing ins * k)).din

/-! ## One capture -/

/-- The registers in capture cycle {lit}`n`. -/
structure Capturing (d n : ℕ) (s : State P) : Prop where
  rst : s.rst = .released
  stateR : s.stateR = .captureData
  addrR : s.addrR.toNat = n ⌈/⌉ d
  countR : s.countR.toNat = n % d
  decimationCodeR : s.decimationCodeR.toNat = d

section Step

variable {s : State P} {i : Input} {d n : ℕ}

theorem Starts.capturing {ins : ℕ → Input} {c : Capture P} (h : Starts ins c) :
    Capturing (spacing ins) 0 (step (ins 0) c.ctrl) := by
  have hedge := h.enable
  constructor <;>
    simp [step, posedge, h.noReset 0, h.rst, ResetSync.released, ResetSync.clock, nextStateW,
      nextAddrW, nextCountW, nextDecimationCodeW, h.idle, hedge, spacing]

/-- The count wraps when it has reached the code less one. -/
theorem Capturing.nextCountW_toNat (h : Capturing d n s) (hd : 0 < d) :
    (nextCountW s).toNat = (n + 1) % d := by
  have hcode := s.decimationCodeR.isLt
  have hlt := Nat.mod_lt n hd
  have hpred : (s.decimationCodeR.setWidth 32 - 1#32).toNat = d - 1 := by
    have hle := h.decimationCodeR
    rw [BitVec.toNat_sub_of_le]
    · simp only [BitVec.toNat_setWidth, BitVec.toNat_ofNat]
      omega
    · rw [BitVec.le_def]
      simp only [BitVec.toNat_setWidth, BitVec.toNat_ofNat]
      omega
  have hcount : (s.countR.setWidth 32).toNat = n % d := by
    have hlt' := s.countR.isLt
    rw [BitVec.toNat_setWidth, h.countR]
    exact Nat.mod_eq_of_lt (by rw [h.countR] at hlt'; omega)
  simp only [nextCountW, h.stateR, BitVec.le_def, hpred, hcount]
  split_ifs with hwrap
  · rw [← Nat.mod_add_mod, show n % d + 1 = d by omega, Nat.mod_self]
    rfl
  · have hsucc : (n + 1) % d = n % d + 1 := by
      rw [← Nat.mod_add_mod, Nat.mod_eq_of_lt (by omega)]
    have hle := h.decimationCodeR
    rw [BitVec.toNat_add, h.countR, hsucc]
    simp only [BitVec.toNat_ofNat]
    omega

/-- The address advances when the count is zero. -/
theorem Capturing.nextAddrW_toNat (h : Capturing d n s) (hd : 0 < d)
    (hroom : n ⌈/⌉ d + 1 < 2 ^ P.aw) : (nextAddrW s).toNat = (n + 1) ⌈/⌉ d := by
  have hone : (1 : BitVec P.aw).toNat = 1 := Nat.mod_eq_of_lt (show 1 < 2 ^ P.aw by omega)
  have hzero : s.countR = 0#22 ↔ n % d = 0 := by
    rw [← h.countR]
    exact ⟨fun heq => by rw [heq]; rfl, fun heq => BitVec.eq_of_toNat_eq heq⟩
  simp only [nextAddrW, h.stateR, hzero, ceilDiv_succ hd]
  split_ifs with hmod
  · rw [BitVec.toNat_add, hone, h.addrR]
    exact Nat.mod_eq_of_lt hroom
  · exact h.addrR

theorem Capturing.lastAddr_iff (h : Capturing d n s) :
    lastAddr s = true ↔ n ⌈/⌉ d = P.depth - 1 := by
  rw [lastAddr, h.addrR, beq_iff_eq]

/-- One capture cycle before the last address. -/
theorem Capturing.step (h : Capturing d n s) (hd : 0 < d) (hdepth : P.depth = 2 ^ P.aw)
    (hi : i.rstI = false) (hbefore : n ⌈/⌉ d < P.depth - 1) :
    Capturing d (n + 1) (BramController.step i s) := by
  have hlast : lastAddr s = false := by
    apply eq_false_of_ne_true
    intro hend
    rw [h.lastAddr_iff] at hend
    omega
  rw [step_capturing h.rst hi h.stateR hlast]
  exact
    { rst := h.rst
      stateR := rfl
      addrR := h.nextAddrW_toNat hd (by omega)
      countR := h.nextCountW_toNat hd
      decimationCodeR := h.decimationCodeR }

/-- At the last address the capture ends at once. -/
theorem Capturing.step_last (h : Capturing d n s) (hi : i.rstI = false)
    (hlast : n ⌈/⌉ d = P.depth - 1) : (BramController.step i s).stateR = .idle := by
  simp [BramController.step, posedge, hi, h.rst, ResetSync.released, nextStateW, h.stateR,
    h.lastAddr_iff.mpr hlast]

end Step

/-! ## The whole capture -/

section Run

variable {ins : ℕ → Input} {c : Capture P} (h : Starts ins c) (hd : 0 < spacing ins)
  (hdepth : P.depth = 2 ^ P.aw) (htwo : 2 ≤ P.depth)

/-- The capture cycle in which the last address is reached and left. -/
def lastCycle (P : Params) (d : ℕ) : ℕ :=
  d * (P.depth - 2) + 1

include hd htwo in
theorem lastCycle_slot : lastCycle P (spacing ins) ⌈/⌉ spacing ins = P.depth - 1 := by
  rw [lastCycle, ceilDiv_succ hd, if_pos (Nat.mul_mod_right _ _), ← smul_eq_mul (spacing ins),
    smul_ceilDiv hd]
  omega

include hd in
theorem slot_lt_of_lt_lastCycle {n : ℕ} (hn : n < lastCycle P (spacing ins)) :
    n ⌈/⌉ spacing ins ≤ P.depth - 2 := by
  rw [ceilDiv_le_iff_le_mul hd]
  rw [lastCycle] at hn
  omega

include h hd hdepth htwo

/-- Registers and memory in each cycle of a capture: the words so far were stored at
divided addresses. -/
theorem capturing_run {n : ℕ} (hn : n ≤ lastCycle P (spacing ins)) :
    Capturing (spacing ins) n (run edge c ins (1 + n)).ctrl ∧
      (run edge c ins (1 + n)).mem =
        stored c.mem (fun m => BitVec.ofNat P.aw (m ⌈/⌉ spacing ins))
          (fun m => (ins (1 + m)).din) n := by
  induction n with
  | zero =>
      refine ⟨h.capturing, ?_⟩
      simp [run_succ, edge, stepMem, bramWeW, h.idle, DcBram.write]
  | succ n ih =>
      obtain ⟨hctrl, hmem⟩ := ih (Nat.le_of_succ_le hn)
      have hslot := slot_lt_of_lt_lastCycle hd (Nat.lt_of_succ_le hn)
      refine ⟨hctrl.step hd hdepth (h.noReset _) (by omega), ?_⟩
      have haddr : (run edge c ins (1 + n)).ctrl.addrR =
          BitVec.ofNat P.aw (n ⌈/⌉ spacing ins) := by
        apply BitVec.eq_of_toNat_eq
        rw [hctrl.addrR, BitVec.toNat_ofNat, Nat.mod_eq_of_lt (by omega)]
      rw [← Nat.add_assoc, run_succ, stored_succ, ← hmem, ← haddr]
      simp [edge, stepMem, bramWeW, hctrl.stateR, DcBram.write]

/-- The memory when the controller is ready again. -/
theorem mem_ready {k : ℕ} (hk : k < P.depth) :
    (run edge c ins (lastCycle P (spacing ins) + 2)).mem (BitVec.ofNat P.aw k) =
      (ins (1 + min (spacing ins * k) (lastCycle P (spacing ins)))).din := by
  obtain ⟨hctrl, hmem⟩ := capturing_run h hd hdepth htwo (Nat.le_refl _)
  have hlast := lastCycle_slot (P := P) hd htwo
  have haddr : (run edge c ins (1 + lastCycle P (spacing ins))).ctrl.addrR =
      BitVec.ofNat P.aw (lastCycle P (spacing ins) ⌈/⌉ spacing ins) := by
    apply BitVec.eq_of_toNat_eq
    rw [hctrl.addrR, BitVec.toNat_ofNat, Nat.mod_eq_of_lt (by omega)]
  have hinj : Set.InjOn (BitVec.ofNat P.aw)
      {j | j ≤ lastCycle P (spacing ins) ⌈/⌉ spacing ins} := by
    intro j hj j' hj' heq
    simp only [Set.mem_ofPred_eq, hlast] at hj hj'
    have hnat := congrArg BitVec.toNat heq
    rwa [BitVec.toNat_ofNat, BitVec.toNat_ofNat, Nat.mod_eq_of_lt (by omega),
      Nat.mod_eq_of_lt (by omega)] at hnat
  have hslot := stored_slot hd c.mem (BitVec.ofNat P.aw) (fun m => (ins (1 + m)).din)
    (k := k) (by omega) hinj
  rw [stored_succ, ← hmem, ← haddr] at hslot
  rw [← hslot, show lastCycle P (spacing ins) + 2 = 1 + lastCycle P (spacing ins) + 1 by omega,
    run_succ]
  simp [edge, stepMem, bramWeW, hctrl.stateR, DcBram.write]

theorem not_ready {n : ℕ} (hpos : 0 < n) (hn : n < lastCycle P (spacing ins) + 2) :
    bramReadyO (run edge c ins n).ctrl = false := by
  obtain ⟨m, rfl⟩ := Nat.exists_eq_add_of_le hpos
  have hctrl := (capturing_run h hd hdepth htwo (n := m) (by omega)).1
  have hst : (run edge c ins (1 + m)).ctrl.stateR = .captureData := hctrl.stateR
  simp [bramReadyO, hst]

theorem ready : bramReadyO (run edge c ins (lastCycle P (spacing ins) + 2)).ctrl = true := by
  have hctrl := (capturing_run h hd hdepth htwo (Nat.le_refl _)).1
  have hidle := hctrl.step_last (h.noReset (1 + lastCycle P (spacing ins)))
    (lastCycle_slot hd htwo)
  rw [show lastCycle P (spacing ins) + 2 = 1 + lastCycle P (spacing ins) + 1 by omega, run_succ]
  simp [bramReadyO, edge, hidle]

/-- Every address is written. -/
theorem written {k : ℕ} (hk : k < P.depth) :
    ∃ m < lastCycle P (spacing ins) + 2, bramWeW (run edge c ins m).ctrl = true ∧
      (run edge c ins m).ctrl.addrR.toNat = k := by
  have hin : min (spacing ins * k) (lastCycle P (spacing ins)) ≤ lastCycle P (spacing ins) :=
    Nat.min_le_right _ _
  have hctrl := (capturing_run h hd hdepth htwo hin).1
  have hlast := lastCycle_slot (P := P) hd htwo
  refine ⟨1 + min (spacing ins * k) (lastCycle P (spacing ins)), by omega, ?_, ?_⟩
  · simp [bramWeW, hctrl.stateR]
  · rw [hctrl.addrR]
    rcases Nat.le_total (spacing ins * k) (lastCycle P (spacing ins)) with hle | hle
    · rw [Nat.min_eq_left hle, ← smul_eq_mul (spacing ins), smul_ceilDiv hd]
    · rw [Nat.min_eq_right hle]
      have hslot := (ceilDiv_le_iff_le_mul hd).mpr hle
      omega

/-- The ready edge that ends the capture is the only candidate. -/
theorem capturesEvenly_of_ready :
    CapturesEvenly ins c ↔ ∀ k < P.depth,
      (ins (1 + min (spacing ins * k) (lastCycle P (spacing ins)))).din =
        (ins (1 + spacing ins * k)).din := by
  constructor
  · rintro ⟨n, hpos, hbefore, hready, -, hmem⟩
    have hn : n = lastCycle P (spacing ins) + 2 := by
      rcases Nat.lt_trichotomy n (lastCycle P (spacing ins) + 2) with hlt | heq | hgt
      · rw [not_ready h hd hdepth htwo hpos hlt] at hready
        cases hready
      · exact heq
      · have hnot := hbefore _ (by omega) hgt
        rw [ready h hd hdepth htwo] at hnot
        cases hnot
    intro k hk
    rw [← mem_ready h hd hdepth htwo hk, ← hmem k hk, hn]
  · intro heven
    refine ⟨lastCycle P (spacing ins) + 2, by omega, ?_, ready h hd hdepth htwo, ?_, ?_⟩
    · exact fun m hpos hm => not_ready h hd hdepth htwo hpos hm
    · exact fun k hk => written h hd hdepth htwo hk
    · intro k hk
      rw [mem_ready h hd hdepth htwo hk]
      exact heven k hk

end Run

/-- All addresses but the last always have their own sample.  The last one has the
sample one cycle into its period instead of the one at its end. -/
theorem capturesEvenly_iff {ins : ℕ → Input} {c : Capture P} (h : Starts ins c)
    (hd : 1 ≤ spacing ins) (hdepth : P.depth = 2 ^ P.aw) (hfour : 4 ≤ P.depth) :
    CapturesEvenly ins c ↔
      spacing ins = 1 ∨
        (ins (1 + (spacing ins * (P.depth - 2) + 1))).din =
          (ins (1 + spacing ins * (P.depth - 1))).din := by
  have hsucc : spacing ins * (P.depth - 1) = spacing ins * (P.depth - 2) + spacing ins := by
    rw [show P.depth - 1 = P.depth - 2 + 1 by omega, Nat.mul_succ]
  have hlast : min (spacing ins * (P.depth - 1)) (lastCycle P (spacing ins)) =
      spacing ins * (P.depth - 2) + 1 := by
    rw [lastCycle]
    omega
  rw [capturesEvenly_of_ready h hd hdepth (by omega)]
  constructor
  · intro heven
    have hend := heven (P.depth - 1) (by omega)
    rw [hlast] at hend
    exact .inr hend
  · intro heven k hk
    by_cases hk' : k = P.depth - 1
    · rw [hk', hlast]
      rcases heven with hone | heq
      · rw [hsucc, hone]
      · exact heq
    · have hle : spacing ins * k ≤ spacing ins * (P.depth - 2) :=
        Nat.mul_le_mul_left _ (by omega)
      rw [Nat.min_eq_left (by rw [lastCycle]; omega)]

/-! ## A capture of a ramp -/

/-- A controller with four addresses, out of reset. -/
def fourWords : Capture { depth := 4, aw := 2 } where
  ctrl := { resetState with rst := .released }
  mem := fun _ => 0#64

/-- An enable edge with decimation code 2 while the input counts the cycles. -/
def rampInput (n : ℕ) : Input where
  rstI := false
  din := BitVec.ofNat 64 n
  enableI := true
  decimationCodeI := 2#22

theorem starts_fourWords : Starts rampInput fourWords where
  rst := rfl
  idle := rfl
  enable := rfl
  noReset _ := rfl

/-- The last of the four words is 6, one cycle early. -/
theorem not_capturesEvenly_fourWords : ¬ CapturesEvenly rampInput fourWords := by
  rw [capturesEvenly_of_ready starts_fourWords (by decide) rfl (by decide)]
  intro heven
  have hlast := heven 3 (by decide)
  revert hlast
  decide

theorem capturesEvenly_iff_fourWords :
    CapturesEvenly rampInput fourWords ↔
      spacing rampInput = 1 ∨
        (rampInput (1 + (spacing rampInput * (4 - 2) + 1))).din =
          (rampInput (1 + spacing rampInput * (4 - 1))).din :=
  capturesEvenly_iff starts_fourWords (by decide) rfl (by decide)

end BramController
end PoundDreverHall
