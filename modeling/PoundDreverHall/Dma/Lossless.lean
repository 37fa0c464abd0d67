import PoundDreverHall.Dma.Copy

/-!
# DMA controller - when a transfer is lossless

A transfer is lossless when the slave ends up with memory word {lit}`k` at
{lit}`HP0_BASE_ADDR + 8 * k`, for every word of the frame and in order.  With
the two registers between the address and the bus that happens only for
memories whose words are equal in blocks of sixteen; the counting memory is
corrupted even by a slave that never stalls.

Main results:

- Theorem {lit}`exists_copied`: along a transfer, every completed burst carries
  the words the two registers had on offer.
- Theorem {lit}`lossless_iff_inOrder`: what the slave stores, burst by burst.
- Theorem {lit}`transfer_lossless_iff`: the exact condition for a lossless
  transfer.
-/

namespace PoundDreverHall
namespace ReadOut

open AxiWrite Clocked
open DmaController hiding step Input State

/-! ## Transfers of the read-out path -/

/-- The state after reset; the output register of the memory has no reset. -/
def afterReset (P : DmaController.Params) (rdata : BitVec 64) : State where
  uDma := DmaController.afterReset P
  rdata := rdata

section Runs

variable (P : DmaController.Params) (mem : DcBram.Mem 14) (r : BitVec 64) (ins : ℕ → Input)

/-- One enable edge has been served: the transfer it started in cycle
{lit}`t₀` has run for {lit}`n` cycles and the controller is idle again. -/
structure Served (t₀ n : ℕ) : Prop where
  transfer : InTransfer P (DmaController.afterReset P)
    (dmaInputs P mem (afterReset P r) ins) t₀ n
  done : (run (step P mem) (afterReset P r) ins (t₀ + (n + 1))).uDma.stateR = .idle

/-- Handshakes of the {lit}`n` cycles from cycle {lit}`t₀` on. -/
def transferLog (t₀ n : ℕ) : List (ℕ × BusEvent) :=
  busLog P (DmaController.afterReset P) (dmaInputs P mem (afterReset P r) ins) t₀ n

/-- The words the slave stores during a transfer, with their addresses. -/
def storedWords (t₀ n : ℕ) : List (BitVec 32 × BitVec 64) :=
  transferred (· + 8#32) 0#32 (transferLog P mem r ins t₀ (n + 1))

/-- The frame, word by word: memory word {lit}`k` at {lit}`HP0_BASE_ADDR + 8 * k`. -/
def frameWords : List (BitVec 32 × BitVec 64) :=
  (List.range (P.dmaSize.toNat / 8)).map fun k =>
    (P.hp0BaseAddr + BitVec.ofNat 32 (8 * k), mem (BitVec.ofNat 14 k))

/-- The transfer stored the frame. -/
def Lossless (t₀ n : ℕ) : Prop :=
  storedWords P mem r ins t₀ n = frameWords P mem

variable {P mem r ins}

/-- The DMA controller of a run. -/
theorem run_uDma_afterReset (t : ℕ) :
    (run (step P mem) (afterReset P r) ins t).uDma =
      run (DmaController.step P) (DmaController.afterReset P)
        (dmaInputs P mem (afterReset P r) ins) t :=
  run_uDma P mem (afterReset P r) ins t

/-- An idle controller points at the start of the buffer, or, right after a
transfer, at its end. -/
theorem idle_addrR (hP : P.Fits) (hins : ∀ t, (ins t).rstI = false) {t : ℕ}
    (hidle : (run (step P mem) (afterReset P r) ins t).uDma.stateR = .idle) :
    ((run (step P mem) (afterReset P r) ins t).uDma.addrR = P.hp0BaseAddr ∨
      (run (step P mem) (afterReset P r) ins t).uDma.addrR = P.burstAddr P.bursts) ∧
      (run (step P mem) (afterReset P r) ins t).uDma.beatR = beatBase := by
  cases t with
  | zero => exact ⟨.inl rfl, rfl⟩
  | succ t =>
      have hins' : ∀ t, (dmaInputs P mem (afterReset P r) ins t).rstI = false := hins
      have hs : (DmaController.afterReset P).rst = .released := rfl
      have hrst := run_rst P hs hins' t
      rw [run_uDma_afterReset, run_succ] at hidle ⊢
      rw [step_addrR hrst (hins' t), step_beatR hrst (hins' t)]
      by_cases hprev : (run (DmaController.step P) (DmaController.afterReset P)
          (dmaInputs P mem (afterReset P r) ins) t).stateR = .idle
      · simp [nextAddrW, nextBeatW, hprev]
      · obtain ⟨hstate, hvalid, hresp, haddr⟩ :=
          response_of_done hP hs rfl hins' hprev hidle
        have hpos : P.bursts - 1 + 1 = P.bursts := by
          have := hP.size_eq
          have := hP.size_pos
          omega
        rw [← hpos, P.burstAddr_succ]
        simp [nextAddrW, nextBeatW, hstate, hvalid, hresp, haddr]

/-- The end of the buffer and its start are one word of the memory. -/
theorem burstWord_end (mem : DcBram.Mem 14) :
    burstWord {} mem (DmaController.Params.burstAddr {} (DmaController.Params.bursts {})) 0 =
      burstWord {} mem (DmaController.Params.hp0BaseAddr {}) 0 :=
  rfl

/-- Along a transfer of `pdh_top`, every completed burst is copied from the
words on offer and was answered OKAY. -/
theorem exists_copied {mem : DcBram.Mem 14} {r : BitVec 64} {ins : ℕ → Input}
    (hins : ∀ t, (ins t).rstI = false)
    (hokay : ∀ t, (ins t).mAxiBvalid = true → (ins t).mAxiBresp = respOkay)
    {t₀ n : ℕ}
    (h : InTransfer {} (DmaController.afterReset {})
      (dmaInputs {} mem (afterReset {} r) ins) t₀ n) :
    ∃ bs cur, transferLog {} mem r ins t₀ (n + 1) = traceEvents bs cur ∧
      Tracks (run (step {} mem) (afterReset {} r) ins (t₀ + (n + 1))).uDma cur ∧
      Fetches {} mem (t₀ + (n + 1))
        (run (step {} mem) (afterReset {} r) ins (t₀ + (n + 1))) bs cur ∧
      Copied {} mem none bs ∧ ∀ b ∈ bs, b.resp = respOkay := by
  have hins' : ∀ t, (dmaInputs {} mem (afterReset {} r) ins t).rstI = false := hins
  have hrst : ∀ t, (run (step {} mem) (afterReset {} r) ins t).uDma.rst = .released := by
    intro t
    rw [run_uDma_afterReset]
    exact run_rst {} rfl hins' t
  induction n with
  | zero =>
      have hidle : (run (step {} mem) (afterReset {} r) ins t₀).uDma.stateR = .idle := by
        rw [run_uDma_afterReset]
        exact h.idle
      have hedge : enableSyncEdgeW (run (step {} mem) (afterReset {} r) ins t₀).uDma = true := by
        rw [run_uDma_afterReset]
        exact h.edge
      obtain ⟨haddr, hbeat⟩ := idle_addrR ⟨by decide, by decide, by decide⟩ hins hidle
      refine ⟨[], none, ?_, ?_, ?_, trivial, by simp⟩
      · simp [transferLog, busLog, log_succ, busEvents, mAxiAwvalid, mAxiWvalid, mAxiBready,
          h.idle]
      · rw [Nat.zero_add, run_succ, step_live {} mem (hrst t₀) (hins t₀)]
        simp [Tracks, nextStateW, hidle, hedge]
      · rw [Nat.zero_add, run_succ, step_live {} mem (hrst t₀) (hins t₀)]
        simp only [Fetches, nextStateW, nextAddrW, nextBeatW, hidle, hedge, hbeat, firstWord]
        refine ⟨trivial, by simp, ?_⟩
        rcases haddr with hstart | hend
        · rw [hstart]
          rfl
        · rw [hend]
          exact burstWord_end mem
  | succ n ih =>
      obtain ⟨bs, cur, hlog, htracks, hfetches, hcopied, hresps⟩ :=
        ih ⟨h.idle, h.edge, fun k h1 hk => h.busy k h1 (Nat.le_succ_of_le hk)⟩
      have hbusy := h.busy (n + 1) (Nat.le_add_left 1 n) le_rfl
      rw [← run_uDma_afterReset] at hbusy
      obtain ⟨bs', cur', hobs, htracks'⟩ :=
        htracks.step (P := {}) (t := t₀ + (n + 1)) (hrst _) (hins' _) bs
      refine ⟨bs', cur', ?_, htracks', ?_, hfetches.copied hobs hcopied, ?_⟩
      · rw [hobs.traceEvents, ← hlog, transferLog, busLog, log_succ, run_uDma_afterReset]
        rfl
      · exact hfetches.step (hrst _) (hins _) (hokay _) hbusy htracks hobs
      · cases hobs with
        | quiet cur _ _ => exact hresps
        | accept _ _ => exact hresps
        | beat o _ _ _ _ => exact hresps
        | respond o hlen _ hvalid _ =>
            intro b hb
            rcases List.mem_append.mp hb with hold | hnew
            · exact hresps b hold
            · rw [List.mem_singleton.mp hnew]
              exact hokay _ hvalid

/-! ## What the slave stores -/

/-- The words one burst should store. -/
def blockWords (P : DmaController.Params) (mem : DcBram.Mem 14) (addr : BitVec 32) :
    List (BitVec 32 × BitVec 64) :=
  (List.range 16).map fun k => ((· + 8#32)^[k] addr, burstWord P mem addr k)

theorem iterate_add_eight (addr : BitVec 32) (k : ℕ) :
    (· + 8#32)^[k] addr = addr + BitVec.ofNat 32 (8 * k) := by
  induction k with
  | zero => simp
  | succ k ih =>
      rw [Function.iterate_succ_apply', ih, Nat.mul_succ, BitVec.ofNat_add, BitVec.add_assoc]

/-- Burst {lit}`j` of the frame reads block {lit}`j` of the memory. -/
theorem burstWord_burstAddr (mem : DcBram.Mem 14) (j k : ℕ) :
    burstWord {} mem (DmaController.Params.burstAddr {} j) k =
      mem (BitVec.ofNat 14 (16 * j + k)) := by
  rw [burstWord, DmaController.Params.burstAddr,
    BitVec.add_comm (DmaController.Params.hp0BaseAddr _),
    BitVec.add_sub_cancel]
  congr 1
  apply BitVec.eq_of_toNat_eq
  simp only [BitVec.toNat_setWidth, BitVec.toNat_add, BitVec.toNat_ushiftRight,
    BitVec.toNat_ofNat, Nat.shiftRight_eq_div_pow]
  omega

/-- The frame is made of the blocks of its bursts. -/
theorem frameWords_eq_blocks (mem : DcBram.Mem 14) :
    frameWords {} mem =
      ((List.range 1024).map (DmaController.Params.burstAddr {})).flatMap
        (blockWords {} mem) := by
  have hblocks : ∀ m ≤ 1024,
      ((List.range (16 * m)).map fun k =>
        ((0x10000000#32 + BitVec.ofNat 32 (8 * k) : BitVec 32), mem (BitVec.ofNat 14 k))) =
      ((List.range m).map (DmaController.Params.burstAddr {})).flatMap
        (blockWords {} mem) := by
    intro m hm
    induction m with
    | zero => rfl
    | succ m ih =>
        rw [List.range_succ, List.map_append, List.flatMap_append, ← ih (by omega),
          Nat.mul_succ, List.range_add, List.map_append, List.map_map]
        simp only [List.map_singleton, List.flatMap_singleton, blockWords]
        congr 1
        refine List.map_congr_left fun k _ => ?_
        have hsum : BitVec.ofNat 32 (8 * (16 * m + k)) =
            BitVec.ofNat 32 (128 * m) + BitVec.ofNat 32 (8 * k) := by
          rw [← BitVec.ofNat_add]
          congr 1
          omega
        rw [burstWord_burstAddr, iterate_add_eight, Function.comp_apply, hsum,
          DmaController.Params.burstAddr, BitVec.add_assoc]
  exact hblocks 1024 le_rfl

/-- What a transfer stores is the frame exactly when every burst carries its own
words in order. -/
theorem lossless_iff_inOrder {mem : DcBram.Mem 14} {r : BitVec 64} {ins : ℕ → Input}
    {t₀ n : ℕ} {bs : List BusBurst}
    (hlog : transferLog {} mem r ins t₀ (n + 1) = traceEvents bs none)
    (haddrs : bs.map Burst.addr = (List.range 1024).map (DmaController.Params.burstAddr {})) :
    Lossless {} mem r ins t₀ n ↔
      ∀ b ∈ bs, InOrder (burstWord {} mem b.addr) b.beats.reverse := by
  rw [Lossless, storedWords, hlog, transferred_traceEvents, frameWords_eq_blocks, ← haddrs,
    List.flatMap_map, flatMap_eq_iff]
  · refine forall₂_congr fun b _ => ?_
    rw [inOrder_reverse_iff, b.length_eq]
    exact b.words_eq_iff (· + 8#32) (burstWord {} mem b.addr)
  · intro b _
    simp [Burst.words, blockWords, b.length_eq]

/-! ## The exact condition -/

/-- Every block of sixteen words holds one word sixteen times. -/
def ConstantBlocks (mem : DcBram.Mem 14) : Prop :=
  ∀ j < 1024, ∀ k < 16, mem (BitVec.ofNat 14 (16 * j + k)) = mem (BitVec.ofNat 14 (16 * j))

/-- The bursts of a served transfer, all of them, copied from the words on
offer. -/
theorem Served.exists_bursts {mem : DcBram.Mem 14} {r : BitVec 64} {ins : ℕ → Input}
    (hins : ∀ t, (ins t).rstI = false)
    (hokay : ∀ t, (ins t).mAxiBvalid = true → (ins t).mAxiBresp = respOkay) {t₀ n : ℕ}
    (h : Served {} mem r ins t₀ n) :
    ∃ bs : List BusBurst, transferLog {} mem r ins t₀ (n + 1) = traceEvents bs none ∧
      bs.map Burst.addr = (List.range 1024).map (DmaController.Params.burstAddr {}) ∧
      Copied {} mem none bs := by
  obtain ⟨bs, cur, hlog, htracks, -, hcopied, hresps⟩ := exists_copied hins hokay h.transfer
  have hcur : cur = none := by simpa [Tracks, h.done] using htracks
  rw [hcur] at hlog
  refine ⟨bs, hlog, ?_, hcopied⟩
  have hdone := h.done
  rw [run_uDma_afterReset] at hdone
  have hins' : ∀ t, (dmaInputs {} mem (afterReset {} r) ins t).rstI = false := hins
  obtain ⟨bs', hlog', haddrs⟩ := (covers_of_inTransfer ⟨by decide, by decide, by decide⟩ rfl
    hins' h.transfer).okayAddrs_eq hdone
  obtain rfl : bs = bs' := traceEvents_injective (hlog.symm.trans hlog')
  rw [okayAddrs, List.filter_eq_self.mpr (by simpa using hresps)] at haddrs
  exact haddrs

/-- The blocks the bursts of a frame read. -/
theorem constantBlocks_iff {mem : DcBram.Mem 14} {bs : List BusBurst}
    (haddrs : bs.map Burst.addr = (List.range 1024).map (DmaController.Params.burstAddr {})) :
    (∀ b ∈ bs, ∀ k < 16, burstWord {} mem b.addr k = burstWord {} mem b.addr 0) ↔
      ConstantBlocks mem := by
  have hmem : (∀ b ∈ bs, ∀ k < 16, burstWord {} mem b.addr k = burstWord {} mem b.addr 0) ↔
      ∀ a ∈ bs.map Burst.addr, ∀ k < 16, burstWord {} mem a k = burstWord {} mem a 0 := by
    simp
  rw [hmem, haddrs]
  simp [ConstantBlocks, burstWord_burstAddr]

/-- A served transfer is lossless exactly when every sixteen-word block of the
memory is constant and no burst was raced between blocks with different words. -/
theorem transfer_lossless_iff (mem : DcBram.Mem 14) (r : BitVec 64) (ins : ℕ → Input)
    (hins : ∀ t, (ins t).rstI = false)
    (hokay : ∀ t, (ins t).mAxiBvalid = true → (ins t).mAxiBresp = respOkay) {t₀ n : ℕ}
    (h : Served {} mem r ins t₀ n) :
    ∃ bs : List BusBurst, transferLog {} mem r ins t₀ (n + 1) = traceEvents bs none ∧
      (Lossless {} mem r ins t₀ n ↔ ConstantBlocks mem ∧ Unraced {} mem bs) := by
  obtain ⟨bs, hlog, haddrs, hcopied⟩ := h.exists_bursts hins hokay
  refine ⟨bs, hlog, ?_⟩
  rw [lossless_iff_inOrder hlog haddrs, hcopied.inOrder_iff, constantBlocks_iff haddrs, and_comm]
  rfl

end Runs

/-! ## A slave that never stalls -/

section Ready

variable {P : DmaController.Params} {s₀ : DmaController.State} {ins : ℕ → DmaController.Input}

/-- The slave accepts everything at once. -/
structure Ready (i : DmaController.Input) : Prop where
  rst : i.rstI = false
  awready : i.mAxiAwready = true
  wready : i.mAxiWready = true
  bvalid : i.mAxiBvalid = true
  okay : i.mAxiBresp = respOkay

/-- Beat after beat, one in each cycle. -/
theorem beat_of_ready (hs : s₀.rst = .released) (hins : ∀ t, Ready (ins t)) {t k : ℕ}
    (hstate : (run (DmaController.step P) s₀ ins t).stateR = .setAddrAwaitAck) (hk : k ≤ 15) :
    (run (DmaController.step P) s₀ ins (t + 1 + k)).stateR = .setDataAwaitAck ∧
      (run (DmaController.step P) s₀ ins (t + 1 + k)).beatR.toNat = k ∧
      (run (DmaController.step P) s₀ ins (t + 1 + k)).addrR =
        (run (DmaController.step P) s₀ ins t).addrR := by
  have hrst := run_rst P hs fun t => (hins t).rst
  induction k with
  | zero =>
      rw [Nat.add_zero, run_succ, DmaController.step_live P (hrst t) (hins t).rst]
      simp [nextStateW, nextBeatW, nextAddrW, hstate, (hins t).awready, beatBase]
  | succ k ih =>
      obtain ⟨hdata, hbeat, haddr⟩ := ih (by omega)
      have hlast : lastBeat (run (DmaController.step P) s₀ ins (t + 1 + k)) = false := by
        rw [Bool.eq_false_iff, Ne, lastBeat_iff]
        omega
      rw [← Nat.add_assoc, run_succ, DmaController.step_live P (hrst _) (hins _).rst]
      refine ⟨?_, ?_, ?_⟩
      · simp [nextStateW, hdata, hlast]
      · simp only [nextBeatW, hdata, (hins _).wready, if_true]
        rw [BitVec.toNat_add, hbeat]
        exact Nat.mod_eq_of_lt (show k + 1 < 32 by omega)
      · simp [nextAddrW, hdata, haddr]

/-- A burst takes eighteen cycles: the address, sixteen beats, the response. -/
theorem burst_of_ready (hs : s₀.rst = .released) (hins : ∀ t, Ready (ins t)) {t : ℕ}
    (hstate : (run (DmaController.step P) s₀ ins t).stateR = .setAddrAwaitAck) :
    (∀ k < 18, (run (DmaController.step P) s₀ ins (t + k)).stateR ≠ .idle) ∧
      (run (DmaController.step P) s₀ ins (t + 18)).addrR =
        (run (DmaController.step P) s₀ ins t).addrR + addrInc ∧
      (run (DmaController.step P) s₀ ins (t + 18)).stateR =
        if P.finalWriteAddr < (run (DmaController.step P) s₀ ins t).addrR + addrInc then .idle
        else .setAddrAwaitAck := by
  have hrst := run_rst P hs fun t => (hins t).rst
  have hbeats := fun k (hk : k ≤ 15) => beat_of_ready hs hins hstate hk
  obtain ⟨hdata, hbeat, haddr⟩ := hbeats 15 le_rfl
  have hlast : lastBeat (run (DmaController.step P) s₀ ins (t + 1 + 15)) = true :=
    (lastBeat_iff _).mpr hbeat
  have hawait : (run (DmaController.step P) s₀ ins (t + 17)).stateR = .awaitResp ∧
      (run (DmaController.step P) s₀ ins (t + 17)).addrR =
        (run (DmaController.step P) s₀ ins t).addrR := by
    rw [show t + 17 = t + 1 + 15 + 1 by omega, run_succ,
      DmaController.step_live P (hrst _) (hins _).rst]
    simp [nextStateW, nextAddrW, hdata, hlast, haddr, (hins _).wready]
  obtain ⟨hresp, haddr'⟩ := hawait
  refine ⟨?_, ?_⟩
  · intro k hk
    rcases Nat.eq_zero_or_pos k with rfl | hpos
    · simp [hstate]
    · rcases Nat.lt_or_ge k 17 with hlt | hge
      · obtain ⟨j, rfl⟩ : ∃ j, k = 1 + j := ⟨k - 1, by omega⟩
        rw [← Nat.add_assoc, (hbeats j (by omega)).1]
        simp
      · obtain rfl : k = 17 := by omega
        simp [hresp]
  · rw [show t + 18 = t + 17 + 1 by omega, run_succ,
      DmaController.step_live P (hrst _) (hins _).rst]
    simp [nextStateW, nextAddrW, hresp, haddr', (hins _).bvalid, (hins _).okay]

/-- The bursts of a frame follow each other without a pause. -/
theorem bursts_of_ready (hP : P.Fits) (hs : s₀.rst = .released) (hins : ∀ t, Ready (ins t))
    {t : ℕ} (hstate : (run (DmaController.step P) s₀ ins t).stateR = .setAddrAwaitAck)
    (haddr : (run (DmaController.step P) s₀ ins t).addrR = P.hp0BaseAddr) {j : ℕ}
    (hj : j ≤ P.bursts) :
    (∀ k < 18 * j, (run (DmaController.step P) s₀ ins (t + k)).stateR ≠ .idle) ∧
      (run (DmaController.step P) s₀ ins (t + 18 * j)).addrR = P.burstAddr j ∧
      (run (DmaController.step P) s₀ ins (t + 18 * j)).stateR =
        if j = P.bursts then .idle else .setAddrAwaitAck := by
  induction j with
  | zero =>
      have hpos : 0 ≠ P.bursts := by
        have := hP.size_eq
        have := hP.size_pos
        omega
      simp [hstate, haddr, hpos]
  | succ j ih =>
      obtain ⟨hbusy, haddrj, hstatej⟩ := ih (by omega)
      rw [if_neg (by omega)] at hstatej
      obtain ⟨hburst, hnext, hend⟩ := burst_of_ready hs hins hstatej
      have hfinal := hP.final_lt_iff (k := j) (by omega)
      rw [Nat.mul_succ, ← Nat.add_assoc]
      refine ⟨?_, ?_, ?_⟩
      · intro k hk
        rcases Nat.lt_or_ge k (18 * j) with hlt | hge
        · exact hbusy k hlt
        · obtain ⟨i, rfl⟩ := Nat.exists_eq_add_of_le hge
          rw [← Nat.add_assoc]
          exact hburst i (by omega)
      · rw [hnext, haddrj, P.burstAddr_succ]
      · rw [hend, haddrj]
        exact if_congr hfinal rfl rfl

/-- With the enable level high from reset on, the edge reaches the state machine
in the fourth cycle. -/
theorem enable_edge_of_ready (hins : ∀ t, Ready (ins t)) (hen : ∀ t, (ins t).enableI = true) :
    (run (DmaController.step P) (DmaController.afterReset P) ins 3).stateR = .idle ∧
      enableSyncEdgeW (run (DmaController.step P) (DmaController.afterReset P) ins 3) = true := by
  have hrst := run_rst P (s := DmaController.afterReset P) rfl fun t => (hins t).rst
  have h1 : run (DmaController.step P) (DmaController.afterReset P) ins 1 =
      { DmaController.afterReset P with enable1ff := true } := by
    rw [run_succ, DmaController.step_live P (hrst 0) (hins 0).rst]
    simp [nextStateW, nextAddrW, nextBeatW, nextDataW, enableSyncEdgeW, PosedgeDetector.q,
      DmaController.afterReset, resetState, hen 0, beatBase, PosedgeDetector.cleared]
  have h2 : run (DmaController.step P) (DmaController.afterReset P) ins 2 =
      { DmaController.afterReset P with enable1ff := true, enable2ff := true } := by
    rw [run_succ, DmaController.step_live P (hrst 1) (hins 1).rst, h1]
    simp [nextStateW, nextAddrW, nextBeatW, nextDataW, enableSyncEdgeW, PosedgeDetector.q,
      DmaController.afterReset, resetState, hen 1, beatBase, PosedgeDetector.cleared]
  rw [run_succ, DmaController.step_live P (hrst 2) (hins 2).rst, h2]
  simp [nextStateW, enableSyncEdgeW, PosedgeDetector.q, DmaController.afterReset, resetState]

/-- The whole frame takes eighteen cycles a burst. -/
theorem frame_of_ready (hP : P.Fits) (hins : ∀ t, Ready (ins t))
    (hen : ∀ t, (ins t).enableI = true) :
    InTransfer P (DmaController.afterReset P) ins 3 (18 * P.bursts) ∧
      (run (DmaController.step P) (DmaController.afterReset P) ins
        (3 + (18 * P.bursts + 1))).stateR = .idle := by
  have hs : (DmaController.afterReset P).rst = .released := rfl
  have hrst := run_rst P hs fun t => (hins t).rst
  obtain ⟨hidle, hedge⟩ := enable_edge_of_ready (P := P) hins hen
  have hstate : (run (DmaController.step P) (DmaController.afterReset P) ins 4).stateR =
      .setAddrAwaitAck := by
    rw [run_succ, step_stateR (hrst 3) (hins 3).rst]
    simp [nextStateW, hidle, hedge]
  have haddr : (run (DmaController.step P) (DmaController.afterReset P) ins 4).addrR =
      P.hp0BaseAddr := by
    rw [run_succ, step_addrR (hrst 3) (hins 3).rst]
    simp [nextAddrW, hidle]
  obtain ⟨hbusy, -, hdone⟩ := bursts_of_ready hP hs hins hstate haddr le_rfl
  refine ⟨⟨hidle, hedge, ?_⟩, ?_⟩
  · intro k h1 hk
    obtain ⟨i, rfl⟩ := Nat.exists_eq_add_of_le h1
    rw [← Nat.add_assoc]
    exact hbusy i (by omega)
  · rw [if_pos rfl] at hdone
    rw [← hdone]
    congr 2
    omega

end Ready

/-- Inputs of a read-out with the enable level high and a slave that accepts
everything at once. -/
def alwaysReady (_ : ℕ) : Input where
  rstI := false
  mAxiAwready := true
  mAxiWready := true
  mAxiBvalid := true
  mAxiBresp := respOkay
  enableI := true

/-- This slave lets the whole frame through. -/
theorem served_alwaysReady (mem : DcBram.Mem 14) (r : BitVec 64) :
    Served {} mem r alwaysReady 3 (18 * 1024) := by
  have hins : ∀ t, Ready (dmaInputs {} mem (afterReset {} r) alwaysReady t) :=
    fun t => ⟨rfl, rfl, rfl, rfl, rfl⟩
  obtain ⟨htransfer, hdone⟩ :=
    frame_of_ready (P := {}) ⟨by decide, by decide, by decide⟩ hins fun _ => rfl
  exact ⟨htransfer, by rw [run_uDma_afterReset]; exact hdone⟩

/-- A memory whose word {lit}`k` is {lit}`k`. -/
def countingMem : DcBram.Mem 14 :=
  fun k => k.setWidth 64

/-- The counting memory is corrupted by a slave that never stalls. -/
theorem transfer_counting_corrupted :
    Served {} countingMem 0#64 alwaysReady 3 18432 ∧
      ¬Lossless {} countingMem 0#64 alwaysReady 3 18432 := by
  have hserved := served_alwaysReady countingMem 0#64
  refine ⟨hserved, ?_⟩
  intro hlossless
  obtain ⟨bs, hlog, haddrs, hcopied⟩ := hserved.exists_bursts (fun _ => rfl) fun _ _ => rfl
  have hblocks := (hcopied.inOrder_iff.mp ((lossless_iff_inOrder hlog haddrs).mp hlossless)).2
  have hone := (constantBlocks_iff haddrs).mp hblocks 0 (by decide) 1 (by decide)
  exact absurd hone (by decide)

/-- The memory after power-up. -/
def zeroMem : DcBram.Mem 14 :=
  fun _ => 0#64

/-- The condition is met by a memory of equal words. -/
theorem transfer_lossless_iff_zero :
    ∃ bs : List BusBurst,
      transferLog {} zeroMem 0#64 alwaysReady 3 18433 = traceEvents bs none ∧
      (Lossless {} zeroMem 0#64 alwaysReady 3 18432 ↔
        ConstantBlocks zeroMem ∧ Unraced {} zeroMem bs) :=
  transfer_lossless_iff zeroMem 0#64 alwaysReady (fun _ => rfl) (fun _ _ => rfl)
    (served_alwaysReady zeroMem 0#64)

end ReadOut
end PoundDreverHall
