import PoundDreverHall.Dma.BurstProtocol
import PoundDreverHall.Rtl.ReadOut

/-!
# DMA controller - what a transfer copies

The word on the data bus is two registers behind the address that selects it:
the memory registers its output, and the controller registers what the memory
shows.  The address moves with every accepted beat, so a burst that is accepted
without stalls sends each word one or two beats late.  This file follows the
two registers through every handshake, under any stalls of the slave.

Main results:

- Theorem {lit}`Fetches.step`: one edge of a transfer keeps the data register
  and the read port where the accepted beats say they are.
- Theorem {lit}`Fetches.copied`: every beat of a completed burst is the word
  the two registers had on offer.
- Theorem {lit}`Copied.inOrder_iff`: the words come out in order exactly when
  every burst reads a constant block and no burst was raced between different
  blocks.
-/

namespace PoundDreverHall
namespace ReadOut

open AxiWrite Clocked
open DmaController hiding step Input State

/-! ## Words of a burst -/

section Words

variable (P : DmaController.Params) {aw : ℕ} (mem : DcBram.Mem aw)

/-- The word the memory is asked for at beat {lit}`k` of a burst. -/
def burstWord (addr : BitVec 32) (k : ℕ) : BitVec 64 :=
  mem ((((addr - P.hp0BaseAddr) >>> 3) + BitVec.ofNat 32 k).setWidth aw)

/-- One clock edge of the read-out path outside reset. -/
theorem step_live {i : Input} {s : State} (hs : s.uDma.rst = .released)
    (hi : i.rstI = false) :
    step P mem i s =
      { uDma :=
          { rst := .released
            enable1ff := i.enableI
            enable2ff := s.uDma.enable1ff
            enable3ff := s.uDma.enable2ff
            uEnableEdgeDetector := { prevD := s.uDma.enable3ff }
            stateR := nextStateW P (i.toDma s.rdata) s.uDma
            addrR := nextAddrW P (i.toDma s.rdata) s.uDma
            beatR := nextBeatW (i.toDma s.rdata) s.uDma
            dataR := nextDataW (i.toDma s.rdata) s.uDma }
        rdata := burstWord P mem s.uDma.addrR s.uDma.beatR.toNat } := by
  rw [step, DmaController.step_live P hs (i := i.toDma s.rdata) hi]
  simp [DcBram.read, bramAddrO, burstWord, Input.toDma]

/-- The response of the burst came later than the cycle right after its last
beat. -/
def lateResponse (b : BusBurst) : Bool :=
  b.beats.reverse.head?.any fun beat => beat.time + 1 < b.respTime

/-- An address accepted in cycle {lit}`t` races the burst before it: the read
port has been sent back to the start of that burst by a late response and has
had no cycle to move on. -/
def raced (b : BusBurst) (t : ℕ) : Bool :=
  lateResponse b && t == b.respTime + 1

/-- The word offered for the first beat of a burst whose address is accepted in
cycle {lit}`t`, after the burst {lit}`prev`. -/
def firstWord (prev : Option BusBurst) (addr : BitVec 32) (t : ℕ) : BitVec 64 :=
  match prev with
  | none => burstWord P mem addr 0
  | some b => if raced b t then burstWord P mem b.addr 0 else burstWord P mem addr 0

/-- The beats of complete bursts are the words on offer, given the burst before
them. -/
def Copied : Option BusBurst → List BusBurst → Prop
  | _, [] => True
  | prev, b :: bs =>
      Prefetched (burstWord P mem b.addr) (firstWord P mem prev b.addr b.awTime)
        b.beats.reverse ∧ Copied (some b) bs

theorem copied_concat (prev : Option BusBurst) (bs : List BusBurst) (b : BusBurst) :
    Copied P mem prev (bs ++ [b]) ↔
      Copied P mem prev bs ∧
        Prefetched (burstWord P mem b.addr)
          (firstWord P mem (bs.getLast?.or prev) b.addr b.awTime) b.beats.reverse := by
  induction bs generalizing prev with
  | nil => simp [Copied]
  | cons c bs ih =>
      rw [List.cons_append, Copied, Copied, ih, and_assoc]
      cases bs with
      | nil => simp
      | cons d bs =>
          obtain ⟨x, hx⟩ : ∃ x, (d :: bs).getLast? = some x :=
            ⟨_, List.getLast?_eq_some_getLast (List.cons_ne_nil d bs)⟩
          simp [List.getLast?_cons_cons, hx]

end Words

/-- No burst was raced into a block with another first word. -/
def Unraced {aw : ℕ} (P : DmaController.Params) (mem : DcBram.Mem aw) (bs : List BusBurst) :
    Prop :=
  bs.IsChain fun b b' =>
    raced b b'.awTime = true → burstWord P mem b.addr 0 = burstWord P mem b'.addr 0

theorem firstWord_some_eq_iff {aw : ℕ} (P : DmaController.Params) (mem : DcBram.Mem aw)
    (b b' : BusBurst) :
    firstWord P mem (some b) b'.addr b'.awTime = burstWord P mem b'.addr 0 ↔
      (raced b b'.awTime = true → burstWord P mem b.addr 0 = burstWord P mem b'.addr 0) := by
  rw [firstWord]
  split_ifs with hraced
  · simp [hraced]
  · simp [hraced]

/-- Copied bursts carry their own words in order exactly when every block is
constant and no burst was raced. -/
theorem Copied.inOrder_iff {aw : ℕ} {P : DmaController.Params} {mem : DcBram.Mem aw}
    {prev : Option BusBurst} {bs : List BusBurst} (h : Copied P mem prev bs) :
    (∀ b ∈ bs, InOrder (burstWord P mem b.addr) b.beats.reverse) ↔
      Unraced P mem (prev.toList ++ bs) ∧
        ∀ b ∈ bs, ∀ k < 16, burstWord P mem b.addr k = burstWord P mem b.addr 0 := by
  induction bs generalizing prev with
  | nil => cases prev <;> simp [Unraced]
  | cons b bs ih =>
      obtain ⟨hbeats, hrest⟩ := h
      have hne : b.beats.reverse ≠ [] := by
        intro hnil
        have hlen := b.length_eq
        rw [List.reverse_eq_nil_iff.mp hnil] at hlen
        contradiction
      have hhead := hbeats.inOrder_iff
      rw [List.length_reverse, b.length_eq] at hhead
      rw [List.forall_mem_cons, List.forall_mem_cons, ih hrest, hhead]
      cases prev with
      | none =>
          simp only [Option.toList, List.nil_append, List.singleton_append, firstWord]
          tauto
      | some c =>
          simp only [Option.toList, List.singleton_append, Unraced, List.isChain_cons_cons]
          rw [firstWord_some_eq_iff]
          tauto

/-- The read port wraps with the memory, so the sixteenth word after a burst is
the first word of the next one. -/
theorem burstWord_next (P : DmaController.Params) (mem : DcBram.Mem 14) (addr : BitVec 32) :
    burstWord P mem addr 16 = burstWord P mem (addr + addrInc) 0 := by
  have hcomm : addr + addrInc - P.hp0BaseAddr = addr - P.hp0BaseAddr + addrInc := by
    rw [BitVec.sub_eq_add_neg, BitVec.sub_eq_add_neg, BitVec.add_assoc, BitVec.add_assoc,
      BitVec.add_comm addrInc]
  rw [burstWord, burstWord, hcomm]
  generalize addr - P.hp0BaseAddr = x
  congr 1
  apply BitVec.eq_of_toNat_eq
  simp only [BitVec.toNat_setWidth, BitVec.toNat_add, BitVec.toNat_ushiftRight,
    BitVec.toNat_ofNat, addrInc, Nat.shiftRight_eq_div_pow]
  omega

/-! ## One edge -/

section Step

variable (P : DmaController.Params) (mem : DcBram.Mem 14)

/-- Where the data register and the read port of a busy controller are in cycle
{lit}`t`, given the bursts seen so far. -/
def Fetches (t : ℕ) (s : State) (bs : List BusBurst) (cur : Option BusOpenBurst) : Prop :=
  match s.uDma.stateR with
  | .idle => True
  | .setAddrAwaitAck =>
      s.uDma.beatR = beatBase ∧ (∀ b, bs.getLast? = some b → b.respTime < t) ∧
        s.rdata = firstWord P mem bs.getLast? s.uDma.addrR t
  | .setDataAwaitAck =>
      ∃ o, cur = some o ∧ (∀ b ∈ o.beats, b.time < t) ∧
        s.rdata = readPort (burstWord P mem o.addr) t o.beats.reverse ∧
        s.uDma.dataR = offered (burstWord P mem o.addr)
          (firstWord P mem bs.getLast? o.addr o.awTime) o.beats.reverse ∧
        Prefetched (burstWord P mem o.addr)
          (firstWord P mem bs.getLast? o.addr o.awTime) o.beats.reverse
  | .awaitResp =>
      ∃ o b l, cur = some o ∧ o.beats.reverse = b :: l ∧ b.time < t ∧
        s.uDma.beatR = (if t = b.time + 1 then 16#5 else 0#5) ∧
        Prefetched (burstWord P mem o.addr)
          (firstWord P mem bs.getLast? o.addr o.awTime) o.beats.reverse

variable {P mem} {t : ℕ} {i : Input} {s : State} {bs bs' : List BusBurst}
  {cur cur' : Option BusOpenBurst}

/-- An edge without a handshake. -/
theorem Fetches.quiet (hs : s.uDma.rst = .released) (hi : i.rstI = false)
    (hbusy : s.uDma.stateR ≠ .idle) (htracks : Tracks s.uDma cur)
    (hnone : busEvents t (i.toDma s.rdata) s.uDma = [])
    (h : Fetches P mem t s bs cur) :
    Fetches P mem (t + 1) (ReadOut.step P mem i s) bs cur := by
  rw [step_live P mem hs hi]
  cases hstate : s.uDma.stateR with
  | idle => exact absurd hstate hbusy
  | setAddrAwaitAck =>
      have hready : (i.toDma s.rdata).mAxiAwready = false := by
        simpa [busEvents, mAxiAwvalid, mAxiWvalid, mAxiBready, hstate] using hnone
      simp only [Fetches, hstate] at h
      obtain ⟨hbeat, hlast, -⟩ := h
      have hfirst : firstWord P mem bs.getLast? s.uDma.addrR (t + 1) =
          burstWord P mem s.uDma.addrR 0 := by
        cases hprev : bs.getLast? with
        | none => rfl
        | some b =>
            have := hlast b hprev
            have hne : t ≠ b.respTime := by omega
            simp [firstWord, raced, hne]
      simp only [Fetches, nextStateW, nextAddrW, nextBeatW, hstate, hready, hbeat, hfirst]
      exact ⟨trivial, fun b hb => Nat.lt_succ_of_lt (hlast b hb), rfl⟩
  | setDataAwaitAck =>
      have hready : (i.toDma s.rdata).mAxiWready = false := by
        simpa [busEvents, mAxiAwvalid, mAxiWvalid, mAxiBready, hstate] using hnone
      simp only [Fetches, hstate] at h
      simp only [Tracks, hstate] at htracks
      obtain ⟨o, rfl, htime, -, hdata, hbeats⟩ := h
      obtain ⟨o', ho, haddr, hlen, -⟩ := htracks
      obtain rfl : o = o' := by simpa using ho
      have hport : readPort (burstWord P mem o.addr) (t + 1) o.beats.reverse =
          burstWord P mem s.uDma.addrR s.uDma.beatR.toNat := by
        rw [← hlen, ← haddr, ← List.length_reverse]
        cases hl : o.beats.reverse with
        | nil => rfl
        | cons b l =>
            have hb : b ∈ o.beats := by
              rw [← List.mem_reverse, hl]
              exact List.mem_cons_self
            have := htime b hb
            rw [readPort, if_neg (by omega), List.length_cons]
      simp only [Fetches, nextStateW, nextAddrW, nextBeatW, nextDataW, hstate, hready]
      exact ⟨o, rfl, fun b hb => Nat.lt_succ_of_lt (htime b hb), hport.symm, hdata, hbeats⟩
  | awaitResp =>
      have hvalid : (i.toDma s.rdata).mAxiBvalid = false := by
        simpa [busEvents, mAxiAwvalid, mAxiWvalid, mAxiBready, hstate] using hnone
      simp only [Fetches, hstate] at h
      obtain ⟨o, b, l, rfl, hl, htime, -, hbeats⟩ := h
      simp only [Fetches, nextStateW, nextAddrW, nextBeatW, hstate, hvalid]
      refine ⟨o, b, l, rfl, hl, Nat.lt_succ_of_lt htime, ?_, hbeats⟩
      rw [if_neg (by omega)]
      rfl

/-- The edge that accepts an address loads the first word of the burst. -/
theorem Fetches.accept (hs : s.uDma.rst = .released) (hi : i.rstI = false)
    (hstate : s.uDma.stateR = .setAddrAwaitAck)
    (hready : (i.toDma s.rdata).mAxiAwready = true)
    (h : Fetches P mem t s bs none) :
    Fetches P mem (t + 1) (ReadOut.step P mem i s) bs
      (some (.accept 16 s.uDma.addrR t)) := by
  rw [step_live P mem hs hi]
  simp only [Fetches, hstate] at h
  obtain ⟨hbeat, -, hrdata⟩ := h
  simp only [Fetches, nextStateW, nextBeatW, nextDataW, nextAddrW, hstate, hready, hbeat]
  exact ⟨_, rfl, by simp [OpenBurst.accept], rfl, hrdata, trivial⟩

/-- The edge that accepts a beat loads the word after the one the read port has
left. -/
theorem Fetches.beat {o : BusOpenBurst} (hs : s.uDma.rst = .released) (hi : i.rstI = false)
    (hroom : o.beats.length < 16) (hstate : s.uDma.stateR = .setDataAwaitAck)
    (hready : (i.toDma s.rdata).mAxiWready = true) (hlen : o.beats.length = s.uDma.beatR.toNat)
    (haddr : o.addr = s.uDma.addrR) (h : Fetches P mem t s bs (some o)) :
    Fetches P mem (t + 1) (ReadOut.step P mem i s) bs
      (some (o.beat ⟨t, s.uDma.dataR⟩ hroom)) := by
  rw [step_live P mem hs hi]
  simp only [Fetches, hstate] at h
  obtain ⟨o', ho, htime, hrdata, hdata, hbeats⟩ := h
  obtain rfl : o = o' := by simpa using ho
  have hrev : (o.beat ⟨t, s.uDma.dataR⟩ hroom).beats.reverse =
      ⟨t, s.uDma.dataR⟩ :: o.beats.reverse := by
    simp [OpenBurst.beat]
  have hbeats' : Prefetched (burstWord P mem o.addr)
      (firstWord P mem bs.getLast? o.addr o.awTime)
      (⟨t, s.uDma.dataR⟩ :: o.beats.reverse) := ⟨hdata, hbeats⟩
  have hport : burstWord P mem s.uDma.addrR s.uDma.beatR.toNat =
      readPort (burstWord P mem o.addr) (t + 1) (⟨t, s.uDma.dataR⟩ :: o.beats.reverse) := by
    rw [readPort, if_pos rfl, List.length_reverse, hlen, haddr]
  cases hlast : lastBeat s.uDma with
  | false =>
      simp only [Fetches, nextStateW, nextAddrW, nextBeatW, nextDataW, hstate, hready, hlast]
      refine ⟨_, rfl, ?_, ?_, ?_, ?_⟩
      · intro b hb
        rw [← List.mem_reverse, hrev] at hb
        rcases List.mem_cons.mp hb with rfl | hold
        · exact Nat.lt_succ_self t
        · exact Nat.lt_succ_of_lt (htime b (List.mem_reverse.mp hold))
      · rw [hrev]
        exact hport
      · rw [hrev]
        exact hrdata
      · rw [hrev]
        exact hbeats'
  | true =>
      have hfull : s.uDma.beatR = 15#5 := by
        apply BitVec.eq_of_toNat_eq
        rw [(lastBeat_iff _).mp hlast]
        rfl
      simp only [Fetches, nextStateW, nextBeatW, hstate, hready, hlast]
      refine ⟨_, ⟨t, s.uDma.dataR⟩, o.beats.reverse, rfl, hrev, Nat.lt_succ_self t, ?_, ?_⟩
      · rw [if_pos rfl, hfull]
        rfl
      · rw [hrev]
        exact hbeats'

/-- The edge that accepts an OKAY response completes the burst.  Only a
response right after the last beat leaves the read port at the next burst. -/
theorem Fetches.respond {o : BusOpenBurst} (hs : s.uDma.rst = .released)
    (hi : i.rstI = false) (hlen : o.beats.length = 16) (hstate : s.uDma.stateR = .awaitResp)
    (hvalid : (i.toDma s.rdata).mAxiBvalid = true) (haddr : o.addr = s.uDma.addrR)
    (hokay : i.mAxiBvalid = true → i.mAxiBresp = respOkay)
    (h : Fetches P mem t s bs (some o)) :
    Fetches P mem (t + 1) (ReadOut.step P mem i s)
      (bs ++ [o.respond i.mAxiBresp t hlen]) none := by
  rw [step_live P mem hs hi]
  simp only [Fetches, hstate] at h
  obtain ⟨o', b, l, ho, hl, htime, hbeat, -⟩ := h
  obtain rfl : o = o' := by simpa using ho
  have hokay' : (i.toDma s.rdata).mAxiBresp = respOkay := hokay hvalid
  by_cases hfinal : P.finalWriteAddr < s.uDma.addrR + addrInc
  · simp [Fetches, nextStateW, hstate, hvalid, hokay', hfinal]
  · have hraced : raced (o.respond i.mAxiBresp t hlen) (t + 1) = true ↔ b.time + 1 < t := by
      simp only [raced, lateResponse, OpenBurst.respond, hl, List.head?_cons, Option.any_some,
        beq_self_eq_true, Bool.and_true]
      exact decide_eq_true_iff
    simp only [Fetches, nextStateW, nextBeatW, nextAddrW, hstate, hvalid, hokay', hfinal]
    refine ⟨trivial, ?_, ?_⟩
    · intro c hc
      obtain rfl : o.respond i.mAxiBresp t hlen = c := by simpa using hc
      exact Nat.lt_succ_self t
    · rw [List.getLast?_concat, firstWord, hbeat]
      by_cases hlate : b.time + 1 < t
      · rw [if_pos (hraced.mpr hlate), if_neg (by omega), ← haddr]
        rfl
      · rw [if_neg (mt hraced.mp hlate), if_pos (by omega)]
        exact burstWord_next P mem s.uDma.addrR

/-- One edge of a transfer, whatever handshake it completes. -/
theorem Fetches.step (hs : s.uDma.rst = .released) (hi : i.rstI = false)
    (hokay : i.mAxiBvalid = true → i.mAxiBresp = respOkay) (hbusy : s.uDma.stateR ≠ .idle)
    (htracks : Tracks s.uDma cur)
    (hobs : Observes t (i.toDma s.rdata) s.uDma bs cur bs' cur')
    (h : Fetches P mem t s bs cur) :
    Fetches P mem (t + 1) (ReadOut.step P mem i s) bs' cur' := by
  cases hobs with
  | quiet cur hnone _ => exact h.quiet hs hi hbusy htracks hnone
  | accept hstate hready => exact h.accept hs hi hstate hready
  | beat o hroom hstate hready hlen =>
      exact h.beat hs hi hroom hstate hready hlen (htracks.addr_eq rfl)
  | respond o hlen hstate hvalid haddr =>
      exact h.respond hs hi hlen hstate hvalid haddr hokay

/-- A burst completed by an edge was copied from the words on offer. -/
theorem Fetches.copied (hobs : Observes t (i.toDma s.rdata) s.uDma bs cur bs' cur')
    (h : Fetches P mem t s bs cur) (hcopied : Copied P mem none bs) :
    Copied P mem none bs' := by
  cases hobs with
  | quiet cur _ _ => exact hcopied
  | accept _ _ => exact hcopied
  | beat o _ _ _ _ => exact hcopied
  | respond o hlen hstate hvalid haddr =>
      simp only [Fetches, hstate] at h
      obtain ⟨o', b, l, ho, hl, htime, hbeat, hbeats⟩ := h
      obtain rfl : o = o' := by simpa using ho
      rw [copied_concat]
      exact ⟨hcopied, by simpa [OpenBurst.respond] using hbeats⟩

end Step

end ReadOut
end PoundDreverHall
