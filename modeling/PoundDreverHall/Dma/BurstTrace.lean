import PoundDreverHall.Clocked.AxiWrite
import PoundDreverHall.Clocked.Run
import PoundDreverHall.Rtl.DmaController

/-!
# DMA controller - the handshakes of a run

This file connects `dma_controller` to the burst traces of an AXI write
master.  It gives one equation for a clock edge outside reset, says which
handshake each edge completes, and shows that the registers always describe
the burst that is open on the bus.

Main results:

- Theorem {lit}`step_live`: one clock edge outside reset.
- Theorem {lit}`Tracks.step`: every edge completes at most one handshake, and
  the registers track the open burst before and after it.
- Theorem {lit}`Observes.traceEvents`: the handshakes of an edge extend the
  trace by exactly what the edge observes.
-/

namespace PoundDreverHall
namespace DmaController

open AxiWrite Clocked

/-! ## Edges outside reset -/

/-- The state two edges after {lit}`rst_i` is released: the reset values, with
the reset pipeline drained. -/
def afterReset (P : Params) : State :=
  { resetState P with rst := .released }

/-- The reset pipeline drains in two edges, during which nothing moves. -/
theorem step_step_resetState (P : Params) {i i' : Input}
    (hi : i.rstI = false) (hi' : i'.rstI = false) :
    step P i' (step P i (resetState P)) = afterReset P := by
  simp [step, posedge, hi, hi', resetRegs, resetState, afterReset, ResetSync.asserted,
    ResetSync.released, PosedgeDetector.clock, PosedgeDetector.cleared]

/-- One clock edge outside reset. -/
theorem step_live (P : Params) {i : Input} {s : State}
    (hs : s.rst = .released) (hi : i.rstI = false) :
    step P i s =
      { rst := .released
        enable1ff := i.enableI
        enable2ff := s.enable1ff
        enable3ff := s.enable2ff
        uEnableEdgeDetector := { prevD := s.enable3ff }
        stateR := nextStateW P i s
        addrR := nextAddrW P i s
        beatR := nextBeatW i s
        dataR := nextDataW i s } := by
  simp [step, posedge, hi, hs, ResetSync.released, PosedgeDetector.clock]

section Live

variable {P : Params} {i : Input} {s : State}

@[simp]
theorem step_rst (hs : s.rst = .released) (hi : i.rstI = false) :
    (step P i s).rst = .released := by
  rw [step_live P hs hi]

theorem step_stateR (hs : s.rst = .released) (hi : i.rstI = false) :
    (step P i s).stateR = nextStateW P i s := by
  rw [step_live P hs hi]

theorem step_addrR (hs : s.rst = .released) (hi : i.rstI = false) :
    (step P i s).addrR = nextAddrW P i s := by
  rw [step_live P hs hi]

theorem step_beatR (hs : s.rst = .released) (hi : i.rstI = false) :
    (step P i s).beatR = nextBeatW i s := by
  rw [step_live P hs hi]

theorem step_dataR (hs : s.rst = .released) (hi : i.rstI = false) :
    (step P i s).dataR = nextDataW i s := by
  rw [step_live P hs hi]

end Live

/-- The reset pipeline stays drained along a run without reset. -/
theorem run_rst (P : Params) {s : State} {ins : ℕ → Input} (hs : s.rst = .released)
    (hins : ∀ t, (ins t).rstI = false) (n : ℕ) :
    (run (step P) s ins n).rst = .released :=
  run_invariant (fun s : State => s.rst = .released) hs
    (fun n h => step_rst (P := P) h (hins n)) n

/-- The last beat of a burst is offered at count fifteen. -/
theorem lastBeat_iff (s : State) : lastBeat s = true ↔ s.beatR.toNat = 15 := by
  rw [lastBeat, beq_iff_eq, ← BitVec.toNat_inj]
  rfl

/-! ## Handshakes -/

/-- Handshakes of the write channels, with the widths of HP0. -/
abbrev BusEvent := Event (BitVec 32) (BitVec 64) (BitVec 2)

/-- A complete sixteen-beat burst. -/
abbrev BusBurst := Burst 16 (BitVec 32) (BitVec 64) (BitVec 2)

/-- A sixteen-beat burst in progress. -/
abbrev BusOpenBurst := OpenBurst 16 (BitVec 32) (BitVec 64)

/-- Handshakes completed in cycle {lit}`t`, read off the ports of the three
channels independently. -/
def busEvents (t : ℕ) (i : Input) (s : State) : List (ℕ × BusEvent) :=
  (if mAxiAwvalid s && i.mAxiAwready then [(t, .aw (mAxiAwaddr s))] else []) ++
  (if mAxiWvalid s && i.mAxiWready then [(t, .w (mAxiWdata s) (mAxiWlast s))] else []) ++
  (if mAxiBready s && i.mAxiBvalid then [(t, .b i.mAxiBresp)] else [])

/-- The registers describe the open burst: its address is in {lit}`addr_r` and
{lit}`beat_r` counts its accepted beats until all sixteen are. -/
def Tracks (s : State) (cur : Option BusOpenBurst) : Prop :=
  match s.stateR with
  | .idle => cur = none
  | .setAddrAwaitAck => cur = none
  | .setDataAwaitAck =>
      ∃ o, cur = some o ∧ o.addr = s.addrR ∧ o.beats.length = s.beatR.toNat ∧
        s.beatR.toNat < 16
  | .awaitResp => ∃ o, cur = some o ∧ o.addr = s.addrR ∧ o.beats.length = 16

/-- The address register holds the address of the open burst. -/
theorem Tracks.addr_eq {s : State} {cur : Option BusOpenBurst} {o : BusOpenBurst}
    (h : Tracks s cur) (ho : cur = some o) : o.addr = s.addrR := by
  subst ho
  cases hstate : s.stateR <;> simp_all [Tracks]

/-- What one clock edge adds to the bursts seen so far. -/
inductive Observes (t : ℕ) (i : Input) (s : State) (bs : List BusBurst) :
    Option BusOpenBurst → List BusBurst → Option BusOpenBurst → Prop where
  | quiet (cur : Option BusOpenBurst)
      (hnone : busEvents t i s = [])
      (hresp : ¬(s.stateR = .awaitResp ∧ i.mAxiBvalid = true)) :
      Observes t i s bs cur bs cur
  | accept (hstate : s.stateR = .setAddrAwaitAck)
      (hready : i.mAxiAwready = true) :
      Observes t i s bs none bs (some (.accept 16 s.addrR t))
  | beat (o : BusOpenBurst) (h : o.beats.length < 16)
      (hstate : s.stateR = .setDataAwaitAck) (hready : i.mAxiWready = true)
      (hlen : o.beats.length = s.beatR.toNat) :
      Observes t i s bs (some o) bs (some (o.beat ⟨t, s.dataR⟩ h))
  | respond (o : BusOpenBurst) (h : o.beats.length = 16)
      (hstate : s.stateR = .awaitResp) (hvalid : i.mAxiBvalid = true)
      (haddr : o.addr = s.addrR) :
      Observes t i s bs (some o) (bs ++ [o.respond i.mAxiBresp t h]) none

/-- Observing an edge extends the trace by the handshakes of that edge. -/
theorem Observes.traceEvents {t : ℕ} {i : Input} {s : State}
    {bs bs' : List BusBurst} {cur cur' : Option BusOpenBurst}
    (h : Observes t i s bs cur bs' cur') :
    AxiWrite.traceEvents bs' cur' = AxiWrite.traceEvents bs cur ++ busEvents t i s := by
  cases h with
  | quiet cur hnone _ => rw [hnone, List.append_nil]
  | accept hstate hready =>
      rw [traceEvents_accept]
      simp [busEvents, mAxiAwvalid, mAxiWvalid, mAxiBready, mAxiAwaddr, hstate, hready]
  | beat o h hstate hready hlen =>
      rw [traceEvents_beat]
      have hlast : (o.beats.length + 1 == 16) = lastBeat s := by
        rw [Bool.eq_iff_iff, lastBeat_iff, beq_iff_eq]
        omega
      simp [busEvents, mAxiAwvalid, mAxiWvalid, mAxiBready, mAxiWdata, mAxiWlast, hstate,
        hready, hlast]
  | respond o h hstate hvalid haddr =>
      rw [traceEvents_respond]
      simp [busEvents, mAxiAwvalid, mAxiWvalid, mAxiBready, hstate, hvalid]

/-- Every edge outside reset observes at most one handshake and keeps track of
the open burst. -/
theorem Tracks.step {P : Params} {t : ℕ} {i : Input} {s : State}
    {cur : Option BusOpenBurst} (hs : s.rst = .released) (hi : i.rstI = false)
    (h : Tracks s cur) (bs : List BusBurst) :
    ∃ bs' cur', Observes t i s bs cur bs' cur' ∧
      Tracks (DmaController.step P i s) cur' := by
  have hnext := step_stateR (P := P) hs hi
  have haddr := step_addrR (P := P) hs hi
  have hbeat := step_beatR (P := P) hs hi
  cases hstate : s.stateR with
  | idle =>
      have hcur : cur = none := by simpa [Tracks, hstate] using h
      refine ⟨bs, cur, .quiet cur ?_ (by simp [hstate]), ?_⟩
      · simp [busEvents, mAxiAwvalid, mAxiWvalid, mAxiBready, hstate]
      · cases hedge : enableSyncEdgeW s <;>
          simp [Tracks, hnext, nextStateW, hstate, hedge, hcur]
  | setAddrAwaitAck =>
      have hcur : cur = none := by simpa [Tracks, hstate] using h
      subst hcur
      cases hready : i.mAxiAwready with
      | false =>
          refine ⟨bs, none, .quiet none ?_ (by simp [hstate]), ?_⟩
          · simp [busEvents, mAxiAwvalid, mAxiWvalid, mAxiBready, hstate, hready]
          · simp [Tracks, hnext, nextStateW, hstate, hready]
      | true =>
          refine ⟨bs, _, .accept hstate hready, ?_⟩
          simp [Tracks, hnext, haddr, hbeat, nextStateW, nextAddrW, nextBeatW, beatBase,
            hstate, hready, OpenBurst.accept]
  | setDataAwaitAck =>
      obtain ⟨o, hcur, hoaddr, hlen, hlt⟩ : ∃ o, cur = some o ∧ o.addr = s.addrR ∧
          o.beats.length = s.beatR.toNat ∧ s.beatR.toNat < 16 := by
        simpa [Tracks, hstate] using h
      subst hcur
      cases hready : i.mAxiWready with
      | false =>
          refine ⟨bs, some o, .quiet _ ?_ (by simp [hstate]), ?_⟩
          · simp [busEvents, mAxiAwvalid, mAxiWvalid, mAxiBready, hstate, hready]
          · simp [Tracks, hnext, haddr, hbeat, nextStateW, nextAddrW, nextBeatW,
              hstate, hready, hoaddr, hlen, hlt]
      | true =>
          have hroom : o.beats.length < 16 := by omega
          refine ⟨bs, _, .beat o hroom hstate hready hlen, ?_⟩
          have hsucc : (s.beatR + 1#5).toNat = s.beatR.toNat + 1 := by
            rw [BitVec.toNat_add_of_lt]
            · rfl
            · change s.beatR.toNat + 1 < 32
              omega
          cases hlast : lastBeat s with
          | false =>
              have hne : s.beatR.toNat ≠ 15 := by
                intro heq
                rw [(lastBeat_iff s).mpr heq] at hlast
                contradiction
              simp [Tracks, hnext, haddr, hbeat, nextStateW, nextAddrW, nextBeatW,
                hstate, hready, hlast, OpenBurst.beat, hoaddr, hlen, hsucc]
              omega
          | true =>
              have heq := (lastBeat_iff s).mp hlast
              simp [Tracks, hnext, haddr, nextStateW, nextAddrW, hstate, hready, hlast,
                OpenBurst.beat, hoaddr, hlen, heq]
  | awaitResp =>
      obtain ⟨o, hcur, hoaddr, hlen⟩ : ∃ o, cur = some o ∧ o.addr = s.addrR ∧
          o.beats.length = 16 := by
        simpa [Tracks, hstate] using h
      subst hcur
      cases hvalid : i.mAxiBvalid with
      | false =>
          refine ⟨bs, some o, .quiet _ ?_ (by simp [hvalid]), ?_⟩
          · simp [busEvents, mAxiAwvalid, mAxiWvalid, mAxiBready, hstate, hvalid]
          · simp [Tracks, hnext, haddr, nextStateW, nextAddrW, hstate, hvalid, hoaddr, hlen]
      | true =>
          refine ⟨_, none, .respond o hlen hstate hvalid hoaddr, ?_⟩
          simp only [Tracks, hnext, nextStateW, hstate, hvalid]
          split_ifs <;> trivial

end DmaController
end PoundDreverHall
