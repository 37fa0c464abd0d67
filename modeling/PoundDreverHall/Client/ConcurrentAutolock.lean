import PoundDreverHall.Client.Autolock
import PoundDreverHall.Requests.LockRegisters

/-!
# Client - two autolock runs at the same time

A run is started by the button or by the persistent loop, and the guard of each start looks only at
the runs of that start.  The lock of `execute_cmd` is held for one command, so the commands of two
runs may follow one another in any order.

Main results:

- Definition {lit}`lab`: the server and the board, as the runs use them.
- Theorem {lit}`routing_step` and theorem {lit}`scaling_step`: what one operation of a run does.
- Theorem {lit}`concurrent_iff`: when the lock in force is that of one run.
- Theorem {lit}`locks_mix`: two runs whose locks mix.
-/

namespace PoundDreverHall
namespace Client

open Device Device.Program Protocol PyString Requests
open Server hiding isSpace

/-! ## The server and the board -/

/-- The file of the sweep after what a request has written; an opened file is empty. -/
def logged : Trace → List (List (List Char)) → List (List (List Char))
  | [], log => log
  | ⟨.fopen "sweep_log.csv", true⟩ :: tr, _ => logged tr []
  | ⟨.fprintfFloats fields, _⟩ :: tr, log => logged tr (log ++ [fields])
  | _ :: tr, log => logged tr log

/-- The registers of the board and the file of the sweep. -/
structure Lab where
  board : Board
  log : List (List (List Char))

section Lab

variable (F : Type) [MixedPrecision F] (D : Type) [PyFloat D]

/-- A command is a step of its own: the server takes the request, serves it and answers before
another command is sent.  The file is copied to one place on the client by every run, so a run may
read what another one has copied; the panels hold anything. -/
def lab : Machine (Op.Response D) Lab
  | s, .executeCmd call, response, s' =>
      ∃ (stack : BitVec 32) (tr : Trace) (reply : Option (List Char)),
        Performs (serve F stack (readAtOnce call.text)) tr reply ∧
          Follows board s.board tr s'.board ∧ s'.log = logged tr s.log ∧
          response = executeCmd (recvAtOnce (reply.getD []))
  | s, _, _, s' => s' = s

end Lab

/-! ## Acknowledged requests -/

section Acknowledged

variable {F : Type} [MixedPrecision F] {D : Type} [PyFloat D]

/-- A status of 0 comes from a handler that returned 0, or from no handler. -/
theorem performs_serve_zero {stack : BitVec 32} {inbuff : List Char} {tr : Trace}
    {reply : Option (List Char)} (hrun : Performs (serve F stack inbuff) tr reply)
    (hzero : (statusOf (executeCmd (recvAtOnce (reply.getD [])) : Response D)).isZero = true)
    {h : Handler} {fs : List F} {us : List (BitVec 32)}
    (hcall : invocation F inbuff = some (h, fs, us)) :
    ∃ (ctx : CmdCtx F) (r : Server.Reply F), Performs (h.run stack ctx) tr r ∧ r.returnCode = 0 ∧
      ctx.floatArgs = (fun i => fs.getD i (SinglePrecision.lit 0)) ∧
      ctx.uintArgs = (fun i => us.getD i 0#32) := by
  have hserved := performs_serve_invocation hrun
  rw [hcall] at hserved
  rcases hserved with ⟨ctx, r, hhandler, hfloats, huints, -, name, rfl⟩
  refine ⟨ctx, r, hhandler, ?_, hfloats, huints⟩
  by_cases hfits : (responseText name r).length < 1024
  · have hplain := reply_plain stack ctx hhandler
    have hstatus := status_of_reply (D := D) name (readable_of_plain hplain).1
      (readable_of_plain hplain).2
    rw [sendResponse, if_pos hfits, Option.getD_some, recvAtOnce,
      List.take_of_length_le (by omega), statusOf, hstatus, Option.getD_some,
      PyValue.isZero, decide_eq_true_eq] at hzero
    exact Int.ofNat_eq_zero.mp hzero
  · -- the client receives nothing, and finds no status
    have hnothing : statusOf (executeCmd (recvAtOnce []) : Response D) = .int (-1) := rfl
    rw [sendResponse, if_neg hfits, Option.getD_none, hnothing] at hzero
    cases hzero

/-- Without a handler nothing is sent to the board. -/
theorem follows_unserved {stack : BitVec 32} {inbuff : List Char} {tr : Trace}
    {reply : Option (List Char)} (hrun : Performs (serve F stack inbuff) tr reply)
    (hcall : invocation F inbuff = none) {b b' : Board} (hfollows : Follows board b tr b') :
    b' = b := by
  have hserved := performs_serve_invocation hrun
  rw [hcall] at hserved
  subst hserved
  cases hfollows
  rfl

/-- A request whose last number is one digit is read whole, or it calls no handler. -/
theorem invocation_readAtOnce (call : ApiCall) (front : List (List Char)) (d : Char) {e : CmdEntry}
    (he : findEntry call.name = some e) (huints : call.uints = some (front ++ [[d]])) :
    invocation F (readAtOnce call.text) =
      if call.text.length ≤ 1024 then
        some (e.func, ((call.floats.getD []).take 64).map MixedPrecision.ofText,
          (front ++ [[d]]).map (numberOr strtoul 0#32))
      else none := by
  rcases call.complete with ⟨e', hname, h⟩
  have hentry : e' = e := by
    rw [← hname, findEntry_name e' h.mem] at he
    exact Option.some.inj he
  subst hentry
  have hpos : 0 < call.text.length := by simp [ApiCall.text, requestText, requestLines]
  unfold ApiCall.text at hpos ⊢
  rw [← hname] at hpos ⊢
  have htoken := (h.numerals [d] (by rw [huints]; simp)).token 0#32
  by_cases hle : (requestText e'.name call.floats call.uints).length ≤ 1024
  · have hall : [d] = [d].take ((requestText e'.name call.floats call.uints).length + [d].length -
        (requestText e'.name call.floats call.uints).length) := by simp
    have hwhole := (h.invocation_take_uints (F := F) huints hpos (Nat.le_refl _) hall).2 _ _
      htoken.reads
    rw [List.take_length] at hwhole
    rw [if_pos hle, readAtOnce, List.take_of_length_le hle, hwhole, List.map_append,
      List.map_singleton]
  · have hcut : [] = [d].take (1024 + [d].length -
        (requestText e'.name call.floats call.uints).length) := by
      rw [List.length_singleton, Nat.sub_eq_zero_of_le (by omega), List.take_zero]
    rw [if_neg hle]
    exact (h.invocation_take_uints huints (by omega) (by omega) hcut).1 rfl

end Acknowledged

/-! ## What an operation writes -/

/-- The requests of a run. -/
inductive Locking : ApiCall → Prop where
  | sweep (v0 v1 : FloatText) (pts delay : ℤ) : Locking (.sweepRamp v0 v1 pts 0 delay 0)
  | route (dac2 : ℤ) (chan : Chan) (hdac2 : 0 ≤ dac2 ∧ dac2 ≤ 3) :
      Locking (.configIo 1 dac2 chan.toPidSel)
  | lock (kp kd ki sp gain bias egain : FloatText) (dec alpha sat : ℤ) :
      Locking (.setPid kp kd ki sp dec alpha sat 1 gain bias egain)

section Codes

variable {F : Type} [SinglePrecision F]

open SinglePrecision

/-- The register of a bias, which the core stores negated. -/
def biasCode (bias : F) : BitVec 14 :=
  -((clamp (-8191) 8191 (lrintf (mul bias (lit 8191)))).setWidth 16).setWidth 14

/-- The register of an input gain. -/
def egainCode (egain : F) : BitVec 16 :=
  (clamp (-32768) 32767 (lrintf (mul egain (lit 1024)))).setWidth 16

end Codes

section Steps

variable {F : Type} [MixedPrecision F] {D : Type}

/-- The signal that an operation gives to the controller. -/
def routes : (o : Op) × o.Response D → Option (BitVec 3)
  | ⟨.executeCmd (.configIo _ _ pid), _⟩ => some (BitVec.ofInt 3 pid)
  | _ => none

variable (F) in
/-- The bias and the input gain that an operation gives to the controller, if the server reads the
request whole. -/
def scales : (o : Op) × o.Response D → Option (BitVec 14 × BitVec 16)
  | ⟨.executeCmd (.setPid kp kd ki sp dec alpha sat en gain bias egain), _⟩ =>
      if (ApiCall.setPid kp kd ki sp dec alpha sat en gain bias egain).text.length ≤ 1024 then
        some (biasCode (MixedPrecision.ofText bias.text : F),
          egainCode (MixedPrecision.ofText egain.text : F))
      else none
  | _ => none

variable [PyFloat D] {s s' : Lab}

/-- A sweep keeps the registers of a lock. -/
theorem sweep_step {v0 v1 : FloatText} {pts delay : ℤ} {response : Client.Response D}
    (hstep : lab F D s (.executeCmd (.sweepRamp v0 v1 pts 0 delay 0)) response s')
    (hzero : (statusOf response).isZero = true) :
    s'.board.pidSel = s.board.pidSel ∧ s'.board.scaling = s.board.scaling := by
  rcases hstep with ⟨stack, tr, reply, hrun, hfollows, -, rfl⟩
  have hcall := invocation_readAtOnce (F := F) (.sweepRamp v0 v1 pts 0 delay 0)
    [formatInt pts, formatInt 0, formatInt delay] '0' (e := ⟨_, .sweepRamp, 2, 0, 4⟩) rfl rfl
  split_ifs at hcall with hlength
  · rcases performs_serve_zero hrun hzero hcall with ⟨ctx, r, hhandler, -⟩
    exact sweepRamp_keeps hhandler hfollows
  · rw [follows_unserved hrun hcall hfollows]
    exact ⟨rfl, rfl⟩

/-- A routing request routes the signal of its channel. -/
theorem route_step {dac2 : ℤ} {chan : Chan} (hdac2 : 0 ≤ dac2 ∧ dac2 ≤ 3)
    {response : Client.Response D}
    (hstep : lab F D s (.executeCmd (.configIo 1 dac2 chan.toPidSel)) response s')
    (hzero : (statusOf response).isZero = true) :
    s'.board.pidSel = BitVec.ofInt 3 chan.toPidSel ∧ s'.board.scaling = s.board.scaling := by
  rcases hstep with ⟨stack, tr, reply, hrun, hfollows, -, rfl⟩
  rcases hdac2 with ⟨hlo, hhi⟩
  have hshort : (ApiCall.configIo 1 dac2 chan.toPidSel).text.length ≤ 1024 := by
    have hdac2 : dac2 = 0 ∨ dac2 = 1 ∨ dac2 = 2 ∨ dac2 = 3 := by omega
    rcases hdac2 with rfl | rfl | rfl | rfl <;> cases chan <;> decide
  have hdigit : ∃ d, (ApiCall.configIo 1 dac2 chan.toPidSel).uints =
        some ([formatInt 1, formatInt dac2] ++ [[d]]) ∧
      (numberOr strtoul 0#32 [d]).setWidth 3 = BitVec.ofInt 3 chan.toPidSel := by
    cases chan <;> exact ⟨_, rfl, by decide⟩
  rcases hdigit with ⟨d, huints, hvalue⟩
  have hcall := invocation_readAtOnce (F := F) (.configIo 1 dac2 chan.toPidSel)
    [formatInt 1, formatInt dac2] d (e := ⟨_, .configIo, 0, 0, 3⟩) rfl huints
  rw [if_pos hshort] at hcall
  rcases performs_serve_zero hrun hzero hcall with ⟨ctx, r, hhandler, hok, -, hctx⟩
  rcases configIo_writes hhandler hfollows hok with ⟨hsel, hscaling⟩
  refine ⟨?_, hscaling⟩
  rw [hsel, hctx, ← hvalue]
  rfl

/-- A request for the controller gives it the bias and the input gain, if the server reads it
whole. -/
theorem lock_step {kp kd ki sp gain bias egain : FloatText} {dec alpha sat : ℤ}
    {response : Client.Response D}
    (hstep : lab F D s
      (.executeCmd (.setPid kp kd ki sp dec alpha sat 1 gain bias egain)) response s')
    (hzero : (statusOf response).isZero = true) :
    s'.board.pidSel = s.board.pidSel ∧
      s'.board.scaling = (scales F ⟨.executeCmd (.setPid kp kd ki sp dec alpha sat 1 gain bias
        egain), response⟩).getD s.board.scaling := by
  rcases hstep with ⟨stack, tr, reply, hrun, hfollows, -, rfl⟩
  have hcall := invocation_readAtOnce (F := F)
    (.setPid kp kd ki sp dec alpha sat 1 gain bias egain)
    [formatInt dec, formatInt alpha, formatInt sat] '1' (e := ⟨_, .setPid, 4, 0, 4⟩) rfl rfl
  rw [scales]
  split_ifs at hcall ⊢ with hlength
  · rcases performs_serve_zero hrun hzero hcall with ⟨ctx, r, hhandler, -, hfloats, -⟩
    rcases setPid_writes hhandler hfollows with ⟨hsel, hscaling⟩
    refine ⟨hsel, ?_⟩
    rw [hscaling, PidRequest.ofCtx, hfloats]
    rfl
  · rw [follows_unserved hrun hcall hfollows]
    exact ⟨rfl, rfl⟩

/-- An operation of a run that raises no error. -/
def Acknowledged : (o : Op) × o.Response D → Prop
  | ⟨.executeCmd call, response⟩ => Locking call ∧ (statusOf response).isZero = true
  | _ => True

theorem lab_step {o : Op} {response : o.Response D} (hgood : Acknowledged ⟨o, response⟩)
    (hstep : lab F D s o response s') :
    s'.board.pidSel = (routes ⟨o, response⟩).getD s.board.pidSel ∧
      s'.board.scaling = (scales F ⟨o, response⟩).getD s.board.scaling := by
  cases o with
  | executeCmd call =>
      rcases hgood with ⟨hlocking, hzero⟩
      cases hlocking with
      | sweep v0 v1 pts delay => exact sweep_step hstep hzero
      | route dac2 chan hdac2 => exact route_step hdac2 hstep hzero
      | lock kp kd ki sp gain bias egain dec alpha sat => exact lock_step hstep hzero
  | _ =>
      cases hstep
      exact ⟨rfl, rfl⟩

/-- Only a routing request changes the signal of the controller. -/
theorem routing_step (s : Lab) (o : Op) (response : o.Response D) (s' : Lab)
    (hgood : Acknowledged ⟨o, response⟩) (hstep : lab F D s o response s') :
    s'.board.pidSel = (routes ⟨o, response⟩).getD s.board.pidSel :=
  (lab_step hgood hstep).1

/-- Only a request for the controller changes its bias and its input gain. -/
theorem scaling_step (s : Lab) (o : Op) (response : o.Response D) (s' : Lab)
    (hgood : Acknowledged ⟨o, response⟩) (hstep : lab F D s o response s') :
    s'.board.scaling = (scales F ⟨o, response⟩).getD s.board.scaling :=
  (lab_step hgood hstep).2

end Steps

/-! ## Two runs -/

/-- What starts a run. -/
inductive Starter where
  | button
  | persistent
deriving DecidableEq, Repr

theorem Starter.eq_or_eq (i j k : Starter) : i = j ∨ i = k ∨ j = k := by
  cases i <;> cases j <;> cases k <;> decide

/-- Two different runs agree if and only if both runs do. -/
theorem Starter.agree_iff {α : Type} (f : Starter → α) {i j : Starter} (h : i ≠ j) :
    f i = f j ↔ f .button = f .persistent := by
  cases i <;> cases j
  · exact absurd rfl h
  · exact Iff.rfl
  · exact eq_comm
  · exact absurd rfl h

theorem toPidSel_injective {chan chan' : Chan} :
    BitVec.ofInt 3 chan.toPidSel = BitVec.ofInt 3 chan'.toPidSel ↔ chan = chan' := by
  cases chan <;> cases chan' <;> decide

section Runs

variable (F : Type) [MixedPrecision F] {D : Type} [PyNumber D]

/-- The registers of the bias and the input gain for a lock point. -/
def lockCodes (lock : LockPoint D) : BitVec 14 × BitVec 16 :=
  (biasCode (MixedPrecision.ofText (PyFloat.repr lock.lockPoint) : F),
    egainCode (MixedPrecision.ofText (PyFloat.repr lock.egain) : F))

/-- The selection, the bias and the input gain in force are those that a run computed. -/
structure InForce (result : LockResult D) (b : Board) : Prop where
  pidSel : b.pidSel = BitVec.ofInt 3 result.pidSel
  scaling : b.scaling = lockCodes F result.lock

variable [NumPy D]

/-- What a run that finishes without error has done. -/
structure Writes (p : Params D) (result : LockResult D) (tr : List ((o : Op) × o.Response D)) :
    Prop where
  acknowledged : ∀ e ∈ tr, Acknowledged e
  routes_eq : ∀ e ∈ tr, ∀ x, routes e = some x → x = BitVec.ofInt 3 p.chan.toPidSel
  scales_eq : ∀ e ∈ tr, ∀ x, scales F e = some x → x = lockCodes F result.lock
  routed : ∃ e ∈ tr, (routes e).isSome = true

theorem writes_autolockBg {p : Params D} {result : LockResult D}
    {tr : List ((o : Op) × o.Response D)} (h : Performs (autolockBg p).run tr (.ok result)) :
    Writes F p result tr := by
  rcases requests_autolockBg h with
    ⟨-, -, sweep, config, pid, dac2, dec, alpha, sat, kp, kd, ki, gain, hrequests, hdac2, hsweep,
      hconfig, hpid⟩
  have hcases : ∀ e ∈ tr, (Acknowledged e ∧ routes e = none ∧ scales F e = none) ∨
      e = ⟨.executeCmd (.configIo 1 dac2 p.chan.toPidSel), config⟩ ∨
      e = ⟨.executeCmd (.setPid (floatText kp) (floatText kd) (floatText ki)
        (floatText (PyNumber.lit 0 : D)) dec alpha sat 1 (floatText gain)
        (floatText result.lock.lockPoint) (floatText result.lock.egain)), pid⟩ := by
    rintro ⟨o, r⟩ he
    cases o with
    | executeCmd call =>
        have hmem := mem_requests.mpr he
        rw [hrequests] at hmem
        simp only [List.mem_cons, Prod.mk.injEq, List.not_mem_nil, or_false] at hmem
        rcases hmem with ⟨rfl, rfl⟩ | ⟨rfl, rfl⟩ | ⟨rfl, rfl⟩
        · exact .inl ⟨⟨.sweep _ _ _ _, hsweep⟩, rfl, rfl⟩
        · exact .inr (.inl rfl)
        · exact .inr (.inr rfl)
    | _ => exact .inl ⟨trivial, rfl, rfl⟩
  refine ⟨?_, ?_, ?_, ?_⟩
  · intro e he
    rcases hcases e he with ⟨hgood, -, -⟩ | rfl | rfl
    · exact hgood
    · exact ⟨.route _ _ hdac2, hconfig⟩
    · exact ⟨.lock _ _ _ _ _ _ _ _ _ _, hpid⟩
  · intro e he x hx
    rcases hcases e he with ⟨-, hnone, -⟩ | rfl | rfl
    · rw [hnone] at hx
      cases hx
    · exact (Option.some.inj hx).symm
    · cases hx
  · intro e he x hx
    rcases hcases e he with ⟨-, -, hnone⟩ | rfl | rfl
    · rw [hnone] at hx
      cases hx
    · cases hx
    · rw [scales] at hx
      split_ifs at hx
      exact (Option.some.inj hx).symm
  · refine ⟨⟨.executeCmd (.configIo 1 dac2 p.chan.toPidSel), config⟩, ?_, rfl⟩
    rw [← mem_requests, hrequests]
    simp

/-- The registers for the lock point in the table that a run fetched. -/
def tableCodes (p : Params D) (tr : List ((o : Op) × o.Response D)) :
    Option (BitVec 14 × BitVec 16) :=
  (fetched tr).bind fun data => (findLockPoint p.chan p.peakPts data).toOption.map (lockCodes F)

theorem tableCodes_autolockBg {p : Params D} {result : LockResult D}
    {tr : List ((o : Op) × o.Response D)} (h : Performs (autolockBg p).run tr (.ok result)) :
    tableCodes F p tr = some (lockCodes F result.lock) := by
  rcases requests_autolockBg h with ⟨-, ⟨data, hdata, hlock⟩, -⟩
  rw [tableCodes, hdata, Option.bind_some, hlock]
  rfl

/-- The order of the requests keeps the locks of two runs apart: the run that routes last is also the
last one to give the controller a bias and an input gain, or the runs have the same channel or the
same bias and input gain.  If the server reads neither of the requests for the controller whole, the
controller already had the bias and the input gain of a run for the channel that is routed. -/
def KeptApart (params : Starter → Params D) (s : Lab)
    (tr : List (Starter × ((o : Op) × o.Response D))) : Prop :=
  match lastWriter (fun e => (scales F e).isSome) tr with
  | some j =>
      lastWriter (fun e => (routes e).isSome) tr = some j ∨
        (params .button).chan = (params .persistent).chan ∨
        tableCodes F (params .button) (side .button tr) =
          tableCodes F (params .persistent) (side .persistent tr)
  | none =>
      ∃ i j, lastWriter (fun e => (routes e).isSome) tr = some j ∧
        (params j).chan = (params i).chan ∧
        tableCodes F (params i) (side i tr) = some s.board.scaling

section Interleaving

variable {F} {params : Starter → Params D} {results : Starter → LockResult D} {s s' : Lab}
  {tr : List (Starter × ((o : Op) × o.Response D))}
  (hrun : ∀ i, Performs (autolockBg (params i)).run (side i tr) (.ok (results i)))
  (hfollows : Follows (lab F D) s (tr.map Prod.snd) s')

include hrun hfollows

/-- The controller is given the signal of the run that routes last. -/
theorem routing_after : ∃ a, lastWriter (fun e => (routes e).isSome) tr = some a ∧
    s'.board.pidSel = BitVec.ofInt 3 (params a).chan.toPidSel := by
  have hwrites := fun i => writes_autolockBg F (hrun i)
  have hrouting : s'.board.pidSel = ((lastWriter (fun e => (routes e).isSome) tr).map fun i =>
      BitVec.ofInt 3 (params i).chan.toPidSel).getD s.board.pidSel :=
    interleaved_get routing_step hfollows (fun i => (hwrites i).acknowledged)
      fun i => (hwrites i).routes_eq
  rcases (hwrites .button).routed with ⟨e, he, hroutes⟩
  rcases exists_lastWriter (p := fun e => (routes e).isSome) he hroutes with ⟨a, ha⟩
  rw [ha, Option.map_some, Option.getD_some] at hrouting
  exact ⟨a, ha, hrouting⟩

/-- Its bias and its input gain are those of the run that writes them last. -/
theorem scaling_after :
    s'.board.scaling = ((lastWriter (fun e => (scales F e).isSome) tr).map fun i =>
      lockCodes F (results i).lock).getD s.board.scaling := by
  have hwrites := fun i => writes_autolockBg F (hrun i)
  exact interleaved_get scaling_step hfollows (fun i => (hwrites i).acknowledged)
    fun i => (hwrites i).scales_eq

end Interleaving

/-- The selection, the bias and the input gain that are in force after two runs were computed by the
same run if and only if the order of the requests keeps them apart. -/
theorem concurrent_iff {params : Starter → Params D} {results : Starter → LockResult D} {s s' : Lab}
    {tr : List (Starter × ((o : Op) × o.Response D))}
    (hrun : ∀ i, Performs (autolockBg (params i)).run (side i tr) (.ok (results i)))
    (hfollows : Follows (lab F D) s (tr.map Prod.snd) s') :
    (∃ i, InForce F (results i) s'.board) ↔ KeptApart F params s tr := by
  have htables := fun i => tableCodes_autolockBg F (hrun i)
  have hscaling := scaling_after hrun hfollows
  rcases routing_after hrun hfollows with ⟨a, ha, hrouting⟩
  have hforce : ∀ i, InForce F (results i) s'.board ↔
      (params a).chan = (params i).chan ∧ s'.board.scaling = lockCodes F (results i).lock := by
    intro i
    have hsel : s'.board.pidSel = BitVec.ofInt 3 (results i).pidSel ↔
        (params a).chan = (params i).chan := by
      rw [hrouting, (requests_autolockBg (hrun i)).1, toPidSel_injective]
    exact ⟨fun h => ⟨hsel.mp h.pidSel, h.scaling⟩, fun h => ⟨hsel.mpr h.1, h.2⟩⟩
  simp only [hforce]
  unfold KeptApart
  cases hb : lastWriter (fun e => (scales F e).isSome) tr with
  | none =>
      rw [hb, Option.map_none, Option.getD_none] at hscaling
      simp only [ha, htables, hscaling, Option.some_inj]
      constructor
      · rintro ⟨i, hchan, hcodes⟩
        exact ⟨i, a, rfl, hchan, hcodes.symm⟩
      · rintro ⟨i, j, rfl, hchan, hcodes⟩
        exact ⟨i, hchan, hcodes.symm⟩
  | some j =>
      rw [hb, Option.map_some, Option.getD_some] at hscaling
      simp only [ha, htables, hscaling, Option.some_inj]
      by_cases haj : a = j
      · subst haj
        exact iff_of_true ⟨a, rfl, rfl⟩ (.inl rfl)
      · -- the two runs are those that route last and that write last
        rw [← Starter.agree_iff (fun i => (params i).chan) haj,
          ← Starter.agree_iff (fun i => lockCodes F (results i).lock) haj]
        constructor
        · rintro ⟨i, hchan, hcodes⟩
          rcases Starter.eq_or_eq i a j with rfl | rfl | heq
          · exact .inr (.inr hcodes.symm)
          · exact .inr (.inl hchan)
          · exact absurd heq haj
        · rintro (heq | hchan | hcodes)
          · exact absurd heq haj
          · exact ⟨j, hchan, rfl⟩
          · exact ⟨a, rfl, hcodes.symm⟩

end Runs

/-! ### Two runs that mix -/

/-- A decimal number with its exact value. -/
structure Decimal where
  val : ℚ
deriving DecidableEq

namespace Decimal

/-- The decimals that `str` shows: zeros at the end are left out, but for the first one. -/
def decimals (n : ℕ) : List Char :=
  let digits := Nat.toDigits 10 n
  let shown := (List.replicate (6 - digits.length) '0' ++ digits).rdropWhile (· = '0')
  if shown = [] then ['0'] else shown

/-- `str`, for a number of six decimals. -/
def text (x : ℚ) : List Char :=
  let n := (roundHalfEven (x * 1000000)).natAbs
  (if x < 0 then ['-'] else []) ++
    (Nat.toDigits 10 (n / 1000000) ++ ('.' :: decimals (n % 1000000) ++ []))

theorem isDigit_decimals (n : ℕ) : ∀ c ∈ decimals n, c.isDigit = true := by
  intro c hc
  have hshown : c = '0' ∨ c ∈ Nat.toDigits 10 n := by
    unfold decimals at hc
    dsimp only at hc
    split_ifs at hc with hnil
    · exact .inl (List.mem_singleton.mp hc)
    · rcases List.mem_append.mp ((List.rdropWhile_prefix _ _).subset hc) with hzero | hdigit
      · exact .inl (List.eq_of_mem_replicate hzero)
      · exact .inr hdigit
  rcases hshown with rfl | hdigit
  · rfl
  · exact (digits_toDigits n).digit c hdigit

theorem literal_text (x : ℚ) : FloatLiteral (text x) := by
  apply floatLiteral_decimal _ (digits_toDigits _) (.inr ⟨_, rfl, isDigit_decimals _⟩) (.inl rfl)
  split_ifs
  · exact .inr (.inl rfl)
  · exact .inl rfl

/-- The first number that is better than those before it. -/
def firstBest (better : ℚ → ℚ → Bool) (xs : List Decimal) : ℕ :=
  xs.findIdx fun x => xs.all fun y => !better y.val x.val

/-- `numpy.gradient` on an array and its coordinates. -/
def gradient (f x : List Decimal) : List Decimal :=
  let fAt := fun i => (f.getD i ⟨0⟩).val
  let xAt := fun i => (x.getD i ⟨0⟩).val
  (List.range f.length).map fun i =>
    if i = 0 then ⟨(fAt 1 - fAt 0) / (xAt 1 - xAt 0)⟩
    else if i + 1 = f.length then ⟨(fAt i - fAt (i - 1)) / (xAt i - xAt (i - 1))⟩
    else
      let hs := xAt i - xAt (i - 1)
      let hd := xAt (i + 1) - xAt i
      ⟨(hs ^ 2 * fAt (i + 1) + (hd ^ 2 - hs ^ 2) * fAt i - hd ^ 2 * fAt (i - 1)) /
        (hs * hd * (hd + hs))⟩

end Decimal

instance : PyFloat Decimal where
  parse := fun s => (PyFloat.parse s : Option ℚ).map Decimal.mk
  isZero := fun x => x.val = 0
  repr := fun x => Decimal.text x.val

instance : PyNumber Decimal where
  literal := fun x => Decimal.literal_text x.val
  lit := Decimal.mk
  sub := fun x y => ⟨x.val - y.val⟩
  div := fun x y => ⟨x.val / y.val⟩
  abs := fun x => ⟨|x.val|⟩
  lt := fun x y => x.val < y.val
  le := fun x y => x.val ≤ y.val

instance : NumPy Decimal where
  loadtxt := fun rows =>
    if 2 ≤ rows.length ∧ 2 ≤ (rows.headD []).length ∧
        ∀ row ∈ rows, row.length = (rows.headD []).length then
      rows.mapM fun row => row.mapM fun field => PyFloat.parse (strip field)
    else none
  argmax := Decimal.firstBest fun y x => x < y
  argmin := Decimal.firstBest fun y x => y < x
  gradient := Decimal.gradient

namespace Bench

/-- Of the signals, the first rises with the voltage of the first converter and the third falls. -/
def observed (c : PdhCore.Config) : PdhCore.Observed where
  adcDatAI := 0#14
  adcDatBI := 0#14
  adcDatA16sR := 4#16 * (8192#16 - c.dac1DatR.setWidth 16) - 4096#16
  adcDatB16sR := 0#16
  iFeedR := 4096#16 - 4#16 * (8192#16 - c.dac1DatR.setWidth 16)
  qFeedR := 0#16
  demodLpfR := 0#16
  dmaReady3ff := false

/-- A board with these signals, where every file can be opened. -/
def respond (b : Board) : (c : Call) → c.Response × Board
  | .pdhSendCmd raw => ((), b.send raw)
  | .pdhGetCallback =>
      (PdhCore.nextCallbackW b.latched b.config.regs
        ⟨false, b.config.dac1DatR, b.config.dac2DatR⟩ (observed b.config), b)
  | .fopen _ => (true, b)
  | _ => (default, b)

theorem board_respond (b : Board) (c : Call) : board b c (respond b c).1 (respond b c).2 := by
  cases c with
  | pdhGetCallback => exact ⟨rfl, _, _, rfl, rfl, rfl⟩
  | _ => rfl

/-- The panel, with the values that it shows at first. -/
def panel : PidVar → List Char
  | .kp => ['0', '.', '5']
  | .ki => ['0', '.', '0']
  | .kd => ['0', '.', '0']
  | .dec => ['1', '0', '0']
  | .alpha => ['4']
  | .sat => ['3', '1']
  | .gain => ['1', '.', '0']

/-- The server at this board; what is fetched is the file of the server. -/
def dev (s : Lab) : (o : Op) → o.Response Decimal × Lab
  | .executeCmd call =>
      let served := (serve ℚ 0#32 (readAtOnce call.text)).play respond s.board
      (executeCmd (recvAtOnce (served.2.1.getD [])), ⟨served.2.2, logged served.1 s.log⟩)
  | .sshFetchCsv => (some s.log, s)
  | .dac2Sel => (0, s)
  | .pidVar v => (panel v, s)

theorem lab_dev (s : Lab) (o : Op) : lab ℚ Decimal s o (dev s o).1 (dev s o).2 := by
  cases o with
  | executeCmd call =>
      unfold lab dev
      dsimp only
      exact ⟨0#32, _, _, performs_play _ _, follows_play board_respond _ _, rfl, rfl⟩
  | _ => rfl

/-- The button locks to the signal that rises, and the persistent loop to the one that falls. -/
def params (i : Starter) : Params Decimal where
  v0 := ⟨0⟩
  v1 := ⟨1 / 2⟩
  pts := 2
  delay := 0
  peakPts := 1
  chan :=
    match i with
    | .button => .adcA
    | .persistent => .iFeed

/-- Both runs sweep, the button routes its signal, then the persistent loop routes and locks, and
then the button locks. -/
def schedule : List Starter :=
  List.replicate 3 .button ++ List.replicate 3 .persistent ++ [.button] ++
    List.replicate 9 .persistent ++ List.replicate 8 .button

/-- The board after a reset. -/
def start : Lab where
  board := { config := .reset, latched := 0#32, bus := 0#32 }
  log := []

/-- The interleaving, what is left of the two runs, and the board. -/
def final : List (Starter × ((o : Op) × o.Response Decimal)) ×
    (Starter → Program (Op.Response Decimal)
      (Except (LockError Decimal) (LockResult Decimal))) × Lab :=
  simulate dev schedule (fun i => (autolockBg (params i)).run) start

/-- What the two runs return; the gains that they compute have opposite signs. -/
def result (i : Starter) : LockResult Decimal where
  data := [[⟨0⟩, ⟨-1 / 2⟩, ⟨0⟩, ⟨1 / 2⟩, ⟨0⟩], [⟨1 / 4⟩, ⟨1 / 2⟩, ⟨0⟩, ⟨-1 / 2⟩, ⟨0⟩]]
  chan := (params i).chan
  lock :=
    match i with
    | .button => { lockPoint := ⟨0⟩, slope := ⟨4⟩, egain := ⟨25⟩ }
    | .persistent => { lockPoint := ⟨0⟩, slope := ⟨-4⟩, egain := ⟨-25⟩ }
  pidSel := (params i).chan.toPidSel

/-- Both runs are done, and the registers of the lock are of one run each. -/
theorem final_eq :
    (final.2.1 .button).result = some (.ok (result .button)) ∧
      (final.2.1 .persistent).result = some (.ok (result .persistent)) ∧
      final.2.2.board.pidSel = BitVec.ofInt 3 (result .persistent).pidSel ∧
      final.2.2.board.scaling = lockCodes ℚ (result .button).lock := by
  decide +kernel

theorem performs_final (i : Starter) :
    Performs (autolockBg (params i)).run (side i final.1) (.ok (result i)) := by
  have hdone : (final.2.1 i).result = some (.ok (result i)) := by
    cases i with
    | button => exact final_eq.1
    | persistent => exact final_eq.2.1
  exact performs_simulate schedule (fun i => (autolockBg (params i)).run) start i hdone

theorem follows_final : Follows (lab ℚ Decimal) start (final.1.map Prod.snd) final.2.2 :=
  follows_simulate lab_dev schedule (fun i => (autolockBg (params i)).run) start

end Bench

theorem concurrent_iff_bench :
    (∃ i, InForce ℚ (Bench.result i) Bench.final.2.2.board) ↔
      KeptApart ℚ Bench.params Bench.start Bench.final.1 :=
  concurrent_iff ℚ Bench.performs_final Bench.follows_final

/-- In the end the controller has the signal of the persistent loop and the gain of the button. -/
theorem locks_mix :
    (∀ i, Performs (autolockBg (Bench.params i)).run (side i Bench.final.1)
        (.ok (Bench.result i))) ∧
      Follows (lab ℚ Decimal) Bench.start (Bench.final.1.map Prod.snd) Bench.final.2.2 ∧
      Bench.final.2.2.board.pidSel = BitVec.ofInt 3 (Bench.result .persistent).pidSel ∧
      Bench.final.2.2.board.scaling = lockCodes ℚ (Bench.result .button).lock ∧
      ¬∃ i, InForce ℚ (Bench.result i) Bench.final.2.2.board := by
  rcases Bench.final_eq with ⟨-, -, hpidSel, hscaling⟩
  refine ⟨Bench.performs_final, Bench.follows_final, hpidSel, hscaling, ?_⟩
  rintro ⟨i, hforce⟩
  cases i with
  | button =>
      have hsel := hpidSel.symm.trans hforce.pidSel
      exact absurd hsel (by decide)
  | persistent =>
      have hcodes := hscaling.symm.trans hforce.scaling
      exact absurd hcodes (by decide +kernel)

end Client
end PoundDreverHall
