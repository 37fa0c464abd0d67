import PoundDreverHall.Protocol.Reply

/-!
# Protocol - the status of a reply

A status of 0 tells the client that its command was executed.  The server also sends it for a
request that reaches no handler: the failure of `dispatch_command` is logged only.

Main results:

- Definition {lit}`Executed`: a handler ran and returned 0.
- Theorem {lit}`status_means_executed_iff`: when a status of 0 says so.
-/

namespace PoundDreverHall
namespace Protocol

open Client Device Device.Program Requests
open Server hiding isSpace

/-! ## The table -/

section Table

variable {F : Type} [MixedPrecision F]

/-- The entry has the name of the request, and the request has the arguments it requires. -/
def Matches (ctx : LoadedCtx F) (e : CmdEntry) : Prop :=
  e ∈ gCmds ∧ ctx.name = e.name ∧ e.requiredFloats ≤ ctx.numFloats ∧
    e.requiredInts ≤ ctx.numInts ∧ e.requiredUints ≤ ctx.numUints

omit [MixedPrecision F] in
theorem check_eq_ok_iff {ctx : LoadedCtx F} {e : CmdEntry} :
    e.check ctx = .ok ↔ e.requiredFloats ≤ ctx.numFloats ∧ e.requiredInts ≤ ctx.numInts ∧
      e.requiredUints ≤ ctx.numUints := by
  rw [CmdEntry.check]
  split_ifs with hfloats hints huints
  · exact iff_of_false nofun fun h => by omega
  · exact iff_of_false nofun fun h => by omega
  · exact iff_of_false nofun fun h => by omega
  · exact iff_of_true rfl ⟨by omega, by omega, by omega⟩

/-- No two entries of the table have the same name. -/
theorem findEntry_name : ∀ e ∈ gCmds, findEntry e.name = some e := by
  decide

omit [MixedPrecision F] in
theorem dispatched_iff {ctx : LoadedCtx F} {e : CmdEntry} :
    Dispatched ctx e ↔ Matches ctx e := by
  rw [Dispatched, check_eq_ok_iff, Matches]
  constructor
  · rintro ⟨hentry, hcounts⟩
    have hname := List.find?_some hentry
    exact ⟨List.mem_of_find?_eq_some hentry, (of_decide_eq_true hname).symm, hcounts⟩
  · rintro ⟨hmem, hname, hcounts⟩
    rw [hname]
    exact ⟨findEntry_name e hmem, hcounts⟩

end Table

/-! ## Execution -/

section Status

variable (F : Type) [MixedPrecision F]

/-- The request reaches a handler. -/
def ReachesHandler (inbuff : List Char) : Prop :=
  ∃ (ctx : LoadedCtx F) (e : CmdEntry), loadContext (cString inbuff.dropLast) = some ctx ∧
    Matches ctx e

/-- A handler ran for the request and returned 0. -/
def Executed (stack : BitVec 32) (inbuff : List Char) (tr : Trace) : Prop :=
  ∃ (ctx : LoadedCtx F) (e : CmdEntry) (r : Server.Reply F),
    loadContext (cString inbuff.dropLast) = some ctx ∧ Matches ctx e ∧
      Performs (e.func.run stack ctx.toCmdCtx) tr r ∧ r.returnCode = 0

variable {F} {D : Type} [PyFloat D]

/-- A call of the API returns if and only if the status is 0. -/
theorem apiCall_ok_iff {name raw : List Char} {n : ℤ}
    (hstatus : (executeCmd raw : Response D) ['s', 't', 'a', 't', 'u', 's'] = some (.int n)) :
    (∃ result, (apiCall name raw : Except (List Char) (Response D)) = .ok result) ↔ n = 0 := by
  have hcall : (apiCall name raw : Except (List Char) (Response D)) =
      if n = 0 then .ok (executeCmd raw)
      else .error (name ++ ": server returned status=".toList ++ (toString n).toList) := by
    rw [apiCall, apiCmd, statusOf, hstatus]
    simp only [Option.getD_some, PyValue.isZero, decide_eq_true_eq]
    rfl
  rw [hcall]
  by_cases hn : n = 0
  · rw [if_pos hn]
    exact iff_of_true ⟨_, rfl⟩ hn
  · rw [if_neg hn]
    exact iff_of_false (fun ⟨_, h⟩ => nomatch h) hn

/-- A status of 0 in the reply, or a call of the API that returns, says that a handler ran and
returned 0 if and only if the request reaches a handler. -/
theorem status_means_executed_iff (stack : BitVec 32) (inbuff : List Char) (tr : Trace)
    (reply : List Char) (hrun : Performs (serve F stack inbuff) tr (some reply))
    (name : List Char) :
    (((executeCmd reply : Response D) ['s', 't', 'a', 't', 'u', 's'] = some (.int 0) →
        Executed F stack inbuff tr) ∧
      ((∃ result, (apiCall name reply : Except (List Char) (Response D)) = .ok result) →
        Executed F stack inbuff tr)) ↔
      ReachesHandler F inbuff := by
  cases hload : (loadContext (cString inbuff.dropLast) : Option (LoadedCtx F)) with
  | none => exact absurd ((performs_serve_none hload).mp hrun).2 nofun
  | some ctx =>
      have hsent : ∀ {r : Server.Reply F}, some reply = sendResponse ctx.name r →
          PlainReply r → (executeCmd reply : Response D) ['s', 't', 'a', 't', 'u', 's'] =
            some (.int r.returnCode) := by
        intro r hreply hplain
        rw [sendResponse] at hreply
        split_ifs at hreply with hfits
        rw [Option.some.inj hreply]
        exact status_of_reply ctx.name (readable_of_plain hplain).1 (readable_of_plain hplain).2
      rcases performs_serve_some hload hrun with ⟨e, r, he, hhandler, hreply⟩ | ⟨hnone, rfl, hreply⟩
      · have hmatches := dispatched_iff.mp he
        have hstatus := hsent hreply (reply_plain stack ctx.toCmdCtx hhandler)
        refine iff_of_true ⟨fun h => ?_, fun h => ?_⟩ ⟨ctx, e, hload, hmatches⟩
        · rw [hstatus, Option.some_inj, PyValue.int.injEq] at h
          exact ⟨ctx, e, r, hload, hmatches, hhandler, by omega⟩
        · have hzero := (apiCall_ok_iff hstatus).mp h
          exact ⟨ctx, e, r, hload, hmatches, hhandler, by omega⟩
      · -- the status that the server sends was never set
        have hstatus := hsent hreply (plainReply_nil 0)
        have hno : ∀ e, ¬Matches ctx e := fun e he => hnone e (dispatched_iff.mpr he)
        refine iff_of_false (fun h => ?_) ?_
        · rcases h.1 hstatus with ⟨ctx', e, r, hctx, he, -⟩
          obtain rfl := Option.some.inj (hload.symm.trans hctx)
          exact hno e he
        · rintro ⟨ctx', e, hctx, he⟩
          obtain rfl := Option.some.inj (hload.symm.trans hctx)
          exact hno e he

end Status

/-! ### A command that does not exist -/

/-- Decimal numbers with their exact values. -/
instance : PyFloat ℚ where
  parse := fun s =>
    match scanDecimal (takeSign s).2 with
    | some (number, []) => some (decimalValue ((takeSign s).1 ++ number))
    | _ => none
  isZero := fun x => x = 0
  repr := fun x => (toString x).toList

/-- The text of a request for a command that does not exist. -/
def fooText : List Char :=
  "CMD:foo\n".toList

/-- The request is answered, with a status of 0. -/
theorem exists_foo_run :
    ∃ tr, Performs (serve ℚ 0#32 fooText) tr
      (some "type:output\nname:foo\nstatus:0\n".toList) ∧ ¬ReachesHandler ℚ fooText := by
  have hsome : (loadContext (cString fooText.dropLast) : Option (LoadedCtx ℚ)).isSome := by
    decide +kernel
  rcases Option.isSome_iff_exists.mp hsome with ⟨ctx, hload⟩
  have hname : (loadContext (cString fooText.dropLast) : Option (LoadedCtx ℚ)).map
      (fun ctx => ctx.name) = some ['f', 'o', 'o'] := by
    decide +kernel
  rw [hload, Option.map_some, Option.some_inj] at hname
  have hnone : ∀ e, ¬Dispatched ctx e := by
    intro e he
    have hentry := he.1
    have hfoo : findEntry ['f', 'o', 'o'] = none := by decide
    rw [hname, hfoo] at hentry
    exact absurd hentry nofun
  rcases exists_performs (fun c : Call => (default : c.Response)) (serve ℚ 0#32 fooText) with
    ⟨tr, reply, hrun⟩
  rcases performs_serve_some hload hrun with ⟨e, r, he, -⟩ | ⟨-, -, hreply⟩
  · exact absurd he (hnone e)
  · refine ⟨tr, ?_, ?_⟩
    · rw [hname] at hreply
      have hsent : sendResponse ['f', 'o', 'o'] (⟨0, []⟩ : Server.Reply ℚ) =
          some "type:output\nname:foo\nstatus:0\n".toList := by
        decide +kernel
      rwa [hreply, hsent] at hrun
    · rintro ⟨ctx', e, hctx, he⟩
      obtain rfl := Option.some.inj (hload.symm.trans hctx)
      exact hnone e (dispatched_iff.mpr he)

/-- The equivalence for that request. -/
theorem status_means_executed_iff_foo :
    ∃ tr, (((executeCmd "type:output\nname:foo\nstatus:0\n".toList : Response ℚ)
          ['s', 't', 'a', 't', 'u', 's'] = some (.int 0) → Executed ℚ 0#32 fooText tr) ∧
        ((∃ result, (apiCall "foo".toList "type:output\nname:foo\nstatus:0\n".toList :
          Except (List Char) (Response ℚ)) = .ok result) → Executed ℚ 0#32 fooText tr)) ↔
      ReachesHandler ℚ fooText := by
  rcases exists_foo_run with ⟨tr, hrun, -⟩
  exact ⟨tr, status_means_executed_iff 0#32 fooText tr _ hrun "foo".toList⟩

/-- The client reads a status of 0 although no handler ran. -/
theorem foo_status_zero :
    ∃ tr reply, Performs (serve ℚ 0#32 fooText) tr (some reply) ∧
      (executeCmd reply : Response ℚ) ['s', 't', 'a', 't', 'u', 's'] = some (.int 0) ∧
      ¬Executed ℚ 0#32 fooText tr := by
  rcases exists_foo_run with ⟨tr, hrun, hreaches⟩
  refine ⟨tr, _, hrun, ?_, ?_⟩
  · have hreply : "type:output\nname:foo\nstatus:0\n".toList =
        responseText ['f', 'o', 'o'] (⟨0, []⟩ : Server.Reply ℚ) := by
      decide +kernel
    rw [hreply]
    exact status_of_reply _ (readable_of_plain (plainReply_nil 0)).1
      (readable_of_plain (plainReply_nil 0)).2
  · rintro ⟨ctx, e, r, hload, he, -⟩
    exact hreaches ⟨ctx, e, hload, he⟩

end Protocol
end PoundDreverHall
