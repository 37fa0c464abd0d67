import PoundDreverHall.Requests.FirEcho
import PoundDreverHall.Requests.Served

/-!
# Requests - a load of the filter

From every state between requests, a load that is reported as successful leaves its coefficients
in the staging memory and in the taps, and no other entry of the memory changes.

Main results:

- Theorem {lit}`loadInto_of_lt`: the entries that a load writes.
- Theorem {lit}`Loaded.installs`: the core comes to rest with the memory in the taps.
- Theorem {lit}`setFir_installs`: what a successful request leaves.
-/

namespace PoundDreverHall
namespace Requests

open Clocked Device Device.Program Server PdhCore

/-! ## The entries of a load -/

section Entries

variable {cs : List (BitVec 16)} {i k : ℕ} {m : CoeffSet}

theorem ofNat_ne (hi : i < 32) (hk : k < 32) (hne : k ≠ i) :
    (BitVec.ofNat 5 k : BitVec 5) ≠ BitVec.ofNat 5 i := by
  intro heq
  have hnat := congrArg BitVec.toNat heq
  simp only [BitVec.toNat_ofNat] at hnat
  omega

/-- The entries before and after those that a load writes keep their values. -/
theorem loadInto_of_not_mem (hlen : i + cs.length ≤ 32) (hk : k < 32)
    (hout : k < i ∨ i + cs.length ≤ k) :
    loadInto i cs m (BitVec.ofNat 5 k) = m (BitVec.ofNat 5 k) := by
  induction cs generalizing i m with
  | nil => rfl
  | cons c cs ih =>
      rw [List.length_cons] at hlen hout
      rw [loadInto, ih (by omega) (by omega),
        Function.update_of_ne (ofNat_ne (by omega) hk (by omega))]

/-- The entries that a load writes. -/
theorem loadInto_of_lt (hlen : i + cs.length ≤ 32) (hk : k < cs.length) :
    cs[k]? = some (loadInto i cs m (BitVec.ofNat 5 (i + k))) := by
  induction cs generalizing i k m with
  | nil => exact absurd hk (Nat.not_lt_zero k)
  | cons c cs ih =>
      rw [List.length_cons] at hlen hk
      rw [loadInto]
      cases k with
      | zero =>
          change some c = some (loadInto (i + 1) cs _ (BitVec.ofNat 5 i))
          rw [loadInto_of_not_mem (by omega) (by omega) (by omega), Function.update_self]
      | succ k =>
          have hrest := ih (i := i + 1) (k := k) (m := Function.update m (BitVec.ofNat 5 i) c)
            (by omega) (by omega)
          rwa [Nat.add_right_comm] at hrest

end Entries

section Codes

variable {F : Type} [SinglePrecision F] (ctx : CmdCtx F)

theorem length_codes (i n : ℕ) : (codes ctx i n).length = n := by
  rw [codes, List.length_map, List.length_range']

theorem getElem?_codes {i n k : ℕ} (hk : k < n) :
    (codes ctx i n)[k]? = some (floatToQ15 (ctx.floatArgs (i + k))) := by
  rw [codes, List.getElem?_map, List.getElem?_range' hk, Nat.one_mul]
  rfl

end Codes

/-! ## Rest after a load -/

/-- The core is at rest with the given registers and staging memory, and the taps hold the
memory. -/
structure Installed (c : Regs × CoeffSet) (s : State) : Prop where
  regs : s.regs = c.1
  staging : s.path.uFir.tapCoeffs = c.2
  active : Fir.coeffs s.path.uFir = c.2

/-- After the last word of a load the core comes to rest. -/
theorem Loaded.installs (rom : Nco.Rom) {cs : List (BitVec 16)} {c : Regs × CoeffSet} {s : State}
    {w : BitVec 32} (h : Loaded cs c s w) (hc : Consistent c) {ins : ℕ → Input}
    (hbus : ∀ n, busWords ins n = w) (n : ℕ) :
    Installed (settled s) (run (step rom) s ins (n + 6)) := by
  have hins := rstI_of_silent hbus h.rst
  have hbefore := rests rom h.live hbus h.rst h.latch n
  have hrest := rests rom h.live hbus h.rst h.latch (n + 1)
  refine ⟨hrest.1, hrest.2, ?_⟩
  have hchain : (settled s).1.tapChainWriteEnR = true := by
    rw [h.settled_eq]
    exact (hc.load cs).2.1
  rw [coeffs_succ rom h.live hins (n + 5), hbefore.1, hchain, if_pos rfl, hbefore.2]

section Request

variable {F : Type} [MixedPrecision F] (rom : Nco.Rom) {s : State} {w : BitVec 32}

/-- After an accepted request the core comes to rest with the effect of its writes. -/
theorem installs_of_carriesBy (hs : Served F rom s w) (ctx : CmdCtx F)
    (hok : firArgsCode ctx = .ok) {ins : ℕ → Input} {last : ℕ}
    (hbus : CarriesBy (busWords ins) (w :: (requestWrites ctx).flatMap strobed) last) :
    ∃ c, loadPart c = loadPart (settled s) ∧
      (c.1.firInputSelR = (settled s).1.firInputSelR ∨
        c.1.firInputSelR = ((ctx.uintArgs 0).setWidth 16).setWidth 3) ∧
      settled (run (step rom) s ins (last + 1)) = (enabledWrites (codes ctx 0 ctx.numFloats)).foldl
        (fun c w => execStaging w c) c ∧
      ∀ n, last + 7 ≤ n →
        Installed (settled (run (step rom) s ins (last + 1))) (run (step rom) s ins n) := by
  rw [requestWrites, if_pos hok] at hbus
  have hbetween := served_between rom hs
  rcases hbetween.run_load rom _ _ hbus with ⟨c, hload, hsel, hend⟩
  have hc := hbetween.consistent.congr hload
  refine ⟨c, hload, hsel, hend.settled_eq, fun n hn => ?_⟩
  obtain ⟨d, rfl⟩ := Nat.exists_eq_add_of_le hn
  have hsilent : ∀ k, busWords (fun j => ins (last + 1 + j)) k = busWords ins last :=
    fun k => hbus.eq_of_le (by omega)
  have hrest := hend.installs rom hc hsilent d
  rwa [← run_add, show last + 1 + (d + 6) = last + 7 + d by omega] at hrest

/-- What a successful load of {lit}`n` coefficients leaves: the code of each coefficient in its
entry of the staging memory, the other entries as they were before, and all of them in the
taps. -/
theorem setFir_installs (hs : Served F rom s w) (ctx : CmdCtx F) (hpos : 1 ≤ ctx.numFloats)
    (hlen : ctx.numFloats ≤ 32) (tr : Trace) (reply : Reply F)
    (hrun : Performs (cmdSetFir ctx) tr reply) (hcode : reply.returnCode = SetFirE.ok.code)
    (ins : ℕ → Input) (hbus : Carries (busWords ins) (w :: shown Call.sent tr)) :
    ∃ N, ∀ n, N ≤ n →
      (∀ i < ctx.numFloats, (run (step rom) s ins n).path.uFir.tapCoeffs (BitVec.ofNat 5 i) =
        floatToQ15 (ctx.floatArgs i)) ∧
      (∀ i, ctx.numFloats ≤ i → i < 32 →
        (run (step rom) s ins n).path.uFir.tapCoeffs (BitVec.ofNat 5 i) =
          (settled s).2 (BitVec.ofNat 5 i)) ∧
      Fir.coeffs (run (step rom) s ins n).path.uFir =
        (run (step rom) s ins n).path.uFir.tapCoeffs := by
  have hok : firArgsCode ctx = .ok := by
    by_contra hrejected
    unfold cmdSetFir at hrun
    rw [if_pos hrejected] at hrun
    rcases performs_pure.mp hrun with ⟨-, rfl⟩
    change (firArgsCode ctx).code = 0 at hcode
    cases hargs : firArgsCode ctx with
    | ok => exact hrejected hargs
    | _ => exact absurd (hargs ▸ hcode) nofun
  rw [cmdSetFir_emits ctx tr reply hrun] at hbus
  rcases carries_iff.mp hbus with ⟨last, hlast⟩
  rcases installs_of_carriesBy rom hs ctx hok hlast with ⟨c, hload, -, hend, hrest⟩
  have hc := (served_between rom hs).consistent.congr hload
  have hcs : codes ctx 0 ctx.numFloats ≠ [] := by
    rw [← List.length_pos_iff, length_codes]
    exact hpos
  have hmemory := (hc.load (codes ctx 0 ctx.numFloats)).2.2 hcs
  have hbefore : c.2 = (settled s).2 := by
    simp only [loadPart, Prod.mk.injEq] at hload
    exact hload.2.2.2.2
  refine ⟨last + 7, fun n hn => ?_⟩
  have hinstalled := hend ▸ hrest n hn
  rw [hinstalled.active, hinstalled.staging, hmemory, hbefore]
  refine ⟨fun i hi => ?_, fun i hi hi' => ?_, rfl⟩
  · have hentry : (codes ctx 0 ctx.numFloats)[i]? =
        some (loadInto 0 (codes ctx 0 ctx.numFloats) (settled s).2 (BitVec.ofNat 5 (0 + i))) :=
      loadInto_of_lt (by rw [length_codes]; omega) (by rwa [length_codes])
    rw [getElem?_codes ctx hi, Nat.zero_add] at hentry
    exact (Option.some.inj hentry).symm
  · exact loadInto_of_not_mem (by rw [length_codes]; omega) hi' (by rw [length_codes]; omega)

end Request

/-! ## A load after reset -/

/-- The inputs with the word of `cmd_reset_fpga` on the bus. -/
def rstInput : Input :=
  ⟨0x80000000#32, 0#14, 0#14, true, true⟩

/-- The core in reset. -/
def heldInReset (rom : Nco.Rom) : State :=
  step rom rstInput (afterReset Path.reset)

theorem served_heldInReset (rom : Nco.Rom) : Served ℚ rom (heldInReset rom) 0x80000000#32 :=
  .reset (afterReset Path.reset) rstInput (by decide)

theorem settled_heldInReset (rom : Nco.Rom) :
    settled (heldInReset rom) = (.reset, fun _ => 0#16) := by
  have hreset := resetting_of_rst rom (i := rstInput) (afterReset Path.reset) (by decide)
  rw [heldInReset, settled_of_reset hreset.latch hreset.regs, tapCoeffs_step]
  rfl

/-- The board after reset. -/
def resetBoard : Board :=
  ⟨Config.reset, 0#32, 0#32⟩

/-- A request can be run on the core in reset, with the answers of a faithful board. -/
theorem exists_load (ctx : CmdCtx ℚ) :
    ∃ tr reply b' ins, Performs (cmdSetFir ctx) tr reply ∧ Follows board resetBoard tr b' ∧
      Carries (busWords ins) (0x80000000#32 :: shown Call.sent tr) := by
  rcases exists_run exists_boardNoFiles (cmdSetFir ctx) resetBoard with
    ⟨tr, reply, b', hrun, hfollows⟩
  rcases exists_carries (List.cons_ne_nil 0x80000000#32 (shown Call.sent tr)) with ⟨x, hx⟩
  exact ⟨tr, reply, b', fun n => ⟨x n, 0#14, 0#14, true, true⟩, hrun,
    hfollows.imp fun _ _ _ _ h => h.1, hx⟩

/-- A load of two coefficients after that of three. -/
theorem setFir_installs_afterLoad :
    ∃ (s : State) (w : BitVec 32) (tr : Trace) (reply : Reply ℚ) (ins : ℕ → Input),
      Served ℚ (fun _ => 0#16) s w ∧
      (∀ i < 3, Fir.coeffs s.path.uFir (BitVec.ofNat 5 i) =
        floatToQ15 ((loadCtx [1 / 2, 1 / 4, 1 / 8] (by decide)).floatArgs i)) ∧
      Performs (cmdSetFir (loadCtx [-1 / 2, 3 / 4] (by decide))) tr reply ∧
      reply.returnCode = SetFirE.ok.code ∧
      ∃ N, ∀ n, N ≤ n →
        (∀ i < 2, (run (step fun _ => 0#16) s ins n).path.uFir.tapCoeffs (BitVec.ofNat 5 i) =
          floatToQ15 ((loadCtx [-1 / 2, 3 / 4] (by decide)).floatArgs i)) ∧
        (∀ i, 2 ≤ i → i < 32 →
          (run (step fun _ => 0#16) s ins n).path.uFir.tapCoeffs (BitVec.ofNat 5 i) =
            (settled s).2 (BitVec.ofNat 5 i)) ∧
        Fir.coeffs (run (step fun _ => 0#16) s ins n).path.uFir =
          (run (step fun _ => 0#16) s ins n).path.uFir.tapCoeffs := by
  rcases exists_load (loadCtx [1 / 2, 1 / 4, 1 / 8] (by decide)) with
    ⟨tr₁, reply₁, b₁, ins₁, hrun₁, hfollows₁, hbus₁⟩
  have hcode₁ := (returnCode_cmdSetFir hrun₁ hfollows₁).mpr ⟨by decide +kernel, by decide⟩
  rcases setFir_installs (fun _ => 0#16) (served_heldInReset _) _ (by decide) (by decide) tr₁ reply₁
    hrun₁ hcode₁ ins₁ hbus₁ with ⟨N, hinstalled⟩
  rcases carries_iff.mp hbus₁ with ⟨last, hlast⟩
  -- the state in which the core has come to rest
  have hserved := (served_heldInReset fun _ => 0#16).request .setFir 0#32
    (loadCtx [1 / 2, 1 / 4, 1 / 8] (by decide)) tr₁ reply₁ hrun₁ ins₁ (max N last)
    (hlast.mono (Nat.le_max_right N last))
  rcases hinstalled (max N last + 1) (Nat.le_succ_of_le (Nat.le_max_left N last)) with
    ⟨htaps, -, hactive⟩
  rcases exists_load (loadCtx [-1 / 2, 3 / 4] (by decide)) with
    ⟨tr, reply, b, -, hrun, hfollows, -⟩
  have hcode := (returnCode_cmdSetFir hrun hfollows).mpr ⟨by decide +kernel, by decide⟩
  rcases exists_carries (List.cons_ne_nil (busWords ins₁ (max N last)) (shown Call.sent tr)) with
    ⟨x, hx⟩
  exact ⟨_, _, tr, reply, fun n => ⟨x n, 0#14, 0#14, true, true⟩, hserved,
    fun i hi => hactive ▸ htaps i hi, hrun, hcode, setFir_installs (fun _ => 0#16) hserved _
      (by decide) (by decide) tr reply hrun hcode _ hx⟩

end Requests
end PoundDreverHall
