import PoundDreverHall.Device.Interleave
import PoundDreverHall.Protocol.Segments

/-!
# Client - an autolock run of `gui.py`

An autolock sweeps the first converter, finds the steepest slope of the signal of a channel, routes
that channel to the controller, and gives the controller the voltage of the slope as its bias and a
multiple of the inverse slope as its input gain.  Each command is sent under a lock of its own; the
file of the sweep is fetched besides, and the panels are read when their values are needed.

Main results:

- Definition {lit}`autolockBg`: the run as a program over its requests and reads.
- Theorem {lit}`requests_autolockBg`: the requests of a run that finishes without error.
-/

namespace PoundDreverHall
namespace Client

open Device Device.Program Protocol PyString

/-! ## Numbers and arrays -/

/-- What a run does with Python's {lit}`float`; `strtof` reads the text that `str` makes of one. -/
class PyNumber (D : Type) extends PyFloat D where
  literal : ∀ x : D, FloatLiteral (PyFloat.repr x)
  lit : ℚ → D
  sub : D → D → D
  div : D → D → D
  abs : D → D
  lt : D → D → Bool
  le : D → D → Bool

/-- What a run uses of `numpy`.  A table is the list of its rows; {lit}`loadtxt` is {lit}`none`
where it raises an error or the array does not have two dimensions. -/
class NumPy (D : Type) where
  loadtxt : List (List (List Char)) → Option (List (List D))
  argmax : List D → ℕ
  argmin : List D → ℕ
  gradient : List D → List D → List D

/-- `xs[lo:hi]`; an index below 0 counts from the end. -/
def slice {α : Type} (xs : List α) (lo hi : ℤ) : List α :=
  let position := fun i : ℤ => if i < 0 then (i + xs.length).toNat else i.toNat
  (xs.take (position hi)).drop (position lo)

/-! ## Channels and panels -/

/-- The channels of the panel. -/
inductive Chan where
  | adcA
  | adcB
  | iFeed
  | qFeed
deriving DecidableEq, Repr

/-- The index of the channel in `SWEEP_COLUMNS`. -/
def Chan.column : Chan → ℕ
  | .adcA => 1
  | .adcB => 2
  | .iFeed => 3
  | .qFeed => 4

/-- `_CHAN_TO_PID_SEL`. -/
def Chan.toPidSel : Chan → ℤ
  | .adcA => 0b010
  | .adcB => 0b011
  | .iFeed => 0b000
  | .qFeed => 0b001

/-- The entries of the PID panel that a run reads. -/
inductive PidVar where
  | kp
  | ki
  | kd
  | dec
  | alpha
  | sat
  | gain
deriving DecidableEq, Repr

/-- What a run does outside: a command, the fetch of the file, and the reads of the panels. -/
inductive Op where
  | executeCmd (call : ApiCall)
  | sshFetchCsv
  | dac2Sel
  | pidVar (v : PidVar)

/-- The responses: the dictionary of the reply, the lines of the file if there is one, the value of
the radio buttons, and the text of the entry. -/
abbrev Op.Response (D : Type) : Op → Type
  | .executeCmd _ => Client.Response D
  | .sshFetchCsv => Option (List (List (List Char)))
  | .dac2Sel => ℤ
  | .pidVar _ => List Char

/-- The exceptions: those of the wrapper {lit}`api_cmd`, those that a run raises, and those that
Python and its libraries raise. -/
inductive LockError (D : Type) where
  | apiCmd (text : List Char)
  | valueError (text : String)
  | egainRange (egain : D)
  | library
deriving DecidableEq

/-- A routine of the client. -/
abbrev Script (D : Type) : Type → Type :=
  ExceptT (LockError D) (Program (Op.Response D))

section Run

variable {D : Type}

/-- The routine of one operation. -/
def Op.run (o : Op) : Script D (o.Response D) :=
  ExceptT.lift (Program.op o)

/-- A value, or the exception that its computation raises. -/
def Script.ofExcept {α : Type} : Except (LockError D) α → Script D α
  | .ok a => pure a
  | .error e => throw e

/-- A value, or an exception of a library. -/
def Script.ofOption {α : Type} : Option α → Script D α
  | some a => pure a
  | none => throw .library

variable [PyNumber D]

/-! ## The calls of the API -/

/-- The text of a number. -/
def floatText (x : D) : FloatText where
  text := PyFloat.repr x
  literal := PyNumber.literal x

/-- The wrapper {lit}`api_cmd`, on the dictionary of the reply. -/
def checkStatus (name : List Char) (r : Client.Response D) : Script D Unit :=
  match apiCmd name (fun r => some (statusOf r)) r with
  | .ok _ => pure ()
  | .error text => throw (.apiCmd text)

/-- `api_config_io`. -/
def apiConfigIo (dac1DatSel dac2DatSel pidDatSel : ℤ) : Script D Unit := do
  let r ← (Op.executeCmd (.configIo dac1DatSel dac2DatSel pidDatSel)).run
  checkStatus "api_config_io".toList r

/-- `api_set_pid`. -/
def apiSetPid (kp kd ki sp : D) (dec alpha sat en : ℤ) (gain bias egain : D) : Script D Unit := do
  let r ← (Op.executeCmd (.setPid (floatText kp) (floatText kd) (floatText ki) (floatText sp)
    dec alpha sat en (floatText gain) (floatText bias) (floatText egain))).run
  checkStatus "api_set_pid".toList r

variable [NumPy D]

/-- `_ssh_fetch_csv` and `np.loadtxt`, on the file of the sweep. -/
def fetchSweepLog : Script D (List (List D)) := do
  let file ← Op.sshFetchCsv.run
  Script.ofOption (file.bind NumPy.loadtxt)

/-- `api_sweep_ramp`, with the mode that reads the four channels. -/
def apiSweepRamp (v0 v1 : D) (numPoints dacSel writeDelayUs : ℤ) : Script D (List (List D)) := do
  let r ← (Op.executeCmd
    (.sweepRamp (floatText v0) (floatText v1) numPoints dacSel writeDelayUs 0)).run
  let data ← (if (statusOf r).isZero then fetchSweepLog else pure [] : Script D _)
  checkStatus "api_sweep_ramp".toList r
  return data

/-! ## The lock point -/

/-- What a run computes from a sweep. -/
structure LockPoint (D : Type) where
  lockPoint : D
  slope : D
  egain : D
deriving DecidableEq

/-- `xs[i]`. -/
def item {α : Type} (xs : List α) (i : ℕ) : Except (LockError D) α :=
  match xs[i]? with
  | some x => .ok x
  | none => .error .library

/-- `np.argmax` and `np.argmin`; an empty array has none. -/
def extremum (index : List D → ℕ) (xs : List D) : Except (LockError D) ℕ :=
  if xs.isEmpty then .error .library else .ok (index xs)

/-- The lock point of a table: steps 2 to 5 of `_autolock_bg`. -/
def findLockPoint (chan : Chan) (peakPts : ℤ) (data : List (List D)) :
    Except (LockError D) (LockPoint D) := do
  let sig ← data.mapM fun row => item row chan.column
  let dacV ← data.mapM fun row => item row 0
  let maxIdx ← extremum NumPy.argmax sig
  let lo := max 0 ((maxIdx : ℤ) - peakPts)
  let hi := min (sig.length : ℤ) (maxIdx + peakPts + 1)
  let window ← extremum NumPy.argmin (slice sig lo hi)
  let minIdx := lo.toNat + window
  let vMax ← item dacV maxIdx
  let vMin ← item dacV minIdx
  if PyNumber.lt (PyNumber.abs (PyNumber.sub vMax vMin)) (PyNumber.lit (1 / 10 ^ 9)) then
    throw (.valueError "Max and min are at the same DAC voltage")
  let segLo := min maxIdx minIdx
  let segHi := max maxIdx minIdx + 1
  let segSig := slice sig segLo segHi
  let segDac := slice dacV segLo segHi
  if segSig.length < 2 then
    throw (.valueError "Feature segment too short to compute slope")
  let deriv := NumPy.gradient segSig segDac
  let lpSegIdx ← extremum NumPy.argmax (deriv.map PyNumber.abs)
  let lockPoint ← item segDac lpSegIdx
  let slope ← item deriv lpSegIdx
  if PyNumber.lt (PyNumber.abs slope) (PyNumber.lit (1 / 10 ^ 9)) then
    throw (.valueError "Slope is zero — no dispersive feature found")
  let egain := PyNumber.div (PyNumber.lit 100) slope
  if PyNumber.le (PyNumber.lit 32) (PyNumber.abs egain) then
    throw (.egainRange egain)
  return { lockPoint := lockPoint, slope := slope, egain := egain }

/-! ## The run -/

/-- The parameters of a run. -/
structure Params (D : Type) where
  v0 : D
  v1 : D
  pts : ℤ
  delay : ℤ
  peakPts : ℤ
  chan : Chan

/-- What a run returns. -/
structure LockResult (D : Type) where
  data : List (List D)
  chan : Chan
  lock : LockPoint D
  pidSel : ℤ
deriving DecidableEq

/-- `api.DacDatSel`, on the value of the radio buttons. -/
def dacDatSel (n : ℤ) : Option ℤ :=
  if 0 ≤ n ∧ n ≤ 3 then some n else none

/-- `float(pv[...].get())`. -/
def floatVar (v : PidVar) : Script D D := do
  let text ← (Op.pidVar v).run
  Script.ofOption (PyFloat.parse (strip text))

/-- `int(pv[...].get())`. -/
def intVar (v : PidVar) : Script D ℤ := do
  let text ← (Op.pidVar v).run
  Script.ofOption (int (strip text))

/-- `_autolock_bg`. -/
def autolockBg (p : Params D) : Script D (LockResult D) := do
  let data ← apiSweepRamp p.v0 p.v1 p.pts 0 p.delay
  let lock ← Script.ofExcept (findLockPoint p.chan p.peakPts data)
  let pidSel := p.chan.toPidSel
  let dac2Sel ← Op.dac2Sel.run
  let dac2 ← Script.ofOption (dacDatSel dac2Sel)
  apiConfigIo 0b001 dac2 pidSel
  let kp ← floatVar .kp
  let ki ← floatVar .ki
  let kd ← floatVar .kd
  let dec ← intVar .dec
  let alpha ← intVar .alpha
  let sat ← intVar .sat
  let gain ← floatVar .gain
  apiSetPid kp kd ki (PyNumber.lit 0) dec alpha sat 1 gain lock.lockPoint lock.egain
  return { data := data, chan := p.chan, lock := lock, pidSel := pidSel }

/-! ## The requests of a run -/

/-- The requests of a trace, with the dictionaries of their replies. -/
def requests (tr : List ((o : Op) × o.Response D)) : List (ApiCall × Client.Response D) :=
  tr.filterMap fun
    | ⟨.executeCmd call, r⟩ => some (call, r)
    | _ => none

/-- The table that a run reads from the file of its sweep. -/
def fetched (tr : List ((o : Op) × o.Response D)) : Option (List (List D)) :=
  tr.findSome? fun
    | ⟨.sshFetchCsv, file⟩ => file.bind NumPy.loadtxt
    | _ => none

section Traces

variable {tr tr' : List ((o : Op) × o.Response D)} {α : Type}

omit [PyNumber D] [NumPy D]

@[simp]
theorem requests_nil : requests ([] : List ((o : Op) × o.Response D)) = [] :=
  rfl

/-- The requests of a trace in two parts. -/
@[simp]
theorem requests_append : requests (tr ++ tr') = requests tr ++ requests tr' :=
  List.filterMap_append

/-- A request of the trace, with its reply. -/
theorem mem_requests {call : ApiCall} {r : Client.Response D} :
    (call, r) ∈ requests tr ↔ ⟨.executeCmd call, r⟩ ∈ tr := by
  rw [requests, List.mem_filterMap]
  constructor
  · rintro ⟨⟨o, r'⟩, hmem, hrequest⟩
    cases o with
    | executeCmd call' =>
        cases hrequest
        exact hmem
    | _ => cases hrequest
  · intro hmem
    exact ⟨_, hmem, rfl⟩

theorem performs_run {o : Op} {r : o.Response D}
    (h : Performs (Op.run o : Script D _).run tr (.ok r)) : tr = [⟨o, r⟩] :=
  performs_except_lift.mp h

/-- A value that is looked up makes no call. -/
theorem performs_ofOption {x : Option α} {a : α}
    (h : Performs (Script.ofOption x : Script D α).run tr (.ok a)) : tr = [] ∧ x = some a := by
  cases x with
  | none => exact absurd h not_performs_throw
  | some b =>
      rcases performs_except_pure.mp h with ⟨rfl, rfl⟩
      exact ⟨rfl, rfl⟩

/-- Nor does a check. -/
theorem performs_ofExcept {x : Except (LockError D) α} {a : α}
    (h : Performs (Script.ofExcept x : Script D α).run tr (.ok a)) : tr = [] ∧ x = .ok a := by
  cases x with
  | error e => exact absurd h not_performs_throw
  | ok b =>
      rcases performs_except_pure.mp h with ⟨rfl, rfl⟩
      exact ⟨rfl, rfl⟩

end Traces

section Requests

variable {tr : List ((o : Op) × o.Response D)}

omit [NumPy D] in
/-- `api_cmd` goes on after a reply with status 0. -/
theorem performs_checkStatus {name : List Char} {r : Client.Response D} {u : Unit}
    (h : Performs (checkStatus name r).run tr (.ok u)) :
    tr = [] ∧ (statusOf r).isZero = true := by
  unfold checkStatus apiCmd at h
  dsimp only at h
  split_ifs at h with hzero
  · exact ⟨(performs_except_pure.mp h).1, hzero⟩
  · exact absurd h not_performs_throw

omit [NumPy D] in
/-- A command whose status is checked. -/
theorem requests_checked {call : ApiCall} {name : List Char} {u : Unit}
    (h : Performs ((Op.executeCmd call).run >>= checkStatus name : Script D Unit).run tr (.ok u)) :
    ∃ r, requests tr = [(call, r)] ∧ (statusOf r).isZero = true := by
  rcases performs_except_bind.mp h with ⟨tr₁, r, tr₂, h₁, h₂, rfl⟩
  rcases performs_checkStatus h₂ with ⟨rfl, hzero⟩
  rw [performs_run h₁]
  exact ⟨r, rfl, hzero⟩

/-- A sweep that returns was answered with status 0, and its log was fetched and read. -/
theorem performs_apiSweepRamp {v0 v1 : D} {numPoints dacSel writeDelayUs : ℤ} {data : List (List D)}
    (h : Performs (apiSweepRamp v0 v1 numPoints dacSel writeDelayUs).run tr (.ok data)) :
    ∃ r file, tr = [⟨.executeCmd (.sweepRamp (floatText v0) (floatText v1) numPoints dacSel
        writeDelayUs 0), r⟩, ⟨.sshFetchCsv, file⟩] ∧
      (statusOf r).isZero = true ∧ file.bind NumPy.loadtxt = some data := by
  rcases performs_except_bind.mp h with ⟨tr₁, r, tr₂, h₁, h₂, rfl⟩
  rcases performs_except_bind.mp h₂ with ⟨tr₃, data', tr₄, h₃, h₄, rfl⟩
  rcases performs_except_bind.mp h₄ with ⟨tr₅, u, tr₆, h₅, h₆, rfl⟩
  rcases performs_checkStatus h₅ with ⟨rfl, hzero⟩
  rcases performs_except_pure.mp h₆ with ⟨rfl, rfl⟩
  rw [if_pos hzero] at h₃
  rcases performs_except_bind.mp h₃ with ⟨tr₇, file, tr₈, h₇, h₈, rfl⟩
  rcases performs_ofOption h₈ with ⟨rfl, hdata⟩
  rw [performs_run h₁, performs_run h₇]
  exact ⟨r, file, rfl, hzero, hdata⟩

omit [PyNumber D] in
/-- The log that is fetched first is the one that a run reads, whatever follows. -/
theorem fetched_append {call : ApiCall} {r : Client.Response D}
    {file : Option (List (List (List Char)))} {data : List (List D)}
    (hfile : file.bind NumPy.loadtxt = some data) (rest : List ((o : Op) × o.Response D)) :
    fetched ([⟨.executeCmd call, r⟩, ⟨.sshFetchCsv, file⟩] ++ rest) = some data := by
  simp only [fetched, List.cons_append, List.findSome?_cons, hfile]

omit [NumPy D] in
/-- Reading a field of a panel sends nothing. -/
theorem requests_floatVar {v : PidVar} {x : D} (h : Performs (floatVar v).run tr (.ok x)) :
    requests tr = [] := by
  rcases performs_except_bind.mp h with ⟨tr₁, r, tr₂, h₁, h₂, rfl⟩
  rw [performs_run h₁, (performs_ofOption h₂).1]
  rfl

omit [PyNumber D] [NumPy D] in
/-- So does reading an integer one. -/
theorem requests_intVar {v : PidVar} {n : ℤ} (h : Performs (intVar v : Script D ℤ).run tr (.ok n)) :
    requests tr = [] := by
  rcases performs_except_bind.mp h with ⟨tr₁, r, tr₂, h₁, h₂, rfl⟩
  rw [performs_run h₁, (performs_ofOption h₂).1]
  rfl

/-- A run that finishes without error has computed its lock point from the table that it fetched,
and it has sent three requests, each answered with status 0: the sweep, the routing of its channel,
and its lock point. -/
theorem requests_autolockBg {p : Params D} {result : LockResult D}
    (h : Performs (autolockBg p).run tr (.ok result)) :
    result.pidSel = p.chan.toPidSel ∧
      (∃ data, fetched tr = some data ∧ findLockPoint p.chan p.peakPts data = .ok result.lock) ∧
      ∃ (sweep config pid : Client.Response D) (dac2 dec alpha sat : ℤ) (kp kd ki gain : D),
        requests tr =
          [(.sweepRamp (floatText p.v0) (floatText p.v1) p.pts 0 p.delay 0, sweep),
            (.configIo 1 dac2 p.chan.toPidSel, config),
            (.setPid (floatText kp) (floatText kd) (floatText ki) (floatText (PyNumber.lit 0 : D))
              dec alpha sat 1 (floatText gain) (floatText result.lock.lockPoint)
              (floatText result.lock.egain), pid)] ∧
        (0 ≤ dac2 ∧ dac2 ≤ 3) ∧ (statusOf sweep).isZero = true ∧
        (statusOf config).isZero = true ∧ (statusOf pid).isZero = true := by
  rcases performs_except_bind.mp h with ⟨tr₁, data, t₁, hsweep, h₁, rfl⟩
  rcases performs_except_bind.mp h₁ with ⟨tr₂, lock, t₂, hlock, h₂, rfl⟩
  rcases performs_except_bind.mp h₂ with ⟨tr₃, dac2Sel, t₃, hsel, h₃, rfl⟩
  rcases performs_except_bind.mp h₃ with ⟨tr₄, dac2, t₄, hdac2, h₄, rfl⟩
  rcases performs_except_bind.mp h₄ with ⟨tr₅, _, t₅, hconfig, h₅, rfl⟩
  rcases performs_except_bind.mp h₅ with ⟨tr₆, kp, t₆, hkp, h₆, rfl⟩
  rcases performs_except_bind.mp h₆ with ⟨tr₇, ki, t₇, hki, h₇, rfl⟩
  rcases performs_except_bind.mp h₇ with ⟨tr₈, kd, t₈, hkd, h₈, rfl⟩
  rcases performs_except_bind.mp h₈ with ⟨tr₉, dec, t₉, hdec, h₉, rfl⟩
  rcases performs_except_bind.mp h₉ with ⟨tr₁₀, alpha, t₁₀, halpha, h₁₀, rfl⟩
  rcases performs_except_bind.mp h₁₀ with ⟨tr₁₁, sat, t₁₁, hsat, h₁₁, rfl⟩
  rcases performs_except_bind.mp h₁₁ with ⟨tr₁₂, gain, t₁₂, hgain, h₁₂, rfl⟩
  rcases performs_except_bind.mp h₁₂ with ⟨tr₁₃, _, t₁₃, hpid, h₁₃, rfl⟩
  rcases performs_except_pure.mp h₁₃ with ⟨rfl, rfl⟩
  rcases performs_apiSweepRamp hsweep with ⟨sweep, file, rfl, hzero, hfile⟩
  rcases requests_checked hconfig with ⟨config, hconfig, hzero'⟩
  rcases requests_checked hpid with ⟨pid, hpid, hzero''⟩
  have hrange : 0 ≤ dac2 ∧ dac2 ≤ 3 := by
    have hdac2 := (performs_ofOption hdac2).2
    unfold dacDatSel at hdac2
    split_ifs at hdac2 with hrange
    rwa [← Option.some.inj hdac2]
  refine ⟨rfl, ⟨data, fetched_append hfile _, (performs_ofExcept hlock).2⟩,
    sweep, config, pid, dac2, dec, alpha, sat, kp, kd, ki, gain, ?_, hrange, hzero, hzero', hzero''⟩
  simp only [requests_append, hconfig, hpid, (performs_ofExcept hlock).1,
    performs_run hsel, (performs_ofOption hdac2).1, requests_floatVar hkp, requests_floatVar hki,
    requests_floatVar hkd, requests_intVar hdec, requests_intVar halpha, requests_intVar hsat,
    requests_floatVar hgain, requests_nil]
  rfl

end Requests

end Run

end Client
end PoundDreverHall
