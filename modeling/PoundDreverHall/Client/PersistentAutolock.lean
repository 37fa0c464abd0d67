import Mathlib.Data.Int.Notation
import PoundDreverHall.Device.EventLoop

/-!
# Client - the persistent autolock of `gui.py`

The autolock panel repeats an autolock with a timer of the toolkit.  A tick starts a worker thread
or, if one is still busy, another timer; the worker's completion starts the next timer.  The panel
remembers the last timer only, and stopping cancels that one.  The entries are read whenever a
button is pressed or a timer expires, so an event carries what they hold then.  The toolkit takes
every delay.  The labels and the status bar, which no function here reads, are left out.

Main results:

- Theorem {lit}`workers_length_run`: the loop never has more than one worker.
- Theorem {lit}`always_button`: the button offers to stop the loop exactly while it runs.
- Theorem {lit}`onePending_of_fresh`: one tick is pending at most if no start meets a worker of an
  earlier start.
- Theorem {lit}`always_onePending_iff`: when the loop has one pending tick at most and none after
  it is stopped, and when it leaves no worker behind either.
-/

namespace PoundDreverHall
namespace Client
namespace PersistentAutolock

open EventLoop

/-- What the entries of the panel hold: the period, and the sweep parameters with the channel, if
their texts are numbers. -/
structure Entries (α : Type) where
  persistMs : Option ℤ
  params : Option α

/-- A pending callback of `_persist_tick`. -/
structure Timer where
  id : ℕ
  ms : ℤ

/-- A worker that has not called `on_ok` or `on_err` yet; it has the period of the tick that
started it. -/
structure Worker (α : Type) where
  ms : ℤ
  params : α

/-- The panel, with its timers and workers. -/
structure Panel (α : Type) where
  persistRunning : Bool
  persistBusy : Bool
  persistAfterId : Option ℕ
  persistBtn : String
  persistStatusVar : String
  timers : List Timer
  nextId : ℕ
  workers : List (Worker α)

/-- The events: the button is pressed, a timer expires, and a worker succeeds or fails. -/
inductive Event (α : Type) where
  | toggle (entries : Entries α)
  | expire (id : ℕ) (entries : Entries α)
  | success (worker : ℕ)
  | failure (worker : ℕ)

namespace Panel

variable {α : Type}

/-- `_AutolockPanel.__init__`. -/
def init : Panel α where
  persistRunning := false
  persistBusy := false
  persistAfterId := none
  persistBtn := "Start Persistent"
  persistStatusVar := "Stopped"
  timers := []
  nextId := 0
  workers := []

/-- `self._persist_after_id = self.after(ms, self._persist_tick)`. -/
def after (s : Panel α) (ms : ℤ) : Panel α :=
  { s with
    persistAfterId := some s.nextId
    timers := ⟨s.nextId, ms⟩ :: s.timers
    nextId := s.nextId + 1 }

/-- `after_cancel`; the identifier of a timer that has expired cancels nothing. -/
def afterCancel (s : Panel α) (id : ℕ) : Panel α :=
  { s with timers := s.timers.filter fun t => t.id ≠ id }

/-- `run_in_bg` with the sequence of an autolock. -/
def runInBg (s : Panel α) (ms : ℤ) (params : α) : Panel α :=
  { s with workers := ⟨ms, params⟩ :: s.workers }

/-- `_persist_tick`. -/
def persistTick (s : Panel α) (entries : Entries α) : Panel α :=
  if s.persistRunning = false then s
  else
    let ms := entries.persistMs.getD 1000
    if s.persistBusy then s.after ms
    else
      match entries.params with
      | none =>
          { s with
            persistRunning := false
            persistBtn := "Start Persistent"
            persistStatusVar := "Stopped (invalid params)" }
      | some params => { s with persistBusy := true }.runInBg ms params

/-- `_on_persist_toggle`. -/
def onPersistToggle (s : Panel α) (entries : Entries α) : Panel α :=
  if s.persistRunning = false then
    match entries.persistMs with
    | none => s
    | some ms =>
        if ms < 100 then s
        else
          { s with
            persistRunning := true
            persistBtn := "Stop Persistent"
            persistStatusVar := "Running" }.persistTick entries
  else
    let s := { s with persistRunning := false }
    let s :=
      match s.persistAfterId with
      | some id => { s.afterCancel id with persistAfterId := none }
      | none => s
    { s with persistBtn := "Start Persistent", persistStatusVar := "Stopped" }

/-- What `on_ok` and `on_err` do after their messages. -/
def finish (s : Panel α) (ms : ℤ) : Panel α :=
  let s := { s with persistBusy := false }
  if s.persistRunning then s.after ms else s

/-- A worker completes; {lit}`callback` is what it leaves to the main thread. -/
def complete (callback : Panel α → ℤ → Panel α) (s : Panel α) (worker : ℕ) : Panel α :=
  match s.workers[worker]? with
  | none => s
  | some w => callback { s with workers := s.workers.eraseIdx worker } w.ms

/-- A timer expires. -/
def expire (s : Panel α) (id : ℕ) (entries : Entries α) : Panel α :=
  if ∃ t ∈ s.timers, t.id = id then (s.afterCancel id).persistTick entries else s

/-- `on_ok`. -/
def onOk : Panel α → ℤ → Panel α :=
  finish

/-- `on_err`. -/
def onErr : Panel α → ℤ → Panel α :=
  finish

/-- One event.  Nothing happens at an event that cannot occur: the expiry of a timer that is not
pending, the completion of a worker that is not there. -/
def step (s : Panel α) : Event α → Panel α
  | .toggle entries => s.onPersistToggle entries
  | .expire id entries => s.expire id entries
  | .success worker => s.complete onOk worker
  | .failure worker => s.complete onErr worker

/-! ## What the parts do -/

/-- A tick after a stop does nothing. -/
theorem persistTick_of_stopped {s : Panel α} (h : s.persistRunning = false)
    (entries : Entries α) : s.persistTick entries = s :=
  if_pos h

/-- A tick of the running loop starts another timer if a worker is busy, and a worker otherwise,
unless the parameters are invalid. -/
theorem persistTick_cases {s : Panel α} (h : s.persistRunning = true) (entries : Entries α) :
    (s.persistBusy = true ∧ ∃ ms, s.persistTick entries = s.after ms) ∨
      (s.persistBusy = false ∧ ∃ ms params,
        s.persistTick entries = { s with persistBusy := true }.runInBg ms params) ∨
      (s.persistBusy = false ∧
        s.persistTick entries =
          { s with
            persistRunning := false
            persistBtn := "Start Persistent"
            persistStatusVar := "Stopped (invalid params)" }) := by
  rw [persistTick, if_neg (by rw [h]; decide)]
  cases hbusy : s.persistBusy with
  | true => exact Or.inl ⟨rfl, _, rfl⟩
  | false =>
      cases entries.params with
      | none => exact Or.inr (Or.inr ⟨rfl, rfl⟩)
      | some params => exact Or.inr (Or.inl ⟨rfl, _, params, rfl⟩)

/-- Pressing the button starts the loop with a tick, unless the period is refused, or stops it. -/
theorem onPersistToggle_cases (s : Panel α) (entries : Entries α) :
    (s.persistRunning = false ∧ s.onPersistToggle entries = s) ∨
      (s.persistRunning = false ∧
        s.onPersistToggle entries =
          { s with
            persistRunning := true
            persistBtn := "Stop Persistent"
            persistStatusVar := "Running" }.persistTick entries) ∨
      (s.persistRunning = true ∧
        (s.onPersistToggle entries).persistRunning = false ∧
        (s.onPersistToggle entries).persistBusy = s.persistBusy ∧
        (s.onPersistToggle entries).workers = s.workers ∧
        (s.onPersistToggle entries).persistBtn = "Start Persistent" ∧
        (s.onPersistToggle entries).timers =
          s.timers.filter fun t => s.persistAfterId ≠ some t.id) := by
  cases hrun : s.persistRunning with
  | false =>
      rw [onPersistToggle, if_pos hrun]
      cases entries.persistMs with
      | none => exact Or.inl ⟨rfl, rfl⟩
      | some ms =>
          by_cases hms : ms < 100
          · exact Or.inl ⟨rfl, if_pos hms⟩
          · exact Or.inr (Or.inl ⟨rfl, if_neg hms⟩)
  | true =>
      refine Or.inr (Or.inr ?_)
      rw [onPersistToggle, if_neg (by rw [hrun]; decide)]
      cases hid : s.persistAfterId with
      | none => exact ⟨rfl, rfl, rfl, rfl, rfl, (List.filter_eq_self.mpr (by simp)).symm⟩
      | some id => simp [afterCancel, eq_comm]

/-! ## One worker -/

/-- The flag says whether there is a worker, and there is one at most. -/
structure OneWorker (s : Panel α) : Prop where
  busy : s.persistBusy = true ↔ s.workers ≠ []
  workers : s.workers.length ≤ 1

/-- A tick starts a worker only when there is none. -/
theorem OneWorker.persistTick {s : Panel α} (h : OneWorker s) (entries : Entries α) :
    OneWorker (s.persistTick entries) := by
  cases hrun : s.persistRunning with
  | false =>
      rw [persistTick_of_stopped hrun]
      exact h
  | true =>
      rcases persistTick_cases hrun entries with
        ⟨-, ms, htick⟩ | ⟨hidle, ms, params, htick⟩ | ⟨-, htick⟩
      · rw [htick]
        exact ⟨h.busy, h.workers⟩
      · have hnone : s.workers = [] := by
          by_contra hsome
          rw [h.busy.mpr hsome] at hidle
          exact Bool.noConfusion hidle
        rw [htick]
        constructor
        · simp [runInBg]
        · simp [runInBg, hnone]
      · rw [htick]
        exact ⟨h.busy, h.workers⟩

/-- So does the button. -/
theorem OneWorker.onPersistToggle {s : Panel α} (h : OneWorker s) (entries : Entries α) :
    OneWorker (s.onPersistToggle entries) := by
  rcases onPersistToggle_cases s entries with
    ⟨-, htoggle⟩ | ⟨-, htoggle⟩ | ⟨-, -, hbusy, hworkers, -⟩
  · rw [htoggle]
    exact h
  · rw [htoggle]
    apply OneWorker.persistTick
    exact ⟨h.busy, h.workers⟩
  · constructor
    · rw [hbusy, hworkers]
      exact h.busy
    · rw [hworkers]
      exact h.workers

/-- So does a timer. -/
theorem OneWorker.expire {s : Panel α} (h : OneWorker s) (id : ℕ) (entries : Entries α) :
    OneWorker (s.expire id entries) := by
  rw [Panel.expire]
  split_ifs
  · apply OneWorker.persistTick
    exact ⟨h.busy, h.workers⟩
  · exact h

/-- A completion leaves no worker. -/
theorem OneWorker.workers_complete {s : Panel α} (h : OneWorker s) {worker : ℕ}
    (hlt : worker < s.workers.length) : (s.complete finish worker).workers = [] := by
  have hlen := h.workers
  have herase : s.workers.eraseIdx worker = [] := by
    rw [← List.length_eq_zero_iff, List.length_eraseIdx_of_lt hlt]
    omega
  rw [Panel.complete, List.getElem?_eq_getElem hlt]
  simp only [finish]
  split_ifs
  · exact herase
  · exact herase

/-- Only a worker can finish. -/
theorem complete_of_le {callback : Panel α → ℤ → Panel α} {s : Panel α} {worker : ℕ}
    (h : s.workers.length ≤ worker) : s.complete callback worker = s := by
  rw [complete, List.getElem?_eq_none h]

/-- A worker that finishes is gone. -/
theorem OneWorker.complete {s : Panel α} (h : OneWorker s) (worker : ℕ) :
    OneWorker (s.complete finish worker) := by
  by_cases hlt : worker < s.workers.length
  · have hnone := h.workers_complete hlt
    have hidle : (s.complete finish worker).persistBusy = false := by
      rw [Panel.complete, List.getElem?_eq_getElem hlt]
      simp only [finish]
      split_ifs
      · rfl
      · rfl
    constructor
    · simp [hnone, hidle]
    · simp [hnone]
  · rw [complete_of_le (Nat.not_lt.mp hlt)]
    exact h

/-- No event leaves two workers. -/
theorem OneWorker.step {s : Panel α} (h : OneWorker s) (e : Event α) : OneWorker (s.step e) := by
  cases e with
  | toggle entries => exact h.onPersistToggle entries
  | expire id entries => exact h.expire id entries
  | success worker => exact h.complete worker
  | failure worker => exact h.complete worker

theorem oneWorker_init : OneWorker (init : Panel α) := by
  constructor
  · simp [init]
  · simp [init]

/-- There is at most one worker in every state of a run. -/
theorem always_oneWorker (es : List (Event α)) : Always step OneWorker init es := by
  apply Always.of_step
  · exact oneWorker_init
  · intro s e h
    exact h.step e

/-- The loop never has more than one worker. -/
theorem workers_length_run (es : List (Event α)) : (run step init es).workers.length ≤ 1 :=
  (always_iff_run.mp (always_oneWorker es) es List.prefix_rfl).workers

/-! ## One timer -/

/-- There is one pending tick at most, none unless the loop runs, and the panel remembers it. -/
structure OneTimer (s : Panel α) : Prop where
  timers : s.timers.length ≤ 1
  stopped : s.persistRunning = false → s.timers = []
  known : ∀ t ∈ s.timers, s.persistAfterId = some t.id

/-- No timer is not two timers. -/
theorem OneTimer.of_nil {s : Panel α} (h : s.timers = []) : OneTimer s := by
  constructor
  · simp [h]
  · intro _
    exact h
  · simp [h]

/-- The loop starts a timer when none is pending. -/
theorem OneTimer.after {s : Panel α} (hrun : s.persistRunning = true) (h : s.timers = [])
    (ms : ℤ) : OneTimer (s.after ms) := by
  constructor
  · simp [Panel.after, h]
  · intro hstopped
    exact absurd (hrun.symm.trans hstopped) (by decide)
  · simp [Panel.after, h]

/-- A tick when none is pending. -/
theorem OneTimer.persistTick {s : Panel α} (h : s.timers = []) (entries : Entries α) :
    OneTimer (s.persistTick entries) := by
  cases hrun : s.persistRunning with
  | false =>
      rw [persistTick_of_stopped hrun]
      exact OneTimer.of_nil h
  | true =>
      rcases persistTick_cases hrun entries with
        ⟨-, ms, htick⟩ | ⟨-, ms, params, htick⟩ | ⟨-, htick⟩
      · rw [htick]
        exact OneTimer.after hrun h ms
      · rw [htick]
        exact OneTimer.of_nil h
      · rw [htick]
        exact OneTimer.of_nil h

/-- Stopping cancels the pending tick. -/
theorem OneTimer.onPersistToggle {s : Panel α} (h : OneTimer s) (entries : Entries α) :
    OneTimer (s.onPersistToggle entries) := by
  rcases onPersistToggle_cases s entries with
    ⟨-, htoggle⟩ | ⟨hstopped, htoggle⟩ | ⟨-, -, -, -, -, htimers⟩
  · rw [htoggle]
    exact h
  · rw [htoggle]
    apply OneTimer.persistTick
    exact h.stopped hstopped
  · refine OneTimer.of_nil ?_
    rw [htimers, List.filter_eq_nil_iff]
    intro t ht
    simp [h.known t ht]

/-- The tick whose timer expires was the only one. -/
theorem OneTimer.afterCancel {s : Panel α} (h : OneTimer s) {id : ℕ}
    (hid : ∃ t ∈ s.timers, t.id = id) : (s.afterCancel id).timers = [] := by
  rcases hid with ⟨t, ht, rfl⟩
  simp only [Panel.afterCancel]
  rw [List.filter_eq_nil_iff]
  intro u hu
  have hsame := (h.known u hu).symm.trans (h.known t ht)
  simp [Option.some.inj hsame]

/-- A timer that expires is gone. -/
theorem OneTimer.expire {s : Panel α} (h : OneTimer s) (id : ℕ) (entries : Entries α) :
    OneTimer (s.expire id entries) := by
  rw [Panel.expire]
  split_ifs with hid
  · exact OneTimer.persistTick (h.afterCancel hid) entries
  · exact h

/-- A worker completes while no tick is pending. -/
theorem OneTimer.complete {s : Panel α} (h : OneTimer s) {worker : ℕ}
    (hquiet : worker < s.workers.length → s.persistRunning = true → s.timers = []) :
    OneTimer (s.complete finish worker) := by
  rw [Panel.complete]
  cases hget : s.workers[worker]? with
  | none => exact h
  | some w =>
      have hnone : s.timers = [] := by
        cases hrun : s.persistRunning with
        | false => exact h.stopped hrun
        | true => exact hquiet (List.getElem?_eq_some_iff.mp hget).1 hrun
      simp only [finish]
      split_ifs with hrun
      · apply OneTimer.after
        · exact hrun
        · exact hnone
      · exact OneTimer.of_nil hnone

/-- The events that complete a worker. -/
def Completes (s : Panel α) : Event α → Prop
  | .success worker | .failure worker => worker < s.workers.length
  | _ => False

/-- An event leaves at most one timer, unless a worker finishes while a timer runs. -/
theorem OneTimer.step {s : Panel α} (h : OneTimer s) {e : Event α}
    (hquiet : s.Completes e → s.persistRunning = true → s.timers = []) :
    OneTimer (s.step e) := by
  cases e with
  | toggle entries => exact h.onPersistToggle entries
  | expire id entries => exact h.expire id entries
  | success worker => exact h.complete hquiet
  | failure worker => exact h.complete hquiet

/-- A worker that completes while a tick is pending adds another. -/
theorem timers_length_step {s : Panel α} {e : Event α} (hcomplete : s.Completes e)
    (hrun : s.persistRunning = true) : (s.step e).timers.length = s.timers.length + 1 := by
  have hfinish : ∀ worker < s.workers.length,
      (s.complete finish worker).timers.length = s.timers.length + 1 := by
    intro worker hlt
    rw [Panel.complete, List.getElem?_eq_getElem hlt]
    simp [finish, hrun, Panel.after]
  cases e with
  | toggle entries => exact hcomplete.elim
  | expire id entries => exact hcomplete.elim
  | success worker => exact hfinish worker hcomplete
  | failure worker => exact hfinish worker hcomplete

/-! ## A timer or a worker -/

/-- The loop has a timer or a worker, not both. -/
structure Alternating (s : Panel α) : Prop where
  worker : OneWorker s
  timer : OneTimer s
  one : s.timers = [] ∨ s.workers = []

/-- A tick when there is neither a timer nor a worker. -/
theorem Alternating.persistTick {s : Panel α} (hworker : OneWorker s) (hworkers : s.workers = [])
    (htimers : s.timers = []) (entries : Entries α) : Alternating (s.persistTick entries) := by
  refine ⟨hworker.persistTick entries, OneTimer.persistTick htimers entries, Or.inl ?_⟩
  have hidle : s.persistBusy = false := by
    by_contra hbusy
    exact hworker.busy.mp (eq_true_of_ne_false hbusy) hworkers
  cases hrun : s.persistRunning with
  | false =>
      rw [persistTick_of_stopped hrun]
      exact htimers
  | true =>
      rcases persistTick_cases hrun entries with
        ⟨hbusy, -⟩ | ⟨-, ms, params, htick⟩ | ⟨-, htick⟩
      · exact absurd (hidle.symm.trans hbusy) (by decide)
      · rw [htick]
        exact htimers
      · rw [htick]
        exact htimers

/-- The button does not start the loop while a worker is in flight. -/
theorem Alternating.onPersistToggle {s : Panel α} (h : Alternating s)
    (hfresh : s.persistRunning = false → s.workers = []) (entries : Entries α) :
    Alternating (s.onPersistToggle entries) := by
  rcases onPersistToggle_cases s entries with
    ⟨-, htoggle⟩ | ⟨hstopped, htoggle⟩ | ⟨-, hstopped, -⟩
  · rw [htoggle]
    exact h
  · rw [htoggle]
    apply Alternating.persistTick
    · exact ⟨h.worker.busy, h.worker.workers⟩
    · exact hfresh hstopped
    · exact h.timer.stopped hstopped
  · have htimer := h.timer.onPersistToggle entries
    exact ⟨h.worker.onPersistToggle entries, htimer, Or.inl (htimer.stopped hstopped)⟩

/-- There is no worker while a tick is pending. -/
theorem Alternating.workers {s : Panel α} (h : Alternating s) {id : ℕ}
    (hid : ∃ t ∈ s.timers, t.id = id) : s.workers = [] := by
  rcases h.one with hnone | hnone
  · rcases hid with ⟨t, ht, -⟩
    rw [hnone] at ht
    exact absurd ht List.not_mem_nil
  · exact hnone

/-- A timer that expires makes room for a worker. -/
theorem Alternating.expire {s : Panel α} (h : Alternating s) (id : ℕ) (entries : Entries α) :
    Alternating (s.expire id entries) := by
  rw [Panel.expire]
  split_ifs with hid
  · apply Alternating.persistTick
    · exact ⟨h.worker.busy, h.worker.workers⟩
    · exact h.workers hid
    · exact h.timer.afterCancel hid
  · exact h

/-- A worker that finishes makes room for a timer. -/
theorem Alternating.complete {s : Panel α} (h : Alternating s) (worker : ℕ) :
    Alternating (s.complete finish worker) := by
  by_cases hlt : worker < s.workers.length
  · have hquiet : s.timers = [] := by
      rcases h.one with hnone | hnone
      · exact hnone
      · rw [hnone] at hlt
        exact absurd hlt (Nat.not_lt_zero worker)
    have htimer : OneTimer (s.complete finish worker) := h.timer.complete fun _ _ => hquiet
    exact ⟨h.worker.complete worker, htimer, Or.inr (h.worker.workers_complete hlt)⟩
  · rw [complete_of_le (Nat.not_lt.mp hlt)]
    exact h

/-- The button is not pressed to start the loop while a worker is in flight. -/
def Fresh (s : Panel α) : Event α → Prop
  | .toggle _ => s.persistRunning = false → s.workers = []
  | _ => True

/-- Every event keeps timer and worker apart, unless the loop is started while a worker is in
flight. -/
theorem Alternating.step {s : Panel α} (h : Alternating s) {e : Event α} (hfresh : s.Fresh e) :
    Alternating (s.step e) := by
  cases e with
  | toggle entries => exact h.onPersistToggle hfresh entries
  | expire id entries => exact h.expire id entries
  | success worker => exact h.complete worker
  | failure worker => exact h.complete worker

/-! ## No worker after a stop -/

/-- A tick that leaves the loop stopped starts no worker. -/
theorem workers_of_stopped {s : Panel α} {entries : Entries α}
    (hstopped : (s.persistTick entries).persistRunning = false) :
    (s.persistTick entries).workers = s.workers := by
  cases hrun : s.persistRunning with
  | false => rw [persistTick_of_stopped hrun]
  | true =>
      rcases persistTick_cases hrun entries with ⟨-, ms, htick⟩ | ⟨-, ms, params, htick⟩ | ⟨-, htick⟩
      · rw [htick]
        rfl
      · rw [htick] at hstopped
        exact absurd (hrun.symm.trans hstopped) (by decide)
      · rw [htick]

/-- Besides, there is no worker once the loop is stopped. -/
structure Resting (s : Panel α) : Prop where
  alternating : Alternating s
  stopped : s.persistRunning = false → s.workers = []

/-- The button is not pressed to stop the loop while a worker is in flight. -/
def Idle (s : Panel α) : Event α → Prop
  | .toggle _ => s.persistRunning = true → s.workers = []
  | _ => True

/-- No event leaves a worker behind a stop, unless the button is pressed while there is one. -/
theorem Resting.step {s : Panel α} (h : Resting s) {e : Event α} (hidle : s.Idle e) :
    Resting (s.step e) := by
  have hfresh : s.Fresh e := by
    cases e with
    | toggle entries => exact h.stopped
    | expire id entries => trivial
    | success worker => trivial
    | failure worker => trivial
  refine ⟨h.alternating.step hfresh, ?_⟩
  have hcomplete : ∀ worker, (s.complete finish worker).persistRunning = false →
      (s.complete finish worker).workers = [] := by
    intro worker
    by_cases hlt : worker < s.workers.length
    · intro _
      exact h.alternating.worker.workers_complete hlt
    · rw [complete_of_le (Nat.not_lt.mp hlt)]
      exact h.stopped
  cases e with
  | toggle entries =>
      intro hstopped
      rcases onPersistToggle_cases s entries with
        ⟨hrun, htoggle⟩ | ⟨hrun, htoggle⟩ | ⟨hrun, -, -, hworkers, -⟩
      · rw [Panel.step, htoggle]
        exact h.stopped hrun
      · rw [Panel.step, htoggle] at hstopped ⊢
        rw [workers_of_stopped hstopped]
        exact h.stopped hrun
      · exact hworkers.trans (hidle hrun)
  | expire id entries =>
      intro hstopped
      simp only [Panel.step, Panel.expire] at hstopped ⊢
      split_ifs at hstopped ⊢ with hid
      · rw [workers_of_stopped hstopped]
        exact h.alternating.workers hid
      · exact h.stopped hstopped
  | success worker => exact hcomplete worker
  | failure worker => exact hcomplete worker

/-! ## The button -/

/-- The button offers to stop the loop while it runs. -/
def Labelled (s : Panel α) : Prop :=
  s.persistBtn = if s.persistRunning then "Stop Persistent" else "Start Persistent"

/-- A tick leaves the label as it is. -/
theorem Labelled.persistTick {s : Panel α} (h : Labelled s) (entries : Entries α) :
    Labelled (s.persistTick entries) := by
  cases hrun : s.persistRunning with
  | false =>
      rw [persistTick_of_stopped hrun]
      exact h
  | true =>
      rcases persistTick_cases hrun entries with ⟨-, ms, htick⟩ | ⟨-, ms, params, htick⟩ | ⟨-, htick⟩
      · rw [htick]
        exact h
      · rw [htick]
        exact h
      · rw [htick]
        rfl

/-- So does a worker that finishes. -/
theorem Labelled.complete {s : Panel α} (h : Labelled s) (worker : ℕ) :
    Labelled (s.complete finish worker) := by
  rw [Panel.complete]
  cases s.workers[worker]? with
  | none => exact h
  | some w =>
      simp only [finish]
      split_ifs
      · exact h
      · exact h

/-- The label says whether the lock runs, after every event. -/
theorem Labelled.step {s : Panel α} (h : Labelled s) (e : Event α) : Labelled (s.step e) := by
  cases e with
  | toggle entries =>
      rcases onPersistToggle_cases s entries with
        ⟨-, htoggle⟩ | ⟨-, htoggle⟩ | ⟨-, hstopped, -, -, hbtn, -⟩
      · rw [Panel.step, htoggle]
        exact h
      · rw [Panel.step, htoggle]
        apply Labelled.persistTick
        rfl
      · rw [Labelled, Panel.step, hstopped]
        exact hbtn
  | expire id entries =>
      rw [Panel.step, Panel.expire]
      split_ifs
      · apply Labelled.persistTick
        exact h
      · exact h
  | success worker => exact h.complete worker
  | failure worker => exact h.complete worker

/-- The button offers to stop the loop exactly while it runs. -/
theorem always_button (es : List (Event α)) : Always step Labelled init es := by
  apply Always.of_step
  · rfl
  · intro s e h
    exact Labelled.step h e

/-! ## Runs -/

/-- One tick is pending and one worker in flight at most, and no tick is pending while the loop is
stopped. -/
def OnePending (s : Panel α) : Prop :=
  s.timers.length ≤ 1 ∧ s.workers.length ≤ 1 ∧ (s.persistRunning = false → s.timers = [])

/-- The same, and no worker is in flight while the loop is stopped. -/
def NothingLeft (s : Panel α) : Prop :=
  OnePending s ∧ (s.persistRunning = false → s.workers = [])

/-- The event does not complete a worker while the loop runs with a pending tick. -/
def Quiet (s : Panel α) (e : Event α) : Prop :=
  s.Completes e → s.persistRunning = true → s.timers = []

/-- One worker and one timer at most. -/
theorem OneWorker.onePending {s : Panel α} (h : OneWorker s) (htimer : OneTimer s) :
    OnePending s :=
  ⟨htimer.timers, h.workers, htimer.stopped⟩

theorem oneTimer_init : OneTimer (init : Panel α) :=
  OneTimer.of_nil rfl

theorem onePending_iff_quiet (es : List (Event α)) :
    Always step OnePending init es ↔ EachStep step Quiet init es := by
  apply always_iff_eachStep (I := fun s => OneWorker s ∧ OneTimer s)
  · exact ⟨oneWorker_init, oneTimer_init⟩
  · intro s h
    exact h.1.onePending h.2
  · intro s e h hquiet
    exact ⟨h.1.step e, h.2.step hquiet⟩
  · intro s e h hloud hpending
    have hpush : s.Completes e ∧ s.persistRunning = true ∧ s.timers ≠ [] := by
      simpa [Quiet] using hloud
    have hlength := timers_length_step hpush.1 hpush.2.1
    have hsome := List.length_pos_iff.mpr hpush.2.2
    have hone := hpending.1
    omega

theorem nothingLeft_iff_idle (es : List (Event α)) :
    Always step NothingLeft init es ↔ EachStep step Idle init es := by
  apply always_iff_eachStep (I := Resting)
  · refine ⟨⟨oneWorker_init, oneTimer_init, Or.inl rfl⟩, ?_⟩
    intro _
    rfl
  · intro s h
    exact ⟨h.alternating.worker.onePending h.alternating.timer, h.stopped⟩
  · intro s e h hidle
    exact h.step hidle
  · intro s e h hbusy hleft
    cases e with
    | toggle entries =>
        have hstop : s.persistRunning = true ∧ s.workers ≠ [] := by
          simpa [Idle] using hbusy
        rcases onPersistToggle_cases s entries with
          ⟨hstopped, -⟩ | ⟨hstopped, -⟩ | ⟨-, hstopped, -, hworkers, -⟩
        · exact absurd (hstopped.symm.trans hstop.1) (by decide)
        · exact absurd (hstopped.symm.trans hstop.1) (by decide)
        · exact hstop.2 (hworkers.symm.trans (hleft.2 hstopped))
    | expire id entries => exact hbusy trivial
    | success worker => exact hbusy trivial
    | failure worker => exact hbusy trivial

/-- The loop has one pending tick at most if the button never starts it while a worker of an earlier
start is in flight. -/
theorem onePending_of_fresh {es : List (Event α)} (h : EachStep step Fresh init es) :
    Always step OnePending init es := by
  have halternating : Always step Alternating init es := by
    apply Always.of_eachStep
    · exact ⟨oneWorker_init, oneTimer_init, Or.inl rfl⟩
    · intro s e hs hfresh
      exact hs.step hfresh
    · exact h
  exact halternating.mono fun s hs => hs.worker.onePending hs.timer

/-- When the loop keeps to one pending tick and one worker, and leaves no tick behind when it is
stopped: exactly when no worker completes while the loop runs with a pending tick.  When it leaves
no worker behind either: exactly when it is never stopped while a worker is in flight. -/
theorem always_onePending_iff (es : List (Event α)) :
    (Always step OnePending init es ↔ EachStep step Quiet init es) ∧
      (Always step NothingLeft init es ↔ EachStep step Idle init es) :=
  ⟨onePending_iff_quiet es, nothingLeft_iff_idle es⟩

/-- Start, stop and start again while the first worker is in flight.  Its completion leaves two
pending ticks, and the next stop leaves one. -/
theorem two_pending_ticks :
    let entries : Entries Unit := ⟨some 1000, some ()⟩
    let press : Event Unit := .toggle entries
    ¬ OnePending (run step init [press, press, press, .success 0]) ∧
      ¬ OnePending (run step init [press, press, press, .success 0, press]) ∧
      (run step init [press, press, press, .success 0, press]).persistRunning = false := by
  refine ⟨?_, ?_, rfl⟩
  · rintro ⟨htimers, -⟩
    exact absurd htimers (by decide)
  · rintro ⟨-, -, hstopped⟩
    exact absurd (congrArg List.length (hstopped rfl)) (by decide)

end Panel
end PersistentAutolock
end Client
end PoundDreverHall
