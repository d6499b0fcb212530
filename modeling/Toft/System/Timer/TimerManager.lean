import Mathlib.Logic.Function.Basic
import Toft.Lib.Machine

/-!
# The timer manager

Timers are kept in a map by their id, and what is to happen in a queue of timeouts. The timer thread
takes a timeout from the queue (`dequeueTimeoutEntry`), runs the closure of its timer without the
lock, and queues the next timeout of a periodic timer (`finishTimer`). Every call of the class is
one critical section of the mutex, and so is each of these two; a call of `RemoveTimer` that finds
its timer running sleeps and tries again. An event is a critical section of some thread, or the
start or the end of a callback, so a list of events is an interleaving of the threads. The clock
gives any time at any moment, and the timer thread may look at the queue at any moment: when it is
woken does not matter for what is shown.

The timer ids come from a 64-bit counter that all managers of the process share; it is taken not to
overflow.
-/

namespace Toft

open Function

/-- A closure is known by its address. -/
abbrev Closure := Nat

namespace TimerManager

/-- The members of `TimerEntry`. -/
structure TimerEntry where
  closure : Option Closure := none
  interval : Int := 0
  isEnabled : Bool := false
  isPeriod : Bool := false
  revision : UInt8 := 0
  /-- History: the calls of `ModifyTimer` and `DisableTimer` for the timer so far. -/
  changes : Nat := 0
  deriving DecidableEq, Repr

/-- The statement `revision++`. -/
def TimerEntry.revise (entry : TimerEntry) : TimerEntry :=
  { entry with revision := entry.revision + 1, changes := entry.changes + 1 }

/-- A timeout in the queue. -/
structure Timeout where
  time : Int
  timerId : Nat
  revision : UInt8
  /-- History: the `changes` of the timer when the timeout was queued. -/
  changes : Nat
  deriving DecidableEq, Repr

/-- Where the timer thread is in `Dispatch`, with the copy of the entry that it works on. -/
inductive Dispatch where
  /-- Waiting, or looking at the queue. -/
  | waiting
  /-- A timeout was taken from the queue, and the closure has not started. -/
  | dequeued (id : Nat) (entry : TimerEntry)
  | calling (id : Nat) (entry : TimerEntry)
  /-- The closure has returned, and the next timeout is not queued yet. -/
  | called (id : Nat) (entry : TimerEntry)
  deriving DecidableEq, Repr

end TimerManager

open TimerManager in
/-- The members of `TimerManager`, and where its thread stands. -/
structure TimerManager where
  /-- The counter of `NewTimerId`. -/
  timerId : Nat := 0
  timers : Nat → Option TimerEntry := fun _ => none
  timeouts : List Timeout := []
  runningTimer : Nat := 0
  dispatch : Dispatch := .waiting
  /-- History: the closures that were deleted. -/
  deleted : List Closure := []

namespace TimerManager

/-! ## Calls -/

def setEntry (m : TimerManager) (id : Nat) (entry : Option TimerEntry) : TimerManager :=
  { m with timers := update m.timers id entry }

def deleteClosure (m : TimerManager) : Option Closure → TimerManager
  | none => m
  | some closure => { m with deleted := closure :: m.deleted }

/-- `SetNextTimeout`, without the signal to the timer thread. -/
def setNextTimeout (m : TimerManager) (now : Int) (id : Nat) (entry : TimerEntry) : TimerManager :=
  { m with timeouts := ⟨now + entry.interval, id, entry.revision, entry.changes⟩ :: m.timeouts }

def newTimerId (m : TimerManager) : Nat × TimerManager :=
  (m.timerId + 1, { m with timerId := m.timerId + 1 })

def addTimer (m : TimerManager) (now interval : Int) (isPeriod : Bool) (closure : Option Closure) :
    Nat × TimerManager :=
  let (id, m) := m.newTimerId
  let timer : TimerEntry :=
    { (m.timers id).getD {} with interval, isPeriod, closure, isEnabled := true }
  (id, (m.setEntry id (some timer)).setNextTimeout now id
    { timer with revision := 0, changes := 0 })

def addOneshotTimer (m : TimerManager) (now interval : Int) (closure : Option Closure) :
    Nat × TimerManager :=
  m.addTimer now interval false closure

def addPeriodTimer (m : TimerManager) (now interval : Int) (closure : Option Closure) :
    Nat × TimerManager :=
  m.addTimer now interval true closure

/-- What both forms of `ModifyTimer` do with the entry: a new revision and, if the timer is enabled,
a new timeout. -/
def reviseTimer (m : TimerManager) (now : Int) (id : Nat) (entry : TimerEntry) : TimerManager :=
  let m := m.setEntry id (some entry.revise)
  if entry.isEnabled then m.setNextTimeout now id entry.revise else m

/-- `ModifyTimer` with a new closure. -/
def modifyTimerClosure (m : TimerManager) (now : Int) (id : Nat) (interval : Int)
    (closure : Option Closure) : Bool × TimerManager :=
  match m.timers id with
  | some entry =>
    let m := if entry.closure ≠ closure then m.deleteClosure entry.closure else m
    (true, m.reviseTimer now id { entry with interval, closure })
  | none => (false, m)

def modifyTimer (m : TimerManager) (now : Int) (id : Nat) (interval : Int) : Bool × TimerManager :=
  match m.timers id with
  | some entry => (true, m.reviseTimer now id { entry with interval })
  | none => (false, m)

def asyncRemoveTimer (m : TimerManager) (id : Nat) : Bool × TimerManager :=
  match m.timers id with
  | some entry => (true, (m.deleteClosure entry.closure).setEntry id none)
  | none => (false, m)

/-- `RemoveTimer`; `none` if the call does not return now, because the timer is running. -/
def removeTimer (m : TimerManager) (inTimerThread : Bool) (id : Nat) :
    Option (Bool × TimerManager) :=
  if id = 0 then some (false, m)
  else if inTimerThread then some (m.asyncRemoveTimer id)
  else if id ≠ m.runningTimer then some (m.asyncRemoveTimer id)
  else none

variable {m : TimerManager}

theorem removeTimer_cases {inTimerThread : Bool} {id : Nat}
    {result : Bool × TimerManager} (h : m.removeTimer inTimerThread id = some result) :
    id = 0 ∧ result = (false, m) ∨
      (inTimerThread = false → id ≠ m.runningTimer) ∧ result = m.asyncRemoveTimer id := by
  unfold removeTimer at h
  split at h
  · cases h
    exact .inl ⟨‹_›, rfl⟩
  · split at h
    · cases h
      exact .inr ⟨fun hno => absurd (hno ▸ ‹_›) Bool.false_ne_true, rfl⟩
    · split at h
      · cases h
        exact .inr ⟨fun _ => ‹_›, rfl⟩
      · cases h

def disableTimer (m : TimerManager) (id : Nat) : Bool × TimerManager :=
  match m.timers id with
  | some entry =>
    (true, m.setEntry id (some { entry.revise with isEnabled := false }))
  | none => (false, m)

def enableTimer (m : TimerManager) (now : Int) (id : Nat) : Bool × TimerManager :=
  match m.timers id with
  | some entry =>
    let entry := { entry with isEnabled := true }
    (true, (m.setEntry id (some entry)).setNextTimeout now id entry)
  | none => (false, m)

/-- `Clear` deletes the closures of all timers; only those that were given out can be there. -/
def clear (m : TimerManager) : TimerManager :=
  { m with
    timeouts := []
    timers := fun _ => none
    deleted := (List.range (m.timerId + 1)).filterMap (fun id => (m.timers id).bind (·.closure)) ++
      m.deleted }

section Fields

variable (m : TimerManager) (now : Int) (id : Nat) (entry : TimerEntry)
  (value : Option TimerEntry) (closure : Option Closure)

@[simp] theorem setEntry_timers : (m.setEntry id value).timers = update m.timers id value := rfl

@[simp] theorem setEntry_timeouts : (m.setEntry id value).timeouts = m.timeouts := rfl

@[simp] theorem setEntry_timerId : (m.setEntry id value).timerId = m.timerId := rfl

@[simp] theorem setEntry_runningTimer : (m.setEntry id value).runningTimer = m.runningTimer := rfl

@[simp] theorem setEntry_dispatch : (m.setEntry id value).dispatch = m.dispatch := rfl

@[simp] theorem deleteClosure_timers : (m.deleteClosure closure).timers = m.timers := by
  cases closure <;> rfl

@[simp] theorem deleteClosure_timeouts : (m.deleteClosure closure).timeouts = m.timeouts := by
  cases closure <;> rfl

@[simp] theorem deleteClosure_timerId : (m.deleteClosure closure).timerId = m.timerId := by
  cases closure <;> rfl

@[simp] theorem deleteClosure_runningTimer :
    (m.deleteClosure closure).runningTimer = m.runningTimer := by
  cases closure <;> rfl

@[simp] theorem deleteClosure_dispatch : (m.deleteClosure closure).dispatch = m.dispatch := by
  cases closure <;> rfl

@[simp] theorem setNextTimeout_timers : (m.setNextTimeout now id entry).timers = m.timers := rfl

@[simp] theorem setNextTimeout_timeouts : (m.setNextTimeout now id entry).timeouts =
    ⟨now + entry.interval, id, entry.revision, entry.changes⟩ :: m.timeouts := rfl

@[simp] theorem setNextTimeout_dispatch :
    (m.setNextTimeout now id entry).dispatch = m.dispatch := rfl

end Fields

/-! ## The timer thread -/

/-- The entry of the timer, unless the timeout is outdated. -/
def entryToRun (m : TimerManager) (timeout : Timeout) : Option TimerEntry :=
  match m.timers timeout.timerId with
  | none => none
  | some entry =>
    if entry.isEnabled = false ∨ timeout.revision ≠ entry.revision then none else some entry

/-- The timeout may be the top of the queue: no other one is earlier. -/
def IsTop (m : TimerManager) (timeout : Timeout) : Prop :=
  timeout ∈ m.timeouts ∧ ∀ t ∈ m.timeouts, timeout.time ≤ t.time

instance (m : TimerManager) (timeout : Timeout) : Decidable (m.IsTop timeout) :=
  inferInstanceAs (Decidable (_ ∧ _))

/-- One round of `DequeueTimeoutEntry` that finds `timeout` on top of the queue. -/
def dequeueTimeoutEntry (m : TimerManager) (now : Int) (timeout : Timeout) : Option TimerManager :=
  if m.dispatch = .waiting ∧ m.IsTop timeout ∧ timeout.time ≤ now then
    let popped := { m with timeouts := m.timeouts.erase timeout }
    match m.entryToRun timeout with
    | none => some popped
    | some entry =>
      let id := timeout.timerId
      let m := popped.setEntry id
        (if entry.isPeriod then some { entry with closure := none } else none)
      some { m with runningTimer := id, dispatch := .dequeued id entry }
  else none

theorem entryToRun_eq_some_iff {t : Timeout} {entry : TimerEntry} :
    m.entryToRun t = some entry ↔
      m.timers t.timerId = some entry ∧ entry.isEnabled = true ∧ t.revision = entry.revision := by
  unfold entryToRun
  cases m.timers t.timerId with
  | none => simp
  | some entry' =>
    simp only [Option.some.injEq]
    split
    · rename_i hout
      refine ⟨nofun, ?_⟩
      rintro ⟨rfl, henabled, hrevision⟩
      simp [henabled, hrevision] at hout
    · rename_i hin
      simp only [not_or, Bool.not_eq_false, ne_eq, not_not] at hin
      constructor
      · intro h
        cases h
        exact ⟨rfl, hin⟩
      · rintro ⟨rfl, -⟩
        rfl

theorem dequeueTimeoutEntry_cases {m m' : TimerManager} {now : Int} {timeout : Timeout}
    (h : m.dequeueTimeoutEntry now timeout = some m') :
    timeout ∈ m.timeouts ∧
      (m.entryToRun timeout = none ∧ m' = { m with timeouts := m.timeouts.erase timeout } ∨
        ∃ entry, m.entryToRun timeout = some entry ∧
          m' = { m with
            timeouts := m.timeouts.erase timeout
            timers := update m.timers timeout.timerId
              (if entry.isPeriod then some { entry with closure := none } else none)
            runningTimer := timeout.timerId
            dispatch := .dequeued timeout.timerId entry }) := by
  unfold dequeueTimeoutEntry at h
  split at h
  · rename_i htop
    refine ⟨htop.2.1.1, ?_⟩
    cases hrun : m.entryToRun timeout with
    | none =>
      rw [hrun] at h
      cases h
      exact .inl ⟨rfl, rfl⟩
    | some entry =>
      rw [hrun] at h
      cases h
      exact .inr ⟨entry, rfl, rfl⟩
  · cases h

/-- The closure starts, if there is one. -/
def callClosure (m : TimerManager) : Option TimerManager :=
  match m.dispatch with
  | .dequeued id entry =>
    some { m with
      dispatch := if entry.closure = none then .called id entry else .calling id entry }
  | _ => none

def returnClosure (m : TimerManager) : Option TimerManager :=
  match m.dispatch with
  | .calling id entry => some { m with dispatch := .called id entry }
  | _ => none

/-- The closure that was run goes back to the entry, unless the entry has a new one. -/
def restoreClosure (m : TimerManager) (id : Nat) (copy entry : TimerEntry) : TimerManager :=
  if copy.closure = none then m
  else if entry.closure = none then m.setEntry id (some { entry with closure := copy.closure })
  else m.deleteClosure copy.closure

theorem restoreClosure_spec {id : Nat} {entry : TimerEntry}
    (h : m.timers id = some entry) (copy : TimerEntry) :
    (∃ closure, (m.restoreClosure id copy entry).timers =
        update m.timers id (some { entry with closure })) ∧
      (m.restoreClosure id copy entry).timeouts = m.timeouts ∧
      (m.restoreClosure id copy entry).timerId = m.timerId ∧
      (m.restoreClosure id copy entry).dispatch = m.dispatch := by
  have hsame : m.timers = update m.timers id (some { entry with closure := entry.closure }) :=
    (update_eq_self_iff.mpr h.symm).symm
  unfold restoreClosure
  split
  · exact ⟨⟨_, hsame⟩, rfl, rfl, rfl⟩
  · split
    · exact ⟨⟨_, rfl⟩, rfl, rfl, rfl⟩
    · refine ⟨⟨entry.closure, ?_⟩, ?_, ?_, ?_⟩
      · rw [deleteClosure_timers]
        exact hsame
      all_goals simp

/-- The next timeout of a periodic timer that was run. -/
def finishPeriod (m : TimerManager) (now : Int) (id : Nat) (copy : TimerEntry) : TimerManager :=
  match m.timers id with
  | some entry =>
    let m := m.restoreClosure id copy entry
    if entry.isEnabled then m.setNextTimeout now id entry else m
  | none => m.deleteClosure copy.closure

/-- The critical section of `Dispatch` behind the run of the closure. -/
def finishTimer (m : TimerManager) (now : Int) : Option TimerManager :=
  match m.dispatch with
  | .called id copy =>
    let m := { m with runningTimer := 0, dispatch := .waiting }
    some (if copy.isPeriod then m.finishPeriod now id copy else m)
  | _ => none

theorem finishTimer_cases {m m' : TimerManager} {now : Int} (h : m.finishTimer now = some m') :
    ∃ id copy, m.dispatch = .called id copy ∧
      m' = if copy.isPeriod then
          finishPeriod { m with runningTimer := 0, dispatch := .waiting } now id copy
        else { m with runningTimer := 0, dispatch := .waiting } := by
  unfold finishTimer at h
  split at h
  · cases h
    exact ⟨_, _, ‹_›, rfl⟩
  · cases h

/-! ## Events -/

/-- One step of the system: a call, or one of the timer thread. -/
inductive Event where
  /-- Another manager draws an id. -/
  | newTimerId
  | addOneshotTimer (now interval : Int) (closure : Option Closure)
  | addPeriodTimer (now interval : Int) (closure : Option Closure)
  | modifyTimerClosure (now : Int) (id : Nat) (interval : Int) (closure : Option Closure)
  | modifyTimer (now : Int) (id : Nat) (interval : Int)
  | disableTimer (id : Nat)
  | enableTimer (now : Int) (id : Nat)
  | removeTimer (inTimerThread : Bool) (id : Nat)
  | asyncRemoveTimer (id : Nat)
  | clear
  | dequeue (now : Int) (timeout : Timeout)
  | call
  | returned
  | finish (now : Int)
  deriving DecidableEq, Repr

def step (m : TimerManager) : Event → Option TimerManager
  | .newTimerId => some m.newTimerId.2
  | .addOneshotTimer now interval closure => some (m.addOneshotTimer now interval closure).2
  | .addPeriodTimer now interval closure => some (m.addPeriodTimer now interval closure).2
  | .modifyTimerClosure now id interval closure =>
    some (m.modifyTimerClosure now id interval closure).2
  | .modifyTimer now id interval => some (m.modifyTimer now id interval).2
  | .disableTimer id => some (m.disableTimer id).2
  | .enableTimer now id => some (m.enableTimer now id).2
  | .removeTimer inTimerThread id => (m.removeTimer inTimerThread id).map (·.2)
  | .asyncRemoveTimer id => some (m.asyncRemoveTimer id).2
  | .clear => some m.clear
  | .dequeue now timeout => m.dequeueTimeoutEntry now timeout
  | .call => m.callClosure
  | .returned => m.returnClosure
  | .finish now => m.finishTimer now

end TimerManager

end Toft
