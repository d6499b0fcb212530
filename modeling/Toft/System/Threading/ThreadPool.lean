import Mathlib.Tactic.Ring
import Toft.Lib.Threads

/-!
# The thread pool

The threads of the pool and the calls of `AddTask` are places in their programs: at each of them,
the next access to what the threads share is one step. A critical section of `m_mutex_task` is one
step, and so is each access to one of the counters, which are atomic and wrap. The end of a thread
is two steps under `m_mutex_thread`, since the two counters that it changes are read without it.
`AutoResetEvent::TimedWait` is one step, which happens when the call returns: it may time out at any
moment. An event says which thread makes its next step, so a list of events is an interleaving. The
pool is not terminated. `Counted` relates its counters to the threads.
-/

namespace Toft

abbrev Task := Nat

/-- The members of `AutoResetEvent`. -/
structure AutoResetEvent where
  signaled : Bool := false
  deriving DecidableEq, Repr

namespace AutoResetEvent

def set (_ : AutoResetEvent) : AutoResetEvent := { signaled := true }

/-- The end of `TimedWait`. -/
def timedWait (event : AutoResetEvent) : Bool × AutoResetEvent :=
  if event.signaled then (true, { signaled := false }) else (false, event)

end AutoResetEvent

namespace ThreadPool

/-- What the threads share. -/
structure Shared where
  minThreadNum : Int32
  maxThreadNum : Int32
  curThreadNum : Int32 := 0
  curBusyThreadNum : Int32 := 0
  pendingTaskNum : Int32 := 0
  pendingTasks : List Task := []
  completedTasks : List Task := []
  eventNewTask : AutoResetEvent := {}
  eventReleaseAllTask : AutoResetEvent := {}
  exited : Bool := false
  /-- Whether a thread that leaves holds `m_mutex_thread`. -/
  threadMutex : Bool := false
  deriving DecidableEq, Repr

def Shared.new (minThreadNum maxThreadNum : Int32) : Shared :=
  let maxThreadNum := if maxThreadNum < 0 then minThreadNum + 1 else maxThreadNum
  { minThreadNum
    maxThreadNum := if maxThreadNum < minThreadNum then minThreadNum else maxThreadNum }

/-- Where a thread of the pool is in `ThreadRuntine`. -/
inductive Worker where
  /-- In front of the loop. -/
  | starting
  /-- At the head of the loop. -/
  | looping
  | picking
  | running (task : Task)
  | completing (task : Task)
  /-- Without a task, still counted as busy. -/
  | idle
  /-- In `TimedWait`. -/
  | waiting
  /-- `TimedWait` has returned false. -/
  | timedOut
  /-- `TimedWait` has returned false, and there was no pending task then. -/
  | unneeded
  /-- In front of the increment behind the wait. -/
  | waking
  /-- Behind the loop. -/
  | exiting
  /-- Between the two decrements, with `m_mutex_thread`. -/
  | leaving
  | exited
  deriving DecidableEq, Repr

/-- Where a call is in `AddTaskInternal`. -/
inductive Adder where
  | calling (isPriority : Bool) (task : Task)
  | adding (isPriority : Bool) (task : Task)
  /-- At the first check of `NeedNewThread`. -/
  | checkingMax
  | checkingMin
  | checkingBusy
  /-- The number of busy threads was read. -/
  | comparing (busy : Int32)
  | starting
  | signaling
  | returned
  deriving DecidableEq, Repr

/-! ## Steps -/

def pickPendingTask (s : Shared) : Option Task × Shared :=
  match s.pendingTasks with
  | [] => (none, s)
  | task :: rest =>
    (some task, { s with pendingTasks := rest, pendingTaskNum := s.pendingTaskNum - 1 })

def addCompleteTask (s : Shared) (task : Task) : Shared :=
  { s with completedTasks := s.completedTasks ++ [task] }

/-- A node is taken from the complete tasks, or a new one is made. -/
def pickCompleteTask (s : Shared) : Shared := { s with completedTasks := s.completedTasks.tail }

def addPendingTask (s : Shared) (isPriority : Bool) (task : Task) : Shared :=
  { s with
    pendingTasks := if isPriority then task :: s.pendingTasks else s.pendingTasks ++ [task]
    pendingTaskNum := s.pendingTaskNum + 1 }

/-- The end of `ThreadRuntine`, behind the first decrement. -/
def leave (s : Shared) : Shared :=
  { s with
    curThreadNum := s.curThreadNum - 1
    eventReleaseAllTask :=
      if s.curThreadNum - 1 = 0 then s.eventReleaseAllTask.set else s.eventReleaseAllTask
    threadMutex := false }

def Worker.step : Worker → Shared → Option (Worker × Shared)
  | .starting, s => some (.looping, { s with curBusyThreadNum := s.curBusyThreadNum + 1 })
  | .looping, s => some (if s.exited then .exiting else .picking, s)
  | .picking, s =>
    match pickPendingTask s with
    | (some task, s) => some (.running task, s)
    | (none, s) => some (.idle, s)
  | .running task, s => some (.completing task, s)
  | .completing task, s => some (.looping, addCompleteTask s task)
  | .idle, s => some (.waiting, { s with curBusyThreadNum := s.curBusyThreadNum - 1 })
  | .waiting, s =>
    let (result, eventNewTask) := s.eventNewTask.timedWait
    some (if result then .waking else .timedOut, { s with eventNewTask })
  | .timedOut, s => some (if s.pendingTasks = [] then .unneeded else .waking, s)
  | .unneeded, s => some (if s.minThreadNum < s.curThreadNum then .exiting else .waking, s)
  | .waking, s => some (.looping, { s with curBusyThreadNum := s.curBusyThreadNum + 1 })
  | .exiting, s =>
    if s.threadMutex then none
    else some (.leaving, { s with
      threadMutex := true
      curBusyThreadNum := s.curBusyThreadNum - 1 })
  | .leaving, s => some (.exited, leave s)
  | .exited, _ => none

/-- The next step of a call of `AddTask` or `AddPriorityTask`. It may start a thread. -/
def Adder.step : Adder → Shared × List Worker → Option (Adder × Shared × List Worker)
  | .calling isPriority task, (s, workers) =>
    some (.adding isPriority task, pickCompleteTask s, workers)
  | .adding isPriority task, (s, workers) =>
    some (.checkingMax, addPendingTask s isPriority task, workers)
  | .checkingMax, (s, workers) =>
    some (if s.maxThreadNum ≤ s.curThreadNum then .signaling else .checkingMin, s, workers)
  | .checkingMin, (s, workers) =>
    some (if s.curThreadNum < s.minThreadNum then .starting else .checkingBusy, s, workers)
  | .checkingBusy, (s, workers) => some (.comparing s.curBusyThreadNum, s, workers)
  | .comparing busy, (s, workers) =>
    some (if busy = s.curThreadNum then .starting else .signaling, s, workers)
  | .starting, (s, workers) =>
    -- `AddThreadNodeToList`, under `m_mutex_thread`
    if s.threadMutex then none
    else some (.signaling, { s with curThreadNum := s.curThreadNum + 1 }, workers ++ [.starting])
  | .signaling, (s, workers) =>
    some (.returned, { s with eventNewTask := s.eventNewTask.set }, workers)
  | .returned, _ => none

/-- One step of the system. -/
inductive Event where
  /-- A call of `AddTask` or `AddPriorityTask`. -/
  | addTask (isPriority : Bool) (task : Task)
  | adder (i : Nat)
  | worker (i : Nat)
  deriving DecidableEq, Repr

end ThreadPool

open ThreadPool in
/-- The pool, with its threads and the calls of `AddTask`. -/
structure ThreadPool where
  shared : Shared
  workers : List Worker := []
  adders : List Adder := []
  deriving DecidableEq, Repr

namespace ThreadPool

open Lib Lib.Machine Lib.Threads

def new (minThreadNum maxThreadNum : Int32) : ThreadPool :=
  { shared := .new minThreadNum maxThreadNum }

def step (pool : ThreadPool) : Event → Option ThreadPool
  | .addTask isPriority task =>
    some { pool with adders := pool.adders ++ [.calling isPriority task] }
  | .adder i =>
    (stepAt Adder.step pool.adders i (pool.shared, pool.workers)).map
      fun (adders, shared, workers) => { shared, workers, adders }
  | .worker i =>
    (stepAt Worker.step pool.workers i pool.shared).map
      fun (workers, shared) => { pool with workers, shared }

/-- No call of `AddTask` is under way. -/
def AllReturned (pool : ThreadPool) : Prop := ∀ a ∈ pool.adders, a = .returned

instance (pool : ThreadPool) : Decidable pool.AllReturned :=
  inferInstanceAs (Decidable (∀ a ∈ pool.adders, a = .returned))

/-- Steps in which the calls of `AddTask` do not overlap. -/
def stepSerial (pool : ThreadPool) (event : Event) : Option ThreadPool :=
  match event with
  | .addTask .. => if pool.AllReturned then pool.step event else none
  | _ => pool.step event

/-- The thread has left its loop: it takes no task any more. -/
def Worker.Left (w : Worker) : Prop := w = .exiting ∨ w = .leaving ∨ w = .exited

instance (w : Worker) : Decidable w.Left := inferInstanceAs (Decidable (_ ∨ _ ∨ _))

/-- A task is pending and no call is under way, but there is no thread that could take it. -/
def Stranded (pool : ThreadPool) : Prop :=
  pool.AllReturned ∧ pool.shared.pendingTasks ≠ [] ∧ ∀ w ∈ pool.workers, w.Left

instance (pool : ThreadPool) : Decidable pool.Stranded := inferInstanceAs (Decidable (_ ∧ _ ∧ _))

/-! ## The counters -/

/-- What a thread adds to the number of threads. -/
def Worker.threadShare (w : Worker) : Int := if w = .exited then 0 else 1

/-- What a thread adds to the number of busy threads. A thread that leaves after a wait takes itself
off a second time. -/
def Worker.busyShare : Worker → Int
  | .looping | .picking | .running _ | .completing _ | .idle => 1
  | .leaving | .exited => -1
  | _ => 0

/-- The counters are what the threads add to them, in 32 bits. -/
structure Counted (pool : ThreadPool) : Prop where
  not_exited : pool.shared.exited = false
  pending : pool.shared.pendingTaskNum = .ofInt pool.shared.pendingTasks.length
  threads : pool.shared.curThreadNum = .ofInt (pool.workers.map Worker.threadShare).sum
  busy : pool.shared.curBusyThreadNum = .ofInt (pool.workers.map Worker.busyShare).sum

/-- What a step of a thread does to the counters. -/
structure Worker.Counts (w w' : Worker) (s s' : Shared) : Prop where
  not_exited : s'.exited = false
  pending : s.pendingTaskNum = .ofInt s.pendingTasks.length →
    s'.pendingTaskNum = .ofInt s'.pendingTasks.length
  threads : s'.curThreadNum = s.curThreadNum + .ofInt (w'.threadShare - w.threadShare)
  busy : s'.curBusyThreadNum = s.curBusyThreadNum + .ofInt (w'.busyShare - w.busyShare)

variable {s s' : Shared} {pool pool' : ThreadPool}

theorem Worker.step_counts {w w' : Worker} (hexited : s.exited = false)
    (hstep : w.step s = some (w', s')) : w.Counts w' s s' := by
  have hsame {n : Int32} : n = n + .ofInt 0 := (Int32.add_zero n).symm
  have hless {n : Int32} : n - 1 = n + .ofInt (-1) := Int32.sub_eq_add_neg n 1
  cases w with
  | looping =>
    simp only [Worker.step, hexited] at hstep
    cases hstep
    exact ⟨hexited, id, hsame, hsame⟩
  | picking =>
    unfold Worker.step pickPendingTask at hstep
    cases hpending : s.pendingTasks with
    | nil =>
      simp only [hpending] at hstep
      cases hstep
      exact ⟨hexited, id, hsame, hsame⟩
    | cons task rest =>
      simp only [hpending] at hstep
      cases hstep
      refine ⟨hexited, fun hnum => ?_, hsame, hsame⟩
      rw [hnum, hpending, List.length_cons, Int.natCast_succ, Int32.ofInt_add]
      exact Int32.add_sub_cancel _ _
  | waiting | timedOut | unneeded =>
    cases hstep
    refine ⟨hexited, id, ?_, ?_⟩ <;> split <;> exact hsame
  | starting | waking =>
    cases hstep
    exact ⟨hexited, id, hsame, rfl⟩
  | idle =>
    cases hstep
    exact ⟨hexited, id, hsame, hless⟩
  | running | completing =>
    cases hstep
    exact ⟨hexited, id, hsame, hsame⟩
  | exiting =>
    unfold Worker.step at hstep
    dsimp only at hstep
    split at hstep
    · cases hstep
    · cases hstep
      exact ⟨hexited, id, hsame, hless⟩
  | leaving =>
    cases hstep
    exact ⟨hexited, id, hless, hsame⟩
  | exited => cases hstep

theorem Counted.worker {i : Nat} (h : pool.Counted)
    (hstep : pool.step (.worker i) = some pool') : pool'.Counted := by
  obtain ⟨hexited, hpending, hthreads, hbusy⟩ := h
  obtain ⟨⟨workers, shared⟩, hat, rfl⟩ := Option.map_eq_some_iff.mp hstep
  obtain ⟨before, w, w', after, hworkers, rfl, hact⟩ := stepAt_cases hat
  obtain ⟨hexited', hpending', hthreads', hbusy'⟩ := Worker.step_counts hexited hact
  have hsum (share : Worker → Int) : ((before ++ w' :: after).map share).sum =
      (pool.workers.map share).sum + (share w' - share w) := by
    rw [hworkers]
    simp only [List.map_append, List.map_cons, List.sum_append, List.sum_cons]
    omega
  refine ⟨hexited', hpending' hpending, ?_, ?_⟩
  · rw [hthreads', hthreads, hsum, Int32.ofInt_add]
  · rw [hbusy', hbusy, hsum, Int32.ofInt_add]

theorem Counted.adder {i : Nat} (h : pool.Counted)
    (hstep : pool.step (.adder i) = some pool') : pool'.Counted := by
  obtain ⟨hexited, hpending, hthreads, hbusy⟩ := h
  obtain ⟨⟨adders, shared, workers⟩, hat, rfl⟩ := Option.map_eq_some_iff.mp hstep
  obtain ⟨before, a, a', after, -, -, hact⟩ := stepAt_cases hat
  cases a with
  | adding isPriority task =>
    cases hact
    refine ⟨hexited, ?_, hthreads, hbusy⟩
    have hlength : (addPendingTask pool.shared isPriority task).pendingTasks.length =
        pool.shared.pendingTasks.length + 1 := by
      unfold addPendingTask
      dsimp only
      split <;> simp
    rw [hlength, Int.natCast_succ, Int32.ofInt_add, ← hpending]
    rfl
  | starting =>
    unfold Adder.step at hact
    dsimp only at hact
    split at hact
    · cases hact
    · cases hact
      refine ⟨hexited, hpending, ?_, ?_⟩
      · simp only [List.map_append, List.sum_append, Int32.ofInt_add, ← hthreads]
        rfl
      · simp only [List.map_append, List.sum_append, Int32.ofInt_add, ← hbusy]
        exact (Int32.add_zero _).symm
  | returned => cases hact
  | calling | checkingMax | checkingMin | checkingBusy | comparing | signaling =>
    cases hact
    exact ⟨hexited, hpending, hthreads, hbusy⟩

theorem Counted.step {event : Event} (h : pool.Counted)
    (hstep : pool.step event = some pool') : pool'.Counted := by
  cases event with
  | addTask =>
    cases hstep
    exact ⟨h.not_exited, h.pending, h.threads, h.busy⟩
  | adder => exact h.adder hstep
  | worker => exact h.worker hstep

/-- A thread that has left keeps the number of busy threads below the number of threads. -/
theorem sum_busyShare_lt (workers : List Worker) :
    -(workers.length : Int) ≤ (workers.map Worker.busyShare).sum ∧
      (workers.map Worker.busyShare).sum + workers.count .exited ≤
        (workers.map Worker.threadShare).sum ∧
      (workers.map Worker.threadShare).sum ≤ workers.length := by
  induction workers with
  | nil => decide
  | cons w workers ih =>
    have hw : -1 ≤ w.busyShare ∧ w.busyShare + (if w = .exited then 1 else 0) ≤ w.threadShare ∧
        w.threadShare ≤ 1 := by
      cases w <;> simp [Worker.busyShare, Worker.threadShare]
    simp only [List.length_cons, List.map_cons, List.sum_cons, List.count_cons, beq_iff_eq]
    split_ifs at hw ⊢ <;> omega

/-- In every interleaving, once a thread has left, the number of busy threads is below the number of
threads, even while all of them are busy, as long as fewer than 2^31 threads were started. -/
theorem counted_of_reaches {min max : Int32} {pool : ThreadPool}
    (h : Reaches step (new min max) pool) :
    pool.Counted ∧ (pool.workers.length < 2 ^ 31 → .exited ∈ pool.workers →
      pool.shared.curBusyThreadNum < pool.shared.curThreadNum) := by
  have hcounted : pool.Counted :=
    h.invariant (fun _ _ _ => Counted.step) ⟨rfl, rfl, rfl, rfl⟩
  refine ⟨hcounted, fun hlength hmem => ?_⟩
  have hleft := List.count_pos_iff.mpr hmem
  obtain ⟨hlow, hlt, hhigh⟩ := sum_busyShare_lt pool.workers
  rw [hcounted.busy, hcounted.threads, Int32.lt_iff_toInt_lt, Int32.toInt_ofInt_of_le,
    Int32.toInt_ofInt_of_le] <;> omega

/-- The only thread has left: there are no threads, and -1 of them are busy. -/
theorem counted_after_timeout :
    ∃ pool, Reaches step (new 0 1) pool ∧
      pool.shared.curBusyThreadNum < pool.shared.curThreadNum :=
  have hrun : Reaches step (new 0 1) _ :=
    ⟨.addTask false 7 :: .replicate 8 (.adder 0) ++ .replicate 18 (.worker 0), rfl⟩
  ⟨_, hrun, (counted_of_reaches hrun).2 (by decide) (by decide)⟩

end ThreadPool

end Toft
