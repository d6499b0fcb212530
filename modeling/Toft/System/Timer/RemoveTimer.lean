import Mathlib.Algebra.Group.Nat.Defs
import Toft.System.Timer.Timeouts

/-!
# RemoveTimer is a barrier

`RemoveTimer` from another thread returns only while its timer is not the running one. The timer
thread has then no timeout of the timer in hand, and finds none that would fire, since the timer is
not in the map and its id is not given out again (`removeTimer_barrier`).
-/

namespace Toft.TimerManager

open Lib.Machine Option

/-! ## What the timer thread has in hand -/

/-- The timer whose timeout the timer thread has taken: its closure is to be run, is running or has
just returned. -/
def Dispatch.timer : Dispatch → Option Nat
  | .waiting => none
  | .dequeued id _ | .calling id _ | .called id _ => some id

/-- The calls of the class do not touch what the timer thread does. -/
def SameDispatch (m m' : TimerManager) : Prop :=
  m'.dispatch.timer = m.dispatch.timer ∧ m'.runningTimer = m.runningTimer

section Calls

variable (m : TimerManager) (now : Int) (id : Nat)

theorem reviseTimer_sameDispatch (entry : TimerEntry) :
    m.SameDispatch (m.reviseTimer now id entry) := by
  unfold reviseTimer
  split <;> exact ⟨rfl, rfl⟩

theorem modifyTimer_sameDispatch (interval : Int) :
    m.SameDispatch (m.modifyTimer now id interval).2 := by
  unfold modifyTimer
  split
  · exact reviseTimer_sameDispatch ..
  · exact ⟨rfl, rfl⟩

theorem modifyTimerClosure_sameDispatch (interval : Int) (closure : Option Closure) :
    m.SameDispatch (m.modifyTimerClosure now id interval closure).2 := by
  unfold modifyTimerClosure
  split
  · rename_i entry _
    have hsame := reviseTimer_sameDispatch
      (if entry.closure ≠ closure then m.deleteClosure entry.closure else m) now id
      { entry with interval, closure }
    unfold SameDispatch at hsame ⊢
    split at hsame
    · rename_i hne
      rwa [if_pos hne, ← deleteClosure_dispatch m entry.closure,
        ← deleteClosure_runningTimer m entry.closure]
    · rename_i heq
      rwa [if_neg heq]
  · exact ⟨rfl, rfl⟩

theorem disableTimer_sameDispatch : m.SameDispatch (m.disableTimer id).2 := by
  unfold disableTimer
  split <;> exact ⟨rfl, rfl⟩

theorem enableTimer_sameDispatch : m.SameDispatch (m.enableTimer now id).2 := by
  unfold enableTimer
  split <;> exact ⟨rfl, rfl⟩

theorem asyncRemoveTimer_sameDispatch : m.SameDispatch (m.asyncRemoveTimer id).2 := by
  unfold asyncRemoveTimer SameDispatch
  split <;> simp

end Calls

variable {m m' : TimerManager}

theorem finishTimer_dispatch {now : Int} (h : m.finishTimer now = some m') :
    m'.dispatch = .waiting := by
  obtain ⟨id, copy, -, rfl⟩ := finishTimer_cases h
  split
  · unfold finishPeriod
    split
    · rename_i entry hentry
      obtain ⟨-, -, -, hdispatch⟩ := restoreClosure_spec hentry copy
      split
      · rw [setNextTimeout_dispatch, hdispatch]
      · exact hdispatch
    · exact deleteClosure_dispatch ..
  · rfl

variable {event : Event}

/-- The timer thread goes on with its timer, is done with it, or takes one that is in the map. -/
theorem step_dispatch (hstep : m.step event = some m') :
    m.SameDispatch m' ∨ m'.dispatch = .waiting ∨
      ∃ id entry, m.timers id = some entry ∧ m'.dispatch.timer = some id ∧
        m'.runningTimer = id := by
  cases event with
  | newTimerId | addOneshotTimer | addPeriodTimer | clear =>
    cases hstep
    exact .inl ⟨rfl, rfl⟩
  | modifyTimerClosure now id interval closure =>
    cases hstep
    exact .inl (modifyTimerClosure_sameDispatch ..)
  | modifyTimer now id interval =>
    cases hstep
    exact .inl (modifyTimer_sameDispatch ..)
  | disableTimer id =>
    cases hstep
    exact .inl (disableTimer_sameDispatch ..)
  | enableTimer now id =>
    cases hstep
    exact .inl (enableTimer_sameDispatch ..)
  | removeTimer inTimerThread id =>
    obtain ⟨⟨result, m''⟩, hremove, rfl⟩ := map_eq_some_iff.mp hstep
    obtain ⟨-, heq⟩ | ⟨-, heq⟩ := removeTimer_cases hremove
    · cases heq
      exact .inl ⟨rfl, rfl⟩
    · rw [heq]
      exact .inl (asyncRemoveTimer_sameDispatch ..)
  | asyncRemoveTimer id =>
    cases hstep
    exact .inl (asyncRemoveTimer_sameDispatch ..)
  | dequeue now timeout =>
    obtain ⟨-, ⟨-, rfl⟩ | ⟨entry, hrun, rfl⟩⟩ := dequeueTimeoutEntry_cases hstep
    · exact .inl ⟨rfl, rfl⟩
    · exact .inr (.inr ⟨_, entry, (entryToRun_eq_some_iff.mp hrun).1, rfl, rfl⟩)
  | call =>
    simp only [step, callClosure] at hstep
    split at hstep
    · rename_i id entry hdequeued
      cases hstep
      refine .inl ⟨?_, rfl⟩
      rw [hdequeued]
      split <;> rfl
    · cases hstep
  | returned =>
    simp only [step, returnClosure] at hstep
    split at hstep
    · rename_i id entry hcalling
      cases hstep
      exact .inl ⟨by rw [hcalling]; rfl, rfl⟩
    · cases hstep
  | finish now => exact .inr (.inl (finishTimer_dispatch hstep))

/-! ## Removed timers -/

/-- The field `m_running_timer` is the timer in hand; no timer has the id 0. -/
structure Tracked (m : TimerManager) : Prop extends Sound m where
  running : ∀ id, m.dispatch.timer = some id → m.runningTimer = id
  timer_pos : ∀ id entry, m.timers id = some entry → 0 < id
  dispatch_pos : ∀ id, m.dispatch.timer = some id → 0 < id

/-- The id was given out, and its timer is neither in the map nor in hand. -/
structure Gone (m : TimerManager) (id : Nat) : Prop extends Sound m where
  id_le : id ≤ m.timerId
  timer : m.timers id = none
  dispatch : m.dispatch.timer ≠ some id

theorem queues_cases {m : TimerManager} {id n : Nat} (h : m.queues event = some (id, n)) :
    id = m.timerId + 1 ∨ ∃ entry, m.timers id = some entry := by
  cases event with
  | addOneshotTimer | addPeriodTimer =>
    cases h
    exact .inl rfl
  | modifyTimerClosure now id' | modifyTimer now id' =>
    obtain ⟨entry, hentry, hite⟩ := bind_eq_some_iff.mp h
    split at hite
    · cases hite
      exact .inr ⟨entry, hentry⟩
    · cases hite
  | enableTimer now id' =>
    obtain ⟨entry, hentry, heq⟩ := map_eq_some_iff.mp h
    cases heq
    exact .inr ⟨entry, hentry⟩
  | finish now =>
    obtain ⟨id', -, hbind⟩ := bind_eq_some_iff.mp h
    obtain ⟨entry, hentry, hite⟩ := bind_eq_some_iff.mp hbind
    split at hite
    · cases hite
      exact .inr ⟨entry, hentry⟩
    · cases hite
  | _ => cases h

theorem timers_of_step (h : m.Sound)
    (hstep : m.step event = some m') {id : Nat} {entry' : TimerEntry}
    (hentry' : m'.timers id = some entry') :
    id = m.timerId + 1 ∨ ∃ entry, m.timers id = some entry := by
  obtain ⟨id', n, hqueues, hqueued⟩ | ⟨-, hkept⟩ := step_effect h hstep
  · by_cases hid : id = id'
    · exact hid ▸ queues_cases hqueues
    · exact .inr ⟨entry', hqueued.others id hid ▸ hentry'⟩
  · obtain ⟨entry, hentry, -⟩ := hkept.timers _ _ hentry'
    exact .inr ⟨entry, hentry⟩

theorem timerId_le_of_step (h : m.Sound)
    (hstep : m.step event = some m') : m.timerId ≤ m'.timerId := by
  obtain ⟨id, n, -, hqueued⟩ | ⟨-, hkept⟩ := step_effect h hstep
  · exact hqueued.timerId_le
  · exact hkept.timerId_le

theorem tracked_init : Tracked {} := { sound_init with
    running := nofun
    timer_pos := nofun
    dispatch_pos := nofun }

theorem Tracked.step (h : m.Tracked) (hstep : m.step event = some m') : m'.Tracked := by
  refine { h.toSound.step hstep with running := ?_, timer_pos := ?_, dispatch_pos := ?_ }
  · intro id hid
    obtain ⟨htimer, hrunning⟩ | hwaiting | ⟨id', -, -, htimer, hrunning⟩ := step_dispatch hstep
    · rw [hrunning]
      exact h.running id (htimer ▸ hid)
    · rw [hwaiting] at hid
      cases hid
    · cases htimer.symm.trans hid
      exact hrunning
  · intro id entry' hentry'
    obtain rfl | ⟨entry, hentry⟩ := timers_of_step h.toSound hstep hentry'
    · exact Nat.succ_pos _
    · exact h.timer_pos id entry hentry
  · intro id hid
    obtain ⟨htimer, -⟩ | hwaiting | ⟨id', entry, hentry, htimer, -⟩ := step_dispatch hstep
    · exact h.dispatch_pos id (htimer ▸ hid)
    · rw [hwaiting] at hid
      cases hid
    · cases htimer.symm.trans hid
      exact h.timer_pos id entry hentry

theorem Gone.step {id : Nat} (h : m.Gone id) (hstep : m.step event = some m') : m'.Gone id := by
  have hle := h.id_le
  refine { h.toSound.step hstep with id_le := ?_, timer := ?_, dispatch := ?_ }
  · exact Nat.le_trans hle (timerId_le_of_step h.toSound hstep)
  · by_contra hsome
    obtain ⟨entry', hentry'⟩ := ne_none_iff_exists'.mp hsome
    obtain heq | ⟨entry, hentry⟩ := timers_of_step h.toSound hstep hentry'
    · omega
    · rw [h.timer] at hentry
      cases hentry
  · intro hid
    obtain ⟨htimer, -⟩ | hwaiting | ⟨id', entry, hentry, htimer, -⟩ := step_dispatch hstep
    · exact h.dispatch (htimer ▸ hid)
    · rw [hwaiting] at hid
      cases hid
    · cases htimer.symm.trans hid
      rw [h.timer] at hentry
      cases hentry

/-- When `RemoveTimer` from another thread returns, the timer is gone. -/
theorem Tracked.removeTimer {id : Nat} (h : m.Tracked) (hid : id ≤ m.timerId)
    (hstep : m.step (.removeTimer false id) = some m') : m'.Gone id := by
  have hsound := h.toSound.step hstep
  obtain ⟨⟨result, m''⟩, hremove, rfl⟩ := map_eq_some_iff.mp hstep
  obtain ⟨rfl, heq⟩ | ⟨hne, heq⟩ := removeTimer_cases hremove
  · cases heq
    refine { hsound with id_le := hid, timer := ?_, dispatch := ?_ }
    · by_contra hsome
      obtain ⟨entry, hentry⟩ := ne_none_iff_exists'.mp hsome
      exact absurd (h.timer_pos 0 entry hentry) (Nat.lt_irrefl 0)
    · intro hzero
      exact absurd (h.dispatch_pos 0 hzero) (Nat.lt_irrefl 0)
  · obtain ⟨htimer, -⟩ := asyncRemoveTimer_sameDispatch m id
    have htimers : (m.asyncRemoveTimer id).2.timers id = none ∧
        (m.asyncRemoveTimer id).2.timerId = m.timerId := by
      unfold asyncRemoveTimer
      split
      · simp
      · exact ⟨‹_›, rfl⟩
    rw [← heq] at htimers htimer
    refine { hsound with id_le := htimers.2 ▸ hid, timer := htimers.1, dispatch := ?_ }
    intro hrunning
    exact hne rfl (h.running id (htimer ▸ hrunning)).symm

/-- **RemoveTimer.** From the moment when a call of `RemoveTimer` from another thread returns, the
timer thread never again has a timeout of the timer in hand: the callback is not running and does
not start. The ids have not come around, since the counter is a `uint64_t`. -/
theorem removeTimer_barrier {m m' m'' : TimerManager} {id : Nat} (hm : Reaches step {} m)
    (hid : id ≤ m.timerId) (hremove : m.step (.removeTimer false id) = some m')
    (hlater : Reaches step m' m'') (_hids : m''.timerId < 2 ^ 64) :
    m''.dispatch.timer ≠ some id := by
  have htracked : m.Tracked := hm.invariant (fun _ _ _ h hstep => h.step hstep) tracked_init
  have hgone : m''.Gone id :=
    @Reaches.invariant _ _ step (Gone · id) (fun _ _ _ h hstep => h.step hstep) _ _ hlater
      (htracked.removeTimer hid hremove)
  exact hgone.dispatch

/-- A one-shot timer is removed while its timeout is pending, which is then dropped. -/
theorem removeTimer_barrier_oneshot :
    ∃ m m' m'', Reaches step {} m ∧ m.step (.removeTimer false 1) = some m' ∧
      m'.step (.dequeue 10 ⟨10, 1, 0, 0⟩) = some m'' ∧ m''.dispatch.timer ≠ some 1 := by
  have hm : Reaches step {} (addOneshotTimer {} 0 10 (some 7)).2 :=
    .single (.addOneshotTimer 0 10 (some 7)) rfl
  refine ⟨_, _, _, hm, rfl, rfl, ?_⟩
  exact removeTimer_barrier hm (Nat.le_refl 1) rfl (.single (.dequeue 10 ⟨10, 1, 0, 0⟩) rfl)
    (by decide)

end Toft.TimerManager
