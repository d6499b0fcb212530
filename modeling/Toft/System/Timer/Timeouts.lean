import Toft.System.Timer.TimerManager

/-!
# Timeouts that are still to fire

A step of the timer manager either queues one timeout, with the revision that its timer then has, or
it queues none (`step_effect`). A timer is not scheduled twice, and no outdated timeout comes back,
exactly if a timeout is queued only while no timeout of the timer is pending that was queued a
multiple of 256 changes before: with none between, the timer is scheduled twice, and with 256 of
them the 8-bit revision is the same again (`schedules_single_iff`).
-/

namespace Toft.TimerManager

open Lib.Machine List Option Function Nat UInt8

/-! ## What a step does -/

/-- The periodic timer that was run. -/
def Dispatch.period : Dispatch → Option Nat
  | .called id copy => if copy.isPeriod then some id else none
  | _ => none

/-- The timer that the event queues a timeout for, and the changes of the timer then. -/
def queues (m : TimerManager) : Event → Option (Nat × Nat)
  | .addOneshotTimer .. | .addPeriodTimer .. => some (m.timerId + 1, 0)
  | .modifyTimerClosure _ id _ _ | .modifyTimer _ id _ =>
    (m.timers id).bind fun entry => if entry.isEnabled then some (id, entry.changes + 1) else none
  | .enableTimer _ id => (m.timers id).map fun entry => (id, entry.changes)
  | .finish _ => m.dispatch.period.bind fun id =>
    (m.timers id).bind fun entry => if entry.isEnabled then some (id, entry.changes) else none
  | _ => none

/-- The step queues no timeout: it may take timeouts and timers away and disable a timer. -/
structure Kept (m m' : TimerManager) : Prop where
  timerId_le : m.timerId ≤ m'.timerId
  timeouts : m'.timeouts.Sublist m.timeouts
  timers : ∀ id entry', m'.timers id = some entry' → ∃ entry, m.timers id = some entry ∧
    (entry'.isEnabled = entry.isEnabled ∧ entry'.revision = entry.revision ∧
        entry'.changes = entry.changes ∨
      entry'.isEnabled = false ∧ entry'.revision = entry.revision + 1 ∧
        entry'.changes = entry.changes + 1)

/-- The step queues a timeout for the timer `id`, which then is enabled and has `n` changes. -/
structure Queued (m : TimerManager) (id n : Nat) (m' : TimerManager) : Prop where
  timerId_le : m.timerId ≤ m'.timerId
  id_le : id ≤ m'.timerId
  timeouts : ∃ time, m'.timeouts = ⟨time, id, .ofNat n, n⟩ :: m.timeouts
  self : ∃ entry', m'.timers id = some entry' ∧ entry'.isEnabled = true ∧
    entry'.revision = .ofNat n ∧ entry'.changes = n
  others : ∀ id', id' ≠ id → m'.timers id' = m.timers id'

/-- The ids are the ones given out, and the revisions count the changes in 8 bits. -/
structure Sound (m : TimerManager) : Prop where
  timer_le : ∀ id entry, m.timers id = some entry → id ≤ m.timerId
  timeout_le : ∀ t ∈ m.timeouts, t.timerId ≤ m.timerId
  timer_revision : ∀ id entry, m.timers id = some entry → entry.revision = .ofNat entry.changes
  timeout_revision : ∀ t ∈ m.timeouts, t.revision = .ofNat t.changes

theorem ofNat_succ (n : Nat) : ofNat (n + 1) = ofNat n + 1 := by
  exact ofNat_add n 1

variable {m m' : TimerManager}

theorem Kept.of_eq (htimerId : m'.timerId = m.timerId)
    (htimeouts : m'.timeouts = m.timeouts) (htimers : m'.timers = m.timers) : m.Kept m' where
  timerId_le := Nat.le_of_eq htimerId.symm
  timeouts := htimeouts ▸ List.Sublist.refl _
  timers := by
    intro id entry' hentry
    exact ⟨entry', htimers ▸ hentry, .inl ⟨rfl, rfl, rfl⟩⟩

theorem Kept.of_update {id : Nat} {value : Option TimerEntry}
    (htimerId : m'.timerId = m.timerId) (htimeouts : m'.timeouts.Sublist m.timeouts)
    (htimers : m'.timers = update m.timers id value)
    (hvalue : ∀ entry', value = some entry' → ∃ entry, m.timers id = some entry ∧
      (entry'.isEnabled = entry.isEnabled ∧ entry'.revision = entry.revision ∧
          entry'.changes = entry.changes ∨
        entry'.isEnabled = false ∧ entry'.revision = entry.revision + 1 ∧
          entry'.changes = entry.changes + 1)) : m.Kept m' where
  timerId_le := Nat.le_of_eq htimerId.symm
  timeouts := htimeouts
  timers := by
    intro id' entry' hentry
    rw [htimers] at hentry
    by_cases hid : id' = id
    · subst hid
      rw [update_self] at hentry
      exact hvalue entry' hentry
    · rw [update_of_ne hid] at hentry
      exact ⟨entry', hentry, .inl ⟨rfl, rfl, rfl⟩⟩

theorem Queued.of_update {id : Nat} {entry : TimerEntry} {time : Int}
    (htimerId : m.timerId ≤ m'.timerId) (hid : id ≤ m'.timerId)
    (htimeouts : m'.timeouts = ⟨time, id, entry.revision, entry.changes⟩ :: m.timeouts)
    (htimers : m'.timers = update m.timers id (some entry)) (henabled : entry.isEnabled)
    (hrevision : entry.revision = .ofNat entry.changes) : m.Queued id entry.changes m' where
  timerId_le := htimerId
  id_le := hid
  timeouts := ⟨time, by rw [htimeouts, hrevision]⟩
  self := ⟨entry, by rw [htimers, update_self], henabled, hrevision, rfl⟩
  others := by
    intro id' hne
    rw [htimers, update_of_ne hne]

variable {id n : Nat}

theorem effect_of_ite {enabled : Bool}
    (h : if enabled then m.Queued id n m' else m.Kept m') :
    (∃ id' n', (if enabled then some (id, n) else none) = some (id', n') ∧ m.Queued id' n' m') ∨
      (if enabled then some (id, n) else none) = none ∧ m.Kept m' := by
  split at h
  · rename_i henabled
    exact .inl ⟨id, n, if_pos henabled, h⟩
  · rename_i hdisabled
    exact .inr ⟨if_neg hdisabled, h⟩

section Effects

variable {m : TimerManager} (h : m.Sound)

include h

theorem addTimer_effect (now interval : Int) (isPeriod : Bool) (closure : Option Closure) :
    m.Queued (m.timerId + 1) 0 (m.addTimer now interval isPeriod closure).2 := by
  have hfresh : m.timers (m.timerId + 1) = none := by
    by_contra hsome
    obtain ⟨entry, hentry⟩ := ne_none_iff_exists'.mp hsome
    have := h.timer_le _ _ hentry
    omega
  refine @Queued.of_update m _ _ { interval, isPeriod, closure, isEnabled := true } (now + interval)
    (Nat.le_succ _) (Nat.le_refl _) rfl ?_ rfl rfl
  simp only [addTimer, newTimerId, setNextTimeout_timers, setEntry_timers, hfresh, getD_none]

/-- `m₁` is the manager behind the deletion of an old closure. -/
theorem reviseTimer_effect {m₁ : TimerManager} (htimers : m₁.timers = m.timers)
    (htimeouts : m₁.timeouts = m.timeouts) (htimerId : m₁.timerId = m.timerId) {id : Nat}
    {entry : TimerEntry} (hentry : m.timers id = some entry) (now : Int) {entry' : TimerEntry}
    (henabled : entry'.isEnabled = entry.isEnabled) (hrevision : entry'.revision = entry.revision)
    (hchanges : entry'.changes = entry.changes) :
    if entry.isEnabled then m.Queued id (entry.changes + 1) (m₁.reviseTimer now id entry')
    else m.Kept (m₁.reviseTimer now id entry') := by
  have hid := h.timer_le _ _ hentry
  have hrev := h.timer_revision _ _ hentry
  have hrev' : entry'.revise.revision = .ofNat (entry.changes + 1) := by
    rw [ofNat_succ, ← hrev, ← hrevision]
    rfl
  unfold reviseTimer
  rw [henabled, ← hchanges]
  split
  · rename_i hyes
    refine @Queued.of_update m _ id entry'.revise (now + entry'.interval)
      (Nat.le_of_eq htimerId.symm) (Nat.le_trans hid (Nat.le_of_eq htimerId.symm)) ?_ ?_
      (henabled.trans hyes) (by rw [hrev', ← hchanges]; rfl)
    · rw [← htimeouts]
      rfl
    · rw [← htimers]
      rfl
  · rename_i hno
    refine @Kept.of_update m _ id (some entry'.revise) htimerId (htimeouts ▸ List.Sublist.refl _)
      (htimers ▸ rfl) ?_
    intro entry'' heq
    cases heq
    refine ⟨entry, hentry, .inr ⟨henabled.trans (Bool.eq_false_iff.mpr hno), ?_, ?_⟩⟩
    · rw [← hrevision]
      rfl
    · rw [← hchanges]
      rfl

theorem enableTimer_effect {id : Nat} {entry : TimerEntry} (hentry : m.timers id = some entry)
    (now : Int) : m.Queued id entry.changes (m.enableTimer now id).2 := by
  have hid := h.timer_le _ _ hentry
  simp only [enableTimer, hentry]
  exact @Queued.of_update m _ _ { entry with isEnabled := true } (now + entry.interval)
    (Nat.le_refl _) hid rfl rfl rfl (h.timer_revision id entry hentry)

omit h in
theorem disableTimer_effect (id : Nat) : m.Kept (m.disableTimer id).2 := by
  unfold disableTimer
  split
  · rename_i entry hentry
    refine Kept.of_update rfl (List.Sublist.refl _) rfl ?_
    intro entry' heq
    cases heq
    exact ⟨entry, hentry, .inr ⟨rfl, rfl, rfl⟩⟩
  · exact Kept.of_eq rfl rfl rfl

omit h in
theorem asyncRemoveTimer_effect (id : Nat) : m.Kept (m.asyncRemoveTimer id).2 := by
  unfold asyncRemoveTimer
  split
  · refine @Kept.of_update m _ id none (by simp) (by simp) (by simp) ?_
    intro entry' heq
    cases heq
  · exact Kept.of_eq rfl rfl rfl

variable {m' : TimerManager}

omit h in
theorem dequeue_effect {now : Int} {timeout : Timeout}
    (hstep : m.dequeueTimeoutEntry now timeout = some m') : m.Kept m' := by
  have hsub := erase_sublist (a := timeout) (l := m.timeouts)
  obtain ⟨-, ⟨-, rfl⟩ | ⟨entry, hrun, rfl⟩⟩ := dequeueTimeoutEntry_cases hstep
  · exact ⟨Nat.le_refl _, hsub, fun id entry' hentry => ⟨entry', hentry, .inl ⟨rfl, rfl, rfl⟩⟩⟩
  · refine Kept.of_update rfl hsub rfl ?_
    intro entry' heq
    split at heq
    · cases heq
      exact ⟨entry, (entryToRun_eq_some_iff.mp hrun).1, .inl ⟨rfl, rfl, rfl⟩⟩
    · cases heq

/-- The end of a dispatch writes the closure back, and queues the next timeout of a periodic timer
that is enabled. -/
theorem finishPeriod_effect {id : Nat} {entry : TimerEntry} (hentry : m.timers id = some entry)
    (now : Int) (copy : TimerEntry) :
    if entry.isEnabled then m.Queued id entry.changes (m.finishPeriod now id copy)
    else m.Kept (m.finishPeriod now id copy) := by
  obtain ⟨⟨closure, htimers⟩, htimeouts, htimerId, -⟩ := restoreClosure_spec hentry copy
  have hle := Nat.le_of_eq htimerId.symm
  simp only [finishPeriod, hentry]
  split
  · rename_i henabled
    refine @Queued.of_update m _ id { entry with closure } (now + entry.interval) hle
      (Nat.le_trans (h.timer_le _ _ hentry) hle) ?_ htimers henabled
      (h.timer_revision id entry hentry)
    rw [setNextTimeout_timeouts, htimeouts]
  · refine Kept.of_update htimerId (htimeouts ▸ List.Sublist.refl _) htimers ?_
    intro entry' heq
    cases heq
    exact ⟨entry, hentry, .inl ⟨rfl, rfl, rfl⟩⟩

theorem finishTimer_effect {now : Int} (hstep : m.finishTimer now = some m') :
    (∃ id n, m.queues (.finish now) = some (id, n) ∧ m.Queued id n m') ∨
      m.queues (.finish now) = none ∧ m.Kept m' := by
  obtain ⟨id, copy, hcalled, rfl⟩ := finishTimer_cases hstep
  simp only [queues, hcalled, Dispatch.period]
  split
  · rw [bind_some]
    cases hentry : m.timers id with
    | none =>
      refine .inr ⟨rfl, ?_⟩
      simp only [finishPeriod, hentry]
      exact Kept.of_eq (by simp) (by simp) (by simp)
    | some entry =>
      have hsound : Sound { m with runningTimer := 0, dispatch := .waiting } :=
        ⟨h.timer_le, h.timeout_le, h.timer_revision, h.timeout_revision⟩
      have heffect := finishPeriod_effect hsound hentry now copy
      apply effect_of_ite
      cases henabled : entry.isEnabled with
      | false =>
        rw [henabled] at heffect
        exact ⟨heffect.timerId_le, heffect.timeouts, heffect.timers⟩
      | true =>
        rw [henabled] at heffect
        exact ⟨heffect.timerId_le, heffect.id_le, heffect.timeouts, heffect.self, heffect.others⟩
  · exact .inr ⟨rfl, Kept.of_eq rfl rfl rfl⟩

/-- A step queues one timeout or none. -/
theorem step_effect {event : Event} (hstep : m.step event = some m') :
    (∃ id n, m.queues event = some (id, n) ∧ m.Queued id n m') ∨
      m.queues event = none ∧ m.Kept m' := by
  cases event with
  | newTimerId =>
    cases hstep
    exact .inr ⟨rfl, le_succ _, List.Sublist.refl _,
      fun id entry' hentry => ⟨entry', hentry, .inl ⟨rfl, rfl, rfl⟩⟩⟩
  | addOneshotTimer now interval closure =>
    cases hstep
    exact .inl ⟨_, _, rfl, addTimer_effect h now interval false closure⟩
  | addPeriodTimer now interval closure =>
    cases hstep
    exact .inl ⟨_, _, rfl, addTimer_effect h now interval true closure⟩
  | modifyTimerClosure now id interval closure =>
    cases hstep
    simp only [queues, modifyTimerClosure]
    cases hentry : m.timers id with
    | none => exact .inr ⟨rfl, Kept.of_eq rfl rfl rfl⟩
    | some entry =>
      have heffect := @reviseTimer_effect m h
        (if entry.closure ≠ closure then m.deleteClosure entry.closure else m)
        (by split <;> simp) (by split <;> simp) (by split <;> simp) id entry hentry now
        { entry with interval, closure } rfl rfl rfl
      exact effect_of_ite heffect
  | modifyTimer now id interval =>
    cases hstep
    simp only [queues, modifyTimer]
    cases hentry : m.timers id with
    | none => exact .inr ⟨rfl, Kept.of_eq rfl rfl rfl⟩
    | some entry =>
      have heffect := @reviseTimer_effect m h m rfl rfl rfl id entry hentry now
        { entry with interval } rfl rfl rfl
      exact effect_of_ite heffect
  | disableTimer id =>
    cases hstep
    exact .inr ⟨rfl, disableTimer_effect id⟩
  | enableTimer now id =>
    cases hstep
    cases hentry : m.timers id with
    | none =>
      refine .inr ⟨by simp only [queues, hentry, map_none], ?_⟩
      simp only [enableTimer, hentry]
      exact Kept.of_eq rfl rfl rfl
    | some entry => exact .inl ⟨id, entry.changes, by simp only [queues, hentry, map_some],
        enableTimer_effect h hentry now⟩
  | removeTimer inTimerThread id =>
    refine .inr ⟨rfl, ?_⟩
    obtain ⟨⟨result, m''⟩, hremove, rfl⟩ := map_eq_some_iff.mp hstep
    obtain ⟨-, heq⟩ | ⟨-, heq⟩ := removeTimer_cases hremove
    · cases heq
      exact Kept.of_eq rfl rfl rfl
    · rw [heq]
      exact asyncRemoveTimer_effect id
  | asyncRemoveTimer id =>
    cases hstep
    exact .inr ⟨rfl, asyncRemoveTimer_effect id⟩
  | clear =>
    cases hstep
    exact .inr ⟨rfl, Nat.le_refl _, nil_sublist _, fun id entry' hentry => nomatch hentry⟩
  | dequeue now timeout => exact .inr ⟨rfl, dequeue_effect hstep⟩
  | call =>
    refine .inr ⟨rfl, ?_⟩
    simp only [step, callClosure] at hstep
    split at hstep
    · cases hstep
      exact Kept.of_eq rfl rfl rfl
    · cases hstep
  | returned =>
    refine .inr ⟨rfl, ?_⟩
    simp only [step, returnClosure] at hstep
    split at hstep
    · cases hstep
      exact Kept.of_eq rfl rfl rfl
    · cases hstep
  | finish now => exact finishTimer_effect h hstep

end Effects

/-! ## The manager is sound -/

theorem sound_init : Sound {} where
  timer_le := nofun
  timeout_le := nofun
  timer_revision := nofun
  timeout_revision := nofun

theorem Sound.kept (h : m.Sound) (hkept : m.Kept m') : m'.Sound where
  timer_le := by
    intro id entry' hentry'
    obtain ⟨entry, hentry, -⟩ := hkept.timers _ _ hentry'
    exact Nat.le_trans (h.timer_le _ _ hentry) hkept.timerId_le
  timeout_le := by
    intro t ht
    exact Nat.le_trans (h.timeout_le t (hkept.timeouts.subset ht)) hkept.timerId_le
  timer_revision := by
    intro id entry' hentry'
    obtain ⟨entry, hentry, ⟨-, hrevision, hchanges⟩ | ⟨-, hrevision, hchanges⟩⟩ :=
      hkept.timers _ _ hentry'
    · rw [hrevision, hchanges, h.timer_revision _ _ hentry]
    · rw [hrevision, hchanges, h.timer_revision _ _ hentry, ofNat_succ]
  timeout_revision := fun t ht => h.timeout_revision t (hkept.timeouts.subset ht)

theorem Sound.queued (h : m.Sound) (hqueued : m.Queued id n m') : m'.Sound := by
  obtain ⟨time, htimeouts⟩ := hqueued.timeouts
  obtain ⟨entry', hself, -, hrevision, hchanges⟩ := hqueued.self
  constructor
  · intro id' entry hentry
    by_cases hid : id' = id
    · exact hid ▸ hqueued.id_le
    · rw [hqueued.others id' hid] at hentry
      exact Nat.le_trans (h.timer_le _ _ hentry) hqueued.timerId_le
  · rw [htimeouts]
    intro t ht
    rcases mem_cons.mp ht with rfl | ht
    · exact hqueued.id_le
    · exact Nat.le_trans (h.timeout_le t ht) hqueued.timerId_le
  · intro id' entry hentry
    by_cases hid : id' = id
    · subst hid
      cases hself.symm.trans hentry
      rw [hrevision, hchanges]
    · rw [hqueued.others id' hid] at hentry
      exact h.timer_revision _ _ hentry
  · rw [htimeouts]
    intro t ht
    rcases mem_cons.mp ht with rfl | ht
    · rfl
    · exact h.timeout_revision t ht

variable {event : Event}

theorem Sound.step (h : m.Sound) (hstep : m.step event = some m') : m'.Sound := by
  obtain ⟨id, n, -, hqueued⟩ | ⟨-, hkept⟩ := step_effect h hstep
  · exact h.queued hqueued
  · exact h.kept hkept

/-! ## One timeout for each timer -/

/-- The timeouts of the timer that would still fire. -/
def toFire (m : TimerManager) (id : Nat) : List Timeout :=
  m.timeouts.filter fun t => t.timerId = id ∧ (m.entryToRun t).isSome

/-- A timeout fires when it is taken out of the queue and its timer is found to be run: then it is
not older than the last change of the timer. -/
def FiresCurrent (m : TimerManager) : Event → Prop
  | .dequeue _ timeout => ∀ entry, m.entryToRun timeout = some entry →
    timeout.changes = entry.changes
  | _ => True

/-- The event leaves at most one timeout that would still fire for each timer, and lets no timeout
fire that was queued before a change of its timer. -/
def KeepsSingle (m : TimerManager) (event : Event) : Prop :=
  ∀ m', m.step event = some m' → m.FiresCurrent event ∧ ∀ id, (m'.toFire id).length ≤ 1

/-- A timeout is queued only if no timeout of the timer is pending that was queued when the number
of changes was the same modulo 256. -/
def QueuesAlone (m : TimerManager) (event : Event) : Prop :=
  ∀ id n, m.queues event = some (id, n) → ∀ t ∈ m.timeouts, t.timerId = id →
    t.changes % 256 ≠ n % 256

instance (m : TimerManager) (event : Event) : Decidable (m.QueuesAlone event) :=
  match h : m.queues event with
  | none => isTrue (by simp [QueuesAlone, h])
  | some (id, n) =>
    decidable_of_iff (∀ t ∈ m.timeouts, t.timerId = id → t.changes % 256 ≠ n % 256)
      (by simp [QueuesAlone, h])

variable {m : TimerManager}

theorem mem_toFire_iff {id : Nat} {t : Timeout} : t ∈ m.toFire id ↔
    t ∈ m.timeouts ∧ t.timerId = id ∧ ∃ entry, m.timers id = some entry ∧ entry.isEnabled = true ∧
      t.revision = entry.revision := by
  simp only [toFire, mem_filter, decide_eq_true_eq, isSome_iff_exists, entryToRun_eq_some_iff]
  constructor
  · rintro ⟨hmem, rfl, entry, hentry⟩
    exact ⟨hmem, rfl, entry, hentry⟩
  · rintro ⟨hmem, rfl, entry, hentry⟩
    exact ⟨hmem, rfl, entry, hentry⟩

theorem ofNat_eq_iff (n n' : Nat) : UInt8.ofNat n = UInt8.ofNat n' ↔ n % 256 = n' % 256 := by
  rw [← UInt8.toNat_inj, UInt8.toNat_ofNat', UInt8.toNat_ofNat']

theorem Kept.mem_toFire (h : m.Kept m') {id : Nat} {t : Timeout}
    (ht : t ∈ m'.toFire id) : t ∈ m.toFire id := by
  rw [mem_toFire_iff] at ht ⊢
  obtain ⟨hmem, hid, entry', hentry', henabled', hrevision'⟩ := ht
  obtain ⟨entry, hentry, ⟨henabled, hrevision, -⟩ | ⟨hdisabled, -⟩⟩ := h.timers _ _ hentry'
  · exact ⟨h.timeouts.subset hmem, hid, entry, hentry, henabled ▸ henabled',
      hrevision'.trans hrevision⟩
  · rw [hdisabled] at henabled'
    cases henabled'

theorem length_toFire_le (h : m.Kept m') (id : Nat) :
    (m'.toFire id).length ≤ (m.toFire id).length := by
  simp only [toFire, ← countP_eq_length_filter]
  refine Nat.le_trans (countP_mono_left ?_) h.timeouts.countP_le
  intro t ht hfires
  exact (mem_filter.mp (h.mem_toFire (mem_filter.mpr ⟨ht, hfires⟩))).2

theorem toFire_of_ne (h : m.Queued id n m') {id' : Nat}
    (hne : id' ≠ id) : m'.toFire id' = m.toFire id' := by
  obtain ⟨time, htimeouts⟩ := h.timeouts
  rw [toFire, htimeouts, filter_cons_of_neg (by simp [Ne.symm hne])]
  refine filter_congr fun t _ => ?_
  refine decide_eq_decide.mpr (and_congr_right fun hid => ?_)
  rw [entryToRun, entryToRun, hid, h.others id' hne]

/-- The timeout that is queued would fire, and with it the pending ones of the same revision. -/
theorem length_toFire_le_one_iff (h : m.Sound)
    (hqueued : m.Queued id n m') : (m'.toFire id).length ≤ 1 ↔
      ∀ t ∈ m.timeouts, t.timerId = id → t.changes % 256 ≠ n % 256 := by
  obtain ⟨time, htimeouts⟩ := hqueued.timeouts
  obtain ⟨entry, hself, henabled, hrevision, -⟩ := hqueued.self
  have hfires (t : Timeout) (hid : t.timerId = id) :
      (m'.entryToRun t).isSome ↔ t.revision = ofNat n := by
    rw [isSome_iff_exists]
    simp only [entryToRun_eq_some_iff, hid, hself]
    constructor
    · rintro ⟨entry', hentry', -, hrevision'⟩
      cases hentry'
      exact hrevision'.trans hrevision
    · intro hrevision'
      exact ⟨entry, rfl, henabled, hrevision'.trans hrevision.symm⟩
  rw [toFire, htimeouts, filter_cons_of_pos (by simp [hfires]), length_cons,
    succ_le_succ_iff, le_zero, length_eq_zero_iff, filter_eq_nil_iff]
  refine forall_congr' fun t => forall_congr' fun ht => ?_
  rw [decide_eq_true_eq, not_and]
  refine forall_congr' fun hid => ?_
  rw [hfires t hid, h.timeout_revision t ht, ofNat_eq_iff]

/-- What holds as long as timeouts are queued alone. -/
structure Single (m : TimerManager) : Prop extends Sound m where
  current : ∀ id, ∀ t ∈ m.toFire id, ∀ entry, m.timers id = some entry → t.changes = entry.changes
  single : ∀ id, (m.toFire id).length ≤ 1

theorem single_init : Single {} := { sound_init with
    current := nofun
    single := fun _ => zero_le _ }

theorem Single.kept (h : m.Single) (hkept : m.Kept m') : m'.Single := by
  refine { h.toSound.kept hkept with current := ?_, single := ?_ }
  · intro id t ht entry' hentry'
    have hmem := hkept.mem_toFire ht
    obtain ⟨-, -, entry'', hentry'', henabled, -⟩ := mem_toFire_iff.mp ht
    cases hentry'.symm.trans hentry''
    obtain ⟨entry, hentry, ⟨-, -, hchanges⟩ | ⟨hdisabled, -⟩⟩ := hkept.timers _ _ hentry'
    · rw [hchanges]
      exact h.current id t hmem entry hentry
    · rw [hdisabled] at henabled
      cases henabled
  · intro id
    exact Nat.le_trans (length_toFire_le hkept id) (h.single id)

theorem Single.queued (h : m.Single) (hqueued : m.Queued id n m')
    (halone : ∀ t ∈ m.timeouts, t.timerId = id → t.changes % 256 ≠ n % 256) : m'.Single := by
  refine { h.toSound.queued hqueued with current := ?_, single := ?_ }
  · intro id' t ht entry' hentry'
    by_cases hid : id' = id
    · -- only the timeout that was queued would fire
      subst hid
      obtain ⟨hmem, hid, entry, hentry, -, hrevision⟩ := mem_toFire_iff.mp ht
      obtain ⟨time, htimeouts⟩ := hqueued.timeouts
      obtain ⟨entry'', hself, -, hrevision'', hchanges⟩ := hqueued.self
      cases hentry'.symm.trans hentry
      cases hentry'.symm.trans hself
      rw [htimeouts] at hmem
      rcases mem_cons.mp hmem with rfl | hmem
      · exact hchanges.symm
      · rw [hrevision'', h.timeout_revision t hmem, ofNat_eq_iff] at hrevision
        exact absurd hrevision (halone t hmem hid)
    · rw [toFire_of_ne hqueued hid] at ht
      rw [hqueued.others id' hid] at hentry'
      exact h.current id' t ht entry' hentry'
  · intro id'
    by_cases hid : id' = id
    · subst hid
      exact (length_toFire_le_one_iff h.toSound hqueued).mpr halone
    · rw [toFire_of_ne hqueued hid]
      exact h.single id'

theorem Single.step (h : m.Single)
    (halone : m.QueuesAlone event) (hstep : m.step event = some m') : m'.Single := by
  obtain ⟨id, n, hqueues, hqueued⟩ | ⟨-, hkept⟩ := step_effect h.toSound hstep
  · exact h.queued hqueued (halone id n hqueues)
  · exact h.kept hkept

theorem exists_step_of_queues
    (h : m.queues event = some (id, n)) : ∃ m', m.step event = some m' := by
  cases event with
  | finish now =>
    obtain ⟨id', hperiod, -⟩ := bind_eq_some_iff.mp h
    cases hdispatch : m.dispatch with
    | called id'' copy => exact ⟨_, by simp only [step, finishTimer, hdispatch]; rfl⟩
    | _ => simp [hdispatch, Dispatch.period] at hperiod
  | addOneshotTimer | addPeriodTimer | modifyTimerClosure | modifyTimer | enableTimer =>
    exact ⟨_, rfl⟩
  | _ => cases h

theorem keepsSingle_iff (h : m.Single) (event : Event) :
    m.KeepsSingle event ↔ m.QueuesAlone event := by
  constructor
  · intro hkeeps id n hqueues
    obtain ⟨m', hstep⟩ := exists_step_of_queues hqueues
    obtain ⟨id', n', hqueues', hqueued⟩ | ⟨hnone, -⟩ := step_effect h.toSound hstep
    · cases hqueues.symm.trans hqueues'
      exact (length_toFire_le_one_iff h.toSound hqueued).mp ((hkeeps m' hstep).2 id)
    · cases hqueues.symm.trans hnone
  · intro halone m' hstep
    refine ⟨?_, (h.step halone hstep).single⟩
    cases event with
    | dequeue now timeout =>
      intro entry hrun
      obtain ⟨hentry, henabled, hrevision⟩ := entryToRun_eq_some_iff.mp hrun
      obtain ⟨hmem, -⟩ := dequeueTimeoutEntry_cases hstep
      exact h.current _ timeout (mem_toFire_iff.mpr ⟨hmem, rfl, entry, hentry, henabled, hrevision⟩)
        entry hentry
    | _ => trivial

/-- **Schedules.** Along a run, no timer is scheduled twice and no timeout is revived exactly if
timeouts are queued alone. -/
theorem schedules_single_iff (events : List Event) :
    Along step KeepsSingle {} events ↔ Along step QueuesAlone {} events :=
  @along_congr _ _ _ _ _ Single (fun _ event h => keepsSingle_iff h event)
    (fun _ _ _ h halone hstep => h.step halone hstep) _ single_init events

/-- A timer that is modified, disabled and enabled again, and fires with its last timeout. -/
theorem schedules_single_modified :
    Along step KeepsSingle {} [.addPeriodTimer 0 10 (some 7), .modifyTimer 1 1 20,
      .disableTimer 1, .enableTimer 5 1, .dequeue 10 ⟨10, 1, 0, 0⟩, .dequeue 25 ⟨25, 1, 2, 2⟩,
      .call, .returned, .finish 25] := by
  refine (schedules_single_iff _).mpr ?_
  decide

/-- Disabling a timer again and again only counts. -/
theorem run_disableTimer {id : Nat} {entry : TimerEntry}
    (hentry : m.timers id = some entry) (n : Nat) :
    run step m (List.replicate (n + 1) (.disableTimer id)) = some (m.setEntry id (some { entry with
      isEnabled := false
      revision := entry.revision + .ofNat (n + 1)
      changes := entry.changes + (n + 1) })) := by
  have hstep : m.step (.disableTimer id) =
      some (m.setEntry id (some { entry.revise with isEnabled := false })) := by
    simp only [step, disableTimer, hentry]
  induction n generalizing m entry with
  | zero =>
    rw [replicate_one, run_cons, hstep]
    rfl
  | succ n ih =>
    have hentry' : (m.setEntry id (some { entry.revise with isEnabled := false })).timers id =
        some { entry.revise with isEnabled := false } := update_self ..
    rw [replicate_succ, run_cons, hstep, bind_some, ih hentry' (by
      simp only [step, disableTimer, hentry'])]
    have hrevision : entry.revision + 1 + .ofNat (n + 1) = entry.revision + .ofNat (n + 1 + 1) := by
      rw [ofNat_succ (n + 1), UInt8.add_assoc, UInt8.add_comm 1]
    have hchanges : entry.changes + 1 + (n + 1) = entry.changes + (n + 1 + 1) := by omega
    simp only [setEntry, update_idem, TimerEntry.revise, hrevision, hchanges]

/-- A timer of 10 milliseconds that is enabled once more, one that is modified in its callback, and
one that is disabled 256 times before it is enabled again: then its first timeout fires. -/
theorem schedules_not_single :
    ¬ Along step KeepsSingle {} [.addPeriodTimer 0 10 (some 7), .enableTimer 0 1] ∧
    ¬ Along step KeepsSingle {} [.addPeriodTimer 0 10 (some 7), .dequeue 10 ⟨10, 1, 0, 0⟩, .call,
      .modifyTimer 10 1 20, .returned, .finish 10] ∧
    ∃ m entry, run step {} (.addPeriodTimer 0 10 (some 7) ::
        (List.replicate 256 (.disableTimer 1) ++ [.enableTimer 5 1])) = some m ∧
      m.entryToRun ⟨10, 1, 0, 0⟩ = some entry ∧ entry.changes = 256 ∧
      (m.step (.dequeue 20 ⟨10, 1, 0, 0⟩)).isSome ∧
        ¬ m.FiresCurrent (.dequeue 20 ⟨10, 1, 0, 0⟩) := by
  refine ⟨?_, ?_, ?_⟩
  · intro h
    have hlast := @Along.of_run _ _ step KeepsSingle {} _ [.addPeriodTimer 0 10 (some 7)] [] _ h rfl
    exact absurd ((hlast _ rfl).2 1) (by decide)
  · intro h
    have hlast := @Along.of_run _ _ step KeepsSingle {} _ [.addPeriodTimer 0 10 (some 7),
      .dequeue 10 ⟨10, 1, 0, 0⟩, .call, .modifyTimer 10 1 20, .returned] [] _ h rfl
    exact absurd ((hlast _ rfl).2 1) (by decide)
  · have hdisabled := @run_disableTimer (addPeriodTimer {} 0 10 (some 7)).2 1
      ⟨some 7, 10, true, true, 0, 0⟩ rfl 255
    refine ⟨(((addPeriodTimer {} 0 10 (some 7)).2.setEntry 1
      (some ⟨some 7, 10, false, true, 0, 256⟩)).enableTimer 5 1).2,
      ⟨some 7, 10, true, true, 0, 256⟩, ?_, ?_⟩
    · rw [run_cons, step, bind_some, run_append, hdisabled]
      rfl
    · refine ⟨rfl, rfl, rfl, ?_⟩
      intro hcurrent
      exact absurd (hcurrent _ rfl) (by decide)

end Toft.TimerManager
