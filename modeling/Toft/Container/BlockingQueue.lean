import Toft.Container.BlockingDeque
import Toft.Lib.Machine

/-!
# The blocking queue

The calls of the operations run at the same time, each at a place in its code. Taking and giving
back `m_mutex`, a check of the queue, an access to it and a notification are one step each.
`Wait(m_mutex)`, with or without a timeout, gives the mutex back and takes it again before it
returns; a wait ends by a signal, or at any moment, for a timeout or for no reason at all. An event
says which call makes its next step and which wait a signal ends, so a list of events is an
interleaving.

The log keeps the calls in the order in which they take effect; no step reads it. Since a call that
has checked the queue holds the mutex until it accesses it, each call takes effect as one operation
of the bounded sequence (`Invariant`).
-/

namespace Toft

open Lib List Option Nat

variable {α : Type}

namespace BlockingQueue

/-- The two condition variables. -/
inductive Condition where
  | notEmpty
  | notFull
  deriving DecidableEq, Repr

/-- What a call does to a condition variable. -/
inductive Notification where
  | signal (c : Condition)
  | broadcast (c : Condition)
  deriving DecidableEq, Repr

namespace Call

/-- `UnlockedIsFull` for those that push, `m_queue.empty()` for those that pop. -/
def blocked (maxElements : Nat) (q : List α) : Call α → Bool
  | .push _ _ | .timedPush _ _ => maxElements ≤ q.length
  | .pop _ | .timedPop _ | .popAll | .timedPopAll => q.isEmpty
  | .clear => false

def isTimed : Call α → Bool
  | .timedPush _ _ | .timedPop _ | .timedPopAll => true
  | .push _ _ | .pop _ | .popAll | .clear => false

def condition : Call α → Condition
  | .push _ _ | .timedPush _ _ => .notFull
  | .pop _ | .timedPop _ | .popAll | .timedPopAll | .clear => .notEmpty

/-- The access to `m_queue`: nothing if there is no element at the end that is asked for one. -/
def access (q : List α) : Call α → Option (Result α × List α)
  | .push e value | .timedPush e value => some (.done, e.insert value q)
  | .pop e | .timedPop e => (e.take q).map fun (value, rest) => (.popped value, rest)
  | .popAll | .timedPopAll => some (.poppedAll q, [])
  | .clear => some (.cleared q, [])

/-- Whether `m_cond_not_full` is broadcast before the mutex is given back. -/
def notifiesInside : Call α → Bool
  | .timedPopAll | .clear => true
  | .push _ _ | .timedPush _ _ | .pop _ | .timedPop _ | .popAll => false

/-- The notification behind the block of the mutex, when the call has succeeded. -/
def notifiesBehind : Call α → Option Notification
  | .push _ _ | .timedPush _ _ => some (.signal .notEmpty)
  | .pop _ | .timedPop _ | .timedPopAll => some (.signal .notFull)
  | .popAll => some (.broadcast .notFull)
  | .clear => none

end Call

/-- Where a call stands. -/
inductive Place (α : Type) where
  /-- In front of the `MutexLocker`. -/
  | entering
  /-- At the check of the loop, or at the first one of a timed call. -/
  | testing
  /-- In `Wait`. -/
  | waiting
  /-- In `Wait`, which has to take the mutex to return. -/
  | woken
  /-- At the second check of a timed call. -/
  | deciding
  /-- In front of the access to the queue. -/
  | acting
  /-- Behind an access to an element that there is not. -/
  | undefined
  /-- In front of the `Broadcast` inside the block. -/
  | notifying (result : Result α)
  /-- At the end of the block. -/
  | leaving (result : Result α)
  /-- In front of the `Signal` or `Broadcast` behind the block. -/
  | signaling (result : Result α)
  | returned (result : Result α)
  deriving DecidableEq, Repr

namespace Place

/-- The call holds the mutex. -/
def inside : Place α → Bool
  | .testing | .deciding | .acting | .undefined | .notifying _ | .leaving _ => true
  | .entering | .waiting | .woken | .signaling _ | .returned _ => false

def result : Place α → Option (Result α)
  | .notifying r | .leaving r | .signaling r | .returned r => some r
  | _ => none

def isWaiting : Place α → Bool
  | .waiting => true
  | _ => false

end Place

/-- A call that was made, and where it stands. -/
structure Activity (α : Type) where
  call : Call α
  place : Place α
  deriving DecidableEq, Repr

/-- The queue, the call that holds the mutex, and the calls that have taken effect. -/
structure Shared (α : Type) where
  maxElements : Nat
  queue : List α := []
  owner : Option Nat := none
  log : List (Entry (Call α) (Result α)) := []
  deriving DecidableEq, Repr

namespace Activity

def behindAccess (call : Call α) (r : Result α) : Place α :=
  if call.notifiesInside then .notifying r else .leaving r

def behindBlock (call : Call α) : Result α → Place α
  | .failed => .returned .failed
  | r => if call.notifiesBehind.isSome then .signaling r else .returned r

/-- The next step of the call with the number. -/
def step (i : Nat) (a : Activity α) (s : Shared α) : Option (Place α × Shared α) :=
  match a.place with
  | .entering =>
    if s.owner = none then
      some (match a.call with
        | .clear => .acting
        | _ => .testing, { s with owner := some i })
    else none
  | .testing =>
    if a.call.blocked s.maxElements s.queue then some (.waiting, { s with owner := none })
    else some (if a.call.isTimed then .deciding else .acting, s)
  | .waiting => none
  | .woken =>
    if s.owner = none then
      some (if a.call.isTimed then .deciding else .testing, { s with owner := some i })
    else none
  | .deciding =>
    if a.call.blocked s.maxElements s.queue then
      some (.leaving .failed, { s with log := s.log ++ [⟨i, a.call, .failed⟩] })
    else some (.acting, s)
  | .acting =>
    match a.call.access s.queue with
    | none => some (.undefined, s)
    | some (r, queue) =>
      some (behindAccess a.call r, { s with queue, log := s.log ++ [⟨i, a.call, r⟩] })
  | .undefined => none
  | .notifying r => some (.leaving r, s)
  | .leaving r => some (behindBlock a.call r, { s with owner := none })
  | .signaling r => some (.returned r, s)
  | .returned _ => none

def notification (a : Activity α) : Option Notification :=
  match a.place with
  | .notifying _ => some (.broadcast .notFull)
  | .signaling _ => a.call.notifiesBehind
  | _ => none

def waitsFor (c : Condition) (a : Activity α) : Bool := a.place.isWaiting ∧ a.call.condition = c

def wakeFrom (c : Condition) (a : Activity α) : Activity α :=
  if a.waitsFor c then { a with place := .woken } else a

def outcome (a : Activity α) : Option (Call α × Result α) := a.place.result.map (a.call, ·)

end Activity

/-- The effect of a notification on the calls. A signal ends one of the waits, if there is one. -/
def notify (calls : List (Activity α)) : Option Notification → Option Nat →
    Option (List (Activity α))
  | none, none => some calls
  | some (.broadcast c), none => some (calls.map (·.wakeFrom c))
  | some (.signal c), none => if ∀ a ∈ calls, ¬ a.waitsFor c then some calls else none
  | some (.signal c), some j => do
    let a ← calls[j]?
    if a.waitsFor c then some (calls.set j { a with place := .woken }) else none
  | none, some _ | some (.broadcast _), some _ => none

/-- One step of the system. -/
inductive Event (α : Type) where
  /-- An operation is called. -/
  | invoke (call : Call α)
  /-- The next step of a call, and the wait that its signal ends. -/
  | step (i : Nat) (woken : Option Nat)
  /-- A wait ends without a signal. -/
  | wake (i : Nat)
  deriving DecidableEq, Repr

end BlockingQueue

open BlockingQueue in
/-- The queue, and all calls so far. -/
structure BlockingQueue (α : Type) where
  shared : Shared α
  calls : List (Activity α) := []
  deriving DecidableEq, Repr

namespace BlockingQueue

def new (maxElements : Nat) : BlockingQueue α := { shared := { maxElements } }

def step (s : BlockingQueue α) : Event α → Option (BlockingQueue α)
  | .invoke call => some { s with calls := s.calls ++ [⟨call, .entering⟩] }
  | .step i woken => do
    let a ← s.calls[i]?
    let (place, shared) ← a.step i s.shared
    let calls ← notify (s.calls.set i { a with place }) a.notification woken
    return { shared, calls }
  | .wake i => do
    let a ← s.calls[i]?
    if a.place.isWaiting then
      return { s with calls := s.calls.set i { a with place := .woken } }
    else none

/-! ## One step -/

variable {maxElements : Nat} {call : Call α}

theorem Call.apply_of_access {q q' : List α} {r : Result α}
    (hblocked : ¬ call.blocked maxElements q) (h : call.access q = some (r, q')) :
    call.apply maxElements q = some (r, q') := by
  cases call with
  | push e value | timedPush e value =>
    rw [blocked, decide_eq_true_iff, not_le] at hblocked
    rw [apply, if_pos hblocked]
    exact h
  | pop e => exact h
  | timedPop e =>
    obtain ⟨⟨value, rest⟩, htake, heq⟩ := map_eq_some_iff.mp h
    rw [apply, htake]
    exact congrArg some heq
  | popAll | timedPopAll =>
    rw [blocked, List.isEmpty_iff] at hblocked
    rw [apply, if_neg hblocked]
    exact h
  | clear => exact h

theorem Call.apply_of_blocked {q : List α}
    (htimed : call.isTimed) (hblocked : call.blocked maxElements q) :
    call.apply maxElements q = some (.failed, q) := by
  cases call with
  | timedPush e value =>
    rw [blocked, decide_eq_true_iff] at hblocked
    rw [apply, if_neg (not_lt.mpr hblocked)]
  | timedPop e =>
    rw [blocked, List.isEmpty_iff] at hblocked
    rw [apply, End.take_eq_none.mpr hblocked]
  | timedPopAll =>
    rw [blocked, List.isEmpty_iff] at hblocked
    rw [apply, if_pos hblocked]
  | push e value | pop e | popAll | clear => cases htimed

theorem Call.access_ne_none {q : List α}
    (hblocked : ¬ call.blocked maxElements q) : call.access q ≠ none := by
  cases call with
  | pop e | timedPop e =>
    rw [blocked, List.isEmpty_iff] at hblocked
    rw [access, Ne, map_eq_none_iff, End.take_eq_none]
    exact hblocked
  | push e value | timedPush e value | popAll | timedPopAll | clear => exact some_ne_none _

/-- What holds of a call: it holds the mutex where its code says so; only a timed call decides; and
what was checked still holds at the access to the queue. -/
structure Activity.Ok (i : Nat) (a : Activity α) (s : Shared α) : Prop where
  inside : a.place.inside ↔ s.owner = some i
  timed : a.place = .deciding → a.call.isTimed
  acting : a.place = .acting → ¬ a.call.blocked s.maxElements s.queue
  defined : a.place ≠ .undefined

/-- What a step of a call does to the state that the calls share. -/
structure Shared.Advances (i : Nat) (s s' : Shared α) : Prop where
  maxElements : s'.maxElements = s.maxElements
  owner : s' = s ∨ (s.owner = none ∨ s.owner = some i) ∧ (s'.owner = none ∨ s'.owner = some i)

/-- The log only grows. -/
structure Shared.Extends (s s' : Shared α) : Prop where
  maxElements : s'.maxElements = s.maxElements
  log : s.log <+: s'.log

theorem Shared.Extends.refl (s : Shared α) : s.Extends s := ⟨rfl, prefix_refl _⟩

theorem Shared.Extends.trans {s s' s'' : Shared α} (h : s.Extends s') (h' : s'.Extends s'') :
    s.Extends s'' :=
  ⟨h'.maxElements.trans h.maxElements, h.log.trans h'.log⟩

/-- A step leaves the queue as it is, or it is the one in which the call takes effect. -/
inductive Activity.Effect (i : Nat) (a : Activity α) (s : Shared α) (place : Place α)
    (s' : Shared α) : Prop
  | nothing (hresult : place.result = a.place.result) (hqueue : s'.queue = s.queue)
      (hlog : s'.log = s.log)
  | applied (r : Result α) (hnone : a.place.result = none) (hresult : place.result = some r)
      (happly : a.call.apply s.maxElements s.queue = some (r, s'.queue))
      (hlog : s'.log = s.log ++ [⟨i, a.call, r⟩])

namespace Activity

variable {a : Activity α}

theorem Ok.of_outside {i : Nat} {s : Shared α} (hplace : a.place.inside = false)
    (howner : s.owner ≠ some i) : a.Ok i s where
  inside := iff_of_false (by rw [hplace]; exact Bool.false_ne_true) howner
  timed h := by rw [h] at hplace; cases hplace
  acting h := by rw [h] at hplace; cases hplace
  defined h := by rw [h] at hplace; cases hplace

theorem inside_behindAccess (call : Call α) (r : Result α) :
    (behindAccess call r).inside ∧ (behindAccess call r).result = some r ∧
      behindAccess call r ≠ .deciding ∧ behindAccess call r ≠ .acting ∧
      behindAccess call r ≠ .undefined := by
  unfold behindAccess
  split_ifs <;> exact ⟨rfl, rfl, nofun, nofun, nofun⟩

theorem outside_behindBlock (call : Call α) (r : Result α) :
    (behindBlock call r).inside = false ∧ (behindBlock call r).result = some r := by
  unfold behindBlock
  split
  · exact ⟨rfl, rfl⟩
  · split_ifs <;> exact ⟨rfl, rfl⟩

theorem step_spec {i : Nat} {s s' : Shared α} {place : Place α}
    (hok : a.Ok i s) (h : a.step i s = some (place, s')) :
    Ok i { a with place } s' ∧ s.Advances i s' ∧ a.Effect i s place s' := by
  obtain ⟨call, p⟩ := a
  cases p with
  | entering =>
    obtain ⟨hfree, heq⟩ := ite_none_right_eq_some.mp h
    cases heq
    refine ⟨?_, ⟨rfl, .inr ⟨.inl hfree, .inr rfl⟩⟩, .nothing ?_ rfl rfl⟩
    · cases call with
      | clear => exact ⟨iff_of_true rfl rfl, nofun, fun _ => Bool.false_ne_true, nofun⟩
      | _ => exact ⟨iff_of_true rfl rfl, nofun, nofun, nofun⟩
    · cases call <;> rfl
  | testing =>
    have howner := hok.inside.mp rfl
    rw [step] at h
    dsimp only at h
    split_ifs at h with hblocked htimed <;> cases h
    · exact ⟨.of_outside rfl (some_ne_none i).symm, ⟨rfl, .inr ⟨.inr howner, .inl rfl⟩⟩,
        .nothing rfl rfl rfl⟩
    · exact ⟨⟨iff_of_true rfl howner, fun _ => htimed, nofun, nofun⟩, ⟨rfl, .inl rfl⟩,
        .nothing rfl rfl rfl⟩
    · exact ⟨⟨iff_of_true rfl howner, nofun, fun _ => hblocked, nofun⟩,
        ⟨rfl, .inl rfl⟩, .nothing rfl rfl rfl⟩
  | waiting => cases h
  | woken =>
    obtain ⟨hfree, heq⟩ := ite_none_right_eq_some.mp h
    cases heq
    refine ⟨?_, ⟨rfl, .inr ⟨.inl hfree, .inr rfl⟩⟩, .nothing ?_ rfl rfl⟩
    · split_ifs with htimed
      · exact ⟨iff_of_true rfl rfl, fun _ => htimed, nofun, nofun⟩
      · exact ⟨iff_of_true rfl rfl, nofun, nofun, nofun⟩
    · split_ifs <;> rfl
  | deciding =>
    have howner := hok.inside.mp rfl
    have htimed := hok.timed rfl
    rw [step] at h
    dsimp only at h
    split_ifs at h with hblocked <;> cases h
    · exact ⟨⟨iff_of_true rfl howner, nofun, nofun, nofun⟩, ⟨rfl, .inr ⟨.inr howner, .inr howner⟩⟩,
        .applied .failed rfl rfl (Call.apply_of_blocked htimed hblocked) rfl⟩
    · exact ⟨⟨iff_of_true rfl howner, nofun, fun _ => hblocked, nofun⟩,
        ⟨rfl, .inl rfl⟩, .nothing rfl rfl rfl⟩
  | acting =>
    have howner := hok.inside.mp rfl
    have hblocked := hok.acting rfl
    rw [step] at h
    cases haccess : call.access s.queue with
    | none => exact absurd haccess (Call.access_ne_none hblocked)
    | some outcome =>
      obtain ⟨r, queue⟩ := outcome
      rw [haccess] at h
      cases h
      obtain ⟨hinside, hresult, hdeciding, hacting, hdefined⟩ := inside_behindAccess call r
      exact ⟨⟨iff_of_true hinside howner, fun h => absurd h hdeciding, fun h => absurd h hacting,
        hdefined⟩, ⟨rfl, .inr ⟨.inr howner, .inr howner⟩⟩,
        .applied r rfl hresult (Call.apply_of_access hblocked haccess) rfl⟩
  | undefined => cases h
  | notifying r =>
    have howner := hok.inside.mp rfl
    cases h
    exact ⟨⟨iff_of_true rfl howner, nofun, nofun, nofun⟩, ⟨rfl, .inl rfl⟩, .nothing rfl rfl rfl⟩
  | leaving r =>
    have howner := hok.inside.mp rfl
    cases h
    obtain ⟨houtside, hresult⟩ := outside_behindBlock call r
    exact ⟨.of_outside houtside (some_ne_none i).symm,
      ⟨rfl, .inr ⟨.inr howner, .inl rfl⟩⟩, .nothing hresult rfl rfl⟩
  | signaling r =>
    have howner := fun h => Bool.false_ne_true (hok.inside.mpr h)
    cases h
    exact ⟨.of_outside rfl howner, ⟨rfl, .inl rfl⟩, .nothing rfl rfl rfl⟩
  | returned r => cases h

theorem Ok.advances {i j : Nat} {s s' : Shared α} (hne : j ≠ i) (hok : a.Ok j s)
    (h : s.Advances i s') : a.Ok j s' := by
  rcases h.owner with rfl | ⟨hbefore, hbehind⟩
  · exact hok
  · have hnot : ∀ {t : Shared α}, t.owner = none ∨ t.owner = some i → t.owner ≠ some j := by
      rintro t (hnone | hsome) heq
      · exact some_ne_none j (heq.symm.trans hnone)
      · exact hne (Option.some.inj (heq.symm.trans hsome))
    refine .of_outside ?_ (hnot hbehind)
    by_contra hinside
    exact hnot hbefore (hok.inside.mp (Bool.eq_true_of_not_eq_false hinside))

theorem Ok.wake {i : Nat} {s : Shared α} (hok : a.Ok i s)
    (h : a.place = .waiting) : Ok i { a with place := .woken } s := by
  refine .of_outside rfl fun howner => ?_
  have hinside := hok.inside.mpr howner
  rw [h] at hinside
  cases hinside

end Activity

/-! ## All calls -/

def Wakes (calls calls' : List (Activity α)) : Prop :=
  ∀ j : Nat, calls'[j]? = calls[j]? ∨ ∃ a : Activity α, calls[j]? = some a ∧
    a.place = .waiting ∧ calls'[j]? = some { a with place := .woken }

theorem eq_waiting_of_isWaiting {place : Place α} (h : place.isWaiting) : place = .waiting := by
  cases place with
  | waiting => rfl
  | _ => cases h

theorem wakes_set {calls : List (Activity α)} {i : Nat} {a : Activity α} (ha : calls[i]? = some a)
    (hwaiting : a.place.isWaiting) : Wakes calls (calls.set i { a with place := .woken }) := by
  intro j
  by_cases hij : i = j
  · subst hij
    refine Or.inr ⟨a, ha, eq_waiting_of_isWaiting hwaiting, ?_⟩
    rw [List.getElem?_set_self (List.getElem?_eq_some_iff.mp ha).1]
  · exact Or.inl (getElem?_set_ne hij)

theorem wakes_map (calls : List (Activity α)) (c : Condition) :
    Wakes calls (calls.map (·.wakeFrom c)) := by
  intro j
  rw [getElem?_map]
  cases ha : calls[j]? with
  | none => exact Or.inl rfl
  | some a =>
    rw [map_some, Activity.wakeFrom]
    split_ifs with hwaits
    · have hwaiting := (decide_eq_true_iff.mp hwaits).1
      exact Or.inr ⟨a, rfl, eq_waiting_of_isWaiting hwaiting, rfl⟩
    · exact Or.inl rfl

theorem notify_wakes {calls calls' : List (Activity α)} {n : Option Notification}
    {woken : Option Nat} (h : notify calls n woken = some calls') : Wakes calls calls' := by
  have hsame : Wakes calls calls := fun _ => Or.inl rfl
  cases n with
  | none =>
    cases woken with
    | none =>
      cases h
      exact hsame
    | some j => cases h
  | some n =>
    cases n with
    | broadcast c =>
      cases woken with
      | none =>
        cases h
        exact wakes_map calls c
      | some j => cases h
    | signal c =>
      cases woken with
      | none =>
        obtain ⟨-, heq⟩ := ite_none_right_eq_some.mp h
        cases heq
        exact hsame
      | some j =>
        obtain ⟨a, ha, hif⟩ := bind_eq_some_iff.mp h
        obtain ⟨hwaits, heq⟩ := ite_none_right_eq_some.mp hif
        cases heq
        exact wakes_set ha (decide_eq_true_iff.mp hwaits).1

def outcomeAt (s : BlockingQueue α) (i : Nat) : Option (Call α × Result α) :=
  s.calls[i]?.bind Activity.outcome

/-- The log linearizes the calls, and each of them is where its code says it is. -/
structure Invariant (s : BlockingQueue α) : Prop where
  owner : ∀ i, s.shared.owner = some i → i < s.calls.length
  ok : ∀ (i : Nat) (a : Activity α), s.calls[i]? = some a → a.Ok i s.shared
  linearizes :
    Linearizes (Call.apply s.shared.maxElements) [] s.outcomeAt s.shared.log s.shared.queue

namespace Invariant

theorem new (maxElements : Nat) : Invariant (BlockingQueue.new maxElements : BlockingQueue α) where
  owner i h := by cases h
  ok i a h := by cases h
  linearizes := .nil fun _ => rfl

theorem wakes {shared : Shared α} {calls calls' : List (Activity α)}
    (hinv : Invariant ⟨shared, calls⟩) (h : Wakes calls calls') : Invariant ⟨shared, calls'⟩ where
  owner i hi := by
    have hlt := hinv.owner i hi
    by_contra hle
    have hnone : calls'[i]? = none := getElem?_eq_none (Nat.le_of_not_lt hle)
    rcases h i with heq | ⟨a, -, -, ha⟩
    · exact absurd (heq ▸ hnone) (by rw [getElem?_eq_none_iff]; exact Nat.not_le.mpr hlt)
    · exact some_ne_none _ (ha.symm.trans hnone)
  ok i a ha := by
    rcases h i with heq | ⟨b, hb, hwaiting, hwoken⟩
    · exact hinv.ok i a (heq ▸ ha)
    · cases ha.symm.trans hwoken
      exact (hinv.ok i b hb).wake hwaiting
  linearizes := by
    refine hinv.linearizes.congr fun i => ?_
    unfold outcomeAt
    rcases h i with heq | ⟨b, hb, hwaiting, hwoken⟩
    · rw [heq]
    · rw [hb, hwoken]
      unfold Activity.outcome
      rw [bind_some, bind_some, hwaiting]
      rfl

theorem invoke {s : BlockingQueue α} (hinv : Invariant s) (call : Call α) :
    Invariant { s with calls := s.calls ++ [⟨call, .entering⟩] } where
  owner i hi := by
    rw [length_append]
    exact Nat.lt_add_right _ (hinv.owner i hi)
  ok i a ha := by
    by_cases hlt : i < s.calls.length
    · rw [getElem?_append_left hlt] at ha
      exact hinv.ok i a ha
    · have hlast : i = s.calls.length ∧ a = ⟨call, .entering⟩ := by
        rw [getElem?_append_right (Nat.le_of_not_lt hlt), getElem?_singleton] at ha
        obtain ⟨hzero, heq⟩ := ite_none_right_eq_some.mp ha
        exact ⟨by omega, (Option.some.inj heq).symm⟩
      obtain ⟨rfl, rfl⟩ := hlast
      exact .of_outside rfl fun howner => hlt (hinv.owner _ howner)
  linearizes := by
    refine hinv.linearizes.congr fun i => ?_
    unfold outcomeAt
    by_cases hlt : i < s.calls.length
    · rw [getElem?_append_left hlt]
    · have hle := Nat.le_of_not_lt hlt
      rw [getElem?_append_right hle, getElem?_singleton, getElem?_eq_none hle]
      split_ifs <;> rfl

theorem advance {s : BlockingQueue α} (hinv : Invariant s) {i : Nat} {a : Activity α}
    (ha : s.calls[i]? = some a) {place : Place α} {shared : Shared α}
    (h : a.step i s.shared = some (place, shared)) :
    Invariant ⟨shared, s.calls.set i { a with place }⟩ ∧ s.shared.Extends shared := by
  obtain ⟨hok, hadvances, heffect⟩ := Activity.step_spec (hinv.ok i a ha) h
  have hlt := (List.getElem?_eq_some_iff.mp ha).1
  have hself : (s.calls.set i { a with place })[i]? = some { a with place } :=
    getElem?_set_self hlt
  have hother : ∀ j, j ≠ i → (s.calls.set i { a with place })[j]? = s.calls[j]? :=
    fun j hne => getElem?_set_ne hne.symm
  have hlinear : Linearizes (Call.apply shared.maxElements) []
      (outcomeAt ⟨shared, s.calls.set i { a with place }⟩) shared.log shared.queue := by
    have hrest : ∀ j, j ≠ i →
        outcomeAt ⟨shared, s.calls.set i { a with place }⟩ j = s.outcomeAt j := by
      intro j hne
      unfold outcomeAt
      rw [hother j hne]
    rw [hadvances.maxElements]
    cases heffect with
    | nothing hresult hqueue hlog =>
      rw [hqueue, hlog]
      refine hinv.linearizes.congr fun j => ?_
      by_cases hji : j = i
      · subst hji
        unfold outcomeAt
        rw [hself, ha, bind_some, Activity.outcome, hresult]
        rfl
      · exact hrest j hji
    | applied r hnone hresult happly hlog =>
      rw [hlog]
      refine hinv.linearizes.snoc ?_ ?_ hrest happly
      · rw [outcomeAt, ha, bind_some, Activity.outcome, hnone]
        rfl
      · rw [outcomeAt, hself, bind_some, Activity.outcome, hresult]
        rfl
  refine ⟨⟨?_, ?_, hlinear⟩, hadvances.maxElements, ?_⟩
  · intro j hj
    rw [length_set]
    rcases hadvances.owner with rfl | ⟨-, hnone | hsome⟩
    · exact hinv.owner j hj
    · cases hj.symm.trans hnone
    · cases hj.symm.trans hsome
      exact hlt
  · intro j b hb
    by_cases hji : j = i
    · subst hji
      cases hself.symm.trans hb
      exact hok
    · exact (hinv.ok j b (hother j hji ▸ hb)).advances hji hadvances
  · cases heffect with
    | nothing _ _ hlog => exact hlog ▸ prefix_refl _
    | applied r _ _ _ hlog => exact hlog ▸ prefix_append _ _

variable {s s' : BlockingQueue α}

theorem step {event : Event α} (hinv : Invariant s)
    (h : s.step event = some s') : Invariant s' ∧ s.shared.Extends s'.shared := by
  cases event with
  | invoke call =>
    cases h
    exact ⟨hinv.invoke call, .refl _⟩
  | step i woken =>
    obtain ⟨a, ha, hrest⟩ := bind_eq_some_iff.mp h
    obtain ⟨⟨place, shared⟩, hstep, hnotified⟩ := bind_eq_some_iff.mp hrest
    obtain ⟨calls, hcalls, heq⟩ := bind_eq_some_iff.mp hnotified
    cases heq
    obtain ⟨hadvance, hlog⟩ := hinv.advance ha hstep
    exact ⟨hadvance.wakes (notify_wakes hcalls), hlog⟩
  | wake i =>
    obtain ⟨a, ha, hif⟩ := bind_eq_some_iff.mp h
    obtain ⟨hwaiting, heq⟩ := ite_none_right_eq_some.mp hif
    cases heq
    exact ⟨hinv.wakes (wakes_set ha hwaiting), .refl _⟩

theorem of_reaches (h : Machine.Reaches BlockingQueue.step s s')
    (hinv : Invariant s) : Invariant s' ∧ s.shared.Extends s'.shared := by
  have hkeep : ∀ t event t', Invariant t ∧ s.shared.Extends t.shared →
      BlockingQueue.step t event = some t' → Invariant t' ∧ s.shared.Extends t'.shared := by
    rintro t event t' ⟨ht, hextends⟩ hstep
    obtain ⟨ht', hextends'⟩ := ht.step hstep
    exact ⟨ht', hextends.trans hextends'⟩
  exact Machine.Reaches.invariant hkeep h ⟨hinv, .refl _⟩

end Invariant

def outcomes (s : BlockingQueue α) : List (Call α × Result α) := s.calls.filterMap Activity.outcome

theorem Invariant.log_perm {s : BlockingQueue α} (hinv : Invariant s) :
    (s.shared.log.map Entry.outcome).Perm s.outcomes := by
  have hnone : ∀ i, s.calls.length ≤ i → s.outcomeAt i = none := by
    intro i hi
    rw [outcomeAt, getElem?_eq_none hi]
    rfl
  have hperm := hinv.linearizes.perm hnone
  rwa [show (range s.calls.length).filterMap s.outcomeAt = s.outcomes from
    filterMap_range_getElem? Activity.outcome s.calls] at hperm

/-- In every interleaving: the elements that the calls have pushed are those that they have popped
and cleared and those that are queued; the bound is kept; the log, which only grows, linearizes the
calls as operations of a double-ended sequence, and no access finds its element missing; and with
operations from the back to the front only, the elements come out in the order in which they were
pushed. -/
theorem loses_nothing (maxElements : Nat) {events : List (Event α)} {s : BlockingQueue α}
    (h : Machine.run step (new maxElements) events = some s) :
    (pushed s.outcomes : Multiset α) =
        popped s.outcomes + cleared s.outcomes + s.shared.queue ∧
      s.shared.queue.length ≤ maxElements ∧
      Linearizes (Call.apply maxElements) [] s.outcomeAt s.shared.log s.shared.queue ∧
      (∀ s', Machine.Reaches step s s' → s.shared.log <+: s'.shared.log) ∧
      (∀ a ∈ s.calls, a.place ≠ .undefined) ∧
      ((∀ a ∈ s.calls, a.call.isFifo) →
        pushed (s.shared.log.map Entry.outcome) =
          popped (s.shared.log.map Entry.outcome) ++ s.shared.queue) := by
  obtain ⟨hinv, hextends⟩ := Invariant.of_reaches ⟨events, h⟩ (.new maxElements)
  have hlinear := hinv.linearizes
  rw [show s.shared.maxElements = maxElements from hextends.maxElements] at hlinear
  have hsame : ∀ f : Call α × Result α → List α,
      ((s.shared.log.map Entry.outcome).flatMap f : Multiset α) = s.outcomes.flatMap f :=
    fun f => Multiset.coe_eq_coe.mpr (hinv.log_perm.flatMap_right f)
  refine ⟨?_, length_le hlinear.replays, hlinear, ?_, ?_, ?_⟩
  · have hcoe := coe_pushed hlinear.replays
    unfold pushed popped cleared at hcoe ⊢
    rwa [hsame, hsame, hsame] at hcoe
  · intro s' hreaches
    exact (hinv.of_reaches hreaches).2.log
  · intro a ha
    obtain ⟨i, hi⟩ := mem_iff_getElem?.mp ha
    exact (hinv.ok i a hi).defined
  · intro hfifo
    refine pushed_eq hlinear.replays ?_
    intro x hx
    obtain ⟨e, he, rfl⟩ := mem_map.mp hx
    obtain ⟨a, ha, houtcome⟩ := bind_eq_some_iff.mp ((hlinear.mem_iff e).mp he)
    obtain ⟨r, -, heq⟩ := map_eq_some_iff.mp houtcome
    rw [← heq]
    exact hfifo a (mem_of_getElem? ha)

/-- `PopFront` waits on an empty queue, until `PushBack` signals that there is an element. -/
def handover : List (Event Nat) :=
  [.invoke .popFront, .step 0 none, .step 0 none, .invoke (.pushBack 7), .step 1 none,
    .step 1 none, .step 1 none, .step 1 none, .step 1 (some 0), .step 0 none, .step 0 none,
    .step 0 none, .step 0 none, .step 0 none]

theorem loses_nothing_handover :
    ∃ s : BlockingQueue Nat, Machine.run step (new 1) handover = some s ∧
      s.outcomes = [(.popFront, .popped 7), (.pushBack 7, .done)] ∧
      pushed (s.shared.log.map Entry.outcome) =
        popped (s.shared.log.map Entry.outcome) ++ s.shared.queue := by
  refine ⟨(Machine.run step (new 1) handover).get (by decide), (some_get _).symm, by decide,
    (loses_nothing 1 (some_get _).symm).2.2.2.2.2 ?_⟩
  decide

end BlockingQueue

end Toft
