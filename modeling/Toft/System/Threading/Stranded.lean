import Toft.System.Threading.ThreadPool

/-!
# Stranded tasks

A thread of the pool leaves its loop when its wait has timed out, there was no pending task and
there were more threads than the minimum; a call of `AddTask` that comes in between still counts on
it. If calls of `AddTask` do not overlap, a pool never strands a task exactly if it never has more
threads than the minimum, and so no thread ever leaves (`never_stranded_iff`).
-/

namespace Toft.ThreadPool

open Lib Lib.Machine Lib.Threads List Option Int

/-! ## As many threads as the minimum -/

/-- What a call of `AddTask` knows when no thread leaves. -/
def Adder.Sure (s : Shared) : Adder → Prop
  | .calling .. | .adding .. => s.pendingTasks ≠ [] → 1 ≤ s.curThreadNum
  | .checkingMax => True
  | .checkingMin => s.curThreadNum < s.maxThreadNum
  | .checkingBusy | .comparing _ => False
  | .starting => s.curThreadNum < s.minThreadNum
  | .signaling | .returned => 1 ≤ s.curThreadNum

/-- No thread has left, and there are at most as many as the minimum. -/
structure Steady (pool : ThreadPool) : Prop where
  max_le : pool.shared.maxThreadNum ≤ pool.shared.minThreadNum
  max_pos : 1 ≤ pool.shared.maxThreadNum
  not_exited : pool.shared.exited = false
  workers : ∀ w ∈ pool.workers, ¬ w.Left
  length : pool.workers.length = pool.shared.curThreadNum.toInt
  cur_le : pool.shared.curThreadNum ≤ pool.shared.minThreadNum
  adders : pool.adders = [] ∧ pool.shared.pendingTasks = [] ∨
    ∃ before last, pool.adders = before ++ [last] ∧ (∀ a ∈ before, a = .returned) ∧
      last.Sure pool.shared

/-- What a step of a thread keeps as long as there are at most as many threads as the minimum. -/
structure Worker.Stays (s s' : Shared) : Prop where
  min_eq : s'.minThreadNum = s.minThreadNum
  max_eq : s'.maxThreadNum = s.maxThreadNum
  cur_eq : s'.curThreadNum = s.curThreadNum
  exited_eq : s'.exited = s.exited
  pending : s'.pendingTasks ≠ [] → s.pendingTasks ≠ []

variable {s s' : Shared}

theorem Worker.step_stays {w w' : Worker} (hleft : ¬ w.Left)
    (hexited : s.exited = false) (hcur : s.curThreadNum ≤ s.minThreadNum)
    (hstep : w.step s = some (w', s')) : ¬ w'.Left ∧ Worker.Stays s s' := by
  cases w with
  | exiting | leaving | exited => exact absurd (by decide) hleft
  | looping =>
    simp only [Worker.step, hexited] at hstep
    cases hstep
    exact ⟨by decide, rfl, rfl, rfl, rfl, id⟩
  | picking =>
    unfold Worker.step pickPendingTask at hstep
    cases hpending : s.pendingTasks with
    | nil =>
      simp only [hpending] at hstep
      cases hstep
      exact ⟨by decide, rfl, rfl, rfl, rfl, id⟩
    | cons task rest =>
      simp only [hpending] at hstep
      cases hstep
      exact ⟨by simp [Left], rfl, rfl, rfl, rfl, fun _ => by simp [hpending]⟩
  | waiting =>
    cases hstep
    refine ⟨?_, rfl, rfl, rfl, rfl, id⟩
    split <;> decide
  | timedOut =>
    cases hstep
    refine ⟨?_, rfl, rfl, rfl, rfl, id⟩
    split <;> decide
  | unneeded =>
    rw [Worker.step, if_neg (Int32.not_lt.mpr hcur)] at hstep
    cases hstep
    exact ⟨by decide, rfl, rfl, rfl, rfl, id⟩
  | starting | completing task | idle | waking =>
    cases hstep
    exact ⟨by decide, rfl, rfl, rfl, rfl, id⟩
  | running task =>
    cases hstep
    exact ⟨by simp [Left], rfl, rfl, rfl, rfl, id⟩

theorem Adder.Sure.stays {a : Adder} (h : a.Sure s) (hstays : Worker.Stays s s') : a.Sure s' := by
  obtain ⟨hmin, hmax, hcur, -, hpending⟩ := hstays
  cases a with
  | calling | adding =>
    intro hne
    rw [hcur]
    exact h (hpending hne)
  | checkingMax => trivial
  | checkingMin =>
    rw [Sure, hcur, hmax]
    exact h
  | checkingBusy | comparing => exact h
  | starting =>
    rw [Sure, hcur, hmin]
    exact h
  | signaling | returned =>
    rw [Sure, hcur]
    exact h

variable {pool pool' : ThreadPool}

theorem Steady.worker {i : Nat} (h : pool.Steady)
    (hstep : pool.step (.worker i) = some pool') : pool'.Steady := by
  obtain ⟨⟨workers, shared⟩, hat, rfl⟩ := map_eq_some_iff.mp hstep
  obtain ⟨before, w, w', after, hworkers, rfl, hact⟩ := stepAt_cases hat
  have hw : w ∈ pool.workers := by simp [hworkers]
  obtain ⟨hleft, hstays⟩ := Worker.step_stays (h.workers w hw) h.not_exited h.cur_le hact
  obtain ⟨hmin, hmax, hcur, hexited, hpending⟩ := hstays
  constructor
  · exact hmin ▸ hmax ▸ h.max_le
  · exact hmax ▸ h.max_pos
  · exact hexited.trans h.not_exited
  · intro v hv
    have hold := h.workers v
    simp only [hworkers, mem_append, mem_cons] at hv hold
    rcases hv with hv | rfl | hv
    · exact hold (.inl hv)
    · exact hleft
    · exact hold (.inr (.inr hv))
  · have hlength := h.length
    rw [hworkers] at hlength
    rw [hcur, ← hlength]
    simp
  · exact hcur ▸ hmin ▸ h.cur_le
  · rcases h.adders with ⟨hnil, hempty⟩ | ⟨init, last, hadders, hreturned, hsure⟩
    · refine .inl ⟨hnil, ?_⟩
      by_contra hne
      exact hpending hne hempty
    · exact .inr ⟨init, last, hadders, hreturned, hsure.stays ⟨hmin, hmax, hcur, hexited, hpending⟩⟩

theorem last_of_step {before after init : List Adder} {a last : Adder}
    (hadders : before ++ a :: after = init ++ [last]) (hreturned : ∀ b ∈ init, b = .returned)
    (ha : a ≠ .returned) : before = init ∧ a = last ∧ after = [] := by
  rcases eq_nil_or_concat after with rfl | ⟨after, z, rfl⟩
  · obtain ⟨hinit, hlast⟩ := append_inj' hadders rfl
    cases hlast
    exact ⟨hinit, rfl, rfl⟩
  · rw [concat_eq_append, ← cons_append, ← append_assoc] at hadders
    obtain ⟨rfl, -⟩ := append_inj' hadders rfl
    exact absurd (hreturned a (by simp)) ha

theorem toInt_add_one {m n : Int32} (h : m < n) : (m + 1).toInt = m.toInt + 1 := by
  have hlow := m.le_toInt
  have hhigh := n.toInt_lt
  rw [Int32.lt_iff_toInt_lt] at h
  rw [Int32.toInt_add]
  apply bmod_eq_of_le <;> simp <;> omega

variable {workers workers' : List Worker}

theorem Steady.last {init : List Adder}
    {last last' : Adder} (h : Steady ⟨s, workers, init ++ [last]⟩) (hsure : last.Sure s)
    (hreturned : ∀ a ∈ init, a = .returned)
    (hstep : last.step (s, workers) = some (last', s', workers')) :
    Steady ⟨s', workers', init ++ [last']⟩ := by
  obtain ⟨hmax, hpos, hexited, hworkers, hlength, hcur, -⟩ := h
  dsimp only at *
  have hkeep {a : Adder} (ha : a.Sure s) : Steady ⟨s, workers, init ++ [a]⟩ :=
    ⟨hmax, hpos, hexited, hworkers, hlength, hcur, .inr ⟨_, _, rfl, hreturned, ha⟩⟩
  cases last with
  | calling isPriority task =>
    cases hstep
    exact ⟨hmax, hpos, hexited, hworkers, hlength, hcur, .inr ⟨_, _, rfl, hreturned, hsure⟩⟩
  | adding isPriority task =>
    cases hstep
    exact ⟨hmax, hpos, hexited, hworkers, hlength, hcur, .inr ⟨_, _, rfl, hreturned, trivial⟩⟩
  | checkingMax =>
    cases hstep
    refine hkeep ?_
    split
    · exact Int32.le_trans hpos ‹_›
    · exact Int32.not_le.mp ‹_›
  | checkingMin =>
    have hlt : s.curThreadNum < s.minThreadNum := Int32.lt_of_lt_of_le hsure hmax
    rw [Adder.step, if_pos hlt] at hstep
    cases hstep
    exact hkeep hlt
  | checkingBusy | comparing => exact hsure.elim
  | starting =>
    have hlt : s.curThreadNum < s.minThreadNum := hsure
    unfold Adder.step at hstep
    dsimp only at hstep
    split at hstep
    · cases hstep
    · cases hstep
      have hnext := toInt_add_one hlt
      refine ⟨hmax, hpos, hexited, ?_, ?_, ?_, .inr ⟨_, _, rfl, hreturned, ?_⟩⟩
      · intro w hw
        rcases mem_append.mp hw with hw | hw
        · exact hworkers w hw
        · cases mem_singleton.mp hw
          decide
      · rw [length_append, hnext, ← hlength]
        rfl
      · rw [Int32.le_iff_toInt_le, hnext]
        exact Int32.lt_iff_toInt_lt.mp hlt
      · rw [Adder.Sure, Int32.le_iff_toInt_le, hnext, ← hlength]
        exact Int.le_add_of_nonneg_left (Int.natCast_nonneg _)
  | signaling =>
    cases hstep
    exact ⟨hmax, hpos, hexited, hworkers, hlength, hcur, .inr ⟨_, _, rfl, hreturned, hsure⟩⟩
  | returned => cases hstep

theorem Steady.adder {i : Nat} (h : pool.Steady)
    (hstep : pool.step (.adder i) = some pool') : pool'.Steady := by
  obtain ⟨⟨adders', shared, workers⟩, hat, rfl⟩ := map_eq_some_iff.mp hstep
  obtain ⟨before, a, a', after, hadders, rfl, hact⟩ := stepAt_cases hat
  have ha : a ≠ .returned := by
    rintro rfl
    cases hact
  rcases h.adders with ⟨hnil, -⟩ | ⟨init, last, hlast, hreturned, hsure⟩
  · rw [hnil] at hadders
    simp at hadders
  · obtain ⟨rfl, rfl, rfl⟩ := last_of_step (hadders.symm.trans hlast) hreturned ha
    refine Steady.last ?_ hsure hreturned hact
    rw [← hlast]
    exact h

theorem Steady.addTask {isPriority : Bool} {task : Task} (h : pool.Steady)
    (hreturned : pool.AllReturned) (hstep : pool.step (.addTask isPriority task) = some pool') :
    pool'.Steady := by
  cases hstep
  refine { h with adders := .inr ⟨pool.adders, _, rfl, hreturned, ?_⟩ }
  intro hpending
  rcases h.adders with ⟨-, hempty⟩ | ⟨init, last, hlast, -, hsure⟩
  · exact absurd hempty hpending
  · rw [hreturned last (by simp [hlast])] at hsure
    exact hsure

theorem Steady.step {event : Event} (h : pool.Steady)
    (hstep : pool.stepSerial event = some pool') : pool'.Steady := by
  cases event with
  | addTask isPriority task =>
    unfold stepSerial at hstep
    dsimp only at hstep
    split at hstep
    · exact h.addTask ‹_› hstep
    · cases hstep
  | adder i => exact h.adder hstep
  | worker i => exact h.worker hstep

theorem Steady.not_stranded {pool : ThreadPool} (h : pool.Steady) : ¬ pool.Stranded := by
  rintro ⟨hreturned, hpending, hleft⟩
  have hnone : pool.workers = [] := by
    by_contra hne
    obtain ⟨w, hw⟩ := exists_mem_of_ne_nil _ hne
    exact h.workers w hw (hleft w hw)
  have hlength := h.length
  rw [hnone] at hlength
  rcases h.adders with ⟨-, hempty⟩ | ⟨init, last, hlast, -, hsure⟩
  · exact hpending hempty
  · rw [hreturned last (by simp [hlast])] at hsure
    have hpos : 1 ≤ pool.shared.curThreadNum := hsure
    rw [Int32.le_iff_toInt_le, ← hlength] at hpos
    exact absurd hpos (by decide)

theorem steady_new {minThreadNum maxThreadNum : Int32} (hmax : 1 ≤ maxThreadNum)
    (hle : maxThreadNum ≤ minThreadNum) : (new minThreadNum maxThreadNum).Steady := by
  have hlimit : (new minThreadNum maxThreadNum).shared.maxThreadNum = minThreadNum := by
    simp only [new, Shared.new]
    split <;> split <;> grind
  constructor
  · exact Int32.le_of_eq hlimit
  · rw [hlimit]
    exact Int32.le_trans hmax hle
  · rfl
  · nofun
  · rfl
  · show 0 ≤ minThreadNum
    grind
  · exact .inl ⟨rfl, rfl⟩

/-! ## More threads than the minimum -/

theorem reaches_worker {w w' : Worker} (h : Acts Worker.step w s w' s')
    (before after : List Worker) (adders : List Adder) :
    Reaches stepSerial ⟨s, before ++ w :: after, adders⟩ ⟨s', before ++ w' :: after, adders⟩ := by
  refine reaches_of_acts (fun w s => (⟨s, before ++ w :: after, adders⟩ : ThreadPool)) ?_ h
  intro t s t' s' hact
  refine .single (.worker before.length) ?_
  simp only [stepSerial, step, stepAt_append, hact, map_some]

theorem reaches_adder {a a' : Adder}
    (h : Acts Adder.step a (s, workers) a' (s', workers')) (before : List Adder) :
    Reaches stepSerial ⟨s, workers, before ++ [a]⟩ ⟨s', workers', before ++ [a']⟩ := by
  refine reaches_of_acts (fun a r => (⟨r.1, r.2, before ++ [a]⟩ : ThreadPool)) ?_ h
  intro t s t' s' hact
  refine .single (.adder before.length) ?_
  simp only [stepSerial, step, stepAt_append, hact, map_some]

theorem reaches_addTask (s : Shared) (workers : List Worker) (n : Nat) (task : Task) :
    Reaches stepSerial ⟨s, workers, replicate n .returned⟩
      ⟨s, workers, replicate n .returned ++ [.calling false task]⟩ := by
  refine .single (.addTask false task) ?_
  exact if_pos (fun a ha => eq_of_mem_replicate ha)

section Run

variable (min max : Int32)

/-- The shared state with `cur` threads, of which `busy` are busy, and without a pending task. -/
def quiet (cur busy : Int32) (completedTasks : List Task) (signaled : Bool) : Shared :=
  { minThreadNum := min, maxThreadNum := max, curThreadNum := cur, curBusyThreadNum := busy,
    completedTasks, eventNewTask := ⟨signaled⟩ }

/-- The same with one pending task. -/
def loaded (cur busy : Int32) (completedTasks : List Task) (signaled : Bool) : Shared :=
  { quiet min max cur busy completedTasks signaled with pendingTasks := [0], pendingTaskNum := 1 }

variable {min max}

/-- A call that finds all threads busy starts another one. -/
theorem adder_starts (hmax : min < max) {k : Int32} (hk : k ≤ min) (signaled : Bool)
    (workers : List Worker) :
    Acts Adder.step (.calling false 0) (quiet min max k k [] signaled, workers)
      .returned (loaded min max (k + 1) k [] true, workers ++ [.starting]) := by
  refine .step rfl (.step rfl (.via .checkingMin (loaded min max k k [] signaled, workers) ?_ ?_))
  · have hnot : ¬ max ≤ k := by grind
    exact congrArg some (Prod.ext (if_neg hnot) rfl)
  · have hend : Acts Adder.step .starting (loaded min max k k [] signaled, workers)
        .returned (loaded min max (k + 1) k [] true, workers ++ [.starting]) :=
      .step rfl (.step rfl (.refl ..))
    by_cases hlt : k < min
    · refine .step ?_ hend
      exact congrArg some (Prod.ext (if_pos hlt) rfl)
    · refine .via .checkingBusy (loaded min max k k [] signaled, workers) ?_
        (.step rfl (.step ?_ hend))
      · exact congrArg some (Prod.ext (if_neg hlt) rfl)
      · exact congrArg some (Prod.ext (if_pos rfl) rfl)

theorem ofNat_le {k : Nat} {n : Int32} (h : k ≤ n.toInt) : Int32.ofNat k ≤ n := by
  have hlt := n.toInt_lt
  rw [Int32.le_iff_toInt_le, Int32.toInt_ofNat_of_lt (by omega)]
  exact h

/-- All threads are busy: the next call starts another one, which takes the task. -/
theorem reaches_busy (hmax : min < max) (k : Nat) (hk : k ≤ min.toInt + 1) :
    ∃ signaled, Reaches stepSerial ⟨quiet min max 0 0 [] false, [], []⟩
      ⟨quiet min max (.ofNat k) (.ofNat k) [] signaled, replicate k (.running 0),
        replicate k .returned⟩ := by
  induction k with
  | zero => exact ⟨false, .refl _⟩
  | succ k ih =>
    obtain ⟨signaled, hreaches⟩ := ih (by omega)
    have hstarts := adder_starts hmax (ofNat_le (show k ≤ min.toInt by omega)) signaled
      (replicate k (.running 0))
    have htakes : Acts Worker.step .starting (loaded min max (.ofNat k + 1) (.ofNat k) [] true)
        (.running 0) (quiet min max (.ofNat k + 1) (.ofNat k + 1) [] true) := by
      refine .step rfl (.via .picking (loaded min max (.ofNat k + 1) (.ofNat k + 1) [] true) rfl
        (.step ?_ (.refl ..)))
      simp only [Worker.step, pickPendingTask, loaded, quiet]
      rfl
    rw [Int32.ofNat_add k 1]
    refine ⟨true, (hreaches.trans (reaches_addTask ..)).trans ((reaches_adder hstarts _).trans ?_)⟩
    rw [replicate_succ', replicate_succ']
    exact reaches_worker htakes _ _ _

/-- All threads finish their tasks and wait. -/
theorem reaches_waiting (n : Nat) (signaled : Bool) (adders : List Adder) :
    Reaches stepSerial
      ⟨quiet min max (.ofNat n) (.ofNat n) [] signaled, replicate n (.running 0), adders⟩
      ⟨quiet min max (.ofNat n) 0 (replicate n 0) signaled, replicate n .waiting, adders⟩ := by
  have hone (i : Nat) (before after : List Worker) (_ : i < n) : Reaches stepSerial
      ⟨quiet min max (.ofNat n) (.ofNat n - .ofNat i) (replicate i 0) signaled,
        before ++ .running 0 :: after, adders⟩
      ⟨quiet min max (.ofNat n) (.ofNat n - .ofNat (i + 1)) (replicate (i + 1) 0) signaled,
        before ++ .waiting :: after, adders⟩ := by
    refine reaches_worker ?_ before after adders
    have hless : Int32.ofNat n - .ofNat (i + 1) = .ofNat n - .ofNat i - 1 := by
      rw [Int32.ofNat_add]
      grind
    rw [replicate_succ', hless]
    exact .step rfl (.step rfl (.step rfl (.step rfl (.step rfl (.refl ..)))))
  have hall := Reaches.sweep (fun workers s => (⟨s, workers, adders⟩ : ThreadPool))
    (s := fun i => quiet min max (.ofNat n) (.ofNat n - .ofNat i) (replicate i 0) signaled) hone
  rw [Int32.sub_self, show Int32.ofNat n - .ofNat 0 = .ofNat n from Int32.sub_zero _] at hall
  exact hall

/-- One thread takes the signal and waits again. -/
theorem reaches_unsignaled (n : Nat) (cur : Int32) (tasks : List Task) (signaled : Bool)
    (adders : List Adder) :
    Reaches stepSerial
      ⟨quiet min max cur 0 tasks signaled, replicate (n + 1) .waiting, adders⟩
      ⟨quiet min max cur 0 tasks false, replicate (n + 1) .waiting, adders⟩ := by
  cases signaled with
  | false => exact .refl _
  | true =>
    have htakes : Acts Worker.step .waiting (quiet min max cur 0 tasks true)
        .waiting (quiet min max cur 0 tasks false) := by
      refine .step rfl (.step rfl (.step rfl (.via .idle (quiet min max cur 1 tasks false) rfl
        (.step ?_ (.refl ..)))))
      simp only [Worker.step, quiet]
      rfl
    exact reaches_worker htakes [] (replicate n .waiting) adders

/-- With more threads than the minimum, all of them time out and leave their loops. -/
theorem reaches_exiting {cur : Int32} (hcur : min < cur) (n : Nat) (tasks : List Task)
    (adders : List Adder) :
    Reaches stepSerial ⟨quiet min max cur 0 tasks false, replicate n .waiting, adders⟩
      ⟨quiet min max cur 0 tasks false, replicate n .exiting, adders⟩ := by
  have hleaves : Acts Worker.step .waiting (quiet min max cur 0 tasks false)
      .exiting (quiet min max cur 0 tasks false) := by
    refine .step rfl (.step rfl (.step ?_ (.refl ..)))
    exact congrArg some (Prod.ext (if_pos hcur) rfl)
  exact Reaches.sweep (fun workers s => (⟨s, workers, adders⟩ : ThreadPool))
    (fun _ before after _ => reaches_worker hleaves before after adders)

/-- A call that finds threads that are not busy starts none. -/
theorem adder_returns {cur : Int32} (hmin : 0 ≤ min) (hcur : min < cur) (tasks : List Task)
    (workers : List Worker) :
    Acts Adder.step (.calling false 0) (quiet min max cur 0 tasks false, workers)
      .returned (loaded min max cur 0 tasks.tail true, workers) := by
  refine .step rfl (.step rfl ?_)
  have hend : Acts Adder.step .signaling (loaded min max cur 0 tasks.tail false, workers)
      .returned (loaded min max cur 0 tasks.tail true, workers) :=
    .step rfl (.refl ..)
  by_cases hmax : max ≤ cur
  · refine .step ?_ hend
    exact congrArg some (Prod.ext (if_pos hmax) rfl)
  · have hnot : ¬ cur < min := by grind
    have hbusy : ¬ 0 = cur := by grind
    refine .via .checkingMin (loaded min max cur 0 tasks.tail false, workers) ?_
      (.via .checkingBusy (loaded min max cur 0 tasks.tail false, workers) ?_
        (.step rfl (.step ?_ hend)))
    · exact congrArg some (Prod.ext (if_neg hmax) rfl)
    · exact congrArg some (Prod.ext (if_neg hnot) rfl)
    · exact congrArg some (Prod.ext (if_neg hbusy) rfl)

/-- A pool that may have more threads than the minimum strands a task. -/
theorem exists_stranded (hmin : 0 ≤ min) (hmax : min < max) :
    ∃ pool, Reaches stepSerial ⟨quiet min max 0 0 [] false, [], []⟩ pool ∧ pool.Stranded := by
  obtain ⟨n, hn⟩ := eq_ofNat_of_zero_le (Int32.le_iff_toInt_le.mp hmin)
  obtain ⟨signaled, hbusy⟩ := reaches_busy hmax (n + 1) (by omega)
  have hcur : min < .ofNat (n + 1) := by
    have hlt := max.toInt_lt
    have hmax := Int32.lt_iff_toInt_lt.mp hmax
    rw [Int32.lt_iff_toInt_lt, Int32.toInt_ofNat_of_lt (by omega)]
    omega
  refine ⟨_, ((hbusy.trans (reaches_waiting ..)).trans ((reaches_unsignaled ..).trans
    (reaches_exiting hcur ..))).trans ((reaches_addTask ..).trans
    (reaches_adder (adder_returns hmin hcur ..) _)), ?_, ?_, ?_⟩
  · intro a ha
    rcases mem_append.mp ha with ha | ha
    · exact eq_of_mem_replicate ha
    · exact mem_singleton.mp ha
  · exact cons_ne_nil 0 []
  · intro w hw
    exact .inl (eq_of_mem_replicate hw)

end Run

/-- **Stranded tasks.** If calls of `AddTask` do not overlap, no task is ever stranded exactly if
the maximum number of threads is not above the minimum. -/
theorem never_stranded_iff {minThreadNum maxThreadNum : Int32} (hmin : 0 ≤ minThreadNum)
    (hmax : 1 ≤ maxThreadNum) :
    (∀ pool, Reaches stepSerial (new minThreadNum maxThreadNum) pool → ¬ pool.Stranded) ↔
      maxThreadNum ≤ minThreadNum := by
  constructor
  · intro hnever
    by_contra hnot
    have hlt := Int32.not_le.mp hnot
    obtain ⟨pool, hreaches, hstranded⟩ := exists_stranded hmin hlt
    have hnew : new minThreadNum maxThreadNum =
        ⟨quiet minThreadNum maxThreadNum 0 0 [] false, [], []⟩ := by
      simp only [new, Shared.new, quiet]
      rw [if_neg (by grind), if_neg (by grind)]
    exact hnever pool (hnew ▸ hreaches) hstranded
  · intro hle pool hreaches
    exact (hreaches.invariant (fun _ _ _ h hstep => h.step hstep)
      (steady_new hmax hle)).not_stranded

/-- A pool of one thread, when the first call has returned and the thread has not run yet. -/
theorem never_stranded_single :
    run stepSerial (new 1 1) (.addTask false 0 :: replicate 6 (.adder 0)) =
        some ⟨loaded 1 1 1 0 [] true, [.starting], [.returned]⟩ ∧
      ¬ Stranded ⟨loaded 1 1 1 0 [] true, [.starting], [.returned]⟩ := by
  have hrun : run stepSerial (new 1 1) (.addTask false 0 :: replicate 6 (.adder 0)) =
      some ⟨loaded 1 1 1 0 [] true, [.starting], [.returned]⟩ := by rfl
  have hnever := (@never_stranded_iff 1 1 (by decide) (by decide)).mpr (by decide)
  exact ⟨hrun, hnever _ ⟨_, hrun⟩⟩

/-- A pool of at most one thread, whose thread has left the counter of busy threads at -1; a pool of
one or two threads, which leave at the same time; and a pool of one thread that has two, since two
calls have started one. -/
theorem tasks_stranded :
    (∃ pool, Reaches step (new 0 1) pool ∧ pool.Stranded ∧ ∀ w ∈ pool.workers, w = .exited) ∧
    (∃ pool, Reaches step (new 1 2) pool ∧ pool.Stranded ∧ ∀ w ∈ pool.workers, w = .exited) ∧
    (∃ pool, Reaches step (new 1 1) pool ∧ pool.Stranded ∧ ∀ w ∈ pool.workers, w = .exited) := by
  have hone : Reaches step (new 0 1) ⟨⟨0, 1, 0, -1, 1, [1], [], ⟨true⟩, ⟨true⟩, false, false⟩,
      [.exited], [.returned, .returned]⟩ :=
    ⟨[[.addTask false 0], .replicate 8 (.adder 0), .replicate 18 (.worker 0),
      [.addTask false 1], .replicate 7 (.adder 1)].flatten, by decide +kernel⟩
  have htwo : Reaches step (new 1 2) ⟨⟨1, 2, 0, -2, 1, [2], [0], ⟨true⟩, ⟨true⟩, false, false⟩,
      [.exited, .exited], [.returned, .returned, .returned]⟩ :=
    ⟨[[.addTask false 0], .replicate 6 (.adder 0), .replicate 3 (.worker 0),
      [.addTask false 1], .replicate 8 (.adder 1), .replicate 8 (.worker 1),
      .replicate 13 (.worker 0), .replicate 3 (.worker 1), [.addTask false 2],
      .replicate 4 (.adder 2), [.worker 0, .worker 0, .worker 1, .worker 1]].flatten,
    by decide +kernel⟩
  have htwice : Reaches step (new 1 1) ⟨⟨1, 1, 0, -2, 1, [2], [1], ⟨true⟩, ⟨true⟩, false, false⟩,
      [.exited, .exited], [.returned, .returned, .returned]⟩ :=
    ⟨[[.addTask false 0, .addTask false 1], .replicate 4 (.adder 0), .replicate 6 (.adder 1),
      .replicate 2 (.adder 0), .replicate 12 (.worker 1), .replicate 12 (.worker 0),
      .replicate 3 (.worker 1), [.addTask false 2], .replicate 4 (.adder 2),
      [.worker 0, .worker 0, .worker 1, .worker 1]].flatten, by decide +kernel⟩
  exact ⟨⟨_, hone, by decide, by decide⟩, ⟨_, htwo, by decide, by decide⟩,
    ⟨_, htwice, by decide, by decide⟩⟩

end Toft.ThreadPool
