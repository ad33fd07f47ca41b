import Neox.Task.Invariant

/-!
# Runs of the scheduler

The operations of `scheduler.c`, `wait.c` and `thread.c` as one transition system, started by
`scheduler_start` on threads that `thread_create` has built and nobody has added yet.
`scheduler_invariant` is the state-machine invariant of every run.
-/

namespace Neox

open Transition

/-- The state `scheduler_init` and `scheduler_start` leave. Thread `t` belongs to process
`owner t`; only its `detached` flag may have been set since it was created. -/
def Tasks.start (owner : ThreadId → ProcessId) (stack : ThreadId → Nat)
    (detached : ThreadId → Bool) (pageDirectory : ProcessId → Nat) (reaperReady : Bool)
    (reaperThread : Option ThreadId) (esp0 cr3 : Nat) : Tasks where
  threads t := if t = idleThread then Thread.idle (stack t)
    else { Thread.created (owner t) (stack t) with detached := detached t }
  readyList := []
  zombieList := []
  waiting _ := []
  group _ := []
  pageDirectory := pageDirectory
  current := some idleThread
  quantumRemaining := schedulerQuantumTicks
  interruptEnabled := false
  reaperReady := reaperReady
  reaperThread := reaperThread
  tssEsp0 := esp0
  cr3 := cr3

/-- One call, made by the thread that is current; `interruptFlag` is a `cli`, `sti`, `popf` or
`iret` between two calls. -/
inductive SchedulerOp where
  | threadAdd (t : ThreadId)
  | threadBlock
  | threadUnblock (t : ThreadId)
  | waitQueueSleep (q : WaitQueue)
  | waitQueueWake (q : WaitQueue)
  | waitQueueWakeAll (q : WaitQueue)
  | schedulerYield
  | schedulerTick
  | threadKillCurrent
  | interruptFlag (enabled : Bool)
  deriving DecidableEq, Repr

/-- `idle_thread` runs `scheduler_idle_loop`, which only halts: it makes no call that would stop
the thread making it. -/
def unlessIdle (s : Tasks) (r : Option Tasks) : Option Tasks :=
  if s.current = some idleThread then none else r

def schedulerStep (s : Tasks) : SchedulerOp → Option Tasks
  | .threadAdd t => threadAdd s t
  | .threadBlock => unlessIdle s (threadBlock s)
  | .threadUnblock t => threadUnblock s t
  | .waitQueueSleep q => unlessIdle s (waitQueueSleep s q)
  | .waitQueueWake q => waitQueueWake s q
  | .waitQueueWakeAll q => waitQueueWakeAll s q
  | .schedulerYield => schedulerYield s
  | .schedulerTick => schedulerTick s
  | .threadKillCurrent => unlessIdle s (threadKillCurrent s)
  | .interruptFlag enabled => some { s with interruptEnabled := enabled }

/-- A direct `thread_unblock` names a thread that is not linked in a wait queue. -/
def SchedulerOp.permitted (s : Tasks) : SchedulerOp → Prop
  | .threadUnblock t => (s.threads t).waitNode = false
  | _ => True

instance (s : Tasks) : ∀ op, Decidable (SchedulerOp.permitted s op)
  | .threadUnblock t => inferInstanceAs (Decidable ((s.threads t).waitNode = false))
  | .threadAdd _ | .threadBlock | .waitQueueSleep _ | .waitQueueWake _ | .waitQueueWakeAll _
  | .schedulerYield | .schedulerTick | .threadKillCurrent | .interruptFlag _ =>
      inferInstanceAs (Decidable True)

theorem unlessIdle_eq_some {s s' : Tasks} {r : Option Tasks} (h : unlessIdle s r = some s') :
    s.current ≠ some idleThread ∧ r = some s' := by
  unfold unlessIdle at h
  split at h
  · cases h
  · exact ⟨‹_›, h⟩

/-! ## One step -/

/-- A thread that has not been added is still as it was created. -/
def Unstarted (s : Tasks) : Prop :=
  ∀ t, t ≠ idleThread → (s.threads t).groupNode = false → (s.threads t).state = .ready

theorem Woken.unstarted {q : WaitQueue} {s s' : Tasks} (h : Woken q s s') (hu : Unstarted s) : Unstarted s' := by
  intro t ht hg
  rcases h.threads t with e | ⟨-, -, e⟩
  · rw [e] at hg ⊢
    exact hu t ht hg
  · simp [e]

theorem Switched.unstarted {s s' : Tasks} (h : Switched s s') (hs : TasksInv s)
    (hu : Unstarted s) : Unstarted s' := by
  intro t ht hg
  rw [h.threads t] at hg ⊢
  have hready := hu t ht hg
  have hpick : t ≠ schedulerPick s := by
    rintro rfl
    rcases schedulerPick_mem s with ⟨-, e⟩ | hm
    · exact ht e
    · simp [((hs.ready_iff _).mp hm).2.1] at hg
  simp [nextState, hpick, hready]

theorem Unstarted.stop {s : Tasks} {c : ThreadId} {st : ThreadState} (hu : Unstarted s)
    (hrun : (s.threads c).state = .running) : Unstarted (s.stop c st) := by
  intro t ht hg
  simp only [Tasks.stop, Tasks.modify_threads] at hg ⊢
  have := hu t ht
  grind

theorem schedulerTerminate_unstarted {s s' : Tasks} {t : ThreadId} (hs : TasksInv s)
    (hu : Unstarted s) (hidle : t ≠ idleThread) (hrun : (s.threads t).state = .running)
    (h : schedulerTerminate s t = some s') : Unstarted s' := by
  obtain ⟨-, -, s₁, hwake, hpush⟩ := schedulerTerminate_spec hs hidle hrun h
  obtain ⟨hinv, hwoken, -⟩ := waitQueueWakeAll_inv (hs.stop hidle hrun (.inr rfl)) hwake
  have hu₁ := hwoken.unstarted (hu.stop hrun)
  obtain ⟨-, rfl⟩ | ⟨-, hp⟩ := hpush
  · exact hu₁
  · obtain ⟨-, ht, ⟨-, rfl⟩ | ⟨-, hn, hw⟩⟩ := schedulerPushZombie_spec hp
    · exact hu₁
    · refine (waitQueueWake_inv (hinv.pushZombie ht hn) hw).2.unstarted ?_
      intro u hne hg
      simp only [Tasks.pushZombie, Tasks.modify_threads] at hg ⊢
      have := hu₁ u hne
      grind

/-- What one call keeps. -/
structure SchedulerInv (s : Tasks) : Prop where
  inv : TasksInv s
  runs : CurrentRuns s
  unstarted : Unstarted s

theorem Switched.schedulerInv {s s' : Tasks} (h : Switched s s') (hs : TasksInv s)
    (hu : Unstarted s) : SchedulerInv s' :=
  ⟨(h.inv hs).1, (h.inv hs).2, h.unstarted hs hu⟩

theorem Woken.schedulerInv {q : WaitQueue} {s s' : Tasks} (h : Woken q s s') (hs : SchedulerInv s)
    (hinv : TasksInv s') : SchedulerInv s' :=
  ⟨hinv, h.currentRuns hs.runs, h.unstarted hs.unstarted⟩

theorem schedulerStep_inv {s s' : Tasks} {op : SchedulerOp} (hs : SchedulerInv s)
    (hok : op.permitted s) (h : schedulerStep s op = some s') : SchedulerInv s' := by
  obtain ⟨hinv, hruns, hu⟩ := hs
  cases op with
  | threadAdd t =>
      obtain ⟨-, hg, -, p, hp, hs'⟩ := threadAdd_spec h
      have hidle : t ≠ idleThread := by
        rintro rfl
        simp [hinv.idle_process] at hp
      refine ⟨threadAdd_inv hinv (hu t hidle hg) h, ?_, ?_⟩
      · intro c hc
        simp only [hs', Tasks.setGroup_current, Tasks.modify_current] at hc
        have := hruns c hc
        simp only [hs', Tasks.setGroup_threads, Tasks.modify_threads]
        grind
      · intro u hne hgu
        have := hu u hne
        simp only [hs', Tasks.setGroup_threads, Tasks.modify_threads] at hgu ⊢
        grind
  | threadBlock =>
      obtain ⟨hidle, h⟩ := unlessIdle_eq_some h
      obtain ⟨c, -, hne, hrun, hsw⟩ := threadBlock_spec hinv hruns hidle h
      exact hsw.schedulerInv ((hinv.setFlag false).stop hne hrun (.inl rfl))
        (Unstarted.stop hu hrun)
  | threadUnblock t =>
      obtain ⟨hb, hn, hs'⟩ := threadUnblock_spec h
      refine ⟨threadUnblock_inv hinv hok h, ?_, ?_⟩
      · intro c hc
        simp only [hs', Tasks.modify_current] at hc
        have := hruns c hc
        simp only [hs', Tasks.modify_threads]
        grind [hinv.idle_running]
      · intro u hne hgu
        have := hu u hne
        simp only [hs', Tasks.modify_threads] at hgu ⊢
        grind
  | waitQueueSleep q =>
      obtain ⟨hidle, h⟩ := unlessIdle_eq_some h
      obtain ⟨c, -, hne, hrun, hinv', hsw⟩ := waitQueueSleep_spec hinv hruns hidle h
      refine hsw.schedulerInv hinv' ?_
      intro u hne' hgu
      have hstop : Unstarted (s.stop c .blocked) := hu.stop hrun
      have := hstop u hne'
      simp only [Tasks.sleep, Tasks.setWaiting_threads, Tasks.modify_threads] at hgu ⊢
      grind
  | waitQueueWake q =>
      obtain ⟨hinv', hw⟩ := waitQueueWake_inv hinv h
      exact hw.schedulerInv ⟨hinv, hruns, hu⟩ hinv'
  | waitQueueWakeAll q =>
      obtain ⟨hinv', hw, -⟩ := waitQueueWakeAll_inv hinv h
      exact hw.schedulerInv ⟨hinv, hruns, hu⟩ hinv'
  | schedulerYield =>
      have hc : s.current ≠ none := by
        obtain ⟨c, hc⟩ := hinv.current_some
        simp [hc]
      exact (schedulerYield_spec h hc).schedulerInv hinv hu
  | schedulerTick =>
      obtain ⟨hq, rfl⟩ | ⟨-, hsw⟩ := schedulerTick_spec hinv h
      · have hle := hinv.quantum.2
        exact ⟨hinv.setQuantum (by omega), hruns, hu⟩
      · exact hsw.schedulerInv hinv hu
  | threadKillCurrent =>
      obtain ⟨hidle, h⟩ := unlessIdle_eq_some h
      obtain ⟨c, s₁, -, hne, hrun, hterm, hinv', hsw⟩ := threadKillCurrent_spec hinv hruns hidle h
      exact hsw.schedulerInv hinv'
        (schedulerTerminate_unstarted (hinv.setFlag false) hu hne hrun hterm)
  | interruptFlag enabled =>
      cases h
      exact ⟨hinv.setFlag enabled, hruns, hu⟩

/-! ## Every run -/

/-- The state machine the scheduler's users rely on. -/
structure SchedulerInvariant (s : Tasks) : Prop where
  current : s.current = some idleThread ∨ ∃ c, s.current = some c ∧
    (s.threads c).state = .running ∧ (s.threads c).schedNode = true ∧ c ∈ s.readyList
  running : ∀ t, t ≠ idleThread → (s.threads t).state = .running → s.current = some t
  nodup : s.readyList.Nodup
  /-- Linked are exactly the threads that `thread_add` was called on and that can run. -/
  ready : ∀ t, t ∈ s.readyList ↔ t ≠ idleThread ∧ (s.threads t).groupNode = true ∧
    ((s.threads t).state = .ready ∨ (s.threads t).state = .running)
  stopped : ∀ t, (s.threads t).state = .blocked ∨ (s.threads t).state = .terminated →
    (s.threads t).schedNode = false ∧ t ∉ s.readyList
  idle_unlinked : (s.threads idleThread).schedNode = false ∧ idleThread ∉ s.readyList ∧
    ∀ q, idleThread ∉ s.waiting q
  idle_not_ready : (s.threads idleThread).state ≠ .ready
  waiting : ∀ q t, t ∈ s.waiting q →
    (s.threads t).state = .blocked ∧ (s.threads t).waitQueue = some q
  quantum : 1 ≤ s.quantumRemaining ∧ s.quantumRemaining ≤ schedulerQuantumTicks
  /-- `--quantum_remaining` is the decrement of the integers. -/
  no_wrap : (s.quantumRemaining + (wordModulus - 1)) % wordModulus + 1 = s.quantumRemaining

theorem SchedulerInv.invariant {s : Tasks} (hs : SchedulerInv s) : SchedulerInvariant s := by
  obtain ⟨hinv, hruns, -⟩ := hs
  have hunlinked : ∀ t, t ∉ s.readyList → (s.threads t).schedNode = false := fun t ht => by
    simpa using mt (hinv.sched_node t).mp ht
  have hidle : idleThread ∉ s.readyList := fun hm => ((hinv.ready_iff _).mp hm).1 rfl
  have hq := hinv.quantum
  refine ⟨?_, hinv.running_current, hinv.ready_nodup, hinv.ready_iff, ?_, ?_, ?_,
    hinv.waiting_blocked, hq, ?_⟩
  · obtain ⟨c, hc⟩ := hinv.current_some
    rcases hruns c hc with rfl | hrun
    · exact .inl hc
    · by_cases hne : c = idleThread
      · exact .inl (hne ▸ hc)
      · obtain ⟨hmem, hnode⟩ := hinv.running_linked hne hrun
        exact .inr ⟨c, hc, hrun, hnode, hmem⟩
  · intro t ht
    have hmem : t ∉ s.readyList := fun hm => by
      have hst := ((hinv.ready_iff t).mp hm).2.2
      rcases ht with e | e <;> simp [e] at hst
    exact ⟨hunlinked t hmem, hmem⟩
  · refine ⟨hunlinked _ hidle, hidle, fun q hm => ?_⟩
    have := (hinv.waiting_blocked q _ hm).1
    simp [hinv.idle_running] at this
  · simp [hinv.idle_running]
  · simp only [schedulerQuantumTicks] at hq
    simp only [wordModulus]
    omega

theorem Tasks.start_inv (owner : ThreadId → ProcessId) (stack : ThreadId → Nat)
    (detached : ThreadId → Bool) (pageDirectory : ProcessId → Nat) (reaperReady : Bool)
    (reaperThread : Option ThreadId) (esp0 cr3 : Nat) :
    SchedulerInv (start owner stack detached pageDirectory reaperReady reaperThread esp0 cr3) := by
  have hthread : ∀ t, t ≠ idleThread →
      (start owner stack detached pageDirectory reaperReady reaperThread esp0 cr3).threads t =
        { Thread.created (owner t) (stack t) with detached := detached t } := fun t ht => by
    simp [start, ht]
  refine ⟨?_, ?_, ?_⟩
  · constructor
    case quantum => exact ⟨Nat.le_add_left 1 4, Nat.le_refl _⟩
    case idle_running | idle_process => rfl
    case current_some => exact ⟨_, rfl⟩
    all_goals simp [start]
    all_goals intro t
    all_goals by_cases ht : t = idleThread <;> simp_all [Thread.created, Thread.idle]
  · intro c hc
    cases hc
    exact .inl rfl
  · intro t ht _
    simp [hthread t ht, Thread.created]

end Neox
