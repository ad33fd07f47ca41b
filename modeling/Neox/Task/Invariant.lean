import Neox.Lib.Run
import Neox.Task.Scheduler

/-!
# The scheduler invariant

`TasksInv` is what every scheduler and wait-queue function keeps, also in the middle of an
operation, when the current thread has already been taken off the ready list but the switch has
not happened yet. `CurrentRuns` is the clause that is only true between operations. Each
operation has one lemma.
-/

namespace Neox

open Transition

/-- What holds of the tasking state at every point, also inside an operation. -/
structure TasksInv (s : Tasks) : Prop where
  ready_nodup : s.readyList.Nodup
  /-- The ready list holds exactly the added threads that can run. -/
  ready_iff : ∀ t, t ∈ s.readyList ↔ t ≠ idleThread ∧ (s.threads t).groupNode = true ∧
    ((s.threads t).state = .ready ∨ (s.threads t).state = .running)
  /-- The `NULL`/`NULL` test on `sched_node` is a membership test. -/
  sched_node : ∀ t, (s.threads t).schedNode = true ↔ t ∈ s.readyList
  /-- A thread that is not linked in its process has not run yet or has been destroyed. -/
  unadded : ∀ t, t ≠ idleThread → (s.threads t).groupNode = false →
    (s.threads t).state = .ready ∨ (s.threads t).state = .terminated
  running_current : ∀ t, t ≠ idleThread → (s.threads t).state = .running → s.current = some t
  current_some : ∃ c, s.current = some c
  idle_running : (s.threads idleThread).state = .running
  idle_process : (s.threads idleThread).process = none
  /-- A linked waiter is blocked and names the queue it is linked in. -/
  waiting_blocked : ∀ q t, t ∈ s.waiting q →
    (s.threads t).state = .blocked ∧ (s.threads t).waitQueue = some q
  waiting_nodup : ∀ q, (s.waiting q).Nodup
  wait_node : ∀ t, (s.threads t).waitNode = true ↔ ∃ q, t ∈ s.waiting q
  zombie_nodup : s.zombieList.Nodup
  zombie_node : ∀ t, (s.threads t).zombieNode = true ↔ t ∈ s.zombieList
  zombie_terminated : ∀ t, t ∈ s.zombieList → (s.threads t).state = .terminated
  quantum : 1 ≤ s.quantumRemaining ∧ s.quantumRemaining ≤ schedulerQuantumTicks

/-- Between operations the current thread is idle or running. -/
def CurrentRuns (s : Tasks) : Prop :=
  ∀ c, s.current = some c → c = idleThread ∨ (s.threads c).state = .running

/-- The invariant does not read the interrupt flag. -/
theorem TasksInv.setFlag {s : Tasks} (hs : TasksInv s) (b : Bool) :
    TasksInv { s with interruptEnabled := b } :=
  ⟨hs.1, hs.2, hs.3, hs.4, hs.5, hs.6, hs.7, hs.8, hs.9, hs.10, hs.11, hs.12, hs.13, hs.14, hs.15⟩

theorem TasksInv.setQuantum {s : Tasks} (hs : TasksInv s) {n : Nat}
    (hn : 1 ≤ n ∧ n ≤ schedulerQuantumTicks) : TasksInv { s with quantumRemaining := n } :=
  ⟨hs.1, hs.2, hs.3, hs.4, hs.5, hs.6, hs.7, hs.8, hs.9, hs.10, hs.11, hs.12, hs.13, hs.14, hn⟩

/-- The scheduler does not read the `detached` flag. -/
theorem TasksInv.setDetached {s : Tasks} (hs : TasksInv s) (t : ThreadId) (b : Bool) :
    TasksInv (s.modify t fun th => { th with detached := b }) := by
  obtain ⟨h1, h2, h3, h4, h5, h6, h7, h8, h9, h10, h11, h12, h13, h14, h15⟩ := hs
  constructor <;> simp only [Tasks.modify_threads, Tasks.modify_readyList, Tasks.modify_waiting,
    Tasks.modify_zombieList, Tasks.modify_current, Tasks.modify_quantumRemaining]
  all_goals grind

/-! ## Waking -/

theorem threadUnblock_inv {s s' : Tasks} {t : ThreadId} (hs : TasksInv s)
    (hfree : (s.threads t).waitNode = false) (h : threadUnblock s t = some s') : TasksInv s' := by
  obtain ⟨hb, hn, rfl⟩ := threadUnblock_spec h
  obtain ⟨h1, h2, h3, h4, h5, h6, h7, h8, h9, h10, h11, h12, h13, h14, h15⟩ := hs
  constructor <;> simp only [Tasks.modify_threads, Tasks.modify_waiting, Tasks.modify_zombieList,
    Tasks.modify_current, Tasks.modify_quantumRemaining]
  all_goals grind

theorem waitQueueRemove_inv {s s' : Tasks} {q : WaitQueue} {thread : Option ThreadId}
    (hs : TasksInv s) (h : waitQueueRemove s q = some (thread, s')) :
    TasksInv s' ∧ ∀ t, thread = some t → (s'.threads t).waitNode = false := by
  obtain ⟨-, rfl, rfl⟩ | ⟨t, rest, hq, rfl, rfl⟩ := waitQueueRemove_spec h
  · exact ⟨hs, by simp⟩
  · obtain ⟨h1, h2, h3, h4, h5, h6, h7, h8, h9, h10, h11, h12, h13, h14, h15⟩ := hs
    -- `t` was the front of `q` and of no other queue, by its `waitQueue` field.
    have ht := h9 q t (by simp [hq])
    have hq' := h10 q
    refine ⟨?_, by simp⟩
    constructor <;> simp only [Tasks.setWaiting_threads, Tasks.setWaiting_waiting,
      Tasks.setWaiting_readyList, Tasks.setWaiting_zombieList, Tasks.setWaiting_current,
      Tasks.setWaiting_quantumRemaining, Tasks.modify_threads, Tasks.modify_readyList,
      Tasks.modify_waiting, Tasks.modify_zombieList, Tasks.modify_current,
      Tasks.modify_quantumRemaining]
    all_goals grind

/-- What waking threads of `q` can change: blocked threads become ready, everything else stays. -/
structure Woken (q : WaitQueue) (s s' : Tasks) : Prop where
  threads : ∀ t, s'.threads t = s.threads t ∨
    t ∈ s.waiting q ∧ (s.threads t).state = .blocked ∧ s'.threads t = { s.threads t with
      state := .ready, schedNode := true, waitQueue := none, waitNode := false }
  waiting : s'.waiting q <:+ s.waiting q
  others : ∀ r, r ≠ q → s'.waiting r = s.waiting r
  current : s'.current = s.current
  zombieList : s'.zombieList = s.zombieList
  group : s'.group = s.group
  quantumRemaining : s'.quantumRemaining = s.quantumRemaining
  interruptEnabled : s'.interruptEnabled = s.interruptEnabled
  reaperReady : s'.reaperReady = s.reaperReady
  reaperThread : s'.reaperThread = s.reaperThread

theorem Woken.refl (q : WaitQueue) (s : Tasks) : Woken q s s :=
  ⟨fun _ => .inl rfl, List.suffix_refl _, fun _ _ => rfl, rfl, rfl, rfl, rfl, rfl, rfl, rfl⟩

theorem Woken.trans {q : WaitQueue} {s₁ s₂ s₃ : Tasks} (h : Woken q s₁ s₂) (h' : Woken q s₂ s₃) :
    Woken q s₁ s₃ where
  threads t := by
    rcases h.threads t with e | ⟨hm, hb, e⟩
    · rw [← e]
      exact (h'.threads t).imp_right fun ⟨hm, hr⟩ => ⟨h.waiting.subset hm, hr⟩
    · rcases h'.threads t with e' | ⟨-, hb', -⟩
      · exact .inr ⟨hm, hb, e' ▸ e⟩
      · simp [e] at hb'
  waiting := h'.waiting.trans h.waiting
  others r hr := (h'.others r hr).trans (h.others r hr)
  current := h'.current.trans h.current
  zombieList := h'.zombieList.trans h.zombieList
  group := h'.group.trans h.group
  quantumRemaining := h'.quantumRemaining.trans h.quantumRemaining
  interruptEnabled := h'.interruptEnabled.trans h.interruptEnabled
  reaperReady := h'.reaperReady.trans h.reaperReady
  reaperThread := h'.reaperThread.trans h.reaperThread

/-- Unlinking the front of a queue and unblocking it is one wake-up. -/
theorem woken_front {s s₁ s' : Tasks} {q : WaitQueue} {t : ThreadId}
    (hrem : waitQueueRemove s q = some (some t, s₁)) (hun : threadUnblock s₁ t = some s') :
    Woken q s s' := by
  obtain ⟨-, hc, -⟩ | ⟨t', rest, hq, ht, rfl⟩ := waitQueueRemove_spec hrem
  · cases hc
  · cases ht
    obtain ⟨hb, -, rfl⟩ := threadUnblock_spec hun
    simp only [Tasks.setWaiting_threads, Tasks.modify_threads_self] at hb
    refine ⟨fun u => ?_, ⟨[t], by simp [hq]⟩, fun r hr => ?_, rfl, rfl, rfl, rfl, rfl, rfl, rfl⟩
    · by_cases hu : u = t
      · subst hu
        exact .inr ⟨by simp [hq], hb, by simp⟩
      · left
        simp [Tasks.modify_threads, hu]
    · simp [Tasks.setWaiting_waiting, hr]

theorem waitQueueWake_spec {s s' : Tasks} {q : WaitQueue} (h : waitQueueWake s q = some s') :
    s.interruptEnabled = false ∧ ((s.waiting q = [] ∧ s' = s) ∨
      ∃ t s₁, waitQueueRemove s q = some (some t, s₁) ∧ threadUnblock s₁ t = some s') := by
  unfold waitQueueWake at h
  split at h
  · cases h
  · rename_i hif
    refine ⟨by simpa using hif, ?_⟩
    obtain ⟨⟨thread, s₁⟩, hrem, hrest⟩ := Option.bind_eq_some_iff.mp h
    cases thread with
    | none =>
        cases hrest
        obtain ⟨hq, -, e⟩ | ⟨_, _, _, hc, _⟩ := waitQueueRemove_spec hrem
        · exact .inl ⟨hq, e⟩
        · cases hc
    | some t => exact .inr ⟨t, s₁, hrem, hrest⟩

theorem waitQueueWake_inv {s s' : Tasks} {q : WaitQueue} (hs : TasksInv s)
    (h : waitQueueWake s q = some s') : TasksInv s' ∧ Woken q s s' := by
  obtain ⟨-, ⟨-, rfl⟩ | ⟨t, s₁, hrem, hun⟩⟩ := waitQueueWake_spec h
  · exact ⟨hs, .refl _ _⟩
  · obtain ⟨hinv, hfree⟩ := waitQueueRemove_inv hs hrem
    exact ⟨threadUnblock_inv hinv (hfree t rfl) hun, woken_front hrem hun⟩

/-- One round of the loop, then the rest of it. -/
theorem waitQueueWakeLoop_inv {q : WaitQueue} {n : Nat} {s s' : Tasks} (hs : TasksInv s)
    (h : waitQueueWakeLoop q n s = some s') : TasksInv s' ∧ Woken q s s' := by
  induction n generalizing s with
  | zero =>
      cases h
      exact ⟨hs, .refl _ _⟩
  | succ n ih =>
      obtain ⟨⟨thread, s₁⟩, hrem, hrest⟩ := Option.bind_eq_some_iff.mp h
      cases thread with
      | none =>
          cases hrest
          obtain ⟨-, -, rfl⟩ | ⟨_, _, _, hc, _⟩ := waitQueueRemove_spec hrem
          · exact ⟨hs, .refl _ _⟩
          · cases hc
      | some t =>
          obtain ⟨s₂, hun, hloop⟩ := Option.bind_eq_some_iff.mp hrest
          obtain ⟨hinv, hfree⟩ := waitQueueRemove_inv hs hrem
          obtain ⟨hinv', hw⟩ := ih (threadUnblock_inv hinv (hfree t rfl) hun) hloop
          exact ⟨hinv', (woken_front hrem hun).trans hw⟩

/-- The loop runs until its queue is empty. -/
theorem waitQueueWakeLoop_waiting {q : WaitQueue} {n : Nat} {s s' : Tasks}
    (hn : (s.waiting q).length ≤ n) (h : waitQueueWakeLoop q n s = some s') :
    s'.waiting q = [] := by
  induction n generalizing s with
  | zero =>
      cases h
      exact List.length_eq_zero_iff.mp (Nat.le_zero.mp hn)
  | succ n ih =>
      obtain ⟨⟨thread, s₁⟩, hrem, hrest⟩ := Option.bind_eq_some_iff.mp h
      cases thread with
      | none =>
          cases hrest
          obtain ⟨hq, -, rfl⟩ | ⟨_, _, _, hc, _⟩ := waitQueueRemove_spec hrem
          · exact hq
          · cases hc
      | some t =>
          obtain ⟨s₂, hun, hloop⟩ := Option.bind_eq_some_iff.mp hrest
          obtain ⟨-, hc, -⟩ | ⟨t', rest, hq, ht, rfl⟩ := waitQueueRemove_spec hrem
          · cases hc
          · obtain ⟨-, -, rfl⟩ := threadUnblock_spec hun
            refine ih ?_ hloop
            simp only [hq, List.length_cons] at hn
            simpa using hn

theorem waitQueueWakeAll_inv {s s' : Tasks} {q : WaitQueue} (hs : TasksInv s)
    (h : waitQueueWakeAll s q = some s') : TasksInv s' ∧ Woken q s s' ∧ s'.waiting q = [] := by
  unfold waitQueueWakeAll at h
  split at h
  · cases h
  · obtain ⟨hinv, hw⟩ := waitQueueWakeLoop_inv hs h
    exact ⟨hinv, hw, waitQueueWakeLoop_waiting (Nat.le_refl _) h⟩

/-- Waking others does not stop the current thread. -/
theorem Woken.currentRuns {q : WaitQueue} {s s' : Tasks} (h : Woken q s s') (hs : CurrentRuns s) :
    CurrentRuns s' := by
  intro c hc
  rw [h.current] at hc
  refine (hs c hc).imp_right fun hr => ?_
  rcases h.threads c with e | ⟨-, hb, -⟩
  · rw [e, hr]
  · simp [hr] at hb

/-! ## Switching -/

/-- `scheduler_switch` restores the clause that an operation on the current thread broke. -/
theorem Switched.inv {s s' : Tasks} (h : Switched s s') (hs : TasksInv s) :
    TasksInv s' ∧ CurrentRuns s' := by
  have hpick := schedulerPick_mem s
  obtain ⟨h1, h2, h3, h4, h5, h6, h7, h8, h9, h10, h11, h12, h13, h14, h15⟩ := hs
  have hstate : ∀ t, (s'.threads t).state = nextState s t := fun t => by rw [h.threads t]
  have hidle : schedulerPick s = idleThread → s.readyList = [] := by
    intro e
    rcases hpick with ⟨hnil, -⟩ | hmem
    · exact hnil
    · exact absurd e ((h2 _).mp hmem).1
  refine ⟨?_, ?_⟩
  · constructor <;> simp only [h.threads, h.current, h.readyList, h.zombieList, h.waiting,
      h.quantumRemaining]
    case quantum => decide
    all_goals grind [nextState]
  · intro c hc
    rw [h.current, Option.some.injEq] at hc
    right
    rw [hstate, ← hc]
    simp [nextState]

/-! ## Stopping the current thread -/

/-- `c` off the ready list in state `st`. -/
def Tasks.stop (s : Tasks) (c : ThreadId) (st : ThreadState) : Tasks :=
  { s.modify c (fun th => { th with state := st, schedNode := false }) with
    readyList := s.readyList.erase c }

/-- Taking the running thread off the ready list with a state in which it cannot run. -/
theorem TasksInv.stop {s : Tasks} {c : ThreadId} {st : ThreadState} (hs : TasksInv s)
    (hidle : c ≠ idleThread) (hrun : (s.threads c).state = .running)
    (hst : st = .blocked ∨ st = .terminated) : TasksInv (s.stop c st) := by
  obtain ⟨h1, h2, h3, h4, h5, h6, h7, h8, h9, h10, h11, h12, h13, h14, h15⟩ := hs
  have hmem : c ∈ s.readyList := by grind
  have hnot := h1.not_mem_erase (a := c)
  have herase := fun t => h1.mem_erase_iff (a := t) (b := c)
  have hnd := h1.erase c
  constructor <;> simp only [Tasks.stop, Tasks.modify_threads, Tasks.modify_waiting,
    Tasks.modify_zombieList, Tasks.modify_current, Tasks.modify_quantumRemaining]
  all_goals grind

/-- A running thread other than idle is linked in the ready list. -/
theorem TasksInv.running_linked {s : Tasks} {c : ThreadId} (hs : TasksInv s)
    (hidle : c ≠ idleThread) (hrun : (s.threads c).state = .running) :
    c ∈ s.readyList ∧ (s.threads c).schedNode = true := by
  have hg : (s.threads c).groupNode = true := by
    by_contra hn
    rcases hs.unadded c hidle (by simpa using hn) with h | h <;> simp [hrun] at h
  have hmem : c ∈ s.readyList := (hs.ready_iff c).mpr ⟨hidle, hg, .inr hrun⟩
  exact ⟨hmem, (hs.sched_node c).mpr hmem⟩

/-- The first half of `thread_block`: mark the current thread blocked, unlink it. -/
theorem schedulerRemove_blocked {s s' : Tasks} {c : ThreadId} (hs : TasksInv s)
    (hidle : c ≠ idleThread) (hrun : (s.threads c).state = .running)
    (h : schedulerRemove (s.modify c fun th => { th with state := .blocked }) c = some s') :
    s' = s.stop c .blocked := by
  have hlinked := (hs.running_linked hidle hrun).2
  obtain ⟨-, ⟨hn, -⟩ | ⟨-, rfl⟩⟩ := schedulerRemove_spec h
  · simp [hlinked] at hn
  · simp [Tasks.stop, Tasks.modify]

/-- Linking a blocked thread into a wait queue. -/
theorem TasksInv.enqueue {s : Tasks} {q : WaitQueue} {c : ThreadId} (hs : TasksInv s)
    (hb : (s.threads c).state = .blocked) (hn : (s.threads c).waitNode = false) :
    TasksInv ((s.modify c fun th => { th with waitQueue := some q, waitNode := true }).setWaiting q
      (s.waiting q ++ [c])) := by
  obtain ⟨h1, h2, h3, h4, h5, h6, h7, h8, h9, h10, h11, h12, h13, h14, h15⟩ := hs
  have hfree : ∀ r, c ∉ s.waiting r := fun r hm => by
    have := (h11 c).mpr ⟨r, hm⟩
    simp [hn] at this
  constructor <;> simp only [Tasks.setWaiting_threads, Tasks.setWaiting_waiting,
    Tasks.setWaiting_readyList, Tasks.setWaiting_zombieList, Tasks.setWaiting_current,
    Tasks.setWaiting_quantumRemaining, Tasks.modify_threads, Tasks.modify_readyList,
    Tasks.modify_waiting, Tasks.modify_zombieList, Tasks.modify_current,
    Tasks.modify_quantumRemaining]
  case waiting_nodup =>
    intro r
    split
    · have := h10 q
      grind
    · exact h10 r
  all_goals grind

/-- What `wait_queue_sleep` has done to the current thread `c` when it yields. -/
def Tasks.sleep (s : Tasks) (q : WaitQueue) (c : ThreadId) : Tasks :=
  ((s.stop c .blocked).modify c
    fun th => { th with waitQueue := some q, waitNode := true }).setWaiting q (s.waiting q ++ [c])

theorem waitQueueSleep_spec {s s' : Tasks} {q : WaitQueue} (hs : TasksInv s)
    (hruns : CurrentRuns s) (hidle : s.current ≠ some idleThread)
    (h : waitQueueSleep s q = some s') :
    ∃ c, s.current = some c ∧ c ≠ idleThread ∧ (s.threads c).state = .running ∧
      TasksInv (s.sleep q c) ∧ Switched (s.sleep q c) s' := by
  unfold waitQueueSleep at h
  split at h
  · cases h
  · split at h
    · cases h
    · rename_i c hc
      have hne : c ≠ idleThread := fun e => hidle (e ▸ hc)
      have hrun : (s.threads c).state = .running := (hruns c hc).resolve_left hne
      obtain ⟨s₁, hadd, h₁⟩ := Option.bind_eq_some_iff.mp h
      obtain ⟨s₂, hrem, hyield⟩ := Option.bind_eq_some_iff.mp h₁
      obtain ⟨hn, rfl⟩ := waitQueueAdd_spec hadd
      have hlinked := (hs.running_linked hne hrun).2
      have hs₂ : s₂ = s.sleep q c := by
        obtain ⟨-, ⟨hnot, -⟩ | ⟨-, rfl⟩⟩ := schedulerRemove_spec hrem
        · simp [hlinked] at hnot
        · simp [Tasks.sleep, Tasks.stop, Tasks.modify, Tasks.setWaiting]
      subst hs₂
      have hinv : TasksInv (s.sleep q c) :=
        (hs.stop hne hrun (.inl rfl)).enqueue (by simp [Tasks.stop]) (by simpa [Tasks.stop] using hn)
      exact ⟨c, hc, hne, hrun, hinv, schedulerYield_spec hyield (by simp [Tasks.sleep, Tasks.stop, hc])⟩

theorem threadBlock_spec {s s' : Tasks} (hs : TasksInv s) (hruns : CurrentRuns s)
    (hidle : s.current ≠ some idleThread) (h : threadBlock s = some s') :
    ∃ c, s.current = some c ∧ c ≠ idleThread ∧ (s.threads c).state = .running ∧
      Switched ({ s with interruptEnabled := false }.stop c .blocked) s' := by
  unfold threadBlock at h
  split at h
  · cases h
  · rename_i c hc
    have hne : c ≠ idleThread := fun e => hidle (e ▸ hc)
    have hrun : (s.threads c).state = .running := (hruns c hc).resolve_left hne
    obtain ⟨s₁, hrem, hyield⟩ := Option.bind_eq_some_iff.mp h
    obtain rfl := schedulerRemove_blocked (hs.setFlag false) hne hrun hrem
    exact ⟨c, hc, hne, hrun, schedulerYield_spec hyield (by simp [Tasks.stop, hc])⟩

/-! ## Termination -/

/-- `t` appended to the zombie list. -/
def Tasks.pushZombie (s : Tasks) (t : ThreadId) : Tasks :=
  { s.modify t (fun th => { th with zombieNode := true }) with zombieList := s.zombieList ++ [t] }

theorem TasksInv.pushZombie {s : Tasks} {t : ThreadId} (hs : TasksInv s)
    (ht : (s.threads t).state = .terminated) (hn : (s.threads t).zombieNode = false) :
    TasksInv (s.pushZombie t) := by
  obtain ⟨h1, h2, h3, h4, h5, h6, h7, h8, h9, h10, h11, h12, h13, h14, h15⟩ := hs
  constructor <;> simp only [Tasks.pushZombie, Tasks.modify_threads, Tasks.modify_readyList,
    Tasks.modify_waiting, Tasks.modify_current, Tasks.modify_quantumRemaining]
  all_goals grind

theorem schedulerPushZombie_spec {s s' : Tasks} {t : ThreadId}
    (h : schedulerPushZombie s t = some s') :
    s.interruptEnabled = false ∧ (s.threads t).state = .terminated ∧
      ((s.reaperReady = false ∧ s' = s) ∨
        (s.reaperReady = true ∧ (s.threads t).zombieNode = false ∧
          waitQueueWake (s.pushZombie t) .reaper = some s')) := by
  unfold schedulerPushZombie at h
  split at h
  · cases h
  · split at h
    · cases h
    · split at h
      · simp_all
      · split at h
        · cases h
        · simp_all [Tasks.pushZombie]

theorem schedulerPushZombie_inv {s s' : Tasks} {t : ThreadId} (hs : TasksInv s)
    (h : schedulerPushZombie s t = some s') :
    TasksInv s' ∧ s'.current = s.current ∧ s'.interruptEnabled = s.interruptEnabled := by
  obtain ⟨-, ht, ⟨-, rfl⟩ | ⟨-, hn, hw⟩⟩ := schedulerPushZombie_spec h
  · exact ⟨hs, rfl, rfl⟩
  · obtain ⟨hinv, hwoken⟩ := waitQueueWake_inv (hs.pushZombie ht hn) hw
    exact ⟨hinv, hwoken.current, hwoken.interruptEnabled⟩

/-- The three things `scheduler_terminate` does, in order: the thread leaves the ready list, its
joiners are woken, and a detached thread goes to the reaper. -/
theorem schedulerTerminate_spec {s s' : Tasks} {t : ThreadId} (hs : TasksInv s)
    (hidle : t ≠ idleThread) (hrun : (s.threads t).state = .running)
    (h : schedulerTerminate s t = some s') :
    s.interruptEnabled = false ∧ some t ≠ s.reaperThread ∧ ∃ s₁,
      waitQueueWakeAll (s.stop t .terminated) (.termination t) = some s₁ ∧
      (((s₁.threads t).detached = false ∧ s' = s₁) ∨
        ((s₁.threads t).detached = true ∧ schedulerPushZombie s₁ t = some s')) := by
  unfold schedulerTerminate at h
  split at h
  · cases h
  · rename_i hif
    split at h
    · cases h
    · rename_i hreaper
      obtain ⟨s₀, hrem, h₀⟩ := Option.bind_eq_some_iff.mp h
      obtain ⟨s₁, hwake, h₁⟩ := Option.bind_eq_some_iff.mp h₀
      have hlinked := (hs.running_linked hidle hrun).2
      have hs₀ : (s₀.modify t fun th => { th with state := .terminated }) =
          s.stop t .terminated := by
        obtain ⟨-, ⟨hnot, -⟩ | ⟨-, rfl⟩⟩ := schedulerRemove_spec hrem
        · simp [hlinked] at hnot
        · simp [Tasks.stop, Tasks.modify]
      rw [hs₀] at hwake
      refine ⟨by simpa using hif, hreaper, s₁, hwake, ?_⟩
      split at h₁
      · rename_i hd
        exact .inr ⟨hd, h₁⟩
      · rename_i hd
        cases h₁
        exact .inl ⟨by simpa using hd, rfl⟩

theorem schedulerTerminate_inv {s s' : Tasks} {t : ThreadId} (hs : TasksInv s)
    (hidle : t ≠ idleThread) (hrun : (s.threads t).state = .running)
    (h : schedulerTerminate s t = some s') :
    TasksInv s' ∧ s'.current = s.current ∧ s'.interruptEnabled = s.interruptEnabled := by
  obtain ⟨-, -, s₁, hwake, hpush⟩ := schedulerTerminate_spec hs hidle hrun h
  obtain ⟨hinv, hwoken, -⟩ := waitQueueWakeAll_inv (hs.stop hidle hrun (.inr rfl)) hwake
  obtain ⟨-, rfl⟩ | ⟨-, hp⟩ := hpush
  · exact ⟨hinv, hwoken.current, hwoken.interruptEnabled⟩
  · obtain ⟨hinv', hc, hif⟩ := schedulerPushZombie_inv hinv hp
    exact ⟨hinv', hc.trans hwoken.current, hif.trans hwoken.interruptEnabled⟩

theorem threadKillCurrent_spec {s s' : Tasks} (hs : TasksInv s) (hruns : CurrentRuns s)
    (hidle : s.current ≠ some idleThread) (h : threadKillCurrent s = some s') :
    ∃ c s₁, s.current = some c ∧ c ≠ idleThread ∧ (s.threads c).state = .running ∧
      schedulerTerminate { s with interruptEnabled := false } c = some s₁ ∧ TasksInv s₁ ∧
      Switched s₁ s' := by
  unfold threadKillCurrent at h
  split at h
  · cases h
  · rename_i c hc
    have hne : c ≠ idleThread := fun e => hidle (e ▸ hc)
    have hrun : (s.threads c).state = .running := (hruns c hc).resolve_left hne
    obtain ⟨s₁, hterm, hyield⟩ := Option.bind_eq_some_iff.mp h
    obtain ⟨hinv, hcur, -⟩ := schedulerTerminate_inv (hs.setFlag false) hne hrun hterm
    exact ⟨c, s₁, hc, hne, hrun, hterm, hinv, schedulerYield_spec hyield (by simp [hcur, hc])⟩

theorem schedulerNextZombie_spec {s s' : Tasks} {zombie : Option ThreadId}
    (h : schedulerNextZombie s = some (zombie, s')) :
    s.interruptEnabled = false ∧ ((s.zombieList = [] ∧ zombie = none ∧ s' = s) ∨
      ∃ t rest, s.zombieList = t :: rest ∧ zombie = some t ∧
        s' = { s.modify t (fun th => { th with zombieNode := false }) with zombieList := rest }) := by
  unfold schedulerNextZombie at h
  split at h
  · cases h
  · rename_i hif
    refine ⟨by simpa using hif, ?_⟩
    split at h
    · cases h
      exact .inl ⟨‹_›, rfl, rfl⟩
    · rename_i t rest hz
      split at h
      · cases h
      · cases h
        exact .inr ⟨t, rest, hz, rfl, rfl⟩

theorem schedulerNextZombie_inv {s s' : Tasks} {zombie : Option ThreadId} (hs : TasksInv s)
    (h : schedulerNextZombie s = some (zombie, s')) : TasksInv s' := by
  obtain ⟨-, ⟨-, -, rfl⟩ | ⟨t, rest, hz, -, rfl⟩⟩ := schedulerNextZombie_spec h
  · exact hs
  · obtain ⟨h1, h2, h3, h4, h5, h6, h7, h8, h9, h10, h11, h12, h13, h14, h15⟩ := hs
    rw [hz] at h12 h13 h14
    constructor <;> simp only [Tasks.modify_threads, Tasks.modify_readyList, Tasks.modify_waiting,
      Tasks.modify_current, Tasks.modify_quantumRemaining]
    all_goals grind

/-! ## Adding a thread, and the timer -/

theorem threadAdd_spec {s s' : Tasks} {t : ThreadId} (h : threadAdd s t = some s') :
    s.interruptEnabled = false ∧ (s.threads t).groupNode = false ∧
      (s.threads t).schedNode = false ∧ ∃ p, (s.threads t).process = some p ∧
      s' = { (s.modify t fun th => { th with groupNode := true, schedNode := true }).setGroup p
        (s.group p ++ [t]) with readyList := s.readyList ++ [t] } := by
  unfold threadAdd at h
  split at h
  · cases h
  · rename_i p hp
    split at h
    · cases h
    · rename_i hg
      obtain ⟨hif, hn, rfl⟩ := schedulerAdd_spec h
      simp only [Tasks.setGroup_threads, Tasks.modify_threads_self] at hn
      refine ⟨hif, by simpa using hg, hn, p, hp, ?_⟩
      simp [Tasks.modify, Tasks.setGroup]

/-- `thread_add` applied to a thread that is still as `thread_create` left it. -/
theorem threadAdd_inv {s s' : Tasks} {t : ThreadId} (hs : TasksInv s)
    (hfresh : (s.threads t).state = .ready) (h : threadAdd s t = some s') : TasksInv s' := by
  obtain ⟨-, hg, hn, p, hp, rfl⟩ := threadAdd_spec h
  obtain ⟨h1, h2, h3, h4, h5, h6, h7, h8, h9, h10, h11, h12, h13, h14, h15⟩ := hs
  have hidle : t ≠ idleThread := by
    rintro rfl
    simp [h8] at hp
  constructor <;> simp only [Tasks.setGroup_threads, Tasks.setGroup_zombieList,
    Tasks.setGroup_waiting, Tasks.setGroup_current, Tasks.setGroup_quantumRemaining,
    Tasks.modify_threads, Tasks.modify_waiting, Tasks.modify_zombieList, Tasks.modify_current,
    Tasks.modify_quantumRemaining]
  all_goals grind

/-- A tick either only counts down or switches; the countdown never wraps. -/
theorem schedulerTick_spec {s s' : Tasks} (hs : TasksInv s) (h : schedulerTick s = some s') :
    (1 < s.quantumRemaining ∧ s' = { s with quantumRemaining := s.quantumRemaining - 1 }) ∨
      (s.quantumRemaining = 1 ∧ Switched s s') := by
  obtain ⟨c, hc⟩ := hs.current_some
  have hq := hs.quantum
  simp only [schedulerQuantumTicks] at hq
  have hdec : (s.quantumRemaining + (wordModulus - 1)) % wordModulus = s.quantumRemaining - 1 := by
    simp only [wordModulus]
    omega
  unfold schedulerTick at h
  split at h
  · rename_i hnone
    simp [hc] at hnone
  · simp only [hdec] at h
    split at h
    · rename_i hpos
      cases h
      exact .inl ⟨by omega, rfl⟩
    · rename_i hzero
      -- The switch does not read the counter, so it is also a switch from `s`.
      have hsw := schedulerSwitch_spec h
      exact .inr ⟨by omega, hsw.threads, hsw.current, hsw.readyList, hsw.zombieList, hsw.waiting,
        hsw.group, hsw.quantumRemaining, hsw.interruptEnabled, hsw.reaperReady, hsw.reaperThread,
        hsw.disabled⟩

end Neox
