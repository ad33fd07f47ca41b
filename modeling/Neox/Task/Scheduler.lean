import Neox.Task.State

/-!
# Scheduler, wait queues and thread control

The functions of `scheduler.c`, `wait.c` and the scheduling half of `thread.c`, one definition
each. A function that contains an `ASSERT` returns an `Option`: `none` is a halted kernel.

A function that switches context ends, here, at the `context_switch`: the caller's state is the
one in which the thread chosen by `scheduler_next` is `current`. What the C function still does
when its own thread is resumed (an `interrupt_restore`, at most) belongs to that thread's later
steps.
-/

namespace Neox

/-! ## Ready list -/

/-- `list_next`, then the comparison with the list head: `none` means the head was reached. -/
def listNext : List ThreadId → ThreadId → Option ThreadId
  | [], _ => none
  | [_], _ => none
  | x :: y :: rest, t => if x = t then some y else listNext (y :: rest) t

theorem listNext_mem {l : List ThreadId} {t u : ThreadId} (h : listNext l t = some u) : u ∈ l := by
  fun_induction listNext l t with
  | case1 => cases h
  | case2 => cases h
  | case3 =>
      cases h
      simp
  | case4 x y rest t hne ih => exact List.mem_cons_of_mem _ (ih h)

/-- `scheduler_add`. `list_push_back` asserts that the node is unlinked. -/
def schedulerAdd (s : Tasks) (t : ThreadId) : Option Tasks :=
  if s.interruptEnabled then none
  else if (s.threads t).schedNode then none
  else some { s.modify t (fun th => { th with schedNode := true }) with
    readyList := s.readyList ++ [t] }

/-- `scheduler_remove`: a thread whose node is unlinked is left alone. -/
def schedulerRemove (s : Tasks) (t : ThreadId) : Option Tasks :=
  if s.interruptEnabled then none
  else if !(s.threads t).schedNode then some s
  else some { s.modify t (fun th => { th with schedNode := false }) with
    readyList := s.readyList.erase t }

theorem schedulerAdd_spec {s s' : Tasks} {t : ThreadId} (h : schedulerAdd s t = some s') :
    s.interruptEnabled = false ∧ (s.threads t).schedNode = false ∧
      s' = { s.modify t (fun th => { th with schedNode := true }) with
        readyList := s.readyList ++ [t] } := by
  unfold schedulerAdd at h
  split at h
  · cases h
  · split at h
    · cases h
    · simp_all

theorem schedulerRemove_spec {s s' : Tasks} {t : ThreadId} (h : schedulerRemove s t = some s') :
    s.interruptEnabled = false ∧
      (((s.threads t).schedNode = false ∧ s' = s) ∨
        ((s.threads t).schedNode = true ∧
          s' = { s.modify t (fun th => { th with schedNode := false }) with
            readyList := s.readyList.erase t })) := by
  unfold schedulerRemove at h
  split at h
  · cases h
  · split at h
    · simp_all
    · simp_all

/-! ## Choosing the next thread -/

/-- The tail shared by every branch of `scheduler_next`: make `t` current and `RUNNING`. -/
def schedulerSelect (s : Tasks) (t : ThreadId) : Tasks :=
  { s.modify t (fun th => { th with state := .running }) with current := some t }

/-- `current->state = THREAD_READY` for a running thread other than idle. -/
def schedulerDemote (s : Tasks) (t : ThreadId) : Tasks :=
  if (s.threads t).state = .running ∧ t ≠ idleThread then
    s.modify t (fun th => { th with state := .ready })
  else s

/-- The thread `scheduler_next` picks: idle when nothing is ready, else the successor of
`current` in the ring, or the front when `current` is not linked or is last. -/
def schedulerPick (s : Tasks) : ThreadId :=
  match s.readyList, s.current with
  | [], _ => idleThread
  | front :: _, none => front
  | front :: _, some c =>
      if (s.threads c).schedNode then (listNext s.readyList c).getD front else front

/-- `scheduler_next`. -/
def schedulerNext (s : Tasks) : Tasks :=
  match s.readyList, s.current with
  | [], _ => schedulerSelect s idleThread
  | _ :: _, none => schedulerSelect s (schedulerPick s)
  | _ :: _, some c => schedulerSelect (schedulerDemote s c) (schedulerPick s)

/-- The pick is idle exactly when nothing is ready, else a member of the ready list. -/
theorem schedulerPick_mem (s : Tasks) :
    (s.readyList = [] ∧ schedulerPick s = idleThread) ∨ schedulerPick s ∈ s.readyList := by
  unfold schedulerPick
  split
  · rename_i h
    exact .inl ⟨h, rfl⟩
  · rename_i h _
    exact .inr (by simp [h])
  · rename_i front rest c h hc
    right
    split
    · cases hn : listNext s.readyList c with
      | none => simp [h]
      | some u => simpa using listNext_mem hn
    · simp [h]

/-- The state `scheduler_next` leaves thread `t` in. -/
def nextState (s : Tasks) (t : ThreadId) : ThreadState :=
  if t = schedulerPick s then .running
  else if s.readyList ≠ [] ∧ s.current = some t ∧ (s.threads t).state = .running ∧
      t ≠ idleThread then .ready
  else (s.threads t).state

theorem schedulerNext_threads (s : Tasks) (t : ThreadId) :
    (schedulerNext s).threads t = { s.threads t with state := nextState s t } := by
  unfold schedulerNext nextState
  split
  · rename_i h
    have hp : schedulerPick s = idleThread := by simp [schedulerPick, h]
    simp only [schedulerSelect, Tasks.modify_threads, hp, h]
    split <;> simp_all
  · rename_i h hc
    simp only [schedulerSelect, Tasks.modify_threads, hc]
    split <;> simp_all
  · rename_i front rest c h hc
    simp only [schedulerSelect, schedulerDemote, Tasks.modify_threads, hc, h]
    by_cases ht : t = schedulerPick s
    · subst ht
      simp only [if_true]
      split
      · simp only [Tasks.modify_threads]
        split <;> simp_all
      · rfl
    · simp only [ht, if_false]
      by_cases htc : t = c
      · subst htc
        by_cases hd : (s.threads t).state = .running ∧ t ≠ idleThread
        · simp [hd]
        · rw [if_neg hd, if_neg (fun h => hd h.2.2)]
      · have hct : ¬ c = t := fun e => htc e.symm
        split <;> simp [Tasks.modify_threads, htc, hct]

/-- `tss_set_kernel_stack` and `paging_load_directory` for the thread switched to; a thread
without a process (idle) leaves CR3 alone. -/
def loadContext (s : Tasks) (next : ThreadId) : Tasks :=
  { s with
    tssEsp0 := ((s.threads next).kernelStack + kernelStackSize) % wordModulus
    cr3 := match (s.threads next).process with
      | some p => virtToPhys (s.pageDirectory p)
      | none => s.cr3 }

/-- `scheduler_switch`. -/
def schedulerSwitch (s : Tasks) : Option Tasks :=
  if s.interruptEnabled then none
  else
    let s' := { schedulerNext s with quantumRemaining := schedulerQuantumTicks }
    if s'.current = s.current then some s'
    else some (loadContext s' (schedulerPick s))

/-- Everything `scheduler_switch` leaves as it was, and what it changes. -/
structure Switched (s s' : Tasks) : Prop where
  threads : ∀ t, s'.threads t = { s.threads t with state := nextState s t }
  current : s'.current = some (schedulerPick s)
  readyList : s'.readyList = s.readyList
  zombieList : s'.zombieList = s.zombieList
  waiting : s'.waiting = s.waiting
  group : s'.group = s.group
  quantumRemaining : s'.quantumRemaining = schedulerQuantumTicks
  interruptEnabled : s'.interruptEnabled = s.interruptEnabled
  reaperReady : s'.reaperReady = s.reaperReady
  reaperThread : s'.reaperThread = s.reaperThread
  disabled : s.interruptEnabled = false

theorem schedulerSwitch_spec {s s' : Tasks} (h : schedulerSwitch s = some s') : Switched s s' := by
  have hthreads := schedulerNext_threads s
  have hnext : ∀ u : Tasks, u = schedulerNext s → u.current = some (schedulerPick s) ∧ u.readyList = s.readyList ∧
      u.zombieList = s.zombieList ∧ u.waiting = s.waiting ∧ u.group = s.group ∧
      u.interruptEnabled = s.interruptEnabled ∧ u.reaperReady = s.reaperReady ∧
      u.reaperThread = s.reaperThread := by
    rintro u rfl
    unfold schedulerNext
    split
    · rename_i hl
      simp [schedulerSelect, schedulerPick, hl]
    · simp [schedulerSelect]
    · simp only [schedulerSelect, schedulerDemote]
      split <;> simp
  obtain ⟨h1, h2, h3, h4, h5, h6, h7, h8⟩ := hnext _ rfl
  unfold schedulerSwitch at h
  split at h
  · cases h
  · rename_i hif
    simp only at h
    split at h <;> cases h <;> exact ⟨hthreads, h1, h2, h3, h4, h5, rfl, h6, h7, h8, by simpa using hif⟩
/-- `scheduler_yield`. -/
def schedulerYield (s : Tasks) : Option Tasks :=
  if s.interruptEnabled then none
  else match s.current with
    | none => some s
    | some _ => schedulerSwitch s

/-- `scheduler_tick`: `--quantum_remaining` is an unsigned 32-bit decrement. -/
def schedulerTick (s : Tasks) : Option Tasks :=
  match s.current with
  | none => some s
  | some _ =>
      let quantum := (s.quantumRemaining + (wordModulus - 1)) % wordModulus
      let s := { s with quantumRemaining := quantum }
      if 0 < quantum then some s else schedulerSwitch s

theorem schedulerYield_spec {s s' : Tasks} (h : schedulerYield s = some s')
    (hc : s.current ≠ none) : Switched s s' := by
  unfold schedulerYield at h
  split at h
  · cases h
  · split at h
    · contradiction
    · exact schedulerSwitch_spec h

/-! ## Threads -/

/-- `thread_add`: link the thread into its process and into the ready list. A thread without a
process has no list to be linked into. -/
def threadAdd (s : Tasks) (t : ThreadId) : Option Tasks :=
  match (s.threads t).process with
  | none => none
  | some p =>
      if (s.threads t).groupNode then none
      else schedulerAdd
        ((s.modify t (fun th => { th with groupNode := true })).setGroup p (s.group p ++ [t])) t

/-- `thread_block`, up to the context switch. -/
def threadBlock (s : Tasks) : Option Tasks :=
  match s.current with
  | none => none
  | some thread => do
      let s := { s with interruptEnabled := false }
      let s ← schedulerRemove (s.modify thread fun th => { th with state := .blocked }) thread
      schedulerYield s

/-- `thread_unblock`: `interrupt_save` around the state change and `scheduler_add`. -/
def threadUnblock (s : Tasks) (t : ThreadId) : Option Tasks :=
  if (s.threads t).state ≠ .blocked then none
  else do
    let flag := s.interruptEnabled
    let s := { s with interruptEnabled := false }
    let s ← schedulerAdd (s.modify t fun th => { th with state := .ready }) t
    some { s with interruptEnabled := flag }

theorem threadUnblock_spec {s s' : Tasks} {t : ThreadId} (h : threadUnblock s t = some s') :
    (s.threads t).state = .blocked ∧ (s.threads t).schedNode = false ∧
      s' = { s.modify t (fun th => { th with state := .ready, schedNode := true }) with
        readyList := s.readyList ++ [t] } := by
  by_cases hb : (s.threads t).state = .blocked
  · simp only [threadUnblock, hb, ne_eq, not_true_eq_false, if_false, Option.bind_eq_bind,
      Option.bind_eq_some_iff, Option.some.injEq] at h
    obtain ⟨s₁, hadd, rfl⟩ := h
    obtain ⟨-, hn, rfl⟩ := schedulerAdd_spec hadd
    simp only [Tasks.modify_threads_self] at hn
    refine ⟨hb, hn, ?_⟩
    simp [Tasks.modify]
  · simp [threadUnblock, hb] at h

/-- `thread_yield`, up to the context switch. -/
def threadYield (s : Tasks) : Option Tasks :=
  match s.current with
  | none => some s
  | some _ => schedulerYield { s with interruptEnabled := false }

/-! ## Wait queues -/

/-- `wait_queue_add`. -/
def waitQueueAdd (s : Tasks) (q : WaitQueue) (t : ThreadId) : Option Tasks :=
  if (s.threads t).waitNode then none
  else some ((s.modify t fun th => { th with waitQueue := some q, waitNode := true }).setWaiting q
    (s.waiting q ++ [t]))

/-- `wait_queue_remove`: unlink and return the longest waiting thread, or `NULL`. -/
def waitQueueRemove (s : Tasks) (q : WaitQueue) : Option (Option ThreadId × Tasks) :=
  match s.waiting q with
  | [] => some (none, s)
  | t :: rest =>
      if !(s.threads t).waitNode then none
      else some (some t,
        (s.modify t fun th => { th with waitQueue := none, waitNode := false }).setWaiting q rest)

theorem waitQueueAdd_spec {s s' : Tasks} {q : WaitQueue} {t : ThreadId}
    (h : waitQueueAdd s q t = some s') :
    (s.threads t).waitNode = false ∧
      s' = (s.modify t fun th => { th with waitQueue := some q, waitNode := true }).setWaiting q
        (s.waiting q ++ [t]) := by
  unfold waitQueueAdd at h
  split at h
  · cases h
  · simp_all

theorem waitQueueRemove_spec {s s' : Tasks} {q : WaitQueue} {thread : Option ThreadId}
    (h : waitQueueRemove s q = some (thread, s')) :
    (s.waiting q = [] ∧ thread = none ∧ s' = s) ∨
      ∃ t rest, s.waiting q = t :: rest ∧ thread = some t ∧
        s' = (s.modify t fun th => { th with waitQueue := none, waitNode := false }).setWaiting q
          rest := by
  unfold waitQueueRemove at h
  split at h
  · rename_i hq
    cases h
    exact .inl ⟨hq, rfl, rfl⟩
  · rename_i t rest hq
    split at h
    · cases h
    · cases h
      exact .inr ⟨t, rest, hq, rfl, rfl⟩

/-- `wait_queue_wake`. -/
def waitQueueWake (s : Tasks) (q : WaitQueue) : Option Tasks :=
  if s.interruptEnabled then none
  else do
    let (thread, s) ← waitQueueRemove s q
    match thread with
    | none => some s
    | some t => threadUnblock s t

/-- The `while` loop of `wait_queue_wake_all`, at most `n` times round. -/
def waitQueueWakeLoop (q : WaitQueue) : Nat → Tasks → Option Tasks
  | 0, s => some s
  | n + 1, s => do
      let (thread, s) ← waitQueueRemove s q
      match thread with
      | none => some s
      | some t => do
          let s ← threadUnblock s t
          waitQueueWakeLoop q n s

/-- `wait_queue_wake_all`: each round unlinks one thread, so the queue's length bounds the
rounds (`waitQueueWakeAll_waiting`). -/
def waitQueueWakeAll (s : Tasks) (q : WaitQueue) : Option Tasks :=
  if s.interruptEnabled then none
  else waitQueueWakeLoop q (s.waiting q).length s

/-- `wait_queue_sleep`, up to the context switch. -/
def waitQueueSleep (s : Tasks) (q : WaitQueue) : Option Tasks :=
  if s.interruptEnabled then none
  else match s.current with
    | none => none
    | some thread => do
        let s ← waitQueueAdd s q thread
        let s ← schedulerRemove (s.modify thread fun th => { th with state := .blocked }) thread
        schedulerYield s

/-! ## Termination -/

/-- `scheduler_next_zombie`. -/
def schedulerNextZombie (s : Tasks) : Option (Option ThreadId × Tasks) :=
  if s.interruptEnabled then none
  else match s.zombieList with
    | [] => some (none, s)
    | t :: rest =>
        if !(s.threads t).zombieNode then none
        else some (some t,
          { s.modify t (fun th => { th with zombieNode := false }) with zombieList := rest })

/-- `scheduler_push_zombie`: nothing is pushed before `reaper_init`. -/
def schedulerPushZombie (s : Tasks) (t : ThreadId) : Option Tasks :=
  if s.interruptEnabled then none
  else if (s.threads t).state ≠ .terminated then none
  else if !s.reaperReady then some s
  else if (s.threads t).zombieNode then none
  else waitQueueWake
    { s.modify t (fun th => { th with zombieNode := true }) with
      zombieList := s.zombieList ++ [t] } .reaper

/-- `scheduler_terminate`. -/
def schedulerTerminate (s : Tasks) (t : ThreadId) : Option Tasks :=
  if s.interruptEnabled then none
  else if some t = s.reaperThread then none
  else do
    let s ← schedulerRemove s t
    let s ← waitQueueWakeAll (s.modify t fun th => { th with state := .terminated })
      (.termination t)
    if (s.threads t).detached then schedulerPushZombie s t else some s

/-- `thread_kill_current`, up to the context switch; the `panic` after it is never reached
because a terminated thread is never picked again. -/
def threadKillCurrent (s : Tasks) : Option Tasks :=
  match s.current with
  | none => none
  | some thread => do
      let s ← schedulerTerminate { s with interruptEnabled := false } thread
      schedulerYield s

end Neox
