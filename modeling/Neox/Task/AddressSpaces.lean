import Mathlib.Data.List.Nodup
import Neox.Task.Processes

/-!
# The page directory in CR3 and the stack in the TSS

`scheduler_switch` loads both for the thread it switches to, except that the idle thread, which has
no process, leaves CR3 alone. `sys_exec` swaps the directory of the running process and destroys the
old one. A directory is destroyed by `process_destroy` and by `sys_exec` only.
-/

namespace Neox

open Transition

/-! ## What a context switch loads -/

/-- Same current thread in the same context, and nothing changes that a switch would load. -/
structure SameContext (s s' : Tasks) : Prop where
  process : ∀ t, (s'.threads t).process = (s.threads t).process
  kernelStack : ∀ t, (s'.threads t).kernelStack = (s.threads t).kernelStack
  pageDirectory : s'.pageDirectory = s.pageDirectory
  current : s'.current = s.current
  cr3 : s'.cr3 = s.cr3
  tssEsp0 : s'.tssEsp0 = s.tssEsp0

/-- Perhaps another current thread, with the context that belongs to it. -/
structure Reloads (s s' : Tasks) : Prop where
  process : ∀ t, (s'.threads t).process = (s.threads t).process
  kernelStack : ∀ t, (s'.threads t).kernelStack = (s.threads t).kernelStack
  pageDirectory : s'.pageDirectory = s.pageDirectory
  context : (s'.current = s.current ∧ s'.cr3 = s.cr3 ∧ s'.tssEsp0 = s.tssEsp0) ∨
    ∃ next, s'.current = some next ∧
      s'.tssEsp0 = ((s.threads next).kernelStack + kernelStackSize) % wordModulus ∧
      s'.cr3 = match (s.threads next).process with
        | some p => virtToPhys (s.pageDirectory p)
        | none => s.cr3

variable {s s₁ s' : Tasks} {q : WaitQueue} {t : ThreadId}

theorem SameContext.refl (s : Tasks) : SameContext s s :=
  ⟨fun _ => rfl, fun _ => rfl, rfl, rfl, rfl, rfl⟩

theorem SameContext.trans (h : SameContext s s₁) (h' : SameContext s₁ s') : SameContext s s' where
  process t := (h'.process t).trans (h.process t)
  kernelStack t := (h'.kernelStack t).trans (h.kernelStack t)
  pageDirectory := h'.pageDirectory.trans h.pageDirectory
  current := h'.current.trans h.current
  cr3 := h'.cr3.trans h.cr3
  tssEsp0 := h'.tssEsp0.trans h.tssEsp0

theorem SameContext.reloads (h : SameContext s s') : Reloads s s' :=
  ⟨h.process, h.kernelStack, h.pageDirectory, .inl ⟨h.current, h.cr3, h.tssEsp0⟩⟩

theorem Reloads.after (h : SameContext s s₁) (h' : Reloads s₁ s') : Reloads s s' := by
  refine ⟨fun t => (h'.process t).trans (h.process t),
    fun t => (h'.kernelStack t).trans (h.kernelStack t), h'.pageDirectory.trans h.pageDirectory, ?_⟩
  rcases h'.context with ⟨hc, h3, ht⟩ | ⟨next, hc, ht, h3⟩
  · exact .inl ⟨hc.trans h.current, h3.trans h.cr3, ht.trans h.tssEsp0⟩
  · rw [h.kernelStack] at ht
    rw [h.process, h.pageDirectory, h.cr3] at h3
    exact .inr ⟨next, hc, ht, h3⟩

/-- A change to a thread record that leaves its process and its stack alone. -/
theorem SameContext.modify {f : Thread → Thread} (hp : (f (s.threads t)).process = (s.threads t).process)
    (hk : (f (s.threads t)).kernelStack = (s.threads t).kernelStack) :
    SameContext s (s.modify t f) := by
  refine ⟨fun u => ?_, fun u => ?_, rfl, rfl, rfl, rfl⟩
  all_goals
    rw [Tasks.modify_threads]
    split
    · rename_i e
      subst e
      assumption
    · rfl

theorem schedulerAdd_context (h : schedulerAdd s t = some s') : SameContext s s' := by
  obtain ⟨-, -, rfl⟩ := schedulerAdd_spec h
  have hsame : SameContext s (s.modify t fun th => { th with schedNode := true }) := .modify rfl rfl
  exact ⟨hsame.process, hsame.kernelStack, rfl, rfl, rfl, rfl⟩

theorem schedulerRemove_context (h : schedulerRemove s t = some s') : SameContext s s' := by
  obtain ⟨-, ⟨-, rfl⟩ | ⟨-, rfl⟩⟩ := schedulerRemove_spec h
  · exact .refl _
  · have hsame : SameContext s (s.modify t fun th => { th with schedNode := false }) :=
      .modify rfl rfl
    exact ⟨hsame.process, hsame.kernelStack, rfl, rfl, rfl, rfl⟩

theorem threadUnblock_context (h : threadUnblock s t = some s') : SameContext s s' := by
  obtain ⟨-, -, rfl⟩ := threadUnblock_spec h
  have hsame : SameContext s (s.modify t fun th => { th with state := .ready, schedNode := true }) :=
    .modify rfl rfl
  exact ⟨hsame.process, hsame.kernelStack, rfl, rfl, rfl, rfl⟩

theorem waitQueueAdd_context (h : waitQueueAdd s q t = some s') : SameContext s s' := by
  obtain ⟨-, rfl⟩ := waitQueueAdd_spec h
  have hsame : SameContext s
      (s.modify t fun th => { th with waitQueue := some q, waitNode := true }) := .modify rfl rfl
  exact ⟨hsame.process, hsame.kernelStack, rfl, rfl, rfl, rfl⟩

theorem waitQueueRemove_context {thread : Option ThreadId}
    (h : waitQueueRemove s q = some (thread, s')) : SameContext s s' := by
  obtain ⟨-, -, rfl⟩ | ⟨t, rest, -, -, rfl⟩ := waitQueueRemove_spec h
  · exact .refl _
  · have hsame : SameContext s
        (s.modify t fun th => { th with waitQueue := none, waitNode := false }) := .modify rfl rfl
    exact ⟨hsame.process, hsame.kernelStack, rfl, rfl, rfl, rfl⟩

theorem waitQueueWake_context (h : waitQueueWake s q = some s') : SameContext s s' := by
  obtain ⟨-, ⟨-, rfl⟩ | ⟨t, s₁, hrem, hun⟩⟩ := waitQueueWake_spec h
  · exact .refl _
  · exact (waitQueueRemove_context hrem).trans (threadUnblock_context hun)

theorem waitQueueWakeLoop_context {n : Nat} (h : waitQueueWakeLoop q n s = some s') :
    SameContext s s' := by
  induction n generalizing s with
  | zero =>
      cases h
      exact .refl _
  | succ n ih =>
      obtain ⟨⟨thread, s₁⟩, hrem, hrest⟩ := Option.bind_eq_some_iff.mp h
      cases thread with
      | none =>
          cases hrest
          exact waitQueueRemove_context hrem
      | some t =>
          obtain ⟨s₂, hun, hloop⟩ := Option.bind_eq_some_iff.mp hrest
          exact ((waitQueueRemove_context hrem).trans (threadUnblock_context hun)).trans (ih hloop)

theorem waitQueueWakeAll_context (h : waitQueueWakeAll s q = some s') : SameContext s s' := by
  unfold waitQueueWakeAll at h
  split at h
  · cases h
  · exact waitQueueWakeLoop_context h

theorem schedulerPushZombie_context (h : schedulerPushZombie s t = some s') : SameContext s s' := by
  obtain ⟨-, -, ⟨-, rfl⟩ | ⟨-, -, hw⟩⟩ := schedulerPushZombie_spec h
  · exact .refl _
  · have hsame : SameContext s (s.modify t fun th => { th with zombieNode := true }) :=
      .modify rfl rfl
    have hpush : SameContext s (s.pushZombie t) :=
      ⟨hsame.process, hsame.kernelStack, rfl, rfl, rfl, rfl⟩
    exact hpush.trans (waitQueueWake_context hw)

theorem schedulerNextZombie_context {zombie : Option ThreadId}
    (h : schedulerNextZombie s = some (zombie, s')) : SameContext s s' := by
  obtain ⟨-, ⟨-, -, rfl⟩ | ⟨t, rest, -, -, rfl⟩⟩ := schedulerNextZombie_spec h
  · exact .refl _
  · have hsame : SameContext s (s.modify t fun th => { th with zombieNode := false }) :=
      .modify rfl rfl
    exact ⟨hsame.process, hsame.kernelStack, rfl, rfl, rfl, rfl⟩

theorem schedulerTerminate_context (h : schedulerTerminate s t = some s') : SameContext s s' := by
  unfold schedulerTerminate at h
  split at h
  · cases h
  · split at h
    · cases h
    · obtain ⟨s₁, hrem, h₁⟩ := Option.bind_eq_some_iff.mp h
      obtain ⟨s₂, hwake, h₂⟩ := Option.bind_eq_some_iff.mp h₁
      have hsame := ((schedulerRemove_context hrem).trans (.modify rfl rfl)).trans
        (waitQueueWakeAll_context hwake)
      split at h₂
      · exact hsame.trans (schedulerPushZombie_context h₂)
      · cases h₂
        exact hsame

/-- The switch itself: nothing is loaded when the thread stays the same. -/
theorem schedulerSwitch_reloads (h : schedulerSwitch s = some s') : Reloads s s' := by
  have hthreads := schedulerNext_threads s
  have hsame : (schedulerNext s).pageDirectory = s.pageDirectory ∧ (schedulerNext s).cr3 = s.cr3 ∧
      (schedulerNext s).tssEsp0 = s.tssEsp0 ∧ (schedulerNext s).current = some (schedulerPick s) := by
    unfold schedulerNext
    split
    · rename_i hl
      simp [schedulerSelect, schedulerPick, hl, Tasks.modify]
    · simp [schedulerSelect, Tasks.modify]
    · simp only [schedulerSelect, schedulerDemote]
      split <;> simp [Tasks.modify]
  obtain ⟨hpd, hcr3, htss, hcurrent⟩ := hsame
  unfold schedulerSwitch at h
  split at h
  · cases h
  · simp only at h
    split at h
    · rename_i hstay
      cases h
      exact ⟨fun t => by simp [hthreads], fun t => by simp [hthreads], hpd,
        .inl ⟨hstay, hcr3, htss⟩⟩
    · cases h
      refine ⟨fun t => by simp [loadContext, hthreads], fun t => by simp [loadContext, hthreads],
        hpd, .inr ⟨schedulerPick s, hcurrent, ?_, ?_⟩⟩
      · simp [loadContext, hthreads]
      · cases hp : (s.threads (schedulerPick s)).process with
        | none => simp [loadContext, hthreads, hcr3, hp]
        | some p => simp [loadContext, hthreads, hpd, hp]

theorem schedulerYield_reloads (h : schedulerYield s = some s') : Reloads s s' := by
  unfold schedulerYield at h
  split at h
  · cases h
  · split at h
    · cases h
      exact (SameContext.refl _).reloads
    · exact schedulerSwitch_reloads h

theorem SameContext.setFlag (s : Tasks) (b : Bool) :
    SameContext s { s with interruptEnabled := b } :=
  ⟨fun _ => rfl, fun _ => rfl, rfl, rfl, rfl, rfl⟩

theorem schedulerTick_reloads (h : schedulerTick s = some s') : Reloads s s' := by
  unfold schedulerTick at h
  split at h
  · cases h
    exact (SameContext.refl _).reloads
  · simp only at h
    have hcount : ∀ n, SameContext s { s with quantumRemaining := n } := fun _ =>
      ⟨fun _ => rfl, fun _ => rfl, rfl, rfl, rfl, rfl⟩
    split at h
    · cases h
      exact (hcount _).reloads
    · exact .after (hcount _) (schedulerSwitch_reloads h)

theorem waitQueueSleep_reloads (h : waitQueueSleep s q = some s') : Reloads s s' := by
  unfold waitQueueSleep at h
  split at h
  · cases h
  · split at h
    · cases h
    · obtain ⟨s₁, hadd, h₁⟩ := Option.bind_eq_some_iff.mp h
      obtain ⟨s₂, hrem, hyield⟩ := Option.bind_eq_some_iff.mp h₁
      exact .after (((waitQueueAdd_context hadd).trans (.modify rfl rfl)).trans
        (schedulerRemove_context hrem)) (schedulerYield_reloads hyield)

theorem threadBlock_reloads (h : threadBlock s = some s') : Reloads s s' := by
  unfold threadBlock at h
  split at h
  · cases h
  · obtain ⟨s₁, hrem, hyield⟩ := Option.bind_eq_some_iff.mp h
    have hoff : SameContext s { s with interruptEnabled := false } := .setFlag s false
    exact .after ((hoff.trans (.modify rfl rfl)).trans (schedulerRemove_context hrem))
      (schedulerYield_reloads hyield)

theorem threadYield_reloads (h : threadYield s = some s') : Reloads s s' := by
  unfold threadYield at h
  split at h
  · cases h
    exact (SameContext.refl _).reloads
  · exact .after (.setFlag s false) (schedulerYield_reloads h)

theorem threadKillCurrent_reloads (h : threadKillCurrent s = some s') : Reloads s s' := by
  unfold threadKillCurrent at h
  split at h
  · cases h
  · obtain ⟨s₁, hterm, hyield⟩ := Option.bind_eq_some_iff.mp h
    have hoff : SameContext s { s with interruptEnabled := false } := .setFlag s false
    exact .after (hoff.trans (schedulerTerminate_context hterm)) (schedulerYield_reloads hyield)

namespace Machine

variable {m m' : Machine} {c : ThreadId} {i : Instr} {rest : List Instr}

/-- What an instruction does to the loaded context and to what a switch loads. -/
structure ContextStep (m : Machine) (i : Instr) (m' : Machine) : Prop where
  kernelStack : ∀ u < m.nextTid, i.destroys m.tasks.zombieList ≠ some u →
    (m'.tasks.threads u).kernelStack = (m.tasks.threads u).kernelStack
  pageDirectory : ∀ p < m.nextPid, m'.tasks.pageDirectory p = m.tasks.pageDirectory p
  context : (m'.tasks.current = m.tasks.current ∧ m'.tasks.cr3 = m.tasks.cr3 ∧
      m'.tasks.tssEsp0 = m.tasks.tssEsp0) ∨
    i.destroys m.tasks.zombieList = none ∧ ∃ next, m'.tasks.current = some next ∧
      m'.tasks.tssEsp0 = ((m.tasks.threads next).kernelStack + kernelStackSize) % wordModulus ∧
      m'.tasks.cr3 = match (m.tasks.threads next).process with
        | some p => virtToPhys (m.tasks.pageDirectory p)
        | none => m.tasks.cr3

theorem ContextStep.of_reloads (h : Reloads m.tasks m'.tasks)
    (hi : i.destroys m.tasks.zombieList = none) : ContextStep m i m' :=
  ⟨fun u _ _ => h.kernelStack u, fun p _ => by rw [h.pageDirectory],
    h.context.imp_right fun hc => ⟨hi, hc⟩⟩

theorem ContextStep.of_same (h : SameContext m.tasks m'.tasks) : ContextStep m i m' :=
  ⟨fun u _ _ => h.kernelStack u, fun p _ => by rw [h.pageDirectory],
    .inl ⟨h.current, h.cr3, h.tssEsp0⟩⟩

/-- `thread_destroy` clears the pointer to the stack it frees. -/
theorem destroy_context {m₁ : Machine} {t : ThreadId} (h : m.destroy t = some m₁) :
    (∀ u, u ≠ t → (m₁.tasks.threads u).kernelStack = (m.tasks.threads u).kernelStack) ∧
      m₁.tasks.pageDirectory = m.tasks.pageDirectory ∧ m₁.tasks.current = m.tasks.current ∧
      m₁.tasks.cr3 = m.tasks.cr3 ∧ m₁.tasks.tssEsp0 = m.tasks.tssEsp0 := by
  obtain ⟨s, l, hs, rfl⟩ := destroy_spec h
  obtain ⟨-, -, g, rfl, -⟩ := threadDestroy_spec hs
  refine ⟨fun u hu => ?_, rfl, rfl, rfl, rfl⟩
  simp [Tasks.modify_threads, hu]

theorem Fires.contextStep (h : Fires m c rest i m') : ContextStep m i m' := by
  have hoff : SameContext m.tasks m.tasks.masked := .setFlag m.tasks false
  cases h with
  | enter | ret | condvarWait | joinEnded | reaperDrain | lockFree | acquire | restore | enable =>
      exact .of_same (.setFlag m.tasks _)
  | lockSleep _ hs | acquireSleep _ hs | joinSleep _ hs | reaperSleep hs =>
      exact .of_reloads (.after hoff (waitQueueSleep_reloads hs)) rfl
  | unlockHand hs | unlockFree hs | releaseHand hs | releaseFree hs =>
      exact .of_same (hoff.trans (waitQueueRemove_context hs))
  | condvarSignal hs => exact .of_same (hoff.trans (waitQueueWake_context hs))
  | condvarBroadcast hs => exact .of_same (hoff.trans (waitQueueWakeAll_context hs))
  | block hs => exact .of_reloads (threadBlock_reloads hs) rfl
  | yield hs => exact .of_reloads (threadYield_reloads hs) rfl
  | sleep hs => exact .of_reloads (waitQueueSleep_reloads hs) rfl
  | tick hs => exact .of_reloads (schedulerTick_reloads hs) rfl
  | kill hs => exact .of_reloads (threadKillCurrent_reloads hs) rfl
  | unblock hs => exact .of_same ((hoff.trans (.modify rfl rfl)).trans (schedulerAdd_context hs))
  | @detachLive t _ =>
      have hflag : SameContext m.tasks.masked
          (m.tasks.masked.modify t fun th => { th with detached := true }) := .modify rfl rfl
      exact .of_same (hoff.trans hflag)
  | detachEnded _ hs =>
      exact .of_same ((hoff.trans (.modify rfl rfl)).trans (schedulerPushZombie_context hs))
  | @add t s hs =>
      obtain ⟨-, -, -, p, -, rfl⟩ := threadAdd_spec hs
      have hsame : SameContext m.tasks
          (m.tasks.modify t fun th => { th with groupNode := true, schedNode := true }) :=
        .modify rfl rfl
      exact .of_same ⟨hsame.process, hsame.kernelStack, rfl, rfl, rfl, rfl⟩
  | create =>
      refine ⟨fun u hu _ => ?_, fun _ _ => rfl, .inl ⟨rfl, rfl, rfl⟩⟩
      simp [Tasks.modify_threads, Nat.ne_of_lt hu]
  | processCreate =>
      exact ⟨fun _ _ _ => rfl, fun p hp => Function.update_of_ne (Nat.ne_of_lt hp) ..,
        .inl ⟨rfl, rfl, rfl⟩⟩
  | joinDestroy hd =>
      obtain ⟨hstack, hpd, hcurrent, hcr3, htss⟩ := destroy_context hd
      refine ⟨fun u _ hu => hstack u fun e => hu (by rw [e]; rfl), fun p _ => ?_,
        .inl ⟨hcurrent, hcr3, htss⟩⟩
      rw [← hpd]
      rfl
  | @reaperDone flag s hs =>
      have hsame := schedulerNextZombie_context hs
      exact .of_same hsame
  | @reaperReap flag t s m₁ hs _ hd =>
      have hsame := schedulerNextZombie_context hs
      have hhead : m.tasks.zombieList.head? = some t := by
        obtain ⟨-, ⟨-, hnone, -⟩ | ⟨u, l, hz, hsome, -⟩⟩ := schedulerNextZombie_spec hs
        · cases hnone
        · cases hsome
          simp [hz]
      obtain ⟨hstack, hpd, hcurrent, hcr3, htss⟩ := destroy_context hd
      refine ⟨fun u _ hu => ?_, fun p _ => ?_, .inl ⟨hcurrent.trans hsame.current,
        hcr3.trans hsame.cr3, htss.trans hsame.tssEsp0⟩⟩
      · exact (hstack u fun e => hu (by rw [e]; exact hhead)).trans (hsame.kernelStack u)
      · rw [← hsame.pageDirectory]
        exact congrFun hpd p

end Machine

/-! ## The machine and its page directories -/

/-- How far a call of `sys_exec` gets; `newDirectory` is what `paging_create_directory` returns. -/
inductive ExecOutcome where
  /-- It returns -1 before it has a new directory. -/
  | rejected
  /-- `elf_load` fails. -/
  | notLoaded (newDirectory : Nat)
  /-- The stack cannot be created or built; the new directory is already attached. -/
  | noStack (newDirectory : Nat)
  | done (newDirectory : Nat)
  deriving DecidableEq, Repr

/-- The directory `sys_exec` gets from `paging_create_directory`. -/
def ExecOutcome.newDirectory : ExecOutcome → Option Nat
  | .rejected => none
  | .notLoaded d | .noStack d | .done d => some d

/-- The interleaved threads, with the page directories that exist: `kernel_directory`, and those that
`paging_create_directory` has returned and `paging_destroy_directory` has not been given. -/
structure Spaces where
  machine : Machine
  directories : List Nat

inductive SpaceLabel where
  | task (l : Label)
  /-- The current thread's program makes the system call. Its interrupt gate keeps timer interrupts
  off until it returns, so it is one step. -/
  | exec (outcome : ExecOutcome)
  deriving DecidableEq, Repr

/-- The thread whose process an instruction reads to change that process's thread list. -/
def Instr.uses (zombies : List ThreadId) : Instr → Option ThreadId
  | .body (.threadAdd t) => some t
  | i => i.destroys zombies

namespace Spaces

/-- After `reaper_init`; `kernel_directory` is still loaded. -/
def boot (idleStack reaperStack kernelDirectory pageDirectory esp0 : Nat) : Spaces where
  machine := Machine.boot idleStack reaperStack pageDirectory esp0 (virtToPhys kernelDirectory)
  directories := [pageDirectory, kernelDirectory]

/-- `sys_exec`, made by a thread of process `p`: what it does to the directories and to CR3. -/
def sysExec (m : Spaces) (p : ProcessId) : ExecOutcome → Spaces
  | .rejected => m
  | .notLoaded d => { m with directories := (d :: m.directories).erase d }
  | .noStack d =>
      let s := m.machine.tasks
      let attached := { s with pageDirectory := Function.update s.pageDirectory p d }
      { machine := { m.machine with tasks := { attached with
          pageDirectory := Function.update attached.pageDirectory p (s.pageDirectory p) } }
        directories := (d :: m.directories).erase d }
  | .done d =>
      let s := m.machine.tasks
      { machine := { m.machine with tasks := { s with
          pageDirectory := Function.update s.pageDirectory p d
          cr3 := virtToPhys d } }
        directories := (d :: m.directories).erase (s.pageDirectory p) }

/-- What `process_create` has created and `process_destroy` has destroyed in a step from `m`. -/
def directoriesAfter (m : Spaces) (m' : Machine) : List Nat :=
  let created := if m'.nextPid = m.machine.nextPid then []
    else [m'.tasks.pageDirectory m.machine.nextPid]
  let destroyed := m'.destroyedProcesses.drop m.machine.destroyedProcesses.length
  (created ++ m.directories).diff (destroyed.map m.machine.tasks.pageDirectory)

def step (m : Spaces) : SpaceLabel → Option Spaces
  | .task l => do
      let m' ← m.machine.step l
      some { machine := m', directories := m.directoriesAfter m' }
  | .exec outcome => do
      let c ← m.machine.tasks.current
      if m.machine.code c = [] then
        match (m.machine.tasks.threads c).process with
        | some p => some (m.sysExec p outcome)
        | none => some m
      else none

/-- `paging_create_directory` returns a directory that does not exist yet. -/
def fresh (m : Spaces) : SpaceLabel → Bool
  | .task .run => match m.machine.head with
      | some (.body (.processCreate d)) => !m.directories.contains d
      | _ => true
  | .task _ => true
  | .exec outcome => outcome.newDirectory.all fun d => !m.directories.contains d

/-- What `permitted` asks of a program. -/
def permitted (m : Spaces) : SpaceLabel → Bool
  | .task l => m.machine.permitted l
  | .exec _ => true

/-- A thread is passed to `thread_add` and to `thread_destroy` only while its process exists. -/
def usesLive (m : Spaces) : SpaceLabel → Bool
  | .task .run => match m.machine.head with
      | some i => (i.uses m.machine.tasks.zombieList).all fun t =>
          (m.machine.tasks.threads t).process.all fun p => decide (m.machine.Live p)
      | none => true
  | _ => true

/-- The directory in CR3 exists, and while a thread of a process is current, CR3 and the TSS hold its
process's directory and the top of its kernel stack. -/
structure Loaded (m : Spaces) : Prop where
  exists_directory : ∃ d ∈ m.directories, m.machine.tasks.cr3 = virtToPhys d
  cr3 : ∀ c p, m.machine.tasks.current = some c → (m.machine.tasks.threads c).process = some p →
    m.machine.tasks.cr3 = virtToPhys (m.machine.tasks.pageDirectory p)
  tssEsp0 : ∀ c p, m.machine.tasks.current = some c → (m.machine.tasks.threads c).process = some p →
    m.machine.tasks.tssEsp0 =
      ((m.machine.tasks.threads c).kernelStack + kernelStackSize) % wordModulus

variable {m m' : Spaces} {kernelDirectory : Nat} {l : SpaceLabel}

/-! ## Every run -/

/-- What a run keeps. -/
structure SpacesInv (kernelDirectory : Nat) (m : Spaces) : Prop where
  inv : Machine.MachineInv m.machine
  rosters : Machine.Rosters m.machine
  pids : 0 < m.machine.nextPid
  hosted : ∀ t, t ≠ idleThread → ∃ p, (m.machine.tasks.threads t).process = some p
  /-- The process of an added thread exists. -/
  added : ∀ t p, (m.machine.tasks.threads t).groupNode = true →
    (m.machine.tasks.threads t).process = some p → m.machine.Live p
  nodup : m.directories.Nodup
  kernel : kernelDirectory ∈ m.directories
  owned : ∀ p, m.machine.Live p → m.machine.tasks.pageDirectory p ∈ m.directories ∧
    m.machine.tasks.pageDirectory p ≠ kernelDirectory
  distinct : ∀ p q, m.machine.Live p → m.machine.Live q →
    m.machine.tasks.pageDirectory p = m.machine.tasks.pageDirectory q → p = q
  origin : m.machine.tasks.cr3 = virtToPhys kernelDirectory ∨
    ∃ p, m.machine.Live p ∧ m.machine.tasks.cr3 = virtToPhys (m.machine.tasks.pageDirectory p)
  context : ∀ c p, m.machine.tasks.current = some c →
    (m.machine.tasks.threads c).process = some p →
    m.machine.tasks.cr3 = virtToPhys (m.machine.tasks.pageDirectory p) ∧
      m.machine.tasks.tssEsp0 =
        ((m.machine.tasks.threads c).kernelStack + kernelStackSize) % wordModulus

theorem SpacesInv.loaded (h : SpacesInv kernelDirectory m) : Loaded m where
  exists_directory := by
    rcases h.origin with he | ⟨p, hp, he⟩
    · exact ⟨kernelDirectory, h.kernel, he⟩
    · exact ⟨_, (h.owned p hp).1, he⟩
  cr3 c p hc hp := (h.context c p hc hp).1
  tssEsp0 c p hc hp := (h.context c p hc hp).2

/-- The current thread, idle or with a process that exists. -/
theorem SpacesInv.current_live (h : SpacesInv kernelDirectory m) {c : ThreadId} {p : ProcessId}
    (hc : m.machine.tasks.current = some c) (hp : (m.machine.tasks.threads c).process = some p) :
    (m.machine.tasks.threads c).groupNode = true ∧ m.machine.Live p := by
  have hidle : c ≠ idleThread := by
    rintro rfl
    rw [h.inv.inv.idle_process] at hp
    cases hp
  have hrun := (h.inv.runs c hc).resolve_left hidle
  have hg : (m.machine.tasks.threads c).groupNode = true := by
    by_contra hg
    rcases h.inv.inv.unadded c hidle (by simpa using hg) with hst | hst
    · rw [hrun] at hst
      cases hst
    · rw [hrun] at hst
      cases hst
  exact ⟨hg, h.added c p hg hp⟩

section Instruction

variable {n : Machine} {c : ThreadId} {i : Instr} {rest : List Instr}

/-- The directories `ds` are those of the machine `n`: the kernel's, and one for each process. -/
structure Assigned (kernelDirectory : Nat) (n : Machine) (ds : List Nat) : Prop where
  nodup : ds.Nodup
  kernel : kernelDirectory ∈ ds
  owned : ∀ p, n.Live p → n.tasks.pageDirectory p ∈ ds ∧ n.tasks.pageDirectory p ≠ kernelDirectory
  distinct : ∀ p q, n.Live p → n.Live q → n.tasks.pageDirectory p = n.tasks.pageDirectory q → p = q

/-- After an instruction the right context is loaded, for whatever it does to the processes. -/
theorem SpacesInv.reload {ds : List Nat} (h : SpacesInv kernelDirectory m)
    (hc : m.machine.tasks.current = some c) (hcode : m.machine.code c = i :: rest)
    (hstep : Machine.ContextStep m.machine i n) (hinv : Machine.MachineInv n)
    (hrosters : Machine.Rosters n) (hpids : 0 < n.nextPid)
    (hhosted : ∀ t, t ≠ idleThread → ∃ p, (n.tasks.threads t).process = some p)
    (hdirs : Assigned kernelDirectory n ds)
    (hprocess : ∀ u < m.machine.nextTid,
      (n.tasks.threads u).process = (m.machine.tasks.threads u).process)
    (hcurrent : ∀ u, n.tasks.current = some u → u < m.machine.nextTid)
    (hadded : ∀ t p, (n.tasks.threads t).groupNode = true → (n.tasks.threads t).process = some p →
      n.Live p ∧ p < m.machine.nextPid)
    (hlive : i.destroys m.machine.tasks.zombieList = none → ∀ p, m.machine.Live p → n.Live p)
    (hterm : ∀ t, i.destroys m.machine.tasks.zombieList = some t →
      (m.machine.tasks.threads t).state = .terminated) : SpacesInv kernelDirectory ⟨n, ds⟩ := by
  have hcurrent_live : ∀ d p, n.tasks.current = some d → (n.tasks.threads d).process = some p →
      n.Live p ∧ p < m.machine.nextPid := by
    intro d p hd hp
    have hidle : d ≠ idleThread := by
      rintro rfl
      rw [hinv.inv.idle_process] at hp
      cases hp
    have hrun := (hinv.runs d hd).resolve_left hidle
    refine hadded d p ?_ hp
    by_contra hg
    rcases hinv.inv.unadded d hidle (by simpa using hg) with hst | hst
    all_goals
      rw [hrun] at hst
      cases hst
  have hcontext : ∀ d p, n.tasks.current = some d → (n.tasks.threads d).process = some p →
      n.tasks.cr3 = virtToPhys (n.tasks.pageDirectory p) ∧
        n.tasks.tssEsp0 = ((n.tasks.threads d).kernelStack + kernelStackSize) % wordModulus := by
    intro d p hd hp
    have hlt := hcurrent d hd
    rw [hstep.pageDirectory p (hcurrent_live d p hd hp).2]
    rw [hprocess d hlt] at hp
    rcases hstep.context with ⟨hsame, hcr3, htss⟩ | ⟨hnone, next, hnext, htss, hcr3⟩
    · rw [hsame] at hd
      obtain ⟨hcr3', htss'⟩ := h.context d p hd hp
      refine ⟨hcr3.trans hcr3', ?_⟩
      rw [htss, htss', hstep.kernelStack d hlt]
      -- The thread that is destroyed has terminated, so it is not the current one.
      intro hdestroy
      have hdead := hterm d hdestroy
      rcases h.inv.runs d hd with hidle | hrun
      · rw [hidle, h.inv.inv.idle_process] at hp
        cases hp
      · rw [hrun] at hdead
        cases hdead
    · rw [hd] at hnext
      cases hnext
      rw [hp] at hcr3
      refine ⟨hcr3, ?_⟩
      rw [htss, hstep.kernelStack d hlt (by simp [hnone])]
  refine ⟨hinv, hrosters, hpids, hhosted, fun t p hg hp => (hadded t p hg hp).1, hdirs.nodup,
    hdirs.kernel, hdirs.owned, hdirs.distinct, ?_, hcontext⟩
  obtain ⟨d, hd⟩ := hinv.inv.current_some
  cases hp : (n.tasks.threads d).process with
  | some p => exact .inr ⟨p, (hcurrent_live d p hd hp).1, (hcontext d p hd hp).1⟩
  | none =>
      -- CR3 is left alone, and no process is destroyed.
      have hlt := hcurrent d hd
      rw [hprocess d hlt] at hp
      have hidle : d = idleThread := by
        by_contra hne
        obtain ⟨p, hp'⟩ := h.hosted d hne
        rw [hp] at hp'
        cases hp'
      have hkept : i.destroys m.machine.tasks.zombieList = none ∧
          n.tasks.cr3 = m.machine.tasks.cr3 := by
        rcases hstep.context with ⟨hsame, hcr3, -⟩ | ⟨hnone, next, hnext, -, hcr3⟩
        · refine ⟨?_, hcr3⟩
          rw [hsame, hc, hidle] at hd
          have hi := h.inv.idle_code i (by simp [← Option.some.inj hd, hcode])
          cases i <;> first | rfl | cases hi
        · rw [hd] at hnext
          cases hnext
          rw [hp] at hcr3
          exact ⟨hnone, hcr3⟩
      rw [hkept.2]
      rcases h.origin with he | ⟨p, hlivep, he⟩
      · exact .inl he
      · refine .inr ⟨p, hlive hkept.1 p hlivep, ?_⟩
        rw [hstep.pageDirectory p hlivep.2.1]
        exact he

/-- Where no process is created or destroyed, the directories stay as they are. -/
theorem SpacesInv.directories_kept (h : SpacesInv kernelDirectory m)
    (hpid : n.nextPid = m.machine.nextPid)
    (hdead : n.destroyedProcesses = m.machine.destroyedProcesses)
    (hpd : ∀ p < m.machine.nextPid, n.tasks.pageDirectory p = m.machine.tasks.pageDirectory p) :
    (∀ p, n.Live p ↔ m.machine.Live p) ∧ Assigned kernelDirectory n (m.directoriesAfter n) := by
  have hlive : ∀ p, n.Live p ↔ m.machine.Live p := by
    intro p
    unfold Machine.Live
    rw [hpid, hdead]
  have hdirs : m.directoriesAfter n = m.directories := by simp [directoriesAfter, hpid, hdead]
  rw [hdirs]
  refine ⟨hlive, h.nodup, h.kernel, fun p hp => ?_, fun p q hp hq => ?_⟩
  · have hp := (hlive p).mp hp
    rw [hpd p hp.2.1]
    exact h.owned p hp
  · have hp := (hlive p).mp hp
    have hq := (hlive q).mp hq
    rw [hpd p hp.2.1, hpd q hq.2.1]
    exact h.distinct p q hp hq

/-- `process_create` takes a directory that did not exist. -/
theorem SpacesInv.directories_created (h : SpacesInv kernelDirectory m) {d : Nat}
    (hfresh : d ∉ m.directories) (hpid : n.nextPid = m.machine.nextPid + 1)
    (hdead : n.destroyedProcesses = m.machine.destroyedProcesses)
    (hpd : n.tasks.pageDirectory =
      Function.update m.machine.tasks.pageDirectory m.machine.nextPid d) :
    Assigned kernelDirectory n (m.directoriesAfter n) := by
  have hdirs : m.directoriesAfter n = d :: m.directories := by
    simp [directoriesAfter, hpid, hdead, hpd]
  have hcases : ∀ p, n.Live p → p = m.machine.nextPid ∧ n.tasks.pageDirectory p = d ∨
      m.machine.Live p ∧ n.tasks.pageDirectory p = m.machine.tasks.pageDirectory p := by
    rintro p ⟨hpos, hlt, hp⟩
    rw [hpid] at hlt
    rw [hdead] at hp
    by_cases he : p = m.machine.nextPid
    · subst he
      exact .inl ⟨rfl, by rw [hpd, Function.update_self]⟩
    · exact .inr ⟨⟨hpos, Nat.lt_of_le_of_ne (Nat.le_of_lt_succ hlt) he, hp⟩,
        by rw [hpd, Function.update_of_ne he]⟩
  rw [hdirs]
  refine ⟨List.nodup_cons.mpr ⟨hfresh, h.nodup⟩, List.mem_cons_of_mem _ h.kernel, fun p hp => ?_,
    fun p q hp hq he => ?_⟩
  · rcases hcases p hp with ⟨-, hd⟩ | ⟨hold, hd⟩
    · rw [hd]
      exact ⟨List.mem_cons_self, fun e => hfresh (e ▸ h.kernel)⟩
    · rw [hd]
      exact ⟨List.mem_cons_of_mem _ (h.owned p hold).1, (h.owned p hold).2⟩
  · rcases hcases p hp with ⟨hp, hdp⟩ | ⟨hp, hdp⟩
    · rcases hcases q hq with ⟨hq, -⟩ | ⟨hq, hdq⟩
      · exact hp.trans hq.symm
      · rw [hdp, hdq] at he
        exact absurd (he ▸ (h.owned q hq).1) hfresh
    · rcases hcases q hq with ⟨-, hdq⟩ | ⟨hq, hdq⟩
      · rw [hdp, hdq] at he
        exact absurd (he ▸ (h.owned p hp).1) hfresh
      · rw [hdp, hdq] at he
        exact h.distinct p q hp hq he

/-- `process_destroy` frees the directory of a process that exists, and no other. -/
theorem SpacesInv.directories_freed (h : SpacesInv kernelDirectory m) {t : ThreadId}
    (hd : Machine.Destroys t m.machine n)
    (hlive : ∀ p, (m.machine.tasks.threads t).process = some p → m.machine.Live p)
    (hpd : ∀ p < m.machine.nextPid, n.tasks.pageDirectory p = m.machine.tasks.pageDirectory p) :
    Assigned kernelDirectory n (m.directoriesAfter n) := by
  have hdirs : m.directoriesAfter n =
      m.directories.diff ((m.machine.freed t).map m.machine.tasks.pageDirectory) := by
    simp [directoriesAfter, hd.nextPid, hd.destroyedProcesses]
  have hcases : ∀ p, n.Live p → m.machine.Live p ∧ p ∉ m.machine.freed t := by
    rintro p ⟨hpos, hlt, hp⟩
    rw [hd.nextPid] at hlt
    rw [hd.destroyedProcesses, List.mem_append, not_or] at hp
    exact ⟨⟨hpos, hlt, hp.1⟩, hp.2⟩
  have hfreed : ∀ p, p ∈ m.machine.freed t → m.machine.Live p := fun p hp =>
    hlive p (Machine.mem_freed.mp hp).1
  have hstays : ∀ d ∈ m.directories,
      (∀ p ∈ m.machine.freed t, m.machine.tasks.pageDirectory p ≠ d) →
      d ∈ m.directories.diff ((m.machine.freed t).map m.machine.tasks.pageDirectory) := by
    intro d hmem hne
    rw [h.nodup.mem_sdiff_iff]
    refine ⟨hmem, fun hmap => ?_⟩
    obtain ⟨p, hp, he⟩ := List.mem_map.mp hmap
    exact hne p hp he
  rw [hdirs]
  refine ⟨h.nodup.diff, hstays _ h.kernel fun p hp => (h.owned p (hfreed p hp)).2,
    fun p hp => ?_, fun p q hp hq he => ?_⟩
  · obtain ⟨hold, hnot⟩ := hcases p hp
    rw [hpd p hold.2.1]
    refine ⟨hstays _ (h.owned p hold).1 fun q hq he => ?_, (h.owned p hold).2⟩
    exact hnot (h.distinct q p (hfreed q hq) hold he ▸ hq)
  · obtain ⟨hp, -⟩ := hcases p hp
    obtain ⟨hq, -⟩ := hcases q hq
    rw [hpd p hp.2.1, hpd q hq.2.1] at he
    exact h.distinct p q hp hq he

theorem SpacesInv.fires (h : SpacesInv kernelDirectory m) (hc : m.machine.tasks.current = some c)
    (hcode : m.machine.code c = i :: rest) (hfires : Machine.Fires m.machine c rest i n)
    (hinv : Machine.MachineInv n)
    (hfresh : ∀ d, i = .body (.processCreate d) → d ∉ m.directories)
    (huses : ∀ t p, i.uses m.machine.tasks.zombieList = some t →
      (m.machine.tasks.threads t).process = some p → m.machine.Live p) :
    SpacesInv kernelDirectory ⟨n, m.directoriesAfter n⟩ := by
  have hcontext := hfires.contextStep
  have hroster := h.inv.rosterStep hc hcode hfires
  have hrosters : Machine.Rosters n := h.rosters.step hroster fun t p hi hp =>
    (huses t p (by rw [hi]; rfl) hp).2.1
  have hlt := h.inv.current_lt hc
  cases hroster with
  | same hcreates hdestroys hun =>
      obtain ⟨hlive, hdirs⟩ :=
        h.directories_kept hun.nextPid hun.destroyedProcesses hcontext.pageDirectory
      refine h.reload hc hcode hcontext hinv hrosters (hun.nextPid ▸ h.pids) (fun t ht => ?_) hdirs
        (fun u _ => hun.process u) (fun u hu => hun.nextTid ▸ hinv.current_lt hu)
        (fun t p hg hp => ?_) (fun _ p => (hlive p).mpr) (by simp [hdestroys])
      · rw [hun.process]
        exact h.hosted t ht
      · rw [hun.groupNode] at hg
        rw [hun.process] at hp
        have hp := h.added t p hg hp
        exact ⟨(hlive p).mpr hp, hp.2.1⟩
  | @add t p s _ htp _ hs hun =>
      have hprocess : ∀ u, (n.tasks.threads u).process = (m.machine.tasks.threads u).process := by
        intro u
        rw [hun.process]
        simp only [hs, Tasks.setGroup_threads, Tasks.modify_threads]
        split <;> simp_all
      have hnode : ∀ u, u ≠ t →
          (n.tasks.threads u).groupNode = (m.machine.tasks.threads u).groupNode := by
        intro u hu
        rw [hun.groupNode]
        simp [hs, Tasks.modify_threads, hu]
      obtain ⟨hlive, hdirs⟩ :=
        h.directories_kept hun.nextPid hun.destroyedProcesses hcontext.pageDirectory
      refine h.reload hc hcode hcontext hinv hrosters (hun.nextPid ▸ h.pids) (fun t ht => ?_) hdirs
        (fun u _ => hprocess u) (fun u hu => hun.nextTid ▸ hinv.current_lt hu)
        (fun u r hg hp => ?_) (fun _ p => (hlive p).mpr) (by simp [Instr.destroys])
      · rw [hprocess]
        exact h.hosted t ht
      · rw [hprocess] at hp
        have hr : m.machine.Live r := by
          by_cases hut : u = t
          · subst hut
            exact huses u r rfl hp
          · exact h.added u r (hnode u hut ▸ hg) hp
        exact ⟨(hlive r).mpr hr, hr.2.1⟩
  | @create p kernelStack _ hun =>
      have hthreads : ∀ u, u ≠ m.machine.nextTid →
          (n.tasks.threads u).process = (m.machine.tasks.threads u).process ∧
            (n.tasks.threads u).groupNode = (m.machine.tasks.threads u).groupNode := by
        intro u hu
        rw [hun.process, hun.groupNode]
        simp [Tasks.modify_threads, hu]
      have hnew : (n.tasks.threads m.machine.nextTid).groupNode = false ∧
          (n.tasks.threads m.machine.nextTid).process = some p := by
        rw [hun.process, hun.groupNode]
        simp [Thread.created]
      have hcurrent : n.tasks.current = m.machine.tasks.current := by
        cases hfires
        rfl
      obtain ⟨hlive, hdirs⟩ :=
        h.directories_kept hun.nextPid hun.destroyedProcesses hcontext.pageDirectory
      refine h.reload hc hcode hcontext hinv hrosters (hun.nextPid ▸ h.pids) (fun t ht => ?_) hdirs
        (fun u hu => (hthreads u (Nat.ne_of_lt hu)).1) (fun u hu => ?_) (fun t r hg hp => ?_)
        (fun _ p => (hlive p).mpr) (by simp [Instr.destroys])
      · by_cases htn : t = m.machine.nextTid
        · exact ⟨p, htn ▸ hnew.2⟩
        · rw [(hthreads t htn).1]
          exact h.hosted t ht
      · rw [hcurrent] at hu
        exact h.inv.current_lt hu
      · have htn : t ≠ m.machine.nextTid := by
          rintro rfl
          rw [hnew.1] at hg
          cases hg
        obtain ⟨hp', hg'⟩ := hthreads t htn
        have hr := h.added t r (hg' ▸ hg) (hp' ▸ hp)
        exact ⟨(hlive r).mpr hr, hr.2.1⟩
  | @processCreate d _ hun =>
      have hpd : n.tasks.pageDirectory =
          Function.update m.machine.tasks.pageDirectory m.machine.nextPid d := by
        cases hfires
        rfl
      have hdirs := h.directories_created (hfresh d rfl) hun.nextPid hun.destroyedProcesses hpd
      have hlive : ∀ p, m.machine.Live p → n.Live p := by
        rintro p ⟨hpos, hp, hdead⟩
        unfold Machine.Live
        rw [hun.nextPid, hun.destroyedProcesses]
        exact ⟨hpos, Nat.lt_succ_of_lt hp, hdead⟩
      refine h.reload hc hcode hcontext hinv hrosters ?_ (fun t ht => ?_) hdirs
        (fun u _ => hun.process u) (fun u hu => hun.nextTid ▸ hinv.current_lt hu)
        (fun t r hg hp => ?_) (fun _ => hlive) (by simp [Instr.destroys])
      · rw [hun.nextPid]
        exact Nat.succ_pos _
      · rw [hun.process]
        exact h.hosted t ht
      · rw [hun.groupNode] at hg
        rw [hun.process] at hp
        have hr := h.added t r hg hp
        exact ⟨hlive r hr, hr.2.1⟩
  | @destroy _ t _ hcreates hdestroys hd =>
      have huse : i.uses m.machine.tasks.zombieList = some t := by
        cases i <;> first | exact hdestroys | cases hdestroys
      have hdirs := h.directories_freed hd (fun p => huses t p huse) hcontext.pageDirectory
      refine h.reload hc hcode hcontext hinv hrosters (hd.nextPid ▸ h.pids) (fun t ht => ?_) hdirs
        (fun u _ => hd.process u) (fun u hu => hd.nextTid ▸ hinv.current_lt hu)
        (fun u r hg hp => ?_) (by simp [hdestroys]) fun u hu => ?_
      · rw [hd.process]
        exact h.hosted t ht
      · rw [hd.groupNode] at hg
        rw [hd.process] at hp
        split at hg
        · cases hg
        · rename_i hut
          obtain ⟨hpos, hr, hdead⟩ := h.added u r hg hp
          refine ⟨⟨hpos, hd.nextPid ▸ hr, ?_⟩, hr⟩
          rw [hd.destroyedProcesses, List.mem_append, not_or]
          refine ⟨hdead, fun hfreed => ?_⟩
          -- `u` is still on the list that is said to be empty.
          have hnode := h.rosters.emptied (Machine.mem_freed.mp hfreed).2 hut hp
          rw [hnode] at hg
          cases hg
      · rw [hdestroys] at hu
        exact Option.some.inj hu ▸ hd.terminated

end Instruction

/-! ## `sys_exec` -/

section Exec

variable {c : ThreadId} {p : ProcessId}

/-- `Live` and the thread records do not depend on the directories. -/
theorem machineInv_attach {n : Machine} (hn : Machine.MachineInv n) (pageDirectory : ProcessId → Nat)
    (cr3 : Nat) : Machine.MachineInv
      { n with tasks := { n.tasks with pageDirectory := pageDirectory, cr3 := cr3 } } :=
  { hn with inv := { hn.inv with }, runs := hn.runs }

/-- A failed `sys_exec` puts the old directory back and destroys the new one. -/
theorem sysExec_failed (outcome : ExecOutcome) (h : ∀ d, outcome ≠ .done d) :
    m.sysExec p outcome = m := by
  cases outcome with
  | rejected => rfl
  | notLoaded d => simp [sysExec]
  | noStack d => simp [sysExec]
  | done d => exact absurd rfl (h d)

theorem SpacesInv.sysExec (h : SpacesInv kernelDirectory m)
    (hc : m.machine.tasks.current = some c) (hp : (m.machine.tasks.threads c).process = some p)
    {outcome : ExecOutcome} (hfresh : m.fresh (.exec outcome) = true) :
    SpacesInv kernelDirectory (m.sysExec p outcome) := by
  by_cases hdone : ∃ d, outcome = .done d
  · obtain ⟨d, rfl⟩ := hdone
    have hnew : d ∉ m.directories := by simpa [fresh, ExecOutcome.newDirectory] using hfresh
    have hlive := (h.current_live hc hp).2
    obtain ⟨hold, hkernel⟩ := h.owned p hlive
    have hne : d ≠ m.machine.tasks.pageDirectory p := fun e => hnew (e ▸ hold)
    have hdirs : (d :: m.directories).erase (m.machine.tasks.pageDirectory p) =
        d :: m.directories.erase (m.machine.tasks.pageDirectory p) := by
      simp [hne]
    have hstays : ∀ e ∈ m.directories, e ≠ m.machine.tasks.pageDirectory p →
        e ∈ d :: m.directories.erase (m.machine.tasks.pageDirectory p) := fun e he hne =>
      List.mem_cons_of_mem _ ((List.mem_erase_of_ne hne).mpr he)
    -- Every other process keeps its directory, which is not the new one.
    have hother : ∀ r, r ≠ p → Function.update m.machine.tasks.pageDirectory p d r =
        m.machine.tasks.pageDirectory r := fun r hr => Function.update_of_ne hr ..
    have hself : Function.update m.machine.tasks.pageDirectory p d p = d :=
      Function.update_self ..
    refine ⟨machineInv_attach h.inv _ _, ⟨h.rosters.listed, h.rosters.named⟩, h.pids, h.hosted,
      h.added, ?_, ?_, fun r hr => ?_, fun r q hr hq he => ?_, .inr ⟨p, hlive, ?_⟩,
      fun u r hu hr => ?_⟩
    · show ((d :: m.directories).erase _).Nodup
      rw [hdirs]
      exact List.nodup_cons.mpr ⟨fun hmem => hnew (List.mem_of_mem_erase hmem), h.nodup.erase _⟩
    · show kernelDirectory ∈ (d :: m.directories).erase _
      rw [hdirs]
      exact hstays _ h.kernel hkernel.symm
    · show Function.update m.machine.tasks.pageDirectory p d r ∈ (d :: m.directories).erase _ ∧
        Function.update m.machine.tasks.pageDirectory p d r ≠ kernelDirectory
      rw [hdirs]
      by_cases hrp : r = p
      · subst hrp
        rw [hself]
        exact ⟨List.mem_cons_self, fun e => hnew (e ▸ h.kernel)⟩
      · rw [hother r hrp]
        exact ⟨hstays _ (h.owned r hr).1 fun e => hrp (h.distinct r p hr hlive e),
          (h.owned r hr).2⟩
    · have he : Function.update m.machine.tasks.pageDirectory p d r =
          Function.update m.machine.tasks.pageDirectory p d q := he
      by_cases hrp : r = p
      · by_cases hqp : q = p
        · exact hrp.trans hqp.symm
        · rw [hrp, hself, hother q hqp] at he
          exact absurd (he ▸ (h.owned q hq).1) hnew
      · by_cases hqp : q = p
        · rw [hqp, hself, hother r hrp] at he
          exact absurd (he ▸ (h.owned r hr).1) hnew
        · rw [hother r hrp, hother q hqp] at he
          exact h.distinct r q hr hq he
    · show virtToPhys d = virtToPhys (Function.update m.machine.tasks.pageDirectory p d p)
      rw [hself]
    · have hu : m.machine.tasks.current = some u := hu
      have hr : (m.machine.tasks.threads u).process = some r := hr
      obtain rfl : c = u := Option.some.inj (hc.symm.trans hu)
      obtain rfl : p = r := Option.some.inj (hp.symm.trans hr)
      refine ⟨?_, (h.context c p hu hr).2⟩
      show virtToPhys d = virtToPhys (Function.update m.machine.tasks.pageDirectory p d p)
      rw [hself]
  · rw [sysExec_failed outcome fun d e => hdone ⟨d, e⟩]
    exact h

end Exec

/-! ## Runs -/

theorem SpacesInv.step (h : SpacesInv kernelDirectory m) (hok : m.permitted l = true)
    (hfresh : m.fresh l = true) (huses : m.usesLive l = true) (hs : m.step l = some m') :
    SpacesInv kernelDirectory m' := by
  cases l with
  | task l =>
      obtain ⟨n, hn, hm'⟩ := Option.bind_eq_some_iff.mp hs
      cases hm'
      have hinv := h.inv.step hok hn
      obtain ⟨c, hc, hmoves⟩ := Machine.step_moves hn
      -- Only an instruction changes more than the code and the interrupt flag.
      have hkept : n.nextPid = m.machine.nextPid →
          n.destroyedProcesses = m.machine.destroyedProcesses →
          SpacesInv kernelDirectory ⟨n, m.directories⟩ →
          SpacesInv kernelDirectory ⟨n, m.directoriesAfter n⟩ := by
        intro hpid hdead hkeeps
        have hdirs : m.directoriesAfter n = m.directories := by
          simp [directoriesAfter, hpid, hdead]
        rw [hdirs]
        exact hkeeps
      cases hmoves with
      | @run i rest _ hcode hfires =>
          have hhead : m.machine.head = some i := by simp [Machine.head, hc, hcode]
          refine h.fires hc hcode hfires hinv (fun d hi => ?_) fun t p hi hp => ?_
          · simpa [fresh, hhead, hi] using hfresh
          · simpa [usesLive, hhead, hi, hp] using huses
      | client _ _ _ hfires =>
          cases hfires
          exact hkept rfl rfl { h with inv := hinv, rosters := { h.rosters with } }
      | setFlag | timer =>
          exact hkept rfl rfl { h with inv := hinv, rosters := { h.rosters with } }
  | exec outcome =>
      obtain ⟨c, hc, hexec⟩ := Option.bind_eq_some_iff.mp hs
      split at hexec
      · cases hp : (m.machine.tasks.threads c).process with
        | none =>
            rw [hp] at hexec
            cases hexec
            exact h
        | some p =>
            rw [hp] at hexec
            cases hexec
            exact h.sysExec hc hp hfresh
      · cases hexec

theorem boot_spacesInv (idleStack reaperStack esp0 : Nat) {pageDirectory : Nat}
    (hne : kernelDirectory ≠ pageDirectory) :
    SpacesInv kernelDirectory (boot idleStack reaperStack kernelDirectory pageDirectory esp0) := by
  have hprocess := Machine.boot_processInv idleStack reaperStack pageDirectory esp0
    (virtToPhys kernelDirectory)
  have hlive : ∀ p, (boot idleStack reaperStack kernelDirectory pageDirectory esp0).machine.Live p →
      p = reaperProcess := fun p hp => Nat.le_antisymm (Nat.le_of_lt_succ hp.2.1) hp.1
  have hdirectory : ∀ p, p = reaperProcess →
      (boot idleStack reaperStack kernelDirectory pageDirectory esp0).machine.tasks.pageDirectory p =
        pageDirectory := by
    rintro p rfl
    rfl
  refine ⟨hprocess.inv, hprocess.rosters, Nat.zero_lt_two, fun t ht => ?_, fun t p hg hp => ?_, ?_,
    ?_, fun p hp => ?_, fun p q hp hq _ => (hlive p hp).trans (hlive q hq).symm, .inl rfl,
    fun c p hc hp => ?_⟩
  · by_cases hr : t = reaperThread
    · subst hr
      exact ⟨reaperProcess, rfl⟩
    · exact ⟨0, by simp [boot, Machine.boot, ht, hr, Thread.created]⟩
  · obtain rfl : t = reaperThread := by
      by_contra hr
      by_cases hi : t = idleThread
      · subst hi
        cases hp
      · simp [boot, Machine.boot, hi, hr, Thread.created] at hg
    obtain rfl : reaperProcess = p := Option.some.inj hp
    exact ⟨Nat.zero_lt_one, Nat.lt_succ_self 1, List.not_mem_nil⟩
  · simp [boot, hne.symm]
  · simp [boot]
  · rw [hdirectory p (hlive p hp)]
    exact ⟨List.mem_cons_self, hne.symm⟩
  · cases hc
    cases hp

/-- A run without `sys_exec`. -/
def tasks (ls : List Label) : List SpaceLabel := ls.map .task

/-- In every run in which `thread_add` and `thread_destroy` find the process of their thread alive,
CR3 holds a directory that exists, the current process's one, and the TSS its thread's stack. -/
theorem address_space_loaded {idleStack reaperStack pageDirectory esp0 : Nat} {ls : List SpaceLabel}
    (hne : kernelDirectory ≠ pageDirectory)
    (hrun : Run step (fun m l => m.permitted l = true ∧ m.fresh l = true ∧ m.usesLive l = true)
      (boot idleStack reaperStack kernelDirectory pageDirectory esp0) ls m) : Loaded m := by
  have hinv : SpacesInv kernelDirectory m := by
    apply hrun.invariant
    · exact boot_spacesInv _ _ _ hne
    · intro m l m' h hok hs
      exact h.step hok.1 hok.2.1 hok.2.2 hs
  exact hinv.loaded

/-- Thread 2 of process 2 fails one `sys_exec`, completes another and exits; thread 3 of another
process joins it, which destroys process 2. -/
theorem address_space_loaded_joined :
    ∃ m, exec step (fun m l => m.permitted l = true ∧ m.fresh l = true ∧ m.usesLive l = true)
      (boot 0 0 0xC0101000 0xC0400000 0)
      (tasks ([.client (.processCreate 0xC0401000), .run, .run,
          .client (.threadCreate 2 kernelStacksStart), .run, .run, .client (.threadAdd 2), .run,
          .run] ++ Machine.spawn 3 ++ [.setFlag true] ++ Machine.quantum ++
          [.run, .run, .run]) ++
        [.exec (.noStack 0xC0402000), .exec (.done 0xC0403000)] ++
        tasks [.client .threadKillCurrent, .run, .run, .client (.threadJoin 2), .run, .run]) =
        some m ∧
      (m.machine.tasks.current, m.machine.destroyedProcesses, m.directories) =
        (some 3, [2], [0xC0400000, 0xC0101000]) ∧ Loaded m := by
  have h : ((exec step (fun m l => m.permitted l = true ∧ m.fresh l = true ∧ m.usesLive l = true)
      (boot 0 0 0xC0101000 0xC0400000 0)
      (tasks ([.client (.processCreate 0xC0401000), .run, .run,
          .client (.threadCreate 2 kernelStacksStart), .run, .run, .client (.threadAdd 2), .run,
          .run] ++ Machine.spawn 3 ++ [.setFlag true] ++ Machine.quantum ++
          [.run, .run, .run]) ++
        [.exec (.noStack 0xC0402000), .exec (.done 0xC0403000)] ++
        tasks [.client .threadKillCurrent, .run, .run, .client (.threadJoin 2), .run, .run])).map
      fun m => (m.machine.tasks.current, m.machine.destroyedProcesses, m.directories)) =
        some (some 3, [2], [0xC0400000, 0xC0101000]) := by decide +kernel
  obtain ⟨m, hm, hend⟩ := Option.map_eq_some_iff.mp h
  exact ⟨m, hm, hend, address_space_loaded (by decide) (run_of_exec hm)⟩

/-- Thread 4 joins thread 2, the only added thread of process 2, and so destroys process 2 and its
directory; thread 3 of process 2 is added after that, and switched to. -/
theorem destroyed_directory_loaded :
    ¬ ∀ (idleStack reaperStack kernelDirectory pageDirectory esp0 : Nat) (ls : List SpaceLabel)
      (m : Spaces), kernelDirectory ≠ pageDirectory →
      Run step (fun m l => m.permitted l = true ∧ m.fresh l = true)
        (boot idleStack reaperStack kernelDirectory pageDirectory esp0) ls m → Loaded m := by
  intro hall
  have h : ((exec step (fun m l => m.permitted l = true ∧ m.fresh l = true)
      (boot 0 0 0xC0101000 0xC0400000 0)
      (tasks ([.client (.processCreate 0xC0401000), .run, .run,
          .client (.threadCreate 2 kernelStacksStart), .run, .run, .client (.threadAdd 2), .run,
          .run, .client (.threadCreate 2 kernelStacksStart), .run, .run] ++ Machine.spawn 4 ++
          [.setFlag true] ++ Machine.quantum ++ [.run, .run, .run, .client .threadKillCurrent,
          .run, .run, .client (.threadJoin 2), .run, .run, .run, .run, .setFlag false,
          .client (.threadAdd 3), .run, .run, .client .threadYield, .run, .run]))).map
      fun m => (m.directories, m.machine.tasks.cr3)) =
        some ([0xC0400000, 0xC0101000], virtToPhys 0xC0401000) := by decide +kernel
  obtain ⟨m, hm, hend⟩ := Option.map_eq_some_iff.mp h
  simp only [Prod.mk.injEq] at hend
  obtain ⟨hdirs, hcr3⟩ := hend
  obtain ⟨d, hd, hcr3'⟩ := (hall 0 0 _ _ 0 _ m (by decide) (run_of_exec hm)).exists_directory
  rw [hdirs] at hd
  rw [hcr3] at hcr3'
  simp only [List.mem_cons, List.not_mem_nil, or_false] at hd
  rcases hd with rfl | rfl
  · exact absurd hcr3' (by decide)
  · exact absurd hcr3' (by decide)

end Spaces

end Neox
