import Neox.Lib.Run
import Neox.Task.Scheduler

/-!
# Threads as interleaved programs

The blocking primitives of `mutex.c`, `semaphore.c`, `condvar.c` and `thread.c`, the reaper's loop
and the timer interrupt as one machine. What a thread still has to do inside the kernel is its
`code`, a list of instructions; an empty list is the thread's own program, which may call anything.

With interrupts off nothing else runs, so what a function does from its `interrupt_save` to its
first switch, restore or call is one instruction. Between two instructions a timer interrupt may
arrive when the interrupt flag is set. A thread that is switched away from keeps its remaining
instructions, with the flag values its frames have saved.
-/

namespace Neox

/-- A call made by a thread's own program, or by one of these functions inside another. -/
inductive Call where
  | mutexLock (mutex : Nat)
  | mutexUnlock (mutex : Nat)
  | semaphoreAcquire (sem : Nat)
  | semaphoreRelease (sem : Nat)
  | condvarWait (cv mutex : Nat)
  | condvarSignal (cv : Nat)
  | condvarBroadcast (cv : Nat)
  | threadBlock
  | threadUnblock (t : ThreadId)
  | threadYield
  | threadJoin (t : ThreadId)
  | threadDetach (t : ThreadId)
  | threadKillCurrent
  | threadAdd (t : ThreadId)
  | threadCreate (process : ProcessId) (kernelStack : Nat)
  | processCreate (pageDirectory : Nat)
  deriving DecidableEq, Repr

/-- The thread a `thread_join` names. -/
def Call.joined : Call → List ThreadId
  | .threadJoin t => [t]
  | _ => []

/-- The thread a `thread_detach` names. -/
def Call.detached : Call → List ThreadId
  | .threadDetach t => [t]
  | _ => []

inductive Instr where
  /-- Enter a function: its `ASSERT`s on shared state, with the caller's interrupt flag. -/
  | call (c : Call)
  /-- `interrupt_save`, then the function up to its first switch, restore or call. -/
  | body (c : Call)
  /-- Return to the caller, whose interrupt flag was `flag` at the call. -/
  | ret (c : Call) (flag : Bool)
  | interruptRestore (flag : Bool)
  | interruptEnable
  | waitQueueSleep (q : WaitQueue)
  /-- The rest of `thread_join` once its thread has terminated. -/
  | joinDestroy (t : ThreadId)
  | schedulerTick
  | reaperSleep
  | reaperDrain
  /-- One round of the reaper's `while`; `flag` is what the drain's `interrupt_save` returned. -/
  | reaperNext (flag : Bool)
  | panic
  deriving DecidableEq, Repr

/-- The tasking state, the objects the primitives work on, and every thread's instructions.
`joins` and `detaches` record the calls that got past their `ASSERT`, `destroyed` and
`destroyedProcesses` the applications of `thread_destroy` and `process_destroy`; nothing reads
them. A destroyed thread's record keeps its last contents. -/
structure Machine where
  tasks : Tasks
  owner : Nat → Option ThreadId
  count : Nat → Nat
  code : ThreadId → List Instr
  nextTid : ThreadId
  nextPid : ProcessId
  joins : List ThreadId
  detaches : List ThreadId
  destroyed : List ThreadId
  destroyedProcesses : List ProcessId

/-- The thread `reaper_init` creates. -/
abbrev reaperThread : ThreadId := 1

/-- The process `reaper_init` creates. -/
abbrev reaperProcess : ProcessId := 1

/-- The state `scheduler_start` and `reaper_init` leave. -/
def Machine.boot (idleStack reaperStack pageDirectory esp0 cr3 : Nat) : Machine where
  tasks := {
    threads := fun t =>
      if t = idleThread then Thread.idle idleStack
      else if t = reaperThread then
        { Thread.created reaperProcess reaperStack with
          detached := true, groupNode := true, schedNode := true }
      else Thread.created 0 0
    readyList := [reaperThread]
    zombieList := []
    waiting := fun _ => []
    group := fun p => if p = reaperProcess then [reaperThread] else []
    pageDirectory := fun p => if p = reaperProcess then pageDirectory else 0
    current := some idleThread
    quantumRemaining := schedulerQuantumTicks
    interruptEnabled := false
    reaperReady := true
    reaperThread := some reaperThread
    tssEsp0 := esp0
    cr3 := cr3 }
  owner _ := none
  count _ := 0
  code t := if t = reaperThread then [.interruptEnable, .reaperSleep] else []
  nextTid := 2
  nextPid := 2
  joins := []
  detaches := []
  destroyed := []
  destroyedProcesses := []

namespace Machine

/-- The machine after thread `c` has executed its first instruction: the tasking state is `s` and
`c` has `code` left. -/
def advance (m : Machine) (c : ThreadId) (code : List Instr) (s : Tasks) : Machine :=
  { m with tasks := s, code := Function.update m.code c code }

section Advance

variable (m : Machine) (c u : ThreadId) (code : List Instr) (s : Tasks)

@[simp] theorem advance_tasks : (m.advance c code s).tasks = s := rfl
@[simp] theorem advance_owner : (m.advance c code s).owner = m.owner := rfl
@[simp] theorem advance_count : (m.advance c code s).count = m.count := rfl
@[simp] theorem advance_nextTid : (m.advance c code s).nextTid = m.nextTid := rfl
@[simp] theorem advance_joins : (m.advance c code s).joins = m.joins := rfl
@[simp] theorem advance_detaches : (m.advance c code s).detaches = m.detaches := rfl
@[simp] theorem advance_destroyed : (m.advance c code s).destroyed = m.destroyed := rfl

@[simp] theorem advance_code_self : (m.advance c code s).code c = code := by
  simp [advance]

theorem advance_code_ne {c u : ThreadId} (h : u ≠ c) : (m.advance c code s).code u = m.code u := by
  simp [advance, h]

end Advance

/-- The instruction the current thread executes next. -/
def head (m : Machine) : Option Instr :=
  m.tasks.current.bind fun c => (m.code c).head?

/-! ## Destruction -/

/-- `thread_destroy`. The memory it frees is not part of this model. -/
def threadDestroy (s : Tasks) (t : ThreadId) : Option Tasks :=
  if s.interruptEnabled then none
  else if (s.threads t).state ≠ .terminated then none
  else
    let s' := match (s.threads t).process with
      | some p => if (s.threads t).groupNode then s.setGroup p ((s.group p).erase t) else s
      | none => s
    some (s'.modify t fun th => { th with groupNode := false, kernelStack := 0 })

/-- `thread_destroy`, then `process_destroy` when that was the process's last thread. -/
def destroy (m : Machine) (t : ThreadId) : Option Machine := do
  let s ← threadDestroy m.tasks t
  let m := { m with tasks := s, destroyed := m.destroyed ++ [t] }
  match (s.threads t).process with
  | some p =>
      if s.group p = [] then some { m with destroyedProcesses := m.destroyedProcesses ++ [p] }
      else some m
  | none => some m

/-! ## Calls -/

/-- The `ASSERT`s before `interrupt_save`. -/
def entryAssert (m : Machine) (c : ThreadId) : Call → Bool
  | .mutexUnlock mutex => m.owner mutex == some c
  | .threadUnblock t => (m.tasks.threads t).state == .blocked
  | .threadJoin t => !(m.tasks.threads t).detached
  | .threadDetach t => !(m.tasks.threads t).detached
  | _ => true

/-- Thread `c` calls `call`; `rest` is what it does after the return. -/
def enter (m : Machine) (c : ThreadId) (call : Call) (rest : List Instr) : Option Machine :=
  if m.entryAssert c call then
    some { m.advance c (.body call :: .ret call m.tasks.interruptEnabled :: rest) m.tasks with
      joins := m.joins ++ call.joined
      detaches := m.detaches ++ call.detached }
  else none

/-- `interrupt_save` and the critical section of `call`, made by thread `c`. -/
def body (m : Machine) (c : ThreadId) (rest : List Instr) : Call → Option Machine
  | .mutexLock mutex =>
      if m.owner mutex = none then
        some { m.advance c (.interruptRestore m.tasks.interruptEnabled :: rest)
          m.tasks.masked with
          owner := Function.update m.owner mutex (some c) }
      else do
        let s ← waitQueueSleep m.tasks.masked (.mutex mutex)
        some (m.advance c (.interruptRestore m.tasks.interruptEnabled :: rest) s)
  | .mutexUnlock mutex => do
      let (thread, s) ←
        waitQueueRemove m.tasks.masked (.mutex mutex)
      match thread with
      | some t => some { m.advance c (.interruptRestore m.tasks.interruptEnabled ::
          .call (.threadUnblock t) :: rest) s with owner := Function.update m.owner mutex (some t) }
      | none => some { m.advance c (.interruptRestore m.tasks.interruptEnabled :: rest) s with
          owner := Function.update m.owner mutex none }
  | .semaphoreAcquire sem =>
      if 0 < m.count sem then
        some { m.advance c (.interruptRestore m.tasks.interruptEnabled :: rest)
          m.tasks.masked with
          count := Function.update m.count sem (m.count sem - 1) }
      else do
        let s ← waitQueueSleep m.tasks.masked (.semaphore sem)
        some (m.advance c (.interruptRestore m.tasks.interruptEnabled :: rest) s)
  | .semaphoreRelease sem => do
      let (thread, s) ←
        waitQueueRemove m.tasks.masked (.semaphore sem)
      match thread with
      -- `thread_unblock(thread); return;`: this path has no `interrupt_restore`.
      | some t => some (m.advance c (.call (.threadUnblock t) :: rest) s)
      | none => some { m.advance c (.interruptRestore m.tasks.interruptEnabled :: rest) s with
          count := Function.update m.count sem ((m.count sem + 1) % wordModulus) }
  | .condvarWait cv mutex =>
      some (m.advance c (.call (.mutexUnlock mutex) :: .waitQueueSleep (.condvar cv) ::
        .interruptRestore m.tasks.interruptEnabled :: .call (.mutexLock mutex) :: rest)
        m.tasks.masked)
  | .condvarSignal cv => do
      let s ← waitQueueWake m.tasks.masked (.condvar cv)
      some (m.advance c (.interruptRestore m.tasks.interruptEnabled :: rest) s)
  | .condvarBroadcast cv => do
      let s ← waitQueueWakeAll m.tasks.masked (.condvar cv)
      some (m.advance c (.interruptRestore m.tasks.interruptEnabled :: rest) s)
  | .threadBlock => do
      let s ← threadBlock m.tasks
      some (m.advance c (.interruptRestore m.tasks.interruptEnabled :: rest) s)
  | .threadUnblock t => do
      let s ← schedulerAdd
        (m.tasks.masked.modify t fun th => { th with state := .ready }) t
      some (m.advance c (.interruptRestore m.tasks.interruptEnabled :: rest) s)
  | .threadYield => do
      let s ← threadYield m.tasks
      some (m.advance c (.interruptRestore m.tasks.interruptEnabled :: rest) s)
  | .threadJoin t =>
      let code := .joinDestroy t :: .interruptRestore m.tasks.interruptEnabled :: rest
      if (m.tasks.threads t).state = .terminated then
        some (m.advance c code m.tasks.masked)
      else do
        let s ← waitQueueSleep m.tasks.masked (.termination t)
        some (m.advance c code s)
  | .threadDetach t => do
      let s := m.tasks.masked.modify t
        fun th => { th with detached := true }
      let s ← if (s.threads t).state = .terminated then schedulerPushZombie s t else some s
      some (m.advance c (.interruptRestore m.tasks.interruptEnabled :: rest) s)
  | .threadKillCurrent => do
      let s ← threadKillCurrent m.tasks
      some (m.advance c (.panic :: rest) s)
  | .threadAdd t => do
      let s ← threadAdd m.tasks t
      some (m.advance c rest s)
  | .threadCreate process kernelStack =>
      let m' := m.advance c rest
        (m.tasks.modify m.nextTid fun _ => Thread.created process kernelStack)
      some { m' with
        code := Function.update m'.code m.nextTid [.interruptEnable], nextTid := m.nextTid + 1 }
  | .processCreate pageDirectory =>
      some { m.advance c rest { m.tasks.setGroup m.nextPid [] with
          pageDirectory := Function.update m.tasks.pageDirectory m.nextPid pageDirectory } with
        nextPid := m.nextPid + 1 }

/-! ## Steps -/

/-- One instruction of thread `c`, whose `code` is `i :: rest`. -/
def instr (m : Machine) (c : ThreadId) (rest : List Instr) : Instr → Option Machine
  | .call call => m.enter c call rest
  | .body call => m.body c rest call
  | .ret _ _ => some (m.advance c rest m.tasks)
  | .interruptRestore flag => some (m.advance c rest { m.tasks with interruptEnabled := flag })
  | .interruptEnable => some (m.advance c rest { m.tasks with interruptEnabled := true })
  | .waitQueueSleep q => do
      let s ← waitQueueSleep m.tasks q
      some (m.advance c rest s)
  | .joinDestroy t => do
      let m ← m.destroy t
      some (m.advance c rest m.tasks)
  | .schedulerTick => do
      let s ← schedulerTick m.tasks
      some (m.advance c rest s)
  | .reaperSleep => do
      let s ← waitQueueSleep m.tasks.masked .reaper
      some (m.advance c (.interruptRestore m.tasks.interruptEnabled :: .reaperDrain :: rest) s)
  | .reaperDrain =>
      some (m.advance c (.reaperNext m.tasks.interruptEnabled :: rest)
        m.tasks.masked)
  | .reaperNext flag => do
      let (zombie, s) ← schedulerNextZombie m.tasks
      match zombie with
      | none => some (m.advance c (.interruptRestore flag :: .reaperSleep :: rest) s)
      | some t =>
          if some t = s.reaperThread then none
          else do
            let m ← { m with tasks := s }.destroy t
            some (m.advance c (.reaperNext flag :: rest) m.tasks)
  | .panic => none

end Machine

/-- What happens next: the current thread executes an instruction, its own program makes a call or
executes `cli` or `sti`, or a timer interrupt arrives. -/
inductive Label where
  | run
  | client (c : Call)
  | setFlag (enabled : Bool)
  | timer
  deriving DecidableEq, Repr

/-- The calls made before the bootstrap context becomes the idle loop. -/
def Call.boot : Call → Bool
  | .threadAdd _ | .threadCreate _ _ | .processCreate _ => true
  | _ => false

/-- The thread a call names. -/
def Call.target : Call → Option ThreadId
  | .threadUnblock t | .threadJoin t | .threadDetach t | .threadAdd t => some t
  | _ => none

namespace Machine

/-- A thread's own program: it names threads that exist, and the idle thread only boots. -/
def client (m : Machine) (c : ThreadId) (call : Call) : Option Machine :=
  if c = idleThread ∧ !call.boot then none
  else if call.target.any (m.nextTid ≤ ·) then none
  else m.enter c call []

def step (m : Machine) (l : Label) : Option Machine :=
  match m.tasks.current with
  | none => none
  | some c =>
      match l, m.code c with
      | .run, i :: rest => m.instr c rest i
      | .client call, [] => m.client c call
      | .setFlag enabled, [] => some { m with tasks := { m.tasks with interruptEnabled := enabled } }
      -- The handler runs with interrupts off and ends with `iret`.
      | .timer, code =>
          if m.tasks.interruptEnabled then
            some (m.advance c (.schedulerTick :: .interruptRestore true :: code)
              m.tasks.masked)
          else none
      | _, _ => none

/-! ## Inversion -/

/-- What executing an instruction of thread `c` can do; `rest` is what follows it. -/
inductive Fires (m : Machine) (c : ThreadId) (rest : List Instr) : Instr → Machine → Prop
  | enter {call : Call} : m.entryAssert c call = true →
      Fires m c rest (.call call)
        { m.advance c (.body call :: .ret call m.tasks.interruptEnabled :: rest) m.tasks with
          joins := m.joins ++ call.joined, detaches := m.detaches ++ call.detached }
  | ret {call : Call} {flag : Bool} : Fires m c rest (.ret call flag) (m.advance c rest m.tasks)
  | restore {flag : Bool} : Fires m c rest (.interruptRestore flag)
      (m.advance c rest { m.tasks with interruptEnabled := flag })
  | enable : Fires m c rest .interruptEnable
      (m.advance c rest { m.tasks with interruptEnabled := true })
  | lockFree {mutex : Nat} : m.owner mutex = none →
      Fires m c rest (.body (.mutexLock mutex))
        { m.advance c (.interruptRestore m.tasks.interruptEnabled :: rest) m.tasks.masked with
          owner := Function.update m.owner mutex (some c) }
  | lockSleep {mutex : Nat} {s : Tasks} : m.owner mutex ≠ none →
      waitQueueSleep m.tasks.masked (.mutex mutex) = some s →
      Fires m c rest (.body (.mutexLock mutex))
        (m.advance c (.interruptRestore m.tasks.interruptEnabled :: rest) s)
  | unlockHand {mutex : Nat} {t : ThreadId} {s : Tasks} :
      waitQueueRemove m.tasks.masked (.mutex mutex) = some (some t, s) →
      Fires m c rest (.body (.mutexUnlock mutex))
        { m.advance c (.interruptRestore m.tasks.interruptEnabled ::
          .call (.threadUnblock t) :: rest) s with owner := Function.update m.owner mutex (some t) }
  | unlockFree {mutex : Nat} {s : Tasks} :
      waitQueueRemove m.tasks.masked (.mutex mutex) = some (none, s) →
      Fires m c rest (.body (.mutexUnlock mutex))
        { m.advance c (.interruptRestore m.tasks.interruptEnabled :: rest) s with
          owner := Function.update m.owner mutex none }
  | acquire {sem : Nat} : 0 < m.count sem →
      Fires m c rest (.body (.semaphoreAcquire sem))
        { m.advance c (.interruptRestore m.tasks.interruptEnabled :: rest) m.tasks.masked with
          count := Function.update m.count sem (m.count sem - 1) }
  | acquireSleep {sem : Nat} {s : Tasks} : m.count sem = 0 →
      waitQueueSleep m.tasks.masked (.semaphore sem) = some s →
      Fires m c rest (.body (.semaphoreAcquire sem))
        (m.advance c (.interruptRestore m.tasks.interruptEnabled :: rest) s)
  | releaseHand {sem : Nat} {t : ThreadId} {s : Tasks} :
      waitQueueRemove m.tasks.masked (.semaphore sem) = some (some t, s) →
      Fires m c rest (.body (.semaphoreRelease sem))
        (m.advance c (.call (.threadUnblock t) :: rest) s)
  | releaseFree {sem : Nat} {s : Tasks} :
      waitQueueRemove m.tasks.masked (.semaphore sem) = some (none, s) →
      Fires m c rest (.body (.semaphoreRelease sem))
        { m.advance c (.interruptRestore m.tasks.interruptEnabled :: rest) s with
          count := Function.update m.count sem ((m.count sem + 1) % wordModulus) }
  | condvarWait {cv mutex : Nat} : Fires m c rest (.body (.condvarWait cv mutex))
      (m.advance c (.call (.mutexUnlock mutex) :: .waitQueueSleep (.condvar cv) ::
        .interruptRestore m.tasks.interruptEnabled :: .call (.mutexLock mutex) :: rest)
        m.tasks.masked)
  | condvarSignal {cv : Nat} {s : Tasks} : waitQueueWake m.tasks.masked (.condvar cv) = some s →
      Fires m c rest (.body (.condvarSignal cv))
        (m.advance c (.interruptRestore m.tasks.interruptEnabled :: rest) s)
  | condvarBroadcast {cv : Nat} {s : Tasks} :
      waitQueueWakeAll m.tasks.masked (.condvar cv) = some s →
      Fires m c rest (.body (.condvarBroadcast cv))
        (m.advance c (.interruptRestore m.tasks.interruptEnabled :: rest) s)
  | block {s : Tasks} : threadBlock m.tasks = some s →
      Fires m c rest (.body .threadBlock)
        (m.advance c (.interruptRestore m.tasks.interruptEnabled :: rest) s)
  | unblock {t : ThreadId} {s : Tasks} :
      schedulerAdd (m.tasks.masked.modify t fun th => { th with state := .ready }) t = some s →
      Fires m c rest (.body (.threadUnblock t))
        (m.advance c (.interruptRestore m.tasks.interruptEnabled :: rest) s)
  | yield {s : Tasks} : threadYield m.tasks = some s →
      Fires m c rest (.body .threadYield)
        (m.advance c (.interruptRestore m.tasks.interruptEnabled :: rest) s)
  | joinEnded {t : ThreadId} : (m.tasks.threads t).state = .terminated →
      Fires m c rest (.body (.threadJoin t))
        (m.advance c (.joinDestroy t :: .interruptRestore m.tasks.interruptEnabled :: rest)
          m.tasks.masked)
  | joinSleep {t : ThreadId} {s : Tasks} : (m.tasks.threads t).state ≠ .terminated →
      waitQueueSleep m.tasks.masked (.termination t) = some s →
      Fires m c rest (.body (.threadJoin t))
        (m.advance c (.joinDestroy t :: .interruptRestore m.tasks.interruptEnabled :: rest) s)
  | detachLive {t : ThreadId} : (m.tasks.threads t).state ≠ .terminated →
      Fires m c rest (.body (.threadDetach t))
        (m.advance c (.interruptRestore m.tasks.interruptEnabled :: rest)
          (m.tasks.masked.modify t fun th => { th with detached := true }))
  | detachEnded {t : ThreadId} {s : Tasks} : (m.tasks.threads t).state = .terminated →
      schedulerPushZombie (m.tasks.masked.modify t fun th => { th with detached := true }) t =
        some s →
      Fires m c rest (.body (.threadDetach t))
        (m.advance c (.interruptRestore m.tasks.interruptEnabled :: rest) s)
  | kill {s : Tasks} : threadKillCurrent m.tasks = some s →
      Fires m c rest (.body .threadKillCurrent) (m.advance c (.panic :: rest) s)
  | add {t : ThreadId} {s : Tasks} : threadAdd m.tasks t = some s →
      Fires m c rest (.body (.threadAdd t)) (m.advance c rest s)
  | create {process : ProcessId} {kernelStack : Nat} :
      Fires m c rest (.body (.threadCreate process kernelStack))
        { m with
          tasks := m.tasks.modify m.nextTid fun _ => Thread.created process kernelStack
          code := Function.update (Function.update m.code c rest) m.nextTid [.interruptEnable]
          nextTid := m.nextTid + 1 }
  | processCreate {pageDirectory : Nat} : Fires m c rest (.body (.processCreate pageDirectory))
      { m.advance c rest { m.tasks.setGroup m.nextPid [] with
          pageDirectory := Function.update m.tasks.pageDirectory m.nextPid pageDirectory } with
        nextPid := m.nextPid + 1 }
  | sleep {q : WaitQueue} {s : Tasks} : Neox.waitQueueSleep m.tasks q = some s →
      Fires m c rest (.waitQueueSleep q) (m.advance c rest s)
  | joinDestroy {t : ThreadId} {m' : Machine} : m.destroy t = some m' →
      Fires m c rest (.joinDestroy t) (m'.advance c rest m'.tasks)
  | tick {s : Tasks} : Neox.schedulerTick m.tasks = some s →
      Fires m c rest .schedulerTick (m.advance c rest s)
  | reaperSleep {s : Tasks} : waitQueueSleep m.tasks.masked .reaper = some s →
      Fires m c rest .reaperSleep
        (m.advance c (.interruptRestore m.tasks.interruptEnabled :: .reaperDrain :: rest) s)
  | reaperDrain : Fires m c rest .reaperDrain
      (m.advance c (.reaperNext m.tasks.interruptEnabled :: rest) m.tasks.masked)
  | reaperDone {flag : Bool} {s : Tasks} : schedulerNextZombie m.tasks = some (none, s) →
      Fires m c rest (.reaperNext flag)
        (m.advance c (.interruptRestore flag :: .reaperSleep :: rest) s)
  | reaperReap {flag : Bool} {t : ThreadId} {s : Tasks} {m' : Machine} :
      schedulerNextZombie m.tasks = some (some t, s) → some t ≠ s.reaperThread →
      { m with tasks := s }.destroy t = some m' →
      Fires m c rest (.reaperNext flag) (m'.advance c (.reaperNext flag :: rest) m'.tasks)

theorem body_fires {m m' : Machine} {c : ThreadId} {rest : List Instr} {call : Call}
    (h : m.body c rest call = some m') : Fires m c rest (.body call) m' := by
  cases call with
  | mutexLock mutex =>
      simp only [body] at h
      split at h
      · cases h
        exact .lockFree ‹_›
      · obtain ⟨s, hs, ⟨⟩⟩ := Option.bind_eq_some_iff.mp h
        exact .lockSleep ‹_› hs
  | mutexUnlock mutex =>
      obtain ⟨⟨thread, s⟩, hs, hm⟩ := Option.bind_eq_some_iff.mp h
      cases thread with
      | none =>
          cases hm
          exact .unlockFree hs
      | some t =>
          cases hm
          exact .unlockHand hs
  | semaphoreAcquire sem =>
      simp only [body] at h
      split at h
      · cases h
        exact .acquire ‹_›
      · rename_i hcount
        obtain ⟨s, hs, ⟨⟩⟩ := Option.bind_eq_some_iff.mp h
        exact .acquireSleep (Nat.eq_zero_of_not_pos hcount) hs
  | semaphoreRelease sem =>
      obtain ⟨⟨thread, s⟩, hs, hm⟩ := Option.bind_eq_some_iff.mp h
      cases thread with
      | none =>
          cases hm
          exact .releaseFree hs
      | some t =>
          cases hm
          exact .releaseHand hs
  | condvarWait cv mutex =>
      cases h
      exact .condvarWait
  | condvarSignal cv =>
      obtain ⟨s, hs, ⟨⟩⟩ := Option.bind_eq_some_iff.mp h
      exact .condvarSignal hs
  | condvarBroadcast cv =>
      obtain ⟨s, hs, ⟨⟩⟩ := Option.bind_eq_some_iff.mp h
      exact .condvarBroadcast hs
  | threadBlock =>
      obtain ⟨s, hs, ⟨⟩⟩ := Option.bind_eq_some_iff.mp h
      exact .block hs
  | threadUnblock t =>
      obtain ⟨s, hs, ⟨⟩⟩ := Option.bind_eq_some_iff.mp h
      exact .unblock hs
  | threadYield =>
      obtain ⟨s, hs, ⟨⟩⟩ := Option.bind_eq_some_iff.mp h
      exact .yield hs
  | threadJoin t =>
      simp only [body] at h
      split at h
      · cases h
        exact .joinEnded ‹_›
      · obtain ⟨s, hs, ⟨⟩⟩ := Option.bind_eq_some_iff.mp h
        exact .joinSleep ‹_› hs
  | threadDetach t =>
      simp only [body, Tasks.modify_threads_self] at h
      split at h
      · obtain ⟨s, hs, ⟨⟩⟩ := Option.bind_eq_some_iff.mp h
        exact .detachEnded ‹_› hs
      · cases h
        exact .detachLive ‹_›
  | threadKillCurrent =>
      obtain ⟨s, hs, ⟨⟩⟩ := Option.bind_eq_some_iff.mp h
      exact .kill hs
  | threadAdd t =>
      obtain ⟨s, hs, ⟨⟩⟩ := Option.bind_eq_some_iff.mp h
      exact .add hs
  | threadCreate process kernelStack =>
      cases h
      exact .create
  | processCreate pageDirectory =>
      cases h
      exact .processCreate

theorem enter_fires {m m' : Machine} {c : ThreadId} {rest : List Instr} {call : Call}
    (h : m.enter c call rest = some m') : Fires m c rest (.call call) m' := by
  unfold enter at h
  split at h
  · cases h
    exact .enter ‹_›
  · cases h

theorem instr_fires {m m' : Machine} {c : ThreadId} {rest : List Instr} {i : Instr}
    (h : m.instr c rest i = some m') : Fires m c rest i m' := by
  cases i with
  | call call => exact enter_fires h
  | body call => exact body_fires h
  | ret call flag =>
      cases h
      exact .ret
  | interruptRestore flag =>
      cases h
      exact .restore
  | interruptEnable =>
      cases h
      exact .enable
  | waitQueueSleep q =>
      obtain ⟨s, hs, ⟨⟩⟩ := Option.bind_eq_some_iff.mp h
      exact .sleep hs
  | joinDestroy t =>
      obtain ⟨m₁, hm, ⟨⟩⟩ := Option.bind_eq_some_iff.mp h
      exact .joinDestroy hm
  | schedulerTick =>
      obtain ⟨s, hs, ⟨⟩⟩ := Option.bind_eq_some_iff.mp h
      exact .tick hs
  | reaperSleep =>
      obtain ⟨s, hs, ⟨⟩⟩ := Option.bind_eq_some_iff.mp h
      exact .reaperSleep hs
  | reaperDrain =>
      cases h
      exact .reaperDrain
  | reaperNext flag =>
      obtain ⟨⟨zombie, s⟩, hs, hm⟩ := Option.bind_eq_some_iff.mp h
      cases zombie with
      | none =>
          cases hm
          exact .reaperDone hs
      | some t =>
          simp only at hm
          split at hm
          · cases hm
          · obtain ⟨m₁, hd, ⟨⟩⟩ := Option.bind_eq_some_iff.mp hm
            exact .reaperReap hs ‹_› hd
  | panic => cases h

/-- What a label can do when thread `c` is current. -/
inductive Moves (m : Machine) (c : ThreadId) : Label → Machine → Prop
  | run {i : Instr} {rest : List Instr} {m' : Machine} : m.code c = i :: rest →
      Fires m c rest i m' → Moves m c .run m'
  | client {call : Call} {m' : Machine} : m.code c = [] → (c = idleThread → call.boot = true) →
      (∀ t, call.target = some t → t < m.nextTid) → Fires m c [] (.call call) m' →
      Moves m c (.client call) m'
  | setFlag {enabled : Bool} : m.code c = [] →
      Moves m c (.setFlag enabled) (m.advance c [] { m.tasks with interruptEnabled := enabled })
  | timer : m.tasks.interruptEnabled = true →
      Moves m c .timer
        (m.advance c (.schedulerTick :: .interruptRestore true :: m.code c) m.tasks.masked)

theorem step_moves {m m' : Machine} {l : Label} (h : m.step l = some m') :
    ∃ c, m.tasks.current = some c ∧ Moves m c l m' := by
  unfold step at h
  split at h
  · cases h
  · rename_i c hc
    refine ⟨c, hc, ?_⟩
    split at h
    · exact .run ‹_› (instr_fires h)
    · rename_i call hcode
      unfold client at h
      split at h
      · cases h
      · rename_i hidle
        split at h
        · cases h
        · rename_i htarget
          refine .client hcode (by simpa using hidle) (fun t ht => ?_) (enter_fires h)
          simpa [ht] using htarget
    · rename_i enabled hcode
      cases h
      have he : m.advance c [] { m.tasks with interruptEnabled := enabled } =
          { m with tasks := { m.tasks with interruptEnabled := enabled } } := by
        simp [advance, ← hcode]
      exact he ▸ .setFlag hcode
    · split at h
      · cases h
        exact .timer ‹_›
      · cases h
    · cases h

/-! ## Schedules -/

/-- The boot context starts thread `t` in the reaper's process. -/
def spawn (t : ThreadId) : List Label :=
  [.client (.threadCreate reaperProcess kernelStacksStart), .run, .run,
    .client (.threadAdd t), .run, .run]

/-- As many timer interrupts as end the current thread's quantum; the last one switches. -/
def quantum : List Label :=
  (List.replicate (schedulerQuantumTicks - 1) [.timer, .run, .run]).flatten ++ [.timer, .run]

end Machine

end Neox
