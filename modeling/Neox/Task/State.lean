import Neox.Layout
import Mathlib.Logic.Function.Basic

/-!
# Tasking state

The data of `task/scheduler.c`, `task/thread.c`, `task/wait.c` and `task/reaper.c`: thread
records, the ready and zombie lists, the wait queues and the scheduler's globals.

An intrusive `struct list` is the sequence of the threads linked in it, front first. A
`struct list_node` is one bit, `true` when its two links are non-`NULL`: this is the bit the code
itself tests. That the bit agrees with membership in the sequence is not built in; it is part of
the scheduler invariant.
-/

namespace Neox

/-- `enum thread_state`. -/
inductive ThreadState where
  | ready
  | running
  | blocked
  | terminated
  deriving DecidableEq, Repr

/-- A `struct thread *`, named by the thread's `tid`. -/
abbrev ThreadId := Nat

/-- A `struct process *`, named by the process's `pid`. -/
abbrev ProcessId := Nat

/-- `&idle_thread`, whose `tid` is 0; `next_tid` starts at 1. -/
abbrev idleThread : ThreadId := 0

/-- `SCHEDULER_QUANTUM_TICKS`. -/
abbrev schedulerQuantumTicks : Nat := 5

/-- A `struct wait_queue *`, named by the object the queue is embedded in. -/
inductive WaitQueue where
  | termination (thread : ThreadId)
  | reaper
  | mutex (id : Nat)
  | semaphore (id : Nat)
  | condvar (id : Nat)
  | other (id : Nat)
  deriving DecidableEq, Repr

/-- `struct thread`, less the fields only the context switch and the memory manager read. -/
structure Thread where
  state : ThreadState
  process : Option ProcessId
  kernelStack : Nat
  detached : Bool
  waitQueue : Option WaitQueue
  groupNode : Bool
  schedNode : Bool
  waitNode : Bool
  zombieNode : Bool
  deriving DecidableEq, Repr

/-- What `thread_create` leaves in a new thread record. -/
def Thread.created (process : ProcessId) (kernelStack : Nat) : Thread where
  state := .ready
  process := some process
  kernelStack := kernelStack
  detached := false
  waitQueue := none
  groupNode := false
  schedNode := false
  waitNode := false
  zombieNode := false

/-- `idle_thread` as `scheduler_start` sets it up: every other field is zeroed. -/
def Thread.idle (kernelStack : Nat) : Thread where
  state := .running
  process := none
  kernelStack := kernelStack
  detached := false
  waitQueue := none
  groupNode := false
  schedNode := false
  waitNode := false
  zombieNode := false

/-- The tasking globals. `waiting q` is `q->threads`, `group p` is `p->threads`,
`pageDirectory p` is `p->page_directory`; `interruptEnabled` is `EFLAGS.IF`. -/
structure Tasks where
  threads : ThreadId → Thread
  readyList : List ThreadId
  zombieList : List ThreadId
  waiting : WaitQueue → List ThreadId
  group : ProcessId → List ThreadId
  pageDirectory : ProcessId → Nat
  current : Option ThreadId
  quantumRemaining : Nat
  interruptEnabled : Bool
  reaperReady : Bool
  reaperThread : Option ThreadId
  tssEsp0 : Nat
  cr3 : Nat

namespace Tasks

/-- Overwrite one thread record. -/
def modify (s : Tasks) (t : ThreadId) (f : Thread → Thread) : Tasks :=
  { s with threads := Function.update s.threads t (f (s.threads t)) }

/-- Overwrite one wait queue's list. -/
def setWaiting (s : Tasks) (q : WaitQueue) (l : List ThreadId) : Tasks :=
  { s with waiting := Function.update s.waiting q l }

/-- Overwrite one process's thread list. -/
def setGroup (s : Tasks) (p : ProcessId) (l : List ThreadId) : Tasks :=
  { s with group := Function.update s.group p l }

/-- The state `cli` leaves, in `interrupt_disable` and in `interrupt_save`. -/
abbrev masked (s : Tasks) : Tasks :=
  { s with interruptEnabled := false }

/-! ## Reading a field after an update -/

section Update

variable (s : Tasks) (t u : ThreadId) (f : Thread → Thread) (q r : WaitQueue) (p : ProcessId)
  (l : List ThreadId)

theorem modify_threads : (s.modify t f).threads u = if u = t then f (s.threads t) else s.threads u := by
  simp [modify, Function.update_apply]

@[simp] theorem modify_threads_self : (s.modify t f).threads t = f (s.threads t) := by
  simp [modify]

@[simp] theorem modify_readyList : (s.modify t f).readyList = s.readyList := rfl
@[simp] theorem modify_zombieList : (s.modify t f).zombieList = s.zombieList := rfl
@[simp] theorem modify_waiting : (s.modify t f).waiting = s.waiting := rfl
@[simp] theorem modify_group : (s.modify t f).group = s.group := rfl
@[simp] theorem modify_current : (s.modify t f).current = s.current := rfl
@[simp] theorem modify_quantumRemaining :
    (s.modify t f).quantumRemaining = s.quantumRemaining := rfl
@[simp] theorem modify_interruptEnabled :
    (s.modify t f).interruptEnabled = s.interruptEnabled := rfl
@[simp] theorem modify_reaperReady : (s.modify t f).reaperReady = s.reaperReady := rfl
@[simp] theorem modify_reaperThread : (s.modify t f).reaperThread = s.reaperThread := rfl

theorem setWaiting_waiting : (s.setWaiting q l).waiting r = if r = q then l else s.waiting r := by
  simp [setWaiting, Function.update_apply]

@[simp] theorem setWaiting_waiting_self : (s.setWaiting q l).waiting q = l := by
  simp [setWaiting]

@[simp] theorem setWaiting_threads : (s.setWaiting q l).threads = s.threads := rfl
@[simp] theorem setWaiting_readyList : (s.setWaiting q l).readyList = s.readyList := rfl
@[simp] theorem setWaiting_zombieList : (s.setWaiting q l).zombieList = s.zombieList := rfl
@[simp] theorem setWaiting_group : (s.setWaiting q l).group = s.group := rfl
@[simp] theorem setWaiting_current : (s.setWaiting q l).current = s.current := rfl
@[simp] theorem setWaiting_quantumRemaining :
    (s.setWaiting q l).quantumRemaining = s.quantumRemaining := rfl
@[simp] theorem setWaiting_interruptEnabled :
    (s.setWaiting q l).interruptEnabled = s.interruptEnabled := rfl
@[simp] theorem setWaiting_reaperReady : (s.setWaiting q l).reaperReady = s.reaperReady := rfl
@[simp] theorem setWaiting_reaperThread : (s.setWaiting q l).reaperThread = s.reaperThread := rfl

@[simp] theorem setGroup_threads : (s.setGroup p l).threads = s.threads := rfl
@[simp] theorem setGroup_readyList : (s.setGroup p l).readyList = s.readyList := rfl
@[simp] theorem setGroup_zombieList : (s.setGroup p l).zombieList = s.zombieList := rfl
@[simp] theorem setGroup_waiting : (s.setGroup p l).waiting = s.waiting := rfl
@[simp] theorem setGroup_current : (s.setGroup p l).current = s.current := rfl
@[simp] theorem setGroup_quantumRemaining :
    (s.setGroup p l).quantumRemaining = s.quantumRemaining := rfl
@[simp] theorem setGroup_interruptEnabled :
    (s.setGroup p l).interruptEnabled = s.interruptEnabled := rfl
@[simp] theorem setGroup_reaperReady : (s.setGroup p l).reaperReady = s.reaperReady := rfl
@[simp] theorem setGroup_reaperThread : (s.setGroup p l).reaperThread = s.reaperThread := rfl

end Update

end Tasks

end Neox
