import Neox.Task.Invariant
import Neox.Task.Machine

/-!
# The interrupt flag across a call

`flagsOk flag code` says that a thread which continues `code` with the interrupt flag at `flag`
returns from each of its calls with the flag it made the call with. Every instruction keeps this
but one: `semaphore_release` that hands its permit to a waiter returns without the
`interrupt_restore` its other paths have. `interrupt_flag_restored` is about the runs in which no
such hand-over happens with interrupts on; `semaphoreRelease_drops_flag` says what it does.
-/

namespace Neox

open Transition

/-! ## Tasking functions and the flag -/

/-- Same current thread, same interrupt flag. -/
def SameFlag (s s' : Tasks) : Prop :=
  s'.current = s.current ∧ s'.interruptEnabled = s.interruptEnabled

theorem SameFlag.trans {s₁ s₂ s₃ : Tasks} (h : SameFlag s₁ s₂) (h' : SameFlag s₂ s₃) :
    SameFlag s₁ s₃ :=
  ⟨h'.1.trans h.1, h'.2.trans h.2⟩

theorem schedulerAdd_flag {s s' : Tasks} {t : ThreadId} (h : schedulerAdd s t = some s') :
    SameFlag s s' := by
  obtain ⟨-, -, rfl⟩ := schedulerAdd_spec h
  exact ⟨rfl, rfl⟩

/-- The nested `interrupt_save` and `interrupt_restore` of `thread_unblock` cancel. -/
theorem threadUnblock_flag {s s' : Tasks} {t : ThreadId} (h : threadUnblock s t = some s') :
    SameFlag s s' := by
  obtain ⟨-, -, rfl⟩ := threadUnblock_spec h
  exact ⟨rfl, rfl⟩

theorem waitQueueRemove_flag {s s' : Tasks} {q : WaitQueue} {thread : Option ThreadId}
    (h : waitQueueRemove s q = some (thread, s')) : SameFlag s s' := by
  obtain ⟨-, -, rfl⟩ | ⟨t, rest, -, -, rfl⟩ := waitQueueRemove_spec h <;> exact ⟨rfl, rfl⟩

theorem waitQueueWake_flag {s s' : Tasks} {q : WaitQueue} (h : waitQueueWake s q = some s') :
    SameFlag s s' := by
  unfold waitQueueWake at h
  split at h
  · cases h
  · obtain ⟨⟨thread, s₁⟩, hrem, hrest⟩ := Option.bind_eq_some_iff.mp h
    cases thread with
    | none =>
        cases hrest
        exact waitQueueRemove_flag hrem
    | some t => exact (waitQueueRemove_flag hrem).trans (threadUnblock_flag hrest)

theorem waitQueueWakeLoop_flag {q : WaitQueue} {n : Nat} {s s' : Tasks}
    (h : waitQueueWakeLoop q n s = some s') : SameFlag s s' := by
  induction n generalizing s with
  | zero =>
      cases h
      exact ⟨rfl, rfl⟩
  | succ n ih =>
      obtain ⟨⟨thread, s₁⟩, hrem, hrest⟩ := Option.bind_eq_some_iff.mp h
      cases thread with
      | none =>
          cases hrest
          exact waitQueueRemove_flag hrem
      | some t =>
          obtain ⟨s₂, hun, hloop⟩ := Option.bind_eq_some_iff.mp hrest
          exact ((waitQueueRemove_flag hrem).trans (threadUnblock_flag hun)).trans (ih hloop)

theorem waitQueueWakeAll_flag {s s' : Tasks} {q : WaitQueue} (h : waitQueueWakeAll s q = some s') :
    SameFlag s s' := by
  unfold waitQueueWakeAll at h
  split at h
  · cases h
  · exact waitQueueWakeLoop_flag h

theorem schedulerPushZombie_flag {s s' : Tasks} {t : ThreadId}
    (h : schedulerPushZombie s t = some s') : SameFlag s s' := by
  obtain ⟨-, -, ⟨-, rfl⟩ | ⟨-, -, hw⟩⟩ := schedulerPushZombie_spec h
  · exact ⟨rfl, rfl⟩
  · have hf : SameFlag (s.pushZombie t) s' := waitQueueWake_flag hw
    exact hf

theorem schedulerNextZombie_flag {s s' : Tasks} {zombie : Option ThreadId}
    (h : schedulerNextZombie s = some (zombie, s')) : SameFlag s s' := by
  unfold schedulerNextZombie at h
  split at h
  · cases h
  · split at h
    · cases h
      exact ⟨rfl, rfl⟩
    · split at h
      · cases h
      · cases h
        exact ⟨rfl, rfl⟩

theorem threadAdd_flag {s s' : Tasks} {t : ThreadId} (h : threadAdd s t = some s') :
    SameFlag s s' := by
  obtain ⟨-, -, -, p, -, rfl⟩ := threadAdd_spec h
  exact ⟨rfl, rfl⟩

/-- After a switch interrupts are off, whichever thread continues. -/
theorem schedulerYield_flag {s s' : Tasks} (h : schedulerYield s = some s') :
    s'.interruptEnabled = false := by
  unfold schedulerYield at h
  split at h
  · cases h
  · rename_i hif
    split at h
    · cases h
      simpa using hif
    · have hsw := schedulerSwitch_spec h
      rw [hsw.interruptEnabled, hsw.disabled]

theorem waitQueueSleep_flag {s s' : Tasks} {q : WaitQueue} (h : waitQueueSleep s q = some s') :
    s.interruptEnabled = false ∧ s'.interruptEnabled = false := by
  unfold waitQueueSleep at h
  split at h
  · cases h
  · rename_i hif
    split at h
    · cases h
    · obtain ⟨s₁, -, h₁⟩ := Option.bind_eq_some_iff.mp h
      obtain ⟨s₂, -, hyield⟩ := Option.bind_eq_some_iff.mp h₁
      exact ⟨by simpa using hif, schedulerYield_flag hyield⟩

theorem threadBlock_flag {s s' : Tasks} (h : threadBlock s = some s') :
    s'.interruptEnabled = false := by
  unfold threadBlock at h
  split at h
  · cases h
  · obtain ⟨s₁, -, hyield⟩ := Option.bind_eq_some_iff.mp h
    exact schedulerYield_flag hyield

theorem threadYield_flag {s s' : Tasks} (hc : s.current ≠ none) (h : threadYield s = some s') :
    s'.interruptEnabled = false := by
  unfold threadYield at h
  split at h
  · contradiction
  · exact schedulerYield_flag h

theorem threadKillCurrent_flag {s s' : Tasks} (h : threadKillCurrent s = some s') :
    s'.interruptEnabled = false := by
  unfold threadKillCurrent at h
  split at h
  · cases h
  · obtain ⟨s₁, -, hyield⟩ := Option.bind_eq_some_iff.mp h
    exact schedulerYield_flag hyield

theorem schedulerTick_flag {s s' : Tasks} (h : schedulerTick s = some s') :
    SameFlag s s' ∨ s.interruptEnabled = false ∧ s'.interruptEnabled = false := by
  unfold schedulerTick at h
  split at h
  · cases h
    exact .inl ⟨rfl, rfl⟩
  · simp only at h
    split at h
    · cases h
      exact .inl ⟨rfl, rfl⟩
    · have hsw := schedulerSwitch_spec h
      exact .inr ⟨hsw.disabled, hsw.interruptEnabled.trans hsw.disabled⟩

theorem threadDestroy_flag {s s' : Tasks} {t : ThreadId}
    (h : Machine.threadDestroy s t = some s') : SameFlag s s' := by
  unfold Machine.threadDestroy at h
  split at h
  · cases h
  · split at h
    · cases h
    · simp only at h
      cases h
      split
      · split <;> exact ⟨rfl, rfl⟩
      · exact ⟨rfl, rfl⟩

namespace Machine

theorem destroy_flag {m m' : Machine} {t : ThreadId} (h : m.destroy t = some m') :
    SameFlag m.tasks m'.tasks ∧ m'.code = m.code := by
  obtain ⟨s, hs, hm⟩ := Option.bind_eq_some_iff.mp h
  have hflag := threadDestroy_flag hs
  simp only at hm
  split at hm
  · split at hm <;> cases hm <;> exact ⟨hflag, rfl⟩
  · cases hm
    exact ⟨hflag, rfl⟩

/-! ## What is left to do, and the flag -/

/-- The flag an instruction leaves when it starts with `flag`. -/
def leaves (flag : Bool) : Instr → Bool
  | .interruptRestore saved => saved
  | .interruptEnable => true
  | .reaperNext saved => saved
  | _ => flag

/-- Every return in `code`, continued with the flag at `flag`, sees the flag of its call. Nothing
continues after the `panic` of a terminated thread. -/
def flagsOk (flag : Bool) : List Instr → Prop
  | [] => True
  | .panic :: _ => True
  | .ret _ saved :: rest => flag = saved ∧ flagsOk flag rest
  | i :: rest => flagsOk (leaves flag i) rest

/-- The flag thread `t` continues with: a thread that is not running continues after a switch. -/
def flag (m : Machine) (t : ThreadId) : Bool :=
  if m.tasks.current = some t then m.tasks.interruptEnabled else false

def FlagInv (m : Machine) : Prop :=
  ∀ t, flagsOk (m.flag t) (m.code t)

/-- The current thread goes on with interrupts as `s` has them, or another one is switched to with
interrupts off. -/
theorem FlagInv.advance {m : Machine} {c : ThreadId} {code : List Instr} {s : Tasks}
    (hm : FlagInv m) (hc : m.tasks.current = some c)
    (h : s.current = some c ∧ flagsOk s.interruptEnabled code ∨
      s.interruptEnabled = false ∧ flagsOk false code) : FlagInv (m.advance c code s) := by
  intro t
  have ht := hm t
  by_cases htc : t = c
  · subst htc
    rcases h with ⟨hs, hok⟩ | ⟨hs, hok⟩
    · simpa [Machine.advance, flag, hs] using hok
    · simpa [Machine.advance, flag, hs] using hok
  · have hct : ¬ c = t := fun e => htc e.symm
    have hold : flagsOk false (m.code t) := by simpa [flag, hc, hct] using ht
    rcases h with ⟨hs, -⟩ | ⟨hs, -⟩
    · simpa [Machine.advance, flag, hs, hct, htc] using hold
    · simpa [Machine.advance, flag, hs, htc] using hold

theorem FlagInv.sameFlag {m m' : Machine} (hm : FlagInv m)
    (h : SameFlag m.tasks m'.tasks ∧ m'.code = m.code) : FlagInv m' := by
  intro t
  obtain ⟨⟨hc, hif⟩, hcode⟩ := h
  simpa [flag, hc, hif, hcode] using hm t

/-- `m` is about to hand a semaphore's permit to a waiter with interrupts on. -/
def dropsFlag (m : Machine) : Bool :=
  match m.head with
  | some (.body (.semaphoreRelease sem)) =>
      m.tasks.interruptEnabled && !(m.tasks.waiting (.semaphore sem)).isEmpty
  | _ => false

theorem FlagInv.fires {m m' : Machine} {c : ThreadId} {rest : List Instr} {i : Instr}
    (hm : FlagInv m) (hc : m.tasks.current = some c)
    (hok : flagsOk m.tasks.interruptEnabled (i :: rest))
    (hdrop : ∀ sem, i = .body (.semaphoreRelease sem) → m.tasks.interruptEnabled = true →
      m.tasks.waiting (.semaphore sem) = [])
    (h : Fires m c rest i m') : FlagInv m' := by
  cases h with
  | enter => exact hm.advance hc (.inl ⟨hc, rfl, hok⟩)
  | ret => exact hm.advance hc (.inl ⟨hc, hok.2⟩)
  | restore | enable => exact hm.advance hc (.inl ⟨hc, hok⟩)
  | lockFree | acquire | condvarWait | detachLive | joinEnded => exact hm.advance hc (.inl ⟨hc, hok⟩)
  | lockSleep _ hs | acquireSleep _ hs | joinSleep _ hs | reaperSleep hs =>
      exact hm.advance hc (.inr ⟨(waitQueueSleep_flag hs).2, hok⟩)
  | unlockHand hs | unlockFree hs | releaseFree hs =>
      exact hm.advance hc (.inl ⟨(waitQueueRemove_flag hs).1.trans hc, hok⟩)
  | releaseHand hs =>
      have hoff : m.tasks.interruptEnabled = false := by
        obtain ⟨-, hc, -⟩ | ⟨t, l, hq, -, -⟩ := waitQueueRemove_spec hs
        · cases hc
        · by_contra hon
          have hnil := hdrop _ rfl (by simpa using hon)
          cases hq.symm.trans hnil
      have hs := waitQueueRemove_flag hs
      have hok : flagsOk m.tasks.interruptEnabled rest := hok
      exact hm.advance hc (.inl ⟨hs.1.trans hc, by simpa [flagsOk, leaves, hs.2, hoff] using hok⟩)
  | condvarSignal hs => exact hm.advance hc (.inl ⟨(waitQueueWake_flag hs).1.trans hc, hok⟩)
  | condvarBroadcast hs => exact hm.advance hc (.inl ⟨(waitQueueWakeAll_flag hs).1.trans hc, hok⟩)
  | block hs => exact hm.advance hc (.inr ⟨threadBlock_flag hs, hok⟩)
  | unblock hs => exact hm.advance hc (.inl ⟨(schedulerAdd_flag hs).1.trans hc, hok⟩)
  | yield hs => exact hm.advance hc (.inr ⟨threadYield_flag (by simp [hc]) hs, hok⟩)
  | detachEnded _ hs => exact hm.advance hc (.inl ⟨(schedulerPushZombie_flag hs).1.trans hc, hok⟩)
  | kill hs => exact hm.advance hc (.inr ⟨threadKillCurrent_flag hs, trivial⟩)
  | add hs =>
      have hs := threadAdd_flag hs
      exact hm.advance hc (.inl ⟨hs.1.trans hc, hs.2 ▸ hok⟩)
  | create =>
      intro t
      by_cases ht : t = m.nextTid
      · simp [ht, flagsOk]
      · have hrest : flagsOk m.tasks.interruptEnabled rest := hok
        have := hm.advance hc (.inl ⟨hc, hrest⟩) t
        show flagsOk _ (Function.update (Function.update m.code c rest) m.nextTid _ t)
        rw [Function.update_of_ne ht]
        exact this
  | processCreate => exact hm.advance hc (.inl ⟨hc, hok⟩)
  | sleep hs =>
      obtain ⟨hoff, hs⟩ := waitQueueSleep_flag hs
      exact hm.advance hc (.inr ⟨hs, by simpa [flagsOk, leaves, hoff] using hok⟩)
  | joinDestroy hd =>
      have hs := destroy_flag hd
      exact (hm.sameFlag hs).advance (hs.1.1.trans hc) (.inl ⟨hs.1.1.trans hc, hs.1.2 ▸ hok⟩)
  | tick hs =>
      rcases schedulerTick_flag hs with hs | ⟨hoff, hs⟩
      · exact hm.advance hc (.inl ⟨hs.1.trans hc, hs.2 ▸ hok⟩)
      · exact hm.advance hc (.inr ⟨hs, by simpa [flagsOk, leaves, hoff] using hok⟩)
  | reaperDrain => exact hm.advance hc (.inl ⟨hc, hok⟩)
  | reaperDone hs => exact hm.advance hc (.inl ⟨(schedulerNextZombie_flag hs).1.trans hc, hok⟩)
  | reaperReap hs _ hd =>
      have hd := destroy_flag hd
      have hs := (schedulerNextZombie_flag hs).trans hd.1
      exact (hm.sameFlag ⟨hs, hd.2⟩).advance (hs.1.trans hc) (.inl ⟨hs.1.trans hc, hok⟩)

theorem FlagInv.moves {m m' : Machine} {c : ThreadId} {l : Label} (hm : FlagInv m)
    (hc : m.tasks.current = some c) (hdrop : l = .run → m.dropsFlag = false)
    (h : Moves m c l m') : FlagInv m' := by
  have hflag : flagsOk m.tasks.interruptEnabled (m.code c) := by simpa [flag, hc] using hm c
  cases h with
  | run hcode h =>
      rw [hcode] at hflag
      refine hm.fires hc hflag (fun sem hi hon => ?_) h
      have := hdrop rfl
      simpa [dropsFlag, head, hc, hcode, hi, hon] using this
  | client hcode _ _ h =>
      refine hm.fires hc ?_ (fun sem hi => by cases hi) h
      simp [flagsOk]
  | setFlag hcode => exact hm.advance hc (.inl ⟨hc, trivial⟩)
  | timer hon =>
      refine hm.advance hc (.inl ⟨hc, ?_⟩)
      simpa [flagsOk, leaves, hon] using hflag

/-- The current thread is about to return: the flag is what it was at the call. -/
def FlagRestored (m : Machine) : Prop :=
  ∀ c call saved rest, m.tasks.current = some c → m.code c = .ret call saved :: rest →
    m.tasks.interruptEnabled = saved

theorem FlagInv.restored {m : Machine} (hm : FlagInv m) : FlagRestored m := by
  intro c call saved rest hc hcode
  have := hm c
  simp only [flag, hc, if_true, hcode, flagsOk] at this
  exact this.1

theorem boot_flagInv (idleStack reaperStack pageDirectory esp0 cr3 : Nat) :
    FlagInv (boot idleStack reaperStack pageDirectory esp0 cr3) := by
  intro t
  simp only [boot]
  split <;> simp [flagsOk]

/-! ## Every run -/

/-- In every run that hands no permit over with interrupts on, every primitive returns with the
interrupt flag of its call, and so does each `thread_unblock` made inside a wake-up. -/
theorem interrupt_flag_restored {idleStack reaperStack pageDirectory esp0 cr3 : Nat}
    {ls : List Label} {m : Machine}
    (hrun : Run step (fun m l => l = .run → m.dropsFlag = false)
      (boot idleStack reaperStack pageDirectory esp0 cr3) ls m) :
    FlagRestored m ∧ ∀ t s, threadUnblock m.tasks t = some s →
      s.interruptEnabled = m.tasks.interruptEnabled := by
  have hinv : FlagInv m := by
    refine hrun.invariant (fun t => boot_flagInv _ _ _ _ _ t) fun hm hok hstep => ?_
    obtain ⟨c, hc, hmoves⟩ := step_moves hstep
    exact hm.moves hc hok hmoves
  exact ⟨hinv.restored, fun t s hs => (threadUnblock_flag hs).2⟩

/-- Threads 2 and 3 after the idle thread's first quantum: the reaper has gone to sleep and thread
2 runs its own program with interrupts on. -/
def twoThreads : List Label :=
  spawn 2 ++ spawn 3 ++ [.setFlag true] ++ quantum ++ [.run, .run, .run]

/-- Thread 2 takes the mutex, thread 3 waits for it and gets it handed over. -/
theorem interrupt_flag_restored_handover :
    ∃ m, exec step (fun m l => l = .run → m.dropsFlag = false) (boot 0 0 0 0 0)
      (twoThreads ++ [.client (.mutexLock 0), .run, .run, .run] ++ quantum ++
        [.run, .client (.mutexLock 0), .run, .run, .client (.mutexUnlock 0), .run, .run, .run,
          .run, .run, .run]) = some m ∧
      m.code 2 = [.ret (.mutexUnlock 0) true] ∧ FlagRestored m ∧
      ∀ t s, threadUnblock m.tasks t = some s →
        s.interruptEnabled = m.tasks.interruptEnabled := by
  have h : ((exec step (fun m l => l = .run → m.dropsFlag = false) (boot 0 0 0 0 0)
      (twoThreads ++ [.client (.mutexLock 0), .run, .run, .run] ++ quantum ++
        [.run, .client (.mutexLock 0), .run, .run, .client (.mutexUnlock 0), .run, .run, .run,
          .run, .run, .run])).map fun m => m.code 2) =
      some [.ret (.mutexUnlock 0) true] := by decide +kernel
  obtain ⟨m, hm, hcode⟩ := Option.map_eq_some_iff.mp h
  exact ⟨m, hm, hcode, interrupt_flag_restored (run_of_exec hm)⟩

/-- Thread 2 waits for a permit and thread 3 releases one: the release is about to return to a
caller that had interrupts on, with interrupts off. -/
theorem semaphoreRelease_not_restored :
    ¬ ∀ (idleStack reaperStack pageDirectory esp0 cr3 : Nat) (ls : List Label) (m : Machine),
      Run step (fun _ _ => True) (boot idleStack reaperStack pageDirectory esp0 cr3) ls m →
        FlagRestored m := by
  intro hall
  have h : ((exec step (fun _ _ => True) (boot 0 0 0 0 0)
      (twoThreads ++ [.client (.semaphoreAcquire 0), .run, .run, .client (.semaphoreRelease 0),
        .run, .run, .run, .run, .run])).map
      fun m => (m.tasks.current, m.code 3, m.tasks.interruptEnabled)) =
      some (some 3, [.ret (.semaphoreRelease 0) true], false) := by decide +kernel
  obtain ⟨m, hm, hend⟩ := Option.map_eq_some_iff.mp h
  simp only [Prod.mk.injEq] at hend
  have := hall 0 0 0 0 0 _ m (run_of_exec hm) 3 _ true [] hend.1 hend.2.1
  simp [hend.2.2] at this

/-- The hand-over is what goes wrong, in every state: the release comes to its return with
interrupts off, whatever they were at the call. -/
theorem semaphoreRelease_drops_flag {m : Machine} {c t : ThreadId} {sem : Nat} {rest : List Instr}
    {l : List ThreadId} (hc : m.tasks.current = some c)
    (hcode : m.code c = .body (.semaphoreRelease sem) :: rest)
    (hq : m.tasks.waiting (.semaphore sem) = t :: l) (hlinked : (m.tasks.threads t).waitNode = true)
    (hb : (m.tasks.threads t).state = .blocked) (hn : (m.tasks.threads t).schedNode = false) :
    ∃ m', exec step (fun _ _ => True) m [.run, .run, .run, .run, .run] = some m' ∧
      m'.tasks.current = some c ∧ m'.code c = rest ∧ m'.tasks.interruptEnabled = false := by
  simp [exec, step, instr, body, enter, entryAssert, advance, waitQueueRemove, schedulerAdd, hc,
    hcode, hq, hlinked, hb, hn]

end Machine

end Neox
