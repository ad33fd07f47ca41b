import Neox.Task.Locks

/-!
# Condition variables lose no wake-up

`condvar.c`. `condvar_wait` keeps interrupts off from before it releases the mutex until it is linked
in the condition variable's queue, so no other thread sees the mutex released and the queue without
the waiter. What it calls after the wake-up is an ordinary `mutex_lock`.
-/

namespace Neox

open Transition

/-- `condvar_wait` on `cv`, whatever the mutex. -/
def Call.waits (cv : Nat) : Call → Bool
  | .condvarWait id _ => id == cv
  | _ => false

/-! ## Readying waiters -/

/-- Exactly the threads `ts`, the first of queue `q`, have been taken off it and made ready, in
order. -/
structure Readied (q : WaitQueue) (ts : List ThreadId) (s s' : Tasks) : Prop where
  waiting : s.waiting q = ts ++ s'.waiting q
  readyList : s'.readyList = s.readyList ++ ts
  ready : ∀ t ∈ ts, (s'.threads t).state = .ready
  others : ∀ t, t ∉ ts → s'.threads t = s.threads t

theorem Readied.refl (q : WaitQueue) (s : Tasks) : Readied q [] s s :=
  ⟨rfl, by simp, by simp, fun _ _ => rfl⟩

theorem Readied.cons {q : WaitQueue} {t : ThreadId} {l : List ThreadId} {s s₁ s' : Tasks}
    (h : Readied q [t] s s₁) (h' : Readied q l s₁ s') (hnew : t ∉ l) :
    Readied q (t :: l) s s' where
  waiting := by rw [h.waiting, h'.waiting, List.singleton_append, List.cons_append]
  readyList := by rw [h'.readyList, h.readyList, List.append_assoc, List.singleton_append]
  ready u hu := by
    rcases List.mem_cons.mp hu with rfl | hu
    · rw [h'.others u hnew]
      exact h.ready u (by simp)
    · exact h'.ready u hu
  others u hu := by
    rw [List.mem_cons, not_or] at hu
    rw [h'.others u hu.2, h.others u (by simp [hu.1])]

/-- The front waiter can be taken off and unblocked: none of the `ASSERT`s on the way fails. -/
theorem TasksInv.wake_front {s : Tasks} {q : WaitQueue} {t : ThreadId} {l : List ThreadId}
    (hs : TasksInv s) (hoff : s.interruptEnabled = false) (hq : s.waiting q = t :: l) :
    ∃ s₁ s₂, waitQueueRemove s q = some (some t, s₁) ∧ threadUnblock s₁ t = some s₂ ∧
      Readied q [t] s s₂ ∧ TasksInv s₂ ∧ s₂.interruptEnabled = false ∧ t ∉ l := by
  have hmem : t ∈ s.waiting q := by simp [hq]
  have hblocked := (hs.waiting_blocked q t hmem).1
  have hlinked : (s.threads t).waitNode = true := (hs.wait_node t).mpr ⟨q, hmem⟩
  have hidle : (s.threads t).schedNode = false := by
    rw [← Bool.not_eq_true, hs.sched_node, hs.ready_iff]
    simp [hblocked]
  have hnodup := hs.waiting_nodup q
  rw [hq, List.nodup_cons] at hnodup
  have hrem : ∃ s₁, waitQueueRemove s q = some (some t, s₁) := by simp [waitQueueRemove, hq, hlinked]
  obtain ⟨s₁, hrem⟩ := hrem
  have hfree := (waitQueueRemove_inv hs hrem).2 t rfl
  obtain ⟨-, hnone, -⟩ | ⟨u, l', hq', hsome, he⟩ := waitQueueRemove_spec hrem
  · cases hnone
  · cases hsome
    rw [hq] at hq'
    cases hq'
    have hun : ∃ s₂, threadUnblock s₁ t = some s₂ := by
      simp [he, threadUnblock, schedulerAdd, hblocked, hidle]
    obtain ⟨s₂, hun⟩ := hun
    have hinv := threadUnblock_inv (waitQueueRemove_inv hs hrem).1 hfree hun
    obtain ⟨-, -, he₂⟩ := threadUnblock_spec hun
    refine ⟨s₁, s₂, hrem, hun, ⟨?_, ?_, ?_, fun u hu => ?_⟩, hinv, ?_, hnodup.1⟩
    · simp [he₂, he, hq]
    · simp [he₂, he]
    · simp [he₂]
    · simp only [List.mem_singleton] at hu
      simp [he₂, he, Tasks.modify_threads, hu]
    · simp [he₂, he, hoff]

theorem waitQueueWake_readies {s : Tasks} {q : WaitQueue} (hs : TasksInv s)
    (hoff : s.interruptEnabled = false) :
    ∃ s', waitQueueWake s q = some s' ∧ Readied q (s.waiting q).head?.toList s s' := by
  cases hq : s.waiting q with
  | nil => exact ⟨s, by simp [waitQueueWake, waitQueueRemove, hoff, hq], .refl q s⟩
  | cons t l =>
      obtain ⟨s₁, s₂, hrem, hun, hready, -⟩ := hs.wake_front hoff hq
      exact ⟨s₂, by simp [waitQueueWake, hoff, hrem, hun], hready⟩

theorem waitQueueWakeLoop_readies {q : WaitQueue} {l : List ThreadId} {s : Tasks} (hs : TasksInv s)
    (hoff : s.interruptEnabled = false) (hq : s.waiting q = l) :
    ∃ s', waitQueueWakeLoop q l.length s = some s' ∧ Readied q l s s' := by
  induction l generalizing s with
  | nil => exact ⟨s, rfl, .refl q s⟩
  | cons t l ih =>
      obtain ⟨s₁, s₂, hrem, hun, hready, hinv, hoff₂, hnew⟩ := hs.wake_front hoff hq
      have hq₂ : s₂.waiting q = l := by
        have := hready.waiting
        rw [hq, List.singleton_append] at this
        exact (List.cons.inj this).2.symm
      obtain ⟨s', hloop, hrest⟩ := ih hinv hoff₂ hq₂
      exact ⟨s', by simp [waitQueueWakeLoop, hrem, hun, hloop], hready.cons hrest hnew⟩

theorem waitQueueWakeAll_readies {s : Tasks} {q : WaitQueue} (hs : TasksInv s)
    (hoff : s.interruptEnabled = false) :
    ∃ s', waitQueueWakeAll s q = some s' ∧ Readied q (s.waiting q) s s' := by
  obtain ⟨s', hloop, hready⟩ := waitQueueWakeLoop_readies hs hoff rfl
  exact ⟨s', by simp [waitQueueWakeAll, hoff, hloop], hready⟩

namespace Machine

variable {m m' : Machine} {c : ThreadId} {i : Instr} {rest : List Instr} {cv mutex : Nat}
  {es : List Event} {l : Label}

/-! ## Getting the mutex back -/

end Machine

/-- The mutexes a thread owns once it has executed the instruction, if it owns `held` before and no
other thread unlocks for it. -/
def Instr.after (held : Nat → Prop) : Instr → Nat → Prop
  | .call (.mutexLock mutex) | .ret (.mutexLock mutex) _ | .body (.condvarWait _ mutex) =>
      (· = mutex)
  | .schedulerTick | .interruptRestore _ => held
  | _ => fun _ => False

/-- Each return from `condvar_wait` ahead comes right after its `mutex_lock`. -/
def Regains : (Nat → Prop) → List Instr → Prop
  | _, [] => True
  | held, i :: rest =>
      (∀ cv mutex flag, i = .ret (.condvarWait cv mutex) flag → held mutex) ∧
        Regains (i.after held) rest

theorem Regains.mono {held held' : Nat → Prop} {code : List Instr} (h : Regains held code)
    (hle : ∀ mutex, held mutex → held' mutex) : Regains held' code := by
  induction code generalizing held held' with
  | nil => trivial
  | cons i rest ih =>
      refine ⟨fun cv mutex flag hi => hle mutex (h.1 cv mutex flag hi), ih h.2 fun mutex => ?_⟩
      unfold Instr.after
      split
      · exact id
      · exact id
      · exact id
      · exact hle mutex
      · exact hle mutex
      · exact False.elim

namespace Machine

variable {m m' : Machine} {c : ThreadId} {i : Instr} {rest : List Instr} {cv mutex : Nat}
  {es : List Event} {l : Label}

/-- A call is entered with the way back it had. -/
theorem Regains.enter {held held' : Nat → Prop} {call : Call} {flag : Bool}
    (h : Regains held (.call call :: rest)) :
    Regains held' (.body call :: .ret call flag :: rest) := by
  refine ⟨by simp, ?_, ?_⟩
  · rintro cv mutex flag' ⟨⟩
    rfl
  · cases call <;> exact h.2

/-- What the current thread's instruction leaves of its way back to the mutex. -/
theorem Fires.regains (h : Fires m c rest i m') (hlt : c < m.nextTid)
    (hlock : ∀ mutex flag, i = .ret (.mutexLock mutex) flag → m.owner mutex = some c)
    (hr : Regains (fun mutex => m.owner mutex = some c) (i :: rest)) :
    Regains (fun mutex => m'.owner mutex = some c) (m'.code c) := by
  -- Behind most instructions nothing is owned for sure.
  have hnone : Regains (fun _ => False) rest → ∀ held, Regains held rest :=
    fun h held => h.mono fun _ => False.elim
  have hcode : ∀ {code}, m'.code c = code → Regains (fun mutex => m'.owner mutex = some c) code →
      Regains (fun mutex => m'.owner mutex = some c) (m'.code c) := fun he h => he ▸ h
  cases h with
  | enter => exact hcode (Function.update_self ..) (Regains.enter hr)
  | @ret call flag =>
      refine hcode (advance_code_self ..) ?_
      cases call with
      | mutexLock mutex =>
          refine hr.2.mono fun id hid => ?_
          obtain rfl : id = mutex := hid
          exact hlock id flag rfl
      | _ => exact hnone hr.2 _
  | tick | restore => exact hcode (advance_code_self ..) hr.2
  | @condvarWait cv mutex =>
      refine hcode (advance_code_self ..) ⟨by simp, by simp, by simp, by simp, ?_⟩
      exact hr.2.mono fun id hid => hid
  | create =>
      refine hcode ?_ (hnone hr.2 _)
      show Function.update (Function.update m.code c rest) m.nextTid _ c = rest
      rw [Function.update_of_ne (Nat.ne_of_lt hlt), Function.update_self]
  | add | processCreate | sleep | enable => exact hcode (Function.update_self ..) (hnone hr.2 _)
  | joinDestroy hd => exact hcode (Function.update_self ..) (hnone hr.2 _)
  | lockFree | lockSleep | unlockFree | acquire | acquireSleep | releaseFree | condvarSignal |
      condvarBroadcast | block | unblock | yield | detachLive | detachEnded | releaseHand | kill |
      reaperDrain | reaperReap =>
      exact hcode (Function.update_self ..) ⟨by simp, hnone hr.2 _⟩
  | unlockHand | joinEnded | joinSleep | reaperSleep | reaperDone =>
      exact hcode (Function.update_self ..) ⟨by simp, by simp, hnone hr.2 _⟩

/-- Every thread returns from `condvar_wait` owning the mutex. -/
def Regaining (m : Machine) : Prop :=
  ∀ t, Regains (fun mutex => m.owner mutex = some t) (m.code t)

theorem Regaining.step (hr : Regaining m) (hlocks : ∀ mutex, LockInv mutex es m)
    (hs : m.step l = some m') : Regaining m' := by
  have hm := (hlocks 0).books.inv
  obtain ⟨c, hc, hmoves⟩ := step_moves hs
  intro t
  have hold := hr t
  cases hmoves with
  | @run i rest _ hcode hfires =>
      by_cases hct : t = c
      · subst hct
        rw [hcode] at hold
        refine hfires.regains (hm.current_lt hc) (fun mutex flag hi => ?_) hold
        -- The thread has been resumed inside `mutex_lock`.
        subst hi
        have hshaped := (hlocks mutex).books.codes.shaped t
        rw [hcode] at hshaped
        apply (hlocks mutex).sound.resumed t
        · refine ⟨?_, ?_⟩
          · rw [hcode, List.countP_cons]
            simp [Instr.isRet, Call.locks]
          · rw [hcode, List.countP_cons, hshaped.tail _ (by simp) (by simp)]
            rfl
        · exact List.count_eq_zero.mp (hm.current_not_waiting hc _)
      · obtain ⟨-, hother⟩ := hfires.code (hm.current_lt hc) (hm.fresh m.nextTid (Nat.le_refl _)).2
        rcases hother t hct with he | ⟨-, he⟩
        · rw [he]
          refine hold.mono fun mutex howner => hfires.owner_kept ?_ hct howner
          rintro rfl
          exact (hlocks mutex).unlockers c (by simp [hcode])
        · rw [he]
          exact ⟨by simp, trivial⟩
  | client hcode _ _ hfires =>
      cases hfires
      by_cases hct : t = c
      · subst hct
        show Regains _ (Function.update m.code t _ t)
        rw [Function.update_self]
        have hnone : ∀ call, Regains (fun _ => False) [.call call] := fun _ => ⟨by simp, trivial⟩
        exact Regains.enter (hnone _)
      · show Regains _ (Function.update m.code c _ t)
        rw [Function.update_of_ne hct]
        exact hold
  | setFlag hcode =>
      by_cases hct : t = c
      · subst hct
        rw [advance_code_self]
        trivial
      · rw [advance_code_ne _ _ _ hct]
        exact hold
  | timer =>
      by_cases hct : t = c
      · subst hct
        rw [advance_code_self]
        exact ⟨by simp, by simp, hold⟩
      · rw [advance_code_ne _ _ _ hct]
        exact hold

/-! ## Every run -/

/-- What holds of condition variable `cv` after the history `es`. -/
structure CondvarSound (cv : Nat) (es : List Event) (m : Machine) : Prop where
  /-- A thread that has begun to wait, and so perhaps released its mutex, is linked before another
  thread runs. -/
  atomic : ∀ t, (linked (.condvar cv) es).count t <
    es.countP (Event.isExecuted (Call.waits cv) t) →
      m.tasks.current = some t ∧ m.tasks.interruptEnabled = false
  /-- Waiters are taken off the queue in the order in which they were linked. -/
  fifo : Fifo (.condvar cv) es m
  /-- A signal readies the longest waiting thread, a broadcast every waiting thread. -/
  signals : m.head = some (.body (.condvarSignal cv)) → ∃ m', m.step .run = some m' ∧
    Readied (.condvar cv) (m.tasks.waiting (.condvar cv)).head?.toList m.tasks m'.tasks
  broadcasts : m.head = some (.body (.condvarBroadcast cv)) → ∃ m', m.step .run = some m' ∧
    Readied (.condvar cv) (m.tasks.waiting (.condvar cv)) m.tasks m'.tasks
  /-- No wait returns without a signal or broadcast of its own. -/
  woken : ∀ t, es.countP (Event.isReturned (Call.waits cv) t) ≤
    (unlinked (.condvar cv) es).count t
  /-- A thread about to return from `condvar_wait` owns the mutex. -/
  owns : ∀ t mutex flag rest, m.code t = .ret (.condvarWait cv mutex) flag :: rest →
    m.owner mutex = some t

theorem wait_guards : Guards (.condvar cv) (Call.waits cv) := by
  refine ⟨fun call h => ?_, fun call h flag => ?_, fun m c call t => ?_⟩
  · cases call <;> first | cases h | simpa [Call.sleeps, Call.waits] using h
  · cases call <;> first | rfl | cases h
  · cases call with
    | mutexLock mutex =>
        simp only [queueEvents]
        split <;> simp [Call.waits, linked_singleton, Event.linkedIn]
    | semaphoreAcquire sem =>
        simp only [queueEvents]
        split <;> simp [Call.waits, linked_singleton, Event.linkedIn]
    | condvarWait id mutex =>
        simp [queueEvents, Call.waits, Call.sleeps]
    | mutexUnlock | semaphoreRelease | condvarSignal | condvarBroadcast =>
        rw [queueEvents, count_map_unlinked]
        rfl
    | _ => rfl

/-- A condition variable is never taken without waiting. -/
theorem took_condvar (t : ThreadId) : (m.observe l).count (.took (.condvar cv) t) = 0 := by
  have hmap : ∀ q (ts : List ThreadId), .took (.condvar cv) t ∉ ts.map (Event.unlinked q) := by
    simp
  have hinstr : ∀ c i, .took (.condvar cv) t ∉ m.instrEvents c i := by
    intro c i
    cases i with
    | body call =>
        rw [instrEvents, List.mem_cons, not_or]
        refine ⟨by simp, ?_⟩
        cases call with
        | mutexLock | semaphoreAcquire =>
            rw [queueEvents]
            split <;> simp
        | mutexUnlock | semaphoreRelease | condvarSignal | condvarBroadcast => exact hmap _ _
        | _ => simp [queueEvents]
    | _ => simp [instrEvents]
  rw [List.count_eq_zero]
  unfold observe
  split
  · split
    · exact hinstr _ _
    · simp
  · simp

/-- What a signal or a broadcast does. -/
theorem MachineInv.wakes (hm : MachineInv m) {call : Call} {ts : List ThreadId}
    (hhead : m.head = some (.body call))
    (hwake : ∀ c rest, ∃ m', m.body c rest call = some m' ∧
      Readied (.condvar cv) ts m.tasks m'.tasks) :
    ∃ m', m.step .run = some m' ∧ Readied (.condvar cv) ts m.tasks m'.tasks := by
  obtain ⟨c, hc⟩ := hm.inv.current_some
  cases hcode : m.code c with
  | nil => simp [head, hc, hcode] at hhead
  | cons i rest =>
      obtain rfl : i = .body call := by simpa [head, hc, hcode] using hhead
      obtain ⟨m', hbody, hready⟩ := hwake c rest
      have hstep : m.step .run = m.body c rest call := by
        unfold Machine.step
        rw [hc]
        simp only [hcode]
        rfl
      exact ⟨m', hstep.trans hbody, hready⟩

/-- In every run, whatever the threads do: no wake-up of a condition variable is lost, none is
invented, and `condvar_wait` returns with the mutex. -/
theorem condvar_no_lost_wakeup {idleStack reaperStack pageDirectory esp0 cr3 : Nat}
    (hrun : Observed step (fun m l => m.permitted l = true) observe
      (boot idleStack reaperStack pageDirectory esp0 cr3) es m) : CondvarSound cv es m := by
  have hinv : Books (.condvar cv) (Call.waits cv) es m ∧ (∀ mutex, LockInv mutex es m) ∧
      Regaining m ∧ ∀ t, es.count (.took (.condvar cv) t) = 0 := by
    apply hrun.invariant
    · refine ⟨boot_books _ _ _ _ _ _ _ fun _ => 0, fun mutex => boot_lockInv .., fun t => ?_,
        fun _ => rfl⟩
      show Regains _ (if t = reaperThread then _ else _)
      split
      · exact ⟨by simp, by simp, trivial⟩
      · trivial
    · rintro es m l m' ⟨hb, hl, hr, ht⟩ hok hs
      refine ⟨hb.step rfl wait_guards hok hs, fun mutex => (hl mutex).step hok hs, hr.step hl hs,
        fun t => ?_⟩
      rw [List.count_append, ht, took_condvar]
  obtain ⟨hbooks, -, hregains, htook⟩ := hinv
  have hoff : TasksInv m.tasks.masked := hbooks.inv.inv.setFlag false
  refine ⟨fun t ht => ?_, hbooks.fifo, fun hhead => ?_, fun hhead => ?_, fun t => ?_, ?_⟩
  · -- The sleep is still ahead.
    have haccounts := hbooks.accounts t
    have hmem := mem_sleeps.mpr (show 0 < (m.code t).countP (Instr.sleepsOn (.condvar cv)) by
      have := htook t
      omega)
    obtain ⟨hcurrent, hif, -⟩ := hbooks.atomic t _ hmem
    exact ⟨hcurrent, hif⟩
  · refine hbooks.inv.wakes hhead fun c rest => ?_
    obtain ⟨s, hs, hready⟩ := waitQueueWake_readies (q := .condvar cv) hoff rfl
    exact ⟨_, by simp [body, hs]; rfl, hready.waiting, hready.readyList, hready.ready,
      hready.others⟩
  · refine hbooks.inv.wakes hhead fun c rest => ?_
    obtain ⟨s, hs, hready⟩ := waitQueueWakeAll_readies (q := .condvar cv) hoff rfl
    exact ⟨_, by simp [body, hs]; rfl, hready.waiting, hready.readyList, hready.ready,
      hready.others⟩
  · have hgranted := hbooks.granted t
    have := htook t
    omega
  · intro t mutex flag rest hcode
    have hr := hregains t
    rw [hcode] at hr
    exact hr.1 cv mutex flag rfl

/-- Thread 2 waits with mutex 0, thread 3 signals, and thread 2 is about to return. -/
theorem condvar_no_lost_wakeup_signalled :
    ∃ es m, Observed step (fun m l => m.permitted l = true) observe (boot 0 0 0 0 0) es m ∧
      m.code 2 = [.ret (.condvarWait 0 0) true] ∧ m.owner 0 = some 2 ∧ CondvarSound 0 es m := by
  have h : ((watch step (fun m l => m.permitted l = true) observe (boot 0 0 0 0 0)
      (twoThreads ++ [.client (.mutexLock 0), .run, .run, .run, .client (.condvarWait 0 0)] ++
        List.replicate 7 .run ++ [.client (.condvarSignal 0), .run, .run, .run] ++ quantum ++
        List.replicate 5 .run)).map fun p => (p.2.code 2, p.2.owner 0)) =
      some ([.ret (.condvarWait 0 0) true], some 2) := by decide +kernel
  obtain ⟨⟨es, m⟩, hw, hend⟩ := Option.map_eq_some_iff.mp h
  simp only [Prod.mk.injEq] at hend
  have hrun := observed_of_watch hw
  exact ⟨es, m, hrun, hend.1, hend.2, condvar_no_lost_wakeup hrun⟩

end Machine

end Neox
