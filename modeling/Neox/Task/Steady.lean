import Neox.Task.Invariant

/-!
# What an operation of the current thread leaves alone

`Frame` is what every operation that sleeps, wakes, switches or ends the current thread `c` has in
common: it keeps the scheduler invariant, adds no thread, revives none, and leaves the record of a
thread alone that is not `c` and is linked neither in the ready list nor in a wait queue. `Steady`
is for those that end no thread either: no thread terminates, is detached or becomes a zombie.
-/

namespace Neox

structure Frame (c : ThreadId) (s s' : Tasks) : Prop where
  inv : TasksInv s'
  process : ∀ t, (s'.threads t).process = (s.threads t).process
  groupNode : ∀ t, (s'.threads t).groupNode = (s.threads t).groupNode
  terminated : ∀ t, (s.threads t).state = .terminated → (s'.threads t).state = .terminated
  outside : ∀ t, t ≠ c → t ≠ idleThread → (s.threads t).schedNode = false →
    (s.threads t).waitNode = false → s'.threads t = s.threads t
  detached : ∀ t, (s'.threads t).detached = (s.threads t).detached
  group : s'.group = s.group
  reaperReady : s'.reaperReady = s.reaperReady
  reaperThread : s'.reaperThread = s.reaperThread

structure Steady (c : ThreadId) (s s' : Tasks) : Prop extends Frame c s s' where
  ended : ∀ t, (s'.threads t).state = .terminated → (s.threads t).state = .terminated
  zombieList : s'.zombieList = s.zombieList

variable {c : ThreadId} {s s' : Tasks} {q : WaitQueue}

theorem Frame.trans {s₁ s₂ s₃ : Tasks} (h : Frame c s₁ s₂) (h' : Frame c s₂ s₃) :
    Frame c s₁ s₃ where
  inv := h'.inv
  process t := (h'.process t).trans (h.process t)
  groupNode t := (h'.groupNode t).trans (h.groupNode t)
  terminated t ht := h'.terminated t (h.terminated t ht)
  outside t hc hi hs hw := by
    have e := h.outside t hc hi hs hw
    rw [← e] at hs hw ⊢
    exact h'.outside t hc hi hs hw
  detached t := (h'.detached t).trans (h.detached t)
  group := h'.group.trans h.group
  reaperReady := h'.reaperReady.trans h.reaperReady
  reaperThread := h'.reaperThread.trans h.reaperThread

theorem Steady.trans {s₁ s₂ s₃ : Tasks} (h : Steady c s₁ s₂) (h' : Steady c s₂ s₃) :
    Steady c s₁ s₃ :=
  ⟨h.toFrame.trans h'.toFrame, fun t ht => h.ended t (h'.ended t ht),
    h'.zombieList.trans h.zombieList⟩

/-- Only the record of `c` changes, and there neither the process nor the two flags. -/
theorem Frame.of_current (hinv : TasksInv s')
    (hc : (s'.threads c).process = (s.threads c).process ∧
      (s'.threads c).groupNode = (s.threads c).groupNode ∧
      (s'.threads c).detached = (s.threads c).detached)
    (hterm : (s.threads c).state = .terminated → (s'.threads c).state = .terminated)
    (hother : ∀ t, t ≠ c → s'.threads t = s.threads t) (hgroup : s'.group = s.group)
    (hready : s'.reaperReady = s.reaperReady) (hreaper : s'.reaperThread = s.reaperThread) :
    Frame c s s' := by
  have hcases : ∀ t, t = c ∨ s'.threads t = s.threads t := fun t =>
    (em (t = c)).imp_right (hother t)
  refine ⟨hinv, fun t => ?_, fun t => ?_, fun t ht => ?_, fun t htc _ _ _ => hother t htc,
    fun t => ?_, hgroup, hready, hreaper⟩
  · rcases hcases t with rfl | e
    · exact hc.1
    · rw [e]
  · rcases hcases t with rfl | e
    · exact hc.2.1
    · rw [e]
  · rcases hcases t with rfl | e
    · exact hterm ht
    · rw [e, ht]
  · rcases hcases t with rfl | e
    · exact hc.2.2
    · rw [e]

/-- The flag is not part of any thread's record. -/
theorem Steady.setFlag (hs : TasksInv s) (b : Bool) :
    Steady c s { s with interruptEnabled := b } :=
  ⟨.of_current (hs.setFlag b) ⟨rfl, rfl, rfl⟩ id (fun _ _ => rfl) rfl rfl rfl, fun _ => id, rfl⟩

theorem Steady.remove {thread : Option ThreadId} (hs : TasksInv s)
    (h : waitQueueRemove s q = some (thread, s')) : Steady c s s' := by
  have hinv := (waitQueueRemove_inv hs h).1
  obtain ⟨-, -, rfl⟩ | ⟨t, rest, hq, -, rfl⟩ := waitQueueRemove_spec h
  · exact ⟨.of_current hinv ⟨rfl, rfl, rfl⟩ id (fun _ _ => rfl) rfl rfl rfl, fun _ => id, rfl⟩
  · have hlinked := (hs.wait_node t).mpr ⟨q, by simp [hq]⟩
    refine ⟨⟨hinv, fun u => ?_, fun u => ?_, fun u => ?_, fun u _ _ _ hw => ?_, fun u => ?_, rfl, rfl,
      rfl⟩, fun u => ?_, rfl⟩
    all_goals simp only [Tasks.setWaiting_threads, Tasks.modify_threads]
    all_goals split <;> simp_all

theorem Woken.steady (h : Woken q s s') (hs : TasksInv s) (hinv : TasksInv s') :
    Steady c s s' := by
  refine ⟨⟨hinv, fun t => ?_, fun t => ?_, fun t => ?_, fun t _ _ _ hw => ?outside, fun t => ?_,
    h.group, h.reaperReady, h.reaperThread⟩, fun t => ?_, h.zombieList⟩
  case outside =>
    rcases h.threads t with e | ⟨hm, -⟩
    · exact e
    · simp [(hs.wait_node t).mpr ⟨q, hm⟩] at hw
  all_goals rcases h.threads t with e | ⟨-, hb, e⟩ <;> simp [*]

/-- `nextState` differs from the state only for the thread switched to and the one demoted. -/
theorem Switched.steady (h : Switched s s') (hs : TasksInv s)
    (hc : ∀ t, s.current = some t → t = c) : Steady c s s' := by
  have hpick : (s.threads (schedulerPick s)).state ≠ .terminated := by
    rcases schedulerPick_mem s with ⟨-, e⟩ | hm
    · simp [e, hs.idle_running]
    · rcases ((hs.ready_iff _).mp hm).2.2 with e | e <;> simp [e]
  have hended : ∀ t, nextState s t = .terminated ↔ (s.threads t).state = .terminated := fun t => by
    unfold nextState
    split
    · rename_i e
      simp [e, hpick]
    · split
      · rename_i hd
        simp [hd.2.2.1]
      · rfl
  refine ⟨⟨(h.inv hs).1, fun t => ?_, fun t => ?_, fun t => ?_, fun t htc hi hn _ => ?outside,
    fun t => ?_, h.group, h.reaperReady, h.reaperThread⟩, fun t => ?_, h.zombieList⟩
  case outside =>
    rw [h.threads t]
    have hne : t ≠ schedulerPick s := by
      rintro rfl
      rcases schedulerPick_mem s with ⟨-, e⟩ | hm
      · exact hi e
      · simp [(hs.sched_node _).mpr hm] at hn
    have hcur : s.current ≠ some t := fun e => htc (hc t e)
    simp [nextState, hne, hcur]
  all_goals rw [h.threads t]
  · exact (hended t).mpr
  · exact (hended t).mp

theorem Frame.stop {st : ThreadState} (hs : TasksInv s) (hidle : c ≠ idleThread)
    (hrun : (s.threads c).state = .running) (hst : st = .blocked ∨ st = .terminated) :
    Frame c s (s.stop c st) := by
  refine .of_current (hs.stop hidle hrun hst) ?_ (by simp [hrun]) (fun t ht => ?_) rfl rfl rfl
  · simp [Tasks.stop]
  · simp [Tasks.stop, Tasks.modify_threads, ht]

theorem Steady.block (hs : TasksInv s) (hidle : c ≠ idleThread)
    (hrun : (s.threads c).state = .running) : Steady c s (s.stop c .blocked) := by
  refine ⟨.stop hs hidle hrun (.inl rfl), fun t => ?_, rfl⟩
  simp only [Tasks.stop, Tasks.modify_threads]
  split <;> simp_all

theorem Steady.enqueue (hs : TasksInv s) (hb : (s.threads c).state = .blocked)
    (hn : (s.threads c).waitNode = false) :
    Steady c s ((s.modify c fun th => { th with waitQueue := some q, waitNode := true }).setWaiting
      q (s.waiting q ++ [c])) := by
  refine ⟨.of_current (hs.enqueue hb hn) (by simp) (by simp) (fun t ht => ?_) rfl rfl rfl,
    fun t => ?_, rfl⟩
  · simp [Tasks.modify_threads, ht]
  · simp only [Tasks.setWaiting_threads, Tasks.modify_threads]
    split <;> simp_all

/-! ## The operations -/

/-- An operation of the current thread, as seen between two instructions. -/
structure Continues (c : ThreadId) (s s' : Tasks) : Prop extends Steady c s s' where
  runs : CurrentRuns s'

/-- A thread that can run is not linked in a wait queue. -/
theorem TasksInv.not_waiting (hs : TasksInv s) {t : ThreadId}
    (ht : (s.threads t).state ≠ .blocked) : (s.threads t).waitNode = false := by
  by_contra hn
  obtain ⟨q, hm⟩ := (hs.wait_node t).mp (by simpa using hn)
  exact ht (hs.waiting_blocked q t hm).1

theorem waitQueueSleep_continues (hs : TasksInv s) (hruns : CurrentRuns s)
    (hc : s.current = some c) (hidle : c ≠ idleThread) (h : waitQueueSleep s q = some s') :
    Continues c s s' ∧ s'.waiting q = s.waiting q ++ [c] ∧
      ∀ r, r ≠ q → s'.waiting r = s.waiting r := by
  obtain ⟨c', hc', -, hrun, hinv, hsw⟩ :=
    waitQueueSleep_spec hs hruns (by simpa [hc] using hidle) h
  obtain rfl : c = c' := Option.some.inj (hc.symm.trans hc')
  have hfree := hs.not_waiting (t := c) (by simp [hrun])
  have hsleep : Steady c s (s.sleep q c) :=
    (Steady.block hs hidle hrun).trans (Steady.enqueue (hs.stop hidle hrun (.inl rfl))
      (by simp [Tasks.stop]) (by simpa [Tasks.stop] using hfree))
  refine ⟨⟨hsleep.trans (hsw.steady hinv fun t ht => ?_), (hsw.inv hinv).2⟩, ?_, fun r hr => ?_⟩
  · exact Option.some.inj (ht.symm.trans hc)
  · simp [hsw.waiting, Tasks.sleep]
  · simp [hsw.waiting, Tasks.sleep, Tasks.setWaiting_waiting, hr, Tasks.stop]

theorem waitQueueRemove_continues {thread : Option ThreadId} (hs : TasksInv s)
    (hruns : CurrentRuns s) (h : waitQueueRemove s q = some (thread, s')) : Continues c s s' := by
  refine ⟨.remove hs h, fun u hu => ?_⟩
  obtain ⟨-, -, rfl⟩ | ⟨t, rest, hq, -, rfl⟩ := waitQueueRemove_spec h
  · exact hruns u hu
  · have := hruns u hu
    simp only [Tasks.setWaiting_threads, Tasks.modify_threads]
    split <;> simp_all

theorem waitQueueWake_continues (hs : TasksInv s) (hruns : CurrentRuns s)
    (h : waitQueueWake s q = some s') : Continues c s s' := by
  obtain ⟨hinv, hw⟩ := waitQueueWake_inv hs h
  exact ⟨hw.steady hs hinv, hw.currentRuns hruns⟩

theorem waitQueueWakeAll_continues (hs : TasksInv s) (hruns : CurrentRuns s)
    (h : waitQueueWakeAll s q = some s') : Continues c s s' := by
  obtain ⟨hinv, hw, -⟩ := waitQueueWakeAll_inv hs h
  exact ⟨hw.steady hs hinv, hw.currentRuns hruns⟩

theorem threadBlock_continues (hs : TasksInv s) (hruns : CurrentRuns s) (hc : s.current = some c)
    (hidle : c ≠ idleThread) (h : threadBlock s = some s') :
    Continues c s s' ∧ s'.waiting = s.waiting := by
  obtain ⟨c', hc', -, hrun, hsw⟩ := threadBlock_spec hs hruns (by simpa [hc] using hidle) h
  obtain rfl : c = c' := Option.some.inj (hc.symm.trans hc')
  have hoff : Steady c s s.masked := .setFlag hs false
  have hstop := hoff.trans (Steady.block hoff.inv hidle hrun)
  refine ⟨⟨hstop.trans (hsw.steady hstop.inv fun t ht => ?_), (hsw.inv hstop.inv).2⟩, hsw.waiting⟩
  exact Option.some.inj (ht.symm.trans hc)

theorem threadYield_continues (hs : TasksInv s) (hc : s.current = some c)
    (h : threadYield s = some s') : Continues c s s' ∧ s'.waiting = s.waiting := by
  unfold threadYield at h
  split at h
  · rename_i hnone
    simp [hc] at hnone
  · have hsw := schedulerYield_spec h (by simp [hc])
    have hoff : Steady c s s.masked := .setFlag hs false
    refine ⟨⟨hoff.trans (hsw.steady hoff.inv fun t ht => ?_), (hsw.inv hoff.inv).2⟩, hsw.waiting⟩
    exact Option.some.inj (ht.symm.trans hc)

theorem schedulerTick_continues (hs : TasksInv s) (hruns : CurrentRuns s)
    (hc : s.current = some c) (h : schedulerTick s = some s') :
    Continues c s s' ∧ s'.waiting = s.waiting := by
  obtain ⟨hq, rfl⟩ | ⟨-, hsw⟩ := schedulerTick_spec hs h
  · have hle := hs.quantum.2
    have hinv := hs.setQuantum (n := s.quantumRemaining - 1) (by omega)
    exact ⟨⟨⟨.of_current hinv ⟨rfl, rfl, rfl⟩ id (fun _ _ => rfl) rfl rfl rfl, fun _ => id, rfl⟩, hruns⟩,
      rfl⟩
  · exact ⟨⟨hsw.steady hs fun t ht => Option.some.inj (ht.symm.trans hc), (hsw.inv hs).2⟩,
      hsw.waiting⟩

/-! ## Termination -/

theorem schedulerPushZombie_frame (hs : TasksInv s) (h : schedulerPushZombie s c = some s') :
    Frame c s s' := by
  obtain ⟨-, ht, ⟨-, rfl⟩ | ⟨-, hn, hw⟩⟩ := schedulerPushZombie_spec h
  · exact (Steady.setFlag hs s'.interruptEnabled).toFrame
  · have hpush : Frame c s (s.pushZombie c) := by
      refine .of_current (hs.pushZombie ht hn) (by simp [Tasks.pushZombie])
        (by simp [Tasks.pushZombie]) (fun t ht => ?_) rfl rfl rfl
      simp [Tasks.pushZombie, Tasks.modify_threads, ht]
    obtain ⟨hinv, hwoken⟩ := waitQueueWake_inv hpush.inv hw
    exact hpush.trans (hwoken.steady hpush.inv hinv).toFrame

theorem schedulerPushZombie_runs (hs : TasksInv s) (hruns : CurrentRuns s)
    (h : schedulerPushZombie s c = some s') : CurrentRuns s' := by
  obtain ⟨-, ht, ⟨-, rfl⟩ | ⟨-, hn, hw⟩⟩ := schedulerPushZombie_spec h
  · exact hruns
  · refine (waitQueueWake_inv (hs.pushZombie ht hn) hw).2.currentRuns fun u hu => ?_
    have := hruns u hu
    simp only [Tasks.pushZombie, Tasks.modify_threads]
    split <;> simp_all

theorem schedulerTerminate_frame (hs : TasksInv s) (hidle : c ≠ idleThread)
    (hrun : (s.threads c).state = .running) (h : schedulerTerminate s c = some s') :
    Frame c s s' := by
  obtain ⟨-, -, s₁, hwake, hpush⟩ := schedulerTerminate_spec hs hidle hrun h
  have hstop : Frame c s (s.stop c .terminated) := .stop hs hidle hrun (.inr rfl)
  obtain ⟨hinv, hwoken, -⟩ := waitQueueWakeAll_inv hstop.inv hwake
  have hframe := hstop.trans (hwoken.steady hstop.inv hinv).toFrame
  obtain ⟨-, rfl⟩ | ⟨-, hp⟩ := hpush
  · exact hframe
  · exact hframe.trans (schedulerPushZombie_frame hinv hp)

theorem threadKillCurrent_frame (hs : TasksInv s) (hruns : CurrentRuns s)
    (hc : s.current = some c) (hidle : c ≠ idleThread) (h : threadKillCurrent s = some s') :
    Frame c s s' ∧ CurrentRuns s' := by
  obtain ⟨c', s₁, hc', -, hrun, hterm, hinv, hsw⟩ :=
    threadKillCurrent_spec hs hruns (by simpa [hc] using hidle) h
  obtain rfl : c = c' := Option.some.inj (hc.symm.trans hc')
  have hoff : Frame c s s.masked := (Steady.setFlag hs false).toFrame
  have hframe := hoff.trans (schedulerTerminate_frame hoff.inv hidle hrun hterm)
  have hcur : s₁.current = s.current := (schedulerTerminate_inv hoff.inv hidle hrun hterm).2.1
  refine ⟨hframe.trans (hsw.steady hinv fun t ht => ?_).toFrame, (hsw.inv hinv).2⟩
  exact Option.some.inj (ht.symm.trans (hcur.trans hc))

theorem schedulerNextZombie_frame {zombie : Option ThreadId} (hs : TasksInv s)
    (h : schedulerNextZombie s = some (zombie, s')) :
    TasksInv s' ∧ s'.current = s.current ∧ ∀ t, (s'.threads t).state = (s.threads t).state ∧
      (s'.threads t).groupNode = (s.threads t).groupNode ∧
      (s'.threads t).waitNode = (s.threads t).waitNode := by
  have hinv := schedulerNextZombie_inv hs h
  obtain ⟨-, ⟨-, -, rfl⟩ | ⟨t, rest, hz, -, rfl⟩⟩ := schedulerNextZombie_spec h
  · exact ⟨hinv, rfl, fun _ => ⟨rfl, rfl, rfl⟩⟩
  · refine ⟨hinv, rfl, fun u => ?_⟩
    simp only [Tasks.modify_threads]
    split <;> simp_all

end Neox
