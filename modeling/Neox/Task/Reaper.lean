import Neox.Task.Threads

/-!
# The reaper and its zombies

The reaper sleeps in `reaper_wq` without looking at `zombie_list` first. A thread that becomes a
zombie after the reaper's last look and before its next `wait_queue_sleep` wakes nobody, and the
reaper then sleeps on it. `reaper_sleeps_on_no_zombie` is about the runs in which no thread becomes
a zombie inside that window; `reaper_sleeps_on_zombie` is a run in which one does.
-/

namespace Neox

open Transition

/-- The instructions of `reaper_entry`. -/
def Instr.reaper : Instr → Bool
  | .reaperSleep | .reaperDrain | .reaperNext _ | .waitQueueSleep .reaper => true
  | _ => false

namespace Machine

/-- The next instruction puts a thread on `zombie_list`. -/
def pushesZombie (m : Machine) : Bool :=
  match m.tasks.current, m.head with
  | some c, some (.body .threadKillCurrent) => (m.tasks.threads c).detached
  | _, some (.body (.threadDetach t)) => (m.tasks.threads t).state == .terminated
  | _, _ => false

/-- No thread becomes a zombie while the reaper is on its way to its next sleep. -/
def reaperListens (m : Machine) (l : Label) : Bool :=
  !(l == .run && m.pushesZombie && (m.code reaperThread).contains .reaperSleep)

structure ReaperInv (m : Machine) : Prop where
  /-- Nobody else sleeps in `reaper_wq`. -/
  alone : ∀ t ∈ m.tasks.waiting .reaper, t = reaperThread
  code : ∀ u, u ≠ reaperThread → ∀ i ∈ m.code u, i.reaper = false
  sleep : ∀ u, .waitQueueSleep .reaper ∉ m.code u
  empty : .reaperSleep ∈ m.code reaperThread ∨ reaperThread ∈ m.tasks.waiting .reaper →
    m.tasks.zombieList = []

variable {m m' : Machine} {c : ThreadId} {code rest : List Instr} {i : Instr} {s : Tasks}

theorem mem_code (hnew : m'.code = Function.update m.code c code)
    (hcode : ∀ i ∈ code, i ∈ m.code c ∨ i.reaper = false) (u : ThreadId) (i : Instr)
    (hi : i ∈ m'.code u) : i ∈ m.code u ∨ i.reaper = false := by
  rw [hnew] at hi
  by_cases hu : u = c
  · subst hu
    exact hcode i (by simpa using hi)
  · exact .inl (by simpa [hu] using hi)

/-- A step that leaves the zombies and `reaper_wq` alone and adds no instruction of the reaper's. -/
theorem ReaperInv.advance (hm : ReaperInv m) (hnew : m'.code = Function.update m.code c code)
    (hq : m'.tasks.waiting .reaper = m.tasks.waiting .reaper)
    (hz : m'.tasks.zombieList = m.tasks.zombieList)
    (hcode : ∀ i ∈ code, i ∈ m.code c ∨ i.reaper = false) : ReaperInv m' := by
  have hmem := mem_code hnew hcode
  refine ⟨fun t ht => hm.alone t (hq ▸ ht), fun u hu i hi => ?_, fun u hi => ?_, fun h => ?_⟩
  · rcases hmem u i hi with h | h
    · exact hm.code u hu i h
    · exact h
  · rcases hmem u _ hi with h | h
    · exact hm.sleep u h
    · cases h
  · rw [hz]
    refine hm.empty ?_
    rcases h with h | h
    · rcases hmem _ _ h with h | h
      · exact .inl h
      · cases h
    · exact .inr (hq ▸ h)

/-- Only the reaper executes its instructions. -/
theorem ReaperInv.is_reaper (hm : ReaperInv m) (hcode : m.code c = i :: rest)
    (hi : i.reaper = true) : c = reaperThread := by
  by_contra hne
  have := hm.code c hne i (by simp [hcode])
  simp [hi] at this

/-- Waking `reaper_wq` empties it: the reaper is the only one who may be there. -/
theorem ReaperInv.wake {s₁ : Tasks} (hm : ReaperInv m) (hinv : TasksInv s₁)
    (hq : s₁.waiting .reaper = m.tasks.waiting .reaper)
    (hs : waitQueueWake s₁ .reaper = some s) : s.waiting .reaper = [] := by
  obtain ⟨-, ⟨hnil, rfl⟩ | ⟨t, s₂, hrem, hun⟩⟩ := waitQueueWake_spec hs
  · exact hnil
  · obtain ⟨-, hc, -⟩ | ⟨t', l, hl, -, rfl⟩ := waitQueueRemove_spec hrem
    · cases hc
    · obtain ⟨-, -, rfl⟩ := threadUnblock_spec hun
      have hnodup := hinv.waiting_nodup .reaper
      rw [hl, List.nodup_cons] at hnodup
      have hall : ∀ u ∈ t' :: l, u = reaperThread := fun u hu => hm.alone u (by rw [← hq, hl]; exact hu)
      have hnil : l = [] := by
        refine List.eq_nil_iff_forall_not_mem.mpr fun u hu => hnodup.1 ?_
        rw [hall t' (by simp), ← hall u (by simp [hu])]
        exact hu
      simp [hnil]

/-- A thread has become a zombie while the reaper was not on its way to sleep. -/
theorem ReaperInv.pushed (hm : ReaperInv m) (hawake : .reaperSleep ∉ m.code reaperThread)
    (hnew : m'.code = Function.update m.code c code) (hq : m'.tasks.waiting .reaper = [])
    (hcode : ∀ i ∈ code, i ∈ m.code c ∨ i.reaper = false) : ReaperInv m' := by
  have hmem := mem_code hnew hcode
  refine ⟨by simp [hq], fun u hu i hi => ?_, fun u hi => ?_, fun h => ?_⟩
  · rcases hmem u i hi with h | h
    · exact hm.code u hu i h
    · exact h
  · rcases hmem u _ hi with h | h
    · exact hm.sleep u h
    · cases h
  · rcases h with h | h
    · rcases hmem _ _ h with h | h
      · exact absurd h hawake
      · cases h
    · simp [hq] at h

theorem ReaperInv.pushZombie {t : ThreadId} {s₁ : Tasks} (hm : ReaperInv m) (hinv : TasksInv s₁)
    (hq : s₁.waiting .reaper = m.tasks.waiting .reaper) (h : schedulerPushZombie s₁ t = some s) :
    s = s₁ ∨ s.waiting .reaper = [] := by
  obtain ⟨-, ht, ⟨-, rfl⟩ | ⟨-, hn, hw⟩⟩ := schedulerPushZombie_spec h
  · exact .inl rfl
  · exact .inr (hm.wake (hinv.pushZombie ht hn) hq hw)

/-- A termination either leaves the reaper's business alone or pushes a detached thread. -/
theorem ReaperInv.terminate {t : ThreadId} {s₁ : Tasks} (hm : ReaperInv m) (hs : TasksInv s₁)
    (hidle : t ≠ idleThread) (hrun : (s₁.threads t).state = .running)
    (hq : s₁.waiting .reaper = m.tasks.waiting .reaper) (h : schedulerTerminate s₁ t = some s) :
    (s.waiting .reaper = s₁.waiting .reaper ∧ s.zombieList = s₁.zombieList) ∨
      ((s₁.threads t).detached = true ∧ s.waiting .reaper = []) := by
  obtain ⟨-, -, s₂, hwake, hpush⟩ := schedulerTerminate_spec hs hidle hrun h
  have hstop := Frame.stop hs hidle hrun (.inr rfl)
  obtain ⟨hinv, hwoken, -⟩ := waitQueueWakeAll_inv hstop.inv hwake
  have hq₂ : s₂.waiting .reaper = s₁.waiting .reaper := hwoken.others .reaper (by simp)
  have hz₂ : s₂.zombieList = s₁.zombieList := hwoken.zombieList
  have hd : (s₂.threads t).detached = (s₁.threads t).detached :=
    (hstop.trans (hwoken.steady hstop.inv hinv).toFrame).detached t
  obtain ⟨-, rfl⟩ | ⟨hdet, hp⟩ := hpush
  · exact .inl ⟨hq₂, hz₂⟩
  · rcases hm.pushZombie hinv (hq₂.trans hq) hp with rfl | hnil
    · exact .inl ⟨hq₂, hz₂⟩
    · exact .inr ⟨hd ▸ hdet, hnil⟩

/-- A step of the reaper's own. -/
theorem ReaperInv.reaperStep (hm : ReaperInv m)
    (hnew : m'.code = Function.update m.code reaperThread code)
    (hq : ∀ t ∈ m'.tasks.waiting .reaper, t = reaperThread)
    (hz : .reaperSleep ∈ code ∨ reaperThread ∈ m'.tasks.waiting .reaper → m'.tasks.zombieList = [])
    (hsleep : .waitQueueSleep .reaper ∉ code) : ReaperInv m' := by
  refine ⟨hq, fun u hu j hj => ?_, fun u hj => ?_, fun h => hz ?_⟩
  · rw [hnew, Function.update_of_ne hu] at hj
    exact hm.code u hu j hj
  · by_cases hu : u = reaperThread
    · subst hu
      exact hsleep (by simpa [hnew] using hj)
    · rw [hnew, Function.update_of_ne hu] at hj
      exact hm.sleep u hj
  · simpa [hnew] using h

theorem ReaperInv.fires (hm : ReaperInv m) (hinv : MachineInv m) (hc : m.tasks.current = some c)
    (hcode : m.code c = i :: rest)
    (hlisten : m.pushesZombie = true → .reaperSleep ∉ m.code reaperThread)
    (h : Fires m c rest i m') : ReaperInv m' := by
  have hrest : ∀ j ∈ rest, j ∈ m.code c ∨ j.reaper = false := fun j hj =>
    .inl (by simp [hcode, hj])
  have hcons : ∀ {j : Instr} {code : List Instr}, j.reaper = false →
      (∀ k ∈ code, k ∈ m.code c ∨ k.reaper = false) →
      ∀ k ∈ j :: code, k ∈ m.code c ∨ k.reaper = false := by
    intro j code hj hcode k hk
    rcases List.mem_cons.mp hk with rfl | hk
    · exact .inr hj
    · exact hcode k hk
  have hidle : c = idleThread → i.idle = true := fun e => hinv.idle_code i (by simp [← e, hcode])
  have hbusy : i.idle = false → c ≠ idleThread := fun hi e => by simp [hidle e] at hi
  have hoff : TasksInv m.tasks.masked := hinv.inv.setFlag false
  have hsleep : ∀ {q : WaitQueue} {s₁ : Tasks}, i.idle = false → q ≠ .reaper →
      waitQueueSleep m.tasks.masked q = some s₁ →
      s₁.waiting .reaper = m.tasks.waiting .reaper ∧ s₁.zombieList = m.tasks.zombieList :=
    fun hi hq h =>
      have ⟨hk, _, hothers⟩ := waitQueueSleep_continues hoff hinv.runs hc (hbusy hi) h
      ⟨hothers _ hq.symm, hk.zombieList⟩
  have hremove : ∀ {q : WaitQueue} {thread : Option ThreadId} {s₁ : Tasks}, q ≠ .reaper →
      waitQueueRemove m.tasks.masked q = some (thread, s₁) →
      s₁.waiting .reaper = m.tasks.waiting .reaper ∧ s₁.zombieList = m.tasks.zombieList := by
    intro q thread s₁ hq h
    obtain ⟨-, -, rfl⟩ | ⟨t, l, -, -, rfl⟩ := waitQueueRemove_spec h
    · exact ⟨rfl, rfl⟩
    · simp [Tasks.setWaiting_waiting, hq.symm]
  cases h with
  | enter => exact hm.advance rfl rfl rfl (hcons rfl (hcons rfl hrest))
  | lockFree | acquire => exact hm.advance rfl rfl rfl (hcons rfl hrest)
  | ret | restore | enable | processCreate => exact hm.advance rfl rfl rfl hrest
  | lockSleep _ hs | acquireSleep _ hs =>
      obtain ⟨hq, hz⟩ := hsleep rfl (by simp) hs
      exact hm.advance rfl hq hz (hcons rfl hrest)
  | unlockHand hs =>
      obtain ⟨hq, hz⟩ := hremove (by simp) hs
      exact hm.advance rfl hq hz (hcons rfl (hcons rfl hrest))
  | unlockFree hs | releaseFree hs | releaseHand hs =>
      obtain ⟨hq, hz⟩ := hremove (by simp) hs
      exact hm.advance rfl hq hz (hcons rfl hrest)
  | condvarWait => exact hm.advance rfl rfl rfl (hcons rfl (hcons rfl (hcons rfl (hcons rfl hrest))))
  | condvarSignal hs =>
      have hw := (waitQueueWake_inv hoff hs).2
      exact hm.advance rfl (hw.others _ (by simp)) hw.zombieList (hcons rfl hrest)
  | condvarBroadcast hs =>
      have hw := (waitQueueWakeAll_inv hoff hs).2.1
      exact hm.advance rfl (hw.others _ (by simp)) hw.zombieList (hcons rfl hrest)
  | block hs =>
      obtain ⟨hk, hq⟩ := threadBlock_continues hinv.inv hinv.runs hc (hbusy rfl) hs
      exact hm.advance rfl (congrFun hq _) hk.zombieList (hcons rfl hrest)
  | unblock hs =>
      obtain ⟨-, -, rfl⟩ := schedulerAdd_spec hs
      exact hm.advance rfl rfl rfl (hcons rfl hrest)
  | yield hs =>
      obtain ⟨hk, hq⟩ := threadYield_continues hinv.inv hc hs
      exact hm.advance rfl (congrFun hq _) hk.zombieList (hcons rfl hrest)
  | joinEnded => exact hm.advance rfl rfl rfl (hcons rfl (hcons rfl hrest))
  | joinSleep _ hs =>
      obtain ⟨hq, hz⟩ := hsleep rfl (by simp) hs
      exact hm.advance rfl hq hz (hcons rfl (hcons rfl hrest))
  | detachLive => exact hm.advance rfl rfl rfl (hcons rfl hrest)
  | @detachEnded t s ht hs =>
      have hawake : .reaperSleep ∉ m.code reaperThread :=
        hlisten (by simp [pushesZombie, head, hc, hcode, ht])
      rcases hm.pushZombie (hoff.setDetached t true) rfl hs with rfl | hnil
      · exact hm.advance rfl rfl rfl (hcons rfl hrest)
      · exact hm.pushed hawake rfl hnil (hcons rfl hrest)
  | kill hs =>
      obtain ⟨c', s₁, hc', hne, hrun, hterm, -, hsw⟩ :=
        threadKillCurrent_spec hinv.inv hinv.runs (by simpa [hc] using hbusy rfl) hs
      obtain rfl : c = c' := Option.some.inj (hc.symm.trans hc')
      rcases hm.terminate hoff hne hrun rfl hterm with ⟨hq, hz⟩ | ⟨hd, hnil⟩
      · exact hm.advance rfl ((congrFun hsw.waiting _).trans hq) (hsw.zombieList.trans hz)
          (hcons rfl hrest)
      · have hawake : .reaperSleep ∉ m.code reaperThread :=
          hlisten (by simpa [pushesZombie, head, hc, hcode] using hd)
        exact hm.pushed hawake rfl ((congrFun hsw.waiting _).trans hnil) (hcons rfl hrest)
  | add hs =>
      obtain ⟨-, -, -, p, -, rfl⟩ := threadAdd_spec hs
      exact hm.advance rfl rfl rfl hrest
  | create =>
      have hm₁ : ReaperInv (m.advance c rest m.tasks) := hm.advance rfl rfl rfl hrest
      refine hm₁.advance (c := m.nextTid) rfl rfl rfl fun j hj => .inr ?_
      simp only [List.mem_singleton] at hj
      subst hj
      rfl
  | @sleep q s hs =>
      have hq : q ≠ .reaper := by
        rintro rfl
        exact hm.sleep c (by simp [hcode])
      obtain ⟨hk, -, hothers⟩ := waitQueueSleep_continues hinv.inv hinv.runs hc (hbusy rfl) hs
      exact hm.advance rfl (hothers _ hq.symm) hk.zombieList hrest
  | joinDestroy hd =>
      obtain ⟨s, l, hs, rfl⟩ := destroy_spec hd
      obtain ⟨-, -, g, rfl, -⟩ := threadDestroy_spec hs
      exact hm.advance rfl rfl rfl hrest
  | tick hs =>
      obtain ⟨hk, hq⟩ := schedulerTick_continues hinv.inv hinv.runs hc hs
      exact hm.advance rfl (congrFun hq _) hk.zombieList hrest
  | reaperSleep hs =>
      obtain rfl := hm.is_reaper hcode rfl
      have hz : m.tasks.zombieList = [] := hm.empty (.inl (by simp [hcode]))
      obtain ⟨hk, hq, -⟩ := waitQueueSleep_continues hoff hinv.runs hc (hbusy rfl) hs
      refine hm.reaperStep rfl (fun t ht => ?_) (fun _ => hk.zombieList.trans hz) ?_
      · rw [advance_tasks, hq, List.mem_append] at ht
        exact ht.elim (hm.alone t) List.mem_singleton.mp
      · simpa [hcode] using hm.sleep reaperThread
  | reaperDrain =>
      obtain rfl := hm.is_reaper hcode rfl
      refine hm.reaperStep rfl hm.alone (fun h => hm.empty (h.imp_left fun h => ?_)) ?_
      · simpa [hcode] using h
      · simpa [hcode] using hm.sleep reaperThread
  | reaperDone hs =>
      obtain rfl := hm.is_reaper hcode rfl
      obtain ⟨-, ⟨hz, -, rfl⟩ | ⟨_, _, _, hn, _⟩⟩ := schedulerNextZombie_spec hs
      · refine hm.reaperStep rfl hm.alone (fun _ => hz) ?_
        simpa [hcode] using hm.sleep reaperThread
      · cases hn
  | reaperReap hs _ hd =>
      obtain rfl := hm.is_reaper hcode rfl
      obtain ⟨-, ⟨_, hn, _⟩ | ⟨t, l, hz, -, rfl⟩⟩ := schedulerNextZombie_spec hs
      · cases hn
      · obtain ⟨s, l, hs, rfl⟩ := destroy_spec hd
        obtain ⟨-, -, g, rfl, -⟩ := threadDestroy_spec hs
        -- The list was not empty, so the reaper is neither asleep nor on its way there.
        have hawake : ¬ (.reaperSleep ∈ m.code reaperThread ∨
            reaperThread ∈ m.tasks.waiting .reaper) := fun h => by simp [hm.empty h] at hz
        refine hm.reaperStep rfl hm.alone (fun h => absurd (h.imp_left fun h => ?_) hawake) ?_
        · simpa [hcode] using h
        · simpa [hcode] using hm.sleep reaperThread

theorem ReaperInv.moves {l : Label} (hm : ReaperInv m) (hinv : MachineInv m)
    (hc : m.tasks.current = some c) (hlisten : m.reaperListens l = true) (h : Moves m c l m') :
    ReaperInv m' := by
  cases h with
  | run hcode h =>
      refine hm.fires hinv hc hcode (fun hp => ?_) h
      simpa [reaperListens, hp] using hlisten
  | client hcode _ _ h =>
      cases h with
      | enter => exact hm.advance rfl rfl rfl (by simp [Instr.reaper])
  | setFlag => exact hm.advance rfl rfl rfl (by simp)
  | timer =>
      refine hm.advance rfl rfl rfl fun j hj => ?_
      simp only [List.mem_cons] at hj
      rcases hj with rfl | rfl | hj
      · exact .inr rfl
      · exact .inr rfl
      · exact .inl hj

theorem boot_reaperInv (idleStack reaperStack pageDirectory esp0 cr3 : Nat) :
    ReaperInv (boot idleStack reaperStack pageDirectory esp0 cr3) := by
  refine ⟨by simp [boot], fun u hu i hi => ?_, fun u hi => ?_, fun _ => rfl⟩
  · simp [boot, hu] at hi
  · simp only [boot] at hi
    split at hi <;> simp at hi

/-! ## Every run -/

/-- Whenever the reaper is blocked in `reaper_wq`, no zombie waits for it. -/
theorem reaper_sleeps_on_no_zombie {idleStack reaperStack pageDirectory esp0 cr3 : Nat}
    {ls : List Label} {m : Machine}
    (hrun : Run step (fun m l => m.permitted l = true ∧ m.reaperListens l = true)
      (boot idleStack reaperStack pageDirectory esp0 cr3) ls m) :
    (m.tasks.threads reaperThread).state = .blocked → reaperThread ∈ m.tasks.waiting .reaper →
      m.tasks.zombieList = [] := by
  have hinv : MachineInv m ∧ ReaperInv m := by
    refine hrun.invariant (I := fun m => MachineInv m ∧ ReaperInv m)
      ⟨boot_inv .., boot_reaperInv ..⟩ fun hm hok hstep => ?_
    obtain ⟨c, hc, hmoves⟩ := step_moves hstep
    exact ⟨hm.1.moves hc hok.1 hmoves, hm.2.moves hm.1 hc hok.2 hmoves⟩
  exact fun _ hsleep => hinv.2.empty (.inr hsleep)

/-- A detached thread ends, the reaper destroys it and sleeps again. -/
theorem reaper_sleeps_on_no_zombie_reaped :
    ∃ m, exec step (fun m l => m.permitted l = true ∧ m.reaperListens l = true) (boot 0 0 0 0 0)
      (spawn 2 ++ [.setFlag true] ++ quantum ++ [.run, .run, .run, .client (.threadDetach 2), .run,
        .run, .run, .client .threadKillCurrent, .run, .run, .run, .run, .run, .run, .run]) = some m ∧
      m.destroyed = [2] ∧ m.tasks.waiting .reaper = [reaperThread] ∧
      ((m.tasks.threads reaperThread).state = .blocked →
        reaperThread ∈ m.tasks.waiting .reaper → m.tasks.zombieList = []) := by
  have h : ((exec step (fun m l => m.permitted l = true ∧ m.reaperListens l = true) (boot 0 0 0 0 0)
      (spawn 2 ++ [.setFlag true] ++ quantum ++ [.run, .run, .run, .client (.threadDetach 2), .run,
        .run, .run, .client .threadKillCurrent, .run, .run, .run, .run, .run, .run, .run])).map
      fun m => (m.destroyed, m.tasks.waiting .reaper)) = some ([2], [reaperThread]) := by
    decide +kernel
  obtain ⟨m, hm, hend⟩ := Option.map_eq_some_iff.mp h
  simp only [Prod.mk.injEq] at hend
  exact ⟨m, hm, hend.1, hend.2, reaper_sleeps_on_no_zombie (run_of_exec hm)⟩

/-- The reaper's first quantum ends before its first `wait_queue_sleep`; thread 2 detaches itself
and ends; the reaper then sleeps with thread 2 on `zombie_list`. -/
theorem reaper_sleeps_on_zombie :
    ¬ ∀ (idleStack reaperStack pageDirectory esp0 cr3 : Nat) (ls : List Label) (m : Machine),
      Run step (fun m l => m.permitted l = true)
        (boot idleStack reaperStack pageDirectory esp0 cr3) ls m →
      (m.tasks.threads reaperThread).state = .blocked → reaperThread ∈ m.tasks.waiting .reaper →
        m.tasks.zombieList = [] := by
  intro hall
  have h : ((exec step (fun m l => m.permitted l = true) (boot 0 0 0 0 0)
      (spawn 2 ++ [.setFlag true] ++ quantum ++ [.run] ++ quantum ++ [.run,
        .client (.threadDetach 2), .run, .run, .run, .client .threadKillCurrent, .run, .run,
        .run])).map fun m => ((m.tasks.threads reaperThread).state, m.tasks.waiting .reaper,
          m.tasks.zombieList)) = some (.blocked, [reaperThread], [2]) := by decide +kernel
  obtain ⟨m, hm, hend⟩ := Option.map_eq_some_iff.mp h
  simp only [Prod.mk.injEq] at hend
  have hnil := hall 0 0 0 0 0 _ m (run_of_exec hm) hend.1 (by simp [hend.2.1])
  simp [hend.2.2] at hnil

end Machine

end Neox
