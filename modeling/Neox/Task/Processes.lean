import Neox.Task.Interrupts
import Neox.Task.Threads

/-!
# Processes and the threads created in them

`process_destroy` is called by `thread_join` and by the reaper when the process's thread list is
empty, and a thread is on that list from `thread_add` until `thread_destroy`. A thread that has been
created and not yet added is therefore not seen. `process_outlives_threads` is about the runs in
which that makes no difference; `process_destroyed_under_thread` is one in which it does.
-/

namespace Neox

open Transition

/-- The process in which an instruction creates a thread. -/
def Instr.creates : Instr → Option ProcessId
  | .body (.threadCreate p _) => some p
  | _ => none

/-- The thread an instruction passes to `thread_destroy`. -/
def Instr.destroys (zombies : List ThreadId) : Instr → Option ThreadId
  | .joinDestroy t => some t
  | .reaperNext _ => zombies.head?
  | _ => none

namespace Machine

/-- `p` has been created and not destroyed; `next_pid` starts at 1. -/
def Live (m : Machine) (p : ProcessId) : Prop :=
  0 < p ∧ p < m.nextPid ∧ p ∉ m.destroyedProcesses

instance (m : Machine) (p : ProcessId) : Decidable (m.Live p) :=
  inferInstanceAs (Decidable (_ ∧ _))

/-- A thread that has been created and not destroyed points to a process that has been created and
not destroyed. -/
def ProcessesLive (m : Machine) : Prop :=
  ∀ t < m.nextTid, t ∉ m.destroyed → ∀ p, (m.tasks.threads t).process = some p → m.Live p

/-- What `thread_destroy` of `t` leaves of the thread list of its process. -/
def groupAfter (m : Machine) (t : ThreadId) (p : ProcessId) : List ThreadId :=
  if (m.tasks.threads t).groupNode then (m.tasks.group p).erase t else m.tasks.group p

/-- The processes passed to `process_destroy` after `thread_destroy` of `t`: its own, or none. -/
def freed (m : Machine) (t : ThreadId) : List ProcessId :=
  match (m.tasks.threads t).process with
  | some p => if m.groupAfter t p = [] then [p] else []
  | none => []

/-- A thread of `p` is as `thread_create` left it. -/
def unadded (m : Machine) (p : ProcessId) : Bool :=
  (List.range m.nextTid).any fun u => decide ((m.tasks.threads u).process = some p) &&
    !(m.tasks.threads u).groupNode && decide ((m.tasks.threads u).state = .ready)

/-- Destroying `t` frees no process in which a thread waits to be added. -/
def strandsNone (m : Machine) (t : ThreadId) : Bool :=
  match (m.tasks.threads t).process with
  | some p => !(m.groupAfter t p).isEmpty || !m.unadded p
  | none => true

/-- No thread list is emptied while a thread waits to be added to it, and a thread is created only in
a process that exists. -/
def keepsProcesses (m : Machine) : Label → Bool
  | .run => match m.head with
      | some i => i.creates.all (fun p => decide (m.Live p)) &&
          (i.destroys m.tasks.zombieList).all m.strandsNone
      | none => true
  | _ => true

variable {m m' m₁ m₂ : Machine} {c t : ThreadId} {i : Instr} {rest : List Instr} {p : ProcessId}
  {s : Tasks} {l : Label}

/-! ## What a step changes -/

/-- No thread changes its process or its place on a thread list, and nothing is created or
destroyed. -/
structure Unmoved (m m' : Machine) : Prop where
  process : ∀ t, (m'.tasks.threads t).process = (m.tasks.threads t).process
  groupNode : ∀ t, (m'.tasks.threads t).groupNode = (m.tasks.threads t).groupNode
  group : m'.tasks.group = m.tasks.group
  nextTid : m'.nextTid = m.nextTid
  nextPid : m'.nextPid = m.nextPid
  destroyed : m'.destroyed = m.destroyed
  destroyedProcesses : m'.destroyedProcesses = m.destroyedProcesses

theorem Unmoved.refl (m : Machine) : Unmoved m m :=
  ⟨fun _ => rfl, fun _ => rfl, rfl, rfl, rfl, rfl, rfl⟩

theorem mem_freed : p ∈ m.freed t ↔
    (m.tasks.threads t).process = some p ∧ m.groupAfter t p = [] := by
  unfold freed
  split
  · rename_i r hr
    split
    · rename_i hempty
      rw [List.mem_singleton, hr, Option.some.injEq]
      constructor
      · rintro rfl
        exact ⟨rfl, hempty⟩
      · exact fun h => h.1.symm
    · rename_i hne
      constructor
      · intro h
        cases h
      · rintro ⟨hp, hempty⟩
        rw [hr] at hp
        exact absurd (Option.some.inj hp ▸ hempty) hne
  · rename_i hr
    simp [hr]

theorem Unmoved.groupAfter (h : Unmoved m m') (t : ThreadId) (p : ProcessId) :
    m'.groupAfter t p = m.groupAfter t p := by
  unfold Machine.groupAfter
  rw [h.groupNode, h.group]

/-- `thread_destroy` of `t`, then `process_destroy` when the list it leaves is empty. -/
structure Destroys (t : ThreadId) (m m' : Machine) : Prop where
  terminated : (m.tasks.threads t).state = .terminated
  process : ∀ u, (m'.tasks.threads u).process = (m.tasks.threads u).process
  groupNode : ∀ u, (m'.tasks.threads u).groupNode =
    if u = t then false else (m.tasks.threads u).groupNode
  group : ∀ p u, u ≠ t → (u ∈ m'.tasks.group p ↔ u ∈ m.tasks.group p)
  nextTid : m'.nextTid = m.nextTid
  nextPid : m'.nextPid = m.nextPid
  destroyed : m'.destroyed = m.destroyed ++ [t]
  destroyedProcesses : m'.destroyedProcesses = m.destroyedProcesses ++ m.freed t

theorem threadDestroy_group (h : threadDestroy m.tasks t = some s)
    (hp : (m.tasks.threads t).process = some p) : s.group p = m.groupAfter t p := by
  unfold threadDestroy at h
  split at h
  · cases h
  · split at h
    · cases h
    · simp only [hp] at h
      cases h
      unfold groupAfter
      by_cases hg : (m.tasks.threads t).groupNode = true
      · simp [hg, Tasks.setGroup]
      · simp [hg]

theorem destroy_destroys (h : m.destroy t = some m') : Destroys t m m' := by
  obtain ⟨s, hs, hm⟩ := Option.bind_eq_some_iff.mp h
  have hgroup := fun p => threadDestroy_group (p := p) hs
  obtain ⟨-, hterm, g, he, hother⟩ := threadDestroy_spec hs
  have hprocess : ∀ u, (s.threads u).process = (m.tasks.threads u).process := by
    intro u
    simp only [he, Tasks.modify_threads]
    split <;> simp_all
  have hnode : ∀ u, (s.threads u).groupNode =
      if u = t then false else (m.tasks.threads u).groupNode := by
    intro u
    simp only [he, Tasks.modify_threads]
    split <;> simp_all
  have hother : ∀ p u, u ≠ t → (u ∈ s.group p ↔ u ∈ m.tasks.group p) := by
    rw [he]
    exact hother
  simp only [hprocess] at hm
  split at hm
  · rename_i p hp
    rw [hgroup p hp] at hm
    split at hm
    · rename_i hempty
      cases hm
      exact ⟨hterm, hprocess, hnode, hother, rfl, rfl, rfl, by simp [freed, hp, hempty]⟩
    · rename_i hne
      cases hm
      exact ⟨hterm, hprocess, hnode, hother, rfl, rfl, rfl, by simp [freed, hp, hne]⟩
  · rename_i hp
    cases hm
    exact ⟨hterm, hprocess, hnode, hother, rfl, rfl, rfl, by simp [freed, hp]⟩

/-- Whatever happens around it that moves no thread. -/
theorem Destroys.around (hun : Unmoved m m₁)
    (hstate : (m₁.tasks.threads t).state = (m.tasks.threads t).state) (h : Destroys t m₁ m₂)
    (hun' : Unmoved m₂ m') : Destroys t m m' where
  terminated := hstate ▸ h.terminated
  process u := by rw [hun'.process, h.process, hun.process]
  groupNode u := by rw [hun'.groupNode, h.groupNode, hun.groupNode]
  group p u hu := by rw [hun'.group, h.group p u hu, hun.group]
  nextTid := by rw [hun'.nextTid, h.nextTid, hun.nextTid]
  nextPid := by rw [hun'.nextPid, h.nextPid, hun.nextPid]
  destroyed := by rw [hun'.destroyed, h.destroyed, hun.destroyed]
  destroyedProcesses := by
    have hfreed : m₁.freed t = m.freed t := by
      unfold freed
      simp only [hun.process, hun.groupAfter]
    rw [hun'.destroyedProcesses, h.destroyedProcesses, hun.destroyedProcesses, hfreed]

/-- What an instruction does to the processes and their thread lists. -/
inductive RosterStep (m : Machine) : Instr → Machine → Prop
  | same {i : Instr} {m' : Machine} : i.creates = none → i.destroys m.tasks.zombieList = none →
      Unmoved m m' → RosterStep m i m'
  | add {t : ThreadId} {p : ProcessId} {s : Tasks} {m' : Machine} :
      (m.tasks.threads t).process = some p → (m.tasks.threads t).groupNode = false →
      s = (m.tasks.modify t fun th => { th with groupNode := true }).setGroup p
        (m.tasks.group p ++ [t]) →
      Unmoved { m with tasks := s } m' → RosterStep m (.body (.threadAdd t)) m'
  | create {p : ProcessId} {kernelStack : Nat} {m' : Machine} :
      Unmoved { m with
        tasks := m.tasks.modify m.nextTid fun _ => Thread.created p kernelStack
        nextTid := m.nextTid + 1 } m' →
      RosterStep m (.body (.threadCreate p kernelStack)) m'
  | processCreate {pageDirectory : Nat} {m' : Machine} :
      Unmoved { m with tasks := m.tasks.setGroup m.nextPid [], nextPid := m.nextPid + 1 } m' →
      RosterStep m (.body (.processCreate pageDirectory)) m'
  | destroy {i : Instr} {t : ThreadId} {m' : Machine} : i.creates = none →
      i.destroys m.tasks.zombieList = some t → Destroys t m m' → RosterStep m i m'

theorem Unmoved.of_frame {d : ThreadId} {s₁ : Tasks} (h : Frame d m.tasks s₁) {code : List Instr} :
    Unmoved m (m.advance c code s₁) :=
  ⟨h.process, h.groupNode, h.group, rfl, rfl, rfl, rfl⟩

theorem MachineInv.rosterStep (hm : MachineInv m) (hc : m.tasks.current = some c)
    (hcode : m.code c = i :: rest) (h : Fires m c rest i m') : RosterStep m i m' := by
  have hidle : i.idle = false → c ≠ idleThread := by
    rintro hi rfl
    rw [hm.idle_code i (by simp [hcode])] at hi
    cases hi
  have hoff : Frame c m.tasks m.tasks.masked := (Steady.setFlag hm.inv false).toFrame
  have hsleep : ∀ {q s₁}, c ≠ idleThread → waitQueueSleep m.tasks.masked q = some s₁ →
      Frame c m.tasks s₁ := fun hne hs =>
    hoff.trans (waitQueueSleep_continues hoff.inv hm.runs hc hne hs).1.toFrame
  cases h with
  | enter | ret | restore | enable | condvarWait | joinEnded | reaperDrain =>
      exact .same rfl rfl ⟨fun _ => rfl, fun _ => rfl, rfl, rfl, rfl, rfl, rfl⟩
  | lockFree | acquire => exact .same rfl rfl ⟨fun _ => rfl, fun _ => rfl, rfl, rfl, rfl, rfl, rfl⟩
  | lockSleep _ hs | acquireSleep _ hs | joinSleep _ hs | reaperSleep hs =>
      exact .same rfl rfl (.of_frame (hsleep (hidle rfl) hs))
  | unlockHand hs | unlockFree hs | releaseHand hs | releaseFree hs =>
      have hframe := (waitQueueRemove_continues (c := c) hoff.inv hm.runs hs).toFrame
      exact .same rfl rfl ⟨hframe.process, hframe.groupNode, hframe.group, rfl, rfl, rfl, rfl⟩
  | condvarSignal hs =>
      exact .same rfl rfl (.of_frame (hoff.trans (waitQueueWake_continues hoff.inv hm.runs hs).toFrame))
  | condvarBroadcast hs =>
      exact .same rfl rfl (.of_frame (hoff.trans (waitQueueWakeAll_continues hoff.inv hm.runs hs).toFrame))
  | block hs =>
      exact .same rfl rfl (.of_frame (threadBlock_continues hm.inv hm.runs hc (hidle rfl) hs).1.toFrame)
  | yield hs => exact .same rfl rfl (.of_frame (threadYield_continues hm.inv hc hs).1.toFrame)
  | sleep hs =>
      exact .same rfl rfl (.of_frame (waitQueueSleep_continues hm.inv hm.runs hc (hidle rfl) hs).1.toFrame)
  | tick hs => exact .same rfl rfl (.of_frame (schedulerTick_continues hm.inv hm.runs hc hs).1.toFrame)
  | kill hs => exact .same rfl rfl (.of_frame (threadKillCurrent_frame hm.inv hm.runs hc (hidle rfl) hs).1)
  | @unblock t s₁ hs =>
      obtain ⟨-, -, rfl⟩ := schedulerAdd_spec hs
      refine .same rfl rfl ⟨fun u => ?_, fun u => ?_, rfl, rfl, rfl, rfl, rfl⟩
      all_goals
        simp only [advance_tasks, Tasks.modify_threads]
        split <;> simp_all
  | @detachLive t _ =>
      refine .same rfl rfl ⟨fun u => ?_, fun u => ?_, rfl, rfl, rfl, rfl, rfl⟩
      all_goals
        simp only [advance_tasks, Tasks.modify_threads]
        split <;> simp_all
  | @detachEnded t s₁ _ hs =>
      have hframe := schedulerPushZombie_frame (hoff.inv.setDetached t true) hs
      refine .same rfl rfl ⟨fun u => (hframe.process u).trans ?_, fun u => (hframe.groupNode u).trans ?_,
        hframe.group, rfl, rfl, rfl, rfl⟩
      all_goals
        simp only [Tasks.modify_threads]
        split <;> simp_all
  | @add t s₁ hs =>
      obtain ⟨-, hnode, -, p, hp, rfl⟩ := threadAdd_spec hs
      refine .add hp hnode rfl ⟨fun u => ?_, fun u => ?_, rfl, rfl, rfl, rfl, rfl⟩
      all_goals
        simp only [advance_tasks, Tasks.modify_threads, Tasks.setGroup_threads]
        split <;> rfl
  | create => exact .create ⟨fun _ => rfl, fun _ => rfl, rfl, rfl, rfl, rfl, rfl⟩
  | processCreate => exact .processCreate ⟨fun _ => rfl, fun _ => rfl, rfl, rfl, rfl, rfl, rfl⟩
  | joinDestroy hd =>
      exact .destroy rfl rfl ((destroy_destroys hd).around (.refl m) rfl
        ⟨fun _ => rfl, fun _ => rfl, rfl, rfl, rfl, rfl, rfl⟩)
  | @reaperDone flag s₁ hs =>
      obtain ⟨-, ⟨hz, -, rfl⟩ | ⟨t, l, -, hsome, -⟩⟩ := schedulerNextZombie_spec hs
      · exact .same rfl (by simp [Instr.destroys, hz]) ⟨fun _ => rfl, fun _ => rfl, rfl, rfl, rfl, rfl, rfl⟩
      · cases hsome
  | @reaperReap flag t s₁ m₁ hs _ hd =>
      have hpopped : Unmoved m { m with tasks := s₁ } ∧
          (∀ u, (s₁.threads u).state = (m.tasks.threads u).state) ∧
          m.tasks.zombieList.head? = some t := by
        obtain ⟨-, ⟨-, hnone, -⟩ | ⟨u, l, hz, hsome, rfl⟩⟩ := schedulerNextZombie_spec hs
        · cases hnone
        · cases hsome
          refine ⟨⟨fun u => ?_, fun u => ?_, rfl, rfl, rfl, rfl, rfl⟩, fun u => ?_, by simp [hz]⟩
          all_goals
            simp only [Tasks.modify_threads]
            split <;> simp_all
      exact .destroy rfl hpopped.2.2 ((destroy_destroys hd).around hpopped.1 (hpopped.2.1 t)
        ⟨fun _ => rfl, fun _ => rfl, rfl, rfl, rfl, rfl, rfl⟩)

/-! ## Thread lists -/

/-- Every added thread is on the list of a process that has been created. -/
structure Rosters (m : Machine) : Prop where
  listed : ∀ t p, (m.tasks.threads t).groupNode = true → (m.tasks.threads t).process = some p →
    t ∈ m.tasks.group p
  named : ∀ t p, (m.tasks.threads t).groupNode = true → (m.tasks.threads t).process = some p →
    p < m.nextPid

theorem Unmoved.rosters (h : Unmoved m m') (hr : Rosters m) : Rosters m' := by
  refine ⟨fun t p hg hp => ?_, fun t p hg hp => ?_⟩
  · rw [h.groupNode] at hg
    rw [h.process] at hp
    rw [h.group]
    exact hr.listed t p hg hp
  · rw [h.groupNode] at hg
    rw [h.process] at hp
    rw [h.nextPid]
    exact hr.named t p hg hp

/-- The list that is left is empty only when no other added thread names the process. -/
theorem Rosters.emptied (hr : Rosters m) (hempty : m.groupAfter t p = []) {u : ThreadId}
    (hu : u ≠ t) (hp : (m.tasks.threads u).process = some p) :
    (m.tasks.threads u).groupNode = false := by
  by_contra hg
  have hmem := hr.listed u p (by simpa using hg) hp
  unfold groupAfter at hempty
  split at hempty
  · have hmem' := (List.mem_erase_of_ne hu).mpr hmem
    rw [hempty] at hmem'
    cases hmem'
  · rw [hempty] at hmem
    cases hmem

theorem Rosters.step (hr : Rosters m) (h : RosterStep m i m')
    (hadd : ∀ t p, i = .body (.threadAdd t) → (m.tasks.threads t).process = some p →
      p < m.nextPid) : Rosters m' := by
  cases h with
  | same _ _ hun => exact hun.rosters hr
  | @add t p s _ hp _ hs hun =>
      have hcases : ∀ u r, (s.threads u).groupNode = true → (s.threads u).process = some r →
          u = t ∧ r = p ∨
            (m.tasks.threads u).groupNode = true ∧ (m.tasks.threads u).process = some r := by
        intro u r hg hu
        by_cases hut : u = t
        · subst hut
          simp only [hs, Tasks.setGroup_threads, Tasks.modify_threads_self, hp] at hu
          exact .inl ⟨rfl, (Option.some.inj hu).symm⟩
        · simp only [hs, Tasks.setGroup_threads, Tasks.modify_threads, hut, if_false] at hg hu
          exact .inr ⟨hg, hu⟩
      have hgroup : s.group = Function.update m.tasks.group p (m.tasks.group p ++ [t]) := by
        rw [hs]
        rfl
      refine hun.rosters ⟨fun u r hg hu => ?_, fun u r hg hu => ?_⟩
      · show u ∈ s.group r
        rw [hgroup]
        rcases hcases u r hg hu with ⟨rfl, rfl⟩ | ⟨hg, hu⟩
        · simp
        · have hmem := hr.listed u r hg hu
          by_cases hrp : r = p
          · subst hrp
            simp [hmem]
          · rwa [Function.update_of_ne hrp]
      · rcases hcases u r hg hu with ⟨rfl, rfl⟩ | ⟨hg, hu⟩
        · exact hadd u r rfl hp
        · exact hr.named u r hg hu
  | @create p kernelStack _ hun =>
      have hcases : ∀ u r,
          ((m.tasks.modify m.nextTid fun _ => Thread.created p kernelStack).threads u).groupNode =
            true →
          ((m.tasks.modify m.nextTid fun _ => Thread.created p kernelStack).threads u).process =
            some r →
          (m.tasks.threads u).groupNode = true ∧ (m.tasks.threads u).process = some r := by
        intro u r hg hu
        simp only [Tasks.modify_threads] at hg hu
        split at hg
        · cases hg
        · rename_i hne
          rw [if_neg hne] at hu
          exact ⟨hg, hu⟩
      refine hun.rosters ⟨fun u r hg hu => ?_, fun u r hg hu => ?_⟩
      · obtain ⟨hg, hu⟩ := hcases u r hg hu
        exact hr.listed u r hg hu
      · obtain ⟨hg, hu⟩ := hcases u r hg hu
        exact hr.named u r hg hu
  | processCreate hun =>
      refine hun.rosters ⟨fun u r hg hu => ?_, fun u r hg hu => ?_⟩
      · have hlt := hr.named u r hg hu
        show u ∈ Function.update m.tasks.group m.nextPid [] r
        rw [Function.update_of_ne (Nat.ne_of_lt hlt)]
        exact hr.listed u r hg hu
      · exact Nat.lt_succ_of_lt (hr.named u r hg hu)
  | @destroy _ t _ _ _ hd =>
      have hcases : ∀ u, (m'.tasks.threads u).groupNode = true →
          u ≠ t ∧ (m.tasks.threads u).groupNode = true := by
        intro u hg
        rw [hd.groupNode] at hg
        split at hg
        · cases hg
        · exact ⟨‹_›, hg⟩
      refine ⟨fun u r hg hu => ?_, fun u r hg hu => ?_⟩
      · obtain ⟨hne, hg⟩ := hcases u hg
        rw [hd.process] at hu
        exact (hd.group r u hne).mpr (hr.listed u r hg hu)
      · rw [hd.process] at hu
        rw [hd.nextPid]
        exact hr.named u r (hcases u hg).2 hu

/-! ## Live processes -/

theorem Unmoved.processesLive (h : Unmoved m m') : ProcessesLive m' ↔ ProcessesLive m := by
  unfold ProcessesLive Live
  rw [h.nextTid, h.nextPid, h.destroyed, h.destroyedProcesses]
  simp only [h.process]

/-- An unadded thread is one that exists, has not been destroyed and is on no list. -/
theorem MachineInv.unadded_iff (hm : MachineInv m) : m.unadded p = true ↔
    ∃ u < m.nextTid, u ∉ m.destroyed ∧ (m.tasks.threads u).process = some p ∧
      (m.tasks.threads u).groupNode = false := by
  unfold unadded
  simp only [List.any_eq_true, List.mem_range, Bool.and_eq_true, decide_eq_true_eq,
    Bool.not_eq_true']
  constructor
  · rintro ⟨u, hlt, ⟨hp, hg⟩, hready⟩
    refine ⟨u, hlt, fun hd => ?_, hp, hg⟩
    rw [(hm.destroyed u hd).1] at hready
    cases hready
  · rintro ⟨u, hlt, hd, hp, hg⟩
    have hidle : u ≠ idleThread := by
      rintro rfl
      rw [hm.inv.idle_process] at hp
      cases hp
    exact ⟨u, hlt, ⟨hp, hg⟩, (hm.added u hidle hg).resolve_left hd⟩

/-- Destroying a thread keeps every process that has a live thread exactly if it strands none. -/
theorem Destroys.processesLive (h : Destroys t m m') (hm : MachineInv m) (hr : Rosters m)
    (hlive : ProcessesLive m) : ProcessesLive m' ↔
      ∀ p, (m.tasks.threads t).process = some p → m.groupAfter t p = [] → m.unadded p = false := by
  constructor
  · intro hlive' p hp hempty
    by_contra hun
    obtain ⟨u, hlt, hd, hu, hg⟩ := hm.unadded_iff.mp (by simpa using hun)
    have hut : u ≠ t := by
      rintro rfl
      have hidle : u ≠ idleThread := by
        rintro rfl
        rw [hm.inv.idle_process] at hp
        cases hp
      have hready := (hm.added u hidle hg).resolve_left hd
      rw [h.terminated] at hready
      cases hready
    have hdead := (hlive' u (h.nextTid ▸ hlt) (by simp [h.destroyed, hd, hut]) p
      ((h.process u).trans hu)).2.2
    rw [h.destroyedProcesses, List.mem_append, not_or] at hdead
    exact hdead.2 (mem_freed.mpr ⟨hp, hempty⟩)
  · intro hnone u hlt hd p hp
    rw [h.nextTid] at hlt
    rw [h.destroyed, List.mem_append, not_or, List.mem_singleton] at hd
    rw [h.process] at hp
    obtain ⟨hpos, hpid, hndead⟩ := hlive u hlt hd.1 p hp
    unfold Live
    rw [h.nextPid, h.destroyedProcesses, List.mem_append, mem_freed]
    refine ⟨hpos, hpid, not_or.mpr ⟨hndead, ?_⟩⟩
    rintro ⟨ht, hempty⟩
    -- `u` is on no list, so it has not been added.
    have hg := hr.emptied hempty hd.2 hp
    have hun := hm.unadded_iff.mpr ⟨u, hlt, hd.1, hp, hg⟩
    rw [hnone p ht hempty] at hun
    cases hun

/-- One instruction keeps the processes of live threads alive exactly if it is one that
`keepsProcesses` allows. -/
theorem RosterStep.processesLive (h : RosterStep m i m') (hm : MachineInv m) (hr : Rosters m)
    (hhead : m.head = some i) (hlive : ProcessesLive m) :
    ProcessesLive m' ↔ m.keepsProcesses .run = true := by
  unfold keepsProcesses
  rw [hhead]
  cases h with
  | same hcreates hdestroys hun =>
      rw [hun.processesLive]
      simpa [hcreates, hdestroys] using hlive
  | @add t p s _ _ _ hs hun =>
      have hprocess : ∀ u, (s.threads u).process = (m.tasks.threads u).process := by
        intro u
        simp only [hs, Tasks.setGroup_threads, Tasks.modify_threads]
        split <;> simp_all
      rw [hun.processesLive]
      refine iff_of_true (fun u hlt hd p hp => ?_) rfl
      exact hlive u hlt hd p ((hprocess u).symm.trans hp)
  | @create p kernelStack _ hun =>
      rw [hun.processesLive]
      simp only [Instr.creates, Instr.destroys, Option.all_some, Option.all_none, Bool.and_true,
        decide_eq_true_eq]
      have hthreads : ∀ u, u ≠ m.nextTid →
          (m.tasks.modify m.nextTid fun _ => Thread.created p kernelStack).threads u =
            m.tasks.threads u := fun u hu => by simp [Tasks.modify_threads, hu]
      constructor
      · intro hlive'
        have hnew : m.nextTid ∉ m.destroyed := by
          intro hd
          have hterm := (hm.destroyed _ hd).1
          rw [(hm.fresh _ (Nat.le_refl _)).1] at hterm
          cases hterm
        exact hlive' m.nextTid (Nat.lt_succ_self _) hnew p (by simp [Thread.created])
      · intro hp u hlt hd r hr
        by_cases hu : u = m.nextTid
        · subst hu
          obtain rfl : p = r := by simpa [Thread.created] using hr
          exact hp
        · have hlt : u < m.nextTid :=
            Nat.lt_of_le_of_ne (Nat.le_of_lt_succ hlt) hu
          exact hlive u hlt hd r (by rw [← hthreads u hu]; exact hr)
  | processCreate hun =>
      rw [hun.processesLive]
      refine iff_of_true (fun u hlt hd p hp => ?_) rfl
      obtain ⟨hpos, hpid, hndead⟩ := hlive u hlt hd p hp
      exact ⟨hpos, Nat.lt_succ_of_lt hpid, hndead⟩
  | @destroy _ t _ hcreates hdestroys hd =>
      rw [hd.processesLive hm hr hlive]
      simp only [hcreates, hdestroys, Option.all_some, Option.all_none, Bool.true_and]
      unfold strandsNone
      cases hp : (m.tasks.threads t).process with
      | none => simp
      | some p =>
          simp only [Option.some.injEq, forall_eq', Bool.or_eq_true, Bool.not_eq_true',
            List.isEmpty_eq_false_iff]
          constructor
          · intro h
            by_cases hempty : m.groupAfter t p = []
            · exact .inr (h hempty)
            · exact .inl hempty
          · rintro (hne | hun) hempty
            · exact absurd hempty hne
            · exact hun

/-- What a run keeps. -/
structure ProcessInv (m : Machine) : Prop where
  inv : MachineInv m
  rosters : Rosters m
  live : ProcessesLive m

theorem ProcessInv.live_step (h : ProcessInv m) (hs : m.step l = some m') :
    ProcessesLive m' ↔ m.keepsProcesses l = true := by
  obtain ⟨c, hc, hmoves⟩ := step_moves hs
  cases hmoves with
  | @run i rest _ hcode hfires =>
      have hhead : m.head = some i := by simp [head, hc, hcode]
      exact (h.inv.rosterStep hc hcode hfires).processesLive h.inv h.rosters hhead h.live
  | client _ _ _ hfires =>
      cases hfires
      exact iff_of_true h.live rfl
  | setFlag | timer => exact iff_of_true h.live rfl

theorem ProcessInv.step (h : ProcessInv m) (hok : m.permitted l = true)
    (hkeeps : m.keepsProcesses l = true) (hs : m.step l = some m') : ProcessInv m' := by
  refine ⟨h.inv.step hok hs, ?_, (h.live_step hs).mpr hkeeps⟩
  obtain ⟨c, hc, hmoves⟩ := step_moves hs
  cases hmoves with
  | @run i rest _ hcode hfires =>
      refine h.rosters.step (h.inv.rosterStep hc hcode hfires) ?_
      rintro t p rfl hp
      have hlt := h.inv.targets c (.body (.threadAdd t)) (by simp [hcode]) t rfl
      have hd : t ∉ m.destroyed := by simpa [permitted, head, hc, hcode] using hok
      exact (h.live t hlt hd p hp).2.1
  | client _ _ _ hfires =>
      cases hfires
      exact ⟨h.rosters.listed, h.rosters.named⟩
  | setFlag | timer => exact ⟨h.rosters.listed, h.rosters.named⟩

theorem boot_processInv (idleStack reaperStack pageDirectory esp0 cr3 : Nat) :
    ProcessInv (boot idleStack reaperStack pageDirectory esp0 cr3) := by
  have hthread : ∀ t, t ≠ reaperThread →
      ((boot idleStack reaperStack pageDirectory esp0 cr3).tasks.threads t).groupNode = false ∧
        (t < 2 → ((boot idleStack reaperStack pageDirectory esp0 cr3).tasks.threads t).process =
          none) := by
    intro t ht
    by_cases hidle : t = idleThread
    · subst hidle
      exact ⟨rfl, fun _ => rfl⟩
    · refine ⟨?_, fun hlt => ?_⟩
      · simp [boot, hidle, ht, Thread.created]
      · rcases Nat.lt_succ_iff_lt_or_eq.mp hlt with hzero | hone
        · exact absurd (Nat.lt_one_iff.mp hzero) hidle
        · exact absurd hone ht
  have hreaper : ∀ t p,
      ((boot idleStack reaperStack pageDirectory esp0 cr3).tasks.threads t).groupNode = true →
      ((boot idleStack reaperStack pageDirectory esp0 cr3).tasks.threads t).process = some p →
        t = reaperThread ∧ p = reaperProcess := by
    intro t p hg hp
    by_cases ht : t = reaperThread
    · subst ht
      exact ⟨rfl, (Option.some.inj hp).symm⟩
    · rw [(hthread t ht).1] at hg
      cases hg
  refine ⟨boot_inv .., ⟨fun t p hg hp => ?_, fun t p hg hp => ?_⟩, fun t hlt _ p hp => ?_⟩
  · obtain ⟨rfl, rfl⟩ := hreaper t p hg hp
    exact List.mem_singleton_self _
  · obtain ⟨-, rfl⟩ := hreaper t p hg hp
    exact Nat.lt_succ_self 1
  · by_cases ht : t = reaperThread
    · subst ht
      obtain rfl : reaperProcess = p := Option.some.inj hp
      exact ⟨Nat.zero_lt_one, Nat.lt_succ_self 1, List.not_mem_nil⟩
    · rw [(hthread t ht).2 hlt] at hp
      cases hp

/-- In every run in which no thread list is emptied while a thread waits to be added to it, and no
thread is created in a process that is gone, a process outlives every thread ever created in it; and
the first step to do either of the two is the first to break this. -/
theorem process_outlives_threads {idleStack reaperStack pageDirectory esp0 cr3 : Nat}
    {ls : List Label} (hrun : Run step (fun m l => m.permitted l = true ∧ m.keepsProcesses l = true)
      (boot idleStack reaperStack pageDirectory esp0 cr3) ls m) :
    ProcessesLive m ∧ ∀ l m', m.permitted l = true → m.step l = some m' →
      (ProcessesLive m' ↔ m.keepsProcesses l = true) := by
  have hinv : ProcessInv m := by
    apply hrun.invariant
    · exact boot_processInv ..
    · intro m l m' h hok hs
      exact h.step hok.1 hok.2 hs
  exact ⟨hinv.live, fun l m' _ hs => hinv.live_step hs⟩

/-- Process 2 has thread 2, which thread 3 of another process joins: process 2 goes with it. -/
theorem process_outlives_threads_joined :
    ∃ m, exec step (fun m l => m.permitted l = true ∧ m.keepsProcesses l = true) (boot 0 0 0 0 0)
      ([.client (.processCreate 0), .run, .run, .client (.threadCreate 2 kernelStacksStart), .run,
        .run, .client (.threadAdd 2), .run, .run] ++ spawn 3 ++ [.setFlag true] ++ quantum ++
        [.run, .run, .run, .client .threadKillCurrent, .run, .run, .client (.threadJoin 2), .run,
          .run]) = some m ∧
      m.destroyedProcesses = [2] ∧ ProcessesLive m ∧
      ∀ l m', m.permitted l = true → m.step l = some m' →
        (ProcessesLive m' ↔ m.keepsProcesses l = true) := by
  have h : ((exec step (fun m l => m.permitted l = true ∧ m.keepsProcesses l = true) (boot 0 0 0 0 0)
      ([.client (.processCreate 0), .run, .run, .client (.threadCreate 2 kernelStacksStart), .run,
        .run, .client (.threadAdd 2), .run, .run] ++ spawn 3 ++ [.setFlag true] ++ quantum ++
        [.run, .run, .run, .client .threadKillCurrent, .run, .run, .client (.threadJoin 2), .run,
          .run])).map fun m => m.destroyedProcesses) = some [2] := by decide +kernel
  obtain ⟨m, hm, hend⟩ := Option.map_eq_some_iff.mp h
  exact ⟨m, hm, hend, process_outlives_threads (run_of_exec hm)⟩

/-- Process 2 has thread 2, and thread 3, which has not been added yet. Thread 4 joins thread 2, and
process 2 is destroyed with thread 3 still to come. -/
theorem process_destroyed_under_thread :
    ¬ ∀ (idleStack reaperStack pageDirectory esp0 cr3 : Nat) (ls : List Label) (m : Machine),
      Run step (fun m l => m.permitted l = true) (boot idleStack reaperStack pageDirectory esp0 cr3)
        ls m → ProcessesLive m := by
  intro hall
  have h : ((exec step (fun m l => m.permitted l = true) (boot 0 0 0 0 0)
      ([.client (.processCreate 0), .run, .run, .client (.threadCreate 2 kernelStacksStart), .run,
        .run, .client (.threadAdd 2), .run, .run, .client (.threadCreate 2 kernelStacksStart), .run,
        .run] ++ spawn 4 ++ [.setFlag true] ++ quantum ++ [.run, .run, .run,
        .client .threadKillCurrent, .run, .run, .client (.threadJoin 2), .run, .run])).map
      fun m => (m.nextTid, (m.tasks.threads 3).process, m.destroyed, m.destroyedProcesses)) =
      some (5, some 2, [2], [2]) := by decide +kernel
  obtain ⟨m, hm, hend⟩ := Option.map_eq_some_iff.mp h
  simp only [Prod.mk.injEq] at hend
  obtain ⟨hnext, hprocess, hdestroyed, hdead⟩ := hend
  have hlive := hall 0 0 0 0 0 _ m (run_of_exec hm) 3 (hnext ▸ by decide)
    (by simp [hdestroyed]) 2 hprocess
  exact hlive.2.2 (by simp [hdead])

end Machine

end Neox
