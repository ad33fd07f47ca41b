import Neox.Lib.Pending
import Neox.Task.Machine
import Neox.Task.Steady

/-!
# The invariant of the interleaved threads

`MachineInv` adds to the scheduler invariant what holds of the threads' instructions. Its main
point is the window between the moment a waiter is taken off its queue and the `thread_unblock`
that readies it: a thread about to be unblocked is blocked, linked nowhere, and exactly one thread
is about to unblock it. A thread's own program keeps to that too when it calls `thread_unblock`
itself, which is what `permitted` asks.
-/

namespace Neox

open Pending

/-- The thread an instruction names. -/
def Instr.target : Instr → Option ThreadId
  | .call c | .body c => c.target
  | .joinDestroy t => some t
  | _ => none

/-- The thread an instruction is about to unblock. -/
def Instr.wakes : Instr → Option ThreadId
  | .call (.threadUnblock t) | .body (.threadUnblock t) => some t
  | _ => none

/-- What the idle thread executes, boot included: nothing that would block it. -/
def Instr.idle : Instr → Bool
  | .call c | .body c => c.boot
  | .ret _ _ | .interruptRestore _ | .schedulerTick => true
  | _ => false

namespace Machine

/-- A program unblocks a thread that sleeps in no queue and that nobody else is unblocking, and
adds no thread that has been destroyed. -/
def permitted (m : Machine) : Label → Bool
  | .client (.threadUnblock t) => !(m.tasks.threads t).waitNode &&
      (List.range m.nextTid).all fun u => occurs Instr.wakes t (m.code u) == 0
  | .run => match m.head with
      | some (.body (.threadAdd t)) => !m.destroyed.contains t
      | _ => true
  | _ => true

structure MachineInv (m : Machine) : Prop where
  inv : TasksInv m.tasks
  runs : CurrentRuns m.tasks
  reaper_lt : reaperThread < m.nextTid
  /-- A thread that has not been created yet is as `thread_create` will find it. -/
  fresh : ∀ t, m.nextTid ≤ t → m.tasks.threads t = Thread.created 0 0 ∧ m.code t = []
  targets : ∀ u, ∀ i ∈ m.code u, ∀ t, i.target = some t → t < m.nextTid
  idle_code : ∀ i ∈ m.code idleThread, i.idle = true
  added : ∀ t, t ≠ idleThread → (m.tasks.threads t).groupNode = false →
    t ∈ m.destroyed ∨ (m.tasks.threads t).state = .ready
  destroyed : ∀ t ∈ m.destroyed,
    (m.tasks.threads t).state = .terminated ∧ (m.tasks.threads t).groupNode = false
  waking : ∀ t u, 0 < occurs Instr.wakes t (m.code u) →
    (m.tasks.threads t).state = .blocked ∧ (m.tasks.threads t).waitNode = false
  waking_once : AtMostOnce Instr.wakes m.code

/-! ## Codes -/

theorem target_of_wakes {i : Instr} {t : ThreadId} (h : i.wakes = some t) : i.target = some t := by
  unfold Instr.wakes at h
  split at h
  · exact h
  · exact h
  · cases h

/-- `code` unblocks nobody that `m.code c` did not. -/
structure CodeFrom (m : Machine) (c : ThreadId) (code : List Instr) : Prop where
  wakes : ∀ t, occurs Instr.wakes t code ≤ occurs Instr.wakes t (m.code c)
  targets : ∀ i ∈ code, ∀ t, i.target = some t → t < m.nextTid
  idle : c = idleThread → ∀ i ∈ code, i.idle = true

/-- What thread `c` may push in front of its remaining instructions. -/
def Pushes (m : Machine) (c : ThreadId) (i : Instr) : Prop :=
  i.wakes = none ∧ (∀ t, i.target = some t → t < m.nextTid) ∧ (c = idleThread → i.idle = true)

variable {m m' : Machine} {c : ThreadId} {code rest : List Instr} {i : Instr} {s : Tasks}

theorem MachineInv.codeFrom (hm : MachineInv m) (pre : List Instr) (hcode : m.code c = i :: rest)
    (hpre : ∀ j ∈ pre, m.Pushes c j) : CodeFrom m c (pre ++ rest) where
  wakes t := by
    rw [hcode, occurs_append, occurs_eq_zero fun j hj => (hpre j hj).1, occurs_cons]
    omega
  targets j hj t ht := by
    rcases List.mem_append.mp hj with hj | hj
    · exact (hpre j hj).2.1 t ht
    · exact hm.targets c j (by simp [hcode, hj]) t ht
  idle hc j hj := by
    rcases List.mem_append.mp hj with hj | hj
    · exact (hpre j hj).2.2 hc
    · exact hm.idle_code j (by simp [← hc, hcode, hj])

/-! ## Threads -/

/-- What `MachineInv` needs of a change to the tasking state that unblocks at most `woken` of the
threads that sleep in no queue. -/
structure Keeps (m : Machine) (s : Tasks) (woken : Option ThreadId) : Prop where
  inv : TasksInv s
  runs : CurrentRuns s
  fresh : ∀ t, m.nextTid ≤ t → s.threads t = m.tasks.threads t
  linked : ∀ t, (s.threads t).groupNode = false → (m.tasks.threads t).groupNode = false
  unlinked : ∀ t ∈ m.destroyed, (s.threads t).groupNode = false
  unadded : ∀ t, t ≠ idleThread → (s.threads t).groupNode = false →
    (m.tasks.threads t).state = .ready → (s.threads t).state = .ready
  terminated : ∀ t, (m.tasks.threads t).state = .terminated → (s.threads t).state = .terminated
  parked : ∀ t, woken ≠ some t → (m.tasks.threads t).state = .blocked →
    (m.tasks.threads t).waitNode = false → (s.threads t).state = .blocked ∧ (s.threads t).waitNode = false

theorem MachineInv.current_lt (hm : MachineInv m) (hc : m.tasks.current = some c) :
    c < m.nextTid := by
  by_contra hge
  have hfresh := (hm.fresh c (Nat.le_of_not_lt hge)).1
  rcases hm.runs c hc with rfl | hrun
  · exact hge (Nat.lt_of_le_of_lt (Nat.zero_le _) hm.reaper_lt)
  · simp [hfresh, Thread.created] at hrun

theorem MachineInv.advance_woken (hm : MachineInv m) (woken : Option ThreadId)
    (hc : m.tasks.current = some c) (hs : m.Keeps s woken) (hcode : CodeFrom m c code)
    (hwoken : ∀ t u, woken = some t → occurs Instr.wakes t ((m.advance c code s).code u) = 0) :
    MachineInv (m.advance c code s) := by
  have hlt := hm.current_lt hc
  have hwak : ∀ t u, occurs Instr.wakes t ((m.advance c code s).code u) ≤ occurs Instr.wakes t (m.code u) := by
    intro t u
    by_cases hu : u = c
    · subst hu
      simpa [Machine.advance] using hcode.wakes t
    · simp [Machine.advance, hu]
  refine ⟨hs.inv, hs.runs, hm.reaper_lt, fun t ht => ?_, fun u j hj t ht => ?_, fun j hj => ?_,
    fun t hne hg => ?_, fun t ht => ?_, fun t u h => ?_, ?_⟩
  · have hne : t ≠ c := Nat.ne_of_gt (Nat.lt_of_lt_of_le hlt ht)
    exact ⟨(hs.fresh t ht).trans (hm.fresh t ht).1,
      by simpa [Machine.advance, hne] using (hm.fresh t ht).2⟩
  · by_cases hu : u = c
    · subst hu
      exact hcode.targets j (by simpa [Machine.advance] using hj) t ht
    · exact hm.targets u j (by simpa [Machine.advance, hu] using hj) t ht
  · by_cases hu : idleThread = c
    · exact hcode.idle hu.symm j (by simpa [Machine.advance, ← hu] using hj)
    · exact hm.idle_code j (by simpa [Machine.advance, hu] using hj)
  · exact (hm.added t hne (hs.linked t hg)).imp_right (hs.unadded t hne hg)
  · exact ⟨hs.terminated t (hm.destroyed t ht).1, hs.unlinked t ht⟩
  · obtain ⟨hb, hn⟩ := hm.waking t u (Nat.lt_of_lt_of_le h (hwak t u))
    refine hs.parked t (fun e => ?_) hb hn
    rw [hwoken t u e] at h
    exact Nat.lt_irrefl 0 h
  · exact hm.waking_once.mono hwak

theorem MachineInv.advance (hm : MachineInv m) (hc : m.tasks.current = some c)
    (hs : m.Keeps s none) (hcode : CodeFrom m c code) : MachineInv (m.advance c code s) :=
  hm.advance_woken none hc hs hcode (by simp)

theorem Keeps.trans {s' : Tasks} (h : m.Keeps s none) (h' : ({ m with tasks := s }).Keeps s' none) :
    m.Keeps s' none where
  inv := h'.inv
  runs := h'.runs
  fresh t ht := (h'.fresh t ht).trans (h.fresh t ht)
  linked t ht := h.linked t (h'.linked t ht)
  unlinked := h'.unlinked
  unadded t hne hg hr := h'.unadded t hne hg (h.unadded t hne (h'.linked t hg) hr)
  terminated t ht := h'.terminated t (h.terminated t ht)
  parked t hw hb hn := by
    obtain ⟨hb₁, hn₁⟩ := h.parked t hw hb hn
    exact h'.parked t hw hb₁ hn₁

theorem MachineInv.current_running (hm : MachineInv m) (hc : m.tasks.current = some c) :
    (m.tasks.threads c).state = .running := by
  rcases hm.runs c hc with rfl | h
  · exact hm.inv.idle_running
  · exact h

/-- A frame around a thread that runs or has terminated. -/
theorem MachineInv.keeps (hm : MachineInv m)
    (hc : (m.tasks.threads c).state = .running ∨ (m.tasks.threads c).state = .terminated)
    (hs : Frame c m.tasks s) (hruns : CurrentRuns s) : m.Keeps s none := by
  have hidle : idleThread < m.nextTid := Nat.lt_of_le_of_lt (Nat.zero_le _) hm.reaper_lt
  have hne : ∀ t, (m.tasks.threads t).state = .ready ∨ (m.tasks.threads t).state = .blocked →
      t ≠ c ∧ t ≠ idleThread := by
    intro t ht
    constructor
    · rintro rfl
      rcases ht with e | e <;> simp [e] at hc
    · rintro rfl
      rcases ht with e | e <;> simp [hm.inv.idle_running] at e
  refine ⟨hs.inv, hruns, fun t ht => ?_, fun t hg => (hs.groupNode t).symm.trans hg,
    fun t ht => (hs.groupNode t).trans (hm.destroyed t ht).2, fun t _ hg hr => ?_, hs.terminated,
    fun t _ hb hn => ?_⟩
  · have hfresh := (hm.fresh t ht).1
    obtain ⟨htc, hti⟩ := hne t (.inl (by simp [hfresh, Thread.created]))
    exact hs.outside t htc hti (by simp [hfresh, Thread.created]) (by simp [hfresh, Thread.created])
  · have hg := (hs.groupNode t).symm.trans hg
    have hnode : (m.tasks.threads t).schedNode = false := by
      by_contra hn
      have hmem := (hm.inv.sched_node t).mp (by simpa using hn)
      have := ((hm.inv.ready_iff t).mp hmem).2.1
      simp [hg] at this
    obtain ⟨htc, hti⟩ := hne t (.inl hr)
    rw [hs.outside t htc hti hnode (hm.inv.not_waiting (by simp [hr])), hr]
  · have hnode : (m.tasks.threads t).schedNode = false := by
      by_contra hn
      have hmem := (hm.inv.sched_node t).mp (by simpa using hn)
      have := ((hm.inv.ready_iff t).mp hmem).2.2
      simp [hb] at this
    obtain ⟨htc, hti⟩ := hne t (.inr hb)
    rw [hs.outside t htc hti hnode hn]
    exact ⟨hb, hn⟩

/-- The invariant does not read the objects, nor what is only recorded. -/
theorem MachineInv.update (hm : MachineInv m) (htasks : m'.tasks = m.tasks)
    (hcode : m'.code = m.code) (hnext : m'.nextTid = m.nextTid)
    (hdestroyed : m'.destroyed = m.destroyed) : MachineInv m' := by
  obtain ⟨h1, h2, h3, h4, h5, h6, h7, h8, h9, h10⟩ := hm
  rw [← htasks] at h1 h2 h4 h7 h8 h9
  rw [← hcode] at h4 h5 h6 h9 h10
  rw [← hnext] at h3 h4 h5
  rw [← hdestroyed] at h7 h8
  exact ⟨h1, h2, h3, h4, h5, h6, h7, h8, h9, h10⟩

/-! ## Waking -/

/-- Thread `c` is now the one that is about to unblock `t`. -/
theorem MachineInv.addWaking (hm : MachineInv m) (t : ThreadId) (code : List Instr)
    (hlt : c < m.nextTid)
    (hwak : ∀ u, occurs Instr.wakes u code =
      occurs Instr.wakes u (m.code c) + if u = t then 1 else 0)
    (htargets : ∀ i ∈ code, ∀ t, i.target = some t → t < m.nextTid) (hidle : c ≠ idleThread)
    (hb : (m.tasks.threads t).state = .blocked) (hn : (m.tasks.threads t).waitNode = false)
    (hnone : ∀ u, occurs Instr.wakes t (m.code u) = 0) :
    MachineInv (m.advance c code m.tasks) := by
  refine ⟨hm.inv, hm.runs, hm.reaper_lt, fun u hu => ?_, fun u j hj t' ht => ?_, fun j hj => ?_,
    hm.added, hm.destroyed, fun t' u h => ?_, ?_⟩
  · have hne : u ≠ c := Nat.ne_of_gt (Nat.lt_of_lt_of_le hlt hu)
    exact ⟨(hm.fresh u hu).1, by simpa [Machine.advance, hne] using (hm.fresh u hu).2⟩
  · by_cases hu : u = c
    · subst hu
      exact htargets j (by simpa [Machine.advance] using hj) t' ht
    · exact hm.targets u j (by simpa [Machine.advance, hu] using hj) t' ht
  · exact hm.idle_code j (by simpa [Machine.advance, hidle.symm] using hj)
  · by_cases ht : t' = t
    · exact ht ▸ ⟨hb, hn⟩
    · refine hm.waking t' u ?_
      by_cases hu : u = c
      · subst hu
        simpa [hwak t', ht] using h
      · simpa [Machine.advance, hu] using h
  · refine hm.waking_once.add hnone (fun u hu => advance_code_ne m code m.tasks hu) fun t' => ?_
    exact Nat.le_of_eq (by rw [advance_code_self, hwak])

/-- A thread linked in a wait queue is not about to be unblocked. -/
theorem MachineInv.not_waking (hm : MachineInv m) {t : ThreadId}
    (hn : (m.tasks.threads t).waitNode = true) (u : ThreadId) : occurs Instr.wakes t (m.code u) = 0 := by
  by_contra h
  simp [(hm.waking t u (Nat.pos_of_ne_zero h)).2] at hn

/-- `mutex_unlock` and `semaphore_release` take a waiter off the queue and are then about to
unblock it. -/
theorem MachineInv.handOver {q : WaitQueue} {t : ThreadId} (hm : MachineInv m) (pre : List Instr)
    (hc : m.tasks.current = some c) (hidle : c ≠ idleThread) (hcode : m.code c = i :: rest)
    (hpre : ∀ j ∈ pre, m.Pushes c j)
    (hs : waitQueueRemove m.tasks.masked q = some (some t, s)) :
    MachineInv (m.advance c (pre ++ .call (.threadUnblock t) :: rest) s) := by
  have hoff : Steady c m.tasks m.tasks.masked := .setFlag hm.inv false
  have hrem := waitQueueRemove_continues (c := c) hoff.inv hm.runs hs
  have hm₁ := hm.advance hc (hm.keeps (.inl (hm.current_running hc)) (hoff.trans hrem.toSteady).toFrame hrem.runs)
    (hm.codeFrom pre hcode hpre)
  obtain ⟨-, hnil, -⟩ | ⟨t', l, hq, ht, he⟩ := waitQueueRemove_spec hs
  · cases hnil
  · cases ht
    have hq : m.tasks.waiting q = t :: l := hq
    have hmem : t ∈ m.tasks.waiting q := by simp [hq]
    have hb := (hm.inv.waiting_blocked q t hmem).1
    have hnone := hm.not_waking ((hm.inv.wait_node t).mpr ⟨q, hmem⟩)
    have hlt : t < m.nextTid := by
      by_contra hge
      simp [(hm.fresh t (Nat.le_of_not_lt hge)).1, Thread.created] at hb
    have hadd := hm₁.addWaking t (pre ++ .call (.threadUnblock t) :: rest) (hm.current_lt hc)
      (fun u => ?_) (fun j hj u hu => ?_) hidle (by simp [Machine.advance, he, hb])
      (by simp [Machine.advance, he]) (fun u => ?_)
    · refine hadd.update rfl ?_ rfl rfl
      simp [Machine.advance]
    · simp only [advance_code_self, occurs_append]
      simp [Instr.wakes, Nat.add_assoc, eq_comm]
    · rcases List.mem_append.mp hj with hj | hj
      · exact (hpre j hj).2.1 u hu
      · rcases List.mem_cons.mp hj with rfl | hj
        · cases hu
          exact hlt
        · exact hm.targets c j (by simp [hcode, hj]) u hu
    · by_cases hu : u = c
      · subst hu
        have := hnone u
        rw [hcode] at this
        simp only [advance_code_self, occurs_append]
        rw [occurs_eq_zero fun j hj => (hpre j hj).1]
        simp only [occurs_cons] at this ⊢
        omega
      · simpa [Machine.advance, hu] using hnone u

/-- The `thread_unblock` of the one thread that is about to ready `t`. -/
theorem MachineInv.unblock {t : ThreadId} (hm : MachineInv m) (pre : List Instr)
    (hc : m.tasks.current = some c) (hcode : m.code c = .body (.threadUnblock t) :: rest) (hpre : ∀ j ∈ pre, m.Pushes c j)
    (hs : schedulerAdd (m.tasks.masked.modify t fun th => { th with state := .ready }) t = some s) :
    MachineInv (m.advance c (pre ++ rest) s) := by
  have hone : occurs Instr.wakes t rest + 1 = occurs Instr.wakes t (m.code c) := by
    simp [hcode, Instr.wakes]
  have hpos : 0 < occurs Instr.wakes t (m.code c) := by omega
  obtain ⟨hb, hn⟩ := hm.waking t c hpos
  have hg : (m.tasks.threads t).groupNode = true := by
    by_contra hg
    have hne : t ≠ idleThread := by
      rintro rfl
      simp [hm.inv.idle_running] at hb
    rcases hm.added t hne (by simpa using hg) with hd | hr
    · simp [(hm.destroyed t hd).1] at hb
    · simp [hr] at hb
  have hun : threadUnblock m.tasks.masked t = some s := by
    obtain ⟨-, -, rfl⟩ := schedulerAdd_spec hs
    simp [threadUnblock, hb, hs]
  have hinv := threadUnblock_inv (hm.inv.setFlag false) hn hun
  obtain ⟨-, -, rfl⟩ := threadUnblock_spec hun
  have hfresh : ∀ u, m.nextTid ≤ u → u ≠ t := by
    rintro u hu rfl
    simp [(hm.fresh u hu).1, Thread.created] at hb
  refine hm.advance_woken (some t) hc ⟨hinv, fun u hu => ?_, fun u hu => ?_, fun u => ?_,
    fun u hd => ?_, fun u hne hgu hr => ?_, fun u hu => ?_, fun u hne hbu hnu => ?_⟩
    (hm.codeFrom pre hcode hpre) ?_
  · have := hm.runs u hu
    simp only [Tasks.modify_threads]
    grind
  · simp [Tasks.modify_threads, hfresh u hu]
  · simp only [Tasks.modify_threads]
    split <;> simp_all
  · have := hm.destroyed u hd
    simp only [Tasks.modify_threads]
    split <;> simp_all
  · simp only [Tasks.modify_threads]
    split <;> simp_all
  · have hut : u ≠ t := by
      rintro rfl
      simp [hu] at hb
    simp [Tasks.modify_threads, hut, hu]
  · have hut : u ≠ t := fun e => hne (by rw [e])
    simp [Tasks.modify_threads, hut, hbu, hnu]
  · rintro t' u ⟨⟩
    refine hm.waking_once.done (fun v hv => advance_code_ne m _ _ hv) ?_ u
    rw [advance_code_self, occurs_append, occurs_eq_zero fun j hj => (hpre j hj).1]
    omega

/-! ## Creation, addition and destruction -/

theorem MachineInv.add {t : ThreadId} (hm : MachineInv m) (hc : m.tasks.current = some c)
    (hcode : CodeFrom m c code) (hlt : t < m.nextTid) (halive : t ∉ m.destroyed)
    (hs : threadAdd m.tasks t = some s) : MachineInv (m.advance c code s) := by
  obtain ⟨-, hg, hn, p, hp, he⟩ := threadAdd_spec hs
  have hidle : t ≠ idleThread := by
    rintro rfl
    simp [hm.inv.idle_process] at hp
  have hready := (hm.added t hidle hg).resolve_left halive
  have hinv := threadAdd_inv hm.inv hready hs
  have hself : s.threads t = { m.tasks.threads t with groupNode := true, schedNode := true } := by
    simp [he]
  have hother : ∀ u, u ≠ t → s.threads u = m.tasks.threads u := fun u hu => by
    simp [he, Tasks.modify_threads, hu]
  have hcases : ∀ u, u = t ∨ s.threads u = m.tasks.threads u := fun u =>
    (em (u = t)).imp_right (hother u)
  refine hm.advance hc ⟨hinv, fun u hu => ?_, fun u hu => ?_, fun u hgu => ?_, fun u hd => ?_,
    fun u _ _ hr => ?_, fun u hu => ?_, fun u _ hb hnu => ?_⟩ hcode
  · have := hm.runs u (by simpa [he] using hu)
    rcases hcases u with rfl | e
    · simpa [hself] using this
    · rwa [e]
  · exact hother u (Nat.ne_of_gt (Nat.lt_of_lt_of_le hlt hu))
  · rcases hcases u with rfl | e
    · simp [hself] at hgu
    · rwa [← e]
  · rw [hother u fun e => halive (e ▸ hd)]
    exact (hm.destroyed u hd).2
  · rcases hcases u with rfl | e
    · simp [hself, hr]
    · rwa [e]
  · rcases hcases u with rfl | e
    · simp [hself, hu]
    · rwa [e]
  · rcases hcases u with rfl | e
    · simp [hready] at hb
    · rw [e]
      exact ⟨hb, hnu⟩

theorem threadDestroy_spec {s s' : Tasks} {t : ThreadId} (h : threadDestroy s t = some s') :
    s.interruptEnabled = false ∧ (s.threads t).state = .terminated ∧
      ∃ g, s' = { s.modify t (fun th => { th with groupNode := false, kernelStack := 0 }) with
        group := g } ∧ ∀ p u, u ≠ t → (u ∈ g p ↔ u ∈ s.group p) := by
  unfold threadDestroy at h
  split at h
  · cases h
  · rename_i hif
    split at h
    · cases h
    · rename_i hterm
      refine ⟨by simpa using hif, by simpa using hterm, ?_⟩
      simp only at h
      cases h
      split
      · rename_i p hp
        split
        · refine ⟨_, rfl, fun r u hu => ?_⟩
          simp only [Tasks.setGroup, Function.update_apply]
          split
          · rename_i hr
            subst hr
            exact List.mem_erase_of_ne hu
          · rfl
        · exact ⟨_, rfl, fun _ _ _ => .rfl⟩
      · exact ⟨_, rfl, fun _ _ _ => .rfl⟩

theorem threadDestroy_inv {s s' : Tasks} {t : ThreadId} (hs : TasksInv s)
    (h : threadDestroy s t = some s') : TasksInv s' := by
  obtain ⟨-, hterm, g, rfl, -⟩ := threadDestroy_spec h
  obtain ⟨h1, h2, h3, h4, h5, h6, h7, h8, h9, h10, h11, h12, h13, h14, h15⟩ := hs
  constructor <;> simp only [Tasks.modify_threads, Tasks.modify_waiting, Tasks.modify_zombieList,
    Tasks.modify_current, Tasks.modify_quantumRemaining, Tasks.modify_readyList]
  all_goals grind

/-- `thread_destroy`, then `process_destroy` or not. -/
theorem destroy_spec {t : ThreadId} (h : m.destroy t = some m') :
    ∃ s l, threadDestroy m.tasks t = some s ∧
      m' = { m with tasks := s, destroyed := m.destroyed ++ [t], destroyedProcesses := l } := by
  obtain ⟨s, hs, hm⟩ := Option.bind_eq_some_iff.mp h
  simp only at hm
  split at hm
  · split at hm
    · cases hm
      exact ⟨s, _, hs, rfl⟩
    · cases hm
      exact ⟨s, m.destroyedProcesses, hs, rfl⟩
  · cases hm
    exact ⟨s, m.destroyedProcesses, hs, rfl⟩

/-- A thread record that `thread_create` takes over differs from the new one in nothing the
scheduler reads. -/
theorem TasksInv.create {s : Tasks} {t : ThreadId} {process : ProcessId} {kernelStack : Nat}
    (hs : TasksInv s) (ht : s.threads t = Thread.created 0 0) (hidle : t ≠ idleThread) :
    TasksInv (s.modify t fun _ => Thread.created process kernelStack) := by
  obtain ⟨h1, h2, h3, h4, h5, h6, h7, h8, h9, h10, h11, h12, h13, h14, h15⟩ := hs
  have hold : (s.threads t).state = .ready ∧ (s.threads t).groupNode = false ∧
      (s.threads t).schedNode = false ∧ (s.threads t).waitNode = false ∧
      (s.threads t).zombieNode = false := by
    simp [ht, Thread.created]
  constructor <;> simp only [Tasks.modify_threads, Tasks.modify_waiting, Tasks.modify_zombieList,
    Tasks.modify_current, Tasks.modify_quantumRemaining, Tasks.modify_readyList, Thread.created]
  all_goals grind

theorem MachineInv.create {process : ProcessId} {kernelStack : Nat} (hm : MachineInv m) :
    MachineInv { m with
      tasks := m.tasks.modify m.nextTid fun _ => Thread.created process kernelStack
      code := Function.update m.code m.nextTid [.interruptEnable]
      nextTid := m.nextTid + 1 } := by
  have hnew := hm.fresh m.nextTid (Nat.le_refl _)
  have hidle : m.nextTid ≠ idleThread :=
    Nat.ne_of_gt (Nat.lt_of_le_of_lt (Nat.zero_le _) hm.reaper_lt)
  have hcases : ∀ u, u = m.nextTid ∨
      (m.tasks.modify m.nextTid fun _ => Thread.created process kernelStack).threads u =
        m.tasks.threads u := fun u => (em (u = m.nextTid)).imp_right fun hu => by
    simp [Tasks.modify_threads, hu]
  have hcode : ∀ u, u = m.nextTid ∨
      Function.update m.code m.nextTid [.interruptEnable] u = m.code u := fun u =>
    (em (u = m.nextTid)).imp_right fun hu => Function.update_of_ne hu ..
  have hwak : ∀ t u, occurs Instr.wakes t (Function.update m.code m.nextTid [.interruptEnable] u) =
      occurs Instr.wakes t (m.code u) := fun t u => by
    rcases hcode u with rfl | e
    · simp [hnew.2, Instr.wakes]
    · rw [e]
  refine ⟨TasksInv.create hm.inv hnew.1 hidle, fun u hu => ?_, Nat.lt_succ_of_lt hm.reaper_lt,
    fun u hu => ?_, fun u j hj t ht => ?_, fun j hj => ?_, fun u hne hg => ?_, fun u hu => ?_,
    fun t u h => ?_, hm.waking_once.mono fun t u => ?_⟩
  · have hrun := hm.runs u hu
    rcases hcases u with rfl | e
    · exact absurd (hm.current_lt hu) (Nat.lt_irrefl _)
    · simp only
      rwa [e]
  · have hne : u ≠ m.nextTid := Nat.ne_of_gt hu
    have hold := hm.fresh u (Nat.le_of_succ_le hu)
    exact ⟨((hcases u).resolve_left hne).trans hold.1, ((hcode u).resolve_left hne).trans hold.2⟩
  · simp only at hj
    rcases hcode u with rfl | e
    · simp only [Function.update_self, List.mem_singleton] at hj
      simp [hj, Instr.target] at ht
    · exact Nat.lt_succ_of_lt (hm.targets u j (e ▸ hj) t ht)
  · exact hm.idle_code j (((hcode idleThread).resolve_left hidle.symm) ▸ hj)
  · simp only at hg ⊢
    rcases hcases u with rfl | e
    · exact .inr (by simp [Thread.created])
    · rw [e] at hg ⊢
      exact hm.added u hne hg
  · have hold := hm.destroyed u hu
    rcases hcases u with rfl | e
    · simp [hnew.1, Thread.created] at hold
    · simp only
      rwa [e]
  · simp only [hwak] at h
    have hold := hm.waking t u h
    rcases hcases t with rfl | e
    · simp [hnew.1, Thread.created] at hold
    · simp only
      rwa [e]
  · exact Nat.le_of_eq (hwak t u)

theorem MachineInv.destroy {t : ThreadId} (hm : MachineInv m) (h : m.destroy t = some m') :
    MachineInv m' := by
  obtain ⟨s, l, hs, rfl⟩ := destroy_spec h
  have hinv := threadDestroy_inv hm.inv hs
  obtain ⟨-, hterm, g, he, -⟩ := threadDestroy_spec hs
  have hlt : t < m.nextTid := by
    by_contra hge
    simp [(hm.fresh t (Nat.le_of_not_lt hge)).1, Thread.created] at hterm
  have hself : s.threads t = { m.tasks.threads t with groupNode := false, kernelStack := 0 } := by
    simp [he]
  have hother : ∀ u, u ≠ t → s.threads u = m.tasks.threads u := fun u hu => by
    simp [he, Tasks.modify_threads, hu]
  have hstate : ∀ u, (s.threads u).state = (m.tasks.threads u).state := fun u => by
    by_cases hu : u = t
    · rw [hu, hself]
    · rw [hother u hu]
  have hwait : ∀ u, (s.threads u).waitNode = (m.tasks.threads u).waitNode := fun u => by
    by_cases hu : u = t
    · rw [hu, hself]
    · rw [hother u hu]
  have hcur : s.current = m.tasks.current := by simp [he]
  refine ⟨hinv, fun u hu => ?_, hm.reaper_lt, fun u hu => ?_, hm.targets, hm.idle_code,
    fun u hne hg => ?_, fun u hu => ?_, fun u v h => ?_, hm.waking_once⟩
  · rw [hstate]
    exact hm.runs u (hcur ▸ hu)
  · exact ⟨(hother u (Nat.ne_of_gt (Nat.lt_of_lt_of_le hlt hu))).trans (hm.fresh u hu).1,
      (hm.fresh u hu).2⟩
  · by_cases hut : u = t
    · exact .inl (by simp [hut])
    · rw [hstate]
      exact (hm.added u hne (hother u hut ▸ hg)).imp_left fun hd => by simp [hd]
  · by_cases hut : u = t
    · subst hut
      exact ⟨(hstate u).trans hterm, by rw [hself]⟩
    · have hd := hm.destroyed u ((List.mem_append.mp hu).resolve_right (by simpa using hut))
      exact hother u hut ▸ hd
  · rw [hstate, hwait]
    exact hm.waking u v h

/-- `thread_detach`, when its thread still lives and when it has terminated. -/
theorem MachineInv.detach {t : ThreadId} (hm : MachineInv m) (hc : m.tasks.current = some c)
    (hlt : t < m.nextTid)
    (hs : s = m.tasks.masked.modify t (fun th => { th with detached := true }) ∨
      schedulerPushZombie
        (m.tasks.masked.modify t fun th => { th with detached := true }) t = some s) :
    m.Keeps s none := by
  have hflag : m.Keeps (m.tasks.masked.modify t fun th => { th with detached := true }) none := by
    refine ⟨(hm.inv.setFlag false).setDetached t true, fun u hu => ?_, fun u hu => ?_,
      fun u hg => ?_, fun u hd => ?_, fun u _ _ hr => ?_, fun u ht => ?_, fun u _ hb hn => ?_⟩
    · have := hm.runs u hu
      simp only [Tasks.modify_threads]
      split <;> simp_all
    · simp [Tasks.modify_threads, Nat.ne_of_gt (Nat.lt_of_lt_of_le hlt hu)]
    · simp only [Tasks.modify_threads] at hg
      split at hg <;> simp_all
    · have := (hm.destroyed u hd).2
      simp only [Tasks.modify_threads]
      split <;> simp_all
    all_goals simp only [Tasks.modify_threads]
    all_goals split <;> simp_all
  rcases hs with rfl | hs
  · exact hflag
  · have hm₁ : MachineInv { m with
        tasks := m.tasks.masked.modify t fun th => { th with detached := true } } := by
      have hsame : CodeFrom m c (m.code c) :=
        ⟨fun _ => Nat.le_refl _, hm.targets c, fun e j hj => hm.idle_code j (e ▸ hj)⟩
      exact (hm.advance hc hflag hsame).update rfl (by simp [Machine.advance]) rfl rfl
    have hterm := (schedulerPushZombie_spec hs).2.1
    exact hflag.trans (hm₁.keeps (.inr hterm) (schedulerPushZombie_frame hm₁.inv hs)
      (schedulerPushZombie_runs hm₁.inv hm₁.runs hs))

/-- The reaper takes the front zombie off the list. -/
theorem MachineInv.nextZombie {zombie : Option ThreadId} (hm : MachineInv m)
    (hs : schedulerNextZombie m.tasks = some (zombie, s)) : m.Keeps s none := by
  obtain ⟨hinv, hcur, hsame⟩ := schedulerNextZombie_frame hm.inv hs
  refine ⟨hinv, fun u hu => ?_, fun u hu => ?_, fun u hg => ?_, fun u hd => ?_, fun u _ _ hr => ?_,
    fun u ht => ?_, fun u _ hb hn => ?_⟩
  · rw [(hsame u).1]
    exact hm.runs u (hcur ▸ hu)
  · obtain ⟨-, ⟨-, -, rfl⟩ | ⟨t, rest, hz, -, rfl⟩⟩ := schedulerNextZombie_spec hs
    · rfl
    · have hne : u ≠ t := by
        rintro rfl
        have := hm.inv.zombie_terminated u (by simp [hz])
        simp [(hm.fresh u hu).1, Thread.created] at this
      simp [Tasks.modify_threads, hne]
  · rwa [← (hsame u).2.1]
  · rw [(hsame u).2.1]
    exact (hm.destroyed u hd).2
  · rwa [(hsame u).1]
  · rwa [(hsame u).1]
  · rw [(hsame u).1, (hsame u).2.2]
    exact ⟨hb, hn⟩

theorem MachineInv.processCreate {pageDirectory : Nat} (hm : MachineInv m) :
    m.Keeps { m.tasks.setGroup m.nextPid [] with
      pageDirectory := Function.update m.tasks.pageDirectory m.nextPid pageDirectory } none := by
  obtain ⟨h1, h2, h3, h4, h5, h6, h7, h8, h9, h10, h11, h12, h13, h14, h15⟩ := hm.inv
  exact ⟨⟨h1, h2, h3, h4, h5, h6, h7, h8, h9, h10, h11, h12, h13, h14, h15⟩, hm.runs, fun _ _ => rfl,
    fun _ => id, fun t ht => (hm.destroyed t ht).2, fun _ _ _ => id, fun _ => id,
    fun _ _ hb hn => ⟨hb, hn⟩⟩

/-- `thread_destroy` reads and writes no thread's instructions. -/
theorem MachineInv.destroy_advance {t : ThreadId} (hm : MachineInv m) (pre : List Instr)
    (hc : m.tasks.current = some c) (hcode : m.code c = i :: rest)
    (hpre : ∀ j ∈ pre, m.Pushes c j) (hd : m.destroy t = some m') :
    MachineInv (m'.advance c (pre ++ rest) m'.tasks) := by
  have hm' := hm.destroy hd
  obtain ⟨s, l, hs, rfl⟩ := destroy_spec hd
  have hc' : s.current = some c := by
    obtain ⟨-, -, g, rfl, -⟩ := threadDestroy_spec hs
    exact hc
  exact hm'.advance hc' (hm'.keeps (.inl (hm'.current_running hc')) (Steady.setFlag hm'.inv s.interruptEnabled).toFrame hm'.runs)
    (hm'.codeFrom pre hcode hpre)

/-! ## Steps -/

theorem MachineInv.fires (hm : MachineInv m) (hc : m.tasks.current = some c)
    (hcode : m.code c = i :: rest)
    (halive : ∀ t, i = .body (.threadAdd t) → t ∉ m.destroyed) (h : Fires m c rest i m') :
    MachineInv m' := by
  have hidle : c = idleThread → i.idle = true := fun e => hm.idle_code i (by simp [← e, hcode])
  have htarget : ∀ t, i.target = some t → t < m.nextTid := hm.targets c i (by simp [hcode])
  have hoff : Steady c m.tasks m.tasks.masked := .setFlag hm.inv false
  have hflag : ∀ b, m.Keeps { m.tasks with interruptEnabled := b } none := fun b =>
    hm.keeps (.inl (hm.current_running hc)) (Steady.setFlag hm.inv b).toFrame hm.runs
  have hafter : ∀ s, Continues c m.tasks.masked s → m.Keeps s none := fun s hs =>
    hm.keeps (.inl (hm.current_running hc)) (hoff.trans hs.toSteady).toFrame hs.runs
  -- Most instructions go on with what follows, or with a restore in front of it.
  have hnext : ∀ {s : Tasks}, m.Keeps s none → MachineInv (m.advance c rest s) := fun hs =>
    hm.advance hc hs (hm.codeFrom [] hcode (by simp))
  have hrestore : ∀ b, m.Pushes c (.interruptRestore b) := fun b =>
    ⟨rfl, by simp [Instr.target], fun _ => rfl⟩
  have hback : ∀ {b : Bool} {s : Tasks}, m.Keeps s none →
      MachineInv (m.advance c (.interruptRestore b :: rest) s) := fun {b} _ hs =>
    hm.advance hc hs (hm.codeFrom [.interruptRestore b] hcode (by simp [hrestore]))
  have hbusy : i.idle = false → c ≠ idleThread := fun hi e => by simp [hidle e] at hi
  cases h with
  | @enter call hassert =>
      refine (hm.advance hc (hflag m.tasks.interruptEnabled) ?_).update rfl rfl rfl rfl
      have hwakes : (Instr.body call).wakes = (Instr.call call).wakes := by cases call <;> rfl
      refine ⟨fun t => ?_, fun j hj t ht => ?_, fun e j hj => ?_⟩
      · simp [hcode, hwakes, show (Instr.ret call m.tasks.interruptEnabled).wakes = none from rfl]
      · rcases List.mem_cons.mp hj with rfl | hj
        · exact htarget t ht
        · rcases List.mem_cons.mp hj with rfl | hj
          · cases ht
          · exact hm.targets c j (by simp [hcode, hj]) t ht
      · rcases List.mem_cons.mp hj with rfl | hj
        · exact hidle e
        · rcases List.mem_cons.mp hj with rfl | hj
          · rfl
          · exact hm.idle_code j (by simp [← e, hcode, hj])
  | ret => exact hnext (hflag m.tasks.interruptEnabled)
  | restore | enable => exact hnext (hflag _)
  | lockFree | acquire => exact (hback (hflag false)).update rfl rfl rfl rfl
  | lockSleep _ hs | acquireSleep _ hs =>
      exact hback (hafter _ (waitQueueSleep_continues hoff.inv hm.runs hc (hbusy rfl) hs).1)
  | unlockHand hs =>
      have hm' := hm.handOver [.interruptRestore m.tasks.interruptEnabled] hc (hbusy rfl) hcode
        (by simp [hrestore]) hs
      exact hm'.update rfl rfl rfl rfl
  | unlockFree hs | releaseFree hs =>
      exact (hback (hafter _ (waitQueueRemove_continues hoff.inv hm.runs hs))).update rfl rfl rfl rfl
  | releaseHand hs => exact hm.handOver [] hc (hbusy rfl) hcode (by simp) hs
  | condvarWait =>
      refine hm.advance hc (hflag false) (hm.codeFrom [_, _, _, _] hcode ?_)
      simp [Pushes, Instr.wakes, Instr.target, Call.target, hbusy rfl]
  | condvarSignal hs => exact hback (hafter _ (waitQueueWake_continues hoff.inv hm.runs hs))
  | condvarBroadcast hs => exact hback (hafter _ (waitQueueWakeAll_continues hoff.inv hm.runs hs))
  | block hs =>
      have hk := (threadBlock_continues hm.inv hm.runs hc (hbusy rfl) hs).1
      exact hback (hm.keeps (.inl (hm.current_running hc)) hk.toFrame hk.runs)
  | unblock hs =>
      exact hm.unblock [.interruptRestore m.tasks.interruptEnabled] hc hcode (by simp [hrestore]) hs
  | yield hs =>
      have hk := (threadYield_continues hm.inv hc hs).1
      exact hback (hm.keeps (.inl (hm.current_running hc)) hk.toFrame hk.runs)
  | joinEnded =>
      refine hm.advance hc (hflag false) (hm.codeFrom [_, _] hcode ?_)
      simpa [Pushes, Instr.wakes, Instr.target, hbusy rfl] using htarget _ rfl
  | joinSleep _ hs =>
      refine hm.advance hc
        (hafter _ (waitQueueSleep_continues hoff.inv hm.runs hc (hbusy rfl) hs).1)
        (hm.codeFrom [_, _] hcode ?_)
      simpa [Pushes, Instr.wakes, Instr.target, hbusy rfl] using htarget _ rfl
  | detachLive => exact hback (hm.detach hc (htarget _ rfl) (.inl rfl))
  | detachEnded _ hs => exact hback (hm.detach hc (htarget _ rfl) (.inr hs))
  | kill hs =>
      obtain ⟨hframe, hruns⟩ := threadKillCurrent_frame hm.inv hm.runs hc (hbusy rfl) hs
      refine hm.advance hc (hm.keeps (.inl (hm.current_running hc)) hframe hruns) (hm.codeFrom [.panic] hcode ?_)
      simp [Pushes, Instr.wakes, Instr.target, hbusy rfl]
  | add hs => exact hm.add hc (hm.codeFrom [] hcode (by simp)) (htarget _ rfl) (halive _ rfl) hs
  | create => exact (hnext (hflag m.tasks.interruptEnabled)).create
  | processCreate => exact (hnext hm.processCreate).update rfl rfl rfl rfl
  | sleep hs =>
      have hk := (waitQueueSleep_continues hm.inv hm.runs hc (hbusy rfl) hs).1
      exact hnext (hm.keeps (.inl (hm.current_running hc)) hk.toFrame hk.runs)
  | joinDestroy hd => exact hm.destroy_advance [] hc hcode (by simp) hd
  | tick hs =>
      have hk := (schedulerTick_continues hm.inv hm.runs hc hs).1
      exact hnext (hm.keeps (.inl (hm.current_running hc)) hk.toFrame hk.runs)
  | reaperSleep hs =>
      refine hm.advance hc
        (hafter _ (waitQueueSleep_continues hoff.inv hm.runs hc (hbusy rfl) hs).1)
        (hm.codeFrom [_, _] hcode ?_)
      simp [Pushes, Instr.wakes, Instr.target, hbusy rfl]
  | reaperDrain =>
      refine hm.advance hc (hflag false) (hm.codeFrom [_] hcode ?_)
      simp [Pushes, Instr.wakes, Instr.target, hbusy rfl]
  | reaperDone hs =>
      refine hm.advance hc (hm.nextZombie hs) (hm.codeFrom [_, _] hcode ?_)
      simp [Pushes, Instr.wakes, Instr.target, hbusy rfl]
  | @reaperReap flag t s m' hs _ hd =>
      have hm' : MachineInv { m with tasks := s } := by
        have hsame : CodeFrom m c (m.code c) :=
          ⟨fun _ => Nat.le_refl _, hm.targets c, fun e j hj => hm.idle_code j (e ▸ hj)⟩
        exact (hm.advance hc (hm.nextZombie hs) hsame).update rfl (by simp [Machine.advance]) rfl rfl
      have hc' : s.current = some c := (schedulerNextZombie_frame hm.inv hs).2.1.trans hc
      refine hm'.destroy_advance [.reaperNext flag] hc' hcode ?_ hd
      simp [Pushes, Instr.wakes, Instr.target, hbusy rfl]

/-- A call made by a thread's own program, as that thread's only instruction. -/
theorem MachineInv.client {call : Call} (hm : MachineInv m) (hc : m.tasks.current = some c)
    (hcode : m.code c = []) (hidle : c = idleThread → call.boot = true)
    (htarget : ∀ t, call.target = some t → t < m.nextTid)
    (hok : m.permitted (.client call) = true) (hassert : m.entryAssert c call = true) :
    MachineInv (m.advance c [.call call] m.tasks) := by
  have htargets : ∀ i ∈ [Instr.call call], ∀ t, i.target = some t → t < m.nextTid := by
    simpa [Instr.target] using htarget
  by_cases hun : ∃ t, call = .threadUnblock t
  · obtain ⟨t, rfl⟩ := hun
    simp only [permitted, Bool.and_eq_true, Bool.not_eq_true', List.all_eq_true, List.mem_range,
      beq_iff_eq] at hok
    refine hm.addWaking t _ (hm.current_lt hc) (fun u => ?_) htargets
      (fun e => by simpa [Call.boot] using hidle e) (by simpa [entryAssert] using hassert) hok.1
      fun u => ?_
    · simp [hcode, Instr.wakes, eq_comm]
    · by_cases hu : u < m.nextTid
      · exact hok.2 u hu
      · simp [(hm.fresh u (Nat.le_of_not_lt hu)).2]
  · have hwakes : (Instr.call call).wakes = none := by
      cases call <;> first | rfl | exact absurd ⟨_, rfl⟩ hun
    refine hm.advance hc
      (hm.keeps (.inl (hm.current_running hc)) (Steady.setFlag hm.inv m.tasks.interruptEnabled).toFrame
        hm.runs)
      ⟨fun t => by simp [hwakes], htargets, fun e j hj => ?_⟩
    rw [List.mem_singleton.mp hj]
    exact hidle e

theorem MachineInv.moves {l : Label} (hm : MachineInv m) (hc : m.tasks.current = some c)
    (hok : m.permitted l = true) (h : Moves m c l m') : MachineInv m' := by
  have hflag : ∀ b, m.Keeps { m.tasks with interruptEnabled := b } none := fun b =>
    hm.keeps (.inl (hm.current_running hc)) (Steady.setFlag hm.inv b).toFrame hm.runs
  cases h with
  | run hcode h =>
      refine hm.fires hc hcode (fun t hi => ?_) h
      subst hi
      simpa [permitted, head, hc, hcode] using hok
  | @client call _ hcode hidle htarget h =>
      cases h with
      | enter hassert =>
          have hm₁ := hm.client hc hcode hidle htarget hok hassert
          have hcode₁ : (m.advance c [.call call] m.tasks).code c = .call call :: [] := by simp
          have h₁ := hm₁.fires hc hcode₁ (by simp) (.enter hassert)
          exact h₁.update rfl (by simp [Machine.advance]) rfl rfl
  | setFlag hcode =>
      exact hm.advance hc (hflag _) ⟨fun t => by simp [hcode], by simp, by simp⟩
  | timer hon =>
      refine hm.advance hc (hflag false) ⟨fun t => ?_, fun j hj t ht => ?_, fun e j hj => ?_⟩
      · simp [Instr.wakes]
      · rcases List.mem_cons.mp hj with rfl | hj
        · cases ht
        · rcases List.mem_cons.mp hj with rfl | hj
          · cases ht
          · exact hm.targets c j hj t ht
      · rcases List.mem_cons.mp hj with rfl | hj
        · rfl
        · rcases List.mem_cons.mp hj with rfl | hj
          · rfl
          · exact hm.idle_code j (e ▸ hj)

/-! ## Every run -/

theorem boot_inv (idleStack reaperStack pageDirectory esp0 cr3 : Nat) :
    MachineInv (boot idleStack reaperStack pageDirectory esp0 cr3) := by
  have hcode : ∀ u, (boot idleStack reaperStack pageDirectory esp0 cr3).code u =
      if u = reaperThread then [.interruptEnable, .reaperSleep] else [] := fun _ => rfl
  have hwak : ∀ t u, occurs Instr.wakes t ((boot idleStack reaperStack pageDirectory esp0 cr3).code u) = 0 :=
    fun t u => by
      rw [hcode]
      split <;> simp [Instr.wakes]
  refine ⟨?_, fun u hu => ?_, Nat.lt_succ_self _, fun t ht => ?_, fun u j hj t ht => ?_,
    fun j hj => ?_, fun t hne hg => ?_, by simp [boot], fun t u h => ?_,
    ⟨fun t u => by simp [hwak], fun t u v hu => by simp [hwak] at hu⟩⟩
  · constructor
    case quantum => exact ⟨Nat.le_add_left 1 4, Nat.le_refl _⟩
    case idle_running | idle_process => rfl
    case current_some => exact ⟨_, rfl⟩
    all_goals simp [boot]
    all_goals intro t
    all_goals
      by_cases ht : t = idleThread <;> by_cases hr : t = reaperThread <;>
        simp_all [Thread.created, Thread.idle]
  · cases hu
    exact .inl rfl
  · have hle : 2 ≤ t := ht
    have hi : t ≠ idleThread := Nat.ne_of_gt (Nat.lt_of_lt_of_le (by decide) hle)
    have hr : t ≠ reaperThread := Nat.ne_of_gt (Nat.lt_of_lt_of_le (by decide) hle)
    simp [boot, hi, hr]
  · rw [hcode] at hj
    split at hj
    · simp only [List.mem_cons, List.not_mem_nil, or_false] at hj
      rcases hj with rfl | rfl <;> cases ht
    · cases hj
  · rw [hcode] at hj
    cases hj
  · right
    by_cases hr : t = reaperThread <;> simp_all [boot, Thread.created]
  · simp [hwak] at h

theorem MachineInv.step {l : Label} (hm : MachineInv m) (hok : m.permitted l = true)
    (h : m.step l = some m') : MachineInv m' := by
  obtain ⟨c, hc, hmoves⟩ := step_moves h
  exact hm.moves hc hok hmoves

end Machine

end Neox
