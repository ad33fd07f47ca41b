import Neox.Task.Threads

/-!
# Who destroys a thread

A thread's record is freed by the one that joins it or, when it is detached, by the reaper. The
`detached` flag decides, and `thread_join` and `thread_detach` both read it before they switch
interrupts off. `destroyed_once` is about the runs in which no `thread_detach` of a thread takes
effect once a `thread_join` of it has got past its `ASSERT`; `destroyed_twice` is a run in which one
does, and the thread is destroyed by the joiner and by the reaper.
-/

namespace Neox

open Transition Pending

/-- The thread a join that has got past its `ASSERT` is about to destroy. -/
def Instr.joins : Instr → Option ThreadId
  | .body (.threadJoin t) | .joinDestroy t => some t
  | _ => none

/-- The thread a detach that has got past its `ASSERT` is about to detach. -/
def Instr.detaches : Instr → Option ThreadId
  | .body (.threadDetach t) => some t
  | _ => none

/-- Instructions that have nothing to do with ownership. -/
def Instr.plain : Instr → Bool
  | .body (.threadJoin _) | .joinDestroy _ | .body (.threadDetach _) => false
  | .call c => c.joined.isEmpty && c.detached.isEmpty
  | _ => true

namespace Machine

/-- Each thread is joined at most once and detached at most once. -/
def callsOnce (m : Machine) : Label → Bool
  | .client (.threadJoin t) => !m.joins.contains t
  | .client (.threadDetach t) => !m.detaches.contains t
  | _ => true

/-- No `thread_detach` takes effect on a thread that a `thread_join` waits for or has destroyed. -/
def detachesUnjoined (m : Machine) : Label → Bool
  | .run => match m.head with
      | some (.body (.threadDetach t)) => !m.joins.contains t
      | _ => true
  | _ => true

structure OwnInv (m : Machine) : Prop where
  joined : ∀ t ∈ m.joins, (m.tasks.threads t).detached = false
  zombie : ∀ t ∈ m.tasks.zombieList, (m.tasks.threads t).detached = true ∧ t ∉ m.destroyed
  /-- A join in progress owns its thread. -/
  joining : ∀ t u, 0 < occurs Instr.joins t (m.code u) → t ∈ m.joins ∧ t ∉ m.destroyed
  joining_once : AtMostOnce Instr.joins m.code
  ended : ∀ t u, .joinDestroy t ∈ m.code u →
    (m.tasks.threads t).state = .terminated ∨ u ∈ m.tasks.waiting (.termination t)
  destroyed : ∀ t ∈ m.destroyed, t ∈ m.joins ∨ (m.tasks.threads t).detached = true
  nodup : m.destroyed.Nodup
  detaching : ∀ t u, 0 < occurs Instr.detaches t (m.code u) →
    t ∈ m.detaches ∧ (m.tasks.threads t).detached = false
  detaching_once : AtMostOnce Instr.detaches m.code
  /-- Joins and detaches are only called by a thread's own program. -/
  nested : ∀ u c, .call c ∈ m.code u → c.joined = [] ∧ c.detached = []

variable {m m' : Machine} {c : ThreadId} {code rest : List Instr} {i : Instr} {s : Tasks}

/-- `code` is what is left of `m.code c`, with instructions in front that own nothing. -/
structure Follows (m : Machine) (c : ThreadId) (code : List Instr) : Prop where
  joins : ∀ t, occurs Instr.joins t code ≤ occurs Instr.joins t (m.code c)
  detaches : ∀ t, occurs Instr.detaches t code ≤ occurs Instr.detaches t (m.code c)
  ended : ∀ t, .joinDestroy t ∈ code → .joinDestroy t ∈ m.code c
  nested : ∀ c', .call c' ∈ code → .call c' ∈ m.code c ∨ c'.joined = [] ∧ c'.detached = []

theorem Follows.refl : Follows m c (m.code c) :=
  ⟨fun _ => Nat.le_refl _, fun _ => Nat.le_refl _, fun _ => id, fun _ => .inl⟩

theorem Follows.tail (hcode : m.code c = i :: rest) : Follows m c rest := by
  refine ⟨fun t => ?_, fun t => ?_, fun t ht => ?_, fun c' hc' => .inl ?_⟩
  · simp [hcode]
  · simp [hcode]
  · simp [hcode, ht]
  · simp [hcode, hc']

theorem Follows.cons (h : Follows m c code) (hi : i.plain = true) : Follows m c (i :: code) := by
  have hj : i.joins = none := by
    unfold Instr.joins
    split <;> simp_all [Instr.plain]
  have hd : i.detaches = none := by
    unfold Instr.detaches
    split <;> simp_all [Instr.plain]
  refine ⟨fun t => by simpa [hj] using h.joins t, fun t => by simpa [hd] using h.detaches t,
    fun t ht => ?_, fun c' hc' => ?_⟩
  · rcases List.mem_cons.mp ht with rfl | ht
    · cases hi
    · exact h.ended t ht
  · rcases List.mem_cons.mp hc' with rfl | hc'
    · exact .inr (by simpa [Instr.plain] using hi)
    · exact h.nested c' hc'

theorem occurs_le {f : Instr → Option ThreadId} (hnew : m'.code = Function.update m.code c code)
    (hle : ∀ t, occurs f t code ≤ occurs f t (m.code c)) (t u : ThreadId) :
    occurs f t (m'.code u) ≤ occurs f t (m.code u) := by
  rw [hnew]
  by_cases hu : u = c
  · subst hu
    simpa using hle t
  · simp [hu]

theorem Follows.ended_of {t u : ThreadId} (h : Follows m c code)
    (hnew : m'.code = Function.update m.code c code) (hj : .joinDestroy t ∈ m'.code u) :
    .joinDestroy t ∈ m.code u := by
  rw [hnew] at hj
  by_cases hu : u = c
  · subst hu
    exact h.ended t (by simpa using hj)
  · simpa [hu] using hj

theorem OwnInv.nested_of (hm : OwnInv m) (h : Follows m c code)
    (hnew : m'.code = Function.update m.code c code) (u : ThreadId) (c' : Call)
    (hc : .call c' ∈ m'.code u) : c'.joined = [] ∧ c'.detached = [] := by
  rw [hnew] at hc
  by_cases hu : u = c
  · subst hu
    exact (h.nested c' (by simpa using hc)).elim (hm.nested u c') id
  · exact hm.nested u c' (by simpa [hu] using hc)

/-- A step that changes no thread's owner, except that a detached thread may become a zombie. -/
theorem OwnInv.advance (hm : OwnInv m) (hnew : m'.code = Function.update m.code c code)
    (hcode : Follows m c code) (hjoins : m'.joins = m.joins) (hdetaches : m'.detaches = m.detaches)
    (hdestroyed : m'.destroyed = m.destroyed)
    (hd : ∀ t, (m'.tasks.threads t).detached = (m.tasks.threads t).detached)
    (hz : ∀ t ∈ m'.tasks.zombieList, t ∈ m.tasks.zombieList ∨
      (m.tasks.threads t).detached = true ∧ t ∉ m.destroyed)
    (hterm : ∀ t, (m.tasks.threads t).state = .terminated → (m'.tasks.threads t).state = .terminated)
    (hwait : ∀ t u, u ∈ m.tasks.waiting (.termination t) →
      u ∈ m'.tasks.waiting (.termination t) ∨ (m'.tasks.threads t).state = .terminated) :
    OwnInv m' := by
  have hj := occurs_le hnew hcode.joins
  have hdt := occurs_le hnew hcode.detaches
  refine ⟨fun t ht => ?_, fun t ht => ?_, fun t u h => ?_, hm.joining_once.mono hj, fun t u h => ?_,
    fun t ht => ?_, ?_, fun t u h => ?_, hm.detaching_once.mono hdt, fun u c' h => ?_⟩
  · rw [hd]
    exact hm.joined t (hjoins ▸ ht)
  · rw [hd, hdestroyed]
    exact (hz t ht).elim (hm.zombie t) id
  · rw [hjoins, hdestroyed]
    exact hm.joining t u (Nat.lt_of_lt_of_le h (hj t u))
  · rcases hm.ended t u (hcode.ended_of hnew h) with h | h
    · exact .inl (hterm t h)
    · exact (hwait t u h).symm
  · rw [hjoins, hd]
    exact hm.destroyed t (hdestroyed ▸ ht)
  · rw [hdestroyed]
    exact hm.nodup
  · rw [hdetaches, hd]
    exact hm.detaching t u (Nat.lt_of_lt_of_le h (hdt t u))
  · exact hm.nested_of hcode hnew u c' h

/-- The usual case: the change to the tasking state is `Steady`. -/
theorem OwnInv.steady (hm : OwnInv m) (hnew : m'.code = Function.update m.code c code)
    (hcode : Follows m c code) (hjoins : m'.joins = m.joins) (hdetaches : m'.detaches = m.detaches)
    (hdestroyed : m'.destroyed = m.destroyed) (hs : Steady c m.tasks m'.tasks)
    (hwait : ∀ t u, u ∈ m.tasks.waiting (.termination t) → u ∈ m'.tasks.waiting (.termination t)) :
    OwnInv m' :=
  hm.advance hnew hcode hjoins hdetaches hdestroyed hs.detached
    (fun _ ht => .inl (hs.zombieList ▸ ht)) hs.terminated fun _ _ h => .inl (hwait _ _ h)

/-! ## The calls -/

/-- A call gets past its `ASSERT`: a `thread_join` or `thread_detach` finds its thread not
detached, and is the first of its kind. -/
theorem OwnInv.push (hm : OwnInv m) (call : Call) (hself : m'.code c = .body call :: m.code c)
    (hother : ∀ u, u ≠ c → m'.code u = m.code u) (htasks : m'.tasks = m.tasks)
    (hjoins : m'.joins = m.joins ++ (Instr.body call).joins.toList)
    (hdetaches : m'.detaches = m.detaches ++ (Instr.body call).detaches.toList)
    (hdestroyed : m'.destroyed = m.destroyed)
    (hjoin : ∀ t, (Instr.body call).joins = some t →
      t ∉ m.joins ∧ (m.tasks.threads t).detached = false)
    (hdetach : ∀ t, (Instr.body call).detaches = some t →
      t ∉ m.detaches ∧ (m.tasks.threads t).detached = false) : OwnInv m' := by
  have hlive : ∀ t, (Instr.body call).joins = some t → t ∉ m.destroyed := fun t ht h => by
    rcases hm.destroyed t h with h | h
    · exact (hjoin t ht).1 h
    · simp [(hjoin t ht).2] at h
  have hcases : ∀ u j, j ∈ m'.code u → j = .body call ∨ j ∈ m.code u := fun u j hj => by
    by_cases hu : u = c
    · subst hu
      simpa [hself] using hj
    · exact .inr (hother u hu ▸ hj)
  have hocc : ∀ (f : Instr → Option ThreadId) t u, 0 < occurs f t (m'.code u) →
      f (.body call) = some t ∨ 0 < occurs f t (m.code u) := fun f t u h => by
    by_cases hu : u = c
    · subst hu
      by_cases hf : f (.body call) = some t
      · exact .inl hf
      · exact .inr (by simpa [hself, hf] using h)
    · exact .inr (hother u hu ▸ h)
  have honce : ∀ f : Instr → Option ThreadId, AtMostOnce f m.code →
      (∀ t, f (.body call) = some t → ∀ u, occurs f t (m.code u) = 0) → AtMostOnce f m'.code := by
    intro f hf hnone
    cases hi : f (.body call) with
    | none =>
        refine hf.mono fun t u => ?_
        by_cases hu : u = c
        · subst hu
          simp [hself, hi]
        · exact Nat.le_of_eq (by rw [hother u hu])
    | some t => exact hf.add (hnone t hi) hother fun t' => by simp [hself, hi, eq_comm]
  refine ⟨fun u hu => ?_, fun u hu => ?_, fun t u h => ?_,
    honce _ hm.joining_once fun t ht u => ?_, fun t u h => ?_, fun u hu => ?_, ?_, fun t u h => ?_,
    honce _ hm.detaching_once fun t ht u => ?_, fun u c' h => ?_⟩
  · rw [htasks]
    rw [hjoins, List.mem_append, Option.mem_toList] at hu
    exact hu.elim (hm.joined u) fun hu => (hjoin u hu).2
  · rw [htasks, hdestroyed]
    exact hm.zombie u (htasks ▸ hu)
  · rw [hjoins, hdestroyed]
    rcases hocc _ t u h with ht | h
    · exact ⟨by simp [ht], hlive t ht⟩
    · exact (hm.joining t u h).imp_left fun h => by simp [h]
  · by_contra h
    exact (hjoin t ht).1 (hm.joining t u (Nat.pos_of_ne_zero h)).1
  · rw [htasks]
    exact hm.ended t u ((hcases u _ h).resolve_left (by simp))
  · rw [htasks, hjoins]
    exact (hm.destroyed u (hdestroyed ▸ hu)).imp_left fun h => by simp [h]
  · rw [hdestroyed]
    exact hm.nodup
  · rw [htasks, hdetaches]
    rcases hocc _ t u h with ht | h
    · exact ⟨by simp [ht], (hdetach t ht).2⟩
    · exact (hm.detaching t u h).imp_left fun h => by simp [h]
  · by_contra h
    exact (hdetach t ht).1 (hm.detaching t u (Nat.pos_of_ne_zero h)).1
  · exact hm.nested u c' ((hcases u _ h).resolve_left (by simp))

theorem OwnInv.enter {call : Call} (hm : OwnInv m) (hrest : Follows m c rest)
    (honce : m.callsOnce (.client call) = true) (hassert : m.entryAssert c call = true) :
    OwnInv { m.advance c (.body call :: .ret call m.tasks.interruptEnabled :: rest) m.tasks with
      joins := m.joins ++ call.joined, detaches := m.detaches ++ call.detached } := by
  have hm₁ : OwnInv (m.advance c (.ret call m.tasks.interruptEnabled :: rest) m.tasks) :=
    hm.advance rfl (hrest.cons rfl) rfl rfl rfl (fun _ => rfl) (fun _ => .inl) (fun _ => id)
      fun _ _ => .inl
  refine hm₁.push (c := c) call (by simp [Machine.advance])
    (fun u hu => by simp [Machine.advance, hu]) rfl ?_ ?_ rfl (fun t ht => ?_) fun t ht => ?_
  · cases call <;> rfl
  · cases call <;> rfl
  · cases call <;> cases ht
    exact ⟨by simpa [callsOnce] using honce, by simpa [entryAssert] using hassert⟩
  · cases call <;> cases ht
    exact ⟨by simpa [callsOnce] using honce, by simpa [entryAssert] using hassert⟩

/-- A `thread_detach` of a thread that nobody has joined takes effect. -/
theorem OwnInv.detach {t : ThreadId} (hm : OwnInv m)
    (hcode : m.code c = .body (.threadDetach t) :: rest)
    (hnew : m'.code = Function.update m.code c code)
    (hgone : occurs Instr.detaches t code = occurs Instr.detaches t rest) (hfollows : Follows m c code)
    (hjoins : m'.joins = m.joins) (hdetaches : m'.detaches = m.detaches)
    (hdestroyed : m'.destroyed = m.destroyed) (hnot : t ∉ m.joins)
    (hd : ∀ u, (m'.tasks.threads u).detached =
      if u = t then true else (m.tasks.threads u).detached)
    (hz : ∀ u ∈ m'.tasks.zombieList, u ∈ m.tasks.zombieList ∨ u = t)
    (hterm : ∀ u, (m.tasks.threads u).state = .terminated → (m'.tasks.threads u).state = .terminated)
    (hwait : ∀ t u, u ∈ m.tasks.waiting (.termination t) → u ∈ m'.tasks.waiting (.termination t)) :
    OwnInv m' := by
  have hpos : 0 < occurs Instr.detaches t (m.code c) := by simp [hcode, Instr.detaches]
  have hold := (hm.detaching t c hpos).2
  have hlive : t ∉ m.destroyed := fun h => by
    rcases hm.destroyed t h with h | h
    · exact hnot h
    · simp [hold] at h
  have hnone : ∀ u, occurs Instr.detaches t (m'.code u) = 0 :=
    hm.detaching_once.done (c := c) (fun u hu => by simp [hnew, hu]) (by simp [hnew, hcode, hgone, Instr.detaches])
  have hjo := occurs_le hnew hfollows.joins
  have hdt := occurs_le hnew hfollows.detaches
  refine ⟨fun u hu => ?_, fun u hu => ?_, fun t' u h => ?_, hm.joining_once.mono hjo,
    fun t' u h => ?_, fun u hu => ?_, ?_, fun t' u h => ?_, hm.detaching_once.mono hdt,
    fun u c' h => ?_⟩
  · rw [hjoins] at hu
    have hut : u ≠ t := fun e => hnot (e ▸ hu)
    rw [hd, if_neg hut]
    exact hm.joined u hu
  · rw [hd, hdestroyed]
    rcases hz u hu with h | rfl
    · exact ⟨by split <;> simp [hm.zombie u h], (hm.zombie u h).2⟩
    · exact ⟨by simp, hlive⟩
  · rw [hjoins, hdestroyed]
    exact hm.joining t' u (Nat.lt_of_lt_of_le h (hjo t' u))
  · exact (hm.ended t' u (hfollows.ended_of hnew h)).imp (hterm t') (hwait t' u)
  · rw [hjoins, hd]
    rcases hm.destroyed u (hdestroyed ▸ hu) with h | h
    · exact .inl h
    · exact .inr (by split <;> simp [h])
  · rw [hdestroyed]
    exact hm.nodup
  · have hne : t' ≠ t := by
      rintro rfl
      simp [hnone u] at h
    rw [hdetaches, hd, if_neg hne]
    exact hm.detaching t' u (Nat.lt_of_lt_of_le h (hdt t' u))
  · exact hm.nested_of hfollows hnew u c' h

/-- `thread_destroy` of a thread that has an owner, by that owner. -/
theorem OwnInv.destroy {t : ThreadId} (hm : OwnInv m)
    (hnew : m'.code = Function.update m.code c code) (hfollows : Follows m c code)
    (hgone : ∀ u, occurs Instr.joins t (m'.code u) = 0)
    (hjoins : m'.joins = m.joins) (hdetaches : m'.detaches = m.detaches)
    (hdestroyed : m'.destroyed = m.destroyed ++ [t]) (hlive : t ∉ m.destroyed)
    (howner : t ∈ m.joins ∨ (m.tasks.threads t).detached = true)
    (hd : ∀ u, (m'.tasks.threads u).detached = (m.tasks.threads u).detached)
    (hz : ∀ u ∈ m'.tasks.zombieList, u ∈ m.tasks.zombieList ∧ u ≠ t)
    (hterm : ∀ u, (m'.tasks.threads u).state = (m.tasks.threads u).state)
    (hwait : m'.tasks.waiting = m.tasks.waiting) : OwnInv m' := by
  have hjo := occurs_le hnew hfollows.joins
  have hdt := occurs_le hnew hfollows.detaches
  refine ⟨fun u hu => ?_, fun u hu => ?_, fun t' u h => ?_, hm.joining_once.mono hjo,
    fun t' u h => ?_, fun u hu => ?_, ?_, fun t' u h => ?_, hm.detaching_once.mono hdt,
    fun u c' h => ?_⟩
  · rw [hd]
    exact hm.joined u (hjoins ▸ hu)
  · obtain ⟨hu, hne⟩ := hz u hu
    rw [hd, hdestroyed]
    exact ⟨(hm.zombie u hu).1, by simp [(hm.zombie u hu).2, hne]⟩
  · have hne : t' ≠ t := by
      rintro rfl
      simp [hgone u] at h
    obtain ⟨hj, hn⟩ := hm.joining t' u (Nat.lt_of_lt_of_le h (hjo t' u))
    rw [hjoins, hdestroyed]
    exact ⟨hj, by simp [hn, hne]⟩
  · rw [hterm, hwait]
    exact hm.ended t' u (hfollows.ended_of hnew h)
  · rw [hjoins, hd]
    rw [hdestroyed, List.mem_append, List.mem_singleton] at hu
    rcases hu with hu | rfl
    · exact hm.destroyed u hu
    · exact howner
  · rw [hdestroyed]
    exact List.nodup_append.mpr ⟨hm.nodup, by simp, fun a ha b hb => by
      rw [List.mem_singleton.mp hb]
      rintro rfl
      exact hlive ha⟩
  · rw [hdetaches, hd]
    exact hm.detaching t' u (Nat.lt_of_lt_of_le h (hdt t' u))
  · exact hm.nested_of hfollows hnew u c' h

/-- A `thread_join` whose thread has terminated, or that now sleeps until it does. -/
theorem OwnInv.join {t : ThreadId} {b : Bool} (hm : OwnInv m)
    (hcode : m.code c = .body (.threadJoin t) :: rest)
    (hnew : m'.code = Function.update m.code c (.joinDestroy t :: .interruptRestore b :: rest))
    (hjoins : m'.joins = m.joins) (hdetaches : m'.detaches = m.detaches)
    (hdestroyed : m'.destroyed = m.destroyed) (hs : Steady c m.tasks m'.tasks)
    (hwait : ∀ t u, u ∈ m.tasks.waiting (.termination t) → u ∈ m'.tasks.waiting (.termination t))
    (hready : (m'.tasks.threads t).state = .terminated ∨ c ∈ m'.tasks.waiting (.termination t)) :
    OwnInv m' := by
  have hjo := occurs_le (f := Instr.joins) hnew fun t' => by simp [hcode, Instr.joins]
  have hdt := occurs_le (f := Instr.detaches) hnew fun t' => by simp [hcode, Instr.detaches]
  have hmem : ∀ u j, j ∈ m'.code u →
      (u = c ∧ j = .joinDestroy t) ∨ j = .interruptRestore b ∨ j ∈ m.code u := fun u j hj => by
    rw [hnew] at hj
    by_cases hu : u = c
    · subst hu
      rw [Function.update_self, List.mem_cons, List.mem_cons] at hj
      rcases hj with h | h | h
      · exact .inl ⟨rfl, h⟩
      · exact .inr (.inl h)
      · exact .inr (.inr (by simp [hcode, h]))
    · exact .inr (.inr (by simpa [hu] using hj))
  refine ⟨fun u hu => ?_, fun u hu => ?_, fun t' u h => ?_, hm.joining_once.mono hjo,
    fun t' u h => ?_, fun u hu => ?_, ?_, fun t' u h => ?_, hm.detaching_once.mono hdt,
    fun u c' h => ?_⟩
  · rw [hs.detached]
    exact hm.joined u (hjoins ▸ hu)
  · rw [hs.detached, hdestroyed]
    exact hm.zombie u (hs.zombieList ▸ hu)
  · rw [hjoins, hdestroyed]
    exact hm.joining t' u (Nat.lt_of_lt_of_le h (hjo t' u))
  · rcases hmem u _ h with ⟨rfl, he⟩ | he | h
    · cases he
      exact hready
    · cases he
    · exact (hm.ended t' u h).imp (hs.terminated t') (hwait t' u)
  · rw [hjoins, hs.detached]
    exact hm.destroyed u (hdestroyed ▸ hu)
  · rw [hdestroyed]
    exact hm.nodup
  · rw [hdetaches, hs.detached]
    exact hm.detaching t' u (Nat.lt_of_lt_of_le h (hdt t' u))
  · rcases hmem u _ h with ⟨-, he⟩ | he | h
    · cases he
    · cases he
    · exact hm.nested u c' h

/-! ## Steps -/

theorem schedulerPushZombie_waiting {t r : ThreadId} {s s' : Tasks} (hs : TasksInv s)
    (h : schedulerPushZombie s t = some s') :
    s'.waiting (.termination r) = s.waiting (.termination r) ∧
      ∀ u ∈ s'.zombieList, u ∈ s.zombieList ∨ u = t := by
  obtain ⟨-, ht, ⟨-, rfl⟩ | ⟨-, hn, hw⟩⟩ := schedulerPushZombie_spec h
  · exact ⟨rfl, fun _ => .inl⟩
  · have hwoken := (waitQueueWake_inv (hs.pushZombie ht hn) hw).2
    refine ⟨hwoken.others _ (by simp), fun u hu => ?_⟩
    rw [hwoken.zombieList] at hu
    simpa [Tasks.pushZombie] using hu

/-- The joiners of other threads stay asleep when `t` terminates. -/
theorem schedulerTerminate_waiting {t r : ThreadId} {s s' : Tasks} (hs : TasksInv s)
    (hidle : t ≠ idleThread) (hrun : (s.threads t).state = .running)
    (h : schedulerTerminate s t = some s') :
    (s'.threads t).state = .terminated ∧
      (r ≠ t → s'.waiting (.termination r) = s.waiting (.termination r)) ∧
      ∀ u ∈ s'.zombieList, u ∈ s.zombieList ∨ u = t ∧ (s.threads t).detached = true := by
  obtain ⟨-, -, s₁, hwake, hpush⟩ := schedulerTerminate_spec hs hidle hrun h
  have hstop : Frame t s (s.stop t .terminated) := .stop hs hidle hrun (.inr rfl)
  obtain ⟨hinv, hwoken, -⟩ := waitQueueWakeAll_inv hstop.inv hwake
  have hframe := hwoken.steady (c := t) hstop.inv hinv
  have hterm : (s₁.threads t).state = .terminated := hframe.terminated t (by simp [Tasks.stop])
  have hq : r ≠ t → s₁.waiting (.termination r) = s.waiting (.termination r) := fun hr =>
    hwoken.others _ (by simpa using hr)
  have hz : s₁.zombieList = s.zombieList := hwoken.zombieList
  obtain ⟨-, rfl⟩ | ⟨hd, hp⟩ := hpush
  · exact ⟨hterm, hq, fun u hu => .inl (hz ▸ hu)⟩
  · obtain ⟨hq', hz'⟩ := schedulerPushZombie_waiting (r := r) hinv hp
    refine ⟨(schedulerPushZombie_frame hinv hp).terminated t hterm, fun hr => hq'.trans (hq hr),
      fun u hu => ?_⟩
    have hd' : (s.threads t).detached = true := by
      rw [← hd, (hstop.trans hframe.toFrame).detached t]
    exact (hz' u hu).imp (fun h => hz ▸ h) fun h => ⟨h, hd'⟩

theorem OwnInv.fires (hm : OwnInv m) (hinv : MachineInv m) (hc : m.tasks.current = some c)
    (hcode : m.code c = i :: rest)
    (hunjoined : ∀ t, i = .body (.threadDetach t) → t ∉ m.joins) (h : Fires m c rest i m') :
    OwnInv m' := by
  have hrest : Follows m c rest := .tail hcode
  have hidle : c = idleThread → i.idle = true := fun e => hinv.idle_code i (by simp [← e, hcode])
  have hbusy : i.idle = false → c ≠ idleThread := fun hi e => by simp [hidle e] at hi
  have hoff : Steady c m.tasks m.tasks.masked := .setFlag hinv.inv false
  have hback : ∀ b, Follows m c (.interruptRestore b :: rest) := fun b => hrest.cons rfl
  have hflag : ∀ b, Steady c m.tasks { m.tasks with interruptEnabled := b } :=
    .setFlag hinv.inv
  have hsleep : ∀ {q : WaitQueue} {s₁ : Tasks}, i.idle = false →
      waitQueueSleep m.tasks.masked q = some s₁ → Steady c m.tasks s₁ ∧
      ∀ t u, u ∈ m.tasks.waiting (.termination t) → u ∈ s₁.waiting (.termination t) := by
    intro q s₁ hi h
    obtain ⟨hk, hq, hothers⟩ := waitQueueSleep_continues hoff.inv hinv.runs hc (hbusy hi) h
    refine ⟨hoff.trans hk.toSteady, fun t u hu => ?_⟩
    by_cases hqt : .termination t = q
    · rw [hqt, hq]
      exact List.mem_append_left _ (hqt ▸ hu)
    · rw [hothers _ hqt]
      exact hu
  have howned : ∀ t u, 0 < occurs Instr.joins t (m.code u) → (m.tasks.threads t).detached = false :=
    fun t u h => hm.joined t (hm.joining t u h).1
  have hremove : ∀ {q : WaitQueue} {thread : Option ThreadId} {s₁ : Tasks},
      (∀ t, q ≠ .termination t) → waitQueueRemove m.tasks.masked q = some (thread, s₁) →
      Steady c m.tasks s₁ ∧
      ∀ t u, u ∈ m.tasks.waiting (.termination t) → u ∈ s₁.waiting (.termination t) := by
    intro q thread s₁ hq h
    refine ⟨hoff.trans (waitQueueRemove_continues hoff.inv hinv.runs h).toSteady, fun t u hu => ?_⟩
    obtain ⟨-, -, rfl⟩ | ⟨t', l, -, -, rfl⟩ := waitQueueRemove_spec h
    · exact hu
    · simpa [Tasks.setWaiting_waiting, (hq t).symm] using hu
  cases h with
  | @enter call hassert =>
      have hnone := hm.nested c call (by simp [hcode])
      refine hm.enter hrest ?_ hassert
      cases call <;> first | rfl | simp [Call.joined, Call.detached] at hnone
  | ret => exact hm.steady rfl hrest rfl rfl rfl (hflag m.tasks.interruptEnabled) fun _ _ => id
  | restore | enable => exact hm.steady rfl hrest rfl rfl rfl (hflag _) fun _ _ => id
  | lockFree | acquire => exact hm.steady rfl (hback _) rfl rfl rfl (hflag _) fun _ _ => id
  | lockSleep _ hs | acquireSleep _ hs =>
      obtain ⟨hk, hq⟩ := hsleep rfl hs
      exact hm.steady rfl (hback _) rfl rfl rfl hk hq
  | unlockHand hs =>
      obtain ⟨hk, hq⟩ := hremove (by simp) hs
      exact hm.steady rfl ((hrest.cons rfl).cons rfl) rfl rfl rfl hk hq
  | unlockFree hs | releaseFree hs | releaseHand hs =>
      obtain ⟨hk, hq⟩ := hremove (by simp) hs
      exact hm.steady rfl (hrest.cons rfl) rfl rfl rfl hk hq
  | condvarWait =>
      exact hm.steady rfl ((((hrest.cons rfl).cons rfl).cons rfl).cons rfl) rfl rfl rfl (hflag _)
        fun _ _ => id
  | condvarSignal hs =>
      have hk := waitQueueWake_continues (c := c) hoff.inv hinv.runs hs
      have hw := (waitQueueWake_inv hoff.inv hs).2
      exact hm.steady rfl (hback _) rfl rfl rfl (hoff.trans hk.toSteady) fun t u hu =>
        (hw.others (.termination t) (by simp)).symm ▸ hu
  | condvarBroadcast hs =>
      have hk := waitQueueWakeAll_continues (c := c) hoff.inv hinv.runs hs
      have hw := (waitQueueWakeAll_inv hoff.inv hs).2.1
      exact hm.steady rfl (hback _) rfl rfl rfl (hoff.trans hk.toSteady) fun t u hu =>
        (hw.others (.termination t) (by simp)).symm ▸ hu
  | block hs =>
      obtain ⟨hk, hq⟩ := threadBlock_continues hinv.inv hinv.runs hc (hbusy rfl) hs
      exact hm.steady rfl (hback _) rfl rfl rfl hk.toSteady fun t u hu => hq ▸ hu
  | @unblock t s hs =>
      have hb := (hinv.waking t c (by simp [hcode, Instr.wakes])).1
      obtain ⟨-, -, rfl⟩ := schedulerAdd_spec hs
      refine hm.advance rfl (hback _) rfl rfl rfl (fun u => ?_) (fun _ => .inl) (fun u hu => ?_)
        fun _ _ => .inl
      all_goals simp only [advance_tasks, Tasks.modify_threads]
      all_goals split <;> simp_all
  | yield hs =>
      obtain ⟨hk, hq⟩ := threadYield_continues hinv.inv hc hs
      exact hm.steady rfl (hback _) rfl rfl rfl hk.toSteady fun t u hu => hq ▸ hu
  | joinEnded ht => exact hm.join hcode rfl rfl rfl rfl (hflag _) (fun _ _ => id) (.inl ht)
  | joinSleep _ hs =>
      obtain ⟨hk, hq⟩ := hsleep rfl hs
      have hmem := (waitQueueSleep_continues hoff.inv hinv.runs hc (hbusy rfl) hs).2.1
      exact hm.join hcode rfl rfl rfl rfl hk hq (.inr (by simp [hmem]))
  | @detachLive t =>
      refine hm.detach hcode rfl (by simp [Instr.detaches]) (hback _) rfl rfl rfl (hunjoined t rfl)
        (fun u => ?_) (fun _ => .inl) (fun u hu => ?_) fun _ _ => id
      all_goals simp only [advance_tasks, Tasks.modify_threads]
      all_goals split <;> simp_all
  | @detachEnded t s _ hs =>
      have hset := hoff.inv.setDetached t true
      have hframe := schedulerPushZombie_frame hset hs
      refine hm.detach hcode rfl (by simp [Instr.detaches]) (hback _) rfl rfl rfl (hunjoined t rfl)
        (fun u => ?_) (fun u hu => (schedulerPushZombie_waiting (r := t) hset hs).2 u hu)
        (fun u hu => hframe.terminated u ?_)
        fun r u hu => (schedulerPushZombie_waiting (r := r) hset hs).1 ▸ hu
      · rw [advance_tasks, hframe.detached u]
        simp only [Tasks.modify_threads]
        split <;> simp_all
      · simp only [Tasks.modify_threads]
        split <;> simp_all
  | kill hs =>
      obtain ⟨c', s₁, hc', hne, hrun, hterm, -, hsw⟩ :=
        threadKillCurrent_spec hinv.inv hinv.runs (by simpa [hc] using hbusy rfl) hs
      obtain rfl : c = c' := Option.some.inj (hc.symm.trans hc')
      have hframe := (threadKillCurrent_frame hinv.inv hinv.runs hc hne hs).1
      have hlive : c ∉ m.destroyed := fun h => by simp [(hinv.destroyed c h).1] at hrun
      refine hm.advance rfl (hrest.cons rfl) rfl rfl rfl hframe.detached (fun u hu => ?_)
        hframe.terminated fun t u hu => ?_
      · rw [advance_tasks, hsw.zombieList] at hu
        rcases (schedulerTerminate_waiting (r := c) hoff.inv hne hrun hterm).2.2 u hu with h | ⟨rfl, h⟩
        · exact .inl h
        · exact .inr ⟨h, hlive⟩
      · obtain ⟨hended, hq, -⟩ := schedulerTerminate_waiting (r := t) hoff.inv hne hrun hterm
        by_cases ht : t = c
        · subst ht
          have hsteady := hsw.steady (c := t) (schedulerTerminate_inv hoff.inv hne hrun hterm).1
            fun v hv => ?_
          · exact .inr (hsteady.terminated t hended)
          · exact Option.some.inj (hv.symm.trans
              ((schedulerTerminate_inv hoff.inv hne hrun hterm).2.1.trans hc))
        · left
          rw [advance_tasks, hsw.waiting, hq ht]
          exact hu
  | add hs =>
      obtain ⟨-, -, -, p, -, rfl⟩ := threadAdd_spec hs
      refine hm.advance rfl hrest rfl rfl rfl (fun u => ?_) (fun _ => .inl) (fun u hu => ?_)
        fun _ _ => .inl
      all_goals simp only [advance_tasks, Tasks.setGroup_threads, Tasks.modify_threads]
      all_goals split <;> simp_all
  | create =>
      have hm₁ : OwnInv (m.advance c rest m.tasks) :=
        hm.steady rfl hrest rfl rfl rfl (hflag m.tasks.interruptEnabled) fun _ _ => id
      have hfresh := hinv.fresh m.nextTid (Nat.le_refl _)
      have hne : m.nextTid ≠ c := Nat.ne_of_gt (hinv.current_lt hc)
      have hcode₁ : (m.advance c rest m.tasks).code m.nextTid = [] := by
        simp [Machine.advance, hne, hfresh.2]
      refine hm₁.advance (c := m.nextTid) rfl ?_ rfl rfl rfl (fun u => ?_) (fun _ => .inl)
        (fun u hu => ?_) fun _ _ => .inl
      · rw [← hcode₁]
        exact Follows.refl.cons rfl
      all_goals simp only [advance_tasks, Tasks.modify_threads]
      all_goals split <;> simp_all [Thread.created]
  | processCreate =>
      exact hm.advance rfl hrest rfl rfl rfl (fun _ => rfl) (fun _ => .inl) (fun _ => id)
        fun _ _ => .inl
  | @sleep q s hs =>
      obtain ⟨hk, hq, hothers⟩ := waitQueueSleep_continues hinv.inv hinv.runs hc (hbusy rfl) hs
      refine hm.steady rfl hrest rfl rfl rfl hk.toSteady fun t u hu => ?_
      by_cases hqt : .termination t = q
      · rw [advance_tasks, hqt, hq]
        exact List.mem_append_left _ (hqt ▸ hu)
      · rw [advance_tasks, hothers _ hqt]
        exact hu
  | @joinDestroy t m₁ hd =>
      have hpos : 0 < occurs Instr.joins t (m.code c) := by simp [hcode, Instr.joins]
      obtain ⟨hjoined, hlive⟩ := hm.joining t c hpos
      obtain ⟨s, l, hs, rfl⟩ := destroy_spec hd
      obtain ⟨-, -, g, rfl, -⟩ := threadDestroy_spec hs
      refine hm.destroy rfl hrest (hm.joining_once.done (c := c) (fun u hu => ?_) ?_) rfl rfl rfl hlive
        (.inl hjoined) (fun u => ?_) (fun u hu => ⟨hu, ?_⟩) (fun u => ?_) rfl
      · simp [Machine.advance, hu]
      · simp [hcode, Instr.joins]
      · simp only [advance_tasks, Tasks.modify_threads]
        split <;> simp_all
      · rintro rfl
        exact absurd (howned u c hpos) (by simp [(hm.zombie u hu).1])
      · simp only [advance_tasks, Tasks.modify_threads]
        split <;> simp_all
  | tick hs =>
      obtain ⟨hk, hq⟩ := schedulerTick_continues hinv.inv hinv.runs hc hs
      exact hm.steady rfl hrest rfl rfl rfl hk.toSteady fun t u hu => hq ▸ hu
  | reaperSleep hs =>
      obtain ⟨hk, hq⟩ := hsleep rfl hs
      exact hm.steady rfl ((hrest.cons rfl).cons rfl) rfl rfl rfl hk hq
  | reaperDrain => exact hm.steady rfl (hrest.cons rfl) rfl rfl rfl (hflag _) fun _ _ => id
  | reaperDone hs =>
      obtain ⟨-, ⟨-, -, rfl⟩ | ⟨_, _, _, hn, _⟩⟩ := schedulerNextZombie_spec hs
      · exact hm.steady rfl ((hrest.cons rfl).cons rfl) rfl rfl rfl (hflag m.tasks.interruptEnabled)
          fun _ _ => id
      · cases hn
  | @reaperReap flag t s m₁ hs _ hd =>
      obtain ⟨-, ⟨_, hn, _⟩ | ⟨t', l, hz, ht, rfl⟩⟩ := schedulerNextZombie_spec hs
      · cases hn
      · cases ht
        obtain ⟨hdet, hlive⟩ := hm.zombie t (by simp [hz])
        obtain ⟨s, l', hs, rfl⟩ := destroy_spec hd
        obtain ⟨-, -, g, rfl, -⟩ := threadDestroy_spec hs
        have hnodup := hinv.inv.zombie_nodup
        rw [hz, List.nodup_cons] at hnodup
        refine hm.destroy rfl (hrest.cons rfl) (fun u => ?_) rfl rfl rfl hlive (.inr hdet)
          (fun u => ?_) (fun u hu => ⟨?_, ?_⟩) (fun u => ?_) rfl
        · by_contra h
          have hle : occurs Instr.joins t ((m.advance c (.reaperNext flag :: rest) m.tasks).code u) ≤
              occurs Instr.joins t (m.code u) := occurs_le rfl (hrest.cons rfl).joins t u
          have := howned t u (Nat.lt_of_lt_of_le (Nat.pos_of_ne_zero h) hle)
          simp [hdet] at this
        · simp only [advance_tasks, Tasks.modify_threads]
          split <;> simp_all
        · exact hz ▸ List.mem_cons_of_mem _ hu
        · rintro rfl
          exact hnodup.1 hu
        · simp only [advance_tasks, Tasks.modify_threads]
          split <;> simp_all

theorem OwnInv.moves {l : Label} (hm : OwnInv m) (hinv : MachineInv m)
    (hc : m.tasks.current = some c) (honce : m.callsOnce l = true)
    (hunjoined : m.detachesUnjoined l = true) (h : Moves m c l m') : OwnInv m' := by
  have hflag : ∀ b, Steady c m.tasks { m.tasks with interruptEnabled := b } :=
    .setFlag hinv.inv
  cases h with
  | run hcode h =>
      refine hm.fires hinv hc hcode (fun t hi => ?_) h
      subst hi
      simpa [detachesUnjoined, head, hc, hcode] using hunjoined
  | client hcode _ _ h =>
      cases h with
      | enter hassert => exact hm.enter (hcode ▸ .refl) honce hassert
  | setFlag hcode => exact hm.steady rfl (hcode ▸ .refl) rfl rfl rfl (hflag _) fun _ _ => id
  | timer =>
      exact hm.steady rfl ((Follows.refl.cons rfl).cons rfl) rfl rfl rfl (hflag _) fun _ _ => id

theorem boot_ownInv (idleStack reaperStack pageDirectory esp0 cr3 : Nat) :
    OwnInv (boot idleStack reaperStack pageDirectory esp0 cr3) := by
  have hcode : ∀ u, (boot idleStack reaperStack pageDirectory esp0 cr3).code u =
      if u = reaperThread then [.interruptEnable, .reaperSleep] else [] := fun _ => rfl
  have hnone : ∀ (f : Instr → Option ThreadId), f .interruptEnable = none → f .reaperSleep = none →
      ∀ t u, occurs f t ((boot idleStack reaperStack pageDirectory esp0 cr3).code u) = 0 := by
    intro f h₁ h₂ t u
    rw [hcode]
    split <;> simp [h₁, h₂]
  have hj := hnone Instr.joins rfl rfl
  have hd := hnone Instr.detaches rfl rfl
  refine ⟨by simp [boot], by simp [boot], fun t u h => by simp [hj] at h,
    ⟨fun t u => by simp [hj], fun t u v h => by simp [hj] at h⟩, fun t u h => ?_, by simp [boot],
    by simp [boot], fun t u h => by simp [hd] at h,
    ⟨fun t u => by simp [hd], fun t u v h => by simp [hd] at h⟩, fun u c h => ?_⟩
  · rw [hcode] at h
    split at h <;> simp at h
  · rw [hcode] at h
    split at h <;> simp at h

/-! ## Every run -/

/-- What is known when `thread_destroy` is applied to `t`: it is the first time, `t` has terminated,
and no thread runs on the stack that is freed. -/
def DestroysOnce (m : Machine) : Prop :=
  m.destroyed.Nodup ∧ ∀ l m' t, m.step l = some m' → m'.destroyed = m.destroyed ++ [t] →
    t ∉ m.destroyed ∧ (m.tasks.threads t).state = .terminated ∧ m.tasks.current ≠ some t

/-- Only a join and the reaper's drain apply `thread_destroy`. -/
theorem fires_destroyed (h : Fires m c rest i m') : m'.destroyed = m.destroyed ∨
    ∃ t, m'.destroyed = m.destroyed ++ [t] ∧ (i = .joinDestroy t ∨ t ∈ m.tasks.zombieList) := by
  cases h with
  | @joinDestroy t m₁ hd =>
      obtain ⟨s, l, -, rfl⟩ := destroy_spec hd
      exact .inr ⟨t, rfl, .inl rfl⟩
  | @reaperReap flag t s m₁ hs _ hd =>
      obtain ⟨-, ⟨_, hn, _⟩ | ⟨t', l, hz, ht, -⟩⟩ := schedulerNextZombie_spec hs
      · cases hn
      · cases ht
        obtain ⟨s, l', -, rfl⟩ := destroy_spec hd
        exact .inr ⟨t, rfl, .inr (by simp [hz])⟩
  | _ => exact .inl rfl

theorem OwnInv.destroysOnce (hm : OwnInv m) (hinv : MachineInv m) : DestroysOnce m := by
  refine ⟨hm.nodup, fun l m' t h hd => ?_⟩
  obtain ⟨c, hc, hmoves⟩ := step_moves h
  have hrun := hinv.current_running hc
  have hne : (m.tasks.threads t).state = .terminated → m.tasks.current ≠ some t := fun ht e => by
    cases hc.symm.trans e
    simp [ht] at hrun
  cases hmoves with
  | @run i rest m' hcode hfires =>
      rcases fires_destroyed hfires with e | ⟨t', ht', howner⟩
      · simp [e] at hd
      · have htt : t' = t := by simpa [ht'] using hd
        subst htt
        rcases howner with rfl | hz
        · have hlive := (hm.joining t' c (by simp [hcode, Instr.joins])).2
          rcases hm.ended t' c (by simp [hcode]) with hterm | hsleep
          · exact ⟨hlive, hterm, hne hterm⟩
          · have hb := (hinv.inv.waiting_blocked _ c hsleep).1
            simp [hrun] at hb
        · have hterm := hinv.inv.zombie_terminated t' hz
          exact ⟨(hm.zombie t' hz).2, hterm, hne hterm⟩
  | client _ _ _ hfires =>
      cases hfires with
      | enter => simp at hd
  | setFlag => simp at hd
  | timer => simp at hd

/-- In every run in which no `thread_detach` takes effect on a thread already joined, every thread
is destroyed at most once, after it has terminated, and never on its own stack. -/
theorem destroyed_once {idleStack reaperStack pageDirectory esp0 cr3 : Nat} {ls : List Label}
    {m : Machine}
    (hrun : Run step (fun m l => m.permitted l = true ∧ m.callsOnce l = true ∧
      m.detachesUnjoined l = true) (boot idleStack reaperStack pageDirectory esp0 cr3) ls m) :
    DestroysOnce m := by
  have hinv : MachineInv m ∧ OwnInv m := by
    refine hrun.invariant (I := fun m => MachineInv m ∧ OwnInv m)
      ⟨boot_inv .., boot_ownInv ..⟩ fun hm hok hstep => ?_
    obtain ⟨c, hc, hmoves⟩ := step_moves hstep
    exact ⟨hm.1.moves hc hok.1 hmoves, hm.2.moves hm.1 hc hok.2.1 hok.2.2 hmoves⟩
  exact hinv.2.destroysOnce hinv.1

/-- Thread 2 joins thread 3, which ends and is destroyed by thread 2. -/
theorem destroyed_once_joined :
    ∃ m, exec step (fun m l => m.permitted l = true ∧ m.callsOnce l = true ∧
        m.detachesUnjoined l = true) (boot 0 0 0 0 0)
      (spawn 2 ++ spawn 3 ++ [.setFlag true] ++ quantum ++ [.run, .run, .run,
        .client (.threadJoin 3), .run, .run, .client .threadKillCurrent, .run, .run]) = some m ∧
      m.destroyed = [3] ∧ DestroysOnce m := by
  have h : ((exec step (fun m l => m.permitted l = true ∧ m.callsOnce l = true ∧
        m.detachesUnjoined l = true) (boot 0 0 0 0 0)
      (spawn 2 ++ spawn 3 ++ [.setFlag true] ++ quantum ++ [.run, .run, .run,
        .client (.threadJoin 3), .run, .run, .client .threadKillCurrent, .run, .run])).map
      fun m => m.destroyed) = some [3] := by
    decide +kernel
  obtain ⟨m, hm, hend⟩ := Option.map_eq_some_iff.mp h
  exact ⟨m, hm, hend, destroyed_once (run_of_exec hm)⟩

/-- Thread 2 sleeps in `thread_join` of thread 3, which detaches itself and ends: thread 2 destroys
it, and then the reaper does. -/
theorem destroyed_twice :
    ¬ ∀ (idleStack reaperStack pageDirectory esp0 cr3 : Nat) (ls : List Label) (m : Machine),
      Run step (fun m l => m.permitted l = true ∧ m.callsOnce l = true)
        (boot idleStack reaperStack pageDirectory esp0 cr3) ls m → DestroysOnce m := by
  intro hall
  have h : ((exec step (fun m l => m.permitted l = true ∧ m.callsOnce l = true) (boot 0 0 0 0 0)
      (spawn 2 ++ spawn 3 ++ [.setFlag true] ++ quantum ++ [.run, .run, .run,
        .client (.threadJoin 3), .run, .run, .client (.threadDetach 3), .run, .run, .run,
        .client .threadKillCurrent, .run, .run, .run, .run, .client .threadYield, .run, .run, .run,
        .run, .run])).map fun m => m.destroyed) = some [3, 3] := by
    decide +kernel
  obtain ⟨m, hm, hend⟩ := Option.map_eq_some_iff.mp h
  have hnodup := (hall 0 0 0 0 0 _ m (run_of_exec hm)).1
  simp [hend] at hnodup

end Machine

end Neox
