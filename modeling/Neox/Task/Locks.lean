import Neox.Task.History
import Neox.Task.Interrupts

/-!
# Mutexes exclude, and hand over first come, first served

`mutex.c`. `mutex_unlock` names the next owner while that thread is still blocked, and `mutex_lock`
does not look at the owner again after it has slept. What makes this sound is a count: a thread has
been given the mutex, at once or off the queue, as often as it has unlocked it, and once more
exactly while it is `mutex->owner`.
-/

namespace Neox

open Transition

/-- `mutex_lock` of `mutex`. -/
def Call.locks (mutex : Nat) (call : Call) : Bool := call == .mutexLock mutex

/-- `mutex_unlock` of `mutex`. -/
def Call.unlocks (mutex : Nat) (call : Call) : Bool := call == .mutexUnlock mutex

/-- Thread `t` has returned from `mutex_lock` and not yet unlocked. -/
def Holds (mutex : Nat) (t : ThreadId) (es : List Event) : Prop :=
  es.countP (Event.isExecuted (Call.unlocks mutex) t) <
    es.countP (Event.isReturned (Call.locks mutex) t)

namespace Machine

/-- Thread `t` has a `mutex_lock` to return from and is past its critical section: it waits, or has
been resumed. -/
def InsideLock (mutex : Nat) (t : ThreadId) (m : Machine) : Prop :=
  0 < (m.code t).countP (Instr.isRet (Call.locks mutex)) ∧
    (m.code t).countP (Instr.isBody (Call.locks mutex)) = 0

/-- What holds of `mutex` after the history `es`. -/
structure MutexSound (mutex : Nat) (es : List Event) (m : Machine) : Prop where
  exclusive : ∀ t, Holds mutex t es → m.owner mutex = some t
  empty : m.owner mutex = none → m.tasks.waiting (.mutex mutex) = []
  resumed : ∀ t, InsideLock mutex t m → t ∉ m.tasks.waiting (.mutex mutex) →
    m.owner mutex = some t
  fifo : Fifo (.mutex mutex) es m

/-- How a step may change the owner: to nobody when nobody waits, to the thread that finds the mutex
free, or to the one that has waited longest. -/
inductive OwnerStep (mutex : Nat) (m m' : Machine) : Prop
  | same : m'.owner mutex = m.owner mutex → OwnerStep mutex m m'
  | freed : m'.owner mutex = none → m.tasks.waiting (.mutex mutex) = [] → OwnerStep mutex m m'
  | taken {t : ThreadId} : m.owner mutex = none → m.tasks.waiting (.mutex mutex) = [] →
      m.tasks.current = some t → m'.owner mutex = some t → OwnerStep mutex m m'
  | handed {t : ThreadId} {l : List ThreadId} : m.tasks.waiting (.mutex mutex) = t :: l →
      m'.owner mutex = some t → m'.tasks.waiting (.mutex mutex) = l → OwnerStep mutex m m'

variable {m m' : Machine} {c : ThreadId} {i : Instr} {rest : List Instr} {mutex : Nat}
  {es : List Event} {l : Label}

/-! ## The owner -/

theorem lock_guards : Guards (.mutex mutex) (Call.locks mutex) := by
  refine ⟨fun call h => ?_, fun call h flag => ?_, fun m c call t => ?_⟩
  · cases call <;> simp [Call.sleeps] at h
  · cases call <;> first | rfl | cases h
  cases call with
  | mutexLock id =>
      simp only [queueEvents]
      by_cases hid : id = mutex
      · subst hid
        split <;> simp [Call.locks, Call.sleeps, linked_singleton, Event.linkedIn, List.count_cons]
      · split <;> simp [Call.locks, Call.sleeps, linked_singleton, Event.linkedIn, hid]
  | semaphoreAcquire sem =>
      simp only [queueEvents]
      split <;> simp [Call.locks, Call.sleeps, linked_singleton, Event.linkedIn]
  | mutexUnlock | semaphoreRelease | condvarSignal | condvarBroadcast =>
      rw [queueEvents, count_map_unlinked]
      rfl
  | _ => rfl

/-- The owner after an instruction that is about no mutex, or about another one. -/
theorem Fires.owner_other (h : Fires m c rest i m') (hlock : i ≠ .body (.mutexLock mutex))
    (hunlock : i ≠ .body (.mutexUnlock mutex)) : m'.owner mutex = m.owner mutex := by
  cases h with
  | @lockFree id _ =>
      have hid : mutex ≠ id := fun e => hlock (by rw [e])
      exact Function.update_of_ne hid ..
  | @unlockHand id _ _ _ | @unlockFree id _ _ =>
      have hid : mutex ≠ id := fun e => hunlock (by rw [e])
      exact Function.update_of_ne hid ..
  | joinDestroy hd =>
      obtain ⟨s, l, -, rfl⟩ := destroy_spec hd
      rfl
  | reaperReap _ _ hd =>
      obtain ⟨s, l, -, rfl⟩ := destroy_spec hd
      rfl
  | _ => rfl

/-- How an instruction changes the owner and the queue. -/
theorem Fires.ownerStep (h : Fires m c rest i m') (hc : m.tasks.current = some c)
    (hempty : m.owner mutex = none → m.tasks.waiting (.mutex mutex) = []) :
    OwnerStep mutex m m' := by
  by_cases hlock : i = .body (.mutexLock mutex)
  · subst hlock
    cases h with
    | lockFree hfree => exact .taken hfree (hempty hfree) hc (Function.update_self ..)
    | lockSleep => exact .same rfl
  · by_cases hunlock : i = .body (.mutexUnlock mutex)
    · subst hunlock
      cases h with
      | unlockHand hrem =>
          obtain ⟨-, hnone, -⟩ | ⟨u, l, hq, hsome, rfl⟩ := waitQueueRemove_spec hrem
          · cases hnone
          · cases hsome
            exact .handed hq (Function.update_self ..) (by simp)
      | unlockFree hrem =>
          obtain ⟨hq, -, -⟩ | ⟨u, l, -, hsome, -⟩ := waitQueueRemove_spec hrem
          · exact .freed (Function.update_self ..) hq
          · cases hsome
    · exact .same (h.owner_other hlock hunlock)

/-- A thread has been given the mutex as often as it has unlocked it, and once more while it is the
owner; nobody waits for a free mutex. -/
def Owned (mutex : Nat) (es : List Event) (m : Machine) : Prop :=
  (∀ t, es.count (.took (.mutex mutex) t) + (unlinked (.mutex mutex) es).count t =
    es.countP (Event.isExecuted (Call.unlocks mutex) t) + (m.owner mutex).toList.count t) ∧
  (m.owner mutex = none → m.tasks.waiting (.mutex mutex) = [])

theorem Owned.fires (hs : Owned mutex es m) (hm : MachineInv m) (hcodes : Codes m)
    (hc : m.tasks.current = some c) (hcode : m.code c = i :: rest) (h : Fires m c rest i m')
    (hunlocker : i = .body (.mutexUnlock mutex) → m.owner mutex = some c) :
    Owned mutex (es ++ m.instrEvents c i) m' := by
  obtain ⟨hold, hempty⟩ := hs
  have hcalm : i ≠ .body (.mutexLock mutex) → i.isBody (Call.locks mutex) = false := by
    intro hlock
    cases i with
    | body call =>
        have hne : call ≠ .mutexLock mutex := fun e => hlock (by rw [e])
        simpa [Instr.isBody, Call.locks] using hne
    | _ => rfl
  refine ⟨fun t => ?_, fun hfree => ?_⟩
  · have hold := hold t
    rw [List.count_append, List.countP_append, unlinked_append, List.count_append]
    by_cases hlock : i = .body (.mutexLock mutex)
    · subst hlock
      cases h with
      | lockFree hfree =>
          have hnew : m.instrEvents c (.body (.mutexLock mutex)) =
              [.executed (.mutexLock mutex) c, .took (.mutex mutex) c] := by
            simp [instrEvents, queueEvents, hfree]
          rw [hfree] at hold
          simp [hnew, Event.isExecuted, Call.unlocks, unlinked_cons, Event.unlinkedFrom,
            List.count_cons] at hold ⊢
          omega
      | lockSleep hheld =>
          have hnew : m.instrEvents c (.body (.mutexLock mutex)) =
              [.executed (.mutexLock mutex) c, .linked (.mutex mutex) c] := by
            simp [instrEvents, queueEvents, hheld]
          simpa [hnew, Event.isExecuted, Call.unlocks, unlinked_cons, Event.unlinkedFrom] using hold
    · have hguards : Guards (.mutex mutex) _ := lock_guards
      have htook := hguards.instrEvents (m := m) (c := c) (i := i) t
      have hzero := hcodes.no_sleep (q := .mutex mutex) (by simp) c
      rw [hcode, List.countP_eq_zero] at hzero
      have hsleep : i.sleepsOn (.mutex mutex) = false := by simpa using hzero i (by simp)
      simp only [hcalm hlock, hsleep, Bool.false_and, Bool.false_eq_true, if_false] at htook
      rw [instrEvents_executed, (Nat.add_eq_zero_iff.mp htook).1]
      by_cases hunlock : i = .body (.mutexUnlock mutex)
      · subst hunlock
        have howner := hunlocker rfl
        have hqueue : unlinked (.mutex mutex) (m.instrEvents c (.body (.mutexUnlock mutex))) =
            (m.tasks.waiting (.mutex mutex)).head?.toList := by
          simp [instrEvents, unlinked_executed, queueEvents, unlinked_map]
        rw [hqueue]
        cases h with
        | @unlockHand _ t _ hrem =>
            obtain ⟨-, hnone, -⟩ | ⟨u, l, hq, hsome, -⟩ := waitQueueRemove_spec hrem
            · cases hnone
            · cases hsome
              have hq : m.tasks.waiting (.mutex mutex) = t :: l := hq
              simp [hq, howner, Instr.isBody, Call.unlocks, List.count_cons] at hold ⊢
              omega
        | unlockFree hrem =>
            obtain ⟨hq, -, -⟩ | ⟨u, l, -, hsome, -⟩ := waitQueueRemove_spec hrem
            · have hq : m.tasks.waiting (.mutex mutex) = [] := hq
              simp [hq, howner, Instr.isBody, Call.unlocks, List.count_cons] at hold ⊢
              omega
            · cases hsome
      · have hserves : ∀ call, i = .body call → call.serves ≠ some (.mutex mutex) := by
          rintro call rfl he
          cases call <;> simp [Call.serves] at he
          exact hunlock (by rw [he])
        have hexecuted : i.isBody (Call.unlocks mutex) = false := by
          cases i with
          | body call =>
              have hne : call ≠ .mutexUnlock mutex := fun e => hunlock (by rw [e])
              simpa [Instr.isBody, Call.unlocks] using hne
          | _ => rfl
        rw [unlinked_instrEvents hserves, h.owner_other hlock hunlock, hexecuted]
        simpa using hold
  · by_cases hlock : i = .body (.mutexLock mutex)
    · subst hlock
      cases h with
      | lockFree => simp at hfree
      | lockSleep hheld => exact absurd hfree hheld
    · have hq : m.tasks.waiting (.mutex mutex) = [] := by
        cases h.ownerStep hc hempty with
        | same he => exact hempty (he ▸ hfree)
        | freed _ hq => exact hq
        | taken _ _ _ he => simp [he] at hfree
        | handed _ he _ => simp [he] at hfree
      exact hm.stays_empty hcodes lock_guards rfl (by simp) hc hcode h (hcalm hlock) hq

/-! ## Pending unlocks -/

/-- Whoever is about to execute the critical section of `mutex_unlock` owns the mutex. -/
def Unlockers (mutex : Nat) (m : Machine) : Prop :=
  ∀ t, .body (.mutexUnlock mutex) ∈ m.code t → m.owner mutex = some t

/-- Only its owner's unlock takes a mutex away. -/
theorem Fires.owner_kept {t : ThreadId} (h : Fires m c rest i m')
    (hunlock : i = .body (.mutexUnlock mutex) → m.owner mutex = some c) (hne : t ≠ c)
    (howner : m.owner mutex = some t) : m'.owner mutex = some t := by
  by_cases hlock : i = .body (.mutexLock mutex)
  · subst hlock
    cases h with
    | lockFree hfree => simp [hfree] at howner
    | lockSleep => exact howner
  · rw [h.owner_other hlock, howner]
    intro hi
    rw [hunlock hi] at howner
    exact hne (Option.some.inj howner).symm

/-- `ASSERT(mutex->owner == scheduler_current())`. -/
theorem owner_of_entered {call : Call} {flag : Bool} (hassert : m.entryAssert c call = true)
    (hrest : .body (.mutexUnlock mutex) ∉ rest)
    (h : .body (.mutexUnlock mutex) ∈ Instr.body call :: .ret call flag :: rest) :
    m.owner mutex = some c := by
  rcases List.mem_cons.mp h with he | h
  · cases he
    simpa [entryAssert] using hassert
  · simp [hrest] at h

theorem Unlockers.fires (hu : Unlockers mutex m) (hm : MachineInv m) (hcodes : Codes m)
    (hc : m.tasks.current = some c) (hcode : m.code c = i :: rest) (h : Fires m c rest i m') :
    Unlockers mutex m' := by
  have hlt := hm.current_lt hc
  obtain ⟨hself, hother⟩ := h.code hlt (hm.fresh m.nextTid (Nat.le_refl _)).2
  have hunlock : i = .body (.mutexUnlock mutex) → m.owner mutex = some c := by
    rintro rfl
    exact hu c (by simp [hcode])
  have hshaped : Shaped (i :: rest) := hcode ▸ hcodes.shaped c
  have hrest : .body (.mutexUnlock mutex) ∈ rest →
      i = .schedulerTick ∨ ∃ flag, i = .interruptRestore flag := by
    intro hmem
    by_contra hi
    rw [not_or, not_exists] at hi
    have hzero := hshaped.tail (Call.unlocks mutex) hi.1 hi.2
    rw [List.countP_eq_zero] at hzero
    exact hzero _ hmem (by simp [Instr.isBody, Call.unlocks])
  intro t ht
  by_cases hct : t = c
  · subst hct
    obtain ⟨pre, he, ⟨call, flag, rfl, rfl⟩ | ⟨-, hquiet, -⟩⟩ := hself
    · have hnone : .body (.mutexUnlock mutex) ∉ rest := fun hmem => by simpa using hrest hmem
      rw [he] at ht
      cases h with
      | enter hassert => exact owner_of_entered hassert hnone ht
    · rw [he] at ht
      rcases List.mem_append.mp ht with ht | ht
      · cases hquiet _ ht
      · -- A critical section stays ahead only behind a timer interrupt.
        have howner := hu t (by simp [hcode, ht])
        rw [h.owner_other]
        · exact howner
        all_goals rcases hrest ht with rfl | ⟨flag, rfl⟩ <;> simp
  · rcases hother t hct with he | ⟨-, he⟩
    · rw [he] at ht
      exact h.owner_kept hunlock hct (hu t ht)
    · rw [he] at ht
      simp at ht

/-! ## Every run -/

/-- Everything a run keeps about `mutex`. -/
structure LockInv (mutex : Nat) (es : List Event) (m : Machine) : Prop where
  books : Books (.mutex mutex) (Call.locks mutex) es m
  owned : Owned mutex es m
  unlockers : Unlockers mutex m
  /-- Nobody has unlocked more often than it has locked. -/
  behind : ∀ t, es.countP (Event.isExecuted (Call.unlocks mutex) t) ≤
    es.countP (Event.isReturned (Call.locks mutex) t)

/-- A thread has returned from as many locks as it has been given the mutex, or has the last one's
return ahead. -/
theorem LockInv.returned (h : LockInv mutex es m) (t : ThreadId) :
    es.countP (Event.isReturned (Call.locks mutex) t) +
        (m.code t).countP (Instr.isRet (Call.locks mutex)) =
      es.countP (Event.isExecuted (Call.unlocks mutex) t) + (m.owner mutex).toList.count t +
        (m.tasks.waiting (.mutex mutex)).count t +
        (m.code t).countP (Instr.isBody (Call.locks mutex)) := by
  have hledger := h.books.ledger t
  have haccounts := h.books.accounts t
  have hsleep := h.books.codes.no_sleep (q := .mutex mutex) (by simp) t
  have howned := h.owned.1 t
  have hfifo : (linked (.mutex mutex) es).count t = (unlinked (.mutex mutex) es).count t +
      (m.tasks.waiting (.mutex mutex)).count t := by
    rw [h.books.fifo, List.count_append]
  omega

theorem LockInv.behind_fires (h : LockInv mutex es m)
    (hcode : m.code c = i :: rest) (t : ThreadId) :
    (es ++ m.instrEvents c i).countP (Event.isExecuted (Call.unlocks mutex) t) ≤
      (es ++ m.instrEvents c i).countP (Event.isReturned (Call.locks mutex) t) := by
  have hold := h.behind t
  rw [List.countP_append, List.countP_append, instrEvents_executed]
  by_cases hi : (i.isBody (Call.unlocks mutex) && c == t) = true
  · -- The unlocking thread owns the mutex and has no `mutex_lock` to return from.
    rw [Bool.and_eq_true, beq_iff_eq] at hi
    obtain ⟨hbody, rfl⟩ := hi
    cases i with
    | body call =>
        obtain rfl : call = .mutexUnlock mutex := by simpa [Instr.isBody, Call.unlocks] using hbody
        have howner := h.unlockers c (by simp [hcode])
        have hreturned := h.returned c
        have hshaped := h.books.codes.shaped c
        rw [hcode] at hshaped hreturned
        obtain ⟨flag, tail, rfl, hcalm⟩ := hshaped
        have hnone : ((Instr.body (.mutexUnlock mutex)) :: .ret (.mutexUnlock mutex) flag ::
            tail).countP (Instr.isRet (Call.locks mutex)) = 0 := by
          rw [List.countP_eq_zero]
          intro j hj
          rcases List.mem_cons.mp hj with rfl | hj
          · simp [Instr.isRet]
          · rcases List.mem_cons.mp hj with rfl | hj
            · simp [Instr.isRet, Call.locks]
            · have := hcalm j hj
              cases j with
              | ret call flag =>
                  cases call <;> simp [Instr.isRet, Call.locks, Instr.calm] at this ⊢
              | _ => simp [Instr.isRet]
        have hone : (some c).toList.count c = 1 := by simp
        rw [hnone, howner, hone] at hreturned
        simp only [beq_self_eq_true, Bool.and_true, hbody, if_true]
        omega
    | _ => cases hbody
  · rw [if_neg hi]
    omega

theorem LockInv.step (h : LockInv mutex es m) (hok : m.permitted l = true)
    (hs : m.step l = some m') : LockInv mutex (es ++ m.observe l) m' := by
  have hm := h.books.inv
  have hbooks := h.books.step rfl lock_guards hok hs
  obtain ⟨c, hc, hmoves⟩ := step_moves hs
  cases hmoves with
  | run hcode hfires =>
      have hobs := observe_run hc hcode
      rw [hobs] at hbooks ⊢
      refine ⟨hbooks, h.owned.fires hm h.books.codes hc hcode hfires ?_,
        h.unlockers.fires hm h.books.codes hc hcode hfires, h.behind_fires hcode⟩
      rintro rfl
      exact h.unlockers c (by simp [hcode])
  | @client call _ hcode _ _ hfires =>
      have hobs : m.observe (.client call) = [] := rfl
      rw [hobs, List.append_nil] at hbooks ⊢
      cases hfires with
      | enter hassert =>
          refine ⟨hbooks, h.owned, fun t ht => ?_, h.behind⟩
          by_cases hct : t = c
          · subst hct
            change _ ∈ Function.update m.code t _ t at ht
            rw [Function.update_self] at ht
            exact owner_of_entered hassert (by simp) ht
          · change _ ∈ Function.update m.code c _ t at ht
            rw [Function.update_of_ne hct] at ht
            exact h.unlockers t ht
  | @setFlag enabled hcode =>
      have hobs : m.observe (.setFlag enabled) = [] := rfl
      rw [hobs, List.append_nil] at hbooks ⊢
      refine ⟨hbooks, h.owned, fun t ht => ?_, h.behind⟩
      by_cases hct : t = c
      · subst hct
        simp at ht
      · rw [advance_code_ne _ _ _ hct] at ht
        exact h.unlockers t ht
  | timer =>
      have hobs : m.observe .timer = [] := rfl
      rw [hobs, List.append_nil] at hbooks ⊢
      refine ⟨hbooks, h.owned, fun t ht => ?_, h.behind⟩
      by_cases hct : t = c
      · subst hct
        exact h.unlockers t (by simpa using ht)
      · rw [advance_code_ne _ _ _ hct] at ht
        exact h.unlockers t ht

theorem boot_lockInv (idleStack reaperStack pageDirectory esp0 cr3 : Nat) :
    LockInv mutex [] (boot idleStack reaperStack pageDirectory esp0 cr3) := by
  have hboot := boot_books (.mutex mutex) (Call.locks mutex) idleStack reaperStack
    pageDirectory esp0 cr3 fun _ => 0
  refine ⟨hboot, ⟨fun t => rfl, fun _ => rfl⟩, fun t ht => ?_, fun t => Nat.le_refl _⟩
  change _ ∈ (if t = reaperThread then _ else _) at ht
  split at ht <;> simp at ht

theorem LockInv.sound (h : LockInv mutex es m) : MutexSound mutex es m where
  exclusive t ht := by
    have howned := h.owned.1 t
    have hgranted := h.books.granted t
    have hpos : 0 < (m.owner mutex).toList.count t := by
      unfold Holds at ht
      omega
    simpa using List.count_pos_iff.mp hpos
  empty := h.owned.2
  resumed t ht hwait := by
    have hreturned := h.returned t
    have hbehind := h.behind t
    have hpos : 0 < (m.owner mutex).toList.count t := by
      rw [ht.2, List.count_eq_zero.mpr hwait] at hreturned
      have := ht.1
      omega
    simpa using List.count_pos_iff.mp hpos
  fifo := h.books.fifo

/-- In every run, whatever the threads do: whoever is past `mutex_lock` and has not unlocked is the
owner, so there is one at most; so is a thread resumed inside `mutex_lock`; a free mutex has no
waiters; and the mutex goes to the longest waiting thread whenever there is one. -/
theorem mutex_exclusive_fifo {idleStack reaperStack pageDirectory esp0 cr3 : Nat}
    (hrun : Observed step (fun m l => m.permitted l = true) observe
      (boot idleStack reaperStack pageDirectory esp0 cr3) es m) :
    MutexSound mutex es m ∧ ∀ l m', m.step l = some m' → OwnerStep mutex m m' := by
  have hinv : LockInv mutex es m := by
    apply hrun.invariant
    · exact boot_lockInv ..
    · intro es m l m' h hok hs
      exact h.step hok hs
  refine ⟨hinv.sound, fun l m' hs => ?_⟩
  obtain ⟨c, hc, hmoves⟩ := step_moves hs
  cases hmoves with
  | run hcode hfires => exact hfires.ownerStep hc hinv.owned.2
  | client _ _ _ hfires =>
      cases hfires
      exact .same rfl
  | setFlag | timer => exact .same rfl

/-- Thread 2 takes the mutex, thread 3 waits for it and gets it handed over. -/
theorem mutex_exclusive_fifo_handover :
    ∃ es m, Observed step (fun m l => m.permitted l = true) observe (boot 0 0 0 0 0) es m ∧
      unlinked (.mutex 0) es = [3] ∧ m.owner 0 = some 3 ∧ MutexSound 0 es m ∧
      ∀ l m', m.step l = some m' → OwnerStep 0 m m' := by
  have h : ((watch step (fun m l => m.permitted l = true) observe (boot 0 0 0 0 0)
      (twoThreads ++ [.client (.mutexLock 0), .run, .run, .run] ++ quantum ++
        [.run, .client (.mutexLock 0), .run, .run, .client (.mutexUnlock 0), .run, .run])).map
      fun p => (unlinked (.mutex 0) p.1, p.2.owner 0)) = some ([3], some 3) := by decide +kernel
  obtain ⟨⟨es, m⟩, hw, hend⟩ := Option.map_eq_some_iff.mp h
  simp only [Prod.mk.injEq] at hend
  have hrun := observed_of_watch hw
  exact ⟨es, m, hrun, hend.1, hend.2, mutex_exclusive_fifo hrun⟩

end Machine

end Neox
