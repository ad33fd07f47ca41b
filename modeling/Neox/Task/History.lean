import Neox.Task.Threads

/-!
# What happens to a mutex, a semaphore or a condition variable

The history of a run: which calls have executed their critical section, which have returned, and
who was linked in and taken off the wait queue of which object. Whatever the object, its queue
holds those who were linked and have not been taken off, in the order in which they were linked
(`MachineInv.fifo`).
-/

namespace Neox

open Transition

/-- Something an observer of a run notes about thread `t`. -/
inductive Event where
  /-- The critical section of a call has been executed. -/
  | executed (c : Call) (t : ThreadId)
  /-- The call has returned. -/
  | returned (c : Call) (t : ThreadId)
  /-- The thread got what the object guards without waiting. -/
  | took (q : WaitQueue) (t : ThreadId)
  | linked (q : WaitQueue) (t : ThreadId)
  | unlinked (q : WaitQueue) (t : ThreadId)
  deriving DecidableEq, Repr

/-- The queue belongs to a mutex, a semaphore or a condition variable. -/
def WaitQueue.ofObject : WaitQueue → Bool
  | .mutex _ | .semaphore _ | .condvar _ => true
  | _ => false

/-- The thread linked in `q`, if that is what the event says. -/
def Event.linkedIn (q : WaitQueue) : Event → Option ThreadId
  | .linked r t => if r = q then some t else none
  | _ => none

/-- The thread taken off `q`, if that is what the event says. -/
def Event.unlinkedFrom (q : WaitQueue) : Event → Option ThreadId
  | .unlinked r t => if r = q then some t else none
  | _ => none

/-- Who was linked in `q`, in order. -/
def linked (q : WaitQueue) (es : List Event) : List ThreadId := es.filterMap (Event.linkedIn q)

/-- Who was taken off `q`, in order. -/
def unlinked (q : WaitQueue) (es : List Event) : List ThreadId := es.filterMap (Event.unlinkedFrom q)

section Projection

variable (q : WaitQueue) (es fs : List Event) (e : Event)

@[simp] theorem linked_nil : linked q [] = [] := rfl
@[simp] theorem unlinked_nil : unlinked q [] = [] := rfl

@[simp] theorem linked_append : linked q (es ++ fs) = linked q es ++ linked q fs := by
  simp [linked]

@[simp] theorem unlinked_append : unlinked q (es ++ fs) = unlinked q es ++ unlinked q fs := by
  simp [unlinked]

theorem linked_cons : linked q (e :: es) = (e.linkedIn q).toList ++ linked q es := by
  cases h : e.linkedIn q <;> simp [linked, h]

theorem unlinked_cons : unlinked q (e :: es) = (e.unlinkedFrom q).toList ++ unlinked q es := by
  cases h : e.unlinkedFrom q <;> simp [unlinked, h]

theorem linked_singleton : linked q [e] = (e.linkedIn q).toList := by
  rw [linked_cons, linked_nil, List.append_nil]

theorem unlinked_singleton : unlinked q [e] = (e.unlinkedFrom q).toList := by
  rw [unlinked_cons, unlinked_nil, List.append_nil]

/-- Taking a whole list of threads off a queue. -/
theorem unlinked_map (r : WaitQueue) (l : List ThreadId) :
    unlinked q (l.map (Event.unlinked r)) = if r = q then l else [] := by
  induction l with
  | nil => simp
  | cons t l ih =>
      rw [List.map_cons, unlinked_cons, ih]
      by_cases h : r = q <;> simp [Event.unlinkedFrom, h]

theorem linked_map (r : WaitQueue) (l : List ThreadId) :
    linked q (l.map (Event.unlinked r)) = [] := by
  induction l with
  | nil => rfl
  | cons t l ih =>
      rw [List.map_cons, linked_cons, ih]
      rfl

theorem count_map_unlinked (r : WaitQueue) (l : List ThreadId) (t : ThreadId) :
    (l.map (Event.unlinked r)).count (.took q t) +
      (linked q (l.map (Event.unlinked r))).count t = 0 := by
  rw [linked_map, List.count_nil, Nat.add_zero, List.count_eq_zero]
  simp

end Projection

namespace Machine

/-- What the critical section of `call`, executed by thread `c`, does to the object's queue. -/
def queueEvents (m : Machine) (c : ThreadId) : Call → List Event
  | .mutexLock mutex =>
      if m.owner mutex = none then [.took (.mutex mutex) c] else [.linked (.mutex mutex) c]
  | .mutexUnlock mutex => (m.tasks.waiting (.mutex mutex)).head?.toList.map (.unlinked (.mutex mutex))
  | .semaphoreAcquire sem =>
      if 0 < m.count sem then [.took (.semaphore sem) c] else [.linked (.semaphore sem) c]
  | .semaphoreRelease sem =>
      (m.tasks.waiting (.semaphore sem)).head?.toList.map (.unlinked (.semaphore sem))
  | .condvarSignal cv => (m.tasks.waiting (.condvar cv)).head?.toList.map (.unlinked (.condvar cv))
  | .condvarBroadcast cv => (m.tasks.waiting (.condvar cv)).map (.unlinked (.condvar cv))
  | _ => []

/-- What an instruction of thread `c` is noted as. -/
def instrEvents (m : Machine) (c : ThreadId) : Instr → List Event
  | .body call => .executed call c :: m.queueEvents c call
  | .ret call _ => [.returned call c]
  | .waitQueueSleep q => [.linked q c]
  | _ => []

/-- What a step is noted as. -/
def observe (m : Machine) : Label → List Event
  | .run => match m.tasks.current, m.head with
      | some c, some i => m.instrEvents c i
      | _, _ => []
  | _ => []

variable {m m' : Machine} {c : ThreadId} {i : Instr} {rest : List Instr} {q : WaitQueue}

/-! ## What is left of a call -/

end Machine

/-- The critical section of one of the calls `P`. -/
def Instr.isBody (P : Call → Bool) : Instr → Bool
  | .body c => P c
  | _ => false

/-- The return of one of the calls `P`. -/
def Instr.isRet (P : Call → Bool) : Instr → Bool
  | .ret c _ => P c
  | _ => false

/-- The queue the call takes threads off. -/
def Call.serves : Call → Option WaitQueue
  | .mutexUnlock mutex => some (.mutex mutex)
  | .semaphoreRelease sem => some (.semaphore sem)
  | .condvarSignal cv | .condvarBroadcast cv => some (.condvar cv)
  | _ => none

/-- `condvar_wait` goes to sleep in `q` with a separate instruction. -/
def Call.sleeps (q : WaitQueue) : Call → Bool
  | .condvarWait cv _ => .condvar cv == q
  | _ => false

/-- That instruction. -/
def Instr.sleepsOn (q : WaitQueue) : Instr → Bool
  | .waitQueueSleep r => r == q
  | _ => false

/-- Neither of the two, whatever the call. -/
def Instr.quiet : Instr → Bool
  | .body _ | .ret _ _ => false
  | _ => true

/-- Thread `t` has executed the critical section of one of the calls `P`. -/
def Event.isExecuted (P : Call → Bool) (t : ThreadId) : Event → Bool
  | .executed c u => P c && u == t
  | _ => false

/-- Thread `t` has returned from one of the calls `P`. -/
def Event.isReturned (P : Call → Bool) (t : ThreadId) : Event → Bool
  | .returned c u => P c && u == t
  | _ => false

namespace Machine

variable {m m' : Machine} {c : ThreadId} {i : Instr} {rest : List Instr} {q : WaitQueue}

/-- What executing an instruction makes of its thread's code: a call is entered, or instructions
that are no part of a call are put in front of the rest. -/
structure Rewrites (i : Instr) (rest code : List Instr) : Prop where
  code_eq : ∃ pre, code = pre ++ rest ∧
    ((∃ call flag, i = .call call ∧ pre = [.body call, .ret call flag]) ∨
      (∀ call, i ≠ .call call) ∧ (∀ j ∈ pre, j.quiet = true) ∧
        (∀ mutex, i = .body (.mutexLock mutex) → ∃ flag, pre = [.interruptRestore flag]) ∧
        (∀ q, pre.countP (Instr.sleepsOn q) = if i.isBody (Call.sleeps q) then 1 else 0) ∧
        ((∃ call flag, i = .ret call flag) ∨ i = .schedulerTick ∨
          (∃ flag, i = .interruptRestore flag) → pre = []))

theorem Rewrites.plain (pre : List Instr) (hcall : ∀ call, i ≠ .call call)
    (hpre : ∀ j ∈ pre, j.quiet = true)
    (hsleep : ∀ q, pre.countP (Instr.sleepsOn q) = if i.isBody (Call.sleeps q) then 1 else 0)
    (hlock : ∀ mutex, i ≠ .body (.mutexLock mutex))
    (hret : ∀ call flag, i ≠ .ret call flag) (htick : i ≠ .schedulerTick)
    (hrestore : ∀ flag, i ≠ .interruptRestore flag) : Rewrites i rest (pre ++ rest) := by
  refine ⟨pre, rfl, .inr ⟨hcall, hpre, fun mutex h => absurd h (hlock mutex), hsleep, ?_⟩⟩
  rintro (⟨call, flag, h⟩ | h | ⟨flag, h⟩)
  · exact absurd h (hret call flag)
  · exact absurd h htick
  · exact absurd h (hrestore flag)

theorem Rewrites.drop (hcall : ∀ call, i ≠ .call call) (hlock : ∀ mutex, i ≠ .body (.mutexLock mutex))
    (hsleep : ∀ q, i.isBody (Call.sleeps q) = false) : Rewrites i rest rest :=
  ⟨[], rfl, .inr ⟨hcall, by simp, fun mutex h => absurd h (hlock mutex), by simp [hsleep],
    fun _ => rfl⟩⟩

theorem Rewrites.lock {mutex : Nat} {flag : Bool} :
    Rewrites (.body (.mutexLock mutex)) rest (.interruptRestore flag :: rest) :=
  ⟨[.interruptRestore flag], rfl, .inr ⟨by simp, by simp [Instr.quiet], fun _ _ => ⟨flag, rfl⟩,
    fun _ => rfl, by simp⟩⟩

theorem Rewrites.back {flag : Bool} (hcall : ∀ call, i ≠ .call call)
    (hsleep : ∀ q, i.isBody (Call.sleeps q) = false)
    (hlock : ∀ mutex, i ≠ .body (.mutexLock mutex)) (hret : ∀ call flag, i ≠ .ret call flag)
    (htick : i ≠ .schedulerTick) (hrestore : ∀ flag, i ≠ .interruptRestore flag) :
    Rewrites i rest (.interruptRestore flag :: rest) :=
  .plain [.interruptRestore flag] hcall (by simp [Instr.quiet])
    (fun q => by rw [hsleep q]; rfl) hlock hret htick hrestore

/-- The codes after an instruction of thread `c`. -/
theorem Fires.code (h : Fires m c rest i m') (hlt : c < m.nextTid)
    (hfresh : m.code m.nextTid = []) : Rewrites i rest (m'.code c) ∧
      ∀ u, u ≠ c → m'.code u = m.code u ∨ m.code u = [] ∧ m'.code u = [.interruptEnable] := by
  have hself : ∀ {code : List Instr} (m' : Machine), m'.code = Function.update m.code c code →
      Rewrites i rest code → Rewrites i rest (m'.code c) ∧
        ∀ u, u ≠ c → m'.code u = m.code u ∨ m.code u = [] ∧ m'.code u = [.interruptEnable] := by
    intro code m' he hr
    rw [he, Function.update_self]
    exact ⟨hr, fun u hu => .inl (Function.update_of_ne hu ..)⟩
  cases h with
  | enter => exact hself _ rfl ⟨_, rfl, .inl ⟨_, _, rfl, rfl⟩⟩
  | lockFree | lockSleep => exact hself _ rfl .lock
  | ret | add | processCreate | sleep | tick | restore | enable =>
      exact hself _ rfl (.drop (by simp) (by simp) fun _ => rfl)
  | unlockFree | acquire | acquireSleep | releaseFree | condvarSignal | condvarBroadcast | block |
      unblock | yield | detachLive | detachEnded =>
      exact hself _ rfl (.back (by simp) (fun _ => rfl) (by simp) (by simp) (by simp) (by simp))
  | @condvarWait cv mutex =>
      refine hself _ rfl (.plain [_, _, _, _] ?_ ?_ (fun q => ?_) ?_ ?_ ?_ ?_)
      case refine_3 => simp [Instr.sleepsOn, Instr.isBody, Call.sleeps, List.countP_cons]
      all_goals simp [Instr.quiet]
  | unlockHand | joinEnded | joinSleep | reaperSleep | reaperDone =>
      refine hself _ rfl (.plain [_, _] ?_ ?_ (fun _ => rfl) ?_ ?_ ?_ ?_)
      all_goals simp [Instr.quiet]
  | releaseHand | kill | reaperDrain =>
      refine hself _ rfl (.plain [_] ?_ ?_ (fun _ => rfl) ?_ ?_ ?_ ?_)
      all_goals simp [Instr.quiet]
  | joinDestroy hd =>
      obtain ⟨s, l, -, rfl⟩ := destroy_spec hd
      exact hself _ rfl (.drop (by simp) (by simp) fun _ => rfl)
  | reaperReap _ _ hd =>
      obtain ⟨s, l, -, rfl⟩ := destroy_spec hd
      refine hself _ rfl (.plain [_] ?_ ?_ (fun _ => rfl) ?_ ?_ ?_ ?_)
      all_goals simp [Instr.quiet]
  | create =>
      have hne : c ≠ m.nextTid := Nat.ne_of_lt hlt
      simp only [Function.update_of_ne hne, Function.update_self]
      refine ⟨.drop (by simp) (by simp) fun _ => rfl, fun u hu => ?_⟩
      by_cases hn : u = m.nextTid
      · subst hn
        exact .inr ⟨hfresh, Function.update_self ..⟩
      · exact .inl (by rw [Function.update_of_ne hn, Function.update_of_ne hu])

/-- A call is entered with its critical section and its return both ahead. -/
theorem Rewrites.countP {code : List Instr} (h : Rewrites i rest code) (P : Call → Bool) :
    ∃ k, code.countP (Instr.isRet P) = rest.countP (Instr.isRet P) + k ∧
      code.countP (Instr.isBody P) = rest.countP (Instr.isBody P) + k := by
  obtain ⟨pre, rfl, ⟨call, flag, -, rfl⟩ | ⟨-, hpre, -⟩⟩ := h
  · refine ⟨if P call then 1 else 0, ?_, ?_⟩
    all_goals by_cases hP : P call = true <;> simp [Instr.isRet, Instr.isBody, hP]
  · have hzero : ∀ f : Instr → Bool, (∀ j, j.quiet = true → f j = false) → pre.countP f = 0 := by
      intro f hf
      rw [List.countP_eq_zero]
      intro j hj
      simp [hf j (hpre j hj)]
    refine ⟨0, ?_, ?_⟩
    all_goals
      rw [List.countP_append, hzero _ fun j hj => ?_, Nat.zero_add, Nat.add_zero]
      cases j <;> first | rfl | cases hj

/-- Only `condvar_wait` puts a sleep ahead. -/
theorem Rewrites.sleeps {code : List Instr} (h : Rewrites i rest code) (q : WaitQueue) :
    code.countP (Instr.sleepsOn q) =
      rest.countP (Instr.sleepsOn q) + if i.isBody (Call.sleeps q) then 1 else 0 := by
  obtain ⟨pre, rfl, ⟨call, flag, rfl, rfl⟩ | ⟨-, -, -, hsleep, -⟩⟩ := h
  · simp [Instr.sleepsOn, Instr.isBody]
  · rw [List.countP_append, hsleep q, Nat.add_comm]

theorem queueEvents_countP {p : Event → Bool} (call : Call) (htook : ∀ q t, p (.took q t) = false)
    (hlinked : ∀ q t, p (.linked q t) = false) (hunlinked : ∀ q t, p (.unlinked q t) = false) :
    (m.queueEvents c call).countP p = 0 := by
  have hmap : ∀ q (l : List ThreadId), (l.map (Event.unlinked q)).countP p = 0 := by
    intro q l
    rw [List.countP_eq_zero]
    simp [hunlinked]
  cases call
  case mutexLock mutex =>
      simp only [queueEvents]
      split <;> simp [htook, hlinked]
  case semaphoreAcquire sem =>
      simp only [queueEvents]
      split <;> simp [htook, hlinked]
  case mutexUnlock | semaphoreRelease | condvarSignal | condvarBroadcast => exact hmap _ _
  all_goals rfl

/-- A call takes threads off the queue it serves only. -/
theorem unlinked_instrEvents (h : ∀ call, i = .body call → call.serves ≠ some q) :
    unlinked q (m.instrEvents c i) = [] := by
  have hmap : ∀ r (l : List ThreadId), r ≠ q → unlinked q (l.map (Event.unlinked r)) = [] := by
    intro r l hr
    rw [unlinked_map, if_neg hr]
  cases i with
  | body call =>
      have hserves := h call rfl
      rw [instrEvents]
      show unlinked q (m.queueEvents c call) = []
      cases call with
      | mutexLock mutex =>
          rw [queueEvents]
          split <;> rfl
      | semaphoreAcquire sem =>
          rw [queueEvents]
          split <;> rfl
      | mutexUnlock | semaphoreRelease | condvarSignal | condvarBroadcast =>
          exact hmap _ _ fun e => hserves (by rw [← e]; rfl)
      | _ => rfl
  | _ => rfl

theorem instrEvents_executed (P : Call → Bool) (t : ThreadId) :
    (m.instrEvents c i).countP (Event.isExecuted P t) = if i.isBody P && c == t then 1 else 0 := by
  cases i with
  | body call =>
      have h := queueEvents_countP (m := m) (c := c) (p := Event.isExecuted P t) call
        (fun _ _ => rfl) (fun _ _ => rfl) fun _ _ => rfl
      simp [instrEvents, List.countP_cons, h, Event.isExecuted, Instr.isBody]
  | _ => simp [instrEvents, Event.isExecuted, Instr.isBody]

theorem instrEvents_returned (P : Call → Bool) (t : ThreadId) :
    (m.instrEvents c i).countP (Event.isReturned P t) = if i.isRet P && c == t then 1 else 0 := by
  cases i with
  | body call =>
      have h := queueEvents_countP (m := m) (c := c) (p := Event.isReturned P t) call
        (fun _ _ => rfl) (fun _ _ => rfl) fun _ _ => rfl
      simp [instrEvents, h, Event.isReturned, Instr.isRet]
  | ret call flag => simp [instrEvents, Event.isReturned, Instr.isRet, List.countP_cons]
  | _ => simp [instrEvents, Event.isReturned, Instr.isRet]

/-- Of the calls `P` that a thread has entered, as many have returned or have a return ahead as have
executed their critical section or have it ahead. -/
def Ledger (P : Call → Bool) (es : List Event) (m : Machine) : Prop :=
  ∀ t, es.countP (Event.isReturned P t) + (m.code t).countP (Instr.isRet P) =
    es.countP (Event.isExecuted P t) + (m.code t).countP (Instr.isBody P)

/-- What a step makes of the threads' codes, and what it is noted as. -/
structure StepCode (m : Machine) (c : ThreadId) (l : Label) (m' : Machine) : Prop where
  self : (∃ i rest, l = .run ∧ m.code c = i :: rest ∧ Rewrites i rest (m'.code c) ∧
      m.observe l = m.instrEvents c i) ∨
    (∃ call flag, m.code c = [] ∧ m'.code c = [.body call, .ret call flag] ∧ m.observe l = []) ∨
    (m'.code c = m.code c ∨ m'.code c = .schedulerTick :: .interruptRestore true :: m.code c) ∧
      m.observe l = []
  others : ∀ u, u ≠ c → m'.code u = m.code u ∨ m.code u = [] ∧ m'.code u = [.interruptEnable]

theorem observe_run (hc : m.tasks.current = some c) (hcode : m.code c = i :: rest) :
    m.observe .run = m.instrEvents c i := by
  simp [observe, head, hc, hcode]

theorem MachineInv.stepCode {l : Label} (hm : MachineInv m) (hc : m.tasks.current = some c)
    (h : Moves m c l m') : StepCode m c l m' := by
  have hfresh := (hm.fresh m.nextTid (Nat.le_refl _)).2
  cases h with
  | @run i rest m' hcode hfires =>
      obtain ⟨hself, hother⟩ := hfires.code (hm.current_lt hc) hfresh
      exact ⟨.inl ⟨i, rest, rfl, hcode, hself, observe_run hc hcode⟩, hother⟩
  | @client call m' hcode _ _ hfires =>
      cases hfires
      refine ⟨.inr (.inl ⟨call, m.tasks.interruptEnabled, hcode, ?_, rfl⟩), fun u hu => .inl ?_⟩
      · exact advance_code_self m c _ m.tasks
      · exact advance_code_ne m _ m.tasks hu
  | setFlag hcode =>
      refine ⟨.inr (.inr ⟨.inl ?_, rfl⟩), fun u hu => .inl (advance_code_ne m _ _ hu)⟩
      rw [advance_code_self, hcode]
  | timer =>
      refine ⟨.inr (.inr ⟨.inr ?_, rfl⟩), fun u hu => .inl (advance_code_ne m _ _ hu)⟩
      rw [advance_code_self]

/-- Another thread has as much ahead as before. -/
theorem StepCode.countP_other {l : Label} (h : StepCode m c l m') (f : Instr → Bool)
    (hf : f .interruptEnable = false) {t : ThreadId} (ht : t ≠ c) :
    (m'.code t).countP f = (m.code t).countP f := by
  rcases h.others t ht with he | ⟨he, he'⟩
  · rw [he]
  · rw [he, he']
    simp [hf]

theorem StepCode.ledger {P : Call → Bool} {es : List Event} {l : Label}
    (h : StepCode m c l m') (hl : Ledger P es m) : Ledger P (es ++ m.observe l) m' := by
  intro t
  have hold := hl t
  rw [List.countP_append, List.countP_append]
  rcases h.self with ⟨i, rest, -, hcode, hrw, hobs⟩ | ⟨call, flag, hcode, hcode', hobs⟩ | ⟨hcode', hobs⟩
  · rw [hobs, instrEvents_executed, instrEvents_returned]
    by_cases ht : t = c
    · subst ht
      obtain ⟨k, h1, h2⟩ := hrw.countP P
      rw [hcode, List.countP_cons, List.countP_cons] at hold
      rw [h1, h2]
      simp only [beq_self_eq_true, Bool.and_true]
      omega
    · have hct : (c == t) = false := by simpa using fun e => ht e.symm
      rw [h.countP_other _ rfl ht, h.countP_other _ rfl ht]
      simpa [hct] using hold
  · rw [hobs]
    by_cases ht : t = c
    · subst ht
      rw [hcode] at hold
      rw [hcode']
      by_cases hcall : P call = true
      all_goals simpa [Instr.isRet, Instr.isBody, hcall] using hold
    · rw [h.countP_other _ rfl ht, h.countP_other _ rfl ht]
      simpa using hold
  · rw [hobs]
    by_cases ht : t = c
    · subst ht
      rcases hcode' with he | he
      · rw [he]
        simpa using hold
      · rw [he]
        simpa [List.countP_cons, Instr.isRet, Instr.isBody] using hold
    · rw [h.countP_other _ rfl ht, h.countP_other _ rfl ht]
      simpa using hold

/-! ## The shape of a code -/

end Machine

/-- Neither a critical section nor the return of a `mutex_lock`. -/
def Instr.calm : Instr → Bool
  | .body _ | .ret (.mutexLock _) _ => false
  | _ => true

def Calm (code : List Instr) : Prop := ∀ i ∈ code, i.calm = true

/-- After what timer interrupts have put in front, a critical section comes first or not at all, and
so does the return of a `mutex_lock`. -/
def Shaped : List Instr → Prop
  | .body call :: rest => ∃ flag tail, rest = .ret call flag :: tail ∧ Calm tail
  | .ret _ _ :: rest => Calm rest
  | .schedulerTick :: rest => Shaped rest
  | .interruptRestore _ :: rest => Shaped rest
  | code => Calm code

theorem Calm.shaped {code : List Instr} (h : Calm code) : Shaped code := by
  have htail : ∀ {i rest}, Calm (i :: rest) → Calm rest := fun h j hj => h j (by simp [hj])
  fun_induction Shaped code with
  | case1 call rest =>
      have := h (.body call) (by simp)
      cases this
  | case2 => exact htail h
  | case3 rest ih => exact ih (htail h)
  | case4 flag rest ih => exact ih (htail h)
  | case5 => exact h

theorem Calm.append {code code' : List Instr} (h : Calm code) (h' : Calm code') :
    Calm (code ++ code') := by
  intro i hi
  exact (List.mem_append.mp hi).elim (h i) (h' i)

theorem calm_of_quiet {code : List Instr} (h : ∀ i ∈ code, i.quiet = true) : Calm code := by
  intro i hi
  have := h i hi
  cases i <;> first | rfl | cases this

/-- No critical section is ahead once the first instruction is another. -/
theorem Shaped.tail {i : Instr} {rest : List Instr} (h : Shaped (i :: rest)) (P : Call → Bool)
    (hi : i ≠ .schedulerTick) (hi' : ∀ flag, i ≠ .interruptRestore flag) :
    rest.countP (Instr.isBody P) = 0 := by
  have hcalm : ∀ l, Calm l → l.countP (Instr.isBody P) = 0 := by
    intro l hl
    rw [List.countP_eq_zero]
    intro j hj
    have := hl j hj
    cases j with
    | body call => cases this
    | _ => simp [Instr.isBody]
  cases i with
  | body call =>
      obtain ⟨flag, tail, rfl, htail⟩ := h
      rw [List.countP_cons, hcalm tail htail]
      simp [Instr.isBody]
  | ret call flag => exact hcalm rest h
  | schedulerTick => exact absurd rfl hi
  | interruptRestore flag => exact absurd rfl (hi' flag)
  | _ => exact hcalm rest fun j hj => h j (by simp [hj])

namespace Machine

variable {m m' : Machine} {c : ThreadId} {i : Instr} {rest : List Instr} {q : WaitQueue}

theorem Rewrites.shaped {code : List Instr} (h : Rewrites i rest code) (hs : Shaped (i :: rest)) :
    Shaped code := by
  obtain ⟨pre, rfl, ⟨call, flag, rfl, rfl⟩ | ⟨-, hpre, hlock, -, hframe⟩⟩ := h
  · exact ⟨flag, rest, rfl, fun j hj => hs j (by simp [hj])⟩
  · have hquiet := calm_of_quiet hpre
    cases i with
    | body call =>
        obtain ⟨flag, tail, rfl, htail⟩ := hs
        by_cases hcall : ∃ mutex, call = .mutexLock mutex
        · obtain ⟨mutex, rfl⟩ := hcall
          obtain ⟨flag', rfl⟩ := hlock mutex rfl
          exact htail
        · apply Calm.shaped
          apply hquiet.append
          intro j hj
          rcases List.mem_cons.mp hj with rfl | hj
          · cases call <;> first | rfl | exact absurd ⟨_, rfl⟩ hcall
          · exact htail j hj
    | ret call flag =>
        rw [hframe (.inl ⟨call, flag, rfl⟩)]
        exact Calm.shaped hs
    | schedulerTick =>
        rw [hframe (.inr (.inl rfl))]
        exact hs
    | interruptRestore flag =>
        rw [hframe (.inr (.inr ⟨flag, rfl⟩))]
        exact hs
    | _ => exact (hquiet.append fun j hj => hs j (by simp [hj])).shaped

theorem mem_sleeps {code : List Instr} :
    .waitQueueSleep q ∈ code ↔ 0 < code.countP (Instr.sleepsOn q) := by
  rw [List.countP_pos_iff]
  constructor
  · intro h
    exact ⟨_, h, by simp [Instr.sleepsOn]⟩
  · rintro ⟨i, hi, hs⟩
    cases i with
    | waitQueueSleep r => exact (by simpa [Instr.sleepsOn] using hs : r = q) ▸ hi
    | _ => cases hs

/-- What holds of every thread's code. -/
structure Codes (m : Machine) : Prop where
  shaped : ∀ t, Shaped (m.code t)
  /-- Only `condvar_wait` sleeps with a separate instruction. -/
  sleeps : ∀ t q, .waitQueueSleep q ∈ m.code t → ∃ cv, q = .condvar cv

theorem Codes.no_sleep (hm : Codes m) (hcv : ∀ cv, q ≠ .condvar cv) (t : ThreadId) :
    (m.code t).countP (Instr.sleepsOn q) = 0 := by
  by_contra hpos
  obtain ⟨cv, rfl⟩ := hm.sleeps t q (mem_sleeps.mpr (Nat.pos_of_ne_zero hpos))
  exact hcv cv rfl

theorem StepCode.codes {l : Label} (h : StepCode m c l m') (hm : Codes m) : Codes m' := by
  have hother : ∀ u, u ≠ c → Shaped (m'.code u) ∧
      ∀ q, .waitQueueSleep q ∈ m'.code u → ∃ cv, q = .condvar cv := by
    intro u hu
    rcases h.others u hu with he | ⟨-, he⟩
    · rw [he]
      exact ⟨hm.shaped u, hm.sleeps u⟩
    · rw [he]
      exact ⟨Calm.shaped (by simp [Calm, Instr.calm]), by simp⟩
  have hself : Shaped (m'.code c) ∧
      ∀ q, .waitQueueSleep q ∈ m'.code c → ∃ cv, q = .condvar cv := by
    have hs := hm.shaped c
    have hq := hm.sleeps c
    rcases h.self with ⟨i, rest, -, hcode, hrw, -⟩ | ⟨call, flag, -, he, -⟩ | ⟨he | he, -⟩
    · rw [hcode] at hs hq
      refine ⟨hrw.shaped hs, fun q hmem => ?_⟩
      have hpos := mem_sleeps.mp hmem
      rw [hrw.sleeps q] at hpos
      by_cases hi : i.isBody (Call.sleeps q) = true
      · cases i with
        | body call =>
            cases call with
            | condvarWait cv mutex =>
                have he : WaitQueue.condvar cv = q := by
                  simpa [Instr.isBody, Call.sleeps] using hi
                exact ⟨cv, he.symm⟩
            | _ => cases hi
        | _ => cases hi
      · rw [if_neg hi] at hpos
        exact hq q (List.mem_cons_of_mem _ (mem_sleeps.mpr hpos))
    · rw [he]
      exact ⟨⟨flag, [], rfl, by simp [Calm]⟩, by simp⟩
    · rw [he]
      exact ⟨hs, hq⟩
    · rw [he]
      exact ⟨hs, fun q hmem => hq q (by simpa using hmem)⟩
  refine ⟨fun t => ?_, fun t => ?_⟩
  · by_cases ht : t = c
    · exact ht ▸ hself.1
    · exact (hother t ht).1
  · by_cases ht : t = c
    · exact ht ▸ hself.2
    · exact (hother t ht).2

theorem boot_codes (idleStack reaperStack pageDirectory esp0 cr3 : Nat) :
    Codes (boot idleStack reaperStack pageDirectory esp0 cr3) := by
  have hcode : ∀ t, (boot idleStack reaperStack pageDirectory esp0 cr3).code t =
      if t = reaperThread then [.interruptEnable, .reaperSleep] else [] := fun _ => rfl
  refine ⟨fun t => Calm.shaped ?_, fun t q hq => ?_⟩
  · rw [hcode]
    split <;> simp [Calm, Instr.calm]
  · rw [hcode] at hq
    split at hq <;> simp at hq

/-! ## From `interrupt_save` to the sleep -/

end Machine

/-- What `condvar_wait` executes between its `interrupt_save` and its sleep: `mutex_unlock`, which
may unblock a thread. -/
def Instr.dark : Instr → Bool
  | .call (.mutexUnlock _) | .body (.mutexUnlock _) | .ret (.mutexUnlock _) _ => true
  | .call (.threadUnblock _) | .body (.threadUnblock _) | .ret (.threadUnblock _) _ => true
  | .interruptRestore false => true
  | _ => false

/-- Nothing else comes before the only sleep ahead. -/
def Dark : List Instr → Prop
  | [] => False
  | .waitQueueSleep _ :: rest => ∀ q, .waitQueueSleep q ∉ rest
  | i :: rest => i.dark = true ∧ Dark rest

theorem Dark.tail {i : Instr} {rest : List Instr} (h : Dark (i :: rest)) :
    (∃ q, i = .waitQueueSleep q) ∧ (∀ q, .waitQueueSleep q ∉ rest) ∨ i.dark = true ∧ Dark rest := by
  cases i with
  | waitQueueSleep q => exact .inl ⟨⟨q, rfl⟩, h⟩
  | _ => exact .inr h

theorem Dark.cons {i : Instr} {rest : List Instr} (hi : i.dark = true) (h : Dark rest) :
    Dark (i :: rest) := by
  cases i with
  | waitQueueSleep q => cases hi
  | _ => exact ⟨hi, h⟩

namespace Machine

variable {m m' : Machine} {c : ThreadId} {i : Instr} {rest : List Instr} {q : WaitQueue}

/-- A thread that has a sleep ahead runs with interrupts off until it is linked. -/
def Atomic (m : Machine) : Prop :=
  ∀ t q, .waitQueueSleep q ∈ m.code t → m.tasks.current = some t ∧
    m.tasks.interruptEnabled = false ∧ Dark (m.code t)

theorem Atomic.fires (ha : Atomic m) (hm : MachineInv m) (hc : m.tasks.current = some c)
    (hcode : m.code c = i :: rest) (h : Fires m c rest i m') : Atomic m' := by
  obtain ⟨hself, hother⟩ := h.code (hm.current_lt hc) (hm.fresh m.nextTid (Nat.le_refl _)).2
  intro t q hmem
  by_cases hct : t = c
  · subst hct
    have hpos := mem_sleeps.mp hmem
    rw [hself.sleeps q] at hpos
    by_cases hi : i.isBody (Call.sleeps q) = true
    · -- `condvar_wait` has just switched interrupts off.
      cases h with
      | @condvarWait cv mutex =>
          refine ⟨hc, rfl, ?_⟩
          rw [advance_code_self]
          refine ⟨rfl, fun r hr => ?_⟩
          have hrest : .waitQueueSleep r ∈ rest := by simpa using hr
          obtain ⟨-, -, hdark⟩ := ha t r (by simp [hcode, hrest])
          rw [hcode] at hdark
          cases hdark.1
      | _ => cases hi
    · rw [if_neg hi] at hpos
      have hrest : .waitQueueSleep q ∈ rest := mem_sleeps.mpr hpos
      obtain ⟨-, hoff, hdark⟩ := ha t q (by simp [hcode, hrest])
      rw [hcode] at hdark
      obtain ⟨-, hnone⟩ | ⟨hi, htail⟩ := hdark.tail
      · exact absurd hrest (hnone q)
      · cases h with
        | @enter call _ =>
            have hsame : ∀ flag, (Instr.body call).dark = true ∧
                (Instr.ret call flag).dark = true := by
              intro flag
              cases call <;> first | exact ⟨rfl, rfl⟩ | cases hi
            refine ⟨hc, hoff, ?_⟩
            show Dark (Function.update m.code t _ t)
            rw [Function.update_self]
            exact .cons (hsame false).1 (.cons (hsame _).2 htail)
        | ret =>
            refine ⟨hc, hoff, ?_⟩
            rw [advance_code_self]
            exact htail
        | @restore flag =>
            cases flag with
            | true => cases hi
            | false =>
                refine ⟨hc, rfl, ?_⟩
                rw [advance_code_self]
                exact htail
        | unlockHand hrem =>
            obtain ⟨-, hnone, -⟩ | ⟨u, l, -, -, rfl⟩ := waitQueueRemove_spec hrem
            · cases hnone
            · refine ⟨hc, rfl, ?_⟩
              rw [advance_code_self, hoff]
              exact .cons rfl (.cons rfl htail)
        | unlockFree hrem =>
            obtain ⟨-, -, rfl⟩ | ⟨u, l, -, hsome, -⟩ := waitQueueRemove_spec hrem
            · refine ⟨hc, rfl, ?_⟩
              rw [advance_code_self, hoff]
              exact .cons rfl htail
            · cases hsome
        | unblock hadd =>
            obtain ⟨-, -, rfl⟩ := schedulerAdd_spec hadd
            refine ⟨hc, rfl, ?_⟩
            rw [advance_code_self, hoff]
            exact .cons rfl htail
        | _ => cases hi
  · rcases hother t hct with he | ⟨-, he⟩
    · rw [he] at hmem
      have hcurrent := (ha t q hmem).1
      rw [hc] at hcurrent
      exact absurd (Option.some.inj hcurrent).symm hct
    · rw [he] at hmem
      simp at hmem

theorem Atomic.step {l : Label} (ha : Atomic m) (hm : MachineInv m) (h : m.step l = some m') :
    Atomic m' := by
  obtain ⟨c, hc, hmoves⟩ := step_moves h
  -- Where the step is no instruction, no thread at all has a sleep ahead.
  have hquiet : (∀ q, .waitQueueSleep q ∉ m.code c) → ∀ t q, .waitQueueSleep q ∉ m.code t := by
    intro hnone t q hmem
    have hcurrent := (ha t q hmem).1
    rw [hc] at hcurrent
    exact hnone q (Option.some.inj hcurrent ▸ hmem)
  cases hmoves with
  | run hcode hfires => exact ha.fires hm hc hcode hfires
  | @client call _ hcode _ _ hfires =>
      cases hfires
      have hnone := hquiet (by simp [hcode])
      intro t q hmem
      by_cases hct : t = c
      · subst hct
        change _ ∈ Function.update m.code t _ t at hmem
        rw [Function.update_self] at hmem
        simp at hmem
      · change _ ∈ Function.update m.code c _ t at hmem
        rw [Function.update_of_ne hct] at hmem
        exact absurd hmem (hnone t q)
  | setFlag hcode =>
      have hnone := hquiet (by simp [hcode])
      intro t q hmem
      by_cases hct : t = c
      · subst hct
        simp at hmem
      · rw [advance_code_ne _ _ _ hct] at hmem
        exact absurd hmem (hnone t q)
  | timer hon =>
      have hnone := hquiet fun q hmem => by simp [(ha c q hmem).2.1] at hon
      intro t q hmem
      by_cases hct : t = c
      · subst hct
        exact absurd (by simpa using hmem) (hnone t q)
      · rw [advance_code_ne _ _ _ hct] at hmem
        exact absurd hmem (hnone t q)

/-! ## First in, first out -/

theorem unlinked_executed (call : Call) (es : List Event) :
    unlinked q (.executed call c :: es) = unlinked q es := rfl

theorem linked_executed (call : Call) (es : List Event) :
    linked q (.executed call c :: es) = linked q es := rfl

/-- Taking the front thread off its queue, with or without a `thread_unblock`. -/
theorem waiting_front {s s' : Tasks} {r : WaitQueue} {l : List ThreadId}
    (hr : s'.waiting r = (s.waiting r).tail) (hother : ∀ q, q ≠ r → s'.waiting q = s.waiting q)
    (hl : l = (s.waiting r).head?.toList) :
    unlinked q (l.map (.unlinked r)) ++ s'.waiting q =
      s.waiting q ++ linked q (l.map (.unlinked r)) := by
  rw [unlinked_map, linked_map, List.append_nil, hl]
  by_cases h : r = q
  · subst h
    rw [if_pos rfl, hr]
    cases s.waiting r <;> rfl
  · rw [if_neg h, hother q (Ne.symm h)]
    rfl

/-- Linking thread `c` at the end of a queue. -/
theorem waiting_back {s s' : Tasks} {r : WaitQueue} (hr : s'.waiting r = s.waiting r ++ [c])
    (hother : ∀ q, q ≠ r → s'.waiting q = s.waiting q) :
    unlinked q [.linked r c] ++ s'.waiting q = s.waiting q ++ linked q [.linked r c] := by
  by_cases h : r = q
  · subst h
    simp [unlinked, linked, Event.unlinkedFrom, Event.linkedIn, hr]
  · simp [unlinked, linked, Event.unlinkedFrom, Event.linkedIn, h, hother q (Ne.symm h)]

theorem waitQueueRemove_waiting {s s' : Tasks} {r : WaitQueue} {thread : Option ThreadId}
    (h : waitQueueRemove s r = some (thread, s')) :
    s'.waiting r = (s.waiting r).tail ∧ ∀ q, q ≠ r → s'.waiting q = s.waiting q := by
  obtain ⟨hq, -, rfl⟩ | ⟨t, l, hq, -, rfl⟩ := waitQueueRemove_spec h
  · simp [hq]
  · refine ⟨by simp [hq], fun q hne => ?_⟩
    simp [Tasks.setWaiting_waiting, hne]

theorem waitQueueWake_waiting {s s' : Tasks} {r : WaitQueue} (h : waitQueueWake s r = some s') :
    s'.waiting r = (s.waiting r).tail ∧ ∀ q, q ≠ r → s'.waiting q = s.waiting q := by
  obtain ⟨-, ⟨hq, rfl⟩ | ⟨t, s₁, hrem, hun⟩⟩ := waitQueueWake_spec h
  · simp [hq]
  · obtain ⟨hr, hother⟩ := waitQueueRemove_waiting hrem
    obtain ⟨-, -, rfl⟩ := threadUnblock_spec hun
    exact ⟨hr, hother⟩

/-- A thread that ends takes threads off no queue of an object. -/
theorem threadKillCurrent_waiting {s s' : Tasks} (hs : TasksInv s) (hruns : CurrentRuns s)
    (hc : s.current = some c) (hidle : c ≠ idleThread) (h : threadKillCurrent s = some s')
    (hq : q.ofObject = true) : s'.waiting q = s.waiting q := by
  obtain ⟨c', s₁, hc', -, hrun, hterm, -, hsw⟩ :=
    threadKillCurrent_spec hs hruns (by simpa [hc] using hidle) h
  obtain rfl : c = c' := Option.some.inj (hc.symm.trans hc')
  obtain ⟨-, -, s₂, hwake, hpush⟩ := schedulerTerminate_spec (hs.setFlag false) hidle hrun hterm
  have hterminated : q ≠ .termination c := by
    rintro rfl
    cases hq
  have hreaper : q ≠ .reaper := by
    rintro rfl
    cases hq
  have hstop := (hs.setFlag false).stop hidle hrun (.inr rfl)
  have hwoken := (waitQueueWakeAll_inv hstop hwake).2.1.others q hterminated
  rw [hsw.waiting]
  rcases hpush with ⟨-, rfl⟩ | ⟨-, hpush⟩
  · exact hwoken
  · obtain ⟨-, -, ⟨-, rfl⟩ | ⟨-, -, hw⟩⟩ := schedulerPushZombie_spec hpush
    · exact hwoken
    · exact ((waitQueueWake_waiting hw).2 q hreaper).trans hwoken

theorem destroy_waiting {t : ThreadId} (h : m.destroy t = some m') :
    m'.tasks.waiting = m.tasks.waiting := by
  obtain ⟨s, l, hs, rfl⟩ := destroy_spec h
  obtain ⟨-, -, g, rfl, -⟩ := threadDestroy_spec hs
  rfl

/-- What an instruction does to the queue of an object is what the history says. -/
theorem MachineInv.fifo_fires (hm : MachineInv m) (hc : m.tasks.current = some c)
    (hcode : m.code c = i :: rest) (h : Fires m c rest i m') (hq : q.ofObject = true) :
    unlinked q (m.instrEvents c i) ++ m'.tasks.waiting q =
      m.tasks.waiting q ++ linked q (m.instrEvents c i) := by
  have hidle : i.idle = false → c ≠ idleThread := by
    rintro hi rfl
    rw [hm.idle_code i (by simp [hcode])] at hi
    cases hi
  have hoff : TasksInv m.tasks.masked := hm.inv.setFlag false
  -- Most instructions neither link nor unlink.
  have hnone : ∀ {es}, unlinked q es = [] → linked q es = [] → ∀ {l}, l = m.tasks.waiting q →
      unlinked q es ++ l = m.tasks.waiting q ++ linked q es := by
    intro es h1 h2 l h3
    rw [h1, h2, h3, List.nil_append, List.append_nil]
  have hobject : q ≠ .reaper ∧ ∀ t, q ≠ .termination t := by
    constructor <;> (intros; rintro rfl; cases hq)
  cases h with
  | @lockFree mutex hfree =>
      simp only [instrEvents, unlinked_executed, linked_executed, queueEvents, hfree, if_true]
      exact hnone rfl rfl rfl
  | @lockSleep mutex s howned hs =>
      simp only [instrEvents, unlinked_executed, linked_executed, queueEvents, howned, if_false]
      obtain ⟨-, hr, hother⟩ := waitQueueSleep_continues hoff hm.runs hc (hidle rfl) hs
      exact waiting_back hr hother
  | unlockHand hs | unlockFree hs | releaseHand hs | releaseFree hs =>
      obtain ⟨hr, hother⟩ := waitQueueRemove_waiting hs
      exact waiting_front hr hother rfl
  | @acquire sem hpos =>
      simp only [instrEvents, unlinked_executed, linked_executed, queueEvents, hpos, if_true]
      exact hnone rfl rfl rfl
  | @acquireSleep sem s hzero hs =>
      simp only [instrEvents, unlinked_executed, linked_executed, queueEvents, hzero,
        Nat.lt_irrefl, if_false]
      obtain ⟨-, hr, hother⟩ := waitQueueSleep_continues hoff hm.runs hc (hidle rfl) hs
      exact waiting_back hr hother
  | condvarSignal hs =>
      obtain ⟨hr, hother⟩ := waitQueueWake_waiting hs
      exact waiting_front hr hother rfl
  | @condvarBroadcast cv s hs =>
      obtain ⟨-, hwoken, hempty⟩ := waitQueueWakeAll_inv hoff hs
      simp only [instrEvents, unlinked_executed, linked_executed, queueEvents, unlinked_map,
        linked_map, List.append_nil]
      by_cases h : WaitQueue.condvar cv = q
      · subst h
        rw [if_pos rfl]
        simp [hempty]
      · rw [if_neg h]
        exact hwoken.others q (Ne.symm h)
  | sleep hs =>
      obtain ⟨-, hr, hother⟩ := waitQueueSleep_continues hm.inv hm.runs hc (hidle rfl) hs
      exact waiting_back hr hother
  | joinSleep _ hs =>
      obtain ⟨-, -, hother⟩ := waitQueueSleep_continues hoff hm.runs hc (hidle rfl) hs
      exact hnone rfl rfl (hother q (hobject.2 _))
  | reaperSleep hs =>
      obtain ⟨-, -, hother⟩ := waitQueueSleep_continues hoff hm.runs hc (hidle rfl) hs
      exact hnone rfl rfl (hother q hobject.1)
  | block hs =>
      obtain ⟨-, hw⟩ := threadBlock_continues hm.inv hm.runs hc (hidle rfl) hs
      exact hnone rfl rfl (by rw [advance_tasks, hw])
  | yield hs =>
      obtain ⟨-, hw⟩ := threadYield_continues hm.inv hc hs
      exact hnone rfl rfl (by rw [advance_tasks, hw])
  | tick hs =>
      obtain ⟨-, hw⟩ := schedulerTick_continues hm.inv hm.runs hc hs
      exact hnone rfl rfl (by rw [advance_tasks, hw])
  | unblock hs =>
      obtain ⟨-, -, rfl⟩ := schedulerAdd_spec hs
      exact hnone rfl rfl rfl
  | detachEnded _ hs =>
      obtain ⟨-, -, ⟨-, rfl⟩ | ⟨-, -, hw⟩⟩ := schedulerPushZombie_spec hs
      · exact hnone rfl rfl rfl
      · exact hnone rfl rfl ((waitQueueWake_waiting hw).2 q hobject.1)
  | kill hs =>
      exact hnone rfl rfl (threadKillCurrent_waiting hm.inv hm.runs hc (hidle rfl) hs hq)
  | add hs =>
      obtain ⟨-, -, -, p, -, rfl⟩ := threadAdd_spec hs
      exact hnone rfl rfl rfl
  | joinDestroy hd => exact hnone rfl rfl (by rw [advance_tasks, destroy_waiting hd])
  | reaperDone hs =>
      obtain ⟨-, ⟨-, -, rfl⟩ | ⟨t, l, -, hsome, -⟩⟩ := schedulerNextZombie_spec hs
      · exact hnone rfl rfl rfl
      · cases hsome
  | reaperReap hs _ hd =>
      obtain ⟨-, ⟨-, hnone', -⟩ | ⟨t, l, -, -, rfl⟩⟩ := schedulerNextZombie_spec hs
      · cases hnone'
      · exact hnone rfl rfl (by rw [advance_tasks, destroy_waiting hd]; rfl)
  | _ => exact hnone rfl rfl rfl

theorem MachineInv.fifo_step {l : Label} (hm : MachineInv m) (h : m.step l = some m')
    (hq : q.ofObject = true) : unlinked q (m.observe l) ++ m'.tasks.waiting q =
      m.tasks.waiting q ++ linked q (m.observe l) := by
  obtain ⟨c, hc, hmoves⟩ := step_moves h
  cases hmoves with
  | run hcode hfires =>
      rw [observe_run hc hcode]
      exact hm.fifo_fires hc hcode hfires hq
  | client hcode _ _ hfires =>
      cases hfires
      simp [observe]
  | setFlag | timer => simp [observe]

/-! ## Waiting inside a call -/

/-- `q` is where the calls `P` wait: their critical section, and nothing else, takes what the object
guards, links its thread or goes on to sleep. -/
structure Guards (q : WaitQueue) (P : Call → Bool) : Prop where
  sleeps : ∀ call, call.sleeps q = true → P call = true
  /-- None of them is part of what `condvar_wait` does before it sleeps. -/
  bright : ∀ call, P call = true → ∀ flag, (Instr.ret call flag).dark = false
  events : ∀ (m : Machine) (c : ThreadId) (call : Call) (t : ThreadId),
    (m.queueEvents c call).count (.took q t) + (linked q (m.queueEvents c call)).count t =
      if P call && !call.sleeps q && c == t then 1 else 0

/-- A thread that waits in `q`, or is about to, has not returned from the call `P`. -/
def Inside (q : WaitQueue) (P : Call → Bool) (m : Machine) : Prop :=
  ∀ t, (m.tasks.waiting q).count t + (m.code t).countP (Instr.sleepsOn q) +
    (m.code t).countP (Instr.isBody P) ≤ (m.code t).countP (Instr.isRet P)

theorem MachineInv.current_not_waiting (hm : MachineInv m) (hc : m.tasks.current = some c)
    (q : WaitQueue) : (m.tasks.waiting q).count c = 0 := by
  rw [List.count_eq_zero]
  intro hmem
  have hb := (hm.inv.waiting_blocked q c hmem).1
  rw [hm.current_running hc] at hb
  cases hb

theorem Guards.instrEvents {P : Call → Bool} (h : Guards q P) (t : ThreadId) :
    (m.instrEvents c i).count (.took q t) + (linked q (m.instrEvents c i)).count t =
      (if i.isBody P && !i.isBody (Call.sleeps q) && c == t then 1 else 0) +
        if i.sleepsOn q && c == t then 1 else 0 := by
  cases i with
  | body call =>
      simp only [Machine.instrEvents, linked_executed]
      rw [List.count_cons_of_ne (by simp)]
      simpa [Instr.isBody, Instr.sleepsOn] using h.events m c call t
  | waitQueueSleep r =>
      by_cases hr : r = q
      · subst hr
        simp [Machine.instrEvents, linked_singleton, Event.linkedIn, Instr.isBody, Instr.sleepsOn,
          List.count_cons]
      · simp [Machine.instrEvents, linked_singleton, Event.linkedIn, Instr.isBody, Instr.sleepsOn, hr]
  | ret call flag =>
      have hnil : linked q [Event.returned call c] = [] := rfl
      simp [Machine.instrEvents, Instr.isBody, Instr.sleepsOn, hnil]
  | _ => simp [Machine.instrEvents, Instr.isBody, Instr.sleepsOn]

/-- What the current thread makes of what it has ahead, and what it is noted as, call by call. -/
theorem Guards.counts {P : Call → Bool} (h : Guards q P) :
    ((if i.isBody P = true then 1 else 0) : Nat) =
      (if (i.isBody P && !i.isBody (Call.sleeps q)) = true then 1 else 0) +
        if i.isBody (Call.sleeps q) = true then 1 else 0 := by
  have hsub : i.isBody (Call.sleeps q) = true → i.isBody P = true := by
    intro hi
    cases i with
    | body call => exact h.sleeps call hi
    | _ => cases hi
  by_cases hs : i.isBody (Call.sleeps q) = true
  · simp [hs, hsub hs]
  · simp [hs]

theorem MachineInv.inside {P : Call → Bool} {l : Label} (hm : MachineInv m) (hcodes : Codes m)
    (hatomic : Atomic m) (hq : q.ofObject = true) (hguards : Guards q P)
    (h : m.step l = some m') (hin : Inside q P m) : Inside q P m' := by
  intro t
  have hold := hin t
  have hfifo := congrArg (List.count t) (hm.fifo_step h hq)
  obtain ⟨c, hc, hmoves⟩ := step_moves h
  have hstep := hm.stepCode hc hmoves
  rw [List.count_append, List.count_append] at hfifo
  rcases hstep.self with ⟨i, rest, -, hcode, hrw, hobs⟩ | ⟨call, flag, hcode, hcode', hobs⟩ | ⟨hcode', hobs⟩
  · rw [hobs] at hfifo
    have hlink := hguards.instrEvents (m := m) (c := c) (i := i) t
    by_cases ht : t = c
    · subst ht
      obtain ⟨k, h1, h2⟩ := hrw.countP P
      have h3 := hrw.sleeps q
      have hcounts := hguards.counts (i := i)
      rw [hcode, List.countP_cons, List.countP_cons, List.countP_cons] at hold
      rw [h1, h2, h3]
      simp only [beq_self_eq_true, Bool.and_true] at hlink
      by_cases hret : i.isRet P = true
      · -- The call returns: its thread runs, and nothing of the call is ahead.
        have hwait := hm.current_not_waiting hc q
        cases i with
        | ret call flag =>
            have hshaped := hcodes.shaped t
            rw [hcode] at hshaped
            have htail := hshaped.tail P (by simp) (by simp)
            have hnone : rest.countP (Instr.sleepsOn q) = 0 := by
              by_contra hpos
              have hmem := mem_sleeps.mpr (Nat.pos_of_ne_zero hpos)
              obtain ⟨-, -, hdark⟩ := hatomic t q (by simp [hcode, hmem])
              rw [hcode] at hdark
              have := hguards.bright call hret flag
              rw [hdark.1] at this
              cases this
            simp only [Instr.isBody, Instr.sleepsOn, Bool.false_and, Bool.false_eq_true,
              if_false] at hlink hold ⊢
            omega
        | _ => cases hret
      · simp only [hret, Bool.false_eq_true, if_false] at hold
        omega
    · have hct : (c == t) = false := by simpa using fun e => ht e.symm
      simp only [hct, Bool.and_false, Bool.false_eq_true, if_false] at hlink
      rw [hstep.countP_other _ rfl ht, hstep.countP_other _ rfl ht, hstep.countP_other _ rfl ht]
      omega
  · simp only [hobs, unlinked_nil, linked_nil, List.count_nil] at hfifo
    by_cases ht : t = c
    · subst ht
      rw [hcode] at hold
      rw [hcode']
      simp only [List.countP_nil, Nat.le_zero, Nat.add_eq_zero_iff] at hold
      by_cases hP : P call = true <;>
        simp [Instr.isBody, Instr.isRet, Instr.sleepsOn, hP] <;> omega
    · rw [hstep.countP_other _ rfl ht, hstep.countP_other _ rfl ht, hstep.countP_other _ rfl ht]
      omega
  · simp only [hobs, unlinked_nil, linked_nil, List.count_nil] at hfifo
    by_cases ht : t = c
    · subst ht
      rcases hcode' with he | he
      · rw [he]
        omega
      · rw [he]
        simp only [List.countP_cons, Instr.isBody, Instr.isRet, Instr.sleepsOn]
        simp
        omega
    · rw [hstep.countP_other _ rfl ht, hstep.countP_other _ rfl ht, hstep.countP_other _ rfl ht]
      omega

/-- Who has been linked in a queue has been taken off it in the same order, or still waits. -/
def Fifo (q : WaitQueue) (es : List Event) (m : Machine) : Prop :=
  linked q es = unlinked q es ++ m.tasks.waiting q

theorem MachineInv.fifo {l : Label} {es : List Event} (hm : MachineInv m) (h : m.step l = some m')
    (hq : q.ofObject = true) (hf : Fifo q es m) : Fifo q (es ++ m.observe l) m' := by
  unfold Fifo at *
  rw [linked_append, unlinked_append, hf, List.append_assoc, List.append_assoc,
    hm.fifo_step h hq]

/-- Nobody is linked in an empty queue but by a call that waits there. -/
theorem MachineInv.stays_empty {P : Call → Bool} (hm : MachineInv m) (hcodes : Codes m)
    (hguards : Guards q P) (hq : q.ofObject = true) (hcv : ∀ cv, q ≠ .condvar cv)
    (hc : m.tasks.current = some c) (hcode : m.code c = i :: rest) (h : Fires m c rest i m')
    (hbody : i.isBody P = false) (hempty : m.tasks.waiting q = []) :
    m'.tasks.waiting q = [] := by
  have hsleep : i.sleepsOn q = false := by
    have hzero := hcodes.no_sleep hcv c
    rw [hcode, List.countP_eq_zero] at hzero
    simpa using hzero i (by simp)
  have hlinked : linked q (m.instrEvents c i) = [] := by
    rw [List.eq_nil_iff_forall_not_mem]
    intro t ht
    have hle := hguards.instrEvents (m := m) (c := c) (i := i) t
    have hpos := List.count_pos_iff.mpr ht
    simp only [hbody, hsleep, Bool.false_and, Bool.false_eq_true, if_false] at hle
    omega
  have hfifo := hm.fifo_fires hc hcode h hq
  rw [hempty, hlinked] at hfifo
  exact (List.append_eq_nil_iff.mp hfifo).2

/-- Every thread that executed the critical section of a call `P` took, was linked, or is about to
be. -/
def Accounts (q : WaitQueue) (P : Call → Bool) (es : List Event) (m : Machine) : Prop :=
  ∀ t, es.countP (Event.isExecuted P t) =
    es.count (.took q t) + (linked q es).count t + (m.code t).countP (Instr.sleepsOn q)

theorem StepCode.accounts {P : Call → Bool} {l : Label} {es : List Event} (h : StepCode m c l m')
    (hguards : Guards q P) (ha : Accounts q P es m) : Accounts q P (es ++ m.observe l) m' := by
  intro t
  have hold := ha t
  rw [List.countP_append, List.count_append, linked_append, List.count_append]
  rcases h.self with ⟨i, rest, -, hcode, hrw, hobs⟩ | ⟨call, flag, hcode, hcode', hobs⟩ | ⟨hcode', hobs⟩
  · rw [hobs, instrEvents_executed]
    have hlink := hguards.instrEvents (m := m) (c := c) (i := i) t
    by_cases ht : t = c
    · subst ht
      have hcounts := hguards.counts (i := i)
      rw [hcode, List.countP_cons] at hold
      rw [hrw.sleeps q]
      simp only [beq_self_eq_true, Bool.and_true] at hlink ⊢
      omega
    · have hct : (c == t) = false := by simpa using fun e => ht e.symm
      simp only [hct, Bool.and_false, Bool.false_eq_true, if_false] at hlink ⊢
      rw [h.countP_other _ rfl ht]
      omega
  · by_cases ht : t = c
    · subst ht
      rw [hcode] at hold
      simpa [hobs, hcode', Instr.sleepsOn] using hold
    · rw [hobs, h.countP_other _ rfl ht]
      simpa using hold
  · by_cases ht : t = c
    · subst ht
      rcases hcode' with he | he <;> simpa [hobs, he, List.countP_cons, Instr.sleepsOn] using hold
    · rw [hobs, h.countP_other _ rfl ht]
      simpa using hold

/-- What an observed run keeps about the calls `P` and the queue `q` they wait in. -/
structure Books (q : WaitQueue) (P : Call → Bool) (es : List Event) (m : Machine) : Prop where
  inv : MachineInv m
  codes : Codes m
  atomic : Atomic m
  fifo : Fifo q es m
  ledger : Ledger P es m
  inside : Inside q P m
  accounts : Accounts q P es m

theorem Books.step {P : Call → Bool} {l : Label} {es : List Event} (h : Books q P es m)
    (hq : q.ofObject = true) (hguards : Guards q P) (hok : m.permitted l = true)
    (hs : m.step l = some m') : Books q P (es ++ m.observe l) m' := by
  obtain ⟨c, hc, hmoves⟩ := step_moves hs
  have hstep := h.inv.stepCode hc hmoves
  exact {
    inv := h.inv.step hok hs
    codes := hstep.codes h.codes
    atomic := h.atomic.step h.inv hs
    fifo := h.inv.fifo hs hq h.fifo
    ledger := hstep.ledger h.ledger
    inside := h.inv.inside h.codes h.atomic hq hguards hs h.inside
    accounts := hstep.accounts hguards h.accounts }

/-- The semaphores' counters are initialised before the threads that use them start. -/
theorem boot_books (q : WaitQueue) (P : Call → Bool)
    (idleStack reaperStack pageDirectory esp0 cr3 : Nat) (count : Nat → Nat) :
    Books q P [] { boot idleStack reaperStack pageDirectory esp0 cr3 with count } := by
  have hboot := boot_inv idleStack reaperStack pageDirectory esp0 cr3
  have hcodes := boot_codes idleStack reaperStack pageDirectory esp0 cr3
  have hnone : ∀ f : Instr → Bool, f .interruptEnable = false → f .reaperSleep = false → ∀ t,
      ((boot idleStack reaperStack pageDirectory esp0 cr3).code t).countP f = 0 := by
    intro f h1 h2 t
    show List.countP f (if t = reaperThread then _ else _) = 0
    split
    · simp [h1, h2]
    · rfl
  have hbody := hnone (Instr.isBody P) rfl rfl
  have hret := hnone (Instr.isRet P) rfl rfl
  have hsleep := hnone (Instr.sleepsOn q) rfl rfl
  exact {
    inv := hboot.update rfl rfl rfl rfl
    codes := ⟨hcodes.shaped, hcodes.sleeps⟩
    atomic := fun t r hr => by
      change _ ∈ (if t = reaperThread then _ else _) at hr
      split at hr <;> simp at hr
    fifo := rfl
    ledger := fun t => by simp [hbody t, hret t]
    inside := fun t => by
      show List.count t [] + _ + _ ≤ _
      rw [hbody t, hsleep t]
      exact Nat.zero_le _
    accounts := fun t => by simp [hsleep t] }

/-- No call returns without what the object guards: its thread took it at once or was handed it. -/
theorem Books.granted {P : Call → Bool} {es : List Event} (h : Books q P es m) (t : ThreadId) :
    es.countP (Event.isReturned P t) ≤ es.count (.took q t) + (unlinked q es).count t := by
  have hledger := h.ledger t
  have hinside := h.inside t
  have haccounts := h.accounts t
  have hfifo : (linked q es).count t = (unlinked q es).count t + (m.tasks.waiting q).count t := by
    rw [h.fifo, List.count_append]
  omega

end Machine

end Neox
