import Neox.Task.History
import Neox.Task.Interrupts

/-!
# Semaphores keep their permits

`semaphore.c`. A release either increments the counter or hands its permit to the longest waiting
thread; an acquire either decrements the counter or is granted such a permit while it sleeps. Over
every run the permits that came in are those left in the counter and those granted.
-/

namespace Neox

open Transition

/-- A release of `sem` has been executed. -/
def Event.isRelease (sem : Nat) : Event → Bool
  | .executed (.semaphoreRelease s) _ => s == sem
  | _ => false

/-- A permit of `sem` has been granted, from the counter or by a hand-over. -/
def Event.isGrant (sem : Nat) : Event → Bool
  | .took (.semaphore s) _ | .unlinked (.semaphore s) _ => s == sem
  | _ => false

/-- `semaphore_acquire` of `sem`. -/
def Call.acquires (sem : Nat) (call : Call) : Bool := call == .semaphoreAcquire sem

/-- `semaphore_release` of `sem`. -/
def Call.releases (sem : Nat) (call : Call) : Bool := call == .semaphoreRelease sem

namespace Machine

/-- The counter of `sem` holds the permit that a release adds. -/
def releaseFits (sem : Nat) (m : Machine) : Label → Bool
  | .run => match m.head with
      | some (.body (.semaphoreRelease s)) => s != sem ||
          !(m.tasks.waiting (.semaphore sem)).isEmpty || decide (m.count sem + 1 < wordModulus)
      | _ => true
  | _ => true

/-- What holds of semaphore `sem`, initialised with `initial` permits, after the history `es`. -/
structure SemaphoreSound (sem initial : Nat) (es : List Event) (m : Machine) : Prop where
  conserved : initial + es.countP (Event.isRelease sem) =
    m.count sem + es.countP (Event.isGrant sem)
  /-- A release whose critical section has been executed completes when its code is done. -/
  completes : Ledger (Call.releases sem) es m
  empty : 0 < m.count sem → m.tasks.waiting (.semaphore sem) = []
  /-- Permits are handed to waiters in the order in which they blocked. -/
  fifo : Fifo (.semaphore sem) es m
  /-- No acquire returns without a permit of its own. -/
  granted : ∀ t, es.countP (Event.isReturned (Call.acquires sem) t) ≤
    es.count (.took (.semaphore sem) t) + (unlinked (.semaphore sem) es).count t

variable {m m' : Machine} {c : ThreadId} {i : Instr} {rest : List Instr} {sem initial : Nat}
  {es : List Event} {l : Label}

/-! ## One step -/

theorem acquire_guards : Guards (.semaphore sem) (Call.acquires sem) := by
  refine ⟨fun call h => ?_, fun call h flag => ?_, fun m c call t => ?_⟩
  · cases call <;> simp [Call.sleeps] at h
  · cases call <;> first | rfl | cases h
  cases call with
  | semaphoreAcquire s =>
      simp only [queueEvents]
      by_cases hs : s = sem
      · subst hs
        split <;> simp [Call.acquires, Call.sleeps, linked_singleton, Event.linkedIn, List.count_cons]
      · split <;> simp [Call.acquires, Call.sleeps, linked_singleton, Event.linkedIn, hs]
  | mutexLock mutex =>
      simp only [queueEvents]
      split <;> simp [Call.acquires, Call.sleeps, linked_singleton, Event.linkedIn]
  | mutexUnlock | semaphoreRelease | condvarSignal | condvarBroadcast =>
      rw [queueEvents, count_map_unlinked]
      rfl
  | _ => rfl


theorem countP_map_unlinked (p : Event → Bool) (q : WaitQueue) (l : List ThreadId)
    (hp : ∀ t, p (.unlinked q t) = false) : (l.map (Event.unlinked q)).countP p = 0 := by
  rw [List.countP_eq_zero]
  simp [hp]

/-- An instruction that is about no semaphore, or about another one, is no event of `sem`. -/
theorem instrEvents_other (hacquire : i ≠ .body (.semaphoreAcquire sem))
    (hrelease : i ≠ .body (.semaphoreRelease sem)) :
    (m.instrEvents c i).countP (Event.isRelease sem) = 0 ∧
      (m.instrEvents c i).countP (Event.isGrant sem) = 0 := by
  cases i with
  | body call =>
      cases call with
      | semaphoreAcquire s =>
          have hs : s ≠ sem := fun e => hacquire (by rw [e])
          simp only [instrEvents, queueEvents]
          split <;> simp [Event.isRelease, Event.isGrant, hs]
      | semaphoreRelease s =>
          have hs : s ≠ sem := fun e => hrelease (by rw [e])
          have h1 := countP_map_unlinked (Event.isRelease sem) (.semaphore s)
            (m.tasks.waiting (.semaphore s)).head?.toList fun _ => rfl
          have h2 := countP_map_unlinked (Event.isGrant sem) (.semaphore s)
            (m.tasks.waiting (.semaphore s)).head?.toList fun _ => by simp [Event.isGrant, hs]
          simp only [instrEvents, queueEvents, List.countP_cons, h1, h2]
          simp [Event.isRelease, Event.isGrant, hs]
      | mutexLock mutex =>
          simp only [instrEvents, queueEvents]
          split <;> exact ⟨rfl, rfl⟩
      | mutexUnlock | condvarSignal | condvarBroadcast =>
          simp only [instrEvents, queueEvents, List.countP_cons]
          rw [countP_map_unlinked _ _ _ fun _ => rfl, countP_map_unlinked _ _ _ fun _ => rfl]
          exact ⟨rfl, rfl⟩
      | _ => exact ⟨rfl, rfl⟩
  | _ => exact ⟨rfl, rfl⟩

/-- The counter after an instruction that is about no semaphore, or about another one. -/
theorem Fires.count_other (h : Fires m c rest i m') (hacquire : i ≠ .body (.semaphoreAcquire sem))
    (hrelease : i ≠ .body (.semaphoreRelease sem)) : m'.count sem = m.count sem := by
  cases h with
  | @acquire s _ =>
      have hs : sem ≠ s := fun e => hacquire (by rw [e])
      exact Function.update_of_ne hs ..
  | @releaseFree s _ _ =>
      have hs : sem ≠ s := fun e => hrelease (by rw [e])
      exact Function.update_of_ne hs ..
  | joinDestroy hd =>
      obtain ⟨s, l, -, rfl⟩ := destroy_spec hd
      rfl
  | reaperReap _ _ hd =>
      obtain ⟨s, l, -, rfl⟩ := destroy_spec hd
      rfl
  | _ => rfl

/-- Permits are neither lost nor invented, and none is left while somebody waits. -/
def Permits (sem initial : Nat) (es : List Event) (m : Machine) : Prop :=
  initial + es.countP (Event.isRelease sem) = m.count sem + es.countP (Event.isGrant sem) ∧
    (0 < m.count sem → m.tasks.waiting (.semaphore sem) = [])

/-- The counter, the queue and the two counts after one instruction. -/
theorem Permits.fires (hs : Permits sem initial es m) (hm : MachineInv m) (hcodes : Codes m)
    (hc : m.tasks.current = some c) (hcode : m.code c = i :: rest) (h : Fires m c rest i m')
    (hfits : m.releaseFits sem .run = true) :
    Permits sem initial (es ++ m.instrEvents c i) m' := by
  obtain ⟨hold, hidle⟩ := hs
  unfold Permits
  rw [List.countP_append, List.countP_append]
  by_cases hacquire : i = .body (.semaphoreAcquire sem)
  · subst hacquire
    cases h with
    | acquire hpos =>
        have hempty := hidle hpos
        simp only [instrEvents, queueEvents, hpos, if_true, Function.update_self]
        refine ⟨?_, fun _ => hempty⟩
        simp [Event.isRelease, Event.isGrant]
        omega
    | acquireSleep hzero hsleep =>
        simp only [instrEvents, queueEvents, hzero, Nat.lt_irrefl, if_false]
        refine ⟨?_, fun hpos => ?_⟩
        · simp [Event.isRelease, Event.isGrant, hold]
        · rw [advance_count, hzero] at hpos
          exact absurd hpos (Nat.lt_irrefl 0)
  · by_cases hrelease : i = .body (.semaphoreRelease sem)
    · subst hrelease
      cases h with
      | @releaseHand _ t s hrem =>
          obtain ⟨-, hnone, -⟩ | ⟨u, l, hq, -, -⟩ := waitQueueRemove_spec hrem
          · cases hnone
          · have hq : m.tasks.waiting (.semaphore sem) = u :: l := hq
            refine ⟨?_, fun hpos => ?_⟩
            · simp [instrEvents, queueEvents, hq, Event.isRelease, Event.isGrant]
              omega
            · rw [hidle hpos] at hq
              cases hq
      | @releaseFree _ s hrem =>
          obtain ⟨hq, -, rfl⟩ | ⟨u, l, -, hsome, -⟩ := waitQueueRemove_spec hrem
          · have hq : m.tasks.waiting (.semaphore sem) = [] := hq
            have hlt : m.count sem + 1 < wordModulus := by
              simpa [releaseFits, head, hc, hcode, hq] using hfits
            refine ⟨?_, fun _ => hq⟩
            simp [instrEvents, queueEvents, hq, Event.isRelease, Event.isGrant]
            rw [Nat.mod_eq_of_lt hlt]
            omega
          · cases hsome
    · obtain ⟨h1, h2⟩ := instrEvents_other (m := m) (c := c) hacquire hrelease
      rw [h1, h2, h.count_other hacquire hrelease]
      refine ⟨by omega, fun hpos => ?_⟩
      have hbody : i.isBody (Call.acquires sem) = false := by
        cases i with
        | body call =>
            have hne : call ≠ .semaphoreAcquire sem := fun e => hacquire (by rw [e])
            simpa [Instr.isBody, Call.acquires] using hne
        | _ => rfl
      exact hm.stays_empty hcodes acquire_guards rfl (by simp) hc hcode h hbody (hidle hpos)

/-- The other labels leave the semaphores alone. -/
theorem Moves.count_other (h : Moves m c l m') (hl : l ≠ .run) :
    m'.count = m.count ∧ m'.tasks.waiting = m.tasks.waiting ∧ m.observe l = [] := by
  cases h with
  | run => exact absurd rfl hl
  | client _ _ _ hfires =>
      cases hfires
      exact ⟨rfl, rfl, rfl⟩
  | setFlag => exact ⟨rfl, rfl, rfl⟩
  | timer => exact ⟨rfl, rfl, rfl⟩

theorem Permits.step (hs : Permits sem initial es m) (hm : MachineInv m) (hcodes : Codes m)
    (hfits : m.releaseFits sem l = true) (h : m.step l = some m') :
    Permits sem initial (es ++ m.observe l) m' := by
  obtain ⟨c, hc, hmoves⟩ := step_moves h
  by_cases hl : l = .run
  · subst hl
    cases hmoves with
    | run hcode hfires =>
        rw [observe_run hc hcode]
        exact hs.fires hm hcodes hc hcode hfires hfits
  · obtain ⟨hcount, hwaiting, hobs⟩ := hmoves.count_other hl
    unfold Permits
    rw [hcount, hwaiting, hobs, List.append_nil]
    exact hs

/-! ## Every run -/

/-- In every run, whatever the threads do: the permits that came in are those left and those
granted, waiters are served first come, first served, and an acquire returns with a permit. -/
theorem semaphore_permits_conserved {idleStack reaperStack pageDirectory esp0 cr3 sem : Nat}
    {count : Nat → Nat}
    (hrun : Observed step (fun m l => m.permitted l = true ∧ m.releaseFits sem l = true) observe
      { boot idleStack reaperStack pageDirectory esp0 cr3 with count } es m) :
    SemaphoreSound sem (count sem) es m := by
  have hinv : Permits sem (count sem) es m ∧
      Books (.semaphore sem) (Call.acquires sem) es m ∧ Ledger (Call.releases sem) es m := by
    apply hrun.invariant
    · exact ⟨⟨rfl, fun _ => rfl⟩, boot_books .., (boot_books (.semaphore sem) ..).ledger⟩
    · rintro es m l m' ⟨hp, hb, hl⟩ ⟨hok, hfits⟩ hs
      obtain ⟨c, hc, hmoves⟩ := step_moves hs
      exact ⟨hp.step hb.inv hb.codes hfits hs, hb.step rfl acquire_guards hok hs,
        (hb.inv.stepCode hc hmoves).ledger hl⟩
  obtain ⟨⟨hconserved, hempty⟩, hbooks, hledger⟩ := hinv
  exact ⟨hconserved, hledger, hempty, hbooks.fifo, hbooks.granted⟩

/-- Thread 2 takes the only permit and waits for another one, which thread 3 releases. -/
theorem semaphore_permits_conserved_handover :
    ∃ es m, Observed step (fun m l => m.permitted l = true ∧ m.releaseFits 0 l = true) observe
      { boot 0 0 0 0 0 with count := fun _ => 1 } es m ∧
      es.count (.took (.semaphore 0) 2) = 1 ∧ unlinked (.semaphore 0) es = [2] ∧
      SemaphoreSound 0 1 es m := by
  have h : ((watch step (fun m l => m.permitted l = true ∧ m.releaseFits 0 l = true) observe
      { boot 0 0 0 0 0 with count := fun _ => 1 }
      (twoThreads ++ [.client (.semaphoreAcquire 0), .run, .run, .run,
        .client (.semaphoreAcquire 0), .run, .run, .client (.semaphoreRelease 0), .run, .run])).map
      fun p => (p.1.count (.took (.semaphore 0) 2), unlinked (.semaphore 0) p.1)) =
      some (1, [2]) := by decide +kernel
  obtain ⟨⟨es, m⟩, hw, hend⟩ := Option.map_eq_some_iff.mp h
  simp only [Prod.mk.injEq] at hend
  have hrun := observed_of_watch hw
  exact ⟨es, m, hrun, hend.1, hend.2, semaphore_permits_conserved hrun⟩

end Machine

end Neox
