import Neox.Lib.Ring
import Neox.Task.SchedulerRuns
import Mathlib.Data.Finset.Card

/-!
# Round robin

The ready list is the ring that `scheduler_next` turns: every call of the scheduler is a turn in the
sense of `Lib/Ring`, with `current` as the cursor. A thread that blocks or exits sends the selection back
to the front of the list, so a linked thread waits for at most as many selections as `bounded_round_robin`
says, and not for one round.
-/

namespace Neox

open Transition Ring

variable {s s' : Tasks} {c : ThreadId} {q : WaitQueue}

/-! ## `scheduler_next` on the ring -/

theorem listNext_eq (l : List ThreadId) (t : ThreadId) : listNext l t = l[l.idxOf t + 1]? := by
  fun_induction listNext l t with
  | case1 => rfl
  | case2 x t =>
      symm
      apply List.getElem?_eq_none
      simp
  | case3 x y rest => simp
  | case4 x y rest t hne ih =>
      rw [ih, List.idxOf_cons_ne _ hne]
      rfl

/-- The pick is the next turn after `current`. -/
theorem schedulerPick_next (hs : TasksInv s) (hc : s.current = some c) (hne : s.readyList ≠ []) :
    s.readyList[start s.readyList c % s.readyList.length]? = some (schedulerPick s) := by
  have hnode := hs.sched_node c
  unfold schedulerPick start
  rw [hc]
  cases hlist : s.readyList with
  | nil => exact absurd hlist hne
  | cons front rest =>
      rw [hlist] at hnode
      show (front :: rest)[_]? = some (if (s.threads c).schedNode = true then
        (listNext (front :: rest) c).getD front else front)
      by_cases hmem : c ∈ front :: rest
      · rw [if_pos hmem, if_pos (hnode.mpr hmem), listNext_eq]
        have hlt := List.idxOf_lt_length_of_mem hmem
        by_cases hlast : (front :: rest).idxOf c + 1 < (front :: rest).length
        · rw [Nat.mod_eq_of_lt hlast, List.getElem?_eq_getElem hlast]
          rfl
        · obtain hend : (front :: rest).idxOf c + 1 = (front :: rest).length := by omega
          rw [hend, Nat.mod_self, List.getElem?_eq_none (Nat.le_refl _)]
          rfl
      · rw [if_neg hmem, if_neg (mt hnode.mp hmem), Nat.zero_mod]
        rfl

/-! ## Calls as turns -/

/-- The call gets as far as `scheduler_next`. -/
def selects (s : Tasks) : SchedulerOp → Bool
  | .threadBlock | .waitQueueSleep _ | .threadKillCurrent => true
  | .schedulerYield => s.current.isSome
  | .schedulerTick =>
      s.current.isSome && (s.quantumRemaining + (wordModulus - 1)) % wordModulus == 0
  | .threadAdd _ | .threadUnblock _ | .waitQueueWake _ | .waitQueueWakeAll _ | .interruptFlag _ => false

/-- The thread the call selects, if it selects one. -/
def selections (s : Tasks) (op : SchedulerOp) : List ThreadId :=
  if selects s op then ((schedulerStep s op).bind (·.current)).toList else []

theorem selections_eq {op : SchedulerOp} (h : schedulerStep s op = some s') :
    selections s op = if selects s op then s'.current.toList else [] := by
  unfold selections
  rw [h]
  rfl

/-- The countdown selects when it is at its last tick. -/
theorem selects_tick (hs : TasksInv s) (hc : s.current = some c) :
    selects s .schedulerTick = decide (s.quantumRemaining = 1) := by
  have hquantum := hs.quantum
  simp only [schedulerQuantumTicks] at hquantum
  simp only [selects, hc, Option.isSome_some, Bool.true_and, wordModulus]
  rw [Bool.eq_iff_iff, beq_iff_eq, decide_eq_true_iff]
  omega

/-- Waking appends. -/
theorem waitQueueWake_readyList (h : waitQueueWake s q = some s') :
    ∃ m, s'.readyList = s.readyList ++ m := by
  obtain ⟨-, ⟨-, rfl⟩ | ⟨t, s₁, hrem, hun⟩⟩ := waitQueueWake_spec h
  · exact ⟨[], (List.append_nil _).symm⟩
  · obtain ⟨-, hnone, -⟩ | ⟨t', rest, -, ht, rfl⟩ := waitQueueRemove_spec hrem
    · cases hnone
    · obtain ⟨-, -, rfl⟩ := threadUnblock_spec hun
      exact ⟨[t], rfl⟩

theorem waitQueueWakeLoop_readyList {n : Nat} (h : waitQueueWakeLoop q n s = some s') :
    ∃ m, s'.readyList = s.readyList ++ m := by
  induction n generalizing s with
  | zero =>
      cases h
      exact ⟨[], (List.append_nil _).symm⟩
  | succ n ih =>
      obtain ⟨⟨thread, s₁⟩, hrem, hrest⟩ := Option.bind_eq_some_iff.mp h
      obtain ⟨-, rfl, rfl⟩ | ⟨t, rest, -, rfl, rfl⟩ := waitQueueRemove_spec hrem
      · cases hrest
        exact ⟨[], (List.append_nil _).symm⟩
      · obtain ⟨s₂, hun, hloop⟩ := Option.bind_eq_some_iff.mp hrest
        obtain ⟨-, -, rfl⟩ := threadUnblock_spec hun
        obtain ⟨m, hm⟩ := ih hloop
        exact ⟨t :: m, hm.trans (List.append_assoc _ [t] m)⟩

theorem waitQueueWakeAll_readyList (h : waitQueueWakeAll s q = some s') :
    ∃ m, s'.readyList = s.readyList ++ m := by
  unfold waitQueueWakeAll at h
  split at h
  · cases h
  · exact waitQueueWakeLoop_readyList h

/-- Only blocked threads are woken. -/
theorem Woken.terminated {t : ThreadId} (h : Woken q s s') (ht : (s.threads t).state = .terminated) :
    (s'.threads t).state = .terminated := by
  rcases h.threads t with e | ⟨-, hb, -⟩
  · rw [e]
    exact ht
  · rw [ht] at hb
    cases hb

theorem schedulerTerminate_readyList {t : ThreadId} (hs : TasksInv s) (hidle : t ≠ idleThread)
    (hrun : (s.threads t).state = .running) (h : schedulerTerminate s t = some s') :
    (∃ m, s'.readyList = s.readyList.erase t ++ m) ∧ (s'.threads t).state = .terminated := by
  obtain ⟨-, -, s₁, hwake, hpush⟩ := schedulerTerminate_spec hs hidle hrun h
  obtain ⟨m, hm⟩ := waitQueueWakeAll_readyList hwake
  obtain ⟨hinv, hwoken, -⟩ := waitQueueWakeAll_inv (hs.stop hidle hrun (.inr rfl)) hwake
  have hstopped := hwoken.terminated (t := t) (by simp [Tasks.stop])
  obtain ⟨-, rfl⟩ | ⟨-, hp⟩ := hpush
  · exact ⟨⟨m, hm⟩, hstopped⟩
  · obtain ⟨-, ht, ⟨-, rfl⟩ | ⟨-, hn, hw⟩⟩ := schedulerPushZombie_spec hp
    · exact ⟨⟨m, hm⟩, hstopped⟩
    · obtain ⟨m', hm'⟩ := waitQueueWake_readyList hw
      obtain ⟨-, hwoken'⟩ := waitQueueWake_inv (hinv.pushZombie ht hn) hw
      refine ⟨⟨m ++ m', ?_⟩, hwoken'.terminated (by simp [Tasks.pushZombie, hstopped])⟩
      show s'.readyList = (s.stop t .terminated).readyList ++ (m ++ m')
      rw [hm', ← List.append_assoc, ← hm]
      rfl

section Turns

variable (hs : SchedulerInv s) (hc : s.current = some c)

include hs hc

/-- A call that only appends to the ready list. -/
theorem turn_extend (hs' : TasksInv s') {m : List ThreadId} (hm : s'.readyList = s.readyList ++ m) :
    Turn s.readyList c [] s'.readyList c := by
  rw [hm]
  apply Turn.extend
  rcases hs.runs c hc with rfl | hrun
  · right
    intro hmem
    have hidle : idleThread ∈ s'.readyList := hm ▸ List.mem_append_right _ hmem
    exact ((hs'.ready_iff _).mp hidle).1 rfl
  · by_cases hidle : c = idleThread
    · right
      intro hmem
      have hlinked : c ∈ s'.readyList := hm ▸ List.mem_append_right _ hmem
      exact ((hs'.ready_iff _).mp hlinked).1 hidle
    · exact .inl (hs.inv.running_linked hidle hrun).1

/-- A call that hands over while `current` stays linked. -/
theorem turn_advance (hsw : Switched s s') (hne : s'.readyList ≠ []) :
    Turn s.readyList c [schedulerPick s] s'.readyList (schedulerPick s) := by
  rw [hsw.readyList] at hne ⊢
  exact .advance _ (schedulerPick_next hs.inv hc hne)

omit hc in
/-- A call that takes `current` from the ready list and hands over. -/
theorem turn_leave {s₁ : Tasks} (hs₁ : TasksInv s₁) (hrun : (s.threads c).state = .running)
    (hidle : c ≠ idleThread) (hc₁ : s₁.current = some c)
    (hstop : (s₁.threads c).state = .blocked ∨ (s₁.threads c).state = .terminated)
    {m : List ThreadId} (hm : s₁.readyList = s.readyList.erase c ++ m) (hsw : Switched s₁ s')
    (hne : s'.readyList ≠ []) :
    Turn s.readyList c [schedulerPick s₁] s'.readyList (schedulerPick s₁) := by
  have hunlinked : c ∉ s₁.readyList := by
    intro hmem
    have hstate := ((hs₁.ready_iff c).mp hmem).2.2
    rcases hstop with e | e
    · simp [e] at hstate
    · simp [e] at hstate
  rw [hsw.readyList] at hne ⊢
  have hnext := schedulerPick_next hs₁ hc₁ hne
  have hfront : start s₁.readyList c = 0 := if_neg hunlinked
  rw [hfront, Nat.zero_mod] at hnext
  rw [hm] at hunlinked hnext ⊢
  exact .leave m _ (hs.inv.running_linked hidle hrun).1 hunlinked hnext

end Turns

/-- Every call turns the ring, as long as a thread is linked afterwards. -/
theorem schedulerStep_turn {op : SchedulerOp} (hs : SchedulerInv s) (hc : s.current = some c)
    (hok : op.permitted s) (h : schedulerStep s op = some s') (hne : s'.readyList ≠ []) :
    ∃ c', s'.current = some c' ∧ Turn s.readyList c (selections s op) s'.readyList c' := by
  have hs' := (schedulerStep_inv hs hok h).inv
  have hselections := selections_eq h
  cases op with
  | threadAdd t =>
      obtain ⟨-, -, -, p, -, hadd⟩ := threadAdd_spec h
      have hm : s'.readyList = s.readyList ++ [t] := by rw [hadd]
      refine ⟨c, by rw [hadd]; exact hc, ?_⟩
      rw [hselections]
      exact turn_extend hs hc hs' hm
  | threadBlock =>
      obtain ⟨hidle, h⟩ := unlessIdle_eq_some h
      obtain ⟨d, hd, hdne, hrun, hsw⟩ := threadBlock_spec hs.inv hs.runs hidle h
      cases hc.symm.trans hd
      have hstop := (hs.inv.setFlag false).stop hdne hrun (.inl (Eq.refl ThreadState.blocked))
      refine ⟨_, hsw.current, ?_⟩
      rw [hselections, hsw.current]
      exact turn_leave hs hstop hrun hdne hc (.inl (by simp [Tasks.stop]))
        (List.append_nil _).symm hsw hne
  | threadUnblock t =>
      obtain ⟨-, -, hun⟩ := threadUnblock_spec h
      have hm : s'.readyList = s.readyList ++ [t] := by rw [hun]
      refine ⟨c, by rw [hun]; exact hc, ?_⟩
      rw [hselections]
      exact turn_extend hs hc hs' hm
  | waitQueueSleep q =>
      obtain ⟨hidle, h⟩ := unlessIdle_eq_some h
      obtain ⟨d, hd, hdne, hrun, hinv, hsw⟩ := waitQueueSleep_spec hs.inv hs.runs hidle h
      cases hc.symm.trans hd
      refine ⟨_, hsw.current, ?_⟩
      rw [hselections, hsw.current]
      exact turn_leave hs hinv hrun hdne hc (.inl (by simp [Tasks.sleep, Tasks.stop]))
        (List.append_nil _).symm hsw hne
  | waitQueueWake q =>
      obtain ⟨m, hm⟩ := waitQueueWake_readyList h
      refine ⟨c, (waitQueueWake_inv hs.inv h).2.current.trans hc, ?_⟩
      rw [hselections]
      exact turn_extend hs hc hs' hm
  | waitQueueWakeAll q =>
      obtain ⟨m, hm⟩ := waitQueueWakeAll_readyList h
      refine ⟨c, (waitQueueWakeAll_inv hs.inv h).2.1.current.trans hc, ?_⟩
      rw [hselections]
      exact turn_extend hs hc hs' hm
  | schedulerYield =>
      have hsw := schedulerYield_spec h (by simp [hc])
      have hsel : selects s .schedulerYield = true := by simp [selects, hc]
      refine ⟨_, hsw.current, ?_⟩
      rw [hselections, if_pos hsel, hsw.current]
      exact turn_advance hs hc hsw hne
  | schedulerTick =>
      rw [selects_tick hs.inv hc] at hselections
      obtain ⟨hq, htick⟩ | ⟨hq, hsw⟩ := schedulerTick_spec hs.inv h
      · have hm : s'.readyList = s.readyList ++ [] := by rw [htick, List.append_nil]
        refine ⟨c, by rw [htick]; exact hc, ?_⟩
        rw [hselections, if_neg (by simp; omega)]
        exact turn_extend hs hc hs' hm
      · refine ⟨_, hsw.current, ?_⟩
        rw [hselections, if_pos (by simp [hq]), hsw.current]
        exact turn_advance hs hc hsw hne
  | threadKillCurrent =>
      obtain ⟨hidle, h⟩ := unlessIdle_eq_some h
      obtain ⟨d, s₁, hd, hdne, hrun, hterm, hinv, hsw⟩ :=
        threadKillCurrent_spec hs.inv hs.runs hidle h
      cases hc.symm.trans hd
      have hc₁ := (schedulerTerminate_inv (hs.inv.setFlag false) hdne hrun hterm).2.1
      obtain ⟨⟨m, hm⟩, hstate⟩ := schedulerTerminate_readyList (hs.inv.setFlag false) hdne hrun hterm
      refine ⟨_, hsw.current, ?_⟩
      rw [hselections, hsw.current]
      exact turn_leave hs hinv hrun hdne (hc₁.trans hc) (.inr hstate) hm hsw hne
  | interruptFlag enabled =>
      cases h
      refine ⟨c, hc, ?_⟩
      rw [hselections]
      exact turn_extend hs hc hs' (List.append_nil _).symm

/-! ## Every run -/

/-- `C` is linked, and only members of `S` are. -/
structure Linked (S : Finset ThreadId) (C : ThreadId) (s : Tasks) : Prop where
  mem : C ∈ s.readyList
  subset : ∀ t ∈ s.readyList, t ∈ S

instance (S : Finset ThreadId) (C : ThreadId) (s : Tasks) : Decidable (Linked S C s) :=
  decidable_of_iff (C ∈ s.readyList ∧ ∀ t ∈ s.readyList, t ∈ S)
    ⟨fun h => ⟨h.1, h.2⟩, fun h => ⟨h.mem, h.subset⟩⟩

theorem Linked.length_le {S : Finset ThreadId} {C : ThreadId} (h : Linked S C s) (hs : TasksInv s) :
    s.readyList.length ≤ S.card := by
  rw [← List.toFinset_card_of_nodup hs.ready_nodup]
  apply Finset.card_le_card
  intro t ht
  exact h.subset t (List.mem_toFinset.mp ht)

/-- `C` was selected within the first `bound` selections, or the selections made and those still needed
are within `bound`. -/
def Awaited (bound N : Nat) (C : ThreadId) (es : List ThreadId) (s : Tasks) : Prop :=
  C ∈ es.take bound ∨ C ∈ s.readyList ∧ ∃ c, s.current = some c ∧ c ≠ C ∧
    es.length + remaining N s.readyList c C ≤ bound

theorem awaited_start {N : Nat} {C : ThreadId} (hs : SchedulerInv s)
    (hready : (s.threads C).state = .ready) (hlinked : C ∈ s.readyList) (hlen : s.readyList.length ≤ N) :
    Awaited (N * (N + 1)) N C [] s := by
  obtain ⟨c, hc⟩ := hs.inv.current_some
  refine .inr ⟨hlinked, c, hc, ?_, ?_⟩
  · rintro rfl
    rcases hs.runs c hc with rfl | hrun
    · exact ((hs.inv.ready_iff _).mp hlinked).1 rfl
    · rw [hready] at hrun
      cases hrun
  · rw [List.length_nil, Nat.zero_add]
    exact remaining_le hlinked hlen

theorem Awaited.step {bound N : Nat} {C : ThreadId} {es : List ThreadId}
    {op : SchedulerOp} (h : Awaited bound N C es s) (hs : SchedulerInv s) (hok : op.permitted s)
    (hlen : s.readyList.length ≤ N) (hlinked' : C ∈ s'.readyList) (hstep : schedulerStep s op = some s') :
    Awaited bound N C (es ++ selections s op) s' := by
  rcases h with hdone | ⟨hmem, c, hc, hne, hbound⟩
  · left
    rw [List.take_append]
    exact List.mem_append_left _ hdone
  · have hnonempty : s'.readyList ≠ [] := List.ne_nil_of_mem hlinked'
    obtain ⟨c', hc', hturn⟩ := schedulerStep_turn hs hc hok hstep hnonempty
    have hs' := (schedulerStep_inv hs hok hstep).inv
    by_cases hsel : C ∈ selections s op
    · left
      have hpos := remaining_pos N s.readyList c C
      have hone : (selections s op).length ≤ 1 := by
        unfold selections
        split
        · exact Option.length_toList_le
        · exact Nat.zero_le 1
      rw [List.take_of_length_le (by rw [List.length_append]; omega)]
      exact List.mem_append_right _ hsel
    · obtain ⟨hne', hrem⟩ := hturn.remaining hs.inv.ready_nodup hs'.ready_nodup hmem hne
        hlen hsel
      refine .inr ⟨hlinked', c', hc', hne', ?_⟩
      rw [List.length_append]
      omega

/-- The run lemma of the first half of `bounded_round_robin`. -/
theorem awaited_run {N : Nat} {C : ThreadId} {S : Finset ThreadId} {es : List ThreadId}
    (hs : SchedulerInv s) (hS : S.card ≤ N) (hready : (s.threads C).state = .ready)
    (hrun : Observed schedulerStep (fun u op => op.permitted u ∧ Linked S C u) selections s es s')
    (hlinked : Linked S C s) (hlinked' : Linked S C s') : Awaited (N * (N + 1)) N C es s' := by
  have hall : SchedulerInv s' ∧ (C ∈ s'.readyList → Awaited (N * (N + 1)) N C es s') := by
    apply hrun.invariant
    · refine ⟨hs, fun hmem => ?_⟩
      exact awaited_start hs hready hmem (Nat.le_trans (hlinked.length_le hs.inv) hS)
    · intro es t op u ⟨ht, hawaited⟩ ⟨hok, hlinked⟩ hstep
      refine ⟨schedulerStep_inv ht hok hstep, fun hmem => ?_⟩
      exact (hawaited hlinked.mem).step ht hok (Nat.le_trans (hlinked.length_le ht.inv) hS) hmem hstep
  exact hall.2 hlinked'.mem

/-- The run lemma of the second half. -/
theorem ordered_run {l es : List ThreadId} (hs : SchedulerInv s) (hc : s.current = some c)
    (hne : l ≠ [])
    (hrun : Observed schedulerStep (fun u op => op.permitted u ∧ u.readyList = l) selections s es s')
    (hlist' : s'.readyList = l) : ∃ c', s'.current = some c' ∧ Ordered l c es c' := by
  have hall : SchedulerInv s' ∧ (s'.readyList = l → ∃ c', s'.current = some c' ∧ Ordered l c es c') := by
    apply hrun.invariant
    · exact ⟨hs, fun _ => ⟨c, hc, Ordered.nil⟩⟩
    · intro es t op u ⟨ht, hordered⟩ ⟨hok, hlist⟩ hstep
      refine ⟨schedulerStep_inv ht hok hstep, fun hlist' => ?_⟩
      obtain ⟨d, hd, horder⟩ := hordered hlist
      obtain ⟨d', hd', hturn⟩ := schedulerStep_turn ht hd hok hstep (hlist' ▸ hne)
      rw [hlist, hlist'] at hturn
      exact ⟨d', hd', horder.turn (hlist ▸ ht.inv.ready_nodup) hturn rfl⟩
  exact hall.2 hlist'

/-- A linked thread is selected within `N (N + 1)` selections, where at most `N` threads are ever linked;
and while none comes or goes the selections are the ready list in order, from the successor of `current`
on. -/
theorem bounded_round_robin (hs : SchedulerInv s) :
    (∀ (C : ThreadId) (S : Finset ThreadId) (N : Nat) (es : List ThreadId) (t : Tasks),
      S.card ≤ N → (s.threads C).state = .ready → Linked S C s →
      Observed schedulerStep (fun u op => op.permitted u ∧ Linked S C u) selections s es t →
      Linked S C t → N * (N + 1) ≤ es.length → C ∈ es.take (N * (N + 1))) ∧
    ∀ (c : ThreadId) (es : List ThreadId) (t : Tasks), s.current = some c →
      Observed schedulerStep (fun u op => op.permitted u ∧ u.readyList = s.readyList) selections s es t →
      t.readyList = s.readyList → es.length = s.readyList.length →
      es = s.readyList.rotate (start s.readyList c) ∧ es.Nodup ∧ ∀ u, u ∈ es ↔ u ∈ s.readyList := by
  constructor
  · intro C S N es t hS hready hlinked hrun hlinked' hmany
    rcases awaited_run hs hS hready hrun hlinked hlinked' with hdone | ⟨-, c, -, -, hbound⟩
    · exact hdone
    · have hpos := remaining_pos N t.readyList c C
      omega
  · intro c es t hc hrun hlist hlen
    have heq : es = s.readyList.rotate (start s.readyList c) := by
      by_cases hne : s.readyList = []
      · rw [hne] at hlen ⊢
        rw [List.rotate_nil]
        exact List.eq_nil_of_length_eq_zero hlen
      · obtain ⟨c', -, hordered⟩ := ordered_run hs hc hne hrun hlist
        exact hordered.rotate hlen
    refine ⟨heq, ?_, fun u => ?_⟩
    · rw [heq]
      exact List.nodup_rotate.mpr hs.inv.ready_nodup
    · rw [heq]
      exact List.mem_rotate

/-- Two threads that have been added. -/
def twoLinked : Option Tasks :=
  exec schedulerStep SchedulerOp.permitted
    (Tasks.start (fun _ => 1) (fun _ => kernelStacksStart) (fun _ => false) (fun _ => 0) true none 0 0)
    [.threadAdd 1, .threadAdd 2]

/-- Thread 1 blocks and is woken while thread 2 stays linked. -/
theorem bounded_round_robin_two_threads :
    ∃ s, twoLinked = some s ∧
      (∃ es t, watch schedulerStep (fun u op => op.permitted u ∧ Linked {1, 2} 2 u) selections s
        [.schedulerYield, .threadBlock, .threadUnblock 1, .schedulerYield, .schedulerYield,
          .schedulerYield, .schedulerYield] = some (es, t) ∧ 2 ∈ es.take (2 * (2 + 1))) ∧
      ∃ es t, watch schedulerStep (fun u op => op.permitted u ∧ u.readyList = [1, 2]) selections s
        [.schedulerYield, .schedulerYield] = some (es, t) ∧ es = [1, 2].rotate 0 := by
  have hlinked : twoLinked.isSome = true := by decide +kernel
  have hblocks : (twoLinked.bind fun s =>
      watch schedulerStep (fun u op => op.permitted u ∧ Linked {1, 2} 2 u) selections s
        [.schedulerYield, .threadBlock, .threadUnblock 1, .schedulerYield, .schedulerYield,
          .schedulerYield, .schedulerYield]).map (fun r => (r.1.length, r.2.readyList)) =
      some (6, [2, 1]) := by decide +kernel
  have hyields : (twoLinked.bind fun s =>
      watch schedulerStep (fun u op => op.permitted u ∧ u.readyList = [1, 2]) selections s
        [.schedulerYield, .schedulerYield]).map (fun r => (r.1.length, r.2.readyList)) =
      some (2, [1, 2]) := by decide +kernel
  have hstart : twoLinked.map (fun s => (s.readyList, s.current, (s.threads 2).state)) =
      some ([1, 2], some idleThread, .ready) := by decide +kernel
  obtain ⟨s, hs⟩ := Option.isSome_iff_exists.mp hlinked
  have hinv : SchedulerInv s :=
    (run_of_exec hs).invariant (Tasks.start_inv ..) fun ht hok hstep => schedulerStep_inv ht hok hstep
  rw [hs] at hblocks hyields hstart
  obtain ⟨⟨es, t⟩, hwatch, hes⟩ := Option.map_eq_some_iff.mp hblocks
  obtain ⟨⟨fs, u⟩, hwatch', hfs⟩ := Option.map_eq_some_iff.mp hyields
  simp only [Option.map_some, Option.some.injEq, Prod.mk.injEq] at hes hfs hstart
  obtain ⟨hlist, hcurrent, hready⟩ := hstart
  refine ⟨s, hs, ⟨es, t, hwatch, ?_⟩, fs, u, hwatch', ?_⟩
  · apply (bounded_round_robin hinv).1 2 {1, 2} 2 es t (Nat.le_refl 2) hready ⟨?_, ?_⟩
      (observed_of_watch hwatch) ⟨?_, ?_⟩ (Nat.le_of_eq hes.1.symm)
    · simp [hlist]
    · simp [hlist]
    · simp [hes.2]
    · simp [hes.2]
  · rw [← hlist] at hwatch'
    have hordered := (bounded_round_robin hinv).2 idleThread fs u hcurrent (observed_of_watch hwatch')
      (hfs.2.trans hlist.symm) (by rw [hfs.1, hlist]; rfl)
    rw [hordered.1, hlist]
    rfl

end Neox
