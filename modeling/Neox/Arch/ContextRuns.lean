import Neox.Lib.Run
import Neox.Arch.Context
import Mathlib.Data.List.Basic

/-!
# Runs of context switches

Any number of threads, each with a kernel stack and a `kernel_sp` field, created in any order and
switched between in any order. Between two switches the running thread computes: it may change the
registers and all memory but the stacks of the others and the `kernel_sp` fields.

A thread that is not running has its context saved under its `kernel_sp`: the one it had when it
called `context_switch`, or the one its creator has built.
-/

namespace Neox

open Bytes Transition

/-- The addresses of the functions that are reached through a first frame. -/
structure CodeAddresses where
  threadBootstrap : Nat
  threadExit : Nat
  schedulerIdleLoop : Nat
  word : threadBootstrap < wordModulus ∧ threadExit < wordModulus ∧ schedulerIdleLoop < wordModulus

/-- Who builds the first frame of a thread. -/
inductive FirstFrame where
  /-- `thread_create` -/
  | thread
  /-- `scheduler_start` -/
  | idle
  deriving DecidableEq, Repr

/-- `thread->kernel_stack` and the address of `thread->kernel_sp`. -/
structure KernelThread where
  kernelStack : Nat
  cell : Nat
  deriving DecidableEq, Repr

namespace KernelThread

def top (k : KernelThread) : Nat := k.kernelStack + kernelStackSize

/-- Address `x` is in the stack. -/
def Has (k : KernelThread) (x : Nat) : Prop := k.kernelStack ≤ x ∧ x < k.top

/-- Address `x` is in the `kernel_sp` field. -/
def HasCell (k : KernelThread) (x : Nat) : Prop := k.cell ≤ x ∧ x < k.cell + 4

end KernelThread

/-- Build the first frame and store its address in `kernel_sp`. -/
def firstFrame (code : CodeAddresses) (k : KernelThread) (mem : Block) : FirstFrame → Block
  | .thread =>
      let mem := write32 mem (k.top - 4) code.threadExit
      let mem := write32 mem (k.top - 8) code.threadBootstrap
      let mem := copy mem (k.top - 24) 16 zero
      write32 mem k.cell (k.top - 24)
  | .idle =>
      let mem := write32 mem (k.top - 4) code.schedulerIdleLoop
      let mem := copy mem (k.top - 20) 16 zero
      write32 mem k.cell (k.top - 20)

/-- The processor, the running thread (none before `scheduler_enter_idle`) and all threads. -/
structure Switching where
  cpu : Cpu
  current : Option Nat
  threads : Nat → Option KernelThread

inductive SwitchLabel where
  /-- The running code computes up to this state of the processor. -/
  | compute (cpu : Cpu)
  | create (t : Nat) (k : KernelThread) (frame : FirstFrame)
  /-- The running thread has called `context_switch(&current->kernel_sp, next->kernel_sp)`. -/
  | switch (next : Nat)
  /-- The boot code has called `scheduler_enter_idle(idle->kernel_sp)`. -/
  | enterIdle (idle : Nat)

/-- What an observer notes of a thread: how it was created, and the context with which it calls
`context_switch`. -/
inductive SwitchEvent where
  | created (t : Nat) (frame : FirstFrame)
  | called (t : Nat) (context : Context)

def SwitchEvent.thread : SwitchEvent → Nat
  | .created t _ => t
  | .called t _ => t

/-- The last event of a thread. -/
def lastEvent (es : List SwitchEvent) (t : Nat) : Option SwitchEvent :=
  (es.filter fun e => e.thread = t).getLast?

namespace Switching

/-- Before any thread. -/
def boot (cpu : Cpu) : Switching := { cpu := cpu, current := none, threads := fun _ => none }

def step (code : CodeAddresses) (s : Switching) : SwitchLabel → Option Switching
  | .compute cpu => some { s with cpu := cpu }
  | .create t k frame =>
      some { s with
        cpu := { s.cpu with mem := firstFrame code k s.cpu.mem frame }
        threads := Function.update s.threads t (some k) }
  | .switch next => some { s with cpu := s.cpu.run contextSwitch, current := some next }
  | .enterIdle idle => some { s with cpu := s.cpu.run schedulerEnterIdle, current := some idle }

/-- Two stacks, a stack and a field, or two fields do not overlap. -/
structure Apart (k l : KernelThread) : Prop where
  areas : k.top ≤ l.kernelStack ∨ l.top ≤ k.kernelStack
  cells : k.cell + 4 ≤ l.cell ∨ l.cell + 4 ≤ k.cell
  left : k.cell + 4 ≤ l.kernelStack ∨ l.top ≤ k.cell
  right : l.cell + 4 ≤ k.kernelStack ∨ k.top ≤ l.cell

/-- A new thread has a stack and a `kernel_sp` of its own; running code leaves the stacks of the
other threads and the `kernel_sp` fields alone; a call of `context_switch` is by a thread on its own
stack, to another thread. -/
def Permitted (s : Switching) : SwitchLabel → Prop
  | .compute cpu => ∀ t k, s.threads t = some k →
      (∀ x, k.HasCell x → cpu.mem x = s.cpu.mem x) ∧
      (s.current ≠ some t → ∀ x, k.Has x → cpu.mem x = s.cpu.mem x)
  | .create t k _ => s.threads t = none ∧ k.top ≤ wordModulus ∧
      (k.cell + 4 ≤ k.kernelStack ∨ k.top ≤ k.cell) ∧ ∀ u l, s.threads u = some l → Apart k l
  | .switch next => ∃ t k l, s.current = some t ∧ t ≠ next ∧ s.threads t = some k ∧
      s.threads next = some l ∧ k.kernelStack + 16 ≤ s.cpu.reg .esp ∧ s.cpu.reg .esp + 12 ≤ k.top ∧
      read32 s.cpu.mem (s.cpu.reg .esp + 4) = k.cell ∧
      read32 s.cpu.mem (s.cpu.reg .esp + 8) = read32 s.cpu.mem l.cell
  | .enterIdle idle => s.current = none ∧ ∃ l, s.threads idle = some l ∧
      s.cpu.reg .esp + 8 ≤ wordModulus ∧
      read32 s.cpu.mem (s.cpu.reg .esp + 4) = read32 s.cpu.mem l.cell

def observe (s : Switching) : SwitchLabel → List SwitchEvent
  | .create t _ frame => [.created t frame]
  | .switch _ => s.current.toList.map fun t => .called t s.cpu.caller
  | _ => []

end Switching

/-- The processor goes on with a thread where its last event has left it: with the context it had
when it called `context_switch`, or at the entry of its first function. -/
def SwitchEvent.Continues (code : CodeAddresses) (cpu : Cpu) : SwitchEvent → Prop
  | .called _ context => cpu.context = context
  | .created _ .thread => cpu.eip = code.threadBootstrap ∧
      read32 cpu.mem (cpu.reg .esp) = code.threadExit
  | .created _ .idle => cpu.eip = code.schedulerIdleLoop

def Resumes (code : CodeAddresses) (es : List SwitchEvent) (t : Nat) (cpu : Cpu) : Prop :=
  ∃ e, lastEvent es t = some e ∧ e.Continues code cpu

/-! ## Suspended threads -/

section Suspended

variable {code : CodeAddresses} {k l : KernelThread} {mem mem' : Block} {e : SwitchEvent} {t : Nat}

/-- The thread can go on from its `kernel_sp` with context `ctx`. -/
structure SavedIn (k : KernelThread) (mem : Block) (ctx : Context) : Prop where
  low : k.kernelStack ≤ read32 mem k.cell
  high : read32 mem k.cell + 20 ≤ k.top
  saved : Saved mem (read32 mem k.cell) ctx

/-- What that context is. -/
def Suspended (code : CodeAddresses) (k : KernelThread) (mem : Block) : SwitchEvent → Prop
  | .called _ context => SavedIn k mem context
  | .created _ .thread => ∃ ctx, SavedIn k mem ctx ∧ ctx.eip = code.threadBootstrap ∧
      read32 mem k.cell + 24 = k.top ∧ read32 mem (k.top - 4) = code.threadExit
  | .created _ .idle => ∃ ctx, SavedIn k mem ctx ∧ ctx.eip = code.schedulerIdleLoop

theorem SavedIn.congr {ctx : Context} (h : SavedIn k mem ctx)
    (hstack : ∀ x, k.Has x → mem' x = mem x) (hcell : ∀ x, k.HasCell x → mem' x = mem x) :
    SavedIn k mem' ctx := by
  obtain ⟨hlow, hhigh, hsaved⟩ := h
  have hsp : read32 mem' k.cell = read32 mem k.cell :=
    read32_congr fun i hi => hcell _ ⟨Nat.le_add_right .., by omega⟩
  refine ⟨hsp ▸ hlow, hsp ▸ hhigh, hsp.symm ▸ hsaved.congr fun x hlo hhi => ?_⟩
  exact hstack x ⟨by omega, by omega⟩

/-- A suspended thread stays so while its stack and its `kernel_sp` do. -/
theorem Suspended.congr (h : Suspended code k mem e) (hstack : ∀ x, k.Has x → mem' x = mem x)
    (hcell : ∀ x, k.HasCell x → mem' x = mem x) : Suspended code k mem' e := by
  have hsp : read32 mem' k.cell = read32 mem k.cell :=
    read32_congr fun i hi => hcell _ ⟨Nat.le_add_right .., by omega⟩
  cases e with
  | called t context => exact SavedIn.congr h hstack hcell
  | created t frame =>
      cases frame with
      | thread =>
          obtain ⟨ctx, hsaved, heip, htop, hexit⟩ := h
          refine ⟨ctx, hsaved.congr hstack hcell, heip, by rw [hsp, htop], ?_⟩
          rw [← hexit]
          refine read32_congr fun i hi => hstack _ ⟨?_, ?_⟩
          · simp only [KernelThread.top, kernelStackSize]
            omega
          · simp only [KernelThread.top, kernelStackSize]
            omega
      | idle =>
          obtain ⟨ctx, hsaved, heip⟩ := h
          exact ⟨ctx, hsaved.congr hstack hcell, heip⟩

/-- The context a suspended thread has is the one its last event left it with. -/
theorem Suspended.context (h : Suspended code k mem e) : ∃ ctx, SavedIn k mem ctx := by
  cases e with
  | called t context => exact ⟨context, h⟩
  | created t frame =>
      cases frame with
      | thread =>
          obtain ⟨ctx, hsaved, -⟩ := h
          exact ⟨ctx, hsaved⟩
      | idle =>
          obtain ⟨ctx, hsaved, -⟩ := h
          exact ⟨ctx, hsaved⟩

theorem Saved.unique {sp : Nat} {ctx ctx' : Context} (h : Saved mem sp ctx)
    (h' : Saved mem sp ctx') : ctx = ctx' := by
  obtain ⟨esp, ebp, ebx, esi, edi, eip⟩ := ctx
  obtain ⟨esp', ebp', ebx', esi', edi', eip'⟩ := ctx'
  simp only [Context.mk.injEq]
  exact ⟨h.esp.trans h'.esp.symm, h.ebp.symm.trans h'.ebp, h.ebx.symm.trans h'.ebx,
    h.esi.symm.trans h'.esi, h.edi.symm.trans h'.edi, h.eip.symm.trans h'.eip⟩

/-- A processor that takes over the saved context continues the thread. -/
theorem Suspended.continues {ctx : Context} {cpu : Cpu} (h : Suspended code k mem e)
    (htop : k.top ≤ wordModulus) (hctx : SavedIn k mem ctx) (hcpu : cpu.context = ctx)
    (hmem : ∀ x, k.Has x → cpu.mem x = mem x) : e.Continues code cpu := by
  cases e with
  | called t context => exact hcpu.trans (hctx.saved.unique (SavedIn.saved h))
  | created t frame =>
      cases frame with
      | thread =>
          obtain ⟨ctx', hsaved, heip, hsp, hexit⟩ := h
          cases hctx.saved.unique hsaved.saved
          have hesp : cpu.reg .esp = k.top - 4 := by
            have h1 := congrArg Context.esp hcpu
            have h2 := hctx.saved.esp
            have h3 : cpu.reg .esp = ctx.esp := h1
            simp only [wordModulus] at *
            omega
          refine ⟨(congrArg Context.eip hcpu).trans heip, ?_⟩
          rw [hesp, ← hexit]
          refine read32_congr fun i hi => hmem _ ⟨?_, ?_⟩
          · simp only [KernelThread.top, kernelStackSize]
            omega
          · simp only [KernelThread.top, kernelStackSize]
            omega
      | idle =>
          obtain ⟨ctx', hsaved, heip⟩ := h
          cases hctx.saved.unique hsaved.saved
          exact (congrArg Context.eip hcpu).trans heip

/-! ## The first frame -/

theorem firstFrame_of_not_mem (code : CodeAddresses) (mem : Block) (frame : FirstFrame) {x : Nat}
    (hstack : ¬ k.Has x) (hcell : ¬ k.HasCell x) : firstFrame code k mem frame x = mem x := by
  simp only [KernelThread.Has, KernelThread.HasCell, KernelThread.top, kernelStackSize, not_and,
    Nat.not_lt] at hstack hcell
  unfold firstFrame KernelThread.top
  cases frame with
  | thread =>
      simp only [kernelStackSize]
      rw [write32_of_not_mem (by omega), copy_of_not_mem _ (by omega), write32_of_not_mem (by omega),
        write32_of_not_mem (by omega)]
  | idle =>
      simp only [kernelStackSize]
      rw [write32_of_not_mem (by omega), copy_of_not_mem _ (by omega), write32_of_not_mem (by omega)]

theorem read32_copy_zero {offset i : Nat} (hi : i + 4 ≤ 16) :
    read32 (copy mem offset 16 zero) (offset + i) = 0 := by
  have hbyte : ∀ j < 4, copy mem offset 16 zero (offset + i + j) = 0 := by
    intro j hj
    rw [Nat.add_assoc, copy_of_mem _ (by omega)]
    rfl
  have h0 := hbyte 0 (by decide)
  rw [Nat.add_zero] at h0
  unfold read32
  rw [h0, hbyte 1 (by decide), hbyte 2 (by decide), hbyte 3 (by decide)]
  rfl

/-- A frame of four zeros under a word `w`, with its address in `kernel_sp`. -/
theorem savedIn_frame {sp w : Nat} (hlow : k.kernelStack ≤ sp) (hhigh : sp + 20 ≤ k.top)
    (htop : k.top ≤ wordModulus) (hcell : k.cell + 4 ≤ k.kernelStack ∨ k.top ≤ k.cell)
    (hw : read32 mem (sp + 16) = w) :
    SavedIn k (write32 (copy mem sp 16 zero) k.cell sp)
      ⟨(sp + 20) % wordModulus, 0, 0, 0, 0, w⟩ := by
  have hsp : read32 (write32 (copy mem sp 16 zero) k.cell sp) k.cell = sp :=
    read32_write32 _ _ (by simp only [wordModulus] at htop; omega)
  have hzero : ∀ i, i + 4 ≤ 16 →
      read32 (write32 (copy mem sp 16 zero) k.cell sp) (sp + i) = 0 := by
    intro i hi
    rw [read32_write32_of_disjoint (by omega)]
    exact read32_copy_zero hi
  refine ⟨hsp.symm ▸ hlow, hsp.symm ▸ hhigh, hsp.symm ▸ ⟨hzero 0 (by decide), hzero 4 (by decide),
    hzero 8 (by decide), hzero 12 (by decide), ?_, rfl⟩⟩
  rw [← hw, read32_write32_of_disjoint (by omega)]
  exact read32_congr fun i hi => copy_of_not_mem _ (by omega)

/-- `thread_create` and `scheduler_start` leave the new thread ready for its first switch. -/
theorem suspended_firstFrame (code : CodeAddresses) (mem : Block) (frame : FirstFrame)
    (htop : k.top ≤ wordModulus) (hcell : k.cell + 4 ≤ k.kernelStack ∨ k.top ≤ k.cell) :
    Suspended code k (firstFrame code k mem frame) (.created t frame) := by
  obtain ⟨hbootstrap, hexit, hidle⟩ := code.word
  have hsize : k.top = k.kernelStack + 0x4000 := rfl
  cases frame with
  | thread =>
      have hsp : k.top - 24 + 16 = k.top - 8 := by omega
      refine ⟨_, savedIn_frame (w := code.threadBootstrap) (by omega) (by omega) htop hcell ?_, rfl,
        ?_, ?_⟩
      · rw [hsp]
        exact read32_write32 _ _ hbootstrap
      · have hread : read32 (firstFrame code k mem .thread) k.cell = k.top - 24 :=
          read32_write32 _ _ (by simp only [wordModulus] at htop; omega)
        rw [hread]
        omega
      · unfold firstFrame
        simp only []
        rw [read32_write32_of_disjoint (by omega)]
        have hcopy : read32 (copy (write32 (write32 mem (k.top - 4) code.threadExit) (k.top - 8)
            code.threadBootstrap) (k.top - 24) 16 zero) (k.top - 4) =
            read32 (write32 (write32 mem (k.top - 4) code.threadExit) (k.top - 8)
              code.threadBootstrap) (k.top - 4) :=
          read32_congr fun i hi => copy_of_not_mem _ (by omega)
        rw [hcopy, read32_write32_of_disjoint (by omega)]
        exact read32_write32 _ _ hexit
  | idle =>
      have hsp : k.top - 20 + 16 = k.top - 4 := by omega
      refine ⟨_, savedIn_frame (w := code.schedulerIdleLoop) (by omega) (by omega) htop hcell ?_, rfl⟩
      rw [hsp]
      exact read32_write32 _ _ hidle

end Suspended

/-! ## Runs -/

section Runs

variable {code : CodeAddresses} {s s' : Switching} {es : List SwitchEvent} {e : SwitchEvent}
  {t next : Nat} {k l : KernelThread} {label : SwitchLabel}

theorem lastEvent_nil : lastEvent [] t = none := rfl

theorem lastEvent_snoc :
    lastEvent (es ++ [e]) t = if e.thread = t then some e else lastEvent es t := by
  unfold lastEvent
  rw [List.filter_append, List.filter_singleton]
  by_cases h : e.thread = t
  · rw [if_pos h, decide_eq_true h]
    exact List.getLast?_concat
  · rw [if_neg h, decide_eq_false h]
    exact congrArg List.getLast? (List.append_nil _)

/-- What a run keeps. -/
structure Tracked (code : CodeAddresses) (es : List SwitchEvent) (s : Switching) : Prop where
  fits : ∀ t k, s.threads t = some k →
    k.top ≤ wordModulus ∧ (k.cell + 4 ≤ k.kernelStack ∨ k.top ≤ k.cell)
  apart : ∀ t u k l, t ≠ u → s.threads t = some k → s.threads u = some l → Switching.Apart k l
  suspended : ∀ t k, s.threads t = some k → s.current ≠ some t →
    ∃ e, lastEvent es t = some e ∧ Suspended code k s.cpu.mem e

theorem Tracked.compute {cpu : Cpu} (h : Tracked code es s) (hok : s.Permitted (.compute cpu)) :
    Tracked code es { s with cpu := cpu } := by
  refine ⟨h.fits, h.apart, fun t k hk hcurrent => ?_⟩
  obtain ⟨e, hlast, hsuspended⟩ := h.suspended t k hk hcurrent
  obtain ⟨hcell, hstack⟩ := hok t k hk
  exact ⟨e, hlast, hsuspended.congr (hstack hcurrent) hcell⟩

theorem Tracked.create {frame : FirstFrame} (h : Tracked code es s)
    (hok : s.Permitted (.create t k frame)) :
    Tracked code (es ++ [.created t frame]) { s with
      cpu := { s.cpu with mem := firstFrame code k s.cpu.mem frame }
      threads := Function.update s.threads t (some k) } := by
  obtain ⟨hnew, htop, hcell, hapart⟩ := hok
  have hold : ∀ u l, u ≠ t → Function.update s.threads t (some k) u = some l →
      s.threads u = some l := by
    intro u l hu hl
    rwa [Function.update_of_ne hu] at hl
  have hself : ∀ l, Function.update s.threads t (some k) t = some l → l = k := by
    intro l hl
    rw [Function.update_self] at hl
    exact (Option.some.inj hl).symm
  refine ⟨fun u l hl => ?_, fun u v l l' huv hl hl' => ?_, fun u l hl hcurrent => ?_⟩
  · by_cases hu : u = t
    · subst hu
      cases hself l hl
      exact ⟨htop, hcell⟩
    · exact h.fits u l (hold u l hu hl)
  · by_cases hu : u = t
    · subst hu
      cases hself l hl
      exact hapart v l' (hold v l' huv.symm hl')
    · by_cases hv : v = t
      · subst hv
        cases hself l' hl'
        obtain ⟨hstacks, hcells, hleft, hright⟩ := hapart u l (hold u l hu hl)
        exact ⟨hstacks.symm, hcells.symm, hright, hleft⟩
      · exact h.apart u v l l' huv (hold u l hu hl) (hold v l' hv hl')
  · rw [lastEvent_snoc]
    by_cases hu : u = t
    · subst hu
      cases hself l hl
      exact ⟨_, if_pos rfl, suspended_firstFrame code s.cpu.mem frame htop hcell⟩
    · obtain ⟨e, hlast, hsuspended⟩ := h.suspended u l (hold u l hu hl) hcurrent
      obtain ⟨hstacks, hcells, hleft, hright⟩ := hapart u l (hold u l hu hl)
      refine ⟨e, (if_neg fun heq => hu heq.symm).trans hlast, hsuspended.congr ?_ ?_⟩
      · rintro x ⟨hlo, hhi⟩
        refine firstFrame_of_not_mem code s.cpu.mem frame ?_ ?_
        · rintro ⟨hlo', hhi'⟩
          omega
        · rintro ⟨hlo', hhi'⟩
          omega
      · rintro x ⟨hlo, hhi⟩
        refine firstFrame_of_not_mem code s.cpu.mem frame ?_ ?_
        · rintro ⟨hlo', hhi'⟩
          omega
        · rintro ⟨hlo', hhi'⟩
          omega

/-- `context_switch`: the next thread continues, and the one that called it is suspended. -/
theorem Tracked.switch (h : Tracked code es s) (hok : s.Permitted (.switch next)) :
    Resumes code es next (s.cpu.run contextSwitch) ∧
      Tracked code (es ++ s.observe (.switch next))
        { s with cpu := s.cpu.run contextSwitch, current := some next } := by
  obtain ⟨t, k, l, hcurrent, hne, hk, hl, hlow, hhigh, hcellArg, hspArg⟩ := hok
  obtain ⟨htop, hcell⟩ := h.fits t k hk
  obtain ⟨hltop, -⟩ := h.fits next l hl
  obtain ⟨hstacks, hcells, hleft, hright⟩ := h.apart t next k l hne hk hl
  have hnotCurrent : s.current ≠ some next := by
    rw [hcurrent]
    exact fun heq => hne (Option.some.inj heq)
  obtain ⟨e, hlast, hsuspended⟩ := h.suspended next l hl hnotCurrent
  obtain ⟨ctx, hctx⟩ := hsuspended.context
  have hlow' := hctx.low
  have hhigh' := hctx.high
  obtain ⟨hcontext, hsaved, hsp, hframe⟩ := contextSwitch_spec (by omega) (by omega)
    hcellArg hspArg (by omega) hctx.saved (by omega) (by omega) (by omega)
  have hobserve : s.observe (.switch next) = [.called t s.cpu.caller] := by
    unfold Switching.observe
    rw [hcurrent]
    rfl
  rw [hobserve]
  refine ⟨⟨e, hlast, hsuspended.continues hltop hctx hcontext fun x ⟨hlo, hhi⟩ =>
    hframe x (by omega) (by omega)⟩, h.fits, h.apart, fun u m hm hnext => ?_⟩
  rw [lastEvent_snoc]
  by_cases hu : t = u
  · subst hu
    cases Option.some.inj (hk.symm.trans hm)
    refine ⟨_, if_pos rfl, ?_, ?_, ?_⟩
    · rw [hsp]
      omega
    · rw [hsp]
      omega
    · rw [hsp]
      exact hsaved
  · have hsuspended' : s.current ≠ some u := by
      rw [hcurrent]
      exact fun heq => hu (Option.some.inj heq)
    obtain ⟨e', hlast', hsus'⟩ := h.suspended u m hm hsuspended'
    obtain ⟨hstacks', hcells', hleft', hright'⟩ := h.apart t u k m hu hk hm
    refine ⟨e', (if_neg hu).trans hlast', hsus'.congr ?_ ?_⟩
    · rintro x ⟨hlo, hhi⟩
      exact hframe x (by omega) (by omega)
    · rintro x ⟨hlo, hhi⟩
      exact hframe x (by omega) (by omega)

/-- `scheduler_enter_idle`: the idle thread continues, and nobody is suspended. -/
theorem Tracked.enterIdle (h : Tracked code es s) (hok : s.Permitted (.enterIdle next)) :
    Resumes code es next (s.cpu.run schedulerEnterIdle) ∧
      Tracked code (es ++ []) { s with cpu := s.cpu.run schedulerEnterIdle, current := some next } := by
  obtain ⟨hcurrent, l, hl, hesp, hspArg⟩ := hok
  obtain ⟨hltop, -⟩ := h.fits next l hl
  have hnotCurrent : ∀ u, s.current ≠ some u := by
    intro u
    rw [hcurrent]
    intro heq
    cases heq
  obtain ⟨e, hlast, hsuspended⟩ := h.suspended next l hl (hnotCurrent next)
  obtain ⟨ctx, hctx⟩ := hsuspended.context
  have hhigh := hctx.high
  obtain ⟨hcontext, hmem⟩ := schedulerEnterIdle_spec hesp hspArg hctx.saved (by omega)
  rw [List.append_nil]
  refine ⟨⟨e, hlast, hsuspended.continues hltop hctx hcontext fun x _ => by rw [hmem]⟩, h.fits,
    h.apart, fun u m hm _ => ?_⟩
  rw [hmem]
  exact h.suspended u m hm (hnotCurrent u)

theorem Tracked.step (h : Tracked code es s) (hok : s.Permitted label)
    (hstep : s.step code label = some s') : Tracked code (es ++ s.observe label) s' := by
  cases label with
  | compute cpu =>
      cases hstep
      exact (List.append_nil es).symm ▸ h.compute hok
  | create t k frame =>
      cases hstep
      exact h.create hok
  | switch next =>
      cases hstep
      exact (h.switch hok).2
  | enterIdle idle =>
      cases hstep
      exact (h.enterIdle hok).2

theorem tracked_of_run {cpu : Cpu}
    (hrun : Observed (Switching.step code) Switching.Permitted Switching.observe (.boot cpu) es s) :
    Tracked code es s := by
  refine hrun.invariant (I := Tracked code) ⟨?_, ?_, ?_⟩ fun h hok hstep => h.step hok hstep
  · intro t k hk
    cases hk
  · intro t u k l _ hk
    cases hk
  · intro t k hk
    cases hk

end Runs

/-- In every run each switch to a thread continues it with `esp`, `ebp`, `ebx`, `esi`, `edi` and the
return address it had when it last called `context_switch`, or, the first time, enters
`thread_bootstrap` with `thread_exit` as its return address (the idle thread `scheduler_idle_loop`). -/
theorem context_preserved (code : CodeAddresses) {cpu : Cpu} {es : List SwitchEvent}
    {s s' : Switching} {next : Nat} {label : SwitchLabel}
    (hrun : Observed (Switching.step code) Switching.Permitted Switching.observe (.boot cpu) es s)
    (hlabel : label = .switch next ∨ label = .enterIdle next) (hok : s.Permitted label)
    (hstep : s.step code label = some s') : Resumes code es next s'.cpu := by
  have h := tracked_of_run hrun
  rcases hlabel with rfl | rfl
  · cases hstep
    exact (h.switch hok).1
  · cases hstep
    exact (h.enterIdle hok).1

namespace Switching

/-- The idle thread and a thread, and code addresses. -/
def idleSample : KernelThread := { kernelStack := 0x10000, cell := 0x2000 }
def threadSample : KernelThread := { kernelStack := 0x20000, cell := 0x2004 }
def codeSample : CodeAddresses := ⟨0x100, 0x200, 0x300, by decide⟩

/-- The boot code is about to call `scheduler_enter_idle`. -/
def bootSample : Cpu where
  reg _ := 0x1000
  eip := 0
  mem := write32 zero 0x1004 0x13FEC
  word _ := by decide

/-- Both threads are created and the idle thread is entered. -/
def idleEntered : Cpu :=
  let mem := firstFrame codeSample idleSample bootSample.mem .idle
  Cpu.run { bootSample with mem := firstFrame codeSample threadSample mem .thread } schedulerEnterIdle

/-- The idle thread has called `context_switch`. -/
def switchCalled : Cpu :=
  ((idleEntered.set .esp 0x13F00).write 0x13F04 0x2000).write 0x13F08 0x23FE8

end Switching

open Switching in
/-- The idle thread switches to a new thread, which enters `thread_bootstrap`. -/
theorem context_preserved_first : ∃ es s s',
    Observed (Switching.step codeSample) Switching.Permitted Switching.observe (.boot bootSample) es s ∧
    s.Permitted (.switch 1) ∧ s.step codeSample (.switch 1) = some s' ∧ s'.cpu.eip = 0x100 := by
  have hboot : Observed (Switching.step codeSample) Switching.Permitted Switching.observe
      (.boot bootSample) [] (.boot bootSample) := .nil
  have hfirst := hboot.snoc (l := .create 0 idleSample .idle)
    (show Permitted _ (.create 0 idleSample .idle) from ⟨rfl, by decide, by decide, fun u l hl => by cases hl⟩) rfl
  have hsecond := hfirst.snoc (l := .create 1 threadSample .thread)
    (show Permitted _ (.create 1 threadSample .thread) from ⟨rfl, by decide, by decide, fun u l hl => by
      by_cases hu : u = 0
      · subst hu
        cases Option.some.inj hl
        exact ⟨by decide, by decide, by decide, by decide⟩
      · have hnone : (none : Option KernelThread) = some l :=
          (Function.update_of_ne hu _ _).symm.trans hl
        cases hnone⟩) rfl
  have hidle := hsecond.snoc (l := .enterIdle 0)
    (show Permitted _ (.enterIdle 0) from ⟨rfl, idleSample, rfl, by decide, by decide +kernel⟩) rfl
  have hcall := hidle.snoc (l := .compute switchCalled) (show Permitted _ (.compute switchCalled) from fun t k hk => by
    have hout : ∀ x, (x < 0x13F04 ∨ 0x13F0C ≤ x) → switchCalled.mem x = idleEntered.mem x := by
      intro x hx
      exact (write32_of_not_mem (by omega)).trans (write32_of_not_mem (by omega))
    by_cases h1 : t = 1
    · subst h1
      cases hk
      exact ⟨fun x ⟨hlo, hhi⟩ => hout x (by simp only [threadSample] at hlo hhi; omega),
        fun _ x ⟨hlo, _⟩ => hout x (by simp only [threadSample] at hlo; omega)⟩
    · by_cases h0 : t = 0
      · subst h0
        cases hk
        exact ⟨fun x ⟨hlo, hhi⟩ => hout x (by simp only [idleSample] at hlo hhi; omega),
          fun hne => absurd rfl hne⟩
      · have hnone : (none : Option KernelThread) = some k :=
          ((Function.update_of_ne h1 _ _).trans (Function.update_of_ne h0 _ _)).symm.trans hk
        cases hnone) rfl
  have hok : Permitted ⟨switchCalled, some 0, Function.update (Function.update (fun _ => none) 0
      (some idleSample)) 1 (some threadSample)⟩ (.switch 1) :=
    ⟨0, idleSample, threadSample, rfl, by decide, rfl, rfl, by decide, by decide, by decide +kernel,
      by decide +kernel⟩
  refine ⟨_, _, _, hcall, hok, rfl, ?_⟩
  obtain ⟨e, hlast, hcontinues⟩ := context_preserved codeSample hcall (.inl rfl) hok rfl
  cases hlast
  exact hcontinues.1

end Neox
