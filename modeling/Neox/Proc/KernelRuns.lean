import Neox.Lib.Run
import Neox.Mm.HeapFailure
import Neox.Mm.Reclaim
import Neox.Proc.KernelThreads

/-!
# Runs of the kernel's memory

After `scheduler_start` the heap, the threads and the processes take memory and give it back, in any
order. Of the region of the kernel stacks exactly those slots are taken and mapped that a thread has, and
the first one, which is the idle thread's: so the page behind the heap's region is always mapped, and the
heap ends before it.
-/

namespace Neox

open Pmm Checked

variable {m m' : Mm} {use use' : Nat → Use} {d f v i slot a : Nat} {live live' : Nat → Prop}

/-! ## The stacks' pages and page tables -/

/-- The pages of the region of the kernel stacks. -/
def StackPage (v : Nat) : Prop := kernelStacksStart / pageSize ≤ v ∧ v ≤ kernelStacksEnd / pageSize

/-- The page tables of the region. -/
def StackTable (i : Nat) : Prop :=
  kernelStacksStart / pageSize / 1024 ≤ i ∧ i ≤ kernelStacksEnd / pageSize / 1024

/-- The stacks are made of the same frames. -/
structure SameStacks (k : Nat) (use use' : Nat → Use) : Prop where
  page : ∀ f v, StackPage v → (use' f = .page k v ↔ use f = .page k v)
  table : ∀ f i, StackTable i → (use' f = .table k i ↔ use f = .table k i)

theorem stackPage_slot (hslot : slot < kernelStackCount)
    (h : firstPages (stackSlot slot) kernelStackPages v) : StackPage v := by
  unfold firstPages stackSlot at h
  unfold StackPage
  simp only [kernelStacksStart, kernelStacksEnd, kernelStackSize, kernelStackPages, kernelStackCount,
    pageSize] at *
  omega

theorem stackTable_slot (hslot : slot < kernelStackCount) :
    StackTable (stackSlot slot / pageSize / 1024) := by
  unfold StackTable stackSlot
  simp only [kernelStacksStart, kernelStacksEnd, kernelStackSize, kernelStackCount, pageSize] at *
  omega

/-- Every page of the region is in a slot. -/
theorem slot_of_stackPage (h : StackPage v) :
    ∃ slot < kernelStackCount, firstPages (stackSlot slot) kernelStackPages v := by
  unfold StackPage at h
  refine ⟨(v - kernelStacksStart / pageSize) / kernelStackPages, ?_, ?_⟩
  · simp only [kernelStacksStart, kernelStacksEnd, kernelStackSize, kernelStackPages, kernelStackCount,
      pageSize] at *
    omega
  · unfold firstPages stackSlot
    simp only [kernelStacksStart, kernelStacksEnd, kernelStackSize, kernelStackPages, pageSize] at *
    omega

/-- Every page table of the region is one of a slot. -/
theorem slot_of_stackTable (h : StackTable i) :
    ∃ slot < kernelStackCount, stackSlot slot / pageSize / 1024 = i := by
  unfold StackTable at h
  refine ⟨(i - kernelStacksStart / pageSize / 1024) * 256, ?_, ?_⟩
  · simp only [kernelStacksStart, kernelStacksEnd, kernelStackSize, kernelStackCount, pageSize] at *
    omega
  · unfold stackSlot
    simp only [kernelStacksStart, kernelStacksEnd, kernelStackSize, pageSize] at *
    omega

theorem stackPage_fence : StackPage (kernelStacksStart / pageSize) := by
  unfold StackPage
  exact ⟨Nat.le_refl _, by decide⟩

theorem SameStacks.refl (k : Nat) (use : Nat → Use) : SameStacks k use use :=
  ⟨fun _ _ _ => Iff.rfl, fun _ _ _ => Iff.rfl⟩

/-- The heap is elsewhere. -/
theorem not_ofHeap_page {k lo hi : Nat} (hhi : hi ≤ kernelHeapEnd + 1) (hv : StackPage v) :
    ¬ OfHeap k lo hi (.page d v) :=
  fun h => Nat.not_lt.mpr hv.1 (h.below hhi)

theorem not_ofHeap_table {k lo hi : Nat} (hhi : hi ≤ kernelHeapEnd + 1) (hi' : StackTable i) :
    ¬ OfHeap k lo hi (.table d i) :=
  fun h => Nat.not_lt.mpr hi'.1 (h.table_below hhi)

/-- What maps pages of another directory, or only makes the heap grow, does not touch the stacks. -/
theorem Overlay.sameStacks {pages : Nat → Prop} (h : Overlay d m use pages m' use')
    (hin : HeapEndIn m') (k : Nat) (hd : ∀ v, pages v → d ≠ k) : SameStacks k use use' := by
  refine ⟨fun f v hv => h.use_iff (by simp) ⟨fun w hw heq => ?_, fun w hw heq => ?_⟩
    (not_ofHeap_page hin.2 hv), fun f i hi => h.use_iff (by simp) ⟨fun w hw heq => ?_, fun w hw heq => ?_⟩
    (not_ofHeap_table hin.2 hi)⟩
  · injection heq with hkd
    exact hd w hw hkd.symm
  · cases heq
  · cases heq
  · injection heq with hkd
    exact hd w hw hkd.symm

/-- Work on the pages of other directories. -/
theorem Local.sameStacks {R : Region} (h : Local R m use m' use') {k : Nat} (hR : ∀ v, ¬ R k v) :
    SameStacks k use use' := by
  refine ⟨fun f v _ => h.keeps_iff (hR v), fun f i _ => h.keeps_iff ?_⟩
  rintro ⟨v, hv, -⟩
  exact hR v hv

/-! ## The memory of the stacks -/

/-- The slots that are taken and mapped are the first one and those with a thread, and a page table of
the region has a page. -/
structure StackMemory (m : Mm) (use : Nat → Use) (live : Nat → Prop) : Prop where
  ready : HeapReady m use
  blocks : ∃ a, Blocks a m.heap m.heapEnd
  live_lt : ∀ slot, live slot → slot ≠ 0 ∧ slot < kernelStackCount
  slots : ∀ slot < kernelStackCount, m.stackSlots slot = true ↔ slot = 0 ∨ live slot
  mapped : ∀ slot < kernelStackCount, slot ≠ 0 → ∀ v, firstPages (stackSlot slot) kernelStackPages v →
    ((∃ f, use f = .page m.kernelDirectory v) ↔ live slot)
  tables : ∀ i, StackTable i → NotEmpty use m.kernelDirectory i

theorem StackMemory.freeVacant (h : StackMemory m use live) : FreeVacant m use := by
  intro slot hslot hfree
  have hnot : ¬ (slot = 0 ∨ live slot) := by
    rw [← h.slots slot hslot, hfree]
    decide
  rw [not_or] at hnot
  refine ⟨hslot, fun v hv g hg => ?_, h.tables _ (stackTable_slot hslot)⟩
  exact hnot.2 ((h.mapped slot hslot hnot.1 v hv).mp ⟨g, hg⟩)

theorem SameStacks.notEmpty {k : Nat} (h : SameStacks k use use') (hi : StackTable i)
    (hne : NotEmpty use k i) : NotEmpty use' k i := by
  intro t ht
  obtain ⟨f, v, hf, hv⟩ := hne t ((h.table t i hi).mp ht)
  have hpage : StackPage v := by
    unfold StackTable StackPage at *
    simp only [kernelStacksStart, kernelStacksEnd, pageSize] at *
    omega
  exact ⟨f, v, (h.page f v hpage).mpr hf, hv⟩

/-- A step that leaves the stacks alone. -/
theorem StackMemory.keep (h : StackMemory m use live) (hr : HeapReady m' use')
    (hb : ∃ a, Blocks a m'.heap m'.heapEnd) (hk : m'.kernelDirectory = m.kernelDirectory)
    (hslots : m'.stackSlots = m.stackSlots) (hsame : SameStacks m.kernelDirectory use use') :
    StackMemory m' use' live where
  ready := hr
  blocks := hb
  live_lt := h.live_lt
  slots := hslots ▸ h.slots
  mapped slot hslot hne v hv := by
    rw [hk, ← h.mapped slot hslot hne v hv]
    exact exists_congr fun f => hsame.page f v (stackPage_slot hslot hv)
  tables i hi := by
    rw [hk]
    exact hsame.notEmpty hi (h.tables i hi)

/-- A step that leaves the heap's fields alone as well. -/
theorem StackMemory.elsewhere (h : StackMemory m use live) (hu : Uses m' use')
    (hk : m'.kernelDirectory = m.kernelDirectory) (hvirtual : SameVirtual m m')
    (hsame : SameStacks m.kernelDirectory use use') : StackMemory m' use' live := by
  obtain ⟨f, hf⟩ := h.ready.fence
  refine h.keep ⟨hu, hvirtual.heap ▸ h.ready.heap, hvirtual.heapEnd ▸ h.ready.aligned, ?_, f, ?_⟩ ?_ hk
    hvirtual.stackSlots hsame
  · unfold HeapEndIn
    rw [hvirtual.heapEnd]
    exact h.ready.region
  · rw [hk]
    exact (hsame.page f _ stackPage_fence).mpr hf
  · rw [hvirtual.heap, hvirtual.heapEnd]
    exact h.blocks

/-- After `scheduler_start` no slot but the first is used. -/
theorem Started.stackMemory (h : Started m use) : StackMemory m use fun _ => False where
  ready := h.ready
  blocks := h.blocks
  live_lt slot hlive := hlive.elim
  slots slot _ := by
    rw [h.slots, or_false]
    by_cases hzero : slot = 0
    · simp [hzero]
    · simp [hzero]
  mapped slot hslot hne v hv := by
    rw [iff_false]
    rintro ⟨f, hf⟩
    have hlow := (stackPage_slot hslot hv).1
    have hlt := h.page f v hf hlow
    have habove := hv.1
    unfold stackSlot at habove
    simp only [kernelStacksStart, kernelStackSize, pageSize] at *
    omega
  tables i hi t ht := by
    obtain ⟨f, hf⟩ := h.ready.fence
    exact ⟨f, _, hf, (h.table t i ht hi.1).symm⟩

section Threads

variable {k k' : Kernel} {p : ProcessId} {t : ThreadId} {block : Nat}

/-- Nothing is left of a `thread_create` that failed. -/
theorem StackMemory.notCreated (h : StackMemory k.mm use live) (hc : NotCreated a k use k' use') :
    StackMemory k'.mm use' live :=
  h.keep hc.ready ⟨a, hc.blocks⟩ hc.overlay.kernelDirectory hc.stackSlots
    (hc.overlay.sameStacks hc.ready.region _ fun _ hv => hv.elim)

/-- Where a page of the stacks is after `thread_create`. -/
theorem Created.page_iff (hc : Created a k use p slot block k' use') (hv : StackPage v) :
    use' f = .page k.mm.kernelDirectory v ↔ use f = .page k.mm.kernelDirectory v ∨
      use f = .free ∧ use' f = .page k.mm.kernelDirectory v ∧
        firstPages (stackSlot slot) kernelStackPages v := by
  constructor
  · intro hf
    by_cases hfree : use f = .free
    · refine .inr ⟨hfree, hf, ?_⟩
      rcases hc.overlay.spent f hfree with h | ⟨w, hw, h⟩ | ⟨w, -, h⟩ | h
      · rw [hf] at h
        cases h
      · rw [hf] at h
        injection h with _ hvw
        exact hvw ▸ hw
      · rw [hf] at h
        cases h
      · exact absurd (hf ▸ h) (not_ofHeap_page hc.ready.region.2 hv)
    · exact .inl ((hc.overlay.kept f hfree).symm.trans hf)
  · intro hf
    rcases hf with hf | ⟨-, hf, -⟩
    · exact (hc.overlay.kept f (by rw [hf]; simp)).trans hf
    · exact hf

/-- A new thread's slot is taken and mapped. -/
theorem StackMemory.created (h : StackMemory k.mm use live)
    (hc : Created a k use p slot block k' use') :
    StackMemory k'.mm use' fun s => s = slot ∨ live s := by
  have hk := hc.overlay.kernelDirectory
  have hne := hc.vacant.ne_zero h.ready
  refine ⟨hc.ready, ⟨a, hc.blocks⟩, fun s hs => ?_, fun s hs => ?_, fun s hs hs0 v hv => ?_,
    fun i hi t ht => ?_⟩
  · rcases hs with rfl | hs
    · exact ⟨hne, hc.vacant.lt⟩
    · exact h.live_lt s hs
  · rw [hc.stackSlots]
    by_cases heq : s = slot
    · subst heq
      simp
    · rw [Function.update_of_ne heq, h.slots s hs]
      simp [heq]
  · rw [hk]
    have hpage := stackPage_slot hs hv
    constructor
    · intro hf
      obtain ⟨f, hf⟩ := hf
      rcases (hc.page_iff hpage).mp hf with hold | ⟨-, -, hnew⟩
      · exact .inr ((h.mapped s hs hs0 v hv).mp ⟨f, hold⟩)
      · exact .inl (firstPages_slot hv hnew)
    · intro hs
      rcases hs with rfl | hs
      · obtain ⟨f, -, hf⟩ := hc.overlay.mapped v hv
        exact ⟨f, hf⟩
      · obtain ⟨f, hf⟩ := (h.mapped s (h.live_lt s hs).2 hs0 v hv).mpr hs
        exact ⟨f, (hc.page_iff hpage).mpr (.inl hf)⟩
  · rw [hk] at ht ⊢
    by_cases hfree : use t = .free
    · -- A new page table has a page of the new stack.
      rcases hc.overlay.spent t hfree with h' | ⟨w, -, h'⟩ | ⟨w, hw, h'⟩ | h'
      · rw [ht] at h'
        cases h'
      · rw [ht] at h'
        cases h'
      · rw [ht] at h'
        injection h' with _ hiw
        obtain ⟨f, -, hf⟩ := hc.overlay.mapped w hw
        exact ⟨f, w, hf, hiw.symm⟩
      · exact absurd (ht ▸ h') (not_ofHeap_table hc.ready.region.2 hi)
    · have hkept := hc.overlay.kept t hfree
      obtain ⟨f, v, hf, hv⟩ := h.tables i hi t (hkept.symm.trans ht)
      exact ⟨f, v, (hc.overlay.kept f (by rw [hf]; simp)).trans hf, hv⟩

/-- Where the pages of the kernel's directory are after `thread_destroy`. -/
theorem Vacated.page_iff {k n : Nat} (hv : Vacated k slot n use use') :
    use' f = .page k v ↔ use f = .page k v ∧ ¬ firstPages (stackSlot slot) n v := by
  constructor
  · intro hf
    by_cases hold : ∃ w, firstPages (stackSlot slot) n w ∧ use f = .page k w
    · obtain ⟨w, hw, hold⟩ := hold
      rw [hv.old w f hw hold] at hf
      cases hf
    · have hother : ∀ w, firstPages (stackSlot slot) n w → use f ≠ .page k w :=
        fun w hw heq => hold ⟨w, hw, heq⟩
      rcases hv.rest f hother with hsame | ⟨-, hfree⟩
      · have hbefore := hsame.symm.trans hf
        exact ⟨hbefore, fun hw => hother v hw hbefore⟩
      · rw [hfree] at hf
        cases hf
  · intro hf
    have hother : ∀ w, firstPages (stackSlot slot) n w → use f ≠ .page k w := by
      intro w hw heq
      rw [hf.1] at heq
      injection heq with _ hvw
      exact hf.2 (hvw ▸ hw)
    rcases hv.rest f hother with hsame | ⟨htable, -⟩
    · exact hsame.trans hf.1
    · rw [hf.1] at htable
      cases htable

/-- A thread that is gone has left its slot, and with it a page table that has no other page. -/
theorem StackMemory.released (h : StackMemory k.mm use live) (hslot : slot < kernelStackCount)
    (hne : slot ≠ 0) (hr : Released a k use t slot k' use') :
    StackMemory k'.mm use' fun s => live s ∧ s ≠ slot := by
  have hk := hr.here.kernelDirectory
  refine ⟨hr.ready, ⟨a, hr.blocks⟩, fun s hs => h.live_lt s hs.1, fun s hs => ?_,
    fun s hs hs0 v hv => ?_, fun i hi t' ht => ?_⟩
  · rw [hr.stackSlots]
    by_cases heq : s = slot
    · subst heq
      simp [hne]
    · rw [Function.update_of_ne heq, h.slots s hs]
      simp [heq]
  · rw [hk, ← h.mapped s hs hs0 v hv]
    constructor
    · intro hf
      obtain ⟨f, hf⟩ := hf
      obtain ⟨hbefore, hnot⟩ := hr.vacated.page_iff.mp hf
      refine ⟨⟨f, hbefore⟩, ?_⟩
      rintro rfl
      exact hnot hv
    · intro hf
      obtain ⟨⟨f, hf⟩, hother⟩ := hf
      exact ⟨f, hr.vacated.page_iff.mpr ⟨hf, fun hw => hother (firstPages_slot hv hw)⟩⟩
  · rw [hk] at ht ⊢
    by_cases heq : i = stackSlot slot / pageSize / 1024
    · subst heq
      exact hr.vacated.left (by decide) t' ht
    · have hbefore : use t' = .table k.mm.kernelDirectory i := by
        by_cases hold : ∃ w, firstPages (stackSlot slot) kernelStackPages w ∧
            use t' = .page k.mm.kernelDirectory w
        · obtain ⟨w, hw, hold⟩ := hold
          rw [hr.vacated.old w t' hw hold] at ht
          cases ht
        · rcases hr.vacated.rest t' fun w hw heq => hold ⟨w, hw, heq⟩ with hsame | ⟨-, hfree⟩
          · exact hsame.symm.trans ht
          · rw [hfree] at ht
            cases ht
      obtain ⟨f, v, hf, hv⟩ := h.tables i hi t' hbefore
      refine ⟨f, v, hr.vacated.page_iff.mpr ⟨hf, fun hw => heq ?_⟩, hv⟩
      rw [← hv]
      exact firstPages_table hw

end Threads

/-! ## The system -/

/-- A call that takes or gives back memory of the kernel's. `userMap` and `userUnmap` are what the loader
and the user stacks do with a page of a process, `threadExit` marks a thread as terminated. -/
inductive MemoryCall where
  | kmalloc (size : Nat)
  | kfree (ptr : Nat)
  | processCreate
  | processDestroy (p : ProcessId)
  | userMap (p : ProcessId) (virt flags : Nat)
  | userUnmap (p : ProcessId) (virt : Nat)
  | threadCreate (p : ProcessId)
  | threadAdd (t : ThreadId)
  | threadExit (t : ThreadId)
  | threadDestroy (t : ThreadId)
  deriving DecidableEq, Repr

/-- The kernel, and the blocks that callers of `kmalloc` have got and not freed yet. -/
structure KernelState where
  kernel : Kernel
  held : List Nat

/-- `pmm_alloc_page` and `paging_map`. -/
def mapUserPage (m : Mm) (directory virt flags : Nat) : Except Stop Mm :=
  let (phys, m) := m.allocPage
  if phys = 0 then return m
  else pagingMap m directory virt phys flags

def MemoryCall.run (s : KernelState) : MemoryCall → Except Stop KernelState
  | .kmalloc size => do
      let (ptr, mm) ← Neox.kmalloc s.kernel.mm size
      return { kernel := { s.kernel with mm := mm }, held := if ptr = 0 then s.held else ptr :: s.held }
  | .kfree ptr => do
      let mm ← Neox.kfree s.kernel.mm ptr
      return { kernel := { s.kernel with mm := mm }, held := s.held.erase ptr }
  | .processCreate => do
      let (_, kernel) ← Neox.processCreate s.kernel
      return { s with kernel := kernel }
  | .processDestroy p => do
      let kernel ← Neox.processDestroy s.kernel p
      return { s with kernel := kernel }
  | .userMap p virt flags => do
      let mm ← mapUserPage s.kernel.mm (s.kernel.processes p).pageDirectory virt flags
      return { s with kernel := { s.kernel with mm := mm } }
  | .userUnmap p virt => do
      let mm ← releaseUserPage s.kernel.mm (s.kernel.processes p).pageDirectory virt
      return { s with kernel := { s.kernel with mm := mm } }
  | .threadCreate p => do
      let (_, kernel) ← Neox.threadCreate s.kernel p
      return { s with kernel := kernel }
  | .threadAdd t => return { s with kernel := linkThread s.kernel t }
  | .threadExit t =>
      let thread := { s.kernel.threads t with terminated := true }
      return { s with kernel :=
        { s.kernel with threads := Function.update s.kernel.threads t thread } }
  | .threadDestroy t => do
      let kernel ← Neox.threadDestroy s.kernel t
      return { s with kernel := kernel }

def KernelState.step (s : KernelState) (c : MemoryCall) : Option KernelState := (c.run s).toOption

/-- The call is about a process and a thread that exist, and a user page is mapped as present. -/
def MemoryCall.valid (s : KernelState) : MemoryCall → Bool
  | .kmalloc _ | .kfree _ | .processCreate => true
  | .processDestroy p | .threadCreate p => decide (p ∈ s.kernel.pids)
  | .userMap p virt flags => decide (p ∈ s.kernel.pids) && decide (virt < kernelVirtBase) &&
      decide (flags < pageSize) && present flags
  | .userUnmap p virt => decide (p ∈ s.kernel.pids) && decide (virt < kernelVirtBase)
  | .threadAdd t | .threadExit t | .threadDestroy t => decide (t ∈ s.kernel.tids)

/-- A run of valid calls. -/
abbrev KernelRun := Transition.Run KernelState.step fun s c => c.valid s = true

theorem step_eq_some {s s' : KernelState} {c : MemoryCall} :
    s.step c = some s' ↔ c.run s = .ok s' := by
  unfold KernelState.step
  cases c.run s with
  | error e => simp [Except.toOption]
  | ok t => simp [Except.toOption]

/-! ## What every call keeps -/

/-- A thread has the slot. -/
def Kernel.hasStack (k : Kernel) (slot : Nat) : Prop :=
  ∃ t ∈ k.tids, (k.threads t).kernelStack = stackSlot slot

/-- The threads have stacks of their own and, here, no user stacks. -/
structure ThreadTable (k : Kernel) : Prop where
  nodup : k.tids.Nodup
  lt : ∀ t ∈ k.tids, t < k.nextTid
  stack : ∀ t ∈ k.tids, ∃ slot, (k.threads t).kernelStack = stackSlot slot
  plain : ∀ t ∈ k.tids, (k.threads t).userStack = 0 ∧ (k.threads t).usermodeDesc = 0 ∧
    (k.threads t).block ≠ 0
  distinct : ∀ t ∈ k.tids, ∀ u ∈ k.tids,
    (k.threads t).kernelStack = (k.threads u).kernelStack → t = u

/-- The processes have directories of their own. -/
structure ProcessTable (k : Kernel) (use : Nat → Use) : Prop where
  nodup : k.pids.Nodup
  lt : ∀ p ∈ k.pids, p < k.nextPid
  directory : ∀ p ∈ k.pids, use (k.processes p).pageDirectory = .directory ∧
    (k.processes p).pageDirectory ≠ k.mm.kernelDirectory
  distinct : ∀ p ∈ k.pids, ∀ q ∈ k.pids,
    (k.processes p).pageDirectory = (k.processes q).pageDirectory → p = q
  block : ∀ p ∈ k.pids, (k.processes p).block ≠ 0

structure KernelInv (k : Kernel) (use : Nat → Use) : Prop where
  memory : StackMemory k.mm use k.hasStack
  threads : ThreadTable k
  processes : ProcessTable k use

section Steps

variable {k k' : Kernel} {p : ProcessId} {t : ThreadId} {virt flags : Nat}

theorem StackMemory.congr (h : StackMemory m use live) (hlive : ∀ slot, live slot ↔ live' slot) :
    StackMemory m use live' := by
  have heq : live = live' := funext fun slot => propext (hlive slot)
  rwa [← heq]

/-- Memory has changed and the directories are still there. -/
theorem ProcessTable.keep (h : ProcessTable k use) (hk : m'.kernelDirectory = k.mm.kernelDirectory)
    (hdir : ∀ d, use d = .directory → use' d = .directory) : ProcessTable { k with mm := m' } use' where
  nodup := h.nodup
  lt := h.lt
  directory p hp := by
    obtain ⟨hd, hne⟩ := h.directory p hp
    exact ⟨hdir _ hd, fun heq => hne (heq.trans hk)⟩
  distinct := h.distinct
  block := h.block

/-- A step in which only memory changes. -/
theorem KernelInv.keep (h : KernelInv k use) (hm : StackMemory m' use' k.hasStack)
    (hk : m'.kernelDirectory = k.mm.kernelDirectory)
    (hdir : ∀ d, use d = .directory → use' d = .directory) :
    KernelInv { k with mm := m' } use' where
  memory := hm
  threads := ⟨h.threads.nodup, h.threads.lt, h.threads.stack, h.threads.plain, h.threads.distinct⟩
  processes := h.processes.keep hk hdir

theorem KernelInv.heapEnd_lt (h : KernelInv k use) : k.mm.heapEnd < wordModulus := by
  have hhigh := h.memory.ready.region.2
  simp only [kernelHeapEnd, wordModulus] at *
  omega

theorem Absorbs.directory (h : Absorbs m use m' use') (d : Nat) (hd : use d = .directory) :
    use' d = .directory :=
  (h.keeps (by rw [hd]; simp)).trans hd

/-- `kmalloc`. -/
theorem KernelInv.kmalloc {size ptr : Nat} (h : KernelInv k use)
    (hm : Neox.kmalloc k.mm size = .ok (ptr, m')) :
    ∃ use', KernelInv { k with mm := m' } use' ∧ Absorbs k.mm use m' use' := by
  obtain ⟨use', hready, habsorbs, hslots⟩ := h.memory.ready.kmalloc hm
  obtain ⟨a, hb⟩ := h.memory.blocks
  have hblocks := kmalloc_blocks hb h.heapEnd_lt hready.region hm
  refine ⟨use', h.keep ?_ habsorbs.kernelDirectory habsorbs.directory, habsorbs⟩
  exact h.memory.keep hready ⟨a, hblocks⟩ habsorbs.kernelDirectory hslots
    (habsorbs.overlay (d := k.mm.kernelDirectory).sameStacks hready.region _ fun _ hv => hv.elim)

/-- `kfree`. -/
theorem KernelInv.kfree {ptr : Nat} (h : KernelInv k use) (hm : Neox.kfree k.mm ptr = .ok m') :
    KernelInv { k with mm := m' } use := by
  have hready := h.memory.ready.kfree hm
  obtain ⟨a, hb⟩ := h.memory.blocks
  have hblocks : Blocks a m'.heap m'.heapEnd := by
    by_cases hptr : ptr = 0
    · rw [hptr] at hm
      cases pure_eq_ok.mp hm
      exact hb
    · obtain ⟨heap, rfl, hblocks, -⟩ := kfree_spec hptr hb hm
      exact hblocks
  obtain ⟨heap, rfl⟩ := kfree_frame hm
  exact h.keep (h.memory.keep hready ⟨a, hblocks⟩ rfl rfl (.refl _ _)) rfl fun _ => id

/-- Work on the pages of a process. -/
theorem KernelInv.userPages (h : KernelInv k use) (hd : d ≠ k.mm.kernelDirectory)
    (hlocal : Local (UserPages d) k.mm use m' use') (hsame : SameVirtual k.mm m') :
    KernelInv { k with mm := m' } use' := by
  apply h.keep
  · apply h.memory.elsewhere hlocal.uses hlocal.kernelDirectory hsame
    exact hlocal.sameStacks fun v hv => hd hv.1.symm
  · exact hlocal.kernelDirectory
  · exact fun d' => hlocal.directory.mpr

theorem mapUserPage_local (hu : Uses m use) (hd : use d = .directory) (hk : d ≠ m.kernelDirectory)
    (hvirt : virt < kernelVirtBase) (hflags : flags < pageSize) (hpres : present flags = true)
    (hm : mapUserPage m d virt flags = .ok m') :
    ∃ use', Local (UserPages d) m use m' use' ∧ SameVirtual m m' := by
  unfold mapUserPage at hm
  rcases halloc : m.allocPage with ⟨phys, m₁⟩
  rw [halloc] at hm
  dsimp only at hm
  have hsame := allocPage_virtual halloc
  rcases hu.take (R := UserPages d) halloc with ⟨rfl, hlocal⟩ | ⟨f, hf, rfl, hne, hlt, hlocal⟩
  · -- There is no frame.
    rw [if_pos rfl] at hm
    cases pure_eq_ok.mp hm
    exact ⟨use, hlocal, hsame⟩
  · rw [if_neg hne] at hm
    have hheld : Function.update use f .held (f * pageSize / pageSize) = .held := by
      rw [Nat.mul_div_cancel _ (by decide), Function.update_self]
    have ho : Owns m₁.kernelDirectory d (directoryIndex virt) := by
      rw [hlocal.kernelDirectory, owns_of_ne hk, directoryIndex_eq]
      exact userPage hvirt
    obtain ⟨use', hmapped, -⟩ := hlocal.uses.pagingMap (hlocal.directory.mpr hd) ho hheld hlt hflags
      hpres hm
    exact ⟨use', hlocal.trans (hmapped.mono (userPages_at hvirt)), hsame.trans (pagingMap_virtual hm)⟩

theorem releaseUserPage_local (hu : Uses m use) (hd : use d = .directory) (hk : d ≠ m.kernelDirectory)
    (hvirt : virt < kernelVirtBase) (hm : releaseUserPage m d virt = .ok m') :
    ∃ use', Local (UserPages d) m use m' use' ∧ SameVirtual m m' := by
  have ho : Owns m.kernelDirectory d (directoryIndex virt) := by
    rw [owns_of_ne hk, directoryIndex_eq]
    exact userPage hvirt
  obtain ⟨⟨use', hlocal, -⟩, -, hsame⟩ := hu.unmapFree hd ho hm
  exact ⟨use', hlocal.mono (userPages_at hvirt), hsame⟩

/-- A new directory. -/
theorem KernelInv.createDirectory (h : KernelInv k use)
    (hm : pagingCreateDirectory k.mm = .ok (some d, m')) :
    use d = .free ∧ KernelInv { k with mm := m' } (Function.update use d .directory) := by
  obtain ⟨hfree, hu, hk, -⟩ := h.memory.ready.uses.createDirectory hm
  have hkept : ∀ f u, u ≠ .free → u ≠ .directory →
      (Function.update use d .directory f = u ↔ use f = u) := fun f u hu hdir =>
    update_iff (fun heq => hu (heq.symm.trans hfree)) (Ne.symm hdir) f
  refine ⟨hfree, h.keep ?_ hk fun d' hd' => ?_⟩
  · apply h.memory.elsewhere hu hk (pagingCreateDirectory_virtual hm).1
    exact ⟨fun f v _ => hkept f _ (by simp) (by simp), fun f i _ => hkept f _ (by simp) (by simp)⟩
  · by_cases hne : d' = d
    · rw [hne, Function.update_self]
    · rw [Function.update_of_ne hne]
      exact hd'

/-- `pmm_alloc_page` has no frame for a directory. -/
theorem KernelInv.noDirectory (h : KernelInv k use)
    (hm : pagingCreateDirectory k.mm = .ok (none, m')) : KernelInv { k with mm := m' } use := by
  have hvirtual := (pagingCreateDirectory_virtual hm).1
  unfold pagingCreateDirectory at hm
  rcases halloc : k.mm.allocPage with ⟨phys, m₁⟩
  rw [halloc] at hm
  dsimp only at hm
  by_cases hp : phys = 0
  · rw [if_pos hp] at hm
    cases pure_eq_ok.mp hm
    rcases h.memory.ready.uses.take (R := At 0 0) halloc with ⟨-, hlocal⟩ | ⟨f, -, -, hne, -⟩
    · exact h.keep (h.memory.elsewhere hlocal.uses hlocal.kernelDirectory hvirtual (.refl _ _))
        hlocal.kernelDirectory fun _ => id
    · exact absurd hp hne
  · rw [if_neg hp] at hm
    obtain ⟨t, -, hm⟩ := bind_eq_ok.mp hm
    cases pure_eq_ok.mp hm

/-- A process that is not there yet. -/
theorem KernelInv.addProcess (h : KernelInv k use) {block : Nat} (hblock : block ≠ 0)
    (hd : use d = .directory) (hk : d ≠ k.mm.kernelDirectory)
    (hnew : ∀ p ∈ k.pids, (k.processes p).pageDirectory ≠ d) {process : ProcessMemory}
    (hprocess : process.pageDirectory = d ∧ process.block = block) :
    KernelInv { k.setProcess k.nextPid process with
      pids := k.pids ++ [k.nextPid], nextPid := k.nextPid + 1 } use := by
  obtain ⟨hdir, hpblock⟩ := hprocess
  have hold : ∀ p ∈ k.pids, Function.update k.processes k.nextPid process p = k.processes p := by
    intro p hp
    exact Function.update_of_ne (Nat.ne_of_lt (h.processes.lt p hp)) _ _
  have hself : Function.update k.processes k.nextPid process k.nextPid = process :=
    Function.update_self ..
  refine ⟨h.memory, ⟨h.threads.nodup, h.threads.lt, h.threads.stack, h.threads.plain,
    h.threads.distinct⟩, ?_, fun p hp => ?_, fun p hp => ?_, fun p hp q hq heq => ?_, fun p hp => ?_⟩
  · show (k.pids ++ [k.nextPid]).Nodup
    rw [List.nodup_append]
    refine ⟨h.processes.nodup, List.nodup_singleton _, fun p hp q hq heq => ?_⟩
    rw [List.mem_singleton.mp hq] at heq
    exact absurd heq (Nat.ne_of_lt (h.processes.lt p hp))
  · show p < k.nextPid + 1
    rcases List.mem_append.mp hp with hp | hp
    · exact Nat.lt_succ_of_lt (h.processes.lt p hp)
    · rw [List.mem_singleton.mp hp]
      exact Nat.lt_succ_self _
  · show use (Function.update k.processes k.nextPid process p).pageDirectory = _ ∧
      (Function.update k.processes k.nextPid process p).pageDirectory ≠ _
    rcases List.mem_append.mp hp with hp | hp
    · rw [hold p hp]
      exact h.processes.directory p hp
    · rw [List.mem_singleton.mp hp, hself, hdir]
      exact ⟨hd, hk⟩
  · change (Function.update k.processes k.nextPid process p).pageDirectory =
      (Function.update k.processes k.nextPid process q).pageDirectory at heq
    rcases List.mem_append.mp hp with hp | hp
    · rcases List.mem_append.mp hq with hq | hq
      · rw [hold p hp, hold q hq] at heq
        exact h.processes.distinct p hp q hq heq
      · rw [hold p hp, List.mem_singleton.mp hq, hself, hdir] at heq
        exact absurd heq (hnew p hp)
    · rcases List.mem_append.mp hq with hq | hq
      · rw [hold q hq, List.mem_singleton.mp hp, hself, hdir] at heq
        exact absurd heq.symm (hnew q hq)
      · rw [List.mem_singleton.mp hp, List.mem_singleton.mp hq]
  · show (Function.update k.processes k.nextPid process p).block ≠ 0
    rcases List.mem_append.mp hp with hp | hp
    · rw [hold p hp]
      exact h.processes.block p hp
    · rw [List.mem_singleton.mp hp, hself, hpblock]
      exact hblock

/-- `process_create`. -/
theorem KernelInv.processCreate {found : Option ProcessId} (h : KernelInv k use)
    (hm : Neox.processCreate k = .ok (found, k')) :
    ∃ use', KernelInv k' use' := by
  unfold Neox.processCreate at hm
  obtain ⟨⟨block, m₁⟩, hmalloc, hm⟩ := bind_eq_ok.mp hm
  obtain ⟨use₁, h₁, -⟩ := h.kmalloc hmalloc
  dsimp only at hm
  by_cases hblock : block = 0
  · rw [if_pos hblock] at hm
    cases pure_eq_ok.mp hm
    exact ⟨use₁, h₁⟩
  rw [if_neg hblock] at hm
  obtain ⟨⟨created, m₂⟩, hcreate, hm⟩ := bind_eq_ok.mp hm
  cases created with
  | none =>
      dsimp only at hm
      obtain ⟨m₃, hfree, hm⟩ := bind_eq_ok.mp hm
      cases pure_eq_ok.mp hm
      exact ⟨use₁, (h₁.noDirectory hcreate).kfree hfree⟩
  | some d =>
      cases pure_eq_ok.mp hm
      obtain ⟨hfree, h₂⟩ := h₁.createDirectory hcreate
      refine ⟨Function.update use₁ d .directory, h₂.addProcess hblock (Function.update_self ..) ?_ ?_
        ⟨rfl, rfl⟩⟩
      · show d ≠ m₂.kernelDirectory
        intro heq
        rw [heq, (pagingCreateDirectory_virtual hcreate).2, h₁.memory.ready.uses.kernel] at hfree
        cases hfree
      · intro p hp heq
        have hd := (h₁.processes.directory p hp).1
        rw [heq, hfree] at hd
        cases hd

/-- `process_destroy` gives back what the process's directory has. -/
theorem KernelInv.processDestroyed (h : KernelInv k use) (hp : p ∈ k.pids)
    (hm : Neox.processDestroy k p = .ok k') :
    KernelInv k' (without use (k.processes p).pageDirectory) ∧
      k' = { k with mm := k'.mm, pids := k.pids.erase p } ∧
      k'.mm.kernelDirectory = k.mm.kernelDirectory ∧ k'.mm.heapEnd = k.mm.heapEnd := by
  unfold Neox.processDestroy at hm
  by_cases hthreads : (k.processes p).threads ≠ []
  · rw [if_pos hthreads] at hm
    cases hm
  rw [if_neg hthreads] at hm
  by_cases hstacks : (k.processes p).userStacks ≠ []
  · rw [if_pos hstacks] at hm
    cases hm
  rw [if_neg hstacks] at hm
  obtain ⟨hd, hk⟩ := h.processes.directory p hp
  have hne : (k.processes p).pageDirectory ≠ 0 := by
    intro hzero
    rw [hzero, h.memory.ready.uses.zero] at hd
    cases hd
  rw [if_pos hne] at hm
  obtain ⟨m₁, hdestroy, hm⟩ := bind_eq_ok.mp hm
  obtain ⟨m₂, hfree, hm⟩ := bind_eq_ok.mp hm
  cases pure_eq_ok.mp hm
  obtain ⟨m', hm', hdestroyed⟩ := h.memory.ready.uses.destroyDirectory hd hk
  rw [hdestroy] at hm'
  cases hm'
  have hu := h.memory.ready.uses.destroyed hd hk hdestroyed
  generalize hdir : (k.processes p).pageDirectory = d at *
  have hkept : ∀ f u, u ≠ .free → u.isOf d = false → use d ≠ u → (without use d f = u ↔ use f = u) := by
    intro f u hu hof hdu
    rw [without_iff hu]
    constructor
    · intro hw
      exact hw.2.2
    · intro hw
      refine ⟨?_, hof, hw⟩
      rintro rfl
      exact hdu hw
  have hsame : SameStacks k.mm.kernelDirectory use (without use d) := by
    have hne' : (k.mm.kernelDirectory == d) = false := by simpa using Ne.symm hk
    refine ⟨fun f v _ => hkept f _ (by simp) hne' (by rw [hd]; simp),
      fun f i _ => hkept f _ (by simp) hne' (by rw [hd]; simp)⟩
  have hmemory := h.memory.elsewhere hu hdestroyed.kernelDirectory
    (pagingDestroyDirectory_virtual hdestroy) hsame
  -- Without the process, so that the directories of the others are those that are left.
  have hothers : KernelInv { k with mm := m₁, pids := k.pids.erase p } (without use d) := by
    refine ⟨hmemory, ⟨h.threads.nodup, h.threads.lt, h.threads.stack, h.threads.plain,
      h.threads.distinct⟩, h.processes.nodup.erase p, fun q hq => ?_, fun q hq => ?_,
      fun q hq r hr => ?_, fun q hq => ?_⟩
    · exact h.processes.lt q (List.mem_of_mem_erase hq)
    · obtain ⟨hqp, hq⟩ := h.processes.nodup.mem_erase_iff.mp hq
      obtain ⟨hqd, hqk⟩ := h.processes.directory q hq
      refine ⟨(without_iff (by simp)).mpr ⟨fun heq => hqp ?_, rfl, hqd⟩, ?_⟩
      · exact h.processes.distinct q hq p hp (heq.trans hdir.symm)
      · show (k.processes q).pageDirectory ≠ m₁.kernelDirectory
        rw [hdestroyed.kernelDirectory]
        exact hqk
    · exact h.processes.distinct q (List.mem_of_mem_erase hq) r (List.mem_of_mem_erase hr)
    · exact h.processes.block q (List.mem_of_mem_erase hq)
  have hend := (pagingDestroyDirectory_virtual hdestroy).heapEnd
  refine ⟨hothers.kfree hfree, rfl, ?_, ?_⟩
  · obtain ⟨heap, rfl⟩ := kfree_frame hfree
    exact hdestroyed.kernelDirectory
  · obtain ⟨heap, rfl⟩ := kfree_frame hfree
    exact hend

/-- `process_destroy`. -/
theorem KernelInv.processDestroy (h : KernelInv k use) (hp : p ∈ k.pids)
    (hm : Neox.processDestroy k p = .ok k') : ∃ use', KernelInv k' use' :=
  ⟨_, (h.processDestroyed hp hm).1⟩

/-- The records of the processes have the same directories and blocks. -/
theorem ProcessTable.congr (h : ProcessTable k use) (hpids : k'.pids = k.pids)
    (hnext : k'.nextPid = k.nextPid) (hk : k'.mm.kernelDirectory = k.mm.kernelDirectory)
    (hrecords : ∀ p, (k'.processes p).pageDirectory = (k.processes p).pageDirectory ∧
      (k'.processes p).block = (k.processes p).block) : ProcessTable k' use where
  nodup := hpids ▸ h.nodup
  lt := by
    rw [hpids, hnext]
    exact h.lt
  directory p hp := by
    rw [(hrecords p).1, hk]
    exact h.directory p (hpids ▸ hp)
  distinct p hp q hq := by
    rw [(hrecords p).1, (hrecords q).1]
    exact h.distinct p (hpids ▸ hp) q (hpids ▸ hq)
  block p hp := by
    rw [(hrecords p).2]
    exact h.block p (hpids ▸ hp)

theorem setProcess_records {q : ProcessId} {threads : List ThreadId} (p : ProcessId) :
    ((k.setProcess q { k.processes q with threads := threads }).processes p).pageDirectory =
        (k.processes p).pageDirectory ∧
      ((k.setProcess q { k.processes q with threads := threads }).processes p).block =
        (k.processes p).block := by
  unfold Kernel.setProcess
  dsimp only
  by_cases hpq : p = q
  · subst hpq
    rw [Function.update_self]
    exact ⟨rfl, rfl⟩
  · rw [Function.update_of_ne hpq]
    exact ⟨rfl, rfl⟩

/-- `thread_create` that succeeds. -/
theorem KernelInv.created {block : Nat} (h : KernelInv k use)
    (hc : Created a k use p slot block k' use') : KernelInv k' use' := by
  have hk := hc.overlay.kernelDirectory
  have hne := hc.vacant.ne_zero h.memory.ready
  have hmemory := h.memory.created hc
  have hblock : block ≠ 0 := by
    obtain ⟨b, rfl, -⟩ := hc.inUse
    simp [HeapBlock.data, heapHeader]
  -- No other thread has the slot, since that is free.
  have hfresh : ∀ t ∈ k.tids, (k.threads t).kernelStack ≠ stackSlot slot := by
    intro t ht heq
    have htaken := (h.memory.slots slot hc.vacant.lt).mpr (.inr ⟨t, ht, heq⟩)
    rw [hc.free] at htaken
    cases htaken
  have hkernel := hc.kernel
  generalize hmm : k'.mm = mm at *
  subst hkernel
  generalize hthread : newThread block p slot = thread at *
  have hold : ∀ t ∈ k.tids, Function.update k.threads k.nextTid thread t = k.threads t := by
    intro t ht
    exact Function.update_of_ne (Nat.ne_of_lt (h.threads.lt t ht)) _ _
  have hself : Function.update k.threads k.nextTid thread k.nextTid = thread :=
    Function.update_self ..
  have hcases : ∀ t ∈ k.tids ++ [k.nextTid], t ∈ k.tids ∨ t = k.nextTid := by
    intro t ht
    exact (List.mem_append.mp ht).imp_right List.mem_singleton.mp
  refine ⟨hmemory.congr fun s => ?_, ⟨?_, fun t ht => ?_, fun t ht => ?_, fun t ht => ?_,
    fun t ht u hu heq => ?_⟩, ?_⟩
  · constructor
    · intro hs
      rcases hs with rfl | ⟨t, ht, hstack⟩
      · refine ⟨k.nextTid, List.mem_append_right _ (List.mem_singleton_self _), ?_⟩
        show (Function.update k.threads k.nextTid thread k.nextTid).kernelStack = _
        rw [hself, ← hthread]
        rfl
      · refine ⟨t, List.mem_append_left _ ht, ?_⟩
        show (Function.update k.threads k.nextTid thread t).kernelStack = _
        rw [hold t ht]
        exact hstack
    · intro hs
      obtain ⟨t, ht, hstack⟩ := hs
      change (Function.update k.threads k.nextTid thread t).kernelStack = _ at hstack
      rcases hcases t ht with ht | rfl
      · rw [hold t ht] at hstack
        exact .inr ⟨t, ht, hstack⟩
      · rw [hself, ← hthread] at hstack
        exact .inl (stackSlot_inj hstack).symm
  · show (k.tids ++ [k.nextTid]).Nodup
    rw [List.nodup_append]
    refine ⟨h.threads.nodup, List.nodup_singleton _, fun t ht u hu heq => ?_⟩
    rw [List.mem_singleton.mp hu] at heq
    exact absurd heq (Nat.ne_of_lt (h.threads.lt t ht))
  · show t < k.nextTid + 1
    rcases hcases t ht with ht | rfl
    · exact Nat.lt_succ_of_lt (h.threads.lt t ht)
    · exact Nat.lt_succ_self _
  · show ∃ s, (Function.update k.threads k.nextTid thread t).kernelStack = stackSlot s
    rcases hcases t ht with ht | rfl
    · rw [hold t ht]
      exact h.threads.stack t ht
    · rw [hself, ← hthread]
      exact ⟨slot, rfl⟩
  · show (Function.update k.threads k.nextTid thread t).userStack = 0 ∧
      (Function.update k.threads k.nextTid thread t).usermodeDesc = 0 ∧
      (Function.update k.threads k.nextTid thread t).block ≠ 0
    rcases hcases t ht with ht | rfl
    · rw [hold t ht]
      exact h.threads.plain t ht
    · rw [hself, ← hthread]
      exact ⟨rfl, rfl, hblock⟩
  · change (Function.update k.threads k.nextTid thread t).kernelStack =
      (Function.update k.threads k.nextTid thread u).kernelStack at heq
    rcases hcases t ht with ht | rfl
    · rcases hcases u hu with hu | rfl
      · rw [hold t ht, hold u hu] at heq
        exact h.threads.distinct t ht u hu heq
      · rw [hold t ht, hself, ← hthread] at heq
        exact absurd heq (hfresh t ht)
    · rcases hcases u hu with hu | rfl
      · rw [hold u hu, hself, ← hthread] at heq
        exact absurd heq.symm (hfresh u hu)
      · rfl
  · have hdir : ∀ d, use d = .directory → use' d = .directory :=
      fun d hd => (hc.overlay.kept d (by rw [hd]; simp)).trans hd
    exact (h.processes.keep hk hdir).congr rfl rfl rfl fun p => ⟨rfl, rfl⟩

/-- `thread_create`. -/
theorem KernelInv.threadCreate {found : Option ThreadId} (h : KernelInv k use)
    (hm : Neox.threadCreate k p = .ok (found, k')) : ∃ use', KernelInv k' use' := by
  obtain ⟨a, hb⟩ := h.memory.blocks
  obtain ⟨use', ⟨-, hnot⟩ | ⟨-, slot, block, hc⟩⟩ :=
    threadCreate_spec h.memory.ready hb h.memory.freeVacant hm
  · refine ⟨use', ?_⟩
    rw [hnot.kernel]
    apply h.keep (h.memory.notCreated hnot) hnot.overlay.kernelDirectory
    exact fun d hd => (hnot.overlay.kept d (by rw [hd]; simp)).trans hd
  · exact ⟨use', h.created hc⟩

/-- The slot of a thread. -/
theorem KernelInv.threadSlot (h : KernelInv k use) (ht : t ∈ k.tids) :
    ∃ slot, (k.threads t).kernelStack = stackSlot slot ∧ slot ≠ 0 ∧ slot < kernelStackCount := by
  obtain ⟨slot, hslot⟩ := h.threads.stack t ht
  exact ⟨slot, hslot, h.memory.live_lt slot ⟨t, ht, hslot⟩⟩

theorem KernelInv.destroyed (h : KernelInv k use) (ht : t ∈ k.tids)
    (hstack : (k.threads t).kernelStack = stackSlot slot) (hr : Released a k use t slot k' use') :
    KernelInv k' use' := by
  have hk := hr.here.kernelDirectory
  obtain ⟨hne, hlt⟩ := h.memory.live_lt slot ⟨t, ht, hstack⟩
  have hmemory := h.memory.released hlt hne hr
  have hkernel := hr.kernel
  generalize hmm : k'.mm = mm at *
  subst hkernel
  have hleft : ∀ u, u ∈ k.tids.erase t ↔ u ≠ t ∧ u ∈ k.tids := fun u => h.threads.nodup.mem_erase_iff
  refine ⟨hmemory.congr fun s => ?_, ⟨h.threads.nodup.erase t, fun u hu => ?_, fun u hu => ?_,
    fun u hu => ?_, fun u hu v hv => ?_⟩, ?_⟩
  · constructor
    · intro hs
      obtain ⟨⟨u, hu, hstack'⟩, hs⟩ := hs
      refine ⟨u, (hleft u).mpr ⟨?_, hu⟩, hstack'⟩
      rintro rfl
      exact hs (stackSlot_inj (hstack'.symm.trans hstack))
    · intro hs
      obtain ⟨u, hu, hstack'⟩ := hs
      obtain ⟨hut, hu⟩ := (hleft u).mp hu
      refine ⟨⟨u, hu, hstack'⟩, ?_⟩
      rintro rfl
      exact hut (h.threads.distinct u hu t ht (hstack'.trans hstack.symm))
  · exact h.threads.lt u (List.mem_of_mem_erase hu)
  · exact h.threads.stack u (List.mem_of_mem_erase hu)
  · exact h.threads.plain u (List.mem_of_mem_erase hu)
  · exact h.threads.distinct u (List.mem_of_mem_erase hu) v (List.mem_of_mem_erase hv)
  · exact (h.processes.keep hk fun d hd => hr.here.directory.mpr hd).congr rfl rfl rfl
      fun p => setProcess_records p

/-- `thread_destroy`. -/
theorem KernelInv.threadDestroy (h : KernelInv k use) (ht : t ∈ k.tids)
    (hm : Neox.threadDestroy k t = .ok k') : ∃ use', KernelInv k' use' := by
  obtain ⟨a, hb⟩ := h.memory.blocks
  obtain ⟨slot, hstack, hne, hlt⟩ := h.threadSlot ht
  obtain ⟨huser, hdesc, hblock⟩ := h.threads.plain t ht
  obtain ⟨use', hr⟩ := threadDestroy_spec h.memory.ready hb hstack hlt hne huser hdesc hblock hm
  exact ⟨use', h.destroyed ht hstack hr⟩

/-- `thread_add`. -/
theorem KernelInv.link (h : KernelInv k use) (t : ThreadId) : KernelInv (linkThread k t) use where
  memory := h.memory
  threads := ⟨h.threads.nodup, h.threads.lt, h.threads.stack, h.threads.plain, h.threads.distinct⟩
  processes := h.processes.congr rfl rfl rfl fun p => setProcess_records p

/-- A thread terminates, and keeps what it has. -/
theorem KernelInv.exit (h : KernelInv k use) (t : ThreadId) :
    KernelInv { k with threads := Function.update k.threads t { k.threads t with terminated := true } }
      use := by
  have hfields : ∀ u,
      (Function.update k.threads t { k.threads t with terminated := true } u).kernelStack =
        (k.threads u).kernelStack ∧
      (Function.update k.threads t { k.threads t with terminated := true } u).userStack =
        (k.threads u).userStack ∧
      (Function.update k.threads t { k.threads t with terminated := true } u).usermodeDesc =
        (k.threads u).usermodeDesc ∧
      (Function.update k.threads t { k.threads t with terminated := true } u).block =
        (k.threads u).block := by
    intro u
    by_cases hut : u = t
    · rw [hut, Function.update_self]
      exact ⟨rfl, rfl, rfl, rfl⟩
    · rw [Function.update_of_ne hut]
      exact ⟨rfl, rfl, rfl, rfl⟩
  refine ⟨h.memory.congr fun s => ?_, ⟨h.threads.nodup, h.threads.lt, fun u hu => ?_, fun u hu => ?_,
    fun u hu v hv heq => ?_⟩, h.processes.congr rfl rfl rfl fun p => ⟨rfl, rfl⟩⟩
  · unfold Kernel.hasStack
    simp only [(hfields _).1]
  · obtain ⟨slot, hslot⟩ := h.threads.stack u hu
    exact ⟨slot, (hfields u).1.trans hslot⟩
  · obtain ⟨-, huser, hdesc, hblock⟩ := hfields u
    show (Function.update k.threads t _ u).userStack = 0 ∧
      (Function.update k.threads t _ u).usermodeDesc = 0 ∧ (Function.update k.threads t _ u).block ≠ 0
    rw [huser, hdesc, hblock]
    exact h.threads.plain u hu
  · exact h.threads.distinct u hu v hv ((hfields u).1.symm.trans (heq.trans (hfields v).1))

end Steps

/-! ## Runs -/

/-- The kernel after `scheduler_start`, on a machine as `boot_uses` asks for. -/
structure AfterStart (k : Kernel) : Prop where
  memory : ∃ info frames directory, (boot info frames directory >>= schedulerStart) = .ok k.mm ∧
    (pmmInit info).totalPages ≤ 0x100000 ∧ directory + 4 < directFrames ∧
    ∀ f, directory ≤ f → f ≤ directory + 4 → ¬ (pmmInit info).Free f
  pids : k.pids = []
  tids : k.tids = []

section Run

variable {k : Kernel} {s s' : KernelState} {c : MemoryCall} {calls : List MemoryCall}

theorem AfterStart.started (h : AfterStart k) : ∃ use, Started k.mm use := by
  obtain ⟨info, frames, directory, hm, hlimit, hlt, hreserved⟩ := h.memory
  obtain ⟨m₁, hboot, hstart⟩ := bind_eq_ok.mp hm
  exact boot_started hboot hlimit hlt hreserved hstart

theorem AfterStart.inv (h : AfterStart k) : ∃ use, KernelInv k use := by
  obtain ⟨use, hstarted⟩ := h.started
  have hno : ∀ {P : Nat → Prop}, ∀ t ∈ k.tids, P t := by
    intro P t ht
    rw [h.tids] at ht
    exact absurd ht List.not_mem_nil
  have hnone : ∀ {P : Nat → Prop}, ∀ p ∈ k.pids, P p := by
    intro P p hp
    rw [h.pids] at hp
    exact absurd hp List.not_mem_nil
  refine ⟨use, hstarted.stackMemory.congr fun slot => ?_, ⟨?_, hno, hno, hno, hno⟩,
    ?_, hnone, hnone, hnone, hnone⟩
  · rw [false_iff]
    rintro ⟨t, ht, -⟩
    rw [h.tids] at ht
    exact absurd ht List.not_mem_nil
  · rw [h.tids]
    exact .nil
  · rw [h.pids]
    exact .nil

/-- One case for each call. -/
theorem KernelInv.step {use : Nat → Use} (h : KernelInv s.kernel use) (hc : c.valid s = true)
    (hs : s.step c = some s') : ∃ use', KernelInv s'.kernel use' := by
  rw [step_eq_some] at hs
  cases c with
  | kmalloc size =>
      obtain ⟨⟨ptr, mm⟩, hm, hs⟩ := bind_eq_ok.mp hs
      cases pure_eq_ok.mp hs
      obtain ⟨use', h', -⟩ := h.kmalloc hm
      exact ⟨use', h'⟩
  | kfree ptr =>
      obtain ⟨mm, hm, hs⟩ := bind_eq_ok.mp hs
      cases pure_eq_ok.mp hs
      exact ⟨use, h.kfree hm⟩
  | processCreate =>
      obtain ⟨⟨found, k'⟩, hm, hs⟩ := bind_eq_ok.mp hs
      cases pure_eq_ok.mp hs
      exact h.processCreate hm
  | processDestroy p =>
      obtain ⟨k', hm, hs⟩ := bind_eq_ok.mp hs
      cases pure_eq_ok.mp hs
      exact h.processDestroy (of_decide_eq_true hc) hm
  | userMap p virt flags =>
      obtain ⟨mm, hm, hs⟩ := bind_eq_ok.mp hs
      cases pure_eq_ok.mp hs
      simp only [MemoryCall.valid, Bool.and_eq_true, decide_eq_true_eq] at hc
      obtain ⟨⟨⟨hp, hvirt⟩, hflags⟩, hpres⟩ := hc
      obtain ⟨hd, hk⟩ := h.processes.directory p hp
      obtain ⟨use', hlocal, hsame⟩ :=
        mapUserPage_local h.memory.ready.uses hd hk hvirt hflags hpres hm
      exact ⟨use', h.userPages hk hlocal hsame⟩
  | userUnmap p virt =>
      obtain ⟨mm, hm, hs⟩ := bind_eq_ok.mp hs
      cases pure_eq_ok.mp hs
      simp only [MemoryCall.valid, Bool.and_eq_true, decide_eq_true_eq] at hc
      obtain ⟨hd, hk⟩ := h.processes.directory p hc.1
      obtain ⟨use', hlocal, hsame⟩ := releaseUserPage_local h.memory.ready.uses hd hk hc.2 hm
      exact ⟨use', h.userPages hk hlocal hsame⟩
  | threadCreate p =>
      obtain ⟨⟨found, k'⟩, hm, hs⟩ := bind_eq_ok.mp hs
      cases pure_eq_ok.mp hs
      exact h.threadCreate hm
  | threadAdd t =>
      cases pure_eq_ok.mp hs
      exact ⟨use, h.link t⟩
  | threadExit t =>
      cases pure_eq_ok.mp hs
      exact ⟨use, h.exit t⟩
  | threadDestroy t =>
      obtain ⟨k', hm, hs⟩ := bind_eq_ok.mp hs
      cases pure_eq_ok.mp hs
      exact h.threadDestroy (of_decide_eq_true hc) hm

theorem KernelRun.inv (hrun : KernelRun s calls s') (h : ∃ use, KernelInv s.kernel use) :
    ∃ use, KernelInv s'.kernel use := by
  apply hrun.invariant (I := fun s => ∃ use, KernelInv s.kernel use) h
  rintro s₁ c s₂ ⟨use, h₁⟩ hc hs
  exact h₁.step hc hs

end Run

end Neox
