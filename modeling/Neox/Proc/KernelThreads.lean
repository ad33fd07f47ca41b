import Neox.Proc.StackPages

/-!
# Kernel threads

What `thread_create` takes and what it gives back when it fails, and what `thread_destroy` gives back.
-/

namespace Neox

open Pmm Checked

variable {m m' : Mm} {use use' : Nat → Use} {slot stack a : Nat} {k k' : Kernel} {p : ProcessId}
  {t : ThreadId}

/-! ## Stack slots -/

/-- `vam_alloc_stack` takes a free slot, unless there is none. -/
theorem vamAllocStack_spec (h : vamAllocStack m = (stack, m')) :
    (stack = 0 ∧ m' = m ∧ ∀ slot < kernelStackCount, m.stackSlots slot = true) ∨
      ∃ slot, slot < kernelStackCount ∧ m.stackSlots slot = false ∧ stack = stackSlot slot ∧
        m' = { m with stackSlots := Function.update m.stackSlots slot true } := by
  unfold vamAllocStack at h
  cases hfind : (List.range kernelStackCount).find? fun slot => !m.stackSlots slot with
  | none =>
      rw [hfind] at h
      cases h
      refine .inl ⟨rfl, rfl, fun slot hslot => ?_⟩
      have htaken := List.find?_eq_none.mp hfind slot (List.mem_range.mpr hslot)
      simpa using htaken
  | some slot =>
      rw [hfind] at h
      cases h
      obtain ⟨hfree, hlt, -⟩ := List.find?_range_eq_some.mp hfind
      exact .inr ⟨slot, List.mem_range.mp hlt, by simpa using hfree, rfl, rfl⟩

/-- `vam_free_stack` of a slot. -/
theorem vamFreeStack_slot (m : Mm) (hslot : slot < kernelStackCount) :
    vamFreeStack m (stackSlot slot) =
      { m with stackSlots := Function.update m.stackSlots slot false } := by
  have hdiv : (stackSlot slot - kernelStacksStart) / kernelStackSize = slot := by
    unfold stackSlot
    simp only [kernelStacksStart, kernelStackSize]
    omega
  have hmod : (stackSlot slot - kernelStacksStart) % kernelStackSize = 0 := by
    unfold stackSlot
    simp only [kernelStacksStart, kernelStackSize]
    omega
  have hin : ¬ (stackSlot slot < kernelStacksStart ∨ kernelStacksEnd < stackSlot slot) := by
    unfold stackSlot
    simp only [kernelStacksStart, kernelStacksEnd, kernelStackSize, kernelStackCount] at *
    omega
  unfold vamFreeStack
  rw [if_neg (stackSlot_ne slot), if_neg hin, if_neg (by rw [hmod]; simp), hdiv]

/-! ## Blocks -/

/-- `kfree` of one of the blocks in use. -/
theorem kfree_taken {b : HeapBlock} {l : List HeapBlock} (hb : Blocks a m.heap m.heapEnd)
    (hperm : (inUse m.heap).Perm (b :: l)) (h : kfree m b.data = .ok m') :
    ∃ heap, m' = { m with heap := heap } ∧ Blocks a heap m.heapEnd ∧ (inUse heap).Perm l := by
  have hne : b.data ≠ 0 := by simp [HeapBlock.data, heapHeader]
  obtain ⟨heap, rfl, hblocks, c, hdata, hmem, hfreed⟩ := kfree_spec hne hb h
  have hsame : c = b := by
    apply hb.eq_of_data
    · exact List.mem_of_mem_filter hmem
    · exact List.mem_of_mem_filter (hperm.mem_iff.mpr (List.mem_cons_self ..))
    · exact hdata
  subst hsame
  exact ⟨heap, rfl, hblocks, (hfreed.symm.trans hperm).cons_inv⟩

/-- `kfree` of a block in use returns. -/
theorem kfree_returns {b : HeapBlock} (hb : Blocks a m.heap m.heapEnd) (hmem : b ∈ inUse m.heap) :
    ∃ m', kfree m b.data = .ok m' := by
  have hne : b.data ≠ 0 := by simp [HeapBlock.data, heapHeader]
  obtain ⟨hbl, hused⟩ := mem_inUse.mp hmem
  unfold kfree
  rw [if_neg hne]
  rcases heapRelease_eq b.data m.heap with ⟨hnone, -⟩ | ⟨pre, c, post, heq, hdata, -, hrelease⟩
  · have hnot := List.find?_eq_none.mp hnone b hbl
    simp at hnot
  · have hc : c ∈ m.heap := by
      rw [heq]
      exact List.mem_append_right _ (List.mem_cons_self ..)
    rw [hb.eq_of_data hc hbl hdata, hused, if_neg (by decide)] at hrelease
    rw [hrelease]
    exact ⟨_, rfl⟩

/-- What `kmalloc` returned is given back. -/
theorem kmalloc_kfree {m₁ m₂ : Mm} {size block : Nat} (hb : Blocks a m₁.heap m₁.heapEnd)
    (hmalloc : kmalloc m size = .ok (block, m₁)) (hne : block ≠ 0) (hfree : kfree m₂ block = .ok m')
    (hheap : m₂.heap = m₁.heap) (hend : m₂.heapEnd = m₁.heapEnd) :
    ∃ heap, m' = { m₂ with heap := heap } ∧ Blocks a heap m₂.heapEnd ∧
      (inUse heap).Perm (inUse m.heap) := by
  rcases kmalloc_inUse hmalloc with ⟨hzero, -⟩ | ⟨b, rfl, hperm⟩
  · exact absurd hzero hne
  · rw [← hheap] at hperm
    apply kfree_taken _ hperm hfree
    rw [hheap, hend]
    exact hb

/-! ## `thread_create` -/

/-- Nothing is left of the call but the growth of the heap. -/
structure NotCreated (a : Nat) (k : Kernel) (use : Nat → Use) (k' : Kernel) (use' : Nat → Use) :
    Prop where
  kernel : k' = { k with mm := k'.mm }
  ready : HeapReady k'.mm use'
  blocks : Blocks a k'.mm.heap k'.mm.heapEnd
  overlay : Overlay k.mm.kernelDirectory k.mm use noPage k'.mm use'
  stackSlots : k'.mm.stackSlots = k.mm.stackSlots
  inUse : (inUse k'.mm.heap).Perm (inUse k.mm.heap)
  shared : KeepsShared k.mm use k'.mm

/-- The record of a thread that has just been created. -/
def newThread (block : Nat) (p : ProcessId) (slot : Nat) : ThreadMemory where
  block := block
  process := p
  kernelStack := stackSlot slot
  userStack := 0
  usermodeDesc := 0
  terminated := false

/-- There is a new thread: a slot with its four pages and a block are taken. -/
structure Created (a : Nat) (k : Kernel) (use : Nat → Use) (p : ProcessId) (slot block : Nat)
    (k' : Kernel) (use' : Nat → Use) : Prop where
  kernel : k' = { k with
    mm := k'.mm, tids := k.tids ++ [k.nextTid], nextTid := k.nextTid + 1
    threads := Function.update k.threads k.nextTid (newThread block p slot) }
  ready : HeapReady k'.mm use'
  blocks : Blocks a k'.mm.heap k'.mm.heapEnd
  vacant : Vacant k.mm use slot
  free : k.mm.stackSlots slot = false
  overlay : Overlay k.mm.kernelDirectory k.mm use (firstPages (stackSlot slot) kernelStackPages)
    k'.mm use'
  stackSlots : k'.mm.stackSlots = Function.update k.mm.stackSlots slot true
  inUse : ∃ b, b.data = block ∧ (inUse k'.mm.heap).Perm (b :: inUse k.mm.heap)
  shared : KeepsShared k.mm use k'.mm

/-- The free slots are vacant. -/
def FreeVacant (m : Mm) (use : Nat → Use) : Prop :=
  ∀ slot < kernelStackCount, m.stackSlots slot = false → Vacant m use slot

/-- What the heap has is below the stacks. -/
theorem OfHeap.below {kd lo hi d v : Nat} (h : OfHeap kd lo hi (.page d v))
    (hhi : hi ≤ kernelHeapEnd + 1) : v < kernelStacksStart / pageSize := by
  obtain ⟨w, -, hw, hpage | htable⟩ := h
  · injection hpage with _ hv
    simp only [kernelHeapEnd, kernelStacksStart, pageSize] at *
    omega
  · cases htable

theorem OfHeap.table_below {kd lo hi d i : Nat} (h : OfHeap kd lo hi (.table d i))
    (hhi : hi ≤ kernelHeapEnd + 1) : i < kernelStacksStart / pageSize / 1024 := by
  obtain ⟨w, -, hw, hpage | htable⟩ := h
  · cases hpage
  · injection htable with _ hi
    simp only [kernelHeapEnd, kernelStacksStart, pageSize] at *
    omega

theorem stackSlot_above (slot : Nat) : kernelStacksStart / pageSize ≤ stackSlot slot / pageSize := by
  unfold stackSlot
  simp only [kernelStacksStart, kernelStackSize, pageSize]
  omega

/-- Growing the heap does not change what the stacks are made of. -/
theorem Absorbs.stack_page (h : Absorbs m use m' use') (hin : HeapEndIn m') {d v f : Nat}
    (hv : kernelStacksStart / pageSize ≤ v) : use' f = .page d v ↔ use f = .page d v := by
  constructor
  · intro hf
    rcases h.rest f with hsame | ⟨-, hheap⟩
    · exact hsame.symm.trans hf
    · rw [hf] at hheap
      exact absurd (hheap.below hin.2) (Nat.not_lt.mpr hv)
  · intro hf
    exact (h.keeps (by rw [hf]; simp)).trans hf

theorem Absorbs.stack_table (h : Absorbs m use m' use') (hin : HeapEndIn m') {d i f : Nat}
    (hi : kernelStacksStart / pageSize / 1024 ≤ i) : use' f = .table d i ↔ use f = .table d i := by
  constructor
  · intro hf
    rcases h.rest f with hsame | ⟨-, hheap⟩
    · exact hsame.symm.trans hf
    · rw [hf] at hheap
      exact absurd (hheap.table_below hin.2) (Nat.not_lt.mpr hi)
  · intro hf
    exact (h.keeps (by rw [hf]; simp)).trans hf

theorem Absorbs.notEmpty (h : Absorbs m use m' use') (hin : HeapEndIn m') {d i : Nat}
    (hi : kernelStacksStart / pageSize / 1024 ≤ i) (hne : NotEmpty use d i) : NotEmpty use' d i := by
  intro t ht
  obtain ⟨f, v, hf, hv⟩ := hne t ((h.stack_table hin hi).mp ht)
  exact ⟨f, v, (h.keeps (by rw [hf]; simp)).trans hf, hv⟩

theorem Vacant.absorb (h : Vacant m use slot) (hin : HeapEndIn m')
    (habsorbs : Absorbs m use m' use') : Vacant m' use' slot where
  lt := h.lt
  unmapped v hv g hg := by
    rw [habsorbs.kernelDirectory] at hg
    exact h.unmapped v hv g ((habsorbs.stack_page hin (Nat.le_trans (stackSlot_above slot) hv.1)).mp hg)
  table := by
    rw [habsorbs.kernelDirectory]
    exact habsorbs.notEmpty hin (Nat.div_le_div_right (stackSlot_above slot)) h.table

/-- The page behind the heap's region is mapped, so that its slot is not vacant. -/
theorem Vacant.ne_zero (h : Vacant m use slot) (hr : HeapReady m use) : slot ≠ 0 := by
  rintro rfl
  obtain ⟨f, hf⟩ := hr.fence
  refine h.unmapped _ ⟨Nat.le_refl _, ?_⟩ f hf
  decide

/-- The page behind the heap's region is in the first slot. -/
theorem slotPages_fence (h : slot ≠ 0) {kd : Nat} :
    ¬ SlotPages kd slot kd (kernelStacksStart / pageSize) := by
  rintro ⟨-, hpage⟩
  have hzero : firstPages (stackSlot 0) kernelStackPages (kernelStacksStart / pageSize) := by
    refine ⟨Nat.le_refl _, ?_⟩
    decide
  exact h (firstPages_slot hpage hzero)

theorem owns_top (hslot : slot < kernelStackCount) (kd : Nat) :
    Owns kd kd (directoryIndex (stackSlot slot + kernelStackSize - 4)) := by
  have htop : stackSlot slot + kernelStackSize - 4 = stackSlot slot + 3 * pageSize + 4092 := by
    simp only [kernelStackSize, pageSize]
    omega
  rw [htop]
  apply owns_stacks
  · unfold stackSlot
    rw [Nat.add_assoc, Nat.add_assoc]
    exact Nat.le_add_right _ _
  · unfold stackSlot
    simp only [kernelStacksStart, kernelStacksEnd, kernelStackSize, kernelStackCount, pageSize] at *
    omega

/-- The top of a stack that has been mapped. -/
theorem PartStack.top {phys : Nat} {m₀ : Mm} {use₀ : Nat → Use}
    (h : PartStack slot m₀ use₀ kernelStackPages m use) (hslot : slot < kernelStackCount)
    (hphys : pagingTranslate m m.kernelDirectory (stackSlot slot + kernelStackSize - 4) = .ok phys) :
    phys ≠ 0 := by
  obtain ⟨f, -, hf⟩ := h.overlay.mapped (stackSlot slot / pageSize + 3)
    ⟨Nat.le_add_right _ _, Nat.add_lt_add_left (by decide) _⟩
  have hpage : (stackSlot slot + kernelStackSize - 4) / pageSize = stackSlot slot / pageSize + 3 := by
    unfold stackSlot
    simp only [kernelStacksStart, kernelStackSize, pageSize]
    omega
  have hu := h.here.uses
  rcases hu.translate hu.kernel (owns_top hslot _) (pagingTranslate_spec hphys) with ⟨-, hnone⟩ | ⟨hne, -⟩
  · rw [hpage, h.here.kernelDirectory] at hnone
    exact absurd hf (hnone f)
  · exact hne

/-- The part of `thread_create` after `kmalloc`. -/
theorem threadCreate_spec {found : Option ThreadId} (hr : HeapReady k.mm use)
    (hb : Blocks a k.mm.heap k.mm.heapEnd) (hvacant : FreeVacant k.mm use)
    (h : threadCreate k p = .ok (found, k')) :
    ∃ use', found = none ∧ NotCreated a k use k' use' ∨
      found = some k.nextTid ∧ ∃ slot block, Created a k use p slot block k' use' := by
  unfold threadCreate at h
  obtain ⟨⟨block, m₁⟩, hmalloc, h⟩ := bind_eq_ok.mp h
  obtain ⟨use₁, hr₁, habsorbs, hslots₁⟩ := hr.kmalloc hmalloc
  have hlt : k.mm.heapEnd < wordModulus := by
    have hhigh := hr.region.2
    simp only [kernelHeapEnd, wordModulus] at *
    omega
  have hb₁ := kmalloc_blocks hb hlt hr₁.region hmalloc
  have hshared₁ := hr.uses.kmalloc_shared hlt hr₁.region hmalloc
  dsimp only at h
  by_cases hblock : block = 0
  · -- There is no block.
    rw [if_pos hblock] at h
    cases pure_eq_ok.mp h
    refine ⟨use₁, .inl ⟨rfl, rfl, hr₁, hb₁, habsorbs.overlay, hslots₁, ?_, hshared₁⟩⟩
    rcases kmalloc_inUse hmalloc with ⟨-, hsame⟩ | ⟨b, hdata, -⟩
    · rw [hsame]
    · rw [hblock] at hdata
      exact absurd hdata (by simp [HeapBlock.data, heapHeader])
  rw [if_neg hblock] at h
  rcases hstack : vamAllocStack m₁ with ⟨stack, m₂⟩
  rw [hstack] at h
  dsimp only at h
  rcases vamAllocStack_spec hstack with ⟨rfl, rfl, -⟩ | ⟨slot, hslot, hfree, rfl, rfl⟩
  · -- There is no slot.
    rw [if_pos rfl] at h
    obtain ⟨m₃, hfreed, h⟩ := bind_eq_ok.mp h
    cases pure_eq_ok.mp h
    have hready := hr₁.kfree hfreed
    obtain ⟨heap, rfl, hblocks, hperm⟩ := kmalloc_kfree hb₁ hmalloc hblock hfreed rfl rfl
    exact ⟨use₁, .inl ⟨rfl, rfl, hready, hblocks, habsorbs.overlay.record rfl rfl rfl rfl, hslots₁,
      hperm, hshared₁.record rfl rfl⟩⟩
  rw [if_neg (stackSlot_ne slot)] at h
  have hfree₀ : k.mm.stackSlots slot = false := by
    rw [← hslots₁]
    exact hfree
  have hv := hvacant slot hslot hfree₀
  have hv₁ := hv.absorb hr₁.region habsorbs
  -- From here on the slot is taken.
  generalize hm₂ : ({ m₁ with stackSlots := Function.update m₁.stackSlots slot true } : Mm) = m₂ at h
  have hk₂ : m₂.kernelDirectory = m₁.kernelDirectory := by rw [← hm₂]
  have hend₂ : m₂.heapEnd = m₁.heapEnd := by rw [← hm₂]
  have hheap₂ : m₂.heap = m₁.heap := by rw [← hm₂]
  have hslots₂ : m₂.stackSlots = Function.update m₁.stackSlots slot true := by rw [← hm₂]
  have hr₂ : HeapReady m₂ use₁ := by
    rw [← hm₂]
    exact hr₁.setSlots _
  have hv₂ : Vacant m₂ use₁ slot := ⟨hv₁.lt, hk₂.symm ▸ hv₁.unmapped, hk₂.symm ▸ hv₁.table⟩
  have hover₂ : Overlay k.mm.kernelDirectory k.mm use noPage m₂ use₁ := by
    apply habsorbs.overlay.record
    · rw [← hm₂]
    · rw [← hm₂]
    · exact hk₂
    · exact hend₂
  obtain ⟨⟨mapped, m₃⟩, hloop, h⟩ := bind_eq_ok.mp h
  dsimp only at h
  obtain ⟨use₃, hpart⟩ := (PartStack.start hr₂.uses slot).loop hr₂.uses hv₂ (Nat.zero_add _) hloop
  have hsame := hpart.same
  have hr₃ : HeapReady m₃ use₃ :=
    hr₂.of_local hpart.here hsame.heap hsame.heapEnd (slotPages_fence (hv₂.ne_zero hr₂))
  have hkd : m₂.kernelDirectory = k.mm.kernelDirectory := hk₂.trans habsorbs.kernelDirectory
  have hb₃ : Blocks a m₃.heap m₃.heapEnd := by
    rw [hsame.heap, hsame.heapEnd, hheap₂, hend₂]
    exact hb₁
  have hshared₃ : KeepsShared k.mm use m₃ := by
    have hlocal := hpart.here.keepsShared fun d v hv => slotPages_owns hslot hv
    have hslot : KeepsShared m₁ use₁ m₂ := by
      rw [← hm₂]
      exact (KeepsShared.refl m₁ use₁).record rfl rfl
    apply hshared₁.trans (hslot.trans hlocal fun _ _ => rfl)
    intro f hf
    apply habsorbs.keeps
    rcases hf with hf | hf
    · rw [hf]
      simp
    · rw [hf]
      simp
  cases mapped with
  | false =>
      -- A frame was missing, and the pages have been unmapped.
      rw [if_pos (by rfl), vamFreeStack_slot m₃ hslot] at h
      obtain ⟨m₄, hfreed, h⟩ := bind_eq_ok.mp h
      cases pure_eq_ok.mp h
      have hback : Overlay m₂.kernelDirectory m₂ use₁ noPage m₃ use₃ :=
        hpart.overlay.congr fun v => firstPages_zero _ v
      have hover := hback.before hover₂
      rw [hkd] at hover
      have hr₄ := (hr₃.setSlots (Function.update m₃.stackSlots slot false)).kfree hfreed
      obtain ⟨heap, rfl, hblocks, hperm⟩ := kmalloc_kfree hb₁ hmalloc hblock hfreed
        (hsame.heap.trans hheap₂) (hsame.heapEnd.trans hend₂)
      refine ⟨use₃, .inl ⟨rfl, rfl, hr₄, hblocks, hover.record rfl rfl rfl rfl, ?_, hperm,
        hshared₃.record rfl rfl⟩⟩
      show Function.update m₃.stackSlots slot false = k.mm.stackSlots
      rw [hsame.stackSlots, hslots₂, Function.update_idem, hslots₁, ← hfree₀, Function.update_eq_self]
  | true =>
      rw [if_neg (by decide)] at h
      obtain ⟨phys, hphys, h⟩ := bind_eq_ok.mp h
      rw [if_pos rfl] at hpart
      rw [if_neg (hpart.top hslot hphys)] at h
      cases pure_eq_ok.mp h
      have hwhole := hpart.overlay.before hover₂
      rw [hkd] at hwhole
      refine ⟨use₃, .inr ⟨rfl, slot, block, rfl, hr₃, hb₃, hv, hfree₀, hwhole, ?_, ?_,
        hshared₃.record rfl rfl⟩⟩
      · show m₃.stackSlots = _
        rw [hsame.stackSlots, hslots₂, hslots₁]
      · rcases kmalloc_inUse hmalloc with ⟨hzero, -⟩ | ⟨b, hdata, hperm⟩
        · exact absurd hzero hblock
        · refine ⟨b, hdata, ?_⟩
          show (inUse m₃.heap).Perm _
          rw [hsame.heap, hheap₂]
          exact hperm

/-! ## `thread_destroy` -/

/-- The process loses the thread. -/
def unlinkThread (k : Kernel) (t : ThreadId) : Kernel :=
  let p := (k.threads t).process
  k.setProcess p { k.processes p with threads := (k.processes p).threads.erase t }

/-- The slot, its pages and the block have been given back. -/
structure Released (a : Nat) (k : Kernel) (use : Nat → Use) (t : ThreadId) (slot : Nat) (k' : Kernel)
    (use' : Nat → Use) : Prop where
  kernel : k' = { unlinkThread k t with mm := k'.mm, tids := k.tids.erase t }
  ready : HeapReady k'.mm use'
  blocks : Blocks a k'.mm.heap k'.mm.heapEnd
  here : Local (SlotPages k.mm.kernelDirectory slot) k.mm use k'.mm use'
  vacated : Vacated k.mm.kernelDirectory slot kernelStackPages use use'
  frees : ∃ frames, FreesOnce k.mm.pmm frames k'.mm.pmm
  heapEnd : k'.mm.heapEnd = k.mm.heapEnd
  stackSlots : k'.mm.stackSlots = Function.update k.mm.stackSlots slot false
  inUse : ∃ b, b.data = (k.threads t).block ∧ (inUse k.mm.heap).Perm (b :: inUse k'.mm.heap)

/-- `thread_destroy` of a thread that never had a user stack. -/
theorem threadDestroy_spec (hr : HeapReady k.mm use) (hb : Blocks a k.mm.heap k.mm.heapEnd)
    (hstack : (k.threads t).kernelStack = stackSlot slot) (hslot : slot < kernelStackCount)
    (hne : slot ≠ 0) (huser : (k.threads t).userStack = 0) (hdesc : (k.threads t).usermodeDesc = 0)
    (hblock : (k.threads t).block ≠ 0) (h : threadDestroy k t = .ok k') :
    ∃ use', Released a k use t slot k' use' := by
  unfold threadDestroy at h
  dsimp only at h
  rw [hstack, if_pos (stackSlot_ne slot), hdesc, huser] at h
  cases hterminated : (k.threads t).terminated with
  | false =>
      rw [hterminated] at h
      cases h
  | true =>
      rw [hterminated, if_neg (by decide)] at h
      obtain ⟨m₀, hloop, h⟩ := bind_eq_ok.mp h
      rw [pure_bind, if_neg (not_not.mpr rfl), if_neg (not_not.mpr rfl), pure_bind] at h
      obtain ⟨m₂, hfree, h⟩ := bind_eq_ok.mp h
      cases pure_eq_ok.mp h
      obtain ⟨use', hreleased⟩ := releaseStack_spec hr.uses hslot hloop
      have hsame := hreleased.same
      have hr₀ : HeapReady m₀ use' :=
        hr.of_local hreleased.here hsame.heap hsame.heapEnd (slotPages_fence hne)
      rw [vamFreeStack_slot m₀ hslot] at hfree
      have hready := (hr₀.setSlots (Function.update m₀.stackSlots slot false)).kfree hfree
      have hb₀ : Blocks a m₀.heap m₀.heapEnd := by
        rw [hsame.heap, hsame.heapEnd]
        exact hb
      obtain ⟨heap, rfl, hblocks, b, hdata, -, hperm⟩ := kfree_spec
        (m := { m₀ with stackSlots := Function.update m₀.stackSlots slot false }) hblock hb₀ hfree
      refine ⟨use', rfl, hready, hblocks, hreleased.here.congr rfl rfl rfl rfl, hreleased.vacated,
        hreleased.frees, hsame.heapEnd, ?_, b, hdata, ?_⟩
      · show Function.update m₀.stackSlots slot false = _
        rw [hsame.stackSlots]
      · have hheap : m₀.heap = k.mm.heap := hsame.heap
        rw [← hheap]
        exact hperm

end Neox
