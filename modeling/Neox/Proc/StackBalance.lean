import Neox.Proc.KernelRuns

/-!
# The balance of kernel threads

What a kernel thread takes is given back: by a `thread_create` that fails, and by `thread_destroy`. All
statements are about what the allocator, the slots, the kernel's directory and the heap say.
-/

namespace Neox

open Pmm Checked

variable {m m' m₀ : Mm} {use use' use₀ : Nat → Use} {f v i slot a block : Nat} {k k' : Kernel}
  {p : ProcessId} {t : ThreadId} {s s' : KernelState} {calls : List MemoryCall}

/-! ## What the kernel's directory says -/

theorem owns_stackTable (h : StackTable i) (k : Nat) : Owns k k i := by
  rw [owns_self]
  unfold StackTable at h
  simp only [kernelStacksStart, kernelStacksEnd, pageSize, recursivePdeIndex] at *
  omega

theorem stackPage_table (h : StackPage v) : StackTable (v / 1024) := by
  unfold StackPage at h
  unfold StackTable
  simp only [kernelStacksStart, kernelStacksEnd, pageSize] at *
  omega

/-- The blocks in use are those that were handed out and those of the threads and processes. -/
def HeapShared (s : KernelState) : Prop :=
  ((inUse s.kernel.mm.heap).map HeapBlock.data).Perm
    (s.held ++ ((s.kernel.tids.map fun t => (s.kernel.threads t).block) ++
      s.kernel.pids.map fun p => (s.kernel.processes p).block))

/-- A caller frees what it has got. -/
def MemoryCall.owned (s : KernelState) : MemoryCall → Bool
  | .kfree ptr => ptr == 0 || decide (ptr ∈ s.held)
  | _ => true

/-- A run in which callers of `kfree` own what they free. -/
abbrev OwnedRun :=
  Transition.Run KernelState.step fun s c => c.valid s = true ∧ c.owned s = true

theorem OwnedRun.valid (h : OwnedRun s calls s') : KernelRun s calls s' :=
  Transition.Run.mono h fun _ _ hc => hc.1

theorem processCreate_inUse {found : Option ProcessId} (h : KernelInv k use)
    (hm : processCreate k = .ok (found, k')) :
    k' = { k with mm := k'.mm } ∧ (inUse k'.mm.heap).Perm (inUse k.mm.heap) ∨
      ∃ process b, k' = { k.setProcess k.nextPid process with
        mm := k'.mm, pids := k.pids ++ [k.nextPid], nextPid := k.nextPid + 1 } ∧
        b.data = process.block ∧ (inUse k'.mm.heap).Perm (b :: inUse k.mm.heap) := by
  unfold processCreate at hm
  obtain ⟨⟨block, m₁⟩, hmalloc, hm⟩ := bind_eq_ok.mp hm
  obtain ⟨use₁, h₁, -⟩ := h.kmalloc hmalloc
  have hinUse := kmalloc_inUse hmalloc
  dsimp only at hm
  by_cases hblock : block = 0
  · rw [if_pos hblock] at hm
    cases pure_eq_ok.mp hm
    rcases hinUse with ⟨-, hsame⟩ | ⟨b, hdata, -⟩
    · exact .inl ⟨rfl, .of_eq hsame⟩
    · rw [hblock] at hdata
      exact absurd hdata (by simp [HeapBlock.data, heapHeader])
  rw [if_neg hblock] at hm
  obtain ⟨⟨created, m₂⟩, hcreate, hm⟩ := bind_eq_ok.mp hm
  have hvirtual := (pagingCreateDirectory_virtual hcreate).1
  cases created with
  | none =>
      dsimp only at hm
      obtain ⟨m₃, hfree, hm⟩ := bind_eq_ok.mp hm
      cases pure_eq_ok.mp hm
      obtain ⟨a, hb⟩ := h₁.memory.blocks
      obtain ⟨heap, rfl, -, hperm⟩ :=
        kmalloc_kfree hb hmalloc hblock hfree hvirtual.heap hvirtual.heapEnd
      exact .inl ⟨rfl, hperm⟩
  | some d =>
      cases pure_eq_ok.mp hm
      rcases hinUse with ⟨hzero, -⟩ | ⟨b, hdata, hperm⟩
      · exact absurd hzero hblock
      · refine .inr ⟨_, b, rfl, hdata, ?_⟩
        show (inUse m₂.heap).Perm _
        rw [hvirtual.heap]
        exact hperm

theorem processDestroy_inUse (h : KernelInv k use) (hp : p ∈ k.pids)
    (hm : processDestroy k p = .ok k') :
    k' = { k with mm := k'.mm, pids := k.pids.erase p } ∧
      ∃ b, b.data = (k.processes p).block ∧ (inUse k.mm.heap).Perm (b :: inUse k'.mm.heap) := by
  unfold processDestroy at hm
  by_cases hthreads : (k.processes p).threads ≠ []
  · rw [if_pos hthreads] at hm
    cases hm
  rw [if_neg hthreads] at hm
  by_cases hstacks : (k.processes p).userStacks ≠ []
  · rw [if_pos hstacks] at hm
    cases hm
  rw [if_neg hstacks] at hm
  have hne : (k.processes p).pageDirectory ≠ 0 := by
    intro hzero
    have hd := (h.processes.directory p hp).1
    rw [hzero, h.memory.ready.uses.zero] at hd
    cases hd
  rw [if_pos hne] at hm
  obtain ⟨m₁, hdestroy, hm⟩ := bind_eq_ok.mp hm
  obtain ⟨m₂, hfree, hm⟩ := bind_eq_ok.mp hm
  cases pure_eq_ok.mp hm
  have hvirtual := pagingDestroyDirectory_virtual hdestroy
  obtain ⟨a, hb⟩ := h.memory.blocks
  have hb₁ : Blocks a m₁.heap m₁.heapEnd := by
    rw [hvirtual.heap, hvirtual.heapEnd]
    exact hb
  obtain ⟨heap, rfl, -, b, hdata, -, hperm⟩ := kfree_spec (h.processes.block p hp) hb₁ hfree
  refine ⟨rfl, b, hdata, ?_⟩
  rw [← hvirtual.heap]
  exact hperm

/-! The block of the call is one more, or one less. -/

theorem perm_taken {l l' : List HeapBlock} {b : HeapBlock} {rest : List Nat}
    (h : (l.map HeapBlock.data).Perm rest) (hl : l'.Perm (b :: l)) :
    (l'.map HeapBlock.data).Perm (b.data :: rest) :=
  (hl.map _).trans (h.cons _)

theorem perm_freed {l l' : List HeapBlock} {b : HeapBlock} {rest rest' : List Nat}
    (h : (l.map HeapBlock.data).Perm rest) (hl : l.Perm (b :: l'))
    (hrest : rest.Perm (b.data :: rest')) : (l'.map HeapBlock.data).Perm rest' := by
  have hmap : (b.data :: l'.map HeapBlock.data).Perm (b.data :: rest') :=
    (hl.map _).symm.trans (h.trans hrest)
  exact hmap.cons_inv

/-- The blocks of the threads after `thread_create`. -/
theorem Created.blocks_map {slot : Nat} (hc : Created a k use p slot block k' use')
    (hlt : ∀ t ∈ k.tids, t < k.nextTid) :
    (k'.tids.map fun t => (k'.threads t).block).Perm
      (block :: k.tids.map fun t => (k.threads t).block) := by
  have hkernel := hc.kernel
  generalize k'.mm = mm at hkernel
  subst hkernel
  show ((k.tids ++ [k.nextTid]).map fun t =>
    (Function.update k.threads k.nextTid (newThread block p slot) t).block).Perm _
  rw [List.map_append, List.map_singleton, Function.update_self]
  have hold : (k.tids.map fun t =>
      (Function.update k.threads k.nextTid (newThread block p slot) t).block) =
        k.tids.map fun t => (k.threads t).block := by
    apply List.map_congr_left
    intro t ht
    rw [Function.update_of_ne (Nat.ne_of_lt (hlt t ht))]
  rw [hold]
  exact List.perm_append_singleton _ _

/-- Taking one of a list out of its image. -/
theorem perm_erase_map {l : List Nat} {x : Nat} (g : Nat → Nat) (hx : x ∈ l) :
    (l.map g).Perm (g x :: (l.erase x).map g) :=
  (List.perm_cons_erase hx).map g

/-- One case for each call. -/
theorem HeapShared.step {use : Nat → Use} {c : MemoryCall} (h : HeapShared s)
    (hinv : KernelInv s.kernel use) (hc : c.valid s = true) (ho : c.owned s = true)
    (hs : s.step c = some s') : HeapShared s' := by
  rw [step_eq_some] at hs
  unfold HeapShared at *
  cases c with
  | kmalloc size =>
      obtain ⟨⟨ptr, mm⟩, hm, hs⟩ := bind_eq_ok.mp hs
      cases pure_eq_ok.mp hs
      dsimp only
      rcases kmalloc_inUse hm with ⟨rfl, hsame⟩ | ⟨b, rfl, hperm⟩
      · rw [if_pos rfl, hsame]
        exact h
      · rw [if_neg (by simp [HeapBlock.data, heapHeader])]
        exact perm_taken h hperm
  | kfree ptr =>
      obtain ⟨mm, hm, hs⟩ := bind_eq_ok.mp hs
      cases pure_eq_ok.mp hs
      simp only [MemoryCall.owned, Bool.or_eq_true, beq_iff_eq, decide_eq_true_eq] at ho
      dsimp only
      obtain ⟨a, hb⟩ := hinv.memory.blocks
      by_cases hptr : ptr = 0
      · -- No block has the address 0.
        have hnot : 0 ∉ s.held := by
          intro hmem
          obtain ⟨b, -, hdata⟩ := List.mem_map.mp (h.mem_iff.mpr (List.mem_append_left _ hmem))
          exact absurd hdata (by simp [HeapBlock.data, heapHeader])
        subst hptr
        cases pure_eq_ok.mp hm
        rw [List.erase_of_not_mem hnot]
        exact h
      · obtain ⟨heap, rfl, -, b, rfl, -, hperm⟩ := kfree_spec hptr hb hm
        have hheld := ho.resolve_left hptr
        apply perm_freed h hperm
        exact (List.perm_cons_erase hheld).append_right _
  | processCreate =>
      obtain ⟨⟨found, k'⟩, hm, hs⟩ := bind_eq_ok.mp hs
      cases pure_eq_ok.mp hs
      dsimp only
      rcases processCreate_inUse hinv hm with ⟨hk, hperm⟩ | ⟨process, b, hk, hdata, hperm⟩
      · rw [hk]
        exact (hperm.map _).trans h
      · refine (perm_taken h hperm).trans ?_
        rw [hk, hdata]
        have hold : (s.kernel.pids.map fun p =>
            (Function.update s.kernel.processes s.kernel.nextPid process p).block) =
              s.kernel.pids.map fun p => (s.kernel.processes p).block := by
          apply List.map_congr_left
          intro p hp
          rw [Function.update_of_ne (Nat.ne_of_lt (hinv.processes.lt p hp))]
        show List.Perm _ (s.held ++ (_ ++ (s.kernel.pids ++ [s.kernel.nextPid]).map fun p =>
          (Function.update s.kernel.processes s.kernel.nextPid process p).block))
        rw [List.map_append, List.map_singleton, Function.update_self, hold, ← List.append_assoc,
          ← List.append_assoc]
        exact (List.perm_append_singleton _ _).symm.trans (.of_eq (by rw [List.append_assoc]; rfl))
  | processDestroy p =>
      obtain ⟨k', hm, hs⟩ := bind_eq_ok.mp hs
      cases pure_eq_ok.mp hs
      dsimp only
      obtain ⟨hk, b, hdata, hperm⟩ := processDestroy_inUse hinv (of_decide_eq_true hc) hm
      rw [hk]
      apply perm_freed h hperm
      rw [hdata]
      refine (((perm_erase_map (fun p => (s.kernel.processes p).block)
        (of_decide_eq_true hc)).append_left _).append_left _).trans ?_
      exact (List.perm_middle.append_left _).trans List.perm_middle
  | userMap p virt flags =>
      obtain ⟨mm, hm, hs⟩ := bind_eq_ok.mp hs
      cases pure_eq_ok.mp hs
      have hheap : mm.heap = s.kernel.mm.heap := by
        unfold mapUserPage at hm
        rcases halloc : s.kernel.mm.allocPage with ⟨phys, m₁⟩
        rw [halloc] at hm
        dsimp only at hm
        split at hm
        · cases pure_eq_ok.mp hm
          exact (allocPage_virtual halloc).heap
        · exact ((allocPage_virtual halloc).trans (pagingMap_virtual hm)).heap
      dsimp only
      rw [hheap]
      exact h
  | userUnmap p virt =>
      obtain ⟨mm, hm, hs⟩ := bind_eq_ok.mp hs
      cases pure_eq_ok.mp hs
      simp only [MemoryCall.valid, Bool.and_eq_true, decide_eq_true_eq] at hc
      obtain ⟨hd, hk⟩ := hinv.processes.directory p hc.1
      obtain ⟨-, -, hsame⟩ := releaseUserPage_local hinv.memory.ready.uses hd hk hc.2 hm
      dsimp only
      rw [hsame.heap]
      exact h
  | threadCreate p =>
      obtain ⟨⟨found, k'⟩, hm, hs⟩ := bind_eq_ok.mp hs
      cases pure_eq_ok.mp hs
      dsimp only
      obtain ⟨a, hb⟩ := hinv.memory.blocks
      obtain ⟨use', ⟨-, hnot⟩ | ⟨-, slot, block, hcreated⟩⟩ :=
        threadCreate_spec hinv.memory.ready hb hinv.memory.freeVacant hm
      · have hperm := hnot.inUse
        rw [hnot.kernel]
        exact (hperm.map _).trans h
      · obtain ⟨b, hdata, hperm⟩ := hcreated.inUse
        have hblocks := hcreated.blocks_map hinv.threads.lt
        have hpids : k'.pids = s.kernel.pids := by rw [hcreated.kernel]
        have hprocesses : k'.processes = s.kernel.processes := by rw [hcreated.kernel]
        refine (perm_taken h hperm).trans ?_
        rw [hpids, hprocesses, hdata]
        exact List.perm_middle.symm.trans ((hblocks.symm.append_right _).append_left _)
  | threadAdd t =>
      cases pure_eq_ok.mp hs
      have hblocks : ∀ p, ((linkThread s.kernel t).processes p).block = (s.kernel.processes p).block :=
        fun p => (setProcess_records p).2
      show List.Perm _ (s.held ++ (_ ++ s.kernel.pids.map fun p =>
        ((linkThread s.kernel t).processes p).block))
      simp only [hblocks]
      exact h
  | threadExit t =>
      cases pure_eq_ok.mp hs
      have hblocks : ∀ u, (Function.update s.kernel.threads t
          { s.kernel.threads t with terminated := true } u).block = (s.kernel.threads u).block := by
        intro u
        by_cases hut : u = t
        · rw [hut, Function.update_self]
        · rw [Function.update_of_ne hut]
      show List.Perm _ (s.held ++ ((s.kernel.tids.map fun u => (Function.update s.kernel.threads t
          { s.kernel.threads t with terminated := true } u).block) ++ _))
      simp only [hblocks]
      exact h
  | threadDestroy t =>
      obtain ⟨k', hm, hs⟩ := bind_eq_ok.mp hs
      cases pure_eq_ok.mp hs
      dsimp only
      have ht : t ∈ s.kernel.tids := of_decide_eq_true hc
      obtain ⟨a, hb⟩ := hinv.memory.blocks
      obtain ⟨slot, hstack, hne, hlt⟩ := hinv.threadSlot ht
      obtain ⟨huser, hdesc, hblock⟩ := hinv.threads.plain t ht
      obtain ⟨use', hr⟩ := threadDestroy_spec hinv.memory.ready hb hstack hlt hne huser hdesc hblock hm
      obtain ⟨b, hdata, hperm⟩ := hr.inUse
      have hblocks : ∀ p, (k'.processes p).block = (s.kernel.processes p).block := by
        intro p
        rw [hr.kernel]
        exact (setProcess_records p).2
      have htids : k'.tids = s.kernel.tids.erase t := by rw [hr.kernel]
      have hthreads : k'.threads = s.kernel.threads := by
        rw [hr.kernel]
        rfl
      have hpids : k'.pids = s.kernel.pids := by
        rw [hr.kernel]
        rfl
      apply perm_freed h hperm
      rw [hdata, htids, hthreads, hpids]
      simp only [hblocks]
      exact (((perm_erase_map (fun t => (s.kernel.threads t).block) ht).append_right _).append_left
        _).trans List.perm_middle

theorem OwnedRun.inv (hrun : OwnedRun s calls s') (h : ∃ use, KernelInv s.kernel use)
    (hs : HeapShared s) : (∃ use, KernelInv s'.kernel use) ∧ HeapShared s' := by
  apply Transition.Run.invariant hrun (I := fun s => (∃ use, KernelInv s.kernel use) ∧ HeapShared s)
    ⟨h, hs⟩
  rintro s₁ c s₂ ⟨⟨use, hinv⟩, hshared⟩ ⟨hc, ho⟩ hstep
  exact ⟨hinv.step hc hstep, hshared.step hinv hc ho hstep⟩

/-- After `scheduler_start` no block is in use. -/
theorem AfterStart.shared (h : AfterStart k) : HeapShared ⟨k, []⟩ := by
  obtain ⟨use, hstarted⟩ := h.started
  unfold HeapShared
  dsimp only
  rw [hstarted.inUse, h.tids, h.pids]
  exact .nil

/-! ## What a call gives back -/

theorem Vacated.table_back {k n : Nat} (hv : Vacated k slot n use use') (hf : use' f = .table k i) :
    use f = .table k i := by
  by_cases hold : ∃ w, firstPages (stackSlot slot) n w ∧ use f = .page k w
  · obtain ⟨w, hw, hold⟩ := hold
    rw [hv.old w f hw hold] at hf
    cases hf
  · rcases hv.rest f fun w hw heq => hold ⟨w, hw, heq⟩ with hsame | ⟨-, hfree⟩
    · exact hsame.symm.trans hf
    · rw [hfree] at hf
      cases hf

/-- The block of a thread is in use. -/
theorem HeapShared.threadBlock (h : HeapShared s) (ht : t ∈ s.kernel.tids) :
    ∃ b ∈ inUse s.kernel.mm.heap, b.data = (s.kernel.threads t).block := by
  apply List.mem_map.mp
  rw [h.mem_iff]
  apply List.mem_append_right
  apply List.mem_append_left
  exact List.mem_map_of_mem ht

/-- The calls that are about no process. -/
def MemoryCall.ofThreads : MemoryCall → Bool
  | .kmalloc _ | .kfree _ | .threadCreate _ | .threadAdd _ | .threadExit _ | .threadDestroy _ => true
  | .processCreate | .processDestroy _ | .userMap _ _ _ | .userUnmap _ _ => false

/-- The frame is free, or the stacks have it. -/
def StackPool (k : Nat) (u : Use) : Prop :=
  u = .free ∨ (∃ v, StackPage v ∧ u = .page k v) ∨ ∃ i, StackTable i ∧ u = .table k i

/-- The page belongs to the first slot, or to a thread that was there before and still is. -/
def Stays (k₀ k : Kernel) (v : Nat) : Prop :=
  firstPages (stackSlot 0) kernelStackPages v ∨
    ∃ t ∈ k₀.tids, t ∈ k.tids ∧ firstPages (k₀.threads t).kernelStack kernelStackPages v

/-- What has happened to the stacks since `k₀`. -/
structure Since (k₀ : Kernel) (use₀ : Nat → Use) (k : Kernel) (use : Nat → Use) : Prop where
  inv : KernelInv k use
  kernelDirectory : k.mm.kernelDirectory = k₀.mm.kernelDirectory
  heapEnd : k₀.mm.heapEnd ≤ k.mm.heapEnd
  kept : ∀ f, ¬ StackPool k₀.mm.kernelDirectory (use₀ f) → use f = use₀ f
  spent : ∀ f, StackPool k₀.mm.kernelDirectory (use₀ f) →
    StackPool k₀.mm.kernelDirectory (use f) ∨
      OfHeap k₀.mm.kernelDirectory k₀.mm.heapEnd k.mm.heapEnd (use f)
  pages : ∀ v, Stays k₀ k v → ∀ f,
    use f = .page k₀.mm.kernelDirectory v ↔ use₀ f = .page k₀.mm.kernelDirectory v
  tables : ∀ v f, Stays k₀ k v → use₀ f = .page k₀.mm.kernelDirectory v → ∀ g,
    use g = .table k₀.mm.kernelDirectory (v / 1024) ↔ use₀ g = .table k₀.mm.kernelDirectory (v / 1024)
  nextTid : k₀.nextTid ≤ k.nextTid
  same : ∀ t ∈ k₀.tids, t ∈ k.tids → (k.threads t).kernelStack = (k₀.threads t).kernelStack

section Since

variable {k₀ : Kernel} {c : MemoryCall}

theorem Since.refl (h : KernelInv k use) : Since k use k use where
  inv := h
  kernelDirectory := rfl
  heapEnd := Nat.le_refl _
  kept _ _ := rfl
  spent _ hf := .inl hf
  pages _ _ _ := Iff.rfl
  tables _ _ _ _ _ := Iff.rfl
  nextTid := Nat.le_refl _
  same _ _ _ := rfl

/-- A page that stays is mapped, in the first slot or in that of a thread. -/
theorem Since.slot_of_stays (h : Since k₀ use₀ k use) (h₀ : KernelInv k₀ use₀) (hv : Stays k₀ k v) :
    ∃ slot < kernelStackCount, firstPages (stackSlot slot) kernelStackPages v ∧
      (slot = 0 ∨ k.hasStack slot) := by
  rcases hv with hv | ⟨t, ht₀, ht, hv⟩
  · exact ⟨0, by decide, hv, .inl rfl⟩
  · obtain ⟨slot, hslot, -, hlt⟩ := h₀.threadSlot ht₀
    rw [hslot] at hv
    exact ⟨slot, hlt, hv, .inr ⟨t, ht, (h.same t ht₀ ht).trans hslot⟩⟩

/-- The page table of a page that is mapped before and after a step is the same if the step only adds
page tables or only removes some. -/
theorem tables_same {d g : Nat} (hu : Uses m use) (hu' : Uses m' use') (hf : use f = .page d v)
    (hf' : use' f = .page d v) (hone : (∀ t, use t = .table d (v / 1024) → use' t = .table d (v / 1024)) ∨
      ∀ t, use' t = .table d (v / 1024) → use t = .table d (v / 1024)) :
    use' g = .table d (v / 1024) ↔ use g = .table d (v / 1024) := by
  obtain ⟨t, ht, -⟩ := hu.page_back f d v hf
  obtain ⟨t', ht', -⟩ := hu'.page_back f d v hf'
  have hsame : t = t' := by
    rcases hone with hadd | hremove
    · exact hu'.table_unique (hadd t ht) ht'
    · exact hu.table_unique ht (hremove t' ht')
  subst hsame
  constructor
  · intro hg
    rw [hu'.table_unique hg ht']
    exact ht
  · intro hg
    rw [hu.table_unique hg ht]
    exact ht'

/-- A step that takes frames for stacks and the heap, or gives back such, and touches nothing of a page
that stays. -/
theorem Since.step (h : Since k₀ use₀ k use) (hinv : KernelInv k' use')
    (hk : k'.mm.kernelDirectory = k.mm.kernelDirectory) (hend : k.mm.heapEnd ≤ k'.mm.heapEnd)
    (hkept : ∀ f, ¬ StackPool k.mm.kernelDirectory (use f) → use' f = use f)
    (hspent : ∀ f, StackPool k.mm.kernelDirectory (use f) →
      StackPool k.mm.kernelDirectory (use' f) ∨
        OfHeap k.mm.kernelDirectory k.mm.heapEnd k'.mm.heapEnd (use' f))
    (hstays : ∀ v, Stays k₀ k' v → Stays k₀ k v ∧ ∀ f,
      use' f = .page k.mm.kernelDirectory v ↔ use f = .page k.mm.kernelDirectory v)
    (htables : (∀ t i, use t = .table k.mm.kernelDirectory i → use' t = .table k.mm.kernelDirectory i) ∨
      ∀ t i, StackTable i → use' t = .table k.mm.kernelDirectory i → use t = .table k.mm.kernelDirectory i)
    (hnext : k.nextTid ≤ k'.nextTid)
    (hsame : ∀ t ∈ k₀.tids, t ∈ k'.tids → t ∈ k.tids ∧
      (k'.threads t).kernelStack = (k.threads t).kernelStack)
    (hpage : ∀ v, Stays k₀ k' v → StackPage v) : Since k₀ use₀ k' use' := by
  have hkd := h.kernelDirectory
  refine ⟨hinv, hk.trans hkd, Nat.le_trans h.heapEnd hend, fun f hf => ?_, fun f hf => ?_,
    fun v hv f => ?_, fun v f hv hf g => ?_, Nat.le_trans h.nextTid hnext, fun t ht₀ ht => ?_⟩
  · have hbefore := h.kept f hf
    rw [hkept f (by rw [hbefore, hkd]; exact hf), hbefore]
  · rw [← hkd]
    rcases h.spent f hf with hpool | hheap
    · rw [← hkd] at hpool
      exact (hspent f hpool).imp_right fun hheap => hheap.mono h.heapEnd (Nat.le_refl _)
    · -- A frame of the heap is none of the pool.
      have hhigh := h.inv.memory.ready.region.2
      have hnot : ¬ StackPool k.mm.kernelDirectory (use f) := by
        rw [hkd]
        rintro (hfree | ⟨w, hw, hpage'⟩ | ⟨i, hi, htable⟩)
        · exact hheap.ne_free hfree
        · exact not_ofHeap_page hhigh hw (hpage' ▸ hheap)
        · exact not_ofHeap_table hhigh hi (htable ▸ hheap)
      rw [hkept f hnot, hkd]
      exact .inr (hheap.mono (Nat.le_refl _) hend)
  · obtain ⟨hbefore, hiff⟩ := hstays v hv
    rw [← h.pages v hbefore f, ← hkd]
    exact hiff f
  · obtain ⟨hbefore, hiff⟩ := hstays v hv
    rw [← h.tables v f hbefore hf g, ← hkd]
    have hnow : use f = .page k.mm.kernelDirectory v := by
      rw [hkd]
      exact (h.pages v hbefore f).mpr hf
    apply tables_same h.inv.memory.ready.uses hinv.memory.ready.uses hnow ((hiff f).mpr hnow)
    exact htables.imp (fun hall t => hall t _) fun hall t => hall t _ (stackPage_table (hpage v hv))
  · obtain ⟨hbefore, hstack⟩ := hsame t ht₀ ht
    exact hstack.trans (h.same t ht₀ hbefore)

/-- A step in which only the heap grows. -/
theorem Since.grow (h : Since k₀ use₀ k use) (h₀ : KernelInv k₀ use₀) (hinv : KernelInv k' use')
    {d : Nat} (hoverlay : Overlay d k.mm use noPage k'.mm use') (htids : k'.tids = k.tids)
    (hstacks : ∀ t, (k'.threads t).kernelStack = (k.threads t).kernelStack)
    (hnext : k'.nextTid = k.nextTid) : Since k₀ use₀ k' use' := by
  have hsame := hoverlay.sameStacks hinv.memory.ready.region k.mm.kernelDirectory fun _ hv => hv.elim
  have hstays : ∀ v, Stays k₀ k' v ↔ Stays k₀ k v := by
    intro v
    unfold Stays
    rw [htids]
  have hpage : ∀ v, Stays k₀ k v → StackPage v := by
    intro v hv
    obtain ⟨slot, hlt, hslot, -⟩ := h.slot_of_stays h₀ hv
    exact stackPage_slot hlt hslot
  refine h.step hinv hoverlay.kernelDirectory hoverlay.heapEnd (fun f hf => ?_) (fun f hf => ?_)
    (fun v hv => ?_) (.inl fun t i ht => ?_) (Nat.le_of_eq hnext.symm) (fun t _ ht => ?_)
    fun v hv => hpage v ((hstays v).mp hv)
  · exact hoverlay.kept f fun hfree => hf (.inl hfree)
  · by_cases hfree : use f = .free
    · rcases (hoverlay.free_iff f).mp hfree with hfree' | ⟨-, hheap⟩
      · exact .inl (.inl hfree')
      · exact .inr hheap
    · rw [hoverlay.kept f hfree]
      exact .inl hf
  · have hbefore := (hstays v).mp hv
    exact ⟨hbefore, fun f => hsame.page f v (hpage v hbefore)⟩
  · exact (hoverlay.kept t (by rw [ht]; simp)).trans ht
  · rw [htids] at ht
    exact ⟨ht, hstacks t⟩

/-- A new thread. -/
theorem Since.created (h : Since k₀ use₀ k use) (h₀ : KernelInv k₀ use₀)
    (hc : Created a k use p slot block k' use') : Since k₀ use₀ k' use' := by
  have hinv := h.inv.created hc
  have hlt := hc.vacant.lt
  have htids : k'.tids = k.tids ++ [k.nextTid] := by rw [hc.kernel]
  have hthreads : k'.threads = Function.update k.threads k.nextTid (newThread block p slot) := by
    rw [hc.kernel]
  have hnext : k'.nextTid = k.nextTid + 1 := by rw [hc.kernel]
  -- The new thread was not there before.
  have hold : ∀ t ∈ k₀.tids, t ∈ k'.tids → t ∈ k.tids := by
    intro t ht₀ ht
    rw [htids] at ht
    rcases List.mem_append.mp ht with ht | ht
    · exact ht
    · have hlow := Nat.lt_of_lt_of_le (h₀.threads.lt t ht₀) h.nextTid
      rw [List.mem_singleton.mp ht] at hlow
      exact absurd hlow (Nat.lt_irrefl _)
  have hstays : ∀ v, Stays k₀ k' v → Stays k₀ k v := by
    intro v hv
    exact hv.imp_right fun ⟨t, ht₀, ht, hpage⟩ => ⟨t, ht₀, hold t ht₀ ht, hpage⟩
  have hslot : ∀ v, Stays k₀ k v → StackPage v ∧ ¬ firstPages (stackSlot slot) kernelStackPages v := by
    intro v hv
    obtain ⟨slot', hlt', hpage, htaken⟩ := h.slot_of_stays h₀ hv
    refine ⟨stackPage_slot hlt' hpage, fun hnew => ?_⟩
    have heq := firstPages_slot hpage hnew
    subst heq
    have hbusy := (h.inv.memory.slots _ hlt').mpr htaken
    rw [hc.free] at hbusy
    cases hbusy
  refine h.step hinv hc.overlay.kernelDirectory hc.overlay.heapEnd (fun f hf => ?_) (fun f hf => ?_)
    (fun v hv => ⟨hstays v hv, fun f => ?_⟩) (.inl fun t i ht => ?_) (by rw [hnext]; exact Nat.le_succ _)
    (fun t ht₀ ht => ⟨hold t ht₀ ht, ?_⟩) fun v hv => (hslot v (hstays v hv)).1
  · exact hc.overlay.kept f fun hfree => hf (.inl hfree)
  · by_cases hfree : use f = .free
    · rcases hc.overlay.spent f hfree with hfree' | ⟨v, hv, hpage⟩ | ⟨v, hv, htable⟩ | hheap
      · exact .inl (.inl hfree')
      · exact .inl (.inr (.inl ⟨v, stackPage_slot hlt hv, hpage⟩))
      · exact .inl (.inr (.inr ⟨_, stackPage_table (stackPage_slot hlt hv), htable⟩))
      · exact .inr hheap
    · rw [hc.overlay.kept f hfree]
      exact .inl hf
  · obtain ⟨hpage, hother⟩ := hslot v (hstays v hv)
    rw [hc.page_iff hpage]
    constructor
    · intro hf
      exact hf.resolve_right fun hnew => hother hnew.2.2
    · exact .inl
  · exact (hc.overlay.kept t (by rw [ht]; simp)).trans ht
  · have hne : t ≠ k.nextTid :=
      Nat.ne_of_lt (Nat.lt_of_lt_of_le (h₀.threads.lt t ht₀) h.nextTid)
    rw [hthreads, Function.update_of_ne hne]

/-- A thread is gone. -/
theorem Since.released (h : Since k₀ use₀ k use) (h₀ : KernelInv k₀ use₀) (ht : t ∈ k.tids)
    (hstack : (k.threads t).kernelStack = stackSlot slot) (hr : Released a k use t slot k' use') :
    Since k₀ use₀ k' use' := by
  have hinv := h.inv.destroyed ht hstack hr
  obtain ⟨hne, hlt⟩ := h.inv.memory.live_lt slot ⟨t, ht, hstack⟩
  have htids : k'.tids = k.tids.erase t := by rw [hr.kernel]
  have hthreads : k'.threads = k.threads := by
    rw [hr.kernel]
    rfl
  have hnext : k'.nextTid = k.nextTid := by
    rw [hr.kernel]
    rfl
  have hleft : ∀ u, u ∈ k'.tids ↔ u ≠ t ∧ u ∈ k.tids := by
    intro u
    rw [htids]
    exact h.inv.threads.nodup.mem_erase_iff
  have hstays : ∀ v, Stays k₀ k' v → Stays k₀ k v := by
    intro v hv
    exact hv.imp_right fun ⟨u, hu₀, hu, hpage⟩ => ⟨u, hu₀, ((hleft u).mp hu).2, hpage⟩
  have hpage : ∀ v, Stays k₀ k v → StackPage v := by
    intro v hv
    obtain ⟨slot', hlt', hslot, -⟩ := h.slot_of_stays h₀ hv
    exact stackPage_slot hlt' hslot
  have hother : ∀ v, Stays k₀ k' v → ¬ firstPages (stackSlot slot) kernelStackPages v := by
    intro v hv hgone
    rcases hv with hv | ⟨u, hu₀, hu, hv⟩
    · exact hne (firstPages_slot hgone hv)
    · obtain ⟨hut, hu⟩ := (hleft u).mp hu
      rw [← h.same u hu₀ hu] at hv
      obtain ⟨slot', hslot', -⟩ := h.inv.threadSlot hu
      rw [hslot'] at hv
      have heq := firstPages_slot hv hgone
      subst heq
      exact hut (h.inv.threads.distinct u hu t ht (hslot'.trans hstack.symm))
  refine h.step hinv hr.here.kernelDirectory (Nat.le_of_eq hr.heapEnd.symm) (fun f hf => ?_)
    (fun f hf => .inl ?_) (fun v hv => ⟨hstays v hv, fun f => ?_⟩)
    (.inr fun g i _ hg => hr.vacated.table_back hg) (Nat.le_of_eq hnext.symm) (fun u hu₀ hu => ?_)
    fun v hv => hpage v (hstays v hv)
  · have hnone : ∀ v, firstPages (stackSlot slot) kernelStackPages v →
        use f ≠ .page k.mm.kernelDirectory v := fun v hv heq =>
      hf (.inr (.inl ⟨v, stackPage_slot hlt hv, heq⟩))
    rcases hr.vacated.rest f hnone with hsame | ⟨htable, -⟩
    · exact hsame
    · exact absurd (.inr (.inr ⟨_, stackTable_slot hlt, htable⟩)) hf
  · by_cases hold : ∃ v, firstPages (stackSlot slot) kernelStackPages v ∧
        use f = .page k.mm.kernelDirectory v
    · obtain ⟨v, hv, hold⟩ := hold
      exact .inl (hr.vacated.old v f hv hold)
    · rcases hr.vacated.rest f fun v hv heq => hold ⟨v, hv, heq⟩ with hsame | ⟨-, hfree⟩
      · rw [hsame]
        exact hf
      · exact .inl hfree
  · rw [hr.vacated.page_iff]
    exact and_iff_left (hother v hv)
  · rw [hthreads]
    exact ⟨((hleft u).mp hu).2, rfl⟩

/-- One case for each call. -/
theorem Since.call (h : Since k₀ use₀ s.kernel use) (h₀ : KernelInv k₀ use₀) (hc : c.valid s = true)
    (hthreads : c.ofThreads = true) (hs : s.step c = some s') :
    ∃ use', Since k₀ use₀ s'.kernel use' := by
  rw [step_eq_some] at hs
  have hinv := h.inv
  have hrefl : Overlay 0 s.kernel.mm use noPage s.kernel.mm use := .refl hinv.memory.ready.uses
  cases c with
  | kmalloc size =>
      obtain ⟨⟨ptr, mm⟩, hm, hs⟩ := bind_eq_ok.mp hs
      cases pure_eq_ok.mp hs
      obtain ⟨use', hinv', habsorbs⟩ := hinv.kmalloc hm
      exact ⟨use', h.grow h₀ hinv' (habsorbs.overlay (d := 0)) rfl (fun _ => rfl) rfl⟩
  | kfree ptr =>
      obtain ⟨mm, hm, hs⟩ := bind_eq_ok.mp hs
      cases pure_eq_ok.mp hs
      have hinv' := hinv.kfree hm
      obtain ⟨heap, rfl⟩ := kfree_frame hm
      exact ⟨use, h.grow h₀ hinv' (hrefl.record rfl rfl rfl rfl) rfl (fun _ => rfl) rfl⟩
  | threadCreate p =>
      obtain ⟨⟨found, k'⟩, hm, hs⟩ := bind_eq_ok.mp hs
      cases pure_eq_ok.mp hs
      obtain ⟨a, hb⟩ := hinv.memory.blocks
      obtain ⟨use', ⟨-, hnot⟩ | ⟨-, slot, block, hc⟩⟩ :=
        threadCreate_spec hinv.memory.ready hb hinv.memory.freeVacant hm
      · have hinv' : KernelInv k' use' := by
          rw [hnot.kernel]
          apply hinv.keep (hinv.memory.notCreated hnot) hnot.overlay.kernelDirectory
          exact fun d hd => (hnot.overlay.kept d (by rw [hd]; simp)).trans hd
        refine ⟨use', h.grow h₀ hinv' hnot.overlay ?_ (fun t => ?_) ?_⟩
        · rw [hnot.kernel]
        · rw [hnot.kernel]
        · rw [hnot.kernel]
      · exact ⟨use', h.created h₀ hc⟩
  | threadAdd t =>
      cases pure_eq_ok.mp hs
      exact ⟨use, h.grow h₀ (hinv.link t) hrefl rfl (fun _ => rfl) rfl⟩
  | threadExit t =>
      cases pure_eq_ok.mp hs
      refine ⟨use, h.grow h₀ (hinv.exit t) hrefl rfl (fun u => ?_) rfl⟩
      show (Function.update s.kernel.threads t _ u).kernelStack = _
      by_cases hut : u = t
      · rw [hut, Function.update_self]
      · rw [Function.update_of_ne hut]
  | threadDestroy t =>
      obtain ⟨k', hm, hs⟩ := bind_eq_ok.mp hs
      cases pure_eq_ok.mp hs
      have ht : t ∈ s.kernel.tids := of_decide_eq_true hc
      obtain ⟨a, hb⟩ := hinv.memory.blocks
      obtain ⟨slot, hstack, hne, hlt⟩ := hinv.threadSlot ht
      obtain ⟨huser, hdesc, hblock⟩ := hinv.threads.plain t ht
      obtain ⟨use', hr⟩ := threadDestroy_spec hinv.memory.ready hb hstack hlt hne huser hdesc hblock hm
      exact ⟨use', h.released h₀ ht hstack hr⟩
  | processCreate => cases hthreads
  | processDestroy p => cases hthreads
  | userMap p virt flags => cases hthreads
  | userUnmap p virt => cases hthreads

/-- A run of the heap and the threads. -/
abbrev ThreadRun :=
  Transition.Run KernelState.step fun s c => (c.valid s = true ∧ c.owned s = true) ∧ c.ofThreads = true

theorem Since.run (hrun : ThreadRun s calls s') (h₀ : KernelInv s.kernel use₀) :
    ∃ use, Since s.kernel use₀ s'.kernel use := by
  apply Transition.Run.invariant hrun (I := fun s' => ∃ use, Since s.kernel use₀ s'.kernel use)
    ⟨use₀, .refl h₀⟩
  rintro s₁ c s₂ ⟨use, h⟩ ⟨⟨hc, -⟩, hthreads⟩ hstep
  exact h.call h₀ hc hthreads hstep

end Since

/-! ## The balance -/

end Neox
