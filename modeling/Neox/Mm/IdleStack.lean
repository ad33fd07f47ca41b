import Neox.Mm.HeapGrowth
import Neox.Mm.Start

/-!
# The idle thread's stack

`scheduler_start` takes the first kernel-stack slot for the idle thread, which is never destroyed. Its
first page is the page behind the region of the heap.
-/

namespace Neox

open Pmm Checked

variable {m m' : Mm} {use : Nat → Use} {i : Nat} {info : BootInfo} {frames : Nat → Bytes.Block}
  {directory : Nat}

/-- The body of the loop of `scheduler_start`. -/
def mapIdlePage (stack : Nat) (m : Mm) (i : Nat) : Except Stop Mm :=
  let (phys, m) := m.allocPage
  if phys = 0 then throw (.assertion .idleStack)
  else pagingMap m m.kernelDirectory (stack + i * pageSize) phys (pagePresent ||| pageWritable)

/-- `scheduler_start`, as far as memory goes. The initial frame is written to the top of the stack. -/
def schedulerStart (m : Mm) : Except Stop Mm := do
  let (stack, m) := vamAllocStack m
  if stack = 0 then throw (.assertion .idleStack)
  let m ← (List.range (kernelStackSize / pageSize)).foldlM (mapIdlePage stack) m
  if !(← pagingValidateMapping m m.kernelDirectory (stack + kernelStackSize - 4)) then throw .pageFault
  return m

/-! ## `heap_init` -/

/-- `heap_init` makes a heap of one page, or there is no frame left. -/
theorem heapInit_cases (hu : Uses m use) (hfail : m.pmm.failAllocations = 0)
    (hnone : ∀ g, use g ≠ .page m.kernelDirectory (kernelHeapStart / pageSize))
    (h : heapInit m = .ok m') :
    m'.freeFrames = [] ∧ m'.pmm.failAllocations = 0 ∨
      m'.heap ≠ [] ∧ m'.heapEnd = kernelHeapStart + pageSize := by
  have ho : Owns m.kernelDirectory m.kernelDirectory (directoryIndex kernelHeapStart) :=
    owns_self.mpr (by decide)
  obtain ⟨phys, hphys, ⟨hzero, -, -⟩ | ⟨hne, hmapped⟩⟩ := translate_mapped hu ho
  · have hpages := vmmAllocPages_eq (by decide) hphys
    rw [if_neg (not_not.mpr hzero)] at hpages
    unfold Neox.heapInit at h
    rw [hpages] at h
    cases hframes : m.freeFrames with
    | nil =>
        rw [allocPage_exhausted hfail hframes] at h
        cases pure_eq_ok.mp h
        exact .inl ⟨hframes, hfail⟩
    | cons f l =>
        obtain ⟨q, halloc, hp, -⟩ := allocPage_cons hu hframes
        rw [halloc, if_neg hp] at h
        obtain ⟨⟨virt, m₂⟩, hmap, h⟩ := bind_eq_ok.mp h
        have hvirt : virt = kernelHeapStart := by
          cases hmapped : pagingMap { m with pmm := q } m.kernelDirectory kernelHeapStart (f * pageSize)
              (pagePresent ||| pageWritable) with
          | error e =>
              rw [hmapped] at hmap
              cases hmap
          | ok m₃ =>
              rw [hmapped] at hmap
              cases hmap
              rfl
        subst hvirt
        dsimp only at h
        rw [if_neg (by decide)] at h
        obtain ⟨valid, -, h⟩ := bind_eq_ok.mp h
        cases valid with
        | false => cases h
        | true =>
            cases pure_eq_ok.mp h
            exact .inr ⟨by simp, rfl⟩
  · obtain ⟨g, hg⟩ := (mapped_iff hu ho).mp hmapped
    exact absurd hg (hnone g)

/-! ## The stack's pages -/

/-- The next frame is mapped at a page of the kernel's, unless there is none for the page table. -/
theorem mapKernelPage {m₁ : Mm} {p virt : Nat} (hu : Uses m use)
    (ho : Owns m.kernelDirectory m.kernelDirectory (directoryIndex virt))
    (halloc : m.allocPage = (p, m₁)) (hp : p ≠ 0)
    (hmap : pagingMap m₁ m₁.kernelDirectory virt p (pagePresent ||| pageWritable) = .ok m') :
    ∃ use', Local (At m.kernelDirectory (virt / pageSize)) m use m' use' ∧
      ((∃ f, use' f = .page m.kernelDirectory (virt / pageSize)) ∨ m'.freeFrames = []) := by
  rcases hu.take (R := At m.kernelDirectory (virt / pageSize)) halloc with
    ⟨hzero, -⟩ | ⟨f, -, rfl, -, hplt, hlocal⟩
  · exact absurd hzero hp
  have hkernel := hlocal.kernelDirectory
  have hheld : Function.update use f .held (f * pageSize / pageSize) = .held := by
    rw [Nat.mul_div_cancel _ (by decide), Function.update_self]
  rw [hkernel] at hmap
  obtain ⟨use', hmapLocal, hcases⟩ := hlocal.uses.pagingMap (hlocal.directory.mpr hu.kernel)
    (hkernel.symm ▸ ho) hheld hplt (by decide) (by decide) hmap
  refine ⟨use', hlocal.trans hmapLocal, ?_⟩
  rcases hcases with ⟨-, -, hfail⟩ | ⟨hmapped, -⟩
  · right
    cases hframes : m.freeFrames with
    | nil =>
        obtain ⟨q, hnil, -⟩ := allocPage_nil hframes
        rw [hnil] at halloc
        exact absurd (Prod.mk.inj halloc).1.symm hp
    | cons g l =>
        obtain ⟨q, hcons, -, -, hzero, -⟩ := allocPage_cons hu hframes
        rw [hcons] at halloc
        obtain ⟨-, rfl⟩ := Prod.mk.inj halloc
        cases hrest : ({ m with pmm := q } : Mm).freeFrames with
        | nil =>
            rw [allocPage_exhausted hzero hrest] at hfail
            cases hfail
            exact hrest
        | cons t l' =>
            obtain ⟨q', hcons', hne, -⟩ := allocPage_cons hlocal.uses hrest
            rw [hcons'] at hfail
            exact absurd (Prod.mk.inj hfail).1 hne
  · exact .inl ⟨_, hmapped.new⟩

/-- The pages of a kernel stack. -/
def StackPages (k stack : Nat) : Region := fun d v => d = k ∧ stack ≤ v * pageSize ∧
  v * pageSize < stack + kernelStackSize

theorem stackPages_at {k stack : Nat} (hi : i < kernelStackSize / pageSize) (hs : stack % pageSize = 0)
    (d v : Nat) (h : At k ((stack + i * pageSize) / pageSize) d v) : StackPages k stack d v := by
  obtain ⟨rfl, rfl⟩ := h
  refine ⟨rfl, ?_, ?_⟩
  · simp only [pageSize, kernelStackSize] at *
    omega
  · simp only [pageSize, kernelStackSize] at *
    omega

theorem owns_stacks {virt : Nat} (hlow : kernelStacksStart ≤ virt) (hhigh : virt ≤ kernelStacksEnd)
    (k : Nat) : Owns k k (directoryIndex virt) := by
  rw [owns_self]
  simp only [kernelStacksStart, kernelStacksEnd, directoryIndex, recursivePdeIndex] at *
  omega

/-- The heap's own fields are as they were. -/
structure SameHeap (m m' : Mm) : Prop where
  heap : m'.heap = m.heap
  heapEnd : m'.heapEnd = m.heapEnd

/-- While the stack's pages are mapped, in order: the first is, unless the frames have run out with it. -/
structure IdleLoop (m : Mm) (use : Nat → Use) (i : Nat) (m' : Mm) : Prop where
  change : ∃ use', Local (StackPages m.kernelDirectory kernelStacksStart) m use m' use' ∧
    (i = 0 ∨ (∃ f, use' f = .page m.kernelDirectory (kernelStacksStart / pageSize)) ∨
      i = 1 ∧ m'.freeFrames = [])
  same : SameHeap m m'
  slots : m'.stackSlots = m.stackSlots

theorem IdleLoop.step {m₁ : Mm} (h : IdleLoop m use i m₁) (hi : i < kernelStackSize / pageSize) :
    Post (fun _ => True) (IdleLoop m use (i + 1)) (mapIdlePage kernelStacksStart m₁ i) := by
  refine ⟨fun {m'} hstep => ?_, fun _ => trivial⟩
  obtain ⟨⟨use₁, hlocal, hfirst⟩, hsame, hslots⟩ := h
  have hkernel := hlocal.kernelDirectory
  unfold mapIdlePage at hstep
  rcases halloc : m₁.allocPage with ⟨p, m₂⟩
  rw [halloc] at hstep
  dsimp only at hstep
  by_cases hp : p = 0
  · rw [if_pos hp] at hstep
    cases hstep
  rw [if_neg hp] at hstep
  have ho : Owns m₁.kernelDirectory m₁.kernelDirectory
      (directoryIndex (kernelStacksStart + i * pageSize)) := by
    apply owns_stacks
    · exact Nat.le_add_right _ _
    · simp only [kernelStacksStart, kernelStacksEnd, kernelStackSize, pageSize] at *
      omega
  obtain ⟨use', hpage, hcase⟩ := mapKernelPage hlocal.uses ho halloc hp hstep
  have hwithin := hpage.mono (stackPages_at hi (by decide))
  rw [hkernel] at hwithin hcase
  refine ⟨⟨use', hlocal.trans hwithin, ?_⟩, ⟨?_, ?_⟩, ?_⟩
  · right
    by_cases hzero : i = 0
    · subst hzero
      exact hcase.imp_right fun hnone => ⟨rfl, hnone⟩
    · rcases hfirst with h0 | ⟨f, hf⟩ | ⟨-, hnone⟩
      · exact absurd h0 hzero
      · -- The first page is another one.
        refine .inl ⟨f, ?_⟩
        rw [hpage.keeps_iff, hf]
        rintro ⟨-, hv⟩
        simp only [kernelStacksStart, pageSize] at hv
        omega
      · obtain ⟨q, hnil, -⟩ := allocPage_nil hnone
        rw [hnil] at halloc
        cases halloc
        exact absurd rfl hp
  · rw [pagingMap_heap hstep, allocPage_heap halloc]
    exact hsame.heap
  · rw [(pagingMap_frame hstep).2.2.1, allocPage_heapEnd halloc]
    exact hsame.heapEnd
  · rw [(pagingMap_virtual hstep).stackSlots, (allocPage_virtual halloc).stackSlots]
    exact hslots

/-- The idle thread has the first slot. -/
theorem vamAllocStack_first (h : m.stackSlots 0 = false) :
    vamAllocStack m =
      (kernelStacksStart, { m with stackSlots := Function.update m.stackSlots 0 true }) := by
  have hfind : (List.range kernelStackCount).find? (fun slot => !m.stackSlots slot) = some 0 := by
    rw [List.find?_range_eq_some]
    refine ⟨by simp [h], List.mem_range.mpr (by decide), fun j hj => absurd hj (Nat.not_lt_zero j)⟩
  unfold vamAllocStack
  rw [hfind]
  rfl

/-- After `scheduler_start` the heap is ready, the first slot is taken, and pages of that alone have
been mapped. -/
theorem schedulerStart_ready (hu : Uses m use) (hslot : m.stackSlots 0 = false)
    (hheap : m.freeFrames = [] ∨ m.heap ≠ [] ∧ m.heapEnd = kernelHeapStart + pageSize)
    (h : schedulerStart m = .ok m') :
    ∃ use', HeapReady m' use' ∧ Local (StackPages m.kernelDirectory kernelStacksStart) m use m' use' ∧
      SameHeap m m' ∧ m'.stackSlots = Function.update m.stackSlots 0 true := by
  unfold schedulerStart at h
  rw [vamAllocStack_first hslot] at h
  dsimp only at h
  rw [if_neg (by decide)] at h
  obtain ⟨m₁, hloop, h⟩ := bind_eq_ok.mp h
  obtain ⟨valid, -, h⟩ := bind_eq_ok.mp h
  cases valid with
  | false => cases h
  | true =>
      cases pure_eq_ok.mp h
      have hstart : IdleLoop { m with stackSlots := Function.update m.stackSlots 0 true } use 0
          { m with stackSlots := Function.update m.stackSlots 0 true } :=
        ⟨⟨use, .refl (hu.congr rfl rfl rfl), .inl rfl⟩, ⟨rfl, rfl⟩, rfl⟩
      have hend := (Post.foldlM_range hstart fun i hi m₂ h₂ => h₂.step hi).of_ok hloop
      obtain ⟨⟨use', hlocal, hfirst⟩, ⟨hheap', hend'⟩, hslots⟩ := hend
      have hkernel := hlocal.kernelDirectory
      obtain ⟨hne, hheapEnd⟩ : m.heap ≠ [] ∧ m.heapEnd = kernelHeapStart + pageSize := by
        refine hheap.resolve_left fun hframes => ?_
        -- Without a frame the loop stops at its first page.
        obtain ⟨q, hnil, -⟩ := allocPage_nil (m := { m with
          stackSlots := Function.update m.stackSlots 0 true }) hframes
        rw [show List.range (kernelStackSize / pageSize) = [0, 1, 2, 3] from rfl, List.foldlM_cons] at hloop
        obtain ⟨m₂, hstep, -⟩ := bind_eq_ok.mp hloop
        unfold mapIdlePage at hstep
        rw [hnil] at hstep
        cases hstep
      rcases hfirst with hzero | ⟨f, hf⟩ | ⟨hone, -⟩
      · cases hzero
      · have hsame : Local (StackPages m.kernelDirectory kernelStacksStart) m use m' use' :=
          ⟨hlocal.uses, hlocal.kernelDirectory, hlocal.use_eq, hlocal.frames, hlocal.trace,
            hlocal.entries⟩
        refine ⟨use', ⟨hlocal.uses, ?_, ?_, ?_, f, ?_⟩, hsame, ⟨hheap', hend'⟩, hslots⟩
        · rw [hheap']
          exact hne
        · rw [hend', hheapEnd]
          rfl
        · unfold HeapEndIn
          rw [hend', hheapEnd]
          decide
        · rw [hkernel]
          exact hf
      · cases hone

theorem heapInit_slots (h : heapInit m = .ok m') : m'.stackSlots = m.stackSlots := by
  unfold Neox.heapInit at h
  obtain ⟨⟨virt, m₁⟩, halloc, h⟩ := bind_eq_ok.mp h
  have hslots := vmmAllocPages_slots halloc
  dsimp only at h
  by_cases hvirt : virt = 0
  · rw [if_pos hvirt] at h
    cases pure_eq_ok.mp h
    exact hslots
  rw [if_neg hvirt] at h
  obtain ⟨valid, -, h⟩ := bind_eq_ok.mp h
  cases valid with
  | false => cases h
  | true =>
      cases pure_eq_ok.mp h
      exact hslots

theorem allocPage_failing {p : Nat} (h : m.allocPage = (p, m')) (hfail : m.pmm.failAllocations = 0) :
    m'.pmm.failAllocations = 0 := by
  unfold Mm.allocPage pmmAllocPage at h
  rw [if_neg (not_not.mpr hfail)] at h
  cases hfind : (List.range m.pmm.totalPages).find? fun page => !m.pmm.bitmap page with
  | none =>
      rw [hfind] at h
      cases h
      exact hfail
  | some page =>
      rw [hfind] at h
      cases h
      exact hfail

theorem pagingInit_failing {cr3 : Nat} (h : pagingInit m cr3 = .ok m')
    (hfail : m.pmm.failAllocations = 0) : m'.pmm.failAllocations = 0 := by
  unfold pagingInit at h
  rcases hpage : m.allocPage with ⟨phys, m₁⟩
  have hzero := allocPage_failing hpage hfail
  rw [hpage] at h
  dsimp only at h
  by_cases hp : phys = 0
  · rw [if_pos hp] at h
    cases h
  · rw [if_neg hp] at h
    obtain ⟨t, -, h⟩ := bind_eq_ok.mp h
    obtain ⟨bootstrap, -, h⟩ := bind_eq_ok.mp h
    cases pure_eq_ok.mp h
    exact hzero

theorem pmmInit_failing (info : BootInfo) : (pmmInit info).failAllocations = 0 := by
  unfold pmmInit
  split
  · rfl
  · rfl

/-- The machine after `scheduler_start`: the heap is ready and has no block in use, and of the stacks'
slots and pages only those of the first are taken. -/
structure Started (m : Mm) (use : Nat → Use) : Prop where
  ready : HeapReady m use
  blocks : ∃ a, Blocks a m.heap m.heapEnd
  inUse : inUse m.heap = []
  slots : m.stackSlots = Function.update (fun _ => false) 0 true
  page : ∀ f v, use f = .page m.kernelDirectory v → kernelStacksStart / pageSize ≤ v →
    v < (kernelStacksStart + kernelStackSize) / pageSize
  table : ∀ f i, use f = .table m.kernelDirectory i → kernelStacksStart / pageSize / 1024 ≤ i →
    i = kernelStacksStart / pageSize / 1024

/-- On a machine as `boot_uses` asks for. -/
theorem boot_started {m₁ : Mm} (h : boot info frames directory = .ok m₁)
    (hlimit : (pmmInit info).totalPages ≤ 0x100000) (hlt : directory + 4 < directFrames)
    (hreserved : ∀ f, directory ≤ f → f ≤ directory + 4 → ¬ (pmmInit info).Free f)
    (hstart : schedulerStart m₁ = .ok m) : ∃ use, Started m use := by
  obtain ⟨a, hblocks, -, hunused⟩ := boot_blocks h
  unfold boot at h
  obtain ⟨m₀, hinit, h⟩ := bind_eq_ok.mp h
  have hu := pagingInit_uses hinit rfl hlimit (pmmInit_zero info) hlt hreserved
  have hstacks : Uses (vamInitStacks m₀) (startUse m₀) := hu.congr rfl rfl rfl
  obtain ⟨use₁, hlocal₁⟩ := hstacks.heapInit h
  have hfail : m₀.pmm.failAllocations = 0 := by
    apply pagingInit_failing hinit
    exact pmmInit_failing info
  -- At first the kernel's directory has no page tables of its own.
  have hnone : ∀ g d v, startUse m₀ g ≠ .page d v ∧ startUse m₀ g ≠ .table d v := by
    intro g d v
    rcases startUse_simple m₀ g with h | h | h
    · simp [h]
    · simp [h]
    · simp [h]
  have hslot : m₁.stackSlots = fun _ => false := heapInit_slots h
  have hheap := (heapInit_cases hstacks hfail (fun g => (hnone g _ _).1) h).imp_left And.left
  obtain ⟨use, hready, hlocal, hsame, hslots⟩ :=
    schedulerStart_ready hlocal₁.uses (congrFun hslot 0) hheap hstart
  have hk₁ : m₁.kernelDirectory = m₀.kernelDirectory := hlocal₁.kernelDirectory
  have hk : m.kernelDirectory = m₀.kernelDirectory := hlocal.kernelDirectory.trans hk₁
  have hbefore : ∀ g u, use₁ g = u → use₁ g = startUse m₀ g ∨
      (u.Within (At m₀.kernelDirectory (kernelHeapStart / pageSize))) := by
    intro g u hg
    subst hg
    exact (hlocal₁.use_eq g).imp_right And.right
  refine ⟨use, hready, ⟨a, ?_⟩, ?_, hslots.trans (by rw [hslot]), fun f v hf hv => ?_,
    fun f i hf hi => ?_⟩
  · rw [hsame.heap, hsame.heapEnd]
    exact hblocks
  · rw [hsame.heap]
    exact hunused
  · rw [hk] at hf
    rcases hlocal.use_eq f with hsame | ⟨-, hwithin⟩
    · rw [hsame] at hf
      rcases hbefore f _ hf with hstart | ⟨-, hpage⟩
      · rw [hf] at hstart
        exact absurd hstart.symm (hnone f _ _).1
      · simp only [kernelStacksStart, kernelHeapStart, kernelBootstrapEnd, kernelVirtBase,
          bootstrapMapSize, pageSize] at *
        omega
    · rw [hf] at hwithin
      obtain ⟨-, -, hlt⟩ := hwithin
      simp only [kernelStacksStart, kernelStackSize, pageSize] at *
      omega
  · rw [hk] at hf
    rcases hlocal.use_eq f with hsame | ⟨-, hwithin⟩
    · rw [hsame] at hf
      rcases hbefore f _ hf with hstart | ⟨v, ⟨-, hpage⟩, hv⟩
      · rw [hf] at hstart
        exact absurd hstart.symm (hnone f _ _).2
      · simp only [kernelStacksStart, kernelHeapStart, kernelBootstrapEnd, kernelVirtBase,
          bootstrapMapSize, pageSize] at *
        omega
    · rw [hf] at hwithin
      obtain ⟨v, ⟨-, hle, hlt⟩, hv⟩ := hwithin
      simp only [kernelStacksStart, kernelStackSize, pageSize] at *
      omega

end Neox
