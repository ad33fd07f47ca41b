import Neox.Mm.Supply

/-!
# Growing the heap by a page

`HeapReady` is the heap between two calls. `heapExpand_eq` says what `heap_expand` does to it in each of
the cases of `Supply.map`.
-/

namespace Neox

open Pmm Checked

variable {m m' : Mm} {use : Nat → Use} {virt phys : Nat}

/-- The MMU translates the address in the kernel's directory. -/
def Mm.mapped (m : Mm) (virt : Nat) : Bool := (m.walk m.kernelDirectory virt).isSome

/-! ## `heap_expand`, forwards -/

/-- `vmm_alloc_pages` of one page, after `paging_translate`. -/
theorem vmmAllocPages_eq (hlt : virt < wordModulus)
    (h : pagingTranslate m m.kernelDirectory virt = .ok phys) :
    vmmAllocPages m virt 1 =
      if phys ≠ 0 then .ok (0, m)
      else if m.allocPage.1 = 0 then .ok (0, m.allocPage.2)
      else (pagingMap m.allocPage.2 m.kernelDirectory virt m.allocPage.1
        (pagePresent ||| pageWritable)).map fun m' => (virt, m') := by
  have hfirst : rangePage virt 0 = virt := by
    unfold rangePage
    rw [Nat.zero_mul, Nat.add_zero, Nat.mod_eq_of_lt hlt]
  have hkernel : m.allocPage.2.kernelDirectory = m.kernelDirectory := rfl
  unfold vmmAllocPages vmmMapPages
  rw [if_neg (by decide), show List.range 1 = [0] from rfl, List.allM, hfirst, h, ok_bind]
  by_cases hphys : phys = 0
  · subst hphys
    rw [if_neg (by simp)]
    show (vmmMapPagesFrom virt m 0 1 >>= _) = _
    unfold vmmMapPagesFrom
    rcases halloc : m.allocPage with ⟨p, m₁⟩
    rw [halloc] at hkernel
    dsimp only at hkernel ⊢
    by_cases hp : p = 0
    · rw [if_pos hp, if_pos hp]
      rfl
    · rw [if_neg hp, if_neg hp, hfirst, hkernel]
      cases pagingMap m₁ m.kernelDirectory virt p (pagePresent ||| pageWritable) with
      | error e => rfl
      | ok m₂ => rfl
  · rw [if_pos hphys]
    have hne : (phys == 0) = false := by simpa using hphys
    rw [hne]
    rfl

/-- The heap between two calls: it is not empty and ends on a page boundary of its region, and the first
page behind the region is mapped. -/
structure HeapReady (m : Mm) (use : Nat → Use) : Prop where
  uses : Uses m use
  heap : m.heap ≠ []
  aligned : m.heapEnd % pageSize = 0
  region : HeapEndIn m
  fence : ∃ f, use f = .page m.kernelDirectory (kernelStacksStart / pageSize)

theorem translate_mapped (hu : Uses m use)
    (ho : Owns m.kernelDirectory m.kernelDirectory (directoryIndex virt)) :
    ∃ phys, pagingTranslate m m.kernelDirectory virt = .ok phys ∧
      (phys = 0 ∧ m.mapped virt = false ∧ (∀ g, use g ≠ .page m.kernelDirectory (virt / pageSize)) ∨
        phys ≠ 0 ∧ m.mapped virt = true) := by
  obtain ⟨phys, hphys⟩ := hu.translate_returns hu.kernel (.inl ho)
  have hspec := pagingTranslate_spec hphys
  refine ⟨phys, hphys, ?_⟩
  unfold Mm.mapped
  rcases hu.translate hu.kernel ho hspec with ⟨hzero, hnone⟩ | ⟨hne, hpage, hmod⟩
  · refine .inl ⟨hzero, ?_, hnone⟩
    cases hwalk : m.walk m.kernelDirectory virt with
    | none => rfl
    | some p =>
        exact absurd ((hu.walk_iff hu.kernel ho).mp hwalk).1 (hnone _)
  · refine .inr ⟨hne, ?_⟩
    rw [(hu.walk_iff hu.kernel ho).mpr ⟨hpage, hmod⟩]
    rfl

theorem mapped_iff (hu : Uses m use)
    (ho : Owns m.kernelDirectory m.kernelDirectory (directoryIndex virt)) :
    m.mapped virt = true ↔ ∃ f, use f = .page m.kernelDirectory (virt / pageSize) := by
  obtain ⟨phys, hphys, ⟨-, hfalse, hnone⟩ | ⟨hne, htrue⟩⟩ := translate_mapped hu ho
  · rw [hfalse]
    constructor
    · intro h
      cases h
    · rintro ⟨f, hf⟩
      exact absurd hf (hnone f)
  · refine iff_of_true htrue ?_
    rcases hu.translate hu.kernel ho (pagingTranslate_spec hphys) with ⟨hzero, -⟩ | ⟨-, hpage, -⟩
    · exact absurd hzero hne
    · exact ⟨_, hpage⟩

theorem validate_mapped (hu : Uses m use)
    (ho : Owns m.kernelDirectory m.kernelDirectory (directoryIndex virt)) :
    pagingValidateMapping m m.kernelDirectory virt = .ok (m.mapped virt) := by
  obtain ⟨table, htable⟩ := hu.getTable hu.kernel (.inl ho)
  have hreturns : ∃ valid, pagingValidateMapping m m.kernelDirectory virt = .ok valid := by
    unfold pagingValidateMapping
    rw [htable]
    cases table with
    | none => exact ⟨_, rfl⟩
    | some t => exact ⟨_, rfl⟩
  obtain ⟨valid, hvalid⟩ := hreturns
  rw [hvalid, pagingValidateMapping_spec hvalid]
  rfl

/-- The block `heap_expand` appends, merged with what is before it. -/
def expandHeap (heap : List HeapBlock) (heapEnd : Nat) : List HeapBlock :=
  heapMerge (heap ++ [{ addr := heapEnd, size := pageSize - heapHeader, free := true }])

/-- The heap has grown by a page, and `s` is left. -/
structure Grown (m : Mm) (use : Nat → Use) (s : Supply) (m' : Mm) (use' : Nat → Use) : Prop where
  ready : HeapReady m' use'
  kernelDirectory : m'.kernelDirectory = m.kernelDirectory
  supply : m'.supply m'.kernelDirectory = s
  heap : m'.heap = expandHeap m.heap m.heapEnd
  heapEnd : m'.heapEnd = m.heapEnd + pageSize
  /-- Other pages are mapped as before. -/
  mapped : ∀ virt, m.heapEnd + pageSize ≤ virt → virt ≤ kernelStacksStart →
    m'.mapped virt = m.mapped virt
  shrinks : ∀ f, use' f = .free → use f = .free
  taken : ∃ f, use f = .free ∧ use' f ≠ .free

theorem owns_heap (hlow : kernelHeapStart ≤ virt) (hhigh : virt ≤ kernelStacksStart) (k : Nat) :
    Owns k k (directoryIndex virt) := by
  rw [owns_self]
  simp only [kernelHeapStart, kernelBootstrapEnd, kernelVirtBase, bootstrapMapSize, kernelStacksStart,
    directoryIndex, recursivePdeIndex] at *
  omega

/-- The end of the heap that has been mapped becomes a block. -/
theorem grown_of_mapped {m₂ : Mm} {use' : Nat → Use} {s : Supply} {f : Nat} (h : HeapReady m use)
    (hunmapped : ∀ g, use g ≠ .page m.kernelDirectory (m.heapEnd / pageSize))
    (hlocal : Local (At m.kernelDirectory (m.heapEnd / pageSize)) m use m₂ use')
    (hsupply : m₂.supply m.kernelDirectory = s) (hend : m₂.heapEnd = m.heapEnd)
    (hfree : use f = .free) (hnew : use' f = .page m.kernelDirectory (m.heapEnd / pageSize))
    (hothers : ∀ g, g ≠ f → use' g = use g ∨
      use g = .free ∧ use' g = .table m.kernelDirectory (m.heapEnd / pageSize / 1024)) :
    Grown m use s
      { m₂ with heap := expandHeap m.heap m.heapEnd, heapEnd := (m₂.heapEnd + pageSize) % wordModulus }
      use' := by
  have hkernel := hlocal.kernelDirectory
  obtain ⟨hlow, hhigh⟩ := h.region
  have haligned := h.aligned
  obtain ⟨fence, hfence⟩ := h.fence
  have hbelow : m.heapEnd < kernelStacksStart := by
    apply Nat.lt_of_le_of_ne hhigh
    intro heq
    rw [heq] at hunmapped
    exact hunmapped fence hfence
  have hnext : (m₂.heapEnd + pageSize) % wordModulus = m.heapEnd + pageSize := by
    rw [hend]
    simp only [kernelStacksStart, pageSize, wordModulus] at *
    omega
  -- Every other page keeps its frame.
  have hkeep : ∀ v g, v ≠ m.heapEnd / pageSize →
      (use' g = .page m.kernelDirectory v ↔ use g = .page m.kernelDirectory v) := by
    intro v g hv
    exact hlocal.keeps_iff fun hwithin => hv hwithin.2
  have huses : Uses { m₂ with
      heap := expandHeap m.heap m.heapEnd
      heapEnd := (m₂.heapEnd + pageSize) % wordModulus } use' := hlocal.uses.congr rfl rfl rfl
  rw [hnext] at huses ⊢
  refine ⟨⟨huses, ?_, ?_, ⟨?_, ?_⟩, fence, ?_⟩, hkernel, ?_, rfl, rfl, fun virt hv hv' => ?_,
    fun g hg => ?_, f, hfree, ?_⟩
  · exact heapMerge_ne_nil (by simp)
  · simp only [pageSize] at *
    omega
  · exact Nat.le_trans hlow (Nat.le_add_right _ _)
  · simp only [kernelHeapEnd, kernelStacksStart, pageSize] at *
    omega
  · show use' fence = .page m₂.kernelDirectory (kernelStacksStart / pageSize)
    rw [hkernel, hkeep]
    · exact hfence
    · simp only [kernelStacksStart, pageSize] at *
      omega
  · show m₂.supply m₂.kernelDirectory = s
    rw [hkernel]
    exact hsupply
  · have ho := owns_heap (Nat.le_trans hlow (by omega : m.heapEnd ≤ virt)) hv' m.kernelDirectory
    rw [Bool.eq_iff_iff, mapped_iff h.uses ho, mapped_iff huses (hkernel.symm ▸ ho)]
    apply exists_congr
    intro g
    show use' g = .page m₂.kernelDirectory (virt / pageSize) ↔ _
    rw [hkernel]
    apply hkeep
    simp only [pageSize] at *
    omega
  · by_cases hgf : g = f
    · rw [hgf]
      exact hfree
    · rcases hothers g hgf with hsame | ⟨hwas, -⟩
      · rw [← hsame]
        exact hg
      · exact hwas
  · rw [hnew]
    simp

theorem heapExpand_eq (h : HeapReady m use) :
    if m.mapped m.heapEnd then heapExpand m = .ok (false, m)
    else
      match (m.supply m.kernelDirectory).map m.heapEnd with
      | .refused => ∃ q, heapExpand m = .ok (false, { m with pmm := q }) ∧ SameFree m.pmm q
      | .lost _ => heapExpand m = .error .pageFault
      | .unreachable => ∃ table, heapExpand m = .error (.wild table)
      | .mapped s => ∃ m' use', heapExpand m = .ok (true, m') ∧ Grown m use s m' use' := by
  have hlow := h.region.1
  have hhigh : m.heapEnd ≤ kernelStacksStart := h.region.2
  have hlt : m.heapEnd < wordModulus := by
    simp only [kernelStacksStart, wordModulus] at *
    omega
  have hne : m.heapEnd ≠ 0 := by
    simp only [kernelHeapStart, kernelBootstrapEnd, kernelVirtBase] at hlow
    omega
  have ho := owns_heap hlow hhigh m.kernelDirectory
  have hhead : ¬ (m.heap = [] ∨ m.heapEnd < kernelHeapStart) := by
    rw [not_or]
    exact ⟨h.heap, Nat.not_lt.mpr hlow⟩
  obtain ⟨phys, hphys, hcase⟩ := translate_mapped h.uses ho
  have hpages := vmmAllocPages_eq hlt hphys
  rcases hcase with ⟨hzero, hunmapped, hnone⟩ | ⟨hphys0, hmapped⟩
  · rw [if_neg (by rw [hunmapped]; simp)]
    rw [if_neg (not_not.mpr hzero)] at hpages
    have hnext := mapNext_spec h.uses h.uses.kernel ho
      (show pagePresent ||| pageWritable < pageSize by decide) (by decide) hnone
    unfold heapExpand
    rw [if_neg hhead, hpages]
    cases hmap : (m.supply m.kernelDirectory).map m.heapEnd with
    | refused =>
        rw [hmap] at hnext
        obtain ⟨q, halloc, hsame⟩ := hnext
        refine ⟨q, ?_, hsame⟩
        rw [halloc]
        rfl
    | lost s =>
        rw [hmap] at hnext
        obtain ⟨m₂, use', f, ⟨⟨p, m₁, halloc, hp, hmap'⟩, hlocal⟩, -, -, -, hnone'⟩ := hnext
        have ho₂ : Owns m₂.kernelDirectory m₂.kernelDirectory (directoryIndex m₂.heapEnd) := by
          rw [(pagingMap_frame hmap').2.2.1, allocPage_heapEnd halloc, hlocal.kernelDirectory]
          exact ho
        have hvalid := validate_mapped hlocal.uses ho₂
        have hunmapped₂ : m₂.mapped m₂.heapEnd = false := by
          rw [← Bool.not_eq_true, mapped_iff hlocal.uses ho₂, (pagingMap_frame hmap').2.2.1,
            allocPage_heapEnd halloc, hlocal.kernelDirectory]
          rintro ⟨g, hg⟩
          exact hnone' g hg
        rw [halloc, if_neg hp, hmap']
        dsimp only [Except.map, ok_bind]
        rw [if_neg hne, hvalid, hunmapped₂]
        rfl
    | unreachable =>
        rw [hmap] at hnext
        obtain ⟨p, m₁, table, halloc, hp, hmap'⟩ := hnext
        refine ⟨table, ?_⟩
        rw [halloc, if_neg hp, hmap']
        rfl
    | mapped s =>
        rw [hmap] at hnext
        obtain ⟨m₂, use', f, ⟨⟨p, m₁, halloc, hp, hmap'⟩, hlocal⟩, hsupply, hfree, hnew, hothers⟩ := hnext
        have hend : m₂.heapEnd = m.heapEnd :=
          (pagingMap_frame hmap').2.2.1.trans (allocPage_heapEnd halloc)
        have hheap : m₂.heap = m.heap := (pagingMap_heap hmap').trans (allocPage_heap halloc)
        have ho₂ : Owns m₂.kernelDirectory m₂.kernelDirectory (directoryIndex m₂.heapEnd) := by
          rw [hend, hlocal.kernelDirectory]
          exact ho
        have hmapped₂ : m₂.mapped m₂.heapEnd = true := by
          rw [mapped_iff hlocal.uses ho₂, hend, hlocal.kernelDirectory]
          exact ⟨f, hnew⟩
        refine ⟨_, use', ?_, grown_of_mapped h hnone hlocal hsupply hend hfree hnew hothers⟩
        rw [halloc, if_neg hp, hmap']
        dsimp only [Except.map, ok_bind]
        rw [if_neg hne, validate_mapped hlocal.uses ho₂, hmapped₂, hheap, hend]
        rfl
  · rw [if_pos hmapped]
    rw [if_pos hphys0] at hpages
    unfold heapExpand
    rw [if_neg hhead, hpages]
    rfl

/-! ## The heap stays ready -/

/-- A change outside the heap keeps it ready when the page behind its region stays mapped. -/
theorem HeapReady.of_local {R : Region} {use' : Nat → Use} (h : HeapReady m use)
    (hlocal : Local R m use m' use') (hheap : m'.heap = m.heap) (hend : m'.heapEnd = m.heapEnd)
    (hfence : ¬ R m.kernelDirectory (kernelStacksStart / pageSize)) : HeapReady m' use' where
  uses := hlocal.uses
  heap := hheap ▸ h.heap
  aligned := hend ▸ h.aligned
  region := by
    unfold HeapEndIn
    rw [hend]
    exact h.region
  fence := by
    obtain ⟨f, hf⟩ := h.fence
    refine ⟨f, ?_⟩
    rw [hlocal.kernelDirectory]
    exact (hlocal.keeps_iff fun hwithin : Use.Within R (.page _ _) => hfence hwithin).mpr hf

theorem HeapReady.heapExpand {b : Bool} (h : HeapReady m use) (hm : Neox.heapExpand m = .ok (b, m')) :
    ∃ use', HeapReady m' use' ∧ Absorbs m use m' use' := by
  have hlt : m.heapEnd < wordModulus := by
    have hhigh := h.region.2
    simp only [kernelHeapEnd, wordModulus] at *
    omega
  have hcase := heapExpand_eq h
  -- What the heap is like afterwards, whatever the frames are used for.
  have hafter : m'.heap ≠ [] ∧ m'.heapEnd % pageSize = 0 ∧ HeapEndIn m' := by
    split at hcase
    · rw [hm] at hcase
      cases hcase
      exact ⟨h.heap, h.aligned, h.region⟩
    · split at hcase
      · obtain ⟨q, hq, -⟩ := hcase
        rw [hm] at hq
        cases hq
        exact ⟨h.heap, h.aligned, h.region⟩
      · rw [hm] at hcase
        cases hcase
      · obtain ⟨table, he⟩ := hcase
        rw [hm] at he
        cases he
      · obtain ⟨m₂, use₂, hm₂, hgrown⟩ := hcase
        rw [hm] at hm₂
        cases hm₂
        exact ⟨hgrown.ready.heap, hgrown.ready.aligned, hgrown.ready.region⟩
  obtain ⟨hheap, haligned, hregion⟩ := hafter
  obtain ⟨use', habsorbs⟩ := h.uses.heapExpand hlt hregion hm
  obtain ⟨f, hf⟩ := h.fence
  refine ⟨use', ⟨habsorbs.uses, hheap, haligned, hregion, f, ?_⟩, habsorbs⟩
  rw [habsorbs.keeps (by rw [hf]; simp), habsorbs.kernelDirectory]
  exact hf

theorem HeapReady.expansions (h : HeapReady m use) (hm : Expansions m m') :
    ∃ use', HeapReady m' use' ∧ Absorbs m use m' use' := by
  induction hm with
  | refl => exact ⟨use, h, .refl h.uses⟩
  | tail _ hstep ih =>
      obtain ⟨b, hexpand⟩ := hstep
      obtain ⟨use₁, h₁, habsorbs₁⟩ := ih
      obtain ⟨use', h', habsorbs'⟩ := h₁.heapExpand hexpand
      exact ⟨use', h', habsorbs₁.trans habsorbs'⟩

/-- The blocks of the heap do not matter, as long as there is one. -/
theorem HeapReady.setHeap {heap : List HeapBlock} (h : HeapReady m use) (hheap : heap ≠ []) :
    HeapReady { m with heap := heap } use :=
  ⟨h.uses.congr rfl rfl rfl, hheap, h.aligned, h.region, h.fence⟩

theorem HeapReady.setSlots (h : HeapReady m use) (slots : Nat → Bool) :
    HeapReady { m with stackSlots := slots } use :=
  ⟨h.uses.congr rfl rfl rfl, h.heap, h.aligned, h.region, h.fence⟩

theorem HeapReady.kmalloc {size addr : Nat} (h : HeapReady m use)
    (hm : Neox.kmalloc m size = .ok (addr, m')) :
    ∃ use', HeapReady m' use' ∧ Absorbs m use m' use' ∧ m'.stackSlots = m.stackSlots := by
  obtain ⟨m₁, hexpand, hcase⟩ := kmalloc_spec hm
  obtain ⟨use', h₁, habsorbs⟩ := h.expansions hexpand
  have hslots := hexpand.slots
  rcases hcase with ⟨-, rfl⟩ | ⟨heap, htake, rfl⟩
  · exact ⟨use', h₁, habsorbs, hslots⟩
  · obtain ⟨b, -, hperm⟩ := heapTake_inUse htake
    refine ⟨use', h₁.setHeap ?_, habsorbs.congr rfl rfl rfl rfl rfl, hslots⟩
    rintro rfl
    exact absurd hperm.length_eq (by simp [inUse])

theorem HeapReady.kfree {ptr : Nat} (h : HeapReady m use) (hm : Neox.kfree m ptr = .ok m') :
    HeapReady m' use := by
  unfold Neox.kfree at hm
  split at hm
  · cases pure_eq_ok.mp hm
    exact h
  · rcases heapRelease_eq ptr m.heap with ⟨-, hnone⟩ | ⟨pre, b, post, -, -, -, hrelease⟩
    · rw [hnone] at hm
      cases hm
    · rw [hrelease] at hm
      cases hfree : b.free with
      | true =>
          rw [hfree] at hm
          cases hm
      | false =>
          rw [hfree] at hm
          cases pure_eq_ok.mp hm
          exact h.setHeap (heapMerge_ne_nil (by simp))

end Neox
