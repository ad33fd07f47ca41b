import Neox.Mm.Growth

/-!
# Pages that are mapped for a while

A function maps pages of a directory one after the other and, when it cannot go on, unmaps what it has
mapped. `Overlay` compares a state with the one before: some pages of one directory are new, the heap
may have grown, and all else is as it was. Once the last of the pages is unmapped nothing is left but
the growth of the heap.
-/

namespace Neox

open Pmm Checked

variable {m m' m₀ m₁ m₂ : Mm} {use use' use₀ : Nat → Use} {d d' f p v virt phys flags : Nat}

/-! ## Frames returned one after the other -/

/-- `pmm_free_page` for each of the frames. -/
def freeAll (p : Pmm) (frames : List Nat) : Pmm :=
  frames.foldl (fun p f => pmmFreePage p (f * pageSize)) p

/-- The allocator takes back the frames, each of them once and none that is free already. -/
structure FreesOnce (p : Pmm) (frames : List Nat) (q : Pmm) : Prop where
  calls : q = freeAll p frames
  nodup : frames.Nodup
  taken : ∀ f ∈ frames, f < p.totalPages ∧ ¬ p.Free f

section FreeAll

variable {p q : Pmm} {l l' : List Nat} {g phys : Nat}

/-- `pmm_free_page` looks at the page of the address. -/
theorem pmmFreePage_eq (h : phys / pageSize = g) : pmmFreePage p phys = freeAll p [g] := by
  subst h
  show pmmFreePage p phys = pmmFreePage p (phys / pageSize * pageSize)
  unfold pmmFreePage
  rw [Nat.mul_div_cancel _ (by decide)]

theorem freeAll_append : freeAll p (l ++ l') = freeAll (freeAll p l) l' :=
  List.foldl_append ..

theorem freeAll_free (h : ∀ f ∈ l, f < p.totalPages) :
    (freeAll p l).Free g ↔ p.Free g ∨ g ∈ l := by
  induction l generalizing p with
  | nil => simp [freeAll]
  | cons f l ih =>
      obtain ⟨hf, hl⟩ := List.forall_mem_cons.mp h
      obtain ⟨htotal, hbit⟩ := pmmFreePage_spec p (f * pageSize)
      rw [Nat.mul_div_cancel _ (by decide)] at hbit
      show (freeAll (pmmFreePage p (f * pageSize)) l).Free g ↔ _
      rw [ih (by rwa [htotal]), List.mem_cons]
      have hfirst : (pmmFreePage p (f * pageSize)).Free g ↔ p.Free g ∨ g = f := by
        unfold Pmm.Free
        rw [htotal, hbit]
        by_cases hg : g = f
        · subst hg
          simp [hf]
        · simp [hg]
      rw [hfirst, or_assoc]

theorem FreesOnce.free (h : FreesOnce p l q) : q.Free g ↔ p.Free g ∨ g ∈ l := by
  rw [h.calls]
  exact freeAll_free fun f hf => (h.taken f hf).1

theorem freeAll_totalPages (p : Pmm) (l : List Nat) : (freeAll p l).totalPages = p.totalPages := by
  induction l generalizing p with
  | nil => rfl
  | cons f l ih =>
      show (freeAll (pmmFreePage p (f * pageSize)) l).totalPages = _
      rw [ih, (pmmFreePage_spec p _).1]

theorem FreesOnce.nil (p : Pmm) : FreesOnce p [] p :=
  ⟨rfl, .nil, fun _ hf => absurd hf List.not_mem_nil⟩

/-- What is returned later was not returned before. -/
theorem FreesOnce.append {r : Pmm} (h : FreesOnce p l q) (h' : FreesOnce q l' r) :
    FreesOnce p (l ++ l') r where
  calls := by rw [h'.calls, h.calls, freeAll_append]
  nodup := by
    rw [List.nodup_append]
    refine ⟨h.nodup, h'.nodup, fun f hf g hg heq => (h'.taken g hg).2 ?_⟩
    rw [h.free]
    exact .inr (heq ▸ hf)
  taken f hf := by
    rcases List.mem_append.mp hf with hf | hf
    · exact h.taken f hf
    · obtain ⟨hlt, hfree⟩ := h'.taken f hf
      rw [h.calls, freeAll_totalPages] at hlt
      rw [h.free] at hfree
      exact ⟨hlt, fun hp => hfree (.inl hp)⟩

end FreeAll

/-! ## Unmapping a page and returning its frame -/

/-- Frames that are used for something may be returned. -/
theorem Uses.freesOnce {l : List Nat} (hu : Uses m use) (hnodup : l.Nodup)
    (hused : ∀ f ∈ l, use f ≠ .reserved ∧ use f ≠ .free) : FreesOnce m.pmm l (freeAll m.pmm l) where
  calls := rfl
  nodup := hnodup
  taken f hf := by
    obtain ⟨hreserved, hfree⟩ := hused f hf
    exact ⟨hu.managed f hreserved, fun h => hfree ((hu.free_iff f).mpr h)⟩

/-- A page table that is left has another page. -/
def NotEmpty (use : Nat → Use) (d i : Nat) : Prop :=
  ∀ t, use t = .table d i → ∃ f v, use f = .page d v ∧ v / 1024 = i

/-- `paging_unmap` returns at most a page table. -/
theorem Uses.pagingUnmap_pmm (hu : Uses m use) (hd : use d = .directory)
    (ho : Owns m.kernelDirectory d (directoryIndex virt)) (h : Neox.pagingUnmap m d virt = .ok m') :
    ∃ tables, m'.pmm = freeAll m.pmm tables ∧ tables.Nodup ∧
      ∀ f ∈ tables, ∃ i, use f = .table d i := by
  rcases pagingUnmap_spec h with ⟨-, rfl⟩ | ⟨hp, ⟨-, rfl⟩ | ⟨-, rfl⟩⟩
  · exact ⟨[], rfl, .nil, fun f hf => absurd hf List.not_mem_nil⟩
  · exact ⟨[], rfl, .nil, fun f hf => absurd hf List.not_mem_nil⟩
  · refine ⟨[m.entry d (directoryIndex virt) / pageSize], ?_, List.nodup_singleton _, fun f hf => ?_⟩
    · rw [Mm.record_pmm, Mm.setEntry_pmm, Mm.freePage_pmm, Mm.setEntry_pmm]
      exact pmmFreePage_eq frameMask_div
    · rw [List.mem_singleton.mp hf]
      exact ⟨_, hu.table d _ hd ho hp⟩

/-- `paging_translate`, `paging_unmap` and `pmm_free_page` of what was mapped: the allocator takes back
the frame and, with the last page of a page table, the table. -/
theorem Uses.unmapFree (hu : Uses m use) (hd : use d = .directory)
    (ho : Owns m.kernelDirectory d (directoryIndex virt)) (h : (do
      let phys ← pagingTranslate m d virt
      let m ← Neox.pagingUnmap m d virt
      return if phys ≠ 0 then m.freePage phys else m) = .ok m') :
    (∃ use', Local (At d (virt / pageSize)) m use m' use' ∧
      Cleared d (virt / pageSize) use use' ∧ NotEmpty use' d (virt / pageSize / 1024)) ∧
      (∃ frames, FreesOnce m.pmm frames m'.pmm) ∧ SameVirtual m m' := by
  obtain ⟨use', hlocal, hcleared⟩ := (hu.unmapFree_post hd ho).1 h
  obtain ⟨phys, hphys, h⟩ := bind_eq_ok.mp h
  obtain ⟨m₁, hunmap, h⟩ := bind_eq_ok.mp h
  cases pure_eq_ok.mp h
  have hframes : (if phys ≠ 0 then m₁.freePage phys else m₁).frames = m₁.frames := by
    split
    · rfl
    · rfl
  refine ⟨⟨use', hlocal, hcleared, fun t ht => ?_⟩, ?_, ?_⟩
  · rw [← directoryIndex_eq] at ht ⊢
    exact hu.table_left hd ho hunmap hframes hlocal.uses ht
  · obtain ⟨tables, hpmm, hnodup, htables⟩ := hu.pagingUnmap_pmm hd ho hunmap
    have hused : ∀ f ∈ tables, use f ≠ .reserved ∧ use f ≠ .free := by
      intro f hf
      obtain ⟨i, ht⟩ := htables f hf
      rw [ht]
      exact ⟨by simp, by simp⟩
    rcases hu.translate hd ho (pagingTranslate_spec hphys) with ⟨rfl, -⟩ | ⟨hne, hpage, -⟩
    · refine ⟨tables, ?_⟩
      show FreesOnce m.pmm tables m₁.pmm
      rw [hpmm]
      exact hu.freesOnce hnodup hused
    · refine ⟨tables ++ [phys / pageSize], ?_⟩
      rw [if_pos hne, Mm.freePage_pmm, hpmm, pmmFreePage_eq rfl, ← freeAll_append]
      apply hu.freesOnce
      · rw [List.nodup_append]
        refine ⟨hnodup, List.nodup_singleton _, fun f hf g hg heq => ?_⟩
        obtain ⟨i, ht⟩ := htables f hf
        rw [heq, List.mem_singleton.mp hg, hpage] at ht
        cases ht
      · intro f hf
        rcases List.mem_append.mp hf with hf | hf
        · exact hused f hf
        · rw [List.mem_singleton.mp hf, hpage]
          exact ⟨by simp, by simp⟩
  · apply (pagingUnmap_virtual hunmap).trans
    split
    · exact freePage_virtual m₁ phys
    · exact .refl m₁

/-- The boot page tables are as they were, and so are the entries whose page tables do not belong to the
directory: the kernel half of a process and, in the kernel's directory, the boot mappings and the
recursive entry. -/
structure KeepsShared (m : Mm) (use : Nat → Use) (m' : Mm) : Prop where
  reserved : ∀ f, use f = .reserved → m'.frames f = m.frames f
  shared : ∀ d i, use d = .directory → ¬ Owns m.kernelDirectory d i → m'.entry d i = m.entry d i
  kernelDirectory : m'.kernelDirectory = m.kernelDirectory

section KeepsShared

variable {addr size : Nat}

theorem KeepsShared.refl (m : Mm) (use : Nat → Use) : KeepsShared m use m :=
  ⟨fun _ _ => rfl, fun _ _ _ _ => rfl, rfl⟩

theorem KeepsShared.trans (h : KeepsShared m use m₁) (h' : KeepsShared m₁ use' m')
    (hkept : ∀ f, use f = .reserved ∨ use f = .directory → use' f = use f) : KeepsShared m use m' where
  reserved f hf := (h'.reserved f ((hkept f (.inl hf)).trans hf)).trans (h.reserved f hf)
  shared d i hd ho := by
    have ho₁ : ¬ Owns m₁.kernelDirectory d i := h.kernelDirectory ▸ ho
    exact (h'.shared d i ((hkept d (.inr hd)).trans hd) ho₁).trans (h.shared d i hd ho)
  kernelDirectory := h'.kernelDirectory.trans h.kernelDirectory

/-- A change outside the paging structures. -/
theorem KeepsShared.record (h : KeepsShared m use m₁) (hf : m'.frames = m₁.frames)
    (hk : m'.kernelDirectory = m₁.kernelDirectory) : KeepsShared m use m' where
  reserved f hr := hf ▸ h.reserved f hr
  shared d i hd ho := by
    unfold Mm.entry
    rw [hf]
    exact h.shared d i hd ho
  kernelDirectory := hk.trans h.kernelDirectory

/-- Work on pages whose page tables belong to their directories. -/
theorem Local.keepsShared {R : Region} (h : Local R m use m' use')
    (hR : ∀ d v, R d v → Owns m.kernelDirectory d (v / 1024)) : KeepsShared m use m' where
  reserved f hf := by
    apply h.frames f
    · rw [hf]
      exact id
    · rw [hf]
      simp
  shared d i hd ho := by
    apply h.entries d i hd
    right
    intro v hv heq
    exact ho (heq ▸ hR d v hv)
  kernelDirectory := h.kernelDirectory

theorem Uses.heapExpand_shared {b : Bool} (hu : Uses m use) (hlt : m.heapEnd < wordModulus)
    (hin : HeapEndIn m') (h : Neox.heapExpand m = .ok (b, m')) : KeepsShared m use m' := by
  have hstart := (heapExpand_grows h).start hlt hin
  obtain ⟨-, virt, m₁, halloc, hcase⟩ := heapExpand_spec h
  obtain ⟨use', hlocal, -⟩ := hu.vmmAllocPage hlt (owns_heapEnd hstart) halloc
  have hshared : KeepsShared m use m₁ := by
    apply hlocal.keepsShared
    intro d v hv
    rw [hv.1, hv.2, ← directoryIndex_eq]
    exact owns_heapEnd hstart
  rcases hcase with ⟨-, -, rfl⟩ | ⟨-, -, -, hm'⟩
  · exact hshared
  · rw [hm']
    exact hshared.record rfl rfl

theorem Uses.expansions_shared (hu : Uses m use) (hlt : m.heapEnd < wordModulus)
    (hin : HeapEndIn m') (h : Expansions m m') : KeepsShared m use m' := by
  induction h with
  | refl => exact .refl m use
  | tail hbefore hstep ih =>
      obtain ⟨b, hexpand⟩ := hstep
      have hlt₁ := (Expansions.grows hbefore).word hlt
      have hin₁ := (heapExpand_grows hexpand).start hlt₁ hin
      obtain ⟨use₁, h₁⟩ := hu.expansions hlt hin₁ hbefore
      refine (ih hin₁).trans (h₁.uses.heapExpand_shared hlt₁ hin hexpand) fun f hf => h₁.keeps ?_
      rcases hf with hf | hf
      · rw [hf]
        simp
      · rw [hf]
        simp

theorem Uses.kmalloc_shared (hu : Uses m use) (hlt : m.heapEnd < wordModulus) (hin : HeapEndIn m')
    (h : Neox.kmalloc m size = .ok (addr, m')) : KeepsShared m use m' := by
  obtain ⟨m₁, hexpand, ⟨-, rfl⟩ | ⟨heap, -, rfl⟩⟩ := kmalloc_spec h
  · exact hu.expansions_shared hlt hin hexpand
  · have hin₁ : HeapEndIn m₁ := hin
    exact (hu.expansions_shared hlt hin₁ hexpand).record rfl rfl

end KeepsShared

/-! ## Overlays -/

/-- Since `m₀` the pages `pages` of directory `d` have been mapped to frames that were free, with page
tables that were free, and the heap has grown. -/
structure Overlay (d : Nat) (m₀ : Mm) (use₀ : Nat → Use) (pages : Nat → Prop) (m : Mm)
    (use : Nat → Use) : Prop where
  uses : Uses m use
  kernelDirectory : m.kernelDirectory = m₀.kernelDirectory
  heapEnd : m₀.heapEnd ≤ m.heapEnd
  kept : ∀ f, use₀ f ≠ .free → use f = use₀ f
  spent : ∀ f, use₀ f = .free → use f = .free ∨ (∃ v, pages v ∧ use f = .page d v) ∨
    (∃ v, pages v ∧ use f = .table d (v / 1024)) ∨
    OfHeap m₀.kernelDirectory m₀.heapEnd m.heapEnd (use f)
  mapped : ∀ v, pages v → ∃ f, use₀ f = .free ∧ use f = .page d v

/-- No page. -/
abbrev noPage : Nat → Prop := fun _ => False

section Overlay

variable {pages pages' : Nat → Prop}

theorem Overlay.refl (hu : Uses m use) : Overlay d m use noPage m use where
  uses := hu
  kernelDirectory := rfl
  heapEnd := Nat.le_refl _
  kept _ _ := rfl
  spent _ hf := .inl hf
  mapped _ hv := hv.elim

theorem Absorbs.overlay (h : Absorbs m use m' use') : Overlay d m use noPage m' use' where
  uses := h.uses
  kernelDirectory := h.kernelDirectory
  heapEnd := h.heapEnd
  kept _ hf := h.keeps hf
  spent f hf := by
    rcases h.rest f with hsame | ⟨-, hheap⟩
    · exact .inl (hsame.trans hf)
    · exact .inr (.inr (.inr hheap))
  mapped _ hv := hv.elim

theorem Overlay.congr (h : Overlay d m₀ use₀ pages m use) (hpages : ∀ v, pages v ↔ pages' v) :
    Overlay d m₀ use₀ pages' m use := by
  have heq : pages = pages' := funext fun v => propext (hpages v)
  rwa [← heq]

/-- The allocator has changed and hands out the same frames. -/
theorem Overlay.repool (h : Overlay d m₀ use₀ pages m use) (hu : Uses m' use)
    (hk : m'.kernelDirectory = m.kernelDirectory) (he : m'.heapEnd = m.heapEnd) :
    Overlay d m₀ use₀ pages m' use :=
  { h with
    uses := hu
    kernelDirectory := hk.trans h.kernelDirectory
    heapEnd := he ▸ h.heapEnd
    spent := he ▸ h.spent }

/-- A change outside the paging structures. -/
theorem Overlay.record (h : Overlay d m₀ use₀ pages m use) (hp : m'.pmm = m.pmm)
    (hf : m'.frames = m.frames) (hk : m'.kernelDirectory = m.kernelDirectory)
    (he : m'.heapEnd = m.heapEnd) : Overlay d m₀ use₀ pages m' use :=
  { h with
    uses := h.uses.congr hp hf hk
    kernelDirectory := hk.trans h.kernelDirectory
    heapEnd := he ▸ h.heapEnd
    spent := he ▸ h.spent }

/-- What was used for something else is so still. -/
theorem Overlay.was_free (h : Overlay d m₀ use₀ pages m use) (hf : use f = .free) : use₀ f = .free := by
  by_contra hne
  exact hne ((h.kept f hne).symm.trans hf)

/-- A use that belongs neither to the heap nor to the pages of an overlay is that of the same frames. -/
theorem Overlay.use_iff (h : Overlay d m use pages m' use') {u : Use}
    (hfree : u ≠ .free) (hd : (∀ v, pages v → u ≠ .page d v) ∧ ∀ v, pages v → u ≠ .table d (v / 1024))
    (hheap : ¬ OfHeap m.kernelDirectory m.heapEnd m'.heapEnd u) : use' f = u ↔ use f = u := by
  constructor
  · intro hf
    by_cases hused : use f = .free
    · rcases h.spent f hused with h' | ⟨v, hv, h'⟩ | ⟨v, hv, h'⟩ | h'
      · exact absurd (hf.symm.trans h') hfree
      · exact absurd (hf.symm.trans h') (hd.1 v hv)
      · exact absurd (hf.symm.trans h') (hd.2 v hv)
      · exact absurd (hf ▸ h') hheap
    · exact (h.kept f hused).symm.trans hf
  · intro hf
    exact (h.kept f (by rw [hf]; exact hfree)).trans hf

/-- When nothing is mapped any more, the heap is all that has taken frames. -/
theorem Overlay.free_iff (h : Overlay d m₀ use₀ noPage m use) (f : Nat) : use₀ f = .free ↔
    use f = .free ∨ use₀ f = .free ∧ OfHeap m₀.kernelDirectory m₀.heapEnd m.heapEnd (use f) := by
  constructor
  · intro hf
    rcases h.spent f hf with hfree | ⟨v, hv, -⟩ | ⟨v, hv, -⟩ | hheap
    · exact .inl hfree
    · exact hv.elim
    · exact hv.elim
    · exact .inr ⟨hf, hheap⟩
  · intro hf
    rcases hf with hfree | ⟨hfree, -⟩
    · exact h.was_free hfree
    · exact hfree

/-- Without a page the directory does not matter. -/
theorem Overlay.of_noPage (h : Overlay d m₀ use₀ noPage m use) : Overlay d' m₀ use₀ noPage m use :=
  { h with
    spent := fun f hf => by
      rcases h.spent f hf with hfree | ⟨v, hv, -⟩ | ⟨v, hv, -⟩ | hheap
      · exact .inl hfree
      · exact hv.elim
      · exact hv.elim
      · exact .inr (.inr (.inr hheap))
    mapped := fun _ hv => hv.elim }

theorem Overlay.trans (h : Overlay d m₀ use₀ pages m use) (h' : Overlay d m use pages' m' use') :
    Overlay d m₀ use₀ (fun v => pages v ∨ pages' v) m' use' where
  uses := h'.uses
  kernelDirectory := h'.kernelDirectory.trans h.kernelDirectory
  heapEnd := Nat.le_trans h.heapEnd h'.heapEnd
  kept f hf := by
    have hkept := h.kept f hf
    rw [h'.kept f (hkept ▸ hf), hkept]
  spent f hf := by
    by_cases hfree : use f = .free
    · rcases h'.spent f hfree with hfree' | ⟨v, hv, hpage⟩ | ⟨v, hv, htable⟩ | hheap
      · exact .inl hfree'
      · exact .inr (.inl ⟨v, .inr hv, hpage⟩)
      · exact .inr (.inr (.inl ⟨v, .inr hv, htable⟩))
      · rw [h.kernelDirectory] at hheap
        exact .inr (.inr (.inr (hheap.mono h.heapEnd (Nat.le_refl _))))
    · rw [h'.kept f hfree]
      rcases h.spent f hf with hf' | ⟨v, hv, hpage⟩ | ⟨v, hv, htable⟩ | hheap
      · exact absurd hf' hfree
      · exact .inr (.inl ⟨v, .inl hv, hpage⟩)
      · exact .inr (.inr (.inl ⟨v, .inl hv, htable⟩))
      · exact .inr (.inr (.inr (hheap.mono (Nat.le_refl _) h'.heapEnd)))
  mapped v hv := by
    rcases hv with hv | hv
    · obtain ⟨f, hfree, hpage⟩ := h.mapped v hv
      exact ⟨f, hfree, (h'.kept f (by rw [hpage]; simp)).trans hpage⟩
    · obtain ⟨f, hfree, hpage⟩ := h'.mapped v hv
      exact ⟨f, h.was_free hfree, hpage⟩

/-- Something that maps no page for good comes after. -/
theorem Overlay.after (h : Overlay d m₀ use₀ pages m use) (h' : Overlay d' m use noPage m' use') :
    Overlay d m₀ use₀ pages m' use' :=
  (h.trans h'.of_noPage).congr fun _ => or_iff_left id

/-- Something that maps no page for good comes before. -/
theorem Overlay.before (h : Overlay d m use pages m' use') (h' : Overlay d' m₀ use₀ noPage m use) :
    Overlay d m₀ use₀ pages m' use' :=
  (h'.of_noPage.trans h).congr fun _ => or_iff_right id

/-- Another page is mapped. -/
theorem Overlay.map (h : Overlay d m₀ use₀ pages m use) (hf : use f = .free) (hu : Uses m' use')
    (hk : m'.kernelDirectory = m.kernelDirectory) (he : m'.heapEnd = m.heapEnd)
    (hnone : ∀ g, use g ≠ .page d v) (hmapped : Mapped d v f (Function.update use f .held) use') :
    Overlay d m₀ use₀ (fun w => w = v ∨ pages w) m' use' := by
  have hother : ∀ g, g ≠ f → use' g = use g ∨ use g = .free ∧ use' g = .table d (v / 1024) := by
    intro g hg
    have hsame : Function.update use f .held g = use g := Function.update_of_ne hg _ _
    have hrest := hmapped.rest g hg (by rw [hsame]; exact hnone g)
    rwa [hsame] at hrest
  have hkeep : ∀ g, use g ≠ .free → use' g = use g := by
    intro g hg
    have hgf : g ≠ f := fun heq => hg (heq ▸ hf)
    exact (hother g hgf).resolve_right fun hfree => hg hfree.1
  refine ⟨hu, hk.trans h.kernelDirectory, he ▸ h.heapEnd, fun g hg => ?_, fun g hg => ?_,
    fun w hw => ?_⟩
  · have hkept := h.kept g hg
    rw [hkeep g (hkept ▸ hg), hkept]
  · rw [he]
    by_cases hgf : g = f
    · exact .inr (.inl ⟨v, .inl rfl, hgf ▸ hmapped.new⟩)
    · rcases hother g hgf with hsame | ⟨-, htable⟩
      · rw [hsame]
        rcases h.spent g hg with hfree | ⟨w, hw, hpage⟩ | ⟨w, hw, htable⟩ | hheap
        · exact .inl hfree
        · exact .inr (.inl ⟨w, .inr hw, hpage⟩)
        · exact .inr (.inr (.inl ⟨w, .inr hw, htable⟩))
        · exact .inr (.inr (.inr hheap))
      · exact .inr (.inr (.inl ⟨v, .inl rfl, htable⟩))
  · rcases hw with rfl | hw
    · exact ⟨f, h.was_free hf, hmapped.new⟩
    · obtain ⟨g, hfree, hpage⟩ := h.mapped w hw
      exact ⟨g, hfree, (hkeep g (by rw [hpage]; simp)).trans hpage⟩

/-- A page is unmapped and its frame returned. -/
theorem Overlay.clear (h : Overlay d m₀ use₀ pages m use) (hu₀ : Uses m₀ use₀) (hu : Uses m' use')
    (hk : m'.kernelDirectory = m.kernelDirectory) (he : m'.heapEnd = m.heapEnd)
    (hnone : ∀ g, use₀ g ≠ .page d v) (hempty : NotEmpty use₀ d (v / 1024))
    (hclear : Cleared d v use use') (hleft : NotEmpty use' d (v / 1024)) :
    Overlay d m₀ use₀ (fun w => pages w ∧ w ≠ v) m' use' := by
  -- Going back over the step.
  have hback : ∀ g u, use' g = u → u ≠ .free → use g = u := by
    intro g u hg hu'
    by_cases hp : use g = .page d v
    · exact absurd (hg.symm.trans (hclear.old g hp)) hu'
    · rcases hclear.rest g hp with hsame | ⟨-, hfree⟩
      · exact hsame.symm.trans hg
      · exact absurd (hg.symm.trans hfree) hu'
  -- A page table that is left and was free has a page of the overlay, or one of the heap.
  have hneeded : ∀ t, use₀ t = .free → use' t = .table d (v / 1024) →
      (∃ w, (pages w ∧ w ≠ v) ∧ use' t = .table d (w / 1024)) ∨
        OfHeap m₀.kernelDirectory m₀.heapEnd m.heapEnd (use' t) := by
    intro t hfree ht
    obtain ⟨g, w, hpage, hw⟩ := hleft t ht
    have hwv : w ≠ v := by
      rintro rfl
      exact hclear.none_left g hpage
    have hbefore := hback g _ hpage (by simp)
    have hfree₀ : use₀ g = .free := by
      by_contra hused
      -- Its page table was there before, and is this one.
      obtain ⟨t₀, ht₀, -⟩ := hu₀.page_back g d w ((h.kept g hused).symm.trans hbefore)
      have hkept := h.kept t₀ (by rw [ht₀]; simp)
      have htable : use t₀ = .table d (w / 1024) := hkept.trans ht₀
      have hthen : use t = .table d (w / 1024) := hw ▸ hback t _ ht (by simp)
      rw [h.uses.table_unique hthen htable, ht₀] at hfree
      cases hfree
    rcases h.spent g hfree₀ with hgone | ⟨w', hw', hsame⟩ | ⟨w', -, htable⟩ | hheap
    · rw [hbefore] at hgone
      cases hgone
    · rw [hbefore] at hsame
      injection hsame with _ heq
      subst heq
      exact .inl ⟨w, ⟨hw', hwv⟩, by rw [hw]; exact ht⟩
    · rw [hbefore] at htable
      cases htable
    · rw [hbefore] at hheap
      obtain ⟨x, hx, hx', hcase⟩ := hheap
      rcases hcase with hpage' | htable
      · injection hpage' with hd hwx
        refine .inr ⟨x, hx, hx', .inr ?_⟩
        rw [ht, ← hwx, hw, hd]
      · cases htable
  refine ⟨hu, hk.trans h.kernelDirectory, he ▸ h.heapEnd, fun g hg => ?_, fun g hg => ?_,
    fun w hw => ?_⟩
  · have hkept := h.kept g hg
    have hpage : use g ≠ .page d v := hkept ▸ hnone g
    rcases hclear.rest g hpage with hsame | ⟨htable, hfree⟩
    · exact hsame.trans hkept
    · -- A page table that was there has another page, so that it is not returned.
      exfalso
      obtain ⟨g', w, hw, hwi⟩ := hempty g (hkept.symm.trans htable)
      have hkept' := h.kept g' (by rw [hw]; simp)
      have hstill : use' g' = .page d w := by
        rcases hclear.rest g' (hkept' ▸ hnone g') with hsame | ⟨htable', -⟩
        · exact hsame.trans (hkept'.trans hw)
        · rw [hkept', hw] at htable'
          cases htable'
      obtain ⟨t, ht, -⟩ := hu.page_back g' d w hstill
      rw [hwi] at ht
      rw [h.uses.table_unique (hback t _ ht (by simp)) htable, hfree] at ht
      cases ht
  · rw [he]
    by_cases hp : use g = .page d v
    · exact .inl (hclear.old g hp)
    · rcases hclear.rest g hp with hsame | ⟨-, hfree⟩
      · by_cases htable : use g = .table d (v / 1024)
        · have hneeded' := hneeded g hg (hsame.trans htable)
          exact .inr (.inr hneeded')
        · rw [hsame]
          rcases h.spent g hg with hfree | ⟨w, hw, hpage⟩ | ⟨w, hw, htable'⟩ | hheap
          · exact .inl hfree
          · refine .inr (.inl ⟨w, ⟨hw, ?_⟩, hpage⟩)
            rintro rfl
            exact hp hpage
          · refine .inr (.inr (.inl ⟨w, ⟨hw, ?_⟩, htable'⟩))
            rintro rfl
            exact htable htable'
          · exact .inr (.inr (.inr hheap))
      · exact .inl hfree
  · obtain ⟨g, hfree, hpage⟩ := h.mapped w hw.1
    refine ⟨g, hfree, ?_⟩
    have hne : use g ≠ .page d v := by
      rw [hpage]
      intro heq
      injection heq with _ hwv
      exact hw.2 hwv
    rcases hclear.rest g hne with hsame | ⟨htable, -⟩
    · exact hsame.trans hpage
    · rw [hpage] at htable
      cases htable

/-- A page that was not mapped and is none of the overlay's is not mapped. -/
theorem Overlay.no_page (h : Overlay d m₀ use₀ pages m use) (hnone : ∀ g, use₀ g ≠ .page d v)
    (hv : ¬ pages v) (hheap : ¬ OfHeap m₀.kernelDirectory m₀.heapEnd m.heapEnd (.page d v)) (g : Nat) :
    use g ≠ .page d v := by
  intro hg
  have hfree : use₀ g = .free := by
    by_contra hused
    exact hnone g ((h.kept g hused).symm.trans hg)
  rcases h.spent g hfree with hgone | ⟨w, hw, hpage⟩ | ⟨w, -, htable⟩ | hof
  · rw [hg] at hgone
    cases hgone
  · rw [hg] at hpage
    injection hpage with _ heq
    exact hv (heq ▸ hw)
  · rw [hg] at htable
    cases htable
  · exact hheap (hg ▸ hof)

/-- `pmm_alloc_page` and `paging_map`, when the page is mapped afterwards. -/
theorem Overlay.mapFresh (h : Overlay d m₀ use₀ pages m use) (hd : use d = .directory)
    (ho : Owns m.kernelDirectory d (directoryIndex virt))
    (hnone : ∀ g, use g ≠ .page d (virt / pageSize)) (hflags : flags < pageSize)
    (hpres : present flags = true) (halloc : m.allocPage = (p, m₁)) (hp : p ≠ 0)
    (hmap : Neox.pagingMap m₁ d virt p flags = .ok m₂) (hwalk : (m₂.walk d virt).isSome = true) :
    ∃ use', Local (At d (virt / pageSize)) m use m₂ use' ∧
      Overlay d m₀ use₀ (fun w => w = virt / pageSize ∨ pages w) m₂ use' ∧ SameVirtual m m₂ ∧
      use' (p / pageSize) = .page d (virt / pageSize) := by
  have hu := h.uses
  rcases hu.take (R := At d (virt / pageSize)) halloc with ⟨hzero, -⟩ | ⟨f, hf, rfl, -, hlt, hlocal⟩
  · exact absurd hzero hp
  have hdiv : f * pageSize / pageSize = f := Nat.mul_div_cancel _ (by decide)
  have hheld : Function.update use f .held (f * pageSize / pageSize) = .held := by
    rw [hdiv, Function.update_self]
  have hsame := (allocPage_virtual halloc).trans (pagingMap_virtual hmap)
  obtain ⟨use', hlocal', hcase⟩ := hlocal.uses.pagingMap (hlocal.directory.mpr hd)
    (hlocal.kernelDirectory.symm ▸ ho) hheld hlt hflags hpres hmap
  have hwhole := hlocal.trans hlocal'
  refine ⟨use', hwhole, and_left_comm.mp ⟨hsame, ?_⟩⟩
  rcases hcase with ⟨rfl, habsent, -⟩ | ⟨hmapped, -⟩
  · -- Without a page table the page is not mapped.
    obtain ⟨phys, hphys⟩ := Option.isSome_iff_exists.mp hwalk
    have ho₂ : Owns m₂.kernelDirectory d (directoryIndex virt) := by
      rw [hwhole.kernelDirectory]
      exact ho
    have hpage := ((hwhole.uses.walk_iff (hwhole.directory.mpr hd) ho₂).mp hphys).1
    exact absurd hpage (hlocal.uses.no_page habsent _)
  · rw [hdiv] at hmapped ⊢
    exact ⟨h.map hf hwhole.uses hwhole.kernelDirectory hsame.heapEnd hnone hmapped, hmapped.new⟩

/-- `paging_translate`, `paging_unmap` and `pmm_free_page`. -/
theorem Overlay.unmapFree (h : Overlay d m₀ use₀ pages m use) (hu₀ : Uses m₀ use₀)
    (hd : use d = .directory) (ho : Owns m.kernelDirectory d (directoryIndex virt))
    (hnone : ∀ g, use₀ g ≠ .page d (virt / pageSize))
    (hempty : NotEmpty use₀ d (virt / pageSize / 1024)) (hm : (do
      let phys ← pagingTranslate m d virt
      let m ← Neox.pagingUnmap m d virt
      return if phys ≠ 0 then m.freePage phys else m) = .ok m') :
    ∃ use', Local (At d (virt / pageSize)) m use m' use' ∧
      Overlay d m₀ use₀ (fun w => pages w ∧ w ≠ virt / pageSize) m' use' ∧ SameVirtual m m' := by
  obtain ⟨⟨use', hlocal, hcleared, hleft⟩, -, hsame⟩ := h.uses.unmapFree hd ho hm
  exact ⟨use', hlocal, h.clear hu₀ hlocal.uses hlocal.kernelDirectory hsame.heapEnd hnone hempty
    hcleared hleft, hsame⟩

end Overlay

end Neox
