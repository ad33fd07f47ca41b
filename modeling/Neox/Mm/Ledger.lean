import Neox.Mm.Start

/-!
# Accounts of a new directory

`Ledger` follows the frames that were free when a directory was new: each is still free, is a page or
a page table of that directory, is a page of the heap, or is lost, held by whoever had it mapped. The
operations on the directory and the growth of the heap each keep the accounts.
-/

namespace Neox

open Pmm Checked

/-! ## Accounts -/

/-- The accounts of the work on `d` that began in `m₀`. Every page of `d` is one of `pages`. -/
structure Ledger (d : Nat) (m₀ : Mm) (use₀ : Nat → Use) (pages lost : List Nat) (m : Mm)
    (use : Nat → Use) : Prop where
  uses : Uses m use
  kernelDirectory : m.kernelDirectory = m₀.kernelDirectory
  directory : use d = .directory
  heapEnd : m₀.heapEnd ≤ m.heapEnd
  kept : ∀ f, use₀ f ≠ .free → use f = use₀ f
  spent : ∀ f, use₀ f = .free → use f = .free ∨ (∃ v, use f = .page d v) ∨ (∃ i, use f = .table d i) ∨
    f ∈ lost ∨ OfHeap m₀.kernelDirectory m₀.heapEnd m.heapEnd (use f)
  lost : ∀ f ∈ lost, use₀ f = .free ∧ use f = .held
  tables : ∀ t i, use t = .table d i → ∃ f v, use f = .page d v ∧ v / 1024 = i
  pages : ∀ f v, use f = .page d v → v ∈ pages

/-- A directory with an empty user half. -/
structure Fresh (m₀ : Mm) (use₀ : Nat → Use) (d : Nat) : Prop where
  uses : Uses m₀ use₀
  directory : use₀ d = .directory
  ne_kernel : d ≠ m₀.kernelDirectory
  empty : ∀ i < kernelPdeStart, present (m₀.entry d i) = false

section Ledger

variable {d v f phys virt : Nat} {m₀ m m₁ m' : Mm} {use₀ use use₁ use' : Nat → Use}
  {pages pages' lost : List Nat}

theorem Fresh.no_table (h : Fresh m₀ use₀ d) (t i : Nat) : use₀ t ≠ .table d i := by
  intro ht
  obtain ⟨-, -, ho, hpresent, -⟩ := h.uses.table_back t d i ht
  rw [h.empty i ((owns_of_ne h.ne_kernel).mp ho)] at hpresent
  cases hpresent

theorem Fresh.no_page (h : Fresh m₀ use₀ d) (f v : Nat) : use₀ f ≠ .page d v := by
  intro hf
  obtain ⟨t, ht, -⟩ := h.uses.page_back f d v hf
  exact h.no_table t _ ht

theorem Fresh.ledger (h : Fresh m₀ use₀ d) : Ledger d m₀ use₀ [] [] m₀ use₀ where
  uses := h.uses
  kernelDirectory := rfl
  directory := h.directory
  heapEnd := Nat.le_refl _
  kept _ _ := rfl
  spent _ hf := .inl hf
  lost _ hf := absurd hf List.not_mem_nil
  tables t i ht := absurd ht (h.no_table t i)
  pages f v hf := absurd hf (h.no_page f v)

/-- What belongs to the new directory was free. -/
theorem Ledger.was_free (h : Ledger d m₀ use₀ pages lost m use) (hfresh : Fresh m₀ use₀ d)
    (hf : (∃ v, use f = .page d v) ∨ ∃ i, use f = .table d i) : use₀ f = .free := by
  by_contra hne
  have hkept := h.kept f hne
  rcases hf with ⟨v, hf⟩ | ⟨i, hf⟩
  · exact hfresh.no_page f v (hkept.symm.trans hf)
  · exact hfresh.no_table f i (hkept.symm.trans hf)

theorem Ledger.owns (h : Ledger d m₀ use₀ pages lost m use) (hfresh : Fresh m₀ use₀ d)
    (hv : virt / pageSize / 1024 < kernelPdeStart) :
    Owns m.kernelDirectory d (directoryIndex virt) := by
  rw [h.kernelDirectory, owns_of_ne hfresh.ne_kernel, directoryIndex_eq]
  exact hv

/-- A change outside the paging structures. -/
theorem Ledger.congr (h : Ledger d m₀ use₀ pages lost m use) (hu : Uses m' use)
    (hk : m'.kernelDirectory = m.kernelDirectory) (he : m'.heapEnd = m.heapEnd) :
    Ledger d m₀ use₀ pages lost m' use :=
  { h with
    uses := hu
    kernelDirectory := hk.trans h.kernelDirectory
    heapEnd := he ▸ h.heapEnd
    spent := he ▸ h.spent }

/-- The heap grows. -/
theorem Ledger.absorb (h : Ledger d m₀ use₀ pages lost m use) (hfresh : Fresh m₀ use₀ d)
    (habsorbs : Absorbs m use m' use') : Ledger d m₀ use₀ pages lost m' use' := by
  have hheap : ∀ g, use g = .free → use' g ≠ .free →
      OfHeap m₀.kernelDirectory m.heapEnd m'.heapEnd (use' g) := by
    intro g hfree hne
    rcases habsorbs.rest g with hsame | ⟨-, hheap⟩
    · exact absurd (hsame.trans hfree) hne
    · exact h.kernelDirectory ▸ hheap
  have hback : ∀ g u, use' g = u → u ≠ .free → ¬ OfHeap m₀.kernelDirectory m.heapEnd m'.heapEnd u →
      use g = u := by
    intro g u hg hu hno
    by_cases hfree : use g = .free
    · exact absurd (hg ▸ hheap g hfree (hg ▸ hu)) hno
    · exact (habsorbs.keeps hfree).symm.trans hg
  have hpage : ∀ v, ¬ OfHeap m₀.kernelDirectory m.heapEnd m'.heapEnd (.page d v) := by
    rintro v ⟨w, -, -, hw | hw⟩
    · injection hw with hd
      exact hfresh.ne_kernel hd
    · cases hw
  have htable : ∀ i, ¬ OfHeap m₀.kernelDirectory m.heapEnd m'.heapEnd (.table d i) := by
    rintro i ⟨w, -, -, hw | hw⟩
    · cases hw
    · injection hw with hd
      exact hfresh.ne_kernel hd
  refine ⟨habsorbs.uses, habsorbs.kernelDirectory.trans h.kernelDirectory, ?_,
    Nat.le_trans h.heapEnd habsorbs.heapEnd, fun g hg => ?_, fun g hg => ?_, fun g hg => ?_,
    fun t i ht => ?_, fun g v hg => ?_⟩
  · rw [habsorbs.keeps (by rw [h.directory]; simp), h.directory]
  · have hkept := h.kept g hg
    rw [habsorbs.keeps (hkept.symm ▸ hg), hkept]
  · by_cases hfree : use g = .free
    · by_cases hfree' : use' g = .free
      · exact .inl hfree'
      · have hof := hheap g hfree hfree'
        exact .inr (.inr (.inr (.inr (hof.mono h.heapEnd (Nat.le_refl _)))))
    · rw [habsorbs.keeps hfree]
      rcases h.spent g hg with hf | hp | ht | hl | hof
      · exact absurd hf hfree
      · exact .inr (.inl hp)
      · exact .inr (.inr (.inl ht))
      · exact .inr (.inr (.inr (.inl hl)))
      · exact .inr (.inr (.inr (.inr (hof.mono (Nat.le_refl _) habsorbs.heapEnd))))
  · obtain ⟨hfree, hheld⟩ := h.lost g hg
    exact ⟨hfree, (habsorbs.keeps (by rw [hheld]; simp)).trans hheld⟩
  · obtain ⟨g, v, hpage', hi⟩ := h.tables t i (hback t _ ht (by simp) (htable i))
    exact ⟨g, v, (habsorbs.keeps (by rw [hpage']; simp)).trans hpage', hi⟩
  · exact h.pages g v (hback g _ hg (by simp) (hpage v))

/-- A page of the directory is unmapped and its frame returned. -/
theorem Ledger.clear (h : Ledger d m₀ use₀ pages lost m use) (hfresh : Fresh m₀ use₀ d)
    (hu : Uses m' use') (hk : m'.kernelDirectory = m.kernelDirectory) (hd : use' d = .directory)
    (he : m'.heapEnd = m.heapEnd) (hclear : Cleared d v use use')
    (hleft : ∀ t, use' t = .table d (v / 1024) → ∃ f w, use' f = .page d w ∧ w / 1024 = v / 1024)
    (hpages : ∀ w ∈ pages, w ≠ v → w ∈ pages') : Ledger d m₀ use₀ pages' lost m' use' := by
  have hother : ∀ g, use g ≠ .page d v → (∀ i, use g ≠ .table d i) → use' g = use g :=
    fun g hp ht => (hclear.rest g hp).resolve_right fun hg => ht _ hg.1
  have hback : ∀ g u, use' g = u → u ≠ .free → use g = u := by
    intro g u hg hu
    by_cases hp : use g = .page d v
    · exact absurd (hg.symm.trans (hclear.old g hp)) hu
    · rcases hclear.rest g hp with hsame | ⟨-, hfree⟩
      · exact hsame.symm.trans hg
      · exact absurd (hg.symm.trans hfree) hu
  refine ⟨hu, hk.trans h.kernelDirectory, hd, he ▸ h.heapEnd, fun g hg => ?_, fun g hg => ?_,
    fun g hg => ?_, fun t i ht => ?_, fun g w hg => ?_⟩
  · have hkept := h.kept g hg
    rw [← hkept]
    apply hother g
    · rw [hkept]
      exact hfresh.no_page g v
    · intro i
      rw [hkept]
      exact hfresh.no_table g i
  · rw [he]
    by_cases hp : use g = .page d v
    · exact .inl (hclear.old g hp)
    · rcases hclear.rest g hp with hsame | ⟨-, hfree⟩
      · rw [hsame]
        exact h.spent g hg
      · exact .inl hfree
  · obtain ⟨hfree, hheld⟩ := h.lost g hg
    exact ⟨hfree, (hother g (by rw [hheld]; simp) (by rw [hheld]; simp)).trans hheld⟩
  · by_cases hi : i = v / 1024
    · subst hi
      exact hleft t ht
    · obtain ⟨g, w, hpage, hw⟩ := h.tables t i (hback t _ ht (by simp))
      have hne : w ≠ v := fun heq => hi (heq ▸ hw.symm)
      exact ⟨g, w, (hother g (by rw [hpage]; simpa using hne) (by rw [hpage]; simp)).trans hpage, hw⟩
  · refine hpages w (h.pages g w (hback g _ hg (by simp))) ?_
    rintro rfl
    exact hclear.none_left g hg

/-- A page is mapped to a frame `f` that was free. The list of lost frames has to have the one that the
page was mapped to before. -/
theorem Ledger.mapLost (h : Ledger d m₀ use₀ pages lost m use) (hfresh : Fresh m₀ use₀ d)
    (hf : use f = .free) (hu : Uses m' use') (hk : m'.kernelDirectory = m.kernelDirectory)
    (hd : use' d = .directory) (he : m'.heapEnd = m.heapEnd)
    (hmapped : Mapped d v f (Function.update use f .held) use') {lost' : List Nat}
    (hsub : ∀ g ∈ lost, g ∈ lost') (hadd : ∀ g, use g = .page d v → g ∈ lost')
    (hcases : ∀ g ∈ lost', g ∈ lost ∨ use g = .page d v) :
    Ledger d m₀ use₀ (pages ++ [v]) lost' m' use' := by
  have hne : ∀ g, use g ≠ .free → Function.update use f .held g = use g := by
    intro g hg
    apply Function.update_of_ne
    rintro rfl
    exact hg hf
  have hother : ∀ g, use g ≠ .free → use g ≠ .page d v → use' g = use g := by
    intro g hfree hpage
    have hgf : g ≠ f := fun heq => hfree (heq ▸ hf)
    rcases hmapped.rest g hgf (by rw [hne g hfree]; exact hpage) with hsame | ⟨hfree', -⟩
    · exact hsame.trans (hne g hfree)
    · rw [hne g hfree] at hfree'
      exact absurd hfree' hfree
  have hold : ∀ g, use g = .page d v → use' g = .held := by
    intro g hg
    apply hmapped.old
    rw [hne g (by rw [hg]; simp), hg]
  have hfree : ∀ g, use g = .free → use' g = .free ∨ (∃ w, use' g = .page d w) ∨
      ∃ i, use' g = .table d i := by
    intro g hg
    by_cases hgf : g = f
    · exact .inr (.inl ⟨v, hgf ▸ hmapped.new⟩)
    · have hsame : Function.update use f .held g = use g := Function.update_of_ne hgf _ _
      rcases hmapped.rest g hgf (by rw [hsame, hg]; simp) with hkeep | ⟨-, htable⟩
      · exact .inl ((hkeep.trans hsame).trans hg)
      · exact .inr (.inr ⟨_, htable⟩)
  refine ⟨hu, hk.trans h.kernelDirectory, hd, he ▸ h.heapEnd, fun g hg => ?_, fun g hg => ?_,
    fun g hg => ?_, fun t i ht => ?_, fun g w hg => ?_⟩
  · have hkept := h.kept g hg
    rw [hother g (hkept.symm ▸ hg) (by rw [hkept]; exact hfresh.no_page g v), hkept]
  · rw [he]
    by_cases hgfree : use g = .free
    · rcases hfree g hgfree with hfree' | hpage | htable
      · exact .inl hfree'
      · exact .inr (.inl hpage)
      · exact .inr (.inr (.inl htable))
    · by_cases hpage : use g = .page d v
      · exact .inr (.inr (.inr (.inl (hadd g hpage))))
      · rw [hother g hgfree hpage]
        rcases h.spent g hg with hf' | hp | ht | hl | hof
        · exact absurd hf' hgfree
        · exact .inr (.inl hp)
        · exact .inr (.inr (.inl ht))
        · exact .inr (.inr (.inr (.inl (hsub g hl))))
        · exact .inr (.inr (.inr (.inr hof)))
  · rcases hcases g hg with hl | hpage
    · obtain ⟨hfree₀, hheld⟩ := h.lost g hl
      exact ⟨hfree₀, (hother g (by rw [hheld]; simp) (by rw [hheld]; simp)).trans hheld⟩
    · exact ⟨h.was_free hfresh (.inl ⟨v, hpage⟩), hold g hpage⟩
  · by_cases hi : i = v / 1024
    · exact ⟨f, v, hmapped.new, hi.symm⟩
    · have htf : t ≠ f := by
        rintro rfl
        rw [hmapped.new] at ht
        cases ht
      have hbefore : use t = .table d i := by
        by_cases hpage : use t = .page d v
        · rw [hold t hpage] at ht
          cases ht
        · by_cases hfree' : use t = .free
          · have hsame : Function.update use f .held t = use t := Function.update_of_ne htf _ _
            rcases hmapped.rest t htf (by rw [hsame]; exact hpage) with hkeep | ⟨-, htable⟩
            · rw [hkeep, hsame, hfree'] at ht
              cases ht
            · rw [htable] at ht
              injection ht with _ heq
              exact absurd heq.symm hi
          · exact (hother t hfree' hpage).symm.trans ht
      obtain ⟨g, w, hpage, hw⟩ := h.tables t i hbefore
      refine ⟨g, w, (hother g (by rw [hpage]; simp) ?_).trans hpage, hw⟩
      rw [hpage]
      intro heq
      injection heq with _ hwv
      exact hi (by rw [← hw, hwv])
  · by_cases hgf : g = f
    · subst hgf
      rw [hmapped.new] at hg
      injection hg with _ hvw
      exact List.mem_append_right _ (List.mem_singleton.mpr hvw.symm)
    · by_cases hpage : use g = .page d v
      · rw [hold g hpage] at hg
        cases hg
      · have hsame : Function.update use f .held g = use g := Function.update_of_ne hgf _ _
        rcases hmapped.rest g hgf (by rw [hsame]; exact hpage) with hkeep | ⟨-, htable⟩
        · exact List.mem_append_left _ (h.pages g w (hsame.symm.trans (hkeep.symm.trans hg)))
        · rw [htable] at hg
          cases hg

/-- The same, for the list that has just that frame more. -/
theorem Ledger.map (h : Ledger d m₀ use₀ pages lost m use) (hfresh : Fresh m₀ use₀ d)
    (hf : use f = .free) (hu : Uses m' use') (hk : m'.kernelDirectory = m.kernelDirectory)
    (hd : use' d = .directory) (he : m'.heapEnd = m.heapEnd)
    (hmapped : Mapped d v f (Function.update use f .held) use') :
    ∃ lost', Ledger d m₀ use₀ (pages ++ [v]) lost' m' use' ∧
      (lost' = [] ↔ lost = [] ∧ ∀ g, use g ≠ .page d v) := by
  by_cases hany : ∃ g, use g = .page d v
  · obtain ⟨g, hg⟩ := hany
    refine ⟨g :: lost, h.mapLost hfresh hf hu hk hd he hmapped
        (fun x hx => List.mem_cons_of_mem _ hx) (fun x hx => ?_) (fun x hx => ?_),
      ⟨fun hnil => absurd hnil (List.cons_ne_nil _ _), fun hnone => absurd hg (hnone.2 g)⟩⟩
    · rw [h.uses.page_unique hx hg]
      exact List.mem_cons_self ..
    · rcases List.mem_cons.mp hx with rfl | hx
      · exact .inr hg
      · exact .inl hx
  · rw [not_exists] at hany
    exact ⟨lost, h.mapLost hfresh hf hu hk hd he hmapped (fun _ hx => hx)
        (fun x hx => absurd hx (hany x)) (fun _ hx => .inl hx),
      ⟨fun hnil => ⟨hnil, hany⟩, And.left⟩⟩

/-- A free frame is taken and not mapped. -/
theorem Ledger.take (h : Ledger d m₀ use₀ pages lost m use) (hf : use f = .free)
    (hu : Uses m' (Function.update use f .held)) (hk : m'.kernelDirectory = m.kernelDirectory)
    (he : m'.heapEnd = m.heapEnd) :
    Ledger d m₀ use₀ pages (f :: lost) m' (Function.update use f .held) := by
  have hne : ∀ g, use g ≠ .free → Function.update use f .held g = use g := by
    intro g hg
    apply Function.update_of_ne
    rintro rfl
    exact hg hf
  have hback : ∀ g u, u ≠ .held → Function.update use f .held g = u → use g = u := by
    intro g u hu' hg
    by_cases hgf : g = f
    · subst hgf
      rw [Function.update_self] at hg
      exact absurd hg.symm hu'
    · rwa [Function.update_of_ne hgf] at hg
  refine ⟨hu, hk.trans h.kernelDirectory, ?_, he ▸ h.heapEnd, fun g hg => ?_, fun g hg => ?_,
    fun g hg => ?_, fun t i ht => ?_, fun g v hg => h.pages g v (hback g _ (by simp) hg)⟩
  · rw [hne d (by rw [h.directory]; simp), h.directory]
  · have hkept := h.kept g hg
    rw [hne g (hkept.symm ▸ hg), hkept]
  · rw [he]
    by_cases hgf : g = f
    · subst hgf
      exact .inr (.inr (.inr (.inl (List.mem_cons_self ..))))
    · rw [Function.update_of_ne hgf]
      rcases h.spent g hg with hf' | hp | ht | hl | hof
      · exact .inl hf'
      · exact .inr (.inl hp)
      · exact .inr (.inr (.inl ht))
      · exact .inr (.inr (.inr (.inl (List.mem_cons_of_mem _ hl))))
      · exact .inr (.inr (.inr (.inr hof)))
  · rcases List.mem_cons.mp hg with rfl | hl
    · refine ⟨?_, Function.update_self ..⟩
      by_contra hused
      exact hused ((h.kept g hused).symm.trans hf)
    · obtain ⟨hfree, hheld⟩ := h.lost g hl
      exact ⟨hfree, (hne g (by rw [hheld]; simp)).trans hheld⟩
  · obtain ⟨g, v, hpage, hi⟩ := h.tables t i (hback t _ (by simp) ht)
    exact ⟨g, v, (hne g (by rw [hpage]; simp)).trans hpage, hi⟩

/-- A lost frame is returned. -/
theorem Ledger.giveBack (h : Ledger d m₀ use₀ pages lost m use) (hf : f ∈ lost)
    (hu : Uses m' (Function.update use f .free)) (hk : m'.kernelDirectory = m.kernelDirectory)
    (he : m'.heapEnd = m.heapEnd) :
    Ledger d m₀ use₀ pages (lost.filter (· ≠ f)) m' (Function.update use f .free) := by
  obtain ⟨hfree₀, hheld₀⟩ := h.lost f hf
  have hne : ∀ g, use g ≠ .held → Function.update use f .free g = use g := by
    intro g hg
    apply Function.update_of_ne
    rintro rfl
    exact hg hheld₀
  have hback : ∀ g u, u ≠ .free → Function.update use f .free g = u → use g = u := by
    intro g u hu' hg
    by_cases hgf : g = f
    · subst hgf
      rw [Function.update_self] at hg
      exact absurd hg.symm hu'
    · rwa [Function.update_of_ne hgf] at hg
  refine ⟨hu, hk.trans h.kernelDirectory, ?_, he ▸ h.heapEnd, fun g hg => ?_, fun g hg => ?_,
    fun g hg => ?_, fun t i ht => ?_, fun g v hg => h.pages g v (hback g _ (by simp) hg)⟩
  · rw [hne d (by rw [h.directory]; simp), h.directory]
  · rw [Function.update_of_ne, h.kept g hg]
    rintro rfl
    exact hg hfree₀
  · rw [he]
    by_cases hgf : g = f
    · subst hgf
      exact .inl (Function.update_self ..)
    · rw [Function.update_of_ne hgf]
      rcases h.spent g hg with hf' | hp | ht | hl | hof
      · exact .inl hf'
      · exact .inr (.inl hp)
      · exact .inr (.inr (.inl ht))
      · exact .inr (.inr (.inr (.inl (List.mem_filter.mpr ⟨hl, by simpa using hgf⟩))))
      · exact .inr (.inr (.inr (.inr hof)))
  · obtain ⟨hl, hgf⟩ := List.mem_filter.mp hg
    rw [Function.update_of_ne (by simpa using hgf)]
    exact h.lost g hl
  · obtain ⟨g, v, hpage, hi⟩ := h.tables t i (hback t _ (by simp) ht)
    exact ⟨g, v, (hne g (by rw [hpage]; simp)).trans hpage, hi⟩

end Ledger

/-- A new directory is fresh. -/
theorem Uses.fresh {m m' : Mm} {use : Nat → Use} {d : Nat} (hu : Uses m use)
    (h : pagingCreateDirectory m = .ok (some d, m')) :
    Fresh m' (Function.update use d .directory) d := by
  obtain ⟨hfree, hu', hkernel, -, -, hempty, -⟩ := hu.createDirectory h
  refine ⟨hu', Function.update_self .., ?_, fun i hi => ?_⟩
  · rw [hkernel]
    rintro rfl
    rw [hu.kernel] at hfree
    cases hfree
  · rw [hempty i hi]
    rfl

end Neox
