import Neox.Mm.Directories
import Neox.Mm.HeapBlocks

/-!
# What `kmalloc` and `kfree` cost

The heap grows by pages of its own region, for which it takes free frames, and it never gives them
back. Apart from that `kmalloc` puts one block in use and `kfree` takes it back.
-/

namespace Neox

open Pmm Checked

variable {k a size addr ptr virt : Nat} {m m₁ m' : Mm}

/-! ## `heap_end` -/

/-- `heap_end` lies in the region of the heap. -/
def HeapEndIn (m : Mm) : Prop := kernelHeapStart ≤ m.heapEnd ∧ m.heapEnd ≤ kernelHeapEnd + 1

theorem owns_heapEnd (h : HeapEndIn m) : Owns k k (directoryIndex m.heapEnd) := by
  rw [owns_self]
  obtain ⟨h1, h2⟩ := h
  simp only [kernelHeapStart, kernelBootstrapEnd, kernelVirtBase, bootstrapMapSize, kernelHeapEnd,
    directoryIndex, recursivePdeIndex] at *
  omega

/-- `heap_end` only goes up, or past the end of the address space. -/
structure HeapGrows (m m' : Mm) : Prop where
  word : m.heapEnd < wordModulus → m'.heapEnd < wordModulus
  start : m.heapEnd < wordModulus → HeapEndIn m' → HeapEndIn m

theorem HeapGrows.of_eq (h : m'.heapEnd = m.heapEnd) : HeapGrows m m' := by
  refine ⟨fun hlt => h.symm ▸ hlt, fun _ hin => ?_⟩
  unfold HeapEndIn at hin ⊢
  rwa [h] at hin

theorem HeapGrows.trans (h : HeapGrows m m₁) (h' : HeapGrows m₁ m') : HeapGrows m m' :=
  ⟨fun hlt => h'.word (h.word hlt), fun hlt hin => h.start hlt (h'.start (h.word hlt) hin)⟩

theorem vmmAllocPages_heapEnd {r : Nat} (h : vmmAllocPages m virt 1 = .ok (r, m')) :
    m'.heapEnd = m.heapEnd := by
  rcases vmmAllocPages_one h with ⟨-, rfl⟩ | ⟨-, p, m₁, halloc, ⟨-, -, rfl⟩ | ⟨-, -, hmap⟩⟩
  · rfl
  · exact allocPage_heapEnd halloc
  · exact (pagingMap_frame hmap).2.2.1.trans (allocPage_heapEnd halloc)

/-- Where the heap goes on within its region, `heap_end` is a page further. -/
theorem heapExpand_heapEnd (h : heapExpand m = .ok (true, m')) (hlt : m.heapEnd < wordModulus)
    (hin : HeapEndIn m') : HeapEndIn m ∧ m'.heapEnd = m.heapEnd + pageSize := by
  obtain ⟨hstart, virt, m₁, halloc, ⟨hfalse, -⟩ | ⟨-, -, -, rfl⟩⟩ := heapExpand_spec h
  · cases hfalse
  · have hend := vmmAllocPages_heapEnd halloc
    obtain ⟨h1, h2⟩ := hin
    unfold HeapEndIn
    simp only [hend] at h1 h2 ⊢
    simp only [kernelHeapStart, kernelHeapEnd, kernelBootstrapEnd, kernelVirtBase, bootstrapMapSize,
      pageSize, wordModulus] at *
    omega

theorem heapExpand_grows {b : Bool} (h : heapExpand m = .ok (b, m')) : HeapGrows m m' := by
  cases b with
  | true =>
      refine ⟨fun _ => ?_, fun hlt hin => (heapExpand_heapEnd h hlt hin).1⟩
      obtain ⟨-, virt, m₁, -, ⟨hfalse, -⟩ | ⟨-, -, -, rfl⟩⟩ := heapExpand_spec h
      · cases hfalse
      · exact Nat.mod_lt _ (by decide)
  | false =>
      obtain ⟨-, virt, m₁, halloc, ⟨-, -, rfl⟩ | ⟨htrue, -⟩⟩ := heapExpand_spec h
      · exact .of_eq (vmmAllocPages_heapEnd halloc)
      · cases htrue

theorem Expansions.grows (h : Expansions m m') : HeapGrows m m' := by
  induction h with
  | refl => exact .of_eq rfl
  | tail _ hstep ih =>
      obtain ⟨b, hexpand⟩ := hstep
      exact ih.trans (heapExpand_grows hexpand)

theorem kmalloc_grows (h : kmalloc m size = .ok (addr, m')) : HeapGrows m m' := by
  obtain ⟨m₁, hexpand, ⟨-, rfl⟩ | ⟨heap, -, rfl⟩⟩ := kmalloc_spec h
  · exact hexpand.grows
  · exact hexpand.grows.trans (.of_eq rfl)

/-! ## Blocks in use -/

theorem allocPage_heap {p : Nat} (h : m.allocPage = (p, m')) : m'.heap = m.heap := by
  unfold Mm.allocPage at h
  cases h
  rfl

theorem allocPage_trace {p : Nat} (h : m.allocPage = (p, m')) : m'.trace = m.trace := by
  unfold Mm.allocPage at h
  cases h
  rfl

theorem pagingMap_heap {d phys flags : Nat} (h : pagingMap m d virt phys flags = .ok m') :
    m'.heap = m.heap := by
  rcases pagingMap_spec h with ⟨-, rfl⟩ | ⟨-, hfail | ⟨p, m₁, t, halloc, -, -, rfl⟩⟩
  · rfl
  · exact allocPage_heap hfail
  · have hheap := allocPage_heap halloc
    exact hheap

theorem pagingUnmap_heap {d : Nat} (h : pagingUnmap m d virt = .ok m') :
    m'.heap = m.heap ∧ m'.heapEnd = m.heapEnd := by
  rcases pagingUnmap_spec h with ⟨-, rfl⟩ | ⟨-, ⟨-, rfl⟩ | ⟨-, rfl⟩⟩
  · exact ⟨rfl, rfl⟩
  · exact ⟨rfl, rfl⟩
  · exact ⟨rfl, rfl⟩

theorem vmmAllocPages_heap {r : Nat} (h : vmmAllocPages m virt 1 = .ok (r, m')) :
    m'.heap = m.heap := by
  rcases vmmAllocPages_one h with ⟨-, rfl⟩ | ⟨-, p, m₁, halloc, ⟨-, -, rfl⟩ | ⟨-, -, hmap⟩⟩
  · rfl
  · exact allocPage_heap halloc
  · exact (pagingMap_heap hmap).trans (allocPage_heap halloc)

/-- The page the heap grows by is free. -/
theorem heapExpand_inUse {b : Bool} (h : heapExpand m = .ok (b, m')) :
    inUse m'.heap = inUse m.heap := by
  obtain ⟨-, virt, m₁, halloc, ⟨-, -, rfl⟩ | ⟨-, -, -, rfl⟩⟩ := heapExpand_spec h
  · rw [vmmAllocPages_heap halloc]
  · rw [inUse_merge, inUse_append, vmmAllocPages_heap halloc]
    exact List.append_nil _

theorem Expansions.inUse (h : Expansions m m') : inUse m'.heap = inUse m.heap := by
  induction h with
  | refl => rfl
  | tail _ hstep ih =>
      obtain ⟨b, hexpand⟩ := hstep
      exact (heapExpand_inUse hexpand).trans ih

theorem heapTake_inUse {l l' : List HeapBlock} (h : heapTake size l = some (addr, l')) :
    ∃ b, b.data = addr ∧ (inUse l').Perm (b :: inUse l) := by
  rcases heapTake_eq size l with ⟨-, hnone⟩ | ⟨pre, b, post, rfl, hfind, htake⟩
  · rw [h] at hnone
    cases hnone
  · rw [h] at htake
    cases htake
    have hfree := (fits_iff.mp (List.find?_some hfind)).1
    obtain ⟨size', -, hafter, hbefore⟩ := inUse_split pre post size hfree
    refine ⟨{ b with size := size', free := false }, rfl, ?_⟩
    rw [hafter, hbefore]
    exact List.perm_middle

/-- `kmalloc` puts one block in use, or none and returns `NULL`. -/
theorem kmalloc_inUse (h : kmalloc m size = .ok (addr, m')) :
    addr = 0 ∧ inUse m'.heap = inUse m.heap ∨
      ∃ b, b.data = addr ∧ (inUse m'.heap).Perm (b :: inUse m.heap) := by
  obtain ⟨m₁, hexpand, ⟨hzero, rfl⟩ | ⟨heap, htake, rfl⟩⟩ := kmalloc_spec h
  · exact .inl ⟨hzero, hexpand.inUse⟩
  · obtain ⟨b, hdata, hperm⟩ := heapTake_inUse htake
    rw [hexpand.inUse] at hperm
    exact .inr ⟨b, hdata, hperm⟩

theorem le_heapAlign (h : heapAlign size ≠ 0) : size ≤ heapAlign size := by
  unfold heapAlign at h ⊢
  split at h
  · exact absurd rfl h
  · next hle =>
    rw [if_neg hle]
    simp only [heapAlignment]
    omega

/-- The block that `kmalloc` puts in use has room for the request. -/
theorem kmalloc_block (h : kmalloc m size = .ok (addr, m')) (hne : addr ≠ 0) :
    ∃ b, b.data = addr ∧ size ≤ b.size ∧ (inUse m'.heap).Perm (b :: inUse m.heap) := by
  have hsmall : heapAlign size ≠ 0 := by
    intro hzero
    unfold kmalloc at h
    rw [if_pos hzero, ite_self] at h
    cases h
    exact hne rfl
  obtain ⟨m₁, hexpand, ⟨hzero, -⟩ | ⟨heap, htake, rfl⟩⟩ := kmalloc_spec h
  · exact absurd hzero hne
  rcases heapTake_eq (heapAlign size) m₁.heap with ⟨-, hnone⟩ | ⟨pre, b, post, hheap, hfind, htake'⟩
  · rw [hnone] at htake
    cases htake
  rw [htake'] at htake
  cases htake
  obtain ⟨hfree, hfits⟩ := fits_iff.mp (List.find?_some hfind)
  obtain ⟨size', hsize', hafter, hbefore⟩ := inUse_split pre post (heapAlign size) hfree
  refine ⟨{ b with size := size', free := false }, rfl, ?_, ?_⟩
  · exact Nat.le_trans (le_heapAlign hsmall) (hsize' hfits)
  · show (inUse (pre ++ (heapSplitBlock b (heapAlign size) ++ post))).Perm _
    rw [hafter, ← hexpand.inUse, hheap, hbefore]
    exact List.perm_middle

/-! ## The block list -/

theorem heapExpand_blocks {b : Bool} (hb : Blocks a m.heap m.heapEnd) (hlt : m.heapEnd < wordModulus)
    (hin : HeapEndIn m') (h : heapExpand m = .ok (b, m')) : Blocks a m'.heap m'.heapEnd := by
  obtain ⟨-, virt, m₁, halloc, ⟨-, -, rfl⟩ | ⟨rfl, -, -, hm'⟩⟩ := heapExpand_spec h
  · rw [vmmAllocPages_heap halloc, vmmAllocPages_heapEnd halloc]
    exact hb
  · have hend := (heapExpand_heapEnd h hlt hin).2
    rw [hend, hm']
    dsimp only
    rw [vmmAllocPages_heap halloc, vmmAllocPages_heapEnd halloc]
    exact hb.snoc.merge

theorem Expansions.blocks (hb : Blocks a m.heap m.heapEnd) (hlt : m.heapEnd < wordModulus)
    (hin : HeapEndIn m') (h : Expansions m m') : Blocks a m'.heap m'.heapEnd := by
  induction h with
  | refl => exact hb
  | tail hbefore hstep ih =>
      obtain ⟨b, hexpand⟩ := hstep
      have hlt₁ := (Expansions.grows hbefore).word hlt
      exact heapExpand_blocks (ih ((heapExpand_grows hexpand).start hlt₁ hin)) hlt₁ hin hexpand

theorem heapAlign_aligned (size : Nat) : heapAlign size % heapAlignment = 0 := by
  unfold heapAlign
  split
  · rfl
  · exact Nat.mul_mod_left ..

theorem heapTake_blocks {e : Nat} {l l' : List HeapBlock} (hb : Blocks a l e)
    (hsize : size % heapAlignment = 0) (h : heapTake size l = some (addr, l')) : Blocks a l' e := by
  rcases heapTake_eq size l with ⟨-, hnone⟩ | ⟨pre, b, post, rfl, hfind, htake⟩
  · rw [h] at hnone
    cases hnone
  · rw [h] at htake
    cases htake
    exact hb.split (fits_iff.mp (List.find?_some hfind)).2 hsize

theorem kmalloc_blocks (hb : Blocks a m.heap m.heapEnd) (hlt : m.heapEnd < wordModulus)
    (hin : HeapEndIn m') (h : kmalloc m size = .ok (addr, m')) : Blocks a m'.heap m'.heapEnd := by
  obtain ⟨m₁, hexpand, ⟨-, rfl⟩ | ⟨heap, htake, rfl⟩⟩ := kmalloc_spec h
  · exact hexpand.blocks hb hlt hin
  · have hin₁ : HeapEndIn m₁ := hin
    have hb₁ := hexpand.blocks hb hlt hin₁
    exact heapTake_blocks hb₁ (heapAlign_aligned size) htake

theorem kfree_frame (h : kfree m ptr = .ok m') : ∃ heap, m' = { m with heap := heap } := by
  unfold kfree at h
  split at h
  · cases pure_eq_ok.mp h
    exact ⟨m.heap, rfl⟩
  · split at h
    · cases h
    · next heap _ =>
      cases pure_eq_ok.mp h
      exact ⟨_, rfl⟩

/-- `kfree` takes back the block in use that the address is of. -/
theorem kfree_spec (hptr : ptr ≠ 0) (hb : Blocks a m.heap m.heapEnd) (h : kfree m ptr = .ok m') :
    ∃ heap, m' = { m with heap := heap } ∧ Blocks a heap m.heapEnd ∧
      ∃ b, b.data = ptr ∧ b ∈ inUse m.heap ∧ (inUse m.heap).Perm (b :: inUse heap) := by
  unfold kfree at h
  rw [if_neg hptr] at h
  rcases heapRelease_eq ptr m.heap with ⟨-, hnone⟩ | ⟨pre, b, post, hheap, hdata, -, hrelease⟩
  · rw [hnone] at h
    cases h
  · cases hfree : b.free with
    | true =>
        rw [hrelease, if_pos hfree] at h
        cases h
    | false =>
        rw [hrelease, hfree] at h
        cases pure_eq_ok.mp h
        have hused : inUse m.heap = inUse pre ++ b :: inUse post := by
          rw [hheap, inUse_append]
          unfold inUse
          rw [List.filter_cons_of_pos (by simp [hfree])]
        refine ⟨_, rfl, ?_, b, hdata, ?_, ?_⟩
        · rw [hheap] at hb
          exact (hb.setFree true).merge
        · rw [hused]
          exact List.mem_append_right _ (List.mem_cons_self ..)
        · rw [hused, inUse_merge, inUse_append]
          unfold inUse
          rw [List.filter_cons_of_neg (by simp)]
          exact List.perm_middle

/-! ## Frames -/

/-- The pages of a directory that were mapped, in order. -/
def mappedPages (d : Nat) (trace : List PagingEvent) : List Nat :=
  trace.filterMap fun
    | .map directory virt _ => if directory = d then some (virt / pageSize) else none
    | .unmap .. => none

theorem mappedPages_append (d : Nat) (l l' : List PagingEvent) :
    mappedPages d (l ++ l') = mappedPages d l ++ mappedPages d l' := List.filterMap_append ..

theorem mappedPages_within {d v : Nat} {l : List PagingEvent} (h : ∀ e ∈ l, e.Within (At k v))
    (hd : d ≠ k) : mappedPages d l = [] := by
  refine List.filterMap_eq_nil_iff.mpr fun e he => ?_
  have hwithin := h e he
  cases e with
  | map directory virt table => exact if_neg fun heq => hd (heq.symm.trans hwithin.1)
  | unmap directory virt table => rfl

theorem mappedPages_unmap {d e : Nat} (h : pagingUnmap m d virt = .ok m') :
    mappedPages e m'.trace = mappedPages e m.trace := by
  rcases pagingUnmap_trace h with ht | ⟨table, ht⟩
  · rw [ht]
  · rw [ht, mappedPages_append]
    exact List.append_nil _

/-- A page of the heap between two values of `heap_end`, or the page table of one. -/
def OfHeap (k lo hi : Nat) (u : Use) : Prop :=
  ∃ v, lo ≤ v ∧ v < hi ∧ (u = .page k (v / pageSize) ∨ u = .table k (v / pageSize / 1024))

/-- From `m` to `m'` free frames have become pages of the heap, and nothing else has changed. -/
structure Absorbs (m : Mm) (use : Nat → Use) (m' : Mm) (use' : Nat → Use) : Prop where
  uses : Uses m' use'
  kernelDirectory : m'.kernelDirectory = m.kernelDirectory
  heapEnd : m.heapEnd ≤ m'.heapEnd
  rest : ∀ f, use' f = use f ∨
    use f = .free ∧ OfHeap m.kernelDirectory m.heapEnd m'.heapEnd (use' f)
  mapped : ∀ d, d ≠ m.kernelDirectory → mappedPages d m'.trace = mappedPages d m.trace

section Absorbs

variable {use use₁ use' : Nat → Use} {d : Nat}

theorem OfHeap.mono {lo hi lo' hi' : Nat} {u : Use} (h : OfHeap k lo hi u) (hlo : lo' ≤ lo)
    (hhi : hi ≤ hi') : OfHeap k lo' hi' u := by
  obtain ⟨v, h1, h2, hu⟩ := h
  exact ⟨v, by omega, by omega, hu⟩

theorem OfHeap.ne_free {lo hi : Nat} {u : Use} (h : OfHeap k lo hi u) : u ≠ .free := by
  obtain ⟨v, -, -, rfl | rfl⟩ := h
  · simp
  · simp

theorem Absorbs.refl (hu : Uses m use) : Absorbs m use m use :=
  ⟨hu, rfl, Nat.le_refl _, fun _ => .inl rfl, fun _ _ => rfl⟩

theorem Absorbs.trans (h : Absorbs m use m₁ use₁) (h' : Absorbs m₁ use₁ m' use') :
    Absorbs m use m' use' where
  uses := h'.uses
  kernelDirectory := h'.kernelDirectory.trans h.kernelDirectory
  heapEnd := Nat.le_trans h.heapEnd h'.heapEnd
  rest f := by
    rcases h'.rest f with hsame | ⟨hfree, hheap⟩
    · rw [hsame]
      exact (h.rest f).imp_right fun hf => ⟨hf.1, hf.2.mono (Nat.le_refl _) h'.heapEnd⟩
    · rw [h.kernelDirectory] at hheap
      rcases h.rest f with hsame | ⟨-, hbefore⟩
      · exact .inr ⟨hsame.symm.trans hfree, hheap.mono h.heapEnd (Nat.le_refl _)⟩
      · exact absurd hfree hbefore.ne_free
  mapped d hd := (h'.mapped d (h.kernelDirectory ▸ hd)).trans (h.mapped d hd)

/-- A frame that was used for something keeps its use. -/
theorem Absorbs.keeps {f : Nat} (h : Absorbs m use m' use') (hf : use f ≠ .free) : use' f = use f :=
  (h.rest f).resolve_right fun hfree => hf hfree.1

/-- The heap's own fields do not matter. -/
theorem Absorbs.congr (h : Absorbs m use m₁ use') (hp : m'.pmm = m₁.pmm)
    (hf : m'.frames = m₁.frames) (hk : m'.kernelDirectory = m₁.kernelDirectory)
    (he : m'.heapEnd = m₁.heapEnd) (ht : m'.trace = m₁.trace) : Absorbs m use m' use' where
  uses := h.uses.congr hp hf hk
  kernelDirectory := hk.trans h.kernelDirectory
  heapEnd := he ▸ h.heapEnd
  rest f := he ▸ h.rest f
  mapped d hd := ht ▸ h.mapped d hd

/-- `vmm_alloc_pages` of one page of the kernel's: nothing is taken, or a frame for a page that was
not mapped. The page stays unmapped when there is no frame for its page table. -/
theorem Uses.vmmAllocPage {r : Nat} (hu : Uses m use) (hlt : virt < wordModulus)
    (ho : Owns m.kernelDirectory m.kernelDirectory (directoryIndex virt))
    (h : vmmAllocPages m virt 1 = .ok (r, m')) :
    ∃ use', Local (At m.kernelDirectory (virt / pageSize)) m use m' use' ∧ (r = 0 ∧ use' = use ∨
      r = virt ∧ (∀ g, use g ≠ .page m.kernelDirectory (virt / pageSize)) ∧ ∃ f, use f = .free ∧
        (use' = Function.update use f .held ∧
            present (m'.entry m.kernelDirectory (directoryIndex virt)) = false ∨
          use' f = .page m.kernelDirectory (virt / pageSize) ∧ ∀ g, g ≠ f → use' g = use g ∨
            use g = .free ∧ use' g = .table m.kernelDirectory (virt / pageSize / 1024))) := by
  rcases vmmAllocPages_one h with ⟨rfl, rfl⟩ | ⟨htranslate, p, m₁, hpage, hmapped⟩
  · -- The page is mapped already.
    exact ⟨use, .refl hu, .inl ⟨rfl, rfl⟩⟩
  rw [Nat.mod_eq_of_lt hlt] at htranslate hmapped
  rcases hu.take (R := At m.kernelDirectory (virt / pageSize)) hpage with
    ⟨hp, hlocal⟩ | ⟨f, hfree, rfl, hp, hplt, hlocal⟩
  · -- There is no free frame.
    rcases hmapped with ⟨rfl, -, rfl⟩ | ⟨-, hne, -⟩
    · exact ⟨use, hlocal, .inl ⟨rfl, rfl⟩⟩
    · exact absurd hp hne
  · rcases hmapped with ⟨-, hzero, -⟩ | ⟨hr, -, hmap⟩
    · exact absurd hzero hp
    have hdiv : f * pageSize / pageSize = f := Nat.mul_div_cancel _ (by decide)
    have hheld : Function.update use f .held (f * pageSize / pageSize) = .held := by
      rw [hdiv, Function.update_self]
    have hkernel := hlocal.kernelDirectory
    rw [hkernel] at hmap
    obtain ⟨use', hmapLocal, hcases⟩ := hlocal.uses.pagingMap (hlocal.directory.mpr hu.kernel)
      (hkernel.symm ▸ ho) hheld hplt (by decide) (by decide) hmap
    have hnone : ∀ g, use g ≠ .page m.kernelDirectory (virt / pageSize) := by
      rcases hu.translate hu.kernel ho (pagingTranslate_spec htranslate) with ⟨-, hnone⟩ | ⟨hne, -⟩
      · exact hnone
      · exact absurd rfl hne
    refine ⟨use', hlocal.trans hmapLocal, .inr ⟨hr, hnone, f, hfree, ?_⟩⟩
    rcases hcases with ⟨rfl, habsent, hfail⟩ | ⟨hmapped, -⟩
    · left
      refine ⟨rfl, ?_⟩
      unfold Mm.entry at habsent ⊢
      rw [(allocPage_addressed hfail).1]
      exact habsent
    · right
      have hnew := hmapped.new
      rw [hdiv] at hnew
      refine ⟨hnew, fun g hg => ?_⟩
      have hsame : Function.update use f .held g = use g := Function.update_of_ne hg _ _
      have hrest := hmapped.rest g (by rwa [hdiv]) (by rw [hsame]; exact hnone g)
      rwa [hsame] at hrest

/-- Mapping a page of the kernel maps none of another directory. -/
theorem Local.mappedPages_eq {k d v : Nat} (h : Local (At k v) m use m' use') (hd : d ≠ k) :
    mappedPages d m'.trace = mappedPages d m.trace := by
  obtain ⟨l, ht, hwithin⟩ := h.trace
  rw [ht, mappedPages_append, mappedPages_within hwithin hd, List.append_nil]

/-- `heap_expand` takes a frame for the page at `heap_end`, and one for its page table if that is
new. -/
theorem Uses.heapExpand {b : Bool} (hu : Uses m use) (hlt : m.heapEnd < wordModulus)
    (hin : HeapEndIn m') (h : heapExpand m = .ok (b, m')) : ∃ use', Absorbs m use m' use' := by
  have hstart := (heapExpand_grows h).start hlt hin
  obtain ⟨-, virt, m₁, halloc, hcase⟩ := heapExpand_spec h
  have hend := vmmAllocPages_heapEnd halloc
  obtain ⟨use', hlocal, hpage⟩ := hu.vmmAllocPage hlt (owns_heapEnd hstart) halloc
  have hkernel := hlocal.kernelDirectory
  rcases hcase with ⟨-, rfl, rfl⟩ | ⟨rfl, hvirt, hvalid, hm'⟩
  · rcases hpage with ⟨-, rfl⟩ | ⟨hzero, -⟩
    · exact ⟨_, hlocal.uses, hkernel, Nat.le_of_eq hend.symm, fun _ => .inl rfl,
        fun d hd => hlocal.mappedPages_eq hd⟩
    · have hlow := hstart.1
      simp only [kernelHeapStart, kernelBootstrapEnd, kernelVirtBase] at hlow
      omega
  · rcases hpage with ⟨hzero, -⟩ | ⟨-, hnone, f, hfree, ⟨-, habsent⟩ | ⟨hnew, hrest⟩⟩
    · exact absurd hzero hvirt
    · -- Without a page table the header would be written to a page that is not mapped.
      obtain ⟨phys, hwalk⟩ := Option.isSome_iff_exists.mp (pagingValidateMapping_spec hvalid).symm
      unfold Mm.walk at hwalk
      rw [hkernel, hend] at hwalk
      simp only [habsent] at hwalk
      cases hwalk
    · have hgrown := (heapExpand_heapEnd h hlt hin).2
      have hheap : ∀ u, u = .page m.kernelDirectory (m.heapEnd / pageSize) ∨
          u = .table m.kernelDirectory (m.heapEnd / pageSize / 1024) →
          OfHeap m.kernelDirectory m.heapEnd m'.heapEnd u := fun u hu' =>
        ⟨m.heapEnd, Nat.le_refl _, by rw [hgrown]; simp only [pageSize]; omega, hu'⟩
      rw [hm'] at hgrown hheap ⊢
      refine ⟨use', hlocal.uses.congr rfl rfl rfl, hkernel, ?_, fun g => ?_,
        fun d hd => hlocal.mappedPages_eq hd⟩
      · rw [hgrown]
        exact Nat.le_add_right ..
      · by_cases hgf : g = f
        · subst hgf
          exact .inr ⟨hfree, hheap _ (.inl hnew)⟩
        · exact (hrest g hgf).imp_right fun hg => ⟨hg.1, hheap _ (.inr hg.2)⟩

theorem Uses.expansions (hu : Uses m use) (hlt : m.heapEnd < wordModulus) (hin : HeapEndIn m')
    (h : Expansions m m') : ∃ use', Absorbs m use m' use' := by
  induction h with
  | refl => exact ⟨use, .refl hu⟩
  | tail hbefore hstep ih =>
      obtain ⟨b, hexpand⟩ := hstep
      have hlt₁ := (Expansions.grows hbefore).word hlt
      obtain ⟨use₁, h₁⟩ := ih ((heapExpand_grows hexpand).start hlt₁ hin)
      obtain ⟨use', h'⟩ := h₁.uses.heapExpand hlt₁ hin hexpand
      exact ⟨use', h₁.trans h'⟩

theorem Uses.kmalloc (hu : Uses m use) (hlt : m.heapEnd < wordModulus) (hin : HeapEndIn m')
    (h : kmalloc m size = .ok (addr, m')) : ∃ use', Absorbs m use m' use' := by
  obtain ⟨m₁, hexpand, ⟨-, rfl⟩ | ⟨heap, -, rfl⟩⟩ := kmalloc_spec h
  · exact hu.expansions hlt hin hexpand
  · have hin₁ : HeapEndIn m₁ := hin
    obtain ⟨use', h₁⟩ := hu.expansions hlt hin₁ hexpand
    exact ⟨use', h₁.congr rfl rfl rfl rfl rfl⟩

end Absorbs

/-! ## Frames of the heap -/

/-- The frame was free and has become a page of the heap, or the page table of one. -/
def AbsorbedByHeap (m m' : Mm) (f : Nat) : Prop :=
  ∃ v, m.heapEnd ≤ v ∧ v < m'.heapEnd ∧
    ((∃ phys, m.walk m.kernelDirectory v = none ∧ m'.walk m.kernelDirectory v = some phys ∧
        f = phys / pageSize) ∨
      present (m.entry m.kernelDirectory (directoryIndex v)) = false ∧
        present (m'.entry m.kernelDirectory (directoryIndex v)) = true ∧
        f = m'.entry m.kernelDirectory (directoryIndex v) / pageSize)

section Absorbed

variable {use : Nat → Use}

end Absorbed

/-! ## What paging leaves alone -/

/-- The heap's fields and the stack slots are as they were. -/
structure SameVirtual (m m' : Mm) : Prop where
  heap : m'.heap = m.heap
  heapEnd : m'.heapEnd = m.heapEnd
  stackSlots : m'.stackSlots = m.stackSlots

section SameVirtual

variable {d p phys flags : Nat}

theorem SameVirtual.refl (m : Mm) : SameVirtual m m := ⟨rfl, rfl, rfl⟩

theorem SameVirtual.trans (h : SameVirtual m m₁) (h' : SameVirtual m₁ m') : SameVirtual m m' :=
  ⟨h'.heap.trans h.heap, h'.heapEnd.trans h.heapEnd, h'.stackSlots.trans h.stackSlots⟩

theorem allocPage_virtual (h : m.allocPage = (p, m')) : SameVirtual m m' := by
  unfold Mm.allocPage at h
  cases h
  exact ⟨rfl, rfl, rfl⟩

theorem freePage_virtual (m : Mm) (phys : Nat) : SameVirtual m (m.freePage phys) := ⟨rfl, rfl, rfl⟩

theorem pagingMap_virtual (h : pagingMap m d virt phys flags = .ok m') : SameVirtual m m' := by
  rcases pagingMap_spec h with ⟨-, rfl⟩ | ⟨-, hfail | ⟨p, m₁, t, halloc, -, -, rfl⟩⟩
  · exact ⟨rfl, rfl, rfl⟩
  · exact allocPage_virtual hfail
  · have hsame := allocPage_virtual halloc
    exact ⟨hsame.heap, hsame.heapEnd, hsame.stackSlots⟩

theorem pagingUnmap_virtual (h : pagingUnmap m d virt = .ok m') : SameVirtual m m' := by
  rcases pagingUnmap_spec h with ⟨-, rfl⟩ | ⟨-, ⟨-, rfl⟩ | ⟨-, rfl⟩⟩
  · exact ⟨rfl, rfl, rfl⟩
  · exact ⟨rfl, rfl, rfl⟩
  · exact ⟨rfl, rfl, rfl⟩

theorem vmmAllocPages_slots {r : Nat} (h : vmmAllocPages m virt 1 = .ok (r, m')) :
    m'.stackSlots = m.stackSlots := by
  rcases vmmAllocPages_one h with ⟨-, rfl⟩ | ⟨-, p, m₁, halloc, ⟨-, -, rfl⟩ | ⟨-, -, hmap⟩⟩
  · rfl
  · exact (allocPage_virtual halloc).stackSlots
  · exact ((allocPage_virtual halloc).trans (pagingMap_virtual hmap)).stackSlots

theorem heapExpand_slots {b : Bool} (h : heapExpand m = .ok (b, m')) :
    m'.stackSlots = m.stackSlots := by
  obtain ⟨-, virt, m₁, halloc, ⟨-, -, rfl⟩ | ⟨-, -, -, rfl⟩⟩ := heapExpand_spec h
  · exact vmmAllocPages_slots halloc
  · have hslots := vmmAllocPages_slots halloc
    exact hslots

theorem Expansions.slots (h : Expansions m m') : m'.stackSlots = m.stackSlots := by
  induction h with
  | refl => rfl
  | tail _ hstep ih =>
      obtain ⟨b, hexpand⟩ := hstep
      exact (heapExpand_slots hexpand).trans ih

end SameVirtual

end Neox
