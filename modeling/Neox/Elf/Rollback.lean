import Neox.Elf.Reclamation
import Neox.Mm.Ledger

/-!
# What a failed load leaves behind

The loop at `fail:` goes through the records of the pages loaded and finds the frame of each page by
translating it again. A page that was mapped twice has one frame by then; the frame it had first is
lost.

`Ledger` accounts for every frame during the call: it keeps its use, or it was free and is now a page
or a page table of the new directory, a page of the heap, or lost.
-/

namespace Neox

open Pmm Checked

/-! ## Records -/

/-- The page of a record. -/
def LoadedPage.page (l : LoadedPage) : Nat := l.virt / pageSize

/-- The heap during the call: the blocks in use are those of the records, the newest first, and the
ones from before. -/
structure Records (a : Nat) (m₀ : Mm) (pending : List LoadedPage) (m : Mm) : Prop where
  blocks : Blocks a m.heap m.heapEnd
  heapEnd : m.heapEnd < wordModulus
  inUse : ∃ bs : List HeapBlock, bs.map HeapBlock.data = pending.map LoadedPage.block ∧
    (inUse m.heap).Perm (bs ++ inUse m₀.heap)
  nonzero : ∀ l ∈ pending, l.block ≠ 0

section Records

variable {a block virt size : Nat} {m₀ m m' : Mm} {l : LoadedPage} {pending : List LoadedPage}

theorem Records.congr (h : Records a m₀ pending m) (hheap : m'.heap = m.heap)
    (he : m'.heapEnd = m.heapEnd) : Records a m₀ pending m' where
  blocks := by
    rw [hheap, he]
    exact h.blocks
  heapEnd := he ▸ h.heapEnd
  inUse := hheap ▸ h.inUse
  nonzero := h.nonzero

theorem Records.kmalloc (virt : Nat) (h : Records a m₀ pending m) (hin : HeapEndIn m')
    (hm : kmalloc m size = .ok (block, m')) :
    block = 0 ∧ Records a m₀ pending m' ∨
      block ≠ 0 ∧ Records a m₀ (⟨virt, block⟩ :: pending) m' := by
  have hblocks := kmalloc_blocks h.blocks h.heapEnd hin hm
  have hword := (kmalloc_grows hm).word h.heapEnd
  obtain ⟨bs, hdata, hperm⟩ := h.inUse
  rcases kmalloc_inUse hm with ⟨rfl, hsame⟩ | ⟨b, hb, hmore⟩
  · exact .inl ⟨rfl, hblocks, hword, ⟨bs, hdata, hsame ▸ hperm⟩, h.nonzero⟩
  · have hne : block ≠ 0 := by
      rw [← hb]
      exact Nat.succ_ne_zero _
    refine .inr ⟨hne, hblocks, hword, ⟨b :: bs, ?_, hmore.trans (hperm.cons b)⟩,
      List.forall_mem_cons.mpr ⟨hne, h.nonzero⟩⟩
    rw [List.map_cons, List.map_cons, hb, hdata]

theorem Records.kfree (h : Records a m₀ (l :: pending) m) (hm : kfree m l.block = .ok m') :
    Records a m₀ pending m' ∧ ∃ heap, m' = { m with heap := heap } := by
  obtain ⟨hne, hnonzero⟩ := List.forall_mem_cons.mp h.nonzero
  obtain ⟨heap, rfl, hblocks, b, hb, hused, hfreed⟩ := kfree_spec hne h.blocks hm
  obtain ⟨bs, hdata, hperm⟩ := h.inUse
  cases bs with
  | nil => cases hdata
  | cons c bs =>
      rw [List.map_cons, List.map_cons, List.cons.injEq] at hdata
      have hc : c ∈ Neox.inUse m.heap := hperm.mem_iff.mpr (List.mem_cons_self ..)
      obtain rfl : c = b := h.blocks.eq_of_data (mem_inUse.mp hc).1 (mem_inUse.mp hused).1
        (hdata.1.trans hb.symm)
      have hrest := (hfreed.symm.trans hperm).cons_inv
      exact ⟨⟨hblocks, h.heapEnd, ⟨bs, hdata.2, hrest⟩, hnonzero⟩, heap, rfl⟩

end Records

/-! ## Loading -/

/-- What a load into `d` has done: `loaded` are its records, `mapped` the pages it has mapped, and
`lost` the frames that nothing refers to any more. -/
structure Progress (d a : Nat) (m₀ : Mm) (use₀ : Nat → Use) (loaded : List LoadedPage)
    (mapped lost : List Nat) (m : Mm) (use : Nat → Use) : Prop where
  ledger : Ledger d m₀ use₀ (loaded.map LoadedPage.page) lost m use
  recorded : loaded.map LoadedPage.page <+: mapped
  records : Records a m₀ loaded.reverse m
  trace : mappedPages d m.trace = mappedPages d m₀.trace ++ mapped
  lost_iff : lost = [] ↔ mapped.Nodup

/-- Before a failure there is a record for every page mapped, and every page is there. -/
structure Loads (d a : Nat) (m₀ : Mm) (use₀ : Nat → Use) (loaded : List LoadedPage)
    (lost : List Nat) (m : Mm) (use : Nat → Use) : Prop extends
    Progress d a m₀ use₀ loaded (loaded.map LoadedPage.page) lost m use where
  here : ∀ v ∈ loaded.map LoadedPage.page, ∃ f, use f = .page d v

section Loading

variable {d a page : Nat} {m₀ m m' : Mm} {use₀ use : Nat → Use} {lost : List Nat}
  {image : ElfImage} {ph : ProgramHeader} {loaded loaded' : List LoadedPage}

/-- A load fails where the page is not mapped: there is no frame, or no page table. -/
theorem Loads.stop (h : Loads d a m₀ use₀ loaded lost m use) {use' : Nat → Use}
    (hledger : Ledger d m₀ use₀ (loaded.map LoadedPage.page) lost m' use') (hheap : m'.heap = m.heap)
    (he : m'.heapEnd = m.heapEnd) (ht : mappedPages d m'.trace = mappedPages d m.trace) :
    Progress d a m₀ use₀ loaded (loaded.map LoadedPage.page) lost m' use' :=
  ⟨hledger, h.recorded, h.records.congr hheap he, ht.trans h.trace, h.lost_iff⟩

/-- One iteration of the page loop. -/
theorem Loads.step {n : Nat} {ok : Bool} (h : Loads d a m₀ use₀ loaded lost m use)
    (hfresh : Fresh m₀ use₀ d) (huser : page / pageSize / 1024 < kernelPdeStart)
    (halign : page % pageSize = 0) (hin : HeapEndIn m')
    (hm : elfLoadPages d image ph m loaded page (n + 1) = .ok (ok, loaded', m')) :
    (ok = false ∧ loaded' = loaded ∧ ∃ mapped lost' use',
      Progress d a m₀ use₀ loaded mapped lost' m' use' ∧
      (mapped = loaded.map LoadedPage.page ∨
        mapped = loaded.map LoadedPage.page ++ [page / pageSize])) ∨
    ∃ block lost₁ m₁ use₁, Loads d a m₀ use₀ (loaded ++ [⟨page, block⟩]) lost₁ m₁ use₁ ∧
      elfLoadPages d image ph m₁ (loaded ++ [⟨page, block⟩]) (page + pageSize) n =
        .ok (ok, loaded', m') := by
  have hledger := h.ledger
  have hd := hledger.directory
  rcases elfLoadPages_cases hm with ⟨rfl, rfl, hfail⟩ |
    ⟨phys, m₁, frame, m₂, translated, halloc, hphys, hframe, hmap, htranslate, hcase⟩
  · -- There is no frame.
    rcases hledger.uses.take (R := At d 0) hfail with ⟨-, hlocal⟩ | ⟨f, -, -, hne, -⟩
    · refine .inl ⟨rfl, rfl, _, lost, use, h.stop (hledger.congr hlocal.uses hlocal.kernelDirectory
        (allocPage_heapEnd hfail)) (allocPage_heap hfail) (allocPage_heapEnd hfail) ?_, .inl rfl⟩
      rw [allocPage_trace hfail]
    · exact absurd rfl hne
  rcases hledger.uses.take (R := At d 0) halloc with ⟨hz, -⟩ | ⟨f, hfree, rfl, -, hplt, hlocal⟩
  · exact absurd hz hphys
  have hdiv : f * pageSize / pageSize = f := Nat.mul_div_cancel _ (by decide)
  obtain ⟨-, hff⟩ := (direct_eq_ok hplt).mp hframe
  rw [hdiv] at hff
  subst hff
  have hheld : Function.update use frame .held (frame * pageSize / pageSize) = .held := by
    rw [hdiv, Function.update_self]
  have hzero : Uses (m₁.zeroFrame frame) (Function.update use frame .held) :=
    hlocal.uses.write (.inl (.inr (Function.update_self ..)))
  have hd₁ : Function.update use frame .held d = .directory := hlocal.directory.mpr hd
  have hk₁ : (m₁.zeroFrame frame).kernelDirectory = m.kernelDirectory := hlocal.kernelDirectory
  have ho := hledger.owns hfresh huser
  have ho₁ : Owns (m₁.zeroFrame frame).kernelDirectory d (directoryIndex page) := hk₁ ▸ ho
  obtain ⟨use₂, hlocal₂, hcases⟩ := hzero.pagingMap hd₁ ho₁ hheld hplt ph.flags_lt ph.present_flags
    hmap
  have hk₂ := hlocal₂.kernelDirectory.trans hk₁
  have hd₂ : use₂ d = .directory := hlocal₂.directory.mpr hd₁
  have ho₂ : Owns m₂.kernelDirectory d (directoryIndex page) := hk₂ ▸ ho
  have hheap₁ := allocPage_heap halloc
  have hheap₂ : m₂.heap = m.heap := (pagingMap_heap hmap).trans hheap₁
  have hend₁ := allocPage_heapEnd halloc
  have hend₂ : m₂.heapEnd = m.heapEnd := (pagingMap_frame hmap).2.2.1.trans hend₁
  have htrans := hlocal₂.uses.translate hd₂ ho₂ (pagingTranslate_spec htranslate)
  rcases hcases with ⟨rfl, habsent, hfail⟩ | ⟨hmapped, table, htrace⟩
  · -- There is no page table: the frame is returned.
    have hnone := hzero.no_page habsent
    have hz : translated = 0 := by
      rcases htrans with ⟨hz, -⟩ | ⟨-, hpage, -⟩
      · exact hz
      · exact absurd hpage (hnone _)
    rcases hcase with ⟨-, rfl, rfl, m₃, hunmap, rfl⟩ | ⟨hsame, -⟩
    · obtain ⟨use₃, hlocal₃, hun⟩ := hlocal₂.uses.pagingUnmap hd₂ ho₂ hunmap
      have hheld₃ : use₃ (frame * pageSize / pageSize) = .held := by
        rcases hun.rest _ (hnone _) with hkeep | ⟨htable, -⟩
        · rw [hkeep, hheld]
        · rw [hheld] at htable
          cases htable
      have hgive := hlocal₃.uses.give (R := At d 0) hheld₃
      rw [hdiv] at hgive
      have hclear : Cleared d (page / pageSize) use (Function.update use₃ frame .free) := by
        refine ⟨fun g hg => ?_, fun g hg => ?_⟩
        · have hgf : g ≠ frame := by
            rintro rfl
            rw [hfree] at hg
            cases hg
          exact absurd hg (by rw [← Function.update_of_ne hgf .held use]; exact hnone g)
        · by_cases hgf : g = frame
          · subst hgf
            rw [Function.update_self, hfree]
            exact .inl rfl
          · have hkeep := hun.rest g (hnone g)
            rw [Function.update_of_ne hgf] at hkeep
            rwa [Function.update_of_ne hgf]
      refine .inl ⟨rfl, rfl, _, lost, _, h.stop (hledger.clear hfresh hgive.uses
        (hgive.kernelDirectory.trans (hlocal₃.kernelDirectory.trans hk₂))
        (hgive.directory.mpr (hlocal₃.directory.mpr hd₂)) ((pagingUnmap_heap hunmap).2.trans hend₂)
        hclear (fun t ht => ?_) fun w hw _ => hw) ((pagingUnmap_heap hunmap).1.trans hheap₂)
        ((pagingUnmap_heap hunmap).2.trans hend₂) ?_, .inl rfl⟩
      · rw [← directoryIndex_eq] at ht ⊢
        exact hlocal₂.uses.table_left hd₂ ho₂ hunmap (m₃.freePage_frames _) hgive.uses ht
      · have htrace₁ := allocPage_trace halloc
        have htrace₂ := allocPage_trace hfail
        rw [show (m₃.freePage (frame * pageSize)).trace = m₃.trace from rfl, mappedPages_unmap hunmap,
          htrace₂, show (m₁.zeroFrame frame).trace = m₁.trace from rfl, htrace₁]
    · exact absurd (hsame.symm.trans hz) hphys
  · -- The page is mapped.
    rw [hdiv] at hmapped
    obtain ⟨lost', hledger₂, hlost⟩ := hledger.map hfresh hfree hlocal₂.uses hk₂ hd₂ hend₂ hmapped
    have hsame : translated = frame * pageSize := by
      rcases htrans with ⟨-, hnone⟩ | ⟨-, hpage, hmod⟩
      · exact absurd hmapped.new (hnone frame)
      · have hframe' := hlocal₂.uses.page_unique hpage hmapped.new
        rw [halign] at hmod
        simp only [pageSize] at *
        omega
    rcases hcase with ⟨hne, -⟩ | ⟨-, block, m₃, hblock, hcase⟩
    · exact absurd hsame hne
    have hrecords₂ : Records a m₀ loaded.reverse m₂ := h.records.congr hheap₂ hend₂
    have hin₃ : HeapEndIn m₃ := by
      rcases hcase with ⟨-, -, -, m₄, hunmap, rfl⟩ | ⟨-, hm⟩
      · unfold HeapEndIn at hin ⊢
        rwa [← (pagingUnmap_heap hunmap).2]
      · exact (elfLoadPages_grows hm).start ((kmalloc_grows hblock).word hrecords₂.heapEnd) hin
    obtain ⟨use₃, habsorbs⟩ := hlocal₂.uses.kmalloc hrecords₂.heapEnd hin₃ hblock
    have hledger₃ := hledger₂.absorb hfresh habsorbs
    have hpage₃ : use₃ frame = .page d (page / pageSize) := by
      rw [habsorbs.keeps (by rw [hmapped.new]; simp), hmapped.new]
    have htrace₃ : mappedPages d m₃.trace =
        mappedPages d m₀.trace ++ (loaded.map LoadedPage.page ++ [page / pageSize]) := by
      have htrace₁ := allocPage_trace halloc
      have hone : mappedPages d [.map d page table] = [page / pageSize] := by simp [mappedPages]
      rw [habsorbs.mapped d (by rw [hk₂, hledger.kernelDirectory]; exact hfresh.ne_kernel), htrace,
        mappedPages_append, hone, show (m₁.zeroFrame frame).trace = m₁.trace from rfl, htrace₁, h.trace,
        List.append_assoc]
    have hlost_iff : lost' = [] ↔ (loaded.map LoadedPage.page ++ [page / pageSize]).Nodup := by
      rw [hlost, h.lost_iff, List.nodup_append_comm, List.singleton_append, List.nodup_cons, and_comm]
      refine and_congr_left fun _ => ⟨fun hnone hmem => ?_, fun hnot g hg => ?_⟩
      · obtain ⟨g, hg⟩ := h.here _ hmem
        exact hnone g hg
      · exact hnot (hledger.pages g _ hg)
    rcases hcase with ⟨hz, rfl, rfl, m₄, hunmap, rfl⟩ | ⟨hne, hm⟩
    · -- There is no record: the page is unmapped again.
      have hd₃ := hledger₃.directory
      have ho₃ := hledger₃.owns hfresh huser
      obtain ⟨use₄, hlocal₄, hun⟩ := hledger₃.uses.pagingUnmap hd₃ ho₃ hunmap
      obtain ⟨use₅, hlocal₅, hclear⟩ := hledger₃.uses.giveUnmapped
        (by rw [hdiv]; exact hpage₃) hlocal₄ hun
      rcases hrecords₂.kmalloc page hin₃ hblock with ⟨-, hrecords₃⟩ | ⟨hne, -⟩
      · refine .inl ⟨rfl, rfl, _, lost', use₅, ⟨hledger₃.clear hfresh hlocal₅.uses
          hlocal₅.kernelDirectory (hlocal₅.directory.mpr hd₃) (pagingUnmap_heap hunmap).2 hclear
          (fun t ht => ?_) (fun w hw hne => ?_), List.prefix_append _ _,
          hrecords₃.congr (pagingUnmap_heap hunmap).1 (pagingUnmap_heap hunmap).2,
          (mappedPages_unmap hunmap).trans htrace₃, hlost_iff⟩, .inr rfl⟩
        · rw [← directoryIndex_eq] at ht ⊢
          exact hledger₃.uses.table_left hd₃ ho₃ hunmap (m₄.freePage_frames _) hlocal₅.uses ht
        · rcases List.mem_append.mp hw with hw | hw
          · exact hw
          · exact absurd (List.mem_singleton.mp hw) hne
      · exact absurd hz hne
    · -- The file's bytes are copied.
      rcases hrecords₂.kmalloc page hin₃ hblock with ⟨hz, -⟩ | ⟨-, hrecords₃⟩
      · exact absurd hz hne
      · have hwrite := hledger₃.uses.write (b := copyPage image ph page (m₃.frames frame))
          (.inr ⟨d, _, hpage₃⟩)
        have hmap_eq : (loaded ++ [(⟨page, block⟩ : LoadedPage)]).map LoadedPage.page =
            loaded.map LoadedPage.page ++ [page / pageSize] := by
          rw [List.map_append]
          rfl
        refine .inr ⟨block, lost', _, use₃, ⟨⟨?_, List.prefix_rfl, ?_, ?_, ?_⟩, fun v hv => ?_⟩, hm⟩
        · rw [hmap_eq]
          exact hledger₃.congr hwrite rfl rfl
        · rw [List.reverse_append]
          exact hrecords₃.congr rfl rfl
        · rw [hmap_eq]
          exact htrace₃
        · rw [hmap_eq]
          exact hlost_iff
        · rw [hmap_eq] at hv
          rcases List.mem_append.mp hv with hv | hv
          · obtain ⟨g, hg⟩ := h.here v hv
            by_cases hv' : v = page / pageSize
            · exact ⟨frame, hv' ▸ hpage₃⟩
            · have hgf : g ≠ frame := by
                rintro rfl
                rw [hfree] at hg
                cases hg
              have hold : Function.update use frame .held g = .page d v := by
                rw [Function.update_of_ne hgf, hg]
              have hkeep : use₂ g = .page d v := by
                rcases hmapped.rest g hgf (by rw [hold]; simpa using hv') with hkeep | ⟨hfree', -⟩
                · rw [hkeep, hold]
                · rw [hold] at hfree'
                  cases hfree'
              exact ⟨g, (habsorbs.keeps (by rw [hkeep]; simp)).trans hkeep⟩
          · rw [List.mem_singleton.mp hv]
            exact ⟨frame, hpage₃⟩

/-- The pages of a segment, in the order of the page loop. -/
def ProgramHeader.pageList (ph : ProgramHeader) : List Nat :=
  (List.range ph.pages).map (ph.segmentStart / pageSize + ·)

/-- The pages that `elf_load` tries to load, in order: it stops at the first header that fails a
check. -/
def attemptedPages (size : Nat) : List ProgramHeader → List Nat
  | [] => []
  | ph :: rest =>
      if ph.pType ≠ ptLoad then attemptedPages size rest
      else if !ph.valid size then []
      else ph.pageList ++ attemptedPages size rest

/-- The page loop. -/
theorem Loads.pages_loop {n : Nat} {ok : Bool} (h : Loads d a m₀ use₀ loaded lost m use)
    (hfresh : Fresh m₀ use₀ d) (halign : page % pageSize = 0)
    (huser : ∀ i < n, (page / pageSize + i) / 1024 < kernelPdeStart) (hin : HeapEndIn m')
    (hm : elfLoadPages d image ph m loaded page n = .ok (ok, loaded', m')) :
    (ok = true ∧ ∃ lost' use', Loads d a m₀ use₀ loaded' lost' m' use' ∧
      loaded'.map LoadedPage.page =
        loaded.map LoadedPage.page ++ (List.range n).map (page / pageSize + ·)) ∨
    ok = false ∧ ∃ mapped lost' use', Progress d a m₀ use₀ loaded' mapped lost' m' use' ∧
      mapped <+: loaded.map LoadedPage.page ++ (List.range n).map (page / pageSize + ·) := by
  induction n generalizing m loaded page lost use with
  | zero =>
      cases pure_eq_ok.mp hm
      exact .inl ⟨rfl, lost, use, h, (List.append_nil _).symm⟩
  | succ n ih =>
      have hnext : (page + pageSize) / pageSize = page / pageSize + 1 :=
        Nat.add_div_right _ (by decide)
      have hrange : (List.range (n + 1)).map (page / pageSize + ·) =
          page / pageSize :: (List.range n).map ((page + pageSize) / pageSize + ·) := by
        rw [List.range_succ_eq_map, List.map_cons, List.map_map, hnext]
        refine congrArg _ (List.map_congr_left fun i _ => ?_)
        show page / pageSize + (i + 1) = page / pageSize + 1 + i
        omega
      rw [hrange]
      rcases h.step hfresh (huser 0 (by omega)) halign hin hm with
        ⟨rfl, rfl, mapped, lost', use', hprogress, hmapped⟩ | ⟨block, lost₁, m₁, use₁, hloads, hm⟩
      · refine .inr ⟨rfl, mapped, lost', use', hprogress, ?_⟩
        rcases hmapped with rfl | rfl
        · exact List.prefix_append _ _
        · exact ⟨_, (List.append_cons _ _ _).symm⟩
      · have hone : (loaded ++ [(⟨page, block⟩ : LoadedPage)]).map LoadedPage.page =
            loaded.map LoadedPage.page ++ [page / pageSize] := by
          rw [List.map_append]
          rfl
        have hlast := ih hloads (by simp only [pageSize] at *; omega) (fun i hi => by
          rw [hnext, Nat.add_assoc, Nat.add_comm 1 i]
          exact huser (i + 1) (by omega)) hm
        rw [hone, ← List.append_cons] at hlast
        exact hlast

/-- The segment loop fails after a prefix of the image's pages. -/
theorem Loads.segments {phs : List ProgramHeader} (h : Loads d a m₀ use₀ loaded lost m use)
    (hfresh : Fresh m₀ use₀ d)
    (huser : ∀ v ∈ attemptedPages image.size phs, v / 1024 < kernelPdeStart) (hin : HeapEndIn m')
    (hm : elfLoadSegments d image m loaded phs = .ok (false, loaded', m')) :
    ∃ mapped lost' use', Progress d a m₀ use₀ loaded' mapped lost' m' use' ∧
      mapped <+: loaded.map LoadedPage.page ++ attemptedPages image.size phs := by
  induction phs generalizing m loaded lost use with
  | nil => cases pure_eq_ok.mp hm
  | cons ph rest ih =>
      unfold attemptedPages at huser ⊢
      rcases elfLoadSegments_cases hm with ⟨htype, hm⟩ | ⟨htype, ⟨hvalid, -, rfl, rfl⟩ |
        ⟨hvalid, loaded₁, m₁, hcase⟩⟩
      · rw [if_pos htype] at huser ⊢
        exact ih h huser hm
      · rw [if_neg (not_not.mpr htype), if_pos (by rw [hvalid]; rfl)]
        exact ⟨_, lost, use, h.toProgress, List.prefix_append _ _⟩
      · rw [if_neg (not_not.mpr htype), if_neg (by rw [hvalid]; decide)] at huser ⊢
        have hregion : ∀ i < ph.pages,
            (ph.segmentStart / pageSize + i) / 1024 < kernelPdeStart := fun i hi =>
          huser _ (List.mem_append_left _ (List.mem_map_of_mem (List.mem_range.mpr hi)))
        rcases hcase with ⟨hpages, hm⟩ | ⟨-, hpages⟩
        · have hin₁ := (elfLoadSegments_grows hm).start
            ((elfLoadPages_grows hpages).word h.records.heapEnd) hin
          rcases h.pages_loop hfresh (segmentStart_aligned ph) hregion hin₁ hpages with
            ⟨-, lost₁, use₁, hloads, hlist⟩ | ⟨hfalse, -⟩
          · have hlast := ih hloads (fun v hv => huser v (List.mem_append_right _ hv)) hm
            rw [hlist, List.append_assoc] at hlast
            exact hlast
          · cases hfalse
        · rcases h.pages_loop hfresh (segmentStart_aligned ph) hregion hin hpages with
            ⟨htrue, -⟩ | ⟨-, mapped, lost', use', hprogress, hpre⟩
          · cases htrue
          · refine ⟨mapped, lost', use', hprogress, hpre.trans ?_⟩
            rw [← List.append_assoc]
            exact List.prefix_append _ _

end Loading

/-! ## Unloading -/

section Unloading

variable {d a : Nat} {m₀ m m' : Mm} {use₀ use : Nat → Use} {pages pages' lost : List Nat}
  {l : LoadedPage} {pending : List LoadedPage}

end Unloading

/-! ## When a failed load is undone -/

section RolledBack

variable {d a f : Nat} {m₀ m m' : Mm} {use₀ use : Nat → Use} {lost : List Nat} {image : ElfImage}

end RolledBack

/-! ## After boot -/

end Neox
