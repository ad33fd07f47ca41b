import Neox.Elf.Loader
import Neox.Mm.Growth
import Neox.Mm.Rights

/-!
# The rights of a loaded image

`elf_load` maps the pages of one segment after the other. In between it allocates heap blocks, for
which the heap may map pages of its own into the kernel's directory: `Aside` is what such work leaves
alone in every other directory.
-/

namespace Neox

open Pmm Checked

/-! ## Work in the kernel's directory -/

/-- From `m` to `m'` pages have been mapped into the kernel's directory `k` only. -/
structure Aside (k : Nat) (live : List Nat) (m m' : Mm) : Prop where
  separated : Separated (Owns k) m' live
  kernelDirectory : m'.kernelDirectory = m.kernelDirectory
  totalPages : m'.pmm.totalPages = m.pmm.totalPages
  free : ∀ f, m'.pmm.Free f → m.pmm.Free f
  structural : ∀ f, Structural (Owns k) m' live f → Structural (Owns k) m live f ∨ m.pmm.Free f
  entries : ∀ d ∈ live, d ≠ k → ∀ i, Owns k d i → m'.entry d i = m.entry d i
  pages : ∀ d ∈ live, d ≠ k → ∀ v, Owns k d (v / 1024) → m'.pte d v = m.pte d v

variable {k : Nat} {live : List Nat} {m m₁ m' : Mm} {virt p : Nat}

theorem Aside.refl (h : Separated (Owns k) m live) : Aside k live m m :=
  ⟨h, rfl, rfl, fun _ hf => hf, fun _ hf => .inl hf, fun _ _ _ _ _ => rfl, fun _ _ _ _ _ => rfl⟩

theorem Aside.trans (h : Aside k live m m₁) (h' : Aside k live m₁ m') : Aside k live m m' where
  separated := h'.separated
  kernelDirectory := h'.kernelDirectory.trans h.kernelDirectory
  totalPages := h'.totalPages.trans h.totalPages
  free f hf := h.free f (h'.free f hf)
  structural f hf := by
    rcases h'.structural f hf with hf | hf
    · exact h.structural f hf
    · exact .inr (h.free f hf)
  entries d hd hne i ho := (h'.entries d hd hne i ho).trans (h.entries d hd hne i ho)
  pages d hd hne v ho := (h'.pages d hd hne v ho).trans (h.pages d hd hne v ho)

theorem Aside.of_kept (h : Kept (Owns k) live m m') (hk : m'.kernelDirectory = m.kernelDirectory)
    (htotal : m'.pmm.totalPages = m.pmm.totalPages) (hfree : ∀ f, m'.pmm.Free f → m.pmm.Free f) :
    Aside k live m m' :=
  ⟨h.separated, hk, htotal, hfree, fun _ hf => .inl (h.structural hf),
    fun d hd _ => h.entries d hd, fun d hd _ => h.pages d hd⟩

theorem Separated.allocPage_aside (h : Separated (Owns k) m live) (hm : m.allocPage = (p, m')) :
    Aside k live m m' := by
  obtain ⟨-, hk, htotal, hfree, -⟩ := allocPage_addressed hm
  exact .of_kept (h.allocPage hm) hk htotal hfree

/-- The heap's own fields do not matter. -/
theorem Aside.congr (h : Aside k live m m₁) (hp : m'.pmm = m₁.pmm) (hf : m'.frames = m₁.frames)
    (hk : m'.kernelDirectory = m₁.kernelDirectory) : Aside k live m m' := by
  have hkept : Kept (Owns k) live m₁ m' :=
    h.separated.keep (fun _ _ => by rw [hf]) fun _ hs => by rw [hp]; exact h.separated.not_free hs
  exact h.trans (.of_kept hkept hk (by rw [hp]) fun _ hfree => by rwa [hp] at hfree)

/-- `paging_map` in the kernel's directory. -/
theorem Separated.pagingMap_aside (h : Separated (Owns k) m live) (hk : k ∈ live)
    (ho : Owns k k (directoryIndex virt)) (hlt : p < wordModulus)
    (haddressed : m.pmm.addressed = true)
    (hm : Neox.pagingMap m k virt p (pagePresent ||| pageWritable) = .ok m') :
    Aside k live m m' := by
  obtain ⟨hkernel, htotal, -, hfree⟩ := pagingMap_frame hm
  rcases h.pagingMap hk ho hlt (by decide) (by decide) (.inr haddressed) hm with
    ⟨-, -, hkept⟩ | ⟨-, hremaps, htable⟩
  · exact .of_kept hkept hkernel htotal hfree
  · rw [directoryIndex_eq] at htable
    exact ⟨hremaps.separated, hkernel, htotal, hfree, fun f hf => hremaps.structural htable hf,
      fun d hd hne i hi => hremaps.entries d hd i hi fun heq => hne heq.1,
      fun d hd hne v hv => hremaps.others d hd v hv fun heq => hne heq.1⟩

/-- `vmm_alloc_pages` for the heap's next page. -/
theorem Separated.vmmAllocPages_aside {r : Nat} (h : Separated (Owns k) m live) (hk : k ∈ live)
    (hkernel : m.kernelDirectory = k) (htotal : m.pmm.totalPages ≤ 0x100000) (hin : HeapEndIn m)
    (hm : vmmAllocPages m m.heapEnd 1 = .ok (r, m')) : Aside k live m m' := by
  rcases vmmAllocPages_one hm with ⟨-, rfl⟩ | ⟨-, p, m₁, halloc, ⟨-, -, rfl⟩ | ⟨-, hp, hmap⟩⟩
  · exact .refl h
  · exact h.allocPage_aside halloc
  · have haside := h.allocPage_aside halloc
    have hsmall : m₁.pmm.totalPages ≤ 0x100000 := by
      rw [haside.totalPages]
      exact htotal
    obtain ⟨-, -, -, -, hnew⟩ := allocPage_addressed halloc
    obtain ⟨f, hpf, hf, -⟩ := hnew (addressed_of_le htotal) hp
    have hlt : m.heapEnd < wordModulus := by
      have hend := hin.2
      simp only [kernelHeapEnd, wordModulus] at *
      omega
    rw [haside.kernelDirectory, hkernel, Nat.mod_eq_of_lt hlt] at hmap
    refine haside.trans (haside.separated.pagingMap_aside hk (owns_heapEnd hin) ?_
      (addressed_of_le hsmall) hmap)
    simp only [pageSize, wordModulus] at *
    omega

theorem Separated.heapExpand_aside {b : Bool} (h : Separated (Owns k) m live) (hk : k ∈ live)
    (hkernel : m.kernelDirectory = k) (htotal : m.pmm.totalPages ≤ 0x100000)
    (hlt : m.heapEnd < wordModulus) (hin : HeapEndIn m') (hm : heapExpand m = .ok (b, m')) :
    Aside k live m m' := by
  have hstart := (heapExpand_grows hm).start hlt hin
  obtain ⟨-, virt, m₁, halloc, hcase⟩ := heapExpand_spec hm
  have haside := h.vmmAllocPages_aside hk hkernel htotal hstart halloc
  rcases hcase with ⟨-, -, rfl⟩ | ⟨-, -, -, rfl⟩
  · exact haside
  · exact haside.congr rfl rfl rfl

theorem Separated.expansions_aside (h : Separated (Owns k) m live) (hk : k ∈ live)
    (hkernel : m.kernelDirectory = k) (htotal : m.pmm.totalPages ≤ 0x100000)
    (hlt : m.heapEnd < wordModulus) (hin : HeapEndIn m') (hm : Expansions m m') :
    Aside k live m m' := by
  induction hm with
  | refl => exact .refl h
  | tail hbefore hstep ih =>
      obtain ⟨b, hexpand⟩ := hstep
      have hlt₁ := (Expansions.grows hbefore).word hlt
      have haside := ih ((heapExpand_grows hexpand).start hlt₁ hin)
      exact haside.trans (haside.separated.heapExpand_aside hk (haside.kernelDirectory.trans hkernel)
        (by rw [haside.totalPages]; exact htotal) hlt₁ hin hexpand)

theorem Separated.kmalloc_aside {size addr : Nat} (h : Separated (Owns k) m live) (hk : k ∈ live)
    (hkernel : m.kernelDirectory = k) (htotal : m.pmm.totalPages ≤ 0x100000)
    (hlt : m.heapEnd < wordModulus) (hin : HeapEndIn m') (hm : kmalloc m size = .ok (addr, m')) :
    Aside k live m m' := by
  obtain ⟨m₁, hexpand, ⟨-, rfl⟩ | ⟨heap, -, rfl⟩⟩ := kmalloc_spec hm
  · exact h.expansions_aside hk hkernel htotal hlt hin hexpand
  · have hin₁ : HeapEndIn m₁ := hin
    exact (h.expansions_aside hk hkernel htotal hlt hin₁ hexpand).congr rfl rfl rfl

/-! ## The pages of an image -/

/-- The pages of a segment with their flags, in the order of the page loop. -/
def ProgramHeader.mappings (ph : ProgramHeader) : List (Nat × Nat) :=
  (List.range ph.pages).map fun i => (ph.segmentStart / pageSize + i, ph.flags)

/-- What `elf_load` maps, in order. -/
def ElfImage.mappings (image : ElfImage) : List (Nat × Nat) :=
  (image.headers.filter fun ph => ph.pType == ptLoad).flatMap ProgramHeader.mappings

/-- The flags a page is given first in a 4 MiB region. -/
def firstFlags (mappings : List (Nat × Nat)) (region : Nat) : Option Nat :=
  (mappings.find? fun x => x.1 / 1024 == region).map Prod.snd

/-- The flags a page is given last. -/
def lastFlags (mappings : List (Nat × Nat)) (page : Nat) : Option Nat :=
  (mappings.reverse.find? fun x => x.1 == page).map Prod.snd

theorem firstFlags_append (done : List (Nat × Nat)) (v flags i : Nat) :
    firstFlags (done ++ [(v, flags)]) i =
      (firstFlags done i).or (if v / 1024 = i then some flags else none) := by
  unfold firstFlags
  rw [List.find?_append]
  cases List.find? (fun x => x.1 / 1024 == i) done with
  | some x => rfl
  | none =>
      by_cases hi : v / 1024 = i
      · simp [hi]
      · simp [hi]

theorem lastFlags_append (done : List (Nat × Nat)) (v flags page : Nat) :
    lastFlags (done ++ [(v, flags)]) page = if page = v then some flags else lastFlags done page := by
  unfold lastFlags
  rw [List.reverse_append, List.reverse_singleton, List.singleton_append, List.find?_cons]
  by_cases hv : page = v
  · simp [hv]
  · have hother : (v == page) = false := by simpa using Ne.symm hv
    rw [hother, if_neg hv]

/-- The rights of a directory's entry. -/
def Mm.tableRights (m : Mm) (directory region : Nat) : Option Rights :=
  if present (m.entry directory region) then some (.of (m.entry directory region)) else none

theorem Mm.rights_eq (m : Mm) (d v : Nat) :
    m.rights d v = (m.tableRights d (v / 1024)).bind fun r => ((m.pte d v).map Rights.of).map r.both := by
  unfold Mm.rights Mm.tableRights
  by_cases hp : present (m.entry d (v / 1024)) = true
  · rw [if_pos hp, Option.bind_some, Option.map_map]
    rfl
  · rw [if_neg hp, pte_none (by simpa using hp)]
    rfl

/-- After the mappings `done` the rights of directory `d` are theirs. -/
structure Loading (k d : Nat) (live : List Nat) (done : List (Nat × Nat)) (m : Mm) : Prop where
  separated : Separated (Owns k) m live
  kernelDirectory : m.kernelDirectory = k
  totalPages : m.pmm.totalPages ≤ 0x100000
  heapEnd : m.heapEnd < wordModulus
  tables : ∀ i < kernelPdeStart, m.tableRights d i = (firstFlags done i).map Rights.of
  pages : ∀ v, v / 1024 < kernelPdeStart →
    (m.pte d v).map Rights.of = (lastFlags done v).map Rights.of

section Loading

variable {d flags f : Nat} {done : List (Nat × Nat)} {image : ElfImage} {ph : ProgramHeader}

/-- Work that leaves the directory alone. -/
theorem Loading.aside (h : Loading k d live done m) (hd : d ∈ live) (hne : d ≠ k)
    (ha : Aside k live m m') (hend : m'.heapEnd < wordModulus) : Loading k d live done m' where
  separated := ha.separated
  kernelDirectory := ha.kernelDirectory.trans h.kernelDirectory
  totalPages := by
    rw [ha.totalPages]
    exact h.totalPages
  heapEnd := hend
  tables i hi := by
    have ho := (owns_of_ne hne).mpr hi
    unfold Mm.tableRights
    rw [ha.entries d hd hne i ho]
    exact h.tables i hi
  pages v hv := by
    rw [ha.pages d hd hne v ((owns_of_ne hne).mpr hv)]
    exact h.pages v hv

/-- A frame that is neither a directory nor a page table is written. -/
theorem Separated.write_aside (h : Separated (Owns k) m live) (hf : ¬ Structural (Owns k) m live f)
    (b : Bytes.Block) :
    Aside k live m { m with frames := Function.update m.frames f b } := by
  refine .of_kept (h.keep (fun g hg => ?_) fun g hg => h.not_free hg) rfl rfl fun _ hg => hg
  refine Function.update_of_ne (fun heq => hf ?_) ..
  rw [← heq]
  exact hg

/-- One page is mapped. -/
theorem Loading.pagingMap (h : Loading k d live done m) (hd : d ∈ live) (hne : d ≠ k)
    (hv : virt / pageSize / 1024 < kernelPdeStart) (hlt : p < wordModulus) (hp : p ≠ 0)
    (halign : virt % pageSize = 0) (hflags : flags < pageSize) (hpres : present flags = true)
    (hm : Neox.pagingMap m d virt p flags = .ok m') (ht : pagingTranslate m' d virt = .ok p) :
    Loading k d live (done ++ [(virt / pageSize, flags)]) m' ∧
      ∀ g, Structural (Owns k) m' live g → Structural (Owns k) m live g ∨ m.pmm.Free g := by
  have ho : Owns k d (directoryIndex virt) := (owns_of_ne hne).mpr (directoryIndex_eq ▸ hv)
  obtain ⟨hkernel, htotal, hend, -⟩ := pagingMap_frame hm
  rcases h.separated.pagingMap hd ho hlt hflags hpres (.inr (addressed_of_le h.totalPages)) hm with
    ⟨hno, -, hkept⟩ | ⟨-, hremaps, htable⟩
  · -- Without a page table the page is not translated.
    rw [hkept.separated.translate hd ho, pte_none (directoryIndex_eq ▸ hkept.entries d hd _ ho ▸ hno),
      halign] at ht
    cases ht
    exact absurd rfl hp
  · rw [directoryIndex_eq] at htable
    refine ⟨⟨hremaps.separated, hkernel.trans h.kernelDirectory, htotal ▸ h.totalPages,
      hend ▸ h.heapEnd, fun i hi => ?_, fun v hv' => ?_⟩, fun g hg => hremaps.structural htable hg⟩
    · have hold := h.tables i hi
      rw [firstFlags_append]
      by_cases hregion : virt / pageSize / 1024 = i
      · subst hregion
        rw [if_pos rfl]
        unfold Mm.tableRights at hold ⊢
        rcases htable with ⟨hthere, hsame⟩ | ⟨hno, hthere, hbits, -⟩
        · rw [if_pos hthere] at hold
          rw [hsame, if_pos hthere, hold]
          cases hfirst : firstFlags done (virt / pageSize / 1024) with
          | some x => rfl
          | none =>
              rw [hfirst] at hold
              cases hold
        · rw [hno, if_neg (by decide)] at hold
          rw [if_pos hthere, Option.map_eq_none_iff.mp hold.symm, ← Rights.of_mod, hbits,
            Rights.of_table]
          rfl
      · rw [if_neg hregion, Option.or_none, ← hold]
        unfold Mm.tableRights
        rw [hremaps.entries d hd i ((owns_of_ne hne).mpr hi) fun heq => hregion heq.2.symm]
    · rw [lastFlags_append]
      by_cases heq : v = virt / pageSize
      · rw [if_pos heq, heq, hremaps.here, Option.map_some, Option.map_some,
          Rights.of_pageEntry hflags]
      · rw [if_neg heq, hremaps.others d hd v ((owns_of_ne hne).mpr hv') fun h => heq h.2]
        exact h.pages v hv'

theorem ProgramHeader.flags_lt (ph : ProgramHeader) : ph.flags < pageSize := by
  unfold ProgramHeader.flags
  split <;> decide

theorem ProgramHeader.present_flags (ph : ProgramHeader) : present ph.flags = true := by
  unfold ProgramHeader.flags
  split <;> decide

/-- One iteration of the page loop that does not fail. -/
theorem elfLoadPages_succ {n page : Nat} {loaded loaded' : List LoadedPage}
    (hm : elfLoadPages d image ph m loaded page (n + 1) = .ok (true, loaded', m')) :
    ∃ phys m₁ frame m₂ block m₃, m.allocPage = (phys, m₁) ∧ phys ≠ 0 ∧ direct phys = .ok frame ∧
      Neox.pagingMap (m₁.zeroFrame frame) d page phys ph.flags = .ok m₂ ∧
      pagingTranslate m₂ d page = .ok phys ∧ kmalloc m₂ loadedPageSize = .ok (block, m₃) ∧
      block ≠ 0 ∧ elfLoadPages d image ph { m₃ with
          frames := Function.update m₃.frames frame (copyPage image ph page (m₃.frames frame)) }
        (loaded ++ [⟨page, block⟩]) (page + pageSize) n = .ok (true, loaded', m') := by
  rcases elfLoadPages_cases hm with ⟨hfalse, -⟩ |
    ⟨phys, m₁, frame, m₂, translated, halloc, hphys, hframe, hmap, htranslate,
      ⟨-, hfalse, -⟩ | ⟨rfl, block, m₃, hblock, ⟨-, hfalse, -⟩ | ⟨hne, hm⟩⟩⟩
  · cases hfalse
  · cases hfalse
  · cases hfalse
  · exact ⟨translated, m₁, frame, m₂, block, m₃, halloc, hphys, hframe, hmap, htranslate, hblock,
      hne, hm⟩

theorem elfLoadPages_grows {n page : Nat} {ok : Bool} {loaded loaded' : List LoadedPage}
    (hm : elfLoadPages d image ph m loaded page n = .ok (ok, loaded', m')) : HeapGrows m m' := by
  induction n generalizing m loaded page with
  | zero =>
      cases pure_eq_ok.mp hm
      exact .of_eq rfl
  | succ n ih =>
      rcases elfLoadPages_cases hm with ⟨-, -, hfail⟩ |
        ⟨phys, m₁, frame, m₂, translated, halloc, -, -, hmap, -, hcase⟩
      · exact .of_eq (allocPage_heapEnd hfail)
      · have hend₁ := allocPage_heapEnd halloc
        have hend : m₂.heapEnd = m.heapEnd := (pagingMap_frame hmap).2.2.1.trans hend₁
        rcases hcase with ⟨-, -, -, m₃, hunmap, rfl⟩ | ⟨-, block, m₃, hblock, hcase⟩
        · exact .of_eq ((pagingUnmap_heap hunmap).2.trans hend)
        · have hgrows := (HeapGrows.of_eq hend).trans (kmalloc_grows hblock)
          rcases hcase with ⟨-, -, -, m₄, hunmap, rfl⟩ | ⟨-, hm⟩
          · exact hgrows.trans (.of_eq (pagingUnmap_heap hunmap).2)
          · have hwrite : HeapGrows m₃ { m₃ with
                frames := Function.update m₃.frames frame (copyPage image ph page (m₃.frames frame)) } :=
              .of_eq rfl
            exact hgrows.trans (hwrite.trans (ih hm))

/-- The page loop. -/
theorem Loading.pages_loop {n page : Nat} {loaded loaded' : List LoadedPage}
    (h : Loading k d live done m) (hk : k ∈ live) (hd : d ∈ live) (hne : d ≠ k)
    (halign : page % pageSize = 0)
    (huser : ∀ i < n, (page / pageSize + i) / 1024 < kernelPdeStart) (hin : HeapEndIn m')
    (hm : elfLoadPages d image ph m loaded page n = .ok (true, loaded', m')) :
    Loading k d live (done ++ (List.range n).map fun i => (page / pageSize + i, ph.flags)) m' := by
  induction n generalizing m loaded page done with
  | zero =>
      cases pure_eq_ok.mp hm
      rw [List.range_zero, List.map_nil, List.append_nil]
      exact h
  | succ n ih =>
      obtain ⟨phys, m₁, frame, m₂, block, m₃, halloc, hphys, hframe, hmap, htranslate, hblock, -,
        hm⟩ := elfLoadPages_succ hm
      obtain ⟨-, -, -, -, hnew⟩ := allocPage_addressed halloc
      obtain ⟨f, hpf, hf, -, hfree, htaken⟩ := hnew (addressed_of_le h.totalPages) hphys
      obtain ⟨rfl, -⟩ := direct_page hpf hf hframe
      have hend₁ := allocPage_heapEnd halloc
      have hword₁ : m₁.heapEnd < wordModulus := hend₁ ▸ h.heapEnd
      have h₁ := h.aside hd hne (h.separated.allocPage_aside halloc) hword₁
      have hfresh₁ : ¬ Structural (Owns k) m₁ live frame := fun hs =>
        h.separated.not_free ((h.separated.allocPage halloc).structural hs) hfree
      -- The frame is cleared and mapped.
      have hzero := h₁.separated.write_aside hfresh₁ Bytes.zero
      have hfreshZero := fun hs => (hzero.structural frame hs).elim hfresh₁ htaken
      obtain ⟨h₂, hstructural⟩ := (h₁.aside hd hne hzero hword₁).pagingMap hd hne (huser 0 (by omega))
        (by simp only [pageSize, wordModulus] at *; omega) hphys halign ph.flags_lt ph.present_flags
        hmap htranslate
      have hfresh₂ : ¬ Structural (Owns k) m₂ live frame := fun hs =>
        (hstructural frame hs).elim hfreshZero htaken
      have htaken₂ : ¬ m₂.pmm.Free frame := fun hg => htaken ((pagingMap_frame hmap).2.2.2 frame hg)
      -- The record of the page is allocated.
      have hgrows := kmalloc_grows hblock
      have hword₃ := hgrows.word h₂.heapEnd
      have hin₃ : HeapEndIn m₃ := (elfLoadPages_grows hm).start hword₃ hin
      have haside := h₂.separated.kmalloc_aside hk h₂.kernelDirectory h₂.totalPages h₂.heapEnd hin₃
        hblock
      have h₃ := h₂.aside hd hne haside hword₃
      have hfresh₃ : ¬ Structural (Owns k) m₃ live frame := fun hs =>
        (haside.structural frame hs).elim hfresh₂ htaken₂
      -- The file's bytes are copied.
      have h₄ := h₃.aside hd hne (h₃.separated.write_aside hfresh₃
        (copyPage image ph page (m₃.frames frame))) hword₃
      have hnext : (page + pageSize) / pageSize = page / pageSize + 1 :=
        Nat.add_div_right _ (by decide)
      have hlast := ih h₄ (by simp only [pageSize] at *; omega) (fun i hi => by
        rw [hnext, Nat.add_assoc, Nat.add_comm 1 i]
        exact huser (i + 1) (by omega)) hm
      rw [List.append_assoc] at hlast
      rw [List.range_succ_eq_map, List.map_cons, List.map_map]
      simp only [hnext, Nat.add_assoc, Nat.add_comm 1] at hlast
      exact hlast

/-- One iteration of the segment loop that does not fail. -/
theorem elfLoadSegments_cons {rest : List ProgramHeader} {loaded loaded' : List LoadedPage}
    (hm : elfLoadSegments d image m loaded (ph :: rest) = .ok (true, loaded', m')) :
    ph.pType ≠ ptLoad ∧ elfLoadSegments d image m loaded rest = .ok (true, loaded', m') ∨
    ph.pType = ptLoad ∧ ∃ loaded₁ m₁,
      elfLoadPages d image ph m loaded ph.segmentStart ph.pages = .ok (true, loaded₁, m₁) ∧
      elfLoadSegments d image m₁ loaded₁ rest = .ok (true, loaded', m') := by
  rcases elfLoadSegments_cases hm with hskip | ⟨htype, ⟨-, hfalse, -⟩ | ⟨-, loaded₁, m₁,
    ⟨hpages, hm⟩ | ⟨hfalse, -⟩⟩⟩
  · exact .inl hskip
  · cases hfalse
  · exact .inr ⟨htype, loaded₁, m₁, hpages, hm⟩
  · cases hfalse

theorem elfLoadSegments_grows {phs : List ProgramHeader} {ok : Bool}
    {loaded loaded' : List LoadedPage}
    (hm : elfLoadSegments d image m loaded phs = .ok (ok, loaded', m')) : HeapGrows m m' := by
  induction phs generalizing m loaded with
  | nil =>
      cases pure_eq_ok.mp hm
      exact .of_eq rfl
  | cons ph rest ih =>
      rcases elfLoadSegments_cases hm with ⟨-, hm⟩ | ⟨-, ⟨-, -, -, rfl⟩ | ⟨-, loaded₁, m₁,
        ⟨hpages, hm⟩ | ⟨-, hpages⟩⟩⟩
      · exact ih hm
      · exact .of_eq rfl
      · exact (elfLoadPages_grows hpages).trans (ih hm)
      · exact elfLoadPages_grows hpages

theorem segmentStart_aligned (ph : ProgramHeader) : ph.segmentStart % pageSize = 0 :=
  Nat.mul_mod_left ..

/-- The segment loop. -/
theorem Loading.segments {phs : List ProgramHeader} {loaded loaded' : List LoadedPage}
    (h : Loading k d live done m) (hk : k ∈ live) (hd : d ∈ live) (hne : d ≠ k)
    (huser : ∀ ph ∈ phs, ph.pType = ptLoad → ∀ x ∈ ph.mappings, x.1 / 1024 < kernelPdeStart)
    (hin : HeapEndIn m') (hm : elfLoadSegments d image m loaded phs = .ok (true, loaded', m')) :
    Loading k d live
      (done ++ (phs.filter fun ph => ph.pType == ptLoad).flatMap ProgramHeader.mappings) m' := by
  induction phs generalizing m loaded done with
  | nil =>
      cases pure_eq_ok.mp hm
      rw [List.filter_nil, List.flatMap_nil, List.append_nil]
      exact h
  | cons ph rest ih =>
      have hrest := fun ph' hmem => huser ph' (List.mem_cons_of_mem ph hmem)
      rw [List.filter_cons]
      rcases elfLoadSegments_cons hm with ⟨htype, hm⟩ | ⟨htype, loaded₁, m₁, hpages, hm⟩
      · rw [if_neg (by simpa using htype)]
        exact ih h hrest hm
      · rw [if_pos (by simpa using htype), List.flatMap_cons, ← List.append_assoc]
        have hin₁ := (elfLoadSegments_grows hm).start ((elfLoadPages_grows hpages).word h.heapEnd) hin
        refine ih (h.pages_loop hk hd hne (segmentStart_aligned ph) (fun i hi => ?_) hin₁ hpages) hrest
          hm
        exact huser ph (List.mem_cons_self ..) htype _
          (List.mem_map_of_mem (List.mem_range.mpr hi))

/-- The rights of every page of an image that `elf_load` has loaded into an empty user half. -/
theorem elfLoad_rights {entry v last : Nat} (hsep : Separated (Owns k) m live) (hk : k ∈ live)
    (hd : d ∈ live) (hne : d ≠ k) (hkernel : m.kernelDirectory = k)
    (htotal : m.pmm.totalPages ≤ 0x100000) (hword : m.heapEnd < wordModulus) (hin : HeapEndIn m')
    (hempty : ∀ i < kernelPdeStart, present (m.entry d i) = false)
    (huser : ∀ x ∈ image.mappings, x.1 / 1024 < kernelPdeStart)
    (hm : elfLoad m d image = .ok (some entry, m')) (hv : lastFlags image.mappings v = some last) :
    ∃ first, firstFlags image.mappings (v / 1024) = some first ∧
      m'.rights d v = some ((Rights.of first).both (.of last)) := by
  unfold elfLoad at hm
  split at hm
  · cases pure_eq_ok.mp hm
  · obtain ⟨⟨ok, loaded, m₁⟩, hsegments, hm⟩ := bind_eq_ok.mp hm
    cases ok with
    | false =>
        obtain ⟨m₂, -, hm⟩ := bind_eq_ok.mp hm
        cases pure_eq_ok.mp hm
    | true =>
        cases pure_eq_ok.mp hm
        have hstart : Loading k d live [] m := by
          refine ⟨hsep, hkernel, htotal, hword, fun i hi => ?_, fun v hv => ?_⟩
          · exact if_neg (by rw [hempty i hi]; decide)
          · rw [pte_none (hempty _ hv)]
            rfl
        have hend := hstart.segments hk hd hne (fun ph hph htype x hx => huser x (by
          refine List.mem_flatMap.mpr ⟨ph, List.mem_filter.mpr ⟨hph, by simpa using htype⟩, hx⟩)) hin
          hsegments
        rw [List.nil_append] at hend
        -- The page is one of the image's.
        have hmem : ∃ x ∈ image.mappings, x.1 = v := by
          obtain ⟨x, hx, -⟩ := Option.map_eq_some_iff.mp hv
          exact ⟨x, List.mem_reverse.mp (List.mem_of_find?_eq_some hx),
            by simpa using List.find?_some hx⟩
        obtain ⟨x, hx, rfl⟩ := hmem
        have hregion := huser x hx
        cases hfirst : firstFlags image.mappings (x.1 / 1024) with
        | none =>
            have hnone := List.find?_eq_none.mp (Option.map_eq_none_iff.mp hfirst) x hx
            simp at hnone
        | some first =>
            refine ⟨first, rfl, ?_⟩
            have htable := hend.tables _ hregion
            have hpage := hend.pages _ hregion
            rw [ElfImage.mappings] at hfirst hv
            rw [hfirst] at htable
            rw [hv] at hpage
            rw [Mm.rights_eq, htable, hpage]
            rfl

end Loading

/-! ## Whose rights are what was asked for -/

open Transition Directories in
/-- The rights of a page are those of its last mapping exactly when the mapping that opened the
page's 4 MiB region had them too: in every run of the paging operations, and after `elf_load`, whose
pages are mapped in the order of `mappings`. -/
theorem effective_rights_iff (mm : Mm) :
    (∀ {es : List SpaceEvent} {m : Directories},
      Observed step (fun m op => m.permitted op = true) observe { mm := mm, live := [] } es m →
      ∀ d ∈ m.live, ∀ v, v / 1024 < kernelPdeStart → ∀ mapping, reference es d v = some mapping →
        (m.mm.rights d v = some (.of mapping.flags) ↔
          (Rights.of mapping.flags).le (.of (openers es d (v / 1024))) = true)) ∧
    (∀ {m m' : Mm} {k d : Nat} {live : List Nat} {image : ElfImage} {entry : Nat},
      Separated (Owns k) m live → k ∈ live → d ∈ live → d ≠ k → m.kernelDirectory = k →
      m.pmm.totalPages ≤ 0x100000 → m.heapEnd < wordModulus → HeapEndIn m' →
      (∀ i < kernelPdeStart, present (m.entry d i) = false) →
      (∀ x ∈ image.mappings, x.1 / 1024 < kernelPdeStart) →
      elfLoad m d image = .ok (some entry, m') →
      ∀ v last, lastFlags image.mappings v = some last →
        ∃ first, firstFlags image.mappings (v / 1024) = some first ∧
          (m'.rights d v = some (.of last) ↔ (Rights.of last).le (.of first) = true)) := by
  constructor
  · intro es m hrun d hd v hv mapping hr
    rw [(opened_of_run hrun).rights_eq hd hv hr, Option.some.injEq]
    exact Rights.both_eq_right
  · intro m m' k d live image entry hsep hk hd hne hkernel htotal hword hin hempty huser hm v last
      hlast
    obtain ⟨first, hfirst, hrights⟩ :=
      elfLoad_rights hsep hk hd hne hkernel htotal hword hin hempty huser hm hlast
    refine ⟨first, hfirst, ?_⟩
    rw [hrights, Option.some.injEq]
    exact Rights.both_eq_right

/-- A file with a segment of one page at 0x400000 and one at 0x401000, with these `p_flags`. -/
def twoSegments (flags₁ flags₂ : Nat) : ElfImage where
  bytes i := ([0x7F, 0x45, 0x4C, 0x46, 1, 1, 1, 0, 0, 0, 0, 0, 0, 0, 0, 0, 2, 0, 3, 0, 1, 0, 0, 0,
    0, 0, 0x40, 0, 52, 0, 0, 0, 0, 0, 0, 0, 0, 0, 0, 0, 52, 0, 32, 0, 2, 0, 0, 0, 0, 0, 0, 0,
    1, 0, 0, 0, 0, 0, 0, 0, 0, 0, 0x40, 0, 0, 0, 0, 0, 0, 0, 0, 0, 0, 16, 0, 0,
    flags₁, 0, 0, 0, 0, 16, 0, 0,
    1, 0, 0, 0, 0, 0, 0, 0, 0, 16, 0x40, 0, 0, 0, 0, 0, 0, 0, 0, 0, 0, 16, 0, 0,
    flags₂, 0, 0, 0, 0, 16, 0, 0] : List Nat).getD i 0 |>.toUInt8
  size := 116

/-- `sample` with a heap of one page. -/
def heapSample : Mm := { Directories.sample with
  heap := [{ addr := kernelHeapStart, size := pageSize - heapHeader, free := true }]
  heapEnd := kernelHeapStart + pageSize }

theorem heapSample_entry (d i : Nat) : present (heapSample.entry d i) = false := by
  have hzero : heapSample.entry d i = Bytes.word Bytes.zero i := rfl
  rw [hzero, Bytes.word_zero]
  rfl

theorem heapSample_separated : Separated (Owns 1) heapSample [1, 2] := by
  refine ⟨by decide, fun d hd => ?_, fun d _ i _ hp => ?_, fun d _ d' _ i i' _ _ hp => ?_⟩
  · simp only [List.mem_cons, List.not_mem_nil, or_false] at hd
    rcases hd with rfl | rfl
    · exact ⟨by decide, fun hf => absurd hf.2 (by decide)⟩
    · exact ⟨by decide, fun hf => absurd hf.2 (by decide)⟩
  · rw [heapSample_entry] at hp
    cases hp
  · rw [heapSample_entry] at hp
    cases hp

/-- What `elf_load` does with one of the files: the entry point, the rights of the two pages and
`heap_end`. -/
def loadTwo (flags₁ flags₂ : Nat) : Option (Option Nat × Option Rights × Option Rights × Nat) :=
  (elfLoad heapSample 2 (twoSegments flags₁ flags₂)).toOption.map fun (entry, m) =>
    (entry, m.rights 2 0x400, m.rights 2 0x401, m.heapEnd)

theorem loadTwo_spec {flags₁ flags₂ entry last : Nat} {r₁ r₂ : Option Rights}
    (h : loadTwo flags₁ flags₂ = some (some entry, r₁, r₂, last)) :
    ∃ m', elfLoad heapSample 2 (twoSegments flags₁ flags₂) = .ok (some entry, m') ∧
      m'.rights 2 0x400 = r₁ ∧ m'.rights 2 0x401 = r₂ ∧ m'.heapEnd = last := by
  unfold loadTwo at h
  obtain ⟨⟨entry', m'⟩, hload, heq⟩ := Option.map_eq_some_iff.mp h
  cases heq
  exact ⟨m', toOption_eq_some.mp hload, rfl, rfl, rfl⟩

open Transition Directories

set_option maxRecDepth 4000 in
/-- The page mapped read-only first opens the region; the writable one after it cannot be written,
in a run and in a file. -/
theorem read_only_first :
    (∃ m, Observed step (fun m op => m.permitted op = true) observe { mm := sample, live := [] }
        [.created 4, .mapped 4 0x400 ⟨0x9000, 5⟩, .mapped 4 0x401 ⟨0xa000, 7⟩] m ∧ 4 ∈ m.live ∧
      Rights.of 7 = ⟨true, true⟩ ∧ m.mm.rights 4 0x401 = some ⟨false, true⟩) ∧
    ∃ m', elfLoad heapSample 2 (twoSegments 4 6) = .ok (some 0x400000, m') ∧
      (twoSegments 4 6).mappings = [(0x400, 5), (0x401, 7)] ∧
      m'.rights 2 0x401 = some ⟨false, true⟩ := by
  constructor
  · have h : (watch step (fun m op => m.permitted op = true) observe { mm := sample, live := [] }
        [.create, .map 4 0x400000 0x9000 5, .map 4 0x401000 0xa000 7]).map
          (fun p => (p.1, p.2.live, p.2.mm.rights 4 0x401)) =
        some ([.created 4, .mapped 4 0x400 ⟨0x9000, 5⟩, .mapped 4 0x401 ⟨0xa000, 7⟩], [4],
          some ⟨false, true⟩) := by decide +kernel
    obtain ⟨⟨es, m⟩, hm, hend⟩ := Option.map_eq_some_iff.mp h
    simp only [Prod.mk.injEq] at hend
    obtain ⟨rfl, hlive, hrights⟩ := hend
    exact ⟨m, observed_of_watch hm, by rw [hlive]; decide, by decide, hrights⟩
  · have h : loadTwo 4 6 = some (some 0x400000, some ⟨false, true⟩, some ⟨false, true⟩,
        kernelHeapStart + pageSize) := by decide +kernel
    obtain ⟨m', hload, -, hrights, -⟩ := loadTwo_spec h
    exact ⟨m', hload, by decide +kernel, hrights⟩

set_option maxRecDepth 4000 in
/-- Where the writable page comes first, both have the rights they were mapped with. -/
theorem effective_rights_writable_first :
    (∃ m, Observed step (fun m op => m.permitted op = true) observe { mm := sample, live := [] }
        [.created 4, .mapped 4 0x400 ⟨0x9000, 7⟩, .mapped 4 0x401 ⟨0xa000, 5⟩] m ∧
      m.mm.rights 4 0x401 = some (.of 5)) ∧
    ∃ m', elfLoad heapSample 2 (twoSegments 6 4) = .ok (some 0x400000, m') ∧
      m'.rights 2 0x401 = some (.of 5) := by
  obtain ⟨hruns, hloads⟩ := effective_rights_iff sample
  constructor
  · have h : (watch step (fun m op => m.permitted op = true) observe { mm := sample, live := [] }
        [.create, .map 4 0x400000 0x9000 7, .map 4 0x401000 0xa000 5]).map
          (fun p => (p.1, p.2.live)) =
        some ([.created 4, .mapped 4 0x400 ⟨0x9000, 7⟩, .mapped 4 0x401 ⟨0xa000, 5⟩], [4]) := by
      decide +kernel
    obtain ⟨⟨es, m⟩, hm, hend⟩ := Option.map_eq_some_iff.mp h
    simp only [Prod.mk.injEq] at hend
    obtain ⟨rfl, hlive⟩ := hend
    have hrun := observed_of_watch hm
    refine ⟨m, hrun, (hruns hrun 4 (by rw [hlive]; decide) 0x401 (by decide) ⟨0xa000, 5⟩ ?_).mpr ?_⟩
    · decide +kernel
    · decide +kernel
  · have h : loadTwo 6 4 = some (some 0x400000, some ⟨true, true⟩, some ⟨false, true⟩,
        kernelHeapStart + pageSize) := by decide +kernel
    obtain ⟨m', hload, -, -, hend⟩ := loadTwo_spec h
    refine ⟨m', hload, ?_⟩
    obtain ⟨first, hfirst, hiff⟩ := hloads heapSample_separated (by decide) (by decide) (by decide) rfl
      (by decide) (by decide) (by unfold HeapEndIn; rw [hend]; decide)
      (fun i _ => heapSample_entry 2 i) (by decide +kernel) hload 0x401 5 (by decide +kernel)
    have h7 : firstFlags (twoSegments 6 4).mappings (0x401 / 1024) = some 7 := by decide +kernel
    cases hfirst.symm.trans h7
    exact hiff.mpr (by decide)

end Neox
