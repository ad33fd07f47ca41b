import Neox.Elf.Permissions

/-!
# What loading an image leaves behind

`elf_load` notes every page it maps in a `struct elf_loaded_page` of the heap, so that it can undo the
work when it fails. When it succeeds the records stay: the heap has one more block in use for each
page of the image, and nothing refers to them any more.
-/

namespace Neox

open Pmm Checked

variable {m m₀ m₁ m₂ m' : Mm} {d size addr : Nat} {image : ElfImage} {ph : ProgramHeader}

/-! ## The loader -/

theorem elfLoadPages_inUse {n page : Nat} {loaded loaded' : List LoadedPage}
    (h : elfLoadPages d image ph m loaded page n = .ok (true, loaded', m')) :
    (inUse m'.heap).length = (inUse m.heap).length + n := by
  induction n generalizing m loaded page with
  | zero =>
      cases pure_eq_ok.mp h
      rfl
  | succ n ih =>
      obtain ⟨phys, m₁, frame, m₂, block, m₃, halloc, -, -, hmap, -, hblock, hne, h⟩ :=
        elfLoadPages_succ h
      have hlast := ih h
      have hone : (inUse m₃.heap).length = (inUse m₂.heap).length + 1 := by
        rcases kmalloc_inUse hblock with ⟨hzero, -⟩ | ⟨b, -, hperm⟩
        · exact absurd hzero hne
        · exact hperm.length_eq
      have hheap₁ := allocPage_heap halloc
      have hheap : m₂.heap = m.heap := (pagingMap_heap hmap).trans hheap₁
      rw [hheap] at hone
      dsimp only at hlast
      omega

/-- Every page of the image has its block. -/
theorem elfLoadSegments_inUse {phs : List ProgramHeader} {loaded loaded' : List LoadedPage}
    (h : elfLoadSegments d image m loaded phs = .ok (true, loaded', m')) :
    (inUse m'.heap).length = (inUse m.heap).length +
      ((phs.filter fun ph => ph.pType == ptLoad).flatMap ProgramHeader.mappings).length := by
  induction phs generalizing m loaded with
  | nil =>
      cases pure_eq_ok.mp h
      rfl
  | cons ph rest ih =>
      rw [List.filter_cons]
      rcases elfLoadSegments_cons h with ⟨htype, h⟩ | ⟨htype, loaded₁, m₁, hpages, h⟩
      · rw [if_neg (by simpa using htype)]
        exact ih h
      · rw [if_pos (by simpa using htype), List.flatMap_cons, List.length_append, ih h,
          elfLoadPages_inUse hpages, ProgramHeader.mappings, List.length_map, List.length_range,
          Nat.add_assoc]

/-- A segment without pages changes nothing. -/
theorem elfLoadSegments_nothing {phs : List ProgramHeader} {loaded loaded' : List LoadedPage}
    (h : elfLoadSegments d image m loaded phs = .ok (true, loaded', m'))
    (hnone : (phs.filter fun ph => ph.pType == ptLoad).flatMap ProgramHeader.mappings = []) :
    m' = m := by
  induction phs generalizing m loaded with
  | nil =>
      cases pure_eq_ok.mp h
      rfl
  | cons ph rest ih =>
      rw [List.filter_cons] at hnone
      rcases elfLoadSegments_cons h with ⟨htype, h⟩ | ⟨htype, loaded₁, m₁, hpages, h⟩
      · rw [if_neg (by simpa using htype)] at hnone
        exact ih h hnone
      · rw [if_pos (by simpa using htype), List.flatMap_cons, List.append_eq_nil_iff] at hnone
        have hzero : ph.pages = 0 := by
          have hlength := congrArg List.length hnone.1
          rwa [ProgramHeader.mappings, List.length_map, List.length_range] at hlength
        rw [hzero] at hpages
        cases pure_eq_ok.mp hpages
        exact ih h hnone.2

theorem elfLoad_loaded {entry : Nat} (h : elfLoad m d image = .ok (some entry, m')) :
    ∃ loaded, elfLoadSegments d image m [] image.headers = .ok (true, loaded, m') := by
  unfold elfLoad at h
  split at h
  · cases pure_eq_ok.mp h
  · obtain ⟨⟨ok, loaded, m₁⟩, hsegments, h⟩ := bind_eq_ok.mp h
    cases ok with
    | true =>
        cases pure_eq_ok.mp h
        exact ⟨loaded, hsegments⟩
    | false =>
        obtain ⟨m₂, -, h⟩ := bind_eq_ok.mp h
        cases pure_eq_ok.mp h

/-! ## Creating and destroying the directory -/

/-- The directory `d` was created in `m₀` and loaded between `m₁` and `m₂`: the heap has the same
blocks in use as before the load, and destroying the directory makes the frames free again that were
free in `m₀`. -/
structure Reclaimed (m₀ m₁ m₂ : Mm) (d : Nat) : Prop where
  blocks : (inUse m₂.heap).Perm (inUse m₁.heap)
  frames : ∃ m₃, pagingDestroyDirectory m₂ d = .ok m₃ ∧
    ∀ f, m₀.pmm.Free f ↔ m₃.pmm.Free f ∨ AbsorbedByHeap m₁ m₃ f

/-- A new directory has an empty user half; its page is the next one of the allocator. -/
theorem pagingCreateDirectory_spec (h : pagingCreateDirectory m₀ = .ok (some d, m₁)) :
    (∀ i < kernelPdeStart, m₁.entry d i = 0) ∧ ∃ page, m₀.pmm.nextPage = some page ∧
      d = page * pageSize % wordModulus / pageSize ∧ m₀.pmm.Free page ∧
      m₁.pmm.totalPages = m₀.pmm.totalPages ∧
      m₁.pmm.bitmap = Function.update m₀.pmm.bitmap page true := by
  unfold pagingCreateDirectory at h
  rcases halloc : m₀.allocPage with ⟨p, m⟩
  rw [halloc] at h
  simp only [] at h
  split at h
  · cases pure_eq_ok.mp h
  · next hp =>
    obtain ⟨t, ht, h⟩ := bind_eq_ok.mp h
    cases pure_eq_ok.mp h
    constructor
    · intro i hi
      unfold pagingCopyKernelMappings Mm.entry
      simp only [Function.update_self, Bytes.word_copyWords, if_neg (Nat.not_le_of_lt hi)]
      exact (m.zeroFrame_entry d d i).trans (if_pos rfl)
    · unfold Mm.allocPage at halloc
      rcases hq : pmmAllocPage m₀.pmm with ⟨phys, q⟩
      rw [hq] at halloc
      cases halloc
      rcases nextPage_spec hq with ⟨-, hz, -⟩ | ⟨page, hnext, hfree, hphys, htotal, hbit⟩
      · exact absurd hz hp
      · have hlt : p < wordModulus := hphys ▸ Nat.mod_lt _ (by decide)
        obtain ⟨-, hd⟩ := (direct_eq_ok hlt).mp ht
        exact ⟨page, hnext, by rw [hd, hphys], hfree, htotal, hbit⟩

/-- Destroying a directory with an empty user half frees its own page. -/
theorem pagingDestroyDirectory_empty (h : ∀ i < kernelPdeStart, m.entry d i = 0) :
    pagingDestroyDirectory m d = .ok (m.freePage (d * pageSize)) := by
  have hloop : (List.range kernelPdeStart).foldlM (pagingDestroyEntry d) m = .ok m := by
    have hstep : ∀ i < kernelPdeStart, ∀ s, s = m →
        Post (fun _ => False) (fun s => s = m) (pagingDestroyEntry d s i) := by
      intro i hi s hs
      unfold pagingDestroyEntry
      rw [hs, h i hi]
      exact .pure rfl
    obtain ⟨s, hs, rfl⟩ := (Post.foldlM_range (I := fun _ s => s = m) rfl hstep).returns
    exact hs
  unfold pagingDestroyDirectory
  rw [hloop]
  rfl

/-- Creating a directory and destroying it frees the page that was taken, when that page has an
address. -/
theorem free_created_iff (h : pagingCreateDirectory m₀ = .ok (some d, m₁)) :
    (∀ f, m₀.pmm.Free f ↔ (m₁.freePage (d * pageSize)).pmm.Free f) ↔ m₀.pmm.addressed = true := by
  obtain ⟨-, page, hnext, hd, hfree, htotal, hbit⟩ := pagingCreateDirectory_spec h
  obtain ⟨htotal', hbit'⟩ := pmmFreePage_spec m₁.pmm (d * pageSize)
  have haddressed : m₀.pmm.addressed = true ↔ page = d := by
    unfold Pmm.addressed
    rw [hnext, Option.all_some, decide_eq_true_iff, hd]
    simp only [pageSize, wordModulus]
    omega
  have hafter : ∀ f, (m₁.freePage (d * pageSize)).pmm.Free f ↔
      f < m₀.pmm.totalPages ∧ (f = d ∨ f ≠ page ∧ m₀.pmm.bitmap f = false) := by
    intro f
    show f < (pmmFreePage m₁.pmm _).totalPages ∧ (pmmFreePage m₁.pmm _).bitmap f = false ↔ _
    rw [htotal', hbit', hbit, htotal, Nat.mul_div_cancel _ (by decide)]
    by_cases hfd : f = d
    · by_cases hlt : f < m₀.pmm.totalPages
      · simp [hfd, hfd ▸ hlt]
      · simp [hlt]
    · rw [if_neg fun hboth => hfd hboth.1]
      by_cases hfp : f = page
      · have hne : page ≠ d := hfp ▸ hfd
        simp [hfp, hne]
      · rw [Function.update_of_ne hfp]
        simp [hfd, hfp]
  rw [haddressed]
  constructor
  · intro hsame
    obtain ⟨-, hpage | ⟨hne, -⟩⟩ := (hafter page).mp ((hsame page).mp hfree)
    · exact hpage
    · exact absurd rfl hne
  · intro hpage f
    rw [hafter f, Pmm.Free]
    by_cases hfd : f = d
    · subst hfd
      rw [← hpage]
      simp [hfree.1, hfree.2]
    · simp [hfd, hpage]

/-! ## When nothing is lost -/

/-- Creating, loading and destroying leaves the heap and the free frames as they were exactly when the
image has no page to load, and the page of the directory has an address. -/
theorem elf_load_reclaimed_iff {entry : Nat} (hcreate : pagingCreateDirectory m₀ = .ok (some d, m₁))
    (hload : elfLoad m₁ d image = .ok (some entry, m₂)) :
    Reclaimed m₀ m₁ m₂ d ↔ image.mappings = [] ∧ m₀.pmm.addressed = true := by
  obtain ⟨loaded, hsegments⟩ := elfLoad_loaded hload
  have hempty := (pagingCreateDirectory_spec hcreate).1
  have hnone : image.mappings = [] → m₂ = m₁ := elfLoadSegments_nothing hsegments
  have hstill : m₂ = m₁ → ∀ m₃, pagingDestroyDirectory m₂ d = .ok m₃ →
      m₃ = m₁.freePage (d * pageSize) ∧ ∀ f, ¬ AbsorbedByHeap m₁ m₃ f := by
    rintro rfl m₃ hdestroy
    rw [pagingDestroyDirectory_empty hempty] at hdestroy
    cases hdestroy
    refine ⟨rfl, fun f hf => ?_⟩
    obtain ⟨v, hle, hlt, -⟩ := hf
    exact Nat.not_lt_of_le hle hlt
  constructor
  · intro h
    have hpages : image.mappings = [] := by
      have hcount := elfLoadSegments_inUse hsegments
      rw [h.blocks.length_eq] at hcount
      exact List.length_eq_zero_iff.mp (by rw [ElfImage.mappings]; omega)
    obtain ⟨m₃, hdestroy, hframes⟩ := h.frames
    obtain ⟨rfl, habsorbed⟩ := hstill (hnone hpages) m₃ hdestroy
    refine ⟨hpages, (free_created_iff hcreate).mp fun f => (hframes f).trans ?_⟩
    exact or_iff_left (habsorbed f)
  · intro h
    obtain ⟨hpages, haddressed⟩ := h
    have hsame := hnone hpages
    have hdestroy := pagingDestroyDirectory_empty hempty
    rw [← hsame] at hdestroy
    obtain ⟨-, habsorbed⟩ := hstill hsame _ hdestroy
    refine ⟨by rw [hsame], _, hdestroy, fun f => ?_⟩
    rw [or_iff_left (habsorbed f), hsame]
    exact (free_created_iff hcreate).mpr haddressed f

/-- A new directory of `heapSample`, then a load: the entry point and the numbers of blocks in use
before and after. -/
def loadFresh (image : ElfImage) : Option (Option Nat × Nat × Nat) :=
  (pagingCreateDirectory heapSample).toOption.bind fun (created, m₁) =>
    created.bind fun d => (elfLoad m₁ d image).toOption.map fun (entry, m₂) =>
      (entry, (inUse m₁.heap).length, (inUse m₂.heap).length)

theorem loadFresh_spec {entry before after : Nat}
    (h : loadFresh image = some (some entry, before, after)) :
    ∃ d m₁ m₂, pagingCreateDirectory heapSample = .ok (some d, m₁) ∧
      elfLoad m₁ d image = .ok (some entry, m₂) ∧ (inUse m₁.heap).length = before ∧
      (inUse m₂.heap).length = after := by
  unfold loadFresh at h
  obtain ⟨⟨created, m₁⟩, hcreate, h⟩ := Option.bind_eq_some_iff.mp h
  obtain ⟨d, rfl, h⟩ := Option.bind_eq_some_iff.mp h
  obtain ⟨⟨found, m₂⟩, hload, h⟩ := Option.map_eq_some_iff.mp h
  cases h
  exact ⟨d, m₁, m₂, toOption_eq_some.mp hcreate, toOption_eq_some.mp hload, rfl, rfl⟩

set_option maxRecDepth 4000 in
/-- A file of two pages leaves two blocks in use. -/
theorem elf_load_leaves_blocks :
    ∃ d m₁ m₂, pagingCreateDirectory heapSample = .ok (some d, m₁) ∧
      elfLoad m₁ d (twoSegments 4 6) = .ok (some 0x400000, m₂) ∧ (inUse m₁.heap).length = 0 ∧
      (inUse m₂.heap).length = 2 ∧ ¬ Reclaimed heapSample m₁ m₂ d := by
  have h : loadFresh (twoSegments 4 6) = some (some 0x400000, 0, 2) := by decide +kernel
  obtain ⟨d, m₁, m₂, hcreate, hload, hbefore, hafter⟩ := loadFresh_spec h
  refine ⟨d, m₁, m₂, hcreate, hload, hbefore, hafter, fun hkept => ?_⟩
  have hsame := hkept.blocks.length_eq
  rw [hbefore, hafter] at hsame
  cases hsame

/-- A file whose one program header is a `PT_NOTE`. -/
def noteOnly : ElfImage where
  bytes i := ([0x7F, 0x45, 0x4C, 0x46, 1, 1, 1, 0, 0, 0, 0, 0, 0, 0, 0, 0, 2, 0, 3, 0, 1, 0, 0, 0,
    0, 0, 0x40, 0, 52, 0, 0, 0, 0, 0, 0, 0, 0, 0, 0, 0, 52, 0, 32, 0, 1, 0, 0, 0, 0, 0, 0, 0,
    4, 0, 0, 0] : List Nat).getD i 0 |>.toUInt8
  size := 84

set_option maxRecDepth 4000 in
theorem elf_load_reclaimed_note :
    ∃ d m₁ m₂, pagingCreateDirectory heapSample = .ok (some d, m₁) ∧
      elfLoad m₁ d noteOnly = .ok (some 0x400000, m₂) ∧ Reclaimed heapSample m₁ m₂ d := by
  have h : loadFresh noteOnly = some (some 0x400000, 0, 0) := by decide +kernel
  obtain ⟨d, m₁, m₂, hcreate, hload, -, -⟩ := loadFresh_spec h
  exact ⟨d, m₁, m₂, hcreate, hload,
    (elf_load_reclaimed_iff hcreate hload).mpr ⟨by decide +kernel, by decide +kernel⟩⟩

end Neox
