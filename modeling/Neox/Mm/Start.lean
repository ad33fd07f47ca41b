import Neox.Mm.Growth
import Neox.Mm.Vam

/-!
# The uses of frames after boot

`paging_init` makes one frame the kernel's directory and copies the boot mappings into it. Every
other frame is free or reserved, and then `heap_init` maps the first page of the heap.

* `boot_uses`: after boot every frame has one use.
* `boot_blocks`: the heap is well formed.
-/

namespace Neox

open Bytes Checked Pmm

variable {info : BootInfo} {frames : Nat → Block} {directory i j : Nat} {m m' : Mm}

/-! ## Page 0 -/

theorem bitmapSetRange_of_true {bitmap : Nat → Bool} {page : Nat} (addr len : Nat)
    (h : bitmap page = true) : bitmapSetRange bitmap addr len page = true := by
  unfold bitmapSetRange
  split
  · rfl
  · exact h

/-- `pmm_init` reserves the first MiB. -/
theorem pmmInit_zero (info : BootInfo) : ¬ (pmmInit info).Free 0 := by
  intro hfree
  obtain ⟨hlt, hbit⟩ := hfree
  unfold pmmInit at hlt hbit
  cases hmmap : info.mmap with
  | none =>
      rw [hmmap] at hlt
      exact absurd hlt (Nat.not_lt_zero _)
  | some mmap =>
      rw [hmmap] at hbit
      dsimp only at hbit
      have hlow : ∀ bitmap : Nat → Bool, bitmapSetRange bitmap 0 0x00100000 0 = true := by
        intro bitmap
        unfold bitmapSetRange
        rw [if_pos (by decide)]
      rw [bitmapSetRange_of_true] at hbit
      · cases hbit
      · cases info.module with
        | none => exact bitmapSetRange_of_true _ _ (bitmapSetRange_of_true _ _ (hlow _))
        | some range =>
            exact bitmapSetRange_of_true _ _ (bitmapSetRange_of_true _ _
              (bitmapSetRange_of_true _ _ (hlow _)))

/-! ## The boot page tables -/

theorem frame_or (t : Nat) {flags : Nat} (h : flags < pageSize) :
    t * pageSize ||| flags = t * pageSize + flags := by
  rw [Nat.mul_comm]
  exact (Nat.two_pow_add_eq_or_of_lt (i := 12) h _).symm

theorem word_installPageTable (b : Block) (hlt : directory + 4 < directFrames) (hj : j < 4) :
    word (installPageTable directory b j) i =
      if i = j ∨ i = kernelPdeStart + j then bootstrapPageTable directory j * pageSize + 3
      else word b i := by
  have hword : bootstrapPageTable directory j * pageSize ||| (pagePresent ||| pageWritable) =
      bootstrapPageTable directory j * pageSize + 3 := frame_or _ (by decide)
  have hsmall : bootstrapPageTable directory j * pageSize + 3 < 0x100000000 := by
    simp only [bootstrapPageTable, directFrames, pageSize] at *
    omega
  unfold installPageTable
  dsimp only
  rw [hword, word_setWord _ _ _ hsmall, word_setWord _ _ _ hsmall]
  by_cases hhigh : i = kernelPdeStart + j
  · rw [if_pos hhigh, if_pos (.inr hhigh)]
  · rw [if_neg hhigh]
    by_cases hlow : i = j
    · rw [if_pos hlow, if_pos (.inl hlow)]
    · rw [if_neg hlow, if_neg fun h => h.elim hlow hhigh]

/-- The boot directory maps the first 16 MiB twice. -/
theorem word_bootstrapDirectory (hlt : directory + 4 < directFrames) (i : Nat) :
    word (bootstrapFrames frames directory directory) i =
      if i < 4 then bootstrapPageTable directory i * pageSize + 3
      else if kernelPdeStart ≤ i ∧ i < kernelPdeStart + 4 then
        bootstrapPageTable directory (i - kernelPdeStart) * pageSize + 3
      else 0 := by
  rw [bootstrapFrames_directory]
  show word (installPageTable directory (installPageTable directory (installPageTable directory
    (installPageTable directory zero 0) 1) 2) 3) i = _
  rw [word_installPageTable _ hlt (by omega), word_installPageTable _ hlt (by omega),
    word_installPageTable _ hlt (by omega), word_installPageTable _ hlt (by omega), word_zero]
  rcases Nat.lt_or_ge i 4 with hlow | hhigh
  · rw [if_pos hlow]
    obtain rfl | rfl | rfl | rfl : i = 0 ∨ i = 1 ∨ i = 2 ∨ i = 3 := by omega
    all_goals rfl
  · simp only [kernelPdeStart]
    rw [if_neg (Nat.not_lt.mpr hhigh)]
    by_cases hkernel : 768 ≤ i ∧ i < 768 + 4
    · rw [if_pos hkernel]
      obtain rfl | rfl | rfl | rfl : i = 768 ∨ i = 769 ∨ i = 770 ∨ i = 771 := by omega
      all_goals simp
    · rw [if_neg hkernel, if_neg (by omega), if_neg (by omega), if_neg (by omega), if_neg (by omega)]

theorem word_fillPageTable (table : Block) (start : Nat) (h : start + 0x400000 ≤ wordModulus)
    (hstart : start % pageSize = 0) (hj : j < pageDirectoryEntries) :
    word (fillPageTable table start) j = start + j * pageSize + 3 := by
  -- The loop writes entry `j` once.
  have hloop : ∀ n ≤ pageDirectoryEntries, ∀ j < n, word ((List.range n).foldl (fun table i =>
      setWord table i ((start + i * pageSize) ||| (pagePresent ||| pageWritable))) table) j =
      start + j * pageSize + 3 := by
    intro n hn
    induction n with
    | zero =>
        intro j hj
        exact absurd hj (Nat.not_lt_zero j)
    | succ n ih =>
        intro j hj
        have hframe : (start + n * pageSize) / pageSize * pageSize = start + n * pageSize := by
          simp only [pageSize] at *
          omega
        have hentry : (start + n * pageSize) ||| (pagePresent ||| pageWritable) =
            start + n * pageSize + 3 := by
          rw [← hframe]
          exact frame_or _ (by decide)
        have hsmall : start + n * pageSize + 3 < 0x100000000 := by
          simp only [pageSize, wordModulus, pageDirectoryEntries] at *
          omega
        rw [List.range_succ, List.foldl_append, List.foldl_cons, List.foldl_nil, hentry,
          word_setWord _ _ _ hsmall]
        by_cases hjn : j = n
        · rw [if_pos hjn, hjn]
        · rw [if_neg hjn]
          exact ih (by omega) j (by omega)
  exact hloop _ (Nat.le_refl _) j hj

/-- Boot page table `i` maps 4 MiB from `i * 4` MiB. -/
theorem word_bootstrapTable (frames : Nat → Block) (hi : i < 4) (hj : j < pageDirectoryEntries) :
    word (bootstrapFrames frames directory (bootstrapPageTable directory i)) j =
      (i * 1024 + j) * pageSize + 3 := by
  have htable : ∃ table, bootstrapFrames frames directory (bootstrapPageTable directory i) =
      fillPageTable table (i * 0x400000) := by
    unfold bootstrapFrames bootstrapPageTable
    simp only [show List.range 4 = [0, 1, 2, 3] from rfl, List.foldl_cons, List.foldl_nil]
    obtain rfl | rfl | rfl | rfl : i = 0 ∨ i = 1 ∨ i = 2 ∨ i = 3 := by omega
    all_goals
      repeat rw [Function.update_of_ne (by omega)]
      exact ⟨_, Function.update_self ..⟩
  obtain ⟨table, htable⟩ := htable
  rw [htable, word_fillPageTable _ _ (by simp only [wordModulus]; omega)
    (by simp only [pageSize]; omega) hj]
  simp only [pageSize]
  omega

/-! ## `paging_init` -/

/-- `paging_init` takes a free frame for the kernel's directory, which gets the entries of the
bootstrap directory and the recursive one. -/
theorem pagingInit_spec {cr3 : Nat} (h : pagingInit m cr3 = .ok m')
    (hlimit : m.pmm.totalPages ≤ 0x100000) (hcr3 : ¬ m.pmm.Free cr3) :
    ∃ k, m.pmm.Free k ∧ k ≠ 0 ∧ k < directFrames ∧ m'.kernelDirectory = k ∧
      m'.pmm.totalPages = m.pmm.totalPages ∧ m'.pmm.bitmap = Function.update m.pmm.bitmap k true ∧
      (∀ f, f ≠ k → m'.frames f = m.frames f) ∧ ∀ i, m'.entry k i =
        if i = recursivePdeIndex then k * pageSize + 3 else word (m.frames cr3) i := by
  unfold pagingInit at h
  rcases hpage : m.allocPage with ⟨phys, m₁⟩
  rw [hpage] at h
  dsimp only at h
  by_cases hzero : phys = 0
  · rw [if_pos hzero] at h
    cases h
  rw [if_neg hzero] at h
  obtain ⟨t, ht, h⟩ := bind_eq_ok.mp h
  obtain ⟨bootstrap, hbootstrap, h⟩ := bind_eq_ok.mp h
  cases pure_eq_ok.mp h
  have hboot : bootstrap = cr3 := by
    rw [direct_frame hbootstrap]
    exact Nat.mul_div_cancel _ (by decide)
  subst hboot
  unfold Mm.allocPage at hpage
  rcases hq : pmmAllocPage m.pmm with ⟨phys', q⟩
  rw [hq] at hpage
  cases hpage
  rcases pmmAllocPage_spec hq with ⟨hz, -⟩ | ⟨k, hfree, -, hphys, htotal, hbit⟩
  · exact absurd hz hzero
  have hlt : k < 0x100000 := Nat.lt_of_lt_of_le hfree.1 hlimit
  have hphys' : phys = k * pageSize := by
    rw [hphys]
    simp only [pageSize, wordModulus]
    omega
  have hword : phys < wordModulus := by
    rw [hphys']
    simp only [pageSize, wordModulus]
    omega
  obtain ⟨hwindow, htk⟩ := (direct_eq_ok hword).mp ht
  have hk : t = k := by
    rw [htk, hphys']
    exact Nat.mul_div_cancel _ (by decide)
  subst hk
  have hne : bootstrap ≠ t := fun heq => hcr3 (heq ▸ hfree)
  refine ⟨t, hfree, ?_, ?_, rfl, htotal, hbit, fun f hf => ?_, fun i => ?_⟩
  · rintro rfl
    rw [Nat.zero_mul] at hphys'
    exact hzero hphys'
  · simp only [bootstrapMapSize, directFrames, pageSize] at *
    omega
  · unfold copyBootstrap
    rw [Mm.setEntry_frames_of_ne _ hf]
    dsimp only
    rw [Function.update_of_ne hf, Mm.zeroFrame_frames_of_ne _ hf]
  · have hrecursive : phys ||| (pagePresent ||| pageWritable) = t * pageSize + 3 := by
      rw [hphys']
      exact frame_or _ (by decide)
    unfold copyBootstrap
    rw [hrecursive, Mm.setEntry_entry _ _ _ _ _ (by simp only [wordModulus, pageSize]; omega)]
    simp only [true_and]
    split
    · rfl
    · unfold Mm.entry
      dsimp only
      rw [Function.update_self, word_copyWords, if_pos (Nat.zero_le i),
        Mm.zeroFrame_frames_of_ne _ hne]

/-- The uses of frames when the kernel's directory is the only one. -/
def startUse (m : Mm) (f : Nat) : Use :=
  if f = m.kernelDirectory then .directory
  else if f < m.pmm.totalPages ∧ m.pmm.bitmap f = false then .free else .reserved

section StartUse

variable {f : Nat}

theorem startUse_directory : startUse m f = .directory ↔ f = m.kernelDirectory := by
  unfold startUse
  split
  · simp [*]
  · split <;> simp [*]

theorem startUse_free (hkernel : ¬ m.pmm.Free m.kernelDirectory) :
    startUse m f = .free ↔ m.pmm.Free f := by
  unfold startUse
  split
  · next hf =>
    subst hf
    simp [hkernel]
  · split
    · next hfree => simp [Free, hfree]
    · next hfree => simpa [Free] using hfree

theorem startUse_reserved : startUse m f = .reserved ↔ f ≠ m.kernelDirectory ∧ ¬ m.pmm.Free f := by
  unfold startUse Free
  split
  · simp [*]
  · split <;> simp [*]

/-- There are no page tables and no pages yet. -/
theorem startUse_simple (m : Mm) (f : Nat) :
    startUse m f = .directory ∨ startUse m f = .free ∨ startUse m f = .reserved := by
  unfold startUse
  split
  · simp
  · split <;> simp

end StartUse

theorem pagingInit_uses (h : pagingInit m directory = .ok m')
    (hframes : m.frames = bootstrapFrames frames directory)
    (hlimit : m.pmm.totalPages ≤ 0x100000) (hzero : ¬ m.pmm.Free 0)
    (hlt : directory + 4 < directFrames)
    (hreserved : ∀ f, directory ≤ f → f ≤ directory + 4 → ¬ m.pmm.Free f) :
    Uses m' (startUse m') := by
  obtain ⟨k, hfree, hk0, hwindow, hkernel, htotal, hbit, hrest, hentry⟩ :=
    pagingInit_spec h hlimit (hreserved directory (Nat.le_refl _) (Nat.le_add_right ..))
  subst hkernel
  rw [hframes] at hrest
  simp only [hframes, word_bootstrapDirectory hlt] at hentry
  have hfree' : ∀ f, m'.pmm.Free f ↔ f ≠ m'.kernelDirectory ∧ m.pmm.Free f := by
    intro f
    unfold Free
    rw [htotal, hbit]
    by_cases hf : f = m'.kernelDirectory
    · simp [hf]
    · simp [hf]
  have hnot : ¬ m'.pmm.Free m'.kernelDirectory := fun hf => ((hfree' _).mp hf).1 rfl
  have hnone : ∀ f u, startUse m' f = u → u ≠ .directory → u ≠ .free → u = .reserved := by
    rintro f u rfl h1 h2
    exact ((startUse_simple m' f).resolve_left h1).resolve_left h2
  refine ⟨fun f => startUse_free hnot, htotal ▸ hlimit, fun f hf => ?_, ?_, startUse_directory.mpr rfl,
    fun d hd => ?_, fun d i hd ho hp => ?_, fun t d i ht => ?_, fun t d i ht => ?_, fun f d v hf => ?_,
    fun d i hd hi hi' hp => ?_, fun i hi => ?_⟩
  · rw [ne_eq, startUse_reserved, not_and_or, not_not, not_not] at hf
    rcases hf with rfl | hf
    · rw [htotal]
      exact hfree.1
    · exact hf.1
  · exact startUse_reserved.mpr ⟨hk0.symm, fun hf => hzero ((hfree' 0).mp hf).2⟩
  · rw [startUse_directory.mp hd]
    exact hwindow
  · -- The directory owns none of the entries that are set.
    rw [startUse_directory.mp hd] at ho hp
    have ho' := owns_self.mp ho
    have hkernelHalf : ¬ (kernelPdeStart ≤ i ∧ i < kernelPdeStart + 4) := by
      simp only [kernelPdeStart]
      omega
    rw [hentry, if_neg (Nat.ne_of_lt (owns_lt ho)), if_neg (by omega), if_neg hkernelHalf] at hp
    cases hp
  · cases hnone t _ ht (by simp) (by simp)
  · cases hnone t _ ht (by simp) (by simp)
  · cases hnone f _ hf (by simp) (by simp)
  · rw [startUse_directory.mp hd, hentry]
    have hframe : ∀ t, (t * pageSize + 3) / pageSize = t := fun t => by
      simp only [pageSize]
      omega
    unfold bootstrapPageTable
    split
    · rw [hframe]
      exact hwindow
    · split
      · rw [hframe]
        omega
      · split
        · next hhigh =>
          obtain ⟨hle, hle'⟩ := hhigh
          rw [hframe]
          omega
        · exact Nat.zero_lt_succ _
  · have hle : directory ≤ bootstrapPageTable directory i ∧
        bootstrapPageTable directory i ≤ directory + 4 := by
      unfold bootstrapPageTable
      omega
    have htable := hreserved _ hle.1 hle.2
    have hne : bootstrapPageTable directory i ≠ m'.kernelDirectory := fun heq => htable (heq ▸ hfree)
    refine ⟨bootstrapPageTable directory i, ?_, ?_, ?_, fun j hj => ?_⟩
    · exact Nat.lt_of_le_of_lt hle.2 hlt
    · exact startUse_reserved.mpr ⟨hne, fun hf => htable ((hfree' _).mp hf).2⟩
    · simp only [recursivePdeIndex, kernelPdeStart] at *
      rw [hentry, if_neg (by omega), if_neg (by omega), if_pos (by omega), Nat.add_sub_cancel_left]
    · unfold Mm.entry
      rw [hrest _ hne]
      exact word_bootstrapTable frames hi hj

/-! ## `kernel_init` -/

/-- `heap_init` maps the first page of the heap. -/
theorem Uses.heapInit {use : Nat → Use} (hu : Uses m use) (h : heapInit m = .ok m') :
    ∃ use', Local (At m.kernelDirectory (kernelHeapStart / pageSize)) m use m' use' := by
  have ho : Owns m.kernelDirectory m.kernelDirectory (directoryIndex kernelHeapStart) :=
    owns_self.mpr (by decide)
  unfold Neox.heapInit at h
  obtain ⟨⟨virt, m₁⟩, halloc, h⟩ := bind_eq_ok.mp h
  obtain ⟨use', hlocal, -⟩ := hu.vmmAllocPage (by decide) ho halloc
  dsimp only at h
  by_cases hvirt : virt = 0
  · rw [if_pos hvirt] at h
    cases pure_eq_ok.mp h
    exact ⟨use', hlocal⟩
  rw [if_neg hvirt] at h
  obtain ⟨valid, -, h⟩ := bind_eq_ok.mp h
  cases valid with
  | false => cases h
  | true =>
      cases pure_eq_ok.mp h
      exact ⟨use', hlocal.congr rfl rfl rfl rfl⟩

theorem pagingInit_heap {cr3 : Nat} (h : pagingInit m cr3 = .ok m') :
    m'.heap = m.heap ∧ m'.heapEnd = m.heapEnd := by
  unfold pagingInit at h
  rcases hpage : m.allocPage with ⟨phys, m₁⟩
  have hheap := allocPage_heap hpage
  have hend := allocPage_heapEnd hpage
  rw [hpage] at h
  dsimp only at h
  by_cases hzero : phys = 0
  · rw [if_pos hzero] at h
    cases h
  · rw [if_neg hzero] at h
    obtain ⟨t, -, h⟩ := bind_eq_ok.mp h
    obtain ⟨bootstrap, -, h⟩ := bind_eq_ok.mp h
    cases pure_eq_ok.mp h
    exact ⟨hheap, hend⟩

/-- After boot the heap is one block, or none where there was no memory for it. -/
theorem boot_blocks (h : boot info frames directory = .ok m) :
    ∃ a, Blocks a m.heap m.heapEnd ∧ m.heapEnd < wordModulus ∧ inUse m.heap = [] := by
  unfold boot at h
  obtain ⟨m₁, hinit, h⟩ := bind_eq_ok.mp h
  have hnone : ∀ m₂ : Mm, m₂.heap = m₁.heap → m₂.heapEnd = m₁.heapEnd →
      ∃ a, Blocks a m₂.heap m₂.heapEnd ∧ m₂.heapEnd < wordModulus ∧ inUse m₂.heap = [] := by
    intro m₂ hheap hend
    obtain ⟨hheap₁, hend₁⟩ := pagingInit_heap hinit
    rw [hheap, hend, hheap₁, hend₁]
    have hlow : 0 < wordModulus := by decide
    exact ⟨0, ⟨rfl, fun b hb => absurd hb List.not_mem_nil⟩, hlow, rfl⟩
  unfold Neox.heapInit at h
  obtain ⟨⟨virt, m₂⟩, halloc, h⟩ := bind_eq_ok.mp h
  dsimp only at h
  by_cases hvirt : virt = 0
  · rw [if_pos hvirt] at h
    cases pure_eq_ok.mp h
    have hheap : m.heap = (vamInitStacks m₁).heap := vmmAllocPages_heap halloc
    have hend : m.heapEnd = (vamInitStacks m₁).heapEnd := vmmAllocPages_heapEnd halloc
    exact hnone _ hheap hend
  rw [if_neg hvirt] at h
  obtain ⟨valid, -, h⟩ := bind_eq_ok.mp h
  cases valid with
  | false => cases h
  | true =>
      cases pure_eq_ok.mp h
      have hlow : kernelHeapStart + pageSize < wordModulus := by decide
      exact ⟨kernelHeapStart, blocks_cons.mpr ⟨rfl, by decide, rfl, by simp⟩, hlow, rfl⟩

/-- The entries of a zeroed directory and of the kernel's after the kernel half has been copied. -/
theorem copyKernelMappings_entry {d : Nat} (hne : m.kernelDirectory ≠ d) (i : Nat) :
    ((pagingCopyKernelMappings (m.zeroFrame d) d).entry d i =
      if kernelPdeStart ≤ i then m.entry m.kernelDirectory i else 0) ∧
    (pagingCopyKernelMappings (m.zeroFrame d) d).entry m.kernelDirectory i =
      m.entry m.kernelDirectory i := by
  unfold pagingCopyKernelMappings Mm.zeroFrame Mm.entry
  dsimp only
  constructor
  · rw [Function.update_self, word_copyWords, Function.update_self, Function.update_of_ne hne,
      word_zero]
  · rw [Function.update_of_ne hne, Function.update_of_ne hne]

/-- A free frame becomes a directory with an empty user half. -/
theorem Uses.createDirectory {use : Nat → Use} {d : Nat} (hu : Uses m use)
    (h : pagingCreateDirectory m = .ok (some d, m')) :
    use d = .free ∧ Uses m' (Function.update use d .directory) ∧
      m'.kernelDirectory = m.kernelDirectory ∧ m'.heap = m.heap ∧ m'.heapEnd = m.heapEnd ∧
      (∀ i < kernelPdeStart, m'.entry d i = 0) ∧
      ∀ i, kernelPdeStart ≤ i → m'.entry d i = m'.entry m.kernelDirectory i := by
  unfold pagingCreateDirectory at h
  rcases hpage : m.allocPage with ⟨phys, m₁⟩
  rw [hpage] at h
  dsimp only at h
  by_cases hzero : phys = 0
  · rw [if_pos hzero] at h
    cases pure_eq_ok.mp h
  rw [if_neg hzero] at h
  obtain ⟨t, ht, h⟩ := bind_eq_ok.mp h
  cases pure_eq_ok.mp h
  obtain ⟨q, rfl, ⟨hnull, -⟩ | ⟨f, hfree, rfl, -, hword, hu₁⟩⟩ := hu.allocPage hpage
  · exact absurd hnull hzero
  obtain ⟨hwindow, hdf⟩ := (direct_eq_ok hword).mp ht
  rw [Nat.mul_div_cancel _ (by decide)] at hdf
  subst hdf
  have hlt : d < directFrames := by
    simp only [bootstrapMapSize, directFrames, pageSize] at *
    omega
  have hne : m.kernelDirectory ≠ d := by
    rintro rfl
    rw [hu.kernel] at hfree
    cases hfree
  have hheld : Function.update use d .held d = .held := Function.update_self ..
  have hu₂ : Uses (pagingCopyKernelMappings (({ m with pmm := q } : Mm).zeroFrame d) d)
      (Function.update use d .held) :=
    (hu₁.write (f := d) (b := Bytes.zero) (.inl (.inr hheld))).write (f := d) (.inl (.inr hheld))
  have hentry := copyKernelMappings_entry (m := { m with pmm := q }) hne
  have huser : ∀ i < kernelPdeStart, (pagingCopyKernelMappings
      (({ m with pmm := q } : Mm).zeroFrame d) d).entry d i = 0 := by
    intro i hi
    rw [(hentry i).1, if_neg (Nat.not_le.mpr hi)]
  have hcopied : ∀ i, kernelPdeStart ≤ i → (pagingCopyKernelMappings
      (({ m with pmm := q } : Mm).zeroFrame d) d).entry d i = (pagingCopyKernelMappings
      (({ m with pmm := q } : Mm).zeroFrame d) d).entry m.kernelDirectory i := by
    intro i hi
    rw [(hentry i).1, if_pos hi, (hentry i).2]
  have hadd := hu₂.addDirectory hheld hlt huser hcopied
  rw [Function.update_idem] at hadd
  exact ⟨hfree, hadd, rfl, rfl, rfl, huser, hcopied⟩

end Neox
