import Neox.Mm.Heap

/-!
# The memory manager at boot

The page tables `kernel.asm` sets up, `paging_init`, and the order in which `kernel_init` calls the
initialisers. `panic` does not return.

* `boot_remaining`: no page table is in place for the region the kernel has left to allocate.
-/

namespace Neox

open Bytes

/-! ## `kernel.asm` -/

/-- Where a page table of `kernel.asm` is: the four follow `bootstrap_page_directory`. -/
def bootstrapPageTable (directory i : Nat) : Nat := directory + 1 + i

/-- `fill_page_table`. -/
def fillPageTable (table : Block) (start : Nat) : Block :=
  (List.range pageDirectoryEntries).foldl
    (fun table i => setWord table i ((start + i * pageSize) ||| (pagePresent ||| pageWritable))) table

/-- PDE `i` and PDE `768 + i` are set to page table `i`. -/
def installPageTable (directory : Nat) (b : Block) (i : Nat) : Block :=
  let pde := bootstrapPageTable directory i * pageSize ||| (pagePresent ||| pageWritable)
  setWord (setWord b i pde) (kernelPdeStart + i) pde

/-- Memory when `kernel.asm` enables paging. -/
def bootstrapFrames (frames : Nat → Block) (directory : Nat) : Nat → Block :=
  let frames := Function.update frames directory
    ((List.range 4).foldl (installPageTable directory) zero)
  (List.range 4).foldl (fun frames i =>
    let table := bootstrapPageTable directory i
    Function.update frames table (fillPageTable (frames table) (i * 0x400000))) frames

/-! ## `paging.c` -/

/-- The entries of the bootstrap directory, and the recursive mapping. -/
def copyBootstrap (m : Mm) (directory bootstrap phys : Nat) : Mm :=
  let m := { m with
    kernelDirectory := directory
    frames := Function.update m.frames directory
      (copyWords (m.frames directory) 0 (m.frames bootstrap)) }
  m.setEntry directory recursivePdeIndex (phys ||| (pagePresent ||| pageWritable))

/-- `paging_init`; `cr3` is the frame of the bootstrap directory. -/
def pagingInit (m : Mm) (cr3 : Nat) : Except Stop Mm :=
  let (phys, m) := m.allocPage
  if phys = 0 then throw .hang
  else do
    let directory ← direct phys
    let bootstrap ← direct (cr3 * pageSize)
    return copyBootstrap (m.zeroFrame directory) directory bootstrap phys

/-! ## `kernel_init` -/

/-- What `vam_init` does to the stack slots. -/
def vamInitStacks (m : Mm) : Mm := { m with stackSlots := fun _ => false }

/-- The memory part of `kernel_init`; `directory` is the frame of `bootstrap_page_directory`. -/
def boot (info : BootInfo) (frames : Nat → Block) (directory : Nat) : Except Stop Mm := do
  let m : Mm :=
    { pmm := pmmInit info, frames := bootstrapFrames frames directory, kernelDirectory := 0
      heap := [], heapEnd := 0, stackSlots := fun _ => false, trace := [] }
  let m ← pagingInit m directory
  heapInit (vamInitStacks m)

/-! ## The region left to allocate -/

/-- The PDEs of `KERNEL_REMAINING_START` to `KERNEL_REMAINING_END`. -/
def RemainingIndex (i : Nat) : Prop := directoryIndex kernelRemainingStart ≤ i ∧ i < recursivePdeIndex

/-- None of them is in the kernel directory. -/
def RemainingEmpty (m : Mm) : Prop :=
  ∀ i, RemainingIndex i → m.entry m.kernelDirectory i = 0

theorem bootstrapDirectory_remaining (directory i : Nat) (hi : RemainingIndex i) :
    word ((List.range 4).foldl (installPageTable directory) zero) i = 0 := by
  have hkeep : ∀ b k, k < 4 → word b i = 0 → word (installPageTable directory b k) i = 0 := by
    intro b k hk hb
    obtain ⟨hlow, -⟩ := hi
    simp only [directoryIndex, kernelRemainingStart] at hlow
    unfold installPageTable
    rw [word_setWord_ne _ _ (by simp only [kernelPdeStart]; omega), word_setWord_ne _ _ (by omega)]
    exact hb
  show word (installPageTable directory (installPageTable directory (installPageTable directory
    (installPageTable directory zero 0) 1) 2) 3) i = 0
  exact hkeep _ 3 (by omega) (hkeep _ 2 (by omega) (hkeep _ 1 (by omega)
    (hkeep _ 0 (by omega) (word_zero i))))

/-- The four page tables follow the directory, which setting them up leaves alone. -/
theorem bootstrapFrames_directory (frames : Nat → Block) (directory : Nat) :
    bootstrapFrames frames directory directory =
      (List.range 4).foldl (installPageTable directory) zero := by
  have hother : ∀ (f : Nat → Block) k b,
      Function.update f (bootstrapPageTable directory k) b directory = f directory := by
    intro f k b
    unfold bootstrapPageTable
    exact Function.update_of_ne (by omega) _ _
  unfold bootstrapFrames
  simp only [show List.range 4 = [0, 1, 2, 3] from rfl, List.foldl_cons, List.foldl_nil]
  rw [hother, hother, hother, hother, Function.update_self]

theorem bootstrapFrames_remaining (frames : Nat → Block) (directory i : Nat)
    (hi : RemainingIndex i) : word (bootstrapFrames frames directory directory) i = 0 := by
  rw [bootstrapFrames_directory]
  exact bootstrapDirectory_remaining directory i hi

theorem RemainingEmpty.of_entry {m m' : Mm} (h : RemainingEmpty m)
    (hk : m'.kernelDirectory = m.kernelDirectory)
    (he : ∀ i, RemainingIndex i → m'.entry m.kernelDirectory i = 0 ∨
      m'.entry m.kernelDirectory i = m.entry m.kernelDirectory i) : RemainingEmpty m' := by
  intro i hi
  rw [hk]
  rcases he i hi with he | he
  · exact he
  · rw [he]
    exact h i hi

theorem RemainingEmpty.setEntry {m : Mm} {t j w : Nat} (h : RemainingEmpty m)
    (hj : ¬ RemainingIndex j) : RemainingEmpty (m.setEntry t j w) := by
  refine h.of_entry rfl fun i hi => Or.inr ?_
  unfold Mm.entry Mm.setEntry
  dsimp only
  by_cases ht : m.kernelDirectory = t
  · rw [ht, Function.update_self]
    exact word_setWord_ne _ _ fun heq => hj (heq ▸ hi)
  · rw [Function.update_of_ne ht]

theorem RemainingEmpty.zeroFrame {m : Mm} (h : RemainingEmpty m) (t : Nat) :
    RemainingEmpty (m.zeroFrame t) := by
  refine h.of_entry rfl fun i _ => ?_
  rw [Mm.zeroFrame_entry]
  by_cases ht : m.kernelDirectory = t
  · exact Or.inl (if_pos ht)
  · exact Or.inr (if_neg ht)

theorem not_remainingIndex_table {virt : Nat} (h : virt = kernelHeapStart) :
    ¬ RemainingIndex (directoryIndex virt) ∧ ¬ RemainingIndex (tableIndex virt) := by
  subst h
  constructor
  · rintro ⟨h, -⟩
    revert h
    decide
  · rintro ⟨h, -⟩
    revert h
    decide

theorem direct_frame {phys frame : Nat} (h : direct phys = .ok frame) : frame = phys / pageSize := by
  unfold direct at h
  split at h
  · cases h
    rfl
  · cases h

theorem pagingInit_remaining {m m' : Mm} {cr3 : Nat} (h : pagingInit m cr3 = .ok m')
    (hb : ∀ i, RemainingIndex i → word (m.frames cr3) i = 0) : RemainingEmpty m' := by
  unfold pagingInit at h
  have hframes : ∀ f, m.allocPage.2.frames f = m.frames f := fun f => rfl
  generalize m.allocPage = p at h hframes
  obtain ⟨phys, m₁⟩ := p
  dsimp only at h hframes
  by_cases hzero : phys = 0
  · rw [if_pos hzero] at h
    cases h
  rw [if_neg hzero] at h
  obtain ⟨directory, hdirectory, h⟩ := Checked.bind_eq_ok.mp h
  obtain ⟨bootstrap, hbootstrap, hm⟩ := Checked.bind_eq_ok.mp h
  have hcr3 : bootstrap = cr3 := by
    have hframe : bootstrap = cr3 * pageSize / pageSize := direct_frame hbootstrap
    simp only [pageSize] at hframe
    omega
  rw [hcr3] at hm
  cases hm
  unfold copyBootstrap
  have hrecursive : ¬ RemainingIndex recursivePdeIndex := fun hi => Nat.lt_irrefl _ hi.2
  refine RemainingEmpty.setEntry ?_ hrecursive
  intro i hi
  unfold Mm.entry
  dsimp only
  rw [Function.update_self, word_copyWords, if_pos (Nat.zero_le i)]
  have hentry := m₁.zeroFrame_entry directory cr3 i
  unfold Mm.entry at hentry
  rw [hentry]
  split
  · rfl
  · rw [hframes]
    exact hb i hi

theorem pagingMap_remaining {m m' : Mm} {virt phys flags : Nat} (h : RemainingEmpty m)
    (hvirt : virt = kernelHeapStart)
    (hmap : pagingMap m m.kernelDirectory virt phys flags = .ok m') :
    RemainingEmpty m' ∧ m'.kernelDirectory = m.kernelDirectory := by
  obtain ⟨hdir, htab⟩ := not_remainingIndex_table hvirt
  rcases pagingMap_spec hmap with ⟨-, rfl⟩ | ⟨-, hfail | ⟨p, m₁, t, halloc, -, -, rfl⟩⟩
  · exact ⟨h.setEntry htab, rfl⟩
  · have hm' : m' = m.allocPage.2 := by rw [hfail]
    subst hm'
    exact ⟨h, rfl⟩
  · have hm₁ : m₁ = m.allocPage.2 := by rw [halloc]
    subst hm₁
    have h₁ : RemainingEmpty m.allocPage.2 := h
    exact ⟨((h₁.zeroFrame t).setEntry hdir).setEntry htab, rfl⟩

theorem heapInit_remaining {m m' : Mm} (h : RemainingEmpty m) (hinit : heapInit m = .ok m') :
    RemainingEmpty m' := by
  unfold heapInit at hinit
  obtain ⟨⟨virt, m₁⟩, halloc, hinit⟩ := Checked.bind_eq_ok.mp hinit
  have h₁ : RemainingEmpty m₁ := by
    rcases vmmAllocPages_one halloc with ⟨-, rfl⟩ | ⟨-, p, m₂, hpage, ⟨-, -, rfl⟩ | ⟨-, -, hmap⟩⟩
    · exact h
    · have hm₁ : m₁ = m.allocPage.2 := by rw [hpage]
      subst hm₁
      exact h
    · have hm₂ : m₂ = m.allocPage.2 := by rw [hpage]
      subst hm₂
      have h₂ : RemainingEmpty m.allocPage.2 := h
      exact (pagingMap_remaining h₂ (by decide) hmap).1
  dsimp only at hinit
  by_cases hvirt : virt = 0
  · rw [if_pos hvirt] at hinit
    cases Checked.pure_eq_ok.mp hinit
    exact h₁
  rw [if_neg hvirt] at hinit
  obtain ⟨valid, -, hinit⟩ := Checked.bind_eq_ok.mp hinit
  cases valid with
  | false => cases hinit
  | true =>
      cases hinit
      exact h₁

/-- After boot no page of the region left to allocate is mapped. -/
theorem boot_remaining {info : BootInfo} {frames : Nat → Block} {directory : Nat} {m : Mm}
    (h : boot info frames directory = .ok m) : RemainingEmpty m := by
  unfold boot at h
  obtain ⟨m₁, hinit, h⟩ := Checked.bind_eq_ok.mp h
  have h₁ : RemainingEmpty m₁ :=
    pagingInit_remaining hinit fun i hi => bootstrapFrames_remaining frames directory i hi
  have h₂ : RemainingEmpty (vamInitStacks m₁) := h₁
  exact heapInit_remaining h₂ h

end Neox
