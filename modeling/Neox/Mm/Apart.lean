import Neox.Mm.Directories
import Neox.Mm.Heap

/-!
# What the kernel heap leaves alone

When `kmalloc` grows the heap it maps a page into the kernel half of the kernel's directory. It
writes to frames the kernel half leads to and to frames that were free, and gives no page to user
mode.
-/

namespace Neox

open Pmm Checked

/-- A frame the allocator does not have and the kernel half of the kernel's directory does not use
for itself or for a page table. -/
structure Apart (m : Mm) (f : Nat) : Prop where
  directory : f ≠ m.kernelDirectory
  taken : ¬ m.pmm.Free f
  table : ∀ i, kernelPdeStart ≤ i → i < pageDirectoryEntries →
    present (m.entry m.kernelDirectory i) = true → m.entry m.kernelDirectory i / pageSize ≠ f

/-- From `m` to `m'` no frame apart has changed, and no entry anywhere has become a user's. -/
structure Spares (m m' : Mm) : Prop where
  heapEnd : m.heapEnd < wordModulus → m'.heapEnd < wordModulus
  totalPages : m'.pmm.totalPages = m.pmm.totalPages
  apart : ∀ f, Apart m f → m'.frames f = m.frames f ∧ Apart m' f
  words : ∀ f i, m'.entry f i = m.entry f i ∨ userAccess (m'.entry f i) = false

variable {m m₁ m' : Mm} {f g virt : Nat}

theorem Spares.refl (m : Mm) : Spares m m := ⟨id, rfl, fun _ h => ⟨rfl, h⟩, fun _ _ => .inl rfl⟩

theorem Spares.trans (h : Spares m m₁) (h' : Spares m₁ m') : Spares m m' where
  heapEnd hlt := h'.heapEnd (h.heapEnd hlt)
  totalPages := h'.totalPages.trans h.totalPages
  apart f hf := by
    obtain ⟨hframe, hf₁⟩ := h.apart f hf
    obtain ⟨hframe', hf'⟩ := h'.apart f hf₁
    exact ⟨hframe'.trans hframe, hf'⟩
  words f i := by
    rcases h'.words f i with hsame | hkernel
    · rw [hsame]
      exact h.words f i
    · exact .inr hkernel

/-- An entry of the kernel's directory that changes does not lead to the frame. -/
theorem Apart.step (h : Apart m f) (hk : m'.kernelDirectory = m.kernelDirectory)
    (hfree : ∀ g, m'.pmm.Free g → m.pmm.Free g)
    (hentry : ∀ i, present (m'.entry m.kernelDirectory i) = true →
      m'.entry m.kernelDirectory i = m.entry m.kernelDirectory i ∨
        m'.entry m.kernelDirectory i / pageSize ≠ f) : Apart m' f where
  directory := hk ▸ h.directory
  taken hf := h.taken (hfree f hf)
  table i hlo hhi hp := by
    rw [hk] at hp ⊢
    rcases hentry i hp with hsame | hne
    · rw [hsame] at hp ⊢
      exact h.table i hlo hhi hp
    · exact hne

theorem allocPage_spares {p : Nat} (h : m.allocPage = (p, m')) : Spares m m' := by
  obtain ⟨hframes, hk, htotal, hfree, -⟩ := allocPage_addressed h
  have hend := allocPage_heapEnd h
  have hentry : ∀ t i, m'.entry t i = m.entry t i := fun t i => by rw [Mm.entry, hframes, Mm.entry]
  exact ⟨fun hlt => hend ▸ hlt, htotal,
    fun f hf => ⟨by rw [hframes], hf.step hk hfree fun i _ => .inl (hentry _ i)⟩,
    fun t i => .inl (hentry t i)⟩

/-- The heap's own fields do not matter. -/
theorem Spares.congr (h : Spares m m₁) (hp : m'.pmm = m₁.pmm) (hf : m'.frames = m₁.frames)
    (hk : m'.kernelDirectory = m₁.kernelDirectory)
    (hend : m.heapEnd < wordModulus → m'.heapEnd < wordModulus) : Spares m m' := by
  have hentry : ∀ t i, m'.entry t i = m₁.entry t i := fun t i => by rw [Mm.entry, hf, Mm.entry]
  refine ⟨hend, by rw [hp, h.totalPages], fun f hap => ?_, fun t i => ?_⟩
  · obtain ⟨hframe, hap₁⟩ := h.apart f hap
    refine ⟨by rw [hf, hframe], hap₁.step hk (fun g hg => by rwa [hp] at hg) fun i _ => ?_⟩
    exact .inl (hentry _ i)
  · rw [hentry]
    exact h.words t i

/-! ## One page -/

/-- The flags of a kernel page. -/
abbrev kernelFlags : Nat := pagePresent ||| pageWritable

/-- The entry `paging_map` writes for a kernel page is no user's. -/
theorem userAccess_kernel (phys : Nat) : userAccess (pageEntry phys kernelFlags) = false := by
  have hflags : kernelFlags = 3 := by decide
  rw [pageEntry_eq (by decide), hflags]
  simp only [userAccess, frameMask, pageSize, beq_eq_false_iff_ne]
  omega

/-- An entry of the kernel half is written. -/
theorem setEntry_spares {t i : Nat} {w : Nat} (hw : w < wordModulus) (huser : userAccess w = false)
    (f : Nat) (j : Nat) : (m.setEntry t i w).entry f j = m.entry f j ∨
      userAccess ((m.setEntry t i w).entry f j) = false := by
  rw [m.setEntry_entry t i f j hw]
  split
  · exact .inr huser
  · exact .inl rfl

/-- `paging_map` of the frame `g` in the kernel half of the kernel's directory. -/
theorem pagingMap_spares (hlow : kernelVirtBase ≤ virt) (hhigh : virt < wordModulus)
    (hg : g < 0x100000) (htotal : m.pmm.totalPages ≤ 0x100000)
    (hm : pagingMap m m.kernelDirectory virt (g * pageSize) kernelFlags = .ok m') :
    (∀ f, Apart m f → f ≠ g → m'.frames f = m.frames f ∧ Apart m' f) ∧
      ∀ f i, m'.entry f i = m.entry f i ∨ userAccess (m'.entry f i) = false := by
  have hindex : kernelPdeStart ≤ directoryIndex virt ∧ directoryIndex virt < pageDirectoryEntries := by
    simp only [kernelVirtBase, wordModulus, kernelPdeStart, directoryIndex, pageDirectoryEntries] at *
    omega
  have hflags : kernelFlags < pageSize := by decide
  have hpte : pageEntry (g * pageSize) kernelFlags < wordModulus :=
    pageEntry_lt (by simp only [pageSize, wordModulus]; omega) hflags
  have hpteFrame : pageEntry (g * pageSize) kernelFlags / pageSize = g := by
    rw [pageEntry_div hflags]
    exact Nat.mul_div_cancel _ (by decide)
  obtain ⟨hk, -, -, hfree⟩ := pagingMap_frame hm
  rcases pagingMap_spec hm with ⟨hp, rfl⟩ | ⟨-, hfail | ⟨p, m₁, t, halloc, hp, ht, rfl⟩⟩
  · refine ⟨fun f hf hne => ⟨?_, hf.step hk hfree fun i _ => ?_⟩, fun f i => ?_⟩
    · exact m.setEntry_frames_of_ne (hf.table _ hindex.1 hindex.2 hp).symm
    · rw [Mm.record_entry, m.setEntry_entry _ _ _ _ hpte]
      split
      · exact .inr (by rw [hpteFrame]; exact hne.symm)
      · exact .inl rfl
    · exact setEntry_spares hpte (userAccess_kernel _) f i
  · exact ⟨fun f hf _ => (allocPage_spares hfail).apart f hf, (allocPage_spares hfail).words⟩
  · obtain ⟨hframes, -, -, -, hnew⟩ := allocPage_addressed halloc
    obtain ⟨t', rfl, hlt, -, hfreeTable, -⟩ := hnew (addressed_of_le htotal) hp
    obtain ⟨rfl, -⟩ := direct_page rfl hlt ht
    have hbits : pagePresent ||| (kernelFlags &&& (pageWritable ||| pageUser)) = kernelFlags := by
      decide
    rw [hbits] at hk hfree ⊢
    have hpde : pageEntry (t * pageSize) kernelFlags < wordModulus := pageEntry_lt
      (by simp only [pageSize, wordModulus]; omega) hflags
    have hpdeFrame : pageEntry (t * pageSize) kernelFlags / pageSize = t := by
      rw [pageEntry_div hflags]
      exact Nat.mul_div_cancel _ (by decide)
    have hentry : ∀ u j, m₁.entry u j = m.entry u j := fun u j => by rw [Mm.entry, hframes, Mm.entry]
    refine ⟨fun f hf hne => ⟨?_, hf.step hk hfree fun i hpres => ?_⟩, fun f i => ?_⟩
    · have hft : f ≠ t := fun heq => hf.taken (heq ▸ hfreeTable)
      rw [Mm.record_frames, Mm.setEntry_frames_of_ne _ hft, Mm.setEntry_frames_of_ne _ hf.directory,
        Mm.zeroFrame_frames_of_ne _ hft, hframes]
    · have hft : t ≠ f := fun heq => hf.taken (heq ▸ hfreeTable)
      rw [Mm.record_entry, Mm.setEntry_entry _ _ _ _ _ hpte] at hpres ⊢
      split
      · exact .inr (by rw [hpteFrame]; exact hne.symm)
      · next hother =>
        rw [if_neg hother, Mm.setEntry_entry _ _ _ _ _ hpde] at hpres
        rw [Mm.setEntry_entry _ _ _ _ _ hpde]
        split
        · exact .inr (hpdeFrame.symm ▸ hft)
        · next hother' =>
          rw [if_neg hother', Mm.zeroFrame_entry] at hpres
          rw [Mm.zeroFrame_entry]
          split
          · next heq =>
            rw [if_pos heq] at hpres
            cases hpres
          · exact .inl (hentry _ i)
    · rw [Mm.record_entry]
      rcases setEntry_spares (m := (m₁.zeroFrame t).setEntry m.kernelDirectory (directoryIndex virt)
        (pageEntry (t * pageSize) kernelFlags)) (t := t) (i := tableIndex virt) hpte
        (userAccess_kernel _) f i with hsame | hkernel
      · rcases setEntry_spares (m := m₁.zeroFrame t) (t := m.kernelDirectory)
          (i := directoryIndex virt) hpde (userAccess_kernel _) f i with hsame' | hkernel
        · have hzero := m₁.zeroFrame_entry t f i
          split at hzero
          · exact .inr (by
              rw [show _ = _ from hsame.trans (hsame'.trans hzero)]
              rfl)
          · exact .inl (hsame.trans (hsame'.trans (hzero.trans (hentry f i))))
        · exact .inr (hsame ▸ hkernel)
      · exact .inr hkernel

/-! ## `kmalloc` -/

theorem vmmAllocPages_spares {r : Nat} (hlow : kernelVirtBase ≤ virt) (hhigh : virt < wordModulus)
    (htotal : m.pmm.totalPages ≤ 0x100000) (h : vmmAllocPages m virt 1 = .ok (r, m')) :
    Spares m m' := by
  rcases vmmAllocPages_one h with ⟨-, rfl⟩ | ⟨-, p, m₁, halloc, ⟨-, -, rfl⟩ | ⟨-, hp, hmap⟩⟩
  · exact .refl _
  · exact allocPage_spares halloc
  · have h₁ := allocPage_spares halloc
    obtain ⟨-, -, -, -, hnew⟩ := allocPage_addressed halloc
    obtain ⟨g, rfl, hg, -, hfree, -⟩ := hnew (addressed_of_le htotal) hp
    obtain ⟨-, htotal', hend, -⟩ := pagingMap_frame hmap
    rw [Nat.mod_eq_of_lt hhigh] at hmap
    obtain ⟨hapart, hwords⟩ := pagingMap_spares hlow hhigh hg (h₁.totalPages ▸ htotal) hmap
    refine ⟨fun hlt => hend ▸ h₁.heapEnd hlt, htotal'.trans h₁.totalPages, fun f hf => ?_, fun f i => ?_⟩
    · obtain ⟨hframe, hf₁⟩ := h₁.apart f hf
      obtain ⟨hframe', hf'⟩ := hapart f hf₁ fun heq => hf.taken (heq ▸ hfree)
      exact ⟨hframe'.trans hframe, hf'⟩
    · rcases hwords f i with hsame | hkernel
      · rw [hsame]
        exact h₁.words f i
      · exact .inr hkernel

theorem heapExpand_spares {b : Bool} (hlt : m.heapEnd < wordModulus)
    (htotal : m.pmm.totalPages ≤ 0x100000) (h : heapExpand m = .ok (b, m')) : Spares m m' := by
  obtain ⟨hstart, virt, m₁, halloc, hcase⟩ := heapExpand_spec h
  have hlow : kernelVirtBase ≤ m.heapEnd := by
    simp only [kernelHeapStart, kernelBootstrapEnd, kernelVirtBase, bootstrapMapSize] at *
    omega
  have h₁ := vmmAllocPages_spares hlow hlt htotal halloc
  rcases hcase with ⟨-, -, rfl⟩ | ⟨-, -, -, rfl⟩
  · exact h₁
  · exact h₁.congr rfl rfl rfl fun _ => Nat.mod_lt _ (by decide)

theorem Expansions.spares (hlt : m.heapEnd < wordModulus) (htotal : m.pmm.totalPages ≤ 0x100000)
    (h : Expansions m m') : Spares m m' := by
  induction h with
  | refl => exact .refl _
  | tail _ hstep ih =>
      obtain ⟨b, hexpand⟩ := hstep
      exact ih.trans (heapExpand_spares (ih.heapEnd hlt) (ih.totalPages ▸ htotal) hexpand)

/-- `kmalloc` leaves every frame apart as it is. -/
theorem kmalloc_spares {size addr : Nat} (hlt : m.heapEnd < wordModulus)
    (htotal : m.pmm.totalPages ≤ 0x100000) (h : kmalloc m size = .ok (addr, m')) : Spares m m' := by
  obtain ⟨m₁, hexpand, ⟨-, rfl⟩ | ⟨heap, -, rfl⟩⟩ := kmalloc_spec h
  · exact hexpand.spares hlt htotal
  · have h₁ := hexpand.spares hlt htotal
    exact h₁.congr rfl rfl rfl h₁.heapEnd

end Neox
