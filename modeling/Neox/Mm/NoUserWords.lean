import Neox.Mm.Apart
import Neox.Mm.HeapFailure

/-!
# The kernel's own entries

Until a process has pages the kernel writes no entry with `PAGE_USER`: none while it boots, none for the
heap, and none in a directory it has just created.
-/

namespace Neox

open Bytes Pmm Checked

variable {m m₁ m' : Mm} {virt phys flags d : Nat} {b : Block}

/-- No word of the frame reads as an entry with `PAGE_USER`. -/
def NoUserWord (b : Block) : Prop := ∀ i, userAccess (word b i) = false

/-- No word of memory does. -/
def NoUserWords (m : Mm) : Prop := ∀ f, NoUserWord (m.frames f)

theorem NoUserWord.setWord {w : Nat} (h : NoUserWord b) (i : Nat) (hw : w < wordModulus)
    (huser : userAccess w = false) : NoUserWord (setWord b i w) := by
  intro j
  rw [word_setWord b i j hw]
  split
  · exact huser
  · exact h j

theorem NoUserWord.copyWords {source : Block} (h : NoUserWord b) (hs : NoUserWord source) (first : Nat) :
    NoUserWord (copyWords b first source) := by
  intro i
  rw [word_copyWords]
  split
  · exact hs i
  · exact h i

theorem NoUserWords.update (h : NoUserWords m) (f : Nat) (hb : NoUserWord b) :
    NoUserWords { m with frames := Function.update m.frames f b } := by
  intro g
  show NoUserWord (Function.update m.frames f b g)
  rw [Function.update_apply]
  split
  · exact hb
  · exact h g

/-- Words stay, or become words without `PAGE_USER`. -/
theorem NoUserWords.of_words (h : NoUserWords m)
    (hwords : ∀ f i, m'.entry f i = m.entry f i ∨ userAccess (m'.entry f i) = false) :
    NoUserWords m' := by
  intro f i
  rcases hwords f i with hsame | hkernel
  · have hbefore : userAccess (m.entry f i) = false := h f i
    rw [← hsame] at hbefore
    exact hbefore
  · exact hkernel

theorem NoUserWords.allocPage {p : Nat} (h : NoUserWords m) (halloc : m.allocPage = (p, m')) :
    NoUserWords m' := h.of_words (allocPage_spares halloc).words

/-! ## Booting -/

/-- Only the directory's own entry, and entries of the page table it leads to, are written by
`paging_map`. -/
theorem pagingMap_words (htotal : m.pmm.totalPages ≤ 0x100000)
    (hm : pagingMap m d virt phys flags = .ok m') (f i : Nat) (hf : f ≠ d)
    (htable : f ≠ m'.entry d (directoryIndex virt) / pageSize) : m'.entry f i = m.entry f i := by
  rcases pagingMap_spec hm with ⟨-, rfl⟩ | ⟨-, hfail | ⟨p, m₁, t, halloc, hp, ht, rfl⟩⟩
  · have hne : f ≠ m.entry d (directoryIndex virt) / pageSize := by
      by_cases hself : d = m.entry d (directoryIndex virt) / pageSize
      · rw [← hself]
        exact hf
      · rwa [Mm.record_entry, Mm.setEntry_entry_of_ne _ hself] at htable
    rw [Mm.record_entry, Mm.setEntry_entry_of_ne _ hne]
  · unfold Mm.entry
    rw [(allocPage_addressed hfail).1]
  · have hne : f ≠ t := by
      by_cases hself : d = t
      · rw [← hself]
        exact hf
      · obtain ⟨-, -, -, -, hnew⟩ := allocPage_addressed halloc
        obtain ⟨g, rfl, hg, -⟩ := hnew (addressed_of_le htotal) hp
        obtain ⟨rfl, hreach⟩ := direct_page rfl hg ht
        obtain ⟨hentry, -, hlead⟩ := tableEntry_spec flags hreach
        rwa [Mm.record_entry, Mm.setEntry_entry_of_ne _ hself, Mm.setEntry_entry _ _ _ _ _ hentry,
          if_pos ⟨rfl, rfl⟩, hlead] at htable
    rw [Mm.record_entry, Mm.setEntry_entry_of_ne _ hne, Mm.setEntry_entry_of_ne _ hf, Mm.zeroFrame_entry,
      if_neg hne]
    unfold Mm.entry
    rw [(allocPage_addressed halloc).1]

/-- So the kernel half of a directory stays without pages of the user's, unless it leads to the page table
that is written or to the directory. -/
theorem NoUserWords.kernelHalf (h : NoUserWords m) (htotal : m.pmm.totalPages ≤ 0x100000)
    (hm : pagingMap m d virt phys flags = .ok m')
    (hlead : ∀ i, kernelPdeStart ≤ i → i < pageDirectoryEntries → present (m'.entry d i) = true →
      m'.entry d i / pageSize ≠ d ∧
        m'.entry d i / pageSize ≠ m'.entry d (directoryIndex virt) / pageSize) (v e : Nat)
    (hlow : kernelPdeStart ≤ v / 1024) (hhigh : v / 1024 < pageDirectoryEntries)
    (he : m'.pte d v = some e) : userAccess e = false := by
  unfold Mm.pte at he
  dsimp only at he
  split at he
  · next hp =>
    obtain ⟨hself, htable⟩ := hlead _ hlow hhigh hp
    split at he
    · cases he
      rw [pagingMap_words htotal hm _ _ hself htable]
      exact h _ _
    · cases he
  · cases he

end Neox
