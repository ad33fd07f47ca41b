import Neox.Mm.Overlay

/-!
# The translations of a process directory

A process directory has page tables of its own in the user half. The entries of the kernel half are
those of the kernel's directory at the time it was created, with the boot mappings and the recursive
entry, which shows the page tables of the kernel. When pages have been mapped for a while and the heap
has grown, it translates all addresses as before, but for those of the new pages.
-/

namespace Neox

open Pmm Checked

variable {m m' : Mm} {use use' : Nat → Use} {d d' i virt : Nat}

/-- The entry belongs to the user half, or is empty, or is still that of the kernel's directory. -/
def Mm.currentEntry (m : Mm) (directory index : Nat) : Prop :=
  index < kernelPdeStart ∨ present (m.entry directory index) = false ∨
    m.entry directory index = m.entry m.kernelDirectory index

/-- The heap has grown by the page of the address, or by pages whose page table the recursive entry
shows there. -/
def GrownAt (m m' : Mm) (virt : Nat) : Prop :=
  ∃ w, m.heapEnd ≤ w ∧ w < m'.heapEnd ∧ (virt / pageSize = w / pageSize ∨
    directoryIndex virt = recursivePdeIndex ∧ tableIndex virt = w / pageSize / 1024)

/-- `paging_translate` returns for the directory what it returned before, but where the heap has
grown. -/
def SameTranslations (m : Mm) (directory : Nat) (m' : Mm) : Prop :=
  ∀ virt < wordModulus, m.currentEntry directory (directoryIndex virt) → ¬ GrownAt m m' virt →
    pagingTranslate m' directory virt = pagingTranslate m directory virt

theorem Uses.pagingTranslate_eq (hu : Uses m use) (hd : use d = .directory)
    (ho : Covers m.kernelDirectory d (directoryIndex virt)) :
    pagingTranslate m d virt = .ok ((m.walk d virt).getD 0) := by
  obtain ⟨phys, hphys⟩ := hu.translate_returns hd ho
  rw [hphys, pagingTranslate_spec hphys]

/-- What the MMU reads from an entry of a page directory or a page table. -/
def shown (entry : Nat) : Option Nat := if present entry then some (frameMask entry) else none

theorem walk_eq (m : Mm) (d virt : Nat) : m.walk d virt =
    (shown (m.entry d (directoryIndex virt))).bind fun table =>
      (shown (m.entry (table / pageSize) (tableIndex virt))).map (· + virt % pageSize) := by
  unfold Mm.walk shown
  dsimp only
  split
  · rw [Option.bind_some, frameMask_div]
    split
    · rfl
    · rfl
  · rfl

/-- An entry that a directory owns shows its page table. -/
theorem Uses.shown_iff {t : Nat} (hu : Uses m use) (hd : use d = .directory)
    (ho : Owns m.kernelDirectory d i) :
    shown (m.entry d i) = some (t * pageSize) ↔ use t = .table d i := by
  unfold shown
  constructor
  · intro h
    split at h
    · next hp =>
      have hframe : m.entry d i / pageSize = t := by
        have heq := Option.some.inj h
        simp only [frameMask, pageSize] at heq ⊢
        omega
      rw [← hframe]
      exact hu.table d i hd ho hp
    · cases h
  · intro h
    obtain ⟨-, -, -, hp, hframe⟩ := hu.table_back t d i h
    rw [if_pos hp, frameMask, hframe]

theorem shown_frame (entry : Nat) : shown entry = none ∨ ∃ t, shown entry = some (t * pageSize) := by
  unfold shown
  split
  · exact .inr ⟨entry / pageSize, rfl⟩
  · exact .inl rfl

/-- Two entries that show the same frames. -/
theorem shown_congr {e e' : Nat} (h : ∀ t, shown e' = some (t * pageSize) ↔ shown e = some (t * pageSize)) :
    shown e' = shown e := by
  rcases shown_frame e with hnone | ⟨t, ht⟩
  · rcases shown_frame e' with hnone' | ⟨t, ht⟩
    · rw [hnone, hnone']
    · rw [(h t).mp ht] at hnone
      cases hnone
  · rw [ht]
    exact (h t).mpr ht

section Same

variable (h : Overlay d' m use noPage m' use') (hu : Uses m use)

include h in
theorem Overlay.use_same {u : Use} (hfree : u ≠ .free)
    (hheap : ¬ OfHeap m.kernelDirectory m.heapEnd m'.heapEnd u) (f : Nat) : use' f = u ↔ use f = u :=
  h.use_iff hfree ⟨fun _ hv => hv.elim, fun _ hv => hv.elim⟩ hheap

include h hu in
/-- Page tables that the heap has not taken are shown as before. -/
theorem Overlay.shown_same (hd : use d = .directory) (ho : Owns m.kernelDirectory d i)
    (hheap : ¬ OfHeap m.kernelDirectory m.heapEnd m'.heapEnd (.table d i)) :
    shown (m'.entry d i) = shown (m.entry d i) := by
  have hd' : use' d = .directory := (h.kept d (by rw [hd]; simp)).trans hd
  apply shown_congr
  intro t
  rw [hu.shown_iff hd ho, h.uses.shown_iff hd' (h.kernelDirectory.symm ▸ ho)]
  exact h.use_same (by simp) hheap t

include h hu in
/-- An address whose entry a directory owns. -/
theorem Overlay.walk_same (hd : use d = .directory) (ho : Owns m.kernelDirectory d (directoryIndex virt))
    (hheap : ¬ OfHeap m.kernelDirectory m.heapEnd m'.heapEnd (.page d (virt / pageSize))) :
    m'.walk d virt = m.walk d virt := by
  have hd' : use' d = .directory := (h.kept d (by rw [hd]; simp)).trans hd
  apply Option.ext
  intro phys
  rw [hu.walk_iff hd ho, h.uses.walk_iff hd' (h.kernelDirectory.symm ▸ ho),
    h.use_same (by simp) hheap]

variable (hd : use d = .directory) (hk : d ≠ m.kernelDirectory) (hshared : KeepsShared m use m')
  (hrecursive : m.entry m.kernelDirectory recursivePdeIndex / pageSize = m.kernelDirectory)

include h hu hd hk hshared hrecursive in
/-- An address of the kernel half, by the entry of the directory. -/
theorem Overlay.walk_shared (hi : kernelPdeStart ≤ directoryIndex virt) (hlt : virt < wordModulus)
    (hcurrent : m.entry d (directoryIndex virt) = m.entry m.kernelDirectory (directoryIndex virt))
    (hp : present (m.entry d (directoryIndex virt)) = true) (hgrown : ¬ GrownAt m m' virt) :
    m'.walk d virt = m.walk d virt := by
  have hentry : m'.entry d (directoryIndex virt) = m.entry d (directoryIndex virt) := by
    apply hshared.shared d _ hd
    rw [owns_of_ne hk]
    exact Nat.not_lt.mpr hi
  have hmax : directoryIndex virt ≤ recursivePdeIndex := by
    simp only [directoryIndex, recursivePdeIndex, wordModulus] at *
    omega
  rcases Nat.lt_or_ge (directoryIndex virt) (kernelPdeStart + 4) with hboot | hheap
  · -- The boot page tables.
    obtain ⟨n, hn⟩ := Nat.exists_eq_add_of_le hi
    obtain ⟨b, -, hreserved, hb, -⟩ := hu.boot n (by omega)
    have htable : m.entry d (directoryIndex virt) / pageSize = b := by
      rw [hcurrent, hn, hb]
      simp only [pageSize]
      omega
    rw [walk_eq, walk_eq, hentry]
    unfold shown
    rw [if_pos hp, Option.bind_some, Option.bind_some, frameMask_div, htable]
    unfold Mm.entry
    rw [hshared.reserved b hreserved]
  rcases Nat.lt_or_ge (directoryIndex virt) recursivePdeIndex with hlow | hhigh
  · -- A page table that the kernel's directory owns.
    have ho : Owns m.kernelDirectory m.kernelDirectory (directoryIndex virt) := by
      rw [owns_self]
      exact .inr ⟨hheap, hlow⟩
    have hsame : m'.walk m.kernelDirectory virt = m.walk m.kernelDirectory virt := by
      apply h.walk_same hu hu.kernel ho
      intro hof
      obtain ⟨w, hle, hw, hpage | htable⟩ := hof
      · injection hpage with _ hv
        exact hgrown ⟨w, hle, hw, .inl hv⟩
      · cases htable
    have ht := hu.table _ _ hu.kernel ho (hcurrent ▸ hp)
    have ht' := (h.kept _ (by rw [ht]; simp)).trans ht
    have hkernel : shown (m'.entry m.kernelDirectory (directoryIndex virt)) =
        shown (m.entry m.kernelDirectory (directoryIndex virt)) := by
      have hthen : shown (m.entry m.kernelDirectory (directoryIndex virt)) = some
          (m.entry m.kernelDirectory (directoryIndex virt) / pageSize * pageSize) :=
        (hu.shown_iff hu.kernel ho).mpr ht
      rw [hthen]
      refine (h.uses.shown_iff ?_ (h.kernelDirectory.symm ▸ ho)).mpr ht'
      exact (h.kept _ (by rw [hu.kernel]; simp)).trans hu.kernel
    rw [walk_eq, walk_eq, hentry, hcurrent]
    rw [walk_eq, walk_eq, hkernel] at hsame
    exact hsame
  · -- The recursive entry shows the entries of the kernel's directory.
    have hi' : directoryIndex virt = recursivePdeIndex := Nat.le_antisymm hmax hhigh
    have hshown : shown (m'.entry m.kernelDirectory (tableIndex virt)) =
        shown (m.entry m.kernelDirectory (tableIndex virt)) := by
      by_cases ho : Owns m.kernelDirectory m.kernelDirectory (tableIndex virt)
      · apply h.shown_same hu hu.kernel ho
        intro hof
        obtain ⟨w, hle, hw, hpage | htable⟩ := hof
        · cases hpage
        · injection htable with _ hv
          exact hgrown ⟨w, hle, hw, .inr ⟨hi', hv⟩⟩
      · rw [hshared.shared _ _ hu.kernel ho]
    rw [walk_eq, walk_eq, hentry]
    unfold shown at hshown ⊢
    rw [if_pos hp, Option.bind_some, Option.bind_some, frameMask_div, hcurrent, hi', hrecursive, hshown]

include h hu hd hk hshared hrecursive in
/-- Pages that were mapped for a while leave no translation behind. -/
theorem Overlay.sameTranslations : SameTranslations m d m' := by
  intro virt hlt hcurrent hgrown
  have hd' : use' d = .directory := (h.kept d (by rw [hd]; simp)).trans hd
  have hmax : directoryIndex virt < pageDirectoryEntries := by
    simp only [directoryIndex, pageDirectoryEntries, wordModulus] at *
    omega
  have hcovers : Covers m.kernelDirectory d (directoryIndex virt) := by
    rcases Nat.lt_or_ge (directoryIndex virt) kernelPdeStart with hlow | hhigh
    · exact .inl ((owns_of_ne hk).mpr hlow)
    · exact .inr ⟨hhigh, hmax⟩
  rw [hu.pagingTranslate_eq hd hcovers, h.uses.pagingTranslate_eq hd' (h.kernelDirectory.symm ▸ hcovers)]
  congr 2
  rcases Nat.lt_or_ge (directoryIndex virt) kernelPdeStart with hlow | hhigh
  · apply h.walk_same hu hd ((owns_of_ne hk).mpr hlow)
    intro hof
    obtain ⟨w, -, -, hpage | htable⟩ := hof
    · injection hpage with hdk
      exact hk hdk
    · cases htable
  · cases hp : present (m.entry d (directoryIndex virt)) with
    | false =>
        have hentry : m'.entry d (directoryIndex virt) = m.entry d (directoryIndex virt) := by
          apply hshared.shared d _ hd
          rw [owns_of_ne hk]
          exact Nat.not_lt.mpr hhigh
        rw [walk_eq, walk_eq, hentry]
        unfold shown
        rw [hp]
        rfl
    | true =>
        rcases hcurrent with hlow | hnone | hcurrent
        · exact absurd hlow (Nat.not_lt.mpr hhigh)
        · rw [hp] at hnone
          cases hnone
        · exact h.walk_shared hu hd hk hshared hrecursive hhigh hlt hcurrent hp hgrown

end Same

end Neox
