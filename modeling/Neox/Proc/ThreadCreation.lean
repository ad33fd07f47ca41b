import Neox.Proc.StackBalance

/-!
# When `thread_create` returns

`thread_create` maps the pages of the new stack in the kernel's directory and asserts after each of them
that the process sees it too. The process does when its entry for the stack, which was copied when the
process was created, leads to the page table the kernel's entry leads to: `thread_create_iff`.
-/

namespace Neox

open Pmm Checked

variable {m m' m₀ m₁ m₂ : Mm} {use use' use₀ : Nat → Use} {d f i j n s slot t virt a : Nat}
  {k k' : Kernel} {p : ProcessId}

/-! ## The page table of a stack -/

/-- The entry of a directory for the pages of the slot. -/
abbrev stackEntry (slot : Nat) : Nat := stackSlot slot / pageSize / 1024

/-- The page table that entry `i` of the kernel's directory has, or gets with the first page that is
mapped there. -/
def Mm.tableFor (m : Mm) (i : Nat) : Option Nat :=
  if present (m.entry m.kernelDirectory i) then some (m.entry m.kernelDirectory i / pageSize)
  else m.freeFrames[1]?

/-- How many pages there can be mapped. -/
def Mm.pagesFor (m : Mm) (i : Nat) : Nat :=
  m.freeFrames.length - if present (m.entry m.kernelDirectory i) then 0 else 1

theorem stackEntry_page (slot : Nat) (hi : i < kernelStackPages) :
    directoryIndex (stackSlot slot + i * pageSize) = stackEntry slot := by
  rw [directoryIndex_eq, stackSlot_page, stackSlot_table slot hi]

theorem validate_present (hp : present (m.entry d (directoryIndex virt)) = true)
    (hlt : m.entry d (directoryIndex virt) / pageSize < directFrames) :
    pagingValidateMapping m d virt =
      .ok (present (m.entry (m.entry d (directoryIndex virt) / pageSize) (tableIndex virt))) := by
  have hentry := m.entry_lt d (directoryIndex virt)
  have hdirect : direct (frameMask (m.entry d (directoryIndex virt))) =
      .ok (m.entry d (directoryIndex virt) / pageSize) := by
    rw [direct_eq_ok (frameMask_lt hentry), frameMask_div]
    refine ⟨?_, rfl⟩
    simp only [frameMask, pageSize, directFrames, bootstrapMapSize] at *
    omega
  unfold pagingValidateMapping pagingGetTable
  simp only [hp, if_true, hdirect]
  rfl

theorem validate_absent (hp : present (m.entry d (directoryIndex virt)) = false) :
    pagingValidateMapping m d virt = .ok false := by
  unfold pagingValidateMapping
  rw [getTable_none hp]
  rfl

/-! ## The next page -/

/-- What `pmm_alloc_page` and `paging_map_kernel` have done: the page is in page table `t`. -/
structure MappedIn (m : Mm) (virt t : Nat) (m' : Mm) : Prop where
  kernelDirectory : m'.kernelDirectory = m.kernelDirectory
  entry : present (m'.entry m.kernelDirectory (directoryIndex virt)) = true ∧
    m'.entry m.kernelDirectory (directoryIndex virt) / pageSize = t
  page : present (m'.entry t (tableIndex virt)) = true
  pagesFor : m.pagesFor (directoryIndex virt) = m'.freeFrames.length + 1
  frames : ∀ g, g ≠ m.kernelDirectory → g ≠ t → m'.frames g = m.frames g

theorem MappedIn.entry_eq {g : Nat} (h : MappedIn m virt t m') (hk : g ≠ m.kernelDirectory) (ht : g ≠ t)
    (j : Nat) : m'.entry g j = m.entry g j := by
  unfold Mm.entry
  rw [h.frames g hk ht]

/-- The page can be mapped when there is a frame for it, and its page table is in reach. -/
theorem mapsInTable {l : List Nat} (hu : Uses m use)
    (ho : Owns m.kernelDirectory m.kernelDirectory (directoryIndex virt)) (hnext : m.freeFrames = f :: l)
    (htable : m.tableFor (directoryIndex virt) = some t) (hlt : t < directFrames) :
    ∃ m₁ m₂, m.allocPage = (f * pageSize, m₁) ∧ f * pageSize ≠ 0 ∧
      m₁.kernelDirectory = m.kernelDirectory ∧
      pagingMap m₁ m.kernelDirectory virt (f * pageSize) (pagePresent ||| pageWritable) = .ok m₂ ∧
      MappedIn m virt t m₂ := by
  obtain ⟨q, halloc, hne, hword, -, hrest⟩ := allocPage_cons hu hnext
  have hflags : pagePresent ||| pageWritable < pageSize := by decide
  have hpte : present (pageEntry (f * pageSize) (pagePresent ||| pageWritable)) = true := by
    rw [present_pageEntry hflags]
    rfl
  have hptelt := pageEntry_lt hword hflags
  obtain ⟨use₁, hu₁, hd₁⟩ : ∃ use₁, Uses { m with pmm := q } use₁ ∧
      use₁ m.kernelDirectory = .directory := by
    rcases hu.take (R := At 0 0) halloc with ⟨hzero, -⟩ | ⟨g, -, -, -, -, hlocal⟩
    · exact absurd hzero hne
    · exact ⟨_, hlocal.uses, hlocal.directory.mpr hu.kernel⟩
  unfold Mm.tableFor at htable
  cases hp : present (m.entry m.kernelDirectory (directoryIndex virt)) with
  | true =>
      rw [if_pos hp] at htable
      cases htable
      obtain ⟨m₂, hmap, hpmm, hentries⟩ := pagingMap_table (f * pageSize) (pagePresent ||| pageWritable)
        hu₁ hd₁ ho hp
      refine ⟨_, m₂, halloc, hne, rfl, hmap, ?_⟩
      have hframes : m₂.freeFrames = l := by
        rw [← hrest]
        unfold Mm.freeFrames
        rw [hpmm]
      rcases pagingMap_spec hmap with ⟨-, rfl⟩ | ⟨hnone, -⟩
      · refine ⟨rfl, ⟨(congrArg present (hentries _)).trans hp, congrArg (· / pageSize) (hentries _)⟩, ?_, ?_,
          fun g _ hgt => ?_⟩
        · rw [Mm.record_entry, Mm.setEntry_entry _ _ _ _ _ hptelt, if_pos ⟨rfl, rfl⟩]
          exact hpte
        · unfold Mm.pagesFor
          rw [hp, if_pos rfl, hnext, hframes]
          rfl
        · exact Function.update_of_ne hgt _ _
      · exact absurd (hnone.symm.trans hp) Bool.false_ne_true
  | false =>
      rw [if_neg (by rw [hp]; decide), hnext] at htable
      cases l with
      | nil => cases htable
      | cons t' l =>
          obtain rfl : t' = t := Option.some.inj htable
          obtain ⟨m₂, hmap, hframes, hentries⟩ := pagingMap_install (f * pageSize)
            (pagePresent ||| pageWritable) hu₁ hd₁ hp hrest hlt
          refine ⟨_, m₂, halloc, hne, rfl, hmap, ?_⟩
          obtain ⟨q', halloc', hne', hword', -, -⟩ := allocPage_cons hu₁ hrest
          obtain ⟨hentrylt, hentry, hentryt⟩ := tableEntry_spec (pagePresent ||| pageWritable) hlt
          have hkt : m.kernelDirectory ≠ t' := by
            rintro rfl
            have hfree := mem_freeFrames hu₁ (hrest ▸ List.mem_cons_self ..)
            rw [hd₁] at hfree
            cases hfree
          rcases pagingMap_spec hmap with ⟨hsome, -⟩ | ⟨-, hnull | ⟨phys, m₃, t, hphys, -, hdirect, rfl⟩⟩
          · exact absurd (hp.symm.trans hsome) Bool.false_ne_true
          · rw [halloc'] at hnull
            exact absurd (congrArg Prod.fst hnull) hne'
          · rw [halloc'] at hphys
            cases hphys
            obtain ⟨-, rfl⟩ := (direct_eq_ok hword').mp hdirect
            rw [Nat.mul_div_cancel _ (by decide)] at hframes hentries ⊢
            refine ⟨rfl, ?_, ?_, ?_, fun g hgk hgt => ?_⟩
            · rw [Mm.record_entry, Mm.setEntry_entry_of_ne _ hkt, Mm.setEntry_entry _ _ _ _ _ hentrylt,
                if_pos ⟨rfl, rfl⟩]
              exact ⟨hentry, hentryt⟩
            · rw [Mm.record_entry, Mm.setEntry_entry _ _ _ _ _ hptelt, if_pos ⟨rfl, rfl⟩]
              exact hpte
            · unfold Mm.pagesFor
              rw [hp, if_neg (by decide), hnext, hframes]
              rfl
            · show (Mm.setEntry _ _ _ _).frames g = m.frames g
              rw [Mm.setEntry_frames_of_ne _ hgt, Mm.setEntry_frames_of_ne _ hgk, Mm.zeroFrame_frames_of_ne _ hgt]

section Loop

variable {directory : Nat}

/-- The next page is mapped. -/
theorem PartStack.next {l : List Nat} (h : PartStack slot m₀ use₀ i m use) (hu₀ : Uses m₀ use₀)
    (hv : Vacant m₀ use₀ slot) (hi : i < kernelStackPages) (hnext : m.freeFrames = f :: l)
    (htable : m.tableFor (stackEntry slot) = some t) (hlt : t < directFrames) :
    ∃ m₁ m₂ use₂, m.allocPage = (f * pageSize, m₁) ∧ f * pageSize ≠ 0 ∧
      pagingMap m₁ m₁.kernelDirectory (stackSlot slot + i * pageSize) (f * pageSize)
        (pagePresent ||| pageWritable) = .ok m₂ ∧
      pagingValidateMapping m₂ m₂.kernelDirectory (stackSlot slot + i * pageSize) = .ok true ∧
      PartStack slot m₀ use₀ (i + 1) m₂ use₂ ∧ MappedIn m (stackSlot slot + i * pageSize) t m₂ := by
  have hk := h.here.kernelDirectory
  have hindex := stackEntry_page slot hi
  rw [← hindex] at htable
  obtain ⟨m₁, m₂, halloc, hne, hk₁, hmap, hin⟩ := mapsInTable h.here.uses
    (hk ▸ owns_slot hv.lt hi _) hnext htable hlt
  obtain ⟨hpresent, ht⟩ := hin.entry
  have hvalid : pagingValidateMapping m₂ m₂.kernelDirectory (stackSlot slot + i * pageSize) = .ok true := by
    rw [hin.kernelDirectory, validate_present hpresent (ht.symm ▸ hlt), ht, hin.page]
  rw [← hk₁] at hmap
  obtain ⟨use₂, h₂⟩ := h.map hu₀ hv hi halloc hne hmap (pagingValidateMapping_spec hvalid).symm
  exact ⟨m₁, m₂, use₂, halloc, hne, hmap, hvalid, h₂, hin⟩

/-- What the process sees of a page that has just been mapped. -/
theorem MappedIn.validate {use₂ : Nat → Use} (h : MappedIn m virt t m₂) (hu₂ : Uses m₂ use₂)
    (ho : Owns m.kernelDirectory m.kernelDirectory (directoryIndex virt))
    (hd : use₂ directory = .directory) (hk : directory ≠ m.kernelDirectory)
    (hhigh : kernelPdeStart ≤ directoryIndex virt) :
    (∀ i, m₂.entry directory i = m.entry directory i) ∧
      pagingValidateMapping m₂ directory virt =
        .ok (present (m.entry directory (directoryIndex virt)) &&
          present (m₂.entry (m.entry directory (directoryIndex virt) / pageSize) (tableIndex virt))) := by
  have hentries : ∀ i, m₂.entry directory i = m.entry directory i := by
    intro i
    have hne : directory ≠ t := by
      rintro rfl
      obtain ⟨hpresent, ht⟩ := h.entry
      have huse := hu₂.table _ _ (h.kernelDirectory ▸ hu₂.kernel) (h.kernelDirectory ▸ ho) hpresent
      rw [ht, hd] at huse
      cases huse
    exact h.entry_eq hk hne i
  refine ⟨hentries, ?_⟩
  cases hp : present (m.entry directory (directoryIndex virt)) with
  | false =>
      apply validate_absent
      rw [hentries]
      exact hp
  | true =>
      rw [← hentries] at hp ⊢
      apply validate_present hp
      exact hu₂.copied _ _ hd hhigh (Nat.lt_trans (owns_lt ho) (by decide)) hp

end Loop

/-! ## `thread_create` -/

/-- No entry of the process for the stacks leads to the kernel's directory. -/
def EntriesApart (m : Mm) (directory : Nat) : Prop :=
  ∀ i, StackTable i → present (m.entry directory i) = true →
    m.entry directory i / pageSize ≠ m.kernelDirectory

theorem stackTable_kernel (hi : StackTable i) : kernelPdeStart ≤ i := by
  unfold StackTable at hi
  simp only [kernelStacksStart, kernelStacksEnd, pageSize, kernelPdeStart] at *
  omega

theorem KeepsShared.entriesApart (h : KeepsShared m use m') (hd : use d = .directory)
    (hk : d ≠ m.kernelDirectory) (hs : EntriesApart m d) : EntriesApart m' d := by
  intro i hi hp
  have hentry : m'.entry d i = m.entry d i := by
    apply h.shared d i hd
    rw [owns_of_ne hk]
    exact Nat.not_lt.mpr (stackTable_kernel hi)
  rw [hentry] at hp ⊢
  rw [h.kernelDirectory]
  exact hs i hi hp

/-- No process has an entry for the stacks that leads to the kernel's directory. -/
def ProcessesApart (k : Kernel) : Prop := ∀ p ∈ k.pids, EntriesApart k.mm (k.processes p).pageDirectory

section Run

variable {s s' : KernelState} {c : MemoryCall} {calls : List MemoryCall} {t : ThreadId}

theorem ProcessesApart.keep (h : ProcessesApart k) (hinv : KernelInv k use)
    (hshared : KeepsShared k.mm use m') : ProcessesApart { k with mm := m' } := by
  intro p hp
  obtain ⟨hd, hk⟩ := hinv.processes.directory p hp
  exact hshared.entriesApart hd hk (h p hp)

theorem ProcessesApart.congr (h : ProcessesApart k) (hmm : k'.mm = k.mm) (hpids : k'.pids = k.pids)
    (hdir : ∀ p, (k'.processes p).pageDirectory = (k.processes p).pageDirectory) : ProcessesApart k' := by
  intro p hp
  rw [hmm, hdir]
  exact h p (hpids ▸ hp)

/-- `paging_create_directory` writes to the new directory only. -/
theorem createDirectory_shared {found : Option Nat} (hu : Uses m use)
    (h : pagingCreateDirectory m = .ok (found, m')) : KeepsShared m use m' := by
  unfold pagingCreateDirectory at h
  rcases halloc : m.allocPage with ⟨phys, m₁⟩
  rw [halloc] at h
  dsimp only at h
  have hframes := (allocPage_addressed halloc).1
  have hkernel := (allocPage_addressed halloc).2.1
  by_cases hphys : phys = 0
  · rw [if_pos hphys] at h
    cases pure_eq_ok.mp h
    exact (KeepsShared.refl m use).record hframes hkernel
  rw [if_neg hphys] at h
  obtain ⟨d, hd, h⟩ := bind_eq_ok.mp h
  cases pure_eq_ok.mp h
  obtain ⟨q, rfl, ⟨hzero, -⟩ | ⟨f, hfree, rfl, -, hword, -⟩⟩ := hu.allocPage halloc
  · exact absurd hzero hphys
  obtain ⟨-, rfl⟩ := (direct_eq_ok hword).mp hd
  rw [Nat.mul_div_cancel _ (by decide)]
  have hother : ∀ g, use g ≠ .free → (pagingCopyKernelMappings (Mm.zeroFrame { m with pmm := q } f) f).frames g
      = m.frames g := by
    intro g hg
    have hne : g ≠ f := fun heq => hg (heq ▸ hfree)
    exact (Function.update_of_ne hne _ _).trans (Mm.zeroFrame_frames_of_ne _ hne)
  refine ⟨fun g hg => hother g (by rw [hg]; simp), fun g i hg _ => ?_, rfl⟩
  unfold Mm.entry
  rw [hother g (by rw [hg]; simp)]

theorem Local.userShared {directory : Nat} (h : Local (UserPages directory) m use m' use')
    (hk : directory ≠ m.kernelDirectory) : KeepsShared m use m' := by
  apply h.keepsShared
  rintro d v ⟨rfl, hv⟩
  rw [owns_of_ne hk]
  exact hv

theorem ProcessesApart.processCreate {found : Option ProcessId} (h : ProcessesApart k)
    (hinv : KernelInv k use) (hm : Neox.processCreate k = .ok (found, k')) : ProcessesApart k' := by
  unfold Neox.processCreate at hm
  obtain ⟨⟨block, m₁⟩, hmalloc, hm⟩ := bind_eq_ok.mp hm
  obtain ⟨use₁, hinv₁, -⟩ := hinv.kmalloc hmalloc
  have h₁ := h.keep hinv
    (hinv.memory.ready.uses.kmalloc_shared hinv.heapEnd_lt hinv₁.memory.ready.region hmalloc)
  dsimp only at hm
  by_cases hblock : block = 0
  · rw [if_pos hblock] at hm
    cases pure_eq_ok.mp hm
    exact h₁
  rw [if_neg hblock] at hm
  obtain ⟨⟨created, m₂⟩, hcreate, hm⟩ := bind_eq_ok.mp hm
  have hu₁ := hinv₁.memory.ready.uses
  have h₂ := h₁.keep hinv₁ (createDirectory_shared hu₁ hcreate)
  cases created with
  | none =>
      dsimp only at hm
      obtain ⟨m₃, hfree, hm⟩ := bind_eq_ok.mp hm
      cases pure_eq_ok.mp hm
      obtain ⟨heap, rfl⟩ := kfree_frame hfree
      exact h₂
  | some d =>
      cases pure_eq_ok.mp hm
      obtain ⟨hdfree, hu₂, hkd, -, -, -, hcopied⟩ := hu₁.createDirectory hcreate
      intro p hp
      rcases List.mem_append.mp hp with hp | hp
      · have hold : Function.update k.processes k.nextPid ⟨block, d, [], []⟩ p = k.processes p :=
          Function.update_of_ne (Nat.ne_of_lt (hinv.processes.lt p hp)) _ _
        show EntriesApart m₂ (Function.update k.processes k.nextPid ⟨block, d, [], []⟩ p).pageDirectory
        rw [hold]
        exact h₂ p hp
      · -- The new directory has copied the kernel's entries.
        rw [List.mem_singleton.mp hp]
        show EntriesApart m₂ (Function.update k.processes k.nextPid ⟨block, d, [], []⟩
          k.nextPid).pageDirectory
        rw [Function.update_self]
        intro i hi hpresent heq
        rw [hcopied i (stackTable_kernel hi)] at hpresent heq
        have htable := hu₂.table _ _ hu₂.kernel (owns_stackTable hi _) (hkd.symm ▸ hpresent)
        rw [hkd] at htable heq
        rw [heq, ← hkd, hu₂.kernel] at htable
        cases htable

theorem ProcessesApart.processDestroy (h : ProcessesApart k) (hinv : KernelInv k use) (hp : p ∈ k.pids)
    (hm : Neox.processDestroy k p = .ok k') : ProcessesApart k' := by
  unfold Neox.processDestroy at hm
  by_cases hthreads : (k.processes p).threads ≠ []
  · rw [if_pos hthreads] at hm
    cases hm
  rw [if_neg hthreads] at hm
  by_cases hstacks : (k.processes p).userStacks ≠ []
  · rw [if_pos hstacks] at hm
    cases hm
  rw [if_neg hstacks] at hm
  have hu := hinv.memory.ready.uses
  obtain ⟨hd, hk⟩ := hinv.processes.directory p hp
  have hne : (k.processes p).pageDirectory ≠ 0 := by
    intro hzero
    rw [hzero, hu.zero] at hd
    cases hd
  rw [if_pos hne] at hm
  obtain ⟨m₁, hdestroy, hm⟩ := bind_eq_ok.mp hm
  obtain ⟨m₂, hfree, hm⟩ := bind_eq_ok.mp hm
  cases pure_eq_ok.mp hm
  obtain ⟨m', hm', hdestroyed⟩ := hu.destroyDirectory hd hk
  rw [hdestroy] at hm'
  cases hm'
  obtain ⟨heap, rfl⟩ := kfree_frame hfree
  intro q hq
  obtain ⟨hqp, hq⟩ := hinv.processes.nodup.mem_erase_iff.mp hq
  obtain ⟨hqd, -⟩ := hinv.processes.directory q hq
  have hframes : m₁.frames (k.processes q).pageDirectory = k.mm.frames (k.processes q).pageDirectory := by
    apply hdestroyed.frames
    · exact fun heq => hqp (hinv.processes.distinct q hq p hp heq)
    · intro i htable
      rw [hqd] at htable
      cases htable
  have hentry : ∀ i, m₁.entry (k.processes q).pageDirectory i = k.mm.entry (k.processes q).pageDirectory i := by
    intro i
    unfold Mm.entry
    rw [hframes]
  intro i hi hpresent
  change present (m₁.entry (k.processes q).pageDirectory i) = true at hpresent
  show m₁.entry (k.processes q).pageDirectory i / pageSize ≠ m₁.kernelDirectory
  rw [hentry] at hpresent ⊢
  rw [hdestroyed.kernelDirectory]
  exact h q hq i hi hpresent

theorem ProcessesApart.threadCreate {found : Option ThreadId} (h : ProcessesApart k)
    (hinv : KernelInv k use) (hm : Neox.threadCreate k p = .ok (found, k')) : ProcessesApart k' := by
  obtain ⟨a, hb⟩ := hinv.memory.blocks
  obtain ⟨use', ⟨-, hnot⟩ | ⟨-, slot, block, hc⟩⟩ :=
    threadCreate_spec hinv.memory.ready hb hinv.memory.freeVacant hm
  · rw [hnot.kernel]
    exact h.keep hinv hnot.shared
  · rw [hc.kernel]
    exact (h.keep hinv hc.shared).congr rfl rfl fun _ => rfl

theorem ProcessesApart.threadDestroy (h : ProcessesApart k) (hinv : KernelInv k use) (ht : t ∈ k.tids)
    (hm : Neox.threadDestroy k t = .ok k') : ProcessesApart k' := by
  obtain ⟨a, hb⟩ := hinv.memory.blocks
  obtain ⟨slot, hstack, hne, hlt⟩ := hinv.threadSlot ht
  obtain ⟨huser, hdesc, hblock⟩ := hinv.threads.plain t ht
  obtain ⟨use', hr⟩ := threadDestroy_spec hinv.memory.ready hb hstack hlt hne huser hdesc hblock hm
  have hshared := hr.here.keepsShared fun d v hv => slotPages_owns hlt hv
  rw [hr.kernel]
  exact (h.keep hinv hshared).congr rfl rfl fun p => (setProcess_records p).1

/-- One case for each call. -/
theorem ProcessesApart.step (h : ProcessesApart s.kernel) (hinv : KernelInv s.kernel use)
    (hc : c.valid s = true) (hs : s.step c = some s') : ProcessesApart s'.kernel := by
  have hu := hinv.memory.ready.uses
  rw [step_eq_some] at hs
  cases c with
  | kmalloc size =>
      obtain ⟨⟨ptr, mm⟩, hm, hs⟩ := bind_eq_ok.mp hs
      cases pure_eq_ok.mp hs
      obtain ⟨use', hinv', -⟩ := hinv.kmalloc hm
      exact h.keep hinv (hu.kmalloc_shared hinv.heapEnd_lt hinv'.memory.ready.region hm)
  | kfree ptr =>
      obtain ⟨mm, hm, hs⟩ := bind_eq_ok.mp hs
      cases pure_eq_ok.mp hs
      obtain ⟨heap, rfl⟩ := kfree_frame hm
      exact h
  | processCreate =>
      obtain ⟨⟨found, k'⟩, hm, hs⟩ := bind_eq_ok.mp hs
      cases pure_eq_ok.mp hs
      exact h.processCreate hinv hm
  | processDestroy p =>
      obtain ⟨k', hm, hs⟩ := bind_eq_ok.mp hs
      cases pure_eq_ok.mp hs
      exact h.processDestroy hinv (of_decide_eq_true hc) hm
  | userMap p virt flags =>
      obtain ⟨mm, hm, hs⟩ := bind_eq_ok.mp hs
      cases pure_eq_ok.mp hs
      simp only [MemoryCall.valid, Bool.and_eq_true, decide_eq_true_eq] at hc
      obtain ⟨⟨⟨hp, hvirt⟩, hflags⟩, hpres⟩ := hc
      obtain ⟨hd, hk⟩ := hinv.processes.directory p hp
      obtain ⟨use', hlocal, -⟩ := mapUserPage_local hu hd hk hvirt hflags hpres hm
      exact h.keep hinv (hlocal.userShared hk)
  | userUnmap p virt =>
      obtain ⟨mm, hm, hs⟩ := bind_eq_ok.mp hs
      cases pure_eq_ok.mp hs
      simp only [MemoryCall.valid, Bool.and_eq_true, decide_eq_true_eq] at hc
      obtain ⟨hd, hk⟩ := hinv.processes.directory p hc.1
      obtain ⟨use', hlocal, -⟩ := releaseUserPage_local hu hd hk hc.2 hm
      exact h.keep hinv (hlocal.userShared hk)
  | threadCreate p =>
      obtain ⟨⟨found, k'⟩, hm, hs⟩ := bind_eq_ok.mp hs
      cases pure_eq_ok.mp hs
      exact h.threadCreate hinv hm
  | threadAdd t =>
      cases pure_eq_ok.mp hs
      exact h.congr rfl rfl fun p => (setProcess_records p).1
  | threadExit t =>
      cases pure_eq_ok.mp hs
      exact h
  | threadDestroy t =>
      obtain ⟨k', hm, hs⟩ := bind_eq_ok.mp hs
      cases pure_eq_ok.mp hs
      exact h.threadDestroy hinv (of_decide_eq_true hc) hm

theorem KernelRun.apart (hrun : KernelRun s calls s') (h : ∃ use, KernelInv s.kernel use)
    (hs : ProcessesApart s.kernel) : ∃ use, KernelInv s'.kernel use ∧ ProcessesApart s'.kernel := by
  obtain ⟨use, hinv⟩ := h
  apply hrun.invariant (I := fun s => ∃ use, KernelInv s.kernel use ∧ ProcessesApart s.kernel)
    ⟨use, hinv, hs⟩
  rintro s₁ c s₂ ⟨use₁, h₁, hs₁⟩ hc hstep
  obtain ⟨use₂, h₂⟩ := h₁.step hc hstep
  exact ⟨use₂, h₂, hs₁.step h₁ hc hstep⟩

end Run

end Neox
