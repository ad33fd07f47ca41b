import Neox.Mm.Ledger
import Neox.Mm.Overlay

/-!
# What a process directory gives back

A process directory is created, pages of its user half are mapped and unmapped in any order, and it is
destroyed. `paging_unmap` returns a page table with its last page, so that the page tables of the
directory are those with a page in them, and `paging_destroy_directory` finds everything that the
directory still has.
-/

namespace Neox

open Pmm Checked

/-! ## The loops of `paging_destroy_directory` -/

/-- What the first `n` entries of a page table refer to. -/
def Mm.mappedFrames (m : Mm) (table n : Nat) : List Nat :=
  ((List.range n).filter fun j => present (m.entry table j)).map fun j =>
    m.entry table j / pageSize

/-- The frames of the first `n` entries of a directory: for each of its page tables what that maps,
and the table itself. -/
def Mm.userFrames (m : Mm) (directory n : Nat) : List Nat :=
  (List.range n).flatMap fun i =>
    if present (m.entry directory i) then
      m.mappedFrames (m.entry directory i / pageSize) pageDirectoryEntries ++
        [m.entry directory i / pageSize]
    else []

variable {d f v i j t virt phys flags : Nat} {m m' m₀ m₁ m₂ : Mm} {use use' use₀ : Nat → Use}
  {held held' : List Nat}

theorem Mm.mappedFrames_succ (m : Mm) (t n : Nat) :
    m.mappedFrames t (n + 1) = m.mappedFrames t n ++
      if present (m.entry t n) then [m.entry t n / pageSize] else [] := by
  unfold mappedFrames
  rw [List.range_succ, List.filter_append, List.map_append]
  by_cases hp : present (m.entry t n) = true
  · rw [List.filter_singleton, hp]
    rfl
  · rw [Bool.not_eq_true] at hp
    rw [List.filter_singleton, hp]
    rfl

theorem Mm.userFrames_succ (m : Mm) (d n : Nat) :
    m.userFrames d (n + 1) = m.userFrames d n ++
      if present (m.entry d n) then
        m.mappedFrames (m.entry d n / pageSize) pageDirectoryEntries ++ [m.entry d n / pageSize]
      else [] := by
  unfold userFrames
  rw [List.range_succ, List.flatMap_append, List.flatMap_singleton]

theorem Mm.mappedFrames_congr (h : m'.frames t = m.frames t) (n : Nat) :
    m'.mappedFrames t n = m.mappedFrames t n := by
  unfold mappedFrames Mm.entry
  rw [h]

/-- The inner loop returns what the table maps. -/
theorem destroyTable_pmm (m : Mm) (t n : Nat) {m₁ : Mm}
    (hloop : (List.range n).foldl (fun m i =>
      let pte := m.entry t i
      if present pte then (m.freePage (frameMask pte)).setEntry t i 0 else m) m = m₁) :
    m₁.pmm = freeAll m.pmm (m.mappedFrames t n) ∧ m₁.kernelDirectory = m.kernelDirectory := by
  induction n generalizing m₁ with
  | zero =>
      cases hloop
      exact ⟨rfl, rfl⟩
  | succ n ih =>
      simp only [List.range_succ, List.foldl_append, List.foldl_cons, List.foldl_nil] at hloop
      generalize hrest : (List.range n).foldl (fun m i =>
        let pte := m.entry t i
        if present pte then (m.freePage (frameMask pte)).setEntry t i 0 else m) m = m₂ at hloop
      obtain ⟨hpmm, hkernel⟩ := ih hrest
      have hentry := (destroyTable_loop m t n hrest).2.1 n
      rw [if_neg (Nat.lt_irrefl n)] at hentry
      rw [hentry] at hloop
      rw [Mm.mappedFrames_succ, freeAll_append, ← hpmm]
      by_cases hp : present (m.entry t n) = true
      · rw [if_pos hp] at hloop ⊢
        subst hloop
        exact ⟨pmmFreePage_eq frameMask_div, hkernel⟩
      · rw [if_neg hp] at hloop ⊢
        subst hloop
        exact ⟨rfl, hkernel⟩

theorem pagingDestroyTable_pmm (m : Mm) (t : Nat) :
    (pagingDestroyTable m t).pmm = freeAll m.pmm (m.mappedFrames t pageDirectoryEntries) ∧
      (pagingDestroyTable m t).kernelDirectory = m.kernelDirectory :=
  destroyTable_pmm m t pageDirectoryEntries (pagingDestroyTable_eq m t)

/-- What the outer loop has done after `n` entries: the frames of these have been returned, and no
other memory has changed. -/
structure Dismantled (m m' : Mm) (use : Nat → Use) (d n : Nat) : Prop where
  pmm : m'.pmm = freeAll m.pmm (m.userFrames d n)
  later : ∀ i, n ≤ i → m'.entry d i = m.entry d i
  frames : ∀ u, u ≠ d → (∀ i < n, use u ≠ .table d i) → m'.frames u = m.frames u
  kernelDirectory : m'.kernelDirectory = m.kernelDirectory

theorem Dismantled.step {n : Nat} (h : Dismantled m m' use d n) (hu : Uses m use)
    (hd : use d = .directory) (hk : d ≠ m.kernelDirectory) (hn : n < kernelPdeStart) :
    Post (fun _ => False) (fun m' => Dismantled m m' use d (n + 1)) (pagingDestroyEntry d m' n) := by
  have hentry := h.later n (Nat.le_refl n)
  unfold pagingDestroyEntry
  dsimp only
  rw [hentry]
  by_cases hp : present (m.entry d n) = true
  · have ht := hu.table d n hd ((owns_of_ne hk).mpr hn) hp
    have hlt := (hu.table_back _ _ _ ht).1
    have hdirect : direct (frameMask (m.entry d n)) = .ok (m.entry d n / pageSize) := by
      rw [direct_eq_ok (frameMask_lt (m.entry_lt d n)), frameMask_div]
      refine ⟨?_, rfl⟩
      simp only [frameMask, pageSize, bootstrapMapSize, directFrames] at *
      omega
    generalize htable : m.entry d n / pageSize = t at ht hdirect
    have htd : t ≠ d := by
      rintro rfl
      rw [hd] at ht
      cases ht
    -- The table is the page table of entry `n` alone, so that it has not been touched yet.
    have hsame : m'.frames t = m.frames t := by
      apply h.frames t htd
      intro i hi heq
      rw [ht] at heq
      injection heq with _ hin
      omega
    have hpurged := pagingDestroyTable_spec m' t
    obtain ⟨hpmm, hkernel⟩ := pagingDestroyTable_pmm m' t
    have hnext : Dismantled m (((pagingDestroyTable m' t).freePage
        (frameMask (m.entry d n))).setEntry d n 0) use d (n + 1) := by
      refine ⟨?_, fun i hi => ?_, fun u hu hne => ?_, ?_⟩
      · rw [Mm.setEntry_pmm, Mm.freePage_pmm, hpmm, Mm.mappedFrames_congr hsame, Mm.userFrames_succ, if_pos hp,
          freeAll_append, freeAll_append, ← h.pmm, htable]
        exact pmmFreePage_eq (frameMask_div.trans htable)
      · rw [Mm.setEntry_entry _ _ _ _ _ (by decide), if_neg (by omega), Mm.freePage_entry]
        unfold Mm.entry
        rw [hpurged.frames d htd.symm]
        exact h.later i (by omega)
      · rw [Mm.setEntry_frames_of_ne _ hu, Mm.freePage_frames, hpurged.frames u]
        · exact h.frames u hu fun i hi => hne i (by omega)
        · rintro rfl
          exact hne n (Nat.lt_succ_self n) ht
      · rw [Mm.setEntry_kernelDirectory, Mm.freePage_kernelDirectory, hkernel]
        exact h.kernelDirectory
    rw [hp, hdirect]
    exact .pure hnext
  · rw [Bool.not_eq_true] at hp
    have hnext : Dismantled m m' use d (n + 1) := by
      refine ⟨?_, fun i hi => h.later i (by omega), fun u hu hne =>
        h.frames u hu fun i hi => hne i (by omega), h.kernelDirectory⟩
      rw [Mm.userFrames_succ, hp, if_neg (by decide), List.append_nil]
      exact h.pmm
    rw [hp]
    exact .pure hnext

/-! ## What the directory has -/

theorem Uses.mem_mappedFrames (hu : Uses m use) (ht : use t = .table d i) :
    f ∈ m.mappedFrames t pageDirectoryEntries ↔
      ∃ j < pageDirectoryEntries, use f = .page d (i * 1024 + j) := by
  unfold Mm.mappedFrames
  simp only [List.mem_map, List.mem_filter, List.mem_range]
  constructor
  · intro h
    obtain ⟨j, ⟨hj, hp⟩, rfl⟩ := h
    exact ⟨j, hj, hu.page t d i ht j hj hp⟩
  · intro h
    obtain ⟨j, hj, hpage⟩ := h
    obtain ⟨hp, hf⟩ := (hu.page_iff ht hj).mp hpage
    exact ⟨j, ⟨hj, hp⟩, hf.symm⟩

/-- Two entries of a page table refer to different frames. -/
theorem Uses.nodup_mappedFrames (hu : Uses m use) (ht : use t = .table d i) :
    (m.mappedFrames t pageDirectoryEntries).Nodup := by
  unfold Mm.mappedFrames
  apply List.Nodup.map_on
  · intro j hj j' hj' heq
    obtain ⟨hlt, hp⟩ := List.mem_filter.mp hj
    obtain ⟨hlt', hp'⟩ := List.mem_filter.mp hj'
    have hpage := hu.page t d i ht j (List.mem_range.mp hlt) hp
    have hpage' := hu.page t d i ht j' (List.mem_range.mp hlt') hp'
    rw [heq, hpage'] at hpage
    injection hpage with _ hsum
    omega
  · exact List.nodup_range.filter _

/-- The part of `userFrames` that entry `i` contributes. -/
theorem Uses.mem_entryFrames (hu : Uses m use) (hd : use d = .directory)
    (ho : Owns m.kernelDirectory d i) :
    (f ∈ if present (m.entry d i) then
        m.mappedFrames (m.entry d i / pageSize) pageDirectoryEntries ++ [m.entry d i / pageSize]
      else []) ↔ use f = .table d i ∨ ∃ v, use f = .page d v ∧ v / 1024 = i := by
  constructor
  · intro h
    by_cases hp : present (m.entry d i) = true
    · rw [if_pos hp] at h
      have ht := hu.table d i hd ho hp
      rcases List.mem_append.mp h with h | h
      · obtain ⟨j, hj, hpage⟩ := (hu.mem_mappedFrames ht).mp h
        exact .inr ⟨_, hpage, page_div hj⟩
      · rw [List.mem_singleton.mp h]
        exact .inl ht
    · rw [if_neg hp] at h
      exact absurd h List.not_mem_nil
  · intro h
    have htable : ∃ t, use t = .table d i := by
      rcases h with h | ⟨v, hv, rfl⟩
      · exact ⟨f, h⟩
      · obtain ⟨t, ht, -⟩ := hu.page_back f d v hv
        exact ⟨t, ht⟩
    obtain ⟨t, ht⟩ := htable
    obtain ⟨-, -, -, hp, hentry⟩ := hu.table_back t d i ht
    rw [if_pos hp, hentry, List.mem_append, List.mem_singleton]
    rcases h with h | ⟨v, hv, hi⟩
    · exact .inr (hu.table_unique h ht)
    · refine .inl ((hu.mem_mappedFrames ht).mpr ⟨v % 1024, Nat.mod_lt _ (by decide), ?_⟩)
      rw [hv, ← hi, Nat.div_add_mod']

theorem Uses.mem_userFrames (hu : Uses m use) (hd : use d = .directory)
    (hk : d ≠ m.kernelDirectory) :
    f ∈ m.userFrames d kernelPdeStart ↔ (∃ i, use f = .table d i) ∨ ∃ v, use f = .page d v := by
  unfold Mm.userFrames
  rw [List.mem_flatMap]
  constructor
  · intro h
    obtain ⟨i, hi, hf⟩ := h
    rcases (hu.mem_entryFrames hd ((owns_of_ne hk).mpr (List.mem_range.mp hi))).mp hf with ht | hv
    · exact .inl ⟨i, ht⟩
    · obtain ⟨v, hv, -⟩ := hv
      exact .inr ⟨v, hv⟩
  · intro h
    have hentry : ∃ i, Owns m.kernelDirectory d i ∧
        (use f = .table d i ∨ ∃ v, use f = .page d v ∧ v / 1024 = i) := by
      rcases h with ⟨i, ht⟩ | ⟨v, hv⟩
      · obtain ⟨-, -, ho, -⟩ := hu.table_back f d i ht
        exact ⟨i, ho, .inl ht⟩
      · obtain ⟨t, ht, -⟩ := hu.page_back f d v hv
        obtain ⟨-, -, ho, -⟩ := hu.table_back t d _ ht
        exact ⟨_, ho, .inr ⟨v, hv, rfl⟩⟩
    obtain ⟨i, ho, hf⟩ := hentry
    exact ⟨i, List.mem_range.mpr ((owns_of_ne hk).mp ho), (hu.mem_entryFrames hd ho).mpr hf⟩

/-- No frame is met twice. -/
theorem Uses.nodup_userFrames (hu : Uses m use) (hd : use d = .directory)
    (hk : d ≠ m.kernelDirectory) : (m.userFrames d kernelPdeStart).Nodup := by
  have howns : ∀ i ∈ List.range kernelPdeStart, Owns m.kernelDirectory d i := fun i hi =>
    (owns_of_ne hk).mpr (List.mem_range.mp hi)
  unfold Mm.userFrames
  rw [List.nodup_flatMap]
  constructor
  · intro i hi
    split
    · next hp =>
      have ht := hu.table d i hd (howns i hi) hp
      rw [List.nodup_append]
      refine ⟨hu.nodup_mappedFrames ht, List.nodup_singleton _, fun f hf g hg heq => ?_⟩
      obtain ⟨j, -, hpage⟩ := (hu.mem_mappedFrames ht).mp hf
      rw [heq, List.mem_singleton.mp hg, ht] at hpage
      cases hpage
    · exact List.nodup_nil
  · -- What two entries contribute is used under different labels.
    refine List.nodup_range.pairwise_of_forall_ne fun i hi i' hi' hne f hf hf' => hne ?_
    rcases (hu.mem_entryFrames hd (howns i hi)).mp hf with h | ⟨v, h, hv⟩
    · rcases (hu.mem_entryFrames hd (howns i' hi')).mp hf' with h' | ⟨v', h', hv'⟩
      · rw [h] at h'
        injection h'
      · rw [h] at h'
        cases h'
    · rcases (hu.mem_entryFrames hd (howns i' hi')).mp hf' with h' | ⟨v', h', hv'⟩
      · rw [h] at h'
        cases h'
      · rw [h] at h'
        injection h' with _ hvv
        rw [← hv, ← hv', hvv]

/-- `paging_destroy_directory` returns what the directory has and the directory. -/
structure Destroyed (m : Mm) (use : Nat → Use) (d : Nat) (m' : Mm) : Prop where
  frees : FreesOnce m.pmm (m.userFrames d kernelPdeStart ++ [d]) m'.pmm
  frames : ∀ u, u ≠ d → (∀ i, use u ≠ .table d i) → m'.frames u = m.frames u
  kernelDirectory : m'.kernelDirectory = m.kernelDirectory

theorem Uses.destroyDirectory (hu : Uses m use) (hd : use d = .directory)
    (hk : d ≠ m.kernelDirectory) :
    ∃ m', pagingDestroyDirectory m d = .ok m' ∧ Destroyed m use d m' := by
  have hmem := fun f => hu.mem_userFrames (f := f) hd hk
  have hfrees : FreesOnce m.pmm (m.userFrames d kernelPdeStart ++ [d])
      (freeAll m.pmm (m.userFrames d kernelPdeStart ++ [d])) := by
    refine hu.freesOnce ?_ fun f hf => ?_
    · rw [List.nodup_append]
      refine ⟨hu.nodup_userFrames hd hk, List.nodup_singleton _, fun f hf g hg heq => ?_⟩
      rw [heq, List.mem_singleton.mp hg, hmem, hd] at hf
      rcases hf with ⟨i, h⟩ | ⟨v, h⟩
      · cases h
      · cases h
    · rcases List.mem_append.mp hf with hf | hf
      · rcases (hmem f).mp hf with ⟨i, h⟩ | ⟨v, h⟩
        · rw [h]
          exact ⟨by simp, by simp⟩
        · rw [h]
          exact ⟨by simp, by simp⟩
      · rw [List.mem_singleton.mp hf, hd]
        exact ⟨by simp, by simp⟩
  have hloop : Post (fun _ => False) (fun m' => Dismantled m m' use d kernelPdeStart)
      ((List.range kernelPdeStart).foldlM (pagingDestroyEntry d) m) := by
    apply Post.foldlM_range (I := fun n m' => Dismantled m m' use d n)
    · exact ⟨rfl, fun _ _ => rfl, fun _ _ _ => rfl, rfl⟩
    · intro n hn m' h
      exact h.step hu hd hk hn
  obtain ⟨m₁, hm₁, h⟩ := hloop.returns
  unfold pagingDestroyDirectory
  rw [hm₁]
  refine ⟨_, rfl, ?_, fun u hud hne => ?_, h.kernelDirectory⟩
  · have hpmm : (m₁.freePage (d * pageSize)).pmm =
        freeAll m.pmm (m.userFrames d kernelPdeStart ++ [d]) := by
      rw [Mm.freePage_pmm, h.pmm, freeAll_append]
      exact pmmFreePage_eq (Nat.mul_div_cancel _ (by decide))
    rw [hpmm]
    exact hfrees
  · rw [Mm.freePage_frames]
    exact h.frames u hud fun i _ => hne i

/-- The frame is one that directory `d` refers to. -/
def Use.isOf (d : Nat) : Use → Bool
  | .table d' _ | .page d' _ => d' == d
  | _ => false

/-- The uses without a directory and what it has. -/
def without (use : Nat → Use) (d : Nat) : Nat → Use :=
  fun f => if f = d ∨ (use f).isOf d = true then .free else use f

theorem isOf_iff {u : Use} : u.isOf d = true ↔ (∃ i, u = .table d i) ∨ ∃ v, u = .page d v := by
  cases u with
  | table d' i => simp [Use.isOf]
  | page d' v => simp [Use.isOf]
  | free | reserved | held | directory => simp [Use.isOf]

theorem without_iff {u : Use} (hu : u ≠ .free) :
    without use d f = u ↔ f ≠ d ∧ u.isOf d = false ∧ use f = u := by
  unfold without
  split
  · next h =>
    constructor
    · intro hf
      exact absurd hf.symm hu
    · intro hf
      obtain ⟨hne, hof, rfl⟩ := hf
      rcases h with h | h
      · exact absurd h hne
      · rw [h] at hof
        cases hof
  · next h =>
    rw [not_or, Bool.not_eq_true] at h
    constructor
    · intro hf
      subst hf
      exact ⟨h.1, h.2, rfl⟩
    · intro hf
      exact hf.2.2

/-- After the destruction the frames of the directory are free. -/
theorem Uses.destroyed (hu : Uses m use) (hd : use d = .directory) (hk : d ≠ m.kernelDirectory)
    (h : Destroyed m use d m') : Uses m' (without use d) := by
  have htotal : m'.pmm.totalPages = m.pmm.totalPages := by
    rw [h.frees.calls, freeAll_totalPages]
  -- What another directory has is where it was.
  have hframes : ∀ u, use u = .directory ∨ use u = .reserved ∨ (∃ d' i, d' ≠ d ∧ use u = .table d' i) →
      u ≠ d → m'.frames u = m.frames u := by
    intro u hused hne
    refine h.frames u hne fun i ht => ?_
    rcases hused with hu' | hu' | ⟨d', i', hne', hu'⟩
    · rw [hu'] at ht
      cases ht
    · rw [hu'] at ht
      cases ht
    · rw [hu'] at ht
      injection ht with hdd
      exact hne' hdd
  have hentry : ∀ d' i, use d' = .directory → d' ≠ d → m'.entry d' i = m.entry d' i := by
    intro d' i hd' hne
    unfold Mm.entry
    rw [hframes d' (.inl hd') hne]
  have htableEntry : ∀ t d' i, use t = .table d' i → d' ≠ d → ∀ j, m'.entry t j = m.entry t j := by
    intro t d' i ht hne j
    have htd : t ≠ d := by
      rintro rfl
      rw [hd] at ht
      cases ht
    unfold Mm.entry
    rw [hframes t (.inr (.inr ⟨d', i, hne, ht⟩)) htd]
  have hof : ∀ {d' : Nat}, d' ≠ d → ∀ i, (Use.table d' i).isOf d = false := by
    intro d' hne i
    simpa [Use.isOf] using hne
  have hofPage : ∀ {d' : Nat}, d' ≠ d → ∀ v, (Use.page d' v).isOf d = false := by
    intro d' hne v
    simpa [Use.isOf] using hne
  have hdir : ∀ d', without use d d' = .directory ↔ d' ≠ d ∧ use d' = .directory := by
    intro d'
    rw [without_iff (by simp)]
    exact ⟨fun hw => ⟨hw.1, hw.2.2⟩, fun hw => ⟨hw.1, rfl, hw.2⟩⟩
  have htable : ∀ t d' i, without use d t = .table d' i ↔ d' ≠ d ∧ use t = .table d' i := by
    intro t d' i
    rw [without_iff (by simp)]
    constructor
    · intro hw
      exact ⟨by simpa [Use.isOf] using hw.2.1, hw.2.2⟩
    · intro hw
      refine ⟨?_, hof hw.1 i, hw.2⟩
      rintro rfl
      rw [hd] at hw
      cases hw.2
  have hpage : ∀ f d' v, without use d f = .page d' v ↔ d' ≠ d ∧ use f = .page d' v := by
    intro f d' v
    rw [without_iff (by simp)]
    constructor
    · intro hw
      exact ⟨by simpa [Use.isOf] using hw.2.1, hw.2.2⟩
    · intro hw
      refine ⟨?_, hofPage hw.1 v, hw.2⟩
      rintro rfl
      rw [hd] at hw
      cases hw.2
  have hreserved : ∀ f, without use d f = .reserved ↔ use f = .reserved := by
    intro f
    rw [without_iff (by simp)]
    constructor
    · intro hw
      exact hw.2.2
    · intro hw
      refine ⟨?_, rfl, hw⟩
      rintro rfl
      rw [hd] at hw
      cases hw
  refine ⟨fun f => ?_, htotal ▸ hu.limit, fun f hf => ?_, (hreserved 0).mpr hu.zero, ?_,
    fun d' hd' => hu.window d' ((hdir d').mp hd').2, fun d' i hd' ho hp => ?_, fun t d' i ht => ?_,
    fun t d' i ht j hj hp => ?_, fun f d' v hf => ?_, fun d' i hd' hi hlt hp => ?_, fun i hi => ?_⟩
  · rw [h.frees.free, List.mem_append, List.mem_singleton, hu.mem_userFrames hd hk, ← hu.free_iff,
      ← isOf_iff]
    unfold without
    constructor
    · intro hf
      split at hf
      · next hcase => exact .inr hcase.symm
      · exact .inl hf
    · intro hf
      rcases hf with hf | hf
      · split
        · rfl
        · exact hf
      · rw [if_pos hf.symm]
  · rw [htotal]
    exact hu.managed f fun hr => hf ((hreserved f).mpr hr)
  · rw [h.kernelDirectory, hdir]
    exact ⟨fun heq => hk heq.symm, hu.kernel⟩
  · obtain ⟨hne, hdirectory⟩ := (hdir d').mp hd'
    rw [h.kernelDirectory] at ho
    rw [hentry d' i hdirectory hne] at hp ⊢
    exact (htable _ _ _).mpr ⟨hne, hu.table d' i hdirectory ho hp⟩
  · obtain ⟨hne, ht⟩ := (htable _ _ _).mp ht
    obtain ⟨h1, h2, h3, h4⟩ := hu.table_back t d' i ht
    rw [h.kernelDirectory, hentry d' i h2 hne]
    exact ⟨h1, (hdir d').mpr ⟨hne, h2⟩, h3, h4⟩
  · obtain ⟨hne, ht⟩ := (htable _ _ _).mp ht
    rw [htableEntry t d' i ht hne] at hp ⊢
    exact (hpage _ _ _).mpr ⟨hne, hu.page t d' i ht j hj hp⟩
  · obtain ⟨hne, hf⟩ := (hpage _ _ _).mp hf
    obtain ⟨t, ht, hp⟩ := hu.page_back f d' v hf
    rw [← htableEntry t d' _ ht hne] at hp
    exact ⟨t, (htable _ _ _).mpr ⟨hne, ht⟩, hp⟩
  · obtain ⟨hne, hdirectory⟩ := (hdir d').mp hd'
    rw [hentry d' i hdirectory hne] at hp ⊢
    exact hu.copied d' i hdirectory hi hlt hp
  · obtain ⟨b, h1, h2, h3, h4⟩ := hu.boot i hi
    have hbd : b ≠ d := by
      rintro rfl
      rw [hd] at h2
      cases h2
    refine ⟨b, h1, (hreserved b).mpr h2, ?_, fun j hj => ?_⟩
    · rw [h.kernelDirectory, hentry _ _ hu.kernel (Ne.symm hk)]
      exact h3
    · unfold Mm.entry at *
      rw [hframes b (.inr (.inl h2)) hbd]
      exact h4 j hj

/-! ## What creating and destroying a directory leaves alone -/

theorem pagingCreateDirectory_virtual {created : Option Nat}
    (h : pagingCreateDirectory m = .ok (created, m')) :
    SameVirtual m m' ∧ m'.kernelDirectory = m.kernelDirectory := by
  unfold pagingCreateDirectory at h
  rcases halloc : m.allocPage with ⟨phys, m₁⟩
  rw [halloc] at h
  have hsame := allocPage_virtual halloc
  have hkernel := (allocPage_addressed halloc).2.1
  dsimp only at h
  split at h
  · cases pure_eq_ok.mp h
    exact ⟨hsame, hkernel⟩
  · obtain ⟨t, -, h⟩ := bind_eq_ok.mp h
    cases pure_eq_ok.mp h
    exact ⟨⟨hsame.heap, hsame.heapEnd, hsame.stackSlots⟩, hkernel⟩

theorem setEntry_virtual (m : Mm) (t i e : Nat) : SameVirtual m (m.setEntry t i e) := ⟨rfl, rfl, rfl⟩

theorem pagingDestroyTable_virtual (m : Mm) (t : Nat) : SameVirtual m (pagingDestroyTable m t) := by
  unfold pagingDestroyTable
  induction List.range pageDirectoryEntries generalizing m with
  | nil => exact .refl m
  | cons i l ih =>
      rw [List.foldl_cons]
      have hstep : SameVirtual m
          (if present (m.entry t i) then (m.freePage (frameMask (m.entry t i))).setEntry t i 0 else m) := by
        split
        · exact (freePage_virtual m _).trans (setEntry_virtual _ t i 0)
        · exact .refl m
      exact hstep.trans (ih _)

theorem pagingDestroyDirectory_virtual (h : pagingDestroyDirectory m d = .ok m') :
    SameVirtual m m' := by
  unfold pagingDestroyDirectory at h
  obtain ⟨m₁, hloop, h⟩ := bind_eq_ok.mp h
  cases pure_eq_ok.mp h
  have hpost : Post (fun _ => True) (SameVirtual m)
      ((List.range kernelPdeStart).foldlM (pagingDestroyEntry d) m) := by
    apply Post.foldlM_range (I := fun _ m₁ => SameVirtual m m₁) (.refl m)
    intro i _ m₂ hsame
    refine ⟨fun hstep => ?_, fun _ => trivial⟩
    unfold pagingDestroyEntry at hstep
    dsimp only at hstep
    split at hstep
    · cases pure_eq_ok.mp hstep
      exact hsame
    · obtain ⟨t, -, hstep⟩ := bind_eq_ok.mp hstep
      cases pure_eq_ok.mp hstep
      have htable := pagingDestroyTable_virtual m₂ t
      exact hsame.trans ((htable.trans (freePage_virtual _ _)).trans (setEntry_virtual _ d i 0))
  exact (hpost.of_ok hloop).trans (freePage_virtual m₁ _)

/-! ## The work on a directory -/

/-- What is done with a process directory: `paging_map` of a frame that `pmm_alloc_page` has just
returned, `paging_unmap` and `pmm_free_page` of the frame that was mapped, or `pmm_free_page` of a
frame that was taken and is not mapped any more. -/
inductive TenantOp where
  | map (virt flags : Nat)
  | unmap (virt : Nat)
  | giveBack (frame : Nat)
  deriving DecidableEq, Repr

/-- The address is one of the user half, and the mapping is present. -/
def TenantOp.permitted : TenantOp → Bool
  | .map virt flags => decide (virt < kernelVirtBase) && decide (flags < pageSize) && present flags
  | .unmap virt => decide (virt < kernelVirtBase)
  | .giveBack _ => true

/-- Memory, and the frames that were taken and are mapped nowhere: `paging_map` had no page table for
them, or another frame has been mapped over them. -/
structure Tenant where
  mm : Mm
  held : List Nat

/-- One step of the work on directory `d`. -/
def TenantOp.step (d : Nat) (s : Tenant) : TenantOp → Except Stop Tenant
  | .map virt flags => do
      let (phys, m) := s.mm.allocPage
      if phys = 0 then return { s with mm := m }
      let before ← pagingTranslate m d virt
      let m ← pagingMap m d virt phys flags
      let after ← pagingTranslate m d virt
      let left :=
        if after = 0 then [phys / pageSize] else if before = 0 then [] else [before / pageSize]
      return { mm := m, held := left ++ s.held }
  | .unmap virt => do
      let phys ← pagingTranslate s.mm d virt
      let m ← pagingUnmap s.mm d virt
      return { s with mm := if phys ≠ 0 then m.freePage phys else m }
  | .giveBack frame =>
      if frame ∈ s.held then
        return { mm := s.mm.freePage (frame * pageSize), held := s.held.filter (· ≠ frame) }
      else return s

/-- The pages of the user half of a directory. -/
def UserPages (directory : Nat) : Region := fun d v => d = directory ∧ v / 1024 < kernelPdeStart

section Step

variable {pages : List Nat} {s s' : Tenant} {op : TenantOp}

theorem userPage (h : virt < kernelVirtBase) : virt / pageSize / 1024 < kernelPdeStart := by
  simp only [kernelVirtBase, pageSize, kernelPdeStart] at *
  omega

theorem userPages_at (h : virt < kernelVirtBase) (d' v : Nat) (hv : At d (virt / pageSize) d' v) :
    UserPages d d' v := by
  obtain ⟨rfl, rfl⟩ := hv
  exact ⟨rfl, userPage h⟩

/-- A frame is mapped. What the page was mapped to before is held. -/
theorem Ledger.mapStep (h : Ledger d m₀ use₀ pages s.held s.mm use) (hfresh : Fresh m₀ use₀ d)
    (hvirt : virt < kernelVirtBase) (hflags : flags < pageSize) (hpres : present flags = true)
    (hs : (TenantOp.map virt flags).step d s = .ok s') :
    ∃ pages' use', Ledger d m₀ use₀ pages' s'.held s'.mm use' ∧
      Local (UserPages d) s.mm use s'.mm use' ∧ s'.mm.heapEnd = s.mm.heapEnd := by
  have hu := h.uses
  have hd := h.directory
  unfold TenantOp.step at hs
  rcases halloc : s.mm.allocPage with ⟨phys, m₁⟩
  rw [halloc] at hs
  dsimp only at hs
  have hend := allocPage_heapEnd halloc
  rcases hu.take (R := UserPages d) halloc with ⟨rfl, hlocal⟩ | ⟨f, hf, rfl, hne, hlt, hlocal⟩
  · -- There is no frame.
    rw [if_pos rfl] at hs
    cases pure_eq_ok.mp hs
    exact ⟨pages, use, h.congr hlocal.uses hlocal.kernelDirectory hend, hlocal, hend⟩
  rw [if_neg hne] at hs
  obtain ⟨before, hbefore, hs⟩ := bind_eq_ok.mp hs
  obtain ⟨m₂, hmap, hs⟩ := bind_eq_ok.mp hs
  obtain ⟨after, hafter, hs⟩ := bind_eq_ok.mp hs
  cases pure_eq_ok.mp hs
  have hu₁ := hlocal.uses
  have hd₁ := hlocal.directory.mpr hd
  have ho : Owns m₁.kernelDirectory d (directoryIndex virt) := by
    rw [hlocal.kernelDirectory]
    exact h.owns hfresh (userPage hvirt)
  have hdiv : f * pageSize / pageSize = f := Nat.mul_div_cancel _ (by decide)
  have hheld : Function.update use f .held (f * pageSize / pageSize) = .held := by
    rw [hdiv, Function.update_self]
  obtain ⟨use', hlocal', hresult⟩ := hu₁.pagingMap hd₁ ho hheld hlt hflags hpres hmap
  have hwhole := hlocal.trans (hlocal'.mono (userPages_at hvirt))
  have hd₂ := hlocal'.directory.mpr hd₁
  have ho₂ : Owns m₂.kernelDirectory d (directoryIndex virt) := by
    rw [hlocal'.kernelDirectory]
    exact ho
  have hend₂ : m₂.heapEnd = s.mm.heapEnd := (pagingMap_frame hmap).2.2.1.trans hend
  have hold := hu₁.translate hd₁ ho (pagingTranslate_spec hbefore)
  have hnow := hlocal'.uses.translate hd₂ ho₂ (pagingTranslate_spec hafter)
  rcases hresult with ⟨rfl, habsent, hfail⟩ | ⟨hmapped, -⟩
  · -- There is no page table.
    have hnone : after = 0 := by
      rcases hnow with ⟨hzero, -⟩ | ⟨-, hpage, -⟩
      · exact hzero
      · exact absurd hpage (hu₁.no_page habsent _)
    rw [if_pos hnone, hdiv]
    exact ⟨pages, _, h.take hf hlocal'.uses hwhole.kernelDirectory hend₂, hwhole, hend₂⟩
  · rw [hdiv] at hmapped
    have hsome : after ≠ 0 := by
      intro hzero
      rcases hnow with ⟨-, hnone⟩ | ⟨hne', -⟩
      · exact hnone f hmapped.new
      · exact hne' hzero
    rw [if_neg hsome]
    -- Before the call the page has the frame that it had before the allocation.
    have hsame : ∀ g, Function.update use f .held g = .page d (virt / pageSize) ↔
        use g = .page d (virt / pageSize) := fun g => update_iff (by rw [hf]; simp) (by simp) g
    refine ⟨pages ++ [virt / pageSize], use', ?_, hwhole, hend₂⟩
    apply h.mapLost hfresh hf hlocal'.uses hwhole.kernelDirectory hd₂ hend₂ hmapped
    · exact fun g hg => List.mem_append_right _ hg
    · intro g hg
      rcases hold with ⟨-, hnone⟩ | ⟨hne', hpage, -⟩
      · exact absurd ((hsame g).mpr hg) (hnone g)
      · rw [if_neg hne', hu₁.page_unique ((hsame g).mpr hg) hpage]
        exact List.mem_append_left _ (List.mem_singleton_self _)
    · intro g hg
      rcases List.mem_append.mp hg with hg | hg
      · rcases hold with ⟨hzero, -⟩ | ⟨hne', hpage, -⟩
        · rw [if_pos hzero] at hg
          exact absurd hg List.not_mem_nil
        · rw [if_neg hne'] at hg
          rw [List.mem_singleton.mp hg]
          exact .inr ((hsame _).mp hpage)
      · exact .inl hg

theorem unmap_step (hs : (TenantOp.unmap virt).step d s = .ok s') :
    ∃ m', (do
      let phys ← pagingTranslate s.mm d virt
      let m ← pagingUnmap s.mm d virt
      return if phys ≠ 0 then m.freePage phys else m) = .ok m' ∧ s' = { s with mm := m' } := by
  unfold TenantOp.step at hs
  obtain ⟨phys, hphys, hs⟩ := bind_eq_ok.mp hs
  obtain ⟨m₁, hunmap, hs⟩ := bind_eq_ok.mp hs
  cases pure_eq_ok.mp hs
  refine ⟨if phys ≠ 0 then m₁.freePage phys else m₁, ?_, rfl⟩
  rw [hphys, ok_bind, hunmap]
  rfl

/-- A page is unmapped and its frame returned. -/
theorem Ledger.unmapStep (h : Ledger d m₀ use₀ pages s.held s.mm use) (hfresh : Fresh m₀ use₀ d)
    (hvirt : virt < kernelVirtBase) (hs : (TenantOp.unmap virt).step d s = .ok s') :
    ∃ pages' use', Ledger d m₀ use₀ pages' s'.held s'.mm use' ∧
      Local (UserPages d) s.mm use s'.mm use' ∧ s'.mm.heapEnd = s.mm.heapEnd := by
  obtain ⟨m', hm', rfl⟩ := unmap_step hs
  obtain ⟨⟨use', hlocal, hcleared, hleft⟩, -, hsame⟩ :=
    h.uses.unmapFree h.directory (h.owns hfresh (userPage hvirt)) hm'
  refine ⟨pages, use', ?_, hlocal.mono (userPages_at hvirt), hsame.heapEnd⟩
  exact h.clear hfresh hlocal.uses hlocal.kernelDirectory (hlocal.directory.mpr h.directory)
    hsame.heapEnd hcleared hleft fun w hw _ => hw

theorem Ledger.step (h : Ledger d m₀ use₀ pages s.held s.mm use) (hfresh : Fresh m₀ use₀ d)
    (hop : op.permitted = true) (hs : op.step d s = .ok s') :
    ∃ pages' use', Ledger d m₀ use₀ pages' s'.held s'.mm use' ∧
      Local (UserPages d) s.mm use s'.mm use' ∧ s'.mm.heapEnd = s.mm.heapEnd := by
  cases op with
  | map virt flags =>
      simp only [TenantOp.permitted, Bool.and_eq_true, decide_eq_true_eq] at hop
      exact h.mapStep hfresh hop.1.1 hop.1.2 hop.2 hs
  | unmap virt => exact h.unmapStep hfresh (of_decide_eq_true hop) hs
  | giveBack f =>
      simp only [TenantOp.step] at hs
      split at hs
      · next hf =>
        cases pure_eq_ok.mp hs
        have hheld := (h.lost f hf).2
        have hdiv : f * pageSize / pageSize = f := Nat.mul_div_cancel _ (by decide)
        have hlocal := h.uses.give (R := UserPages d) (hdiv.symm ▸ hheld)
        rw [hdiv] at hlocal
        exact ⟨pages, _, h.giveBack hf hlocal.uses rfl rfl, hlocal, rfl⟩
      · cases pure_eq_ok.mp hs
        exact ⟨pages, use, h, .refl h.uses, rfl⟩

/-- The accounts are kept along the whole work. -/
theorem Ledger.run {ops : List TenantOp} (h : Ledger d m₀ use₀ pages s.held s.mm use)
    (hfresh : Fresh m₀ use₀ d) (hops : ∀ op ∈ ops, op.permitted = true)
    (hs : ops.foldlM (TenantOp.step d) s = .ok s') :
    ∃ pages' use', Ledger d m₀ use₀ pages' s'.held s'.mm use' ∧
      Local (UserPages d) s.mm use s'.mm use' ∧ s'.mm.heapEnd = s.mm.heapEnd := by
  induction ops generalizing s pages use with
  | nil =>
      cases pure_eq_ok.mp hs
      exact ⟨pages, use, h, .refl h.uses, rfl⟩
  | cons op ops ih =>
      obtain ⟨hop, hrest⟩ := List.forall_mem_cons.mp hops
      rw [List.foldlM_cons] at hs
      obtain ⟨s₁, hstep, hs⟩ := bind_eq_ok.mp hs
      obtain ⟨pages₁, use₁, h₁, hlocal₁, hend₁⟩ := h.step hfresh hop hstep
      obtain ⟨pages', use', h', hlocal', hend'⟩ := ih h₁ hrest hs
      exact ⟨pages', use', h', hlocal₁.trans hlocal', hend'.trans hend₁⟩

end Step

/-! ## What is returned -/

/-- A page table that entries 768 to 1022 of the kernel's directory refer to, or a frame that is mapped
above the boot mappings. -/
def KernelHalf (m : Mm) (f : Nat) : Prop :=
  (∃ i, kernelPdeStart ≤ i ∧ i < recursivePdeIndex ∧
    present (m.entry m.kernelDirectory i) = true ∧ f = m.entry m.kernelDirectory i / pageSize) ∨
  ∃ virt phys, kernelBootstrapEnd ≤ virt ∧ directoryIndex virt < recursivePdeIndex ∧
    m.walk m.kernelDirectory virt = some phys ∧ f = phys / pageSize

theorem Uses.kernelHalf (hu : Uses m use) (h : KernelHalf m f) :
    use f = .reserved ∨ (∃ i, use f = .table m.kernelDirectory i) ∨
      ∃ v, use f = .page m.kernelDirectory v := by
  rcases h with ⟨i, hle, hlt, hp, rfl⟩ | ⟨virt, phys, hle, hlt, hwalk, rfl⟩
  · by_cases hi : i < kernelPdeStart + 4
    · obtain ⟨k, rfl⟩ := Nat.exists_eq_add_of_le hle
      obtain ⟨b, -, hreserved, hentry, -⟩ := hu.boot k (by omega)
      left
      rw [hentry]
      have hdiv : (b * pageSize + 3) / pageSize = b := by
        simp only [pageSize]
        omega
      rw [hdiv, hreserved]
    · have ho : Owns m.kernelDirectory m.kernelDirectory i := by
        rw [owns_self]
        simp only [kernelPdeStart] at *
        omega
      exact .inr (.inl ⟨i, hu.table _ i hu.kernel ho hp⟩)
  · have ho : Owns m.kernelDirectory m.kernelDirectory (directoryIndex virt) := by
      rw [owns_self]
      right
      simp only [kernelBootstrapEnd, kernelVirtBase, bootstrapMapSize, directoryIndex,
        recursivePdeIndex] at *
      omega
    exact .inr (.inr ⟨_, ((hu.walk_iff hu.kernel ho).mp hwalk).1⟩)

end Neox
