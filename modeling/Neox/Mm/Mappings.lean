import Neox.Mm.Uses

/-!
# Mapping, unmapping and the rest of memory

What `paging_map` and `paging_unmap` do to the uses of frames, and what they leave alone. `Local R`
collects the second part for any piece of code that works on the pages of the region `R`: frames
used by anything else keep their use and their contents. It composes, so that it is proved once for
the two operations and then carried along every call.
-/

namespace Neox

open Bytes Pmm Checked

/-! ## What is left alone -/

/-- A set of pages of page directories. -/
abbrev Region := Nat → Nat → Prop

/-- One page of a directory. -/
def At (directory page : Nat) : Region := fun d v => d = directory ∧ v = page

/-- The frame is unused, or it is a page of the region or the page table of one. -/
def Use.Within (R : Region) : Use → Prop
  | .free | .held => True
  | .table d i => ∃ v, R d v ∧ v / 1024 = i
  | .page d v => R d v
  | .reserved | .directory => False

/-- The event is about a page of the region. -/
def PagingEvent.Within (R : Region) : PagingEvent → Prop
  | .map d virt _ | .unmap d virt _ => R d (virt / pageSize)

/-- A page table of `directory` was allocated or freed. -/
def PagingEvent.changesTable (directory : Nat) : PagingEvent → Bool
  | .map d _ table | .unmap d _ table => table && d == directory

/-- How often a page table of `directory` has been allocated or freed. -/
def tableChanges (directory : Nat) (trace : List PagingEvent) : Nat :=
  trace.countP (PagingEvent.changesTable directory)

/-- From `m` to `m'` only the pages of the region `R` have been worked on. -/
structure Local (R : Region) (m : Mm) (use : Nat → Use) (m' : Mm) (use' : Nat → Use) : Prop where
  uses : Uses m' use'
  kernelDirectory : m'.kernelDirectory = m.kernelDirectory
  use_eq : ∀ f, use' f = use f ∨ (use f).Within R ∧ (use' f).Within R
  frames : ∀ f, ¬ (use f).Within R → ¬ (use f = .directory ∧ ∃ v, R f v) →
    m'.frames f = m.frames f
  trace : ∃ l, m'.trace = m.trace ++ l ∧ ∀ e ∈ l, e.Within R
  /-- A directory's entries only change when a page table is allocated or freed, and only those
  of the region. -/
  entries : ∀ d i, use d = .directory →
    (tableChanges d m'.trace = tableChanges d m.trace ∨ ∀ v, R d v → v / 1024 ≠ i) →
    m'.entry d i = m.entry d i

variable {R S : Region} {m m' m'' : Mm} {use use' use'' : Nat → Use}
  {virt phys flags d f v i t : Nat}

theorem Local.refl (hu : Uses m use) : Local R m use m use :=
  ⟨hu, rfl, fun _ => .inl rfl, fun _ _ _ => rfl, ⟨[], by simp⟩, fun _ _ _ _ => rfl⟩

theorem Use.Within.mono {u : Use} (hRS : ∀ d v, R d v → S d v) (h : u.Within R) : u.Within S := by
  cases u with
  | table d i =>
      obtain ⟨v, hv, hi⟩ := h
      exact ⟨v, hRS d v hv, hi⟩
  | page d v => exact hRS d v h
  | _ => exact h

theorem Local.mono (hRS : ∀ d v, R d v → S d v) (h : Local R m use m' use') :
    Local S m use m' use' where
  uses := h.uses
  kernelDirectory := h.kernelDirectory
  use_eq f := (h.use_eq f).imp_right fun h => ⟨h.1.mono hRS, h.2.mono hRS⟩
  frames f h1 h2 := by
    refine h.frames f (fun hw => h1 (hw.mono hRS)) fun hd => h2 ⟨hd.1, ?_⟩
    obtain ⟨v, hv⟩ := hd.2
    exact ⟨v, hRS f v hv⟩
  trace := by
    obtain ⟨l, hl, hR⟩ := h.trace
    refine ⟨l, hl, fun e he => ?_⟩
    cases e with
    | map d virt _ => exact hRS _ _ (hR _ he)
    | unmap d virt _ => exact hRS _ _ (hR _ he)
  entries d i hd hor := h.entries d i hd (hor.imp_right fun hne v hv => hne v (hRS d v hv))

/-- What is outside the region keeps its use. -/
theorem Local.keeps (h : Local R m use m' use') (hf : ¬ (use f).Within R) : use' f = use f :=
  (h.use_eq f).resolve_right fun hw => hf hw.1

theorem Local.keeps_iff (h : Local R m use m' use') {u : Use} (hu : ¬ u.Within R) :
    use' f = u ↔ use f = u := by
  rcases h.use_eq f with he | ⟨h1, h2⟩
  · rw [he]
  · constructor
    · intro h
      exact absurd (h ▸ h2) hu
    · intro h
      exact absurd (h ▸ h1) hu

theorem Local.directory (h : Local R m use m' use') : use' d = .directory ↔ use d = .directory :=
  h.keeps_iff (by simp [Use.Within])

theorem Local.tableChanges_le (h : Local R m use m' use') (d : Nat) :
    tableChanges d m.trace ≤ tableChanges d m'.trace := by
  obtain ⟨l, hl, -⟩ := h.trace
  rw [hl]
  unfold tableChanges
  rw [List.countP_append]
  exact Nat.le_add_right _ _

theorem Local.trans (h : Local R m use m' use') (h' : Local R m' use' m'' use'') :
    Local R m use m'' use'' where
  uses := h'.uses
  kernelDirectory := h'.kernelDirectory.trans h.kernelDirectory
  use_eq f := by
    rcases h.use_eq f with he | ⟨h1, h2⟩
    · rcases h'.use_eq f with he' | ⟨h3, h4⟩
      · exact .inl (he'.trans he)
      · exact .inr ⟨he ▸ h3, h4⟩
    · rcases h'.use_eq f with he' | ⟨h3, h4⟩
      · exact .inr ⟨h1, he' ▸ h2⟩
      · exact .inr ⟨h1, h4⟩
  frames f h1 h2 := by
    have hk := h.keeps h1
    rw [h'.frames f (hk ▸ h1) (hk ▸ h2), h.frames f h1 h2]
  trace := by
    obtain ⟨l, hl, hR⟩ := h.trace
    obtain ⟨l', hl', hR'⟩ := h'.trace
    refine ⟨l ++ l', by rw [hl', hl, List.append_assoc], fun e he => ?_⟩
    exact (List.mem_append.mp he).elim (hR e) (hR' e)
  entries d i hd hor := by
    have h1 := h.tableChanges_le d
    have h2 := h'.tableChanges_le d
    rw [h'.entries d i (h.directory.mpr hd) (hor.imp_left fun _ => by omega),
      h.entries d i hd (hor.imp_left fun _ => by omega)]

/-- A change outside `pmm`, `frames` and `kernel_directory`. -/
theorem Uses.congr (hu : Uses m use) (hp : m'.pmm = m.pmm) (hf : m'.frames = m.frames)
    (hk : m'.kernelDirectory = m.kernelDirectory) : Uses m' use := by
  cases m
  cases m'
  simp only at hp hf hk
  subst hp hf hk
  exact ⟨hu.free_iff, hu.limit, hu.managed, hu.zero, hu.kernel, hu.window, hu.table, hu.table_back,
    hu.page, hu.page_back, hu.copied, hu.boot⟩

/-- The same for `Local`. -/
theorem Local.congr (h : Local R m use m' use') (hp : m''.pmm = m'.pmm)
    (hf : m''.frames = m'.frames) (hk : m''.kernelDirectory = m'.kernelDirectory)
    (ht : m''.trace = m'.trace) : Local R m use m'' use' where
  uses := h.uses.congr hp hf hk
  kernelDirectory := hk.trans h.kernelDirectory
  use_eq := h.use_eq
  frames f h1 h2 := hf ▸ h.frames f h1 h2
  trace := ht ▸ h.trace
  entries d i hd hor := by
    rw [← h.entries d i hd (ht ▸ hor)]
    unfold Mm.entry
    rw [hf]

/-! ## Translation -/

/-- The page of an address and its two indices. -/
theorem directoryIndex_eq : directoryIndex virt = virt / pageSize / 1024 := by
  simp only [directoryIndex, pageSize]
  omega

theorem index_eq (virt : Nat) : directoryIndex virt * 1024 + tableIndex virt = virt / pageSize := by
  simp only [directoryIndex, tableIndex, pageSize, pageDirectoryEntries]
  omega

theorem tableIndex_lt (virt : Nat) : tableIndex virt < pageDirectoryEntries := by
  simp only [tableIndex, pageDirectoryEntries]
  omega

/-- The MMU translates an address to the frame that is used for its page. -/
theorem Uses.walk_iff (hu : Uses m use) (hd : use d = .directory)
    (ho : Owns m.kernelDirectory d (directoryIndex virt)) :
    m.walk d virt = some phys ↔
      use (phys / pageSize) = .page d (virt / pageSize) ∧ phys % pageSize = virt % pageSize := by
  have hv := index_eq virt
  unfold Mm.walk
  simp only []
  split
  · next hp =>
    have ht := hu.table d _ hd ho hp
    rw [← hv, hu.page_iff ht (tableIndex_lt virt)]
    split
    · next hq =>
      simp only [hq, true_and, Option.some.injEq, frameMask, pageSize]
      omega
    · next hq => simp [hq]
  · next hp =>
    constructor
    · intro h
      cases h
    · rintro ⟨h, -⟩
      obtain ⟨t, h1, -⟩ := hu.page_back _ _ _ h
      rw [← directoryIndex_eq] at h1
      obtain ⟨-, -, -, h2, -⟩ := hu.table_back t _ _ h1
      exact absurd h2 hp

/-- One frame is mapped at a page. -/
theorem Uses.page_unique {g : Nat} (hu : Uses m use) (hf : use f = .page d v)
    (hg : use g = .page d v) : f = g := by
  obtain ⟨t, h1, -, rfl⟩ := hu.page_back f d v hf
  obtain ⟨t', h1', -, rfl⟩ := hu.page_back g d v hg
  rw [hu.table_unique h1 h1']

/-- The entry of a page table that was allocated or freed is no entry that `Local` keeps. -/
theorem not_kept {l : List PagingEvent} {e : PagingEvent} {d' : Nat}
    (he : e = .map d virt true ∨ e = .unmap d virt true)
    (hor : tableChanges d' (l ++ [e]) = tableChanges d' l ∨
      ∀ v, At d (virt / pageSize) d' v → v / 1024 ≠ i) : ¬ (d' = d ∧ i = directoryIndex virt) := by
  rintro ⟨rfl, rfl⟩
  rcases hor with htc | hne
  · rcases he with rfl | rfl <;> simp [tableChanges, PagingEvent.changesTable] at htc
  · exact hne _ ⟨rfl, rfl⟩ directoryIndex_eq.symm

/-- Without a page table nothing is mapped. -/
theorem Uses.no_page (hu : Uses m use) (hp : present (m.entry d (directoryIndex virt)) = false)
    (f : Nat) : use f ≠ .page d (virt / pageSize) := by
  intro hf
  obtain ⟨t, ht, -⟩ := hu.page_back f d _ hf
  rw [← directoryIndex_eq] at ht
  obtain ⟨-, -, -, hp', -⟩ := hu.table_back t d _ ht
  rw [hp] at hp'
  cases hp'

/-! ## `paging_map` -/

/-- Frame `f`, held before, has become `page` of a directory; what was mapped there is held, and a
free frame may have become the page table. -/
structure Mapped (directory page f : Nat) (use use' : Nat → Use) : Prop where
  new : use' f = .page directory page
  old : ∀ g, use g = .page directory page → use' g = .held
  rest : ∀ g, g ≠ f → use g ≠ .page directory page →
    use' g = use g ∨ use g = .free ∧ use' g = .table directory (page / 1024)

section Remap

variable {old e : Nat} (hold : ∀ g, use g = .page d v ↔ present old = true ∧ g = old / pageSize)

include hold

theorem remap_old (he : present e = true → use (e / pageSize) = .held) (hf : use f = .page d v) :
    remap use old e d v f = .held := by
  obtain ⟨hp, rfl⟩ := (hold f).mp hf
  unfold remap assign
  split
  · next hp' =>
    rw [Function.update_of_ne, Function.update_self]
    intro heq
    rw [heq, he hp'] at hf
    cases hf
  · exact Function.update_self ..

theorem remap_rest (hf : use f ≠ .page d v) (hne : present e = true → f ≠ e / pageSize) :
    remap use old e d v f = use f := by
  have h1 : assign use old .held f = use f := by
    unfold assign
    split
    · next hp =>
      rw [Function.update_of_ne]
      rintro rfl
      exact hf ((hold _).mpr ⟨hp, rfl⟩)
    · rfl
  rw [← h1]
  unfold remap
  rw [assign]
  split
  · next hp => exact Function.update_of_ne (hne hp) _ _
  · rfl

end Remap

theorem mapFlags_lt (flags : Nat) : pagePresent ||| (flags &&& (pageWritable ||| pageUser)) < pageSize := by
  have h : flags &&& (pageWritable ||| pageUser) < 2 ^ 12 :=
    Nat.lt_of_le_of_lt Nat.and_le_right (by decide)
  exact Nat.or_lt_two_pow (by decide) h

theorem present_mapFlags :
    present (pagePresent ||| (flags &&& (pageWritable ||| pageUser))) = true := by
  simp [present, Nat.or_mod_two_eq_one]

theorem Mapped.within (h : Mapped d v f use use') (hf : use f = .held) (g : Nat) :
    use' g = use g ∨ (use g).Within (At d v) ∧ (use' g).Within (At d v) := by
  by_cases hg : g = f
  · subst hg
    exact .inr ⟨by rw [hf]; trivial, by rw [h.new]; exact ⟨rfl, rfl⟩⟩
  · by_cases hp : use g = .page d v
    · exact .inr ⟨by rw [hp]; exact ⟨rfl, rfl⟩, by rw [h.old g hp]; trivial⟩
    · refine (h.rest g hg hp).imp_right ?_
      rintro ⟨h1, h2⟩
      exact ⟨by rw [h1]; trivial, by rw [h2]; exact ⟨v, ⟨rfl, rfl⟩, rfl⟩⟩

/-- Setting an entry, as a change of uses. -/
theorem mapped_remap {old e : Nat}
    (hold : ∀ g, use g = .page d v ↔ present old = true ∧ g = old / pageSize)
    (he : present e = true) (hf : use (e / pageSize) = .held) :
    Mapped d v (e / pageSize) use (remap use old e d v) where
  new := (remap_page hold).mpr ⟨he, rfl⟩
  old _ hg := remap_old hold (fun _ => hf) hg
  rest _ hg hne := .inl (remap_rest hold hne fun _ => hg)

/-- The same when the page table is new. -/
theorem Mapped.ofTable (h : Mapped d v f (Function.update use t (.table d i)) use')
    (hi : i = v / 1024) (ht : use t = .free) (hne : f ≠ t) : Mapped d v f use use' where
  new := h.new
  old g hg := by
    apply h.old
    rw [Function.update_of_ne, hg]
    rintro rfl
    rw [ht] at hg
    cases hg
  rest g hg hp := by
    by_cases hgt : g = t
    · subst hgt
      have hu : Function.update use g (.table d i) g = .table d i := Function.update_self ..
      rcases h.rest g hg (by rw [hu]; simp) with he | ⟨he, -⟩
      · exact .inr ⟨ht, hi ▸ he.trans hu⟩
      · rw [hu] at he
        cases he
    · have hu : Function.update use t (.table d i) g = use g := Function.update_of_ne hgt _ _
      have := h.rest g hg (by rw [hu]; exact hp)
      rwa [hu] at this

/-- Frames outside `At d v` are no page table that covers `v`. -/
theorem not_within_at {u : Use} (h : ¬ u.Within (At d v)) :
    u ≠ .free ∧ u ≠ .held ∧ u ≠ .table d (v / 1024) := by
  refine ⟨?_, ?_, ?_⟩
  all_goals
    rintro rfl
    apply h
  · trivial
  · trivial
  · exact ⟨v, ⟨rfl, rfl⟩, rfl⟩

/-- The PDE that `paging_map` writes for the page table `t`. -/
theorem tableEntry_spec (flags : Nat) (hw : t < directFrames) :
    pageEntry (t * pageSize) (pagePresent ||| (flags &&& (pageWritable ||| pageUser))) <
      wordModulus ∧
    present (pageEntry (t * pageSize) (pagePresent ||| (flags &&& (pageWritable ||| pageUser)))) =
      true ∧
    pageEntry (t * pageSize) (pagePresent ||| (flags &&& (pageWritable ||| pageUser))) / pageSize =
      t := by
  have hfl := mapFlags_lt flags
  refine ⟨pageEntry_lt ?_ hfl, (present_pageEntry hfl).trans present_mapFlags, ?_⟩
  · simp only [directFrames, pageSize, wordModulus] at *
    omega
  · rw [pageEntry_div hfl]
    exact Nat.mul_div_cancel _ (by decide)

/-- A held frame is zeroed and becomes a page table. -/
theorem Uses.installTable (hu : Uses m use) (flags : Nat) (hd : use d = .directory)
    (ho : Owns m.kernelDirectory d i) (hno : present (m.entry d i) = false) (ht : use t = .held)
    (hw : t < directFrames) : Uses ((m.zeroFrame t).setEntry d i (pageEntry (t * pageSize)
      (pagePresent ||| (flags &&& (pageWritable ||| pageUser))))) (Function.update use t (.table d i)) := by
  obtain ⟨h1, h2, h3⟩ := tableEntry_spec flags hw
  have hdt : d ≠ t := by
    rintro rfl
    rw [hd] at ht
    cases ht
  have hzero : Uses (m.zeroFrame t) use := hu.write (.inl (.inr ht))
  apply hzero.addTable hd ho _ ht hw _ h1 h2 h3
  · rw [Mm.zeroFrame_entry, if_neg hdt, hno]
  · intro j
    rw [Mm.zeroFrame_entry, if_pos rfl]

/-- `paging_map` of a held frame. -/
theorem Uses.pagingMap (hu : Uses m use) (hd : use d = .directory)
    (ho : Owns m.kernelDirectory d (directoryIndex virt))
    (hphys : use (phys / pageSize) = .held) (hlt : phys < wordModulus) (hflags : flags < pageSize)
    (hpres : present flags = true) (h : pagingMap m d virt phys flags = .ok m') :
    ∃ use', Local (At d (virt / pageSize)) m use m' use' ∧
      (use' = use ∧ present (m.entry d (directoryIndex virt)) = false ∧ m.allocPage = (0, m') ∨
        Mapped d (virt / pageSize) (phys / pageSize) use use' ∧
          ∃ table, m'.trace = m.trace ++ [.map d virt table]) := by
  have he := pageEntry_lt hlt hflags
  have hediv : pageEntry phys flags / pageSize = phys / pageSize := pageEntry_div hflags
  have hepres : present (pageEntry phys flags) = true := (present_pageEntry hflags).trans hpres
  have hindex := index_eq virt
  rw [← hediv] at hphys ⊢
  rcases pagingMap_spec h with ⟨hp, rfl⟩ | ⟨hp, hfail | ⟨p, m₁, t, halloc, hp0, ht, rfl⟩⟩
  · -- The page table is there.
    have ht := hu.table d _ hd ho hp
    have hold := fun g => hu.page_iff (f := g) ht (tableIndex_lt virt)
    have hset := hu.setEntry ht (tableIndex_lt virt) he fun _ => hphys
    rw [hindex] at hold hset
    have hmapped := mapped_remap hold hepres hphys
    refine ⟨_, ⟨hset.congr rfl rfl rfl, rfl, hmapped.within hphys, fun f h1 _ => ?_, ⟨_, rfl, ?_⟩,
      fun d' i hd' _ => ?_⟩, .inr ⟨hmapped, _, rfl⟩⟩
    · rw [Mm.record_frames, Mm.setEntry_frames_of_ne]
      rintro rfl
      exact (not_within_at h1).2.2 (directoryIndex_eq ▸ ht)
    · simp [PagingEvent.Within, At]
    · rw [Mm.record_entry, Mm.setEntry_entry _ _ _ _ _ he, if_neg]
      rintro ⟨rfl, -⟩
      rw [ht] at hd'
      cases hd'
  · -- There is no page for a page table.
    obtain ⟨q, rfl, ⟨-, -, hu'⟩ | ⟨f, -, -, h0, -⟩⟩ := hu.allocPage hfail
    · exact ⟨use, ⟨hu', rfl, fun _ => .inl rfl, fun _ _ _ => rfl, ⟨[], by simp⟩,
        fun _ _ _ _ => rfl⟩, .inl ⟨rfl, hp, hfail⟩⟩
    · exact absurd rfl h0
  · -- A new page table is installed.
    obtain ⟨q, rfl, ⟨h0, -⟩ | ⟨f, hfree, rfl, -, hplt, hu₁⟩⟩ := hu.allocPage halloc
    · exact absurd h0 hp0
    · obtain ⟨hwin, rfl⟩ := (direct_eq_ok hplt).mp ht
      have hft : f * pageSize / pageSize = f := Nat.mul_div_cancel _ (by decide)
      rw [hft] at *
      have hfw : f < directFrames := by
        simp only [pageSize, bootstrapMapSize, directFrames] at *
        omega
      have hdf : d ≠ f := by
        rintro rfl
        rw [hd] at hfree
        cases hfree
      have hef : pageEntry phys flags / pageSize ≠ f := by
        intro heq
        rw [heq, hfree] at hphys
        cases hphys
      have hu₂ := hu₁.installTable flags (by rw [Function.update_of_ne hdf, hd]) ho hp
        (Function.update_self ..) hfw
      rw [Function.update_idem] at hu₂
      have hkeep : Function.update use f (.table d (directoryIndex virt))
          (pageEntry phys flags / pageSize) = .held := by
        rw [Function.update_of_ne hef, hphys]
      have hset := hu₂.setEntry (Function.update_self ..) (tableIndex_lt virt) he
        fun _ => hkeep
      have hold := fun g => hu₂.page_iff (f := g) (Function.update_self ..)
        (tableIndex_lt virt)
      rw [hindex] at hold hset
      have hmapped := (mapped_remap hold hepres hkeep).ofTable directoryIndex_eq hfree hef
      refine ⟨_, ⟨hset.congr rfl rfl rfl, rfl, hmapped.within hphys, fun g h1 h2 => ?_, ⟨_, rfl, ?_⟩,
        fun d' i hd' hor => ?_⟩, .inr ⟨hmapped, _, rfl⟩⟩
      · have hgf : g ≠ f := by
          rintro rfl
          exact (not_within_at h1).1 hfree
        have hgd : g ≠ d := by
          rintro rfl
          exact h2 ⟨hd, _, rfl, rfl⟩
        rw [Mm.record_frames, Mm.setEntry_frames_of_ne _ hgf, Mm.setEntry_frames_of_ne _ hgd,
          Mm.zeroFrame_frames_of_ne _ hgf]
      · simp [PagingEvent.Within, At]
      · have hdf' : d' ≠ f := by
          rintro rfl
          rw [hfree] at hd'
          cases hd'
        rw [Mm.record_entry, Mm.setEntry_entry_of_ne _ hdf',
          Mm.setEntry_entry _ _ _ _ _ (tableEntry_spec _ hfw).1, if_neg (not_kept (.inl rfl) hor),
          Mm.zeroFrame_entry, if_neg hdf']
        rfl

/-! ## `paging_unmap` -/

/-- What was mapped at `page` is held, and the page table may have been freed. -/
structure Unmapped (directory page : Nat) (use use' : Nat → Use) : Prop where
  old : ∀ g, use g = .page directory page → use' g = .held
  rest : ∀ g, use g ≠ .page directory page →
    use' g = use g ∨ use g = .table directory (page / 1024) ∧ use' g = .free

theorem Unmapped.within (h : Unmapped d v use use') (g : Nat) :
    use' g = use g ∨ (use g).Within (At d v) ∧ (use' g).Within (At d v) := by
  by_cases hp : use g = .page d v
  · exact .inr ⟨by rw [hp]; exact ⟨rfl, rfl⟩, by rw [h.old g hp]; trivial⟩
  · refine (h.rest g hp).imp_right ?_
    rintro ⟨h1, h2⟩
    exact ⟨by rw [h1]; exact ⟨v, ⟨rfl, rfl⟩, rfl⟩, by rw [h2]; trivial⟩

theorem unmapped_remap {old : Nat}
    (hold : ∀ g, use g = .page d v ↔ present old = true ∧ g = old / pageSize) :
    Unmapped d v use (remap use old 0 d v) where
  old _ hg := remap_old hold (fun h => by cases h) hg
  rest _ hne := .inl (remap_rest hold hne fun h => by cases h)

/-- The same when the page table is freed. -/
theorem Unmapped.freeTable (h : Unmapped d v use use') (hi : i = v / 1024)
    (ht : use t = .table d i) :
    Unmapped d v use (Function.update use' t .free) where
  old g hg := by
    rw [Function.update_of_ne]
    · exact h.old g hg
    · rintro rfl
      rw [ht] at hg
      cases hg
  rest g hne := by
    by_cases hgt : g = t
    · subst hgt
      exact .inr ⟨hi ▸ ht, Function.update_self ..⟩
    · rw [Function.update_of_ne hgt]
      exact h.rest g hne

/-- `paging_unmap`. -/
theorem Uses.pagingUnmap (hu : Uses m use) (hd : use d = .directory)
    (ho : Owns m.kernelDirectory d (directoryIndex virt)) (h : pagingUnmap m d virt = .ok m') :
    ∃ use', Local (At d (virt / pageSize)) m use m' use' ∧
      Unmapped d (virt / pageSize) use use' := by
  have hindex := index_eq virt
  rcases pagingUnmap_spec h with ⟨hp, rfl⟩ | ⟨hp, hcase⟩
  · -- There is no page table.
    exact ⟨use, .refl hu, fun g hg => absurd hg (hu.no_page hp g), fun g _ => .inl rfl⟩
  · have ht := hu.table d _ hd ho hp
    have hold := fun g => hu.page_iff (f := g) ht (tableIndex_lt virt)
    have hset := hu.setEntry (e := 0) ht (tableIndex_lt virt) (by decide)
      (fun h => by cases h)
    rw [hindex] at hold hset
    have hunmapped := unmapped_remap hold
    have hdt : ∀ d', use d' = .directory → d' ≠ m.entry d (directoryIndex virt) / pageSize := by
      rintro d' hd' rfl
      rw [ht] at hd'
      cases hd'
    rcases hcase with ⟨-, rfl⟩ | ⟨hempty, rfl⟩
    · -- Other entries of the page table are present.
      refine ⟨_, ⟨hset.congr rfl rfl rfl, rfl, hunmapped.within, fun f h1 _ => ?_, ⟨_, rfl, ?_⟩,
        fun d' i hd' _ => ?_⟩, hunmapped⟩
      · rw [Mm.record_frames, Mm.setEntry_frames_of_ne]
        rintro rfl
        exact (not_within_at h1).2.2 (directoryIndex_eq ▸ ht)
      · simp [PagingEvent.Within, At]
      · rw [Mm.record_entry, Mm.setEntry_entry_of_ne _ (hdt d' hd')]
    · -- The page table is empty and is freed.
      have ht' := (remap_of_ne (f := m.entry d (directoryIndex virt) / pageSize) (e := 0)
        (u := .table d (directoryIndex virt)) hold (fun h => by cases h) (by simp) (by simp)).mpr ht
      have hremove := hset.removeTable ht' hempty
      have hheld : Function.update (remap use (m.entry (m.entry d (directoryIndex virt) / pageSize)
          (tableIndex virt)) 0 d (virt / pageSize)) (m.entry d (directoryIndex virt) / pageSize) .held
          (frameMask (m.entry d (directoryIndex virt)) / pageSize) = .held := by
        rw [frameMask_div, Function.update_self]
      have hfree := hremove.freePage hheld
      rw [frameMask_div, Function.update_idem] at hfree
      have hunmapped' := hunmapped.freeTable directoryIndex_eq ht
      refine ⟨_, ⟨hfree.congr rfl rfl rfl, rfl, hunmapped'.within, fun f h1 h2 => ?_, ⟨_, rfl, ?_⟩,
        fun d' i hd' hor => ?_⟩, hunmapped'⟩
      · have hfd : f ≠ d := by
          rintro rfl
          exact h2 ⟨hd, _, rfl, rfl⟩
        rw [Mm.record_frames, Mm.setEntry_frames_of_ne _ hfd, Mm.freePage_frames,
          Mm.setEntry_frames_of_ne]
        rintro rfl
        exact (not_within_at h1).2.2 (directoryIndex_eq ▸ ht)
      · simp [PagingEvent.Within, At]
      · rw [Mm.record_entry, Mm.setEntry_entry _ _ _ _ _ (by decide),
          if_neg (not_kept (.inr rfl) hor), Mm.freePage_entry,
          Mm.setEntry_entry_of_ne _ (hdt d' hd')]

/-- A page table that is left maps another page. -/
theorem Uses.table_left {m₁ : Mm} (hu : Uses m use) (hd : use d = .directory)
    (ho : Owns m.kernelDirectory d (directoryIndex virt)) (h : Neox.pagingUnmap m d virt = .ok m₁)
    (hframes : m'.frames = m₁.frames) (hu' : Uses m' use') (ht : use' t = .table d (directoryIndex virt)) :
    ∃ f v, use' f = .page d v ∧ v / 1024 = directoryIndex virt := by
  obtain ⟨-, -, -, hpresent, hframe⟩ := hu'.table_back t d _ ht
  have hentry : ∀ u j, m'.entry u j = m₁.entry u j := fun u j => by
    unfold Mm.entry
    rw [hframes]
  rw [hentry] at hpresent hframe
  rcases pagingUnmap_spec h with ⟨hp, rfl⟩ | ⟨hp, ⟨⟨j, hj, hleft⟩, rfl⟩ | ⟨-, rfl⟩⟩
  · rw [hp] at hpresent
    cases hpresent
  · have htable := hu.table d _ hd ho hp
    have hne : d ≠ m.entry d (directoryIndex virt) / pageSize := fun heq => by
      rw [← heq, hd] at htable
      cases htable
    rw [Mm.record_entry, Mm.setEntry_entry_of_ne _ hne] at hframe
    rw [hframe] at hleft
    have hpage := hu'.page t d _ ht j hj (by
      rw [hentry, Mm.record_entry, hframe]
      exact hleft)
    refine ⟨_, _, hpage, ?_⟩
    simp only [pageDirectoryEntries] at hj
    omega
  · rw [Mm.record_entry, Mm.setEntry_entry _ _ _ _ _ (by decide), if_pos ⟨rfl, rfl⟩] at hpresent
    cases hpresent

theorem pagingUnmap_trace (h : pagingUnmap m d virt = .ok m') :
    m'.trace = m.trace ∨ ∃ table, m'.trace = m.trace ++ [.unmap d virt table] := by
  rcases pagingUnmap_spec h with ⟨-, rfl⟩ | ⟨-, ⟨-, rfl⟩ | ⟨-, rfl⟩⟩
  · exact .inl rfl
  · exact .inr ⟨false, rfl⟩
  · exact .inr ⟨true, rfl⟩

/-! ## Taking and returning frames -/

/-- A frame moves between the allocator and its clients. -/
theorem Local.repool {u : Use} (hf : (use f).Idle) (hidle : u.Idle)
    (hframes : m'.frames = m.frames) (hk : m'.kernelDirectory = m.kernelDirectory)
    (ht : m'.trace = m.trace) (hu' : Uses m' (Function.update use f u)) :
    Local R m use m' (Function.update use f u) where
  uses := hu'
  kernelDirectory := hk
  use_eq g := by
    by_cases hg : g = f
    · subst hg
      rw [Function.update_self]
      right
      constructor
      · rcases hf with h | h <;> rw [h] <;> trivial
      · rcases hidle with h | h <;> rw [h] <;> trivial
    · exact .inl (Function.update_of_ne hg _ _)
  frames _ _ _ := by rw [hframes]
  trace := ⟨[], by simp [ht]⟩
  entries _ _ _ _ := by
    unfold Mm.entry
    rw [hframes]

/-- `pmm_alloc_page`. -/
theorem Uses.take (hu : Uses m use) (h : m.allocPage = (phys, m')) :
    (phys = 0 ∧ Local R m use m' use) ∨
    ∃ f, use f = .free ∧ phys = f * pageSize ∧ phys ≠ 0 ∧ phys < wordModulus ∧
      Local R m use m' (Function.update use f .held) := by
  obtain ⟨q, rfl, ⟨h0, -, hu'⟩ | ⟨f, hf, hp, h0, hlt, hu'⟩⟩ := hu.allocPage h
  · exact .inl ⟨h0, hu', rfl, fun _ => .inl rfl, fun _ _ _ => rfl, ⟨[], by simp⟩, fun _ _ _ _ => rfl⟩
  · exact .inr ⟨f, hf, hp, h0, hlt, .repool (.inl hf) (.inr rfl) rfl rfl rfl hu'⟩

/-- `pmm_free_page` of a held frame. -/
theorem Uses.give (hu : Uses m use) (h : use (phys / pageSize) = .held) :
    Local R m use (m.freePage phys) (Function.update use (phys / pageSize) .free) :=
  .repool (.inr h) (.inl rfl) rfl rfl rfl (hu.freePage h)

/-- What `paging_translate` returns in the part of a directory that it owns. -/
theorem Uses.translate (hu : Uses m use) (hd : use d = .directory)
    (ho : Owns m.kernelDirectory d (directoryIndex virt))
    (hspec : phys = (m.walk d virt).getD 0) :
    (phys = 0 ∧ ∀ g, use g ≠ .page d (virt / pageSize)) ∨
      phys ≠ 0 ∧ use (phys / pageSize) = .page d (virt / pageSize) ∧
        phys % pageSize = virt % pageSize := by
  cases hw : m.walk d virt with
  | none =>
      rw [hw] at hspec
      refine .inl ⟨hspec, fun g hg => ?_⟩
      have hwalk : m.walk d virt = some (g * pageSize + virt % pageSize) := (hu.walk_iff hd ho).mpr (by
        have h1 : (g * pageSize + virt % pageSize) / pageSize = g := by
          simp only [pageSize]
          omega
        have h2 : (g * pageSize + virt % pageSize) % pageSize = virt % pageSize := by
          simp only [pageSize]
          omega
        rw [h1, h2]
        exact ⟨hg, rfl⟩)
      rw [hw] at hwalk
      cases hwalk
  | some p =>
      rw [hw] at hspec
      simp only [Option.getD_some] at hspec
      subst hspec
      obtain ⟨hpage, hmod⟩ := (hu.walk_iff hd ho).mp hw
      refine .inr ⟨?_, hpage, hmod⟩
      rintro rfl
      rw [Nat.zero_div, hu.zero] at hpage
      cases hpage

/-! ## Staying in the direct map -/

/-- All memory that is not reserved is within the direct map. -/
def Windowed (use : Nat → Use) : Prop := ∀ f, use f ≠ .reserved → f < directFrames

/-- A reason to stop that code on sound paging structures may have: when memory is within the
direct map it reaches every frame. -/
def Tame (use : Nat → Use) (e : Stop) : Prop := Windowed use → ∀ p, e ≠ .wild p

theorem Local.windowed (h : Local R m use m' use') : Windowed use' ↔ Windowed use := by
  unfold Windowed
  apply forall_congr'
  intro f
  have hr : use' f = .reserved ↔ use f = .reserved := h.keeps_iff (by simp [Use.Within])
  rw [ne_eq, hr]

theorem Local.tame (h : Local R m use m' use') (e : Stop) (he : Tame use' e) : Tame use e :=
  fun hw => he (h.windowed.mpr hw)

/-- A continuation may be judged in the state it starts in. -/
theorem Local.post {α : Type} {P : α → Prop} {x : Except Stop α} (h : Local R m use m' use')
    (hx : Post (Tame use') P x) : Post (Tame use) P x :=
  hx.mono h.tame fun _ => id

/-- The entries that refer to page tables within the direct map. -/
def Covers (kernelDirectory directory index : Nat) : Prop :=
  Owns kernelDirectory directory index ∨
    kernelPdeStart ≤ index ∧ index < pageDirectoryEntries

/-- `paging_get_table` reaches the page table. -/
theorem Uses.getTable (hu : Uses m use) (hd : use d = .directory)
    (ho : Covers m.kernelDirectory d i) : ∃ table, pagingGetTable m d i = .ok table := by
  unfold pagingGetTable
  simp only []
  split
  · next hp =>
    have hlt := m.entry_lt d i
    have hw : m.entry d i / pageSize < directFrames := by
      rcases ho with ho | ⟨h1, h2⟩
      · exact (hu.table_back _ _ _ (hu.table d i hd ho hp)).1
      · exact hu.copied d i hd h1 h2 hp
    have hdirect : direct (frameMask (m.entry d i)) = .ok (m.entry d i / pageSize) := by
      rw [direct_eq_ok (frameMask_lt hlt), frameMask_div]
      refine ⟨?_, rfl⟩
      simp only [frameMask, pageSize, bootstrapMapSize, directFrames] at *
      omega
    rw [hdirect]
    exact ⟨_, rfl⟩
  · exact ⟨_, rfl⟩

theorem Uses.translate_returns (hu : Uses m use) (hd : use d = .directory)
    (ho : Covers m.kernelDirectory d (directoryIndex virt)) :
    ∃ phys, pagingTranslate m d virt = .ok phys := by
  obtain ⟨table, ht⟩ := hu.getTable hd ho
  unfold pagingTranslate
  rw [ht]
  cases table with
  | none => exact ⟨0, rfl⟩
  | some t =>
      dsimp only [ok_bind]
      split
      · exact ⟨0, rfl⟩
      · exact ⟨_, rfl⟩

theorem Uses.translate_post (hu : Uses m use) (hd : use d = .directory)
    (ho : Covers m.kernelDirectory d (directoryIndex virt)) :
    Post (Tame use) (fun phys => phys = (m.walk d virt).getD 0) (pagingTranslate m d virt) := by
  refine ⟨pagingTranslate_spec, fun h => ?_⟩
  obtain ⟨table, ht⟩ := hu.getTable hd ho
  unfold pagingTranslate at h
  rw [ht] at h
  cases table with
  | none => cases h
  | some t =>
      simp only [Except.bind, bind] at h
      split at h <;> cases h

theorem Uses.validateMapping_post (hu : Uses m use) (hd : use d = .directory)
    (ho : Covers m.kernelDirectory d (directoryIndex virt)) :
    Post (Tame use) (fun valid => valid = (m.walk d virt).isSome)
      (pagingValidateMapping m d virt) := by
  refine ⟨pagingValidateMapping_spec, fun h => ?_⟩
  obtain ⟨table, ht⟩ := hu.getTable hd ho
  unfold pagingValidateMapping at h
  rw [ht] at h
  cases table with
  | none => cases h
  | some t => cases h

/-- A frame that is not reserved is reached when memory is within the direct map. -/
theorem direct_post (hlt : phys < wordModulus) (hr : use (phys / pageSize) ≠ .reserved) :
    Post (Tame use) (fun t => t = phys / pageSize ∧ t < directFrames) (direct phys) := by
  refine ⟨fun h => ?_, fun h hw p => ?_⟩
  · obtain ⟨h1, rfl⟩ := (direct_eq_ok hlt).mp h
    refine ⟨rfl, ?_⟩
    simp only [pageSize, bootstrapMapSize, directFrames] at *
    omega
  · have hdirect : direct phys = .ok (phys / pageSize) := by
      rw [direct_eq_ok hlt]
      refine ⟨?_, rfl⟩
      have := hw _ hr
      simp only [pageSize, bootstrapMapSize, directFrames] at *
      omega
    rw [hdirect] at h
    cases h

theorem Uses.pagingMap_post (hu : Uses m use) (hd : use d = .directory)
    (ho : Owns m.kernelDirectory d (directoryIndex virt))
    (hphys : use (phys / pageSize) = .held) (hlt : phys < wordModulus) (hflags : flags < pageSize)
    (hpres : present flags = true) :
    Post (Tame use) (fun m' => ∃ use', Local (At d (virt / pageSize)) m use m' use' ∧
      (use' = use ∧ present (m.entry d (directoryIndex virt)) = false ∧ m.allocPage = (0, m') ∨
        Mapped d (virt / pageSize) (phys / pageSize) use use' ∧
          ∃ table, m'.trace = m.trace ++ [.map d virt table]))
      (Neox.pagingMap m d virt phys flags) := by
  refine ⟨hu.pagingMap hd ho hphys hlt hflags hpres, fun h hw p => ?_⟩
  obtain ⟨table, ht⟩ := hu.getTable hd (.inl ho)
  unfold Neox.pagingMap at h
  rw [ht] at h
  cases table with
  | some t => cases h
  | none =>
      -- Only the new page table can be out of reach.
      simp only [Except.bind, bind] at h
      unfold pagingAllocTable at h
      rcases hpage : m.allocPage with ⟨q, m₁⟩
      rw [hpage] at h
      simp only [] at h
      obtain ⟨_, rfl, ⟨rfl, -, -⟩ | ⟨f, hf, rfl, h0, hqlt, hu₁⟩⟩ := hu.allocPage hpage
      · simp only [if_true] at h
        cases h
      · rw [if_neg h0] at h
        have hfr : use (f * pageSize / pageSize) ≠ .reserved := by
          rw [Nat.mul_div_cancel _ (by decide), hf]
          simp
        have hpost := direct_post hqlt hfr
        generalize direct (f * pageSize) = x at h hpost
        cases x with
        | error e' =>
            injection h with h
            subst h
            exact hpost.of_error rfl hw p
        | ok t => cases h

theorem Uses.pagingUnmap_post (hu : Uses m use) (hd : use d = .directory)
    (ho : Owns m.kernelDirectory d (directoryIndex virt)) :
    Post (Tame use) (fun m' => ∃ use', Local (At d (virt / pageSize)) m use m' use' ∧
      Unmapped d (virt / pageSize) use use') (Neox.pagingUnmap m d virt) := by
  refine ⟨hu.pagingUnmap hd ho, fun h => ?_⟩
  obtain ⟨table, ht⟩ := hu.getTable hd (.inl ho)
  unfold Neox.pagingUnmap at h
  simp only [] at h
  split at h
  · cases h
  · rw [ht] at h
    cases table with
    | none => cases h
    | some t =>
        simp only [Except.bind, bind] at h
        split at h
        · exact absurd h pure_ne_error
        · exact absurd h pure_ne_error

/-! ## Unmapping and freeing -/

/-- What was mapped at `page` is free, and the page table may have been freed. -/
structure Cleared (directory page : Nat) (use use' : Nat → Use) : Prop where
  old : ∀ g, use g = .page directory page → use' g = .free
  rest : ∀ g, use g ≠ .page directory page →
    use' g = use g ∨ use g = .table directory (page / 1024) ∧ use' g = .free

theorem Cleared.none_left (h : Cleared d v use use') (f : Nat) : use' f ≠ .page d v := by
  intro hf
  by_cases hp : use f = .page d v
  · rw [h.old f hp] at hf
    cases hf
  · rcases h.rest f hp with he | ⟨-, he⟩
    · exact hp (he.symm.trans hf)
    · rw [he] at hf
      cases hf

/-- The frame that was mapped is returned. -/
theorem Uses.giveUnmapped {p : Nat} (hu : Uses m use)
    (hpage : use (p / pageSize) = .page d v) (hlocal : Local (At d v) m use m' use')
    (hun : Unmapped d v use use') : ∃ use'', Local (At d v) m use (m'.freePage p) use'' ∧
      Cleared d v use use'' := by
  have hheld := hun.old _ hpage
  refine ⟨_, hlocal.trans (hlocal.uses.give hheld), fun g hg => ?_, fun g hg => ?_⟩
  · rw [hu.page_unique hg hpage, Function.update_self]
  · rw [Function.update_of_ne]
    · exact hun.rest g hg
    · rintro rfl
      exact hg hpage

/-- Where nothing is mapped there is nothing to return. -/
theorem Unmapped.cleared (hun : Unmapped d v use use') (hnone : ∀ g, use g ≠ .page d v) :
    Cleared d v use use' := ⟨fun g hg => absurd hg (hnone g), hun.rest⟩

/-- `paging_translate`, `paging_unmap` and `pmm_free_page` of what was mapped. -/
theorem Uses.unmapFree_post (hu : Uses m use) (hd : use d = .directory)
    (ho : Owns m.kernelDirectory d (directoryIndex virt)) :
    Post (Tame use) (fun m' => ∃ use', Local (At d (virt / pageSize)) m use m' use' ∧
      Cleared d (virt / pageSize) use use') (do
        let phys ← pagingTranslate m d virt
        let m ← Neox.pagingUnmap m d virt
        return if phys ≠ 0 then m.freePage phys else m) := by
  refine (hu.translate_post hd (.inl ho)).bind fun phys hphys => ?_
  refine (hu.pagingUnmap_post hd ho).bind ?_
  rintro m₁ ⟨use₁, hlocal, hun⟩
  apply Post.pure
  rcases hu.translate hd ho hphys with ⟨h0, hnone⟩ | ⟨h0, hpage, -⟩
  · rw [if_neg (by simp [h0])]
    exact ⟨use₁, hlocal, hun.cleared hnone⟩
  · rw [if_pos h0]
    exact hu.giveUnmapped hpage hlocal hun

end Neox
