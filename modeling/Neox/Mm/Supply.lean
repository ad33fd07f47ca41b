import Neox.Mm.Growth

/-!
# What can still be mapped

Mapping a page takes the next free frame and, where its page table is missing, the one after that.
`Supply` is what of memory this depends on, and `Supply.map` says what comes of it; `mapNext_spec` is the
proof that `pmm_alloc_page` and `paging_map` do just that.
-/

namespace Neox

open Pmm Checked

variable {m m₁ m' : Mm} {use use' : Nat → Use} {virt phys flags d f t i : Nat} {l : List Nat}

/-- The frames `pmm_alloc_page` hands out, first to last; none while it is to fail. -/
def Mm.freeFrames (m : Mm) : List Nat :=
  if m.pmm.failAllocations ≠ 0 then []
  else (List.range m.pmm.totalPages).filter fun page => !m.pmm.bitmap page

/-- The frames to come, and which entries of a directory have a page table. -/
structure Supply where
  frames : List Nat
  tables : Nat → Bool

def Mm.supply (m : Mm) (directory : Nat) : Supply where
  frames := m.freeFrames
  tables i := present (m.entry directory i)

/-- What comes of mapping a page that is not mapped. -/
inductive MapOutcome where
  /-- There is no frame. -/
  | refused
  /-- There is no frame for the page table: the page stays unmapped and its frame is gone. -/
  | lost (s : Supply)
  /-- The page table is out of the direct map's reach. -/
  | unreachable
  | mapped (s : Supply)

/-- `pmm_alloc_page`, then `paging_map` of what it returns. -/
def Supply.map (s : Supply) (virt : Nat) : MapOutcome :=
  match s.frames with
  | [] => .refused
  | _ :: frames =>
      if s.tables (directoryIndex virt) then .mapped { s with frames := frames }
      else
        match frames with
        | [] => .lost { s with frames := [] }
        | table :: frames =>
            if table < directFrames then
              .mapped ⟨frames, Function.update s.tables (directoryIndex virt) true⟩
            else .unreachable

/-! ## The next frame -/

theorem mem_freeFrames (hu : Uses m use) (h : f ∈ m.freeFrames) : use f = .free := by
  unfold Mm.freeFrames at h
  split at h
  · cases h
  · obtain ⟨hlt, hclear⟩ := List.mem_filter.mp h
    exact (hu.free_iff f).mpr ⟨List.mem_range.mp hlt, by simpa using hclear⟩

theorem allocPage_nil (h : m.freeFrames = []) :
    ∃ q, m.allocPage = (0, { m with pmm := q }) ∧ SameFree m.pmm q := by
  unfold Mm.allocPage
  rcases hq : pmmAllocPage m.pmm with ⟨phys, q⟩
  rcases nextPage_spec hq with ⟨-, rfl, hsame⟩ | ⟨page, hnext, -⟩
  · exact ⟨q, rfl, hsame⟩
  · unfold Pmm.nextPage at hnext
    unfold Mm.freeFrames at h
    by_cases hfail : m.pmm.failAllocations ≠ 0
    · rw [if_pos hfail] at hnext
      cases hnext
    · rw [if_neg hfail] at hnext h
      rw [← List.head?_filter, h] at hnext
      cases hnext

/-- Without free frames nothing changes. -/
theorem allocPage_exhausted (hfail : m.pmm.failAllocations = 0) (h : m.freeFrames = []) :
    m.allocPage = (0, m) := by
  unfold Mm.freeFrames at h
  rw [if_neg (not_not.mpr hfail)] at h
  have hfind : (List.range m.pmm.totalPages).find? (fun page => !m.pmm.bitmap page) = none := by
    rw [← List.head?_filter, h]
    rfl
  unfold Mm.allocPage pmmAllocPage
  rw [if_neg (not_not.mpr hfail), hfind]

/-- The first frame is taken, and the others stay in order. -/
theorem allocPage_cons (hu : Uses m use) (h : m.freeFrames = f :: l) :
    ∃ q, m.allocPage = (f * pageSize, { m with pmm := q }) ∧ f * pageSize ≠ 0 ∧
      f * pageSize < wordModulus ∧ q.failAllocations = 0 ∧
      ({ m with pmm := q } : Mm).freeFrames = l := by
  have hfree : use f = .free := mem_freeFrames hu (h ▸ List.mem_cons_self ..)
  have hf0 : f ≠ 0 := by
    rintro rfl
    rw [hu.zero] at hfree
    cases hfree
  have hlt : f < m.pmm.totalPages := hu.managed f (by rw [hfree]; simp)
  have hlimit := hu.limit
  have hword : f * pageSize < wordModulus := by
    simp only [pageSize, wordModulus]
    omega
  unfold Mm.freeFrames at h
  by_cases hfail : m.pmm.failAllocations ≠ 0
  · rw [if_pos hfail] at h
    cases h
  rw [if_neg hfail] at h
  have hnodup : (f :: l).Nodup := h ▸ (List.nodup_range).filter _
  have hfind : (List.range m.pmm.totalPages).find? (fun page => !m.pmm.bitmap page) = some f := by
    rw [← List.head?_filter, h]
    rfl
  refine ⟨{ m.pmm with
      bitmap := Function.update m.pmm.bitmap f true
      freePages := (m.pmm.freePages + (wordModulus - 1)) % wordModulus }, ?_, ?_, hword,
      not_not.mp hfail, ?_⟩
  · unfold Mm.allocPage pmmAllocPage
    rw [if_neg hfail, hfind]
    dsimp only
    rw [Nat.mod_eq_of_lt hword]
  · simp only [pageSize]
    omega
  · unfold Mm.freeFrames
    rw [if_neg hfail]
    show (List.range m.pmm.totalPages).filter (fun page => !Function.update m.pmm.bitmap f true page) = l
    have hsplit : (fun page => !Function.update m.pmm.bitmap f true page) =
        fun page => decide (page ≠ f) && !m.pmm.bitmap page := by
      funext page
      by_cases hpage : page = f
      · subst hpage
        simp
      · simp [hpage]
    rw [hsplit, ← List.filter_filter, h, List.filter_cons_of_neg (by simp)]
    apply List.filter_eq_self.mpr
    intro g hg
    have hne : g ≠ f := fun e => (List.nodup_cons.mp hnodup).1 (e ▸ hg)
    simpa using hne

/-! ## `paging_map`, forwards -/

theorem getTable_some (hu : Uses m use) (hd : use d = .directory) (ho : Owns m.kernelDirectory d i)
    (hp : present (m.entry d i) = true) :
    pagingGetTable m d i = .ok (some (m.entry d i / pageSize)) := by
  obtain ⟨table, htable⟩ := hu.getTable hd (.inl ho)
  rcases pagingGetTable_spec htable with ⟨-, rfl, -⟩ | ⟨hnone, -⟩
  · exact htable
  · rw [hp] at hnone
    cases hnone

theorem getTable_none (hp : present (m.entry d i) = false) : pagingGetTable m d i = .ok none := by
  unfold pagingGetTable
  simp only [hp]
  rfl

/-- The page table is there. -/
theorem pagingMap_table (phys flags : Nat) (hu : Uses m use) (hd : use d = .directory)
    (ho : Owns m.kernelDirectory d (directoryIndex virt))
    (hp : present (m.entry d (directoryIndex virt)) = true) :
    ∃ m', pagingMap m d virt phys flags = .ok m' ∧ m'.pmm = m.pmm ∧
      ∀ i, m'.entry d i = m.entry d i := by
  have htable := hu.table d _ hd ho hp
  refine ⟨(m.setEntry (m.entry d (directoryIndex virt) / pageSize) (tableIndex virt)
    (pageEntry phys flags)).record (.map d virt false), ?_, rfl, fun i => ?_⟩
  · unfold pagingMap
    rw [getTable_some hu hd ho hp]
    rfl
  · rw [Mm.record_entry, Mm.setEntry_entry_of_ne]
    intro heq
    rw [← heq, hd] at htable
    cases htable

/-- There is no frame for the page table. -/
theorem pagingMap_lost (phys flags : Nat) (hp : present (m.entry d (directoryIndex virt)) = false)
    (hfail : m.pmm.failAllocations = 0) (hnone : m.freeFrames = []) :
    pagingMap m d virt phys flags = .ok m := by
  unfold pagingMap pagingAllocTable
  rw [getTable_none hp, ok_bind, allocPage_exhausted hfail hnone]
  rfl

/-- The next frame becomes the page table. -/
theorem pagingMap_install (phys flags : Nat) (hu : Uses m use) (hd : use d = .directory)
    (hp : present (m.entry d (directoryIndex virt)) = false) (hnext : m.freeFrames = t :: l)
    (ht : t < directFrames) :
    ∃ m', pagingMap m d virt phys flags = .ok m' ∧ m'.freeFrames = l ∧
      ∀ i, present (m'.entry d i) = (decide (i = directoryIndex virt) || present (m.entry d i)) := by
  obtain ⟨q, halloc, hne, hlt, -, hrest⟩ := allocPage_cons hu hnext
  have hdirect : direct (t * pageSize) = .ok t := by
    rw [direct_eq_ok hlt]
    simp only [pageSize, bootstrapMapSize, directFrames] at *
    omega
  have hfree : use t = .free := mem_freeFrames hu (hnext ▸ List.mem_cons_self ..)
  have hdt : d ≠ t := by
    rintro rfl
    rw [hd] at hfree
    cases hfree
  obtain ⟨hentry, hpresent, -⟩ := tableEntry_spec flags ht
  refine ⟨(((({ m with pmm := q } : Mm).zeroFrame t).setEntry d (directoryIndex virt)
    (pageEntry (t * pageSize) (pagePresent ||| (flags &&& (pageWritable ||| pageUser))))).setEntry t
      (tableIndex virt) (pageEntry phys flags)).record (.map d virt true), ?_, ?_, fun i => ?_⟩
  · unfold pagingMap pagingAllocTable
    rw [getTable_none hp, ok_bind, halloc]
    dsimp only
    rw [if_neg hne, hdirect]
    rfl
  · exact hrest
  · rw [Mm.record_entry, Mm.setEntry_entry_of_ne _ hdt, Mm.setEntry_entry _ _ _ _ _ hentry]
    by_cases hi : i = directoryIndex virt
    · rw [if_pos ⟨rfl, hi⟩, hpresent, hi]
      simp
    · rw [if_neg fun h => hi h.2, Mm.zeroFrame_entry, if_neg hdt]
      simp only [hi, decide_false, Bool.false_or]
      rfl

/-- The next frame is out of reach. -/
theorem pagingMap_unreachable (hu : Uses m use)
    (hp : present (m.entry d (directoryIndex virt)) = false) (hnext : m.freeFrames = t :: l)
    (ht : ¬ t < directFrames) :
    pagingMap m d virt phys flags = .error (.wild (t * pageSize)) := by
  obtain ⟨q, halloc, hne, hlt, -, -⟩ := allocPage_cons hu hnext
  have hdirect : direct (t * pageSize) = .error (.wild (t * pageSize)) := by
    cases h : direct (t * pageSize) with
    | ok t' =>
        have hreach := ((direct_eq_ok hlt).mp h).1
        simp only [pageSize, bootstrapMapSize, directFrames] at *
        omega
    | error e =>
        unfold direct at h
        split at h
        · cases h
        · cases h
          rfl
  unfold pagingMap pagingAllocTable
  rw [getTable_none hp, ok_bind, halloc]
  dsimp only
  rw [if_neg hne, hdirect]
  rfl

/-! ## The next page -/

/-- What `pmm_alloc_page` and `paging_map` do where nothing is mapped. -/
structure MapsNext (m : Mm) (use : Nat → Use) (d virt flags : Nat) (m' : Mm) (use' : Nat → Use) : Prop where
  step : ∃ phys m₁, m.allocPage = (phys, m₁) ∧ phys ≠ 0 ∧ pagingMap m₁ d virt phys flags = .ok m'
  change : Local (At d (virt / pageSize)) m use m' use'

/-- `Supply.map` is what `pmm_alloc_page` and `paging_map` do. -/
theorem mapNext_spec (hu : Uses m use) (hd : use d = .directory)
    (ho : Owns m.kernelDirectory d (directoryIndex virt)) (hflags : flags < pageSize)
    (hpres : present flags = true) (hnone : ∀ g, use g ≠ .page d (virt / pageSize)) :
    match (m.supply d).map virt with
    | .refused => ∃ q, m.allocPage = (0, { m with pmm := q }) ∧ SameFree m.pmm q
    | .lost s => ∃ m' use' f, MapsNext m use d virt flags m' use' ∧ m'.supply d = s ∧
        use f = .free ∧ use' = Function.update use f .held ∧ ∀ g, use' g ≠ .page d (virt / pageSize)
    | .unreachable => ∃ phys m₁ table, m.allocPage = (phys, m₁) ∧ phys ≠ 0 ∧
        pagingMap m₁ d virt phys flags = .error (.wild table)
    | .mapped s => ∃ m' use' f, MapsNext m use d virt flags m' use' ∧ m'.supply d = s ∧
        use f = .free ∧ use' f = .page d (virt / pageSize) ∧ ∀ g, g ≠ f → use' g = use g ∨
          use g = .free ∧ use' g = .table d (virt / pageSize / 1024) := by
  unfold Supply.map
  cases hframes : m.freeFrames with
  | nil =>
      simp only [Mm.supply, hframes]
      exact allocPage_nil hframes
  | cons f l =>
      obtain ⟨q, halloc, hne, hlt, hfail, hrest⟩ := allocPage_cons hu hframes
      have hdiv : f * pageSize / pageSize = f := Nat.mul_div_cancel _ (by decide)
      obtain ⟨f', hfree, hf', -, -, htake⟩ :
          ∃ f', use f' = .free ∧ f * pageSize = f' * pageSize ∧ f * pageSize ≠ 0 ∧
            f * pageSize < wordModulus ∧ Local (At d (virt / pageSize)) m use { m with pmm := q }
              (Function.update use f' .held) := by
        rcases hu.take (R := At d (virt / pageSize)) halloc with ⟨hzero, -⟩ | h
        · exact absurd hzero hne
        · exact h
      obtain rfl : f = f' := Nat.eq_of_mul_eq_mul_right (by decide) hf'
      have hd₁ : Function.update use f .held d = .directory := htake.directory.mpr hd
      have hheld : Function.update use f .held (f * pageSize / pageSize) = .held := by
        rw [hdiv, Function.update_self]
      have ho₁ : Owns ({ m with pmm := q } : Mm).kernelDirectory d (directoryIndex virt) := ho
      have hnone₁ : ∀ g, Function.update use f .held g ≠ .page d (virt / pageSize) := by
        intro g
        by_cases hg : g = f
        · rw [hg, Function.update_self]
          simp
        · rw [Function.update_of_ne hg]
          exact hnone g
      -- A mapping that has been made.
      have hmade : ∀ {m₂}, pagingMap { m with pmm := q } d virt (f * pageSize) flags = .ok m₂ →
          present (m₂.entry d (directoryIndex virt)) = true →
          ∃ use', MapsNext m use d virt flags m₂ use' ∧ use' f = .page d (virt / pageSize) ∧
            ∀ g, g ≠ f → use' g = use g ∨
              use g = .free ∧ use' g = .table d (virt / pageSize / 1024) := by
        intro m₂ hmap hpresent
        obtain ⟨use', hlocal, ⟨-, habsent, hfail⟩ | ⟨hmapped, -⟩⟩ :=
          htake.uses.pagingMap hd₁ ho₁ hheld hlt hflags hpres hmap
        · have hframes₂ := (allocPage_addressed hfail).1
          unfold Mm.entry at habsent hpresent
          rw [hframes₂, habsent] at hpresent
          cases hpresent
        · have hnew := hmapped.new
          rw [hdiv] at hnew
          refine ⟨use', ⟨⟨_, _, halloc, hne, hmap⟩, htake.trans hlocal⟩, hnew, fun g hg => ?_⟩
          have hsame : Function.update use f .held g = use g := Function.update_of_ne hg _ _
          have hcase := hmapped.rest g (by rwa [hdiv]) (hnone₁ g)
          rwa [hsame] at hcase
      cases htable : present (m.entry d (directoryIndex virt)) with
      | true =>
          simp only [Mm.supply, hframes, htable, if_true]
          obtain ⟨m₂, hmap, hpmm, hentries⟩ := pagingMap_table (f * pageSize) flags
            htake.uses hd₁ ho₁ htable
          obtain ⟨use', hnext, hnew, hothers⟩ := hmade hmap (by rw [hentries]; exact htable)
          refine ⟨m₂, use', f, hnext, ?_, hfree, hnew, hothers⟩
          have hframes₂ : m₂.freeFrames = l := by
            rw [← hrest]
            unfold Mm.freeFrames
            rw [hpmm]
          rw [Supply.mk.injEq]
          refine ⟨hframes₂, funext fun i => ?_⟩
          rw [hentries]
          rfl
      | false =>
          cases hrest' : l with
          | nil =>
              rw [hrest'] at hrest
              simp only [Mm.supply, hframes, htable, Bool.false_eq_true, if_false, hrest']
              have hmap := pagingMap_lost (m := { m with pmm := q }) (d := d) (f * pageSize)
                flags htable hfail hrest
              obtain ⟨use', hlocal, ⟨rfl, -, -⟩ | ⟨hmapped, table, htrace⟩⟩ :=
                htake.uses.pagingMap hd₁ ho₁ hheld hlt hflags hpres hmap
              · refine ⟨_, _, f, ⟨⟨_, _, halloc, hne, hmap⟩, htake.trans hlocal⟩, ?_, hfree, rfl, hnone₁⟩
                rw [Supply.mk.injEq]
                exact ⟨hrest, rfl⟩
              · have hlen := congrArg List.length htrace
                simp at hlen
          | cons t l' =>
              rw [hrest'] at hrest
              simp only [Mm.supply, hframes, htable, Bool.false_eq_true, if_false, hrest']
              by_cases ht : t < directFrames
              · rw [if_pos ht]
                obtain ⟨m₂, hmap, hframes₂, hentries⟩ := pagingMap_install (f * pageSize)
                  flags htake.uses hd₁ htable hrest ht
                obtain ⟨use', hnext, hnew, hothers⟩ := hmade hmap (by rw [hentries]; simp)
                refine ⟨m₂, use', f, hnext, ?_, hfree, hnew, hothers⟩
                rw [Supply.mk.injEq]
                refine ⟨hframes₂, funext fun i => ?_⟩
                rw [hentries, Function.update_apply]
                by_cases hi : i = directoryIndex virt
                · simp [hi]
                · simp only [hi, decide_false, Bool.false_or, if_false]
                  rfl
              · rw [if_neg ht]
                exact ⟨_, _, _, halloc, hne, pagingMap_unreachable htake.uses htable hrest ht⟩

end Neox
