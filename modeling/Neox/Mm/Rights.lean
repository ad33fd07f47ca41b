import Neox.Mm.Refinement

/-!
# Effective access rights

The MMU grants write and user access only where both the directory's entry and the page's entry have
the bit. `paging_map` gives a directory entry its bits when it installs the page table, so they are
those of the mapping that found the 4 MiB region empty; later mappings of the region set the bits of
their own page's entry only.
-/

namespace Neox

open Transition

/-- `entry & PAGE_WRITABLE`. -/
def writable (entry : Nat) : Bool := entry / 2 % 2 == 1

/-- The rights the MMU grants on a page that is mapped. -/
structure Rights where
  writable : Bool
  user : Bool
  deriving DecidableEq, Repr

/-- The rights some flags ask for. -/
def Rights.of (flags : Nat) : Rights := ⟨Neox.writable flags, userAccess flags⟩

/-- One of the bits in both entries. -/
def Rights.both (r s : Rights) : Rights := ⟨r.writable && s.writable, r.user && s.user⟩

/-- Every right of `r` is one of `s`. -/
def Rights.le (r s : Rights) : Bool := (!r.writable || s.writable) && (!r.user || s.user)

/-- The effective rights on a page. -/
def Mm.rights (m : Mm) (directory page : Nat) : Option Rights :=
  (m.pte directory page).map fun pte =>
    (Rights.of (m.entry directory (page / 1024))).both (.of pte)

theorem Rights.both_eq_right {r s : Rights} : r.both s = s ↔ s.le r = true := by
  obtain ⟨rw, ru⟩ := r
  obtain ⟨sw, su⟩ := s
  cases rw <;> cases ru <;> cases sw <;> cases su <;> decide

section Bits

variable {entry flags phys : Nat}

theorem writable_eq (entry : Nat) : writable entry = entry.testBit 1 := by
  rw [Nat.testBit_eq_decide_div_mod_eq]
  rfl

theorem userAccess_eq (entry : Nat) : userAccess entry = entry.testBit 2 := by
  rw [Nat.testBit_eq_decide_div_mod_eq]
  rfl

/-- The frame does not matter. -/
theorem Rights.of_mod (entry : Nat) : Rights.of (entry % pageSize) = Rights.of entry := by
  unfold Rights.of Neox.writable userAccess
  simp only [pageSize]
  congr 2
  · omega
  · omega

theorem Rights.of_pageEntry (h : flags < pageSize) :
    Rights.of (pageEntry phys flags) = Rights.of flags := by
  rw [← Rights.of_mod, pageEntry_mod h]

/-- The bits `paging_map` gives a directory entry. -/
theorem Rights.of_table (flags : Nat) :
    Rights.of (pagePresent ||| (flags &&& (pageWritable ||| pageUser))) = Rights.of flags := by
  unfold Rights.of
  simp only [writable_eq, userAccess_eq, Nat.testBit_or, Nat.testBit_and, pagePresent, pageWritable,
    pageUser]
  congr 1
  · cases flags.testBit 1 <;> rfl
  · cases flags.testBit 2 <;> rfl

end Bits

/-! ## The mapping that opened a region -/

/-- For every directory and 4 MiB region, the flags of a mapping. -/
abbrev Openers := Nat → Nat → Nat

/-- A page of the region is mapped. -/
def Reference.inUse (r : Reference) (directory region : Nat) : Bool :=
  (List.range pageDirectoryEntries).any fun j => (r directory (region * 1024 + j)).isSome

/-- A mapping opens its region when no page of the region is mapped. -/
def Openers.apply (r : Reference) (o : Openers) : SpaceEvent → Openers
  | .mapped d page mapping =>
      if r.inUse d (page / 1024) then o
      else Function.update o d (Function.update (o d) (page / 1024) mapping.flags)
  | .created _ | .unmapped _ _ | .destroyed _ => o

/-- The reference and the openers after one more event. -/
def replay (p : Reference × Openers) (e : SpaceEvent) : Reference × Openers :=
  (Reference.apply p.1 e, Openers.apply p.1 p.2 e)

/-- The flags of the mapping that opened each region, the last time it was opened. -/
def openers (es : List SpaceEvent) : Openers := (es.foldl replay (fun _ _ => none, fun _ _ => 0)).2

namespace Directories

variable {es : List SpaceEvent} {m m' : Directories} {op : DirectoryOp} {d i v : Nat} {e : SpaceEvent}

theorem replay_fst (es : List SpaceEvent) (p : Reference × Openers) :
    (es.foldl replay p).1 = es.foldl Reference.apply p.1 := by
  induction es generalizing p with
  | nil => rfl
  | cons e es ih => exact ih _

theorem openers_append (es : List SpaceEvent) (e : SpaceEvent) :
    openers (es ++ [e]) = Openers.apply (reference es) (openers es) e := by
  have hfst := replay_fst es (fun _ _ => none, fun _ _ => 0)
  unfold openers reference
  rw [List.foldl_append, ← hfst]
  rfl

theorem inUse_iff {r : Reference} :
    r.inUse d i = true ↔ ∃ j < pageDirectoryEntries, (r d (i * 1024 + j)).isSome = true := by
  unfold Reference.inUse
  rw [List.any_eq_true]
  constructor
  · rintro ⟨j, hj, hsome⟩
    exact ⟨j, List.mem_range.mp hj, hsome⟩
  · rintro ⟨j, hj, hsome⟩
    exact ⟨j, List.mem_range.mpr hj, hsome⟩

/-! ## Runs -/

/-- A page table is there while its region is in use, with the rights of the mapping that opened
the region. -/
structure Opened (es : List SpaceEvent) (m : Directories) : Prop where
  tracks : Tracks es m
  inUse : ∀ d ∈ m.live, ∀ i < kernelPdeStart, present (m.mm.entry d i) = true →
    (reference es).inUse d i = true
  rights : ∀ d ∈ m.live, ∀ i < kernelPdeStart, present (m.mm.entry d i) = true →
    Rights.of (m.mm.entry d i) = Rights.of (openers es d i)

/-- A mapped page has a page table. -/
theorem Tracks.present_of_inUse (h : Tracks es m) (hd : d ∈ m.live) (hi : i < kernelPdeStart)
    (huse : (reference es).inUse d i = true) : present (m.mm.entry d i) = true := by
  obtain ⟨j, hj, hsome⟩ := inUse_iff.mp huse
  by_contra hno
  have hpage := h.pages d hd (i * 1024 + j) (by rw [page_div hj]; exact hi)
  rw [pte_none (by rw [page_div hj]; simpa using hno)] at hpage
  rw [Option.map_eq_none_iff.mp hpage.symm] at hsome
  cases hsome

/-- A page of another region. -/
theorem inUse_set_other {r : Reference} {page : Nat} {mapping : Option Mapping} {d' : Nat}
    (h : ¬ (d' = d ∧ i = page / 1024)) : (r.set d page mapping).inUse d' i = r.inUse d' i := by
  have hsame : ∀ j < pageDirectoryEntries,
      r.set d page mapping d' (i * 1024 + j) = r d' (i * 1024 + j) := by
    intro j hj
    rw [Reference.set_apply, if_neg]
    rintro ⟨rfl, rfl⟩
    exact h ⟨rfl, (page_div hj).symm⟩
  rw [Bool.eq_iff_iff, inUse_iff, inUse_iff]
  constructor
  · rintro ⟨j, hj, hsome⟩
    exact ⟨j, hj, hsame j hj ▸ hsome⟩
  · rintro ⟨j, hj, hsome⟩
    exact ⟨j, hj, (hsame j hj).symm ▸ hsome⟩

/-- A region of another directory. -/
theorem inUse_other {e : SpaceEvent} (h : e.directory ≠ d) :
    (reference (es ++ [e])).inUse d i = (reference es).inUse d i := by
  unfold Reference.inUse
  rw [reference_append, Reference.apply_other _ _ h]

theorem openers_other {e : SpaceEvent} (h : e.directory ≠ d) :
    openers (es ++ [e]) d = openers es d := by
  rw [openers_append]
  cases e with
  | created | unmapped | destroyed => rfl
  | mapped d' page mapping =>
      simp only [Openers.apply]
      split
      · rfl
      · exact Function.update_of_ne (fun heq => h heq.symm) ..

theorem Opened.kept {mm' : Mm} (h : Opened es m) (hk : Kept userHalf m.live m.mm mm') :
    Opened es { m with mm := mm' } where
  tracks := h.tracks.kept hk
  inUse d hd i hi hp := h.inUse d hd i hi (hk.entries d hd i hi ▸ hp)
  rights d hd i hi hp := by
    have he := hk.entries d hd i hi
    simp only [he] at hp ⊢
    exact h.rights d hd i hi hp

/-- One page changes: the rest is as it was, so the entry of its region is left to check. -/
theorem Opened.remap {mm' : Mm} {page : Nat} {x : Option Nat} {mapping : Option Mapping}
    (h : Opened es m) (htracks : Tracks (es ++ [e]) { m with mm := mm' })
    (hk : Remaps userHalf m.live m.mm mm' d page x)
    (he : (reference es).apply e = (reference es).set d page mapping)
    (hopeners : ∀ d' i, ¬ (d' = d ∧ i = page / 1024) → openers (es ++ [e]) d' i = openers es d' i)
    (hself : present (mm'.entry d (page / 1024)) = true →
      (reference (es ++ [e])).inUse d (page / 1024) = true ∧
        Rights.of (mm'.entry d (page / 1024)) = Rights.of (openers (es ++ [e]) d (page / 1024))) :
    Opened (es ++ [e]) { m with mm := mm' } := by
  refine ⟨htracks, fun d' hd' i hi hp => ?_, fun d' hd' i hi hp => ?_⟩
  · by_cases heq : d' = d ∧ i = page / 1024
    · obtain ⟨rfl, rfl⟩ := heq
      exact (hself hp).1
    · rw [reference_append, he, inUse_set_other heq]
      exact h.inUse d' hd' i hi (hk.entries d' hd' i hi heq ▸ hp)
  · by_cases heq : d' = d ∧ i = page / 1024
    · obtain ⟨rfl, rfl⟩ := heq
      exact (hself hp).2
    · have hentry := hk.entries d' hd' i hi heq
      simp only [hentry] at hp ⊢
      rw [hopeners d' i heq]
      exact h.rights d' hd' i hi hp

/-- A directory appears or goes; the others are as they were. -/
theorem Opened.others {mm' : Mm} {live : List Nat} (h : Opened es m)
    (htracks : Tracks (es ++ [e]) { mm := mm', live := live })
    (hself : e.directory ∈ live → ∀ i < kernelPdeStart,
      present (mm'.entry e.directory i) = false)
    (hothers : ∀ d ∈ live, d ≠ e.directory → d ∈ m.live ∧
      ∀ i < kernelPdeStart, mm'.entry d i = m.mm.entry d i) :
    Opened (es ++ [e]) { mm := mm', live := live } := by
  have hgone : ∀ d ∈ live, ∀ i < kernelPdeStart, present (mm'.entry d i) = true →
      d ≠ e.directory := by
    rintro d hd i hi hp rfl
    rw [hself hd i hi] at hp
    cases hp
  refine ⟨htracks, fun d hd i hi hp => ?_, fun d hd i hi hp => ?_⟩
  · have hne := hgone d hd i hi hp
    obtain ⟨hlive, hentries⟩ := hothers d hd hne
    rw [inUse_other hne.symm]
    exact h.inUse d hlive i hi (hentries i hi ▸ hp)
  · have hne := hgone d hd i hi hp
    obtain ⟨hlive, hentries⟩ := hothers d hd hne
    have hentry := hentries i hi
    simp only [hentry] at hp ⊢
    rw [openers_other hne.symm]
    exact h.rights d hlive i hi hp

theorem Opened.step (h : Opened es m) (hok : m.permitted op = true) (hs : m.step op = some m') :
    Opened (es ++ m.observe op) m' := by
  have htracks := h.tracks.step hok hs
  have hsep := h.tracks.separated
  cases op with
  | create =>
      obtain ⟨created, mm', hm⟩ := create_ok (permitted_create hok)
      obtain ⟨hstep, hobserve⟩ := step_create hm
      rw [hstep] at hs
      rw [hobserve] at htracks ⊢
      rcases hsep.create (Pmm.addressed_of_reaches (permitted_create hok)) hm with ⟨rfl, hk⟩ | ⟨d, rfl, hnew, -, hzero, hk⟩
      · cases hs
        simp only [Option.toList_none, List.map_nil, List.append_nil]
        exact h.kept hk
      · cases hs
        apply h.others htracks
        · intro _ i hi
          show present (mm'.entry d i) = false
          rw [hzero i hi, present_zero]
        · intro d' hd' hne
          have hlive := (List.mem_cons.mp hd').resolve_left hne
          exact ⟨hlive, fun i hi => hk.entries d' hlive i hi⟩
  | map d virt phys flags =>
      obtain ⟨hd, ho, hphys, hflags, hpres, hreach⟩ := permitted_map hok
      obtain ⟨mm', hm⟩ := hsep.pagingMap_ok phys flags hd ho hreach
      unfold Directories.step at hs
      simp only [hm, Option.some.injEq] at hs
      subst hs
      simp only [observe] at htracks ⊢
      rcases hsep.pagingMap hd ho hphys hflags hpres
        (hreach.imp_right Pmm.addressed_of_reaches) hm with
        ⟨hno, hnull, hk⟩ | ⟨htable, hk, hentry⟩
      · rw [hno, hnull, Bool.not_false, Bool.true_and, if_pos (by decide), List.append_nil]
        exact h.kept hk
      · have hmapped : ¬ (!present (m.mm.entry d (directoryIndex virt)) &&
            m.mm.allocPage.1 == 0) = true := by
          simp only [Bool.and_eq_true, Bool.not_eq_true', beq_iff_eq, not_and]
          intro hno
          exact htable.resolve_left (by rw [hno]; decide)
        rw [if_neg hmapped] at htracks ⊢
        have hindex : directoryIndex virt = virt / pageSize / 1024 := directoryIndex_eq
        have hopeners := openers_append es (.mapped d (virt / pageSize) ⟨phys, flags⟩)
        rw [hindex] at hentry
        apply h.remap htracks hk rfl
        · intro d' i hne
          rw [hopeners]
          simp only [Openers.apply]
          split
          · rfl
          · by_cases hdd : d' = d
            · subst hdd
              rw [Function.update_self, Function.update_of_ne fun heq => hne ⟨rfl, heq⟩]
            · rw [Function.update_of_ne hdd]
        · intro hp
          refine ⟨?_, ?_⟩
          · refine inUse_iff.mpr ⟨virt / pageSize % 1024, Nat.mod_lt _ (by decide), ?_⟩
            have hpage : virt / pageSize / 1024 * 1024 + virt / pageSize % 1024 = virt / pageSize := by
              omega
            rw [hpage, reference_append]
            simp [Reference.apply, Reference.set]
          · rw [hopeners]
            simp only [Openers.apply]
            rcases hentry with ⟨hold, hsame⟩ | ⟨hno, -, hbits, -⟩
            · -- The page table was there, and with it a page of the region.
              rw [hsame, if_pos (h.inUse d hd _ (hindex ▸ ho) hold)]
              exact h.rights d hd _ (hindex ▸ ho) hold
            · rw [if_neg, Function.update_self, Function.update_self, ← Rights.of_mod, hbits,
                Rights.of_table]
              intro huse
              have hold := h.tracks.present_of_inUse hd (hindex ▸ ho) huse
              rw [hno] at hold
              cases hold
  | unmap d virt =>
      obtain ⟨hd, ho⟩ := permitted_unmap hok
      obtain ⟨mm', hm⟩ := hsep.pagingUnmap_ok hd ho
      unfold Directories.step at hs
      simp only [hm, Option.some.injEq] at hs
      subst hs
      obtain ⟨hk, hoccupied, hentry⟩ := hsep.pagingUnmap hd ho hm
      have hindex : directoryIndex virt = virt / pageSize / 1024 := directoryIndex_eq
      rw [hindex] at hoccupied hentry ho
      apply h.remap htracks hk rfl
      · intro d' i _
        rw [openers_append]
        rfl
      · intro hp
        refine ⟨?_, ?_⟩
        · obtain ⟨j, hj, hsome⟩ := hoccupied hp
          refine inUse_iff.mpr ⟨j, hj, ?_⟩
          have hpage := htracks.pages d hd (virt / pageSize / 1024 * 1024 + j)
            (by rw [page_div hj]; exact ho)
          simp only at hpage
          rw [hpage, Option.isSome_map] at hsome
          exact hsome
        · rw [openers_append]
          rcases hentry with hsame | hgone
          · rw [hsame] at hp ⊢
            exact h.rights d hd _ ho hp
          · rw [hgone] at hp
            cases hp
  | destroy d =>
      obtain ⟨hd, hdata⟩ := permitted_destroy hok
      obtain ⟨mm', hm, hk⟩ := (hsep.destroy_post hd hdata).returns
      unfold Directories.step at hs
      simp only [hm, Option.some.injEq] at hs
      subst hs
      apply h.others htracks
      · intro hmem
        exact absurd rfl (hsep.nodup.mem_erase_iff.mp hmem).1
      · intro d' hd' _
        exact ⟨List.mem_of_mem_erase hd', fun i hi => hk.entries d' hd' i hi⟩
  | allocPage =>
      cases hs
      simp only [observe, List.append_nil]
      exact h.kept (hsep.allocPage rfl)
  | freePage phys =>
      cases hs
      simp only [observe, List.append_nil]
      exact h.kept (hsep.freePage (permitted_freePage hok))

theorem Opened.rights_eq (h : Opened es m) (hd : d ∈ m.live) (hv : v / 1024 < kernelPdeStart)
    {mapping : Mapping} (hr : reference es d v = some mapping) :
    m.mm.rights d v = some ((Rights.of (openers es d (v / 1024))).both (.of mapping.flags)) := by
  have hpage := h.tracks.pages d hd v hv
  rw [hr, Option.map_some] at hpage
  have hp : present (m.mm.entry d (v / 1024)) = true := by
    by_contra hno
    rw [pte_none (by simpa using hno)] at hpage
    cases hpage
  unfold Mm.rights
  rw [hpage, Option.map_some, h.rights d hd _ hv hp, Mapping.entry,
    Rights.of_pageEntry (h.tracks.flags d v mapping hr)]

theorem opened_of_run {mm : Mm} (hrun : Observed step (fun m op => m.permitted op = true) observe
      { mm := mm, live := [] } es m) : Opened es m := by
  apply hrun.invariant
  · exact ⟨⟨⟨List.nodup_nil, by simp, by simp, by simp⟩, by simp, fun d v mapping hr => by cases hr⟩,
      by simp, by simp⟩
  · intro es m op m' h hok hs
    exact h.step hok hs

end Directories

end Neox
