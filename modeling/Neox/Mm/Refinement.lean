import Neox.Mm.Directories

/-!
# Address spaces as tables of pages

Runs of directories being created, mapped into, unmapped from and destroyed, with the allocator's
other clients in between. A directory is for one thing: a table from pages to mappings. `reference`
is that table, kept by events; `paging_translate` reads nothing else.
-/

namespace Neox

open Transition Checked

/-! ## The reference -/

/-- What `paging_map` was given for a page. -/
structure Mapping where
  phys : Nat
  flags : Nat
  deriving DecidableEq, Repr

inductive SpaceEvent where
  | created (directory : Nat)
  | mapped (directory page : Nat) (mapping : Mapping)
  | unmapped (directory page : Nat)
  | destroyed (directory : Nat)
  deriving DecidableEq, Repr

/-- The directory an event is about. -/
def SpaceEvent.directory : SpaceEvent → Nat
  | .created d | .mapped d _ _ | .unmapped d _ | .destroyed d => d

/-- For every directory and page, the mapping. -/
abbrev Reference := Nat → Nat → Option Mapping

/-- One page changes. -/
def Reference.set (r : Reference) (directory page : Nat) (mapping : Option Mapping) : Reference :=
  Function.update r directory (Function.update (r directory) page mapping)

def Reference.apply (r : Reference) : SpaceEvent → Reference
  | .created d | .destroyed d => Function.update r d fun _ => none
  | .mapped d page mapping => r.set d page (some mapping)
  | .unmapped d page => r.set d page none

def reference (es : List SpaceEvent) : Reference := es.foldl Reference.apply fun _ _ => none

/-! ## Runs -/

/-- Memory, and the process directories that exist. -/
structure Directories where
  mm : Mm
  live : List Nat

inductive DirectoryOp where
  | create
  | map (directory virt phys flags : Nat)
  | unmap (directory virt : Nat)
  | destroy (directory : Nat)
  /-- Another client of the allocator. -/
  | allocPage
  | freePage (phys : Nat)
  deriving DecidableEq, Repr

/-- The directory an operation works on. -/
def DirectoryOp.directory : DirectoryOp → Option Nat
  | .map d _ _ _ | .unmap d _ | .destroy d => some d
  | .create | .allocPage | .freePage _ => none

namespace Directories

/-- The frames of the present ones of the first `n` entries of a directory or page table. -/
def referred (mm : Mm) (f n : Nat) : List Nat :=
  ((List.range n).filter fun i => present (mm.entry f i)).map fun i => mm.entry f i / pageSize

/-- The page tables of the user half. -/
def tables (m : Directories) (d : Nat) : List Nat := referred m.mm d kernelPdeStart

/-- The directories and their page tables. -/
def structural (m : Directories) : List Nat := m.live ++ m.live.flatMap m.tables

/-- The frames the user half maps. -/
def mapped (m : Directories) (d : Nat) : List Nat :=
  (m.tables d).flatMap fun t => referred m.mm t pageDirectoryEntries

def step (m : Directories) : DirectoryOp → Option Directories
  | .create => match pagingCreateDirectory m.mm with
      | .ok (some d, mm) => some { mm := mm, live := d :: m.live }
      | .ok (none, mm) => some { m with mm := mm }
      | .error _ => none
  | .map d virt phys flags => match pagingMap m.mm d virt phys flags with
      | .ok mm => some { m with mm := mm }
      | .error _ => none
  | .unmap d virt => match pagingUnmap m.mm d virt with
      | .ok mm => some { m with mm := mm }
      | .error _ => none
  | .destroy d => match pagingDestroyDirectory m.mm d with
      | .ok mm => some { mm := mm, live := m.live.erase d }
      | .error _ => none
  | .allocPage => some { m with mm := m.mm.allocPage.2 }
  | .freePage phys => some { m with mm := m.mm.freePage phys }

/-- The operations are on the user half of directories that exist; a directory or page table that is
allocated is reached through the direct map; and what is freed, by a client or with the directory
that maps it, is neither of the two. -/
def permitted (m : Directories) : DirectoryOp → Bool
  | .create => m.mm.pmm.reaches
  | .map d virt phys flags => m.live.contains d && decide (directoryIndex virt < kernelPdeStart) &&
      decide (phys < wordModulus) && decide (flags < pageSize) && present flags &&
      (present (m.mm.entry d (directoryIndex virt)) || m.mm.pmm.reaches)
  | .unmap d virt => m.live.contains d && decide (directoryIndex virt < kernelPdeStart)
  | .destroy d => m.live.contains d && (m.mapped d).all fun f => !m.structural.contains f
  | .allocPage => true
  | .freePage phys => !m.structural.contains (phys / pageSize)

/-- What an operation does to the address spaces. `paging_map` does nothing when it needs a page
table and `pmm_alloc_page` returns `NULL`. -/
def observe (m : Directories) : DirectoryOp → List SpaceEvent
  | .create => match pagingCreateDirectory m.mm with
      | .ok (some d, _) => [.created d]
      | _ => []
  | .map d virt phys flags =>
      if !present (m.mm.entry d (directoryIndex virt)) && m.mm.allocPage.1 == 0 then []
      else [.mapped d (virt / pageSize) ⟨phys, flags⟩]
  | .unmap d virt => [.unmapped d (virt / pageSize)]
  | .destroy d => [.destroyed d]
  | .allocPage | .freePage _ => []

/-- What `paging_translate` returns where the reference has `mapping`. -/
def translated (mapping : Option Mapping) (virt : Nat) : Nat :=
  match mapping with
  | some mapping => frameMask mapping.phys + virt % pageSize
  | none => 0

/-- `paging_translate` computes the reference. -/
def Translates (es : List SpaceEvent) (m : Directories) : Prop :=
  ∀ d ∈ m.live, ∀ virt < kernelVirtBase,
    pagingTranslate m.mm d virt = .ok (translated (reference es d (virt / pageSize)) virt)

variable {es : List SpaceEvent} {m m' : Directories} {op : DirectoryOp} {d v f n : Nat} {mm mm' : Mm}

theorem mem_referred : f ∈ referred mm d n ↔
    ∃ i < n, present (mm.entry d i) = true ∧ mm.entry d i / pageSize = f := by
  unfold referred
  simp only [List.mem_map, List.mem_filter, List.mem_range, and_assoc]

theorem mem_structural : f ∈ m.structural ↔ Structural userHalf m.mm m.live f := by
  unfold structural Structural tables userHalf
  simp only [List.mem_append, List.mem_flatMap, mem_referred]

/-- The executable condition on `paging_destroy_directory`. -/
theorem mapsData_of_all (h : ((m.mapped d).all fun f => !m.structural.contains f) = true) :
    MapsData userHalf m.mm m.live d := by
  intro v e ho hpte hf
  unfold Mm.pte at hpte
  simp only [] at hpte
  split at hpte
  · next hp =>
    split at hpte
    · next hp' =>
      cases hpte
      have hmem : m.mm.entry (m.mm.entry d (v / 1024) / pageSize) (v % 1024) / pageSize ∈
          m.mapped d := by
        unfold mapped tables
        rw [List.mem_flatMap]
        exact ⟨_, mem_referred.mpr ⟨_, ho, hp, rfl⟩,
          mem_referred.mpr ⟨_, Nat.mod_lt _ (by decide), hp', rfl⟩⟩
      have hnot := List.all_eq_true.mp h _ hmem
      rw [List.contains_iff_mem.mpr (mem_structural.mpr hf)] at hnot
      cases hnot
    · cases hpte
  · cases hpte

/-! ## What a run keeps -/

/-- The reference's entry for a page. -/
def Mapping.entry (mapping : Mapping) : Nat := pageEntry mapping.phys mapping.flags

/-- Every page's entry is that of the reference. -/
structure Tracks (es : List SpaceEvent) (m : Directories) : Prop where
  separated : Separated userHalf m.mm m.live
  pages : ∀ d ∈ m.live, ∀ v, v / 1024 < kernelPdeStart →
    m.mm.pte d v = (reference es d v).map Mapping.entry
  flags : ∀ d v mapping, reference es d v = some mapping → mapping.flags < pageSize

theorem reference_append (es : List SpaceEvent) (e : SpaceEvent) :
    reference (es ++ [e]) = (reference es).apply e := by
  unfold reference
  rw [List.foldl_append]
  rfl

/-- The top of the user half in pages. -/
theorem userHalf_of_lt {virt : Nat} (h : virt < kernelVirtBase) :
    directoryIndex virt < kernelPdeStart := by
  simp only [directoryIndex, kernelVirtBase, kernelPdeStart] at *
  omega

theorem Tracks.translates (h : Tracks es m) : Translates es m := by
  intro d hd virt hvirt
  have ho := userHalf_of_lt hvirt
  rw [h.separated.translate hd ho, h.pages d hd _ (directoryIndex_eq ▸ ho)]
  cases hr : reference es d (virt / pageSize) with
  | none => rfl
  | some mapping =>
      have hflags := h.flags d _ mapping hr
      simp only [Option.map_some, Option.getD_some, translated, Mapping.entry]
      rw [frameMask, pageEntry_div hflags]
      rfl

theorem Reference.set_apply (r : Reference) (d page : Nat) (mapping : Option Mapping) (d' v : Nat) :
    r.set d page mapping d' v = if d' = d ∧ v = page then mapping else r d' v := by
  unfold Reference.set
  by_cases hd : d' = d
  · subst hd
    rw [Function.update_self, Function.update_apply]
    simp
  · rw [Function.update_of_ne hd, if_neg fun h => hd h.1]

theorem Tracks.kept (h : Tracks es m) (hk : Kept userHalf m.live m.mm mm') :
    Tracks es { m with mm := mm' } where
  separated := hk.separated
  pages d hd v ho := (hk.pages d hd v ho).trans (h.pages d hd v ho)
  flags := h.flags

/-- The page that the event is about gets the entry of its new mapping. -/
theorem Tracks.remap {page : Nat} (h : Tracks es m) (mapping : Option Mapping)
    (hk : Remaps userHalf m.live m.mm mm' d page (mapping.map Mapping.entry))
    (hflags : ∀ mapping' ∈ mapping, mapping'.flags < pageSize) {e : SpaceEvent}
    (he : (reference es).apply e = (reference es).set d page mapping) :
    Tracks (es ++ [e]) { m with mm := mm' } := by
  refine ⟨hk.separated, fun d' hd' v ho => ?_, fun d' v mapping' hr => ?_⟩
  · rw [reference_append, he, Reference.set_apply]
    by_cases heq : d' = d ∧ v = page
    · obtain ⟨rfl, rfl⟩ := heq
      rw [if_pos ⟨rfl, rfl⟩]
      exact hk.here
    · rw [if_neg heq]
      exact (hk.others d' hd' v ho heq).trans (h.pages d' hd' v ho)
  · rw [reference_append, he, Reference.set_apply] at hr
    split at hr
    · exact hflags mapping' hr
    · exact h.flags d' v mapping' hr

/-- A directory whose pages are all gone. -/
theorem Tracks.cleared {live : List Nat} {e : SpaceEvent} (h : Tracks es m)
    (hsep : Separated userHalf mm' live)
    (he : (reference es).apply e = Function.update (reference es) d fun _ => none)
    (hself : ∀ v, v / 1024 < kernelPdeStart → d ∈ live → mm'.pte d v = none)
    (hothers : ∀ d' ∈ live, d' ≠ d → d' ∈ m.live ∧
      ∀ v, v / 1024 < kernelPdeStart → mm'.pte d' v = m.mm.pte d' v) :
    Tracks (es ++ [e]) { mm := mm', live := live } := by
  refine ⟨hsep, fun d' hd' v ho => ?_, fun d' v mapping' hr => ?_⟩
  · rw [reference_append, he]
    by_cases heq : d' = d
    · subst heq
      rw [Function.update_self]
      exact hself v ho hd'
    · rw [Function.update_of_ne heq]
      obtain ⟨hlive, hpages⟩ := hothers d' hd' heq
      exact (hpages v ho).trans (h.pages d' hlive v ho)
  · rw [reference_append, he] at hr
    by_cases heq : d' = d
    · subst heq
      rw [Function.update_self] at hr
      cases hr
    · rw [Function.update_of_ne heq] at hr
      exact h.flags d' v mapping' hr

/-- What the conditions on an operation say. -/
theorem permitted_create (h : m.permitted .create = true) : m.mm.pmm.reaches = true := by
  simpa only [permitted] using h

theorem permitted_map {virt phys flags : Nat} (h : m.permitted (.map d virt phys flags) = true) :
    d ∈ m.live ∧ directoryIndex virt < kernelPdeStart ∧ phys < wordModulus ∧ flags < pageSize ∧
      present flags = true ∧
      (present (m.mm.entry d (directoryIndex virt)) = true ∨ m.mm.pmm.reaches = true) := by
  simpa [permitted, and_assoc] using h

theorem permitted_unmap {virt : Nat} (h : m.permitted (.unmap d virt) = true) :
    d ∈ m.live ∧ directoryIndex virt < kernelPdeStart := by
  simpa [permitted] using h

theorem permitted_destroy (h : m.permitted (.destroy d) = true) :
    d ∈ m.live ∧ MapsData userHalf m.mm m.live d := by
  obtain ⟨hd, hdata⟩ := Bool.and_eq_true_iff.mp h
  exact ⟨List.contains_iff_mem.mp hd, mapsData_of_all hdata⟩

theorem permitted_freePage {phys : Nat} (h : m.permitted (.freePage phys) = true) :
    ¬ Structural userHalf m.mm m.live (phys / pageSize) := by
  intro hf
  have hmem := mem_structural.mpr hf
  have hnot : phys / pageSize ∉ m.structural := by simpa [permitted] using h
  exact hnot hmem

theorem step_create {created : Option Nat} (hm : pagingCreateDirectory m.mm = .ok (created, mm')) :
    m.step .create = some { mm := mm', live := created.toList ++ m.live } ∧
      m.observe .create = created.toList.map .created := by
  unfold step observe
  rw [hm]
  cases created with
  | none => exact ⟨rfl, rfl⟩
  | some d => exact ⟨rfl, rfl⟩

/-- Nothing stops an operation. -/
theorem Tracks.progress (h : Tracks es m) (hok : m.permitted op = true) :
    ∃ m', m.step op = some m' := by
  cases op with
  | create =>
      obtain ⟨created, mm', hm⟩ := create_ok (permitted_create hok)
      exact ⟨_, (step_create hm).1⟩
  | map d virt phys flags =>
      obtain ⟨hd, ho, -, -, -, hreach⟩ := permitted_map hok
      obtain ⟨mm', hm⟩ := h.separated.pagingMap_ok phys flags hd ho hreach
      unfold step
      simp only [hm]
      exact ⟨_, rfl⟩
  | unmap d virt =>
      obtain ⟨hd, ho⟩ := permitted_unmap hok
      obtain ⟨mm', hm⟩ := h.separated.pagingUnmap_ok hd ho
      unfold step
      simp only [hm]
      exact ⟨_, rfl⟩
  | destroy d =>
      obtain ⟨hd, hdata⟩ := permitted_destroy hok
      obtain ⟨mm', hm, -⟩ := (h.separated.destroy_post hd hdata).returns
      unfold step
      simp only [hm]
      exact ⟨_, rfl⟩
  | allocPage | freePage => exact ⟨_, rfl⟩

theorem Tracks.step (h : Tracks es m) (hok : m.permitted op = true) (hs : m.step op = some m') :
    Tracks (es ++ observe m op) m' := by
  cases op with
  | create =>
      obtain ⟨created, mm', hm⟩ := create_ok (permitted_create hok)
      obtain ⟨hstep, hobserve⟩ := step_create hm
      rw [hstep] at hs
      rw [hobserve]
      rcases h.separated.create (Pmm.addressed_of_reaches (permitted_create hok)) hm with ⟨rfl, hk⟩ | ⟨d, rfl, hnew, hsep, hzero, hk⟩
      · cases hs
        simp only [Option.toList_none, List.map_nil, List.append_nil]
        exact h.kept hk
      · cases hs
        apply h.cleared hsep rfl
        · intro v ho _
          apply pte_none
          rw [hzero _ ho, present_zero]
        · intro d' hd' hne
          have hlive := (List.mem_cons.mp hd').resolve_left hne
          exact ⟨hlive, hk.pages d' hlive⟩
  | map d virt phys flags =>
      obtain ⟨hd, ho, hphys, hflags, hpres, hreach⟩ := permitted_map hok
      obtain ⟨mm', hm⟩ := h.separated.pagingMap_ok phys flags hd ho hreach
      unfold Directories.step at hs
      simp only [hm, Option.some.injEq] at hs
      subst hs
      simp only [observe]
      rcases h.separated.pagingMap hd ho hphys hflags hpres
        (hreach.imp_right Pmm.addressed_of_reaches) hm with
        ⟨hno, hnull, hk⟩ | ⟨htable, hk, -⟩
      · rw [hno, hnull, Bool.not_false, Bool.true_and, if_pos (by decide), List.append_nil]
        exact h.kept hk
      · rw [if_neg]
        · apply h.remap (some ⟨phys, flags⟩) hk _ rfl
          rintro mapping' hmapping
          cases hmapping
          exact hflags
        · simp only [Bool.and_eq_true, Bool.not_eq_true', beq_iff_eq, not_and]
          intro hno
          exact htable.resolve_left (by rw [hno]; decide)
  | unmap d virt =>
      obtain ⟨hd, ho⟩ := permitted_unmap hok
      obtain ⟨mm', hm⟩ := h.separated.pagingUnmap_ok hd ho
      unfold Directories.step at hs
      simp only [hm, Option.some.injEq] at hs
      subst hs
      obtain ⟨hk, -, -⟩ := h.separated.pagingUnmap hd ho hm
      exact h.remap none hk (by simp) rfl
  | destroy d =>
      obtain ⟨hd, hdata⟩ := permitted_destroy hok
      obtain ⟨mm', hm, hk⟩ := (h.separated.destroy_post hd hdata).returns
      unfold Directories.step at hs
      simp only [hm, Option.some.injEq] at hs
      subst hs
      apply h.cleared hk.separated rfl
      · intro v _ hmem
        exact absurd rfl (h.separated.nodup.mem_erase_iff.mp hmem).1
      · intro d' hd' _
        exact ⟨List.mem_of_mem_erase hd', hk.pages d' hd'⟩
  | allocPage =>
      cases hs
      simp only [observe, List.append_nil]
      exact h.kept (h.separated.allocPage rfl)
  | freePage phys =>
      cases hs
      simp only [observe, List.append_nil]
      exact h.kept (h.separated.freePage (permitted_freePage hok))

/-! ## Other directories -/

theorem Reference.apply_other (r : Reference) (e : SpaceEvent) (h : e.directory ≠ d) :
    r.apply e d = r d := by
  cases e with
  | created | destroyed => exact Function.update_of_ne h.symm ..
  | mapped | unmapped => exact Function.update_of_ne h.symm ..

theorem reference_other {fs : List SpaceEvent} (h : ∀ e ∈ fs, e.directory ≠ d) :
    reference (es ++ fs) d = reference es d := by
  induction fs generalizing es with
  | nil => rw [List.append_nil]
  | cons e fs ih =>
      rw [List.append_cons, ih fun e' he' => h e' (List.mem_cons_of_mem _ he'), reference_append,
        Reference.apply_other _ _ (h e List.mem_cons_self)]

/-- An operation's events are about its directory, or about one that did not exist. -/
theorem Tracks.observe_other (h : Tracks es m) (hok : m.permitted op = true) (hd : d ∈ m.live)
    (hne : op.directory ≠ some d) : ∀ e ∈ m.observe op, e.directory ≠ d := by
  intro e he
  cases op with
  | create =>
      obtain ⟨created, mm', hm⟩ := create_ok (permitted_create hok)
      rw [(step_create hm).2] at he
      rcases h.separated.create (Pmm.addressed_of_reaches (permitted_create hok)) hm with ⟨rfl, -⟩ | ⟨d', rfl, hnew, -⟩
      · cases he
      · obtain rfl : e = .created d' := by simpa using he
        rintro rfl
        exact hnew hd
  | map d' virt phys flags =>
      have hdir : e.directory = d' := by
        simp only [observe] at he
        split at he
        · cases he
        · rw [List.mem_singleton.mp he]
          rfl
      rw [hdir]
      exact fun heq => hne (by rw [← heq]; rfl)
  | unmap d' _ | destroy d' =>
      rw [List.mem_singleton.mp he]
      exact fun heq => hne (by rw [← heq]; rfl)
  | allocPage | freePage => cases he

/-- In every run `paging_translate` computes the reference for every directory that exists; every
operation succeeds, and it changes no translation of a directory it does not name. -/
theorem address_spaces_refine {mm : Mm} (hrun : Observed step (fun m op => m.permitted op = true)
      observe { mm := mm, live := [] } es m) :
    Translates es m ∧ ∀ op, m.permitted op = true → ∃ m', m.step op = some m' ∧
      Translates (es ++ m.observe op) m' ∧
      ∀ d ∈ m.live, d ∈ m'.live → op.directory ≠ some d → ∀ virt < kernelVirtBase,
        pagingTranslate m'.mm d virt = pagingTranslate m.mm d virt := by
  have hinv : Tracks es m := by
    apply hrun.invariant
    · exact ⟨⟨List.nodup_nil, by simp, by simp, by simp⟩, by simp, fun d v mapping hr => by cases hr⟩
    · intro es m op m' h hok hs
      exact h.step hok hs
  refine ⟨hinv.translates, fun op hok => ?_⟩
  obtain ⟨m', hs⟩ := hinv.progress hok
  have htranslates := (hinv.step hok hs).translates
  refine ⟨m', hs, htranslates, fun d hd hd' hne virt hvirt => ?_⟩
  rw [htranslates d hd' virt hvirt, hinv.translates d hd virt hvirt,
    reference_other (hinv.observe_other hok hd hne)]

/-- Sixteen pages of memory, the first four of them taken. -/
def sample : Mm where
  pmm :=
    { totalPages := 16, bitmap := fun page => decide (page < 4), freePages := 12
      failAllocations := 0 }
  frames _ := Bytes.zero
  kernelDirectory := 1
  heap := []
  heapEnd := 0
  stackSlots _ := false
  trace := []

set_option maxRecDepth 4000 in
/-- Two directories map a page at the same address; the first unmaps it, the second is destroyed. -/
theorem address_spaces_refine_two :
    ∃ m, Observed step (fun m op => m.permitted op = true) observe { mm := sample, live := [] }
        [.created 4, .mapped 4 0x400 ⟨0x5000, 7⟩, .created 7, .mapped 7 0x400 ⟨0x8000, 5⟩,
          .unmapped 4 0x400, .destroyed 7] m ∧ m.live = [4] ∧
      Translates [.created 4, .mapped 4 0x400 ⟨0x5000, 7⟩, .created 7, .mapped 7 0x400 ⟨0x8000, 5⟩,
        .unmapped 4 0x400, .destroyed 7] m := by
  have h : (watch step (fun m op => m.permitted op = true) observe { mm := sample, live := [] }
      [.create, .allocPage, .map 4 0x400000 0x5000 7, .create, .allocPage, .map 7 0x400000 0x8000 5,
        .unmap 4 0x400000, .destroy 7]).map (fun p => (p.1, p.2.live)) =
      some ([.created 4, .mapped 4 0x400 ⟨0x5000, 7⟩, .created 7, .mapped 7 0x400 ⟨0x8000, 5⟩,
        .unmapped 4 0x400, .destroyed 7], [4]) := by decide +kernel
  obtain ⟨⟨es, m⟩, hm, hend⟩ := Option.map_eq_some_iff.mp h
  simp only [Prod.mk.injEq] at hend
  obtain ⟨rfl, hlive⟩ := hend
  have hrun := observed_of_watch hm
  exact ⟨m, hrun, hlive, (address_spaces_refine hrun).1⟩

end Directories

end Neox
