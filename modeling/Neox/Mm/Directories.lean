import Neox.Lib.Run
import Neox.Mm.Mappings
import Mathlib.Data.List.Nodup

/-!
# Page directories side by side

Several directories, each with page tables that are allocated with the first page of a 4 MiB region
and freed with the last. `Separated` says that no two entries share a page table, that none is a
directory and that the allocator has none of these frames; it is why the two levels of a directory
are read and written like one table of pages.
-/

namespace Neox

open Bytes Pmm Checked

/-- A set of entries of page directories. -/
abbrev Entries := Nat → Nat → Prop

/-- The entry that maps a page of a directory. -/
def Mm.pte (m : Mm) (directory page : Nat) : Option Nat :=
  let pde := m.entry directory (page / 1024)
  if present pde then
    let entry := m.entry (pde / pageSize) (page % 1024)
    if present entry then some entry else none
  else none

/-- A directory, or the page table of an owned entry. -/
def Structural (owned : Entries) (m : Mm) (live : List Nat) (f : Nat) : Prop :=
  f ∈ live ∨ ∃ d ∈ live, ∃ i, owned d i ∧ present (m.entry d i) = true ∧ m.entry d i / pageSize = f

structure Separated (owned : Entries) (m : Mm) (live : List Nat) : Prop where
  nodup : live.Nodup
  directory : ∀ d ∈ live, d < directFrames ∧ ¬ m.pmm.Free d
  table : ∀ d ∈ live, ∀ i, owned d i → present (m.entry d i) = true →
    m.entry d i / pageSize < directFrames ∧ m.entry d i / pageSize ∉ live ∧
      ¬ m.pmm.Free (m.entry d i / pageSize)
  unique : ∀ d ∈ live, ∀ d' ∈ live, ∀ i i', owned d i → owned d' i' →
    present (m.entry d i) = true → present (m.entry d' i') = true →
    m.entry d i / pageSize = m.entry d' i' / pageSize → d = d' ∧ i = i'

variable {owned : Entries} {m m' : Mm} {live : List Nat} {d f i t virt phys flags : Nat}

/-- The MMU adds the offset to the frame of the page's entry. -/
theorem Mm.walk_eq (m : Mm) (d virt : Nat) :
    m.walk d virt = (m.pte d (virt / pageSize)).map fun e => frameMask e + virt % pageSize := by
  have hi : virt / pageSize / 1024 = directoryIndex virt := by
    simp only [directoryIndex, pageSize]
    omega
  unfold Mm.walk Mm.pte
  simp only [hi]
  show _ = Option.map _ (if present (m.entry d (directoryIndex virt)) = true then
    if present (m.entry (m.entry d (directoryIndex virt) / pageSize) (tableIndex virt)) = true then
      some (m.entry (m.entry d (directoryIndex virt) / pageSize) (tableIndex virt)) else none
    else none)
  split
  · split
    · rfl
    · rfl
  · rfl

/-- From `m` to `m'` the owned entries and the pages they map stay as they are. -/
structure Kept (owned : Entries) (live : List Nat) (m m' : Mm) : Prop where
  separated : Separated owned m' live
  entries : ∀ d ∈ live, ∀ i, owned d i → m'.entry d i = m.entry d i
  pages : ∀ d ∈ live, ∀ v, owned d (v / 1024) → m'.pte d v = m.pte d v

/-- The owned entries stay, and none of the frames they need becomes free. -/
theorem Separated.reread (h : Separated owned m live)
    (hentry : ∀ d ∈ live, ∀ i, owned d i → m'.entry d i = m.entry d i)
    (hfree : ∀ f, Structural owned m live f → ¬ m'.pmm.Free f) : Separated owned m' live := by
  refine ⟨h.nodup, fun d hd => ⟨(h.directory d hd).1, hfree d (.inl hd)⟩,
    fun d hd i ho hp => ?_, fun d hd d' hd' i i' ho ho' hp hp' he => ?_⟩
  · rw [hentry d hd i ho] at hp ⊢
    obtain ⟨hlt, hlive, -⟩ := h.table d hd i ho hp
    exact ⟨hlt, hlive, hfree _ (.inr ⟨d, hd, i, ho, hp, rfl⟩)⟩
  · rw [hentry d hd i ho] at hp he
    rw [hentry d' hd' i' ho'] at hp' he
    exact h.unique d hd d' hd' i i' ho ho' hp hp' he

/-- Nothing but page tables and directories matters. -/
theorem Separated.keep (h : Separated owned m live)
    (hframes : ∀ f, Structural owned m live f → m'.frames f = m.frames f)
    (hfree : ∀ f, Structural owned m live f → ¬ m'.pmm.Free f) : Kept owned live m m' := by
  have hentry : ∀ f, Structural owned m live f → ∀ i, m'.entry f i = m.entry f i := by
    intro f hf i
    unfold Mm.entry
    rw [hframes f hf]
  have hdir : ∀ d ∈ live, ∀ i, m'.entry d i = m.entry d i := fun d hd => hentry d (.inl hd)
  refine ⟨h.reread (fun d hd i _ => hdir d hd i) hfree, fun d hd i _ => hdir d hd i,
    fun d hd v ho => ?_⟩
  unfold Mm.pte
  simp only [hdir d hd]
  split
  · next hp => rw [hentry _ (.inr ⟨d, hd, _, ho, hp, rfl⟩)]
  · rfl

theorem Separated.not_free (h : Separated owned m live) (hf : Structural owned m live f) :
    ¬ m.pmm.Free f := by
  rcases hf with hd | ⟨d, hd, i, ho, hp, rfl⟩
  · exact (h.directory f hd).2
  · exact (h.table d hd i ho hp).2.2

theorem Separated.record (h : Separated owned m live) (e : PagingEvent) :
    Kept owned live m (m.record e) :=
  h.keep (fun _ _ => rfl) fun _ hf => h.not_free hf

/-! ## The allocator -/

/-- The page `pmm_alloc_page` takes next. -/
def Pmm.nextPage (p : Pmm) : Option Nat :=
  if p.failAllocations ≠ 0 then none
  else (List.range p.totalPages).find? fun page => !p.bitmap page

/-- The next page is one of the direct map. -/
def Pmm.reaches (p : Pmm) : Bool := p.nextPage.all fun page => decide (page < directFrames)

/-- The next page lies below 4 GiB. -/
def Pmm.addressed (p : Pmm) : Bool := p.nextPage.all fun page => decide (page < 0x100000)

theorem Pmm.addressed_of_reaches {p : Pmm} (h : p.reaches = true) : p.addressed = true := by
  unfold Pmm.reaches at h
  unfold Pmm.addressed
  cases hnext : p.nextPage with
  | none => rfl
  | some page =>
      rw [hnext] at h
      simp only [Option.all_some, decide_eq_true_eq, directFrames] at h ⊢
      omega

theorem Pmm.addressed_of_le {p : Pmm} (h : p.totalPages ≤ 0x100000) : p.addressed = true := by
  unfold Pmm.addressed Pmm.nextPage
  split
  · rfl
  · cases hfind : (List.range p.totalPages).find? fun page => !p.bitmap page with
    | none => rfl
    | some page =>
        have hlt := List.mem_range.mp (List.find?_range_eq_some.mp hfind).2.1
        simp only [Option.all_some, decide_eq_true_eq]
        omega

theorem nextPage_spec {p q : Pmm} (h : pmmAllocPage p = (phys, q)) :
    p.nextPage = none ∧ phys = 0 ∧ SameFree p q ∨
    ∃ page, p.nextPage = some page ∧ p.Free page ∧ phys = page * pageSize % wordModulus ∧
      q.totalPages = p.totalPages ∧ q.bitmap = Function.update p.bitmap page true := by
  unfold pmmAllocPage at h
  unfold Pmm.nextPage
  split at h
  · next hfail =>
    cases h
    exact .inl ⟨if_pos hfail, rfl, rfl, rfl⟩
  · next hfail =>
    rw [if_neg hfail]
    split at h
    · next page hfind =>
      cases h
      obtain ⟨hclear, hlt, -⟩ := List.find?_range_eq_some.mp hfind
      exact .inr ⟨page, hfind, ⟨List.mem_range.mp hlt, by simpa using hclear⟩, rfl, rfl, rfl⟩
    · next hfind =>
      cases h
      exact .inl ⟨hfind, rfl, rfl, rfl⟩

/-- `pmm_alloc_page` makes nothing free; what it returns is the address of a page that was. -/
theorem allocPage_addressed {p : Nat} (h : m.allocPage = (p, m')) :
    m'.frames = m.frames ∧ m'.kernelDirectory = m.kernelDirectory ∧
      m'.pmm.totalPages = m.pmm.totalPages ∧ (∀ g, m'.pmm.Free g → m.pmm.Free g) ∧
      (m.pmm.addressed = true → p ≠ 0 → ∃ f, p = f * pageSize ∧ f < 0x100000 ∧
        m.pmm.nextPage = some f ∧ m.pmm.Free f ∧ ¬ m'.pmm.Free f) := by
  unfold Mm.allocPage at h
  rcases hq : pmmAllocPage m.pmm with ⟨phys', q⟩
  rw [hq] at h
  cases h
  refine ⟨rfl, rfl, ?_⟩
  rcases nextPage_spec hq with ⟨-, rfl, hsame⟩ | ⟨f, hnext, hfree, rfl, htotal, hbit⟩
  · exact ⟨hsame.totalPages, fun _ hg => hsame.free.mp hg, fun _ hne => absurd rfl hne⟩
  · refine ⟨htotal, fun g hg => ?_, fun haddressed _ => ?_⟩
    · obtain ⟨hlt, hclear⟩ := hg
      rw [htotal] at hlt
      rw [hbit] at hclear
      by_cases hgf : g = f
      · rw [hgf]
        exact hfree
      · rw [Function.update_of_ne hgf] at hclear
        exact ⟨hlt, hclear⟩
    · unfold Pmm.addressed at haddressed
      rw [hnext] at haddressed
      have hf : f < 0x100000 := by simpa using haddressed
      refine ⟨f, ?_, hf, hnext, hfree, fun hg => ?_⟩
      · exact Nat.mod_eq_of_lt (by simp only [pageSize, wordModulus]; omega)
      · have hclear := hg.2
        rw [hbit, Function.update_self] at hclear
        cases hclear

/-- A page whose address `PHYS_TO_VIRT` is given. -/
theorem direct_page {p : Nat} (hp : p = f * pageSize) (hf : f < 0x100000) (h : direct p = .ok t) :
    t = f ∧ f < directFrames := by
  obtain ⟨hlt, rfl⟩ := (direct_eq_ok (by simp only [pageSize, wordModulus] at *; omega)).mp h
  refine ⟨by rw [hp]; exact Nat.mul_div_cancel _ (by decide), ?_⟩
  simp only [pageSize, bootstrapMapSize, directFrames] at *
  omega

/-! ## One entry -/

/-- From `m` to `m'` a page of a directory gets the entry `e`, and every other page keeps its own.
Of the directories' entries only that of the page's region may change. -/
structure Remaps (owned : Entries) (live : List Nat) (m m' : Mm) (directory page : Nat)
    (e : Option Nat) : Prop where
  separated : Separated owned m' live
  here : m'.pte directory page = e
  others : ∀ d ∈ live, ∀ v, owned d (v / 1024) → ¬ (d = directory ∧ v = page) →
    m'.pte d v = m.pte d v
  entries : ∀ d ∈ live, ∀ i, owned d i → ¬ (d = directory ∧ i = page / 1024) →
    m'.entry d i = m.entry d i

section Entry

variable {j e v : Nat}

theorem page_div (hj : j < pageDirectoryEntries) : (i * 1024 + j) / 1024 = i := by
  simp only [pageDirectoryEntries] at hj
  omega

theorem page_mod (hj : j < pageDirectoryEntries) : (i * 1024 + j) % 1024 = j := by
  simp only [pageDirectoryEntries] at hj
  omega

/-- An entry of a page table is written. -/
theorem Separated.setPte (h : Separated owned m live) (hd : d ∈ live) (ho : owned d i)
    (hp : present (m.entry d i) = true) (hj : j < pageDirectoryEntries) (he : e < wordModulus) :
    Remaps owned live m (m.setEntry (m.entry d i / pageSize) j e) d (i * 1024 + j)
      (if present e then some e else none) ∧
    ∀ d' ∈ live, ∀ i', (m.setEntry (m.entry d i / pageSize) j e).entry d' i' = m.entry d' i' := by
  obtain ⟨-, hlive, -⟩ := h.table d hd i ho hp
  have hdir : ∀ d' ∈ live, ∀ i', (m.setEntry (m.entry d i / pageSize) j e).entry d' i' =
      m.entry d' i' := fun d' hd' i' =>
    m.setEntry_entry_of_ne fun heq => hlive (heq ▸ hd')
  refine ⟨⟨⟨h.nodup, h.directory, fun d' hd' i' ho' hp' => ?_,
    fun d' hd' d'' hd'' i' i'' ho' ho'' hp' hp'' heq => ?_⟩, ?_, fun d' hd' v ho' hne => ?_,
    fun d' hd' i' _ _ => hdir d' hd' i'⟩, hdir⟩
  · rw [hdir d' hd'] at hp' ⊢
    exact h.table d' hd' i' ho' hp'
  · rw [hdir d' hd'] at hp' heq
    rw [hdir d'' hd''] at hp'' heq
    exact h.unique d' hd' d'' hd'' i' i'' ho' ho'' hp' hp'' heq
  · unfold Mm.pte
    simp only [page_div hj, page_mod hj, hdir d hd, hp, if_true, m.setEntry_entry _ _ _ _ he,
      and_self]
  · unfold Mm.pte
    simp only [hdir d' hd']
    split
    · next hp' =>
      have hkeep : (m.setEntry (m.entry d i / pageSize) j e).entry
          (m.entry d' (v / 1024) / pageSize) (v % 1024) =
          m.entry (m.entry d' (v / 1024) / pageSize) (v % 1024) := by
        rw [m.setEntry_entry _ _ _ _ he, if_neg]
        rintro ⟨htable, hindex⟩
        obtain ⟨rfl, hi⟩ := h.unique d' hd' d hd _ _ ho' ho hp' hp htable
        exact hne ⟨rfl, by omega⟩
      rw [hkeep]
    · rfl

/-- An empty page table is attached. -/
theorem Separated.addTable (h : Separated owned m live) (hd : d ∈ live)
    (hno : present (m.entry d i) = false) (hlt : t < directFrames)
    (hnew : ¬ Structural owned m live t) (htaken : ¬ m.pmm.Free t) (hzero : ∀ j, m.entry t j = 0)
    (he : e < wordModulus) (hp : present e = true) (hte : e / pageSize = t) :
    Separated owned (m.setEntry d i e) live ∧
    (∀ d' ∈ live, ∀ v, owned d' (v / 1024) → (m.setEntry d i e).pte d' v = m.pte d' v) ∧
    (∀ d' i', (m.setEntry d i e).entry d' i' = if d' = d ∧ i' = i then e else m.entry d' i') := by
  have hentry := fun d' i' => m.setEntry_entry d i d' i' he
  have hother : ∀ d' ∈ live, ∀ i', owned d' i' → present (m.entry d' i') = true →
      m.entry d' i' / pageSize ≠ t := fun d' hd' i' ho' hp' heq =>
    hnew (.inr ⟨d', hd', i', ho', hp', heq⟩)
  refine ⟨⟨h.nodup, h.directory, fun d' hd' i' ho' hp' => ?_,
    fun d' hd' d'' hd'' i' i'' ho' ho'' hp' hp'' heq => ?_⟩, fun d' hd' v ho' => ?_, hentry⟩
  · rw [hentry] at hp' ⊢
    split
    · rw [hte]
      exact ⟨hlt, fun hl => hnew (.inl hl), htaken⟩
    · next hne =>
      rw [if_neg hne] at hp'
      exact h.table d' hd' i' ho' hp'
  · rw [hentry] at hp' hp'' heq
    rw [hentry d''] at heq
    by_cases h' : d' = d ∧ i' = i
    · by_cases h'' : d'' = d ∧ i'' = i
      · exact ⟨h'.1.trans h''.1.symm, h'.2.trans h''.2.symm⟩
      · rw [if_neg h''] at hp''
        rw [if_pos h', if_neg h'', hte] at heq
        exact absurd heq.symm (hother d'' hd'' i'' ho'' hp'')
    · rw [if_neg h'] at hp'
      by_cases h'' : d'' = d ∧ i'' = i
      · rw [if_neg h', if_pos h'', hte] at heq
        exact absurd heq (hother d' hd' i' ho' hp')
      · rw [if_neg h''] at hp''
        rw [if_neg h', if_neg h''] at heq
        exact h.unique d' hd' d'' hd'' i' i'' ho' ho'' hp' hp'' heq
  · have hkeep : ∀ u, u ∉ live → ∀ j, (m.setEntry d i e).entry u j = m.entry u j := fun u hu j =>
      m.setEntry_entry_of_ne fun heq => hu (heq ▸ hd)
    unfold Mm.pte
    simp only [hentry d']
    by_cases h' : d' = d ∧ v / 1024 = i
    · obtain ⟨rfl, rfl⟩ := h'
      have htable : present ((m.setEntry d' (v / 1024) e).entry t (v % 1024)) = false := by
        rw [hkeep t (fun hl => hnew (.inl hl)), hzero, present_zero]
      simp [hp, hno, hte, htable]
    · simp only [if_neg h']
      split
      · next hp' =>
        rw [hkeep _ (h.table d' hd' _ ho' hp').2.1]
      · rfl

/-- A page table without a page is detached; then it is no page table any more. -/
theorem Separated.removeTable (h : Separated owned m live) (hd : d ∈ live) (ho : owned d i)
    (hp : present (m.entry d i) = true)
    (hempty : ∀ j < pageDirectoryEntries, present (m.entry (m.entry d i / pageSize) j) = false) :
    Separated owned (m.setEntry d i 0) live ∧
    (∀ d' ∈ live, ∀ v, owned d' (v / 1024) → (m.setEntry d i 0).pte d' v = m.pte d' v) ∧
    (∀ d' i', (m.setEntry d i 0).entry d' i' = if d' = d ∧ i' = i then 0 else m.entry d' i') ∧
    ¬ Structural owned (m.setEntry d i 0) live (m.entry d i / pageSize) := by
  have hentry := fun d' i' => m.setEntry_entry d i d' i' (show 0 < wordModulus by decide)
  have hold : ∀ d' i', present ((m.setEntry d i 0).entry d' i') = true →
      ¬ (d' = d ∧ i' = i) ∧ (m.setEntry d i 0).entry d' i' = m.entry d' i' := by
    intro d' i' hp'
    rw [hentry] at hp' ⊢
    by_cases h' : d' = d ∧ i' = i
    · rw [if_pos h'] at hp'
      cases hp'
    · exact ⟨h', if_neg h'⟩
  refine ⟨⟨h.nodup, h.directory, fun d' hd' i' ho' hp' => ?_,
    fun d' hd' d'' hd'' i' i'' ho' ho'' hp' hp'' heq => ?_⟩, fun d' hd' v ho' => ?_, hentry, ?_⟩
  · obtain ⟨-, he⟩ := hold d' i' hp'
    rw [he] at hp' ⊢
    exact h.table d' hd' i' ho' hp'
  · obtain ⟨-, he⟩ := hold d' i' hp'
    obtain ⟨-, he'⟩ := hold d'' i'' hp''
    rw [he] at hp' heq
    rw [he'] at hp'' heq
    exact h.unique d' hd' d'' hd'' i' i'' ho' ho'' hp' hp'' heq
  · have hkeep : ∀ u, u ∉ live → ∀ j, (m.setEntry d i 0).entry u j = m.entry u j := fun u hu j =>
      m.setEntry_entry_of_ne fun heq => hu (heq ▸ hd)
    unfold Mm.pte
    simp only [hentry d']
    by_cases h' : d' = d ∧ v / 1024 = i
    · obtain ⟨rfl, rfl⟩ := h'
      simp [hp, present_zero, hempty (v % 1024) (Nat.mod_lt _ (by decide))]
    · simp only [if_neg h']
      split
      · next hp' =>
        rw [hkeep _ (h.table d' hd' _ ho' hp').2.1]
      · rfl
  · rintro (hl | ⟨d', hd', i', ho', hp', heq⟩)
    · exact (h.table d hd i ho hp).2.1 hl
    · obtain ⟨hne, he⟩ := hold d' i' hp'
      rw [he] at hp' heq
      exact hne (h.unique d' hd' d hd i' i ho' ho hp' hp heq)

/-- A change before a page is remapped. -/
theorem Remaps.after {m₁ : Mm} (hk : Kept owned live m m₁) {e : Option Nat}
    (h : Remaps owned live m₁ m' d v e) : Remaps owned live m m' d v e where
  separated := h.separated
  here := h.here
  others d' hd' v' ho hne := (h.others d' hd' v' ho hne).trans (hk.pages d' hd' v' ho)
  entries d' hd' i ho hne := (h.entries d' hd' i ho hne).trans (hk.entries d' hd' i ho)

/-- A change after it. -/
theorem Remaps.before {m₁ : Mm} {e : Option Nat} (h : Remaps owned live m m₁ d v e)
    (hd : d ∈ live) (ho : owned d (v / 1024)) (hk : Kept owned live m₁ m') :
    Remaps owned live m m' d v e where
  separated := hk.separated
  here := (hk.pages d hd v ho).trans h.here
  others d' hd' v' ho' hne := (hk.pages d' hd' v' ho').trans (h.others d' hd' v' ho' hne)
  entries d' hd' i ho' hne := (hk.entries d' hd' i ho').trans (h.entries d' hd' i ho' hne)

end Entry

/-! ## The operations -/

/-- `pmm_alloc_page`. -/
theorem Separated.allocPage {p : Nat} (h : Separated owned m live) (hm : m.allocPage = (p, m')) :
    Kept owned live m m' := by
  obtain ⟨hframes, -, -, hfree, -⟩ := allocPage_addressed hm
  exact h.keep (fun f _ => by rw [hframes]) fun f hf hfree' => h.not_free hf (hfree f hfree')

theorem freePage_free {phys : Nat} (hf : (m.freePage phys).pmm.Free f) :
    m.pmm.Free f ∨ f = phys / pageSize := by
  obtain ⟨htotal, hbit⟩ := pmmFreePage_spec m.pmm phys
  obtain ⟨hlt, hclear⟩ := hf
  have hlt : f < m.pmm.totalPages := htotal ▸ hlt
  have hclear := (hbit f).symm.trans hclear
  by_cases hfp : f = phys / pageSize
  · exact .inr hfp
  · rw [if_neg fun h => hfp h.1] at hclear
    exact .inl ⟨hlt, hclear⟩

/-- `pmm_free_page` of a frame that is no page table and no directory. -/
theorem Separated.freePage (h : Separated owned m live)
    (hphys : ¬ Structural owned m live (phys / pageSize)) :
    Kept owned live m (m.freePage phys) := by
  refine h.keep (fun f _ => rfl) fun f hf hfree => ?_
  rcases freePage_free hfree with hfree | rfl
  · exact h.not_free hf hfree
  · exact hphys hf

/-- The entry of the directory when `paging_map` has mapped a page. -/
def TableEntry (m m' : Mm) (d i flags : Nat) : Prop :=
  present (m.entry d i) = true ∧ m'.entry d i = m.entry d i ∨
  present (m.entry d i) = false ∧ present (m'.entry d i) = true ∧
    m'.entry d i % pageSize = pagePresent ||| (flags &&& (pageWritable ||| pageUser)) ∧
    m.pmm.Free (m'.entry d i / pageSize)

/-- `paging_map` maps one page, or nothing when there is no page for the page table. -/
theorem Separated.pagingMap (h : Separated owned m live) (hd : d ∈ live)
    (ho : owned d (directoryIndex virt)) (hlt : phys < wordModulus) (hflags : flags < pageSize)
    (hpres : present flags = true)
    (hreach : present (m.entry d (directoryIndex virt)) = true ∨ m.pmm.addressed = true)
    (hm : pagingMap m d virt phys flags = .ok m') :
    (present (m.entry d (directoryIndex virt)) = false ∧ m.allocPage.1 = 0 ∧
      Kept owned live m m') ∨
    (present (m.entry d (directoryIndex virt)) = true ∨ m.allocPage.1 ≠ 0) ∧
      Remaps owned live m m' d (virt / pageSize) (some (pageEntry phys flags)) ∧
      TableEntry m m' d (directoryIndex virt) flags := by
  have he := pageEntry_lt hlt hflags
  have hepres : present (pageEntry phys flags) = true := (present_pageEntry hflags).trans hpres
  have hpage := index_eq virt
  have ho' : owned d (virt / pageSize / 1024) := directoryIndex_eq ▸ ho
  rcases pagingMap_spec hm with ⟨hp, rfl⟩ | ⟨hp, hfail | ⟨p, m₁, t, halloc, hp0, ht, rfl⟩⟩
  · obtain ⟨hset, hdir⟩ := h.setPte hd ho hp (tableIndex_lt virt) he
    rw [hpage, if_pos hepres] at hset
    exact .inr ⟨.inl hp, hset.before hd ho' (hset.separated.record _), .inl ⟨hp, hdir d hd _⟩⟩
  · exact .inl ⟨hp, by rw [hfail], h.allocPage hfail⟩
  · refine .inr ⟨.inr (by rw [halloc]; exact hp0), ?_⟩
    have hkept := h.allocPage halloc
    obtain ⟨hframes, -, -, -, hnew⟩ := allocPage_addressed halloc
    obtain ⟨f, rfl, hlow, -, hfree, htaken⟩ :=
      hnew (hreach.resolve_left fun hp' => by rw [hp] at hp'; cases hp') hp0
    obtain ⟨rfl, hf⟩ := direct_page rfl hlow ht
    have hfresh : ¬ Structural owned m live t := fun hs => h.not_free hs hfree
    have hentry₁ : ∀ u i, m₁.entry u i = m.entry u i := fun u i => by
      unfold Mm.entry
      rw [hframes]
    have hfresh₁ : ¬ Structural owned m₁ live t := by
      unfold Structural
      simp only [hentry₁]
      exact hfresh
    -- The new page table is cleared, attached and filled.
    have hzeroed : Kept owned live m₁ (m₁.zeroFrame t) :=
      hkept.separated.keep (fun g hg => m₁.zeroFrame_frames_of_ne fun heq => hfresh₁ (heq ▸ hg))
        fun g hg hfree => hkept.separated.not_free hg hfree
    have hfresh₂ : ¬ Structural owned (m₁.zeroFrame t) live t := by
      rintro (hl | ⟨d', hd', i', ho', hp', heq⟩)
      · exact hfresh₁ (.inl hl)
      · rw [hzeroed.entries d' hd' i' ho'] at hp' heq
        exact hfresh₁ (.inr ⟨d', hd', i', ho', hp', heq⟩)
    obtain ⟨hpde, hpdePresent, hpdeTable⟩ := tableEntry_spec flags hf
    have hno : present ((m₁.zeroFrame t).entry d (directoryIndex virt)) = false := by
      rw [hzeroed.entries d hd _ ho, hentry₁]
      exact hp
    obtain ⟨hsep₃, hpages₃, hentry₃⟩ := hzeroed.separated.addTable hd hno hf hfresh₂ htaken
      (fun j => by rw [Mm.zeroFrame_entry, if_pos rfl]) hpde hpdePresent hpdeTable
    have hself := (hentry₃ d (directoryIndex virt)).trans (if_pos ⟨rfl, rfl⟩)
    obtain ⟨hset, hdir⟩ := hsep₃.setPte hd ho (by rw [hself]; exact hpdePresent)
      (tableIndex_lt virt) he
    rw [hpage, if_pos hepres, hself, hpdeTable] at hset
    rw [hself, hpdeTable] at hdir
    refine ⟨Remaps.before ⟨hset.separated, hset.here, fun d' hd' v' ho' hne => ?_,
      fun d' hd' i' ho' hne => ?_⟩ hd ho' (hset.separated.record _), .inr ⟨hp, ?_⟩⟩
    · exact (hset.others d' hd' v' ho' hne).trans ((hpages₃ d' hd' v' ho').trans
        ((hzeroed.pages d' hd' v' ho').trans (hkept.pages d' hd' v' ho')))
    · refine (hdir d' hd' i').trans ((hentry₃ d' i').trans ?_)
      rw [← directoryIndex_eq] at hne
      rw [if_neg hne]
      exact (hzeroed.entries d' hd' i' ho').trans (hkept.entries d' hd' i' ho')
    · have hlast := (hdir d hd (directoryIndex virt)).trans hself
      have hdone : ∀ w, w = pageEntry (t * pageSize)
          (pagePresent ||| (flags &&& (pageWritable ||| pageUser))) → present w = true ∧
          w % pageSize = pagePresent ||| (flags &&& (pageWritable ||| pageUser)) ∧
          m.pmm.Free (w / pageSize) := by
        rintro w rfl
        exact ⟨hpdePresent, pageEntry_mod (mapFlags_lt flags), hpdeTable.symm ▸ hfree⟩
      exact hdone _ hlast

theorem allocPage_heapEnd {m₁ : Mm} {p : Nat} (h : m.allocPage = (p, m₁)) :
    m₁.heapEnd = m.heapEnd := by
  unfold Mm.allocPage at h
  cases h
  rfl

theorem pagingMap_frame (hm : Neox.pagingMap m d virt phys flags = .ok m') :
    m'.kernelDirectory = m.kernelDirectory ∧ m'.pmm.totalPages = m.pmm.totalPages ∧
      m'.heapEnd = m.heapEnd ∧ ∀ f, m'.pmm.Free f → m.pmm.Free f := by
  rcases pagingMap_spec hm with ⟨-, rfl⟩ | ⟨-, hfail | ⟨p, m₁, t, halloc, -, -, rfl⟩⟩
  · exact ⟨rfl, rfl, rfl, fun _ hf => hf⟩
  · obtain ⟨-, hk, htotal, hfree, -⟩ := allocPage_addressed hfail
    exact ⟨hk, htotal, allocPage_heapEnd hfail, hfree⟩
  · obtain ⟨-, hk, htotal, hfree, -⟩ := allocPage_addressed halloc
    have hend := allocPage_heapEnd halloc
    exact ⟨hk, htotal, hend, hfree⟩

theorem Kept.structural (h : Kept owned live m m') (hf : Structural owned m' live f) :
    Structural owned m live f := by
  rcases hf with hl | ⟨d, hd, i, ho, hp, heq⟩
  · exact .inl hl
  · rw [h.entries d hd i ho] at hp heq
    exact .inr ⟨d, hd, i, ho, hp, heq⟩

/-- A page table that `paging_map` installs was free. -/
theorem Remaps.structural {v : Nat} {e : Option Nat} (h : Remaps owned live m m' d v e)
    (htable : TableEntry m m' d (v / 1024) flags) (hf : Structural owned m' live f) :
    Structural owned m live f ∨ m.pmm.Free f := by
  rcases hf with hl | ⟨d', hd', i', ho', hp', rfl⟩
  · exact .inl (.inl hl)
  · by_cases heq : d' = d ∧ i' = v / 1024
    · obtain ⟨rfl, rfl⟩ := heq
      rcases htable with ⟨hold, hsame⟩ | ⟨-, -, -, hfree⟩
      · rw [hsame]
        exact .inl (.inr ⟨d', hd', _, ho', hold, rfl⟩)
      · exact .inr hfree
    · rw [h.entries d' hd' i' ho' heq] at hp' ⊢
      exact .inl (.inr ⟨d', hd', i', ho', hp', rfl⟩)

/-- The page table of an entry is there only while it maps something. -/
def Occupied (m : Mm) (d i : Nat) : Prop :=
  present (m.entry d i) = true → ∃ j < pageDirectoryEntries, (m.pte d (i * 1024 + j)).isSome = true

theorem pte_eq {j : Nat} (hj : j < pageDirectoryEntries) (hp : present (m.entry d i) = true) :
    m.pte d (i * 1024 + j) = if present (m.entry (m.entry d i / pageSize) j) then
      some (m.entry (m.entry d i / pageSize) j) else none := by
  unfold Mm.pte
  simp only [page_div hj, page_mod hj, hp, if_true]

theorem pte_none (hp : present (m.entry d (i / 1024)) = false) : m.pte d i = none := by
  unfold Mm.pte
  simp [hp]

/-- `paging_unmap` leaves one page without an entry, and no page table without a page. -/
theorem Separated.pagingUnmap (h : Separated owned m live) (hd : d ∈ live)
    (ho : owned d (directoryIndex virt)) (hm : pagingUnmap m d virt = .ok m') :
    Remaps owned live m m' d (virt / pageSize) none ∧ Occupied m' d (directoryIndex virt) ∧
      (m'.entry d (directoryIndex virt) = m.entry d (directoryIndex virt) ∨
        present (m'.entry d (directoryIndex virt)) = false) := by
  have hpage := index_eq virt
  have ho' : owned d (virt / pageSize / 1024) := by
    rw [← directoryIndex_eq]
    exact ho
  rcases pagingUnmap_spec hm with ⟨hp, rfl⟩ | ⟨hp, hcase⟩
  · refine ⟨⟨h, pte_none ?_, fun _ _ _ _ _ => rfl, fun _ _ _ _ _ => rfl⟩, fun hp' => ?_, .inl rfl⟩
    · rw [← directoryIndex_eq]
      exact hp
    · rw [hp] at hp'
      cases hp'
  · obtain ⟨hset, hdir⟩ := h.setPte hd ho hp (tableIndex_lt virt) (show 0 < wordModulus by decide)
    rw [hpage, present_zero] at hset
    have hsame := hdir d hd (directoryIndex virt)
    rcases hcase with ⟨⟨j, hj, hpresent⟩, rfl⟩ | ⟨hempty, rfl⟩
    · refine ⟨hset.before hd ho' (hset.separated.record _), fun _ => ⟨j, hj, ?_⟩, .inl hsame⟩
      rw [pte_eq hj (by rw [Mm.record_entry, hsame]; exact hp)]
      simp only [Mm.record_entry, hsame, hpresent, if_true, Option.isSome_some]
    · obtain ⟨hsep, hpages, hentry, hgone⟩ := hset.separated.removeTable hd ho
        (by rw [hsame]; exact hp) (by rw [hsame]; exact hempty)
      rw [hsame] at hgone
      have hphys : ¬ Structural owned ((m.setEntry (m.entry d (directoryIndex virt) / pageSize)
          (tableIndex virt) 0).setEntry d (directoryIndex virt) 0) live
          (frameMask (m.entry d (directoryIndex virt)) / pageSize) := by
        rw [frameMask_div]
        exact hgone
      have hfreed := hsep.freePage hphys
      have hlast := hfreed.separated.record (.unmap d virt true)
      have hzero := (hentry d (directoryIndex virt)).trans (if_pos ⟨rfl, rfl⟩)
      refine ⟨⟨hlast.separated, ?_, fun d' hd' v' hv hne => ?_, fun d' hd' i' hi hne => ?_⟩, ?_, ?_⟩
      · exact (hlast.pages d hd _ ho').trans ((hfreed.pages d hd _ ho').trans
          ((hpages d hd _ ho').trans hset.here))
      · exact (hlast.pages d' hd' v' hv).trans ((hfreed.pages d' hd' v' hv).trans
          ((hpages d' hd' v' hv).trans (hset.others d' hd' v' hv hne)))
      · rw [← directoryIndex_eq] at hne
        exact ((hentry d' i').trans (if_neg hne)).trans (hdir d' hd' i')
      · intro hp'
        exact absurd (hp'.symm.trans (congrArg present hzero)) (by decide)
      · exact .inr (congrArg present hzero)

/-! ## Directories -/

/-- The entries that belong to a process directory alone. -/
def userHalf : Entries := fun _ i => i < kernelPdeStart

/-- `paging_create_directory`: a directory that was not there, with an empty user half. -/
theorem Separated.create {created : Option Nat} (h : Separated userHalf m live)
    (hreach : m.pmm.addressed = true) (hm : pagingCreateDirectory m = .ok (created, m')) :
    created = none ∧ Kept userHalf live m m' ∨
    ∃ d, created = some d ∧ d ∉ live ∧ Separated userHalf m' (d :: live) ∧
      (∀ i < kernelPdeStart, m'.entry d i = 0) ∧ Kept userHalf live m m' := by
  unfold pagingCreateDirectory at hm
  rcases halloc : m.allocPage with ⟨p, m₁⟩
  rw [halloc] at hm
  have hkept := h.allocPage halloc
  obtain ⟨hframes, -, -, -, hnew⟩ := allocPage_addressed halloc
  simp only [] at hm
  split at hm
  · cases pure_eq_ok.mp hm
    exact .inl ⟨rfl, hkept⟩
  · next hp0 =>
    obtain ⟨d, hd, hm⟩ := bind_eq_ok.mp hm
    cases pure_eq_ok.mp hm
    obtain ⟨f, rfl, hlow, -, hfree, htaken⟩ := hnew hreach hp0
    obtain ⟨rfl, hf⟩ := direct_page rfl hlow hd
    have hfresh : ¬ Structural userHalf m live d := fun hs => h.not_free hs hfree
    have hfresh₁ : ¬ Structural userHalf m₁ live d := by
      rintro (hl | ⟨d', hd', i', ho', hp', heq⟩)
      · exact hfresh (.inl hl)
      · rw [hkept.entries d' hd' i' ho'] at hp' heq
        exact hfresh (.inr ⟨d', hd', i', ho', hp', heq⟩)
    have hwritten : Kept userHalf live m₁ (pagingCopyKernelMappings (m₁.zeroFrame d) d) := by
      refine hkept.separated.keep (fun g hg => ?_) fun g hg => hkept.separated.not_free hg
      have hne : g ≠ d := fun heq => hfresh₁ (heq ▸ hg)
      exact (Function.update_of_ne hne ..).trans (m₁.zeroFrame_frames_of_ne hne)
    have hzero : ∀ i < kernelPdeStart,
        (pagingCopyKernelMappings (m₁.zeroFrame d) d).entry d i = 0 := by
      intro i hi
      unfold pagingCopyKernelMappings Mm.entry
      simp only [Function.update_self, word_copyWords, if_neg (Nat.not_le_of_lt hi)]
      exact (m₁.zeroFrame_entry d d i).trans (if_pos rfl)
    have hall : Kept userHalf live m (pagingCopyKernelMappings (m₁.zeroFrame d) d) :=
      ⟨hwritten.separated,
        fun d' hd' i ho => (hwritten.entries d' hd' i ho).trans (hkept.entries d' hd' i ho),
        fun d' hd' v ho => (hwritten.pages d' hd' v ho).trans (hkept.pages d' hd' v ho)⟩
    have hempty : ∀ i, userHalf d i →
        present ((pagingCopyKernelMappings (m₁.zeroFrame d) d).entry d i) ≠ true := by
      intro i hi
      rw [hzero i hi, present_zero]
      decide
    have hsep := hall.separated
    refine .inr ⟨d, rfl, fun hl => hfresh (.inl hl), ⟨List.nodup_cons.mpr
      ⟨fun hl => hfresh (.inl hl), hsep.nodup⟩, fun d' hd' => ?_, fun d' hd' i ho hp => ?_,
      fun d' hd' d'' hd'' i i' ho ho' hp hp' heq => ?_⟩, hzero, hall⟩
    · rcases List.mem_cons.mp hd' with rfl | hd'
      · exact ⟨hf, htaken⟩
      · exact hsep.directory d' hd'
    · rcases List.mem_cons.mp hd' with rfl | hd'
      · exact absurd hp (hempty i ho)
      · obtain ⟨hlt, hlive, hnot⟩ := hsep.table d' hd' i ho hp
        refine ⟨hlt, fun hl => ?_, hnot⟩
        rcases List.mem_cons.mp hl with heq | hl
        · rw [hall.entries d' hd' i ho] at hp heq
          exact hfresh (.inr ⟨d', hd', i, ho, hp, heq⟩)
        · exact hlive hl
    · rcases List.mem_cons.mp hd' with rfl | hd'
      · exact absurd hp (hempty i ho)
      · rcases List.mem_cons.mp hd'' with rfl | hd''
        · exact absurd hp' (hempty i' ho')
        · exact hsep.unique d' hd' d'' hd'' i i' ho ho' hp hp' heq

/-- The inner loop of `paging_destroy_directory`, after `n` of its entries. -/
theorem destroyTable_loop (m : Mm) (t n : Nat) {m₁ : Mm}
    (hloop : (List.range n).foldl (fun m i =>
      let pte := m.entry t i
      if present pte then (m.freePage (frameMask pte)).setEntry t i 0 else m) m = m₁) :
    (∀ u, u ≠ t → m₁.frames u = m.frames u) ∧
    (∀ j, if j < n then present (m₁.entry t j) = false else m₁.entry t j = m.entry t j) ∧
    ∀ f, m₁.pmm.Free f → m.pmm.Free f ∨
      ∃ j < n, present (m.entry t j) = true ∧ m.entry t j / pageSize = f := by
  induction n generalizing m₁ with
  | zero =>
      cases hloop
      exact ⟨fun _ _ => rfl, fun _ => rfl, fun _ hf => .inl hf⟩
  | succ n ih =>
      simp only [List.range_succ, List.foldl_append, List.foldl_cons, List.foldl_nil] at hloop
      generalize hrest : (List.range n).foldl (fun m i =>
        let pte := m.entry t i
        if present pte then (m.freePage (frameMask pte)).setEntry t i 0 else m) m = m₂ at hloop
      obtain ⟨hframes, hentries, hfree⟩ := ih hrest
      have hn := hentries n
      rw [if_neg (Nat.lt_irrefl n)] at hn
      rw [hn] at hloop
      have hlater : ∀ f, (∃ j < n, present (m.entry t j) = true ∧ m.entry t j / pageSize = f) →
          ∃ j < n + 1, present (m.entry t j) = true ∧ m.entry t j / pageSize = f := by
        rintro f ⟨j, hj, hmap⟩
        exact ⟨j, Nat.lt_succ_of_lt hj, hmap⟩
      by_cases hp : present (m.entry t n) = true
      · rw [if_pos hp] at hloop
        subst hloop
        refine ⟨fun u hu => (Mm.setEntry_frames_of_ne _ hu).trans (hframes u hu), fun j => ?_,
          fun f hf => ?_⟩
        · have hset : ((m₂.freePage (frameMask (m.entry t n))).setEntry t n 0).entry t j =
              if j = n then 0 else m₂.entry t j := by
            rw [Mm.setEntry_entry _ _ _ _ _ (by decide), Mm.freePage_entry]
            simp
          have hj := hentries j
          rw [hset]
          by_cases hjn : j = n
          · simp [hjn, present_zero]
          · rw [if_neg hjn]
            by_cases hlt : j < n
            · rw [if_pos hlt] at hj
              rwa [if_pos (Nat.lt_succ_of_lt hlt)]
            · rw [if_neg hlt] at hj
              rwa [if_neg (by omega)]
        · rcases freePage_free hf with hf | rfl
          · exact (hfree f hf).imp_right (hlater f)
          · exact .inr ⟨n, Nat.lt_succ_self n, hp, frameMask_div.symm⟩
      · rw [if_neg hp] at hloop
        subst hloop
        refine ⟨hframes, fun j => ?_, fun f hf => (hfree f hf).imp_right (hlater f)⟩
        have hj := hentries j
        by_cases hjn : j = n
        · subst hjn
          rw [if_pos (Nat.lt_succ_self j), hn]
          simpa using hp
        · by_cases hlt : j < n
          · rw [if_pos hlt] at hj
            rwa [if_pos (Nat.lt_succ_of_lt hlt)]
          · rw [if_neg hlt] at hj
            rwa [if_neg (by omega)]

theorem pagingDestroyTable_eq (m : Mm) (t : Nat) :
    (List.range pageDirectoryEntries).foldl (fun m i =>
      let pte := m.entry t i
      if present pte then (m.freePage (frameMask pte)).setEntry t i 0 else m) m =
      pagingDestroyTable m t := by
  unfold pagingDestroyTable
  rfl

/-- From `m` to `m'` the page table `t` is emptied, and what it maps is freed. -/
structure Purged (m m' : Mm) (t : Nat) : Prop where
  frames : ∀ u, u ≠ t → m'.frames u = m.frames u
  empty : ∀ j < pageDirectoryEntries, present (m'.entry t j) = false
  free : ∀ f, m'.pmm.Free f → m.pmm.Free f ∨
    ∃ j < pageDirectoryEntries, present (m.entry t j) = true ∧ m.entry t j / pageSize = f

theorem pagingDestroyTable_spec (m : Mm) (t : Nat) : Purged m (pagingDestroyTable m t) t := by
  have h := destroyTable_loop m t pageDirectoryEntries (pagingDestroyTable_eq m t)
  refine ⟨h.1, fun j hj => ?_, h.2.2⟩
  have hempty := h.2.1 j
  rw [if_pos hj] at hempty
  exact hempty

/-- The frames that a directory maps are no page tables and no directories. -/
def MapsData (owned : Entries) (m : Mm) (live : List Nat) (d : Nat) : Prop :=
  ∀ v e, owned d (v / 1024) → m.pte d v = some e → ¬ Structural owned m live (e / pageSize)

/-- What the outer loop has done to a directory `d` after `n` of its entries. -/
structure Emptied (live : List Nat) (m m' : Mm) (d n : Nat) : Prop where
  separated : Separated userHalf m' live
  gone : ∀ i < n, present (m'.entry d i) = false
  entries : ∀ d' ∈ live, ∀ i, userHalf d' i → ¬ (d' = d ∧ i < n) → m'.entry d' i = m.entry d' i
  pages : ∀ d' ∈ live, ∀ v, userHalf d' (v / 1024) → ¬ (d' = d ∧ v / 1024 < n) →
    m'.pte d' v = m.pte d' v

/-- Emptying adds no page table. -/
theorem Emptied.structural {n : Nat} (h : Emptied live m m' d n) (hf : Structural userHalf m' live f) :
    Structural userHalf m live f := by
  rcases hf with hl | ⟨d', hd', i, ho, hp, rfl⟩
  · exact .inl hl
  · have hne : ¬ (d' = d ∧ i < n) := by
      rintro ⟨rfl, hi⟩
      rw [h.gone i hi] at hp
      cases hp
    rw [h.entries d' hd' i ho hne] at hp ⊢
    exact .inr ⟨d', hd', i, ho, hp, rfl⟩

/-- A present entry: its page table is emptied, detached and freed. -/
theorem Emptied.clear {m₁ m₂ : Mm} {n : Nat} (h : Emptied live m m₁ d n) (hd : d ∈ live)
    (hn : n < kernelPdeStart) (hdata : MapsData userHalf m live d)
    (hp : present (m₁.entry d n) = true) (hpurged : Purged m₁ m₂ (m₁.entry d n / pageSize)) :
    Emptied live m ((m₂.freePage (frameMask (m₁.entry d n))).setEntry d n 0) d (n + 1) := by
  have hsep := h.separated
  have hlive : m₁.entry d n / pageSize ∉ live := (hsep.table d hd n hn hp).2.1
  have hentry : ∀ u, u ≠ m₁.entry d n / pageSize → ∀ j, m₂.entry u j = m₁.entry u j := by
    intro u hu j
    unfold Mm.entry
    rw [hpurged.frames u hu]
  have hdir : ∀ d' ∈ live, ∀ i, m₂.entry d' i = m₁.entry d' i := fun d' hd' =>
    hentry d' fun heq => hlive (heq ▸ hd')
  have hregion : ∀ j < pageDirectoryEntries, userHalf d ((n * 1024 + j) / 1024) ∧
      ¬ (d = d ∧ (n * 1024 + j) / 1024 < n) := by
    intro j hj
    rw [page_div hj]
    exact ⟨hn, fun hlt => Nat.lt_irrefl _ hlt.2⟩
  -- What the page table maps is data, so freeing it frees no page table and no directory.
  have hsep₂ : Separated userHalf m₂ live := by
    refine hsep.reread (fun d' hd' i _ => hdir d' hd' i) fun f hf hfree => ?_
    rcases hpurged.free f hfree with hfree | ⟨j, hj, hpresent, rfl⟩
    · exact hsep.not_free hf hfree
    · have hpte : m₁.pte d (n * 1024 + j) = some (m₁.entry (m₁.entry d n / pageSize) j) := by
        rw [pte_eq hj hp, if_pos hpresent]
      obtain ⟨howned, hlater⟩ := hregion j hj
      rw [h.pages d hd _ howned hlater] at hpte
      exact hdata _ _ howned hpte (h.structural hf)
  have hself := hdir d hd n
  obtain ⟨hsep₃, hpages₃, hentry₃, hgone⟩ := hsep₂.removeTable hd hn (by rw [hself]; exact hp)
    (by rw [hself]; exact hpurged.empty)
  rw [hself] at hgone
  rw [← frameMask_div] at hgone
  have hfreed := hsep₃.freePage hgone
  refine ⟨hfreed.separated, fun i hi => ?_, fun d' hd' i ho hne => ?_, fun d' hd' v ho hne => ?_⟩
  · refine (congrArg present (hentry₃ d i)).trans ?_
    by_cases hin : i = n
    · rw [if_pos ⟨rfl, hin⟩, present_zero]
    · rw [if_neg fun h => hin h.2, hdir d hd i]
      exact h.gone i (Nat.lt_of_le_of_ne (Nat.le_of_lt_succ hi) hin)
  · refine (hentry₃ d' i).trans ?_
    have hin : ¬ (d' = d ∧ i = n) := by
      rintro ⟨hdd, rfl⟩
      exact hne ⟨hdd, Nat.lt_succ_self i⟩
    rw [if_neg hin, hdir d' hd' i]
    exact h.entries d' hd' i ho fun hlt => hne ⟨hlt.1, Nat.lt_succ_of_lt hlt.2⟩
  · refine (hfreed.pages d' hd' v ho).trans ((hpages₃ d' hd' v ho).trans ?_)
    rw [← h.pages d' hd' v ho fun hlt => hne ⟨hlt.1, Nat.lt_succ_of_lt hlt.2⟩]
    unfold Mm.pte
    simp only [hdir d' hd']
    split
    · next hp' =>
      rw [hentry]
      intro heq
      obtain ⟨rfl, hi⟩ := hsep.unique d' hd' d hd _ _ ho hn hp' hp heq
      exact hne ⟨rfl, hi ▸ Nat.lt_succ_self _⟩
    · rfl

/-- One iteration of the outer loop. -/
theorem Emptied.step {m₁ : Mm} {n : Nat} (h : Emptied live m m₁ d n) (hd : d ∈ live)
    (hn : n < kernelPdeStart) (hdata : MapsData userHalf m live d) :
    Post (fun _ => False) (fun m' => Emptied live m m' d (n + 1)) (pagingDestroyEntry d m₁ n) := by
  have hsep := h.separated
  unfold pagingDestroyEntry
  simp only []
  split
  · next hp =>
    refine .pure ⟨hsep, fun i hi => ?_, fun d' hd' i ho hne => h.entries d' hd' i ho fun hlt => hne
      ⟨hlt.1, Nat.lt_succ_of_lt hlt.2⟩, fun d' hd' v ho hne => h.pages d' hd' v ho fun hlt => hne
      ⟨hlt.1, Nat.lt_succ_of_lt hlt.2⟩⟩
    rcases Nat.lt_succ_iff_lt_or_eq.mp hi with hi | rfl
    · exact h.gone i hi
    · simpa using hp
  · next hp =>
    have hp : present (m₁.entry d n) = true := by simpa using hp
    have hdirect : direct (frameMask (m₁.entry d n)) = .ok (m₁.entry d n / pageSize) := by
      have hlt := (hsep.table d hd n hn hp).1
      rw [direct_eq_ok (frameMask_lt (m₁.entry_lt d n)), frameMask_div]
      refine ⟨?_, rfl⟩
      simp only [frameMask, pageSize, bootstrapMapSize, directFrames] at *
      omega
    rw [hdirect]
    exact .pure (h.clear hd hn hdata hp (pagingDestroyTable_spec m₁ _))

/-- Fewer directories. -/
theorem Separated.erase (h : Separated owned m live) (d : Nat) : Separated owned m (live.erase d) where
  nodup := h.nodup.erase d
  directory d' hd' := h.directory d' (List.mem_of_mem_erase hd')
  table d' hd' i ho hp := by
    obtain ⟨hlt, hlive, hfree⟩ := h.table d' (List.mem_of_mem_erase hd') i ho hp
    exact ⟨hlt, fun hl => hlive (List.mem_of_mem_erase hl), hfree⟩
  unique d' hd' d'' hd'' :=
    h.unique d' (List.mem_of_mem_erase hd') d'' (List.mem_of_mem_erase hd'')

/-- `paging_destroy_directory` frees a directory and leaves the others alone. -/
theorem Separated.destroy_post (h : Separated userHalf m live) (hd : d ∈ live)
    (hdata : MapsData userHalf m live d) :
    Post (fun _ => False) (fun m' => Kept userHalf (live.erase d) m m')
      (pagingDestroyDirectory m d) := by
  unfold pagingDestroyDirectory
  apply (Post.foldlM_range (I := fun n m' => Emptied live m m' d n) ?_ ?_).bind
  · intro m₁ he
    apply Post.pure
    have hself : d ∉ live.erase d := fun hmem => (h.nodup.mem_erase_iff.mp hmem).1 rfl
    have hgone : ¬ Structural userHalf m₁ (live.erase d) (d * pageSize / pageSize) := by
      rw [Nat.mul_div_cancel _ (by decide)]
      rintro (hl | ⟨d', hd', i, ho, hp, heq⟩)
      · exact hself hl
      · exact (he.separated.table d' (List.mem_of_mem_erase hd') i ho hp).2.1 (heq ▸ hd)
    have hkept := (he.separated.erase d).freePage hgone
    refine ⟨hkept.separated, fun d' hd' i ho => ?_, fun d' hd' v ho => ?_⟩
    · refine (hkept.entries d' hd' i ho).trans (he.entries d' (List.mem_of_mem_erase hd') i ho ?_)
      rintro ⟨rfl, -⟩
      exact hself hd'
    · refine (hkept.pages d' hd' v ho).trans (he.pages d' (List.mem_of_mem_erase hd') v ho ?_)
      rintro ⟨rfl, -⟩
      exact hself hd'
  · exact ⟨h, fun i hi => absurd hi (Nat.not_lt_zero i), fun _ _ _ _ _ => rfl, fun _ _ _ _ _ => rfl⟩
  · intro n hn m₁ he
    exact he.step hd hn hdata

/-! ## Every page table is reached -/

theorem Separated.getTable (h : Separated owned m live) (hd : d ∈ live) (ho : owned d i) :
    ∃ table, pagingGetTable m d i = .ok table := by
  unfold pagingGetTable
  simp only []
  split
  · next hp =>
    have hlt := (h.table d hd i ho hp).1
    have hdirect : direct (frameMask (m.entry d i)) = .ok (m.entry d i / pageSize) := by
      rw [direct_eq_ok (frameMask_lt (m.entry_lt d i)), frameMask_div]
      refine ⟨?_, rfl⟩
      simp only [frameMask, pageSize, bootstrapMapSize, directFrames] at *
      omega
    rw [hdirect]
    exact ⟨_, rfl⟩
  · exact ⟨_, rfl⟩

/-- `paging_translate` reads the page's entry. -/
theorem Separated.translate (h : Separated owned m live) (hd : d ∈ live)
    (ho : owned d (directoryIndex virt)) :
    pagingTranslate m d virt = .ok (((m.pte d (virt / pageSize)).map fun e =>
      frameMask e + virt % pageSize).getD 0) := by
  obtain ⟨table, ht⟩ := h.getTable hd ho
  have hok : ∃ phys, pagingTranslate m d virt = .ok phys := by
    unfold pagingTranslate
    rw [ht]
    cases table with
    | none => exact ⟨_, rfl⟩
    | some t =>
        simp only [Except.bind, bind]
        split
        · exact ⟨_, rfl⟩
        · exact ⟨_, rfl⟩
  obtain ⟨phys, hphys⟩ := hok
  rw [hphys, pagingTranslate_spec hphys, Mm.walk_eq]

/-- A page the allocator takes from the direct map is reached. -/
theorem reached_direct {p : Nat} (hreach : m.pmm.reaches = true) (h : m.allocPage = (p, m'))
    (hp : p ≠ 0) : ∃ t, direct p = .ok t := by
  obtain ⟨-, -, -, -, hnew⟩ := allocPage_addressed h
  obtain ⟨f, rfl, -, hnext, -⟩ := hnew (Pmm.addressed_of_reaches hreach) hp
  have hf : f < directFrames := by
    unfold Pmm.reaches at hreach
    rw [hnext] at hreach
    simpa using hreach
  refine ⟨f, (direct_eq_ok ?_).mpr ⟨?_, (Nat.mul_div_cancel _ (by decide)).symm⟩⟩
  · simp only [directFrames, pageSize, wordModulus] at *
    omega
  · simp only [directFrames, pageSize, bootstrapMapSize] at *
    omega

theorem Separated.pagingMap_ok (h : Separated owned m live) (phys flags : Nat) (hd : d ∈ live)
    (ho : owned d (directoryIndex virt))
    (hreach : present (m.entry d (directoryIndex virt)) = true ∨ m.pmm.reaches = true) :
    ∃ m', Neox.pagingMap m d virt phys flags = .ok m' := by
  obtain ⟨table, ht⟩ := h.getTable hd ho
  unfold Neox.pagingMap
  rw [ht]
  cases table with
  | some t => exact ⟨_, rfl⟩
  | none =>
      have hno : present (m.entry d (directoryIndex virt)) = false := by
        rcases pagingGetTable_spec ht with ⟨-, hsome, -⟩ | ⟨hno, -⟩
        · cases hsome
        · exact hno
      have hreach := hreach.resolve_left (by rw [hno]; decide)
      simp only [Except.bind, bind]
      unfold pagingAllocTable
      rcases halloc : m.allocPage with ⟨p, m₁⟩
      simp only []
      by_cases hp : p = 0
      · rw [if_pos hp]
        exact ⟨_, rfl⟩
      · rw [if_neg hp]
        obtain ⟨t, ht⟩ := reached_direct hreach halloc hp
        rw [ht]
        exact ⟨_, rfl⟩

theorem Separated.pagingUnmap_ok (h : Separated owned m live) (hd : d ∈ live)
    (ho : owned d (directoryIndex virt)) : ∃ m', Neox.pagingUnmap m d virt = .ok m' := by
  obtain ⟨table, ht⟩ := h.getTable hd ho
  unfold Neox.pagingUnmap
  simp only []
  split
  · exact ⟨_, rfl⟩
  · rw [ht]
    cases table with
    | none => exact ⟨_, rfl⟩
    | some t =>
        simp only [Except.bind, bind]
        split
        · exact ⟨_, rfl⟩
        · exact ⟨_, rfl⟩

theorem create_ok (hreach : m.pmm.reaches = true) :
    ∃ created m', pagingCreateDirectory m = .ok (created, m') := by
  unfold pagingCreateDirectory
  rcases halloc : m.allocPage with ⟨p, m₁⟩
  simp only []
  by_cases hp : p = 0
  · rw [if_pos hp]
    exact ⟨_, _, rfl⟩
  · rw [if_neg hp]
    obtain ⟨t, ht⟩ := reached_direct hreach halloc hp
    rw [ht]
    exact ⟨_, _, rfl⟩

end Neox
