import Neox.Mm.Paging

/-!
# What every frame is used for

`Uses m use` gives each physical frame one use and says that the allocator's bitmap and the paging
structures agree with it: a frame referred to by a page directory entry is the page table of that
entry and of no other, a frame referred to by a page table entry is the page mapped there and
nowhere else, and only unused frames are free. That `use` is a function is what keeps directories,
tables and pages apart.

The second part takes the primitive changes one by one: taking and returning a frame, writing to
a page, setting and clearing an entry.
-/

namespace Neox

open Bytes Pmm

/-- What a frame is used for. -/
inductive Use where
  /-- The allocator may hand it out. -/
  | free
  /-- It is never handed out: the kernel image, the boot page tables, memory that is not RAM. -/
  | reserved
  /-- It has been handed out and no paging structure refers to it. -/
  | held
  | directory
  /-- The page table of entry `index` of a directory. -/
  | table (directory index : Nat)
  /-- The frame that `page` is mapped to in a directory. -/
  | page (directory page : Nat)
  deriving DecidableEq, Repr

/-- The entries of a directory whose page tables belong to it: the user half, and in the kernel's
directory everything but the boot mappings and the recursive entry. -/
def Owns (kernelDirectory directory index : Nat) : Prop :=
  if directory = kernelDirectory then
    4 ≤ index ∧ index < 768 ∨ 772 ≤ index ∧ index < recursivePdeIndex
  else index < kernelPdeStart

/-- The number of frames the direct map reaches. -/
abbrev directFrames : Nat := 0x1000

structure Uses (m : Mm) (use : Nat → Use) : Prop where
  free_iff : ∀ f, use f = .free ↔ m.pmm.Free f
  /-- Page addresses do not wrap. -/
  limit : m.pmm.totalPages ≤ 0x100000
  managed : ∀ f, use f ≠ .reserved → f < m.pmm.totalPages
  zero : use 0 = .reserved
  kernel : use m.kernelDirectory = .directory
  window : ∀ d, use d = .directory → d < directFrames
  table : ∀ d i, use d = .directory → Owns m.kernelDirectory d i → present (m.entry d i) = true →
    use (m.entry d i / pageSize) = .table d i
  table_back : ∀ t d i, use t = .table d i → t < directFrames ∧ use d = .directory ∧
    Owns m.kernelDirectory d i ∧ present (m.entry d i) = true ∧ m.entry d i / pageSize = t
  page : ∀ t d i, use t = .table d i → ∀ j < pageDirectoryEntries,
    present (m.entry t j) = true → use (m.entry t j / pageSize) = .page d (i * 1024 + j)
  page_back : ∀ f d v, use f = .page d v → ∃ t, use t = .table d (v / 1024) ∧
    present (m.entry t (v % 1024)) = true ∧ m.entry t (v % 1024) / pageSize = f
  /-- What a process directory has copied from the kernel's is within the direct map. -/
  copied : ∀ d i, use d = .directory → kernelPdeStart ≤ i → i < pageDirectoryEntries →
    present (m.entry d i) = true → m.entry d i / pageSize < directFrames
  /-- The boot page tables still map the first 16 MiB. -/
  boot : ∀ i < 4, ∃ b, b < directFrames ∧ use b = .reserved ∧
    m.entry m.kernelDirectory (kernelPdeStart + i) = b * pageSize + 3 ∧
    ∀ j < pageDirectoryEntries, m.entry b j = (i * 1024 + j) * pageSize + 3

variable {m : Mm} {use : Nat → Use} {d i j t f e : Nat}

theorem owns_lt {k : Nat} (h : Owns k d i) : i < recursivePdeIndex := by
  unfold Owns at h
  simp only [recursivePdeIndex, kernelPdeStart] at *
  split at h <;> omega

/-- The frame an entry refers to, if it refers to one, is used for `u`. -/
def assign (use : Nat → Use) (entry : Nat) (u : Use) : Nat → Use :=
  if present entry then Function.update use (entry / pageSize) u else use

theorem owns_of_ne {k : Nat} (h : d ≠ k) : Owns k d i ↔ i < kernelPdeStart := by
  unfold Owns
  rw [if_neg h]

theorem owns_self {k : Nat} :
    Owns k k i ↔ 4 ≤ i ∧ i < 768 ∨ 772 ≤ i ∧ i < recursivePdeIndex := by
  unfold Owns
  rw [if_pos rfl]

/-- What setting an entry does to the uses: the old page is held, the new one mapped. -/
def remap (use : Nat → Use) (old entry directory page : Nat) : Nat → Use :=
  assign (assign use old .held) entry (.page directory page)

theorem update_iff {u v : Use} (h : use f ≠ v) (h' : u ≠ v) (g : Nat) :
    Function.update use f u g = v ↔ use g = v := by
  by_cases hg : g = f
  · subst hg
    rw [Function.update_self]
    exact ⟨fun e => absurd e h', fun e => absurd e h⟩
  · rw [Function.update_of_ne hg]

/-! ## Frames -/

/-- No paging structure refers to the frame. -/
def Use.Idle (u : Use) : Prop := u = .free ∨ u = .held

/-- A frame that nothing refers to moves between the allocator and its clients. -/
theorem Uses.repool {m' : Mm} {u : Use} (hu : Uses m use) (hf : (use f).Idle) (hidle : u.Idle)
    (hframes : m'.frames = m.frames) (hkernel : m'.kernelDirectory = m.kernelDirectory)
    (htotal : m'.pmm.totalPages = m.pmm.totalPages)
    (hfree : ∀ g, Function.update use f u g = .free ↔ m'.pmm.Free g) :
    Uses m' (Function.update use f u) := by
  have hentry : ∀ t i, m'.entry t i = m.entry t i := fun t i => by
    unfold Mm.entry
    rw [hframes]
  have hback : ∀ g v, ¬ v.Idle → (Function.update use f u g = v ↔ use g = v) :=
    fun g v hv => update_iff (fun h : use f = v => hv (h ▸ hf)) (fun h : u = v => hv (h ▸ hidle)) g
  refine ⟨hfree, htotal ▸ hu.limit, fun g hg => ?_, ?_, ?_, fun d hd => ?_,
    fun d i hd ho hp => ?_, fun t d i ht => ?_, fun t d i ht j hj hp => ?_, fun g d v hg => ?_,
    fun d i hd hi hi' hp => ?_, fun i hi => ?_⟩
  · rw [htotal]
    by_cases hgf : g = f
    · subst hgf
      exact hu.managed g (by rcases hf with h | h <;> simp [h])
    · exact hu.managed g (by rwa [Function.update_of_ne hgf] at hg)
  · exact (hback _ _ (by simp [Use.Idle])).mpr hu.zero
  · rw [hkernel]
    exact (hback _ _ (by simp [Use.Idle])).mpr hu.kernel
  · exact hu.window d ((hback _ _ (by simp [Use.Idle])).mp hd)
  · rw [hkernel] at ho
    rw [hentry] at hp ⊢
    exact (hback _ _ (by simp [Use.Idle])).mpr
      (hu.table d i ((hback _ _ (by simp [Use.Idle])).mp hd) ho hp)
  · obtain ⟨h1, h2, h3, h4, h5⟩ := hu.table_back t d i ((hback _ _ (by simp [Use.Idle])).mp ht)
    rw [hkernel, hentry]
    exact ⟨h1, (hback _ _ (by simp [Use.Idle])).mpr h2, h3, h4, h5⟩
  · rw [hentry] at hp ⊢
    exact (hback _ _ (by simp [Use.Idle])).mpr
      (hu.page t d i ((hback _ _ (by simp [Use.Idle])).mp ht) j hj hp)
  · obtain ⟨t, h1, h2, h3⟩ := hu.page_back g d v ((hback _ _ (by simp [Use.Idle])).mp hg)
    refine ⟨t, (hback _ _ (by simp [Use.Idle])).mpr h1, ?_⟩
    rw [hentry]
    exact ⟨h2, h3⟩
  · rw [hentry] at hp ⊢
    exact hu.copied d i ((hback _ _ (by simp [Use.Idle])).mp hd) hi hi' hp
  · obtain ⟨b, h1, h2, h3, h4⟩ := hu.boot i hi
    refine ⟨b, h1, (hback _ _ (by simp [Use.Idle])).mpr h2, ?_, fun j hj => ?_⟩
    · rw [hkernel, hentry, h3]
    · rw [hentry, h4 j hj]

/-- `pmm_alloc_page` fails, or hands out a free frame. -/
theorem Uses.allocPage {phys : Nat} {m' : Mm} (hu : Uses m use)
    (h : m.allocPage = (phys, m')) : ∃ q, m' = { m with pmm := q } ∧
    (phys = 0 ∧ SameFree m.pmm q ∧ Uses m' use ∨
    ∃ f, use f = .free ∧ phys = f * pageSize ∧ phys ≠ 0 ∧ phys < wordModulus ∧
      Uses m' (Function.update use f .held)) := by
  unfold Mm.allocPage at h
  rcases hq : pmmAllocPage m.pmm with ⟨phys', q⟩
  rw [hq] at h
  cases h
  refine ⟨q, rfl, ?_⟩
  rcases pmmAllocPage_spec hq with ⟨hz, hsame⟩ | ⟨f, hfree, -, hphys, htotal, hbit⟩
  · refine .inl ⟨hz, hsame, ?_⟩
    exact { hu with
      free_iff := fun f => (hu.free_iff f).trans hsame.free.symm
      limit := hsame.totalPages.symm ▸ hu.limit
      managed := fun f hf => hsame.totalPages.symm ▸ hu.managed f hf }
  · have huse : use f = .free := (hu.free_iff f).mpr hfree
    have hf0 : f ≠ 0 := by
      rintro rfl
      rw [hu.zero] at huse
      cases huse
    have hlt := hfree.1
    have hlim := hu.limit
    simp only [pageSize, wordModulus] at hphys
    refine .inr ⟨f, huse, ?_, ?_, ?_, ?_⟩
    · simp only [pageSize]
      omega
    · omega
    · simp only [wordModulus]
      omega
    · refine hu.repool (.inl huse) (.inr rfl) rfl rfl htotal fun g => ?_
      by_cases hgf : g = f
      · subst hgf
        simp [Pmm.Free, hbit]
      · rw [Function.update_of_ne hgf, hu.free_iff g]
        unfold Pmm.Free
        rw [htotal, hbit, Function.update_of_ne hgf]

/-- `pmm_free_page` takes back a frame that nothing refers to. -/
theorem Uses.freePage {phys : Nat} (hu : Uses m use) (h : use (phys / pageSize) = .held) :
    Uses (m.freePage phys) (Function.update use (phys / pageSize) .free) := by
  obtain ⟨htotal, hbit⟩ := pmmFreePage_spec m.pmm phys
  refine hu.repool (.inr h) (.inl rfl) rfl rfl htotal fun g => ?_
  have hlt := hu.managed _ (h ▸ by simp : use (phys / pageSize) ≠ .reserved)
  unfold Pmm.Free Mm.freePage
  rw [htotal, hbit]
  by_cases hg : g = phys / pageSize
  · subst hg
    simp [hlt]
  · rw [Function.update_of_ne hg, if_neg fun h => hg h.1]
    exact hu.free_iff g

/-- What is in a frame that is no paging structure does not matter. -/
theorem Uses.write {b : Block} (hu : Uses m use)
    (h : (use f).Idle ∨ ∃ d v, use f = .page d v) :
    Uses { m with frames := Function.update m.frames f b } use := by
  have hne : ∀ t, use t = .directory ∨ use t = .reserved ∨ (∃ d i, use t = .table d i) →
      ∀ i, ({ m with frames := Function.update m.frames f b } : Mm).entry t i = m.entry t i := by
    intro t ht i
    unfold Mm.entry
    have htf : t ≠ f := by
      rintro rfl
      rcases h with (h | h) | ⟨d, v, h⟩ <;> simp [h] at ht
    simp [htf]
  refine { hu with
    table := fun d i hd ho hp => ?_, table_back := fun t d i ht => ?_
    page := fun t d i ht j hj hp => ?_, page_back := fun g d v hg => ?_
    copied := fun d i hd hi hi' hp => ?_, boot := fun i hi => ?_ }
  · rw [hne d (.inl hd)] at hp ⊢
    exact hu.table d i hd ho hp
  · obtain ⟨h1, h2, h3⟩ := hu.table_back t d i ht
    rw [hne d (.inl h2)]
    exact ⟨h1, h2, h3⟩
  · rw [hne t (.inr (.inr ⟨d, i, ht⟩))] at hp ⊢
    exact hu.page t d i ht j hj hp
  · obtain ⟨t, h1, h2⟩ := hu.page_back g d v hg
    refine ⟨t, h1, ?_⟩
    rwa [hne t (.inr (.inr ⟨_, _, h1⟩))]
  · rw [hne d (.inl hd)] at hp ⊢
    exact hu.copied d i hd hi hi' hp
  · obtain ⟨b, h1, h2, h3, h4⟩ := hu.boot i hi
    refine ⟨b, h1, h2, ?_, fun j hj => ?_⟩
    · rw [hne _ (.inl hu.kernel), h3]
    · rw [hne _ (.inr (.inl h2)), h4 j hj]

/-! ## Page table entries -/

/-- A page table has one place. -/
theorem Uses.table_unique {t t' : Nat} (hu : Uses m use) (h : use t = .table d i)
    (h' : use t' = .table d i) : t = t' := by
  obtain ⟨-, -, -, -, rfl⟩ := hu.table_back t d i h
  obtain ⟨-, -, -, -, rfl⟩ := hu.table_back t' d i h'
  rfl

/-- A frame is mapped as `page` only by the entry of that page. -/
theorem Uses.page_iff (hu : Uses m use) (ht : use t = .table d i)
    (hj : j < pageDirectoryEntries) : use f = .page d (i * 1024 + j) ↔
      present (m.entry t j) = true ∧ f = m.entry t j / pageSize := by
  simp only [pageDirectoryEntries] at hj
  constructor
  · intro h
    obtain ⟨t', h1, h2, h3⟩ := hu.page_back f d _ h
    have hi : (i * 1024 + j) / 1024 = i := by omega
    have hj' : (i * 1024 + j) % 1024 = j := by omega
    rw [hi] at h1
    rw [hj'] at h2 h3
    cases hu.table_unique ht h1
    exact ⟨h2, h3.symm⟩
  · rintro ⟨hp, rfl⟩
    exact hu.page t d i ht j hj hp

section Remap

variable {old v : Nat} {u : Use}
  (hold : ∀ g, use g = .page d v ↔ present old = true ∧ g = old / pageSize)

include hold in
theorem remap_page : remap use old e d v f = .page d v ↔ present e = true ∧ f = e / pageSize := by
  unfold remap assign
  by_cases he : present e = true
  · by_cases hf : f = e / pageSize
    · simp [he, hf]
    · by_cases ho : present old = true
      · by_cases hfo : f = old / pageSize
        · have hne : old / pageSize ≠ e / pageSize := hfo ▸ hf
          simp only [he, if_true, ho, hfo, Function.update_of_ne hne, Function.update_self]
          simp [hne]
        · simp [he, hf, ho, hfo, hold]
      · simp [he, hf, ho, hold]
  · by_cases ho : present old = true
    · by_cases hfo : f = old / pageSize
      · simp [he, ho, hfo]
      · simp [he, ho, hfo, hold]
    · simp [he, ho, hold]

include hold in
theorem remap_of_ne (hnew : present e = true → use (e / pageSize) = .held) (hp : u ≠ .page d v)
    (hh : u ≠ .held) : remap use old e d v f = u ↔ use f = u := by
  unfold remap assign
  have hne : present e = true → f = e / pageSize → use f ≠ u := by
    rintro h rfl
    rw [hnew h]
    exact hh.symm
  have hno : present old = true → f = old / pageSize → use f ≠ u := by
    rintro h rfl
    rw [(hold _).mpr ⟨h, rfl⟩]
    exact hp.symm
  by_cases he : present e = true ∧ f = e / pageSize
  · obtain ⟨he, rfl⟩ := he
    simp only [he, if_true, Function.update_self]
    exact ⟨fun h => absurd h.symm hp, fun h => absurd h (hne he rfl)⟩
  · have h1 : (if present e = true then
        Function.update (if present old = true then Function.update use (old / pageSize) .held else use)
          (e / pageSize) (.page d v)
        else if present old = true then Function.update use (old / pageSize) .held else use) f =
        (if present old = true then Function.update use (old / pageSize) .held else use) f := by
      split
      · next h => exact Function.update_of_ne (fun hf => he ⟨h, hf⟩) _ _
      · rfl
    rw [h1]
    split
    · next ho =>
      by_cases hfo : f = old / pageSize
      · subst hfo
        rw [Function.update_self]
        exact ⟨fun h => absurd h.symm hh, fun h => absurd h (hno ho rfl)⟩
      · rw [Function.update_of_ne hfo]
    · rfl

end Remap

/-- A page table entry is set, to a held frame or to nothing. -/
theorem Uses.setEntry (hu : Uses m use) (ht : use t = .table d i) (hj : j < pageDirectoryEntries)
    (he : e < wordModulus) (hnew : present e = true → use (e / pageSize) = .held) :
    Uses (m.setEntry t j e) (remap use (m.entry t j) e d (i * 1024 + j)) := by
  have hold : ∀ g, use g = .page d (i * 1024 + j) ↔
      present (m.entry t j) = true ∧ g = m.entry t j / pageSize := fun g => hu.page_iff ht hj
  have hpage := fun g => remap_page (e := e) (f := g) hold
  have hother := fun g u hp hh => remap_of_ne (f := g) (u := u) hold hnew hp hh
  have hentry := fun t' j' => m.setEntry_entry t j t' j' he
  have hdir : ∀ t', use t' ≠ .table d i → ∀ j', (m.setEntry t j e).entry t' j' = m.entry t' j' :=
    fun t' h j' => by
      rw [hentry, if_neg]
      rintro ⟨rfl, -⟩
      exact h ht
  refine ⟨fun g => ?_, hu.limit, fun g hg => hu.managed g fun h => hg ?_, ?_, ?_, fun d' hd => ?_,
    fun d' i' hd ho hp => ?_, fun t' d' i' ht' => ?_, fun t' d' i' ht' j' hj' hp => ?_,
    fun g d' v' hg => ?_, fun d' i' hd hi hi' hp => ?_, fun i' hi' => ?_⟩
  · rw [hother g .free (by simp) (by simp)]
    exact hu.free_iff g
  · exact (hother g .reserved (by simp) (by simp)).mpr h
  · exact (hother _ _ (by simp) (by simp)).mpr hu.zero
  · exact (hother _ _ (by simp) (by simp)).mpr hu.kernel
  · exact hu.window d' ((hother _ _ (by simp) (by simp)).mp hd)
  · rw [hother _ _ (by simp) (by simp)] at hd ⊢
    rw [hdir d' (by simp [hd])] at hp ⊢
    exact hu.table d' i' hd ho hp
  · rw [hother _ _ (by simp) (by simp)] at ht'
    obtain ⟨h1, h2, h3⟩ := hu.table_back t' d' i' ht'
    rw [hdir d' (by simp [h2]), hother _ _ (by simp) (by simp)]
    exact ⟨h1, h2, h3⟩
  · rw [hother _ _ (by simp) (by simp)] at ht'
    rw [hentry] at hp ⊢
    by_cases h : t' = t ∧ j' = j
    · obtain ⟨rfl, rfl⟩ := h
      cases ht.symm.trans ht'
      rw [if_pos ⟨rfl, rfl⟩] at hp ⊢
      exact (hpage _).mpr ⟨hp, rfl⟩
    · rw [if_neg h] at hp ⊢
      have hold' := hu.page t' d' i' ht' j' hj' hp
      refine (hother _ _ (fun heq => h ?_) (by simp)).mpr hold'
      simp only [Use.page.injEq, pageDirectoryEntries] at heq hj hj'
      obtain ⟨rfl, hv⟩ := heq
      have hi : i' = i := by omega
      subst hi
      exact ⟨hu.table_unique ht' ht, by omega⟩
  · by_cases h : d' = d ∧ v' = i * 1024 + j
    · obtain ⟨rfl, rfl⟩ := h
      obtain ⟨hp, rfl⟩ := (hpage g).mp hg
      simp only [pageDirectoryEntries] at hj
      have hi : (i * 1024 + j) / 1024 = i := by omega
      have hj' : (i * 1024 + j) % 1024 = j := by omega
      refine ⟨t, ?_, ?_⟩
      · rw [hi]
        exact (hother _ _ (by simp) (by simp)).mpr ht
      · rw [hj', hentry, if_pos ⟨rfl, rfl⟩]
        exact ⟨hp, rfl⟩
    · rw [hother _ _ (by simpa using h) (by simp)] at hg
      obtain ⟨t', h1, h2⟩ := hu.page_back g d' v' hg
      refine ⟨t', (hother _ _ (by simp) (by simp)).mpr h1, ?_⟩
      rw [hentry, if_neg]
      · exact h2
      · rintro ⟨rfl, hv⟩
        cases ht.symm.trans h1
        exact h ⟨rfl, by omega⟩
  · rw [hother _ _ (by simp) (by simp)] at hd
    rw [hdir d' (by simp [hd])] at hp ⊢
    exact hu.copied d' i' hd hi hi' hp
  · obtain ⟨b, h1, h2, h3, h4⟩ := hu.boot i' hi'
    refine ⟨b, h1, (hother _ _ (by simp) (by simp)).mpr h2, ?_, fun j' hj' => ?_⟩
    · rw [← h3]
      exact hdir _ (by simp [hu.kernel]) _
    · rw [← h4 j' hj']
      exact hdir _ (by simp [h2]) _

/-! ## Page directory entries -/

/-- An empty page table is attached to a directory. -/
theorem Uses.addTable (hu : Uses m use) (hd : use d = .directory) (ho : Owns m.kernelDirectory d i)
    (hno : present (m.entry d i) = false) (ht : use t = .held) (hlt : t < directFrames)
    (hzero : ∀ j, m.entry t j = 0) (he : e < wordModulus) (hp : present e = true)
    (hte : e / pageSize = t) : Uses (m.setEntry d i e) (Function.update use t (.table d i)) := by
  have hlabel : ∀ g u, u ≠ .held → u ≠ .table d i →
      (Function.update use t (.table d i) g = u ↔ use g = u) := fun g u hh hu' =>
    update_iff (fun h => hh (h.symm.trans ht)) hu'.symm g
  have htable : ∀ g d' i', Function.update use t (.table d i) g = .table d' i' ↔
      (g = t ∧ d' = d ∧ i' = i) ∨ g ≠ t ∧ use g = .table d' i' := by
    intro g d' i'
    by_cases hg : g = t
    · subst hg
      simp [eq_comm]
    · simp [hg]
  have hentry := fun t' j' => m.setEntry_entry d i t' j' he
  have hkeep : ∀ t', use t' ≠ .directory → ∀ j', (m.setEntry d i e).entry t' j' = m.entry t' j' :=
    fun t' h j' => by
      rw [hentry, if_neg]
      rintro ⟨rfl, -⟩
      exact h hd
  refine ⟨fun g => ?_, hu.limit, fun g hg => hu.managed g fun h => hg ?_, ?_, ?_, fun d' hd' => ?_,
    fun d' i' hd' ho' hp' => ?_, fun t' d' i' ht' => ?_, fun t' d' i' ht' j' hj' hp' => ?_,
    fun g d' v' hg => ?_, fun d' i' hd' hi hi' hp' => ?_, fun i' hi' => ?_⟩
  · rw [hlabel g _ (by simp) (by simp)]
    exact hu.free_iff g
  · exact (hlabel g _ (by simp) (by simp)).mpr h
  · exact (hlabel _ _ (by simp) (by simp)).mpr hu.zero
  · exact (hlabel _ _ (by simp) (by simp)).mpr hu.kernel
  · exact hu.window d' ((hlabel _ _ (by simp) (by simp)).mp hd')
  · rw [hlabel _ _ (by simp) (by simp)] at hd'
    rw [hentry] at hp' ⊢
    by_cases h : d' = d ∧ i' = i
    · obtain ⟨rfl, rfl⟩ := h
      rw [if_pos ⟨rfl, rfl⟩, hte]
      simp
    · rw [if_neg h] at hp' ⊢
      exact (hlabel _ _ (by simp) (by simpa using h)).mpr (hu.table d' i' hd' ho' hp')
  · rcases (htable t' d' i').mp ht' with ⟨rfl, rfl, rfl⟩ | ⟨hne, ht'⟩
    · rw [hentry, if_pos ⟨rfl, rfl⟩]
      exact ⟨hlt, (hlabel _ _ (by simp) (by simp)).mpr hd, ho, hp, hte⟩
    · obtain ⟨h1, h2, h3, h4, h5⟩ := hu.table_back t' d' i' ht'
      rw [hentry, if_neg]
      · exact ⟨h1, (hlabel _ _ (by simp) (by simp)).mpr h2, h3, h4, h5⟩
      · rintro ⟨rfl, rfl⟩
        rw [hno] at h4
        cases h4
  · rcases (htable t' d' i').mp ht' with ⟨rfl, rfl, rfl⟩ | ⟨hne, ht'⟩
    · rw [hkeep _ (by simp [ht]), hzero] at hp'
      cases hp'
    · rw [hkeep _ (by simp [ht'])] at hp' ⊢
      exact (hlabel _ _ (by simp) (by simp)).mpr (hu.page t' d' i' ht' j' hj' hp')
  · obtain ⟨t', h1, h2⟩ := hu.page_back g d' v' ((hlabel _ _ (by simp) (by simp)).mp hg)
    refine ⟨t', (htable _ _ _).mpr (.inr ⟨?_, h1⟩), ?_⟩
    · rintro rfl
      rw [ht] at h1
      cases h1
    · rwa [hkeep _ (by simp [h1])]
  · rw [hlabel _ _ (by simp) (by simp)] at hd'
    rw [hentry] at hp' ⊢
    by_cases h : d' = d ∧ i' = i
    · rw [if_pos h, hte]
      exact hlt
    · rw [if_neg h] at hp' ⊢
      exact hu.copied d' i' hd' hi hi' hp'
  · obtain ⟨b, h1, h2, h3, h4⟩ := hu.boot i' hi'
    refine ⟨b, h1, (hlabel _ _ (by simp) (by simp)).mpr h2, ?_, fun j' hj' => ?_⟩
    · rw [← h3, Mm.setEntry_kernelDirectory, hentry, if_neg]
      rintro ⟨rfl, rfl⟩
      have := owns_self.mp ho
      simp only [kernelPdeStart] at this
      omega
    · rw [← h4 j' hj']
      exact hkeep _ (by simp [h2]) _

/-- A page table that maps nothing is detached. -/
theorem Uses.removeTable (hu : Uses m use) (ht : use t = .table d i)
    (hempty : ∀ j < pageDirectoryEntries, present (m.entry t j) = false) :
    Uses (m.setEntry d i 0) (Function.update use t .held) := by
  obtain ⟨-, hd, ho, hpres, hte⟩ := hu.table_back t d i ht
  have hlabel : ∀ g u, u ≠ .held → u ≠ .table d i → (Function.update use t .held g = u ↔ use g = u) :=
    fun g u hh hu' => update_iff (fun h => hu' (h.symm.trans ht)) hh.symm g
  have htable : ∀ g d' i', Function.update use t .held g = .table d' i' ↔
      g ≠ t ∧ use g = .table d' i' := by
    intro g d' i'
    by_cases hg : g = t
    · subst hg
      simp
    · simp [hg]
  have hentry := fun t' j' => m.setEntry_entry d i t' j' (show (0 : Nat) < wordModulus by decide)
  have hkeep : ∀ t', use t' ≠ .directory → ∀ j', (m.setEntry d i 0).entry t' j' = m.entry t' j' :=
    fun t' h j' => by
      rw [hentry, if_neg]
      rintro ⟨rfl, -⟩
      exact h hd
  refine ⟨fun g => ?_, hu.limit, fun g hg => hu.managed g fun h => hg ?_, ?_, ?_, fun d' hd' => ?_,
    fun d' i' hd' ho' hp' => ?_, fun t' d' i' ht' => ?_, fun t' d' i' ht' j' hj' hp' => ?_,
    fun g d' v' hg => ?_, fun d' i' hd' hi hi' hp' => ?_, fun i' hi' => ?_⟩
  · rw [hlabel g _ (by simp) (by simp)]
    exact hu.free_iff g
  · exact (hlabel g _ (by simp) (by simp)).mpr h
  · exact (hlabel _ _ (by simp) (by simp)).mpr hu.zero
  · exact (hlabel _ _ (by simp) (by simp)).mpr hu.kernel
  · exact hu.window d' ((hlabel _ _ (by simp) (by simp)).mp hd')
  · rw [hlabel _ _ (by simp) (by simp)] at hd'
    rw [hentry] at hp' ⊢
    by_cases h : d' = d ∧ i' = i
    · rw [if_pos h] at hp'
      cases hp'
    · rw [if_neg h] at hp' ⊢
      exact (hlabel _ _ (by simp) (by simpa using h)).mpr (hu.table d' i' hd' ho' hp')
  · obtain ⟨hne, ht'⟩ := (htable t' d' i').mp ht'
    obtain ⟨h1, h2, h3, h4, h5⟩ := hu.table_back t' d' i' ht'
    rw [hentry, if_neg]
    · exact ⟨h1, (hlabel _ _ (by simp) (by simp)).mpr h2, h3, h4, h5⟩
    · rintro ⟨rfl, rfl⟩
      exact hne (h5.symm.trans hte)
  · obtain ⟨hne, ht'⟩ := (htable t' d' i').mp ht'
    rw [hkeep _ (by simp [ht'])] at hp' ⊢
    exact (hlabel _ _ (by simp) (by simp)).mpr (hu.page t' d' i' ht' j' hj' hp')
  · obtain ⟨t', h1, h2⟩ := hu.page_back g d' v' ((hlabel _ _ (by simp) (by simp)).mp hg)
    refine ⟨t', (htable _ _ _).mpr ⟨?_, h1⟩, ?_⟩
    · rintro rfl
      rw [hempty _ (Nat.mod_lt _ (by decide))] at h2
      cases h2.1
    · rwa [hkeep _ (by simp [h1])]
  · rw [hlabel _ _ (by simp) (by simp)] at hd'
    rw [hentry] at hp' ⊢
    by_cases h : d' = d ∧ i' = i
    · rw [if_pos h] at hp'
      cases hp'
    · rw [if_neg h] at hp' ⊢
      exact hu.copied d' i' hd' hi hi' hp'
  · obtain ⟨b, h1, h2, h3, h4⟩ := hu.boot i' hi'
    refine ⟨b, h1, (hlabel _ _ (by simp) (by simp)).mpr h2, ?_, fun j' hj' => ?_⟩
    · rw [← h3, Mm.setEntry_kernelDirectory, hentry, if_neg]
      rintro ⟨rfl, rfl⟩
      have := owns_self.mp ho
      simp only [kernelPdeStart] at this
      omega
    · rw [← h4 j' hj']
      exact hkeep _ (by simp [h2]) _

/-! ## Directories -/

/-- A held frame becomes a directory that has copied the kernel half of the kernel's. -/
theorem Uses.addDirectory (hu : Uses m use) (hd : use d = .held) (hlt : d < directFrames)
    (huser : ∀ i < kernelPdeStart, m.entry d i = 0)
    (hkernel : ∀ i, kernelPdeStart ≤ i → m.entry d i = m.entry m.kernelDirectory i) :
    Uses m (Function.update use d .directory) := by
  have hlabel : ∀ g u, u ≠ .held → u ≠ .directory →
      (Function.update use d .directory g = u ↔ use g = u) := fun g u hh hu' =>
    update_iff (fun h => hh (h.symm.trans hd)) hu'.symm g
  have hdir : ∀ g, Function.update use d .directory g = .directory ↔ g = d ∨ use g = .directory := by
    intro g
    by_cases hg : g = d
    · simp [hg]
    · simp [hg]
  have hdk : d ≠ m.kernelDirectory := by
    rintro rfl
    rw [hu.kernel] at hd
    cases hd
  refine ⟨fun g => ?_, hu.limit, fun g hg => hu.managed g fun h => hg ?_, ?_, ?_, fun d' hd' => ?_,
    fun d' i' hd' ho' hp' => ?_, fun t' d' i' ht' => ?_, fun t' d' i' ht' j' hj' hp' => ?_,
    fun g d' v' hg => ?_, fun d' i' hd' hi hi' hp' => ?_, fun i' hi' => ?_⟩
  · rw [hlabel g _ (by simp) (by simp)]
    exact hu.free_iff g
  · exact (hlabel g _ (by simp) (by simp)).mpr h
  · exact (hlabel _ _ (by simp) (by simp)).mpr hu.zero
  · exact (hdir _).mpr (.inr hu.kernel)
  · rcases (hdir d').mp hd' with rfl | hd'
    · exact hlt
    · exact hu.window d' hd'
  · rcases (hdir d').mp hd' with rfl | hd'
    · rw [huser i' ((owns_of_ne hdk).mp ho')] at hp'
      cases hp'
    · exact (hlabel _ _ (by simp) (by simp)).mpr (hu.table d' i' hd' ho' hp')
  · obtain ⟨h1, h2, h3⟩ := hu.table_back t' d' i' ((hlabel _ _ (by simp) (by simp)).mp ht')
    exact ⟨h1, (hdir d').mpr (.inr h2), h3⟩
  · exact (hlabel _ _ (by simp) (by simp)).mpr
      (hu.page t' d' i' ((hlabel _ _ (by simp) (by simp)).mp ht') j' hj' hp')
  · obtain ⟨t', h1, h2⟩ := hu.page_back g d' v' ((hlabel _ _ (by simp) (by simp)).mp hg)
    exact ⟨t', (hlabel _ _ (by simp) (by simp)).mpr h1, h2⟩
  · rcases (hdir d').mp hd' with rfl | hd'
    · rw [hkernel i' hi] at hp' ⊢
      exact hu.copied _ i' hu.kernel hi hi' hp'
    · exact hu.copied d' i' hd' hi hi' hp'
  · obtain ⟨b, h1, h2, h3⟩ := hu.boot i' hi'
    exact ⟨b, h1, (hlabel _ _ (by simp) (by simp)).mpr h2, h3⟩

/-- A process directory without page tables is given up. -/
theorem Uses.removeDirectory (hu : Uses m use) (hd : use d = .directory)
    (hdk : d ≠ m.kernelDirectory) (hempty : ∀ i < kernelPdeStart, present (m.entry d i) = false) :
    Uses m (Function.update use d .held) := by
  have hlabel : ∀ g u, u ≠ .held → u ≠ .directory →
      (Function.update use d .held g = u ↔ use g = u) := fun g u hh hu' =>
    update_iff (fun h => hu' (h.symm.trans hd)) hh.symm g
  have hdir : ∀ g, Function.update use d .held g = .directory ↔ g ≠ d ∧ use g = .directory := by
    intro g
    by_cases hg : g = d
    · simp [hg]
    · simp [hg]
  refine ⟨fun g => ?_, hu.limit, fun g hg => hu.managed g fun h => hg ?_, ?_, ?_, fun d' hd' => ?_,
    fun d' i' hd' ho' hp' => ?_, fun t' d' i' ht' => ?_, fun t' d' i' ht' j' hj' hp' => ?_,
    fun g d' v' hg => ?_, fun d' i' hd' hi hi' hp' => ?_, fun i' hi' => ?_⟩
  · rw [hlabel g _ (by simp) (by simp)]
    exact hu.free_iff g
  · exact (hlabel g _ (by simp) (by simp)).mpr h
  · exact (hlabel _ _ (by simp) (by simp)).mpr hu.zero
  · exact (hdir _).mpr ⟨hdk.symm, hu.kernel⟩
  · exact hu.window d' ((hdir d').mp hd').2
  · exact (hlabel _ _ (by simp) (by simp)).mpr (hu.table d' i' ((hdir d').mp hd').2 ho' hp')
  · obtain ⟨h1, h2, h3, h4, h5⟩ := hu.table_back t' d' i' ((hlabel _ _ (by simp) (by simp)).mp ht')
    refine ⟨h1, (hdir d').mpr ⟨?_, h2⟩, h3, h4, h5⟩
    rintro rfl
    rw [hempty i' ((owns_of_ne hdk).mp h3)] at h4
    cases h4
  · exact (hlabel _ _ (by simp) (by simp)).mpr
      (hu.page t' d' i' ((hlabel _ _ (by simp) (by simp)).mp ht') j' hj' hp')
  · obtain ⟨t', h1, h2⟩ := hu.page_back g d' v' ((hlabel _ _ (by simp) (by simp)).mp hg)
    exact ⟨t', (hlabel _ _ (by simp) (by simp)).mpr h1, h2⟩
  · exact hu.copied d' i' ((hdir d').mp hd').2 hi hi' hp'
  · obtain ⟨b, h1, h2, h3⟩ := hu.boot i' hi'
    exact ⟨b, h1, (hlabel _ _ (by simp) (by simp)).mpr h2, h3⟩

end Neox
