import Neox.Mm.UserAccess

/-!
# The validation of user memory

What `paging_user_range_valid` and `paging_user_string_valid` return. The loop of the first counts a
`uint32_t` up page by page; it is written out here and shown to be a test of all pages of the range.
Page tables have to be in the direct map, which is what `paging_get_table` relies on.
-/

namespace Neox

open Bytes Traced Checked

variable {m : Mm} {use : Nat → Use} {d virt addr len n k v : Nat}

/-! ## Pages -/

/-- The page tables of the directory are in the direct map. -/
def DirectTables (m : Mm) (directory : Nat) : Prop :=
  ∀ i < pageDirectoryEntries, present (m.entry directory i) = true →
    m.entry directory i / pageSize < directFrames

/-- Page `v` has a directory entry that is present, and a page table entry that is present and has
`PAGE_USER`. -/
structure UserPage (m : Mm) (directory v : Nat) : Prop where
  table : present (m.entry directory (v / 1024)) = true
  page : present (m.entry (m.entry directory (v / 1024) / pageSize) (v % 1024)) = true
  user : userAccess (m.entry (m.entry directory (v / 1024) / pageSize) (v % 1024)) = true

theorem userAccessible_iff (hlt : virt < wordModulus) :
    UserAccessible m d virt ↔ UserPage m d (virt / pageSize) := by
  unfold UserAccessible Mm.pte
  constructor
  · intro h
    obtain ⟨-, e, he, huser⟩ := h
    by_cases htable : present (m.entry d (virt / pageSize / 1024)) = true
    · simp only [htable, if_true] at he
      by_cases hpage : present (m.entry (m.entry d (virt / pageSize / 1024) / pageSize)
          (virt / pageSize % 1024)) = true
      · rw [if_pos hpage] at he
        cases he
        exact ⟨htable, hpage, huser⟩
      · rw [if_neg hpage] at he
        cases he
    · simp only [htable] at he
      cases he
  · intro h
    refine ⟨hlt, _, ?_, h.user⟩
    simp only [h.table, if_true]
    rw [if_pos h.page]

/-- `paging_get_table` follows the entry. -/
theorem DirectTables.getTable (h : DirectTables m d) (hk : k < pageDirectoryEntries) :
    pagingGetTable m d k =
      .ok (if present (m.entry d k) then some (m.entry d k / pageSize) else none) := by
  unfold pagingGetTable
  dsimp only
  by_cases hp : present (m.entry d k) = true
  · have hlt := m.entry_lt d k
    have hdirect : direct (frameMask (m.entry d k)) = .ok (m.entry d k / pageSize) := by
      have hframe := h k hk hp
      rw [direct_eq_ok (frameMask_lt hlt), frameMask_div]
      refine ⟨?_, rfl⟩
      simp only [frameMask, pageSize, bootstrapMapSize, directFrames] at *
      omega
    rw [if_pos hp, if_pos hp, hdirect]
    rfl
  · rw [if_neg hp, if_neg hp]
    rfl

/-- The body of the loop. -/
theorem DirectTables.userPage (h : DirectTables m d) (hlt : virt < wordModulus) :
    ∃ valid, pagingUserPage m d virt = .ok valid ∧
      (valid = true ↔ UserPage m d (virt / pageSize)) := by
  have hi : directoryIndex virt < pageDirectoryEntries := by
    simp only [directoryIndex, pageDirectoryEntries, wordModulus] at *
    omega
  have hindex : tableIndex virt = virt / pageSize % 1024 := rfl
  unfold pagingUserPage
  rw [h.getTable hi, ok_bind, directoryIndex_eq, hindex]
  by_cases hp : present (m.entry d (virt / pageSize / 1024)) = true
  · rw [if_pos hp]
    refine ⟨_, rfl, ?_⟩
    rw [Bool.and_eq_true]
    constructor
    · intro hbits
      exact ⟨hp, hbits.1, hbits.2⟩
    · intro hpage
      exact ⟨hpage.page, hpage.user⟩
  · rw [if_neg hp]
    refine ⟨false, rfl, ?_⟩
    constructor
    · intro hfalse
      cases hfalse
    · intro hpage
      exact absurd hpage.table hp

/-! ## `paging_user_range_valid` -/

/-- The loop from `page` on, for at most `n` iterations; `page` is a `uintptr_t`. -/
def pagingUserRangeFrom (m : Mm) (directory page last : Nat) : Nat → Except Stop Bool
  | 0 => throw .hang
  | n + 1 =>
      if last < page then return true
      else do
        if !(← pagingUserPage m directory page) then return false
        if page = last then return true
        pagingUserRangeFrom m directory ((page + pageSize) % wordModulus) last n

/-- `paging_user_range_valid` of a directory that is not `NULL`, with at most `n` iterations of the
loop. -/
def pagingUserRange (m : Mm) (directory addr len n : Nat) : Except Stop Bool :=
  if len = 0 then return true
  else if (addr + len) % wordModulus < addr then return false
  else
    pagingUserRangeFrom m directory (frameMask addr) (frameMask ((addr + len - 1) % wordModulus)) n

/-- The loop tests one page after the other. The last one may be the last of the address space: there
the loop ends before `page` wraps. -/
theorem pagingUserRangeFrom_eq (page k : Nat) (hlast : page + k * pageSize < wordModulus)
    (hn : k < n) :
    pagingUserRangeFrom m d page (page + k * pageSize) n =
      (List.range (k + 1)).allM fun i => pagingUserPage m d (page + i * pageSize) := by
  induction k generalizing page n with
  | zero =>
      obtain ⟨n, rfl⟩ := Nat.exists_eq_succ_of_ne_zero (Nat.ne_of_gt hn)
      rw [Nat.zero_mul, Nat.add_zero]
      unfold pagingUserRangeFrom
      rw [if_neg (Nat.lt_irrefl _), show List.range 1 = [0] from rfl, List.allM, Nat.zero_mul,
        Nat.add_zero]
      cases pagingUserPage m d page with
      | error e => rfl
      | ok valid =>
          cases valid with
          | false => rfl
          | true =>
              rw [ok_bind, if_neg (by decide), if_pos rfl]
              rfl
  | succ k ih =>
      obtain ⟨n, rfl⟩ := Nat.exists_eq_succ_of_ne_zero (Nat.ne_of_gt (Nat.zero_lt_of_lt hn))
      have hstep : page + (k + 1) * pageSize = page + pageSize + k * pageSize := by
        rw [Nat.succ_mul]
        omega
      have hnext : (page + pageSize) % wordModulus = page + pageSize := by
        apply Nat.mod_eq_of_lt
        omega
      have hne : page ≠ page + (k + 1) * pageSize := by
        simp only [pageSize]
        omega
      unfold pagingUserRangeFrom
      rw [if_neg (by omega), List.range_succ_eq_map, List.allM, allM_map, Nat.zero_mul, Nat.add_zero,
        if_neg hne, hnext, hstep, ih (page + pageSize) (by omega) (by omega)]
      cases pagingUserPage m d page with
      | error e => rfl
      | ok valid =>
          cases valid with
          | false => rfl
          | true =>
              have hshift : ∀ i, page + pageSize + i * pageSize = page + i.succ * pageSize := by
                intro i
                rw [Nat.succ_mul]
                omega
              simp only [hshift]
              rfl

/-- There is an iteration for each page, and never more than the address space has pages. -/
theorem pagingUserRange_eq (hlen : len < wordModulus) (hn : wordModulus / pageSize ≤ n) :
    pagingUserRange m d addr len n = pagingUserRangeValid m d addr len := by
  unfold pagingUserRange pagingUserRangeValid
  by_cases hzero : len = 0
  · rw [if_pos hzero, if_pos hzero]
  rw [if_neg hzero, if_neg hzero]
  by_cases hwrap : (addr + len) % wordModulus < addr
  · rw [if_pos hwrap, if_pos hwrap]
  rw [if_neg hwrap, if_neg hwrap]
  dsimp only
  have hend : addr + len - 1 < wordModulus ∧ (addr + len - 1) % wordModulus = addr + len - 1 := by
    simp only [wordModulus] at *
    omega
  rw [hend.2]
  have hle : frameMask addr ≤ frameMask (addr + len - 1) := by
    simp only [frameMask, pageSize]
    omega
  have hlast : frameMask addr + (frameMask (addr + len - 1) - frameMask addr) / pageSize * pageSize =
      frameMask (addr + len - 1) := by
    simp only [frameMask, pageSize] at *
    omega
  have hloop := pagingUserRangeFrom_eq (m := m) (d := d) (n := n) (frameMask addr)
    ((frameMask (addr + len - 1) - frameMask addr) / pageSize)
  rw [hlast] at hloop
  apply hloop
  · exact Nat.lt_of_le_of_lt (Nat.div_mul_le_self _ _) hend.1
  · simp only [frameMask, pageSize, wordModulus] at *
    omega

/-- What the test of all pages says. -/
theorem pagingUserRangeValid_returns (addr len : Nat) (hdirect : DirectTables m d)
    (haddr : addr < wordModulus) (hlen : len < wordModulus) :
    ∃ valid, pagingUserRangeValid m d addr len = .ok valid ∧
      (valid = true ↔ len = 0 ∨ addr + len < wordModulus ∧
        ∀ v, (∃ k < len, (addr + k) / pageSize = v) → UserPage m d v) := by
  unfold pagingUserRangeValid
  by_cases hzero : len = 0
  · rw [if_pos hzero]
    exact ⟨true, rfl, iff_of_true rfl (.inl hzero)⟩
  rw [if_neg hzero]
  by_cases hwrap : (addr + len) % wordModulus < addr
  · rw [if_pos hwrap]
    refine ⟨false, rfl, iff_of_false (by decide) ?_⟩
    rintro (hnone | ⟨hend, -⟩)
    · exact hzero hnone
    · rw [Nat.mod_eq_of_lt hend] at hwrap
      omega
  rw [if_neg hwrap]
  dsimp only
  have hend : addr + len < wordModulus := by
    simp only [wordModulus] at *
    omega
  rw [Nat.mod_eq_of_lt (show addr + len - 1 < wordModulus by omega)]
  -- Iteration `i` is about page `i` of the range.
  have hpage : ∀ i < (frameMask (addr + len - 1) - frameMask addr) / pageSize + 1,
      frameMask addr + i * pageSize < wordModulus ∧
        (frameMask addr + i * pageSize) / pageSize = addr / pageSize + i := by
    intro i hi
    simp only [frameMask, pageSize, wordModulus] at *
    omega
  obtain ⟨valid, hvalid, hiff⟩ := allM_returns (f := fun i => pagingUserPage m d
    (frameMask addr + i * pageSize)) (l := List.range
      ((frameMask (addr + len - 1) - frameMask addr) / pageSize + 1)) fun i hi => by
    obtain ⟨b, hb, -⟩ := hdirect.userPage (hpage i (List.mem_range.mp hi)).1
    exact ⟨b, hb⟩
  refine ⟨valid, hvalid, hiff.trans ?_⟩
  have htest : ∀ i < (frameMask (addr + len - 1) - frameMask addr) / pageSize + 1,
      (pagingUserPage m d (frameMask addr + i * pageSize) = .ok true ↔
        UserPage m d (addr / pageSize + i)) := by
    intro i hi
    obtain ⟨hlt, hdiv⟩ := hpage i hi
    obtain ⟨b, hb, hbiff⟩ := hdirect.userPage hlt
    rw [hb, ← hdiv, ← hbiff, Except.ok.injEq]
  constructor
  · intro hall
    refine .inr ⟨hend, fun v hv => ?_⟩
    obtain ⟨k, hk, rfl⟩ := hv
    have hi : (addr + k) / pageSize - addr / pageSize <
        (frameMask (addr + len - 1) - frameMask addr) / pageSize + 1 := by
      simp only [frameMask, pageSize] at *
      omega
    have hthere := (htest _ hi).mp (hall _ (List.mem_range.mpr hi))
    rwa [Nat.add_sub_cancel' (Nat.div_le_div_right (Nat.le_add_right addr k))] at hthere
  · intro hall i hi
    have hi := List.mem_range.mp hi
    apply (htest i hi).mpr
    refine (hall.resolve_left hzero).2 _ ⟨max addr ((addr / pageSize + i) * pageSize) - addr, ?_, ?_⟩
    · simp only [frameMask, pageSize] at *
      omega
    · simp only [frameMask, pageSize] at *
      omega

/-- `paging_user_range_valid` returns, and `true` exactly when the range is empty, or ends in the address
space and each of its pages is one the user may access. -/
theorem user_range_valid_iff (addr len : Nat) (hdirect : DirectTables m d)
    (haddr : addr < wordModulus) (hlen : len < wordModulus) :
    ∃ valid, (∀ n, wordModulus / pageSize ≤ n → pagingUserRange m d addr len n = .ok valid) ∧
      (valid = true ↔ len = 0 ∨ addr + len < wordModulus ∧
        ∀ v, (∃ k < len, (addr + k) / pageSize = v) → UserPage m d v) := by
  obtain ⟨valid, hvalid, hiff⟩ := pagingUserRangeValid_returns addr len hdirect haddr hlen
  exact ⟨valid, fun n hn => (pagingUserRange_eq hlen hn).trans hvalid, hiff⟩

/-- Directory 1 maps the page at 0x400000 for the user, and a page of the kernel half that is not for the
user. -/
def onePageMm : Mm where
  pmm := { totalPages := 16, bitmap := fun _ => false, freePages := 8, failAllocations := 0 }
  frames f :=
    if f = 1 then setWord (setWord zero 1 0x2007) 768 0x3003
    else if f = 2 then setWord zero 0 0x5007
    else if f = 3 then setWord zero 0 0x6003
    else if f = 5 then fun k => if k = 3 then 0 else 0x61
    else zero
  kernelDirectory := 0
  heap := []
  heapEnd := 0
  stackSlots _ := false
  trace := []

theorem onePageMm_directory (i : Nat) :
    onePageMm.entry 1 i = if i = 768 then 0x3003 else if i = 1 then 0x2007 else 0 := by
  show word (setWord (setWord zero 1 0x2007) 768 0x3003) i = _
  rw [word_setWord _ 768 i (by decide), word_setWord _ 1 i (by decide), word_zero]

theorem onePageMm_kernelTable (j : Nat) : onePageMm.entry 3 j = if j = 0 then 0x6003 else 0 := by
  show word (setWord zero 0 0x6003) j = _
  rw [word_setWord _ 0 j (by decide), word_zero]

theorem onePageMm_closed : KernelHalfClosed onePageMm 1 := by
  intro virt hhigh h
  have hpage := (userAccessible_iff h.1).mp h
  have hi : virt / pageSize / 1024 = 768 := by
    have htable := hpage.table
    rw [onePageMm_directory] at htable
    by_contra hne
    rw [if_neg hne, if_neg (by simp only [kernelVirtBase, pageSize] at *; omega)] at htable
    cases htable
  have huser := hpage.user
  rw [hi, onePageMm_directory, if_pos rfl, show 0x3003 / pageSize = 3 from rfl,
    onePageMm_kernelTable] at huser
  by_cases hj : virt / pageSize % 1024 = 0
  · rw [if_pos hj] at huser
    cases huser
  · rw [if_neg hj] at huser
    cases huser

theorem onePageMm_direct : DirectTables onePageMm 1 := by
  intro i _ hp
  rw [onePageMm_directory] at hp ⊢
  by_cases hkernel : i = 768
  · rw [if_pos hkernel]
    decide
  · rw [if_neg hkernel] at hp ⊢
    by_cases huser : i = 1
    · rw [if_pos huser]
      decide
    · rw [if_neg huser] at hp
      cases hp

/-- The last byte of the page is in a valid range, and the byte behind it is not. -/
theorem user_range_valid_one : ∃ one two,
    (∀ n, wordModulus / pageSize ≤ n → pagingUserRange onePageMm 1 0x400FFF 1 n = .ok one) ∧
      (∀ n, wordModulus / pageSize ≤ n → pagingUserRange onePageMm 1 0x400FFF 2 n = .ok two) ∧
      one = true ∧ two = false := by
  obtain ⟨one, hone, hiff⟩ := user_range_valid_iff 0x400FFF 1 onePageMm_direct
    (by decide) (by decide)
  obtain ⟨two, htwo, hiff'⟩ := user_range_valid_iff 0x400FFF 2 onePageMm_direct
    (by decide) (by decide)
  refine ⟨one, two, hone, htwo, hiff.mpr (.inr ⟨by decide, ?_⟩), ?_⟩
  · rintro v ⟨k, hk, rfl⟩
    obtain rfl : k = 0 := by omega
    exact ⟨by decide +kernel, by decide +kernel, by decide +kernel⟩
  · rw [← Bool.not_eq_true, hiff']
    rintro (hzero | ⟨-, hpages⟩)
    · cases hzero
    · have hbehind := (hpages 0x401 ⟨1, by decide, by decide⟩).page
      exact absurd hbehind (by decide +kernel)

/-! ## `paging_user_string_valid` -/

/-- A string for the user begins at `virt`: its `NUL` is in the user half, and the user may access every
byte of it. -/
def UserStringAt (m : Mm) (directory virt : Nat) : Prop :=
  ∃ n, virt + n ≤ userVirtEnd ∧ (∀ k ≤ n, UserAccessible m directory (virt + k)) ∧
    m.readByte directory (virt + n) = .ok 0

/-- Bytes that are not `NUL` can be left out. -/
theorem userStringAt_skip (hok : ∀ j < k, UserAccessible m d (virt + j))
    (hchars : ∀ j < k, m.readByte d (virt + j) ≠ .ok 0) :
    UserStringAt m d virt ↔ UserStringAt m d (virt + k) := by
  constructor
  · intro h
    obtain ⟨n, hend, haccess, hzero⟩ := h
    have hkn : k ≤ n := by
      by_contra hlt
      exact hchars n (by omega) hzero
    obtain ⟨j, rfl⟩ := Nat.exists_eq_add_of_le hkn
    refine ⟨j, by omega, fun i hi => ?_, Nat.add_assoc virt k j ▸ hzero⟩
    have hi' := haccess (k + i) (by omega)
    rwa [← Nat.add_assoc] at hi'
  · intro h
    obtain ⟨n, hend, haccess, hzero⟩ := h
    refine ⟨k + n, by omega, fun j hj => ?_, Nat.add_assoc virt k n ▸ hzero⟩
    rcases Nat.lt_or_ge j k with hjk | hjk
    · exact hok j hjk
    · obtain ⟨i, rfl⟩ := Nat.exists_eq_add_of_le hjk
      have hi := haccess i (by omega)
      rwa [Nat.add_assoc] at hi

namespace User

theorem readByte_result (m : Mm) (d virt : Nat) : (readByte m d virt).result = m.readByte d virt := rfl

/-- The inner loop, over bytes the user may access. -/
theorem pagingScanPage_returns (hclosed : KernelHalfClosed m d)
    (hok : ∀ k < n, UserAccessible m d (virt + k)) :
    (∃ a, (pagingScanPage m d virt n).result = .ok (some true, a) ∧ UserStringAt m d virt) ∨
      (∃ a, (pagingScanPage m d virt n).result = .ok (some false, a) ∧ ¬ UserStringAt m d virt) ∨
      (pagingScanPage m d virt n).result = .ok (none, virt + n) ∧
        ∀ j < n, m.readByte d (virt + j) ≠ .ok 0 := by
  induction n generalizing virt with
  | zero => exact .inr (.inr ⟨rfl, fun j hj => absurd hj (Nat.not_lt_zero j)⟩)
  | succ n ih =>
      have hhere : UserAccessible m d virt := hok 0 (Nat.succ_pos n)
      have hlow : virt ≤ userVirtEnd := by
        by_contra hhigh
        exact hclosed virt (by simp only [userVirtEnd, kernelVirtBase] at *; omega) hhere
      obtain ⟨byte, hbyte⟩ := hhere.readByte
      unfold pagingScanPage
      rw [result_bind, readByte_result, hbyte, ok_bind]
      by_cases hzero : byte = 0
      · subst hzero
        rw [if_pos rfl]
        refine .inl ⟨virt, rfl, 0, hlow, fun k hk => ?_, hbyte⟩
        obtain rfl : k = 0 := by omega
        exact hhere
      rw [if_neg hzero]
      have hone : ∀ j < 1, m.readByte d (virt + j) ≠ .ok 0 := by
        intro j hj hnul
        obtain rfl : j = 0 := by omega
        rw [Nat.add_zero, hbyte] at hnul
        exact hzero (Except.ok.inj hnul)
      have hskip := userStringAt_skip (fun j hj => by
        obtain rfl : j = 0 := by omega
        exact hhere) hone
      by_cases hend : userVirtEnd < virt + 1
      · rw [if_pos hend]
        refine .inr (.inl ⟨virt + 1, rfl, fun hstring => ?_⟩)
        obtain ⟨l, hl, -⟩ := hskip.mp hstring
        omega
      rw [if_neg hend, hskip]
      have hnext : ∀ j, virt + 1 + j = virt + (j + 1) := by
        intro j
        omega
      rcases ih fun k hk => (hnext k).symm ▸ hok (k + 1) (by omega) with
        hfound | hpassed | ⟨hrun, hchars⟩
      · exact .inl hfound
      · exact .inr (.inl hpassed)
      · refine .inr (.inr ⟨?_, fun j hj => ?_⟩)
        · rw [hrun, hnext n]
        · cases j with
          | zero => exact hone 0 Nat.one_pos
          | succ j => exact hnext j ▸ hchars j (by omega)

/-- The inner loop does not run past the end of the user half. -/
theorem scanPage_passes (hend : userVirtEnd < virt + n) (hn : 0 < n) {a : Nat} :
    (pagingScanPage m d virt n).result ≠ .ok (none, a) := by
  induction n generalizing virt with
  | zero => exact absurd hn (Nat.lt_irrefl 0)
  | succ n ih =>
      unfold pagingScanPage
      rw [result_bind, readByte_result]
      intro hrun
      obtain ⟨byte, -, hrun⟩ := bind_eq_ok.mp hrun
      by_cases hzero : byte = 0
      · rw [if_pos hzero] at hrun
        cases hrun
      rw [if_neg hzero] at hrun
      by_cases hpast : userVirtEnd < virt + 1
      · rw [if_pos hpast] at hrun
        cases hrun
      rw [if_neg hpast] at hrun
      exact ih (by omega) (by omega) hrun

/-- The outer loop needs an iteration for each page of the user half that is left. -/
theorem pagingScanPages_returns (hdirect : DirectTables m d) (hclosed : KernelHalfClosed m d)
    (hlt : virt < wordModulus) (hn : 0 < n) (hpages : kernelVirtBase / pageSize ≤ virt / pageSize + n) :
    ∃ found, (pagingScanPages m d virt n).result = .ok found ∧
      (found = true ↔ UserStringAt m d virt) := by
  induction n generalizing virt with
  | zero => exact absurd hn (Nat.lt_irrefl 0)
  | succ n ih =>
      obtain ⟨valid, hvalid, hiff⟩ := pagingUserRangeValid_returns virt 1 hdirect hlt (by decide)
      have haccess : valid = true ↔ UserAccessible m d virt := by
        rw [hiff]
        constructor
        · intro h
          obtain ⟨-, hpage⟩ := h.resolve_left (by decide)
          exact (userAccessible_iff hlt).mpr (hpage _ ⟨0, Nat.one_pos, rfl⟩)
        · intro h
          refine .inr ⟨?_, fun v hv => ?_⟩
          · by_contra hwrap
            exact hclosed virt (by simp only [kernelVirtBase, wordModulus] at *; omega) h
          · obtain ⟨k, hk, rfl⟩ := hv
            obtain rfl : k = 0 := by omega
            exact (userAccessible_iff hlt).mp h
      unfold pagingScanPages
      rw [result_bind, result_silent, hvalid, ok_bind]
      cases valid with
      | false =>
          refine ⟨false, rfl, iff_of_false (by decide) fun hstring => ?_⟩
          obtain ⟨l, -, hok, -⟩ := hstring
          have htrue := haccess.mpr (hok 0 (Nat.zero_le l))
          cases htrue
      | true =>
          rw [if_neg (by decide)]
          have hhere := haccess.mp rfl
          have hlow : virt < kernelVirtBase := by
            by_contra hhigh
            exact hclosed virt (by omega) hhere
          -- What is left of the page.
          have hrest : (frameMask virt + pageSize) % wordModulus - virt = pageSize - virt % pageSize := by
            simp only [frameMask, pageSize, wordModulus, kernelVirtBase] at *
            omega
          have hpage : ∀ j < pageSize - virt % pageSize, UserAccessible m d (virt + j) := by
            intro j hj
            apply hhere.page
            simp only [pageSize] at *
            omega
          rw [result_bind, hrest]
          rcases pagingScanPage_returns hclosed hpage with
            ⟨a, hrun, hstring⟩ | ⟨a, hrun, hnot⟩ | ⟨hrun, hchars⟩
          · rw [hrun]
            exact ⟨true, rfl, iff_of_true rfl hstring⟩
          · rw [hrun]
            exact ⟨false, rfl, iff_of_false (by decide) hnot⟩
          · rw [hrun, ok_bind, userStringAt_skip hpage hchars]
            have hnext : (virt + (pageSize - virt % pageSize)) / pageSize = virt / pageSize + 1 := by
              simp only [pageSize]
              omega
            by_cases hlast : n = 0
            · -- The next page is not in the user half, so that the scan has ended before.
              exfalso
              have hbyte : virt % pageSize < pageSize := Nat.mod_lt _ (by decide)
              have hend : userVirtEnd < virt + (pageSize - virt % pageSize) := by
                simp only [userVirtEnd, kernelVirtBase, pageSize] at *
                omega
              exact scanPage_passes hend (by omega) hrun
            · apply ih
              · simp only [pageSize, kernelVirtBase, wordModulus] at *
                omega
              · exact Nat.pos_of_ne_zero hlast
              · rw [hnext]
                omega

/-- `paging_user_string_valid` returns, reads pages only that the user may access, and returns `true`
exactly when there is a string for the user. -/
theorem user_string_valid_iff (virt : Nat) (hdirect : DirectTables m d) (hclosed : KernelHalfClosed m d)
    (hne : virt ≠ 0) (hlt : virt < wordModulus) :
    Reports (UserRead m d) (pagingUserStringValid m d virt) ∧
      ∃ found, (pagingUserStringValid m d virt).result = .ok found ∧
        (found = true ↔ UserStringAt m d virt) := by
  refine ⟨(pagingUserStringValid_post hclosed hlt).reports, ?_⟩
  unfold pagingUserStringValid
  rw [if_neg hne]
  apply pagingScanPages_returns hdirect hclosed hlt
  · decide
  · simp only [kernelVirtBase, wordModulus, pageSize]
    omega

/-- A string of three characters, and one that runs into a page that is not mapped. -/
theorem user_string_valid_one : ∃ short long,
    (pagingUserStringValid onePageMm 1 0x400000).result = .ok short ∧
      (pagingUserStringValid onePageMm 1 0x400800).result = .ok long ∧ short = true ∧ long = false := by
  obtain ⟨-, short, hshort, hiff⟩ := user_string_valid_iff 0x400000 onePageMm_direct onePageMm_closed
    (by decide) (by decide)
  obtain ⟨-, long, hlong, hiff'⟩ := user_string_valid_iff 0x400800 onePageMm_direct onePageMm_closed
    (by decide) (by decide)
  refine ⟨short, long, hshort, hlong, hiff.mpr ⟨3, by decide, fun k hk => ?_, by decide +kernel⟩, ?_⟩
  · have hpage : (0x400000 + k) / pageSize = 0x400 := by
      simp only [pageSize]
      omega
    rw [userAccessible_iff (by simp only [wordModulus]; omega), hpage]
    exact ⟨by decide +kernel, by decide +kernel, by decide +kernel⟩
  · rw [← Bool.not_eq_true, hiff']
    rintro ⟨n, -, haccess, hzero⟩
    rcases Nat.lt_or_ge n 0x800 with hn | hn
    · -- The bytes of the page are not `NUL`.
      have hdiv : (0x400800 + n) / pageSize = 0x400 ∧ (0x400800 + n) % pageSize = 0x800 + n := by
        simp only [pageSize]
        omega
      have hpte : onePageMm.pte 1 0x400 = some 0x5007 := by decide +kernel
      unfold Mm.readByte at hzero
      rw [Mm.walk_eq, hdiv.1, hpte, Option.map_some, hdiv.2] at hzero
      have hphys : (frameMask 0x5007 + (0x800 + n)) / pageSize = 5 ∧
          (frameMask 0x5007 + (0x800 + n)) % pageSize = 0x800 + n := by
        simp only [frameMask, pageSize]
        omega
      dsimp only at hzero
      rw [hphys.1, hphys.2] at hzero
      have hbyte : onePageMm.frames 5 (0x800 + n) = 0x61 := if_neg (by omega)
      rw [hbyte] at hzero
      cases hzero
    · have hbehind := (userAccessible_iff (by decide)).mp (haccess 0x800 hn)
      exact absurd hbehind.page (by decide +kernel)

end User

end Neox
