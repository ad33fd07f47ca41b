import Neox.Lib.Run
import Neox.Mm.Bitmap
import Mathlib.Data.List.Nodup

/-!
# Runs of the page allocator

After `pmm_init`, callers allocate pages and free those they hold. `pmm_alloc_page` returns a page
number times `PAGE_SIZE` as a `uintptr_t`, so this is the page's address for pages below 4 GiB only.
-/

namespace Neox

open Transition

/-- The allocator, and the addresses its callers hold. -/
structure Allocations where
  pmm : PmmMemory
  held : List Nat

inductive PmmOp where
  | allocPage
  | freePage (page : Nat)
  deriving DecidableEq, Repr

/-- The first page whose address does not fit `uintptr_t`. -/
abbrev addressablePages : Nat := wordModulus / pageSize

namespace Allocations

/-- After `pmm_init`; `memory` is what the storage of the bitmap held before. -/
def boot (info : BootInfo) (memory : Nat → BitVec 8) : Allocations where
  pmm := PmmMemory.pmmInit info memory
  held := []

/-- A page that is allocated is held until it is freed. -/
def step (m : Allocations) : PmmOp → Option Allocations
  | .allocPage =>
      let (page, pmm) := m.pmm.pmmAllocPage
      some { pmm := pmm, held := if page = 0 then m.held else page :: m.held }
  | .freePage page => some { pmm := m.pmm.pmmFreePage page, held := m.held.erase page }

/-- Only a page that is held is freed. -/
def permitted (m : Allocations) : PmmOp → Bool
  | .allocPage => true
  | .freePage page => m.held.contains page

/-- The next `pmm_alloc_page` may return this page. -/
def Free (m : Allocations) (page : Nat) : Prop := m.pmm.bits.Free page

end Allocations

/-- What callers rely on, in one state. -/
structure PmmSound (m : Allocations) : Prop where
  free_pages : m.pmm.freePages =
    (List.range m.pmm.totalPages).countP fun page => !PmmMemory.bitmapTest m.pmm.bitmap page
  null_iff : m.pmm.pmmAllocPage.1 = 0 ↔ ∀ page, ¬ m.Free page
  lowest : ∀ page, m.Free page → (∀ lower < page, ¬ m.Free lower) →
    m.pmm.pmmAllocPage.1 = page * pageSize
  distinct : m.held.Nodup
  released : ∀ addr ∈ m.held, ∃ page, addr = page * pageSize ∧ ¬ m.Free page ∧
    ∀ q, (m.pmm.pmmFreePage addr).bits.Free q ↔ m.Free q ∨ q = page

namespace Allocations

variable {m m' : Allocations} {info : BootInfo} {memory : Nat → BitVec 8} {page : Nat} {op : PmmOp}

/-! ## The counter -/

/-- Setting a clear bit takes one from the clear bits. -/
theorem countP_set {bitmap : Nat → Bool} {n : Nat} (hlt : page < n) (hclear : bitmap page = false) :
    ((List.range n).countP fun q => !Function.update bitmap page true q) + 1 =
      (List.range n).countP fun q => !bitmap q := by
  induction n with
  | zero => exact absurd hlt (Nat.not_lt_zero _)
  | succ n ih =>
      rw [List.range_succ, List.countP_append, List.countP_append, List.countP_singleton,
        List.countP_singleton]
      by_cases h : page = n
      · subst h
        have hbelow : (List.range page).countP (fun q => !Function.update bitmap page true q) =
            (List.range page).countP fun q => !bitmap q := by
          apply List.countP_congr
          intro q hq
          rw [Function.update_of_ne (Nat.ne_of_lt (List.mem_range.mp hq))]
        rw [hbelow, Function.update_self, hclear]
        rfl
      · have hn : n ≠ page := fun e => h e.symm
        rw [Function.update_of_ne hn, ← ih (Nat.lt_of_le_of_ne (Nat.le_of_lt_succ hlt) h)]
        omega

/-- Clearing a set bit adds one. -/
theorem countP_clear {bitmap : Nat → Bool} {n : Nat} (hlt : page < n) (hset : bitmap page = true) :
    ((List.range n).countP fun q => !Function.update bitmap page false q) =
      ((List.range n).countP fun q => !bitmap q) + 1 := by
  rw [← countP_set hlt (Function.update_self page false bitmap), Function.update_idem,
    ← hset, Function.update_eq_self]

/-! ## The invariant -/

/-- What a run keeps. -/
structure AllocInv (m : Allocations) : Prop where
  failAllocations : m.pmm.failAllocations = 0
  totalPages : m.pmm.totalPages < wordModulus
  free_pages : m.pmm.freePages =
    (List.range m.pmm.totalPages).countP fun page => !PmmMemory.bitmapTest m.pmm.bitmap page
  /-- Every free page has an address, and that is not `NULL`. -/
  addressable : ∀ page, m.Free page → 0 < page ∧ page < addressablePages
  held : ∀ addr ∈ m.held, ∃ page, addr = page * pageSize ∧ 0 < page ∧ page < addressablePages ∧
    page < m.pmm.totalPages ∧ ¬ m.Free page
  distinct : m.held.Nodup

/-- `pmm_alloc_page` with no failure injected. -/
theorem allocPage_cases (hfail : m.pmm.failAllocations = 0) :
    (∀ page, ¬ m.Free page) ∧ m.pmm.pmmAllocPage = (0, m.pmm) ∨
    ∃ page, m.Free page ∧ (∀ lower < page, ¬ m.Free lower) ∧
      m.pmm.pmmAllocPage = (page * pageSize % wordModulus,
        { m.pmm with
          bitmap := PmmMemory.bitmapSet m.pmm.bitmap page
          freePages := (m.pmm.freePages + (wordModulus - 1)) % wordModulus }) := by
  unfold PmmMemory.pmmAllocPage
  rw [if_neg (not_not.mpr hfail)]
  split
  · next page hfind =>
    obtain ⟨hclear, hlt, hlower⟩ := List.find?_range_eq_some.mp hfind
    simp only [Bool.not_eq_true'] at hclear
    refine .inr ⟨page, ⟨List.mem_range.mp hlt, hclear⟩, fun lower hl hfree => ?_, rfl⟩
    have hset := hlower lower hl
    simp only [Bool.not_not] at hset
    have hclear : PmmMemory.bitmapTest m.pmm.bitmap lower = false := hfree.2
    rw [hset] at hclear
    cases hclear
  · next hfind =>
    refine .inl ⟨fun page hfree => ?_, rfl⟩
    have hset := List.find?_eq_none.mp hfind page (List.mem_range.mpr hfree.1)
    simp only [Bool.not_eq_true', Bool.not_eq_false] at hset
    have hclear : PmmMemory.bitmapTest m.pmm.bitmap page = false := hfree.2
    rw [hset] at hclear
    cases hclear

/-- Setting the bit of a free page. -/
theorem free_set {p : PmmMemory} {n : Nat} (q : Nat) :
    ({ p with bitmap := PmmMemory.bitmapSet p.bitmap page, freePages := n } : PmmMemory).bits.Free q ↔
      p.bits.Free q ∧ q ≠ page := by
  unfold Pmm.Free
  show q < p.totalPages ∧ PmmMemory.bitmapTest (PmmMemory.bitmapSet p.bitmap page) q = false ↔ _
  rw [PmmMemory.bitmapTest_set]
  by_cases h : q = page
  · simp [h]
  · simp [h, PmmMemory.bits]

/-- Clearing the bit of a page below `total_pages`. -/
theorem free_clear {p : PmmMemory} {n : Nat} (hlt : page < p.totalPages) (q : Nat) :
    ({ p with bitmap := PmmMemory.bitmapClear p.bitmap page, freePages := n } :
      PmmMemory).bits.Free q ↔ p.bits.Free q ∨ q = page := by
  unfold Pmm.Free
  show q < p.totalPages ∧ PmmMemory.bitmapTest (PmmMemory.bitmapClear p.bitmap page) q = false ↔ _
  rw [PmmMemory.bitmapTest_clear]
  by_cases h : q = page
  · simp [h, hlt]
  · simp [h, PmmMemory.bits]

/-- The address of an addressable page. -/
theorem address_eq (h : page < addressablePages) : page * pageSize % wordModulus = page * pageSize :=
  Nat.mod_eq_of_lt (by simp only [addressablePages, wordModulus, pageSize] at *; omega)

/-- `pmm_free_page` of a held page. -/
theorem AllocInv.freePage_eq (h : AllocInv m) {addr : Nat} (haddr : addr ∈ m.held) :
    ∃ page, addr = page * pageSize ∧ 0 < page ∧ page < addressablePages ∧
      page < m.pmm.totalPages ∧ ¬ m.Free page ∧ m.pmm.pmmFreePage addr =
        { m.pmm with
          bitmap := PmmMemory.bitmapClear m.pmm.bitmap page
          freePages := (m.pmm.freePages + 1) % wordModulus } := by
  obtain ⟨page, rfl, hpos, haddressable, hlt, htaken⟩ := h.held addr haddr
  refine ⟨page, rfl, hpos, haddressable, hlt, htaken, ?_⟩
  have hnumber : page * pageSize / pageSize = page := Nat.mul_div_cancel _ (by decide)
  have hset : PmmMemory.bitmapTest m.pmm.bitmap page = true := by
    cases hbit : PmmMemory.bitmapTest m.pmm.bitmap page with
    | true => rfl
    | false => exact absurd ⟨hlt, hbit⟩ htaken
  unfold PmmMemory.pmmFreePage
  rw [hnumber, if_neg (Nat.not_le_of_lt hlt), hset]
  rfl

theorem AllocInv.sound (h : AllocInv m) : PmmSound m where
  free_pages := h.free_pages
  null_iff := by
    rcases allocPage_cases h.failAllocations with ⟨hnone, halloc⟩ | ⟨page, hfree, -, halloc⟩
    · rw [halloc]
      exact iff_of_true rfl hnone
    · obtain ⟨hpos, haddressable⟩ := h.addressable page hfree
      rw [halloc]
      refine iff_of_false ?_ fun hnone => hnone page hfree
      show page * pageSize % wordModulus ≠ 0
      rw [address_eq haddressable]
      exact Nat.ne_of_gt (Nat.mul_pos hpos (by decide))
  lowest page hfree hlower := by
    rcases allocPage_cases h.failAllocations with ⟨hnone, -⟩ | ⟨lowest, hfree', hlower', halloc⟩
    · exact absurd hfree (hnone page)
    · -- Two pages, neither of which has a free page below it.
      have heq : lowest = page := by
        rcases Nat.lt_trichotomy lowest page with hlt | heq | hgt
        · exact absurd hfree' (hlower lowest hlt)
        · exact heq
        · exact absurd hfree (hlower' page hgt)
      subst heq
      rw [halloc]
      exact address_eq (h.addressable lowest hfree).2
  distinct := h.distinct
  released addr haddr := by
    obtain ⟨page, rfl, -, -, hlt, htaken, hfreed⟩ := h.freePage_eq haddr
    refine ⟨page, rfl, htaken, fun q => ?_⟩
    rw [hfreed]
    exact free_clear hlt q

theorem AllocInv.step (h : AllocInv m) (hok : m.permitted op = true) (hs : m.step op = some m') :
    AllocInv m' := by
  have hcount : (List.range m.pmm.totalPages).countP
      (fun page => !PmmMemory.bitmapTest m.pmm.bitmap page) ≤ m.pmm.totalPages :=
    Nat.le_trans List.countP_le_length (Nat.le_of_eq List.length_range)
  cases op with
  | allocPage =>
      have hm' : m' = { pmm := m.pmm.pmmAllocPage.2, held :=
          if m.pmm.pmmAllocPage.1 = 0 then m.held else m.pmm.pmmAllocPage.1 :: m.held } :=
        (Option.some.inj hs).symm
      rw [hm']
      rcases allocPage_cases h.failAllocations with ⟨-, halloc⟩ | ⟨page, hfree, -, halloc⟩
      · rw [halloc]
        exact { h with }
      · obtain ⟨hpos, haddressable⟩ := h.addressable page hfree
        have hnull : page * pageSize ≠ 0 := Nat.ne_of_gt (Nat.mul_pos hpos (by decide))
        have hnew : page * pageSize ∉ m.held := by
          intro hmem
          obtain ⟨q, he, -, -, -, htaken⟩ := h.held _ hmem
          exact htaken (Nat.eq_of_mul_eq_mul_right (by decide) he ▸ hfree)
        rw [halloc]
        simp only [address_eq haddressable, hnull, if_false]
        refine ⟨h.failAllocations, h.totalPages, ?_, fun q hq => ?_, fun addr haddr => ?_,
          List.nodup_cons.mpr ⟨hnew, h.distinct⟩⟩
        · show (m.pmm.freePages + (wordModulus - 1)) % wordModulus = (List.range m.pmm.totalPages).countP
            fun q => !PmmMemory.bitmapTest (PmmMemory.bitmapSet m.pmm.bitmap page) q
          have hset := countP_set hfree.1 hfree.2
          simp only [PmmMemory.bits_set]
          have hfp := h.free_pages
          have htotal := h.totalPages
          simp only [PmmMemory.bits, wordModulus] at *
          omega
        · exact h.addressable q ((free_set q).mp hq).1
        · rcases List.mem_cons.mp haddr with rfl | haddr
          · exact ⟨page, rfl, hpos, haddressable, hfree.1, fun hq => ((free_set page).mp hq).2 rfl⟩
          · obtain ⟨q, he, hq, hlt, htotal, htaken⟩ := h.held addr haddr
            exact ⟨q, he, hq, hlt, htotal, fun hfree => htaken ((free_set q).mp hfree).1⟩
  | freePage addr =>
      cases hs
      have haddr : addr ∈ m.held := by simpa [permitted] using hok
      obtain ⟨page, rfl, hpos, haddressable, hlt, htaken, hfreed⟩ := h.freePage_eq haddr
      have hset : PmmMemory.bitmapTest m.pmm.bitmap page = true := by
        cases hbit : PmmMemory.bitmapTest m.pmm.bitmap page with
        | true => rfl
        | false => exact absurd ⟨hlt, hbit⟩ htaken
      rw [hfreed]
      refine ⟨h.failAllocations, h.totalPages, ?_, fun q hq => ?_, fun addr haddr => ?_,
        h.distinct.erase _⟩
      · show (m.pmm.freePages + 1) % wordModulus = (List.range m.pmm.totalPages).countP
          fun q => !PmmMemory.bitmapTest (PmmMemory.bitmapClear m.pmm.bitmap page) q
        have hclear := countP_clear hlt hset
        have hle : (List.range m.pmm.totalPages).countP (fun q => !Function.update
            (PmmMemory.bitmapTest m.pmm.bitmap) page false q) ≤ m.pmm.totalPages :=
          Nat.le_trans List.countP_le_length (Nat.le_of_eq List.length_range)
        simp only [PmmMemory.bits_clear]
        have hfp := h.free_pages
        have htotal := h.totalPages
        simp only [wordModulus] at *
        omega
      · rcases (free_clear hlt q).mp hq with hq | rfl
        · exact h.addressable q hq
        · exact ⟨hpos, haddressable⟩
      · obtain ⟨hne, haddr⟩ := h.distinct.mem_erase_iff.mp haddr
        obtain ⟨q, rfl, hq, hlt', htotal, htaken'⟩ := h.held addr haddr
        refine ⟨q, rfl, hq, hlt', htotal, fun hfree => ?_⟩
        rcases (free_clear hlt q).mp hfree with hfree | rfl
        · exact htaken' hfree
        · exact hne rfl

theorem boot_allocInv (haddress : ∀ page, info.usable memory page = true → page < addressablePages) :
    AllocInv (boot info memory) := by
  have hzero : info.usable memory 0 = false := by
    have hlow : inPageRange (0 / pageSize % wordModulus)
        ((0x00100000 + pageSize - 1) % 2 ^ 64 / pageSize % wordModulus) 0 = true := by decide
    unfold BootInfo.usable BootInfo.reserved
    simp only [List.cons_append, List.any_cons, hlow, Bool.true_or, Bool.not_true, Bool.and_false]
  refine ⟨?_, ?_, ?_, fun page hfree => ?_, fun addr haddr => ?_, List.nodup_nil⟩
  · show (PmmMemory.pmmInit info memory).failAllocations = 0
    unfold PmmMemory.pmmInit
    split <;> rfl
  · show (PmmMemory.pmmInit info memory).totalPages < wordModulus
    rw [PmmMemory.pmmInit_totalPages]
    exact info.totalPages_lt
  · show (PmmMemory.pmmInit info memory).freePages = _
    simp only [boot]
    unfold PmmMemory.pmmInit
    by_cases hnone : info.mmap.isNone = true
    · rw [if_pos hnone]
      rfl
    · rw [if_neg hnone]
  · have husable := PmmMemory.pmmInit_free.mp hfree
    refine ⟨Nat.pos_of_ne_zero ?_, haddress page husable⟩
    rintro rfl
    rw [hzero] at husable
    cases husable
  · exact absurd haddr List.not_mem_nil

/-! ## Pages above 4 GiB -/

/-- Once the pages below it are gone, a page above 4 GiB is the lowest, and its number times
`PAGE_SIZE` is no `uintptr_t`. The induction is on the clear bits below the page. -/
theorem exists_unsound (hpage : addressablePages ≤ page) (hfail : m.pmm.failAllocations = 0)
    (hfree : m.Free page) : ∃ ops m', Run step (fun m op => m.permitted op = true) m ops m' ∧
      ¬ PmmSound m' := by
  generalize hn : ((List.range page).countP fun q => !PmmMemory.bitmapTest m.pmm.bitmap q) = n
  induction n using Nat.strongRecOn generalizing m with
  | ind n ih =>
      by_cases hlower : ∃ lower < page, m.Free lower
      · obtain ⟨lower, hlt, hlowerFree⟩ := hlower
        rcases allocPage_cases hfail with ⟨hnone, -⟩ | ⟨lowest, hlowest, hle, halloc⟩
        · exact absurd hfree (hnone page)
        · have hbelow : lowest < page := by
            by_contra hge
            exact hle lower (Nat.lt_of_lt_of_le hlt (Nat.le_of_not_lt hge)) hlowerFree
          obtain ⟨m₁, hm₁⟩ : ∃ m₁, m.step .allocPage = some m₁ := ⟨_, rfl⟩
          have hpmm : m₁.pmm = m.pmm.pmmAllocPage.2 := congrArg pmm (Option.some.inj hm₁).symm
          rw [halloc] at hpmm
          have hcount : ((List.range page).countP fun q =>
              !PmmMemory.bitmapTest m₁.pmm.bitmap q) < n := by
            have hset := countP_set hbelow hlowest.2
            rw [← hn, hpmm]
            simp only [PmmMemory.bits_set]
            exact Nat.lt_of_lt_of_eq (Nat.lt_succ_self _) hset
          have hfree₁ : m₁.Free page := by
            unfold Free
            rw [hpmm]
            exact (free_set page).mpr ⟨hfree, Nat.ne_of_gt hbelow⟩
          obtain ⟨ops, m', hrun, hunsound⟩ := ih _ hcount (by rw [hpmm]; exact hfail) hfree₁ rfl
          exact ⟨_, m', Run.append (.snoc .nil rfl hm₁) hrun, hunsound⟩
      · refine ⟨[], m, .nil, fun hsound => ?_⟩
        have hlowest := hsound.lowest page hfree fun lower hlt hl => hlower ⟨lower, hlt, hl⟩
        have hword : m.pmm.pmmAllocPage.1 < wordModulus := by
          rcases allocPage_cases hfail with ⟨-, halloc⟩ | ⟨q, -, -, halloc⟩
          · rw [halloc]
            exact Nat.zero_lt_succ _
          · rw [halloc]
            exact Nat.mod_lt _ (by decide)
        simp only [addressablePages, wordModulus, pageSize] at *
        omega

/-- The allocator does what callers rely on in every run if and only if every page that the boot
information makes free lies below 4 GiB. -/
theorem pmm_sound_iff (info : BootInfo) (memory : Nat → BitVec 8) :
    (∀ ops m, Run step (fun m op => m.permitted op = true) (boot info memory) ops m → PmmSound m) ↔
      ∀ page, info.usable memory page = true → page < addressablePages := by
  constructor
  · intro hall page husable
    by_contra hpage
    obtain ⟨ops, m, hrun, hunsound⟩ := exists_unsound (m := boot info memory)
      (Nat.le_of_not_lt hpage) (by unfold boot PmmMemory.pmmInit; split <;> rfl)
      (PmmMemory.pmmInit_free.mpr husable)
    exact hunsound (hall ops m hrun)
  · intro haddress ops m hrun
    have hinv : AllocInv m := by
      apply hrun.invariant
      · exact boot_allocInv haddress
      · intro m op m' h hok hs
        exact h.step hok hs
    exact hinv.sound

/-- One page of memory at 4 GiB, and none below it. -/
def highMemory : BootInfo where
  mmap := some [{ addr := 0x100000000, len := 0x1000, type := multibootMemoryAvailable }]
  mbInfo := 0xC0210000
  totalSize := 0x1000
  module := none
  kernelEnd := 0x00200000
  stale _ := false

/-- The page at 4 GiB is free, and its address as a `uintptr_t` is `NULL`. -/
theorem pmm_high_memory :
    ¬ ∀ (info : BootInfo) (memory : Nat → BitVec 8) (ops : List PmmOp) (m : Allocations),
      Run step (fun m op => m.permitted op = true) (boot info memory) ops m → PmmSound m := by
  intro hall
  have husable : highMemory.usable (fun _ => 0) 0x100000 = true := by decide +kernel
  have hfree : (boot highMemory fun _ => 0).Free 0x100000 := PmmMemory.pmmInit_free.mpr husable
  obtain ⟨ops, m, hrun, hunsound⟩ := exists_unsound (by decide) rfl hfree
  exact hunsound (hall highMemory _ ops m hrun)

end Allocations

end Neox
