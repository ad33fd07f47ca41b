import Neox.Lib.Run
import Neox.Mm.HeapRefinement

/-!
# Runs of the heap

The heap after `heap_init`, the allocations that have been returned and not freed yet, and the calls
of `kmalloc` and `kfree` in any order, between which the owners of the allocations write to them. A
page request of `heap_expand` succeeds or fails as it likes.
-/

namespace Neox

open Bytes Checked Tiling LinkedList

namespace HeapMemory

variable {h h' : HeapMemory} {l l' pre post : List HeapBlock} {b : HeapBlock}
  {size wanted ptr : Nat}

/-! ## `kmalloc` -/

/-- What `kmalloc` has done: nothing when it returns 0, and else it has put one more block in use, of
at least `wanted` bytes. -/
def Allots (wanted ptr : Nat) (l l' : List HeapBlock) : Prop :=
  (ptr = 0 ∧ ∀ c, c ∈ inUse l' ↔ c ∈ inUse l) ∨
  ∃ b, b.data = ptr ∧ wanted ≤ b.size ∧ (∀ c ∈ inUse l, c.data ≠ ptr) ∧
    ∀ c, c ∈ inUse l' ↔ c = b ∨ c ∈ inUse l

/-- The search of `kmalloc` finds nothing or a free block of the list that is large enough. -/
theorem heapFindFree_cases (hr : Represents h l) (wanted : Nat) :
    heapFindFree h.mem wanted h.head walk = .ok 0 ∨
    ∃ pre b post, l = pre ++ b :: post ∧ b.free = true ∧ wanted ≤ b.size ∧ b.addr ≠ 0 ∧
      heapFindFree h.mem wanted h.head walk = .ok b.addr := by
  rw [heapFindFree_eq hr.chain hr.length_lt]
  rcases heapTake_eq wanted l with ⟨hnone, -⟩ | ⟨pre, b, post, rfl, hsome, -⟩
  · rw [hnone]
    exact .inl rfl
  · obtain ⟨hfree, hfits⟩ := fits_iff.mp (List.find?_some hsome)
    obtain ⟨-, hb0, -⟩ := chain_middle hr.chain
    rw [hsome]
    exact .inr ⟨pre, b, post, rfl, hfree, hfits, hb0, rfl⟩

/-- `kmalloc` with the free block it has found. -/
theorem heapGive_allots (hr : Represents h (pre ++ b :: post)) (hfree : b.free = true)
    (hfits : wanted ≤ b.size) (hwanted : wanted % heapAlignment = 0) :
    ∃ h' l', heapGive h b.addr wanted = .ok (b.data, h') ∧ Represents h' l' ∧
      h'.heapEnd = h.heapEnd ∧ KeepsData (pre ++ b :: post) h.mem h'.mem ∧
      Allots wanted b.data (pre ++ b :: post) l' := by
  have hbl : b ∈ pre ++ b :: post := List.mem_append_right _ (List.mem_cons_self ..)
  obtain ⟨h', hgive, hr', hend, hframe⟩ := heapGive_ok hr hfree hfits hwanted
  obtain ⟨size', hsize', hafter, hbefore⟩ := inUse_split pre post wanted hfree
  refine ⟨h', _, hgive, hr', hend, fun x hx => hframe x (hr.blocks.not_free hx hbl hfree),
    .inr ⟨{ b with size := size', free := false }, rfl, hsize' hfits, fun c hc hdata => ?_,
      fun c => ?_⟩⟩
  · obtain ⟨hcl, hused⟩ := mem_inUse.mp hc
    have heq := hr.blocks.eq_of_data hcl hbl hdata
    rw [heq, hfree] at hused
    cases hused
  · rw [hafter, hbefore]
    simp only [List.mem_append, List.mem_cons]
    tauto

/-- The pages a call is given. -/
def granted (pages : List (Option Block)) : Nat := pages.countP Option.isSome

/-- `heap_expand` in the loop of `kmalloc`. -/
theorem heapExpand_cases (hr : Represents h l) (page : Option Block)
    (hroom : h.heapEnd + pageSize * granted [page] ≤ kernelHeapEnd + 1) :
    ∃ h' l', heapExpand h page = .ok (page.isSome, h') ∧ Represents h' l' ∧
      h'.heapEnd = h.heapEnd + pageSize * granted [page] ∧ KeepsData l h.mem h'.mem ∧
      ∀ c, c ∈ inUse l' ↔ c ∈ inUse l := by
  cases page with
  | none => exact ⟨h, l, heapExpand_fail hr, hr, rfl, fun x _ => rfl, fun c => Iff.rfl⟩
  | some contents =>
      obtain ⟨h', hexpand, hr', hend, hkeeps⟩ := heapExpand_ok hr contents hroom
      refine ⟨h', _, hexpand, hr', hend, hkeeps, fun c => ?_⟩
      rw [inUse_merge]
      simp [inUse]

/-- The search has found a block. -/
theorem kmallocFrom_found (pages : List (Option Block)) (hb0 : b.addr ≠ 0)
    (hfind : heapFindFree h.mem wanted h.head walk = .ok b.addr) :
    kmallocFrom wanted h pages = heapGive h b.addr wanted := by
  cases pages with
  | nil =>
      unfold kmallocFrom
      rw [hfind]
      exact if_pos hb0
  | cons page pages =>
      unfold kmallocFrom
      rw [hfind]
      exact if_pos hb0

/-- It has not, and the heap is expanded. -/
theorem kmallocFrom_expand (page : Option Block) (pages : List (Option Block))
    (hfind : heapFindFree h.mem wanted h.head walk = .ok 0)
    (hexpand : heapExpand h page = .ok (page.isSome, h')) :
    kmallocFrom wanted h (page :: pages) =
      if page.isSome = true then kmallocFrom wanted h' pages else .ok (0, h') := by
  rw [kmallocFrom, hfind, hexpand]
  rfl

/-- By induction on the requests for pages: `heap_expand` leaves the blocks in use as they are. -/
theorem kmallocFrom_ok (pages : List (Option Block)) (hr : Represents h l)
    (hwanted : wanted % heapAlignment = 0)
    (hroom : h.heapEnd + pageSize * granted pages ≤ kernelHeapEnd + 1) :
    ∃ ptr h' l', kmallocFrom wanted h pages = .ok (ptr, h') ∧ Represents h' l' ∧
      KeepsData l h.mem h'.mem ∧ Allots wanted ptr l l' := by
  induction pages generalizing h l with
  | nil =>
      rcases heapFindFree_cases hr wanted with hfind | ⟨pre, b, post, rfl, hfree, hfits, hb0, hfind⟩
      · refine ⟨0, h, l, ?_, hr, fun x _ => rfl, .inl ⟨rfl, fun c => Iff.rfl⟩⟩
        rw [kmallocFrom, hfind, heapExpand_fail hr]
        rfl
      · rw [kmallocFrom_found _ hb0 hfind]
        obtain ⟨h', l', hgive, hr', -, hkeeps, hallots⟩ := heapGive_allots hr hfree hfits hwanted
        exact ⟨b.data, h', l', hgive, hr', hkeeps, hallots⟩
  | cons page pages ih =>
      have hgranted : granted (page :: pages) = granted [page] + granted pages := by
        unfold granted
        rw [← List.countP_append]
        rfl
      rw [hgranted, Nat.mul_add, ← Nat.add_assoc] at hroom
      rcases heapFindFree_cases hr wanted with hfind | ⟨pre, b, post, rfl, hfree, hfits, hb0, hfind⟩
      · obtain ⟨h₁, l₁, hexpand, hr₁, hend, hkeeps, hused⟩ :=
          heapExpand_cases hr page (Nat.le_trans (Nat.le_add_right ..) hroom)
        rw [kmallocFrom_expand page pages hfind hexpand]
        by_cases hpage : page.isSome = true
        · rw [if_pos hpage]
          obtain ⟨ptr, h', l', hmalloc, hr', hkeeps', hallots⟩ := ih hr₁ (hend ▸ hroom)
          have hdata : ∀ x, DataOf l x → DataOf l₁ x := fun x ⟨b, hb, hx⟩ =>
            ⟨b, (hused b).mpr hb, hx⟩
          refine ⟨ptr, h', l', hmalloc, hr', hkeeps.trans hkeeps' hdata, ?_⟩
          unfold Allots at hallots ⊢
          simpa only [hused] using hallots
        · rw [if_neg hpage]
          exact ⟨0, h₁, l₁, rfl, hr₁, hkeeps, .inl ⟨rfl, hused⟩⟩
      · rw [kmallocFrom_found _ hb0 hfind]
        obtain ⟨h', l', hgive, hr', -, hkeeps, hallots⟩ := heapGive_allots hr hfree hfits hwanted
        exact ⟨b.data, h', l', hgive, hr', hkeeps, hallots⟩

theorem heapAlign_spec (size : Nat) :
    heapAlign size = 0 ∨ (size ≤ heapAlign size ∧ heapAlign size % heapAlignment = 0) := by
  unfold heapAlign
  split
  · exact .inl rfl
  · refine .inr ⟨?_, Nat.mul_mod_left ..⟩
    simp only [heapAlignment]
    omega

/-- `kmalloc`. -/
theorem kmalloc_ok (size : Nat) (pages : List (Option Block)) (hr : Represents h l)
    (hroom : h.heapEnd + pageSize * granted pages ≤ kernelHeapEnd + 1) :
    ∃ ptr h' l', kmalloc h size pages = .ok (ptr, h') ∧ Represents h' l' ∧
      KeepsData l h.mem h'.mem ∧ Allots size ptr l l' := by
  have hnothing : ∃ ptr h' l', (Except.ok (0, h) : Except HeapStop _) = .ok (ptr, h') ∧
      Represents h' l' ∧ KeepsData l h.mem h'.mem ∧ Allots size ptr l l' :=
    ⟨0, h, l, rfl, hr, fun x _ => rfl, .inl ⟨rfl, fun c => Iff.rfl⟩⟩
  unfold kmalloc
  by_cases h0 : size = 0
  · rw [if_pos h0]
    exact hnothing
  · rw [if_neg h0]
    by_cases hover : heapAlign size = 0
    · rw [if_pos hover]
      exact hnothing
    · rw [if_neg hover]
      obtain ⟨hsize, haligned⟩ := (heapAlign_spec size).resolve_left hover
      obtain ⟨ptr, h', l', hmalloc, hr', hkeeps, hallots⟩ := kmallocFrom_ok pages hr haligned hroom
      refine ⟨ptr, h', l', hmalloc, hr', hkeeps, ?_⟩
      rcases hallots with hnone | ⟨b, hdata, hfits, hrest⟩
      · exact .inl hnone
      · exact .inr ⟨b, hdata, Nat.le_trans hsize hfits, hrest⟩

/-! ## `heap_init` -/

/-- `heap_init` makes one free block of its page. -/
theorem heapInit_ok (contents : Block) :
    ∃ h, heapInit contents = .ok h ∧
      Represents h [{ addr := kernelHeapStart, size := pageSize - heapHeader, free := true }] := by
  have hrep : Represents
      { mem := setNext (setFree (setSize (copy zero kernelHeapStart pageSize contents)
          kernelHeapStart (pageSize - heapHeader)) kernelHeapStart true) kernelHeapStart 0
        head := kernelHeapStart, heapEnd := kernelHeapStart + pageSize }
      [{ addr := kernelHeapStart, size := pageSize - heapHeader, free := true }] := by
    refine ⟨⟨by simp, ⟨rfl, ?_, ?_⟩, ?_⟩, ?_, .singleton _, by simp, by simp⟩
    · rw [size_setNext, size_setFree, size_setSize (by decide)]
    · rw [free_setNext, free_setFree]
    · exact next_setNext (by decide)
    · exact ⟨⟨rfl, by decide, rfl⟩, by simp [heapAlignment]⟩
  refine ⟨_, ?_, hrep⟩
  unfold heapInit
  show (heapValidate _ >>= fun _ => pure _) = _
  rw [heapValidate_ok hrep]
  rfl

end HeapMemory

/-! ## Runs -/

/-- What `kmalloc` has returned, and for how many bytes. -/
structure Allocation where
  ptr : Nat
  size : Nat
  deriving DecidableEq

/-- Address `x` is in the allocation. -/
def Allocation.Has (a : Allocation) (x : Nat) : Prop := a.ptr ≤ x ∧ x < a.ptr + a.size

/-- The heap and the allocations that are live. -/
structure HeapState where
  heap : HeapMemory
  live : List Allocation

inductive HeapOp where
  /-- `kmalloc`, with what comes of each page request it makes. -/
  | kmalloc (size : Nat) (pages : List (Option Block))
  | kfree (ptr : Nat)
  /-- The owner of an allocation stores a byte in it. -/
  | store (addr : Nat) (byte : UInt8)

namespace HeapState

/-- The call, or the store. -/
def perform (s : HeapState) : HeapOp → Except HeapStop HeapState
  | .kmalloc size pages => do
      let (ptr, heap) ← s.heap.kmalloc size pages
      return { heap := heap, live := if ptr = 0 then s.live else ⟨ptr, size⟩ :: s.live }
  | .kfree ptr => do
      let heap ← s.heap.kfree ptr
      return { heap := heap, live := s.live.filter fun a => a.ptr ≠ ptr }
  | .store addr byte =>
      return { s with heap := { s.heap with mem := Function.update s.heap.mem addr byte } }

def step (s : HeapState) (op : HeapOp) : Option HeapState := (s.perform op).toOption

/-- The size of `kmalloc` is a word and the heap stays in its region; `kfree` is of a live allocation,
or of `NULL`; a store is by the owner. -/
def Permitted (s : HeapState) : HeapOp → Prop
  | .kmalloc size pages => size < wordModulus ∧
      s.heap.heapEnd + pageSize * HeapMemory.granted pages ≤ kernelHeapEnd + 1
  | .kfree ptr => ptr = 0 ∨ ∃ a ∈ s.live, a.ptr = ptr
  | .store addr _ => ∃ a ∈ s.live, a.Has addr

instance (s : HeapState) : ∀ op, Decidable (s.Permitted op)
  | .kmalloc size pages => inferInstanceAs (Decidable (size < wordModulus ∧
      s.heap.heapEnd + pageSize * HeapMemory.granted pages ≤ kernelHeapEnd + 1))
  | .kfree ptr => inferInstanceAs (Decidable (ptr = 0 ∨ ∃ a ∈ s.live, a.ptr = ptr))
  | .store addr _ => inferInstanceAs (Decidable (∃ a ∈ s.live, a.ptr ≤ addr ∧ addr < a.ptr + a.size))

/-- The bytes of a live allocation that an operation must leave alone. -/
def Spared (s : HeapState) (x : Nat) : HeapOp → Prop
  | .store addr _ => (∃ a ∈ s.live, a.Has x) ∧ x ≠ addr
  | _ => ∃ a ∈ s.live, a.Has x

/-- The list of blocks and the live allocations in a state of the heap. -/
structure Sound (s : HeapState) (l : List HeapBlock) : Prop where
  /-- The headers in memory, from `heap_head` on. -/
  chain : HeapMemory.Chain s.heap.mem s.heap.head l 0
  tiles : Tiles HeapBlock.addr HeapBlock.stop kernelHeapStart l s.heap.heapEnd
  aligned : ∀ b ∈ l, b.addr % heapAlignment = 0 ∧ b.size % heapAlignment = 0
  coalesced : l.IsChain fun b c => ¬ (b.free = true ∧ c.free = true)
  held : ∀ a ∈ s.live, a.ptr % heapAlignment = 0 ∧
    ∃ b ∈ l, b.free = false ∧ b.data = a.ptr ∧ a.size ≤ b.size
  headers : ∀ a ∈ s.live, ∀ b ∈ l, a.ptr + a.size ≤ b.addr ∨ b.data ≤ a.ptr
  apart : s.live.Pairwise fun a a' => a.ptr + a.size ≤ a'.ptr ∨ a'.ptr + a'.size ≤ a.ptr

/-! ## The invariant -/

/-- The live allocations are the blocks in use. -/
structure Tracks (s : HeapState) (l : List HeapBlock) : Prop where
  represents : Represents s.heap l
  fits : ∀ a ∈ s.live, ∃ b ∈ inUse l, b.data = a.ptr ∧ a.size ≤ b.size
  owned : ∀ b ∈ inUse l, ∃ a ∈ s.live, a.ptr = b.data
  distinct : s.live.Pairwise fun a a' => a.ptr ≠ a'.ptr

variable {s s' : HeapState} {l l' : List HeapBlock} {op : HeapOp} {x size ptr : Nat}

/-- The bytes of live allocations are data of blocks in use. -/
theorem Tracks.dataOf (ht : Tracks s l) (hx : ∃ a ∈ s.live, a.Has x) : DataOf l x := by
  obtain ⟨a, ha, hlo, hhi⟩ := hx
  obtain ⟨b, hb, hdata, hsize⟩ := ht.fits a ha
  refine ⟨b, hb, by omega, ?_⟩
  unfold HeapBlock.stop
  omega

theorem Tracks.sound (ht : Tracks s l) : Sound s l := by
  obtain ⟨hr, hfits, -, hdistinct⟩ := ht
  obtain ⟨haddr, -⟩ := hr.blocks.addr_aligned (by decide)
  -- Where a live allocation lies.
  have hblock : ∀ a ∈ s.live, ∃ b ∈ l, b.free = false ∧ b.data = a.ptr ∧ a.size ≤ b.size := by
    intro a ha
    obtain ⟨b, hb, hdata, hsize⟩ := hfits a ha
    obtain ⟨hbl, hused⟩ := mem_inUse.mp hb
    exact ⟨b, hbl, hused, hdata, hsize⟩
  refine ⟨hr.chain, hr.blocks.tiles, fun b hb => ⟨haddr b hb, hr.blocks.aligned b hb⟩, hr.coalesced,
    fun a ha => ?_, fun a ha c hc => ?_, hdistinct.imp_of_mem fun ha ha' hne => ?_⟩
  · obtain ⟨b, hbl, hused, hdata, hsize⟩ := hblock a ha
    have hb := haddr b hbl
    refine ⟨?_, b, hbl, hused, hdata, hsize⟩
    simp only [HeapBlock.data, heapHeader, heapAlignment] at *
    omega
  · obtain ⟨b, hbl, -, hdata, hsize⟩ := hblock a ha
    have hheader := c.addr_le_stop
    rcases hr.blocks.tiles.disjoint hbl hc with rfl | hlt | hgt
    · exact .inr (Nat.le_of_eq hdata)
    · simp only [HeapBlock.stop] at *
      exact .inl (by omega)
    · have hle : b.addr ≤ b.data := Nat.le_add_right ..
      simp only [HeapBlock.stop] at *
      exact .inr (by omega)
  · obtain ⟨b, hbl, -, hdata, hsize⟩ := hblock _ ha
    obtain ⟨b', hbl', -, hdata', hsize'⟩ := hblock _ ha'
    have hle : b.addr ≤ b.data := Nat.le_add_right ..
    have hle' : b'.addr ≤ b'.data := Nat.le_add_right ..
    rcases hr.blocks.tiles.disjoint hbl hbl' with rfl | hlt | hgt
    · exact absurd (hdata.symm.trans hdata') hne
    · simp only [HeapBlock.stop] at *
      exact .inl (by omega)
    · simp only [HeapBlock.stop] at *
      exact .inr (by omega)

/-! ## Steps -/

/-- What one operation has done: it returns, the live allocations are again the blocks in use, and no
byte is lost. -/
def Returns (s : HeapState) (op : HeapOp) : Prop :=
  ∃ s' l', s.perform op = .ok s' ∧ Tracks s' l' ∧
    ∀ x, s.Spared x op → s'.heap.mem x = s.heap.mem x

theorem kmalloc_returns (ht : Tracks s l) {pages : List (Option Block)}
    (hroom : s.heap.heapEnd + pageSize * HeapMemory.granted pages ≤ kernelHeapEnd + 1) :
    Returns s (.kmalloc size pages) := by
  obtain ⟨ptr, h', l', hmalloc, hr', hkeeps, hallots⟩ :=
    HeapMemory.kmalloc_ok size pages ht.represents hroom
  have hperform : s.perform (.kmalloc size pages) =
      .ok { heap := h', live := if ptr = 0 then s.live else ⟨ptr, size⟩ :: s.live } := by
    rw [perform, hmalloc]
    rfl
  refine ⟨_, l', hperform, ?_, fun x hx => hkeeps x (ht.dataOf hx)⟩
  rcases hallots with ⟨h0, hsame⟩ | ⟨b, hdata, hsize, hfresh, hnew⟩
  · rw [if_pos h0]
    refine ⟨hr', fun a ha => ?_, fun b hb => ht.owned b ((hsame b).mp hb), ht.distinct⟩
    obtain ⟨b, hb, hfits⟩ := ht.fits a ha
    exact ⟨b, (hsame b).mpr hb, hfits⟩
  · have h0 : ptr ≠ 0 := by
      rw [← hdata]
      exact Nat.ne_of_gt (Nat.le_trans (by decide : 0 < heapHeader) (Nat.le_add_left ..))
    rw [if_neg h0]
    refine ⟨hr', fun a ha => ?_, fun c hc => ?_, List.pairwise_cons.mpr ⟨fun a ha => ?_, ht.distinct⟩⟩
    · rcases List.mem_cons.mp ha with rfl | ha
      · exact ⟨b, (hnew b).mpr (.inl rfl), hdata, hsize⟩
      · obtain ⟨c, hc, hfits⟩ := ht.fits a ha
        exact ⟨c, (hnew c).mpr (.inr hc), hfits⟩
    · rcases (hnew c).mp hc with rfl | hc
      · exact ⟨_, List.mem_cons_self .., hdata.symm⟩
      · obtain ⟨a, ha, hptr⟩ := ht.owned c hc
        exact ⟨a, List.mem_cons_of_mem _ ha, hptr⟩
    · obtain ⟨c, hc, hcdata, -⟩ := ht.fits a ha
      rw [← hcdata]
      exact (hfresh c hc).symm

theorem kfree_returns (ht : Tracks s l) (hptr : ptr = 0 ∨ ∃ a ∈ s.live, a.ptr = ptr) :
    Returns s (.kfree ptr) := by
  by_cases h0 : ptr = 0
  · -- `kfree` of `NULL` does nothing, and no allocation is there.
    have hperform : s.perform (.kfree ptr) = .ok { s with live := s.live.filter fun a => a.ptr ≠ ptr } := by
      rw [perform, HeapMemory.kfree, if_pos h0]
      rfl
    have hall : s.live.filter (fun a => a.ptr ≠ ptr) = s.live := by
      refine List.filter_eq_self.mpr fun a ha => ?_
      obtain ⟨b, -, hdata, -⟩ := ht.fits a ha
      have hle : heapHeader ≤ b.data := Nat.le_add_left ..
      simp only [heapHeader] at hle
      exact decide_eq_true (by omega)
    rw [hall] at hperform
    exact ⟨s, l, hperform, ht, fun x _ => rfl⟩
  · obtain ⟨a, ha, haptr⟩ := hptr.resolve_left h0
    obtain ⟨b, hb, hdata, -⟩ := ht.fits a ha
    obtain ⟨h', l₁, hfree, -, hr', -, hkeeps, hused⟩ :=
      HeapMemory.kfree_ok ht.represents hb (hdata.trans haptr) h0
    have hperform : s.perform (.kfree ptr) =
        .ok { heap := h', live := s.live.filter fun a => a.ptr ≠ ptr } := by
      rw [perform, hfree]
      rfl
    refine ⟨_, _, hperform, ⟨hr', fun a ha => ?_, fun c hc => ?_, ht.distinct.filter _⟩,
      fun x hx => hkeeps x (ht.dataOf hx)⟩
    · obtain ⟨ha, hne⟩ := List.mem_filter.mp ha
      obtain ⟨c, hc, hcdata, hsize⟩ := ht.fits a ha
      exact ⟨c, (hused c).mpr ⟨hc, by rw [hcdata]; exact of_decide_eq_true hne⟩, hcdata, hsize⟩
    · obtain ⟨hc, hne⟩ := (hused c).mp hc
      obtain ⟨a, ha, hptr⟩ := ht.owned c hc
      exact ⟨a, List.mem_filter.mpr ⟨ha, decide_eq_true (by rw [hptr]; exact hne)⟩, hptr⟩

/-- A store into an allocation changes no header. -/
theorem store_returns (ht : Tracks s l) {addr : Nat} {byte : UInt8}
    (haddr : ∃ a ∈ s.live, a.Has addr) : Returns s (.store addr byte) := by
  have hdata := ht.dataOf haddr
  obtain ⟨hr, hfits, howned, hdistinct⟩ := ht
  refine ⟨_, l, rfl, ⟨⟨HeapMemory.chain_congr hr.chain fun c hc x hlo hhi => ?_, hr.blocks,
    hr.coalesced, hr.nonempty, hr.bound⟩, hfits, howned, hdistinct⟩, ?_⟩
  · refine Function.update_of_ne (fun h => ?_) ..
    have hout := hr.blocks.not_header hdata hc
    omega
  · rintro x ⟨-, hne⟩
    exact Function.update_of_ne hne ..

theorem returns (ht : Tracks s l) (hok : s.Permitted op) : Returns s op := by
  cases op with
  | kmalloc size pages => exact kmalloc_returns ht hok.2
  | kfree ptr => exact kfree_returns ht hok
  | store addr byte => exact store_returns ht hok

theorem tracks_of_run {s₀ : HeapState} {ops : List HeapOp}
    (hrun : Transition.Run step Permitted s₀ ops s) (h₀ : ∃ l, Tracks s₀ l) : ∃ l, Tracks s l := by
  refine hrun.invariant (I := fun s => ∃ l, Tracks s l) h₀ fun ⟨l, ht⟩ hok hstep => ?_
  obtain ⟨s', l', hperform, ht', -⟩ := returns ht hok
  unfold step at hstep
  rw [hperform] at hstep
  cases hstep
  exact ⟨l', ht'⟩

/-- Before the first call of `kmalloc`. -/
theorem heapInit_tracks (contents : Block) :
    ∃ h, HeapMemory.heapInit contents = .ok h ∧ ∃ l, Tracks ⟨h, []⟩ l := by
  obtain ⟨h, hinit, hr⟩ := HeapMemory.heapInit_ok contents
  refine ⟨h, hinit, _, hr, by simp, ?_, .nil⟩
  simp [inUse]

end HeapState

/-- After `heap_init` and any calls of `kmalloc` and `kfree`, whatever the page requests yield: the
blocks tile the heap, are aligned and coalesced, and hold the live allocations apart from each other
and from the headers. The next call returns, so no assertion fails, and leaves the bytes of the live
allocations as they are. -/
theorem heap_representation (contents : Block) :
    ∃ h₀, HeapMemory.heapInit contents = .ok h₀ ∧ ∀ ops s,
      Transition.Run HeapState.step HeapState.Permitted ⟨h₀, []⟩ ops s →
      (∃ l, s.Sound l) ∧ ∀ op, s.Permitted op → ∃ s', s.perform op = .ok s' ∧
        ∀ x, s.Spared x op → s'.heap.mem x = s.heap.mem x := by
  obtain ⟨h₀, hinit, h₀tracks⟩ := HeapState.heapInit_tracks contents
  refine ⟨h₀, hinit, fun ops s hrun => ?_⟩
  obtain ⟨l, ht⟩ := HeapState.tracks_of_run hrun h₀tracks
  refine ⟨⟨l, ht.sound⟩, fun op hok => ?_⟩
  obtain ⟨s', -, hperform, -, hkeeps⟩ := HeapState.returns ht hok
  exact ⟨s', hperform, hkeeps⟩

set_option maxRecDepth 4000 in
/-- Two allocations, the second in a page that `heap_expand` adds, and the first one is freed. -/
theorem heap_representation_two : ∃ h₀ s l, HeapMemory.heapInit zero = .ok h₀ ∧
    Transition.Run HeapState.step HeapState.Permitted ⟨h₀, []⟩
      [.kmalloc 24 [], .kmalloc 5000 [some zero], .kfree (kernelHeapStart + 16)] s ∧
    s.live = [⟨kernelHeapStart + 56, 5000⟩] ∧ s.Sound l := by
  obtain ⟨h₀, hinit, hsound⟩ := heap_representation zero
  have hexec : ((HeapMemory.heapInit zero).toOption.bind fun h =>
      (Transition.exec HeapState.step HeapState.Permitted ⟨h, []⟩
        [.kmalloc 24 [], .kmalloc 5000 [some zero], .kfree (kernelHeapStart + 16)]).map
          HeapState.live) = some [⟨kernelHeapStart + 56, 5000⟩] := by
    decide +kernel
  rw [hinit] at hexec
  obtain ⟨s, hs, hlive⟩ := Option.map_eq_some_iff.mp hexec
  have hrun := Transition.run_of_exec hs
  obtain ⟨⟨l, hl⟩, -⟩ := hsound _ s hrun
  exact ⟨h₀, s, l, hinit, hrun, hlive, hl⟩

end Neox
