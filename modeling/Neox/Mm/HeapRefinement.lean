import Neox.Mm.HeapMemory

/-!
# The heap in memory is a list of blocks

`Represents h l`: from `heap_head` the headers in memory form the list `l`, which tiles the heap and
has no two free blocks side by side. The functions on memory then do to the list what the functions of
`Mm.Heap` do, no assertion fails, and the data of a block in use is left alone.
-/

namespace Neox

open Bytes Checked Tiling LinkedList

structure Represents (h : HeapMemory) (l : List HeapBlock) : Prop where
  chain : HeapMemory.Chain h.mem h.head l 0
  blocks : Blocks kernelHeapStart l h.heapEnd
  coalesced : Coalesced l
  nonempty : l ≠ []
  bound : h.heapEnd ≤ kernelHeapEnd + 1

/-- Address `x` is in the data of a block in use. -/
def DataOf (l : List HeapBlock) (x : Nat) : Prop := ∃ b ∈ inUse l, b.data ≤ x ∧ x < b.stop

/-- No byte of a block in use differs. -/
def KeepsData (l : List HeapBlock) (mem mem' : Block) : Prop := ∀ x, DataOf l x → mem' x = mem x

section Data

variable {a e x wanted : Nat} {b c : HeapBlock} {l l' pre post : List HeapBlock}
  {mem mem₁ mem' : Block} {h : HeapMemory}

theorem KeepsData.trans (h : KeepsData l mem mem₁) (h' : KeepsData l' mem₁ mem')
    (hdata : ∀ x, DataOf l x → DataOf l' x) : KeepsData l mem mem' := fun x hx =>
  (h' x (hdata x hx)).trans (h x hx)

/-- A byte of data is in no header. -/
theorem Blocks.not_header (hb : Blocks a l e) (hx : DataOf l x) (hc : c ∈ l) :
    x < c.addr ∨ c.data ≤ x := by
  obtain ⟨b, hmem, hlo, hhi⟩ := hx
  rcases hb.tiles.disjoint (mem_inUse.mp hmem).1 hc with rfl | hlt | hgt
  · exact .inr hlo
  · exact .inl (by omega)
  · have hdata := c.addr_le_stop
    have hle : b.addr ≤ b.data := Nat.le_add_right ..
    simp only [HeapBlock.stop] at *
    exact .inr (by omega)

/-- It is not in a free block. -/
theorem Blocks.not_free (hb : Blocks a l e) (hx : DataOf l x) (hc : c ∈ l) (hfree : c.free = true) :
    x < c.addr ∨ c.stop ≤ x := by
  obtain ⟨b, hmem, hlo, hhi⟩ := hx
  obtain ⟨hbl, hused⟩ := mem_inUse.mp hmem
  rcases hb.tiles.disjoint hbl hc with rfl | hlt | hgt
  · rw [hfree] at hused
    cases hused
  · exact .inl (by omega)
  · have hle : b.addr ≤ b.data := Nat.le_add_right ..
    exact .inr (by omega)

/-- It is below the end of the heap. -/
theorem Blocks.data_lt (hb : Blocks a l e) (hx : DataOf l x) : x < e := by
  obtain ⟨b, hmem, -, hhi⟩ := hx
  exact Nat.lt_of_lt_of_le hhi (hb.tiles.bounds (mem_inUse.mp hmem).1).2.2

theorem Blocks.length_le (hb : Blocks a l e) : a + heapHeader * l.length ≤ e := by
  induction l generalizing a with
  | nil => exact hb.tiles.le
  | cons b l ih =>
      obtain ⟨rfl, -, hrest⟩ := blocks_cons.mp hb
      have hstop := b.addr_le_stop
      have hlen := ih hrest
      simp only [heapHeader, List.length_cons] at *
      omega

theorem Represents.length_lt (hr : Represents h l) : l.length < HeapMemory.walk := by
  have hlen := hr.blocks.length_le
  have hbound := hr.bound
  simp only [HeapMemory.walk, wordModulus, kernelHeapEnd, heapHeader, kernelHeapStart,
    kernelBootstrapEnd, kernelVirtBase, bootstrapMapSize] at *
  omega

theorem heapEnd_lt (hbound : h.heapEnd ≤ kernelHeapEnd + 1) : h.heapEnd < wordModulus := by
  simp only [kernelHeapEnd, wordModulus] at *
  omega

end Data

namespace HeapMemory

variable {h h' : HeapMemory} {l pre post : List HeapBlock} {b : HeapBlock} {wanted ptr : Nat}

theorem heapValidate_ok (hr : Represents h l) : heapValidate h = .ok () :=
  heapValidateFrom_ok hr.chain hr.length_lt hr.blocks (by decide) (Nat.le_refl _)
    (heapEnd_lt hr.bound)

/-- `heap_merge`. -/
theorem heapMerge_ok (hc : Chain h.mem h.head l 0) (hb : Blocks kernelHeapStart l h.heapEnd)
    (hne : l ≠ []) (hbound : h.heapEnd ≤ kernelHeapEnd + 1) :
    ∃ h', heapMerge h = .ok h' ∧ Represents h' (Neox.heapMerge l) ∧ h'.heapEnd = h.heapEnd ∧
      ∀ x, (∀ c ∈ l, c.free = true → x < c.addr ∨ c.data ≤ x) → h'.mem x = h.mem x := by
  cases l with
  | nil => exact absurd rfl hne
  | cons b rest =>
      have hlen := hb.length_le
      have hfuel : rest.length < walk := by
        simp only [walk, wordModulus, kernelHeapEnd, heapHeader, List.length_cons] at *
        omega
      obtain ⟨mem', hmerge, hchain, hframe⟩ := heapMergeFrom_ok hc hfuel hb (heapEnd_lt hbound)
      refine ⟨{ h with mem := mem' }, ?_, ⟨hchain, hb.merge, coalesced_merge _, heapMerge_ne_nil hne,
        hbound⟩, rfl, hframe⟩
      unfold heapMerge
      rw [hmerge]
      rfl

/-- A header that is rewritten between two parts of the list. -/
theorem chain_middle {mem : Block} {p : Nat} (hc : Chain mem p (pre ++ b :: post) 0) :
    Chain mem p pre b.addr ∧ b.addr ≠ 0 ∧ size mem b.addr = b.size ∧ free mem b.addr = b.free ∧
      Chain mem (next mem b.addr) post 0 := by
  obtain ⟨r, hpre, hr, ⟨rfl, hsize, hfree⟩, hpost⟩ := segment_append.mp hc
  exact ⟨hpre, hr, hsize, hfree, hpost⟩

/-- The flag of a block is set. -/
theorem chain_setFree {mem : Block} {p e : Nat} (flag : Bool)
    (hc : Chain mem p (pre ++ b :: post) 0) (hb : Blocks kernelHeapStart (pre ++ b :: post) e) :
    Chain (setFree mem b.addr flag) p (pre ++ { b with free := flag } :: post) 0 := by
  obtain ⟨hpre, h0, hsize, -, hpost⟩ := chain_middle hc
  obtain ⟨hbpre, -, hbpost⟩ := blocks_middle.mp hb
  have hstop := b.addr_le_stop
  refine segment_append.mpr ⟨b.addr, chain_congr hpre fun c hcm x _ hx => ?_,
    h0, ⟨rfl, ?_, free_setFree⟩, ?_⟩
  · have hle := (hbpre.tiles.bounds hcm).2.2
    have hdata := c.addr_le_stop
    refine setFree_of_not_mem (.inl ?_)
    simp only [HeapBlock.data] at *
    omega
  · rw [size_setFree, hsize]
  · rw [next_setFree]
    refine chain_congr hpost fun c hcm x hx _ => setFree_of_not_mem (.inr ?_)
    have hle := (hbpost.tiles.bounds hcm).1
    omega

/-! ## `kfree` -/

/-- The blocks in use after `kfree`. -/
theorem inUse_release {c : HeapBlock} (hb : Blocks kernelHeapStart (pre ++ b :: post) h.heapEnd)
    (hused : b.free = false) :
    c ∈ inUse (Neox.heapMerge (pre ++ { b with free := true } :: post)) ↔
      c ∈ inUse (pre ++ b :: post) ∧ c.data ≠ b.data := by
  have hother : ∀ c, c ∈ pre ∨ c ∈ post → c.data ≠ b.data := by
    intro c hc heq
    obtain ⟨hbpre, -, hbpost⟩ := blocks_middle.mp hb
    have hstop := b.addr_le_stop
    have hcstop := c.addr_le_stop
    simp only [HeapBlock.data] at heq
    rcases hc with hc | hc
    · have hle := (hbpre.tiles.bounds hc).2.2
      simp only [heapHeader] at *
      omega
    · have hle := (hbpost.tiles.bounds hc).1
      simp only [heapHeader] at *
      omega
  rw [inUse_merge]
  simp only [mem_inUse, List.mem_append, List.mem_cons]
  constructor
  · rintro ⟨hc | rfl | hc, hfree⟩
    · exact ⟨⟨.inl hc, hfree⟩, hother c (.inl hc)⟩
    · cases hfree
    · exact ⟨⟨.inr (.inr hc), hfree⟩, hother c (.inr hc)⟩
  · rintro ⟨⟨hc | rfl | hc, hfree⟩, hne⟩
    · exact ⟨.inl hc, hfree⟩
    · exact absurd rfl hne
    · exact ⟨.inr (.inr hc), hfree⟩

/-- `kfree` of a block in use releases it and no other. -/
theorem kfree_ok (hr : Represents h l) (hb : b ∈ inUse l) (hptr : b.data = ptr) (h0 : ptr ≠ 0) :
    ∃ h' l₁, kfree h ptr = .ok h' ∧ heapRelease ptr l = some l₁ ∧
      Represents h' (Neox.heapMerge l₁) ∧ h'.heapEnd = h.heapEnd ∧ KeepsData l h.mem h'.mem ∧
      ∀ c, c ∈ inUse (Neox.heapMerge l₁) ↔ c ∈ inUse l ∧ c.data ≠ ptr := by
  obtain ⟨hbl, hused⟩ := mem_inUse.mp hb
  have hdata : ∀ c ∈ l, c.data < wordModulus := by
    intro c hc
    have hle := (hr.blocks.tiles.bounds hc).2.2
    have hlt := heapEnd_lt hr.bound
    simp only [HeapBlock.stop] at *
    omega
  have hfind := heapFindBlock_eq ptr hr.chain hr.length_lt hdata
  rcases heapRelease_eq ptr l with ⟨hnone, -⟩ | ⟨pre, b', post, rfl, hptr', hsome, hrelease⟩
  · have hmiss := List.find?_eq_none.mp hnone b hbl
    simp [hptr] at hmiss
  · -- Blocks with one data address are one block.
    have hsame : b = b' := by
      have hstop := b.addr_le_stop
      have hstop' := b'.addr_le_stop
      rcases hr.blocks.tiles.disjoint hbl (List.mem_append_right _ (List.mem_cons_self ..)) with
        heq | hlt | hgt
      · exact heq
      · simp only [HeapBlock.data, heapHeader] at *
        omega
      · simp only [HeapBlock.data, heapHeader] at *
        omega
    subst hsame
    have hfound : heapFindBlock h.mem ptr h.head walk = .ok b.addr := by
      rw [hfind, hsome]
      rfl
    rw [hused, if_neg (by decide)] at hrelease
    have hset := chain_setFree true hr.chain hr.blocks
    obtain ⟨-, hb0, -, hfree, -⟩ := chain_middle hr.chain
    obtain ⟨h', hmerge, hrep, hend, hframe⟩ := heapMerge_ok
      (h := { h with mem := setFree h.mem b.addr true }) hset (hr.blocks.setFree true) (by simp) hr.bound
    refine ⟨h', _, ?_, hrelease, hrep, hend, fun x hx => ?_, fun c => ?_⟩
    · unfold kfree
      rw [if_neg h0, hfound]
      show (if b.addr = 0 then _ else if free h.mem b.addr = true then _ else _) = _
      rw [if_neg hb0, hfree, hused, if_neg (by decide), hmerge]
      show (heapValidate h' >>= fun _ => pure h') = _
      rw [heapValidate_ok hrep]
      rfl
    · have hout := fun c hc => hr.blocks.not_header (c := c) hx hc
      refine (hframe x fun c hc _ => ?_).trans (setFree_of_not_mem (hout b hbl))
      rcases List.mem_append.mp hc with hc | hc
      · exact hout c (List.mem_append_left _ hc)
      · rcases List.mem_cons.mp hc with rfl | hc
        · exact hout b hbl
        · exact hout c (List.mem_append_right _ (List.mem_cons_of_mem _ hc))
    · rw [← hptr]
      exact inUse_release hr.blocks hused

/-! ## `heap_expand` -/

theorem heapExpand_fail (hr : Represents h l) : heapExpand h none = .ok (false, h) := by
  unfold heapExpand
  have hhead : h.head ≠ 0 := fun h0 => hr.nonempty (hr.chain.eq_zero_iff.mp h0)
  have hstart := hr.blocks.tiles.le
  rw [if_neg (not_or.mpr ⟨hhead, Nat.not_lt.mpr hstart⟩)]
  rfl

theorem linkPage_of_not_mem {mem : Block} {last e x : Nat} (he : e < wordModulus) (hx : x < e)
    (hlast : x < last ∨ last + heapHeader ≤ x) : linkPage mem last e x = mem x := by
  unfold linkPage
  simp only [next_setNext he]
  exact (setNext_of_not_mem (.inl hx)).trans ((setFree_of_not_mem (.inl hx)).trans
    ((setSize_of_not_mem (.inl hx)).trans (setNext_of_not_mem hlast)))

/-- The list with a block for the new page. -/
theorem linkPage_chain {mem : Block} {p a e : Nat} (hc : Chain mem p (pre ++ [b]) 0)
    (hb : Blocks a (pre ++ [b]) e) (he : e < wordModulus) :
    Chain (linkPage mem b.addr e) p ((pre ++ [b]) ++ [⟨e, pageSize - heapHeader, true⟩]) 0 := by
  obtain ⟨hpre, hb0, hsize, hfree, -⟩ := chain_middle hc
  obtain ⟨hbpre, -, hbend⟩ := blocks_middle.mp hb
  have hend : b.stop = e := hbend.tiles
  have hstop := b.addr_le_stop
  have hsame : SameHeader (setNext mem b.addr e) (linkPage mem b.addr e) b.addr := by
    unfold linkPage
    simp only [next_setNext he]
    refine sameHeader_of_bytes fun x _ hx => ?_
    have hxe : x < e := by omega
    exact (setNext_of_not_mem (.inl hxe)).trans ((setFree_of_not_mem (.inl hxe)).trans
      (setSize_of_not_mem (.inl hxe)))
  rw [List.append_assoc]
  refine segment_append.mpr ⟨b.addr, chain_congr hpre fun c hc x _ hx => ?_, hb0,
    ⟨rfl, ?_, ?_⟩, ?_⟩
  · have hle := (hbpre.tiles.bounds hc).2.2
    have hcstop := c.addr_le_stop
    have hxb : x < b.addr := by
      simp only [HeapBlock.data] at *
      omega
    exact linkPage_of_not_mem he (by omega) (.inl hxb)
  · rw [hsame.1, size_setNext, hsize]
  · rw [hsame.2.1, free_setNext, hfree]
  · rw [hsame.2.2, next_setNext he]
    unfold linkPage
    simp only [next_setNext he]
    refine ⟨by omega, ⟨rfl, ?_, ?_⟩, ?_⟩
    · rw [size_setNext, size_setFree, size_setSize (by decide)]
    · rw [free_setNext, free_setFree]
    · exact next_setNext (by decide)

/-- `heap_expand` with a page. -/
theorem heapExpand_ok (hr : Represents h l) (contents : Block)
    (hroom : h.heapEnd + pageSize ≤ kernelHeapEnd + 1) :
    ∃ h', heapExpand h (some contents) = .ok (true, h') ∧
      Represents h' (Neox.heapMerge
        (l ++ [{ addr := h.heapEnd, size := pageSize - heapHeader, free := true }])) ∧
      h'.heapEnd = h.heapEnd + pageSize ∧ KeepsData l h.mem h'.mem := by
  have hhead : h.head ≠ 0 := fun h0 => hr.nonempty (hr.chain.eq_zero_iff.mp h0)
  have hstart := hr.blocks.tiles.le
  have hlt := heapEnd_lt hr.bound
  have hlen := hr.length_lt
  obtain ⟨init, b, rfl⟩ : ∃ init b, l = init ++ [b] :=
    ⟨l.dropLast, l.getLast hr.nonempty, (List.dropLast_append_getLast hr.nonempty).symm⟩
  -- The page is mapped behind the last block.
  have hcopy : ∀ x, x < h.heapEnd → copy h.mem h.heapEnd pageSize contents x = h.mem x :=
    fun x hx => copy_of_not_mem contents (.inl hx)
  have hchain : Chain (copy h.mem h.heapEnd pageSize contents) h.head (init ++ [b]) 0 :=
    chain_congr hr.chain fun c hc x _ hx => hcopy x (by
      have hle := (hr.blocks.tiles.bounds hc).2.2
      simp only [HeapBlock.stop] at *
      omega)
  have hlast : heapLastBlock (copy h.mem h.heapEnd pageSize contents) h.head walk = .ok b.addr := by
    refine heapLastBlock_eq hchain ?_
    rw [List.length_append] at hlen
    exact Nat.lt_of_le_of_lt (Nat.le_add_right ..) hlen
  have hmod : (h.heapEnd + pageSize) % wordModulus = h.heapEnd + pageSize := by
    apply Nat.mod_eq_of_lt
    simp only [kernelHeapEnd, pageSize, wordModulus] at *
    omega
  obtain ⟨h', hmerge, hrep, hend, hframe⟩ := heapMerge_ok
    (h := ⟨linkPage (copy h.mem h.heapEnd pageSize contents) b.addr h.heapEnd, h.head,
      h.heapEnd + pageSize⟩)
    (linkPage_chain hchain hr.blocks hlt) hr.blocks.snoc (by simp) hroom
  refine ⟨h', ?_, hrep, hend, fun x hx => ?_⟩
  · unfold heapExpand
    rw [if_neg (not_or.mpr ⟨hhead, Nat.not_lt.mpr hstart⟩), hmod]
    simp only []
    rw [hlast]
    show (heapMerge _ >>= fun h => heapValidate h >>= fun _ => pure (true, h)) = _
    rw [hmerge]
    show (heapValidate h' >>= fun _ => pure (true, h')) = _
    rw [heapValidate_ok hrep]
    rfl
  · have hxe := hr.blocks.data_lt hx
    have hout := fun c hc => hr.blocks.not_header (c := c) hx hc
    refine (hframe x fun c hc _ => ?_).trans
      ((linkPage_of_not_mem hlt hxe (hout b (by simp))).trans (hcopy x hxe))
    rcases List.mem_append.mp hc with hc | hc
    · exact hout c hc
    · cases List.mem_singleton.mp hc
      exact .inl hxe

/-! ## `kmalloc` -/

/-- `heap_split_block` writes inside the block it cuts. -/
theorem cutBlock_of_not_mem {mem : Block} {x : Nat} (hb : b.stop < wordModulus)
    (hcut : wanted + heapHeader < b.size) (hx : x < b.addr ∨ b.stop ≤ x) :
    cutBlock mem b.addr wanted (b.size - wanted) x = mem x := by
  have hnew : (b.addr + heapHeader + wanted) % wordModulus = b.data + wanted := by
    apply Nat.mod_eq_of_lt
    simp only [HeapBlock.stop, HeapBlock.data] at *
    omega
  have hold : x < b.addr ∨ b.addr + heapHeader ≤ x := by
    simp only [HeapBlock.stop, HeapBlock.data] at *
    omega
  have hnewOut : x < b.data + wanted ∨ b.data + wanted + heapHeader ≤ x := by
    simp only [HeapBlock.stop, HeapBlock.data] at *
    omega
  unfold cutBlock
  simp only [hnew]
  exact (setNext_of_not_mem hold).trans ((setSize_of_not_mem hold).trans
    ((setNext_of_not_mem hnewOut).trans ((setFree_of_not_mem hnewOut).trans
      (setSize_of_not_mem hnewOut))))

/-- The list with the block cut in two. -/
theorem cutBlock_chain {mem : Block} {p a e : Nat} (hc : Chain mem p (pre ++ b :: post) 0)
    (hb : Blocks a (pre ++ b :: post) e) (he : e < wordModulus)
    (hcut : wanted + heapHeader < b.size) :
    Chain (cutBlock mem b.addr wanted (b.size - wanted)) p
      (pre ++ { b with size := wanted } ::
        ⟨b.data + wanted, b.size - wanted - heapHeader, true⟩ :: post) 0 := by
  obtain ⟨hpre, hb0, -, hflag, hpost⟩ := chain_middle hc
  obtain ⟨hbpre, -, hbpost⟩ := blocks_middle.mp hb
  have hstop := hbpost.tiles.le
  have hlt : b.stop < wordModulus := Nat.lt_of_le_of_lt hstop he
  have hout : ∀ x, x < b.addr ∨ b.stop ≤ x →
      cutBlock mem b.addr wanted (b.size - wanted) x = mem x := fun x hx =>
    cutBlock_of_not_mem hlt hcut hx
  have hnew : (b.addr + heapHeader + wanted) % wordModulus = b.data + wanted := by
    apply Nat.mod_eq_of_lt
    simp only [HeapBlock.stop, HeapBlock.data] at *
    omega
  have hsizes : b.size - wanted - heapHeader < wordModulus ∧ wanted < wordModulus ∧
      b.data + wanted < wordModulus := by
    simp only [HeapBlock.stop, HeapBlock.data] at *
    omega
  -- Neither header is written through the other.
  have hapart : ∀ mem' : Block, ∀ w flag n, next (setFree (setSize mem' (b.data + wanted) w)
      (b.data + wanted) flag) b.addr = next mem' b.addr ∧
      free (setNext (setFree (setSize mem' (b.data + wanted) w) (b.data + wanted) flag)
        (b.data + wanted) n) b.addr = free mem' b.addr := by
    intro mem' w flag n
    have hlow : ∀ x, x < b.addr + heapHeader → x < b.data + wanted := by
      intro x hx
      simp only [HeapBlock.data] at *
      omega
    constructor
    · refine (sameHeader_of_bytes fun x _ hx => ?_).2.2
      exact (setFree_of_not_mem (.inl (hlow x hx))).trans (setSize_of_not_mem (.inl (hlow x hx)))
    · refine (sameHeader_of_bytes fun x _ hx => ?_).2.1
      exact (setNext_of_not_mem (.inl (hlow x hx))).trans
        ((setFree_of_not_mem (.inl (hlow x hx))).trans (setSize_of_not_mem (.inl (hlow x hx))))
  have hkeep : ∀ mem' : Block, ∀ w n, SameHeader mem' (setNext (setSize mem' b.addr w) b.addr n)
      (b.data + wanted) := by
    intro mem' w n
    refine sameHeader_of_bytes fun x hx _ => ?_
    have hhigh : b.addr + heapHeader ≤ x := by
      simp only [HeapBlock.data] at *
      omega
    exact (setNext_of_not_mem (.inr hhigh)).trans (setSize_of_not_mem (.inr hhigh))
  refine segment_append.mpr ⟨b.addr, chain_congr hpre fun c hcm x _ hx => ?_, hb0,
    ⟨rfl, ?_, ?_⟩, ?_⟩
  · have hle := (hbpre.tiles.bounds hcm).2.2
    have hcstop := c.addr_le_stop
    refine hout x (.inl ?_)
    simp only [HeapBlock.data] at *
    omega
  · unfold cutBlock
    simp only []
    rw [size_setNext, size_setSize hsizes.2.1]
  · unfold cutBlock
    simp only [hnew]
    rw [free_setNext, free_setSize, (hapart ..).2, hflag]
  · have hlink : next (cutBlock mem b.addr wanted (b.size - wanted)) b.addr = b.data + wanted := by
      unfold cutBlock
      simp only [hnew]
      rw [next_setNext hsizes.2.2]
    rw [hlink]
    have hheader : SameHeader (setNext (setFree (setSize mem (b.data + wanted)
        (b.size - wanted - heapHeader)) (b.data + wanted) true) (b.data + wanted)
        (next mem b.addr)) (cutBlock mem b.addr wanted (b.size - wanted)) (b.data + wanted) := by
      unfold cutBlock
      simp only [hnew, (hapart mem _ _ 0).1]
      exact hkeep _ _ _
    refine ⟨?_, ⟨rfl, ?_, ?_⟩, ?_⟩
    · simp only [HeapBlock.data, heapHeader]
      omega
    · rw [hheader.1, size_setNext, size_setFree, size_setSize hsizes.1]
    · rw [hheader.2.1, free_setNext, free_setFree]
    · rw [hheader.2.2, next_setNext (show next mem b.addr < wordModulus from read32_lt _ _)]
      refine chain_congr hpost fun c hcm x hx _ => hout x (.inr ?_)
      have hle := (hbpost.tiles.bounds hcm).1
      omega

/-- `kmalloc` gives away the free block it has found, whole or cut. -/
theorem heapGive_ok (hr : Represents h (pre ++ b :: post)) (hfree : b.free = true)
    (hfits : wanted ≤ b.size) (hwanted : wanted % heapAlignment = 0) :
    ∃ h', heapGive h b.addr wanted = .ok (b.data, h') ∧
      Represents h' (pre ++ (Neox.heapSplitBlock b wanted ++ post)) ∧ h'.heapEnd = h.heapEnd ∧
      ∀ x, x < b.addr ∨ b.stop ≤ x → h'.mem x = h.mem x := by
  have hlt := heapEnd_lt hr.bound
  obtain ⟨-, hb0, hsize, hflag, -⟩ := chain_middle hr.chain
  have hstop := (hr.blocks.tiles.bounds (List.mem_append_right _ (List.mem_cons_self ..))).2.2
  have hheader := b.addr_le_stop
  have hblocks := hr.blocks.split hfits hwanted
  have hcoalesced := hr.coalesced.split wanted hfree
  have hdata : (b.addr + heapHeader) % wordModulus = b.data := by
    apply Nat.mod_eq_of_lt
    simp only [HeapBlock.stop] at *
    omega
  have hcheck : ¬ (b.addr = 0 ∨ free h.mem b.addr = false ∨ size h.mem b.addr < wanted) := by
    rw [hflag, hfree, hsize]
    simp [hb0, hfits]
  unfold heapGive heapSplitBlock
  rw [if_neg hcheck, hsize, hdata]
  unfold Neox.heapSplitBlock at hblocks hcoalesced ⊢
  by_cases hwhole : b.size - wanted ≤ heapHeader
  · simp only [if_pos hwhole] at hblocks hcoalesced ⊢
    have hrep : Represents { h with mem := setFree h.mem b.addr false }
        (pre ++ ([{ b with free := false }] ++ post)) :=
      ⟨chain_setFree false hr.chain hr.blocks, hblocks, hcoalesced, by simp, hr.bound⟩
    refine ⟨_, ?_, hrep, rfl, fun x hx => setFree_of_not_mem (by
      simp only [HeapBlock.stop, HeapBlock.data] at *
      omega)⟩
    show (heapValidate _ >>= fun _ => pure _) = _
    rw [heapValidate_ok hrep]
    rfl
  · simp only [if_neg hwhole] at hblocks hcoalesced ⊢
    have hcut : wanted + heapHeader < b.size := by omega
    have hchain := cutBlock_chain hr.chain hr.blocks hlt hcut
    have hset : Chain (setFree (cutBlock h.mem b.addr wanted (b.size - wanted)) b.addr false) h.head
        (pre ++ { b with size := wanted, free := false } ::
          ⟨b.data + wanted, b.size - wanted - heapHeader, true⟩ :: post) 0 :=
      chain_setFree (b := { b with size := wanted }) false hchain (hblocks.setFree b.free)
    have hrep : Represents
        { h with mem := setFree (cutBlock h.mem b.addr wanted (b.size - wanted)) b.addr false }
        (pre ++ ([{ b with size := wanted, free := false },
          ⟨b.data + wanted, b.size - wanted - heapHeader, true⟩] ++ post)) :=
      ⟨hset, hblocks, hcoalesced, by simp, hr.bound⟩
    refine ⟨_, ?_, hrep, rfl, fun x hx => ?_⟩
    · show (heapValidate _ >>= fun _ => pure _) = _
      rw [heapValidate_ok hrep]
      rfl
    · refine (setFree_of_not_mem ?_).trans
        (cutBlock_of_not_mem (Nat.lt_of_le_of_lt hstop hlt) hcut hx)
      simp only [HeapBlock.stop, HeapBlock.data] at *
      omega

end HeapMemory

end Neox
