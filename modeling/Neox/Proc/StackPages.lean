import Neox.Mm.IdleStack
import Neox.Mm.Overlay
import Neox.Proc.State

/-!
# The pages of kernel stacks

`thread_create` maps the four pages of a stack slot in the kernel's directory, or unmaps those it has
mapped when a frame is missing; `thread_destroy` unmaps all four. A page table is shared by 256 slots.
-/

namespace Neox

open Pmm Checked

variable {m m' m₀ m₁ : Mm} {use use' use₀ use₁ : Nat → Use} {slot stack i n v : Nat}

/-! ## Slots -/

/-- The address of a slot. -/
def stackSlot (slot : Nat) : Nat := kernelStacksStart + slot * kernelStackSize

/-- The first `n` pages of a stack. -/
def firstPages (stack n : Nat) : Nat → Prop :=
  fun v => stack / pageSize ≤ v ∧ v < stack / pageSize + n

theorem stackSlot_ne (slot : Nat) : stackSlot slot ≠ 0 := by
  unfold stackSlot
  simp only [kernelStacksStart, kernelStackSize]
  omega

theorem stackSlot_inj {slot' : Nat} (h : stackSlot slot = stackSlot slot') : slot = slot' := by
  unfold stackSlot at h
  simp only [kernelStacksStart, kernelStackSize] at h
  omega

/-- Page `i` of a slot. -/
theorem stackSlot_page (slot i : Nat) :
    (stackSlot slot + i * pageSize) / pageSize = stackSlot slot / pageSize + i := by
  unfold stackSlot
  simp only [kernelStacksStart, kernelStackSize, pageSize]
  omega

/-- The pages of a slot have one page table. -/
theorem stackSlot_table (slot : Nat) (hi : i < kernelStackPages) :
    (stackSlot slot / pageSize + i) / 1024 = stackSlot slot / pageSize / 1024 := by
  unfold stackSlot
  simp only [kernelStacksStart, kernelStackSize, pageSize, kernelStackPages] at *
  omega

theorem firstPages_table (h : firstPages (stackSlot slot) kernelStackPages v) :
    v / 1024 = stackSlot slot / pageSize / 1024 := by
  obtain ⟨h1, h2⟩ := h
  obtain ⟨i, rfl⟩ := Nat.exists_eq_add_of_le h1
  exact stackSlot_table slot (by omega)

theorem firstPages_succ (stack n v : Nat) :
    firstPages stack (n + 1) v ↔ v = stack / pageSize + n ∨ firstPages stack n v := by
  unfold firstPages
  omega

theorem firstPages_pred (stack n v : Nat) :
    firstPages stack (n + 1) v ∧ v ≠ stack / pageSize + n ↔ firstPages stack n v := by
  unfold firstPages
  omega

theorem firstPages_zero (stack v : Nat) : firstPages stack 0 v ↔ noPage v := by
  unfold firstPages
  constructor
  · intro h
    omega
  · exact False.elim

/-- Different slots have different pages. -/
theorem firstPages_slot {slot' : Nat} (h : firstPages (stackSlot slot) kernelStackPages v)
    (h' : firstPages (stackSlot slot') kernelStackPages v) : slot = slot' := by
  unfold firstPages stackSlot at h h'
  simp only [kernelStacksStart, kernelStackSize, pageSize, kernelStackPages] at *
  omega

theorem owns_slot (hslot : slot < kernelStackCount) (hi : i < kernelStackPages) (k : Nat) :
    Owns k k (directoryIndex (stackSlot slot + i * pageSize)) := by
  apply owns_stacks
  · unfold stackSlot
    rw [Nat.add_assoc]
    exact Nat.le_add_right _ _
  · unfold stackSlot
    simp only [kernelStacksStart, kernelStacksEnd, kernelStackSize, kernelStackPages, kernelStackCount,
      pageSize] at *
    omega

/-- The pages of a slot as a region. -/
def SlotPages (k slot : Nat) : Region := fun d v => d = k ∧ firstPages (stackSlot slot) kernelStackPages v

theorem slotPages_at {k : Nat} (hi : i < kernelStackPages) (d v : Nat)
    (h : At k ((stackSlot slot + i * pageSize) / pageSize) d v) : SlotPages k slot d v := by
  obtain ⟨rfl, rfl⟩ := h
  rw [stackSlot_page]
  exact ⟨rfl, Nat.le_add_right _ _, Nat.add_lt_add_left hi _⟩

theorem slotPages_owns {k d : Nat} (hslot : slot < kernelStackCount) (h : SlotPages k slot d v) :
    Owns k d (v / 1024) := by
  obtain ⟨rfl, hv⟩ := h
  have ho := owns_slot (i := 0) hslot (by decide) d
  rwa [directoryIndex_eq, stackSlot_page, Nat.add_zero, ← firstPages_table hv] at ho

/-- Nothing is mapped in the slot, and its page table, if there is one, has another page. -/
structure Vacant (m : Mm) (use : Nat → Use) (slot : Nat) : Prop where
  lt : slot < kernelStackCount
  unmapped : ∀ v, firstPages (stackSlot slot) kernelStackPages v →
    ∀ g, use g ≠ .page m.kernelDirectory v
  table : NotEmpty use m.kernelDirectory (stackSlot slot / pageSize / 1024)

/-! ## Mapping a stack -/

/-- Since `m₀` the first `n` pages of the slot have been mapped. -/
structure PartStack (slot : Nat) (m₀ : Mm) (use₀ : Nat → Use) (n : Nat) (m : Mm) (use : Nat → Use) :
    Prop where
  overlay : Overlay m₀.kernelDirectory m₀ use₀ (firstPages (stackSlot slot) n) m use
  here : Local (SlotPages m₀.kernelDirectory slot) m₀ use₀ m use
  same : SameVirtual m₀ m

theorem PartStack.start (hu : Uses m use) (slot : Nat) : PartStack slot m use 0 m use where
  overlay := (Overlay.refl hu).congr fun v => (firstPages_zero _ v).symm
  here := .refl hu
  same := .refl m

/-- `paging_map_kernel` of the next page. -/
theorem PartStack.map {p : Nat} {m₂ : Mm} (h : PartStack slot m₀ use₀ i m use) (hu₀ : Uses m₀ use₀)
    (hv : Vacant m₀ use₀ slot) (hi : i < kernelStackPages) (halloc : m.allocPage = (p, m₁)) (hp : p ≠ 0)
    (hmap : pagingMap m₁ m₁.kernelDirectory (stackSlot slot + i * pageSize) p
      (pagePresent ||| pageWritable) = .ok m₂)
    (hwalk : (m₂.walk m₂.kernelDirectory (stackSlot slot + i * pageSize)).isSome = true) :
    ∃ use', PartStack slot m₀ use₀ (i + 1) m₂ use' := by
  have hk := h.here.kernelDirectory
  have hk₁ : m₁.kernelDirectory = m.kernelDirectory := (allocPage_addressed halloc).2.1
  have hk₂ : m₂.kernelDirectory = m₁.kernelDirectory := (pagingMap_frame hmap).1
  rw [hk₁, hk] at hmap
  rw [hk₂, hk₁, hk] at hwalk
  have hpage := stackSlot_page slot i
  have hnone : ∀ g, use g ≠ .page m₀.kernelDirectory ((stackSlot slot + i * pageSize) / pageSize) := by
    intro g
    apply h.overlay.no_page
    · apply hv.unmapped
      rw [hpage]
      exact ⟨Nat.le_add_right _ _, Nat.add_lt_add_left hi _⟩
    · rw [hpage]
      exact fun hlow => Nat.lt_irrefl _ hlow.2
    · -- The heap has not grown.
      rintro ⟨w, hle, hlt, -⟩
      rw [h.same.heapEnd] at hlt
      exact absurd (Nat.lt_of_le_of_lt hle hlt) (Nat.lt_irrefl _)
  obtain ⟨use', hlocal, hoverlay, hsame, -⟩ := h.overlay.mapFresh (h.here.directory.mpr hu₀.kernel)
    (hk.symm ▸ owns_slot hv.lt hi _) hnone (by decide) (by decide) halloc hp hmap hwalk
  refine ⟨use', hoverlay.congr fun w => ?_, h.here.trans (hlocal.mono (slotPages_at hi)),
    h.same.trans hsame⟩
  rw [hpage]
  exact (firstPages_succ _ i w).symm

/-- The last page that was mapped is unmapped. -/
theorem PartStack.unmap (h : PartStack slot m₀ use₀ (i + 1) m use) (hu₀ : Uses m₀ use₀)
    (hv : Vacant m₀ use₀ slot) (hi : i < kernelStackPages)
    (hm : releaseStackPage (stackSlot slot) m i = .ok m') :
    ∃ use', PartStack slot m₀ use₀ i m' use' := by
  have hk := h.here.kernelDirectory
  have hpage := stackSlot_page slot i
  unfold releaseStackPage at hm
  rw [hk] at hm
  obtain ⟨use', hlocal, hoverlay, hsame⟩ := h.overlay.unmapFree hu₀ (h.here.directory.mpr hu₀.kernel)
    (hk.symm ▸ owns_slot hv.lt hi _)
    (hv.unmapped _ (by rw [hpage]; exact ⟨Nat.le_add_right _ _, Nat.add_lt_add_left hi _⟩))
    (by rw [hpage, stackSlot_table slot hi]; exact hv.table) hm
  refine ⟨use', hoverlay.congr fun w => ?_, h.here.trans (hlocal.mono (slotPages_at hi)),
    h.same.trans hsame⟩
  rw [hpage]
  exact firstPages_pred _ i w

/-- The roll-back of `thread_create`. -/
theorem PartStack.rollBack (h : PartStack slot m₀ use₀ i m use) (hu₀ : Uses m₀ use₀)
    (hv : Vacant m₀ use₀ slot) (hi : i ≤ kernelStackPages)
    (hm : (List.range i).reverse.foldlM (releaseStackPage (stackSlot slot)) m = .ok m') :
    ∃ use', PartStack slot m₀ use₀ 0 m' use' := by
  induction i generalizing m use with
  | zero =>
      cases pure_eq_ok.mp hm
      exact ⟨use, h⟩
  | succ i ih =>
      rw [List.range_succ, List.reverse_append, List.reverse_singleton, List.singleton_append,
        List.foldlM_cons] at hm
      obtain ⟨m₁, hstep, hm⟩ := bind_eq_ok.mp hm
      obtain ⟨use₁, h₁⟩ := h.unmap hu₀ hv hi hstep
      exact ih h₁ (Nat.le_of_succ_le hi) hm

/-- The loop of `thread_create`: the whole stack is mapped, or nothing. -/
theorem PartStack.loop {directory : Nat} {mapped : Bool} (h : PartStack slot m₀ use₀ i m use)
    (hu₀ : Uses m₀ use₀) (hv : Vacant m₀ use₀ slot) (hi : i + n = kernelStackPages)
    (hm : mapStackPages directory (stackSlot slot) m i n = .ok (mapped, m')) :
    ∃ use', PartStack slot m₀ use₀ (if mapped then kernelStackPages else 0) m' use' := by
  induction n generalizing m use i with
  | zero =>
      cases pure_eq_ok.mp hm
      refine ⟨use, ?_⟩
      rw [if_pos rfl, ← hi]
      exact h
  | succ n ih =>
      unfold mapStackPages at hm
      rcases halloc : m.allocPage with ⟨p, m₁⟩
      rw [halloc] at hm
      dsimp only at hm
      have hsame := allocPage_virtual halloc
      by_cases hp : p = 0
      · -- There is no frame.
        rw [if_pos hp] at hm
        obtain ⟨m₂, hback, hm⟩ := bind_eq_ok.mp hm
        cases pure_eq_ok.mp hm
        rcases h.here.uses.take (R := SlotPages m₀.kernelDirectory slot) halloc with
          ⟨-, hlocal⟩ | ⟨f, -, -, hne, -⟩
        · have h₁ : PartStack slot m₀ use₀ i m₁ use :=
            ⟨h.overlay.repool hlocal.uses hlocal.kernelDirectory hsame.heapEnd,
              h.here.trans hlocal, h.same.trans hsame⟩
          exact h₁.rollBack hu₀ hv (by omega) hback
        · exact absurd hp hne
      · rw [if_neg hp] at hm
        obtain ⟨m₂, hmap, hm⟩ := bind_eq_ok.mp hm
        obtain ⟨valid, hvalid, hm⟩ := bind_eq_ok.mp hm
        cases valid with
        | false => cases hm
        | true =>
            obtain ⟨shared, -, hm⟩ := bind_eq_ok.mp hm
            cases shared with
            | false => cases hm
            | true =>
                obtain ⟨use₂, h₂⟩ := h.map hu₀ hv (by omega) halloc hp hmap
                  (pagingValidateMapping_spec hvalid).symm
                exact ih h₂ (by omega) hm

/-! ## Releasing a stack -/

/-- What was mapped in the first `n` pages of the slot is free, and so is their page table if that has
no other page. -/
structure Vacated (k slot n : Nat) (use use' : Nat → Use) : Prop where
  old : ∀ v g, firstPages (stackSlot slot) n v → use g = .page k v → use' g = .free
  rest : ∀ g, (∀ v, firstPages (stackSlot slot) n v → use g ≠ .page k v) →
    use' g = use g ∨ use g = .table k (stackSlot slot / pageSize / 1024) ∧ use' g = .free
  left : 0 < n → NotEmpty use' k (stackSlot slot / pageSize / 1024)

/-- After `n` iterations of the loop of `thread_destroy`. -/
structure PartReleased (slot : Nat) (m₀ : Mm) (use₀ : Nat → Use) (n : Nat) (m : Mm)
    (use : Nat → Use) : Prop where
  here : Local (SlotPages m₀.kernelDirectory slot) m₀ use₀ m use
  vacated : Vacated m₀.kernelDirectory slot n use₀ use
  frees : ∃ frames, FreesOnce m₀.pmm frames m.pmm
  same : SameVirtual m₀ m

theorem PartReleased.start (hu : Uses m use) (slot : Nat) : PartReleased slot m use 0 m use where
  here := .refl hu
  vacated := by
    refine ⟨fun v g hv _ => ?_, fun _ _ => .inl rfl, fun h => absurd h (Nat.lt_irrefl 0)⟩
    exact ((firstPages_zero _ v).mp hv).elim
  frees := ⟨[], .nil _⟩
  same := .refl m

theorem PartReleased.step (h : PartReleased slot m₀ use₀ i m use) (hu₀ : Uses m₀ use₀)
    (hslot : slot < kernelStackCount) (hi : i < kernelStackPages)
    (hm : releaseStackPage (stackSlot slot) m i = .ok m') :
    ∃ use', PartReleased slot m₀ use₀ (i + 1) m' use' := by
  have hk := h.here.kernelDirectory
  have hpage := stackSlot_page slot i
  unfold releaseStackPage at hm
  rw [hk] at hm
  obtain ⟨⟨use', hlocal, hcleared, hleft⟩, ⟨frames, hfrees⟩, hsame⟩ := h.here.uses.unmapFree
    (h.here.directory.mpr hu₀.kernel) (hk.symm ▸ owns_slot hslot hi _) hm
  obtain ⟨before, hbefore⟩ := h.frees
  rw [hpage] at hcleared hleft
  rw [stackSlot_table slot hi] at hleft
  refine ⟨use', h.here.trans (hlocal.mono (slotPages_at hi)), ⟨fun v g hv hg => ?_, fun g hg => ?_,
    fun _ => hleft⟩, ⟨before ++ frames, hbefore.append hfrees⟩, h.same.trans hsame⟩
  · by_cases hvi : v = stackSlot slot / pageSize + i
    · -- The page that has just been unmapped.
      have hothers : ∀ w, firstPages (stackSlot slot) i w → use₀ g ≠ .page m₀.kernelDirectory w := by
        intro w hw heq
        rw [hg] at heq
        injection heq with _ hvw
        exact absurd hw.2 (by omega)
      have hnow : use g = .page m₀.kernelDirectory v := by
        rcases h.vacated.rest g hothers with hsame' | ⟨htable, -⟩
        · exact hsame'.trans hg
        · rw [hg] at htable
          cases htable
      exact hcleared.old g (hvi ▸ hnow)
    · have hfree := h.vacated.old v g (((firstPages_succ _ i v).mp hv).resolve_left hvi) hg
      rcases hcleared.rest g (by rw [hfree]; simp) with hsame' | ⟨-, hfree'⟩
      · exact hsame'.trans hfree
      · exact hfree'
  · have hothers : ∀ v, firstPages (stackSlot slot) i v → use₀ g ≠ .page m₀.kernelDirectory v :=
      fun v hv => hg v ((firstPages_succ _ i v).mpr (.inr hv))
    rcases h.vacated.rest g hothers with hsame' | ⟨htable, hfree⟩
    · have hne : use g ≠ .page m₀.kernelDirectory (stackSlot slot / pageSize + i) := by
        rw [hsame']
        exact hg _ ((firstPages_succ _ i _).mpr (.inl rfl))
      rcases hcleared.rest g hne with hsame'' | ⟨htable, hfree⟩
      · exact .inl (hsame''.trans hsame')
      · rw [stackSlot_table slot hi, hsame'] at htable
        exact .inr ⟨htable, hfree⟩
    · refine .inr ⟨htable, ?_⟩
      rcases hcleared.rest g (by rw [hfree]; simp) with hsame'' | ⟨-, hfree'⟩
      · exact hsame''.trans hfree
      · exact hfree'

/-- The loop of `thread_destroy`. -/
theorem releaseStack_spec (hu : Uses m use) (hslot : slot < kernelStackCount)
    (hm : (List.range kernelStackPages).foldlM (releaseStackPage (stackSlot slot)) m = .ok m') :
    ∃ use', PartReleased slot m use kernelStackPages m' use' := by
  have hloop : Post (fun _ => True) (fun m' => ∃ use', PartReleased slot m use kernelStackPages m' use')
      ((List.range kernelStackPages).foldlM (releaseStackPage (stackSlot slot)) m) := by
    apply Post.foldlM_range (I := fun n m' => ∃ use', PartReleased slot m use n m' use')
    · exact ⟨use, .start hu slot⟩
    · intro i hi m₁ h₁
      obtain ⟨use₁, h₁⟩ := h₁
      exact ⟨fun hstep => h₁.step hu hslot hi hstep, fun _ => trivial⟩
  exact hloop.of_ok hm

end Neox
