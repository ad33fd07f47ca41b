import Neox.Proc.StackBalance

/-!
# Who has the frames

The frames that were free when the kernel started are accounted for after any run of its memory: each is free,
the heap's, a thread's or a process's. A run is careful when a page of a process is mapped only where none is, as
the loader and the user stacks do, and its page table is not refused the last frame.

* `Accounts.call`: one case for each call.
* `frames_accounted`: which frames are free, in every state that is reached.
-/

namespace Neox

open Pmm Checked

variable {m m' : Mm} {use use' use₀ : Nat → Use} {f g v i d slot virt flags : Nat} {k k' k₀ : Kernel}
  {p : ProcessId} {t : ThreadId} {s s' : KernelState} {c : MemoryCall} {calls : List MemoryCall}

/-! ## Careful calls -/

/-- A page is mapped only where none is, and the one frame that is left is not spent on it while its page table
is missing. -/
def MemoryCall.careful (s : KernelState) : MemoryCall → Bool
  | .userMap p virt _ =>
      let directory := (s.kernel.processes p).pageDirectory
      (s.kernel.mm.walk directory virt).isNone &&
        (present (s.kernel.mm.entry directory (directoryIndex virt)) ||
          decide (s.kernel.mm.freeFrames.length ≠ 1))
  | .kmalloc _ | .kfree _ | .processCreate | .processDestroy _ | .userUnmap _ _ | .threadCreate _
  | .threadAdd _ | .threadExit _ | .threadDestroy _ => true

/-- A run of valid and careful calls. -/
abbrev CarefulRun :=
  Transition.Run KernelState.step fun s c => c.valid s = true ∧ c.careful s = true

/-- `pmm_alloc_page` does not fail right after the first of several frames. -/
theorem second_alloc {m₁ m₂ : Mm} {phys : Nat} (hu : Uses m use) (hone : m.freeFrames.length ≠ 1)
    (hfirst : m.allocPage = (phys, m₁)) (hphys : phys ≠ 0) (hu₁ : ∃ use₁, Uses m₁ use₁) :
    m₁.allocPage ≠ (0, m₂) := by
  cases hfree : m.freeFrames with
  | nil =>
      obtain ⟨q, hq, -⟩ := allocPage_nil hfree
      rw [hfirst] at hq
      exact absurd (congrArg Prod.fst hq) hphys
  | cons f l =>
      obtain ⟨q, hq, -, -, -, hrest⟩ := allocPage_cons hu hfree
      rw [hfirst] at hq
      obtain rfl : m₁ = { m with pmm := q } := congrArg Prod.snd hq
      cases l with
      | nil =>
          rw [hfree] at hone
          exact absurd rfl hone
      | cons g l =>
          obtain ⟨use₁, hu₁⟩ := hu₁
          obtain ⟨r, hr, hne, -⟩ := allocPage_cons hu₁ hrest
          intro hzero
          rw [hzero] at hr
          exact hne (congrArg Prod.fst hr).symm

/-- A careful mapping takes free frames for the page and its page table, and changes nothing else. -/
theorem mapUserPage_takes (hu : Uses m use) (hd : use d = .directory) (hk : d ≠ m.kernelDirectory)
    (hvirt : virt < kernelVirtBase) (hflags : flags < pageSize) (hpres : present flags = true)
    (hunmapped : m.walk d virt = none)
    (htable : present (m.entry d (directoryIndex virt)) = true ∨ m.freeFrames.length ≠ 1)
    (hm : mapUserPage m d virt flags = .ok m') :
    ∃ use', Local (UserPages d) m use m' use' ∧ SameVirtual m m' ∧
      ∀ f, use' f = use f ∨ use f = .free ∧ (use' f).isOf d = true := by
  have ho : Owns m.kernelDirectory d (directoryIndex virt) := by
    rw [owns_of_ne hk, directoryIndex_eq]
    exact userPage hvirt
  have hnone : ∀ g, use g ≠ .page d (virt / pageSize) := by
    intro g hg
    have hdiv : (g * pageSize + virt % pageSize) / pageSize = g := by
      simp only [pageSize]
      omega
    have hmod : (g * pageSize + virt % pageSize) % pageSize = virt % pageSize := by
      simp only [pageSize]
      omega
    have hwalk : m.walk d virt = some (g * pageSize + virt % pageSize) :=
      (hu.walk_iff hd ho).mpr ⟨hdiv.symm ▸ hg, hmod⟩
    rw [hunmapped] at hwalk
    cases hwalk
  unfold mapUserPage at hm
  rcases halloc : m.allocPage with ⟨phys, m₁⟩
  rw [halloc] at hm
  dsimp only at hm
  have hsame := allocPage_virtual halloc
  rcases hu.take (R := UserPages d) halloc with ⟨rfl, hlocal⟩ | ⟨f, hf, rfl, hne, hlt, hlocal⟩
  · -- There is no frame.
    rw [if_pos rfl] at hm
    cases pure_eq_ok.mp hm
    exact ⟨use, hlocal, hsame, fun f => .inl rfl⟩
  · rw [if_neg hne] at hm
    have hdiv : f * pageSize / pageSize = f := Nat.mul_div_cancel _ (by decide)
    have hheld : Function.update use f .held (f * pageSize / pageSize) = .held := by
      rw [hdiv, Function.update_self]
    have ho₁ : Owns m₁.kernelDirectory d (directoryIndex virt) := by
      rw [hlocal.kernelDirectory]
      exact ho
    have hentry : m₁.entry d (directoryIndex virt) = m.entry d (directoryIndex virt) := by
      obtain ⟨q, rfl, -⟩ := hu.allocPage halloc
      rfl
    obtain ⟨use', hmapped, ⟨-, habsent, hfail⟩ | ⟨hnew, -⟩⟩ :=
      hlocal.uses.pagingMap (hlocal.directory.mpr hd) ho₁ hheld hlt hflags hpres hm
    · -- The page table was refused.
      rw [hentry] at habsent
      rcases htable with hpresent | hone
      · rw [hpresent] at habsent
        cases habsent
      · exact absurd hfail (second_alloc hu hone halloc hne ⟨_, hlocal.uses⟩)
    · refine ⟨use', hlocal.trans (hmapped.mono (userPages_at hvirt)),
        hsame.trans (pagingMap_virtual hm), fun g => ?_⟩
      rw [hdiv] at hnew
      by_cases hg : g = f
      · subst hg
        rw [hnew.new]
        exact .inr ⟨hf, by simp [Use.isOf]⟩
      · have hold : Function.update use f .held g = use g := Function.update_of_ne hg _ _
        have hrest := hnew.rest g hg (by
          rw [hold]
          exact hnone g)
        rw [hold] at hrest
        apply hrest.imp_right
        rintro ⟨hfree, htable'⟩
        rw [htable']
        exact ⟨hfree, by simp [Use.isOf]⟩

/-! ## The accounts -/

/-- The frame is a process's directory, or one of its page tables or pages. -/
def OfProcess (k : Kernel) (use : Nat → Use) (f : Nat) (p : ProcessId) : Prop :=
  f = (k.processes p).pageDirectory ∨ (use f).isOf (k.processes p).pageDirectory = true

/-- The frame is a page of the stacks, but not of the idle thread's, or one of their page tables. -/
def OfStacks (kd : Nat) (u : Use) : Prop :=
  (∃ v, StackPage v ∧ ¬ firstPages (stackSlot 0) kernelStackPages v ∧ u = .page kd v) ∨
    ∃ i, StackTable i ∧ u = .table kd i

/-- The frame is free, of the stacks, of what the heap has grown by since it ended at `lo`, or a process's. -/
inductive Accounted (lo : Nat) (k : Kernel) (use : Nat → Use) (f : Nat) : Prop where
  | free (h : use f = .free)
  | stack (h : OfStacks k.mm.kernelDirectory (use f))
  | heap (h : OfHeap k.mm.kernelDirectory lo k.mm.heapEnd (use f))
  | process (p : ProcessId) (hp : p ∈ k.pids) (h : OfProcess k use f p)

/-- What has become of the frames since `k₀`. -/
structure Accounts (k₀ : Kernel) (use₀ : Nat → Use) (k : Kernel) (use : Nat → Use) : Prop where
  inv : KernelInv k use
  kernelDirectory : k.mm.kernelDirectory = k₀.mm.kernelDirectory
  heapEnd : k₀.mm.heapEnd ≤ k.mm.heapEnd
  kept : ∀ f, use₀ f ≠ .free → use f = use₀ f
  spent : ∀ f, use₀ f = .free → Accounted k₀.mm.heapEnd k use f
  fresh : ∀ p ∈ k.pids, use₀ (k.processes p).pageDirectory = .free

section Steps

variable {block : Nat}

theorem Accounts.refl (h : KernelInv k use) (hpids : k.pids = []) : Accounts k use k use where
  inv := h
  kernelDirectory := rfl
  heapEnd := Nat.le_refl _
  kept _ _ := rfl
  spent _ hf := .free hf
  fresh p hp := by
    rw [hpids] at hp
    exact absurd hp List.not_mem_nil

/-- A step that keeps what was in use at the start, and accounts for the frames that it changes. -/
theorem Accounts.step (h : Accounts k₀ use₀ k use) (hinv : KernelInv k' use')
    (hkd : k'.mm.kernelDirectory = k.mm.kernelDirectory) (hend : k.mm.heapEnd ≤ k'.mm.heapEnd)
    (hkept : ∀ f, use₀ f ≠ .free → use' f = use f)
    (hspent : ∀ f, use₀ f = .free → use' f = use f ∨ Accounted k.mm.heapEnd k' use' f)
    (hprocesses : ∀ p ∈ k.pids, ∀ f, OfProcess k use f p → use' f = use f → p ∈ k'.pids ∧
      (k'.processes p).pageDirectory = (k.processes p).pageDirectory)
    (hfresh : ∀ p ∈ k'.pids, use₀ (k'.processes p).pageDirectory = .free) : Accounts k₀ use₀ k' use' where
  inv := hinv
  kernelDirectory := hkd.trans h.kernelDirectory
  heapEnd := Nat.le_trans h.heapEnd hend
  kept f hf := (hkept f hf).trans (h.kept f hf)
  fresh := hfresh
  spent f hf := by
    rcases hspent f hf with hsame | hnew
    · -- Who had the frame still has it.
      cases h.spent f hf with
      | free hfree => exact .free (hsame.trans hfree)
      | stack hstack =>
          apply Accounted.stack
          rw [hsame, hkd]
          exact hstack
      | heap hheap =>
          apply Accounted.heap
          rw [hsame, hkd]
          exact hheap.mono (Nat.le_refl _) hend
      | process p hp howner =>
          obtain ⟨hp', hdirectory⟩ := hprocesses p hp f howner hsame
          apply Accounted.process p hp'
          unfold OfProcess
          rw [hdirectory, hsame]
          exact howner
    · cases hnew with
      | free hfree => exact .free hfree
      | stack hstack => exact .stack hstack
      | heap hheap => exact .heap (hheap.mono h.heapEnd (Nat.le_refl _))
      | process p hp howner => exact .process p hp howner

/-- A step that leaves the processes' directories alone. -/
theorem Accounts.sameProcesses (h : Accounts k₀ use₀ k use) (hinv : KernelInv k' use')
    (hkd : k'.mm.kernelDirectory = k.mm.kernelDirectory) (hend : k.mm.heapEnd ≤ k'.mm.heapEnd)
    (hkept : ∀ f, use₀ f ≠ .free → use' f = use f)
    (hspent : ∀ f, use₀ f = .free → use' f = use f ∨ Accounted k.mm.heapEnd k' use' f)
    (hpids : k'.pids = k.pids)
    (hdirectories : ∀ p, (k'.processes p).pageDirectory = (k.processes p).pageDirectory) :
    Accounts k₀ use₀ k' use' := by
  refine h.step hinv hkd hend hkept hspent (fun p hp f _ _ => ⟨hpids ▸ hp, hdirectories p⟩) fun p hp => ?_
  rw [hdirectories]
  exact h.fresh p (hpids ▸ hp)

/-- A step that takes frames for the heap, or for a stack. -/
theorem Accounts.overlay {pages : Nat → Prop} (h : Accounts k₀ use₀ k use) (hinv : KernelInv k' use')
    (hoverlay : Overlay k.mm.kernelDirectory k.mm use pages k'.mm use')
    (hpages : ∀ v, pages v → StackPage v ∧ ¬ firstPages (stackSlot 0) kernelStackPages v)
    (hpids : k'.pids = k.pids)
    (hdirectories : ∀ p, (k'.processes p).pageDirectory = (k.processes p).pageDirectory) :
    Accounts k₀ use₀ k' use' := by
  apply h.sameProcesses hinv hoverlay.kernelDirectory hoverlay.heapEnd ?_ ?_ hpids hdirectories
  · intro f hf
    apply hoverlay.kept
    rw [h.kept f hf]
    exact hf
  · intro f _
    by_cases hfree : use f = .free
    · right
      have hkd := hoverlay.kernelDirectory
      rcases hoverlay.spent f hfree with hstill | ⟨v, hv, hpage⟩ | ⟨v, hv, htable⟩ | hheap
      · exact .free hstill
      · exact .stack (.inl ⟨v, (hpages v hv).1, (hpages v hv).2, hkd ▸ hpage⟩)
      · exact .stack (.inr ⟨v / 1024, stackPage_table (hpages v hv).1, hkd ▸ htable⟩)
      · exact .heap (hkd ▸ hheap)
    · exact .inl (hoverlay.kept f hfree)

/-- What was in use at the start is no process's. -/
theorem Accounts.not_ofProcess (h : Accounts k₀ use₀ k use) (h₀ : KernelInv k₀ use₀) (hp : p ∈ k.pids)
    (hf : use₀ f ≠ .free) : ¬ OfProcess k use f p := by
  have hfree := h.fresh p hp
  rintro (rfl | hof)
  · exact hf hfree
  · rw [h.kept f hf, isOf_iff] at hof
    have hdirectory : use₀ (k.processes p).pageDirectory = .directory := by
      obtain ⟨i, htable⟩ | ⟨v, hpage⟩ := hof
      · exact (h₀.memory.ready.uses.table_back f _ i htable).2.1
      · obtain ⟨t, htable, -⟩ := h₀.memory.ready.uses.page_back f _ v hpage
        exact (h₀.memory.ready.uses.table_back t _ _ htable).2.1
    rw [hdirectory] at hfree
    cases hfree

/-- `kmalloc`. -/
theorem Accounts.kmalloc {size ptr : Nat} (h : Accounts k₀ use₀ k use)
    (hm : Neox.kmalloc k.mm size = .ok (ptr, m')) : ∃ use', Accounts k₀ use₀ { k with mm := m' } use' := by
  obtain ⟨use', hinv, habsorbs⟩ := h.inv.kmalloc hm
  exact ⟨use', h.overlay hinv (habsorbs.overlay (d := k.mm.kernelDirectory)) (fun _ hv => hv.elim) rfl
    fun _ => rfl⟩

/-- `kfree`. -/
theorem Accounts.kfree {ptr : Nat} (h : Accounts k₀ use₀ k use) (hm : Neox.kfree k.mm ptr = .ok m') :
    Accounts k₀ use₀ { k with mm := m' } use := by
  have hinv := h.inv.kfree hm
  obtain ⟨heap, rfl⟩ := kfree_frame hm
  exact h.sameProcesses hinv rfl (Nat.le_refl _) (fun _ _ => rfl) (fun _ _ => .inl rfl) rfl fun _ => rfl

/-- `process_create`. -/
theorem Accounts.processCreate {found : Option ProcessId} (h : Accounts k₀ use₀ k use)
    (hm : Neox.processCreate k = .ok (found, k')) : ∃ use', Accounts k₀ use₀ k' use' := by
  unfold Neox.processCreate at hm
  obtain ⟨⟨block, m₁⟩, hmalloc, hm⟩ := bind_eq_ok.mp hm
  obtain ⟨use₁, h₁⟩ := h.kmalloc hmalloc
  dsimp only at hm
  by_cases hblock : block = 0
  · rw [if_pos hblock] at hm
    cases pure_eq_ok.mp hm
    exact ⟨use₁, h₁⟩
  rw [if_neg hblock] at hm
  obtain ⟨⟨created, m₂⟩, hcreate, hm⟩ := bind_eq_ok.mp hm
  obtain ⟨hsame, hkd⟩ := pagingCreateDirectory_virtual hcreate
  cases created with
  | none =>
      dsimp only at hm
      obtain ⟨m₃, hfree, hm⟩ := bind_eq_ok.mp hm
      cases pure_eq_ok.mp hm
      have h₂ := h₁.sameProcesses (h₁.inv.noDirectory hcreate) hkd (Nat.le_of_eq hsame.heapEnd.symm)
        (fun _ _ => rfl) (fun _ _ => .inl rfl) rfl fun _ => rfl
      exact ⟨use₁, h₂.kfree hfree⟩
  | some d =>
      cases pure_eq_ok.mp hm
      obtain ⟨hfree, h₂⟩ := h₁.inv.createDirectory hcreate
      have hunused : use₀ d = .free := by
        by_contra hused
        rw [h₁.kept d hused] at hfree
        exact hused hfree
      have hold : ∀ q ∈ k.pids, ∀ process : ProcessMemory,
          Function.update k.processes k.nextPid process q = k.processes q := by
        intro q hq process
        exact Function.update_of_ne (Nat.ne_of_lt (h.inv.processes.lt q hq)) _ _
      have hcreated : (⟨block, d, [], []⟩ : ProcessMemory).pageDirectory = d ∧
          (⟨block, d, [], []⟩ : ProcessMemory).block = block := ⟨rfl, rfl⟩
      have hinv := h₂.addProcess hblock (Function.update_self ..) (by
          show d ≠ m₂.kernelDirectory
          intro heq
          rw [heq, hkd, h₁.inv.memory.ready.uses.kernel] at hfree
          cases hfree) (by
          intro q hq heq
          have hd := (h₁.inv.processes.directory q hq).1
          rw [heq, hfree] at hd
          cases hd) hcreated
      refine ⟨_, h₁.step hinv hkd (Nat.le_of_eq hsame.heapEnd.symm) (fun f hf => ?_) (fun f _ => ?_)
        (fun q hq f _ _ => ⟨List.mem_append_left _ hq, ?_⟩) fun q hq => ?_⟩
      · apply Function.update_of_ne
        rintro rfl
        exact hf hunused
      · by_cases hf : f = d
        · refine .inr (.process k.nextPid (List.mem_append_right _ (List.mem_singleton.mpr rfl)) (.inl ?_))
          show f = (Function.update k.processes k.nextPid _ k.nextPid).pageDirectory
          rw [Function.update_self]
          exact hf
        · exact .inl (Function.update_of_ne hf _ _)
      · show (Function.update k.processes k.nextPid _ q).pageDirectory = _
        rw [hold q hq]
      · show use₀ (Function.update k.processes k.nextPid _ q).pageDirectory = .free
        rcases List.mem_append.mp hq with hq | hq
        · rw [hold q hq]
          exact h.fresh q hq
        · rw [List.mem_singleton.mp hq, Function.update_self]
          exact hunused

/-- `process_destroy`. -/
theorem Accounts.processDestroy (h : Accounts k₀ use₀ k use) (h₀ : KernelInv k₀ use₀) (hp : p ∈ k.pids)
    (hm : Neox.processDestroy k p = .ok k') : ∃ use', Accounts k₀ use₀ k' use' := by
  obtain ⟨hinv, hk', hkd, hend⟩ := h.inv.processDestroyed hp hm
  have hpids : k'.pids = k.pids.erase p := by rw [hk']
  have hprocesses : k'.processes = k.processes := by rw [hk']
  have hsame : ∀ f, ¬ OfProcess k use f p → without use (k.processes p).pageDirectory f = use f := by
    intro f hf
    exact if_neg hf
  refine ⟨_, h.step hinv hkd (Nat.le_of_eq hend.symm) (fun f hf => ?_) (fun f _ => ?_)
    (fun q hq f howner hkept => ?_) fun q hq => ?_⟩
  · exact hsame f (h.not_ofProcess h₀ hp hf)
  · by_cases howner : OfProcess k use f p
    · exact .inr (.free (if_pos howner))
    · exact .inl (hsame f howner)
  · rw [hprocesses, hpids]
    refine ⟨h.inv.processes.nodup.mem_erase_iff.mpr ⟨?_, hq⟩, rfl⟩
    rintro rfl
    -- The frame has been given back.
    have hfree : use f = .free := hkept.symm.trans (if_pos howner)
    rcases howner with rfl | hof
    · rw [(h.inv.processes.directory q hq).1] at hfree
      cases hfree
    · rw [hfree] at hof
      cases hof
  · rw [hprocesses]
    rw [hpids] at hq
    exact h.fresh q (List.mem_of_mem_erase hq)

/-- Work on the pages of a process that takes free frames for it or gives some of its own back. -/
theorem Accounts.userPages (h : Accounts k₀ use₀ k use) (h₀ : KernelInv k₀ use₀) (hp : p ∈ k.pids)
    (hlocal : Local (UserPages (k.processes p).pageDirectory) k.mm use m' use') (hvirtual : SameVirtual k.mm m')
    (hchange : ∀ f, use' f = use f ∨
      use f = .free ∧ (use' f).isOf (k.processes p).pageDirectory = true ∨
      (use f).isOf (k.processes p).pageDirectory = true ∧ use' f = .free) :
    Accounts k₀ use₀ { k with mm := m' } use' := by
  have hinv := h.inv.userPages (h.inv.processes.directory p hp).2 hlocal hvirtual
  apply h.sameProcesses hinv hlocal.kernelDirectory (Nat.le_of_eq hvirtual.heapEnd.symm) ?_ ?_ rfl fun _ => rfl
  · intro f hf
    rcases hchange f with hsame | ⟨hfree, -⟩ | ⟨hof, -⟩
    · exact hsame
    · rw [h.kept f hf] at hfree
      exact absurd hfree hf
    · exact absurd (.inr hof) (h.not_ofProcess h₀ hp hf)
  · intro f _
    rcases hchange f with hsame | ⟨-, hof⟩ | ⟨-, hfree⟩
    · exact .inl hsame
    · exact .inr (.process p hp (.inr hof))
    · exact .inr (.free hfree)

/-- `thread_create`. -/
theorem Accounts.threadCreate {found : Option ThreadId} (h : Accounts k₀ use₀ k use)
    (hm : Neox.threadCreate k p = .ok (found, k')) : ∃ use', Accounts k₀ use₀ k' use' := by
  obtain ⟨a, hb⟩ := h.inv.memory.blocks
  obtain ⟨use', ⟨-, hnot⟩ | ⟨-, slot, block, hc⟩⟩ :=
    threadCreate_spec h.inv.memory.ready hb h.inv.memory.freeVacant hm
  · have hinv : KernelInv k' use' := by
      rw [hnot.kernel]
      apply h.inv.keep (h.inv.memory.notCreated hnot) hnot.overlay.kernelDirectory
      exact fun d hd => (hnot.overlay.kept d (by rw [hd]; simp)).trans hd
    refine ⟨use', h.overlay hinv hnot.overlay (fun _ hv => hv.elim) ?_ fun q => ?_⟩
    · rw [hnot.kernel]
    · rw [hnot.kernel]
  · have hne : slot ≠ 0 := by
      rintro rfl
      have htaken := (h.inv.memory.slots 0 (by decide)).mpr (.inl rfl)
      rw [hc.free] at htaken
      cases htaken
    refine ⟨use', h.overlay (h.inv.created hc) hc.overlay
      (fun v hv => ⟨stackPage_slot hc.vacant.lt hv, fun hidle => hne (firstPages_slot hv hidle)⟩) ?_
      fun q => ?_⟩
    · rw [hc.kernel]
    · rw [hc.kernel]

/-- Of the region of the stacks only the idle thread's pages were mapped at the start. -/
theorem KernelInv.idleSlot (h₀ : KernelInv k₀ use₀) (htids : k₀.tids = []) (hv : StackPage v)
    (hf : use₀ f = .page k₀.mm.kernelDirectory v) : firstPages (stackSlot 0) kernelStackPages v := by
  obtain ⟨slot, hslot, hpages⟩ := slot_of_stackPage hv
  by_cases hzero : slot = 0
  · rw [← hzero]
    exact hpages
  · obtain ⟨t, ht, -⟩ := (h₀.memory.mapped slot hslot hzero v hpages).mp ⟨f, hf⟩
    rw [htids] at ht
    exact absurd ht List.not_mem_nil

/-- `thread_destroy`. -/
theorem Accounts.threadDestroy (h : Accounts k₀ use₀ k use) (h₀ : KernelInv k₀ use₀) (htids : k₀.tids = [])
    (ht : t ∈ k.tids) (hm : Neox.threadDestroy k t = .ok k') : ∃ use', Accounts k₀ use₀ k' use' := by
  obtain ⟨a, hb⟩ := h.inv.memory.blocks
  obtain ⟨slot, hstack, hne, hlt⟩ := h.inv.threadSlot ht
  obtain ⟨huser, hdesc, hblock⟩ := h.inv.threads.plain t ht
  obtain ⟨use', hr⟩ := threadDestroy_spec h.inv.memory.ready hb hstack hlt hne huser hdesc hblock hm
  have hinv := h.inv.destroyed ht hstack hr
  have hkd := h.kernelDirectory
  -- No page of the slot was in use at the start.
  have hpage : ∀ g v, use₀ g = .page k₀.mm.kernelDirectory v →
      ¬ firstPages (stackSlot slot) kernelStackPages v := by
    intro g v hg hv
    exact hne (firstPages_slot hv (h₀.idleSlot htids (stackPage_slot hlt hv) hg))
  have hrest : ∀ g, use₀ g ≠ .free → use' g = use g ∨
      use g = .table k.mm.kernelDirectory (stackSlot slot / pageSize / 1024) ∧ use' g = .free := by
    intro g hg
    apply hr.vacated.rest
    intro v hv heq
    rw [h.kept g hg, hkd] at heq
    exact hpage g v heq hv
  have hpids : k'.pids = k.pids := by
    rw [hr.kernel]
    rfl
  have hdirectories : ∀ p, (k'.processes p).pageDirectory = (k.processes p).pageDirectory := by
    intro p
    rw [hr.kernel]
    exact (setProcess_records p).1
  refine ⟨use', h.sameProcesses hinv hr.here.kernelDirectory (Nat.le_of_eq hr.heapEnd.symm)
    (fun f hf => ?_) (fun f _ => ?_) hpids hdirectories⟩
  · rcases hrest f hf with hsame | ⟨htable, -⟩
    · exact hsame
    · -- A page table that was there at the start has a page that was, and is.
      have htable₀ := htable
      rw [h.kept f hf, hkd] at htable₀
      obtain ⟨g, v, hg, hv⟩ := h₀.memory.tables _ (stackTable_slot hlt) f htable₀
      have hused : use₀ g ≠ .free := by
        rw [hg]
        simp
      have hnow : use' g = .page k.mm.kernelDirectory v := by
        rw [hr.vacated.page_iff, h.kept g hused, hkd]
        exact ⟨hg, hpage g v hg⟩
      obtain ⟨table, ht', -⟩ := hr.ready.uses.page_back g _ v hnow
      rw [hv] at ht'
      rw [h.inv.memory.ready.uses.table_unique htable (hr.vacated.table_back ht'), ht',
        hr.vacated.table_back ht']
  · by_cases hold : ∃ v, firstPages (stackSlot slot) kernelStackPages v ∧
        use f = .page k.mm.kernelDirectory v
    · obtain ⟨v, hv, hold⟩ := hold
      exact .inr (.free (hr.vacated.old v f hv hold))
    · rcases hr.vacated.rest f fun v hv heq => hold ⟨v, hv, heq⟩ with hsame | ⟨-, hfree⟩
      · exact .inl hsame
      · exact .inr (.free hfree)

/-- One case for each call. -/
theorem Accounts.call (h : Accounts k₀ use₀ s.kernel use) (h₀ : KernelInv k₀ use₀) (htids : k₀.tids = [])
    (hc : c.valid s = true) (hcareful : c.careful s = true) (hs : s.step c = some s') :
    ∃ use', Accounts k₀ use₀ s'.kernel use' := by
  rw [step_eq_some] at hs
  cases c with
  | kmalloc size =>
      obtain ⟨⟨ptr, mm⟩, hm, hs⟩ := bind_eq_ok.mp hs
      cases pure_eq_ok.mp hs
      exact h.kmalloc hm
  | kfree ptr =>
      obtain ⟨mm, hm, hs⟩ := bind_eq_ok.mp hs
      cases pure_eq_ok.mp hs
      exact ⟨use, h.kfree hm⟩
  | processCreate =>
      obtain ⟨⟨found, k'⟩, hm, hs⟩ := bind_eq_ok.mp hs
      cases pure_eq_ok.mp hs
      exact h.processCreate hm
  | processDestroy p =>
      obtain ⟨k', hm, hs⟩ := bind_eq_ok.mp hs
      cases pure_eq_ok.mp hs
      exact h.processDestroy h₀ (of_decide_eq_true hc) hm
  | userMap p virt flags =>
      obtain ⟨mm, hm, hs⟩ := bind_eq_ok.mp hs
      cases pure_eq_ok.mp hs
      simp only [MemoryCall.valid, Bool.and_eq_true, decide_eq_true_eq] at hc
      obtain ⟨⟨⟨hp, hvirt⟩, hflags⟩, hpres⟩ := hc
      simp only [MemoryCall.careful, Bool.and_eq_true, Bool.or_eq_true, decide_eq_true_eq,
        Option.isNone_iff_eq_none] at hcareful
      obtain ⟨hd, hk⟩ := h.inv.processes.directory p hp
      obtain ⟨use', hlocal, hsame, htakes⟩ := mapUserPage_takes h.inv.memory.ready.uses hd hk hvirt hflags
        hpres hcareful.1 hcareful.2 hm
      exact ⟨use', h.userPages h₀ hp hlocal hsame fun f => (htakes f).imp_right .inl⟩
  | userUnmap p virt =>
      obtain ⟨mm, hm, hs⟩ := bind_eq_ok.mp hs
      cases pure_eq_ok.mp hs
      simp only [MemoryCall.valid, Bool.and_eq_true, decide_eq_true_eq] at hc
      obtain ⟨hp, hvirt⟩ := hc
      obtain ⟨hd, hk⟩ := h.inv.processes.directory p hp
      have ho : Owns s.kernel.mm.kernelDirectory (s.kernel.processes p).pageDirectory
          (directoryIndex virt) := by
        rw [owns_of_ne hk, directoryIndex_eq]
        exact userPage hvirt
      obtain ⟨⟨use', hlocal, hcleared, -⟩, -, hsame⟩ := h.inv.memory.ready.uses.unmapFree hd ho hm
      refine ⟨use', h.userPages h₀ hp (hlocal.mono (userPages_at hvirt)) hsame fun f => ?_⟩
      by_cases hpage : use f = .page (s.kernel.processes p).pageDirectory (virt / pageSize)
      · exact .inr (.inr ⟨isOf_iff.mpr (.inr ⟨_, hpage⟩), hcleared.old f hpage⟩)
      · rcases hcleared.rest f hpage with hkept | ⟨htable, hfree⟩
        · exact .inl hkept
        · exact .inr (.inr ⟨isOf_iff.mpr (.inl ⟨_, htable⟩), hfree⟩)
  | threadCreate p =>
      obtain ⟨⟨found, k'⟩, hm, hs⟩ := bind_eq_ok.mp hs
      cases pure_eq_ok.mp hs
      exact h.threadCreate hm
  | threadAdd t =>
      cases pure_eq_ok.mp hs
      exact ⟨use, h.sameProcesses (h.inv.link t) rfl (Nat.le_refl _) (fun _ _ => rfl) (fun _ _ => .inl rfl)
        rfl fun p => (setProcess_records p).1⟩
  | threadExit t =>
      cases pure_eq_ok.mp hs
      exact ⟨use, h.sameProcesses (h.inv.exit t) rfl (Nat.le_refl _) (fun _ _ => rfl)
        (fun _ _ => .inl rfl) rfl fun _ => rfl⟩
  | threadDestroy t =>
      obtain ⟨k', hm, hs⟩ := bind_eq_ok.mp hs
      cases pure_eq_ok.mp hs
      exact h.threadDestroy h₀ htids (of_decide_eq_true hc) hm

theorem Accounts.run (hrun : CarefulRun s calls s') (h₀ : KernelInv s.kernel use₀)
    (htids : s.kernel.tids = []) (hpids : s.kernel.pids = []) :
    ∃ use, Accounts s.kernel use₀ s'.kernel use := by
  apply Transition.Run.invariant hrun (I := fun s' => ∃ use, Accounts s.kernel use₀ s'.kernel use)
    ⟨use₀, .refl h₀ hpids⟩
  rintro s₁ c s₂ ⟨use, h⟩ ⟨hc, hcareful⟩ hstep
  exact h.call h₀ htids hc hcareful hstep

end Steps

/-! ## What the directories say -/

end Neox
