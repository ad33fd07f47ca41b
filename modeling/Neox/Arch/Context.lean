import Neox.Lib.Bytes
import Neox.Layout

/-!
# `context_switch`

`arch/x86/context.asm`, instruction by instruction, and the first stack frames that `thread_create`
and `scheduler_start` build for it. Only the registers these routines touch are kept; memory is bytes,
and a word is stored least significant byte first.
-/

namespace Neox

open Bytes

/-! ## The processor -/

inductive Reg where
  | eax
  | ebx
  | ebp
  | esi
  | edi
  | esp
  deriving DecidableEq, Repr

/-- The registers, the instruction pointer and memory. -/
structure Cpu where
  reg : Reg → Nat
  eip : Nat
  mem : Block
  word : ∀ r, reg r < wordModulus

namespace Cpu

/-- Load a register. -/
def set (c : Cpu) (r : Reg) (v : Nat) : Cpu where
  reg r' := if r' = r then v % wordModulus else c.reg r'
  eip := c.eip
  mem := c.mem
  word r' := by
    split
    · exact Nat.mod_lt _ (by decide)
    · exact c.word r'

/-- Store a word. -/
def write (c : Cpu) (addr v : Nat) : Cpu := { c with mem := write32 c.mem addr v }

section Fields

variable (c : Cpu) (r r' : Reg) (v addr : Nat)

@[simp] theorem set_reg : (c.set r v).reg r' = if r' = r then v % wordModulus else c.reg r' := rfl
@[simp] theorem set_mem : (c.set r v).mem = c.mem := rfl
@[simp] theorem set_eip : (c.set r v).eip = c.eip := rfl
@[simp] theorem write_reg : (c.write addr v).reg r = c.reg r := rfl
@[simp] theorem write_mem : (c.write addr v).mem = write32 c.mem addr v := rfl
@[simp] theorem write_eip : (c.write addr v).eip = c.eip := rfl

end Fields

end Cpu

inductive Instruction where
  | push (r : Reg)
  | pop (r : Reg)
  /-- `mov dst, [base + disp]` -/
  | load (dst base : Reg) (disp : Nat)
  /-- `mov [base], src` -/
  | store (base src : Reg)
  /-- `mov dst, src` -/
  | move (dst src : Reg)
  | ret
  deriving DecidableEq, Repr

namespace Cpu

def execute (c : Cpu) : Instruction → Cpu
  | .push r =>
      let esp := (c.reg .esp + (wordModulus - 4)) % wordModulus
      (c.set .esp esp).write esp (c.reg r)
  | .pop r => (c.set .esp (c.reg .esp + 4)).set r (read32 c.mem (c.reg .esp))
  | .load dst base disp => c.set dst (read32 c.mem ((c.reg base + disp) % wordModulus))
  | .store base src => c.write (c.reg base) (c.reg src)
  | .move dst src => c.set dst (c.reg src)
  | .ret => { c.set .esp (c.reg .esp + 4) with eip := read32 c.mem (c.reg .esp) }

def run (c : Cpu) (code : List Instruction) : Cpu := code.foldl execute c

end Cpu

/-! ## The routines -/

/-- `context_switch`. On entry `old_sp` is at `[esp+4]` and `new_sp` at `[esp+8]`. -/
def contextSwitch : List Instruction :=
  [.push .ebp, .push .ebx, .push .esi, .push .edi,
    .load .eax .esp 20, .store .eax .esp,
    .load .eax .esp 24, .move .esp .eax,
    .pop .edi, .pop .esi, .pop .ebx, .pop .ebp,
    .ret]

/-- `scheduler_enter_idle`. On entry `idle_sp` is at `[esp+4]`. -/
def schedulerEnterIdle : List Instruction :=
  [.load .esp .esp 4, .pop .edi, .pop .esi, .pop .ebx, .pop .ebp, .ret]

/-- What a function keeps for its caller: the registers after the return, and where it returns to. -/
structure Context where
  esp : Nat
  ebp : Nat
  ebx : Nat
  esi : Nat
  edi : Nat
  eip : Nat
  deriving DecidableEq, Repr

/-- The registers of a running thread. -/
def Cpu.context (c : Cpu) : Context where
  esp := c.reg .esp
  ebp := c.reg .ebp
  ebx := c.reg .ebx
  esi := c.reg .esi
  edi := c.reg .edi
  eip := c.eip

/-- At the entry of a function: the context its caller had at the `call`. -/
def Cpu.caller (c : Cpu) : Context where
  esp := (c.reg .esp + 4) % wordModulus
  ebp := c.reg .ebp
  ebx := c.reg .ebx
  esi := c.reg .esi
  edi := c.reg .edi
  eip := read32 c.mem (c.reg .esp)

/-- `struct cpu_context` at `sp` with the return address above it. -/
structure Saved (mem : Block) (sp : Nat) (ctx : Context) : Prop where
  edi : read32 mem sp = ctx.edi
  esi : read32 mem (sp + 4) = ctx.esi
  ebx : read32 mem (sp + 8) = ctx.ebx
  ebp : read32 mem (sp + 12) = ctx.ebp
  eip : read32 mem (sp + 16) = ctx.eip
  esp : ctx.esp = (sp + 20) % wordModulus

section Saved

variable {mem mem' : Block} {sp : Nat} {ctx : Context} {c : Cpu}

theorem Saved.congr (h : Saved mem sp ctx) (hsame : ∀ x, sp ≤ x → x < sp + 20 → mem' x = mem x) :
    Saved mem' sp ctx := by
  have hread : ∀ k, k ≤ 16 → read32 mem' (sp + k) = read32 mem (sp + k) := fun k hk =>
    read32_congr fun i hi => hsame _ (by omega) (by omega)
  obtain ⟨hedi, hesi, hebx, hebp, heip, hesp⟩ := h
  exact ⟨(hread 0 (by decide)).trans hedi, (hread 4 (by decide)).trans hesi,
    (hread 8 (by decide)).trans hebx, (hread 12 (by decide)).trans hebp,
    (hread 16 (by decide)).trans heip, hesp⟩

/-- The four `pop`s and the `ret` that both routines end with. -/
theorem restore_spec (h : Saved c.mem (c.reg .esp) ctx) (hroom : c.reg .esp + 20 ≤ wordModulus) :
    (c.run [.pop .edi, .pop .esi, .pop .ebx, .pop .ebp, .ret]).context = ctx ∧
      (c.run [.pop .edi, .pop .esi, .pop .ebx, .pop .ebp, .ret]).mem = c.mem := by
  obtain ⟨hedi, hesi, hebx, hebp, heip, hesp⟩ := h
  have h4 : (c.reg .esp + 4) % wordModulus = c.reg .esp + 4 := Nat.mod_eq_of_lt (by omega)
  have h8 : (c.reg .esp + 4 + 4) % wordModulus = c.reg .esp + 8 := Nat.mod_eq_of_lt (by omega)
  have h12 : (c.reg .esp + 8 + 4) % wordModulus = c.reg .esp + 12 := Nat.mod_eq_of_lt (by omega)
  have h16 : (c.reg .esp + 12 + 4) % wordModulus = c.reg .esp + 16 := Nat.mod_eq_of_lt (by omega)
  have hword : ∀ x, read32 c.mem x % wordModulus = read32 c.mem x := fun x =>
    Nat.mod_eq_of_lt (read32_lt _ _)
  refine ⟨?_, rfl⟩
  obtain ⟨esp, ebp, ebx, esi, edi, eip⟩ := ctx
  simp only [Cpu.run, List.foldl_cons, List.foldl_nil, Cpu.execute, Cpu.context, Cpu.set_reg,
    Cpu.set_mem, h4, h8, h12, h16, hword, if_true, reduceCtorEq, if_false]
  simp only [Context.mk.injEq]
  exact ⟨hesp.symm, hebp, hebx, hesi, hedi, heip⟩

end Saved

section Save

variable {c : Cpu} {cell sp : Nat}

/-- The part of `context_switch` that leaves the old stack: the four `push`es, the store of the stack
pointer through `old_sp`, and the load of the new one. -/
def saveContext : List Instruction :=
  [.push .ebp, .push .ebx, .push .esi, .push .edi, .load .eax .esp 20, .store .eax .esp,
    .load .eax .esp 24, .move .esp .eax]

theorem run_append (c : Cpu) (code rest : List Instruction) :
    c.run (code ++ rest) = (c.run code).run rest := List.foldl_append

/-- The memory after the four `push`es. -/
def pushed (c : Cpu) : Block :=
  write32 (write32 (write32 (write32 c.mem (c.reg .esp - 4) (c.reg .ebp)) (c.reg .esp - 8)
    (c.reg .ebx)) (c.reg .esp - 12) (c.reg .esi)) (c.reg .esp - 16) (c.reg .edi)

theorem pushed_of_not_mem (hesp : 16 ≤ c.reg .esp) {x : Nat}
    (hx : x < c.reg .esp - 16 ∨ c.reg .esp ≤ x) : pushed c x = c.mem x := by
  unfold pushed
  rw [write32_of_not_mem (by omega), write32_of_not_mem (by omega), write32_of_not_mem (by omega),
    write32_of_not_mem (by omega)]

/-- The words on the stack are pushed in the order of `struct cpu_context`. -/
theorem saved_pushed (hesp : 16 ≤ c.reg .esp) :
    Saved (pushed c) (c.reg .esp - 16) c.caller := by
  have hesi : c.reg .esp - 16 + 4 = c.reg .esp - 12 := by omega
  have hebx : c.reg .esp - 16 + 8 = c.reg .esp - 8 := by omega
  have hebp : c.reg .esp - 16 + 12 = c.reg .esp - 4 := by omega
  have heip : c.reg .esp - 16 + 16 = c.reg .esp := by omega
  constructor
  case edi => exact read32_write32 _ _ (c.word .edi)
  case esi =>
    rw [hesi, pushed, read32_write32_of_disjoint (by omega), read32_write32 _ _ (c.word .esi)]
    rfl
  case ebx =>
    rw [hebx, pushed, read32_write32_of_disjoint (by omega), read32_write32_of_disjoint (by omega),
      read32_write32 _ _ (c.word .ebx)]
    rfl
  case ebp =>
    rw [hebp, pushed, read32_write32_of_disjoint (by omega), read32_write32_of_disjoint (by omega),
      read32_write32_of_disjoint (by omega), read32_write32 _ _ (c.word .ebp)]
    rfl
  case eip =>
    rw [heip]
    exact read32_congr fun k _ => pushed_of_not_mem hesp (.inr (by omega))
  case esp =>
    show (c.reg .esp + 4) % wordModulus = (c.reg .esp - 16 + 20) % wordModulus
    congr 1
    omega

/-- The arguments are read back above the words that were pushed. -/
theorem run_saveContext (hesp : 16 ≤ c.reg .esp) (hroom : c.reg .esp + 12 ≤ wordModulus)
    (hcell : read32 c.mem (c.reg .esp + 4) = cell) (hsp : read32 c.mem (c.reg .esp + 8) = sp)
    (hout : cell + 4 ≤ c.reg .esp ∨ c.reg .esp + 12 ≤ cell) :
    (c.run saveContext).reg .esp = sp ∧
      (c.run saveContext).mem = write32 (pushed c) cell (c.reg .esp - 16) := by
  have h4 : (c.reg .esp + (wordModulus - 4)) % wordModulus = c.reg .esp - 4 := by
    simp only [wordModulus] at *
    omega
  have h8 : (c.reg .esp - 4 + (wordModulus - 4)) % wordModulus = c.reg .esp - 8 := by
    simp only [wordModulus] at *
    omega
  have h12 : (c.reg .esp - 8 + (wordModulus - 4)) % wordModulus = c.reg .esp - 12 := by
    simp only [wordModulus] at *
    omega
  have h16 : (c.reg .esp - 12 + (wordModulus - 4)) % wordModulus = c.reg .esp - 16 := by
    simp only [wordModulus] at *
    omega
  have hmod : ∀ k, k ≤ 16 → (c.reg .esp - k) % wordModulus = c.reg .esp - k := fun k _ =>
    Nat.mod_eq_of_lt (by omega)
  have h20 : (c.reg .esp - 16 + 20) % wordModulus = c.reg .esp + 4 := by
    simp only [wordModulus] at *
    omega
  have h24 : (c.reg .esp - 16 + 24) % wordModulus = c.reg .esp + 8 := by
    simp only [wordModulus] at *
    omega
  have hword : ∀ x mem, read32 mem x % wordModulus = read32 mem x := fun x mem =>
    Nat.mod_eq_of_lt (read32_lt _ _)
  have hargs : read32 (pushed c) (c.reg .esp + 4) = cell ∧
      read32 (pushed c) (c.reg .esp + 8) = sp := by
    rw [← hcell, ← hsp]
    exact ⟨read32_congr fun k _ => pushed_of_not_mem hesp (.inr (by omega)),
      read32_congr fun k _ => pushed_of_not_mem hesp (.inr (by omega))⟩
  have hnew : read32 (write32 (pushed c) cell (c.reg .esp - 16)) (c.reg .esp + 8) = sp := by
    rw [read32_write32_of_disjoint (by omega), hargs.2]
  have hcellWord : cell % wordModulus = cell := by
    rw [← hcell]
    exact hword _ _
  have hspWord : sp % wordModulus = sp := by
    rw [← hsp]
    exact hword _ _
  obtain ⟨hargs, -⟩ := hargs
  unfold pushed at hargs hnew ⊢
  simp only [Cpu.run, saveContext, List.foldl_cons, List.foldl_nil, Cpu.execute, Cpu.set_reg,
    Cpu.set_mem, Cpu.write_reg, Cpu.write_mem, if_true, reduceCtorEq, if_false, h4, h8, h12, h16,
    h20, h24, hmod, hcellWord, hspWord, hargs, hnew, Nat.le_refl, Nat.reduceLeDiff, and_true]

/-- `context_switch`: the caller's context is saved under its stack pointer, which is stored through
`old_sp`, and the context saved at `new_sp` is restored. Nothing else changes. -/
theorem contextSwitch_spec {next : Context} (hesp : 16 ≤ c.reg .esp)
    (hroom : c.reg .esp + 12 ≤ wordModulus)
    (hcell : read32 c.mem (c.reg .esp + 4) = cell) (hsp : read32 c.mem (c.reg .esp + 8) = sp)
    (hout : cell + 4 ≤ c.reg .esp - 16 ∨ c.reg .esp + 12 ≤ cell) (hsaved : Saved c.mem sp next)
    (hstack : sp + 20 ≤ c.reg .esp - 16 ∨ c.reg .esp ≤ sp) (htop : sp + 20 ≤ wordModulus)
    (hapart : sp + 20 ≤ cell ∨ cell + 4 ≤ sp) :
    (c.run contextSwitch).context = next ∧
      Saved (c.run contextSwitch).mem (c.reg .esp - 16) c.caller ∧
      read32 (c.run contextSwitch).mem cell = c.reg .esp - 16 ∧
      ∀ x, (x < c.reg .esp - 16 ∨ c.reg .esp ≤ x) → (x < cell ∨ cell + 4 ≤ x) →
        (c.run contextSwitch).mem x = c.mem x := by
  have hcode : contextSwitch =
      saveContext ++ [.pop .edi, .pop .esi, .pop .ebx, .pop .ebp, .ret] := rfl
  obtain ⟨hnew, hmem⟩ := run_saveContext hesp hroom hcell hsp (by omega)
  have hframe : ∀ x, (x < c.reg .esp - 16 ∨ c.reg .esp ≤ x) → (x < cell ∨ cell + 4 ≤ x) →
      (c.run saveContext).mem x = c.mem x := by
    intro x hx hx'
    rw [hmem, write32_of_not_mem (by omega)]
    exact pushed_of_not_mem hesp hx
  have hsaved' : Saved (c.run saveContext).mem ((c.run saveContext).reg .esp) next := by
    rw [hnew]
    exact hsaved.congr fun x hlo hhi => hframe x (by omega) (by omega)
  obtain ⟨hcontext, hkeep⟩ := restore_spec hsaved' (by rw [hnew]; exact htop)
  rw [hcode, run_append, hkeep]
  refine ⟨hcontext, ?_, ?_, hframe⟩
  · rw [hmem]
    exact (saved_pushed hesp).congr fun x hlo hhi => write32_of_not_mem (by omega)
  · rw [hmem]
    have hlt := c.word .esp
    exact read32_write32 _ _ (by simp only [wordModulus] at hlt; omega)

/-- `scheduler_enter_idle`: the context saved at `idle_sp` is restored, and no memory changes. -/
theorem schedulerEnterIdle_spec {next : Context} (hesp : c.reg .esp + 8 ≤ wordModulus)
    (hsp : read32 c.mem (c.reg .esp + 4) = sp) (hsaved : Saved c.mem sp next)
    (htop : sp + 20 ≤ wordModulus) :
    (c.run schedulerEnterIdle).context = next ∧ (c.run schedulerEnterIdle).mem = c.mem := by
  have hcode : schedulerEnterIdle =
      [.load .esp .esp 4] ++ [.pop .edi, .pop .esi, .pop .ebx, .pop .ebp, .ret] := rfl
  have hmem : (c.run [.load .esp .esp 4]).mem = c.mem := rfl
  have hnew : (c.run [.load .esp .esp 4]).reg .esp = sp := by
    simp only [Cpu.run, List.foldl_cons, List.foldl_nil, Cpu.execute, Cpu.set_reg, if_true]
    rw [Nat.mod_eq_of_lt (show c.reg .esp + 4 < wordModulus by omega), hsp]
    exact Nat.mod_eq_of_lt (by omega)
  have hsaved' : Saved (c.run [.load .esp .esp 4]).mem ((c.run [.load .esp .esp 4]).reg .esp)
      next := by
    rw [hnew, hmem]
    exact hsaved
  obtain ⟨hcontext, hkeep⟩ := restore_spec hsaved' (by rw [hnew]; exact htop)
  rw [hcode, run_append, hkeep]
  exact ⟨hcontext, hmem⟩

end Save

end Neox
