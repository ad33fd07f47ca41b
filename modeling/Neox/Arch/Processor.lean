import Neox.Arch.Descriptors
import Neox.Lib.Stack

/-!
# The processor and its stack

The registers, the segment registers and memory, and the instructions of the interrupt stubs. All segments
are flat, so an address is an offset in any of them. A pushed segment register is taken to be
zero-extended.

* `At.pushes`, `pushes_mem`: what a run of pushes leaves on the stack, and what it leaves alone.
* `At.pops`: popping assigns the words that are on the stack.
-/

namespace Neox.Trap

open Bytes

/-! ## The processor -/

inductive Gpr where
  | eax | ecx | edx | ebx | esp | ebp | esi | edi
  deriving DecidableEq, Repr

inductive Seg where
  | cs | ss | ds | es | fs | gs
  deriving DecidableEq, Repr

@[ext] structure Processor where
  gpr : Gpr → BitVec 32
  seg : Seg → BitVec 16
  eip : BitVec 32
  eflags : BitVec 32
  mem : Block

/-- `EFLAGS_IF`. -/
abbrev eflagsIf : BitVec 32 := 0x200
abbrev eflagsNt : BitVec 32 := 0x4000
abbrev eflagsVm : BitVec 32 := 0x20000

/-- Those that an interrupt gate clears: `TF`, `IF`, `NT` and `VM`. -/
abbrev eflagsCleared : BitVec 32 := 0x24300

namespace Processor

/-- The privilege level. -/
def cpl (c : Processor) : Nat := rpl (c.seg .cs)

def setGpr (c : Processor) (r : Gpr) (w : BitVec 32) : Processor :=
  { c with gpr := Function.update c.gpr r w }

def setSeg (c : Processor) (s : Seg) (w : BitVec 16) : Processor :=
  { c with seg := Function.update c.seg s w }

/-- Push a word. -/
def push (c : Processor) (w : BitVec 32) : Processor :=
  { c.setGpr .esp (c.gpr .esp - 4) with mem := write32 c.mem (c.gpr .esp - 4).toNat w.toNat }

def pushes (c : Processor) (ws : List (BitVec 32)) : Processor := ws.foldl push c

/-- The word `4 * i` bytes above the stack pointer. -/
def word (c : Processor) (i : Nat) : BitVec 32 :=
  BitVec.ofNat 32 (read32 c.mem (c.gpr .esp + BitVec.ofNat 32 (4 * i)).toNat)

/-- Where a popped word goes. -/
inductive Target where
  | gpr (r : Gpr)
  | seg (s : Seg)
  /-- nowhere: `esp` in `popa`, and `add esp` -/
  | skip
  deriving DecidableEq, Repr

def assign (c : Processor) : Target → BitVec 32 → Processor
  | .gpr r, w => c.setGpr r w
  | .seg s, w => c.setSeg s (w.setWidth 16)
  | .skip, _ => c

/-- Pop a word. -/
def pop (c : Processor) (target : Target) : Processor :=
  (c.setGpr .esp (c.gpr .esp + 4)).assign target (c.word 0)

def pops (c : Processor) (targets : List Target) : Processor := targets.foldl pop c

end Processor

/-! ## Instructions -/

inductive StubInstruction where
  | cli
  /-- `push dword w` -/
  | pushWord (w : BitVec 32)
  | pushGpr (r : Gpr)
  | pushSeg (s : Seg)
  | pusha
  | pushf
  /-- `mov r, w` for the low half of the register -/
  | moveHalf (r : Gpr) (w : BitVec 16)
  /-- `mov s, r` from the low half of the register -/
  | moveSeg (s : Seg) (r : Gpr)
  /-- `mov r, [esp + 4 * i]` -/
  | load (r : Gpr) (i : Nat)
  /-- `or r, w` -/
  | orWord (r : Gpr) (w : BitVec 32)
  | popGpr (r : Gpr)
  | popSeg (s : Seg)
  | popa
  /-- `add esp, 4 * n` -/
  | drop (n : Nat)
  deriving DecidableEq, Repr

namespace Processor

/-- Where `popa` puts the words. -/
def popaTargets : List Target :=
  [.gpr .edi, .gpr .esi, .gpr .ebp, .skip, .gpr .ebx, .gpr .edx, .gpr .ecx, .gpr .eax]

def execute (t : Tables) (c : Processor) : StubInstruction → Option Processor
  | .cli => some { c with eflags := c.eflags &&& ~~~eflagsIf }
  | .pushWord w => some (c.push w)
  | .pushGpr r => some (c.push (c.gpr r))
  | .pushSeg s => some (c.push ((c.seg s).setWidth 32))
  | .pusha => some (c.pushes
      [c.gpr .eax, c.gpr .ecx, c.gpr .edx, c.gpr .ebx, c.gpr .esp, c.gpr .ebp, c.gpr .esi, c.gpr .edi])
  | .pushf => some (c.push c.eflags)
  | .moveHalf r w => some (c.setGpr r ((c.gpr r).extractLsb' 16 16 ++ w))
  | .moveSeg s r =>
      if t.dataFits c.cpl ((c.gpr r).setWidth 16) then some (c.setSeg s ((c.gpr r).setWidth 16)) else none
  | .load r i => some (c.setGpr r (c.word i))
  | .orWord r w => some (c.setGpr r (c.gpr r ||| w))
  | .popGpr r => some (c.pop (.gpr r))
  | .popSeg s => if t.dataFits c.cpl ((c.word 0).setWidth 16) then some (c.pop (.seg s)) else none
  | .popa => some (c.pops popaTargets)
  | .drop n => some (c.pops (List.replicate n .skip))

def run (t : Tables) (c : Processor) (code : List StubInstruction) : Option Processor :=
  code.foldlM (execute t) c

end Processor

namespace Processor

section Fields

variable (c : Processor) (r : Gpr) (s : Seg) (w : BitVec 32) (h : BitVec 16)

@[simp] theorem setGpr_self : (c.setGpr r w).gpr r = w := Function.update_self ..
theorem setGpr_of_ne {r r' : Gpr} (hr : r' ≠ r) : (c.setGpr r w).gpr r' = c.gpr r' :=
  Function.update_of_ne hr _ _
@[simp] theorem setGpr_seg : (c.setGpr r w).seg = c.seg := rfl
@[simp] theorem setGpr_mem : (c.setGpr r w).mem = c.mem := rfl
@[simp] theorem setGpr_eflags : (c.setGpr r w).eflags = c.eflags := rfl
@[simp] theorem setSeg_self : (c.setSeg s h).seg s = h := Function.update_self ..
theorem setSeg_of_ne {s s' : Seg} (hs : s' ≠ s) : (c.setSeg s h).seg s' = c.seg s' :=
  Function.update_of_ne hs _ _
@[simp] theorem setSeg_gpr : (c.setSeg s h).gpr = c.gpr := rfl
@[simp] theorem setSeg_mem : (c.setSeg s h).mem = c.mem := rfl
@[simp] theorem setSeg_eflags : (c.setSeg s h).eflags = c.eflags := rfl

end Fields

/-! ## Words on the stack -/

/-- The words of `l` are on the stack. -/
structure At (c : Processor) (l : List (BitVec 32)) : Prop where
  stacked : Stacked c.mem (c.gpr .esp).toNat l
  room : (c.gpr .esp).toNat + 4 * l.length ≤ 2 ^ 32

section At

variable {c d : Processor} {l ws : List (BitVec 32)} {w : BitVec 32}

theorem at_nil (c : Processor) : c.At [] := ⟨trivial, Nat.le_of_lt (c.gpr .esp).isLt⟩

theorem At.congr (h : c.At l) (hesp : d.gpr .esp = c.gpr .esp)
    (hmem : ∀ x, (c.gpr .esp).toNat ≤ x → d.mem x = c.mem x) : d.At l := by
  constructor
  · rw [hesp]
    exact h.stacked.congr fun x hx _ => hmem x hx
  · rw [hesp]
    exact h.room

theorem push_esp (hroom : 4 ≤ (c.gpr .esp).toNat) :
    ((c.push w).gpr .esp).toNat = (c.gpr .esp).toNat - 4 := by
  show (c.gpr .esp - 4).toNat = _
  exact BitVec.toNat_sub_of_le (BitVec.le_def.mpr (show (4 : BitVec 32).toNat ≤ _ from hroom))

theorem At.push (h : c.At l) (hroom : 4 ≤ (c.gpr .esp).toNat) (w : BitVec 32) :
    (c.push w).At (w :: l) := by
  have hesp := push_esp (w := w) hroom
  have hlen := h.room
  constructor
  · rw [hesp]
    show Stacked (write32 c.mem (c.gpr .esp - 4).toNat w.toNat) _ _
    rw [show (c.gpr .esp - 4).toNat = _ from hesp]
    exact h.stacked.push hroom w
  · rw [hesp, List.length_cons]
    omega

/-- Pushing writes below the stack pointer only. -/
theorem push_mem (hroom : 4 ≤ (c.gpr .esp).toNat) {x : Nat}
    (hx : x < (c.gpr .esp).toNat - 4 ∨ (c.gpr .esp).toNat ≤ x) : (c.push w).mem x = c.mem x := by
  show write32 c.mem (c.gpr .esp - 4).toNat w.toNat x = _
  have hesp : (c.gpr .esp - 4).toNat = _ := push_esp (w := w) hroom
  rw [hesp]
  exact write32_of_not_mem (by omega)

theorem pushes_cons (c : Processor) (w : BitVec 32) (ws : List (BitVec 32)) :
    c.pushes (w :: ws) = (c.push w).pushes ws := rfl

theorem pushes_append (c : Processor) (ws ws' : List (BitVec 32)) :
    c.pushes (ws ++ ws') = (c.pushes ws).pushes ws' := List.foldl_append

theorem pushes_esp (hroom : 4 * ws.length ≤ (c.gpr .esp).toNat) :
    ((c.pushes ws).gpr .esp).toNat = (c.gpr .esp).toNat - 4 * ws.length := by
  induction ws generalizing c with
  | nil => rfl
  | cons w ws ih =>
      rw [List.length_cons] at hroom ⊢
      have hesp := push_esp (c := c) (w := w) (by omega)
      rw [pushes_cons, ih (by omega), hesp]
      omega

theorem At.pushes (h : c.At l) (hroom : 4 * ws.length ≤ (c.gpr .esp).toNat) :
    (c.pushes ws).At (ws.reverse ++ l) := by
  induction ws generalizing c l with
  | nil => exact h
  | cons w ws ih =>
      rw [List.length_cons] at hroom
      have hesp := push_esp (c := c) (w := w) (by omega)
      rw [pushes_cons, List.reverse_cons, List.append_assoc]
      exact ih (h.push (by omega) w) (by omega)

theorem pushes_mem (hroom : 4 * ws.length ≤ (c.gpr .esp).toNat) {x : Nat}
    (hx : x < (c.gpr .esp).toNat - 4 * ws.length ∨ (c.gpr .esp).toNat ≤ x) :
    (c.pushes ws).mem x = c.mem x := by
  induction ws generalizing c with
  | nil => rfl
  | cons w ws ih =>
      rw [List.length_cons] at hroom hx
      have hesp := push_esp (c := c) (w := w) (by omega)
      rw [pushes_cons, ih (by omega) (by omega)]
      exact push_mem (by omega) (by omega)

@[simp] theorem pushes_seg (c : Processor) (ws : List (BitVec 32)) : (c.pushes ws).seg = c.seg := by
  induction ws generalizing c with
  | nil => rfl
  | cons w ws ih => exact ih (c.push w)

@[simp] theorem pushes_eflags (c : Processor) (ws : List (BitVec 32)) :
    (c.pushes ws).eflags = c.eflags := by
  induction ws generalizing c with
  | nil => rfl
  | cons w ws ih => exact ih (c.push w)

theorem pushes_gpr (c : Processor) (ws : List (BitVec 32)) {r : Gpr} (hr : r ≠ .esp) :
    (c.pushes ws).gpr r = c.gpr r := by
  induction ws generalizing c with
  | nil => rfl
  | cons w ws ih => exact (ih (c.push w)).trans (Function.update_of_ne hr _ _)

/-- The words are read back. -/
theorem At.words {i : Nat} (h : c.At l) (hi : l[i]? = some w) : c.word i = w := by
  have hlt : i < l.length := (List.getElem?_eq_some_iff.mp hi).1
  have hroom := h.room
  have hesp : (c.gpr .esp + BitVec.ofNat 32 (4 * i)).toNat = (c.gpr .esp).toNat + 4 * i := by
    rw [BitVec.toNat_add, BitVec.toNat_ofNat, Nat.add_mod_mod]
    apply Nat.mod_eq_of_lt
    omega
  unfold Processor.word
  rw [hesp, h.stacked.at hi, BitVec.ofNat_toNat, BitVec.setWidth_eq]

theorem At.word (h : c.At (w :: l)) : c.word 0 = w := h.words rfl

/-- What is on top is some word. -/
theorem at_word (h : Stacked c.mem ((c.gpr .esp).toNat + 4) l)
    (hroom : (c.gpr .esp).toNat + 4 * (l.length + 1) ≤ 2 ^ 32) : c.At (c.word 0 :: l) := by
  refine ⟨⟨?_, h⟩, hroom⟩
  have hesp : c.gpr .esp + BitVec.ofNat 32 (4 * 0) = c.gpr .esp := BitVec.add_zero _
  unfold Processor.word
  rw [hesp, BitVec.toNat_ofNat]
  exact (Nat.mod_eq_of_lt (read32_lt _ _)).symm

theorem At.tail (h : c.At (w :: l)) : (c.setGpr .esp (c.gpr .esp + 4)).At l := by
  have hroom := h.room
  rw [List.length_cons] at hroom
  have hesp : (c.setGpr .esp (c.gpr .esp + 4)).gpr .esp = c.gpr .esp + 4 := setGpr_self ..
  by_cases hlast : (c.gpr .esp).toNat + 4 = 2 ^ 32
  · -- the last word of the address space: the stack pointer wraps and nothing is left
    have hnil : l = [] := List.length_eq_zero_iff.mp (by omega)
    rw [hnil]
    exact at_nil _
  · have hnat : (c.gpr .esp + 4).toNat = (c.gpr .esp).toNat + 4 := by
      rw [BitVec.toNat_add]
      exact Nat.mod_eq_of_lt (by show (c.gpr .esp).toNat + 4 < 2 ^ 32; omega)
    constructor
    · rw [hesp, hnat]
      exact h.stacked.2
    · rw [hesp, hnat]
      omega

end At

/-! ### Pops -/

/-- Some fields assigned. -/
def assigns (c : Processor) (ws : List (Target × BitVec 32)) : Processor :=
  ws.foldl (fun c a => c.assign a.1 a.2) c

section Pops

variable {c : Processor} {w : BitVec 32} {l ws : List (BitVec 32)} {target : Target}
  {targets : List Target}

theorem assign_mem (c : Processor) (target : Target) (w : BitVec 32) :
    (c.assign target w).mem = c.mem := by
  cases target <;> rfl

/-- Assigning another register and moving the stack pointer can be done in either order. -/
theorem assign_setGpr (c : Processor) (htarget : target ≠ .gpr .esp) (w sp : BitVec 32) :
    (c.setGpr .esp sp).assign target w = (c.assign target w).setGpr .esp sp := by
  cases target with
  | gpr r =>
      have hr : Gpr.esp ≠ r := fun h => htarget (h ▸ rfl)
      show { c with gpr := Function.update (Function.update c.gpr .esp sp) r w } =
        { c with gpr := Function.update (Function.update c.gpr r w) .esp sp }
      rw [Function.update_comm hr]
  | seg s => rfl
  | skip => rfl

theorem assigns_setGpr (c : Processor) {zs : List (Target × BitVec 32)}
    (hzs : ∀ z ∈ zs, z.1 ≠ .gpr .esp) (sp : BitVec 32) :
    (c.setGpr .esp sp).assigns zs = (c.assigns zs).setGpr .esp sp := by
  induction zs generalizing c with
  | nil => rfl
  | cons z zs ih =>
      show ((c.setGpr .esp sp).assign z.1 z.2).assigns zs = ((c.assign z.1 z.2).assigns zs).setGpr .esp sp
      rw [assign_setGpr c (hzs z List.mem_cons_self)]
      exact ih _ fun z hz => hzs z (List.mem_cons_of_mem _ hz)

theorem setGpr_setGpr (c : Processor) (r : Gpr) (w w' : BitVec 32) :
    (c.setGpr r w).setGpr r w' = c.setGpr r w' := by
  unfold setGpr
  rw [Function.update_idem]

theorem pops_append (c : Processor) (ts ts' : List Target) :
    c.pops (ts ++ ts') = (c.pops ts).pops ts' := List.foldl_append

theorem pops_cons (c : Processor) (target : Target) (ts : List Target) :
    c.pops (target :: ts) = (c.pop target).pops ts := rfl

theorem At.pop (h : c.At (w :: l)) (htarget : target ≠ .gpr .esp) :
    c.pop target = (c.assign target w).setGpr .esp (c.gpr .esp + 4) ∧ (c.pop target).At l := by
  have hpop : c.pop target = (c.assign target w).setGpr .esp (c.gpr .esp + 4) := by
    unfold Processor.pop
    rw [h.word, assign_setGpr c htarget]
  refine ⟨hpop, ?_⟩
  rw [hpop]
  apply h.tail.congr
  · rw [setGpr_self, setGpr_self]
  · intro x _
    show (c.assign target w).mem x = c.mem x
    rw [assign_mem]

/-- Popping assigns the words that are on the stack. -/
theorem At.pops (targets : List Target) (ws : List (BitVec 32)) (h : c.At (ws ++ l))
    (hlen : targets.length = ws.length) (htargets : ∀ a ∈ targets, a ≠ .gpr .esp) :
    c.pops targets =
        (c.assigns (targets.zip ws)).setGpr .esp (c.gpr .esp + BitVec.ofNat 32 (4 * ws.length)) ∧
      (c.pops targets).At l := by
  induction targets generalizing c ws with
  | nil =>
      have hws : ws = [] := List.length_eq_zero_iff.mp hlen.symm
      subst hws
      refine ⟨?_, h⟩
      show c = { c with gpr := Function.update c.gpr .esp (c.gpr .esp + 0#32) }
      rw [BitVec.add_zero, Function.update_eq_self]
  | cons target targets ih =>
      obtain ⟨w, ws, rfl⟩ : ∃ w ws', ws = w :: ws' := by
        cases ws with
        | nil => cases hlen
        | cons w ws' => exact ⟨w, ws', rfl⟩
      have hrest : ∀ a ∈ targets, a ≠ .gpr .esp := fun a ha => htargets a (List.mem_cons_of_mem _ ha)
      obtain ⟨hpop, hat⟩ := At.pop h (htargets target List.mem_cons_self)
      obtain ⟨hpops, hrestAt⟩ := ih ws hat (Nat.succ.inj hlen) hrest
      refine ⟨?_, hrestAt⟩
      have hzip : ∀ z ∈ targets.zip ws, z.1 ≠ .gpr .esp := fun z hz =>
        hrest z.1 (List.of_mem_zip hz).1
      have hsum : c.gpr .esp + 4 + BitVec.ofNat 32 (4 * ws.length) =
          c.gpr .esp + BitVec.ofNat 32 (4 * (w :: ws).length) := by
        rw [BitVec.add_assoc, List.length_cons, Nat.mul_add, Nat.add_comm, BitVec.ofNat_add]
        rfl
      show (c.pop target).pops targets = _
      rw [hpops, hpop, setGpr_self, assigns_setGpr _ hzip, setGpr_setGpr, hsum]
      rfl

end Pops

/-! ### Code -/

theorem run_append (t : Tables) (c : Processor) (code rest : List StubInstruction) :
    c.run t (code ++ rest) = (c.run t code).bind fun d => d.run t rest := List.foldlM_append

theorem run_cons (t : Tables) (c : Processor) (i : StubInstruction) (code : List StubInstruction) :
    c.run t (i :: code) = (c.execute t i).bind fun d => d.run t code := List.foldlM_cons

end Processor

end Neox.Trap
