import Neox.Arch.Processor

/-!
# Interrupts, exceptions and system calls

The way into the kernel and back: what the processor does when it takes an interrupt, the stubs of
`isr_stubs.asm`, `irq_stubs.asm` and `syscall_stub.asm`, and `iret`. The C handler in between is whatever
keeps to the calling convention. The resume flag is left out.

* `enter_spec`: where an interrupt leads, and the `struct registers` the handler finds.
* `leave_spec`: what `iret` goes back to, for any contents of that structure.
-/

namespace Neox.Trap

open Bytes Processor StubInstruction

/-! ## Taking an interrupt -/

/-- The stack that the kernel side of an interrupt runs on: a new one with the old stack pointer on it if
the privilege rises to `level`. -/
def Processor.switchStack (t : Tables) (level : Nat) (c : Processor) : Option Processor :=
  if level < c.cpl then
    if t.stackFits level (t.tss.ss0.setWidth 16) then
      some (((c.setSeg .ss (t.tss.ss0.setWidth 16)).setGpr .esp t.tss.esp0).pushes
        [(c.seg .ss).setWidth 32, c.gpr .esp])
    else none
  else some c

/-- The processor takes the interrupt `v`, with an error code if it has one; `software` is an `int`
instruction. None is a fault. -/
def Processor.deliver (t : Tables) (c : Processor) (v : Nat) (error : Option (BitVec 32))
    (software : Bool) : Option Processor := do
  let gate := t.idt v
  guard (gate.present && gate.interruptGate && (!software || decide (c.cpl ≤ gate.dpl)))
  let code ← t.descriptor gate.selector
  guard (code.present && code.segment && code.code && decide (code.dpl ≤ c.cpl))
  let level := if code.conforming then c.cpl else code.dpl
  let d ← c.switchStack t level
  let d := d.pushes ([c.eflags, (c.seg .cs).setWidth 32, c.eip] ++ error.toList)
  some { d.setSeg .cs (BitVec.ofNat 16 (gate.selector.toNat / 4 * 4 + level)) with
    eip := gate.offset
    eflags := c.eflags &&& ~~~eflagsCleared }

/-- `iret` in Ring 0. A data segment that the new level may not use is cleared. -/
def Processor.iret (t : Tables) (c : Processor) : Option Processor := do
  let cs := (c.word 1).setWidth 16
  guard (c.cpl = 0 ∧ c.eflags &&& eflagsNt = 0 ∧ c.word 2 &&& eflagsVm = 0 ∧ t.codeFits (rpl cs) cs)
  if rpl cs = 0 then
    some { c.setGpr .esp (c.gpr .esp + 12) with
      seg := Function.update c.seg .cs cs
      eip := c.word 0
      eflags := c.word 2 }
  else do
    let ss := (c.word 4).setWidth 16
    guard (t.stackFits (rpl cs) ss)
    some { c.setGpr .esp (c.word 3) with
      seg := fun
        | .cs => cs
        | .ss => ss
        | s => if t.dataFits (rpl cs) (c.seg s) then c.seg s else 0
      eip := c.word 0
      eflags := c.word 2 }

/-! ## The stubs -/

/-- The exceptions of the `ISR_ERR` lines. -/
def isrErrs : List Nat := [8, 10, 11, 12, 13, 14, 17]

/-- `ISR_ERR`. -/
def isrErr (v : Nat) : List StubInstruction := [cli, pushWord (BitVec.ofNat 32 v)]

/-- `ISR_NOERR`. -/
def isrNoErr (v : Nat) : List StubInstruction := [cli, pushWord 0, pushWord (BitVec.ofNat 32 v)]

/-- `IRQ`. -/
def irqStub (v : Nat) : List StubInstruction := [cli, pushWord 0, pushWord (BitVec.ofNat 32 v)]

/-- The first lines of `syscall_stub`. -/
def syscallStub : List StubInstruction := [cli, pushWord 0, pushWord 0x80]

/-- `common_isr_stub` up to the call; `common_irq_stub` and `syscall_stub` go on in the same way. -/
def commonStub : List StubInstruction :=
  [pusha, pushSeg .ds, pushSeg .es, pushSeg .fs, pushSeg .gs,
    moveHalf .eax 0x10, moveSeg .ds .eax, moveSeg .es .eax, moveSeg .fs .eax, moveSeg .gs .eax,
    pushGpr .esp]

/-- After the call, up to `iret`. -/
def commonReturn : List StubInstruction :=
  [drop 1, popSeg .gs, popSeg .fs, popSeg .es, popSeg .ds, popa, drop 2]

/-- The code at `Stubs.entry`, up to the call of the handler. -/
def stubCode (v : Nat) : List StubInstruction :=
  (if v ∈ isrErrs then isrErr v else if v < 32 then isrNoErr v else if v < 48 then irqStub v
    else syscallStub) ++ commonStub

/-- `struct registers`. -/
structure Registers where
  gs : BitVec 32
  fs : BitVec 32
  es : BitVec 32
  ds : BitVec 32
  edi : BitVec 32
  esi : BitVec 32
  ebp : BitVec 32
  esp : BitVec 32
  ebx : BitVec 32
  edx : BitVec 32
  ecx : BitVec 32
  eax : BitVec 32
  intNo : BitVec 32
  errCode : BitVec 32
  eip : BitVec 32
  cs : BitVec 32
  eflags : BitVec 32
  deriving DecidableEq, Repr

namespace Registers

/-- What the instructions after the call take from the stack. -/
def popped (r : Registers) : List (BitVec 32) :=
  [r.gs, r.fs, r.es, r.ds, r.edi, r.esi, r.ebp, r.esp, r.ebx, r.edx, r.ecx, r.eax, r.intNo, r.errCode]

def words (r : Registers) : List (BitVec 32) := r.popped ++ [r.eip, r.cs, r.eflags]

end Registers

/-- `struct registers` with the stack pointer and segment above it that the processor saves when it comes
from another level. -/
structure TrapFrame where
  regs : Registers
  outer : Option (BitVec 32 × BitVec 32)
  deriving DecidableEq, Repr

/-- `syscall_user_esp_slot` and `syscall_user_ss_slot` are words 17 and 18. -/
def TrapFrame.words (f : TrapFrame) : List (BitVec 32) :=
  f.regs.words ++ f.outer.elim [] fun o => [o.1, o.2]

/-- What makes the processor leave what it is doing. -/
inductive Event where
  | exception (v : Nat) (error : Option (BitVec 32))
  /-- a line of the interrupt controllers -/
  | line (n : Nat)
  /-- `int v` -/
  | software (v : Nat)
  deriving DecidableEq, Repr

namespace Event

def vector : Event → Nat
  | .exception v _ => v
  | .line n => 32 + n
  | .software v => v

def error : Event → Option (BitVec 32)
  | .exception _ error => error
  | _ => none

def isSoftware : Event → Bool
  | .software _ => true
  | _ => false

end Event

namespace Processor

/-- From the event to the call of the handler. -/
def enter (stubs : Stubs) (t : Tables) (c : Processor) (e : Event) : Option Processor := do
  let d ← c.deliver t e.vector e.error e.isSoftware
  guard (d.eip = stubs.entry e.vector)
  d.run t (stubCode e.vector)

/-- From the handler's return to what comes next. -/
def leave (t : Tables) (c : Processor) : Option Processor := do
  let d ← c.run t commonReturn
  d.iret t

end Processor

/-! ## Back -/

namespace Processor

section Return

variable {t : Tables} {c : Processor} {l : List (BitVec 32)}

/-- The data segments are popped if they can be loaded. -/
theorem run_popSegs (segs : List Seg) (ws : List (BitVec 32)) (h : c.At (ws ++ l))
    (hlen : segs.length = ws.length) (hcs : Seg.cs ∉ segs)
    (hfits : ∀ w ∈ ws, t.dataFits c.cpl (w.setWidth 16)) :
    c.run t (segs.map popSeg) = some (c.pops (segs.map .seg)) := by
  induction segs generalizing c ws with
  | nil => rfl
  | cons s segs ih =>
      obtain ⟨w, ws, rfl⟩ : ∃ w ws', ws = w :: ws' := by
        cases ws with
        | nil => cases hlen
        | cons w ws' => exact ⟨w, ws', rfl⟩
      have hword : c.word 0 = w := At.word h
      obtain ⟨hpop, hat⟩ := At.pop h (show Target.seg s ≠ .gpr .esp from nofun)
      have hcpl : (c.pop (.seg s)).cpl = c.cpl := by
        rw [hpop]
        show rpl (Function.update c.seg s _ .cs) = _
        have hs : Seg.cs ≠ s := fun hs => hcs (by rw [hs]; exact List.mem_cons_self)
        rw [Function.update_of_ne hs]
        rfl
      have hexec : c.execute t (popSeg s) = some (c.pop (.seg s)) := by
        show (if t.dataFits c.cpl ((c.word 0).setWidth 16) then _ else _) = _
        rw [hword, if_pos (hfits w List.mem_cons_self)]
      rw [List.map_cons, run_cons, hexec]
      exact ih ws hat (Nat.succ.inj hlen) (fun hs => hcs (List.mem_cons_of_mem _ hs))
        fun w hw => hcpl ▸ hfits w (List.mem_cons_of_mem _ hw)

/-- Everything that is popped before `iret`. -/
def returnTargets : List Target :=
  [.skip, .seg .gs, .seg .fs, .seg .es, .seg .ds] ++ popaTargets ++ [.skip, .skip]

theorem run_commonReturn {arg : BitVec 32} {r : Registers} (h : c.At (arg :: (r.popped ++ l)))
    (hfits : ∀ w ∈ [r.gs, r.fs, r.es, r.ds], t.dataFits c.cpl (w.setWidth 16)) :
    c.run t commonReturn = some (c.pops returnTargets) := by
  have hcode : commonReturn = drop 1 :: ([Seg.gs, .fs, .es, .ds].map popSeg ++ [popa, drop 2]) := rfl
  obtain ⟨hpop, hat⟩ := At.pop h (show Target.skip ≠ .gpr .esp from nofun)
  have hcpl : (c.pop .skip).cpl = c.cpl := by
    rw [hpop]
    rfl
  have hsegs := run_popSegs (t := t) [.gs, .fs, .es, .ds] [r.gs, r.fs, r.es, r.ds] hat rfl
    (by decide) (hcpl ▸ hfits)
  rw [hcode, run_cons]
  show (some (c.pop .skip)).bind _ = _
  rw [Option.bind_some, run_append, hsegs, Option.bind_some]
  have htargets : returnTargets =
      Target.skip :: ([Seg.gs, .fs, .es, .ds].map Target.seg ++ popaTargets ++ [.skip, .skip]) := rfl
  rw [htargets, pops_cons, pops_append, pops_append]
  generalize (c.pop .skip).pops _ = d
  rfl

end Return

end Processor

namespace TrapFrame

/-- The data segments. -/
def data (f : TrapFrame) : List (BitVec 16) :=
  [f.regs.ds, f.regs.es, f.regs.fs, f.regs.gs].map (BitVec.setWidth 16)

/-- The level it goes back to. -/
def level (f : TrapFrame) : Nat := rpl (f.regs.cs.setWidth 16)

/-- Nothing that `iret` and the pops before it check is wrong. -/
structure Fits (t : Tables) (f : TrapFrame) : Prop where
  code : t.codeFits f.level (f.regs.cs.setWidth 16)
  flags : f.regs.eflags &&& eflagsVm = 0
  data : ∀ s ∈ f.data, t.dataFits 0 s ∧ t.dataFits f.level s
  inner : f.level = 0 → f.outer = none
  outer : f.level ≠ 0 → ∃ o, f.outer = some o ∧ t.stackFits f.level (o.2.setWidth 16)

/-- The processor goes on with a frame that lies above `esp`. -/
def resume (f : TrapFrame) (c : Processor) : Processor where
  gpr
    | .eax => f.regs.eax
    | .ecx => f.regs.ecx
    | .edx => f.regs.edx
    | .ebx => f.regs.ebx
    | .esp => f.outer.elim (c.gpr .esp + 4 * 18) Prod.fst
    | .ebp => f.regs.ebp
    | .esi => f.regs.esi
    | .edi => f.regs.edi
  seg
    | .cs => f.regs.cs.setWidth 16
    | .ss => f.outer.elim (c.seg .ss) fun o => o.2.setWidth 16
    | .ds => f.regs.ds.setWidth 16
    | .es => f.regs.es.setWidth 16
    | .fs => f.regs.fs.setWidth 16
    | .gs => f.regs.gs.setWidth 16
  eip := f.regs.eip
  eflags := f.regs.eflags
  mem := c.mem

end TrapFrame

namespace Processor

section Leave

variable {t : Tables} {c : Processor} {arg : BitVec 32} {f : TrapFrame}

/-- Before `iret`. -/
def returned (f : TrapFrame) (c : Processor) (arg : BitVec 32) : Processor :=
  (c.assigns (returnTargets.zip (arg :: f.regs.popped))).setGpr .esp (c.gpr .esp + 60)

theorem returned_gpr (r : Gpr) (hr : r ≠ .esp) : (c.returned f arg).gpr r = (f.resume c).gpr r := by
  cases r <;> first | rfl | exact absurd rfl hr

theorem guard_pos {p : Prop} [Decidable p] (h : p) : (guard p : Option Unit) = some () := if_pos h

section Iret

variable {eip cs eflags sp ss : BitVec 32}

/-- `iret` within the kernel. -/
theorem iret_inner (hat : c.At [eip, cs, eflags]) (hcpl : c.cpl = 0) (hnt : c.eflags &&& eflagsNt = 0)
    (hvm : eflags &&& eflagsVm = 0) (hlevel : rpl (cs.setWidth 16) = 0)
    (hcode : t.codeFits (rpl (cs.setWidth 16)) (cs.setWidth 16)) :
    c.iret t = some { (c.setGpr .esp (c.gpr .esp + 12)).setSeg .cs (cs.setWidth 16) with
      eip := eip, eflags := eflags } := by
  have h0 : c.word 0 = eip := hat.words rfl
  have h1 : c.word 1 = cs := hat.words rfl
  have h2 : c.word 2 = eflags := hat.words rfl
  unfold iret
  dsimp only
  rw [h0, h1, h2]
  rw [guard_pos ⟨hcpl, hnt, hvm, hcode⟩]
  exact if_pos hlevel

/-- `iret` to an outer level. -/
theorem iret_outer (hat : c.At [eip, cs, eflags, sp, ss]) (hcpl : c.cpl = 0)
    (hnt : c.eflags &&& eflagsNt = 0) (hvm : eflags &&& eflagsVm = 0) (hlevel : rpl (cs.setWidth 16) ≠ 0)
    (hcode : t.codeFits (rpl (cs.setWidth 16)) (cs.setWidth 16))
    (hstack : t.stackFits (rpl (cs.setWidth 16)) (ss.setWidth 16))
    (hdata : ∀ s ∈ [Seg.ds, .es, .fs, .gs], t.dataFits (rpl (cs.setWidth 16)) (c.seg s)) :
    c.iret t = some { ((c.setGpr .esp sp).setSeg .cs (cs.setWidth 16)).setSeg .ss (ss.setWidth 16) with
      eip := eip, eflags := eflags } := by
  have h0 : c.word 0 = eip := hat.words rfl
  have h1 : c.word 1 = cs := hat.words rfl
  have h2 : c.word 2 = eflags := hat.words rfl
  have h3 : c.word 3 = sp := hat.words rfl
  have h4 : c.word 4 = ss := hat.words rfl
  unfold iret
  dsimp only
  rw [h0, h1, h2, h3, h4]
  rw [guard_pos ⟨hcpl, hnt, hvm, hcode⟩]
  show (if rpl (cs.setWidth 16) = 0 then _ else _) = _
  rw [if_neg hlevel, guard_pos hstack]
  apply congrArg some
  apply Processor.ext
  case seg =>
    funext s
    cases s with
    | cs => rfl
    | ss => rfl
    | ds => exact if_pos (hdata .ds (by decide))
    | es => exact if_pos (hdata .es (by decide))
    | fs => exact if_pos (hdata .fs (by decide))
    | gs => exact if_pos (hdata .gs (by decide))
  all_goals rfl

end Iret

/-- `iret` back into the kernel. -/
theorem iret_returned_inner (hat : (c.returned f arg).At [f.regs.eip, f.regs.cs, f.regs.eflags])
    (hcpl : c.cpl = 0) (hnt : c.eflags &&& eflagsNt = 0) (hfits : f.Fits t) (hlevel : f.level = 0) :
    (c.returned f arg).iret t = some (f.resume c) := by
  rw [iret_inner hat hcpl hnt hfits.flags hlevel hfits.code]
  apply congrArg some
  apply Processor.ext
  case gpr =>
    funext r
    show Function.update (c.returned f arg).gpr .esp (c.gpr .esp + 60 + 12) r = (f.resume c).gpr r
    by_cases hr : r = .esp
    · rw [hr, Function.update_self, BitVec.add_assoc]
      show _ = f.outer.elim (c.gpr .esp + 4 * 18) Prod.fst
      rw [hfits.inner hlevel]
      rfl
    · rw [Function.update_of_ne hr, returned_gpr r hr]
  case seg =>
    funext s
    cases s with
    | ss =>
        show c.seg .ss = f.outer.elim (c.seg .ss) _
        rw [hfits.inner hlevel]
        rfl
    | _ => rfl
  all_goals rfl

/-- `iret` back to the level that was interrupted. -/
theorem iret_returned_outer {o : BitVec 32 × BitVec 32}
    (hat : (c.returned f arg).At [f.regs.eip, f.regs.cs, f.regs.eflags, o.1, o.2]) (hcpl : c.cpl = 0)
    (hnt : c.eflags &&& eflagsNt = 0) (hfits : f.Fits t) (hlevel : f.level ≠ 0) (houter : f.outer = some o) :
    (c.returned f arg).iret t = some (f.resume c) := by
  have hstack : t.stackFits f.level (o.2.setWidth 16) := by
    obtain ⟨o', ho', hfit⟩ := hfits.outer hlevel
    rw [houter] at ho'
    cases ho'
    exact hfit
  have hdata : ∀ s ∈ [Seg.ds, .es, .fs, .gs], t.dataFits f.level ((c.returned f arg).seg s) := by
    intro s hs
    apply (hfits.data _ _).2
    simp only [List.mem_cons, List.not_mem_nil, or_false] at hs
    obtain rfl | rfl | rfl | rfl := hs <;> simp only [TrapFrame.data, List.map_cons, List.mem_cons]
    · exact .inl rfl
    · exact .inr (.inl rfl)
    · exact .inr (.inr (.inl rfl))
    · exact .inr (.inr (.inr (.inl rfl)))
  rw [iret_outer hat hcpl hnt hfits.flags hlevel hfits.code hstack hdata]
  apply congrArg some
  apply Processor.ext
  case gpr =>
    funext r
    show Function.update (c.returned f arg).gpr .esp o.1 r = (f.resume c).gpr r
    by_cases hr : r = .esp
    · rw [hr, Function.update_self]
      show _ = f.outer.elim (c.gpr .esp + 4 * 18) Prod.fst
      rw [houter]
      rfl
    · rw [Function.update_of_ne hr, returned_gpr r hr]
  case seg =>
    funext s
    cases s with
    | ss =>
        show _ = f.outer.elim (c.seg .ss) _
        rw [houter]
        rfl
    | _ => rfl
  all_goals rfl

/-- The pops and `iret` go back to what the frame says. -/
theorem leave_spec (h : c.At (arg :: f.words)) (hcpl : c.cpl = 0) (hnt : c.eflags &&& eflagsNt = 0)
    (hfits : f.Fits t) : c.leave t = some (f.resume c) := by
  have hwords : f.words = f.regs.popped ++ (f.regs.eip :: f.regs.cs :: f.regs.eflags ::
      f.outer.elim [] fun o => [o.1, o.2]) := by
    unfold TrapFrame.words Registers.words
    rw [List.append_assoc]
    rfl
  rw [hwords] at h
  have hrun : c.run t commonReturn = some (c.pops returnTargets) := by
    apply run_commonReturn h
    intro w hw
    rw [hcpl]
    apply (hfits.data (w.setWidth 16) ?_).1
    simp only [TrapFrame.data, List.map_cons, List.map_nil, List.mem_cons] at hw ⊢
    grind
  obtain ⟨hpops, hat⟩ := At.pops returnTargets (arg :: f.regs.popped) h rfl (by decide)
  have hreturned : c.pops returnTargets = c.returned f arg := hpops
  rw [hreturned] at hrun hat
  unfold leave
  rw [hrun]
  show (c.returned f arg).iret t = _
  by_cases hlevel : f.level = 0
  · rw [hfits.inner hlevel] at hat
    exact iret_returned_inner hat hcpl hnt hfits hlevel
  · obtain ⟨o, houter, -⟩ := hfits.outer hlevel
    rw [houter] at hat
    exact iret_returned_outer hat hcpl hnt hfits hlevel houter

end Leave

end Processor

/-! ## Delivery with the kernel's own tables -/

namespace Processor

/-- Where the frame of an interrupt begins: on the stack in use in Ring 0, on the one of the TSS
elsewhere. -/
def stackTop (c : Processor) (esp0 : BitVec 32) : BitVec 32 := if c.cpl = 0 then c.gpr .esp else esp0

/-- What the processor saves before the code address. -/
def outside (c : Processor) : Option (BitVec 32 × BitVec 32) :=
  if c.cpl = 0 then none else some (c.gpr .esp, (c.seg .ss).setWidth 32)

/-- The words that the processor pushes, in that order. -/
def savedWords (c : Processor) (error : Option (BitVec 32)) : List (BitVec 32) :=
  (c.outside.elim [] fun o => [o.2, o.1]) ++ [c.eflags, (c.seg .cs).setWidth 32, c.eip] ++ error.toList

/-- The processor at the entry of a stub. -/
def delivered (c : Processor) (entry esp0 : BitVec 32) (error : Option (BitVec 32)) : Processor :=
  { (((c.setSeg .ss (if c.cpl = 0 then c.seg .ss else 0x10)).setGpr .esp (c.stackTop esp0)).pushes
      (c.savedWords error)).setSeg .cs 0x08 with
    eip := entry
    eflags := c.eflags &&& ~~~eflagsCleared }

theorem cpl_lt (c : Processor) : c.cpl < 4 := Nat.mod_lt _ (by decide)

theorem guard_neg {p : Prop} [Decidable p] (h : ¬p) : (guard p : Option Unit) = none := if_neg h

section Deliver

variable (stubs : Stubs) (esp0 : BitVec 32) (c : Processor)

theorem switchStack_spec : c.switchStack (kernelTables stubs esp0) 0 =
    some (((c.setSeg .ss (if c.cpl = 0 then c.seg .ss else 0x10)).setGpr .esp (c.stackTop esp0)).pushes
      (c.outside.elim [] fun o => [o.2, o.1])) := by
  unfold switchStack stackTop outside
  by_cases hcpl : c.cpl = 0
  · rw [if_neg (by omega), if_pos hcpl, if_pos hcpl, if_pos hcpl]
    show some c = some { c with gpr := Function.update c.gpr .esp (c.gpr .esp)
                                seg := Function.update c.seg .ss (c.seg .ss) }
    rw [Function.update_eq_self, Function.update_eq_self]
  · have hss : (kernelTables stubs esp0).tss.ss0.setWidth 16 = 0x10 := rfl
    rw [if_pos (Nat.pos_of_ne_zero hcpl), if_neg hcpl, if_neg hcpl, if_neg hcpl, hss,
      if_pos (kernelTables_stackFits stubs esp0)]
    rfl

/-- An event whose vector has an interrupt gate. -/
theorem deliver_through {v : Nat} {entry : BitVec 32} {flags : BitVec 8}
    (hgate : (kernelTables stubs esp0).idt v = interruptGateOf entry flags)
    (hflags : flags.getLsbD 7 && flags.extractLsb' 0 5 == 0x0E)
    (error : Option (BitVec 32)) (software : Bool) :
    c.deliver (kernelTables stubs esp0) v error software =
      if software → c.cpl ≤ (interruptGateOf entry flags).dpl then some (c.delivered entry esp0 error)
      else none := by
  have hpresent : (interruptGateOf entry flags).present && (interruptGateOf entry flags).interruptGate := hflags
  unfold deliver
  rw [hgate]
  dsimp only
  rw [offset_interruptGateOf]
  by_cases hlevel : software → c.cpl ≤ (interruptGateOf entry flags).dpl
  · have hguard : (interruptGateOf entry flags).present && (interruptGateOf entry flags).interruptGate &&
        (!software || decide (c.cpl ≤ (interruptGateOf entry flags).dpl)) := by
      rw [hpresent, Bool.true_and]
      cases software with
      | true => exact decide_eq_true (hlevel rfl)
      | false => rfl
    have hcode : (kernelTables stubs esp0).descriptor (interruptGateOf entry flags).selector = _ :=
      kernelTables_code stubs esp0
    rw [if_pos hlevel, guard_pos hguard, hcode]
    show (guard ((true && decide (0 ≤ c.cpl)) = true) : Option Unit).bind _ = _
    rw [guard_pos (by simp)]
    show (c.switchStack (kernelTables stubs esp0) 0).bind _ = _
    have hcs : BitVec.ofNat 16 ((interruptGateOf entry flags).selector.toNat / 4 * 4 + 0) = 0x08 := by
      show BitVec.ofNat 16 ((0x08 : BitVec 16).toNat / 4 * 4 + 0) = 0x08
      decide
    rw [switchStack_spec]
    unfold delivered savedWords
    rw [List.append_assoc, pushes_append, ← hcs]
    rfl
  · have hguard : ¬((interruptGateOf entry flags).present && (interruptGateOf entry flags).interruptGate &&
        (!software || decide (c.cpl ≤ (interruptGateOf entry flags).dpl))) := by
      rw [hpresent, Bool.true_and]
      cases software with
      | true => exact fun h => hlevel fun _ => of_decide_eq_true h
      | false => exact absurd (fun hfalse => absurd hfalse Bool.false_ne_true) hlevel
    rw [if_neg hlevel, guard_neg hguard]
    rfl

/-- An event is taken exactly if its vector has a gate and, where a program asks for it, the gate is open
to the program's level. Where it leads is settled by the vector alone. -/
theorem deliver_spec (v : Nat) (error : Option (BitVec 32)) (software : Bool) :
    c.deliver (kernelTables stubs esp0) v error software =
      if v < 48 ∧ (software → c.cpl = 0) ∨ v = 0x80 then some (c.delivered (stubs.entry v) esp0 error)
      else none := by
  have hgate := kernelTables_gate stubs esp0 v
  by_cases hv : v < 48
  · rw [if_pos hv] at hgate
    rw [deliver_through stubs esp0 c hgate (by decide)]
    have hdpl : (interruptGateOf (stubs.entry v) idtFlagInterruptGate).dpl = 0 := by
      show (idtFlagInterruptGate.extractLsb' 5 2).toNat = 0
      decide
    rw [hdpl]
    grind
  · rw [if_neg hv] at hgate
    by_cases hsyscall : v = 0x80
    · rw [if_pos hsyscall] at hgate
      rw [deliver_through stubs esp0 c hgate (by decide)]
      have hdpl : (interruptGateOf (stubs.entry v) 0xEE).dpl = 3 := by
        show ((0xEE : BitVec 8).extractLsb' 5 2).toNat = 3
        decide
      have hcpl := c.cpl_lt
      rw [hdpl, if_pos fun _ => Nat.le_of_lt_succ hcpl, if_pos (.inr hsyscall)]
    · rw [if_neg hsyscall] at hgate
      rw [if_neg (by grind)]
      unfold deliver
      rw [hgate]
      dsimp only
      rw [guard_neg (by exact Bool.false_ne_true)]
      rfl

end Deliver

end Processor

/-! ## The way in -/

namespace Processor

/-- The registers that the common part of the stubs saves, in the order of the pushes. -/
def generals (c : Processor) : List (BitVec 32) :=
  [c.gpr .eax, c.gpr .ecx, c.gpr .edx, c.gpr .ebx, c.gpr .esp, c.gpr .ebp, c.gpr .esi, c.gpr .edi] ++
    [Seg.ds, .es, .fs, .gs].map fun s => (c.seg s).setWidth 32

/-- The kernel's data segments are loaded, through `ax`. -/
def loadSegments (c : Processor) : Processor :=
  let c := c.setGpr .eax ((c.gpr .eax).extractLsb' 16 16 ++ (0x10 : BitVec 16))
  [Seg.ds, .es, .fs, .gs].foldl (fun c s => c.setSeg s 0x10) c

section Stub

variable {t : Tables} {c : Processor}

theorem run_pushSegs (segs : List Seg) :
    c.run t (segs.map pushSeg) = some (c.pushes (segs.map fun s => (c.seg s).setWidth 32)) := by
  induction segs generalizing c with
  | nil => rfl
  | cons s segs ih =>
      rw [List.map_cons, run_cons]
      exact ih

theorem run_moveSegs (r : Gpr) (segs : List Seg) {w : BitVec 16} (hcs : Seg.cs ∉ segs) (hcpl : c.cpl = 0)
    (hfits : t.dataFits 0 w) (hr : (c.gpr r).setWidth 16 = w) :
    c.run t (segs.map fun s => moveSeg s r) = some (segs.foldl (fun c s => c.setSeg s w) c) := by
  induction segs generalizing c with
  | nil => rfl
  | cons s segs ih =>
      have hs : Seg.cs ≠ s := fun h => hcs (by rw [h]; exact List.mem_cons_self)
      have hexec : c.execute t (moveSeg s r) = some (c.setSeg s w) := by
        show (if t.dataFits c.cpl ((c.gpr r).setWidth 16) then _ else _) = _
        rw [hcpl, hr, if_pos hfits]
      have hkeep : (c.setSeg s w).cpl = 0 := by
        unfold cpl
        rw [← hcpl]
        exact congrArg rpl (Function.update_of_ne hs _ _)
      rw [List.map_cons, run_cons, hexec]
      exact ih (fun h => hcs (List.mem_cons_of_mem _ h)) hkeep hr

theorem run_loadSegments (hcpl : c.cpl = 0) (hfits : t.dataFits 0 0x10) :
    c.run t (moveHalf .eax 0x10 :: [Seg.ds, .es, .fs, .gs].map fun s => moveSeg s .eax) =
      some c.loadSegments := by
  have heax : ((c.setGpr .eax ((c.gpr .eax).extractLsb' 16 16 ++ (0x10 : BitVec 16))).gpr .eax).setWidth 16 =
      (0x10 : BitVec 16) := by
    rw [setGpr_self]
    exact BitVec.setWidth_append_eq_right
  rw [run_cons]
  exact run_moveSegs .eax [.ds, .es, .fs, .gs] (by decide) hcpl hfits heax

/-- The common part of the stubs. -/
theorem run_commonStub (hcpl : c.cpl = 0) (hfits : t.dataFits 0 0x10) :
    c.run t commonStub =
      some ((c.pushes c.generals).loadSegments.push ((c.pushes c.generals).gpr .esp)) := by
  have hcode : commonStub = pusha :: ([Seg.ds, .es, .fs, .gs].map pushSeg ++
      ((moveHalf .eax 0x10 :: [Seg.ds, .es, .fs, .gs].map fun s => moveSeg s .eax) ++
        [pushGpr .esp])) := rfl
  have hpushed : ∀ ws : List (BitVec 32), (c.pushes ws).cpl = 0 := by
    intro ws
    unfold cpl
    rw [pushes_seg]
    exact hcpl
  rw [hcode, run_cons]
  show Processor.run t (c.pushes _) _ = _
  rw [run_append, run_pushSegs, Option.bind_some, pushes_seg, ← pushes_append]
  show (c.pushes c.generals).run t _ = _
  rw [run_append, run_loadSegments (hpushed _) hfits]
  rfl

end Stub

end Processor

/-- What the hardware and the programs can raise: an exception comes with an error code where its stub
counts on one, and of the `int` instructions only that of a system call is taken. -/
def Event.Raised : Event → Prop
  | .exception v error => v < 32 ∧ (error.isSome ↔ v ∈ isrErrs)
  | .line n => n < 16
  | .software v => v = 0x80

namespace Processor

/-- The `struct registers` that the handler is given for an event. -/
def frame (c : Processor) (esp0 : BitVec 32) (e : Event) : TrapFrame where
  regs :=
    { gs := (c.seg .gs).setWidth 32
      fs := (c.seg .fs).setWidth 32
      es := (c.seg .es).setWidth 32
      ds := (c.seg .ds).setWidth 32
      edi := c.gpr .edi
      esi := c.gpr .esi
      ebp := c.gpr .ebp
      esp := c.stackTop esp0 - BitVec.ofNat 32 (if c.cpl = 0 then 20 else 28)
      ebx := c.gpr .ebx
      edx := c.gpr .edx
      ecx := c.gpr .ecx
      eax := c.gpr .eax
      intNo := BitVec.ofNat 32 e.vector
      errCode := e.error.getD 0
      eip := c.eip
      cs := (c.seg .cs).setWidth 32
      eflags := c.eflags }
  outer := c.outside

/-- The handler has been called for an event: the frame is on the stack below an argument that points to it,
nothing else has been written, and the kernel runs with interrupts disabled. -/
structure Entered (c : Processor) (esp0 : BitVec 32) (e : Event) (d : Processor) : Prop where
  frame : d.At ((d.gpr .esp + 4) :: (c.frame esp0 e).words)
  esp : (d.gpr .esp).toNat + 4 * ((c.frame esp0 e).words.length + 1) = (c.stackTop esp0).toNat
  kept : ∀ x, x < (d.gpr .esp).toNat ∨ (c.stackTop esp0).toNat ≤ x → d.mem x = c.mem x
  cs : d.seg .cs = 0x08
  ss : d.seg .ss = if c.cpl = 0 then c.seg .ss else 0x10
  data : ∀ s ∈ [Seg.ds, .es, .fs, .gs], d.seg s = 0x10
  eflags : d.eflags = c.eflags &&& ~~~eflagsCleared

section Enter

variable {t : Tables} {c d : Processor}

/-- What is pushed depends on the stack only. -/
theorem pushes_congr (hmem : d.mem = c.mem) (hesp : d.gpr .esp = c.gpr .esp) (ws : List (BitVec 32)) :
    (d.pushes ws).mem = (c.pushes ws).mem ∧ (d.pushes ws).gpr .esp = (c.pushes ws).gpr .esp := by
  induction ws generalizing c d with
  | nil => exact ⟨hmem, hesp⟩
  | cons w ws ih =>
      apply ih
      · show write32 d.mem (d.gpr .esp - 4).toNat w.toNat = write32 c.mem (c.gpr .esp - 4).toNat w.toNat
        rw [hmem, hesp]
      · show Function.update d.gpr .esp (d.gpr .esp - 4) .esp = Function.update c.gpr .esp (c.gpr .esp - 4) .esp
        rw [Function.update_self, Function.update_self, hesp]

theorem pushes_gpr_esp (c : Processor) (ws : List (BitVec 32)) :
    (c.pushes ws).gpr .esp = c.gpr .esp - BitVec.ofNat 32 (4 * ws.length) := by
  induction ws generalizing c with
  | nil => exact (BitVec.sub_zero _).symm
  | cons w ws ih =>
      have hpush : (c.push w).gpr .esp = c.gpr .esp - 4 := setGpr_self c .esp _
      have hsum : BitVec.ofNat 32 (4 * (w :: ws).length) = 4 + BitVec.ofNat 32 (4 * ws.length) := by
        rw [List.length_cons, Nat.mul_add, Nat.add_comm, BitVec.ofNat_add]
        rfl
      rw [pushes_cons, ih, hpush, hsum, BitVec.sub_sub]

/-- The words that the first lines of a stub push: the error code, if the processor has not, and the
vector. -/
def stubWords (e : Event) : List (BitVec 32) :=
  (e.error.elim [0] fun _ => []) ++ [BitVec.ofNat 32 e.vector]

/-- The first lines of the stub of an event. -/
theorem run_stubCode {e : Event} (hraised : e.Raised) :
    c.run t (stubCode e.vector) =
      Processor.run t (Processor.pushes { c with eflags := c.eflags &&& ~~~eflagsIf } (stubWords e))
        commonStub := by
  have hshort : ∀ v, c.run t (isrErr v) = some (Processor.pushes
      { c with eflags := c.eflags &&& ~~~eflagsIf } [BitVec.ofNat 32 v]) := fun v => rfl
  have hlong : ∀ v, c.run t (isrNoErr v) = some (Processor.pushes
      { c with eflags := c.eflags &&& ~~~eflagsIf } [0, BitVec.ofNat 32 v]) := fun v => rfl
  unfold stubCode
  cases e with
  | exception v error =>
      show c.run t ((if v ∈ isrErrs then isrErr v else if v < 32 then isrNoErr v else _) ++ commonStub) = _
      cases error with
      | none =>
          rw [if_neg fun h => (nomatch hraised.2.mpr h), if_pos hraised.1, run_append, hlong, Option.bind_some]
          rfl
      | some code =>
          rw [if_pos (hraised.2.mp rfl), run_append, hshort, Option.bind_some]
          rfl
  | line n =>
      have hn : n < 16 := hraised
      have herr : 32 + n ∉ isrErrs := by
        simp only [isrErrs, List.mem_cons, List.not_mem_nil, or_false]
        omega
      show c.run t ((if 32 + n ∈ isrErrs then _ else if 32 + n < 32 then _
        else if 32 + n < 48 then irqStub (32 + n) else _) ++ commonStub) = _
      rw [if_neg herr, if_neg (by omega), if_pos (by omega), run_append]
      show (c.run t (isrNoErr (32 + n))).bind _ = _
      rw [hlong, Option.bind_some]
      rfl
  | software v =>
      have hv : v = 0x80 := hraised
      rw [hv]
      show c.run t (isrNoErr 0x80 ++ commonStub) = _
      rw [run_append, hlong, Option.bind_some]
      rfl

/-- The processor before it pushes anything: on the stack of the interrupt. -/
def onStack (c : Processor) (esp0 : BitVec 32) : Processor :=
  (c.setSeg .ss (if c.cpl = 0 then c.seg .ss else 0x10)).setGpr .esp (c.stackTop esp0)

theorem loadSegments_gpr (c : Processor) {r : Gpr} (hr : r ≠ .eax) : c.loadSegments.gpr r = c.gpr r :=
  Function.update_of_ne hr _ _

theorem delivered_gpr (c : Processor) (entry esp0 : BitVec 32) (error : Option (BitVec 32)) {r : Gpr}
    (hr : r ≠ .esp) : (c.delivered entry esp0 error).gpr r = c.gpr r := by
  show (Processor.pushes _ _).gpr r = _
  rw [pushes_gpr _ _ hr]
  exact Function.update_of_ne hr _ _

theorem delivered_seg (c : Processor) (entry esp0 : BitVec 32) (error : Option (BitVec 32)) {s : Seg}
    (hcs : s ≠ .cs) (hss : s ≠ .ss) : (c.delivered entry esp0 error).seg s = c.seg s := by
  show Function.update (Processor.pushes _ _).seg .cs _ s = _
  rw [Function.update_of_ne hcs, pushes_seg]
  exact Function.update_of_ne hss _ _

theorem delivered_esp (c : Processor) (entry esp0 : BitVec 32) (error : Option (BitVec 32)) :
    (c.delivered entry esp0 error).gpr .esp =
      c.stackTop esp0 - BitVec.ofNat 32 (4 * (c.savedWords error).length) := by
  show (Processor.pushes _ _).gpr .esp = _
  rw [pushes_gpr_esp, setGpr_self]

/-- The processor when the first lines of the stub are done. -/
def stubbed (c : Processor) (entry esp0 : BitVec 32) (e : Event) : Processor :=
  Processor.pushes { c.delivered entry esp0 e.error with
    eflags := (c.delivered entry esp0 e.error).eflags &&& ~~~eflagsIf } (stubWords e)

/-- Five words, or seven with the stack of another level. -/
theorem stubbed_esp (c : Processor) (entry esp0 : BitVec 32) (e : Event) :
    (c.stubbed entry esp0 e).gpr .esp = (c.frame esp0 e).regs.esp := by
  have hlen : 4 * (c.savedWords e.error).length + 4 * (stubWords e).length = if c.cpl = 0 then 20 else 28 := by
    unfold savedWords stubWords outside
    cases e.error <;> split <;> rfl
  show (Processor.pushes _ _).gpr .esp = c.stackTop esp0 - BitVec.ofNat 32 _
  rw [pushes_gpr_esp]
  show (c.delivered entry esp0 e.error).gpr .esp - _ = _
  rw [delivered_esp, BitVec.sub_sub, ← BitVec.ofNat_add, hlen]

/-- All that is pushed from the event to the call of the handler, but for the argument. -/
theorem pushed_words (c : Processor) (entry esp0 : BitVec 32) (e : Event) :
    c.savedWords e.error ++ stubWords e ++ (c.stubbed entry esp0 e).generals =
      (c.frame esp0 e).words.reverse := by
  have hgpr : ∀ r, r ≠ .esp → (c.stubbed entry esp0 e).gpr r = c.gpr r := by
    intro r hr
    show (Processor.pushes _ _).gpr r = _
    rw [pushes_gpr _ _ hr]
    exact delivered_gpr c entry esp0 e.error hr
  have hseg : ∀ s, s ≠ .cs → s ≠ .ss → (c.stubbed entry esp0 e).seg s = c.seg s := by
    intro s hcs hss
    show (Processor.pushes _ _).seg s = _
    rw [pushes_seg]
    exact delivered_seg c entry esp0 e.error hcs hss
  have hgenerals : (c.stubbed entry esp0 e).generals =
      [c.gpr .eax, c.gpr .ecx, c.gpr .edx, c.gpr .ebx, (c.frame esp0 e).regs.esp, c.gpr .ebp, c.gpr .esi,
        c.gpr .edi] ++ [Seg.ds, .es, .fs, .gs].map fun s => (c.seg s).setWidth 32 := by
    unfold generals
    rw [stubbed_esp, hgpr .eax nofun, hgpr .ecx nofun, hgpr .edx nofun, hgpr .ebx nofun, hgpr .ebp nofun,
      hgpr .esi nofun, hgpr .edi nofun]
    simp only [List.map_cons, List.map_nil, hseg _ (show Seg.ds ≠ .cs from nofun) nofun,
      hseg _ (show Seg.es ≠ .cs from nofun) nofun, hseg _ (show Seg.fs ≠ .cs from nofun) nofun,
      hseg _ (show Seg.gs ≠ .cs from nofun) nofun]
  rw [hgenerals]
  unfold savedWords stubWords TrapFrame.words frame outside
  cases e.error <;> split <;> rfl

/-- The last push is that of the argument. -/
theorem called_stack (hmem : d.mem = c.mem) (hesp : d.gpr .esp = c.gpr .esp) :
    (d.loadSegments.push (d.gpr .esp)).mem = (c.pushes [d.gpr .esp]).mem ∧
      (d.loadSegments.push (d.gpr .esp)).gpr .esp = (c.pushes [d.gpr .esp]).gpr .esp ∧
      d.gpr .esp = (d.loadSegments.push (d.gpr .esp)).gpr .esp + 4 := by
  have hload : d.loadSegments.gpr .esp = d.gpr .esp := loadSegments_gpr d nofun
  obtain ⟨hmem', hesp'⟩ := pushes_congr (d := d.loadSegments) (show d.loadSegments.mem = c.mem from hmem)
    (hload.trans hesp) [d.gpr .esp]
  refine ⟨hmem', hesp', ?_⟩
  have hpush : (d.loadSegments.push (d.gpr .esp)).gpr .esp = d.loadSegments.gpr .esp - 4 :=
    setGpr_self d.loadSegments .esp _
  rw [hpush, hload, BitVec.sub_add_cancel]

/-- The processor when the handler has been called. -/
def trapped (c : Processor) (entry esp0 : BitVec 32) (e : Event) : Processor :=
  let d := (c.stubbed entry esp0 e).pushes (c.stubbed entry esp0 e).generals
  d.loadSegments.push (d.gpr .esp)

/-- On the stack, the whole way in is a sequence of pushes. -/
theorem trapped_stack (c : Processor) (entry esp0 : BitVec 32) (e : Event) :
    ∃ arg, (c.trapped entry esp0 e).mem = ((c.onStack esp0).pushes ((c.frame esp0 e).words.reverse ++ [arg])).mem ∧
      (c.trapped entry esp0 e).gpr .esp =
        ((c.onStack esp0).pushes ((c.frame esp0 e).words.reverse ++ [arg])).gpr .esp ∧
      arg = (c.trapped entry esp0 e).gpr .esp + 4 := by
  obtain ⟨hmem, hesp⟩ := pushes_congr (c := (c.onStack esp0).pushes (c.savedWords e.error))
    (d := { c.delivered entry esp0 e.error with
      eflags := (c.delivered entry esp0 e.error).eflags &&& ~~~eflagsIf }) rfl rfl (stubWords e)
  obtain ⟨hmem', hesp'⟩ := pushes_congr (d := c.stubbed entry esp0 e) hmem hesp
    (c.stubbed entry esp0 e).generals
  rw [← pushes_append, ← pushes_append, ← List.append_assoc, pushed_words] at hmem' hesp'
  obtain ⟨hmem'', hesp'', harg⟩ := called_stack hmem' hesp'
  rw [← pushes_append] at hmem'' hesp''
  exact ⟨_, hmem'', hesp'', harg⟩

theorem frame_length (c : Processor) (esp0 : BitVec 32) (e : Event) :
    (c.frame esp0 e).words.length = if c.cpl = 0 then 17 else 19 := by
  unfold frame TrapFrame.words outside
  split <;> rfl

theorem stubbed_seg (c : Processor) (entry esp0 : BitVec 32) (e : Event) :
    (c.stubbed entry esp0 e).seg = (c.delivered entry esp0 e.error).seg := by
  unfold stubbed
  rw [pushes_seg]

theorem stubbed_seg_cs (c : Processor) (entry esp0 : BitVec 32) (e : Event) :
    (c.stubbed entry esp0 e).seg .cs = 0x08 := by
  rw [stubbed_seg]
  simp [delivered]

theorem stubbed_seg_ss (c : Processor) (entry esp0 : BitVec 32) (e : Event) :
    (c.stubbed entry esp0 e).seg .ss = if c.cpl = 0 then c.seg .ss else 0x10 := by
  rw [stubbed_seg]
  simp [delivered, setSeg]

/-- The kernel's data segments are loaded, and the stack and code segments stay. -/
theorem trapped_seg (c : Processor) (entry esp0 : BitVec 32) (e : Event) (s : Seg) :
    (c.trapped entry esp0 e).seg s =
      if s = .cs ∨ s = .ss then (c.stubbed entry esp0 e).seg s else 0x10 := by
  have hload : (c.trapped entry esp0 e).seg = (Processor.loadSegments
      ((c.stubbed entry esp0 e).pushes (c.stubbed entry esp0 e).generals)).seg := rfl
  rw [hload, ← pushes_seg _ (c.stubbed entry esp0 e).generals]
  cases s <;> rfl

/-- Where an event leads, with the `struct registers` that the handler finds. -/
theorem enter_spec (stubs : Stubs) (esp0 : BitVec 32) (c : Processor) {e : Event} (hraised : e.Raised)
    (hroom : 80 ≤ (c.stackTop esp0).toNat) :
    ∃ d, c.enter stubs (kernelTables stubs esp0) e = some d ∧ c.Entered esp0 e d := by
  have htaken : e.vector < 48 ∧ (e.isSoftware → c.cpl = 0) ∨ e.vector = 0x80 := by
    cases e with
    | exception v error => exact .inl ⟨Nat.lt_trans hraised.1 (by decide), nofun⟩
    | line n =>
        have hn : n < 16 := hraised
        exact .inl ⟨show 32 + n < 48 by omega, nofun⟩
    | software v => exact .inr hraised
  have hcpl : (c.stubbed (stubs.entry e.vector) esp0 e).cpl = 0 := by
    unfold cpl
    rw [stubbed_seg_cs]
    rfl
  have hrun : c.enter stubs (kernelTables stubs esp0) e = some (c.trapped (stubs.entry e.vector) esp0 e) := by
    unfold enter
    rw [deliver_spec, if_pos htaken]
    show (guard _ >>= fun _ => Processor.run _ (c.delivered _ esp0 e.error) _) = _
    have heip : (c.delivered (stubs.entry e.vector) esp0 e.error).eip = stubs.entry e.vector := rfl
    rw [guard_pos heip]
    show Processor.run _ (c.delivered _ esp0 e.error) _ = _
    rw [run_stubCode hraised]
    exact run_commonStub hcpl (kernelTables_dataFits stubs esp0)
  refine ⟨_, hrun, ?_⟩
  obtain ⟨arg, hmem, hesp, harg⟩ := trapped_stack c (stubs.entry e.vector) esp0 e
  have hlen : ((c.frame esp0 e).words.reverse ++ [arg]).length = (c.frame esp0 e).words.length + 1 := by
    rw [List.length_append, List.length_reverse]
    rfl
  have hwords : (c.frame esp0 e).words.length ≤ 19 := by
    rw [frame_length]
    split <;> decide
  have htop : (c.onStack esp0).gpr .esp = c.stackTop esp0 := setGpr_self ..
  have hfit : 4 * ((c.frame esp0 e).words.reverse ++ [arg]).length ≤ ((c.onStack esp0).gpr .esp).toNat := by
    rw [hlen, htop]
    omega
  have hespNat := pushes_esp hfit
  rw [← hesp, hlen, htop] at hespNat
  have hat := (at_nil (c.onStack esp0)).pushes hfit
  constructor
  case frame =>
    rw [← harg]
    apply (At.congr (l := arg :: (c.frame esp0 e).words) ?_ hesp fun x _ => congrFun hmem x)
    rw [List.reverse_append, List.reverse_reverse, List.append_nil] at hat
    exact hat
  case esp =>
    rw [hlen, htop] at hfit
    omega
  case kept =>
    intro x hx
    rw [hmem]
    apply pushes_mem hfit
    rw [hlen, htop]
    omega
  case cs =>
    rw [trapped_seg, if_pos (.inl rfl), stubbed_seg_cs]
  case ss =>
    rw [trapped_seg, if_pos (.inr rfl), stubbed_seg_ss]
  case data =>
    intro s hs
    rw [trapped_seg, if_neg]
    rintro (rfl | rfl) <;> exact absurd hs (by decide)
  case eflags =>
    have hcleared : ~~~eflagsCleared &&& ~~~eflagsIf = ~~~eflagsCleared := by decide
    show (Processor.pushes _ _).eflags = _
    rw [pushes_eflags]
    show (Processor.pushes _ _).eflags = _
    rw [pushes_eflags]
    show c.eflags &&& ~~~eflagsCleared &&& ~~~eflagsIf = _
    rw [BitVec.and_assoc, hcleared]

end Enter

end Processor

end Neox.Trap
