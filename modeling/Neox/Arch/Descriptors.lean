import Neox.Layout
import Mathlib.Algebra.Group.Nat.Defs
import Mathlib.Logic.Function.Basic

/-!
# The descriptor tables

`arch/x86/gdt.c`, `idt.c` and `tss.c`: the packed entries as the code fills them, and what the processor
reads from them. The addresses of the stubs and of the TSS are the linker's and can be any.

* `descriptor_decodes`: a descriptor is read as it was written.
* `archInit_gate`: the gate of every vector once the tables are set up.
-/

namespace Neox

/-! ## `gdt.c` -/

/-- `struct gdt_entry`. -/
structure GdtEntry where
  limitLow : BitVec 16
  baseLow : BitVec 16
  baseMiddle : BitVec 8
  access : BitVec 8
  granularity : BitVec 8
  baseHigh : BitVec 8
  deriving DecidableEq, Repr

/-- `GDT_ENTRIES`. -/
abbrev gdtEntries : Nat := 6

abbrev Gdt := Nat → GdtEntry

/-- `gdt_set_entry`. -/
def gdtSetEntry (gdt : Gdt) (index : Nat) (base limit : BitVec 32) (access flags : BitVec 8) : Gdt :=
  if gdtEntries ≤ index then gdt
  else Function.update gdt index
    { limitLow := (limit &&& 0xFFFF).setWidth 16
      baseLow := (base &&& 0xFFFF).setWidth 16
      baseMiddle := (base >>> 16 &&& 0xFF).setWidth 8
      baseHigh := (base >>> 24).setWidth 8 &&& 0xFF
      access := access
      granularity := (limit >>> 16 &&& 0x0F).setWidth 8 ||| (flags &&& 0x0F) <<< 4 }

/-- `gdt_set_tss`. -/
def gdtSetTss (gdt : Gdt) (base limit : BitVec 32) : Gdt := gdtSetEntry gdt 5 base limit 0x89 0x00

/-- `gdt_init`. -/
def gdtInit (gdt : Gdt) : Gdt :=
  let gdt := gdtSetEntry gdt 0 0 0 0x00 0x00
  let gdt := gdtSetEntry gdt 1 0 0xFFFFF 0x9A 0x0C
  let gdt := gdtSetEntry gdt 2 0 0xFFFFF 0x92 0x0C
  let gdt := gdtSetEntry gdt 3 0 0xFFFFF 0xFA 0x0C
  let gdt := gdtSetEntry gdt 4 0 0xFFFFF 0xF2 0x0C
  gdtSetEntry gdt 5 0 0 0x00 0x00

/-! What the processor reads. -/

namespace GdtEntry

variable (e : GdtEntry)

def base : BitVec 32 := e.baseHigh ++ e.baseMiddle ++ e.baseLow
def limit : BitVec 20 := e.granularity.extractLsb' 0 4 ++ e.limitLow
def flags : BitVec 4 := e.granularity.extractLsb' 4 4
def present : Bool := e.access.getLsbD 7
def dpl : Nat := (e.access.extractLsb' 5 2).toNat
/-- A code or data segment, not a system descriptor. -/
def segment : Bool := e.access.getLsbD 4
def code : Bool := e.access.getLsbD 3
def conforming : Bool := e.access.getLsbD 2
/-- A writable data segment or a readable code segment. -/
def writable : Bool := e.access.getLsbD 1

/-- The last byte of the segment: the limit is in pages if the granularity flag is set. -/
def last : Nat := if e.flags.getLsbD 3 then e.limit.toNat * pageSize + (pageSize - 1) else e.limit.toNat

end GdtEntry

/-! ## `tss.c` -/

/-- `struct tss_entry`, without the fields that stay 0. -/
structure Tss where
  esp0 : BitVec 32
  ss0 : BitVec 32
  iomapBase : BitVec 16
  deriving DecidableEq, Repr

/-- `sizeof(struct tss_entry)`. -/
abbrev tssSize : Nat := 104

/-! ## `idt.c` -/

/-- `struct idt_entry`. -/
structure IdtEntry where
  offsetLow : BitVec 16
  selector : BitVec 16
  zero : BitVec 8
  flags : BitVec 8
  offsetHigh : BitVec 16
  deriving DecidableEq, Repr

abbrev Idt := Nat → IdtEntry

/-- `idt_set_gate`; `idt_set_syscall_gate` is the same. -/
def idtSetGate (idt : Idt) (vector : BitVec 8) (handler : BitVec 32) (selector : BitVec 16)
    (flags : BitVec 8) : Idt :=
  Function.update idt vector.toNat
    { offsetLow := (handler &&& 0xFFFF).setWidth 16
      selector := selector
      zero := 0
      flags := flags
      offsetHigh := (handler >>> 16).setWidth 16 &&& 0xFFFF }

namespace IdtEntry

variable (e : IdtEntry)

def offset : BitVec 32 := e.offsetHigh ++ e.offsetLow
def present : Bool := e.flags.getLsbD 7
def dpl : Nat := (e.flags.extractLsb' 5 2).toNat
/-- The type of the gate is that of a 32-bit interrupt gate. -/
def interruptGate : Bool := e.flags.extractLsb' 0 5 == 0x0E

end IdtEntry

/-- Where the linker has put the stubs and the TSS. -/
structure Stubs where
  isr : Nat → BitVec 32
  irq : Nat → BitVec 32
  syscallStub : BitVec 32
  tss : BitVec 32

/-- What the processor has been told of. -/
structure Tables where
  gdt : Gdt
  idt : Idt
  tss : Tss

/-- `tss_init`. -/
def tssInit (stubs : Stubs) (t : Tables) : Tables :=
  { t with
    tss := { esp0 := 0, ss0 := 0x10, iomapBase := BitVec.ofNat 16 tssSize }
    gdt := gdtSetTss t.gdt stubs.tss (BitVec.ofNat 32 (tssSize - 1)) }

/-- `IDT_FLAG_INTERRUPT_GATE`. -/
abbrev idtFlagInterruptGate : BitVec 8 := 0x8E

/-- `idt_init`. -/
def idtInit (stubs : Stubs) (idt : Idt) : Idt :=
  let idt := (List.range 32).foldl
    (fun idt i => idtSetGate idt (BitVec.ofNat 8 i) (stubs.isr i) 0x08 idtFlagInterruptGate) idt
  (List.range 16).foldl
    (fun idt i => idtSetGate idt (BitVec.ofNat 8 (32 + i)) (stubs.irq i) 0x08 idtFlagInterruptGate) idt

/-- `syscall_init`. -/
def syscallInit (stubs : Stubs) (idt : Idt) : Idt := idtSetGate idt 0x80 stubs.syscallStub 0x08 0xEE

/-- The static tables before `arch_init`. -/
def Tables.blank : Tables where
  gdt _ := ⟨0, 0, 0, 0, 0, 0⟩
  idt _ := ⟨0, 0, 0, 0, 0⟩
  tss := ⟨0, 0, 0⟩

/-- `arch_init`, as far as the tables go. -/
def archInit (stubs : Stubs) : Tables :=
  let t := { Tables.blank with gdt := gdtInit Tables.blank.gdt }
  let t := tssInit stubs t
  { t with idt := syscallInit stubs (idtInit stubs t.idt) }

/-- `tss_set_kernel_stack`. -/
def tssSetKernelStack (t : Tables) (esp0 : BitVec 32) : Tables :=
  { t with tss := { t.tss with esp0 := esp0 } }

/-! ## What is written is read -/

section Masks

variable {w : Nat} {mask : BitVec w}

theorem mask_bit (n : Nat) (hmask : mask.toNat = 2 ^ n - 1) (i : Nat) :
    mask.getLsbD i = decide (i < n) := by
  rw [BitVec.getLsbD, hmask, Nat.testBit_two_pow_sub_one]

theorem low_eq (n : Nat) (hmask : mask.toNat = 2 ^ n - 1) (x : BitVec w) :
    (x &&& mask).setWidth n = x.extractLsb' 0 n := by
  apply BitVec.eq_of_toNat_eq
  rw [BitVec.toNat_setWidth, BitVec.toNat_and, hmask, Nat.and_two_pow_sub_one_eq_mod, Nat.mod_mod,
    BitVec.extractLsb'_toNat, Nat.shiftRight_zero]

/-- A shift, a mask and a cast take a field out. -/
theorem slice_eq (n : Nat) (hmask : mask.toNat = 2 ^ n - 1) (x : BitVec w) (start : Nat) :
    (x >>> start &&& mask).setWidth n = x.extractLsb' start n := by
  rw [low_eq n hmask]
  apply BitVec.eq_of_toNat_eq
  rw [BitVec.extractLsb'_toNat, BitVec.extractLsb'_toNat, BitVec.toNat_ushiftRight, Nat.shiftRight_zero]

/-- The same with the cast before the mask. -/
theorem narrow_eq {n : Nat} {mask : BitVec n} (hmask : mask.toNat = 2 ^ n - 1) (x : BitVec w)
    (start : Nat) : (x >>> start).setWidth n &&& mask = x.extractLsb' start n := by
  have hall : mask = BitVec.allOnes n := by
    apply BitVec.eq_of_toNat_eq
    rw [hmask, BitVec.toNat_allOnes]
  rw [hall, BitVec.and_allOnes]
  apply BitVec.eq_of_toNat_eq
  rw [BitVec.toNat_setWidth, BitVec.toNat_ushiftRight, BitVec.extractLsb'_toNat]

end Masks

section Granularity

variable (limit : BitVec 32) (flags : BitVec 8)

/-- The low half of the granularity byte is the high part of the limit. -/
theorem granularity_low : ((limit >>> 16 &&& 0x0F).setWidth 8 ||| (flags &&& 0x0F) <<< 4).extractLsb' 0 4 =
    limit.extractLsb' 16 4 := by
  have hmask : ∀ i, (0x0F : BitVec 32).getLsbD i = decide (i < 4) := mask_bit 4 rfl
  ext i hi
  simp only [BitVec.getElem_extractLsb', BitVec.getLsbD_or, BitVec.getLsbD_setWidth, BitVec.getLsbD_and,
    BitVec.getLsbD_shiftLeft, BitVec.getLsbD_ushiftRight]
  grind

/-- The high half is the flags. -/
theorem granularity_high :
    ((limit >>> 16 &&& 0x0F).setWidth 8 ||| (flags &&& 0x0F) <<< 4).extractLsb' 4 4 =
      flags.setWidth 4 := by
  have hlimit : ∀ i, (0x0F : BitVec 32).getLsbD i = decide (i < 4) := mask_bit 4 rfl
  have hflags : ∀ i, (0x0F : BitVec 8).getLsbD i = decide (i < 4) := mask_bit 4 rfl
  ext i hi
  simp only [BitVec.getElem_extractLsb', BitVec.getLsbD_or, BitVec.getLsbD_setWidth, BitVec.getElem_setWidth,
    BitVec.getLsbD_and, BitVec.getLsbD_shiftLeft, BitVec.getLsbD_ushiftRight]
  grind

end Granularity

/-- The processor reads the base, the low 20 bits of the limit, the low half of the flags and the access
byte that were written, and no other descriptor changes. -/
theorem descriptor_decodes (gdt : Gdt) (index : Nat) (base limit : BitVec 32) (access flags : BitVec 8) :
    (gdtEntries ≤ index → gdtSetEntry gdt index base limit access flags = gdt) ∧
      (index < gdtEntries →
        (gdtSetEntry gdt index base limit access flags index).base = base ∧
        (gdtSetEntry gdt index base limit access flags index).limit = limit.setWidth 20 ∧
        (gdtSetEntry gdt index base limit access flags index).flags = flags.setWidth 4 ∧
        (gdtSetEntry gdt index base limit access flags index).access = access) ∧
      ∀ i, i ≠ index → gdtSetEntry gdt index base limit access flags i = gdt i := by
  refine ⟨fun h => if_pos h, fun h => ?_, fun i hne => ?_⟩
  · unfold gdtSetEntry
    rw [if_neg (Nat.not_le.mpr h), Function.update_self]
    refine ⟨?base, ?limit, granularity_high limit flags, rfl⟩
    case base =>
      unfold GdtEntry.base
      rw [narrow_eq rfl, slice_eq 8 rfl, low_eq 16 rfl base,
        BitVec.extractLsb'_append_extractLsb'_eq_extractLsb' (show 24 = 16 + 8 from rfl),
        BitVec.extractLsb'_append_extractLsb'_eq_extractLsb' (show 16 = 0 + 16 from rfl)]
      exact BitVec.extractLsb'_eq_self
    case limit =>
      unfold GdtEntry.limit
      rw [granularity_low, low_eq 16 rfl,
        BitVec.extractLsb'_append_extractLsb'_eq_extractLsb' (show 16 = 0 + 16 from rfl)]
      exact (BitVec.setWidth_eq_extractLsb' (by decide)).symm
  · unfold gdtSetEntry
    split
    · rfl
    · exact Function.update_of_ne hne _ _

/-! ## The gates -/

/-- The gate that `idt_set_gate` writes. -/
def interruptGateOf (handler : BitVec 32) (flags : BitVec 8) : IdtEntry where
  offsetLow := (handler &&& 0xFFFF).setWidth 16
  selector := 0x08
  zero := 0
  flags := flags
  offsetHigh := (handler >>> 16).setWidth 16 &&& 0xFFFF

theorem offset_interruptGateOf (handler : BitVec 32) (flags : BitVec 8) :
    (interruptGateOf handler flags).offset = handler := by
  unfold IdtEntry.offset interruptGateOf
  rw [narrow_eq rfl, low_eq 16 rfl,
    BitVec.extractLsb'_append_extractLsb'_eq_extractLsb' (show 16 = 0 + 16 from rfl)]
  exact BitVec.extractLsb'_eq_self

/-- Where the stub of a vector is. -/
def Stubs.entry (stubs : Stubs) (v : Nat) : BitVec 32 :=
  if v < 32 then stubs.isr v else if v < 48 then stubs.irq (v - 32) else stubs.syscallStub

/-- A loop of `idt_init` writes one gate a round. -/
theorem gates_loop (handler : Nat → BitVec 32) (first : Nat) {n : Nat} (h : first + n ≤ 256) (idt : Idt)
    (v : Nat) :
    (List.range n).foldl (fun idt i =>
        idtSetGate idt (BitVec.ofNat 8 (first + i)) (handler i) 0x08 idtFlagInterruptGate) idt v =
      if first ≤ v ∧ v < first + n then interruptGateOf (handler (v - first)) idtFlagInterruptGate
      else idt v := by
  induction n with
  | zero => exact (if_neg (by omega)).symm
  | succ n ih =>
      rw [List.range_succ, List.foldl_append]
      show Function.update _ (BitVec.ofNat 8 (first + n)).toNat _ v = _
      rw [BitVec.toNat_ofNat, Nat.mod_eq_of_lt (show first + n < 2 ^ 8 by omega), Function.update_apply]
      by_cases hv : v = first + n
      · rw [if_pos hv, if_pos (by omega), hv, Nat.add_sub_cancel_left]
        rfl
      · rw [if_neg hv, ih (by omega)]
        by_cases hold : first ≤ v ∧ v < first + n
        · rw [if_pos hold, if_pos (by omega)]
        · rw [if_neg hold, if_neg (by omega)]

/-- Every vector once the tables are set up: the exceptions and the interrupt lines have a gate that only
the kernel and the hardware can take, vector 0x80 has one for Ring 3, and the others have none. -/
theorem archInit_gate (stubs : Stubs) (v : Nat) :
    (archInit stubs).idt v =
      if v < 48 then interruptGateOf (stubs.entry v) idtFlagInterruptGate
      else if v = 0x80 then interruptGateOf (stubs.entry v) 0xEE
      else ⟨0, 0, 0, 0, 0⟩ := by
  show Function.update (idtInit stubs Tables.blank.idt) 0x80 (interruptGateOf stubs.syscallStub 0xEE) v = _
  have hexceptions : ∀ idt : Idt, (List.range 32).foldl (fun idt i =>
      idtSetGate idt (BitVec.ofNat 8 i) (stubs.isr i) 0x08 idtFlagInterruptGate) idt v =
        if v < 32 then interruptGateOf (stubs.isr v) idtFlagInterruptGate else idt v := by
    intro idt
    have hloop := gates_loop stubs.isr 0 (n := 32) (by decide) idt v
    simpa using hloop
  have hlines := fun idt => gates_loop stubs.irq 32 (n := 16) (by decide) idt v
  have hblank : Tables.blank.idt v = ⟨0, 0, 0, 0, 0⟩ := rfl
  rw [Function.update_apply]
  unfold idtInit Stubs.entry
  rw [hlines, hexceptions, hblank]
  grind

/-! ## Selectors -/

/-- The privilege level that a selector asks for. -/
def rpl (selector : BitVec 16) : Nat := selector.toNat % 4

/-- The descriptor of a selector; there is no local table. -/
def Tables.descriptor (t : Tables) (selector : BitVec 16) : Option GdtEntry :=
  if selector.toNat / 4 % 2 = 0 ∧ selector.toNat / 8 < gdtEntries then some (t.gdt (selector.toNat / 8))
  else none

/-- `ds`, `es`, `fs` and `gs` can be loaded at this level: null, or a segment that can be read. -/
def Tables.dataFits (t : Tables) (level : Nat) (selector : BitVec 16) : Bool :=
  decide (selector.toNat < 4) ||
    (t.descriptor selector).any fun e => e.present && e.segment && (!e.code || e.writable) &&
      (e.code && e.conforming || decide (max level (rpl selector) ≤ e.dpl))

/-- `ss` can be loaded at this level. -/
def Tables.stackFits (t : Tables) (level : Nat) (selector : BitVec 16) : Bool :=
  (t.descriptor selector).any fun e => e.present && e.segment && !e.code && e.writable &&
    decide (rpl selector = level) && decide (e.dpl = level)

/-- Code runs at this level with this `cs`. -/
def Tables.codeFits (t : Tables) (level : Nat) (selector : BitVec 16) : Bool :=
  (t.descriptor selector).any fun e => e.present && e.segment && e.code &&
    decide (rpl selector = level) &&
    (if e.conforming then decide (e.dpl ≤ level) else decide (e.dpl = level))

/-- The tables while a thread runs whose kernel stack ends at `esp0`. -/
def kernelTables (stubs : Stubs) (esp0 : BitVec 32) : Tables := tssSetKernelStack (archInit stubs) esp0

section Installed

variable (stubs : Stubs) (esp0 : BitVec 32)

theorem kernelTables_gate (v : Nat) : (kernelTables stubs esp0).idt v =
    if v < 48 then interruptGateOf (stubs.entry v) idtFlagInterruptGate
    else if v = 0x80 then interruptGateOf (stubs.entry v) 0xEE
    else ⟨0, 0, 0, 0, 0⟩ := archInit_gate stubs v

/-- `GDT_CODE_SELECTOR`. -/
theorem kernelTables_code : (kernelTables stubs esp0).descriptor 0x08 =
    some ⟨0xFFFF, 0, 0, 0x9A, 0xCF, 0⟩ := rfl

/-- `GDT_DATA_SELECTOR`. -/
theorem kernelTables_data : (kernelTables stubs esp0).descriptor 0x10 =
    some ⟨0xFFFF, 0, 0, 0x92, 0xCF, 0⟩ := rfl

/-- `GDT_USER_CODE_SELECTOR`. -/
theorem kernelTables_userCode : (kernelTables stubs esp0).descriptor 0x1B =
    some ⟨0xFFFF, 0, 0, 0xFA, 0xCF, 0⟩ := rfl

/-- `GDT_USER_DATA_SELECTOR`. -/
theorem kernelTables_userData : (kernelTables stubs esp0).descriptor 0x23 =
    some ⟨0xFFFF, 0, 0, 0xF2, 0xCF, 0⟩ := rfl

theorem kernelTables_codeFits : (kernelTables stubs esp0).codeFits 0 0x08 := by
  unfold Tables.codeFits
  rw [kernelTables_code]
  decide

theorem kernelTables_stackFits : (kernelTables stubs esp0).stackFits 0 0x10 := by
  unfold Tables.stackFits
  rw [kernelTables_data]
  decide

theorem kernelTables_dataFits : (kernelTables stubs esp0).dataFits 0 0x10 := by
  unfold Tables.dataFits
  rw [kernelTables_data]
  decide

theorem kernelTables_userCodeFits : (kernelTables stubs esp0).codeFits 3 0x1B := by
  unfold Tables.codeFits
  rw [kernelTables_userCode]
  decide

theorem kernelTables_userStackFits : (kernelTables stubs esp0).stackFits 3 0x23 := by
  unfold Tables.stackFits
  rw [kernelTables_userData]
  decide

theorem kernelTables_userDataFits : (kernelTables stubs esp0).dataFits 3 0x23 := by
  unfold Tables.dataFits
  rw [kernelTables_userData]
  decide

end Installed

end Neox
