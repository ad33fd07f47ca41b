import Neox.Lib.Run
import Mathlib.Logic.Function.Basic
import Mathlib.Data.List.Basic
import Mathlib.Data.List.Induction

/-!
# The interrupt controllers

`arch/x86/pic.c` and the end-of-interrupt of `irq.c`, over a model of the two 8259 chips: the initialisation
sequence, the mask, the requests that wait and those in service, in fully nested mode. The chips are cascaded
through line 2, as in the PC, so line 2 itself carries nothing.

* `picInit_eq`: `pic_init` works from any state of the chips.
* `interrupts_answered`: in every run each request is delivered once, in the order of the priorities, with the
  vector of its line, and nothing is in service when interrupts are enabled again.
-/

namespace Neox

open Transition

/-! ## The 8259 -/

/-- Which initialisation word the next byte at the data port is. -/
inductive PicPhase where
  | ready | icw2 | icw3 | icw4
  deriving DecidableEq, Repr

structure Pic where
  phase : PicPhase
  single : Bool
  needIcw4 : Bool
  /-- The vector of line 0. -/
  offset : Nat
  cascade : BitVec 8
  imr : BitVec 8
  irr : Nat → Bool
  isr : Nat → Bool

namespace Pic

/-- A byte at the command port: ICW1, or a non-specific end of interrupt. Other commands are not used. -/
def writeCommand (p : Pic) (v : BitVec 8) : Pic :=
  if v.getLsbD 4 then
    { p with
      phase := .icw2, single := v.getLsbD 1, needIcw4 := v.getLsbD 0,
      imr := 0, irr := fun _ => false, isr := fun _ => false }
  else if v = 0x20 then
    match (List.range 8).find? p.isr with
    | some i => { p with isr := Function.update p.isr i false }
    | none => p
  else p

/-- A byte at the data port. -/
def writeData (p : Pic) (v : BitVec 8) : Pic :=
  match p.phase with
  | .ready => { p with imr := v }
  | .icw2 =>
      { p with
        offset := v.toNat / 8 * 8
        phase := if p.single then (if p.needIcw4 then .icw4 else .ready) else .icw3 }
  | .icw3 => { p with cascade := v, phase := if p.needIcw4 then .icw4 else .ready }
  | .icw4 => { p with phase := .ready }

/-- The line whose request goes to the processor: the first that is not masked, unless one before it, or the
line itself, is in service. -/
def interrupt (p : Pic) : Option Nat :=
  ((List.range 8).find? fun i => p.irr i && !p.imr.getLsbD i).filter fun i =>
    (List.range 8).all fun j => !p.isr j || decide (i < j)

/-- The processor has acknowledged line `i`. -/
def acknowledge (p : Pic) (i : Nat) : Pic :=
  { p with irr := Function.update p.irr i false, isr := Function.update p.isr i true }

end Pic

/-- The two chips. -/
structure Pics where
  master : Pic
  slave : Pic

namespace Pics

def outb (s : Pics) (port : Nat) (v : BitVec 8) : Pics :=
  if port = 0x20 then { s with master := s.master.writeCommand v }
  else if port = 0x21 then { s with master := s.master.writeData v }
  else if port = 0xA0 then { s with slave := s.slave.writeCommand v }
  else if port = 0xA1 then { s with slave := s.slave.writeData v }
  else s

/-- The data ports give the masks. -/
def inb (s : Pics) (port : Nat) : BitVec 8 :=
  if port = 0x21 then s.master.imr else if port = 0xA1 then s.slave.imr else 0

/-- The master sees the slave's request on line 2. -/
def cascaded (s : Pics) : Pic :=
  { s.master with irr := Function.update s.master.irr 2 s.slave.interrupt.isSome }

/-- The processor acknowledges an interrupt: its vector, from the slave if the line is a slave's and the slave
has this number. -/
def acknowledge (s : Pics) : Option (Nat × Pics) := do
  let i ← s.cascaded.interrupt
  let master := s.master.acknowledge i
  if s.master.cascade.getLsbD i ∧ s.slave.cascade.toNat % 8 = i then do
    let j ← s.slave.interrupt
    some (s.slave.offset + j, { master := master, slave := s.slave.acknowledge j })
  else some (s.master.offset + i, { s with master := master })

/-- A device raises its line. -/
def raise (s : Pics) (n : Nat) : Pics :=
  if n < 8 then { s with master := { s.master with irr := Function.update s.master.irr n true } }
  else { s with slave := { s.slave with irr := Function.update s.slave.irr (n - 8) true } }

/-! ## `pic.c` -/

/-- `pic_init`. -/
def picInit (s : Pics) : Pics :=
  let masterMask := s.inb 0x21
  let slaveMask := s.inb 0xA1
  let s := s.outb 0x20 0x11
  let s := s.outb 0xA0 0x11
  let s := s.outb 0x21 32
  let s := s.outb 0xA1 40
  let s := s.outb 0x21 4
  let s := s.outb 0xA1 2
  let s := s.outb 0x21 0x01
  let s := s.outb 0xA1 0x01
  let s := s.outb 0x21 masterMask
  s.outb 0xA1 slaveMask

/-- `pic_send_eoi`. -/
def picSendEoi (s : Pics) (irq : Nat) : Pics :=
  let s := if 8 ≤ irq then s.outb 0xA0 0x20 else s
  s.outb 0x20 0x20

/-- A chip that has been initialised and serves nothing. -/
def initialised (p : Pic) (offset : Nat) (cascade : BitVec 8) : Pic where
  phase := .ready
  single := false
  needIcw4 := true
  offset := offset
  cascade := cascade
  imr := p.imr
  irr _ := false
  isr _ := false

/-- Whatever the chips were doing, they end up with the kernel's vectors and the masks they had. -/
theorem picInit_eq (s : Pics) :
    s.picInit = { master := initialised s.master 32 4, slave := initialised s.slave 40 2 } := rfl

end Pics

/-! ## Interrupts -/

/-- Line 2 carries the slave's requests. -/
structure IsLine (n : Nat) : Prop where
  lt : n < 16
  ne : n ≠ 2

instance (n : Nat) : Decidable (IsLine n) := decidable_of_iff (n < 16 ∧ n ≠ 2) ⟨fun h => ⟨h.1, h.2⟩, fun h => ⟨h.1, h.2⟩⟩

/-- The chips and the vector whose handler has not yet acknowledged it. -/
structure Lines where
  pics : Pics
  handling : Option Nat

inductive LinesLabel where
  /-- A device raises its line. -/
  | raise (n : Nat)
  /-- The processor, with interrupts enabled, takes what the controllers offer. -/
  | deliver
  /-- `irq_handler` has run the device's handler and calls `pic_send_eoi`; until then interrupts are
  disabled. -/
  | acknowledge
  deriving DecidableEq, Repr

inductive LinesEvent where
  | raised (n : Nat)
  | delivered (v : Nat)
  deriving DecidableEq, Repr

namespace Lines

/-- After `pic_init`. -/
def boot (s : Pics) : Lines := { pics := s.picInit, handling := none }

def step (s : Lines) : LinesLabel → Option Lines
  | .raise n => if IsLine n then some { s with pics := s.pics.raise n } else none
  | .deliver =>
      if s.handling = none then s.pics.acknowledge.map fun a => { pics := a.2, handling := some a.1 }
      else none
  | .acknowledge => s.handling.map fun v => { pics := s.pics.picSendEoi (v - 32), handling := none }

def observe (s : Lines) : LinesLabel → List LinesEvent
  | .raise n => [.raised n]
  | .deliver => (s.pics.acknowledge.map fun a => LinesEvent.delivered a.1).toList
  | .acknowledge => []

end Lines

/-- Line `n` has been raised since it was last delivered. -/
def unanswered (n : Nat) (es : List LinesEvent) : Bool :=
  es.foldl (fun b e => match e with
    | .raised m => b || decide (m = n)
    | .delivered v => b && decide (v ≠ 32 + n)) false

/-- The order in which the chips serve the lines: the slave's stand between 1 and 3. -/
def rank (n : Nat) : Nat := if n < 2 then n else if 8 ≤ n then n - 6 else n + 7

namespace Pics

def request (s : Pics) (n : Nat) : Bool := if n < 8 then s.master.irr n else s.slave.irr (n - 8)

/-- Neither the line nor the line that it comes through is masked. -/
def isOpen (s : Pics) (n : Nat) : Bool :=
  if n < 8 then !s.master.imr.getLsbD n else !s.slave.imr.getLsbD (n - 8) && !s.master.imr.getLsbD 2

/-- Nothing is in service. -/
structure Idle (s : Pics) : Prop where
  master : ∀ i, s.master.isr i = false
  slave : ∀ i, s.slave.isr i = false

/-- As `pic_init` has left the chips, but for requests and services. -/
structure Initialised (s : Pics) (masks : Pics) : Prop where
  masterOffset : s.master.offset = 32
  slaveOffset : s.slave.offset = 40
  masterCascade : s.master.cascade = 4
  slaveCascade : s.slave.cascade = 2
  masterMask : s.master.imr = masks.master.imr
  slaveMask : s.slave.imr = masks.slave.imr

/-- Exactly line `n` is in service. -/
structure Serves (s : Pics) (n : Nat) : Prop where
  master : ∀ i, s.master.isr i = decide (i = if n < 8 then n else 2)
  slave : ∀ i, s.slave.isr i = decide (8 ≤ n ∧ i = n - 8)

end Pics

theorem Pic.interrupt_idle {p : Pic} (h : ∀ i, p.isr i = false) :
    p.interrupt = (List.range 8).find? fun i => p.irr i && !p.imr.getLsbD i := by
  have hall : (fun i => (List.range 8).all fun j => !p.isr j || decide (i < j)) = fun _ => true := by
    funext i
    simp [h]
  unfold Pic.interrupt
  rw [hall]
  cases (List.range 8).find? fun i => p.irr i && !p.imr.getLsbD i <;> rfl

/-- A chip with nothing in service offers the first request that is not masked. -/
theorem Pic.interrupt_eq_some {p : Pic} (h : ∀ i, p.isr i = false) (i : Nat) : p.interrupt = some i ↔
    i < 8 ∧ (p.irr i = true ∧ p.imr.getLsbD i = false) ∧
      ∀ j < i, p.irr j = true → p.imr.getLsbD j = true := by
  rw [Pic.interrupt_idle h, List.find?_range_eq_some]
  simp
  grind

theorem Pic.interrupt_eq_none {p : Pic} (h : ∀ i, p.isr i = false) : p.interrupt = none ↔
    ∀ j < 8, p.irr j = true → p.imr.getLsbD j = true := by
  rw [Pic.interrupt_idle h, List.find?_range_eq_none]
  simp
  grind

namespace Pics

variable {s s' masks : Pics} {n v : Nat}

theorem cascaded_irr (s : Pics) (i : Nat) :
    s.cascaded.irr i = if i = 2 then s.slave.interrupt.isSome else s.master.irr i := Function.update_apply ..

/-- What the processor is told, once the handler before has acknowledged its own. -/
theorem acknowledge_cases (hidle : s.Idle) (hinit : s.Initialised masks) :
    s.acknowledge = none ∧ s.cascaded.interrupt = none ∨
      (∃ j, s.cascaded.interrupt = some 2 ∧ s.slave.interrupt = some j ∧
        s.acknowledge = some (40 + j, { master := s.master.acknowledge 2, slave := s.slave.acknowledge j })) ∨
      ∃ i, i ≠ 2 ∧ s.cascaded.interrupt = some i ∧
        s.acknowledge = some (32 + i, { s with master := s.master.acknowledge i }) := by
  unfold acknowledge
  cases hi : s.cascaded.interrupt with
  | none => exact .inl ⟨rfl, rfl⟩
  | some i =>
      right
      have hcascade : s.master.cascade.getLsbD i ∧ s.slave.cascade.toNat % 8 = i ↔ i = 2 := by
        rw [hinit.masterCascade, hinit.slaveCascade]
        constructor
        · exact fun h => h.2.symm
        · rintro rfl
          decide
      by_cases htwo : i = 2
      · left
        subst htwo
        have hsome : s.slave.interrupt.isSome := by
          have hirr := ((Pic.interrupt_eq_some (p := s.cascaded) hidle.master 2).mp hi).2.1.1
          rwa [cascaded_irr, if_pos rfl] at hirr
        obtain ⟨j, hj⟩ := Option.isSome_iff_exists.mp hsome
        refine ⟨j, rfl, hj, ?_⟩
        show (if _ then _ else _) = _
        rw [if_pos (hcascade.mpr rfl), hj, hinit.slaveOffset]
        rfl
      · right
        refine ⟨i, htwo, rfl, ?_⟩
        show (if _ then _ else _) = _
        rw [if_neg (htwo ∘ hcascade.mp), hinit.masterOffset]

/-- The chips answer the request that comes first, with the vector of its line. -/
structure Answers (s : Pics) (v : Nat) (s' : Pics) (n : Nat) : Prop where
  line : IsLine n
  vector : v = 32 + n
  request : s.request n = true
  isOpen : s.isOpen n = true
  first : ∀ m, IsLine m → s.request m = true → s.isOpen m = true → rank n ≤ rank m
  serves : s'.Serves n
  requests : ∀ m, IsLine m → s'.request m = (s.request m && decide (m ≠ n))

theorem acknowledge_initialised (hidle : s.Idle) (hinit : s.Initialised masks)
    (h : s.acknowledge = some (v, s')) : s'.Initialised masks := by
  obtain ⟨hnone, -⟩ | ⟨j, -, -, hsome⟩ | ⟨i, -, -, hsome⟩ := acknowledge_cases hidle hinit
  · rw [hnone] at h
    cases h
  · rw [hsome] at h
    cases h
    exact ⟨hinit.1, hinit.2, hinit.3, hinit.4, hinit.5, hinit.6⟩
  · rw [hsome] at h
    cases h
    exact ⟨hinit.1, hinit.2, hinit.3, hinit.4, hinit.5, hinit.6⟩

theorem acknowledge_answers (hidle : s.Idle) (hinit : s.Initialised masks)
    (h : s.acknowledge = some (v, s')) : ∃ n, s.Answers v s' n := by
  obtain ⟨hnone, -⟩ | ⟨j, hmaster, hslave, hsome⟩ | ⟨i, hne, hmaster, hsome⟩ := acknowledge_cases hidle hinit
  · rw [hnone] at h
    cases h
  · -- a line of the slave
    rw [hsome] at h
    cases h
    obtain ⟨-, ⟨-, hopen⟩, hbefore⟩ := (Pic.interrupt_eq_some (p := s.cascaded) hidle.master 2).mp hmaster
    obtain ⟨hj, ⟨hrequest, hmask⟩, hbefore'⟩ := (Pic.interrupt_eq_some hidle.slave j).mp hslave
    have hopen' : s.master.imr.getLsbD 2 = false := hopen
    refine ⟨8 + j, ?_⟩
    constructor
    case line => exact ⟨by omega, by omega⟩
    case vector => omega
    case request =>
      unfold request
      rw [if_neg (by omega), Nat.add_sub_cancel_left]
      exact hrequest
    case isOpen =>
      unfold isOpen
      rw [if_neg (by omega), Nat.add_sub_cancel_left, hmask, hopen']
      rfl
    case first =>
      intro m hm hreq hmopen
      obtain ⟨hlt, hm2⟩ := hm
      have hrank : rank (8 + j) = 2 + j := by
        unfold rank
        rw [if_neg (by omega), if_pos (by omega)]
        omega
      rw [hrank]
      unfold request at hreq
      unfold isOpen at hmopen
      by_cases hslaveLine : m < 8
      · rw [if_pos hslaveLine] at hreq hmopen
        by_cases hfirst : m < 2
        · -- it would have come before the slave
          have hmasked := hbefore m hfirst (by rw [cascaded_irr, if_neg (by omega)]; exact hreq)
          have hmasked' : s.master.imr.getLsbD m = true := hmasked
          rw [hmasked'] at hmopen
          cases hmopen
        · unfold rank
          rw [if_neg hfirst, if_neg (by omega)]
          omega
      · rw [if_neg hslaveLine] at hreq hmopen
        by_cases hbeforeJ : m - 8 < j
        · rw [hbefore' (m - 8) hbeforeJ hreq] at hmopen
          cases hmopen
        · unfold rank
          rw [if_neg (by omega), if_pos (by omega)]
          omega
    case serves =>
      constructor
      · intro k
        show Function.update s.master.isr 2 true k = _
        rw [Function.update_apply, hidle.master, if_neg (show ¬8 + j < 8 by omega)]
        by_cases hk : k = 2 <;> simp [hk]
      · intro k
        show Function.update s.slave.isr j true k = _
        rw [Function.update_apply, hidle.slave, Nat.add_sub_cancel_left]
        by_cases hk : k = j <;> simp [hk]
    case requests =>
      intro m hm
      obtain ⟨hlt, hm2⟩ := hm
      unfold request
      by_cases hslaveLine : m < 8
      · rw [if_pos hslaveLine, if_pos hslaveLine]
        show Function.update s.master.irr 2 false m = _
        rw [Function.update_of_ne hm2, decide_eq_true (show m ≠ 8 + j by omega), Bool.and_true]
      · rw [if_neg hslaveLine, if_neg hslaveLine]
        show Function.update s.slave.irr j false (m - 8) = _
        rw [Function.update_apply]
        by_cases hmj : m - 8 = j
        · rw [if_pos hmj, decide_eq_false (show ¬m ≠ 8 + j by omega), Bool.and_false]
        · rw [if_neg hmj, decide_eq_true (show m ≠ 8 + j by omega), Bool.and_true]
  · -- a line of the master
    rw [hsome] at h
    cases h
    obtain ⟨hi, ⟨hrequest, hmask⟩, hbefore⟩ := (Pic.interrupt_eq_some (p := s.cascaded) hidle.master i).mp hmaster
    rw [cascaded_irr, if_neg hne] at hrequest
    have hmask' : s.master.imr.getLsbD i = false := hmask
    refine ⟨i, ?_⟩
    constructor
    case line => exact ⟨by omega, hne⟩
    case vector => rfl
    case request =>
      unfold request
      rw [if_pos hi]
      exact hrequest
    case isOpen =>
      unfold isOpen
      rw [if_pos hi, hmask']
      rfl
    case first =>
      intro m hm hreq hmopen
      obtain ⟨hlt, hm2⟩ := hm
      unfold request at hreq
      unfold isOpen at hmopen
      by_cases hslaveLine : m < 8
      · rw [if_pos hslaveLine] at hreq hmopen
        by_cases hbeforeI : m < i
        · have hmasked := hbefore m hbeforeI (by rw [cascaded_irr, if_neg hm2]; exact hreq)
          have hmasked' : s.master.imr.getLsbD m = true := hmasked
          rw [hmasked'] at hmopen
          cases hmopen
        · grind [rank]
      · rw [if_neg hslaveLine, Bool.and_eq_true, Bool.not_eq_true', Bool.not_eq_true'] at hmopen
        rw [if_neg hslaveLine] at hreq
        by_cases hfirst : i < 2
        · unfold rank
          rw [if_pos hfirst, if_neg (by omega), if_pos (by omega)]
          omega
        · -- the slave has a request that is not masked, and its line comes first
          have hsome : s.slave.interrupt ≠ none := by
            intro hnone
            have hmasked := (Pic.interrupt_eq_none hidle.slave).mp hnone (m - 8) (by omega) hreq
            rw [hmasked] at hmopen
            cases hmopen.1
          have hmasked := hbefore 2 (by omega) (by
            rw [cascaded_irr, if_pos rfl]
            exact Option.isSome_iff_ne_none.mpr hsome)
          have hmasked' : s.master.imr.getLsbD 2 = true := hmasked
          rw [hmasked'] at hmopen
          cases hmopen.2
    case serves =>
      constructor
      · intro k
        show Function.update s.master.isr i true k = _
        rw [Function.update_apply, hidle.master, if_pos hi]
        by_cases hk : k = i <;> simp [hk]
      · intro k
        rw [decide_eq_false (by omega)]
        exact hidle.slave k
    case requests =>
      intro m hm
      unfold request
      by_cases hslaveLine : m < 8
      · rw [if_pos hslaveLine, if_pos hslaveLine]
        show Function.update s.master.irr i false m = _
        rw [Function.update_apply]
        by_cases hmi : m = i
        · rw [if_pos hmi, decide_eq_false (not_not.mpr hmi), Bool.and_false]
        · rw [if_neg hmi, decide_eq_true hmi, Bool.and_true]
      · rw [if_neg hslaveLine, if_neg hslaveLine, decide_eq_true (show m ≠ i by omega), Bool.and_true]

/-- A request that nothing masks is offered. -/
theorem acknowledge_isSome (hidle : s.Idle) (hinit : s.Initialised masks) (hline : IsLine n)
    (hrequest : s.request n = true) (hopen : s.isOpen n = true) : s.acknowledge.isSome := by
  obtain ⟨-, hnone⟩ | ⟨j, -, -, hsome⟩ | ⟨i, -, -, hsome⟩ := acknowledge_cases hidle hinit
  · have hall := (Pic.interrupt_eq_none (p := s.cascaded) hidle.master).mp hnone
    unfold request at hrequest
    unfold isOpen at hopen
    by_cases hmaster : n < 8
    · rw [if_pos hmaster] at hrequest hopen
      have hmasked := hall n hmaster (by rw [cascaded_irr, if_neg hline.ne]; exact hrequest)
      have hmasked' : s.master.imr.getLsbD n = true := hmasked
      rw [hmasked'] at hopen
      cases hopen
    · rw [if_neg hmaster] at hrequest
      rw [if_neg hmaster, Bool.and_eq_true, Bool.not_eq_true', Bool.not_eq_true'] at hopen
      have hlt := hline.lt
      have hslave : s.slave.interrupt ≠ none := by
        intro hslave
        have hmasked := (Pic.interrupt_eq_none hidle.slave).mp hslave (n - 8) (by omega) hrequest
        rw [hmasked] at hopen
        cases hopen.1
      have hmasked := hall 2 (by decide) (by
        rw [cascaded_irr, if_pos rfl]
        exact Option.isSome_iff_ne_none.mpr hslave)
      have hmasked' : s.master.imr.getLsbD 2 = true := hmasked
      rw [hmasked'] at hopen
      cases hopen.2
  · rw [hsome]
    rfl
  · rw [hsome]
    rfl

/-- A non-specific end of interrupt ends the one service there is. -/
theorem endOfInterrupt {p : Pic} {i : Nat} (hi : i < 8) (h : ∀ k, p.isr k = decide (k = i)) :
    p.writeCommand 0x20 = { p with isr := fun _ => false } := by
  have hfind : (List.range 8).find? p.isr = some i := by
    rw [List.find?_range_eq_some]
    refine ⟨by rw [h, decide_eq_true rfl], List.mem_range.mpr hi, fun j hj => ?_⟩
    rw [h, decide_eq_false (Nat.ne_of_lt hj)]
    rfl
  have hisr : Function.update p.isr i false = fun _ => false := by
    funext k
    rw [Function.update_apply, h]
    by_cases hk : k = i <;> simp [hk]
  have hicw1 : (0x20 : BitVec 8).getLsbD 4 = false := by decide
  unfold Pic.writeCommand
  rw [hicw1, if_neg Bool.false_ne_true, if_pos rfl, hfind]
  show { p with isr := Function.update p.isr i false } = _
  rw [hisr]

/-- `pic_send_eoi` for the line in service leaves nothing in service. -/
theorem picSendEoi_serves (h : s.Serves n) (hline : IsLine n) : s.picSendEoi n =
    { master := { s.master with isr := fun _ => false }, slave := { s.slave with isr := fun _ => false } } := by
  have hlt := hline.lt
  unfold picSendEoi
  by_cases hslave : 8 ≤ n
  · have hslaveIsr : ∀ k, s.slave.isr k = decide (k = n - 8) := by
      intro k
      rw [h.slave]
      simp [hslave]
    have hmasterIsr : ∀ k, s.master.isr k = decide (k = 2) := by
      intro k
      rw [h.master, if_neg (by omega)]
    rw [if_pos hslave]
    show { master := s.master.writeCommand 0x20, slave := s.slave.writeCommand 0x20 : Pics } = _
    rw [endOfInterrupt (by omega) hslaveIsr, endOfInterrupt (by decide) hmasterIsr]
  · have hmasterIsr : ∀ k, s.master.isr k = decide (k = n) := by
      intro k
      rw [h.master, if_pos (by omega)]
    have hslaveIsr : s.slave.isr = fun _ => false := by
      funext k
      rw [h.slave, decide_eq_false (by omega)]
    rw [if_neg hslave]
    show { master := s.master.writeCommand 0x20, slave := s.slave : Pics } = _
    rw [endOfInterrupt (by omega) hmasterIsr, ← hslaveIsr]

theorem request_raise (hline : IsLine n) {m : Nat} : (s.raise n).request m =
    (s.request m || decide (n = m)) := by
  have hlt := hline.lt
  unfold raise request
  by_cases hn : n < 8 <;> by_cases hm : m < 8
  · rw [if_pos hn, if_pos hm, if_pos hm]
    show Function.update s.master.irr n true m = _
    rw [Function.update_apply]
    by_cases hmn : m = n
    · rw [if_pos hmn, decide_eq_true hmn.symm, Bool.or_true]
    · rw [if_neg hmn, decide_eq_false (Ne.symm hmn), Bool.or_false]
  · rw [if_pos hn, if_neg hm, if_neg hm, decide_eq_false (by omega), Bool.or_false]
  · rw [if_neg hn, if_pos hm, if_pos hm, decide_eq_false (by omega), Bool.or_false]
  · rw [if_neg hn, if_neg hm, if_neg hm]
    show Function.update s.slave.irr (n - 8) true (m - 8) = _
    rw [Function.update_apply]
    by_cases hmn : m - 8 = n - 8
    · rw [if_pos hmn, decide_eq_true (by omega), Bool.or_true]
    · rw [if_neg hmn, decide_eq_false (by omega), Bool.or_false]

end Pics

/-! ## Runs -/

theorem unanswered_raised (es : List LinesEvent) (n m : Nat) :
    unanswered n (es ++ [.raised m]) = (unanswered n es || decide (m = n)) := List.foldl_append

theorem unanswered_delivered (es : List LinesEvent) (n v : Nat) :
    unanswered n (es ++ [.delivered v]) = (unanswered n es && decide (v ≠ 32 + n)) := List.foldl_append

/-- Vector `v` has been delivered after `es`, rightly: its line was the first of those that had a request and
were not masked. -/
structure RightlyDelivered (masks : Pics) (es : List LinesEvent) (v n : Nat) : Prop where
  line : IsLine n
  vector : v = 32 + n
  unanswered : unanswered n es = true
  isOpen : masks.isOpen n = true
  first : ∀ m, IsLine m → Neox.unanswered m es = true → masks.isOpen m = true → rank n ≤ rank m

/-- Every delivery in the history. -/
def AllRight (masks : Pics) (es : List LinesEvent) : Prop :=
  ∀ fs v gs, es = fs ++ .delivered v :: gs → ∃ n, RightlyDelivered masks fs v n

/-- What holds between two steps. -/
structure LinesInv (masks : Pics) (es : List LinesEvent) (s : Lines) : Prop where
  initialised : s.pics.Initialised masks
  idle : s.handling = none → s.pics.Idle
  serves : ∀ v, s.handling = some v → ∃ n, IsLine n ∧ v = 32 + n ∧ s.pics.Serves n
  requests : ∀ n, IsLine n → s.pics.request n = unanswered n es
  right : AllRight masks es

theorem AllRight.snoc {masks : Pics} {es : List LinesEvent} {e : LinesEvent} (h : AllRight masks es)
    (he : ∀ v, e = .delivered v → ∃ n, RightlyDelivered masks es v n) : AllRight masks (es ++ [e]) := by
  intro fs v gs heq
  cases gs using List.reverseRecOn with
  | nil =>
      obtain ⟨rfl, hlast⟩ := List.append_inj' heq rfl
      exact he v (List.singleton_inj.mp hlast)
  | append_singleton gs g _ =>
      rw [← List.cons_append, ← List.append_assoc] at heq
      exact h fs v gs (List.append_inj' heq rfl).1

namespace Lines

variable {masks : Pics} {es : List LinesEvent} {s s' : Lines} {l : LinesLabel}

theorem isOpen_eq (h : s.pics.Initialised masks) (n : Nat) : s.pics.isOpen n = masks.isOpen n := by
  unfold Pics.isOpen
  rw [h.masterMask, h.slaveMask]

theorem boot_inv (masks : Pics) : LinesInv masks [] (boot masks) := by
  have hpics : (boot masks).pics =
      ⟨Pics.initialised masks.master 32 4, Pics.initialised masks.slave 40 2⟩ := Pics.picInit_eq masks
  constructor
  case initialised =>
    rw [hpics]
    exact ⟨rfl, rfl, rfl, rfl, rfl, rfl⟩
  case idle =>
    intro _
    rw [hpics]
    exact ⟨fun _ => rfl, fun _ => rfl⟩
  case serves =>
    intro v hv
    cases hv
  case requests =>
    intro n _
    rw [hpics]
    unfold Pics.request
    split <;> rfl
  case right =>
    intro fs v gs heq
    simp at heq

theorem inv_raise {n : Nat} (h : LinesInv masks es s) (hline : IsLine n) :
    LinesInv masks (es ++ [.raised n]) { s with pics := s.pics.raise n } := by
  -- the line's chip notes the request and nothing else
  have hmaster : (s.pics.raise n).master.isr = s.pics.master.isr := by
    unfold Pics.raise
    split <;> rfl
  have hslave : (s.pics.raise n).slave.isr = s.pics.slave.isr := by
    unfold Pics.raise
    split <;> rfl
  constructor
  case initialised =>
    have hinit := h.initialised
    show (s.pics.raise n).Initialised masks
    unfold Pics.raise
    split <;> exact ⟨hinit.1, hinit.2, hinit.3, hinit.4, hinit.5, hinit.6⟩
  case idle =>
    intro hnone
    obtain ⟨hm, hs⟩ := h.idle hnone
    constructor
    · intro i
      show (s.pics.raise n).master.isr i = false
      rw [hmaster, hm]
    · intro i
      show (s.pics.raise n).slave.isr i = false
      rw [hslave, hs]
  case serves =>
    intro v hv
    obtain ⟨m, hm, rfl, hserves⟩ := h.serves v hv
    refine ⟨m, hm, rfl, ?_⟩
    constructor
    · intro i
      show (s.pics.raise n).master.isr i = _
      rw [hmaster, hserves.master]
    · intro i
      show (s.pics.raise n).slave.isr i = _
      rw [hslave, hserves.slave]
  case requests =>
    intro m hm
    show (s.pics.raise n).request m = _
    rw [Pics.request_raise hline, unanswered_raised, h.requests m hm]
  case right =>
    apply h.right.snoc
    intro v hv
    cases hv

theorem inv_deliver {v : Nat} {pics : Pics} (h : LinesInv masks es s) (hnone : s.handling = none)
    (hack : s.pics.acknowledge = some (v, pics)) :
    LinesInv masks (es ++ [.delivered v]) { pics := pics, handling := some v } := by
  obtain ⟨n, hanswers⟩ := Pics.acknowledge_answers (h.idle hnone) h.initialised hack
  constructor
  case initialised => exact Pics.acknowledge_initialised (h.idle hnone) h.initialised hack
  case idle =>
    intro hhandling
    cases hhandling
  case serves =>
    intro w hw
    cases hw
    exact ⟨n, hanswers.line, hanswers.vector, hanswers.serves⟩
  case requests =>
    intro m hm
    rw [unanswered_delivered, ← h.requests m hm, hanswers.vector]
    show pics.request m = _
    rw [hanswers.requests m hm]
    congr 1
    grind
  case right =>
    apply h.right.snoc
    intro w hw
    cases hw
    refine ⟨n, hanswers.line, hanswers.vector, ?_, ?_, ?_⟩
    · rw [← h.requests n hanswers.line, hanswers.request]
    · rw [← isOpen_eq h.initialised, hanswers.isOpen]
    · intro m hm hreq hopen
      apply hanswers.first m hm
      · rw [h.requests m hm, hreq]
      · rw [isOpen_eq h.initialised, hopen]

theorem inv_acknowledge {v : Nat} (h : LinesInv masks es s) (hv : s.handling = some v) :
    LinesInv masks es { pics := s.pics.picSendEoi (v - 32), handling := none } := by
  obtain ⟨n, hline, rfl, hserves⟩ := h.serves v hv
  rw [Nat.add_sub_cancel_left, Pics.picSendEoi_serves hserves hline]
  have hinit := h.initialised
  constructor
  case initialised => exact ⟨hinit.1, hinit.2, hinit.3, hinit.4, hinit.5, hinit.6⟩
  case idle => exact fun _ => ⟨fun _ => rfl, fun _ => rfl⟩
  case serves =>
    intro w hw
    cases hw
  case requests => exact h.requests
  case right => exact h.right

theorem inv_step (h : LinesInv masks es s) (hstep : step s l = some s') :
    LinesInv masks (es ++ observe s l) s' := by
  cases l with
  | raise n =>
      change (if IsLine n then some { s with pics := s.pics.raise n } else none) = some s' at hstep
      by_cases hline : IsLine n
      · rw [if_pos hline] at hstep
        cases hstep
        exact inv_raise h hline
      · rw [if_neg hline] at hstep
        cases hstep
  | deliver =>
      change (if s.handling = none then s.pics.acknowledge.map fun a => Lines.mk a.2 (some a.1)
        else none) = some s' at hstep
      by_cases hnone : s.handling = none
      · rw [if_pos hnone] at hstep
        obtain ⟨⟨v, pics⟩, hack, rfl⟩ := Option.map_eq_some_iff.mp hstep
        have hobserve : observe s .deliver = [.delivered v] := by
          show (s.pics.acknowledge.map fun a => LinesEvent.delivered a.1).toList = _
          rw [hack]
          rfl
        rw [hobserve]
        exact inv_deliver h hnone hack
      · rw [if_neg hnone] at hstep
        cases hstep
  | acknowledge =>
      obtain ⟨v, hv, rfl⟩ := Option.map_eq_some_iff.mp hstep
      show LinesInv masks (es ++ []) _
      rw [List.append_nil]
      exact inv_acknowledge h hv

/-- The run of the controllers from `pic_init`, whatever the devices do: each request that is not masked is
delivered, once, with the vector of its line and before those of lower priority; no request is lost, and when the
handler has acknowledged its interrupt the next can come. -/
theorem interrupts_answered (hrun : Observed step (fun _ _ => True) observe (boot masks) es s) :
    AllRight masks es ∧ (∀ n, IsLine n → s.pics.request n = unanswered n es) ∧
      (s.handling = none → s.pics.Idle ∧
        ∀ n, IsLine n → unanswered n es = true → masks.isOpen n = true → (step s .deliver).isSome) := by
  have hinv : LinesInv masks es s := hrun.invariant (boot_inv masks) fun h _ hstep => inv_step h hstep
  refine ⟨hinv.right, hinv.requests, fun hnone => ⟨hinv.idle hnone, ?_⟩⟩
  intro n hline hunanswered hopen
  have hrequest : s.pics.request n = true := by rw [hinv.requests n hline, hunanswered]
  have hopen' : s.pics.isOpen n = true := by rw [isOpen_eq hinv.initialised, hopen]
  have hsome := Pics.acknowledge_isSome (hinv.idle hnone) hinv.initialised hline hrequest hopen'
  show (if s.handling = none then _ else none : Option Lines).isSome
  rw [if_pos hnone, Option.isSome_map]
  exact hsome

/-- Chips after a reset, with no line masked. -/
def unmasked : Pics := { master := Pics.initialised chip 0 0, slave := Pics.initialised chip 0 0 }
  where chip : Pic := ⟨.ready, false, true, 0, 0, 0, fun _ => false, fun _ => false⟩

/-- The keyboard and then the clock chip of the slave: vector 33 comes first, and 40 when 33 is acknowledged. -/
theorem interrupts_answered_keyboard : ∃ s : Lines, s.pics.Idle ∧
    AllRight unmasked [.raised 8, .raised 1, .delivered 33, .delivered 40] := by
  have hwatch : ∃ s : Lines, s.handling = none ∧ watch step (fun _ _ => True) observe (boot unmasked)
      [.raise 8, .raise 1, .deliver, .acknowledge, .deliver, .acknowledge] =
        some ([.raised 8, .raised 1, .delivered 33, .delivered 40], s) := ⟨_, rfl, rfl⟩
  obtain ⟨s, hnone, hs⟩ := hwatch
  obtain ⟨hright, -, hidle⟩ := interrupts_answered (observed_of_watch hs)
  exact ⟨s, (hidle hnone).1, hright⟩

end Lines

end Neox
