import Neox.Arch.ContextRuns
import Neox.Arch.UserMode

/-!
# Threads that share the processor

The programs of all processes on one processor: Ring 3 code that runs between interrupts, interrupts and system
calls, the kernel's code in between, and `scheduler_switch`, in any order and number. Each process has its
memory below `KERNEL_VIRT_BASE`, which the processor sees while the process's page directory is loaded; the
kernel's memory is above it in all of them. Of the C code it is assumed that it keeps its own stack discipline
and does not write the memory of the programs, a system call apart.

* `Process.act`: a process on its own, with no kernel and no other process.
* `time_sharing`: what the processor runs in Ring 3 is what its process computes on its own.
-/

namespace Neox.Trap

open Bytes Processor Transition

/-! ## A process on its own -/

/-- Code of Ring 3. The pages above `KERNEL_VIRT_BASE` are not its to write. -/
structure UserCode (stubs : Stubs) extends Program stubs (· < kernelVirtBase) where
  confined : ∀ c d, Ring3 stubs c → step c = some d → ∀ x, kernelVirtBase ≤ x → d.mem x = c.mem x

/-- What the threads of a process do, and what the kernel does to it. -/
inductive Action where
  /-- Thread `t` enters Ring 3. -/
  | started (t : Nat) (c : Processor)
  /-- Thread `t` executes an instruction. -/
  | stepped (t : Nat)
  /-- A system call of thread `t` returns `w`. -/
  | answered (t : Nat) (w : BitVec 32)
  /-- An `exec` of thread `t` succeeds. -/
  | executed (t : Nat) (entry esp : BitVec 32)
  /-- The kernel writes the memory of the process: a program is loaded, or a system call stores its result. -/
  | written (mem : Block)
  | ended (t : Nat)

/-- The memory of a process and the registers of its threads in Ring 3. -/
structure Process where
  memory : Block
  threads : Nat → Option Processor

namespace Process

/-- The processor as it runs a thread of the process. -/
def running (v : Process) (c : Processor) : Processor := { c with mem := v.memory }

def setThread (v : Process) (t : Nat) (c : Option Processor) : Process :=
  { v with threads := Function.update v.threads t c }

def act {stubs : Stubs} (p : UserCode stubs) (v : Process) : Action → Option Process
  | .started t c => some (v.setThread t (some c))
  | .stepped t => do
      let c ← v.threads t
      let d ← p.step (v.running c)
      return { v.setThread t (some d) with memory := d.mem }
  | .answered t w => (v.threads t).map fun c => v.setThread t (some (c.setGpr .eax w))
  | .executed t entry esp => (v.threads t).map fun c =>
      v.setThread t (some { (c.setGpr .eax 0).setGpr .esp esp with eip := entry })
  | .written mem => some { v with memory := mem }
  | .ended t => some (v.setThread t none)

def run {stubs : Stubs} (p : UserCode stubs) (v : Process) (as : List Action) : Option Process :=
  as.foldlM (act p) v

end Process

/-- The actions of a process among those of all. -/
def actionsOf (pid : Nat) (es : List (Nat × Action)) : List Action :=
  (es.filter fun e => e.1 = pid).map Prod.snd

/-! ## `context_switch` on the processor -/

/-- The register that `context.asm` calls by this name. -/
def gprOf : Reg → Gpr
  | .eax => .eax
  | .ebx => .ebx
  | .ebp => .ebp
  | .esi => .esi
  | .edi => .edi
  | .esp => .esp

namespace Processor

/-- What `context.asm` works on. -/
def cpu (c : Processor) : Cpu where
  reg r := (c.gpr (gprOf r)).toNat
  eip := c.eip.toNat
  mem := c.mem
  word r := (c.gpr (gprOf r)).isLt

/-- Run a routine of `context.asm`. -/
def runContext (c : Processor) (code : List Instruction) : Processor :=
  let k := c.cpu.run code
  { c with
    gpr := fun
      | .eax => BitVec.ofNat 32 (k.reg .eax)
      | .ebx => BitVec.ofNat 32 (k.reg .ebx)
      | .ebp => BitVec.ofNat 32 (k.reg .ebp)
      | .esi => BitVec.ofNat 32 (k.reg .esi)
      | .edi => BitVec.ofNat 32 (k.reg .edi)
      | .esp => BitVec.ofNat 32 (k.reg .esp)
      | .ecx => c.gpr .ecx
      | .edx => c.gpr .edx
    eip := BitVec.ofNat 32 k.eip
    mem := k.mem }

end Processor

/-! ## The machine -/

/-- `kernel_stack` and `kernel_sp`, and `process`. -/
structure SharingThread where
  kernel : KernelThread
  process : Option Nat

/-- A handler at work: its event, whether it has interrupted Ring 3, and the stack pointer it was entered
with. -/
structure Handler where
  event : Event
  ring3 : Bool
  esp : BitVec 32

/-- The lowest address of the stack that is not the running code's own: what it has interrupted is saved from
there on. -/
def SharingThread.base (k : SharingThread) : List Handler → Nat
  | [] => k.kernel.top
  | h :: _ => h.esp.toNat + 4

structure Sharing where
  /-- with memory as the loaded page directory shows it -/
  cpu : Processor
  /-- in the TSS -/
  esp0 : BitVec 32
  /-- the process whose page directory is loaded, if it is not the kernel's -/
  loaded : Option Nat
  /-- memory below `KERNEL_VIRT_BASE` in the page directories that are not loaded -/
  spaces : Option Nat → Block
  /-- none before `scheduler_enter_idle` -/
  current : Option Nat
  threads : Nat → Option SharingThread
  /-- the handlers at work on the stack of each thread, the one entered last first -/
  handlers : Nat → List Handler
  /-- how each thread was created, and the calls of `context_switch` -/
  calls : List SwitchEvent
  /-- every call of `context_switch` so far has returned to its caller -/
  intact : Prop

inductive SharingLabel where
  /-- An instruction of Ring 3. -/
  | user
  | interrupt (e : Event)
  /-- The handler entered last returns. -/
  | leave
  /-- The kernel's code computes up to this state of the processor. -/
  | compute (c : Processor)
  | create (t : Nat) (k : SharingThread) (frame : FirstFrame)
  | destroy (t : Nat)
  /-- `scheduler_switch` to this thread, up to the call of `context_switch` and through it. -/
  | switch (next : Nat)
  /-- The boot code has called `scheduler_enter_idle(idle->kernel_sp)`. -/
  | enterIdle (idle : Nat)
  /-- The running thread has called `jump_usermode`. -/
  | start
  /-- The kernel writes the memory of a process. -/
  | write (pid : Nat) (mem : Block)
  /-- `syscall_handler` stores its result. -/
  | answer (w : BitVec 32)
  /-- `sys_exec` commits. -/
  | exec (entry esp : BitVec 32)

namespace Sharing

/-- Memory below `KERNEL_VIRT_BASE` of one block and the rest of another. -/
def below (user kernel : Block) : Block := fun x => if x < kernelVirtBase then user x else kernel x

/-- The memory of a process, loaded or not. -/
def user (s : Sharing) (pid : Nat) : Block :=
  if s.loaded = some pid then s.cpu.mem else s.spaces (some pid)

def setMem (s : Sharing) (mem : Block) : Sharing := { s with cpu := { s.cpu with mem := mem } }

def setUser (s : Sharing) (pid : Nat) (mem : Block) : Sharing :=
  if s.loaded = some pid then s.setMem (below mem s.cpu.mem)
  else { s with spaces := Function.update s.spaces (some pid) mem }

/-- `paging_load_directory` of a process's directory. -/
def load (s : Sharing) (pid : Nat) : Sharing :=
  let spaces := Function.update s.spaces s.loaded s.cpu.mem
  { s.setMem (below (spaces (some pid)) s.cpu.mem) with
    loaded := some pid
    spaces := spaces }

/-- `scheduler_switch` up to the call of `context_switch`: the stack in the TSS is that of the next thread, and
so is the page directory unless it has no process. -/
def prepare (s : Sharing) (k : SharingThread) : Sharing :=
  let s := { s with esp0 := BitVec.ofNat 32 k.kernel.top }
  match k.process with
  | some pid => s.load pid
  | none => s

/-- A routine of `context.asm` leads to thread `next`. -/
def switchTo (code : CodeAddresses) (s : Sharing) (routine : List Instruction) (next : Nat) : Sharing :=
  { s with
    cpu := s.cpu.runContext routine
    current := some next
    intact := s.intact ∧ Resumes code s.calls next (s.cpu.runContext routine).cpu }

def setHandlers (s : Sharing) (t : Nat) (hs : List Handler) : Sharing :=
  { s with handlers := Function.update s.handlers t hs }

/-- The handler of the running thread stores words in its frame. -/
def store (s : Sharing) (ws : List (Nat × BitVec 32)) : Option Sharing := do
  let t ← s.current
  let h ← (s.handlers t).head?
  return s.setMem (stores s.cpu.mem (h.esp.toNat + 4) ws)

def step (stubs : Stubs) (code : CodeAddresses) (p : UserCode stubs) (s : Sharing) :
    SharingLabel → Option Sharing
  | .user => (p.step s.cpu).map fun c => { s with cpu := c }
  | .interrupt e => do
      let t ← s.current
      let d ← s.cpu.enter stubs (kernelTables stubs s.esp0) e
      return { s with cpu := d }.setHandlers t (⟨e, s.cpu.cpl = 3, d.gpr .esp⟩ :: s.handlers t)
  | .leave => do
      let t ← s.current
      let c ← s.cpu.leave (kernelTables stubs s.esp0)
      return { s with cpu := c }.setHandlers t (s.handlers t).tail
  | .compute c => some { s with cpu := c }
  | .create t k frame =>
      some { (s.setMem (firstFrame code k.kernel s.cpu.mem frame)).setHandlers t [] with
        threads := Function.update s.threads t (some k)
        calls := s.calls ++ [.created t frame] }
  | .destroy t => some { s with threads := Function.update s.threads t none }
  | .switch next => do
      let k ← s.threads next
      return { (s.prepare k).switchTo code contextSwitch next with
        calls := s.calls ++ s.current.toList.map (.called · (s.prepare k).cpu.cpu.caller) }
  | .enterIdle idle => some (s.switchTo code schedulerEnterIdle idle)
  | .start => (s.cpu.jump (kernelTables stubs s.esp0)).map fun c => { s with cpu := c }
  | .write pid mem => some (s.setUser pid mem)
  | .answer w => s.store [(11, w)]
  | .exec entry esp => s.store (execStores entry esp)

/-- An action of the running thread. -/
def acted (s : Sharing) (action : Nat → Action) : List (Nat × Action) :=
  s.current.toList.flatMap fun t =>
    ((s.threads t).bind SharingThread.process).toList.map fun pid => (pid, action t)

/-- The actions of the processes. -/
def observe (stubs : Stubs) (s : Sharing) : SharingLabel → List (Nat × Action)
  | .user => s.acted .stepped
  | .start => (s.cpu.jump (kernelTables stubs s.esp0)).toList.flatMap fun c => s.acted (.started · c)
  | .write pid mem => [(pid, .written mem)]
  | .answer w => s.acted (.answered · w)
  | .exec entry esp => s.acted (.executed · entry esp)
  | .destroy t => ((s.threads t).bind SharingThread.process).toList.map fun pid => (pid, .ended t)
  | _ => []

/-- Before any thread. -/
def boot (cpu : Processor) (esp0 : BitVec 32) (spaces : Option Nat → Block) : Sharing where
  cpu := cpu
  esp0 := esp0
  loaded := none
  spaces := spaces
  current := none
  threads _ := none
  handlers _ := []
  calls := []
  intact := True

end Sharing

/-! ## What the kernel's code keeps -/

/-- The processor runs the kernel's code. -/
structure KernelMode (stubs : Stubs) (c : Processor) : Prop where
  runs : c.Runs (kernelTables stubs 0)
  cs : c.seg .cs = 0x08
  ss : c.seg .ss = 0x10
  nested : c.eflags &&& eflagsNt = 0

namespace Sharing

/-- The kernel's code runs on the stack of thread `t`. -/
structure OnStack (s : Sharing) (t : Nat) (k : SharingThread) : Prop where
  cpl : s.cpu.cpl = 0
  current : s.current = some t
  thread : s.threads t = some k

/-- Thread `t` is in a system call, and in no other handler. -/
def InSyscall (s : Sharing) (t : Nat) : Prop := ∃ esp, s.handlers t = [⟨.software 0x80, true, esp⟩]

/-- The memory differs from that of `s` in the stack of the running thread at most, where nobody waits, and
outside all stacks and `kernel_sp` fields. -/
def Spares (s : Sharing) (mem : Block) : Prop :=
  ∀ t k, s.threads t = some k → (∀ x, k.kernel.HasCell x → mem x = s.cpu.mem x) ∧
    ∀ x, k.kernel.Has x → (s.current = some t → k.base (s.handlers t) ≤ x) → mem x = s.cpu.mem x

/-- The memory differs neither in the `kernel_sp` fields nor in the stacks of the other threads. -/
def SparesOthers (s : Sharing) (mem : Block) : Prop :=
  ∀ t k, s.threads t = some k → (∀ x, k.kernel.HasCell x → mem x = s.cpu.mem x) ∧
    (s.current ≠ some t → ∀ x, k.kernel.Has x → mem x = s.cpu.mem x)

/-- What each step asks of the code, as long as its calls of `context_switch` have returned. A handler
returns with the stack pointer that it was entered with; a new thread has a stack of its own; the memory of a
process is written in its system calls, or while none of its threads has entered Ring 3. -/
def Contract (stubs : Stubs) (s : Sharing) : SharingLabel → Prop
  | .user => s.cpu.cpl = 3
  | .interrupt e => s.cpu.cpl = 3 ∧ ((∃ n < 16, e = .line n) ∨ e = .software 0x80) ∨
      ∃ t k, s.OnStack t k ∧ (∃ n < 16, e = .line n) ∧
        k.kernel.kernelStack + 80 ≤ (s.cpu.gpr .esp).toNat ∧
        (s.cpu.gpr .esp).toNat ≤ k.base (s.handlers t)
  | .leave => ∃ t k h, s.OnStack t k ∧ (s.handlers t).head? = some h ∧ s.cpu.gpr .esp = h.esp
  | .compute c => s.cpu.cpl = 0 ∧ KernelMode stubs c ∧ (∀ x < kernelVirtBase, c.mem x = s.cpu.mem x) ∧
      s.Spares c.mem
  | .create t k _ => s.cpu.cpl = 0 ∧ s.threads t = none ∧ kernelVirtBase ≤ k.kernel.kernelStack ∧
      kernelVirtBase ≤ k.kernel.cell ∧ k.kernel.top < wordModulus ∧
      (k.kernel.cell + 4 ≤ k.kernel.kernelStack ∨ k.kernel.top ≤ k.kernel.cell) ∧
      ∀ u l, s.threads u = some l → Switching.Apart k.kernel l.kernel
  | .destroy t => s.cpu.cpl = 0 ∧ s.current ≠ some t
  | .switch next => ∃ t k l, s.OnStack t k ∧ t ≠ next ∧ s.threads next = some l ∧
      k.kernel.kernelStack + 16 ≤ (s.cpu.gpr .esp).toNat ∧
      (s.cpu.gpr .esp).toNat + 12 ≤ k.base (s.handlers t) ∧
      read32 s.cpu.mem ((s.cpu.gpr .esp).toNat + 4) = k.kernel.cell ∧
      read32 s.cpu.mem ((s.cpu.gpr .esp).toNat + 8) = read32 s.cpu.mem l.kernel.cell
  | .enterIdle idle => s.cpu.cpl = 0 ∧ s.current = none ∧ ∃ l, s.threads idle = some l ∧
      l.process = none ∧ (s.cpu.gpr .esp).toNat + 8 ≤ wordModulus ∧
      read32 s.cpu.mem ((s.cpu.gpr .esp).toNat + 4) = read32 s.cpu.mem l.kernel.cell
  | .start => ∃ t k, s.OnStack t k ∧ k.process ≠ none ∧ s.handlers t = [] ∧
      k.kernel.kernelStack + 20 ≤ (s.cpu.gpr .esp).toNat ∧ (s.cpu.gpr .esp).toNat ≤ k.kernel.top
  | .write pid _ => s.cpu.cpl = 0 ∧ ((∃ t k, s.OnStack t k ∧ k.process = some pid ∧ s.InSyscall t) ∨
      ∀ t k, s.threads t = some k → k.process = some pid → ∀ h ∈ s.handlers t, h.ring3 = false)
  | .answer _ | .exec .. => ∃ t k, s.OnStack t k ∧ s.InSyscall t

def Permitted (stubs : Stubs) (s : Sharing) (label : SharingLabel) : Prop := s.intact → s.Contract stubs label

end Sharing

/-! ## `context_switch` on the processor -/

section Context

variable {c : Processor}

theorem cpu_run_eip {k : Cpu} (hk : k.eip < wordModulus) (code : List Instruction) :
    (k.run code).eip < wordModulus := by
  induction code generalizing k with
  | nil => exact hk
  | cons i code ih =>
      apply ih
      cases i with
      | ret => exact read32_lt k.mem (k.reg .esp)
      | _ => exact hk

/-- What `context.asm` computes is what the processor then has. -/
theorem cpu_runContext (c : Processor) (code : List Instruction) :
    (c.runContext code).cpu = c.cpu.run code := by
  have heip : (c.cpu.run code).eip < wordModulus := cpu_run_eip c.eip.isLt code
  have hreg : (c.runContext code).cpu.reg = (c.cpu.run code).reg := by
    funext r
    have hr := (c.cpu.run code).word r
    show ((c.runContext code).gpr (gprOf r)).toNat = _
    cases r <;> exact Nat.mod_eq_of_lt hr
  have heip' : (c.runContext code).cpu.eip = (c.cpu.run code).eip := Nat.mod_eq_of_lt heip
  have hmem : (c.runContext code).cpu.mem = (c.cpu.run code).mem := rfl
  generalize (c.runContext code).cpu = k at hreg heip' hmem
  generalize c.cpu.run code = l at hreg heip' hmem
  obtain ⟨reg, eip, mem, word⟩ := k
  obtain ⟨reg', eip', mem', word'⟩ := l
  cases hreg
  cases heip'
  cases hmem
  rfl

/-- The kernel stays in its mode. -/
theorem KernelMode.congr {stubs : Stubs} {d : Processor} (h : KernelMode stubs c) (hseg : d.seg = c.seg)
    (heflags : d.eflags = c.eflags) : KernelMode stubs d := by
  obtain ⟨hruns, hcs, hss, hnested⟩ := h
  have hcpl : d.cpl = c.cpl := congrArg (fun seg : Seg → BitVec 16 => rpl (seg .cs)) hseg
  refine ⟨⟨?_, ?_, ?_, ?_⟩, by rw [hseg, hcs], by rw [hseg, hss], by rw [heflags, hnested]⟩
  · rw [hcpl, hseg]
    exact hruns.code
  · rw [hcpl, hseg]
    exact hruns.stack
  · rw [hcpl, hseg]
    exact hruns.data
  · rw [heflags]
    exact hruns.flags

theorem KernelMode.cpl {stubs : Stubs} (h : KernelMode stubs c) : c.cpl = 0 := cpl_of_cs h.cs

theorem KernelMode.cpl_ne {stubs : Stubs} (h : KernelMode stubs c) : c.cpl ≠ 3 := by
  rw [h.cpl]
  decide

/-- A handler runs as kernel code. -/
theorem KernelMode.entered {stubs : Stubs} {d : Processor} {esp0 : BitVec 32} {e : Event}
    (h : c.Entered esp0 e d) (hss : c.cpl = 0 → c.seg .ss = 0x10) : KernelMode stubs d := by
  have hcpl : d.cpl = 0 := h.cpl
  refine ⟨⟨?_, fun hne => absurd hcpl hne, ?_, ?_⟩, h.cs, ?_, h.nested⟩
  · rw [hcpl, h.cs]
    exact kernelTables_codeFits stubs 0
  · intro s hs
    rw [hcpl, h.data s hs]
    exact kernelTables_dataFits stubs 0
  · have hclear : ~~~eflagsCleared &&& eflagsVm = 0#32 := by decide
    rw [h.eflags, BitVec.and_assoc, hclear, BitVec.and_zero]
    rfl
  · rw [h.ss]
    split
    · next hzero => exact hss hzero
    · rfl

end Context

/-! ## What is saved on a kernel stack -/

/-- The same registers. -/
abbrev Same (c d : Processor) : Prop := Agree (fun _ => False) c d

section Nested

variable {stubs : Stubs} {k : SharingThread} {mem mem' : Block} {h : Handler} {hs : List Handler}
  {c : Processor} {view : Option Processor}

/-- The frame of a handler is in place below `limit`, and shows `c`. -/
structure Waiting (k : SharingThread) (mem : Block) (limit : Nat) (h : Handler) (c : Processor)
    (esp0 : BitVec 32) (d : Processor) : Prop where
  entered : c.Entered esp0 h.event d
  low : k.kernel.kernelStack ≤ h.esp.toNat
  esp : d.gpr .esp = h.esp
  limit : (c.stackTop esp0).toNat ≤ limit
  kept : ∀ x, h.esp.toNat + 4 ≤ x → x < (c.stackTop esp0).toNat → mem x = d.mem x

/-- The handlers on the stack of a thread, and the program they have interrupted: `view`, if there is one. -/
inductive Nested (stubs : Stubs) (k : SharingThread) (mem : Block) : List Handler → Option Processor → Prop where
  | nil : Nested stubs k mem [] none
  | ring3 {h : Handler} {c v d : Processor} {esp0 : BitVec 32} (hring : Ring3 stubs c) (hh : h.ring3 = true)
      (hwaiting : Waiting k mem k.kernel.top h c esp0 d) (hsame : Same v c) :
      Nested stubs k mem [h] (some v)
  | kernel {h : Handler} {hs : List Handler} {c d : Processor} {esp0 : BitVec 32} {view : Option Processor}
      (hkernel : KernelMode stubs c) (hh : h.ring3 = false)
      (hwaiting : Waiting k mem (k.base hs) h c esp0 d) (hrest : Nested stubs k mem hs view) :
      Nested stubs k mem (h :: hs) view

theorem Waiting.esp_lt {limit : Nat} {esp0 : BitVec 32} {d : Processor}
    (hw : Waiting k mem limit h c esp0 d) : h.esp.toNat + 4 < (c.stackTop esp0).toNat := by
  have hesp := hw.entered.esp
  have hlen : 0 < (c.frame esp0 h.event).words.length := by
    rw [frame_length]
    split <;> decide
  rw [hw.esp] at hesp
  omega

theorem Waiting.congr {limit : Nat} {esp0 : BitVec 32} {d : Processor}
    (hw : Waiting k mem limit h c esp0 d)
    (hsame : ∀ x, h.esp.toNat + 4 ≤ x → x < limit → mem' x = mem x) :
    Waiting k mem' limit h c esp0 d := by
  refine ⟨hw.entered, hw.low, hw.esp, hw.limit, fun x hlo hhi => ?_⟩
  have hlimit := hw.limit
  exact (hsame x hlo (by omega)).trans (hw.kept x hlo hhi)

theorem Nested.base_le (hn : Nested stubs k mem hs view) : k.base hs ≤ k.kernel.top := by
  induction hn with
  | nil => exact Nat.le_refl _
  | ring3 _ _ hwaiting _ =>
      have hlt := hwaiting.esp_lt
      exact Nat.le_trans (Nat.le_of_lt hlt) hwaiting.limit
  | kernel _ _ hwaiting _ ih =>
      have hlt := hwaiting.esp_lt
      exact Nat.le_trans (Nat.le_trans (Nat.le_of_lt hlt) hwaiting.limit) ih

theorem Nested.le_base (hn : Nested stubs k mem hs view) : k.kernel.kernelStack ≤ k.base hs := by
  cases hn with
  | nil => exact Nat.le_add_right ..
  | ring3 _ _ hwaiting _ => exact Nat.le_trans hwaiting.low (Nat.le_add_right ..)
  | kernel _ _ hwaiting _ => exact Nat.le_trans hwaiting.low (Nat.le_add_right ..)

/-- Only what has been interrupted matters. -/
theorem Nested.congr (hn : Nested stubs k mem hs view)
    (hsame : ∀ x, k.base hs ≤ x → x < k.kernel.top → mem' x = mem x) : Nested stubs k mem' hs view := by
  induction hn with
  | nil => exact .nil
  | ring3 hring hh hwaiting hview => exact .ring3 hring hh (hwaiting.congr hsame) hview
  | kernel hkernel hh hwaiting hrest ih =>
      have hlt := hwaiting.esp_lt
      have hlimit := hwaiting.limit
      have hbase := hrest.base_le
      refine .kernel hkernel hh (hwaiting.congr fun x hlo hhi => ?_) (ih fun x hlo hhi => ?_)
      · exact hsame x hlo (by omega)
      · refine hsame x ?_ hhi
        show _ + 4 ≤ x
        omega

end Nested

/-! ## The machine and the processes on their own -/

/-- What a thread of a process does in Ring 3. -/
def seen (processes : Nat → Process) (t : Nat) (k : SharingThread) : Option Processor :=
  k.process.bind fun pid => (processes pid).threads t

/-- What `context.asm` has to do with. -/
def Sharing.switching (s : Sharing) : Switching where
  cpu := s.cpu.cpu
  current := s.current
  threads t := (s.threads t).map SharingThread.kernel

/-- The machine runs what the processes do on their own. -/
structure Shares (stubs : Stubs) (code : CodeAddresses) (s : Sharing) (processes : Nat → Process) : Prop where
  intact : s.intact
  tracked : Tracked code s.calls s.switching
  high : ∀ t k, s.threads t = some k → kernelVirtBase ≤ k.kernel.kernelStack ∧ kernelVirtBase ≤ k.kernel.cell ∧
    k.kernel.top < wordModulus
  current : ∀ t, s.current = some t → ∃ k, s.threads t = some k ∧
    ∀ pid, k.process = some pid → s.loaded = some pid ∧ s.esp0.toNat = k.kernel.top
  level : Ring3 stubs s.cpu ∧ s.current ≠ none ∨ KernelMode stubs s.cpu
  running : ∀ t k, s.current = some t → s.threads t = some k → s.cpu.cpl = 3 →
    s.handlers t = [] ∧ ∃ v, seen processes t k = some v ∧ Same v s.cpu
  waiting : ∀ t k, s.threads t = some k → (s.current = some t → s.cpu.cpl = 0) →
    Nested stubs k s.cpu.mem (s.handlers t) (seen processes t k)
  memory : ∀ pid x, x < kernelVirtBase → s.user pid x = (processes pid).memory x
  absent : ∀ pid t v, (processes pid).threads t = some v →
    ∃ k, s.threads t = some k ∧ k.process = some pid

section Shares

variable {stubs : Stubs} {code : CodeAddresses} {p : UserCode stubs} {s s' : Sharing}
  {processes : Nat → Process} {t : Nat} {k : SharingThread} {pid : Nat}

/-- In Ring 0 the processor runs the kernel's code. -/
theorem Shares.kernelMode (h : Shares stubs code s processes) (hcpl : s.cpu.cpl = 0) :
    KernelMode stubs s.cpu := by
  obtain ⟨hring, -⟩ | hkernel := h.level
  · exact absurd hcpl hring.cpl_ne
  · exact hkernel

/-- In Ring 3 the processor runs the program of the current thread. -/
theorem Shares.ring3 (h : Shares stubs code s processes) (hcpl : s.cpu.cpl = 3) :
    Ring3 stubs s.cpu ∧ ∃ t k pid v, s.current = some t ∧ s.threads t = some k ∧ k.process = some pid ∧
      s.handlers t = [] ∧ (processes pid).threads t = some v ∧ s.loaded = some pid ∧
      s.esp0.toNat = k.kernel.top ∧ Agree (· < kernelVirtBase) s.cpu ((processes pid).running v) := by
  obtain ⟨hring, hcurrent⟩ | hkernel := h.level
  · refine ⟨hring, ?_⟩
    obtain ⟨t, ht⟩ := Option.ne_none_iff_exists'.mp hcurrent
    obtain ⟨k, hk, hload⟩ := h.current t ht
    obtain ⟨hnone, v, hv, hsame⟩ := h.running t k ht hk hcpl
    obtain ⟨pid, hpid, hthread⟩ := Option.bind_eq_some_iff.mp hv
    obtain ⟨hloaded, hesp0⟩ := hload pid hpid
    refine ⟨t, k, pid, v, ht, hk, hpid, hnone, hthread, hloaded, hesp0, ?_⟩
    have huser : s.user pid = s.cpu.mem := if_pos hloaded
    refine ⟨hsame.gpr.symm, hsame.seg.symm, hsame.eip.symm, hsame.eflags.symm, fun x hx => ?_⟩
    rw [← huser]
    exact (h.memory pid x hx).symm
  · exact absurd hcpl hkernel.cpl_ne

theorem switching_thread (hk : s.threads t = some k) : s.switching.threads t = some k.kernel :=
  congrArg (Option.map SharingThread.kernel) hk

theorem thread_of_switching {k' : KernelThread} (hk' : s.switching.threads t = some k') :
    ∃ k, s.threads t = some k ∧ k.kernel = k' := Option.map_eq_some_iff.mp hk'

/-- Kernel code that keeps the contract spares the other threads. -/
theorem Sharing.Spares.others {mem : Block} (hspares : s.Spares mem) : s.SparesOthers mem :=
  fun t k hk => ⟨(hspares t k hk).1, fun hne x hx => (hspares t k hk).2 x hx fun ht => absurd ht hne⟩

/-- The stacks and `kernel_sp` fields are the kernel's. -/
theorem Shares.spares {mem : Block} (h : Shares stubs code s processes)
    (hsame : ∀ x, kernelVirtBase ≤ x → mem x = s.cpu.mem x) : s.SparesOthers mem := by
  intro t k hk
  obtain ⟨hstack, hcell, -⟩ := h.high t k hk
  exact ⟨fun x hx => hsame x (Nat.le_trans hcell hx.1), fun _ x hx => hsame x (Nat.le_trans hstack hx.1)⟩

/-- A change within the running thread's own stack. -/
theorem Shares.spares_stack {mem : Block} (h : Shares stubs code s processes) (ht : s.current = some t)
    (hk : s.threads t = some k)
    (hsame : ∀ x, x < k.kernel.kernelStack ∨ k.kernel.top ≤ x → mem x = s.cpu.mem x) : s.SparesOthers mem := by
  intro u l hl
  by_cases hu : t = u
  · subst hu
    cases Option.some.inj (hk.symm.trans hl)
    obtain ⟨-, hcell⟩ := h.tracked.fits t k.kernel (switching_thread hk)
    refine ⟨fun x ⟨hlo, hhi⟩ => hsame x (by omega), fun hne => absurd ht hne⟩
  · obtain ⟨hareas, -, -, hright⟩ :=
      h.tracked.apart t u k.kernel l.kernel hu (switching_thread hk) (switching_thread hl)
    refine ⟨fun x ⟨hlo, hhi⟩ => hsame x (by omega), fun _ x ⟨hlo, hhi⟩ => hsame x (by omega)⟩

/-- What the running code does to the registers, the memory and the handlers of its own stack leaves the other
threads as they are. -/
theorem Shares.moved (h : Shares stubs code s processes) (processes' : Nat → Process) (c : Processor)
    (handlers : Nat → List Handler) (hspares : s.SparesOthers c.mem)
    (hhandlers : ∀ u, s.current ≠ some u → handlers u = s.handlers u)
    (hlevel : Ring3 stubs c ∧ s.current ≠ none ∨ KernelMode stubs c)
    (hself : ∀ t k, s.current = some t → s.threads t = some k →
      (c.cpl = 3 → handlers t = [] ∧ ∃ v, seen processes' t k = some v ∧ Same v c) ∧
      (c.cpl = 0 → Nested stubs k c.mem (handlers t) (seen processes' t k)))
    (hothers : ∀ u l, s.current ≠ some u → s.threads u = some l → seen processes' u l = seen processes u l)
    (hmemory : ∀ pid x, x < kernelVirtBase →
      (if s.loaded = some pid then c.mem else s.spaces (some pid)) x = (processes' pid).memory x)
    (habsent : ∀ pid t v, (processes' pid).threads t = some v →
      ∃ k, s.threads t = some k ∧ k.process = some pid) :
    Shares stubs code { s with cpu := c, handlers := handlers } processes' := by
  constructor
  case intact => exact h.intact
  case tracked =>
    have hpermitted : s.switching.Permitted (.compute c.cpu) := by
      intro t k' hk'
      obtain ⟨k, hk, rfl⟩ := thread_of_switching hk'
      exact hspares t k hk
    exact h.tracked.compute hpermitted
  case high => exact h.high
  case current => exact h.current
  case level => exact hlevel
  case running => exact fun t k ht hk => (hself t k ht hk).1
  case waiting =>
    intro t k hk hzero
    by_cases ht : s.current = some t
    · exact (hself t k ht hk).2 (hzero ht)
    · show Nested stubs k c.mem (handlers t) (seen processes' t k)
      rw [hhandlers t ht, hothers t k ht hk]
      have hnested := h.waiting t k hk fun heq => absurd heq ht
      have hbase := hnested.le_base
      apply hnested.congr
      intro x hlo hhi
      exact (hspares t k hk).2 ht x ⟨Nat.le_trans hbase hlo, hhi⟩
  case memory => exact hmemory
  case absent => exact habsent

/-! ### The processes on their own -/

/-- The processes go from one state to another by their own actions among `es`. -/
def Follows {stubs : Stubs} (p : UserCode stubs) (processes : Nat → Process) (es : List (Nat × Action))
    (processes' : Nat → Process) : Prop :=
  ∀ pid, (processes pid).run p (actionsOf pid es) = some (processes' pid)

theorem follows_nil (p : UserCode stubs) (processes : Nat → Process) : Follows p processes [] processes :=
  fun _ => rfl

theorem follows_one {a : Action} {v : Process} (hact : (processes pid).act p a = some v) :
    Follows p processes [(pid, a)] (Function.update processes pid v) := by
  intro q
  by_cases hq : q = pid
  · subst hq
    have hfilter : actionsOf q [(q, a)] = [a] := by
      simp [actionsOf]
    rw [hfilter, Function.update_self]
    show ((processes q).act p a >>= pure) = _
    rw [hact]
    rfl
  · have hfilter : actionsOf q [(pid, a)] = [] := by
      simp [actionsOf, Ne.symm hq]
    rw [hfilter, Function.update_of_ne hq]
    rfl

theorem Follows.append {processes' processes'' : Nat → Process} {es fs : List (Nat × Action)}
    (h : Follows p processes es processes') (h' : Follows p processes' fs processes'') :
    Follows p processes (es ++ fs) processes'' := by
  intro q
  have happend : actionsOf q (es ++ fs) = actionsOf q es ++ actionsOf q fs := by
    unfold actionsOf
    rw [List.filter_append, List.map_append]
  have hfirst := h q
  have hsecond := h' q
  unfold Process.run at hfirst hsecond ⊢
  rw [happend, List.foldlM_append, hfirst]
  exact hsecond

theorem acted_eq (ht : s.current = some t) (hk : s.threads t = some k) (hpid : k.process = some pid)
    (action : Nat → Action) : s.acted action = [(pid, action t)] := by
  unfold Sharing.acted
  rw [ht, Option.toList_some, List.flatMap_singleton, hk, Option.bind_some, hpid]
  rfl

section Update

variable {v : Process} {c : Option Processor}

theorem seen_self (hv : v.threads = Function.update (processes pid).threads t c) (hpid : k.process = some pid) :
    seen (Function.update processes pid v) t k = c := by
  unfold seen
  rw [hpid, Option.bind_some, Function.update_self, hv, Function.update_self]

theorem seen_other (hv : v.threads = Function.update (processes pid).threads t c) {u : Nat} (hu : u ≠ t)
    (l : SharingThread) : seen (Function.update processes pid v) u l = seen processes u l := by
  unfold seen
  cases l.process with
  | none => rfl
  | some q =>
      rw [Option.bind_some, Option.bind_some]
      by_cases hq : q = pid
      · rw [hq, Function.update_self, hv, Function.update_of_ne hu]
      · rw [Function.update_of_ne hq]

/-- The thread that changes is one of the process. -/
theorem Shares.absent_update (h : Shares stubs code s processes)
    (hv : v.threads = Function.update (processes pid).threads t c) (hk : s.threads t = some k)
    (hpid : k.process = some pid) (q u : Nat) (d : Processor)
    (hd : (Function.update processes pid v q).threads u = some d) :
    ∃ l, s.threads u = some l ∧ l.process = some q := by
  by_cases hq : q = pid
  · subst hq
    rw [Function.update_self, hv] at hd
    by_cases hu : u = t
    · subst hu
      exact ⟨k, hk, hpid⟩
    · rw [Function.update_of_ne hu] at hd
      exact h.absent q u d hd
  · rw [Function.update_of_ne hq] at hd
    exact h.absent q u d hd

theorem memory_update (hmem : v.memory = (processes pid).memory) (q : Nat) :
    (Function.update processes pid v q).memory = (processes q).memory := by
  by_cases hq : q = pid
  · rw [hq, Function.update_self, hmem]
  · rw [Function.update_of_ne hq]

end Update

/-- Kernel code that leaves the memory of the programs alone. -/
theorem Shares.memory_kept {mem : Block} (h : Shares stubs code s processes)
    (hsame : ∀ x, x < kernelVirtBase → mem x = s.cpu.mem x) (q x : Nat) (hx : x < kernelVirtBase) :
    (if s.loaded = some q then mem else s.spaces (some q)) x = (processes q).memory x := by
  rw [← h.memory q x hx]
  unfold Sharing.user
  split
  · exact hsame x hx
  · rfl

/-! ### The steps -/

/-- An instruction of Ring 3. -/
theorem Shares.user {c : Processor} (h : Shares stubs code s processes) (hcpl : s.cpu.cpl = 3)
    (hstep : p.step s.cpu = some c) :
    ∃ processes', Follows p processes (s.acted .stepped) processes' ∧
      Shares stubs code { s with cpu := c } processes' := by
  obtain ⟨hring, t, k, pid, v, ht, hk, hpid, hnone, hthread, hloaded, hesp0, hagree⟩ := h.ring3 hcpl
  have hring' := p.ring3 _ _ hring hstep
  have hconfined := p.confined _ _ hring hstep
  obtain ⟨d, hstep', hagree'⟩ := p.local_step _ _ _ hagree hstep
  -- the process executes the same instruction on its own
  have hact : (processes pid).act p (.stepped t) =
      some { (processes pid).setThread t (some d) with memory := d.mem } := by
    show (processes pid).threads t >>= _ = _
    rw [hthread]
    show p.step _ >>= _ = _
    rw [hstep']
    rfl
  rw [acted_eq ht hk hpid]
  refine ⟨_, follows_one hact, ?_⟩
  apply h.moved _ c s.handlers (h.spares hconfined) (fun _ _ => rfl) (.inl ⟨hring', by rw [ht]; exact Option.some_ne_none t⟩)
    _ _ _
    (h.absent_update rfl hk hpid)
  · intro t' k' ht' hk'
    cases Option.some.inj (ht.symm.trans ht')
    cases Option.some.inj (hk.symm.trans hk')
    refine ⟨fun _ => ⟨hnone, d, seen_self rfl hpid, ?_⟩, fun hzero => ?_⟩
    · exact ⟨hagree'.gpr.symm, hagree'.seg.symm, hagree'.eip.symm, hagree'.eflags.symm, fun _ hx => hx.elim⟩
    · exact absurd hzero hring'.cpl_ne
  · intro u l hu _
    apply seen_other rfl
    rintro rfl
    exact hu ht
  · intro q x hx
    by_cases hq : q = pid
    · subst hq
      rw [if_pos hloaded, Function.update_self]
      exact (hagree'.mem x hx).symm
    · have hother : s.loaded ≠ some q := by
        rw [hloaded]
        exact fun heq => hq (Option.some.inj heq).symm
      have hmem := h.memory q x hx
      unfold Sharing.user at hmem
      rw [if_neg hother] at hmem ⊢
      rw [Function.update_of_ne hq]
      exact hmem

/-- A handler is entered on the stack of the running thread. -/
theorem Shares.entered {e : Event} {d : Processor} (h : Shares stubs code s processes) (ht : s.current = some t)
    (hk : s.threads t = some k) (hentered : s.cpu.Entered s.esp0 e d)
    (hss : s.cpu.cpl = 0 → s.cpu.seg .ss = 0x10)
    (hlow : k.kernel.kernelStack + 80 ≤ (s.cpu.stackTop s.esp0).toNat)
    (hlimit : (s.cpu.stackTop s.esp0).toNat ≤ k.base (s.handlers t)) (hbase : k.base (s.handlers t) ≤ k.kernel.top)
    (hnested : ∀ ring3, (ring3 = true ↔ s.cpu.cpl = 3) →
      Waiting k d.mem (k.base (s.handlers t)) ⟨e, ring3, d.gpr .esp⟩ s.cpu s.esp0 d →
      (∀ x, k.base (s.handlers t) ≤ x → d.mem x = s.cpu.mem x) →
      Nested stubs k d.mem (⟨e, ring3, d.gpr .esp⟩ :: s.handlers t) (seen processes t k)) :
    Shares stubs code
      ({ s with cpu := d }.setHandlers t (⟨e, s.cpu.cpl = 3, d.gpr .esp⟩ :: s.handlers t)) processes := by
  have hesp := hentered.esp
  have hlen : (s.cpu.frame s.esp0 e).words.length ≤ 19 := by
    rw [frame_length]
    split <;> decide
  have hkept : ∀ x, x < k.kernel.kernelStack ∨ k.base (s.handlers t) ≤ x → d.mem x = s.cpu.mem x :=
    fun x hx => hentered.kept x (by omega)
  have hkernel : KernelMode stubs d := KernelMode.entered hentered hss
  apply h.moved processes d _ (h.spares_stack ht hk fun x hx => hkept x (by omega)) _ (.inr hkernel) _
    (fun _ _ _ _ => rfl) _ h.absent
  · intro u hu
    apply Function.update_of_ne
    rintro rfl
    exact hu ht
  · intro t' k' ht' hk'
    cases Option.some.inj (ht.symm.trans ht')
    cases Option.some.inj (hk.symm.trans hk')
    refine ⟨fun hthree => ?_, fun _ => ?_⟩
    · exact absurd hthree hkernel.cpl_ne
    · rw [Function.update_self]
      apply hnested _ decide_eq_true_iff
      · exact ⟨hentered, show _ ≤ (d.gpr .esp).toNat by omega, rfl, hlimit, fun _ _ _ => rfl⟩
      · exact fun x hx => hkept x (.inr hx)
  · apply h.memory_kept
    intro x hx
    obtain ⟨hstack, -, -⟩ := h.high t k hk
    exact hkept x (.inl (by omega))

/-- An interrupt or a system call. -/
theorem Shares.interrupt {e : Event} {d : Processor} (h : Shares stubs code s processes)
    (hcontract : s.Contract stubs (.interrupt e)) (ht : s.current = some t)
    (henter : s.cpu.enter stubs (kernelTables stubs s.esp0) e = some d) :
    Shares stubs code
      ({ s with cpu := d }.setHandlers t (⟨e, s.cpu.cpl = 3, d.gpr .esp⟩ :: s.handlers t)) processes := by
  obtain ⟨hcpl, he⟩ | ⟨t', k, hon, ⟨n, hn, rfl⟩, hlow, hlimit⟩ := hcontract
  · -- a program is interrupted
    obtain ⟨hring, t', k, pid, v, ht', hk, hpid, hnone, hthread, hloaded, hesp0, hagree⟩ := h.ring3 hcpl
    cases Option.some.inj (ht.symm.trans ht')
    have hraised : e.Raised := by
      obtain ⟨n, hn, rfl⟩ | rfl := he
      · exact hn
      · rfl
    have htop : (s.cpu.stackTop s.esp0).toNat = k.kernel.top := by
      rw [hring.stackTop s.esp0, hesp0]
    have hsize : k.kernel.top = k.kernel.kernelStack + 0x4000 := rfl
    have hentered := entered_of_enter henter hraised (by rw [htop]; omega)
    have hbase : k.base (s.handlers t) = k.kernel.top := by
      rw [hnone]
      rfl
    apply h.entered ht hk hentered (fun hzero => absurd hzero hring.cpl_ne)
      (by rw [htop]; omega) (Nat.le_of_eq (htop.trans hbase.symm)) (Nat.le_of_eq hbase)
    intro ring3 hring3 hwaiting _
    obtain ⟨-, v', hv', hsame⟩ := h.running t k ht hk hcpl
    rw [hnone, hv']
    rw [hbase] at hwaiting
    exact .ring3 hring (hring3.mpr hcpl) hwaiting hsame
  · -- the kernel is interrupted
    obtain ⟨hcpl, ht', hk⟩ := hon
    cases Option.some.inj (ht.symm.trans ht')
    have hkernel := h.kernelMode hcpl
    have htop : s.cpu.stackTop s.esp0 = s.cpu.gpr .esp := if_pos hcpl
    have hentered := entered_of_enter henter (show Event.Raised (.line n) from hn) (by rw [htop]; omega)
    have hnested := h.waiting t k hk fun _ => hcpl
    apply h.entered ht hk hentered (fun _ => hkernel.ss) (by rw [htop]; exact hlow) (by rw [htop]; exact hlimit)
      hnested.base_le
    intro ring3 hring3 hwaiting hsame
    refine .kernel hkernel ?_ hwaiting (hnested.congr fun x hlo _ => hsame x hlo)
    apply Bool.eq_false_iff.mpr
    intro htrue
    have hthree := hring3.mp htrue
    rw [hcpl] at hthree
    exact absurd hthree (by decide)

/-- A handler returns to what it has interrupted. -/
theorem Shares.leave {c : Processor} (h : Shares stubs code s processes) (hcontract : s.Contract stubs .leave)
    (ht : s.current = some t) (hleave : s.cpu.leave (kernelTables stubs s.esp0) = some c) :
    Shares stubs code ({ s with cpu := c }.setHandlers t (s.handlers t).tail) processes := by
  obtain ⟨t', k, handler, ⟨hcpl, ht', hk⟩, hhead, hesp⟩ := hcontract
  cases Option.some.inj (ht.symm.trans ht')
  have hkernel := h.kernelMode hcpl
  have hnested := h.waiting t k hk fun _ => hcpl
  have hhandlers : ∀ hs u, s.current ≠ some u → Function.update s.handlers t hs u = s.handlers u := by
    intro hs u hu
    apply Function.update_of_ne
    rintro rfl
    exact hu ht
  -- the interrupted code is back where it was
  have hback : ∀ {limit : Nat} {b d : Processor} {esp0 : BitVec 32}, b.Runs (kernelTables stubs 0) →
      Waiting k s.cpu.mem limit handler b esp0 d → KernelMode stubs d → c = { b with mem := s.cpu.mem } := by
    intro limit b d esp0 hruns hwaiting hd
    have hleft := hwaiting.entered.leave (hruns.retable s.esp0)
      ⟨hesp.trans hwaiting.esp.symm, hkernel.cs.trans hd.cs.symm, hkernel.ss.trans hd.ss.symm, hkernel.nested⟩
      fun x hlo hhi => hwaiting.kept x (hwaiting.esp ▸ hlo) hhi
    rw [hleave] at hleft
    exact Option.some.inj hleft
  have hmem : ∀ {b : Processor}, c = { b with mem := s.cpu.mem } → c.mem = s.cpu.mem := by
    intro b hc
    rw [hc]
  generalize hview : seen processes t k = view at hnested
  generalize hlist : s.handlers t = hs at hnested hhead ⊢
  cases hnested with
  | nil => cases hhead
  | @ring3 _ b v d esp0 hring _ hwaiting hsame =>
      cases hhead
      have hd : KernelMode stubs d := KernelMode.entered hwaiting.entered fun hzero => absurd hzero hring.cpl_ne
      have hc := hback hring.runs hwaiting hd
      have hring' : Ring3 stubs c := by
        rw [hc]
        exact ⟨hring.cpl, hring.runs.code, hring.runs.stack, hring.runs.data, hring.runs.flags⟩
      apply h.moved processes c _ (h.spares fun x _ => congrFun (hmem hc) x) (hhandlers _)
        (.inl ⟨hring', by rw [ht]; exact Option.some_ne_none t⟩) _ (fun _ _ _ _ => rfl)
        (h.memory_kept fun x _ => congrFun (hmem hc) x) h.absent
      intro t' k' ht' hk'
      cases Option.some.inj (ht.symm.trans ht')
      cases Option.some.inj (hk.symm.trans hk')
      refine ⟨fun _ => ⟨Function.update_self .., v, hview, ?_⟩, fun hzero => ?_⟩
      · rw [hc]
        exact ⟨hsame.gpr, hsame.seg, hsame.eip, hsame.eflags, fun _ hx => hx.elim⟩
      · exact absurd hzero hring'.cpl_ne
  | @kernel _ hs b d esp0 _ hb _ hwaiting hrest =>
      cases hhead
      have hd : KernelMode stubs d := KernelMode.entered hwaiting.entered fun _ => hb.ss
      have hc := hback hb.runs hwaiting hd
      have hc' : KernelMode stubs c := by
        rw [hc]
        exact hb.congr rfl rfl
      apply h.moved processes c _ (h.spares fun x _ => congrFun (hmem hc) x) (hhandlers _)
        (.inr hc') _ (fun _ _ _ _ => rfl) (h.memory_kept fun x _ => congrFun (hmem hc) x) h.absent
      intro t' k' ht' hk'
      cases Option.some.inj (ht.symm.trans ht')
      cases Option.some.inj (hk.symm.trans hk')
      refine ⟨fun hthree => ?_, fun _ => ?_⟩
      · exact absurd hthree hc'.cpl_ne
      · rw [Function.update_self, hview, hmem hc]
        exact hrest

/-- The kernel's code computes. -/
theorem Shares.compute {c : Processor} (h : Shares stubs code s processes)
    (hcontract : s.Contract stubs (.compute c)) : Shares stubs code { s with cpu := c } processes := by
  obtain ⟨hcpl, hkernel, huser, hspares⟩ := hcontract
  apply h.moved processes c s.handlers hspares.others (fun _ _ => rfl) (.inr hkernel) _ (fun _ _ _ _ => rfl)
    (h.memory_kept huser) h.absent
  intro t k ht hk
  have hnested := h.waiting t k hk fun _ => hcpl
  have hbase := hnested.le_base
  refine ⟨fun hthree => ?_, fun _ => hnested.congr fun x hlo hhi => ?_⟩
  · exact absurd hthree hkernel.cpl_ne
  · exact (hspares t k hk).2 x ⟨Nat.le_trans hbase hlo, hhi⟩ fun _ => hlo

/-- `jump_usermode`: a thread of the kernel becomes one of its process. -/
theorem Shares.start {c : Processor} (h : Shares stubs code s processes) (hcontract : s.Contract stubs .start)
    (hjump : s.cpu.jump (kernelTables stubs s.esp0) = some c) :
    ∃ processes', Follows p processes (s.acted (.started · c)) processes' ∧
      Shares stubs code { s with cpu := c } processes' := by
  obtain ⟨t, k, ⟨hcpl, ht, hk⟩, hprocess, hnone, hlow, hhigh⟩ := hcontract
  obtain ⟨pid, hpid⟩ := Option.ne_none_iff_exists'.mp hprocess
  have hkernel := h.kernelMode hcpl
  obtain ⟨c', hjump', hring, -, -, -, hmem⟩ := jump_usermode_spec stubs s.esp0 s.cpu hcpl hkernel.nested
    hkernel.runs.flags (by omega)
  cases Option.some.inj (hjump.symm.trans hjump')
  obtain ⟨hstack, -, -⟩ := h.high t k hk
  have hbase : k.base (s.handlers t) = k.kernel.top := by
    rw [hnone]
    rfl
  rw [acted_eq ht hk hpid]
  refine ⟨_, follows_one (show (processes pid).act p (.started t c) =
    some ((processes pid).setThread t (some c)) from rfl), ?_⟩
  apply h.moved _ c s.handlers (h.spares_stack ht hk fun x hx => hmem x (by omega)) (fun _ _ => rfl)
    (.inl ⟨hring, by rw [ht]; exact Option.some_ne_none t⟩) _ _ _ (h.absent_update rfl hk hpid)
  · intro t' k' ht' hk'
    cases Option.some.inj (ht.symm.trans ht')
    cases Option.some.inj (hk.symm.trans hk')
    refine ⟨fun _ => ⟨hnone, c, seen_self rfl hpid, Agree.refl _ c⟩, fun hzero => ?_⟩
    exact absurd hzero hring.cpl_ne
  · intro u l hu _
    apply seen_other rfl
    rintro rfl
    exact hu ht
  · intro q x hx
    rw [memory_update (show ((processes pid).setThread t (some c)).memory = _ from rfl) q]
    exact h.memory_kept (fun x hx => hmem x (by omega)) q x hx

/-! ### Creation and the end of threads -/

theorem switching_update (s : Sharing) (t : Nat) (k : Option SharingThread) :
    (fun u => (Function.update s.threads t k u).map SharingThread.kernel) =
      Function.update s.switching.threads t (k.map SharingThread.kernel) := by
  funext u
  by_cases hu : u = t
  · rw [hu, Function.update_self, Function.update_self]
  · rw [Function.update_of_ne hu, Function.update_of_ne hu]
    rfl

theorem Shares.unseen (h : Shares stubs code s processes) (ht : s.threads t = none) (k : SharingThread) :
    seen processes t k = none := by
  apply Option.eq_none_iff_forall_ne_some.mpr
  intro v hv
  obtain ⟨pid, -, hthread⟩ := Option.bind_eq_some_iff.mp hv
  obtain ⟨l, hl, -⟩ := h.absent pid t v hthread
  rw [ht] at hl
  cases hl

/-- A new thread, with its first frame on a stack of its own. -/
theorem Shares.create {frame : FirstFrame} (h : Shares stubs code s processes)
    (hcontract : s.Contract stubs (.create t k frame)) :
    Shares stubs code { (s.setMem (firstFrame code k.kernel s.cpu.mem frame)).setHandlers t [] with
      threads := Function.update s.threads t (some k)
      calls := s.calls ++ [.created t frame] } processes := by
  obtain ⟨hcpl, hnew, hstack, hcell, htop, hout, hapart⟩ := hcontract
  have hold : ∀ u l, u ≠ t → Function.update s.threads t (some k) u = some l → s.threads u = some l := by
    intro u l hu hl
    rwa [Function.update_of_ne hu] at hl
  have hself : ∀ l, Function.update s.threads t (some k) t = some l → l = k := by
    intro l hl
    rw [Function.update_self] at hl
    exact (Option.some.inj hl).symm
  have hne : ∀ u, s.current = some u → u ≠ t := by
    rintro u hu rfl
    obtain ⟨l, hl, -⟩ := h.current u hu
    rw [hnew] at hl
    cases hl
  constructor
  case intact => exact h.intact
  case tracked =>
    have hpermitted : s.switching.Permitted (.create t k.kernel frame) := by
      refine ⟨?_, Nat.le_of_lt htop, hout, ?_⟩
      · show (s.threads t).map _ = none
        rw [hnew]
        rfl
      · intro u l' hl'
        obtain ⟨l, hl, rfl⟩ := thread_of_switching hl'
        exact hapart u l hl
    show Tracked code _ ⟨_, _, fun u => (Function.update s.threads t (some k) u).map _⟩
    rw [switching_update]
    exact h.tracked.create hpermitted
  case high =>
    intro u l hl
    by_cases hu : u = t
    · subst hu
      cases hself l hl
      exact ⟨hstack, hcell, htop⟩
    · exact h.high u l (hold u l hu hl)
  case current =>
    intro u hu
    obtain ⟨l, hl, hload⟩ := h.current u hu
    exact ⟨l, (Function.update_of_ne (hne u hu) _ _).trans hl, hload⟩
  case level => exact .inr ((h.kernelMode hcpl).congr rfl rfl)
  case running =>
    intro u l _ _ hthree
    exact absurd hthree (h.kernelMode hcpl).cpl_ne
  case waiting =>
    intro u l hl _
    by_cases hu : u = t
    · subst hu
      cases hself l hl
      -- nobody has interrupted the new thread
      show Nested stubs k _ (Function.update s.handlers u [] u) _
      rw [Function.update_self, h.unseen hnew k]
      exact .nil
    · have hl' := hold u l hu hl
      have hnested := h.waiting u l hl' fun _ => hcpl
      have hbase := hnested.le_base
      obtain ⟨hareas, -, hleft, -⟩ := hapart u l hl'
      -- the first frame and the new `kernel_sp` are outside what the others have saved
      show Nested stubs l _ (Function.update s.handlers t [] u) _
      rw [Function.update_of_ne hu]
      apply hnested.congr
      intro x hlo hhi
      apply firstFrame_of_not_mem code s.cpu.mem frame
      · rintro ⟨hlo', hhi'⟩
        omega
      · rintro ⟨hlo', hhi'⟩
        omega
  case memory =>
    apply h.memory_kept
    intro x hx
    apply firstFrame_of_not_mem code s.cpu.mem frame
    · rintro ⟨hlo', -⟩
      omega
    · rintro ⟨hlo', -⟩
      omega
  case absent =>
    intro pid u v hv
    obtain ⟨l, hl, hpid⟩ := h.absent pid u v hv
    refine ⟨l, (Function.update_of_ne ?_ _ _).trans hl, hpid⟩
    rintro rfl
    rw [hnew] at hl
    cases hl

/-- Fewer threads. -/
theorem Shares.fewer (h : Shares stubs code s processes) {threads : Nat → Option SharingThread}
    {processes' : Nat → Process} (hthreads : ∀ u l, threads u = some l → s.threads u = some l)
    (hcurrent : ∀ u, s.current = some u → threads u = s.threads u)
    (hseen : ∀ u l, threads u = some l → seen processes' u l = seen processes u l)
    (hmemory : ∀ pid, (processes' pid).memory = (processes pid).memory)
    (habsent : ∀ pid u v, (processes' pid).threads u = some v → ∃ k, threads u = some k ∧ k.process = some pid) :
    Shares stubs code { s with threads := threads } processes' := by
  have hkernel : ∀ u l', (threads u).map SharingThread.kernel = some l' → s.switching.threads u = some l' := by
    intro u l' hl'
    obtain ⟨l, hl, rfl⟩ := Option.map_eq_some_iff.mp hl'
    exact switching_thread (hthreads u l hl)
  constructor
  case intact => exact h.intact
  case tracked =>
    refine ⟨fun u l' hl' => h.tracked.fits u l' (hkernel u l' hl'), fun u v l' m' huv hl' hm' => ?_,
      fun u l' hl' hcurrent => h.tracked.suspended u l' (hkernel u l' hl') hcurrent⟩
    exact h.tracked.apart u v l' m' huv (hkernel u l' hl') (hkernel v m' hm')
  case high => exact fun u l hl => h.high u l (hthreads u l hl)
  case current =>
    intro u hu
    obtain ⟨l, hl, hload⟩ := h.current u hu
    exact ⟨l, (hcurrent u hu).trans hl, hload⟩
  case level => exact h.level
  case running =>
    intro u l hu hl hthree
    rw [hseen u l hl]
    exact h.running u l hu (hthreads u l hl) hthree
  case waiting =>
    intro u l hl hzero
    rw [hseen u l hl]
    exact h.waiting u l (hthreads u l hl) hzero
  case memory =>
    intro pid x hx
    rw [hmemory pid]
    exact h.memory pid x hx
  case absent => exact habsent

/-- The end of a thread that does not run. -/
theorem Shares.destroy (h : Shares stubs code s processes) (hcontract : s.Contract stubs (.destroy t)) :
    ∃ processes', Follows p processes (s.observe stubs (.destroy t)) processes' ∧
      Shares stubs code { s with threads := Function.update s.threads t none } processes' := by
  obtain ⟨-, hne⟩ := hcontract
  have hold : ∀ u l, Function.update s.threads t none u = some l → u ≠ t ∧ s.threads u = some l := by
    intro u l hl
    by_cases hu : u = t
    · rw [hu, Function.update_self] at hl
      cases hl
    · rw [Function.update_of_ne hu] at hl
      exact ⟨hu, hl⟩
  have hcurrent : ∀ u, s.current = some u → Function.update s.threads t none u = s.threads u := by
    intro u hu
    apply Function.update_of_ne
    rintro rfl
    exact hne hu
  have hothers : ∀ pid u v, u ≠ t → (processes pid).threads u = some v →
      ∃ k, Function.update s.threads t none u = some k ∧ k.process = some pid := by
    intro pid u v hu hv
    obtain ⟨l, hl, hpid⟩ := h.absent pid u v hv
    exact ⟨l, (Function.update_of_ne hu _ _).trans hl, hpid⟩
  cases hpid : (s.threads t).bind SharingThread.process with
  | none =>
      refine ⟨processes, ?_, h.fewer (fun u l hl => (hold u l hl).2) hcurrent (fun _ _ _ => rfl) (fun _ => rfl)
        fun pid u v hv => hothers pid u v ?_ hv⟩
      · show Follows p processes (((s.threads t).bind SharingThread.process).toList.map _) processes
        rw [hpid]
        exact follows_nil p processes
      · -- the thread has no process
        rintro rfl
        obtain ⟨l, hl, hprocess⟩ := h.absent pid u v hv
        rw [hl, Option.bind_some, hprocess] at hpid
        cases hpid
  | some pid =>
      have hact : (processes pid).act p (.ended t) = some ((processes pid).setThread t none) := rfl
      refine ⟨Function.update processes pid ((processes pid).setThread t none), ?_, h.fewer
        (fun u l hl => (hold u l hl).2) hcurrent (fun u l hl => seen_other rfl (hold u l hl).1 l)
        (memory_update rfl) fun q u v hv => ?_⟩
      · show Follows p processes (((s.threads t).bind SharingThread.process).toList.map _) _
        rw [hpid]
        exact follows_one hact
      · obtain ⟨k, hk, hprocess⟩ := Option.bind_eq_some_iff.mp hpid
        obtain ⟨l, hl, hq⟩ := h.absent_update (v := (processes pid).setThread t none) rfl hk hprocess q u v hv
        by_cases hu : u = t
        · -- it has no registers any more
          subst hu
          cases Option.some.inj (hk.symm.trans hl)
          cases Option.some.inj (hprocess.symm.trans hq)
          rw [Function.update_self] at hv
          have hnone : ((processes pid).setThread u none).threads u = none := Function.update_self ..
          rw [hnone] at hv
          cases hv
        · exact ⟨l, (Function.update_of_ne hu _ _).trans hl, hq⟩

/-! ### Switches -/

/-- Restoring a context writes nothing. -/
theorem run_restore_mem (c : Cpu) : (c.run [.pop .edi, .pop .esi, .pop .ebx, .pop .ebp, .ret]).mem = c.mem := rfl

/-- `context_switch` writes below its stack pointer and to `old->kernel_sp`. -/
theorem contextSwitch_mem {c : Cpu} {cell sp : Nat} (hesp : 16 ≤ c.reg .esp)
    (hroom : c.reg .esp + 12 ≤ wordModulus) (hcell : read32 c.mem (c.reg .esp + 4) = cell)
    (hsp : read32 c.mem (c.reg .esp + 8) = sp) (hout : cell + 4 ≤ c.reg .esp ∨ c.reg .esp + 12 ≤ cell) (x : Nat)
    (hx : x < c.reg .esp - 16 ∨ c.reg .esp ≤ x) (hx' : x < cell ∨ cell + 4 ≤ x) :
    (c.run contextSwitch).mem x = c.mem x := by
  have hcode : contextSwitch = saveContext ++ [.pop .edi, .pop .esi, .pop .ebx, .pop .ebp, .ret] := rfl
  obtain ⟨-, hmem⟩ := run_saveContext hesp hroom hcell hsp hout
  rw [hcode, run_append, run_restore_mem, hmem, write32_of_not_mem hx']
  exact pushed_of_not_mem hesp hx

/-- Loading a page directory changes what is below `KERNEL_VIRT_BASE` only, and no process. -/
theorem load_user (s : Sharing) (pid q x : Nat) (hx : x < kernelVirtBase) :
    (s.load pid).user q x = s.user q x := by
  have hspaces : ∀ q, (Function.update s.spaces s.loaded s.cpu.mem) (some q) = s.user q := by
    intro q
    unfold Sharing.user
    by_cases hq : s.loaded = some q
    · rw [if_pos hq, hq, Function.update_self]
    · rw [if_neg hq, Function.update_of_ne (Ne.symm hq)]
  rw [← hspaces q]
  show (if some pid = some q then Sharing.below _ _ else _) x = _
  split
  · next hq =>
      cases Option.some.inj hq
      exact if_pos hx
  · rfl

theorem user_congr {s s' : Sharing} (hloaded : s'.loaded = s.loaded) (hmem : s'.cpu.mem = s.cpu.mem)
    (hspaces : s'.spaces = s.spaces) : s'.user = s.user := by
  funext pid
  unfold Sharing.user
  rw [hloaded, hmem, hspaces]

theorem prepare_user (s : Sharing) (k : SharingThread) (q x : Nat) (hx : x < kernelVirtBase) :
    (s.prepare k).user q x = s.user q x := by
  have hesp0 : Sharing.user { s with esp0 := BitVec.ofNat 32 k.kernel.top } = s.user := user_congr rfl rfl rfl
  rw [← hesp0]
  unfold Sharing.prepare
  cases k.process with
  | none => rfl
  | some pid => exact load_user _ pid q x hx

/-- Preparing the switch keeps the kernel's memory, and has the page directory of the thread loaded. -/
theorem prepare_spec (s : Sharing) (k : SharingThread) :
    (∃ mem loaded spaces, s.prepare k = { s with
      cpu := { s.cpu with mem := mem }
      esp0 := BitVec.ofNat 32 k.kernel.top
      loaded := loaded
      spaces := spaces } ∧ ∀ x, kernelVirtBase ≤ x → mem x = s.cpu.mem x) ∧
    ∀ pid, k.process = some pid → (s.prepare k).loaded = some pid := by
  unfold Sharing.prepare
  cases k.process with
  | none => exact ⟨⟨s.cpu.mem, s.loaded, s.spaces, rfl, fun _ _ => rfl⟩,
      fun pid hpid => absurd hpid (Option.some_ne_none pid).symm⟩
  | some pid =>
      refine ⟨⟨_, _, _, rfl, fun x hx => if_neg (Nat.not_lt.mpr hx)⟩, fun q hq => ?_⟩
      cases hq
      rfl

/-- What is left to show of a switch when its effect on memory is known. -/
theorem Shares.switched {next : Nat} {l : SharingThread} {cpu : Processor} {esp0 : BitVec 32}
    {loaded : Option Nat} {spaces : Option Nat → Block} {calls : List SwitchEvent} {intact : Prop}
    (h : Shares stubs code s processes) (hintact : intact)
    (htracked : Tracked code calls { s.switching with cpu := cpu.cpu, current := some next })
    (hl : s.threads next = some l)
    (hload : ∀ pid, l.process = some pid → loaded = some pid ∧ esp0.toNat = l.kernel.top)
    (hkernel : KernelMode stubs cpu) (hcpl : s.cpu.cpl = 0)
    (hmem : ∀ u m, s.threads u = some m → ∀ x, m.kernel.kernelStack ≤ x → m.base (s.handlers u) ≤ x →
      x < m.kernel.top → cpu.mem x = s.cpu.mem x)
    (huser : ∀ pid x, x < kernelVirtBase →
      (if loaded = some pid then cpu.mem else spaces (some pid)) x = s.user pid x) :
    Shares stubs code { s with
      cpu := cpu
      esp0 := esp0
      loaded := loaded
      spaces := spaces
      current := some next
      calls := calls
      intact := intact } processes := by
  constructor
  case intact => exact hintact
  case tracked => exact htracked
  case high => exact h.high
  case current =>
    intro u hu
    cases Option.some.inj hu
    exact ⟨l, hl, hload⟩
  case level => exact .inr hkernel
  case running =>
    intro u m _ _ hthree
    exact absurd hthree hkernel.cpl_ne
  case waiting =>
    intro u m hm _
    have hnested := h.waiting u m hm fun _ => hcpl
    have hbase := hnested.le_base
    apply hnested.congr
    intro x hlo hhi
    exact hmem u m hm x (Nat.le_trans hbase hlo) hlo hhi
  case memory =>
    intro pid x hx
    exact (huser pid x hx).trans (h.memory pid x hx)
  case absent => exact h.absent

/-- `scheduler_switch`. -/
theorem Shares.switch {next : Nat} (h : Shares stubs code s processes)
    (hcontract : s.Contract stubs (.switch next)) (hstep : s.step stubs code p (.switch next) = some s') :
    Shares stubs code s' processes := by
  obtain ⟨t, k, l, ⟨hcpl, ht, hk⟩, hne, hl, hlow, hhigh, hcell, hsp⟩ := hcontract
  have hkernel := h.kernelMode hcpl
  obtain ⟨⟨mem, loaded, spaces, hprepare, hmem⟩, hload⟩ := prepare_spec s l
  have huser := prepare_user s l
  rw [hprepare] at hload huser
  obtain ⟨hstack, hcellHigh, hktop⟩ := h.high t k hk
  obtain ⟨-, hlcell, hltop⟩ := h.high next l hl
  obtain ⟨-, hkcell⟩ := h.tracked.fits t k.kernel (switching_thread hk)
  have hbase := (h.waiting t k hk fun _ => hcpl).base_le
  have hesp : (s.cpu.gpr .esp).toNat = s.cpu.cpu.reg .esp := rfl
  rw [hesp] at hlow hhigh hcell hsp
  -- the stacks are as before when `context_switch` is called
  have hread : ∀ a, kernelVirtBase ≤ a → read32 mem a = read32 s.cpu.mem a :=
    fun a ha => read32_congr fun i _ => hmem _ (Nat.le_trans ha (Nat.le_add_right ..))
  have hsize : k.kernel.top = k.kernel.kernelStack + 0x4000 := rfl
  have hcell' : read32 mem (s.cpu.cpu.reg .esp + 4) = k.kernel.cell := by
    rw [hread _ (by omega), hcell]
  have hsp' : read32 mem (s.cpu.cpu.reg .esp + 8) = read32 mem l.kernel.cell := by
    rw [hread _ (by omega), hread _ hlcell, hsp]
  have htracked : Tracked code s.calls { s.switching with cpu := { s.cpu.cpu with mem := mem } } := by
    apply h.tracked.compute
    intro u m' hm'
    obtain ⟨m, hm, rfl⟩ := thread_of_switching hm'
    obtain ⟨hstack', hcell', -⟩ := h.high u m hm
    exact ⟨fun x hx => hmem x (Nat.le_trans hcell' hx.1), fun _ x hx => hmem x (Nat.le_trans hstack' hx.1)⟩
  have hpermitted : Switching.Permitted { s.switching with cpu := { s.cpu.cpu with mem := mem } } (.switch next) :=
    ⟨t, k.kernel, l.kernel, ht, hne, switching_thread hk, switching_thread hl, hlow,
      show s.cpu.cpu.reg .esp + 12 ≤ k.kernel.top by omega, hcell', hsp'⟩
  obtain ⟨hresumes, htracked'⟩ := htracked.switch hpermitted
  have hframe := contextSwitch_mem (c := { s.cpu.cpu with mem := mem }) (show 16 ≤ s.cpu.cpu.reg .esp by omega)
    (show s.cpu.cpu.reg .esp + 12 ≤ wordModulus by omega) hcell' hsp'
    (show k.kernel.cell + 4 ≤ s.cpu.cpu.reg .esp ∨ s.cpu.cpu.reg .esp + 12 ≤ k.kernel.cell by omega)
  obtain ⟨c, hc⟩ : ∃ c : Processor, ({ s.cpu with mem := mem } : Processor).runContext contextSwitch = c :=
    ⟨_, rfl⟩
  have hcpu : c.cpu = Cpu.run { s.cpu.cpu with mem := mem } contextSwitch := by
    rw [← hc]
    exact cpu_runContext _ _
  have hcmem : c.mem = (Cpu.run { s.cpu.cpu with mem := mem } contextSwitch).mem := congrArg Cpu.mem hcpu
  have hckernel : KernelMode stubs c := by
    rw [← hc]
    exact hkernel.congr rfl rfl
  -- where `context_switch` does not write, memory is as it was, or as the page directory shows it
  have hkept : ∀ x, (x < s.cpu.cpu.reg .esp - 16 ∨ s.cpu.cpu.reg .esp ≤ x) →
      (x < k.kernel.cell ∨ k.kernel.cell + 4 ≤ x) → c.mem x = mem x := by
    intro x hx hx'
    rw [hcmem]
    exact hframe x hx hx'
  have hs' : s' = { s with
      cpu := c
      esp0 := BitVec.ofNat 32 l.kernel.top
      loaded := loaded
      spaces := spaces
      current := some next
      calls := s.calls ++ s.current.toList.map (.called · (Cpu.caller { s.cpu.cpu with mem := mem }))
      intact := s.intact ∧ Resumes code s.calls next c.cpu } := by
    have hstep' : s.step stubs code p (.switch next) = some { (s.prepare l).switchTo code contextSwitch next with
        calls := s.calls ++ s.current.toList.map (.called · (s.prepare l).cpu.cpu.caller) } := by
      show s.threads next >>= _ = _
      rw [hl]
      rfl
    rw [hprepare] at hstep'
    cases Option.some.inj (hstep.symm.trans hstep')
    rw [← hc]
    rfl
  rw [hs']
  apply h.switched ⟨h.intact, hcpu ▸ hresumes⟩ _ hl _ hckernel hcpl
  · intro u m hm x hstack' hlo hhi
    obtain ⟨hmhigh, -, -⟩ := h.high u m hm
    have hsame := hmem x (by omega)
    by_cases hu : t = u
    · subst hu
      cases Option.some.inj (hk.symm.trans hm)
      exact (hkept x (by omega) (by omega)).trans hsame
    · obtain ⟨hareas, -, hleft, -⟩ :=
        h.tracked.apart t u k.kernel m.kernel hu (switching_thread hk) (switching_thread hm)
      exact (hkept x (by omega) (by omega)).trans hsame
  · intro pid x hx
    rw [← huser pid x hx]
    show _ = (if loaded = some pid then mem else spaces (some pid)) x
    split
    · exact hkept x (by omega) (by omega)
    · rfl
  · rw [hcpu]
    exact htracked'
  · intro pid hpid
    refine ⟨hload pid hpid, ?_⟩
    rw [BitVec.toNat_ofNat]
    exact Nat.mod_eq_of_lt hltop

/-- `scheduler_enter_idle`. -/
theorem Shares.enterIdle {idle : Nat} (h : Shares stubs code s processes)
    (hcontract : s.Contract stubs (.enterIdle idle)) :
    Shares stubs code (s.switchTo code schedulerEnterIdle idle) processes := by
  obtain ⟨hcpl, hnone, l, hl, hprocess, hesp, hsp⟩ := hcontract
  have hkernel := h.kernelMode hcpl
  have hpermitted : s.switching.Permitted (.enterIdle idle) :=
    ⟨hnone, l.kernel, switching_thread hl, hesp, hsp⟩
  obtain ⟨hresumes, htracked⟩ := h.tracked.enterIdle hpermitted
  have hcpu := cpu_runContext s.cpu schedulerEnterIdle
  have hmem : (s.cpu.runContext schedulerEnterIdle).mem = s.cpu.mem := by
    show (s.cpu.runContext schedulerEnterIdle).cpu.mem = _
    rw [hcpu]
    rfl
  have hkernel' : KernelMode stubs (s.cpu.runContext schedulerEnterIdle) := hkernel.congr rfl rfl
  rw [List.append_nil] at htracked
  apply h.switched ⟨h.intact, by rw [hcpu]; exact hresumes⟩ _ hl _ hkernel' hcpl
  · intro u m _ x _ _ _
    exact congrFun hmem x
  · intro pid x _
    rw [hmem]
    rfl
  · rw [hcpu]
    exact htracked
  · intro pid hpid
    rw [hprocess] at hpid
    cases hpid

/-! ### Memory of the programs, and system calls -/

/-- The kernel writes the memory of a process. -/
theorem Shares.write {mem : Block} (h : Shares stubs code s processes)
    (hcontract : s.Contract stubs (.write pid mem)) :
    ∃ processes', Follows p processes [(pid, .written mem)] processes' ∧
      Shares stubs code (s.setUser pid mem) processes' := by
  obtain ⟨hcpl, -⟩ := hcontract
  have hkernel := h.kernelMode hcpl
  have hact : (processes pid).act p (.written mem) = some { processes pid with memory := mem } := rfl
  refine ⟨_, follows_one hact, ?_⟩
  have hthreads : ∀ q, (Function.update processes pid { processes pid with memory := mem } q).threads =
      (processes q).threads := by
    intro q
    by_cases hq : q = pid
    · rw [hq, Function.update_self]
    · rw [Function.update_of_ne hq]
  have hseen : ∀ u l, seen (Function.update processes pid { processes pid with memory := mem }) u l =
      seen processes u l := by
    intro u l
    unfold seen
    cases l.process with
    | none => rfl
    | some q => exact congrFun (hthreads q) u
  have habsent : ∀ q u v, (Function.update processes pid { processes pid with memory := mem } q).threads u = some v →
      ∃ k, s.threads u = some k ∧ k.process = some q := by
    intro q u v hv
    rw [hthreads q] at hv
    exact h.absent q u v hv
  unfold Sharing.setUser
  by_cases hloaded : s.loaded = some pid
  · -- through the page directory: the stacks are above
    rw [if_pos hloaded]
    have hsame : ∀ x, kernelVirtBase ≤ x → Sharing.below mem s.cpu.mem x = s.cpu.mem x :=
      fun x hx => if_neg (Nat.not_lt.mpr hx)
    have hkernel' : KernelMode stubs { s.cpu with mem := Sharing.below mem s.cpu.mem } := hkernel.congr rfl rfl
    apply h.moved _ _ s.handlers (h.spares hsame) (fun _ _ => rfl) (.inr hkernel') _ (fun u l _ _ => hseen u l) _
      habsent
    · intro t k ht hk
      have hnested := h.waiting t k hk fun _ => hcpl
      have hbase := hnested.le_base
      obtain ⟨hstack, -, -⟩ := h.high t k hk
      refine ⟨fun hthree => ?_, fun _ => ?_⟩
      · exact absurd hthree hkernel'.cpl_ne
      · rw [hseen]
        exact hnested.congr fun x hlo _ => hsame x (by omega)
    · intro q x hx
      by_cases hq : q = pid
      · subst hq
        rw [if_pos hloaded, Function.update_self]
        exact if_pos hx
      · have hother : s.loaded ≠ some q := by
          rw [hloaded]
          exact fun heq => hq (Option.some.inj heq).symm
        have hmem := h.memory q x hx
        unfold Sharing.user at hmem
        rw [if_neg hother] at hmem ⊢
        rw [Function.update_of_ne hq]
        exact hmem
  · -- the processor sees nothing of it
    rw [if_neg hloaded]
    constructor
    case intact => exact h.intact
    case tracked => exact h.tracked
    case high => exact h.high
    case current => exact h.current
    case level => exact h.level
    case running =>
      intro t k ht hk hthree
      rw [hseen]
      exact h.running t k ht hk hthree
    case waiting =>
      intro t k hk hzero
      rw [hseen]
      exact h.waiting t k hk hzero
    case memory =>
      intro q x hx
      have hmem := h.memory q x hx
      unfold Sharing.user at hmem
      show (if s.loaded = some q then s.cpu.mem else Function.update s.spaces (some pid) mem (some q)) x = _
      by_cases hq : q = pid
      · subst hq
        rw [if_neg hloaded, Function.update_self, Function.update_self]
      · have hne : (some q : Option Nat) ≠ some pid := fun heq => hq (Option.some.inj heq)
        rw [Function.update_of_ne hq, Function.update_of_ne hne]
        exact hmem
    case absent => exact habsent

theorem trapFrame_ext {f g : TrapFrame} (hregs : f.regs = g.regs) (houter : f.outer = g.outer) : f = g := by
  cases f
  cases g
  cases hregs
  cases houter
  rfl

/-- What a system call does to the registers of the program: the words that it stores in its frame, and what the
frame then shows. -/
structure FrameEdit where
  words : List (Nat × BitVec 32)
  edit : Processor → Processor
  lt : ∀ w ∈ words, w.1 < 19
  mem : ∀ c, (edit c).mem = c.mem
  seg : ∀ c, (edit c).seg = c.seg
  eflags : ∀ c, (edit c).eflags = c.eflags
  same : ∀ c d, Same c d → Same (edit c) (edit d)
  frame : ∀ c esp0 e, c.cpl ≠ 0 →
    words.foldl (fun l w => l.set w.1 w.2) (c.frame esp0 e).words = ((edit c).frame esp0 e).words

/-- `regs->eax` is stored. -/
def answerEdit (w : BitVec 32) : FrameEdit where
  words := [(11, w)]
  edit c := c.setGpr .eax w
  lt v hv := by
    rw [List.mem_singleton.mp hv]
    show 11 < 19
    decide
  mem _ := rfl
  seg _ := rfl
  eflags _ := rfl
  same c d h := by
    refine ⟨?_, h.seg, h.eip, h.eflags, fun _ hx => hx.elim⟩
    show Function.update d.gpr .eax w = Function.update c.gpr .eax w
    rw [h.gpr]
  frame c esp0 e hcpl := by
    have htop : (c.setGpr .eax w).stackTop esp0 = c.stackTop esp0 :=
      (show (c.setGpr .eax w).stackTop esp0 = esp0 from if_neg hcpl).trans
        (show c.stackTop esp0 = esp0 from if_neg hcpl).symm
    have hregs : ((c.setGpr .eax w).frame esp0 e).regs = ((c.frame esp0 e).withEax w).regs := by
      unfold frame
      rw [htop]
      rfl
    rw [trapFrame_ext hregs rfl]
    rfl

/-- `sys_exec` commits. -/
def execEdit (entry esp : BitVec 32) : FrameEdit where
  words := execStores entry esp
  edit c := { (c.setGpr .eax 0).setGpr .esp esp with eip := entry }
  lt := execStores_lt entry esp
  mem _ := rfl
  seg _ := rfl
  eflags _ := rfl
  same c d h := by
    refine ⟨?_, h.seg, rfl, h.eflags, fun _ hx => hx.elim⟩
    show Function.update (Function.update d.gpr .eax 0) .esp esp =
      Function.update (Function.update c.gpr .eax 0) .esp esp
    rw [h.gpr]
  frame c esp0 e hcpl := by
    have houter : (c.frame esp0 e).outer = some (c.gpr .esp, (c.seg .ss).setWidth 32) := if_neg hcpl
    obtain ⟨d, hd⟩ : ∃ d : Processor, { (c.setGpr .eax 0).setGpr .esp esp with eip := entry } = d := ⟨_, rfl⟩
    have hdcpl : d.cpl ≠ 0 := by
      rw [← hd]
      exact hcpl
    have htop : d.stackTop esp0 = c.stackTop esp0 :=
      (show d.stackTop esp0 = esp0 from if_neg hdcpl).trans (show c.stackTop esp0 = esp0 from if_neg hcpl).symm
    have houter' : (d.frame esp0 e).outer = ((c.frame esp0 e).withProgram entry esp).outer := by
      have hd' : (d.frame esp0 e).outer = some (d.gpr .esp, (d.seg .ss).setWidth 32) := if_neg hdcpl
      rw [hd', ← hd]
      show _ = (c.frame esp0 e).outer.map _
      rw [houter]
      rfl
    have hregs : (d.frame esp0 e).regs = ((c.frame esp0 e).withProgram entry esp).regs := by
      unfold TrapFrame.withProgram frame
      rw [htop, if_neg hdcpl, if_neg hcpl, ← hd]
      rfl
    rw [hd, trapFrame_ext hregs houter', execStores_words houter]

theorem FrameEdit.cpl (edit : FrameEdit) (c : Processor) : (edit.edit c).cpl = c.cpl := by
  unfold Processor.cpl
  rw [edit.seg]

theorem FrameEdit.ring3 (edit : FrameEdit) {c : Processor} (h : Ring3 stubs c) : Ring3 stubs (edit.edit c) := by
  have hcpl := edit.cpl c
  refine ⟨hcpl.trans h.cpl, ?_, ?_, ?_, ?_⟩
  · rw [hcpl, edit.seg]
    exact h.runs.code
  · rw [hcpl, edit.seg]
    exact h.runs.stack
  · rw [hcpl, edit.seg]
    exact h.runs.data
  · rw [edit.eflags]
    exact h.runs.flags

/-- The frame as if the program had been interrupted with the new registers. -/
theorem FrameEdit.entered (edit : FrameEdit) {c d : Processor} {esp0 : BitVec 32} {e : Event} (hcpl : c.cpl ≠ 0)
    (h : c.Entered esp0 e d) : (edit.edit c).Entered esp0 e
      { d with mem := stores d.mem ((d.gpr .esp).toNat + 4) edit.words } := by
  have hcpl' := edit.cpl c
  have htop : (edit.edit c).stackTop esp0 = c.stackTop esp0 := by
    unfold stackTop
    rw [hcpl', if_neg hcpl, if_neg hcpl]
  have hlen : (c.frame esp0 e).words.length = 19 := by
    rw [frame_length, if_neg hcpl]
  have hlen' : ((edit.edit c).frame esp0 e).words.length = 19 := by
    rw [frame_length, hcpl', if_neg hcpl]
  have hesp := h.esp
  rw [hlen] at hesp
  have hroom := h.frame.room
  rw [List.length_cons, hlen] at hroom
  constructor
  case frame =>
    constructor
    · obtain ⟨harg, hwords⟩ := h.frame.stacked
      constructor
      · rw [← harg]
        exact read32_congr fun i hi => stores_of_not_mem edit.lt
          (.inl (show (d.gpr .esp).toNat + i < (d.gpr .esp).toNat + 4 by omega))
      · rw [← edit.frame c esp0 e hcpl]
        apply hwords.stores
        rw [hlen]
        exact edit.lt
    · rw [List.length_cons, hlen']
      exact hroom
  case esp =>
    rw [hlen', htop]
    exact hesp
  case kept =>
    intro x hx
    change x < (d.gpr .esp).toNat ∨ _ at hx
    rw [htop] at hx
    rw [edit.mem]
    have hout := h.kept x hx
    rw [← hout]
    exact stores_of_not_mem edit.lt (by omega)
  case cs => exact h.cs
  case ss =>
    rw [hcpl', edit.seg]
    exact h.ss
  case data => exact h.data
  case eflags =>
    rw [edit.eflags]
    exact h.eflags

/-- The handler of a system call stores in its frame. -/
theorem Shares.store (h : Shares stubs code s processes) (hon : s.OnStack t k) (hcall : s.InSyscall t)
    (edit : FrameEdit) {action : Nat → Action}
    (hact : ∀ v : Process, v.act p (action t) = (v.threads t).map fun c => v.setThread t (some (edit.edit c)))
    (hstore : s.store edit.words = some s') :
    ∃ processes', Follows p processes (s.acted action) processes' ∧ Shares stubs code s' processes' := by
  obtain ⟨hcpl, ht, hk⟩ := hon
  obtain ⟨esp, hhandlers⟩ := hcall
  have hkernel := h.kernelMode hcpl
  have hs' : s' = s.setMem (stores s.cpu.mem (esp.toNat + 4) edit.words) := by
    unfold Sharing.store at hstore
    rw [ht] at hstore
    change (s.handlers t).head? >>= _ = _ at hstore
    rw [hhandlers] at hstore
    exact (Option.some.inj hstore).symm
  have hnested := h.waiting t k hk fun _ => hcpl
  rw [hhandlers] at hnested
  generalize hview : seen processes t k = view at hnested
  cases hnested with
  | kernel _ hh _ _ => cases hh
  | @ring3 _ c v d esp0 hring hh hwaiting hsame =>
      -- the system call has interrupted a thread of a process, which waits with the registers `v`
      obtain ⟨pid, hpid, hthread⟩ := Option.bind_eq_some_iff.mp hview
      have hne : c.cpl ≠ 0 := hring.cpl_ne
      have hentered := edit.entered hne hwaiting.entered
      have hlow := hwaiting.low
      have hlimit := hwaiting.limit
      have hesp := hwaiting.esp
      have hframe := hwaiting.entered.esp
      rw [frame_length, if_neg hne, hesp] at hframe
      change k.kernel.kernelStack ≤ esp.toNat at hlow
      change esp.toNat + 4 * (19 + 1) = _ at hframe
      obtain ⟨hstack, -, -⟩ := h.high t k hk
      have htop : (edit.edit c).stackTop esp0 = c.stackTop esp0 := by
        unfold stackTop
        rw [edit.cpl, if_neg hne, if_neg hne]
      -- nothing but the frame is written
      have hkept : ∀ x, x < k.kernel.kernelStack ∨ k.kernel.top ≤ x →
          stores s.cpu.mem (esp.toNat + 4) edit.words x = s.cpu.mem x :=
        fun x hx => stores_of_not_mem edit.lt (by omega)
      have hact' : (processes pid).act p (action t) = some ((processes pid).setThread t (some (edit.edit v))) := by
        rw [hact, hthread]
        rfl
      have hkernel' : KernelMode stubs { s.cpu with mem := stores s.cpu.mem (esp.toNat + 4) edit.words } :=
        hkernel.congr rfl rfl
      rw [acted_eq ht hk hpid, hs']
      refine ⟨_, follows_one hact', ?_⟩
      apply h.moved _ _ s.handlers (h.spares_stack ht hk hkept) (fun _ _ => rfl) (.inr hkernel') _ _ _
        (h.absent_update rfl hk hpid)
      · intro t' k' ht' hk'
        cases Option.some.inj (ht.symm.trans ht')
        cases Option.some.inj (hk.symm.trans hk')
        refine ⟨fun hthree => ?_, fun _ => ?_⟩
        · exact absurd hthree hkernel'.cpl_ne
        · rw [hhandlers, seen_self rfl hpid]
          refine .ring3 (edit.ring3 hring) hh ⟨hentered, hlow, hesp, by rw [htop]; exact hlimit, ?_⟩
            (edit.same v c hsame)
          intro x hlo hhi
          rw [htop] at hhi
          show stores s.cpu.mem (esp.toNat + 4) edit.words x = stores d.mem ((d.gpr .esp).toNat + 4) edit.words x
          rw [hesp]
          exact stores_congr edit.words _ (hwaiting.kept x hlo hhi)
      · intro u l hu _
        apply seen_other rfl
        rintro rfl
        exact hu ht
      · intro q x hx
        rw [memory_update (show ((processes pid).setThread t (some (edit.edit v))).memory = _ from rfl) q]
        exact h.memory_kept (fun x hx => hkept x (.inl (by omega))) q x hx

/-! ### Runs -/

/-- One step, on the machine and in the process that makes it. -/
theorem Shares.step {label : SharingLabel} (h : Shares stubs code s processes) (hok : s.Permitted stubs label)
    (hstep : s.step stubs code p label = some s') :
    ∃ processes', Follows p processes (s.observe stubs label) processes' ∧ Shares stubs code s' processes' := by
  have hcontract := hok h.intact
  cases label with
  | user =>
      obtain ⟨c, hc, rfl⟩ := Option.map_eq_some_iff.mp hstep
      exact h.user hcontract hc
  | interrupt e =>
      obtain ⟨t, ht, hstep⟩ := Option.bind_eq_some_iff.mp hstep
      obtain ⟨d, hd, hstep⟩ := Option.bind_eq_some_iff.mp hstep
      cases hstep
      exact ⟨processes, follows_nil p processes, h.interrupt hcontract ht hd⟩
  | leave =>
      obtain ⟨t, ht, hstep⟩ := Option.bind_eq_some_iff.mp hstep
      obtain ⟨c, hc, hstep⟩ := Option.bind_eq_some_iff.mp hstep
      cases hstep
      exact ⟨processes, follows_nil p processes, h.leave hcontract ht hc⟩
  | compute c =>
      cases hstep
      exact ⟨processes, follows_nil p processes, h.compute hcontract⟩
  | create t k frame =>
      cases hstep
      exact ⟨processes, follows_nil p processes, h.create hcontract⟩
  | destroy t =>
      cases hstep
      exact h.destroy hcontract
  | switch next => exact ⟨processes, follows_nil p processes, h.switch hcontract hstep⟩
  | enterIdle idle =>
      cases hstep
      exact ⟨processes, follows_nil p processes, h.enterIdle hcontract⟩
  | start =>
      obtain ⟨c, hc, rfl⟩ := Option.map_eq_some_iff.mp hstep
      obtain ⟨processes', hfollows, hs'⟩ := h.start (p := p) hcontract hc
      refine ⟨processes', ?_, hs'⟩
      show Follows p processes ((s.cpu.jump (kernelTables stubs s.esp0)).toList.flatMap _) processes'
      rw [hc, Option.toList_some, List.flatMap_singleton]
      exact hfollows
  | write pid mem =>
      cases hstep
      exact h.write hcontract
  | answer w =>
      obtain ⟨t, k, hon, hcall⟩ := hcontract
      exact h.store hon hcall (answerEdit w) (fun _ => rfl) hstep
  | exec entry esp =>
      obtain ⟨t, k, hon, hcall⟩ := hcontract
      exact h.store hon hcall (execEdit entry esp) (fun _ => rfl) hstep

end Shares

namespace Sharing

end Sharing

end Neox.Trap
