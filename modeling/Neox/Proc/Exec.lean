import Neox.Proc.State

/-!
# `exec`

`kernel/exec.c`, `exec_build_user_stack` and `sys_exec`. The executable is opened through
`Kernel.files`; the register frame is left out, so a successful call yields the entry point and
the stack pointer that `sys_exec` stores in it.
-/

namespace Neox

open Bytes

/-- One of the strings in `struct exec_args`: its heap block and its characters before the `NUL`. -/
structure ExecArg where
  block : Nat
  string : List UInt8
  deriving DecidableEq, Repr

/-- `EXEC_MAX_ARGS`. -/
abbrev execMaxArgs : Nat := 32

/-- `EXEC_MAX_ARG_LENGTH`. -/
abbrev execMaxArgLength : Nat := 256

/-! ## Reading user memory -/

/-- The word at `virt`. -/
def readWord (m : Mm) (directory virt : Nat) : Except Stop Nat := do
  let b0 ← m.readByte directory virt
  let b1 ← m.readByte directory ((virt + 1) % wordModulus)
  let b2 ← m.readByte directory ((virt + 2) % wordModulus)
  let b3 ← m.readByte directory ((virt + 3) % wordModulus)
  return b0.toNat + 0x100 * b1.toNat + 0x10000 * b2.toNat + 0x1000000 * b3.toNat

/-- The characters at `virt` before the first `NUL`; `none` when there are `n` of them. -/
def readString (m : Mm) (directory virt : Nat) : Nat → Except Stop (Option (List UInt8))
  | 0 => return none
  | n + 1 => do
      let c ← m.readByte directory virt
      if c = 0 then return some []
      let rest ← readString m directory ((virt + 1) % wordModulus) n
      return rest.map (c :: ·)

/-! ## `exec.c` -/

/-- `exec_args_destroy`. -/
def execArgsDestroy (m : Mm) (args : List ExecArg) : Except Stop Mm :=
  args.foldlM (fun m arg => kfree m arg.block) m

/-- The loop of `exec_args_copy_from_user`: `args` are copied and `n` slots are left. `false` is
`goto fail`. -/
def execArgsCopyFrom (directory userArgv : Nat) (m : Mm) (args : List ExecArg) :
    Nat → Except Stop (Bool × List ExecArg × Mm)
  | 0 => return (false, args, m)
  | n + 1 => do
      let pointerAddress := (userArgv + 4 * args.length) % wordModulus
      if !(← pagingUserRangeValid m directory pointerAddress 4) then return (false, args, m)
      let userString ← readWord m directory pointerAddress
      if userString = 0 then return (true, args, m)
      if !(← pagingUserStringValid m directory userString) then return (false, args, m)
      match ← readString m directory userString execMaxArgLength with
      | none => return (false, args, m)
      | some string =>
          let (block, m) ← kmalloc m (string.length + 1)
          if block = 0 then return (false, args, m)
          execArgsCopyFrom directory userArgv m (args ++ [⟨block, string⟩]) n

/-- `exec_args_copy_from_user`. -/
def execArgsCopyFromUser (m : Mm) (directory userArgv : Nat) :
    Except Stop (Option (List ExecArg) × Mm) := do
  if userArgv = 0 then return (none, m)
  let (ok, args, m) ← execArgsCopyFrom directory userArgv m [] execMaxArgs
  if ok then return (some args, m)
  let m ← execArgsDestroy m args
  return (none, m)

/-! ## The initial user stack -/

/-- The first loop: `strings_size`, or `none` where the sum does not fit in a `uint32_t`. -/
def stringsSizeFrom (size : Nat) : List ExecArg → Option Nat
  | [] => some size
  | arg :: rest =>
      let length := arg.string.length + 1
      if wordModulus - 1 < size + length then none else stringsSizeFrom (size + length) rest

/-- `a - b` on `uintptr_t`. -/
def wordSub (a b : Nat) : Nat := (a + (wordModulus - b)) % wordModulus

/-- Store bytes at `offset` in the page of the stack. -/
def storeBytes (b : Block) (offset : Nat) (bytes : List UInt8) : Except Stop Block :=
  if offset + bytes.length ≤ userStackSize then
    .ok (copy b offset bytes.length fun k => bytes.getD k 0)
  else .error (.outsideStack offset)

/-- Store a `uint32_t` at `offset` in the page of the stack. -/
def storeWord (b : Block) (offset w : Nat) : Except Stop Block :=
  if offset + 4 ≤ userStackSize then .ok (write32 b offset w) else .error (.outsideStack offset)

/-- The loop that copies the strings; `offset` is from the start of the page. -/
def writeStrings (b : Block) (offset : Nat) : List ExecArg → Except Stop Block
  | [] => return b
  | arg :: rest => do
      let b ← storeBytes b offset (arg.string ++ [0])
      writeStrings b (offset + (arg.string.length + 1)) rest

/-- The loop that stores the `argv` pointers at `offset` and up; the next string is at `virt`. -/
def writePointers (b : Block) (offset virt : Nat) : List ExecArg → Except Stop Block
  | [] => storeWord b offset 0
  | arg :: rest => do
      let b ← storeWord b offset virt
      writePointers b (offset + 4) (virt + (arg.string.length + 1)) rest

/-- `exec_build_user_stack` on the contents of the stack's page: the new stack pointer, or `none`
where it returns `false`, and the contents after. -/
def execBuildUserStack (args : List ExecArg) (stackVirt : Nat) (b : Block) :
    Except Stop (Option Nat × Block) :=
  match stringsSizeFrom 0 args with
  | none => return (none, b)
  | some stringsSize =>
      let pointersSize := 4 + (args.length + 1) * 4
      let totalSize := (pointersSize + stringsSize) % wordModulus
      if userStackSize < totalSize then return (none, b)
      else do
        let stackHigh := (stackVirt + userStackSize) % wordModulus
        let strings := wordSub stackHigh stringsSize
        let b ← writeStrings b (wordSub strings stackVirt) args
        let argv := wordSub strings ((args.length + 1) * 4)
        let b ← writePointers b (wordSub argv stackVirt) strings args
        let esp := wordSub argv 4 / 16 * 16
        if esp < stackVirt then return (none, b)
        else
          let b ← storeWord b (wordSub esp stackVirt) args.length
          return (some esp, b)

/-! ## `sys_exec` -/

/-- How `sys_exec` ends: it returns -1, or the thread enters the new image. -/
inductive ExecResult where
  | failed
  | entered (entry esp : Nat)
  deriving DecidableEq, Repr

/-- The undo sequence of the failures after `paging_create_directory`. -/
def execUndo (k : Kernel) (directory : Nat) (args : List ExecArg) :
    Except Stop (ExecResult × Kernel) := do
  let mm ← pagingDestroyDirectory k.mm directory
  let mm ← execArgsDestroy mm args
  return (.failed, { k with mm := mm })

/-- `process->page_directory = directory`. -/
def Kernel.setDirectory (k : Kernel) (p : ProcessId) (directory : Nat) : Kernel :=
  k.setProcess p { k.processes p with pageDirectory := directory }

/-- `sys_exec` once the image is loaded and the new directory attached to the process. -/
def sysExecStack (k : Kernel) (p : ProcessId) (oldDirectory newDirectory entry : Nat)
    (args : List ExecArg) : Except Stop (ExecResult × Kernel) := do
  match ← usermodeStackCreate k p with
  | (none, k) => execUndo (k.setDirectory p oldDirectory) newDirectory args
  | (some userEsp, k) =>
      let stackVirt := userEsp - userStackSize
      if !(← pagingValidateMapping k.mm newDirectory stackVirt) then throw (.assertion .mapped)
      let stackPhys ← pagingTranslate k.mm newDirectory stackVirt
      if stackPhys = 0 then throw (.assertion .mapped)
      let frame ← direct stackPhys
      let (esp, page) ← execBuildUserStack args stackVirt (k.mm.frames frame)
      let k := { k with mm := { k.mm with frames := Function.update k.mm.frames frame page } }
      match esp with
      | none => execUndo (k.setDirectory p oldDirectory) newDirectory args
      | some esp =>
          if !(← pagingUserRangeValid k.mm newDirectory stackVirt userStackSize) then
            throw (.assertion .mapped)
          let mm ← pagingDestroyDirectory k.mm oldDirectory
          if !(← pagingUserRangeValid mm newDirectory stackVirt userStackSize) then
            throw (.assertion .mapped)
          let mm ← execArgsDestroy mm args
          return (.entered entry esp, { k with mm := mm })

/-- `sys_exec` once the executable is open. -/
def sysExecImage (k : Kernel) (p : ProcessId) (image : ElfImage) (args : List ExecArg) :
    Except Stop (ExecResult × Kernel) := do
  match ← pagingCreateDirectory k.mm with
  | (none, mm) =>
      let mm ← execArgsDestroy mm args
      return (.failed, { k with mm := mm })
  | (some newDirectory, mm) =>
      match ← elfLoad mm newDirectory image with
      | (none, mm) => execUndo { k with mm := mm } newDirectory args
      | (some entry, mm) =>
          sysExecStack ({ k with mm := mm }.setDirectory p newDirectory) p
            (k.processes p).pageDirectory newDirectory entry args

/-- `sys_exec`, called by a thread of process `p`. -/
def sysExec (k : Kernel) (p : ProcessId) (path argv : Nat) :
    Except Stop (ExecResult × Kernel) := do
  let directory := (k.processes p).pageDirectory
  if !(← pagingUserStringValid k.mm directory path) then return (.failed, k)
  match ← execArgsCopyFromUser k.mm directory argv with
  | (none, mm) => return (.failed, { k with mm := mm })
  | (some args, mm) => do
      let k := { k with mm := mm }
      let name ← readString mm directory path wordModulus
      match name.bind k.files with
      | some (some image) =>
          if image.size = 0 then do
            let mm ← execArgsDestroy k.mm args
            return (.failed, { k with mm := mm })
          else sysExecImage k p image args
      | _ => do
          let mm ← execArgsDestroy k.mm args
          return (.failed, { k with mm := mm })

end Neox
