import Neox.Fs.File
import Neox.Proc.Exec

/-!
# System calls

The handlers of `arch/x86/syscall.c`. Interrupts are off in a handler, so the caller's directory and
descriptor table do not change under it. `SYS_EXEC` is followed up to the point where the executable
is open; the rest does not look at the caller's memory again.
-/

namespace Neox

open Traced

/-- What a system call of a thread works on: memory, the directory of the thread's process, the
process' descriptor table, the mounted file system and what has been printed. -/
structure Caller where
  mm : Mm
  directory : Nat
  files : FileTable
  fs : Fs
  console : List UInt8

/-- `struct registers`, less the registers the handlers do not read. -/
structure Registers where
  eax : Nat
  ebx : Nat
  ecx : Nat
  edx : Nat
  deriving DecidableEq, Repr

abbrev sysExit : Nat := 1
abbrev sysRead : Nat := 3
abbrev sysWrite : Nat := 4
abbrev sysOpen : Nat := 5
abbrev sysClose : Nat := 6
abbrev sysExecve : Nat := 7

/-- `SYSCALL_ERROR`, and -1 as a `uint32_t`. -/
abbrev syscallError : Nat := wordModulus - 1

namespace Caller

/-! ## Files -/

/-- `sys_write`: the loop prints what it reads. -/
def write (c : Caller) (fd buf len : Nat) : UserM (Nat × Caller) :=
  if fd ≠ 1 then return (syscallError, c)
  else do
    if !(← silent (pagingUserRangeValid c.mm c.directory buf len)) then return (syscallError, c)
    let text ← User.readBytes c.mm c.directory buf len
    return (len, { c with console := c.console ++ text })

/-- `sys_open`. -/
def open_ (c : Caller) (path access : Nat) : UserM (Nat × Caller) := do
  if !(← User.pagingUserStringValid c.mm c.directory path) then return (syscallError, c)
  let (fd, files) ← processOpen c.mm c.directory c.fs c.files path access
  return (fd.getD syscallError, { c with files := files })

/-- `sys_read`. -/
def read (c : Caller) (fd buffer count : Nat) : UserM (Nat × Caller) := do
  if !(← silent (pagingUserRangeValid c.mm c.directory buffer count)) then return (syscallError, c)
  let (n, files, mm) ← processRead c.mm c.directory c.fs c.files fd buffer count
  return (n.getD syscallError, { c with files := files, mm := mm })

/-- `sys_close`. -/
def close (c : Caller) (fd : Nat) : Nat × Caller :=
  let (closed, files) := processClose c.files fd
  (if closed then 0 else syscallError, { c with files := files })

/-! ## The arguments of `exec` -/

/-- The loop of `exec_args_copy_from_user`: `args` are copied and `n` slots are left. `false` is
`goto fail`. -/
def execArgsCopyFrom (directory userArgv : Nat) (m : Mm) (args : List ExecArg) :
    Nat → UserM (Bool × List ExecArg × Mm)
  | 0 => return (false, args, m)
  | n + 1 => do
      let pointerAddress := (userArgv + 4 * args.length) % wordModulus
      if !(← silent (pagingUserRangeValid m directory pointerAddress 4)) then return (false, args, m)
      let userString ← User.readWord m directory pointerAddress
      if userString = 0 then return (true, args, m)
      if !(← User.pagingUserStringValid m directory userString) then return (false, args, m)
      match ← User.stringLength m directory userString execMaxArgLength with
      | none => return (false, args, m)
      | some length => do
          let (block, m) ← silent (kmalloc m (length + 1))
          if block = 0 then return (false, args, m)
          let copied ← User.readBytes m directory userString (length + 1)
          execArgsCopyFrom directory userArgv m (args ++ [⟨block, copied.take length⟩]) n

/-- `exec_args_copy_from_user`. -/
def execArgsCopyFromUser (m : Mm) (directory userArgv : Nat) :
    UserM (Option (List ExecArg) × Mm) :=
  if userArgv = 0 then return (none, m)
  else do
    let (ok, args, m) ← execArgsCopyFrom directory userArgv m [] execMaxArgs
    if ok then return (some args, m)
    let m ← silent (execArgsDestroy m args)
    return (none, m)

/-- `sys_exec` up to and including `file_open`: the arguments and the executable, or `none` where it
has returned -1. -/
def execArguments (c : Caller) (path argv : Nat) :
    UserM (Option (List ExecArg × File) × Caller) := do
  if !(← User.pagingUserStringValid c.mm c.directory path) then return (none, c)
  match ← execArgsCopyFromUser c.mm c.directory argv with
  | (none, mm) => return (none, { c with mm := mm })
  | (some args, mm) => do
      match ← fileOpen mm c.directory c.fs path fileAccessRead with
      | some file => return (some (args, file), { c with mm := mm })
      | none => do
          let mm ← silent (execArgsDestroy mm args)
          return (none, { c with mm := mm })

end Caller

/-! ## `syscall_handler` -/

/-- How `syscall_handler` leaves the system call. -/
inductive SyscallResult where
  /-- It returns, with this value in `eax`. -/
  | returned (eax : Nat) (c : Caller)
  /-- `sys_exec` goes on with these arguments and this executable. -/
  | exec (args : List ExecArg) (file : File) (c : Caller)
  /-- `sys_exit` does not return. -/
  | exited (code : Nat) (c : Caller)

/-- `syscall_handler`. -/
def syscallHandler (c : Caller) (regs : Registers) : UserM SyscallResult :=
  if regs.eax = sysExit then return .exited regs.ebx c
  else if regs.eax = sysWrite then do
    let (eax, c) ← c.write regs.ebx regs.ecx regs.edx
    return .returned eax c
  else if regs.eax = sysOpen then do
    let (eax, c) ← c.open_ regs.ebx regs.ecx
    return .returned eax c
  else if regs.eax = sysRead then do
    let (eax, c) ← c.read regs.ebx regs.ecx regs.edx
    return .returned eax c
  else if regs.eax = sysClose then
    let (eax, c) := c.close regs.ebx
    return .returned eax c
  else if regs.eax = sysExecve then do
    match ← c.execArguments regs.ebx regs.ecx with
    | (none, c) => return .returned syscallError c
    | (some (args, file), c) => return .exec args file c
  else return .returned syscallError c

end Neox
