import Neox.Mm.UserAccess

/-!
# The mounted file system and open files

`fs/fs.c`, `file/file.c` and the descriptor table of `task/process.c`. The image is its bytes and its
size; an entry of the file table is named by its index. Paths and buffers are the caller's, and are
followed as such.
-/

namespace Neox

open Bytes Traced

/-! ## `fs.c` -/

/-- `fs_image`, `fs_image_size` and whether `fs_superblock` is set. -/
structure Fs where
  image : Block
  imageSize : Nat
  superblock : Bool

/-- `sizeof(struct fs_file)`. -/
abbrev fsFileRecordSize : Nat := 72

/-- `FS_FILENAME_MAX`, the offset of the fields after the name. -/
abbrev fsFilenameMax : Nat := 64

namespace Fs

def fileCount (fs : Fs) : Nat := read32 fs.image 8
def filesOffset (fs : Fs) : Nat := read32 fs.image 12

/-- Where entry `i` of the file table is. -/
def entry (fs : Fs) (i : Nat) : Nat := fs.filesOffset + i * fsFileRecordSize

/-- Byte `k` from the start of the entry's name. -/
def name (fs : Fs) (i k : Nat) : UInt8 := fs.image (fs.entry i + k)

def offset (fs : Fs) (i : Nat) : Nat := read32 fs.image (fs.entry i + fsFilenameMax)

/-- `fs_file_size`. -/
def fileSize (fs : Fs) (i : Nat) : Nat := read32 fs.image (fs.entry i + fsFilenameMax + 4)

/-- `fs_file_data`: the offset in the image of the file's data, or `none` for `NULL`. -/
def fileData (fs : Fs) (i : Nat) : Option Nat :=
  if fs.imageSize < fs.offset i then none
  else if fs.imageSize - fs.offset i < fs.fileSize i then none
  else some (fs.offset i)

end Fs

/-- `strcmp` of a kernel string and the string at `virt`; `k` characters are equal. -/
def strcmp (m : Mm) (directory : Nat) (a : Nat → UInt8) (virt k : Nat) : Nat → UserM Int
  | 0 => silent (.error .hang)
  | n + 1 => do
      let b ← User.readByte m directory ((virt + k) % wordModulus)
      if a k ≠ 0 ∧ a k = b then strcmp m directory a virt (k + 1) n
      else return (a k).toNat - (b.toNat : Int)

/-- `fs_find` from entry `i` on, with `n` entries left. -/
def fsFindFrom (m : Mm) (directory : Nat) (fs : Fs) (path i : Nat) : Nat → UserM (Option Nat)
  | 0 => return none
  | n + 1 => do
      if (← strcmp m directory (fs.name i) path 0 wordModulus) = 0 then return some i
      fsFindFrom m directory fs path (i + 1) n

/-- `fs_find`. -/
def fsFind (m : Mm) (directory : Nat) (fs : Fs) (path : Nat) : UserM (Option Nat) :=
  if !fs.superblock then return none
  else fsFindFrom m directory fs path 0 fs.fileCount

/-! ## `file.c` -/

/-- `FILE_ACCESS_READ`. -/
abbrev fileAccessRead : Nat := 1

/-- `FILE_ACCESS_WRITE`. -/
abbrev fileAccessWrite : Nat := 2

/-- `FILE_ACCESS_READ_WRITE`. -/
abbrev fileAccessReadWrite : Nat := 3

/-- `struct file`. -/
structure File where
  fsFile : Option Nat
  position : Nat
  access : Nat
  deriving DecidableEq, Repr

/-- `file_open`; `none` is -1. -/
def fileOpen (m : Mm) (directory : Nat) (fs : Fs) (path access : Nat) : UserM (Option File) :=
  if access ≠ fileAccessRead ∧ access ≠ fileAccessWrite ∧ access ≠ fileAccessReadWrite then
    return none
  else if path = 0 then return none
  else do
    match ← fsFind m directory fs path with
    | none => return none
    | some i => return some { fsFile := some i, position := 0, access := access }

/-- `file_close`. -/
def fileClose : File := { fsFile := none, position := 0, access := 0 }

/-- Byte `k` of what `file_read` copies: of the file's data, or of the memory at address 0 and up
where `fs_file_data` has returned `NULL`. -/
def sourceByte (m : Mm) (directory : Nat) (fs : Fs) (i k : Nat) : Except Stop UInt8 :=
  match fs.fileData i with
  | some data => .ok (fs.image (data + k))
  | none => m.readByte directory (k % wordModulus)

/-- `memcpy` to the caller's buffer: byte `k` is next and `n` are left. -/
def copyToUser (directory : Nat) (fs : Fs) (i position buffer : Nat) (m : Mm) (k : Nat) :
    Nat → UserM Mm
  | 0 => return m
  | n + 1 => do
      let byte ← silent (sourceByte m directory fs i (position + k))
      let m ← User.writeByte m directory ((buffer + k) % wordModulus) byte
      copyToUser directory fs i position buffer m (k + 1) n

/-- The number of bytes `file_read` copies from an open entry. -/
def File.transfer (fs : Fs) (file : File) (i count : Nat) : Nat :=
  if fs.fileSize i ≤ file.position then 0 else min count (fs.fileSize i - file.position)

/-- The entry `file_read` reads, when none of its checks fails. -/
def File.readable (file : File) (buffer : Nat) : Option Nat :=
  if buffer = 0 then none
  else if file.access ≠ fileAccessRead ∧ file.access ≠ fileAccessReadWrite then none
  else file.fsFile

/-- `file_read`; `none` is -1. -/
def fileRead (m : Mm) (directory : Nat) (fs : Fs) (file : File) (buffer count : Nat) :
    UserM (Option Nat × File × Mm) :=
  match file.readable buffer with
  | none => return (none, file, m)
  | some i => do
      let n := file.transfer fs i count
      let m ← copyToUser directory fs i file.position buffer m 0 n
      return (some n, { file with position := file.position + n }, m)

/-! ## Descriptors -/

/-- `PROCESS_MAX_FILES`. -/
abbrev processMaxFiles : Nat := 16

/-- `struct process_file`. -/
structure ProcessFile where
  used : Bool
  file : File
  deriving DecidableEq, Repr

/-- `process->files`. -/
abbrev FileTable := Nat → ProcessFile

/-- `process_get_file`; a negative descriptor is a large one. -/
def processGetFile (files : FileTable) (fd : Nat) : Option File :=
  if processMaxFiles ≤ fd then none
  else if !(files fd).used then none
  else some (files fd).file

/-- `process_open`; `none` is -1. -/
def processOpen (m : Mm) (directory : Nat) (fs : Fs) (files : FileTable) (path access : Nat) :
    UserM (Option Nat × FileTable) :=
  if path = 0 then return (none, files)
  else
    match (List.range processMaxFiles).find? fun fd => !(files fd).used with
    | none => return (none, files)
    | some fd => do
        match ← fileOpen m directory fs path access with
        | none => return (none, files)
        | some file => return (some fd, Function.update files fd { used := true, file := file })

/-- `process_read`; `none` is -1. -/
def processRead (m : Mm) (directory : Nat) (fs : Fs) (files : FileTable) (fd buffer count : Nat) :
    UserM (Option Nat × FileTable × Mm) :=
  match processGetFile files fd with
  | none => return (none, files, m)
  | some file => do
      let (n, file, m) ← fileRead m directory fs file buffer count
      return (n, Function.update files fd { used := true, file := file }, m)

/-- `process_close`; `false` is -1. -/
def processClose (files : FileTable) (fd : Nat) : Bool × FileTable :=
  match processGetFile files fd with
  | none => (false, files)
  | some _ => (true, Function.update files fd { used := false, file := fileClose })

end Neox
