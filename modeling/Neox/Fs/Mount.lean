import Neox.Lib.Traced
import Neox.Fs.File

/-!
# Reads of the mounted image

`fs/fs.c` and `file/file.c` once more, for a path and a buffer that the kernel can read and write:
every read of the image is reported with its address. The image is at `base`. A path is the bytes
before its terminator, and a buffer is an object of its own.

* `Fs.strcmp_reports`: how far the comparison with a name runs.
* `Fs.fsFind_eq_some`, `Fs.fsFind_eq_none`: the entry found is the first of that name.
-/

namespace Neox

open Bytes Traced

/-- What `fs.c` and `file.c` read: a field or a character, or the source of a `memcpy`. -/
inductive FsRead
  | load (address size : Nat)
  | memcpy (address size : Nat)
  deriving DecidableEq, Repr

/-- Code that reads the image. It always returns. -/
abbrev FsM := Traced Empty FsRead

/-- `FS_MAGIC`. -/
abbrev fsMagic : Nat := 0x4E584653

/-- `FS_VERSION`. -/
abbrev fsVersion : Nat := 1

/-- `sizeof(struct fs_superblock)`. -/
abbrev fsSuperblockSize : Nat := 20

namespace Fs

/-! ## `fs.c` -/

def magic (fs : Fs) : Nat := read32 fs.image 0
def version (fs : Fs) : Nat := read32 fs.image 4
def dataOffset (fs : Fs) : Nat := read32 fs.image 16

/-- `files_end`. -/
def filesEnd (fs : Fs) : Nat :=
  (fs.filesOffset + fs.fileCount * fsFileRecordSize % wordModulus) % wordModulus

/-- The checks of `fs_mount` on the superblock. -/
def checkSuperblock (fs : Fs) : Int :=
  if fs.magic ≠ fsMagic then -1
  else if fs.version ≠ fsVersion then -1
  else if fs.imageSize < fs.filesOffset then -1
  else if (fs.imageSize - fs.filesOffset) / fsFileRecordSize < fs.fileCount then -1
  else if fs.dataOffset < fs.filesEnd then -1
  else if fs.imageSize < fs.dataOffset then -1
  else 0

/-- `fs_mount`; the image of `size` bytes is at `base`. -/
def fsMount (fs : Fs) (base : Nat) (image : Block) (size : Nat) : Int × Fs :=
  if base = 0 then (-1, fs)
  else if size < fsSuperblockSize then (-1, fs)
  else
    let fs := { image := image, imageSize := size, superblock := true }
    (fs.checkSuperblock, fs)

/-- A word of the image is read. -/
def load (base : Nat) (fs : Fs) (offset : Nat) : FsM Nat :=
  fetch (.load (base + offset) 4) (read32 fs.image offset)

/-- `strcmp` of the string at `offset` of the image and `path`. -/
def strcmp (base : Nat) (fs : Fs) (offset : Nat) : List UInt8 → FsM Int
  | [] => do
      let a ← fetch (.load (base + offset) 1) (fs.image offset)
      return a.toNat
  | b :: path => do
      let a ← fetch (.load (base + offset) 1) (fs.image offset)
      if a ≠ 0 ∧ a = b then strcmp base fs (offset + 1) path
      else return a.toNat - (b.toNat : Int)

/-- The loop of `fs_find` from entry `i` on, with `n` entries left; `files` is the table. -/
def fsFindFrom (base : Nat) (fs : Fs) (path : List UInt8) (files i : Nat) : Nat → FsM (Option Nat)
  | 0 => do
      let _ ← fs.load base 8
      return none
  | n + 1 => do
      let _ ← fs.load base 8
      if (← strcmp base fs (files + i * fsFileRecordSize) path) = 0 then return some i
      else fsFindFrom base fs path files (i + 1) n

/-- `fs_find`: the index of the entry, or `none` for `NULL`. -/
def fsFind (base : Nat) (fs : Fs) (path : List UInt8) : FsM (Option Nat) :=
  if !fs.superblock then return none
  else do
    let files ← fs.load base 12
    fsFindFrom base fs path files 0 fs.fileCount

/-- `fs_file_size`. -/
def fsFileSize (base : Nat) (fs : Fs) (i : Nat) : FsM Nat :=
  fs.load base (fs.entry i + fsFilenameMax + 4)

/-- `fs_file_data`. -/
def fsFileData (base : Nat) (fs : Fs) (i : Nat) : FsM (Option Nat) := do
  let offset ← fs.load base (fs.entry i + fsFilenameMax)
  if fs.imageSize < offset then return none
  else
    let size ← fs.load base (fs.entry i + fsFilenameMax + 4)
    if fs.imageSize - offset < size then return none
    else return some offset

/-! ## `file.c` -/

/-- `file_open`: the value returned and `*file`. -/
def fileOpen (base : Nat) (fs : Fs) (path : Option (List UInt8)) (access : Nat)
    (file : Option File) : FsM (Int × Option File) :=
  if access ≠ fileAccessRead ∧ access ≠ fileAccessWrite ∧ access ≠ fileAccessReadWrite then
    return (-1, file)
  else
    match path, file with
    | some path, some _ => do
        match ← fs.fsFind base path with
        | none => return (-1, file)
        | some i => return (0, some { fsFile := some i, position := 0, access := access })
    | _, _ => return (-1, file)

/-- Where `memcpy` reads: the file's data, or the first bytes of the address space. -/
def dataAddress (base : Nat) : Option Nat → Nat
  | some offset => base + offset
  | none => 0

/-- Byte `k` of the memory at an address; `memory` is what lies outside the image. -/
def sourceBytes (memory : Block) (fs : Fs) (position : Nat) : Option Nat → Block
  | some offset => fun k => fs.image (offset + position + k)
  | none => fun k => memory (position + k)

/-- `file_read` of an open entry, past the checks. -/
def readEntry (base : Nat) (memory : Block) (fs : Fs) (file : File) (i : Nat) (buffer : Block)
    (count : Nat) : FsM (Int × File × Block) := do
  let size ← fs.fsFileSize base i
  if size ≤ file.position then return (0, file, buffer)
  else
    let size ← fs.fsFileSize base i
    let remaining := size - file.position
    let count := if remaining < count then remaining else count
    let data ← fs.fsFileData base i
    report (.memcpy (dataAddress base data + file.position) count)
    return (count, { file with position := file.position + count },
      copy buffer 0 count (fs.sourceBytes memory file.position data))

/-- `file_read`: the value returned, `*file` and the buffer. -/
def fileRead (base : Nat) (memory : Block) (fs : Fs) (file : Option File) (buffer : Option Block)
    (count : Nat) : FsM (Int × Option File × Option Block) :=
  match file, buffer with
  | some f, some b =>
      match f.fsFile with
      | none => return (-1, file, buffer)
      | some i =>
          if f.access ≠ fileAccessRead ∧ f.access ≠ fileAccessReadWrite then
            return (-1, file, buffer)
          else do
            let (n, f, b) ← readEntry base memory fs f i b count
            return (n, some f, some b)
  | _, _ => return (-1, file, buffer)

/-! ## What a mounted image has -/

/-- `fs_mount` has accepted the image. -/
structure Mounted (fs : Fs) : Prop where
  superblock : fs.superblock = true
  size : fsSuperblockSize ≤ fs.imageSize
  check : fs.checkSuperblock = 0

theorem mounted_of_fsMount {fs : Fs} {base : Nat} {image : Block} {size : Nat}
    (h : (fsMount fs base image size).1 = 0) : Mounted (fsMount fs base image size).2 := by
  unfold fsMount at h ⊢
  by_cases hbase : base = 0
  · rw [if_pos hbase] at h
    cases h
  · rw [if_neg hbase] at h ⊢
    by_cases hsize : size < fsSuperblockSize
    · rw [if_pos hsize] at h
      cases h
    · rw [if_neg hsize] at h ⊢
      exact ⟨rfl, Nat.le_of_not_lt hsize, h⟩

/-- The conditions that the checks of the superblock come to. -/
theorem checkSuperblock_eq_zero (fs : Fs) :
    fs.checkSuperblock = 0 ↔
      fs.magic = fsMagic ∧ fs.version = fsVersion ∧ fs.filesOffset ≤ fs.imageSize ∧
        fs.fileCount ≤ (fs.imageSize - fs.filesOffset) / fsFileRecordSize ∧
        fs.filesEnd ≤ fs.dataOffset ∧ fs.dataOffset ≤ fs.imageSize := by
  have hne : (-1 : Int) ≠ 0 := by decide
  constructor
  · intro h
    unfold checkSuperblock at h
    by_cases h1 : fs.magic ≠ fsMagic
    · rw [if_pos h1] at h
      exact absurd h hne
    rw [if_neg h1] at h
    by_cases h2 : fs.version ≠ fsVersion
    · rw [if_pos h2] at h
      exact absurd h hne
    rw [if_neg h2] at h
    by_cases h3 : fs.imageSize < fs.filesOffset
    · rw [if_pos h3] at h
      exact absurd h hne
    rw [if_neg h3] at h
    by_cases h4 : (fs.imageSize - fs.filesOffset) / fsFileRecordSize < fs.fileCount
    · rw [if_pos h4] at h
      exact absurd h hne
    rw [if_neg h4] at h
    by_cases h5 : fs.dataOffset < fs.filesEnd
    · rw [if_pos h5] at h
      exact absurd h hne
    rw [if_neg h5] at h
    by_cases h6 : fs.imageSize < fs.dataOffset
    · rw [if_pos h6] at h
      exact absurd h hne
    exact ⟨not_not.mp h1, not_not.mp h2, Nat.le_of_not_lt h3, Nat.le_of_not_lt h4,
      Nat.le_of_not_lt h5, Nat.le_of_not_lt h6⟩
  · rintro ⟨h1, h2, h3, h4, h5, h6⟩
    unfold checkSuperblock
    rw [if_neg (not_not.mpr h1), if_neg (not_not.mpr h2), if_neg (Nat.not_lt.mpr h3),
      if_neg (Nat.not_lt.mpr h4), if_neg (Nat.not_lt.mpr h5), if_neg (Nat.not_lt.mpr h6)]

/-- Every entry of the file table is in the image. -/
theorem Mounted.entry_le {fs : Fs} {i : Nat} (h : Mounted fs) (hi : i < fs.fileCount) :
    fs.entry i + fsFileRecordSize ≤ fs.imageSize := by
  obtain ⟨-, -, hoffset, hcount, -, -⟩ := fs.checkSuperblock_eq_zero.mp h.check
  have hmul := (Nat.le_div_iff_mul_le (by decide)).mp (Nat.lt_of_lt_of_le hi hcount)
  unfold entry
  simp only [fsFileRecordSize] at *
  omega

/-! ## Names and paths -/

/-- Character `k` of a path, whose terminator is no character of the list. -/
def character (path : List UInt8) (k : Nat) : UInt8 := path.getD k 0

@[simp] theorem character_cons_zero (b : UInt8) (path : List UInt8) :
    character (b :: path) 0 = b := rfl

@[simp] theorem character_cons_succ (b : UInt8) (path : List UInt8) (k : Nat) :
    character (b :: path) (k + 1) = character path k := rfl

@[simp] theorem character_nil (k : Nat) : character [] k = 0 := rfl

/-- The string at `offset` of the image is `path`. -/
def Spells (fs : Fs) (offset : Nat) (path : List UInt8) : Prop :=
  ∃ n, (∀ k < n, fs.image (offset + k) = character path k ∧ character path k ≠ 0) ∧
    fs.image (offset + n) = 0 ∧ character path n = 0

/-- The string at `offset` ends or differs from `path` at a byte of the image. -/
def Ends (fs : Fs) (offset : Nat) (path : List UInt8) : Prop :=
  ∃ n, offset + n < fs.imageSize ∧
    (fs.image (offset + n) = 0 ∨ fs.image (offset + n) ≠ character path n)

section Strcmp

variable {fs : Fs} {base offset : Nat} {b : UInt8} {path : List UInt8}

/-- A first character that is neither the end nor different is followed by the rest. -/
theorem spells_cons (h : fs.image offset ≠ 0 ∧ fs.image offset = b) :
    fs.Spells offset (b :: path) ↔ fs.Spells (offset + 1) path := by
  constructor
  · rintro ⟨n, heq, hend, hpath⟩
    cases n with
    | zero => exact absurd hend h.1
    | succ n =>
        refine ⟨n, fun k hk => ?_, ?_, hpath⟩
        · have hk := heq (k + 1) (by omega)
          rw [character_cons_succ] at hk
          rw [Nat.add_assoc, Nat.add_comm 1 k]
          exact hk
        · rw [Nat.add_assoc, Nat.add_comm 1 n]
          exact hend
  · rintro ⟨n, heq, hend, hpath⟩
    refine ⟨n + 1, fun k hk => ?_, ?_, hpath⟩
    · cases k with
      | zero => exact ⟨h.2, fun hb => h.1 (h.2.trans hb)⟩
      | succ k =>
          rw [character_cons_succ, Nat.add_comm k 1, ← Nat.add_assoc]
          exact heq k (by omega)
    · rw [Nat.add_comm n 1, ← Nat.add_assoc]
      exact hend

theorem ends_cons (h : fs.image offset ≠ 0 ∧ fs.image offset = b) :
    fs.Ends offset (b :: path) ↔ fs.Ends (offset + 1) path := by
  constructor
  · rintro ⟨n, hn, hstop⟩
    cases n with
    | zero =>
        rcases hstop with hstop | hstop
        · exact absurd hstop h.1
        · exact absurd h.2 hstop
    | succ n =>
        refine ⟨n, by omega, ?_⟩
        rw [character_cons_succ] at hstop
        rw [Nat.add_assoc, Nat.add_comm 1 n]
        exact hstop
  · rintro ⟨n, hn, hstop⟩
    refine ⟨n + 1, by omega, ?_⟩
    rw [character_cons_succ, Nat.add_comm n 1, ← Nat.add_assoc]
    exact hstop

/-- Where the first character settles the comparison, the strings agree when both end there. -/
theorem spells_of_stop (h : ¬ (fs.image offset ≠ 0 ∧ fs.image offset = character path 0)) :
    fs.Spells offset path ↔ fs.image offset = 0 ∧ character path 0 = 0 := by
  constructor
  · rintro ⟨n, heq, hend, hpath⟩
    cases n with
    | zero => exact ⟨hend, hpath⟩
    | succ n =>
        obtain ⟨heq, hne⟩ := heq 0 (by omega)
        exact absurd ⟨fun h0 => hne (heq.symm.trans h0), heq⟩ h
  · rintro ⟨hend, hpath⟩
    exact ⟨0, fun k hk => absurd hk (by omega), hend, hpath⟩

theorem ends_of_stop (h : ¬ (fs.image offset ≠ 0 ∧ fs.image offset = character path 0)) :
    fs.Ends offset path ↔ offset < fs.imageSize := by
  constructor
  · rintro ⟨n, hn, -⟩
    omega
  · intro hlt
    refine ⟨0, hlt, ?_⟩
    by_cases h0 : fs.image offset = 0
    · exact Or.inl h0
    · exact Or.inr fun heq => h ⟨h0, heq⟩

theorem difference_eq_zero (a b : UInt8) (h : ¬ (a ≠ 0 ∧ a = b)) :
    (a.toNat : Int) - (b.toNat : Int) = 0 ↔ a = 0 ∧ b = 0 := by
  constructor
  · intro heq
    have hab : a = b := UInt8.toNat_inj.mp (by omega)
    have h0 : a = 0 := not_not.mp fun h0 => h ⟨h0, hab⟩
    exact ⟨h0, hab ▸ h0⟩
  · rintro ⟨rfl, rfl⟩
    rfl

/-- `strcmp` returns 0 on equal strings and on no others. -/
theorem strcmp_eq_zero : (fs.strcmp base offset path).value = 0 ↔ fs.Spells offset path := by
  induction path generalizing offset with
  | nil =>
      have hstop : ¬ (fs.image offset ≠ 0 ∧ fs.image offset = character [] 0) := fun h => h.1 h.2
      rw [spells_of_stop hstop]
      have hzero : ((fs.image offset).toNat : Int) - 0 = 0 ↔ _ :=
        difference_eq_zero (fs.image offset) 0 fun h => h.1 h.2
      rw [Int.sub_zero] at hzero
      exact hzero
  | cons b path ih =>
      unfold strcmp
      rw [value_fetch_bind]
      by_cases h : fs.image offset ≠ 0 ∧ fs.image offset = b
      · rw [if_pos h, ih, spells_cons h]
      · rw [if_neg h, value_pure, difference_eq_zero _ _ h, spells_of_stop h, character_cons_zero]

/-- Bytes of the image are read. -/
def Within (base : Nat) (fs : Fs) : FsRead → Prop
  | .load address size => base ≤ address ∧ address + size ≤ base + fs.imageSize
  | .memcpy address size => base ≤ address ∧ address + size ≤ base + fs.imageSize

theorem within_character : fs.Within base (.load (base + offset) 1) ↔ offset < fs.imageSize := by
  constructor
  · rintro ⟨-, h⟩
    omega
  · intro h
    exact ⟨by omega, by omega⟩

/-- `strcmp` stays in the image when the name ends or differs there. -/
theorem strcmp_reports :
    Reports (fs.Within base) (fs.strcmp base offset path) ↔ fs.Ends offset path := by
  induction path generalizing offset with
  | nil =>
      have hstop : ¬ (fs.image offset ≠ 0 ∧ fs.image offset = character [] 0) := fun h => h.1 h.2
      unfold strcmp
      rw [reports_fetch_bind, ends_of_stop hstop, within_character]
      exact and_iff_left reports_pure
  | cons b path ih =>
      unfold strcmp
      rw [reports_fetch_bind, within_character]
      by_cases h : fs.image offset ≠ 0 ∧ fs.image offset = b
      · rw [if_pos h, ih, ends_cons h]
        refine and_iff_right_of_imp ?_
        rintro ⟨n, hn, -⟩
        omega
      · rw [if_neg h, ends_of_stop h]
        exact and_iff_left reports_pure

end Strcmp

/-! ## `fs_find` -/

section Find

variable {fs : Fs} {base i n : Nat} {path : List UInt8}

/-- Entry `i` has this name. -/
def Names (fs : Fs) (i : Nat) (path : List UInt8) : Prop := fs.Spells (fs.entry i) path

theorem fsFindFrom_eq_some {j : Nat} :
    (fs.fsFindFrom base path fs.filesOffset i n).value = some j ↔
      i ≤ j ∧ j < i + n ∧ fs.Names j path ∧ ∀ k, i ≤ k → k < j → ¬ fs.Names k path := by
  induction n generalizing i with
  | zero =>
      constructor
      · intro h
        cases h
      · rintro ⟨h1, h2, -, -⟩
        omega
  | succ n ih =>
      unfold fsFindFrom load
      rw [value_fetch_bind, value_bind]
      by_cases h : (fs.strcmp base (fs.filesOffset + i * fsFileRecordSize) path).value = 0
      · rw [if_pos h, value_pure]
        have hi : fs.Names i path := strcmp_eq_zero.mp h
        constructor
        · intro heq
          obtain rfl := Option.some.inj heq
          exact ⟨Nat.le_refl i, by omega, hi, fun k h1 h2 => by omega⟩
        · rintro ⟨h1, -, -, hfirst⟩
          rcases Nat.lt_or_eq_of_le h1 with h1 | rfl
          · exact absurd hi (hfirst i (Nat.le_refl i) h1)
          · rfl
      · rw [if_neg h, ih]
        have hi : ¬ fs.Names i path := fun hi => h (strcmp_eq_zero.mpr hi)
        constructor
        · rintro ⟨h1, h2, hj, hfirst⟩
          refine ⟨by omega, by omega, hj, fun k hk hkj => ?_⟩
          rcases Nat.lt_or_eq_of_le hk with hk | rfl
          · exact hfirst k hk hkj
          · exact hi
        · rintro ⟨h1, h2, hj, hfirst⟩
          have hne : i ≠ j := fun heq => hi (heq ▸ hj)
          exact ⟨by omega, by omega, hj, fun k hk hkj => hfirst k (by omega) hkj⟩

theorem fsFindFrom_eq_none :
    (fs.fsFindFrom base path fs.filesOffset i n).value = none ↔
      ∀ j, i ≤ j → j < i + n → ¬ fs.Names j path := by
  induction n generalizing i with
  | zero =>
      constructor
      · intro _ j h1 h2
        omega
      · intro _
        rfl
  | succ n ih =>
      unfold fsFindFrom load
      rw [value_fetch_bind, value_bind]
      by_cases h : (fs.strcmp base (fs.filesOffset + i * fsFileRecordSize) path).value = 0
      · rw [if_pos h, value_pure]
        constructor
        · intro heq
          cases heq
        · intro hno
          exact absurd (strcmp_eq_zero.mp h) (hno i (Nat.le_refl i) (by omega))
      · rw [if_neg h, ih]
        constructor
        · intro hno j h1 h2
          rcases Nat.lt_or_eq_of_le h1 with h1 | rfl
          · exact hno j h1 (by omega)
          · exact fun hi => h (strcmp_eq_zero.mpr hi)
        · intro hno j h1 h2
          exact hno j (by omega) (by omega)

/-- The names compared with a path: those of the entries up to the first of that name. -/
def AllEnd (fs : Fs) (path : List UInt8) (i n : Nat) : Prop :=
  ∀ j, i ≤ j → j < i + n → (∀ k, i ≤ k → k < j → ¬ fs.Names k path) →
    fs.Ends (fs.entry j) path

theorem within_load {offset : Nat} (h : offset + 4 ≤ fs.imageSize) :
    fs.Within base (.load (base + offset) 4) := by
  constructor
  · omega
  · omega

theorem fsFindFrom_reports (hsize : fsSuperblockSize ≤ fs.imageSize) :
    Reports (fs.Within base) (fs.fsFindFrom base path fs.filesOffset i n) ↔
      fs.AllEnd path i n := by
  have hcount : fs.Within base (.load (base + 8) 4) := by
    simp only [fsSuperblockSize] at hsize
    exact within_load (by omega)
  induction n generalizing i with
  | zero =>
      unfold fsFindFrom load
      rw [reports_fetch_bind]
      constructor
      · intro _ j h1 h2
        omega
      · intro _
        exact ⟨hcount, reports_pure⟩
  | succ n ih =>
      unfold fsFindFrom load
      rw [reports_fetch_bind, and_iff_right hcount, reports_bind_value]
      have hends : Reports (fs.Within base)
          (fs.strcmp base (fs.filesOffset + i * fsFileRecordSize) path) ↔
          fs.Ends (fs.entry i) path := strcmp_reports
      by_cases h : (fs.strcmp base (fs.filesOffset + i * fsFileRecordSize) path).value = 0
      · rw [if_pos h, hends, and_iff_left reports_pure]
        have hi : fs.Names i path := strcmp_eq_zero.mp h
        constructor
        · intro he j h1 h2 hfirst
          rcases Nat.lt_or_eq_of_le h1 with h1 | rfl
          · exact absurd hi (hfirst i (Nat.le_refl i) h1)
          · exact he
        · intro hall
          exact hall i (Nat.le_refl i) (by omega) fun k h1 h2 => by omega
      · rw [if_neg h, hends]
        refine (and_congr_right fun _ => ih).trans ?_
        have hi : ¬ fs.Names i path := fun hi => h (strcmp_eq_zero.mpr hi)
        constructor
        · rintro ⟨he, hrest⟩ j h1 h2 hfirst
          rcases Nat.lt_or_eq_of_le h1 with h1 | rfl
          · exact hrest j h1 (by omega) fun k hk hkj => hfirst k (by omega) hkj
          · exact he
        · intro hall
          refine ⟨hall i (Nat.le_refl i) (by omega) fun k h1 h2 => by omega, ?_⟩
          intro j h1 h2 hfirst
          refine hall j (by omega) (by omega) fun k hk hkj => ?_
          rcases Nat.lt_or_eq_of_le hk with hk | rfl
          · exact hfirst k hk hkj
          · exact hi

/-- The entry found is the first of that name. -/
theorem fsFind_eq_some (h : Mounted fs) :
    (fs.fsFind base path).value = some i ↔
      i < fs.fileCount ∧ fs.Names i path ∧ ∀ k < i, ¬ fs.Names k path := by
  unfold fsFind load
  rw [h.superblock]
  show (fs.fsFindFrom base path fs.filesOffset 0 fs.fileCount).value = some i ↔ _
  rw [fsFindFrom_eq_some]
  constructor
  · rintro ⟨-, h1, hi, hfirst⟩
    exact ⟨by omega, hi, fun k hk => hfirst k (by omega) hk⟩
  · rintro ⟨h1, hi, hfirst⟩
    exact ⟨by omega, by omega, hi, fun k _ hk => hfirst k hk⟩

theorem fsFind_eq_none (h : Mounted fs) :
    (fs.fsFind base path).value = none ↔ ∀ i < fs.fileCount, ¬ fs.Names i path := by
  unfold fsFind load
  rw [h.superblock]
  show (fs.fsFindFrom base path fs.filesOffset 0 fs.fileCount).value = none ↔ _
  rw [fsFindFrom_eq_none]
  constructor
  · intro hno i hi
    exact hno i (by omega) (by omega)
  · intro hno i _ hi
    exact hno i (by omega)

theorem fsFind_reports (h : Mounted fs) :
    Reports (fs.Within base) (fs.fsFind base path) ↔ fs.AllEnd path 0 fs.fileCount := by
  unfold fsFind load
  rw [h.superblock]
  show Reports _ (fetch (.load (base + 12) 4) fs.filesOffset >>= fun files =>
    fs.fsFindFrom base path files 0 fs.fileCount) ↔ _
  have hsize := h.size
  simp only [fsSuperblockSize] at hsize
  rw [reports_fetch_bind, and_iff_right (within_load (by omega)), fsFindFrom_reports h.size]

end Find

/-! ## `fs_file_data` -/

/-- The data of entry `i` is in the image. -/
def DataWithin (fs : Fs) (i : Nat) : Prop := fs.offset i + fs.fileSize i ≤ fs.imageSize

section Data

variable {fs : Fs} {i : Nat}

/-- `fs_file_data` returns `NULL` when the data is not in the image. -/
theorem fsFileData_value (base : Nat) (fs : Fs) (i : Nat) :
    (fs.fsFileData base i).value = fs.fileData i := by
  unfold fsFileData load fileData
  rw [value_fetch_bind]
  by_cases h : fs.imageSize < fs.offset i
  · rw [if_pos h]
    exact congrArg value (if_pos h)
  · rw [if_neg h]
    refine (congrArg value (if_neg h)).trans ?_
    rw [value_fetch_bind]
    by_cases hs : fs.imageSize - fs.offset i < fs.fileSize i
    · rw [if_pos hs]
      exact congrArg value (if_pos hs)
    · rw [if_neg hs]
      exact congrArg value (if_neg hs)

theorem fileData_of_within (h : fs.DataWithin i) : fs.fileData i = some (fs.offset i) := by
  unfold DataWithin at h
  unfold fileData
  rw [if_neg (by omega), if_neg (by omega)]

end Data

end Fs

end Neox
