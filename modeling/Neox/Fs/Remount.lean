import Neox.Fs.Reads

/-!
# Mounting over a mounted file system

The three statics of `fs/fs.c` with the pointers they hold. `fs_mount` assigns them after its first
two checks and before the others, so a superblock that is refused stays mounted.

* `fs_mount_all_or_nothing_iff`: for which images a failed mount changes nothing.
-/

namespace Neox

open Bytes Traced

/-- The memory from an address on. -/
def memoryFrom (memory : Block) (address : Nat) : Block := fun k => memory ((address + k) % wordModulus)

/-- `fs_image`, `fs_image_size` and `fs_superblock`; 0 is `NULL`. -/
structure FsGlobals where
  fsImage : UInt32
  fsImageSize : UInt32
  fsSuperblock : UInt32
  /-- Both pointers are assigned together. -/
  same : fsSuperblock = fsImage

/-- A `struct file` with the address of its entry. -/
structure OpenFile where
  fsFile : Nat
  position : Nat
  access : Nat
  deriving DecidableEq, Repr

/-- The statics before any call. -/
def initialGlobals : FsGlobals where
  fsImage := 0
  fsImageSize := 0
  fsSuperblock := 0
  same := rfl

namespace FsGlobals

/-- What the statics point to. -/
def view (g : FsGlobals) (memory : Block) : Fs where
  image := memoryFrom memory g.fsImage.toNat
  imageSize := g.fsImageSize.toNat
  superblock := decide (g.fsSuperblock ≠ 0)

/-- `fs_mount`. -/
def fsMount (g : FsGlobals) (memory : Block) (image size : UInt32) : Int × FsGlobals :=
  if image = 0 then (-1, g)
  else if size.toNat < fsSuperblockSize then (-1, g)
  else
    let g : FsGlobals :=
      { fsImage := image, fsImageSize := size, fsSuperblock := image, same := rfl }
    ((g.view memory).checkSuperblock, g)

/-- `fs_find`: the address of the entry, or 0. -/
def fsFind (g : FsGlobals) (memory : Block) (path : List UInt8) : Nat :=
  match ((g.view memory).fsFind g.fsImage.toNat path).value with
  | none => 0
  | some i => (g.fsImage.toNat + (g.view memory).entry i) % wordModulus

/-- `fs_file_data`: the address of the data, or 0. -/
def fsFileData (g : FsGlobals) (memory : Block) (file : Nat) : Nat :=
  if file = 0 then 0
  else
    let offset := read32 (memoryFrom memory file) fsFilenameMax
    let size := read32 (memoryFrom memory file) (fsFilenameMax + 4)
    if g.fsImageSize.toNat < offset then 0
    else if g.fsImageSize.toNat - offset < size then 0
    else (g.fsImage.toNat + offset) % wordModulus

/-- `file_open`: the value returned and `*file`. -/
def fileOpen (g : FsGlobals) (memory : Block) (path : Option (List UInt8)) (access : Nat)
    (file : Option OpenFile) : Int × Option OpenFile :=
  if access ≠ fileAccessRead ∧ access ≠ fileAccessWrite ∧ access ≠ fileAccessReadWrite then
    (-1, file)
  else
    match path, file with
    | some path, some _ =>
        if g.fsFind memory path = 0 then (-1, file)
        else (0, some { fsFile := g.fsFind memory path, position := 0, access := access })
    | _, _ => (-1, file)

/-- Every later call does the same under both, whatever the memory holds then. -/
structure SameCalls (g g' : FsGlobals) : Prop where
  fsFind : ∀ memory path, g.fsFind memory path = g'.fsFind memory path
  fsFileData : ∀ memory file, g.fsFileData memory file = g'.fsFileData memory file
  fileOpen : ∀ memory path access file,
    g.fileOpen memory path access file = g'.fileOpen memory path access file

end FsGlobals

/-- The superblock at `image` describes an image of `size` bytes: its table is in the image, its data
begins after the table, and no 32-bit sum wraps. -/
structure Describes (memory : Block) (image size : UInt32) : Prop where
  magic : read32 (memoryFrom memory image.toNat) 0 = fsMagic
  version : read32 (memoryFrom memory image.toNat) 4 = fsVersion
  table : read32 (memoryFrom memory image.toNat) 12 +
    fsFileRecordSize * read32 (memoryFrom memory image.toNat) 8 ≤ size.toNat
  data : read32 (memoryFrom memory image.toNat) 12 +
    fsFileRecordSize * read32 (memoryFrom memory image.toNat) 8 ≤
      read32 (memoryFrom memory image.toNat) 16
  inside : read32 (memoryFrom memory image.toNat) 16 ≤ size.toNat
  noWrap : read32 (memoryFrom memory image.toNat) 12 +
    fsFileRecordSize * read32 (memoryFrom memory image.toNat) 8 < wordModulus

/-- A failed mount changes no later call, and a mount that succeeds has found a superblock that
describes the image. -/
structure AllOrNothing (g : FsGlobals) (memory : Block) (image size : UInt32) : Prop where
  refused : (g.fsMount memory image size).1 = -1 →
    (g.fsMount memory image size).2.SameCalls g
  accepted : (g.fsMount memory image size).1 = 0 → Describes memory image size

theorem Fs.checkSuperblock_cases (fs : Fs) :
    fs.checkSuperblock = 0 ∨ fs.checkSuperblock = -1 := by
  unfold Fs.checkSuperblock
  repeat' split
  all_goals simp

namespace FsGlobals

variable {g g' : FsGlobals} {memory : Block} {image size : UInt32}

theorem SameCalls.refl (g : FsGlobals) : g.SameCalls g :=
  ⟨fun _ _ => rfl, fun _ _ => rfl, fun _ _ _ _ => rfl⟩

theorem ext_image (himage : g.fsImage = g'.fsImage) (hsize : g.fsImageSize = g'.fsImageSize) :
    g = g' := by
  obtain ⟨i, s, p, hp⟩ := g
  obtain ⟨i', s', p', hp'⟩ := g'
  obtain rfl : i = i' := himage
  obtain rfl : s = s' := hsize
  obtain rfl : p = i := hp
  obtain rfl : p' = p := hp'
  rfl

/-! ## What later calls tell about the statics -/

/-- The data of an entry of zeros is the image. -/
theorem fsFileData_zero (g : FsGlobals) : g.fsFileData zero 1 = g.fsImage.toNat := by
  have hread (offset : Nat) : read32 (memoryFrom zero 1) offset = 0 := rfl
  unfold fsFileData
  rw [if_neg (by decide)]
  simp only [hread]
  rw [if_neg (Nat.not_lt_zero _), if_neg (Nat.not_lt_zero _)]
  exact Nat.mod_eq_of_lt g.fsImage.toNat_lt

/-- An entry at address 1 whose data is at offset 0 and has this size. -/
def entryOfSize (size : Nat) : Block := write32 zero 69 size

theorem memoryFrom_entryOfSize (size : Nat) {k : Nat} (hk : k < 100) :
    memoryFrom (entryOfSize size) 1 k = write32 zero 68 size k := by
  have hsum : (1 + k) % wordModulus = k + 1 := by
    simp only [wordModulus]
    omega
  have hdiff : k + 1 - 69 = k - 68 := by omega
  unfold memoryFrom entryOfSize write32
  rw [hsum, hdiff]
  by_cases hin : 68 ≤ k ∧ k < 68 + 4
  · rw [if_pos hin, if_pos (by omega)]
  · rw [if_neg hin, if_neg (by omega)]
    rfl

/-- The data of that entry is the image when its size fits. -/
theorem fsFileData_entryOfSize (g : FsGlobals) (size : UInt32) :
    g.fsFileData (entryOfSize size.toNat) 1 =
      if g.fsImageSize.toNat < size.toNat then 0 else g.fsImage.toNat := by
  have hoffset : read32 (memoryFrom (entryOfSize size.toNat) 1) fsFilenameMax = 0 := by
    rw [read32_congr fun k hk => memoryFrom_entryOfSize _ (by simp only [fsFilenameMax]; omega),
      read32_write32_of_disjoint (by simp only [fsFilenameMax]; omega)]
    rfl
  have hsize : read32 (memoryFrom (entryOfSize size.toNat) 1) (fsFilenameMax + 4) = size.toNat := by
    rw [read32_congr fun k hk => memoryFrom_entryOfSize _ (by simp only [fsFilenameMax]; omega)]
    exact read32_write32 zero 68 size.toNat_lt
  unfold fsFileData
  rw [if_neg (by decide)]
  simp only [hoffset, hsize]
  rw [if_neg (Nat.not_lt_zero _), Nat.sub_zero, Nat.add_zero, Nat.mod_eq_of_lt g.fsImage.toNat_lt]

theorem SameCalls.size_le (h : g.SameCalls g') (himage : g.fsImage ≠ 0) :
    g.fsImageSize.toNat ≤ g'.fsImageSize.toNat := by
  -- An entry of the size of the one image is refused in a smaller one.
  have hdata := h.fsFileData (entryOfSize g.fsImageSize.toNat) 1
  rw [fsFileData_entryOfSize, fsFileData_entryOfSize, if_neg (Nat.lt_irrefl _)] at hdata
  by_contra hlt
  rw [if_pos (by omega)] at hdata
  exact himage (UInt32.toNat_inj.mp hdata)

theorem SameCalls.symm (h : g.SameCalls g') : g'.SameCalls g :=
  ⟨fun m p => (h.fsFind m p).symm, fun m f => (h.fsFileData m f).symm,
    fun m p a f => (h.fileOpen m p a f).symm⟩

/-- Later calls tell the image and its size. -/
theorem SameCalls.eq (h : g.SameCalls g') (himage : g.fsImage ≠ 0) : g = g' := by
  have hsame : g.fsImage = g'.fsImage := by
    have hdata := h.fsFileData zero 1
    rw [fsFileData_zero, fsFileData_zero] at hdata
    exact UInt32.toNat_inj.mp hdata
  have hle : g.fsImageSize.toNat ≤ g'.fsImageSize.toNat := h.size_le himage
  have hge : g'.fsImageSize.toNat ≤ g.fsImageSize.toNat := h.symm.size_le (hsame ▸ himage)
  exact ext_image hsame (UInt32.toNat_inj.mp (Nat.le_antisymm hle hge))

/-! ## `fs_mount` -/

/-- `fs_mount` is that of the image that the pointer points to. -/
theorem fsMount_eq (g : FsGlobals) (memory : Block) (image size : UInt32) :
    ((g.fsMount memory image size).1, (g.fsMount memory image size).2.view memory) =
      (g.view memory).fsMount image.toNat (memoryFrom memory image.toNat) size.toNat := by
  unfold fsMount Fs.fsMount
  by_cases himage : image = 0
  · have hzero : image.toNat = 0 := UInt32.toNat_inj.mpr himage
    rw [if_pos himage, if_pos hzero]
  · have hne : image.toNat ≠ 0 := fun h => himage (UInt32.toNat_inj.mp h)
    rw [if_neg himage, if_neg hne]
    by_cases hsize : size.toNat < fsSuperblockSize
    · rw [if_pos hsize, if_pos hsize]
    · rw [if_neg hsize, if_neg hsize]
      have hview : view ⟨image, size, image, rfl⟩ memory =
          { image := memoryFrom memory image.toNat, imageSize := size.toNat, superblock := true } := by
        unfold view
        rw [decide_eq_true himage]
      simp only [hview]

/-- The checks accept the superblocks that describe the image, and no other. -/
theorem checkSuperblock_iff (hg : g.fsImage = image) (hsize : g.fsImageSize = size) :
    (g.view memory).checkSuperblock = 0 ↔ Describes memory image size := by
  subst hg hsize
  have hlt : g.fsImageSize.toNat < wordModulus := g.fsImageSize.toNat_lt
  rw [Fs.checkSuperblock_eq_zero]
  constructor
  · intro ⟨hmagic, hversion, htable, hcount, hdata, hinside⟩
    have hmul : (g.view memory).fileCount * 72 ≤ g.fsImageSize.toNat - (g.view memory).filesOffset :=
      (Nat.le_div_iff_mul_le (by decide)).mp hcount
    have htable' : (g.view memory).filesOffset ≤ g.fsImageSize.toNat := htable
    -- The table is in the image, so its end has not wrapped.
    have hend : (g.view memory).filesEnd =
        (g.view memory).filesOffset + 72 * (g.view memory).fileCount := by
      unfold Fs.filesEnd
      simp only [wordModulus, fsFileRecordSize] at hlt ⊢
      omega
    rw [hend] at hdata
    refine ⟨hmagic, hversion, ?_, hdata, hinside, ?_⟩
    · show (g.view memory).filesOffset + 72 * (g.view memory).fileCount ≤ g.fsImageSize.toNat
      omega
    · show (g.view memory).filesOffset + 72 * (g.view memory).fileCount < wordModulus
      omega
  · intro ⟨hmagic, hversion, htable, hdata, hinside, hwrap⟩
    have htable : (g.view memory).filesOffset + 72 * (g.view memory).fileCount ≤
      g.fsImageSize.toNat := htable
    have hwrap : (g.view memory).filesOffset + 72 * (g.view memory).fileCount < wordModulus := hwrap
    have hdata : (g.view memory).filesOffset + 72 * (g.view memory).fileCount ≤
      (g.view memory).dataOffset := hdata
    refine ⟨hmagic, hversion, ?_, ?_, ?_, hinside⟩
    · show (g.view memory).filesOffset ≤ g.fsImageSize.toNat
      omega
    · apply (Nat.le_div_iff_mul_le (by decide)).mpr
      show (g.view memory).fileCount * 72 ≤ g.fsImageSize.toNat - (g.view memory).filesOffset
      omega
    · unfold Fs.filesEnd
      simp only [wordModulus, fsFileRecordSize] at hwrap ⊢
      omega

/-- A mount that passes the first two checks leaves its image mounted. -/
theorem fsMount_assigned (g : FsGlobals) (memory : Block) (himage : image ≠ 0) (hsize : ¬ size.toNat < fsSuperblockSize) :
    (g.fsMount memory image size).2.fsImage = image ∧
      (g.fsMount memory image size).2.fsImageSize = size ∧
      ((g.fsMount memory image size).1 = 0 ↔ Describes memory image size) ∧
      ((g.fsMount memory image size).1 = 0 ∨ (g.fsMount memory image size).1 = -1) := by
  unfold fsMount
  rw [if_neg himage, if_neg hsize]
  exact ⟨rfl, rfl, checkSuperblock_iff rfl rfl, Fs.checkSuperblock_cases _⟩

/-- A mount that fails one of the first two checks assigns nothing. -/
theorem fsMount_of_first (h : image = 0 ∨ size.toNat < fsSuperblockSize) :
    g.fsMount memory image size = (-1, g) := by
  unfold fsMount
  by_cases himage : image = 0
  · exact if_pos himage
  · rw [if_neg himage]
    exact if_pos (h.resolve_left himage)

theorem describes_of_fsMount (g : FsGlobals) (memory : Block) (image size : UInt32)
    (h : (g.fsMount memory image size).1 = 0) : Describes memory image size := by
  by_cases hfirst : image = 0 ∨ size.toNat < fsSuperblockSize
  · rw [fsMount_of_first hfirst] at h
    cases h
  · obtain ⟨himage, hsize⟩ := not_or.mp hfirst
    exact (g.fsMount_assigned memory himage hsize).2.2.1.mp h

end FsGlobals

/-- Whatever is mounted, a mount is all or nothing exactly when the image is `NULL` or too small for a
superblock, or its superblock describes it, or the same image is mounted already with this size. -/
theorem fs_mount_all_or_nothing_iff (g : FsGlobals) (memory : Block) (image size : UInt32) :
    AllOrNothing g memory image size ↔
      image = 0 ∨ size.toNat < fsSuperblockSize ∨ Describes memory image size ∨
        (g.fsImage = image ∧ g.fsImageSize = size) := by
  constructor
  · intro h
    by_cases hfirst : image = 0 ∨ size.toNat < fsSuperblockSize
    · exact hfirst.imp_right Or.inl
    obtain ⟨himage, hsize⟩ := not_or.mp hfirst
    obtain ⟨hnew, hnewSize, hzero, hvalue⟩ :=
      g.fsMount_assigned memory himage hsize
    refine Or.inr (Or.inr ?_)
    rcases hvalue with hvalue | hvalue
    · exact Or.inl (hzero.mp hvalue)
    · -- The new statics answer as the old ones do, so they are the old ones.
      have hne : (g.fsMount memory image size).2.fsImage ≠ 0 := by
        rw [hnew]
        exact himage
      have hsame : (g.fsMount memory image size).2 = g := (h.refused hvalue).eq hne
      rw [hsame] at hnew hnewSize
      exact Or.inr ⟨hnew, hnewSize⟩
  · intro h
    refine ⟨fun hfail => ?_, g.describes_of_fsMount memory image size⟩
    by_cases hfirst : image = 0 ∨ size.toNat < fsSuperblockSize
    · rw [FsGlobals.fsMount_of_first hfirst]
      exact FsGlobals.SameCalls.refl g
    obtain ⟨himage, hsize⟩ := not_or.mp hfirst
    obtain ⟨hnew, hnewSize, hzero, -⟩ :=
      g.fsMount_assigned memory himage hsize
    rcases (h.resolve_left himage).resolve_left hsize with hdescribes | ⟨hsame, hsameSize⟩
    · have hvalue := hzero.mpr hdescribes
      rw [hfail] at hvalue
      cases hvalue
    · have heq : (g.fsMount memory image size).2 = g :=
        FsGlobals.ext_image (hnew.trans hsame.symm) (hnewSize.trans hsameSize.symm)
      rw [heq]
      exact FsGlobals.SameCalls.refl g

/-- An image of one file at `0xC0200000` and zeros elsewhere. -/
def oneImageMemory : Block := fun k =>
  if 0xC0200000 ≤ k then oneFileImage 92 (k - 0xC0200000) else 0

/-- The image is mounted; mounting zeros fails, and after it the file is not found any more. -/
theorem fs_mount_forgets :
    (initialGlobals.fsMount oneImageMemory 0xC0200000 96).1 = 0 ∧
    ((initialGlobals.fsMount oneImageMemory 0xC0200000 96).2.fsMount oneImageMemory 0xC0300000
      96).1 = -1 ∧
    ¬ AllOrNothing (initialGlobals.fsMount oneImageMemory 0xC0200000 96).2 oneImageMemory
      0xC0300000 96 := by
  have hfail : ((initialGlobals.fsMount oneImageMemory 0xC0200000 96).2.fsMount oneImageMemory
      0xC0300000 96).1 = -1 := by decide +kernel
  refine ⟨by decide +kernel, hfail, fun h => ?_⟩
  have hfind := (h.refused hfail).fsFind oneImageMemory [0x61]
  revert hfind
  decide +kernel

end Neox
