import Neox.Lib.Checked
import Neox.Lib.Encoding
import Neox.Fs.Mount

/-!
# Images written by `mkfs`

`tools/mkfs.c`, which writes an image from a list of `path=source` arguments, against `fs/fs.c`,
which reads it. The files of the host do not change while `mkfs` runs, and its allocations and writes
succeed.

* `mkfs_round_trip`: what `mkfs` has written is found again.
-/

namespace Neox

open Bytes Traced

/-- A string: the bytes before its terminator. -/
abbrev CString := { s : List UInt8 // (0 : UInt8) ∉ s }

namespace Mkfs

/-! ## `mkfs.c` -/

/-- Where `mkfs` gives up. -/
inductive Failure
  | usage
  | perror (path : List UInt8)
  | die (message : String)

/-- What each file of the host holds. -/
abbrev Host := List UInt8 → Option (List UInt8)

/-- `struct input_file`. -/
structure InputFile where
  name : List UInt8
  hostPath : List UInt8
  size : Nat
  offset : Nat

/-- `get_file_size`. -/
def getFileSize (host : Host) (path : List UInt8) : Except Failure Nat :=
  match host path with
  | none => throw (.perror path)
  | some content =>
      if 0xFFFFFFFF < content.length then throw (.die "input file is too large")
      else return content.length

/-- `copy_file`: the bytes written. -/
def copyFile (host : Host) (path : List UInt8) (size : Nat) : Except Failure (List UInt8) :=
  match host path with
  | none => throw (.perror path)
  | some content =>
      if content.length < size then throw (.die "failed to read input file")
      else return content.take size

/-- `create_file_entry`: the bytes of the `struct fs_file`. -/
def createFileEntry (input : InputFile) : Except Failure (List UInt8) :=
  if fsFilenameMax ≤ input.name.length then throw (.die "filesystem path is too long")
  else return input.name ++ List.replicate (fsFilenameMax - input.name.length) 0 ++
    (le32 input.offset ++ le32 input.size)

/-- `'='`. -/
abbrev separator : UInt8 := 0x3D

/-- The argument up to its first `=`. -/
def inputPath (argument : CString) : List UInt8 := argument.val.takeWhile (· ≠ separator)

/-- The argument after its first `=`. -/
def inputSource (argument : CString) : List UInt8 :=
  (argument.val.dropWhile (· ≠ separator)).tail

/-- `parse_input`. -/
def parseInput (host : Host) (argument : CString) : Except Failure InputFile :=
  if separator ∉ argument.val then throw (.die "input must have the form <path>=<source>")
  else if (inputPath argument).length = 0 then throw (.die "filesystem path cannot be empty")
  else if fsFilenameMax ≤ (inputPath argument).length then
    throw (.die "filesystem path is too long")
  else do
    let size ← getFileSize host (inputSource argument)
    return { name := inputPath argument, hostPath := inputSource argument, size, offset := 0 }

/-- The loop that sets the offsets; `current` is `current_offset`. -/
def setOffsets (current : Nat) : List InputFile → List InputFile
  | [] => []
  | input :: inputs =>
      { input with offset := current } :: setOffsets ((current + input.size) % wordModulus) inputs

/-- The bytes of the `struct fs_superblock`. -/
def superblock (fileCount filesOffset dataOffset : Nat) : List UInt8 :=
  le32 fsMagic ++ (le32 fsVersion ++ (le32 fileCount ++ (le32 filesOffset ++ le32 dataOffset)))

/-- `main` on the arguments after the output: the image it writes. -/
def mkfs (host : Host) (arguments : List CString) : Except Failure (List UInt8) := do
  if arguments = [] then throw .usage
  let inputs ← arguments.mapM (parseInput host)
  if 0xFFFFFFFF < inputs.length then throw (.die "too many filesystem files")
  let fileCount := inputs.length % wordModulus
  let filesOffset := fsSuperblockSize
  let dataOffset := (filesOffset + fileCount * fsFileRecordSize) % wordModulus
  let inputs := setOffsets dataOffset inputs
  let files ← inputs.mapM createFileEntry
  let contents ← inputs.mapM fun input => copyFile host input.hostPath input.size
  return superblock fileCount filesOffset dataOffset ++ (files.flatten ++ contents.flatten)

/-! ## What each step leaves -/

/-- The input made of an argument. -/
structure Parsed (host : Host) (argument : CString) (input : InputFile) (content : List UInt8) :
    Prop where
  name : input.name = inputPath argument
  hostPath : input.hostPath = inputSource argument
  short : input.name.length < fsFilenameMax
  source : host (inputSource argument) = some content
  size : input.size = content.length
  small : content.length < wordModulus

theorem parsed_of_parseInput {host : Host} {argument : CString} {input : InputFile}
    (h : parseInput host argument = .ok input) : ∃ content, Parsed host argument input content := by
  unfold parseInput at h
  by_cases h1 : separator ∉ argument.val
  · rw [if_pos h1] at h
    cases h
  rw [if_neg h1] at h
  by_cases h2 : (inputPath argument).length = 0
  · rw [if_pos h2] at h
    cases h
  rw [if_neg h2] at h
  by_cases h3 : fsFilenameMax ≤ (inputPath argument).length
  · rw [if_pos h3] at h
    cases h
  rw [if_neg h3] at h
  obtain ⟨size, hsize, h⟩ := Checked.bind_eq_ok.mp h
  cases h
  unfold getFileSize at hsize
  cases hc : host (inputSource argument) with
  | none =>
      rw [hc] at hsize
      cases hsize
  | some content =>
      rw [hc] at hsize
      dsimp only at hsize
      by_cases h4 : 0xFFFFFFFF < content.length
      · rw [if_pos h4] at hsize
        cases hsize
      rw [if_neg h4] at hsize
      cases hsize
      exact ⟨content, rfl, rfl, Nat.lt_of_not_le h3, hc, rfl,
        by simp only [wordModulus]; omega⟩

/-- The file written for an input is the content it was made of. -/
theorem copyFile_of_parsed {host : Host} {argument : CString} {input : InputFile}
    {content bytes : List UInt8} (hp : Parsed host argument input content)
    (h : copyFile host input.hostPath input.size = .ok bytes) : bytes = content := by
  unfold copyFile at h
  rw [hp.hostPath, hp.source] at h
  dsimp only at h
  rw [if_neg (by rw [hp.size]; omega), hp.size, List.take_length] at h
  cases h
  rfl

theorem Parsed.setOffset {host : Host} {argument : CString} {input : InputFile}
    {content : List UInt8} (hp : Parsed host argument input content) (offset : Nat) :
    Parsed host argument { input with offset } content := by
  obtain ⟨h1, h2, h3, h4, h5, h6⟩ := hp
  exact ⟨h1, h2, h3, h4, h5, h6⟩

/-- The record of an entry: the name and a terminator, then the offset and the size. -/
structure Recorded (b : Block) (o : Nat) (input : InputFile) : Prop where
  name : Holds b o input.name
  terminator : b (o + input.name.length) = 0
  offset : Holds b (o + fsFilenameMax) (le32 input.offset)
  size : Holds b (o + fsFilenameMax + 4) (le32 input.size)

theorem length_createFileEntry {input : InputFile} {record : List UInt8}
    (h : createFileEntry input = .ok record) : record.length = fsFileRecordSize := by
  unfold createFileEntry at h
  by_cases hlong : fsFilenameMax ≤ input.name.length
  · rw [if_pos hlong] at h
    cases h
  rw [if_neg hlong] at h
  cases h
  simp only [List.length_append, List.length_replicate, length_le32, fsFilenameMax,
    fsFileRecordSize] at *
  omega

theorem recorded_of_holds {b : Block} {o : Nat} {input : InputFile} {record : List UInt8}
    (h : createFileEntry input = .ok record) (hb : Holds b o record) : Recorded b o input := by
  unfold createFileEntry at h
  by_cases hlong : fsFilenameMax ≤ input.name.length
  · rw [if_pos hlong] at h
    cases h
  rw [if_neg hlong] at h
  cases h
  rw [holds_append, holds_append, holds_append, List.length_append, List.length_replicate,
    length_le32] at hb
  obtain ⟨⟨hname, hpad⟩, hoffset, hsize⟩ := hb
  have hlength : input.name.length + (fsFilenameMax - input.name.length) = fsFilenameMax := by
    omega
  rw [hlength] at hoffset hsize
  refine ⟨hname, ?_, hoffset, hsize⟩
  refine hpad 0 0 ?_
  rw [List.getElem?_replicate, if_pos (by omega)]

/-! ## The offsets -/

section Offsets

variable {inputs : List InputFile} {contents : List (List UInt8)} {b : Block} {current : Nat}

@[simp] theorem length_setOffsets (current : Nat) (inputs : List InputFile) :
    (setOffsets current inputs).length = inputs.length := by
  induction inputs generalizing current with
  | nil => rfl
  | cons input inputs ih =>
      unfold setOffsets
      rw [List.length_cons, ih, List.length_cons]

/-- Setting the offsets keeps what the arguments have made. -/
theorem parsed_setOffsets {host : Host} {arguments : List CString} (current : Nat)
    (h : List.Forall₂ (fun argument input => ∃ content, Parsed host argument input content)
      arguments inputs) :
    List.Forall₂ (fun argument input => ∃ content, Parsed host argument input content) arguments
      (setOffsets current inputs) := by
  induction h generalizing current with
  | nil => exact .nil
  | cons hp _ ih =>
      obtain ⟨content, hp⟩ := hp
      exact .cons ⟨content, hp.setOffset current⟩ (ih _)

/-- Files written in a row are at the offsets set, one after the other. -/
theorem placed_setOffsets
    (h : List.Forall₂ (fun input content => input.size = content.length)
      (setOffsets current inputs) contents)
    (hlt : current + contents.flatten.length < wordModulus) (hb : Holds b current contents.flatten) :
    List.Forall₂ (fun input content => Holds b input.offset content ∧ current ≤ input.offset ∧
        input.offset + input.size ≤ current + contents.flatten.length)
      (setOffsets current inputs) contents ∧
    (setOffsets current inputs).Pairwise fun x y => x.offset + x.size ≤ y.offset := by
  induction inputs generalizing current contents with
  | nil =>
      cases h
      exact ⟨.nil, .nil⟩
  | cons input inputs ih =>
      unfold setOffsets at h ⊢
      cases h with
      | @cons _ content _ rest hsize hrest =>
        have hsize : input.size = content.length := hsize
        rw [List.flatten_cons, List.length_append] at hlt ⊢
        rw [List.flatten_cons, holds_append, ← hsize] at hb
        have hnext : (current + input.size) % wordModulus = current + input.size :=
          Nat.mod_eq_of_lt (by omega)
        rw [hnext] at hrest ⊢
        obtain ⟨hplaced, hpairs⟩ := ih hrest (by omega) hb.2
        constructor
        · refine .cons ⟨hb.1, Nat.le_refl _, ?_⟩ (hplaced.imp ?_)
          · show current + input.size ≤ _
            omega
          · rintro x y ⟨hx, hle, hend⟩
            exact ⟨hx, by omega, by omega⟩
        · refine .cons (fun x hx => ?_) hpairs
          obtain ⟨i, hi⟩ := List.mem_iff_getElem?.mp hx
          obtain ⟨y, -, -, hle, -⟩ := getElem?_of_forall₂ hplaced hi
          exact hle

end Offsets

/-! ## Names in the image -/

/-- The name at `o`, which is shorter than its field, is equal to one path. -/
theorem spells_iff_of_holds {fs : Fs} {o : Nat} {name path : List UInt8}
    (h : Holds fs.image o name) (hend : fs.image (o + name.length) = 0)
    (hname : (0 : UInt8) ∉ name) (hpath : (0 : UInt8) ∉ path) :
    fs.Spells o path ↔ path = name := by
  induction name generalizing o path with
  | nil =>
      have hend : fs.image o = 0 := hend
      rw [Fs.spells_of_stop fun hc => hc.1 hend]
      cases path with
      | nil => exact iff_of_true ⟨hend, rfl⟩ rfl
      | cons b path =>
          refine iff_of_false (fun hc => ?_) (by simp)
          have hb : b = 0 := hc.2
          exact hpath (by simp [hb])
  | cons a name ih =>
      rw [holds_cons] at h
      have ha : fs.image o ≠ 0 := fun h0 => hname (by simp [← h.1, h0])
      cases path with
      | nil =>
          refine iff_of_false (fun hc => ?_) (by simp)
          rw [Fs.spells_of_stop fun hc => ha hc.2] at hc
          exact ha hc.1
      | cons b path =>
          by_cases hb : fs.image o = b
          · rw [Fs.spells_cons ⟨ha, hb⟩]
            have hlength : o + (a :: name).length = o + 1 + name.length := by
              rw [List.length_cons]
              omega
            rw [hlength] at hend
            rw [ih h.2 hend (fun hm => hname (by simp [hm])) (fun hm => hpath (by simp [hm])),
              ← hb, ← h.1, List.cons.injEq]
            exact (and_iff_right rfl).symm
          · refine iff_of_false (fun hc => ?_) (fun heq => ?_)
            · rw [Fs.spells_of_stop fun hc => hb hc.2] at hc
              exact ha hc.1
            · rw [List.cons.injEq] at heq
              exact hb (h.1.trans heq.1.symm)

theorem zero_not_mem_inputPath (argument : CString) : (0 : UInt8) ∉ inputPath argument := fun h =>
  argument.property (List.takeWhile_subset _ h)

/-! ## The image -/

/-- An entry of the table and its data, for an argument of `mkfs`. -/
structure Entry (host : Host) (fs : Fs) (i : Nat) (argument : CString) (content : List UInt8) :
    Prop where
  source : host (inputSource argument) = some content
  name : Holds fs.image (fs.entry i) (inputPath argument)
  terminator : fs.image (fs.entry i + (inputPath argument).length) = 0
  size : fs.fileSize i = content.length
  data : Holds fs.image (fs.offset i) content
  start : fs.filesOffset + fs.fileCount * fsFileRecordSize ≤ fs.offset i
  finish : fs.offset i + fs.fileSize i ≤ fs.imageSize

/-- What `mkfs` has written, as `fs.c` sees it. -/
structure Written (host : Host) (arguments : List CString) (fs : Fs) : Prop where
  fileCount : fs.fileCount = arguments.length
  filesOffset : fs.filesOffset = fsSuperblockSize
  filesEnd : fs.filesOffset + fs.fileCount * fsFileRecordSize ≤ fs.imageSize
  check : fs.checkSuperblock = 0
  entry : ∀ i argument, arguments[i]? = some argument → ∃ content, Entry host fs i argument content
  ordered : ∀ i j, i < j → j < arguments.length → fs.offset i + fs.fileSize i ≤ fs.offset j

section Written

variable {host : Host} {arguments : List CString} {image : List UInt8} {rest : Block}

/-- The image in memory, mounted. -/
def mounted (image : List UInt8) (rest : Block) : Fs :=
  { image := ofList image rest, imageSize := image.length, superblock := true }

/-- The lists `mkfs` makes of its arguments. -/
structure Lists (host : Host) (arguments : List CString) (image : List UInt8)
    (inputs : List InputFile) (records contents : List (List UInt8)) : Prop where
  parsed : List.Forall₂ (fun argument input => ∃ content, Parsed host argument input content)
    arguments inputs
  created : List.Forall₂ (fun input record => createFileEntry input = .ok record) inputs records
  copied : List.Forall₂ (fun input content => copyFile host input.hostPath input.size = .ok content)
    inputs contents
  offsets : ∃ parsed, inputs = setOffsets (fsSuperblockSize + arguments.length * fsFileRecordSize)
    parsed
  bytes : image = superblock arguments.length fsSuperblockSize
    (fsSuperblockSize + arguments.length * fsFileRecordSize) ++ (records.flatten ++ contents.flatten)
  length : image.length =
    fsSuperblockSize + arguments.length * fsFileRecordSize + contents.flatten.length

theorem lists_of_mkfs (h : mkfs host arguments = .ok image) (hsize : image.length < wordModulus) :
    ∃ inputs records contents, Lists host arguments image inputs records contents := by
  unfold mkfs at h
  by_cases hnil : arguments = []
  · rw [if_pos hnil] at h
    cases h
  rw [if_neg hnil] at h
  obtain ⟨-, -, h⟩ := Checked.bind_eq_ok.mp h
  obtain ⟨parsed, hparsed, h⟩ := Checked.bind_eq_ok.mp h
  by_cases hmany : 0xFFFFFFFF < parsed.length
  · rw [if_pos hmany] at h
    cases h
  rw [if_neg hmany] at h
  obtain ⟨-, -, h⟩ := Checked.bind_eq_ok.mp h
  obtain ⟨records, hrecords, h⟩ := Checked.bind_eq_ok.mp h
  obtain ⟨contents, hcontents, h⟩ := Checked.bind_eq_ok.mp h
  have himage := Except.ok.inj h
  have hparsed := Checked.forall₂_of_mapM hparsed
  have hrecords := Checked.forall₂_of_mapM hrecords
  have hlength : parsed.length = arguments.length := hparsed.length_eq.symm
  have hrecordSize : ∀ record ∈ records, record.length = fsFileRecordSize := by
    intro record hr
    obtain ⟨i, hi⟩ := List.mem_iff_getElem?.mp hr
    obtain ⟨input, -, hinput⟩ := getElem?_of_forall₂ hrecords.flip hi
    exact length_createFileEntry hinput
  have htable : records.flatten.length = arguments.length * fsFileRecordSize := by
    rw [length_flatten_of_length_eq hrecordSize, ← hrecords.length_eq, length_setOffsets, hlength]
  have htotal : image.length =
      fsSuperblockSize + arguments.length * fsFileRecordSize + contents.flatten.length := by
    rw [← himage, List.length_append, List.length_append, htable, Nat.add_assoc]
    rfl
  have hcount : parsed.length % wordModulus = arguments.length := by
    rw [hlength]
    refine Nat.mod_eq_of_lt ?_
    simp only [fsFileRecordSize] at htotal
    omega
  have hdata : (fsSuperblockSize + arguments.length * fsFileRecordSize) % wordModulus =
      fsSuperblockSize + arguments.length * fsFileRecordSize := Nat.mod_eq_of_lt (by omega)
  rw [hcount, hdata] at himage hrecords hcontents
  have hparsed := hparsed.imp fun _ _ hp => parsed_of_parseInput hp
  exact ⟨_, records, contents, parsed_setOffsets _ hparsed, hrecords,
    Checked.forall₂_of_mapM hcontents, ⟨parsed, rfl⟩, himage.symm, htotal⟩

variable {inputs : List InputFile} {records contents : List (List UInt8)}

namespace Lists

/-- Where the parts of the image are. -/
theorem holds (h : Lists host arguments image inputs records contents) (rest : Block) :
    Holds (ofList image rest) 0 (superblock arguments.length fsSuperblockSize
      (fsSuperblockSize + arguments.length * fsFileRecordSize)) ∧
    Holds (ofList image rest) fsSuperblockSize records.flatten ∧
    Holds (ofList image rest) (fsSuperblockSize + arguments.length * fsFileRecordSize)
      contents.flatten := by
  have hall := holds_ofList image rest
  have hbytes := h.bytes
  have htable : records.flatten.length = arguments.length * fsFileRecordSize := by
    have hlength := h.length
    rw [hbytes, List.length_append, List.length_append] at hlength
    have hhead : (superblock arguments.length fsSuperblockSize
      (fsSuperblockSize + arguments.length * fsFileRecordSize)).length = fsSuperblockSize := rfl
    omega
  generalize ofList image rest = b at hall ⊢
  rw [hbytes, holds_append, holds_append, htable, Nat.zero_add] at hall
  exact hall

theorem superblock_read (h : Lists host arguments image inputs records contents)
    (hsize : image.length < wordModulus) (rest : Block) :
    (mounted image rest).magic = fsMagic ∧ (mounted image rest).version = fsVersion ∧
    (mounted image rest).fileCount = arguments.length ∧
    (mounted image rest).filesOffset = fsSuperblockSize ∧
    (mounted image rest).dataOffset =
      fsSuperblockSize + arguments.length * fsFileRecordSize := by
  have hlength := h.length
  obtain ⟨hsuper, -, -⟩ := h.holds rest
  unfold superblock at hsuper
  rw [holds_append, holds_append, holds_append, holds_append] at hsuper
  obtain ⟨h0, h1, h2, h3, h4⟩ := hsuper
  simp only [fsFileRecordSize, wordModulus] at hlength hsize
  refine ⟨read32_of_holds h0 (by decide), read32_of_holds h1 (by decide),
    read32_of_holds h2 (by omega), read32_of_holds h3 (by decide), read32_of_holds h4 ?_⟩
  simp only [fsFileRecordSize]
  omega

theorem copied_eq (h : Lists host arguments image inputs records contents) :
    List.Forall₂ (fun input content => input.size = content.length) inputs contents := by
  refine List.forall₂_iff_get.mpr ⟨h.copied.length_eq, fun i h1 h2 => ?_⟩
  have hinput : inputs[i]? = some (inputs.get ⟨i, h1⟩) := List.getElem?_eq_getElem h1
  obtain ⟨argument, -, content, hp⟩ := getElem?_of_forall₂ h.parsed.flip hinput
  have hcopied := h.copied.get h1 h2
  rw [copyFile_of_parsed hp hcopied]
  exact hp.size

/-- The data of the inputs is at their offsets. -/
theorem placed (h : Lists host arguments image inputs records contents)
    (hsize : image.length < wordModulus) (rest : Block) :
    List.Forall₂ (fun input content => Holds (ofList image rest) input.offset content ∧
        fsSuperblockSize + arguments.length * fsFileRecordSize ≤ input.offset ∧
        input.offset + input.size ≤ image.length) inputs contents ∧
    inputs.Pairwise fun x y => x.offset + x.size ≤ y.offset := by
  have hlength := h.length
  obtain ⟨-, -, hdata⟩ := h.holds rest
  have heq := h.copied_eq
  obtain ⟨parsed, rfl⟩ := h.offsets
  rw [hlength] at hsize ⊢
  exact placed_setOffsets heq hsize hdata

/-- The fields of entry `i` are those of input `i`. -/
theorem fields (h : Lists host arguments image inputs records contents)
    (hsize : image.length < wordModulus) (rest : Block) {i : Nat} {input : InputFile}
    (hi : inputs[i]? = some input) :
    Recorded (ofList image rest) ((mounted image rest).entry i) input ∧
    (mounted image rest).offset i = input.offset ∧
    (mounted image rest).fileSize i = input.size := by
  obtain ⟨record, hrecord, hcreated⟩ := getElem?_of_forall₂ h.created hi
  obtain ⟨-, htable, -⟩ := h.holds rest
  have hrecordSize : ∀ record ∈ records, record.length = fsFileRecordSize := by
    intro record hr
    obtain ⟨j, hj⟩ := List.mem_iff_getElem?.mp hr
    obtain ⟨input, -, hinput⟩ := getElem?_of_forall₂ h.created.flip hj
    exact length_createFileEntry hinput
  have hentry : (mounted image rest).entry i = fsSuperblockSize + i * fsFileRecordSize := by
    unfold Fs.entry
    rw [(h.superblock_read hsize rest).2.2.2.1]
  have hrecorded : Recorded (ofList image rest) ((mounted image rest).entry i) input := by
    rw [hentry]
    exact recorded_of_holds hcreated (holds_flatten hrecordSize htable hrecord)
  obtain ⟨content, -, -, -, hfinish⟩ := getElem?_of_forall₂ (h.placed hsize rest).1 hi
  refine ⟨hrecorded, read32_of_holds hrecorded.offset ?_, read32_of_holds hrecorded.size ?_⟩
  · simp only [wordModulus] at hsize
    omega
  · simp only [wordModulus] at hsize
    omega

end Lists

theorem written_of_mkfs (h : mkfs host arguments = .ok image) (hsize : image.length < wordModulus)
    (rest : Block) : Written host arguments (mounted image rest) := by
  obtain ⟨inputs, records, contents, h⟩ := lists_of_mkfs h hsize
  obtain ⟨hmagic, hversion, hcount, hoffset, hdata⟩ := h.superblock_read hsize rest
  have hlength := h.length
  have hmounted : (mounted image rest).imageSize = image.length := rfl
  have hfiles : (mounted image rest).filesOffset +
      (mounted image rest).fileCount * fsFileRecordSize =
      fsSuperblockSize + arguments.length * fsFileRecordSize := by
    rw [hoffset, hcount]
  refine ⟨hcount, hoffset, by omega, ?_, ?_, ?_⟩
  · rw [Fs.checkSuperblock_eq_zero]
    refine ⟨hmagic, hversion, by omega, ?_, ?_, by omega⟩
    · rw [Nat.le_div_iff_mul_le (by decide)]
      omega
    · have htable : arguments.length * fsFileRecordSize % wordModulus =
          arguments.length * fsFileRecordSize := Nat.mod_eq_of_lt (by omega)
      have hend : (mounted image rest).filesEnd = (mounted image rest).dataOffset := by
        unfold Fs.filesEnd
        rw [hoffset, hcount, hdata, htable, Nat.mod_eq_of_lt (by omega)]
      exact Nat.le_of_eq hend
  · intro i argument hi
    obtain ⟨input, hinput, content, hp⟩ := getElem?_of_forall₂ h.parsed hi
    obtain ⟨bytes, hbytes, hholds, hstart, hfinish⟩ :=
      getElem?_of_forall₂ (h.placed hsize rest).1 hinput
    obtain ⟨bytes', hbytes', hcopied⟩ := getElem?_of_forall₂ h.copied hinput
    obtain rfl : bytes = bytes' := Option.some.inj (hbytes.symm.trans hbytes')
    obtain rfl := copyFile_of_parsed hp hcopied
    obtain ⟨hrecorded, hoff, hsz⟩ := h.fields hsize rest hinput
    refine ⟨bytes, hp.source, ?_, ?_, hsz.trans hp.size, ?_, ?_, ?_⟩
    · rw [← hp.name]
      exact hrecorded.name
    · rw [← hp.name]
      exact hrecorded.terminator
    · rw [hoff]
      exact hholds
    · rw [hfiles, hoff]
      exact hstart
    · rw [hoff, hsz]
      exact hfinish
  · intro i j hij hj
    have hinputs : inputs.length = arguments.length := h.parsed.length_eq.symm
    have hj : j < inputs.length := by omega
    have hi : i < inputs.length := by omega
    obtain ⟨-, hoffi, hszi⟩ := h.fields hsize rest (List.getElem?_eq_getElem hi)
    obtain ⟨-, hoffj, -⟩ := h.fields hsize rest (List.getElem?_eq_getElem hj)
    rw [hoffi, hszi, hoffj]
    exact List.pairwise_iff_getElem.mp (h.placed hsize rest).2 i j hi hj hij

/-- The entry of an argument has one name, the path of the argument. -/
theorem names_iff {fs : Fs} {i : Nat} {argument : CString} {content : List UInt8}
    (h : Entry host fs i argument content) (path : CString) :
    fs.Names i path.val ↔ path.val = inputPath argument :=
  spells_iff_of_holds h.name h.terminator (zero_not_mem_inputPath argument) path.property

/-- An entry whose argument has the path is the one found, when no two arguments have it. -/
theorem fsFind_of_written {fs : Fs} (hw : Written host arguments fs) (hm : Fs.Mounted fs)
    (hpaths : (arguments.map inputPath).Nodup) {i : Nat} {argument : CString}
    (hi : arguments[i]? = some argument) (base : Nat) :
    (fs.fsFind base (inputPath argument)).value = some i := by
  have hlt := (List.getElem?_eq_some_iff.mp hi).1
  let path : CString := ⟨inputPath argument, zero_not_mem_inputPath argument⟩
  rw [Fs.fsFind_eq_some hm, hw.fileCount]
  obtain ⟨content, hentry⟩ := hw.entry i argument hi
  refine ⟨hlt, (names_iff hentry path).mpr rfl, fun j hj hnames => ?_⟩
  have hjlt : j < arguments.length := by omega
  obtain ⟨content', hentry'⟩ := hw.entry j _ (List.getElem?_eq_getElem hjlt)
  have heq : inputPath argument = inputPath arguments[j] := (names_iff hentry' path).mp hnames
  have hmap : (arguments.map inputPath)[j]? = (arguments.map inputPath)[i]? := by
    rw [List.getElem?_map, List.getElem?_map, hi, List.getElem?_eq_getElem hjlt]
    exact congrArg some heq.symm
  have hji := (List.getElem?_inj (by rw [List.length_map]; exact hjlt) hpaths).mp hmap
  omega

theorem fsFind_none_of_written {fs : Fs} (hw : Written host arguments fs) (hm : Fs.Mounted fs)
    {path : CString} (hpath : path.val ∉ arguments.map inputPath) (base : Nat) :
    (fs.fsFind base path.val).value = none := by
  rw [Fs.fsFind_eq_none hm, hw.fileCount]
  intro i hi hnames
  obtain ⟨content, hentry⟩ := hw.entry i _ (List.getElem?_eq_getElem hi)
  rw [names_iff hentry path] at hnames
  refine hpath ?_
  rw [hnames]
  exact List.mem_map_of_mem (List.getElem_mem hi)

/-- The superblock, the file table and the data of each file, as offset and size. -/
def regions (fs : Fs) : List (Nat × Nat) :=
  (0, fsSuperblockSize) :: (fs.filesOffset, fs.fileCount * fsFileRecordSize) ::
    (List.range fs.fileCount).map fun i => (fs.offset i, fs.fileSize i)

/-- Two regions share no byte. -/
def Separate (x y : Nat × Nat) : Prop := x.1 + x.2 ≤ y.1 ∨ y.1 + y.2 ≤ x.1

theorem regions_separate {fs : Fs} (hw : Written host arguments fs) :
    (regions fs).Pairwise Separate ∧ ∀ x ∈ regions fs, x.1 + x.2 ≤ fs.imageSize := by
  have hdata : ∀ i < fs.fileCount, fs.filesOffset + fs.fileCount * fsFileRecordSize ≤ fs.offset i ∧
      fs.offset i + fs.fileSize i ≤ fs.imageSize := by
    intro i hi
    rw [hw.fileCount] at hi
    obtain ⟨content, hentry⟩ := hw.entry i _ (List.getElem?_eq_getElem hi)
    exact ⟨hentry.start, hentry.finish⟩
  have hfiles := hw.filesOffset
  have hend := hw.filesEnd
  constructor
  · refine .cons (fun x hx => Or.inl ?_) (.cons (fun x hx => Or.inl ?_) ?_)
    · rcases List.mem_cons.mp hx with rfl | hx
      · show 0 + fsSuperblockSize ≤ fs.filesOffset
        omega
      · obtain ⟨i, hi, rfl⟩ := List.mem_map.mp hx
        have := (hdata i (List.mem_range.mp hi)).1
        show 0 + fsSuperblockSize ≤ fs.offset i
        omega
    · obtain ⟨i, hi, rfl⟩ := List.mem_map.mp hx
      exact (hdata i (List.mem_range.mp hi)).1
    · refine List.pairwise_map.mpr (List.pairwise_iff_getElem.mpr fun i j hi hj hij => Or.inl ?_)
      rw [List.length_range] at hi hj
      rw [List.getElem_range, List.getElem_range]
      exact hw.ordered i j hij (by rw [← hw.fileCount]; exact hj)
  · intro x hx
    rcases List.mem_cons.mp hx with rfl | hx
    · show 0 + fsSuperblockSize ≤ fs.imageSize
      omega
    · rcases List.mem_cons.mp hx with rfl | hx
      · exact hend
      · obtain ⟨i, hi, rfl⟩ := List.mem_map.mp hx
        exact (hdata i (List.mem_range.mp hi)).2

end Written

/-- What `fs.c` makes of the image that `mkfs` writes for these arguments. -/
structure RoundTrip (host : Host) (arguments : List CString) (base : Nat) (fs : Fs) : Prop where
  find_input : ∀ argument ∈ arguments, ∃ content i data,
    host (inputSource argument) = some content ∧
    (fs.fsFind base (inputPath argument)).value = some i ∧
    (fs.fsFileSize base i).value = content.length ∧
    (fs.fsFileData base i).value = some data ∧ Holds fs.image data content
  find_other : ∀ path : CString, path.val ∉ arguments.map inputPath →
    (fs.fsFind base path.val).value = none
  separate : (regions fs).Pairwise Separate
  inside : ∀ x ∈ regions fs, x.1 + x.2 ≤ fs.imageSize

end Mkfs

open Mkfs in
/-- An image that `mkfs` has written for distinct paths is mounted: each path finds its content, no
other path finds an entry, and the parts of the image are apart and inside. -/
theorem mkfs_round_trip (host : Host) (arguments : List CString) (image : List UInt8)
    (h : mkfs host arguments = .ok image) (hpaths : (arguments.map inputPath).Nodup)
    (hsize : image.length < wordModulus) (fs₀ : Fs) (base : Nat) (hbase : base ≠ 0)
    (rest : Block) :
    (Fs.fsMount fs₀ base (ofList image rest) image.length).1 = 0 ∧
    RoundTrip host arguments base (Fs.fsMount fs₀ base (ofList image rest) image.length).2 := by
  have hw := written_of_mkfs h hsize rest
  have hend := hw.filesEnd
  have hlarge : fsSuperblockSize ≤ image.length := by
    rw [hw.filesOffset] at hend
    have hmounted : (mounted image rest).imageSize = image.length := rfl
    omega
  have hmount : Fs.fsMount fs₀ base (ofList image rest) image.length =
      (0, mounted image rest) := by
    unfold Fs.fsMount
    rw [if_neg hbase, if_neg (Nat.not_lt.mpr hlarge)]
    exact congrArg (·, mounted image rest) hw.check
  rw [hmount]
  have hm : Fs.Mounted (mounted image rest) := ⟨rfl, hlarge, hw.check⟩
  refine ⟨rfl, ?_, fun path hpath => fsFind_none_of_written hw hm hpath base,
    (regions_separate hw).1, (regions_separate hw).2⟩
  intro argument hargument
  obtain ⟨i, hi⟩ := List.mem_iff_getElem?.mp hargument
  obtain ⟨content, hentry⟩ := hw.entry i argument hi
  refine ⟨content, i, _, hentry.source, fsFind_of_written hw hm hpaths hi base, hentry.size, ?_,
    hentry.data⟩
  rw [Fs.fsFileData_value]
  exact Fs.fileData_of_within hentry.finish

/-- The host has `x`, of three bytes, and `y`, which is empty. -/
def twoFiles : Mkfs.Host := fun path =>
  if path = [0x78] then some [1, 2, 3] else if path = [0x79] then some [] else none

/-- `a=x` and `b=y`. -/
def twoArguments : List CString := [⟨[0x61, 0x3D, 0x78], by decide⟩, ⟨[0x62, 0x3D, 0x79], by decide⟩]

/-- The image that `mkfs` writes of them. -/
def twoImage : List UInt8 :=
  match Mkfs.mkfs twoFiles twoArguments with
  | .ok image => image
  | .error _ => []

theorem mkfs_round_trip_two :
    (Fs.fsMount ⟨zero, 0, false⟩ 0xC0200000 (ofList twoImage zero) twoImage.length).1 = 0 ∧
    Mkfs.RoundTrip twoFiles twoArguments 0xC0200000
      (Fs.fsMount ⟨zero, 0, false⟩ 0xC0200000 (ofList twoImage zero) twoImage.length).2 :=
  mkfs_round_trip twoFiles twoArguments twoImage rfl (by decide) (by decide +kernel) _ _ (by decide)
    zero

end Neox
