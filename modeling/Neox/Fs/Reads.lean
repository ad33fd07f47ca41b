import Neox.Fs.Mount

/-!
# Reads of any mounted image stay in it, or do not

Calls of `file_open`, `file_read` and `file_close` on any number of `struct file`s, over an image that
`fs_mount` has accepted. Two things lead out of the image: a name without a terminator, which
`strcmp` follows past the end when the path goes on as the memory there does, and `file_read` of an
entry whose data is not in the image, which copies from a `NULL` pointer.

* `file_reads_confined_iff`: which runs stay in the image.
-/

namespace Neox

open Bytes Traced

/-- A call; a file is named by where the caller keeps it, and `none` is `NULL`. -/
inductive FileOp
  | fileOpen (path : Option (List UInt8)) (access : Nat) (file : Option Nat)
  | fileRead (file : Option Nat) (buffer : Option Block) (count : Nat)
  | fileClose (file : Option Nat)

namespace Fs

/-- Store the `struct file` back. -/
def putFile (files : Nat → File) : Option Nat → Option File → Nat → File
  | some k, some f => Function.update files k f
  | _, _ => files

/-- One call: the value returned, and the `struct file`s after it. -/
def fileStep (base : Nat) (memory : Block) (fs : Fs) (files : Nat → File) :
    FileOp → FsM (Int × (Nat → File))
  | .fileOpen path access file => do
      let (r, f) ← fs.fileOpen base path access (file.map files)
      return (r, putFile files file f)
  | .fileRead file buffer count => do
      let (r, f, _) ← fs.fileRead base memory (file.map files) buffer count
      return (r, putFile files file f)
  | .fileClose file => return (0, putFile files file (file.map fun _ => Neox.fileClose))

/-- The `struct file`s after some calls; at first none is open. -/
def filesAfter (base : Nat) (memory : Block) (fs : Fs) (ops : List FileOp) : Nat → File :=
  ops.foldl (fun files op => (fs.fileStep base memory files op).value.2) fun _ => Neox.fileClose

/-- Nothing is copied. -/
def NoCopy : FsRead → Prop
  | .load _ _ => True
  | .memcpy _ _ => False

/-- The call reads bytes of the image only, and a read of an open entry whose data is not in the
image fails without a copy. -/
structure Confined (base : Nat) (memory : Block) (fs : Fs) (files : Nat → File) (op : FileOp) :
    Prop where
  within : Reports (fs.Within base) (fs.fileStep base memory files op)
  refused : ∀ k i buffer count, op = .fileRead (some k) buffer count → (files k).fsFile = some i →
    ¬ fs.DataWithin i → (fs.fileStep base memory files op).value.1 = -1 ∧
      Reports NoCopy (fs.fileStep base memory files op)

/-- The access of a `struct file` that `file_read` accepts. -/
def Readable (access : Nat) : Prop := access = fileAccessRead ∨ access = fileAccessReadWrite

/-- The access that `file_open` accepts. -/
def Openable (access : Nat) : Prop :=
  access = fileAccessRead ∨ access = fileAccessWrite ∨ access = fileAccessReadWrite

/-- What the call has to be given: the names compared with the path end or differ from it in the
image, and the data of an entry that is read is in the image. -/
def Suitable (fs : Fs) (files : Nat → File) : FileOp → Prop
  | .fileOpen path access file => Openable access → file ≠ none → ∀ p, path = some p →
      fs.AllEnd p 0 fs.fileCount
  | .fileRead file buffer _ => buffer ≠ none → ∀ k i, file = some k → Readable (files k).access →
      (files k).fsFile = some i → fs.DataWithin i
  | .fileClose _ => True

/-! ## `file_open` -/

section Open

variable {fs : Fs} {base : Nat} {access : Nat} {file : Option File}

theorem openable_iff : ¬ (access ≠ fileAccessRead ∧ access ≠ fileAccessWrite ∧
    access ≠ fileAccessReadWrite) ↔ Openable access := by
  unfold Openable
  omega

theorem fileOpen_reports {path : Option (List UInt8)} (h : Mounted fs) :
    Reports (fs.Within base) (fs.fileOpen base path access file) ↔
      (Openable access → file ≠ none → ∀ p, path = some p → fs.AllEnd p 0 fs.fileCount) := by
  unfold fileOpen
  by_cases ha : access ≠ fileAccessRead ∧ access ≠ fileAccessWrite ∧ access ≠ fileAccessReadWrite
  · rw [if_pos ha]
    refine iff_of_true reports_pure fun ho => ?_
    exact absurd ha (openable_iff.mpr ho)
  · rw [if_neg ha]
    have ho : Openable access := openable_iff.mp ha
    cases path with
    | none => exact iff_of_true reports_pure fun _ _ p hp => by cases hp
    | some p =>
        cases file with
        | none => exact iff_of_true reports_pure fun _ hf => absurd rfl hf
        | some f =>
            have hfind : Reports (fs.Within base) (fs.fsFind base p) ↔ _ := fsFind_reports h
            show Reports _ (fs.fsFind base p >>= _) ↔ _
            rw [reports_bind_value, hfind]
            constructor
            · rintro ⟨hall, -⟩ - - q hq
              cases hq
              exact hall
            · intro hall
              refine ⟨hall ho (by simp) p rfl, ?_⟩
              cases (fs.fsFind base p).value with
              | none => exact reports_pure
              | some i => exact reports_pure

/-- What `file_open` leaves open is an entry of the table. -/
theorem fileOpen_file {path : Option (List UInt8)} {f : File} {i : Nat} (h : Mounted fs)
    (hf : (fs.fileOpen base path access file).value.2 = some f) (hi : f.fsFile = some i) :
    i < fs.fileCount ∨ file = some f := by
  unfold fileOpen at hf
  by_cases ha : access ≠ fileAccessRead ∧ access ≠ fileAccessWrite ∧ access ≠ fileAccessReadWrite
  · rw [if_pos ha] at hf
    exact Or.inr hf
  · rw [if_neg ha] at hf
    cases path with
    | none => exact Or.inr hf
    | some p =>
        cases file with
        | none => cases hf
        | some f' =>
            change ((fs.fsFind base p >>= _ : FsM (Int × Option File)).value).2 = some f at hf
            rw [value_bind] at hf
            cases hfound : (fs.fsFind base p).value with
            | none =>
                rw [hfound] at hf
                exact Or.inr hf
            | some j =>
                rw [hfound] at hf
                cases hf
                cases hi
                exact Or.inl ((fsFind_eq_some h).mp hfound).1

end Open

/-! ## `file_read` -/

section Read

variable {fs : Fs} {base : Nat} {memory : Block} {file f : File} {i count : Nat} {buffer b : Block}

theorem fsFileData_reports (h : Mounted fs) (hi : i < fs.fileCount) :
    Reports (fs.Within base) (fs.fsFileData base i) := by
  have hle := h.entry_le hi
  simp only [fsFileRecordSize] at hle
  unfold fsFileData load
  rw [reports_fetch_bind]
  refine ⟨within_load (by simp only [fsFilenameMax]; omega), reports_ite.mpr ⟨fun _ => ?_, fun _ => ?_⟩⟩
  · exact reports_pure
  · rw [reports_fetch_bind]
    refine ⟨within_load (by simp only [fsFilenameMax]; omega), reports_ite.mpr ⟨fun _ => ?_, fun _ => ?_⟩⟩
    · exact reports_pure
    · exact reports_pure

/-- An entry whose data is in the image is read in the image. -/
theorem readEntry_reports (h : Mounted fs) (hi : i < fs.fileCount) (hdata : fs.DataWithin i) :
    Reports (fs.Within base) (readEntry base memory fs file i buffer count) := by
  have hle := h.entry_le hi
  simp only [fsFileRecordSize] at hle
  have hsize : fs.Within base (.load (base + (fs.entry i + fsFilenameMax + 4)) 4) :=
    within_load (by simp only [fsFilenameMax]; omega)
  have hread : read32 fs.image (fs.entry i + fsFilenameMax + 4) = fs.fileSize i := rfl
  unfold readEntry fsFileSize load
  rw [reports_fetch_bind, hread]
  refine ⟨hsize, reports_ite.mpr ⟨fun _ => reports_pure, fun hpos => ?_⟩⟩
  rw [reports_fetch_bind]
  refine ⟨hsize, ?_⟩
  dsimp only
  rw [reports_bind_value, fsFileData_value, fileData_of_within hdata, reports_report_bind]
  refine ⟨fsFileData_reports h hi, ?_, reports_pure⟩
  unfold DataWithin at hdata
  constructor
  · show base ≤ base + fs.offset i + file.position
    omega
  · show base + fs.offset i + file.position + _ ≤ base + fs.imageSize
    split
    · omega
    · omega

/-- A read that reaches the entry does not fail. -/
theorem readEntry_value : (readEntry base memory fs file i buffer count).value.1 ≠ -1 ∧
    (readEntry base memory fs file i buffer count).value.2.1.fsFile = file.fsFile := by
  unfold readEntry fsFileSize load
  rw [value_fetch_bind]
  by_cases h : read32 fs.image (fs.entry i + fsFilenameMax + 4) ≤ file.position
  · rw [if_pos h]
    refine ⟨?_, rfl⟩
    show (0 : Int) ≠ -1
    decide
  · rw [if_neg h, value_fetch_bind]
    dsimp only
    rw [value_bind, value_report_bind]
    refine ⟨?_, rfl⟩
    show ((ite _ _ _ : Nat) : Int) ≠ -1
    omega

theorem readable_iff {access : Nat} :
    ¬ (access ≠ fileAccessRead ∧ access ≠ fileAccessReadWrite) ↔ Readable access := by
  unfold Readable
  omega

/-- A read that does not reach the entry fails and reads nothing. -/
theorem fileRead_refused {file : Option File} {buffer : Option Block}
    (h : buffer ≠ none → ∀ f, file = some f → Readable f.access → f.fsFile = none) :
    fs.fileRead base memory file buffer count = pure (-1, file, buffer) := by
  cases file with
  | none => rfl
  | some f =>
      cases buffer with
      | none => rfl
      | some b =>
          unfold fileRead
          dsimp only
          cases hi : f.fsFile with
          | none => rfl
          | some i =>
              refine if_pos (not_not.mp fun ha => ?_)
              have := h (by simp) f rfl (readable_iff.mp ha)
              rw [this] at hi
              cases hi

/-- A read that reaches the entry. -/
theorem fileRead_entry (hi : f.fsFile = some i) (ha : Readable f.access) :
    fs.fileRead base memory (some f) (some b) count =
      (readEntry base memory fs f i b count >>= fun r => pure (r.1, some r.2.1, some r.2.2)) := by
  unfold fileRead
  dsimp only
  rw [hi]
  exact if_neg (readable_iff.mpr ha)

end Read

/-! ## One call -/

/-- Every open `struct file` is at an entry of the table. -/
def OpenBelow (fs : Fs) (files : Nat → File) : Prop :=
  ∀ k i, (files k).fsFile = some i → i < fs.fileCount

section Step

variable {fs : Fs} {base : Nat} {memory : Block} {files : Nat → File} {op : FileOp}

/-- A call of `file_read` either is refused or reads the entry of an open file. -/
theorem read_cases (files : Nat → File) (file : Option Nat) (buffer : Option Block) :
    (buffer ≠ none → ∀ f, file.map files = some f → Readable f.access → f.fsFile = none) ∨
      ∃ b k i, buffer = some b ∧ file = some k ∧ Readable (files k).access ∧
        (files k).fsFile = some i := by
  cases buffer with
  | none => exact Or.inl fun h => absurd rfl h
  | some b =>
      cases file with
      | none => exact Or.inl fun _ f hf => by cases hf
      | some k =>
          by_cases ha : Readable (files k).access
          · cases hi : (files k).fsFile with
            | none =>
                refine Or.inl fun _ f hf _ => ?_
                cases hf
                exact hi
            | some i => exact Or.inr ⟨b, k, i, rfl, rfl, ha, hi⟩
          · refine Or.inl fun _ f hf hr => ?_
            cases hf
            exact absurd hr ha

theorem fileStep_refused {file : Option Nat} {buffer : Option Block} {count : Nat}
    (h : buffer ≠ none → ∀ f, file.map files = some f → Readable f.access → f.fsFile = none) :
    fs.fileStep base memory files (.fileRead file buffer count) =
      pure (-1, putFile files file (file.map files)) := by
  show (fs.fileRead base memory (file.map files) buffer count >>= _) = _
  rw [fileRead_refused h]
  rfl

theorem fileStep_entry {k i count : Nat} {b : Block} (ha : Readable (files k).access)
    (hi : (files k).fsFile = some i) :
    fs.fileStep base memory files (.fileRead (some k) (some b) count) =
      (readEntry base memory fs (files k) i b count >>= fun r =>
        pure (r.1, putFile files (some k) (some r.2.1))) := by
  show (fs.fileRead base memory (some (files k)) (some b) count >>= _) = _
  rw [fileRead_entry hi ha, bind_pure_bind]

theorem confined_fileOpen {path : Option (List UInt8)} {access : Nat} {file : Option Nat}
    (h : Mounted fs) :
    fs.Confined base memory files (.fileOpen path access file) ↔
      fs.Suitable files (.fileOpen path access file) := by
  have hreports : Reports (fs.Within base)
      (fs.fileStep base memory files (.fileOpen path access file)) ↔
      fs.Suitable files (.fileOpen path access file) := by
    unfold fileStep
    rw [reports_bind_value, fileOpen_reports h]
    have hmap : file.map files ≠ none ↔ file ≠ none := by simp
    rw [hmap]
    exact and_iff_left reports_pure
  constructor
  · rintro ⟨hwithin, -⟩
    exact hreports.mp hwithin
  · intro hs
    exact ⟨hreports.mpr hs, fun k i buffer count hop => by cases hop⟩

theorem confined_fileRead {file : Option Nat} {buffer : Option Block} {count : Nat}
    (h : Mounted fs) (hopen : fs.OpenBelow files) :
    fs.Confined base memory files (.fileRead file buffer count) ↔
      fs.Suitable files (.fileRead file buffer count) := by
  rcases read_cases files file buffer with hno | ⟨b, k, i, rfl, rfl, ha, hi⟩
  · have hstep : fs.fileStep base memory files (.fileRead file buffer count) = _ :=
      fileStep_refused hno
    refine iff_of_true ⟨?_, fun k i buffer' count' _ _ _ => ?_⟩ ?_
    · rw [hstep]
      exact reports_pure
    · rw [hstep]
      exact ⟨rfl, reports_pure⟩
    · intro hb k i hk hr hi
      have hnone := hno hb (files k) (by rw [hk]; rfl) hr
      rw [hnone] at hi
      cases hi
  · have hstep : fs.fileStep base memory files (.fileRead (some k) (some b) count) = _ :=
      fileStep_entry ha hi
    constructor
    · rintro ⟨-, hrefused⟩ - k' i' hk' - hi'
      obtain rfl := Option.some.inj hk'
      by_contra hdata
      have hvalue := (hrefused k i' (some b) count rfl hi' hdata).1
      rw [hstep, value_bind] at hvalue
      exact readEntry_value.1 hvalue
    · intro hs
      have hdata : fs.DataWithin i := hs (by simp) k i rfl ha hi
      refine ⟨?_, fun k' i' buffer' count' hop hi' hno => ?_⟩
      · rw [hstep, reports_bind_value]
        exact ⟨readEntry_reports h (hopen k i hi) hdata, reports_pure⟩
      · cases hop
        rw [hi] at hi'
        cases hi'
        exact absurd hdata hno

/-- A call stays in the image exactly when what it is given is suitable. -/
theorem confined_iff (h : Mounted fs) (hopen : fs.OpenBelow files) (op : FileOp) :
    fs.Confined base memory files op ↔ fs.Suitable files op := by
  cases op with
  | fileOpen path access file => exact confined_fileOpen h
  | fileRead file buffer count => exact confined_fileRead h hopen
  | fileClose file =>
      exact iff_of_true ⟨reports_pure, fun k i buffer count hop => by cases hop⟩ trivial

theorem OpenBelow.putFile {file : Option Nat} {f : Option File} (hopen : fs.OpenBelow files)
    (hf : ∀ f' i, f = some f' → f'.fsFile = some i → i < fs.fileCount) :
    fs.OpenBelow (putFile files file f) := by
  cases file with
  | none => exact hopen
  | some k =>
      cases f with
      | none => exact hopen
      | some f =>
          intro k' i hi
          by_cases hk : k' = k
          · subst hk
            have hself : Fs.putFile files (some k') (some f) k' = f := Function.update_self _ _ _
            rw [hself] at hi
            exact hf f i rfl hi
          · have hother : Fs.putFile files (some k) (some f) k' = files k' :=
              Function.update_of_ne hk _ _
            rw [hother] at hi
            exact hopen k' i hi

/-- Whatever is called, open files stay at entries of the table. -/
theorem OpenBelow.step (h : Mounted fs) (hopen : fs.OpenBelow files) (op : FileOp) :
    fs.OpenBelow (fs.fileStep base memory files op).value.2 := by
  have hold : ∀ (file : Option Nat) f i, file.map files = some f → f.fsFile = some i →
      i < fs.fileCount := by
    intro file f i hf hi
    cases file with
    | none => cases hf
    | some k =>
        cases hf
        exact hopen k i hi
  cases op with
  | fileOpen path access file =>
      unfold fileStep
      rw [value_bind]
      refine hopen.putFile fun f i hf hi => ?_
      rcases fileOpen_file h hf hi with hlt | hsame
      · exact hlt
      · exact hold file f i hsame hi
  | fileRead file buffer count =>
      rcases read_cases files file buffer with hno | ⟨b, k, i, rfl, rfl, ha, hi⟩
      · rw [fileStep_refused hno]
        exact hopen.putFile fun f i hf hi => hold file f i hf hi
      · rw [fileStep_entry ha hi, value_bind]
        refine hopen.putFile fun f j hf hj => ?_
        obtain rfl := Option.some.inj hf
        rw [readEntry_value.2] at hj
        exact hopen k j hj
  | fileClose file =>
      refine hopen.putFile fun f i hf hi => ?_
      cases file with
      | none => cases hf
      | some k =>
          cases hf
          cases hi

/-- In any run open files stay at entries of the table. -/
theorem OpenBelow.run (h : Mounted fs) (hopen : fs.OpenBelow files) (ops : List FileOp) :
    fs.OpenBelow (ops.foldl (fun files op => (fs.fileStep base memory files op).value.2) files) := by
  induction ops generalizing files with
  | nil => exact hopen
  | cons op ops ih => exact ih (hopen.step h op)

theorem filesAfter_openBelow (h : Mounted fs) (ops : List FileOp) :
    fs.OpenBelow (fs.filesAfter base memory ops) := by
  refine OpenBelow.run h (fun k i hi => ?_) ops
  cases hi

end Step

end Fs

/-! ## The runs that stay in the image -/

/-- Over an image that `fs_mount` accepts, every call of a run reads bytes of the image only, and
fails without a copy where the data of the entry read is not in the image, exactly when each call of
the run is given names that end or differ in the image and entries whose data is in it. -/
theorem file_reads_confined_iff (fs₀ : Fs) (base : Nat) (image : Block) (size : Nat)
    (h : (Fs.fsMount fs₀ base image size).1 = 0) (memory : Block) (ops : List FileOp) :
    (∀ done op rest, ops = done ++ op :: rest →
      (Fs.fsMount fs₀ base image size).2.Confined base memory
        ((Fs.fsMount fs₀ base image size).2.filesAfter base memory done) op) ↔
    (∀ done op rest, ops = done ++ op :: rest →
      (Fs.fsMount fs₀ base image size).2.Suitable
        ((Fs.fsMount fs₀ base image size).2.filesAfter base memory done) op) := by
  have hm := Fs.mounted_of_fsMount h
  constructor
  · intro hall done op rest hops
    exact (Fs.confined_iff hm (Fs.filesAfter_openBelow hm done) op).mp (hall done op rest hops)
  · intro hall done op rest hops
    exact (Fs.confined_iff hm (Fs.filesAfter_openBelow hm done) op).mpr (hall done op rest hops)

/-! ## An image of one file -/

/-- The image of a file `a` of 4 bytes at `offset`; the first 92 bytes of the image are given. -/
def oneFileImage (offset : Nat) : Block :=
  let superblock := write32 (write32 (write32 (write32 (write32 zero 0 fsMagic) 4 fsVersion) 8 1)
    12 20) 16 92
  write32 (write32 (write32 superblock 20 0x61) 84 offset) 88 4

/-- No file system is mounted. -/
def unmounted : Fs := { image := zero, imageSize := 0, superblock := false }

/-- The file is opened and read to the end. -/
def readOneFile : List FileOp :=
  [.fileOpen (some [0x61]) fileAccessRead (some 0), .fileRead (some 0) (some zero) 4]

/-- The first call and the second. -/
theorem call_cases {a b op : FileOp} {done rest : List FileOp} (h : [a, b] = done ++ op :: rest) :
    (done = [] ∧ op = a) ∨ (done = [a] ∧ op = b) := by
  cases done with
  | nil =>
      simp only [List.nil_append, List.cons.injEq] at h
      exact Or.inl ⟨rfl, h.1.symm⟩
  | cons first done =>
      cases done with
      | nil =>
          simp only [List.cons_append, List.nil_append, List.cons.injEq] at h
          obtain ⟨rfl, rfl, -⟩ := h
          exact Or.inr ⟨rfl, rfl⟩
      | cons second done => simp at h

/-- The data of the file begins after the image: `file_read` copies from address 0 and returns 4. -/
theorem file_read_strays :
    (Fs.fsMount unmounted 0xC0200000 (oneFileImage 0x1000) 96).1 = 0 ∧
    ¬ ∀ done op rest, readOneFile = done ++ op :: rest →
      (Fs.fsMount unmounted 0xC0200000 (oneFileImage 0x1000) 96).2.Confined 0xC0200000 zero
        ((Fs.fsMount unmounted 0xC0200000 (oneFileImage 0x1000) 96).2.filesAfter 0xC0200000 zero done)
        op := by
  refine ⟨by decide +kernel, fun hall => ?_⟩
  have hcall := hall [.fileOpen (some [0x61]) fileAccessRead (some 0)]
    (.fileRead (some 0) (some zero) 4) [] rfl
  have hrefused := (hcall.refused 0 0 (some zero) 4 rfl (by decide +kernel)
    (by unfold Fs.DataWithin; decide +kernel)).1
  revert hrefused
  decide +kernel

/-- The data of the file is the last 4 bytes of the image. -/
theorem file_reads_confined_one :
    (Fs.fsMount unmounted 0xC0200000 (oneFileImage 92) 96).1 = 0 ∧
    ∀ done op rest, readOneFile = done ++ op :: rest →
      (Fs.fsMount unmounted 0xC0200000 (oneFileImage 92) 96).2.Confined 0xC0200000 zero
        ((Fs.fsMount unmounted 0xC0200000 (oneFileImage 92) 96).2.filesAfter 0xC0200000 zero done)
        op := by
  have hmount : (Fs.fsMount unmounted 0xC0200000 (oneFileImage 92) 96).1 = 0 := by decide +kernel
  refine ⟨hmount, (file_reads_confined_iff unmounted 0xC0200000 (oneFileImage 92) 96 hmount zero
    readOneFile).mpr ?_⟩
  intro done op rest hops
  rcases call_cases hops with ⟨rfl, rfl⟩ | ⟨rfl, rfl⟩
  · rintro - - p hp j - hj -
    cases hp
    have hcount : (Fs.fsMount unmounted 0xC0200000 (oneFileImage 92) 96).2.fileCount = 1 := by
      decide +kernel
    obtain rfl : j = 0 := by omega
    exact ⟨1, by decide +kernel⟩
  · rintro - k i hk - hi
    cases hk
    have hfile : ((Fs.fsMount unmounted 0xC0200000 (oneFileImage 92) 96).2.filesAfter 0xC0200000
        zero [.fileOpen (some [0x61]) fileAccessRead (some 0)] 0).fsFile = some 0 := by
      decide +kernel
    rw [hfile] at hi
    cases hi
    unfold Fs.DataWithin
    decide +kernel

end Neox
