import Mathlib.Data.List.Find
import Neox.Lib.Cursors
import Neox.Fs.Reads

/-!
# Descriptors are independent cursors

`process_open`, `process_read` and `process_close` of `task/process.c` over a mounted image, with the
path and the buffer objects of their own. The descriptors of a process are a table of cursors: each
slot in use stands for a position in the contents of the entry opened there.

* `Fs.Shows.step`: a call does what the request on the table of cursors does.
* `descriptors_are_cursors`: so does a run, and the reads of a descriptor give the file in order.
-/

namespace Neox

open Bytes Traced Cursors

/-- A call on a descriptor of a process. -/
inductive DescriptorOp
  | processOpen (path : Option (List UInt8)) (access : Nat)
  | processRead (fd : Int) (buffer : Option Block) (count : Nat)
  | processClose (fd : Int)

/-- What a call returns, and the caller's buffer after it. -/
structure Outcome where
  value : Int
  buffer : Option Block

/-- `(ssize_t)`. -/
def toSsize (n : Int) : Int := if n < 0x80000000 then n else n - wordModulus

namespace Fs

/-! ## `process.c` -/

/-- Store the `struct file` of a slot back. -/
def storeFile (files : FileTable) (fd : Nat) : Option File → FileTable
  | none => files
  | some file => Function.update files fd { files fd with file := file }

/-- `process->files[fd].used = used`. -/
def setUsed (files : FileTable) (fd : Nat) (used : Bool) : FileTable :=
  Function.update files fd { files fd with used := used }

/-- The loop of `process_open` from descriptor `fd` on, with `n` descriptors left. -/
def processOpenFrom (base : Nat) (fs : Fs) (files : FileTable) (path : List UInt8) (access fd : Nat) :
    Nat → FsM (Int × FileTable)
  | 0 => return (-1, files)
  | n + 1 =>
      if !(files fd).used then do
        let (r, file) ← fs.fileOpen base (some path) access (some (files fd).file)
        let files := storeFile files fd file
        if r ≠ 0 then return (-1, files)
        else return (fd, setUsed files fd true)
      else processOpenFrom base fs files path access (fd + 1) n

/-- `process_open`. -/
def processOpen (base : Nat) (fs : Fs) (files : FileTable) (path : Option (List UInt8))
    (access : Nat) : FsM (Int × FileTable) :=
  match path with
  | none => return (-1, files)
  | some path => processOpenFrom base fs files path access 0 processMaxFiles

/-- `process_get_file`: the slot, or `none` for `NULL`. -/
def processGetFile (files : FileTable) (fd : Int) : Option Nat :=
  if fd < 0 ∨ (processMaxFiles : Int) ≤ fd then none
  else if !(files fd.toNat).used then none
  else some fd.toNat

/-- `process_read`. -/
def processRead (base : Nat) (memory : Block) (fs : Fs) (files : FileTable) (fd : Int)
    (buffer : Option Block) (count : Nat) : FsM (Int × FileTable × Option Block) :=
  match processGetFile files fd with
  | none => return (-1, files, buffer)
  | some slot => do
      let (r, file, buffer) ← fs.fileRead base memory (some (files slot).file) buffer count
      return (toSsize r, storeFile files slot file, buffer)

/-- `process_close`. -/
def processClose (files : FileTable) (fd : Int) : Int × FileTable :=
  match processGetFile files fd with
  | none => (-1, files)
  | some slot => (0, setUsed (storeFile files slot (some Neox.fileClose)) slot false)

/-- One call. -/
def descriptorStep (base : Nat) (memory : Block) (fs : Fs) (files : FileTable) :
    DescriptorOp → FsM (Outcome × FileTable)
  | .processOpen path access => do
      let (r, files) ← fs.processOpen base files path access
      return (⟨r, none⟩, files)
  | .processRead fd buffer count => do
      let (r, files, buffer) ← fs.processRead base memory files fd buffer count
      return (⟨r, buffer⟩, files)
  | .processClose fd => return (⟨(processClose files fd).1, none⟩, (processClose files fd).2)

/-- The outcomes of some calls, and the table after them. -/
def descriptorRun (base : Nat) (memory : Block) (fs : Fs) (files : FileTable) :
    List DescriptorOp → List Outcome × FileTable
  | [] => ([], files)
  | op :: ops =>
      let r := (fs.descriptorStep base memory files op).value
      let rest := descriptorRun base memory fs r.2 ops
      (r.1 :: rest.1, rest.2)

end Fs

/-! ## The requests that the calls make -/

/-- The call is about this descriptor. -/
def DescriptorOp.on (fd : Int) : DescriptorOp → Bool
  | .processOpen _ _ => false
  | .processRead fd' _ _ => fd' = fd
  | .processClose fd' => fd' = fd

/-- The buffer that is passed. -/
def DescriptorOp.buffer : DescriptorOp → Option Block
  | .processRead _ buffer _ => buffer
  | _ => none

/-- The outcomes of the calls about a descriptor. -/
def outcomesOn (fd : Int) : List DescriptorOp → List Outcome → List Outcome
  | op :: ops, outcome :: outcomes =>
      if op.on fd then outcome :: outcomesOn fd ops outcomes else outcomesOn fd ops outcomes
  | _, _ => []

/-- The bytes that a call has put into the buffer, as its value counts them. -/
def Outcome.bytes (outcome : Outcome) : List UInt8 :=
  match outcome.buffer with
  | none => []
  | some b => (List.range outcome.value.toNat).map b

namespace Fs

/-- The data of entry `i`. -/
def contents (fs : Fs) (i : Nat) : List UInt8 :=
  (List.range (fs.fileSize i)).map fun k => fs.image (fs.offset i + k)

instance (access : Nat) : Decidable (Openable access) := inferInstanceAs (Decidable (_ ∨ _ ∨ _))

instance (access : Nat) : Decidable (Readable access) := inferInstanceAs (Decidable (_ ∨ _))

/-- The entry that an open of this path in this mode is of. -/
def opens (base : Nat) (fs : Fs) (path : Option (List UInt8)) (access : Nat) : Option Nat :=
  if Openable access then path.bind fun path => (fs.fsFind base path).value else none

/-- The request that a call makes. -/
def request (base : Nat) (fs : Fs) : DescriptorOp → Request UInt8
  | .processOpen path access =>
      .openOf ((fs.opens base path access).map fun i => (fs.contents i, decide (Readable access)))
  | .processRead fd buffer count => .read fd (buffer.map fun _ => count)
  | .processClose fd => .close fd

/-- The outcome that a reply stands for. -/
def outcome (op : DescriptorOp) : Reply UInt8 → Outcome
  | .opened fd => ⟨fd, none⟩
  | .given bytes =>
      ⟨bytes.length, op.buffer.map fun b => copy b 0 bytes.length fun k => bytes.getD k 0⟩
  | .closed => ⟨0, none⟩
  | .failed => ⟨-1, op.buffer⟩

/-- The data of the entry is in the image and smaller than `2 ^ 31` bytes. -/
def Fetchable (fs : Fs) (i : Nat) : Prop := fs.DataWithin i ∧ fs.fileSize i < 0x80000000

/-- An open is of an entry with such data. -/
def Permitted (base : Nat) (fs : Fs) : DescriptorOp → Prop
  | .processOpen path access => ∀ i, fs.opens base path access = some i → fs.Fetchable i
  | _ => True

/-- The `struct file` stands for the cursor. -/
structure ShowsFile (fs : Fs) (file : File) (c : Cursor UInt8) : Prop where
  entry : ∃ i, file.fsFile = some i ∧ fs.Fetchable i ∧ c.contents = fs.contents i
  position : c.position = file.position
  readable : c.readable = decide (Readable file.access)

/-- A slot in use stands for a cursor. -/
def ShowsSlot (fs : Fs) (slot : ProcessFile) : Option (Cursor UInt8) → Prop
  | none => slot.used = false
  | some c => slot.used = true ∧ fs.ShowsFile slot.file c

/-- The table of cursors that the descriptors are. -/
structure Shows (fs : Fs) (files : FileTable) (t : Table UInt8) : Prop where
  slots : ∀ k < processMaxFiles, fs.ShowsSlot (files k) (t k)
  outside : ∀ fd : Int, (fd < 0 ∨ (processMaxFiles : Int) ≤ fd) → t fd = none

section Slots

variable {files : FileTable} {fd : Nat} {file : File}

@[simp] theorem storeFile_self (files : FileTable) (fd : Nat) :
    storeFile files fd (some (files fd).file) = files := Function.update_eq_self fd files

theorem storeFile_of_used (h : (files fd).used = true) :
    storeFile files fd (some file) = Function.update files fd { used := true, file := file } := by
  show Function.update files fd { used := (files fd).used, file := file } = _
  rw [h]

theorem setUsed_storeFile (files : FileTable) (fd : Nat) (used : Bool) (file : File) :
    setUsed (storeFile files fd (some file)) fd used =
      Function.update files fd { used := used, file := file } := by
  unfold setUsed
  show Function.update (Function.update files fd _) fd { used := used, file := _ } = _
  rw [Function.update_idem]
  simp [storeFile]

end Slots

/-! ## `file_open` and `file_read` of a slot -/

section Files

variable {fs : Fs} {base : Nat} {memory : Block} {file : File} {path : List UInt8}
  {access i count : Nat} {b : Block} {c : Cursor UInt8}

theorem fileOpen_value :
    (fs.fileOpen base (some path) access (some file)).value =
      match fs.opens base (some path) access with
      | none => (-1, some file)
      | some i => (0, some { fsFile := some i, position := 0, access := access }) := by
  unfold fileOpen opens
  by_cases ho : Openable access
  · rw [if_neg (openable_iff.mpr ho), if_pos ho]
    show ((fs.fsFind base path >>= fun found => match found with
      | none => pure (-1, some file)
      | some i => pure (0, some { fsFile := some i, position := 0, access := access }) :
        FsM (Int × Option File)).value) = _
    rw [value_bind]
    show _ = match (fs.fsFind base path).value with
      | none => _
      | some i => _
    cases (fs.fsFind base path).value with
    | none => rfl
    | some i => rfl
  · rw [if_pos (not_not.mp fun h => ho (openable_iff.mp h)), if_neg ho]
    rfl

theorem copy_congr {b source source' : Block} {n : Nat} (h : ∀ k < n, source k = source' k) :
    copy b 0 n source = copy b 0 n source' := by
  funext k
  unfold copy
  by_cases hk : 0 ≤ k ∧ k < 0 + n
  · rw [if_pos hk, if_pos hk, h _ (by omega)]
  · rw [if_neg hk, if_neg hk]

theorem copy_nothing (b source : Block) : copy b 0 0 source = b := by
  funext k
  exact copy_of_not_mem source (by omega)

theorem contents_length (fs : Fs) (i : Nat) : (fs.contents i).length = fs.fileSize i := by
  unfold contents
  rw [List.length_map, List.length_range]

/-- A read of an entry whose data is in the image copies the next bytes of it. -/
theorem readEntry_value_eq (hdata : fs.DataWithin i) (hpos : file.position ≤ fs.fileSize i) :
    (readEntry base memory fs file i b count).value =
      (((min count (fs.fileSize i - file.position) : Nat) : Int),
        { file with position := file.position + min count (fs.fileSize i - file.position) },
        copy b 0 (min count (fs.fileSize i - file.position))
          fun k => fs.image (fs.offset i + file.position + k)) := by
  have hread : read32 fs.image (fs.entry i + fsFilenameMax + 4) = fs.fileSize i := rfl
  unfold readEntry fsFileSize load
  rw [value_fetch_bind, hread]
  by_cases hend : fs.fileSize i ≤ file.position
  · have hzero : fs.fileSize i - file.position = 0 := by omega
    rw [if_pos hend, hzero, Nat.min_zero, copy_nothing]
    rfl
  · rw [if_neg hend, value_fetch_bind]
    dsimp only
    rw [value_bind, fsFileData_value, fileData_of_within hdata, value_report_bind]
    have hmin : (if fs.fileSize i - file.position < count then fs.fileSize i - file.position
        else count) = min count (fs.fileSize i - file.position) := by
      split
      · omega
      · omega
    rw [hmin]
    rfl

/-- The next bytes of a cursor are those of the entry's data after its position. -/
theorem next_getD (hc : c.contents = fs.contents i) {n k : Nat} (hk : k < (c.next n).length) :
    (c.next n).getD k 0 = fs.image (fs.offset i + c.position + k) := by
  have hlen := c.next_length n
  have hsize : c.contents.length = fs.fileSize i := by rw [hc, contents_length]
  have hin : c.position + k < fs.fileSize i := by omega
  rw [List.getD_eq_getElem?_getD, List.getElem?_eq_getElem hk, Option.getD_some]
  unfold Cursor.next Cursor.rest
  simp only [List.getElem_take, List.getElem_drop, hc]
  unfold contents
  rw [List.getElem_map, List.getElem_range, Nat.add_assoc]

end Files

/-! ## One call -/

section Step

variable {fs : Fs} {base : Nat} {memory : Block} {files : FileTable} {t : Table UInt8}
  {path : List UInt8} {access : Nat}

/-- The slot of a descriptor in use, with the cursor that it stands for. -/
theorem processGetFile_some {fd : Int} {slot : Nat} (h : fs.Shows files t)
    (hget : processGetFile files fd = some slot) :
    fd = slot ∧ slot < processMaxFiles ∧ (files slot).used = true ∧
      ∃ c, t fd = some c ∧ fs.ShowsFile (files slot).file c := by
  unfold processGetFile at hget
  by_cases hrange : fd < 0 ∨ (processMaxFiles : Int) ≤ fd
  · rw [if_pos hrange] at hget
    cases hget
  rw [if_neg hrange] at hget
  by_cases hused : (files fd.toNat).used = true
  · rw [if_neg (by simp [hused])] at hget
    obtain rfl := Option.some.inj hget
    have heq : fd = (fd.toNat : Int) := by omega
    have hslot := h.slots fd.toNat (by omega)
    rw [← heq] at hslot
    refine ⟨heq, by omega, hused, ?_⟩
    cases hc : t fd with
    | none =>
        rw [hc] at hslot
        have hfree : (files fd.toNat).used = false := hslot
        rw [hused] at hfree
        cases hfree
    | some c =>
        rw [hc] at hslot
        exact ⟨c, rfl, hslot.2⟩
  · rw [if_pos (by simp [hused])] at hget
    cases hget

/-- A descriptor without a slot is not in use. -/
theorem processGetFile_none {fd : Int} (h : fs.Shows files t)
    (hget : processGetFile files fd = none) : t fd = none := by
  unfold processGetFile at hget
  by_cases hrange : fd < 0 ∨ (processMaxFiles : Int) ≤ fd
  · exact h.outside fd hrange
  rw [if_neg hrange] at hget
  by_cases hused : (files fd.toNat).used = true
  · rw [if_neg (by simp [hused])] at hget
    cases hget
  · have heq : fd = (fd.toNat : Int) := by omega
    have hslot := h.slots fd.toNat (by omega)
    rw [← heq] at hslot
    cases hc : t fd with
    | none => rfl
    | some c =>
        rw [hc] at hslot
        exact absurd hslot.1 hused

/-- A slot and its cursor change together. -/
theorem Shows.update {slot : Nat} {entry : ProcessFile} {c : Option (Cursor UInt8)}
    (h : fs.Shows files t) (hslot : slot < processMaxFiles) (hentry : fs.ShowsSlot entry c) :
    fs.Shows (Function.update files slot entry) (Function.update t (slot : Int) c) := by
  constructor
  · intro k hk
    by_cases heq : k = slot
    · subst heq
      rw [Function.update_self, Function.update_self]
      exact hentry
    · have hne : (k : Int) ≠ slot := by omega
      rw [Function.update_of_ne heq, Function.update_of_ne hne]
      exact h.slots k hk
  · intro fd hfd
    have hne : fd ≠ slot := by omega
    rw [Function.update_of_ne hne]
    exact h.outside fd hfd

/-- The loop of `process_open` opens the entry in the first unused slot. -/
theorem processOpenFrom_value (fd n : Nat) :
    (fs.processOpenFrom base files path access fd n).value =
      match fs.opens base (some path) access,
        (List.range' fd n).find? fun k => !(files k).used with
      | some i, some k => ((k : Int), Function.update files k
          { used := true, file := { fsFile := some i, position := 0, access := access } })
      | _, _ => (-1, files) := by
  induction n generalizing fd with
  | zero =>
      unfold processOpenFrom
      cases fs.opens base (some path) access with
      | none => rfl
      | some i => rfl
  | succ n ih =>
      unfold processOpenFrom
      rw [List.range'_succ, List.find?_cons]
      by_cases hused : (files fd).used = true
      · rw [if_neg (by simp [hused]), ih]
        simp only [hused, Bool.not_true]
      · rw [if_pos (by simp [hused]), value_bind, fileOpen_value]
        have hfree : (files fd).used = false := by simpa using hused
        simp only [hfree, Bool.not_false]
        cases fs.opens base (some path) access with
        | none =>
            show ((-1 : Int), storeFile files fd (some (files fd).file)) = _
            rw [storeFile_self]
        | some i =>
            exact congrArg (Prod.mk (fd : Int)) (setUsed_storeFile files fd true _)

/-- The lowest unused slot is the lowest descriptor without a cursor. -/
theorem Shows.lowestUnused (h : fs.Shows files t) :
    (List.range' 0 processMaxFiles).find? (fun k => !(files k).used) =
      t.lowestUnused processMaxFiles := by
  rw [← List.range_eq_range']
  apply List.find?_congr
  intro k hk
  have hslot := h.slots k (List.mem_range.mp hk)
  cases hc : t k with
  | none =>
      rw [hc] at hslot
      have hfree : (files k).used = false := hslot
      rw [hfree]
      rfl
  | some c =>
      rw [hc] at hslot
      rw [hslot.1]
      rfl

/-- The slot at the beginning of the entry stands for a new cursor. -/
theorem showsSlot_start {i : Nat} (h : fs.Fetchable i) :
    fs.ShowsSlot { used := true, file := { fsFile := some i, position := 0, access := access } }
      (some (.start (fs.contents i) (decide (Readable access)))) :=
  ⟨rfl, ⟨i, rfl, h, rfl⟩, rfl, rfl⟩

/-- A call returns what the request is answered, and the slots follow the table of cursors. -/
structure Follows (base : Nat) (fs : Fs) (files : FileTable) (t : Table UInt8) (op : DescriptorOp)
    (r : Outcome × FileTable) : Prop where
  outcome : r.1 = outcome op (t.step processMaxFiles (fs.request base op)).1
  shows : fs.Shows r.2 (t.step processMaxFiles (fs.request base op)).2
  failed : (t.step processMaxFiles (fs.request base op)).1 = .failed → r.2 = files

theorem Follows.of_failed {op : DescriptorOp} {r : Outcome × FileTable} (h : fs.Shows files t)
    (hr : r = (⟨-1, op.buffer⟩, files))
    (hstep : t.step processMaxFiles (fs.request base op) = (.failed, t)) :
    fs.Follows base files t op r := by
  subst hr
  constructor
  · rw [hstep]
    rfl
  · rw [hstep]
    exact h
  · intro _
    rfl

theorem Follows.of_done {op : DescriptorOp} {r : Outcome × FileTable} {reply : Reply UInt8}
    {t' : Table UInt8} (hstep : t.step processMaxFiles (fs.request base op) = (reply, t'))
    (hreply : reply ≠ .failed) (hr : r.1 = Fs.outcome op reply) (h : fs.Shows r.2 t') :
    fs.Follows base files t op r := by
  constructor
  · rw [hstep]
    exact hr
  · rw [hstep]
    exact h
  · intro hfailed
    rw [hstep] at hfailed
    exact absurd hfailed hreply

/-- `process_open` opens a cursor at the lowest unused descriptor. -/
theorem Shows.processOpen {path : Option (List UInt8)} (h : fs.Shows files t)
    (hop : fs.Permitted base (.processOpen path access)) :
    fs.Follows base files t (.processOpen path access)
      (fs.descriptorStep base memory files (.processOpen path access)).value := by
  have hstep : t.step processMaxFiles (fs.request base (.processOpen path access)) =
      t.openLowest processMaxFiles ((fs.opens base path access).map fun i =>
        (fs.contents i, decide (Readable access))) := rfl
  cases path with
  | none =>
      have hopens : fs.opens base none access = none := ite_self none
      rw [hopens] at hstep
      exact Follows.of_failed h rfl (hstep.trans (Table.openLowest_failed (Or.inl rfl)))
  | some path =>
      have hvalue : (fs.descriptorStep base memory files (.processOpen (some path) access)).value =
          (⟨(fs.processOpenFrom base files path access 0 processMaxFiles).value.1, none⟩,
            (fs.processOpenFrom base files path access 0 processMaxFiles).value.2) := value_bind
      rw [hvalue, processOpenFrom_value, h.lowestUnused]
      cases hopens : fs.opens base (some path) access with
      | none =>
          rw [hopens] at hstep
          exact Follows.of_failed h rfl (hstep.trans (Table.openLowest_failed (Or.inl rfl)))
      | some i =>
          rw [hopens] at hstep
          cases hlow : t.lowestUnused processMaxFiles with
          | none => exact Follows.of_failed h rfl (hstep.trans (Table.openLowest_failed (Or.inr hlow)))
          | some k =>
              have hk : k < processMaxFiles := (Table.lowestUnused_eq_some.mp hlow).1
              exact Follows.of_done (hstep.trans (Table.openLowest_opened hlow)) (by simp) rfl
                (h.update hk (showsSlot_start (hop i hopens)))

/-- `process_close` gives up the slot of the descriptor. -/
theorem Shows.processClose {fd : Int} (h : fs.Shows files t) :
    fs.Follows base files t (.processClose fd)
      (fs.descriptorStep base memory files (.processClose fd)).value := by
  have hstep : t.step processMaxFiles (fs.request base (.processClose fd)) = t.closeAt fd := rfl
  have hvalue : (fs.descriptorStep base memory files (.processClose fd)).value =
      (⟨(Fs.processClose files fd).1, none⟩, (Fs.processClose files fd).2) := rfl
  unfold Table.closeAt at hstep
  unfold Fs.processClose at hvalue
  cases hget : processGetFile files fd with
  | none =>
      rw [processGetFile_none h hget] at hstep
      rw [hget] at hvalue
      exact Follows.of_failed h hvalue hstep
  | some slot =>
      obtain ⟨rfl, hslot, -, c, hc, -⟩ := processGetFile_some h hget
      rw [hc] at hstep
      rw [hget] at hvalue
      refine Follows.of_done hstep (by simp) (by rw [hvalue]; rfl) ?_
      rw [hvalue]
      show fs.Shows (setUsed (storeFile files slot (some Neox.fileClose)) slot false) _
      rw [setUsed_storeFile]
      exact h.update hslot rfl

theorem processRead_value {fd : Int} {slot count : Nat} {buffer : Option Block}
    {r : Int × Option File × Option Block} (hget : processGetFile files fd = some slot)
    (hr : (fs.fileRead base memory (some (files slot).file) buffer count).value = r) :
    (fs.descriptorStep base memory files (.processRead fd buffer count)).value =
      (⟨toSsize r.1, r.2.2⟩, storeFile files slot r.2.1) := by
  have hread : (fs.processRead base memory files fd buffer count).value =
      (toSsize r.1, storeFile files slot r.2.1, r.2.2) := by
    unfold Fs.processRead
    rw [hget]
    show (fs.fileRead base memory (some (files slot).file) buffer count >>= _).value = _
    rw [value_bind, hr]
    rfl
  show (fs.processRead base memory files fd buffer count >>= _).value = _
  rw [value_bind, hread]
  rfl

/-- A file that is shown as a readable cursor is read as the cursor is. -/
theorem ShowsFile.fileRead {file : File} {c : Cursor UInt8} (base : Nat) (memory b : Block)
    (count : Nat) (h : fs.ShowsFile file c) (hread : c.readable = true) :
    ∃ file', (fs.fileRead base memory (some file) (some b) count).value =
        (((c.next count).length : Int), some file',
          some (copy b 0 (c.next count).length fun k => (c.next count).getD k 0)) ∧
      fs.ShowsFile file' (c.advance count) ∧ (c.next count).length < 0x80000000 := by
  obtain ⟨⟨i, hi, hfetch, hcontents⟩, hpos, hreadable⟩ := h
  have haccess : Readable file.access := of_decide_eq_true (hreadable ▸ hread)
  have hsize : c.contents.length = fs.fileSize i := by rw [hcontents, contents_length]
  have hinside : file.position ≤ fs.fileSize i := by
    rw [← hpos, ← hsize]
    exact c.inside
  have hlen : (c.next count).length = min count (fs.fileSize i - file.position) := by
    rw [c.next_length, hsize, hpos]
  refine ⟨{ file with position := file.position + (c.next count).length }, ?_, ?_, ?_⟩
  · rw [fileRead_entry hi haccess, value_bind, readEntry_value_eq hfetch.1 hinside, hlen]
    have hbytes : copy b 0 (min count (fs.fileSize i - file.position))
          (fun k => fs.image (fs.offset i + file.position + k)) =
        copy b 0 (min count (fs.fileSize i - file.position)) fun k => (c.next count).getD k 0 :=
      copy_congr fun k hk => by rw [next_getD hcontents (by omega), hpos]
    rw [hbytes]
    rfl
  · refine ⟨⟨i, hi, hfetch, hcontents⟩, ?_, hreadable⟩
    show c.position + (c.next count).length = file.position + (c.next count).length
    rw [hpos]
  · have hsmall := hfetch.2
    omega

/-- `process_read` gives the next bytes of the file and advances the position. -/
theorem Shows.processRead {fd : Int} {buffer : Option Block} {count : Nat} (h : fs.Shows files t) :
    fs.Follows base files t (.processRead fd buffer count)
      (fs.descriptorStep base memory files (.processRead fd buffer count)).value := by
  have hstep : t.step processMaxFiles (fs.request base (.processRead fd buffer count)) =
      t.readAt fd (buffer.map fun _ => count) := rfl
  cases hget : processGetFile files fd with
  | none =>
      have hrefused : t.readAt fd (buffer.map fun _ => count) = (.failed, t) := by
        unfold Table.readAt
        rw [processGetFile_none h hget]
      have hread : fs.processRead base memory files fd buffer count = pure (-1, files, buffer) := by
        unfold Fs.processRead
        rw [hget]
      refine Follows.of_failed h ?_ (hstep.trans hrefused)
      show (fs.processRead base memory files fd buffer count >>= _).value = _
      rw [hread]
      rfl
  | some slot =>
      obtain ⟨rfl, hslot, hused, c, hc, hfile⟩ := processGetFile_some h hget
      by_cases hread : c.readable = true ∧ buffer ≠ none
      · obtain ⟨b, rfl⟩ := Option.ne_none_iff_exists'.mp hread.2
        obtain ⟨file', hvalue, hfile', hsmall⟩ :=
          hfile.fileRead base memory b count hread.1
        refine Follows.of_done (hstep.trans (Table.readAt_readable hc hread.1)) (by simp) ?_ ?_
        · rw [processRead_value hget hvalue]
          unfold toSsize
          rw [if_pos (by omega)]
          rfl
        · rw [processRead_value hget hvalue]
          show fs.Shows (storeFile files slot (some file')) _
          rw [storeFile_of_used hused]
          exact h.update hslot ⟨rfl, hfile'⟩
      · have hrefused := Table.readAt_refused (buffer.map fun _ => count) hc
          (by simpa using hread)
        refine Follows.of_failed h ?_ (hstep.trans hrefused)
        have hvalue : (fs.fileRead base memory (some (files slot).file) buffer count).value =
            (-1, some (files slot).file, buffer) := by
          rw [fileRead_refused fun hb f hf ha => ?_]
          · rfl
          · obtain rfl := Option.some.inj hf
            exact absurd ⟨hfile.readable.trans (decide_eq_true ha), hb⟩ hread
        rw [processRead_value hget hvalue]
        show (_, storeFile files slot (some (files slot).file)) = _
        rw [storeFile_self]
        rfl

/-- A call does what the request that it makes does. -/
theorem Shows.step {op : DescriptorOp} (h : fs.Shows files t) (hop : fs.Permitted base op) :
    fs.Follows base files t op (fs.descriptorStep base memory files op).value := by
  cases op with
  | processOpen path access => exact h.processOpen hop
  | processRead fd buffer count => exact h.processRead
  | processClose fd => exact h.processClose

end Step

/-! ## Runs -/

section Run

variable {fs : Fs} {base : Nat} {memory : Block} {files : FileTable} {t : Table UInt8}
  {ops : List DescriptorOp} {fd : Int}

/-- The outcomes of some calls are what the replies to their requests stand for. -/
theorem Shows.run (h : fs.Shows files t) (hops : ∀ op ∈ ops, fs.Permitted base op) :
    (fs.descriptorRun base memory files ops).1 =
        List.zipWith Fs.outcome ops (t.run processMaxFiles (ops.map (fs.request base))).1 ∧
      fs.Shows (fs.descriptorRun base memory files ops).2
        (t.run processMaxFiles (ops.map (fs.request base))).2 := by
  induction ops generalizing files t with
  | nil => exact ⟨rfl, h⟩
  | cons op ops ih =>
      have hstep : fs.Follows base files t op (fs.descriptorStep base memory files op).value :=
        h.step (hops op (List.mem_cons_self ..))
      obtain ⟨houtcomes, hafter⟩ := ih hstep.shows fun op hop => hops op (List.mem_cons_of_mem _ hop)
      refine ⟨?_, hafter⟩
      exact congrArg₂ List.cons hstep.outcome houtcomes

/-- No slot of a new process is in use. -/
theorem shows_fresh (h : ∀ k < processMaxFiles, (files k).used = false) :
    fs.Shows files Table.empty :=
  ⟨fun k hk => h k hk, fun _ _ => rfl⟩

/-- A reply stands for -1 only when the request has failed. -/
theorem outcome_eq_failed {op : DescriptorOp} {reply : Reply UInt8}
    (h : (Fs.outcome op reply).value = -1) : reply = .failed := by
  cases reply with
  | opened k =>
      have h : (k : Int) = -1 := h
      omega
  | given bytes =>
      have h : (bytes.length : Int) = -1 := h
      omega
  | closed => cases h
  | failed => rfl

/-- A call that returns -1 changes nothing. -/
theorem Follows.unchanged {op : DescriptorOp} {r : Outcome × FileTable}
    (h : fs.Follows base files t op r) (hvalue : r.1.value = -1) :
    r = (⟨-1, op.buffer⟩, files) := by
  have hreply := outcome_eq_failed (h.outcome ▸ hvalue)
  refine Prod.ext ?_ (h.failed hreply)
  rw [h.outcome, hreply]
  rfl

/-! ## The calls about one descriptor -/

theorem request_on (op : DescriptorOp) : (fs.request base op).on fd = op.on fd := by
  cases op with
  | processOpen path access => rfl
  | processRead fd' buffer count => rfl
  | processClose fd' => rfl

theorem filter_request (ops : List DescriptorOp) :
    (ops.map (fs.request base)).filter (·.on fd) = (ops.filter (·.on fd)).map (fs.request base) := by
  rw [List.filter_map]
  refine congrArg (List.map _) (List.filter_congr fun op _ => ?_)
  exact request_on op

theorem request_ne_close (hclose : ∀ op ∈ ops, op ≠ .processClose fd) :
    ∀ r ∈ ops.map (fs.request base), r ≠ .close fd := by
  intro r hr
  obtain ⟨op, hop, rfl⟩ := List.mem_map.mp hr
  cases op with
  | processOpen path access => simp [request]
  | processRead fd' buffer count => simp [request]
  | processClose fd' =>
      intro heq
      have hfd : fd' = fd := by simpa [request] using heq
      exact hclose _ hop (hfd ▸ rfl)

/-- The outcomes on a descriptor are what the replies on it stand for. -/
theorem outcomesOn_zipWith (base : Nat) (fs : Fs) (replies : List (Reply UInt8)) :
    outcomesOn fd ops (List.zipWith Fs.outcome ops replies) =
      List.zipWith Fs.outcome (ops.filter (·.on fd))
        (Table.repliesOn fd (ops.map (fs.request base)) replies) := by
  induction ops generalizing replies with
  | nil => rfl
  | cons op ops ih =>
      cases replies with
      | nil => simp [outcomesOn, Table.repliesOn]
      | cons reply replies =>
          have hon : (fs.request base op).on fd = op.on fd := request_on op
          show (if op.on fd then _ else _) = List.zipWith Fs.outcome _ (if _ then _ else _)
          rw [hon]
          cases h : op.on fd with
          | true =>
              rw [List.filter_cons_of_pos h]
              exact congrArg (List.cons _) (ih replies)
          | false =>
              rw [List.filter_cons_of_neg (by simp [h])]
              exact ih replies

/-- The bytes in the caller's buffer are those of the reply. -/
theorem bytes_outcome {op : DescriptorOp} {reply : Reply UInt8}
    (h : ∀ bytes, reply = .given bytes → op.buffer ≠ none) :
    (Fs.outcome op reply).bytes = reply.items := by
  cases reply with
  | opened k => rfl
  | given bytes =>
      obtain ⟨b, hb⟩ := Option.ne_none_iff_exists'.mp (h bytes rfl)
      unfold Outcome.bytes Fs.outcome Reply.items
      rw [hb]
      show (List.range bytes.length).map (copy b 0 bytes.length fun k => bytes.getD k 0) = bytes
      apply List.ext_getElem
      · rw [List.length_map, List.length_range]
      · intro k hk hk'
        have hcopy : copy b 0 bytes.length (fun k => bytes.getD k 0) (0 + k) = bytes.getD k 0 :=
          copy_of_mem (fun k => bytes.getD k 0) hk'
        rw [Nat.zero_add] at hcopy
        rw [List.getElem_map, List.getElem_range, hcopy, List.getD_eq_getElem?_getD,
          List.getElem?_eq_getElem hk', Option.getD_some]
  | closed => rfl
  | failed =>
      unfold Outcome.bytes Fs.outcome
      cases op.buffer with
      | none => rfl
      | some b => rfl

theorem buffer_of_given (base : Nat) (fs : Fs) (t : Table UInt8) (op : DescriptorOp) {bytes : List UInt8}
    (h : (t.step processMaxFiles (fs.request base op)).1 = .given bytes) : op.buffer ≠ none := by
  obtain ⟨fd', n, hrequest⟩ := Table.step_given h
  cases op with
  | processOpen path access => cases hrequest
  | processRead fd buffer count =>
      cases buffer with
      | none => cases hrequest
      | some b =>
          intro hnone
          cases hnone
  | processClose fd => cases hrequest

/-- The bytes that the callers of a run receive. -/
theorem bytes_run (t : Table UInt8) (ops : List DescriptorOp) :
    (List.zipWith Fs.outcome ops
        (t.run processMaxFiles (ops.map (fs.request base))).1).flatMap Outcome.bytes =
      Table.given (t.run processMaxFiles (ops.map (fs.request base))).1 := by
  induction ops generalizing t with
  | nil => rfl
  | cons op ops ih =>
      have hbytes := bytes_outcome fun _ h => buffer_of_given base fs t op h
      exact congrArg₂ List.append hbytes (ih _)

/-- Until it is closed, a descriptor answers as if there were no other, and its reads give what is
left of the file, in order. -/
theorem Shows.descriptor {c : Cursor UInt8} (memory : Block) (h : fs.Shows files t)
    (hops : ∀ op ∈ ops, fs.Permitted base op) (hclose : ∀ op ∈ ops, op ≠ .processClose fd)
    (hc : t fd = some c) :
    outcomesOn fd ops (fs.descriptorRun base memory files ops).1 =
        (fs.descriptorRun base memory files (ops.filter (·.on fd))).1 ∧
      (outcomesOn fd ops (fs.descriptorRun base memory files ops).1).flatMap Outcome.bytes <+:
        c.rest := by
  have hfilter : ∀ op ∈ ops.filter (·.on fd), fs.Permitted base op :=
    fun op hop => hops op (List.mem_of_mem_filter hop)
  have hself : outcomesOn fd ops (fs.descriptorRun base memory files ops).1 =
      (fs.descriptorRun base memory files (ops.filter (·.on fd))).1 := by
    rw [(h.run hops).1, (h.run hfilter).1, outcomesOn_zipWith base fs,
      Table.repliesOn_run hc hc (request_ne_close hclose), filter_request]
  have hon : ∀ r ∈ (ops.filter (·.on fd)).map (fs.request base), r.on fd = true := by
    intro r hr
    obtain ⟨op, hop, rfl⟩ := List.mem_map.mp hr
    exact (request_on op).trans (List.mem_filter.mp hop).2
  obtain ⟨c', -, hgiven⟩ := Table.given_append_rest processMaxFiles hc hon
    (request_ne_close fun op hop => hclose op (List.mem_of_mem_filter hop))
  refine ⟨hself, c'.rest, ?_⟩
  rw [hself, (h.run hfilter).1, bytes_run]
  exact hgiven

end Run

end Fs

/-- In a process whose slots are unused at first, a run of calls on entries whose data is in the image
and smaller than `2 ^ 31` bytes has the outcomes of a table of cursors: an open takes the lowest
unused descriptor, a read gives the next bytes of the file. A call that returns -1 changes nothing.
From any point on, and until it is closed, a descriptor answers as if there were no other, and its
reads together give a prefix of what is left of the file. -/
theorem descriptors_are_cursors (base : Nat) (memory : Block) (fs : Fs) (files : FileTable)
    (ops : List DescriptorOp) (hfresh : ∀ k < processMaxFiles, (files k).used = false)
    (hops : ∀ op ∈ ops, fs.Permitted base op) :
    (fs.descriptorRun base memory files ops).1 = List.zipWith Fs.outcome ops
        (Table.run processMaxFiles Table.empty (ops.map (fs.request base))).1 ∧
      (∀ done op rest, ops = done ++ op :: rest →
        (fs.descriptorStep base memory (fs.descriptorRun base memory files done).2 op).value.1.value =
          -1 →
        (fs.descriptorStep base memory (fs.descriptorRun base memory files done).2 op).value =
          (⟨-1, op.buffer⟩, (fs.descriptorRun base memory files done).2)) ∧
      (∀ done during rest fd slot i, ops = done ++ during ++ rest →
        (∀ op ∈ during, op ≠ .processClose fd) →
        Fs.processGetFile (fs.descriptorRun base memory files done).2 fd = some slot →
        ((fs.descriptorRun base memory files done).2 slot).file.fsFile = some i →
        let opened := (fs.descriptorRun base memory files done).2
        let outcomes := outcomesOn fd during (fs.descriptorRun base memory opened during).1
        outcomes = (fs.descriptorRun base memory opened (during.filter (·.on fd))).1 ∧
          outcomes.flatMap Outcome.bytes <+: (fs.contents i).drop (opened slot).file.position) := by
  have hstart : fs.Shows files Table.empty := Fs.shows_fresh hfresh
  have hreached : ∀ done rest, ops = done ++ rest →
      fs.Shows (fs.descriptorRun base memory files done).2
        (Table.run processMaxFiles Table.empty (done.map (fs.request base))).2 := by
    intro done rest heq
    exact (hstart.run fun op hop => hops op (heq ▸ List.mem_append_left _ hop)).2
  refine ⟨(hstart.run hops).1, ?_, ?_⟩
  · intro done op rest heq hvalue
    have hop : fs.Permitted base op := hops op (heq ▸ by simp)
    exact ((hreached done _ heq).step hop).unchanged hvalue
  · intro done during rest fd slot i heq hclose hget hi
    have hshows := hreached done (during ++ rest) (by rw [heq, List.append_assoc])
    obtain ⟨rfl, -, -, c, hc, ⟨j, hj, -, hcontents⟩, hpos, -⟩ := Fs.processGetFile_some hshows hget
    obtain rfl : i = j := Option.some.inj (hi.symm.trans hj)
    have hduring : ∀ op ∈ during, fs.Permitted base op := fun op hop => hops op (heq ▸ by simp [hop])
    have hrest : c.rest = (fs.contents i).drop
        ((fs.descriptorRun base memory files done).2 slot).file.position := by
      unfold Cursor.rest
      rw [hcontents, hpos]
    have hdescriptor := hshows.descriptor memory hduring hclose hc
    rw [hrest] at hdescriptor
    exact hdescriptor

/-- The image of one file, mounted. -/
def oneFileMounted : Fs := (Fs.fsMount unmounted 0xC0200000 (oneFileImage 92) 96).2

/-- The descriptors of a new process. -/
def newFiles : FileTable := fun _ => { used := false, file := Neox.fileClose }

/-- The file is open twice; both descriptors are read, and one is closed between. -/
def readTwice : List DescriptorOp :=
  [.processOpen (some [0x61]) fileAccessRead, .processOpen (some [0x61]) fileAccessRead,
    .processRead 0 (some zero) 3, .processRead 1 (some zero) 4, .processClose 1,
    .processRead 0 (some zero) 3]

/-- The second read of descriptor 0 gives the byte that the first has left. -/
theorem descriptors_are_cursors_twice :
    ((oneFileMounted.descriptorRun 0xC0200000 zero newFiles readTwice).1.map Outcome.value =
      [0, 1, 3, 4, 0, 1]) ∧
    (oneFileMounted.descriptorRun 0xC0200000 zero newFiles readTwice).1 =
      List.zipWith Fs.outcome readTwice
        (Table.run processMaxFiles Table.empty
          (readTwice.map (oneFileMounted.request 0xC0200000))).1 := by
  refine ⟨by decide +kernel, ?_⟩
  have hfound : ∀ i, oneFileMounted.opens 0xC0200000 (some [0x61]) fileAccessRead = some i →
      oneFileMounted.Fetchable i := by
    intro i hi
    have hzero : oneFileMounted.opens 0xC0200000 (some [0x61]) fileAccessRead = some 0 := by
      decide +kernel
    obtain rfl := Option.some.inj (hzero.symm.trans hi)
    unfold Fs.Fetchable Fs.DataWithin
    decide +kernel
  refine (descriptors_are_cursors 0xC0200000 zero oneFileMounted newFiles readTwice
    (fun _ _ => rfl) ?_).1
  intro op hop
  unfold readTwice at hop
  simp only [List.mem_cons, List.not_mem_nil, or_false] at hop
  rcases hop with rfl | rfl | rfl | rfl | rfl | rfl
  · exact hfound
  · exact hfound
  all_goals trivial

end Neox
