import Neox.Lib.Traced
import Neox.Elf.Loader

/-!
# What the loader reads of an image

`elf_validate` and `elf_load` once more, with every read of the image reported and with the loops as
the code has them: a loop that does not end stops with `hang`. They compute what `elfValidate` and
`elfLoad` do. Every field is read inside the image, and so is what is copied to a page. A field that
the code reads more than once in a row is reported once.
-/

namespace Neox

open Bytes Traced

inductive ImageAccess where
  /-- `size` bytes are read at `offset`. -/
  | read (offset size : Nat)
  /-- `memcpy` of `size` bytes at `offset` to `pageOffset` in a page. -/
  | copy (pageOffset offset size : Nat)
  deriving DecidableEq, Repr

/-- A computation that reports its accesses to the image. -/
abbrev ImageM := Traced Stop ImageAccess

namespace Elf

/-- `elf_validate`. -/
def validate (image : ElfImage) : ImageM Bool :=
  if image.size < elf32HeaderSize then return false
  else do
    let ident0 ← fetch (.read 0 1) (image.bytes 0)
    if ident0 ≠ 0x7F then return false
    let ident1 ← fetch (.read 1 1) (image.bytes 1)
    if ident1 ≠ 0x45 then return false
    let ident2 ← fetch (.read 2 1) (image.bytes 2)
    if ident2 ≠ 0x4C then return false
    let ident3 ← fetch (.read 3 1) (image.bytes 3)
    if ident3 ≠ 0x46 then return false
    let class32 ← fetch (.read 4 1) (image.bytes 4)
    if class32 ≠ 1 then return false
    let data2lsb ← fetch (.read 5 1) (image.bytes 5)
    if data2lsb ≠ 1 then return false
    let eType ← fetch (.read 16 2) image.eType
    if eType ≠ 2 then return false
    let eMachine ← fetch (.read 18 2) image.eMachine
    if eMachine ≠ 3 then return false
    let ePhentsize ← fetch (.read 42 2) image.ePhentsize
    if ePhentsize ≠ elf32ProgramHeaderSize then return false
    let ePhnum ← fetch (.read 44 2) image.ePhnum
    if ePhnum = 0 then return false
    let ePhoff ← fetch (.read 28 4) image.ePhoff
    if image.size < ePhoff then return false
    if image.size - ePhoff < ePhnum * elf32ProgramHeaderSize then return false
    return true

/-- The checks at the head of the segment loop, and `p_flags`; the header is at `offset`. -/
def checkHeader (image : ElfImage) (ph : ProgramHeader) (offset : Nat) : ImageM Bool := do
  let pMemsz ← fetch (.read (offset + 20) 4) ph.pMemsz
  let pFilesz ← fetch (.read (offset + 16) 4) ph.pFilesz
  if pMemsz < pFilesz then return false
  let pOffset ← fetch (.read (offset + 4) 4) ph.pOffset
  if image.size < pOffset ∨ image.size - pOffset < pFilesz then return false
  let pVaddr ← fetch (.read (offset + 8) 4) ph.pVaddr
  if (pVaddr + pMemsz) % wordModulus < pVaddr then return false
  let _ ← fetch (.read (offset + 24) 4) ph.pFlags
  return true

/-- The part of the file that belongs in a page is copied to its frame. -/
def copyToPage (image : ElfImage) (ph : ProgramHeader) (page frame : Nat) (m : Mm) : ImageM Mm := do
  if ph.copySize page ≠ 0 then
    report (.copy (ph.pageOffset page) (ph.pOffset + ph.copyOffset page) (ph.copySize page))
  return { m with
    frames := Function.update m.frames frame (copyPage image ph page (m.frames frame)) }

/-- The body of the page loop: the record of the page, or `none` for `goto fail`. -/
def loadPage (directory : Nat) (image : ElfImage) (ph : ProgramHeader) (m : Mm) (page : Nat) :
    ImageM (Option LoadedPage × Mm) :=
  let (phys, m) := m.allocPage
  if phys = 0 then return (none, m)
  else do
    let frame ← silent (direct phys)
    let m ← silent (pagingMap (m.zeroFrame frame) directory page phys ph.flags)
    let translated ← silent (pagingTranslate m directory page)
    if translated ≠ phys then
      let m ← silent (pagingUnmap m directory page)
      return (none, m.freePage phys)
    else
      let (block, m) ← silent (kmalloc m loadedPageSize)
      if block = 0 then
        let m ← silent (pagingUnmap m directory page)
        return (none, m.freePage phys)
      else
        let m ← copyToPage image ph page frame m
        return (some ⟨page, block⟩, m)

/-- The page loop, which goes round at most `n` times. -/
def loadPages (directory : Nat) (image : ElfImage) (ph : ProgramHeader) (m : Mm)
    (loaded : List LoadedPage) (page : Nat) : Nat → ImageM (Bool × List LoadedPage × Mm)
  | 0 => silent (.error .hang)
  | n + 1 =>
      if ph.segmentEnd ≤ page then return (true, loaded, m)
      else do
        match ← loadPage directory image ph m page with
        | (none, m) => return (false, loaded, m)
        | (some record, m) =>
            loadPages directory image ph m (loaded ++ [record]) ((page + pageSize) % wordModulus) n

/-- `uint16_t i` counts the program headers. -/
abbrev halfModulus : Nat := 0x10000

/-- The segment loop from header `i` on, which goes round at most `n` times. -/
def loadSegments (directory : Nat) (image : ElfImage) (m : Mm) (loaded : List LoadedPage) (i : Nat) :
    Nat → ImageM (Bool × List LoadedPage × Mm)
  | 0 => silent (.error .hang)
  | n + 1 => do
      let ePhnum ← fetch (.read 44 2) image.ePhnum
      if ePhnum ≤ i then return (true, loaded, m)
      else
        let ePhoff ← fetch (.read 28 4) image.ePhoff
        let ePhentsize ← fetch (.read 42 2) image.ePhentsize
        let offset := ePhoff + i * ePhentsize
        let ph := image.header i
        let pType ← fetch (.read offset 4) ph.pType
        if pType ≠ ptLoad then loadSegments directory image m loaded ((i + 1) % halfModulus) n
        else
          let valid ← checkHeader image ph offset
          if !valid then return (false, loaded, m)
          else
            let (ok, loaded, m) ← loadPages directory image ph m loaded ph.segmentStart
              (wordModulus / pageSize)
            if ok then loadSegments directory image m loaded ((i + 1) % halfModulus) n
            else return (false, loaded, m)

/-- `elf_load`. -/
def load (m : Mm) (directory : Nat) (image : ElfImage) : ImageM (Option Nat × Mm) := do
  let valid ← validate image
  if !valid then return (none, m)
  else
    let (ok, loaded, m) ← loadSegments directory image m [] 0 halfModulus
    if ok then
      let eEntry ← fetch (.read 24 4) image.eEntry
      return (some eEntry, m)
    else
      let m ← silent (loaded.reverse.foldlM (elfUnloadPage directory) m)
      return (none, m)

/-! ## `elf_validate` -/

section Validate

variable {image : ElfImage}

end Validate

/-! ## `elf_load` -/

section Load

variable {image : ElfImage} {ph : ProgramHeader} {m : Mm} {directory offset page i n : Nat}
  {loaded : List LoadedPage}

/-- One round of the page loop. -/
theorem elfLoadPages_succ :
    elfLoadPages directory image ph m loaded page (n + 1) =
      (loadPage directory image ph m page).result >>= fun (record, m) =>
        match record with
        | none => .ok (false, loaded, m)
        | some record =>
            elfLoadPages directory image ph m (loaded ++ [record]) (page + pageSize) n := by
  rw [elfLoadPages, loadPage]
  rcases m.allocPage with ⟨phys, m⟩
  simp only []
  by_cases hphys : phys = 0
  · rw [if_pos hphys, if_pos hphys]
    rfl
  · rw [if_neg hphys, if_neg hphys]
    simp only [result_bind, result_silent]
    cases direct phys with
    | error e => rfl
    | ok frame =>
        simp only [Checked.ok_bind]
        cases pagingMap (m.zeroFrame frame) directory page phys ph.flags with
        | error e => rfl
        | ok m =>
            simp only [Checked.ok_bind]
            cases pagingTranslate m directory page with
            | error e => rfl
            | ok translated =>
                simp only [Checked.ok_bind]
                by_cases htranslated : translated ≠ phys
                · rw [if_pos htranslated, if_pos htranslated]
                  simp only [result_bind, result_silent]
                  cases pagingUnmap m directory page with
                  | error e => rfl
                  | ok m => rfl
                · rw [if_neg htranslated, if_neg htranslated]
                  simp only [result_bind, result_silent]
                  cases kmalloc m loadedPageSize with
                  | error e => rfl
                  | ok r =>
                      obtain ⟨block, m⟩ := r
                      simp only [Checked.ok_bind]
                      by_cases hblock : block = 0
                      · rw [if_pos hblock, if_pos hblock]
                        simp only [result_bind, result_silent]
                        cases pagingUnmap m directory page with
                        | error e => rfl
                        | ok m => rfl
                      · rw [if_neg hblock, if_neg hblock]
                        simp only [result_bind]
                        have hcopy : (copyToPage image ph page frame m).result = .ok { m with
                            frames := Function.update m.frames frame
                              (copyPage image ph page (m.frames frame)) } := by
                          unfold copyToPage
                          split
                          · rfl
                          · rfl
                        rw [hcopy]
                        rfl

end Load

/-! ## The loader returns -/

section Ends

open Checked

variable {m : Mm} {directory virt : Nat} {α : Type} {x : Except Stop α}

/-- `x` returns, or stops for a reason other than a loop without end. -/
abbrev Ends (x : Except Stop α) : Prop := Post (fun e => e ≠ Stop.hang) (fun _ => True) x

end Ends

end Elf

end Neox
