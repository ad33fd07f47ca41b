import Neox.Mm.Heap

/-!
# The ELF loader

`kernel/elf_loader.c`. An image is its bytes and its size; headers are read at their byte offsets.
-/

namespace Neox

open Bytes

/-- `image` and `size`. -/
structure ElfImage where
  bytes : Block
  size : Nat

/-! ## Headers -/

/-- `sizeof(struct elf32_header)`. -/
abbrev elf32HeaderSize : Nat := 52

/-- `sizeof(struct elf32_program_header)`. -/
abbrev elf32ProgramHeaderSize : Nat := 32

/-- `PT_LOAD`. -/
abbrev ptLoad : Nat := 1

namespace ElfImage

def eType (image : ElfImage) : Nat := read16 image.bytes 16
def eMachine (image : ElfImage) : Nat := read16 image.bytes 18
def eEntry (image : ElfImage) : Nat := read32 image.bytes 24
def ePhoff (image : ElfImage) : Nat := read32 image.bytes 28
def ePhentsize (image : ElfImage) : Nat := read16 image.bytes 42
def ePhnum (image : ElfImage) : Nat := read16 image.bytes 44

end ElfImage

/-- `struct elf32_program_header`, less the fields the loader does not read. -/
structure ProgramHeader where
  pType : Nat
  pOffset : Nat
  pVaddr : Nat
  pFilesz : Nat
  pMemsz : Nat
  pFlags : Nat
  deriving DecidableEq, Repr

/-- Program header `i` of an image. -/
def ElfImage.header (image : ElfImage) (i : Nat) : ProgramHeader :=
  let offset := image.ePhoff + i * image.ePhentsize
  { pType := read32 image.bytes offset
    pOffset := read32 image.bytes (offset + 4)
    pVaddr := read32 image.bytes (offset + 8)
    pFilesz := read32 image.bytes (offset + 16)
    pMemsz := read32 image.bytes (offset + 20)
    pFlags := read32 image.bytes (offset + 24) }

/-- `elf_validate`. -/
def elfValidate (image : ElfImage) : Bool :=
  if image.size < elf32HeaderSize then false
  else if image.bytes 0 ≠ 0x7F ∨ image.bytes 1 ≠ 0x45 ∨ image.bytes 2 ≠ 0x4C ∨
      image.bytes 3 ≠ 0x46 then false
  else if image.bytes 4 ≠ 1 then false
  else if image.bytes 5 ≠ 1 then false
  else if image.eType ≠ 2 then false
  else if image.eMachine ≠ 3 then false
  else if image.ePhentsize ≠ elf32ProgramHeaderSize then false
  else if image.ePhnum = 0 then false
  else if image.size < image.ePhoff then false
  else if image.size - image.ePhoff < image.ePhnum * elf32ProgramHeaderSize then false
  else true

namespace ProgramHeader

/-- The range checks at the head of the segment loop. -/
def valid (ph : ProgramHeader) (size : Nat) : Bool :=
  if ph.pMemsz < ph.pFilesz then false
  else if size < ph.pOffset ∨ size - ph.pOffset < ph.pFilesz then false
  else if (ph.pVaddr + ph.pMemsz) % wordModulus < ph.pVaddr then false
  else true

/-- `segment_start`. -/
def segmentStart (ph : ProgramHeader) : Nat := frameMask ph.pVaddr

/-- `segment_end`. -/
def segmentEnd (ph : ProgramHeader) : Nat :=
  frameMask ((ph.pVaddr + ph.pMemsz + pageSize - 1) % wordModulus)

/-- The number of iterations of the page loop. -/
def pages (ph : ProgramHeader) : Nat := (ph.segmentEnd - ph.segmentStart) / pageSize

/-- `flags`. -/
def flags (ph : ProgramHeader) : Nat :=
  if ph.pFlags / 2 % 2 = 1 then pagePresent ||| pageUser ||| pageWritable
  else pagePresent ||| pageUser

/-- `page_offset`. -/
def pageOffset (ph : ProgramHeader) (page : Nat) : Nat :=
  if page = ph.segmentStart then ph.pVaddr - ph.segmentStart else 0

/-- `copy_offset`. -/
def copyOffset (ph : ProgramHeader) (page : Nat) : Nat :=
  page - ph.segmentStart + ph.pageOffset page

/-- `copy_size`. -/
def copySize (ph : ProgramHeader) (page : Nat) : Nat :=
  if ph.pFilesz ≤ ph.copyOffset page then 0
  else min (ph.pFilesz - ph.copyOffset page) (pageSize - ph.pageOffset page)

end ProgramHeader

/-! ## Loading -/

/-- `struct elf_loaded_page`: the page and the heap block of the record. -/
structure LoadedPage where
  virt : Nat
  block : Nat
  deriving DecidableEq, Repr

/-- `sizeof(struct elf_loaded_page)`. -/
abbrev loadedPageSize : Nat := 12

/-- The frame of a loaded page after `memcpy` has copied the part of the file that belongs in it. -/
def copyPage (image : ElfImage) (ph : ProgramHeader) (page : Nat) (b : Block) : Block :=
  copy b (ph.pageOffset page) (ph.copySize page) fun k =>
    image.bytes (ph.pOffset + ph.copyOffset page + k)

/-- The page loop: `page` is next and `n` pages are left. `false` is `goto fail`. -/
def elfLoadPages (directory : Nat) (image : ElfImage) (ph : ProgramHeader) (m : Mm)
    (loaded : List LoadedPage) (page : Nat) : Nat → Except Stop (Bool × List LoadedPage × Mm)
  | 0 => return (true, loaded, m)
  | n + 1 =>
      let (phys, m) := m.allocPage
      if phys = 0 then return (false, loaded, m)
      else do
        let frame ← direct phys
        let m ← pagingMap (m.zeroFrame frame) directory page phys ph.flags
        let translated ← pagingTranslate m directory page
        if translated ≠ phys then
          let m ← pagingUnmap m directory page
          return (false, loaded, m.freePage phys)
        else
          let (block, m) ← kmalloc m loadedPageSize
          if block = 0 then
            let m ← pagingUnmap m directory page
            return (false, loaded, m.freePage phys)
          else
            let m := { m with
              frames := Function.update m.frames frame (copyPage image ph page (m.frames frame)) }
            elfLoadPages directory image ph m (loaded ++ [⟨page, block⟩]) (page + pageSize) n

/-- The segment loop over the remaining program headers. -/
def elfLoadSegments (directory : Nat) (image : ElfImage) (m : Mm) (loaded : List LoadedPage) :
    List ProgramHeader → Except Stop (Bool × List LoadedPage × Mm)
  | [] => return (true, loaded, m)
  | ph :: rest =>
      if ph.pType ≠ ptLoad then elfLoadSegments directory image m loaded rest
      else if !ph.valid image.size then return (false, loaded, m)
      else do
        let (ok, loaded, m) ← elfLoadPages directory image ph m loaded ph.segmentStart ph.pages
        if ok then elfLoadSegments directory image m loaded rest else return (false, loaded, m)

/-- One iteration of the loop at `fail:`. -/
def elfUnloadPage (directory : Nat) (m : Mm) (loaded : LoadedPage) : Except Stop Mm := do
  let phys ← pagingTranslate m directory loaded.virt
  let m ← pagingUnmap m directory loaded.virt
  kfree (if phys ≠ 0 then m.freePage phys else m) loaded.block

/-- The program headers of an image, in order. -/
def ElfImage.headers (image : ElfImage) : List ProgramHeader :=
  (List.range image.ePhnum).map image.header

/-- `elf_load`: the entry point, or `none` where it returns 0. -/
def elfLoad (m : Mm) (directory : Nat) (image : ElfImage) : Except Stop (Option Nat × Mm) :=
  if !elfValidate image then return (none, m)
  else do
    let (ok, loaded, m) ← elfLoadSegments directory image m [] image.headers
    if ok then return (some image.eEntry, m)
    else do
      let m ← loaded.reverse.foldlM (elfUnloadPage directory) m
      return (none, m)

/-! ## One iteration -/

section Iteration

open Checked

variable {m m' : Mm} {d : Nat} {image : ElfImage} {ph : ProgramHeader} {ok : Bool}
  {loaded loaded' : List LoadedPage}

/-- One iteration of the page loop. It fails without a frame, without a page table or without a
record. -/
theorem elfLoadPages_cases {n page : Nat}
    (h : elfLoadPages d image ph m loaded page (n + 1) = .ok (ok, loaded', m')) :
    ok = false ∧ loaded' = loaded ∧ m.allocPage = (0, m') ∨
    ∃ phys m₁ frame m₂ translated, m.allocPage = (phys, m₁) ∧ phys ≠ 0 ∧ direct phys = .ok frame ∧
      pagingMap (m₁.zeroFrame frame) d page phys ph.flags = .ok m₂ ∧
      pagingTranslate m₂ d page = .ok translated ∧
      (translated ≠ phys ∧ ok = false ∧ loaded' = loaded ∧
        (∃ m₃, pagingUnmap m₂ d page = .ok m₃ ∧ m' = m₃.freePage phys) ∨
      translated = phys ∧ ∃ block m₃, kmalloc m₂ loadedPageSize = .ok (block, m₃) ∧
        (block = 0 ∧ ok = false ∧ loaded' = loaded ∧
          (∃ m₄, pagingUnmap m₃ d page = .ok m₄ ∧ m' = m₄.freePage phys) ∨
        block ≠ 0 ∧ elfLoadPages d image ph { m₃ with
            frames := Function.update m₃.frames frame (copyPage image ph page (m₃.frames frame)) }
          (loaded ++ [⟨page, block⟩]) (page + pageSize) n = .ok (ok, loaded', m'))) := by
  unfold elfLoadPages at h
  rcases halloc : m.allocPage with ⟨phys, m₁⟩
  rw [halloc] at h
  simp only [] at h
  split at h
  · next hphys =>
    cases pure_eq_ok.mp h
    exact .inl ⟨rfl, rfl, by rw [hphys]⟩
  · next hphys =>
    obtain ⟨frame, hframe, h⟩ := bind_eq_ok.mp h
    obtain ⟨m₂, hmap, h⟩ := bind_eq_ok.mp h
    obtain ⟨translated, htranslate, h⟩ := bind_eq_ok.mp h
    refine .inr ⟨phys, m₁, frame, m₂, translated, rfl, hphys, hframe, hmap, htranslate, ?_⟩
    split at h
    · next hne =>
      obtain ⟨m₃, hunmap, h⟩ := bind_eq_ok.mp h
      cases pure_eq_ok.mp h
      exact .inl ⟨hne, rfl, rfl, m₃, hunmap, rfl⟩
    · next hsame =>
      rw [not_not] at hsame
      obtain ⟨⟨block, m₃⟩, hblock, h⟩ := bind_eq_ok.mp h
      refine .inr ⟨hsame, block, m₃, hblock, ?_⟩
      simp only [] at h
      split at h
      · next hzero =>
        obtain ⟨m₄, hunmap, h⟩ := bind_eq_ok.mp h
        cases pure_eq_ok.mp h
        exact .inl ⟨hzero, rfl, rfl, m₄, hunmap, rfl⟩
      · next hne => exact .inr ⟨hne, h⟩

/-- One iteration of the segment loop. -/
theorem elfLoadSegments_cases {rest : List ProgramHeader}
    (h : elfLoadSegments d image m loaded (ph :: rest) = .ok (ok, loaded', m')) :
    ph.pType ≠ ptLoad ∧ elfLoadSegments d image m loaded rest = .ok (ok, loaded', m') ∨
    ph.pType = ptLoad ∧ (ph.valid image.size = false ∧ ok = false ∧ loaded' = loaded ∧ m' = m ∨
      ph.valid image.size = true ∧ ∃ loaded₁ m₁,
        (elfLoadPages d image ph m loaded ph.segmentStart ph.pages = .ok (true, loaded₁, m₁) ∧
          elfLoadSegments d image m₁ loaded₁ rest = .ok (ok, loaded', m') ∨
        ok = false ∧ elfLoadPages d image ph m loaded ph.segmentStart ph.pages =
          .ok (false, loaded', m'))) := by
  unfold elfLoadSegments at h
  split at h
  · next htype => exact .inl ⟨htype, h⟩
  · next htype =>
    rw [not_not] at htype
    refine .inr ⟨htype, ?_⟩
    cases hvalid : ph.valid image.size with
    | false =>
        rw [hvalid] at h
        cases pure_eq_ok.mp h
        exact .inl ⟨rfl, rfl, rfl, rfl⟩
    | true =>
        rw [hvalid] at h
        obtain ⟨⟨continues, loaded₁, m₁⟩, hpages, h⟩ := bind_eq_ok.mp h
        cases continues with
        | true => exact .inr ⟨rfl, loaded₁, m₁, .inl ⟨hpages, h⟩⟩
        | false =>
            cases pure_eq_ok.mp h
            exact .inr ⟨rfl, loaded, m, .inr ⟨rfl, hpages⟩⟩

end Iteration

end Neox
