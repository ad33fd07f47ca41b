import Neox.Arch.TrapRuns

/-!
# Ring 3

* `kernel_entries`: the ways from a program into the kernel.
* `jump_usermode_enters`: `usermode_jump.asm` starts a program with the stack and the entry it is given.
* `syscall_returns`: a system call changes one register of the program.
* `exec_starts`: an `exec` that succeeds starts the new program instead.
-/

namespace Neox.Trap

open Bytes Processor StubInstruction

/-! ## Entries -/

/-- Whatever the registers and the memory are, a vector is taken exactly if the kernel has given it a gate,
by a program only with `int 0x80`; and then the processor is in Ring 0 at the stub of that vector, on the
kernel stack if it was not yet on one, with interrupts disabled. -/
theorem kernel_entries (stubs : Stubs) (esp0 : BitVec 32) (c : Processor) :
    (∀ v error, (c.deliver (kernelTables stubs esp0) v error false).isSome ↔ v < 48 ∨ v = 0x80) ∧
      (c.cpl ≠ 0 → ∀ v, (c.deliver (kernelTables stubs esp0) v none true).isSome ↔ v = 0x80) ∧
      ∀ v error software d, c.deliver (kernelTables stubs esp0) v error software = some d →
        d.eip = stubs.entry v ∧ d.cpl = 0 ∧ d.eflags &&& eflagsIf = 0 ∧
          d.gpr .esp = c.stackTop esp0 - BitVec.ofNat 32 (4 * (c.savedWords error).length) := by
  refine ⟨fun v error => ?_, fun hcpl v => ?_, fun v error software d h => ?_⟩
  · rw [deliver_spec]
    split <;> simp_all
  · rw [deliver_spec]
    split <;> simp_all
  · rw [deliver_spec] at h
    split at h
    · cases h
      have hclear : ~~~eflagsCleared &&& eflagsIf = 0#32 := by decide
      refine ⟨rfl, ?_, ?_, delivered_esp ..⟩
      · apply cpl_of_cs
        simp [delivered]
      · show c.eflags &&& ~~~eflagsCleared &&& eflagsIf = 0
        rw [BitVec.and_assoc, hclear, BitVec.and_zero]
        rfl
    · cases h

/-! ## Starting a program -/

/-- `jump_usermode` up to `iret`. On entry `user_esp` is at `[esp + 4]` and `user_entry` at `[esp + 8]`. -/
def jumpUsermode : List StubInstruction :=
  [load .eax 1, load .ecx 2,
    moveHalf .edx 0x23, moveSeg .ds .edx, moveSeg .es .edx, moveSeg .fs .edx, moveSeg .gs .edx,
    pushWord 0x23, pushGpr .eax, pushf, popGpr .eax, orWord .eax eflagsIf, pushGpr .eax, pushWord 0x1B,
    pushGpr .ecx]

namespace Processor

/-- The registers once the arguments and the data segments are loaded. -/
def userSegments (c : Processor) : Processor :=
  let d := (c.setGpr .eax (c.word 1)).setGpr .ecx (c.word 2)
  [Seg.ds, .es, .fs, .gs].foldl (fun c s => c.setSeg s 0x23)
    (d.setGpr .edx ((d.gpr .edx).extractLsb' 16 16 ++ (0x23 : BitVec 16)))

/-- The frame is built from the arguments in `eax` and `ecx`. -/
def pushFrame (c : Processor) : Processor :=
  let d := c.pushes [0x23, c.gpr .eax]
  let d := (d.push d.eflags).pop (.gpr .eax)
  let d := d.setGpr .eax (d.gpr .eax ||| eflagsIf)
  d.pushes [d.gpr .eax, 0x1B, d.gpr .ecx]

/-- The processor before `iret`. -/
def userFrame (c : Processor) : Processor := c.userSegments.pushFrame

variable {t : Tables} {c : Processor}

theorem word_setGpr (c : Processor) {r : Gpr} (hr : r ≠ .esp) (w : BitVec 32) (i : Nat) :
    (c.setGpr r w).word i = c.word i := by
  unfold Processor.word
  show BitVec.ofNat 32 (read32 c.mem (Function.update c.gpr r w .esp + _).toNat) = _
  rw [Function.update_of_ne hr.symm]

/-- The general registers with the arguments. -/
theorem userSegments_gpr (c : Processor) : c.userSegments.gpr .eax = c.word 1 ∧
    c.userSegments.gpr .ecx = c.word 2 ∧ c.userSegments.gpr .esp = c.gpr .esp := by
  have hgpr : c.userSegments.gpr = (((c.setGpr .eax (c.word 1)).setGpr .ecx (c.word 2)).setGpr .edx
    ((((c.setGpr .eax (c.word 1)).setGpr .ecx (c.word 2)).gpr .edx).extractLsb' 16 16 ++
      (0x23 : BitVec 16))).gpr := rfl
  rw [hgpr]
  refine ⟨?_, ?_, ?_⟩
  · rw [setGpr_of_ne _ _ (show Gpr.eax ≠ .edx from nofun), setGpr_of_ne _ _ (show Gpr.eax ≠ .ecx from nofun),
      setGpr_self]
  · rw [setGpr_of_ne _ _ (show Gpr.ecx ≠ .edx from nofun), setGpr_self]
  · rw [setGpr_of_ne _ _ (show Gpr.esp ≠ .edx from nofun), setGpr_of_ne _ _ (show Gpr.esp ≠ .ecx from nofun),
      setGpr_of_ne _ _ (show Gpr.esp ≠ .eax from nofun)]

theorem run_pushFrame (c : Processor) : c.run t [pushWord 0x23, pushGpr .eax, pushf, popGpr .eax,
    orWord .eax eflagsIf, pushGpr .eax, pushWord 0x1B, pushGpr .ecx] = some c.pushFrame := rfl

theorem run_jumpUsermode (hcpl : c.cpl = 0) (hfits : t.dataFits 0 0x23) :
    c.run t jumpUsermode = some c.userFrame := by
  obtain ⟨d, hd⟩ : ∃ d, (c.setGpr .eax (c.word 1)).setGpr .ecx (c.word 2) = d := ⟨_, rfl⟩
  have hcode : jumpUsermode = load .eax 1 :: load .ecx 2 :: moveHalf .edx 0x23 ::
      ([Seg.ds, .es, .fs, .gs].map (fun s => moveSeg s .edx) ++
        [pushWord 0x23, pushGpr .eax, pushf, popGpr .eax, orWord .eax eflagsIf, pushGpr .eax, pushWord 0x1B,
          pushGpr .ecx]) := rfl
  have hsegs := run_moveSegs (t := t)
    (c := d.setGpr .edx ((d.gpr .edx).extractLsb' 16 16 ++ (0x23 : BitVec 16))) .edx [.ds, .es, .fs, .gs]
    (w := 0x23) (by decide) (by rw [← hd]; exact hcpl) hfits
    (by rw [setGpr_self]; exact BitVec.setWidth_append_eq_right)
  have hfirst : c.execute t (load .eax 1) = some (c.setGpr .eax (c.word 1)) := rfl
  have hsecond : (c.setGpr .eax (c.word 1)).execute t (load .ecx 2) = some d := by
    rw [← hd, ← word_setGpr c (show Gpr.eax ≠ .esp from nofun) (c.word 1) 2]
    rfl
  have hthird : d.execute t (moveHalf .edx 0x23) =
      some (d.setGpr .edx ((d.gpr .edx).extractLsb' 16 16 ++ (0x23 : BitVec 16))) := rfl
  have hload : [Seg.ds, .es, .fs, .gs].foldl (fun c s => c.setSeg s 0x23)
      (d.setGpr .edx ((d.gpr .edx).extractLsb' 16 16 ++ (0x23 : BitVec 16))) = c.userSegments := by
    rw [← hd]
    rfl
  rw [hload] at hsegs
  rw [hcode, run_cons, hfirst, Option.bind_some, run_cons, hsecond, Option.bind_some, run_cons, hthird,
    Option.bind_some, run_append, hsegs, Option.bind_some]
  exact run_pushFrame c.userSegments

/-- The frame that `jump_usermode` builds. -/
theorem userFrame_spec (hroom : 20 ≤ (c.gpr .esp).toNat) :
    c.userFrame.At [c.word 2, 0x1B, c.eflags ||| eflagsIf, c.word 1, 0x23] ∧
      c.userFrame.seg = c.userSegments.seg ∧ c.userFrame.eflags = c.eflags ∧
      ∀ x, x < (c.gpr .esp).toNat - 20 ∨ (c.gpr .esp).toNat ≤ x → c.userFrame.mem x = c.mem x := by
  obtain ⟨heax, hecx, hesp⟩ := userSegments_gpr c
  obtain ⟨d, hd⟩ : ∃ d, c.userSegments.pushes [0x23, c.word 1] = d := ⟨_, rfl⟩
  have htwo : 4 * [(0x23 : BitVec 32), c.word 1].length ≤ (c.userSegments.gpr .esp).toNat := by
    rw [hesp]
    show 8 ≤ _
    omega
  have hdesp : (d.gpr .esp).toNat = (c.gpr .esp).toNat - 8 := by
    rw [← hd, pushes_esp htwo, hesp]
    rfl
  have hdat : d.At [c.word 1, 0x23] := by
    rw [← hd]
    exact (at_nil c.userSegments).pushes htwo
  have hdflags : d.eflags = c.eflags := by
    rw [← hd, pushes_eflags]
    rfl
  have hdmem : ∀ x, x < (c.gpr .esp).toNat - 8 ∨ (c.gpr .esp).toNat ≤ x → d.mem x = c.mem x := by
    intro x hx
    rw [← hd, pushes_mem htwo (by rw [hesp]; exact hx)]
    rfl
  -- `pushf` and `pop eax`: the flags are in `eax`, the stack is as before
  obtain ⟨hpop, hpopAt⟩ := (hdat.push (by omega) d.eflags).pop (show Target.gpr .eax ≠ .gpr .esp from nofun)
  obtain ⟨b, hb⟩ : ∃ b, (d.push d.eflags).pop (.gpr .eax) = b := ⟨_, rfl⟩
  rw [hb] at hpop hpopAt
  have hbesp : b.gpr .esp = d.gpr .esp := by
    rw [hpop, setGpr_self]
    show (d.setGpr .esp (d.gpr .esp - 4)).gpr .esp + 4 = _
    rw [setGpr_self, BitVec.sub_add_cancel]
  have hbeax : b.gpr .eax = c.eflags := by
    rw [hpop, setGpr_of_ne _ _ (show Gpr.eax ≠ .esp from nofun)]
    show ((d.push d.eflags).setGpr .eax d.eflags).gpr .eax = _
    rw [setGpr_self, hdflags]
  have hbecx : b.gpr .ecx = c.word 2 := by
    rw [hpop, setGpr_of_ne _ _ (show Gpr.ecx ≠ .esp from nofun)]
    show ((d.push d.eflags).setGpr .eax d.eflags).gpr .ecx = _
    rw [setGpr_of_ne _ _ (show Gpr.ecx ≠ .eax from nofun)]
    show (d.setGpr .esp (d.gpr .esp - 4)).gpr .ecx = _
    rw [setGpr_of_ne _ _ (show Gpr.ecx ≠ .esp from nofun), ← hd,
      pushes_gpr _ _ (show Gpr.ecx ≠ .esp from nofun), hecx]
  have hbmem : ∀ x, x < (c.gpr .esp).toNat - 12 ∨ (c.gpr .esp).toNat ≤ x → b.mem x = c.mem x := by
    intro x hx
    rw [hpop]
    show (d.push d.eflags).mem x = _
    rw [push_mem (by omega) (by omega)]
    exact hdmem x (by omega)
  obtain ⟨a, ha⟩ : ∃ a, b.setGpr .eax (b.gpr .eax ||| eflagsIf) = a := ⟨_, rfl⟩
  have haesp : a.gpr .esp = b.gpr .esp := by
    rw [← ha, setGpr_of_ne _ _ (show Gpr.esp ≠ .eax from nofun)]
  have haeax : a.gpr .eax = c.eflags ||| eflagsIf := by
    rw [← ha, setGpr_self, hbeax]
  have haecx : a.gpr .ecx = c.word 2 := by
    rw [← ha, setGpr_of_ne _ _ (show Gpr.ecx ≠ .eax from nofun), hbecx]
  have hamem : a.mem = b.mem := by
    rw [← ha]
    rfl
  have haat : a.At [c.word 1, 0x23] := hpopAt.congr haesp fun x _ => congrFun hamem x
  have hframe : c.userFrame = a.pushes [c.eflags ||| eflagsIf, 0x1B, c.word 2] := by
    unfold userFrame pushFrame
    rw [heax, hd, ← haeax, ← haecx, ← ha, ← hb]
  have hthree : 4 * [c.eflags ||| eflagsIf, (0x1B : BitVec 32), c.word 2].length ≤ (a.gpr .esp).toNat := by
    rw [haesp, hbesp, hdesp]
    show 12 ≤ _
    omega
  rw [hframe]
  refine ⟨haat.pushes hthree, ?_, ?_, ?_⟩
  · rw [pushes_seg, ← ha]
    show b.seg = _
    rw [hpop]
    show d.seg = _
    rw [← hd, pushes_seg]
  · rw [pushes_eflags, ← ha]
    show b.eflags = _
    rw [hpop]
    exact hdflags
  · intro x hx
    rw [pushes_mem hthree, hamem]
    · exact hbmem x (by omega)
    · rw [haesp, hbesp, hdesp]
      show x < _ - 12 ∨ _
      omega

/-- `jump_usermode`. -/
def jump (t : Tables) (c : Processor) : Option Processor := (c.run t jumpUsermode).bind (iret t)

end Processor

/-- Where `jump_usermode` leads. -/
theorem jump_usermode_spec (stubs : Stubs) (esp0 : BitVec 32) (c : Processor) (hcpl : c.cpl = 0)
    (hnt : c.eflags &&& eflagsNt = 0) (hvm : c.eflags &&& eflagsVm = 0) (hroom : 20 ≤ (c.gpr .esp).toNat) :
    ∃ d, c.jump (kernelTables stubs esp0) = some d ∧ Ring3 stubs d ∧ d.eip = c.word 2 ∧
      d.gpr .esp = c.word 1 ∧ d.eflags = c.eflags ||| eflagsIf ∧
      ∀ x, x < (c.gpr .esp).toNat - 20 ∨ (c.gpr .esp).toNat ≤ x → d.mem x = c.mem x := by
  have hfits := kernelTables_userDataFits stubs esp0
  have hcode := kernelTables_userCodeFits stubs esp0
  have hstack := kernelTables_userStackFits stubs esp0
  obtain ⟨hat, hseg, hflags, hmem⟩ := userFrame_spec hroom
  have hvm' : (c.eflags ||| eflagsIf) &&& eflagsVm = 0 := by
    rw [BitVec.and_or_distrib_right, hvm]
    decide
  have hdata : ∀ s ∈ [Seg.ds, .es, .fs, .gs], c.userFrame.seg s = 0x23 := by
    intro s hs
    rw [hseg]
    simp only [List.mem_cons, List.not_mem_nil, or_false] at hs
    obtain rfl | rfl | rfl | rfl := hs <;> rfl
  have hcpl' : c.userFrame.cpl = 0 := by
    unfold Processor.cpl
    rw [hseg]
    exact hcpl
  have hjump := iret_outer (t := kernelTables stubs esp0) hat hcpl' (by rw [hflags]; exact hnt) hvm'
    (by decide) hcode hstack fun s hs => (hdata s hs).symm ▸ hfits
  have hrun := run_jumpUsermode hcpl (dataFits_mono (Nat.zero_le 3) hfits)
  unfold jump
  rw [hrun, Option.bind_some]
  obtain ⟨d, hd⟩ : ∃ d, { ((c.userFrame.setGpr .esp (c.word 1)).setSeg .cs ((0x1B : BitVec 32).setWidth 16)).setSeg
    .ss ((0x23 : BitVec 32).setWidth 16) with eip := c.word 2, eflags := c.eflags ||| eflagsIf } = d := ⟨_, rfl⟩
  rw [hd] at hjump
  have hdseg : d.seg = (((c.userFrame.setGpr .esp (c.word 1)).setSeg .cs ((0x1B : BitVec 32).setWidth 16)).setSeg
      .ss ((0x23 : BitVec 32).setWidth 16)).seg := by
    rw [← hd]
  have hdmem : d.mem = (((c.userFrame.setGpr .esp (c.word 1)).setSeg .cs ((0x1B : BitVec 32).setWidth 16)).setSeg
      .ss ((0x23 : BitVec 32).setWidth 16)).mem := by
    rw [← hd]
  rw [setSeg_mem, setSeg_mem, setGpr_mem] at hdmem
  have hcs : d.seg .cs = 0x1B := by
    rw [hdseg, setSeg_of_ne _ _ (show Seg.cs ≠ .ss from nofun), setSeg_self]
    decide
  have hss : d.seg .ss = 0x23 := by
    rw [hdseg, setSeg_self]
    decide
  have hkeep : ∀ s ∈ [Seg.ds, .es, .fs, .gs], d.seg s = 0x23 := by
    intro s hs
    rw [← hd, ← hdata s hs]
    simp only [List.mem_cons, List.not_mem_nil, or_false] at hs
    obtain rfl | rfl | rfl | rfl := hs <;> rfl
  have hlevel : d.cpl = 3 := by
    unfold Processor.cpl
    rw [hcs]
    decide
  refine ⟨d, hjump, ⟨hlevel, ?_⟩, ?_, ?_, ?_, ?_⟩
  · refine Runs.retable (show d.Runs (kernelTables stubs esp0) from ?_) 0
    constructor
    case code => rwa [hlevel, hcs]
    case stack => exact fun _ => by rwa [hlevel, hss]
    case data =>
      intro s hs
      rw [hlevel, hkeep s hs]
      exact hfits
    case flags =>
      rw [← hd]
      exact hvm'
  · rw [← hd]
  · rw [← hd]
    exact setGpr_self c.userFrame .esp (c.word 1)
  · rw [← hd]
  · intro x hx
    rw [hdmem]
    exact hmem x hx

/-- `jump_usermode` never faults and starts the program in Ring 3: at the entry and on the stack that were
passed, with the segments of Ring 3 and interrupts enabled. What is on the kernel stack stays. -/
theorem jump_usermode_enters (stubs : Stubs) (esp0 : BitVec 32) (c : Processor) (hcpl : c.cpl = 0)
    (hnt : c.eflags &&& eflagsNt = 0) (hvm : c.eflags &&& eflagsVm = 0) (hroom : 20 ≤ (c.gpr .esp).toNat) :
    ∃ d, c.jump (kernelTables stubs esp0) = some d ∧ Ring3 stubs d ∧ d.eip = c.word 2 ∧
      d.gpr .esp = c.word 1 ∧ d.eflags = c.eflags ||| eflagsIf ∧
      ∀ x, x < (c.gpr .esp).toNat - 20 ∨ (c.gpr .esp).toNat ≤ x → d.mem x = c.mem x :=
  jump_usermode_spec stubs esp0 c hcpl hnt hvm hroom

/-- A thread of the kernel that has been told to start a program at 0x08048000. -/
def starting : Processor where
  gpr _ := 0xE0003000
  seg
    | .cs => 0x08
    | _ => 0x10
  eip := 0xC0100000
  eflags := 0x2
  mem := write32 (write32 zero 0xE0003004 0xBF000000) 0xE0003008 0x08048000

theorem jump_usermode_enters_program :
    ∃ d, starting.jump (kernelTables someStubs 0xE0004000) = some d ∧ Ring3 someStubs d ∧
      d.eip = 0x08048000 ∧ d.gpr .esp = 0xBF000000 := by
  have hentry : starting.word 2 = 0x08048000 := by decide
  have hesp : starting.word 1 = 0xBF000000 := by decide
  obtain ⟨d, hjump, hring, heip, hsp, -⟩ := jump_usermode_enters someStubs 0xE0004000 starting (by decide)
    (by decide) (by decide) (by decide)
  exact ⟨d, hjump, hring, heip.trans hentry, hsp.trans hesp⟩

/-! ## System calls -/

section Selectors

variable {stubs : Stubs} {esp0 : BitVec 32} {s : BitVec 16}

theorem kernelTables_access (stubs : Stubs) (esp0 : BitVec 32) {i : Nat} (hi : i < 6) :
    some ((kernelTables stubs esp0).gdt i).access =
      [(0x00 : BitVec 8), 0x9A, 0x92, 0xFA, 0xF2, 0x89][i]? := by
  have hcases : i = 0 ∨ i = 1 ∨ i = 2 ∨ i = 3 ∨ i = 4 ∨ i = 5 := by omega
  obtain rfl | rfl | rfl | rfl | rfl | rfl := hcases <;> rfl

/-- The stack of Ring 3 has one selector only. -/
theorem ring3_stack (h : (kernelTables stubs esp0).stackFits 3 s) : s = 0x23 := by
  unfold Tables.stackFits Tables.descriptor at h
  split at h
  · next hs =>
    obtain ⟨hlocal, hindex⟩ := hs
    have haccess := kernelTables_access stubs esp0 hindex
    simp only [Option.any_some, Bool.and_eq_true, decide_eq_true_eq] at h
    obtain ⟨⟨⟨⟨⟨hpresent, hsegment⟩, hcode⟩, -⟩, hrpl⟩, hdpl⟩ := h
    unfold rpl at hrpl
    unfold GdtEntry.present at hpresent
    unfold GdtEntry.segment at hsegment
    unfold GdtEntry.code at hcode
    unfold GdtEntry.dpl at hdpl
    have hcases : s.toNat / 8 = 0 ∨ s.toNat / 8 = 1 ∨ s.toNat / 8 = 2 ∨ s.toNat / 8 = 3 ∨
        s.toNat / 8 = 4 ∨ s.toNat / 8 = 5 := by
      have : s.toNat / 8 < 6 := hindex
      omega
    obtain hi | hi | hi | hi | hi | hi := hcases <;> rw [hi] at haccess hpresent hsegment hcode hdpl <;>
      rw [Option.some.inj haccess] at hpresent hsegment hcode hdpl
    · exact absurd hpresent (by decide)
    · exact absurd hdpl (by decide)
    · exact absurd hdpl (by decide)
    · exact absurd hcode (by decide)
    · apply BitVec.eq_of_toNat_eq
      show s.toNat = 35
      omega
    · exact absurd hsegment (by decide)
  · cases h

end Selectors

namespace Processor

variable {t : Tables} {c d d' : Processor} {e : Event} {esp0 : BitVec 32} {f : TrapFrame}

/-- A handler that has stored words in its frame goes back to the frame with these words. -/
theorem Entered.leave_stores (h : c.Entered esp0 e d) (hreturns : Returns d d') (ws : List (Nat × BitVec 32))
    (hws : ∀ w ∈ ws, w.1 < (c.frame esp0 e).words.length)
    (hwords : ws.foldl (fun l w => l.set w.1 w.2) (c.frame esp0 e).words = f.words)
    (hkept : ∀ x, (d.gpr .esp).toNat + 4 ≤ x → x < (c.stackTop esp0).toNat →
      d'.mem x = stores d.mem ((d.gpr .esp).toNat + 4) ws x)
    (hfits : f.Fits t) : d'.leave t = some (f.resume d') := by
  have hcpl : d'.cpl = 0 := by
    unfold Processor.cpl
    rw [hreturns.cs]
    exact h.cpl
  have hstored := h.frame.stacked.2.stores hws
  have hroom := h.frame.room
  have hlen : f.words.length = (c.frame esp0 e).words.length := by
    rw [← hwords]
    clear hwords hws hkept hstored
    generalize (c.frame esp0 e).words = l
    induction ws generalizing l with
    | nil => rfl
    | cons w ws ih =>
        rw [List.foldl_cons, ih, List.length_set]
  rw [hwords] at hstored
  rw [List.length_cons] at hroom
  have hframe : d'.At (d'.word 0 :: f.words) := by
    apply at_word
    · rw [hreturns.esp]
      apply hstored.congr
      intro x hlo hhi
      have hesp := h.esp
      exact hkept x hlo (by omega)
    · rw [hreturns.esp, hlen]
      exact hroom
  exact leave_spec hframe hcpl hreturns.nested hfits

end Processor

/-- The frame of a system call that gives a value back. -/
def TrapFrame.withEax (f : TrapFrame) (w : BitVec 32) : TrapFrame :=
  { f with regs := { f.regs with eax := w } }

/-- The frame of an `exec` that succeeds. -/
def TrapFrame.withProgram (f : TrapFrame) (entry esp : BitVec 32) : TrapFrame where
  regs := { f.regs with eip := entry, eax := 0 }
  outer := f.outer.map fun o => (esp, o.2)

theorem TrapFrame.resume_withEax (f : TrapFrame) (d : Processor) (w : BitVec 32) :
    (f.withEax w).resume d = (f.resume d).setGpr .eax w := by
  apply Processor.ext
  case gpr =>
    funext r
    cases r <;> rfl
  all_goals rfl

/-- The new program is gone to instead of the old one. -/
theorem TrapFrame.resume_withProgram {f : TrapFrame} {o : BitVec 32 × BitVec 32} (ho : f.outer = some o)
    (d : Processor) (entry esp : BitVec 32) : (f.withProgram entry esp).resume d =
      { ((f.resume d).setGpr .eax 0).setGpr .esp esp with eip := entry } := by
  have ho' : (f.withProgram entry esp).outer = some (esp, o.2) := congrArg (Option.map _) ho
  apply Processor.ext
  case gpr =>
    funext r
    cases r with
    | esp =>
        show ((f.withProgram entry esp).outer.elim _ Prod.fst : BitVec 32) = _
        rw [ho']
        rfl
    | _ => rfl
  case seg =>
    funext s
    cases s with
    | ss =>
        show ((f.withProgram entry esp).outer.elim _ fun o => o.2.setWidth 16 : BitVec 16) =
          f.outer.elim (d.seg .ss) fun o => o.2.setWidth 16
        rw [ho, ho']
        rfl
    | _ => rfl
  all_goals rfl

section Syscalls

variable {stubs : Stubs} {c : Processor} (esp0 : BitVec 32)

theorem Ring3.stackTop (hring : Ring3 stubs c) : c.stackTop esp0 = esp0 :=
  if_neg hring.cpl_ne

theorem Ring3.frame_length (hring : Ring3 stubs c) (e : Event) : (c.frame esp0 e).words.length = 19 := by
  rw [Processor.frame_length, if_neg hring.cpl_ne]

theorem Ring3.outer (hring : Ring3 stubs c) (e : Event) :
    (c.frame esp0 e).outer = some (c.gpr .esp, 0x23) := by
  have hss : c.seg .ss = 0x23 := by
    have hstack := hring.runs.stack
    rw [hring.cpl] at hstack
    exact ring3_stack (hstack (by decide))
  show c.outside = _
  unfold outside
  rw [if_neg hring.cpl_ne, hss]
  rfl

/-- A system call whose handler stores its result in `regs->eax` gives the program this result in `eax` and
leaves it every other register, its segments and flags, and the place it goes on. -/
theorem syscall_returns (stubs : Stubs) (c : Processor) (hring : Ring3 stubs c) (hroom : 80 ≤ esp0.toNat)
    (w : BitVec 32) :
    ∃ d, c.enter stubs (kernelTables stubs esp0) (.software 0x80) = some d ∧
      c.Entered esp0 (.software 0x80) d ∧
      ∀ (d' : Processor) (esp0' : BitVec 32), Processor.Returns d d' →
        (∀ x, (d.gpr .esp).toNat + 4 ≤ x → x < esp0.toNat →
          d'.mem x = stores d.mem ((d.gpr .esp).toNat + 4) [(11, w)] x) →
        d'.leave (kernelTables stubs esp0') = some { c.setGpr .eax w with mem := d'.mem } := by
  have htop := hring.stackTop esp0
  obtain ⟨d, henter, hentered⟩ := enter_spec stubs esp0 c (e := .software 0x80) rfl (by rw [htop]; exact hroom)
  refine ⟨d, henter, hentered, ?_⟩
  intro d' esp0' hreturns hkept
  have hfits := (hring.runs.retable esp0').frame esp0 (.software 0x80)
  have hlen := hring.frame_length esp0 (.software 0x80)
  have hleave := hentered.leave_stores (f := (c.frame esp0 (.software 0x80)).withEax w) hreturns
    [(11, w)] (by rw [hlen]; intro v hv; rw [List.mem_singleton.mp hv]; show 11 < 19; decide) rfl
    (by rw [htop]; exact hkept)
    (t := kernelTables stubs esp0') ⟨hfits.code, hfits.flags, hfits.data, hfits.inner, hfits.outer⟩
  rw [hleave, TrapFrame.resume_withEax, hentered.resume hreturns.esp hreturns.ss]
  rfl

/-- A handler that stores 7. -/
theorem syscall_returns_seven :
    ∃ d, counting.enter someStubs (kernelTables someStubs 0xE0004000) (.software 0x80) = some d ∧
      ∃ m, Processor.leave (kernelTables someStubs 0xE0004000) { d with mem := m } =
        some { counting.setGpr .eax 7 with mem := m } := by
  obtain ⟨d, henter, hentered, hback⟩ := syscall_returns 0xE0004000 someStubs counting
    ⟨by decide, counting_runs someStubs 0⟩ (by decide) 7
  exact ⟨d, henter, stores d.mem ((d.gpr .esp).toNat + 4) [(11, 7)],
    hback { d with mem := _ } 0xE0004000 ⟨rfl, rfl, rfl, hentered.nested⟩ fun _ _ _ => rfl⟩

/-- What `sys_exec` and `syscall_handler` store on success: the stack slot, `regs->eip`, the slot again, and
`regs->eax` twice. -/
def execStores (entry esp : BitVec 32) : List (Nat × BitVec 32) :=
  [(17, esp), (14, entry), (17, esp), (11, 0), (11, 0)]

theorem execStores_lt (entry esp : BitVec 32) : ∀ w ∈ execStores entry esp, w.1 < 19 := by
  intro w hw
  simp only [execStores, List.mem_cons, List.not_mem_nil, or_false] at hw
  obtain rfl | rfl | rfl | rfl | rfl := hw <;> exact Nat.le_of_ble_eq_true rfl

theorem execStores_words {f : TrapFrame} {o : BitVec 32 × BitVec 32} (ho : f.outer = some o)
    (entry esp : BitVec 32) :
    (execStores entry esp).foldl (fun l w => l.set w.1 w.2) f.words = (f.withProgram entry esp).words := by
  obtain ⟨regs, outer⟩ := f
  cases ho
  rfl

/-- The assertion of `sys_exec` on the user stack segment holds for every program; and a system call whose
handler stores what a successful `exec` stores starts the new program in Ring 3, at its entry and on its own
stack. -/
theorem exec_starts (stubs : Stubs) (c : Processor) (hring : Ring3 stubs c) (hroom : 80 ≤ esp0.toNat)
    (entry esp : BitVec 32) :
    ∃ d, c.enter stubs (kernelTables stubs esp0) (.software 0x80) = some d ∧
      d.word (1 + 18) = 0x23 ∧
      ∀ (d' : Processor) (esp0' : BitVec 32), Processor.Returns d d' →
        (∀ x, (d.gpr .esp).toNat + 4 ≤ x → x < esp0.toNat →
          d'.mem x = stores d.mem ((d.gpr .esp).toNat + 4) (execStores entry esp) x) →
        ∃ c', d'.leave (kernelTables stubs esp0') = some c' ∧ Ring3 stubs c' ∧ c'.eip = entry ∧
          c'.gpr .esp = esp ∧ c'.gpr .eax = 0 ∧ c'.seg = c.seg ∧ c'.eflags = c.eflags := by
  have htop := hring.stackTop esp0
  have houter := hring.outer esp0 (.software 0x80)
  obtain ⟨d, henter, hentered⟩ := enter_spec stubs esp0 c (e := .software 0x80) rfl (by rw [htop]; exact hroom)
  have hlen := hring.frame_length esp0 (.software 0x80)
  have hwords : (c.frame esp0 (.software 0x80)).words[18]? = some 0x23 := by
    have hframe : (c.frame esp0 (.software 0x80)).words =
        (c.frame esp0 (.software 0x80)).regs.words ++ [c.gpr .esp, 0x23] := by
      unfold TrapFrame.words
      rw [houter]
      rfl
    rw [hframe]
    rfl
  refine ⟨d, henter, hentered.frame.words hwords, ?_⟩
  intro d' esp0' hreturns hkept
  have hfits := (hring.runs.retable esp0').frame esp0 (.software 0x80)
  have hfits' : ((c.frame esp0 (.software 0x80)).withProgram entry esp).Fits (kernelTables stubs esp0') := by
    refine ⟨hfits.code, hfits.flags, hfits.data, fun hlevel => ?_, fun hlevel => ?_⟩
    · rw [hfits.inner hlevel] at houter
      cases houter
    · obtain ⟨o, ho, hstack⟩ := hfits.outer hlevel
      exact ⟨(esp, o.2), congrArg (Option.map _) ho, hstack⟩
  have hleave := hentered.leave_stores hreturns _ (by rw [hlen]; exact execStores_lt entry esp)
    (execStores_words houter entry esp) (by rw [htop]; exact hkept) hfits'
  rw [TrapFrame.resume_withProgram houter, hentered.resume hreturns.esp hreturns.ss] at hleave
  refine ⟨_, hleave, ⟨hring.cpl, hring.runs.code, hring.runs.stack, hring.runs.data, hring.runs.flags⟩, rfl,
    ?_, ?_, rfl, rfl⟩
  · exact setGpr_self (Processor.setGpr { c with mem := d'.mem } .eax 0) .esp esp
  · show ((Processor.setGpr { c with mem := d'.mem } .eax 0).setGpr .esp esp).gpr .eax = 0
    rw [setGpr_of_ne _ _ (show Gpr.eax ≠ .esp from nofun), setGpr_self]

/-- A program at 0x08049000 takes over. -/
theorem exec_starts_program :
    ∃ d c', counting.enter someStubs (kernelTables someStubs 0xE0004000) (.software 0x80) = some d ∧
      Processor.leave (kernelTables someStubs 0xE0004000)
        { d with mem := stores d.mem ((d.gpr .esp).toNat + 4) (execStores 0x08049000 0xBF000000) } = some c' ∧
      c'.eip = 0x08049000 ∧ c'.gpr .esp = 0xBF000000 := by
  obtain ⟨d, henter, -, hback⟩ := exec_starts 0xE0004000 someStubs counting
    ⟨by decide, counting_runs someStubs 0⟩ (by decide) 0x08049000 0xBF000000
  have hnested := (entered_of_enter henter (e := .software 0x80) rfl (by decide)).nested
  obtain ⟨c', hleave, -, heip, hesp, -⟩ := hback
    { d with mem := stores d.mem ((d.gpr .esp).toNat + 4) (execStores 0x08049000 0xBF000000) } 0xE0004000
    ⟨rfl, rfl, rfl, hnested⟩ fun _ _ _ => rfl
  exact ⟨d, c', henter, hleave, heip, hesp⟩

end Syscalls

end Neox.Trap
