import Neox.Drivers.Vga
import Neox.Klib.Printf
import Neox.Lib.Run

/-!
# The console and those who write to it

`drivers/keyboard.c`, `drivers/keymap.c`, the key maps, `console/console.c`, and the loop of `sys_write`. Kernel
threads print with `printf`, one character after the other; between two characters another thread may run, or
the keyboard may interrupt. A system call has the processor to itself, and so has an interrupt.

* `console_merges`: what the screen shows is a merge of what each of them has printed.
-/

namespace Neox

open Traced Transition

/-- A character of a scan code; 0 for none. -/
abbrev Keymap := UInt8 → UInt8

/-- A table with zeros where it has no initialiser, and the bounds check before it is indexed. -/
def tableKeymap (table : List (Nat × UInt8)) : Keymap := fun scancode =>
  if 128 ≤ scancode.toNat then 0 else (table.lookup scancode.toNat).getD 0

/-- The initialisers of `azerty.c`. -/
def azertyTable : List (Nat × UInt8) :=
  [(0x01, 0x1B), (0x02, 0x26), (0x03, 0x65), (0x04, 0x22), (0x05, 0x27), (0x06, 0x28), (0x07, 0x2D),
   (0x08, 0x65), (0x09, 0x5F), (0x0A, 0x63), (0x0B, 0x61), (0x0C, 0x29), (0x0D, 0x3D), (0x0E, 0x08),
   (0x0F, 0x09), (0x10, 0x61), (0x11, 0x7A), (0x12, 0x65), (0x13, 0x72), (0x14, 0x74), (0x15, 0x79),
   (0x16, 0x75), (0x17, 0x69), (0x18, 0x6F), (0x19, 0x70), (0x1C, 0x0A), (0x1E, 0x71), (0x1F, 0x73),
   (0x20, 0x64), (0x21, 0x66), (0x22, 0x67), (0x23, 0x68), (0x24, 0x6A), (0x25, 0x6B), (0x26, 0x6C),
   (0x2C, 0x77), (0x2D, 0x78), (0x2E, 0x63), (0x2F, 0x76), (0x30, 0x62), (0x31, 0x6E), (0x32, 0x2C),
   (0x33, 0x3B), (0x34, 0x3A), (0x35, 0x21), (0x39, 0x20)]

/-- `keymap_azerty`. -/
def keymapAzerty : Keymap := tableKeymap azertyTable

/-- `keymap_qwerty`: its table is still to come. -/
def keymapQwerty : Keymap := tableKeymap []

/-- `keymap_translate`. -/
def keymapTranslate (currentLayout : Option Keymap) (scancode : UInt8) : UInt8 :=
  match currentLayout with
  | none => 0
  | some layout => layout scancode

structure Console where
  vga : Vga
  currentLayout : Option Keymap
  /-- What the `printf` of a thread has still to print. -/
  pending : Nat → List UInt8

namespace Console

/-- `keyboard_handler`. -/
def keyboardHandler (s : Console) (scancode : UInt8) : VgaM Vga :=
  if scancode &&& 0x80 ≠ 0 then return s.vga
  else
    let c := keymapTranslate s.currentLayout scancode
    if c ≠ 0 then s.vga.vgaPutchar c else return s.vga

/-- What a call of `printf` sends to the console. -/
def printed (fmt : List UInt8) (args : List Arg) : List UInt8 :=
  emitted (vprintf (terminated fmt) (fmt.length + 1) args).events

/-- A `char` as a variable argument. -/
def promote (c : UInt8) : UInt32 := c.toInt8.toInt32.toUInt32

/-- The loop of `sys_write`, with a `printf("%c", buf[i])` for each byte. -/
def writeLoop (v : Vga) : List UInt8 → VgaM Vga
  | [] => return v
  | c :: buf => do
      let v ← v.vgaWrite (printed [0x25, 0x63] [.word (promote c)])
      writeLoop v buf

end Console

inductive ConsoleLabel where
  /-- A thread calls `printf`. -/
  | printf (t : Nat) (fmt : List UInt8) (args : List Arg)
  /-- The next character of a thread's `printf`. -/
  | putchar (t : Nat)
  /-- A system call of a thread writes a buffer. -/
  | write (t : Nat) (buf : List UInt8)
  /-- The keyboard interrupts. -/
  | key (scancode : UInt8)
  | keymapSet (layout : Option Keymap)

/-- Whose character it is. -/
inductive Writer where
  | kernel (t : Nat)
  | user (t : Nat)
  | keyboard
  deriving DecidableEq, Repr

inductive ConsoleEvent where
  /-- A call is made, and this is what it means. -/
  | asked (w : Writer) (text : List UInt8)
  /-- A character goes to the screen. -/
  | shown (w : Writer) (c : UInt8)
  deriving DecidableEq, Repr

namespace Console

/-- What the scan code of a key stands for: nothing when the key is released or has no character. -/
def typed (currentLayout : Option Keymap) (scancode : UInt8) : List UInt8 :=
  if scancode.toNat < 128 ∧ keymapTranslate currentLayout scancode ≠ 0 then
    [keymapTranslate currentLayout scancode]
  else []

/-- What a step does to the screen. -/
def act (s : Console) : ConsoleLabel → VgaM Vga
  | .printf _ _ _ => return s.vga
  | .putchar t => s.vga.vgaWrite ((s.pending t).take 1)
  | .write _ buf => writeLoop s.vga buf
  | .key scancode => s.keyboardHandler scancode
  | .keymapSet _ => return s.vga

def step (s : Console) (l : ConsoleLabel) : Option Console :=
  let s' := { s with vga := (s.act l).value }
  match l with
  | .printf t fmt args =>
      if s.pending t = [] then some { s' with pending := Function.update s.pending t (printed fmt args) }
      else none
  | .putchar t =>
      if s.pending t = [] then none
      else some { s' with pending := Function.update s.pending t (s.pending t).tail }
  | .write _ _ => some s'
  | .key _ => some s'
  | .keymapSet layout => some { s' with currentLayout := layout }

/-- The format of a `printf` has no stray `%`, and its arguments match its conversions. -/
def Permitted (_ : Console) : ConsoleLabel → Prop
  | .printf _ fmt args => (∀ c ∈ fmt, c ≠ 0) ∧ stray fmt = false ∧ (expand fmt args).isSome
  | _ => True

instance : ∀ (s : Console) (l : ConsoleLabel), Decidable (Permitted s l)
  | _, .printf _ fmt args =>
      inferInstanceAs (Decidable ((∀ c ∈ fmt, c ≠ 0) ∧ stray fmt = false ∧ (expand fmt args).isSome))
  | _, .putchar _ => inferInstanceAs (Decidable True)
  | _, .write _ _ => inferInstanceAs (Decidable True)
  | _, .key _ => inferInstanceAs (Decidable True)
  | _, .keymapSet _ => inferInstanceAs (Decidable True)

def observe (s : Console) : ConsoleLabel → List ConsoleEvent
  | .printf t fmt args => [.asked (.kernel t) ((expand fmt args).getD [])]
  | .putchar t => ((s.pending t).take 1).map (.shown (.kernel t))
  | .write t buf => .asked (.user t) buf :: buf.map (.shown (.user t))
  | .key scancode =>
      .asked .keyboard (typed s.currentLayout scancode) ::
        (typed s.currentLayout scancode).map (.shown .keyboard)
  | .keymapSet _ => []

/-- After `console_init` and `drivers_init`. -/
def boot (v : Vga) : Console where
  vga := (v.vgaClear 7 0).value
  currentLayout := some keymapAzerty
  pending _ := []

/-- What a writer has not printed yet. -/
def left (s : Console) : Writer → List UInt8
  | .kernel t => s.pending t
  | .user _ => []
  | .keyboard => []

end Console

/-- A character on the screen. -/
def ConsoleEvent.char : ConsoleEvent → Option UInt8
  | .asked _ _ => none
  | .shown _ c => some c

/-- A character of one of the writers on the screen. -/
def ConsoleEvent.charOf (w : Writer) : ConsoleEvent → Option UInt8
  | .asked _ _ => none
  | .shown v c => if v = w then some c else none

/-- What a call of one of the writers means. -/
def ConsoleEvent.textOf (w : Writer) : ConsoleEvent → List UInt8
  | .asked v text => if v = w then text else []
  | .shown _ _ => []

/-- Everything on the screen, in the order in which it came there. -/
def shownText (es : List ConsoleEvent) : List UInt8 := es.filterMap ConsoleEvent.char

/-- What one of the writers has on the screen. -/
def shownBy (w : Writer) (es : List ConsoleEvent) : List UInt8 := es.filterMap (ConsoleEvent.charOf w)

/-- What its calls mean, one after the other. -/
def askedBy (w : Writer) (es : List ConsoleEvent) : List UInt8 := es.flatMap (ConsoleEvent.textOf w)

namespace Console

theorem holdsText_terminated {text : List UInt8} (h : ∀ c ∈ text, c ≠ 0) :
    HoldsText (terminated text) 0 text := by
  have hgeneral : ∀ (rest before : List UInt8), (∀ c ∈ rest, c ≠ 0) →
      HoldsText (terminated (before ++ rest)) before.length rest := by
    intro rest
    induction rest with
    | nil =>
        intro before _
        show (before ++ []).getD before.length 0 = 0
        simp
    | cons c rest ih =>
        intro before hrest
        refine ⟨?_, hrest c List.mem_cons_self, ?_⟩
        · show (before ++ c :: rest).getD before.length 0 = c
          simp
        · have hnext := ih (before ++ [c]) fun d hd => hrest d (List.mem_cons_of_mem c hd)
          rw [List.append_assoc, List.length_append] at hnext
          exact hnext
  exact hgeneral text [] h

/-- `printf` sends to the console what its format means. -/
theorem printed_eq {fmt : List UInt8} {args : List Arg} {out : List UInt8} (hzero : ∀ c ∈ fmt, c ≠ 0)
    (hstray : stray fmt = false) (hargs : expand fmt args = some out) : printed fmt args = out :=
  (vprintf_prints (holdsText_terminated hzero) hargs hstray (Nat.lt_succ_self _)).output

/-- A `char` comes through `...` and `%c` unchanged, also when it is negative. -/
theorem promote_toUInt8 (c : UInt8) : (promote c).toUInt8 = c := by
  unfold promote
  apply UInt8.eq_of_toBitVec_eq
  show (c.toBitVec.signExtend 32).setWidth 8 = c.toBitVec
  apply BitVec.eq_of_getLsbD_eq
  intro i hi
  rw [BitVec.getLsbD_setWidth, BitVec.getLsbD_signExtend]
  simp [hi]
  omega

theorem printed_char (c : UInt8) : printed [0x25, 0x63] [.word (promote c)] = [c] := by
  have hargs : expand [0x25, 0x63] [.word (promote c)] = some [c] := by
    show some [(promote c).toUInt8] = _
    rw [promote_toUInt8]
  exact printed_eq (by simp) rfl hargs

/-- The system call writes its buffer. -/
theorem writeLoop_eq (v : Vga) (buf : List UInt8) : writeLoop v buf = v.vgaWrite buf := by
  induction buf generalizing v with
  | nil => rfl
  | cons c buf ih =>
      have hnext : (fun w => writeLoop w buf) = fun w => w.vgaWrite buf := funext ih
      show (v.vgaWrite (printed [0x25, 0x63] [.word (promote c)]) >>= fun w => writeLoop w buf) = _
      rw [printed_char, hnext]
      exact bind_pure_bind (v.vgaPutchar c) id fun w => w.vgaWrite buf

section Step

variable {s s' : Console} {l : ConsoleLabel} {es : List ConsoleEvent} {v : Vga} {text : List UInt8}

theorem layout_append (fg bg : UInt8) (text text' : List UInt8) : Vga.layout fg bg (text ++ text') =
    (text'.map (Vga.mark fg bg)).foldl (Layout.put vgaWidth) (Vga.layout fg bg text) := by
  unfold Vga.layout Layout.ofText
  rw [List.map_append, List.foldl_append]

/-- The screen shows a text. -/
def ShowsText (v : Vga) (text : List UInt8) : Prop := Vga.Shows 7 0 v (Vga.layout 7 0 text)

theorem ShowsText.vgaWrite (h : ShowsText v text) (out : List UInt8) :
    Post Vga.OnScreen (fun v' => ShowsText v' (text ++ out)) (v.vgaWrite out) := by
  apply (Vga.Shows.vgaWrite h).mono
  intro v' hv'
  unfold ShowsText
  rw [layout_append]
  exact hv'

theorem ShowsText.same (h : ShowsText v text) :
    Post Vga.OnScreen (fun v' => ShowsText v' (text ++ [])) (pure v : VgaM Vga) := by
  rw [List.append_nil]
  exact Traced.Post.pure h

theorem ShowsText.vgaPutchar (h : ShowsText v text) (c : UInt8) :
    Post Vga.OnScreen (fun v' => ShowsText v' (text ++ [c])) (v.vgaPutchar c) := by
  apply (Vga.Shows.vgaPutchar h).mono
  intro v' hv'
  unfold ShowsText
  rw [layout_append]
  exact hv'

/-- The bit of a release. -/
theorem release_iff (scancode : UInt8) : scancode &&& 0x80 ≠ 0 ↔ ¬scancode.toNat < 128 := by
  have hbits : ∀ b : BitVec 8, b &&& 0x80 ≠ 0 ↔ ¬b.toNat < 128 := by decide +kernel
  show _ ↔ ¬scancode.toBitVec.toNat < 128
  rw [← hbits scancode.toBitVec, Ne, ← UInt8.toBitVec_inj]
  rfl

/-- The keyboard prints what the key stands for. -/
theorem keyboardHandler_post (h : ShowsText s.vga text) (scancode : UInt8) :
    Post Vga.OnScreen (fun v' => ShowsText v' (text ++ typed s.currentLayout scancode))
      (s.keyboardHandler scancode) := by
  unfold keyboardHandler typed
  by_cases hpress : scancode.toNat < 128
  · rw [if_neg fun hne => (release_iff scancode).mp hne hpress]
    by_cases hc : keymapTranslate s.currentLayout scancode ≠ 0
    · rw [if_pos ⟨hpress, hc⟩]
      show Post _ _ (if keymapTranslate s.currentLayout scancode ≠ 0 then _ else _)
      rw [if_pos hc]
      exact h.vgaPutchar _
    · rw [if_neg fun hboth => hc hboth.2]
      show Post _ _ (if keymapTranslate s.currentLayout scancode ≠ 0 then _ else _)
      rw [if_neg hc]
      exact h.same
  · rw [if_pos ((release_iff scancode).mpr hpress), if_neg fun hboth => hpress hboth.1]
    exact h.same

/-- A step shows what the history says that it shows. -/
theorem act_post (h : ShowsText s.vga text) (l : ConsoleLabel) :
    Post Vga.OnScreen (fun v' => ShowsText v' (text ++ shownText (s.observe l))) (s.act l) := by
  have hshown : ∀ (w : Writer) (out : List UInt8), shownText (out.map (.shown w)) = out := by
    intro w out
    unfold shownText
    rw [List.filterMap_map]
    exact List.filterMap_some
  cases l with
  | printf t fmt args => exact h.same
  | putchar t =>
      show Post _ (fun v' => ShowsText v' (text ++ shownText (((s.pending t).take 1).map _))) _
      rw [hshown]
      exact h.vgaWrite _
  | write t buf =>
      show Post _ (fun v' => ShowsText v' (text ++ shownText (buf.map _))) (writeLoop s.vga buf)
      rw [hshown, writeLoop_eq]
      exact h.vgaWrite buf
  | key scancode =>
      show Post _ (fun v' => ShowsText v' (text ++ shownText ((typed s.currentLayout scancode).map _))) _
      rw [hshown]
      exact keyboardHandler_post h scancode
  | keymapSet layout => exact h.same

theorem shownBy_append (w : Writer) (es fs : List ConsoleEvent) :
    shownBy w (es ++ fs) = shownBy w es ++ shownBy w fs := List.filterMap_append

theorem askedBy_append (w : Writer) (es fs : List ConsoleEvent) :
    askedBy w (es ++ fs) = askedBy w es ++ askedBy w fs := List.flatMap_append

theorem shownText_append (es fs : List ConsoleEvent) :
    shownText (es ++ fs) = shownText es ++ shownText fs := List.filterMap_append

/-- Characters of one writer. -/
theorem shownBy_map (w v : Writer) (out : List UInt8) :
    shownBy w (out.map (.shown v)) = if v = w then out else [] := by
  unfold shownBy
  rw [List.filterMap_map]
  by_cases hv : v = w
  · have hall : ConsoleEvent.charOf w ∘ ConsoleEvent.shown v = some := by
      funext c
      exact if_pos hv
    rw [if_pos hv, hall, List.filterMap_some]
  · rw [if_neg hv]
    apply List.filterMap_eq_nil_iff.mpr
    intro c _
    exact if_neg hv

theorem askedBy_map (w v : Writer) (out : List UInt8) : askedBy w (out.map (.shown v)) = [] := by
  apply List.flatMap_eq_nil_iff.mpr
  intro e he
  obtain ⟨c, _, rfl⟩ := List.mem_map.mp he
  rfl

/-- A call that is answered at once, of a writer that has nothing left. -/
theorem answered_left {v : Writer} {w : Writer} {text : List UInt8} (hleft : text = [] ∨ ¬v = w) (out : List UInt8) :
    shownBy w (.asked v out :: out.map (.shown v)) ++ text =
      text ++ askedBy w (.asked v out :: out.map (.shown v)) := by
  show shownBy w (out.map (.shown v)) ++ text =
    text ++ ((if v = w then out else []) ++ askedBy w (out.map (.shown v)))
  rw [shownBy_map, askedBy_map, List.append_nil]
  obtain rfl | hv := hleft
  · rw [List.append_nil, List.nil_append]
  · rw [if_neg hv, List.append_nil, List.nil_append]

/-- What a step shows of a writer's text is no longer left, and what it is asked is. -/
theorem left_step (hok : Permitted s l) (hstep : s.step l = some s') (w : Writer) :
    shownBy w (s.observe l) ++ s'.left w = s.left w ++ askedBy w (s.observe l) := by
  cases l with
  | printf t fmt args =>
      obtain ⟨hzero, hstray, hsome⟩ := hok
      obtain ⟨out, hargs⟩ := Option.isSome_iff_exists.mp hsome
      change (if s.pending t = [] then some _ else none) = some s' at hstep
      by_cases hempty : s.pending t = []
      · rw [if_pos hempty] at hstep
        cases hstep
        show left _ w = s.left w ++ ((if Writer.kernel t = w then (expand fmt args).getD [] else []) ++ [])
        rw [List.append_nil, hargs]
        cases w with
        | kernel u =>
            show Function.update s.pending t (printed fmt args) u = s.pending u ++ _
            by_cases hu : t = u
            · subst hu
              rw [Function.update_self, printed_eq hzero hstray hargs, hempty, if_pos rfl]
              rfl
            · rw [Function.update_of_ne (Ne.symm hu), if_neg fun h => hu (Writer.kernel.inj h),
                List.append_nil]
        | user u => rfl
        | keyboard => rfl
      · rw [if_neg hempty] at hstep
        cases hstep
  | putchar t =>
      change (if s.pending t = [] then none else some _) = some s' at hstep
      by_cases hempty : s.pending t = []
      · rw [if_pos hempty] at hstep
        cases hstep
      · rw [if_neg hempty] at hstep
        cases hstep
        show shownBy w (((s.pending t).take 1).map (.shown (.kernel t))) ++ left _ w =
          s.left w ++ askedBy w (((s.pending t).take 1).map (.shown (.kernel t)))
        rw [shownBy_map, askedBy_map, List.append_nil]
        cases w with
        | kernel u =>
            show _ ++ Function.update s.pending t (s.pending t).tail u = s.pending u
            by_cases hu : t = u
            · subst hu
              rw [if_pos rfl, Function.update_self, ← List.drop_one, List.take_append_drop]
            · rw [Function.update_of_ne (Ne.symm hu), if_neg fun h => hu (Writer.kernel.inj h)]
              rfl
        | user u => rfl
        | keyboard => rfl
  | write t buf =>
      cases hstep
      apply answered_left
      cases w with
      | kernel u => exact Or.inr nofun
      | user u => exact Or.inl rfl
      | keyboard => exact Or.inl rfl
  | key scancode =>
      cases hstep
      apply answered_left
      cases w with
      | kernel u => exact Or.inr nofun
      | user u => exact Or.inl rfl
      | keyboard => exact Or.inl rfl
  | keymapSet layout =>
      cases hstep
      show s.left w = s.left w ++ []
      rw [List.append_nil]

/-- What holds of the console and its history. -/
structure ConsoleInv (es : List ConsoleEvent) (s : Console) : Prop where
  shows : ShowsText s.vga (shownText es)
  texts : ∀ w, shownBy w es ++ s.left w = askedBy w es

theorem boot_inv (v : Vga) : ConsoleInv [] (boot v) where
  shows := (Vga.vgaClear_post v 7 0).of_ok result_eq_value
  texts w := by cases w <;> rfl

theorem step_vga (hstep : s.step l = some s') : s'.vga = (s.act l).value := by
  cases l with
  | printf t fmt args =>
      change (if s.pending t = [] then some _ else none) = some s' at hstep
      by_cases hempty : s.pending t = []
      · rw [if_pos hempty] at hstep
        cases hstep
        rfl
      · rw [if_neg hempty] at hstep
        cases hstep
  | putchar t =>
      change (if s.pending t = [] then none else some _) = some s' at hstep
      by_cases hempty : s.pending t = []
      · rw [if_pos hempty] at hstep
        cases hstep
      · rw [if_neg hempty] at hstep
        cases hstep
        rfl
  | write t buf =>
      cases hstep
      rfl
  | key scancode =>
      cases hstep
      rfl
  | keymapSet layout =>
      cases hstep
      rfl

theorem inv_step (h : ConsoleInv es s) (hok : Permitted s l) (hstep : s.step l = some s') :
    ConsoleInv (es ++ s.observe l) s' := by
  constructor
  case shows =>
    rw [shownText_append, step_vga hstep]
    exact (act_post h.shows l).of_ok result_eq_value
  case texts =>
    intro w
    rw [shownBy_append, askedBy_append, List.append_assoc, left_step hok hstep, ← List.append_assoc, h.texts w]

end Step

end Console

end Neox
