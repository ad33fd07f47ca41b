import Neox.Proc.Exec
import Mathlib

/-!
# The initial stack of a new image

What `exec_build_user_stack` leaves in the page of the user stack. The strings end at the top of the
page, the `argv` pointers lie under them, and `argc` is stored at the stack pointer. The stack pointer
is rounded down to 16 bytes after the place of `argc` has been chosen, so the two are adjacent only
when the sizes add up to a multiple of 16.
-/

namespace Neox

open Bytes Checked

/-- The bytes of the strings with their terminators. -/
def stringsLength (args : List ExecArg) : Nat := (args.map fun arg => arg.string.length + 1).sum

/-- `argc`, the pointers with their `NULL` and the strings. -/
def stackLength (args : List ExecArg) : Nat := 4 * (args.length + 2) + stringsLength args

/-- The stack a program is entered with: `argc` at the stack pointer `esp`, the pointers `argv` and a
`NULL` above it, and a copy of every argument where its pointer says. -/
structure ArgvLayout (args : List ExecArg) (stackVirt esp : Nat) (argv : Nat → Nat) (b : Block) :
    Prop where
  aligned : esp % 16 = 0
  inside : stackVirt ≤ esp ∧ esp + 4 * (args.length + 2) ≤ stackVirt + userStackSize
  argc : read32 b (esp - stackVirt) = args.length
  pointers : ∀ i < args.length, read32 b (esp + 4 + 4 * i - stackVirt) = argv i
  null : read32 b (esp + 4 + 4 * args.length - stackVirt) = 0
  strings : ∀ i arg, args[i]? = some arg →
    stackVirt ≤ argv i ∧ argv i + (arg.string.length + 1) ≤ stackVirt + userStackSize ∧
      ∀ k c, (arg.string ++ [0])[k]? = some c → b (argv i + k - stackVirt) = c
  /-- The copies overlap neither the words nor each other. -/
  words_apart : ∀ i arg, args[i]? = some arg →
    argv i + (arg.string.length + 1) ≤ esp ∨ esp + 4 * (args.length + 2) ≤ argv i
  apart : ∀ i j arg arg', i ≠ j → args[i]? = some arg → args[j]? = some arg' →
    argv i + (arg.string.length + 1) ≤ argv j ∨ argv j + (arg'.string.length + 1) ≤ argv i

/-- Whatever the page holds before, `exec_build_user_stack` lays out the same stack in it, or it
returns `false` and the arguments do not fit; nothing is stored outside the page. -/
def StackBuilt (args : List ExecArg) (stackVirt : Nat) : Prop :=
  (∃ esp argv, ∀ b, ∃ b', execBuildUserStack args stackVirt b = .ok (some esp, b') ∧
    ArgvLayout args stackVirt esp argv b' ∧ ∀ x, userStackSize ≤ x → b' x = b x) ∨
  (userStackSize < stackLength args ∧ ∀ b, ∃ b', execBuildUserStack args stackVirt b = .ok (none, b') ∧
    ∀ x, userStackSize ≤ x → b' x = b x)

/-! ## The loops -/

section Loops

variable {args rest : List ExecArg} {arg : ExecArg} {b : Block} {offset virt size : Nat}

theorem stringsLength_cons :
    stringsLength (arg :: rest) = arg.string.length + 1 + stringsLength rest := by
  simp [stringsLength]

/-- Where string `i` starts. -/
def stringStart (args : List ExecArg) (i : Nat) : Nat := stringsLength (args.take i)

theorem stringStart_cons (i : Nat) :
    stringStart (arg :: rest) (i + 1) = arg.string.length + 1 + stringStart rest i := by
  unfold stringStart
  rw [List.take_succ_cons, stringsLength_cons]

/-- A string lies between the ones before it and the ones after it. -/
theorem stringStart_le {i : Nat} (h : args[i]? = some arg) :
    stringStart args i + (arg.string.length + 1) ≤ stringsLength args := by
  induction args generalizing i with
  | nil => cases h
  | cons a args ih =>
      cases i with
      | zero =>
          cases h
          rw [stringsLength_cons]
          exact Nat.le_trans (Nat.le_of_eq (Nat.zero_add _)) (Nat.le_add_right ..)
      | succ i =>
          have hi := ih (List.getElem?_cons_succ ▸ h)
          rw [stringStart_cons, stringsLength_cons]
          omega

theorem stringStart_mono {i j : Nat} (hij : i < j) (h : args[i]? = some arg) :
    stringStart args i + (arg.string.length + 1) ≤ stringStart args j := by
  have htake : (args.take j)[i]? = some arg := by rw [List.getElem?_take_of_lt hij, h]
  have hle := stringStart_le htake
  unfold stringStart at hle ⊢
  rw [List.take_take, Nat.min_eq_left (Nat.le_of_lt hij)] at hle
  exact hle

theorem stringsSizeFrom_eq (h : size < wordModulus) :
    stringsSizeFrom size args =
      if size + stringsLength args < wordModulus then some (size + stringsLength args) else none := by
  induction args generalizing size with
  | nil =>
      unfold stringsSizeFrom stringsLength
      rw [List.map_nil, List.sum_nil, Nat.add_zero, if_pos h]
  | cons arg rest ih =>
      unfold stringsSizeFrom
      rw [stringsLength_cons, ← Nat.add_assoc]
      simp only []
      by_cases hlt : size + (arg.string.length + 1) < wordModulus
      · rw [if_neg (by simp only [wordModulus] at *; omega), ih hlt]
      · rw [if_pos (by simp only [wordModulus] at *; omega), if_neg (by omega)]

theorem storeBytes_eq {bytes : List UInt8} (h : offset + bytes.length ≤ userStackSize) :
    ∃ b', storeBytes b offset bytes = .ok b' ∧
      (∀ x, x < offset ∨ offset + bytes.length ≤ x → b' x = b x) ∧
      ∀ k c, bytes[k]? = some c → b' (offset + k) = c := by
  refine ⟨_, if_pos h, fun x hx => copy_of_not_mem _ hx, fun k c hc => ?_⟩
  obtain ⟨hk, -⟩ := List.getElem?_eq_some_iff.mp hc
  rw [copy_of_mem _ hk, List.getD_eq_getElem?_getD, hc]
  rfl

/-- By induction on the strings: each is stored above the ones before it. -/
theorem writeStrings_ok (h : offset + stringsLength args ≤ userStackSize) :
    ∃ b', writeStrings b offset args = .ok b' ∧
      (∀ x, x < offset ∨ offset + stringsLength args ≤ x → b' x = b x) ∧
      ∀ i arg, args[i]? = some arg → ∀ k c, (arg.string ++ [0])[k]? = some c →
        b' (offset + stringStart args i + k) = c := by
  induction args generalizing b offset with
  | nil => exact ⟨b, rfl, fun x _ => rfl, fun i arg hi => by cases hi⟩
  | cons arg rest ih =>
      rw [stringsLength_cons] at h
      have hlength : (arg.string ++ [0]).length = arg.string.length + 1 := by simp
      have hfirst : offset + (arg.string ++ [0]).length ≤ userStackSize := by omega
      have hothers : offset + (arg.string.length + 1) + stringsLength rest ≤ userStackSize := by omega
      obtain ⟨b₁, hstore, hout, hin⟩ := storeBytes_eq (b := b) hfirst
      obtain ⟨b', hrest, hout', hin'⟩ := ih (b := b₁) hothers
      refine ⟨b', ?_, fun x hx => ?_, fun i arg' hi k c hc => ?_⟩
      · unfold writeStrings
        rw [hstore]
        exact hrest
      · rw [stringsLength_cons] at hx
        exact (hout' x (by omega)).trans (hout x (by omega))
      · cases i with
        | zero =>
            cases hi
            obtain ⟨hk, -⟩ := List.getElem?_eq_some_iff.mp hc
            show b' (offset + 0 + k) = c
            rw [Nat.add_zero]
            exact (hout' _ (.inl (by omega))).trans (hin k c hc)
        | succ i =>
            rw [stringStart_cons, ← Nat.add_assoc]
            exact hin' i arg' (List.getElem?_cons_succ ▸ hi) k c hc

theorem storeWord_eq {w : Nat} (h : offset + 4 ≤ userStackSize) :
    storeWord b offset w = .ok (write32 b offset w) := if_pos h

/-- By induction on the strings: the pointers are stored one above the other, and a `NULL` last. -/
theorem writePointers_ok (h : offset + 4 * (args.length + 1) ≤ userStackSize)
    (hvirt : virt + stringsLength args ≤ wordModulus) :
    ∃ b', writePointers b offset virt args = .ok b' ∧
      (∀ x, x < offset ∨ offset + 4 * (args.length + 1) ≤ x → b' x = b x) ∧
      (∀ i < args.length, read32 b' (offset + 4 * i) = virt + stringStart args i) ∧
      read32 b' (offset + 4 * args.length) = 0 := by
  induction args generalizing b offset virt with
  | nil =>
      refine ⟨_, storeWord_eq (by simpa using h), fun x hx => write32_of_not_mem (by simpa using hx),
        fun i hi => ?_, ?_⟩
      · cases hi
      · exact read32_write32 b offset (by decide)
  | cons arg rest ih =>
      rw [List.length_cons] at h
      rw [stringsLength_cons] at hvirt
      have hroom : offset + 4 + 4 * (rest.length + 1) ≤ userStackSize := by omega
      have hrest : virt + (arg.string.length + 1) + stringsLength rest ≤ wordModulus := by omega
      obtain ⟨b', hrest, hout, hpointers, hnull⟩ := ih (b := write32 b offset virt) hroom hrest
      refine ⟨b', ?_, fun x hx => ?_, fun i hi => ?_, ?_⟩
      · unfold writePointers
        rw [storeWord_eq (by omega)]
        exact hrest
      · rw [List.length_cons] at hx
        exact (hout x (by omega)).trans (write32_of_not_mem (by omega))
      · cases i with
        | zero =>
            have hsame : read32 b' offset = read32 (write32 b offset virt) offset :=
              read32_congr fun k hk => hout _ (.inl (by omega))
            show read32 b' offset = virt + 0
            rw [hsame, read32_write32 _ _ (by simp only [wordModulus] at hvirt; omega), Nat.add_zero]
        | succ i =>
            have hi' := hpointers i (by simpa using hi)
            rw [stringStart_cons, ← Nat.add_assoc, ← hi']
            congr 1
            omega
      · rw [List.length_cons, ← hnull]
        congr 1
        omega

end Loops

/-! ## `exec_build_user_stack` -/

section Build

variable {args : List ExecArg} {stackVirt : Nat} {b : Block}

/-- The sizes of arguments that fit. -/
theorem fits_bounds (hfits : stackLength args ≤ userStackSize) :
    stringsLength args < wordModulus ∧
      (4 + (args.length + 1) * 4 + stringsLength args) % wordModulus = stackLength args := by
  unfold stackLength at *
  simp only [userStackSize, pageSize, wordModulus] at *
  omega

/-- What fits is stored: the pointers and strings at the top of the page, and `argc` at the first
multiple of 16 that leaves room for all of it. -/
theorem execBuildUserStack_ok (haligned : stackVirt % pageSize = 0) (hvirt : stackVirt < wordModulus)
    (hfits : stackLength args ≤ userStackSize) (b : Block) :
    ∃ top, execBuildUserStack args stackVirt b =
        .ok (some (stackVirt + (userStackSize - stackLength args) / 16 * 16),
          write32 top ((userStackSize - stackLength args) / 16 * 16) args.length) ∧
      (∀ x, x < userStackSize - stackLength args + 4 ∨ userStackSize ≤ x → top x = b x) ∧
      (∀ i < args.length, read32 top (userStackSize - stackLength args + 4 + 4 * i) =
        stackVirt + (userStackSize - stringsLength args) + stringStart args i) ∧
      read32 top (userStackSize - stackLength args + 4 + 4 * args.length) = 0 ∧
      ∀ i arg, args[i]? = some arg → ∀ k c, (arg.string ++ [0])[k]? = some c →
        top (userStackSize - stringsLength args + stringStart args i + k) = c := by
  obtain ⟨hsize, htotal⟩ := fits_bounds hfits
  have hroom : 4 * (args.length + 2) + stringsLength args ≤ userStackSize := hfits
  -- The addresses of the code, as offsets in the page.
  have hstrings : wordSub (wordSub ((stackVirt + userStackSize) % wordModulus) (stringsLength args))
      stackVirt = userStackSize - stringsLength args := by
    unfold wordSub
    simp only [userStackSize, pageSize, wordModulus] at *
    omega
  have hargv : wordSub (wordSub ((stackVirt + userStackSize) % wordModulus) (stringsLength args))
      ((args.length + 1) * 4) = stackVirt + (userStackSize - stackLength args + 4) := by
    unfold wordSub stackLength
    simp only [userStackSize, pageSize, wordModulus] at *
    omega
  have hargvOffset : wordSub (stackVirt + (userStackSize - stackLength args + 4)) stackVirt =
      userStackSize - stackLength args + 4 := by
    unfold wordSub stackLength
    simp only [userStackSize, pageSize, wordModulus] at *
    omega
  have hesp : wordSub (stackVirt + (userStackSize - stackLength args + 4)) 4 / 16 * 16 =
      stackVirt + (userStackSize - stackLength args) / 16 * 16 := by
    unfold wordSub stackLength
    simp only [userStackSize, pageSize, wordModulus] at *
    omega
  have hespOffset : wordSub (stackVirt + (userStackSize - stackLength args) / 16 * 16) stackVirt =
      (userStackSize - stackLength args) / 16 * 16 := by
    unfold wordSub stackLength
    simp only [userStackSize, pageSize, wordModulus] at *
    omega
  have hroom : userStackSize - stringsLength args + stringsLength args ≤ userStackSize := by omega
  obtain ⟨b₁, hwrite, hout, hin⟩ := writeStrings_ok (b := b) hroom
  -- Without arguments the first string is past the end of the address space.
  have hvirt' : wordSub ((stackVirt + userStackSize) % wordModulus) (stringsLength args) +
      stringsLength args ≤ wordModulus ∧ (0 < args.length →
        wordSub ((stackVirt + userStackSize) % wordModulus) (stringsLength args) =
          stackVirt + (userStackSize - stringsLength args)) := by
    have hpos : 0 < args.length → 0 < stringsLength args := by
      intro h
      cases args with
      | nil => cases h
      | cons arg rest =>
          rw [stringsLength_cons]
          omega
    have hzero : args.length = 0 → stringsLength args = 0 := by
      intro h
      cases List.eq_nil_of_length_eq_zero h
      rfl
    unfold wordSub
    simp only [userStackSize, pageSize, wordModulus] at *
    omega
  have hpointersRoom :
      userStackSize - stackLength args + 4 + 4 * (args.length + 1) ≤ userStackSize := by
    unfold stackLength
    omega
  obtain ⟨top, hpointers, hout', hin', hnull⟩ := writePointers_ok (b := b₁) hpointersRoom hvirt'.1
  refine ⟨top, ?_, fun x hx => ?_, fun i hi => ?_, hnull, fun i arg hi k c hc => ?_⟩
  · unfold execBuildUserStack
    rw [stringsSizeFrom_eq (by decide), Nat.zero_add, if_pos hsize]
    simp only []
    rw [htotal, if_neg (Nat.not_lt.mpr hfits), hstrings, hwrite, ok_bind, hargv, hargvOffset,
      hpointers, ok_bind, hesp, if_neg (by omega), hespOffset, storeWord_eq ?_, ok_bind]
    · rfl
    · unfold stackLength
      omega
  · have hstack : stackLength args = 4 * (args.length + 2) + stringsLength args := rfl
    exact (hout' x (by omega)).trans (hout x (by omega))
  · rw [hin' i hi, hvirt'.2 (Nat.lt_of_le_of_lt (Nat.zero_le i) hi)]
  · have hstack : stackLength args = 4 * (args.length + 2) + stringsLength args := rfl
    have hle := stringStart_le hi
    refine (hout' _ (.inr ?_)).trans (hin i arg hi k c hc)
    omega

/-- Sizes that add up to a multiple of 16 leave no gap under the pointers. -/
theorem argvLayout_of_aligned (haligned : stackVirt % pageSize = 0)
    (hfits : stackLength args ≤ userStackSize) (hmod : stackLength args % 16 = 0) {top b' : Block}
    (hb' : b' = write32 top ((userStackSize - stackLength args) / 16 * 16) args.length)
    (hargc : args.length ≤ 31)
    (hpointers : ∀ i < args.length, read32 top (userStackSize - stackLength args + 4 + 4 * i) =
      stackVirt + (userStackSize - stringsLength args) + stringStart args i)
    (hnull : read32 top (userStackSize - stackLength args + 4 + 4 * args.length) = 0)
    (hstrings : ∀ i arg, args[i]? = some arg → ∀ k c, (arg.string ++ [0])[k]? = some c →
      top (userStackSize - stringsLength args + stringStart args i + k) = c) :
    ArgvLayout args stackVirt (stackVirt + (userStackSize - stackLength args))
      (fun i => stackVirt + (userStackSize - stringsLength args) + stringStart args i) b' := by
  have hesp : (userStackSize - stackLength args) / 16 * 16 = userStackSize - stackLength args := by
    simp only [userStackSize, pageSize] at *
    omega
  have hstack : stackLength args = 4 * (args.length + 2) + stringsLength args := rfl
  have hroom : 4 * (args.length + 2) + stringsLength args ≤ userStackSize := hfits
  rw [hesp] at hb'
  have habove : ∀ x, userStackSize - stackLength args + 4 ≤ x → b' x = top x := by
    intro x hx
    rw [hb']
    exact write32_of_not_mem (.inr hx)
  constructor
  case aligned =>
    simp only [userStackSize, pageSize] at *
    omega
  case inside => exact ⟨Nat.le_add_right .., by omega⟩
  case argc =>
    rw [Nat.add_sub_cancel_left, hb']
    exact read32_write32 _ _ (by omega)
  case pointers =>
    intro i hi
    have hoffset : stackVirt + (userStackSize - stackLength args) + 4 + 4 * i - stackVirt =
        userStackSize - stackLength args + 4 + 4 * i := by omega
    rw [hoffset, ← hpointers i hi]
    exact read32_congr fun k _ => habove _ (by omega)
  case null =>
    have hoffset : stackVirt + (userStackSize - stackLength args) + 4 + 4 * args.length - stackVirt =
        userStackSize - stackLength args + 4 + 4 * args.length := by omega
    rw [hoffset, ← hnull]
    exact read32_congr fun k _ => habove _ (by omega)
  case strings =>
    intro i arg hi
    have hle := stringStart_le hi
    refine ⟨by omega, by omega, fun k c hc => ?_⟩
    have hoffset : stackVirt + (userStackSize - stringsLength args) + stringStart args i + k -
        stackVirt = userStackSize - stringsLength args + stringStart args i + k := by omega
    rw [hoffset, ← hstrings i arg hi k c hc]
    exact habove _ (by omega)
  case words_apart =>
    intro i arg _
    exact .inr (by omega)
  case apart =>
    intro i j arg arg' hij hi hj
    rcases Nat.lt_or_gt_of_ne hij with hlt | hgt
    · have hle := stringStart_mono hlt hi
      exact .inl (by omega)
    · have hle := stringStart_mono hgt hj
      exact .inr (by omega)

theorem stackBuilt_of_aligned (hargc : args.length ≤ 31) (haligned : stackVirt % pageSize = 0)
    (hvirt : stackVirt < wordModulus) (hfits : stackLength args ≤ userStackSize)
    (hmod : stackLength args % 16 = 0) : StackBuilt args stackVirt := by
  have hesp : (userStackSize - stackLength args) / 16 * 16 = userStackSize - stackLength args := by
    simp only [userStackSize, pageSize] at *
    omega
  refine .inl ⟨stackVirt + (userStackSize - stackLength args),
    fun i => stackVirt + (userStackSize - stringsLength args) + stringStart args i, fun b => ?_⟩
  obtain ⟨top, hbuild, hout, hpointers, hnull, hstrings⟩ :=
    execBuildUserStack_ok haligned hvirt hfits b
  rw [hesp] at hbuild
  refine ⟨_, hbuild, argvLayout_of_aligned haligned hfits hmod (by rw [hesp]) hargc hpointers hnull
    hstrings, fun x hx => ?_⟩
  exact (write32_of_not_mem (.inr (by unfold stackLength at *; omega))).trans (hout x (.inr hx))

/-- Sizes that do not leave a gap, which keeps what the page held before: it is where the first
pointer, or the `NULL`, should be. -/
theorem not_stackBuilt_of_gap (haligned : stackVirt % pageSize = 0) (hvirt : stackVirt < wordModulus)
    (hfits : stackLength args ≤ userStackSize) (hmod : stackLength args % 16 ≠ 0) :
    ¬ StackBuilt args stackVirt := by
  rintro (⟨esp, argv, hbuilt⟩ | ⟨hlarge, -⟩)
  · have hstack : stackLength args = 4 * (args.length + 2) + stringsLength args := rfl
    -- The word above `argc` is the same whatever the page held, and its low byte is what it held.
    obtain ⟨w, hw⟩ : ∃ w, ∀ b : Block,
        (b ((userStackSize - stackLength args) / 16 * 16 + 4)).toNat = w % 0x100 := by
      refine ⟨if args.length = 0 then 0 else argv 0, fun b => ?_⟩
      obtain ⟨top, hbuild, hout, -⟩ := execBuildUserStack_ok haligned hvirt hfits b
      obtain ⟨b', hbuild', hlayout, -⟩ := hbuilt b
      rw [hbuild] at hbuild'
      obtain ⟨hesp, hb'⟩ : stackVirt + (userStackSize - stackLength args) / 16 * 16 = esp ∧
          write32 top ((userStackSize - stackLength args) / 16 * 16) args.length = b' := by
        cases hbuild'
        exact ⟨rfl, rfl⟩
      have hword : read32 b' (esp + 4 - stackVirt) = if args.length = 0 then 0 else argv 0 := by
        split
        · next h0 =>
          have hnull := hlayout.null
          rw [h0] at hnull
          exact hnull
        · next h0 => exact hlayout.pointers 0 (Nat.pos_of_ne_zero h0)
      have hoffset : esp + 4 - stackVirt = (userStackSize - stackLength args) / 16 * 16 + 4 := by
        omega
      have hgap : b' ((userStackSize - stackLength args) / 16 * 16 + 4) =
          b ((userStackSize - stackLength args) / 16 * 16 + 4) := by
        rw [← hb']
        refine (write32_of_not_mem (.inr (Nat.le_refl _))).trans (hout _ (.inl ?_))
        simp only [userStackSize, pageSize] at *
        omega
      rw [← hword, hoffset, ← hgap]
      unfold read32
      have hlt := (b' ((userStackSize - stackLength args) / 16 * 16 + 4)).toNat_lt
      omega
    have hzero := hw fun _ => 0
    have hone := hw fun _ => 1
    exact absurd (hzero.trans hone.symm) (by decide)
  · exact absurd hfits (Nat.not_le.mpr hlarge)

/-- The size computation wraps: `strings_size` is a `uint32_t`, and `total_size` is not. -/
def SizeWraps (args : List ExecArg) : Prop :=
  stringsLength args < wordModulus ∧ wordModulus ≤ stackLength args

instance (args : List ExecArg) : Decidable (SizeWraps args) :=
  inferInstanceAs (Decidable (_ ∧ _))

/-- Arguments that do not fit are refused. -/
theorem stackBuilt_of_large (hlarge : userStackSize < stackLength args) (hwraps : ¬ SizeWraps args) :
    StackBuilt args stackVirt := by
  refine .inr ⟨hlarge, fun b => ⟨b, ?_, fun x _ => rfl⟩⟩
  unfold execBuildUserStack
  rw [stringsSizeFrom_eq (by decide), Nat.zero_add]
  by_cases hsize : stringsLength args < wordModulus
  · rw [if_pos hsize]
    have htotal : (4 + (args.length + 1) * 4 + stringsLength args) % wordModulus =
        stackLength args := by
      have hlt : stackLength args < wordModulus := Nat.not_le.mp fun h => hwraps ⟨hsize, h⟩
      unfold stackLength at *
      rw [Nat.mod_eq_of_lt (by omega)]
      omega
    simp only []
    rw [htotal, if_pos hlarge]
    rfl
  · rw [if_neg hsize]
    rfl

/-- When the sum wraps the first string is stored outside the page. -/
theorem not_stackBuilt_of_wraps (hargc : args.length ≤ 31) (haligned : stackVirt % pageSize = 0)
    (hvirt : stackVirt < wordModulus) (hwraps : SizeWraps args) : ¬ StackBuilt args stackVirt := by
  obtain ⟨hsize, hwrap⟩ := hwraps
  have hstrings : userStackSize < wordSub
      (wordSub ((stackVirt + userStackSize) % wordModulus) (stringsLength args)) stackVirt := by
    unfold wordSub
    unfold stackLength at hwrap
    simp only [userStackSize, pageSize, wordModulus] at *
    omega
  have hsmall : ¬ userStackSize < (4 + (args.length + 1) * 4 + stringsLength args) % wordModulus := by
    unfold stackLength at hwrap
    simp only [userStackSize, pageSize, wordModulus] at *
    omega
  have hstop : ∀ b, ∃ offset, execBuildUserStack args stackVirt b = .error (.outsideStack offset) := by
    intro b
    cases args with
    | nil =>
        unfold stackLength stringsLength at hwrap
        simp only [wordModulus, List.length_nil, List.map_nil, List.sum_nil] at hwrap
        omega
    | cons arg rest =>
        refine ⟨wordSub (wordSub ((stackVirt + userStackSize) % wordModulus)
          (stringsLength (arg :: rest))) stackVirt, ?_⟩
        unfold execBuildUserStack
        rw [stringsSizeFrom_eq (by decide), Nat.zero_add, if_pos hsize]
        simp only []
        rw [if_neg hsmall, writeStrings, storeBytes, if_neg (by omega), error_bind, error_bind]
  rintro (⟨esp, argv, hbuilt⟩ | ⟨-, hbuilt⟩)
  · obtain ⟨b', hbuild, -⟩ := hbuilt zero
    obtain ⟨offset, herror⟩ := hstop zero
    rw [herror] at hbuild
    cases hbuild
  · obtain ⟨b', hbuild, -⟩ := hbuilt zero
    obtain ⟨offset, herror⟩ := hstop zero
    rw [herror] at hbuild
    cases hbuild

end Build

/-- `exec_build_user_stack` does what it should exactly when the sizes of `argc`, the pointers and the
strings add up to a multiple of 16, or do not fit in the page and do not wrap. -/
theorem exec_stack_iff (args : List ExecArg) (stackVirt : Nat) (hargc : args.length ≤ 31)
    (haligned : stackVirt % pageSize = 0) (hvirt : stackVirt < wordModulus) :
    StackBuilt args stackVirt ↔
      if stackLength args ≤ userStackSize then stackLength args % 16 = 0 else ¬ SizeWraps args := by
  by_cases hfits : stackLength args ≤ userStackSize
  · rw [if_pos hfits]
    constructor
    · intro hbuilt
      by_contra hmod
      exact not_stackBuilt_of_gap haligned hvirt hfits hmod hbuilt
    · exact stackBuilt_of_aligned hargc haligned hvirt hfits
  · rw [if_neg hfits]
    constructor
    · intro hbuilt hwraps
      exact not_stackBuilt_of_wraps hargc haligned hvirt hwraps hbuilt
    · exact stackBuilt_of_large (Nat.not_le.mp hfits)

/-- `argc`, two pointers and `cat` take 16 bytes. -/
theorem exec_stack_cat : StackBuilt [⟨0, [0x63, 0x61, 0x74]⟩] 0xBFFFF000 :=
  (exec_stack_iff [⟨0, [0x63, 0x61, 0x74]⟩] 0xBFFFF000 (by decide) (by decide) (by decide)).mpr
    (by decide)

/-- `argc`, two pointers and `a` take 14: `argc` is two bytes too low. -/
theorem exec_stack_gap : ∃ b', execBuildUserStack [⟨0, [0x61]⟩] 0xBFFFF000 zero =
      .ok (some 0xBFFFFFF0, b') ∧
    ∀ argv, ¬ ArgvLayout [⟨0, [0x61]⟩] 0xBFFFF000 0xBFFFFFF0 argv b' := by
  refine ⟨_, rfl, fun argv hlayout => ?_⟩
  have hargv : argv 0 = 0xFFFE0000 := by
    rw [← hlayout.pointers 0 (by decide)]
    decide +kernel
  have hinside := (hlayout.strings 0 _ rfl).2.1
  rw [hargv] at hinside
  exact absurd hinside (by decide)

end Neox
