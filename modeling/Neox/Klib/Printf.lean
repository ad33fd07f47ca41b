import Mathlib.Data.Nat.Digits.Lemmas
import Neox.Lib.Bytes
import Neox.Lib.Traced
import Neox.Layout

/-!
# Formatted output

`lib/printf.c`. The format is in memory and every read of it is reported with its offset, as is every
character that goes to the console. A string argument is the bytes before its terminator.

* `printUnsigned_prints`, `printSigned_prints`: the digits are those of the numeral.
* `vprintf_expands_iff`: when `vprintf` expands its format.
-/

namespace Neox

open Bytes Traced

/-- A character of the format is read, or a character goes to the console. -/
inductive PrintEvent
  | format (offset : Nat)
  | putchar (c : UInt8)
  deriving DecidableEq, Repr

/-- Why `vprintf` does not return: `va_arg` finds no argument of its type, a store is outside
`buffer`, or the bound on the characters of the format is reached. -/
inductive PrintStop
  | argument
  | overflow
  | fuel
  deriving DecidableEq, Repr

abbrev PrintM := Traced PrintStop PrintEvent

/-- An argument: a word, or a string that may be `NULL`. -/
inductive Arg
  | word (w : UInt32)
  | string (s : Option (List UInt8))
  deriving DecidableEq, Repr

/-- The `int` of a word. -/
def asInt (w : Nat) : Int := if w < 0x80000000 then w else w - wordModulus

/-- `console_putchar`. -/
def consolePutchar (c : UInt8) : PrintM Unit := report (.putchar c)

/-! ## `printf.c` -/

/-- The character of a digit. -/
def digitChar (digit : Nat) : UInt8 :=
  if digit < 10 then UInt8.ofNat (0x30 + digit) else UInt8.ofNat (0x41 + (digit - 10))

/-- The first loop of `print_unsigned`: `i` digits are in the buffer, and `n` more fit. -/
def fillDigits (base : Nat) (buffer : Block) (i value : Nat) : Nat → PrintM (Block × Nat)
  | 0 => if value = 0 then return (buffer, i) else silent (.error .overflow)
  | n + 1 =>
      if value = 0 then return (buffer, i)
      else fillDigits base (Function.update buffer i (digitChar (value % base))) (i + 1) (value / base) n

/-- The second loop of `print_unsigned`. -/
def putDigits (buffer : Block) : Nat → PrintM Unit
  | 0 => return ()
  | i + 1 => do
      consolePutchar (buffer i)
      putDigits buffer i

/-- `print_unsigned`. -/
def printUnsigned (value base : Nat) : PrintM Nat :=
  if value = 0 then do
    consolePutchar 0x30
    return 1
  else do
    let (buffer, i) ← fillDigits base zero 0 value 32
    putDigits buffer i
    return i

/-- `print_signed`. -/
def printSigned (value : Int) : PrintM Nat :=
  if value < 0 then do
    consolePutchar 0x2D
    let n ← printUnsigned (((-(value + 1)).toNat + 1) % wordModulus) 10
    return 1 + n
  else printUnsigned value.toNat 10

/-- The loop over a string; the number of its characters is added to `written`. -/
def putString : List UInt8 → Nat → PrintM Nat
  | [], written => return written
  | c :: s, written =>
      if c = 0 then return written
      else do
        consolePutchar c
        putString s ((written + 1) % wordModulus)

/-- `(null)`. -/
def nullString : List UInt8 := [0x28, 0x6E, 0x75, 0x6C, 0x6C, 0x29]

/-- `va_arg` of a word. -/
def argWord : List Arg → PrintM (UInt32 × List Arg)
  | .word w :: args => return (w, args)
  | _ => silent (.error .argument)

/-- `va_arg` of a string. -/
def argString : List Arg → PrintM (Option (List UInt8) × List Arg)
  | .string s :: args => return (s, args)
  | _ => silent (.error .argument)

/-- The `switch` of `vprintf` at the character `d`. -/
def convert (d : UInt8) (args : List Arg) (written : Nat) : PrintM (List Arg × Nat) :=
  if d = 0x25 then do
    consolePutchar 0x25
    return (args, (written + 1) % wordModulus)
  else if d = 0x63 then do
    let (w, args) ← argWord args
    consolePutchar w.toUInt8
    return (args, (written + 1) % wordModulus)
  else if d = 0x73 then do
    let (s, args) ← argString args
    let written ← putString (s.getD nullString) written
    return (args, written)
  else if d = 0x64 then do
    let (w, args) ← argWord args
    let n ← printSigned (asInt w.toNat)
    return (args, (written + n) % wordModulus)
  else if d = 0x75 then do
    let (w, args) ← argWord args
    let n ← printUnsigned w.toNat 10
    return (args, (written + n) % wordModulus)
  else if d = 0x78 then do
    let (w, args) ← argWord args
    let n ← printUnsigned w.toNat 16
    return (args, (written + n) % wordModulus)
  else do
    consolePutchar 0x25
    consolePutchar d
    return (args, (written + 2) % wordModulus)

/-- The loop of `vprintf` at offset `i` of the format. -/
def vprintfFrom (fmt : Block) : Nat → Nat → List Arg → Nat → PrintM Nat
  | 0, _, _, _ => silent (.error .fuel)
  | fuel + 1, i, args, written => do
      let c ← fetch (.format i) (fmt i)
      if c = 0 then return written
      else if c ≠ 0x25 then do
        consolePutchar c
        vprintfFrom fmt fuel (i + 1) args ((written + 1) % wordModulus)
      else do
        let d ← fetch (.format (i + 1)) (fmt (i + 1))
        let (args, written) ← convert d args written
        vprintfFrom fmt fuel (i + 2) args written

/-- `vprintf`, over at most `fuel` characters and conversions. -/
def vprintf (fmt : Block) (fuel : Nat) (args : List Arg) : PrintM Int := do
  let written ← vprintfFrom fmt fuel 0 args 0
  return asInt written

/-! ## What a format stands for -/

/-- The numeral of a number. -/
def numeral (base value : Nat) : List UInt8 :=
  if value = 0 then [0x30] else (Nat.digits base value).reverse.map digitChar

/-- The decimal numeral of an integer. -/
def signedNumeral (value : Int) : List UInt8 :=
  if value < 0 then 0x2D :: numeral 10 value.natAbs else numeral 10 value.natAbs

/-- What a conversion stands for, and the arguments after it. -/
def conversion (d : UInt8) (args : List Arg) : Option (List UInt8 × List Arg) :=
  if d = 0x25 then some ([0x25], args)
  else if d = 0x63 then
    match args with
    | .word w :: args => some ([w.toUInt8], args)
    | _ => none
  else if d = 0x73 then
    match args with
    | .string s :: args => some ((s.getD nullString).takeWhile (· ≠ 0), args)
    | _ => none
  else if d = 0x64 then
    match args with
    | .word w :: args => some (signedNumeral (asInt w.toNat), args)
    | _ => none
  else if d = 0x75 then
    match args with
    | .word w :: args => some (numeral 10 w.toNat, args)
    | _ => none
  else if d = 0x78 then
    match args with
    | .word w :: args => some (numeral 16 w.toNat, args)
    | _ => none
  else some ([0x25, d], args)

/-- What a format stands for; `none` when the arguments do not match its conversions. -/
def expand : List UInt8 → List Arg → Option (List UInt8)
  | [], _ => some []
  | [c], _ => some [c]
  | c :: d :: text, args =>
      if c = 0x25 then
        match conversion d args with
        | none => none
        | some (out, args) => (expand text args).map (out ++ ·)
      else (expand (d :: text) args).map (c :: ·)

/-- The format ends in the `%` of a conversion without its specifier. -/
def stray : List UInt8 → Bool
  | [] => false
  | [c] => c = 0x25
  | c :: d :: text => if c = 0x25 then stray text else stray (d :: text)

/-- The memory at offset `i` holds the text and its terminator. -/
def HoldsText (fmt : Block) (i : Nat) : List UInt8 → Prop
  | [] => fmt i = 0
  | c :: text => fmt i = c ∧ c ≠ 0 ∧ HoldsText fmt (i + 1) text

/-- The characters that go to the console. -/
def emitted (events : List PrintEvent) : List UInt8 :=
  events.filterMap fun
    | .format _ => none
    | .putchar c => some c

/-- The format is read up to offset `last`. -/
def ReadsTo (last : Nat) : PrintEvent → Prop
  | .format i => i ≤ last
  | .putchar _ => True


/-! ## What a computation prints -/

/-- The computation returns `a`, emits `out`, and reads the format up to offset `last`. -/
structure Prints (last : Nat) (out : List UInt8) (a : α) (x : PrintM α) : Prop where
  result : x.result = .ok a
  reports : Reports (ReadsTo last) x
  output : emitted x.events = out

section Rules

variable {α β : Type} {last : Nat} {out out' : List UInt8} {a : α} {b : β} {x : PrintM α}
  {f : α → PrintM β}

theorem emitted_append (es es' : List PrintEvent) :
    emitted (es ++ es') = emitted es ++ emitted es' :=
  List.filterMap_append

theorem Prints.pure (a : α) : Prints last [] a (Pure.pure a : PrintM α) := ⟨rfl, reports_pure, rfl⟩

theorem prints_putchar (c : UInt8) : Prints last [c] () (consolePutchar c) :=
  ⟨rfl, reports_report.mpr trivial, rfl⟩

theorem prints_fetch {i : Nat} (h : i ≤ last) (c : UInt8) :
    Prints last [] c (fetch (.format i) c) := by
  refine ⟨rfl, fun e he => ?_, rfl⟩
  obtain rfl := List.mem_singleton.mp he
  exact h

/-- What is printed first comes first. -/
theorem Prints.bind (hx : Prints last out a x) (hf : Prints last out' b (f a)) :
    Prints last (out ++ out') b (x >>= f) := by
  obtain ⟨events, result⟩ := x
  obtain rfl : result = .ok a := hx.result
  refine ⟨hf.result, ?_, ?_⟩
  · refine reports_bind.mpr ⟨hx.reports, fun a' ha' => ?_⟩
    cases ha'
    exact hf.reports
  · show emitted (events ++ (f a).events) = _
    rw [emitted_append, hf.output]
    exact congrArg (· ++ out') hx.output

theorem Prints.bind_nil (hx : Prints last [] a x) (hf : Prints last out b (f a)) :
    Prints last out b (x >>= f) := hx.bind hf

/-- A value is worked on and returned. -/
theorem Prints.bind_pure (hx : Prints last out a x) (g : α → β) :
    Prints last out (g a) (x >>= fun a => Pure.pure (g a)) := by
  have h : Prints last (out ++ []) (g a) (x >>= fun a => Pure.pure (g a)) :=
    hx.bind (Prints.pure (g a))
  rw [List.append_nil] at h
  exact h

end Rules

/-- `vprintf` returns, emits the expansion and counts it, and reads the format up to its terminator. -/
def Expands (fmt : Block) (text : List UInt8) (args : List Arg) (out : List UInt8) : Prop :=
  ∀ fuel, text.length < fuel → Prints text.length out (out.length : Int) (vprintf fmt fuel args)

/-! ## Numerals -/

section Digits

variable {base value last i n : Nat} {buffer : Block}

theorem map_buffer_update (buffer : Block) (i : Nat) (c : UInt8) :
    (List.range (i + 1)).map (Function.update buffer i c) = (List.range i).map buffer ++ [c] := by
  rw [List.range_succ, List.map_append]
  refine congrArg₂ List.append (List.map_congr_left fun k hk => ?_) ?_
  · exact Function.update_of_ne (Nat.ne_of_lt (List.mem_range.mp hk)) _ _
  · exact congrArg (fun c => [c]) (Function.update_self _ _ _)

/-- The digits are put into the buffer, the last one first. -/
theorem fillDigits_prints (buffer : Block) (i : Nat) (hbase : 1 < base) (hvalue : value < base ^ n) :
    ∃ buffer' i', Prints last [] (buffer', i') (fillDigits base buffer i value n) ∧
      (List.range i').map buffer' =
        (List.range i).map buffer ++ (Nat.digits base value).map digitChar := by
  induction n generalizing buffer i value with
  | zero =>
      obtain rfl : value = 0 := by simpa using hvalue
      exact ⟨buffer, i, Prints.pure _, by simp⟩
  | succ n ih =>
      by_cases hzero : value = 0
      · subst hzero
        exact ⟨buffer, i, Prints.pure _, by simp⟩
      · have hdiv : value / base < base ^ n := by
          apply Nat.div_lt_of_lt_mul
          rw [Nat.mul_comm, ← Nat.pow_succ]
          exact hvalue
        obtain ⟨buffer', i', hprints, hdigits⟩ :=
          ih (Function.update buffer i (digitChar (value % base))) (i + 1) hdiv
        refine ⟨buffer', i', ?_, ?_⟩
        · unfold fillDigits
          rw [if_neg hzero]
          exact hprints
        · rw [hdigits, map_buffer_update, Nat.digits_def' hbase (Nat.pos_of_ne_zero hzero)]
          simp

/-- The buffer is emitted from its end. -/
theorem putDigits_prints (buffer : Block) (i : Nat) :
    Prints last ((List.range i).map buffer).reverse () (putDigits buffer i) := by
  induction i with
  | zero => exact Prints.pure ()
  | succ i ih =>
      have hreverse : ((List.range (i + 1)).map buffer).reverse =
          [buffer i] ++ ((List.range i).map buffer).reverse := by
        rw [List.range_succ]
        simp
      rw [hreverse]
      exact (prints_putchar (buffer i)).bind ih

/-- `print_unsigned` emits the numeral and returns its length. -/
theorem printUnsigned_prints (hbase : 1 < base) (hvalue : value < base ^ 32) :
    Prints last (numeral base value) (numeral base value).length (printUnsigned value base) := by
  unfold printUnsigned numeral
  by_cases hzero : value = 0
  · rw [if_pos hzero, if_pos hzero]
    exact (prints_putchar 0x30).bind_pure fun _ => 1
  · rw [if_neg hzero, if_neg hzero]
    obtain ⟨buffer, i, hfill, hdigits⟩ := fillDigits_prints zero 0 hbase hvalue
    have hdigits : (List.range i).map buffer = (Nat.digits base value).map digitChar := by
      simpa using hdigits
    have hlength : i = ((Nat.digits base value).reverse.map digitChar).length := by
      have h := congrArg List.length hdigits
      simpa using h
    have hput : Prints last _ i (putDigits buffer i >>= fun _ => pure i) :=
      (putDigits_prints buffer i).bind_pure fun _ => i
    rw [hdigits, ← List.map_reverse] at hput
    rw [← hlength]
    exact hfill.bind_nil hput

/-- A numeral has no leading zero, and the digits of its number. -/
theorem numeral_canonical (hbase : 1 < base) (hzero : value ≠ 0) :
    ∃ digits : List Nat, numeral base value = digits.map digitChar ∧ (∀ d ∈ digits, d < base) ∧
      digits.head? ≠ some 0 ∧ Nat.ofDigits base digits.reverse = value := by
  refine ⟨(Nat.digits base value).reverse, if_neg hzero, fun d hd => ?_, ?_, ?_⟩
  · exact Nat.digits_lt_base hbase (List.mem_reverse.mp hd)
  · rw [List.head?_reverse]
    intro hlast
    have hne : Nat.digits base value ≠ [] := Nat.digits_ne_nil_iff_ne_zero.mpr hzero
    have hlead := Nat.getLast_digit_ne_zero base hzero
    rw [List.getLast?_eq_some_getLast hne] at hlast
    exact hlead (Option.some.inj hlast)
  · rw [List.reverse_reverse]
    exact Nat.ofDigits_digits base value

theorem word_lt_ten (w : UInt32) : w.toNat < 10 ^ 32 := Nat.lt_of_lt_of_le w.toNat_lt (by decide)

theorem word_lt_sixteen (w : UInt32) : w.toNat < 16 ^ 32 :=
  Nat.lt_of_lt_of_le w.toNat_lt (by decide)

/-- `print_signed` emits the numeral, the most negative `int` included. -/
theorem printSigned_prints (w : UInt32) :
    Prints last (signedNumeral (asInt w.toNat)) (signedNumeral (asInt w.toNat)).length
      (printSigned (asInt w.toNat)) := by
  have hw := w.toNat_lt
  unfold printSigned signedNumeral
  by_cases hneg : asInt w.toNat < 0
  · rw [if_pos hneg, if_pos hneg]
    have hrange : -2147483648 ≤ asInt w.toNat := by
      unfold asInt
      split
      · omega
      · simp only [wordModulus]
        omega
    have habs : ((-(asInt w.toNat + 1)).toNat + 1) % wordModulus = (asInt w.toNat).natAbs := by
      simp only [wordModulus]
      omega
    have hsmall : (asInt w.toNat).natAbs < 10 ^ 32 :=
      Nat.lt_of_le_of_lt (m := 2147483648) (by omega) (by decide)
    have hdigits : Prints last (numeral 10 (asInt w.toNat).natAbs) _ _ :=
      printUnsigned_prints (by decide) hsmall
    rw [habs, List.length_cons, Nat.add_comm]
    exact (prints_putchar 0x2D).bind (hdigits.bind_pure (1 + ·))
  · rw [if_neg hneg, if_neg hneg]
    have hnat : (asInt w.toNat).toNat = (asInt w.toNat).natAbs := by omega
    have hsmall : (asInt w.toNat).natAbs < 10 ^ 32 := by
      have hle : (asInt w.toNat).natAbs ≤ w.toNat := by
        unfold asInt at *
        split
        · omega
        · simp only [wordModulus] at *
          omega
      exact Nat.lt_of_le_of_lt hle (word_lt_ten w)
    rw [hnat]
    exact printUnsigned_prints (by decide) hsmall

end Digits

/-! ## Conversions -/

section Conversions

variable {last w : Nat} {d : UInt8} {args args' : List Arg} {out : List UInt8}

theorem putString_prints (s : List UInt8) (w : Nat) :
    Prints last (s.takeWhile (· ≠ 0)) ((w + (s.takeWhile (· ≠ 0)).length) % wordModulus)
      (putString s (w % wordModulus)) := by
  induction s generalizing w with
  | nil => exact Prints.pure _
  | cons c s ih =>
      unfold putString
      by_cases hc : c = 0
      · rw [if_pos hc, List.takeWhile_cons_of_neg (by simpa using hc)]
        exact Prints.pure _
      · rw [if_neg hc, List.takeWhile_cons_of_pos (by simpa using hc), Nat.mod_add_mod]
        have hrest := ih (w + 1)
        rw [Nat.add_assoc, Nat.add_comm 1] at hrest
        exact (prints_putchar c).bind hrest

/-- A number of characters is added to the count. -/
theorem Prints.count {n : Nat} {x : PrintM Nat} (hx : Prints last out n x) (hn : n = out.length) :
    Prints last out (args, (w + out.length) % wordModulus)
      (x >>= fun n => Pure.pure (args, (w % wordModulus + n) % wordModulus)) := by
  rw [← hn, ← Nat.mod_add_mod w]
  exact hx.bind_pure fun n => (args, (w % wordModulus + n) % wordModulus)

/-- Each branch of the `switch` emits what the conversion stands for. -/
theorem convert_prints (h : conversion d args = some (out, args')) :
    Prints last out (args', (w + out.length) % wordModulus) (convert d args (w % wordModulus)) := by
  unfold conversion at h
  unfold convert
  by_cases hpercent : d = 0x25
  · rw [if_pos hpercent] at h ⊢
    cases h
    rw [Nat.mod_add_mod]
    exact (prints_putchar 0x25).bind_pure fun _ => _
  rw [if_neg hpercent] at h ⊢
  by_cases hc : d = 0x63
  · rw [if_pos hc] at h ⊢
    split at h
    · next w' args =>
      cases h
      rw [Nat.mod_add_mod]
      exact (prints_putchar w'.toUInt8).bind_pure fun _ => _
    · cases h
  rw [if_neg hc] at h ⊢
  by_cases hs : d = 0x73
  · rw [if_pos hs] at h ⊢
    split at h
    · next s args =>
      cases h
      exact (putString_prints (s.getD nullString) w).bind_pure fun written => (args', written)
    · cases h
  rw [if_neg hs] at h ⊢
  by_cases hd : d = 0x64
  · rw [if_pos hd] at h ⊢
    split at h
    · next w' args =>
      cases h
      exact (printSigned_prints w').count rfl
    · cases h
  rw [if_neg hd] at h ⊢
  by_cases hu : d = 0x75
  · rw [if_pos hu] at h ⊢
    split at h
    · next w' args =>
      cases h
      exact (printUnsigned_prints (by decide) (word_lt_ten w')).count rfl
    · cases h
  rw [if_neg hu] at h ⊢
  by_cases hx : d = 0x78
  · rw [if_pos hx] at h ⊢
    split at h
    · next w' args =>
      cases h
      exact (printUnsigned_prints (by decide) (word_lt_sixteen w')).count rfl
    · cases h
  rw [if_neg hx] at h ⊢
  cases h
  rw [Nat.mod_add_mod]
  exact (prints_putchar 0x25).bind ((prints_putchar d).bind_pure fun _ => _)

end Conversions

/-! ## The scan of the format -/

section Scan

variable {fmt : Block} {text : List UInt8} {args args' : List Arg} {out out' : List UInt8}
  {last i w b fuel : Nat} {c d : UInt8}

theorem scan_end (hi : i ≤ last) (hend : fmt i = 0) :
    Prints last [] w (vprintfFrom fmt (fuel + 1) i args w) := by
  unfold vprintfFrom
  rw [hend]
  exact (prints_fetch hi 0).bind_nil (Prints.pure w)

theorem scan_literal (hi : i ≤ last) (hc : fmt i = c) (hzero : c ≠ 0) (hpercent : c ≠ 0x25)
    (hrest : Prints last out b (vprintfFrom fmt fuel (i + 1) args ((w + 1) % wordModulus))) :
    Prints last (c :: out) b (vprintfFrom fmt (fuel + 1) i args w) := by
  unfold vprintfFrom
  rw [hc]
  refine (prints_fetch hi c).bind_nil ?_
  rw [if_neg hzero, if_pos hpercent]
  exact (prints_putchar c).bind hrest

theorem scan_conversion (hi : i + 1 ≤ last) (hc : fmt i = 0x25) (hd : fmt (i + 1) = d)
    (hconvert : Prints last out (args', b) (convert d args w))
    (hrest : Prints last out' n (vprintfFrom fmt fuel (i + 2) args' b)) :
    Prints last (out ++ out') n (vprintfFrom fmt (fuel + 1) i args w) := by
  unfold vprintfFrom
  rw [hc, hd]
  refine (prints_fetch (Nat.le_of_succ_le hi) 0x25).bind_nil ?_
  rw [if_neg (by decide), if_neg (by decide)]
  refine (prints_fetch hi d).bind_nil ?_
  exact hconvert.bind hrest

/-- What a format that goes on with a literal character stands for. -/
theorem expand_literal (hne : c ≠ 0x25) (hargs : expand (c :: text) args = some out) :
    ∃ out', expand text args = some out' ∧ out = c :: out' := by
  cases text with
  | nil =>
      cases hargs
      exact ⟨[], rfl, rfl⟩
  | cons d text =>
      unfold expand at hargs
      rw [if_neg hne] at hargs
      obtain ⟨out', hout, rfl⟩ := Option.map_eq_some_iff.mp hargs
      exact ⟨out', hout, rfl⟩

/-- What a format that goes on with a conversion stands for. -/
theorem expand_conversion (hargs : expand (0x25 :: d :: text) args = some out) :
    ∃ out₁ args' out₂, conversion d args = some (out₁, args') ∧ expand text args' = some out₂ ∧
      out = out₁ ++ out₂ := by
  unfold expand at hargs
  rw [if_pos rfl] at hargs
  cases hconversion : conversion d args with
  | none =>
      rw [hconversion] at hargs
      cases hargs
  | some r =>
      obtain ⟨out₁, args'⟩ := r
      rw [hconversion] at hargs
      obtain ⟨out₂, hout, rfl⟩ := Option.map_eq_some_iff.mp hargs
      exact ⟨out₁, args', out₂, rfl, hout, rfl⟩

theorem stray_literal (hne : c ≠ 0x25) : stray (c :: text) = stray text := by
  cases text with
  | nil => exact decide_eq_false hne
  | cons d text => exact if_neg hne

/-- A format without a stray `%` is expanded. The induction is on the characters that one turn of the
loop consumes. -/
theorem vprintfFrom_prints (hfmt : HoldsText fmt i text) (hargs : expand text args = some out)
    (hstray : stray text = false) (hfuel : text.length < fuel) :
    Prints (i + text.length) out ((w + out.length) % wordModulus)
      (vprintfFrom fmt fuel i args (w % wordModulus)) := by
  induction hlen : text.length using Nat.strongRecOn generalizing text i args out w fuel with
  | _ length ih =>
    subst hlen
    obtain ⟨fuel, rfl⟩ := Nat.exists_eq_succ_of_ne_zero (Nat.ne_of_gt (Nat.zero_lt_of_lt hfuel))
    cases text with
    | nil =>
        cases hargs
        exact scan_end (Nat.le_refl _) hfmt
    | cons c text =>
        obtain ⟨hc, hzero, hfmt⟩ := hfmt
        have hlength : i + (c :: text).length = i + 1 + text.length := by
          rw [List.length_cons]
          omega
        rw [List.length_cons] at hfuel
        by_cases hpercent : c = 0x25
        · subst hpercent
          cases text with
          | nil => cases hstray
          | cons d text =>
              obtain ⟨hd, -, hfmt⟩ := hfmt
              obtain ⟨out₁, args', out₂, hconversion, hexpand, rfl⟩ := expand_conversion hargs
              rw [List.length_cons] at hfuel
              have hshorter : text.length < (0x25 :: d :: text : List UInt8).length := by
                simp only [List.length_cons]
                omega
              have henough : text.length < fuel := by omega
              have hrest := ih text.length hshorter (w := w + out₁.length) hfmt hexpand hstray
                henough rfl
              have hlength : i + (0x25 :: d :: text : List UInt8).length = i + 2 + text.length := by
                simp only [List.length_cons]
                omega
              rw [hlength, List.length_append, ← Nat.add_assoc]
              exact scan_conversion (by omega) hc hd (convert_prints hconversion) hrest
        · obtain ⟨out', hexpand, rfl⟩ := expand_literal hpercent hargs
          have henough : text.length < fuel := by omega
          have hrest := ih text.length (Nat.lt_succ_self _) (w := w + 1) hfmt hexpand
            ((stray_literal hpercent).symm.trans hstray) henough rfl
          rw [hlength, List.length_cons, Nat.add_comm out'.length, ← Nat.add_assoc]
          refine scan_literal (by omega) hc hzero hpercent ?_
          rw [Nat.mod_add_mod]
          exact hrest

/-! ## A stray `%` -/

/-- When the computation returns, it has read this offset of the format. -/
def Strays (offset : Nat) (x : PrintM α) : Prop :=
  ∀ a, x.result = .ok a → PrintEvent.format offset ∈ x.events

theorem Strays.after {α β : Type} {offset : Nat} {a : α} {x : PrintM α} {f : α → PrintM β}
    (hx : Prints last out a x) (hf : Strays offset (f a)) : Strays offset (x >>= f) := by
  obtain ⟨events, result⟩ := x
  obtain rfl : result = .ok a := hx.result
  intro r hr
  exact List.mem_append_right _ (hf r hr)

/-- With a stray `%` the loop goes past the terminator. -/
theorem vprintfFrom_strays (hfmt : HoldsText fmt i text) (hargs : expand text args = some out)
    (hstray : stray text = true) :
    Strays (i + text.length + 1) (vprintfFrom fmt fuel i args (w % wordModulus)) := by
  induction hlen : text.length using Nat.strongRecOn generalizing text i args out w fuel with
  | _ length ih =>
    subst hlen
    cases fuel with
    | zero =>
        intro r hr
        cases hr
    | succ fuel =>
    cases text with
    | nil => cases hstray
    | cons c text =>
        obtain ⟨hc, hzero, hfmt⟩ := hfmt
        unfold vprintfFrom
        rw [hc]
        refine Strays.after (prints_fetch (Nat.le_refl i) c) ?_
        rw [if_neg hzero]
        by_cases hpercent : c = 0x25
        · rw [if_neg (not_not.mpr hpercent)]
          refine Strays.after (prints_fetch (Nat.le_refl (i + 1)) _) ?_
          subst hpercent
          cases text with
          | nil =>
              -- The `default` echoes the terminator, and the next turn reads what is after it.
              have hend : fmt (i + 1) = 0 := hfmt
              rw [hend]
              have hecho : Prints 0 _ _ (convert 0 args (w % wordModulus)) := convert_prints rfl
              refine Strays.after hecho ?_
              cases fuel with
              | zero =>
                  intro r hr
                  cases hr
              | succ fuel =>
                  intro r hr
                  exact List.mem_cons_self ..
          | cons d text =>
              obtain ⟨hd, -, hfmt⟩ := hfmt
              obtain ⟨out₁, args', out₂, hconversion, hexpand, rfl⟩ := expand_conversion hargs
              rw [hd]
              have hconvert : Prints 0 _ _ (convert d args (w % wordModulus)) :=
                convert_prints hconversion
              refine Strays.after hconvert ?_
              have hshorter : text.length < (0x25 :: d :: text : List UInt8).length := by
                simp only [List.length_cons]
                omega
              have hrest : Strays _ (vprintfFrom fmt fuel (i + 2) args' _) :=
                ih text.length hshorter (w := w + out₁.length) hfmt hexpand hstray rfl
              have hlength : i + (0x25 :: d :: text : List UInt8).length + 1 =
                  i + 2 + text.length + 1 := by
                simp only [List.length_cons]
                omega
              rw [hlength]
              exact hrest
        · rw [if_pos hpercent]
          have hecho : Prints 0 _ _ (consolePutchar c) := prints_putchar c
          refine Strays.after hecho ?_
          obtain ⟨out', hexpand, rfl⟩ := expand_literal hpercent hargs
          have hrest : Strays _ (vprintfFrom fmt fuel (i + 1) args _) :=
            ih text.length (Nat.lt_succ_self _) (w := w + 1) hfmt hexpand
              ((stray_literal hpercent).symm.trans hstray) rfl
          have hlength : i + (c :: text).length + 1 = i + 1 + text.length + 1 := by
            rw [List.length_cons]
            omega
          rw [hlength, Nat.mod_add_mod]
          exact hrest

end Scan

/-- The count is the length of the expansion as long as that is an `int`. -/
theorem asInt_mod_eq (n : Nat) : asInt (n % wordModulus) = n ↔ n < 0x80000000 := by
  unfold asInt
  simp only [wordModulus]
  split
  · omega
  · omega

section Vprintf

variable {fmt : Block} {text : List UInt8} {args : List Arg} {out : List UInt8}

/-- A format without a stray `%` is expanded, and the characters are counted in an `int`. -/
theorem vprintf_prints (hfmt : HoldsText fmt 0 text) (hargs : expand text args = some out)
    (hstray : stray text = false) {fuel : Nat} (hfuel : text.length < fuel) :
    Prints text.length out (asInt (out.length % wordModulus)) (vprintf fmt fuel args) := by
  have hloop : Prints (0 + text.length) out ((0 + out.length) % wordModulus)
      (vprintfFrom fmt fuel 0 args (0 % wordModulus)) :=
    vprintfFrom_prints hfmt hargs hstray hfuel
  rw [Nat.zero_add, Nat.zero_add] at hloop
  exact hloop.bind_pure asInt

/-- A format with a stray `%` is not expanded: its terminator is passed. -/
theorem not_expands_of_stray (hfmt : HoldsText fmt 0 text) (hargs : expand text args = some out)
    (hstray : stray text = true) : ¬ Expands fmt text args out := by
  intro h
  have hprints := h (text.length + 1) (Nat.lt_succ_self _)
  have hloop : Strays (0 + text.length + 1)
      (vprintfFrom fmt (text.length + 1) 0 args (0 % wordModulus)) :=
    vprintfFrom_strays hfmt hargs hstray
  have hresult := hprints.result
  unfold vprintf at hresult
  rw [result_bind] at hresult
  cases hreturned : (vprintfFrom fmt (text.length + 1) 0 args 0).result with
  | error e =>
      rw [hreturned] at hresult
      cases hresult
  | ok n =>
      have hread : PrintEvent.format (0 + text.length + 1) ∈
          (vprintfFrom fmt (text.length + 1) 0 args 0).events := hloop n hreturned
      have hreports := (reports_bind.mp hprints.reports).1 _ hread
      have hle : 0 + text.length + 1 ≤ text.length := hreports
      omega

end Vprintf

/-- For a format whose conversions its arguments match, `vprintf` reads nothing after the terminator,
emits the expansion and returns its length exactly when no conversion is cut short by the end of the
format and the expansion is shorter than `2 ^ 31` characters. -/
theorem vprintf_expands_iff (fmt : Block) (text : List UInt8) (args : List Arg) (out : List UInt8)
    (hfmt : HoldsText fmt 0 text) (hargs : expand text args = some out) :
    Expands fmt text args out ↔ stray text = false ∧ out.length < 0x80000000 := by
  constructor
  · intro h
    have hstray : stray text = false := by
      cases hstray : stray text with
      | false => rfl
      | true => exact absurd h (not_expands_of_stray hfmt hargs hstray)
    have hcounted := (h (text.length + 1) (Nat.lt_succ_self _)).result
    rw [(vprintf_prints hfmt hargs hstray (Nat.lt_succ_self _)).result] at hcounted
    exact ⟨hstray, (asInt_mod_eq out.length).mp (Except.ok.inj hcounted)⟩
  · intro ⟨hstray, hlength⟩ fuel hfuel
    have hprints := vprintf_prints hfmt hargs hstray hfuel
    rw [(asInt_mod_eq out.length).mpr hlength] at hprints
    exact hprints

/-- A text with zeros after it. -/
def terminated (text : List UInt8) : Block := fun k => text.getD k 0

/-- The format `%`: the character after the terminator is read. -/
theorem vprintf_strays : HoldsText (terminated [0x25]) 0 [0x25] ∧
    expand [0x25] [] = some [0x25] ∧ ¬ Expands (terminated [0x25]) [0x25] [] [0x25] := by
  have hfmt : HoldsText (terminated [0x25]) 0 [0x25] := ⟨rfl, by decide, rfl⟩
  exact ⟨hfmt, rfl, not_expands_of_stray hfmt rfl rfl⟩

/-- The format `%d%c` with the most negative `int` and a character. -/
theorem vprintf_expands_minimum :
    expand [0x25, 0x64, 0x25, 0x63] [.word 0x80000000, .word 0x21] =
      some [0x2D, 0x32, 0x31, 0x34, 0x37, 0x34, 0x38, 0x33, 0x36, 0x34, 0x38, 0x21] ∧
    Expands (terminated [0x25, 0x64, 0x25, 0x63]) [0x25, 0x64, 0x25, 0x63]
      [.word 0x80000000, .word 0x21]
      [0x2D, 0x32, 0x31, 0x34, 0x37, 0x34, 0x38, 0x33, 0x36, 0x34, 0x38, 0x21] := by
  have hfmt : HoldsText (terminated [0x25, 0x64, 0x25, 0x63]) 0 [0x25, 0x64, 0x25, 0x63] :=
    ⟨rfl, by decide, rfl, by decide, rfl, by decide, rfl, by decide, rfl⟩
  have hargs : expand [0x25, 0x64, 0x25, 0x63] [.word 0x80000000, .word 0x21] =
      some [0x2D, 0x32, 0x31, 0x34, 0x37, 0x34, 0x38, 0x33, 0x36, 0x34, 0x38, 0x21] := by
    decide +kernel
  exact ⟨hargs, (vprintf_expands_iff _ _ _ _ hfmt hargs).mpr ⟨rfl, by decide⟩⟩

end Neox
