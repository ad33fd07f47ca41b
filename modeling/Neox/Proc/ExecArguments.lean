import Neox.Mm.NoUserWords
import Neox.Mm.UserRanges
import Neox.Proc.Confinement
import Neox.Proc.KernelRuns

/-!
# The arguments of `exec`

`exec_args_copy_from_user` copies the strings of `argv` to the heap until it comes to a `NULL` pointer. It
gives up at the first entry or string that is not the user's, at a string of 256 characters, after 32
entries, or when a copy cannot be allocated, and then frees what it has copied.
`exec_arguments_copied_iff` says when it does so for all of `argv`; what can keep it from returning is that
`kmalloc` stops the kernel (`Stranded`).
-/

namespace Neox

open Bytes Traced Checked

/-! ## `struct exec_args` -/

/-- `struct exec_args`; a slot that is `NULL` is `none`. -/
structure ExecArgs where
  argc : Nat
  argv : Nat → Option ExecArg

namespace ExecArgs

/-- What `memset` leaves. -/
def cleared : ExecArgs := ⟨0, fun _ => none⟩

/-- `args->argv[i] = copy`. -/
def setSlot (args : ExecArgs) (i : Nat) (copy : Option ExecArg) : ExecArgs :=
  { args with argv := Function.update args.argv i copy }

/-- The body of the loop of `exec_args_destroy`. -/
def destroySlot (s : ExecArgs × Mm) (i : Nat) : Except Stop (ExecArgs × Mm) :=
  match s.1.argv i with
  | none => return s
  | some arg => do
      let m ← kfree s.2 arg.block
      return (s.1.setSlot i none, m)

/-- `exec_args_destroy`. -/
def execArgsDestroy (args : ExecArgs) (m : Mm) : Except Stop (ExecArgs × Mm) := do
  let (args, m) ← (List.range execMaxArgs).foldlM destroySlot (args, m)
  return ({ args with argc := 0 }, m)

/-- The loop of `exec_args_copy_from_user` at entry `i`, with `n` entries left; `false` is
`goto fail`. -/
def execArgsCopyFrom (directory userArgv : Nat) (m : Mm) (args : ExecArgs) (i : Nat) :
    Nat → UserM (Bool × ExecArgs × Mm)
  | 0 => return (false, args, m)
  | n + 1 => do
      let pointerAddress := (userArgv + 4 * i) % wordModulus
      if !(← silent (pagingUserRangeValid m directory pointerAddress 4)) then return (false, args, m)
      let userString ← User.readWord m directory pointerAddress
      if userString = 0 then return (true, { args with argc := i }, m)
      if !(← User.pagingUserStringValid m directory userString) then return (false, args, m)
      match ← User.stringLength m directory userString execMaxArgLength with
      | none => return (false, args, m)
      | some length => do
          let (block, m) ← silent (kmalloc m (length + 1))
          if block = 0 then return (false, args, m)
          let copied ← User.readBytes m directory userString (length + 1)
          execArgsCopyFrom directory userArgv m (args.setSlot i (some ⟨block, copied.take length⟩))
            (i + 1) n

/-- `exec_args_copy_from_user` of a `struct exec_args` and a directory that are not `NULL`. -/
def execArgsCopyFromUser (m : Mm) (directory userArgv : Nat) (args : ExecArgs) :
    UserM (Int × ExecArgs × Mm) :=
  if userArgv = 0 then return (-1, args, m)
  else do
    let (ok, args, m) ← execArgsCopyFrom directory userArgv m cleared 0 execMaxArgs
    if ok then return (0, args, m)
    let (args, m) ← silent (args.execArgsDestroy m)
    return (-1, args, m)

variable {m m' : Mm} {copies : List ExecArg} {copy : ExecArg} {argc d argv i n : Nat}

end ExecArgs

/-! ## What the user passes -/

/-- Entry `i` of `argv` is on pages the user may access and holds `pointer`. -/
structure ArgvEntry (m : Mm) (directory argv i pointer : Nat) : Prop where
  accessible : ∀ k < 4, UserAccessible m directory (argv + 4 * i + k)
  value : (User.readWord m directory (argv + 4 * i)).result = .ok pointer

/-- The characters before the `NUL` of a string of the user's, shorter than `EXEC_MAX_ARG_LENGTH`. -/
structure ArgumentString (m : Mm) (directory virt : Nat) (chars : List UInt8) : Prop where
  string : UserString m directory virt chars.length
  short : chars.length < execMaxArgLength
  read : ∀ k (hk : k < chars.length), m.readByte directory (virt + k) = .ok chars[k]

/-- Entry `i` of `argv` points to such a string. -/
def Argument (m : Mm) (directory argv i : Nat) (chars : List UInt8) : Prop :=
  ∃ pointer, pointer ≠ 0 ∧ ArgvEntry m directory argv i pointer ∧
    ArgumentString m directory pointer chars

/-- A block for each of the copies is allocated, one after the other. -/
inductive Copies : Mm → List ExecArg → Mm → Prop where
  | nil (m : Mm) : Copies m [] m
  | cons {m m₁ m' : Mm} {block : Nat} {string : List UInt8} {copies : List ExecArg}
      (halloc : kmalloc m (string.length + 1) = .ok (block, m₁)) (hne : block ≠ 0)
      (hrest : Copies m₁ copies m') : Copies m (⟨block, string⟩ :: copies) m'

/-- The strings that entries `i` and up point to. -/
def ArgumentsFrom (m : Mm) (directory argv i : Nat) (copies : List ExecArg) : Prop :=
  ∀ j copy, copies[j]? = some copy → Argument m directory argv (i + j) copy.string

/-- There is a `NULL` within `n` entries from `i` on, the entries before it point to strings, and the
copies of the strings can be allocated. -/
structure Accepted (m : Mm) (directory argv i n : Nat) (m₁ : Mm) (copies : List ExecArg) (m' : Mm) :
    Prop where
  few : copies.length < n
  arguments : ArgumentsFrom m directory argv i copies
  last : ArgvEntry m directory argv (i + copies.length) 0
  copied : Copies m₁ copies m'

/-- Within `n` entries from `i` on there is one the string of which finds the heap stranded; the entries
before it point to strings, and the copies of those can be allocated. -/
def StrandedCopy (m : Mm) (directory argv i n : Nat) (m₁ : Mm) : Prop :=
  ∃ copies string m', copies.length < n ∧ ArgumentsFrom m directory argv i copies ∧
    Argument m directory argv (i + copies.length) string ∧ Copies m₁ copies m' ∧
    Stranded m' (heapAlign (string.length + 1))

section Entries

variable {m m₁ m₂ m' : Mm} {d argv i n virt pointer block len : Nat} {string chars : List UInt8}
  {copies : List ExecArg}

theorem ArgvEntry.unique {pointer' : Nat} (h : ArgvEntry m d argv i pointer)
    (h' : ArgvEntry m d argv i pointer') : pointer = pointer' :=
  Except.ok.inj (h.value.symm.trans h'.value)

theorem ArgumentString.unique {chars' : List UInt8} (h : ArgumentString m d virt chars)
    (h' : ArgumentString m d virt chars') : chars = chars' := by
  have hlen : chars.length = chars'.length := by
    rcases Nat.lt_trichotomy chars.length chars'.length with hlt | heq | hgt
    · exact absurd h.string.terminated (h'.string.chars _ hlt)
    · exact heq
    · exact absurd h'.string.terminated (h.string.chars _ hgt)
  apply List.ext_getElem hlen
  intro k hk hk'
  exact Except.ok.inj ((h.read k hk).symm.trans (h'.read k hk'))

theorem Argument.unique {string' : List UInt8} (h : Argument m d argv i string)
    (h' : Argument m d argv i string') : string = string' := by
  obtain ⟨pointer, -, hentry, hstring⟩ := h
  obtain ⟨pointer', -, hentry', hstring'⟩ := h'
  cases hentry.unique hentry'
  exact hstring.unique hstring'

/-- An entry that points to a string is not the `NULL`. -/
theorem Argument.not_null (h : Argument m d argv i string) : ¬ ArgvEntry m d argv i 0 := by
  intro hnull
  obtain ⟨pointer, hne, hentry, -⟩ := h
  exact hne (hentry.unique hnull)

theorem argumentsFrom_nil : ArgumentsFrom m d argv i [] := by
  intro j copy hj
  cases hj

theorem argumentsFrom_cons {copy : ExecArg} :
    ArgumentsFrom m d argv i (copy :: copies) ↔
      Argument m d argv i copy.string ∧ ArgumentsFrom m d argv (i + 1) copies := by
  constructor
  · intro h
    refine ⟨h 0 copy rfl, fun j c hj => ?_⟩
    have hnext := h (j + 1) c hj
    rwa [← Nat.add_assoc, Nat.add_right_comm] at hnext
  · rintro ⟨hfirst, hrest⟩ j c hj
    cases j with
    | zero =>
        cases hj
        exact hfirst
    | succ j =>
        rw [← Nat.add_assoc, Nat.add_right_comm]
        exact hrest j c hj

/-- The arguments end here, or the first is copied and the others are accepted. -/
theorem accepted_iff :
    Accepted m d argv i (n + 1) m₁ copies m' ↔
      copies = [] ∧ m' = m₁ ∧ ArgvEntry m d argv i 0 ∨
      ∃ block string rest m₂, copies = ⟨block, string⟩ :: rest ∧ Argument m d argv i string ∧
        kmalloc m₁ (string.length + 1) = .ok (block, m₂) ∧ block ≠ 0 ∧
        Accepted m d argv (i + 1) n m₂ rest m' := by
  constructor
  · intro h
    obtain ⟨hfew, harguments, hlast, hcopied⟩ := h
    cases hcopied with
    | nil => exact .inl ⟨rfl, rfl, hlast⟩
    | cons halloc hne hrest =>
        obtain ⟨hfirst, hothers⟩ := argumentsFrom_cons.mp harguments
        rw [List.length_cons] at hfew hlast
        refine .inr ⟨_, _, _, _, rfl, hfirst, halloc, hne, by omega, hothers, ?_, hrest⟩
        rwa [Nat.add_assoc, Nat.add_comm 1]
  · intro h
    rcases h with ⟨rfl, rfl, hlast⟩ | ⟨block, string, rest, m₂, rfl, hfirst, halloc, hne, h⟩
    · exact ⟨Nat.succ_pos n, argumentsFrom_nil, hlast, .nil _⟩
    · have hfew := h.few
      have hlast := h.last
      refine ⟨Nat.succ_lt_succ hfew, argumentsFrom_cons.mpr ⟨hfirst, h.arguments⟩, ?_,
        .cons halloc hne h.copied⟩
      rwa [Nat.add_assoc, Nat.add_comm 1] at hlast

theorem strandedCopy_iff :
    StrandedCopy m d argv i (n + 1) m₁ ↔ ∃ string, Argument m d argv i string ∧
      (Stranded m₁ (heapAlign (string.length + 1)) ∨ ∃ block m₂,
        kmalloc m₁ (string.length + 1) = .ok (block, m₂) ∧ block ≠ 0 ∧
        StrandedCopy m d argv (i + 1) n m₂) := by
  constructor
  · intro h
    obtain ⟨copies, string, m', hfew, harguments, hnext, hcopied, hstranded⟩ := h
    cases hcopied with
    | nil => exact ⟨string, hnext, .inl hstranded⟩
    | cons halloc hne hrest =>
        obtain ⟨hfirst, hothers⟩ := argumentsFrom_cons.mp harguments
        rw [List.length_cons] at hfew hnext
        refine ⟨_, hfirst, .inr ⟨_, _, halloc, hne, _, string, m', by omega, hothers, ?_, hrest,
          hstranded⟩⟩
        rwa [Nat.add_assoc, Nat.add_comm 1]
  · intro h
    obtain ⟨string, hfirst, hstranded | ⟨block, m₂, halloc, hne, h⟩⟩ := h
    · exact ⟨[], string, m₁, Nat.succ_pos n, argumentsFrom_nil, hfirst, .nil _, hstranded⟩
    · obtain ⟨copies, next, m', hfew, hothers, hnext, hcopied, hstranded⟩ := h
      refine ⟨⟨block, string⟩ :: copies, next, m', Nat.succ_lt_succ hfew,
        argumentsFrom_cons.mpr ⟨hfirst, hothers⟩, ?_, .cons halloc hne hcopied, hstranded⟩
      rwa [Nat.add_assoc, Nat.add_comm 1] at hnext

/-- The word is made of the four bytes. -/
theorem readWord_returns (hok : ∀ k < 4, UserAccessible m d (virt + k)) :
    ∃ w, (User.readWord m d virt).result = .ok w ∧ w < wordModulus ∧
      ∀ m', (∀ k < 4, m'.readByte d (virt + k) = m.readByte d (virt + k)) →
        (User.readWord m' d virt).result = .ok w := by
  have hwrap : ∀ k < 4, (virt + k) % wordModulus = virt + k := fun k hk =>
    Nat.mod_eq_of_lt (hok k hk).1
  obtain ⟨b0, h0⟩ := (hok 0 (by omega)).readByte
  obtain ⟨b1, h1⟩ := (hok 1 (by omega)).readByte
  obtain ⟨b2, h2⟩ := (hok 2 (by omega)).readByte
  obtain ⟨b3, h3⟩ := (hok 3 (by omega)).readByte
  rw [Nat.add_zero] at h0
  have hread : ∀ m', (∀ k < 4, m'.readByte d (virt + k) = m.readByte d (virt + k)) →
      (User.readWord m' d virt).result =
        .ok (b0.toNat + 0x100 * b1.toNat + 0x10000 * b2.toNat + 0x1000000 * b3.toNat) := by
    intro m' hsame
    have hfirst := hsame 0 (by omega)
    rw [Nat.add_zero] at hfirst
    unfold User.readWord
    simp only [result_bind, User.readByte_result, hwrap 1 (by omega), hwrap 2 (by omega),
      hwrap 3 (by omega), hfirst, hsame 1 (by omega), hsame 2 (by omega), hsame 3 (by omega), h0, h1, h2,
      h3, ok_bind, result_pure]
  refine ⟨_, hread m fun _ _ => rfl, ?_, hread⟩
  have hb0 := b0.toNat_lt
  have hb1 := b1.toNat_lt
  have hb2 := b2.toNat_lt
  have hb3 := b3.toNat_lt
  simp only [wordModulus]
  omega

/-- A string ends at its first `NUL`. -/
theorem UserStringAt.userString (h : UserStringAt m d virt) : ∃ len, UserString m d virt len := by
  obtain ⟨n, hend, haccess, hzero⟩ := h
  induction n using Nat.strongRecOn with
  | ind n ih =>
      by_cases hearlier : ∃ k < n, m.readByte d (virt + k) = .ok 0
      · obtain ⟨k, hk, hnul⟩ := hearlier
        exact ih k hk (by omega) (fun j hj => haccess j (by omega)) hnul
      · refine ⟨n, haccess, hzero, fun k hk hnul => hearlier ⟨k, hk, hnul⟩, ?_⟩
        simp only [userVirtEnd, kernelVirtBase] at *
        omega

end Entries

/-! ## The loop -/

/-- The caller's directory, and the heap between two calls. -/
structure CallerReady (m : Mm) (use : Nat → Use) (directory : Nat) : Prop where
  ready : HeapReady m use
  use_eq : use directory = .directory
  other : directory ≠ m.kernelDirectory
  memory : CallerMemory m directory
  blocks : ∃ a, Blocks a m.heap m.heapEnd

section Loop

variable {m m₁ m₂ m' : Mm} {use use₁ : Nat → Use} {d argv i n virt pointer block size : Nat}
  {string : List UInt8} {copies rest : List ExecArg}

theorem CallerReady.spares (h : CallerReady m use d) (hm : kmalloc m size = .ok (block, m')) :
    Spares m m' := kmalloc_spares h.memory.heapEnd h.memory.totalPages hm

/-- `kmalloc` leaves the caller's directory alone. -/
theorem CallerReady.kmalloc (h : CallerReady m use d) (hm : kmalloc m size = .ok (block, m')) :
    ∃ use', CallerReady m' use' d := by
  obtain ⟨use', hready, habsorbs, -⟩ := h.ready.kmalloc hm
  obtain ⟨a, hblocks⟩ := h.blocks
  refine ⟨use', hready, ?_, ?_, h.memory.spares (h.spares hm), a, ?_⟩
  · rw [habsorbs.keeps (by rw [h.use_eq]; simp)]
    exact h.use_eq
  · rw [habsorbs.kernelDirectory]
    exact h.other
  · exact kmalloc_blocks hblocks h.memory.heapEnd hready.region hm

/-- The next entry is in the address space, too. -/
theorem ArgvEntry.next (hc : CallerMemory m d) (he : ArgvEntry m d argv i pointer) :
    argv + 4 * (i + 1) < wordModulus := by
  have hbelow := hc.below (he.accessible 3 (by omega))
  simp only [kernelVirtBase, wordModulus] at *
  omega

theorem ArgvEntry.read (hc : CallerMemory m d) (hs : Spares m m₁) (he : ArgvEntry m d argv i pointer) :
    (User.readWord m₁ d (argv + 4 * i)).result = .ok pointer ∧ pointer < wordModulus := by
  obtain ⟨w, hread, hlt, hsame⟩ := readWord_returns he.accessible
  obtain rfl : pointer = w := Except.ok.inj (he.value.symm.trans hread)
  refine ⟨hsame m₁ fun k hk => ?_, hlt⟩
  exact hc.readByte_eq hs (he.accessible k hk)

/-- Copies have been made one after the other, and then one may have been refused. -/
def Attempted (m : Mm) (copies : List ExecArg) (m' : Mm) : Prop :=
  ∃ m₁, Copies m copies m₁ ∧ (m' = m₁ ∨ ∃ size, kmalloc m₁ size = .ok (0, m'))

theorem Attempted.cons (halloc : kmalloc m (string.length + 1) = .ok (block, m₁)) (hne : block ≠ 0)
    (h : Attempted m₁ copies m') : Attempted m (⟨block, string⟩ :: copies) m' := by
  obtain ⟨m₂, hcopied, hlast⟩ := h
  exact ⟨m₂, .cons halloc hne hcopied, hlast⟩

/-- What comes of `n` more iterations. -/
inductive LoopOutcome (m : Mm) (d argv : Nat) (copies : List ExecArg) (n : Nat) (m₁ : Mm) :
    Except Stop (Bool × List ExecArg × Mm) → Prop where
  | accepted {rest : List ExecArg} {m' : Mm} (h : Accepted m d argv copies.length n m₁ rest m')
      (hnot : ¬ StrandedCopy m d argv copies.length n m₁) :
      LoopOutcome m d argv copies n m₁ (.ok (true, copies ++ rest, m'))
  | failed {rest : List ExecArg} {m' : Mm} (hfew : rest.length ≤ n) (hmade : Attempted m₁ rest m')
      (h : ∀ rest m', ¬ Accepted m d argv copies.length n m₁ rest m')
      (hnot : ¬ StrandedCopy m d argv copies.length n m₁) :
      LoopOutcome m d argv copies n m₁ (.ok (false, copies ++ rest, m'))
  | stopped {e : Stop} (h : StrandedCopy m d argv copies.length n m₁) :
      LoopOutcome m d argv copies n m₁ (.error e)

/-- A string has been copied; the rest is up to the iterations that are left. -/
theorem LoopOutcome.copied {x : Except Stop (Bool × List ExecArg × Mm)}
    (harg : Argument m d argv copies.length string)
    (halloc : Neox.kmalloc m₁ (string.length + 1) = .ok (block, m₂)) (hne : block ≠ 0)
    (hnot : ¬ Stranded m₁ (heapAlign (string.length + 1)))
    (h : LoopOutcome m d argv (copies ++ [⟨block, string⟩]) n m₂ x) :
    LoopOutcome m d argv copies (n + 1) m₁ x := by
  have hlen : (copies ++ [(⟨block, string⟩ : ExecArg)]).length = copies.length + 1 := by
    rw [List.length_append, List.length_singleton]
  have hstranded : StrandedCopy m d argv copies.length (n + 1) m₁ ↔
      StrandedCopy m d argv (copies.length + 1) n m₂ := by
    rw [strandedCopy_iff]
    constructor
    · intro hcopy
      obtain ⟨string', harg', hnow | ⟨block', m₃, halloc', -, hlater⟩⟩ := hcopy
      · cases harg.unique harg'
        exact absurd hnow hnot
      · cases harg.unique harg'
        rw [halloc] at halloc'
        cases halloc'
        exact hlater
    · intro hlater
      exact ⟨string, harg, .inr ⟨block, m₂, halloc, hne, hlater⟩⟩
  have haccepted : ∀ rest m', Accepted m d argv (copies.length + 1) n m₂ rest m' →
      Accepted m d argv copies.length (n + 1) m₁ (⟨block, string⟩ :: rest) m' := fun rest m' hrest =>
    accepted_iff.mpr (.inr ⟨block, string, rest, m₂, rfl, harg, halloc, hne, hrest⟩)
  cases h with
  | accepted hrest hnone =>
      rw [hlen] at hrest hnone
      rw [List.append_assoc]
      exact .accepted (haccepted _ _ hrest) fun hcopy => hnone (hstranded.mp hcopy)
  | failed hfew hmade hrest hnone =>
      rw [hlen] at hrest hnone
      rw [List.append_assoc]
      refine .failed (Nat.succ_le_succ hfew) (.cons halloc hne hmade) (fun rest m' h => ?_)
        fun hcopy => hnone (hstranded.mp hcopy)
      rcases accepted_iff.mp h with ⟨-, -, hlast⟩ | ⟨block', string', rest', m₃, -, harg', halloc', -, h⟩
      · exact harg.not_null hlast
      · cases harg.unique harg'
        rw [halloc] at halloc'
        cases halloc'
        exact hrest rest' m' h
  | stopped hcopy =>
      rw [hlen] at hcopy
      exact .stopped (hstranded.mpr hcopy)

/-- The copies are blocks in use with room for their strings, and otherwise the same blocks are in use. -/
def HoldsCopies (m : Mm) (copies : List ExecArg) (m' : Mm) : Prop :=
  ∃ blocks, List.Forall₂ (fun (b : HeapBlock) (copy : ExecArg) =>
      b.data = copy.block ∧ copy.string.length + 1 ≤ b.size) blocks copies ∧
    (inUse m'.heap).Perm (blocks ++ inUse m.heap)

theorem Copies.ready (h : CallerReady m use d) (hcopied : Copies m copies m') :
    ∃ use', CallerReady m' use' d := by
  induction hcopied generalizing use with
  | nil => exact ⟨use, h⟩
  | cons halloc _ _ ih =>
      obtain ⟨use₁, h₁⟩ := h.kmalloc halloc
      exact ih h₁

theorem Copies.holds (h : Copies m copies m') : HoldsCopies m copies m' := by
  induction h with
  | nil => exact ⟨[], .nil, .refl _⟩
  | cons halloc hne _ ih =>
      obtain ⟨b, hdata, hsize, hfirst⟩ := kmalloc_block halloc hne
      obtain ⟨blocks, hblocks, hperm⟩ := ih
      refine ⟨b :: blocks, .cons ⟨hdata, hsize⟩ hblocks, hperm.trans ?_⟩
      exact (hfirst.append_left blocks).trans List.perm_middle

/-- A refused request changes nothing of this. -/
theorem Attempted.ready (h : CallerReady m use d) (hmade : Attempted m copies m') :
    HoldsCopies m copies m' ∧ ∃ use', CallerReady m' use' d := by
  obtain ⟨m₁, hcopied, hlast⟩ := hmade
  obtain ⟨use₁, h₁⟩ := hcopied.ready h
  rcases hlast with rfl | ⟨size, hrefused⟩
  · exact ⟨hcopied.holds, use₁, h₁⟩
  · refine ⟨?_, h₁.kmalloc hrefused⟩
    have hsame : inUse m'.heap = inUse m₁.heap := by
      rcases kmalloc_inUse hrefused with ⟨-, hsame⟩ | ⟨b, hdata, -⟩
      · exact hsame
      · simp only [HeapBlock.data, heapHeader] at hdata
        omega
    unfold HoldsCopies
    rw [hsame]
    exact hcopied.holds

/-- Each copy is a block of its own. -/
theorem HoldsCopies.nodup (hb : ∃ a, Blocks a m'.heap m'.heapEnd) (h : HoldsCopies m copies m') :
    (copies.map ExecArg.block).Nodup := by
  obtain ⟨a, hb⟩ := hb
  obtain ⟨blocks, hblocks, hperm⟩ := h
  have hmap : blocks.map HeapBlock.data = copies.map ExecArg.block := by
    clear hperm
    induction hblocks with
    | nil => rfl
    | cons hfirst _ ih => rw [List.map_cons, List.map_cons, hfirst.1, ih]
  have hused : ((inUse m'.heap).map HeapBlock.data).Nodup :=
    hb.data_nodup.sublist (List.filter_sublist.map _)
  have hall := (hperm.map HeapBlock.data).nodup_iff.mp hused
  rw [List.map_append, hmap] at hall
  exact hall.of_append_left

end Loop

/-! ## A page of arguments -/

/-- What the process has at 0x400000. -/
structure ArgvMapped (m : Mm) : Prop where
  page : ∃ e, m.pte 282 0x400 = some e ∧ userAccess e = true
  first : (User.readWord m 282 0x400000).result = .ok 0x400010
  second : (User.readWord m 282 0x400004).result = .ok 0
  char : m.readByte 282 0x400010 = .ok 0x61
  nul : m.readByte 282 0x400011 = .ok 0

section Mapped

variable {m m' : Mm}

theorem ArgvMapped.accessible {virt : Nat} (h : ArgvMapped m) (hpage : virt / pageSize = 0x400) :
    UserAccessible m 282 virt := by
  refine ⟨?_, ?_⟩
  · simp only [pageSize, wordModulus] at *
    omega
  · rw [hpage]
    exact h.page

theorem ArgvMapped.argument (h : ArgvMapped m) : Argument m 282 0x400000 0 [0x61] := by
  have hpage : ∀ k < pageSize, UserAccessible m 282 (0x400000 + k) := fun k hk => h.accessible (by
    simp only [pageSize] at *
    omega)
  refine ⟨0x400010, by decide, ⟨fun k hk => hpage k ?_, h.first⟩, ⟨fun k hk => ?_, h.nul, fun k hk => ?_,
    by decide⟩, by decide, fun k hk => ?_⟩
  · simp only [pageSize]
    omega
  · rw [List.length_singleton] at hk
    rw [Nat.add_assoc 0x400000 0x10]
    apply hpage
    simp only [pageSize]
    omega
  · obtain rfl : k = 0 := Nat.lt_one_iff.mp hk
    rw [Nat.add_zero, h.char]
    intro heq
    cases heq
  · obtain rfl : k = 0 := Nat.lt_one_iff.mp hk
    exact h.char

theorem ArgvMapped.last (h : ArgvMapped m) : ArgvEntry m 282 0x400000 1 0 := by
  refine ⟨fun k hk => h.accessible ?_, h.second⟩
  simp only [pageSize]
  omega

/-- The heap's growth leaves the page of arguments alone. -/
theorem ArgvMapped.spares (h : ArgvMapped m) (hc : CallerMemory m 282) (hs : Spares m m') :
    ArgvMapped m' where
  page := by
    rw [hc.pte_eq hs (by decide)]
    exact h.page
  first := by
    have hentry : ArgvEntry m 282 0x400000 0 0x400010 := by
      obtain ⟨pointer, -, he, -⟩ := h.argument
      obtain rfl : pointer = 0x400010 := Except.ok.inj (he.value.symm.trans h.first)
      exact he
    exact (hentry.read hc hs).1
  second := (h.last.read hc hs).1
  char := by
    rw [hc.readByte_eq hs (h.accessible (by decide))]
    exact h.char
  nul := by
    rw [hc.readByte_eq hs (h.accessible (by decide))]
    exact h.nul

end Mapped

end Neox
