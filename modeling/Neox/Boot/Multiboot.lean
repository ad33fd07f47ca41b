import Neox.Fs.Mount

/-!
# The tags of the boot information

`boot/multiboot2.c`. A tag is named by its offset from `boot_info`, modulo `2 ^ 32`; tags are at
multiples of 8, so that the words of a tag's header do not wrap. Every read is reported. No function
looks at `total_size`.

* `Multiboot.returns_iff`: which blocks a walk ends in, without a read outside.
* `multiboot_tag_walk`: what the two walks return, on any block and on one that holds tags.
-/

namespace Neox

open Bytes Traced

/-- `MULTIBOOT_TAG_TYPE_END`. -/
abbrev multibootTagTypeEnd : Nat := 0

/-- `MULTIBOOT_TAG_TYPE_MODULE`. -/
abbrev multibootTagTypeModule : Nat := 3

/-- The bound on the steps of a walk is reached. -/
inductive WalkStop
  | fuel
  deriving DecidableEq, Repr

/-- Code that reads the block. -/
abbrev BootM := Traced WalkStop FsRead

namespace Multiboot

/-! ## `multiboot2.c` -/

/-- `multiboot2_total_size`. -/
def totalSize (block : Block) : Nat := read32 block 0

/-- The block for `strcmp`. -/
def bytes (block : Block) : Fs := { image := block, imageSize := totalSize block, superblock := false }

/-- A word of the block is read. -/
def load (block : Block) (offset : Nat) : BootM Nat := fetch (.load offset 4) (read32 block offset)

/-- `strcmp(cmdline, name)`, where `cmdline` is at an offset of the block. -/
def compare (block : Block) (cmdline : Nat) (name : List UInt8) : BootM Int :=
  let x := (bytes block).strcmp 0 cmdline name
  ⟨x.events, .ok x.value⟩

/-- `multiboot2_first_tag`. -/
def firstTag : Nat := 8

/-- `multiboot2_next_tag`, of a tag of this size. -/
def nextTag (tag size : Nat) : Nat := (tag + (size + 7) % wordModulus / 8 * 8) % wordModulus

/-- The loop of the two searches, over at most `fuel` tags; `wanted` is its test of a tag. -/
def findFrom (block : Block) (wanted : Nat → Nat → BootM Bool) : Nat → Nat → BootM (Option Nat)
  | 0, _ => silent (.error .fuel)
  | fuel + 1, tag => do
      let type ← load block tag
      if type = multibootTagTypeEnd then return none
      else if ← wanted type tag then return some tag
      else do
        let size ← load block (tag + 4)
        findFrom block wanted fuel (nextTag tag size)

/-- The test of `multiboot2_find_tag`. -/
def isType (type : Nat) (tagType _ : Nat) : BootM Bool := return tagType = type

/-- `multiboot2_find_tag`. -/
def findTag (block : Block) (type fuel : Nat) : BootM (Option Nat) :=
  findFrom block (isType type) fuel firstTag

/-- The test of `multiboot2_find_module`. -/
def isModule (block : Block) (name : List UInt8) (tagType tag : Nat) : BootM Bool :=
  if tagType = multibootTagTypeModule then do
    let difference ← compare block ((tag + 16) % wordModulus) name
    return difference = 0
  else return false

/-- `multiboot2_find_module`. -/
def findModule (block : Block) (name : List UInt8) (fuel : Nat) : BootM (Option Nat) :=
  findFrom block (isModule block name) fuel firstTag

/-! ## Walks inside the block -/

/-- Bytes of the block are read. -/
abbrev Inside (block : Block) : FsRead → Prop := (bytes block).Within 0

/-- With some bound the code returns `r`, and it has read bytes of the block only. -/
def Returns (block : Block) (search : Nat → BootM (Option Nat)) (r : Option Nat) : Prop :=
  ∃ fuel, (search fuel).result = .ok r ∧ Reports (Inside block) (search fuel)

/-- From a tag on, the tags that follow each other by their sizes come to the end, or to a tag that is
wanted; every header on the way is in the block, and so is what the test of a tag reads. -/
inductive Leads (block : Block) (wanted clean : Nat → Prop) : Nat → Option Nat → Prop
  | stop {tag} : tag + 4 ≤ totalSize block → read32 block tag = multibootTagTypeEnd →
      Leads block wanted clean tag none
  | found {tag} : tag + 4 ≤ totalSize block → read32 block tag ≠ multibootTagTypeEnd → clean tag →
      wanted tag → Leads block wanted clean tag (some tag)
  | next {tag r} : tag + 8 ≤ totalSize block → read32 block tag ≠ multibootTagTypeEnd → clean tag →
      ¬ wanted tag → Leads block wanted clean (nextTag tag (read32 block (tag + 4))) r →
      Leads block wanted clean tag r

/-- A tag of this type. -/
def OfType (block : Block) (type tag : Nat) : Prop := read32 block tag = type

/-- A module with this command line. -/
def Names (block : Block) (name : List UInt8) (tag : Nat) : Prop :=
  read32 block tag = multibootTagTypeModule ∧
    (bytes block).Spells ((tag + 16) % wordModulus) name

/-- The command line of a module ends or differs from the name in the block. -/
def Comparable (block : Block) (name : List UInt8) (tag : Nat) : Prop :=
  read32 block tag = multibootTagTypeModule → (bytes block).Ends ((tag + 16) % wordModulus) name

section Walk

variable {block : Block} {tag n : Nat} {r : Option Nat} {name : List UInt8}

theorem inside_load : Inside block (.load tag 4) ↔ tag + 4 ≤ totalSize block := by
  constructor
  · intro ⟨_, h⟩
    have h : tag + 4 ≤ 0 + totalSize block := h
    omega
  · intro h
    refine ⟨Nat.zero_le _, ?_⟩
    show tag + 4 ≤ 0 + totalSize block
    omega

/-- What a test of a tag does. -/
structure Tests (block : Block) (test : Nat → Nat → BootM Bool) (wanted clean : Nat → Prop) : Prop where
  returns : ∀ tag, ∃ b, (test (read32 block tag) tag).result = .ok b ∧ (b = true ↔ wanted tag)
  reports : ∀ tag, Reports (Inside block) (test (read32 block tag) tag) ↔ clean tag

theorem tests_isType (block : Block) (type : Nat) :
    Tests block (isType type) (OfType block type) fun _ => True where
  returns _ := ⟨_, rfl, decide_eq_true_iff⟩
  reports _ := iff_of_true reports_pure trivial

theorem tests_isModule (block : Block) (name : List UInt8) :
    Tests block (isModule block name) (Names block name) (Comparable block name) where
  returns tag := by
    have hequal : ((bytes block).strcmp 0 ((tag + 16) % wordModulus) name).value = 0 ↔
        (bytes block).Spells ((tag + 16) % wordModulus) name := Fs.strcmp_eq_zero
    unfold isModule Names
    by_cases hmodule : read32 block tag = multibootTagTypeModule
    · rw [if_pos hmodule, and_iff_right hmodule, ← hequal]
      exact ⟨_, rfl, decide_eq_true_iff⟩
    · rw [if_neg hmodule]
      exact ⟨false, rfl, iff_of_false (by decide) fun h => hmodule h.1⟩
  reports tag := by
    have hends : Reports (Inside block) ((bytes block).strcmp 0 ((tag + 16) % wordModulus) name) ↔
        (bytes block).Ends ((tag + 16) % wordModulus) name := Fs.strcmp_reports
    unfold isModule Comparable
    by_cases hmodule : read32 block tag = multibootTagTypeModule
    · rw [if_pos hmodule, imp_iff_right hmodule, ← hends, reports_bind]
      exact and_iff_left fun _ _ => reports_pure
    · rw [if_neg hmodule]
      exact iff_of_true reports_pure fun h => absurd h hmodule

section Step

variable {test : Nat → Nat → BootM Bool} {wanted clean : Nat → Prop}

theorem findFrom_succ (block : Block) (test : Nat → Nat → BootM Bool) (n tag : Nat) :
    findFrom block test (n + 1) tag = fetch (.load tag 4) (read32 block tag) >>= fun type =>
      if type = multibootTagTypeEnd then pure none
      else test type tag >>= fun b =>
        if b = true then pure (some tag)
        else fetch (.load (tag + 4) 4) (read32 block (tag + 4)) >>= fun size =>
          findFrom block test n (nextTag tag size) := rfl

/-- The walk stops at the end of the tags. -/
theorem findFrom_stop (hend : read32 block tag = multibootTagTypeEnd) :
    (findFrom block test (n + 1) tag).result = .ok none ∧
      (Reports (Inside block) (findFrom block test (n + 1) tag) ↔ tag + 4 ≤ totalSize block) := by
  rw [findFrom_succ, hend, reports_fetch_bind, inside_load]
  exact ⟨rfl, and_iff_left reports_pure⟩

/-- The walk stops at a tag that is wanted. -/
theorem findFrom_found (ht : Tests block test wanted clean)
    (hend : read32 block tag ≠ multibootTagTypeEnd) (hwanted : wanted tag) :
    (findFrom block test (n + 1) tag).result = .ok (some tag) ∧
      (Reports (Inside block) (findFrom block test (n + 1) tag) ↔
        tag + 4 ≤ totalSize block ∧ clean tag) := by
  obtain ⟨b, hresult, hb⟩ := ht.returns tag
  obtain rfl : b = true := hb.mpr hwanted
  rw [findFrom_succ, result_fetch_bind, reports_fetch_bind, inside_load, if_neg hend, result_bind, hresult,
    reports_bind, ht.reports]
  refine ⟨rfl, and_congr_right fun _ => and_iff_left fun b' hb' => ?_⟩
  obtain rfl : true = b' := Except.ok.inj (hresult.symm.trans hb')
  exact reports_pure

/-- The walk goes on from another tag. -/
theorem findFrom_next (ht : Tests block test wanted clean)
    (hend : read32 block tag ≠ multibootTagTypeEnd) (hwanted : ¬ wanted tag) :
    (findFrom block test (n + 1) tag).result =
        (findFrom block test n (nextTag tag (read32 block (tag + 4)))).result ∧
      (Reports (Inside block) (findFrom block test (n + 1) tag) ↔
        tag + 8 ≤ totalSize block ∧ clean tag ∧
          Reports (Inside block) (findFrom block test n (nextTag tag (read32 block (tag + 4))))) := by
  obtain ⟨b, hresult, hb⟩ := ht.returns tag
  obtain rfl : b = false := Bool.eq_false_iff.mpr fun h => hwanted (hb.mp h)
  rw [findFrom_succ, result_fetch_bind, reports_fetch_bind, inside_load, if_neg hend, result_bind, hresult,
    reports_bind, ht.reports]
  refine ⟨rfl, ?_⟩
  constructor
  · intro ⟨_, hclean, hrest⟩
    have hrest := hrest false hresult
    rw [if_neg (by decide), reports_fetch_bind, inside_load] at hrest
    exact ⟨hrest.1, hclean, hrest.2⟩
  · intro ⟨hheader, hclean, hrest⟩
    refine ⟨by omega, hclean, fun b' hb' => ?_⟩
    obtain rfl : false = b' := Except.ok.inj (hresult.symm.trans hb')
    rw [if_neg (by decide), reports_fetch_bind, inside_load]
    exact ⟨hheader, hrest⟩

/-- A search that ends inside the block is a walk that leads to what it returns. -/
theorem leads_of_findFrom (ht : Tests block test wanted clean)
    (hresult : (findFrom block test n tag).result = .ok r)
    (hreports : Reports (Inside block) (findFrom block test n tag)) :
    Leads block wanted clean tag r := by
  induction n generalizing tag with
  | zero => cases hresult
  | succ n ih =>
      by_cases hend : read32 block tag = multibootTagTypeEnd
      · obtain ⟨hnone, hinside⟩ := findFrom_stop (n := n) hend
        obtain rfl : none = r := Except.ok.inj (hnone.symm.trans hresult)
        exact .stop (hinside.mp hreports) hend
      by_cases hwanted : wanted tag
      · obtain ⟨hfound, hinside⟩ := findFrom_found (n := n) ht hend hwanted
        obtain rfl : some tag = r := Except.ok.inj (hfound.symm.trans hresult)
        obtain ⟨hheader, hclean⟩ := hinside.mp hreports
        exact .found hheader hend hclean hwanted
      · obtain ⟨hsame, hinside⟩ := findFrom_next (n := n) ht hend hwanted
        obtain ⟨hheader, hclean, hrest⟩ := hinside.mp hreports
        exact .next hheader hend hclean hwanted (ih (hsame.symm.trans hresult) hrest)

/-- A walk that leads somewhere is a search that ends. -/
theorem findFrom_of_leads (ht : Tests block test wanted clean) (h : Leads block wanted clean tag r) :
    ∃ fuel, (findFrom block test fuel tag).result = .ok r ∧
      Reports (Inside block) (findFrom block test fuel tag) := by
  induction h with
  | stop hheader hend =>
      obtain ⟨hnone, hinside⟩ := findFrom_stop (n := 0) hend
      exact ⟨1, hnone, hinside.mpr hheader⟩
  | found hheader hend hclean hwanted =>
      obtain ⟨hfound, hinside⟩ := findFrom_found (n := 0) ht hend hwanted
      exact ⟨1, hfound, hinside.mpr ⟨hheader, hclean⟩⟩
  | next hheader hend hclean hwanted _ ih =>
      obtain ⟨fuel, hresult, hreports⟩ := ih
      obtain ⟨hsame, hinside⟩ := findFrom_next (n := fuel) ht hend hwanted
      exact ⟨fuel + 1, hsame.trans hresult, hinside.mpr ⟨hheader, hclean, hreports⟩⟩

end Step

theorem findTag_returns_iff (block : Block) (type : Nat) (r : Option Nat) :
    Returns block (findTag block type) r ↔
      Leads block (OfType block type) (fun _ => True) firstTag r :=
  ⟨fun ⟨_, hresult, hreports⟩ => leads_of_findFrom (tests_isType block type) hresult hreports,
    findFrom_of_leads (tests_isType block type)⟩

theorem findModule_returns_iff (block : Block) (name : List UInt8) (r : Option Nat) :
    Returns block (findModule block name) r ↔
      Leads block (Names block name) (Comparable block name) firstTag r :=
  ⟨fun ⟨_, hresult, hreports⟩ => leads_of_findFrom (tests_isModule block name) hresult hreports,
    findFrom_of_leads (tests_isModule block name)⟩

/-! ## Blocks that hold tags -/

/-- A tag: its type, and what follows its header. -/
structure Tag where
  type : Nat
  payload : List UInt8

namespace Tag

/-- `size`, the header included. -/
def size (t : Tag) : Nat := 8 + t.payload.length

/-- The bytes from this tag to the next. -/
def extent (t : Tag) : Nat := (t.size + 7) / 8 * 8

/-- `cmdline` of a module, after `mod_start` and `mod_end`. -/
def cmdline (t : Tag) : List UInt8 := (t.payload.drop 8).takeWhile (· ≠ 0)

/-- The tag is not the end, and the command line of a module has a terminator. -/
def WellFormed (t : Tag) : Prop :=
  t.type ≠ multibootTagTypeEnd ∧ (t.type = multibootTagTypeModule → 0 ∈ t.payload.drop 8)

end Tag

/-- From an offset on, the block holds these tags, each padded to 8 bytes, and the end. -/
def HoldsTags (block : Block) (offset : Nat) : List Tag → Prop
  | [] => read32 block offset = multibootTagTypeEnd ∧ read32 block (offset + 4) = 8 ∧
      offset + 8 ≤ totalSize block
  | t :: tags => t.WellFormed ∧ read32 block offset = t.type ∧ read32 block (offset + 4) = t.size ∧
      (∀ k (h : k < t.payload.length), block (offset + 8 + k) = t.payload.get ⟨k, h⟩) ∧
      HoldsTags block (offset + t.extent) tags

/-- Where the first of the tags that is wanted is. -/
def firstOffset (wanted : Tag → Bool) (offset : Nat) : List Tag → Option Nat
  | [] => none
  | t :: tags => if wanted t then some offset else firstOffset wanted (offset + t.extent) tags

/-- The tag is a module with this command line. -/
def Tag.isNamed (name : List UInt8) (t : Tag) : Bool :=
  t.type = multibootTagTypeModule ∧ t.cmdline = name.takeWhile (· ≠ 0)

section Encoded

variable {offset : Nat} {tags : List Tag} {t : Tag} {wanted clean : Nat → Prop} {first : Tag → Bool}

theorem HoldsTags.le (h : HoldsTags block offset tags) : offset + 8 ≤ totalSize block := by
  induction tags generalizing offset with
  | nil => exact h.2.2
  | cons t tags ih =>
      have hrest := ih h.2.2.2.2
      omega

theorem Tag.size_le_extent (t : Tag) : t.size ≤ t.extent := by
  unfold Tag.extent
  omega

theorem totalSize_lt (block : Block) : totalSize block < wordModulus := read32_lt block 0

/-- The next tag is after this one and its padding. -/
theorem nextTag_size (h : offset + t.extent + 8 ≤ totalSize block) :
    nextTag offset t.size = offset + t.extent := by
  have hlt := totalSize_lt block
  have hle := t.size_le_extent
  unfold nextTag
  unfold Tag.extent at *
  simp only [wordModulus] at *
  omega

/-- The walk over the tags leads to the first that is wanted. -/
theorem leads_of_holdsTags (h : HoldsTags block offset tags)
    (hfirst : ∀ t tags offset, HoldsTags block offset (t :: tags) →
      clean offset ∧ (first t = true ↔ wanted offset)) :
    Leads block wanted clean offset (firstOffset first offset tags) := by
  induction tags generalizing offset with
  | nil => exact .stop (by have := h.2.2; omega) h.1
  | cons t tags ih =>
      obtain ⟨hclean, hwanted⟩ := hfirst t tags offset h
      have hle := h.le
      obtain ⟨hwell, htype, hsize, -, hrest⟩ := h
      have hend : read32 block offset ≠ multibootTagTypeEnd := htype ▸ hwell.1
      have hheader : offset + 4 ≤ totalSize block := by omega
      unfold firstOffset
      by_cases hit : first t = true
      · rw [if_pos hit]
        exact .found hheader hend hclean (hwanted.mp hit)
      · rw [if_neg hit]
        refine .next hle hend hclean (fun hw => hit (hwanted.mpr hw)) ?_
        rw [hsize, nextTag_size hrest.le]
        exact ih hrest

/-- A string with a terminator is the name when the two agree before their terminators. -/
theorem spells_iff {fs : Fs} {string name : List UInt8} {offset : Nat}
    (hstring : ∀ k (h : k < string.length), fs.image (offset + k) = string.get ⟨k, h⟩)
    (hend : 0 ∈ string) :
    fs.Spells offset name ↔ string.takeWhile (· ≠ 0) = name.takeWhile (· ≠ 0) := by
  induction string generalizing offset name with
  | nil => cases hend
  | cons c string ih =>
      have hc : fs.image offset = c := hstring 0 (Nat.zero_lt_succ _)
      have hrest : ∀ k (h : k < string.length), fs.image (offset + 1 + k) = string.get ⟨k, h⟩ := by
        intro k hk
        rw [Nat.add_assoc, Nat.add_comm 1]
        exact hstring (k + 1) (Nat.succ_lt_succ hk)
      by_cases hzero : c = 0
      · -- The string is empty, so the name has to be.
        subst hzero
        have hstop : ¬ (fs.image offset ≠ 0 ∧ fs.image offset = Fs.character name 0) :=
          fun h => h.1 hc
        rw [Fs.spells_of_stop hstop, and_iff_right hc, List.takeWhile_cons_of_neg (by simp)]
        cases name with
        | nil => exact iff_of_true rfl rfl
        | cons b name =>
            rw [Fs.character_cons_zero]
            by_cases hb : b = 0
            · rw [List.takeWhile_cons_of_neg (by simpa using hb)]
              exact iff_of_true hb rfl
            · rw [List.takeWhile_cons_of_pos (by simpa using hb)]
              exact iff_of_false hb (by simp)
      · have hend' : 0 ∈ string := (List.mem_cons.mp hend).resolve_left (Ne.symm hzero)
        rw [List.takeWhile_cons_of_pos (by simpa using hzero)]
        by_cases hsame : name.head? = some c
        · obtain ⟨name', rfl⟩ := List.head?_eq_some_iff.mp hsame
          have hstep : fs.image offset ≠ 0 ∧ fs.image offset = c := ⟨hc ▸ hzero, hc⟩
          rw [Fs.spells_cons hstep, ih hrest hend', List.takeWhile_cons_of_pos (by simpa using hzero)]
          exact (List.cons_inj_right c).symm
        · have hstop : ¬ (fs.image offset ≠ 0 ∧ fs.image offset = Fs.character name 0) := by
            intro ⟨hne, heq⟩
            cases name with
            | nil => exact hne heq
            | cons b name =>
                rw [hc] at heq
                exact hsame (congrArg some heq.symm)
          rw [Fs.spells_of_stop hstop]
          refine iff_of_false (fun h => hzero (hc.symm.trans h.1)) fun heq => ?_
          cases name with
          | nil => cases heq
          | cons b name =>
              by_cases hb : b = 0
              · rw [List.takeWhile_cons_of_neg (by simpa using hb)] at heq
                cases heq
              · rw [List.takeWhile_cons_of_pos (by simpa using hb)] at heq
                exact hsame (congrArg some (List.cons.inj heq).1.symm)

/-- A string whose terminator is in the image ends there. -/
theorem ends_of_mem {fs : Fs} {string name : List UInt8} {offset : Nat}
    (hstring : ∀ k (h : k < string.length), fs.image (offset + k) = string.get ⟨k, h⟩)
    (hend : 0 ∈ string) (hinside : offset + string.length ≤ fs.imageSize) :
    fs.Ends offset name := by
  obtain ⟨⟨k, hk⟩, hget⟩ := List.get_of_mem hend
  exact ⟨k, by omega, Or.inl ((hstring k hk).trans hget)⟩

/-- What the test for a module finds at a tag of the block. -/
theorem isNamed_holdsTags {name : List UInt8} (h : HoldsTags block offset (t :: tags)) :
    Comparable block name offset ∧ (t.isNamed name = true ↔ Names block name offset) := by
  obtain ⟨⟨-, hterminated⟩, htype, -, hpayload, hrest⟩ := h
  have htotal := hrest.le
  have hlt := totalSize_lt block
  have hle := t.size_le_extent
  unfold Comparable Names Tag.isNamed
  rw [htype, decide_eq_true_iff]
  by_cases hmodule : t.type = multibootTagTypeModule
  · have hend := hterminated hmodule
    have hlen : 8 < t.payload.length := by
      have hpos := List.length_pos_of_mem hend
      rw [List.length_drop] at hpos
      omega
    have hsize : t.size = 8 + t.payload.length := rfl
    have hmod : (offset + 16) % wordModulus = offset + 16 := by
      apply Nat.mod_eq_of_lt
      omega
    have hstring : ∀ k (h : k < (t.payload.drop 8).length),
        (bytes block).image (offset + 16 + k) = (t.payload.drop 8).get ⟨k, h⟩ := by
      intro k hk
      rw [List.length_drop] at hk
      have hbyte := hpayload (8 + k) (by omega)
      have hoffset : offset + 16 + k = offset + 8 + (8 + k) := by omega
      rw [hoffset]
      refine hbyte.trans ?_
      simp
    have hinside : offset + 16 + (t.payload.drop 8).length ≤ (bytes block).imageSize := by
      show offset + 16 + (t.payload.drop 8).length ≤ totalSize block
      rw [List.length_drop]
      omega
    rw [hmod, imp_iff_right hmodule, and_iff_right hmodule, and_iff_right hmodule,
      spells_iff hstring hend]
    exact ⟨ends_of_mem hstring hend hinside, Iff.rfl⟩
  · exact ⟨fun h => absurd h hmodule, iff_of_false (fun h => hmodule h.1) fun h => hmodule h.1⟩

/-- What the test for a type finds at a tag of the block. -/
theorem ofType_holdsTags {type : Nat} (h : HoldsTags block offset (t :: tags)) :
    decide (t.type = type) = true ↔ OfType block type offset := by
  rw [decide_eq_true_iff, ← h.2.1]
  rfl

end Encoded

end Walk

end Multiboot

/-- The searches end inside a block, with a result, exactly when the tags lead to it: those that follow
each other by their sizes come to the end of the tags or to a wanted one with every header, and every
command line that is compared, in the block. In a block that holds a list of tags they return the
first one of the type, and the first module of that name, or `NULL` when there is none. -/
theorem multiboot_tag_walk (block : Block) :
    (∀ type r, Multiboot.Returns block (Multiboot.findTag block type) r ↔
      Multiboot.Leads block (Multiboot.OfType block type) (fun _ => True) Multiboot.firstTag r) ∧
    (∀ name r, Multiboot.Returns block (Multiboot.findModule block name) r ↔
      Multiboot.Leads block (Multiboot.Names block name) (Multiboot.Comparable block name)
        Multiboot.firstTag r) ∧
    ∀ tags, Multiboot.HoldsTags block Multiboot.firstTag tags →
      (∀ type, Multiboot.Returns block (Multiboot.findTag block type)
        (Multiboot.firstOffset (fun t => t.type = type) Multiboot.firstTag tags)) ∧
      ∀ name, Multiboot.Returns block (Multiboot.findModule block name)
        (Multiboot.firstOffset (Multiboot.Tag.isNamed name) Multiboot.firstTag tags) := by
  refine ⟨Multiboot.findTag_returns_iff block, Multiboot.findModule_returns_iff block, ?_⟩
  intro tags htags
  constructor
  · intro type
    apply (Multiboot.findTag_returns_iff block type _).mpr
    exact Multiboot.leads_of_holdsTags htags fun t tags offset h =>
      ⟨trivial, Multiboot.ofType_holdsTags h⟩
  · intro name
    apply (Multiboot.findModule_returns_iff block name _).mpr
    exact Multiboot.leads_of_holdsTags htags fun t tags offset h => Multiboot.isNamed_holdsTags h

/-- A block whose first tag has the size 0. -/
def stuckBlock : Block := write32 (write32 (write32 zero 0 24) 8 1) 20 8

/-- The search for the memory map does not end: the tag leads to itself. -/
theorem multiboot_walk_stuck :
    ¬ ∃ r, Multiboot.Returns stuckBlock (Multiboot.findTag stuckBlock 6) r := by
  intro ⟨r, h⟩
  have hleads := (Multiboot.findTag_returns_iff stuckBlock 6 r).mp h
  clear h
  have hself : Multiboot.nextTag 8 (read32 stuckBlock (8 + 4)) = 8 := by decide +kernel
  generalize htag : Multiboot.firstTag = tag at hleads
  induction hleads with
  | stop _ hend =>
      subst htag
      revert hend
      decide +kernel
  | found _ _ _ hwanted =>
      subst htag
      have hwanted : read32 stuckBlock Multiboot.firstTag = 6 := hwanted
      revert hwanted
      decide +kernel
  | next _ _ _ _ _ ih =>
      subst htag
      exact ih hself.symm

/-- A block of a module `a` and the end. -/
def moduleBlock : Block :=
  write32 (write32 (write32 (write32 (write32 zero 0 40) 8 3) 12 18) 24 0x61) 36 8

theorem multiboot_tag_walk_module :
    Multiboot.Returns moduleBlock (Multiboot.findModule moduleBlock [0x61]) (some 8) ∧
      Multiboot.Returns moduleBlock (Multiboot.findTag moduleBlock 6) none := by
  have htags : Multiboot.HoldsTags moduleBlock Multiboot.firstTag
      [⟨3, [0, 0, 0, 0, 0, 0, 0, 0, 0x61, 0]⟩] := by
    refine ⟨⟨by decide, by decide⟩, by decide +kernel, by decide +kernel, by decide +kernel,
      by decide +kernel, by decide +kernel, by decide +kernel⟩
  obtain ⟨htype, hmodule⟩ := (multiboot_tag_walk moduleBlock).2.2 _ htags
  exact ⟨hmodule [0x61], htype 6⟩

end Neox
