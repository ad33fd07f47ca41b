import Neox.Lib.Traced
import Neox.Mm.Directories

/-!
# Access to the caller's memory

A system call runs on the caller's page directory and follows the pointers it was passed. It runs in
ring 0 with `CR0.WP` clear, so the MMU asks of an access only that the page is present. The functions
here report every byte they read or write through such a pointer.
-/

namespace Neox

open Bytes Traced Checked

/-- A byte read, or written, at an address the caller has passed. -/
structure UserAccess where
  virt : Nat
  store : Bool
  deriving DecidableEq, Repr

/-- A computation that reports its accesses to the caller's memory. -/
abbrev UserM := Traced Stop UserAccess

/-- Store a byte at `virt`. -/
def Mm.writeByte (m : Mm) (directory virt : Nat) (byte : UInt8) : Except Stop Mm :=
  match m.walk directory virt with
  | some phys =>
      .ok { m with
        frames := Function.update m.frames (phys / pageSize)
          (Function.update (m.frames (phys / pageSize)) (phys % pageSize) byte) }
  | none => .error .pageFault

namespace User

/-- `*virt`. -/
def readByte (m : Mm) (directory virt : Nat) : UserM UInt8 := do
  report ⟨virt, false⟩
  silent (m.readByte directory virt)

/-- `*virt = byte`. -/
def writeByte (m : Mm) (directory virt : Nat) (byte : UInt8) : UserM Mm := do
  report ⟨virt, true⟩
  silent (m.writeByte directory virt byte)

/-- The word at `virt`. -/
def readWord (m : Mm) (directory virt : Nat) : UserM Nat := do
  let b0 ← readByte m directory virt
  let b1 ← readByte m directory ((virt + 1) % wordModulus)
  let b2 ← readByte m directory ((virt + 2) % wordModulus)
  let b3 ← readByte m directory ((virt + 3) % wordModulus)
  return b0.toNat + 0x100 * b1.toNat + 0x10000 * b2.toNat + 0x1000000 * b3.toNat

/-- `n` bytes from `virt` and up. -/
def readBytes (m : Mm) (directory virt : Nat) : Nat → UserM (List UInt8)
  | 0 => return []
  | n + 1 => do
      let byte ← readByte m directory virt
      let rest ← readBytes m directory ((virt + 1) % wordModulus) n
      return byte :: rest

/-- The number of characters at `virt` before the first `NUL`; `none` when there are `n` of them. -/
def stringLength (m : Mm) (directory virt : Nat) : Nat → UserM (Option Nat)
  | 0 => return none
  | n + 1 => do
      let c ← readByte m directory virt
      if c = 0 then return some 0
      let rest ← stringLength m directory ((virt + 1) % wordModulus) n
      return rest.map (· + 1)

/-! ## `paging_user_string_valid` -/

/-- The inner loop: `n` characters are left in the page. -/
def pagingScanPage (m : Mm) (directory address : Nat) : Nat → UserM (Option Bool × Nat)
  | 0 => return (none, address)
  | n + 1 => do
      if (← readByte m directory address) = 0 then return (some true, address)
      if userVirtEnd < address + 1 then return (some false, address + 1)
      pagingScanPage m directory (address + 1) n

/-- The outer loop. -/
def pagingScanPages (m : Mm) (directory address : Nat) : Nat → UserM Bool
  | 0 => silent (.error .hang)
  | n + 1 => do
      if !(← silent (pagingUserRangeValid m directory address 1)) then return false
      match ← pagingScanPage m directory address
          ((frameMask address + pageSize) % wordModulus - address) with
      | (some found, _) => return found
      | (none, address) => pagingScanPages m directory address n

/-- `paging_user_string_valid`. -/
def pagingUserStringValid (m : Mm) (directory string : Nat) : UserM Bool :=
  if string = 0 then return false
  else pagingScanPages m directory string (wordModulus / pageSize + 1)

end User

/-! ## Pages the caller may access -/

/-- The page of `virt` is present, and its entry has `PAGE_USER`. -/
def UserAccessible (m : Mm) (directory virt : Nat) : Prop :=
  virt < wordModulus ∧ ∃ e, m.pte directory (virt / pageSize) = some e ∧ userAccess e = true

/-- A read of a page the caller may access. -/
def UserRead (m : Mm) (directory : Nat) (a : UserAccess) : Prop :=
  a.store = false ∧ UserAccessible m directory a.virt

variable {m : Mm} {d virt addr len n k : Nat}

theorem UserAccessible.walk (h : UserAccessible m d virt) : ∃ phys, m.walk d virt = some phys := by
  obtain ⟨-, e, he, -⟩ := h
  rw [Mm.walk_eq, he]
  exact ⟨_, rfl⟩

theorem UserAccessible.readByte (h : UserAccessible m d virt) :
    ∃ byte, m.readByte d virt = .ok byte := by
  obtain ⟨phys, hwalk⟩ := h.walk
  unfold Mm.readByte
  rw [hwalk]
  exact ⟨_, rfl⟩

/-- Two addresses of one page. -/
theorem UserAccessible.page {virt' : Nat} (h : UserAccessible m d virt)
    (hpage : virt' / pageSize = virt / pageSize) : UserAccessible m d virt' := by
  obtain ⟨hlt, h⟩ := h
  unfold UserAccessible
  rw [hpage]
  refine ⟨?_, h⟩
  simp only [pageSize, wordModulus] at *
  omega

theorem pagingUserPage_spec (h : pagingUserPage m d virt = .ok true) (hlt : virt < wordModulus) :
    UserAccessible m d virt := by
  unfold pagingUserPage at h
  obtain ⟨table, htable, h⟩ := bind_eq_ok.mp h
  rcases pagingGetTable_spec htable with ⟨hp, rfl, -⟩ | ⟨-, rfl⟩
  · have hbits := pure_eq_ok.mp h
    rw [Bool.and_eq_true] at hbits
    have hpage := pte_eq (tableIndex_lt virt) hp
    rw [index_eq virt, if_pos hbits.1] at hpage
    exact ⟨hlt, _, hpage, hbits.2⟩
  · cases pure_eq_ok.mp h

/-- Every byte of a valid range is on a page the caller may access. -/
theorem pagingUserRangeValid_spec (h : pagingUserRangeValid m d addr len = .ok true)
    (ha : addr < wordModulus) (hl : len < wordModulus) (hk : k < len) :
    UserAccessible m d (addr + k) := by
  unfold pagingUserRangeValid at h
  rw [if_neg (by omega)] at h
  split at h
  · cases pure_eq_ok.mp h
  · next hwrap =>
    have hend : addr + len < wordModulus := by
      simp only [wordModulus] at *
      omega
    have hlast : (addr + len - 1) % wordModulus = addr + len - 1 :=
      Nat.mod_eq_of_lt (by omega)
    have hpages := (Post.allM (E := fun _ => True) (l := List.range _) fun a _ =>
      ⟨fun _ => trivial, fun _ => trivial⟩).of_ok h rfl
    simp only [hlast, List.mem_range] at hpages
    have hi := hpages ((addr + k) / pageSize - addr / pageSize) (by
      simp only [frameMask, pageSize] at *
      omega)
    refine (pagingUserPage_spec hi ?_).page ?_
    · simp only [frameMask, pageSize, wordModulus] at *
      omega
    · simp only [frameMask, pageSize] at *
      omega

/-! ## Strings -/

/-- A string of `n` characters at `virt`, on pages the caller may access. -/
structure UserString (m : Mm) (directory virt n : Nat) : Prop where
  accessible : ∀ k ≤ n, UserAccessible m directory (virt + k)
  terminated : m.readByte directory (virt + n) = .ok 0
  chars : ∀ k < n, m.readByte directory (virt + k) ≠ .ok 0
  below : virt + n < kernelVirtBase

/-- The caller may access no page of the kernel half. -/
def KernelHalfClosed (m : Mm) (directory : Nat) : Prop :=
  ∀ virt, kernelVirtBase ≤ virt → ¬ UserAccessible m directory virt

namespace User

theorem readByte_post (h : UserAccessible m d virt) :
    Traced.Post (UserRead m d) (fun byte => m.readByte d virt = .ok byte) (readByte m d virt) := by
  constructor
  · exact reports_bind.mpr ⟨reports_report.mpr ⟨rfl, h⟩, fun _ _ => reports_silent⟩
  · intro byte hbyte
    exact hbyte

/-- The inner loop of the scan stays on its page. -/
theorem pagingScanPage_post (hok : ∀ k < n, UserAccessible m d (virt + k)) :
    Traced.Post (UserRead m d)
      (fun r => (∀ a, r = (some true, a) → ∃ k < n, m.readByte d (virt + k) = .ok 0 ∧
          ∀ j < k, m.readByte d (virt + j) ≠ .ok 0) ∧
        ∀ a, r = (none, a) → a = virt + n ∧ ∀ j < n, m.readByte d (virt + j) ≠ .ok 0)
      (pagingScanPage m d virt n) := by
  induction n generalizing virt with
  | zero =>
      refine .pure ⟨fun a ha => (by cases ha), fun a ha => ?_⟩
      cases ha
      exact ⟨rfl, fun j hj => absurd hj (Nat.not_lt_zero j)⟩
  | succ n ih =>
      refine (readByte_post (hok 0 (by omega))).bind fun byte hbyte => ?_
      split
      · next hzero =>
        refine .pure ⟨fun a _ => ⟨0, by omega, hzero ▸ hbyte, fun j hj => by omega⟩, fun a ha => ?_⟩
        cases ha
      · next hne =>
        have hfirst : m.readByte d (virt + 0) ≠ .ok 0 := by
          intro h0
          cases hbyte.symm.trans h0
          exact hne rfl
        split
        · exact .pure ⟨fun a ha => (by cases ha), fun a ha => (by cases ha)⟩
        · have hstep : ∀ j, virt + 1 + j = virt + (j + 1) := by
            intro j
            omega
          have hrest : ∀ l, (∀ j < l, m.readByte d (virt + 1 + j) ≠ .ok 0) →
              ∀ j < l + 1, m.readByte d (virt + j) ≠ .ok 0 := by
            intro l h j hj
            cases j with
            | zero => exact hfirst
            | succ j => exact hstep j ▸ h j (by omega)
          refine (ih fun k hk => hstep k ▸ hok (k + 1) (by omega)).mono fun r hr => ⟨?_, ?_⟩
          · intro a ha
            obtain ⟨k, hk, hzero, hchars⟩ := hr.1 a ha
            exact ⟨k + 1, by omega, hstep k ▸ hzero, hrest k hchars⟩
          · intro a ha
            obtain ⟨rfl, hchars⟩ := hr.2 a ha
            exact ⟨by omega, hrest n hchars⟩

/-- The scan has come from `start`, and has found no `NUL` before `virt`. -/
theorem pagingScanPages_post {start : Nat} (hclosed : KernelHalfClosed m d)
    (hlt : start + k < wordModulus)
    (hok : ∀ j < k, UserAccessible m d (start + j))
    (hchars : ∀ j < k, m.readByte d (start + j) ≠ .ok 0) :
    Traced.Post (UserRead m d) (fun found => found = true → ∃ l, UserString m d start l)
      (pagingScanPages m d (start + k) n) := by
  induction n generalizing k with
  | zero => exact .silent fun _ h => by cases h
  | succ n ih =>
      unfold pagingScanPages
      refine (Traced.Post.silent (P := fun valid => valid = true → UserAccessible m d (start + k)) ?_).bind
        fun valid hvalid => ?_
      · rintro valid hv rfl
        exact pagingUserRangeValid_spec (k := 0) hv hlt (by decide) Nat.one_pos
      · cases valid with
        | false => exact .pure fun h => by cases h
        | true =>
            have hhere := hvalid rfl
            have hlow : start + k < kernelVirtBase := by
              by_contra hhigh
              exact hclosed (start + k) (by omega) hhere
            have hrest : (frameMask (start + k) + pageSize) % wordModulus - (start + k) =
                pageSize - (start + k) % pageSize := by
              simp only [frameMask, pageSize, wordModulus, kernelVirtBase] at *
              omega
            rw [hrest]
            have hpage : ∀ j < pageSize - (start + k) % pageSize,
                UserAccessible m d (start + k + j) := by
              intro j hj
              refine hhere.page ?_
              simp only [pageSize] at *
              omega
            refine (pagingScanPage_post hpage).bind fun r hr => ?_
            obtain ⟨result, a⟩ := r
            cases result with
            | some found =>
                refine .pure fun hfound => ?_
                subst hfound
                obtain ⟨j, hj, hzero, hbefore⟩ := hr.1 a rfl
                refine ⟨k + j, fun i hi => ?_, Nat.add_assoc .. ▸ hzero, fun i hi => ?_, ?_⟩
                · by_cases hik : i < k
                  · exact hok i hik
                  · have heq : start + i = start + k + (i - k) := by omega
                    exact heq ▸ hpage (i - k) (by omega)
                · by_cases hik : i < k
                  · exact hchars i hik
                  · have heq : start + i = start + k + (i - k) := by omega
                    exact heq ▸ hbefore (i - k) (by omega)
                · simp only [pageSize, kernelVirtBase] at *
                  omega
            | none =>
                obtain ⟨rfl, hnone⟩ := hr.2 a rfl
                rw [Nat.add_assoc]
                refine ih ?_ (fun j hj => ?_) fun j hj => ?_
                · simp only [pageSize, kernelVirtBase, wordModulus] at *
                  omega
                · by_cases hjk : j < k
                  · exact hok j hjk
                  · have heq : start + j = start + k + (j - k) := by omega
                    exact heq ▸ hpage (j - k) (by omega)
                · by_cases hjk : j < k
                  · exact hchars j hjk
                  · have heq : start + j = start + k + (j - k) := by omega
                    exact heq ▸ hnone (j - k) (by omega)

/-- `paging_user_string_valid` reads pages the caller may access, and finds a string there. -/
theorem pagingUserStringValid_post (hclosed : KernelHalfClosed m d) (hlt : virt < wordModulus) :
    Traced.Post (UserRead m d) (fun found => found = true → ∃ l, UserString m d virt l)
      (pagingUserStringValid m d virt) := by
  unfold pagingUserStringValid
  split
  · exact .pure fun h => by cases h
  · exact pagingScanPages_post (k := 0) hclosed hlt (fun j hj => by omega) fun j hj => by omega

/-- A string is read up to its `NUL`. -/
theorem stringLength_post (h : UserString m d virt len) (hk : k ≤ len) :
    Traced.Post (UserRead m d) (fun l => ∀ j, l = some j → k + j = len)
      (stringLength m d (virt + k) n) := by
  induction n generalizing k with
  | zero => exact .pure fun j hj => by cases hj
  | succ n ih =>
      refine (readByte_post (h.accessible k hk)).bind fun byte hbyte => ?_
      split
      · next hzero =>
        refine .pure fun j hj => ?_
        cases hj
        by_contra hne
        exact h.chars k (by omega) (hzero ▸ hbyte)
      · next hne =>
        have hlt : k < len := by
          by_contra hge
          have heq : k = len := by omega
          subst heq
          cases hbyte.symm.trans h.terminated
          exact hne rfl
        have hwrap : (virt + k + 1) % wordModulus = virt + (k + 1) := by
          have hbelow := h.below
          simp only [kernelVirtBase, wordModulus] at *
          omega
        rw [hwrap]
        refine (ih (by omega)).bind fun l hl => .pure fun j hj => ?_
        obtain ⟨i, rfl, rfl⟩ := Option.map_eq_some_iff.mp hj
        have hi := hl i rfl
        omega

/-- `memcpy` from pages the caller may access. -/
theorem readBytes_post (hok : ∀ k < n, UserAccessible m d (virt + k)) :
    Traced.Post (UserRead m d) (fun _ => True) (readBytes m d virt n) := by
  induction n generalizing virt with
  | zero => exact .pure trivial
  | succ n ih =>
      refine (readByte_post (hok 0 (by omega))).bind fun byte _ => ?_
      cases n with
      | zero => exact (Traced.Post.pure (P := fun _ => True) trivial).bind fun _ _ => .pure trivial
      | succ n =>
          have hwrap : (virt + 1) % wordModulus = virt + 1 := Nat.mod_eq_of_lt (hok 1 (by omega)).1
          rw [hwrap]
          refine (ih fun k hk => ?_).bind fun _ _ => .pure trivial
          have hnext := hok (k + 1) (by omega)
          rw [← Nat.add_assoc, Nat.add_right_comm] at hnext
          exact hnext

theorem readWord_post (hok : ∀ k < 4, UserAccessible m d (virt + k)) :
    Traced.Post (UserRead m d) (fun w => w < wordModulus) (readWord m d virt) := by
  have hbyte : ∀ k < 4, Traced.Post (UserRead m d) (fun _ => True)
      (readByte m d ((virt + k) % wordModulus)) := by
    intro k hk
    have h := hok k hk
    rw [Nat.mod_eq_of_lt h.1]
    exact (readByte_post h).mono fun _ _ => trivial
  have hfirst := hbyte 0 (by omega)
  rw [Nat.mod_eq_of_lt (hok 0 (by omega)).1] at hfirst
  refine hfirst.bind fun b0 _ => (hbyte 1 (by omega)).bind fun b1 _ =>
    (hbyte 2 (by omega)).bind fun b2 _ => (hbyte 3 (by omega)).bind fun b3 _ => .pure ?_
  have h0 := b0.toNat_lt
  have h1 := b1.toNat_lt
  have h2 := b2.toNat_lt
  have h3 := b3.toNat_lt
  simp only [wordModulus]
  omega

end User

end Neox
