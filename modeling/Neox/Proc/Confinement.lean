import Neox.Mm.Apart
import Neox.Mm.Rights
import Neox.Proc.Syscall

/-!
# System calls and the caller's memory

What the handlers read through the caller's pointers they have validated first, page by page, and
the kernel heap's work in between does not change the caller's pages. The validation asks that a page
is present and a user's. It does not ask whether the caller may write to it.
-/

namespace Neox

open Traced

/-! ## The caller's directory -/

/-- The directory, one of the page tables of its user half, or the frame of one of its pages. -/
inductive Private (m : Mm) (directory : Nat) : Nat → Prop where
  | directory : Private m directory directory
  | table (i : Nat) (hi : i < kernelPdeStart) (hp : present (m.entry directory i) = true) :
      Private m directory (m.entry directory i / pageSize)
  | page (v e : Nat) (hv : v / 1024 < kernelPdeStart) (he : m.pte directory v = some e) :
      Private m directory (e / pageSize)

/-- A directory no kernel page of which is a user's, in memory the kernel keeps apart for it; its
pages are no page tables of it. -/
structure CallerMemory (m : Mm) (directory : Nat) : Prop where
  kernelHalf : ∀ v e, kernelPdeStart ≤ v / 1024 → v / 1024 < pageDirectoryEntries →
    m.pte directory v = some e → userAccess e = false
  apart : ∀ f, Private m directory f → Apart m f
  data : ∀ v e, v / 1024 < kernelPdeStart → m.pte directory v = some e →
    e / pageSize ≠ directory ∧ ∀ i < pageDirectoryEntries, present (m.entry directory i) = true →
      m.entry directory i / pageSize ≠ e / pageSize
  totalPages : m.pmm.totalPages ≤ 0x100000
  heapEnd : m.heapEnd < wordModulus

section Memory

variable {m m' : Mm} {d virt n : Nat}

/-- A page the caller may access is in the user half. -/
theorem CallerMemory.closed (h : CallerMemory m d) : KernelHalfClosed m d := by
  rintro virt hvirt ⟨hlt, e, he, huser⟩
  have hkernel := h.kernelHalf (virt / pageSize) e (by
    simp only [kernelPdeStart, kernelVirtBase, pageSize] at *
    omega) (by
    simp only [pageDirectoryEntries, wordModulus, pageSize] at *
    omega) he
  rw [huser] at hkernel
  cases hkernel

/-- The directory's own entries stay. -/
theorem CallerMemory.entry_eq (h : CallerMemory m d) (hs : Spares m m') (i : Nat) :
    m'.entry d i = m.entry d i := by
  unfold Mm.entry
  rw [(hs.apart d (h.apart d .directory)).1]

/-- Its user pages stay. -/
theorem CallerMemory.pte_eq (h : CallerMemory m d) (hs : Spares m m') {v : Nat}
    (hv : v / 1024 < kernelPdeStart) : m'.pte d v = m.pte d v := by
  unfold Mm.pte
  simp only [h.entry_eq hs]
  split
  · next hp =>
    have hframe := (hs.apart _ (h.apart _ (.table (v / 1024) hv hp))).1
    unfold Mm.entry at hframe ⊢
    rw [hframe]
  · rfl

/-- `kmalloc` does not disturb the caller's memory. -/
theorem CallerMemory.spares (h : CallerMemory m d) (hs : Spares m m') : CallerMemory m' d where
  kernelHalf v e hlo hhi he := by
    unfold Mm.pte at he
    simp only [h.entry_eq hs] at he
    split at he
    · next hp =>
      split at he
      · next hpte =>
        cases he
        rcases hs.words (m.entry d (v / 1024) / pageSize) (v % 1024) with hsame | hkernel
        · rw [hsame] at hpte ⊢
          refine h.kernelHalf v _ hlo hhi ?_
          unfold Mm.pte
          simp only [hp, hpte, if_true]
        · exact hkernel
      · cases he
    · cases he
  apart f hf := by
    cases hf with
    | directory => exact (hs.apart _ (h.apart _ .directory)).2
    | table i hi hp =>
        rw [h.entry_eq hs] at hp ⊢
        exact (hs.apart _ (h.apart _ (.table i hi hp))).2
    | page v e hv he =>
        rw [h.pte_eq hs hv] at he
        exact (hs.apart _ (h.apart _ (.page v e hv he))).2
  data v e hv he := by
    rw [h.pte_eq hs hv] at he
    simp only [h.entry_eq hs]
    exact h.data v e hv he
  totalPages := by
    rw [hs.totalPages]
    exact h.totalPages
  heapEnd := hs.heapEnd h.heapEnd

theorem user_page (h : virt < kernelVirtBase) : virt / pageSize / 1024 < kernelPdeStart := by
  simp only [kernelVirtBase, pageSize, kernelPdeStart] at *
  omega

theorem CallerMemory.below (h : CallerMemory m d) (ha : UserAccessible m d virt) :
    virt < kernelVirtBase := by
  by_contra hge
  exact h.closed virt (Nat.le_of_not_lt hge) ha

theorem CallerMemory.accessible_of_spares (h : CallerMemory m d) (hs : Spares m m')
    (ha : UserAccessible m' d virt) : UserAccessible m d virt := by
  have hlow := (h.spares hs).below ha
  obtain ⟨hlt, e, he, huser⟩ := ha
  rw [h.pte_eq hs (user_page hlow)] at he
  exact ⟨hlt, e, he, huser⟩

theorem CallerMemory.accessible_spares (h : CallerMemory m d) (hs : Spares m m')
    (ha : UserAccessible m d virt) : UserAccessible m' d virt := by
  have hlow := h.below ha
  obtain ⟨hlt, e, he, huser⟩ := ha
  rw [← h.pte_eq hs (user_page hlow)] at he
  exact ⟨hlt, e, he, huser⟩

/-- The caller's bytes stay. -/
theorem CallerMemory.readByte_eq (h : CallerMemory m d) (hs : Spares m m')
    (ha : UserAccessible m d virt) : m'.readByte d virt = m.readByte d virt := by
  have hv := user_page (h.below ha)
  obtain ⟨-, e, he, -⟩ := ha
  have hframe := (hs.apart _ (h.apart _ (.page _ e hv he))).1
  unfold Mm.readByte
  simp only [Mm.walk_eq, h.pte_eq hs hv, he, Option.map_some]
  have hpage : (frameMask e + virt % pageSize) / pageSize = e / pageSize := by
    simp only [frameMask, pageSize]
    omega
  rw [hpage, hframe]

theorem UserString.spares (hu : UserString m d virt n) (h : CallerMemory m d) (hs : Spares m m') :
    UserString m' d virt n where
  accessible k hk := h.accessible_spares hs (hu.accessible k hk)
  terminated := by
    rw [h.readByte_eq hs (hu.accessible n (Nat.le_refl n))]
    exact hu.terminated
  chars k hk := by
    rw [h.readByte_eq hs (hu.accessible k (Nat.le_of_lt hk))]
    exact hu.chars k hk
  below := hu.below

end Memory

section Reads

variable {m m' : Mm} {d virt n len k path : Nat} {fs : Fs}

/-- `strcmp` stops at the caller's `NUL`. -/
theorem strcmp_post {a : Nat → UInt8} (h : UserString m d virt len) (hk : k ≤ len) :
    Post (UserRead m d) (fun _ => True) (strcmp m d a virt k n) := by
  induction n generalizing k with
  | zero => exact .silent fun _ _ => trivial
  | succ n ih =>
      unfold strcmp
      have hwrap : (virt + k) % wordModulus = virt + k := by
        have hbelow := h.below
        simp only [kernelVirtBase, wordModulus] at *
        omega
      rw [hwrap]
      refine (User.readByte_post (h.accessible k hk)).bind fun b hb => ?_
      split
      · next heq =>
        refine ih ?_
        by_contra hge
        have hlast : k = len := by omega
        subst hlast
        cases hb.symm.trans h.terminated
        exact heq.1 heq.2
      · exact .pure trivial

theorem fsFindFrom_post {i : Nat} (h : UserString m d path len) :
    Post (UserRead m d) (fun _ => True) (fsFindFrom m d fs path i n) := by
  induction n generalizing i with
  | zero => exact .pure trivial
  | succ n ih =>
      unfold fsFindFrom
      refine (strcmp_post (k := 0) h (Nat.zero_le len)).bind fun r _ => ?_
      split
      · exact .pure trivial
      · exact ih

theorem fileOpen_post {access : Nat} (h : UserString m d path len) :
    Post (UserRead m d) (fun _ => True) (fileOpen m d fs path access) := by
  unfold fileOpen
  split
  · exact .pure trivial
  · split
    · exact .pure trivial
    · have hfind : Post (UserRead m d) (fun _ => True) (fsFind m d fs path) := by
        unfold fsFind
        split
        · exact .pure trivial
        · exact fsFindFrom_post h
      refine hfind.bind fun found _ => ?_
      cases found with
      | none => exact .pure trivial
      | some i => exact .pure trivial

theorem processOpen_post {files : FileTable} {access : Nat} (h : UserString m d path len) :
    Post (UserRead m d) (fun _ => True) (processOpen m d fs files path access) := by
  unfold processOpen
  split
  · exact .pure trivial
  · split
    · exact .pure trivial
    · refine (fileOpen_post h).bind fun file _ => ?_
      cases file with
      | none => exact .pure trivial
      | some file => exact .pure trivial

/-- A validated range. -/
theorem rangeValid_post (hv : virt < wordModulus) (hn : n < wordModulus) :
    Post (UserRead m d) (fun valid => valid = true → ∀ k < n, UserAccessible m d (virt + k))
      (silent (pagingUserRangeValid m d virt n)) := by
  refine .silent ?_
  rintro valid hvalid rfl k hk
  exact pagingUserRangeValid_spec hvalid hv hn hk

theorem UserRead.of_spares {a : UserAccess} (ha : UserRead m' d a) (h : CallerMemory m d)
    (hs : Spares m m') : UserRead m d a := ⟨ha.1, h.accessible_of_spares hs ha.2⟩

/-- What is reported of a later memory. -/
theorem Spares.post {α : Type} {P : α → Prop} {x : UserM α} (hs : Spares m m')
    (h : CallerMemory m d) (hx : Post (UserRead m' d) P x) : Post (UserRead m d) P x :=
  hx.mono_reports fun _ ha => ha.of_spares h hs

theorem kfree_spares {ptr : Nat} (h : kfree m ptr = .ok m') : Spares m m' := by
  unfold kfree at h
  split at h
  · cases Checked.pure_eq_ok.mp h
    exact .refl _
  · split at h
    · cases h
    · cases Checked.pure_eq_ok.mp h
      exact (Spares.refl _).congr rfl rfl rfl id

theorem execArgsDestroy_spares {args : List ExecArg} (h : execArgsDestroy m args = .ok m') :
    Spares m m' := by
  unfold execArgsDestroy at h
  induction args generalizing m with
  | nil =>
      cases Checked.pure_eq_ok.mp h
      exact .refl _
  | cons arg args ih =>
      obtain ⟨m₁, hfree, h⟩ := Checked.bind_eq_ok.mp h
      exact (kfree_spares hfree).trans (ih h)

/-- The argument loop reads pages the caller may access. -/
theorem execArgsCopyFrom_post {argv : Nat} {args : List ExecArg} (h : CallerMemory m d)
    (hs : Spares m m') :
    Post (UserRead m d) (fun r => Spares m r.2.2) (Caller.execArgsCopyFrom d argv m' args n) := by
  induction n generalizing m' args with
  | zero => exact .pure hs
  | succ n ih =>
      unfold Caller.execArgsCopyFrom
      have h' := h.spares hs
      refine (hs.post h (rangeValid_post (Nat.mod_lt _ (by decide)) (by decide))).bind
        fun valid hvalid => ?_
      cases valid with
      | false => exact .pure hs
      | true =>
          refine (hs.post h (User.readWord_post (hvalid rfl))).bind fun string hstring => ?_
          split
          · exact .pure hs
          · refine (hs.post h (User.pagingUserStringValid_post h'.closed hstring)).bind
              fun found hfound => ?_
            cases found with
            | false => exact .pure hs
            | true =>
                obtain ⟨len, hu⟩ := hfound rfl
                refine (hs.post h (User.stringLength_post (k := 0) hu (Nat.zero_le len))).bind
                  fun length hlength => ?_
                cases length with
                | none => exact .pure hs
                | some length =>
                    have hlen := hlength length rfl
                    refine (Post.silent (P := fun r => Spares m' r.2) ?_).bind fun r hr => ?_
                    · rintro ⟨block, m₁⟩ halloc
                      exact kmalloc_spares h'.heapEnd h'.totalPages halloc
                    · obtain ⟨block, m₁⟩ := r
                      have hs₁ : Spares m m₁ := hs.trans hr
                      have hu₁ := hu.spares h' hr
                      simp only []
                      split
                      · exact .pure hs₁
                      · refine (hs₁.post h (User.readBytes_post fun k hk => ?_)).bind fun _ _ =>
                          ih hs₁
                        exact hu₁.accessible k (by omega)

theorem execArgsCopyFromUser_post {argv : Nat} (h : CallerMemory m d) :
    Post (UserRead m d) (fun r => Spares m r.2) (Caller.execArgsCopyFromUser m d argv) := by
  unfold Caller.execArgsCopyFromUser
  split
  · exact .pure (.refl m)
  · refine (execArgsCopyFrom_post h (.refl m)).bind fun r hr => ?_
    obtain ⟨ok, args, m₁⟩ := r
    cases ok with
    | true => exact .pure hr
    | false =>
        refine (Post.silent (P := fun m₂ => Spares m m₂) fun m₂ hfree => ?_).bind
          fun m₂ hm₂ => .pure hm₂
        exact Spares.trans hr (execArgsDestroy_spares hfree)

/-- `sys_exec` up to `file_open`. -/
theorem execArguments_post {c : Caller} {argv : Nat} (h : CallerMemory c.mm c.directory)
    (hpath : path < wordModulus) :
    Post (UserRead c.mm c.directory) (fun _ => True) (c.execArguments path argv) := by
  unfold Caller.execArguments
  refine (User.pagingUserStringValid_post h.closed hpath).bind fun found hfound => ?_
  cases found with
  | false => exact .pure trivial
  | true =>
      obtain ⟨len, hu⟩ := hfound rfl
      refine (execArgsCopyFromUser_post h).bind fun r hr => ?_
      obtain ⟨args, mm⟩ := r
      cases args with
      | none => exact .pure trivial
      | some args =>
          have hs : Spares c.mm mm := hr
          refine (hs.post h (fileOpen_post (hu.spares h hs))).bind fun file _ => ?_
          cases file with
          | some file => exact .pure trivial
          | none =>
              exact (Post.silent (P := fun _ => True) fun _ _ => trivial).bind fun _ _ =>
                .pure trivial

/-- `sys_write`. -/
theorem write_post {c : Caller} {fd buf : Nat} (hbuf : buf < wordModulus) (hlen : len < wordModulus) :
    Post (UserRead c.mm c.directory) (fun _ => True) (c.write fd buf len) := by
  unfold Caller.write
  split
  · exact .pure trivial
  · refine (rangeValid_post hbuf hlen).bind fun valid hvalid => ?_
    cases valid with
    | false => exact .pure trivial
    | true => exact (User.readBytes_post (hvalid rfl)).bind fun _ _ => .pure trivial

/-- `sys_open`. -/
theorem open_post {c : Caller} {access : Nat} (h : CallerMemory c.mm c.directory)
    (hpath : path < wordModulus) :
    Post (UserRead c.mm c.directory) (fun _ => True) (c.open_ path access) := by
  unfold Caller.open_
  refine (User.pagingUserStringValid_post h.closed hpath).bind fun found hfound => ?_
  cases found with
  | false => exact .pure trivial
  | true =>
      obtain ⟨len, hu⟩ := hfound rfl
      exact (processOpen_post hu).bind fun _ _ => .pure trivial

end Reads

/-! ## What is stored -/

/-- The same pages, with the same entries, are mapped. -/
structure SamePages (m m' : Mm) (directory : Nat) : Prop where
  entries : ∀ i < pageDirectoryEntries, m'.entry directory i = m.entry directory i
  pages : ∀ v, v / 1024 < pageDirectoryEntries → m'.pte directory v = m.pte directory v

/-- Byte `k` of what `file_read` copies can be read. -/
def sourceReadable (m : Mm) (directory : Nat) (fs : Fs) (i k : Nat) : Prop :=
  fs.fileData i = none → (m.walk directory (k % wordModulus)).isSome = true

section Stores

variable {m m' : Mm} {d virt i k n position buffer : Nat} {fs : Fs} {byte : UInt8}

theorem SamePages.walk (h : SamePages m m' d) (hlt : virt < wordModulus) :
    m'.walk d virt = m.walk d virt := by
  rw [Mm.walk_eq, Mm.walk_eq, h.pages]
  simp only [pageSize, pageDirectoryEntries, wordModulus] at *
  omega

theorem sourceByte_ok (h : SamePages m m' d) :
    (∃ byte, sourceByte m' d fs i k = .ok byte) ↔ sourceReadable m d fs i k := by
  unfold sourceByte sourceReadable
  cases fs.fileData i with
  | some data =>
      refine ⟨fun _ h => ?_, fun _ => ⟨_, rfl⟩⟩
      cases h
  | none =>
      unfold Mm.readByte
      simp only [h.walk (Nat.mod_lt k (by decide))]
      cases m.walk d (k % wordModulus) with
      | none =>
          refine ⟨fun ⟨_, h⟩ => ?_, fun h => ?_⟩
          · cases h
          · cases h trivial
      | some phys => exact ⟨fun _ _ => rfl, fun _ => ⟨_, rfl⟩⟩

/-- A store to a page the caller may access changes one byte, and no page. -/
theorem CallerMemory.writeByte (h : CallerMemory m d) (byte : UInt8) (hs : SamePages m m' d)
    (ha : UserAccessible m d virt) :
    ∃ m₁, m'.writeByte d virt byte = .ok m₁ ∧ SamePages m m₁ d ∧
      ∀ f o, m₁.frames f o ≠ m'.frames f o → m.walk d virt = some (f * pageSize + o) := by
  have hv := user_page (h.below ha)
  obtain ⟨hlt, e, he, -⟩ := ha
  obtain ⟨hdir, htable⟩ := h.data _ e hv he
  have hwalk : m.walk d virt = some (frameMask e + virt % pageSize) := by
    rw [Mm.walk_eq, he]
    rfl
  have hpage : (frameMask e + virt % pageSize) / pageSize = e / pageSize := by
    simp only [frameMask, pageSize]
    omega
  have hoffset : (frameMask e + virt % pageSize) % pageSize = virt % pageSize := by
    simp only [frameMask, pageSize]
    omega
  unfold Mm.writeByte
  rw [hs.walk hlt, hwalk]
  refine ⟨_, rfl, ?_, fun f o hne => ?_⟩
  · rw [hpage]
    have hframe : ∀ f, f ≠ e / pageSize → ∀ j, Mm.entry { m' with
        frames := Function.update m'.frames (e / pageSize) (Function.update
          (m'.frames (e / pageSize)) ((frameMask e + virt % pageSize) % pageSize) byte) } f j =
        m'.entry f j := by
      intro f hf j
      unfold Mm.entry
      simp only [Function.update_of_ne hf]
    refine ⟨fun j hj => (hframe d hdir.symm j).trans (hs.entries j hj), fun v hv => ?_⟩
    rw [← hs.pages v hv]
    unfold Mm.pte
    simp only [hframe d hdir.symm]
    split
    · next hp =>
      have hentry := hs.entries (v / 1024) hv
      rw [hframe]
      rw [hentry] at hp ⊢
      exact htable _ hv hp
    · rfl
  · -- Only the byte at the address itself differs.
    simp only [hpage, hoffset] at hne
    by_cases hf : f = e / pageSize
    · subst hf
      by_cases ho : o = virt % pageSize
      · subst ho
        rfl
      · simp only [Function.update_self, Function.update_of_ne ho] at hne
        exact absurd rfl hne
    · simp only [Function.update_of_ne hf] at hne
      exact absurd rfl hne

/-- One iteration of `memcpy`. -/
theorem copyToUser_succ {m₁ : Mm} (hbyte : sourceByte m' d fs i (position + k) = .ok byte)
    (hwrite : m'.writeByte d ((buffer + k) % wordModulus) byte = .ok m₁) :
    copyToUser d fs i position buffer m' k (n + 1) =
      (report ⟨(buffer + k) % wordModulus, true⟩ >>= fun _ =>
        copyToUser d fs i position buffer m₁ (k + 1) n) := by
  rw [copyToUser, hbyte, silent_ok_bind, User.writeByte, hwrite]
  rfl

/-- `memcpy` to the caller's buffer stores to every byte up to the first that cannot be read, and to
no other. -/
theorem copyToUser_reports (h : CallerMemory m d) (hs : SamePages m m' d)
    (hok : ∀ j < n, UserAccessible m d (buffer + (k + j))) (R : UserAccess → Prop) :
    Reports R (copyToUser d fs i position buffer m' k n) ↔
      ∀ j < n, (∀ l ≤ j, sourceReadable m d fs i (position + (k + l))) →
        R ⟨buffer + (k + j), true⟩ := by
  induction n generalizing m' k with
  | zero =>
      constructor
      · intro _ j hj
        exact absurd hj (Nat.not_lt_zero j)
      · intro _
        exact reports_pure
  | succ n ih =>
      have hfirst := hok 0 (by omega)
      have hwrap : (buffer + k) % wordModulus = buffer + k := Nat.mod_eq_of_lt hfirst.1
      have hstep : ∀ a j, a + (k + 1 + j) = a + (k + (j + 1)) := by
        intro a j
        omega
      by_cases hread : sourceReadable m d fs i (position + k)
      · obtain ⟨byte, hbyte⟩ := (sourceByte_ok hs).mpr hread
        obtain ⟨m₁, hwrite, hs₁, -⟩ := h.writeByte byte hs hfirst
        rw [copyToUser_succ hbyte (by rw [hwrap]; exact hwrite), reports_report_bind, hwrap,
          ih hs₁ fun j hj => hstep buffer j ▸ hok (j + 1) (by omega)]
        constructor
        · rintro ⟨hR, hrest⟩ j hj hall
          cases j with
          | zero => exact hR
          | succ j =>
              rw [← hstep]
              refine hrest j (by omega) fun l hl => ?_
              rw [hstep]
              exact hall (l + 1) (by omega)
        · intro hall
          refine ⟨hall 0 (by omega) fun l hl => ?_, fun j hj hrest => ?_⟩
          · cases Nat.le_zero.mp hl
            exact hread
          · rw [hstep]
            refine hall (j + 1) (by omega) fun l hl => ?_
            cases l with
            | zero => exact hread
            | succ l =>
                rw [← hstep]
                exact hrest l (by omega)
      · -- The first byte cannot be read, so nothing is stored.
        cases hbyte : sourceByte m' d fs i (position + k) with
        | ok byte => exact absurd ((sourceByte_ok hs).mp ⟨byte, hbyte⟩) hread
        | error e =>
            rw [copyToUser, hbyte, silent_error_bind]
            constructor
            · intro _ j _ hall
              exact absurd (hall 0 (Nat.zero_le j)) hread
            · intro _
              exact reports_silent

/-- The frames change at the bytes of the buffer only. -/
theorem copyToUser_frames {m₁ : Mm} (h : CallerMemory m d) (hs : SamePages m m' d)
    (hok : ∀ j < n, UserAccessible m d (buffer + (k + j)))
    (hm : (copyToUser d fs i position buffer m' k n).result = .ok m₁) (f o : Nat)
    (hne : m₁.frames f o ≠ m'.frames f o) :
    ∃ j < n, (∀ l ≤ j, sourceReadable m d fs i (position + (k + l))) ∧
      m.walk d (buffer + (k + j)) = some (f * pageSize + o) := by
  induction n generalizing m' k with
  | zero =>
      cases hm
      exact absurd rfl hne
  | succ n ih =>
      have hfirst := hok 0 (by omega)
      have hwrap : (buffer + k) % wordModulus = buffer + k := Nat.mod_eq_of_lt hfirst.1
      have hstep : ∀ a j, a + (k + 1 + j) = a + (k + (j + 1)) := by
        intro a j
        omega
      cases hbyte : sourceByte m' d fs i (position + k) with
      | error e =>
          rw [copyToUser, hbyte, silent_error_bind] at hm
          cases hm
      | ok byte =>
          have hread := (sourceByte_ok hs).mp ⟨byte, hbyte⟩
          obtain ⟨m₂, hwrite, hs₂, hone⟩ := h.writeByte byte hs hfirst
          rw [copyToUser_succ hbyte (by rw [hwrap]; exact hwrite), result_bind] at hm
          by_cases hsame : m₂.frames f o = m'.frames f o
          · obtain ⟨j, hj, hall, hwalk⟩ := ih hs₂
              (fun j hj => hstep buffer j ▸ hok (j + 1) (by omega)) hm (hsame ▸ hne)
            refine ⟨j + 1, by omega, fun l hl => ?_, hstep buffer j ▸ hwalk⟩
            cases l with
            | zero => exact hread
            | succ l =>
                rw [← hstep]
                exact hall l (by omega)
          · refine ⟨0, by omega, fun l hl => ?_, hone f o hsame⟩
            cases Nat.le_zero.mp hl
            exact hread

end Stores

/-! ## `syscall_handler` -/

/-- An access inside the caller's memory; what is stored to, the caller may write. -/
def UserAccess.Allowed (m : Mm) (directory : Nat) (a : UserAccess) : Prop :=
  UserAccessible m directory a.virt ∧
    (a.store = true → m.rights directory (a.virt / pageSize) = some ⟨true, true⟩)

/-- `SYS_READ` passes its checks and has a byte for `buffer + j`. -/
def Caller.Fills (c : Caller) (regs : Registers) (j : Nat) : Prop :=
  regs.eax = sysRead ∧ pagingUserRangeValid c.mm c.directory regs.ecx regs.edx = .ok true ∧
    ∃ file i, processGetFile c.files regs.ebx = some file ∧ file.readable regs.ecx = some i ∧
      j < file.transfer c.fs i regs.edx ∧
      ∀ l ≤ j, sourceReadable c.mm c.directory c.fs i (file.position + l)

/-- The registers the handlers read hold 32-bit words. -/
structure Registers.Words (regs : Registers) : Prop where
  ebx : regs.ebx < wordModulus
  ecx : regs.ecx < wordModulus
  edx : regs.edx < wordModulus

section Handler

variable {c c' : Caller} {regs : Registers} {m : Mm} {d buffer count : Nat} {fs : Fs} {file : File}

theorem transfer_le (i : Nat) : file.transfer fs i count ≤ count := by
  unfold File.transfer
  split
  · exact Nat.zero_le count
  · exact Nat.min_le_left ..

/-- `file_read` when one of its checks fails. -/
theorem fileRead_none (hi : file.readable buffer = none) :
    fileRead m d fs file buffer count = pure (none, file, m) := by
  unfold fileRead
  rw [hi]

/-- `file_read` when none does. -/
theorem fileRead_some {i : Nat} (hi : file.readable buffer = some i) :
    fileRead m d fs file buffer count =
      (copyToUser d fs i file.position buffer m 0 (file.transfer fs i count) >>= fun m =>
        return (some (file.transfer fs i count),
          { file with position := file.position + file.transfer fs i count }, m)) := by
  unfold fileRead
  rw [hi]

/-- `sys_read` stores to the bytes that it fills, and to no other. -/
theorem read_reports (h : CallerMemory c.mm c.directory) (hregs : regs.Words)
    (hread : regs.eax = sysRead) (R : UserAccess → Prop) :
    Reports R (c.read regs.ebx regs.ecx regs.edx) ↔
      ∀ j, c.Fills regs j → R ⟨regs.ecx + j, true⟩ := by
  unfold Caller.read Caller.Fills
  cases hvalid : pagingUserRangeValid c.mm c.directory regs.ecx regs.edx with
  | error e => simp [hread]
  | ok valid =>
      cases valid with
      | false => simp [hread]
      | true =>
          have hrange := fun k hk => pagingUserRangeValid_spec (k := k) hvalid hregs.ecx hregs.edx hk
          rw [silent_ok_bind]
          unfold processRead
          cases hfile : processGetFile c.files regs.ebx with
          | none => simp [reports_bind]
          | some file =>
              cases hi : file.readable regs.ecx with
              | none => simp [fileRead_none hi, reports_bind, hi]
              | some i =>
                  have hok : ∀ j < file.transfer c.fs i regs.edx,
                      UserAccessible c.mm c.directory (regs.ecx + (0 + j)) := fun j hj => by
                    rw [Nat.zero_add]
                    exact hrange j (Nat.lt_of_lt_of_le hj (transfer_le i))
                  have hcopy : Reports R (copyToUser c.directory c.fs i file.position regs.ecx c.mm 0
                      (file.transfer c.fs i regs.edx)) ↔ _ :=
                    copyToUser_reports h ⟨fun _ _ => rfl, fun _ _ => rfl⟩ hok R
                  simp only [Nat.zero_add] at hcopy
                  simp [fileRead_some hi, reports_bind, hread, hi, hcopy]

/-- `sys_read` changes memory at the bytes that it fills only. -/
theorem read_frames {eax : Nat} (h : CallerMemory c.mm c.directory) (hregs : regs.Words)
    (hread : regs.eax = sysRead) (hr : (c.read regs.ebx regs.ecx regs.edx).result = .ok (eax, c'))
    (f o : Nat) (hne : c'.mm.frames f o ≠ c.mm.frames f o) :
    ∃ j, c.Fills regs j ∧ c.mm.walk c.directory (regs.ecx + j) = some (f * pageSize + o) := by
  unfold Caller.read at hr
  unfold Caller.Fills
  cases hvalid : pagingUserRangeValid c.mm c.directory regs.ecx regs.edx with
  | error e =>
      rw [hvalid, silent_error_bind] at hr
      cases hr
  | ok valid =>
      rw [hvalid, silent_ok_bind] at hr
      cases valid with
      | false =>
          cases hr
          exact absurd rfl hne
      | true =>
          have hrange := fun k hk => pagingUserRangeValid_spec (k := k) hvalid hregs.ecx hregs.edx hk
          unfold processRead at hr
          cases hfile : processGetFile c.files regs.ebx with
          | none =>
              rw [hfile] at hr
              cases hr
              exact absurd rfl hne
          | some file =>
              rw [hfile] at hr
              cases hi : file.readable regs.ecx with
              | none =>
                  simp only [fileRead_none hi, Bool.not_true, Bool.false_eq_true, if_false] at hr
                  cases hr
                  exact absurd rfl hne
              | some i =>
                  simp only [fileRead_some hi, Bool.not_true, Bool.false_eq_true, if_false,
                    result_bind] at hr
                  obtain ⟨r, hr, hlast⟩ := Checked.bind_eq_ok.mp hr
                  obtain ⟨r₁, hr₁, hr⟩ := Checked.bind_eq_ok.mp hr
                  obtain ⟨m₁, hm₁, hr₁⟩ := Checked.bind_eq_ok.mp hr₁
                  cases hr₁
                  cases hr
                  cases hlast
                  have hok : ∀ j < file.transfer c.fs i regs.edx,
                      UserAccessible c.mm c.directory (regs.ecx + (0 + j)) := fun j hj => by
                    rw [Nat.zero_add]
                    exact hrange j (Nat.lt_of_lt_of_le hj (transfer_le i))
                  obtain ⟨j, hj, hall, hwalk⟩ := copyToUser_frames h ⟨fun _ _ => rfl, fun _ _ => rfl⟩
                    hok hm₁ f o hne
                  simp only [Nat.zero_add] at hall hwalk
                  exact ⟨j, ⟨hread, rfl, file, i, rfl, hi, hj, hall⟩, hwalk⟩

/-- Without the return value `syscall_handler` does what the handler of the number does. -/
theorem handler_read (hread : regs.eax = sysRead) :
    syscallHandler c regs = (c.read regs.ebx regs.ecx regs.edx >>= fun r =>
      return .returned r.1 r.2) := by
  unfold syscallHandler
  rw [hread]
  rfl

/-- Every other system call only reads, and only what the caller may access. -/
theorem handler_post (h : CallerMemory c.mm c.directory) (hregs : regs.Words)
    (hread : regs.eax ≠ sysRead) :
    Post (UserRead c.mm c.directory) (fun _ => True) (syscallHandler c regs) := by
  unfold syscallHandler
  split
  · exact .pure trivial
  · split
    · exact (write_post hregs.ecx hregs.edx).bind fun _ _ => .pure trivial
    · split
      · exact (open_post h hregs.ebx).bind fun _ _ => .pure trivial
      · split
        · exact .pure trivial
        · split
          · refine (execArguments_post h hregs.ebx).bind fun r _ => ?_
            obtain ⟨args, c'⟩ := r
            cases args with
            | none => exact .pure trivial
            | some args => exact .pure trivial
          · exact .pure trivial

/-- Every byte a system call follows the caller's pointers to is on a page the caller may access.
The caller may also write what is stored to exactly when that holds of every byte `SYS_READ` fills;
memory changes only where it stores. -/
theorem syscall_confined_iff (h : CallerMemory c.mm c.directory) (hregs : regs.Words) :
    Reports (fun a => UserAccessible c.mm c.directory a.virt) (syscallHandler c regs) ∧
    (Reports (UserAccess.Allowed c.mm c.directory) (syscallHandler c regs) ↔
      ∀ j, c.Fills regs j →
        c.mm.rights c.directory ((regs.ecx + j) / pageSize) = some ⟨true, true⟩) ∧
    (regs.eax = sysRead → ∀ eax c', (syscallHandler c regs).result = .ok (.returned eax c') →
      ∀ f o, c'.mm.frames f o ≠ c.mm.frames f o → ∃ a ∈ (syscallHandler c regs).events,
        a.store = true ∧ c.mm.walk c.directory a.virt = some (f * pageSize + o)) := by
  by_cases hread : regs.eax = sysRead
  · have hreports : ∀ R : UserAccess → Prop, Reports R (syscallHandler c regs) ↔
        ∀ j, c.Fills regs j → R ⟨regs.ecx + j, true⟩ := by
      intro R
      rw [handler_read hread, reports_bind, read_reports h hregs hread]
      exact and_iff_left fun _ _ => reports_pure
    have hok : ∀ j, c.Fills regs j → UserAccessible c.mm c.directory (regs.ecx + j) := by
      rintro j ⟨-, hvalid, file, i, -, -, hj, -⟩
      exact pagingUserRangeValid_spec hvalid hregs.ecx hregs.edx
        (Nat.lt_of_lt_of_le hj (transfer_le i))
    refine ⟨(hreports _).mpr hok, ?_, fun _ eax c' hr f o hne => ?_⟩
    · rw [hreports]
      constructor
      · intro hall j hj
        exact (hall j hj).2 rfl
      · intro hall j hj
        exact ⟨hok j hj, fun _ => hall j hj⟩
    · rw [handler_read hread, result_bind] at hr
      obtain ⟨⟨eax', c₁⟩, hread', hlast⟩ := Checked.bind_eq_ok.mp hr
      cases hlast
      obtain ⟨j, hj, hwalk⟩ := read_frames h hregs hread hread' f o hne
      exact ⟨_, (hreports (· ∈ (syscallHandler c regs).events)).mp (fun _ ha => ha) j hj, rfl, hwalk⟩
  · have hpost := (handler_post h hregs hread).reports
    refine ⟨fun a ha => (hpost a ha).2, ⟨fun _ j hj => absurd hj.1 hread, fun _ a ha => ?_⟩,
      fun heax => absurd heax hread⟩
    refine ⟨(hpost a ha).2, fun hstore => ?_⟩
    rw [(hpost a ha).1] at hstore
    cases hstore

end Handler

/-! ## A read of four bytes -/

/-- Directory 2 maps one page, at 0x400000 with these flags; descriptor 0 is open on a file of four
bytes. -/
def oneUserPage (flags : Nat) : Caller where
  mm := { Directories.sample with
    pmm :=
      { totalPages := 16, bitmap := fun page => decide (page < 8), freePages := 8
        failAllocations := 0 }
    frames := fun f =>
      if f = 2 then Bytes.setWord Bytes.zero 1 0x3007
      else if f = 3 then Bytes.setWord Bytes.zero 0 (pageEntry 0x5000 flags) else Bytes.zero
    heapEnd := kernelHeapStart }
  directory := 2
  files fd := { used := fd == 0, file := { fsFile := some 0, position := 0, access := fileAccessRead } }
  fs :=
    { image := Bytes.write32 (Bytes.write32 (Bytes.write32 (Bytes.write32 (Bytes.write32 Bytes.zero
        8 1) 12 20) 84 92) 88 4) 92 0x64636261
      imageSize := 96
      superblock := true }
  console := []

/-- `SYS_READ` of four bytes from descriptor 0 to 0x400000. -/
def readFour : Registers where
  eax := sysRead
  ebx := 0
  ecx := 0x400000
  edx := 4

theorem readFour_words : readFour.Words := ⟨by decide, by decide, by decide⟩

section Sample

variable {flags i v e : Nat}

theorem oneUserPage_directory (flags i : Nat) :
    (oneUserPage flags).mm.entry 2 i = if i = 1 then 0x3007 else 0 := by
  show Bytes.word (Bytes.setWord Bytes.zero 1 0x3007) i = _
  rw [Bytes.word_setWord _ 1 i (by decide), Bytes.word_zero]

theorem oneUserPage_kernel (flags i : Nat) : (oneUserPage flags).mm.entry 1 i = 0 := by
  show Bytes.word Bytes.zero i = 0
  rw [Bytes.word_zero]

theorem oneUserPage_table (hflags : flags < pageSize) (i : Nat) :
    (oneUserPage flags).mm.entry 3 i = if i = 0 then pageEntry 0x5000 flags else 0 := by
  show Bytes.word (Bytes.setWord Bytes.zero 0 (pageEntry 0x5000 flags)) i = _
  rw [Bytes.word_setWord _ 0 i (pageEntry_lt (by decide) hflags), Bytes.word_zero]

theorem oneUserPage_pte (hflags : flags < pageSize) (he : (oneUserPage flags).mm.pte 2 v = some e) :
    v = 0x400 ∧ e = pageEntry 0x5000 flags := by
  unfold Mm.pte at he
  simp only [oneUserPage_directory] at he
  by_cases hv : v / 1024 = 1
  · have htable : 0x3007 / pageSize = 3 := by decide
    rw [if_pos hv, if_pos (by decide), htable, oneUserPage_table hflags] at he
    by_cases hj : v % 1024 = 0
    · simp only [hj, if_true] at he
      split at he
      · cases he
        exact ⟨by omega, rfl⟩
      · cases he
    · rw [if_neg hj, if_neg (by decide)] at he
      cases he
  · rw [if_neg hv, if_neg (by decide)] at he
    cases he

theorem oneUserPage_memory (hflags : flags < pageSize) :
    CallerMemory (oneUserPage flags).mm (oneUserPage flags).directory := by
  have hframe : pageEntry 0x5000 flags / pageSize = 5 := by
    rw [pageEntry_div hflags]
    rfl
  have hentry : ∀ i, present ((oneUserPage flags).mm.entry 2 i) = true →
      (oneUserPage flags).mm.entry 2 i / pageSize = 3 := by
    intro i hp
    rw [oneUserPage_directory] at hp ⊢
    by_cases hi : i = 1
    · rw [if_pos hi]
      rfl
    · rw [if_neg hi] at hp
      cases hp
  refine ⟨fun v e hlo _ he => ?_, fun f hf => ?_, fun v e _ he => ?_, ?_, ?_⟩
  · obtain ⟨rfl, -⟩ := oneUserPage_pte hflags he
    exact absurd hlo (by decide)
  · have hfive : f = 2 ∨ f = 3 ∨ f = 5 := by
      cases hf with
      | directory => exact .inl rfl
      | table i hi hp => exact .inr (.inl (hentry i hp))
      | page v e hv he =>
          obtain ⟨-, rfl⟩ := oneUserPage_pte hflags he
          exact .inr (.inr hframe)
    refine ⟨?_, ?_, fun i _ _ hp => ?_⟩
    · show f ≠ 1
      omega
    · rintro ⟨-, hclear⟩
      have hhigh : ¬ f < 8 := of_decide_eq_false hclear
      omega
    · have hzero : present ((oneUserPage flags).mm.entry 1 i) = true := hp
      rw [oneUserPage_kernel] at hzero
      cases hzero
  · obtain ⟨-, rfl⟩ := oneUserPage_pte hflags he
    rw [hframe]
    refine ⟨?_, fun i _ hp heq => ?_⟩
    · show 5 ≠ 2
      decide
    · have hthree := (hentry i hp).symm.trans heq
      omega
  · show 16 ≤ 0x100000
    decide
  · show kernelHeapStart < wordModulus
    decide

end Sample

/-- How the read of four bytes ends: the value in `eax` and the first byte of the page. -/
def readFourEnd (flags : Nat) : Option (Nat × UInt8) :=
  match (syscallHandler (oneUserPage flags) readFour).result with
  | .ok (.returned eax c) => some (eax, c.mm.frames 5 0)
  | _ => none

theorem readFourEnd_spec {flags eax : Nat} {byte : UInt8}
    (h : readFourEnd flags = some (eax, byte)) :
    ∃ c, (syscallHandler (oneUserPage flags) readFour).result = .ok (.returned eax c) ∧
      c.mm.frames 5 0 = byte := by
  unfold readFourEnd at h
  split at h
  · next eax' c hresult =>
    cases h
    exact ⟨c, hresult, rfl⟩
  · cases h

set_option maxRecDepth 4000 in
/-- The page is mapped read-only, and `SYS_READ` writes the file to it. -/
theorem readOnly_page_written :
    CallerMemory (oneUserPage 5).mm (oneUserPage 5).directory ∧ readFour.Words ∧
      (oneUserPage 5).mm.rights 2 0x400 = some ⟨false, true⟩ ∧
      ⟨0x400000, true⟩ ∈ (syscallHandler (oneUserPage 5) readFour).events ∧
      ∃ c, (syscallHandler (oneUserPage 5) readFour).result = .ok (.returned 4 c) ∧
        (oneUserPage 5).mm.frames 5 0 = 0 ∧ c.mm.frames 5 0 = 0x61 := by
  refine ⟨oneUserPage_memory (by decide), readFour_words, by decide +kernel, by decide +kernel, ?_⟩
  obtain ⟨c, hresult, hbyte⟩ := readFourEnd_spec
    (show readFourEnd 5 = some (4, 0x61) by decide +kernel)
  exact ⟨c, hresult, by decide +kernel, hbyte⟩

set_option maxRecDepth 4000 in
/-- On a page the caller may write, `SYS_READ` is confined. -/
theorem syscall_confined_writable :
    Reports (UserAccess.Allowed (oneUserPage 7).mm 2) (syscallHandler (oneUserPage 7) readFour) ∧
      ∃ a ∈ (syscallHandler (oneUserPage 7) readFour).events, a.store = true ∧
        (oneUserPage 7).mm.walk 2 a.virt = some (5 * pageSize + 0) := by
  obtain ⟨-, hallowed, hchanged⟩ :=
    syscall_confined_iff (oneUserPage_memory (show 7 < pageSize by decide)) readFour_words
  constructor
  · refine hallowed.mpr ?_
    rintro j ⟨-, -, file, i, -, -, hj, -⟩
    have hcount : j < 4 := Nat.lt_of_lt_of_le hj (transfer_le i)
    have hpage : (readFour.ecx + j) / pageSize = 0x400 := by
      simp only [readFour, pageSize]
      omega
    rw [hpage]
    decide +kernel
  · obtain ⟨c, hresult, hbyte⟩ := readFourEnd_spec
      (show readFourEnd 7 = some (4, 0x61) by decide +kernel)
    refine hchanged rfl 4 c hresult 5 0 ?_
    rw [hbyte]
    decide +kernel

end Neox
