import LinuxKernelProg.Vm.Paddr

/-!
# What a userwalk call writes

The loop that modifies the page looks at the bytes from the mapped one on, as many as the test
string has and up to the first NUL, and makes its lowercase letters uppercase (`upcase_scanned`,
`upcase_other`). Nothing stops it at the end of the page or at a page that is not writable.
-/

namespace LinuxKernelProg.Vm

/-- The loop looks at the byte `p`: it is one of `n` bytes from `a` on, and no NUL is in front. -/
def Scanned (n : Nat) (mem : Memory) (a p : Nat) : Prop :=
  a ≤ p ∧ p < a + n ∧ ∀ q, a ≤ q → q ≤ p → mem q ≠ 0

theorem toupper_ne {c : UInt8} (h : islower c = true) : toupper c ≠ c ∧ toupper c ≠ 0 := by
  have hc : 97 ≤ c.toNat ∧ c.toNat ≤ 122 := by
    simpa [islower, UInt8.le_iff_toNat_le] using h
  have ht : (toupper c).toNat = c.toNat - 32 := by
    simp only [toupper, UInt8.toNat_add, UInt8.toNat_sub, UInt8.reduceToNat]
    omega
  constructor
  · intro e
    rw [e] at ht
    omega
  · intro e
    rw [e] at ht
    simp only [UInt8.toNat_zero] at ht
    omega

/-- One round of the loop. -/
def upcaseAt (mem : Memory) (a : Nat) : Memory :=
  if islower (mem a) then Function.update mem a (toupper (mem a)) else mem

theorem upcaseAt_ne {mem : Memory} {a p : Nat} (h : p ≠ a) : upcaseAt mem a p = mem p := by
  unfold upcaseAt
  split
  · exact Function.update_of_ne h ..
  · rfl

theorem upcase_succ {n : Nat} {mem : Memory} {a : Nat} (h : mem a ≠ 0) :
    upcase (n + 1) mem a = upcase n (upcaseAt mem a) (a + 1) := by
  simp [upcase, h, upcaseAt]

/-- The rest of the loop looks at the same bytes as before. -/
theorem scanned_succ {n : Nat} {mem : Memory} {a p : Nat} (h : mem a ≠ 0) (hp : p ≠ a) :
    Scanned n (upcaseAt mem a) (a + 1) p ↔ Scanned (n + 1) mem a p := by
  have hq : ∀ q, a + 1 ≤ q → upcaseAt mem a q = mem q := fun q hq => upcaseAt_ne (by omega)
  constructor
  · rintro ⟨hle, hlt, hnul⟩
    refine ⟨by omega, by omega, fun q h₁ h₂ => ?_⟩
    by_cases hqa : q = a
    · exact hqa ▸ h
    · rw [← hq q (by omega)]
      exact hnul q (by omega) h₂
  · rintro ⟨hle, hlt, hnul⟩
    refine ⟨by omega, by omega, fun q h₁ h₂ => ?_⟩
    rw [hq q h₁]
    exact hnul q (by omega) h₂

/-- Only letters the loop looks at change. -/
theorem upcase_other {n : Nat} {mem : Memory} {a p : Nat}
    (h : ¬(Scanned n mem a p ∧ islower (mem p) = true)) : upcase n mem a p = mem p := by
  induction n generalizing mem a with
  | zero => rfl
  | succ n ih =>
    by_cases ha : mem a = 0
    · simp [upcase, ha]
    · rw [upcase_succ ha]
      by_cases hp : p = a
      · subst hp
        have hl : islower (mem p) = false := by
          by_contra hl
          refine h ⟨⟨Nat.le_refl _, by omega, fun q h₁ h₂ => ?_⟩, by simpa using hl⟩
          rwa [Nat.le_antisymm h₂ h₁]
        have hat : upcaseAt mem p = mem := by simp [upcaseAt, hl]
        rw [hat]
        exact ih fun hs => absurd hs.1.1 (by omega)
      · rw [← (upcaseAt_ne hp : upcaseAt mem a p = mem p)] at h ⊢
        exact ih fun hs => h ⟨(scanned_succ ha hp).1 hs.1, hs.2⟩

/-- They become uppercase. -/
theorem upcase_scanned {n : Nat} {mem : Memory} {a p : Nat} (hs : Scanned n mem a p)
    (hl : islower (mem p) = true) : upcase n mem a p = toupper (mem p) := by
  induction n generalizing mem a with
  | zero =>
    obtain ⟨h₁, h₂, -⟩ := hs
    omega
  | succ n ih =>
    have ha : mem a ≠ 0 := hs.2.2 a (Nat.le_refl _) hs.1
    rw [upcase_succ ha]
    by_cases hp : p = a
    · -- this round, and the later ones look elsewhere
      subst hp
      rw [upcase_other fun hs => absurd hs.1.1 (by omega)]
      simp [upcaseAt, hl]
    · rw [← (upcaseAt_ne hp : upcaseAt mem a p = mem p)] at hl ⊢
      exact ih ((scanned_succ ha hp).2 hs) hl

/-! ## The frame of a walk -/

/-- The frame of a walk that returned `ret`: it changes bytes of the page of the address only, from
the offset of the address up to 8 further and in front of the first NUL, from lowercase to
uppercase; and it changes nothing if the leaf does not grant write permission or it returned an
error. -/
structure Framed (mm : mm_struct) (vaddr : Word) (mem : Memory) (ret : Int) (w : Walk) : Prop where
  changes : ∀ p, w.mem p ≠ mem p →
    ∃ l, (ending (pgd_offset mm vaddr) vaddr).leaf? = some l ∧
      page_address l.pfn ≤ p ∧ p < page_address l.pfn + 2 ^ l.size.shift ∧
      l.address vaddr ≤ p ∧ p ≤ l.address vaddr + 8 ∧
      (∀ q, l.address vaddr ≤ q → q ≤ p → mem q ≠ 0) ∧
      islower (mem p) = true ∧ w.mem p = toupper (mem p)
  read_only : ∀ l, (ending (pgd_offset mm vaddr) vaddr).leaf? = some l → _PAGE_RW l.val = false →
    w.mem = mem
  error : ret ≠ 0 → w.mem = mem

/-- The letters among the bytes that the loop looks at are in the page of a leaf that can be
written to. -/
def Contained (l : Leaf) (vaddr : Word) (mem : Memory) : Prop :=
  l.size ≠ .size1G → ∀ p, Scanned 9 mem (l.address vaddr) p → islower (mem p) = true →
    p < page_address l.pfn + 2 ^ l.size.shift ∧ _PAGE_RW l.val = true

theorem walkAt_mem (vaddr : Word) (mem : Memory) (l : Leaf) :
    (walkAt vaddr mem l).mem =
      if l.size = .size1G then mem else upcase 9 mem (l.address vaddr) := by
  have hm := mapped_addr_eq vaddr mem l
  cases l with
  | pud l => rfl
  | pmd l =>
    simp only [walkAt, Userwalk.outcome, access_2m, Leaf.size, reduceCtorEq, if_false,
      Option.some.injEq] at hm ⊢
    rw [hm]
    rfl
  | pte l =>
    simp only [walkAt, Userwalk.outcome, access_4k, Leaf.size, reduceCtorEq, if_false,
      Option.some.injEq] at hm ⊢
    rw [hm]
    rfl

/-- A walk changes exactly the letters that its loop looks at. -/
theorem walkAt_changed_iff {vaddr : Word} {mem : Memory} {l : Leaf} {p : Nat} :
    (walkAt vaddr mem l).mem p ≠ mem p ↔
      l.size ≠ .size1G ∧ Scanned 9 mem (l.address vaddr) p ∧ islower (mem p) = true := by
  rw [walkAt_mem]
  by_cases hsz : l.size = .size1G
  · simp [hsz]
  · rw [if_neg hsz]
    constructor
    · intro hp
      refine ⟨hsz, ?_⟩
      by_contra hs
      exact hp (upcase_other hs)
    · rintro ⟨-, hs, hl⟩
      rw [upcase_scanned hs hl]
      exact (toupper_ne hl).1

/-- **The frame.** -/
theorem framed_iff (mm : mm_struct) (vaddr : Word) (mem : Memory) :
    (∃ r w, walk_userspace_page_table (some mm) vaddr mem = some (r, w) ∧
      Framed mm vaddr mem r w) ↔
      ∀ l, (ending (pgd_offset mm vaddr) vaddr).leaf? = some l → Contained l vaddr mem := by
  rcases walk_userspace_page_table_cases mm vaddr mem with ⟨l, hl, hw⟩ | ⟨hl, hw⟩
  · rw [hw, hl]
    constructor
    · rintro ⟨r, w, hrw, hF⟩ l' hl' hsz p hp hlow
      cases hl'
      cases hrw
      have hne := walkAt_changed_iff.2 ⟨hsz, hp, hlow⟩
      obtain ⟨l', hl', -, hlt, -⟩ := hF.changes p hne
      rw [hl, Option.some.injEq] at hl'
      refine ⟨hl' ▸ hlt, ?_⟩
      by_contra hro
      exact hne (congrFun (hF.read_only l hl (by simpa using hro)) p)
    · intro h
      have hC := h l rfl
      refine ⟨_, _, rfl, fun p hp => ?_, fun l' hl' hro => ?_, fun h0 => absurd rfl h0⟩
      · obtain ⟨hsz, hs, hlow⟩ := walkAt_changed_iff.1 hp
        have hge : page_address l.pfn ≤ l.address vaddr := Nat.le_add_right _ _
        have hend := (hC hsz p hs hlow).1
        refine ⟨l, hl, ?_, hend, hs.1, ?_, hs.2.2, hlow, ?_⟩
        · have := hs.1
          omega
        · have := hs.2.1
          omega
        · rw [walkAt_mem, if_neg hsz, upcase_scanned hs hlow]
      · rw [hl, Option.some.injEq] at hl'
        subst hl'
        funext p
        by_contra hp
        obtain ⟨hsz, hs, hlow⟩ := walkAt_changed_iff.1 hp
        rw [(hC hsz p hs hlow).2] at hro
        cases hro
  · simp only [hw, hl, reduceCtorEq, false_implies, implies_true, iff_true]
    refine ⟨_, _, rfl, fun p hp => absurd rfl hp, fun _ _ _ => rfl, fun _ => rfl⟩

/-- The last byte of a writable 4KB page and the bytes behind it are letters: the byte behind the
page is changed, too. -/
theorem next_page_changed :
    ¬ ∀ (mm : mm_struct) (vaddr : Word) (mem : Memory),
      ∃ r w, walk_userspace_page_table (some mm) vaddr mem = some (r, w) ∧
        Framed mm vaddr mem r w := by
  intro h
  obtain ⟨r, w, hw, hF⟩ := h (.ofPte ⟨0x1067, by decide⟩) 0xfff fun _ => 97
  have hrun : (walk_userspace_page_table (some (.ofPte ⟨0x1067, by decide⟩)) 0xfff fun _ => 97).map
      (fun p => p.2.mem 0x2000) = some 65 := by decide
  rw [hw, Option.map_some, Option.some.injEq] at hrun
  obtain ⟨l, hl, -, hlt, -⟩ := hF.changes 0x2000 (by rw [hrun]; decide)
  cases hl
  exact absurd hlt (by decide)

end LinuxKernelProg.Vm
