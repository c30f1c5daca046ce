import LinuxKernelProg.Vm.Walk

/-!
# The physical address userwalk prints

The byte the walker reads and modifies is always the one the address translates to
(`mapped_addr_eq`). The address it prints is that of this byte for a 4KB page; for a huge page it is
only when the bits from 52 on are clear, since `PUD_MASK` and `PMD_MASK` keep them, and it never is
for an entry that is present to the kernel only, whose frame number is stored inverted.
-/

namespace LinuxKernelProg.Vm

open LinuxKernelProg.Lib

/-- The word the kernel takes the frame number from. -/
def plainWord (w : Word) : Word := w ^^^ protnone_mask w

theorem plainWord_of_present {w : Word} (h : _PAGE_PRESENT w = true) : plainWord w = w := by
  simp [plainWord, protnone_mask, h]

theorem toNat_plainWord_of_not_present {w : Word} (h0 : w ≠ 0) (h : _PAGE_PRESENT w = false) :
    (plainWord w).toNat = 2 ^ 64 - 1 - w.toNat := by
  simp only [plainWord, protnone_mask, h0, h, ne_eq, not_false_eq_true, and_self, if_true]
  rw [BitVec.xor_allOnes, BitVec.toNat_not]

/-- The address of the page of a leaf. -/
theorem page_address_pfn (l : Leaf) :
    page_address l.pfn =
      (plainWord l.val).toNat % 2 ^ 52 / 2 ^ l.size.shift * 2 ^ l.size.shift := by
  have key : ∀ (x : Word) (k : Nat), 12 ≤ k →
      ((x &&& (maskFrom 64 k &&& PHYSICAL_MASK)) >>> PAGE_SHIFT).toNat * 2 ^ PAGE_SHIFT =
        x.toNat % 2 ^ 52 / 2 ^ k * 2 ^ k := by
    intro x k hk
    rw [BitVec.toNat_ushiftRight, PHYSICAL_MASK, toNat_and_maskFrom_and_not, PAGE_SHIFT,
      Nat.shiftRight_eq_div_pow]
    obtain ⟨j, rfl⟩ := Nat.exists_eq_add_of_le' hk
    rw [Nat.pow_add, ← Nat.mul_assoc, Nat.mul_div_cancel _ (by decide)]
  cases l with
  | pte l => exact key _ _ (by decide)
  | pmd l => exact key _ _ (by decide)
  | pud l => exact key _ _ (by decide)

/-- The address that the leaf and the offset in it stand for. -/
def Leaf.address (l : Leaf) (vaddr : Word) : Nat :=
  page_address l.pfn + vaddr.toNat % 2 ^ l.size.shift

section

variable (vaddr : Word) (mem : Memory)

/-- The byte that is read and modified on the 2MB and the 4KB path. -/
theorem mapped_addr_eq (l : Leaf) :
    (walkAt vaddr mem l).mapped_addr =
      if l.size = .size1G then none else some (l.address vaddr) := by
  cases l with
  | pud l => rfl
  | pte l =>
    simp only [walkAt, Userwalk.outcome, access_4k, PAGE_MASK, toNat_and_not_maskFrom]
    rfl
  | pmd l =>
    simp only [walkAt, Userwalk.outcome, access_2m, PAGE_MASK, PMD_MASK, toNat_and_not_maskFrom,
      BitVec.toNat_ushiftRight, Nat.shiftRight_eq_div_pow, Leaf.size, reduceCtorEq, if_false,
      Option.some.injEq, Leaf.address, Leaf.pfn, page_address, PageSize.shift,
        PAGE_SHIFT, PMD_SHIFT]
    omega

/-- The printed address, as a number. -/
theorem paddr_eq (l : Leaf) :
    ∃ a, (walkAt vaddr mem l).paddr = some (l.size, a) ∧
      a.toNat = (if l.size = .size4K then l.val.toNat % 2 ^ 52 else l.val.toNat) /
        2 ^ l.size.shift * 2 ^ l.size.shift + vaddr.toNat % 2 ^ l.size.shift := by
  cases l with
  | pud l => exact ⟨_, rfl, toNat_or_and_not_maskFrom (toNat_and_maskFrom _ _) _⟩
  | pmd l => exact ⟨_, rfl, toNat_or_and_not_maskFrom (toNat_and_maskFrom _ _) _⟩
  | pte l => exact ⟨_, rfl, toNat_or_and_not_maskFrom (toNat_and_maskFrom_and_not _ _ _) _⟩

end

theorem Leaf.val_ne_zero (l : Leaf) : l.val ≠ 0 := by
  intro h
  cases l with
  | pte l =>
    have hp := l.present
    rw [show l.val = 0 from h] at hp
    exact absurd hp (by decide)
  | pmd l =>
    have hp := l.pse
    rw [show l.val = 0 from h] at hp
    exact absurd hp (by decide)
  | pud l =>
    have hp := l.pse
    rw [show l.val = 0 from h] at hp
    exact absurd hp (by decide)

/-- The printed address is the frame number times 4096 plus the offset in the leaf, and on the 2MB
and 4KB paths it is the address of the byte that is read and modified. -/
def PaddrRight (l : Leaf) (vaddr : Word) (w : Walk) : Prop :=
  ∃ a, w.paddr = some (l.size, a) ∧ a.toNat = l.pfn * 4096 + vaddr.toNat % 2 ^ l.size.shift ∧
    (l.size ≠ .size1G → w.mapped_addr = some a.toNat)

/-- **When the printed address is right.** -/
theorem paddrRight_iff {mm : mm_struct} {vaddr : Word} {mem : Memory} {l : Leaf}
    (h : ending (pgd_offset mm vaddr) vaddr = .leaf l) :
    (∃ r w, walk_userspace_page_table (some mm) vaddr mem = some (r, w) ∧ PaddrRight l vaddr w) ↔
      _PAGE_PRESENT l.val = true ∧ (l.size = .size4K ∨ l.val.toNat < 2 ^ 52) := by
  have hwalk : (∃ r w, walk_userspace_page_table (some mm) vaddr mem = some (r, w) ∧
      PaddrRight l vaddr w) ↔ PaddrRight l vaddr (walkAt vaddr mem l) := by
    rw [walk_userspace_page_table_eq, h]
    constructor
    · rintro ⟨r, w, hw, hp⟩
      have hw' : walkAt vaddr mem l = w := congrArg Prod.snd (Option.some.inj hw)
      rwa [hw']
    · exact fun hp => ⟨_, _, rfl, hp⟩
  obtain ⟨a, ha, hat⟩ := paddr_eq vaddr mem l
  have hpage := page_address_pfn l
  -- the byte that is accessed is at the right address, so only the printed address matters
  have hright : PaddrRight l vaddr (walkAt vaddr mem l) ↔ a.toNat = l.address vaddr := by
    simp only [PaddrRight, ha, mapped_addr_eq, Option.some.injEq, Prod.mk.injEq, true_and,
      ↓existsAndEq]
    constructor
    · exact fun h => h.1
    · exact fun h => ⟨h, fun hs => by rw [if_neg hs, h]⟩
  rw [hwalk, hright, hat, Leaf.address, hpage, Nat.add_right_cancel_iff]
  have hlt : l.val.toNat < 2 ^ 64 := l.val.isLt
  by_cases hp : _PAGE_PRESENT l.val = true
  · rw [plainWord_of_present hp]
    cases hs : l.size <;> simp only [hp, PageSize.shift, PAGE_SHIFT, PMD_SHIFT, PUD_SHIFT,
      reduceCtorEq, if_true, if_false, true_and, true_or, false_or] <;> omega
  · -- an inverted frame number differs in every bit
    have hw := toNat_plainWord_of_not_present l.val_ne_zero (by simpa using hp)
    rw [hw]
    cases hs : l.size <;> simp only [hp, PageSize.shift, PAGE_SHIFT, PMD_SHIFT, PUD_SHIFT,
      reduceCtorEq, if_true, if_false, false_and, iff_false, Bool.false_eq_true] <;> omega

theorem paddrRight_ofPmd :
    (∃ r w, walk_userspace_page_table (some (.ofPmd ⟨0x2000e7, by decide⟩)) 5 (fun _ => 0) =
      some (r, w) ∧ PaddrRight (.pmd ⟨0x2000e7, by decide⟩) 5 w) ↔
      _PAGE_PRESENT (0x2000e7 : Word) = true ∧
        (PageSize.size2M = .size4K ∨ (0x2000e7 : Word).toNat < 2 ^ 52) :=
  paddrRight_iff rfl

/-- The NX bit of a 2MB page shows up in the printed address. -/
theorem nx_bit_printed :
    ¬ ∀ (mm : mm_struct) (vaddr : Word) (mem : Memory) (l : Leaf),
      ending (pgd_offset mm vaddr) vaddr = .leaf l →
      ∃ r w, walk_userspace_page_table (some mm) vaddr mem = some (r, w) ∧
        PaddrRight l vaddr w := by
  intro h
  obtain ⟨r, w, hw, a, ha, hat, -⟩ :=
    h (.ofPmd ⟨0x80000000002000e7, by decide⟩) 5 (fun _ => 0) _ rfl
  rw [walk_userspace_page_table_eq] at hw
  cases hw
  have ha' : (0x8000000000200005 : Word) = a := Option.some.inj (congrArg (Option.map Prod.snd) ha)
  subst ha'
  exact absurd hat (by decide)

end LinuxKernelProg.Vm
