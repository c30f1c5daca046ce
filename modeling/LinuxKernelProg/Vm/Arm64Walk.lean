import LinuxKernelProg.Vm.Walk

/-!
# The arm64 walker

`arm64_walk_page_table` of `p1_trans/arm64_pagewalk.c`, with pages of 4KB and four levels, where the
p4d is the pgd. A descriptor says in its two lowest bits what it is: 3 is a table, and 1 a section
at the PUD and PMD levels. The tests for a section stand behind those for a bad entry, and
everything that is no table is bad; so no walk gets to them.
-/

namespace LinuxKernelProg.Vm.Arm64

open LinuxKernelProg.Lib

/-! ## Descriptors -/

/-- A descriptor whose tables hold `T`. -/
inductive Desc (T : Type) where
  | table (val : Word) (type : val &&& 3 = 3) (entries : Fin 512 → T)
  | other (val : Word) (type : val &&& 3 ≠ 3)

namespace Desc

variable {T : Type}

def val : Desc T → Word
  | .table val _ _ => val
  | .other val _ => val

def isNone (d : Desc T) : Bool := d.val == 0

/-- It is not a table. -/
def isBad (d : Desc T) : Bool := d.val &&& 3 != 3

def isSect (d : Desc T) : Bool := d.val &&& 3 == 1

/-- The entry of the next level that `vaddr` selects. -/
def offset (shift : Nat) (vaddr : Word) : Desc T → Option T
  | .table _ _ entries => some (entries (index shift vaddr))
  | .other _ _ => none

end Desc

abbrev pte_t := Word
abbrev pmd_t := Desc pte_t
abbrev pud_t := Desc pmd_t
abbrev p4d_t := Desc pud_t

structure pgd_t where
  p4d : p4d_t

structure mm_struct where
  pgd : Fin 512 → pgd_t

def pgd_offset (mm : mm_struct) (vaddr : Word) : pgd_t := mm.pgd (index P4D_SHIFT vaddr)
def p4d_offset (pgd : pgd_t) (_ : Word) : p4d_t := pgd.p4d
def pud_offset (p4d : p4d_t) (vaddr : Word) : Option pud_t := p4d.offset PUD_SHIFT vaddr
def pmd_offset (pud : pud_t) (vaddr : Word) : Option pmd_t := pud.offset PMD_SHIFT vaddr
def pte_offset_kernel (pmd : pmd_t) (vaddr : Word) : Option pte_t := pmd.offset PAGE_SHIFT vaddr

/-- What is folded is always there. -/
def pgd_none (_ : pgd_t) : Bool := false
def pgd_bad (_ : pgd_t) : Bool := false
def p4d_none : p4d_t → Bool := Desc.isNone
def p4d_bad : p4d_t → Bool := Desc.isBad
def pud_none : pud_t → Bool := Desc.isNone
def pud_bad : pud_t → Bool := Desc.isBad
def pud_sect : pud_t → Bool := Desc.isSect
def pmd_none : pmd_t → Bool := Desc.isNone
def pmd_bad : pmd_t → Bool := Desc.isBad
def pmd_sect : pmd_t → Bool := Desc.isSect
def pte_none (pte : pte_t) : Bool := pte == 0

/-- The bits of the address: from 12 to 47. -/
def PTE_ADDR_MASK : Word := PAGE_MASK &&& ~~~maskFrom 64 48

def pte_pfn (pte : Word) : Nat := ((pte &&& PTE_ADDR_MASK) >>> PAGE_SHIFT).toNat

def pmd_pfn (pmd : Word) : Nat := ((pmd &&& PTE_ADDR_MASK &&& PMD_MASK) >>> PAGE_SHIFT).toNat

/-! ## The walker -/

structure Walk where
  /-- `Physical Address: ... (via ...)` -/
  paddr : Option (PageSize × Word)
  /-- In a section: the page that is selected, from its first page on. -/
  page_offset : Option Nat
  mapped_addr : Option Nat
  mem : Memory

/-- A walk that only prints an error. -/
def Walk.error (mem : Memory) : Walk := ⟨none, none, none, mem⟩

def TEST_STRING : String := "hello world from kernel memory"

/-- Lines 76-81. -/
def report_1g (pud : Word) (vaddr : Word) (mem : Memory) : Walk :=
  let paddr := (pud &&& PUD_MASK) ||| (vaddr &&& ~~~PUD_MASK)
  ⟨some (.size1G, paddr), none, none, mem⟩

def section_page_offset (vaddr : Word) : Word := (vaddr &&& PMD_MASK) >>> PAGE_SHIFT

/-- Lines 97-136. -/
def access_2m (pmd : Word) (vaddr : Word) (mem : Memory) : Walk :=
  let paddr := (pmd &&& PMD_MASK) ||| (vaddr &&& ~~~PMD_MASK)
  let page := pmd_pfn pmd
  let page_offset := section_page_offset vaddr
  let target_page := page + page_offset.toNat
  let mapped_addr := page_address target_page + (vaddr &&& ~~~PAGE_MASK).toNat
  ⟨some (.size2M, paddr), some page_offset.toNat, some mapped_addr,
    upcase TEST_STRING.length mem mapped_addr⟩

/-- Lines 151-174. -/
def access_4k (pte : Word) (vaddr : Word) (mem : Memory) : Walk :=
  let paddr := (pte &&& PTE_ADDR_MASK) ||| (vaddr &&& ~~~PAGE_MASK)
  let page := pte_pfn pte
  let mapped_addr := page_address page + (vaddr &&& ~~~PAGE_MASK).toNat
  ⟨some (.size4K, paddr), none, some mapped_addr, upcase TEST_STRING.length mem mapped_addr⟩

/-- `none` is a fault. -/
def arm64_walk_page_table (mm : Option mm_struct) (vaddr : Word) (mem : Memory) : Option Walk :=
  match mm with
  | none => some (.error mem)
  | some mm =>
    let pgd := pgd_offset mm vaddr
    if pgd_none pgd || pgd_bad pgd then some (.error mem)
    else
      let p4d := p4d_offset pgd vaddr
      if p4d_none p4d || p4d_bad p4d then some (.error mem)
      else
        (pud_offset p4d vaddr).bind fun pud =>
        if pud_none pud || pud_bad pud then some (.error mem)
        else if pud_sect pud then some (report_1g pud.val vaddr mem)
        else
          (pmd_offset pud vaddr).bind fun pmd =>
          if pmd_none pmd || pmd_bad pmd then some (.error mem)
          else if pmd_sect pmd then some (access_2m pmd.val vaddr mem)
          else
            (pte_offset_kernel pmd vaddr).bind fun pte =>
            if pte_none pte then some (.error mem)
            else some (access_4k pte vaddr mem)

/-! ## Sections -/

/-- The section that maps the address, if one does. -/
def sectionAt (mm : mm_struct) (vaddr : Word) : Option (PageSize × Word) :=
  (pud_offset (p4d_offset (pgd_offset mm vaddr) vaddr) vaddr).bind fun pud =>
    if pud_sect pud then some (.size1G, pud.val)
    else
      (pmd_offset pud vaddr).bind fun pmd =>
        if pmd_sect pmd then some (.size2M, pmd.val) else none

/-- The physical address that the section and the offset in it stand for. -/
def sectionAddress (size : PageSize) (val vaddr : Word) : Nat :=
  val.toNat % 2 ^ 48 / 2 ^ size.shift * 2 ^ size.shift + vaddr.toNat % 2 ^ size.shift

/-- The address is reported, and in a 2MB section the page is selected that it is in. -/
structure Reports (size : PageSize) (val vaddr : Word) (w : Walk) : Prop where
  paddr : ∃ a, w.paddr = some (size, a) ∧ a.toNat = sectionAddress size val vaddr
  page : size = .size2M → ∃ i, w.page_offset = some i ∧
    i = vaddr.toNat % 2 ^ PMD_SHIFT / 2 ^ PAGE_SHIFT ∧
    i < 2 ^ PMD_SHIFT / 2 ^ PAGE_SHIFT

variable {T : Type} {mm : mm_struct} {vaddr : Word} {mem : Memory} {size : PageSize} {val : Word}

/-- A section is bad. -/
theorem Desc.isBad_of_isSect {d : Desc T} (h : d.isSect = true) : d.isBad = true := by
  have h1 : d.val &&& 3 = 1 := eq_of_beq h
  rw [isBad, h1]
  rfl

/-- What has an entry of the next level is a table. -/
theorem Desc.of_offset {d : Desc T} {shift : Nat} {t : T} (h : d.offset shift vaddr = some t) :
    d.isNone = false ∧ d.isBad = false := by
  cases d with
  | table w hw entries =>
    refine ⟨?_, ?_⟩
    · refine beq_false_of_ne fun h0 => ?_
      obtain rfl : w = 0 := h0
      exact absurd hw (by decide)
    · rw [isBad, val, hw]
      rfl
  | other => cases h

/-- **No section is reported.** The walk of an address in a section ends in an error. -/
theorem walk_of_section (h : sectionAt mm vaddr = some (size, val)) :
    arm64_walk_page_table (some mm) vaddr mem = some (.error mem) := by
  obtain ⟨pud, hpud, h⟩ := Option.bind_eq_some_iff.1 h
  obtain ⟨hp4d_none, hp4d_bad⟩ := Desc.of_offset hpud
  have hp4d : (p4d_none (p4d_offset (pgd_offset mm vaddr) vaddr) ||
      p4d_bad (p4d_offset (pgd_offset mm vaddr) vaddr)) = false := by
    rw [p4d_none, p4d_bad, hp4d_none, hp4d_bad]
    rfl
  unfold arm64_walk_page_table
  simp only [pgd_none, pgd_bad, Bool.or_self, Bool.false_eq_true, if_false, hp4d,
    hpud, Option.bind_some]
  by_cases hsect : pud_sect pud = true
  · have hbad : pud_bad pud = true := Desc.isBad_of_isSect hsect
    rw [hbad, Bool.or_true, if_pos rfl]
  · rw [if_neg hsect] at h
    obtain ⟨pmd, hpmd, h⟩ := Option.bind_eq_some_iff.1 h
    have hpmd_sect : pmd_sect pmd = true := by
      by_contra hnot
      rw [if_neg hnot] at h
      cases h
    have hbad : pmd_bad pmd = true := Desc.isBad_of_isSect hpmd_sect
    obtain ⟨hpud_none, hpud_bad⟩ := Desc.of_offset hpmd
    rw [pud_none, pud_bad, hpud_none, hpud_bad, Bool.or_self, if_neg Bool.false_ne_true,
      if_neg hsect, hpmd, Option.bind_some, hbad, Bool.or_true, if_pos rfl]

theorem section_not_reported (h : sectionAt mm vaddr = some (size, val)) :
    ¬ ∃ w, arm64_walk_page_table (some mm) vaddr mem = some w ∧ Reports size val vaddr w := by
  rintro ⟨w, hw, hreports⟩
  obtain rfl : Walk.error mem = w := Option.some.inj ((walk_of_section h).symm.trans hw)
  obtain ⟨a, ha, -⟩ := hreports.paddr
  cases ha

/-- Nor would the page be the right one, but for the first page of the address space. -/
theorem section_page_offset_iff (vaddr : Word) :
    (section_page_offset vaddr).toNat = vaddr.toNat % 2 ^ PMD_SHIFT / 2 ^ PAGE_SHIFT ↔
      vaddr.toNat < 2 ^ PAGE_SHIFT := by
  rw [section_page_offset, BitVec.toNat_ushiftRight, PMD_MASK, toNat_and_maskFrom,
    Nat.shiftRight_eq_div_pow, PMD_SHIFT, PAGE_SHIFT]
  omega

/-- Every address is in a 2MB section at `0x40000000`. -/
def mm_struct.ofSection : mm_struct :=
  ⟨fun _ => ⟨.table 3 rfl fun _ => .table 3 rfl fun _ => .other 0x40000705 (by decide)⟩⟩

theorem ofSection_not_reported :
    ¬ ∃ w, arm64_walk_page_table (some .ofSection) 0x5123 (fun _ => 97) = some w ∧
    Reports .size2M 0x40000705 0x5123 w :=
  section_not_reported (rfl : sectionAt .ofSection 0x5123 = some (.size2M, 0x40000705))

theorem ofSection_error : sectionAt .ofSection 0x5123 = some (.size2M, 0x40000705) ∧
    ∃ w, arm64_walk_page_table (some .ofSection) 0x5123 (fun _ => 97) = some w ∧
      ¬ Reports .size2M 0x40000705 0x5123 w := by
  refine ⟨rfl, _, rfl, fun h => ?_⟩
  obtain ⟨a, ha, -⟩ := h.paddr
  cases ha

end LinuxKernelProg.Vm.Arm64
