import Mathlib.Logic.Function.Basic
import LinuxKernelProg.Vm.PageTable

/-!
# The page-table walkers

`x86_64_walk_page_table` of `p1_trans/x86_64_pagewalk.c` and `walk_userspace_page_table` of
`p3_usertrans/userwalk.c`. Physical memory is a byte for each physical address, and
`page_address` of a page frame is its physical address, so that consecutive frames are adjacent. Of
a walk we keep the line it prints about the physical address, the physical address of the byte it
reads and modifies, and the memory; its other log lines are left out. A `struct page *` is never
NULL, so the tests of `page` are left out as well.

`ending` decides what either walker does (`walk_userspace_page_table_eq`,
`x86_64_walk_page_table_eq`).
-/

namespace LinuxKernelProg.Vm

abbrev Memory := Nat → UInt8

def EINVAL : Int := 22
def EFAULT : Int := 14

structure vm_area_struct where
  vm_start : Word
  vm_end : Word

structure mm_struct where
  pgd : Fin 512 → pgd_t
  /-- In the order of the addresses. -/
  mmap : List vm_area_struct

def pgd_offset (mm : mm_struct) (vaddr : Word) : pgd_t :=
  mm.pgd (index PGDIR_SHIFT vaddr)

/-- Every address is in a 2MB page with this entry. -/
def mm_struct.ofPmd (l : HugeLeaf) : mm_struct :=
  ⟨fun _ => .table fun _ => .table fun _ => .table fun _ => .leaf l, []⟩

/-- Every address is in a 4KB page with this entry. -/
def mm_struct.ofPte (l : PageLeaf) : mm_struct :=
  ⟨fun _ => .table fun _ => .table fun _ => .table fun _ => .table fun _ => .leaf l, []⟩

def page_address (pfn : Nat) : Nat := pfn * 2 ^ PAGE_SHIFT

structure Walk where
  /-- `Physical Address: ... (via ... page)` -/
  paddr : Option (PageSize × Word)
  mapped_addr : Option Nat
  mem : Memory

/-- A walk that only prints an error. -/
def Walk.error (mem : Memory) : Walk := ⟨none, none, mem⟩

/-! ## The leaves -/

def islower (c : UInt8) : Bool := 97 ≤ c && c ≤ 122

def toupper (c : UInt8) : UInt8 := c - 97 + 65

/-- `for (i = 0; i < strlen(TEST_STRING) && mapped_addr[i]; i++)`, with the bytes that are left of
the test string. -/
def upcase : Nat → Memory → Nat → Memory
  | 0, mem, _ => mem
  | n + 1, mem, mapped_addr =>
    if mem mapped_addr = 0 then mem
    else
      let mem := if islower (mem mapped_addr) then
          Function.update mem mapped_addr (toupper (mem mapped_addr))
        else mem
      upcase n mem (mapped_addr + 1)

/-- Lines 127-133 of userwalk.c, 78-81 of x86_64_pagewalk.c. -/
def report_1g (pud : Word) (vaddr : Word) (mem : Memory) : Walk :=
  let paddr := (pud &&& PUD_MASK) ||| (vaddr &&& ~~~PUD_MASK)
  ⟨some (.size1G, paddr), none, mem⟩

/-- Lines 157-190 of userwalk.c, 94-129 of x86_64_pagewalk.c; `len` is `strlen(TEST_STRING)`. -/
def access_2m (len : Nat) (pmd : Word) (vaddr : Word) (mem : Memory) : Walk :=
  let paddr := (pmd &&& PMD_MASK) ||| (vaddr &&& ~~~PMD_MASK)
  let page := pmd_pfn pmd
  let page_offset := (vaddr &&& ~~~PMD_MASK) >>> PAGE_SHIFT
  let target_page := page + page_offset.toNat
  let mapped_addr := page_address target_page + (vaddr &&& ~~~PAGE_MASK).toNat
  ⟨some (.size2M, paddr), some mapped_addr, upcase len mem mapped_addr⟩

/-- Lines 216-253 of userwalk.c, 149-175 of x86_64_pagewalk.c. -/
def access_4k (len : Nat) (pte : Word) (vaddr : Word) (mem : Memory) : Walk :=
  let paddr := (pte &&& PTE_PFN_MASK) ||| (vaddr &&& ~~~PAGE_MASK)
  let page := pte_pfn pte
  let mapped_addr := page_address page + (vaddr &&& ~~~PAGE_MASK).toNat
  ⟨some (.size4K, paddr), some mapped_addr, upcase len mem mapped_addr⟩

/-! ## The walkers -/

namespace Userwalk

def TEST_STRING : String := "userspace"

end Userwalk

/-- `none` is a fault. -/
def walk_userspace_page_table (mm : Option mm_struct) (vaddr : Word) (mem : Memory) :
    Option (Int × Walk) :=
  match mm with
  | none => some (-EINVAL, .error mem)
  | some mm =>
    let pgd := pgd_offset mm vaddr
    if pgd_none pgd || pgd_bad pgd then some (-EFAULT, .error mem)
    else
      (p4d_offset pgd vaddr).bind fun p4d =>
      if p4d_none p4d || p4d_bad p4d then some (-EFAULT, .error mem)
      else
        (pud_offset p4d vaddr).bind fun pud =>
        if pud_none pud then some (-EFAULT, .error mem)
        else
          match pud_leaf pud with
          | some l => some (0, report_1g l.val vaddr mem)
          | none =>
            if pud_bad pud then some (-EFAULT, .error mem)
            else
              (pmd_offset pud vaddr).bind fun pmd =>
              if pmd_none pmd then some (-EFAULT, .error mem)
              else
                match pmd_leaf pmd with
                | some l => some (0, access_2m Userwalk.TEST_STRING.length l.val vaddr mem)
                | none =>
                  if pmd_bad pmd then some (-EFAULT, .error mem)
                  else
                    (pte_offset_kernel pmd vaddr).bind fun pte =>
                    if pte_none pte then some (-EFAULT, .error mem)
                    else if !pte_present pte then some (-EFAULT, .error mem)
                    else some (0, access_4k Userwalk.TEST_STRING.length (pte_val pte) vaddr mem)

namespace Pagewalk

def TEST_STRING : String := "techveda"

end Pagewalk

def x86_64_walk_page_table (mm : Option mm_struct) (vaddr : Word) (mem : Memory) : Option Walk :=
  match mm with
  | none => some (.error mem)
  | some mm =>
    let pgd := pgd_offset mm vaddr
    if pgd_none pgd || pgd_bad pgd then some (.error mem)
    else
      (p4d_offset pgd vaddr).bind fun p4d =>
      if p4d_none p4d || p4d_bad p4d then some (.error mem)
      else
        (pud_offset p4d vaddr).bind fun pud =>
        -- a leaf looks bad, so the test below is never met
        if pud_none pud || pud_bad pud then some (.error mem)
        else
          match pud_leaf pud with
          | some l => some (report_1g l.val vaddr mem)
          | none =>
            (pmd_offset pud vaddr).bind fun pmd =>
            if pmd_none pmd then some (.error mem)
            else
              match pmd_leaf pmd with
              | some l => some (access_2m Pagewalk.TEST_STRING.length l.val vaddr mem)
              | none =>
                if pmd_bad pmd then some (.error mem)
                else
                  (pte_offset_kernel pmd vaddr).bind fun pte =>
                  if pte_none pte then some (.error mem)
                  else some (access_4k Pagewalk.TEST_STRING.length (pte_val pte) vaddr mem)

/-! ## What decides a walk -/

section

variable (mm : mm_struct) (vaddr : Word) (mem : Memory)

/-- What `walk_userspace_page_table` makes of the entry it ends at. -/
def Userwalk.outcome (vaddr : Word) (mem : Memory) : Ending → Int × Walk
  | .invalid => (-EFAULT, .error mem)
  | .leaf (.pud l) => (0, report_1g l.val vaddr mem)
  | .leaf (.pmd l) => (0, access_2m TEST_STRING.length l.val vaddr mem)
  | .leaf (.pte l) => (0, access_4k TEST_STRING.length l.val vaddr mem)
  | .malformed w =>
    if pte_present (.malformed w) then (0, access_4k TEST_STRING.length w vaddr mem)
    else (-EFAULT, .error mem)
  | .swapped _ => (-EFAULT, .error mem)

/-- What the kernel takes the entry for: a malformed PTE that is present is a page, too. -/
def Ending.leaf? : Ending → Option Leaf
  | .leaf l => some l
  | .malformed w =>
    if h : (_PAGE_PRESENT w || _PAGE_PROTNONE w) = true then some (.pte ⟨w, h⟩) else none
  | _ => none

/-- What userwalk does at a leaf. -/
def walkAt (vaddr : Word) (mem : Memory) (l : Leaf) : Walk :=
  (Userwalk.outcome vaddr mem (.leaf l)).2

/-- What `x86_64_walk_page_table` makes of it. -/
def Pagewalk.outcome (vaddr : Word) (mem : Memory) : Ending → Walk
  | .invalid => .error mem
  | .leaf (.pud _) => .error mem
  | .leaf (.pmd l) => access_2m TEST_STRING.length l.val vaddr mem
  | .leaf (.pte l) => access_4k TEST_STRING.length l.val vaddr mem
  | .malformed w => access_4k TEST_STRING.length w vaddr mem
  | .swapped w => access_4k TEST_STRING.length w vaddr mem

theorem walk_userspace_page_table_eq :
    walk_userspace_page_table (some mm) vaddr mem =
      some (Userwalk.outcome vaddr mem (ending (pgd_offset mm vaddr) vaddr)) := by
  simp only [walk_userspace_page_table, ending, p4d_offset]
  cases pgd_offset mm vaddr with
  | table p4ds =>
    simp only [Entry.offset_table, Option.bind_some, pud_offset]
    cases p4ds (index P4D_SHIFT vaddr) with
    | table puds =>
      simp only [Entry.offset_table, Option.bind_some, Option.map_some, Option.getD_some]
      cases puds (index PUD_SHIFT vaddr) with
      | table pmds =>
        simp only [endingPud, pmd_offset, Entry.offset_table, Option.bind_some, Option.map_some,
          Option.getD_some]
        cases pmds (index PMD_SHIFT vaddr) with
        | table ptes =>
          simp only [endingPmd, pte_offset_kernel, Entry.offset_table, Option.bind_some,
            Option.map_some, Option.getD_some]
          cases ptes (index PAGE_SHIFT vaddr) with
          | table entries => exact (entries 0).elim
          | malformed w =>
            change (if !pte_present (.malformed w) then _ else _) =
              some (if pte_present (.malformed w) then _ else _)
            cases pte_present (.malformed w) <;> rfl
          | _ => rfl
        | _ => rfl
      | _ => rfl
    | _ => rfl
  | _ => rfl

theorem x86_64_walk_page_table_eq :
    x86_64_walk_page_table (some mm) vaddr mem =
      some (Pagewalk.outcome vaddr mem (ending (pgd_offset mm vaddr) vaddr)) := by
  simp only [x86_64_walk_page_table, ending, p4d_offset]
  cases pgd_offset mm vaddr with
  | table p4ds =>
    simp only [Entry.offset_table, Option.bind_some, pud_offset]
    cases p4ds (index P4D_SHIFT vaddr) with
    | table puds =>
      simp only [Entry.offset_table, Option.bind_some, Option.map_some, Option.getD_some]
      cases puds (index PUD_SHIFT vaddr) with
      | table pmds =>
        simp only [endingPud, pmd_offset, Entry.offset_table, Option.bind_some, Option.map_some,
          Option.getD_some]
        cases pmds (index PMD_SHIFT vaddr) with
        | table ptes =>
          simp only [endingPmd, pte_offset_kernel, Entry.offset_table, Option.bind_some,
            Option.map_some, Option.getD_some]
          cases ptes (index PAGE_SHIFT vaddr) with
          | table entries => exact (entries 0).elim
          | _ => rfl
        | _ => rfl
      | _ => rfl
    | _ => rfl
  | _ => rfl

/-- Userwalk succeeds at a leaf, and does nothing elsewhere. -/
theorem walk_userspace_page_table_cases :
    (∃ l, (ending (pgd_offset mm vaddr) vaddr).leaf? = some l ∧
      walk_userspace_page_table (some mm) vaddr mem = some (0, walkAt vaddr mem l)) ∨
    (ending (pgd_offset mm vaddr) vaddr).leaf? = none ∧
      walk_userspace_page_table (some mm) vaddr mem = some (-EFAULT, .error mem) := by
  rw [walk_userspace_page_table_eq]
  cases ending (pgd_offset mm vaddr) vaddr with
  | invalid => exact .inr ⟨rfl, rfl⟩
  | leaf l => cases l <;> exact .inl ⟨_, rfl, rfl⟩
  | malformed w =>
    by_cases h : (_PAGE_PRESENT w || _PAGE_PROTNONE w) = true
    · exact .inl ⟨.pte ⟨w, h⟩, dif_pos h, congrArg some (if_pos h)⟩
    · exact .inr ⟨dif_neg h, congrArg some (if_neg h)⟩
  | swapped w => exact .inr ⟨rfl, rfl⟩

end

end LinuxKernelProg.Vm
