import LinuxKernelProg.Lib.Mask

/-!
# Page tables

A five-level page-table tree of x86_64 as the two walkers of `vm/` see it, with the predicates and
masks of `<asm/pgtable.h>` they use, and the translation the hardware makes of it. An entry is
classified by what it is; only a leaf (PSE) entry and a PTE have bits the walkers read.
Following an entry that is no table is a fault (`none`).
-/

namespace LinuxKernelProg.Vm

open LinuxKernelProg.Lib

/-- `unsigned long` -/
abbrev Word := BitVec 64

def PAGE_SHIFT : Nat := 12
def PMD_SHIFT : Nat := 21
def PUD_SHIFT : Nat := 30
def P4D_SHIFT : Nat := 39
def PGDIR_SHIFT : Nat := 48

def PAGE_MASK : Word := maskFrom 64 PAGE_SHIFT
def PMD_MASK : Word := maskFrom 64 PMD_SHIFT
def PUD_MASK : Word := maskFrom 64 PUD_SHIFT

/-- The bits below 52. -/
def PHYSICAL_MASK : Word := ~~~maskFrom 64 52

def PTE_PFN_MASK : Word := PAGE_MASK &&& PHYSICAL_MASK

/-- The flag bits the walkers and the hardware test. -/
def _PAGE_PRESENT (w : Word) : Bool := w.getLsbD 0
def _PAGE_RW (w : Word) : Bool := w.getLsbD 1
def _PAGE_PSE (w : Word) : Bool := w.getLsbD 7
/-- The global bit of an entry that is not `_PAGE_PRESENT`. -/
def _PAGE_PROTNONE (w : Word) : Bool := w.getLsbD 8

/-- The word of a 1GB or 2MB leaf. -/
structure HugeLeaf where
  val : Word
  pse : _PAGE_PSE val = true

/-- The word of a present PTE. A page without access rights is present to the kernel only. -/
structure PageLeaf where
  val : Word
  present : (_PAGE_PRESENT val || _PAGE_PROTNONE val) = true

/-- An entry whose leaves are `L` and whose tables hold `T`. -/
inductive Entry (L T : Type) where
  | empty
  | malformed (w : Word)
  | table (entries : Fin 512 → T)
  | leaf (l : L)
  | swapped (w : Word)

abbrev pte_t := Entry PageLeaf Empty
abbrev pmd_t := Entry HugeLeaf pte_t
abbrev pud_t := Entry HugeLeaf pmd_t
abbrev p4d_t := Entry HugeLeaf pud_t
abbrev pgd_t := Entry HugeLeaf p4d_t

/-- `pgd_index(vaddr)` and so on. -/
def index (shift : Nat) (vaddr : Word) : Fin 512 :=
  ⟨(vaddr >>> shift).toNat % 512, Nat.mod_lt _ (by decide)⟩

namespace Entry

variable {L T : Type}

def isNone : Entry L T → Bool
  | .empty => true
  | _ => false

/-- A huge page looks bad, too. -/
def isBad : Entry L T → Bool
  | .table _ => false
  | _ => true

def leaf? : Entry L T → Option L
  | .leaf l => some l
  | _ => none

/-- The entry of the next level that `vaddr` selects. -/
def offset (shift : Nat) (vaddr : Word) : Entry L T → Option T
  | .table entries => some (entries (index shift vaddr))
  | _ => none

theorem offset_table (shift : Nat) (vaddr : Word) (entries : Fin 512 → T) :
    (Entry.table entries : Entry L T).offset shift vaddr = some (entries (index shift vaddr)) := rfl

end Entry

def pgd_none : pgd_t → Bool := Entry.isNone
def pgd_bad : pgd_t → Bool := Entry.isBad
def p4d_none : p4d_t → Bool := Entry.isNone
def p4d_bad : p4d_t → Bool := Entry.isBad
def pud_none : pud_t → Bool := Entry.isNone
def pud_bad : pud_t → Bool := Entry.isBad
def pmd_none : pmd_t → Bool := Entry.isNone
def pmd_bad : pmd_t → Bool := Entry.isBad
def pte_none : pte_t → Bool := Entry.isNone

/-- `pud_leaf(*pud)`, with the word of the leaf. -/
def pud_leaf : pud_t → Option HugeLeaf := Entry.leaf?
def pmd_leaf : pmd_t → Option HugeLeaf := Entry.leaf?

def p4d_offset (pgd : pgd_t) (vaddr : Word) : Option p4d_t := pgd.offset P4D_SHIFT vaddr
def pud_offset (p4d : p4d_t) (vaddr : Word) : Option pud_t := p4d.offset PUD_SHIFT vaddr
def pmd_offset (pud : pud_t) (vaddr : Word) : Option pmd_t := pud.offset PMD_SHIFT vaddr
def pte_offset_kernel (pmd : pmd_t) (vaddr : Word) : Option pte_t := pmd.offset PAGE_SHIFT vaddr

def pte_val : pte_t → Word
  | .leaf l => l.val
  | .malformed w => w
  | .swapped w => w
  | _ => 0

def pte_present : pte_t → Bool
  | .leaf _ => true
  | .malformed w => _PAGE_PRESENT w || _PAGE_PROTNONE w
  | _ => false

/-! ## Page frame numbers -/

/-- The kernel stores the frame number of an entry that is not `_PAGE_PRESENT` inverted. -/
def protnone_mask (w : Word) : Word :=
  if w ≠ 0 ∧ _PAGE_PRESENT w = false then BitVec.allOnes 64 else 0

def pte_pfn (w : Word) : Nat := (((w ^^^ protnone_mask w) &&& PTE_PFN_MASK) >>> PAGE_SHIFT).toNat

def pmd_pfn (w : Word) : Nat :=
  (((w ^^^ protnone_mask w) &&& (PMD_MASK &&& PHYSICAL_MASK)) >>> PAGE_SHIFT).toNat

def pud_pfn (w : Word) : Nat :=
  (((w ^^^ protnone_mask w) &&& (PUD_MASK &&& PHYSICAL_MASK)) >>> PAGE_SHIFT).toNat

/-! ## Leaves -/

inductive PageSize where
  | size4K
  | size2M
  | size1G
deriving DecidableEq

def PageSize.shift : PageSize → Nat
  | .size4K => PAGE_SHIFT
  | .size2M => PMD_SHIFT
  | .size1G => PUD_SHIFT

/-- A leaf with its level. -/
inductive Leaf where
  | pte (l : PageLeaf)
  | pmd (l : HugeLeaf)
  | pud (l : HugeLeaf)

namespace Leaf

def size : Leaf → PageSize
  | .pte _ => .size4K
  | .pmd _ => .size2M
  | .pud _ => .size1G

def val : Leaf → Word
  | .pte l => l.val
  | .pmd l => l.val
  | .pud l => l.val

/-- The page frame number of the entry. -/
def pfn : Leaf → Nat
  | .pte l => pte_pfn l.val
  | .pmd l => pmd_pfn l.val
  | .pud l => pud_pfn l.val

end Leaf

/-- The entry the tables lead to: the first one on the way that is no table. -/
inductive Ending where
  /-- An entry of an upper level that is neither table nor leaf, or an empty PTE. -/
  | invalid
  | leaf (l : Leaf)
  /-- A PTE. -/
  | malformed (w : Word)
  /-- A PTE. -/
  | swapped (w : Word)

def endingPte : pte_t → Ending
  | .empty => .invalid
  | .malformed w => .malformed w
  | .table entries => (entries 0).elim
  | .leaf l => .leaf (.pte l)
  | .swapped w => .swapped w

def endingPmd (vaddr : Word) : pmd_t → Ending
  | .leaf l => .leaf (.pmd l)
  | pmd => ((pte_offset_kernel pmd vaddr).map endingPte).getD .invalid

def endingPud (vaddr : Word) : pud_t → Ending
  | .leaf l => .leaf (.pud l)
  | pud => ((pmd_offset pud vaddr).map (endingPmd vaddr)).getD .invalid

/-- The tables are followed down to the PUD level, where the first leaves are. -/
def ending (pgd : pgd_t) (vaddr : Word) : Ending :=
  (((p4d_offset pgd vaddr).bind fun p4d => pud_offset p4d vaddr).map (endingPud vaddr)).getD
    .invalid

/-! ## The hardware -/

/-- With five levels the bits from 56 on are equal. -/
def canonical (vaddr : Word) : Bool := (vaddr.setWidth 57).signExtend 64 == vaddr

/-- The page size through which the hardware maps the address, if it does. -/
def hardware (pgd : pgd_t) (vaddr : Word) : Option PageSize :=
  match ending pgd vaddr with
  | .leaf l => if canonical vaddr ∧ _PAGE_PRESENT l.val then some l.size else none
  | _ => none

end LinuxKernelProg.Vm
