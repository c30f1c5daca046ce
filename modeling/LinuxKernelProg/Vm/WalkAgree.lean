import LinuxKernelProg.Vm.Walk

/-!
# The two walkers and the hardware

`x86_64_walk_page_table` tests `pud_bad` in front of `pud_leaf`, so it never reports a 1GB page, and
it does not test `pte_present`. Neither walker knows of addresses that are not canonical or of pages
that are present to the kernel only. Everywhere else the walkers agree with each other and with the
hardware.
-/

namespace LinuxKernelProg.Vm

/-- The page size of the translation a walk reports, if it reports one. -/
def Walk.size (w : Walk) : Option PageSize := w.paddr.map Prod.fst

/-- Each walker reports a translation exactly when the hardware maps the address, through the same
page size, and the two report the same one. -/
def WalkersAgree (mm : mm_struct) (vaddr : Word) (mem : Memory) : Prop :=
  ∃ x r u, x86_64_walk_page_table (some mm) vaddr mem = some x ∧
    walk_userspace_page_table (some mm) vaddr mem = some (r, u) ∧
    x.size = hardware (pgd_offset mm vaddr) vaddr ∧
    u.size = hardware (pgd_offset mm vaddr) vaddr ∧ x.paddr = u.paddr

/-- The tables do not lead to a 1GB leaf or to a PTE that is swapped out or malformed, and what
they lead to is present to the hardware, at a canonical address, when it is a 2MB leaf or a PTE. -/
def Plain (vaddr : Word) : Ending → Bool
  | .invalid => true
  | .leaf (.pud _) => false
  | .leaf l => canonical vaddr && _PAGE_PRESENT l.val
  | .malformed _ => false
  | .swapped _ => false

/-- A walk that reports the leaf agrees with the hardware when the hardware uses the leaf. -/
theorem hardware_eq_some_iff {pgd : pgd_t} {vaddr : Word} {l : Leaf}
    (h : ending pgd vaddr = .leaf l) :
    some l.size = hardware pgd vaddr ↔ (canonical vaddr && _PAGE_PRESENT l.val) = true := by
  simp only [hardware, h, Bool.and_eq_true]
  split <;> simp [*]

/-- **When the walkers agree.** -/
theorem walkersAgree_iff (mm : mm_struct) (vaddr : Word) (mem : Memory) :
    WalkersAgree mm vaddr mem ↔ Plain vaddr (ending (pgd_offset mm vaddr) vaddr) = true := by
  simp only [WalkersAgree, x86_64_walk_page_table_eq, walk_userspace_page_table_eq,
    Option.some.injEq, ↓existsAndEq, true_and]
  cases h : ending (pgd_offset mm vaddr) vaddr with
  | invalid =>
    have : hardware (pgd_offset mm vaddr) vaddr = none := by simp [hardware, h]
    simp [this, Plain, Pagewalk.outcome, Userwalk.outcome, Walk.error, Walk.size]
  | malformed w =>
    have : hardware (pgd_offset mm vaddr) vaddr = none := by simp [hardware, h]
    simp [this, Plain, Pagewalk.outcome, access_4k, Walk.size]
  | swapped w =>
    have : hardware (pgd_offset mm vaddr) vaddr = none := by simp [hardware, h]
    simp [this, Plain, Pagewalk.outcome, access_4k, Walk.size]
  | leaf l =>
    cases l with
    | pud l => simp [Plain, Pagewalk.outcome, Userwalk.outcome, Walk.error, Walk.size, report_1g]
    | pmd l =>
      simp only [Plain, Pagewalk.outcome, Userwalk.outcome, access_2m, Walk.size, Option.map_some]
      simpa [Leaf.size] using hardware_eq_some_iff h
    | pte l =>
      simp only [Plain, Pagewalk.outcome, Userwalk.outcome, access_4k, Walk.size, Option.map_some]
      simpa [Leaf.size] using hardware_eq_some_iff h

/-- Every address is in a 1GB page: `x86_64_walk_page_table` finds the entry invalid. -/
theorem hugepage_reported_invalid : ¬ ∀ mm vaddr mem, WalkersAgree mm vaddr mem := by
  intro h
  let mm : mm_struct :=
    ⟨fun _ => .table fun _ => .table fun _ => .leaf ⟨0x400000e7, by decide⟩, []⟩
  obtain ⟨x, r, u, hx, -, hsize, -⟩ := h mm 0 fun _ => 0
  have hx' : x86_64_walk_page_table (some mm) 0 (fun _ => 0) = some (.error fun _ => 0) := rfl
  have hhw : hardware (pgd_offset mm 0) 0 = some .size1G := by decide
  rw [hx', Option.some.injEq] at hx
  rw [← hx, hhw] at hsize
  cases hsize

end LinuxKernelProg.Vm
