import LinuxKernelProg.Lib.Intervals
import LinuxKernelProg.Lib.Sscanf
import LinuxKernelProg.Vm.InspectVma

/-!
# The totals of the VMA report

`vma_show` adds up the sizes of the VMAs in 64 bits and prints the sum in KB and in MB, rounded
down. The VMAs are in order and do not overlap, so the sum stays below the last of their ends; and
they are whole pages, so no KB is lost: the summary says what one gets from the rows by adding up
their third column.
-/

namespace LinuxKernelProg.Vm.InspectVma

open LinuxKernelProg.Lib

/-- VMAs as the kernel keeps them. -/
structure Mapped (vmas : List vm_area_struct) : Prop where
  le : ∀ v ∈ vmas, v.vm_start ≤ v.vm_end
  aligned : ∀ v ∈ vmas, v.vm_start % PAGE_SIZE = 0 ∧ v.vm_end % PAGE_SIZE = 0
  ordered : vmas.Pairwise fun v w => v.vm_end ≤ w.vm_start

def vm_area_struct.lo (v : vm_area_struct) : Nat := v.vm_start.toNat

def vm_area_struct.hi (v : vm_area_struct) : Nat := v.vm_end.toNat

/-- The addresses that the VMAs cover. -/
def covered (vmas : List vm_area_struct) : Set Nat :=
  Intervals.covered vm_area_struct.lo vm_area_struct.hi vmas

/-- The number that is printed in the third column of a row, behind two of 18 bytes each. -/
def size_column (line : List UInt8) : Nat := decimal ((line.drop 38).dropWhile Sscanf.white)

/-- What printed rows say together, in KB. -/
def rows_kb (rows : List (List UInt8)) : Nat := (rows.map size_column).sum

variable {vmas : List vm_area_struct} {v : vm_area_struct} {task : task_struct} {mm : mm_struct}

/-! ## The rows -/

/-- The two addresses have 16 digits each. -/
theorem size_column_row (v : vm_area_struct) (flags_str type_str : List UInt8) :
    size_column (row v flags_str type_str) = v.kb := by
  let addresses := str "0x" ++ padLeft 48 16 (hex v.vm_start.toNat) ++ str " 0x" ++
    padLeft 48 16 (hex v.vm_end.toNat) ++ str " "
  have hlen : addresses.length = 38 := by
    have hstart := length_hex v.vm_start
    have hend := length_hex v.vm_end
    have h₁ : (str "0x").length = 2 := rfl
    have h₂ : (str " 0x").length = 3 := rfl
    have h₃ : (str " ").length = 1 := rfl
    simp only [addresses, List.length_append, length_padLeft]
    omega
  obtain ⟨behind, hrow⟩ : ∃ behind, row v flags_str type_str =
      addresses ++ (padLeft 32 8 (dec v.kb) ++ 107 :: behind) := by
    have hk : str "k " = 107 :: str " " := rfl
    simp only [row, addresses, hk, List.append_assoc, List.cons_append, List.append_cancel_left_eq,
      List.cons.injEq, true_and]
    exact ⟨_, rfl⟩
  rw [size_column, hrow, List.drop_left' hlen]
  exact Sscanf.decimal_padLeft v.kb (by decide) behind

theorem rows_kb_cons (v : vm_area_struct) (vmas : List vm_area_struct) :
    rows_kb ((v :: vmas).map (vma_row mm)) = v.kb + rows_kb (vmas.map (vma_row mm)) := by
  rw [rows_kb, List.map_cons, List.map_cons, List.sum_cons, vma_row, size_column_row]
  rfl

namespace Mapped

theorem inOrder (h : Mapped vmas) : Intervals.InOrder vm_area_struct.lo vm_area_struct.hi vmas :=
  ⟨h.le, h.ordered⟩

theorem take (h : Mapped vmas) (n : Nat) : Mapped (vmas.take n) :=
  ⟨fun v hv => h.le v (List.mem_of_mem_take hv), fun v hv => h.aligned v (List.mem_of_mem_take hv),
    h.ordered.sublist (List.take_sublist n vmas)⟩

theorem toNat_size (h : Mapped vmas) (hv : v ∈ vmas) : v.size.toNat = v.hi - v.lo :=
  BitVec.toNat_sub_of_le (h.le v hv)

theorem dvd_size (h : Mapped vmas) (hv : v ∈ vmas) : 1024 ∣ v.size.toNat := by
  have hsize := h.toNat_size hv
  obtain ⟨hstart, hend⟩ := h.aligned v hv
  have hlo : v.lo % 4096 = 0 := congrArg BitVec.toNat hstart
  have hhi : v.hi % 4096 = 0 := congrArg BitVec.toNat hend
  omega

/-- A row says the size of its VMA. -/
theorem kb_mul (h : Mapped vmas) (hv : v ∈ vmas) : v.kb * 1024 = v.size.toNat := by
  have hkb : v.kb = v.size.toNat / 1024 := BitVec.toNat_udiv
  rw [hkb, Nat.div_mul_cancel (h.dvd_size hv)]

theorem tail (h : Mapped (v :: vmas)) : Mapped vmas :=
  ⟨fun w hw => h.le w (List.mem_cons_of_mem v hw),
    fun w hw => h.aligned w (List.mem_cons_of_mem v hw), (List.pairwise_cons.1 h.ordered).2⟩

/-- The sum of the sizes, as long as it is below `2 ^ 64`. -/
theorem toNat_foldl (h : Mapped vmas) (n : BitVec 64)
    (hlt : n.toNat + Intervals.length vm_area_struct.lo vm_area_struct.hi vmas < 2 ^ 64) :
    (vmas.foldl (fun n vma => n + vma.size) n).toNat =
      n.toNat + Intervals.length vm_area_struct.lo vm_area_struct.hi vmas := by
  induction vmas generalizing n with
  | nil => rfl
  | cons v vmas ih =>
    have hsize := h.toNat_size List.mem_cons_self
    rw [Intervals.length_cons] at hlt ⊢
    have hadd : (n + v.size).toNat = n.toNat + (v.hi - v.lo) := by
      rw [BitVec.toNat_add_of_lt (by omega), hsize]
    rw [List.foldl_cons, ih h.tail (n + v.size) (by omega), hadd, Nat.add_assoc]

/-- The sum does not wrap around. -/
theorem toNat_total_size (h : Mapped vmas) :
    (total_size vmas).toNat = Intervals.length vm_area_struct.lo vm_area_struct.hi vmas := by
  have hle : 0 + Intervals.length vm_area_struct.lo vm_area_struct.hi vmas ≤ 2 ^ 64 - 1 :=
    h.inOrder.add_length_le (Nat.zero_le _) (fun _ _ => Nat.zero_le _) fun v _ =>
      Nat.le_pred_of_lt v.vm_end.isLt
  rw [total_size, h.toNat_foldl 0 (by simp at hle ⊢; omega)]
  exact Nat.zero_add _

theorem toNat_total_size_take (h : Mapped vmas) {n : Nat} (hn : vmas[n]? = some v) :
    (total_size (vmas.take (n + 1))).toNat = (total_size (vmas.take n)).toNat + v.size.toNat := by
  rw [(h.take (n + 1)).toNat_total_size, (h.take n).toNat_total_size,
    h.toNat_size (List.mem_of_getElem? hn), List.take_add_one, hn, Option.toList_some,
    Intervals.length_snoc]

/-- Nothing is lost by the rounding of the rows. -/
theorem rows_kb_mul (h : Mapped vmas) :
    rows_kb (vmas.map (vma_row mm)) * 1024 =
      Intervals.length vm_area_struct.lo vm_area_struct.hi vmas := by
  induction vmas with
  | nil => exact Nat.zero_mul 1024
  | cons v vmas ih =>
    rw [rows_kb_cons, Nat.add_mul, ih h.tail, h.kb_mul List.mem_cons_self,
      h.toNat_size List.mem_cons_self, Intervals.length_cons]

end Mapped

/-- **The totals are exact.** No addition of the loop wraps around, and the sum is the number of
bytes that the VMAs cover. Every row of the report says the size of its VMA, and the summary says
what the rows say together, and the same in MB, rounded down. -/
theorem totals_exact (htask : task.mm = some mm) (h : Mapped mm.mmap) :
    (∀ (n : Nat) v, mm.mmap[n]? = some v → (total_size (mm.mmap.take (n + 1))).toNat =
        (total_size (mm.mmap.take n)).toNat + v.size.toNat) ∧
      (total_size mm.mmap).toNat = (covered mm.mmap).ncard ∧
      (∀ v ∈ mm.mmap, size_column (vma_row mm v) * 1024 = v.size.toNat) ∧
      ∃ rows, rows = mm.mmap.map (vma_row mm) ∧
        vma_show task = report_head task mm ++ rows.flatten ++ summary_head ++
          unlines [total_vmas mm] ++
          unlines [str "  Total Virtual Memory Mapped: " ++ dec (rows_kb rows) ++ str " KB (" ++
            dec (rows_kb rows / 1024) ++ str " MB)"] ++
          unlines (remainder mm) := by
  have htotal : (total_size mm.mmap).toNat = rows_kb (mm.mmap.map (vma_row mm)) * 1024 := by
    rw [h.toNat_total_size, h.rows_kb_mul]
  refine ⟨fun n v hn => h.toNat_total_size_take hn, ?_, fun v hv => ?_, _, rfl, ?_⟩
  · rw [h.toNat_total_size, covered, h.inOrder.ncard_covered]
  · rw [vma_row, size_column_row, h.kb_mul hv]
  · have hkb : (total_size mm.mmap / 1024).toNat = rows_kb (mm.mmap.map (vma_row mm)) := by
      rw [BitVec.toNat_udiv, htotal]
      exact Nat.mul_div_cancel _ (by decide)
    have hmb : (total_size mm.mmap / (1024 * 1024)).toNat =
        rows_kb (mm.mmap.map (vma_row mm)) / 1024 := by
      rw [← hkb, BitVec.toNat_udiv, BitVec.toNat_udiv, Nat.div_div_eq_div_mul]
      rfl
    rw [vma_show_eq htask, report, before_totals, before_row, total_virtual_memory, hkb, hmb]

/-- Two VMAs that take nearly all of the address space. -/
def two_vmas : mm_struct :=
  ⟨0, 0, 0, 0, 0, 0, 0, 0, 0, 0, 0,
    [⟨0x1000, 0x7ffffffff000, 0, none, 0⟩, ⟨0x7ffffffff000, 0xfffffffffffff000, 0, none, 0⟩],
    0, 0, 0⟩

theorem two_vmas_exact :
    let task : task_struct := ⟨⟨str "cat", by decide, by decide⟩, 1, some two_vmas⟩
    total_size two_vmas.mmap = 0xffffffffffffe000 ∧
      (total_size two_vmas.mmap).toNat = (covered two_vmas.mmap).ncard ∧
      ∃ rows behind, vma_show task = rows ++
        unlines [str "  Total Virtual Memory Mapped: " ++ dec 18014398509481976 ++ str " KB (" ++
          dec 17592186044415 ++ str " MB)"] ++ behind := by
  intro task
  have h : Mapped two_vmas.mmap := ⟨by decide, by decide, by decide⟩
  obtain ⟨-, hcovered, -, rows, rfl, hshow⟩ :=
    totals_exact (rfl : task.mm = some two_vmas) h
  have hrows : rows_kb (two_vmas.mmap.map (vma_row two_vmas)) = 18014398509481976 := by
    rw [two_vmas, rows_kb_cons, rows_kb_cons]
    rfl
  rw [hrows] at hshow
  exact ⟨by decide, hcovered, _, _, hshow⟩

end LinuxKernelProg.Vm.InspectVma
