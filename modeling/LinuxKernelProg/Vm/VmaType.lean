import LinuxKernelProg.Vm.InspectVma

/-!
# Heap and stack in the VMA report

`get_vma_type` takes a VMA for the heap if it reaches from `start_brk` to `brk`, and for the stack
if `start_stack` is between its ends, the end included. `labels_iff` says for which address spaces
that finds the VMAs of the heap and of the stack.
-/

namespace LinuxKernelProg.Vm.InspectVma

open LinuxKernelProg.Lib

/-- An address space as the kernel keeps it: the VMAs are not empty, page-aligned, and in order. -/
structure AddressSpace extends mm_struct where
  nonempty : ∀ v ∈ mmap, v.vm_start < v.vm_end
  aligned : ∀ v ∈ mmap, v.vm_start % PAGE_SIZE = 0 ∧ v.vm_end % PAGE_SIZE = 0
  ordered : mmap.Pairwise fun v w => v.vm_end ≤ w.vm_start
  heap_le : start_brk ≤ brk

/-- The address is in the VMA. -/
def vm_area_struct.Contains (v : vm_area_struct) (a : BitVec 64) : Prop :=
  v.vm_start ≤ a ∧ a < v.vm_end

/-- The VMA and the interval from `a` to `b` have an address in common. -/
def vm_area_struct.Overlaps (v : vm_area_struct) (a b : BitVec 64) : Prop :=
  ∃ x, v.Contains x ∧ a ≤ x ∧ x < b

def is_heap (mm : mm_struct) (v : vm_area_struct) : Prop := get_vma_type mm v = str "[heap]"

def is_stack (mm : mm_struct) (v : vm_area_struct) : Prop := get_vma_type mm v = str "[stack]"

instance (mm : mm_struct) : DecidablePred (is_heap mm) := fun v =>
  inferInstanceAs (Decidable (get_vma_type mm v = _))

instance (mm : mm_struct) : DecidablePred (is_stack mm) := fun v =>
  inferInstanceAs (Decidable (get_vma_type mm v = _))

/-- **What the labels say.** One VMA at most is the stack, and it contains `start_stack`. The heap
is the anonymous VMAs that overlap the interval from `start_brk` to `brk`. -/
structure Labelled (mm : mm_struct) : Prop where
  one_stack : mm.mmap.countP (is_stack mm) ≤ 1
  stack : ∀ v ∈ mm.mmap, is_stack mm v → v.Contains mm.start_stack
  heap : ∀ v ∈ mm.mmap, is_heap mm v ↔ v.vm_file = none ∧ v.Overlaps mm.start_brk mm.brk

/-- The VMA reaches from `start_brk` to `brk`. -/
def Covers (mm : mm_struct) (v : vm_area_struct) : Prop :=
  v.vm_start ≤ mm.start_brk ∧ mm.brk ≤ v.vm_end

/-- The heap is one VMA, nothing ends where the stack starts, and no file has the name of a
label. -/
structure Plain (mm : mm_struct) : Prop where
  /-- No fragment of the heap is a VMA of its own. -/
  whole : ∀ v ∈ mm.mmap, v.vm_file = none → v.Overlaps mm.start_brk mm.brk → Covers mm v
  /-- No anonymous VMA contains the start of an empty heap, or ends there. -/
  empty : mm.start_brk = mm.brk → ∀ v ∈ mm.mmap, v.vm_file = none → ¬ Covers mm v
  /-- An anonymous VMA that ends at `start_stack` is taken for the heap. -/
  below : ∀ v ∈ mm.mmap, v.vm_file = none → v.vm_end = mm.start_stack → Covers mm v
  not_heap : ∀ v ∈ mm.mmap, ∀ file, v.vm_file = some file → file.bytes ≠ str "[heap]"
  stack_file : ∀ v ∈ mm.mmap, ∀ file, v.vm_file = some file → file.bytes = str "[stack]" →
    v.Contains mm.start_stack

/-! ## The labels of one VMA -/

variable {mm : mm_struct} {v : vm_area_struct} {file : FileName}

theorem is_heap_anon (h : v.vm_file = none) : is_heap mm v ↔ Covers mm v := by
  simp only [is_heap, get_vma_type, h, Covers]
  split
  · rename_i hc
    exact iff_of_true rfl hc
  · rename_i hc
    refine iff_of_false ?_ hc
    split <;> decide

theorem is_stack_anon (h : v.vm_file = none) :
    is_stack mm v ↔ ¬ Covers mm v ∧ v.vm_start ≤ mm.start_stack ∧ mm.start_stack ≤ v.vm_end := by
  simp only [is_stack, get_vma_type, h, Covers]
  split
  · rename_i hc
    exact iff_of_false (by decide) fun hn => hn.1 hc
  · rename_i hc
    split
    · rename_i hs
      exact iff_of_true rfl ⟨hc, hs⟩
    · rename_i hs
      exact iff_of_false (by decide) fun hn => hs hn.2

theorem is_heap_file (h : v.vm_file = some file) : is_heap mm v ↔ file.bytes = str "[heap]" := by
  simp only [is_heap, get_vma_type, h]

theorem is_stack_file (h : v.vm_file = some file) : is_stack mm v ↔ file.bytes = str "[stack]" := by
  simp only [is_stack, get_vma_type, h]

/-- What reaches over an interval that is not empty has an address in common with it. -/
theorem overlaps_of_covers (hlt : mm.start_brk < mm.brk) (hc : Covers mm v) :
    v.Overlaps mm.start_brk mm.brk :=
  ⟨mm.start_brk, ⟨hc.1, Nat.lt_of_lt_of_le hlt hc.2⟩, Nat.le_refl _, hlt⟩

/-! ## The whole address space -/

/-- At most one VMA contains an address. -/
theorem countP_contains_le {vmas : List vm_area_struct} {p : vm_area_struct → Bool} {a : BitVec 64}
    (ho : vmas.Pairwise fun v w => v.vm_end ≤ w.vm_start)
    (hp : ∀ v ∈ vmas, p v = true → v.Contains a) :
    vmas.countP p ≤ 1 := by
  induction vmas with
  | nil => exact Nat.zero_le 1
  | cons v vmas ih =>
    obtain ⟨hv, ho⟩ := List.pairwise_cons.1 ho
    have ih := ih ho fun w hw => hp w (List.mem_cons_of_mem v hw)
    rw [List.countP_cons]
    by_cases hpv : p v = true
    · have hcv := hp v List.mem_cons_self hpv
      have hnone : vmas.countP p = 0 := by
        apply List.countP_eq_zero.2
        intro w hw hpw
        have hcw := hp w (List.mem_cons_of_mem v hw) hpw
        have hle := hv w hw
        exact absurd (Nat.lt_of_lt_of_le hcv.2 (Nat.le_trans hle hcw.1)) (Nat.lt_irrefl _)
      rw [hnone, if_pos hpv]
    · rw [if_neg hpv]
      exact ih

theorem Labelled.plain (A : AddressSpace) (h : Labelled A.tomm_struct) : Plain A.tomm_struct where
  whole v hv hanon ho := (is_heap_anon hanon).1 ((h.heap v hv).2 ⟨hanon, ho⟩)
  empty he v hv hanon hc := by
    obtain ⟨x, -, hle, hlt⟩ := ((h.heap v hv).1 ((is_heap_anon hanon).2 hc)).2
    rw [he] at hle
    exact absurd (Nat.lt_of_le_of_lt hle hlt) (Nat.lt_irrefl _)
  below v hv hanon hend := by
    by_contra hc
    have hlt := A.nonempty v hv
    rw [hend] at hlt
    have hs : is_stack A.tomm_struct v := (is_stack_anon hanon).2
      ⟨hc, Nat.le_of_lt hlt, hend ▸ Nat.le_refl _⟩
    have := (h.stack v hv hs).2
    rw [hend] at this
    exact absurd this (Nat.lt_irrefl _)
  not_heap v hv file hf hname := by
    have := ((h.heap v hv).1 ((is_heap_file hf).2 hname)).1
    rw [hf] at this
    cases this
  stack_file v hv file hf hname := h.stack v hv ((is_stack_file hf).2 hname)

theorem Plain.labelled (A : AddressSpace) (h : Plain A.tomm_struct) : Labelled A.tomm_struct := by
  have hstack : ∀ v ∈ A.mmap, is_stack A.tomm_struct v → v.Contains A.start_stack := by
    intro v hv hs
    cases hf : v.vm_file with
    | some file => exact h.stack_file v hv file hf ((is_stack_file hf).1 hs)
    | none =>
      obtain ⟨hc, hle, hend⟩ := (is_stack_anon hf).1 hs
      refine ⟨hle, Nat.lt_of_le_of_ne hend fun he => ?_⟩
      exact hc (h.below v hv hf (BitVec.eq_of_toNat_eq he).symm)
  have hone : A.mmap.countP (is_stack A.tomm_struct) ≤ 1 :=
    countP_contains_le A.ordered fun v hv hs => hstack v hv (of_decide_eq_true hs)
  refine ⟨hone, hstack, fun v hv => ?_⟩
  · cases hf : v.vm_file with
    | some file =>
      refine iff_of_false (fun hh => ?_) (fun hh => by cases hh.1)
      exact h.not_heap v hv file hf ((is_heap_file hf).1 hh)
    | none =>
      rw [is_heap_anon hf]
      constructor
      · intro hc
        refine ⟨rfl, overlaps_of_covers (Nat.lt_of_le_of_ne A.heap_le fun he => ?_) hc⟩
        exact h.empty (BitVec.eq_of_toNat_eq he) v hv hf hc
      · exact fun ho => h.whole v hv hf ho.2

/-- **The labels of the report** are right exactly for the plain address spaces. -/
theorem labels_iff (A : AddressSpace) : Labelled A.tomm_struct ↔ Plain A.tomm_struct :=
  ⟨Labelled.plain A, Plain.labelled A⟩

/-- `mprotect` on the second page of the heap has split it in two. -/
def split_heap : AddressSpace where
  start_code := 0
  end_code := 0
  start_data := 0
  end_data := 0
  start_brk := 0x1000
  brk := 0x3000
  start_stack := 0x8800
  arg_start := 0
  arg_end := 0
  env_start := 0
  env_end := 0
  mmap :=
    [ ⟨0x1000, 0x2000, VM_READ ||| VM_WRITE, none, 0⟩, ⟨0x2000, 0x3000, VM_READ, none, 0⟩,
      ⟨0x8000, 0x9000, VM_READ ||| VM_WRITE ||| VM_GROWSDOWN, none, 0⟩ ]
  rss := 0
  hiwater_vm := 0
  hiwater_rss := 0
  nonempty := by decide
  aligned := by decide
  ordered := by decide
  heap_le := by decide

/-- Neither of the fragments is labelled as heap. -/
theorem split_heap_unlabelled : ¬ ∀ A : AddressSpace, Labelled A.tomm_struct := by
  intro h
  let fragment : vm_area_struct := ⟨0x1000, 0x2000, VM_READ ||| VM_WRITE, none, 0⟩
  have hin : fragment ∈ split_heap.mmap := List.mem_cons_self
  have hover : fragment.Overlaps split_heap.start_brk split_heap.brk :=
    ⟨0x1000, by constructor <;> decide, by decide, by decide⟩
  have hheap := ((h split_heap).heap fragment hin).2 ⟨rfl, hover⟩
  exact absurd hheap (by decide)

end LinuxKernelProg.Vm.InspectVma
