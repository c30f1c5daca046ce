import Mathlib.Algebra.Group.Action.Defs
import Mathlib.Algebra.Order.BigOperators.Group.List
import LinuxKernelProg.Lib.Text
import Mathlib.Data.BitVec

/-!
# The VMA inspector

`inspectvma.c`: a read of `vma_details` prints the address space of the reader, one row for each
VMA, with a summary. The flag bits are those of x86-64, where no VMA grows up and `VM_GROWSUP` is 0.
-/

namespace LinuxKernelProg.Vm.InspectVma

open LinuxKernelProg.Lib

/-! ## The kernel's data -/

/-- The last component of a path: a byte string without NUL and `/`. -/
structure FileName where
  bytes : List UInt8
  nonempty : bytes ≠ []
  short : bytes.length ≤ 255
  legal : 0 ∉ bytes ∧ 47 ∉ bytes

structure vm_area_struct where
  vm_start : BitVec 64
  vm_end : BitVec 64
  vm_flags : BitVec 64
  /-- `vm_file->f_path.dentry->d_name.name`; `none` for an anonymous mapping. -/
  vm_file : Option FileName
  vm_pgoff : BitVec 64

structure mm_struct where
  start_code : BitVec 64
  end_code : BitVec 64
  start_data : BitVec 64
  end_data : BitVec 64
  start_brk : BitVec 64
  brk : BitVec 64
  start_stack : BitVec 64
  arg_start : BitVec 64
  arg_end : BitVec 64
  env_start : BitVec 64
  env_end : BitVec 64
  mmap : List vm_area_struct
  /-- `get_mm_rss(mm)`, in pages like the two that follow. -/
  rss : BitVec 64
  hiwater_vm : BitVec 64
  hiwater_rss : BitVec 64

/-- The name of a thread: a string of 15 bytes at most. -/
structure Comm where
  bytes : List UInt8
  short : bytes.length ≤ 15
  nul_free : 0 ∉ bytes

structure task_struct where
  comm : Comm
  pid : BitVec 32
  mm : Option mm_struct

def VM_READ : BitVec 64 := 0x1
def VM_WRITE : BitVec 64 := 0x2
def VM_EXEC : BitVec 64 := 0x4
def VM_SHARED : BitVec 64 := 0x8
def VM_GROWSDOWN : BitVec 64 := 0x100
def VM_GROWSUP : BitVec 64 := 0x0
def VM_LOCKED : BitVec 64 := 0x2000
def VM_IO : BitVec 64 := 0x4000
def VM_SEQ_READ : BitVec 64 := 0x8000
def VM_RAND_READ : BitVec 64 := 0x10000
def VM_DONTCOPY : BitVec 64 := 0x20000
def VM_DONTEXPAND : BitVec 64 := 0x40000
def VM_HUGETLB : BitVec 64 := 0x400000
def VM_NOHUGEPAGE : BitVec 64 := 0x40000000
def VM_MERGEABLE : BitVec 64 := 0x80000000

def PAGE_SHIFT : Nat := 12

def PAGE_SIZE : BitVec 64 := 4096

/-! ## The module -/

/-- A piece for a bit that is shown either way. -/
def flag_letter (flags bit : BitVec 64) (yes no : String) : List UInt8 :=
  if flags &&& bit ≠ 0 then str yes else str no

/-- A piece for a bit that is shown when it is set. -/
def flag_word (flags bit : BitVec 64) (text : String) : List (List UInt8) :=
  if flags &&& bit ≠ 0 then [str text] else []

/-- What the `snprintf` calls of `vma_flags_to_string` write, one after the other. -/
def flag_pieces (flags : BitVec 64) : List (List UInt8) :=
  [ flag_letter flags VM_READ "r" "-", flag_letter flags VM_WRITE "w" "-",
    flag_letter flags VM_EXEC "x" "-", flag_letter flags VM_SHARED "s" "p", str " " ] ++
  flag_word flags VM_GROWSDOWN "gd " ++ flag_word flags VM_GROWSUP "gu " ++
  flag_word flags VM_LOCKED "lo " ++ flag_word flags VM_IO "io " ++
  flag_word flags VM_SEQ_READ "sr " ++ flag_word flags VM_RAND_READ "rr " ++
  flag_word flags VM_DONTCOPY "dc " ++ flag_word flags VM_DONTEXPAND "de " ++
  flag_word flags VM_HUGETLB "ht " ++ flag_word flags VM_NOHUGEPAGE "nh " ++
  flag_word flags VM_MERGEABLE "mg "

/-- The string that `vma_flags_to_string` returns, when nobody else writes its buffer. -/
def vma_flags_to_string (flags : BitVec 64) : List UInt8 := (flag_pieces flags).flatten

def get_vma_type (mm : mm_struct) (vma : vm_area_struct) : List UInt8 :=
  match vma.vm_file with
  | none =>
    if vma.vm_start ≤ mm.start_brk ∧ mm.brk ≤ vma.vm_end then str "[heap]"
    else if vma.vm_start ≤ mm.start_stack ∧ mm.start_stack ≤ vma.vm_end then str "[stack]"
    else str "[anon]"
  | some file => file.bytes

/-- `0x%08lx` with its label. -/
def layout_line (label : String) (x : BitVec 64) : List UInt8 :=
  str label ++ str "0x" ++ padLeft 48 8 (hex x.toNat)

def title (task : task_struct) : List UInt8 :=
  str "VMA Inspector for Process: " ++ task.comm.bytes ++ str " (PID: " ++
    decInt task.pid.toInt ++ str ")"

/-- The lines between the title and the table. -/
def overview (mm : mm_struct) : List (List UInt8) :=
  [ str "==========================================================",
    [],
    str "Memory Layout Overview:",
    layout_line "  Code Start:  " mm.start_code,
    layout_line "  Code End:    " mm.end_code,
    layout_line "  Data Start:  " mm.start_data,
    layout_line "  Data End:    " mm.end_data,
    layout_line "  Heap Start:  " mm.start_brk,
    layout_line "  Heap End:    " mm.brk,
    layout_line "  Stack Start: " mm.start_stack,
    layout_line "  Arg Start:   " mm.arg_start,
    layout_line "  Arg End:     " mm.arg_end,
    layout_line "  Env Start:   " mm.env_start,
    layout_line "  Env End:     " mm.env_end,
    [] ]

/-- `"%-18s %-18s %-10s %-6s %-20s %-s"` -/
def columns (c₁ c₂ c₃ c₄ c₅ c₆ : String) : List UInt8 :=
  padRight 32 18 (str c₁) ++ str " " ++ padRight 32 18 (str c₂) ++ str " " ++
    padRight 32 10 (str c₃) ++ str " " ++ padRight 32 6 (str c₄) ++ str " " ++
    padRight 32 20 (str c₅) ++ str " " ++ str c₆

/-- The head of the table. -/
def table_head : List (List UInt8) :=
  [ str "Virtual Memory Areas (VMAs):",
    columns "START" "END" "SIZE" "OFFSET" "FLAGS" "TYPE/FILE",
    columns "==================" "==================" "==========" "======" "===================="
      "================" ]

def vm_area_struct.size (vma : vm_area_struct) : BitVec 64 := vma.vm_end - vma.vm_start

/-- `size / 1024` -/
def vm_area_struct.kb (vma : vm_area_struct) : Nat := (vma.size / 1024).toNat

/-- A row of the table, with the strings for the flags and the type. -/
def row (vma : vm_area_struct) (flags_str type_str : List UInt8) : List UInt8 :=
  let offset := if vma.vm_file.isSome then vma.vm_pgoff <<< PAGE_SHIFT else 0
  str "0x" ++ padLeft 48 16 (hex vma.vm_start.toNat) ++ str " 0x" ++
    padLeft 48 16 (hex vma.vm_end.toNat) ++ str " " ++ padLeft 32 8 (dec vma.kb) ++ str "k " ++
    padLeft 32 6 (hex offset.toNat) ++ str " " ++ padRight 32 20 flags_str ++ str " " ++ type_str ++
    [newline]

def vma_row (mm : mm_struct) (vma : vm_area_struct) : List UInt8 :=
  row vma (vma_flags_to_string vma.vm_flags) (get_vma_type mm vma)

/-- `total_size` behind these rows. -/
def total_size (vmas : List vm_area_struct) : BitVec 64 := vmas.foldl (fun n vma => n + vma.size) 0

def mm_struct.vma_count (mm : mm_struct) : BitVec 32 := mm.mmap.foldl (fun n _ => n + 1) 0

def total_vmas (mm : mm_struct) : List UInt8 := str "  Total VMAs: " ++ decInt mm.vma_count.toInt

def total_virtual_memory (mm : mm_struct) : List UInt8 :=
  str "  Total Virtual Memory Mapped: " ++ dec (total_size mm.mmap / 1024).toNat ++ str " KB (" ++
    dec (total_size mm.mmap / (1024 * 1024)).toNat ++ str " MB)"

/-- A line of the summary with a number of pages in KB. -/
def pages_line (label : String) (pages : BitVec 64) : List UInt8 :=
  str label ++ dec (pages * PAGE_SIZE / 1024).toNat ++ str " KB"

/-- The lines behind the two totals. -/
def remainder (mm : mm_struct) : List (List UInt8) :=
  [ pages_line "  RSS (Resident Set Size): " mm.rss,
    pages_line "  Virtual Memory Peak: " mm.hiwater_vm,
    pages_line "  RSS Peak: " mm.hiwater_rss,
    [],
    str "Flag Legend:",
    str "  r/w/x/s = read/write/execute/shared",
    str "  gd/gu = grows down/up, lo = locked, io = I/O mapping",
    str "  sr/rr = sequential/random read, dc = don't copy",
    str "  de = don't expand, ht = huge pages, nh = no huge pages",
    str "  mg = mergeable" ]

/-- The report in front of the rows. -/
def report_head (task : task_struct) (mm : mm_struct) : List UInt8 :=
  unlines (title task :: overview mm ++ table_head)

def summary_head : List UInt8 := unlines [[], str "Summary:"]

/-- The report up to its rows for these VMAs. -/
def before_row (task : task_struct) (mm : mm_struct) (vmas : List vm_area_struct) : List UInt8 :=
  report_head task mm ++ (vmas.map (vma_row mm)).flatten

/-- The report up to the two totals. -/
def before_totals (task : task_struct) (mm : mm_struct) : List UInt8 :=
  before_row task mm mm.mmap ++ summary_head

def report (task : task_struct) (mm : mm_struct) : List UInt8 :=
  before_totals task mm ++ unlines [total_vmas mm] ++ unlines [total_virtual_memory mm] ++
    unlines (remainder mm)

def vma_show (task : task_struct) : List UInt8 :=
  match task.mm with
  | none => unlines [str "No memory descriptor for current process"]
  | some mm => report task mm

/-! ## The flags -/

def flag_texts : List String :=
  ["r", "w", "x", "s", "-", "p", " ", "gd ", "gu ", "lo ", "io ", "sr ", "rr ", "dc ", "de ", "ht ",
    "nh ", "mg "]

variable {flags : BitVec 64}

theorem flag_pieces_all {P : List UInt8 → Prop} (h : ∀ text ∈ flag_texts, P (str text)) :
    ∀ piece ∈ flag_pieces flags, P piece := by
  have letter (bit : BitVec 64) {yes no : String} (hyes : yes ∈ flag_texts)
      (hno : no ∈ flag_texts) :
        P (flag_letter flags bit yes no) := by
    unfold flag_letter
    split
    · exact h yes hyes
    · exact h no hno
  have word (bit : BitVec 64) {text : String} (htext : text ∈ flag_texts) :
      ∀ piece ∈ flag_word flags bit text, P piece := by
    unfold flag_word
    split
    · simpa using h text htext
    · simp
  simp only [flag_pieces, List.forall_mem_append, List.forall_mem_cons]
  and_intros
  any_goals exact letter _ (by decide) (by decide)
  any_goals exact word _ (by decide)
  · exact h " " (by decide)
  · simp

theorem length_flag_pieces (flags : BitVec 64) : (flag_pieces flags).length ≤ 16 := by
  have word (bit : BitVec 64) (text : String) : (flag_word flags bit text).length ≤ 1 := by
    unfold flag_word
    split <;> simp
  have hsum : (flag_pieces flags).length ≤ 5 + 1 + 1 + 1 + 1 + 1 + 1 + 1 + 1 + 1 + 1 + 1 := by
    simp only [flag_pieces, List.length_append]
    repeat' apply Nat.add_le_add
    any_goals exact word _ _
    rfl
  exact hsum

theorem length_take_flag_pieces (flags : BitVec 64) (k : Nat) :
    ((flag_pieces flags).take k).flatten.length ≤ 48 := by
  have hpiece : ∀ n ∈ ((flag_pieces flags).take k).map List.length, n ≤ 3 := by
    intro n hn
    obtain ⟨piece, hp, rfl⟩ := List.mem_map.1 hn
    exact flag_pieces_all (P := fun piece => piece.length ≤ 3) (by decide) piece
      (List.mem_of_mem_take hp)
  have hsum := List.sum_le_card_nsmul _ 3 hpiece
  have hcount := length_flag_pieces flags
  rw [List.length_flatten]
  simp only [List.length_map, List.length_take, smul_eq_mul] at hsum
  omega

theorem length_vma_flags_to_string (flags : BitVec 64) :
    (vma_flags_to_string flags).length ≤ 48 := by
  have h := length_take_flag_pieces flags (flag_pieces flags).length
  rwa [List.take_length] at h

/-! ## The rows -/

theorem whole_before_row (task : task_struct) (mm : mm_struct) (vmas : List vm_area_struct) :
    Whole (before_row task mm vmas) := by
  refine (whole_unlines _).append (whole_flatten fun t ht => ?_)
  obtain ⟨vma, -, rfl⟩ := List.mem_map.1 ht
  exact whole_line _

theorem whole_before_totals (task : task_struct) (mm : mm_struct) :
    Whole (before_totals task mm) :=
  (whole_before_row task mm mm.mmap).append (whole_unlines _)

variable {task : task_struct} {mm : mm_struct}

theorem vma_show_eq (htask : task.mm = some mm) : vma_show task = report task mm := by
  rw [vma_show, htask]

/-- Where a row is in the report. -/
theorem vma_show_row (htask : task.mm = some mm) {done rest : List vm_area_struct}
    {vma : vm_area_struct} (hmm : mm.mmap = done ++ vma :: rest) :
    ∃ behind, vma_show task = before_row task mm done ++ vma_row mm vma ++ behind := by
  have hrows : before_row task mm mm.mmap =
      before_row task mm done ++ vma_row mm vma ++ (rest.map (vma_row mm)).flatten := by
    rw [before_row, hmm]
    simp [before_row]
  refine ⟨(rest.map (vma_row mm)).flatten ++ summary_head ++ unlines [total_vmas mm] ++
    unlines [total_virtual_memory mm] ++ unlines (remainder mm), ?_⟩
  rw [vma_show_eq htask, report, before_totals, hrows]
  simp only [List.append_assoc]

end LinuxKernelProg.Vm.InspectVma
