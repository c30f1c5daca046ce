import LinuxKernelProg.Vm.InspectVma

/-!
# The viewer of the VMA report

`show_vma_details`, the same in `test_mmap1.c` and `test_mmap2.c`, reads the report of
`inspectvma.c` line by line and looks for pieces of text: it prints the table and some lines of the
summary and counts the rows.
-/

namespace LinuxKernelProg.Vm.InspectVma

open LinuxKernelProg.Lib

/-! ## The program -/

structure Viewer where
  in_vma_table : Bool
  vma_count : BitVec 32
  /-- What each `printf` has printed. -/
  out : List (List UInt8)

def Viewer.print (st : Viewer) (text : List UInt8) : Viewer := { st with out := st.out ++ [text] }

/-- The header lines. -/
def is_header (line : List UInt8) : Bool :=
  strstr (str "VMA Inspector") line || strstr (str "Process PID") line

/-- The start of the table. -/
def is_start (line : List UInt8) : Bool := strstr (str "Virtual Memory Areas") line

def is_row (line : List UInt8) : Bool := strstr (str "0x") line && !strstr (str "===") line

def is_summary (line : List UInt8) : Bool := strstr (str "Summary:") line

/-- The lines of the summary. -/
def is_total (line : List UInt8) : Bool :=
  strstr (str "Total VMAs:") line || strstr (str "Total Virtual Memory:") line ||
    strstr (str "RSS") line

/-- A line of the table. -/
def Viewer.table_line (st : Viewer) (line : List UInt8) : Viewer :=
  let st := st.print line
  let st := if is_row line then { st with vma_count := st.vma_count + 1 } else st
  if is_summary line then { st with in_vma_table := false } else st

/-- The body of the loop. -/
def Viewer.line (st : Viewer) (line : List UInt8) : Viewer :=
  let st := if is_header line then st.print line else st
  if is_start line then { st.print line with in_vma_table := true }
  else
    let st := if st.in_vma_table then st.table_line line else st
    if is_total line then st.print line else st

/-- `while (fgets(line, sizeof(line), fp))` -/
def Viewer.read (st : Viewer) (text : List UInt8) : Viewer := (lines 1024 text).foldl Viewer.line st

def Viewer.init (context : List UInt8) : Viewer :=
  ⟨false, 0, [[newline] ++ str "=== VMA Details " ++ context ++ str " ===" ++ [newline]]⟩

/-- What the function prints; `none` if the file cannot be opened. -/
def show_vma_details (context : List UInt8) (fp : Option (List UInt8)) : List (List UInt8) :=
  match fp with
  | none =>
    (Viewer.init context).out ++
      [str "Error: Cannot read /sys/kernel/debug/inspectvma/vma_details" ++ [newline]]
  | some text =>
    let st := (Viewer.init context).read text
    st.out ++ [str "Displayed " ++ decInt st.vma_count.toInt ++ str " VMAs" ++ [newline]]

/-- What has been printed when this much of the file has been read. -/
def printed (context text : List UInt8) : List (List UInt8) :=
  (show_vma_details context (some text)).dropLast

/-- What is printed for the `n` bytes of the file behind the first `i`. -/
def printed_for (context file : List UInt8) (i n : Nat) : List (List UInt8) :=
  (printed context (file.take (i + n))).drop (printed context (file.take i)).length

/-- The viewer shows what the report says: every row once, as many rows as there are, and the two
totals. -/
structure Agrees (context : List UInt8) (task : task_struct) (mm : mm_struct) : Prop where
  rows : ∀ done vma rest, mm.mmap = done ++ vma :: rest →
    printed_for context (vma_show task) (before_row task mm done).length (vma_row mm vma).length =
      lines 1024 (vma_row mm vma)
  displayed : (show_vma_details context (some (vma_show task))).getLast? =
    some (str "Displayed " ++ decInt mm.vma_count.toInt ++ str " VMAs" ++ [newline])
  count_line : total_vmas mm ++ [newline] ∈
    printed_for context (vma_show task) (before_totals task mm).length
      (unlines [total_vmas mm]).length
  total_line : total_virtual_memory mm ++ [newline] ∈
    printed_for context (vma_show task)
      (before_totals task mm ++ unlines [total_vmas mm]).length
      (unlines [total_virtual_memory mm]).length

/-! ## Piece by piece -/

/-- What the viewer prints while it reads the text. -/
def Viewer.prints (st : Viewer) (text : List UInt8) : List (List UInt8) :=
  (st.read text).out.drop st.out.length

/-- The viewer at the first row, after these rows. -/
def at_row (context : List UInt8) (task : task_struct) (mm : mm_struct)
    (done : List vm_area_struct) : Viewer :=
  (Viewer.init context).read (before_row task mm done)

/-- The viewer at the summary's totals. -/
def at_totals (context : List UInt8) (task : task_struct) (mm : mm_struct) : Viewer :=
  (Viewer.init context).read (before_totals task mm)

variable {st : Viewer} {line text rest context file piece behind : List UInt8}
  {task : task_struct} {mm : mm_struct}

theorem read_append (h : Whole text) (rest : List UInt8) :
    st.read (text ++ rest) = (st.read text).read rest := by
  rw [Viewer.read, h.lines_append, List.foldl_append]
  rfl

theorem printed_eq (context text : List UInt8) :
    printed context text = ((Viewer.init context).read text).out :=
  List.dropLast_concat

/-- A piece of the file, behind whole lines. -/
theorem printed_for_eq (hfile : file = text ++ piece ++ behind) (h : Whole text) :
    printed_for context file text.length piece.length =
      ((Viewer.init context).read text).prints piece := by
  have hbefore : file.take text.length = text := by
    rw [hfile, List.append_assoc, List.take_left]
  have hpiece : file.take (text.length + piece.length) = text ++ piece := by
    rw [hfile, ← List.length_append, List.take_left]
  rw [printed_for, hbefore, hpiece, printed_eq, printed_eq, read_append h, Viewer.prints]

/-! ## Line by line -/

/-- A line that fits into the buffer. -/
theorem read_line (hn : newline ∉ line) (hl : line.length ≤ 1022) :
    st.read (unlines [line]) = st.line (line ++ [newline]) := by
  rw [Viewer.read, unlines_singleton, lines_line hn (by omega)]
  rfl

/-- A line without any marker, outside the table. -/
theorem line_silent (hin : st.in_vma_table = false) (hh : is_header line = false)
    (hs : is_start line = false) (ht : is_total line = false) : st.line line = st := by
  simp [Viewer.line, hin, hh, hs, ht]

theorem line_outside (hin : st.in_vma_table = false) (hs : is_start line = false) :
    (st.line line).in_vma_table = false := by
  unfold Viewer.line
  cases is_header line <;> cases is_total line <;> simp [Viewer.print, hin, hs]

theorem line_summary (hs : is_start line = false) (hsum : is_summary line = true) :
    (st.line line).in_vma_table = false := by
  unfold Viewer.line Viewer.table_line
  cases hin : st.in_vma_table <;> cases is_header line <;> cases is_total line <;>
    cases is_row line <;> simp [Viewer.print, hin, hs, hsum]

/-! ## The totals -/

theorem total_vmas_plain (mm : mm_struct) :
    newline ∉ total_vmas mm ∧ (total_vmas mm).length ≤ 1022 ∧
      is_start (total_vmas mm ++ [newline]) = false := by
  have hnumber := decInt_subset mm.vma_count.toInt
  have hlength := length_decInt mm.vma_count
  refine ⟨fun h => ?_, ?_, ?_⟩
  · rcases List.mem_append.1 h with h | h
    · exact absurd h (by decide)
    · exact absurd (hnumber h) (by decide)
  · have : (str "  Total VMAs: ").length = 14 := rfl
    rw [total_vmas, List.length_append]
    omega
  · rw [total_vmas, List.append_assoc]
    have hno : ¬ str "Virtual Memory Areas" ⊆ str "-0123456789" ++ [newline] := by decide
    exact strstr_absent (by decide) fun h => hno (List.Subset.trans h (line_subset hnumber))

/-- The line with the total of virtual memory has none of the markers. -/
theorem total_virtual_memory_plain (mm : mm_struct) :
    newline ∉ total_virtual_memory mm ∧ (total_virtual_memory mm).length ≤ 1022 ∧
      is_header (total_virtual_memory mm ++ [newline]) = false ∧
      is_start (total_virtual_memory mm ++ [newline]) = false ∧
      is_total (total_virtual_memory mm ++ [newline]) = false := by
  obtain ⟨numbers, htext, hall, hlength⟩ : ∃ numbers,
      total_virtual_memory mm = str "  Total Virtual Memory Mapped: " ++ numbers ∧
        numbers ⊆ str "0123456789 KB(M)" ∧ numbers.length ≤ 50 := by
    refine ⟨dec (total_size mm.mmap / 1024).toNat ++ str " KB (" ++
      dec (total_size mm.mmap / (1024 * 1024)).toNat ++ str " MB)", ?_, ?_, ?_⟩
    · simp only [total_virtual_memory, List.append_assoc]
    · have hdigits : str "0123456789" ⊆ str "0123456789 KB(M)" := by decide
      have hdec (n : Nat) : dec n ⊆ str "0123456789 KB(M)" :=
        List.Subset.trans (dec_subset n) hdigits
      simp only [List.append_subset]
      exact ⟨⟨⟨hdec _, by decide⟩, hdec _⟩, by decide⟩
    · have h₁ := length_dec (total_size mm.mmap / 1024)
      have h₂ := length_dec (total_size mm.mmap / (1024 * 1024))
      have h₃ : (str " KB (").length = 5 := rfl
      have h₄ : (str " MB)").length = 4 := rfl
      simp only [List.length_append]
      omega
  -- each marker has a capital that is not among these bytes
  have hmarker : ∀ m ∈ ["VMA Inspector", "Process PID", "Virtual Memory Areas", "Total VMAs:",
      "Total Virtual Memory:", "RSS"],
      strstr (str m) (str "  Total Virtual Memory Mapped: " ++ (numbers ++ [newline])) = false := by
    have hcheck : ∀ m ∈ ["VMA Inspector", "Process PID", "Virtual Memory Areas", "Total VMAs:",
        "Total Virtual Memory:", "RSS"],
          apart (str m) (str "  Total Virtual Memory Mapped: ") = true ∧
          ¬ str m ⊆ str "0123456789 KB(M)" ++ [newline] := by decide
    intro m hm
    obtain ⟨hapart, hcapital⟩ := hcheck m hm
    exact strstr_absent hapart fun h => hcapital (List.Subset.trans h (line_subset hall))
  rw [htext, List.append_assoc]
  refine ⟨fun h => ?_, ?_, ?_, ?_, ?_⟩
  · rcases List.mem_append.1 h with h | h
    · exact absurd h (by decide)
    · exact absurd (hall h) (by decide)
  · have : (str "  Total Virtual Memory Mapped: ").length = 31 := rfl
    rw [List.length_append]
    omega
  · rw [is_header, hmarker _ (by decide), hmarker _ (by decide)]
    rfl
  · exact hmarker _ (by decide)
  · rw [is_total, hmarker _ (by decide), hmarker _ (by decide), hmarker _ (by decide)]
    rfl

/-- The viewer has left the table when it comes to the totals. -/
theorem at_totals_outside (context : List UInt8) (task : task_struct) (mm : mm_struct) :
    (at_totals context task mm).in_vma_table = false := by
  have hhead : summary_head = unlines [[]] ++ unlines [str "Summary:"] := rfl
  rw [at_totals, before_totals, hhead, ← List.append_assoc,
    read_append ((whole_before_row task mm mm.mmap).append (whole_unlines _)),
    read_line (by decide) (by decide)]
  exact line_summary (by decide) (by decide)

theorem total_line_not_shown (htask : task.mm = some mm) (context : List UInt8) :
    printed_for context (vma_show task) (before_totals task mm ++ unlines [total_vmas mm]).length
      (unlines [total_virtual_memory mm]).length = [] := by
  have hwhole := whole_before_totals task mm
  rw [printed_for_eq (vma_show_eq htask) (hwhole.append (whole_unlines _)), read_append hwhole,
    ← at_totals]
  obtain ⟨hn, hl, hs⟩ := total_vmas_plain mm
  obtain ⟨hn', hl', hh', hs', ht'⟩ := total_virtual_memory_plain mm
  have hout := line_outside (at_totals_outside context task mm) hs
  rw [read_line hn hl, Viewer.prints, read_line hn' hl',
    line_silent hout hh' hs' ht', List.drop_length]

/-- **The report and its viewer** never agree: the report says "Total Virtual Memory Mapped:" and
the viewer looks for "Total Virtual Memory:". -/
theorem never_agrees (htask : task.mm = some mm) : ¬ Agrees context task mm := by
  intro h
  have hline := h.total_line
  rw [total_line_not_shown htask] at hline
  exact absurd hline List.not_mem_nil

/-- A process without any VMA. -/
def no_vmas : mm_struct := ⟨0, 0, 0, 0, 0, 0, 0, 0, 0, 0, 0, [], 0, 0, 0⟩

theorem never_agrees_without_vmas :
    ¬ Agrees (str "at start") ⟨⟨str "cat", by decide, by decide⟩, 1, some no_vmas⟩ no_vmas :=
  never_agrees rfl

theorem total_line_missing : ¬ ∀ context task mm, task.mm = some mm → Agrees context task mm := by
  intro h
  let task : task_struct := ⟨⟨str "cat", by decide, by decide⟩, 1, some no_vmas⟩
  have hline := (h (str "at start") task no_vmas rfl).total_line
  rw [total_line_not_shown rfl] at hline
  exact absurd hline List.not_mem_nil

end LinuxKernelProg.Vm.InspectVma
