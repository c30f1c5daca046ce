import LinuxKernelProg.Vm.VmaViewer

/-!
# What the viewer shows

The viewer looks for pieces of text anywhere in a line, and a row of the report ends in the name of
a file. Where no name has one of these pieces or a newline in it, the viewer shows every row once,
the number of the rows, and the line of the summary with that number (`shown_of_plain`).
-/

namespace LinuxKernelProg.Vm.InspectVma

open LinuxKernelProg.Lib

/-- What the viewer looks for, apart from the "0x" of the rows. -/
def markers : List String :=
  ["VMA Inspector", "Process PID", "Virtual Memory Areas", "===", "Summary:", "Total VMAs:",
    "Total Virtual Memory:", "RSS"]

/-- A text that is one line at most and has no marker. -/
structure Unmarked (text : List UInt8) : Prop where
  one_line : newline ∉ text
  unmarked : ∀ m ∈ markers, strstr (str m) text = false

variable {task : task_struct} {mm : mm_struct} {vma : vm_area_struct} {st : Viewer}
  {line text : List UInt8}

/-! ## The rows -/

theorem unmarked_type (mm : mm_struct) (h : ∀ file, vma.vm_file = some file → Unmarked file.bytes) :
    Unmarked (get_vma_type mm vma) ∧ (get_vma_type mm vma).length ≤ 255 := by
  have label : ∀ text ∈ ["[heap]", "[stack]", "[anon]"],
      newline ∉ str text ∧ (∀ m ∈ markers, strstr (str m) (str text) = false) ∧
        (str text).length ≤ 255 := by decide
  unfold get_vma_type
  split
  · split
    · obtain ⟨h₁, h₂, h₃⟩ := label "[heap]" (by decide)
      exact ⟨⟨h₁, h₂⟩, h₃⟩
    · split
      · obtain ⟨h₁, h₂, h₃⟩ := label "[stack]" (by decide)
        exact ⟨⟨h₁, h₂⟩, h₃⟩
      · obtain ⟨h₁, h₂, h₃⟩ := label "[anon]" (by decide)
        exact ⟨⟨h₁, h₂⟩, h₃⟩
  · rename_i file hfile
    exact ⟨h file hfile, file.short⟩

/-- The bytes of a row in front of the type. -/
def front_bytes : List UInt8 := str " 0123456789abcdefghijklmnopqrstuvwxyz-"

theorem vma_flags_subset (flags : BitVec 64) : vma_flags_to_string flags ⊆ front_bytes := by
  intro c hc
  obtain ⟨piece, hpiece, hc⟩ := List.mem_flatten.1 hc
  exact flag_pieces_all (P := (· ⊆ front_bytes)) (by decide) piece hpiece hc

/-- The part of a row between its first "0x" and its type. -/
def row_front (vma : vm_area_struct) : List UInt8 :=
  let offset := if vma.vm_file.isSome then vma.vm_pgoff <<< PAGE_SHIFT else 0
  padLeft 48 16 (hex vma.vm_start.toNat) ++ (str " 0x" ++ (padLeft 48 16 (hex vma.vm_end.toNat) ++
    (str " " ++ (padLeft 32 8 (dec vma.kb) ++ (str "k " ++
      (padLeft 32 6 (hex offset.toNat) ++ (str " " ++
        (padRight 32 20 (vma_flags_to_string vma.vm_flags) ++ str " "))))))))

theorem vma_row_eq (mm : mm_struct) (vma : vm_area_struct) :
    vma_row mm vma = str "0x" ++ (row_front vma ++ (get_vma_type mm vma ++ [newline])) := by
  simp only [vma_row, row, row_front, List.append_assoc]

theorem row_front_subset (vma : vm_area_struct) : row_front vma ⊆ front_bytes := by
  have hhex : str "0123456789abcdef" ⊆ front_bytes := by decide
  have hdec : str "0123456789" ⊆ front_bytes := by decide
  simp only [row_front, List.append_subset]
  refine ⟨?_, by decide, ?_, by decide, ?_, by decide, ?_, by decide, ?_, by decide⟩
  · exact padLeft_subset (by decide) (List.Subset.trans (hex_subset _) hhex)
  · exact padLeft_subset (by decide) (List.Subset.trans (hex_subset _) hhex)
  · exact padLeft_subset (by decide) (List.Subset.trans (dec_subset _) hdec)
  · exact padLeft_subset (by decide) (List.Subset.trans (hex_subset _) hhex)
  · exact padRight_subset (by decide) (vma_flags_subset _)

theorem length_row_front (vma : vm_area_struct) : (row_front vma).length ≤ 150 := by
  have h₁ := length_hex vma.vm_start
  have h₂ := length_hex vma.vm_end
  have h₃ : (dec vma.kb).length ≤ 20 := length_dec (vma.size / 1024)
  have h₄ := length_hex (if vma.vm_file.isSome then vma.vm_pgoff <<< PAGE_SHIFT else 0)
  have h₅ := length_vma_flags_to_string vma.vm_flags
  have h₆ : (str " 0x").length = 3 := rfl
  have h₇ : (str "k ").length = 2 := rfl
  have h₈ : (str " ").length = 1 := rfl
  simp only [row_front, List.length_append, length_padLeft, length_padRight]
  omega

/-- A line that the viewer takes for a row and for nothing else. -/
structure RowLine (line : List UInt8) : Prop where
  line_eq : ∃ text, line = text ++ [newline] ∧ newline ∉ text ∧ text.length ≤ 1022
  unmarked : ∀ m ∈ markers, strstr (str m) line = false
  hex : strstr (str "0x") line = true

theorem rowLine (h : ∀ file, vma.vm_file = some file → Unmarked file.bytes) :
    RowLine (vma_row mm vma) := by
  obtain ⟨htype, hlength⟩ := unmarked_type mm h
  have hfront := length_row_front vma
  rw [vma_row_eq]
  constructor
  · refine ⟨str "0x" ++ (row_front vma ++ get_vma_type mm vma), ?_, ?_, ?_⟩
    · simp only [List.append_assoc]
    · simp only [List.mem_append, not_or]
      refine ⟨by decide, fun hm => ?_, htype.one_line⟩
      exact absurd (row_front_subset vma hm) (by decide)
    · have : (str "0x").length = 2 := rfl
      simp only [List.length_append]
      omega
  · -- a marker starts with a byte that is not in front of the type, and it has no newline
    have hmarker : ∀ m ∈ markers, str m ≠ [] ∧ newline ∉ str m ∧
        (str m).head?.all (fun p => p ∉ str "0x" ∧ p ∉ front_bytes) = true := by decide
    intro m hm
    obtain ⟨hne, hnl, hhead⟩ := hmarker m hm
    have hname := htype.unmarked m hm
    rw [← strstr_concat hnl hne] at hname
    obtain ⟨p, ps, hps⟩ := List.exists_cons_of_ne_nil hne
    rw [hps] at hname hhead ⊢
    obtain ⟨h0x, hnot⟩ := of_decide_eq_true hhead
    rw [strstr_skip h0x, strstr_skip fun hp => hnot (row_front_subset vma hp), hname]
  · rw [strstr_iff]
    exact List.infix_append_left

namespace RowLine

theorem markers (h : RowLine line) : is_header line = false ∧ is_start line = false ∧
    is_row line = true ∧ is_summary line = false ∧ is_total line = false := by
  have hno (m : String) (hm : m ∈ InspectVma.markers) : strstr (str m) line = false :=
    h.unmarked m hm
  refine ⟨?_, hno _ (by decide), ?_, hno _ (by decide), ?_⟩
  · rw [is_header, hno _ (by decide), hno _ (by decide)]
    rfl
  · rw [is_row, h.hex, hno _ (by decide)]
    rfl
  · rw [is_total, hno _ (by decide), hno _ (by decide), hno _ (by decide)]
    rfl

/-- A row is shown once and counted. -/
theorem read (h : RowLine line) (hin : st.in_vma_table = true) :
    st.read line = { st.print line with vma_count := st.vma_count + 1 } := by
  obtain ⟨text, rfl, hn, hl⟩ := h.line_eq
  obtain ⟨hheader, hstart, hrow, hsum, htotal⟩ := h.markers
  rw [← unlines_singleton, read_line hn hl, unlines_singleton]
  simp [Viewer.line, Viewer.table_line, Viewer.print, hheader, hstart, hin, hrow, hsum, htotal]

theorem read_all {rows : List (List UInt8)} (h : ∀ line ∈ rows, RowLine line)
    (hin : st.in_vma_table = true) :
    (st.read rows.flatten).in_vma_table = true ∧
      (st.read rows.flatten).vma_count = st.vma_count + BitVec.ofNat 32 rows.length := by
  induction rows generalizing st with
  | nil => exact ⟨hin, (BitVec.add_zero _).symm⟩
  | cons line rows ih =>
    have hline := h line List.mem_cons_self
    have hwhole : Whole line := by
      obtain ⟨text, rfl, -⟩ := hline.line_eq
      exact whole_line text
    rw [List.flatten_cons, read_append hwhole, hline.read hin]
    have hnext : ({ st.print line with vma_count := st.vma_count + 1 } : Viewer).in_vma_table =
      true :=
      hin
    obtain ⟨hin', hcount⟩ := ih (fun l hl => h l (List.mem_cons_of_mem line hl)) hnext
    refine ⟨hin', ?_⟩
    rw [hcount, List.length_cons, BitVec.ofNat_add, BitVec.add_assoc,
      BitVec.add_comm (BitVec.ofNat 32 rows.length)]
    rfl

end RowLine

/-! ## The text around the rows -/

/-- Outside the table nothing is counted, and only the start of the table leads into it. -/
theorem read_outside (hin : st.in_vma_table = false)
    (h : strstr (str "Virtual Memory Areas") text = false) :
    (st.read text).in_vma_table = false ∧ (st.read text).vma_count = st.vma_count := by
  have key : ∀ (ls : List (List UInt8)) (st : Viewer), (∀ l ∈ ls, is_start l = false) →
      st.in_vma_table = false →
      (ls.foldl Viewer.line st).in_vma_table = false ∧
        (ls.foldl Viewer.line st).vma_count = st.vma_count := by
    intro ls
    induction ls with
    | nil => exact fun st _ hin => ⟨hin, rfl⟩
    | cons l ls ih =>
      intro st hls hin
      have hs := hls l List.mem_cons_self
      have hcount : (st.line l).vma_count = st.vma_count := by
        unfold Viewer.line
        cases is_header l <;> cases is_total l <;> simp [Viewer.print, hin, hs]
      rw [List.foldl_cons, ← hcount]
      exact ih (st.line l) (fun l hl => hls l (List.mem_cons_of_mem _ hl)) (line_outside hin hs)
  exact key _ st (fun l hl => strstr_lines h hl) hin

/-- A line of the table that is not a row. -/
theorem line_table (line : List UInt8) (hin : st.in_vma_table = true)
    (hs : is_start line = false) (hr : is_row line = false) :
    (st.line line).in_vma_table = !is_summary line ∧ (st.line line).vma_count = st.vma_count := by
  unfold Viewer.line Viewer.table_line
  cases is_header line <;> cases is_total line <;> cases is_summary line <;>
    simp [Viewer.print, hin, hs, hr]

/-- A line of the summary is shown. -/
theorem line_total (hin : st.in_vma_table = false) (hs : is_start line = false)
    (ht : is_total line = true) : line ∈ (st.line line).out.drop st.out.length := by
  unfold Viewer.line
  cases is_header line <;> simp [Viewer.print, hin, hs, ht]

theorem line_start (hs : is_start line = true) (st : Viewer) :
    (st.line line).in_vma_table = true ∧ (st.line line).vma_count = st.vma_count := by
  unfold Viewer.line
  cases is_header line <;> simp [Viewer.print, hs]

/-- The title and the overview have nothing that starts the table, whatever the name of the
process. -/
theorem head_outside (task : task_struct) (mm : mm_struct) :
    strstr (str "Virtual Memory Areas") (unlines (title task :: overview mm)) = false := by
  have htext : unlines (title task :: overview mm) = str "VMA Inspector for Process: " ++
      (task.comm.bytes ++ (str " " ++ 40 :: (str "PID: " ++ (decInt task.pid.toInt ++
        (str ")" ++ newline :: unlines (overview mm)))))) := by
    have hopen : str " (PID: " = str " " ++ 40 :: str "PID: " := rfl
    simp [title, unlines, hopen]
  have hlayout (label : String) (h : 86 ∉ str label) (x : BitVec 64) :
      86 ∉ layout_line label x := by
    simp only [layout_line, List.mem_append, not_or]
    refine ⟨⟨h, by decide⟩, fun hm => ?_⟩
    have hpadded : padLeft 48 8 (hex x.toNat) ⊆ str "0123456789abcdef" :=
      padLeft_subset (by decide) (hex_subset _)
    exact absurd (hpadded hm) (by decide)
  -- behind the name there is no "V"
  have hoverview : 86 ∉ unlines (overview mm) := by
    apply not_mem_unlines (by decide)
    simp only [overview, List.forall_mem_cons]
    and_intros
    any_goals exact hlayout _ (by decide) _
    any_goals decide
  have hshort := task.comm.short
  -- the name is shorter than the marker, which has no "("
  have hlen : task.comm.bytes.length + (str " ").length < (str "Virtual Memory Areas").length :=
    Nat.lt_of_le_of_lt (Nat.add_le_add_right hshort 1) (by decide)
  rw [htext, strstr_append (by decide), strstr_append_short (by decide) hlen]
  apply strstr_of_not_mem (p := 86) (by decide)
  simp only [List.mem_append, List.mem_cons, not_or]
  exact ⟨by decide, by decide, by decide,
    fun hm => absurd (decInt_subset _ hm) (by decide), by decide,
    by decide, hoverview⟩

/-- The viewer at the first row: it is in the table and has counted nothing. -/
theorem at_first_row (context : List UInt8) (task : task_struct) (mm : mm_struct) :
    ((Viewer.init context).read (report_head task mm)).in_vma_table = true ∧
      ((Viewer.init context).read (report_head task mm)).vma_count = 0 := by
  let columns₁ := columns "START" "END" "SIZE" "OFFSET" "FLAGS" "TYPE/FILE"
  let columns₂ := columns "==================" "==================" "==========" "======"
    "====================" "================"
  have hhead : report_head task mm = unlines (title task :: overview mm) ++
      (unlines [str "Virtual Memory Areas (VMAs):"] ++
        (unlines [columns₁] ++ unlines [columns₂])) := by
    simp only [← unlines_append]
    rfl
  rw [hhead, read_append (whole_unlines _), read_append (whole_unlines _),
    read_append (whole_unlines _), read_line (by decide) (by decide),
      read_line (by decide) (by decide),
    read_line (by decide) (by decide)]
  have hinit : (Viewer.init context).in_vma_table = false := rfl
  have hstart : is_start (str "Virtual Memory Areas (VMAs):" ++ [newline]) = true := by decide
  obtain ⟨-, hc₀⟩ := read_outside hinit (head_outside task mm)
  obtain ⟨hin₁, hc₁⟩ :=
    line_start hstart ((Viewer.init context).read (unlines (title task :: overview mm)))
  obtain ⟨hin₂, hc₂⟩ := line_table (columns₁ ++ [newline]) hin₁ (by decide) (by decide)
  obtain ⟨hin₃, hc₃⟩ := line_table (columns₂ ++ [newline]) hin₂ (by decide) (by decide)
  exact ⟨hin₃, by rw [hc₃, hc₂, hc₁, hc₀]; rfl⟩

/-- Every mapped file has a name without markers. -/
def PlainNames (mm : mm_struct) : Prop :=
  ∀ vma ∈ mm.mmap, ∀ file, vma.vm_file = some file → Unmarked file.bytes

theorem at_row_plain (h : PlainNames mm) (context : List UInt8) (task : task_struct)
    {done : List vm_area_struct} (hdone : done ⊆ mm.mmap) :
    (at_row context task mm done).in_vma_table = true ∧
      (at_row context task mm done).vma_count = BitVec.ofNat 32 done.length := by
  obtain ⟨hin, hcount⟩ := at_first_row context task mm
  have hrows : ∀ line ∈ done.map (vma_row mm), RowLine line := by
    intro line hline
    obtain ⟨vma, hvma, rfl⟩ := List.mem_map.1 hline
    exact rowLine (h vma (hdone hvma))
  obtain ⟨hin', hcount'⟩ := RowLine.read_all hrows hin
  rw [at_row, before_row, report_head, read_append (whole_unlines _), ← report_head]
  refine ⟨hin', ?_⟩
  rw [hcount', hcount, List.length_map]
  exact BitVec.zero_add _

theorem vma_count_eq (mm : mm_struct) : mm.vma_count = BitVec.ofNat 32 mm.mmap.length := by
  have key : ∀ (vmas : List vm_area_struct) (n : BitVec 32),
      vmas.foldl (fun n _ => n + 1) n = n + BitVec.ofNat 32 vmas.length := by
    intro vmas
    induction vmas with
    | nil => exact fun n => (BitVec.add_zero n).symm
    | cons vma vmas ih =>
      intro n
      rw [List.foldl_cons, ih, List.length_cons, BitVec.ofNat_add, BitVec.add_assoc,
        BitVec.add_comm 1]
      rfl
  exact (key mm.mmap 0).trans (BitVec.zero_add _)

/-- The viewer at the totals has counted the rows. -/
theorem at_totals_count (h : PlainNames mm) (context : List UInt8) (task : task_struct) :
    (at_totals context task mm).vma_count = mm.vma_count := by
  obtain ⟨hin, hcount⟩ := at_row_plain h context task (List.Subset.refl mm.mmap)
  have hhead : summary_head = unlines [[]] ++ unlines [str "Summary:"] := rfl
  rw [at_totals, before_totals, read_append (whole_before_row task mm mm.mmap), ← at_row, hhead,
    read_append (whole_unlines _), read_line (by decide) (by decide),
    read_line (by decide) (by decide)]
  obtain ⟨hin₁, hc₁⟩ := line_table ([] ++ [newline]) hin (by decide) (by decide)
  obtain ⟨-, hc₂⟩ := line_table (str "Summary:" ++ [newline]) hin₁ (by decide) (by decide)
  rw [hc₂, hc₁, hcount, vma_count_eq]

/-- The text behind the totals has nothing that starts the table. -/
theorem remainder_outside (mm : mm_struct) :
    strstr (str "Virtual Memory Areas") (unlines (remainder mm)) = false := by
  let peak := dec (mm.hiwater_vm * PAGE_SIZE / 1024).toNat
  have hsplit : ∃ legend, remainder mm = pages_line "  RSS (Resident Set Size): " mm.rss ::
      pages_line "  Virtual Memory Peak: " mm.hiwater_vm ::
        pages_line "  RSS Peak: " mm.hiwater_rss :: legend ∧
      ∀ l ∈ legend, 86 ∉ l := ⟨_, rfl, by decide⟩
  obtain ⟨legend, hlines, hlegend⟩ := hsplit
  have htext : unlines (remainder mm) = pages_line "  RSS (Resident Set Size): " mm.rss ++
      ([newline] ++
        (str "  Virtual Memory Peak: " ++ (peak ++ (str " KB" ++ ([newline] ++
          unlines (pages_line "  RSS Peak: " mm.hiwater_rss :: legend)))))) := by
    rw [hlines]
    simp [unlines, pages_line, peak]
  have hpages (label : String) (h : 86 ∉ str label) (pages : BitVec 64) :
      86 ∉ pages_line label pages := by
    simp only [pages_line, List.mem_append, not_or]
    exact ⟨⟨h, fun hm => absurd (dec_subset _ hm) (by decide)⟩, by decide⟩
  have hrest : 86 ∉ unlines (pages_line "  RSS Peak: " mm.hiwater_rss :: legend) := by
    apply not_mem_unlines (by decide)
    rw [List.forall_mem_cons]
    exact ⟨hpages _ (by decide) _, hlegend⟩
  -- the only "V" is that of "Virtual Memory Peak"
  have hskip (t : List UInt8) (h : 86 ∉ t) (u : List UInt8) :
      strstr (str "Virtual Memory Areas") (t ++ u) = strstr (str "Virtual Memory Areas") u :=
    strstr_skip h u
  rw [htext, hskip _ (hpages _ (by decide) _), hskip _ (by decide), strstr_append (by decide)]
  apply strstr_of_not_mem (p := 86) (by decide)
  simp only [List.mem_append, not_or]
  exact ⟨fun hm => absurd (dec_subset _ hm) (by decide), by decide, by decide, hrest⟩

/-- **For names without markers** the viewer shows every row of the report once, the number of the
rows, and the line of the summary with that number. -/
theorem shown_of_plain (htask : task.mm = some mm) (h : PlainNames mm) (context : List UInt8) :
    (∀ done vma rest, mm.mmap = done ++ vma :: rest →
        printed_for context (vma_show task) (before_row task mm done).length
          (vma_row mm vma).length = [vma_row mm vma]) ∧
      (show_vma_details context (some (vma_show task))).getLast? =
        some (str "Displayed " ++ decInt mm.vma_count.toInt ++ str " VMAs" ++ [newline]) ∧
      total_vmas mm ++ [newline] ∈
        printed_for context (vma_show task) (before_totals task mm).length
          (unlines [total_vmas mm]).length := by
  have hwhole := whole_before_totals task mm
  refine ⟨?_, ?_, ?_⟩
  · intro done vma rest hmm
    have hdone : done ⊆ mm.mmap := by
      rw [hmm]
      exact List.subset_append_left done _
    have hvma : vma ∈ mm.mmap := by
      rw [hmm]
      exact List.mem_append_right done List.mem_cons_self
    obtain ⟨behind, hshow⟩ := vma_show_row htask hmm
    obtain ⟨hin, -⟩ := at_row_plain h context task hdone
    rw [printed_for_eq hshow (whole_before_row task mm done), ← at_row, Viewer.prints,
      (rowLine (h vma hvma)).read hin]
    simp [Viewer.print]
  · have hreport : (Viewer.init context).read (vma_show task) =
        (((at_totals context task mm).read (unlines [total_vmas mm])).read
          (unlines [total_virtual_memory mm])).read (unlines (remainder mm)) := by
      have hwhole₂ := hwhole.append (whole_unlines [total_vmas mm])
      rw [vma_show_eq htask, report, read_append (hwhole₂.append (whole_unlines _)),
        read_append hwhole₂, read_append hwhole]
      rfl
    obtain ⟨-, -, hs₁⟩ := total_vmas_plain mm
    obtain ⟨-, -, -, hs₂, -⟩ := total_virtual_memory_plain mm
    rw [← unlines_singleton] at hs₁ hs₂
    obtain ⟨hin₁, hc₁⟩ := read_outside (at_totals_outside context task mm) hs₁
    obtain ⟨hin₂, hc₂⟩ := read_outside hin₁ hs₂
    obtain ⟨-, hc₃⟩ := read_outside hin₂ (remainder_outside mm)
    rw [show_vma_details, List.getLast?_concat, hreport, hc₃, hc₂, hc₁, at_totals_count h]
  · obtain ⟨hn, hl, hs⟩ := total_vmas_plain mm
    have hshow : vma_show task = before_totals task mm ++ unlines [total_vmas mm] ++
        (unlines [total_virtual_memory mm] ++ unlines (remainder mm)) := by
      rw [vma_show_eq htask, report, List.append_assoc]
    have htotal : is_total (total_vmas mm ++ [newline]) = true := by
      have hlabel : strstr (str "Total VMAs:") (total_vmas mm ++ [newline]) = true := by
        rw [strstr_iff]
        exact ⟨str "  ", str " " ++ decInt mm.vma_count.toInt ++ [newline], by
          simp [total_vmas, str]⟩
      rw [is_total, hlabel]
      rfl
    rw [printed_for_eq hshow hwhole, ← at_totals, Viewer.prints, read_line hn hl]
    exact line_total (at_totals_outside context task mm) hs htotal

end LinuxKernelProg.Vm.InspectVma
