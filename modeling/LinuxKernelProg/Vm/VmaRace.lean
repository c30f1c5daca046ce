import LinuxKernelProg.Lib.Run
import LinuxKernelProg.Lib.Vsnprintf
import LinuxKernelProg.Vm.InspectVma

/-!
# Several readers of the VMA report

The buffer of `vma_flags_to_string` is `static`: all the readers of `vma_details` share it. Each of
them holds the lock of its own address space only, so any number of them run `vma_show` at the same
time, one `snprintf` at a time.

A reader finds the string of its own VMA in the buffer when it prints the row, if nobody has changed
what it has written there (`rows_own`). Otherwise the row can have the flags of another process
(`row_of_another`).
-/

namespace LinuxKernelProg.Vm.InspectVma

open LinuxKernelProg.Lib

/-! ## The pieces -/

variable {flags : BitVec 64} {k : Nat}

theorem nul_not_mem_piece : ∀ piece ∈ flag_pieces flags, 0 ∉ piece :=
  flag_pieces_all (by decide)

/-- The arguments of the `snprintf` calls. -/
def flag_strings (flags : BitVec 64) : List CString :=
  (flag_pieces flags).pmap CString.mk nul_not_mem_piece

theorem getElem?_flag_strings :
    (flag_pieces flags)[k]? = ((flag_strings flags)[k]?).map CString.bytes := by
  have hmap : (flag_strings flags).map CString.bytes = flag_pieces flags := by
    rw [flag_strings, List.map_pmap, List.pmap_eq_map, List.map_id']
  rw [← List.getElem?_map, hmap]

/-- What the first `k` calls have written. -/
def written (flags : BitVec 64) (k : Nat) : List UInt8 := ((flag_pieces flags).take k).flatten

/-- The string as the buffer has it. -/
def flags_cstring (flags : BitVec 64) : CString where
  bytes := vma_flags_to_string flags
  nul_free h := by
    obtain ⟨piece, hpiece, h0⟩ := List.mem_flatten.1 h
    exact nul_not_mem_piece piece hpiece h0

theorem written_succ {piece : CString} (h : (flag_strings flags)[k]? = some piece) :
    written flags (k + 1) = written flags k ++ piece.bytes := by
  have hk : (flag_pieces flags)[k]? = some piece.bytes := by
    rw [getElem?_flag_strings, h]
    rfl
  rw [written, List.take_add_one, hk, List.flatten_append]
  simp [written]

theorem written_all (h : (flag_strings flags)[k]? = none) :
    written flags k = vma_flags_to_string flags := by
  have hk : (flag_pieces flags)[k]? = none := by
    rw [getElem?_flag_strings, h]
    rfl
  rw [written, List.take_of_length_le (List.getElem?_eq_none_iff.1 hk), vma_flags_to_string]

theorem length_written_le : (written flags k).length ≤ 48 := length_take_flag_pieces flags k

/-! ## The program -/

/-- `sizeof(buffer)` -/
def FLAGS_SIZE : Nat := 128

/-- Where a reader is in the loop of `vma_show`. The VMAs behind the one it is at do not change: it
holds the lock of its address space. -/
inductive Pc where
  | loop (rest : List vm_area_struct)
  /-- In `vma_flags_to_string`, when `k` of its `snprintf` calls have returned. -/
  | format (vma : vm_area_struct) (k : Nat) (rest : List vm_area_struct)
  /-- `get_vma_type` has returned. -/
  | print (vma : vm_area_struct) (type_str : List UInt8) (rest : List vm_area_struct)

structure Reader where
  mm : mm_struct
  pc : Pc
  /-- The rows that `seq_printf` has printed to it. -/
  rows : List (List UInt8)

/-- One step of a reader: what it leaves in the buffer, and where it is then. -/
def Reader.step (r : Reader) (buffer : Memory) : Option (Memory × Reader) :=
  match r.pc with
  | .loop [] => none
  | .loop (vma :: rest) =>
    -- `buffer[0] = '\0'`
    some (fun a => if a = 0 then 0 else buffer a, { r with pc := .format vma 0 rest })
  | .format vma k rest =>
    match (flag_strings vma.vm_flags)[k]? with
    | some piece =>
      let pos := BitVec.ofNat 64 (written vma.vm_flags k).length
      some (vsnprintf buffer pos (BitVec.ofNat 64 FLAGS_SIZE - pos) piece,
        { r with pc := .format vma (k + 1) rest })
    | none => some (buffer, { r with pc := .print vma (get_vma_type r.mm vma) rest })
  | .print vma type_str rest =>
    some (buffer,
      { r with pc := .loop rest, rows := r.rows ++ [row vma (buffer.string FLAGS_SIZE) type_str] })

/-- The static buffer, and those who are in `vma_show`. -/
structure Readers where
  buffer : Memory
  readers : List Reader

/-- The buffer is cleared when the module is loaded. -/
def Readers.init : Readers := ⟨fun _ => 0, []⟩

inductive Act where
  /-- A process calls `vma_show`. -/
  | enter (task : task_struct)
  | run (t : Nat)

def Readers.step (s : Readers) : Act → Option Readers
  | .enter task =>
    match task.mm with
    | none => some s
    | some mm => some { s with readers := s.readers ++ [⟨mm, .loop mm.mmap, []⟩] }
  | .run t =>
    match s.readers[t]? with
    | none => none
    | some r =>
      match r.step s.buffer with
      | none => none
      | some (buffer, r') => some ⟨buffer, s.readers.set t r'⟩

/-- How much of the buffer a reader has written and relies on. The NUL is part of it after the last
of the calls only, because each of them writes its own. -/
def Pc.in_use : Pc → Nat
  | .loop _ => 0
  | .format vma k _ =>
    (written vma.vm_flags k).length + if k < (flag_pieces vma.vm_flags).length then 0 else 1
  | .print vma _ _ => (vma_flags_to_string vma.vm_flags).length + 1

/-- The step changes nothing that another reader relies on. -/
def Harmless (s : Readers) : Act → Prop
  | .enter _ => True
  | .run t => ∀ r ∈ s.readers[t]?, ∀ after ∈ r.step s.buffer, ∀ other ∈ s.readers.eraseIdx t,
      ∀ i < other.pc.in_use, after.1 (BitVec.ofNat 64 i) = s.buffer (BitVec.ofNat 64 i)

instance (s : Readers) : ∀ a, Decidable (Harmless s a)
  | .enter _ => inferInstanceAs (Decidable True)
  | .run t => inferInstanceAs (Decidable (∀ r ∈ s.readers[t]?, ∀ after ∈ r.step s.buffer, _))

/-! ## One reader -/

/-- The text that a reader has in the buffer. -/
def Pc.text : Pc → List UInt8
  | .loop _ => []
  | .format vma k _ => written vma.vm_flags k
  | .print vma _ _ => vma_flags_to_string vma.vm_flags

/-- The VMAs without a row so far. -/
def Pc.todo : Pc → List vm_area_struct
  | .loop rest => rest
  | .format vma _ rest => vma :: rest
  | .print vma _ rest => vma :: rest

/-- What the reader relies on is in the buffer, and its rows so far are those of the report. -/
structure Reader.Inv (buffer : Memory) (r : Reader) : Prop where
  kept : ∀ i < r.pc.in_use, buffer (BitVec.ofNat 64 i) = r.pc.text.getD i 0
  typed : ∀ vma type_str rest, r.pc = .print vma type_str rest → type_str = get_vma_type r.mm vma
  rows : r.rows ++ r.pc.todo.map (vma_row r.mm) = r.mm.mmap.map (vma_row r.mm)

variable {buffer buffer' : Memory} {r r' : Reader} {mm : mm_struct} {vma : vm_area_struct}
  {rest : List vm_area_struct} {rows : List (List UInt8)} {type_str : List UInt8}

/-- Only what the reader relies on matters to it. -/
theorem Reader.Inv.frame (h : r.Inv buffer)
    (hb : ∀ i < r.pc.in_use, buffer' (BitVec.ofNat 64 i) = buffer (BitVec.ofNat 64 i)) :
    r.Inv buffer' where
  kept i hi := by rw [hb i hi, h.kept i hi]
  typed := h.typed
  rows := h.rows

theorem in_use_format_le : (Pc.format vma k rest).in_use ≤ (written vma.vm_flags k).length + 1 := by
  simp only [Pc.in_use]
  split <;> omega

/-- A call of `snprintf` appends to what is there, with a NUL. -/
theorem kept_snprintf {piece : CString} (hpiece : (flag_strings flags)[k]? = some piece)
    (h : ∀ i < (written flags k).length, buffer (BitVec.ofNat 64 i) = (written flags k).getD i 0) :
    let pos := BitVec.ofNat 64 (written flags k).length
    ∀ i < (written flags (k + 1)).length + 1,
      vsnprintf buffer pos (BitVec.ofNat 64 FLAGS_SIZE - pos) piece (BitVec.ofNat 64 i) =
        (written flags (k + 1)).getD i 0 := by
  intro pos i hi
  have hsucc := written_succ hpiece
  have hlen : (written flags (k + 1)).length = (written flags k).length + piece.bytes.length := by
    rw [hsucc, List.length_append]
  have hle : (written flags (k + 1)).length ≤ 48 := length_written_le
  have hidx : (BitVec.ofNat 64 i).toNat = i := by
    rw [BitVec.toNat_ofNat]
    omega
  have hsize : BitVec.ofNat 64 FLAGS_SIZE - pos =
      BitVec.ofNat 64 (FLAGS_SIZE - (written flags k).length) := by
    apply ofNat_sub_ofNat _ (by decide)
    rw [FLAGS_SIZE]
    omega
  have hoff : (written flags k).length < FLAGS_SIZE := by
    rw [FLAGS_SIZE]
    omega
  have htake : piece.bytes.take (FLAGS_SIZE - 1 - (written flags k).length) = piece.bytes := by
    apply List.take_of_length_le
    rw [FLAGS_SIZE]
    omega
  rw [hsize, vsnprintf_apply hoff (by decide), hidx, htake, hsucc]
  split
  · rename_i hin
    rw [List.getD_append_right _ _ _ _ hin.1]
  · rename_i hin
    have hlt : i < (written flags k).length := by
      rw [FLAGS_SIZE] at hin
      omega
    rw [List.getD_append _ _ _ _ hlt, h i hlt]

/-- The row is printed with the string of its own VMA. -/
theorem string_of_kept
    (h : ∀ i < (vma_flags_to_string flags).length + 1,
      buffer (BitVec.ofNat 64 i) = (vma_flags_to_string flags).getD i 0) :
    buffer.string FLAGS_SIZE = vma_flags_to_string flags := by
  have hlen := length_vma_flags_to_string flags
  apply Memory.string_eq (s := flags_cstring flags)
  · exact Nat.lt_of_le_of_lt hlen (by decide)
  · exact fun i hi => h i (Nat.lt_succ_of_le hi)

theorem Reader.Inv.step (h : r.Inv buffer) (hs : r.step buffer = some (buffer', r')) :
    r'.Inv buffer' := by
  obtain ⟨mm, pc, rows⟩ := r
  cases pc with
  | loop todo =>
    cases todo with
    | nil => cases hs
    | cons vma rest =>
      cases hs
      refine ⟨fun i hi => ?_, nofun, h.rows⟩
      obtain rfl : i = 0 := by
        have hle := Nat.lt_of_lt_of_le hi in_use_format_le
        simp only [written, List.take_zero, List.flatten_nil, List.length_nil] at hle
        omega
      rfl
  | format vma k rest =>
    have hkept : ∀ i < (written vma.vm_flags k).length,
        buffer (BitVec.ofNat 64 i) = (written vma.vm_flags k).getD i 0 := fun i hi =>
      h.kept i (Nat.lt_of_lt_of_le hi (Nat.le_add_right _ _))
    simp only [Reader.step] at hs
    split at hs
    · rename_i piece hpiece
      cases hs
      exact ⟨fun i hi => kept_snprintf hpiece hkept i (Nat.lt_of_lt_of_le hi in_use_format_le),
        nofun, h.rows⟩
    · rename_i hall
      cases hs
      have htext := written_all hall
      have hk : ¬ k < (flag_pieces vma.vm_flags).length := by
        rw [List.getElem?_eq_none_iff, flag_strings, List.length_pmap] at hall
        omega
      refine ⟨fun i hi => ?_, fun _ _ _ hpc => by cases hpc; rfl, h.rows⟩
      have := h.kept i
      simp only [Pc.in_use, Pc.text, if_neg hk, htext] at this hi ⊢
      exact this hi
  | print vma type_str rest =>
    cases hs
    have htype : type_str = get_vma_type mm vma := h.typed vma type_str rest rfl
    have hstring : buffer.string FLAGS_SIZE = vma_flags_to_string vma.vm_flags :=
      string_of_kept h.kept
    refine ⟨fun i hi => absurd hi (Nat.not_lt_zero i), nofun, ?_⟩
    have hrows := h.rows
    simp only [Pc.todo, List.map_cons] at hrows ⊢
    rw [htype, hstring, List.append_assoc]
    exact hrows

/-! ## Any interleaving -/

variable {s s' : Readers} {a : Act}

def Readers.Inv (s : Readers) : Prop := ∀ r ∈ s.readers, r.Inv s.buffer

theorem Readers.Inv.step (h : s.Inv) (ha : Harmless s a) (hs : s.step a = some s') : s'.Inv := by
  cases a with
  | enter task =>
    simp only [Readers.step] at hs
    split at hs
    · cases hs
      exact h
    · rename_i mm hmm
      cases hs
      intro r hr
      rcases List.mem_append.1 hr with hr | hr
      · exact h r hr
      · rw [List.mem_singleton.1 hr]
        exact ⟨nofun, nofun, rfl⟩
  | run t =>
    simp only [Readers.step] at hs
    split at hs
    · cases hs
    · rename_i r hr
      split at hs
      · cases hs
      · rename_i buffer r' hstep
        cases hs
        intro other hother
        rcases eq_or_mem_of_mem_set hother with rfl | hother
        · exact (h r (List.mem_of_getElem? hr)).step hstep
        · exact (h other (List.mem_of_mem_eraseIdx hother)).frame (ha r hr _ hstep other hother)

/-- No other reader is between its string and its row. -/
def Alone (s : Readers) : Act → Prop
  | .enter _ => True
  | .run t => ∀ other ∈ s.readers.eraseIdx t, ∃ rest, other.pc = .loop rest

/-- A lock that is held from the call of `vma_flags_to_string` to the print of the row is enough. -/
theorem harmless_of_alone {as : List Act} (h : Along Readers.step Alone s as) :
    Along Readers.step Harmless s as := by
  have hharmless : ∀ {s : Readers} {a : Act}, True → Alone s a → Harmless s a := by
    intro s a _ halone
    cases a with
    | enter task => trivial
    | run t =>
      intro r _ after _ other hother i hi
      obtain ⟨rest, hpc⟩ := halone other hother
      rw [hpc] at hi
      exact absurd hi (Nat.not_lt_zero i)
  exact Along.imp_of_inv hharmless (fun _ _ _ => trivial) trivial h

theorem inv_of_run {as : List Act} (h : run Readers.step .init as = some s)
    (hC : Along Readers.step Harmless .init as) : s.Inv :=
  run_inv Readers.Inv.step (fun _ hr => absurd hr List.not_mem_nil) hC h

theorem Readers.Inv.printed_first (h : s.Inv) :
    ∀ r ∈ s.readers, r.rows <+: r.mm.mmap.map (vma_row r.mm) :=
  fun r hr => ⟨_, (h r hr).rows⟩

/-- One reader at a time from the string to the row. -/
theorem rows_own_of_alone {as : List Act} (h : run Readers.step .init as = some s)
    (hC : Along Readers.step Alone .init as) :
    ∀ r ∈ s.readers, r.rows <+: r.mm.mmap.map (vma_row r.mm) :=
  (inv_of_run h (harmless_of_alone hC)).printed_first

/-- **Rows are not mixed** as long as no reader changes what another one relies on: what a reader
has printed is the start of the rows of its own report, each with the flags of its own VMA. -/
theorem rows_own {as : List Act} (h : run Readers.step .init as = some s)
    (hC : Along Readers.step Harmless .init as) :
    ∀ r ∈ s.readers, r.rows <+: r.mm.mmap.map (vma_row r.mm) :=
  (inv_of_run h hC).printed_first

/-- A process with one anonymous mapping. -/
def one_vma (vm_flags : BitVec 64) : task_struct :=
  let vma : vm_area_struct := ⟨0x10000, 0x11000, vm_flags, none, 0⟩
  let mm : mm_struct := ⟨0, 0, 0, 0, 0x20000, 0x20000, 0x30000, 0, 0, 0, 0, [vma], 0, 0, 0⟩
  ⟨⟨str "cat", by decide, by decide⟩, 1, some mm⟩

/-- Two readers with the same flags go step by step together, and a third one with others comes in
when they have printed. -/
theorem rows_own_of_three : ∃ s : Readers,
    s.readers.map (fun r => r.rows.length) = [1, 1, 1] ∧
      ∀ r ∈ s.readers, r.rows <+: r.mm.mmap.map (vma_row r.mm) := by
  let as : List Act :=
    [.enter (one_vma VM_READ), .enter (one_vma VM_READ), .enter (one_vma VM_WRITE)] ++
      (List.replicate 8 [.run 0, .run 1]).flatten ++ List.replicate 8 (.run 2)
  have hrows : (run Readers.step .init as).map (fun s => s.readers.map fun r => r.rows.length) =
      some [1, 1, 1] := by decide
  obtain ⟨s, h, hs⟩ := Option.map_eq_some_iff.1 hrows
  exact ⟨s, hs, rows_own h (by decide)⟩

/-- The first reader formats its flags, then the second one does, then the first one prints: its row
has the flags of the other process. -/
theorem row_of_another : ¬ ∀ as s, run Readers.step .init as = some s →
    ∀ r ∈ s.readers, r.rows <+: r.mm.mmap.map (vma_row r.mm) := by
  intro h
  let as : List Act := [.enter (one_vma VM_READ), .enter (one_vma VM_WRITE)] ++
    List.replicate 6 (.run 0) ++ List.replicate 6 (.run 1) ++ [.run 0, .run 0]
  have hrows : (run Readers.step .init as).map (fun s =>
      s.readers.map fun r => decide (r.rows <+: r.mm.mmap.map (vma_row r.mm))) =
        some [false, true] := by decide +kernel
  obtain ⟨s, hrun, hs⟩ := Option.map_eq_some_iff.1 hrows
  have hfalse : false ∈ s.readers.map fun r => decide (r.rows <+: r.mm.mmap.map (vma_row r.mm)) :=
    hs ▸ List.mem_cons_self
  obtain ⟨r, hr, hno⟩ := List.mem_map.1 hfalse
  exact of_decide_eq_false hno (h as s hrun r hr)

end LinuxKernelProg.Vm.InspectVma
