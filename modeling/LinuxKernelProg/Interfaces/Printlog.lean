import LinuxKernelProg.Lib.CBuffer
import LinuxKernelProg.Lib.Sscanf

/-!
# The kernel log

`read_from_kmsg` of `p3_features/printlog.c` reads the records of `/dev/kmsg`, one with each `read`,
into one buffer. It cuts a record at the first `;` and the message at its first newline, and scans
the numbers in front of them. Every record that the kernel writes is printed back
(`read_from_kmsg_eq`).
-/

namespace LinuxKernelProg.Interfaces.Printlog

open LinuxKernelProg.Lib
open LinuxKernelProg.Lib.CBuffer
open LinuxKernelProg.Lib.Sscanf

/-! ## The program -/

def comma : UInt8 := 44
def semicolon : UInt8 := 59

/-- `sscanf(p, "%lu,%lu,%lld,", &level, &seq, &timestamp_us)`, if all three are stored. -/
def sscanf_numbers (p : List UInt8) : Option (BitVec 64 × BitVec 64 × BitVec 64) := do
  let (level, p) ← scan_lu p
  let p ← scan_byte comma p
  let (seq, p) ← scan_lu p
  let p ← scan_byte comma p
  let (timestamp_us, _) ← scan_lld p
  some (level, seq, timestamp_us)

def line (level seq timestamp_us : BitVec 64) (msg : List UInt8) : List UInt8 :=
  str "[L:" ++ dec level.toNat ++ str " S:" ++ dec seq.toNat ++ str " T:" ++
    decInt timestamp_us.toInt ++ str " us] " ++
    msg ++ [newline]

/-- Lines 68-79: the prefix is terminated, and the message starts at `msg`. -/
def print_message (buffer : List UInt8) (msg : Nat) : Option (List UInt8 × List UInt8) := do
  let p ← string buffer 0
  match sscanf_numbers p with
  | some (level, seq, timestamp_us) =>
    let nl ← strchr buffer msg newline
    let buffer ← match nl with
      | some nl => store buffer nl 0
      | none => some buffer
    let text ← string buffer msg
    some (buffer, line level seq timestamp_us text)
  | none =>
    let text ← string buffer msg
    some (buffer, str "RAW: " ++ p ++ [semicolon] ++ text)

/-- The body of the loop: the buffer afterwards, and what is printed. `none` is a use of memory
outside of the buffer. -/
def read_record (buffer bytes : List UInt8) : Option (List UInt8 × List UInt8) := do
  let buffer ← store (bytes ++ buffer.drop bytes.length) bytes.length 0
  let msg ← strchr buffer 0 semicolon
  match msg with
  | some msg =>
    let buffer ← store buffer msg 0
    print_message buffer (msg + 1)
  | none =>
    let text ← string buffer 0
    some (buffer, str "RAW: " ++ text)

/-- The loop, until `read` does not give any bytes. -/
def read_records : List UInt8 → List (List UInt8) → Option (List UInt8)
  | _, [] => some []
  | buffer, bytes :: reads => do
    let (buffer, out) ← read_record buffer bytes
    let rest ← read_records buffer reads
    some (out ++ rest)

def banner : List UInt8 :=
  str "Reading and parsing kernel messages from /dev/kmsg. Press Ctrl+C to exit.\n"

def read_from_kmsg (buffer : Vector UInt8 2048) (reads : List (List UInt8)) : Option (List UInt8) :=
  (read_records buffer.toList reads).map (banner ++ ·)

/-! ## The records of the kernel -/

structure Fields where
  level : BitVec 64
  seq : BitVec 64
  timestamp_us : Nat
  flags : List UInt8
  message : List UInt8
  /-- The lines behind the message, a key and a value each. -/
  dictionary : List (List UInt8 × List UInt8)

namespace Fields

def header (f : Fields) : List UInt8 :=
  dec f.level.toNat ++ comma ::
    (dec f.seq.toNat ++ comma :: (dec f.timestamp_us ++ comma :: f.flags))

def continuation (f : Fields) : List UInt8 :=
  unlines (f.dictionary.map fun (key, value) => str " " ++ key ++ str "=" ++ value)

def bytes (f : Fields) : List UInt8 :=
  f.header ++ semicolon :: (f.message ++ newline :: f.continuation)

/-- The level, the sequence number, the timestamp and the message. -/
def printed (f : Fields) : List UInt8 :=
  str "[L:" ++ dec f.level.toNat ++ str " S:" ++ dec f.seq.toNat ++ str " T:" ++
    dec f.timestamp_us ++ str " us] " ++
    f.message ++ [newline]

end Fields

structure Record extends Fields where
  timestamp_lt : timestamp_us < 2 ^ 63
  flags_nul_free : 0 ∉ flags
  flags_semicolon_free : semicolon ∉ flags
  message_nul_free : 0 ∉ message
  message_newline_free : newline ∉ message
  length_le : toFields.bytes.length ≤ 2047

variable {f : Fields} {buffer : List UInt8}

/-- The numbers are read back. -/
theorem Record.sscanf_eq (r : Record) :
    sscanf_numbers r.header = some (r.level, r.seq, BitVec.ofNat 64 r.timestamp_us) := by
  have hcomma : isdigit comma = false := by decide
  simp only [sscanf_numbers, Fields.header, scan_lu_dec _ hcomma,
    scan_lld_dec r.timestamp_lt hcomma, scan_byte_cons, Option.bind_eq_bind, Option.bind_some]

/-- And are printed as before. -/
theorem Record.line_eq (r : Record) :
    line r.level r.seq (BitVec.ofNat 64 r.timestamp_us) r.message = r.printed := by
  have hlt := r.timestamp_lt
  have hint : (BitVec.ofNat 64 r.timestamp_us).toInt = r.timestamp_us := by
    rw [BitVec.toInt_eq_toNat_of_lt] <;> rw [BitVec.toNat_ofNat, Nat.mod_eq_of_lt] <;> omega
  have hnat : ¬ (r.timestamp_us : Int) < 0 := by omega
  rw [line, hint, decInt, if_neg hnat, Int.natAbs_natCast, Fields.printed]

/-- In front of the flags there are commas and digits only. -/
theorem Fields.not_mem_header {b : UInt8} (hb : b ∉ str "0123456789") (hc : b ≠ comma)
    (hf : b ∉ f.flags) : b ∉ f.header := by
  have hdec : ∀ n, b ∉ dec n := fun n h => hb (dec_subset n h)
  simp [header, hdec, hc, hf]

/-- What the first NUL leaves of the text: all of the prefix and the message. -/
theorem Record.takeWhile_bytes (r : Record) :
    r.bytes.takeWhile (· ≠ 0) =
      r.header ++ semicolon :: (r.message ++ newline :: r.continuation.takeWhile (· ≠ 0)) := by
  have hne : ∀ {t : List UInt8}, 0 ∉ t → ∀ b ∈ t, decide (b ≠ 0) = true :=
    fun ht b hb => decide_eq_true fun h => ht (h ▸ hb)
  have hheader : 0 ∉ r.header := Fields.not_mem_header (by decide) (by decide) r.flags_nul_free
  have hsemicolon : decide (semicolon ≠ 0) = true := by decide
  have hnewline : decide (newline ≠ 0) = true := by decide
  rw [Fields.bytes, List.takeWhile_append_of_pos (hne hheader), List.takeWhile_cons,
    if_pos hsemicolon, List.takeWhile_append_of_pos (hne r.message_nul_free), List.takeWhile_cons,
    if_pos hnewline]

/-- The prefix is scanned, and the message ends at its newline. -/
theorem Record.print_eq (r : Record) {msg : Nat} {rest : List UInt8}
    (hfront : Holds buffer 0 r.header)
    (hrest : Holds buffer msg (r.message ++ newline :: rest)) :
    print_message buffer msg = some (buffer.set (msg + r.message.length) 0, r.printed) := by
  obtain ⟨hset, htext, -⟩ := hrest.cut
  simp only [print_message, hfront.string_eq, r.sscanf_eq, hrest.strchr_eq r.message_newline_free,
    hset, htext.string_eq, Option.bind_eq_bind, Option.bind_some, r.line_eq]

/-- **A record is printed** as it was written, whatever is in the buffer. -/
theorem Record.read_eq (r : Record) (hbuffer : buffer.length = 2048) :
    ∃ buffer', buffer'.length = 2048 ∧ read_record buffer r.bytes = some (buffer', r.printed) := by
  have hlen := r.length_le
  have hlt : r.bytes.length < buffer.length := by omega
  have hholds := Holds.mk_takeWhile r.bytes (buffer.drop (r.bytes.length + 1))
  rw [r.takeWhile_bytes] at hholds
  have hsemicolon : semicolon ∉ r.header :=
    Fields.not_mem_header (by decide) (by decide) r.flags_semicolon_free
  obtain ⟨hset, hfront, hrest⟩ := hholds.cut
  have hread : read_record buffer r.bytes =
      some (((r.bytes ++ 0 :: buffer.drop (r.bytes.length + 1)).set (0 + r.header.length) 0).set
        (0 + r.header.length + 1 + r.message.length) 0, r.printed) := by
    simp only [read_record, store_append hlt, hholds.strchr_eq hsemicolon, hset,
      r.print_eq hfront hrest, Option.bind_eq_bind, Option.bind_some]
  refine ⟨_, ?_, hread⟩
  rw [List.length_set, List.length_set, List.length_append, List.length_cons, List.length_drop]
  omega

theorem Record.read_all (rs : List Record) : ∀ {buffer : List UInt8}, buffer.length = 2048 →
    read_records buffer (rs.map (·.bytes)) = some (rs.map (·.printed)).flatten := by
  induction rs with
  | nil =>
    intro buffer _
    rfl
  | cons r rs ih =>
    intro buffer hbuffer
    obtain ⟨buffer', hbuffer', hread⟩ := r.read_eq hbuffer
    simp only [List.map_cons, read_records, hread, ih hbuffer', Option.bind_eq_bind,
      Option.bind_some, List.flatten_cons]

/-- **Parsing undoes formatting**: of every record the program prints the level, the sequence
number, the timestamp and the message, and nothing else. -/
theorem read_from_kmsg_eq (buffer : Vector UInt8 2048) (rs : List Record) :
    read_from_kmsg buffer (rs.map (·.bytes)) = some (banner ++ (rs.map (·.printed)).flatten) := by
  rw [read_from_kmsg, Record.read_all rs buffer.length_toList, Option.map_some]

end LinuxKernelProg.Interfaces.Printlog
