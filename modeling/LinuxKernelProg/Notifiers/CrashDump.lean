import LinuxKernelProg.Lib.History
import LinuxKernelProg.Lib.Vsnprintf

/-!
# The crash dump

`panic_notifier.c`: at a panic the handler clears a buffer of 4096 bytes and appends formatted lines
to it. The offset of the next line is advanced by what `vsnprintf` returns, the length the line has
before it is cut.

The guard of `crash_dump_append` is enough for every line to stay inside the buffer, and what is in
the buffer is the text of all the lines as far as it fits (`dump_sound`). The offset is the length
of that text as long as no line has been cut (`sized_iff`).
-/

namespace LinuxKernelProg.Notifiers

open LinuxKernelProg.Lib

/-! ## The program -/

def CRASH_DUMP_SIZE : Nat := 4096

/-- `crash_dump_buffer`, with the memory around it, and `crash_dump_offset`. -/
structure Dump where
  mem : Memory
  crash_dump_offset : BitVec 64

/-- What a format and its arguments come to; `vsnprintf` returns its length as an `int`. -/
structure Line extends CString where
  short : bytes.length < 2 ^ 31

/-- The destination and the size that `crash_dump_append` passes to `vsnprintf`; `none` if it
returns before that. -/
def Dump.args (d : Dump) : Option (BitVec 64 × BitVec 64) :=
  if CRASH_DUMP_SIZE - 1 ≤ d.crash_dump_offset.toNat then none
  else some (d.crash_dump_offset, BitVec.ofNat 64 CRASH_DUMP_SIZE - d.crash_dump_offset)

def crash_dump_append (s : Line) (d : Dump) : Dump :=
  match d.args with
  | none => d
  | some (dst, size) =>
    let len := BitVec.ofNat 32 s.bytes.length
    { mem := vsnprintf d.mem dst size s.toCString
      crash_dump_offset :=
        if 0 < len.toInt then d.crash_dump_offset + len.signExtend 64 else d.crash_dump_offset }

/-- The reset in `panic_event_handler`: the offset, and `memset(crash_dump_buffer, 0, ..)`. -/
def Dump.reset (d : Dump) : Dump where
  mem a := if a.toNat < CRASH_DUMP_SIZE then 0 else d.mem a
  crash_dump_offset := 0

/-- What `show_dump` prints: the text of the dump and its size. -/
structure Shown where
  text : List UInt8
  size : BitVec 64

def show_dump (d : Dump) : Shown where
  text := d.mem.string CRASH_DUMP_SIZE
  size := d.crash_dump_offset

/-- The dump after the reset and a history of lines, the latest one first. -/
def after (d : Dump) (h : List Line) : Dump := h.foldr crash_dump_append d.reset

/-- The text of all the lines. -/
def text : List Line → CString
  | [] => .empty
  | s :: past => (text past).append s.toCString

/-- **What the dump is there for.** The next call of `crash_dump_append` passes the rest of the
buffer to `vsnprintf`, nothing outside the buffer was written, the buffer ends in a NUL, and the
string in it is the text of the lines as far as it fits. -/
structure Sound (d₀ : Dump) (h : List Line) (d : Dump) : Prop where
  args_inside : ∀ dst size, d.args = some (dst, size) →
    dst.toNat < CRASH_DUMP_SIZE ∧ size.toNat = CRASH_DUMP_SIZE - dst.toNat
  outside : ∀ a, CRASH_DUMP_SIZE ≤ a.toNat → d.mem a = d₀.mem a
  terminated : d.mem (BitVec.ofNat 64 (CRASH_DUMP_SIZE - 1)) = 0
  contents : d.mem.string CRASH_DUMP_SIZE = (text h).bytes.take (CRASH_DUMP_SIZE - 1)

/-- The size that is shown is the number of the bytes that are shown. -/
def Sized (s : Shown) : Prop := s.size.toNat = s.text.length

/-- A line that starts in front of the end of the buffer does not go beyond it. -/
def Fits (past : List Line) (s : Line) : Prop :=
  (text past).bytes.length < CRASH_DUMP_SIZE - 1 →
    (text past).bytes.length + s.bytes.length ≤ CRASH_DUMP_SIZE - 1

/-! ## The buffer -/

variable {d₀ d : Dump} {h past : List Line} {s : Line}

theorem after_cons (d : Dump) (s : Line) (past : List Line) :
    after d (s :: past) = crash_dump_append s (after d past) := rfl

theorem length_text_cons (s : Line) (past : List Line) :
    (text (s :: past)).bytes.length = (text past).bytes.length + s.bytes.length :=
      List.length_append

/-- The guard, and the rest of the buffer as a number. -/
theorem args_eq (d : Dump) :
    d.args = if d.crash_dump_offset.toNat < 4095 then
      some (d.crash_dump_offset, BitVec.ofNat 64 (4096 - d.crash_dump_offset.toNat)) else none := by
  unfold Dump.args CRASH_DUMP_SIZE
  by_cases hoff : d.crash_dump_offset.toNat < 4095
  · have hsize : BitVec.ofNat 64 4096 - d.crash_dump_offset =
        BitVec.ofNat 64 (4096 - d.crash_dump_offset.toNat) := by
      rw [← ofNat_sub_ofNat (by omega) (by decide), BitVec.ofNat_toNat, BitVec.setWidth_eq]
    rw [if_neg (by omega), if_pos hoff, hsize]
  · rw [if_pos (by omega), if_neg hoff]

/-- `crash_dump_offset += len` in front of the end of the buffer. -/
theorem offset_add {off : BitVec 64} (hoff : off.toNat < 4095) (s : Line) :
    (if 0 < (BitVec.ofNat 32 s.bytes.length).toInt then
        off + (BitVec.ofNat 32 s.bytes.length).signExtend 64 else off).toNat =
      off.toNat + s.bytes.length := by
  have hshort := s.short
  have hlen : (BitVec.ofNat 32 s.bytes.length).toNat = s.bytes.length := by
    rw [BitVec.toNat_ofNat]
    omega
  have hmsb : (BitVec.ofNat 32 s.bytes.length).msb = false := by
    rw [BitVec.msb_eq_false_iff_two_mul_lt, hlen]
    omega
  have hint : (BitVec.ofNat 32 s.bytes.length).toInt = s.bytes.length := by
    rw [BitVec.toInt_eq_toNat_of_msb hmsb, hlen]
  rw [hint]
  split
  · rw [BitVec.signExtend_eq_setWidth_of_msb_false hmsb, BitVec.toNat_add,
      BitVec.toNat_setWidth, hlen]
    omega
  · omega

theorem append_of_full (hoff : ¬ d.crash_dump_offset.toNat < 4095) (s : Line) :
    crash_dump_append s d = d := by
  rw [crash_dump_append, args_eq, if_neg hoff]

theorem append_of_room (hoff : d.crash_dump_offset.toNat < 4095) (s : Line) :
    (crash_dump_append s d).mem =
        vsnprintf d.mem d.crash_dump_offset (BitVec.ofNat 64 (4096 - d.crash_dump_offset.toNat))
          s.toCString ∧
      (crash_dump_append s d).crash_dump_offset.toNat =
        d.crash_dump_offset.toNat + s.bytes.length := by
  rw [crash_dump_append, args_eq, if_pos hoff]
  exact ⟨rfl, offset_add hoff s⟩

/-- The buffer holds the text of the lines. The offset is the length of the text, until it has come
to the end of the buffer. -/
structure Inv (d₀ d : Dump) (h : List Line) : Prop where
  holds : d.mem.Holds CRASH_DUMP_SIZE (text h)
  outside : ∀ a, CRASH_DUMP_SIZE ≤ a.toNat → d.mem a = d₀.mem a
  offset : d.crash_dump_offset.toNat = (text h).bytes.length ∨
    4095 ≤ d.crash_dump_offset.toNat ∧ 4095 ≤ (text h).bytes.length

theorem inv_reset (d : Dump) : Inv d d.reset [] where
  holds i := by
    have hi : (BitVec.ofNat 64 i).toNat < CRASH_DUMP_SIZE := by
      have := i.isLt
      rw [BitVec.toNat_ofNat, CRASH_DUMP_SIZE] at *
      omega
    exact if_pos hi
  outside a ha := if_neg (Nat.not_lt.2 ha)
  offset := .inl rfl

theorem Inv.append (hd : Inv d₀ d past) (s : Line) :
    Inv d₀ (crash_dump_append s d) (s :: past) := by
  by_cases hoff : d.crash_dump_offset.toNat < 4095
  · obtain ⟨hmem, hnext⟩ := append_of_room hoff s
    have hlen : d.crash_dump_offset.toNat = (text past).bytes.length := by
      rcases hd.offset with h | h
      · exact h
      · omega
    have hdst : d.crash_dump_offset = BitVec.ofNat 64 (text past).bytes.length := by
      rw [← hlen, BitVec.ofNat_toNat, BitVec.setWidth_eq]
    rw [hlen, hdst] at hmem
    constructor
    · rw [hmem]
      apply hd.holds.vsnprintf
      · rw [CRASH_DUMP_SIZE]
        omega
      · decide
    · intro a ha
      rw [hmem, ← hd.outside a ha]
      apply vsnprintf_outside _ _ ha
      · rw [CRASH_DUMP_SIZE]
        omega
      · decide
    · rw [hnext, hlen, length_text_cons]
      exact .inl rfl
  · rw [append_of_full hoff]
    -- the text is as long as the buffer already
    obtain ⟨hoff, hfull⟩ : 4095 ≤ d.crash_dump_offset.toNat ∧ 4095 ≤ (text past).bytes.length := by
      have := hd.offset
      omega
    refine ⟨fun i => ?_, hd.outside, .inr ⟨hoff, ?_⟩⟩
    · have hn : CRASH_DUMP_SIZE - 1 ≤ (text past).bytes.length := hfull
      rw [text, CString.padded_append hn]
      exact hd.holds i
    · rw [length_text_cons]
      omega

theorem inv_after (d : Dump) (h : List Line) : Inv d (after d h) h := by
  induction h with
  | nil => exact inv_reset d
  | cons s past ih => exact ih.append s

theorem Inv.sound (hd : Inv d₀ d h) : Sound d₀ h d where
  args_inside := by
    intro dst size hargs
    rw [args_eq] at hargs
    split at hargs
    · cases hargs
      rw [BitVec.toNat_ofNat, CRASH_DUMP_SIZE]
      omega
    · cases hargs
  outside := hd.outside
  terminated := hd.holds.last_nul
  contents := hd.holds.string_eq

/-- **The panic path stays inside the buffer.** After every sequence of lines, of any lengths, the
dump is sound. -/
theorem dump_sound (d : Dump) (h : List Line) : Sound d h (after d h) := (inv_after d h).sound

/-! ## The size -/

theorem sized_iff_offset (hd : Inv d₀ d h) :
    Sized (show_dump d) ↔ d.crash_dump_offset.toNat = min 4095 (text h).bytes.length := by
  have htext := hd.holds.string_eq
  simp only [Sized, show_dump]
  rw [htext, List.length_take, CRASH_DUMP_SIZE]

theorem sized_cons (d₀ : Dump) (hs : Sized (show_dump (after d₀ past))) (s : Line) :
    Sized (show_dump (after d₀ (s :: past))) ↔ Fits past s := by
  have hd := inv_after d₀ past
  rw [sized_iff_offset hd] at hs
  rw [sized_iff_offset (inv_after d₀ (s :: past)), after_cons, length_text_cons,
    Fits, CRASH_DUMP_SIZE]
  by_cases hoff : (after d₀ past).crash_dump_offset.toNat < 4095
  · rw [(append_of_room hoff s).2]
    omega
  · rw [append_of_full hoff]
    omega

/-- **The size of the dump** is the number of its bytes at every point exactly when no line goes
beyond the end of the buffer. -/
theorem sized_iff (d : Dump) (h : List Line) :
    Always (fun h => Sized (show_dump (after d h))) h ↔ Each Fits h := by
  apply always_iff_each (A := fun _ _ => True)
  · exact (sized_iff_offset (inv_reset d)).2 rfl
  · exact fun _ hs => sized_cons d hs _
  · exact Each.of_forall fun _ _ => trivial

/-- One line of 4096 bytes: 4095 of them are shown, with the size 4096. -/
theorem size_overshoots : ¬ ∀ d h, Always (fun h => Sized (show_dump (after d h))) h := by
  intro hall
  have hnul : 0 ∉ List.replicate 4096 (65 : UInt8) := fun hm =>
    absurd (List.eq_of_mem_replicate hm) (by decide)
  let line : Line := ⟨⟨List.replicate 4096 65, hnul⟩, by rw [List.length_replicate]; decide⟩
  let d : Dump := ⟨fun _ => 0, 0⟩
  have hsized := hall d [line]
  have hfits : Fits [] line := (sized_cons d hsized.2 line).1 hsized.1
  have hlen : line.bytes.length = 4096 := List.length_replicate
  rw [Fits, hlen] at hfits
  exact absurd (hfits (by decide)) (by decide)

end LinuxKernelProg.Notifiers
