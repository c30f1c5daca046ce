import Mathlib.Data.BitVec
import Mathlib.Data.List.Basic
import Mathlib.Logic.Function.Basic

/-!
# The kernel's queue

A `kfifo` of `2 ^ k` elements: two indices that run freely in 32 bits, and a buffer that they are
cut to. What is in the queue is `contents`; the operations are those that `kfifo_put` and
`kfifo_get` are made of, one access to the queue each.
-/

namespace LinuxKernelProg.Lib

/-- `struct __kfifo`, and the buffer. -/
structure Kfifo (α : Type) (k : Nat) where
  in_ : BitVec 32
  out : BitVec 32
  buf : Nat → α

namespace Kfifo

variable {α : Type} {k : Nat}

def mask (k : Nat) : BitVec 32 := BitVec.ofNat 32 (2 ^ k - 1)

/-- The place of an index in the buffer. -/
def slot (k : Nat) (i : BitVec 32) : Nat := (i &&& mask k).toNat

/-- `kfifo_len` -/
def len (f : Kfifo α k) : BitVec 32 := f.in_ - f.out

def is_full (f : Kfifo α k) : Bool := mask k < f.len

def is_empty (f : Kfifo α k) : Bool := f.in_ = f.out

/-- `kfifo_put` stores the element. -/
def store (f : Kfifo α k) (x : α) : Kfifo α k :=
  { f with buf := Function.update f.buf (slot k f.in_) x }

/-- `kfifo_put` moves on: `in++`. -/
def advance_in (f : Kfifo α k) : Kfifo α k := { f with in_ := f.in_ + 1 }

/-- `kfifo_get` loads the element. -/
def load (f : Kfifo α k) : α := f.buf (slot k f.out)

/-- `kfifo_get` moves on: `out++`. -/
def advance_out (f : Kfifo α k) : Kfifo α k := { f with out := f.out + 1 }

/-- `kfifo_reset` -/
def reset (f : Kfifo α k) : Kfifo α k := { f with in_ := 0, out := 0 }

/-- The elements between `out` and `in`. -/
def contents (f : Kfifo α k) : List α :=
  (List.range f.len.toNat).map fun j => f.buf (slot k (f.out + BitVec.ofNat 32 j))

/-! ## The indices -/

theorem slot_eq (hk : k ≤ 32) (i : BitVec 32) : slot k i = i.toNat % 2 ^ k := by
  have hpow : 2 ^ k ≤ 2 ^ 32 := Nat.pow_le_pow_right (by decide) hk
  have hpos : 0 < 2 ^ k := Nat.two_pow_pos k
  rw [slot, mask, BitVec.toNat_and, BitVec.toNat_ofNat, Nat.mod_eq_of_lt (by omega),
    Nat.and_two_pow_sub_one_eq_mod]

/-- Two indices that are less than the size apart have different places. -/
theorem slot_ne (hk : k ≤ 32) {i : BitVec 32} {d : Nat} (hpos : 0 < d) (hd : d < 2 ^ k) :
    slot k (i + BitVec.ofNat 32 d) ≠ slot k i := by
  intro h
  have hdvd : 2 ^ k ∣ 2 ^ 32 := Nat.pow_dvd_pow 2 hk
  have hmod : (i.toNat + d) % 2 ^ k = (i.toNat + 0) % 2 ^ k := by
    rw [slot_eq hk, slot_eq hk, BitVec.toNat_add, BitVec.toNat_ofNat, Nat.add_mod_mod,
      Nat.mod_mod_of_dvd _ hdvd] at h
    exact h
  have hzero : d % 2 ^ k = 0 % 2 ^ k := Nat.ModEq.add_left_cancel' i.toNat hmod
  rw [Nat.mod_eq_of_lt hd, Nat.zero_mod] at hzero
  omega

theorem toNat_add_one {n : BitVec 32} (h : n.toNat + 1 < 2 ^ 32) : (n + 1).toNat = n.toNat + 1 := by
  rw [BitVec.toNat_add]
  exact Nat.mod_eq_of_lt h

variable {f : Kfifo α k} {x : α}

@[simp] theorem length_contents : f.contents.length = f.len.toNat := by
  rw [contents, List.length_map, List.length_range]

theorem is_empty_iff : f.is_empty = true ↔ f.len.toNat = 0 := by
  have hzero : f.len.toNat = 0 ↔ f.in_ - f.out = 0 :=
    ⟨fun h => BitVec.eq_of_toNat_eq (h.trans BitVec.toNat_zero.symm), fun h => by rw [len, h]; rfl⟩
  rw [is_empty, decide_eq_true_iff, hzero]
  exact ⟨fun h => by rw [h, BitVec.sub_self]; rfl,
    fun h => by rw [← BitVec.sub_add_cancel f.in_ f.out, h]; simp⟩

theorem is_full_eq_false (hk : k ≤ 31) : f.is_full = false ↔ f.len.toNat < 2 ^ k := by
  have hpow : 2 ^ k ≤ 2 ^ 31 := Nat.pow_le_pow_right (by decide) hk
  have hpos : 0 < 2 ^ k := Nat.two_pow_pos k
  rw [is_full, decide_eq_false_iff_not, BitVec.lt_def, mask, BitVec.toNat_ofNat,
    Nat.mod_eq_of_lt (by omega)]
  omega

theorem in_eq : f.in_ = f.out + BitVec.ofNat 32 f.len.toNat := by
  rw [BitVec.ofNat_toNat, BitVec.setWidth_eq, len, BitVec.add_comm, BitVec.sub_add_cancel]

/-! ## The operations -/

/-- The element at `in` is behind all that is in the queue. -/
theorem contents_store (hk : k ≤ 32) (hroom : f.len.toNat < 2 ^ k) :
    (f.store x).contents = f.contents := by
  apply List.map_congr_left
  intro j hj
  have hj : j < f.len.toNat := List.mem_range.1 hj
  have hin : f.in_ = f.out + BitVec.ofNat 32 j + BitVec.ofNat 32 (f.len.toNat - j) := by
    rw [BitVec.add_assoc, ← BitVec.ofNat_add, Nat.add_sub_cancel' (Nat.le_of_lt hj)]
    exact in_eq
  have hne := slot_ne hk (i := f.out + BitVec.ofNat 32 j) (d := f.len.toNat - j)
    (by omega) (by omega)
  rw [← hin] at hne
  exact Function.update_of_ne hne.symm x f.buf

theorem store_in : (f.store x).buf (slot k f.in_) = x := by
  simp [store]

theorem len_advance_in (h : f.len.toNat + 1 < 2 ^ 32) :
    f.advance_in.len.toNat = f.len.toNat + 1 := by
  have hlen : f.advance_in.len = f.len + 1 := by
    change f.in_ + 1 - f.out = f.in_ - f.out + 1
    rw [BitVec.sub_eq_add_neg, BitVec.sub_eq_add_neg, BitVec.add_assoc,
      BitVec.add_comm 1, BitVec.add_assoc]
  rw [hlen, toNat_add_one h]

/-- What was stored is in the queue from the advance on. -/
theorem contents_advance_in (h : f.len.toNat + 1 < 2 ^ 32) :
    f.advance_in.contents = f.contents ++ [f.buf (slot k f.in_)] := by
  rw [contents, len_advance_in h, List.range_succ, List.map_append, List.map_singleton]
  have hin : f.advance_in.out + BitVec.ofNat 32 f.len.toNat = f.in_ := (in_eq (f := f)).symm
  rw [hin]
  rfl

theorem len_advance_out (hpos : 0 < f.len.toNat) : f.advance_out.len.toNat + 1 = f.len.toNat := by
  have hlen : f.len = f.advance_out.len + 1 := by
    change f.in_ - f.out = f.in_ - (f.out + 1) + 1
    rw [← sub_sub, BitVec.sub_add_cancel]
  have hlt := f.len.isLt
  have hlt' := f.advance_out.len.isLt
  rw [hlen, BitVec.toNat_add] at hpos ⊢
  have hone : (1 : BitVec 32).toNat = 1 := rfl
  rw [hone] at hpos ⊢
  by_cases hwrap : f.advance_out.len.toNat + 1 < 2 ^ 32
  · exact (Nat.mod_eq_of_lt hwrap).symm
  · have heq : f.advance_out.len.toNat + 1 = 2 ^ 32 := by omega
    rw [heq] at hpos
    exact absurd hpos (Nat.lt_irrefl 0)

/-- What was loaded is out of the queue from the advance on. -/
theorem contents_advance_out (hpos : 0 < f.len.toNat) :
    f.contents = f.load :: f.advance_out.contents := by
  rw [contents, ← len_advance_out hpos, List.range_succ_eq_map, List.map_cons, List.map_map]
  have hout : f.out + BitVec.ofNat 32 0 = f.out := BitVec.add_zero f.out
  rw [hout]
  refine congrArg (f.load :: ·) (List.map_congr_left fun j _ => ?_)
  change f.buf (slot k (f.out + BitVec.ofNat 32 (j + 1))) =
    f.buf (slot k (f.out + 1 + BitVec.ofNat 32 j))
  rw [Nat.add_comm, BitVec.ofNat_add, ← BitVec.add_assoc]
  rfl

@[simp] theorem contents_reset : f.reset.contents = [] := by
  simp [contents, reset, len]

/-! ## One put and one get at a time -/

/-- The queue when the put and the get that are under way have moved on. -/
def ahead (f : Kfifo α k) (put get : Bool) : Kfifo α k :=
  { f with in_ := if put then f.in_ + 1 else f.in_, out := if get then f.out + 1 else f.out }

/-- One put at most is between its two stores, one get at most between its load and its store, and
the elements are passed on in their order: `puts` and `gets` are those of the calls that are
over. -/
structure Turns (f : Kfifo α k) (put get : Option α) (puts gets : List α) : Prop where
  log : puts ++ put.toList = gets ++ (get.toList ++ (f.ahead put.isSome get.isSome).contents)
  room : (f.ahead put.isSome get.isSome).len.toNat ≤ 2 ^ k
  le : gets.length ≤ puts.length

namespace Turns

variable {put get : Option α} {puts gets : List α} {y : α}

theorem init (f : Kfifo α k) (h : f.in_ = f.out) : f.Turns none none [] [] := by
  have hlen : f.len.toNat = 0 := is_empty_iff.1 (decide_eq_true h)
  refine ⟨(List.length_eq_zero_iff.1 (length_contents.trans hlen)).symm, ?_, Nat.le_refl 0⟩
  exact (Nat.le_of_eq hlen).trans (Nat.zero_le _)

theorem store (hk : k ≤ 31) (h : f.Turns none get puts gets)
    (hroom : (f.ahead false get.isSome).is_full = false) :
    (f.store x).Turns (some x) get puts gets := by
  have hlt := (is_full_eq_false hk).1 hroom
  have hpow : 2 ^ k ≤ 2 ^ 31 := Nat.pow_le_pow_right (by decide) hk
  have hnext : ((f.ahead false get.isSome).store x).len.toNat + 1 < 2 ^ 32 := by
    change (f.ahead false get.isSome).len.toNat + 1 < 2 ^ 32
    omega
  have hahead : (f.store x).ahead true get.isSome =
      ((f.ahead false get.isSome).store x).advance_in := rfl
  refine ⟨?_, ?_, h.le⟩
  · have hlog := h.log
    rw [Option.toList_none, List.append_nil, Option.isSome_none] at hlog
    have hin : ((f.ahead false get.isSome).store x).buf
        (slot k ((f.ahead false get.isSome).store x).in_) = x := store_in
    rw [Option.isSome_some, hahead, contents_advance_in hnext, contents_store (by omega) hlt, hin,
      hlog, Option.toList_some, List.append_assoc, List.append_assoc]
  · rw [Option.isSome_some, hahead, len_advance_in hnext]
    exact hlt

theorem advance_in (h : f.Turns (some x) get puts gets) :
    f.advance_in.Turns none get (puts ++ [x]) gets where
  log := by
    rw [Option.toList_none, List.append_nil]
    exact h.log
  room := h.room
  le := h.le.trans (by rw [List.length_append]; exact Nat.le_add_right _ _)

theorem load (h : f.Turns put none puts gets) (hne : (f.ahead put.isSome false).is_empty = false) :
    f.Turns put (some f.load) puts gets := by
  have hpos : 0 < (f.ahead put.isSome false).len.toNat :=
    Nat.pos_of_ne_zero fun e => by rw [is_empty_iff.2 e] at hne; cases hne
  have hahead : f.ahead put.isSome true = (f.ahead put.isSome false).advance_out := rfl
  refine ⟨?_, ?_, h.le⟩
  · rw [h.log, Option.isSome_some, hahead, Option.isSome_none, contents_advance_out hpos]
    rfl
  · have hroom := h.room
    have hlen := len_advance_out hpos
    rw [Option.isSome_none] at hroom
    rw [Option.isSome_some, hahead]
    omega

theorem advance_out (h : f.Turns put (some y) puts gets) (hne : f.is_empty = false) :
    f.advance_out.Turns put none puts (gets ++ [y]) where
  log := by
    rw [List.append_assoc]
    exact h.log
  room := h.room
  le := by
    have hlog := congrArg List.length h.log
    simp only [List.length_append, length_contents, Option.toList_some, List.length_singleton,
      Option.isSome_some] at hlog ⊢
    cases put with
    | none =>
      rw [Option.toList_none, List.length_nil] at hlog
      omega
    | some x =>
      have hlen : (f.ahead true true).len = f.len := by
        change f.in_ + 1 - (f.out + 1) = f.in_ - f.out
        exact add_sub_add_right_eq_sub f.in_ f.out 1
      have hpos : f.len.toNat ≠ 0 := fun e => by rw [is_empty_iff.2 e] at hne; cases hne
      rw [Option.isSome_some, hlen, Option.toList_some, List.length_singleton] at hlog
      omega

/-- What was got was put, in the same order and once. -/
theorem isPrefix (h : f.Turns put get puts gets) : gets <+: puts := by
  refine List.prefix_of_prefix_length_le ?_ (List.prefix_append puts put.toList) h.le
  rw [h.log]
  exact List.prefix_append gets _

/-- **At rest** what was put was got or is in the queue. -/
theorem at_rest (h : f.Turns none none puts gets) : puts = gets ++ f.contents := by
  have hlog := h.log
  rwa [Option.toList_none, List.append_nil] at hlog

end Turns

end Kfifo

end LinuxKernelProg.Lib
