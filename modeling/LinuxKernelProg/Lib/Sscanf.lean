import LinuxKernelProg.Lib.Scan
import LinuxKernelProg.Lib.Text

/-!
# Scanning a number in a program

`sscanf` of the C library: white space is skipped, a sign is taken, and what the digits behind it
say is converted as by `strtoul` and `strtoll`, which give the largest value for what is too large.
What a number prints is read as that number (`integer_dec`).
-/

namespace LinuxKernelProg.Lib.Sscanf

/-- `isspace` in the C locale. -/
def white (c : UInt8) : Bool := (9 ≤ c && c ≤ 13) || c = 32

/-- An optional sign, and the text behind it. -/
def sign (text : List UInt8) : Bool × List UInt8 :=
  if text.head? = some 45 then (true, text.tail)
  else if text.head? = some 43 then (false, text.tail)
  else (false, text)

/-- Whether there is a minus sign, the value of the digits, and the text behind them. -/
def integer (text : List UInt8) : Option (Bool × Nat × List UInt8) :=
  let (negative, text) := sign (text.dropWhile white)
  if digitsOf text = [] then none else some (negative, decimal text, text.dropWhile isdigit)

def ULONG_MAX : BitVec 64 := 0xffffffffffffffff
def LLONG_MAX : BitVec 64 := 0x7fffffffffffffff
def LLONG_MIN : BitVec 64 := 0x8000000000000000

def strtoul (negative : Bool) (n : Nat) : BitVec 64 :=
  if ULONG_MAX.toNat < n then ULONG_MAX
  else if negative then -BitVec.ofNat 64 n
  else BitVec.ofNat 64 n

def strtoll (negative : Bool) (n : Nat) : BitVec 64 :=
  if negative then if LLONG_MIN.toNat < n then LLONG_MIN else -BitVec.ofNat 64 n
  else if LLONG_MAX.toNat < n then LLONG_MAX
  else BitVec.ofNat 64 n

/-- `%lu` -/
def scan_lu (text : List UInt8) : Option (BitVec 64 × List UInt8) :=
  (integer text).map fun (negative, n, rest) => (strtoul negative n, rest)

/-- `%lld` -/
def scan_lld (text : List UInt8) : Option (BitVec 64 × List UInt8) :=
  (integer text).map fun (negative, n, rest) => (strtoll negative n, rest)

/-- A byte of the format that is not white. -/
def scan_byte (c : UInt8) (text : List UInt8) : Option (List UInt8) :=
  if text.head? = some c then some text.tail else none

/-! ## Printed numbers -/

theorem isdigit_dec (n : Nat) : ∀ b ∈ dec n, isdigit b = true :=
  digits_all (p := (isdigit · = true)) (by decide) (by decide)

theorem takeWhile_dec (n : Nat) {c : UInt8} (hc : isdigit c = false) (rest : List UInt8) :
    (dec n ++ c :: rest).takeWhile isdigit = dec n := by
  rw [List.takeWhile_append_of_pos (isdigit_dec n),
    List.takeWhile_cons_of_neg (by rw [hc]; exact Bool.false_ne_true), List.append_nil]

theorem dropWhile_dec (n : Nat) {c : UInt8} (hc : isdigit c = false) (rest : List UInt8) :
    (dec n ++ c :: rest).dropWhile isdigit = c :: rest := by
  rw [List.dropWhile_append_of_pos (isdigit_dec n),
    List.dropWhile_cons_of_neg (by rw [hc]; exact Bool.false_ne_true)]

/-- The values of the digits, the last one first. -/
theorem digitsOf_dec (n : Nat) {c : UInt8} (hc : isdigit c = false) (rest : List UInt8) :
    digitsOf (dec n ++ c :: rest) = if n = 0 then [0] else (Nat.digits 10 n).reverse := by
  have hdigit : ∀ d < 10, (digit d).toNat - 48 = d := by decide
  rw [digitsOf, takeWhile_dec n hc, dec, digits]
  split
  · rfl
  · rw [List.map_map]
    refine (List.map_congr_left fun d hd => ?_).trans (List.map_id _)
    exact hdigit d (Nat.digits_lt_base (by decide) (List.mem_reverse.1 hd))

theorem decimal_dec (n : Nat) {c : UInt8} (hc : isdigit c = false) (rest : List UInt8) :
    decimal (dec n ++ c :: rest) = n := by
  rw [decimal, digitsOf_dec n hc]
  split
  · rename_i hn
    rw [hn]
    rfl
  · rw [List.foldl_reverse]
    have hfold := Nat.ofDigits_eq_foldr 10 (Nat.digits 10 n)
    rw [Nat.ofDigits_digits] at hfold
    refine Eq.trans ?_ hfold.symm
    congr 1
    funext d v
    rw [Nat.add_comm, Nat.mul_comm]
    rfl

theorem dec_ne_nil (n : Nat) : dec n ≠ [] := by
  unfold dec digits
  split
  · exact List.cons_ne_nil _ _
  · rename_i hn
    exact mt List.map_eq_nil_iff.1
      (mt List.reverse_eq_nil_iff.1 (Nat.digits_ne_nil_iff_ne_zero.2 hn))

/-- A digit is neither white nor a sign. -/
theorem plain_of_isdigit {b : UInt8} (hb : isdigit b = true) :
    white b = false ∧ b ≠ 45 ∧ b ≠ 43 := by
  simp only [isdigit, white, Bool.and_eq_true, Bool.or_eq_false_iff, Bool.and_eq_false_iff,
    decide_eq_true_eq, decide_eq_false_iff_not, UInt8.le_iff_toNat_le, ne_eq,
    ← UInt8.toNat_inj] at hb ⊢
  have h48 : UInt8.toNat 48 = 48 := rfl
  have h13 : UInt8.toNat 13 = 13 := rfl
  have h32 : UInt8.toNat 32 = 32 := rfl
  have h45 : UInt8.toNat 45 = 45 := rfl
  have h43 : UInt8.toNat 43 = 43 := rfl
  omega

theorem dec_eq_cons (n : Nat) : ∃ b t, dec n = b :: t ∧ isdigit b = true := by
  obtain ⟨b, t, hdec⟩ := List.exists_cons_of_ne_nil (dec_ne_nil n)
  exact ⟨b, t, hdec, isdigit_dec n b (hdec ▸ List.mem_cons_self)⟩

theorem dropWhile_white_dec (n : Nat) (rest : List UInt8) :
    (dec n ++ rest).dropWhile white = dec n ++ rest := by
  obtain ⟨b, t, hdec, hb⟩ := dec_eq_cons n
  have hwhite := (plain_of_isdigit hb).1
  rw [hdec, List.cons_append, List.dropWhile_cons_of_neg (by rw [hwhite]; exact Bool.false_ne_true)]

theorem sign_dec (n : Nat) (rest : List UInt8) :
    sign ((dec n ++ rest).dropWhile white) = (false, dec n ++ rest) := by
  obtain ⟨b, t, hdec, hb⟩ := dec_eq_cons n
  obtain ⟨-, hminus, hplus⟩ := plain_of_isdigit hb
  rw [dropWhile_white_dec, hdec]
  simp [sign, hminus, hplus]

/-- A number in a field that is filled with blanks on its left. -/
theorem decimal_padLeft (n : Nat) {c : UInt8} (hc : isdigit c = false) {width : Nat}
    (rest : List UInt8) :
    decimal ((padLeft 32 width (dec n) ++ c :: rest).dropWhile white) = n := by
  have hblank : ∀ b ∈ List.replicate (width - (dec n).length) (32 : UInt8), white b = true := by
    intro b hb
    rw [List.eq_of_mem_replicate hb]
    rfl
  rw [padLeft, List.append_assoc, List.dropWhile_append_of_pos hblank, dropWhile_white_dec,
    decimal_dec n hc]

/-- **A printed number is read.** -/
theorem integer_dec (n : Nat) {c : UInt8} (hc : isdigit c = false) (rest : List UInt8) :
    integer (dec n ++ c :: rest) = some (false, n, c :: rest) := by
  have hsome : digitsOf (dec n ++ c :: rest) ≠ [] := by
    rw [digitsOf, takeWhile_dec n hc]
    exact mt List.map_eq_nil_iff.1 (dec_ne_nil n)
  simp only [integer, sign_dec, if_neg hsome, decimal_dec n hc, dropWhile_dec n hc]

theorem scan_lu_dec (x : BitVec 64) {c : UInt8} (hc : isdigit c = false) (rest : List UInt8) :
    scan_lu (dec x.toNat ++ c :: rest) = some (x, c :: rest) := by
  have hmax : ULONG_MAX.toNat = 2 ^ 64 - 1 := rfl
  have hx : ¬ ULONG_MAX.toNat < x.toNat := by omega
  simp only [scan_lu, integer_dec _ hc, Option.map_some, strtoul, if_neg hx, Bool.false_eq_true,
    if_false, BitVec.ofNat_toNat, BitVec.setWidth_eq]

theorem scan_lld_dec {n : Nat} (hn : n < 2 ^ 63) {c : UInt8} (hc : isdigit c = false)
    (rest : List UInt8) :
    scan_lld (dec n ++ c :: rest) = some (BitVec.ofNat 64 n, c :: rest) := by
  have hmax : LLONG_MAX.toNat = 2 ^ 63 - 1 := rfl
  have hx : ¬ LLONG_MAX.toNat < n := by omega
  simp only [scan_lld, integer_dec _ hc, Option.map_some, strtoll, if_neg hx, Bool.false_eq_true,
    if_false]

theorem scan_byte_cons (c : UInt8) (text : List UInt8) : scan_byte c (c :: text) = some text :=
  if_pos rfl

end LinuxKernelProg.Lib.Sscanf
