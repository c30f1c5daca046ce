import Mathlib.Data.BitVec

/-!
# Scanning a number

`sscanf` of the kernel with `%d`: white space is skipped, a minus sign is taken, and the digits
behind it are read modulo `2 ^ 64`. The low 32 bits of the result are stored. `number` is the number
that is written there; what is stored is that number modulo `2 ^ 32` (`sscanf_d_eq`).
-/

namespace LinuxKernelProg.Lib

/-- `isspace` of the kernel, for which the no-break space of Latin-1 is white as well. -/
def isspace (c : UInt8) : Bool := (9 ≤ c && c ≤ 13) || c = 32 || c = 160

def isdigit (c : UInt8) : Bool := 48 ≤ c && c ≤ 57

/-- The text up to the first NUL. -/
def cstring (mem : List UInt8) : List UInt8 := mem.takeWhile (· ≠ 0)

/-- An optional minus sign, and the text behind it. -/
def sign (text : List UInt8) : Bool × List UInt8 :=
  if text.head? = some 45 then (true, text.tail) else (false, text)

/-- The digits that the text starts with. -/
def digitsOf (text : List UInt8) : List Nat := (text.takeWhile isdigit).map fun c => c.toNat - 48

def simple_strtoull (text : List UInt8) : BitVec 64 :=
  (digitsOf text).foldl (fun n d => n * 10 + BitVec.ofNat 64 d) 0

/-- `sscanf(text, "%d", &value)`: the value, if one is stored. -/
def sscanf_d (text : List UInt8) : Option (BitVec 32) :=
  let (negative, digits) := sign (text.dropWhile isspace)
  if digitsOf digits = [] then none
  else
    let n := simple_strtoull digits
    some ((if negative then -n else n).setWidth 32)

/-- The value of decimal digits. -/
def decimal (text : List UInt8) : Nat := (digitsOf text).foldl (fun n d => n * 10 + d) 0

/-- The number that the text starts with, behind optional white space and an optional minus sign. -/
def number (text : List UInt8) : Option Int :=
  let (negative, digits) := sign (text.dropWhile isspace)
  if digitsOf digits = [] then none
  else some (if negative then -(decimal digits : Int) else decimal digits)

theorem simple_strtoull_eq (text : List UInt8) :
    simple_strtoull text = BitVec.ofNat 64 (decimal text) := by
  have hom : ∀ n d, BitVec.ofNat 64 n * 10 + BitVec.ofNat 64 d = BitVec.ofNat 64 (n * 10 + d) := by
    intro n d
    rw [BitVec.ofNat_add, BitVec.ofNat_mul]
    rfl
  exact List.foldl_hom (BitVec.ofNat 64) hom

theorem sscanf_d_eq (text : List UInt8) : sscanf_d text = (number text).map (BitVec.ofInt 32) := by
  have low (n : Nat) : (BitVec.ofNat 64 n).setWidth 32 = BitVec.ofInt 32 n := by
    rw [BitVec.setWidth_ofNat_of_le (by decide), BitVec.ofInt_natCast]
  simp only [sscanf_d, number, simple_strtoull_eq]
  split
  · rfl
  · rw [Option.map_some]
    congr 1
    split
    · rw [BitVec.setWidth_neg_of_le (by decide), low, BitVec.ofInt_neg]
    · exact low _

/-- Which numbers are stored as the same value. -/
theorem ofInt_eq_ofInt_iff (y z : Int) :
    BitVec.ofInt 32 z = BitVec.ofInt 32 y ↔ 2 ^ 32 ∣ z - y := by
  rw [← BitVec.toNat_inj, BitVec.toNat_ofInt, BitVec.toNat_ofInt]
  have hpow : ((2 ^ 32 : Nat) : Int) = 2 ^ 32 := rfl
  rw [hpow]
  omega

/-- A NUL behind the text ends it. -/
theorem cstring_append_nul (text : List UInt8) : cstring (text ++ [0]) = cstring text := by
  induction text with
  | nil => rfl
  | cons b t ih =>
    simp only [cstring, List.cons_append, List.takeWhile_cons] at ih ⊢
    split
    · rw [ih]
    · rfl

end LinuxKernelProg.Lib
