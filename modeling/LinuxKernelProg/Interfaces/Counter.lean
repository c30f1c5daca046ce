import LinuxKernelProg.Lib.History
import LinuxKernelProg.Lib.Scan
import LinuxKernelProg.Lib.Text

/-!
# The counter service

`counter_debugfs.c`, `counter_procfs.c` and `counter_sysfs.c`: a write of 1 increments the counter,
a write of 0 resets it, and anything else is refused. `sscanf` stores the low 32 bits of the number,
so some numbers that are far from 0 and 1 are taken for one of them; without these the three modules
count as they should (`counts_iff`). Two of the modules refuse a write that does not fit into a
buffer of 32 bytes, and only there the third differs from them (`interchangeable_iff`).
-/

namespace LinuxKernelProg.Interfaces.Counter

open LinuxKernelProg.Lib

/-! ## The program -/

def EINVAL : Int := 22
def EFAULT : Int := 14

/-- What a process passes to `write`. -/
structure UserBuffer where
  bytes : List UInt8
  /-- All of it can be read. -/
  readable : Bool

def UserBuffer.count (buffer : UserBuffer) : Nat := buffer.bytes.length

def copy_from_user (buffer : UserBuffer) : Option (List UInt8) :=
  if buffer.readable then some buffer.bytes else none

/-- The part that is the same in the three modules: what is returned, and the counter behind it. -/
def store (input : List UInt8) (count : Nat) (counter : BitVec 32) : Int × BitVec 32 :=
  match sscanf_d (cstring input) with
  | none => (-EINVAL, counter)
  | some value =>
    if value = 0 then (count, 0)
    else if value = 1 then (count, counter + 1)
    else (-EINVAL, counter)

/-- The size of `input`. -/
def INPUT_SIZE : Nat := 32

/-- `counter_write`, the same text in two of the modules. -/
def write_file (buffer : UserBuffer) (counter : BitVec 32) : Int × BitVec 32 :=
  if INPUT_SIZE ≤ buffer.count then (-EINVAL, counter)
  else
    match copy_from_user buffer with
    | none => (-EFAULT, counter)
    | some input => store (input ++ [0]) buffer.count counter

def Debugfs.counter_write : UserBuffer → BitVec 32 → Int × BitVec 32 := write_file

def Procfs.counter_write : UserBuffer → BitVec 32 → Int × BitVec 32 := write_file

/-- `buf` is the page of the file system: what was written, and a NUL behind it. -/
def Sysfs.value_store (buf : List UInt8) (count : Nat) (counter : BitVec 32) : Int × BitVec 32 :=
  store buf count counter

inductive Version where
  | debugfs
  | procfs
  | sysfs

/-- A write of 1 to 31 bytes. -/
structure Write where
  bytes : List UInt8
  nonempty : 1 ≤ bytes.length
  short : bytes.length ≤ 31

def Version.write (v : Version) (w : Write) (counter : BitVec 32) : Int × BitVec 32 :=
  match v with
  | .debugfs => Debugfs.counter_write ⟨w.bytes, true⟩ counter
  | .procfs => Procfs.counter_write ⟨w.bytes, true⟩ counter
  | .sysfs => Sysfs.value_store (w.bytes ++ [0]) w.bytes.length counter

/-- The counter since the module was loaded, the latest write first. -/
def Version.counter (v : Version) : List Write → BitVec 32
  | [] => 0
  | w :: past => (v.write w (v.counter past)).2

/-- What the latest write returns. -/
def Version.answer (v : Version) (past : List Write) (w : Write) : Int :=
  (v.write w (v.counter past)).1

/-- The number of a write. -/
def Write.value (w : Write) : Option Int := number (cstring w.bytes)

/-- All the bytes are taken. -/
def Version.Accepted (v : Version) (past : List Write) (w : Write) : Prop :=
  v.answer past w = w.bytes.length

instance (v : Version) (past : List Write) (w : Write) : Decidable (v.Accepted past w) :=
  inferInstanceAs (Decidable (_ = _))

/-- How many times 1 was accepted since 0 was. -/
def Version.ones (v : Version) : List Write → Nat
  | [] => 0
  | w :: past =>
    if v.Accepted past w ∧ w.value = some 0 then 0
    else if v.Accepted past w ∧ w.value = some 1 then v.ones past + 1
    else v.ones past

/-- **What the service is there for.** The counter is the number of the ones, a write is accepted
exactly when its number is 0 or 1, and one that is not accepted returns an error and changes
nothing. -/
structure Correct (v : Version) (h : List Write) : Prop where
  counts : v.counter h = BitVec.ofNat 32 (v.ones h)
  accepted : ∀ w past, h = w :: past → (v.Accepted past w ↔ w.value = some 0 ∨ w.value = some 1)
  refused : ∀ w past, h = w :: past → ¬ v.Accepted past w →
    v.answer past w < 0 ∧ v.counter h = v.counter past

/-- A number that is stored as 0 or 1 is 0 or 1. -/
def Write.InRange (w : Write) : Prop :=
  ∀ z, w.value = some z → (2 ^ 32 ∣ z → z = 0) ∧ (2 ^ 32 ∣ z - 1 → z = 1)

/-! ## One write -/

variable {v : Version} {w : Write} {past h : List Write} {counter : BitVec 32}

theorem store_eq (input : List UInt8) (count : Nat) (counter : BitVec 32) :
    store input count counter =
      match number (cstring input) with
      | none => (-EINVAL, counter)
      | some z =>
        if 2 ^ 32 ∣ z then (count, 0)
        else if 2 ^ 32 ∣ z - 1 then (count, counter + 1)
        else (-EINVAL, counter) := by
  have hzero (z : Int) : BitVec.ofInt 32 z = 0 ↔ 2 ^ 32 ∣ z := by
    simpa using ofInt_eq_ofInt_iff 0 z
  have hone (z : Int) : BitVec.ofInt 32 z = 1 ↔ 2 ^ 32 ∣ z - 1 := ofInt_eq_ofInt_iff 1 z
  rw [store, sscanf_d_eq]
  cases number (cstring input) with
  | none => rfl
  | some z => simp only [Option.map_some, hzero, hone]

/-- The three modules take a short write in the same way. -/
theorem write_eq_store (v : Version) (w : Write) (counter : BitVec 32) :
    v.write w counter = store (w.bytes ++ [0]) w.bytes.length counter := by
  have hshort : ¬ INPUT_SIZE ≤ w.bytes.length := Nat.not_le_of_lt (Nat.lt_succ_of_le w.short)
  have hfile : write_file ⟨w.bytes, true⟩ counter =
      store (w.bytes ++ [0]) w.bytes.length counter := by
    rw [write_file, UserBuffer.count, if_neg hshort]
    rfl
  cases v with
  | debugfs => exact hfile
  | procfs => exact hfile
  | sysfs => rfl

/-- They differ in a longer one: only `value_store` looks at it. -/
theorem write_long {buffer : UserBuffer} (hlong : INPUT_SIZE ≤ buffer.count) (counter : BitVec 32) :
    Debugfs.counter_write buffer counter = (-EINVAL, counter) ∧
      Procfs.counter_write buffer counter = (-EINVAL, counter) ∧
      Sysfs.value_store buffer.bytes buffer.count counter =
        store buffer.bytes buffer.count counter :=
  ⟨if_pos hlong, if_pos hlong, rfl⟩

theorem write_eq (v : Version) (w : Write) (counter : BitVec 32) :
    v.write w counter =
      match w.value with
      | none => (-EINVAL, counter)
      | some z =>
        if 2 ^ 32 ∣ z then ((w.bytes.length : Int), 0)
        else if 2 ^ 32 ∣ z - 1 then ((w.bytes.length : Int), counter + 1)
        else (-EINVAL, counter) := by
  rw [write_eq_store, store_eq, cstring_append_nul]
  rfl

/-- What a write does: it is a zero, it is a one, or it is refused. -/
theorem write_cases (v : Version) (w : Write) (counter : BitVec 32) :
    (∃ z, w.value = some z ∧ 2 ^ 32 ∣ z ∧ v.write w counter = ((w.bytes.length : Int), 0)) ∨
    (∃ z, w.value = some z ∧ 2 ^ 32 ∣ z - 1 ∧
      v.write w counter = ((w.bytes.length : Int), counter + 1)) ∨
    (∀ z, w.value = some z → ¬ 2 ^ 32 ∣ z ∧ ¬ 2 ^ 32 ∣ z - 1) ∧
      v.write w counter = (-EINVAL, counter) := by
  rw [write_eq]
  cases hvalue : w.value with
  | none => exact .inr (.inr ⟨nofun, rfl⟩)
  | some z =>
    by_cases hzero : 2 ^ 32 ∣ z
    · exact .inl ⟨z, rfl, hzero, if_pos hzero⟩
    · by_cases hone : 2 ^ 32 ∣ z - 1
      · exact .inr (.inl ⟨z, rfl, hone, (if_neg hzero).trans (if_pos hone)⟩)
      · refine .inr (.inr ⟨?_, (if_neg hzero).trans (if_neg hone)⟩)
        intro z' hz'
        cases hz'
        exact ⟨hzero, hone⟩

theorem accepted_iff :
    v.Accepted past w ↔ ∃ z, w.value = some z ∧ (2 ^ 32 ∣ z ∨ 2 ^ 32 ∣ z - 1) := by
  unfold Version.Accepted Version.answer
  rcases write_cases v w (v.counter past) with
      ⟨z, hz, hzero, hwrite⟩ | ⟨z, hz, hone, hwrite⟩ | ⟨hno, hwrite⟩
  · rw [hwrite]
    exact iff_of_true rfl ⟨z, hz, .inl hzero⟩
  · rw [hwrite]
    exact iff_of_true rfl ⟨z, hz, .inr hone⟩
  · rw [hwrite]
    apply iff_of_false
    · rw [EINVAL]
      omega
    · rintro ⟨z, hz, h | h⟩
      · exact (hno z hz).1 h
      · exact (hno z hz).2 h

/-- The writes of 0 and 1 are the ones that are accepted exactly when the number is in range. -/
theorem accepted_exactly_iff :
    (v.Accepted past w ↔ w.value = some 0 ∨ w.value = some 1) ↔ w.InRange := by
  rw [accepted_iff]
  unfold Write.InRange
  cases w.value with
  | none => simp
  | some z =>
    simp only [Option.some.injEq, exists_eq_left', forall_eq']
    omega

/-- A write whose number is in range resets the counter, increments it or leaves it. -/
theorem counter_cons (hw : w.InRange) :
    v.counter (w :: past) =
      if v.Accepted past w ∧ w.value = some 0 then 0
      else if v.Accepted past w ∧ w.value = some 1 then v.counter past + 1
      else v.counter past := by
  have hexact : v.Accepted past w ↔ w.value = some 0 ∨ w.value = some 1 := accepted_exactly_iff.2 hw
  rw [Version.counter]
  rcases write_cases v w (v.counter past) with
      ⟨z, hz, hzero, hwrite⟩ | ⟨z, hz, hone, hwrite⟩ | ⟨hno, hwrite⟩
  · have hz0 : w.value = some 0 := (hw z hz).1 hzero ▸ hz
    rw [hwrite, if_pos ⟨hexact.2 (.inl hz0), hz0⟩]
  · have hz1 : w.value = some 1 := (hw z hz).2 hone ▸ hz
    have hne : w.value ≠ some 0 := by
      rw [hz1]
      decide
    rw [hwrite, if_neg (fun h => hne h.2), if_pos ⟨hexact.2 (.inr hz1), hz1⟩]
  · have hzero : w.value ≠ some 0 := fun h => (hno 0 h).1 (by decide)
    have hone : w.value ≠ some 1 := fun h => (hno 1 h).2 (by decide)
    rw [hwrite, if_neg fun h => hzero h.2, if_neg fun h => hone h.2]

theorem refused_unchanged (h : ¬ v.Accepted past w) :
    v.answer past w < 0 ∧ v.counter (w :: past) = v.counter past := by
  unfold Version.Accepted at h
  rw [Version.counter]
  unfold Version.answer at h ⊢
  rcases write_cases v w (v.counter past) with
      ⟨z, hz, hzero, hwrite⟩ | ⟨z, hz, hone, hwrite⟩ | ⟨hno, hwrite⟩
  · exact absurd (congrArg Prod.fst hwrite) h
  · exact absurd (congrArg Prod.fst hwrite) h
  · have hneg : -EINVAL < 0 := by decide
    rw [hwrite]
    exact ⟨hneg, rfl⟩

/-! ## Any writes -/

theorem correct_nil (v : Version) : Correct v [] where
  counts := rfl
  accepted := nofun
  refused := nofun

theorem correct_cons (hpast : Correct v past) : Correct v (w :: past) ↔ w.InRange := by
  constructor
  · intro h
    exact accepted_exactly_iff.1 (h.accepted w past rfl)
  · intro hw
    constructor
    · rw [counter_cons hw, hpast.counts, Version.ones]
      split
      · rfl
      · split
        · rw [BitVec.ofNat_add]
          rfl
        · rfl
    · rintro w' past' heq
      cases heq
      exact accepted_exactly_iff.2 hw
    · rintro w' past' heq
      cases heq
      exact refused_unchanged

/-- **The counter service** is correct at every point of a history of writes exactly when all their
numbers are in range. -/
theorem counts_iff (v : Version) (h : List Write) : Always (Correct v) h ↔ ∀ w ∈ h, w.InRange := by
  have hiff : Always (Correct v) h ↔ Each (fun _ w => w.InRange) h := by
    apply always_iff_each (A := fun _ _ => True) (correct_nil v)
    · exact fun _ hpast => correct_cons hpast
    · exact Each.of_forall fun _ _ => trivial
  rw [hiff, each_iff_forall]

/-- `2 ^ 32` is stored as 0: the text "4294967296" resets the counter. -/
theorem large_number_accepted : ¬ ∀ v h, Always (Correct v) h := by
  intro h
  let w : Write := ⟨str "4294967296", by decide, by decide⟩
  have haccepted := (h .debugfs [w]).1.accepted w [] rfl
  have hvalue : w.value = some 4294967296 := by decide
  have hyes : Version.Accepted .debugfs [] w := by decide
  rw [hvalue] at haccepted
  exact absurd (haccepted.1 hyes) (by decide)

/-! ## One service for another -/

/-- A write of 1 to 4095 bytes: it fits into a page with a NUL behind it. -/
structure PageWrite where
  bytes : List UInt8
  nonempty : 1 ≤ bytes.length
  fits : bytes.length ≤ 4095

def Version.writePage (v : Version) (w : PageWrite) (counter : BitVec 32) : Int × BitVec 32 :=
  match v with
  | .debugfs => Debugfs.counter_write ⟨w.bytes, true⟩ counter
  | .procfs => Procfs.counter_write ⟨w.bytes, true⟩ counter
  | .sysfs => Sysfs.value_store (w.bytes ++ [0]) w.bytes.length counter

/-- What is shown after the writes, the latest one first. -/
def Version.shown (v : Version) : List PageWrite → BitVec 32
  | [] => 0
  | w :: past => (v.writePage w (v.shown past)).2

/-- What `write` returns. -/
def Version.returned (v : Version) (past : List PageWrite) (w : PageWrite) : Int :=
  (v.writePage w (v.shown past)).1

/-- Two versions show the same counter, and have returned the same. -/
structure Agree (v v' : Version) (h : List PageWrite) : Prop where
  shown : v.shown h = v'.shown h
  returned : ∀ w past, h = w :: past → v.returned past w = v'.returned past w

def Interchangeable (h : List PageWrite) : Prop := ∀ v v', Agree v v' h

/-- The text has a number, and it is stored as 0 or 1. -/
def PageWrite.Taken (w : PageWrite) : Prop :=
  ∃ z, number (cstring w.bytes) = some z ∧ (2 ^ 32 ∣ z ∨ 2 ^ 32 ∣ z - 1)

section PageWrites

variable {w : PageWrite} {past : List PageWrite}

theorem store_of_not_taken (hw : ¬ w.Taken) (count : Nat) (counter : BitVec 32) :
    store (w.bytes ++ [0]) count counter = (-EINVAL, counter) := by
  rw [store_eq, cstring_append_nul]
  cases hz : number (cstring w.bytes) with
  | none => rfl
  | some z =>
    have hzero : ¬ 2 ^ 32 ∣ z := fun h => hw ⟨z, hz, .inl h⟩
    have hone : ¬ 2 ^ 32 ∣ z - 1 := fun h => hw ⟨z, hz, .inr h⟩
    exact (if_neg hzero).trans (if_neg hone)

theorem store_of_taken (hw : w.Taken) (count : Nat) (counter : BitVec 32) :
    (store (w.bytes ++ [0]) count counter).1 = count := by
  obtain ⟨z, hz, hstored⟩ := hw
  rw [store_eq, cstring_append_nul, hz]
  by_cases hzero : 2 ^ 32 ∣ z
  · exact congrArg Prod.fst (if_pos hzero)
  · have hone : 2 ^ 32 ∣ z - 1 := hstored.resolve_left hzero
    exact congrArg Prod.fst ((if_neg hzero).trans (if_pos hone))

/-- Where the buffer is long enough, or nothing is stored, it does not matter where the write
goes. -/
theorem writePage_eq (hw : INPUT_SIZE ≤ w.bytes.length → ¬ w.Taken) (v : Version)
    (counter : BitVec 32) :
    v.writePage w counter = store (w.bytes ++ [0]) w.bytes.length counter := by
  have hfile : write_file ⟨w.bytes, true⟩ counter =
      store (w.bytes ++ [0]) w.bytes.length counter := by
    rw [write_file, UserBuffer.count]
    split
    · next hlong => rw [store_of_not_taken (hw hlong)]
    · rfl
  cases v with
  | debugfs => exact hfile
  | procfs => exact hfile
  | sysfs => rfl

theorem agree_of_writePage_eq {v v' : Version} (hpast : Agree v v' past)
    (hw : ∀ counter, v.writePage w counter = v'.writePage w counter) : Agree v v' (w :: past) := by
  constructor
  · rw [Version.shown, Version.shown, hpast.shown, hw]
  · rintro w' past' heq
    cases heq
    rw [Version.returned, Version.returned, hpast.shown, hw]

theorem interchangeable_nil : Interchangeable [] := fun _ _ => ⟨rfl, nofun⟩

theorem interchangeable_cons (hpast : Interchangeable past) :
    Interchangeable (w :: past) ↔ (INPUT_SIZE ≤ w.bytes.length → ¬ w.Taken) := by
  constructor
  · intro h hlong htaken
    have hreturned := (h .debugfs .sysfs).returned w past rfl
    have hdebugfs : Version.returned .debugfs past w = -EINVAL := congrArg Prod.fst (if_pos hlong)
    have hsysfs : Version.returned .sysfs past w = w.bytes.length := store_of_taken htaken _ _
    rw [hdebugfs, hsysfs, EINVAL] at hreturned
    omega
  · intro hw v v'
    apply agree_of_writePage_eq (hpast v v')
    intro counter
    rw [writePage_eq hw, writePage_eq hw]

/-- The two files have the same `counter_write`. -/
theorem debugfs_procfs_agree (h : List PageWrite) : Agree .debugfs .procfs h := by
  induction h with
  | nil => exact interchangeable_nil _ _
  | cons w past ih => exact agree_of_writePage_eq ih fun _ => rfl

/-- **The three modules can stand for each other** exactly as long as `value_store` takes no write
that is too long for the buffer of the other two. -/
theorem interchangeable_iff (h : List PageWrite) :
    Always (Agree .debugfs .procfs) h ∧
      (Always Interchangeable h ↔ ∀ w ∈ h, INPUT_SIZE ≤ w.bytes.length → ¬ w.Taken) := by
  constructor
  · induction h with
    | nil => exact debugfs_procfs_agree []
    | cons w past ih => exact ⟨debugfs_procfs_agree (w :: past), ih⟩
  · have hiff : Always Interchangeable h ↔
        Each (fun _ w => INPUT_SIZE ≤ w.bytes.length → ¬ w.Taken) h := by
      apply always_iff_each (A := fun _ _ => True) interchangeable_nil
      · exact fun _ hpast => interchangeable_cons hpast
      · exact Each.of_forall fun _ _ => trivial
    rw [hiff, each_iff_forall]

/-- A 1 with 40 blanks behind it: `value_store` counts it, `counter_write` refuses it. -/
theorem padded_number_differs : ¬ ∀ h, Always Interchangeable h := by
  intro h
  let w : PageWrite := ⟨str "1" ++ List.replicate 40 32, by decide, by decide⟩
  have hagree := (h [w]).1 .debugfs .sysfs
  have hsysfs : Version.shown .sysfs [w] = 1 := by decide
  have hdebugfs : Version.shown .debugfs [w] = 0 := by decide
  have hshown := hagree.shown
  rw [hsysfs, hdebugfs] at hshown
  exact absurd hshown (by decide)

end PageWrites

end LinuxKernelProg.Interfaces.Counter
