import LinuxKernelProg.Lib.Loop

/-!
# Classic BPF

The programs of socket and seccomp filters: one accumulator, loads from the data, jumps forward and
a value to return. The offsets of a jump count from the next instruction. A program whose jumps stay
inside and that ends in a return never runs out of its text (`returns_of_check`).
-/

namespace LinuxKernelProg.Lib.Cbpf

inductive Cond where
  | jeq
  | jgt
  | jge
  | jset

def Cond.test : Cond → BitVec 32 → BitVec 32 → Bool
  | .jeq, a, k => a == k
  | .jgt, a, k => k < a
  | .jge, a, k => k ≤ a
  | .jset, a, k => a &&& k != 0

inductive Insn where
  /-- `BPF_LD | BPF_W | BPF_ABS` -/
  | ld_w_abs (k : BitVec 32)
  /-- `BPF_JMP | BPF_JA` -/
  | ja (k : BitVec 32)
  /-- `BPF_JMP | c | BPF_K` -/
  | jmp_k (c : Cond) (k : BitVec 32) (jt jf : BitVec 8)
  /-- `BPF_RET | BPF_K` -/
  | ret_k (k : BitVec 32)

structure Machine where
  pc : Nat
  A : BitVec 32

def Machine.start : Machine := ⟨0, 0⟩

/-- One instruction; `none` at a return and where there is no instruction. -/
def step (p : List Insn) (load : BitVec 32 → BitVec 32) (m : Machine) : Option Machine :=
  match p[m.pc]? with
  | some (.ld_w_abs k) => some ⟨m.pc + 1, load k⟩
  | some (.ja k) => some { m with pc := m.pc + 1 + k.toNat }
  | some (.jmp_k c k jt jf) =>
    some { m with pc := m.pc + 1 + (if c.test m.A k then jt else jf).toNat }
  | some (.ret_k _) => none
  | none => none

/-- The program ends at an instruction that returns `v`. -/
def ReturnsFrom (p : List Insn) (load : BitVec 32 → BitVec 32) (m : Machine) (v : BitVec 32) :
    Prop :=
  ∃ t, Exits (step p load) m t ∧ p[t.pc]? = some (.ret_k v)

def Returns (p : List Insn) (load : BitVec 32 → BitVec 32) (v : BitVec 32) : Prop :=
  ReturnsFrom p load .start v

/-- Each jump leads to one of the instructions behind it. -/
def jumps_inside : List Insn → Bool
  | [] => true
  | .ja k :: rest => decide (k.toNat < rest.length) && jumps_inside rest
  | .jmp_k _ _ jt jf :: rest =>
    decide (jt.toNat < rest.length) && decide (jf.toNat < rest.length) && jumps_inside rest
  | _ :: rest => jumps_inside rest

def ends_in_ret (p : List Insn) : Bool :=
  match p.getLast? with
  | some (.ret_k _) => true
  | _ => false

/-- `bpf_check_classic()` -/
def check_classic (p : List Insn) : Bool := jumps_inside p && ends_in_ret p

variable {p : List Insn} {load : BitVec 32 → BitVec 32} {m m' : Machine} {v v' : BitVec 32}

variable {pc : Nat} {A k : BitVec 32} {jt jf : BitVec 8}

theorem step_ld (h : p[pc]? = some (.ld_w_abs k)) :
    step p load ⟨pc, A⟩ = some ⟨pc + 1, load k⟩ := by
  simp only [step, h]

theorem step_jeq_true (h : p[pc]? = some (.jmp_k .jeq k jt jf)) (hA : A = k) :
    step p load ⟨pc, A⟩ = some ⟨pc + 1 + jt.toNat, A⟩ := by
  simp only [step, h, Cond.test, hA, beq_self_eq_true, if_true]

theorem step_jeq_false (h : p[pc]? = some (.jmp_k .jeq k jt jf)) (hA : A ≠ k) :
    step p load ⟨pc, A⟩ = some ⟨pc + 1 + jf.toNat, A⟩ := by
  simp only [step, h, Cond.test, beq_eq_false_iff_ne.2 hA, Bool.false_eq_true, if_false]

theorem ReturnsFrom.of_step (h : step p load m = some m') (hv : ReturnsFrom p load m' v) :
    ReturnsFrom p load m v := by
  obtain ⟨t, ht, hret⟩ := hv
  exact ⟨t, ht.step h, hret⟩

theorem returnsFrom_of_ret (h : p[m.pc]? = some (.ret_k v)) : ReturnsFrom p load m v :=
  ⟨m, exits_of_none (by simp only [step, h]), h⟩

/-- A program that returns stays inside its text. -/
theorem Returns.inside (h : Returns p load v) (hm : Visits (step p load) .start m) :
    m.pc < p.length := by
  obtain ⟨t, ht, hv⟩ := h
  refine Nat.lt_of_not_le fun hout => ?_
  have hnone : p[m.pc]? = none := List.getElem?_eq_none hout
  have : m = t := hm.eq_of_none (by simp only [step, hnone]) ht
  rw [← this, hnone] at hv
  cases hv

/-! ## The check -/

theorem jumps_inside_drop (h : jumps_inside p = true) (n : Nat) :
    jumps_inside (p.drop n) = true := by
  induction p generalizing n with
  | nil => simp [jumps_inside]
  | cons i rest ih =>
    have hrest : jumps_inside rest = true := by
      cases i <;> simp only [jumps_inside, Bool.and_eq_true] at h
      · exact h
      · exact h.2
      · exact h.2
      · exact h
    cases n with
    | zero => exact h
    | succ n => exact ih hrest n

theorem last_is_ret (h : ends_in_ret p = true) {i : Insn} (hi : p[p.length - 1]? = some i) :
    ∃ v, i = .ret_k v := by
  rw [ends_in_ret, List.getLast?_eq_getElem?, hi] at h
  cases i with
  | ret_k v => exact ⟨v, rfl⟩
  | _ => cases h

/-- In a program that passes the check, an instruction returns or leads to one behind it. -/
theorem step_of_check (h : check_classic p = true) (load : BitVec 32 → BitVec 32)
    (hm : m.pc < p.length) :
    (∃ v, p[m.pc]? = some (.ret_k v)) ∨
      ∃ m', step p load m = some m' ∧ m.pc < m'.pc ∧ m'.pc < p.length := by
  rw [check_classic, Bool.and_eq_true] at h
  obtain ⟨hjumps, hret⟩ := h
  have hj := jumps_inside_drop hjumps m.pc
  rw [List.drop_eq_getElem_cons hm] at hj
  have hrest : (p.drop (m.pc + 1)).length = p.length - (m.pc + 1) := List.length_drop
  have hfetch : p[m.pc]? = some p[m.pc] := List.getElem?_eq_getElem hm
  cases hi : p[m.pc] with
  | ret_k v => exact .inl ⟨v, hi ▸ hfetch⟩
  | ld_w_abs k =>
    rw [hi] at hfetch
    refine .inr ⟨_, by simp only [step, hfetch]; rfl, Nat.lt_succ_self _, ?_⟩
    -- the last instruction is no load
    refine Nat.lt_of_le_of_ne hm fun hlast => ?_
    have hl : p[p.length - 1]? = some (.ld_w_abs k) := by rwa [← hlast]
    obtain ⟨v, hv⟩ := last_is_ret hret hl
    cases hv
  | ja k =>
    rw [hi] at hfetch hj
    simp only [jumps_inside, Bool.and_eq_true, decide_eq_true_eq] at hj
    refine .inr ⟨_, by simp only [step, hfetch]; rfl, ?_, ?_⟩ <;> simp only <;> omega
  | jmp_k c k jt jf =>
    rw [hi] at hfetch hj
    simp only [jumps_inside, Bool.and_eq_true, decide_eq_true_eq] at hj
    refine .inr ⟨_, by simp only [step, hfetch]; rfl, ?_, ?_⟩
    · simp only
      omega
    · simp only
      split <;> omega

/-- **The check is sound.** A program that passes it returns, whatever the data. -/
theorem returns_of_check (h : check_classic p = true) (load : BitVec 32 → BitVec 32) :
    ∃ v, Returns p load v := by
  -- by induction on the number of instructions behind the current one
  have key : ∀ n, ∀ m : Machine, m.pc < p.length → p.length - m.pc ≤ n →
      ∃ v, ReturnsFrom p load m v := by
    intro n
    induction n with
    | zero => omega
    | succ n ih =>
      intro m hm hn
      rcases step_of_check h load hm with ⟨v, hv⟩ | ⟨m', hs, hlt, hin⟩
      · exact ⟨v, returnsFrom_of_ret hv⟩
      · obtain ⟨v, hv⟩ := ih m' hin (by omega)
        exact ⟨v, hv.of_step hs⟩
  apply key p.length .start
  · -- a program without instructions has no last one
    cases p with
    | nil => cases h
    | cons i rest => exact Nat.succ_pos _
  · exact Nat.sub_le _ _

end LinuxKernelProg.Lib.Cbpf
