import LinuxKernelProg.Lib.Cbpf

/-!
# The seccomp filter

`seccomp_modes.c` puts together a filter that allows four system calls and denies the others with
`EPERM`, and installs it with `prctl`. The kernel accepts a filter only if no jump leads out of it.

On x86-64 the filter decides as its comments say. The jump for other architectures is two
instructions too long: it leads behind the last one (`decides_iff`).
-/

namespace LinuxKernelProg.Security

open LinuxKernelProg.Lib LinuxKernelProg.Lib.Cbpf

/-! ## The kernel -/

structure seccomp_data where
  nr : BitVec 32
  arch : BitVec 32
  instruction_pointer : BitVec 64
  args : Fin 6 → BitVec 64

/-- `sizeof(struct seccomp_data)` -/
def seccomp_data.size : Nat := 64

/-- The 32-bit word at the offset `k`, on a little-endian machine. -/
def seccomp_data.load (d : seccomp_data) (k : BitVec 32) : BitVec 32 :=
  let half (x : BitVec 64) : BitVec 32 := (x >>> (8 * (k.toNat % 8))).setWidth 32
  match k.toNat / 8 with
  | 0 => if k.toNat % 8 = 0 then d.nr else d.arch
  | 1 => half d.instruction_pointer
  | i + 2 => half (d.args (Fin.ofNat 6 i))

def AUDIT_ARCH_X86_64 : BitVec 32 := 0xc000003e

def SYS_read : BitVec 32 := 0
def SYS_write : BitVec 32 := 1
def SYS_exit : BitVec 32 := 60
def SYS_exit_group : BitVec 32 := 231

def SECCOMP_RET_ERRNO : BitVec 32 := 0x00050000
def SECCOMP_RET_ALLOW : BitVec 32 := 0x7fff0000

def EPERM : BitVec 32 := 1

inductive Errno where
  | EINVAL
  deriving DecidableEq

/-- `seccomp_check_filter()`: the loads are of aligned words of the data. -/
def seccomp_check_filter (p : List Insn) : Bool :=
  p.all fun i => match i with
    | .ld_w_abs k => decide (k.toNat < seccomp_data.size) && k.toNat % 4 == 0
    | _ => true

/-- What `prctl(PR_SET_SECCOMP, SECCOMP_MODE_FILTER, &prog)` answers to a filter. -/
def seccomp_prepare_filter (p : List Insn) : Except Errno Unit :=
  if check_classic p && seccomp_check_filter p then .ok () else .error .EINVAL

/-! ## The program -/

/-- The filter of `demo_mode_filter`. -/
def filter : List Insn :=
  [ -- Load architecture
    .ld_w_abs 4,
    -- Check if x86_64
    .jmp_k .jeq AUDIT_ARCH_X86_64 0 7,
    -- Load syscall number
    .ld_w_abs 0,
    -- Allow read, write, exit
    .jmp_k .jeq SYS_read 4 0,
    .jmp_k .jeq SYS_write 3 0,
    .jmp_k .jeq SYS_exit 2 0,
    .jmp_k .jeq SYS_exit_group 1 0,
    -- Deny everything else with EPERM
    .ret_k (SECCOMP_RET_ERRNO ||| EPERM),
    -- Allow matched syscalls
    .ret_k SECCOMP_RET_ALLOW ]

/-- What the filter is there for: "Allow only read/write/exit, deny others with EPERM". -/
def policy (d : seccomp_data) : BitVec 32 :=
  if d.arch = AUDIT_ARCH_X86_64 ∧ d.nr ∈ [SYS_read, SYS_write, SYS_exit, SYS_exit_group] then
    SECCOMP_RET_ALLOW
  else SECCOMP_RET_ERRNO ||| EPERM

/-- The filter stays inside its text and ends at a return, with the answer of the policy. -/
def Decides (p : List Insn) (d : seccomp_data) : Prop :=
  (∀ m, Visits (step p d.load) .start m → m.pc < p.length) ∧ Returns p d.load (policy d)

/-! ## The decision -/

variable {p : List Insn} {d : seccomp_data}

/-- A filter that the kernel accepts stays inside its text, whatever the call. -/
theorem inside_of_prepared (h : seccomp_prepare_filter p = .ok ()) (d : seccomp_data) {m : Machine}
    (hm : Visits (step p d.load) .start m) : m.pc < p.length := by
  unfold seccomp_prepare_filter at h
  split at h
  · rename_i hc
    rw [Bool.and_eq_true] at hc
    obtain ⟨v, hv⟩ := returns_of_check hc.1 d.load
    exact hv.inside hm
  · cases h

/-- The comparisons with the four numbers: one that succeeds leads to the last instruction, and
without one the instruction before that is reached. -/
theorem returns_nr (nr : BitVec 32) (load : BitVec 32 → BitVec 32) :
    ReturnsFrom filter load ⟨3, nr⟩
      (if nr ∈ [SYS_read, SYS_write, SYS_exit, SYS_exit_group] then SECCOMP_RET_ALLOW
        else SECCOMP_RET_ERRNO ||| EPERM) := by
  have hallow : ReturnsFrom filter load ⟨8, nr⟩ SECCOMP_RET_ALLOW := returnsFrom_of_ret rfl
  have hdeny : ReturnsFrom filter load ⟨7, nr⟩ (SECCOMP_RET_ERRNO ||| EPERM) :=
    returnsFrom_of_ret rfl
  by_cases hread : nr = SYS_read
  · rw [if_pos (by simp [hread])]
    exact hallow.of_step (step_jeq_true rfl hread)
  apply ReturnsFrom.of_step (step_jeq_false rfl hread)
  by_cases hwrite : nr = SYS_write
  · rw [if_pos (by simp [hwrite])]
    exact hallow.of_step (step_jeq_true rfl hwrite)
  apply ReturnsFrom.of_step (step_jeq_false rfl hwrite)
  by_cases hexit : nr = SYS_exit
  · rw [if_pos (by simp [hexit])]
    exact hallow.of_step (step_jeq_true rfl hexit)
  apply ReturnsFrom.of_step (step_jeq_false rfl hexit)
  by_cases hgroup : nr = SYS_exit_group
  · rw [if_pos (by simp [hgroup])]
    exact hallow.of_step (step_jeq_true rfl hgroup)
  · rw [if_neg (by simp [hread, hwrite, hexit, hgroup])]
    exact hdeny.of_step (step_jeq_false rfl hgroup)

theorem returns_x86_64 (ha : d.arch = AUDIT_ARCH_X86_64) : Returns filter d.load (policy d) := by
  have hnr : ReturnsFrom filter d.load ⟨3, d.nr⟩ (policy d) := by
    simpa only [policy, ha, true_and] using returns_nr d.nr d.load
  apply ReturnsFrom.of_step (step_ld rfl)
  apply ReturnsFrom.of_step (step_jeq_true rfl ha)
  apply ReturnsFrom.of_step (step_ld rfl)
  exact hnr

/-- For another architecture the jump leads behind the last instruction. -/
theorem visits_outside (ha : d.arch ≠ AUDIT_ARCH_X86_64) :
    Visits (step filter d.load) .start ⟨filter.length, d.arch⟩ := by
  have hld : step filter d.load .start = some ⟨1, d.arch⟩ := rfl
  have hfetch : filter[1]? = some (.jmp_k .jeq AUDIT_ARCH_X86_64 0 7) := rfl
  exact .head hld (.head (step_jeq_false hfetch ha) .refl)

/-- The kernel refuses the filter: it does not stay inside its text. -/
theorem prepare_filter_refused : seccomp_prepare_filter filter = .error .EINVAL := by
  cases h : seccomp_prepare_filter filter with
  | error e => cases e; rfl
  | ok u =>
    let foreign : seccomp_data := ⟨0, 0, 0, fun _ => 0⟩
    have hin := inside_of_prepared h foreign (visits_outside (by decide))
    exact absurd hin (Nat.lt_irrefl _)

/-- **The filter of `demo_mode_filter`** decides as the policy says exactly for the calls of x86-64,
and the kernel does not install it. -/
theorem decides_iff (d : seccomp_data) :
    (Decides filter d ↔ d.arch = AUDIT_ARCH_X86_64) ∧
      seccomp_prepare_filter filter = .error .EINVAL := by
  refine ⟨⟨fun h => ?_, fun ha => ?_⟩, prepare_filter_refused⟩
  · by_cases ha : d.arch = AUDIT_ARCH_X86_64
    · exact ha
    · exact absurd (h.1 _ (visits_outside ha)) (Nat.lt_irrefl _)
  · have hret := returns_x86_64 ha
    exact ⟨fun _ hm => hret.inside hm, hret⟩

/-- A call of the 32-bit architecture. -/
theorem i386_call_leaves :
    ¬ ((∀ d, Decides filter d) ∧ seccomp_prepare_filter filter = .ok ()) := by
  intro h
  have hd := h.1 ⟨SYS_write, 0x40000003, 0, fun _ => 0⟩
  exact absurd (hd.1 _ (visits_outside (by decide))) (Nat.lt_irrefl _)

end LinuxKernelProg.Security
