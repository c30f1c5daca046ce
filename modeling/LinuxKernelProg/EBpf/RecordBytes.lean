import LinuxKernelProg.Lib.CString
import LinuxKernelProg.Lib.Text
import LinuxKernelProg.Lib.Writes

/-!
# The bytes of a record

`handle_exec` of `ringbuf_exec.bpf.c` and the four probes of `dynamic_traces.bpf.c` write a record
into memory that `bpf_ringbuf_reserve` does not clear, and submit it. A file name that is shorter
than its field, and a function name, which always is, leave bytes of what was in the ring buffer
before behind them (`clean_iff`).
-/

namespace LinuxKernelProg.EBpf.RecordBytes

open LinuxKernelProg.Lib

/-! ## The helpers -/

def EFAULT : Int := 14

/-- The bytes of a `__u32`. -/
def u32 (x : BitVec 32) : List UInt8 :=
  [⟨x.setWidth 8⟩, ⟨(x >>> 8).setWidth 8⟩, ⟨(x >>> 16).setWidth 8⟩, ⟨(x >>> 24).setWidth 8⟩]

variable {n : Nat}

/-- `bpf_probe_read_user_str(dst, size, unsafe_ptr)` of a string, or of the bytes in front of a
fault. -/
def bpf_probe_read_user_str (dst size : Nat) (unsafe_ptr : Except (List UInt8) CString)
    (mem : Fin n → UInt8) :
    Int × (Fin n → UInt8) :=
  match unsafe_ptr with
  | .error copied => (-EFAULT, Write.apply ⟨dst, copied.take size⟩ mem)
  | .ok s => ((s.bytes.take (size - 1)).length + 1,
      Write.apply ⟨dst, s.bytes.take (size - 1) ++ [0]⟩ mem)

/-- `bpf_get_current_comm(buf, 16)` fills all of its buffer. -/
def bpf_get_current_comm (buf : Nat) (comm : Vector UInt8 16)
    (mem : Fin n → UInt8) : Fin n → UInt8 :=
  Write.apply ⟨buf, comm.toList⟩ mem

/-! ## Executions -/

/-- A call of `execve`. -/
structure Exec where
  /-- `bpf_ringbuf_reserve` finds room. -/
  room : Bool
  pid_tgid : BitVec 64
  filename : Except (List UInt8) CString
  comm : Vector UInt8 16

/-- `struct event` is `pid` and, at 4, `comm`. What is submitted, if the reserved memory is
`prior`. -/
def handle_exec (ctx : Exec) (prior : Fin 20 → UInt8) : Option (Fin 20 → UInt8) :=
  if ctx.room then
    let e := Write.apply ⟨0, u32 ((ctx.pid_tgid >>> 32).setWidth 32)⟩ prior
    let (ret, e) := bpf_probe_read_user_str 4 16 ctx.filename e
    some (if ret < 0 then bpf_get_current_comm 4 ctx.comm e else e)
  else none

/-! ## System calls -/

/-- A hit of a probe, with the value of `sample_count` that it tests. -/
structure Hit where
  sample_count : BitVec 64
  room : Bool
  pid_tgid : BitVec 64
  stack_id : BitVec 32
  comm : Vector UInt8 16

/-- The four probes: `struct trace_data` is `pid`, `stack_id` at 4, `comm` at 8 and `function` at
24. -/
def trace (rate : BitVec 64) (function : String) (size : Nat) (ctx : Hit) (prior : Fin 56 → UInt8) :
    Option (Fin 56 → UInt8) :=
  if ctx.sample_count % rate ≠ 0 then none
  else if ctx.room then
    let event := Write.apply ⟨0, u32 ((ctx.pid_tgid >>> 32).setWidth 32)⟩ prior
    let event := Write.apply ⟨4, u32 ctx.stack_id⟩ event
    let event := bpf_get_current_comm 8 ctx.comm event
    some (Write.apply ⟨24, (str function ++ [0]).take size⟩ event)
  else none

def trace_sys_openat : Hit → (Fin 56 → UInt8) → Option (Fin 56 → UInt8) := trace 10 "sys_openat" 11

def trace_sys_read : Hit → (Fin 56 → UInt8) → Option (Fin 56 → UInt8) := trace 20 "sys_read" 9

def trace_sys_write : Hit → (Fin 56 → UInt8) → Option (Fin 56 → UInt8) := trace 15 "sys_write" 10

def trace_sys_close : Hit → (Fin 56 → UInt8) → Option (Fin 56 → UInt8) := trace 5 "sys_close" 10

/-! ## Events -/

inductive Event where
  | exec (ctx : Exec)
  | openat (ctx : Hit)
  | read (ctx : Hit)
  | write (ctx : Hit)
  | close (ctx : Hit)

/-- What is submitted does not depend on the memory. -/
def Constant (record : (Fin n → UInt8) → Option (Fin n → UInt8)) : Prop :=
  ∀ prior prior', record prior = record prior'

/-- The record carries nothing but the event. -/
def Event.Clean : Event → Prop
  | .exec ctx => Constant (handle_exec ctx)
  | .openat ctx => Constant (trace_sys_openat ctx)
  | .read ctx => Constant (trace_sys_read ctx)
  | .write ctx => Constant (trace_sys_write ctx)
  | .close ctx => Constant (trace_sys_close ctx)

/-- No record is submitted for the hit. -/
def Hit.Skipped (rate : BitVec 64) (ctx : Hit) : Prop :=
  ctx.sample_count % rate ≠ 0 ∨ ctx.room = false

instance (rate : BitVec 64) (ctx : Hit) : Decidable (ctx.Skipped rate) :=
  inferInstanceAs (Decidable (_ ∨ _))

/-- There is no record, or the name fills its field. -/
def Event.Filled : Event → Prop
  | .exec ctx => ctx.room = false ∨ ∀ name, ctx.filename = .ok name → 15 ≤ name.bytes.length
  | .openat ctx => ctx.Skipped 10
  | .read ctx => ctx.Skipped 20
  | .write ctx => ctx.Skipped 15
  | .close ctx => ctx.Skipped 5

/-! ## The writes -/

/-- A record that is written where there is room for it. -/
theorem constant_fill_iff (c : Prop) [Decidable c] (ws : List Write) :
    Constant (fun prior : Fin n → UInt8 => if c then some (fill ws prior) else none) ↔
      c → ∀ i : Fin n, Covered ws i := by
  unfold Constant
  by_cases hc : c
  · simp only [hc, if_true, Option.some_inj, fill_congr_iff, forall_const]
  · simp only [hc, if_false, implies_true, false_implies]

def Exec.writes (ctx : Exec) : List Write :=
  ⟨0, u32 ((ctx.pid_tgid >>> 32).setWidth 32)⟩ ::
    match ctx.filename with
    | .error copied => [⟨4, copied.take 16⟩, ⟨4, ctx.comm.toList⟩]
    | .ok name => [⟨4, name.bytes.take 15 ++ [0]⟩]

theorem handle_exec_eq (ctx : Exec) (prior : Fin 20 → UInt8) :
    handle_exec ctx prior = if ctx.room then some (fill ctx.writes prior) else none := by
  unfold handle_exec
  cases hname : ctx.filename with
  | error copied =>
    have hret : -EFAULT < 0 := by decide
    simp only [bpf_probe_read_user_str, bpf_get_current_comm, hret, if_true, Exec.writes, hname,
      fill, List.foldl_cons, List.foldl_nil]
  | ok name =>
    have hret : ¬ ((name.bytes.take (16 - 1)).length : Int) + 1 < 0 := by omega
    simp only [bpf_probe_read_user_str, hret, if_false, Exec.writes, hname, fill, List.foldl_cons,
      List.foldl_nil]

/-- The bytes of the name, its NUL included, are all of the field if there are 15 of them. -/
theorem Exec.covered_iff (ctx : Exec) :
    (∀ i : Fin 20, Covered ctx.writes i) ↔
      ∀ name, ctx.filename = .ok name → 15 ≤ name.bytes.length := by
  unfold Covered Exec.writes
  cases hname : ctx.filename with
  | error copied =>
    refine iff_of_true (fun i => ?_) (fun _ h => by cases h)
    by_cases hi : i.val < 4
    · exact ⟨_, List.mem_cons_self, Nat.zero_le _, hi⟩
    · refine ⟨⟨4, ctx.comm.toList⟩, by simp, Nat.not_lt.1 hi, ?_⟩
      rw [ctx.comm.length_toList]
      exact i.isLt
  | ok name =>
    have hlen : (name.bytes.take 15 ++ [0]).length = min 15 name.bytes.length + 1 := by
      rw [List.length_append, List.length_take, List.length_singleton]
    constructor
    · intro h name' hname'
      cases hname'
      -- the last byte of the field
      obtain ⟨w, hw, -, hlt⟩ := h 19
      rcases List.mem_cons.1 hw with rfl | hw
      · have hlt : 19 < 0 + 4 := hlt
        omega
      · obtain rfl := List.mem_singleton.1 hw
        rw [hlen] at hlt
        have hlt : 19 < 4 + (min 15 name.bytes.length + 1) := hlt
        omega
    · intro h i
      have hfull := h name rfl
      have hend : i.val < 4 + (name.bytes.take 15 ++ [0]).length := by omega
      by_cases hi : i.val < 4
      · exact ⟨_, List.mem_cons_self, Nat.zero_le _, hi⟩
      · exact ⟨⟨4, name.bytes.take 15 ++ [0]⟩, by simp, Nat.not_lt.1 hi, hend⟩

theorem handle_exec_constant_iff (ctx : Exec) :
    Constant (handle_exec ctx) ↔ (Event.exec ctx).Filled := by
  have hfill : handle_exec ctx =
      fun prior => if ctx.room = true then some (fill ctx.writes prior) else none :=
    funext (handle_exec_eq ctx)
  rw [hfill, constant_fill_iff, ctx.covered_iff, Event.Filled, ← Bool.not_eq_true, imp_iff_not_or]

def Hit.writes (function : String) (size : Nat) (ctx : Hit) : List Write :=
  [⟨0, u32 ((ctx.pid_tgid >>> 32).setWidth 32)⟩, ⟨4, u32 ctx.stack_id⟩, ⟨8, ctx.comm.toList⟩,
    ⟨24, (str function ++ [0]).take size⟩]

theorem trace_eq (rate : BitVec 64) (function : String) (size : Nat) (ctx : Hit) :
    trace rate function size ctx =
      fun prior => if ¬ ctx.Skipped rate then some (fill (ctx.writes function size) prior)
        else none := by
  funext prior
  unfold trace
  by_cases hskip : ctx.Skipped rate
  · rw [if_neg (not_not.2 hskip)]
    rcases hskip with h | h
    · rw [if_pos h]
    · rw [h, if_neg Bool.false_ne_true, ite_self]
  · obtain ⟨hrate, hroom⟩ := not_or.1 hskip
    rw [if_pos hskip, if_neg hrate, if_pos (Bool.not_eq_false _ ▸ hroom)]
    rfl

/-- The last byte of the field is not written. -/
theorem Hit.not_covered (function : String) {size : Nat} (hsize : size < 32) (ctx : Hit) :
    ¬ Covered (ctx.writes function size) 55 := by
  rintro ⟨w, hw, -, hlt⟩
  have hlen := List.length_take_le size (str function ++ [0])
  simp only [Hit.writes, List.mem_cons, List.not_mem_nil, or_false] at hw
  rcases hw with rfl | rfl | rfl | rfl
  · have hlt : 55 < 0 + 4 := hlt
    omega
  · have hlt : 55 < 4 + 4 := hlt
    omega
  · rw [ctx.comm.length_toList] at hlt
    have hlt : 55 < 8 + 16 := hlt
    omega
  · have hlt : 55 < 24 + ((str function ++ [0]).take size).length := hlt
    omega

/-- The name of the function does not fill its 32 bytes. -/
theorem trace_constant_iff (rate : BitVec 64) (function : String) {size : Nat} (hsize : size < 32)
    (ctx : Hit) :
    Constant (trace rate function size ctx) ↔ ctx.Skipped rate := by
  rw [trace_eq, constant_fill_iff]
  constructor
  · intro h
    by_contra hskip
    exact ctx.not_covered function hsize (h hskip 55)
  · exact fun hskip hno => absurd hskip hno

/-- **Nothing but the event** is in the record exactly when there is none, or it is of an execution
whose file name cannot be read or fills its field. -/
theorem clean_record_iff (e : Event) : e.Clean ↔ e.Filled := by
  cases e with
  | exec ctx => exact handle_exec_constant_iff ctx
  | openat ctx => exact trace_constant_iff 10 "sys_openat" (by decide) ctx
  | read ctx => exact trace_constant_iff 20 "sys_read" (by decide) ctx
  | write ctx => exact trace_constant_iff 15 "sys_write" (by decide) ctx
  | close ctx => exact trace_constant_iff 5 "sys_close" (by decide) ctx

/-- The last byte of the record is what was there before, of a short file name and of a system
call. -/
theorem records_not_clean :
    ¬ (Event.exec ⟨true, 0, .ok ⟨str "/bin/ls", by decide⟩, Vector.replicate 16 0⟩).Clean ∧
      ¬ (Event.openat ⟨10, true, 0, 0, Vector.replicate 16 0⟩).Clean := by
  constructor
  · intro h
    have heq := congrFun (Option.some.inj (h (fun _ => 0) fun _ => 1)) 19
    exact absurd heq (by decide)
  · intro h
    have heq := congrFun (Option.some.inj (h (fun _ => 0) fun _ => 1)) 55
    exact absurd heq (by decide)

end LinuxKernelProg.EBpf.RecordBytes
