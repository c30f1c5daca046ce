import Mathlib.Data.BitVec
import LinuxKernelProg.Lib.Run
import LinuxKernelProg.Lib.Shards
import LinuxKernelProg.Lib.WordMemory

/-!
# Per-CPU and shared accounting

`mm/p6_percpu/scalability.c`: every packet is counted in a word of the CPU that processes it, and in
a shared counter. `get_cpu_var` is for variables that are per-CPU themselves: on one that points to
a per-CPU area it loads the word that lies the CPU's offset behind the variable.
-/

namespace LinuxKernelProg.Mm.Scalability

open LinuxKernelProg.Lib

abbrev Word := BitVec 64

/-- The CPUs, and where the module's static variables are. -/
structure Layout where
  possible : List Nat
  per_cpu_offset : Nat → Word
  percpu_packets : Word
  percpu_bytes : Word
  shared_packets : Word
  shared_bytes : Word

namespace Layout

variable (L : Layout)

def per_cpu_ptr (p : Word) (cpu : Nat) : Word := p + L.per_cpu_offset cpu

/-- `*this_cpu_ptr(&v)`, for the variable at `v`. -/
def get_cpu_var (m : WordMemory) (v : Word) (cpu : Nat) : Option Word :=
  m.load (L.per_cpu_ptr v cpu)

/-- The loop that clears the words, for one CPU. -/
def clear (m : WordMemory) (cpu : Nat) : Option WordMemory := do
  let packets ← m.load L.percpu_packets
  let m ← m.store (L.per_cpu_ptr packets cpu) 0
  let bytes ← m.load L.percpu_bytes
  m.store (L.per_cpu_ptr bytes cpu) 0

structure State where
  mem : WordMemory
  /-- For each packet: the CPU, and the words that were counted up on it. -/
  counted : List (Nat × Word × Word)

/-- The loop over the packets, for one that `cpu` processes. -/
def process (s : State) (cpu : Nat) : Option State := do
  let packets ← L.get_cpu_var s.mem L.percpu_packets cpu
  let bytes ← L.get_cpu_var s.mem L.percpu_bytes cpu
  let m ← s.mem.modify packets (· + 1)
  let m ← m.modify bytes (· + 1500)
  let m ← m.modify L.shared_packets (· + 1)
  let m ← m.modify L.shared_bytes (· + 1500)
  return ⟨m, s.counted ++ [(cpu, packets, bytes)]⟩

/-- The loop that aggregates, for one CPU. -/
def aggregate (m : WordMemory) (total : Word × Word) (cpu : Nat) : Option (Word × Word) := do
  let packets ← m.load L.percpu_packets
  let packets ← m.load (L.per_cpu_ptr packets cpu)
  let bytes ← m.load L.percpu_bytes
  let bytes ← m.load (L.per_cpu_ptr bytes cpu)
  return (total.1 + packets, total.2 + bytes)

end Layout

open Layout

structure Report where
  total_packets : Word
  total_bytes : Word
  shared_packets : Word
  shared_bytes : Word

inductive Ending where
  /-- `cleanup`: what is returned, and what is freed. -/
  | fails (ret : Int) (freed : List Word)
  | reports (r : Report) (counted : List (Nat × Word × Word))

def enomem : Int := -12

/-- What is printed at the end. -/
def report (L : Layout) (s : State) : Option Ending := do
  let total ← run (L.aggregate s.mem) (0, 0) L.possible
  let shared_packets ← s.mem.load L.shared_packets
  let shared_bytes ← s.mem.load L.shared_bytes
  return .reports ⟨total.1, total.2, shared_packets, shared_bytes⟩ s.counted

/-- `packets` and `bytes` are what `alloc_percpu` returns, and `schedule` has the CPU of each
packet; `none` if an access goes wrong. -/
def percpu_scalability_init (L : Layout) (packets bytes : Word) (schedule : List Nat)
    (m : WordMemory) :
    Option Ending := do
  let m ← m.store L.percpu_packets packets
  let m ← m.store L.percpu_bytes bytes
  if packets = 0 ∨ bytes = 0 then return .fails enomem ([packets, bytes].filter (· ≠ 0))
  else
    let m ← run L.clear m L.possible
    let s ← run L.process ⟨m, []⟩ schedule
    report L s

/-! ## The variables in memory -/

inductive Var where
  | percpu_packets
  | percpu_bytes
  | shared_packets
  | shared_bytes
  /-- The words of a CPU in the areas that `alloc_percpu` returns. -/
  | packets (cpu : Nat)
  | bytes (cpu : Nat)
  deriving DecidableEq

namespace Layout

variable (L : Layout) (packets bytes : Word)

def addr : Var → Word
  | .percpu_packets => L.percpu_packets
  | .percpu_bytes => L.percpu_bytes
  | .shared_packets => L.shared_packets
  | .shared_bytes => L.shared_bytes
  | .packets cpu => L.per_cpu_ptr packets cpu
  | .bytes cpu => L.per_cpu_ptr bytes cpu

def Valid : Var → Prop
  | .packets cpu => cpu ∈ L.possible
  | .bytes cpu => cpu ∈ L.possible
  | _ => True

/-- The module is loaded, and `alloc_percpu` has returned two areas: each has a word for every
possible CPU, and no two of the words, or of the static variables, have one address. -/
structure Allocated (m : WordMemory) : Prop where
  nodup : L.possible.Nodup
  packets_ne : packets ≠ 0
  bytes_ne : bytes ≠ 0
  apart : WordMemory.Apart (L.addr packets bytes) L.Valid
  mapped : ∀ x, L.Valid x → (m.load (L.addr packets bytes x)).isSome
  shared_packets : m.load L.shared_packets = some 0
  shared_bytes : m.load L.shared_bytes = some 0

/-- The variables that there are. -/
def vars : List Var :=
  [.percpu_packets, .percpu_bytes, .shared_packets, .shared_bytes] ++ L.possible.map .packets ++
    L.possible.map .bytes

theorem mem_vars {x : Var} (h : L.Valid x) : x ∈ L.vars := by
  cases x <;> simp [vars, Valid] at h ⊢ <;> exact h

variable {L packets bytes} in
theorem apart_of_nodup (h : (L.vars.map (L.addr packets bytes)).Nodup) :
    WordMemory.Apart (L.addr packets bytes) L.Valid :=
  fun _ _ hx hy => List.inj_on_of_nodup_map h (L.mem_vars hx) (L.mem_vars hy)

variable {L packets bytes} in
theorem isSome_of_vars {m : WordMemory} (h : ∀ x ∈ L.vars, (m.load (L.addr packets bytes x)).isSome)
    (x : Var) (hx : L.Valid x) : (m.load (L.addr packets bytes x)).isSome :=
  h x (L.mem_vars hx)

/-- What lies the CPU's offset behind the static variables are the addresses of its words. -/
def Points (s : State) (cpu : Nat) : Prop :=
  s.mem.load (L.per_cpu_ptr L.percpu_packets cpu) = some (L.per_cpu_ptr packets cpu) ∧
    s.mem.load (L.per_cpu_ptr L.percpu_bytes cpu) = some (L.per_cpu_ptr bytes cpu)

instance (s : State) (cpu : Nat) : Decidable (L.Points packets bytes s cpu) :=
  inferInstanceAs (Decidable (_ ∧ _))

/-- The CPU, and its words. -/
def slots (cpu : Nat) : Nat × Word × Word :=
  (cpu, L.per_cpu_ptr packets cpu, L.per_cpu_ptr bytes cpu)

/-- What the variables hold once `n` packets are processed: the totals of the words are what the
shared counters hold. -/
structure Counts (n : Nat) (vals : Var → Word) : Prop where
  percpu_packets : vals .percpu_packets = packets
  percpu_bytes : vals .percpu_bytes = bytes
  shared_packets : vals .shared_packets = n
  shared_bytes : vals .shared_bytes = 1500 * n
  total_packets : Shards.total L.possible (fun cpu => vals (.packets cpu)) = n
  total_bytes : Shards.total L.possible (fun cpu => vals (.bytes cpu)) = 1500 * n

/-- The memory is that of some number of packets. -/
def Counting (s : State) : Prop :=
  ∃ vals n, WordMemory.Stores (L.addr packets bytes) L.Valid vals s.mem ∧
    L.Counts packets bytes n vals

end Layout

def bump (vals : Var → Word) (x : Var) (d : Word) : Var → Word :=
  Function.update vals x (vals x + d)

/-- What a packet makes of the variables. -/
def counted (vals : Var → Word) (cpu : Nat) : Var → Word :=
  bump (bump (bump (bump vals (.packets cpu) 1) (.bytes cpu) 1500) .shared_packets 1)
    .shared_bytes 1500

/-- The variable is a word of one of the CPUs. -/
def Var.of (cpus : List Nat) : Var → Bool
  | .packets cpu => cpus.contains cpu
  | .bytes cpu => cpus.contains cpu
  | _ => false

def cleared (cpus : List Nat) (vals : Var → Word) (x : Var) : Word :=
  if x.of cpus then 0 else vals x

theorem cleared_of {cpus : List Nat} {x : Var} (h : x.of cpus) {vals : Var → Word} :
    cleared cpus vals x = 0 := if_pos h

theorem counted_packets (vals : Var → Word) (cpu : Nat) :
    (fun c => counted vals cpu (.packets c)) =
      Function.update (fun c => vals (.packets c)) cpu (vals (.packets cpu) + 1) := by
  funext c
  by_cases h : c = cpu <;> simp [counted, bump, h, Function.update_of_ne]

theorem counted_bytes (vals : Var → Word) (cpu : Nat) :
    (fun c => counted vals cpu (.bytes c)) =
      Function.update (fun c => vals (.bytes c)) cpu (vals (.bytes cpu) + 1500) := by
  funext c
  by_cases h : c = cpu <;> simp [counted, bump, h, Function.update_of_ne]

section

variable {L : Layout} {packets bytes : Word} {vals : Var → Word} {cpu n : Nat}

theorem Layout.Counts.counted (hnodup : L.possible.Nodup) (hcpu : cpu ∈ L.possible)
    (h : L.Counts packets bytes n vals) : L.Counts packets bytes (n + 1) (counted vals cpu) where
  percpu_packets := h.percpu_packets
  percpu_bytes := h.percpu_bytes
  shared_packets := by
    show vals .shared_packets + 1 = _
    rw [h.shared_packets, Nat.cast_succ]
  shared_bytes := by
    show vals .shared_bytes + 1500 = _
    rw [h.shared_bytes, Nat.cast_succ, mul_add, mul_one]
  total_packets := by
    rw [counted_packets, Shards.total_update_add hnodup hcpu, h.total_packets, Nat.cast_succ]
  total_bytes := by
    rw [counted_bytes, Shards.total_update_add hnodup hcpu, h.total_bytes,
      Nat.cast_succ, mul_add, mul_one]

/-! ## The loops -/

variable {m : WordMemory}

section

variable (hapart : WordMemory.Apart (L.addr packets bytes) L.Valid)
  (hstores : WordMemory.Stores (L.addr packets bytes) L.Valid vals m)

include hapart hstores

theorem clear_eq (hcpu : cpu ∈ L.possible) (hp : vals .percpu_packets = packets)
    (hb : vals .percpu_bytes = bytes) :
    ∃ m', L.clear m cpu = some m' ∧
      WordMemory.Stores (L.addr packets bytes) L.Valid (cleared [cpu] vals) m' := by
  obtain ⟨m₁, (h₁ : m.store (L.per_cpu_ptr packets cpu) 0 = _), hm₁⟩ :=
    hstores.store hapart (.packets cpu) hcpu 0
  obtain ⟨m₂, (h₂ : m₁.store (L.per_cpu_ptr bytes cpu) 0 = _), hm₂⟩ :=
    hm₁.store hapart (.bytes cpu) hcpu 0
  have hload : m.load L.percpu_packets = some packets := hp ▸ hstores .percpu_packets trivial
  have hload₁ : m₁.load L.percpu_bytes = some bytes := hb ▸ hm₁ .percpu_bytes trivial
  have hvals : cleared [cpu] vals = Function.update (Function.update vals (.packets cpu) 0)
      (.bytes cpu) 0 := by
    funext x
    cases x <;> simp [cleared, Var.of, Function.update_apply]
  refine ⟨m₂, ?_, hvals ▸ hm₂⟩
  unfold Layout.clear
  simp only [hload, Option.bind_eq_bind, Option.bind_some, h₁, hload₁, h₂]

theorem process_eq (hcpu : cpu ∈ L.possible) {log : List (Nat × Word × Word)}
    (hpoints : L.Points packets bytes ⟨m, log⟩ cpu) :
    ∃ m', L.process ⟨m, log⟩ cpu = some ⟨m', log ++ [L.slots packets bytes cpu]⟩ ∧
      WordMemory.Stores (L.addr packets bytes) L.Valid (counted vals cpu) m' := by
  obtain ⟨m₁, (h₁ : m.modify (L.per_cpu_ptr packets cpu) _ = _), hm₁⟩ :=
    hstores.modify hapart (.packets cpu) hcpu (· + 1)
  obtain ⟨m₂, (h₂ : m₁.modify (L.per_cpu_ptr bytes cpu) _ = _), hm₂⟩ :=
    hm₁.modify hapart (.bytes cpu) hcpu (· + 1500)
  obtain ⟨m₃, (h₃ : m₂.modify L.shared_packets _ = _), hm₃⟩ :=
    hm₂.modify hapart .shared_packets trivial (· + 1)
  obtain ⟨m₄, (h₄ : m₃.modify L.shared_bytes _ = _), hm₄⟩ :=
    hm₃.modify hapart .shared_bytes trivial (· + 1500)
  refine ⟨m₄, ?_, hm₄⟩
  unfold Layout.process Layout.get_cpu_var
  simp only [hpoints.1, hpoints.2, Option.bind_eq_bind, Option.bind_some, h₁, h₂, h₃, h₄]
  rfl

theorem run_clear {cpus : List Nat} (hcpus : ∀ c ∈ cpus, c ∈ L.possible)
    (hp : vals .percpu_packets = packets) (hb : vals .percpu_bytes = bytes) :
    ∃ m', run L.clear m cpus = some m' ∧
      WordMemory.Stores (L.addr packets bytes) L.Valid (cleared cpus vals) m' := by
  induction cpus generalizing m vals with
  | nil =>
    have hvals : cleared [] vals = vals := by
      funext x
      cases x <;> rfl
    refine ⟨m, rfl, ?_⟩
    rw [hvals]
    exact hstores
  | cons cpu cpus ih =>
    obtain ⟨m₁, h₁, hm₁⟩ := clear_eq hapart hstores (hcpus cpu List.mem_cons_self) hp hb
    obtain ⟨m', hrun, hm'⟩ := ih hm₁ (fun c hc => hcpus c (List.mem_cons_of_mem _ hc)) hp hb
    have hvals : cleared cpus (cleared [cpu] vals) = cleared (cpu :: cpus) vals := by
      funext x
      cases x <;> simp [cleared, Var.of] <;> grind
    exact ⟨m', run_cons.2 ⟨m₁, h₁, hrun⟩, hvals ▸ hm'⟩

/-- Where the condition holds, the packets of a schedule are counted, in the words of their CPUs. -/
theorem run_process (hnodup : L.possible.Nodup) {schedule : List Nat}
    (hschedule : ∀ c ∈ schedule, c ∈ L.possible) (hcounts : L.Counts packets bytes n vals)
    {log : List (Nat × Word × Word)}
    (halong : Along L.process (L.Points packets bytes) ⟨m, log⟩ schedule) :
    ∃ m' vals', run L.process ⟨m, log⟩ schedule = some ⟨m',
      log ++ schedule.map (L.slots packets bytes)⟩ ∧
      WordMemory.Stores (L.addr packets bytes) L.Valid vals' m' ∧
      L.Counts packets bytes (n + schedule.length) vals' := by
  induction schedule generalizing m vals n log with
  | nil => exact ⟨m, vals, by rw [List.map_nil, List.append_nil, run_nil], hstores, hcounts⟩
  | cons cpu schedule ih =>
    have hcpu := hschedule cpu List.mem_cons_self
    obtain ⟨m₁, h₁, hm₁⟩ := process_eq hapart hstores hcpu halong.1
    obtain ⟨m', vals', hrun, hm', hcounts'⟩ :=
      ih hm₁ (fun c hc => hschedule c (List.mem_cons_of_mem _ hc))
      (hcounts.counted hnodup hcpu) (halong.2 _ h₁)
    refine ⟨m', vals', run_cons.2 ⟨_, h₁, ?_⟩, hm', ?_⟩
    · rw [hrun, List.map_cons, List.append_assoc, List.singleton_append]
    · rw [List.length_cons, ← Nat.succ_add_eq_add_succ]
      exact hcounts'

omit hapart in
theorem run_aggregate {cpus : List Nat} (hcpus : ∀ c ∈ cpus, c ∈ L.possible)
    (hp : vals .percpu_packets = packets) (hb : vals .percpu_bytes = bytes) (a b : Word) :
    run (L.aggregate m) (a, b) cpus =
      some (a + Shards.total cpus (fun c => vals (.packets c)),
        b + Shards.total cpus (fun c => vals (.bytes c))) := by
  induction cpus generalizing a b with
  | nil => simp [Shards.total]
  | cons cpu cpus ih =>
    have hcpu := hcpus cpu List.mem_cons_self
    have h₁ : m.load L.percpu_packets = some packets := hp ▸ hstores .percpu_packets trivial
    have h₂ : m.load (L.per_cpu_ptr packets cpu) = _ := hstores (.packets cpu) hcpu
    have h₃ : m.load L.percpu_bytes = some bytes := hb ▸ hstores .percpu_bytes trivial
    have h₄ : m.load (L.per_cpu_ptr bytes cpu) = _ := hstores (.bytes cpu) hcpu
    refine run_cons.2 ⟨(a + vals (.packets cpu), b + vals (.bytes cpu)), ?_, ?_⟩
    · unfold Layout.aggregate
      simp only [h₁, h₂, h₃, h₄, Option.bind_eq_bind, Option.bind_some]
      rfl
    · rw [ih fun c hc => hcpus c (List.mem_cons_of_mem _ hc), Shards.total_cons, Shards.total_cons,
        add_assoc, add_assoc]

omit hapart in
theorem report_eq (hcounts : L.Counts packets bytes n vals) (log : List (Nat × Word × Word)) :
    report L ⟨m, log⟩ = some (.reports ⟨n, 1500 * n, n, 1500 * n⟩ log) := by
  have hshared_packets : m.load L.shared_packets = some (n : Word) :=
    hcounts.shared_packets ▸ hstores .shared_packets trivial
  have hshared_bytes : m.load L.shared_bytes = some (1500 * n : Word) :=
    hcounts.shared_bytes ▸ hstores .shared_bytes trivial
  unfold report
  simp only [run_aggregate hstores (fun _ => id) hcounts.percpu_packets hcounts.percpu_bytes,
    zero_add, hcounts.total_packets, hcounts.total_bytes, hshared_packets, hshared_bytes,
    Option.bind_eq_bind, Option.bind_some]
  rfl

end

theorem process_cases {s s' : State} (h : L.process s cpu = some s') :
    ∃ p b, s.mem.load (L.per_cpu_ptr L.percpu_packets cpu) = some p ∧
      s.mem.load (L.per_cpu_ptr L.percpu_bytes cpu) = some b ∧
        s'.counted = s.counted ++ [(cpu, p, b)] := by
  unfold Layout.process Layout.get_cpu_var at h
  simp only [Option.bind_eq_bind, Option.bind_eq_some_iff] at h
  obtain ⟨p, hp, b, hb, _, -, _, -, _, -, _, -, h⟩ := h
  cases h
  exact ⟨p, b, hp, hb, rfl⟩

theorem counted_prefix {s t : State} {schedule : List Nat} (h : run L.process s schedule = some t) :
    s.counted <+: t.counted := by
  refine run_inv_of_step (I := fun t => s.counted <+: t.counted) (fun ht hstep => ?_)
    (List.prefix_refl _) h
  obtain ⟨p, b, -, -, hcounted⟩ := process_cases hstep
  exact hcounted ▸ ht.trans (List.prefix_append _ _)

theorem report_counted {s : State} {r : Report} {log : List (Nat × Word × Word)}
    (h : report L s = some (.reports r log)) : s.counted = log := by
  unfold report at h
  simp only [Option.bind_eq_bind, Option.bind_eq_some_iff] at h
  obtain ⟨_, -, _, -, _, -, h⟩ := h
  cases h
  rfl

/-- The words that are counted up are those of the CPUs only where the condition holds. -/
theorem along_of_counted {schedule : List Nat} {s t : State}
    (hrun : run L.process s schedule = some t)
    (hcounted : t.counted = s.counted ++ schedule.map (L.slots packets bytes)) :
    Along L.process (L.Points packets bytes) s schedule := by
  induction schedule generalizing s with
  | nil => trivial
  | cons cpu schedule ih =>
    obtain ⟨s', hstep, hrun⟩ := run_cons.1 hrun
    obtain ⟨p, b, hp, hb, hs'⟩ := process_cases hstep
    obtain ⟨rest, hrest⟩ := counted_prefix hrun
    have hlog : s.counted ++ ([(cpu, p, b)] ++ rest) = s.counted ++
        (cpu :: schedule).map (L.slots packets bytes) := by
      rw [← List.append_assoc, ← hs', hrest, hcounted]
    obtain ⟨hhead, htail⟩ := List.cons.inj (List.append_cancel_left hlog)
    cases hhead
    refine ⟨⟨hp, hb⟩, fun u hu => ?_⟩
    obtain rfl := Option.some.inj (hstep.symm.trans hu)
    exact ih hrun (hrest.symm.trans (congrArg (s'.counted ++ ·) htail))

end

/-! ## The totals -/

/-- The report is of `n` packets. -/
def Report.Agrees (r : Report) (n : Nat) : Prop :=
  r.total_packets = n ∧ r.total_bytes = 1500 * n ∧ r.shared_packets = r.total_packets ∧
    r.shared_bytes = r.total_bytes

/-- The state at the first packet. -/
def started (L : Layout) (packets bytes : Word) (m : WordMemory) : Option State := do
  let m ← m.store L.percpu_packets packets
  let m ← m.store L.percpu_bytes bytes
  let m ← run L.clear m L.possible
  return ⟨m, []⟩

section

variable {L : Layout} {packets bytes : Word} {m : WordMemory}

theorem started_eq (h : L.Allocated packets bytes m) :
    ∃ m' vals, started L packets bytes m = some ⟨m', []⟩ ∧
      WordMemory.Stores (L.addr packets bytes) L.Valid vals m' ∧ L.Counts packets bytes 0 vals := by
  have hstores : WordMemory.Stores (L.addr packets bytes) L.Valid
      (fun x => (m.load (L.addr packets bytes x)).getD 0) m := fun x hx => by
    obtain ⟨v, hv⟩ := Option.isSome_iff_exists.1 (h.mapped x hx)
    simp only [hv, Option.getD_some]
  obtain ⟨m₁, (h₁ : m.store L.percpu_packets packets = _), hm₁⟩ :=
    hstores.store h.apart .percpu_packets trivial packets
  obtain ⟨m₂, (h₂ : m₁.store L.percpu_bytes bytes = _), hm₂⟩ :=
    hm₁.store h.apart .percpu_bytes trivial bytes
  obtain ⟨m₃, h₃, hm₃⟩ := run_clear h.apart hm₂ (fun _ => id) rfl rfl
  refine ⟨m₃, _, ?_, hm₃, ?_⟩
  · unfold started
    simp only [h₁, h₂, h₃, Option.bind_eq_bind, Option.bind_some]
    rfl
  · refine ⟨rfl, rfl, ?_, ?_, Shards.total_eq_zero fun c hc => ?_, ?_⟩
    · show (m.load L.shared_packets).getD 0 = _
      rw [h.shared_packets]
      rfl
    · show (m.load L.shared_bytes).getD 0 = _
      rw [h.shared_bytes]
      rfl
    · exact cleared_of (x := .packets c) (List.contains_iff_mem.2 hc)
    · refine (Shards.total_eq_zero fun c hc => ?_).trans (mul_zero 1500).symm
      exact cleared_of (x := .bytes c) (List.contains_iff_mem.2 hc)

theorem init_eq (hp : packets ≠ 0) (hb : bytes ≠ 0) (schedule : List Nat) :
    percpu_scalability_init L packets bytes schedule m =
      (started L packets bytes m).bind fun s => (run L.process s schedule).bind (report L) := by
  unfold percpu_scalability_init started
  simp only [hp, hb, or_self, if_false, Option.bind_eq_bind, Option.bind_assoc]
  rfl

theorem reports_of_along (h : L.Allocated packets bytes m) {s : State}
    (hs : started L packets bytes m = some s) {schedule : List Nat}
    (hschedule : ∀ cpu ∈ schedule, cpu ∈ L.possible)
    (halong : Along L.process (L.Points packets bytes) s schedule) :
    ∃ r, percpu_scalability_init L packets bytes schedule m =
      some (.reports r (schedule.map (L.slots packets bytes))) ∧ r.Agrees schedule.length := by
  obtain ⟨m', vals, hstarted, hstores, hcounts⟩ := started_eq h
  obtain rfl := Option.some.inj (hstarted.symm.trans hs)
  obtain ⟨t, vals', hrun, hstores', hcounts'⟩ :=
    run_process h.apart hstores h.nodup hschedule hcounts halong
  rw [Nat.zero_add] at hcounts'
  rw [init_eq h.packets_ne h.bytes_ne, hstarted, Option.bind_some, hrun, Option.bind_some,
    report_eq hstores' hcounts']
  exact ⟨_, rfl, rfl, rfl, rfl, rfl⟩

/-- **The totals agree** where the words that lie the offset behind the variables point to the words
of the CPU, and only there: then the reports are of all packets, each counted in the words of its
CPU. -/
theorem totals_agree_iff (h : L.Allocated packets bytes m) {schedule : List Nat}
    (hschedule : ∀ cpu ∈ schedule, cpu ∈ L.possible) :
    ∃ s, started L packets bytes m = some s ∧
      ((∃ r, percpu_scalability_init L packets bytes schedule m =
            some (.reports r (schedule.map (L.slots packets bytes))) ∧ r.Agrees schedule.length) ↔
        Along L.process (L.Points packets bytes) s schedule) := by
  obtain ⟨m', vals, hstarted, -, -⟩ := started_eq h
  refine ⟨⟨m', []⟩, hstarted, fun ⟨r, hreports, _⟩ => ?_, reports_of_along h hstarted hschedule⟩
  rw [init_eq h.packets_ne h.bytes_ne, hstarted, Option.bind_some] at hreports
  obtain ⟨t, hrun, hreport⟩ := Option.bind_eq_some_iff.1 hreports
  exact along_of_counted hrun (report_counted hreport)

/-- On a CPU whose offset is zero the words are the variables themselves, which point to the
areas. -/
theorem Layout.Counting.points {s : State} {cpu : Nat} (h : L.Counting packets bytes s)
    (hoffset : L.per_cpu_offset cpu = 0) : L.Points packets bytes s cpu := by
  obtain ⟨vals, n, hstores, hcounts⟩ := h
  have hptr : ∀ p : Word, L.per_cpu_ptr p cpu = p := fun p => by rw [per_cpu_ptr, hoffset, add_zero]
  unfold Points
  rw [hptr, hptr, hptr, hptr]
  exact ⟨hcounts.percpu_packets ▸ hstores .percpu_packets trivial,
    hcounts.percpu_bytes ▸ hstores .percpu_bytes trivial⟩

/-- So the totals agree where no CPU has an offset. -/
theorem agrees_of_no_offset (h : L.Allocated packets bytes m) {schedule : List Nat}
    (hschedule : ∀ cpu ∈ schedule, cpu ∈ L.possible ∧ L.per_cpu_offset cpu = 0) :
    ∃ r, percpu_scalability_init L packets bytes schedule m =
      some (.reports r (schedule.map (L.slots packets bytes))) ∧ r.Agrees schedule.length := by
  obtain ⟨m', vals, hstarted, hstores, hcounts⟩ := started_eq h
  refine reports_of_along h hstarted (fun cpu hcpu => (hschedule cpu hcpu).1) ?_
  have htrue : Along L.process (fun _ _ => True) ⟨m', []⟩ schedule :=
    Along.of_forall (fun _ _ => trivial) schedule _
  refine Along.imp_of_inv (J := L.Counting packets bytes) (fun hj hC => hj.points hC.2.2)
    (fun {s cpu s'} hj hC hstep => ?_) ⟨vals, 0, hstores, hcounts⟩
    (htrue.and_forall hschedule)
  have hpoint := hj.points hC.2.2
  obtain ⟨vals, n, hstores, hcounts⟩ := hj
  obtain ⟨m'', hstep', hstores'⟩ := process_eq h.apart hstores hC.2.1 hpoint
  obtain rfl := Option.some.inj (hstep'.symm.trans hstep)
  exact ⟨_, n + 1, hstores', hcounts.counted h.nodup hC.2.1⟩

end

/-! ## Two CPUs -/

/-- The static variables from `0x100` on. -/
def layout (possible : List Nat) (per_cpu_offset : Nat → Word) : Layout :=
  ⟨possible, per_cpu_offset, 0x100, 0x108, 0x110, 0x118⟩

/-- The second one has an offset. -/
def oneOffset : Layout := layout [0, 1] fun cpu => if cpu = 0 then 0 else 0x1000

/-- What lies this offset behind the variables points to the words of the second CPU. -/
def oneOffsetMem : WordMemory :=
  .ofWords [(0x100, 0), (0x108, 0), (0x110, 0), (0x118, 0), (0x2000, 7), (0x2008, 7), (0x3000, 7),
    (0x3008, 7), (0x1100, 0x3000), (0x1108, 0x3008)] rfl

theorem oneOffset_allocated : oneOffset.Allocated 0x2000 0x2008 oneOffsetMem where
  nodup := by decide
  packets_ne := by decide
  bytes_ne := by decide
  apart := apart_of_nodup (by decide)
  mapped := isSome_of_vars (by decide)
  shared_packets := rfl
  shared_bytes := rfl

theorem oneOffset_agrees :
    ∃ r, percpu_scalability_init oneOffset 0x2000 0x2008 [0, 1, 1, 0] oneOffsetMem =
      some (.reports r ([0, 1, 1, 0].map (oneOffset.slots 0x2000 0x2008))) ∧ r.Agrees 4 := by
  obtain ⟨s, hs, hiff⟩ := totals_agree_iff oneOffset_allocated
    (by decide : ∀ cpu ∈ [0, 1, 1, 0], cpu ∈ oneOffset.possible)
  obtain rfl := Option.some.inj hs
  exact hiff.2 (by decide)

/-- Two CPUs, each with an offset. -/
def twoCpus : Layout := layout [0, 1] fun cpu => if cpu = 0 then 0x1000 else 0x2000

/-- What lies the offset of the first CPU behind the variables points to words of something else. -/
def twoMem : WordMemory :=
  .ofWords [(0x100, 0), (0x108, 0), (0x110, 0), (0x118, 0), (0x9000, 7), (0x9008, 7),
    (0xa000, 7), (0xa008, 7),
    (0x1100, 0x5000), (0x1108, 0x5008), (0x5000, 41), (0x5008, 41)] rfl

theorem twoCpus_allocated : twoCpus.Allocated 0x8000 0x8008 twoMem where
  nodup := by decide
  packets_ne := by decide
  bytes_ne := by decide
  apart := apart_of_nodup (by decide)
  mapped := isSome_of_vars (by decide)
  shared_packets := rfl
  shared_bytes := rfl

/-- A packet on the first CPU is counted in none of the words of the CPUs, and the totals differ. -/
theorem twoCpus_disagree : twoCpus.Allocated 0x8000 0x8008 twoMem ∧
    ∃ r counted,
      percpu_scalability_init twoCpus 0x8000 0x8008 [0] twoMem = some (.reports r counted) ∧
      counted ≠ [0].map (twoCpus.slots 0x8000 0x8008) ∧ ¬ r.Agrees 1 := by
  refine ⟨twoCpus_allocated, ⟨0, 0, 1, 1500⟩, [(0, 0x5000, 0x5008)], by rfl, by decide, fun h => ?_⟩
  exact absurd h.1 (by decide)

end LinuxKernelProg.Mm.Scalability
