import LinuxKernelProg.Lib.Run
import LinuxKernelProg.Vm.Frame

/-!
# The userwalk file

`vaddr_write` of `p3_usertrans/userwalk.c`, called by any number of processes at the same time. Each
call is a thread whose steps are the parsing of the address, the store to the global `target_task`,
the test of `target_task` and `target_task->mm`, the validation and the walk; the last three read
`target_task` again. Between the steps the address spaces and the memory may change in any way.

`records` is kept for the statements only: the processes that stored to `target_task`, latest first.
-/

namespace LinuxKernelProg.Vm

open LinuxKernelProg.Lib

def ESRCH : Int := 3
def ERANGE : Int := 34

/-! ## Parsing -/

/-- The digit that `_parse_integer` reads with the base 16. -/
def hexDigit (c : UInt8) : Option Nat :=
  let lc := c ||| 0x20
  if 48 ≤ c && c ≤ 57 then some (c.toNat - 48)
  else if 97 ≤ lc && lc ≤ 102 then some (lc.toNat - 97 + 10)
  else none

/-- The value, the number of the digits, and what is behind them. -/
def parse_integer : List UInt8 → Nat → Nat → Nat × Nat × List UInt8
  | [], res, rv => (res, rv, [])
  | c :: s, res, rv =>
    match hexDigit c with
    | some val => parse_integer s (res * 16 + val) (rv + 1)
    | none => (res, rv, c :: s)

/-- `kstrtoul(s, 16, &res)` on the bytes in front of the NUL. -/
def kstrtoul (s : List UInt8) : Except Int Word :=
  let s := if s.head? = some 43 then s.tail else s
  let s := match s with
    | 48 :: x :: s' => if x ||| 0x20 = 120 then s' else s
    | _ => s
  let (res, rv, s) := parse_integer s 0 0
  if 2 ^ 64 ≤ res then .error (-ERANGE)
  else if rv = 0 then .error (-EINVAL)
  else
    let s := if s.head? = some 10 then s.tail else s
    if s = [] then .ok (BitVec.ofNat 64 res) else .error (-EINVAL)

/-! ## Validation -/

/-- The first area that ends above the address. -/
def find_vma (mm : mm_struct) (vaddr : Word) : Option vm_area_struct :=
  mm.mmap.find? fun vma => vaddr < vma.vm_end

def validate_user_address (mm : Option mm_struct) (vaddr : Word) : Int :=
  match mm with
  | none => -EINVAL
  | some mm =>
    match find_vma mm vaddr with
    | none => -EFAULT
    | some vma => if vaddr < vma.vm_start then -EFAULT else 0

/-! ## The calls -/

def MAX_ADDR_LEN : Nat := 32

/-- Where a call is. `own` is how many stores to `target_task` there were after its own. -/
inductive Pc where
  | start
  | parsed (vaddr : Word)
  | recorded (vaddr : Word) (own : Nat)
  | checked (vaddr : Word) (own : Nat)
  | validated (vaddr : Word) (own : Nat)
  | done (ret : Int)

/-- `vaddr_write(file, user_buf, count, ppos)` by the process `current`. -/
structure Call where
  current : Nat
  count : Nat
  /-- The bytes at `user_buf`; `none` when `copy_from_user` faults. -/
  user_buf : Option (List UInt8)
  pc : Pc

structure State where
  target_task : Option Nat
  status_buffer : String
  mms : Nat → mm_struct
  mem : Memory
  calls : List Call
  records : List Nat

def State.init (mms : Nat → mm_struct) (mem : Memory) : State :=
  ⟨none, "Ready: Waiting for userspace addresses\n", mms, mem, [], []⟩

section

-- `mm t` is `t->mm`, an index into the address spaces
variable (mm : Nat → Option Nat)

/-- `target_task->mm` -/
def State.target_mm (s : State) : Option Nat := s.target_task.bind mm

/-- Lines 263-279. -/
def Call.parse (c : Call) (s : State) : State × Pc :=
  if MAX_ADDR_LEN ≤ c.count then (s, .done (-EINVAL))
  else
    match c.user_buf with
    | none => (s, .done (-EFAULT))
    | some user_buf =>
      match kstrtoul ((user_buf.take c.count).takeWhile (· ≠ 0)) with
      | .error ret => ({ s with status_buffer := "Error: Invalid address format\n" }, .done ret)
      | .ok vaddr => (s, .parsed vaddr)

/-- One step of `vaddr_write`. -/
def Call.step (c : Call) (s : State) : Option (State × Pc) :=
  match c.pc with
  | .start => some (c.parse s)
  | .parsed vaddr =>
    some ({ s with target_task := some c.current, records := c.current :: s.records },
      .recorded vaddr (s.records.length + 1))
  | .recorded vaddr own =>
    match s.target_mm mm with
    | none =>
      some ({ s with status_buffer := "Error: No valid process context\n" }, .done (-ESRCH))
    | some _ => some (s, .checked vaddr own)
  | .checked vaddr own =>
    let ret := validate_user_address ((s.target_mm mm).map s.mms) vaddr
    if ret ≠ 0 then
      some ({ s with
        status_buffer := "Error: Address validation failed (" ++ toString ret ++ ")\n" }, .done ret)
    else some (s, .validated vaddr own)
  | .validated vaddr _ =>
    (walk_userspace_page_table ((s.target_mm mm).map s.mms) vaddr s.mem).map fun (ret, w) =>
      ({ s with
        mem := w.mem
        status_buffer :=
          if ret ≠ 0 then "Error: Page table walk failed (" ++ toString ret ++ ")\n"
          else "Success: Address translation completed\n" }, .done c.count)
  | .done _ => none

inductive Action where
  | write (current count : Nat) (user_buf : Option (List UInt8))
  | run (t : Nat)
  /-- The processes and the kernel change address spaces and memory. -/
  | change (mms : Nat → mm_struct) (mem : Memory)

def State.step (s : State) : Action → Option State
  | .write current count user_buf =>
    some { s with calls := s.calls ++ [⟨current, count, user_buf, .start⟩] }
  | .run t => do
    let c ← s.calls[t]?
    let (s', pc) ← c.step mm s
    some { s' with calls := s.calls.set t { c with pc := pc } }
  | .change mms mem => some { s with mms := mms, mem := mem }

/-! ## Whose address space a call uses -/

/-- The byte is in a page that the address space maps. -/
def Mapped (mm : mm_struct) (p : Nat) : Prop :=
  ∃ vaddr l, (ending (pgd_offset mm vaddr) vaddr).leaf? = some l ∧
    page_address l.pfn ≤ p ∧ p < page_address l.pfn + 2 ^ l.size.shift

/-- The address space that the next step of a call validates or walks. -/
def Call.uses (c : Call) (s : State) : Option (Option Nat) :=
  match c.pc with
  | .checked _ _ => some (s.target_mm mm)
  | .validated _ _ => some (s.target_mm mm)
  | _ => none

/-- A step of a call validates and walks the address space of its own process only, and the bytes
it changes are in pages of that address space. -/
def Call.Confined (c : Call) (s s' : State) : Prop :=
  (∀ m, c.uses mm s = some m → m = mm c.current) ∧
    ∀ p, s'.mem p ≠ s.mem p → ∃ m, mm c.current = some m ∧ Mapped (s.mms m) p

def Confined (s : State) (a : Action) (s' : State) : Prop :=
  match a with
  | .run t => ∀ c, s.calls[t]? = some c → c.Confined mm s s'
  | _ => True

/-- Every step the run takes. -/
def ConfinedRun (s₀ : State) (as : List Action) : Prop :=
  ∀ i a s s', as[i]? = some a → run (State.step mm) s₀ (as.take i) = some s →
    s.step mm a = some s' → Confined mm s a s'

/-- The process that stored to `target_task` last since the call's own store, if there is one, has
the call's address space. -/
def SameSpace (s : State) (current own : Nat) : Prop :=
  ∀ q, (s.records.take (s.records.length - own)).head? = some q → mm q = mm current

/-- The letters that the loop of a walk looks at are in pages of the address space. -/
def Inside (mm : mm_struct) (vaddr : Word) (mem : Memory) : Prop :=
  ∀ l, (ending (pgd_offset mm vaddr) vaddr).leaf? = some l → l.size ≠ .size1G →
    ∀ p, Scanned 9 mem (l.address vaddr) p → islower (mem p) = true → Mapped mm p

def Call.Own (c : Call) (s : State) : Prop :=
  match c.pc with
  | .checked _ own => SameSpace mm s c.current own
  | .validated vaddr own => SameSpace mm s c.current own ∧
      ∀ m, mm c.current = some m → Inside (s.mms m) vaddr s.mem
  | _ => True

def Own (s : State) (a : Action) : Prop :=
  match a with
  | .run t => ∀ c, s.calls[t]? = some c → c.Own mm s
  | _ => True

end

/-! ## The global `target_task` -/

def Pc.own? : Pc → Option Nat
  | .recorded _ n => some n
  | .checked _ n => some n
  | .validated _ n => some n
  | _ => none

/-- `target_task` is what was stored last, and every call has its own store behind it. -/
structure Recorded (s : State) : Prop where
  last : s.target_task = s.records.head?
  own : ∀ c ∈ s.calls, ∀ n, c.pc.own? = some n →
    1 ≤ n ∧ n ≤ s.records.length ∧ s.records[s.records.length - n]? = some c.current

section

variable {mm : Nat → Option Nat} {s s' : State}

theorem Recorded.init (mms : Nat → mm_struct) (mem : Memory) : Recorded (State.init mms mem) :=
  ⟨rfl, by simp [State.init]⟩

theorem Call.step_records {c : Call} {pc : Pc} (h : c.step mm s = some (s', pc)) :
    s'.calls = s.calls ∧
      (s'.records = s.records ∧ s'.target_task = s.target_task ∧
          (∀ n, pc.own? = some n → c.pc.own? = some n) ∨
        s'.records = c.current :: s.records ∧ s'.target_task = some c.current ∧
          pc.own? = some (s.records.length + 1)) := by
  obtain ⟨current, count, user_buf, pc₀⟩ := c
  cases pc₀ <;> simp only [Call.step, reduceCtorEq, Option.some.injEq] at h
  case start =>
    unfold Call.parse at h
    split at h
    · cases h
      simp [Pc.own?]
    · split at h
      · cases h
        simp [Pc.own?]
      · split at h <;> cases h <;> simp [Pc.own?]
  case parsed vaddr =>
    cases h
    simp [Pc.own?]
  case recorded vaddr own => split at h <;> cases h <;> simp [Pc.own?]
  case checked vaddr own => split at h <;> cases h <;> simp [Pc.own?]
  case validated vaddr own =>
    obtain ⟨⟨ret, w⟩, -, h⟩ := Option.map_eq_some_iff.1 h
    cases h
    simp [Pc.own?]

/-- The step of a call. -/
theorem State.run_cases {t : Nat} (hs : s.step mm (.run t) = some s') :
    ∃ c s₁ pc, s.calls[t]? = some c ∧ c.step mm s = some (s₁, pc) ∧
      s' = { s₁ with calls := s.calls.set t { c with pc := pc } } := by
  simp only [State.step, Option.bind_eq_bind, Option.bind_eq_some_iff, Option.some.injEq] at hs
  obtain ⟨c, hc, ⟨s₁, pc⟩, hstep, rfl⟩ := hs
  exact ⟨c, s₁, pc, hc, hstep, rfl⟩

theorem Recorded.step {a : Action} (h : Recorded s) (hs : s.step mm a = some s') :
    Recorded s' := by
  cases a with
  | change mms mem =>
    cases hs
    exact ⟨h.last, h.own⟩
  | write current count user_buf =>
    cases hs
    refine ⟨h.last, fun c hc n hn => ?_⟩
    rcases List.mem_append.1 hc with hc | hc
    · exact h.own c hc n hn
    · rw [List.mem_singleton.1 hc] at hn
      cases hn
  | run t =>
    obtain ⟨c, s₁, pc, hc, hstep, rfl⟩ := State.run_cases hs
    obtain ⟨hcalls, hrec⟩ := Call.step_records hstep
    have hmem := List.mem_of_getElem? hc
    rcases hrec with ⟨hr, ht, hpc⟩ | ⟨hr, ht, hpc⟩
    · refine ⟨by simpa [hr, ht] using h.last, fun x hx n hn => ?_⟩
      simp only [hr] at hx ⊢
      rcases List.mem_or_eq_of_mem_set hx with hx | rfl
      · exact h.own x hx n hn
      · exact h.own c hmem n (hpc n hn)
    · refine ⟨by simp [hr, ht], fun x hx n hn => ?_⟩
      simp only [hr, List.length_cons] at hx ⊢
      rcases List.mem_or_eq_of_mem_set hx with hx | rfl
      · obtain ⟨h₁, h₂, h₃⟩ := h.own x hx n hn
        refine ⟨h₁, by omega, ?_⟩
        rw [show s.records.length + 1 - n = s.records.length - n + 1 by omega]
        exact h₃
      · rw [hpc, Option.some.injEq] at hn
        subst hn
        simp

/-- When a call uses the address space of its own process. -/
theorem Recorded.sameSpace_iff (h : Recorded s) {c : Call} (hc : c ∈ s.calls) {n : Nat}
    (hn : c.pc.own? = some n) : SameSpace mm s c.current n ↔ s.target_mm mm = mm c.current := by
  obtain ⟨h₁, h₂, h₃⟩ := h.own c hc n hn
  simp only [SameSpace, State.target_mm, h.last]
  cases hr : s.records with
  | nil =>
    rw [hr] at h₂
    simp at h₂
    omega
  | cons q qs =>
    rw [hr] at h₂ h₃
    by_cases hlen : n = (q :: qs).length
    · -- its own store was the last one
      simp only [hlen, Nat.sub_self, List.getElem?_cons_zero, Option.some.injEq] at h₃
      simp [hlen, h₃]
    · obtain ⟨k, hk⟩ : ∃ k, (q :: qs).length - n = k + 1 :=
        Nat.exists_eq_succ_of_ne_zero (by omega)
      rw [hk]
      simp

/-- A walk changes bytes of mapped pages only when the letters its loop looks at are in them. -/
theorem walk_mapped_iff {m : mm_struct} {vaddr : Word} {mem : Memory} {ret : Int} {w : Walk}
    (h : walk_userspace_page_table (some m) vaddr mem = some (ret, w)) :
    (∀ p, w.mem p ≠ mem p → Mapped m p) ↔ Inside m vaddr mem := by
  unfold Inside
  rcases walk_userspace_page_table_cases m vaddr mem with ⟨l, hl, hw⟩ | ⟨hl, hw⟩
  · rw [hw] at h
    cases h
    simp only [hl, Option.some.injEq, forall_eq', walkAt_changed_iff]
    exact ⟨fun hp hsz p hs hlow => hp p ⟨hsz, hs, hlow⟩,
      fun hp p ⟨hsz, hs, hlow⟩ => hp hsz p hs hlow⟩
  · rw [hw] at h
    cases h
    simp [hl, Walk.error]

/-- One step of a call. -/
theorem Recorded.call_confined_iff (h : Recorded s) {c : Call} (hc : c ∈ s.calls) {pc : Pc}
    (hs : c.step mm s = some (s', pc)) : c.Confined mm s s' ↔ c.Own mm s := by
  have hspace : ∀ n, c.pc.own? = some n →
      (SameSpace mm s c.current n ↔ s.target_mm mm = mm c.current) :=
    fun n hn => h.sameSpace_iff hc hn
  obtain ⟨current, count, user_buf, pc₀⟩ := c
  cases pc₀ <;> simp only [Call.step, reduceCtorEq, Option.some.injEq] at hs
  case start =>
    have hmem : s'.mem = s.mem := by
      unfold Call.parse at hs
      split at hs
      · cases hs
        rfl
      · split at hs
        · cases hs
          rfl
        · split at hs <;> cases hs <;> rfl
    simp [Call.Confined, Call.Own, Call.uses, hmem]
  case parsed vaddr =>
    cases hs
    simp [Call.Confined, Call.Own, Call.uses]
  case recorded vaddr own =>
    split at hs <;> cases hs <;> simp [Call.Confined, Call.Own, Call.uses]
  case checked vaddr own =>
    have hmem : s'.mem = s.mem := by
      split at hs <;> cases hs <;> rfl
    simp [Call.Confined, Call.Own, Call.uses, hmem, hspace own rfl]
  case validated vaddr own =>
    obtain ⟨⟨ret, w⟩, hw, hs⟩ := Option.map_eq_some_iff.1 hs
    cases hs
    simp only [Call.Confined, Call.Own, Call.uses, Option.some.injEq, forall_eq', hspace own rfl]
    refine and_congr_right fun hm => ?_
    rw [hm] at hw
    cases hcur : mm current with
    | none =>
      rw [hcur] at hw
      cases hw
      simp [Walk.error]
    | some m =>
      rw [hcur] at hw
      simpa using walk_mapped_iff hw

/-- The walk of a call does not fault. -/
theorem Call.step_isSome {c : Call} (h : c.Own mm s → False) : (c.step mm s).isSome := by
  obtain ⟨current, count, user_buf, pc⟩ := c
  cases pc with
  | checked vaddr own =>
    simp only [Call.step]
    split <;> rfl
  | validated vaddr own =>
    simp only [Call.step, Option.isSome_map]
    cases s.target_mm mm with
    | none => rfl
    | some m =>
      rw [Option.map_some, walk_userspace_page_table_eq]
      rfl
  | _ => exact absurd trivial h

/-- One step of the system. -/
theorem Recorded.confined_iff {a : Action} (h : Recorded s) :
    (∀ s', s.step mm a = some s' → Confined mm s a s') ↔ Own mm s a := by
  cases a with
  | change mms mem => simp [Confined, Own]
  | write current count user_buf => simp [Confined, Own]
  | run t =>
    cases hc : s.calls[t]? with
    | none => simp [State.step, Own, hc]
    | some c =>
      have hmem := List.mem_of_getElem? hc
      simp only [Confined, Own, hc, Option.some.injEq, forall_eq']
      cases hstep : c.step mm s with
      | none =>
        simp only [State.step, hc, hstep, Option.bind_eq_bind, Option.bind_some, Option.bind_none,
          reduceCtorEq, false_implies, implies_true, true_iff]
        by_contra hown
        simpa [hstep] using Call.step_isSome hown
      | some r =>
        obtain ⟨s₁, pc⟩ := r
        rw [← h.call_confined_iff hmem hstep]
        simp [State.step, hc, hstep, Call.Confined]

/-- **Whose address space is used.** A run is confined exactly when at every validation and walk
nobody with another address space was the last to store to `target_task` since the call's own
store, and the letters that the loop of the walk looks at are in mapped pages. -/
theorem confinedRun_iff (mm : Nat → Option Nat) (mms : Nat → mm_struct) (mem : Memory)
    (as : List Action) :
    ConfinedRun mm (State.init mms mem) as ↔
      Along (State.step mm) (Own mm) (State.init mms mem) as := by
  have hrec : ∀ i s, run (State.step mm) (State.init mms mem) (as.take i) = some s → Recorded s :=
    fun i s hs => run_inv_of_step (fun h hs => h.step hs) (Recorded.init mms mem) hs
  constructor
  · intro h
    refine Along.of_get fun i a s ha hs => ?_
    exact (hrec i s hs).confined_iff.1 fun s' hs' => h i a s s' ha hs hs'
  · intro h i a s s' ha hs hs'
    exact (hrec i s hs).confined_iff.2 (h.get ha hs) s' hs'

/-- Process 2 stores to `target_task` after process 1 has tested it: the call of process 1 validates
the address space of process 2. -/
theorem crossed_calls :
    ¬ ∀ (mm : Nat → Option Nat) (mms : Nat → mm_struct) (mem : Memory) (as : List Action),
      ConfinedRun mm (State.init mms mem) as := by
  intro h
  let mms : Nat → mm_struct := fun _ => .ofPte ⟨0x1067, by decide⟩
  let as : List Action := [.write 1 1 (some [48]), .write 2 1 (some [48]), .run 0, .run 1, .run 0,
    .run 0, .run 1, .run 0]
  have hrun : (run (State.step some) (State.init mms fun _ => 0) (as.take 7)).map
      (fun s => (s.calls[0]?.map fun c => (c.current, c.uses some s),
        (s.step some (.run 0)).isSome)) =
      some (some (1, some (some 2)), true) := by decide
  obtain ⟨s, hs, he⟩ := Option.map_eq_some_iff.1 hrun
  obtain ⟨hcall, hstep⟩ := Prod.mk.inj he
  obtain ⟨c, hc, he⟩ := Option.map_eq_some_iff.1 hcall
  obtain ⟨hcur, huses⟩ := Prod.mk.inj he
  obtain ⟨s', hs'⟩ := Option.isSome_iff_exists.1 hstep
  have hconf := (h some mms (fun _ => 0) as 7 (.run 0) s s' rfl hs hs' c hc).1 (some 2) huses
  rw [hcur] at hconf
  exact absurd hconf (by decide)

end

end LinuxKernelProg.Vm
