import LinuxKernelProg.Vm.Userwalk

/-!
# The status of a write

`vaddr_write` of `p3_usertrans/userwalk.c` says twice whether it has translated the address: in the
status buffer, and in what it returns. A write that is too long, or that cannot be read, returns
with the status of the one before; and one whose walk fails returns as if it had not.
-/

namespace LinuxKernelProg.Vm

open LinuxKernelProg.Lib

def status_read (s : State) : List Char := s.status_buffer.toList

def SaysError (s : State) : Prop := "Error".toList <+: status_read s

/-- The bytes are read, and are the digits of an address. -/
def Call.vaddr? (c : Call) : Option Word :=
  if MAX_ADDR_LEN ≤ c.count then none
  else c.user_buf.bind fun user_buf =>
    (kstrtoul ((user_buf.take c.count).takeWhile (· ≠ 0))).toOption

section

variable (mm : Nat → Option Nat)

/-- The leaf that the tables lead to. -/
def State.leaf? (s : State) (vaddr : Word) : Option Leaf :=
  (s.target_mm mm).bind fun m => (ending (pgd_offset (s.mms m) vaddr) vaddr).leaf?

/-- The address is not translated, at the stage where the call is. -/
def Call.Fails (c : Call) (s : State) : Prop :=
  match c.pc with
  | .start => c.vaddr? = none
  | .parsed _ => False
  | .recorded _ _ => s.target_mm mm = none
  | .checked vaddr _ => validate_user_address ((s.target_mm mm).map s.mms) vaddr ≠ 0
  | .validated vaddr _ => s.leaf? mm vaddr = none
  | .done _ => False

/-- A call that returns has failed if the status says so, and if it returns a negative value, and
only then. -/
def Call.Told (c : Call) (s s' : State) : Pc → Prop
  | .done ret => (SaysError s' ↔ c.Fails mm s) ∧ (ret < 0 ↔ c.Fails mm s)
  | _ => True

/-- Every write of the run. -/
def ToldRun (s₀ : State) (as : List Action) : Prop :=
  ∀ i t s s', as[i]? = some (.run t) → run (State.step mm) s₀ (as.take i) = some s →
    s.step mm (.run t) = some s' →
    ∀ c c', s.calls[t]? = some c → s'.calls[t]? = some c' → c.Told mm s s' c'.pc

/-- A write that is not read finds an error, and a walk finds a leaf. -/
def Call.Tells (c : Call) (s : State) : Prop :=
  match c.pc with
  | .start => MAX_ADDR_LEN ≤ c.count ∨ c.user_buf = none → SaysError s
  | .validated vaddr _ => (s.leaf? mm vaddr).isSome
  | _ => True

def Tells (s : State) : Action → Prop
  | .run t => ∀ c, s.calls[t]? = some c → c.Tells mm s
  | _ => True

end

section

variable {mm : Nat → Option Nat} {s s' : State} {c : Call} {pc : Pc}

theorem saysError_append (rest : String) (h : s.status_buffer = "Error" ++ rest) : SaysError s := by
  unfold SaysError status_read
  rw [h, String.toList_append]
  exact List.prefix_append _ _

/-- "Success" and "Ready" are no errors. -/
theorem not_saysError {l : List Char} (h : s.status_buffer.toList = l)
    (hl : ¬ "Error".toList <+: l) : ¬ SaysError s := by
  unfold SaysError status_read
  rwa [h]

theorem kstrtoul_error {text : List UInt8} {ret : Int} (h : kstrtoul text = .error ret) :
    ret < 0 := by
  have hrange : -ERANGE < 0 := by decide
  have hinval : -EINVAL < 0 := by decide
  unfold kstrtoul at h
  grind

theorem validate_neg (m : Option mm_struct) (vaddr : Word) (h : validate_user_address m vaddr ≠ 0) :
    validate_user_address m vaddr < 0 := by
  have hinval : -EINVAL < 0 := by decide
  have hfault : -EFAULT < 0 := by decide
  unfold validate_user_address at h ⊢
  grind

/-- The walk returns an error exactly when it finds no leaf. -/
theorem State.walk_cases (mm : Nat → Option Nat) (s : State) (vaddr : Word) :
    ∃ ret w, walk_userspace_page_table ((s.target_mm mm).map s.mms) vaddr s.mem = some (ret, w) ∧
      (ret = 0 ↔ (s.leaf? mm vaddr).isSome) := by
  unfold State.leaf?
  cases s.target_mm mm with
  | none => exact ⟨_, _, rfl, by simp [EINVAL]⟩
  | some m =>
    rcases walk_userspace_page_table_cases (s.mms m) vaddr s.mem with ⟨l, hl, hw⟩ | ⟨hl, hw⟩
    · exact ⟨_, _, hw, by simp [hl]⟩
    · refine ⟨_, _, hw, ?_⟩
      rw [Option.bind_some, hl]
      decide

/-! ## One step -/

theorem Call.parse_told_iff (hpc : c.pc = .start) :
    c.Told mm s (c.parse s).1 (c.parse s).2 ↔ c.Tells mm s := by
  have hf : c.Fails mm s ↔ c.vaddr? = none := by
    unfold Call.Fails
    rw [hpc]
  have ht : c.Tells mm s ↔ (MAX_ADDR_LEN ≤ c.count ∨ c.user_buf = none → SaysError s) := by
    unfold Call.Tells
    rw [hpc]
  rw [ht]
  unfold Call.vaddr? at hf
  unfold Call.parse
  split
  · rename_i hlen
    -- the status is the one before
    have hfail : c.Fails mm s := hf.2 (if_pos hlen)
    simp only [Call.Told, hfail, iff_true, hlen, true_or, forall_const, and_iff_left_iff_imp]
    intro _
    decide
  · rename_i hlen
    rw [if_neg hlen] at hf
    cases hbuf : c.user_buf with
    | none =>
      have hfail : c.Fails mm s := hf.2 (by rw [hbuf]; rfl)
      simp only [Call.Told, hfail, iff_true, or_true, forall_const, and_iff_left_iff_imp]
      intro _
      decide
    | some user_buf =>
      rw [hbuf, Option.bind_some] at hf
      have htells : MAX_ADDR_LEN ≤ c.count ∨ some user_buf = none → SaysError s := by simp [hlen]
      rw [iff_true_right htells]
      dsimp only
      cases hk : kstrtoul ((user_buf.take c.count).takeWhile (· ≠ 0)) with
      | ok vaddr => trivial
      | error ret =>
        have hfail : c.Fails mm s := hf.2 (by rw [hk]; rfl)
        exact ⟨iff_of_true (saysError_append ": Invalid address format\n" rfl) hfail,
          iff_of_true (kstrtoul_error hk) hfail⟩

/-- A call that returns tells the truth exactly when the condition holds of its last step. -/
theorem Call.told_iff (h : c.step mm s = some (s', pc)) : c.Told mm s s' pc ↔ c.Tells mm s := by
  cases hpc : c.pc with
  | start =>
    simp only [Call.step, hpc, Option.some.injEq] at h
    rw [← Call.parse_told_iff hpc, h]
  | parsed vaddr =>
    simp only [Call.step, hpc, Option.some.injEq, Prod.mk.injEq] at h
    obtain ⟨rfl, rfl⟩ := h
    simp [Call.Told, Call.Tells, hpc]
  | recorded vaddr own =>
    have ht : c.Tells mm s := by simp [Call.Tells, hpc]
    rw [iff_true_right ht]
    simp only [Call.step, hpc] at h
    cases hm : s.target_mm mm with
    | none =>
      rw [hm] at h
      cases h
      have hfail : c.Fails mm s := by simp [Call.Fails, hpc, hm]
      exact ⟨iff_of_true (saysError_append ": No valid process context\n" rfl) hfail,
        iff_of_true (by decide) hfail⟩
    | some m =>
      rw [hm] at h
      cases h
      trivial
  | checked vaddr own =>
    have ht : c.Tells mm s := by simp [Call.Tells, hpc]
    rw [iff_true_right ht]
    simp only [Call.step, hpc] at h
    split at h
    · rename_i hne
      cases h
      have hfail : c.Fails mm s := by
        simp only [Call.Fails, hpc]
        exact hne
      refine ⟨iff_of_true (saysError_append
        (": Address validation failed (" ++
          (toString (validate_user_address ((s.target_mm mm).map s.mms) vaddr) ++ ")\n")) ?_) hfail,
        iff_of_true (validate_neg _ _ hne) hfail⟩
      simp [← String.append_assoc]
    · cases h
      trivial
  | validated vaddr own =>
    obtain ⟨ret, w, hw, hret⟩ := s.walk_cases mm vaddr
    simp only [Call.step, hpc, hw, Option.map_some, Option.some.injEq, Prod.mk.injEq] at h
    obtain ⟨rfl, rfl⟩ := h
    have hf : c.Fails mm s ↔ ¬ (s.leaf? mm vaddr).isSome := by simp [Call.Fails, hpc]
    have ht : c.Tells mm s ↔ (s.leaf? mm vaddr).isSome := by simp [Call.Tells, hpc]
    have hcount : ¬ (c.count : Int) < 0 := by omega
    rw [ht]
    by_cases hr : ret = 0
    · have hleaf := hret.1 hr
      have hfail : ¬ c.Fails mm s := fun h => hf.1 h hleaf
      have hsays : ¬ SaysError { s with
          mem := w.mem
          status_buffer := if ret ≠ 0
            then "Error: Page table walk failed (" ++ toString ret ++ ")\n"
            else "Success: Address translation completed\n" } :=
        not_saysError (congrArg String.toList (if_neg (not_not.2 hr))) (by decide)
      exact iff_of_true ⟨iff_of_false hsays hfail, iff_of_false hcount hfail⟩ hleaf
    · -- the status says so, but the count is returned
      have hleaf := fun h => hr (hret.2 h)
      exact iff_of_false (fun hold => hcount (hold.2.2 (hf.2 hleaf))) hleaf
  | done ret => simp [Call.step, hpc] at h

/-- Only a call that has returned takes no step. -/
theorem Call.tells_of_step_eq_none (h : c.step mm s = none) : c.Tells mm s := by
  cases hpc : c.pc with
  | start => simp [Call.step, hpc] at h
  | parsed vaddr => simp [Call.step, hpc] at h
  | recorded vaddr own => simp [Call.Tells, hpc]
  | checked vaddr own => simp [Call.Tells, hpc]
  | validated vaddr own =>
    obtain ⟨ret, w, hw, -⟩ := s.walk_cases mm vaddr
    simp [Call.step, hpc, hw] at h
  | done ret => simp [Call.Tells, hpc]

/-- Of the calls after a step, the one that took it is at its new stage. -/
theorem State.told_iff {t : Nat} (hs : s.step mm (.run t) = some s') :
    (∀ c c', s.calls[t]? = some c → s'.calls[t]? = some c' → c.Told mm s s' c'.pc) ↔
      Tells mm s (.run t) := by
  obtain ⟨c, s₁, pc, hc, hstep, rfl⟩ := State.run_cases hs
  have hlt : t < s.calls.length := (List.getElem?_eq_some_iff.1 hc).1
  have htold : Tells mm s (.run t) ↔ c.Told mm s s₁ pc := by
    simp only [Tells, hc, Option.some.injEq, forall_eq', Call.told_iff hstep]
  rw [htold]
  constructor
  · intro h
    exact h c _ hc (List.getElem?_set_self hlt)
  · intro h c₀ c' hc₀ hc'
    cases hc.symm.trans hc₀
    cases (List.getElem?_set_self hlt).symm.trans hc'
    exact h

/-! ## A run -/

/-- **Both tell the truth** exactly as long as the condition holds. -/
theorem toldRun_iff (mm : Nat → Option Nat) (mms : Nat → mm_struct) (mem : Memory)
    (as : List Action) :
    ToldRun mm (State.init mms mem) as ↔
      Along (State.step mm) (Tells mm) (State.init mms mem) as := by
  constructor
  · intro h
    refine Along.of_get fun i a s ha hs => ?_
    cases a with
    | change mms mem => trivial
    | write current count user_buf => trivial
    | run t =>
      cases hstep : s.step mm (.run t) with
      | some s' => exact (State.told_iff hstep).1 (h i t s s' ha hs hstep)
      | none =>
        intro c hc
        refine Call.tells_of_step_eq_none ?_
        cases hcall : c.step mm s with
        | none => rfl
        | some r => simp [State.step, hc, hcall] at hstep
  · intro h i t s s' ha hs hs'
    exact (State.told_iff hs').2 (h.get ha hs)

/-- After no other write, one that is too long leaves "Ready"; and a walk that finds a table empty
returns the count. -/
theorem write_not_told :
    ¬ ToldRun some (State.init (fun _ => .ofPte ⟨0x1067, by decide⟩) fun _ => 0)
        [.write 1 32 (some (List.replicate 32 48)), .run 0] ∧
      ¬ ToldRun some (State.init (fun _ => ⟨fun _ => .empty, [⟨0, 4096⟩]⟩) fun _ => 0)
        [.write 1 1 (some [48]), .run 0, .run 0, .run 0, .run 0, .run 0] := by
  constructor
  · intro h
    have htold := (h 1 0 _ _ rfl rfl rfl _ _ rfl rfl).1.2 rfl
    exact not_saysError rfl (by decide) htold
  · intro h
    have htold := (h 5 0 _ _ rfl rfl rfl _ _ rfl rfl).2.2 rfl
    exact absurd htold (by decide)

end

end LinuxKernelProg.Vm
