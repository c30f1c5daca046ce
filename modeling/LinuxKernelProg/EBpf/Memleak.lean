import Mathlib.Data.BitVec
import LinuxKernelProg.Lib.ArrayMap
import LinuxKernelProg.Lib.BoundedMap
import LinuxKernelProg.Lib.History

/-!
# The memory leak tracker

`memleak_tracker.c`: a kretprobe on `__kmalloc` puts the address that it returns into `allocs`, a
kprobe on `kfree` takes it out. The map tracks the addresses whose latest hook is a return
(`tracked`), which are those of the live objects if the hooks of the objects come in order
(`tracked_eq_live`). The two counters count every call, whether the map changes or not.
-/

namespace LinuxKernelProg.EBpf.Memleak

open LinuxKernelProg.Lib

/-! ## The program -/

def MAX_ENTRIES : Nat := 10240

structure Maps where
  allocs : BoundedMap (BitVec 64) (BitVec 64) MAX_ENTRIES
  stats : ArrayMap (BitVec 64) 2

def Maps.init : Maps := ⟨.empty, fun _ => 0⟩

def trace_kmalloc_ret (addr : BitVec 64) (m : Maps) : Maps :=
  let size := 0
  if addr = 0 then m
  else
    { allocs := m.allocs.put addr size
      stats := m.stats.modify 0 (· + 1) }

def trace_kfree (addr : BitVec 64) (m : Maps) : Maps :=
  if addr = 0 then m
  else
    { allocs := m.allocs.delete addr
      stats := m.stats.modify 1 (· + 1) }

/-- A hook that runs: `__kmalloc` returns an object, or `kfree` is called with one. The handlers see
the address only; it is 0 for an allocation that has failed and for `kfree(NULL)`. -/
inductive Event where
  | kmalloc_ret (obj : Nat) (addr : BitVec 64)
  | kfree (obj : Nat) (addr : BitVec 64)
  deriving DecidableEq

def Event.obj : Event → Nat
  | .kmalloc_ret obj _ => obj
  | .kfree obj _ => obj

def Event.addr : Event → BitVec 64
  | .kmalloc_ret _ addr => addr
  | .kfree _ addr => addr

def handle : Event → Maps → Maps
  | .kmalloc_ret _ addr => trace_kmalloc_ret addr
  | .kfree _ addr => trace_kfree addr

/-- The maps after a history, the latest event first. -/
def after (h : List Event) : Maps := h.foldr handle .init

/-! ## Objects -/

/-- An object at the address was returned by `__kmalloc` and has not been freed. -/
def Live (h : List Event) (obj : Nat) (addr : BitVec 64) : Prop :=
  addr ≠ 0 ∧ .kmalloc_ret obj addr ∈ h ∧ .kfree obj addr ∉ h

instance (h : List Event) (obj : Nat) (addr : BitVec 64) : Decidable (Live h obj addr) :=
  inferInstanceAs (Decidable (addr ≠ 0 ∧ .kmalloc_ret obj addr ∈ h ∧ .kfree obj addr ∉ h))

/-- The addresses of the live objects. -/
def live (h : List Event) : Finset (BitVec 64) :=
  (h.map Event.addr).toFinset.filter fun addr => ∃ e ∈ h, Live h e.obj addr

/-- The return hook of an object runs before the object is freed, and the free hook of the object
that had an address before has run when the object that has it now is freed. -/
def Orderly (past : List Event) : Event → Prop
  | .kmalloc_ret obj addr => addr ≠ 0 → .kfree obj addr ∉ past
  | .kfree obj addr => ∀ e ∈ past, Live past e.obj addr → e.obj = obj

instance (past : List Event) : ∀ e, Decidable (Orderly past e)
  | .kmalloc_ret obj addr => inferInstanceAs (Decidable (addr ≠ 0 → .kfree obj addr ∉ past))
  | .kfree obj addr => inferInstanceAs (Decidable (∀ e ∈ past, Live past e.obj addr → e.obj = obj))

/-- There have never been more live addresses than the map can hold. -/
def Small (h : List Event) : Prop := Always (fun h => (live h).card ≤ MAX_ENTRIES) h

/-! ## Addresses -/

/-- The addresses whose latest hook is a return. -/
def tracked : List Event → Finset (BitVec 64)
  | [] => ∅
  | .kmalloc_ret _ addr :: past => if addr = 0 then tracked past else insert addr (tracked past)
  | .kfree _ addr :: past => (tracked past).erase addr

/-- An allocation finds room in the map. -/
def Room (past : List Event) : Event → Prop
  | .kmalloc_ret _ addr => addr ≠ 0 → (after past).allocs.HasRoom addr
  | .kfree _ _ => True

instance (past : List Event) : ∀ e, Decidable (Room past e)
  | .kmalloc_ret _ addr => inferInstanceAs (Decidable (addr ≠ 0 → (after past).allocs.HasRoom addr))
  | .kfree _ _ => inferInstanceAs (Decidable True)

variable {h past : List Event} {o : Nat} {addr a : BitVec 64}

theorem after_kmalloc_ret (ha : addr ≠ 0) :
    after (.kmalloc_ret o addr :: past) =
      { allocs := (after past).allocs.put addr 0
        stats := (after past).stats.modify 0 (· + 1) } := by
  change trace_kmalloc_ret addr (after past) = _
  simp only [trace_kmalloc_ret, if_neg ha]

theorem after_kfree (ha : addr ≠ 0) :
    after (.kfree o addr :: past) =
      { allocs := (after past).allocs.delete addr
        stats := (after past).stats.modify 1 (· + 1) } := by
  change trace_kfree addr (after past) = _
  simp only [trace_kfree, if_neg ha]

theorem after_null {e : Event} (ha : e.addr = 0) : after (e :: past) = after past := by
  cases e with
  | kmalloc_ret o addr =>
    obtain rfl : addr = 0 := ha
    rfl
  | kfree o addr =>
    obtain rfl : addr = 0 := ha
    rfl

theorem zero_notMem_tracked : 0 ∉ tracked h := by
  induction h with
  | nil => exact Finset.notMem_empty 0
  | cons e past ih =>
    cases e with
    | kmalloc_ret o addr =>
      rw [tracked]
      split
      · exact ih
      · rename_i ha
        rw [Finset.mem_insert, not_or]
        exact ⟨fun h0 => ha h0.symm, ih⟩
    | kfree o addr =>
      rw [tracked]
      exact fun h0 => ih (Finset.mem_of_mem_erase h0)

theorem tracked_kmalloc_ret (ha : addr ≠ 0) :
    tracked (.kmalloc_ret o addr :: past) = insert addr (tracked past) := by
  rw [tracked, if_neg ha]

theorem tracked_null {e : Event} (ha : e.addr = 0) : tracked (e :: past) = tracked past := by
  cases e with
  | kmalloc_ret o addr => exact if_pos ha
  | kfree o addr =>
    obtain rfl : addr = 0 := ha
    exact Finset.erase_eq_of_notMem zero_notMem_tracked

/-- Induction over a history, where a hook that is given NULL does nothing. -/
@[elab_as_elim]
theorem history_induction {P : List Event → Prop} (h : List Event) (nil : P [])
    (null : ∀ e past, e.addr = 0 → P past → P (e :: past))
    (alloc : ∀ o addr past, addr ≠ 0 → P past → P (.kmalloc_ret o addr :: past))
    (free : ∀ o addr past, addr ≠ 0 → P past → P (.kfree o addr :: past)) : P h := by
  induction h with
  | nil => exact nil
  | cons e past ih =>
    by_cases ha : e.addr = 0
    · exact null e past ha ih
    · cases e with
      | kmalloc_ret o addr => exact alloc o addr past ha ih
      | kfree o addr => exact free o addr past ha ih

/-- A dropped insertion leaves an address out, and nothing puts one in that is not tracked. -/
theorem tracked_of_mem_keys (ha : a ∈ (after h).allocs.keys) : a ∈ tracked h := by
  induction h using history_induction with
  | nil => cases ha
  | null e past h0 ih =>
    rw [after_null h0] at ha
    rw [tracked_null h0]
    exact ih ha
  | alloc o addr past h0 ih =>
    rw [after_kmalloc_ret h0] at ha
    rw [tracked_kmalloc_ret h0, Finset.mem_insert]
    exact (BoundedMap.of_mem_keys_put ha).imp_right ih
  | free o addr past h0 ih =>
    rw [after_kfree h0, BoundedMap.mem_keys_delete] at ha
    rw [tracked, Finset.mem_erase]
    exact ⟨ha.1, ih ha.2⟩

theorem mem_keys_iff (hroom : Each Room h) : a ∈ (after h).allocs.keys ↔ a ∈ tracked h := by
  refine ⟨tracked_of_mem_keys, fun ha => ?_⟩
  induction h using history_induction with
  | nil => cases ha
  | null e past h0 ih =>
    rw [tracked_null h0] at ha
    rw [after_null h0]
    exact ih hroom.2 ha
  | alloc o addr past h0 ih =>
    rw [tracked_kmalloc_ret h0, Finset.mem_insert] at ha
    rw [after_kmalloc_ret h0, BoundedMap.mem_keys_put (hroom.1 h0)]
    exact ha.imp_right (ih hroom.2)
  | free o addr past h0 ih =>
    rw [tracked, Finset.mem_erase] at ha
    rw [after_kfree h0, BoundedMap.mem_keys_delete]
    exact ⟨ha.1, ih hroom.2 ha.2⟩

/-! ## Objects and addresses -/

theorem mem_live : a ∈ live h ↔ ∃ o, Live h o a := by
  rw [live, Finset.mem_filter, List.mem_toFinset]
  constructor
  · rintro ⟨-, e, -, hlive⟩
    exact ⟨e.obj, hlive⟩
  · rintro ⟨o, hlive⟩
    exact ⟨List.mem_map_of_mem hlive.2.1, .kmalloc_ret o a, hlive.2.1, hlive⟩

theorem mem_live_kmalloc_ret (h0 : addr ≠ 0) (horder : Orderly past (.kmalloc_ret o addr)) :
    a ∈ live (.kmalloc_ret o addr :: past) ↔ a = addr ∨ a ∈ live past := by
  simp only [mem_live, Live, List.mem_cons, reduceCtorEq, false_or]
  constructor
  · rintro ⟨o', ha, he | hret, hfree⟩
    · cases he
      exact .inl rfl
    · exact .inr ⟨o', ha, hret, hfree⟩
  · rintro (rfl | ⟨o', ha, hret, hfree⟩)
    · exact ⟨o, h0, .inl rfl, horder h0⟩
    · exact ⟨o', ha, .inr hret, hfree⟩

theorem mem_live_kfree (horder : Orderly past (.kfree o addr)) :
    a ∈ live (.kfree o addr :: past) ↔ a ≠ addr ∧ a ∈ live past := by
  simp only [mem_live, Live, List.mem_cons, reduceCtorEq, false_or, not_or]
  constructor
  · rintro ⟨o', ha, hret, hne, hfree⟩
    refine ⟨?_, o', ha, hret, hfree⟩
    -- the object that is freed is the one at its address
    rintro rfl
    have ho : o' = o := horder _ hret ⟨ha, hret, hfree⟩
    exact hne (ho ▸ rfl)
  · rintro ⟨hne, o', ha, hret, hfree⟩
    refine ⟨o', ha, hret, ?_, hfree⟩
    intro he
    cases he
    exact hne rfl

theorem live_of_null {e : Event} (h0 : e.addr = 0) : live (e :: past) = live past := by
  have hne : ∀ {o a}, a ≠ 0 → .kmalloc_ret o a ≠ e ∧ .kfree o a ≠ e := by
    rintro o a ha
    constructor
    · rintro rfl
      exact ha h0
    · rintro rfl
      exact ha h0
  ext a
  simp only [mem_live, Live, List.mem_cons, not_or]
  constructor
  · rintro ⟨o, ha, hret, -, hfree⟩
    exact ⟨o, ha, hret.resolve_left (hne ha).1, hfree⟩
  · rintro ⟨o, ha, hret, hfree⟩
    exact ⟨o, ha, .inr hret, (hne ha).2, hfree⟩

/-- What the hooks see of the addresses is right for the objects. -/
theorem tracked_eq_live (horder : Each Orderly h) : tracked h = live h := by
  induction h using history_induction with
  | nil => rfl
  | null e past h0 ih => rw [tracked_null h0, live_of_null h0, ih horder.2]
  | alloc o addr past h0 ih =>
    ext a
    rw [tracked_kmalloc_ret h0, Finset.mem_insert, ih horder.2, mem_live_kmalloc_ret h0 horder.1]
  | free o addr past h0 ih =>
    ext a
    rw [tracked, Finset.mem_erase, ih horder.2, mem_live_kfree horder.1]

theorem room_of_small (horder : Each Orderly h) (hsmall : Small h) : Each Room h := by
  induction h with
  | nil => trivial
  | cons e past ih =>
    refine ⟨?_, ih horder.2 hsmall.2⟩
    cases e with
    | kfree o addr => trivial
    | kmalloc_ret o addr =>
      intro h0
      have hcard : (live (.kmalloc_ret o addr :: past)).card ≤ MAX_ENTRIES := hsmall.1
      rw [← tracked_eq_live horder, tracked_kmalloc_ret h0] at hcard
      apply BoundedMap.hasRoom_of_card hcard
      · exact fun k hk => Finset.mem_insert_of_mem (tracked_of_mem_keys hk)
      · exact Finset.mem_insert_self addr (tracked past)

/-- **Live addresses.** The map holds addresses of live objects only, and all of them if there have
never been more than it can hold. -/
theorem keys_live (horder : Each Orderly h) :
    (∀ a ∈ (after h).allocs.keys, a ∈ live h) ∧
      (Small h → ∀ a, a ∈ (after h).allocs.keys ↔ a ∈ live h) := by
  rw [← tracked_eq_live horder]
  exact ⟨fun _ ha => tracked_of_mem_keys ha,
    fun hsmall _ => mem_keys_iff (room_of_small horder hsmall)⟩

/-- Object 1 is freed and its address is used again, by another allocator (object 2) and by
`__kmalloc` (object 3). -/
theorem keys_live_of_reuse :
    let h : List Event := [.kmalloc_ret 3 64, .kfree 2 64, .kfree 0 0,
      .kfree 1 64, .kmalloc_ret 0 0,
      .kmalloc_ret 1 64, .kfree 4 32]
    Each Orderly h ∧ (∀ a ∈ (after h).allocs.keys, a ∈ live h) ∧
      (Small h → ∀ a, a ∈ (after h).allocs.keys ↔ a ∈ live h) :=
  ⟨by decide, keys_live (by decide)⟩

/-! ## The counters -/

/-- Allocations that return an address which is tracked already. -/
def repeated : List Event → Nat
  | [] => 0
  | .kmalloc_ret _ addr :: past => if addr ∈ tracked past then repeated past + 1 else repeated past
  | .kfree _ _ :: past => repeated past

/-- Frees of addresses that are not tracked: they come from before the tracing or from elsewhere. -/
def unmatched : List Event → Nat
  | [] => 0
  | .kmalloc_ret _ _ :: past => unmatched past
  | .kfree _ addr :: past =>
    if addr ≠ 0 ∧ addr ∉ tracked past then unmatched past + 1 else unmatched past

/-- The number of entries, as the counters have it. -/
def entryCount (h : List Event) : BitVec 64 := BitVec.ofNat 64 (after h).allocs.entries.length

theorem entryCount_kmalloc_ret (hroom : Each Room (.kmalloc_ret o addr :: past)) (ha : addr ≠ 0) :
    entryCount (.kmalloc_ret o addr :: past) =
      if addr ∈ tracked past then entryCount past else entryCount past + 1 := by
  rw [entryCount, entryCount, after_kmalloc_ret ha, ← BoundedMap.length_keys,
    ← BoundedMap.length_keys, BoundedMap.keys_put (hroom.1 ha)]
  simp only [mem_keys_iff hroom.2]
  split
  · rfl
  · rw [List.length_append, BitVec.ofNat_add]
    rfl

theorem entryCount_kfree (o : Nat) (hroom : Each Room past) (ha : addr ≠ 0) :
    entryCount past =
      if addr ∈ tracked past then entryCount (.kfree o addr :: past) + 1
      else entryCount (.kfree o addr :: past) := by
  rw [entryCount, entryCount, after_kfree ha]
  split
  · rename_i hk
    rw [← BoundedMap.length_delete ((mem_keys_iff hroom).2 hk), BitVec.ofNat_add]
    rfl
  · rename_i hk
    rw [BoundedMap.delete_absent fun h => hk ((mem_keys_iff hroom).1 h)]

theorem repeated_null {e : Event} (ha : e.addr = 0) : repeated (e :: past) = repeated past := by
  cases e with
  | kmalloc_ret o addr =>
    obtain rfl : addr = 0 := ha
    exact if_neg zero_notMem_tracked
  | kfree o addr => rfl

theorem unmatched_null {e : Event} (ha : e.addr = 0) : unmatched (e :: past) = unmatched past := by
  cases e with
  | kmalloc_ret o addr => rfl
  | kfree o addr => exact if_neg fun h => h.1 ha

theorem counters_balance (hroom : Each Room h) :
    (after h).stats 0 + BitVec.ofNat 64 (unmatched h) =
      (after h).stats 1 + entryCount h + BitVec.ofNat 64 (repeated h) := by
  induction h using history_induction with
  | nil => rfl
  | null e past h0 ih =>
    rw [entryCount, after_null h0, unmatched_null h0, repeated_null h0]
    exact ih hroom.2
  | alloc o addr past h0 ih =>
    have ih := ih hroom.2
    have hcount : (after (.kmalloc_ret o addr :: past)).stats 0 = (after past).stats 0 + 1 := by
      rw [after_kmalloc_ret h0]
      rfl
    have hfree : (after (.kmalloc_ret o addr :: past)).stats 1 = (after past).stats 1 := by
      rw [after_kmalloc_ret h0]
      rfl
    rw [hcount, hfree, entryCount_kmalloc_ret hroom h0, unmatched, repeated]
    split
    · rw [BitVec.ofNat_add]
      grind
    · grind
  | free o addr past h0 ih =>
    have ih := ih hroom.2
    have hcount : (after (.kfree o addr :: past)).stats 0 = (after past).stats 0 := by
      rw [after_kfree h0]
      rfl
    have hfree : (after (.kfree o addr :: past)).stats 1 = (after past).stats 1 + 1 := by
      rw [after_kfree h0]
      rfl
    rw [entryCount_kfree o hroom.2 h0] at ih
    rw [hcount, hfree, unmatched, repeated]
    split at ih
    · rename_i hk
      rw [if_neg fun h => h.2 hk]
      grind
    · rename_i hk
      rw [if_pos ⟨h0, hk⟩, BitVec.ofNat_add]
      grind

/-- **The two counters.** Their difference is the number of entries, but for the allocations of
tracked addresses and the frees of others. -/
theorem counters_diff (hroom : Each Room h) :
    (after h).stats 0 - (after h).stats 1 =
      entryCount h + BitVec.ofNat 64 (repeated h) - BitVec.ofNat 64 (unmatched h) := by
  have hbalance := counters_balance hroom
  grind

theorem counters_of_reuse :
    let h : List Event := [.kfree 4 64, .kmalloc_ret 3 32, .kmalloc_ret 2 32,
      .kfree 0 0, .kfree 1 32,
      .kmalloc_ret 0 0, .kmalloc_ret 1 32]
    Each Room h ∧ (after h).stats 0 - (after h).stats 1 =
      entryCount h + BitVec.ofNat 64 (repeated h) - BitVec.ofNat 64 (unmatched h) :=
  ⟨by decide, counters_diff (by decide)⟩

/-- One free of an address that was allocated before: a free is counted, and the map is empty. -/
theorem early_free_counted :
    ¬ ∀ h, Each Room h → (after h).stats 0 - (after h).stats 1 = entryCount h := by
  intro h
  exact absurd (h [.kfree 1 32] (by decide)) (by decide)

end LinuxKernelProg.EBpf.Memleak
