import Mathlib.Data.List.Count
import LinuxKernelProg.Sync.ListRcu.Inv

/-!
# The RCU book list: what undisturbed runs keep

`Thread.Ok` is what a thread knows about the shared data and `Inv` the invariant of the system: an
unlinked object is in the custody of exactly one thread or callback until it is freed
(`Inv.custody`), and it was unlinked before every open section began when it is freed
(`Inv.freed`). A step that is not `Undisturbed` leaves the invariant, and only such a step does
(`orderly_iff`).
-/

namespace LinuxKernelProg.Sync.ListRcu

open LinuxKernelProg.Lib LinkMem

/-! ## Threads -/

/-- The object that a thread has allocated and has not put on the list yet. -/
def Pc.new? : Pc → Option Nat
  | .stocked n => some n
  | .copied _ n _ => some n
  | _ => none

/-- The unlinked object that a thread has still to hand over or to free. -/
def Pc.held? : Pc → Option Nat
  | .retiring n => some n
  | .waiting n _ => some n
  | _ => none

/-- `old` is what the scan of `op` found in a section that began at `b`. -/
def Found (sh : Shared) (ns : List Nat) (op : Op) (old b : Nat) (new : Option Nat) : Prop :=
  b ≤ sh.clock ∧ Since sh ns b old ∧ ∃ u id async e, op = .update u id async ∧
    sh.mem.entry old = some e ∧ e.borrow = u.wants ∧
    ∀ k, new = some k → Private sh ns k ∧ sh.mem.entry k = some { e with borrow := u.flag }

def Thread.Ok (sh : Shared) (ns : List Nat) (th : Thread) : Prop :=
  match th.pc with
  | .start => True
  | .stocked new => Private sh ns new ∧ ∃ e, sh.mem.entry new = some e ∧ e.borrow = 0
  | .found old b => Found sh ns th.op old b none
  | .copied old new b => Found sh ns th.op old b (some new)
  | .retiring old => ∃ t, (old, t) ∈ sh.unlinks
  | .waiting old g => ∃ t, (old, t) ∈ sh.unlinks ∧ t ≤ g
  | .reading r b _ => b ≤ sh.clock ∧ (r = .books ∨ ∃ n, r = .book n ∧ Since sh ns b n)
  | .done _ => True

/-- Whatever was freed was unlinked before the section of the thread began. -/
def Thread.Clear (sh : Shared) (th : Thread) : Prop :=
  ∀ b, th.pc.section? = some b → ∀ n ∈ sh.frees, ∀ t, (n, t) ∈ sh.unlinks → t < b

/-- What a section can reach is live. -/
theorem Shape.live_of_since {sh : Shared} {ns : List Nat} (h : Shape sh ns) {th : Thread}
    {b n : Nat} (hc : th.Clear sh) (hb : th.pc.section? = some b) (hs : Since sh ns b n) :
    n ∉ sh.frees := by
  intro hf
  obtain ⟨⟨k, t⟩, ht, rfl⟩ := List.mem_map.1 (h.freed_gone n hf)
  rcases hs with hn | ⟨u, hu, hm⟩
  · exact (h.gone _ ht).1 hn
  · have := hc b hb _ hf u hm
    omega

/-- What a thread knows stays true when another thread takes a step. -/
theorem Thread.Ok.grow {sh sh' : Shared} {ns ns' : List Nat} {mine : Option Nat} {th : Thread}
    (h : th.Ok sh ns) (hg : Grows sh ns mine sh' ns') (hs : Shape sh' ns') (hc : th.Clear sh')
    (hm : ∀ k, th.pc.new? = some k → mine ≠ some k) : th.Ok sh' ns' := by
  obtain ⟨op, pc⟩ := th
  -- an object that a thread owns is never freed
  have hpriv : ∀ k, Private sh ns k → mine ≠ some k → Private sh' ns' k ∧ k ∉ sh'.frees := by
    intro k hk hne
    have hk' := hk.grow hg hne
    refine ⟨hk', fun hf => ?_⟩
    obtain ⟨p, hp, e⟩ := List.mem_map.1 (hs.freed_gone k hf)
    exact hk'.kept p hp e
  have hfound : ∀ old b new, Found sh ns op old b new → Pc.section? pc = some b →
      (∀ k, new = some k → mine ≠ some k) → Found sh' ns' op old b new := by
    rintro old b new ⟨hb, hold, u, id, async, e, hop, he, hw, hnew⟩ hsec hne
    have hold' := hold.grow hg hb
    refine ⟨by rw [hg.clock]; omega, hold', u, id, async, e, hop,
      hg.entry _ _ he (hs.live_of_since hc hsec hold'), hw, fun k hk => ?_⟩
    obtain ⟨hp, hek⟩ := hnew k hk
    obtain ⟨hp', hf⟩ := hpriv k hp (hne k hk)
    exact ⟨hp', hg.entry _ _ hek hf⟩
  cases pc with
  | start => trivial
  | done r => trivial
  | stocked n =>
    obtain ⟨hp, e, he, hz⟩ := h
    obtain ⟨hp', hf⟩ := hpriv n hp (hm n rfl)
    exact ⟨hp', e, hg.entry _ _ he hf, hz⟩
  | found old b => exact hfound old b none h rfl (by simp)
  | copied old new b => exact hfound old b (some new) h rfl hm
  | retiring old =>
    obtain ⟨t, ht⟩ := h
    exact ⟨t, hg.unlinks ht⟩
  | waiting old g =>
    obtain ⟨t, ht, hle⟩ := h
    exact ⟨t, hg.unlinks ht, hle⟩
  | reading r b rd =>
    obtain ⟨hb, hr⟩ := h
    refine ⟨by rw [hg.clock]; omega, hr.imp_right ?_⟩
    rintro ⟨n, rfl, hn⟩
    exact ⟨n, rfl, hn.grow hg hb⟩

/-! ## The system -/

structure Inv (sh : Shared) (ths : List Thread) (ns : List Nat) : Prop where
  core : Core sh ns
  ok : ∀ th ∈ ths, th.Ok sh ns
  clear : ∀ th ∈ ths, th.Clear sh
  apart : (ths.filterMap fun th => th.pc.new?).Nodup
  custody : (ths.filterMap (fun th => th.pc.held?) ++ sh.callbacks.map Prod.fst ++ sh.frees).Perm
    (sh.unlinks.map Prod.fst)
  queued : ∀ q ∈ sh.callbacks, ∃ t, (q.1, t) ∈ sh.unlinks ∧ t ≤ q.2

theorem Inv.init : Inv Shared.init [] [] where
  core := Core.init
  ok := by simp
  clear := by simp
  apart := by simp
  custody := by simp [Shared.init]
  queued := by simp [Shared.init]

theorem Inv.perm {sh : Shared} {ths ths' : List Thread} {ns : List Nat} (h : Inv sh ths ns)
    (hp : ths.Perm ths') : Inv sh ths' ns where
  core := h.core
  ok th hth := h.ok th (hp.mem_iff.2 hth)
  clear th hth := h.clear th (hp.mem_iff.2 hth)
  apart := (hp.filterMap _).nodup_iff.1 h.apart
  custody := ((((hp.filterMap _).append_right _).append_right _).symm).trans h.custody
  queued := h.queued

theorem filterMap_cons_toList {α β : Type} (f : α → Option β) (a : α) (l : List α) :
    (a :: l).filterMap f = (f a).toList ++ l.filterMap f := by
  cases h : f a <;> simp [h]

/-! ## What a step keeps -/

section Step

variable {sh sh' : Shared} {th th' : Thread} {os : List Thread} {ns ns' : List Nat}

theorem Thread.Clear.grow {mine : Option Nat} (h : th.Clear sh) (hs : Shape sh ns)
    (hg : Grows sh ns mine sh' ns') (hf : sh'.frees = sh.frees) : th.Clear sh' := by
  intro b hb n hn t ht
  rw [hf] at hn
  rcases hg.left _ ht with ht | hon
  · exact h b hb n hn t ht
  · obtain ⟨p, hp, e⟩ := List.mem_map.1 (hs.freed_gone n hn)
    exact absurd (e ▸ hon) (hs.gone p hp).1

/-- A thread takes a step that frees nothing. -/
theorem Inv.next (h : Inv sh (th :: os) ns) (hc : Core sh' ns')
    (hg : Grows sh ns th.pc.new? sh' ns') (hf : sh'.frees = sh.frees) (hok : th'.Ok sh' ns')
    (hsec : ∀ b, th'.pc.section? = some b → th.pc.section? = some b ∨ sh.clock < b)
    (hnew : ∀ n, th'.pc.new? = some n → n = sh.mem.next)
    (hcb : ∀ q ∈ sh'.callbacks, q ∈ sh.callbacks ∨ ∃ t, (q.1, t) ∈ sh'.unlinks ∧ t ≤ q.2)
    (hcust : (th'.pc.held?.toList ++ sh'.callbacks.map Prod.fst ++ sh.unlinks.map Prod.fst).Perm
      (th.pc.held?.toList ++ sh.callbacks.map Prod.fst ++ sh'.unlinks.map Prod.fst)) :
    Inv sh' (th' :: os) ns' := by
  have hold := List.forall_mem_cons.1 h.ok
  have hclear := List.forall_mem_cons.1 h.clear
  have hos : ∀ x ∈ os, x.Clear sh' := fun x hx => (hclear.2 x hx).grow h.core.toShape hg hf
  have hap := h.apart
  refine ⟨hc, List.forall_mem_cons.2 ⟨hok, fun x hx => ?_⟩, List.forall_mem_cons.2 ⟨?_, hos⟩, ?_,
    ?_, fun q hq => ?_⟩
  · refine (hold.2 x hx).grow hg hc.toShape (hos x hx) fun k hk hm => ?_
    rw [filterMap_cons_toList, hm] at hap
    exact (List.nodup_cons.1 hap).1 (List.mem_filterMap.2 ⟨x, hx, hk⟩)
  · intro b hb n hn t ht
    rcases hsec b hb with hb | hb
    · exact hclear.1.grow h.core.toShape hg hf b hb n hn t ht
    · have := hc.past _ ht
      rw [hg.clock] at this
      simp only at this
      omega
  · -- a fresh object is not one that another thread owns
    rw [filterMap_cons_toList, List.nodup_append] at hap ⊢
    refine ⟨by cases th'.pc.new? <;> simp, hap.2.1, fun n hn k hk => ?_⟩
    rw [Option.mem_toList] at hn
    obtain ⟨x, hx, hxk⟩ := List.mem_filterMap.1 hk
    have hlt : k < sh.mem.next := by
      have hox := hold.2 x hx
      obtain ⟨op, pc⟩ := x
      cases pc <;> simp only [Pc.new?, reduceCtorEq, Option.some.injEq] at hxk
      · exact hxk ▸ hox.1.lt
      · obtain ⟨-, -, u, id, async, e, -, -, -, hp⟩ := hox
        exact hxk ▸ (hp _ rfl).1.lt
    have := hnew n hn
    omega
  · have hcu := h.custody
    rw [List.perm_iff_count] at hcu hcust ⊢
    intro a
    have h₁ := hcu a
    have h₂ := hcust a
    simp only [filterMap_cons_toList, List.count_append, hf] at h₁ h₂ ⊢
    omega
  · rcases hcb q hq with hq | hq
    · obtain ⟨t, ht, hle⟩ := h.queued q hq
      exact ⟨t, hg.unlinks ht, hle⟩
    · exact hq

/-- A thread takes a step that leaves the shared data alone. -/
theorem Inv.idle (h : Inv sh (th :: os) ns) (hok : th'.Ok sh.tick ns)
    (hsec : ∀ b, th'.pc.section? = some b → th.pc.section? = some b ∨ sh.clock < b)
    (hnew : th'.pc.new? = none) (hheld : th'.pc.held? = th.pc.held?) :
    Inv sh.tick (th' :: os) ns :=
  h.next h.core.tick (.of_still _ rfl rfl (Nat.le_refl _) fun _ _ he _ => he) rfl hok hsec
    (by simp [hnew]) (fun q hq => .inl hq) (by rw [hheld]; rfl)

/-- An object is freed after its grace period, by a thread or by a callback. -/
theorem Inv.free {ths ths' : List Thread} (cs : List (Nat × Nat)) {n g : Nat}
    (h : Inv sh ths ns) (hths : ∀ x ∈ ths', x ∈ ths ∨ x.pc = .done 0)
    (hnew : (ths'.filterMap fun th => th.pc.new?) = ths.filterMap fun th => th.pc.new?)
    (hcs : cs ⊆ sh.callbacks) (hu : ∃ t, (n, t) ∈ sh.unlinks ∧ t ≤ g)
    (helapsed : ∀ x ∈ ths, ∀ b, x.pc.section? = some b → g < b)
    (hcust : (n :: (ths'.filterMap (fun th => th.pc.held?) ++ cs.map Prod.fst)).Perm
      (ths.filterMap (fun th => th.pc.held?) ++ sh.callbacks.map Prod.fst)) :
    Inv ({ sh with callbacks := cs }.free n).tick ths' ns := by
  obtain ⟨t, ht, hle⟩ := hu
  have hcu := (hcust.append_right sh.frees).trans h.custody
  have hnf : n ∉ sh.frees := by
    have hnd := hcu.nodup_iff.2 h.core.once
    rw [List.cons_append, List.nodup_cons] at hnd
    exact fun hf => hnd.1 (List.mem_append_right _ hf)
  obtain ⟨m', heq, hnext, hheap, hc⟩ :=
    (h.core.queue cs).free (List.mem_map.2 ⟨_, ht, rfl⟩) hnf
  have hg : Grows sh ns none ({ sh with callbacks := cs }.free n).tick ns := by
    rw [heq]
    refine .of_still none rfl rfl (Nat.le_of_eq hnext.symm) fun k e he hk => ?_
    have hne : k ≠ n := fun e => hk (e ▸ List.mem_cons_self)
    simp only [Mem.entry, Shared.tick, hheap, if_neg hne]
    exact he
  have hclear : ∀ x ∈ ths', x.Clear ({ sh with callbacks := cs }.free n).tick := by
    rw [heq]
    intro x hx b hb k hk u hku
    rcases hths x hx with hx | hx
    · rcases List.mem_cons.1 hk with rfl | hk
      · rw [h.core.unlinked_unique hku ht]
        have := helapsed x hx b hb
        omega
      · exact h.clear x hx b hb k hk u hku
    · simp [hx, Pc.section?] at hb
  refine ⟨hc, fun x hx => ?_, hclear, ?_, ?_, fun q hq => ?_⟩
  · rcases hths x hx with hx' | hx'
    · exact (h.ok x hx').grow hg hc.toShape (hclear x hx) (by simp)
    · simp [Thread.Ok, hx']
  · rw [hnew]
    exact h.apart
  · rw [heq]
    refine List.Perm.trans ?_ hcu
    exact List.perm_middle
  · rw [heq] at hq ⊢
    exact h.queued q (hcs hq)

/-- The scan of an updater under the invariant: an object it finds is on the list and passes. -/
theorem Core.lookup_cases (h : Core sh ns) (u : Update) (id : Int) :
    (∃ r, lookup u sh.mem id = some r ∧ ∀ n, r ≠ .found n) ∨
      ∃ n e, lookup u sh.mem id = some (.found n) ∧ n ∈ ns ∧ sh.mem.entry n = some e ∧
        e.borrow = u.wants := by
  obtain ⟨l, hl⟩ := Lists.of_ring h.ring
  rcases hl.lookup_spec h.length_le u id with ⟨hr, -⟩ | ⟨as, n, bs, la, e, lb, hF, hr⟩
  · exact .inl ⟨_, hr, by simp⟩
  · have hn : n ∈ ns := by simp [hF.nodes]
    have hflag : e.borrow = 0 ∨ e.borrow = 1 := by
      rw [h.flags n hn e hF.entry]
      unfold flagOf
      split <;> simp
    cases hb : u.refuses e with
    | true => exact .inl ⟨_, hr, by simp [hb]⟩
    | false =>
      refine .inr ⟨n, e, by simpa [hb] using hr, hn, hF.entry, ?_⟩
      cases u <;> rcases hflag with hf | hf <;> simp_all [Update.refuses, Update.wants]

theorem Core.find_book_cases (h : Core sh ns) (id : Int) :
    find_book sh.mem id = some none ∨ ∃ n ∈ ns, find_book sh.mem id = some (some n) := by
  obtain ⟨l, hl⟩ := Lists.of_ring h.ring
  rcases hl.find_book_spec h.length_le id with ⟨hr, -⟩ | ⟨as, n, bs, la, e, lb, hF, hr⟩
  · exact .inl hr
  · exact .inr ⟨n, by simp [hF.nodes], hr⟩

/-- A fresh object is private. -/
theorem Core.private_alloc (h : Core sh ns) (b : Book) :
    Private { sh.tick with mem := sh.mem.alloc b } ns sh.mem.next :=
  ⟨Nat.lt_succ_self _, h.private_next.1, h.private_next.2⟩

variable {elapsed : Nat → Bool} {alloc : Bool} {pc' : Pc} {op : Op}

theorem Inv.alloc_step (h : Inv sh (th :: os) ns) (b : Book)
    (hok : th'.Ok { sh.tick with mem := sh.mem.alloc b } ns)
    (hsec : th'.pc.section? = th.pc.section?) (hnew : th'.pc.new? = some sh.mem.next)
    (hheld : th'.pc.held? = th.pc.held?) :
    Inv { sh.tick with mem := sh.mem.alloc b } (th' :: os) ns := by
  refine h.next (h.core.alloc b) (.of_still _ rfl rfl (Nat.le_succ _) fun n e he _ => ?_) rfl hok
    (fun b hb => .inl (hsec ▸ hb)) (fun n hn => ?_) (fun q hq => .inl hq) (by rw [hheld]; rfl)
  · rw [entry_alloc, if_neg (Nat.ne_of_lt (h.core.entry_isSome he).1)]
    exact he
  · rw [hnew, Option.some.injEq] at hn
    exact hn.symm

/-- The first step of `Borrow_book` or `Return_book`. -/
theorem Inv.lookup_step {u : Update} {id : Int} {async : Bool}
    (h : Inv sh (⟨.update u id async, .start⟩ :: os) ns)
    (hs : Thread.step sh elapsed alloc ⟨.update u id async, .start⟩ = some (sh', pc')) :
    Inv sh'.tick (⟨.update u id async, pc'⟩ :: os) ns := by
  simp only [Thread.step] at hs
  rcases h.core.lookup_cases u id with ⟨r, hr, hne⟩ | ⟨n, e, hr, hn, he, hw⟩
  · have : sh' = sh ∧ pc' = .done (-1) := by
      cases r <;> simp_all
    obtain ⟨rfl, rfl⟩ := this
    exact h.idle trivial (by simp [Pc.section?]) rfl rfl
  · simp only [hr, Option.some.injEq, Prod.mk.injEq] at hs
    obtain ⟨rfl, rfl⟩ := hs
    refine h.idle ⟨Nat.le_refl _, .inl hn, u, id, async, e, rfl, he, hw, by simp⟩ ?_ rfl rfl
    simp [Pc.section?]

/-- Its allocation and copy. -/
theorem Inv.copy_step {u : Update} {id : Int} {async : Bool} {old b : Nat}
    (h : Inv sh (⟨.update u id async, .found old b⟩ :: os) ns)
    (hs : Thread.step sh elapsed alloc ⟨.update u id async, .found old b⟩ = some (sh', pc')) :
    Inv sh'.tick (⟨.update u id async, pc'⟩ :: os) ns := by
  obtain ⟨hb, hold, v, id', async', e, hop, he, hw, -⟩ := h.ok _ List.mem_cons_self
  simp only [Op.update.injEq] at hop
  obtain ⟨rfl, rfl, rfl⟩ := hop
  simp only [Thread.step] at hs
  cases alloc with
  | false =>
    simp only [Bool.false_eq_true, if_false, Option.some.injEq, Prod.mk.injEq] at hs
    obtain ⟨rfl, rfl⟩ := hs
    exact h.idle trivial (by simp [Pc.section?]) rfl rfl
  | true =>
    have hlt := (h.core.entry_isSome he).1
    obtain ⟨c, hc, rfl⟩ := Option.map_eq_some_iff.1 he
    simp only [if_true, show (kzalloc sh.mem).2 = sh.mem.next from rfl,
      copy_book_kzalloc u hc (Nat.ne_of_lt hlt), Option.some.injEq, Prod.mk.injEq] at hs
    obtain ⟨rfl, rfl⟩ := hs
    refine h.alloc_step { c with borrow := u.flag }
      ⟨by simpa [Shared.tick] using Nat.le_succ_of_le hb,
      hold, u, id, async, c.toEntry, rfl, ?_, hw, ?_⟩ rfl rfl rfl
    · rw [entry_alloc, if_neg (Nat.ne_of_lt hlt)]
      exact he
    · rintro k ⟨⟩
      exact ⟨h.core.private_alloc _, by rw [entry_alloc, if_pos rfl]⟩

/-- An object that was found and was not unlinked since is still on the list. -/
theorem Inv.found_mem {u : Update} {id : Int} {async : Bool} {old new b : Nat} {ths : List Thread}
    (h : Inv sh ths ns) (hth : ⟨.update u id async, .copied old new b⟩ ∈ ths)
    (hu : ∀ p ∈ sh.unlinks, p.1 = old → p.2 < b) : old ∈ ns := by
  obtain ⟨-, hold, -⟩ := h.ok _ hth
  refine hold.resolve_right ?_
  rintro ⟨t, ht, hm⟩
  have := hu _ hm rfl
  simp only at this
  omega

/-- Its `list_replace_rcu`, on an object that is still on the list. -/
theorem Inv.replace_step {u : Update} {id : Int} {async : Bool} {old new b : Nat}
    (h : Inv sh (⟨.update u id async, .copied old new b⟩ :: os) ns)
    (hu : ∀ p ∈ sh.unlinks, p.1 = old → p.2 < b) :
    ∃ ns', Inv (sh.replace u old new).tick (⟨.update u id async, .retiring old⟩ :: os) ns' := by
  obtain ⟨hb, hold, v, id', async', e, hop, he, hw, hnew⟩ := h.ok _ List.mem_cons_self
  simp only [Op.update.injEq] at hop
  obtain ⟨rfl, rfl, rfl⟩ := hop
  have hmem := h.found_mem List.mem_cons_self hu
  obtain ⟨hp, hen⟩ := hnew new rfl
  obtain ⟨ns', m', heq, hg, hc⟩ := h.core.replace u hmem hp he hw hen
  refine ⟨ns', ?_⟩
  rw [heq] at hg hc ⊢
  refine h.next hc hg rfl ⟨_, List.mem_cons_self⟩ (by simp [Pc.section?]) (by simp [Pc.new?])
    (fun q hq => .inl hq) ?_
  simpa [Pc.held?, Shared.tick] using List.perm_middle.symm

theorem Inv.del_step {id : Int} {async : Bool}
    (h : Inv sh (⟨.Delete_book id async, .start⟩ :: os) ns)
    (hs : Thread.step sh elapsed alloc ⟨.Delete_book id async, .start⟩ = some (sh', pc')) :
    ∃ ns', Inv sh'.tick (⟨.Delete_book id async, pc'⟩ :: os) ns' := by
  simp only [Thread.step] at hs
  rcases h.core.find_book_cases id with hr | ⟨n, hn, hr⟩
  · simp only [hr, Option.some.injEq, Prod.mk.injEq] at hs
    obtain ⟨rfl, rfl⟩ := hs
    exact ⟨ns, h.idle trivial (by simp [Pc.section?]) rfl rfl⟩
  · simp only [hr, Option.some.injEq, Prod.mk.injEq] at hs
    obtain ⟨rfl, rfl⟩ := hs
    obtain ⟨ns', m', heq, hg, hc⟩ := h.core.del hn
    refine ⟨ns', ?_⟩
    rw [heq] at hg hc ⊢
    refine h.next hc hg rfl ⟨_, List.mem_cons_self⟩ (by simp [Pc.section?]) (by simp [Pc.new?])
      (fun q hq => .inl hq) ?_
    simpa [Pc.held?, Shared.tick] using List.perm_middle.symm

theorem Inv.stock_step {id : Int} {name author : CString}
    (h : Inv sh (⟨.Add_book id name author, .start⟩ :: os) ns)
    (hs : Thread.step sh elapsed alloc ⟨.Add_book id name author, .start⟩ = some (sh', pc')) :
    Inv sh'.tick (⟨.Add_book id name author, pc'⟩ :: os) ns := by
  simp only [Thread.step] at hs
  cases alloc with
  | false =>
    simp only [Bool.false_eq_true, if_false, Option.some.injEq, Prod.mk.injEq] at hs
    obtain ⟨rfl, rfl⟩ := hs
    exact h.idle trivial (by simp [Pc.section?]) rfl rfl
  | true =>
    obtain ⟨nd, hnd⟩ := fill_book_kzalloc sh.mem id name author
    simp only [if_true, show (kzalloc sh.mem).2 = sh.mem.next from rfl, hnd, Option.some.injEq,
      Prod.mk.injEq] at hs
    obtain ⟨rfl, rfl⟩ := hs
    exact h.alloc_step _ ⟨h.core.private_alloc _, _, by rw [entry_alloc, if_pos rfl],
      rfl⟩ rfl rfl rfl

theorem Inv.add_step {n : Nat} (h : Inv sh (⟨op, .stocked n⟩ :: os) ns) :
    Inv (sh.add n).tick (⟨op, .done 0⟩ :: os) (n :: ns) := by
  obtain ⟨hp, e, he, hz⟩ := h.ok _ List.mem_cons_self
  obtain ⟨m', heq, hg, hc⟩ := h.core.add hp he hz
  rw [heq] at hg hc ⊢
  exact h.next hc hg rfl trivial (by simp [Pc.section?]) (by simp [Pc.new?]) (fun q hq => .inl hq)
    (List.Perm.refl _)

/-- The unlinked object goes to `call_rcu` or waits for its grace period. -/
theorem Inv.retire_step {async : Bool} {old : Nat} (h : Inv sh (⟨op, .retiring old⟩ :: os) ns)
    (hs : (if async then
        some ({ sh with callbacks := sh.callbacks ++ [(old, sh.clock)] }, .done 0)
      else some (sh, .waiting old sh.clock)) = some (sh', pc')) :
    Inv sh'.tick (⟨op, pc'⟩ :: os) ns := by
  obtain ⟨t, ht⟩ := h.ok _ List.mem_cons_self
  have hlt : t < sh.clock := h.core.past _ ht
  cases async with
  | true =>
    cases hs
    refine h.next (h.core.tick.queue _) (.of_still _ rfl rfl (Nat.le_refl _) fun _ _ he _ => he) rfl
      trivial (by simp [Pc.section?]) (by simp [Pc.new?]) (fun q hq => ?_) ?_
    · rcases List.mem_append.1 hq with hq | hq
      · exact .inl hq
      · rw [List.mem_singleton.1 hq]
        exact .inr ⟨t, ht, Nat.le_of_lt hlt⟩
    · rw [List.perm_iff_count]
      intro a
      simp only [Pc.held?, Shared.tick, List.map_append, List.map_cons, List.map_nil,
        List.count_append, Option.toList_none, Option.toList_some, List.count_nil]
      omega
  | false =>
    cases hs
    exact h.idle ⟨t, ht, Nat.le_of_lt hlt⟩ (by simp [Pc.section?]) rfl rfl

/-- `synchronize_rcu` returns and the object is freed. -/
theorem Inv.wait_step {old g : Nat} (h : Inv sh (⟨op, .waiting old g⟩ :: os) ns)
    (helapsed : ∀ g, elapsed g = true → ∀ x ∈ os, ∀ b, x.pc.section? = some b → g < b)
    (hs : (if elapsed g then some (sh.free old, .done 0) else none) = some (sh', pc')) :
    Inv sh'.tick (⟨op, pc'⟩ :: os) ns := by
  by_cases hg : elapsed g = true
  · simp only [hg, if_true, Option.some.injEq, Prod.mk.injEq] at hs
    obtain ⟨rfl, rfl⟩ := hs
    refine h.free sh.callbacks (fun x hx => ?_) (by simp [Pc.new?]) (List.Subset.refl _)
      (h.ok _ List.mem_cons_self) (fun x hx => ?_) (by simp [Pc.held?])
    · rcases List.mem_cons.1 hx with rfl | hx
      · exact .inr rfl
      · exact .inl (List.mem_cons_of_mem _ hx)
    · rcases List.mem_cons.1 hx with rfl | hx
      · simp [Pc.section?]
      · exact helapsed g hg x hx
  · simp [hg] at hs

/-- A reader enters its section at the first cell of the list. -/
theorem Inv.enter_step {rd : Reader} (h : Inv sh (⟨op, .start⟩ :: os) ns) :
    Inv sh.tick (⟨op, .reading sh.mem.books.next (sh.clock + 1) rd⟩ :: os) ns := by
  obtain ⟨l, hl⟩ := Lists.of_ring h.core.ring
  refine h.idle ⟨Nat.le_refl _, ?_⟩ (by simp [Pc.section?]) rfl rfl
  rw [hl.books_next]
  exact (first_cases ns).imp_right fun ⟨m, hm, hmem⟩ => ⟨m, hm, .inl hmem⟩

/-- What a section can reach is live, and points to the head or to an object that the section can
reach as well. -/
theorem Inv.next_since {ths : List Thread} {n b : Nat} (h : Inv sh ths ns) (hth : th ∈ ths)
    (hb : th.pc.section? = some b) (hs : Since sh ns b n) :
    ∃ c, sh.mem.heap n = some c ∧
      (c.node.next = .books ∨ ∃ m, c.node.next = .book m ∧ Since sh ns b m) := by
  have hlive : (sh.mem.heap n).isSome := (h.core.dom n).2 ⟨h.core.since_lt_next hs,
    h.core.live_of_since (h.clear _ hth) hb hs⟩
  obtain ⟨c, hc⟩ := Option.isSome_iff_exists.1 hlive
  refine ⟨c, hc, ?_⟩
  rcases hs with hn | ⟨t, ht, hm⟩
  · obtain ⟨d, hd, hnext⟩ :=
      h.core.ring.nextOf_mem (List.mem_cons_of_mem _ (List.mem_map_of_mem (f := Ref.book) hn))
    simp only [nextOf, Mem.link_book, hc, Option.map_some, Option.some.injEq] at hnext
    subst hnext
    refine (List.mem_cons.1 hd).imp_right fun hm => ?_
    obtain ⟨m, hm, e⟩ := List.mem_map.1 hm
    exact ⟨m, e.symm, .inl hm⟩
  · refine (h.core.next_of _ hm c hc).imp_right ?_
    rintro ⟨m, hcm, hsm⟩
    exact ⟨m, hcm, hsm.mono (Nat.le_succ_of_le ht)⟩

theorem Inv.read_step {rd₀ rd : Reader} {r : Ref} {b : Nat}
    (h : Inv sh (⟨.read rd₀, .reading r b rd⟩ :: os) ns)
    (hs : Thread.step sh elapsed alloc ⟨.read rd₀, .reading r b rd⟩ = some (sh', pc')) :
    Inv sh'.tick (⟨.read rd₀, pc'⟩ :: os) ns := by
  obtain ⟨hb, hr⟩ := h.ok _ List.mem_cons_self
  rcases hr with rfl | ⟨n, rfl, hn⟩
  · cases hs
    exact h.idle trivial (by simp [Pc.section?]) rfl rfl
  · obtain ⟨c, hc, hnext⟩ := h.next_since List.mem_cons_self rfl hn
    simp only [Thread.step, hc, Option.some.injEq, Prod.mk.injEq] at hs
    obtain ⟨rfl, rfl⟩ := hs
    exact h.idle ⟨Nat.le_succ_of_le hb, hnext⟩ (by simp [Pc.section?]) rfl rfl

/-- A thread takes a step; if it is a `list_replace_rcu`, nobody has unlinked what its scan
found. -/
theorem Inv.thread_step {th : Thread} (h : Inv sh (th :: os) ns)
    (hu : ∀ u id async old new b, th = ⟨.update u id async, .copied old new b⟩ →
      ∀ p ∈ sh.unlinks, p.1 = old → p.2 < b)
    (helapsed : ∀ g, elapsed g = true → ∀ x ∈ os, ∀ b, x.pc.section? = some b → g < b)
    (hs : th.step sh elapsed alloc = some (sh', pc')) :
    ∃ ns', Inv sh'.tick (⟨th.op, pc'⟩ :: os) ns' := by
  obtain ⟨op, pc⟩ := th
  cases op with
  | Add_book id name author =>
    cases pc with
    | start => exact ⟨ns, h.stock_step hs⟩
    | stocked n =>
      cases hs
      exact ⟨_, h.add_step⟩
    | _ => simp [Thread.step] at hs
  | update u id async =>
    cases pc with
    | start => exact ⟨ns, h.lookup_step hs⟩
    | found old b => exact ⟨ns, h.copy_step hs⟩
    | copied old new b =>
      cases hs
      exact h.replace_step (hu _ _ _ _ _ _ rfl)
    | retiring old => exact ⟨ns, h.retire_step hs⟩
    | waiting old g => exact ⟨ns, h.wait_step helapsed hs⟩
    | _ => simp [Thread.step] at hs
  | Delete_book id async =>
    cases pc with
    | start => exact h.del_step hs
    | retiring old => exact ⟨ns, h.retire_step hs⟩
    | waiting old g => exact ⟨ns, h.wait_step helapsed hs⟩
    | _ => simp [Thread.step] at hs
  | read rd =>
    cases pc with
    | start =>
      cases hs
      exact ⟨ns, h.enter_step⟩
    | reading r b rd => exact ⟨ns, h.read_step hs⟩
    | _ => simp [Thread.step] at hs

theorem Inv.spawn {ths : List Thread} (h : Inv sh ths ns) (op : Op) :
    Inv sh (⟨op, .start⟩ :: ths) ns where
  core := h.core
  ok := List.forall_mem_cons.2 ⟨trivial, h.ok⟩
  clear := List.forall_mem_cons.2 ⟨by simp [Thread.Clear, Pc.section?], h.clear⟩
  apart := by simpa [Pc.new?] using h.apart
  custody := by simpa [Pc.held?] using h.custody
  queued := h.queued

end Step

/-! ## Runs -/

theorem Sys.elapsed_iff {s : Sys} {g : Nat} :
    s.elapsed g = true ↔ ∀ x ∈ s.threads, ∀ b, x.pc.section? = some b → g < b := by
  simp [Sys.elapsed, List.all_eq_true, Option.all_eq_true]

theorem Inv.step {s s' : Sys} {a : Action} {ns : List Nat} (h : Inv s.toShared s.threads ns)
    (hu : Undisturbed s a) (hs : s.step a = some s') : ∃ ns', Inv s'.toShared s'.threads ns' := by
  unfold Sys.step at hs
  rw [if_neg (by simp [h.core.calm])] at hs
  cases a with
  | spawn op =>
    cases hs
    have hst : Inv s.toShared.tick (⟨op, .start⟩ :: s.threads) ns :=
      (h.spawn op).idle trivial (by simp [Pc.section?]) rfl rfl
    exact ⟨ns, hst.perm (List.perm_append_singleton _ _).symm⟩
  | run t alloc =>
    simp only [Option.bind_eq_bind, Option.bind_eq_some_iff, Option.some.injEq] at hs
    obtain ⟨th, hth, ⟨sh, pc⟩, hstep, rfl⟩ := hs
    obtain ⟨os, hp, hset⟩ := perm_of_getElem? hth
    have helapsed : ∀ g, s.elapsed g = true → ∀ x ∈ os, ∀ b, x.pc.section? = some b → g < b :=
      fun g hg x hx => Sys.elapsed_iff.1 hg x (hp.mem_iff.2 (List.mem_cons_of_mem _ hx))
    obtain ⟨ns', h'⟩ := (h.perm hp).thread_step (fun u id async old new b e => by
      subst e
      simpa only [Undisturbed, hth] using hu) helapsed hstep
    exact ⟨ns', h'.perm (hset _).symm⟩
  | callback q =>
    simp only at hs
    split at hs
    · rename_i hq
      cases hs
      have hpe := (List.perm_cons_erase hq.1).map Prod.fst
      refine ⟨ns, h.free _ (fun x hx => .inl hx) rfl (List.erase_subset) (h.queued q hq.1)
        (Sys.elapsed_iff.1 hq.2) ?_⟩
      exact (List.perm_middle.symm).trans (hpe.symm.append_left _)
    · cases hs

/-- What the updaters are to keep. -/
structure Orderly (s : Sys) : Prop where
  calm : s.oops = false
  unlinked : ∀ n, (s.unlinks.map Prod.fst).count n ≤ 1
  freed : ∀ n, s.frees.count n ≤ 1
  alternates : ∀ c, (opsOn s.history c).IsChain (· ≠ ·)

theorem Inv.orderly {s : Sys} {ns : List Nat} (h : Inv s.toShared s.threads ns) : Orderly s where
  calm := h.core.calm
  unlinked := List.nodup_iff_count_le_one.1 h.core.once
  freed := by
    have := h.custody.nodup_iff.2 h.core.once
    exact List.nodup_iff_count_le_one.1 (List.nodup_append.1 this).2.1
  alternates := h.core.alternates

/-- The objects `list_replace_rcu` and `list_del_rcu` are applied to are on the list. -/
theorem Inv.applies_onList {s : Sys} {a : Action} {ns : List Nat} {n : Nat}
    (h : Inv s.toShared s.threads ns) (hu : Undisturbed s a) (hn : s.applies a = some n) :
    OnList s.mem n := by
  rw [h.core.onList_iff]
  cases a with
  | spawn op => simp [Sys.applies] at hn
  | callback q => simp [Sys.applies] at hn
  | run t alloc =>
    simp only [Sys.applies, Option.bind_eq_some_iff] at hn
    obtain ⟨th, hth, hn⟩ := hn
    unfold Thread.applies at hn
    have hmem := List.mem_of_getElem? hth
    split at hn
    · rename_i u id async old new b hop hpc
      obtain ⟨op, pc⟩ := th
      simp only at hop hpc
      subst hop hpc
      cases hn
      exact h.found_mem hmem (by simpa only [Undisturbed, hth] using hu)
    · rename_i id async hop hpc
      rcases h.core.find_book_cases id with hr | ⟨k, hk, hr⟩
      · simp [hr] at hn
      · simp only [hr, Option.join_some, Option.some.injEq] at hn
        exact hn ▸ hk
    · cases hn

/-- In every state the run passes through. -/
def OrderlyRun (as : List Action) : Prop :=
  ∀ i s, run Sys.step Sys.init (as.take i) = some s →
    Orderly s ∧ ∀ a n, as[i]? = some a → s.applies a = some n → OnList s.mem n

theorem inv_of_run {as : List Action} {s : Sys} (h : Along Sys.step Undisturbed Sys.init as)
    (hs : run Sys.step Sys.init as = some s) : ∃ ns, Inv s.toShared s.threads ns :=
  run_inv (I := fun s => ∃ ns, Inv s.toShared s.threads ns)
    (fun ⟨_, hi⟩ hu hst => hi.step hu hst) ⟨[], Inv.init⟩ h hs

/-- A step of `Borrow_book` or `Return_book` that is disturbed is not on an object of the list. -/
theorem Inv.undisturbed {s : Sys} {a : Action} {ns : List Nat} (h : Inv s.toShared s.threads ns)
    (hn : ∀ n, s.applies a = some n → OnList s.mem n) : Undisturbed s a := by
  cases a with
  | spawn op => trivial
  | callback q => trivial
  | run t alloc =>
    simp only [Undisturbed]
    split
    · rename_i u id async old new b hth
      have hold : old ∈ ns := by
        rw [← h.core.onList_iff]
        exact hn old (by simp [Sys.applies, Thread.applies, hth])
      intro p hp e
      exact absurd (e ▸ hold) (h.core.gone p hp).1
    · trivial

/-- A run is orderly exactly when nobody unlinks an object between the scan that found it and the
`list_replace_rcu` on it. -/
theorem orderlyRun_iff (as : List Action) :
    OrderlyRun as ↔ Along Sys.step Undisturbed Sys.init as := by
  constructor
  · intro h
    have hpre : ∀ i, Along Sys.step Undisturbed Sys.init (as.take i) := by
      intro i
      induction i with
      | zero => trivial
      | succ i ih =>
        rw [List.take_add_one]
        cases ha : as[i]? with
        | none => simpa using ih
        | some a =>
          refine Along.snoc.2 ⟨ih, fun s hs => ?_⟩
          obtain ⟨ns, hi⟩ := inv_of_run ih hs
          exact hi.undisturbed fun n => (h i s hs).2 a n ha
    simpa using hpre as.length
  · intro h i s hs
    obtain ⟨ns, hi⟩ := inv_of_run (h.take i) hs
    exact ⟨hi.orderly, fun a n ha hn => hi.applies_onList (h.get ha hs) hn⟩

/-- Two calls of `Borrow_book(7)` scan before either replaces: the second one applies
`list_replace_rcu` to object 0, which the first has replaced by object 1. -/
theorem overlapping_borrows : ¬ ∀ as, OrderlyRun as := by
  intro h
  let borrow : Action := .spawn (.update .Borrow 7 true)
  let as : List Action := [.spawn (.Add_book 7 ⟨[], by simp⟩ ⟨[], by simp⟩), .run 0 true,
    .run 0 true, borrow, borrow, .run 1 true, .run 2 true, .run 1 true, .run 2 true, .run 1 true,
    .run 2 true]
  have hrun : (run Sys.step Sys.init (as.take 10)).map
      (fun s => (s.applies (.run 2 true), nodes s.mem)) = some (some 0, some [1]) := by decide
  obtain ⟨s, hs, he⟩ := Option.map_eq_some_iff.1 hrun
  simp only [Prod.mk.injEq] at he
  obtain ⟨ns, hns, hmem⟩ := (h as 10 s hs).2 (.run 2 true) 0 rfl he.1
  rw [he.2, Option.some.injEq] at hns
  simp [← hns] at hmem

end LinuxKernelProg.Sync.ListRcu
