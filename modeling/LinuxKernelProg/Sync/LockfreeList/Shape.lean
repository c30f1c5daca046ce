import LinuxKernelProg.Sync.LockfreeList.Ops

/-!
# The list under several operations

What the list looks like while any number of `list_add_rcu` and `list_del_rcu` are under way, each
by somebody else and on a node of its own. As long as each store that links finds the pointers that
it goes by as they were loaded (`Op.Current`), the list is a `HalfRing` of the nodes that are shown
(`Shape`): a node is shown from the store that publishes it to the one that passes it over.
-/

namespace LinuxKernelProg.Sync.LockfreeList

open LinuxKernelProg.Lib
open LinkMem

/-- The cell has been published at some time, if it is one of a node. -/
def Gone (m : Mem) (ops : List Op) (a : Ref) : Prop :=
  ∃ n, a = .node n ∧ n < m.next ∧ ∀ op ∈ ops, op.fresh ≠ some n

def Late (ops : List Op) (a b : Ref) : Prop := ∃ op ∈ ops, op.late = some (a, b)

/-- The nodes `ns` are shown, each operation has a node of its own and is where it should be, and a
live node is shown, poisoned, or in the hands of an operation. -/
structure Shape (m : Mem) (ops : List Op) (ns : List Nat) : Prop where
  ring : HalfRing m .demo_list (ns.map .node) (Gone m ops) (Late ops)
  differ : ∀ (i j : Nat) op op' n, ops[i]? = some op → ops[j]? = some op' →
    op.node = some n → op'.node = some n →
    i = j
  lt : ∀ op ∈ ops, ∀ n, op.node = some n → n < m.next
  ok : ∀ op ∈ ops, op.Ok m ns
  heap : ∀ n, (m.heap n).isSome → n < m.next ∧ (n ∈ ns ∨ prevOf m (.node n) = some .poison ∨
    ∃ op ∈ ops, op.fresh = some n ∨ op.poisons = some n)

/-- What is done to the node `n` and to the list leaves the other nodes alone. -/
structure Effect (m m' : Mem) (ns ns' : List Nat) (n : Nat) : Prop where
  next : m.next ≤ m'.next
  heap : ∀ k, k ≠ n → (m'.heap k).map Node.thread_id = (m.heap k).map Node.thread_id
  link : ∀ a, a ≠ .node n → a ∉ .demo_list :: ns.map .node → link m' a = link m a
  mem : ∀ k, k ≠ n → (k ∈ ns' ↔ k ∈ ns)

variable {m m' : Mem} {ops : List Op} {op op' : Op} {ns ns' : List Nat} {i n k : Nat}

@[simp] theorem node_mem_cells : Ref.node k ∈ Ref.demo_list :: ns.map .node ↔ k ∈ ns := by
  simp

theorem map_erase_node : (ns.erase n).map Ref.node = (ns.map Ref.node).erase (.node n) :=
  List.map_erase (fun _ _ => Ref.node.inj) ns

namespace Effect

theorem node (he : Effect m m' ns ns' n) (hk : k ≠ n) (hns : k ∉ ns) :
    LinkMem.link m' (.node k) = LinkMem.link m (.node k) :=
  he.link (.node k) (fun e => hk (Ref.node.inj e)) (fun h => hns (node_mem_cells.1 h))

theorem nextOf (he : Effect m m' ns ns' n) (hk : k ≠ n) (hns : k ∉ ns) :
    LinkMem.nextOf m' (.node k) = LinkMem.nextOf m (.node k) :=
      congrArg (Option.map Link.next) (he.node hk hns)

theorem prevOf (he : Effect m m' ns ns' n) (hk : k ≠ n) (hns : k ∉ ns) :
    LinkMem.prevOf m' (.node k) = LinkMem.prevOf m (.node k) :=
      congrArg (Option.map Link.prev) (he.node hk hns)

/-- The operations on other nodes know what they knew. -/
theorem ok (he : Effect m m' ns ns' n) (hn : op.node ≠ some n) (hok : op.Ok m ns) :
    op.Ok m' ns' := by
  cases op with
  | idle => trivial
  | add k op =>
    have hk : k ≠ n := fun e => hn (congrArg some e)
    cases op with
    | load => exact fun h => hok ((he.mem k hk).1 h)
    | next x => exact fun h => hok ((he.mem k hk).1 h)
    | prev x => exact ⟨fun h => hok.1 ((he.mem k hk).1 h), (he.nextOf hk hok.1).trans hok.2⟩
    | publish x =>
      obtain ⟨hns, hnext, hprev⟩ := hok
      exact ⟨fun h => hns ((he.mem k hk).1 h), (he.nextOf hk hns).trans hnext,
        (he.prevOf hk hns).trans hprev⟩
    | back x => exact (he.mem k hk).2 hok
  | del k op =>
    have hk : k ≠ n := fun e => hn (congrArg some e)
    cases op with
    | poison => exact fun h => hok ((he.mem k hk).1 h)
    | _ => trivial

end Effect

/-- Stores to list cells neither allocate nor free a node, and the rest of a node stays. -/
def Keeps (m m' : Mem) : Prop :=
  m'.next = m.next ∧ ∀ k, (m'.heap k).map Node.thread_id = (m.heap k).map Node.thread_id

theorem keeps_frame : Frame Keeps where
  refl _ := ⟨rfl, fun _ => rfl⟩
  trans hab hbc := ⟨hbc.1.trans hab.1, fun k => (hbc.2 k).trans (hab.2 k)⟩
  store m a l _ := by
    cases a with
    | node n =>
      refine ⟨rfl, fun k => ?_⟩
      change (Function.update m.heap n _ k).map _ = _
      rcases eq_or_ne k n with rfl | hk
      · rw [Function.update_self, Option.map_map]
        rfl
      · rw [Function.update_of_ne hk]
    | _ => exact ⟨rfl, fun _ => rfl⟩

theorem Keeps.isSome (hk : Keeps m m') (n : Nat) : (m'.heap n).isSome = (m.heap n).isSome := by
  rw [← Option.isSome_map (f := Node.thread_id), hk.2, Option.isSome_map]

theorem Op.keeps (h : op.step m = some (m', op')) : Keeps m m' := by
  cases Op.moves h with
  | load hx => exact keeps_frame.refl m
  | next hs => exact keeps_frame.setNext hs
  | prev hs => exact keeps_frame.setPrev hs
  | publish hs => exact keeps_frame.setNext hs
  | addBack hs => exact keeps_frame.setPrev hs
  | loadPrev hp => exact keeps_frame.refl m
  | loadNext hx => exact keeps_frame.refl m
  | delBack hs => exact keeps_frame.setPrev hs
  | forth hs => exact keeps_frame.setNext hs
  | poison hs => exact keeps_frame.setPrev hs

/-- A store to the cell of the node or to one of the list. -/
theorem Effect.store {a : Ref} (hk : Keeps m m')
    (hl : ∀ b, b ≠ a → LinkMem.link m' b = LinkMem.link m b)
    (ha : a = .node n ∨ a ∈ .demo_list :: ns.map .node) (hmem : ∀ k, k ≠ n → (k ∈ ns' ↔ k ∈ ns)) :
    Effect m m' ns ns' n where
  next := Nat.le_of_eq hk.1.symm
  heap k _ := hk.2 k
  link b hb hb' := hl b fun e => ha.elim (fun h => hb (e.trans h)) fun h => hb' (e ▸ h)
  mem := hmem

theorem Effect.refl (m : Mem) (ns : List Nat) (n : Nat) : Effect m m ns ns n :=
  ⟨Nat.le_refl _, fun _ _ => rfl, fun _ _ _ => rfl, fun _ _ => Iff.rfl⟩

theorem Gone.step {a : Ref} (h : Gone m ops a) (hnext : m.next ≤ m'.next)
    (hfresh : ∀ k, op'.fresh = some k → (∃ op ∈ ops, op.fresh = some k) ∨ m.next ≤ k) :
    Gone m' (ops.set i op') a := by
  obtain ⟨k, rfl, hlt, hops⟩ := h
  refine ⟨k, rfl, Nat.lt_of_lt_of_le hlt hnext, fun o ho hk => ?_⟩
  rcases eq_or_mem_of_mem_set ho with rfl | ho
  · rcases hfresh k hk with ⟨o', ho', hk'⟩ | hle
    · exact hops o' ho' hk'
    · exact Nat.not_lt.2 hle hlt
  · exact hops o (List.mem_of_mem_eraseIdx ho) hk

theorem Late.step {a b : Ref} (h : Late ops a b) (hop : ops[i]? = some op)
    (hl : op.late = some (a, b) → op'.late = some (a, b)) : Late (ops.set i op') a b :=
  exists_mem_set hop hl h

theorem Late.own {a b : Ref} (hop : ops[i]? = some op) (hl : op'.late = some (a, b)) :
    Late (ops.set i op') a b :=
  ⟨op', List.mem_set (List.getElem?_eq_some_iff.1 hop).1 op', hl⟩

namespace Shape

/-- What is to be shown of an operation's step. -/
theorem advance (hs : Shape m ops ns) (hop : ops[i]? = some op) (he : Effect m m' ns ns' n)
    (hn : ∀ k, op.node = some k → k = n) (hn' : ∀ k, op'.node = some k → k = n ∧ k < m'.next)
    (halone : ∀ j o, j ≠ i → ops[j]? = some o → o.node ≠ some n) (hok : op'.Ok m' ns')
    (hring : HalfRing m' .demo_list (ns'.map .node) (Gone m' (ops.set i op'))
      (Late (ops.set i op')))
    (hheap : (m'.heap n).isSome →
      n < m'.next ∧ (n ∈ ns' ∨ prevOf m' (.node n) = some .poison ∨ op'.fresh = some n ∨
        op'.poisons = some n)) : Shape m' (ops.set i op') ns' where
  ring := hring
  differ := by
    intro j k o o' l hj hk hl hl'
    rcases getElem?_set_cases hj with ⟨hji, ho⟩ | ⟨hji, hjo⟩ <;>
      rcases getElem?_set_cases hk with ⟨hki, ho'⟩ | ⟨hki, hko⟩
    · rw [hji, hki]
    · obtain ⟨rfl, -⟩ := hn' l (ho ▸ hl)
      exact absurd hl' (halone k o' hki hko)
    · obtain ⟨rfl, -⟩ := hn' l (ho' ▸ hl')
      exact absurd hl (halone j o hji hjo)
    · exact hs.differ j k o o' l hjo hko hl hl'
  lt := by
    intro o ho l hl
    rcases eq_or_mem_of_mem_set ho with rfl | ho
    · exact (hn' l hl).2
    · exact Nat.lt_of_lt_of_le (hs.lt o (List.mem_of_mem_eraseIdx ho) l hl) he.next
  ok := by
    intro o ho
    obtain ⟨j, hj⟩ := List.mem_iff_getElem?.1 ho
    rcases getElem?_set_cases hj with ⟨-, rfl⟩ | ⟨hji, hj⟩
    · exact hok
    · exact he.ok (halone j o hji hj) (hs.ok o (List.mem_of_getElem? hj))
  heap := by
    intro k hk
    rcases eq_or_ne k n with rfl | hkn
    · obtain ⟨hlt, hor⟩ := hheap hk
      have hmem : op' ∈ ops.set i op' := List.mem_set (List.getElem?_eq_some_iff.1 hop).1 op'
      exact ⟨hlt, hor.imp_right (Or.imp_right fun h => ⟨op', hmem, h⟩)⟩
    · have hk' : (m.heap k).isSome := by
        rwa [← Option.isSome_map (f := Node.thread_id), he.heap k hkn, Option.isSome_map] at hk
      obtain ⟨hlt, hor⟩ := hs.heap k hk'
      refine ⟨Nat.lt_of_lt_of_le hlt he.next, ?_⟩
      by_cases hns : k ∈ ns
      · exact .inl ((he.mem k hkn).2 hns)
      · refine .inr ((hor.resolve_left hns).imp (he.prevOf hkn hns).trans fun ⟨o, ho, h⟩ => ?_)
        -- it is in the hands of somebody else
        obtain ⟨j, hj⟩ := List.mem_iff_getElem?.1 ho
        refine ⟨o, List.mem_of_getElem? (i := j) ?_, h⟩
        rw [List.getElem?_set_ne, hj]
        rintro rfl
        obtain rfl := Option.some.inj (hop.symm.trans hj)
        exact hkn (hn k (h.elim Op.node_of_fresh Op.node_of_poisons))

/-- Nobody else has the node in hand. -/
theorem own (hs : Shape m ops ns) (hop : ops[i]? = some op) (hn : op.node = some n)
    (h : ∃ o ∈ ops, o.fresh = some n ∨ o.poisons = some n) :
    op.fresh = some n ∨ op.poisons = some n := by
  obtain ⟨o, ho, h⟩ := h
  obtain ⟨j, hj⟩ := List.mem_iff_getElem?.1 ho
  obtain rfl := hs.differ j i o op n hj hop (h.elim Op.node_of_fresh Op.node_of_poisons) hn
  obtain rfl := Option.some.inj (hop.symm.trans hj)
  exact h

/-- A node that its neighbour in front leads to is shown, if it is neither new nor passed over. -/
theorem mem_of_front {p : Ref} (hs : Shape m ops ns) (hop : ops[i]? = some op)
    (hn : op.node = some n) (hfresh : op.fresh = none) (hpoisons : op.poisons = none)
    (hp : prevOf m (.node n) = some p) (hpn : nextOf m p = some (.node n)) : n ∈ ns := by
  obtain ⟨l, hl⟩ := Option.isSome_iff_exists.1 (live_of_prevOf hp)
  obtain ⟨node, hnode, -⟩ := Option.map_eq_some_iff.1 hl
  rcases (hs.heap n (Option.isSome_iff_exists.2 ⟨node, hnode⟩)).2 with hns | hpoison | hown
  · exact hns
  · rw [hpoison] at hp
    cases hp
    cases hpn
  · rcases hs.own hop hn hown with h | h
    · rw [hfresh] at h
      cases h
    · rw [hpoisons] at h
      cases h

/-- The same for a step in which nothing is allocated. -/
theorem turn (hs : Shape m ops ns) (hop : ops[i]? = some op) (hk : Keeps m m')
    (he : Effect m m' ns ns' n) (hn : op.node = some n) (hn' : op'.node = some n ∨ op'.node = none)
    (hok : op'.Ok m' ns')
    (hring : HalfRing m' .demo_list (ns'.map .node) (Gone m' (ops.set i op'))
      (Late (ops.set i op')))
    (hplace : n ∈ ns ∨ prevOf m (.node n) = some .poison ∨ op.fresh = some n ∨ op.poisons = some n →
      n ∈ ns' ∨ prevOf m' (.node n) = some .poison ∨ op'.fresh = some n ∨ op'.poisons = some n) :
    Shape m' (ops.set i op') ns' := by
  have hmem := List.mem_of_getElem? hop
  have hnode : ∀ k, op.node = some k → k = n := fun k hk => Option.some.inj (hk.symm.trans hn)
  refine hs.advance hop he hnode (fun k hk' => ?_)
    (fun j o hji hj hno => hji (hs.differ j i o op n hj hop hno hn))
    hok hring fun hlive => ?_
  · rcases hn' with h | h <;> rw [h] at hk' <;> cases hk'
    exact ⟨rfl, hk.1 ▸ hs.lt op hmem n hn⟩
  · rw [hk.isSome] at hlive
    obtain ⟨hlt, hor⟩ := hs.heap n hlive
    exact ⟨hk.1 ▸ hlt, hplace (hor.imp_right (Or.imp_right (hs.own hop hn)))⟩

/-- The ring stays as it is where nothing but the operation changes. -/
theorem ring_op (hs : Shape m ops ns) (hop : ops[i]? = some op)
    (hfresh : ∀ k, op'.fresh = some k → op.fresh = some k) (hlate : op.late = none) :
    HalfRing m .demo_list (ns.map .node) (Gone m (ops.set i op')) (Late (ops.set i op')) :=
  hs.ring.frame (fun _ _ => rfl) (fun _ _ _ h => h)
    (fun _ h => h.step (Nat.le_refl _) fun k hk => .inl ⟨op, List.mem_of_getElem? hop, hfresh k hk⟩)
    (fun _ _ h => .inr (h.step hop fun h => by rw [hlate] at h; cases h))

/-- Nor does a store to the cell of a node that is not shown change it. -/
theorem ring_store (hs : Shape m ops ns) (hop : ops[i]? = some op) (hk : Keeps m m') (hns : n ∉ ns)
    (hl : ∀ b, b ≠ .node n → link m' b = link m b)
    (hnext : op.fresh = some n ∨ ∀ b, nextOf m' b = nextOf m b)
    (hfresh : ∀ k, op'.fresh = some k → op.fresh = some k) (hlate : op.late = none) :
    HalfRing m' .demo_list (ns.map .node) (Gone m' (ops.set i op')) (Late (ops.set i op')) := by
  have hmem := List.mem_of_getElem? hop
  refine hs.ring.frame (fun b hb => hl b ?_) (fun p hp b hb => ?_) (fun p hp => ?_)
    fun _ _ h => .inr (h.step hop fun h => by rw [hlate] at h; cases h)
  · rintro rfl
    exact hns (node_mem_cells.1 hb)
  · rcases hnext with hfresh | hnext
    · obtain ⟨k, rfl, -, hops⟩ := hp
      have hkn : Ref.node k ≠ .node n := fun e => hops op hmem (by rw [hfresh, Ref.node.inj e])
      rwa [LinkMem.nextOf, hl _ hkn] at hb
    · rwa [hnext] at hb
  · exact hp.step (Nat.le_of_eq hk.1.symm) fun k hk => .inl ⟨op, hmem, hfresh k hk⟩

theorem step (hs : Shape m ops ns) (hop : ops[i]? = some op) (hC : op.Current m)
    (h : op.step m = some (m', op')) :
    Shape m' (ops.set i op') (op.shown ns) := by
  have hmem := List.mem_of_getElem? hop
  have hok := hs.ok op hmem
  cases Op.moves h with
  | @load n x hx =>
    exact hs.turn hop (keeps_frame.refl m) (.refl m ns n) rfl (.inl rfl) hok
      (hs.ring_op hop (fun _ h => h) rfl) fun _ => .inr (.inr (.inl rfl))
  | @next n x _ hs' =>
    obtain ⟨hn, hp, hl⟩ := of_setNext hs'
    have hk := keeps_frame.setNext hs'
    refine hs.turn hop hk (.store hk hl (.inl rfl) fun _ _ => Iff.rfl) rfl (.inl rfl) ⟨hok, ?_⟩ ?_
      fun _ => .inr (.inr (.inl rfl))
    · rw [hn, if_pos rfl]
    · exact hs.ring_store hop hk hok hl (.inl rfl) (fun _ h => h) rfl
  | @prev n x _ hs' =>
    obtain ⟨hn, hp, hl⟩ := of_setPrev hs'
    have hk := keeps_frame.setPrev hs'
    obtain ⟨hns, hnx⟩ := hok
    refine hs.turn hop hk (.store hk hl (.inl rfl) fun _ _ => Iff.rfl) rfl
      (.inl rfl) ⟨hns, ?_, ?_⟩ ?_
      fun _ => .inr (.inr (.inl rfl))
    · rw [hn, hnx]
    · rw [hp, if_pos rfl]
    · exact hs.ring_store hop hk hns hl (.inl rfl) (fun _ h => h) rfl
  | @publish n x _ hs' =>
    have hk := keeps_frame.setNext hs'
    obtain ⟨hns, hnx, hnp⟩ := hok
    have hmemc : ∀ k, k ≠ n → (k ∈ n :: ns ↔ k ∈ ns) := fun k hkn => by simp [hkn]
    refine hs.turn hop hk (.store hk (of_setNext hs').2.2 (.inr List.mem_cons_self) hmemc) rfl
      (.inl rfl)
      List.mem_cons_self ?_ fun _ => .inl List.mem_cons_self
    refine hs.ring.publish (fun h => hns (node_mem_cells.1 h)) hnx hnp hC hs'
      (fun p hp => hp.step (Nat.le_of_eq hk.1.symm) fun _ h => by cases h)
      (fun _ _ hl => hl.step hop fun h => by cases h) (.own hop rfl)
  | @addBack n x _ hs' =>
    have hk := keeps_frame.setPrev hs'
    have hnmem := node_mem_cells.2 hok
    have hx := hs.ring.mem_of_nextOf hnmem hC
    refine hs.turn hop hk (.store hk (of_setPrev hs').2.2 (.inr hx) fun _ _ => Iff.rfl) rfl
      (.inr rfl) trivial ?_
      fun _ => .inl hok
    refine hs.ring.lead_back hs' hnmem
      (fun p hp => hp.step (Nat.le_of_eq hk.1.symm) fun _ h => by cases h)
      (fun a ha hax => .inl (hs.ring.inj hnmem ha (Eq.trans hC hax.symm))) fun a b hb hl =>
        hl.step hop fun h => ?_
    cases h
    exact absurd rfl hb
  | @loadPrev n p hp =>
    exact hs.turn hop (keeps_frame.refl m) (.refl m ns n) rfl (.inl rfl) trivial
      (hs.ring_op hop (fun _ h => by cases h) rfl)
        (Or.imp_right (Or.imp_right fun h => by obtain h | h := h <;> cases h))
  | @loadNext n p x hx =>
    exact hs.turn hop (keeps_frame.refl m) (.refl m ns n) rfl (.inl rfl) trivial
      (hs.ring_op hop (fun _ h => by cases h) rfl)
        (Or.imp_right (Or.imp_right fun h => by obtain h | h := h <;> cases h))
  | @delBack n p x _ hs' =>
    obtain ⟨hp, hpn, hnx⟩ := hC
    have hk := keeps_frame.setPrev hs'
    have hns := hs.mem_of_front hop rfl rfl rfl hp hpn
    have hnmem := node_mem_cells.2 hns
    have hx := hs.ring.mem_of_nextOf hnmem hnx
    refine hs.turn hop hk (.store hk (of_setPrev hs').2.2 (.inr hx) fun _ _ => Iff.rfl) rfl
      (.inl rfl) trivial ?_
      fun _ => .inl hns
    refine hs.ring.lead_back hs' (hs.ring.front hnmem hp hpn)
      (fun p hp => hp.step (Nat.le_of_eq hk.1.symm) fun _ h => by cases h) (fun a ha hax => .inr ?_)
      fun _ _ _ hl => hl.step hop fun h => by cases h
    obtain rfl := hs.ring.inj hnmem ha (hnx.trans hax.symm)
    exact .own hop rfl
  | @forth n p x _ hs' =>
    obtain ⟨hp, hpn, hnx, hpx⟩ := hC
    have hk := keeps_frame.setNext hs'
    have hns := hs.mem_of_front hop rfl rfl rfl hp hpn
    have hnmem := node_mem_cells.2 hns
    have hnd : ns.Nodup := (List.nodup_cons.1 hs.ring.nodup).2.of_map _
    refine hs.turn hop hk (.store hk (of_setNext hs').2.2 (.inr (hs.ring.front hnmem hp hpn))
      fun k hkn => ?_) rfl
      (.inl rfl) hnd.not_mem_erase ?_ fun _ => .inr (.inr (.inr rfl))
    · exact List.mem_erase_of_ne hkn
    · change HalfRing _ _ ((ns.erase n).map Ref.node) _ _
      rw [map_erase_node]
      refine hs.ring.unlink (List.mem_map_of_mem hns) hp hpn hnx hpx hs'
        (fun p hp => hp.step (Nat.le_of_eq hk.1.symm) fun _ h => by cases h) ⟨n, rfl, ?_,
          fun o ho hfresh => ?_⟩
        fun a b ha hl => hl.step hop fun h => ?_
      · exact hk.1 ▸ hs.lt _ hmem n rfl
      · rcases eq_or_mem_of_mem_set ho with rfl | ho
        · cases hfresh
        · exact Op.Ok.not_mem (hs.ok o (List.mem_of_mem_eraseIdx ho)) hfresh hns
      · cases h
        exact absurd rfl ha
  | @poison n _ hs' =>
    obtain ⟨hn, hp, hl⟩ := of_setPrev hs'
    have hk := keeps_frame.setPrev hs'
    refine hs.turn hop hk (.store hk hl (.inl rfl) fun _ _ => Iff.rfl) rfl (.inr rfl) trivial ?_
      fun _ => .inr (.inl ?_)
    · exact hs.ring_store hop hk hok hl (.inr hn) (fun _ h => by cases h) rfl
    · rw [hp, if_pos rfl]

theorem lt_of_mem (hs : Shape m ops ns) (hn : n ∈ ns) : n < m.next := by
  obtain ⟨b, -, hb⟩ := hs.ring.nextOf_mem (node_mem_cells.2 hn)
  obtain ⟨l, hl⟩ := Option.isSome_iff_exists.1 (live_of_nextOf hb)
  obtain ⟨node, hnode, -⟩ := Option.map_eq_some_iff.1 hl
  exact (hs.heap n (Option.isSome_iff_exists.2 ⟨node, hnode⟩)).1

/-- `create_node`, for an operation that begins. -/
theorem create (hs : Shape m ops ns) (hop : ops[i]? = some .idle) (data thread_id : Int) :
    Shape (create_node m data thread_id).1 (ops.set i (.add m.next .load)) ns := by
  have hlink : ∀ k, k ≠ m.next →
      link (create_node m data thread_id).1 (.node k) = link m (.node k) := by
    intro k hk
    change ((Function.update m.heap m.next _) k).map _ = _
    rw [Function.update_of_ne hk]
    rfl
  have hns : m.next ∉ ns := fun h => Nat.lt_irrefl _ (hs.lt_of_mem h)
  have he : Effect m (create_node m data thread_id).1 ns ns m.next := by
    refine ⟨Nat.le_succ _, fun k hk => ?_, fun a ha _ => ?_, fun _ _ => Iff.rfl⟩
    · change (Function.update m.heap m.next _ k).map _ = _
      rw [Function.update_of_ne hk]
    · cases a with
      | node k => exact hlink k fun e => ha (congrArg Ref.node e)
      | _ => rfl
  refine hs.advance hop he nofun (fun k hk => ?_) (fun j o _ hj hno => ?_) hns ?_
    fun _ => ⟨Nat.lt_succ_self _, .inr (.inr (.inl rfl))⟩
  · cases hk
    exact ⟨rfl, Nat.lt_succ_self _⟩
  · exact Nat.lt_irrefl _ (hs.lt o (List.mem_of_getElem? hj) _ hno)
  · refine hs.ring.frame (fun b hb => ?_) (fun p hp b hb => ?_) (fun p hp => ?_)
      fun _ _ h => .inr (h.step hop fun h => by cases h)
    · cases b with
      | node k =>
        refine hlink k ?_
        rintro rfl
        exact hns (node_mem_cells.1 hb)
      | _ => rfl
    · obtain ⟨k, rfl, hlt, -⟩ := hp
      rwa [LinkMem.nextOf, hlink k (Nat.ne_of_lt hlt)] at hb
    · refine hp.step (Nat.le_succ _) fun k hk => ?_
      cases hk
      exact .inr (Nat.le_refl _)

/-- A removal begins. -/
theorem begin_del (hs : Shape m ops ns) (hop : ops[i]? = some .idle) (hlive : (m.heap n).isSome)
    (halone : ∀ j o, j ≠ i → ops[j]? = some o → o.node ≠ some n) :
    Shape m (ops.set i (.del n .loadPrev)) ns := by
  obtain ⟨hlt, hor⟩ := hs.heap n hlive
  refine hs.advance hop (.refl m ns n) nofun (fun k hk => ?_) halone trivial
    (hs.ring_op hop nofun rfl)
    fun _ => ⟨hlt, hor.imp_right (Or.imp_right fun ⟨o, ho, h⟩ => ?_)⟩
  · cases hk
    exact ⟨rfl, hlt⟩
  · obtain ⟨j, hj⟩ := List.mem_iff_getElem?.1 ho
    rcases eq_or_ne j i with rfl | hji
    · obtain rfl := Option.some.inj (hop.symm.trans hj)
      rcases h with h | h <;> cases h
    · exact absurd (h.elim Op.node_of_fresh Op.node_of_poisons) (halone j o hji hj)

/-- `kfree` of a node that was shown and is not any more. -/
theorem kfree (hs : Shape m ops ns) (hgone : Gone m ops (.node n)) (hns : n ∉ ns)
    (h : kfree m n = some m') :
    Shape m' ops ns := by
  obtain ⟨node, hnode, rfl⟩ := Option.map_eq_some_iff.1 h
  have hheap : ∀ k, k ≠ n → Function.update m.heap n none k = m.heap k :=
    fun k hk => Function.update_of_ne hk ..
  have hlink : ∀ a, a ≠ .node n →
      link { m with heap := Function.update m.heap n none } a = link m a := by
    intro a ha
    cases a with
    | node k => exact congrArg (Option.map Node.list) (hheap k fun e => ha (congrArg Ref.node e))
    | _ => rfl
  have he : Effect m { m with heap := Function.update m.heap n none } ns ns n :=
    ⟨Nat.le_refl _, fun k hk => congrArg _ (hheap k hk),
      fun a ha _ => hlink a ha, fun _ _ => Iff.rfl⟩
  refine ⟨hs.ring.frame (fun b hb => hlink b ?_) (fun p _ b hb => ?_) (fun _ h => h)
    (fun _ _ h => .inr h), hs.differ,
    hs.lt, fun o ho => ?_, fun k hk => ?_⟩
  · rintro rfl
    exact hns (node_mem_cells.1 hb)
  · by_cases hp : p = .node n
    · subst hp
      change ((Function.update m.heap n none n).map Node.list).map Link.next = some b at hb
      rw [Function.update_self] at hb
      cases hb
    · rwa [LinkMem.nextOf, hlink p hp] at hb
  · have hok := hs.ok o ho
    by_cases hn : o.node = some n
    · -- it is about to remove the node, and will not find it
      cases o with
      | idle => trivial
      | add k op =>
        cases hn
        obtain ⟨_, e, -, hops⟩ := hgone
        cases e
        cases op with
        | back x => exact absurd hok hns
        | _ => exact absurd rfl (hops _ ho)
      | del k op =>
        cases op with
        | poison => exact hok
        | _ => trivial
    · exact he.ok hn hok
  · rcases eq_or_ne k n with rfl | hkn
    · change (Function.update m.heap k none k).isSome at hk
      rw [Function.update_self] at hk
      cases hk
    · change (Function.update m.heap n none k).isSome at hk
      rw [hheap k hkn] at hk
      obtain ⟨hlt, hor⟩ := hs.heap k hk
      refine ⟨hlt, hor.imp_right (Or.imp_left fun h => ?_)⟩
      rwa [LinkMem.prevOf, hlink _ fun e => hkn (Ref.node.inj e)]

theorem init (h : ∀ op ∈ ops, op = .idle) : Shape .init ops [] where
  ring := by
    refine ⟨List.nodup_singleton _, rfl, fun b hb => ?_, fun a ha b hab => ?_⟩
    · obtain rfl := List.mem_singleton.1 hb
      exact ⟨.demo_list, rfl, .inl hb⟩
    · obtain rfl := List.mem_singleton.1 ha
      cases hab
      exact .inl rfl
  differ i _ op _ n hi _ hn _ := by
    rw [h op (List.mem_of_getElem? hi)] at hn
    cases hn
  lt op hop n hn := by
    rw [h op hop] at hn
    cases hn
  ok op hop := by
    rw [h op hop]
    trivial
  heap _ hn := by cases hn

end Shape

/-- What has come to an end fits with what is shown. -/
structure Recorded (m : Mem) (ops : List Op) (ns : List Nat) (es : List Event) : Prop where
  removed : ∀ n, .removed n ∈ es → Gone m ops (.node n) ∧ n ∉ ns
  shown : ∀ n ∈ ns, .added n ∈ es ∨ ∃ op ∈ ops, op.publishes = some n
  added : ∀ n, .added n ∈ es → n ∈ ns ∨ .removed n ∈ es ∨ ∃ op ∈ ops, op.poisons = some n

namespace Recorded

variable {es : List Event}

/-- An operation begins, or goes on without being seen. -/
theorem of_set (hr : Recorded m ops ns es) (hop : ops[i]? = some op) (hnext : m.next ≤ m'.next)
    (hfresh : ∀ k, op'.fresh = some k → (∃ op ∈ ops, op.fresh = some k) ∨ m.next ≤ k)
    (hpublishes : op.publishes = none) (hpoisons : op.poisons = none) :
    Recorded m' (ops.set i op') ns es where
  removed n hn := ⟨(hr.removed n hn).1.step hnext hfresh, (hr.removed n hn).2⟩
  shown n hn := (hr.shown n hn).imp_right
    (exists_mem_set hop fun h => by rw [hpublishes] at h; cases h)
  added n hn := (hr.added n hn).imp_right
    (Or.imp_right (exists_mem_set hop fun h => by rw [hpoisons] at h; cases h))

theorem step (hr : Recorded m ops ns es) (hs : Shape m ops ns) (hop : ops[i]? = some op)
    (h : op.step m = some (m', op')) :
    Recorded m' (ops.set i op') (op.shown ns) (es ++ op.events m) := by
  have hmem := List.mem_of_getElem? hop
  have hnext : m.next ≤ m'.next := Nat.le_of_eq (Op.keeps h).1.symm
  rw [Op.events_of_step h]
  cases Op.moves h with
  | @publish n x _ hs' =>
    have hgone : ∀ k, Gone m ops (.node k) → Gone m' (ops.set i (.add n (.back x))) (.node k) :=
      fun k hk => hk.step hnext fun _ h => by cases h
    change Recorded _ _ _ (es ++ [])
    rw [List.append_nil]
    refine ⟨fun k hk => ?_, fun k hk => ?_, fun k hk => ?_⟩
    · obtain ⟨hg, hns⟩ := hr.removed k hk
      refine ⟨hgone k hg, List.not_mem_cons_of_ne_of_not_mem ?_ hns⟩
      rintro rfl
      obtain ⟨_, e, -, hops⟩ := hg
      cases e
      exact hops _ hmem rfl
    · rcases List.mem_cons.1 hk with rfl | hk
      · exact .inr ⟨_, List.mem_set (List.getElem?_eq_some_iff.1 hop).1 _, rfl⟩
      · exact (hr.shown k hk).imp_right (exists_mem_set hop nofun)
    · exact (hr.added k hk).imp (List.mem_cons_of_mem n) (Or.imp_right (exists_mem_set hop nofun))
  | @addBack n x _ hs' =>
    change Recorded _ _ ns (es ++ [.added n])
    have hok := hs.ok _ hmem
    refine ⟨fun k hk => ?_, fun k hk => ?_, fun k hk => ?_⟩
    · obtain ⟨hg, hns⟩ := hr.removed k (by simpa using hk)
      exact ⟨hg.step hnext (fun _ h => by cases h), hns⟩
    · by_cases hkn : k = n
      · exact .inl (by simp [hkn])
      · exact (hr.shown k hk).imp (List.mem_append_left _)
          (exists_mem_set hop fun h => absurd (Option.some.inj h).symm hkn)
    · by_cases hkn : k = n
      · exact .inl (hkn ▸ hok)
      · refine (hr.added k (by simpa [hkn] using hk)).imp_right (Or.imp (List.mem_append_left _) ?_)
        exact exists_mem_set hop nofun
  | @forth n p x _ hs' =>
    change Recorded _ _ _ (es ++ [])
    rw [List.append_nil]
    refine ⟨fun k hk => ?_, fun k hk => ?_, fun k hk => ?_⟩
    · obtain ⟨hg, hns⟩ := hr.removed k hk
      exact ⟨hg.step hnext (fun _ h => by cases h), fun h => hns (List.mem_of_mem_erase h)⟩
    · exact (hr.shown k (List.mem_of_mem_erase hk)).imp_right (exists_mem_set hop nofun)
    · by_cases hkn : k = n
      · exact .inr (.inr ⟨_, List.mem_set (List.getElem?_eq_some_iff.1 hop).1 _, hkn ▸ rfl⟩)
      · exact (hr.added k hk).imp (List.mem_erase_of_ne hkn).2
          (Or.imp_right (exists_mem_set hop nofun))
  | @poison n _ hs' =>
    change Recorded _ _ ns (es ++ [.removed n])
    have hok := hs.ok _ hmem
    refine ⟨fun k hk => ?_, fun k hk => ?_, fun k hk => ?_⟩
    · by_cases hkn : k = n
      · subst hkn
        refine ⟨⟨k, rfl, Nat.lt_of_lt_of_le (hs.lt _ hmem k rfl) hnext, fun o ho hfresh => ?_⟩, hok⟩
        obtain ⟨j, hj⟩ := List.mem_iff_getElem?.1 ho
        rcases getElem?_set_cases hj with ⟨-, rfl⟩ | ⟨hji, hj⟩
        · cases hfresh
        · exact hji (hs.differ j i o _ k hj hop (Op.node_of_fresh hfresh) rfl)
      · obtain ⟨hg, hns⟩ := hr.removed k (by simpa [hkn] using hk)
        exact ⟨hg.step hnext (fun _ h => by cases h), hns⟩
    · exact (hr.shown k hk).imp (List.mem_append_left _) (exists_mem_set hop nofun)
    · by_cases hkn : k = n
      · exact .inr (.inl (by simp [hkn]))
      · refine (hr.added k (by simpa using hk)).imp_right (Or.imp (List.mem_append_left _) ?_)
        exact exists_mem_set hop fun h => absurd (Option.some.inj h).symm hkn
  | _ =>
    change Recorded _ _ _ (es ++ [])
    rw [List.append_nil]
    exact hr.of_set hop hnext (fun k hk => .inl ⟨_, hmem, hk⟩) rfl rfl

/-- **With no operation in progress** the list is well formed, and the nodes on it are those that
were added and not removed. -/
theorem of_quiet (hr : Recorded m ops ns es) (hs : Shape m ops ns)
    (hq : ∀ op ∈ ops, op.quiet = true) :
    Ring m .demo_list (ns.map .node) ∧ ∀ n, n ∈ ns ↔ .added n ∈ es ∧ .removed n ∉ es := by
  refine ⟨hs.ring.ring fun a b ⟨op, hop, h⟩ => ?_,
    fun n => ⟨fun hn => ⟨?_, fun h => (hr.removed n h).2 hn⟩, ?_⟩⟩
  · rw [Op.late_of_quiet (hq op hop)] at h
    cases h
  · refine (hr.shown n hn).resolve_right fun ⟨op, hop, h⟩ => ?_
    rw [Op.publishes_of_quiet (hq op hop)] at h
    cases h
  · rintro ⟨hadded, hremoved⟩
    refine (hr.added n hadded).resolve_right fun h => ?_
    obtain ⟨op, hop, h⟩ := h.resolve_left hremoved
    rw [Op.poisons_of_quiet (hq op hop)] at h
    cases h

/-- A removed node is not met on the way from the head. -/
theorem not_reached (hr : Recorded m ops ns es) (hs : Shape m ops ns) (h : .removed n ∈ es) :
    ¬ Relation.ReflTransGen (fun a b => nextOf m a = some b) .demo_list (.node n) :=
  fun hn => (hr.removed n h).2 (node_mem_cells.1 (hs.ring.mem_of_reaches hn))

end Recorded

end LinuxKernelProg.Sync.LockfreeList
