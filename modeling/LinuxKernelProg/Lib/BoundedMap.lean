import Mathlib.Data.Finset.Card
import Mathlib.Data.Finset.Dedup

/-!
# Maps of bounded size

A map holds at most `capacity` keys, each once, in the order in which they arrived. An update of a
key that is there replaces its value in place; an update of a new key is refused when the map is
full.
-/

namespace LinuxKernelProg.Lib

@[ext]
structure BoundedMap (κ υ : Type) (capacity : Nat) where
  entries : List (κ × υ)
  nodup : (entries.map Prod.fst).Nodup
  length_le : entries.length ≤ capacity

namespace BoundedMap

variable {κ υ : Type} [DecidableEq κ] {capacity : Nat}

def empty : BoundedMap κ υ capacity := ⟨[], by simp, by simp⟩

variable (m : BoundedMap κ υ capacity)

def map {ω : Type} (f : υ → ω) : BoundedMap κ ω capacity where
  entries := m.entries.map fun p => (p.1, f p.2)
  nodup := by simpa [Function.comp_def] using m.nodup
  length_le := by simpa using m.length_le

def keys : List κ := m.entries.map Prod.fst

def values : List υ := m.entries.map Prod.snd

def lookup (k : κ) : Option υ := m.entries.lookup k

/-- Change the value of a key, if the key is there. -/
def modify (k : κ) (f : υ → υ) : BoundedMap κ υ capacity where
  entries := m.entries.map fun p => if p.1 = k then (p.1, f p.2) else p
  nodup := by
    have : (m.entries.map fun p => if p.1 = k then (p.1, f p.2) else p).map Prod.fst =
        m.entries.map Prod.fst := by
      rw [List.map_map]
      exact List.map_congr_left fun p _ => by simp only [Function.comp_apply]; split <;> rfl
    rw [this]
    exact m.nodup
  length_le := by simpa using m.length_le

/-- Put in a value, whether the key is there or not; `none` when there is no room. -/
def update (k : κ) (v : υ) : Option (BoundedMap κ υ capacity) :=
  if hk : k ∈ m.keys then some (m.modify k fun _ => v)
  else if hroom : m.entries.length < capacity then
    some ⟨m.entries ++ [(k, v)], by
      rw [List.map_append, List.map_cons, List.map_nil]
      exact m.nodup.append (List.nodup_singleton k) (by simpa [keys] using hk), by
      rw [List.length_append]
      exact hroom⟩
  else none

/-- There is room for the key: it is there, or the map is not full. -/
def HasRoom (k : κ) : Prop := k ∈ m.keys ∨ m.entries.length < capacity

instance (k : κ) : Decidable (m.HasRoom k) :=
  inferInstanceAs (Decidable (k ∈ m.keys ∨ m.entries.length < capacity))

/-- Put in a value; without room the map stays as it is. -/
def put (k : κ) (v : υ) : BoundedMap κ υ capacity := (m.update k v).getD m

/-- Take out a key, if it is there. -/
def delete (k : κ) : BoundedMap κ υ capacity where
  entries := m.entries.filter fun p => p.1 ≠ k
  nodup := (m.nodup.sublist (List.filter_sublist.map Prod.fst))
  length_le := Nat.le_trans (List.length_filter_le _ _) m.length_le

variable {m} {k k' : κ} {v : υ}

omit [DecidableEq κ] in
@[simp] theorem length_keys : m.keys.length = m.entries.length := by
  simp [keys]

omit [DecidableEq κ] in
theorem nodup_keys : m.keys.Nodup := m.nodup

@[simp] theorem keys_modify (f : υ → υ) : (m.modify k f).keys = m.keys := by
  simp only [keys, modify, List.map_map]
  exact List.map_congr_left fun p _ => by simp only [Function.comp_apply]; split <;> rfl

theorem lookup_eq_none_iff : m.lookup k = none ↔ k ∉ m.keys := by
  simp only [lookup, keys, List.lookup_eq_none_iff, List.mem_map, not_exists, not_and, bne_iff_ne]
  exact ⟨fun h p hp e => h p hp e.symm, fun h p hp e => h p hp e.symm⟩

theorem lookup_eq_some_iff : m.lookup k = some v ↔ (k, v) ∈ m.entries := by
  constructor
  · intro h
    obtain ⟨l₁, l₂, he, -⟩ := List.lookup_eq_some_iff.1 h
    simp [he]
  · intro h
    obtain ⟨l₁, l₂, he⟩ := List.append_of_mem h
    refine List.lookup_eq_some_iff.2 ⟨l₁, l₂, he, fun p hp => ?_⟩
    have hnodup := m.nodup
    rw [he, List.map_append, List.nodup_append] at hnodup
    rw [bne_iff_ne]
    exact (hnodup.2.2 p.1 (List.mem_map_of_mem hp) k (by simp)).symm

theorem mem_values (h : m.lookup k = some v) : v ∈ m.values :=
  List.mem_map.2 ⟨(k, v), lookup_eq_some_iff.1 h, rfl⟩

theorem lookup_modify (f : υ → υ) :
    (m.modify k f).lookup k' = if k' = k then (m.lookup k').map f else m.lookup k' := by
  simp only [lookup, modify]
  induction m.entries with
  | nil => simp
  | cons p l ih =>
    obtain ⟨q, w⟩ := p
    by_cases hq : k' = q
    · subst hq
      by_cases hk : k' = k <;> simp [hk]
    · have hb : (k' == q) = false := by simpa using hq
      rw [List.map_cons]
      split <;> simp only [List.lookup_cons, hb, ih]

theorem update_new (hk : k ∉ m.keys) (hroom : m.entries.length < capacity) :
    ∃ m', m.update k v = some m' ∧ m'.entries = m.entries ++ [(k, v)] := by
  unfold update
  rw [dif_neg hk, dif_pos hroom]
  exact ⟨_, rfl, rfl⟩

theorem update_full (hk : k ∉ m.keys) (hfull : capacity ≤ m.entries.length) :
    m.update k v = none := by
  unfold update
  rw [dif_neg hk, dif_neg (Nat.not_lt.2 hfull)]

theorem lookup_update (k' : κ) {m' : BoundedMap κ υ capacity} (h : m.update k v = some m') :
    m'.lookup k' = if k' = k then some v else m.lookup k' := by
  unfold update at h
  split at h
  · rename_i hk
    cases h
    rw [lookup_modify]
    split
    · rename_i e
      subst e
      cases hl : m.lookup k' with
      | none => exact absurd hk (lookup_eq_none_iff.1 hl)
      | some w => rfl
    · rfl
  · rename_i hk
    split at h
    · cases h
      have hnone : m.entries.lookup k = none := lookup_eq_none_iff.2 hk
      simp only [lookup, List.lookup_append, List.lookup_cons, List.lookup_nil]
      by_cases hkk : k' = k
      · subst hkk
        simp [hnone]
      · have hb : (k' == k) = false := by simpa using hkk
        simp [hb, hkk]
    · cases h

theorem keys_update {m' : BoundedMap κ υ capacity} (h : m.update k v = some m') :
    m'.keys = if k ∈ m.keys then m.keys else m.keys ++ [k] := by
  unfold update at h
  split at h
  · rename_i hk
    cases h
    rw [keys_modify, if_pos hk]
  · rename_i hk
    rw [if_neg hk]
    split at h <;> cases h
    simp [keys]

/-! Putting in and taking out. -/

theorem update_of_hasRoom (h : m.HasRoom k) : m.update k v = some (m.put k v) := by
  unfold put
  by_cases hk : k ∈ m.keys
  · simp [update, hk]
  · obtain ⟨m', hm', -⟩ := update_new (v := v) hk (h.resolve_left hk)
    rw [hm', Option.getD_some]

theorem put_of_not_hasRoom (h : ¬ m.HasRoom k) : m.put k v = m := by
  obtain ⟨hk, hfull⟩ := not_or.1 h
  rw [put, update_full hk (Nat.not_lt.1 hfull), Option.getD_none]

/-- The keys of the map are among as many keys as it can hold. -/
theorem hasRoom_of_card {K : Finset κ} (hcap : K.card ≤ capacity) (hK : ∀ k' ∈ m.keys, k' ∈ K)
    (hk : k ∈ K) : m.HasRoom k := by
  by_cases hin : k ∈ m.keys
  · exact .inl hin
  · have hsub : (k :: m.keys).toFinset ⊆ K := by
      intro x hx
      rw [List.mem_toFinset, List.mem_cons] at hx
      rcases hx with rfl | hx
      · exact hk
      · exact hK x hx
    have hcard := (Finset.card_le_card hsub).trans hcap
    rw [List.toFinset_card_of_nodup (List.nodup_cons.2 ⟨hin, nodup_keys⟩), List.length_cons,
      length_keys] at hcard
    exact .inr hcard

theorem lookup_put (h : m.HasRoom k) :
    (m.put k v).lookup k' = if k' = k then some v else m.lookup k' :=
  lookup_update k' (update_of_hasRoom h)

theorem keys_put (h : m.HasRoom k) :
    (m.put k v).keys = if k ∈ m.keys then m.keys else m.keys ++ [k] :=
  keys_update (update_of_hasRoom h)

theorem mem_keys_put (h : m.HasRoom k) : k' ∈ (m.put k v).keys ↔ k' = k ∨ k' ∈ m.keys := by
  rw [keys_put h]
  split
  · rename_i hk
    exact ⟨.inr, fun h => h.elim (fun e => e ▸ hk) id⟩
  · rw [List.mem_append, List.mem_singleton, or_comm]

theorem of_mem_keys_put (h : k' ∈ (m.put k v).keys) : k' = k ∨ k' ∈ m.keys := by
  by_cases hroom : m.HasRoom k
  · exact (mem_keys_put hroom).1 h
  · rw [put_of_not_hasRoom hroom] at h
    exact .inr h

theorem length_put_le : (m.put k v).entries.length ≤ m.entries.length + 1 := by
  by_cases h : m.HasRoom k
  · rw [← length_keys, ← length_keys, keys_put h]
    split
    · omega
    · simp
  · rw [put_of_not_hasRoom h]
    omega

theorem lookup_delete :
    (m.delete k).lookup k' = if k' = k then none else m.lookup k' := by
  simp only [lookup, delete]
  induction m.entries with
  | nil => simp
  | cons p l ih =>
    obtain ⟨q, w⟩ := p
    by_cases hq : q = k
    · subst hq
      rw [List.filter_cons_of_neg (by simp), ih]
      by_cases hk : k' = q
      · simp [hk]
      · have hb : (k' == q) = false := by simpa using hk
        simp [hk, List.lookup_cons, hb]
    · rw [List.filter_cons_of_pos (by simpa using hq), List.lookup_cons, List.lookup_cons, ih]
      by_cases hk : k' = q
      · subst hk
        simp [hq]
      · have hb : (k' == q) = false := by simpa using hk
        simp only [hb]

theorem mem_keys_delete : k' ∈ (m.delete k).keys ↔ k' ≠ k ∧ k' ∈ m.keys := by
  simp only [keys, delete, List.mem_map, List.mem_filter]
  constructor
  · rintro ⟨p, ⟨hp, hk⟩, rfl⟩
    exact ⟨by simpa using hk, p, hp, rfl⟩
  · rintro ⟨hk, p, hp, rfl⟩
    exact ⟨p, ⟨hp, by simpa using hk⟩, rfl⟩

theorem keys_delete : (m.delete k).keys = m.keys.erase k := by
  rw [nodup_keys.erase_eq_filter, keys, keys, delete, List.filter_map]
  congr 1
  exact List.filter_congr fun p _ => by by_cases hp : p.1 = k <;> simp [hp]

/-- Taking out a key that is there. -/
theorem length_delete (h : k ∈ m.keys) :
    (m.delete k).entries.length + 1 = m.entries.length := by
  rw [← length_keys, ← length_keys, keys_delete, List.length_erase_of_mem h]
  have := List.length_pos_of_mem h
  omega

theorem delete_absent (h : k ∉ m.keys) : m.delete k = m := by
  ext1
  refine List.filter_eq_self.2 fun p hp => ?_
  have hne : p.1 ≠ k := fun e => h (e ▸ List.mem_map_of_mem hp)
  simpa using hne

/-! Two maps with the same keys. -/

variable {ω : Type} (f : υ → ω)

omit [DecidableEq κ] in
@[simp] theorem keys_map : (m.map f).keys = m.keys := by
  simp [keys, map, Function.comp_def]

@[simp] theorem lookup_map : (m.map f).lookup k = (m.lookup k).map f := by
  simp only [lookup, map]
  induction m.entries with
  | nil => rfl
  | cons p l ih =>
    rw [List.map_cons, List.lookup_cons, List.lookup_cons, ih]
    cases k == p.1 <;> rfl

theorem map_modify (g : υ → υ) (g' : ω → ω) (h : ∀ v, f (g v) = g' (f v)) :
    (m.modify k g).map f = (m.map f).modify k g' := by
  ext1
  simp only [map, modify, List.map_map]
  refine List.map_congr_left fun p _ => ?_
  simp only [Function.comp_apply]
  split
  · rw [h]
  · rfl

omit [DecidableEq κ] in
theorem map_congr {f g : υ → ω} (h : ∀ v ∈ m.values, f v = g v) : m.map f = m.map g := by
  ext1
  exact List.map_congr_left fun p hp => by rw [h p.2 (List.mem_map_of_mem hp)]

theorem map_update : (m.map f).update k (f v) = (m.update k v).map fun m' => m'.map f := by
  by_cases hk : k ∈ m.keys
  · have hk' : k ∈ (m.map f).keys := by rwa [keys_map]
    rw [update, update, dif_pos hk, dif_pos hk', Option.map_some,
      map_modify f (fun _ => v) (fun _ => f v) fun _ => rfl]
  · have hk' : k ∉ (m.map f).keys := by rwa [keys_map]
    rw [update, update, dif_neg hk, dif_neg hk']
    have hlen : (m.map f).entries.length = m.entries.length := by simp [map]
    by_cases hroom : m.entries.length < capacity
    · rw [dif_pos hroom, dif_pos (hlen ▸ hroom), Option.map_some]
      congr 1
      ext1
      simp [map]
    · rw [dif_neg hroom, dif_neg (hlen ▸ hroom), Option.map_none]

end BoundedMap

end LinuxKernelProg.Lib
