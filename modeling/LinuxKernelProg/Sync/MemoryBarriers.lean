import LinuxKernelProg.Lib.WeakMemory

/-!
# Passing messages with barriers

`memory_barriers.c`: in each round the producer stores data and then a flag, with a write barrier in
between, and clears the flag later; the consumer loads the flag and then the data, with a read
barrier in between. Nothing orders the data of a round behind the clear of the round before, and
nothing orders a load of the flag behind the data of the iteration before. All the same, data that
is reported for a flag is the data of the round of that flag or of a later one that the producer has
come to (`delivered_of_run`).
-/

namespace LinuxKernelProg.Sync.MemoryBarriers

open LinuxKernelProg.Lib LinuxKernelProg.Lib.WeakMemory

/-! ## The program -/

inductive Loc where
  | shared_data
  | shared_flag
  deriving DecidableEq

/-- What is stored, and the round in which it is. -/
structure Word where
  value : Int
  round : Nat
  deriving DecidableEq

/-- Where `producer_fn` is, by the statement that comes next. -/
inductive Producer where
  | test
  | data
  | wmb
  | flag
  | clear
  | returned
  deriving DecidableEq

/-- Where `consumer_fn` is. -/
inductive Consumer where
  | test
  | flag
  | rmb
  | data
  | returned
  deriving DecidableEq

structure Sys where
  memory : Exec Loc Word
  producer : Producer
  /-- The counter of the loop. -/
  i : Nat
  consumer : Consumer

inductive Action where
  /-- The next statement of a thread; `stop` is what `kthread_should_stop` returns. -/
  | producer (stop : Bool)
  | consumer (stop : Bool)
  /-- The memory makes a store visible, or satisfies a load. -/
  | publish (n : Nat)
  | satisfy (n : Nat)

def Sys.access (s : Sys) (op : Op Loc Word) : Option Sys :=
  (s.memory.step op).map fun memory => { s with memory := memory }

/-- `producer_fn`, whose loop has 10 rounds in the source. -/
def Sys.producer_fn (rounds : Nat) (s : Sys) (stop : Bool) : Option Sys :=
  match s.producer with
  | .test => some { s with producer := if s.i < rounds ∧ !stop then .data else .returned }
  | .data => { s with producer := .wmb }.access (.store .shared_data ⟨s.i + 100, s.i⟩)
  | .wmb => { s with producer := .flag }.access .wmb
  | .flag => { s with producer := .clear }.access (.store .shared_flag ⟨1, s.i⟩)
  | .clear => { s with producer := .test, i := s.i + 1 }.access (.store .shared_flag ⟨0, s.i⟩)
  | .returned => none

/-- `consumer_fn`. The data is loaded before the flag is known: only the barrier holds the load
back, and what it has read is dropped if the flag is 0. -/
def Sys.consumer_fn (s : Sys) (stop : Bool) : Option Sys :=
  match s.consumer with
  | .test => some { s with consumer := if stop then .returned else .flag }
  | .flag => { s with consumer := .rmb }.access (.load .shared_flag)
  | .rmb => { s with consumer := .data }.access .rmb
  | .data => { s with consumer := .test }.access (.load .shared_data)
  | .returned => none

def Sys.step (rounds : Nat) (s : Sys) : Action → Option Sys
  | .producer stop => s.producer_fn rounds stop
  | .consumer stop => s.consumer_fn stop
  | .publish n => s.access (.publish n)
  | .satisfy n => s.access (.satisfy n)

def Sys.init : Sys := ⟨.init, .test, 0, .test⟩

/-- What the load at an index has read, once it is satisfied; `none` is the initial value. -/
def Sys.loaded (s : Sys) (n : Nat) : Option (Option Word) :=
  (s.memory.loads[n]?).bind fun o =>
    o.source.map fun r => r.bind fun f => (s.memory.stores[f]?).map Store.val

/-- Both variables are 0 at first. -/
def value : Option Word → Int
  | none => 0
  | some w => w.value

/-- The two loads of an iteration of the consumer. -/
def Sys.local_flag (s : Sys) (k : Nat) : Option (Option Word) := s.loaded (2 * k)

def Sys.local_data (s : Sys) (k : Nat) : Option (Option Word) := s.loaded (2 * k + 1)

/-- The data that an iteration reports. -/
def Sys.report (s : Sys) (k : Nat) : Option Int :=
  (s.local_flag k).bind fun flag =>
    if value flag = 0 then none else (s.local_data k).map value

/-- The producer has stored the data of the round. -/
def Sys.Ran (s : Sys) (j : Nat) : Prop :=
  ∃ p ∈ s.memory.stores, p.loc = .shared_data ∧ p.val = ⟨100 + j, j⟩

/-- **What the barriers are there for.** -/
def Delivered (s : Sys) : Prop :=
  ∀ k i x, s.local_flag k = some (some ⟨1, i⟩) → s.report k = some x →
    ∃ j : Nat, i ≤ j ∧ s.Ran j ∧ x = 100 + j

/-! ## What was stored and loaded -/

/-- The stores of a round, one after the other. -/
def nthStore (n : Nat) : Store Loc Word :=
  match n % 3 with
  | 0 => ⟨.shared_data, ⟨(n / 3 : Nat) + 100, n / 3⟩, n / 3⟩
  | 1 => ⟨.shared_flag, ⟨1, n / 3⟩, n / 3 + 1⟩
  | _ => ⟨.shared_flag, ⟨0, n / 3⟩, n / 3 + 1⟩

def nthLoc (n : Nat) : Loc := if n % 2 = 0 then .shared_flag else .shared_data

/-- How many stores of its round the producer has made. -/
def Producer.stores : Producer → Nat
  | .test | .data | .returned => 0
  | .wmb | .flag => 1
  | .clear => 2

def Producer.wmbs : Producer → Nat
  | .test | .data | .wmb | .returned => 0
  | .flag | .clear => 1

/-- How many loads and barriers the consumer has behind it, with those of the iterations before. -/
def Consumer.loads (rmbs : Nat) : Consumer → Nat
  | .test | .flag | .returned => 2 * rmbs
  | .rmb => 2 * rmbs + 1
  | .data => 2 * rmbs - 1

structure Inv (s : Sys) : Prop where
  memory : s.memory.Inv
  stores : ∀ n p, s.memory.stores[n]? = some p → p = nthStore n
  stores_length : s.memory.stores.length = 3 * s.i + s.producer.stores
  wmbs : s.memory.wmbs = s.i + s.producer.wmbs
  loads : ∀ (n : Nat) (o : Load Loc), s.memory.loads[n]? = some o → o.loc = nthLoc n ∧
    o.epoch = (n + 1) / 2
  loads_length : s.memory.loads.length = s.consumer.loads s.memory.rmbs
  rmbs : s.consumer = .data → 0 < s.memory.rmbs

variable {s t : Sys} {a : Action} {as : List Action} {rounds : Nat} {stop : Bool}

theorem nthStore_data (i : Nat) : nthStore (3 * i) = ⟨.shared_data, ⟨i + 100, i⟩, i⟩ := by
  have hmod : 3 * i % 3 = 0 := by omega
  have hdiv : 3 * i / 3 = i := by omega
  rw [nthStore, hmod, hdiv]
  rfl

theorem nthStore_flag (i : Nat) : nthStore (3 * i + 1) = ⟨.shared_flag, ⟨1, i⟩, i + 1⟩ := by
  have hmod : (3 * i + 1) % 3 = 1 := by omega
  have hdiv : (3 * i + 1) / 3 = i := by omega
  rw [nthStore, hmod, hdiv]
  rfl

theorem nthStore_clear (i : Nat) : nthStore (3 * i + 2) = ⟨.shared_flag, ⟨0, i⟩, i + 1⟩ := by
  have hmod : (3 * i + 2) % 3 = 2 := by omega
  have hdiv : (3 * i + 2) / 3 = i := by omega
  rw [nthStore, hmod, hdiv]
  rfl

theorem access_some {op : Op Loc Word} (h : s.access op = some t) :
    ∃ x, s.memory.step op = some x ∧ t = { s with memory := x } := by
  obtain ⟨x, hx, rfl⟩ := Option.map_eq_some_iff.1 h
  exact ⟨x, hx, rfl⟩

/-- The producer makes the next store of its round. -/
theorem inv_store {pc : Producer} {i : Nat} {l : Loc} {w : Word} (hs : Inv s)
    (h : { s with producer := pc, i := i }.access (.store l w) = some t)
    (hnext : nthStore s.memory.stores.length = ⟨l, w, s.memory.wmbs⟩)
    (hlength : s.memory.stores.length + 1 = 3 * i + pc.stores)
    (hwmbs : s.memory.wmbs = i + pc.wmbs) : Inv t := by
  obtain ⟨x, hx, rfl⟩ := access_some h
  have hmemory := Exec.step_inv hs.memory hx
  cases hx
  refine ⟨hmemory, ?_, ?_, hwmbs, hs.loads, hs.loads_length, hs.rmbs⟩
  · intro n p hp
    rcases getElem?_snoc hp with hp | ⟨rfl, rfl⟩
    · exact hs.stores n p hp
    · exact hnext.symm
  · rw [List.length_append, List.length_singleton, hlength]

theorem producer_inv (hs : Inv s) (h : s.producer_fn rounds stop = some t) : Inv t := by
  have hlength := hs.stores_length
  have hwmbs := hs.wmbs
  unfold Sys.producer_fn at h
  cases hpc : s.producer <;> rw [hpc] at h hlength hwmbs <;> simp only at h
  case test =>
    cases h
    refine ⟨hs.memory, hs.stores, ?_, ?_, hs.loads, hs.loads_length, hs.rmbs⟩
    · rw [hlength]
      split <;> rfl
    · rw [hwmbs]
      split <;> rfl
  case data =>
    refine inv_store hs h ?_ (congrArg (· + 1) hlength) hwmbs
    rw [hlength, hwmbs]
    exact nthStore_data s.i
  case wmb =>
    obtain ⟨x, hx, rfl⟩ := access_some h
    have hmemory := Exec.step_inv hs.memory hx
    cases hx
    refine ⟨hmemory, hs.stores, hlength, ?_, hs.loads, hs.loads_length, hs.rmbs⟩
    rw [hwmbs]
    rfl
  case flag =>
    refine inv_store hs h ?_ (congrArg (· + 1) hlength) hwmbs
    rw [hlength, hwmbs]
    exact nthStore_flag s.i
  case clear =>
    refine inv_store hs h ?_ (congrArg (· + 1) hlength) hwmbs
    rw [hlength, hwmbs]
    exact nthStore_clear s.i
  case returned => nomatch h

/-- The consumer issues the next load of its iteration. -/
theorem inv_load {pc : Consumer} {l : Loc} (hs : Inv s)
    (h : { s with consumer := pc }.access (.load l) = some t)
    (hloc : l = nthLoc s.memory.loads.length)
    (hepoch : s.memory.rmbs = (s.memory.loads.length + 1) / 2)
    (hlength : s.memory.loads.length + 1 = pc.loads s.memory.rmbs) (hpc : pc ≠ .data) : Inv t := by
  obtain ⟨x, hx, rfl⟩ := access_some h
  have hmemory := Exec.step_inv hs.memory hx
  cases hx
  refine ⟨hmemory, hs.stores, hs.stores_length, hs.wmbs, ?_, ?_, fun hc => absurd hc hpc⟩
  · intro n o ho
    rcases getElem?_snoc ho with ho | ⟨rfl, rfl⟩
    · exact hs.loads n o ho
    · exact ⟨hloc, hepoch⟩
  · rw [List.length_append, List.length_singleton, hlength]

theorem consumer_inv (hs : Inv s) (h : s.consumer_fn stop = some t) : Inv t := by
  have hlength := hs.loads_length
  have hrmbs := hs.rmbs
  unfold Sys.consumer_fn at h
  cases hpc : s.consumer <;> rw [hpc] at h hlength hrmbs <;> simp only at h
  case test =>
    cases h
    refine ⟨hs.memory, hs.stores, hs.stores_length, hs.wmbs, hs.loads, ?_, ?_⟩
    · rw [hlength]
      split <;> rfl
    · split <;> nofun
  case flag =>
    change _ = 2 * s.memory.rmbs at hlength
    refine inv_load hs h ?_ (by omega) (congrArg (· + 1) hlength) nofun
    rw [nthLoc, if_pos (by omega)]
  case rmb =>
    obtain ⟨x, hx, rfl⟩ := access_some h
    have hmemory := Exec.step_inv hs.memory hx
    cases hx
    refine ⟨hmemory, hs.stores, hs.stores_length, hs.wmbs, hs.loads, ?_, fun _ => Nat.succ_pos _⟩
    change s.memory.loads.length = 2 * s.memory.rmbs + 1 at hlength
    change s.memory.loads.length = 2 * (s.memory.rmbs + 1) - 1
    omega
  case data =>
    have hpos := hrmbs rfl
    change _ = 2 * s.memory.rmbs - 1 at hlength
    refine inv_load hs h ?_ (by omega) ?_ nofun
    · rw [nthLoc, if_neg (by omega)]
    · change _ = 2 * s.memory.rmbs
      omega
  case returned => nomatch h

theorem publish_inv {n : Nat} (hs : Inv s) (h : s.access (.publish n) = some t) : Inv t := by
  obtain ⟨x, hx, rfl⟩ := access_some h
  have hmemory := Exec.step_inv hs.memory hx
  simp only [Exec.step] at hx
  split at hx
  · cases hx
    exact ⟨hmemory, hs.stores, hs.stores_length, hs.wmbs, hs.loads, hs.loads_length, hs.rmbs⟩
  · cases hx

theorem satisfy_inv {n : Nat} (hs : Inv s) (h : s.access (.satisfy n) = some t) : Inv t := by
  obtain ⟨x, hx, rfl⟩ := access_some h
  have hmemory := Exec.step_inv hs.memory hx
  obtain ⟨o, hn, hx⟩ := Option.bind_eq_some_iff.1 hx
  split at hx
  · cases hx
    refine ⟨hmemory, hs.stores, hs.stores_length, hs.wmbs, ?_, ?_, hs.rmbs⟩
    · intro m o' hm
      rcases getElem?_set_cases hm with ⟨rfl, rfl⟩ | ⟨-, hm⟩
      · exact hs.loads m o hn
      · exact hs.loads m o' hm
    · rw [List.length_set]
      exact hs.loads_length
  · cases hx

theorem step_inv (hs : Inv s) (h : s.step rounds a = some t) : Inv t := by
  cases a with
  | producer stop => exact producer_inv hs h
  | consumer stop => exact consumer_inv hs h
  | publish n => exact publish_inv hs h
  | satisfy n => exact satisfy_inv hs h

theorem inv_init : Inv .init := by
  refine ⟨Exec.inv_init, ?_, rfl, rfl, ?_, rfl, nofun⟩
  · intro n p hp
    nomatch hp
  · intro n o ho
    nomatch ho

/-! ## What is delivered -/

theorem loaded_some {n : Nat} {w : Option Word} (h : s.loaded n = some w) :
    ∃ o r, s.memory.loads[n]? = some o ∧ o.source = some r ∧
      w = r.bind fun f => (s.memory.stores[f]?).map Store.val := by
  obtain ⟨o, ho, hr⟩ := Option.bind_eq_some_iff.1 h
  obtain ⟨r, hsource, rfl⟩ := Option.map_eq_some_iff.1 hr
  exact ⟨o, r, ho, hsource, rfl⟩

theorem nthStore_cases (n : Nat) : n = 3 * (n / 3) ∨ n = 3 * (n / 3) + 1 ∨ n = 3 * (n / 3) + 2 := by
  omega

/-- A 1 is found in the second store of its round. -/
theorem flag_store {f i : Nat} (h : (nthStore f).val = ⟨1, i⟩)
    (hl : (nthStore f).loc = .shared_flag) :
    f = 3 * i + 1 := by
  rcases nthStore_cases f with hf | hf | hf
  · rw [hf, nthStore_data] at hl
    nomatch hl
  · rw [hf, nthStore_flag] at h
    rw [hf, (Word.mk.inj h).2]
  · rw [hf, nthStore_clear] at h
    nomatch (Word.mk.inj h).1

/-- Data is found in the first store of a round. -/
theorem data_store {f : Nat} (hl : (nthStore f).loc = .shared_data) :
    f = 3 * (f / 3) ∧ (nthStore f).val = ⟨100 + (f / 3 : Nat), f / 3⟩ := by
  rcases nthStore_cases f with hf | hf | hf
  · refine ⟨hf, ?_⟩
    rw [hf, nthStore_data, ← hf, Int.add_comm]
  · rw [hf, nthStore_flag] at hl
    nomatch hl
  · rw [hf, nthStore_clear] at hl
    nomatch hl

/-- The store that a satisfied load has read from. -/
theorem Inv.source {n f : Nat} {o : Load Loc} (hs : Inv s) (ho : s.memory.loads[n]? = some o)
    (hf : o.source = some (some f)) :
    s.memory.stores[f]? = some (nthStore f) ∧ (nthStore f).loc = nthLoc n := by
  obtain ⟨p, hp, hl⟩ := Exec.stores_to_iff.1 (hs.memory.sources n o f ho hf).2
  obtain rfl := hs.stores f p hp
  exact ⟨hp, hl.trans (hs.loads n o ho).1⟩

theorem Inv.delivered (hs : Inv s) : Delivered s := by
  intro k i x hflag hreport
  have hset : value (some ⟨1, i⟩) ≠ 0 := Int.one_ne_zero
  rw [Sys.report, hflag, Option.bind_some, if_neg hset] at hreport
  obtain ⟨w, hdata, rfl⟩ := Option.map_eq_some_iff.1 hreport
  obtain ⟨o, r, ho, hr, hflag⟩ := loaded_some hflag
  obtain ⟨f, rfl, hf⟩ := Option.bind_eq_some_iff.1 hflag.symm
  obtain ⟨o', r', ho', hr', rfl⟩ := loaded_some hdata
  have hflagLoc : nthLoc (2 * k) = .shared_flag := if_pos (by omega)
  have hdataLoc : nthLoc (2 * k + 1) = .shared_data := if_neg (by omega)
  obtain ⟨hfs, hfl⟩ := hs.source ho hr
  rw [hfs, Option.map_some, Option.some.injEq] at hf
  obtain rfl : f = 3 * i + 1 := flag_store hf (hfl.trans hflagLoc)
  -- the data of the round was stored before the flag, on the other side of the barrier
  obtain ⟨p, hp⟩ : ∃ p, s.memory.stores[3 * i]? = some p := by
    have hlt := (List.getElem?_eq_some_iff.1 hfs).1
    exact ⟨_, List.getElem?_eq_getElem (Nat.lt_trans (Nat.lt_succ_self _) hlt)⟩
  obtain rfl := hs.stores _ p hp
  obtain ⟨hol, hoe⟩ := hs.loads _ o ho
  obtain ⟨hol', hoe'⟩ := hs.loads _ o' ho'
  obtain ⟨g, rfl, hg⟩ := hs.memory.passed (2 * k) (2 * k + 1) o o' (3 * i + 1) r' (by omega) ho ho'
    (by omega) hr hr' (3 * i) _ _ (by omega) hp hfs
    (by rw [nthStore_data, nthStore_flag]; exact Nat.lt_succ_self i)
    (by rw [nthStore_data, hol', hdataLoc])
  obtain ⟨hgs, hgl⟩ := hs.source ho' hr'
  obtain ⟨hg3, hval⟩ := data_store (hgl.trans hdataLoc)
  refine ⟨g / 3, by omega, ⟨_, List.mem_of_getElem? hgs, hgl.trans hdataLoc, hval⟩, ?_⟩
  rw [Option.bind_some, hgs]
  exact congrArg Word.value hval

/-- **The barriers** deliver the data of the round of the flag, or of a later one. -/
theorem delivered_of_run (rounds : Nat) (as : List Action)
    (h : run (Sys.step rounds) .init as = some s) : Delivered s :=
  (run_inv_of_step step_inv inv_init h).delivered

/-- The data of the next round overtakes the clear of the flag, and is reported for the flag. -/
def overtaking : List Action :=
  let next : Action := .producer false
  let load : Action := .consumer false
  [next, next, next, next, next, next, next, .publish 0, .publish 1, load, load, load, load,
    .satisfy 0, .publish 3,
    .satisfy 1]

theorem delivered_of_run_overtaking : ∃ s, run (Sys.step 10) .init overtaking = some s ∧
    s.local_flag 0 = some (some ⟨1, 0⟩) ∧ s.report 0 = some 101 ∧ Delivered s :=
  ⟨_, rfl, rfl, rfl, delivered_of_run 10 overtaking rfl⟩

end LinuxKernelProg.Sync.MemoryBarriers
