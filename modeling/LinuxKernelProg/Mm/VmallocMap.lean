import Mathlib.Logic.Function.Basic
import LinuxKernelProg.Lib.Holdings

/-!
# The mapped pages

`mm/p4_vmalloc/map.c` allocates an array of pages and maps them twice. Its error path goes over the
whole array, which is filled up to the page that failed only: behind that one it frees what
`kmalloc_array` has left there.
-/

namespace LinuxKernelProg.Mm.VmallocMap

open LinuxKernelProg.Lib

inductive Resource where
  /-- `pages`, the array. -/
  | array
  | page (p : Ptr)
  /-- From `vmap`. -/
  | vmap (p : Ptr)
  /-- From `vm_map_ram`. -/
  | vm_map_ram (p : Ptr)
  deriving DecidableEq

/-- What the calls of `map_init` come to. -/
structure Outcomes where
  /-- With what `kmalloc_array` leaves in the array, if it succeeds. -/
  kmalloc_array : Option (Nat → Ptr)
  /-- What the `i`-th `alloc_page` returns. -/
  alloc_page : Nat → Ptr
  vmap : Ptr
  vm_map_ram : Ptr

structure Statics where
  pages : Nat → Ptr
  vmap_ptr : Ptr
  vm_map_ptr : Ptr

def enomem : Int := -12

/-- `n` more rounds of the first loop, from the page `i` on: what they allocate, whether all
succeed, and the array. -/
def alloc_pages (alloc_page : Nat → Ptr) : Nat → Nat → (Nat → Ptr) → List Nat × Bool × (Nat → Ptr)
  | 0, _, pages => ([], true, pages)
  | n + 1, i, pages =>
    let pages := Function.update pages i (alloc_page i)
    match alloc_page i with
    | none => ([], false, pages)
    | some p =>
      let r := alloc_pages alloc_page n (i + 1) pages
      (p :: r.1, r.2)

/-- `err_free_pages` -/
def err_free_pages (num_pages : Nat) (pages : Nat → Ptr) : List (Use Resource) :=
  ((List.range' 0 num_pages).filterMap pages).map (fun p => .release (.page (some p))) ++
    [.release .array]

/-- The array, and the pages that were allocated for it. -/
def allocs (allocated : List Nat) : List (Use Resource) :=
  .acquire .array :: allocated.map fun p => .acquire (.page (some p))

def map_init (num_pages : Nat) (o : Outcomes) : List (Use Resource) × Init Statics :=
  match o.kmalloc_array with
  | none => ([], .returns enomem ⟨fun _ => none, none, none⟩)
  | some garbage =>
    let (allocated, ok, pages) := alloc_pages o.alloc_page num_pages 0 garbage
    let us := allocs allocated
    if ok then
      if o.vmap.isSome then
        if o.vm_map_ram.isSome then
          (us ++ [.acquire (.vmap o.vmap), .acquire (.vm_map_ram o.vm_map_ram)],
            .returns 0 ⟨pages, o.vmap, o.vm_map_ram⟩)
        else
          (us ++ .acquire (.vmap o.vmap) :: .release (.vmap o.vmap) ::
              err_free_pages num_pages pages,
            .returns enomem ⟨pages, o.vmap, none⟩)
      else (us ++ err_free_pages num_pages pages, .returns enomem ⟨pages, none, none⟩)
    else (us ++ err_free_pages num_pages pages, .returns enomem ⟨pages, none, none⟩)

def map_exit (num_pages : Nat) (s : Statics) : List (Use Resource) :=
  (if s.vm_map_ptr.isSome then [.release (.vm_map_ram s.vm_map_ptr)] else []) ++
    (if s.vmap_ptr.isSome then [.release (.vmap s.vmap_ptr)] else []) ++
    (List.range' 0 num_pages).map (fun i => .release (.page (s.pages i))) ++ [.release .array]

def map (num_pages : Nat) : KModule where
  Res := Resource
  Outcomes := Outcomes
  Statics := Statics
  init := map_init num_pages
  exit := map_exit num_pages

/-! ## The array -/

/-- What is left in the array behind the page that failed. -/
def behind (alloc_page : Nat → Ptr) : Nat → Nat → (Nat → Ptr) → List Nat
  | 0, _, _ => []
  | n + 1, i, pages =>
    match alloc_page i with
    | none => (List.range' (i + 1) n).filterMap pages
    | some _ => behind alloc_page n (i + 1) pages

variable {alloc_page : Nat → Ptr} {n i j : Nat} {pages pages' : Nat → Ptr}

theorem filterMap_range'_congr (h : ∀ j, i ≤ j → pages j = pages' j) :
    (List.range' i n).filterMap pages = (List.range' i n).filterMap pages' :=
  List.filterMap_congr fun j hj => h j (List.mem_range'_1.1 hj).1

theorem behind_congr (h : ∀ j, i ≤ j → pages j = pages' j) :
    behind alloc_page n i pages = behind alloc_page n i pages' := by
  induction n generalizing i with
  | zero => rfl
  | succ n ih =>
    have h' : ∀ j, i + 1 ≤ j → pages j = pages' j := fun j hj => h j (Nat.le_of_succ_le hj)
    rw [behind, behind]
    cases alloc_page i with
    | none => exact filterMap_range'_congr h'
    | some p => exact ih h'

theorem alloc_pages_lt (hj : j < i) : (alloc_pages alloc_page n i pages).2.2 j = pages j := by
  induction n generalizing i pages with
  | zero => rfl
  | succ n ih =>
    rw [alloc_pages]
    cases alloc_page i with
    | none => exact Function.update_of_ne (Nat.ne_of_lt hj) ..
    | some p => exact (ih (Nat.lt_succ_of_lt hj)).trans (Function.update_of_ne (Nat.ne_of_lt hj) ..)

/-- What the error path finds in the array is what was allocated, and what is left behind the page
that failed. -/
theorem alloc_pages_filterMap : (List.range' i n).filterMap (alloc_pages alloc_page n i pages).2.2 =
    (alloc_pages alloc_page n i pages).1 ++ behind alloc_page n i pages := by
  induction n generalizing i pages with
  | zero => rfl
  | succ n ih =>
    have hupdate : ∀ p j, i + 1 ≤ j → Function.update pages i p j = pages j :=
      fun p j hj => Function.update_of_ne (Nat.ne_of_gt hj) ..
    rw [List.range'_succ, alloc_pages, behind]
    cases halloc : alloc_page i with
    | none =>
      rw [List.filterMap_cons_none (Function.update_self ..)]
      exact filterMap_range'_congr (hupdate none)
    | some p =>
      have hi : (alloc_pages alloc_page n (i + 1) (Function.update pages i (some p))).2.2 i =
          some p :=
        (alloc_pages_lt (Nat.lt_succ_self i)).trans (Function.update_self ..)
      rw [List.filterMap_cons_some hi, ih, behind_congr (hupdate (some p))]
      rfl

theorem alloc_pages_ok (h : (alloc_pages alloc_page n i pages).2.1 = true) :
    behind alloc_page n i pages = [] ∧
    (List.range' i n).map (alloc_pages alloc_page n i pages).2.2 =
      (alloc_pages alloc_page n i pages).1.map some := by
  induction n generalizing i pages with
  | zero => exact ⟨rfl, rfl⟩
  | succ n ih =>
    rw [alloc_pages] at h ⊢
    rw [behind]
    cases halloc : alloc_page i with
    | none =>
      rw [halloc] at h
      cases h
    | some p =>
      rw [halloc] at h
      obtain ⟨hbehind, hmap⟩ := ih h
      have hi : (alloc_pages alloc_page n (i + 1) (Function.update pages i (some p))).2.2 i =
          some p :=
        (alloc_pages_lt (Nat.lt_succ_self i)).trans (Function.update_self ..)
      refine ⟨?_, ?_⟩
      · rw [← hbehind]
        exact behind_congr fun j hj => (Function.update_of_ne (Nat.ne_of_gt hj) ..).symm
      · rw [List.range'_succ, List.map_cons]
        exact congrArg₂ List.cons hi hmap

/-- Nothing is left behind the page that failed exactly when the array was empty there. -/
theorem behind_eq_nil : behind alloc_page n i pages = [] ↔
    ∀ k, i ≤ k → k < i + n → alloc_page k = none → (∀ j, i ≤ j → j < k → (alloc_page j).isSome) →
      ∀ j, k < j → j < i + n → pages j = none := by
  induction n generalizing i with
  | zero => exact ⟨fun _ k hk hk' => absurd hk (Nat.not_le.2 hk'), fun _ => rfl⟩
  | succ n ih =>
    have hn : i + (n + 1) = i + 1 + n := by omega
    rw [behind, hn]
    cases halloc : alloc_page i with
    | none =>
      refine List.filterMap_eq_nil_iff.trans ⟨fun h k hk _ _ _ j hkj hj => ?_, fun h j hj => ?_⟩
      · exact h j (List.mem_range'_1.2 ⟨Nat.lt_of_le_of_lt hk hkj, hj⟩)
      · obtain ⟨hij, hjn⟩ := List.mem_range'_1.1 hj
        refine h i (Nat.le_refl i) (by omega) halloc (fun j hij hji => ?_) j hij hjn
        exact absurd hji (Nat.not_lt.2 hij)
    | some p =>
      refine ih.trans ⟨fun h k hk hkn hnone hall => ?_, fun h k hk hkn hnone hall => ?_⟩
      · have hne : k ≠ i := by
          rintro rfl
          rw [halloc] at hnone
          cases hnone
        exact h k (by omega) hkn hnone fun j hij hjk => hall j (Nat.le_of_succ_le hij) hjk
      · refine h k (Nat.le_of_succ_le hk) hkn hnone fun j hij hjk => ?_
        rcases Nat.eq_or_lt_of_le hij with rfl | hlt
        · rw [halloc]
          rfl
        · exact hall j hlt hjk

/-- Every page that failed has only empty places behind it. -/
def EmptyBehind (num_pages : Nat) (o : Outcomes) : Prop :=
  ∀ garbage i, o.kmalloc_array = some garbage → i < num_pages → o.alloc_page i = none →
    (∀ j < i, (o.alloc_page j).isSome) → ∀ j, i < j → j < num_pages → garbage j = none

theorem emptyBehind_iff {num_pages : Nat} {o : Outcomes} {garbage : Nat → Ptr}
    (h : o.kmalloc_array = some garbage) :
    EmptyBehind num_pages o ↔ behind o.alloc_page num_pages 0 garbage = [] := by
  rw [behind_eq_nil, Nat.zero_add]
  constructor
  · intro hempty k _ hk hnone hall
    exact hempty garbage k h hk hnone fun j hj => hall j (Nat.zero_le j) hj
  · intro hempty garbage' k h' hk hnone hall
    obtain rfl := Option.some.inj (h.symm.trans h')
    exact hempty k (Nat.zero_le k) hk hnone fun j _ hj => hall j hj

/-- The error path is clean when the pages that it frees are those that were allocated. -/
theorem settle_err_free_pages {num_pages : Nat} {allocated : List Nat} {pages : Nat → Ptr} :
    settle [] (allocs allocated ++ err_free_pages num_pages pages) = some [] ↔
      ((List.range' 0 num_pages).filterMap pages).Perm allocated := by
  have hinj : Function.Injective fun p => Resource.page (some p) := fun p q h => by cases h; rfl
  have hus : allocs allocated ++ err_free_pages num_pages pages =
      (Resource.array :: allocated.map fun p => .page (some p)).map .acquire ++
        (((List.range' 0 num_pages).filterMap pages).map (fun p => Resource.page (some p)) ++
          [Resource.array]).map .release := by
    simp [allocs, err_free_pages, Function.comp_def]
  rw [hus, settle_acquire_release, ← List.map_perm_map_iff hinj]
  exact ((List.perm_append_singleton ..).congr_left _).trans (List.perm_cons _)

/-- The exit releases what a load that succeeds has acquired. -/
theorem settle_map_exit {num_pages : Nat} {allocated : List Nat} {s : Statics}
    (hvmap : s.vmap_ptr.isSome) (hram : s.vm_map_ptr.isSome)
    (hpages : (List.range' 0 num_pages).map s.pages = allocated.map some) :
    settle [] (allocs allocated ++
      [.acquire (.vmap s.vmap_ptr), .acquire (.vm_map_ram s.vm_map_ptr)] ++
      map_exit num_pages s) = some [] := by
  have hexit : (List.range' 0 num_pages).map (fun i => Use.release (Resource.page (s.pages i))) =
      allocated.map fun p => Use.release (Resource.page (some p)) := by
    have := congrArg (List.map fun p => Use.release (Resource.page p)) hpages
    rwa [List.map_map, List.map_map] at this
  have hus : allocs allocated ++
      [.acquire (.vmap s.vmap_ptr), .acquire (.vm_map_ram s.vm_map_ptr)] ++
        map_exit num_pages s =
        (Resource.array :: (allocated.map (fun p => Resource.page (some p)) ++
          [.vmap s.vmap_ptr, .vm_map_ram s.vm_map_ptr])).map .acquire ++
        (.vm_map_ram s.vm_map_ptr :: .vmap s.vmap_ptr ::
          allocated.map (fun p => Resource.page (some p)) ++ [Resource.array]).map .release := by
    simp [allocs, map_exit, hvmap, hram, hexit, Function.comp_def]
  rw [hus, settle_acquire_release]
  refine (List.perm_append_singleton ..).trans (List.Perm.cons _ ?_)
  have hcomm : ([Resource.vmap s.vmap_ptr, .vm_map_ram s.vm_map_ptr] ++
      allocated.map fun p => Resource.page (some p)).Perm _ := List.perm_append_comm
  exact (List.Perm.swap ..).trans hcomm

/-- **Clean exactly when** nothing is left in the array behind a page that failed. -/
theorem clean_iff (num_pages : Nat) (o : Outcomes) :
    (map num_pages).Clean o ↔ EmptyBehind num_pages o := by
  cases harray : o.kmalloc_array with
  | none =>
    have hinit : (map num_pages).init o = ([], .returns enomem ⟨fun _ => none, none, none⟩) := by
      change map_init num_pages o = _
      simp only [map_init, harray]
      rfl
    refine (KModule.clean_of_returns hinit).trans ⟨fun _ garbage i h => ?_, fun _ => rfl⟩
    rw [harray] at h
    cases h
  | some garbage =>
    rw [emptyBehind_iff harray]
    have hfreed : (List.range' 0 num_pages).filterMap
        (alloc_pages o.alloc_page num_pages 0 garbage).2.2 = _ :=
      alloc_pages_filterMap
    have hok : (alloc_pages o.alloc_page num_pages 0 garbage).2.1 = true → _ := alloc_pages_ok
    rcases halloc : alloc_pages o.alloc_page num_pages 0 garbage with ⟨allocated, ok, pages⟩
    rw [halloc] at hfreed hok
    change (List.range' 0 num_pages).filterMap pages = allocated ++ _ at hfreed
    have hperm : ((List.range' 0 num_pages).filterMap pages).Perm allocated ↔
        behind o.alloc_page num_pages 0 garbage = [] := by
      rw [hfreed]
      refine ⟨fun h => ?_, fun h => by rw [h, List.append_nil]⟩
      have hlen := h.length_eq
      rw [List.length_append] at hlen
      exact List.length_eq_zero_iff.1 (by omega)
    have hfail : settle [] (allocs allocated ++ err_free_pages num_pages pages) = some [] ↔ _ :=
      settle_err_free_pages.trans hperm
    cases ok with
    | false =>
      have hinit : (map num_pages).init o =
          (allocs allocated ++ err_free_pages num_pages pages,
            .returns enomem ⟨pages, none, none⟩) := by
        change map_init num_pages o = _
        simp only [map_init, harray, halloc]
        rfl
      exact (KModule.clean_of_returns hinit).trans hfail
    | true =>
      obtain ⟨hbehind, hmap⟩ := hok rfl
      refine iff_of_true ?_ hbehind
      by_cases hvmap : o.vmap.isSome
      · by_cases hram : o.vm_map_ram.isSome
        · have hinit : (map num_pages).init o =
              (allocs allocated ++ [.acquire (.vmap o.vmap), .acquire (.vm_map_ram o.vm_map_ram)],
                .returns 0 ⟨pages, o.vmap, o.vm_map_ram⟩) := by
            change map_init num_pages o = _
            simp only [map_init, harray, halloc, hvmap, hram]
            rfl
          exact (KModule.clean_of_returns hinit).2
            (settle_map_exit (s := ⟨pages, o.vmap, o.vm_map_ram⟩) hvmap hram hmap)
        · have hinit : (map num_pages).init o =
              (allocs allocated ++ .acquire (.vmap o.vmap) :: .release (.vmap o.vmap) ::
                  err_free_pages num_pages pages,
                .returns enomem ⟨pages, o.vmap, none⟩) := by
            change map_init num_pages o = _
            simp only [map_init, harray, halloc, hvmap, hram]
            rfl
          refine (KModule.clean_of_returns hinit).2 (settle_pair.trans ?_)
          exact hfail.2 hbehind
      · have hinit : (map num_pages).init o =
            (allocs allocated ++ err_free_pages num_pages pages,
              .returns enomem ⟨pages, none, none⟩) := by
          change map_init num_pages o = _
          simp only [map_init, harray, halloc, hvmap]
          rfl
        exact (KModule.clean_of_returns hinit).2 (hfail.2 hbehind)

/-- The second of four pages fails, and the array holds what was in its memory before. -/
def secondFails : Outcomes where
  kmalloc_array := some fun _ => some 7
  alloc_page i := if i = 0 then some 1 else none
  vmap := none
  vm_map_ram := none

/-- The error path frees a page that was never allocated. -/
theorem secondFails_not_clean :
    settle [] (map_init 4 secondFails).1 = none ∧ ¬ (map 4).Clean secondFails := by
  have hnone : settle [] (map_init 4 secondFails).1 = none := by decide
  refine ⟨hnone, fun h => ?_⟩
  have hsome : settle [] (map_init 4 secondFails).1 = some [] := h
  rw [hnone] at hsome
  cases hsome

end LinuxKernelProg.Mm.VmallocMap
