import LinuxKernelProg.Lib.Holdings

/-!
# Modules that are loaded and unloaded

`mm/p5_dma/dmastream.c`, `utils.c` and `iommu_detect.c`, and `mm/p3_slub/mcache.c`: what their init
functions acquire on each path, and what their exit functions release. The device of the first three
belongs to a release function that only prints, so no unload ever frees it.
-/

namespace LinuxKernelProg.Mm

open LinuxKernelProg.Lib

namespace Dma

inductive Resource where
  /-- The memory of a `struct device`. -/
  | device (p : Ptr)
  /-- A device that is registered. -/
  | registered (p : Ptr)
  /-- From `kmalloc`. -/
  | buffer (p : Ptr)
  /-- From `dma_map_single`. -/
  | mapping (handle : Nat)
  /-- From `dma_alloc_coherent`. -/
  | coherent (p : Ptr) (handle : Nat)
  deriving DecidableEq

/-- What `dma_map_single` returns, and what `dma_mapping_error` says to it. -/
structure DmaMap where
  handle : Nat
  error : Bool

def enomem : Int := -12

def einval : Int := -22

def device_unregister (release : Ptr → List (Use Resource)) (dev : Ptr) : List (Use Resource) :=
  .release (.registered dev) :: release dev

def kfree_buffer (p : Ptr) : List (Use Resource) := if p.isSome then [.release (.buffer p)] else []

end Dma

open Dma

/-! ## `dmastream.c` -/

namespace Dmastream

structure Outcomes where
  kzalloc : Ptr
  device_register : Int
  kmalloc : Ptr
  dma_map_single : DmaMap

structure Statics where
  dev : Ptr
  kbuf : Ptr
  handle : Nat

/-- It prints. -/
def mydev_release (_ : Ptr) : List (Use Resource) := []

/-- Without a device, `dev_set_name` goes through a null pointer. -/
def dma_init (o : Outcomes) : List (Use Resource) × Init Statics :=
  let dev := o.kzalloc
  if dev.isNone then ([], .faults)
  else if o.device_register ≠ 0 then
    ([.acquire (.device dev), .release (.device dev)], .returns o.device_register ⟨dev, none, 0⟩)
  else
    let us := [.acquire (.device dev), .acquire (.registered dev)]
    let kbuf := o.kmalloc
    if kbuf.isNone then (us, .returns enomem ⟨dev, none, 0⟩)
    else
      let us := us ++ [.acquire (.buffer kbuf)]
      let handle := o.dma_map_single.handle
      if o.dma_map_single.error then (us, .returns einval ⟨dev, kbuf, handle⟩)
      else (us ++ [.acquire (.mapping handle)], .returns 0 ⟨dev, kbuf, handle⟩)

def dma_exit (s : Statics) : List (Use Resource) :=
  .release (.mapping s.handle) :: kfree_buffer s.kbuf ++ device_unregister mydev_release s.dev

def kmodule : KModule := ⟨Resource, Outcomes, Statics, dma_init, dma_exit⟩

/-- There is a device, and it cannot be registered or everything behind succeeds. -/
def Good (o : Outcomes) : Prop :=
  o.kzalloc.isSome ∧ (o.device_register ≠ 0 ∨ o.kmalloc.isSome ∧ o.dma_map_single.error = false)

theorem loads_iff (o : Outcomes) : kmodule.Loads o ↔ Good o := by
  obtain ⟨dev, ret, kbuf, ⟨handle, error⟩⟩ := o
  change Leaves dma_exit (dma_init ⟨dev, ret, kbuf, ⟨handle, error⟩⟩) ↔ _
  unfold Good dma_init
  cases dev with
  | none => simp [Leaves]
  | some dev =>
    by_cases hret : ret = 0
    · cases kbuf with
      | none => simp [Leaves, hret, enomem, settle]
      | some kbuf =>
        cases error with
        | true => simp [Leaves, hret, einval, settle]
        | false => simp [Leaves, hret, settle, dma_exit, kfree_buffer,
            device_unregister, mydev_release]
    · simp [Leaves, hret, settle]

/-- The unload leaves the memory of the device behind. -/
theorem unload_leaks (o : Outcomes) (us : List (Use Resource)) (st : Statics)
    (h : dma_init o = (us, .returns 0 st)) :
    settle [] (us ++ dma_exit st) = some [.device o.kzalloc] := by
  obtain ⟨dev, ret, kbuf, ⟨handle, error⟩⟩ := o
  unfold dma_init at h
  cases dev with
  | none => simp at h
  | some dev =>
    by_cases hret : ret = 0
    · cases kbuf with
      | none => simp [hret, enomem] at h
      | some kbuf =>
        cases error with
        | true => simp [hret, einval] at h
        | false =>
          simp only [hret] at h
          cases h
          simp [settle, dma_exit, kfree_buffer, device_unregister, mydev_release]
    · simp [hret] at h

end Dmastream

/-! ## `utils.c` -/

namespace Utils

structure Outcomes where
  kzalloc : Ptr
  device_register : Int
  /-- `dma_set_mask_and_coherent`, with 64 and with 32 bits. -/
  dma_set_mask_64 : Int
  dma_set_mask_32 : Int
  kmalloc : Ptr
  dma_map_single : DmaMap

structure Statics where
  dev : Ptr
  kbuf : Ptr
  handle : Nat

/-- It prints. -/
def mydev_release (_ : Ptr) : List (Use Resource) := []

def utils_init (o : Outcomes) : List (Use Resource) × Init Statics :=
  let dev := o.kzalloc
  if dev.isNone then ([], .returns enomem ⟨dev, none, 0⟩)
  else if o.device_register ≠ 0 then
    ([.acquire (.device dev), .release (.device dev)], .returns o.device_register ⟨dev, none, 0⟩)
  else
    let us := [.acquire (.device dev), .acquire (.registered dev)]
    if o.dma_set_mask_64 ≠ 0 ∧ o.dma_set_mask_32 ≠ 0 then
      (us ++ device_unregister mydev_release dev, .returns o.dma_set_mask_32 ⟨dev, none, 0⟩)
    else
      let kbuf := o.kmalloc
      if kbuf.isNone then (us ++ device_unregister mydev_release dev,
        .returns enomem ⟨dev, none, 0⟩)
      else
        let us := us ++ [.acquire (.buffer kbuf)]
        let handle := o.dma_map_single.handle
        if o.dma_map_single.error then
          (us ++ kfree_buffer kbuf ++ device_unregister mydev_release dev,
            .returns enomem ⟨dev, kbuf, handle⟩)
        else (us ++ [.acquire (.mapping handle)], .returns 0 ⟨dev, kbuf, handle⟩)

def utils_exit (s : Statics) : List (Use Resource) :=
  .release (.mapping s.handle) :: kfree_buffer s.kbuf ++ device_unregister mydev_release s.dev

def kmodule : KModule := ⟨Resource, Outcomes, Statics, utils_init, utils_exit⟩

/-- There is no device, or it cannot be registered, or everything behind succeeds. -/
def Good (o : Outcomes) : Prop :=
  o.kzalloc = none ∨ o.device_register ≠ 0 ∨
    (o.dma_set_mask_64 = 0 ∨ o.dma_set_mask_32 = 0) ∧ o.kmalloc.isSome ∧
      o.dma_map_single.error = false

theorem loads_iff (o : Outcomes) : kmodule.Loads o ↔ Good o := by
  obtain ⟨dev, ret, mask64, mask32, kbuf, ⟨handle, error⟩⟩ := o
  change Leaves utils_exit (utils_init ⟨dev, ret, mask64, mask32, kbuf, ⟨handle, error⟩⟩) ↔ _
  unfold Good utils_init
  cases dev with
  | none => simp [Leaves, enomem, settle]
  | some dev =>
    by_cases hret : ret = 0
    · by_cases hmask : mask64 ≠ 0 ∧ mask32 ≠ 0
      · simp [Leaves, hret, hmask, settle, device_unregister, mydev_release]
      · have hmask' : mask64 = 0 ∨ mask32 = 0 := by omega
        cases kbuf with
        | none => simp [Leaves, hret, hmask, enomem, settle, device_unregister, mydev_release]
        | some kbuf =>
          cases error with
          | true => simp [Leaves, hret, hmask, enomem, settle, kfree_buffer,
              device_unregister, mydev_release]
          | false =>
            simp [Leaves, hret, hmask, hmask', settle, utils_exit, kfree_buffer,
              device_unregister, mydev_release]
    · simp [Leaves, hret, settle]

/-- The unload leaves the memory of the device behind. -/
theorem unload_leaks (o : Outcomes) (us : List (Use Resource)) (st : Statics)
    (h : utils_init o = (us, .returns 0 st)) :
    settle [] (us ++ utils_exit st) = some [.device o.kzalloc] := by
  obtain ⟨dev, ret, mask64, mask32, kbuf, ⟨handle, error⟩⟩ := o
  unfold utils_init at h
  cases dev with
  | none => simp [enomem] at h
  | some dev =>
    by_cases hret : ret = 0
    · by_cases hmask : mask64 ≠ 0 ∧ mask32 ≠ 0
      · simp [hret, hmask] at h
      · cases kbuf with
        | none => simp [hret, hmask, enomem] at h
        | some kbuf =>
          cases error with
          | true => simp [hret, hmask, enomem] at h
          | false =>
            simp only [hret, hmask] at h
            cases h
            simp [settle, utils_exit, kfree_buffer, device_unregister, mydev_release]
    · simp [hret] at h

end Utils

/-! ## `iommu_detect.c` -/

namespace IommuDetect

structure Outcomes where
  kzalloc : Ptr
  device_register : Int
  kmalloc : Ptr
  dma_map_single : DmaMap
  dma_alloc_coherent : Ptr
  /-- What it stores, if it does not fail. -/
  iommu_handle : Nat

structure Statics where
  dev : Ptr
  bounce_buf : Ptr
  bounce_handle : Nat
  iommu_buf : Ptr
  iommu_handle : Nat

/-- It prints. -/
def mydev_release (_ : Ptr) : List (Use Resource) := []

/-- Without a device, `dev_set_name` goes through a null pointer. The tests only look at what they
have got. -/
def iommu_detect_init (o : Outcomes) : List (Use Resource) × Init Statics :=
  let dev := o.kzalloc
  if dev.isNone then ([], .faults)
  else if o.device_register ≠ 0 then
    ([.acquire (.device dev), .release (.device dev)],
      .returns o.device_register ⟨dev, none, 0, none, 0⟩)
  else
    let us := [.acquire (.device dev), .acquire (.registered dev)]
    let bounce_buf := o.kmalloc
    let bounce_handle := if bounce_buf.isSome then o.dma_map_single.handle else 0
    let us := us ++ if bounce_buf.isSome then
      .acquire (.buffer bounce_buf) ::
        if o.dma_map_single.error then [] else [.acquire (.mapping bounce_handle)]
      else []
    let iommu_buf := o.dma_alloc_coherent
    let iommu_handle := if iommu_buf.isSome then o.iommu_handle else 0
    let us := us ++ if iommu_buf.isSome then [.acquire (.coherent iommu_buf iommu_handle)] else []
    let st := ⟨dev, bounce_buf, bounce_handle, iommu_buf, iommu_handle⟩
    if bounce_buf.isNone && iommu_buf.isNone then (us, .returns enomem st)
    else (us, .returns 0 st)

def iommu_detect_exit (s : Statics) : List (Use Resource) :=
  (if s.bounce_buf.isSome then .release (.mapping s.bounce_handle) :: kfree_buffer s.bounce_buf
    else []) ++
    (if s.iommu_buf.isSome then [.release (.coherent s.iommu_buf s.iommu_handle)] else []) ++
      device_unregister mydev_release s.dev

def kmodule : KModule := ⟨Resource, Outcomes, Statics, iommu_detect_init, iommu_detect_exit⟩

/-- There is a device, and it cannot be registered or one of the buffers is there; the first one is
mapped if it is there. -/
def Good (o : Outcomes) : Prop :=
  o.kzalloc.isSome ∧ (o.device_register ≠ 0 ∨
    (o.kmalloc.isSome ∨ o.dma_alloc_coherent.isSome) ∧
      (o.kmalloc.isSome → o.dma_map_single.error = false))

theorem loads_iff (o : Outcomes) : kmodule.Loads o ↔ Good o := by
  obtain ⟨dev, ret, bounce_buf, ⟨handle, error⟩, iommu_buf, iommu_handle⟩ := o
  change Leaves iommu_detect_exit
    (iommu_detect_init ⟨dev, ret, bounce_buf, ⟨handle, error⟩, iommu_buf, iommu_handle⟩) ↔ _
  unfold Good iommu_detect_init
  cases dev with
  | none => simp [Leaves]
  | some dev =>
    by_cases hret : ret = 0
    · cases bounce_buf with
      | none =>
        cases iommu_buf with
        | none => simp [Leaves, hret, enomem, settle]
        | some iommu_buf => simp [Leaves, hret, settle, iommu_detect_exit,
            device_unregister, mydev_release]
      | some bounce_buf =>
        cases iommu_buf <;> cases error <;>
          simp [Leaves, hret, settle, iommu_detect_exit, kfree_buffer,
            device_unregister, mydev_release]
    · simp [Leaves, hret, settle]

/-- The unload leaves the memory of the device behind. -/
theorem unload_leaks (o : Outcomes) (us : List (Use Resource)) (st : Statics) (hgood : Good o)
    (h : iommu_detect_init o = (us, .returns 0 st)) :
    settle [] (us ++ iommu_detect_exit st) = some [.device o.kzalloc] := by
  obtain ⟨dev, ret, bounce_buf, ⟨handle, error⟩, iommu_buf, iommu_handle⟩ := o
  unfold Good at hgood
  unfold iommu_detect_init at h
  cases dev with
  | none => simp at h
  | some dev =>
    by_cases hret : ret = 0
    · cases bounce_buf with
      | none =>
        cases iommu_buf with
        | none => simp [hret, enomem] at h
        | some iommu_buf =>
          simp only [hret] at h
          cases h
          simp [settle, iommu_detect_exit, device_unregister, mydev_release]
      | some bounce_buf =>
        cases error with
        | true => simp [hret] at hgood
        | false =>
          cases iommu_buf <;> simp only [hret] at h <;> cases h <;>
            simp [settle, iommu_detect_exit, kfree_buffer, device_unregister, mydev_release]
    · simp [hret] at h

end IommuDetect

/-! ## `mcache.c` -/

namespace Mcache

inductive Resource where
  | raw_cache
  | block (p : Ptr)
  deriving DecidableEq

structure Outcomes where
  /-- `kmem_cache_create` returns a cache. -/
  kmem_cache_create : Bool
  /-- `kmem_cache_alloc`, for each of the blocks. -/
  alloc1 : Ptr
  alloc2 : Ptr
  alloc3 : Ptr

structure Statics where
  block1 : Ptr
  block2 : Ptr
  block3 : Ptr

/-- Behind an allocation that fails it returns 0. -/
def mcache_init (o : Outcomes) : List (Use Resource) × Init Statics :=
  if !o.kmem_cache_create then ([], .returns enomem ⟨none, none, none⟩)
  else
    let us := [.acquire .raw_cache]
    let block1 := o.alloc1
    if block1.isNone then (us, .returns 0 ⟨block1, none, none⟩)
    else
      let us := us ++ [.acquire (.block block1)]
      let block2 := o.alloc2
      if block2.isNone then (us ++ [.release (.block block1)], .returns 0 ⟨block1, block2, none⟩)
      else
        let us := us ++ [.acquire (.block block2)]
        let block3 := o.alloc3
        if block3.isNone then
          (us ++ [.release (.block block1), .release (.block block2)],
            .returns 0 ⟨block1, block2, block3⟩)
        else (us ++ [.acquire (.block block3)], .returns 0 ⟨block1, block2, block3⟩)

def mcache_exit (s : Statics) : List (Use Resource) :=
  [.release (.block s.block2), .release (.block s.block1), .release (.block s.block3),
    .release .raw_cache]

def kmodule : KModule := ⟨Resource, Outcomes, Statics, mcache_init, mcache_exit⟩

/-- There is no cache, or all the blocks are there. -/
def Good (o : Outcomes) : Prop :=
  o.kmem_cache_create = false ∨ o.alloc1.isSome ∧ o.alloc2.isSome ∧ o.alloc3.isSome

/-- What the exit releases is what was acquired, in another order. -/
theorem settle_blocks (p q r : Ptr) :
    settle [] ([.acquire .raw_cache, .acquire (.block p), .acquire (.block q),
      .acquire (.block r)] ++
      mcache_exit ⟨p, q, r⟩) = some [] := by
  have hperm : [.block q, .block p, .block r, .raw_cache].Perm [Resource.raw_cache, .block p,
      .block q, .block r] :=
    (List.Perm.swap (.block p) (.block q) _).trans
      (List.perm_append_singleton Resource.raw_cache [_, _, _])
  exact settle_acquire_release.2 hperm

theorem loads_iff (o : Outcomes) : kmodule.Loads o ↔ Good o := by
  obtain ⟨cache, block1, block2, block3⟩ := o
  change Leaves mcache_exit (mcache_init ⟨cache, block1, block2, block3⟩) ↔ _
  unfold Good mcache_init
  cases cache with
  | false => simp [Leaves, enomem, settle]
  | true =>
    cases block1 with
    | none => simp [Leaves, settle, mcache_exit]
    | some p =>
      cases block2 with
      | none => simp [Leaves, settle, mcache_exit]
      | some q =>
        cases block3 with
        | none => simp [Leaves, settle, mcache_exit]
        | some r =>
          have h := settle_blocks (some p) (some q) (some r)
          rw [settle_append] at h
          obtain ⟨held, hheld, hexit⟩ := Option.bind_eq_some_iff.1 h
          exact ⟨fun _ => .inr ⟨rfl, rfl, rfl⟩,
            fun _ => ⟨held, hheld, Option.isSome_iff_exists.2 ⟨[], hexit⟩⟩⟩

theorem unload_clean (o : Outcomes) (us : List (Use Resource)) (st : Statics) (hgood : Good o)
    (h : mcache_init o = (us, .returns 0 st)) : settle [] (us ++ mcache_exit st) = some [] := by
  obtain ⟨cache, block1, block2, block3⟩ := o
  cases cache with
  | false => cases h
  | true =>
    rcases hgood with h' | ⟨h1, h2, h3⟩
    · cases h'
    · obtain ⟨p, rfl⟩ := Option.isSome_iff_exists.1 h1
      obtain ⟨q, rfl⟩ := Option.isSome_iff_exists.1 h2
      obtain ⟨r, rfl⟩ := Option.isSome_iff_exists.1 h3
      cases h
      exact settle_blocks (some p) (some q) (some r)

end Mcache

/-! ## Any of them -/

inductive Driver where
  | dmastream
  | utils
  | iommu_detect
  | mcache

namespace Driver

def kmodule : Driver → KModule
  | dmastream => Dmastream.kmodule
  | utils => Utils.kmodule
  | iommu_detect => IommuDetect.kmodule
  | mcache => Mcache.kmodule

/-- The outcomes with which the init function leaves nothing behind, or what the exit function will
release. -/
def Good : (d : Driver) → d.kmodule.Outcomes → Prop
  | dmastream => Dmastream.Good
  | utils => Utils.Good
  | iommu_detect => IommuDetect.Good
  | mcache => Mcache.Good

/-- The exit function has no device that its release function would have to free. -/
def unloads : Driver → Prop
  | mcache => True
  | _ => False

theorem loads_iff : ∀ (d : Driver) (o : d.kmodule.Outcomes), d.kmodule.Loads o ↔ d.Good o
  | dmastream => Dmastream.loads_iff
  | utils => Utils.loads_iff
  | iommu_detect => IommuDetect.loads_iff
  | mcache => Mcache.loads_iff

theorem unloads_iff (d : Driver) (o : d.kmodule.Outcomes) (us : List (Use d.kmodule.Res))
    (st : d.kmodule.Statics) (h : d.kmodule.init o = (us, .returns 0 st)) (hgood : d.Good o) :
    settle [] (us ++ d.kmodule.exit st) = some [] ↔ d.unloads := by
  -- one that leaves a device behind does not come to the empty list
  have hleak : ∀ r, settle [] (us ++ d.kmodule.exit st) = some [r] →
      (settle [] (us ++ d.kmodule.exit st) = some [] ↔ False) := fun r h => by
    rw [h]
    exact ⟨fun h => (by cases h), False.elim⟩
  cases d with
  | dmastream => exact hleak _ (Dmastream.unload_leaks o us st h)
  | utils => exact hleak _ (Utils.unload_leaks o us st h)
  | iommu_detect => exact hleak _ (IommuDetect.unload_leaks o us st hgood h)
  | mcache => exact ⟨fun _ => trivial, fun _ => Mcache.unload_clean o us st hgood h⟩

/-- **Neutral as long as** every load goes well, and no device is given up in an unload: a run of
loads and unloads leaves nothing behind exactly then. -/
theorem neutral_iff_meets (d : Driver) {as : List d.kmodule.Attempt} {t : d.kmodule.State}
    (h : run d.kmodule.step d.kmodule.start as = some t) :
    (∀ i u, run d.kmodule.step d.kmodule.start (as.take i) = some u → d.kmodule.Neutral u) ↔
      Along d.kmodule.step (d.kmodule.Meets d.Good d.unloads) d.kmodule.start as :=
  KModule.neutral_iff d.loads_iff d.unloads_iff h

/-- `mcache.c`, loaded and unloaded twice, with a load between that fails. -/
def mcacheTwice : List (Driver.kmodule .mcache).Attempt :=
  [.load (⟨true, some 1, some 2, some 3⟩ : Mcache.Outcomes), .unload,
    .load (⟨false, none, none, none⟩ : Mcache.Outcomes),
    .load (⟨true, some 2, some 1, some 4⟩ : Mcache.Outcomes), .unload]

theorem mcacheTwice_neutral :
    ∃ u, run (kmodule .mcache).step (kmodule .mcache).start mcacheTwice = some u ∧
      (kmodule .mcache).Neutral u := by
  refine ⟨⟨none, some [], false⟩, rfl, ?_⟩
  have hgood : ∀ o, .load o ∈ mcacheTwice → Good .mcache o := fun o ho => by
    simp only [mcacheTwice, List.mem_cons, reduceCtorEq, List.not_mem_nil, or_false, false_or] at ho
    rcases ho with h | h | h <;> cases h
    · exact .inr ⟨rfl, rfl, rfl⟩
    · exact .inl rfl
    · exact .inr ⟨rfl, rfl, rfl⟩
  have h := (neutral_iff_meets .mcache (rfl : run _ _ mcacheTwice = some _)).2
    (KModule.meets_of_loads trivial hgood)
  exact h 5 _ rfl

/-- `utils.c`, loaded and unloaded: the memory of its device is still held. -/
theorem utils_not_neutral :
    ∃ u, run Utils.kmodule.step Utils.kmodule.start
        [.load (⟨some 1, 0, 0, 0, some 2, ⟨3, false⟩⟩ : Utils.Outcomes), .unload] = some u ∧
      u.loaded = none ∧ u.held = some [Resource.device (some 1)] ∧ ¬ Utils.kmodule.Neutral u := by
  refine ⟨⟨none, some [Resource.device (some 1)], false⟩, rfl, rfl, rfl, fun h => ?_⟩
  cases h.unloaded rfl

end Driver

end LinuxKernelProg.Mm
