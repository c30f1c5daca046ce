import LinuxKernelProg.Lib.CString
import LinuxKernelProg.Lib.Slab

/-!
# Objects that are cleared

`mm/p3_slub/safe_alloc.c`: network devices from a slab cache, filled by their owners and cleared by
`net_device_free`. `net_device_alloc` returns what the cache hands out, so a device that has had an
owner comes with the other magic.
-/

namespace LinuxKernelProg.Mm.SafeAlloc

open LinuxKernelProg.Lib

structure net_device where
  magic : BitVec 32
  device_id : BitVec 32
  name : Fin 12 → UInt8
  ip_addr : BitVec 32
  flags : BitVec 32

def NET_MAGIC : BitVec 32 := 0xDECE1234

def net_device_constructor (dev : net_device) : net_device :=
  { dev with magic := NET_MAGIC, device_id := 0, name := fun _ => 0, ip_addr := 0, flags := 0 }

/-- What `kmem_cache_free` gets. -/
def net_device_free (dev : net_device) : net_device :=
  { dev with magic := 0x12345678, device_id := 0, name := fun _ => 0, ip_addr := 0, flags := 0 }

/-- What an owner is given for a device. -/
structure Data where
  id : BitVec 32
  name : CString
  ip : BitVec 32

def fill_device_data (d : Data) (dev : net_device) : net_device :=
  { dev with
    magic := NET_MAGIC
    device_id := d.id
    name := CString.strncpy dev.name d.name (12 - 1)
    ip_addr := d.ip
    flags := 0xACE50000 + d.id }

def net_device_cache : Slab net_device Data :=
  ⟨net_device_constructor, fill_device_data, net_device_free⟩

abbrev History := List (Slab.Action net_device Data)

/-- The device of an object that has not had an owner, and of one that has. -/
def constructed : net_device := ⟨NET_MAGIC, 0, fun _ => 0, 0, 0⟩

def cleared : net_device := ⟨0x12345678, 0, fun _ => 0, 0, 0⟩

variable {as : History} {s : List (Slab.Obj net_device)}

/-- The last byte of a name is never written with anything but NUL. -/
theorem name_last (h : run net_device_cache.step [] as = some s) :
    ∀ o ∈ s, o.contents.name 11 = 0 :=
  Slab.forall_of_run (P := fun dev => dev.name 11 = 0) (fun _ => rfl)
    (fun d dev hdev => (CString.strncpy_of_le dev.name d.name (Nat.le_refl 11)).trans hdev)
      (fun _ _ => rfl) h

/-- **No data survives.** What is in an object when it is handed out depends on whether it has had
an owner, and on nothing else: neither on what was stored in it nor on what was on the page. And
every name is terminated. -/
theorem no_data_survives (h : run net_device_cache.step [] as = some s) :
    (∀ k s', net_device_cache.step s (.alloc (some k)) = some s' →
        Slab.contents s' k = some (if (Slab.owned as).contains k then cleared else constructed)) ∧
      (∀ bs, List.Forall₂ Slab.Action.Alike as bs → ∃ t, run net_device_cache.step [] bs = some t ∧
        ∀ k s', net_device_cache.step s (.alloc (some k)) = some s' →
          ∃ t', net_device_cache.step t (.alloc (some k)) = some t' ∧
            Slab.contents t' k = Slab.contents s' k) ∧
      ∀ o ∈ s, o.live = true → ∃ i, o.contents.name i = 0 := by
  refine ⟨fun k s' hk => Slab.handed_of_run (fun _ => rfl) (fun _ => rfl) h hk,
    fun bs hbs => ?_, fun o ho _ => ?_⟩
  · obtain ⟨t, ht, hst⟩ := Slab.alike_of_run (fun _ _ => rfl) (fun _ _ => rfl) hbs h
    exact ⟨t, ht, fun _ _ hk => Slab.alike_alloc hst hk⟩
  · exact ⟨11, name_last h o ho⟩

/-- Two devices in one page, the first of them used again. -/
def reuse (d d' : Data) : History :=
  [.grow [cleared, cleared], .alloc (some 0), .store 0 d, .store 0 d', .alloc (some 1),
    .free (some 0), .alloc none]

def wlan1 : Data := ⟨501, ⟨[119, 108, 97, 110, 49], by decide⟩, 0xC0A80103⟩

/-- Longer than the field. -/
def verylongname : Data :=
  ⟨502, ⟨[118, 101, 114, 121, 108, 111, 110, 103, 110, 97, 109, 101], by decide⟩, 0xC0A80104⟩

theorem reuse_tells_nothing :
    ∃ s t, run net_device_cache.step [] (reuse wlan1 verylongname) = some s ∧
      run net_device_cache.step [] (reuse verylongname wlan1) = some t ∧
      ∀ s', net_device_cache.step s (.alloc (some 0)) = some s' →
        Slab.contents s' 0 = some cleared ∧
        ∃ t', net_device_cache.step t (.alloc (some 0)) = some t' ∧
          Slab.contents t' 0 = Slab.contents s' 0 := by
  obtain ⟨hhanded, halike, -⟩ :=
    no_data_survives (rfl : run net_device_cache.step [] (reuse wlan1 verylongname) = some _)
  obtain ⟨t, ht, hsame⟩ := halike (reuse verylongname wlan1)
    (.cons (.grow rfl) (.cons (.alloc _) (.cons (.store 0 _ _) (.cons (.store 0 _ _)
      (.cons (.alloc _) (.cons (.free _) (.cons (.alloc _) .nil)))))))
  exact ⟨_, t, rfl, ht, fun s' hs' => ⟨hhanded 0 s' hs', hsame 0 s' hs'⟩⟩

/-! ## Valid devices -/

/-- Whenever an object is handed out in the history, it is a valid device. -/
def Valid (as : History) : Prop :=
  ∀ pre k s, pre ++ [.alloc (some k)] <+: as →
    run net_device_cache.step [] (pre ++ [.alloc (some k)]) = some s →
    ∃ dev, Slab.contents s k = some dev ∧ dev.magic = NET_MAGIC

/-- **Valid as long as** no object is handed out twice. -/
theorem valid_iff_nodup (h : run net_device_cache.step [] as = some s) :
    Valid as ↔ (Slab.owned as).Nodup := by
  have hcontents : ∀ {pre k t}, run net_device_cache.step [] (pre ++ [.alloc (some k)]) = some t →
      Slab.contents t k = some (if (Slab.owned pre).contains k then cleared else constructed) :=
        fun ht => by
    obtain ⟨u, hu, hstep⟩ := run_snoc.1 ht
    exact Slab.handed_of_run (fun _ => rfl) (fun _ => rfl) hu hstep
  rw [Slab.nodup_owned_iff]
  refine forall₂_congr fun pre k => ?_
  constructor
  · intro hvalid hpre hmem
    obtain ⟨rest, rfl⟩ := hpre
    obtain ⟨t, ht, -⟩ := run_append.1 h
    obtain ⟨dev, hdev, hmagic⟩ := hvalid t (List.prefix_append _ _) ht
    rw [hcontents ht, if_pos (List.contains_iff_mem.2 hmem)] at hdev
    obtain rfl : cleared = dev := Option.some.inj hdev
    exact absurd hmagic (by decide)
  · intro hnew t hpre ht
    refine ⟨constructed, ?_, rfl⟩
    rw [hcontents ht, if_neg fun hmem => hnew hpre (List.contains_iff_mem.1 hmem)]

/-- Two devices, each handed out once. -/
theorem fresh_valid : Valid (reuse wlan1 wlan1) :=
  (valid_iff_nodup (rfl : run net_device_cache.step [] (reuse wlan1 wlan1) = some _)).2 (by decide)

/-- A device that has had an owner is not valid when it is handed out again. -/
theorem reused_not_valid : ¬ Valid (reuse wlan1 wlan1 ++ [.alloc (some 0)]) := by
  intro h
  obtain ⟨dev, hdev, hmagic⟩ := h (reuse wlan1 wlan1) 0 _ (List.prefix_refl _) rfl
  obtain rfl : cleared = dev := Option.some.inj hdev
  exact absurd hmagic (by decide)

end LinuxKernelProg.Mm.SafeAlloc
