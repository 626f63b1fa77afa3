import WillowOS.Loader.Image

/-!
# The access `sys_vm_map` grants

`sys_vm_map` turns `prot` into the bits of an entry. Among them is never the one that lets
programs access a page – unless `PROT_READ` is missing, when all bits are set, those of the
address included, and the page is mapped onto no frame at all. So in every state of an address
space that `load_elf` and `sys_vm_map` build, a call that succeeds has not granted the access it
was asked for, on any page: **`WillowOS.Vm.not_grantsAccess_run`**.
-/

namespace WillowOS

namespace Vm

open Paging Loader

open Frames hiding State

variable {roots K : Set ℕ} {root r a e v w n hint size : ℕ} {prot : BitVec 32} {s s' : State}

/-! ### The access to a page -/

/-- The entries of the four levels, as the hardware goes down to them. -/
def walkEntries (m : Mem) (cr3 w : ℕ) : List ℕ :=
  let e₄ := readEntry m cr3 (pml4Index w)
  let e₃ := readEntry m (4096 * frameNumber e₄) (pdptIndex w)
  let e₂ := readEntry m (4096 * frameNumber e₃) (pdIndex w)
  let e₁ := readEntry m (4096 * frameNumber e₂) (ptIndex w)
  [e₄, e₃, e₂, e₁]

/-- The access of programs to a page is the one `prot` asks for: it is there, it is theirs, and it
can be written and executed if that was asked for. -/
def AccessIs (m : Mem) (cr3 w : ℕ) (prot : BitVec 32) : Prop :=
  let es := walkEntries m cr3 w
  (∀ e ∈ es, Present e) ∧ (∀ e ∈ es, e.testBit 2 = true) ∧
    ((∀ e ∈ es, e.testBit 1 = true) ↔ prot.getLsbD 1 = true) ∧
    ((∀ e ∈ es, e.testBit 63 = false) ↔ prot.getLsbD 2 = true)

/-- **What `sys_vm_map` is to do**: each page of the range is on a frame that was free, and the
access to it is the one `prot` asks for. -/
def GrantsAccess (s s' : State) (cr3 hint size : ℕ) (prot : BitVec 32) : Prop :=
  ∀ w, hint ≤ w → w < hint + size →
    (∃ a ∈ freeFrames s.phys.regions, virtToPhys s'.phys.mem w cr3 = a + w % 4096) ∧
      AccessIs s'.phys.mem cr3 w prot

/-! ### The entry of a page -/

namespace Spaces

variable {s : Phys} (h : Spaces roots K s)
include h

/-- The hardware follows the path of the kernel to a table. -/
theorem frameNumber_of_walk {t u : ℕ} {i : Fin 512} {p : List (Fin 512)} (hr : r ∈ roots)
    (hp : p.length < 3) (ht : walk (next (userHalf roots s.mem)) r p = some t)
    (hu : walk (next (userHalf roots s.mem)) r (p ++ [i]) = some u) :
    frameNumber (readEntry s.mem (4096 * t) i) = u := by
  obtain ⟨heq, hd⟩ := h.maskFlags_eq hr hp ht hu
  have hlt : 4096 * u < 2 ^ 47 := of_decide_eq_true hd
  rw [maskFlags] at heq
  rw [frameNumber]
  omega

/-- **The last entry of the walk** is the one that maps the page. -/
theorem mem_walkEntries (hr : r ∈ roots) (he : leaf (userHalf roots s.mem) r w = some e) :
    e ∈ walkEntries s.mem (4096 * r) w := by
  obtain ⟨pt, hpt, he⟩ := Option.bind_eq_some_iff.mp he
  obtain ⟨hpres, rfl⟩ := ifPresent_eq_some.mp he
  rw [show tablePath w = [] ++ [pml4Index w] ++ [pdptIndex w] ++ [pdIndex w] from rfl] at hpt
  obtain ⟨t₂, hw₂, -⟩ := walk_concat_eq_some.mp hpt
  obtain ⟨t₃, hw₃, -⟩ := walk_concat_eq_some.mp hw₂
  have h₃ := h.frameNumber_of_walk hr (by simp) walk_nil hw₃
  have h₂ := h.frameNumber_of_walk hr (by simp) hw₃ hw₂
  have h₁ := h.frameNumber_of_walk hr (by simp) hw₂ hpt
  simp only [walkEntries, h₃, h₂, h₁]
  rw [entry_userHalf (lt_of_present hpres)]
  exact List.mem_of_mem_getLast? rfl

/-- `virt_to_phys` reads that entry, with all bits from the twelfth on. -/
theorem virtToPhys_eq (hr : r ∈ roots) (he : leaf (userHalf roots s.mem) r w = some e) :
    virtToPhys s.mem w (4096 * r) = maskFlags e + w % 4096 := by
  obtain ⟨pt, hpt, he⟩ := Option.bind_eq_some_iff.mp he
  obtain ⟨hpres, rfl⟩ := ifPresent_eq_some.mp he
  have htables := (h.walkTables_eq hr hpt).1
  rw [entry_userHalf (lt_of_present hpres), ← readEntry_eq_entry, ← htables]
  rfl

end Spaces

/-! ### The permissions -/

/-- The permissions `sys_vm_map` computes: without `PROT_READ`, all bits. -/
theorem protPermissions_cases (prot : BitVec 32) :
    Grants (protPermissions prot) ∧
      ((protPermissions prot).testBit 2 = false ∨ protPermissions prot = 2 ^ 64 - 1) := by
  rw [protPermissions]
  cases prot.getLsbD 0 <;> cases prot.getLsbD 1 <;> cases prot.getLsbD 2 <;> decide

/-- The entry of a page does not let programs access it, or is one without a frame. -/
theorem entry_protPermissions (prot : BitVec 32) (ha : 4096 * a + 4096 ≤ 2 ^ 47) :
    (4096 * a ||| protPermissions prot).testBit 2 = false ∨
      maskFlags (4096 * a ||| protPermissions prot) = 2 ^ 64 - 4096 := by
  rcases (protPermissions_cases prot).2 with h | h
  · refine Or.inl ?_
    rw [Nat.testBit_or, h, Bool.or_false, Nat.testBit_eq_decide_div_mod_eq]
    exact decide_eq_false (by omega)
  · refine Or.inr ?_
    have hlt : 4096 * a ||| (2 ^ 64 - 1) < 2 ^ 64 := Nat.or_lt_two_pow (by omega) (by omega)
    have hle : 2 ^ 64 - 1 ≤ 4096 * a ||| (2 ^ 64 - 1) := Nat.right_le_or
    rw [h, maskFlags]
    omega

/-! ### The range -/

/-- Bytes are written at canonical addresses only. -/
theorem canonical_of_storeBytes {m m' : Mem} {cr3 : ℕ} {b : ℕ → UInt8}
    (h : storeBytes m cr3 v b n = some m') {i : ℕ} (hi : i < n) : Canonical ((v + i) % 2 ^ 64) := by
  induction n generalizing m' with
  | zero => exact absurd hi (Nat.not_lt_zero i)
  | succ n ih =>
    rw [storeBytes_succ] at h
    obtain ⟨m₁, hm₁, h⟩ := Option.bind_eq_some_iff.mp h
    rcases Nat.lt_succ_iff_lt_or_eq.mp hi with hi | rfl
    · exact ih hm₁ hi
    · obtain ⟨a, ha, -⟩ := Option.map_eq_some_iff.mp h
      by_contra hcan
      rw [mmuTranslate, if_pos (Or.inl hcan)] at ha
      cases ha

/-- A range that begins in the lower half and is written ends there. -/
theorem end_le_of_storeBytes {m m' : Mem} {cr3 : ℕ} {b : ℕ → UInt8} (hv : v < 2 ^ 47)
    (h : storeBytes m cr3 v b n = some m') : v + n ≤ 2 ^ 47 := by
  by_contra hlt
  have := canonical_of_storeBytes h (i := 2 ^ 47 - v) (by omega)
  rw [show v + (2 ^ 47 - v) = 2 ^ 47 by omega] at this
  exact absurd this (by decide)

/-- The addresses `map_range` maps for a range of the lower half, of up to 2 GiB or from 2 GiB
on. -/
theorem mapRangeAddresses_lt (hend : v + size ≤ 2 ^ 47)
    (hsize : v % 4096 + size ≤ 2 ^ 31 ∨ 2 ^ 31 ≤ v) :
    ∀ u ∈ mapRangeAddresses v size, u < 2 ^ 47 := by
  intro u hu
  by_cases hzero : size = 0
  · rw [mapRangeAddresses, if_pos hzero] at hu
    cases hu
  have hcount : pageCount v size = (v % 4096 + size + 4095) / 4096 := rfl
  rw [mapRangeAddresses_eq hzero hend] at hu
  by_cases hle : pageCount v size ≤ 2 ^ 19
  · rw [rangeAddresses_eq hle] at hu
    obtain ⟨i, hi, rfl⟩ := List.mem_map.mp hu
    have hi := List.mem_range.mp hi
    omega
  · obtain ⟨i, -, rfl⟩ := List.mem_map.mp hu
    obtain ⟨d, hd, hi⟩ := intOffset_cases i
    rw [hi]
    omega

/-- The page of the first address is mapped. -/
theorem mem_mapRangeAddresses_self (hzero : size ≠ 0) (hend : v + size ≤ 2 ^ 47) :
    pageNumber v ∈ (mapRangeAddresses v size).map pageNumber := by
  have hcount : pageCount v size = (v % 4096 + size + 4095) / 4096 := rfl
  rw [mapRangeAddresses_eq hzero hend]
  refine List.mem_map.mpr ⟨v, List.mem_map.mpr ⟨0, List.mem_range.mpr (by omega), ?_⟩, rfl⟩
  rw [show intOffset 0 = 0 by decide, Nat.add_zero]
  exact Nat.mod_eq_of_lt (by omega)

/-! ### Runs -/

/-- What address spaces are built by: a program is loaded, or it asks for memory. -/
inductive SpaceCall where
  | load (root : ℕ) (file : Mem)
  | map (root hint size : ℕ) (prot flags : BitVec 32)

def spaceStep (s : State) : SpaceCall → Option State
  | .load root file => (loadElf file (4096 * root) s).map Prod.snd
  | .map root hint size prot flags => (sysVmMap s (4096 * root) hint size prot flags).map Prod.snd

/-- Calls on the lower half, with frames for the pages. -/
def SpaceCall.Lower (roots : Set ℕ) (s : State) : SpaceCall → Prop
  | .load root file => root ∈ roots ∧
      (∀ phdr ∈ ptLoad file, phdr.pVaddr < 2 ^ 47 ∧ phdr.pVaddr + phdr.pMemsz ≤ 2 ^ 47 ∧
        ∀ v ∈ loadAddresses phdr, v < 2 ^ 47) ∧
      4 * ((ptLoad file).flatMap loadAddresses).length ≤ (freeFrames s.phys.regions).length
  | .map root hint size _ _ => root ∈ roots ∧ hint < 2 ^ 47 ∧
      (∀ v ∈ mapRangeAddresses hint size, v < 2 ^ 47) ∧
      4 * (mapRangeAddresses hint size).length ≤ (freeFrames s.phys.regions).length

/-- What `sys_vm_map` returns is what `syscall7` does. -/
theorem sysVmMap_eq_some {err cr3 : ℕ} {flags : BitVec 32}
    (hs : sysVmMap s cr3 hint size prot flags = some (err, s')) :
    ∃ err' flag, syscall7 s cr3 hint (protPermissions prot) size flag = some (err', s') ∧
      (hint % 2 = 0 → err' = err) := by
  rw [sysVmMap] at hs
  by_cases hflags : flags.toNat / 16 % 16 = 2 ∨ flags.toNat / 16 % 16 = 1
  swap
  · rw [if_neg hflags] at hs
    cases hs
  rw [if_pos hflags] at hs
  obtain ⟨⟨err', s''⟩, hcall, heq⟩ := Option.map_eq_some_iff.mp hs
  split_ifs at heq with hodd
  · obtain ⟨-, rfl⟩ := Prod.mk.inj heq
    exact ⟨err', _, hcall, fun heven => absurd heven hodd⟩
  · obtain ⟨rfl, rfl⟩ := Prod.mk.inj heq
    exact ⟨err', _, hcall, fun _ => rfl⟩

theorem spaceStep_spaces {c : SpaceCall} (h : Spaces roots K s.phys) (hc : c.Lower roots s)
    (hs : spaceStep s c = some s') : Spaces roots K s'.phys := by
  cases c with
  | load root file =>
    obtain ⟨hroot, hlower, hfree⟩ := hc
    obtain ⟨⟨entry, s''⟩, hload, rfl⟩ := Option.map_eq_some_iff.mp hs
    exact loadElf_spaces h hroot hlower hfree hload
  | map root hint size prot flags =>
    obtain ⟨hroot, hhint, hvs, hfree⟩ := hc
    obtain ⟨⟨err, s''⟩, hmap, rfl⟩ := Option.map_eq_some_iff.mp hs
    obtain ⟨err', flag, hcall, -⟩ := sysVmMap_eq_some hmap
    rcases h.syscall7 hroot hhint hvs (protPermissions_cases prot).1 hfree hcall with
      ⟨-, rfl⟩ | ⟨-, -, hR⟩
    · exact h
    · exact hR.spaces

/-- **A call that succeeds does not grant the access.** -/
theorem Spaces.not_grantsAccess (h : Spaces roots K s.phys) (hroot : root ∈ roots)
    (hhint : hint < 2 ^ 47) (halign : hint % 4096 = 0) (hsize : size ≤ 2 ^ 31 ∨ 2 ^ 31 ≤ hint)
    (hzero : size ≠ 0)
    (hfree : 4 * (mapRangeAddresses hint size).length ≤ (freeFrames s.phys.regions).length)
    (hs : sysVmMap s (4096 * root) hint size prot 0x22 = some (0, s')) :
    ¬GrantsAccess s s' (4096 * root) hint size prot := by
  obtain ⟨err, flag, hcall, herr⟩ := sysVmMap_eq_some hs
  obtain rfl := herr (by omega)
  have hend : hint + size ≤ 2 ^ 47 := by
    rcases syscall7_cases hcall with ⟨hodd, -⟩ | ⟨s₁, m, -, hm, -⟩
    · omega
    · exact end_le_of_storeBytes hhint hm
  have hvs := mapRangeAddresses_lt hend (by omega)
  rcases h.syscall7 hroot hhint hvs (protPermissions_cases prot).1 hfree hcall with
    ⟨herr, -⟩ | ⟨-, -, hR⟩
  · exact absurd herr (by decide)
  obtain ⟨a, ha, hleaf⟩ := hR.leaf_mapped hint (mem_mapRangeAddresses_self hzero hend)
  have hle := h.usable_le _ (usableFrames_of_mem_freeFrames ha)
  intro hgrants
  obtain ⟨⟨b, hb, hphys⟩, -, huser, -⟩ := hgrants hint le_rfl (by omega)
  rcases entry_protPermissions prot hle with hbit | hmask
  · -- the entry of the page is not one for programs
    have := huser _ (hR.spaces.mem_walkEntries hroot hleaf)
    rw [hbit] at this
    cases this
  · -- the page is not on a frame
    rw [hR.spaces.virtToPhys_eq hroot hleaf, hmask] at hphys
    have := h.usable_le _ (usableFrames_of_mem_freeFrames hb)
    omega

end Vm

end WillowOS
