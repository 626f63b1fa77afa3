import WillowOS.Vm.Records

/-!
# The system calls on the lower half

What `syscall7` and `syscall8` do when all the pages they map or unmap are in the lower half.
The first one maps the pages of its range onto frames that were free, and clears the range
through the new mappings (`WillowOS.Vm.RangeMapped`). It comes back only if the range ends in the
lower half and all of it is mapped: otherwise clearing it faults.
-/

namespace WillowOS

namespace Vm

open Paging

open Frames hiding State

variable {roots K : Set ℕ} {root r v w n size flag permissions err cr3 : ℕ} {s s' : State}

/-- How many pages a range meets. -/
def pageCount (virtAddress size : ℕ) : ℕ := (virtAddress % 4096 + size + 4095) / 4096

/-- The addresses `map_range` maps, when the size does not wrap around. -/
theorem mapRangeAddresses_eq_of_lt (hsize : size ≠ 0) (hv : v < 2 ^ 64)
    (hlt : v % 4096 + size < 2 ^ 64) :
    mapRangeAddresses v size = rangeAddresses v (pageCount v size) := by
  have hmod : (size + v % 4096) % 2 ^ 64 = size + v % 4096 := Nat.mod_eq_of_lt (by omega)
  have hone : rangeAddresses v 1 = [v] := by
    rw [rangeAddresses_eq (by omega), pagesFrom_one hv]
  simp only [mapRangeAddresses, if_neg hsize, hmod, pageCount]
  split_ifs with h1 h2
  · rw [show (v % 4096 + size + 4095) / 4096 = 1 by omega, hone]
  · rw [show (v % 4096 + size + 4095) / 4096 = (size + v % 4096) / 4096 by omega]
  · rw [show (v % 4096 + size + 4095) / 4096 = (size + v % 4096) / 4096 + 1 by omega]

theorem mapRangeAddresses_eq (hsize : size ≠ 0) (hle : v + size ≤ 2 ^ 47) :
    mapRangeAddresses v size = rangeAddresses v (pageCount v size) :=
  mapRangeAddresses_eq_of_lt hsize (by omega) (by omega)

/-- **What `syscall7` does**: nothing on an odd address; otherwise the pages are mapped, and the
range is cleared. -/
theorem syscall7_cases (hs : syscall7 s cr3 v permissions size flag = some (err, s')) :
    v % 2 ≠ 0 ∧ err = einval ∧ s' = s ∨
      ∃ s₁ m, mapRange s cr3 v permissions size flag = some (err, s₁) ∧
        storeBytes s₁.phys.mem cr3 v (fun _ => 0) size = some m ∧
        s' = { s₁ with phys := { s₁.phys with mem := m } } := by
  rw [syscall7] at hs
  split_ifs at hs with hodd
  · obtain ⟨rfl, rfl⟩ := Prod.mk.inj (Option.some.inj hs)
    exact Or.inl ⟨hodd, rfl, rfl⟩
  · obtain ⟨⟨err', s₁⟩, hmap, hs⟩ := Option.bind_eq_some_iff.mp hs
    obtain ⟨m, hm, hs⟩ := Option.bind_eq_some_iff.mp hs
    obtain ⟨word, -, hs⟩ := Option.bind_eq_some_iff.mp hs
    split_ifs at hs
    obtain ⟨rfl, rfl⟩ := Prod.mk.inj (Option.some.inj hs)
    exact Or.inr ⟨s₁, m, hmap, hm, rfl⟩

/-- Without a size, `syscall7` changes nothing. -/
theorem syscall7_zero (hs : syscall7 s cr3 v permissions 0 flag = some (err, s')) : s' = s := by
  rcases syscall7_cases hs with ⟨-, -, rfl⟩ | ⟨s₁, m, hmap, hm, rfl⟩
  · rfl
  · obtain ⟨rfl, rfl⟩ := Prod.mk.inj (Option.some.inj hmap)
    obtain rfl : s.phys.mem = m := Option.some.inj hm
    rfl

/-- **A range of the lower half is mapped and cleared.** -/
structure RangeMapped (roots K : Set ℕ) (root permissions flag v size : ℕ) (s s' : State) :
    Prop where
  spaces : Spaces roots K s'.phys
  kernelKept : KernelKept roots K s.phys.mem s'.phys.mem
  layout_eq : layout s'.phys.regions = layout s.phys.regions
  free_le : (freeFrames s.phys.regions).length ≤
    4 * (mapRangeAddresses v size).length + (freeFrames s'.phys.regions).length
  end_le : v + size ≤ 2 ^ 47
  cleared : ∀ i < size, (leaf (userHalf roots s'.phys.mem) root (v + i)).isSome
  leaf_mapped : ∀ w, pageNumber w ∈ (mapRangeAddresses v size).map pageNumber →
    ∃ a, 4096 * a ∈ freeFrames s.phys.regions ∧
      leaf (userHalf roots s'.phys.mem) root w = some (4096 * a ||| permissions)
  leaf_other : ∀ r ∈ roots, ∀ w,
    r ≠ root ∨ pageNumber w ∉ (mapRangeAddresses v size).map pageNumber →
    leaf (userHalf roots s'.phys.mem) r w = leaf (userHalf roots s.phys.mem) r w
  started_eq : s'.schedulingStarted = s.schedulingStarted
  mappings_eq : s'.mappings = if s.schedulingStarted then
    (mapRangeAddresses v size).foldl (recordNext · · flag) s.mappings else s.mappings

/-- **`syscall7` on the lower half.** -/
theorem Spaces.syscall7 (h : Spaces roots K s.phys) (hroot : root ∈ roots) (hv : v < 2 ^ 47)
    (hvs : ∀ u ∈ mapRangeAddresses v size, u < 2 ^ 47) (hP : Grants permissions)
    (hfree : 4 * (mapRangeAddresses v size).length ≤ (freeFrames s.phys.regions).length)
    (hs : Vm.syscall7 s (4096 * root) v permissions size flag = some (err, s')) :
    err = einval ∧ s' = s ∨ err = 0 ∧ size ≠ 0 ∧
      RangeMapped roots K root permissions flag v size s s' := by
  by_cases hsize : size = 0
  · subst hsize
    refine Or.inl ⟨?_, syscall7_zero hs⟩
    rcases syscall7_cases hs with ⟨-, rfl, -⟩ | ⟨s₁, m, hmap, -, -⟩
    · rfl
    · exact (Prod.mk.inj (Option.some.inj hmap)).1.symm
  rcases syscall7_cases hs with ⟨-, herr, rfl⟩ | ⟨s₁, m, hmap, hm, rfl⟩
  · exact Or.inl ⟨herr, rfl⟩
  rw [mapRange, if_neg hsize] at hmap
  obtain ⟨s₂, hall, heq⟩ := Option.map_eq_some_iff.mp hmap
  obtain ⟨rfl, rfl⟩ := Prod.mk.inj heq
  have hpages := h.mapAll hroot hvs hP hfree hall
  obtain ⟨hst, hmp⟩ := mappings_mapAll hall
  obtain ⟨hstores, hle, hcl⟩ := hpages.spaces.stores_storeBytes hroot hv hm
  refine Or.inr ⟨rfl, hsize, ?_⟩
  exact
    { spaces := hstores.spaces hpages.spaces
      kernelKept := (hpages.toChanges.kernelKept h).trans hstores.kernelKept
      layout_eq := hpages.layout_eq
      free_le := hpages.free_le
      end_le := hle
      cleared := fun i hi => by
        rw [hstores.leaf_eq hroot]
        exact hcl i hi
      leaf_mapped := fun w hw => by
        rw [hstores.leaf_eq hroot]
        exact hpages.leaf_mapped w hw
      leaf_other := fun r hr w hw => by
        rw [hstores.leaf_eq hr]
        exact hpages.leaf_other r hr w hw
      started_eq := hst
      mappings_eq := hmp }

/-- **`syscall8` on the lower half**, when the page tables are there. -/
theorem Spaces.syscall8 (size : ℕ) (h : Spaces roots K s.phys) (hroot : root ∈ roots) (hv : v ≠ 0)
    (hpt : ∀ u ∈ pagesFrom v (unmapCount size),
      (walk (next (userHalf roots s.phys.mem)) root (tablePath u)).isSome) :
    ∃ s', Vm.syscall8 s (4096 * root) v size = some (0, s') ∧
      s'.schedulingStarted = s.schedulingStarted ∧
      s'.mappings = (if s.schedulingStarted then
        (pagesFrom v (unmapCount size)).foldl clearMapping s.mappings else s.mappings) ∧
      PagesUnmapped roots K root (pagesFrom v (unmapCount size)) s.phys s'.phys := by
  obtain ⟨s', hs', hst, hmp, hun⟩ := h.unmapAll hroot hpt
  refine ⟨s', ?_, hst, hmp, hun⟩
  rw [Vm.syscall8, if_neg hv, hs', Option.map_some]

end Vm

end WillowOS
