import WillowOS.Vm.Calls

/-!
# Unmapping what was mapped

`syscall7` maps the pages its range meets, of which there are one more than its size says when
the range starts in the middle of a page and reaches over into another one. `syscall8` counts its
pages by the size alone. So it undoes `syscall7` exactly for the ranges that meet no more pages
than a range of their size that starts with a page
(**`WillowOS.Vm.syscall8_undoes_syscall7`**), and that do not start at address `0`, which
`syscall8` refuses.

`syscall8` never counts less than one page. Called with size `0` it unmaps the page of its
address, which changes nothing only if that page is not mapped.
-/

namespace WillowOS

namespace Vm

open Paging

open Frames hiding State

variable {roots K : Set ℕ} {root hint size flag permissions w k n : ℕ} {s s₁ : State}

/-- **A range of pages of the lower half that are not mapped**, with frames for them and records
that are in order. -/
structure FreshRange (roots K : Set ℕ) (s : State) (root hint size permissions : ℕ) : Prop where
  spaces : Spaces roots K s.phys
  kernel : kernelTables roots s.phys.mem ⊆ K
  root_mem : root ∈ roots
  started : s.schedulingStarted = true
  grants : Grants permissions
  hint_lt : hint < 2 ^ 47
  lower : ∀ v ∈ mapRangeAddresses hint size, v < 2 ^ 47
  frames : 4 * (mapRangeAddresses hint size).length ≤ (freeFrames s.phys.regions).length
  unmapped : ∀ w, hint ≤ w → w < hint + size → mmuTranslate s.phys.mem (4096 * root) w = none
  records : RecordsOk s.mappings
  records_size : s.mappings.maxMappings * 24 < 2 ^ 64
  unrecorded : ∀ i < s.mappings.maxMappings, taken s.mappings i = true →
    (s.mappings.mappedVirtAddressesArray i).virtAddress ∉ mapRangeAddresses hint size

/-- **What `syscall8` is to do** in the state `s₁` that `syscall7` has made of `s`: no page of the
range is mapped, all others are translated as in `s`, and the records are those of `s`. -/
def Undoes (roots : Set ℕ) (s s₁ : State) (root hint size : ℕ) : Prop :=
  ∃ err s₂, syscall8 s₁ (4096 * root) hint size = some (err, s₂) ∧
    (∀ w, hint ≤ w → w < hint + size → mmuTranslate s₂.phys.mem (4096 * root) w = none) ∧
    (∀ r ∈ roots, ∀ w < 2 ^ 64,
      (r ≠ root ∨ ∀ u, hint ≤ u → u < hint + size → w / 4096 ≠ u / 4096) →
        mmuTranslate s₂.phys.mem (4096 * r) w = mmuTranslate s.phys.mem (4096 * r) w) ∧
    SameRecords s.mappings s₂.mappings

/-! ### The pages -/

theorem unmapCount_eq (hsize : size ≠ 0) : unmapCount size = (size + 4095) / 4096 := by
  rw [unmapCount]
  split_ifs <;> omega

/-- The pages of consecutive addresses, without wrap-around. -/
theorem mem_pages_iff (hend : hint + 4096 * n ≤ 2 ^ 47 + 4095) (hw : w < 2 ^ 47) :
    pageNumber w ∈ (pagesFrom hint n).map pageNumber ↔
      hint / 4096 ≤ w / 4096 ∧ w / 4096 < hint / 4096 + n := by
  rw [mem_pageNumber_pagesFrom, pageNumber]
  constructor
  · rintro ⟨i, hi, heq⟩
    omega
  · rintro ⟨h1, h2⟩
    exact ⟨w / 4096 - hint / 4096, by omega, by omega⟩

/-- The pages of a range are those its bytes are in. -/
theorem mem_pages_of_mem (hsize : size ≠ 0) (hend : hint + size ≤ 2 ^ 47) (hw : w < 2 ^ 47) :
    pageNumber w ∈ (pagesFrom hint (pageCount hint size)).map pageNumber ↔
      ∃ u, hint ≤ u ∧ u < hint + size ∧ w / 4096 = u / 4096 := by
  have hcount : pageCount hint size = (hint % 4096 + size + 4095) / 4096 := rfl
  rw [mem_pages_iff (by omega) hw]
  constructor
  · rintro ⟨h1, h2⟩
    -- the first byte of the page, or of the range
    exact ⟨max hint (4096 * (w / 4096)), by omega, by omega, by omega⟩
  · rintro ⟨u, h1, h2, h3⟩
    omega

theorem isSome_walk_of_isSome_leaf {m : Mem} {r : ℕ} (h : (leaf m r w).isSome) :
    (walk (next m) r (tablePath w)).isSome := by
  rw [leaf] at h
  rcases hw : walk (next m) r (tablePath w) with _ | pt
  · rw [hw] at h
    exact h
  · rfl

namespace FreshRange

variable (h : FreshRange roots K s root hint size permissions)
include h

theorem rangeMapped (h7 : syscall7 s (4096 * root) hint permissions size flag = some (0, s₁)) :
    size ≠ 0 ∧ RangeMapped roots K root permissions flag hint size s s₁ := by
  rcases h.spaces.syscall7 h.root_mem h.hint_lt h.lower h.grants h.frames h7 with
    ⟨herr, -⟩ | ⟨-, hsize, hR⟩
  · exact absurd herr (by decide)
  · exact ⟨hsize, hR⟩

/-- **A range of more than 2 GiB is not cleared**: from there on, the addresses of `map_range` are
below the range. -/
theorem pageCount_le (hsize : size ≠ 0)
    (hR : RangeMapped roots K root permissions flag hint size s s₁) :
    pageCount hint size ≤ 2 ^ 19 := by
  have hend := hR.end_le
  have hcount : pageCount hint size = (hint % 4096 + size + 4095) / 4096 := rfl
  by_contra hlt
  -- the first page 2 GiB after that of the hint
  obtain ⟨u, hu⟩ : ∃ u, u = 4096 * (hint / 4096) + 2 ^ 31 := ⟨_, rfl⟩
  have hulow : u < 2 ^ 47 := by omega
  have hnone : leaf (userHalf roots s.phys.mem) root u = none := by
    have := h.unmapped u (by omega) (by omega)
    rw [h.spaces.mmuTranslate_eq h.root_mem hulow] at this
    exact Option.map_eq_none_iff.mp this
  have hsome := hR.cleared (u - hint) (by omega)
  rw [show hint + (u - hint) = u by omega, hR.leaf_other root h.root_mem u (Or.inr ?_), hnone]
    at hsome
  · cases hsome
  · rw [mapRangeAddresses_eq hsize hend]
    intro hmem
    obtain ⟨x, hx, heq⟩ := List.mem_map.mp hmem
    have hxlow := h.lower x (mapRangeAddresses_eq hsize hend ▸ hx)
    obtain ⟨i, -, rfl⟩ := List.mem_map.mp hx
    rw [pageNumber, pageNumber] at heq
    rw [intOffset] at heq hxlow
    obtain ⟨j, hj⟩ : ∃ j, j = i * 4096 % 2 ^ 32 := ⟨_, rfl⟩
    rw [← hj] at heq hxlow
    split_ifs at heq hxlow with hsign
    · omega
    · omega

/-- The addresses that are mapped. -/
theorem addresses_eq (hsize : size ≠ 0)
    (hR : RangeMapped roots K root permissions flag hint size s s₁) :
    mapRangeAddresses hint size = pagesFrom hint (pageCount hint size) := by
  rw [mapRangeAddresses_eq hsize hR.end_le, rangeAddresses_eq (h.pageCount_le hsize hR)]

/-- The entries after the range was mapped. -/
theorem leaf_isSome (hsize : size ≠ 0)
    (hR : RangeMapped roots K root permissions flag hint size s s₁) (hw : w < 2 ^ 47)
    (hpage : hint / 4096 ≤ w / 4096 ∧ w / 4096 < hint / 4096 + pageCount hint size) :
    (leaf (userHalf roots s₁.phys.mem) root w).isSome := by
  have hend := hR.end_le
  have hcount : pageCount hint size = (hint % 4096 + size + 4095) / 4096 := rfl
  obtain ⟨a, -, ha⟩ := hR.leaf_mapped w (by
    rw [h.addresses_eq hsize hR, mem_pages_iff (by omega) hw]
    exact hpage)
  rw [ha]
  rfl

/-- **`syscall8` on the range**, not starting at address `0`. -/
theorem syscall8 (hsize : size ≠ 0)
    (hR : RangeMapped roots K root permissions flag hint size s s₁) (h0 : hint ≠ 0) :
    ∃ s₂, Vm.syscall8 s₁ (4096 * root) hint size = some (0, s₂) ∧
      s₂.mappings = (pagesFrom hint (unmapCount size)).foldl clearMapping s₁.mappings ∧
      PagesUnmapped roots K root (pagesFrom hint (unmapCount size)) s₁.phys s₂.phys := by
  have hend := hR.end_le
  have hcount : pageCount hint size = (hint % 4096 + size + 4095) / 4096 := rfl
  have hun := unmapCount_eq hsize
  obtain ⟨s₂, hs₂, -, hmp, hP⟩ := hR.spaces.syscall8 size h.root_mem h0 (fun u hu => by
    obtain ⟨i, hi, rfl⟩ := List.mem_map.mp hu
    have hi := List.mem_range.mp hi
    rw [Nat.mod_eq_of_lt (by omega)]
    exact isSome_walk_of_isSome_leaf (h.leaf_isSome hsize hR (by omega) (by omega)))
  rw [hR.started_eq, h.started, if_pos rfl] at hmp
  exact ⟨s₂, hs₂, hmp, hP⟩

/-- The records of pages that are mapped and unmapped again. -/
theorem sameRecords (hsize : size ≠ 0)
    (hR : RangeMapped roots K root permissions flag hint size s s₁) (h0 : hint ≠ 0) :
    SameRecords s.mappings
      ((pagesFrom hint (pageCount hint size)).foldl clearMapping s₁.mappings) := by
  have hend := hR.end_le
  have hle := h.pageCount_le hsize hR
  have hlt := h.records.num_lt
  have hbytes := h.records_size
  have haddr := h.addresses_eq hsize hR
  have hlen : (pagesFrom hint (pageCount hint size)).length = pageCount hint size := by
    rw [pagesFrom, List.length_map, List.length_range]
  have hnodup : (pagesFrom hint (pageCount hint size)).Nodup :=
    List.Nodup.of_map _ (nodup_pageNumber_pagesFrom (by omega))
  have hzero : 0 ∉ pagesFrom hint (pageCount hint size) := by
    intro hmem
    obtain ⟨i, hi, heq⟩ := List.mem_map.mp hmem
    have hi := List.mem_range.mp hi
    omega
  have hmp := hR.mappings_eq
  rw [h.started, if_pos rfl, haddr] at hmp
  have hadded := (h.records.added flag).foldl_recordNext
    (l := pagesFrom hint (pageCount hint size)) h.records (by omega) hnodup
    (fun v _ => Finset.notMem_empty v) hzero
    fun v hv i hi htaken heq => h.unrecorded i hi htaken (by rw [haddr, heq]; exact hv)
  rw [← hmp, Finset.empty_union] at hadded
  have hnum := hadded.num_add
  rw [List.toFinset_card_of_nodup hnodup] at hnum
  exact (hadded.foldl_clearMapping (by omega) hnodup).sameRecords

/-- **When `syscall8` undoes `syscall7`.** -/
theorem undoes_iff (h7 : syscall7 s (4096 * root) hint permissions size flag = some (0, s₁)) :
    Undoes roots s s₁ root hint size ↔ hint ≠ 0 ∧ pageCount hint size = (size + 4095) / 4096 := by
  obtain ⟨hsize, hR⟩ := h.rangeMapped h7
  have hend := hR.end_le
  have hcount : pageCount hint size = (hint % 4096 + size + 4095) / 4096 := rfl
  constructor
  · rintro ⟨err, s₂, hs₂, hnone, -, -⟩
    have h0 : hint ≠ 0 := by
      rintro rfl
      rw [Vm.syscall8, if_pos rfl] at hs₂
      cases hs₂
    refine ⟨h0, ?_⟩
    by_contra hne
    -- the last page of the range is still mapped
    obtain ⟨s₂', hs₂', -, hP⟩ := h.syscall8 hsize hR h0
    obtain ⟨-, rfl⟩ := Prod.mk.inj (Option.some.inj (hs₂.symm.trans hs₂'))
    obtain ⟨w, hw⟩ : ∃ w, w = max hint (4096 * (hint / 4096 + pageCount hint size - 1)) := ⟨_, rfl⟩
    have hwlow : w < 2 ^ 47 := by omega
    have hsome := h.leaf_isSome hsize hR hwlow (by omega)
    have hunmap := hnone w (by omega) (by omega)
    rw [hP.spaces.mmuTranslate_eq h.root_mem hwlow, Option.map_eq_none_iff,
      hP.leaf_other root h.root_mem w (Or.inr ?_)] at hunmap
    · rw [hunmap] at hsome
      cases hsome
    · rw [unmapCount_eq hsize, mem_pages_iff (by omega) hwlow]
      omega
  · rintro ⟨h0, heq⟩
    obtain ⟨s₂, hs₂, hmp, hP⟩ := h.syscall8 hsize hR h0
    rw [unmapCount_eq hsize, ← heq] at hmp hP
    refine ⟨0, s₂, hs₂, fun w h1 h2 => ?_, fun r hr w hw hother => ?_, ?_⟩
    · rw [hP.spaces.mmuTranslate_eq h.root_mem (by omega), hP.leaf_unmapped w, Option.map_none]
      exact (mem_pages_of_mem hsize hend (by omega)).mpr ⟨w, h1, h2, rfl⟩
    · have hkept := hR.kernelKept.trans (hP.toChanges.kernelKept hR.spaces)
      refine h.spaces.mmuTranslate_congr hP.spaces hkept h.kernel hr hw fun hlow => ?_
      have hout : r ≠ root ∨
          pageNumber w ∉ (pagesFrom hint (pageCount hint size)).map pageNumber := by
        refine hother.imp_right fun hother hmem => ?_
        obtain ⟨u, h1, h2, h3⟩ := (mem_pages_of_mem hsize hend hlow).mp hmem
        exact hother u h1 h2 h3
      rw [hP.leaf_other r hr w hout, hR.leaf_other r hr w (by rwa [h.addresses_eq hsize hR])]
    · rw [hmp]
      exact h.sameRecords hsize hR h0

end FreshRange

/-- **`syscall8` without a size** changes no translation exactly if the page of its address is not
mapped, given that its page table is there. -/
theorem syscall8_zero_iff (h : Spaces roots K s.phys) (hK : kernelTables roots s.phys.mem ⊆ K)
    (hroot : root ∈ roots) (hhint : hint < 2 ^ 47)
    (hpt : (walk (next (userHalf roots s.phys.mem)) root (tablePath hint)).isSome) :
    (∃ err s₂, syscall8 s (4096 * root) hint 0 = some (err, s₂) ∧ ∀ r ∈ roots, ∀ w < 2 ^ 64,
      mmuTranslate s₂.phys.mem (4096 * r) w = mmuTranslate s.phys.mem (4096 * r) w) ↔
    hint ≠ 0 ∧ mmuTranslate s.phys.mem (4096 * root) hint = none := by
  have hpages : pagesFrom hint (unmapCount 0) = [hint] := pagesFrom_one (by omega)
  have hspec : hint ≠ 0 → ∃ s₂, syscall8 s (4096 * root) hint 0 = some (0, s₂) ∧
      PagesUnmapped roots K root [hint] s.phys s₂.phys := by
    intro h0
    obtain ⟨s₂, hs₂, -, -, hP⟩ := h.syscall8 0 hroot h0 (by
      rw [hpages]
      exact fun u hu => List.mem_singleton.mp hu ▸ hpt)
    rw [hpages] at hP
    exact ⟨s₂, hs₂, hP⟩
  constructor
  · rintro ⟨err, s₂, hs₂, hsame⟩
    have h0 : hint ≠ 0 := by
      rintro rfl
      rw [syscall8, if_pos rfl] at hs₂
      cases hs₂
    obtain ⟨s₂', hs₂', hP⟩ := hspec h0
    obtain ⟨-, rfl⟩ := Prod.mk.inj (Option.some.inj (hs₂.symm.trans hs₂'))
    refine ⟨h0, ?_⟩
    rw [← hsame root hroot hint (by omega), hP.spaces.mmuTranslate_eq hroot hhint,
      hP.leaf_unmapped hint (List.mem_singleton.mpr rfl), Option.map_none]
  · rintro ⟨h0, hnone⟩
    obtain ⟨s₂, hs₂, hP⟩ := hspec h0
    refine ⟨0, s₂, hs₂, fun r hr w hw => ?_⟩
    refine h.mmuTranslate_congr hP.spaces (hP.toChanges.kernelKept h) hK hr hw fun hlow => ?_
    by_cases hself : r = root ∧ pageNumber w = pageNumber hint
    · -- the page was not mapped before
      obtain ⟨rfl, hpage⟩ := hself
      rw [hP.leaf_unmapped w (List.mem_singleton.mpr hpage), leaf_of_pageNumber_eq hpage]
      rw [h.mmuTranslate_eq hroot hhint, Option.map_eq_none_iff] at hnone
      exact hnone.symm
    · refine hP.leaf_other r hr w ?_
      by_contra hcon
      rw [not_or, not_not, not_not] at hcon
      exact hself ⟨hcon.1, List.mem_singleton.mp hcon.2⟩

/-! ### Two ranges -/

/-- A cleared memory with a root at address `0`, and a thread without records. -/
def clearedState : State :=
  ⟨⟨initMemmaps smallMap, fun _ => 0⟩, true, ⟨fun _ => ⟨0, 0, false⟩, 0, 8⟩⟩

theorem spaces_clearedState : Spaces {0} ∅ clearedState.phys :=
  spaces_of_empty wellFormed_smallMap (by decide) (by decide) (by decide)
    (fun _ _ => not_present_cleared) fun k hk => absurd hk (Set.notMem_empty k)

/-- Any small range of the cleared memory is one of pages that are not mapped. -/
theorem freshRange_clearedState (hlow : ∀ v ∈ mapRangeAddresses hint size, v < 2 ^ 47)
    (hlen : 4 * (mapRangeAddresses hint size).length ≤ 16) (hhint : hint < 2 ^ 47)
    (hP : Grants permissions) : FreshRange {0} ∅ clearedState 0 hint size permissions where
  spaces := spaces_clearedState
  kernel := kernelTables_cleared.subset
  root_mem := rfl
  started := rfl
  grants := hP
  hint_lt := hhint
  lower := hlow
  frames := hlen.trans (by decide)
  unmapped := fun _ _ _ => mmuTranslate_cleared
  records := ⟨fun _ _ _ => rfl, by decide, by decide⟩
  records_size := by decide
  unrecorded := fun _ _ htaken => nomatch htaken

end Vm

end WillowOS
