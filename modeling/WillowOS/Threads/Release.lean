import WillowOS.Threads.Basic
import WillowOS.Vm.Access
import WillowOS.Vm.Owned

/-!
# What the calls do to one address space

All that the kernel does to tables while threads come and go is done to the pages of one root,
and keeps the other address spaces (`WillowOS.Vm.Kept`): loading a program, the two system calls,
unloading a program and unmapping the pages that are recorded. Of the records it is shown what
they name then.
-/

namespace WillowOS

namespace Threads

open Paging Vm Loader

open Frames hiding State

variable {roots K : Set ℕ} {P : ℕ → Prop} {s s' : State} {root v w e : ℕ} {file : Mem}

/-! ### A new table -/

/-- The new table has an empty lower half, and nothing else was written. -/
theorem createNewUserspacePageTable_spec {p : Phys} {f : ℕ} {fs : List ℕ} (pml4Address : ℕ)
    (hcons : freeFrames p.regions = 4096 * f :: fs) :
    (createNewUserspacePageTable pml4Address p).1 = 4096 * f ∧
      freeFrames (createNewUserspacePageTable pml4Address p).2.regions = fs ∧
      layout (createNewUserspacePageTable pml4Address p).2.regions = layout p.regions ∧
      (∀ x, x / 4096 ≠ f → (createNewUserspacePageTable pml4Address p).2.mem x = p.mem x) ∧
      ∀ i : Fin 512, i.val < 256 →
        ¬Present (entry (createNewUserspacePageTable pml4Address p).2.mem f i) := by
  obtain ⟨rs', halloc, rfl, hlay⟩ := allocFrame_of_cons hcons
  simp only [createNewUserspacePageTable, halloc]
  refine ⟨trivial, trivial, hlay, fun x hx => ?_, fun i hi => ?_⟩
  · rw [if_neg (by omega), Mem.memset_of_notMem (by omega), Mem.memset_of_notMem (by omega)]
  · have hzero : ∀ m : Mem, (∀ x, 4096 * f ≤ x → x < 4096 * f + 2048 → m x = 0) →
        entry m f i = 0 := by
      intro m hm
      have hread : m.read64 (4096 * f + 8 * i) = Mem.read64 (fun _ => 0) (4096 * f + 8 * i) :=
        Mem.readLE_congr fun x h1 h2 => hm x (by omega) (by omega)
      exact hread.trans Mem.read64_zero
    have hentry := hzero (createNewUserspacePageTable pml4Address p).2.mem fun x h1 h2 => by
      simp only [createNewUserspacePageTable, halloc]
      rw [if_neg (by omega)]
      exact Mem.memset_of_mem h1 (by omega)
    simp only [createNewUserspacePageTable, halloc] at hentry
    intro hpres
    exact absurd (hentry ▸ hpres) (by decide)

/-- **The new table is a root**, and the address spaces that were there stay. -/
theorem createNewUserspacePageTable_root {p : Phys} (pml4Address : ℕ) (h : Owned roots K p)
    (hfree : 1 ≤ (freeFrames p.regions).length) :
    ∃ f, (createNewUserspacePageTable pml4Address p).1 = 4096 * f ∧ f ∉ roots ∧
      4096 * f ∈ usableFrames (layout p.regions) ∧
      Owned (insert f roots) K (createNewUserspacePageTable pml4Address p).2 ∧
      (freeFrames (createNewUserspacePageTable pml4Address p).2.regions).length + 1 =
        (freeFrames p.regions).length ∧
      layout (createNewUserspacePageTable pml4Address p).2.regions = layout p.regions ∧
      ∀ r ∈ roots, ∀ w, leaf (userHalf (insert f roots)
        (createNewUserspacePageTable pml4Address p).2.mem) r w =
          leaf (userHalf roots p.mem) r w := by
  rcases hcons : freeFrames p.regions with _ | ⟨a, fs⟩
  · rw [hcons] at hfree
    cases hfree
  have ha : a ∈ freeFrames p.regions := hcons ▸ List.mem_cons_self
  obtain ⟨f, rfl, -⟩ := h.free_le ha
  obtain ⟨hval, hfs, hlay, hmem, hempty⟩ := createNewUserspacePageTable_spec pml4Address hcons
  obtain ⟨hf, howned, hleaf⟩ := h.newRoot (hfs ▸ hcons) hlay hmem hempty
  exact ⟨f, hval, hf, usableFrames_of_mem_freeFrames ha, howned,
    by rw [hfs, List.length_cons], hlay, hleaf⟩

/-! ### Loading and mapping -/

/-- **`load_elf`**, with the records of the running thread, which get the pages of the program once
scheduling has started. -/
theorem loadElf_kept {entry : ℕ} (h : Owned roots K s.phys) (hroot : root ∈ roots)
    (hlower : ∀ phdr ∈ ptLoad file, phdr.pVaddr < 2 ^ 47 ∧ phdr.pVaddr + phdr.pMemsz ≤ 2 ^ 47 ∧
      ∀ v ∈ loadAddresses phdr, v < 2 ^ 47)
    (hfree : 4 * ((ptLoad file).flatMap loadAddresses).length ≤
      (freeFrames s.phys.regions).length)
    (hP : Recorded s.mappings P)
    (hnew : s.schedulingStarted = true → ∀ v ∈ (ptLoad file).flatMap loadAddresses, P v)
    (hs : loadElf file (4096 * root) s = some (entry, s')) :
    Kept roots K root s.phys s'.phys ∧ Recorded s'.mappings P := by
  have hinv := loadElf_induct
    (I := fun q => Kept roots K root s.phys q.phys ∧ q.schedulingStarted = s.schedulingStarted ∧
      Recorded q.mappings P) hroot hlower hfree (fun q hq => hq.1.owned.toSpaces)
    (fun q q₁ m phdr hphdr hI hfree hall hstores => by
      obtain ⟨hq, hst, hrec⟩ := hI
      obtain ⟨hst₁, hmp₁⟩ := mappings_mapAll hall
      have hq₁ := hq.owned.mapAll hroot (hlower phdr hphdr).2.2 (by decide) hfree hall
      refine ⟨(hq.trans hq₁).trans (hq₁.owned.stores hstores hroot), hst₁.trans hst, ?_⟩
      show Recorded q₁.mappings P
      rw [hmp₁, hst]
      split
      next hstarted =>
        exact hrec.foldl_recordNext fun v hv =>
          hnew hstarted v (List.mem_flatMap.mpr ⟨phdr, hphdr, hv⟩)
      next => exact hrec)
    ⟨Kept.refl h, rfl, hP⟩ hs
  exact ⟨hinv.1, hinv.2.2⟩

/-- A page of the lower half that is mapped. -/
def IsMapped (roots : Set ℕ) (m : Mem) (root v : ℕ) : Prop :=
  v < 2 ^ 47 ∧ (leaf (userHalf roots m) root v).isSome

/-- A page whose page table is there, mapped or not. -/
def HasPageTable (roots : Set ℕ) (m : Mem) (root v : ℕ) : Prop :=
  (walk (next (userHalf roots m)) root (tablePath v)).isSome

/-- Page tables stay. -/
theorem HasPageTable.kept {p p' : Phys} (hv : HasPageTable roots p.mem root v)
    (h : Kept roots K root p p') : HasPageTable roots p'.mem root v := by
  obtain ⟨pt, hpt⟩ := Option.isSome_iff_exists.mp hv
  exact Option.isSome_iff_exists.mpr ⟨pt, h.walk_of _ pt le_rfl hpt⟩

/-- **What `sys_vm_map` does**: nothing on an odd address or without a size; otherwise the pages are
mapped, and then written. -/
theorem sysVmMap_cases {hint size err : ℕ} {prot flags : BitVec 32} (h : Spaces roots K s.phys)
    (hroot : root ∈ roots) (hhint : hint < 2 ^ 47)
    (hvs : ∀ v ∈ mapRangeAddresses hint size, v < 2 ^ 47)
    (hfree : 4 * (mapRangeAddresses hint size).length ≤ (freeFrames s.phys.regions).length)
    (hs : sysVmMap s (4096 * root) hint size prot flags = some (err, s')) :
    ¬(hint % 2 = 0 ∧ size ≠ 0) ∧ s' = s ∨ (hint % 2 = 0 ∧ size ≠ 0) ∧ ∃ flag s₁ m,
      (mapRangeAddresses hint size).foldlM (mapNext (4096 * root) (protPermissions prot) flag) s =
        some s₁ ∧
      Stores roots K s₁.phys m ∧ s' = { s₁ with phys := { s₁.phys with mem := m } } ∧
      RangeMapped roots K root (protPermissions prot) flag hint size s s' := by
  obtain ⟨err', flag, hcall, -⟩ := sysVmMap_eq_some hs
  have hP := (protPermissions_cases prot).1
  by_cases hsize : size = 0
  · subst hsize
    exact Or.inl ⟨fun hmaps => hmaps.2 rfl, syscall7_zero hcall⟩
  rcases syscall7_cases hcall with ⟨hodd, -, rfl⟩ | ⟨s₁, m, hmap, hm, rfl⟩
  · exact Or.inl ⟨fun hmaps => hodd hmaps.1, rfl⟩
  rw [mapRange, if_neg hsize] at hmap
  obtain ⟨s₂, hall, heq⟩ := Option.map_eq_some_iff.mp hmap
  obtain ⟨rfl, rfl⟩ := Prod.mk.inj heq
  have hstores := ((h.mapAll hroot hvs hP hfree hall).spaces.stores_storeBytes hroot hhint hm).1
  rcases h.syscall7 hroot hhint hvs hP hfree hcall with ⟨herr, -⟩ | ⟨-, -, hR⟩
  · cases herr
  · have heven : hint % 2 = 0 := by
      by_contra hodd
      rw [syscall7, if_pos hodd] at hcall
      cases hcall
    exact Or.inr ⟨⟨heven, hsize⟩, flag, s₂, m, hall, hstores, rfl, hR⟩

/-- **`sys_vm_map`**: the pages recorded are mapped. -/
theorem sysVmMap_kept {hint size err : ℕ} {prot flags : BitVec 32} (h : Owned roots K s.phys)
    (hroot : root ∈ roots) (hhint : hint < 2 ^ 47)
    (hvs : ∀ v ∈ mapRangeAddresses hint size, v < 2 ^ 47)
    (hfree : 4 * (mapRangeAddresses hint size).length ≤ (freeFrames s.phys.regions).length)
    (hrec : Recorded s.mappings (IsMapped roots s.phys.mem root))
    (hs : sysVmMap s (4096 * root) hint size prot flags = some (err, s')) :
    Kept roots K root s.phys s'.phys ∧
      Recorded s'.mappings (IsMapped roots s'.phys.mem root) := by
  rcases sysVmMap_cases h.toSpaces hroot hhint hvs hfree hs with
    ⟨-, rfl⟩ | ⟨-, flag, s₁, m, hall, hstores, rfl, hR⟩
  · exact ⟨Kept.refl h, hrec⟩
  have hkept := h.mapAll hroot hvs (protPermissions_cases prot).1 hfree hall
  refine ⟨hkept.trans (hkept.owned.stores hstores hroot), ?_⟩
  -- a page that is mapped stays so, whether it is mapped once more or not
  have hstays : ∀ w, (leaf (userHalf roots s.phys.mem) root w).isSome ∨
      pageNumber w ∈ (mapRangeAddresses hint size).map pageNumber →
      (leaf (userHalf roots m) root w).isSome := by
    intro w hw
    by_cases hin : pageNumber w ∈ (mapRangeAddresses hint size).map pageNumber
    · obtain ⟨a, -, ha⟩ := hR.leaf_mapped w hin
      exact Option.isSome_iff_exists.mpr ⟨_, ha⟩
    · rw [← hR.leaf_other root hroot w (Or.inr hin)] at hw
      exact hw.resolve_right hin
  rw [hR.mappings_eq]
  have hrec' : Recorded s.mappings (IsMapped roots m root) :=
    hrec.mono fun v hv => ⟨hv.1, hstays v (Or.inl hv.2)⟩
  split
  next =>
    exact hrec'.foldl_recordNext fun v hv =>
      ⟨hvs v hv, hstays v (Or.inr (List.mem_map_of_mem hv))⟩
  next => exact hrec'

/-! ### Unmapping -/

/-- Many pages unmapped. -/
theorem kept_of_pagesUnmapped {vs : List ℕ} {p p' : Phys} (h : Owned roots K p)
    (hroot : root ∈ roots) (hP : PagesUnmapped roots K root vs p p') :
    Kept roots K root p p' := by
  have hold : ∀ r ∈ roots, ∀ w e, leaf (userHalf roots p'.mem) r w = some e →
      leaf (userHalf roots p.mem) r w = some e := by
    intro r hr w e he
    by_cases hin : r = root ∧ pageNumber w ∈ vs.map pageNumber
    · rw [hin.1, hP.leaf_unmapped w hin.2] at he
      cases he
    · rw [← hP.leaf_other r hr w (not_and_or.mp hin)]
      exact he
  refine ⟨⟨hP.spaces, fun r hr r' hr' w w' e e' he he' heq hu => ?_⟩, hP.layout_eq,
    fun r hr hne w => hP.leaf_other r hr w (Or.inl hne),
    fun p t hp hw => hP.walk_of root hroot p t hp hw⟩
  rw [hP.layout_eq] at hu
  exact h.own r hr r' hr' w w' e e' (hold r hr w e he) (hold r' hr' w' e' he') heq hu

/-- **`syscall8`**, when the pages are recorded once: no page that is unmapped is recorded then. -/
theorem syscall8_kept {pointer size err : ℕ} (h : Owned roots K s.phys) (hroot : root ∈ roots)
    (hend : pointer / 4096 + unmapCount size ≤ 2 ^ 35)
    (hpt : ∀ v ∈ pagesFrom pointer (unmapCount size),
      (walkEntry s.phys.mem (4096 * root) v).1 = 0 ∧ RecordedOnce s.mappings v)
    (hstarted : s.schedulingStarted = true)
    (hrec : Recorded s.mappings (IsMapped roots s.phys.mem root))
    (hs : syscall8 s (4096 * root) pointer size = some (err, s')) :
    Kept roots K root s.phys s'.phys ∧
      Recorded s'.mappings (IsMapped roots s'.phys.mem root) := by
  have h0 : pointer ≠ 0 := by
    rintro rfl
    rw [syscall8, if_pos rfl] at hs
    cases hs
  have hmem : ∀ v ∈ pagesFrom pointer (unmapCount size), v < 2 ^ 47 ∧ v ≠ 0 := by
    intro v hv
    obtain ⟨i, hi, rfl⟩ := List.mem_map.mp hv
    have hi := List.mem_range.mp hi
    omega
  obtain ⟨s₂, hs₂, -, hmp, hP⟩ := h.syscall8 size hroot h0 fun u hu =>
    h.isSome_walk_of_walkEntry hroot (hmem u hu).1 (hpt u hu).1
  obtain ⟨-, rfl⟩ := Prod.mk.inj (Option.some.inj (hs.symm.trans hs₂))
  refine ⟨kept_of_pagesUnmapped h hroot hP, ?_⟩
  rw [hmp, hstarted, if_pos rfl]
  refine (hrec.foldl_clearMapping (fun v hv => (hpt v hv).2) fun hz =>
    (hmem 0 hz).2 rfl).mono fun u hu => ⟨hu.1.1, ?_⟩
  rw [hP.leaf_other root hroot u (Or.inr hu.2)]
  exact hu.1.2

/-! ### Releasing -/

/-- The frame `unload_elf` frees is that of the page. -/
theorem maskFlags_virtToPhys {p : Phys} (h : Spaces roots K p) (hroot : root ∈ roots)
    (he : leaf (userHalf roots p.mem) root v = some e)
    (hu : maskFlags e ∈ usableFrames (layout p.regions)) :
    maskFlags e = 4096 * frameNumber e ∧
      maskFlags (virtToPhys p.mem v (4096 * root)) = 4096 * frameNumber e := by
  have hle := h.usable_le _ hu
  have hmask : maskFlags e = 4096 * frameNumber e := by
    rw [maskFlags] at hle ⊢
    rw [frameNumber]
    omega
  refine ⟨hmask, ?_⟩
  rw [h.virtToPhys_eq hroot he, hmask, maskFlags]
  omega

/-- **A page of a program is freed and unmapped**, when it is mapped onto a usable frame. -/
theorem unloadPage_kept (h : Owned roots K s.phys) (hroot : root ∈ roots)
    (he : leaf (userHalf roots s.phys.mem) root v = some e)
    (hu : maskFlags e ∈ usableFrames (layout s.phys.regions))
    (hs : unloadPage (4096 * root) s v = some s') :
    Kept roots K root s.phys s'.phys ∧
      s'.mappings = (if s.schedulingStarted then clearMapping s.mappings v else s.mappings) ∧
      ∀ w, pageNumber w ≠ pageNumber v →
        leaf (userHalf roots s'.phys.mem) root w = leaf (userHalf roots s.phys.mem) root w := by
  obtain ⟨hmask, hphys⟩ := maskFlags_virtToPhys h.toSpaces hroot he hu
  obtain ⟨p₁, hp₁, hs⟩ := Option.bind_eq_some_iff.mp hs
  rw [hphys] at hp₁
  rw [hmask] at hu
  obtain ⟨halign, rs', hloop, rfl⟩ := freeFrame_eq_some.mp hp₁
  -- the page is unmapped in the memory, and the frame is freed in the regions
  obtain ⟨s₂, hs₂, -, hmp₂, hset⟩ := h.unmapNext hroot
    (isSome_walk_of_isSome_leaf (Option.isSome_iff_exists.mpr ⟨e, he⟩))
  obtain ⟨-, rfl⟩ := unmapNext_eq_some.mp hs
  obtain ⟨-, rfl⟩ := unmapNext_eq_some.mp hs₂
  have hcleared := h.leafCleared hroot hset
  have hfree₂ : freeFrame (unmapPage s (4096 * root) v).phys (4096 * frameNumber e) =
      some (unmapPage { s with phys := { s.phys with regions := rs' } } (4096 * root) v).phys :=
    freeFrame_eq_some.mpr ⟨halign, rs', hloop, rfl⟩
  have hpage : ∀ r ∈ roots, ∀ w e',
      leaf (userHalf roots (unmapPage s (4096 * root) v).phys.mem) r w = some e' →
      frameNumber e' ≠ frameNumber e := by
    -- no other page is on the frame
    intro r hr w e' he' heq
    rw [hset.leaf_eq r hr] at he'
    split_ifs at he' with hself
    exact hself (h.own r hr root hroot w v e' e he' he heq (heq ▸ hu))
  obtain ⟨howned, hlay, hmem⟩ := hcleared.owned.freeFrame hu
    (hset.toChanges.spare (h.leaf_spare root hroot v e he)) hpage hfree₂
  refine ⟨⟨howned, hlay, fun r hr hne w => ?_, fun p t hp hw => ?_⟩, hmp₂, fun w hw => ?_⟩
  · rw [hmem]
    exact hcleared.leaf_other r hr hne w
  · rw [hmem]
    exact hcleared.walk_of p t hp hw
  · rw [hmem, hset.leaf_eq root hroot w, if_neg fun hself => hw hself.2]

/-- The loops of `unload_elf`, over pages that are distinct and mapped onto usable frames. -/
theorem unloadAll_kept {vs : List ℕ} (h : Owned roots K s.phys) (hroot : root ∈ roots)
    (hnodup : (vs.map pageNumber).Nodup)
    (hvs : ∀ v ∈ vs, ∃ e, leaf (userHalf roots s.phys.mem) root v = some e ∧
      maskFlags e ∈ usableFrames (layout s.phys.regions))
    (hrec : Recorded s.mappings P) (hs : vs.foldlM (unloadPage (4096 * root)) s = some s') :
    Kept roots K root s.phys s'.phys ∧ Recorded s'.mappings P := by
  induction vs generalizing s with
  | nil =>
    obtain rfl : s = s' := Option.some.inj hs
    exact ⟨Kept.refl h, hrec⟩
  | cons v vs ih =>
    obtain ⟨s₁, hs₁, hs⟩ := run_cons.mp hs
    rw [List.map_cons] at hnodup
    obtain ⟨hv, hnodup⟩ := List.nodup_cons.mp hnodup
    obtain ⟨e, he, hu⟩ := hvs v List.mem_cons_self
    obtain ⟨hkept, hmp, hother⟩ := unloadPage_kept h hroot he hu hs₁
    have hrec₁ : Recorded s₁.mappings P := by
      rw [hmp]
      split
      next => exact hrec.clearMapping
      next => exact hrec
    -- the pages to come are still mapped
    have hvs₁ : ∀ u ∈ vs, ∃ e, leaf (userHalf roots s₁.phys.mem) root u = some e ∧
        maskFlags e ∈ usableFrames (layout s₁.phys.regions) := by
      intro u hu
      obtain ⟨e', he', hu'⟩ := hvs u (List.mem_cons_of_mem _ hu)
      have hne : pageNumber u ≠ pageNumber v := fun heq => hv (heq ▸ List.mem_map_of_mem hu)
      exact ⟨e', (hother u hne).trans he', hkept.layout_eq ▸ hu'⟩
    obtain ⟨hrest, hrec'⟩ := ih hkept.owned hnodup hvs₁ hrec₁ hs
    exact ⟨hkept.trans hrest, hrec'⟩

/-- A turn of the loop over the records: they only become fewer, and the tables stay. -/
theorem unmapEntry_kept {p : Phys} {i : ℕ} (hkept : Kept roots K root p s.phys)
    (hroot : root ∈ roots) (hi : i < s.mappings.maxMappings)
    (hrec : Recorded s.mappings (HasPageTable roots p.mem root))
    (hs : System.unmapEntry (4096 * root) s i = some s') :
    Kept roots K root p s'.phys ∧ s'.mappings.maxMappings = s.mappings.maxMappings ∧
      Recorded s'.mappings (HasPageTable roots p.mem root) := by
  rw [System.unmapEntry] at hs
  split_ifs at hs with hused
  · obtain ⟨t, ht⟩ := Option.isSome_iff_exists.mp (hrec i hi hused)
    obtain ⟨s₁, hs₁, -, hmp, hset⟩ := hkept.owned.unmapNext hroot
      (Option.isSome_iff_exists.mpr ⟨t, hkept.walk_of _ t le_rfl ht⟩)
    obtain rfl := Option.some.inj (hs.symm.trans hs₁)
    refine ⟨hkept.trans (hkept.owned.leafCleared hroot hset), ?_⟩
    rw [hmp]
    split
    next => exact ⟨maxMappings_clearMapping, hrec.clearMapping⟩
    next => exact ⟨rfl, hrec⟩
  · obtain rfl := Option.some.inj hs
    exact ⟨hkept, rfl, hrec⟩

/-- **The loop over the records** unmaps pages of the table, as long as all pages that are recorded
have a page table there. -/
theorem unmapRecorded_kept (h : Owned roots K s.phys) (hroot : root ∈ roots)
    (hrec : Recorded s.mappings (HasPageTable roots s.phys.mem root))
    (hs : System.unmapRecorded (4096 * root) s = some s') : Kept roots K root s.phys s'.phys := by
  have hinv := run_inv_of_meets
    (I := fun q : State => Kept roots K root s.phys q.phys ∧
      q.mappings.maxMappings = s.mappings.maxMappings ∧
        Recorded q.mappings (HasPageTable roots s.phys.mem root))
    (G := fun _ i => i < s.mappings.maxMappings)
    (fun q i q' hq hi hs => by
      obtain ⟨hkept, hmax, hrec⟩ := hq
      obtain ⟨hkept', hmax', hrec'⟩ := unmapEntry_kept hkept hroot (hmax ▸ hi) hrec hs
      exact ⟨hkept', hmax'.trans hmax, hrec'⟩)
    ⟨Kept.refl h, rfl, hrec⟩ (meets_of_forall fun i hi _ => List.mem_range.mp hi) hs
  exact hinv.1

/-- What the loop over the records does not touch. -/
theorem unmapRecorded_regions {cr3 : ℕ} (hs : System.unmapRecorded cr3 s = some s') :
    s'.phys.regions = s.phys.regions := by
  refine run_inv (I := fun q : State => q.phys.regions = s.phys.regions) (fun q i q' hq hs => ?_)
    rfl hs
  rw [System.unmapEntry] at hs
  split_ifs at hs
  · obtain ⟨-, rfl⟩ := unmapNext_eq_some.mp hs
    exact hq
  · obtain rfl := Option.some.inj hs
    exact hq

/-- A page `unload_elf` finds on a usable frame. -/
theorem leaf_of_mmuTranslate {p : Phys} (h : Spaces roots K p) (hroot : root ∈ roots)
    (hlow : v < 2 ^ 47) (hmmu : mmuTranslate p.mem (4096 * root) v ≠ none)
    (husable : maskFlags (virtToPhys p.mem v (4096 * root)) ∈ usableFrames (layout p.regions)) :
    ∃ e, leaf (userHalf roots p.mem) root v = some e ∧
      maskFlags e ∈ usableFrames (layout p.regions) := by
  rw [h.mmuTranslate_eq hroot hlow, ← Option.isSome_iff_ne_none, Option.isSome_map] at hmmu
  obtain ⟨e, he⟩ := Option.isSome_iff_exists.mp hmmu
  rw [h.virtToPhys_eq hroot he] at husable
  refine ⟨e, he, ?_⟩
  rwa [show maskFlags (maskFlags e + v % 4096) = maskFlags e by
    rw [maskFlags, maskFlags]; omega] at husable

/-- **`unload_elf`**, when its pages are distinct and mapped onto usable frames. It does nothing
when there is no page table. -/
theorem unloadElf_kept (h : Owned roots K s.phys) (hroot : root ∈ roots)
    (hnodup : (((ptLoad file).flatMap unloadAddresses).map pageNumber).Nodup)
    (hvs : ∀ v ∈ (ptLoad file).flatMap unloadAddresses, v < 2 ^ 47 ∧
      mmuTranslate s.phys.mem (4096 * root) v ≠ none ∧
      maskFlags (virtToPhys s.phys.mem v (4096 * root)) ∈ usableFrames (layout s.phys.regions))
    (hrec : Recorded s.mappings P) (hs : unloadElf file (4096 * root) s = some s') :
    Kept roots K root s.phys s'.phys ∧ Recorded s'.mappings P ∧
      ((∀ v, ¬HasPageTable roots s.phys.mem root v) → s' = s) := by
  have hleaf : ∀ v ∈ (ptLoad file).flatMap unloadAddresses, ∃ e,
      leaf (userHalf roots s.phys.mem) root v = some e ∧
        maskFlags e ∈ usableFrames (layout s.phys.regions) := by
    intro v hv
    obtain ⟨hlow, hmmu, husable⟩ := hvs v hv
    exact leaf_of_mmuTranslate h.toSpaces hroot hlow hmmu husable
  obtain ⟨hkept, hrec'⟩ := unloadAll_kept h hroot hnodup hleaf hrec hs
  refine ⟨hkept, hrec', fun hnone => ?_⟩
  have hnil : (ptLoad file).flatMap unloadAddresses = [] := by
    refine List.eq_nil_iff_forall_not_mem.mpr fun v hv => ?_
    obtain ⟨e, he, -⟩ := hleaf v hv
    exact hnone v (isSome_walk_of_isSome_leaf (Option.isSome_iff_exists.mpr ⟨e, he⟩))
  rw [unloadElf, hnil] at hs
  exact (Option.some.inj hs).symm

/-- **What a thread has is given back**: the pages of its program, when they are distinct and mapped
onto usable frames, those that are recorded, when they have page tables, and at last the root. No
frame but the root is freed when there is no page table. -/
theorem releaseSpace_kept {space : ThreadSpace} {p' : Phys} (h : Owned roots K s.phys)
    (hroot : root ∈ roots) (hcr3 : space.cr3 = 4096 * root)
    (hfile : space.elfEntry ≠ 0 → ∀ file ∈ space.elfFile,
      (((ptLoad file).flatMap unloadAddresses).map pageNumber).Nodup ∧
        ∀ v ∈ (ptLoad file).flatMap unloadAddresses, v < 2 ^ 47 ∧
          mmuTranslate s.phys.mem space.cr3 v ≠ none ∧
          maskFlags (virtToPhys s.phys.mem v space.cr3) ∈ usableFrames (layout s.phys.regions))
    (hrec : Recorded s.mappings (HasPageTable roots s.phys.mem root))
    (hs : System.releaseSpace space s = some p') :
    ∃ q, Kept roots K root s.phys q ∧ freeFrame q (4096 * root) = some p' ∧
      ((∀ v, ¬HasPageTable roots s.phys.mem root v) → q.regions = s.phys.regions) := by
  obtain ⟨q₁, hq₁, hs⟩ := Option.bind_eq_some_iff.mp hs
  obtain ⟨q₂, hq₂, hs⟩ := Option.bind_eq_some_iff.mp hs
  rw [hcr3] at hfile hq₁ hq₂ hs
  obtain ⟨hkept₁, hrec₁, hregions₁⟩ : Kept roots K root s.phys q₁.phys ∧
      Recorded q₁.mappings (HasPageTable roots s.phys.mem root) ∧
      ((∀ v, ¬HasPageTable roots s.phys.mem root v) → q₁ = s) := by
    rcases helf : space.elfFile with _ | file
    · rw [helf] at hq₁
      obtain rfl := Option.some.inj hq₁
      exact ⟨Kept.refl h, hrec, fun _ => rfl⟩
    · rw [helf] at hq₁
      by_cases hentry : space.elfEntry ≠ 0
      · obtain ⟨hnodup, hvs⟩ := hfile hentry file helf
        exact unloadElf_kept h hroot hnodup hvs hrec ((if_pos hentry).symm.trans hq₁)
      · obtain rfl := Option.some.inj ((if_neg hentry).symm.trans hq₁)
        exact ⟨Kept.refl h, hrec, fun _ => rfl⟩
  -- the pages that are recorded have page tables, which stay
  have hkept₂ := unmapRecorded_kept hkept₁.owned hroot (hrec₁.mono fun _ hv => hv.kept hkept₁) hq₂
  refine ⟨q₂.phys, hkept₁.trans hkept₂, hs, fun hnone => ?_⟩
  rw [unmapRecorded_regions hq₂, hregions₁ hnone]

end Threads

end WillowOS
