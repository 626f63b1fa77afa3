import WillowOS.Frames.Free
import WillowOS.Threads.Records

/-!
# The frames of a thread

A thread is made by `hot_exec_elf`, maps and unmaps pages while it runs, and ends in
`scheduler_return`. Of what was allocated for it, that function gives back the frames of the pages
of its program, as `unload_elf` counts them, and the root of its table. The tables below the root
are given back by nothing, and neither are the frames of pages that were mapped by `sys_vm_map`:
`unmap_page` clears an entry, and that is all.

So the frames that are allocated are the same before and after if and only if the thread has never
mapped a page, and was not the last one, for which an idle thread with a root of its own takes its
place: **`WillowOS.Threads.conserves_iff`**. This is for lifetimes in which there are frames for all
that is mapped, all of it in the lower half, and in which nothing is looked up in tables that are
not there (`WillowOS.Threads.Event.Regular`).

The table of the thread is the only one that is looked at. It is empty at first, and every table
that is linked into it takes a frame that was free (`WillowOS.Threads.Grows`).
-/

namespace WillowOS

namespace Threads

open Paging Vm Loader Scheduler

open Frames hiding State

variable {a b : Prop} {p p' p'' : Phys} {s s' : State} {root : ℕ} {file : Mem}

/-! ### What is linked into one table -/

/-- A page table has been linked into the table of a root. -/
def Linked (root : ℕ) (p : Phys) : Prop :=
  ∃ v, HasPageTable {root} p.mem root v

/-- **What a thread does to its table** before its end. Either pages are mapped, and there is a page
table then, or no frame is allocated. -/
structure Grows (root : ℕ) (maps : Prop) (p p' : Phys) : Prop extends
    Kept {root} ∅ root p p' where
  reserved : Reserved {root} p' ⊆ Reserved {root} p
  linked : maps → Linked root p'
  regions_eq : ¬maps → p'.regions = p.regions

theorem Kept.linked (h : Kept {root} ∅ root p p') (hp : Linked root p) : Linked root p' := by
  obtain ⟨v, hv⟩ := hp
  exact ⟨v, hv.kept h⟩

namespace Grows

theorem refl (h : Owned {root} ∅ p) : Grows root False p p :=
  ⟨Kept.refl h, subset_rfl, False.elim, fun _ => rfl⟩

theorem trans (h : Grows root a p p') (h' : Grows root b p' p'') : Grows root (a ∨ b) p p'' where
  toKept := h.toKept.trans h'.toKept
  reserved := h'.reserved.trans h.reserved
  linked := by
    rintro (ha | hb)
    · exact Kept.linked h'.toKept (h.linked ha)
    · exact h'.linked hb
  regions_eq := by
    intro hnot
    rw [not_or] at hnot
    exact (h'.regions_eq hnot.2).trans (h.regions_eq hnot.1)

theorem congr (h : Grows root a p p') (hab : a ↔ b) : Grows root b p p' :=
  propext hab ▸ h

/-- The loop of `map_range`. -/
theorem mapAll {vs : List ℕ} {permissions flag : ℕ} (h : Owned {root} ∅ s.phys)
    (hvs : ∀ v ∈ vs, v < 2 ^ 47) (hP : Grants permissions)
    (hfree : 4 * vs.length ≤ (freeFrames s.phys.regions).length)
    (hs : vs.foldlM (mapNext (4096 * root) permissions flag) s = some s') :
    Grows root (vs ≠ []) s.phys s'.phys where
  toKept := h.mapAll rfl hvs hP hfree hs
  reserved := (h.toSpaces.mapAll rfl hvs hP hfree hs).reserved
  linked := by
    intro hne
    obtain ⟨v, hv⟩ := List.exists_mem_of_ne_nil vs hne
    obtain ⟨e, -, he⟩ := (h.toSpaces.mapAll rfl hvs hP hfree hs).leaf_mapped v
      (List.mem_map_of_mem hv)
    exact ⟨v, isSome_walk_of_isSome_leaf (Option.isSome_iff_exists.mpr ⟨_, he⟩)⟩
  regions_eq := by
    intro hnil
    rw [not_not.mp hnil] at hs
    obtain rfl : s = s' := Option.some.inj hs
    rfl

/-- Pages are written. -/
theorem stores {m : Mem} (h : Owned {root} ∅ p) (hm : Stores {root} ∅ p m) :
    Grows root False p ⟨p.regions, m⟩ where
  toKept := h.stores hm rfl
  reserved := fun _ ht => ht.imp_right (Spaces.isTable_congr hm.same).mp
  linked := False.elim
  regions_eq := fun _ => rfl

/-- **`load_elf`.** -/
theorem loadElf {entry : ℕ} (h : Owned {root} ∅ s.phys)
    (hlower : ∀ phdr ∈ ptLoad file, phdr.pVaddr < 2 ^ 47 ∧ phdr.pVaddr + phdr.pMemsz ≤ 2 ^ 47 ∧
      ∀ v ∈ loadAddresses phdr, v < 2 ^ 47)
    (hfree : 4 * ((ptLoad file).flatMap loadAddresses).length ≤
      (freeFrames s.phys.regions).length)
    (hs : Loader.loadElf file (4096 * root) s = some (entry, s')) :
    Grows root ((ptLoad file).flatMap loadAddresses ≠ []) s.phys s'.phys := by
  obtain ⟨s'', hs'', heq⟩ := Option.map_eq_some_iff.mp hs
  obtain ⟨-, rfl⟩ := Prod.mk.inj heq
  clear hs heq
  generalize ptLoad file = segments at hlower hfree hs''
  induction segments generalizing s with
  | nil =>
    obtain rfl : s = s'' := Option.some.inj hs''
    exact (refl h).congr (by simp)
  | cons phdr segments ih =>
    rw [List.flatMap_cons, List.length_append] at hfree
    obtain ⟨s₁, hs₁, hrest⟩ := run_cons.mp hs''
    obtain ⟨hv, hend, hlow⟩ := hlower phdr List.mem_cons_self
    obtain ⟨s₂, m, hall, hpages, hstores, rfl⟩ :=
      loadSegment_cases h.toSpaces rfl hv hend hlow (by omega) hs₁
    have hfree₂ := hpages.free_le
    have hmap := mapAll h hlow (by decide) (by omega) hall
    have hgrows := hmap.trans (stores hmap.owned hstores)
    have hlater := ih (s := { s₂ with phys := ⟨s₂.phys.regions, m⟩ }) hgrows.owned
      (fun q hq => hlower q (List.mem_cons_of_mem _ hq))
      (Nat.le_trans (by omega) (Nat.sub_le_iff_le_add'.mpr hfree₂)) hrest
    refine (hgrows.trans hlater).congr ?_
    rw [List.flatMap_cons, or_false, Ne, Ne, Ne, List.append_eq_nil_iff, not_and_or]

/-- **`sys_vm_map`**, and what it records. -/
theorem sysVmMap {hint size err : ℕ} {prot flags : BitVec 32} (h : Owned {root} ∅ s.phys)
    (hhint : hint < 2 ^ 47) (hvs : ∀ v ∈ mapRangeAddresses hint size, v < 2 ^ 47)
    (hfree : 4 * (mapRangeAddresses hint size).length ≤ (freeFrames s.phys.regions).length)
    (hrec : Recorded s.mappings (HasPageTable {root} s.phys.mem root))
    (hs : Vm.sysVmMap s (4096 * root) hint size prot flags = some (err, s')) :
    Grows root (hint % 2 = 0 ∧ size ≠ 0) s.phys s'.phys ∧
      Recorded s'.mappings (HasPageTable {root} s'.phys.mem root) := by
  rcases sysVmMap_cases h.toSpaces rfl hhint hvs hfree hs with
    ⟨hnot, rfl⟩ | ⟨hmaps, flag, s₁, m, hall, hstores, rfl, hR⟩
  · exact ⟨(refl h).congr (iff_of_false id hnot), hrec⟩
  · have hmap := mapAll h hvs (protPermissions_cases prot).1 hfree hall
    have hgrows := hmap.trans (stores hmap.owned hstores)
    have hlinked : Linked root ⟨s₁.phys.regions, m⟩ :=
      ⟨_, isSome_walk_of_isSome_leaf (hR.cleared 0 (Nat.pos_of_ne_zero hmaps.2))⟩
    refine ⟨⟨hgrows.toKept, hgrows.reserved, fun _ => hlinked, fun hnot => absurd hmaps hnot⟩, ?_⟩
    rw [hR.mappings_eq]
    have hstays : ∀ v, HasPageTable {root} s.phys.mem root v →
        HasPageTable {root} (⟨s₁.phys.regions, m⟩ : Phys).mem root v :=
      fun v hv => hv.kept hgrows.toKept
    have hrec' : Recorded s.mappings (HasPageTable {root} m root) := hrec.mono hstays
    split
    next =>
      refine hrec'.foldl_recordNext fun v hv => isSome_walk_of_isSome_leaf ?_
      obtain ⟨e, -, he⟩ := hR.leaf_mapped v (List.mem_map_of_mem hv)
      exact Option.isSome_iff_exists.mpr ⟨_, he⟩
    next => exact hrec'

/-- **`syscall8`**, when what is unmapped has page tables. -/
theorem syscall8 {pointer size err : ℕ} (h : Owned {root} ∅ s.phys)
    (hend : pointer / 4096 + unmapCount size ≤ 2 ^ 35)
    (hpt : ∀ v ∈ pagesFrom pointer (unmapCount size),
      (walkEntry s.phys.mem (4096 * root) v).1 = 0)
    (hrec : Recorded s.mappings (HasPageTable {root} s.phys.mem root))
    (hs : Vm.syscall8 s (4096 * root) pointer size = some (err, s')) :
    Grows root False s.phys s'.phys ∧
      Recorded s'.mappings (HasPageTable {root} s'.phys.mem root) := by
  have h0 : pointer ≠ 0 := by
    rintro rfl
    rw [Vm.syscall8, if_pos rfl] at hs
    cases hs
  have hlow : ∀ v ∈ pagesFrom pointer (unmapCount size), v < 2 ^ 47 := by
    intro v hv
    obtain ⟨i, hi, rfl⟩ := List.mem_map.mp hv
    have hi := List.mem_range.mp hi
    omega
  obtain ⟨s₂, hs₂, -, hmp, hP⟩ := h.toSpaces.syscall8 size rfl h0 fun u hu =>
    h.isSome_walk_of_walkEntry rfl (hlow u hu) (hpt u hu)
  obtain ⟨-, rfl⟩ := Prod.mk.inj (Option.some.inj (hs.symm.trans hs₂))
  have hregions : s'.phys.regions = s.phys.regions := by
    rw [Vm.syscall8, if_neg h0] at hs
    obtain ⟨s₃, hall, heq⟩ := Option.map_eq_some_iff.mp hs
    obtain ⟨-, rfl⟩ := Prod.mk.inj heq
    refine run_inv (I := fun q : State => q.phys.regions = s.phys.regions)
      (fun q v q' hq hnext => ?_) rfl hall
    obtain ⟨-, rfl⟩ := unmapNext_eq_some.mp hnext
    exact hq
  have hkept : Kept {root} ∅ root s.phys s'.phys := kept_of_pagesUnmapped h rfl hP
  refine ⟨⟨hkept, hP.reserved, False.elim, fun _ => hregions⟩, ?_⟩
  have hrec' : Recorded s.mappings (HasPageTable {root} s'.phys.mem root) :=
    hrec.mono fun _ hv => hv.kept hkept
  rw [hmp]
  split
  next =>
    exact List.foldlRecOn (motive := fun mp => Recorded mp _) _ _ hrec'
      fun mp hmp v _ => hmp.clearMapping
  next => exact hrec'

end Grows

/-! ### From the first frame to the last -/

/-- A root is allocated, with an empty lower half. -/
structure NewRoot (root : ℕ) (p p₁ : Phys) : Prop where
  alloc_eq : (allocFrame p).1 = 4096 * root
  regions_eq : p₁.regions = (allocFrame p).2.regions
  free_eq : freeFrames p.regions = 4096 * root :: freeFrames p₁.regions
  layout_eq : layout p₁.regions = layout p.regions
  owned : Owned {root} ∅ p₁
  empty : ∀ i : Fin 512, i.val < 256 → ¬Present (entry p₁.mem root i)

/-- `create_new_userspace_page_table` makes one. -/
theorem exists_newRoot (pml4Address : ℕ) (hwf : WellFormed (layout p.regions))
    (husable : ∀ x ∈ usableFrames (layout p.regions), x + 4096 ≤ 2 ^ 47)
    (hfree : 1 ≤ (freeFrames p.regions).length) :
    ∃ root, (createNewUserspacePageTable pml4Address p).1 = 4096 * root ∧
      NewRoot root p (createNewUserspacePageTable pml4Address p).2 := by
  have hnone : Owned ∅ ∅ p :=
    ⟨spaces_noRoot hwf husable, fun r hr => absurd hr (Set.notMem_empty r)⟩
  rcases hcons : freeFrames p.regions with _ | ⟨x, fs⟩
  · rw [hcons] at hfree
    cases hfree
  obtain ⟨root, rfl, -⟩ := hnone.free_le (hcons ▸ List.mem_cons_self : x ∈ freeFrames p.regions)
  obtain ⟨hval, hfs, hlay, hmem, hempty⟩ := createNewUserspacePageTable_spec pml4Address hcons
  have howned := (hnone.newRoot (hfs ▸ hcons) hlay hmem hempty).2.1
  rw [insert_empty_eq] at howned
  exact ⟨root, hval, hval, rfl, hfs ▸ hcons, hlay, howned, hempty⟩

/-- It takes a frame if there is one, and frees none. -/
theorem createNewUserspacePageTable_free (pml4Address : ℕ) (p : Phys) :
    layout (createNewUserspacePageTable pml4Address p).2.regions = layout p.regions ∧
      freeFrames (createNewUserspacePageTable pml4Address p).2.regions =
        (freeFrames p.regions).tail := by
  have hregions : (createNewUserspacePageTable pml4Address p).2.regions =
      (allocFrame p).2.regions := rfl
  rw [hregions]
  rcases hcons : freeFrames p.regions with _ | ⟨y, fs⟩
  · rw [allocFrame_of_nil hcons]
    exact ⟨rfl, hcons⟩
  · obtain ⟨rs', halloc, hfs, hlay⟩ := allocFrame_of_cons hcons
    rw [halloc]
    exact ⟨hlay, hfs⟩

namespace NewRoot

variable {p₁ p₂ q : Phys} (hnew : NewRoot root p p₁) (hgrows : Grows root a p₁ p₂)
include hnew hgrows

/-- **What is linked was free**: of the tables below the root, the first one was not there when the
root was made. -/
theorem exists_free (hlinked : Linked root p₂) : ∃ i t,
    walk (next (userHalf {root} p₂.mem)) root [i] = some t ∧ 4096 * t ∈ freeFrames p₁.regions := by
  obtain ⟨v, hv⟩ := hlinked
  obtain ⟨pt, hpt⟩ := Option.isSome_iff_exists.mp hv
  rw [show tablePath v = [pml4Index v] ++ [pdptIndex v] ++ [pdIndex v] from rfl] at hpt
  obtain ⟨t₂, hw₂, -⟩ := walk_concat_eq_some.mp hpt
  obtain ⟨t, ht, -⟩ := walk_concat_eq_some.mp hw₂
  refine ⟨pml4Index v, t, ht, ?_⟩
  have hin : t ∈ Reserved {root} p₂ := Or.inr ⟨root, rfl, _, by simp, ht⟩
  rcases hgrows.reserved hin with hfree | ⟨r, rfl, path, -, hw⟩
  · exact hfree
  · -- the only table there was is the root, which is not below itself
    obtain ⟨-, rfl⟩ := walk_of_empty (Set.mem_singleton r) hnew.empty hw
    have hpath := (hgrows.owned.unique r rfl r rfl _ [] r (by simp) (by simp) ht walk_nil).2
    cases hpath

/-- Where no page is mapped there is no page table. -/
theorem not_linked (hnot : ¬a) : ¬Linked root p₂ := by
  intro hlinked
  obtain ⟨i, t, ht, hfree⟩ := hnew.exists_free hgrows hlinked
  rw [← hgrows.regions_eq hnot] at hfree
  exact hgrows.owned.table_free t ⟨root, rfl, [i], by simp, ht⟩ hfree

variable (hkept : Kept {root} ∅ root p₂ q) (hs : freeFrame q (4096 * root) = some p')
include hkept hs

/-- The root is free again, and the entries of the memory map are the same. -/
theorem free_released : layout p'.regions = layout p.regions ∧
    ∀ x, x ∈ freeFrames p'.regions ↔ x ∈ freeFrames q.regions ∨ x = 4096 * root := by
  have hroot : 4096 * root ∈ usableFrames (layout p.regions) :=
    usableFrames_of_mem_freeFrames (hnew.free_eq ▸ List.mem_cons_self)
  have hlay : layout q.regions = layout p.regions :=
    hkept.layout_eq.trans (hgrows.layout_eq.trans hnew.layout_eq)
  obtain ⟨-, rs', hloop, rfl⟩ := freeFrame_eq_some.mp hs
  obtain ⟨hlay', hfree⟩ := freeLoop_spec hkept.owned.wellFormed.sortedMap (hlay ▸ hroot) hloop
  exact ⟨hlay'.trans hlay, hfree⟩

/-- **A frame stays behind when pages were mapped**: that of the table right below the root. -/
theorem exists_leaked (hmaps : a) : ∃ x ∈ freeFrames p.regions, x ∉ freeFrames p'.regions := by
  obtain ⟨i, t, ht, hfree⟩ := hnew.exists_free hgrows (hgrows.linked hmaps)
  have ht' := hkept.walk_of [i] t (by simp) ht
  refine ⟨4096 * t, hnew.free_eq ▸ List.mem_cons_of_mem _ hfree, fun hin => ?_⟩
  rcases ((hnew.free_released hgrows hkept hs).2 _).mp hin with hin | heq
  · exact hkept.owned.table_free t ⟨root, rfl, [i], by simp, ht'⟩ hin
  · obtain rfl : t = root := by omega
    have hpath := (hkept.owned.unique t rfl t rfl [i] [] t (by simp) (by simp) ht' walk_nil).2
    cases hpath

omit hkept in
/-- **And none does when no page was mapped**, and nothing was freed but the root. -/
theorem regions_released (hwf : WellFormed (layout p.regions)) (hnot : ¬a)
    (hq : q.regions = p₂.regions) : p'.regions = p.regions := by
  have hne : freeFrames p.regions ≠ [] := hnew.free_eq ▸ List.cons_ne_nil _ _
  refine freeFrame_allocFrame (q := q) hwf.sortedMap hne ?_ (hnew.alloc_eq ▸ hs)
  rw [hq, hgrows.regions_eq hnot, hnew.regions_eq]

end NewRoot

/-! ### Lifetimes -/

/-- What a thread does while it runs, and what is done by others: they only run. -/
def Event.MadeBy (t : ℕ) (s : System) : Event → Prop
  | .sysVmMap _ _ _ _ | .sysVmUnmap _ _ => s.sched.runningThread = t
  | .reschedule _ => True
  | .hotExecElf _ _ _ | .hotCreateAndPushThread _ _ | .schedulerReturn _ _ => False

instance (t : ℕ) (s : System) : (e : Event) → Decidable (e.MadeBy t s)
  | .sysVmMap _ _ _ _ | .sysVmUnmap _ _ => inferInstanceAs (Decidable (s.sched.runningThread = t))
  | .reschedule _ => inferInstanceAs (Decidable True)
  | .hotExecElf _ _ _ | .hotCreateAndPushThread _ _ | .schedulerReturn _ _ =>
    inferInstanceAs (Decidable False)

/-- **The life of a thread**: it is made by `hot_exec_elf`, runs, and ends in
`scheduler_return`. -/
structure Lifetime (t pid : ℕ) (file : Mem) (es : List Event) (idle fuel : ℕ)
    (s s₁ s₂ s' : System) : Prop where
  exec : step s (.hotExecElf t pid file) = some s₁
  calls : Meets step (fun s e => e.MadeBy t s) s₁ es
  run : es.foldlM step s₁ = some s₂
  running : s₂.sched.runningThread = t
  exit : step s₂ (.schedulerReturn idle fuel) = some s'

/-- The event maps pages: the program has some, or the call has an even address and a size. -/
def Event.Maps : Event → Prop
  | .hotExecElf _ _ file => (ptLoad file).flatMap loadAddresses ≠ []
  | .sysVmMap hint size _ _ => hint % 2 = 0 ∧ size ≠ 0
  | _ => False

instance : (e : Event) → Decidable e.Maps
  | .hotExecElf _ _ _ => inferInstanceAs (Decidable (_ ≠ _))
  | .sysVmMap _ _ _ _ => inferInstanceAs (Decidable (_ ∧ _))
  | .sysVmUnmap _ _ | .reschedule _ | .hotCreateAndPushThread _ _ | .schedulerReturn _ _ =>
    inferInstanceAs (Decidable False)

/-- **The events that look up nothing in tables that are not there**: there are frames for what is
mapped, which is in the lower half. What is unmapped by `sys_vm_unmap` has a page table. The pages
`unload_elf` frees are distinct, and mapped onto usable frames. -/
def Event.Regular (s : System) : Event → Prop
  | .hotExecElf _ _ file =>
    (∀ phdr ∈ ptLoad file, phdr.pVaddr < 2 ^ 47 ∧ phdr.pVaddr + phdr.pMemsz ≤ 2 ^ 47 ∧
      ∀ v ∈ loadAddresses phdr, v < 2 ^ 47) ∧
    4 * ((ptLoad file).flatMap loadAddresses).length + 1 ≤ (freeFrames s.phys.regions).length
  | .sysVmUnmap pointer size =>
    pointer / 4096 + unmapCount size ≤ 2 ^ 35 ∧ ∀ v ∈ pagesFrom pointer (unmapCount size),
      (walkEntry s.phys.mem (s.space s.sched.runningThread).cr3 v).1 = 0
  | e => e.Keeps s

instance (s : System) : (e : Event) → Decidable (e.Regular s)
  | .hotExecElf _ _ _ | .sysVmUnmap _ _ => inferInstanceAs (Decidable (_ ∧ _))
  | .sysVmMap hint size prot flags =>
    inferInstanceAs (Decidable ((Event.sysVmMap hint size prot flags).Keeps s))
  | .reschedule fuel => inferInstanceAs (Decidable ((Event.reschedule fuel).Keeps s))
  | .hotCreateAndPushThread t pid =>
    inferInstanceAs (Decidable ((Event.hotCreateAndPushThread t pid).Keeps s))
  | .schedulerReturn idle fuel =>
    inferInstanceAs (Decidable ((Event.schedulerReturn idle fuel).Keeps s))

variable {maps : Prop} {s s' s₁ s₂ : System} {t pid idle fuel : ℕ} {e : Event} {es : List Event}

/-- A thread and its table, since it was made: the pages it has recorded have page tables. -/
structure Living (t root : ℕ) (maps : Prop) (p : Phys) (s : System) : Prop where
  cr3 : (s.space t).cr3 = 4096 * root
  grows : Grows root maps p s.phys
  records : Recorded (s.space t).mappings (HasPageTable {root} s.phys.mem root)

/-- **`hot_exec_elf`.** -/
theorem living_hotExecElf (hwf : WellFormed (layout s.phys.regions))
    (husable : ∀ x ∈ usableFrames (layout s.phys.regions), x + 4096 ≤ 2 ^ 47)
    (hG : (Event.hotExecElf t pid file).Regular s)
    (hs : step s (.hotExecElf t pid file) = some s') :
    ∃ root p₁, NewRoot root s.phys p₁ ∧
      Living t root (Event.hotExecElf t pid file).Maps p₁ s' := by
  obtain ⟨hlower, hfree⟩ := hG
  obtain ⟨root, hval, hnew⟩ := exists_newRoot s.pml4AddressGlob hwf husable (by omega)
  rw [step] at hs
  split_ifs at hs with hfresh
  obtain ⟨⟨entry, q⟩, hload, hs'⟩ := Option.map_eq_some_iff.mp hs
  have hspace : s'.space t = ⟨4096 * root, noRecords, entry, some file⟩ := by
    rw [← hs', ← hval]
    exact Function.update_self ..
  have hphys : s'.phys = q.phys := hs' ▸ rfl
  rw [hval] at hload
  have hlen := congrArg List.length hnew.free_eq
  rw [List.length_cons] at hlen
  refine ⟨root, _, hnew, by rw [hspace], ?_, ?_⟩
  · rw [hphys]
    refine Grows.loadElf hnew.owned hlower ?_ hload
    show _ ≤ (freeFrames (createNewUserspacePageTable s.pml4AddressGlob s.phys).2.regions).length
    omega
  · rw [hspace]
    exact recorded_noRecords

namespace Living

variable (h : Living t root maps p s)
include h

theorem records_running (ht : s.sched.runningThread = t) :
    Recorded s.paging.mappings (HasPageTable {root} s.phys.mem root) := by
  rw [System.paging, ht]
  exact h.records

/-- The running thread changes its pages and its records. -/
theorem store {q : State} (ht : s.sched.runningThread = t) (hgrows : Grows root a s.phys q.phys)
    (hrec : Recorded q.mappings (HasPageTable {root} q.phys.mem root)) :
    Living t root (maps ∨ a) p (s.store q) := by
  subst ht
  have hself : (s.store q).space s.sched.runningThread =
      { s.space s.sched.runningThread with mappings := q.mappings } := Function.update_self ..
  refine ⟨?_, h.grows.trans hgrows, ?_⟩
  · rw [hself]
    exact h.cr3
  · rw [hself]
    exact hrec

theorem sysVmMap {hint size : ℕ} {prot flags : BitVec 32} (ht : s.sched.runningThread = t)
    (hG : (Event.sysVmMap hint size prot flags).Regular s)
    (hs : s.sysVmMap hint size prot flags = some s') :
    Living t root (maps ∨ (Event.sysVmMap hint size prot flags).Maps) p s' := by
  obtain ⟨hhint, hvs, hfree⟩ := hG
  rw [System.sysVmMap] at hs
  split_ifs at hs
  obtain ⟨⟨err, q⟩, hcall, rfl⟩ := Option.map_eq_some_iff.mp hs
  rw [ht, h.cr3] at hcall
  obtain ⟨hgrows, hrec⟩ := Grows.sysVmMap (s := s.paging) h.grows.owned hhint hvs hfree
    (h.records_running ht) hcall
  exact h.store ht hgrows hrec

theorem sysVmUnmap {pointer size : ℕ} (ht : s.sched.runningThread = t)
    (hG : (Event.sysVmUnmap pointer size).Regular s)
    (hs : s.sysVmUnmap pointer size = some s') :
    Living t root (maps ∨ (Event.sysVmUnmap pointer size).Maps) p s' := by
  obtain ⟨hend, hpt⟩ := hG
  rw [System.sysVmUnmap] at hs
  split_ifs at hs
  obtain ⟨⟨err, q⟩, hcall, rfl⟩ := Option.map_eq_some_iff.mp hs
  rw [ht, h.cr3] at hcall hpt
  obtain ⟨hgrows, hrec⟩ := Grows.syscall8 (s := s.paging) h.grows.owned hend hpt
    (h.records_running ht) hcall
  exact h.store ht hgrows hrec

/-- **A step of the thread, or of the scheduler.** -/
theorem step (hmade : e.MadeBy t s) (hG : e.Regular s) (hs : Threads.step s e = some s') :
    Living t root (maps ∨ e.Maps) p s' := by
  cases e with
  | sysVmMap hint size prot flags => exact h.sysVmMap hmade hG hs
  | sysVmUnmap pointer size => exact h.sysVmUnmap hmade hG hs
  | reschedule fuel =>
    obtain ⟨⟨q, sw⟩, -, rfl⟩ := Option.map_eq_some_iff.mp hs
    exact ⟨h.cr3, h.grows.congr (or_false _).symm.to_iff, h.records⟩
  | hotExecElf _ _ _ | hotCreateAndPushThread _ _ | schedulerReturn _ _ => exact hmade.elim

end Living

/-- **What the thread has done when it ends.** -/
theorem Living.run (h : Living t root maps p s)
    (hmade : Meets Threads.step (fun s e => e.MadeBy t s) s es)
    (hG : Meets Threads.step (fun s e => e.Regular s) s es)
    (hs : es.foldlM Threads.step s = some s') :
    Living t root (maps ∨ ∃ e ∈ es, e.Maps) p s' := by
  induction es generalizing s maps with
  | nil =>
    obtain rfl : s = s' := Option.some.inj hs
    exact ⟨h.cr3, h.grows.congr (by simp), h.records⟩
  | cons e es ih =>
    obtain ⟨s₁, hs₁, hs⟩ := run_cons.mp hs
    obtain ⟨hmade₀, hmade⟩ := (meets_cons hs₁).mp hmade
    obtain ⟨hG₀, hG⟩ := (meets_cons hs₁).mp hG
    have hrest := ih (h.step hmade₀ hG₀ hs₁) hmade hG hs
    refine ⟨hrest.cr3, hrest.grows.congr ?_, hrest.records⟩
    rw [List.exists_mem_cons_iff, or_assoc]

/-- **What the thread had is given back**, and an idle thread may be made. -/
theorem Living.schedulerReturn (h : Living t root maps p s) (ht : s.sched.runningThread = t)
    (hG : (Event.schedulerReturn idle fuel).Regular s)
    (hs : Threads.step s (.schedulerReturn idle fuel) = some s') :
    ∃ q p', Kept {root} ∅ root s.phys q ∧ freeFrame q (4096 * root) = some p' ∧
      (¬Linked root s.phys → q.regions = s.phys.regions) ∧
      s'.phys = if idle ∈ s'.sched.threads then
        (createNewUserspacePageTable s.pml4AddressGlob p').2 else p' := by
  rw [Threads.step] at hs
  split_ifs at hs with hfresh
  obtain ⟨⟨r, sw⟩, -, hs⟩ := Option.bind_eq_some_iff.mp hs
  obtain ⟨p', hrel, hs'⟩ := Option.map_eq_some_iff.mp hs
  subst ht
  obtain ⟨q, hkept, hfree, hsame⟩ :=
    releaseSpace_kept (s := ⟨s.phys, s.schedulingStarted, (s.space s.sched.runningThread).mappings⟩)
      h.grows.owned (Set.mem_singleton root) h.cr3 hG h.records hrel
  refine ⟨q, p', hkept, hfree, fun hnot => hsame fun v hv => hnot ⟨v, hv⟩, ?_⟩
  by_cases hidle : idle ∈ r.threads
  · rw [if_pos hidle] at hs'
    rw [if_pos (hs' ▸ hidle), ← hs']
  · rw [if_neg hidle] at hs'
    rw [if_neg (hs' ▸ hidle), ← hs']

/-- **The frames of a thread**: over every memory map, in every lifetime whose events are regular,
the frames that are allocated after it are those that were allocated before it if and only if no
page was mapped, and no idle thread was made. -/
theorem conserves_iff (hwf : WellFormed (layout s.phys.regions))
    (husable : ∀ x ∈ usableFrames (layout s.phys.regions), x + 4096 ≤ 2 ^ 47)
    (hlife : Lifetime t pid file es idle fuel s s₁ s₂ s')
    (hexec : (Event.hotExecElf t pid file).Regular s)
    (hcalls : Meets step (fun s e => e.Regular s) s₁ es)
    (hexit : (Event.schedulerReturn idle fuel).Regular s₂) :
    allocatedFrames s'.phys.regions = allocatedFrames s.phys.regions ↔
      (∀ e ∈ .hotExecElf t pid file :: es, ¬e.Maps) ∧ idle ∉ s'.sched.threads := by
  obtain ⟨root, p₁, hnew, hliving₁⟩ := living_hotExecElf hwf husable hexec hlife.exec
  have hliving := hliving₁.run hlife.calls hcalls hlife.run
  obtain ⟨q, p', hkept, hfree, hsame, hphys⟩ :=
    hliving.schedulerReturn hlife.running hexit hlife.exit
  have hmap := hwf.sortedMap
  have hgrows := hliving.grows
  have hlay := (hnew.free_released hgrows hkept hfree).1
  have hforall : (∀ e ∈ .hotExecElf t pid file :: es, ¬e.Maps) ↔
      ¬((Event.hotExecElf t pid file).Maps ∨ ∃ e ∈ es, e.Maps) := by
    rw [← List.exists_mem_cons_iff]
    push Not
    rfl
  rw [hforall, hphys]
  by_cases hmaps : (Event.hotExecElf t pid file).Maps ∨ ∃ e ∈ es, e.Maps
  · -- the frame of a table is not free any more
    refine iff_of_false ?_ fun hnot => hnot.1 hmaps
    obtain ⟨x, hx, hx'⟩ := hnew.exists_leaked hgrows hkept hfree hmaps
    split_ifs with hidle
    · obtain ⟨hlay', hfree'⟩ := createNewUserspacePageTable_free s₂.pml4AddressGlob p'
      refine allocatedFrames_ne hmap (hlay'.trans hlay) hx fun hin => hx' ?_
      exact List.mem_of_mem_tail (hfree' ▸ hin)
    · exact allocatedFrames_ne hmap hlay hx hx'
  · have hregions := hnew.regions_released hgrows hfree hwf hmaps
      (hsame (hnew.not_linked hgrows hmaps))
    split_ifs with hidle
    · -- the root of the idle thread is the first frame that was free
      obtain ⟨hlay', hfree'⟩ := createNewUserspacePageTable_free s₂.pml4AddressGlob p'
      refine iff_of_false ?_ fun hnot => hnot.2 hidle
      have hnodup := nodup_freeFrames hmap
      rw [hregions, hnew.free_eq, List.tail_cons] at hfree'
      rw [hnew.free_eq] at hnodup
      refine allocatedFrames_ne hmap (hlay'.trans hlay) (hnew.free_eq ▸ List.mem_cons_self) ?_
      exact hfree' ▸ (List.nodup_cons.mp hnodup).1
    · exact iff_of_true (congrArg allocatedFrames hregions) ⟨hmaps, hidle⟩

/-! ### Two lives -/

/-- A thread runs. -/
def oneThread : System := clearSystem.hotCreateAndPushThread 1 7

/-- A program without segments. -/
def emptyProgram : Mem := elfFile 0x400000 []

/-- It gets to run, and asks for memory at an odd address. -/
def oddCall : List Event := [.reschedule 5, .reschedule 5, .sysVmMap 0x401001 4 7 0x22]

/-- **A life without pages**: the call is refused, and the frames are as before. -/
theorem conserves_iff_emptyProgram : ∃ s₁ s₂ s',
    Lifetime 2 8 emptyProgram oddCall 9 5 oneThread s₁ s₂ s' ∧
      allocatedFrames s'.phys.regions = allocatedFrames oneThread.phys.regions := by
  have hvalues : ((step oneThread (.hotExecElf 2 8 emptyProgram)).bind fun s₁ =>
      (oddCall.foldlM step s₁).bind fun s₂ => (step s₂ (.schedulerReturn 9 5)).map fun s' =>
        checkMeets step (fun s e => e.MadeBy 2 s) s₁ oddCall &&
        checkMeets step (fun s e => e.Regular s) s₁ oddCall &&
        decide (s₂.sched.runningThread = 2) &&
        decide ((Event.schedulerReturn 9 5).Regular s₂) &&
        decide (9 ∉ s'.sched.threads)) = some true := by
    decide +kernel
  obtain ⟨s₁, hs₁, hvalues⟩ := Option.bind_eq_some_iff.mp hvalues
  obtain ⟨s₂, hs₂, hvalues⟩ := Option.bind_eq_some_iff.mp hvalues
  obtain ⟨s', hs', hvalues⟩ := Option.map_eq_some_iff.mp hvalues
  simp only [Bool.and_eq_true, decide_eq_true_eq] at hvalues
  obtain ⟨⟨⟨⟨hmade, hcalls⟩, hrunning⟩, hexit⟩, hidle⟩ := hvalues
  have hlife : Lifetime 2 8 emptyProgram oddCall 9 5 oneThread s₁ s₂ s' :=
    ⟨hs₁, meets_of_checkMeets hmade, hs₂, hrunning, hs'⟩
  have hlay : layout oneThread.phys.regions = smallMap := by decide +kernel
  have hiff := conserves_iff (hlay ▸ wellFormed_smallMap) (hlay ▸ by decide) hlife
    (by decide +kernel) (meets_of_checkMeets hcalls) hexit
  exact ⟨s₁, s₂, s', hlife, hiff.mpr ⟨by decide +kernel, hidle⟩⟩

/-- **A life with one page**: the tables of the page are left behind. -/
theorem not_conserves_smallProgram : ∃ s₁ s₂ s',
    Lifetime 2 8 smallProgram [.reschedule 5, .reschedule 5] 9 5 oneThread s₁ s₂ s' ∧
      ptLoad smallProgram = [⟨1, 0, 0x400000, 4, 4⟩] ∧
      freeFrames oneThread.phys.regions =
        0x11000 :: 0x12000 :: 0x13000 :: 0x14000 :: 0x15000 ::
          (freeFrames s'.phys.regions).drop 2 ∧
      (freeFrames s'.phys.regions).take 2 = [0x11000, 0x12000] ∧
      allocatedFrames s'.phys.regions ≠ allocatedFrames oneThread.phys.regions := by
  have hvalues : ((step oneThread (.hotExecElf 2 8 smallProgram)).bind fun s₁ =>
      ([.reschedule 5, .reschedule 5].foldlM step s₁).bind fun s₂ =>
        (step s₂ (.schedulerReturn 9 5)).map fun s' =>
          checkMeets step (fun s e => e.MadeBy 2 s) s₁ [.reschedule 5, .reschedule 5] &&
          decide (s₂.sched.runningThread = 2) &&
          decide (freeFrames oneThread.phys.regions =
            0x11000 :: 0x12000 :: 0x13000 :: 0x14000 :: 0x15000 ::
              (freeFrames s'.phys.regions).drop 2) &&
          decide ((freeFrames s'.phys.regions).take 2 = [0x11000, 0x12000]) &&
          decide (0x13000 ∉ freeFrames s'.phys.regions) &&
          decide (layout s'.phys.regions = smallMap)) = some true := by
    decide +kernel
  obtain ⟨s₁, hs₁, hvalues⟩ := Option.bind_eq_some_iff.mp hvalues
  obtain ⟨s₂, hs₂, hvalues⟩ := Option.bind_eq_some_iff.mp hvalues
  obtain ⟨s', hs', hvalues⟩ := Option.map_eq_some_iff.mp hvalues
  simp only [Bool.and_eq_true, decide_eq_true_eq] at hvalues
  obtain ⟨⟨⟨⟨⟨hmade, hrunning⟩, hfree⟩, hfree'⟩, hleaked⟩, hlay'⟩ := hvalues
  have hlay : layout oneThread.phys.regions = smallMap := by decide +kernel
  refine ⟨s₁, s₂, s', ⟨hs₁, meets_of_checkMeets hmade, hs₂, hrunning, hs'⟩, by decide +kernel,
    hfree, hfree', ?_⟩
  refine allocatedFrames_ne (a := 0x13000) (hlay ▸ wellFormed_smallMap.sortedMap)
    (hlay'.trans hlay.symm) ?_ hleaked
  rw [hfree]
  simp

end Threads

end WillowOS
