import WillowOS.Paging.MapPage
import WillowOS.Paging.Range
import Mathlib.Order.Fin.Basic

/-!
# The permissions of a page

The hardware grants an access to a page if the entries of all four levels do, so what counts
are the bits that all four entries on the path of an address have
(`WillowOS.Paging.pathFlags`).

`change_page_map` adds permissions to the four entries. The bits it adds are below those of an
address, and every walk of the kernel masks them off: **no walk of any root changes**
(`WillowOS.Paging.changePageMap_permissions`), whatever the tables look like.

`map_page` writes permissions only into the entries it makes. The entries it finds on its way may
have been made for pages with fewer permissions, and then the new page does not get its own:
**`WillowOS.Paging.contains_pathFlags_mapPage`** says when it does, also when there are no free
frames and page `0` is taken for a table.
-/

namespace WillowOS

namespace Paging

open Frames

variable {m m' : Mem} {roots : Set ℕ} {root r t u v w permissions : ℕ} {i j : Fin 512}
  {p : List (Fin 512)}

/-! ### The entries on a path -/

/-- The slots a walk of the kernel passes, made without looking at the present bits. -/
def walkSlots (m : Mem) : ℕ → List (Fin 512) → List (ℕ × Fin 512)
  | _, [] => []
  | t, i :: p => (t, i) :: walkSlots m (entry m t i / 4096) p

/-- **The slots of the four entries on the path of an address.** -/
def pathSlots (m : Mem) (root w : ℕ) : List (ℕ × Fin 512) :=
  walkSlots m root (tablePath w ++ [ptIndex w])

/-- All bits of `bits` are set in `e`. -/
def Contains (e bits : ℕ) : Prop := e &&& bits = bits

instance (e bits : ℕ) : Decidable (Contains e bits) := inferInstanceAs (Decidable (_ = _))

/-- The bits that the entries of all four levels have. -/
def pathFlags (m : Mem) (root w : ℕ) : ℕ :=
  ((pathSlots m root w).map fun x => entry m x.1 x.2 % 4096).foldr (· &&& ·) 4095

theorem contains_iff {e bits : ℕ} :
    Contains e bits ↔ ∀ k, bits.testBit k = true → e.testBit k = true := by
  rw [Contains]
  constructor
  · intro h k hk
    rw [← h, Nat.testBit_and, Bool.and_eq_true] at hk
    exact hk.1
  · intro h
    refine Nat.eq_of_testBit_eq fun k => ?_
    rw [Nat.testBit_and]
    rcases hk : bits.testBit k with _ | _
    · exact Bool.and_false _
    · rw [h k hk, Bool.true_and]

theorem contains_or (e bits : ℕ) : Contains (e ||| bits) bits := by
  refine contains_iff.mpr fun k hk => ?_
  rw [Nat.testBit_or, hk, Bool.or_true]

theorem contains_and {e f bits : ℕ} :
    Contains (e &&& f) bits ↔ Contains e bits ∧ Contains f bits := by
  simp only [contains_iff, Nat.testBit_and, Bool.and_eq_true, forall_and]

/-- The bits of a path contain permissions if those of each entry do. -/
theorem contains_pathFlags (hlt : permissions < 4096) :
    Contains (pathFlags m root w) permissions ↔
      ∀ x ∈ pathSlots m root w, Contains (entry m x.1 x.2) permissions := by
  have hmask : Contains 4095 permissions := by
    rw [Contains, Nat.and_comm]
    exact Nat.and_two_pow_sub_one_of_lt_two_pow (n := 12) hlt
  have hflags : ∀ e, Contains (e % 4096) permissions ↔ Contains e permissions := by
    intro e
    rw [← Nat.and_two_pow_sub_one_eq_mod e 12, contains_and]
    exact and_iff_left hmask
  rw [pathFlags]
  induction pathSlots m root w with
  | nil => simpa using hmask
  | cons x l ih => simp only [List.map_cons, List.foldr_cons, contains_and, hflags, ih,
      List.forall_mem_cons]

/-- The entries of two memories point to the same frames. -/
def SameFrames (m m' : Mem) : Prop := ∀ t i, entry m' t i / 4096 = entry m t i / 4096

theorem SameFrames.walkSlots_eq (h : SameFrames m m') :
    walkSlots m' t p = walkSlots m t p := by
  induction p generalizing t with
  | nil => rfl
  | cons i p ih => rw [walkSlots, walkSlots, h, ih]

/-- **What `virt_to_phys` returns depends on the frames the entries point to only.** -/
theorem SameFrames.virtToPhys_eq (h : SameFrames m m') :
    virtToPhys m' w (4096 * root) = virtToPhys m w (4096 * root) := by
  have hmask : ∀ t i, maskFlags (readEntry m' (4096 * t) i) = 4096 * (entry m t i / 4096) :=
    fun t i => (maskFlags_eq _).trans (congrArg (4096 * ·) (h t i))
  have hmask' : ∀ t i, maskFlags (readEntry m (4096 * t) i) = 4096 * (entry m t i / 4096) :=
    fun t i => maskFlags_eq _
  simp only [virtToPhys, hmask, hmask']

/-- **So does the translation**, if the same entries are present. -/
theorem SameFrames.translate_eq (h : SameFrames m m')
    (hpres : ∀ t i, Present (entry m' t i) ↔ Present (entry m t i)) :
    translate m' r w = translate m r w := by
  have hnext : next m' = next m := by
    funext t i
    rw [next, next, h]
    simp only [hpres]
  rw [translate, translate, hnext]
  simp only [maskFlags, hpres, h _ _]

/-- A page mapped in an empty root for the kernel: present and writable. -/
def kernelState : State := (mapPage emptyState (4096 * 0) 4096 0x400000 3).2

theorem forest_kernelState : WellFormed (layout kernelState.phys.regions) ∧
    Forest kernelState.phys.mem kernelState.phys.regions {0} :=
  forest_mapPage wellFormed_roomMap forest_empty (Set.mem_singleton 0)
    (missing_le_length.trans (show 3 ≤ _ by decide)) (by decide) (by decide) (by decide) (by decide)

/-! ### Adding permissions -/

/-- Permissions are added to the entries a walk passes. -/
def addAlong (m : Mem) (permissions : ℕ) : ℕ → List (Fin 512) → Mem
  | _, [] => m
  | t, i :: p => addAlong (addPermissions m (4096 * t) i permissions).2 permissions
      (entry m t i / 4096) p

/-- One entry is changed. -/
theorem entry_addPermissions (hlt : permissions < 4096) :
    entry (addPermissions m (4096 * t) i permissions).2 u j =
      if (u, j) = (t, i) then entry m u j ||| permissions else entry m u j := by
  have he : entry m t i ||| permissions < 2 ^ 64 :=
    Nat.or_lt_two_pow entry_lt (hlt.trans (by decide))
  rw [addPermissions]
  refine (entry_writeEntry he).trans ?_
  simp only [Prod.mk.injEq]
  split_ifs with h
  · rw [h.1, h.2]
  · rfl

theorem sameFrames_addPermissions (hlt : permissions < 4096) :
    SameFrames m (addPermissions m (4096 * t) i permissions).2 := by
  intro u j
  rw [entry_addPermissions hlt]
  split_ifs
  · exact or_div_of_lt hlt _
  · rfl

theorem maskFlags_addPermissions (hlt : permissions < 4096) :
    maskFlags (addPermissions m (4096 * t) i permissions).1 = 4096 * (entry m t i / 4096) := by
  rw [maskFlags_eq, addPermissions]
  exact congrArg (4096 * ·) (or_div_of_lt hlt _)

/-- `change_page_map` is such a walk. -/
theorem changePageMap_eq_addAlong (hlt : permissions < 4096) :
    changePageMap m (4096 * root) v permissions =
      addAlong m permissions root (tablePath v ++ [ptIndex v]) := by
  simp only [changePageMap, maskFlags_addPermissions hlt]
  rfl

/-- **The entries a walk passes get the permissions, and no others.** -/
theorem entry_addAlong (hlt : permissions < 4096) :
    entry (addAlong m permissions t p) u j =
      if (u, j) ∈ walkSlots m t p then entry m u j ||| permissions else entry m u j := by
  induction p generalizing m t with
  | nil => rw [addAlong, walkSlots, if_neg List.not_mem_nil]
  | cons i p ih =>
    have hself : (u, j) ∈ walkSlots m t (i :: p) ↔
        (u, j) = (t, i) ∨ (u, j) ∈ walkSlots m (entry m t i / 4096) p := List.mem_cons
    rw [addAlong, ih, (sameFrames_addPermissions hlt).walkSlots_eq, entry_addPermissions hlt]
    by_cases hx : (u, j) = (t, i)
    · -- the slot may be passed again further down, and gets the same bits again
      rw [if_pos hx, if_pos (hself.mpr (Or.inl hx)), Nat.or_assoc, Nat.or_self, ite_self]
    · rw [if_neg hx]
      simp only [hself, hx, false_or]

theorem sameFrames_changePageMap (hlt : permissions < 4096) :
    SameFrames m (changePageMap m (4096 * root) v permissions) := by
  intro u j
  rw [changePageMap_eq_addAlong hlt, entry_addAlong hlt]
  split_ifs
  · exact or_div_of_lt hlt _
  · rfl

/-- A walk through present entries, with its last slot apart. -/
theorem walkSlots_concat (h : walk (next m) t p = some u) :
    walkSlots m t (p ++ [i]) = walkSlots m t p ++ [(u, i)] := by
  induction p generalizing t with
  | nil => rw [Option.some.inj h]; rfl
  | cons k p ih =>
    rw [walk_cons] at h
    obtain ⟨t', ht', h⟩ := Option.bind_eq_some_iff.mp h
    rw [List.cons_append, walkSlots, walkSlots, (next_eq_some.mp ht').2, ih h, List.cons_append]

/-- The slots such a walk passes are those of present entries. -/
theorem present_of_mem_walkSlots (h : walk (next m) t p = some u) {x : ℕ × Fin 512}
    (hx : x ∈ walkSlots m t p) : Present (entry m x.1 x.2) := by
  induction p generalizing t with
  | nil => exact absurd hx List.not_mem_nil
  | cons k p ih =>
    rw [walk_cons] at h
    obtain ⟨t', ht', h⟩ := Option.bind_eq_some_iff.mp h
    obtain ⟨hpres, rfl⟩ := next_eq_some.mp ht'
    rcases List.mem_cons.mp hx with rfl | hx
    · exact hpres
    · exact ih h hx

/-- The four entries of an address that is translated are present. -/
theorem present_of_mem_pathSlots (h : (translate m root v).isSome) {x : ℕ × Fin 512}
    (hx : x ∈ pathSlots m root v) : Present (entry m x.1 x.2) := by
  obtain ⟨a, ha⟩ := Option.isSome_iff_exists.mp h
  obtain ⟨pt, hpt, hleaf⟩ := Option.bind_eq_some_iff.mp ha
  rw [pathSlots, walkSlots_concat hpt, List.mem_append, List.mem_singleton] at hx
  rcases hx with hx | rfl
  · exact present_of_mem_walkSlots hpt hx
  · exact (Option.ite_none_right_eq_some.mp hleaf).1

/-- **`change_page_map` changes permissions only.** Whatever the tables look like, after
`change_page_map(root, v, permissions)` every address of every root has the `virt_to_phys` it
had; the four entries on the path of `v`, which is the same path, have the permissions added;
and no other entry is changed. If the four levels of `v` were present, every address of every
root is present if it was, with the translation it had. -/
theorem changePageMap_permissions (hlt : permissions < 4096) :
    (∀ r w, virtToPhys (changePageMap m (4096 * root) v permissions) w (4096 * r) =
      virtToPhys m w (4096 * r)) ∧
    pathSlots (changePageMap m (4096 * root) v permissions) root v = pathSlots m root v ∧
    (∀ t i, (t, i) ∈ pathSlots m root v →
      entry (changePageMap m (4096 * root) v permissions) t i = entry m t i ||| permissions ∧
      Contains (entry (changePageMap m (4096 * root) v permissions) t i) permissions) ∧
    (∀ t i, (t, i) ∉ pathSlots m root v →
      entry (changePageMap m (4096 * root) v permissions) t i = entry m t i) ∧
    ((translate m root v).isSome → ∀ r w,
      translate (changePageMap m (4096 * root) v permissions) r w = translate m r w) := by
  have hframes : SameFrames m (changePageMap m (4096 * root) v permissions) :=
    sameFrames_changePageMap hlt
  have hentry : ∀ t i, entry (changePageMap m (4096 * root) v permissions) t i =
      if (t, i) ∈ pathSlots m root v then entry m t i ||| permissions else entry m t i := by
    intro t i
    exact (congrArg (entry · t i) (changePageMap_eq_addAlong hlt)).trans (entry_addAlong hlt)
  refine ⟨fun r w => hframes.virtToPhys_eq, hframes.walkSlots_eq, fun t i hx => ?_,
    fun t i hx => ?_, fun hv r w => hframes.translate_eq fun t i => ?_⟩
  · rw [hentry, if_pos hx]
    exact ⟨rfl, contains_or _ _⟩
  · rw [hentry, if_neg hx]
  · rw [hentry]
    split_ifs with hx
    · have hpres := present_of_mem_pathSlots hv hx
      exact iff_of_true (Nat.or_mod_two_eq_one.mpr (Or.inl hpres)) hpres
    · exact Iff.rfl

/-- The page of the kernel given to programs. -/
theorem changePageMap_permissions_kernelState :
    (translate kernelState.phys.mem 0 0x400000).isSome ∧
      virtToPhys (changePageMap kernelState.phys.mem (4096 * 0) 0x400000 7) 0x400123 (4096 * 0) =
        4096 + 0x123 ∧
      Contains (pathFlags (changePageMap kernelState.phys.mem (4096 * 0) 0x400000 7) 0 0x400000)
        7 := by
  have hlt : 7 < 4096 := by decide
  obtain ⟨hvirt, hslots, hpath, -⟩ := @changePageMap_permissions kernelState.phys.mem 0
    0x400000 7 hlt
  refine ⟨by decide +kernel, (hvirt 0 0x400123).trans (by decide +kernel), ?_⟩
  rw [contains_pathFlags hlt, hslots]
  exact fun x hx => (hpath x.1 x.2 hx).2

/-! ### The permissions `map_page` grants -/

/-- The entries that are present on a way down contain the permissions, to the first one that is
not present. -/
def Granting (m : Mem) (permissions : ℕ) : ℕ → List (Fin 512) → Prop
  | _, [] => True
  | t, i :: p => Present (entry m t i) →
      Contains (entry m t i) permissions ∧ Granting m permissions (entry m t i / 4096) p

instance decidableGranting (m : Mem) (permissions : ℕ) :
    ∀ t p, Decidable (Granting m permissions t p)
  | _, [] => isTrue trivial
  | t, i :: p =>
    have := decidableGranting m permissions (entry m t i / 4096) p
    inferInstanceAs (Decidable (_ → _))

/-- The tables whose slots a walk passes are reached earlier on it. -/
theorem exists_walk_of_mem_walkSlots (h : walk (next m) t p = some u) {x : ℕ × Fin 512}
    (hx : x ∈ walkSlots m t p) : ∃ q, q.length < p.length ∧ walk (next m) t q = some x.1 := by
  induction p generalizing t with
  | nil => exact absurd hx List.not_mem_nil
  | cons k p ih =>
    rw [walk_cons] at h
    obtain ⟨t', ht', h⟩ := Option.bind_eq_some_iff.mp h
    rcases List.mem_cons.mp hx with rfl | hx
    · exact ⟨[], Nat.succ_pos _, walk_nil⟩
    · rw [(next_eq_some.mp ht').2] at hx
      obtain ⟨q, hq, hw⟩ := ih h hx
      refine ⟨k :: q, Nat.succ_lt_succ hq, ?_⟩
      rw [walk_cons, ht']
      exact hw

/-- The steps of `map_page` along a way down: the table that is reached, and the memory. -/
def ensurePath (permissions : ℕ) (s : Phys) : ℕ → List (Fin 512) → ℕ × Phys
  | t, [] => (t, s)
  | t, i :: q =>
    let e := ensureEntry s (4096 * t) i permissions
    ensurePath permissions e.2 (e.1 / 4096) q

theorem ensureTables_eq_ensurePath {s : Phys} :
    ensureTables s (4096 * root) v permissions =
      (4096 * (ensurePath permissions s root (tablePath v)).1,
        (ensurePath permissions s root (tablePath v)).2) := by
  simp only [ensureTables, tablePath, ensurePath, maskFlags_eq]

/-- The entries `map_page` goes down through contain the permissions: those it makes do, and those
it finds are looked at when it comes to them. -/
def FindsGranting (permissions : ℕ) : Phys → ℕ → List (Fin 512) → Prop
  | _, _, [] => True
  | s, t, i :: q =>
    let e := ensureEntry s (4096 * t) i permissions
    Contains e.1 permissions ∧ FindsGranting permissions e.2 (e.1 / 4096) q

/-- The table a walk of the kernel ends in. -/
def walkEnd (m : Mem) : ℕ → List (Fin 512) → ℕ
  | t, [] => t
  | t, i :: p => walkEnd m (entry m t i / 4096) p

/-- No table on a way down is a free frame. -/
def Settled (fs : List ℕ) (m : Mem) : ℕ → List (Fin 512) → Prop
  | t, [] => 4096 * t ∉ fs
  | t, i :: q => 4096 * t ∉ fs ∧ (Present (entry m t i) → Settled fs m (entry m t i / 4096) q)

theorem settled_nil {q : List (Fin 512)} : Settled [] m t q := by
  induction q generalizing t with
  | nil => exact List.not_mem_nil
  | cons i q ih => exact ⟨List.not_mem_nil, fun _ => ih⟩

theorem Forest.settled {rs : List Region} {q : List (Fin 512)} (hF : Forest m rs roots)
    (hroot : root ∈ roots) (hwalk : walk (next m) root p = some t)
    (hlen : p.length + q.length ≤ 3) : Settled (freeFrames rs) m t q := by
  have ht : 4096 * t ∉ freeFrames rs := (hF.frame root hroot p t (by omega) hwalk).1
  induction q generalizing p t with
  | nil => exact ht
  | cons i q ih =>
    refine ⟨ht, fun hslot => ?_⟩
    have hnext : walk (next m) root (p ++ [i]) = some (entry m t i / 4096) :=
      walk_concat_eq_some.mpr ⟨t, hwalk, next_eq_some.mpr ⟨hslot, rfl⟩⟩
    rw [List.length_cons] at hlen
    have hlen' : (p ++ [i]).length = p.length + 1 := List.length_append
    exact ih hnext (by omega) (hF.frame root hroot _ _ (by omega) hnext).1

/-- What a step of `map_page` leaves behind in any case, with a free frame or without: the entry it
goes on with is in its slot, and the present entries of tables that are in use are kept. -/
structure Stepped (s : Phys) (t : ℕ) (i : Fin 512) (q : List (Fin 512)) (e : ℕ × Phys) : Prop where
  self : entry e.2.mem t i = e.1
  present : Present e.1
  layout_eq : layout e.2.regions = layout s.regions
  settled : Settled (freeFrames e.2.regions) e.2.mem (e.1 / 4096) q
  free_subset : freeFrames e.2.regions ⊆ freeFrames s.regions
  kept : ∀ u j, 4096 * u ∉ freeFrames s.regions → Present (entry s.mem u j) →
    entry e.2.mem u j = entry s.mem u j

/-- **A step of `map_page`**: the table is there, or a free frame becomes one, or there is no frame
and page `0` is taken for it. -/
theorem stepped_ensureEntry {s : Phys} {q : List (Fin 512)} (hwf : WellFormed (layout s.regions))
    (hS : Settled (freeFrames s.regions) s.mem t (i :: q)) (hlt : permissions < 4096)
    (hpres : Present permissions) :
    Stepped s t i q (ensureEntry s (4096 * t) i permissions) := by
  obtain ⟨ht, hS⟩ := hS
  by_cases hslot : Present (entry s.mem t i)
  · rw [ensureEntry_of_present hslot]
    exact ⟨rfl, hslot, rfl, hS hslot, List.Subset.refl _, fun _ _ _ _ => rfl⟩
  have hne : ∀ {u j}, Present (entry s.mem u j) → ¬(u = t ∧ j = i) := by
    rintro u j hu ⟨rfl, rfl⟩
    exact hslot hu
  have hpres' : ∀ b, Present (b ||| permissions) := fun b =>
    Nat.or_mod_two_eq_one.mpr (Or.inr hpres)
  rcases hfree : freeFrames s.regions with _ | ⟨a, fs⟩
  · -- without a free frame
    have hens : ensureEntry s (4096 * t) i permissions =
        (0 ||| permissions,
          { s with mem := writeEntry s.mem (4096 * t) i (0 ||| permissions) }) := by
      rw [entry] at hslot
      rw [ensureEntry, if_neg hslot, allocFrame_of_nil hfree]
    have he : 0 ||| permissions < 2 ^ 64 := by
      rw [Nat.zero_or]
      omega
    rw [hens]
    refine ⟨?_, hpres' 0, rfl, ?_, List.Subset.refl _, fun u j _ hu => ?_⟩
    · rw [entry_writeEntry he, if_pos ⟨rfl, rfl⟩]
    · dsimp only
      rw [hfree]
      exact settled_nil
    · rw [entry_writeEntry he, if_neg (hne hu)]
  · obtain ⟨rs', halloc, hfs, hlay⟩ := allocFrame_of_cons hfree
    have ha : a ∈ freeFrames s.regions := hfree ▸ List.mem_cons_self
    obtain ⟨f, rfl, hle⟩ := exists_frame hwf ha
    have hnodup : (4096 * f :: fs).Nodup := hfree ▸ nodup_freeFrames hwf.sortedMap
    rw [ensureEntry_of_alloc hslot halloc]
    refine ⟨?_, hpres' _, hlay, ?_, ?_, fun u j hu hu' => ?_⟩
    · rw [entry_linkFrame hle hlt, if_pos ⟨rfl, rfl⟩, or_permissions hlt]
    · -- the entries of the new table are clear
      dsimp only
      rw [or_div_of_lt hlt, Nat.mul_div_cancel_left f (by decide), hfs]
      have hf := (List.nodup_cons.mp hnodup).1
      cases q with
      | nil => exact hf
      | cons k q =>
        refine ⟨hf, fun h => ?_⟩
        have hft : ¬(f = t ∧ k = i) := fun hft => ht (hft.1 ▸ ha)
        rw [entry_linkFrame hle hlt, if_neg hft, if_pos rfl] at h
        exact absurd h (by decide)
    · dsimp only
      rw [hfs, hfree]
      exact List.subset_cons_self _ _
    · have huf : u ≠ f := fun huf => hu (huf ▸ ha)
      rw [entry_linkFrame hle hlt, if_neg (hne hu'), if_neg huf]

/-- **Along a way down, every entry is the one `map_page` went on with**, and present entries of
tables that are in use are kept. -/
theorem findsGranting_iff {s : Phys} {q : List (Fin 512)} (hwf : WellFormed (layout s.regions))
    (hS : Settled (freeFrames s.regions) s.mem t q) (hlt : permissions < 4096)
    (hpres : Present permissions) :
    let e := ensurePath permissions s t q
    (FindsGranting permissions s t q ↔
      ∀ x ∈ walkSlots e.2.mem t q, Contains (entry e.2.mem x.1 x.2) permissions) ∧
    walkEnd e.2.mem t q = e.1 ∧
    ∀ u j, 4096 * u ∉ freeFrames s.regions → Present (entry s.mem u j) →
      entry e.2.mem u j = entry s.mem u j := by
  induction q generalizing s t with
  | nil =>
    exact ⟨iff_of_true trivial fun x hx => absurd hx List.not_mem_nil, rfl, fun _ _ _ _ => rfl⟩
  | cons i q ih =>
    have hstep := stepped_ensureEntry hwf hS hlt hpres
    have ht := hS.1
    rw [FindsGranting, ensurePath]
    generalize ensureEntry s (4096 * t) i permissions = e at *
    obtain ⟨hiff, hend, hrest⟩ := ih (hstep.layout_eq ▸ hwf) hstep.settled
    -- the entry of this step is there to the end
    have hlast : entry (ensurePath permissions e.2 (e.1 / 4096) q).2.mem t i = e.1 := by
      have hpres' : Present (entry e.2.mem t i) := by
        rw [hstep.self]
        exact hstep.present
      rw [hrest t i (fun h => ht (hstep.free_subset h)) hpres', hstep.self]
    refine ⟨?_, ?_, fun u j hu hu' => ?_⟩
    · rw [hiff, walkSlots, hlast, List.forall_mem_cons]
      dsimp only
      rw [hlast]
    · rw [walkEnd, hlast]
      exact hend
    · have hkept := hstep.kept u j hu hu'
      rw [hrest u j (fun h => hu (hstep.free_subset h)) (by rw [hkept]; exact hu'), hkept]

/-- **A step grants the permissions if it links a new table, or if they were granted**: what is
below a new table is granted as well. -/
theorem granting_ensureEntry {s : Phys} {q : List (Fin 512)} (hwf : WellFormed (layout s.regions))
    (hF : Forest s.mem s.regions roots) (hroot : root ∈ roots) (hp : p.length < 3)
    (hwalk : walk (next s.mem) root p = some t)
    (hn : missing s.mem t (i :: q) ≤ (freeFrames s.regions).length)
    (hlt : permissions < 4096) (hpres : Present permissions) :
    Granting s.mem permissions t (i :: q) ↔
      Contains (ensureEntry s (4096 * t) i permissions).1 permissions ∧
        Granting (ensureEntry s (4096 * t) i permissions).2.mem permissions
          ((ensureEntry s (4096 * t) i permissions).1 / 4096) q := by
  rcases ensureEntry_cases hwf hF hroot hp hwalk (ne_nil_of_missing_le hn) hlt hpres with
    ⟨hslot, heq⟩ | ⟨f, rs', hL, heq, -, -⟩
  · rw [heq, Granting]
    exact forall_prop_of_true hslot
  · rw [heq, Granting]
    refine iff_of_true (fun h => absurd h hL.slot) ⟨contains_or _ _, ?_⟩
    dsimp only
    rw [or_div_of_lt hlt, Nat.mul_div_cancel_left f (by decide)]
    cases q with
    | nil => trivial
    | cons k q =>
      intro h
      rw [hL.entry_fresh] at h
      exact absurd h (by decide)

/-- With a free frame for every table that is missing, the entries that are found are those that
were there before the call. -/
theorem findsGranting_iff_granting {s : Phys} {q : List (Fin 512)}
    (hwf : WellFormed (layout s.regions)) (hF : Forest s.mem s.regions roots)
    (hroot : root ∈ roots) (hlen : p.length + q.length ≤ 3)
    (hwalk : walk (next s.mem) root p = some t)
    (hn : missing s.mem t q ≤ (freeFrames s.regions).length)
    (hlt : permissions < 4096) (hpres : Present permissions) :
    FindsGranting permissions s t q ↔ Granting s.mem permissions t q := by
  induction q generalizing s p t with
  | nil => exact Iff.rfl
  | cons i q ih =>
    rw [List.length_cons] at hlen
    have hp : p.length < 3 := by omega
    obtain ⟨u, hu, hens⟩ := ensureEntry_spec hwf hF hroot hp hwalk hn hlt hpres
    have hgrant := granting_ensureEntry hwf hF hroot hp hwalk hn hlt hpres
    obtain rfl : (ensureEntry s (4096 * t) i permissions).1 / 4096 = u := by
      rw [maskFlags_eq] at hu
      omega
    have hlen' : (p ++ [i]).length = p.length + 1 := List.length_append
    rw [FindsGranting, hgrant]
    generalize ensureEntry s (4096 * t) i permissions = e at *
    exact and_congr_right fun _ =>
      ih (hens.layout_eq ▸ hwf) hens.forest (by omega) hens.walk_eq hens.free_le

/-! ### The last entry -/

/-- A walk that finds `e` in slot `x` and the permissions in all the other entries it passes. -/
def Redirected (m : Mem) (x : ℕ × Fin 512) (e permissions : ℕ) : ℕ → List (Fin 512) → Prop
  | _, [] => True
  | t, i :: p =>
    if (t, i) = x then Redirected m x e permissions (e / 4096) p
    else Contains (entry m t i) permissions ∧ Redirected m x e permissions (entry m t i / 4096) p

/-- The path of an address after an entry is written that contains the permissions. -/
theorem forall_mem_walkSlots_writeEntry {k : Fin 512} {e : ℕ} (he : e < 2 ^ 64)
    (hcontains : Contains e permissions) :
    (∀ y ∈ walkSlots (writeEntry m (4096 * u) k e) t p,
      Contains (entry (writeEntry m (4096 * u) k e) y.1 y.2) permissions) ↔
      Redirected m (u, k) e permissions t p := by
  induction p generalizing t with
  | nil => exact iff_of_true (fun y hy => absurd hy List.not_mem_nil) trivial
  | cons i p ih =>
    rw [walkSlots, List.forall_mem_cons, Redirected, ih, entry_writeEntry he]
    by_cases hx : t = u ∧ i = k
    · rw [if_pos hx, if_pos (Prod.ext hx.1 hx.2)]
      exact and_iff_right hcontains
    · rw [if_neg hx, if_neg fun h => hx (Prod.mk.inj h)]

/-- If the entry is the last one of the path, and no other, those on the way to it count. -/
theorem redirected_of_notMem {k : Fin 512} {e : ℕ} (hend : walkEnd m t p = u)
    (hx : (u, k) ∉ walkSlots m t p) :
    Redirected m (u, k) e permissions t (p ++ [k]) ↔
      ∀ y ∈ walkSlots m t p, Contains (entry m y.1 y.2) permissions := by
  induction p generalizing t with
  | nil =>
    obtain rfl : t = u := hend
    rw [List.nil_append, Redirected, if_pos rfl]
    exact iff_of_true trivial fun y hy => absurd hy List.not_mem_nil
  | cons i p ih =>
    rw [walkSlots, List.mem_cons, not_or] at hx
    rw [List.cons_append, Redirected, if_neg (Ne.symm hx.1), walkSlots, List.forall_mem_cons,
      ih hend hx.2]

/-- **When `map_page` grants the permissions.** If the last entry it writes is not on the way to it,
the entries it went down through have to contain the permissions. It can only be on the way when
page `0` was taken for a table; then the path of the address goes on in the page at `a`. -/
def Grants (s : Phys) (root a v permissions : ℕ) : Prop :=
  let e := ensurePath permissions s root (tablePath v)
  if (e.1, ptIndex v) ∈ walkSlots e.2.mem root (tablePath v) then
    Redirected e.2.mem (e.1, ptIndex v) (a ||| permissions) permissions root
      (tablePath v ++ [ptIndex v])
  else FindsGranting permissions s root (tablePath v)

/-- **When `map_page` makes the permissions effective.** `map_page` writes permissions into the
entries it makes, and leaves those that it finds as they are: the four entries on the path of `v`
all have the permissions after the call exactly if those that it finds have them. With a free frame
for every table that is missing, these are the entries that were there before the call. -/
theorem contains_pathFlags_mapPage {s : State} {a : ℕ} (hwf : WellFormed (layout s.phys.regions))
    (hF : Forest s.phys.mem s.phys.regions roots) (hroot : root ∈ roots)
    (ha : a % 4096 = 0) (ha64 : a < 2 ^ 64) (hlt : permissions < 4096)
    (hpres : Present permissions) :
    (Contains (pathFlags (mapPage s (4096 * root) a v permissions).2.phys.mem root v)
      permissions ↔ Grants s.phys root a v permissions) ∧
    (missing s.phys.mem root (tablePath v) ≤ (freeFrames s.phys.regions).length →
      (Grants s.phys root a v permissions ↔
        Granting s.phys.mem permissions root (tablePath v))) := by
  have hgranting := fun hfree => findsGranting_iff_granting (p := []) (q := tablePath v) hwf hF
    hroot (Nat.le_refl 3) walk_nil hfree hlt hpres
  have hspec := fun hfree => ensureTables_spec (v := v) hwf hF hroot hfree hlt hpres
  obtain ⟨hfinds, hend, -⟩ := findsGranting_iff hwf
    (hF.settled hroot (p := []) (q := tablePath v) walk_nil (Nat.le_refl 3)) hlt hpres
  obtain ⟨hor, he⟩ := leaf_lt ha ha64 hlt
  have hcontains : Contains (a + permissions) permissions := by
    rw [← hor]
    exact contains_or a permissions
  have htables := @ensureTables_eq_ensurePath root v permissions s.phys
  rw [mapPage_phys_of_table (congrArg Prod.fst htables) ha ha64 hlt, Grants, htables]
  rw [htables] at hspec
  generalize ensurePath permissions s.phys root (tablePath v) = e at *
  dsimp only at hspec hend ⊢
  rw [contains_pathFlags hlt, pathSlots, forall_mem_walkSlots_writeEntry he hcontains, hor]
  refine ⟨?_, fun hfree => ?_⟩
  · split_ifs with hx
    · exact Iff.rfl
    · rw [redirected_of_notMem hend hx, hfinds]
  · -- the page table is not one of the tables on the way to it
    obtain ⟨pt, hpt, hext, hwalk, -⟩ := hspec hfree
    have hx : (e.1, ptIndex v) ∉ walkSlots e.2.mem root (tablePath v) := by
      intro hx
      obtain ⟨q, hq, hw⟩ := exists_walk_of_mem_walkSlots hwalk hx
      exact hext.forest.ne_pageTable hroot rfl hwalk hroot hq hw (by dsimp only; omega)
    rw [if_neg hx]
    exact hgranting hfree

/-- The page next to it, mapped for the kernel as well. -/
theorem contains_pathFlags_mapPage_kernelState :
    Contains (pathFlags (mapPage kernelState (4096 * 0) 0x8000 0x401000 3).2.phys.mem 0 0x401000)
      3 := by
  have hfree : missing kernelState.phys.mem 0 (tablePath 0x401000) = 0 := by decide +kernel
  obtain ⟨hiff, hgrants⟩ := @contains_pathFlags_mapPage {0} 0 0x401000 3 kernelState 0x8000
    forest_kernelState.1 forest_kernelState.2 (Set.mem_singleton 0) (by decide) (by decide)
    (by decide) (by decide)
  refine hiff.mpr ((hgrants (hfree ▸ Nat.zero_le _)).mpr ?_)
  decide +kernel

/-- **The page next to it, mapped for a program, is not granted to it**: the three entries above
its own do not have the bit that grants the access to programs. -/
theorem not_contains_pathFlags_mapPage :
    WellFormed (layout kernelState.phys.regions) ∧
      Forest kernelState.phys.mem kernelState.phys.regions {0} ∧
      missing kernelState.phys.mem 0 (tablePath 0x401000) = 0 ∧
      ¬Contains (pathFlags (mapPage kernelState (4096 * 0) 0x8000 0x401000 7).2.phys.mem 0
        0x401000) 7 := by
  refine ⟨forest_kernelState.1, forest_kernelState.2, ?_, ?_⟩ <;> decide +kernel

end Paging

end WillowOS
