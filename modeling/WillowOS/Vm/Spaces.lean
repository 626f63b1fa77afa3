import WillowOS.Paging.MapPage
import WillowOS.Vm.Basic
import Mathlib.Data.Set.Basic

/-!
# Address spaces

The roots of the page tables of the programs share the upper half of their first level, where
the kernel is, and nothing else. What the kernel has there need not be a forest of tables – the
direct map is made of huge pages –, so that only the lower halves are looked at: a root is read
as if its upper half were clear (`WillowOS.Vm.userHalf`).

In a state of the address spaces (`WillowOS.Vm.Spaces`) every table of a lower half is reached
by one path from one root, is in a frame that is not free and that the direct map reaches, and
no page is mapped onto a table, onto a free frame, or onto one of a given set of frames, which
are those of the kernel. Then what `map_page` and `unmap_page` do to a lower half is to change
the entry of one page: that is **`WillowOS.Vm.Spaces.writeLeaf`**, after the steps of
`map_page` that link tables have changed no entry at all (`WillowOS.Vm.Spaces.ensureTables`).
All of them write to tables and to frames that were free (`WillowOS.Vm.Changes`), and a page
that is written through its mapping is neither (`WillowOS.Vm.Spaces.congr`).
-/

namespace WillowOS

namespace Vm

open Paging

open Frames hiding State

/-! ### The lower half of the roots -/

open Classical in
/-- The memory, with the upper halves of the roots cleared. -/
noncomputable def userHalf (roots : Set ℕ) (m : Mem) : Mem :=
  fun x => if x / 4096 ∈ roots ∧ 2048 ≤ x % 4096 then 0 else m x

variable {roots K : Set ℕ} {m m' : Mem} {s s' s'' : Phys} {root r t u f e v w x n k permissions : ℕ}
  {i j : Fin 512} {p q : List (Fin 512)}

theorem userHalf_of_upper (h : x / 4096 ∈ roots ∧ 2048 ≤ x % 4096) : userHalf roots m x = 0 :=
  if_pos h

theorem userHalf_of_lower (h : x / 4096 ∈ roots → x % 4096 < 2048) : userHalf roots m x = m x :=
  if_neg fun hx => (h hx.1).not_ge hx.2

/-- The addresses of the lower half. -/
theorem pml4Index_lt (hv : v < 2 ^ 47) : (pml4Index v).val < 256 := by
  show v / 2 ^ 39 % 512 < 256
  omega

theorem entry_userHalf (h : t ∈ roots → i.val < 256) :
    entry (userHalf roots m) t i = entry m t i := by
  refine Mem.readLE_congr fun x h1 h2 => userHalf_of_lower fun hx => ?_
  rw [show x / 4096 = t by omega] at hx
  have := h hx
  omega

theorem entry_userHalf_of_upper (ht : t ∈ roots) (hi : 256 ≤ i.val) :
    entry (userHalf roots m) t i = 0 := by
  have hzero : entry (userHalf roots m) t i = Mem.read64 (fun _ => 0) (4096 * t + 8 * i) := by
    refine Mem.readLE_congr fun x h1 h2 => userHalf_of_upper ?_
    rw [show x / 4096 = t by omega]
    exact ⟨ht, by omega⟩
  rw [hzero, Mem.read64_zero]

/-- A slot of a lower half is left by addresses of the lower half. -/
theorem lt_of_present (h : Present (entry (userHalf roots m) t i)) : t ∈ roots → i.val < 256 := by
  intro ht
  by_contra hi
  rw [entry_userHalf_of_upper ht (by omega)] at h
  exact absurd h (by decide)

/-- An entry of a lower half is written there. -/
theorem userHalf_writeEntry (h : t ∈ roots → i.val < 256) :
    userHalf roots (writeEntry m (4096 * t) i e) =
      writeEntry (userHalf roots m) (4096 * t) i e := by
  funext x
  by_cases hx : x / 4096 ∈ roots ∧ 2048 ≤ x % 4096
  · have hout : ¬(4096 * t + 8 * i.val ≤ x ∧ x < 4096 * t + 8 * i.val + 8) := by
      rintro ⟨h1, h2⟩
      rw [show x / 4096 = t by omega] at hx
      have := h hx.1
      omega
    rw [userHalf_of_upper hx]
    exact ((if_neg hout).trans (userHalf_of_upper hx)).symm
  · have hlow : x / 4096 ∈ roots → x % 4096 < 2048 := fun hr => not_le.mp fun hle => hx ⟨hr, hle⟩
    rw [userHalf_of_lower hlow]
    show (if _ then _ else m x) = if _ then _ else userHalf roots m x
    rw [userHalf_of_lower hlow]

/-- A frame that is no root is cleared. -/
theorem userHalf_memset (h : f ∉ roots) :
    userHalf roots (m.memset (4096 * f) 0 4096) = (userHalf roots m).memset (4096 * f) 0 4096 := by
  funext x
  by_cases hx : x / 4096 ∈ roots ∧ 2048 ≤ x % 4096
  · have hout : ¬(4096 * f ≤ x ∧ x < 4096 * f + 4096) := by
      rintro ⟨h1, h2⟩
      rw [show x / 4096 = f by omega] at hx
      exact h hx.1
    rw [userHalf_of_upper hx, Mem.memset_of_notMem hout, userHalf_of_upper hx]
  · have hlow : x / 4096 ∈ roots → x % 4096 < 2048 := fun hr => not_le.mp fun hle => hx ⟨hr, hle⟩
    rw [userHalf_of_lower hlow]
    show (if _ then _ else m x) = if _ then _ else userHalf roots m x
    rw [userHalf_of_lower hlow]

/-- A table is linked into a lower half. -/
theorem userHalf_linkFrame (h : t ∈ roots → i.val < 256) (hf : f ∉ roots) :
    userHalf roots (linkFrame m t i f permissions) =
      linkFrame (userHalf roots m) t i f permissions := by
  rw [linkFrame, userHalf_writeEntry h, userHalf_memset hf, linkFrame]

/-- What is written when an entry is, and when a table is linked. -/
theorem writeEntry_of_notMem (h : ¬(4096 * t + 8 * i.val ≤ x ∧ x < 4096 * t + 8 * i.val + 8)) :
    writeEntry m (4096 * t) i e x = m x :=
  if_neg h

theorem linkFrame_of_notMem (h : ¬(4096 * t + 8 * i.val ≤ x ∧ x < 4096 * t + 8 * i.val + 8))
    (hf : x / 4096 ≠ f) : linkFrame m t i f permissions x = m x := by
  rw [linkFrame, writeEntry_of_notMem h, Mem.memset_of_notMem (by omega)]

/-- A frame with a table of a lower half. -/
def IsTable (roots : Set ℕ) (m : Mem) (t : ℕ) : Prop :=
  ∃ r ∈ roots, ∃ p : List (Fin 512), p.length ≤ 3 ∧ walk (next (userHalf roots m)) r p = some t

/-- The frames of the tables, and those in which tables may be put. -/
def Reserved (roots : Set ℕ) (s : Phys) : Set ℕ :=
  {t | 4096 * t ∈ freeFrames s.regions ∨ IsTable roots s.mem t}

/-- A frame a page may be mapped onto; the frames of `K` are those of the kernel. -/
def Spare (roots K : Set ℕ) (s : Phys) (f : ℕ) : Prop := f ∉ Reserved roots s ∧ f ∉ K

/-- **The address spaces of a set of roots**, the frames of `K` being those of the kernel. -/
structure Spaces (roots K : Set ℕ) (s : Phys) : Prop where
  wellFormed : WellFormed (layout s.regions)
  /-- The direct map reaches all usable frames. -/
  usable_le : ∀ a ∈ usableFrames (layout s.regions), a + 4096 ≤ 2 ^ 47
  table_free : ∀ t, IsTable roots s.mem t → 4096 * t ∉ freeFrames s.regions
  table_le : ∀ t, IsTable roots s.mem t → 4096 * t + 4096 ≤ 2 ^ 47
  /-- A table is reached by one path. -/
  unique : ∀ r ∈ roots, ∀ r' ∈ roots, ∀ p p' : List (Fin 512), ∀ t, p.length ≤ 3 → p'.length ≤ 3 →
    walk (next (userHalf roots s.mem)) r p = some t →
    walk (next (userHalf roots s.mem)) r' p' = some t → r = r' ∧ p = p'
  noHugePage : NoHugePage (userHalf roots s.mem) roots
  leaf_spare : ∀ r ∈ roots, ∀ w e, leaf (userHalf roots s.mem) r w = some e →
    Spare roots K s (frameNumber e)
  kernel_reserved : ∀ k ∈ K, k ∉ Reserved roots s
  kernel_le : ∀ k ∈ K, 4096 * k + 4096 ≤ 2 ^ 47

/-- **What is done to the tables**: at most `n` free frames are taken, nothing but tables and
free frames is written, and nothing in the upper halves of the roots, and all tables stay where
they are. -/
structure Changes (roots : Set ℕ) (n : ℕ) (s s' : Phys) : Prop where
  layout_eq : layout s'.regions = layout s.regions
  free_eq : ∃ l, l.length ≤ n ∧ freeFrames s.regions = l ++ freeFrames s'.regions
  reserved : Reserved roots s' ⊆ Reserved roots s
  kept : ∀ x, x / 4096 ∉ Reserved roots s ∨ x / 4096 ∈ roots ∧ 2048 ≤ x % 4096 →
    s'.mem x = s.mem x
  walk_of : ∀ r ∈ roots, ∀ p : List (Fin 512), ∀ t, p.length ≤ 3 →
    walk (next (userHalf roots s.mem)) r p = some t →
    walk (next (userHalf roots s'.mem)) r p = some t

theorem Changes.refl : Changes roots n s s where
  layout_eq := rfl
  free_eq := ⟨[], Nat.zero_le n, rfl⟩
  reserved := subset_rfl
  kept := fun _ _ => rfl
  walk_of := fun _ _ _ _ _ hw => hw

theorem Changes.trans (h : Changes roots n s s') (h' : Changes roots k s' s'') :
    Changes roots (n + k) s s'' where
  layout_eq := h'.layout_eq.trans h.layout_eq
  free_eq := by
    obtain ⟨l, hl, heq⟩ := h.free_eq
    obtain ⟨l', hl', heq'⟩ := h'.free_eq
    refine ⟨l ++ l', ?_, by rw [heq, heq', List.append_assoc]⟩
    rw [List.length_append]
    omega
  reserved := h'.reserved.trans h.reserved
  kept := by
    intro x hx
    exact (h'.kept x (hx.imp_left fun hout hin => hout (h.reserved hin))).trans (h.kept x hx)
  walk_of := fun r hr p t hp hw => h'.walk_of r hr p t hp (h.walk_of r hr p t hp hw)

/-- The frames that are still free. -/
theorem Changes.free_le (h : Changes roots n s s') :
    (freeFrames s.regions).length ≤ n + (freeFrames s'.regions).length := by
  obtain ⟨l, hl, heq⟩ := h.free_eq
  rw [heq, List.length_append]
  omega

theorem Changes.mem_free (h : Changes roots n s s') {a : ℕ} (ha : a ∈ freeFrames s'.regions) :
    a ∈ freeFrames s.regions := by
  obtain ⟨l, -, heq⟩ := h.free_eq
  rw [heq]
  exact List.mem_append_right l ha

namespace Spaces

variable (h : Spaces roots K s)
include h

theorem forest : Forest (userHalf roots s.mem) s.regions roots where
  frame := by
    intro r hr p t hp hw
    have ht : IsTable roots s.mem t := ⟨r, hr, p, hp, hw⟩
    have := h.table_le t ht
    exact ⟨h.table_free t ht, by omega⟩
  distinct := fun r hr r' hr' p p' t hp hp' hw hw' =>
    Or.inl (h.unique r hr r' hr' p p' t hp hp' hw hw')

/-- Below the first level there are no roots. -/
theorem slot_lt (hr : r ∈ roots) (hp : p.length ≤ 3)
    (hw : walk (next (userHalf roots s.mem)) r p = some t) (hi : p = [] → i.val < 256) :
    t ∈ roots → i.val < 256 := by
  intro ht
  exact hi (h.forest.eq_root hr ht hp hw).2

/-- A walk goes on by an entry that is present. -/
theorem walk_concat_of_present (hr : r ∈ roots) (hp : p.length ≤ 3) (hi : p = [] → i.val < 256)
    (hw : walk (next (userHalf roots s.mem)) r p = some t) (he : Present (entry s.mem t i)) :
    walk (next (userHalf roots s.mem)) r (p ++ [i]) = some (entry s.mem t i / 4096) := by
  rw [← entry_userHalf (h.slot_lt hr hp hw hi)] at he ⊢
  exact walk_concat_eq_some.mpr ⟨t, hw, next_eq_some.mpr ⟨he, rfl⟩⟩

/-- And by no other. -/
theorem walk_concat_of_not_present (hr : r ∈ roots) (hp : p.length ≤ 3)
    (hi : p = [] → i.val < 256) (hw : walk (next (userHalf roots s.mem)) r p = some t)
    (he : ¬Present (entry s.mem t i)) :
    walk (next (userHalf roots s.mem)) r (p ++ [i]) = none := by
  rw [← entry_userHalf (h.slot_lt hr hp hw hi)] at he
  rw [walk_concat, hw, Option.bind_some]
  exact next_eq_none.mpr he

/-- A free frame is no root. -/
theorem notMem_roots_of_free (hf : 4096 * f ∈ freeFrames s.regions) : f ∉ roots :=
  fun hr => h.forest.root_ne hr hf rfl

theorem free_le {a : ℕ} (ha : a ∈ freeFrames s.regions) : ∃ f, a = 4096 * f ∧
    4096 * f + 4096 ≤ 2 ^ 47 := by
  obtain ⟨f, rfl, -⟩ := exists_frame h.wellFormed ha
  exact ⟨f, rfl, h.usable_le _ (usableFrames_of_mem_freeFrames ha)⟩

/-! ### Changes outside the tables -/

omit h in
/-- Walks depend on the tables only. -/
theorem walk_congr_tables (hm : ∀ x, IsTable roots m (x / 4096) → m' x = m x) (hr : r ∈ roots)
    (hp : p.length ≤ 3) :
    walk (next (userHalf roots m')) r p = walk (next (userHalf roots m)) r p := by
  refine walk_congr fun q u hq hw => funext fun i => ?_
  have hu : IsTable roots m u := ⟨r, hr, q, by omega, hw⟩
  rw [next, next, entry_congr fun x hx => ?_]
  rw [userHalf, userHalf, hm x (hx ▸ hu)]

omit h in
theorem leaf_congr_tables (hm : ∀ x, IsTable roots m (x / 4096) → m' x = m x) (hr : r ∈ roots) :
    leaf (userHalf roots m') r w = leaf (userHalf roots m) r w := by
  rw [leaf, walk_congr_tables hm hr le_rfl, leaf]
  rcases hw : walk (next (userHalf roots m)) r (tablePath w) with _ | pt
  · rw [Option.bind_none, Option.bind_none]
  · have hpt : IsTable roots m pt := ⟨r, hr, _, le_rfl, hw⟩
    rw [Option.bind_some, Option.bind_some, entry_congr fun x hx => ?_]
    rw [userHalf, userHalf, hm x (hx ▸ hpt)]

omit h in
theorem isTable_congr (hm : ∀ x, IsTable roots m (x / 4096) → m' x = m x) :
    IsTable roots m' t ↔ IsTable roots m t := by
  constructor
  · rintro ⟨r, hr, p, hp, hw⟩
    exact ⟨r, hr, p, hp, (walk_congr_tables hm hr hp).symm.trans hw⟩
  · rintro ⟨r, hr, p, hp, hw⟩
    exact ⟨r, hr, p, hp, (walk_congr_tables hm hr hp).trans hw⟩

/-- **What is written outside the tables**, with fewer frames free. -/
theorem congr (hlay : layout s'.regions = layout s.regions)
    (hfree : ∀ a ∈ freeFrames s'.regions, a ∈ freeFrames s.regions)
    (hm : ∀ x, IsTable roots s.mem (x / 4096) → s'.mem x = s.mem x) : Spaces roots K s' := by
  have hres : Reserved roots s' ⊆ Reserved roots s :=
    fun t ht => ht.imp (hfree _) (isTable_congr hm).mp
  refine ⟨hlay ▸ h.wellFormed, hlay ▸ h.usable_le, fun t ht => ?_, fun t ht => ?_, ?_, ?_, ?_, ?_,
    h.kernel_le⟩
  · exact fun hf => h.table_free t ((isTable_congr hm).mp ht) (hfree _ hf)
  · exact h.table_le t ((isTable_congr hm).mp ht)
  · intro r hr r' hr' p p' t hp hp' hw hw'
    rw [walk_congr_tables hm hr hp] at hw
    rw [walk_congr_tables hm hr' hp'] at hw'
    exact h.unique r hr r' hr' p p' t hp hp' hw hw'
  · intro r hr p t hp hw i hi
    have hp3 : p.length ≤ 3 := by omega
    rw [walk_congr_tables hm hr hp3] at hw
    have ht : IsTable roots s.mem t := ⟨r, hr, p, hp3, hw⟩
    have he : entry (userHalf roots s'.mem) t i = entry (userHalf roots s.mem) t i :=
      entry_congr fun x hx => by rw [userHalf, userHalf, hm x (hx ▸ ht)]
    rw [he] at hi ⊢
    exact h.noHugePage r hr p t hp hw i hi
  · intro r hr w e hw
    rw [leaf_congr_tables hm hr] at hw
    obtain ⟨h1, h2⟩ := h.leaf_spare r hr w e hw
    exact ⟨fun hin => h1 (hres hin), h2⟩
  · exact fun k hk hin => h.kernel_reserved k hk (hres hin)

/-! ### Linking tables -/

end Spaces

/-- The address spaces after tables were added to them. -/
structure Grown (roots K : Set ℕ) (n : ℕ) (s s' : Phys) : Prop extends Changes roots n s s' where
  spaces : Spaces roots K s'
  leaf_eq : ∀ r ∈ roots, ∀ w, leaf (userHalf roots s'.mem) r w = leaf (userHalf roots s.mem) r w

theorem Grown.refl (h : Spaces roots K s) : Grown roots K n s s :=
  ⟨Changes.refl, h, fun _ _ _ => rfl⟩

theorem Grown.trans (h : Grown roots K n s s') (h' : Grown roots K k s' s'') :
    Grown roots K (n + k) s s'' :=
  ⟨h.toChanges.trans h'.toChanges, h'.spaces,
    fun r hr w => (h'.leaf_eq r hr w).trans (h.leaf_eq r hr w)⟩

/-- The situation in which `map_page` links a table: the slot `i` of the table `t` of a lower
half is empty, and `f` is the first free frame. -/
structure UserLink (roots K : Set ℕ) (s : Phys) (rs' : List Region) (root : ℕ)
    (p : List (Fin 512)) (t : ℕ) (i : Fin 512) (f permissions : ℕ) : Prop where
  spaces : Spaces roots K s
  root_mem : root ∈ roots
  length_lt : p.length < 3
  slot_lt : p = [] → i.val < 256
  walk_eq : walk (next (userHalf roots s.mem)) root p = some t
  slot : ¬Present (entry s.mem t i)
  free_eq : freeFrames s.regions = 4096 * f :: freeFrames rs'
  layout_eq : layout rs' = layout s.regions
  permissions_lt : permissions < 4096
  permissions_present : Present permissions
  permissions_bit : permissions / 128 % 2 = 0

namespace UserLink

variable {rs' : List Region} (h : UserLink roots K s rs' root p t i f permissions)
include h

theorem free : 4096 * f ∈ freeFrames s.regions := h.free_eq ▸ List.mem_cons_self

theorem frame_le : 4096 * f + 4096 ≤ 2 ^ 47 :=
  h.spaces.usable_le _ (usableFrames_of_mem_freeFrames h.free)

theorem mem_free {a : ℕ} (ha : a ∈ freeFrames rs') : a ∈ freeFrames s.regions :=
  h.free_eq ▸ List.mem_cons_of_mem _ ha

theorem frame_notMem : 4096 * f ∉ freeFrames rs' := by
  have := nodup_freeFrames h.spaces.wellFormed.sortedMap
  rw [h.free_eq] at this
  exact (List.nodup_cons.mp this).1

/-- The slot is one of a lower half. -/
theorem lower : t ∈ roots → i.val < 256 :=
  h.spaces.slot_lt h.root_mem h.length_lt.le h.walk_eq h.slot_lt

theorem linkable : Linkable (userHalf roots s.mem) s.regions roots root p t i f permissions where
  forest := h.spaces.forest
  root_mem := h.root_mem
  length_lt := h.length_lt
  walk_eq := h.walk_eq
  slot := by
    rw [entry_userHalf h.lower]
    exact h.slot
  free := h.free
  frame_le := h.frame_le.trans (by decide)
  permissions_lt := h.permissions_lt
  permissions_present := h.permissions_present

theorem userHalf_eq : userHalf roots (linkFrame s.mem t i f permissions) =
    linkFrame (userHalf roots s.mem) t i f permissions :=
  userHalf_linkFrame h.lower (h.spaces.notMem_roots_of_free h.free)

theorem leaf_eq (hr : r ∈ roots) :
    leaf (userHalf roots (linkFrame s.mem t i f permissions)) r w =
      leaf (userHalf roots s.mem) r w := by
  rw [h.userHalf_eq]
  exact h.linkable.leaf_link hr

/-- A table is an old one, or the new one. -/
theorem isTable (hu : IsTable roots (linkFrame s.mem t i f permissions) u) :
    IsTable roots s.mem u ∨ u = f := by
  obtain ⟨r, hr, q, hq, hw⟩ := hu
  rw [h.userHalf_eq] at hw
  rcases (h.linkable.walk_link hr hq).mp hw with hw | ⟨rfl, -⟩
  · exact Or.inl ⟨r, hr, q, hq, hw⟩
  · exact Or.inr rfl

theorem reserved :
    Reserved roots ⟨rs', linkFrame s.mem t i f permissions⟩ ⊆ Reserved roots s := by
  rintro x (hx | hx)
  · exact Or.inl (h.mem_free hx)
  · rcases h.isTable hx with hx | rfl
    · exact Or.inr hx
    · exact Or.inl h.free

/-- What is written is the frame, and a slot of a table. -/
theorem kept (hx : x / 4096 ∉ Reserved roots s ∨ x / 4096 ∈ roots ∧ 2048 ≤ x % 4096) :
    linkFrame s.mem t i f permissions x = s.mem x := by
  refine linkFrame_of_notMem ?_ ?_
  · rintro ⟨h1, h2⟩
    rw [show x / 4096 = t by omega] at hx
    rcases hx with hx | ⟨hx, hup⟩
    · exact hx (Or.inr ⟨root, h.root_mem, p, h.length_lt.le, h.walk_eq⟩)
    · have := h.lower hx
      omega
  · rintro rfl
    rcases hx with hx | ⟨hx, -⟩
    · exact hx (Or.inl h.free)
    · exact h.spaces.notMem_roots_of_free h.free hx

theorem unique {r' : ℕ} {q' : List (Fin 512)} (hr : r ∈ roots) (hr' : r' ∈ roots)
    (hq : q.length ≤ 3) (hq' : q'.length ≤ 3)
    (hw : walk (next (userHalf roots (linkFrame s.mem t i f permissions))) r q = some u)
    (hw' : walk (next (userHalf roots (linkFrame s.mem t i f permissions))) r' q' = some u) :
    r = r' ∧ q = q' := by
  have hF := h.spaces.forest
  rw [h.userHalf_eq, h.linkable.walk_link hr hq] at hw
  rw [h.userHalf_eq, h.linkable.walk_link hr' hq'] at hw'
  rcases hw with hw | ⟨rfl, q₁, rfl, hw⟩
  · rcases hw' with hw' | ⟨rfl, -⟩
    · exact h.spaces.unique r hr r' hr' q q' u hq hq' hw hw'
    · exact absurd hw (hF.walk_ne hr h.free hq)
  · rcases hw' with hw' | ⟨-, q₂, rfl, hw'⟩
    · exact absurd hw' (hF.walk_ne hr' h.free hq')
    · -- both end in the slot, so both lead to the table of the slot
      rw [List.length_append] at hq hq'
      obtain ⟨rfl, rfl⟩ := h.spaces.unique r hr r' hr' q₁ q₂ t (Nat.le_of_succ_le hq)
        (Nat.le_of_succ_le hq') hw hw'
      exact ⟨rfl, rfl⟩

/-- **Linking a table.** -/
theorem grown : Grown roots K 1 s ⟨rs', linkFrame s.mem t i f permissions⟩ where
  layout_eq := h.layout_eq
  free_eq := ⟨[4096 * f], le_rfl, h.free_eq⟩
  reserved := h.reserved
  kept := fun _ hx => h.kept hx
  walk_of := by
    intro r hr q u hq hw
    rw [h.userHalf_eq]
    exact (h.linkable.walk_link hr hq).mpr (Or.inl hw)
  leaf_eq := fun _ hr _ => h.leaf_eq hr
  spaces :=
    { wellFormed := h.layout_eq ▸ h.spaces.wellFormed
      usable_le := h.layout_eq ▸ h.spaces.usable_le
      table_free := by
        intro u hu hfree
        rcases h.isTable hu with hu | rfl
        · exact h.spaces.table_free u hu (h.mem_free hfree)
        · exact h.frame_notMem hfree
      table_le := by
        intro u hu
        rcases h.isTable hu with hu | rfl
        · exact h.spaces.table_le u hu
        · exact h.frame_le
      unique := fun _ hr _ hr' _ _ _ hq hq' hw hw' => h.unique hr hr' hq hq' hw hw'
      noHugePage := by
        rw [h.userHalf_eq, h.linkable.noHugePage_link]
        exact ⟨h.spaces.noHugePage, Or.inl h.permissions_bit⟩
      leaf_spare := by
        intro r hr w e hw
        obtain ⟨h1, h2⟩ := h.spaces.leaf_spare r hr w e ((h.leaf_eq hr).symm.trans hw)
        exact ⟨fun hin => h1 (h.reserved hin), h2⟩
      kernel_reserved := fun k hk hin => h.spaces.kernel_reserved k hk (h.reserved hin)
      kernel_le := h.spaces.kernel_le }

theorem walk_self :
    walk (next (userHalf roots (linkFrame s.mem t i f permissions))) root (p ++ [i]) = some f := by
  rw [h.userHalf_eq]
  exact h.linkable.walk_self

end UserLink

namespace Spaces

variable (h : Spaces roots K s)
include h

/-- **One of the steps of `map_page` down to the page table.** -/
theorem ensureEntry (hroot : root ∈ roots) (hp : p.length < 3) (hi : p = [] → i.val < 256)
    (hwalk : walk (next (userHalf roots s.mem)) root p = some t)
    (hfree : 1 ≤ (freeFrames s.regions).length) (hlt : permissions < 4096)
    (hpres : Present permissions) (hbit : permissions / 128 % 2 = 0) :
    ∃ u, maskFlags (Paging.ensureEntry s (4096 * t) i permissions).1 = 4096 * u ∧
      walk (next (userHalf roots (Paging.ensureEntry s (4096 * t) i permissions).2.mem)) root
        (p ++ [i]) = some u ∧
      Grown roots K 1 s (Paging.ensureEntry s (4096 * t) i permissions).2 := by
  by_cases hslot : Present (entry s.mem t i)
  · rw [ensureEntry_of_present hslot]
    exact ⟨entry s.mem t i / 4096, maskFlags_eq _,
      h.walk_concat_of_present hroot hp.le hi hwalk hslot, Grown.refl h⟩
  · rcases hcons : freeFrames s.regions with _ | ⟨a, fs⟩
    · rw [hcons] at hfree
      cases hfree
    obtain ⟨rs', halloc, rfl, hlay⟩ := allocFrame_of_cons hcons
    obtain ⟨f, rfl, -⟩ := h.free_le (a := a) (hcons ▸ List.mem_cons_self)
    have hlink : UserLink roots K s rs' root p t i f permissions :=
      ⟨h, hroot, hp, hi, hwalk, hslot, hcons, hlay, hlt, hpres, hbit⟩
    rw [ensureEntry_of_alloc hslot halloc]
    refine ⟨f, ?_, hlink.walk_self, hlink.grown⟩
    show maskFlags (4096 * f ||| permissions) = 4096 * f
    rw [or_permissions hlt, maskFlags]
    omega

/-- **The steps of `map_page` down to the page table**, with permissions that are no address. -/
theorem ensureTables (hroot : root ∈ roots) (hv : v < 2 ^ 47)
    (hfree : 3 ≤ (freeFrames s.regions).length) (hlt : permissions < 4096)
    (hpres : Present permissions) (hbit : permissions / 128 % 2 = 0) :
    mapPageReaches s (4096 * root) v permissions = true ∧
      ∃ pt, (Paging.ensureTables s (4096 * root) v permissions).1 = 4096 * pt ∧
        walk (next (userHalf roots (Paging.ensureTables s (4096 * root) v permissions).2.mem)) root
          (tablePath v) = some pt ∧
        Grown roots K 3 s (Paging.ensureTables s (4096 * root) v permissions).2 := by
  have hlow := pml4Index_lt hv
  obtain ⟨t₃, ht₃, hw₃, hg₃⟩ := h.ensureEntry (p := []) (i := pml4Index v) hroot (by simp)
    (fun _ => hlow) walk_nil (by omega) hlt hpres hbit
  have hfree₃ := hg₃.free_le
  obtain ⟨t₂, ht₂, hw₂, hg₂⟩ := hg₃.spaces.ensureEntry (i := pdptIndex v) hroot (by simp)
    (by simp) hw₃ (by omega) hlt hpres hbit
  have hfree₂ := hg₂.free_le
  obtain ⟨t₁, ht₁, hw₁, hg₁⟩ := hg₂.spaces.ensureEntry (i := pdIndex v) hroot (by simp)
    (by simp) hw₂ (by omega) hlt hpres hbit
  -- the direct map reaches the tables
  have hle : ∀ {s : Phys} {q : List (Fin 512)} {u : ℕ}, Spaces roots K s → q.length ≤ 3 →
      walk (next (userHalf roots s.mem)) root q = some u → directMapped (4096 * u) = true := by
    intro s q u hs hq hw
    have := hs.table_le u ⟨root, hroot, q, hq, hw⟩
    exact decide_eq_true (by omega)
  constructor
  · rw [mapPageReaches]
    simp only [ht₃, ht₂, ht₁]
    rw [hle hg₃.spaces (by simp) hw₃, hle hg₂.spaces (by simp) hw₂,
      hle hg₁.spaces (by simp) hw₁]
    rfl
  · rw [Paging.ensureTables]
    simp only [ht₃, ht₂, ht₁]
    exact ⟨t₁, rfl, hw₁, (hg₃.trans hg₂).trans hg₁⟩

omit h in
/-- With permissions beyond all tables, a new table is not reached. -/
theorem present_of_directMapped (hP : 2 ^ 47 ≤ permissions)
    (hd : directMapped (maskFlags (Paging.ensureEntry s (4096 * t) i permissions).1) = true) :
    Present (entry s.mem t i) := by
  by_contra hslot
  have hslot' : ¬Present (readEntry s.mem (4096 * t) i) := hslot
  rw [Paging.ensureEntry, if_neg hslot'] at hd
  have hor : permissions ≤ (allocFrame s).1 ||| permissions := Nat.right_le_or
  have hlt := of_decide_eq_true hd
  rw [maskFlags] at hlt
  dsimp only at hlt
  omega

omit h in
/-- **With such permissions** `map_page` comes back only if the tables are there. -/
theorem ensureTables_of_reaches (hP : 2 ^ 47 ≤ permissions)
    (hreach : mapPageReaches s (4096 * root) v permissions = true) :
    ∃ t₃ t₂ pt, next s.mem root (pml4Index v) = some t₃ ∧
      next s.mem t₃ (pdptIndex v) = some t₂ ∧ next s.mem t₂ (pdIndex v) = some pt ∧
      (4096 * t₃ < 2 ^ 47 ∧ 4096 * t₂ < 2 ^ 47 ∧ 4096 * pt < 2 ^ 47) ∧
      Paging.ensureTables s (4096 * root) v permissions = (4096 * pt, s) := by
  have hfound : ∀ {t : ℕ} {i : Fin 512}, Present (entry s.mem t i) →
      (Paging.ensureEntry s (4096 * t) i permissions).2 = s ∧
        maskFlags (Paging.ensureEntry s (4096 * t) i permissions).1 =
          4096 * (entry s.mem t i / 4096) := by
    intro t i hpres
    rw [ensureEntry_of_present hpres]
    exact ⟨rfl, maskFlags_eq _⟩
  rw [mapPageReaches] at hreach
  obtain ⟨hd, hd₂⟩ := (Bool.and_eq_true _ _).mp hreach
  obtain ⟨hd₄, hd₃⟩ := (Bool.and_eq_true _ _).mp hd
  have hp₄ := present_of_directMapped hP hd₄
  rw [(hfound hp₄).1, (hfound hp₄).2] at hd₃ hd₂
  have hp₃ := present_of_directMapped hP hd₃
  rw [(hfound hp₃).1, (hfound hp₃).2] at hd₂
  have hp₂ := present_of_directMapped hP hd₂
  rw [(hfound hp₄).2] at hd₄
  rw [(hfound hp₃).2] at hd₃
  rw [(hfound hp₂).2] at hd₂
  refine ⟨_, _, _, next_eq_some.mpr ⟨hp₄, rfl⟩, next_eq_some.mpr ⟨hp₃, rfl⟩,
    next_eq_some.mpr ⟨hp₂, rfl⟩,
    ⟨of_decide_eq_true hd₄, of_decide_eq_true hd₃, of_decide_eq_true hd₂⟩, ?_⟩
  rw [Paging.ensureTables, (hfound hp₄).1, (hfound hp₄).2, (hfound hp₃).1, (hfound hp₃).2,
    (hfound hp₂).1, (hfound hp₂).2]

theorem ensureTables_of_le (hroot : root ∈ roots) (hv : v < 2 ^ 47) (hP : 2 ^ 47 ≤ permissions)
    (hreach : mapPageReaches s (4096 * root) v permissions = true) :
    ∃ pt, Paging.ensureTables s (4096 * root) v permissions = (4096 * pt, s) ∧
      walk (next (userHalf roots s.mem)) root (tablePath v) = some pt := by
  obtain ⟨t₃, t₂, pt, h₃, h₂, h₁, -, heq⟩ := ensureTables_of_reaches hP hreach
  obtain ⟨hp₄, he₄⟩ := next_eq_some.mp h₃
  obtain ⟨hp₃, he₃⟩ := next_eq_some.mp h₂
  obtain ⟨hp₂, he₂⟩ := next_eq_some.mp h₁
  have hw₃ := h.walk_concat_of_present (p := []) hroot (by simp) (fun _ => pml4Index_lt hv)
    walk_nil hp₄
  rw [he₄] at hw₃
  have hw₂ := h.walk_concat_of_present hroot (by simp) (by simp) hw₃ hp₃
  rw [he₃] at hw₂
  have hw₁ := h.walk_concat_of_present hroot (by simp) (by simp) hw₂ hp₂
  rw [he₂] at hw₁
  exact ⟨pt, heq, hw₁⟩

/-! ### Writing the entry of a page -/

end Spaces

/-- **The entry of one page is set**, and no other entry is changed. -/
structure LeafSet (roots K : Set ℕ) (n root v : ℕ) (new : Option ℕ) (s s' : Phys) : Prop
    extends Changes roots n s s' where
  spaces : Spaces roots K s'
  leaf_eq : ∀ r ∈ roots, ∀ w, leaf (userHalf roots s'.mem) r w =
    if r = root ∧ pageNumber w = pageNumber v then new else leaf (userHalf roots s.mem) r w

theorem Grown.trans_leafSet {new : Option ℕ} (h : Grown roots K n s s')
    (h' : LeafSet roots K k root v new s' s'') : LeafSet roots K (n + k) root v new s s'' where
  toChanges := h.toChanges.trans h'.toChanges
  spaces := h'.spaces
  leaf_eq := fun r hr w => by rw [h'.leaf_eq r hr w, h.leaf_eq r hr w]

/-- A frame stays one a page may be mapped onto. -/
theorem Changes.spare (h : Changes roots n s s') (hf : Spare roots K s f) :
    Spare roots K s' f :=
  ⟨fun hin => hf.1 (h.reserved hin), hf.2⟩

namespace Spaces

variable (h : Spaces roots K s)
include h

section WriteLeaf

variable {pt : ℕ} (hroot : root ∈ roots)
  (hpt : walk (next (userHalf roots s.mem)) root (tablePath v) = some pt)
include hroot hpt

/-- A page table is not a root. -/
theorem notMem_roots_of_tablePath : pt ∉ roots := by
  intro hr
  cases (h.forest.eq_root hroot hr le_rfl hpt).2

theorem userHalf_writeLeaf : userHalf roots (writeEntry s.mem (4096 * pt) (ptIndex v) e) =
    writeEntry (userHalf roots s.mem) (4096 * pt) (ptIndex v) e :=
  userHalf_writeEntry fun hr => absurd hr (h.notMem_roots_of_tablePath hroot hpt)

/-- The tables stay. -/
theorem walk_writeLeaf (he : e < 2 ^ 64) (hr : r ∈ roots) (hp : p.length ≤ 3) :
    walk (next (userHalf roots (writeEntry s.mem (4096 * pt) (ptIndex v) e))) r p =
      walk (next (userHalf roots s.mem)) r p := by
  rw [h.userHalf_writeLeaf hroot hpt]
  exact h.forest.walk_leaf hroot rfl hpt he hr hp

/-- One page has another entry. -/
theorem leaf_writeLeaf (he : e < 2 ^ 64) (hr : r ∈ roots) (w : ℕ) :
    leaf (userHalf roots (writeEntry s.mem (4096 * pt) (ptIndex v) e)) r w =
      if r = root ∧ pageNumber w = pageNumber v then ifPresent e
      else leaf (userHalf roots s.mem) r w := by
  rw [h.userHalf_writeLeaf hroot hpt]
  split_ifs with hself
  · obtain ⟨rfl, hpage⟩ := hself
    obtain ⟨hpath, hidx⟩ := pageNumber_eq_iff.mp hpage
    rw [← hidx]
    exact h.forest.leaf_leaf_self hr (hpath ▸ hpt) he
  · refine h.forest.leaf_leaf hroot rfl hpt he hr fun hw hidx => hself ?_
    obtain ⟨rfl, hpath⟩ := h.unique r hr root hroot _ _ pt le_rfl le_rfl hw hpt
    exact ⟨rfl, pageNumber_eq_iff.mpr ⟨hpath, hidx⟩⟩

/-- **An entry of a page table is written.** -/
theorem writeLeaf (he : e < 2 ^ 64) (hspare : Present e → Spare roots K s (frameNumber e)) :
    LeafSet roots K 0 root v (ifPresent e) s
      ⟨s.regions, writeEntry s.mem (4096 * pt) (ptIndex v) e⟩ := by
  have hwalk : ∀ {r : ℕ} {q : List (Fin 512)}, r ∈ roots → q.length ≤ 3 →
      walk (next (userHalf roots (writeEntry s.mem (4096 * pt) (ptIndex v) e))) r q =
        walk (next (userHalf roots s.mem)) r q := h.walk_writeLeaf hroot hpt he
  have htable : ∀ {u : ℕ}, IsTable roots (writeEntry s.mem (4096 * pt) (ptIndex v) e) u →
      IsTable roots s.mem u := by
    rintro u ⟨r, hr, q, hq, hw⟩
    exact ⟨r, hr, q, hq, (hwalk hr hq).symm.trans hw⟩
  have hres : Reserved roots ⟨s.regions, writeEntry s.mem (4096 * pt) (ptIndex v) e⟩ ⊆
      Reserved roots s := fun u hu => hu.imp_right htable
  exact
    { layout_eq := rfl
      free_eq := ⟨[], le_rfl, rfl⟩
      reserved := hres
      kept := by
        intro x hx
        refine writeEntry_of_notMem fun hin => ?_
        rw [show x / 4096 = pt by omega] at hx
        rcases hx with hx | ⟨hx, -⟩
        · exact hx (Or.inr ⟨root, hroot, _, le_rfl, hpt⟩)
        · exact h.notMem_roots_of_tablePath hroot hpt hx
      walk_of := fun r hr q u hq hw => (hwalk hr hq).trans hw
      leaf_eq := fun r hr w => h.leaf_writeLeaf hroot hpt he hr w
      spaces :=
        { wellFormed := h.wellFormed
          usable_le := h.usable_le
          table_free := fun u hu => h.table_free u (htable hu)
          table_le := fun u hu => h.table_le u (htable hu)
          unique := fun r hr r' hr' q q' u hq hq' hw hw' =>
            h.unique r hr r' hr' q q' u hq hq' ((hwalk hr hq).symm.trans hw)
              ((hwalk hr' hq').symm.trans hw')
          noHugePage := by
            rw [h.userHalf_writeLeaf hroot hpt, h.forest.noHugePage_leaf hroot rfl hpt he]
            exact h.noHugePage
          leaf_spare := by
            intro r hr w e' hw
            rw [h.leaf_writeLeaf hroot hpt he hr w] at hw
            have hold : Spare roots K s (frameNumber e') := by
              split_ifs at hw
              · obtain ⟨hpres, rfl⟩ := ifPresent_eq_some.mp hw
                exact hspare hpres
              · exact h.leaf_spare r hr w e' hw
            exact ⟨fun hin => hold.1 (hres hin), hold.2⟩
          kernel_reserved := fun k hk hin => h.kernel_reserved k hk (hres hin)
          kernel_le := h.kernel_le } }

end WriteLeaf

/-! ### A frame for a page -/

/-- **`alloc_frame`**: no table is changed, and pages may be mapped onto the frame. -/
theorem allocFrame {a : ℕ} {fs : List ℕ} (hfree : freeFrames s.regions = 4096 * a :: fs) :
    (Frames.allocFrame s).1 = 4096 * a ∧ Grown roots K 1 s (Frames.allocFrame s).2 ∧
      freeFrames (Frames.allocFrame s).2.regions = fs ∧
      Spare roots K (Frames.allocFrame s).2 a ∧
      (Frames.allocFrame s).2.mem = s.mem.memset (4096 * a) 0 4096 := by
  obtain ⟨rs', halloc, rfl, hlay⟩ := allocFrame_of_cons hfree
  have ha : 4096 * a ∈ freeFrames s.regions := hfree ▸ List.mem_cons_self
  have hnodup : 4096 * a ∉ freeFrames rs' := by
    have := nodup_freeFrames h.wellFormed.sortedMap
    rw [hfree] at this
    exact (List.nodup_cons.mp this).1
  have hsub : ∀ b ∈ freeFrames rs', b ∈ freeFrames s.regions :=
    fun b hb => hfree ▸ List.mem_cons_of_mem _ hb
  have hout : ∀ {x : ℕ}, x / 4096 ≠ a → s.mem.memset (4096 * a) 0 4096 x = s.mem x :=
    fun hx => Mem.memset_of_notMem (by omega)
  have hm : ∀ x, IsTable roots s.mem (x / 4096) → s.mem.memset (4096 * a) 0 4096 x = s.mem x := by
    intro x hx
    refine hout ?_
    rintro rfl
    exact h.table_free _ hx ha
  have hres : Reserved roots ⟨rs', s.mem.memset (4096 * a) 0 4096⟩ ⊆ Reserved roots s :=
    fun t ht => ht.imp (hsub _) (isTable_congr hm).mp
  rw [halloc]
  refine ⟨rfl, ⟨⟨hlay, ⟨[4096 * a], le_rfl, hfree⟩, hres, fun x hx => hout ?_,
    fun r hr p t hp hw => (walk_congr_tables hm hr hp).trans hw⟩,
    h.congr hlay hsub hm, fun r hr w => leaf_congr_tables hm hr⟩, rfl, ⟨?_, ?_⟩, rfl⟩
  · rintro rfl
    rcases hx with hx | ⟨hx, -⟩
    · exact hx (Or.inl ha)
    · exact h.notMem_roots_of_free ha hx
  · rintro (hfr | ht)
    · exact hnodup hfr
    · exact h.table_free a ((isTable_congr hm).mp ht) ha
  · exact fun hk => h.kernel_reserved a hk (Or.inl ha)

end Spaces

/-! ### An empty lower half -/

/-- A root whose lower half is empty is alone. -/
theorem walk_of_empty (hr : r ∈ roots)
    (hempty : ∀ i : Fin 512, i.val < 256 → ¬Present (entry m r i))
    (h : walk (next (userHalf roots m)) r p = some t) : p = [] ∧ r = t := by
  cases p with
  | nil => exact ⟨rfl, Option.some.inj h⟩
  | cons i p =>
    have he := Forest.present_of_walk_cons h
    rw [entry_userHalf (lt_of_present he)] at he
    exact absurd he (hempty i (lt_of_present (Forest.present_of_walk_cons h) hr))

/-- **The address space of one root whose lower half is empty.** -/
theorem spaces_of_empty (hwf : WellFormed (layout s.regions))
    (husable : ∀ a ∈ usableFrames (layout s.regions), a + 4096 ≤ 2 ^ 47)
    (hfree : 4096 * root ∉ freeFrames s.regions) (hle : 4096 * root + 4096 ≤ 2 ^ 47)
    (hempty : ∀ i : Fin 512, i.val < 256 → ¬Present (entry s.mem root i))
    (hK : ∀ k ∈ K, k ≠ root ∧ 4096 * k ∉ freeFrames s.regions ∧ 4096 * k + 4096 ≤ 2 ^ 47) :
    Spaces {root} K s := by
  have hwalk : ∀ {r t : ℕ} {p : List (Fin 512)}, r ∈ ({root} : Set ℕ) →
      walk (next (userHalf {root} s.mem)) r p = some t → p = [] ∧ r = t := by
    rintro r t p rfl hw
    exact walk_of_empty (Set.mem_singleton r) hempty hw
  have htable : ∀ t, IsTable {root} s.mem t → t = root := by
    rintro t ⟨r, rfl, p, -, hw⟩
    exact (hwalk (Set.mem_singleton r) hw).2.symm
  refine ⟨hwf, husable, fun t ht => ?_, fun t ht => ?_, ?_, ?_, ?_, ?_, fun k hk => (hK k hk).2.2⟩
  · rwa [htable t ht]
  · rwa [htable t ht]
  · rintro r hr r' hr' p p' t - - hw hw'
    rw [Set.mem_singleton_iff] at hr hr'
    exact ⟨hr.trans hr'.symm, (hwalk hr hw).1.trans (hwalk hr' hw').1.symm⟩
  · intro r hr p t hp hw
    rw [(hwalk hr hw).1] at hp
    simp at hp
  · intro r hr w e hleaf
    obtain ⟨pt, hw, -⟩ := Option.bind_eq_some_iff.mp hleaf
    exact absurd (hwalk hr hw).1 (List.cons_ne_nil _ _)
  · rintro k hk (hf | ht)
    · exact (hK k hk).2.1 hf
    · exact (hK k hk).1 (htable k ht)

/-- No address space at all. -/
theorem spaces_noRoot (hwf : WellFormed (layout s.regions))
    (husable : ∀ a ∈ usableFrames (layout s.regions), a + 4096 ≤ 2 ^ 47) : Spaces ∅ ∅ s := by
  have hno : ∀ r : ℕ, r ∉ (∅ : Set ℕ) := Set.notMem_empty
  have htable : ∀ t, ¬IsTable ∅ s.mem t := by
    rintro t ⟨r, hr, -⟩
    exact hno r hr
  exact ⟨hwf, husable, fun t ht => absurd ht (htable t), fun t ht => absurd ht (htable t),
    fun r hr => absurd hr (hno r), fun r hr => absurd hr (hno r), fun r hr => absurd hr (hno r),
    fun k hk => absurd hk (hno k), fun k hk => absurd hk (hno k)⟩

/-- A map with sixteen usable frames. -/
def smallMap : List MemmapEntry := [⟨0x10000, 0x10000, 0⟩]

theorem wellFormed_smallMap : WellFormed smallMap where
  ne_nil := List.cons_ne_nil _ _
  length_le := by decide
  sorted := List.pairwise_singleton _ _
  disjoint := List.pairwise_singleton _ _
  aligned := by decide
  length_lt := by decide
  end_lt := by decide
  type_lt := by decide

end Vm

end WillowOS
