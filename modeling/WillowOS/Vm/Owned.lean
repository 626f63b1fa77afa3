import WillowOS.Vm.Calls

/-!
# Address spaces that come and go

Address spaces whose pages are on frames of their own (`WillowOS.Vm.Owned`), as far as the frames
are of the memory that is handed out. The pages that the kernel maps are on such frames, and
whatever is done to the pages of one root keeps those of the others (`WillowOS.Vm.Kept`).

Here are the steps in which frames come back. The frame of a page may be freed with the page
(`WillowOS.Vm.Owned.freeFrame`). The frame of a root may be freed, and then the address space is
gone (`WillowOS.Vm.Owned.eraseRoot`); its other tables are neither free nor used any more. And a
new root is a frame whose lower half is clear (`WillowOS.Vm.Owned.insertRoot`).
-/

namespace WillowOS

namespace Vm

open Paging

open Frames hiding State

variable {roots K : Set ℕ} {m m' : Mem} {s s' s'' : Phys} {root r a v w f permissions : ℕ}
  {p : List (Fin 512)}

/-- **Address spaces whose pages are on frames of their own.** -/
structure Owned (roots K : Set ℕ) (s : Phys) : Prop extends Spaces roots K s where
  own : ∀ r ∈ roots, ∀ r' ∈ roots, ∀ w w' e e', leaf (userHalf roots s.mem) r w = some e →
    leaf (userHalf roots s.mem) r' w' = some e' → frameNumber e = frameNumber e' →
    4096 * frameNumber e ∈ usableFrames (layout s.regions) → r = r' ∧ pageNumber w = pageNumber w'

/-- **What is done to the pages of one root**: the other address spaces are as they were, and the
tables of this one are still there. -/
structure Kept (roots K : Set ℕ) (root : ℕ) (s s' : Phys) : Prop where
  owned : Owned roots K s'
  layout_eq : layout s'.regions = layout s.regions
  leaf_other : ∀ r ∈ roots, r ≠ root → ∀ w,
    leaf (userHalf roots s'.mem) r w = leaf (userHalf roots s.mem) r w
  walk_of : ∀ p t, p.length ≤ 3 → walk (next (userHalf roots s.mem)) root p = some t →
    walk (next (userHalf roots s'.mem)) root p = some t

theorem Kept.refl (h : Owned roots K s) : Kept roots K root s s :=
  ⟨h, rfl, fun _ _ _ _ => rfl, fun _ _ _ hw => hw⟩

theorem Kept.trans (h : Kept roots K root s s') (h' : Kept roots K root s' s'') :
    Kept roots K root s s'' where
  owned := h'.owned
  layout_eq := h'.layout_eq.trans h.layout_eq
  leaf_other := fun r hr hne w => (h'.leaf_other r hr hne w).trans (h.leaf_other r hr hne w)
  walk_of := fun p t hp hw => h'.walk_of p t hp (h.walk_of p t hp hw)

/-! ### Pages -/

namespace Owned

/-- Usable frames are far from the last one the hardware knows. -/
theorem frameNumber_eq (h : Owned roots K s) (ha : 4096 * a + 4096 ≤ 2 ^ 47)
    (hP : Grants permissions)
    (hu : 4096 * frameNumber (4096 * a ||| permissions) ∈ usableFrames (layout s.regions)) :
    frameNumber (4096 * a ||| permissions) = a := by
  obtain ⟨-, -, ⟨hP, -⟩ | rfl⟩ := hP
  · exact frameNumber_or (by omega) hP
  · have := h.usable_le _ hu
    rw [frameNumber_or_max (by omega)] at this
    omega

/-- **A page is mapped onto a free frame.** -/
theorem frameMapped (h : Owned roots K s) (hroot : root ∈ roots) (hP : Grants permissions)
    (hM : FrameMapped roots K root v permissions s s' a) : Kept roots K root s s' := by
  have hle := h.usable_le _ (usableFrames_of_mem_freeFrames hM.free_mem)
  -- no other page is on the frame, which was free
  have hnew : ∀ r ∈ roots, ∀ w e, leaf (userHalf roots s.mem) r w = some e →
      frameNumber e = frameNumber (4096 * a ||| permissions) →
      4096 * frameNumber e ∈ usableFrames (layout s.regions) → False := by
    intro r hr w e he heq hu
    have ha := h.frameNumber_eq hle hP (heq ▸ hu)
    refine (h.leaf_spare r hr w e he).1 (Or.inl ?_)
    rw [heq, ha]
    exact hM.free_mem
  refine ⟨⟨hM.spaces, fun r hr r' hr' w w' e e' he he' heq hu => ?_⟩, hM.layout_eq,
    fun r hr hne w => ?_, fun p t hp hw => hM.walk_of root hroot p t hp hw⟩
  · rw [hM.layout_eq] at hu
    rw [hM.leaf_eq r hr] at he
    rw [hM.leaf_eq r' hr'] at he'
    split_ifs at he he' with hv hv' hv'
    · exact ⟨hv.1.trans hv'.1.symm, hv.2.trans hv'.2.symm⟩
    · obtain rfl := Option.some.inj he
      exact (hnew r' hr' w' e' he' heq.symm (heq ▸ hu)).elim
    · obtain rfl := Option.some.inj he'
      exact (hnew r hr w e he heq hu).elim
    · exact h.own r hr r' hr' w w' e e' he he' heq hu
  · rw [hM.leaf_eq r hr, if_neg fun hself => hne hself.1]

/-- **A page is unmapped.** -/
theorem leafCleared (h : Owned roots K s) (hroot : root ∈ roots)
    (hS : LeafSet roots K 0 root v none s s') : Kept roots K root s s' := by
  refine ⟨⟨hS.spaces, fun r hr r' hr' w w' e e' he he' heq hu => ?_⟩, hS.layout_eq,
    fun r hr hne w => ?_, fun p t hp hw => hS.walk_of root hroot p t hp hw⟩
  · rw [hS.layout_eq] at hu
    rw [hS.leaf_eq r hr] at he
    rw [hS.leaf_eq r' hr'] at he'
    split_ifs at he he'
    exact h.own r hr r' hr' w w' e e' he he' heq hu
  · rw [hS.leaf_eq r hr, if_neg fun hself => hne hself.1]

/-- **Pages are written.** -/
theorem stores (h : Owned roots K s) (hm : Stores roots K s m) (hroot : root ∈ roots) :
    Kept roots K root s ⟨s.regions, m⟩ := by
  refine ⟨⟨hm.spaces h.toSpaces, fun r hr r' hr' w w' e e' he he' heq hu => ?_⟩, rfl,
    fun r hr _ w => hm.leaf_eq hr, fun p t hp hw => ?_⟩
  · rw [hm.leaf_eq hr] at he
    rw [hm.leaf_eq hr'] at he'
    exact h.own r hr r' hr' w w' e e' he he' heq hu
  · rw [Spaces.walk_congr_tables hm.same hroot hp]
    exact hw

/-- **The loop of `map_range`.** -/
theorem mapAll {s s' : State} {vs : List ℕ} {flag : ℕ} (h : Owned roots K s.phys)
    (hroot : root ∈ roots) (hvs : ∀ v ∈ vs, v < 2 ^ 47) (hP : Grants permissions)
    (hfree : 4 * vs.length ≤ (freeFrames s.phys.regions).length)
    (hs : vs.foldlM (mapNext (4096 * root) permissions flag) s = some s') :
    Kept roots K root s.phys s'.phys := by
  induction vs generalizing s with
  | nil =>
    obtain rfl : s = s' := Option.some.inj hs
    exact Kept.refl h
  | cons v vs ih =>
    obtain ⟨s₁, hs₁, hs⟩ := run_cons.mp hs
    rw [List.length_cons] at hfree
    obtain ⟨a, ha⟩ := h.mapNext hroot (hvs v List.mem_cons_self) hP (by omega) hs₁
    have hfree₁ := ha.free_le
    have hkept := h.frameMapped hroot hP ha
    exact hkept.trans (ih hkept.owned (fun u hu => hvs u (List.mem_cons_of_mem _ hu)) (by omega) hs)

/-- **A frame without a page is freed.** -/
theorem freeFrame (h : Owned roots K s) (hu : 4096 * f ∈ usableFrames (layout s.regions))
    (hsp : Spare roots K s f)
    (hpage : ∀ r ∈ roots, ∀ w e, leaf (userHalf roots s.mem) r w = some e → frameNumber e ≠ f)
    (hs : Frames.freeFrame s (4096 * f) = some s') :
    Owned roots K s' ∧ layout s'.regions = layout s.regions ∧ s'.mem = s.mem := by
  obtain ⟨-, rs', hloop, rfl⟩ := freeFrame_eq_some.mp hs
  obtain ⟨hlay, hfree⟩ := freeLoop_spec h.wellFormed.sortedMap hu hloop
  have hres : ∀ t, t ∈ Reserved roots ⟨rs', s.mem⟩ → t ∈ Reserved roots s ∨ t = f := by
    rintro t (ht | ht)
    · rcases (hfree _).mp ht with ht | ht
      · exact Or.inl (Or.inl ht)
      · exact Or.inr (by omega)
    · exact Or.inl (Or.inr ht)
  refine ⟨⟨⟨hlay ▸ h.wellFormed, hlay ▸ h.usable_le, fun t ht hf => ?_, h.table_le, h.unique,
    h.noHugePage, fun r hr w e he => ⟨fun hin => ?_, (h.leaf_spare r hr w e he).2⟩,
    fun k hk hin => ?_, h.kernel_le⟩, hlay ▸ h.own⟩, hlay, rfl⟩
  · rcases (hfree _).mp hf with hf | hf
    · exact h.table_free t ht hf
    · exact hsp.1 (Or.inr ((by omega : t = f) ▸ ht))
  · rcases hres _ hin with hin | hin
    · exact (h.leaf_spare r hr w e he).1 hin
    · exact hpage r hr w e he hin
  · rcases hres _ hin with hin | rfl
    · exact h.kernel_reserved k hk hin
    · exact hsp.2 hk

end Owned

/-! ### Roots -/

/-- A walk that does not come to a frame does not depend on it. -/
theorem walk_of_avoids (hout : ∀ x, x / 4096 ≠ f → m' x = m x)
    (havoid : ∀ q t, q.length ≤ 3 → walk (next m) r q = some t → t ≠ f) (hp : p.length ≤ 3) :
    walk (next m') r p = walk (next m) r p := by
  refine walk_congr fun q u hq hw => funext fun i => ?_
  have hu := havoid q u (by omega) hw
  rw [next, next, entry_congr fun x hx => hout x (hx ▸ hu)]

theorem leaf_of_avoids (hout : ∀ x, x / 4096 ≠ f → m' x = m x)
    (havoid : ∀ q t, q.length ≤ 3 → walk (next m) r q = some t → t ≠ f) :
    leaf m' r w = leaf m r w := by
  rw [leaf, leaf, walk_of_avoids hout havoid le_rfl]
  rcases hw : walk (next m) r (tablePath w) with _ | pt
  · rw [Option.bind_none, Option.bind_none]
  · have hpt := havoid _ pt le_rfl hw
    rw [Option.bind_some, Option.bind_some, entry_congr fun x hx => hout x (hx ▸ hpt)]

/-- What the walks of some roots are, and what they read, is all there is to address spaces. -/
theorem Owned.of_walk {roots' : Set ℕ} (h : Owned roots K s)
    (hlay : layout s'.regions = layout s.regions) (hroots : ∀ r ∈ roots', r ∈ roots)
    (hwalk : ∀ r ∈ roots', ∀ p : List (Fin 512), p.length ≤ 3 →
      walk (next (userHalf roots' s'.mem)) r p = walk (next (userHalf roots s.mem)) r p)
    (hentry : ∀ r ∈ roots', ∀ p : List (Fin 512), ∀ t, p.length ≤ 3 →
      walk (next (userHalf roots s.mem)) r p = some t →
      ∀ i, entry (userHalf roots' s'.mem) t i = entry (userHalf roots s.mem) t i)
    (hleaf : ∀ r ∈ roots', ∀ w,
      leaf (userHalf roots' s'.mem) r w = leaf (userHalf roots s.mem) r w)
    (hfree : ∀ t, 4096 * t ∈ freeFrames s'.regions → t ∈ Reserved roots s ∧
      ∀ r ∈ roots', ∀ p : List (Fin 512), p.length ≤ 3 →
        walk (next (userHalf roots s.mem)) r p ≠ some t) :
    Owned roots' K s' := by
  have htable : ∀ t, IsTable roots' s'.mem t → IsTable roots s.mem t := by
    rintro t ⟨r, hr, p, hp, hw⟩
    exact ⟨r, hroots r hr, p, hp, (hwalk r hr p hp).symm.trans hw⟩
  have hres : Reserved roots' s' ⊆ Reserved roots s := by
    rintro t (ht | ht)
    · exact (hfree t ht).1
    · exact Or.inr (htable t ht)
  refine ⟨⟨hlay ▸ h.wellFormed, hlay ▸ h.usable_le, ?_, fun t ht => h.table_le t (htable t ht), ?_,
    ?_, ?_, fun k hk hin => h.kernel_reserved k hk (hres hin), h.kernel_le⟩, ?_⟩
  · rintro t ⟨r, hr, p, hp, hw⟩ hf
    exact (hfree t hf).2 r hr p hp ((hwalk r hr p hp).symm.trans hw)
  · intro r hr r' hr' p p' t hp hp' hw hw'
    rw [hwalk r hr p hp] at hw
    rw [hwalk r' hr' p' hp'] at hw'
    exact h.unique r (hroots r hr) r' (hroots r' hr') p p' t hp hp' hw hw'
  · intro r hr p t hp hw i hi
    rw [hwalk r hr p (by omega)] at hw
    rw [hentry r hr p t (by omega) hw] at hi ⊢
    exact h.noHugePage r (hroots r hr) p t hp hw i hi
  · intro r hr w e he
    rw [hleaf r hr] at he
    obtain ⟨h1, h2⟩ := h.leaf_spare r (hroots r hr) w e he
    exact ⟨fun hin => h1 (hres hin), h2⟩
  · intro r hr r' hr' w w' e e' he he' heq hu
    rw [hlay] at hu
    rw [hleaf r hr] at he
    rw [hleaf r' hr'] at he'
    exact h.own r (hroots r hr) r' (hroots r' hr') w w' e e' he he' heq hu

/-- The memory, with the upper halves cleared of roots that differ in one frame. -/
theorem userHalf_congr {roots' : Set ℕ} {x : ℕ} (hmem : m' x = m x)
    (hroots : x / 4096 ∈ roots' ↔ x / 4096 ∈ roots) :
    userHalf roots' m' x = userHalf roots m x := by
  by_cases hx : x / 4096 ∈ roots ∧ 2048 ≤ x % 4096
  · rw [userHalf_of_upper hx, userHalf_of_upper ⟨hroots.mpr hx.1, hx.2⟩]
  · have hlow : x / 4096 ∈ roots → x % 4096 < 2048 := fun hr => not_le.mp fun hle => hx ⟨hr, hle⟩
    rw [userHalf_of_lower hlow, userHalf_of_lower fun hr => hlow (hroots.mp hr), hmem]

/-- **A root is given up, and its frame is freed.** -/
theorem Owned.eraseRoot (h : Owned roots K s) (hroot : root ∈ roots)
    (hu : 4096 * root ∈ usableFrames (layout s.regions))
    (hs : Frames.freeFrame s (4096 * root) = some s') :
    Owned (roots \ {root}) K s' ∧ layout s'.regions = layout s.regions ∧
      4096 * root ∈ freeFrames s'.regions ∧ ∀ r ∈ roots, r ≠ root → ∀ w,
        leaf (userHalf (roots \ {root}) s'.mem) r w = leaf (userHalf roots s.mem) r w := by
  obtain ⟨-, rs', hloop, rfl⟩ := freeFrame_eq_some.mp hs
  obtain ⟨hlay, hfree⟩ := freeLoop_spec h.wellFormed.sortedMap hu hloop
  have hout : ∀ x, x / 4096 ≠ root →
      userHalf (roots \ {root}) s.mem x = userHalf roots s.mem x :=
    fun x hx => userHalf_congr rfl ⟨fun hr => hr.1, fun hr => ⟨hr, hx⟩⟩
  -- the other address spaces do not have the table
  have havoid : ∀ r ∈ roots, r ≠ root → ∀ q t, q.length ≤ 3 →
      walk (next (userHalf roots s.mem)) r q = some t → t ≠ root := by
    rintro r hr hne q t hq hw rfl
    exact hne (h.unique r hr t hroot q [] t hq (by simp) hw walk_nil).1
  have hleaf : ∀ r ∈ roots, r ≠ root → ∀ w,
      leaf (userHalf (roots \ {root}) s.mem) r w = leaf (userHalf roots s.mem) r w :=
    fun r hr hne w => leaf_of_avoids hout (havoid r hr hne)
  refine ⟨h.of_walk hlay (fun r hr => hr.1) (fun r hr p hp => walk_of_avoids hout
    (havoid r hr.1 hr.2) hp) (fun r hr p t hp hw i => entry_congr fun x hx => hout x ?_)
    (fun r hr w => hleaf r hr.1 hr.2 w) fun t ht => ?_, hlay, (hfree _).mpr (Or.inr rfl), hleaf⟩
  · rw [hx]
    exact havoid r hr.1 hr.2 p t hp hw
  · rcases (hfree _).mp ht with ht | ht
    · exact ⟨Or.inl ht, fun r hr p hp hw => h.table_free t ⟨r, hr.1, p, hp, hw⟩ ht⟩
    · obtain rfl : t = root := by omega
      exact ⟨Or.inr ⟨t, hroot, [], by simp, walk_nil⟩,
        fun r hr p hp hw => havoid r hr.1 hr.2 p t hp hw rfl⟩

/-- The memory, with the upper half cleared of one root more. -/
theorem userHalf_insert {x : ℕ} (hx : x / 4096 ≠ f) :
    userHalf (insert f roots) m x = userHalf roots m x :=
  userHalf_congr rfl ⟨fun hr => hr.resolve_left hx, Or.inr⟩

/-- A root with an empty lower half has no pages. -/
theorem leaf_of_empty (hr : r ∈ roots)
    (hempty : ∀ i : Fin 512, i.val < 256 → ¬Present (entry m r i)) :
    leaf (userHalf roots m) r w = none := by
  refine Option.eq_none_iff_forall_ne_some.mpr fun e he => ?_
  obtain ⟨pt, hpt, -⟩ := Option.bind_eq_some_iff.mp he
  cases (walk_of_empty hr hempty hpt).1

section InsertRoot

variable (hsp : Spare roots K s f)
include hsp

/-- The walks of the roots do not come to a frame that is spare. -/
theorem Spare.avoids (hr : r ∈ roots) : ∀ q t, q.length ≤ 3 →
    walk (next (userHalf roots s.mem)) r q = some t → t ≠ f := by
  rintro q t hq hw rfl
  exact hsp.1 (Or.inr ⟨r, hr, q, hq, hw⟩)

theorem Spare.walk_insert (hr : r ∈ roots) (hp : p.length ≤ 3) :
    walk (next (userHalf (insert f roots) s.mem)) r p =
      walk (next (userHalf roots s.mem)) r p :=
  walk_of_avoids (fun _ hx => userHalf_insert hx) (hsp.avoids hr) hp

theorem Spare.leaf_insert (hr : r ∈ roots) (w : ℕ) :
    leaf (userHalf (insert f roots) s.mem) r w = leaf (userHalf roots s.mem) r w :=
  leaf_of_avoids (fun _ hx => userHalf_insert hx) (hsp.avoids hr)

variable (hempty : ∀ i : Fin 512, i.val < 256 → ¬Present (entry s.mem f i))
include hempty

/-- The new root is the only new table. -/
theorem Spare.isTable_insert {t : ℕ} (ht : IsTable (insert f roots) s.mem t) :
    IsTable roots s.mem t ∨ t = f := by
  obtain ⟨r, hr | hr, q, hq, hw⟩ := ht
  · rw [hr] at hw
    exact Or.inr (walk_of_empty (Set.mem_insert f roots) hempty hw).2.symm
  · exact Or.inl ⟨r, hr, q, hq, (hsp.walk_insert hr hq).symm.trans hw⟩

/-- All pages are pages of the other roots. -/
theorem Spare.of_leaf_insert {e : ℕ} (hr : r ∈ insert f roots)
    (he : leaf (userHalf (insert f roots) s.mem) r w = some e) :
    r ∈ roots ∧ leaf (userHalf roots s.mem) r w = some e := by
  rcases hr with rfl | hr
  · rw [leaf_of_empty (Set.mem_insert r roots) hempty] at he
    cases he
  · exact ⟨hr, (hsp.leaf_insert hr w).symm.trans he⟩

/-- No table is reached twice. -/
theorem Spare.unique_insert (h : Spaces roots K s) : ∀ r ∈ insert f roots, ∀ r' ∈ insert f roots,
    ∀ p p' : List (Fin 512), ∀ t, p.length ≤ 3 → p'.length ≤ 3 →
    walk (next (userHalf (insert f roots) s.mem)) r p = some t →
    walk (next (userHalf (insert f roots) s.mem)) r' p' = some t → r = r' ∧ p = p' := by
  have hself : ∀ {q : List (Fin 512)} {t : ℕ},
      walk (next (userHalf (insert f roots) s.mem)) f q = some t → q = [] ∧ f = t :=
    fun hw => walk_of_empty (Set.mem_insert f roots) hempty hw
  intro r hr r' hr' p p' t hp hp' hw hw'
  rcases hr with rfl | hr
  · obtain ⟨rfl, rfl⟩ := hself hw
    rcases hr' with rfl | hr'
    · exact ⟨rfl, (hself hw').1.symm⟩
    · rw [hsp.walk_insert hr' hp'] at hw'
      exact absurd rfl (hsp.avoids hr' p' r hp' hw')
  · rw [hsp.walk_insert hr hp] at hw
    rcases hr' with rfl | hr'
    · obtain ⟨rfl, rfl⟩ := hself hw'
      exact absurd rfl (hsp.avoids hr p r' hp hw)
    · rw [hsp.walk_insert hr' hp'] at hw'
      exact h.unique r hr r' hr' p p' t hp hp' hw hw'

theorem Spare.noHugePage_insert (h : Spaces roots K s) :
    NoHugePage (userHalf (insert f roots) s.mem) (insert f roots) := by
  rintro r (rfl | hr) p t hp hw i hi
  · obtain ⟨rfl, -⟩ := walk_of_empty (Set.mem_insert r roots) hempty hw
    simp at hp
  · rw [hsp.walk_insert hr (by omega)] at hw
    have he : entry (userHalf (insert f roots) s.mem) t i = entry (userHalf roots s.mem) t i :=
      entry_congr fun x hx => userHalf_insert (hx ▸ hsp.avoids hr p t (by omega) hw)
    rw [he] at hi ⊢
    exact h.noHugePage r hr p t hp hw i hi

/-- **A frame with an empty lower half becomes a root.** -/
theorem Owned.insertRoot (h : Owned roots K s) (hle : 4096 * f + 4096 ≤ 2 ^ 47)
    (hpage : ∀ r ∈ roots, ∀ w e, leaf (userHalf roots s.mem) r w = some e → frameNumber e ≠ f) :
    Owned (insert f roots) K s := by
  have hres : ∀ t, t ∈ Reserved (insert f roots) s → t ∈ Reserved roots s ∨ t = f := by
    rintro t (ht | ht)
    · exact Or.inl (Or.inl ht)
    · exact (hsp.isTable_insert hempty ht).imp_left Or.inr
  refine ⟨⟨h.wellFormed, h.usable_le, fun t ht => ?_, fun t ht => ?_,
    hsp.unique_insert hempty h.toSpaces, hsp.noHugePage_insert hempty h.toSpaces,
    fun r hr w e he => ?_, fun k hk hin => ?_, h.kernel_le⟩, ?_⟩
  · rcases hsp.isTable_insert hempty ht with ht | rfl
    · exact h.table_free t ht
    · exact fun hf => hsp.1 (Or.inl hf)
  · rcases hsp.isTable_insert hempty ht with ht | rfl
    · exact h.table_le t ht
    · exact hle
  · obtain ⟨hr, he⟩ := hsp.of_leaf_insert hempty hr he
    obtain ⟨h1, h2⟩ := h.leaf_spare r hr w e he
    exact ⟨fun hin => (hres _ hin).elim h1 (hpage r hr w e he), h2⟩
  · rcases hres k hin with hin | rfl
    · exact h.kernel_reserved k hk hin
    · exact hsp.2 hk
  · intro r hr r' hr' w w' e e' he he' heq hu
    obtain ⟨hr, he⟩ := hsp.of_leaf_insert hempty hr he
    obtain ⟨hr', he'⟩ := hsp.of_leaf_insert hempty hr' he'
    exact h.own r hr r' hr' w w' e e' he he' heq hu

end InsertRoot

/-- **A free frame is made a root**: nothing but the frame is written, and its lower half is
empty then. -/
theorem Owned.newRoot (h : Owned roots K s)
    (hcons : freeFrames s.regions = 4096 * f :: freeFrames s'.regions)
    (hlay : layout s'.regions = layout s.regions)
    (hmem : ∀ x, x / 4096 ≠ f → s'.mem x = s.mem x)
    (hempty : ∀ i : Fin 512, i.val < 256 → ¬Present (entry s'.mem f i)) :
    f ∉ roots ∧ Owned (insert f roots) K s' ∧
      ∀ r ∈ roots, ∀ w, leaf (userHalf (insert f roots) s'.mem) r w =
        leaf (userHalf roots s.mem) r w := by
  have hf : 4096 * f ∈ freeFrames s.regions := hcons ▸ List.mem_cons_self
  have hsub : ∀ b ∈ freeFrames s'.regions, b ∈ freeFrames s.regions :=
    fun b hb => hcons ▸ List.mem_cons_of_mem _ hb
  have hnodup : 4096 * f ∉ freeFrames s'.regions := by
    have := nodup_freeFrames h.wellFormed.sortedMap
    rw [hcons] at this
    exact (List.nodup_cons.mp this).1
  have hout : ∀ x, x / 4096 ≠ f → userHalf roots s'.mem x = userHalf roots s.mem x :=
    fun x hx => userHalf_congr (hmem x hx) Iff.rfl
  have havoid : ∀ r ∈ roots, ∀ q t, q.length ≤ 3 →
      walk (next (userHalf roots s.mem)) r q = some t → t ≠ f := by
    rintro r hr q t hq hw rfl
    exact h.table_free t ⟨r, hr, q, hq, hw⟩ hf
  have hwalk : ∀ r ∈ roots, ∀ q : List (Fin 512), q.length ≤ 3 →
      walk (next (userHalf roots s'.mem)) r q = walk (next (userHalf roots s.mem)) r q :=
    fun r hr q hq => walk_of_avoids hout (havoid r hr) hq
  have hleaf : ∀ r ∈ roots, ∀ w,
      leaf (userHalf roots s'.mem) r w = leaf (userHalf roots s.mem) r w :=
    fun r hr w => leaf_of_avoids hout (havoid r hr)
  have howned : Owned roots K s' := by
    refine h.of_walk hlay (fun r hr => hr) hwalk (fun r hr p t hp hw i =>
      entry_congr fun x hx => hout x (hx ▸ havoid r hr p t hp hw)) hleaf fun t ht =>
      ⟨Or.inl (hsub _ ht), fun r hr p hp hw => h.table_free t ⟨r, hr, p, hp, hw⟩ (hsub _ ht)⟩
  have hsp : Spare roots K s' f := by
    refine ⟨?_, fun hk => h.kernel_reserved f hk (Or.inl hf)⟩
    rintro (ht | ⟨r, hr, q, hq, hw⟩)
    · exact hnodup ht
    · exact havoid r hr q f hq ((hwalk r hr q hq).symm.trans hw) rfl
  have hpage : ∀ r ∈ roots, ∀ w e, leaf (userHalf roots s'.mem) r w = some e →
      frameNumber e ≠ f := by
    rintro r hr w e he rfl
    rw [hleaf r hr w] at he
    exact (h.leaf_spare r hr w e he).1 (Or.inl hf)
  have hle := h.usable_le _ (usableFrames_of_mem_freeFrames hf)
  exact ⟨h.notMem_roots_of_free hf, howned.insertRoot hsp hempty hle hpage,
    fun r hr w => (hsp.leaf_insert hr w).trans (hleaf r hr w)⟩

end Vm

end WillowOS
