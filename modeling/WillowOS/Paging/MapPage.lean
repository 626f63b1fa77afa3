import WillowOS.Paging.Forest

/-!
# `map_page` maps one page

`map_page` goes down three levels, at each of which it links a new table if the slot is
empty, and then writes one entry of the page table it has reached. Each of the three
steps only extends the forest (`WillowOS.Paging.Extends`, by
`WillowOS.Paging.ensureEntry_spec`), so that everything it does to translations is in
the last write: **`WillowOS.Paging.translate_mapPage`**.

The permissions go into the entries of the upper levels too. There the bit with value
`0x80` does not select a memory type, as in an entry of a page table, but makes the entry
map a huge page: with that bit, the forest stays one without huge pages exactly when no
table below the first level had to be linked.
-/

namespace WillowOS

namespace Paging

open Frames

variable {roots : Set ℕ} {root t n permissions v : ℕ} {i : Fin 512} {p : List (Fin 512)}
  {s s' s'' : Phys}

/-- `s'` is `s` with empty tables added: the forest is still one, over the same memory
map, no translation is changed, and `root` shares no more with other roots. -/
structure Extends (roots : Set ℕ) (root : ℕ) (s s' : Phys) : Prop where
  layout_eq : layout s'.regions = layout s.regions
  forest : Forest s'.mem s'.regions roots
  translate_eq : ∀ r ∈ roots, ∀ w, translate s'.mem r w = translate s.mem r w
  shares : ∀ r ∈ roots, r ≠ root → ∀ k, Shares s'.mem root r k → Shares s.mem root r k

theorem Extends.refl (hF : Forest s.mem s.regions roots) : Extends roots root s s :=
  ⟨rfl, hF, fun _ _ _ => rfl, fun _ _ _ _ h => h⟩

theorem Extends.trans (h : Extends roots root s s') (h' : Extends roots root s' s'') :
    Extends roots root s s'' where
  layout_eq := h'.layout_eq.trans h.layout_eq
  forest := h'.forest
  translate_eq := fun r hr w => (h'.translate_eq r hr w).trans (h.translate_eq r hr w)
  shares := fun r hr hne k hs => h.shares r hr hne k (h'.shares r hr hne k hs)

/-- What a step of `map_page` at slot `i` of the table reached by `p` leaves: `u` is the
table of the slot, at least `n` frames are still free, and walks that do not end on its
level are as before. -/
structure Ensured (roots : Set ℕ) (root permissions n : ℕ) (p : List (Fin 512)) (i : Fin 512)
    (s s' : Phys) (u : ℕ) : Prop extends Extends roots root s s' where
  walk_eq : walk (next s'.mem) root (p ++ [i]) = some u
  free_le : n ≤ (freeFrames s'.regions).length
  walk_other : ∀ q, q.length ≤ 3 → q.length ≠ p.length + 1 →
    walk (next s'.mem) root q = walk (next s.mem) root q
  noHugePage : NoHugePage s'.mem roots ↔ NoHugePage s.mem roots ∧
    (permissions / 128 % 2 = 0 ∨ p = [] ∨ (walk (next s.mem) root (p ++ [i])).isSome)

/-- The number of tables that are missing on a way down: all from the first empty slot on. -/
def missing (m : Mem) : ℕ → List (Fin 512) → ℕ
  | _, [] => 0
  | t, i :: q => if Present (entry m t i) then missing m (entry m t i / 4096) q else q.length + 1

theorem missing_le_length {m : Mem} {q : List (Fin 512)} : missing m t q ≤ q.length := by
  induction q generalizing t with
  | nil => exact le_rfl
  | cons i q ih =>
    rw [missing]
    split
    · exact ih.trans (Nat.le_succ _)
    · exact le_rfl

/-- If there is a frame for each of them, one is free when the first slot is empty. -/
theorem ne_nil_of_missing_le {m : Mem} {q : List (Fin 512)} {fs : List ℕ}
    (h : missing m t (i :: q) ≤ fs.length) (hslot : ¬Present (entry m t i)) : fs ≠ [] := by
  rw [missing, if_neg hslot] at h
  exact List.ne_nil_of_length_pos (Nat.zero_lt_of_lt h)

/-- A frame of a well-formed map is numbered, and below the end of the address space. -/
theorem exists_frame {rs : List Region} {a : ℕ} (hwf : WellFormed (layout rs))
    (ha : a ∈ freeFrames rs) : ∃ f, a = 4096 * f ∧ 4096 * f + 4096 ≤ 2 ^ 64 := by
  have husable := usableFrames_of_mem_freeFrames ha
  have halign := aligned_of_mem_usableFrames hwf husable
  obtain ⟨e, he, hf⟩ := mem_usableFrames.mp husable
  have hin := le_of_mem_frames hf
  have hend := hwf.end_lt e he
  exact ⟨a / 4096, by omega, by omega⟩

/-- A step that finds the table. -/
theorem ensureEntry_of_present (h : Present (entry s.mem t i)) :
    ensureEntry s (4096 * t) i permissions = (entry s.mem t i, s) := by
  rw [entry] at h ⊢
  rw [ensureEntry, if_pos h]

/-- A step that links a new table. -/
theorem ensureEntry_of_alloc {f : ℕ} {rs : List Region} (h : ¬Present (entry s.mem t i))
    (halloc : allocFrame s = (4096 * f, ⟨rs, s.mem.memset (4096 * f) 0 4096⟩)) :
    ensureEntry s (4096 * t) i permissions =
      (4096 * f ||| permissions, ⟨rs, linkFrame s.mem t i f permissions⟩) := by
  rw [entry] at h
  rw [ensureEntry, if_neg h, halloc, linkFrame]

/-- **What a step of `map_page` can do**: it finds the table, or links a free frame. -/
theorem ensureEntry_cases (hwf : WellFormed (layout s.regions))
    (hF : Forest s.mem s.regions roots) (hroot : root ∈ roots) (hp : p.length < 3)
    (hwalk : walk (next s.mem) root p = some t)
    (hn : ¬Present (entry s.mem t i) → freeFrames s.regions ≠ [])
    (hlt : permissions < 4096) (hpres : Present permissions) :
    (Present (entry s.mem t i) ∧
      ensureEntry s (4096 * t) i permissions = (entry s.mem t i, s)) ∨
    ∃ f rs', Linkable s.mem s.regions roots root p t i f permissions ∧
      ensureEntry s (4096 * t) i permissions =
        (4096 * f ||| permissions, ⟨rs', linkFrame s.mem t i f permissions⟩) ∧
      freeFrames s.regions = 4096 * f :: freeFrames rs' ∧ layout rs' = layout s.regions := by
  by_cases hslot : Present (entry s.mem t i)
  · exact Or.inl ⟨hslot, ensureEntry_of_present hslot⟩
  · obtain ⟨a, fs, hfree⟩ := List.exists_cons_of_ne_nil (hn hslot)
    obtain ⟨rs', halloc, hfs, hlay⟩ := allocFrame_of_cons hfree
    have ha : a ∈ freeFrames s.regions := hfree ▸ List.mem_cons_self
    obtain ⟨f, rfl, hle⟩ := exists_frame hwf ha
    exact Or.inr ⟨f, rs', ⟨hF, hroot, hp, hwalk, hslot, ha, hle, hlt, hpres⟩,
      ensureEntry_of_alloc hslot halloc, hfs ▸ hfree, hlay⟩

/-- **One step of `map_page`**, with a frame for each table that is missing from here on. -/
theorem ensureEntry_spec {q : List (Fin 512)} (hwf : WellFormed (layout s.regions))
    (hF : Forest s.mem s.regions roots) (hroot : root ∈ roots) (hp : p.length < 3)
    (hwalk : walk (next s.mem) root p = some t)
    (hn : missing s.mem t (i :: q) ≤ (freeFrames s.regions).length)
    (hlt : permissions < 4096) (hpres : Present permissions) :
    ∃ u, maskFlags (ensureEntry s (4096 * t) i permissions).1 = 4096 * u ∧
      Ensured roots root permissions (missing (ensureEntry s (4096 * t) i permissions).2.mem u q)
        p i s (ensureEntry s (4096 * t) i permissions).2 u := by
  rcases ensureEntry_cases hwf hF hroot hp hwalk (ne_nil_of_missing_le hn) hlt hpres with
    ⟨hslot, heq⟩ | ⟨f, rs', hL, heq, hfree, hlay⟩
  · -- the table is there
    have hnext : walk (next s.mem) root (p ++ [i]) = some (entry s.mem t i / 4096) :=
      walk_concat_eq_some.mpr ⟨t, hwalk, next_eq_some.mpr ⟨hslot, rfl⟩⟩
    rw [missing, if_pos hslot] at hn
    rw [heq]
    refine ⟨entry s.mem t i / 4096, maskFlags_eq _, Extends.refl hF, hnext, hn,
      fun _ _ _ => rfl, ?_⟩
    rw [hnext, Option.isSome_some]
    simp
  · -- a free frame is linked into the slot
    have hnodup : (4096 * f :: freeFrames rs').Nodup := hfree ▸ nodup_freeFrames hwf.sortedMap
    have hnone : walk (next s.mem) root (p ++ [i]) = none := by
      rw [walk_concat, hwalk, Option.bind_some]
      exact next_eq_none.mpr hL.slot
    rw [heq]
    refine ⟨f, ?_, ⟨hlay, hL.forest_link (fun b hb => ?_) ?_, fun r hr w => hL.translate_link hr,
      fun r hr hne k => hL.shares_of_link hr hne⟩, hL.walk_self, ?_,
      fun q hq hne => hL.walk_of_length_ne hroot hq hne, ?_⟩
    · show maskFlags (4096 * f ||| permissions) = 4096 * f
      rw [or_permissions hlt, maskFlags]
      omega
    · exact hfree ▸ List.mem_cons_of_mem _ hb
    · exact (List.nodup_cons.mp hnodup).1
    · refine missing_le_length.trans ?_
      show q.length ≤ (freeFrames rs').length
      rw [missing, if_neg hL.slot, hfree, List.length_cons] at hn
      exact Nat.le_of_succ_le_succ hn
    · rw [hnone, Option.isSome_none]
      simpa using hL.noHugePage_link

/-- **The three steps of `map_page`**: the page table of the address is reached, the
forest is extended, and an entry that maps a huge page is made exactly when the
permissions have that bit and the page table was not there. -/
theorem ensureTables_spec (hwf : WellFormed (layout s.regions))
    (hF : Forest s.mem s.regions roots) (hroot : root ∈ roots)
    (hfree : missing s.mem root (tablePath v) ≤ (freeFrames s.regions).length)
    (hlt : permissions < 4096) (hpres : Present permissions) :
    ∃ pt, (ensureTables s (4096 * root) v permissions).1 = 4096 * pt ∧
      Extends roots root s (ensureTables s (4096 * root) v permissions).2 ∧
      walk (next (ensureTables s (4096 * root) v permissions).2.mem) root (tablePath v) = some pt ∧
      (NoHugePage (ensureTables s (4096 * root) v permissions).2.mem roots ↔
        NoHugePage s.mem roots ∧
          (permissions / 128 % 2 = 0 ∨ (walk (next s.mem) root (tablePath v)).isSome)) := by
  obtain ⟨t₃, ht₃, h₄⟩ := ensureEntry_spec (p := []) (i := pml4Index v) hwf hF hroot
    (by decide) walk_nil hfree hlt hpres
  have hwf₄ := hwf
  rw [← h₄.layout_eq] at hwf₄
  obtain ⟨t₂, ht₂, h₃⟩ := ensureEntry_spec (i := pdptIndex v) hwf₄ h₄.forest hroot
    (by simp) h₄.walk_eq h₄.free_le hlt hpres
  have hwf₃ := hwf₄
  rw [← h₃.layout_eq] at hwf₃
  obtain ⟨t₁, ht₁, h₂⟩ := ensureEntry_spec (i := pdIndex v) hwf₃ h₃.forest hroot
    (by simp) h₃.walk_eq h₃.free_le hlt hpres
  rw [ensureTables]
  simp only [ht₃, ht₂, ht₁]
  refine ⟨t₁, rfl, (h₄.toExtends.trans h₃.toExtends).trans h₂.toExtends, h₂.walk_eq, ?_⟩
  -- the walks the last two steps look at are those before the first step
  have hwalk₃ := h₄.walk_other ([] ++ [pml4Index v] ++ [pdptIndex v]) (by simp) (by simp)
  have hwalk₂ := (h₃.walk_other (tablePath v) (by simp [tablePath]) (by simp [tablePath])).trans
    (h₄.walk_other (tablePath v) (by simp [tablePath]) (by simp [tablePath]))
  have hstart : (walk (next s.mem) root (tablePath v)).isSome →
      (walk (next s.mem) root ([] ++ [pml4Index v] ++ [pdptIndex v])).isSome := by
    intro h
    rw [show tablePath v = [] ++ [pml4Index v] ++ [pdptIndex v] ++ [pdIndex v] from rfl,
      walk_concat] at h
    rcases hw : walk (next s.mem) root ([] ++ [pml4Index v] ++ [pdptIndex v]) with _ | x
    · rw [hw] at h
      exact h
    · rfl
  have h₂' := h₂.noHugePage
  have hpath : [] ++ [pml4Index v] ++ [pdptIndex v] ++ [pdIndex v] = tablePath v := rfl
  rw [hpath, hwalk₂] at h₂'
  rw [h₂', h₃.noHugePage, hwalk₃, h₄.noHugePage]
  simp only [true_or, or_true, and_true, List.nil_append, List.cons_append, reduceCtorEq,
    false_or] at hstart ⊢
  constructor
  · rintro ⟨⟨hN, -⟩, h⟩
    exact ⟨hN, h⟩
  · rintro ⟨hN, h | h⟩
    · exact ⟨⟨hN, Or.inl h⟩, Or.inl h⟩
    · exact ⟨⟨hN, Or.inr (hstart h)⟩, Or.inr h⟩

/-! ### The whole of `map_page` -/

/-- The bookkeeping of `map_page` does not touch the tables. -/
theorem mapPage_phys {s : State} {pml4Address physAddress : ℕ} :
    (mapPage s pml4Address physAddress v permissions).2.phys =
      mapTables s.phys pml4Address physAddress v permissions := by
  rw [mapPage]
  split <;> rfl

/-- The entry `map_page` writes for an aligned address. -/
theorem leaf_lt {a : ℕ} (ha : a % 4096 = 0) (ha64 : a < 2 ^ 64) (hlt : permissions < 4096) :
    a ||| permissions = a + permissions ∧ a + permissions < 2 ^ 64 := by
  obtain ⟨f, rfl⟩ : ∃ f, a = 4096 * f := ⟨a / 4096, by omega⟩
  exact ⟨or_permissions hlt, by omega⟩

/-- With the page table known, what `map_page` writes is one entry of it. -/
theorem mapPage_phys_of_table {s : State} {pml4Address a pt : ℕ}
    (hpt : (ensureTables s.phys pml4Address v permissions).1 = 4096 * pt) (ha : a % 4096 = 0)
    (ha64 : a < 2 ^ 64) (hlt : permissions < 4096) :
    (mapPage s pml4Address a v permissions).2.phys =
      { (ensureTables s.phys pml4Address v permissions).2 with
        mem := writeEntry (ensureTables s.phys pml4Address v permissions).2.mem (4096 * pt)
          (ptIndex v) (a + permissions) } := by
  rw [mapPage_phys, mapTables, hpt, (leaf_lt ha ha64 hlt).1]

/-- `map_page` keeps the map and the forest. -/
theorem forest_mapPage {s : State} {a : ℕ} (hwf : WellFormed (layout s.phys.regions))
    (hF : Forest s.phys.mem s.phys.regions roots) (hroot : root ∈ roots)
    (hfree : missing s.phys.mem root (tablePath v) ≤ (freeFrames s.phys.regions).length)
    (ha : a % 4096 = 0) (ha64 : a < 2 ^ 64) (hlt : permissions < 4096)
    (hpres : Present permissions) :
    WellFormed (layout (mapPage s (4096 * root) a v permissions).2.phys.regions) ∧
      Forest (mapPage s (4096 * root) a v permissions).2.phys.mem
        (mapPage s (4096 * root) a v permissions).2.phys.regions roots := by
  obtain ⟨pt, hpt, hext, hwalk, -⟩ := ensureTables_spec hwf hF hroot hfree hlt hpres
  rw [mapPage_phys_of_table hpt ha ha64 hlt]
  dsimp only
  rw [hext.layout_eq]
  exact ⟨hwf, hext.forest.forest_leaf hroot rfl hwalk (leaf_lt ha ha64 hlt).2⟩

/-- One root reaches a page table by one path, so two of its pages there differ in the
slot. -/
theorem Forest.ptIndex_ne_of_walk {m : Mem} {rs : List Region} {pt w : ℕ}
    (hF : Forest m rs roots) (hroot : root ∈ roots)
    (hv : walk (next m) root (tablePath v) = some pt) (hne : pageNumber w ≠ pageNumber v)
    (hw : walk (next m) root (tablePath w) = some pt) : ptIndex w ≠ ptIndex v := by
  intro hidx
  rcases hF.distinct root hroot root hroot _ _ pt le_rfl le_rfl hw hv with ⟨-, hpath⟩ | ⟨hself, -⟩
  · exact hne (pageNumber_eq_iff.mpr ⟨hpath, hidx⟩)
  · exact absurd rfl hself

/-- Another root reaches a page table through a shared PML4 entry only. -/
theorem Forest.shares_of_walk {m : Mem} {rs : List Region} {r pt w : ℕ}
    (hF : Forest m rs roots) (hroot : root ∈ roots) (hr : r ∈ roots) (hne : r ≠ root)
    (hv : walk (next m) root (tablePath v) = some pt)
    (hw : walk (next m) r (tablePath w) = some pt) : Shares m root r (pml4Index v) := by
  rcases hF.distinct root hroot r hr _ _ pt le_rfl le_rfl hv hw with
    ⟨heq, -⟩ | ⟨-, k, k', q, hk, -, hentry⟩
  · exact absurd heq.symm hne
  · obtain rfl : pml4Index v = k := (List.cons.inj hk).1
    exact ⟨Forest.present_of_walk_cons hv, k', hentry.symm⟩

/-- **`map_page` maps one page and disturbs nothing else.** In a forest with three free
frames, after `map_page(root, a, v, permissions)` every address of the page of `v`
translates to `a` plus its offset; every other page of the root has the presence and the
translation it had, and so has every page of every other root that does not share the
subtree of `v`; the tables form a forest again; and it is one without huge pages exactly
when the permissions do not have the bit with value `0x80`, or the page table of `v` was
already there. -/
theorem translate_mapPage {s : State} {a : ℕ} (hwf : WellFormed (layout s.phys.regions))
    (hF : Forest s.phys.mem s.phys.regions roots) (hN : NoHugePage s.phys.mem roots)
    (hroot : root ∈ roots) (hfree : 3 ≤ (freeFrames s.phys.regions).length)
    (ha : a % 4096 = 0) (ha64 : a < 2 ^ 64) (hlt : permissions < 4096)
    (hpres : Present permissions) :
    let s' := (mapPage s (4096 * root) a v permissions).2
    (∀ w, pageNumber w = pageNumber v → translate s'.phys.mem root w = some (a + w % 4096) ∧
      virtToPhys s'.phys.mem w (4096 * root) = a + w % 4096) ∧
    (∀ w, pageNumber w ≠ pageNumber v →
      translate s'.phys.mem root w = translate s.phys.mem root w) ∧
    (∀ r ∈ roots, r ≠ root → ¬Shares s.phys.mem root r (pml4Index v) →
      ∀ w, translate s'.phys.mem r w = translate s.phys.mem r w) ∧
    Forest s'.phys.mem s'.phys.regions roots ∧
    (NoHugePage s'.phys.mem roots ↔
      permissions / 128 % 2 = 0 ∨ (walk (next s.phys.mem) root (tablePath v)).isSome) := by
  intro s'
  have hfree' : missing s.phys.mem root (tablePath v) ≤ (freeFrames s.phys.regions).length :=
    missing_le_length.trans hfree
  have hforest := (forest_mapPage hwf hF hroot hfree' ha ha64 hlt hpres).2
  obtain ⟨pt, hpt, hext, hwalk, hhuge⟩ := ensureTables_spec hwf hF hroot hfree' hlt hpres
  obtain ⟨-, he⟩ := leaf_lt ha ha64 hlt
  have hodd : permissions % 2 = 1 := hpres
  have hlen : (tablePath v).length = 3 := rfl
  refine ⟨?_, ?_, ?_, hforest, ?_⟩ <;>
    rw [show s'.phys = _ from mapPage_phys_of_table hpt ha ha64 hlt] <;> dsimp only
  · intro w hw
    obtain ⟨hpath, hidx⟩ := pageNumber_eq_iff.mp hw
    have htr := hext.forest.translate_leaf_self (w := w) hroot (hpath ▸ hwalk) he
      (show (a + permissions) % 2 = 1 by omega)
    rw [hidx, show maskFlags (a + permissions) = a by rw [maskFlags]; omega] at htr
    exact ⟨htr, virtToPhys_of_translate htr⟩
  · intro w hw
    rw [hext.forest.translate_leaf hroot hlen hwalk he hroot
      (hext.forest.ptIndex_ne_of_walk hroot hwalk hw), hext.translate_eq root hroot w]
  · intro r hr hne hns w
    have hother : ∀ {w}, walk (next _) r (tablePath w) ≠ some pt := fun hw =>
      hns (hext.shares r hr hne _ (hext.forest.shares_of_walk hroot hr hne hwalk hw))
    rw [hext.forest.translate_leaf hroot hlen hwalk he hr fun hw => absurd hw hother,
      hext.translate_eq r hr w]
  · rw [hext.forest.noHugePage_leaf hroot hlen hwalk he, hhuge]
    exact and_iff_right hN

/-! ### An empty root -/

/-- A map with four usable frames, from address 8192 on. -/
def roomMap : List MemmapEntry := [⟨8192, 16384, 0⟩]

/-- A cleared memory before scheduling has started, with a root at address `0`. -/
def emptyState : State := ⟨⟨initMemmaps roomMap, fun _ => 0⟩, false, ⟨fun _ => ⟨0, 0, false⟩, 0, 0⟩⟩

theorem wellFormed_roomMap : WellFormed (layout emptyState.phys.regions) where
  ne_nil := List.cons_ne_nil _ _
  length_le := by decide
  sorted := List.pairwise_singleton _ _
  disjoint := List.pairwise_singleton _ _
  aligned := by decide
  length_lt := by decide
  end_lt := by decide
  type_lt := by decide

/-- A root without entries is alone. -/
theorem walk_of_clear {m : Mem} {x : ℕ} (hclear : ∀ i, entry m root i = 0)
    (h : walk (next m) root p = some x) : p = [] ∧ root = x := by
  cases p with
  | nil => exact ⟨rfl, Option.some.inj h⟩
  | cons i p =>
    have := Forest.present_of_walk_cons h
    rw [hclear] at this
    exact absurd this (by decide)

theorem forest_of_clear {m : Mem} {rs : List Region} (hclear : ∀ i, entry m root i = 0)
    (hfree : 4096 * root ∉ freeFrames rs) (hle : 4096 * root + 4096 ≤ 2 ^ 64) :
    Forest m rs {root} where
  frame := by
    rintro r rfl p x - h
    obtain ⟨-, rfl⟩ := walk_of_clear hclear h
    exact ⟨hfree, hle⟩
  distinct := by
    rintro r rfl r' rfl p p' x - - h h'
    exact Or.inl ⟨rfl, (walk_of_clear hclear h).1.trans (walk_of_clear hclear h').1.symm⟩

theorem entry_empty (t : ℕ) (i : Fin 512) : entry emptyState.phys.mem t i = 0 := Mem.read64_zero

theorem forest_empty : Forest emptyState.phys.mem emptyState.phys.regions {0} :=
  forest_of_clear (entry_empty 0) (by decide) (by decide)

theorem noHugePage_empty : NoHugePage emptyState.phys.mem {0} := by
  rintro r rfl p x hp h
  obtain ⟨rfl, -⟩ := walk_of_clear (entry_empty 0) h
  simp at hp

/-- The first page mapped in an empty root. -/
theorem translate_mapPage_empty :
    virtToPhys (mapPage emptyState (4096 * 0) 4096 0x400000 7).2.phys.mem 0x400123 (4096 * 0) =
        4096 + 0x123 ∧
      NoHugePage (mapPage emptyState (4096 * 0) 4096 0x400000 7).2.phys.mem {0} := by
  obtain ⟨hpage, -, -, -, hhuge⟩ := translate_mapPage (v := 0x400000) wellFormed_roomMap
    forest_empty noHugePage_empty rfl (by decide) (show 4096 % 4096 = 0 by decide) (by decide)
    (show 7 < 4096 by decide) (by decide)
  exact ⟨(hpage 0x400123 (by decide)).2, hhuge.mpr (Or.inl (by decide))⟩

/-- **The permissions of a page can make a huge page**: with the bit `0x80`, mapping a
page in an empty root writes that bit into the entries of the upper tables, where it
makes them map huge pages. -/
theorem not_noHugePage_mapPage :
    WellFormed (layout emptyState.phys.regions) ∧
      Forest emptyState.phys.mem emptyState.phys.regions {0} ∧
      NoHugePage emptyState.phys.mem {0} ∧ 3 ≤ (freeFrames emptyState.phys.regions).length ∧
      ¬NoHugePage (mapPage emptyState (4096 * 0) 4096 0x400000 0x81).2.phys.mem {0} := by
  refine ⟨wellFormed_roomMap, forest_empty, noHugePage_empty, by decide, ?_⟩
  obtain ⟨pt, hpt, hext, hwalk, hhuge⟩ := ensureTables_spec (s := emptyState.phys) (v := 0x400000)
    wellFormed_roomMap forest_empty (Set.mem_singleton 0)
    (missing_le_length.trans (show 3 ≤ _ by decide)) (show 0x81 < 4096 by decide)
    (by decide)
  have hlt : 0x81 < 4096 := by decide
  obtain ⟨-, he⟩ := leaf_lt (show 4096 % 4096 = 0 by decide) (by decide) hlt
  rw [mapPage_phys_of_table hpt (by decide) (by decide) hlt]
  rw [hext.forest.noHugePage_leaf (Set.mem_singleton 0) rfl hwalk he, hhuge]
  rintro ⟨-, h | h⟩
  · exact absurd h (by decide)
  · obtain ⟨x, hx⟩ := Option.isSome_iff_exists.mp h
    exact absurd (walk_of_clear (entry_empty 0) hx).1 (by simp [tablePath])

end Paging

end WillowOS
