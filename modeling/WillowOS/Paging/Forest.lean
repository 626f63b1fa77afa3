import WillowOS.Paging.Basic
import Mathlib.Data.Set.Defs

/-!
# Page-table forests

The tables reachable from a set of roots. In a forest (`WillowOS.Paging.Forest`) every
such table is in an allocated frame, and two paths lead to one table only when they are
one path, or when they start in two roots that share the subtree through identical PML4
entries. Since the two paths then have one length, a frame is a table of one level only.

Two changes are considered, and they are all `map_page` makes. Linking a fresh, cleared
frame into an empty slot keeps the forest and every translation
(`WillowOS.Paging.Forest.link`, `WillowOS.Paging.Forest.translate_link`): the new table
is empty, and its level decides which walks could end in it. Writing an entry of a page
table keeps all walks to page tables, and changes the translation of one page
(`WillowOS.Paging.Forest.translate_leaf`).
-/

namespace WillowOS

namespace Paging

open Frames

/-- Two paths that may lead to one table: a path from one root, or paths from two roots
that share the subtree through identical PML4 entries. -/
def SamePath (m : Mem) (r : ℕ) (p : List (Fin 512)) (r' : ℕ) (p' : List (Fin 512)) : Prop :=
  (r = r' ∧ p = p') ∨
    r ≠ r' ∧ ∃ i i' q, p = i :: q ∧ p' = i' :: q ∧ entry m r i = entry m r' i'

/-- **A page-table forest**: the tables reachable from the roots are distinct allocated
frames, shared between roots only through identical PML4 entries. A path has at most
three slots: the entries of a page table do not point to tables. -/
structure Forest (m : Mem) (rs : List Region) (roots : Set ℕ) : Prop where
  frame : ∀ r ∈ roots, ∀ p t, p.length ≤ 3 → walk (next m) r p = some t →
    4096 * t ∉ freeFrames rs ∧ 4096 * t + 4096 ≤ 2 ^ 64
  distinct : ∀ r ∈ roots, ∀ r' ∈ roots, ∀ p p' t, p.length ≤ 3 → p'.length ≤ 3 →
    walk (next m) r p = some t → walk (next m) r' p' = some t → SamePath m r p r' p'

/-- No entry of a page-directory-pointer table or of a page directory has the bit that
makes it map a huge page. -/
def NoHugePage (m : Mem) (roots : Set ℕ) : Prop :=
  ∀ r ∈ roots, ∀ p t, p.length = 1 ∨ p.length = 2 → walk (next m) r p = some t →
    ∀ i, Present (entry m t i) → entry m t i / 128 % 2 = 0

/-- Root `r` shares the subtree of slot `i` of `root`. -/
def Shares (m : Mem) (root r : ℕ) (i : Fin 512) : Prop :=
  Present (entry m root i) ∧ ∃ j, entry m r j = entry m root i

variable {m m' : Mem} {rs rs' : List Region} {roots : Set ℕ} {root r r' t u f w permissions : ℕ}
  {i j : Fin 512} {p p' : List (Fin 512)}

theorem SamePath.length_eq (h : SamePath m r p r' p') : p.length = p'.length := by
  rcases h with ⟨-, rfl⟩ | ⟨-, i, i', q, rfl, rfl, -⟩
  · rfl
  · simp only [List.length_cons]

/-- Sharing depends on the entries of the roots only. -/
theorem SamePath.congr (h : SamePath m r p r' p')
    (hr : ∀ i q, p = i :: q → entry m' r i = entry m r i)
    (hr' : ∀ i q, p' = i :: q → entry m' r' i = entry m r' i) : SamePath m' r p r' p' := by
  rcases h with h | ⟨hne, i, i', q, hp, hp', he⟩
  · exact Or.inl h
  · refine Or.inr ⟨hne, i, i', q, hp, hp', ?_⟩
    rw [hr i q hp, hr' i' q hp', he]

/-- One slot further, the paths still agree. -/
theorem SamePath.concat (h : SamePath m r p r' p') : SamePath m r (p ++ [i]) r' (p' ++ [i]) := by
  rcases h with ⟨rfl, rfl⟩ | ⟨hne, k, k', q, rfl, rfl, he⟩
  · exact Or.inl ⟨rfl, rfl⟩
  · exact Or.inr ⟨hne, k, k', q ++ [i], rfl, rfl, he⟩

namespace Forest

/-- **A table has one level.** -/
theorem length_eq (hF : Forest m rs roots) (hr : r ∈ roots) (hr' : r' ∈ roots) (hp : p.length ≤ 3)
    (hp' : p'.length ≤ 3) (h : walk (next m) r p = some t) (h' : walk (next m) r' p' = some t) :
    p.length = p'.length :=
  (hF.distinct r hr r' hr' p p' t hp hp' h h').length_eq

/-- A root is reached from itself only. -/
theorem eq_root (hF : Forest m rs roots) (hr : r ∈ roots) (hr' : r' ∈ roots) (hp : p.length ≤ 3)
    (h : walk (next m) r p = some r') : r = r' ∧ p = [] := by
  have hlen : p.length = ([] : List (Fin 512)).length :=
    hF.length_eq hr hr' hp (by simp) h walk_nil
  obtain rfl : p = [] := List.eq_nil_of_length_eq_zero hlen
  exact ⟨Option.some.inj h, rfl⟩

/-- A free frame is no table. -/
theorem walk_ne (hF : Forest m rs roots) (hr : r ∈ roots) (hf : 4096 * f ∈ freeFrames rs)
    (hp : p.length ≤ 3) : walk (next m) r p ≠ some f :=
  fun h => (hF.frame r hr p f hp h).1 hf

/-- Nor is it a root. -/
theorem root_ne (hF : Forest m rs roots) (hr : r ∈ roots) (hf : 4096 * f ∈ freeFrames rs) :
    r ≠ f := by
  have hnil : ([] : List (Fin 512)).length ≤ 3 := by simp
  rintro rfl
  exact hF.walk_ne hr hf hnil walk_nil

/-- A walk of at least one slot leaves its root by a present entry. -/
theorem present_of_walk_cons {q : List (Fin 512)} (h : walk (next m) r (i :: q) = some t) :
    Present (entry m r i) := by
  rw [walk_cons] at h
  obtain ⟨u, hu, -⟩ := Option.bind_eq_some_iff.mp h
  exact (next_eq_some.mp hu).1

end Forest

/-! ### Linking a fresh table -/

/-- The memory after a frame was cleared and put into a slot. -/
def linkFrame (m : Mem) (t : ℕ) (i : Fin 512) (f permissions : ℕ) : Mem :=
  writeEntry (m.memset (4096 * f) 0 4096) (4096 * t) i (4096 * f ||| permissions)

/-- The entries after a table is linked. -/
theorem entry_linkFrame (hf : 4096 * f + 4096 ≤ 2 ^ 64) (hp : permissions < 4096) :
    entry (linkFrame m t i f permissions) u j =
      if u = t ∧ j = i then 4096 * f + permissions else if u = f then 0 else entry m u j := by
  rw [linkFrame, or_permissions hp, entry_writeEntry (by omega), entry_memset]

/-- Seen as slots, the change is that of a fresh table linked. -/
theorem next_linkFrame (hf : 4096 * f + 4096 ≤ 2 ^ 64) (hp : permissions < 4096)
    (hpres : Present permissions) :
    next (linkFrame m t i f permissions) = linkTable (next m) t i f := by
  have hodd : permissions % 2 = 1 := hpres
  ext u j : 2
  rw [next, entry_linkFrame hf hp, linkTable]
  split_ifs with h1 h2 h3 h4 h5
  · congr 1
    omega
  · exact absurd (show (4096 * f + permissions) % 2 = 1 by omega) h2
  · cases h4
  · rfl
  · rw [next, if_pos h5]
  · rw [next, if_neg h5]

/-- The situation in which a table is linked: the slot `i` of the table `t`, which is
reached from a root, is empty, and `f` is a free frame. -/
structure Linkable (m : Mem) (rs : List Region) (roots : Set ℕ) (root : ℕ) (p : List (Fin 512))
    (t : ℕ) (i : Fin 512) (f permissions : ℕ) : Prop where
  forest : Forest m rs roots
  root_mem : root ∈ roots
  length_lt : p.length < 3
  walk_eq : walk (next m) root p = some t
  slot : ¬Present (entry m t i)
  free : 4096 * f ∈ freeFrames rs
  frame_le : 4096 * f + 4096 ≤ 2 ^ 64
  permissions_lt : permissions < 4096
  permissions_present : Present permissions

namespace Linkable

variable (h : Linkable m rs roots root p t i f permissions)
include h

theorem table_ne : t ≠ f := by
  rintro rfl
  exact h.forest.walk_ne h.root_mem h.free h.length_lt.le h.walk_eq

theorem entry_eq : entry (linkFrame m t i f permissions) u j =
    if u = t ∧ j = i then 4096 * f + permissions else if u = f then 0 else entry m u j :=
  entry_linkFrame h.frame_le h.permissions_lt

/-- The entries of the new table are clear. -/
theorem entry_fresh : entry (linkFrame m t i f permissions) f j = 0 := by
  rw [h.entry_eq, if_neg fun hf => h.table_ne hf.1.symm, if_pos rfl]

/-- A present entry of a table that is reached is not changed. -/
theorem entry_of_present (hu : u ≠ f) (he : Present (entry m u j)) :
    entry (linkFrame m t i f permissions) u j = entry m u j := by
  rw [h.entry_eq, if_neg, if_neg hu]
  rintro ⟨rfl, rfl⟩
  exact h.slot he

theorem next_eq : next (linkFrame m t i f permissions) = linkTable (next m) t i f :=
  next_linkFrame h.frame_le h.permissions_lt h.permissions_present

/-- The walks after the link. -/
theorem walk_link (hr : r ∈ roots) {q : List (Fin 512)} {x : ℕ} (hq : q.length ≤ 3) :
    walk (next (linkFrame m t i f permissions)) r q = some x ↔
      walk (next m) r q = some x ∨ x = f ∧ ∃ q', q = q' ++ [i] ∧ walk (next m) r q' = some t := by
  rw [h.next_eq]
  exact walk_linkTable (next_eq_none.mpr h.slot) h.table_ne
    (fun q' hq' => h.forest.walk_ne hr h.free hq') hq

/-- Walks that end on another level than the new table are not changed. -/
theorem walk_of_length_ne (hr : r ∈ roots) {q : List (Fin 512)} (hq : q.length ≤ 3)
    (hne : q.length ≠ p.length + 1) :
    walk (next (linkFrame m t i f permissions)) r q = walk (next m) r q := by
  ext x
  simp only [h.walk_link hr hq]
  refine or_iff_left ?_
  rintro ⟨-, q', rfl, hq'⟩
  rw [List.length_append, List.length_singleton] at hq hne
  have := h.forest.length_eq hr h.root_mem (Nat.le_of_succ_le hq) h.length_lt.le hq' h.walk_eq
  omega

/-- **The new table is reached through the slot.** -/
theorem walk_self : walk (next (linkFrame m t i f permissions)) root (p ++ [i]) = some f := by
  have hlen : (p ++ [i]).length ≤ 3 := by
    rw [List.length_append]
    exact h.length_lt
  exact (h.walk_link h.root_mem hlen).mpr (Or.inr ⟨rfl, p, rfl, h.walk_eq⟩)

/-- **Linking a fresh table keeps the forest.** -/
theorem forest_link (hrs : ∀ a ∈ freeFrames rs', a ∈ freeFrames rs)
    (hf : 4096 * f ∉ freeFrames rs') :
    Forest (linkFrame m t i f permissions) rs' roots := by
  have hF := h.forest
  -- the PML4 entry a walk leaves its root by is present, hence unchanged
  have hentry : ∀ r ∈ roots, ∀ q x, walk (next m) r q = some x → ∀ k q', q = k :: q' →
      entry (linkFrame m t i f permissions) r k = entry m r k := by
    rintro r hr q x hq k q' rfl
    exact h.entry_of_present (hF.root_ne hr h.free) (Forest.present_of_walk_cons hq)
  -- two old paths to one table
  have hsame : ∀ r ∈ roots, ∀ r' ∈ roots, ∀ q q' x, q.length ≤ 3 → q'.length ≤ 3 →
      walk (next m) r q = some x → walk (next m) r' q' = some x →
      SamePath (linkFrame m t i f permissions) r q r' q' := by
    intro r hr r' hr' q q' x hq hq' hw hw'
    exact (hF.distinct r hr r' hr' q q' x hq hq' hw hw').congr (hentry r hr q x hw)
      (hentry r' hr' q' x hw')
  refine ⟨fun r hr q x hq hnew => ?_, fun r hr r' hr' q q' x hq hq' hnew hnew' => ?_⟩
  · rcases (h.walk_link hr hq).mp hnew with hw | ⟨rfl, -⟩
    · obtain ⟨hfree, hle⟩ := hF.frame r hr q x hq hw
      exact ⟨fun hx => hfree (hrs _ hx), hle⟩
    · exact ⟨hf, h.frame_le⟩
  · rcases (h.walk_link hr hq).mp hnew with hw | ⟨rfl, q₁, rfl, hw⟩
    · rcases (h.walk_link hr' hq').mp hnew' with hw' | ⟨rfl, -⟩
      · exact hsame r hr r' hr' q q' x hq hq' hw hw'
      · exact absurd hw (hF.walk_ne hr h.free hq)
    · rcases (h.walk_link hr' hq').mp hnew' with hw' | ⟨-, q₁', rfl, hw'⟩
      · exact absurd hw' (hF.walk_ne hr' h.free hq')
      · -- both end in the slot, so both lead to the table of the slot
        rw [List.length_append] at hq hq'
        exact (hsame r hr r' hr' q₁ q₁' t (Nat.le_of_succ_le hq) (Nat.le_of_succ_le hq') hw
          hw').concat

/-- **Linking a fresh table changes no entry of a page table**: the table is empty. -/
theorem leaf_link (hr : r ∈ roots) :
    leaf (linkFrame m t i f permissions) r w = leaf m r w := by
  have hlen : (tablePath w).length ≤ 3 := le_rfl
  ext e
  simp only [leaf, Option.bind_eq_some_iff, h.walk_link hr hlen, ifPresent_eq_some]
  constructor
  · rintro ⟨pt, hw | ⟨rfl, -⟩, hleaf⟩
    · have hptf : pt ≠ f := fun hpt => h.forest.walk_ne hr h.free hlen (hpt ▸ hw)
      have hptt : pt ≠ t := by
        rintro rfl
        have := h.forest.length_eq hr h.root_mem hlen h.length_lt.le hw h.walk_eq
        exact h.length_lt.ne this.symm
      rw [h.entry_eq, if_neg fun hpt => hptt hpt.1, if_neg hptf] at hleaf
      exact ⟨pt, hw, hleaf⟩
    · rw [h.entry_fresh] at hleaf
      exact absurd hleaf.1 (by decide)
  · rintro ⟨pt, hw, hleaf⟩
    refine ⟨pt, Or.inl hw, ?_⟩
    rwa [h.entry_of_present (fun hpt => h.forest.walk_ne hr h.free hlen (hpt ▸ hw)) hleaf.1]

/-- **Linking a fresh table keeps every translation.** -/
theorem translate_link (hr : r ∈ roots) :
    translate (linkFrame m t i f permissions) r w = translate m r w := by
  rw [translate_eq_map_leaf, translate_eq_map_leaf, h.leaf_link hr]

/-- Linking a table makes no root share more with another. -/
theorem shares_of_link (hr : r ∈ roots) (hne : r ≠ root) {k : Fin 512}
    (hs : Shares (linkFrame m t i f permissions) root r k) : Shares m root r k := by
  obtain ⟨hk, l, hl⟩ := hs
  have hF := h.forest
  -- the slot is not one of another root
  have hrl : entry (linkFrame m t i f permissions) r l = entry m r l := by
    rw [h.entry_eq, if_neg, if_neg (hF.root_ne hr h.free)]
    rintro ⟨rfl, -⟩
    exact hne (hF.eq_root h.root_mem hr h.length_lt.le h.walk_eq).1.symm
  rw [hrl] at hl
  by_cases hti : root = t ∧ k = i
  · -- a new PML4 entry points to a frame no root points to
    have hroot : entry (linkFrame m t i f permissions) root k = 4096 * f + permissions := by
      rw [h.entry_eq, if_pos hti]
    have hnext : walk (next m) r [l] = some f := by
      rw [walk_singleton, next_eq_some, hl]
      refine ⟨hk, ?_⟩
      have hp := h.permissions_lt
      rw [hroot]
      omega
    exact absurd hnext (hF.walk_ne hr h.free (by simp))
  · rw [h.entry_eq, if_neg hti, if_neg (hF.root_ne h.root_mem h.free)] at hk hl
    exact ⟨hk, l, hl⟩

/-- **When linking a table makes a huge page**: when the bit is in the permissions, and
the slot is not in a PML4 table. -/
theorem noHugePage_link : NoHugePage (linkFrame m t i f permissions) roots ↔
    NoHugePage m roots ∧ (permissions / 128 % 2 = 0 ∨ p = []) := by
  have hF := h.forest
  constructor
  · intro hN
    refine ⟨fun r hr q x hq hw k hk => ?_, ?_⟩
    · have hq3 : q.length ≤ 3 := by omega
      have he := h.entry_of_present (fun hx => hF.walk_ne hr h.free hq3 (hx ▸ hw)) hk
      have := hN r hr q x hq ((h.walk_link hr hq3).mpr (Or.inl hw)) k
      rw [he] at this
      exact this hk
    · refine or_iff_not_imp_right.mpr fun hp => ?_
      have hlen : p.length = 1 ∨ p.length = 2 := by
        have := h.length_lt
        have := List.length_pos_iff.mpr hp
        omega
      have hw : walk (next (linkFrame m t i f permissions)) root p = some t :=
        (h.walk_link h.root_mem h.length_lt.le).mpr (Or.inl h.walk_eq)
      have hodd : permissions % 2 = 1 := h.permissions_present
      have := hN root h.root_mem p t hlen hw i
      rw [h.entry_eq, if_pos ⟨rfl, rfl⟩] at this
      have := this (show (4096 * f + permissions) % 2 = 1 by omega)
      omega
  · rintro ⟨hN, hbit⟩ r hr q x hq hnew k hk
    have hq3 : q.length ≤ 3 := by omega
    have hpl := h.permissions_lt
    rcases (h.walk_link hr hq3).mp hnew with hw | ⟨rfl, -⟩
    · have hxf : x ≠ f := fun hx => hF.walk_ne hr h.free hq3 (hx ▸ hw)
      rw [h.entry_eq] at hk ⊢
      split_ifs at hk ⊢ with hxt
      · -- the slot itself, in a table of the level of `q`
        obtain ⟨rfl, rfl⟩ := hxt
        have hlen := hF.length_eq hr h.root_mem hq3 h.length_lt.le hw h.walk_eq
        have hp : p ≠ [] := by
          rintro rfl
          rw [List.length_nil] at hlen
          omega
        have := hbit.resolve_right hp
        omega
      · exact hN r hr q x hq hw k hk
    · rw [h.entry_fresh] at hk
      exact absurd hk (by decide)

end Linkable

/-! ### Writing an entry of a page table -/

namespace Forest

variable {pt e : ℕ}

/-- The situation at the end of `map_page`: `pt` is a page table of the forest. -/
theorem ne_pageTable (hF : Forest m rs roots) (hroot : root ∈ roots) (hp : p.length = 3)
    (hpt : walk (next m) root p = some pt) (hr : r ∈ roots) {q : List (Fin 512)}
    (hq : q.length < 3) (hw : walk (next m) r q = some u) : u ≠ pt := by
  rintro rfl
  have := hF.length_eq hr hroot hq.le hp.le hw hpt
  omega

/-- Entries of other tables are not changed. -/
theorem entry_leaf (he : e < 2 ^ 64) (hu : u ≠ pt) {k : Fin 512} :
    entry (writeEntry m (4096 * pt) j e) u k = entry m u k := by
  rw [entry_writeEntry he, if_neg fun h => hu h.1]

/-- **Walks to tables do not see the entries of page tables.** -/
theorem walk_leaf (hF : Forest m rs roots) (hroot : root ∈ roots) (hp : p.length = 3)
    (hpt : walk (next m) root p = some pt) (he : e < 2 ^ 64) (hr : r ∈ roots)
    {q : List (Fin 512)} (hq : q.length ≤ 3) :
    walk (next (writeEntry m (4096 * pt) j e)) r q = walk (next m) r q := by
  refine walk_congr fun q' u hq' hw => ?_
  have hu : u ≠ pt := hF.ne_pageTable hroot hp hpt hr (hq'.trans_le hq) hw
  funext k
  rw [next, next, entry_leaf he hu]

/-- The forest is kept. -/
theorem forest_leaf (hF : Forest m rs roots) (hroot : root ∈ roots) (hp : p.length = 3)
    (hpt : walk (next m) root p = some pt) (he : e < 2 ^ 64) :
    Forest (writeEntry m (4096 * pt) j e) rs roots := by
  have hentry : ∀ r ∈ roots, ∀ k, entry (writeEntry m (4096 * pt) j e) r k = entry m r k :=
    fun r hr k => entry_leaf he (hF.ne_pageTable hroot hp hpt hr (by simp) walk_nil)
  refine ⟨fun r hr q x hq hw => ?_, fun r hr r' hr' q q' x hq hq' hw hw' => ?_⟩
  · rw [hF.walk_leaf hroot hp hpt he hr hq] at hw
    exact hF.frame r hr q x hq hw
  · rw [hF.walk_leaf hroot hp hpt he hr hq] at hw
    rw [hF.walk_leaf hroot hp hpt he hr' hq'] at hw'
    exact (hF.distinct r hr r' hr' q q' x hq hq' hw hw').congr (fun k _ _ => hentry r hr k)
      (fun k _ _ => hentry r' hr' k)

/-- No entry of the upper levels is touched. -/
theorem noHugePage_leaf (hF : Forest m rs roots) (hroot : root ∈ roots) (hp : p.length = 3)
    (hpt : walk (next m) root p = some pt) (he : e < 2 ^ 64) :
    NoHugePage (writeEntry m (4096 * pt) j e) roots ↔ NoHugePage m roots := by
  have hsame : ∀ r ∈ roots, ∀ q x, q.length = 1 ∨ q.length = 2 → walk (next m) r q = some x →
      ∀ k, entry (writeEntry m (4096 * pt) j e) x k = entry m x k :=
    fun r hr q x hq hw k => entry_leaf he (hF.ne_pageTable hroot hp hpt hr (by omega) hw)
  constructor
  · intro hN r hr q x hq hw k hk
    have hw' := (hF.walk_leaf hroot hp hpt he hr (j := j) (show q.length ≤ 3 by omega)).trans hw
    have := hN r hr q x hq hw' k
    rw [hsame r hr q x hq hw k] at this
    exact this hk
  · intro hN r hr q x hq hw k hk
    rw [hF.walk_leaf hroot hp hpt he hr (by omega)] at hw
    rw [hsame r hr q x hq hw k] at hk ⊢
    exact hN r hr q x hq hw k hk

/-- **The page written.** -/
theorem leaf_leaf_self (hF : Forest m rs roots) (hroot : root ∈ roots)
    (hpt : walk (next m) root (tablePath w) = some pt) (he : e < 2 ^ 64) :
    leaf (writeEntry m (4096 * pt) (ptIndex w) e) root w = ifPresent e := by
  have hwalk : walk (next (writeEntry m (4096 * pt) (ptIndex w) e)) root (tablePath w) = some pt :=
    (hF.walk_leaf hroot rfl hpt he hroot le_rfl).trans hpt
  rw [leaf, hwalk, Option.bind_some, entry_writeEntry he, if_pos ⟨rfl, rfl⟩]

theorem translate_leaf_self (hF : Forest m rs roots) (hroot : root ∈ roots)
    (hpt : walk (next m) root (tablePath w) = some pt) (he : e < 2 ^ 64) (hpres : Present e) :
    translate (writeEntry m (4096 * pt) (ptIndex w) e) root w = some (maskFlags e + w % 4096) := by
  rw [translate_eq_map_leaf, hF.leaf_leaf_self hroot hpt he, ifPresent, if_pos hpres,
    Option.map_some]

/-- **Any other page**: it is not mapped by the entry written. -/
theorem leaf_leaf (hF : Forest m rs roots) (hroot : root ∈ roots) (hp : p.length = 3)
    (hpt : walk (next m) root p = some pt) (he : e < 2 ^ 64) (hr : r ∈ roots)
    (hother : walk (next m) r (tablePath w) = some pt → ptIndex w ≠ j) :
    leaf (writeEntry m (4096 * pt) j e) r w = leaf m r w := by
  rw [leaf, leaf, hF.walk_leaf hroot hp hpt he hr le_rfl]
  rcases hw : walk (next m) r (tablePath w) with _ | x
  · rw [Option.bind_none, Option.bind_none]
  · have hentry : entry (writeEntry m (4096 * pt) j e) x (ptIndex w) = entry m x (ptIndex w) := by
      rw [entry_writeEntry he, if_neg]
      rintro ⟨rfl, hj⟩
      exact hother hw hj
    rw [Option.bind_some, Option.bind_some, hentry]

theorem translate_leaf (hF : Forest m rs roots) (hroot : root ∈ roots) (hp : p.length = 3)
    (hpt : walk (next m) root p = some pt) (he : e < 2 ^ 64) (hr : r ∈ roots)
    (hother : walk (next m) r (tablePath w) = some pt → ptIndex w ≠ j) :
    translate (writeEntry m (4096 * pt) j e) r w = translate m r w := by
  rw [translate_eq_map_leaf, translate_eq_map_leaf, hF.leaf_leaf hroot hp hpt he hr hother]

end Forest

end Paging

end WillowOS
