import WillowOS.Paging.MapPage
import Mathlib.Data.Finset.Card
import Mathlib.Data.Finset.Filter

/-!
# The ways to some pages

`map_page` for pages of a known range looks at few of the tables of a root: those on the ways
to the page tables of these pages. It is enough to know these tables, then, and the rest of
the root – the direct map with its huge pages, tables that were made by others – may be
anything (`WillowOS.Paging.OwnTables`).

Along the ways the tables can also be counted. A table that is missing there
(`WillowOS.Paging.missingTables`) costs one frame, once, whichever of the pages asks for it
first; so that a number of frames left over for other purposes is left over still when a page
was mapped. **`WillowOS.Paging.mapped_mapPage`** says this, together with what `map_page` does
to the pages and to the frames that are in use and hold no table.
-/

namespace WillowOS

namespace Paging

open Frames

/-- **The ways to the page tables of some pages**: their paths from the root, and the
beginnings of these. -/
def waysTo (ws : List ℕ) : Finset (List (Fin 512)) :=
  (ws.flatMap fun w => (tablePath w).inits).toFinset

/-- The ways that do not lead to a table yet. -/
def missingTables (m : Mem) (root : ℕ) (ws : List ℕ) : Finset (List (Fin 512)) :=
  (waysTo ws).filter fun q => walk (next m) root q = none

/-- A free list `alloc_frame` can be used with: its frames are distinct, aligned and not at
`0`, and the direct map reaches them. -/
structure Allocates (rs : List Region) : Prop where
  nodup : (freeFrames rs).Nodup
  aligned : ∀ a ∈ freeFrames rs, a % 4096 = 0
  ne_zero : ∀ a ∈ freeFrames rs, a ≠ 0
  lt : ∀ a ∈ freeFrames rs, a < 2 ^ 47

/-- **The tables on the ways to some pages** are in frames that are not free and that the
direct map reaches, no two ways lead to one table, and no entry on a way maps a huge page. -/
structure OwnTables (root : ℕ) (ws : List ℕ) (s : Phys) : Prop where
  notFree : ∀ q ∈ waysTo ws, ∀ t, walk (next s.mem) root q = some t →
    4096 * t ∉ freeFrames s.regions
  lt : ∀ q ∈ waysTo ws, ∀ t, walk (next s.mem) root q = some t → 4096 * t < 2 ^ 47
  onePath : ∀ q ∈ waysTo ws, ∀ q' ∈ waysTo ws, ∀ t, walk (next s.mem) root q = some t →
    walk (next s.mem) root q' = some t → q = q'
  notHuge : ∀ q i t, q ≠ [] → q ++ [i] ∈ waysTo ws → walk (next s.mem) root q = some t →
    Present (entry s.mem t i) → entry s.mem t i / 128 % 2 = 0

/-- A frame that is in use, for something else than a table on the ways. -/
def Held (root : ℕ) (ws : List ℕ) (s : Phys) (f : ℕ) : Prop :=
  4096 * f ∉ freeFrames s.regions ∧ ∀ q ∈ waysTo ws, walk (next s.mem) root q ≠ some f

/-- **What mapping pages leaves**: the tables are still of their kind, frames were only taken
from the free ones, the frames that were to spare are to spare, and the frames in use for
something else are so, with their contents. -/
structure Grown (root : ℕ) (ws : List ℕ) (s s' : Phys) : Prop where
  tables : OwnTables root ws s'
  free : freeFrames s'.regions <:+ freeFrames s.regions
  room : ∀ n, (missingTables s.mem root ws).card + n ≤ (freeFrames s.regions).length →
    (missingTables s'.mem root ws).card + n ≤ (freeFrames s'.regions).length
  held : ∀ f, Held root ws s f →
    Held root ws s' f ∧ ∀ x, x / 4096 = f → s'.mem x = s.mem x

/-- The entry `e` was put into the page table of `v`, and no other page was changed. -/
structure Mapped (root : ℕ) (ws : List ℕ) (v e : ℕ) (s s' : Phys) : Prop extends
    Grown root ws s s' where
  leaf_self : leaf s'.mem root v = some e
  leaf_of_ne : ∀ w ∈ ws, pageNumber w ≠ pageNumber v → leaf s'.mem root w = leaf s.mem root w

variable {root t u f v w a permissions : ℕ} {ws : List ℕ} {i j : Fin 512}
  {p q : List (Fin 512)} {m m' : Mem} {s s' s'' : Phys} {rs rs' : List Region}

/-! ### Ways -/

theorem mem_waysTo : q ∈ waysTo ws ↔ ∃ w ∈ ws, q <+: tablePath w := by
  simp [waysTo]

theorem tablePath_mem_waysTo (hw : w ∈ ws) : tablePath w ∈ waysTo ws :=
  mem_waysTo.mpr ⟨w, hw, List.prefix_rfl⟩

/-- The beginning of a way is one. -/
theorem waysTo_of_concat (p : List (Fin 512)) (i : Fin 512) (h : p ++ [i] ∈ waysTo ws) :
    p ∈ waysTo ws := by
  obtain ⟨w, hw, hpre⟩ := mem_waysTo.mp h
  exact mem_waysTo.mpr ⟨w, hw, (List.prefix_append p [i]).trans hpre⟩

/-- A way that goes on has not reached a page table. -/
theorem length_lt_of_concat (h : q ++ [i] ∈ waysTo ws) : q.length < 3 := by
  obtain ⟨w, -, hpre⟩ := mem_waysTo.mp h
  have := hpre.length_le
  rw [List.length_append] at this
  exact this

theorem mem_missingTables :
    q ∈ missingTables m root ws ↔ q ∈ waysTo ws ∧ walk (next m) root q = none :=
  Finset.mem_filter

theorem Allocates.mono (h : Allocates rs) (hsub : freeFrames rs' <:+ freeFrames rs) :
    Allocates rs' where
  nodup := h.nodup.sublist hsub.sublist
  aligned := fun a ha => h.aligned a (hsub.subset ha)
  ne_zero := fun a ha => h.ne_zero a (hsub.subset ha)
  lt := fun a ha => h.lt a (hsub.subset ha)

/-- A free frame, by its number. -/
theorem Allocates.exists_frame (h : Allocates rs) (ha : a ∈ freeFrames rs) :
    ∃ f, a = 4096 * f ∧ f ≠ 0 ∧ 4096 * f + 4096 ≤ 2 ^ 47 := by
  have h1 := h.aligned a ha
  have h2 := h.ne_zero a ha
  have h3 := h.lt a ha
  exact ⟨a / 4096, by omega, by omega, by omega⟩

theorem OwnTables.ne_of_free (h : OwnTables root ws s) (hf : 4096 * f ∈ freeFrames s.regions)
    (hq : q ∈ waysTo ws) : walk (next s.mem) root q ≠ some f :=
  fun hw => h.notFree q hq f hw hf

/-! ### Memory in which the ways are not touched -/

/-- The entries on the ways are the same in `m'`. -/
def SameWays (root : ℕ) (ws : List ℕ) (m m' : Mem) : Prop :=
  ∀ q i t, q ++ [i] ∈ waysTo ws → walk (next m) root q = some t → entry m' t i = entry m t i

namespace SameWays

/-- **They lead to the same tables.** -/
theorem walk_eq (h : SameWays root ws m m') (hq : q ∈ waysTo ws) :
    walk (next m') root q = walk (next m) root q := by
  refine walk_congr_along (P := (· ∈ waysTo ws)) waysTo_of_concat (fun q i u hqi hu => ?_) hq
  rw [next, next, h q i u hqi hu]

/-- A page is mapped as it was, if the entry in its page table is the same too. -/
theorem leaf_eq (h : SameWays root ws m m') (hw : w ∈ ws)
    (hentry : ∀ pt, walk (next m) root (tablePath w) = some pt →
      entry m' pt (ptIndex w) = entry m pt (ptIndex w)) :
    leaf m' root w = leaf m root w := by
  rw [leaf, leaf, h.walk_eq (tablePath_mem_waysTo hw)]
  rcases hpt : walk (next m) root (tablePath w) with _ | pt
  · rw [Option.bind_none, Option.bind_none]
  · rw [Option.bind_some, Option.bind_some, hentry pt hpt]

/-- The same tables are missing. -/
theorem missingTables_eq (h : SameWays root ws m m') :
    missingTables m' root ws = missingTables m root ws := by
  refine Finset.filter_congr fun q hq => ?_
  rw [h.walk_eq hq]

/-- The tables are still of their kind, if no frame was freed. -/
theorem ownTables (h : SameWays root ws s.mem m') (hT : OwnTables root ws s)
    (hfree : freeFrames rs' <:+ freeFrames s.regions) : OwnTables root ws ⟨rs', m'⟩ := by
  refine ⟨fun q hq t hw hf => ?_, fun q hq t hw => ?_, fun q hq q' hq' t hw hw' => ?_,
    fun q i t hne hqi hw he => ?_⟩
  · rw [h.walk_eq hq] at hw
    exact hT.notFree q hq t hw (hfree.subset hf)
  · rw [h.walk_eq hq] at hw
    exact hT.lt q hq t hw
  · rw [h.walk_eq hq] at hw
    rw [h.walk_eq hq'] at hw'
    exact hT.onePath q hq q' hq' t hw hw'
  · rw [h.walk_eq (waysTo_of_concat q i hqi)] at hw
    rw [h q i t hqi hw] at he ⊢
    exact hT.notHuge q i t hne hqi hw he

/-- Frames in use stay so. -/
theorem held (h : SameWays root ws s.mem m') (hf : Held root ws s f)
    (hfree : freeFrames rs' <:+ freeFrames s.regions) : Held root ws ⟨rs', m'⟩ f := by
  refine ⟨fun hmem => hf.1 (hfree.subset hmem), fun q hq => ?_⟩
  rw [h.walk_eq hq]
  exact hf.2 q hq

end SameWays

/-! ### Linking a table -/

/-- Outside the new table and the table of the slot, no byte is changed. -/
theorem linkFrame_apply {x : ℕ} (ht : x / 4096 ≠ t) (hf : x / 4096 ≠ f) :
    linkFrame m t i f permissions x = m x := by
  rw [linkFrame, writeEntry, Mem.write64, Mem.writeLE, if_neg (by omega),
    Mem.memset_of_notMem (by omega)]

namespace Grown

theorem refl (hT : OwnTables root ws s) : Grown root ws s s :=
  ⟨hT, List.suffix_rfl, fun _ h => h, fun _ h => ⟨h, fun _ _ => rfl⟩⟩

theorem trans (h : Grown root ws s s') (h' : Grown root ws s' s'') : Grown root ws s s'' where
  tables := h'.tables
  free := h'.free.trans h.free
  room := fun n hn => h'.room n (h.room n hn)
  held := by
    intro f hf
    obtain ⟨hf', hsame⟩ := h.held f hf
    obtain ⟨hf'', hsame'⟩ := h'.held f hf'
    exact ⟨hf'', fun x hx => (hsame' x hx).trans (hsame x hx)⟩

end Grown

/-- The situation in which `map_page` makes a table: the slot at the end of a way is empty, and
`f` is the first free frame. -/
structure NewTable (root : ℕ) (ws : List ℕ) (q : List (Fin 512)) (t : ℕ) (i : Fin 512)
    (f permissions : ℕ) (s : Phys) (rs' : List Region) : Prop where
  tables : OwnTables root ws s
  way : q ++ [i] ∈ waysTo ws
  walk_eq : walk (next s.mem) root q = some t
  slot : ¬Present (entry s.mem t i)
  free : freeFrames s.regions = 4096 * f :: freeFrames rs'
  notFree : 4096 * f ∉ freeFrames rs'
  frame_le : 4096 * f + 4096 ≤ 2 ^ 47
  permissions_lt : permissions < 4096
  present : Present permissions
  notHuge : permissions / 128 % 2 = 0

namespace NewTable

variable (h : NewTable root ws q t i f permissions s rs')
include h

theorem mem_free : 4096 * f ∈ freeFrames s.regions := h.free ▸ List.mem_cons_self

theorem ne_frame (hp : p ∈ waysTo ws) (hu : walk (next s.mem) root p = some u) : u ≠ f := by
  rintro rfl
  exact h.tables.ne_of_free h.mem_free hp hu

theorem table_ne : t ≠ f := h.ne_frame (waysTo_of_concat q i h.way) h.walk_eq

theorem entry_eq : entry (linkFrame s.mem t i f permissions) u j =
    if u = t ∧ j = i then 4096 * f + permissions else if u = f then 0 else entry s.mem u j :=
  entry_linkFrame (h.frame_le.trans (by decide)) h.permissions_lt

theorem entry_fresh : entry (linkFrame s.mem t i f permissions) f j = 0 := by
  rw [h.entry_eq, if_neg fun hf => h.table_ne hf.1.symm, if_pos rfl]

/-- **The new table is the one way more.** -/
theorem walk_link (hp : p ∈ waysTo ws) : walk (next (linkFrame s.mem t i f permissions)) root p =
    if p = q ++ [i] then some f else walk (next s.mem) root p := by
  rw [next_linkFrame (h.frame_le.trans (by decide)) h.permissions_lt h.present]
  exact walk_linkTable_along (P := (· ∈ waysTo ws)) waysTo_of_concat (next_eq_none.mpr h.slot)
    h.table_ne (fun p hp => h.tables.ne_of_free h.mem_free hp) h.walk_eq
    (fun p hp hw => h.tables.onePath p hp q (waysTo_of_concat q i h.way) t hw h.walk_eq) hp

/-- It was missing. -/
theorem walk_none : walk (next s.mem) root (q ++ [i]) = none := by
  rw [walk_concat, h.walk_eq, Option.bind_some]
  exact next_eq_none.mpr h.slot

theorem missingTables_link : missingTables (linkFrame s.mem t i f permissions) root ws =
    (missingTables s.mem root ws).erase (q ++ [i]) := by
  ext p
  rw [Finset.mem_erase, mem_missingTables, mem_missingTables]
  by_cases hp : p ∈ waysTo ws
  · rw [h.walk_link hp]
    by_cases hpq : p = q ++ [i]
    · simp [hpq]
    · simp [hpq]
  · simp [hp]

/-- **A table costs one frame**, of those that were needed anyway. -/
theorem room_link {n : ℕ}
    (hn : (missingTables s.mem root ws).card + n ≤ (freeFrames s.regions).length) :
    (missingTables (linkFrame s.mem t i f permissions) root ws).card + n ≤
      (freeFrames rs').length := by
  have hmem : q ++ [i] ∈ missingTables s.mem root ws :=
    mem_missingTables.mpr ⟨h.way, h.walk_none⟩
  have hcard := Finset.card_erase_add_one hmem
  rw [h.free, List.length_cons] at hn
  rw [h.missingTables_link]
  omega

theorem tables_link : OwnTables root ws ⟨rs', linkFrame s.mem t i f permissions⟩ := by
  have hT := h.tables
  have hsub : ∀ a ∈ freeFrames rs', a ∈ freeFrames s.regions :=
    fun a ha => h.free ▸ List.mem_cons_of_mem _ ha
  -- a way leads to the new table, or to the table it led to
  have hcases : ∀ {p u}, p ∈ waysTo ws →
      walk (next (linkFrame s.mem t i f permissions)) root p = some u →
      p = q ++ [i] ∧ u = f ∨ walk (next s.mem) root p = some u := by
    intro p u hp hw
    rw [h.walk_link hp] at hw
    split_ifs at hw with hpq
    · exact Or.inl ⟨hpq, (Option.some.inj hw).symm⟩
    · exact Or.inr hw
  refine ⟨fun p hp u hw hu => ?_, fun p hp u hw => ?_, fun p hp p' hp' u hw hw' => ?_,
    fun p j u hne hpj hw he => ?_⟩
  · rcases hcases hp hw with ⟨-, rfl⟩ | hold
    · exact h.notFree hu
    · exact hT.notFree p hp u hold (hsub _ hu)
  · rcases hcases hp hw with ⟨-, rfl⟩ | hold
    · have := h.frame_le
      omega
    · exact hT.lt p hp u hold
  · rcases hcases hp hw with ⟨hpq, huf⟩ | hold
    · rcases hcases hp' hw' with ⟨hpq', -⟩ | hold'
      · rw [hpq, hpq']
      · exact absurd huf (h.ne_frame hp' hold')
    · rcases hcases hp' hw' with ⟨-, huf⟩ | hold'
      · exact absurd huf (h.ne_frame hp hold)
      · exact hT.onePath p hp p' hp' u hold hold'
  · have hp := waysTo_of_concat p j hpj
    dsimp only at he ⊢
    rcases hcases hp hw with ⟨-, rfl⟩ | hold
    · rw [h.entry_fresh] at he
      exact absurd he (by decide)
    · rw [h.entry_eq, if_neg (h.ne_frame hp hold)] at he ⊢
      split_ifs at he ⊢
      · have := h.notHuge
        have := h.permissions_lt
        omega
      · exact hT.notHuge p j u hne hpj hold he

/-- **Linking a table only adds to the tables.** -/
theorem grown_link : Grown root ws s ⟨rs', linkFrame s.mem t i f permissions⟩ where
  tables := h.tables_link
  free := by
    show freeFrames rs' <:+ freeFrames s.regions
    rw [h.free]
    exact List.suffix_cons _ _
  room := fun n hn => h.room_link hn
  held := by
    rintro g ⟨hfree, htable⟩
    have hgf : g ≠ f := by
      rintro rfl
      exact hfree h.mem_free
    refine ⟨⟨fun hmem => hfree (h.free ▸ List.mem_cons_of_mem _ hmem), fun p hp => ?_⟩,
      fun x hx => linkFrame_apply ?_ ?_⟩
    · show walk (next (linkFrame s.mem t i f permissions)) root p ≠ some g
      rw [h.walk_link hp]
      split_ifs
      · exact fun hfg => hgf (Option.some.inj hfg).symm
      · exact htable p hp
    · rintro rfl
      exact htable q (waysTo_of_concat q i h.way) (hx ▸ h.walk_eq)
    · exact fun hxf => hgf (hx.symm.trans hxf)

/-- **It maps no page**, since it is empty. -/
theorem leaf_link (hw : w ∈ ws) :
    leaf (linkFrame s.mem t i f permissions) root w = leaf s.mem root w := by
  have hpath : tablePath w ∈ waysTo ws := tablePath_mem_waysTo hw
  rw [leaf, leaf, h.walk_link hpath]
  split_ifs with hpq
  · rw [hpq, h.walk_none, Option.bind_some, h.entry_fresh]
    rfl
  · rcases hpt : walk (next s.mem) root (tablePath w) with _ | pt
    · rw [Option.bind_none, Option.bind_none]
    · -- the table of the slot is no page table
      have hptt : pt ≠ t := by
        rintro rfl
        have := h.tables.onePath _ hpath q (waysTo_of_concat q i h.way) pt hpt h.walk_eq
        have hlen := length_lt_of_concat h.way
        rw [← this] at hlen
        exact absurd hlen (by simp [tablePath])
      rw [Option.bind_some, Option.bind_some, h.entry_eq, if_neg fun hp => hptt hp.1,
        if_neg (h.ne_frame hpath hpt)]

end NewTable

/-! ### The steps of `map_page` -/

/-- **One step of `map_page`**: the table at the end of the way is found or made. -/
theorem grown_ensureEntry (hT : OwnTables root ws s) (hA : Allocates s.regions)
    (hroom : (missingTables s.mem root ws).card ≤ (freeFrames s.regions).length)
    (hlt : permissions < 4096) (hpres : Present permissions) (hsmall : permissions / 128 % 2 = 0)
    (hway : q ++ [i] ∈ waysTo ws) (hwalk : walk (next s.mem) root q = some t) :
    ∃ u, maskFlags (ensureEntry s (4096 * t) i permissions).1 = 4096 * u ∧
      walk (next (ensureEntry s (4096 * t) i permissions).2.mem) root (q ++ [i]) = some u ∧
      Grown root ws s (ensureEntry s (4096 * t) i permissions).2 ∧
      ∀ w ∈ ws, leaf (ensureEntry s (4096 * t) i permissions).2.mem root w =
        leaf s.mem root w := by
  by_cases hslot : Present (entry s.mem t i)
  · rw [ensureEntry_of_present hslot]
    exact ⟨entry s.mem t i / 4096, maskFlags_eq _,
      walk_concat_eq_some.mpr ⟨t, hwalk, next_eq_some.mpr ⟨hslot, rfl⟩⟩, Grown.refl hT,
      fun _ _ => rfl⟩
  · -- the table is missing, so there is a frame for it
    have hmem : q ++ [i] ∈ missingTables s.mem root ws := by
      refine mem_missingTables.mpr ⟨hway, ?_⟩
      rw [walk_concat, hwalk, Option.bind_some]
      exact next_eq_none.mpr hslot
    have hpos := Finset.card_pos.mpr ⟨_, hmem⟩
    obtain ⟨a, fs, hfree⟩ :=
      List.exists_cons_of_ne_nil (List.ne_nil_of_length_pos (hpos.trans_le hroom))
    obtain ⟨rs', halloc, hfs, -⟩ := allocFrame_of_cons hfree
    obtain ⟨f, rfl, -, hle⟩ := hA.exists_frame (hfree ▸ List.mem_cons_self)
    have hnodup := hA.nodup
    rw [hfree, ← hfs] at hnodup
    have hN : NewTable root ws q t i f permissions s rs' :=
      ⟨hT, hway, hwalk, hslot, hfs ▸ hfree, (List.nodup_cons.mp hnodup).1, hle, hlt, hpres,
        hsmall⟩
    rw [ensureEntry_of_alloc hslot halloc]
    refine ⟨f, ?_, ?_, hN.grown_link, fun w hw => hN.leaf_link hw⟩
    · show maskFlags (4096 * f ||| permissions) = 4096 * f
      rw [or_permissions hlt, maskFlags]
      omega
    · show walk (next (linkFrame s.mem t i f permissions)) root (q ++ [i]) = some f
      rw [hN.walk_link hway, if_pos rfl]

/-- **The three steps of `map_page`.** -/
theorem grown_ensureTables (hT : OwnTables root ws s) (hA : Allocates s.regions)
    (hroom : (missingTables s.mem root ws).card ≤ (freeFrames s.regions).length)
    (hlt : permissions < 4096) (hpres : Present permissions) (hsmall : permissions / 128 % 2 = 0)
    (hv : v ∈ ws) :
    ∃ pt, (ensureTables s (4096 * root) v permissions).1 = 4096 * pt ∧
      walk (next (ensureTables s (4096 * root) v permissions).2.mem) root (tablePath v) = some pt ∧
      Grown root ws s (ensureTables s (4096 * root) v permissions).2 ∧
      ∀ w ∈ ws, leaf (ensureTables s (4096 * root) v permissions).2.mem root w =
        leaf s.mem root w := by
  have hway₂ : [] ++ [pml4Index v] ++ [pdptIndex v] ++ [pdIndex v] ∈ waysTo ws :=
    tablePath_mem_waysTo hv
  have hway₃ := waysTo_of_concat _ _ hway₂
  have hway₄ := waysTo_of_concat _ _ hway₃
  obtain ⟨t₃, ht₃, hw₃, hG₄, hl₄⟩ := grown_ensureEntry hT hA hroom hlt hpres hsmall hway₄ walk_nil
  obtain ⟨t₂, ht₂, hw₂, hG₃, hl₃⟩ := grown_ensureEntry hG₄.tables (hA.mono hG₄.free)
    (hG₄.room 0 hroom) hlt hpres hsmall hway₃ hw₃
  have hG := hG₄.trans hG₃
  obtain ⟨t₁, ht₁, hw₁, hG₂, hl₂⟩ := grown_ensureEntry hG.tables (hA.mono hG.free)
    (hG.room 0 hroom) hlt hpres hsmall hway₂ hw₂
  rw [ensureTables]
  simp only [ht₃, ht₂, ht₁]
  exact ⟨t₁, rfl, hw₁, hG.trans hG₂,
    fun w hw => ((hl₂ w hw).trans (hl₃ w hw)).trans (hl₄ w hw)⟩

/-! ### Writing the entry -/

section PageTable

variable {pt e : ℕ} (hT : OwnTables root ws s) (hv : v ∈ ws)
  (hpt : walk (next s.mem) root (tablePath v) = some pt) (he : e < 2 ^ 64)
include hT hv hpt

/-- A table a way goes on from is no page table. -/
theorem ne_pageTable_of_concat (hqi : q ++ [i] ∈ waysTo ws)
    (hu : walk (next s.mem) root q = some u) : u ≠ pt := by
  rintro rfl
  have := hT.onePath q (waysTo_of_concat q i hqi) _ (tablePath_mem_waysTo hv) u hu hpt
  have hlen := length_lt_of_concat hqi
  rw [this] at hlen
  exact absurd hlen (by simp [tablePath])

include he

/-- **Ways do not pass the entries of page tables.** -/
theorem sameWays_pageTable : SameWays root ws s.mem (writeEntry s.mem (4096 * pt) j e) :=
  fun _ _ _ hqi hu => Forest.entry_leaf he (ne_pageTable_of_concat hT hv hpt hqi hu)

theorem grown_pageTable :
    Grown root ws s { s with mem := writeEntry s.mem (4096 * pt) j e } where
  tables := (sameWays_pageTable hT hv hpt he).ownTables hT List.suffix_rfl
  free := List.suffix_rfl
  room := by
    intro n hn
    show (missingTables (writeEntry s.mem (4096 * pt) j e) root ws).card + n ≤ _
    rwa [(sameWays_pageTable hT hv hpt he).missingTables_eq]
  held := by
    intro f hf
    have hne : f ≠ pt := by
      rintro rfl
      exact hf.2 _ (tablePath_mem_waysTo hv) hpt
    refine ⟨(sameWays_pageTable hT hv hpt he).held hf List.suffix_rfl, fun x hx => ?_⟩
    show writeEntry s.mem (4096 * pt) j e x = s.mem x
    rw [writeEntry, Mem.write64, Mem.writeLE, if_neg (by omega)]

/-- The page written. -/
theorem leaf_pageTable_self (hpres : Present e) :
    leaf (writeEntry s.mem (4096 * pt) (ptIndex v) e) root v = some e := by
  rw [leaf, (sameWays_pageTable hT hv hpt he).walk_eq (tablePath_mem_waysTo hv), hpt,
    Option.bind_some, entry_writeEntry he, if_pos ⟨rfl, rfl⟩, ifPresent, if_pos hpres]

/-- Any other page. -/
theorem leaf_pageTable_of_ne (hw : w ∈ ws) (hne : pageNumber w ≠ pageNumber v) :
    leaf (writeEntry s.mem (4096 * pt) (ptIndex v) e) root w = leaf s.mem root w := by
  refine (sameWays_pageTable hT hv hpt he).leaf_eq hw fun pt' hpt' => ?_
  rw [entry_writeEntry he, if_neg]
  rintro ⟨rfl, hidx⟩
  -- one page table is reached by one way
  have := hT.onePath _ (tablePath_mem_waysTo hw) _ (tablePath_mem_waysTo hv) pt' hpt' hpt
  exact hne (pageNumber_eq_iff.mpr ⟨this, hidx⟩)

end PageTable

/-- **`map_page` on the ways to some pages.** If there is a frame for each table that is missing
on the ways, the page is mapped, the other pages are not changed, and frames that were to spare
beyond the missing tables are to spare still. -/
theorem mapped_mapPage {s : State} (hT : OwnTables root ws s.phys) (hA : Allocates s.phys.regions)
    (hroom : (missingTables s.phys.mem root ws).card ≤ (freeFrames s.phys.regions).length)
    (ha : a % 4096 = 0) (ha64 : a < 2 ^ 64) (hlt : permissions < 4096)
    (hpres : Present permissions) (hsmall : permissions / 128 % 2 = 0) (hv : v ∈ ws) :
    Mapped root ws v (a + permissions) s.phys
      (mapPage s (4096 * root) a v permissions).2.phys := by
  obtain ⟨pt, hpt, hwalk, hG, hleaf⟩ := grown_ensureTables hT hA hroom hlt hpres hsmall hv
  obtain ⟨-, he⟩ := leaf_lt ha ha64 hlt
  have hodd : permissions % 2 = 1 := hpres
  rw [mapPage_phys_of_table hpt ha ha64 hlt]
  refine ⟨hG.trans (grown_pageTable hG.tables hv hwalk he), ?_, fun w hw hne => ?_⟩
  · exact leaf_pageTable_self hG.tables hv hwalk he (show (a + permissions) % 2 = 1 by omega)
  · rw [leaf_pageTable_of_ne hG.tables hv hwalk he hw hne, hleaf w hw]

end Paging

end WillowOS
