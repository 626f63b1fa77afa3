import WillowOS.Vm.Spaces

/-!
# The walk of the hardware

For an address of the lower half, the hardware finds the entry of its page where the kernel has
put it (`WillowOS.Vm.Spaces.mmuTranslate_eq`): the tables are where the direct map reaches them,
so that bits 12 to 51 of an entry are all of its address, and no entry of an upper level maps a
huge page. What is written through the mapping of a page is then written to a frame that has
neither a table nor anything of the kernel (`WillowOS.Vm.Stores`), and it does not touch the
address spaces.

In the upper half there may be anything. There a walk depends on the upper half of its root and
on the frames it passes (`WillowOS.Vm.kernelTables`), and if those are not written it stays the
same (`WillowOS.Vm.walkEntry_of_kernelKept`).
-/

namespace WillowOS

namespace Vm

open Paging

open Frames hiding State

variable {roots K : Set ℕ} {m m' m'' : Mem} {s s' : Phys} {root r t e v w x n cr3 : ℕ}
  {i : Fin 512} {p : List (Fin 512)} {b : ℕ → UInt8}

/-! ### Walks, level by level -/

/-- **The entry the walk of the hardware ends in**, from a table of a level on, with the level
of the entry: one that is not present or maps a huge page, or that of a page table. -/
def walkFrom (m : Mem) (w : ℕ) : ℕ → ℕ → ℕ × ℕ
  | 0, table => (0, readEntry m table (tableIndex 0 w))
  | level + 1, table =>
    let e := readEntry m table (tableIndex (level + 1) w)
    if ¬Present e ∨ level < 2 ∧ HugePage e then (level + 1, e)
    else walkFrom m w level (4096 * frameNumber e)

/-- The entry the walk from a root ends in. -/
def walkEntry (m : Mem) (cr3 w : ℕ) : ℕ × ℕ := walkFrom m w 3 cr3

/-- The frames of the tables the walk goes on to. -/
def visitedFrom (m : Mem) (w : ℕ) : ℕ → ℕ → List ℕ
  | 0, _ => []
  | level + 1, table =>
    let e := readEntry m table (tableIndex (level + 1) w)
    if ¬Present e ∨ level < 2 ∧ HugePage e then []
    else frameNumber e :: visitedFrom m w level (4096 * frameNumber e)

/-- The translation the entry of a level gives. -/
def translateEntry (w : ℕ) : ℕ × ℕ → Option ℕ
  | (level, e) =>
    if ¬Canonical w ∨ ¬Present e then none
    else if level = 2 then some (e / 2 ^ 30 % 2 ^ 22 * 2 ^ 30 + w % 2 ^ 30)
    else if level = 1 then some (e / 2 ^ 21 % 2 ^ 31 * 2 ^ 21 + w % 2 ^ 21)
    else some (4096 * frameNumber e + w % 4096)

theorem translateEntry_of_not_present {level : ℕ} (h : ¬Present e) :
    translateEntry w (level, e) = none :=
  if_pos (Or.inr h)

/-- The translation by the entries of the four levels. -/
theorem translate_levels (e₄ e₃ e₂ e₁ : ℕ) :
    (if ¬Canonical w ∨ ¬Present e₄ ∨ ¬Present e₃ then none
      else if HugePage e₃ then some (e₃ / 2 ^ 30 % 2 ^ 22 * 2 ^ 30 + w % 2 ^ 30)
      else if ¬Present e₂ then none
      else if HugePage e₂ then some (e₂ / 2 ^ 21 % 2 ^ 31 * 2 ^ 21 + w % 2 ^ 21)
      else if ¬Present e₁ then none
      else some (4096 * frameNumber e₁ + w % 4096)) =
    translateEntry w (if ¬Present e₄ ∨ 2 < 2 ∧ HugePage e₄ then (3, e₄)
      else if ¬Present e₃ ∨ 1 < 2 ∧ HugePage e₃ then (2, e₃)
      else if ¬Present e₂ ∨ 0 < 2 ∧ HugePage e₂ then (1, e₂) else (0, e₁)) := by
  by_cases hc : Canonical w
  swap
  · simp [translateEntry, hc]
  by_cases h₄ : Present e₄
  swap
  · simp [translateEntry, h₄]
  by_cases h₃ : Present e₃
  swap
  · simp [translateEntry, h₄, h₃]
  by_cases g₃ : HugePage e₃
  · simp [translateEntry, hc, h₄, h₃, g₃]
  by_cases h₂ : Present e₂
  swap
  · simp [translateEntry, h₄, h₃, g₃, h₂]
  by_cases g₂ : HugePage e₂
  · simp [translateEntry, hc, h₄, h₃, g₃, h₂, g₂]
  · simp [translateEntry, hc, h₄, h₃, g₃, h₂, g₂]

/-- The translation is read off the entry the walk ends in. -/
theorem mmuTranslate_eq_walkEntry :
    mmuTranslate m cr3 w = translateEntry w (walkEntry m cr3 w) :=
  translate_levels _ _ _ _

/-- A walk depends on the entry it starts with, and on the tables it goes on to. -/
theorem walkFrom_congr {level table : ℕ}
    (h0 : readEntry m' table (tableIndex level w) = readEntry m table (tableIndex level w))
    (hK : ∀ k ∈ visitedFrom m w level table, ∀ i, entry m' k i = entry m k i) :
    walkFrom m' w level table = walkFrom m w level table := by
  induction level generalizing table with
  | zero => rw [walkFrom, walkFrom, h0]
  | succ level ih =>
    simp only [walkFrom, visitedFrom, h0] at hK ⊢
    split_ifs at hK ⊢ with hend
    · rfl
    · exact ih (hK _ List.mem_cons_self _) fun k hk => hK k (List.mem_cons_of_mem _ hk)

/-! ### The lower half -/

theorem readEntry_eq_entry : readEntry m (4096 * t) i = entry m t i := rfl

/-- The slots of an address from a level down to the page table. -/
def slotsFrom (w : ℕ) : ℕ → List (Fin 512)
  | 0 => []
  | level + 1 => tableIndex (level + 1) w :: slotsFrom w level

namespace Spaces

variable (h : Spaces roots K s)
include h

/-- The hardware follows an entry to the table the kernel finds. -/
theorem frameNumber_eq (hr : r ∈ roots) (hp : p.length < 3) (hi : p = [] → i.val < 256)
    (hw : walk (next (userHalf roots s.mem)) r p = some t) (he : Present (entry s.mem t i)) :
    frameNumber (entry s.mem t i) = entry s.mem t i / 4096 := by
  have hlen : (p ++ [i]).length ≤ 3 := by
    rw [List.length_append]
    exact hp
  have := h.table_le _ ⟨r, hr, p ++ [i], hlen, h.walk_concat_of_present hr hp.le hi hw he⟩
  exact Nat.mod_eq_of_lt (by omega)

/-- There are no huge pages. -/
theorem not_hugePage (hr : r ∈ roots) (hp : p.length = 1 ∨ p.length = 2)
    (hw : walk (next (userHalf roots s.mem)) r p = some t) (he : Present (entry s.mem t i)) :
    ¬HugePage (entry s.mem t i) := by
  have hlow : t ∈ roots → i.val < 256 := by
    refine h.slot_lt hr (by omega) hw ?_
    rintro rfl
    simp at hp
  rw [← entry_userHalf hlow] at he ⊢
  have := h.noHugePage r hr p t hp hw i he
  rw [HugePage]
  omega

/-- From a table of the lower half on, the hardware finds what the kernel does. -/
theorem translateEntry_walkFrom {level : ℕ} (hr : r ∈ roots) (hw : w < 2 ^ 47)
    (hp : p.length + level = 3) (hi : p = [] → (tableIndex level w).val < 256)
    (ht : walk (next (userHalf roots s.mem)) r p = some t) :
    translateEntry w (walkFrom s.mem w level (4096 * t)) =
      ((walk (next (userHalf roots s.mem)) t (slotsFrom w level)).bind fun pt =>
        ifPresent (entry (userHalf roots s.mem) pt (ptIndex w))).map
          fun e => 4096 * frameNumber e + w % 4096 := by
  have hcan : Canonical w := Or.inl hw
  induction level generalizing p t with
  | zero =>
    rw [walkFrom, readEntry_eq_entry, slotsFrom, walk_nil, Option.bind_some, ptIndex,
      entry_userHalf (h.slot_lt hr (by omega) ht hi), ifPresent]
    split_ifs with he
    · simp [translateEntry, hcan, he]
    · rw [translateEntry_of_not_present he, Option.map_none]
  | succ level ih =>
    rw [walkFrom, readEntry_eq_entry, slotsFrom, walk_cons]
    by_cases he : Present (entry s.mem t (tableIndex (level + 1) w))
    · have hnext := h.walk_concat_of_present hr (by omega) hi ht he
      have hhuge : ¬(level < 2 ∧ HugePage (entry s.mem t (tableIndex (level + 1) w))) :=
        fun hb => h.not_hugePage hr (by omega) ht he hb.2
      have hlen : (p ++ [tableIndex (level + 1) w]).length + level = 3 := by
        rw [List.length_append, List.length_singleton]
        omega
      rw [if_neg (not_or.mpr ⟨not_not.mpr he, hhuge⟩), h.frameNumber_eq hr (by omega) hi ht he,
        ih hlen (by simp) hnext]
      rw [walk_concat, ht, Option.bind_some] at hnext
      rw [hnext, Option.bind_some]
    · have hnext := h.walk_concat_of_not_present hr (by omega) hi ht he
      rw [if_pos (Or.inl he), translateEntry_of_not_present he]
      rw [walk_concat, ht, Option.bind_some] at hnext
      rw [hnext, Option.bind_none, Option.bind_none, Option.map_none]

/-- A walk of the hardware that comes to a page table is one of the kernel. -/
theorem isSome_walk_of_walkFrom (level : ℕ) (hr : r ∈ roots) (hp : p.length + level = 3)
    (hi : p = [] → (tableIndex level w).val < 256)
    (ht : walk (next (userHalf roots s.mem)) r p = some t)
    (h0 : (walkFrom s.mem w level (4096 * t)).1 = 0) :
    (walk (next (userHalf roots s.mem)) t (slotsFrom w level)).isSome := by
  induction level generalizing p t with
  | zero => rfl
  | succ level ih =>
    rw [walkFrom, readEntry_eq_entry] at h0
    rw [slotsFrom, walk_cons]
    by_cases hend : ¬Present (entry s.mem t (tableIndex (level + 1) w)) ∨
        level < 2 ∧ HugePage (entry s.mem t (tableIndex (level + 1) w))
    · rw [if_pos hend] at h0
      exact absurd h0 (Nat.succ_ne_zero level)
    · have he : Present (entry s.mem t (tableIndex (level + 1) w)) :=
        not_not.mp fun hne => hend (Or.inl hne)
      have hnext := h.walk_concat_of_present hr (by omega) hi ht he
      have hlen : (p ++ [tableIndex (level + 1) w]).length + level = 3 := by
        rw [List.length_append, List.length_singleton]
        omega
      rw [if_neg hend, h.frameNumber_eq hr (by omega) hi ht he] at h0
      have hrest := ih hlen (by simp) hnext h0
      rw [walk_concat, ht, Option.bind_some] at hnext
      rwa [hnext, Option.bind_some]

theorem isSome_walk_of_walkEntry (hr : r ∈ roots) (hw : w < 2 ^ 47)
    (h0 : (walkEntry s.mem (4096 * r) w).1 = 0) :
    (walk (next (userHalf roots s.mem)) r (tablePath w)).isSome := by
  have hsome := h.isSome_walk_of_walkFrom 3 (p := []) hr rfl (fun _ => pml4Index_lt hw) walk_nil h0
  exact hsome

/-- **The walk of the hardware in the lower half.** -/
theorem mmuTranslate_eq (hr : r ∈ roots) (hw : w < 2 ^ 47) : mmuTranslate s.mem (4096 * r) w =
    (leaf (userHalf roots s.mem) r w).map fun e => 4096 * frameNumber e + w % 4096 := by
  rw [mmuTranslate_eq_walkEntry, walkEntry,
    h.translateEntry_walkFrom (p := []) hr hw rfl (fun _ => pml4Index_lt hw) walk_nil]
  rfl

/-- What the mapping of a page leads to. -/
theorem spare_of_mmuTranslate {a : ℕ} (hr : r ∈ roots) (hw : w < 2 ^ 47)
    (ha : mmuTranslate s.mem (4096 * r) w = some a) : Spare roots K s (a / 4096) := by
  rw [h.mmuTranslate_eq hr hw] at ha
  obtain ⟨e, he, rfl⟩ := Option.map_eq_some_iff.mp ha
  rw [show (4096 * frameNumber e + w % 4096) / 4096 = frameNumber e by omega]
  exact h.leaf_spare r hr w e he

end Spaces

/-! ### Writing through the mapping of a page -/

/-- Only frames pages may be mapped onto are written. -/
def Stores (roots K : Set ℕ) (s : Phys) (m : Mem) : Prop :=
  ∀ x, ¬Spare roots K s (x / 4096) → m x = s.mem x

theorem Stores.refl : Stores roots K s s.mem := fun _ _ => rfl

theorem Stores.same (hm : Stores roots K s m) :
    ∀ x, IsTable roots s.mem (x / 4096) → m x = s.mem x :=
  fun x hx => hm x fun hsp => hsp.1 (Or.inr hx)

theorem Stores.leaf_eq (hm : Stores roots K s m) (hr : r ∈ roots) :
    leaf (userHalf roots m) r w = leaf (userHalf roots s.mem) r w :=
  Spaces.leaf_congr_tables hm.same hr

theorem Stores.spaces (hm : Stores roots K s m) (h : Spaces roots K s) :
    Spaces roots K ⟨s.regions, m⟩ :=
  h.congr rfl (fun _ ha => ha) hm.same

theorem Stores.spare_iff (hm : Stores roots K s m) {f : ℕ} :
    Spare roots K ⟨s.regions, m⟩ f ↔ Spare roots K s f := by
  rw [Spare, Spare, Reserved, Reserved, Set.mem_ofPred_eq, Set.mem_ofPred_eq,
    Spaces.isTable_congr hm.same]

theorem Stores.trans (hm : Stores roots K s m) (hm' : Stores roots K ⟨s.regions, m⟩ m') :
    Stores roots K s m' :=
  fun x hx => (hm' x fun hsp => hx (hm.spare_iff.mp hsp)).trans (hm x hx)

theorem storeBytes_succ : storeBytes m cr3 v b (n + 1) =
    (storeBytes m cr3 v b n).bind fun m => storeByte m cr3 ((v + n) % 2 ^ 64) (b n) := by
  rw [storeBytes, storeBytes, List.range_succ, List.foldlM_append]
  refine congrArg _ (funext fun m => ?_)
  rw [List.foldlM_cons]
  exact bind_pure _

/-- **A byte written in the lower half.** -/
theorem Spaces.stores_storeByte {c : UInt8} (h : Spaces roots K s) (hr : r ∈ roots)
    (hw : w < 2 ^ 47) (hm : storeByte s.mem (4096 * r) w c = some m) : Stores roots K s m := by
  obtain ⟨a, ha, rfl⟩ := Option.map_eq_some_iff.mp hm
  have hsp := h.spare_of_mmuTranslate hr hw ha
  intro x hx
  refine Function.update_of_ne ?_ _ _
  rintro rfl
  exact hx hsp

/-- **Bytes written from an address of the lower half on**: where it ends, the writing faults. -/
theorem Spaces.stores_storeBytes (h : Spaces roots K s) (hr : r ∈ roots) (hv : v < 2 ^ 47)
    (hm : storeBytes s.mem (4096 * r) v b n = some m) :
    Stores roots K s m ∧ v + n ≤ 2 ^ 47 ∧
      ∀ i < n, (leaf (userHalf roots s.mem) r (v + i)).isSome := by
  induction n generalizing m with
  | zero =>
    obtain rfl : s.mem = m := Option.some.inj hm
    exact ⟨Stores.refl, hv.le, fun i hi => absurd hi (Nat.not_lt_zero i)⟩
  | succ n ih =>
    rw [storeBytes_succ] at hm
    obtain ⟨m₁, hm₁, hstore⟩ := Option.bind_eq_some_iff.mp hm
    obtain ⟨hst, hle, hleaf⟩ := ih hm₁
    rw [Nat.mod_eq_of_lt (by omega)] at hstore
    obtain ⟨a, ha, -⟩ := Option.map_eq_some_iff.mp hstore
    -- the next address is one the hardware accepts
    have hlt : v + n < 2 ^ 47 := by
      have hcan : Canonical (v + n) := by
        by_contra hcan
        rw [mmuTranslate, if_pos (Or.inl hcan)] at ha
        cases ha
      rcases hcan with hlt | hge
      · exact hlt
      · omega
    have hs₁ := hst.spaces h
    refine ⟨hst.trans (hs₁.stores_storeByte hr hlt hstore), hlt, fun i hi => ?_⟩
    rcases Nat.lt_succ_iff_lt_or_eq.mp hi with hi | rfl
    · exact hleaf i hi
    · rw [hs₁.mmuTranslate_eq hr hlt, hst.leaf_eq hr] at ha
      obtain ⟨e, he, -⟩ := Option.map_eq_some_iff.mp ha
      rw [he]
      rfl

/-! ### The upper half -/

/-- The frames of the tables of the upper halves of a set of roots. -/
def kernelTables (roots : Set ℕ) (m : Mem) : Set ℕ :=
  {k | ∃ r ∈ roots, ∃ w, 256 ≤ (pml4Index w).val ∧ k ∈ visitedFrom m w 3 (4096 * r)}

/-- The memory of the kernel is as it was: the frames of `K`, and the upper halves of the
roots. -/
def KernelKept (roots K : Set ℕ) (m m' : Mem) : Prop :=
  ∀ x, x / 4096 ∈ K ∨ x / 4096 ∈ roots ∧ 2048 ≤ x % 4096 → m' x = m x

theorem KernelKept.refl : KernelKept roots K m m := fun _ _ => rfl

theorem KernelKept.trans (h : KernelKept roots K m m') (h' : KernelKept roots K m' m'') :
    KernelKept roots K m m'' :=
  fun x hx => (h' x hx).trans (h x hx)

theorem Changes.kernelKept (h : Changes roots n s s') (hs : Spaces roots K s) :
    KernelKept roots K s.mem s'.mem :=
  fun x hx => h.kept x (hx.imp_left fun hk => hs.kernel_reserved _ hk)

theorem Stores.kernelKept (h : Stores roots K s m) : KernelKept roots K s.mem m := by
  rintro x (hx | ⟨hx, -⟩)
  · exact h x fun hsp => hsp.2 hx
  · exact h x fun hsp => hsp.1 (Or.inr ⟨_, hx, [], by simp, walk_nil⟩)

/-- **Walks in the upper half stay the same** while the memory of the kernel does: those from the
roots, and those from tables of the kernel. -/
theorem walkEntry_of_kernelKept (hkept : KernelKept roots K m m') (hr : r ∈ roots ∨ r ∈ K)
    (hw : 256 ≤ (pml4Index w).val) (hK : ∀ k ∈ visitedFrom m w 3 (4096 * r), k ∈ K) :
    walkEntry m' (4096 * r) w = walkEntry m (4096 * r) w := by
  refine walkFrom_congr ?_ fun k hk i => ?_
  · refine Mem.readLE_congr fun x h1 h2 => hkept x ?_
    have hw' : 256 ≤ (tableIndex 3 w).val := hw
    rw [show x / 4096 = r by omega]
    exact hr.symm.imp_right fun hr => ⟨hr, by omega⟩
  · exact entry_congr fun x hx => hkept x (Or.inl (hx ▸ hK k hk))

/-- **All translations stay the same** when the entries of the pages of the lower half do, and the
memory of the kernel does. -/
theorem Spaces.mmuTranslate_congr (h : Spaces roots K s) (h' : Spaces roots K s')
    (hkept : KernelKept roots K s.mem s'.mem) (hK : kernelTables roots s.mem ⊆ K) (hr : r ∈ roots)
    (hw : w < 2 ^ 64) (hleaf : w < 2 ^ 47 →
      leaf (userHalf roots s'.mem) r w = leaf (userHalf roots s.mem) r w) :
    mmuTranslate s'.mem (4096 * r) w = mmuTranslate s.mem (4096 * r) w := by
  by_cases hlow : w < 2 ^ 47
  · rw [h'.mmuTranslate_eq hr hlow, h.mmuTranslate_eq hr hlow, hleaf hlow]
  by_cases hhigh : 2 ^ 64 - 2 ^ 47 ≤ w
  · have hw' : 256 ≤ (pml4Index w).val := by
      show 256 ≤ w / 2 ^ 39 % 512
      omega
    rw [mmuTranslate_eq_walkEntry, mmuTranslate_eq_walkEntry,
      walkEntry_of_kernelKept hkept (Or.inl hr) hw' fun k hk => hK ⟨r, hr, w, hw', hk⟩]
  · have hcan : ¬Canonical w := not_or.mpr ⟨hlow, hhigh⟩
    rw [mmuTranslate, mmuTranslate, if_pos (Or.inl hcan), if_pos (Or.inl hcan)]

/-! ### A cleared memory -/

theorem not_present_cleared {table : ℕ} : ¬Present (readEntry (fun _ => 0) table i) := by
  have hzero : readEntry (fun _ => 0) table i = 0 := Mem.read64_zero
  rw [hzero]
  decide

theorem mmuTranslate_of_not_present (h : ¬Present (readEntry m cr3 (pml4Index w))) :
    mmuTranslate m cr3 w = none := by
  rw [mmuTranslate, if_pos (Or.inr (Or.inl h))]

/-- In a cleared memory nothing is mapped. -/
theorem mmuTranslate_cleared : mmuTranslate (fun _ => 0) cr3 w = none :=
  mmuTranslate_of_not_present not_present_cleared

theorem visitedFrom_of_not_present {level table : ℕ}
    (h : ¬Present (readEntry m table (tableIndex (level + 1) w))) :
    visitedFrom m w (level + 1) table = [] := by
  rw [visitedFrom, if_pos (Or.inl h)]

/-- And the kernel has no tables. -/
theorem kernelTables_cleared : kernelTables roots (fun _ => 0) = ∅ := by
  refine Set.eq_empty_of_forall_notMem ?_
  rintro k ⟨r, -, w, -, hk⟩
  rw [visitedFrom_of_not_present not_present_cleared] at hk
  exact List.not_mem_nil hk

end Vm

end WillowOS
