import WillowOS.Vm.Mmu
import Mathlib.Data.Nat.Bitwise

/-!
# Mapping and unmapping pages of the lower half

One turn of the loops of `map_range` takes a free frame and sets the entry of one page to it
(`WillowOS.Vm.Spaces.mapNext`), and one turn of that of `syscall8` clears the entry of one page,
if the page table is there (`WillowOS.Vm.Spaces.unmapNext`). The loops do so for each of their
addresses. Both functions keep the records of the thread apart from the tables
(`WillowOS.Vm.mapNext_eq_some`, `WillowOS.Vm.unmapNext_eq_some`).

The permissions a page can be mapped with in this way (`WillowOS.Vm.Grants`) have no bits of an
address in them, or all of them: with those `sys_vm_map` computes for memory that is not to be
read, the page is mapped onto the last frame the hardware knows, where there is no memory.
-/

namespace WillowOS

namespace Vm

open Paging

open Frames hiding State

variable {roots K : Set ℕ} {m : Mem} {root r a v w x n flag pml4Address permissions : ℕ}

/-- Permissions of a page: it is present, it maps no huge page, and its entry has the address of
the frame, or all bits are set. -/
def Grants (permissions : ℕ) : Prop :=
  permissions < 2 ^ 64 ∧ Present permissions ∧
    (permissions / 4096 % 2 ^ 40 = 0 ∧ permissions / 128 % 2 = 0 ∨ permissions = 2 ^ 64 - 1)

instance (permissions : ℕ) : Decidable (Grants permissions) := inferInstanceAs (Decidable (_ ∧ _))

/-! ### Entries -/

theorem present_or (h : Present permissions) : Present (x ||| permissions) :=
  Nat.or_mod_two_eq_one.mpr (Or.inr h)

theorem ifPresent_or (h : Present permissions) :
    ifPresent (x ||| permissions) = some (x ||| permissions) :=
  if_pos (present_or h)

/-- The frame of an entry without other bits of an address. -/
theorem frameNumber_or (ha : a < 2 ^ 40) (h : permissions / 4096 % 2 ^ 40 = 0) :
    frameNumber (4096 * a ||| permissions) = a := by
  have hmod : (a ||| permissions / 4096) % 2 ^ 40 = a % 2 ^ 40 ||| permissions / 4096 % 2 ^ 40 :=
    Nat.or_mod_two_pow
  have ha' : 4096 * a / 4096 = a := Nat.mul_div_cancel_left a (by decide)
  rw [frameNumber, or_div, ha', hmod, h, Nat.or_zero, Nat.mod_eq_of_lt ha]

/-- The frame of an entry with all bits set. -/
theorem frameNumber_or_max (ha : a < 2 ^ 40) :
    frameNumber (4096 * a ||| (2 ^ 64 - 1)) = 2 ^ 40 - 1 := by
  have hlt : 4096 * a ||| (2 ^ 64 - 1) < 2 ^ 64 := Nat.or_lt_two_pow (by omega) (by omega)
  have hle : 2 ^ 64 - 1 ≤ 4096 * a ||| (2 ^ 64 - 1) := Nat.right_le_or
  rw [show 4096 * a ||| (2 ^ 64 - 1) = 2 ^ 64 - 1 by omega]
  decide

/-! ### A page mapped -/

/-- **A free frame is taken for a page.** The frame is cleared. -/
structure FrameMapped (roots K : Set ℕ) (root v permissions : ℕ) (s s' : Phys) (a : ℕ) : Prop
    extends LeafSet roots K 4 root v (some (4096 * a ||| permissions)) s s' where
  free_mem : 4096 * a ∈ freeFrames s.regions
  cleared : ∀ x, x / 4096 = a → s'.mem x = 0

namespace Spaces

variable {s : Phys} (h : Spaces roots K s)
include h

/-- The entry of a page on a frame that is allocated. -/
theorem spare_or (ha : 4096 * a + 4096 ≤ 2 ^ 47) (hsp : Spare roots K s a)
    (hP : Grants permissions) : Spare roots K s (frameNumber (4096 * a ||| permissions)) := by
  obtain ⟨-, -, ⟨hP, -⟩ | rfl⟩ := hP
  · rwa [frameNumber_or (by omega) hP]
  · -- no memory is there
    rw [frameNumber_or_max (by omega)]
    refine ⟨?_, fun hk => ?_⟩
    · rintro (hfree | htable)
      · have := h.usable_le _ (usableFrames_of_mem_freeFrames hfree)
        omega
      · have := h.table_le _ htable
        omega
    · have := h.kernel_le _ hk
      omega

/-- **`map_page` in the lower half**, on a frame that is allocated. -/
theorem mapTables (hroot : root ∈ roots) (hv : v < 2 ^ 47) (hP : Grants permissions)
    (hfree : 3 ≤ (freeFrames s.regions).length)
    (hreach : mapPageReaches s (4096 * root) v permissions = true)
    (ha : 4096 * a + 4096 ≤ 2 ^ 47) (hsp : Spare roots K s a) :
    LeafSet roots K 3 root v (some (4096 * a ||| permissions)) s
      (Paging.mapTables s (4096 * root) (4096 * a) v permissions) := by
  have he : 4096 * a ||| permissions < 2 ^ 64 := Nat.or_lt_two_pow (by omega) hP.1
  obtain ⟨pt, hpt, hwalk, hgrown⟩ : ∃ pt,
      (Paging.ensureTables s (4096 * root) v permissions).1 = 4096 * pt ∧
      walk (next (userHalf roots (Paging.ensureTables s (4096 * root) v permissions).2.mem)) root
        (tablePath v) = some pt ∧
      Grown roots K 3 s (Paging.ensureTables s (4096 * root) v permissions).2 := by
    by_cases hlt : permissions < 4096
    · have hbit : permissions / 128 % 2 = 0 := by
        obtain ⟨-, -, ⟨-, hbit⟩ | rfl⟩ := hP
        · exact hbit
        · omega
      exact (h.ensureTables hroot hv hfree hlt hP.2.1 hbit).2
    · have hle : 2 ^ 47 ≤ permissions := by
        obtain ⟨-, -, ⟨hP, -⟩ | rfl⟩ := hP
        · omega
        · omega
      obtain ⟨pt, heq, hwalk⟩ := h.ensureTables_of_le hroot hv hle hreach
      rw [heq]
      exact ⟨pt, rfl, hwalk, Grown.refl h⟩
  have hset := hgrown.spaces.writeLeaf hroot hwalk he
    fun _ => hgrown.spaces.spare_or ha (hgrown.toChanges.spare hsp) hP
  rw [ifPresent_or hP.2.1] at hset
  rw [Paging.mapTables, hpt]
  exact hgrown.trans_leafSet hset

/-- **A frame is allocated and mapped.** -/
theorem mapFrame (hroot : root ∈ roots) (hv : v < 2 ^ 47) (hP : Grants permissions)
    (hfree : 4 ≤ (freeFrames s.regions).length)
    (hreach : mapPageReaches (Frames.allocFrame s).2 (4096 * root) v permissions = true) :
    ∃ a, FrameMapped roots K root v permissions s
      (Paging.mapTables (Frames.allocFrame s).2 (4096 * root) (Frames.allocFrame s).1 v
        permissions) a := by
  rcases hcons : freeFrames s.regions with _ | ⟨b, fs⟩
  · rw [hcons] at hfree
    cases hfree
  have hb : b ∈ freeFrames s.regions := hcons ▸ List.mem_cons_self
  obtain ⟨a, rfl, hle⟩ := h.free_le hb
  obtain ⟨hval, hgrown, hfs, hsp, hmem⟩ := h.allocFrame hcons
  rw [hcons, List.length_cons] at hfree
  rw [hval]
  have hset := hgrown.spaces.mapTables hroot hv hP (by rw [hfs]; omega) hreach hle hsp
  refine ⟨a, ⟨hgrown.trans_leafSet hset, hb, fun x hx => ?_⟩⟩
  rw [hset.kept x (Or.inl (hx ▸ hsp.1)), hmem]
  exact Mem.memset_of_mem (by omega) (by omega)

end Spaces

/-! ### The turns of the loops -/

/-- The bookkeeping of a turn of `map_range`. -/
def recordNext (mp : ThreadMappings) (virtAddress flag : ℕ) : ThreadMappings :=
  let u := useMapping mp virtAddress
  let mp := growMappings u.2
  let array := mp.mappedVirtAddressesArray
  { mp with
    mappedVirtAddressesArray := Function.update array u.1 { array u.1 with flag := flag } }

/-- The records of a thread after a turn, once scheduling has started. -/
def recordIf (s : State) (virtAddress flag : ℕ) : ThreadMappings :=
  if s.schedulingStarted then recordNext s.mappings virtAddress flag else s.mappings

/-- **A turn of `map_range`**: the tables, and the records. -/
theorem mapNext_eq_some {s s' : State} : mapNext pml4Address permissions flag s v = some s' ↔
    mapPageReaches (allocFrame s.phys).2 pml4Address v permissions = true ∧
      s' = ⟨mapTables (allocFrame s.phys).2 pml4Address (allocFrame s.phys).1 v permissions,
        s.schedulingStarted, recordIf s v flag⟩ := by
  have heq : mapNext pml4Address permissions flag s v =
      if mapPageReaches (allocFrame s.phys).2 pml4Address v permissions = true then
        some ⟨mapTables (allocFrame s.phys).2 pml4Address (allocFrame s.phys).1 v permissions,
          s.schedulingStarted, recordIf s v flag⟩
      else none := by
    obtain ⟨phys, started, mp⟩ := s
    cases started with
    | false => simp only [mapNext, mapPage, recordIf, Bool.false_eq_true, if_false]
    | true => simp only [mapNext, mapPage, recordIf, recordNext, if_true]
  rw [heq]
  split
  next hreach => simp [hreach, eq_comm]
  next hreach => simp [hreach]

/-- **A turn of `syscall8`.** -/
theorem unmapNext_eq_some {s s' : State} : unmapNext pml4Address s v = some s' ↔
    (directMapped (walkTables s.phys.mem pml4Address v).1 &&
      directMapped (walkTables s.phys.mem pml4Address v).2.1 &&
      directMapped (walkTables s.phys.mem pml4Address v).2.2) = true ∧
      s' = unmapPage s pml4Address v := by
  rw [unmapNext]
  split
  next hd => simp [hd, eq_comm]
  next hd => simp [hd]

namespace Spaces

/-- A step of the walk of `unmap_page`, which takes all bits of an entry. -/
theorem maskFlags_eq {s : Phys} {t u : ℕ} {i : Fin 512} {p : List (Fin 512)}
    (h : Spaces roots K s) (hr : r ∈ roots) (hp : p.length < 3)
    (ht : walk (next (userHalf roots s.mem)) r p = some t)
    (hu : walk (next (userHalf roots s.mem)) r (p ++ [i]) = some u) :
    maskFlags (readEntry s.mem (4096 * t) i) = 4096 * u ∧ directMapped (4096 * u) = true := by
  have hlen : (p ++ [i]).length ≤ 3 := by
    rw [List.length_append]
    exact hp
  have hle := h.table_le u ⟨r, hr, _, hlen, hu⟩
  rw [walk_concat, ht, Option.bind_some] at hu
  obtain ⟨he, rfl⟩ := next_eq_some.mp hu
  rw [readEntry_eq_entry, ← entry_userHalf (lt_of_present he)]
  exact ⟨Paging.maskFlags_eq _, decide_eq_true (by omega)⟩

/-- The walk of `unmap_page`, when the page table is there. -/
theorem walkTables_eq {s : Phys} {pt : ℕ} (h : Spaces roots K s) (hroot : root ∈ roots)
    (hpt : walk (next (userHalf roots s.mem)) root (tablePath v) = some pt) :
    (walkTables s.mem (4096 * root) v).2.2 = 4096 * pt ∧
      (directMapped (walkTables s.mem (4096 * root) v).1 &&
        directMapped (walkTables s.mem (4096 * root) v).2.1 &&
        directMapped (walkTables s.mem (4096 * root) v).2.2) = true := by
  rw [show tablePath v = [] ++ [pml4Index v] ++ [pdptIndex v] ++ [pdIndex v] from rfl] at hpt
  obtain ⟨t₂, hw₂, -⟩ := walk_concat_eq_some.mp hpt
  obtain ⟨t₃, hw₃, -⟩ := walk_concat_eq_some.mp hw₂
  obtain ⟨h₃, hd₃⟩ := h.maskFlags_eq hroot (by simp) walk_nil hw₃
  obtain ⟨h₂, hd₂⟩ := h.maskFlags_eq hroot (by simp) hw₃ hw₂
  obtain ⟨h₁, hd₁⟩ := h.maskFlags_eq hroot (by simp) hw₂ hpt
  simp only [walkTables, h₃, h₂, h₁, hd₃, hd₂, hd₁]
  exact ⟨trivial, rfl⟩

variable {s s' : State} (h : Spaces roots K s.phys)
include h

/-- **A turn of `map_range` in the lower half.** -/
theorem mapNext (hroot : root ∈ roots) (hv : v < 2 ^ 47) (hP : Grants permissions)
    (hfree : 4 ≤ (freeFrames s.phys.regions).length)
    (hs : Vm.mapNext (4096 * root) permissions flag s v = some s') :
    ∃ a, FrameMapped roots K root v permissions s.phys s'.phys a := by
  obtain ⟨hreach, rfl⟩ := mapNext_eq_some.mp hs
  exact h.mapFrame hroot hv hP hfree hreach

/-- With permissions that are no address, a turn of `map_range` comes back. -/
theorem exists_mapNext (flag : ℕ) (hroot : root ∈ roots) (hv : v < 2 ^ 47) (hP : Grants permissions)
    (hlt : permissions < 4096) (hfree : 4 ≤ (freeFrames s.phys.regions).length) :
    ∃ s', Vm.mapNext (4096 * root) permissions flag s v = some s' := by
  rcases hcons : freeFrames s.phys.regions with _ | ⟨b, fs⟩
  · rw [hcons] at hfree
    cases hfree
  obtain ⟨a, rfl, -⟩ := h.free_le (hcons ▸ List.mem_cons_self : b ∈ freeFrames s.phys.regions)
  obtain ⟨-, hgrown, hfs, -, -⟩ := h.allocFrame hcons
  rw [hcons, List.length_cons] at hfree
  have hbit : permissions / 128 % 2 = 0 := by
    obtain ⟨-, -, ⟨-, hbit⟩ | rfl⟩ := hP
    · exact hbit
    · omega
  have hreach := (hgrown.spaces.ensureTables hroot hv (by rw [hfs]; omega) hlt hP.2.1 hbit).1
  exact ⟨_, mapNext_eq_some.mpr ⟨hreach, rfl⟩⟩

/-- **A turn of `syscall8` in the lower half**, when the page table is there. -/
theorem unmapNext (hroot : root ∈ roots)
    (hpt : (walk (next (userHalf roots s.phys.mem)) root (tablePath v)).isSome) :
    ∃ s', Vm.unmapNext (4096 * root) s v = some s' ∧
      s'.schedulingStarted = s.schedulingStarted ∧
      s'.mappings = (if s.schedulingStarted then clearMapping s.mappings v else s.mappings) ∧
      LeafSet roots K 0 root v none s.phys s'.phys := by
  obtain ⟨pt, hpt⟩ := Option.isSome_iff_exists.mp hpt
  obtain ⟨htables, hd⟩ := h.walkTables_eq hroot hpt
  refine ⟨_, unmapNext_eq_some.mpr ⟨hd, rfl⟩, rfl, rfl, ?_⟩
  have hset := h.writeLeaf (e := 0) hroot hpt (by decide) fun h0 => absurd h0 (by decide)
  rw [unmapPage, unmapTables, htables]
  exact hset

end Spaces

/-! ### The loops -/

/-- Many pages mapped: the pages of a list of addresses, each with the entry of a frame that was
free. -/
structure PagesMapped (roots K : Set ℕ) (root permissions : ℕ) (vs : List ℕ) (s s' : Phys) : Prop
    extends Changes roots (4 * vs.length) s s' where
  spaces : Spaces roots K s'
  leaf_mapped : ∀ w, pageNumber w ∈ vs.map pageNumber → ∃ a, 4096 * a ∈ freeFrames s.regions ∧
    leaf (userHalf roots s'.mem) root w = some (4096 * a ||| permissions)
  leaf_other : ∀ r ∈ roots, ∀ w, r ≠ root ∨ pageNumber w ∉ vs.map pageNumber →
    leaf (userHalf roots s'.mem) r w = leaf (userHalf roots s.mem) r w

/-- **The loop of `map_range` in the lower half.** -/
theorem Spaces.mapAll {s s' : State} {vs : List ℕ} (h : Spaces roots K s.phys)
    (hroot : root ∈ roots) (hvs : ∀ v ∈ vs, v < 2 ^ 47) (hP : Grants permissions)
    (hfree : 4 * vs.length ≤ (freeFrames s.phys.regions).length)
    (hs : vs.foldlM (Vm.mapNext (4096 * root) permissions flag) s = some s') :
    PagesMapped roots K root permissions vs s.phys s'.phys := by
  induction vs generalizing s with
  | nil =>
    obtain rfl : s = s' := Option.some.inj hs
    exact ⟨Changes.refl, h, fun w hw => absurd hw List.not_mem_nil, fun _ _ _ _ => rfl⟩
  | cons v vs ih =>
    obtain ⟨s₁, hs₁, hs⟩ := run_cons.mp hs
    rw [List.length_cons] at hfree
    obtain ⟨a, ha⟩ := h.mapNext hroot (hvs v List.mem_cons_self) hP (by omega) hs₁
    have hfree₁ := ha.free_le
    have hrest := ih ha.spaces (fun u hu => hvs u (List.mem_cons_of_mem _ hu)) (by omega) hs
    refine ⟨?_, hrest.spaces, fun w hw => ?_, fun r hr w hw => ?_⟩
    · have := ha.toChanges.trans hrest.toChanges
      rwa [show 4 + 4 * vs.length = 4 * (v :: vs).length by rw [List.length_cons]; omega] at this
    · by_cases hin : pageNumber w ∈ vs.map pageNumber
      · obtain ⟨b, hb, hleaf⟩ := hrest.leaf_mapped w hin
        exact ⟨b, ha.mem_free hb, hleaf⟩
      · -- the page is the first one, and is not mapped again
        have hw : pageNumber w = pageNumber v :=
          (List.mem_cons.mp hw).resolve_right hin
        refine ⟨a, ha.free_mem, ?_⟩
        rw [hrest.leaf_other root hroot w (Or.inr hin), ha.leaf_eq root hroot w,
          if_pos ⟨rfl, hw⟩]
    · rw [List.map_cons, List.mem_cons, not_or] at hw
      rw [hrest.leaf_other r hr w (hw.imp_right And.right), ha.leaf_eq r hr w, if_neg]
      rintro ⟨rfl, heq⟩
      rcases hw with hw | hw
      · exact hw rfl
      · exact hw.1 heq

/-- Many pages unmapped. -/
structure PagesUnmapped (roots K : Set ℕ) (root : ℕ) (vs : List ℕ) (s s' : Phys) : Prop
    extends Changes roots 0 s s' where
  spaces : Spaces roots K s'
  leaf_unmapped : ∀ w, pageNumber w ∈ vs.map pageNumber →
    leaf (userHalf roots s'.mem) root w = none
  leaf_other : ∀ r ∈ roots, ∀ w, r ≠ root ∨ pageNumber w ∉ vs.map pageNumber →
    leaf (userHalf roots s'.mem) r w = leaf (userHalf roots s.mem) r w

/-- **The loop of `syscall8` in the lower half**, when the page tables are there. -/
theorem Spaces.unmapAll {s : State} {vs : List ℕ} (h : Spaces roots K s.phys)
    (hroot : root ∈ roots)
    (hpt : ∀ v ∈ vs, (walk (next (userHalf roots s.phys.mem)) root (tablePath v)).isSome) :
    ∃ s', vs.foldlM (Vm.unmapNext (4096 * root)) s = some s' ∧
      s'.schedulingStarted = s.schedulingStarted ∧
      s'.mappings = (if s.schedulingStarted then vs.foldl clearMapping s.mappings
        else s.mappings) ∧
      PagesUnmapped roots K root vs s.phys s'.phys := by
  induction vs generalizing s with
  | nil =>
    exact ⟨s, rfl, rfl, by simp, Changes.refl, h, fun w hw => absurd hw List.not_mem_nil,
      fun _ _ _ _ => rfl⟩
  | cons v vs ih =>
    obtain ⟨s₁, hs₁, hst₁, hmp₁, hset⟩ := h.unmapNext hroot (hpt v List.mem_cons_self)
    have hpt₁ : ∀ u ∈ vs,
        (walk (next (userHalf roots s₁.phys.mem)) root (tablePath u)).isSome := by
      intro u hu
      obtain ⟨t, ht⟩ := Option.isSome_iff_exists.mp (hpt u (List.mem_cons_of_mem _ hu))
      rw [hset.walk_of root hroot _ t le_rfl ht]
      rfl
    obtain ⟨s', hs', hst, hmp, hrest⟩ := ih hset.spaces hpt₁
    refine ⟨s', run_cons.mpr ⟨s₁, hs₁, hs'⟩, hst.trans hst₁, ?_,
      hset.toChanges.trans hrest.toChanges, hrest.spaces, fun w hw => ?_, fun r hr w hw => ?_⟩
    · rw [hmp, hst₁, hmp₁]
      split_ifs <;> rfl
    · by_cases hin : pageNumber w ∈ vs.map pageNumber
      · exact hrest.leaf_unmapped w hin
      · have hw : pageNumber w = pageNumber v := (List.mem_cons.mp hw).resolve_right hin
        rw [hrest.leaf_other root hroot w (Or.inr hin), hset.leaf_eq root hroot w,
          if_pos ⟨rfl, hw⟩]
    · rw [List.map_cons, List.mem_cons, not_or] at hw
      rw [hrest.leaf_other r hr w (hw.imp_right And.right), hset.leaf_eq r hr w, if_neg]
      rintro ⟨rfl, heq⟩
      rcases hw with hw | hw
      · exact hw rfl
      · exact hw.1 heq

end Vm

end WillowOS
