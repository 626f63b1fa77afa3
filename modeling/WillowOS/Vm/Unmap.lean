import WillowOS.Paging.Permissions
import WillowOS.Vm.KernelHalf

/-!
# Unmapping pages

`unmap_page` goes down to the page table of an address and clears one entry there, without
looking at the present bits on the way. If the address is mapped, its page is removed and nothing
else is changed. If it is not, the walk goes on through whatever the missing entry holds – a
cleared entry leads to frame `0` – and clears a word there: **the call is a no-op only if that
word is zero already** (`WillowOS.Vm.removesPage_iff`).

The records of the thread are a second thing to go wrong. A record is looked up by its address
alone, and those that are not used have address `0`: unmapping address `0` clears one of them, and
takes one off the count of those that are used. **The count stays right exactly as long as that
does not happen** (`WillowOS.Vm.bookkeepingOk_iff`).
-/

namespace WillowOS

namespace Vm

open Paging

open Frames hiding State

variable {m : Mem} {roots : Set ℕ} {root r v w pt : ℕ} {s s' : State}

/-! ### The page -/

/-- The entry of the page of an address in its page table, present or not, if there is such a
table. -/
def pageEntry (m : Mem) (root w : ℕ) : Option ℕ :=
  (walk (next m) root (tablePath w)).map fun pt => entry m pt (ptIndex w)

/-- One entry is that of `v` in `root`, and of `w` in `r`. -/
def SameEntry (m : Mem) (root v r w : ℕ) : Prop :=
  ∃ pt, walk (next m) root (tablePath v) = some pt ∧ walk (next m) r (tablePath w) = some pt ∧
    ptIndex w = ptIndex v

/-- **The page of `v` is removed from `root`**, and no other one from any root; and if it was not
there, nothing is changed at all. -/
structure RemovesPage (roots : Set ℕ) (root v : ℕ) (s s' : State) : Prop where
  removed : ∀ w, pageNumber w = pageNumber v → translate s'.phys.mem root w = none
  other : ∀ r ∈ roots, ∀ w, ¬SameEntry s.phys.mem root v r w →
    pageEntry s'.phys.mem r w = pageEntry s.phys.mem r w
  noop : translate s.phys.mem root v = none → s' = s

/-- In the root itself, the entry is that of the page alone. -/
theorem sameEntry_self {rs : List Region} (hF : Forest m rs roots) (hroot : root ∈ roots)
    (h : SameEntry m root v root w) : pageNumber w = pageNumber v := by
  obtain ⟨pt, hv, hw, hidx⟩ := h
  by_contra hne
  exact hF.ptIndex_ne_of_walk hroot hv hne hw hidx

/-- The word `unmap_page` clears. -/
def lastWord (m : Mem) (pml4Address virtAddress : ℕ) : ℕ :=
  readEntry m (walkTables m pml4Address virtAddress).2.2 (ptIndex virtAddress)

/-- No record has the address. -/
def Unrecorded (s : State) (v : ℕ) : Prop :=
  s.schedulingStarted = true →
    ∀ i < s.mappings.maxMappings, (s.mappings.mappedVirtAddressesArray i).virtAddress ≠ v

theorem clearMapping_eq_self {mp : ThreadMappings} :
    clearMapping mp v = mp ↔
      ∀ i < mp.maxMappings, (mp.mappedVirtAddressesArray i).virtAddress ≠ v := by
  obtain ⟨hnone, heq⟩ | ⟨j, hj, hjv, -, heq⟩ := clearMapping_cases mp v
  · exact iff_of_true heq hnone
  · -- the count goes down in any case
    refine iff_of_false (fun h => ?_) fun h => h j hj hjv
    have hnum := congrArg ThreadMappings.numMappings (heq.symm.trans h)
    rw [numMappings_clearSlot] at hnum
    omega

/-- **When `unmap_page` changes nothing.** -/
theorem unmapPage_eq_self {pml4Address : ℕ} : unmapPage s pml4Address v = s ↔
    lastWord s.phys.mem pml4Address v = 0 ∧ Unrecorded s v := by
  have hmem : unmapTables s.phys.mem pml4Address v = s.phys.mem ↔
      lastWord s.phys.mem pml4Address v = 0 := Mem.write64_zero_eq_self
  have hrec : (if s.schedulingStarted then clearMapping s.mappings v else s.mappings) =
      s.mappings ↔ Unrecorded s v := by
    rw [Unrecorded]
    split
    next h => rw [clearMapping_eq_self, forall_prop_of_true h]
    next h => exact iff_of_true rfl fun h' => absurd h' h
  rw [← hmem, ← hrec]
  constructor
  · intro h
    exact ⟨congrArg (fun s => s.phys.mem) h, congrArg State.mappings h⟩
  · rintro ⟨hm, hr⟩
    rw [unmapPage, hm, hr]

/-- The kernel's walk ends in the page table, if there is one. -/
theorem walkTables_of_walk (h : walk (next m) root (tablePath v) = some pt) :
    (walkTables m (4096 * root) v).2.2 = 4096 * pt := by
  rw [tablePath, walk_cons] at h
  obtain ⟨t₃, h₄, h⟩ := Option.bind_eq_some_iff.mp h
  rw [walk_cons] at h
  obtain ⟨t₂, h₃, h₂⟩ := Option.bind_eq_some_iff.mp h
  rw [walk_singleton] at h₂
  obtain ⟨-, rfl⟩ := next_eq_some.mp h₄
  obtain ⟨-, rfl⟩ := next_eq_some.mp h₃
  obtain ⟨-, rfl⟩ := next_eq_some.mp h₂
  simp only [walkTables, maskFlags_eq]
  rfl

/-- **A page that is mapped is removed.** -/
theorem removesPage_of_translate {rs : List Region} (hF : Forest s.phys.mem rs roots)
    (hroot : root ∈ roots) (hv : (translate s.phys.mem root v).isSome) :
    RemovesPage roots root v s (unmapPage s (4096 * root) v) := by
  obtain ⟨a, ha⟩ := Option.isSome_iff_exists.mp hv
  obtain ⟨pt, hpt, -⟩ := Option.bind_eq_some_iff.mp ha
  have he : 0 < 2 ^ 64 := by decide
  have hmem : (unmapPage s (4096 * root) v).phys.mem =
      writeEntry s.phys.mem (4096 * pt) (ptIndex v) 0 := by
    rw [unmapPage, unmapTables, walkTables_of_walk hpt]
  refine ⟨fun w hw => ?_, fun r hr w hother => ?_, fun hnone => ?_⟩
  · rw [hmem, translate_eq_map_leaf, leaf_of_pageNumber_eq hw, hF.leaf_leaf_self hroot hpt he]
    rfl
  · rw [hmem, pageEntry, pageEntry, hF.walk_leaf hroot rfl hpt he hr le_rfl]
    rcases hw : walk (next s.phys.mem) r (tablePath w) with _ | u
    · rw [Option.map_none, Option.map_none]
    · rw [Option.map_some, Option.map_some, entry_writeEntry he, if_neg]
      rintro ⟨rfl, hidx⟩
      exact hother ⟨u, hpt, hw, hidx⟩
  · rw [ha] at hnone
    cases hnone

/-- **When `unmap_page` removes exactly one page, and is a no-op on addresses that are not
mapped.** For every forest, root and address: when it does not fault on the way, and the address
is mapped, or the word its walk ends in is zero and no record has the address. -/
theorem removesPage_iff (hF : Forest s.phys.mem s.phys.regions roots) (hroot : root ∈ roots) :
    (∃ s', unmapNext (4096 * root) s v = some s' ∧ RemovesPage roots root v s s') ↔
      (unmapNext (4096 * root) s v).isSome ∧
        ((translate s.phys.mem root v).isSome ∨
          lastWord s.phys.mem (4096 * root) v = 0 ∧ Unrecorded s v) := by
  rw [← unmapPage_eq_self]
  constructor
  · rintro ⟨s', hs', h⟩
    obtain ⟨-, rfl⟩ := unmapNext_eq_some.mp hs'
    refine ⟨Option.isSome_iff_exists.mpr ⟨_, hs'⟩, ?_⟩
    rcases hv : translate s.phys.mem root v with _ | a
    · exact Or.inr (h.noop hv)
    · exact Or.inl rfl
  · rintro ⟨hsome, hcases⟩
    obtain ⟨s', hs'⟩ := Option.isSome_iff_exists.mp hsome
    have heq := (unmapNext_eq_some.mp hs').2
    refine ⟨s', hs', heq ▸ ?_⟩
    rcases hv : translate s.phys.mem root v with _ | a
    · -- nothing is changed, and there was no page
      rcases hcases with h | h
      · rw [hv] at h
        cases h
      · rw [h]
        refine ⟨fun w hw => ?_, fun r _ w _ => rfl, fun _ => rfl⟩
        rw [translate_eq_map_leaf, Option.map_eq_none_iff] at hv ⊢
        rw [leaf_of_pageNumber_eq hw, hv]
    · exact removesPage_of_translate hF hroot (by rw [hv]; rfl)

/-- The page of the kernel, unmapped. -/
theorem removesPage_iff_kernelState :
    ∃ s', unmapNext (4096 * 0) kernelState 0x400000 = some s' ∧
      RemovesPage {0} 0 0x400000 kernelState s' :=
  (removesPage_iff forest_kernelState.2 (Set.mem_singleton 0)).mpr
    ⟨by decide +kernel, Or.inl (by decide +kernel)⟩

/-- A root in frame `1` that maps nothing, over a memory with a byte in frame `0`. -/
def nothingMapped : State :=
  ⟨⟨initMemmaps roomMap, fun x => if x = 8 then 0x42 else 0⟩, true, noRecords⟩

/-- **Unmapping a page that is not mapped clears a word of frame `0`**: a program that calls
`syscall8` with such a pointer has it done. -/
theorem not_removesPage_nothingMapped :
    Forest nothingMapped.phys.mem nothingMapped.phys.regions {1} ∧
      translate nothingMapped.phys.mem 1 0x1000 = none ∧
      entry nothingMapped.phys.mem 0 1 = 0x42 ∧
      ((syscall8 nothingMapped (4096 * 1) 0x1000 4096).map fun r => entry r.2.phys.mem 0 1) =
        some 0 ∧
      ¬∃ s', unmapNext (4096 * 1) nothingMapped 0x1000 = some s' ∧
        RemovesPage {1} 1 0x1000 nothingMapped s' := by
  have hclear : ∀ i, entry nothingMapped.phys.mem 1 i = 0 := by decide +kernel
  have hnone : translate nothingMapped.phys.mem 1 0x1000 = none := by decide +kernel
  have hword : entry nothingMapped.phys.mem 0 1 = 0x42 := by decide +kernel
  refine ⟨forest_of_clear hclear (by decide) (by decide), hnone, hword, by decide +kernel, ?_⟩
  rintro ⟨s', hs', h⟩
  have hzero : (unmapNext (4096 * 1) nothingMapped 0x1000).map
      (fun s' => entry s'.phys.mem 0 1) = some 0 := by decide +kernel
  rw [hs', Option.map_some, h.noop hnone, hword] at hzero
  exact absurd (Option.some.inj hzero) (by decide)

/-! ### The records -/

/-- The mappings of a new thread, as `create_thread` sets them up: the first eight entries of the
block are cleared. -/
def newMappings (block : ℕ → MappedVirtAddress) : ThreadMappings where
  mappedVirtAddressesArray i := if i < 8 then ⟨0, 0, false⟩ else block i
  numMappings := 0
  maxMappings := 8

/-- The calls that keep the records of the current thread. -/
inductive RecordCall
  /-- `map_page`. -/
  | map (pml4Address physAddress virtAddress permissions : ℕ) : RecordCall
  /-- `unmap_page`. -/
  | unmap (pml4Address virtAddress : ℕ) : RecordCall

/-- A call, if it does not fault. -/
def recordStep (s : State) : RecordCall → Option State
  | .map pml4Address physAddress virtAddress permissions =>
    if mapPageReaches s.phys pml4Address virtAddress permissions then
      some (mapPage s pml4Address physAddress virtAddress permissions).2
    else none
  | .unmap pml4Address virtAddress => unmapNext pml4Address s virtAddress

/-- **The records are in order**: the count is that of the used entries, not all of them are used,
and the next `map_page` takes an entry that is free and keeps the others. -/
structure BookkeepingOk (mp : ThreadMappings) : Prop where
  num_eq : mp.numMappings = Nat.count (taken mp · = true) mp.maxMappings
  num_lt : mp.numMappings < mp.maxMappings
  next : ∀ v, ∃ j < mp.maxMappings, taken mp j = false ∧ (useMapping mp v).1 = j ∧
    ((record mp v).mappedVirtAddressesArray j).virtAddress = v ∧ taken (record mp v) j = true ∧
    ∀ i < mp.maxMappings, i ≠ j →
      (record mp v).mappedVirtAddressesArray i = mp.mappedVirtAddressesArray i

/-- The first entry with an address is a used one, if there is one. -/
def FirstUsed (mp : ThreadMappings) (v : ℕ) : Prop :=
  ∀ i < mp.maxMappings, (mp.mappedVirtAddressesArray i).virtAddress = v →
    (∀ j < i, (mp.mappedVirtAddressesArray j).virtAddress ≠ v) → taken mp i = true

instance (mp : ThreadMappings) (v : ℕ) : Decidable (FirstUsed mp v) := by
  unfold FirstUsed
  infer_instance

/-- **When a call keeps the records in order**: `map_page` does as long as the count does not wrap
around, and `unmap_page` unless it is called for address `0` and finds an entry that is not
used. -/
def KeepsRecords (s : State) : RecordCall → Prop
  | .map .. => s.mappings.numMappings + 1 < 2 ^ 64
  | .unmap _ virtAddress => virtAddress = 0 → FirstUsed s.mappings 0

instance (s : State) (c : RecordCall) : Decidable (KeepsRecords s c) := by
  cases c <;> unfold KeepsRecords <;> infer_instance

/-- What holds of the records in any case: entries that are not used have address `0`. -/
structure RecordsInv (s : State) : Prop where
  started : s.schedulingStarted = true
  num_lt : s.mappings.numMappings < 2 ^ 64
  cleared : ∀ i < s.mappings.maxMappings, taken s.mappings i = false →
    (s.mappings.mappedVirtAddressesArray i).virtAddress = 0

variable {mp : ThreadMappings}

/-- The third clause follows from the other two. -/
theorem bookkeepingOk_iff_count : BookkeepingOk mp ↔
    mp.numMappings = Nat.count (taken mp · = true) mp.maxMappings ∧
      mp.numMappings < mp.maxMappings := by
  refine ⟨fun h => ⟨h.num_eq, h.num_lt⟩, fun ⟨heq, hlt⟩ => ⟨heq, hlt, fun v => ?_⟩⟩
  obtain ⟨j, hj, hfree, hidx, hentry, -⟩ := record_spec v heq hlt
  have hself : (record mp v).mappedVirtAddressesArray j =
      ⟨v, (mp.mappedVirtAddressesArray j).flag, true⟩ := by
    rw [hentry, if_pos rfl]
  refine ⟨j, hj, hfree, hidx, by rw [hself], by rw [taken, hself], fun i hi hne => ?_⟩
  rw [hentry, if_neg hne, if_neg (by omega)]

/-- **`map_page` keeps the records in order** until the count wraps around. -/
theorem record_bookkeeping (hinv : RecordsInv s) (hok : BookkeepingOk s.mappings) {t : State}
    (hst : t.schedulingStarted = true) (ht : t.mappings = record s.mappings v) :
    RecordsInv t ∧ (BookkeepingOk t.mappings ↔ s.mappings.numMappings + 1 < 2 ^ 64) := by
  obtain ⟨j, hj, hfree, -, hentry, hnum, hle, hlt⟩ := record_spec v hok.num_eq hok.num_lt
  have hcount := count_record v hok.num_eq hok.num_lt
  have hbound := hinv.num_lt
  refine ⟨⟨hst, ?_, fun i hi hti => ?_⟩, ?_⟩
  · rw [ht, hnum]
    exact Nat.mod_lt _ (by decide)
  · rw [ht] at hi hti ⊢
    rw [taken, hentry] at hti
    rw [hentry]
    split_ifs at hti ⊢ with h1 h2
    · rfl
    · exact hinv.cleared i (by omega) hti
  · rw [bookkeepingOk_iff_count, ht, hcount, hnum]
    rw [hnum] at hlt
    exact ⟨fun h => by omega, fun h => ⟨Nat.mod_eq_of_lt h, hlt⟩⟩

/-- **`unmap_page` keeps the records in order** exactly if the entry it clears is a used one. -/
theorem clearMapping_bookkeeping (hinv : RecordsInv s) (hok : BookkeepingOk s.mappings) {t : State}
    (hst : t.schedulingStarted = true) (ht : t.mappings = clearMapping s.mappings v) :
    RecordsInv t ∧ (BookkeepingOk t.mappings ↔ FirstUsed s.mappings v) := by
  have hnum := hok.num_eq
  have hlt := hok.num_lt
  have hbound := hinv.num_lt
  have hmax : t.mappings.maxMappings = s.mappings.maxMappings := by
    rw [ht, maxMappings_clearMapping]
  refine ⟨⟨hst, ?_, fun i hi hti => ?_⟩, ?_⟩
  · rw [ht]
    obtain ⟨-, heq⟩ | ⟨j, -, -, -, heq⟩ := clearMapping_cases s.mappings v
    · rw [heq]
      exact hbound
    · rw [heq, numMappings_clearSlot]
      exact Nat.mod_lt _ (by decide)
  · rw [hmax] at hi
    rw [ht, taken] at hti
    rw [ht]
    rcases clearMapping_slot s.mappings v i with heq | heq
    · rw [heq]
    · rw [heq] at hti ⊢
      exact hinv.cleared i hi hti
  · rw [bookkeepingOk_iff_count, hmax, ht]
    obtain ⟨hnone, heq⟩ | ⟨j, hj, hjv, hbefore, heq⟩ := clearMapping_cases s.mappings v
    · rw [heq]
      exact iff_of_true ⟨hnum, hlt⟩ fun i hi hv => absurd hv (hnone i hi)
    · rw [heq, taken_clearSlot, numMappings_clearSlot]
      rcases hused : taken s.mappings j with _ | _
      · -- the entry was not used, and the count goes down all the same
        have hsame : Function.update (taken s.mappings) j false = taken s.mappings := by
          rw [← hused, Function.update_eq_self]
        rw [hsame, ← hnum]
        refine iff_of_false (fun h => by omega) fun h => ?_
        rw [h j hj hjv hbefore] at hused
        cases hused
      · have hcount := Slots.count_free hj hused
        refine iff_of_true ⟨by omega, by omega⟩ fun i hi hv hfirst => ?_
        rcases Nat.lt_trichotomy i j with hij | rfl | hij
        · exact absurd hv (hbefore i hij)
        · exact hused
        · exact absurd hjv (hfirst j hij)

/-- Only for address `0` can the entry be one that is not used. -/
theorem firstUsed_iff (hinv : RecordsInv s) :
    FirstUsed s.mappings v ↔ (v = 0 → FirstUsed s.mappings 0) := by
  constructor
  · rintro h rfl
    exact h
  · intro h i hi hv hfirst
    rcases eq_or_ne v 0 with rfl | hv0
    · exact h rfl i hi hv hfirst
    · by_contra hfree
      rw [Bool.not_eq_true] at hfree
      exact hv0 (hv.symm.trans (hinv.cleared i hi hfree))

/-- **One call.** -/
theorem recordStep_bookkeeping {t : State} {c : RecordCall} (hinv : RecordsInv s)
    (hok : BookkeepingOk s.mappings) (hs : recordStep s c = some t) :
    RecordsInv t ∧ (BookkeepingOk t.mappings ↔ KeepsRecords s c) := by
  cases c with
  | map pml4Address physAddress virtAddress permissions =>
    obtain ⟨-, heq⟩ := Option.ite_none_right_eq_some.mp hs
    have heq := Option.some.inj heq
    have hst : t.schedulingStarted = true := by
      rw [← heq, mapPage, if_pos hinv.started]
      exact hinv.started
    refine record_bookkeeping (v := virtAddress) hinv hok hst ?_
    rw [← heq, mapPage, if_pos hinv.started]
    rfl
  | unmap pml4Address virtAddress =>
    obtain ⟨-, rfl⟩ := unmapNext_eq_some.mp hs
    have hmap : (unmapPage s pml4Address virtAddress).mappings =
        clearMapping s.mappings virtAddress := if_pos hinv.started
    rw [KeepsRecords, ← firstUsed_iff hinv]
    exact clearMapping_bookkeeping hinv hok hinv.started hmap

/-- A thread that has mapped nothing yet. -/
def newThread : State := { nothingMapped with mappings := newMappings fun _ => ⟨0, 0, false⟩ }

end Vm

end WillowOS
