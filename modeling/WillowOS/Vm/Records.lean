import WillowOS.Lib.Slots
import WillowOS.Vm.Pages

/-!
# The records of the mappings of a thread

The pages a thread has mapped are recorded in an array of slots: a page goes into the first one
that is not used, the array is grown by eight as soon as it is full, and unmapping a page clears
the first slot with its address. An array that was always used in this way has its count of used
slots right, and a slot that is not used is clear (`WillowOS.Vm.RecordsOk`).

Recording pages that were not recorded before, and then unmapping them, leaves the slots there
were as they were (`WillowOS.Vm.Added`, which says what the records look like in between). The
array stays as large as it has become.
-/

namespace WillowOS

namespace Vm

open Paging

variable {mp mp₀ : ThreadMappings} {v flag i j n : ℕ} {vs : Finset ℕ}

/-- The slots that are used. -/
def taken (mp : ThreadMappings) (i : ℕ) : Bool := (mp.mappedVirtAddressesArray i).used

/-- **The records of a thread**: slots that are not used are clear, the count is right, and the
array is not full. -/
structure RecordsOk (mp : ThreadMappings) : Prop where
  cleared : ∀ i < mp.maxMappings, taken mp i = false → mp.mappedVirtAddressesArray i = ⟨0, 0, false⟩
  num_eq : mp.numMappings = Nat.count (taken mp · = true) mp.maxMappings
  num_lt : mp.numMappings < mp.maxMappings

/-- The bookkeeping of `map_page`. -/
def record (mp : ThreadMappings) (virtAddress : ℕ) : ThreadMappings :=
  growMappings (useMapping mp virtAddress).2

/-- **What `map_page` does to the records**: if the count is right and not all slots are used, the
page goes into a free one, and the array is grown if it is full now. -/
theorem record_spec (v : ℕ) (hcount : mp.numMappings = Nat.count (taken mp · = true) mp.maxMappings)
    (hlt : mp.numMappings < mp.maxMappings) :
    ∃ j < mp.maxMappings, taken mp j = false ∧ (useMapping mp v).1 = j ∧
      (∀ i, (record mp v).mappedVirtAddressesArray i =
        if i = j then ⟨v, (mp.mappedVirtAddressesArray j).flag, true⟩
        else if mp.maxMappings ≤ i ∧ i < (record mp v).maxMappings then ⟨0, 0, false⟩
        else mp.mappedVirtAddressesArray i) ∧
      (record mp v).numMappings = (mp.numMappings + 1) % 2 ^ 64 ∧
      mp.maxMappings ≤ (record mp v).maxMappings ∧
      (record mp v).numMappings < (record mp v).maxMappings := by
  obtain ⟨j, hj⟩ := Slots.exists_firstFree (hcount ▸ hlt)
  obtain ⟨hjlt, hfree⟩ := Slots.firstFree_eq_some hj
  have hfind : (List.range mp.maxMappings).find?
      (fun i => !(mp.mappedVirtAddressesArray i).used) = some j := hj
  refine ⟨j, hjlt, hfree, ?_⟩
  simp only [record, useMapping, hfind, growMappings]
  by_cases hfull : (mp.numMappings + 1) % 2 ^ 64 = mp.maxMappings
  · simp only [if_pos hfull]
    refine ⟨trivial, fun i => ?_, trivial, Nat.le_add_right _ _, by omega⟩
    rcases eq_or_ne i j with rfl | hne
    · rw [if_pos rfl, if_neg (by omega), Function.update_self]
    · rw [Function.update_of_ne hne, if_neg hne]
  · simp only [if_neg hfull]
    refine ⟨trivial, fun i => ?_, trivial, le_rfl, by omega⟩
    rcases eq_or_ne i j with rfl | hne
    · rw [if_pos rfl, Function.update_self]
    · rw [Function.update_of_ne hne, if_neg hne, if_neg (by omega)]

/-- One slot more is used then. -/
theorem count_record (v : ℕ)
    (hcount : mp.numMappings = Nat.count (taken mp · = true) mp.maxMappings)
    (hlt : mp.numMappings < mp.maxMappings) :
    Nat.count (taken (record mp v) · = true) (record mp v).maxMappings = mp.numMappings + 1 := by
  obtain ⟨j, hj, hfree, -, hentry, -, hle, -⟩ := record_spec v hcount hlt
  obtain ⟨k, hk⟩ := Nat.exists_eq_add_of_le hle
  rw [hcount, hk, ← Slots.count_take hj hfree]
  refine Slots.count_grow (fun i hi => ?_) fun i hi hik => ?_
  · rw [taken, hentry]
    rcases eq_or_ne i j with rfl | hne
    · rw [if_pos rfl, Function.update_self]
    · rw [if_neg hne, if_neg (by omega), Function.update_of_ne hne, taken]
  · rw [taken, hentry, if_neg (by omega), if_pos (by omega)]

/-- A turn of `map_range` writes the flag as well. -/
theorem recordNext_slot (mp : ThreadMappings) (v flag i : ℕ) :
    (recordNext mp v flag).mappedVirtAddressesArray i =
      if i = (useMapping mp v).1 then { (record mp v).mappedVirtAddressesArray i with flag := flag }
      else (record mp v).mappedVirtAddressesArray i := by
  split
  next h =>
    subst h
    exact Function.update_self ..
  next h => exact Function.update_of_ne h ..

/-- **What a turn of `map_range` does to the records.** -/
theorem recordNext_spec (v flag : ℕ) (hok : RecordsOk mp) (hnum : mp.numMappings + 1 < 2 ^ 64) :
    ∃ j < mp.maxMappings, taken mp j = false ∧
      (∀ i, (recordNext mp v flag).mappedVirtAddressesArray i =
        if i = j then ⟨v, flag, true⟩
        else if mp.maxMappings ≤ i ∧ i < (recordNext mp v flag).maxMappings then ⟨0, 0, false⟩
        else mp.mappedVirtAddressesArray i) ∧
      (recordNext mp v flag).numMappings = mp.numMappings + 1 ∧
      mp.maxMappings ≤ (recordNext mp v flag).maxMappings ∧
      mp.numMappings + 1 < (recordNext mp v flag).maxMappings := by
  obtain ⟨j, hj, hfree, hidx, hentry, hnum', hle, hlt⟩ := record_spec v hok.num_eq hok.num_lt
  rw [Nat.mod_eq_of_lt hnum] at hnum'
  refine ⟨j, hj, hfree, fun i => ?_, hnum', hle, hnum' ▸ hlt⟩
  rw [recordNext_slot, hidx, hentry]
  by_cases hij : i = j
  · rw [if_pos hij, if_pos hij, if_pos hij]
  · rw [if_neg hij, if_neg hij, if_neg hij]
    rfl

/-- A turn keeps the records in order. -/
theorem RecordsOk.recordNext (hok : RecordsOk mp) (hnum : mp.numMappings + 1 < 2 ^ 64) :
    RecordsOk (Vm.recordNext mp v flag) := by
  obtain ⟨j, hj, hfree, hentry, hnum', hle, hlt⟩ := recordNext_spec v flag hok hnum
  refine ⟨fun i hi hti => ?_, ?_, hnum' ▸ hlt⟩
  · rw [taken, hentry] at hti
    rw [hentry]
    split_ifs at hti ⊢ with h1 h2
    · rfl
    · exact hok.cleared i (by omega) hti
  · -- the flag does not say which slots are used
    have htaken : taken (Vm.recordNext mp v flag) = taken (record mp v) := by
      funext i
      rw [taken, taken, recordNext_slot]
      split_ifs <;> rfl
    rw [hnum', htaken]
    exact (count_record v hok.num_eq hok.num_lt).symm

/-- The slots of an array, with clear ones after its end. -/
def slotOr (mp : ThreadMappings) (i : ℕ) : MappedVirtAddress :=
  if i < mp.maxMappings then mp.mappedVirtAddressesArray i else ⟨0, 0, false⟩

theorem slotOr_of_lt (hi : i < mp.maxMappings) : slotOr mp i = mp.mappedVirtAddressesArray i :=
  if_pos hi

theorem slotOr_of_le (hi : mp.maxMappings ≤ i) : slotOr mp i = ⟨0, 0, false⟩ :=
  if_neg (Nat.not_lt.mpr hi)

/-- **Records with those of some pages added**: each has a slot of its own, which was clear
before, and all other slots are as they were. -/
structure Added (mp₀ : ThreadMappings) (flag : ℕ) (vs : Finset ℕ) (mp : ThreadMappings) : Prop
    extends RecordsOk mp where
  max_le : mp₀.maxMappings ≤ mp.maxMappings
  num_add : mp.numMappings = mp₀.numMappings + vs.card
  zero_notMem : 0 ∉ vs
  slot : ∀ i < mp.maxMappings, mp.mappedVirtAddressesArray i = slotOr mp₀ i ∨
    slotOr mp₀ i = ⟨0, 0, false⟩ ∧ ∃ v ∈ vs, mp.mappedVirtAddressesArray i = ⟨v, flag, true⟩
  place : ∀ v ∈ vs, ∃ i < mp.maxMappings, slotOr mp₀ i = ⟨0, 0, false⟩ ∧
    mp.mappedVirtAddressesArray i = ⟨v, flag, true⟩ ∧
    ∀ j < mp.maxMappings, (mp.mappedVirtAddressesArray j).virtAddress = v → j = i

/-- The records are the same, but for clear slots at the end. -/
def SameRecords (mp mp' : ThreadMappings) : Prop :=
  mp'.numMappings = mp.numMappings ∧ mp.maxMappings ≤ mp'.maxMappings ∧
    ∀ i < mp'.maxMappings, mp'.mappedVirtAddressesArray i = slotOr mp i

theorem RecordsOk.added (flag : ℕ) (hok : RecordsOk mp) : Added mp flag ∅ mp where
  toRecordsOk := hok
  max_le := le_rfl
  num_add := by rw [Finset.card_empty, Nat.add_zero]
  zero_notMem := Finset.notMem_empty 0
  slot := fun i hi => Or.inl (if_pos hi).symm
  place := fun v hv => absurd hv (Finset.notMem_empty v)

theorem Added.sameRecords (h : Added mp₀ flag ∅ mp) : SameRecords mp₀ mp := by
  refine ⟨by rw [h.num_add, Finset.card_empty, Nat.add_zero], h.max_le, fun i hi => ?_⟩
  rcases h.slot i hi with heq | ⟨-, v, hv, -⟩
  · exact heq
  · exact absurd hv (Finset.notMem_empty v)

/-- The slots of the records, with clear ones after the end. -/
theorem Added.slotOr_cases (h : Added mp₀ flag vs mp) (i : ℕ) : slotOr mp i = slotOr mp₀ i ∨
    slotOr mp₀ i = ⟨0, 0, false⟩ ∧ ∃ v ∈ vs, slotOr mp i = ⟨v, flag, true⟩ := by
  by_cases hi : i < mp.maxMappings
  · rw [slotOr_of_lt hi]
    exact h.slot i hi
  · have := h.max_le
    rw [slotOr_of_le (by omega), slotOr_of_le (by omega)]
    exact Or.inl rfl

/-- No slot has an address that was neither recorded before nor added. -/
theorem Added.virtAddress_ne (h : Added mp₀ flag vs mp) (hok₀ : RecordsOk mp₀)
    (hv : v ∉ vs) (hv0 : v ≠ 0)
    (hnew : ∀ i < mp₀.maxMappings, taken mp₀ i = true →
      (mp₀.mappedVirtAddressesArray i).virtAddress ≠ v) : (slotOr mp i).virtAddress ≠ v := by
  intro heq
  rcases h.slotOr_cases i with hslot | ⟨-, u, hu, hslot⟩
  · rw [hslot, slotOr] at heq
    split_ifs at heq with hlt
    · rcases htaken : taken mp₀ i with _ | _
      · rw [hok₀.cleared i hlt htaken] at heq
        exact hv0 heq.symm
      · exact hnew i hlt htaken heq
    · exact hv0 heq.symm
  · rw [hslot] at heq
    exact hv (heq ▸ hu)

/-- A slot that is free now was clear before. -/
theorem Added.slotOr_of_free (h : Added mp₀ flag vs mp) (hj : j < mp.maxMappings)
    (hfree : taken mp j = false) : slotOr mp₀ j = ⟨0, 0, false⟩ := by
  rcases h.slot j hj with hslot | ⟨hslot, -⟩
  · rw [← hslot]
    exact h.cleared j hj hfree
  · exact hslot

/-- The slot of a page is the only one with its address. -/
theorem Added.place_slotOr (h : Added mp₀ flag vs mp) (hv : v ∈ vs) :
    ∃ i < mp.maxMappings, slotOr mp₀ i = ⟨0, 0, false⟩ ∧ slotOr mp i = ⟨v, flag, true⟩ ∧
      ∀ j, (slotOr mp j).virtAddress = v → j = i := by
  obtain ⟨i, hi, hclear, hslot, huniq⟩ := h.place v hv
  refine ⟨i, hi, hclear, (slotOr_of_lt hi).trans hslot, fun j hj => ?_⟩
  rw [slotOr] at hj
  split_ifs at hj with hlt
  · exact huniq j hlt hj
  · obtain rfl : 0 = v := hj
    exact absurd hv h.zero_notMem

/-- A page is recorded that was not. -/
theorem Added.recordNext (h : Added mp₀ flag vs mp) (hnum : mp.numMappings + 1 < 2 ^ 64)
    (hok₀ : RecordsOk mp₀) (hv : v ∉ vs) (hv0 : v ≠ 0)
    (hnew : ∀ i < mp₀.maxMappings, taken mp₀ i = true →
      (mp₀.mappedVirtAddressesArray i).virtAddress ≠ v) :
    Added mp₀ flag (insert v vs) (Vm.recordNext mp v flag) := by
  obtain ⟨j, hj, hfree, hentry, hnum', hle, -⟩ :=
    recordNext_spec v flag h.toRecordsOk hnum
  have hself : (Vm.recordNext mp v flag).mappedVirtAddressesArray j = ⟨v, flag, true⟩ := by
    rw [hentry, if_pos rfl]
  -- a slot that is not the new one is an old slot, or a new clear one
  have hother : ∀ i < (Vm.recordNext mp v flag).maxMappings, i ≠ j →
      (Vm.recordNext mp v flag).mappedVirtAddressesArray i = slotOr mp i := by
    intro i hi hne
    rw [hentry, if_neg hne]
    rcases Nat.lt_or_ge i mp.maxMappings with hlt | hge
    · rw [if_neg (by omega), slotOr_of_lt hlt]
    · rw [if_pos ⟨hge, hi⟩, slotOr_of_le hge]
  have hbase := h.slotOr_of_free hj hfree
  refine ⟨h.toRecordsOk.recordNext hnum, h.max_le.trans hle, ?_, ?_, fun i hi => ?_,
    fun u hu => ?_⟩
  · rw [hnum', h.num_add, Finset.card_insert_of_notMem hv]
    omega
  · rw [Finset.mem_insert, not_or]
    exact ⟨hv0.symm, h.zero_notMem⟩
  · rcases eq_or_ne i j with rfl | hne
    · exact Or.inr ⟨hbase, v, Finset.mem_insert_self v vs, hself⟩
    · rw [hother i hi hne]
      refine (h.slotOr_cases i).imp_right ?_
      rintro ⟨hb, u, hu, hslot⟩
      exact ⟨hb, u, Finset.mem_insert_of_mem hu, hslot⟩
  · rcases Finset.mem_insert.mp hu with rfl | hu
    · refine ⟨j, by omega, hbase, hself, fun i hi heq => ?_⟩
      by_contra hne
      rw [hother i hi hne] at heq
      exact h.virtAddress_ne hok₀ hv hv0 hnew heq
    · obtain ⟨i, hi, hclear, hslot, huniq⟩ := h.place_slotOr hu
      have hij : i ≠ j := by
        rintro rfl
        rw [slotOr_of_lt hi] at hslot
        rw [taken, hslot] at hfree
        cases hfree
      refine ⟨i, by omega, hclear, (hother i (by omega) hij).trans hslot, fun k hk heq => ?_⟩
      rcases eq_or_ne k j with rfl | hne
      · rw [hself] at heq
        obtain rfl : v = u := heq
        exact absurd hu hv
      · rw [hother k hk hne] at heq
        exact huniq k heq

/-- The records with a slot cleared, and one less counted. -/
def clearSlot (mp : ThreadMappings) (j : ℕ) : ThreadMappings :=
  { mp with
    mappedVirtAddressesArray := Function.update mp.mappedVirtAddressesArray j ⟨0, 0, false⟩
    numMappings := (mp.numMappings + 2 ^ 64 - 1) % 2 ^ 64 }

theorem numMappings_clearSlot (mp : ThreadMappings) (j : ℕ) :
    (clearSlot mp j).numMappings = (mp.numMappings + 2 ^ 64 - 1) % 2 ^ 64 :=
  rfl

theorem clearSlot_slot (mp : ThreadMappings) (j i : ℕ) :
    (clearSlot mp j).mappedVirtAddressesArray i =
      if i = j then ⟨0, 0, false⟩ else mp.mappedVirtAddressesArray i :=
  Function.update_apply ..

theorem taken_clearSlot (mp : ThreadMappings) (j : ℕ) :
    taken (clearSlot mp j) = Function.update (taken mp) j false := by
  funext i
  rw [taken, clearSlot_slot, Function.update_apply]
  split_ifs <;> rfl

/-- **What unmapping a page does to the records**: nothing if no slot has its address, and else the
first slot that has it is cleared. -/
theorem clearMapping_cases (mp : ThreadMappings) (v : ℕ) :
    (∀ i < mp.maxMappings, (mp.mappedVirtAddressesArray i).virtAddress ≠ v) ∧
      clearMapping mp v = mp ∨
    ∃ j < mp.maxMappings, (mp.mappedVirtAddressesArray j).virtAddress = v ∧
      (∀ i < j, (mp.mappedVirtAddressesArray i).virtAddress ≠ v) ∧
      clearMapping mp v = clearSlot mp j := by
  rw [clearMapping]
  split
  next hnone =>
    refine Or.inl ⟨fun i hi => ?_, rfl⟩
    simpa using List.find?_eq_none.mp hnone i (List.mem_range.mpr hi)
  next j hj =>
    obtain ⟨hjv, hjlt, hbefore⟩ := List.find?_range_eq_some.mp hj
    exact Or.inr ⟨j, List.mem_range.mp hjlt, by simpa using hjv,
      fun i hi => by simpa using hbefore i hi, rfl⟩

/-- Clearing a used slot keeps the records in order. -/
theorem RecordsOk.clearSlot (hok : RecordsOk mp) (hnum : mp.numMappings < 2 ^ 64)
    (hj : j < mp.maxMappings) (htaken : taken mp j = true) :
    RecordsOk (Vm.clearSlot mp j) ∧ mp.numMappings = (Vm.clearSlot mp j).numMappings + 1 := by
  have hcount := Slots.count_free hj htaken
  have heq := hok.num_eq
  have hlt := hok.num_lt
  have hnum' := numMappings_clearSlot mp j
  refine ⟨⟨fun i hi hti => ?_, ?_, ?_⟩, by omega⟩
  · rw [taken, clearSlot_slot] at hti
    rw [clearSlot_slot]
    split_ifs at hti ⊢ with hij
    · rfl
    · exact hok.cleared i hi hti
  · rw [taken_clearSlot]
    show _ = Nat.count _ mp.maxMappings
    omega
  · show _ < mp.maxMappings
    omega

/-- A page that was recorded is unmapped. -/
theorem Added.clearMapping (h : Added mp₀ flag vs mp) (hnum : mp.numMappings < 2 ^ 64)
    (hv : v ∈ vs) : Added mp₀ flag (vs.erase v) (Paging.clearMapping mp v) := by
  obtain ⟨j, hj, hbase, hslot, huniq⟩ := h.place v hv
  have hclear : Paging.clearMapping mp v = clearSlot mp j := by
    obtain ⟨hnone, -⟩ | ⟨i, hi, hiv, -, heq⟩ := clearMapping_cases mp v
    · exact absurd (by rw [hslot]) (hnone j hj)
    · rw [heq, huniq i hi hiv]
  obtain ⟨hok, hnum'⟩ := h.toRecordsOk.clearSlot hnum hj (by rw [taken, hslot])
  rw [hclear]
  refine ⟨hok, h.max_le, ?_, ?_, fun i hi => ?_, fun u hu => ?_⟩
  · have hadd := h.num_add
    have hcard : 0 < vs.card := Finset.card_pos.mpr ⟨v, hv⟩
    rw [Finset.card_erase_of_mem hv]
    omega
  · exact fun h0 => h.zero_notMem (Finset.mem_of_mem_erase h0)
  · rw [clearSlot_slot]
    split_ifs with hij
    · exact Or.inl (hij ▸ hbase.symm)
    · refine (h.slot i hi).imp_right ?_
      rintro ⟨hb, u, hu, hu'⟩
      refine ⟨hb, u, Finset.mem_erase.mpr ⟨?_, hu⟩, hu'⟩
      rintro rfl
      exact hij (huniq i hi (by rw [hu']))
  · obtain ⟨hne, hu⟩ := Finset.mem_erase.mp hu
    obtain ⟨i, hi, hb, hi', huniq'⟩ := h.place u hu
    have hij : i ≠ j := by
      rintro rfl
      rw [hslot] at hi'
      exact hne (MappedVirtAddress.mk.inj hi').1.symm
    refine ⟨i, hi, hb, by rw [clearSlot_slot, if_neg hij, hi'], fun k hk heq => ?_⟩
    rw [clearSlot_slot] at heq
    split_ifs at heq with hkj
    · obtain rfl : 0 = u := heq
      exact absurd hu h.zero_notMem
    · exact huniq' k hk heq

/-! ### The loops -/

/-- The records after the loop of `map_range`. -/
theorem mappings_mapAll {pml4Address permissions : ℕ} {s s' : State} {l : List ℕ}
    (hs : l.foldlM (mapNext pml4Address permissions flag) s = some s') :
    s'.schedulingStarted = s.schedulingStarted ∧
      s'.mappings = if s.schedulingStarted then l.foldl (recordNext · · flag) s.mappings
        else s.mappings := by
  induction l generalizing s with
  | nil =>
    obtain rfl : s = s' := Option.some.inj hs
    exact ⟨rfl, by simp⟩
  | cons v l ih =>
    obtain ⟨s₁, hs₁, hs⟩ := run_cons.mp hs
    obtain ⟨-, rfl⟩ := mapNext_eq_some.mp hs₁
    obtain ⟨hst, hmp⟩ := ih hs
    refine ⟨hst, hmp.trans ?_⟩
    dsimp only [recordIf]
    split_ifs <;> rfl

/-- **Pages that were not recorded, recorded one after the other.** -/
theorem Added.foldl_recordNext {l : List ℕ} (h : Added mp₀ flag vs mp) (hok₀ : RecordsOk mp₀)
    (hnum : mp.numMappings + l.length < 2 ^ 64) (hl : l.Nodup) (hvs : ∀ v ∈ l, v ∉ vs)
    (h0 : 0 ∉ l) (hnew : ∀ v ∈ l, ∀ i < mp₀.maxMappings, taken mp₀ i = true →
      (mp₀.mappedVirtAddressesArray i).virtAddress ≠ v) :
    Added mp₀ flag (vs ∪ l.toFinset) (l.foldl (Vm.recordNext · · flag) mp) := by
  induction l generalizing mp vs with
  | nil => rwa [List.toFinset_nil, Finset.union_empty]
  | cons v l ih =>
    obtain ⟨hv, hl⟩ := List.nodup_cons.mp hl
    rw [List.length_cons] at hnum
    have hv0 : v ≠ 0 := fun hv0 => h0 (hv0 ▸ List.mem_cons_self)
    have hstep := h.recordNext (by omega) hok₀ (hvs v List.mem_cons_self) hv0
      (hnew v List.mem_cons_self)
    have hnum' : (Vm.recordNext mp v flag).numMappings = mp.numMappings + 1 := by
      rw [hstep.num_add, h.num_add, Finset.card_insert_of_notMem (hvs v List.mem_cons_self)]
      omega
    have hrest := ih hstep (by omega) hl (fun u hu => ?_)
      (fun h => h0 (List.mem_cons_of_mem _ h)) fun u hu => hnew u (List.mem_cons_of_mem _ hu)
    · rwa [List.toFinset_cons, Finset.union_insert, ← Finset.insert_union]
    · rw [Finset.mem_insert, not_or]
      exact ⟨fun huv => hv (huv ▸ hu), hvs u (List.mem_cons_of_mem _ hu)⟩

/-- **The same pages unmapped one after the other.** -/
theorem Added.foldl_clearMapping {l : List ℕ} (h : Added mp₀ flag l.toFinset mp)
    (hnum : mp.numMappings < 2 ^ 64) (hl : l.Nodup) :
    Added mp₀ flag ∅ (l.foldl Paging.clearMapping mp) := by
  induction l generalizing mp with
  | nil => exact h
  | cons v l ih =>
    obtain ⟨hv, hl⟩ := List.nodup_cons.mp hl
    rw [List.toFinset_cons] at h
    have hstep := h.clearMapping hnum (Finset.mem_insert_self v _)
    have hnum' := h.num_add
    have hnum'' := hstep.num_add
    rw [Finset.erase_insert (by rwa [List.mem_toFinset])] at hstep hnum''
    rw [Finset.card_insert_of_notMem (by rwa [List.mem_toFinset])] at hnum'
    exact ih hstep (by omega) hl

/-! ### What is recorded -/

variable {P : ℕ → Prop} {l : List ℕ}

/-- The addresses of the used records have a property. -/
def Recorded (mp : ThreadMappings) (P : ℕ → Prop) : Prop :=
  ∀ i < mp.maxMappings, taken mp i = true → P (mp.mappedVirtAddressesArray i).virtAddress

theorem Recorded.mono {Q : ℕ → Prop} (h : Recorded mp P) (hPQ : ∀ v, P v → Q v) : Recorded mp Q :=
  fun i hi hti => hPQ _ (h i hi hti)

theorem Recorded.useMapping (h : Recorded mp P) (hv : P v) :
    Recorded (Paging.useMapping mp v).2 P := by
  rw [Paging.useMapping]
  split
  next => exact h
  next j _ =>
    intro i hi hti
    by_cases hij : i = j
    · subst hij
      simpa using hv
    · rw [taken] at hti
      simp only [Function.update_of_ne hij] at hti ⊢
      exact h i hi hti

theorem Recorded.growMappings (h : Recorded mp P) : Recorded (Paging.growMappings mp) P := by
  rw [Paging.growMappings]
  split
  next =>
    intro i hi hti
    rw [taken] at hti
    by_cases hnew : mp.maxMappings ≤ i ∧ i < mp.maxMappings + 8
    · simp only [if_pos hnew] at hti
      cases hti
    · simp only [if_neg hnew] at hti ⊢
      exact h i (by dsimp only at hi; omega) hti
  next => exact h

/-- **A page more is recorded**, whether the array has a slot for it or not. -/
theorem Recorded.recordNext (h : Recorded mp P) (hv : P v) :
    Recorded (Vm.recordNext mp v flag) P := by
  have hgrown := (h.useMapping hv).growMappings
  intro i hi hti
  rw [taken] at hti
  by_cases hij : i = (Paging.useMapping mp v).1
  · subst hij
    simp only [Vm.recordNext, Function.update_self] at hi hti ⊢
    exact hgrown _ hi hti
  · simp only [Vm.recordNext, Function.update_of_ne hij] at hi hti ⊢
    exact hgrown i hi hti

theorem Recorded.foldl_recordNext (h : Recorded mp P) (hl : ∀ v ∈ l, P v) :
    Recorded (l.foldl (Vm.recordNext · · flag) mp) P := by
  induction l generalizing mp with
  | nil => exact h
  | cons v l ih =>
    exact ih (h.recordNext (hl v List.mem_cons_self)) fun u hu => hl u (List.mem_cons_of_mem _ hu)

theorem maxMappings_clearMapping : (clearMapping mp v).maxMappings = mp.maxMappings := by
  obtain ⟨-, heq⟩ | ⟨j, -, -, -, heq⟩ := clearMapping_cases mp v
  · rw [heq]
  · rw [heq, clearSlot]

/-- A slot after a record is cleared: it is a clear one, or as it was. -/
theorem clearMapping_slot (mp : ThreadMappings) (v i : ℕ) :
    (clearMapping mp v).mappedVirtAddressesArray i = ⟨0, 0, false⟩ ∨
      (clearMapping mp v).mappedVirtAddressesArray i = mp.mappedVirtAddressesArray i := by
  obtain ⟨-, heq⟩ | ⟨j, -, -, -, heq⟩ := clearMapping_cases mp v
  · exact Or.inr (by rw [heq])
  · rw [heq, clearSlot_slot]
    exact ite_eq_or_eq ..

theorem Recorded.clearMapping (h : Recorded mp P) : Recorded (Paging.clearMapping mp v) P := by
  intro i hi hti
  rw [maxMappings_clearMapping] at hi
  rw [taken] at hti
  rcases clearMapping_slot mp v i with heq | heq
  · rw [heq] at hti
    cases hti
  · rw [heq] at hti ⊢
    exact h i hi hti

/-- The page of an address is recorded once at most, by the address itself, and no slot before that
record has the address. -/
def RecordedOnce (mp : ThreadMappings) (v : ℕ) : Prop :=
  ∀ i < mp.maxMappings, taken mp i = true →
    pageNumber (mp.mappedVirtAddressesArray i).virtAddress = pageNumber v →
    (mp.mappedVirtAddressesArray i).virtAddress = v ∧
      ∀ j < i, (mp.mappedVirtAddressesArray j).virtAddress ≠ v

instance (mp : ThreadMappings) (v : ℕ) : Decidable (RecordedOnce mp v) := by
  unfold RecordedOnce
  infer_instance

/-- **Then its record is the one that is cleared.** -/
theorem RecordedOnce.clearMapping (h : RecordedOnce mp v) (hP : Recorded mp P) :
    Recorded (Paging.clearMapping mp v) fun u => P u ∧ pageNumber u ≠ pageNumber v := by
  intro i hi hti
  refine ⟨hP.clearMapping i hi hti, fun hpage => ?_⟩
  rw [maxMappings_clearMapping] at hi
  rw [taken] at hti
  obtain ⟨hnone, heq⟩ | ⟨j, -, hjv, hbefore, heq⟩ := clearMapping_cases mp v
  · rw [heq] at hti hpage
    exact hnone i hi (h i hi hti hpage).1
  · rw [heq, clearSlot_slot] at hti hpage
    split_ifs at hti hpage with hij
    obtain ⟨hv, hfirst⟩ := h i hi hti hpage
    rcases lt_or_gt_of_ne hij with hlt | hlt
    · exact hbefore i hlt hv
    · exact hfirst j hlt hjv

/-- Another page is recorded as it was. -/
theorem RecordedOnce.of_clearMapping {u : ℕ} (h : RecordedOnce mp v) (hv : v ≠ 0) :
    RecordedOnce (Paging.clearMapping mp u) v := by
  intro i hi hti hpage
  rw [maxMappings_clearMapping] at hi
  rw [taken] at hti
  rcases clearMapping_slot mp u i with heq | heq
  · rw [heq] at hti
    cases hti
  · rw [heq] at hti hpage ⊢
    obtain ⟨hslot, hfirst⟩ := h i hi hti hpage
    refine ⟨hslot, fun j hj => ?_⟩
    rcases clearMapping_slot mp u j with heq | heq
    · rw [heq]
      exact hv.symm
    · rw [heq]
      exact hfirst j hj

/-- **Pages that are recorded once, cleared one after the other.** -/
theorem Recorded.foldl_clearMapping (hP : Recorded mp P) (h : ∀ v ∈ l, RecordedOnce mp v)
    (h0 : 0 ∉ l) : Recorded (l.foldl Paging.clearMapping mp) fun u =>
      P u ∧ pageNumber u ∉ l.map pageNumber := by
  induction l generalizing mp P with
  | nil => exact hP.mono fun u hu => ⟨hu, List.not_mem_nil⟩
  | cons v l ih =>
    have hne : ∀ u ∈ l, u ≠ 0 := fun u hu hu0 => h0 (hu0 ▸ List.mem_cons_of_mem _ hu)
    refine (ih ((h v List.mem_cons_self).clearMapping hP) (fun u hu =>
      (h u (List.mem_cons_of_mem _ hu)).of_clearMapping (hne u hu))
      fun hmem => h0 (List.mem_cons_of_mem _ hmem)).mono fun u hu => ⟨hu.1.1, ?_⟩
    rw [List.map_cons, List.mem_cons, not_or]
    exact ⟨hu.1.2, hu.2⟩

end Vm

end WillowOS
