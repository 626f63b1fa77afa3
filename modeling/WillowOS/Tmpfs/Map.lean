import WillowOS.Tmpfs.Directory

/-!
# A directory is a finite map

The relation `WillowOS.Tmpfs.Refines` between a directory and a map from names to entries:
no name and no object is in two slots, the count is right and below the size, and the map
says about a name what the slot of that name holds. Each of the operations preserves it, the
map being changed as `WillowOS.Tmpfs.specStep` says, so runs do
(**`WillowOS.Tmpfs.tmpfsLookup_run`**).
-/

namespace WillowOS

namespace Tmpfs

variable {s s' : State} {dir : TmpfsDirectory} {m : CString → Option Entry} {name name' : CString}
  {test : TmpfsObject → Bool} {object i j : ℕ}

/-- Slot `i` holds an object of this name. -/
def Named (s : State) (name : CString) (i : ℕ) : Prop :=
  i < s.dir.maxFiles ∧ s.dir.files i ≠ 0 ∧ (s.objects (s.dir.files i)).name = name

/-- What slot `i` says. -/
def entryAt (s : State) (i : ℕ) : Entry :=
  ⟨s.dir.files i, (s.objects (s.dir.files i)).type, (s.objects (s.dir.files i)).openCount⟩

/-- The slots that are taken. -/
def taken (dir : TmpfsDirectory) (i : ℕ) : Bool := decide (dir.files i ≠ 0)

/-- The invariant: names and objects are in one slot each, `num_files` is the number of
slots taken, and one slot at least is free. -/
structure Inv (s : State) : Prop where
  named : ∀ name i j, Named s name i → Named s name j → i = j
  files : ∀ i j, i < s.dir.maxFiles → j < s.dir.maxFiles → s.dir.files i ≠ 0 →
    s.dir.files i = s.dir.files j → i = j
  num_eq : s.dir.numFiles = Nat.count (taken s.dir · = true) s.dir.maxFiles
  num_lt : s.dir.numFiles < s.dir.maxFiles

/-- A directory and the map it stands for. -/
structure Refines (s : State) (m : CString → Option Entry) : Prop extends Inv s where
  map_eq : ∀ name e, m name = some e ↔ ∃ i, Named s name i ∧ entryAt s i = e

/-! ### Searches -/

theorem named_of_findSlot (h : findSlot s name test = some i) :
    Named s name i ∧ test (s.objects (s.dir.files i)) = true := by
  have hlt := List.mem_range.mp (List.mem_of_find?_eq_some h)
  have hfound := List.find?_some h
  simp only [Bool.and_eq_true, decide_eq_true_eq, CString.strcmp_eq_zero] at hfound
  exact ⟨⟨hlt, hfound.1, hfound.2.1⟩, hfound.2.2⟩

theorem findSlot_eq_none (h : findSlot s name test = none) (hi : Named s name i) :
    test (s.objects (s.dir.files i)) = false := by
  have hall := List.find?_eq_none.mp h i (List.mem_range.mpr hi.1)
  simp only [Bool.and_eq_true, decide_eq_true_eq, CString.strcmp_eq_zero, not_and,
    Bool.not_eq_true] at hall
  exact hall hi.2.1 hi.2.2

/-- **A free slot is found**, so no create overwrites an object. -/
theorem Inv.freeIndex_spec (h : Inv s) :
    freeIndex s.dir < s.dir.maxFiles ∧ s.dir.files (freeIndex s.dir) = 0 := by
  have hfree : (fun i => decide (s.dir.files i = 0)) = fun i => !taken s.dir i := by
    funext i
    simp [taken]
  obtain ⟨i, hi⟩ := Slots.exists_firstFree (h.num_eq ▸ h.num_lt)
  obtain ⟨hlt, hnull⟩ := Slots.firstFree_eq_some hi
  rw [freeIndex]
  split_ifs with h0
  · rw [hfree, show (List.range s.dir.maxFiles).find? (fun i => !taken s.dir i) = some i from hi]
    exact ⟨hlt, by simpa [taken] using hnull⟩
  · exact ⟨Nat.zero_lt_of_lt h.num_lt, not_ne_iff.mp h0⟩

/-- What `tmpfs_lookup` returns. -/
theorem Refines.tmpfsLookup_eq (h : Refines s m) : tmpfsLookup s name = Entry.pointer (m name) := by
  rw [tmpfsLookup]
  rcases hf : findSlot s name fun _ => true with _ | i
  · -- no slot has the name, so the map has no entry for it
    have hnone : m name = none := by
      rcases hm : m name with _ | e
      · rfl
      · obtain ⟨i, hi, -⟩ := (h.map_eq name e).mp hm
        exact absurd (findSlot_eq_none hf hi) (by simp)
    rw [hnone]
    rfl
  · have hm := (h.map_eq name _).mpr ⟨i, (named_of_findSlot hf).1, rfl⟩
    rw [hm]
    rfl

/-! ### Creating -/

/-- The slots after an object was added. -/
theorem files_addObject (hfree : freeIndex dir < dir.maxFiles)
    (hi : i < (addObject dir object).maxFiles) :
    (addObject dir object).files i =
      if i = freeIndex dir then object else if i < dir.maxFiles then dir.files i else 0 := by
  rw [addObject] at hi ⊢
  dsimp only at hi ⊢
  split_ifs at hi ⊢ with h1 h2 h3 h4 <;> dsimp only at hi ⊢
  · rw [if_neg (by omega), h2, Function.update_self]
  · rw [if_neg (by omega), Function.update_of_ne h2]
  · rw [if_pos (by omega)]
  · rw [‹i = freeIndex dir›, Function.update_self]
  · rw [Function.update_of_ne ‹_›]

theorem maxFiles_le_addObject : dir.maxFiles ≤ (addObject dir object).maxFiles := by
  rw [addObject]
  dsimp only
  split_ifs
  · exact Nat.le_add_right _ _
  · exact le_rfl

theorem numFiles_addObject : (addObject dir object).numFiles = dir.numFiles + 1 := by
  rw [addObject]
  dsimp only
  split_ifs <;> rfl

/-- The count after an object was added is right, and below the size again. -/
theorem Inv.count_addObject (h : Inv s) (hobject : object ≠ 0) :
    (addObject s.dir object).numFiles =
        Nat.count (taken (addObject s.dir object) · = true) (addObject s.dir object).maxFiles ∧
      (addObject s.dir object).numFiles < (addObject s.dir object).maxFiles := by
  obtain ⟨hlt, hnull⟩ := h.freeIndex_spec
  have htake := Slots.count_take (i := freeIndex s.dir) (n := s.dir.maxFiles) hlt
    (show taken s.dir (freeIndex s.dir) = false by simp [taken, hnull])
  -- below the old size, the slots taken are the old ones and the new one
  have hold : ∀ i < s.dir.maxFiles, taken (addObject s.dir object) i =
      Function.update (taken s.dir) (freeIndex s.dir) true i := by
    intro i hi
    rw [taken, files_addObject hlt (hi.trans_le maxFiles_le_addObject), if_pos hi,
      Function.update_apply]
    split_ifs
    · simp [hobject]
    · rfl
  -- above it, none is
  have hgrow : Nat.count (taken (addObject s.dir object) · = true)
      (s.dir.maxFiles + ((addObject s.dir object).maxFiles - s.dir.maxFiles)) = _ :=
    Slots.count_grow hold fun i hi hi' => by
      rw [taken, files_addObject hlt (by omega), if_neg (by omega), if_neg (by omega)]
      rfl
  rw [Nat.add_sub_cancel' maxFiles_le_addObject, htake, ← h.num_eq] at hgrow
  refine ⟨numFiles_addObject.trans hgrow.symm, ?_⟩
  have hnum := h.num_lt
  rw [numFiles_addObject, addObject]
  dsimp only
  split_ifs
  · show s.dir.numFiles + 1 < s.dir.maxFiles + 32
    omega
  · show s.dir.numFiles + 1 < s.dir.maxFiles
    omega

/-- The state after an object was created. -/
def created (s : State) (object : ℕ) (o : TmpfsObject) : State :=
  ⟨addObject s.dir object, Function.update s.objects object o⟩

section Created

variable (h : Inv s) (hfresh : ∀ i < s.dir.maxFiles, s.dir.files i ≠ object) {o : TmpfsObject}
include h

theorem created_self : (created s object o).dir.files (freeIndex s.dir) = object := by
  have hlt := h.freeIndex_spec.1
  show (addObject s.dir object).files _ = _
  rw [files_addObject hlt (hlt.trans_le maxFiles_le_addObject), if_pos rfl]

/-- A slot that is taken now is the new one, or was taken. -/
theorem created_slot (hi : i < (created s object o).dir.maxFiles)
    (hne : (created s object o).dir.files i ≠ 0) :
    i = freeIndex s.dir ∨ i < s.dir.maxFiles ∧ s.dir.files i ≠ 0 := by
  have hfiles : (created s object o).dir.files i = _ := files_addObject h.freeIndex_spec.1 hi
  split_ifs at hfiles with h1 h2
  · exact Or.inl h1
  · exact Or.inr ⟨h2, hfiles ▸ hne⟩
  · exact absurd hfiles hne

include hfresh

/-- A slot that was taken holds what it held. -/
theorem created_kept (hi : i < s.dir.maxFiles) (hne : s.dir.files i ≠ 0) :
    (created s object o).dir.files i = s.dir.files i ∧
      (created s object o).objects (s.dir.files i) = s.objects (s.dir.files i) := by
  obtain ⟨hlt, hfree⟩ := h.freeIndex_spec
  have hif : i ≠ freeIndex s.dir := fun he => hne (he ▸ hfree)
  refine ⟨?_, Function.update_of_ne (hfresh i hi) _ _⟩
  show (addObject s.dir object).files _ = _
  rw [files_addObject hlt (hi.trans_le maxFiles_le_addObject), if_neg hif, if_pos hi]

/-- The slots by their names. -/
theorem named_created (hobject : object ≠ 0) (ho : o.name = name) :
    Named (created s object o) name' i ↔ name' = name ∧ i = freeIndex s.dir ∨ Named s name' i := by
  have hself := @created_self s object h o
  have hnew : (created s object o).objects object = o := Function.update_self ..
  constructor
  · rintro ⟨hi, hne, hn⟩
    rcases created_slot h hi hne with rfl | ⟨hi', hne'⟩
    · rw [hself, hnew, ho] at hn
      exact Or.inl ⟨hn.symm, rfl⟩
    · obtain ⟨hf, ho'⟩ := @created_kept s object i h hfresh o hi' hne'
      rw [hf, ho'] at hn
      exact Or.inr ⟨hi', hne', hn⟩
  · rintro (⟨rfl, rfl⟩ | ⟨hi, hne, hn⟩)
    · refine ⟨h.freeIndex_spec.1.trans_le maxFiles_le_addObject, ?_, ?_⟩
      · rw [hself]
        exact hobject
      · rw [hself, hnew, ho]
    · obtain ⟨hf, ho'⟩ := @created_kept s object i h hfresh o hi hne
      refine ⟨hi.trans_le maxFiles_le_addObject, hf ▸ hne, ?_⟩
      rw [hf, ho', hn]

/-- No object is in two slots. -/
theorem files_created {j : ℕ} (hi : i < (created s object o).dir.maxFiles)
    (hj : j < (created s object o).dir.maxFiles) (hne : (created s object o).dir.files i ≠ 0)
    (heq : (created s object o).dir.files i = (created s object o).dir.files j) : i = j := by
  have hself := @created_self s object h o
  rcases created_slot h hi hne with rfl | ⟨hi', hne'⟩
  · rcases created_slot h hj (heq ▸ hne) with rfl | ⟨hj', hnej⟩
    · rfl
    · rw [hself, (created_kept h hfresh hj' hnej).1] at heq
      exact absurd heq.symm (hfresh j hj')
  · rw [(created_kept h hfresh hi' hne').1] at heq
    rcases created_slot h hj (by rw [← heq]; exact hne') with rfl | ⟨hj', hnej⟩
    · rw [hself] at heq
      exact absurd heq (hfresh i hi')
    · rw [(created_kept h hfresh hj' hnej).1] at heq
      exact h.files i j hi' hj' hne' heq

end Created

/-- **Creating an object adds it under its name.** -/
theorem Refines.create (h : Refines s m) (hc : Creates s name object) {o : TmpfsObject}
    (ho : o.name = name) :
    Refines (created s object o) (Function.update m name (some ⟨object, o.type, o.openCount⟩)) := by
  obtain ⟨-, hlookup, hnull, hfresh⟩ := hc
  have hnew : ∀ i, ¬Named s name i := by
    intro i hi
    have hm := (h.map_eq name _).mpr ⟨i, hi, rfl⟩
    rw [h.tmpfsLookup_eq, hm] at hlookup
    exact hi.2.1 hlookup
  have hself := @created_self s object h.toInv o
  have hobject : (created s object o).objects object = o := Function.update_self ..
  obtain ⟨hnum, hnumlt⟩ := h.count_addObject hnull
  refine ⟨⟨fun n i j hi hj => ?_, fun i j => files_created h.toInv hfresh, hnum, hnumlt⟩,
    fun n e => ?_⟩
  · rw [named_created h.toInv hfresh hnull ho] at hi hj
    rcases hi with ⟨rfl, rfl⟩ | hi
    · rcases hj with ⟨-, rfl⟩ | hj
      · rfl
      · exact absurd hj (hnew j)
    · rcases hj with ⟨rfl, rfl⟩ | hj
      · exact absurd hi (hnew i)
      · exact h.named n i j hi hj
  · simp only [named_created h.toInv hfresh hnull ho]
    rw [Function.update_apply]
    split_ifs with hn
    · subst hn
      constructor
      · intro he
        refine ⟨_, Or.inl ⟨rfl, rfl⟩, ?_⟩
        rw [entryAt, hself, hobject]
        exact Option.some.inj he
      · rintro ⟨i, ⟨-, rfl⟩ | hi, rfl⟩
        · rw [entryAt, hself, hobject]
        · exact absurd hi (hnew i)
    · rw [h.map_eq]
      refine exists_congr fun i => ?_
      rw [or_iff_right fun hh => hn hh.1]
      refine and_congr_right fun hi => ?_
      obtain ⟨hf, ho'⟩ := @created_kept s object i h.toInv hfresh o hi.1 hi.2.1
      rw [entryAt, entryAt, hf, ho']

/-! ### Removing -/

theorem named_removeSlot (h : Inv s) (hi : Named s name i) :
    Named (removeSlot s i) name' j ↔ name' ≠ name ∧ Named s name' j := by
  constructor
  · rintro ⟨hj, hne, hn⟩
    have hji : j ≠ i := by
      rintro rfl
      exact hne (Function.update_self ..)
    have hf : (removeSlot s i).dir.files j = s.dir.files j := Function.update_of_ne hji _ _
    rw [hf] at hne hn
    refine ⟨?_, hj, hne, hn⟩
    rintro rfl
    exact hji (h.named _ j i ⟨hj, hne, hn⟩ hi)
  · rintro ⟨hn, hj⟩
    have hji : j ≠ i := by
      rintro rfl
      exact hn (hj.2.2.symm.trans hi.2.2)
    have hf : (removeSlot s i).dir.files j = s.dir.files j := Function.update_of_ne hji _ _
    exact ⟨hj.1, hf ▸ hj.2.1, hf ▸ hj.2.2⟩

/-- **Removing the slot of a name removes the name.** -/
theorem Refines.remove (h : Refines s m) (hi : Named s name i) :
    Refines (removeSlot s i) (Function.update m name none) := by
  have hfiles : ∀ {j}, (removeSlot s i).dir.files j ≠ 0 →
      (removeSlot s i).dir.files j = s.dir.files j := by
    intro j hne
    refine Function.update_of_ne ?_ _ _
    rintro rfl
    exact hne (Function.update_self ..)
  have htaken : taken (removeSlot s i).dir = Function.update (taken s.dir) i false := by
    funext j
    rw [Function.update_apply]
    split_ifs with hji
    · subst hji
      simp [taken, removeSlot]
    · simp [taken, removeSlot, hji]
  have hcount := Slots.count_free hi.1 (show taken s.dir i = true by simpa [taken] using hi.2.1)
  rw [← h.num_eq, ← htaken] at hcount
  refine ⟨⟨fun n j k hj hk => ?_, fun j k hj hk hne heq => ?_, ?_, ?_⟩, fun n e => ?_⟩
  · exact h.named n j k ((named_removeSlot h.toInv hi).mp hj).2
      ((named_removeSlot h.toInv hi).mp hk).2
  · have hk' := hfiles (heq ▸ hne)
    rw [hfiles hne] at heq hne
    exact h.files j k hj hk hne (heq.trans hk')
  · show s.dir.numFiles - 1 = _
    rw [← hcount]
    rfl
  · exact (Nat.sub_le _ _).trans_lt h.num_lt
  · simp only [named_removeSlot h.toInv hi, and_assoc]
    rw [Function.update_apply]
    split_ifs with hn
    · exact ⟨nofun, fun ⟨_, hne, _⟩ => absurd hn hne⟩
    · rw [h.map_eq]
      refine exists_congr fun j => ?_
      rw [and_iff_right hn]
      refine and_congr_right fun hj => ?_
      have hf : (removeSlot s i).dir.files j = s.dir.files j :=
        hfiles ((named_removeSlot h.toInv hi).mpr ⟨hn, hj⟩).2.1
      rw [entryAt, entryAt, hf]
      rfl

/-! ### Steps and runs -/

theorem name_setOpenCount {o : TmpfsObject} {count : ℕ} : (o.setOpenCount count).name = o.name := by
  cases o <;> rfl

theorem type_setOpenCount {o : TmpfsObject} {count : ℕ} : (o.setOpenCount count).type = o.type := by
  cases o <;> rfl

theorem openCount_setOpenCount {o : TmpfsObject} {count : ℕ} :
    (o.setOpenCount count).openCount = if o.type = 0 then count else o.openCount := by
  cases o <;> rfl

/-- The state after the `open_count` of a file was set. -/
theorem Refines.setOpenCount {file count : ℕ} (h : Refines s m)
    (hs : step s (.setOpenCount file count) = some s') :
    Refines s' (specStep m (.setOpenCount file count)) := by
  obtain rfl := Option.some.inj hs
  have hobject : ∀ a, Function.update s.objects file ((s.objects file).setOpenCount count) a =
      if a = file then (s.objects a).setOpenCount count else s.objects a := by
    intro a
    rw [Function.update_apply]
    split_ifs with ha
    · rw [ha]
    · rfl
  have hnamed : ∀ n i, Named ⟨s.dir, Function.update s.objects file
      ((s.objects file).setOpenCount count)⟩ n i ↔ Named s n i := by
    intro n i
    simp only [Named, hobject, apply_ite TmpfsObject.name, name_setOpenCount, ite_self]
  have hentry : ∀ i, entryAt ⟨s.dir, Function.update s.objects file
      ((s.objects file).setOpenCount count)⟩ i =
      if (entryAt s i).object = file ∧ (entryAt s i).type = 0
      then { entryAt s i with openCount := count } else entryAt s i := by
    intro i
    show Entry.mk (s.dir.files i)
      (TmpfsObject.type (Function.update s.objects file _ (s.dir.files i)))
      (TmpfsObject.openCount (Function.update s.objects file _ (s.dir.files i))) =
      if s.dir.files i = file ∧ (s.objects (s.dir.files i)).type = 0
      then ⟨s.dir.files i, (s.objects (s.dir.files i)).type, count⟩ else entryAt s i
    rw [hobject]
    by_cases hfile : s.dir.files i = file
    · by_cases htype : (s.objects (s.dir.files i)).type = 0
      · rw [if_pos hfile, if_pos ⟨hfile, htype⟩, type_setOpenCount, openCount_setOpenCount,
          if_pos htype]
      · rw [if_pos hfile, if_neg fun hh => htype hh.2, type_setOpenCount, openCount_setOpenCount,
          if_neg htype]
        rfl
    · rw [if_neg hfile, if_neg fun hh => hfile hh.1]
      rfl
  refine ⟨⟨?_, h.files, h.num_eq, h.num_lt⟩, fun n e => ?_⟩
  · simpa only [hnamed] using h.named
  · simp only [hnamed, hentry, specStep, Option.map_eq_some_iff, h.map_eq]
    constructor
    · rintro ⟨e', ⟨i, hi, rfl⟩, rfl⟩
      exact ⟨i, hi, rfl⟩
    · rintro ⟨i, hi, rfl⟩
      exact ⟨_, ⟨i, hi, rfl⟩, rfl⟩

/-- What a search finds is what the map has under the name, if that passes the test. -/
theorem Refines.findSlot_cases (h : Refines s m) (name : CString) (test : TmpfsObject → Bool) :
    (∃ i, findSlot s name test = some i ∧ Named s name i ∧ m name = some (entryAt s i) ∧
      test (s.objects (s.dir.files i)) = true) ∨
    findSlot s name test = none ∧ ∀ e, m name = some e →
      ∃ i, e = entryAt s i ∧ test (s.objects (s.dir.files i)) = false := by
  rcases hf : findSlot s name test with _ | i
  · refine Or.inr ⟨rfl, fun e he => ?_⟩
    obtain ⟨i, hi, rfl⟩ := (h.map_eq name e).mp he
    exact ⟨i, rfl, findSlot_eq_none hf hi⟩
  · obtain ⟨hi, htest⟩ := named_of_findSlot hf
    exact Or.inl ⟨i, rfl, hi, (h.map_eq name _).mpr ⟨i, hi, rfl⟩, htest⟩

/-- **One step of the directory is one step of the map.** -/
theorem refines_step {e : Event} (h : Refines s m) (hs : step s e = some s') :
    Refines s' (specStep m e) := by
  cases e with
  | createFile name size newFile data =>
    rw [step] at hs
    split_ifs at hs with hc
    obtain rfl := Option.some.inj hs
    exact h.create hc rfl
  | createDirectory name newDir =>
    rw [step] at hs
    split_ifs at hs with hc
    obtain rfl := Option.some.inj hs
    exact h.create hc rfl
  | deleteFile name =>
    obtain rfl := Option.some.inj hs
    rw [tmpfsDeleteFile, specStep]
    obtain ⟨i, hf, hi, hm, htype⟩ | ⟨hf, hm⟩ := h.findSlot_cases name fun o => o.type = 0
    · rw [hf, hm]
      have htype : (entryAt s i).type = 0 := of_decide_eq_true htype
      by_cases hopen : (entryAt s i).openCount = 0
      · rw [if_pos (by simp [htype, hopen])]
        show Refines (if (entryAt s i).openCount ≠ 0 then s else removeSlot s i) _
        rw [if_neg (not_ne_iff.mpr hopen)]
        exact h.remove hi
      · rw [if_neg (by simp [hopen])]
        show Refines (if (entryAt s i).openCount ≠ 0 then s else removeSlot s i) _
        rw [if_pos hopen]
        exact h
    · rw [hf, if_neg]
      · exact h
      · rcases he : m name with _ | e
        · simp
        · obtain ⟨i, rfl, htype⟩ := hm e he
          have htype : (entryAt s i).type ≠ 0 := of_decide_eq_false htype
          simp [htype]
  | deleteDirectory name =>
    obtain rfl := Option.some.inj hs
    rw [tmpfsDeleteDirectory, specStep]
    obtain ⟨i, hf, hi, hm, htype⟩ | ⟨hf, hm⟩ := h.findSlot_cases name fun o => o.type = 1
    · have htype : (entryAt s i).type = 1 := of_decide_eq_true htype
      rw [hf, hm, if_pos (by simp [htype])]
      exact h.remove hi
    · rw [hf, if_neg]
      · exact h
      · rcases he : m name with _ | e
        · simp
        · obtain ⟨i, rfl, htype⟩ := hm e he
          have htype : (entryAt s i).type ≠ 1 := of_decide_eq_false htype
          simp [htype]
  | setOpenCount file count => exact h.setOpenCount hs

/-- A directory without objects, of any size. -/
structure Empty (dir : TmpfsDirectory) : Prop where
  maxFiles_pos : 0 < dir.maxFiles
  numFiles_eq : dir.numFiles = 0
  files_eq : ∀ i < dir.maxFiles, dir.files i = 0

theorem refines_empty (h : Empty s.dir) : Refines s fun _ => none := by
  have hnone : ∀ n i, ¬Named s n i := fun n i hi => hi.2.1 (h.files_eq i hi.1)
  refine ⟨⟨fun n i j hi => absurd hi (hnone n i), fun i j hi _ hne => ?_, ?_, ?_⟩, fun n e => ?_⟩
  · exact absurd (h.files_eq i hi) hne
  · have hcount := @Slots.count_grow (fun _ => false) (taken s.dir) 0 s.dir.maxFiles nofun
      fun i _ hi => by
        rw [taken, h.files_eq i (by omega)]
        rfl
    rw [Nat.zero_add, Nat.count_zero] at hcount
    rw [hcount, h.numFiles_eq]
  · rw [h.numFiles_eq]
    exact h.maxFiles_pos
  · exact ⟨nofun, fun ⟨i, hi, _⟩ => absurd hi (hnone n i)⟩

/-- **A directory is a finite map.** In every state reached from an empty directory,
`tmpfs_lookup` returns what the map has under a name; the slot the next file or directory is
created in is free; and `num_files` is the number of slots that are not `NULL`, and below
`max_files`. -/
theorem tmpfsLookup_run (s₀ s : State) (es : List Event) (hempty : Empty s₀.dir)
    (h : es.foldlM step s₀ = some s) :
    (∀ name, tmpfsLookup s name = Entry.pointer (es.foldl specStep (fun _ => none) name)) ∧
      (freeIndex s.dir < s.dir.maxFiles ∧ s.dir.files (freeIndex s.dir) = 0) ∧
      s.dir.numFiles = ((Finset.range s.dir.maxFiles).filter fun i => s.dir.files i ≠ 0).card ∧
      s.dir.numFiles < s.dir.maxFiles := by
  have hR : Refines s (es.foldl specStep fun _ => none) :=
    run_simulation (f := specStep) (R := Refines) (fun _ _ _ _ hR hs => refines_step hR hs)
      (refines_empty hempty) h
  refine ⟨fun name => hR.tmpfsLookup_eq, hR.freeIndex_spec, ?_, hR.num_lt⟩
  have hnum := hR.num_eq
  rw [Slots.count_eq_card] at hnum
  simpa [taken] using hnum

/-- A file, a directory, and a second file in the slot of the first one. -/
def slotReused : List Event :=
  [.createFile ⟨[97], by decide⟩ 10 0x1000 0x2000, .createDirectory ⟨[98], by decide⟩ 0x3000,
    .deleteFile ⟨[97], by decide⟩, .createFile ⟨[99], by decide⟩ 20 0x4000 0x5000]

/-- The root directory of `init_tmpfs`, with two slots: the array is grown at the second
creation. -/
theorem tmpfsLookup_run_slotReused :
    ∃ s, slotReused.foldlM step
        ⟨⟨fun _ => 0, 2, 0⟩, fun _ => .file ⟨[], by decide⟩ 0 0 0⟩ = some s ∧
      tmpfsLookup s ⟨[97], by decide⟩ = 0 ∧ tmpfsLookup s ⟨[98], by decide⟩ = 0x3000 ∧
      tmpfsLookup s ⟨[99], by decide⟩ = 0x4000 ∧ s.dir.files 0 = 0x4000 ∧ s.dir.maxFiles = 34 := by
  have hrun : slotReused.foldlM step
      ⟨⟨fun _ => 0, 2, 0⟩, fun _ => .file ⟨[], by decide⟩ 0 0 0⟩ = some _ := rfl
  obtain ⟨hlookup, -⟩ := tmpfsLookup_run _ _ slotReused ⟨by decide, rfl, fun _ _ => rfl⟩ hrun
  exact ⟨_, hrun, hlookup _, hlookup _, hlookup _, by decide +kernel, by decide +kernel⟩

end Tmpfs

end WillowOS
