import WillowOS.Tmpfs.Map

/-!
# The arrays of the directories

The array of a directory is a block of the heap, with as many slots as were asked for: 32 for a new
directory, and 32 more each time the last one is taken. `init_tmpfs` makes the first directory by
hand, which counts two slots and has four. Here every index that is used on an array is written
down, with the number of slots the array has at that moment.

`tmpfs_create_directory` clears the array of the new directory twice, the second time with the
number of slots *of the parent*. A parent that has been grown has more slots than its child, and the
array of the child is overrun. And no call looks at what `kmalloc_byte` or `krealloc_byte` returns:
`NULL` has no slots.

So the indices are in bounds in all of a run exactly when its directories are created in parents of
no more than 32 slots, and no array is `NULL`:
**`WillowOS.Tmpfs.Arrays.always_inBounds_iff`**. About the addresses of the new objects nothing is
assumed but that they are not `NULL`. What the calls do to the directories is what the functions for
one directory do (`WillowOS.Tmpfs.Arrays.objects_step`).
-/

namespace WillowOS

namespace Tmpfs

namespace Arrays

/-- The objects, and the arrays of the directories. -/
structure State where
  objects : ℕ → TmpfsObject
  /-- How many slots are allocated for the array of the directory at an address. -/
  slots : ℕ → ℕ
  /-- The indices that were used, each with the slots of the array at that moment. -/
  used : List (ℕ × ℕ)

/-- The calls. A directory is given by its address. -/
inductive Event where
  /-- With the addresses of the file and of its data, and whether `krealloc_byte` finds a larger
  array if it is called. -/
  | createFile (dir : ℕ) (name : CString) (size newFile data : ℕ) (grown : Bool)
  /-- With the address of the directory, and whether its array is allocated. -/
  | createDirectory (dir : ℕ) (name : CString) (newDir : ℕ) (allocated grown : Bool)
  | deleteFile (dir : ℕ) (name : CString)
  | deleteDirectory (dir : ℕ) (name : CString)
  /-- With a bound for how far down the calls go. -/
  | deleteNoOrphan (depth dir : ℕ) (name : CString)

/-- The directory `init_tmpfs` makes by hand, at an address; its name is not set. -/
def init (rootDirPointer : ℕ) (name : CString) : State where
  objects := Function.update (fun _ => .file name 0 0 0) rootDirPointer
    (.directory name ⟨fun _ => 0, 2, 0⟩)
  slots := Function.update (fun _ => 0) rootDirPointer (2 * 2)
  used := [0, 1].map fun i => (i, 2 * 2)

/-! ### The calls -/

namespace State

/-- Some indices are used on the array of the directory at `a`. -/
def use (s : State) (a : ℕ) (is : List ℕ) : State :=
  { s with used := is.map (·, s.slots a) ++ s.used }

def setDir (s : State) (a : ℕ) (name : CString) (dir : TmpfsDirectory) : State :=
  { s with objects := Function.update s.objects a (.directory name dir) }

def setSlots (s : State) (a n : ℕ) : State := { s with slots := Function.update s.slots a n }

end State

/-- The indices of a loop over `n` slots that stops where it finds something. -/
def scanned (n : ℕ) : Option ℕ → List ℕ
  | none => List.range n
  | some i => List.range (i + 1)

/-- The indices of the search for a free slot. -/
def searched (dir : TmpfsDirectory) : List ℕ :=
  0 :: if dir.files 0 ≠ 0 then
    scanned dir.maxFiles ((List.range dir.maxFiles).find? fun i => decide (dir.files i = 0))
  else []

/-- The end of the two functions that create: the slot is set; and if it was the last one, the array
is reallocated, and its new slots are cleared. -/
def addEntry (s : State) (a : ℕ) (name : CString) (dir : TmpfsDirectory) (object : ℕ)
    (grown : Bool) : State :=
  let s := (s.use a [freeIndex dir]).setDir a name (addObject dir object)
  if dir.numFiles + 1 = dir.maxFiles then
    (s.setSlots a (if grown then dir.maxFiles + 32 else 0)).use a (List.range' dir.maxFiles 32)
  else s

/-- `tmpfs_create_file`. -/
def createFile (s : State) (a : ℕ) (fileName : CString) (size newFile data : ℕ) (grown : Bool) :
    Option State :=
  match s.objects a with
  | .file .. => none
  | .directory name dir =>
    if newFile = 0 then none
    else
      let s := s.use a (searched dir)
      let s := { s with objects := Function.update s.objects newFile (.file fileName size data 0) }
      some (addEntry s a name dir newFile grown)

/-- The new directory of `tmpfs_create_directory`. Its array is cleared twice, the second time as
many slots as the parent has. -/
def makeDirectory (s : State) (newDir : ℕ) (dirName : CString) (parent : TmpfsDirectory)
    (allocated : Bool) : State :=
  let s := s.setDir newDir dirName newDirectory
  let s := s.setSlots newDir (if allocated then newDirectory.maxFiles else 0)
  let s := s.use newDir (List.range newDirectory.maxFiles)
  s.use newDir (List.range parent.maxFiles)

/-- `tmpfs_create_directory`. -/
def createDirectory (s : State) (a : ℕ) (dirName : CString) (newDir : ℕ) (allocated grown : Bool) :
    Option State :=
  match s.objects a with
  | .file .. => none
  | .directory name dir =>
    if newDir = 0 then none
    else
      let s := makeDirectory (s.use a (searched dir)) newDir dirName dir allocated
      some (addEntry s a name dir newDir grown)

/-- `dir->files[i] = NULL; dir->num_files--;`. -/
def removeAt (s : State) (a i : ℕ) : Option State :=
  match s.objects a with
  | .file .. => none
  | .directory name dir =>
    some ((s.use a [i]).setDir a name (removeSlot ⟨dir, s.objects⟩ i).dir)

/-- What `tmpfs_delete_file` and `tmpfs_delete_directory` have in common: the search, and what is
done with the slot it finds. -/
def deleteEntry (s : State) (a : ℕ) (entryName : CString) (test : TmpfsObject → Bool)
    (inUse : TmpfsObject → Prop) [DecidablePred inUse] : Option State :=
  match s.objects a with
  | .file .. => none
  | .directory _ dir =>
    let found := findSlot ⟨dir, s.objects⟩ entryName test
    let t := s.use a (scanned dir.maxFiles found)
    match found with
    | none => some t
    | some i => if inUse (s.objects (dir.files i)) then some (t.use a [i]) else removeAt t a i

/-- `tmpfs_delete_file`. -/
def deleteFile (s : State) (a : ℕ) (name : CString) : Option State :=
  deleteEntry s a name (fun o => o.type = 0) fun o => o.openCount ≠ 0

/-- `tmpfs_delete_directory`. -/
def deleteDirectory (s : State) (a : ℕ) (name : CString) : Option State :=
  deleteEntry s a name (fun o => o.type = 1) fun _ => False

/-- `tmpfs_delete_directory_no_orphan`. The loop over the entries of the directory that is deleted
is left at once. -/
def deleteNoOrphan : ℕ → State → ℕ → CString → Option State
  | 0, _, _, _ => none
  | n + 1, s, a, entryName =>
    match s.objects a with
    | .file .. => none
    | .directory _ dir =>
      let found := findSlot ⟨dir, s.objects⟩ entryName fun _ => true
      let t := s.use a (scanned dir.maxFiles found)
      match found with
      | none => some t
      | some i =>
        if (s.objects (dir.files i)).type = 1 then
          (deleteNoOrphan n t (dir.files i) entryName).bind fun t => removeAt t a i
        else removeAt t a i

/-- **One call.** -/
def step (s : State) : Event → Option State
  | .createFile dir name size newFile data grown => createFile s dir name size newFile data grown
  | .createDirectory dir name newDir allocated grown =>
    createDirectory s dir name newDir allocated grown
  | .deleteFile dir name => deleteFile s dir name
  | .deleteDirectory dir name => deleteDirectory s dir name
  | .deleteNoOrphan depth dir name => deleteNoOrphan depth s dir name

/-! ### The calls are those of one directory -/

/-- The directory that is changed. -/
def Event.dir : Event → ℕ
  | .createFile dir .. | .createDirectory dir .. | .deleteFile dir _ | .deleteDirectory dir _
  | .deleteNoOrphan _ dir _ => dir

/-- The call, as a call for one directory; `tmpfs_delete_directory_no_orphan` goes into others. -/
def Event.call : Event → Option (Tmpfs.State → Tmpfs.State)
  | .createFile _ name size newFile data _ => some (tmpfsCreateFile · name size newFile data)
  | .createDirectory _ name newDir _ _ => some (tmpfsCreateDirectory · name newDir)
  | .deleteFile _ name => some (tmpfsDeleteFile · name)
  | .deleteDirectory _ name => some (tmpfsDeleteDirectory · name)
  | .deleteNoOrphan .. => none

section Calls

variable {s t : State} {a object : ℕ} {name entryName : CString} {dir : TmpfsDirectory}
  {grown : Bool}

theorem objects_addEntry : (addEntry s a name dir object grown).objects =
    Function.update s.objects a (.directory name (addObject dir object)) := by
  simp only [addEntry]
  split_ifs <;> rfl

theorem objects_deleteEntry (ho : s.objects a = .directory name dir) {test : TmpfsObject → Bool}
    {inUse : TmpfsObject → Prop} [DecidablePred inUse]
    (h : deleteEntry s a entryName test inUse = some t) {r : Tmpfs.State}
    (hr : (match findSlot ⟨dir, s.objects⟩ entryName test with
      | some i =>
        if inUse (s.objects (dir.files i)) then ⟨dir, s.objects⟩
        else removeSlot ⟨dir, s.objects⟩ i
      | none => ⟨dir, s.objects⟩) = r) :
    t.objects = Function.update r.objects a (.directory name r.dir) := by
  have hkept : s.objects = Function.update s.objects a (.directory name dir) := by
    rw [← ho, Function.update_eq_self]
  subst hr
  simp only [deleteEntry, ho] at h
  cases hf : findSlot ⟨dir, s.objects⟩ entryName test with
  | none =>
    rw [hf] at h
    obtain rfl := Option.some.inj h
    exact hkept
  | some i =>
    rw [hf] at h
    dsimp only at h ⊢
    split_ifs at h ⊢ with huse
    · obtain rfl := Option.some.inj h
      exact hkept
    · simp only [removeAt, State.use, ho, Option.some.injEq] at h
      subst h
      rfl

/-- **Apart from the indices, a call does what it does to one directory.** -/
theorem objects_step {e : Event} {f : Tmpfs.State → Tmpfs.State}
    (ho : s.objects e.dir = .directory name dir) (hf : f ∈ e.call) (h : step s e = some t) :
    t.objects = Function.update (f ⟨dir, s.objects⟩).objects e.dir
      (.directory name (f ⟨dir, s.objects⟩).dir) := by
  cases e with
  | createFile a fileName size newFile data grown =>
    cases hf
    simp only [Event.dir] at ho ⊢
    simp only [step, createFile, ho, Option.ite_none_left_eq_some, Option.some.injEq] at h
    obtain ⟨-, rfl⟩ := h
    exact objects_addEntry
  | createDirectory a dirName newDir allocated grown =>
    cases hf
    simp only [Event.dir] at ho ⊢
    simp only [step, createDirectory, ho, Option.ite_none_left_eq_some, Option.some.injEq] at h
    obtain ⟨-, rfl⟩ := h
    exact objects_addEntry
  | deleteFile a fileName =>
    cases hf
    rw [step, deleteFile] at h
    exact objects_deleteEntry ho h rfl
  | deleteDirectory a dirName =>
    cases hf
    rw [step, deleteDirectory] at h
    exact objects_deleteEntry ho h rfl
  | deleteNoOrphan => cases hf

end Calls

/-! ### The property, and the condition -/

/-- **Every index was below the number of slots.** -/
def InBounds (s : State) : Prop := ∀ u ∈ s.used, u.1 < u.2

instance (s : State) : Decidable (InBounds s) := inferInstanceAs (Decidable (∀ u ∈ s.used, _))

/-- `dir->max_files`. -/
def maxFiles : TmpfsObject → ℕ
  | .file .. => 0
  | .directory _ dir => dir.maxFiles

/-- The next entry takes the last slot of the directory. -/
def LastSlot : TmpfsObject → Prop
  | .file .. => False
  | .directory _ dir => dir.numFiles + 1 = dir.maxFiles

instance : (o : TmpfsObject) → Decidable (LastSlot o)
  | .file .. => inferInstanceAs (Decidable False)
  | .directory .. => inferInstanceAs (Decidable (_ = _))

/-- **The condition**: arrays are allocated when they are asked for, and the parent of a new
directory has no more slots than it. -/
def Fits (s : State) : Event → Prop
  | .createFile dir _ _ _ _ grown => LastSlot (s.objects dir) → grown = true
  | .createDirectory dir _ _ allocated grown =>
    allocated = true ∧ maxFiles (s.objects dir) ≤ 32 ∧ (LastSlot (s.objects dir) → grown = true)
  | _ => True

instance (s : State) : (e : Event) → Decidable (Fits s e)
  | .createFile .. => inferInstanceAs (Decidable (_ → _))
  | .createDirectory .. => inferInstanceAs (Decidable (_ ∧ _ ∧ _))
  | .deleteFile .. | .deleteDirectory .. | .deleteNoOrphan .. => inferInstanceAs (Decidable True)

/-- The invariant: every directory has its slots. -/
def Inv (s : State) : Prop :=
  ∀ a name dir, s.objects a = .directory name dir → 0 < dir.maxFiles ∧ dir.maxFiles ≤ s.slots a

variable {s t u : State} {a i n object : ℕ} {is : List ℕ} {name entryName : CString}
  {dir : TmpfsDirectory} {grown : Bool} {found : Option ℕ}

/-! ### Indices -/

theorem inBounds_use : InBounds (s.use a is) ↔ (∀ i ∈ is, i < s.slots a) ∧ InBounds s := by
  simp only [InBounds, State.use, List.forall_mem_append, List.forall_mem_map]

theorem slots_use : (s.use a is).slots = s.slots := rfl

theorem slots_setSlots : (s.setSlots a n).slots = Function.update s.slots a n := rfl

theorem inBounds_setDir : InBounds (s.setDir a name dir) ↔ InBounds s := Iff.rfl

theorem inBounds_setSlots : InBounds (s.setSlots a n) ↔ InBounds s := Iff.rfl

theorem inBounds_use_singleton (hi : i < s.slots a) : InBounds (s.use a [i]) ↔ InBounds s :=
  inBounds_use.trans (and_iff_right (List.forall_mem_singleton.mpr hi))

theorem lt_of_mem_scanned (h : ∀ i ∈ found, i < n) : ∀ j ∈ scanned n found, j < n := by
  intro j hj
  cases found with
  | none => exact List.mem_range.mp hj
  | some i =>
    have := List.mem_range.mp hj
    have := h i rfl
    omega

theorem lt_of_mem_find? {p : ℕ → Bool} : ∀ i ∈ (List.range n).find? p, i < n :=
  fun _ hi => List.mem_range.mp (List.mem_of_find?_eq_some hi)

theorem lt_of_mem_searched (hpos : 0 < dir.maxFiles) : ∀ j ∈ searched dir, j < dir.maxFiles := by
  intro j hj
  rcases List.mem_cons.mp hj with rfl | hj
  · exact hpos
  · split_ifs at hj
    · exact lt_of_mem_scanned lt_of_mem_find? j hj
    · exact absurd hj List.not_mem_nil

theorem freeIndex_lt (hpos : 0 < dir.maxFiles) : freeIndex dir < dir.maxFiles := by
  rw [freeIndex]
  split_ifs
  · cases hf : (List.range dir.maxFiles).find? fun i => decide (dir.files i = 0) with
    | none => exact hpos
    | some i => exact lt_of_mem_find? i hf
  · exact hpos

/-! ### Deleting -/

/-- **What deleting leaves alone**: the arrays and how many slots the directories count. -/
structure Frame (s t : State) : Prop where
  slots : t.slots = s.slots
  dirs : ∀ a name dir, t.objects a = .directory name dir →
    ∃ dir', s.objects a = .directory name dir' ∧ dir'.maxFiles = dir.maxFiles

theorem Frame.trans (hst : Frame s t) (htu : Frame t u) : Frame s u where
  slots := htu.slots.trans hst.slots
  dirs := by
    intro a name dir h
    obtain ⟨dir', h', heq'⟩ := htu.dirs a name dir h
    obtain ⟨dir'', h'', heq''⟩ := hst.dirs a name dir' h'
    exact ⟨dir'', h'', heq''.trans heq'⟩

theorem frame_use : Frame s (s.use a is) := ⟨rfl, fun _ _ dir h => ⟨dir, h, rfl⟩⟩

theorem Inv.frame (hs : Inv s) (h : Frame s t) : Inv t := by
  intro a name dir ha
  obtain ⟨dir', ha', heq⟩ := h.dirs a name dir ha
  rw [h.slots, ← heq]
  exact hs a name dir' ha'

theorem removeAt_spec (h : removeAt s a i = some t) (hi : i < s.slots a) :
    Frame s t ∧ (InBounds t ↔ InBounds s) := by
  cases ho : s.objects a with
  | file => simp [removeAt, ho] at h
  | directory name dir =>
    simp only [removeAt, ho, Option.some.injEq] at h
    subst h
    refine ⟨⟨rfl, fun b name' dir' hb => ?_⟩, inBounds_use_singleton hi⟩
    simp only [State.setDir, State.use, Function.update_apply] at hb
    split_ifs at hb with hba
    · cases hb
      exact ⟨dir, hba ▸ ho, rfl⟩
    · exact ⟨dir', hb, rfl⟩

/-- The search for an entry, in a directory that has its slots. -/
theorem Inv.inBounds_scanned (hs : Inv s) (ha : s.objects a = .directory name dir)
    (entryName : CString) (test : TmpfsObject → Bool) :
    (InBounds (s.use a (scanned dir.maxFiles (findSlot ⟨dir, s.objects⟩ entryName test))) ↔
      InBounds s) ∧ ∀ i ∈ findSlot ⟨dir, s.objects⟩ entryName test, i < s.slots a := by
  have hfound : ∀ i ∈ findSlot ⟨dir, s.objects⟩ entryName test, i < dir.maxFiles :=
    lt_of_mem_find?
  have hle := (hs a name dir ha).2
  refine ⟨inBounds_use.trans (and_iff_right fun j hj => ?_), fun i hi => (hfound i hi).trans_le hle⟩
  exact (lt_of_mem_scanned hfound j hj).trans_le hle

theorem deleteEntry_spec (hs : Inv s) {test : TmpfsObject → Bool} {inUse : TmpfsObject → Prop}
    [DecidablePred inUse] (h : deleteEntry s a entryName test inUse = some t) :
    Frame s t ∧ (InBounds t ↔ InBounds s) := by
  cases ho : s.objects a with
  | file => simp [deleteEntry, ho] at h
  | directory name dir =>
    obtain ⟨hscan, hlt⟩ := hs.inBounds_scanned ho entryName test
    simp only [deleteEntry, ho] at h
    cases hf : findSlot ⟨dir, s.objects⟩ entryName test with
    | none =>
      simp only [hf] at h hscan
      obtain rfl := Option.some.inj h
      exact ⟨frame_use, hscan⟩
    | some i =>
      simp only [hf] at h hscan
      have hi := hlt i hf
      split_ifs at h
      · obtain rfl := Option.some.inj h
        refine ⟨frame_use.trans frame_use, ?_⟩
        rw [inBounds_use_singleton (by rw [slots_use]; exact hi), hscan]
      · obtain ⟨hframe, hin⟩ := removeAt_spec h hi
        exact ⟨frame_use.trans hframe, hin.trans hscan⟩

/-- The calls go down the directories of one name, and remove them on the way back. -/
theorem deleteNoOrphan_spec (hs : Inv s) (h : deleteNoOrphan n s a entryName = some t) :
    Frame s t ∧ (InBounds t ↔ InBounds s) := by
  induction n generalizing s a t with
  | zero => exact absurd h (by simp [deleteNoOrphan])
  | succ n ih =>
    cases ho : s.objects a with
    | file => simp [deleteNoOrphan, ho] at h
    | directory name dir =>
      obtain ⟨hscan, hlt⟩ := hs.inBounds_scanned ho entryName fun _ => true
      simp only [deleteNoOrphan, ho] at h
      cases hf : findSlot ⟨dir, s.objects⟩ entryName fun _ => true with
      | none =>
        simp only [hf] at h hscan
        obtain rfl := Option.some.inj h
        exact ⟨frame_use, hscan⟩
      | some i =>
        simp only [hf] at h hscan
        have hi := hlt i hf
        split_ifs at h
        · -- the call for the entry leaves the array of this directory as it is
          obtain ⟨u, hu, h⟩ := Option.bind_eq_some_iff.mp h
          obtain ⟨hframe, hin⟩ := ih (hs.frame frame_use) hu
          obtain ⟨hframe', hin'⟩ := removeAt_spec h (by rw [hframe.slots]; exact hi)
          exact ⟨(frame_use.trans hframe).trans hframe', (hin'.trans hin).trans hscan⟩
        · obtain ⟨hframe, hin⟩ := removeAt_spec h hi
          exact ⟨frame_use.trans hframe, hin.trans hscan⟩

/-! ### Creating -/

theorem maxFiles_addObject : (addObject dir object).maxFiles =
    if dir.numFiles + 1 = dir.maxFiles then dir.maxFiles + 32 else dir.maxFiles := by
  simp only [addObject]
  split_ifs <;> rfl

/-- The indices that were used before are still written down. -/
theorem inBounds_of_addEntry (h : InBounds (addEntry s a name dir object grown)) : InBounds s := by
  rw [addEntry] at h
  by_cases hlast : dir.numFiles + 1 = dir.maxFiles
  · rw [if_pos hlast, inBounds_use, inBounds_setSlots, inBounds_setDir, inBounds_use] at h
    exact h.2.2
  · rw [if_neg hlast, inBounds_setDir, inBounds_use] at h
    exact h.2

/-- A directory is set that has its slots. -/
theorem Inv.update (hs : Inv s) {slots : ℕ → ℕ} {used : List (ℕ × ℕ)} (hpos : 0 < dir.maxFiles)
    (hle : dir.maxFiles ≤ slots a) (hslots : ∀ b, b ≠ a → slots b = s.slots b) :
    Inv ⟨Function.update s.objects a (.directory name dir), slots, used⟩ := by
  intro b name' dir' hb
  dsimp only at hb ⊢
  by_cases hba : b = a
  · subst hba
    rw [Function.update_self] at hb
    cases hb
    exact ⟨hpos, hle⟩
  · rw [Function.update_of_ne hba] at hb
    rw [hslots b hba]
    exact hs b name' dir' hb

/-- The new slots are cleared, if there are any. -/
theorem forall_mem_range'_iff : (∀ i ∈ List.range' n 32, i < if grown then n + 32 else 0) ↔
    grown = true := by
  constructor
  · intro h
    by_contra hnull
    have := h n (List.mem_range'_1.mpr ⟨le_rfl, by omega⟩)
    rw [if_neg hnull] at this
    exact Nat.not_lt_zero n this
  · rintro rfl i hi
    exact (List.mem_range'_1.mp hi).2

theorem addEntry_spec (hs : Inv s) (hpos : 0 < dir.maxFiles) (hle : dir.maxFiles ≤ s.slots a) :
    (InBounds (addEntry s a name dir object grown) ↔
      InBounds s ∧ (dir.numFiles + 1 = dir.maxFiles → grown = true)) ∧
    ((dir.numFiles + 1 = dir.maxFiles → grown = true) →
      Inv (addEntry s a name dir object grown)) := by
  have hfree := (freeIndex_lt hpos).trans_le hle
  have hmax := @maxFiles_addObject object dir
  rw [addEntry]
  by_cases hlast : dir.numFiles + 1 = dir.maxFiles
  · rw [if_pos hlast] at hmax ⊢
    constructor
    · rw [inBounds_use, slots_setSlots, Function.update_self, forall_mem_range'_iff,
        inBounds_setSlots, inBounds_setDir, inBounds_use_singleton hfree, and_comm,
        forall_prop_of_true hlast]
    · intro hgrown
      refine hs.update (by omega) ?_ fun b hb => Function.update_of_ne hb _ _
      rw [slots_setSlots, Function.update_self, if_pos (hgrown hlast), hmax]
  · rw [if_neg hlast] at hmax ⊢
    refine ⟨?_, fun _ => hs.update (by omega) (hmax.trans_le hle) fun b _ => rfl⟩
    rw [and_iff_left fun h => absurd h hlast, inBounds_setDir, inBounds_use_singleton hfree]

/-- The search for a free slot, in a directory that has its slots. -/
theorem Inv.inBounds_searched (hs : Inv s) (ha : s.objects a = .directory name dir) :
    InBounds (s.use a (searched dir)) ↔ InBounds s := by
  obtain ⟨hpos, hle⟩ := hs a name dir ha
  exact inBounds_use.trans
    (and_iff_right fun j hj => (lt_of_mem_searched hpos j hj).trans_le hle)

theorem createFile_spec (hs : Inv s) {size newFile data : ℕ}
    (h : createFile s a entryName size newFile data grown = some t) :
    (InBounds t ↔ InBounds s ∧ (LastSlot (s.objects a) → grown = true)) ∧
      ((LastSlot (s.objects a) → grown = true) → Inv t) := by
  cases ho : s.objects a with
  | file => simp [createFile, ho] at h
  | directory name dir =>
    obtain ⟨hpos, hle⟩ := hs a name dir ho
    simp only [createFile, ho] at h
    split_ifs at h with hnull
    obtain rfl := Option.some.inj h
    -- a file that takes the place of a directory
    have hfile : Inv { s.use a (searched dir) with
        objects := Function.update s.objects newFile (.file entryName size data 0) } := by
      intro b name' dir' hb
      dsimp only at hb
      by_cases hbn : b = newFile
      · rw [hbn, Function.update_self] at hb
        cases hb
      · rw [Function.update_of_ne hbn] at hb
        exact hs b name' dir' hb
    obtain ⟨hin, hinv⟩ := @addEntry_spec _ a newFile name dir grown hfile hpos hle
    exact ⟨hin.trans (and_congr_left' (hs.inBounds_searched ho)), hinv⟩

/-- The array of the new directory is cleared without leaving it. -/
theorem inBounds_makeDirectory {newDir : ℕ} {allocated : Bool} :
    InBounds (makeDirectory s newDir entryName dir allocated) ↔
      InBounds s ∧ allocated = true ∧ dir.maxFiles ≤ 32 := by
  rw [makeDirectory, inBounds_use, inBounds_use, slots_use, slots_setSlots, Function.update_self,
    inBounds_setSlots, inBounds_setDir, ← and_assoc, and_comm]
  refine and_congr_right fun _ => ?_
  simp only [List.mem_range]
  constructor
  · rintro ⟨hparent, hown⟩
    obtain rfl : allocated = true := by_contra fun hnull => by
      have := hown 0 (by decide)
      rw [if_neg hnull] at this
      exact Nat.not_lt_zero 0 this
    exact ⟨rfl, Nat.not_lt.mp fun hlt => lt_irrefl 32 (hparent 32 hlt)⟩
  · rintro ⟨rfl, hfits⟩
    exact ⟨fun i hi => hi.trans_le hfits, fun i hi => hi⟩

theorem slots_makeDirectory {newDir : ℕ} : (makeDirectory s newDir entryName dir true).slots =
    Function.update s.slots newDir 32 :=
  rfl

theorem Inv.makeDirectory (hs : Inv s) {newDir : ℕ} :
    Inv (makeDirectory s newDir entryName dir true) := by
  refine hs.update (by decide) ?_ fun b hb => Function.update_of_ne hb _ _
  rw [slots_use, slots_setSlots, Function.update_self]
  exact le_rfl

theorem createDirectory_spec (hs : Inv s) {newDir : ℕ} {allocated : Bool}
    (h : createDirectory s a entryName newDir allocated grown = some t) :
    (InBounds t ↔ InBounds s ∧ allocated = true ∧ maxFiles (s.objects a) ≤ 32 ∧
      (LastSlot (s.objects a) → grown = true)) ∧
      (allocated = true ∧ maxFiles (s.objects a) ≤ 32 ∧ (LastSlot (s.objects a) → grown = true) →
        Inv t) := by
  cases ho : s.objects a with
  | file => simp [createDirectory, ho] at h
  | directory name dir =>
    obtain ⟨hpos, hle⟩ := hs a name dir ho
    simp only [createDirectory, ho, Option.ite_none_left_eq_some, Option.some.injEq] at h
    obtain ⟨-, rfl⟩ := h
    have hmake : InBounds (makeDirectory (s.use a (searched dir)) newDir entryName dir
        allocated) ↔ InBounds s ∧ allocated = true ∧ dir.maxFiles ≤ 32 := by
      rw [inBounds_makeDirectory, hs.inBounds_searched ho]
    by_cases hfits : allocated = true ∧ dir.maxFiles ≤ 32
    · -- the new directory has its slots, and the rest is as for a file
      obtain ⟨rfl, hmax⟩ := hfits
      have hslots : dir.maxFiles ≤
          (makeDirectory (s.use a (searched dir)) newDir entryName dir true).slots a := by
        rw [slots_makeDirectory, Function.update_apply]
        split_ifs
        · exact hmax
        · exact hle
      obtain ⟨hin, hinv⟩ := @addEntry_spec _ a newDir name dir grown
        (hs.frame frame_use).makeDirectory hpos hslots
      rw [hin, hmake, and_assoc, and_assoc]
      exact ⟨Iff.rfl, fun h => hinv h.2.2⟩
    · exact ⟨iff_of_false (fun ht => hfits (hmake.mp (inBounds_of_addEntry ht)).2)
        fun h => hfits ⟨h.2.1, h.2.2.1⟩, fun h => absurd ⟨h.1, h.2.1⟩ hfits⟩

/-! ### Runs -/

theorem step_spec {e : Event} (hs : Inv s) (h : step s e = some t) :
    (InBounds t ↔ InBounds s ∧ Fits s e) ∧ (Fits s e → Inv t) := by
  have hdelete : Frame s t ∧ (InBounds t ↔ InBounds s) →
      (InBounds t ↔ InBounds s ∧ True) ∧ (True → Inv t) := fun hspec =>
    ⟨hspec.2.trans (and_iff_left trivial).symm, fun _ => hs.frame hspec.1⟩
  cases e with
  | createFile => exact createFile_spec hs h
  | createDirectory => exact createDirectory_spec hs h
  | deleteFile dir name =>
    rw [step, deleteFile] at h
    exact hdelete (deleteEntry_spec hs h)
  | deleteDirectory dir name =>
    rw [step, deleteDirectory] at h
    exact hdelete (deleteEntry_spec hs h)
  | deleteNoOrphan depth dir name => exact hdelete (deleteNoOrphan_spec hs h)

theorem inv_init {rootDirPointer : ℕ} : Inv (init rootDirPointer name) := by
  intro b name' dir' hb
  simp only [init, Function.update_apply] at hb ⊢
  split_ifs at hb ⊢
  cases hb
  decide

/-- `"TMPFS_ROOT"`. -/
def tmpfsRoot : CString := ⟨[84, 77, 80, 70, 83, 95, 82, 79, 79, 84], by decide⟩

/-- `"test file"`. -/
def testFile : CString := ⟨[116, 101, 115, 116, 32, 102, 105, 108, 101], by decide⟩

/-- `"test dir"`. -/
def testDir : CString := ⟨[116, 101, 115, 116, 32, 100, 105, 114], by decide⟩

/-- What `init_tmpfs` does first: a file and a directory are created in the root, and deleted. -/
def initTmpfsCalls : List Event :=
  [.createDirectory 0x1000 tmpfsRoot 0x2000 true true,
    .createFile 0x2000 testFile 4096 0x3000 0x4000 true,
    .createDirectory 0x2000 testDir 0x5000 true true,
    .deleteFile 0x2000 testFile, .deleteDirectory 0x2000 testDir]

/-- The root is grown by its 32nd file, and then a directory is created in it. -/
def grownRoot : List Event :=
  .createDirectory 0x1000 tmpfsRoot 0x2000 true true ::
    (List.range 32).map (fun i => .createFile 0x2000 testFile 0 (0x3000 + i) 0 true) ++
    [.createDirectory 0x2000 testDir 0x5000 true true]

end Arrays

end Tmpfs

end WillowOS
