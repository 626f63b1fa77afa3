import WillowOS.Vfs.Path

/-!
# Deleting files that are open

`tmpfs_delete_file` does not delete a file whose `open_count` is not `0`. But nothing counts:
`vfs_fdopen` makes a vnode that points to the file and leaves `open_count` alone, and
`tmpfs_delete_directory_no_orphan`, which also deletes files, does not look at it. That function
goes down through the directories of one name, and deletes them from the last one up, with the file
of that name it may come to; what else they hold is not freed.

The threads open and close descriptors, read and write through them, and delete, one call after the
other; which number a descriptor gets is not looked at here. An open descriptor never refers to a
freed file exactly when no call deletes a file that is open:
**`WillowOS.Vfs.Delete.always_safe_iff`**.
-/

namespace WillowOS

namespace Vfs

namespace Delete

open Tmpfs

/-- The objects and the open descriptors. -/
structure State where
  objects : ℕ → TmpfsObject
  root : ℕ
  /-- `vnode->vnode_data` of the descriptors of each thread. -/
  table : ℕ → ℤ → Option ℕ
  /-- The objects that were passed to `kfree`. -/
  freed : List ℕ

inductive Event where
  | vfsFdopen (thread : ℕ) (fd : ℤ) (path : CString)
  | vfsFdclose (thread : ℕ) (fd : ℤ)
  | fdPread (thread : ℕ) (fd : ℤ)
  | fdPwrite (thread : ℕ) (fd : ℤ)
  | tmpfsDeleteFile (dir : ℕ) (name : CString)
  /-- With a bound for how far down the calls go. -/
  | tmpfsDeleteDirectoryNoOrphan (depth dir : ℕ) (name : CString)

def init (objects : ℕ → TmpfsObject) (root : ℕ) : State := ⟨objects, root, fun _ _ => none, []⟩

/-! ### The calls -/

/-- Descriptor `fd` of a thread is set. -/
def State.setFd (s : State) (thread : ℕ) (fd : ℤ) (object : Option ℕ) : State :=
  let fds := Function.update (s.table thread) fd object
  { s with table := Function.update s.table thread fds }

/-- `kfree(dir->files[i])` and `dir->files[i] = NULL`, with what is freed and counted along with
it; `NULL` is a page fault. -/
def removeAt (s : State) (a i : ℕ) : Option State :=
  match s.objects a with
  | .file .. => none
  | .directory name dir =>
    if dir.files i = 0 then none
    else
      some { s with
        objects := Function.update s.objects a (.directory name (removeSlot ⟨dir, s.objects⟩ i).dir)
        freed := dir.files i :: s.freed }

/-- `tmpfs_delete_file`, in the directory at `a`. -/
def deleteFile (s : State) (a : ℕ) (name : CString) : Option State :=
  match s.objects a with
  | .file .. => none
  | .directory _ dir =>
    match findSlot ⟨dir, s.objects⟩ name fun o => o.type = 0 with
    | none => some s
    | some i => if (s.objects (dir.files i)).openCount ≠ 0 then some s else removeAt s a i

/-- `tmpfs_delete_directory_no_orphan`, in the directory at `a`. The loop over the entries of the
directory that is deleted is left at once. -/
def deleteNoOrphan : ℕ → State → ℕ → CString → Option State
  | 0, _, _, _ => none
  | n + 1, s, a, name =>
    match s.objects a with
    | .file .. => none
    | .directory _ dir =>
      match findSlot ⟨dir, s.objects⟩ name fun _ => true with
      | none => some s
      | some i =>
        if (s.objects (dir.files i)).type = 1 then
          (deleteNoOrphan n s (dir.files i) name).bind fun s => removeAt s a i
        else removeAt s a i

/-- **One call.** A directory is given by its address, and has not been freed; a path leads to an
object; and a descriptor that is read from or written to is open. -/
def step (s : State) : Event → Option State
  | .vfsFdopen thread fd path =>
    let root := tmpfsLinkVnode s.objects s.root
    match vfsResolvePath s.objects root root (fdopenPath path) with
    | .ok (some vnode) =>
      if s.table thread fd = none then some (s.setFd thread fd (some vnode.vnodeData)) else none
    | _ => none
  | .vfsFdclose thread fd => some (s.setFd thread fd none)
  | .fdPread thread fd => if (s.table thread fd).isSome then some s else none
  | .fdPwrite thread fd => if (s.table thread fd).isSome then some s else none
  | .tmpfsDeleteFile dir name => if dir ∈ s.freed then none else deleteFile s dir name
  | .tmpfsDeleteDirectoryNoOrphan depth dir name =>
    if dir ∈ s.freed then none else deleteNoOrphan depth s dir name

/-! ### The property, and the condition -/

/-- **No open descriptor refers to a freed file.** -/
def Safe (s : State) : Prop :=
  ∀ thread fd a, s.table thread fd = some a → (s.objects a).type = 0 → a ∉ s.freed

/-- The file that `tmpfs_delete_directory_no_orphan` comes to. -/
def fileBelow (objects : ℕ → TmpfsObject) : ℕ → ℕ → CString → Option ℕ
  | 0, _, _ => none
  | n + 1, a, name =>
    match objects a with
    | .file .. => none
    | .directory _ dir =>
      (findSlot ⟨dir, objects⟩ name fun _ => true).bind fun i =>
        if (objects (dir.files i)).type = 1 then fileBelow objects n (dir.files i) name
        else some (dir.files i)

/-- The file that a call deletes. -/
def victim (s : State) : Event → Option ℕ
  | .tmpfsDeleteFile a name =>
    match s.objects a with
    | .file .. => none
    | .directory _ dir =>
      (findSlot ⟨dir, s.objects⟩ name fun o => o.type = 0).bind fun i =>
        if (s.objects (dir.files i)).openCount ≠ 0 then none else some (dir.files i)
  | .tmpfsDeleteDirectoryNoOrphan depth a name => fileBelow s.objects depth a name
  | _ => none

/-- **The condition**: no descriptor is open on the file that is deleted. -/
def SparesOpen (s : State) (e : Event) : Prop :=
  ∀ b ∈ victim s e, ∀ thread fd, s.table thread fd ≠ some b

/-! ### What the calls do -/

/-- The invariant: what is in a slot is in no other, and has not been freed. -/
structure Inv (s : State) : Prop where
  root_dir : (s.objects s.root).type = 1
  unfreed : ∀ {a i b}, Slot s.objects a i b → b ∉ s.freed
  unique : ∀ {a a' i j b}, Slot s.objects a i b → Slot s.objects a' j b → a = a' ∧ i = j

/-- What a deletion leaves as it is. -/
structure Keeps (s t : State) : Prop where
  root : t.root = s.root
  table : t.table = s.table
  type : ∀ x, (t.objects x).type = (s.objects x).type
  dir : ∀ {x name dir}, s.objects x = .directory name dir →
    ∃ dir', t.objects x = .directory name dir' ∧ dir'.maxFiles = dir.maxFiles
  slot : ∀ {x j c}, Slot t.objects x j c → Slot s.objects x j c

theorem Keeps.refl (s : State) : Keeps s s :=
  ⟨rfl, rfl, fun _ => rfl, fun h => ⟨_, h, rfl⟩, id⟩

theorem Keeps.trans {s t u : State} (h : Keeps s t) (h' : Keeps t u) : Keeps s u where
  root := h'.root.trans h.root
  table := h'.table.trans h.table
  type x := (h'.type x).trans (h.type x)
  dir hx := by
    obtain ⟨dir', hx', hmax'⟩ := h.dir hx
    obtain ⟨dir'', hx'', hmax''⟩ := h'.dir hx'
    exact ⟨dir'', hx'', hmax''.trans hmax'⟩
  slot hs := h.slot (h'.slot hs)

variable {s t : State} {a b i n : ℕ} {name : CString}

/-- The slots of a tree in which the one slot of a directory is cleared. -/
theorem slot_removeSlot {objects : ℕ → TmpfsObject} {dirName : CString} {dir : TmpfsDirectory}
    {x j c : ℕ} (hdir : objects a = .directory dirName dir) :
    Slot (Function.update objects a (.directory dirName (removeSlot ⟨dir, objects⟩ i).dir)) x j c ↔
      Slot objects x j c ∧ ¬(x = a ∧ j = i) := by
  by_cases hx : x = a
  · subst hx
    rw [Slot, Slot, Function.update_self]
    constructor
    · rintro ⟨n', d', heq, hj, hc, hc0⟩
      cases heq
      have hji : j ≠ i := by
        rintro rfl
        exact hc0 (hc.symm.trans (Function.update_self ..))
      exact ⟨⟨_, dir, hdir, hj, (Function.update_of_ne hji ..).symm.trans hc, hc0⟩,
        fun h => hji h.2⟩
    · rintro ⟨⟨n', d', heq, hj, hc, hc0⟩, hnot⟩
      rw [hdir] at heq
      cases heq
      have hji : j ≠ i := fun h => hnot ⟨rfl, h⟩
      exact ⟨_, _, rfl, hj, (Function.update_of_ne hji ..).trans hc, hc0⟩
  · rw [Slot, Slot, Function.update_of_ne hx]
    exact (and_iff_left fun h => hx h.1).symm

/-- An object is removed from its slot, and freed. -/
theorem removeAt_spec (hs : Inv s) (hslot : Slot s.objects a i b) :
    ∃ t, removeAt s a i = some t ∧ Inv t ∧ Keeps s t ∧ t.freed = b :: s.freed ∧
      ∀ {x j c}, Slot s.objects x j c → c ≠ b → Slot t.objects x j c := by
  have ⟨dirName, dir, hdir, hlt, hfile, hne⟩ := hslot
  subst hfile
  refine ⟨_, by rw [removeAt, hdir]; exact if_neg hne, ?_⟩
  have hslots := fun {x j c : ℕ} => slot_removeSlot (i := i) (x := x) (j := j) (c := c) hdir
  have hobject : ∀ x, x ≠ a → Function.update s.objects a
      (.directory dirName (removeSlot ⟨dir, s.objects⟩ i).dir) x = s.objects x :=
    fun x hx => Function.update_of_ne hx ..
  have hself : Function.update s.objects a
      (.directory dirName (removeSlot ⟨dir, s.objects⟩ i).dir) a =
        .directory dirName (removeSlot ⟨dir, s.objects⟩ i).dir := Function.update_self ..
  generalize Function.update s.objects a
    (.directory dirName (removeSlot ⟨dir, s.objects⟩ i).dir) = objects at *
  have htype : ∀ x, (objects x).type = (s.objects x).type := fun x => by
    by_cases hx : x = a
    · rw [hx, hself, hdir]
      rfl
    · rw [hobject x hx]
  refine ⟨⟨(htype _).trans hs.root_dir, fun h => ?_, fun h h' => ?_⟩,
    ⟨rfl, rfl, htype, fun {x n d} hx => ?_, fun h => (hslots.mp h).1⟩, rfl, fun h hc => ?_⟩
  · obtain ⟨h, hnot⟩ := hslots.mp h
    rw [List.mem_cons, not_or]
    refine ⟨fun heq => hnot ?_, hs.unfreed h⟩
    rw [heq] at h
    exact hs.unique h hslot
  · exact hs.unique (hslots.mp h).1 (hslots.mp h').1
  · by_cases hxa : x = a
    · subst hxa
      rw [hdir] at hx
      cases hx
      exact ⟨_, hself, rfl⟩
    · exact ⟨d, (hobject x hxa).trans hx, rfl⟩
  · refine hslots.mpr ⟨h, ?_⟩
    rintro ⟨rfl, rfl⟩
    exact hc (h.unique hslot)

/-- What a search finds is in a slot. -/
theorem slot_of_findSlot {dirName : CString} {dir : TmpfsDirectory} {test : TmpfsObject → Bool}
    (hdir : s.objects a = .directory dirName dir)
    (h : findSlot ⟨dir, s.objects⟩ name test = some i) :
    Slot s.objects a i (dir.files i) ∧ test (s.objects (dir.files i)) = true := by
  obtain ⟨⟨hlt, hne, -⟩, htest⟩ := named_of_findSlot h
  exact ⟨⟨dirName, dir, hdir, hlt, rfl, hne⟩, htest⟩

theorem type_eq_zero_or_one (o : TmpfsObject) : o.type = 0 ∨ o.type = 1 := by
  cases o with
  | file => exact Or.inl rfl
  | directory => exact Or.inr rfl

/-- A deletion: the invariant is kept, and one file is freed or none. -/
structure Deletes (s t : State) (file : Option ℕ) : Prop where
  inv : Inv t
  keeps : Keeps s t
  isFile : ∀ b ∈ file, (s.objects b).type = 0
  freed : ∀ b, (s.objects b).type = 0 → (b ∈ t.freed ↔ b ∈ s.freed ∨ file = some b)

theorem Deletes.refl (hs : Inv s) : Deletes s s none :=
  ⟨hs, Keeps.refl s, nofun, fun _ _ => by simp⟩

/-- A file is removed. -/
theorem deletes_removeAt (hs : Inv s) (hslot : Slot s.objects a i b)
    (hfile : (s.objects b).type = 0) (h : removeAt s a i = some t) : Deletes s t (some b) := by
  obtain ⟨t', heq, hinv, hkeeps, hfreed, -⟩ := removeAt_spec hs hslot
  obtain rfl := Option.some.inj (heq.symm.trans h)
  refine ⟨hinv, hkeeps, fun c hc => ?_, fun c _ => ?_⟩
  · obtain rfl := Option.some.inj hc
    exact hfile
  · rw [hfreed, List.mem_cons, or_comm, Option.some.injEq, eq_comm]

theorem deletes_deleteFile (hs : Inv s) (h : deleteFile s a name = some t) :
    Deletes s t (victim s (.tmpfsDeleteFile a name)) := by
  rw [deleteFile] at h
  rw [victim]
  cases hdir : s.objects a with
  | file => simp [hdir] at h
  | directory dirName dir =>
    simp only [hdir] at h ⊢
    cases hfind : findSlot ⟨dir, s.objects⟩ name fun o => o.type = 0 with
    | none =>
      simp only [hfind, Option.some.injEq] at h
      subst h
      exact Deletes.refl hs
    | some i =>
      simp only [hfind, Option.bind_some] at h ⊢
      split_ifs at h ⊢ with hcount
      · obtain rfl := Option.some.inj h
        exact Deletes.refl hs
      · obtain ⟨hslot, hfile⟩ := slot_of_findSlot hdir hfind
        exact deletes_removeAt hs hslot (by simpa using hfile) h

/-- The directories of one name, from the last one up. -/
theorem deletes_deleteNoOrphan (hs : Inv s) (h : deleteNoOrphan n s a name = some t) :
    Deletes s t (fileBelow s.objects n a name) := by
  induction n generalizing a t with
  | zero => cases h
  | succ n ih =>
    rw [deleteNoOrphan] at h
    rw [fileBelow]
    cases hdir : s.objects a with
    | file => simp [hdir] at h
    | directory dirName dir =>
      simp only [hdir] at h ⊢
      cases hfind : findSlot ⟨dir, s.objects⟩ name fun _ => true with
      | none =>
        simp only [hfind, Option.some.injEq] at h
        subst h
        exact Deletes.refl hs
      | some i =>
        have hslot := (slot_of_findSlot hdir hfind).1
        simp only [hfind, Option.bind_some] at h ⊢
        split_ifs at h ⊢ with htype
        · obtain ⟨u, hu, h⟩ := Option.bind_eq_some_iff.mp h
          have hbelow := ih hu
          -- the slot is read again, and still holds the directory
          obtain ⟨dir', hdir', hmax⟩ := hbelow.keeps.dir hdir
          have hne : dir'.files i ≠ 0 := fun h0 => by simp [removeAt, hdir', h0] at h
          have hslot' : Slot u.objects a i (dir'.files i) :=
            ⟨dirName, dir', hdir', hmax ▸ hslot.elim fun _ ⟨d, hd, hlt, _⟩ => by
              rw [hdir] at hd; cases hd; exact hlt, rfl, hne⟩
          have hsame : dir'.files i = dir.files i := (hbelow.keeps.slot hslot').unique hslot
          rw [hsame] at hslot'
          obtain ⟨t', heq, hinv, hkeeps, hfreed, -⟩ := removeAt_spec hbelow.inv hslot'
          obtain rfl := Option.some.inj (heq.symm.trans h)
          refine ⟨hinv, hbelow.keeps.trans hkeeps, hbelow.isFile, fun b hb => ?_⟩
          have hnot : b ≠ dir.files i := by
            rintro rfl
            omega
          rw [hfreed, List.mem_cons, or_iff_right hnot]
          exact hbelow.freed b hb
        · exact deletes_removeAt hs hslot ((type_eq_zero_or_one _).resolve_right htype) h

/-- **The calls come to an end**, since a directory is not below itself; slots higher up are not
touched. -/
theorem exists_deleteNoOrphan {rank : ℕ → ℕ} (hs : Inv s)
    (hrank : ∀ a i b, Slot s.objects a i b → rank b < rank a) (ha : IsDir s.objects a)
    (hn : rank a < n) :
    ∃ t, deleteNoOrphan n s a name = some t ∧
      ∀ {x j c}, Slot s.objects x j c → rank a < rank x → Slot t.objects x j c := by
  induction n generalizing a with
  | zero => omega
  | succ n ih =>
    obtain ⟨dirName, dir, hdir⟩ := ha
    rw [deleteNoOrphan]
    simp only [hdir]
    cases hfind : findSlot ⟨dir, s.objects⟩ name fun _ => true with
    | none => exact ⟨s, rfl, fun h _ => h⟩
    | some i =>
      have hslot := (slot_of_findSlot hdir hfind).1
      have hlt := hrank a i _ hslot
      -- an object higher up is not the one in this slot
      have hne : ∀ {x j c}, Slot s.objects x j c → rank a < rank x → c ≠ dir.files i := by
        rintro x j c h hx rfl
        rw [(hs.unique h hslot).1] at hx
        omega
      dsimp only
      split_ifs with htype
      · have hbelow : IsDir s.objects (dir.files i) := by
          cases hobject : s.objects (dir.files i) with
          | file => simp [hobject, TmpfsObject.type] at htype
          | directory name' dir' => exact ⟨name', dir', hobject⟩
        obtain ⟨u, hu, hkept⟩ := ih hbelow (by omega)
        have hdel := deletes_deleteNoOrphan hs hu
        obtain ⟨t, ht, -, -, -, hslots⟩ := removeAt_spec hdel.inv (hkept hslot hlt)
        exact ⟨t, by rw [hu]; exact ht, fun h hx => hslots (hkept h (by omega)) (hne h hx)⟩
      · obtain ⟨t, ht, -, -, -, hslots⟩ := removeAt_spec hs hslot
        exact ⟨t, ht, fun h hx => hslots h (hne h hx)⟩

/-! ### Runs -/

/-- A deletion is safe exactly if the file is not open. -/
theorem Deletes.safe_iff {file : Option ℕ} (h : Deletes s t file) (hs : Safe s) :
    Safe t ↔ ∀ b ∈ file, ∀ thread fd, s.table thread fd ≠ some b := by
  constructor
  · intro ht b hb thread fd hopen
    have hfile := h.isFile b hb
    refine ht thread fd b (by rw [h.keeps.table, hopen]) ((h.keeps.type b).trans hfile) ?_
    exact (h.freed b hfile).mpr (Or.inr hb)
  · intro hclosed thread fd a hopen hfile
    rw [h.keeps.table] at hopen
    rw [h.keeps.type] at hfile
    rw [h.freed a hfile, not_or]
    exact ⟨hs thread fd a hopen hfile, fun heq => hclosed a heq thread fd hopen⟩

/-- A descriptor set to an object that is not a freed file. -/
theorem safe_setFd {thread : ℕ} {fd : ℤ} {object : Option ℕ} (hs : Safe s)
    (hobject : ∀ a ∈ object, (s.objects a).type = 0 → a ∉ s.freed) :
    Safe (s.setFd thread fd object) := by
  intro thread' fd' a hopen
  by_cases hthread : thread' = thread
  · subst hthread
    by_cases hfd : fd' = fd
    · subst hfd
      simp only [State.setFd, Function.update_self] at hopen
      exact hobject a hopen
    · simp only [State.setFd, Function.update_self, Function.update_of_ne hfd] at hopen
      exact hs thread' fd' a hopen
  · simp only [State.setFd, Function.update_of_ne hthread] at hopen
    exact hs thread' fd' a hopen

/-- **A call** keeps the invariant, and keeps the descriptors safe exactly if it spares the files
that are open. -/
theorem inv_step {e : Event} (hs : Inv s) (hsafe : Safe s) (h : step s e = some t) :
    Inv t ∧ (Safe t ↔ SparesOpen s e) := by
  cases e with
  | vfsFdopen thread fd path =>
    simp only [step] at h
    split at h
    next vnode hresolve =>
      split_ifs at h
      obtain rfl := Option.some.inj h
      refine ⟨⟨hs.root_dir, hs.unfreed, hs.unique⟩, iff_of_true (safe_setFd hsafe ?_) nofun⟩
      -- a path leads to the root, which is no file, or to what is in a slot
      intro a ha hfile
      obtain rfl := Option.some.inj ha
      rcases slot_of_foldlM hresolve with heq | ⟨x, j, hslot⟩
      · have hroot := hs.root_dir
        rw [heq, ite_self] at hfile
        exact absurd (hfile.symm.trans hroot) (by decide)
      · exact hs.unfreed hslot
    next => cases h
  | vfsFdclose thread fd =>
    obtain rfl := Option.some.inj h
    exact ⟨⟨hs.root_dir, hs.unfreed, hs.unique⟩, iff_of_true (safe_setFd hsafe nofun) nofun⟩
  | fdPread thread fd =>
    simp only [step] at h
    split_ifs at h
    obtain rfl := Option.some.inj h
    exact ⟨hs, iff_of_true hsafe nofun⟩
  | fdPwrite thread fd =>
    simp only [step] at h
    split_ifs at h
    obtain rfl := Option.some.inj h
    exact ⟨hs, iff_of_true hsafe nofun⟩
  | tmpfsDeleteFile dir name =>
    simp only [step] at h
    split_ifs at h
    have hdel := deletes_deleteFile hs h
    exact ⟨hdel.inv, hdel.safe_iff hsafe⟩
  | tmpfsDeleteDirectoryNoOrphan depth dir name =>
    simp only [step] at h
    split_ifs at h
    have hdel := deletes_deleteNoOrphan hs h
    exact ⟨hdel.inv, hdel.safe_iff hsafe⟩

theorem inv_init {objects : ℕ → TmpfsObject} {root : ℕ} (ht : IsTree objects root) :
    Inv (init objects root) where
  root_dir := by
    obtain ⟨name, dir, heq⟩ := ht.root_dir
    show (objects root).type = 1
    rw [heq]
    rfl
  unfreed _ := List.not_mem_nil
  unique hb hb' := by
    obtain rfl := ht.parent hb hb'
    exact ⟨rfl, ht.distinct hb hb' rfl⟩

/-- The path `"/d/f"`. -/
def pathToFile : CString := ⟨[47, 100, 47, 102], by decide⟩

end Delete

end Vfs

end WillowOS
