import WillowOS.Lib.Stores
import WillowOS.Tmpfs.Map
import WillowOS.Tmpfs.Stale
import WillowOS.Vfs.Path

/-!
# Long names

The name of an object is an array of 128 bytes in its header, behind which come the path, the type
of the file system, the type of the object, the timestamps and the mutex. `tmpfs_create_file` and
`tmpfs_create_directory` copy the name there with `strncpy`, after they have set the other fields,
and the length they give it is that of the name. So no name is refused, and one of 128 bytes or more
runs into the fields behind.

Here an object is its bytes, and the functions are what they store. A name leaves the other fields
alone exactly if each byte of it that is not in the array is what was there before; that ends at the
zero after `"tmpfs"`. A new directory has its array cleared a second time, as often as its parent
has slots, and that must not come to the object either. And a name that the directory has already,
in a slot before the new one, is found there (**`WillowOS.Vfs.Names.createsSafely_iff`**).

The blocks are given by their addresses, which are those of blocks that do not overlap, or `NULL`.
The directory's own array is a function, as in the model without bytes.
-/

namespace WillowOS

namespace Vfs

open Heap

open Tmpfs (TmpfsDirectory InHeap addObject freeIndex)

namespace Names

/-! ### The two functions -/

/-- What the functions set before the name: `permissions`, `user_id`, `group_id`, `type`, `mutex`
and `mutex->locked`, `fs_type`, some fields of their own, and `timestamps`. -/
def fieldStores (object mutex : ℕ) (type : UInt8) (own : List Store) : List Store :=
  [⟨object, [114, 119, 120]⟩, ⟨object + 4, [0, 0]⟩, ⟨object + 6, [0, 0]⟩, ⟨object + 1192, [type]⟩,
    ⟨object + 1224, le64 mutex⟩, ⟨mutex, [0]⟩, ⟨object + 1160, [116, 109, 112, 102, 115, 0]⟩] ++
    own ++ [⟨object + 1200, List.replicate 24 0⟩]

/-- `strncpy(new->header.name, name, kstrlen(name)+1)`. Outside of the heap, it is a page fault. -/
def copyName (m : Mem) (object : ℕ) (name : CString) : Option Mem :=
  if InHeap (object + 8) (name.length + 1) then some (m.store ⟨object + 8, name.terminated⟩)
  else none

/-- What the functions have in common: the object returned, the memory and the directory. `after` is
what is done after the name was copied. -/
def createObject (m : Mem) (dir : TmpfsDirectory) (object mutex : ℕ) (name : CString) (type : UInt8)
    (own : List Store) (after : Mem → Option Mem) : Option (ℕ × Mem × TmpfsDirectory) :=
  if object = 0 ∨ mutex = 0 then none
  else
    (copyName (m.stores (fieldStores object mutex type own)) object name).bind fun m =>
      (after m).map fun m => (object, m, addObject dir object)

/-- The field of a file that is set before the name: `open_count`. -/
def fileFields (object : ℕ) : List Store := [⟨object + 1248, le64 0⟩]

/-- `tmpfs_create_file`. After the name it sets `size` and `data`. -/
def tmpfsCreateFile (m : Mem) (dir : TmpfsDirectory) (object mutex data : ℕ) (name : CString)
    (size : ℕ) : Option (ℕ × Mem × TmpfsDirectory) :=
  createObject m dir object mutex name 0 (fileFields object) fun m =>
    some (m.stores [⟨object + 1232, le64 size⟩, ⟨object + 1240, le64 data⟩])

/-- `for (int i = 0; i < dir->max_files; i++) {new_dir->files[i] = NULL;}`. A range that comes to
`new_dir->files` itself has come to the header before. -/
def clearSlots (object maxFiles : ℕ) (m : Mem) : Option Mem :=
  let files := m.read64 (object + 1232)
  if InHeap files (8 * maxFiles) then some (m.store ⟨files, List.replicate (8 * maxFiles) 0⟩)
  else none

/-- The fields of a directory, set before the name: `max_files`, `num_files` and `files`, whose
slots are cleared. -/
def directoryFields (object files : ℕ) : List Store :=
  [⟨object + 1240, le64 32⟩, ⟨object + 1248, le64 0⟩, ⟨object + 1232, le64 files⟩,
    ⟨files, List.replicate (32 * 8) 0⟩]

/-- `tmpfs_create_directory`. After the name it clears as many slots as the parent has. -/
def tmpfsCreateDirectory (m : Mem) (dir : TmpfsDirectory) (object mutex files : ℕ)
    (name : CString) : Option (ℕ × Mem × TmpfsDirectory) :=
  if files = 0 then none
  else
    createObject m dir object mutex name 1 (directoryFields object files)
      (clearSlots object dir.maxFiles)

/-- What is created. -/
inductive NewObject where
  | file (size data : ℕ)
  | directory (files : ℕ)

/-- The type in the header. -/
def NewObject.type : NewObject → UInt8
  | .file .. => 0
  | .directory _ => 1

/-- The type of the vnode. -/
def NewObject.vtype : NewObject → Vtype
  | .file .. => .vreg
  | .directory _ => .vdir

/-- A call of one of the two. -/
def create (m : Mem) (dir : TmpfsDirectory) (object mutex : ℕ) (name : CString) :
    NewObject → Option (ℕ × Mem × TmpfsDirectory)
  | .file size data => tmpfsCreateFile m dir object mutex data name size
  | .directory files => tmpfsCreateDirectory m dir object mutex files name

/-! ### Finding an object -/

/-- `strcmp(header->name, name) == 0`. -/
def NamedAt (m : Mem) (object : ℕ) (name : CString) : Prop :=
  ∀ i < name.length + 1, m (object + 8 + i) = name.terminated.getD i 0

instance (m : Mem) (object : ℕ) (name : CString) : Decidable (NamedAt m object name) :=
  inferInstanceAs (Decidable (∀ i < _, _))

/-- `tmpfs_lookup`. -/
def tmpfsLookup (m : Mem) (dir : TmpfsDirectory) (name : CString) : ℕ :=
  match (List.range dir.maxFiles).find? fun i =>
    decide (dir.files i ≠ 0 ∧ NamedAt m (dir.files i) name) with
  | some i => dir.files i
  | none => 0

/-- `vnode_tmpfs_lookup`. For a type other than `0` and `1`, what it returns is not set. -/
def vnodeTmpfsLookup (m : Mem) (dir : TmpfsDirectory) (name : CString) : Option Vnode :=
  let temp := tmpfsLookup m dir name
  if temp = 0 then none
  else if m (temp + 1192) = 0 then some ⟨.vreg, temp⟩
  else if m (temp + 1192) = 1 then some ⟨.vdir, temp⟩
  else none

/-! ### What a call has to do -/

/-- The header with its fields set, and no name. -/
def defaultHeader (m : Mem) (object mutex : ℕ) (type : UInt8) : Mem :=
  m.stores [⟨object, [114, 119, 120]⟩, ⟨object + 4, [0, 0]⟩, ⟨object + 6, [0, 0]⟩,
    ⟨object + 1192, [type]⟩, ⟨object + 1224, le64 mutex⟩,
    ⟨object + 1160, [116, 109, 112, 102, 115, 0]⟩, ⟨object + 1200, List.replicate 24 0⟩]

/-- The header is the default one but for the name. -/
def HeaderKept (m m' : Mem) (object mutex : ℕ) (type : UInt8) : Prop :=
  ∀ x < 1232, ¬(8 ≤ x ∧ x < 136) → m' (object + x) = defaultHeader m object mutex type (object + x)

/-- **What a call has to do**: it refuses the name, and leaves the directory as it was; or it
returns an object whose header is the default one but for the name, and a lookup of the name gives a
vnode of the right type for it. -/
def CreatesSafely (m : Mem) (dir : TmpfsDirectory) (object mutex : ℕ) (name : CString)
    (new : NewObject) : Prop :=
  ∃ ret m' dir', create m dir object mutex name new = some (ret, m', dir') ∧
    (ret = 0 ∧ dir' = dir ∨
      ret ≠ 0 ∧ HeaderKept m m' ret mutex new.type ∧
        vnodeTmpfsLookup m' dir' name = some ⟨new.vtype, ret⟩)

/-- What is allocated: blocks that do not overlap, if they are not `NULL`, the object being none
that the directory has. -/
structure Fresh (dir : TmpfsDirectory) (object mutex : ℕ) (new : NewObject) : Prop where
  in_heap : object ≠ 0 → heapStart ≤ object ∧ object + 1256 ≤ heapStart + heapSize
  mutex : mutex + 16 ≤ object ∨ object + 1256 ≤ mutex
  files : ∀ files, new = .directory files →
    files < 2 ^ 64 ∧ (files + 256 ≤ object ∨ object + 1256 ≤ files)
  new : ∀ i < dir.maxFiles, dir.files i ≠ object
  slots : 0 < dir.maxFiles

/-- Every byte of the name that is not in the array is what was there before. -/
def Kept (m : Mem) (object mutex : ℕ) (type : UInt8) (name : CString) : Prop :=
  ∀ i, 128 ≤ i → i ≤ name.length →
    name.terminated.getD i 0 = defaultHeader m object mutex type (object + 8 + i)

/-- The array of a new directory is there, and clearing as many slots as the parent has keeps to the
heap and does not come to the object. -/
def ClearsApart (dir : TmpfsDirectory) (object : ℕ) : NewObject → Prop
  | .file .. => True
  | .directory files => files ≠ 0 ∧ InHeap files (8 * dir.maxFiles) ∧
    ¬(files ≤ object ∧ object < files + 8 * dir.maxFiles)

/-- The memory after the name was copied. -/
def named (m : Mem) (object mutex : ℕ) (type : UInt8) (own : List Store) (name : CString) : Mem :=
  (m.stores (fieldStores object mutex type own)).store ⟨object + 8, name.terminated⟩

/-- The memory after the call, if the array is where it was allocated. -/
def written (m : Mem) (dir : TmpfsDirectory) (object mutex : ℕ) (name : CString) :
    NewObject → Mem
  | .file size data => (named m object mutex 0 (fileFields object) name).stores
      [⟨object + 1232, le64 size⟩, ⟨object + 1240, le64 data⟩]
  | .directory files => (named m object mutex 1 (directoryFields object files) name).store
      ⟨files, List.replicate (8 * dir.maxFiles) 0⟩

/-! ### The header -/

section Header

variable {m m' : Mem} {dir : TmpfsDirectory} {object mutex x i : ℕ} {type : UInt8}
  {own : List Store} {name : CString}

theorem pairwise_header (object mutex : ℕ) (type : UInt8) : List.Pairwise Store.Disjoint
    [⟨object, [114, 119, 120]⟩, ⟨object + 4, [0, 0]⟩, ⟨object + 6, [0, 0]⟩,
      ⟨object + 1192, [type]⟩, ⟨object + 1224, le64 mutex⟩,
      ⟨object + 1160, [116, 109, 112, 102, 115, 0]⟩, ⟨object + 1200, List.replicate 24 0⟩] := by
  simp only [List.pairwise_cons, List.mem_cons, List.not_mem_nil, or_false, forall_eq_or_imp,
    forall_eq, Store.Disjoint, List.length_cons, List.length_nil, length_le64,
    List.length_replicate, false_imp_iff, implies_true, List.Pairwise.nil, and_true]
  omega

/-- The first byte of the permissions. -/
theorem defaultHeader_permissions : defaultHeader m object mutex type object = 114 :=
  Mem.bytesAt_stores (w := ⟨object, [114, 119, 120]⟩) (pairwise_header object mutex type)
    (by simp) 0 (by simp)

/-- The zero at the end of `"tmpfs"`. -/
theorem defaultHeader_fsType : defaultHeader m object mutex type (object + 1165) = 0 :=
  Mem.bytesAt_stores (w := ⟨object + 1160, [116, 109, 112, 102, 115, 0]⟩)
    (pairwise_header object mutex type) (by simp) 5 (by simp)

theorem defaultHeader_type : defaultHeader m object mutex type (object + 1192) = type :=
  Mem.bytesAt_stores (w := ⟨object + 1192, [type]⟩) (pairwise_header object mutex type)
    (by simp) 0 (by simp)

/-- The first byte of the timestamps. -/
theorem defaultHeader_timestamps : defaultHeader m object mutex type (object + 1200) = 0 :=
  Mem.bytesAt_stores (w := ⟨object + 1200, List.replicate 24 0⟩)
    (pairwise_header object mutex type) (by simp) 0 (by simp)

/-- Before the name is copied, the header is the default one. -/
theorem stores_fieldStores (hmutex : mutex + 16 ≤ object ∨ object + 1256 ≤ mutex)
    (hown : ∀ w ∈ own, w.addr + w.bytes.length ≤ object ∨ object + 1232 ≤ w.addr)
    (hx : x < 1232) : m.stores (fieldStores object mutex type own) (object + x) =
      defaultHeader m object mutex type (object + x) := by
  rw [fieldStores, Mem.stores_append, Mem.stores_append]
  refine Mem.stores_congr ?_ [⟨object + 1200, List.replicate 24 0⟩]
  rw [Mem.stores_of_notMem fun w hw => by have := hown w hw; omega]
  refine Mem.stores_congr (Mem.store_of_notMem ?_)
    [⟨object + 1160, [116, 109, 112, 102, 115, 0]⟩]
  show ¬(mutex ≤ object + x ∧ object + x < mutex + 1)
  omega

theorem named_of_notMem (h : ¬(8 ≤ x ∧ x ≤ 8 + name.length))
    (hmutex : mutex + 16 ≤ object ∨ object + 1256 ≤ mutex)
    (hown : ∀ w ∈ own, w.addr + w.bytes.length ≤ object ∨ object + 1232 ≤ w.addr)
    (hx : x < 1232) : named m object mutex type own name (object + x) =
      defaultHeader m object mutex type (object + x) := by
  rw [named, Mem.store_of_notMem, stores_fieldStores hmutex hown hx]
  rw [CString.length_terminated]
  show ¬(object + 8 ≤ object + x ∧ object + x < object + 8 + (name.length + 1))
  omega

theorem named_of_le (m : Mem) (object mutex : ℕ) (type : UInt8) (own : List Store)
    (h : i ≤ name.length) :
    named m object mutex type own name (object + 8 + i) = name.terminated.getD i 0 := by
  have hlt : i < name.terminated.length := by
    rw [CString.length_terminated]
    omega
  rw [List.getD_eq_getElem _ _ hlt]
  exact Mem.bytesAt_store (w := ⟨object + 8, name.terminated⟩) i hlt

theorem getD_terminated_ne (h : i < name.length) : name.terminated.getD i 0 ≠ 0 := by
  rw [CString.terminated, List.getD_append _ _ _ _ h, List.getD_eq_getElem _ _ h]
  exact fun h0 => name.nul_notMem (h0 ▸ List.getElem_mem h)

/-- A name that leaves the header as it was ends at the zero after `"tmpfs"`, if not before. -/
theorem length_le (h : 1157 ≤ name.length → name.terminated.getD 1157 0 = 0) :
    name.length ≤ 1157 := by
  by_contra hlt
  exact getD_terminated_ne (by omega) (h (by omega))

/-- **The header after the name was copied**, if it is not written to any more. -/
theorem headerKept_iff (hmutex : mutex + 16 ≤ object ∨ object + 1256 ≤ mutex)
    (hown : ∀ w ∈ own, w.addr + w.bytes.length ≤ object ∨ object + 1232 ≤ w.addr)
    (hm' : ∀ x < 1232, m' (object + x) = named m object mutex type own name (object + x)) :
    HeaderKept m m' object mutex type ↔ Kept m object mutex type name := by
  constructor
  · intro h
    have hbyte : ∀ i, 128 ≤ i → i ≤ name.length → i < 1224 →
        name.terminated.getD i 0 = defaultHeader m object mutex type (object + 8 + i) := by
      intro i h128 hle hlt
      rw [← named_of_le m object mutex type own hle, Nat.add_assoc, ← hm' (8 + i) (by omega)]
      exact h (8 + i) (by omega) (by omega)
    have hlength := length_le fun hle =>
      (hbyte 1157 (by decide) hle (by decide)).trans defaultHeader_fsType
    exact fun i h128 hle => hbyte i h128 hle (by omega)
  · intro h x hx hname
    rw [hm' x hx]
    by_cases hmem : 8 ≤ x ∧ x ≤ 8 + name.length
    · obtain ⟨i, rfl⟩ := Nat.exists_eq_add_of_le hmem.1
      rw [← Nat.add_assoc, named_of_le m object mutex type own (by omega)]
      exact h i (by omega) (by omega)
    · exact named_of_notMem hmem hmutex hown hx

/-- A name that fits is in its array. -/
theorem kept_of_length_lt (m : Mem) (object mutex : ℕ) (type : UInt8) (h : name.length < 128) :
    Kept m object mutex type name := fun i h128 hle => by omega

/-- The zero at the end of `"tmpfs"` bounds the name. -/
theorem Kept.length_le (h : Kept m object mutex type name) : name.length ≤ 1157 :=
  Names.length_le fun hle => (h 1157 (by decide) hle).trans defaultHeader_fsType

end Header

/-! ### The array of a new directory -/

section Array

variable {m : Mem} {dir : TmpfsDirectory} {object mutex files x y n : ℕ} {name : CString}
  {w : Store}

theorem fileFields_apart (hw : w ∈ fileFields object) :
    w.addr + w.bytes.length ≤ object ∨ object + 1232 ≤ w.addr := by
  obtain rfl := List.mem_singleton.mp hw
  exact Or.inr (by show object + 1232 ≤ object + 1248; omega)

theorem directoryFields_apart (hfiles : files + 256 ≤ object ∨ object + 1256 ≤ files)
    (hw : w ∈ directoryFields object files) :
    w.addr + w.bytes.length ≤ object ∨ object + 1232 ≤ w.addr := by
  simp only [directoryFields, List.mem_cons, List.not_mem_nil, or_false] at hw
  rcases hw with rfl | rfl | rfl | rfl
  · exact Or.inr (by show object + 1232 ≤ object + 1240; omega)
  · exact Or.inr (by show object + 1232 ≤ object + 1248; omega)
  · exact Or.inr (Nat.le_refl _)
  · rw [List.length_replicate]
    show files + 32 * 8 ≤ object ∨ object + 1232 ≤ files
    omega

/-- `new_dir->files`, if the name does not come there. -/
theorem read64_named (m : Mem) (mutex : ℕ) (hlength : name.length ≤ 1223) (hlt : files < 2 ^ 64)
    (hfiles : files + 256 ≤ object ∨ object + 1256 ≤ files) :
    (named m object mutex 1 (directoryFields object files) name).read64 (object + 1232) =
      files := by
  refine Mem.read64_of_bytesAt ?_ hlt
  show (m.stores ([⟨object, [114, 119, 120]⟩, ⟨object + 4, [0, 0]⟩, ⟨object + 6, [0, 0]⟩,
      ⟨object + 1192, [1]⟩, ⟨object + 1224, le64 mutex⟩, ⟨mutex, [0]⟩,
      ⟨object + 1160, [116, 109, 112, 102, 115, 0]⟩, ⟨object + 1240, le64 32⟩,
      ⟨object + 1248, le64 0⟩] ++ ⟨object + 1232, le64 files⟩ ::
    [⟨files, List.replicate (32 * 8) 0⟩, ⟨object + 1200, List.replicate 24 0⟩,
      ⟨object + 8, name.terminated⟩])).BytesAt _ _
  refine Mem.bytesAt_stores_append fun v hv => ?_
  simp only [List.mem_cons, List.not_mem_nil, or_false] at hv
  rcases hv with rfl | rfl | rfl <;>
    simp only [Store.Disjoint, length_le64, List.length_replicate, CString.length_terminated] <;>
    omega

theorem store_zeros_of_mem (h : x ≤ y ∧ y < x + n) :
    m.store ⟨x, List.replicate n 0⟩ y = 0 := by
  have hlt : y < x + (List.replicate n (0 : UInt8)).length := by
    rw [List.length_replicate]
    exact h.2
  rw [Mem.store, if_pos ⟨h.1, hlt⟩]
  exact List.getD_replicate _ (show y - x < n by omega)

theorem store_zeros_of_notMem (h : ¬(x ≤ y ∧ y < x + n)) :
    m.store ⟨x, List.replicate n 0⟩ y = m y := by
  refine Mem.store_of_notMem ?_
  rw [List.length_replicate]
  exact h

/-- **The second clearing of the array**, if it leaves the header alone: it is the array that is
cleared, and that does not come to the object. -/
theorem clear_apart (hlt : files < 2 ^ 64)
    (hfiles : files + 256 ≤ object ∨ object + 1256 ≤ files)
    (h : HeaderKept m ((named m object mutex 1 (directoryFields object files) name).store
      ⟨(named m object mutex 1 (directoryFields object files) name).read64 (object + 1232),
        List.replicate n 0⟩) object mutex 1) :
    (named m object mutex 1 (directoryFields object files) name).read64 (object + 1232) = files ∧
      ¬(files ≤ object ∧ object < files + n) := by
  set written := named m object mutex 1 (directoryFields object files) name with hwritten
  obtain ⟨ptr, hptr⟩ : ∃ ptr, written.read64 (object + 1232) = ptr := ⟨_, rfl⟩
  rw [hptr] at h ⊢
  -- neither the permissions nor the type are cleared
  have hfirst : ¬(ptr ≤ object ∧ object < ptr + n) := fun hmem => by
    have := h 0 (by decide) (by decide)
    rw [Nat.add_zero, store_zeros_of_mem hmem, defaultHeader_permissions] at this
    exact absurd this (by decide)
  have htype : ¬(ptr ≤ object + 1192 ∧ object + 1192 < ptr + n) := fun hmem => by
    have := h 1192 (by decide) (by decide)
    rw [store_zeros_of_mem hmem, defaultHeader_type] at this
    exact absurd this (by decide)
  have hlength : name.length ≤ 1223 := by
    by_contra hlong
    -- what lies on both sides of the type would have to be
    have hcleared : ∀ i, i < name.length → i < 1224 → 128 ≤ i →
        defaultHeader m object mutex 1 (object + (8 + i)) = 0 →
          ptr ≤ object + (8 + i) ∧ object + (8 + i) < ptr + n := by
      intro i hi hlt h128 h0
      by_contra hmem
      have := h (8 + i) (by omega) (by omega)
      rw [store_zeros_of_notMem hmem, ← Nat.add_assoc, hwritten, named_of_le _ _ _ _ _ hi.le,
        Nat.add_assoc, h0] at this
      exact getD_terminated_ne hi this
    have h1 := hcleared 1157 (by omega) (by decide) (by decide) defaultHeader_fsType
    have h2 := hcleared 1192 (by omega) (by decide) (by decide) defaultHeader_timestamps
    omega
  have heq : ptr = files := hptr.symm.trans (read64_named m mutex hlength hlt hfiles)
  exact ⟨heq, heq ▸ hfirst⟩

end Array

/-! ### The lookup -/

section Lookup

variable {m : Mem} {dir : TmpfsDirectory} {object mutex : ℕ} {name : CString} {new : NewObject}

/-- A lookup in the bytes is the one in the objects, if the bytes have their names. -/
theorem tmpfsLookup_eq {objects : ℕ → Tmpfs.TmpfsObject} (h : ∀ i < dir.maxFiles, dir.files i ≠ 0 →
    (NamedAt m (dir.files i) name ↔ (objects (dir.files i)).name = name)) :
    tmpfsLookup m dir name = Tmpfs.tmpfsLookup ⟨dir, objects⟩ name := by
  have hfind : ((List.range dir.maxFiles).find? fun i =>
      decide (dir.files i ≠ 0 ∧ NamedAt m (dir.files i) name)) =
        Tmpfs.findSlot ⟨dir, objects⟩ name fun _ => true := by
    rw [Tmpfs.findSlot, ← List.head?_filter, ← List.head?_filter]
    refine congrArg List.head? (List.filter_congr fun i hi => ?_)
    rw [Bool.and_true, ← Bool.decide_and]
    refine decide_eq_decide.mpr (and_congr_right fun hne => ?_)
    rw [CString.strcmp_eq_zero]
    exact h i (List.mem_range.mp hi) hne
  rw [tmpfsLookup, hfind]
  rfl

/-- There is always a slot to write to. -/
theorem freeIndex_lt (h : 0 < dir.maxFiles) : freeIndex dir < dir.maxFiles := by
  rw [freeIndex]
  split_ifs
  · cases hf : (List.range dir.maxFiles).find? fun i => decide (dir.files i = 0) with
    | none => exact h
    | some i => exact List.mem_range.mp (List.mem_of_find?_eq_some hf)
  · exact h

/-- **The lookup finds the new object** exactly if no slot before it has one of that name. -/
theorem tmpfsLookup_addObject (hslots : 0 < dir.maxFiles)
    (hnew : ∀ i < dir.maxFiles, dir.files i ≠ object) (h0 : object ≠ 0)
    (hnamed : NamedAt m object name) :
    tmpfsLookup m (addObject dir object) name = object ↔
      ∀ i < freeIndex dir, dir.files i ≠ 0 → ¬NamedAt m (dir.files i) name := by
  have hfree := freeIndex_lt hslots
  have hmax := hfree.trans_le (@Tmpfs.maxFiles_le_addObject dir object)
  have hat : (addObject dir object).files (freeIndex dir) = object := by
    rw [Tmpfs.files_addObject hfree hmax, if_pos rfl]
  have hbefore : ∀ i < freeIndex dir, (addObject dir object).files i = dir.files i := fun i hi => by
    rw [Tmpfs.files_addObject hfree (hi.trans hmax), if_neg hi.ne, if_pos (hi.trans hfree)]
  rw [tmpfsLookup]
  cases hf : (List.range (addObject dir object).maxFiles).find? fun i =>
      decide ((addObject dir object).files i ≠ 0 ∧
        NamedAt m ((addObject dir object).files i) name) with
  | none =>
    have := List.find?_eq_none.mp hf (freeIndex dir) (List.mem_range.mpr hmax)
    rw [hat] at this
    exact absurd (decide_eq_true ⟨h0, hnamed⟩) this
  | some i =>
    obtain ⟨hi, -, hfirst⟩ := List.find?_range_eq_some.mp hf
    have hle : i ≤ freeIndex dir := by
      by_contra hlt
      have := hfirst (freeIndex dir) (Nat.lt_of_not_le hlt)
      rw [hat, decide_eq_true ⟨h0, hnamed⟩] at this
      cases this
    constructor
    · intro heq j hj hne hnamed'
      have hij : i = freeIndex dir := by
        by_contra hne'
        have hlt := Nat.lt_of_le_of_ne hle hne'
        exact hnew i (hlt.trans hfree) ((hbefore i hlt).symm.trans heq)
      have := hfirst j (hij ▸ hj)
      rw [hbefore j hj, decide_eq_true ⟨hne, hnamed'⟩] at this
      cases this
    · intro h
      rcases Nat.lt_or_eq_of_le hle with hlt | rfl
      · obtain ⟨hne, hnamed'⟩ := of_decide_eq_true hi
        rw [hbefore i hlt] at hne hnamed'
        exact absurd hnamed' (h i hlt hne)
      · exact hat

/-- The vnode is the one of the object, if that is found and has its type. -/
theorem vnodeTmpfsLookup_eq_some (h0 : object ≠ 0) (htype : m (object + 1192) = new.type) :
    vnodeTmpfsLookup m dir name = some ⟨new.vtype, object⟩ ↔ tmpfsLookup m dir name = object := by
  rw [vnodeTmpfsLookup]
  constructor
  · intro h
    split_ifs at h
    · exact congrArg Vnode.vnodeData (Option.some.inj h)
    · exact congrArg Vnode.vnodeData (Option.some.inj h)
  · intro h
    rw [h, htype, if_neg h0]
    cases new with
    | file => rfl
    | directory => rfl

end Lookup

/-! ### Both functions -/

section Create

variable {m m' : Mem} {dir : TmpfsDirectory} {object mutex : ℕ} {name : CString}
  {new : NewObject} {own : List Store} {type : UInt8} {after : Mem → Option Mem}
  {r : ℕ × Mem × TmpfsDirectory}

/-- What the functions have in common. -/
theorem createObject_eq_some :
    createObject m dir object mutex name type own after = some r ↔
      object ≠ 0 ∧ mutex ≠ 0 ∧ InHeap (object + 8) (name.length + 1) ∧
        ∃ m', after (named m object mutex type own name) = some m' ∧
          r = (object, m', addObject dir object) := by
  rw [createObject, Option.ite_none_left_eq_some, not_or, and_assoc, copyName]
  refine and_congr_right fun _ => and_congr_right fun _ => ?_
  by_cases hin : InHeap (object + 8) (name.length + 1)
  · rw [if_pos hin, Option.bind_some, Option.map_eq_some_iff]
    exact ⟨fun ⟨m', h, hr⟩ => ⟨hin, m', h, hr.symm⟩, fun ⟨_, m', h, hr⟩ => ⟨m', h, hr.symm⟩⟩
  · rw [if_neg hin, Option.bind_none]
    exact iff_of_false nofun fun h => hin h.1

/-- No name is refused. -/
theorem exists_createObject_iff {P : ℕ → Mem → TmpfsDirectory → Prop} :
    (∃ ret m' dir', createObject m dir object mutex name type own after = some (ret, m', dir') ∧
        (ret = 0 ∧ dir' = dir ∨ ret ≠ 0 ∧ P ret m' dir')) ↔
      object ≠ 0 ∧ mutex ≠ 0 ∧ InHeap (object + 8) (name.length + 1) ∧
        ∃ m', after (named m object mutex type own name) = some m' ∧
          P object m' (addObject dir object) := by
  constructor
  · rintro ⟨ret, m', dir', heq, h⟩
    obtain ⟨h0, hmutex, hin, m'', hafter, hr⟩ := createObject_eq_some.mp heq
    cases hr
    rcases h with ⟨hret, -⟩ | ⟨-, h⟩
    · exact absurd hret h0
    · exact ⟨h0, hmutex, hin, m', hafter, h⟩
  · rintro ⟨h0, hmutex, hin, m', hafter, h⟩
    exact ⟨object, m', addObject dir object,
      createObject_eq_some.mpr ⟨h0, hmutex, hin, m', hafter, rfl⟩, Or.inr ⟨h0, h⟩⟩

/-- The header and the lookup, if the header is not written to after the name. -/
theorem headerKept_and_lookup_iff (hf : Fresh dir object mutex new) (h0 : object ≠ 0)
    (hown : ∀ w ∈ own, w.addr + w.bytes.length ≤ object ∨ object + 1232 ≤ w.addr)
    (hm' : ∀ x < 1232, m' (object + x) = named m object mutex new.type own name (object + x)) :
    HeaderKept m m' object mutex new.type ∧
        vnodeTmpfsLookup m' (addObject dir object) name = some ⟨new.vtype, object⟩ ↔
      Kept m object mutex new.type name ∧
        ∀ i < freeIndex dir, dir.files i ≠ 0 → ¬NamedAt m' (dir.files i) name := by
  have hheader := headerKept_iff hf.mutex hown hm'
  rw [← hheader]
  refine and_congr_right fun hkept => ?_
  have hlength := (hheader.mp hkept).length_le
  have htype : m' (object + 1192) = new.type :=
    (hkept 1192 (by decide) (by decide)).trans defaultHeader_type
  have hnamed : NamedAt m' object name := fun i hi => by
    rw [Nat.add_assoc, hm' (8 + i) (by omega), ← Nat.add_assoc]
    exact named_of_le _ _ _ _ _ (Nat.le_of_lt_succ hi)
  rw [vnodeTmpfsLookup_eq_some h0 htype]
  exact tmpfsLookup_addObject hf.slots hf.new h0 hnamed

/-- A name that is kept is copied inside of the heap. -/
theorem Fresh.inHeap (hf : Fresh dir object mutex new) (h0 : object ≠ 0)
    (hlength : name.length ≤ 1157) : InHeap (object + 8) (name.length + 1) := by
  have := hf.in_heap h0
  exact Or.inr (by omega)

/-- After the name, a file is written to behind its header only. -/
theorem written_file (m : Mem) (dir : TmpfsDirectory) (mutex : ℕ) (name : CString) (size data : ℕ)
    {x : ℕ} (hx : x < 1232) :
    written m dir object mutex name (.file size data) (object + x) =
      named m object mutex 0 (fileFields object) name (object + x) := by
  refine Mem.stores_of_notMem fun w hw => ?_
  simp only [List.mem_cons, List.not_mem_nil, or_false] at hw
  rcases hw with rfl | rfl
  · show ¬(object + 1232 ≤ object + x ∧ _)
    omega
  · show ¬(object + 1240 ≤ object + x ∧ _)
    omega

theorem createsSafely_file {size data : ℕ} (hf : Fresh dir object mutex (.file size data)) :
    CreatesSafely m dir object mutex name (.file size data) ↔
      object ≠ 0 ∧ mutex ≠ 0 ∧ Kept m object mutex 0 name ∧
        ∀ i < freeIndex dir, dir.files i ≠ 0 →
          ¬NamedAt (written m dir object mutex name (.file size data)) (dir.files i) name := by
  rw [CreatesSafely, create, tmpfsCreateFile, exists_createObject_iff]
  have hiff := fun h0 => headerKept_and_lookup_iff hf h0 (fun w hw => fileFields_apart hw)
    (fun x hx => written_file m dir mutex name size data hx)
  constructor
  · rintro ⟨h0, hmutex, -, m', hafter, h⟩
    cases hafter
    exact ⟨h0, hmutex, (hiff h0).mp h⟩
  · rintro ⟨h0, hmutex, h⟩
    exact ⟨h0, hmutex, hf.inHeap h0 h.1.length_le, _, rfl, (hiff h0).mpr h⟩

theorem clearSlots_eq_some {n : ℕ} : clearSlots object n m = some m' ↔
    InHeap (m.read64 (object + 1232)) (8 * n) ∧
      m' = m.store ⟨m.read64 (object + 1232), List.replicate (8 * n) 0⟩ := by
  rw [clearSlots, Option.ite_none_right_eq_some, Option.some.injEq, eq_comm (a := m')]

/-- The second clearing of the array does not come to the header, if not to its first byte. -/
theorem written_directory (m : Mem) (mutex : ℕ) (name : CString) {files x : ℕ}
    (hfiles : files + 256 ≤ object ∨ object + 1256 ≤ files)
    (hclear : ¬(files ≤ object ∧ object < files + 8 * dir.maxFiles)) (hx : x < 1232) :
    written m dir object mutex name (.directory files) (object + x) =
      named m object mutex 1 (directoryFields object files) name (object + x) :=
  store_zeros_of_notMem (by omega)

theorem createsSafely_directory {files : ℕ} (hf : Fresh dir object mutex (.directory files)) :
    CreatesSafely m dir object mutex name (.directory files) ↔
      object ≠ 0 ∧ mutex ≠ 0 ∧ ClearsApart dir object (.directory files) ∧
        Kept m object mutex 1 name ∧
        ∀ i < freeIndex dir, dir.files i ≠ 0 →
          ¬NamedAt (written m dir object mutex name (.directory files)) (dir.files i) name := by
  obtain ⟨hlt, hfiles⟩ := hf.files files rfl
  have hiff := fun h0 (hclear : ¬(files ≤ object ∧ object < files + 8 * dir.maxFiles)) =>
    headerKept_and_lookup_iff hf h0 (fun w hw => directoryFields_apart hfiles hw)
      (fun x hx => written_directory m mutex name hfiles hclear hx)
  rw [CreatesSafely, create, tmpfsCreateDirectory]
  by_cases hnull : files = 0
  · rw [if_pos hnull]
    exact iff_of_false (fun ⟨_, _, _, h, _⟩ => nomatch h) fun h => h.2.2.1.1 hnull
  rw [if_neg hnull, exists_createObject_iff]
  constructor
  · rintro ⟨h0, hmutex, -, m', hafter, h⟩
    obtain ⟨hin, rfl⟩ := clearSlots_eq_some.mp hafter
    obtain ⟨hptr, hclear⟩ := clear_apart hlt hfiles h.1
    rw [hptr] at hin h
    obtain ⟨hkept, hfirst⟩ := (hiff h0 hclear).mp h
    exact ⟨h0, hmutex, ⟨hnull, hin, hclear⟩, hkept, hfirst⟩
  · rintro ⟨h0, hmutex, ⟨-, hin, hclear⟩, hkept, hfirst⟩
    have hlength := hkept.length_le
    have hptr := read64_named m mutex (hlength.trans (by decide)) hlt hfiles
    refine ⟨h0, hmutex, hf.inHeap h0 hlength, _, clearSlots_eq_some.mpr ⟨?_, rfl⟩, ?_⟩
    · rw [hptr]
      exact hin
    · rw [hptr]
      exact (hiff h0 hclear).mpr ⟨hkept, hfirst⟩

end Create

/-- A name of `n` letters `a`. -/
def letters (n : ℕ) : CString := ⟨List.replicate n 97, by simp [List.mem_replicate]⟩

theorem length_letters (n : ℕ) : (letters n).length = n := List.length_replicate

/-- The blocks at the start of the heap, for an empty directory. -/
theorem fresh_heapStart {new : NewObject}
    (h : ∀ files, new = .directory files → files = heapStart + 1344) :
    Fresh Tmpfs.newDirectory heapStart (heapStart + 1280) new where
  in_heap := fun _ => by decide
  mutex := by decide
  files := fun files heq => by
    rw [h files heq]
    decide
  new := fun _ _ => show 0 ≠ heapStart by decide
  slots := by decide

end Names

end Vfs

end WillowOS
