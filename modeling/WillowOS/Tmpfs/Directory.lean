import WillowOS.Lib.CString
import WillowOS.Lib.Run
import WillowOS.Lib.Slots

/-!
# Directories of the temporary file system

A directory of `tmpfs` is an array of pointers, `NULL` where a slot is free. A file or a
directory is created in the first free slot, and removed by setting its slot to `NULL`; the
array is grown by 32 slots when the last one is taken.

The search for a free slot falls back on slot `0` when it finds none. It never does: the
count of the files is the number of slots taken, and below the size of the array
(`WillowOS.Tmpfs.Inv`). So a directory is a finite map from names to objects, and the
four operations are the ones of such a map (`WillowOS.Tmpfs.specStep`):
**`WillowOS.Tmpfs.tmpfsLookup_run`**.

The calls are made one after the other, so that the mutex of the directory is free at each
of them. The counters of the loops are `int`s; an array in the heap of 64 MiB has less than
2³¹ slots.
-/

namespace WillowOS

namespace Tmpfs

/-- A `tmpfs_directory_t`, without its header. `files` is what the block of that name
holds, `0` being `NULL`. -/
structure TmpfsDirectory where
  files : ℕ → ℕ
  maxFiles : ℕ
  numFiles : ℕ

/-- What a slot of a directory points to: a `tmpfs_file_t` or a `tmpfs_directory_t`, with
the name from its header. -/
inductive TmpfsObject where
  | file (name : CString) (size data openCount : ℕ)
  | directory (name : CString) (dir : TmpfsDirectory)

namespace TmpfsObject

/-- `header.name`. -/
def name : TmpfsObject → CString
  | file name .. => name
  | directory name _ => name

/-- `header.type`: `0` for a file and `1` for a directory. -/
def type : TmpfsObject → ℕ
  | file .. => 0
  | directory .. => 1

/-- `open_count`, of which a directory has none. -/
def openCount : TmpfsObject → ℕ
  | file _ _ _ openCount => openCount
  | directory .. => 0

def setOpenCount (count : ℕ) : TmpfsObject → TmpfsObject
  | file name size data _ => file name size data count
  | directory name dir => directory name dir

end TmpfsObject

/-- A directory, and the objects by their addresses. -/
structure State where
  dir : TmpfsDirectory
  objects : ℕ → TmpfsObject

/-! ### Creating -/

/-- The search for a free slot: `free_index` stays `0` when slot `0` is free, and also when
no slot is. -/
def freeIndex (dir : TmpfsDirectory) : ℕ :=
  if dir.files 0 ≠ 0 then
    ((List.range dir.maxFiles).find? fun i => decide (dir.files i = 0)).getD 0
  else 0

/-- The end of the two functions that create: the slot is set, and the array is grown if
that was the last one. -/
def addObject (dir : TmpfsDirectory) (object : ℕ) : TmpfsDirectory :=
  let files := Function.update dir.files (freeIndex dir) object
  let numFiles := dir.numFiles + 1
  if numFiles = dir.maxFiles then
    let maxFiles := dir.maxFiles + 32
    { files := fun i => if maxFiles - 32 ≤ i ∧ i < maxFiles then 0 else files i
      maxFiles := maxFiles
      numFiles := numFiles }
  else { files := files, maxFiles := dir.maxFiles, numFiles := numFiles }

/-- `tmpfs_create_file`, with the addresses its two calls of `kmalloc_byte` return. -/
def tmpfsCreateFile (s : State) (name : CString) (size newFile data : ℕ) : State where
  dir := addObject s.dir newFile
  objects := Function.update s.objects newFile (.file name size data 0)

/-- The directory `tmpfs_create_directory` makes. Its slots are cleared twice, the second
time as many as the parent has. -/
def newDirectory : TmpfsDirectory := ⟨fun _ => 0, 32, 0⟩

/-- `tmpfs_create_directory`, with the address `kmalloc_byte` returns for the object. -/
def tmpfsCreateDirectory (s : State) (name : CString) (newDir : ℕ) : State where
  dir := addObject s.dir newDir
  objects := Function.update s.objects newDir (.directory name newDirectory)

/-! ### Finding and removing -/

/-- The loop the other functions share: the first slot with an object of this name that
passes a test. -/
def findSlot (s : State) (name : CString) (test : TmpfsObject → Bool) : Option ℕ :=
  (List.range s.dir.maxFiles).find? fun i =>
    decide (s.dir.files i ≠ 0) && (decide (CString.strcmp (s.objects (s.dir.files i)).name name = 0)
      && test (s.objects (s.dir.files i)))

/-- `dir->files[i] = NULL; dir->num_files--;`. -/
def removeSlot (s : State) (i : ℕ) : State :=
  { s with dir := { s.dir with files := Function.update s.dir.files i 0
                               numFiles := s.dir.numFiles - 1 } }

/-- `tmpfs_delete_file`: a file that is in use is not deleted. -/
def tmpfsDeleteFile (s : State) (name : CString) : State :=
  match findSlot s name fun o => o.type = 0 with
  | some i => if (s.objects (s.dir.files i)).openCount ≠ 0 then s else removeSlot s i
  | none => s

/-- `tmpfs_delete_directory`. -/
def tmpfsDeleteDirectory (s : State) (name : CString) : State :=
  match findSlot s name fun o => o.type = 1 with
  | some i => removeSlot s i
  | none => s

/-- `tmpfs_lookup`, `0` being `NULL`. -/
def tmpfsLookup (s : State) (name : CString) : ℕ :=
  match findSlot s name fun _ => true with
  | some i => s.dir.files i
  | none => 0

/-! ### Runs -/

/-- A call, with the addresses that are allocated; or a change of the `open_count` of a
file, by whoever has it open. -/
inductive Event where
  | createFile (name : CString) (size newFile data : ℕ)
  | createDirectory (name : CString) (newDir : ℕ)
  | deleteFile (name : CString)
  | deleteDirectory (name : CString)
  | setOpenCount (file count : ℕ)

/-- A name fits and is not in the directory, and an object is allocated where none of the
directory is. -/
def Creates (s : State) (name : CString) (object : ℕ) : Prop :=
  name.length < 128 ∧ tmpfsLookup s name = 0 ∧ object ≠ 0 ∧
    ∀ i < s.dir.maxFiles, s.dir.files i ≠ object

instance (s : State) (name : CString) (object : ℕ) : Decidable (Creates s name object) :=
  inferInstanceAs (Decidable (_ ∧ _))

def step (s : State) : Event → Option State
  | .createFile name size newFile data =>
    if Creates s name newFile then some (tmpfsCreateFile s name size newFile data) else none
  | .createDirectory name newDir =>
    if Creates s name newDir then some (tmpfsCreateDirectory s name newDir) else none
  | .deleteFile name => some (tmpfsDeleteFile s name)
  | .deleteDirectory name => some (tmpfsDeleteDirectory s name)
  | .setOpenCount file count =>
    some { s with objects := Function.update s.objects file ((s.objects file).setOpenCount count) }

/-! ### A map from names to objects -/

/-- What a directory says about a name: the address of the object, its type and how often
it is open. -/
structure Entry where
  object : ℕ
  type : ℕ
  openCount : ℕ
deriving DecidableEq

/-- **What the operations are for**: those of a finite map. -/
def specStep (m : CString → Option Entry) : Event → CString → Option Entry
  | .createFile name _ newFile _ => Function.update m name (some ⟨newFile, 0, 0⟩)
  | .createDirectory name newDir => Function.update m name (some ⟨newDir, 1, 0⟩)
  | .deleteFile name =>
    if (m name).any fun e => e.type = 0 ∧ e.openCount = 0 then Function.update m name none else m
  | .deleteDirectory name =>
    if (m name).any fun e => e.type = 1 then Function.update m name none else m
  | .setOpenCount file count => fun name =>
    (m name).map fun e => if e.object = file ∧ e.type = 0 then { e with openCount := count } else e

/-- The pointer for an entry of the map. -/
def Entry.pointer : Option Entry → ℕ
  | some e => e.object
  | none => 0

end Tmpfs

end WillowOS
