import WillowOS.Heap.Realloc
import WillowOS.Lib.Shadow
import WillowOS.Tmpfs.Directory
import WillowOS.Tmpfs.File

/-!
# What the files of the temporary file system reveal

The block of a file comes from `kmalloc_byte`, which does not clear it, and neither do
`tmpfs_create_file` and `tmpfs_write_to_file`: a new file, and the gap that a write past the end
leaves, hold what the chunks held before. The state here is the whole heap, its nodes and its
bytes, with the directory, whose array is reallocated when it is full, and the files in the order
they were created. The `tmpfs_file_t`s and the mutexes are objects of their own, in blocks that are
never freed; the array of the directory is in the memory as well, since it leaves its pointers
behind in a block that is freed.

A *shadow* goes with the memory, and is no part of the source: it is `1` for a byte that is still
what a free chunk held at the start. Two runs of the same calls from memories that differ in such
bytes return the same bytes exactly when the shadow of every byte returned is `0`:
**`WillowOS.Tmpfs.outputs_eq_iff`**.
-/

namespace WillowOS

namespace Tmpfs

open Heap

/-- `sizeof(tmpfs_file_t)`. -/
def sizeofTmpfsFile : ℕ := 1256

/-- `sizeof(mutex_t)`. -/
def sizeofMutex : ℕ := 16

/-- The heap, a directory and its files. -/
structure FileHeap where
  nodes : List HeapPage
  dir : TmpfsDirectory
  /-- The address of the array of the directory. -/
  array : ℕ
  files : List TmpfsFile
  mem : Mem
  shadow : Mem
  /-- What the reads have returned: the value and the bytes in the buffer. -/
  out : List (ℕ × List UInt8)

/-- A call. The file is given by its number in the order of creation, the buffer by its address. -/
inductive FileCall where
  | create (size : ℕ)
  | write (file data size offset : ℕ)
  | read (file data size offset : ℕ)

/-! ### The calls -/

/-- An access to some bytes of a file: outside of the heap, it is a page fault. -/
def InHeap (a n : ℕ) : Prop := n = 0 ∨ heapStart ≤ a ∧ a + n ≤ heapStart + heapSize

instance (a n : ℕ) : Decidable (InHeap a n) := inferInstanceAs (Decidable (_ ∨ _))

/-- The array of the directory is reallocated, and its new slots are cleared. -/
def growArray (s : FileHeap) : Option FileHeap :=
  (kreallocByte s.nodes s.mem s.array (s.dir.maxFiles * 8)).bind fun r =>
    (kreallocByte s.nodes s.shadow s.array (s.dir.maxFiles * 8)).bind fun r' =>
      if r.1 = 0 then none
      else
        let slots := r.1 + (s.dir.maxFiles - 32) * 8
        some { s with nodes := r.2.1, array := r.1, mem := r.2.2.memset slots 0 (32 * 8)
                      shadow := r'.2.2.memset slots 0 (32 * 8) }

/-- `tmpfs_create_file`, with its three requests. The object and the mutex are written to, so that
`NULL` is a page fault; the data block may be `NULL`. -/
def createFile (s : FileHeap) (size : ℕ) : Option FileHeap :=
  let newFile := kmallocByte s.nodes sizeofTmpfsFile
  let mutex := kmallocByte newFile.2 sizeofMutex
  let data := kmallocByte mutex.2 size
  let slot := s.array + freeIndex s.dir * 8
  if newFile.1 = 0 ∨ mutex.1 = 0 then none
  else
    let s' := { s with nodes := data.2, dir := addObject s.dir newFile.1
                       files := s.files ++ [⟨size, data.1⟩]
                       mem := s.mem.write64 slot newFile.1, shadow := s.shadow.memset slot 0 8 }
    if s.dir.numFiles + 1 = s.dir.maxFiles then growArray s' else some s'

/-- The nodes after the first half of `tmpfs_write_to_file`, and the new block: it is requested if
the file is too small, and then the old one is freed. -/
def growNodes (h : List HeapPage) (file : TmpfsFile) (size : ℕ) : Option (List HeapPage × ℕ) :=
  if size > file.size then
    let newFile := kmallocByte h size
    if file.data ≠ 0 then
      if InHeap newFile.1 file.size ∧ InHeap file.data file.size then
        (kfree newFile.2 file.data).map fun h => (h, newFile.1)
      else none
    else some (newFile.2, newFile.1)
  else some (h, file.data)

/-- `tmpfs_write_to_file`. -/
def writeToFile (s : FileHeap) (k : ℕ) (file : TmpfsFile) (data size offset : ℕ) :
    Option FileHeap :=
  (growNodes s.nodes file ((offset + size) % 2 ^ 64)).bind fun r =>
    let t := tmpfsWriteToFile ⟨s.mem, file⟩ data size offset r.2
    if InHeap ((t.file.data + offset) % 2 ^ 64) size then
      some { s with nodes := r.1, files := s.files.set k t.file, mem := t.mem
                    shadow := (tmpfsWriteToFile ⟨s.shadow, file⟩ data size offset r.2).mem }
    else none

/-- The number of bytes `tmpfs_read_from_file` copies. -/
def readCount (file : TmpfsFile) (size offset : ℕ) : ℕ := min (file.size - offset) size

/-- `tmpfs_read_from_file`. -/
def readFromFile (s : FileHeap) (file : TmpfsFile) (data size offset : ℕ) : Option FileHeap :=
  if InHeap ((file.data + offset) % 2 ^ 64) (readCount file size offset) then
    some { s with mem := (tmpfsReadFromFile ⟨s.mem, file⟩ data size offset).2.mem
                  shadow := (tmpfsReadFromFile ⟨s.shadow, file⟩ data size offset).2.mem }
  else none

/-- The state after a call, but for what it returns. -/
def call (s : FileHeap) : FileCall → Option FileHeap
  | .create size => createFile s size
  | .write k data size offset =>
    s.files[k]?.bind fun file => writeToFile s k file data size offset
  | .read k data size offset => s.files[k]?.bind fun file => readFromFile s file data size offset

/-- What a read returns: the value, and where its bytes are. -/
structure Returned where
  value : ℕ
  buffer : ℕ
  count : ℕ

/-- What a call returns, if it is a read. -/
def returned (s : FileHeap) : FileCall → Option Returned
  | .read k data size offset => s.files[k]?.map fun file =>
    ⟨(tmpfsReadFromFile ⟨s.mem, file⟩ data size offset).1, data, readCount file size offset⟩
  | _ => none

/-- The value and the bytes. -/
def Returned.bytes (m : Mem) (r : Returned) : ℕ × List UInt8 :=
  (r.value, m.bytesAt r.buffer r.count)

def callStep (s : FileHeap) (e : FileCall) : Option FileHeap :=
  (call s e).map fun t =>
    { t with out := s.out ++ ((returned s e).map (Returned.bytes t.mem)).toList }

/-! ### Runs from different memories -/

/-- A byte of a free chunk. -/
def FreeByte (h : List HeapPage) (x : ℕ) : Prop :=
  heapStart ≤ x ∧ Free h ((x - heapStart) / heapChunkSize)

instance (h : List HeapPage) (x : ℕ) : Decidable (FreeByte h x) :=
  inferInstanceAs (Decidable (_ ∧ _))

/-- The shadow at the start. -/
def stale (h : List HeapPage) : Mem := fun x => if FreeByte h x then 1 else 0

/-- The start: a heap, a directory and its files, and the contents of the memory. -/
def fileHeap (h : List HeapPage) (dir : TmpfsDirectory) (array : ℕ) (files : List TmpfsFile)
    (mem : Mem) : FileHeap :=
  ⟨h, dir, array, files, mem, stale h, []⟩

/-- The same state, over other contents of the memory. -/
def FileHeap.over (s : FileHeap) (m : Mem) (out : List (ℕ × List UInt8)) : FileHeap :=
  { s with mem := m, out := out }

/-- What the reads of a run return. -/
def outputs (s : FileHeap) (es : List FileCall) : Option (List (ℕ × List UInt8)) :=
  (es.foldlM callStep s).map (·.out)

/-- **The condition**: a read returns no byte that is still what a free chunk held at the start. -/
def ReturnsWritten (s : FileHeap) (e : FileCall) : Prop :=
  ∀ t ∈ call s e, ∀ r ∈ returned s e, ∀ i < r.count, t.shadow (r.buffer + i) = 0

instance (s : FileHeap) (e : FileCall) : Decidable (ReturnsWritten s e) :=
  inferInstanceAs (Decidable (∀ t ∈ call s e, _))

/-! ### What the calls do to the memory -/

section Calls

variable {P : UInt8 → UInt8 → UInt8 → Prop} {s t : FileHeap} {m' : Mem}
  (o' : List (ℕ × List UInt8)) {e : FileCall}

/-- Reallocation does not look at the bytes it copies. -/
theorem kreallocByte_tracks {h h' : List HeapPage} {shadow m n : Mem} {a size q : ℕ}
    (ht : Mem.Tracks P shadow m m') (heq : kreallocByte h m a size = some (q, h', n)) :
    ∃ shadow' n', kreallocByte h shadow a size = some (q, h', shadow') ∧
      kreallocByte h m' a size = some (q, h', n') ∧ Mem.Tracks P shadow' n n' := by
  rw [kreallocByte] at heq
  simp only [kreallocByte]
  split_ifs at heq ⊢ with hnull hzero
  · simp only [Option.some.injEq, Prod.mk.injEq] at heq
    obtain ⟨rfl, rfl, rfl⟩ := heq
    exact ⟨_, _, rfl, rfl, ht⟩
  · simp only [Option.some.injEq, Prod.mk.injEq] at heq
    obtain ⟨rfl, rfl, rfl⟩ := heq
    exact ⟨_, _, rfl, rfl, ht⟩
  · cases hget : (kmallocByte h size).2[chunkIndex a]? with
    | none => simp [hget] at heq
    | some current =>
      rw [hget] at heq
      obtain ⟨h'', hfree, heq⟩ := Option.map_eq_some_iff.mp heq
      simp only [Prod.mk.injEq] at heq
      obtain ⟨rfl, rfl, rfl⟩ := heq
      refine ⟨_, _, by simp only [hfree]; rfl, by simp only [hfree]; rfl, ?_⟩
      split_ifs
      · exact ht.memcpy _ _ _
      · exact ht.memcpy _ _ _

theorem growArray_tracks (hP : ∀ b, P 0 b b) (ht : Mem.Tracks P s.shadow s.mem m')
    (h : growArray s = some t) :
    ∃ n', growArray (s.over m' o') = some (t.over n' o') ∧ Mem.Tracks P t.shadow t.mem n' := by
  obtain ⟨⟨q, h', n⟩, hr, h⟩ := Option.bind_eq_some_iff.mp h
  obtain ⟨shadow', n', hshadow, hother, ht'⟩ := kreallocByte_tracks ht hr
  rw [hshadow, Option.bind_some] at h
  split_ifs at h with hnull
  obtain rfl := Option.some.inj h
  refine ⟨_, ?_, ht'.memset hP _ 0 _⟩
  rw [growArray]
  simp only [FileHeap.over, hother, hshadow, Option.bind_some, if_neg hnull]

theorem growFile_tracks {shadow m : Mem} {file : TmpfsFile} {size newFile : ℕ}
    (ht : Mem.Tracks P shadow m m') :
    Mem.Tracks P (growFile ⟨shadow, file⟩ size newFile).mem (growFile ⟨m, file⟩ size newFile).mem
      (growFile ⟨m', file⟩ size newFile).mem := by
  simp only [growFile]
  split_ifs
  · exact ht.memcpy _ _ _
  · exact ht
  · exact ht

/-- The file after a growth does not depend on the bytes. -/
theorem growFile_file (m m' : Mem) (file : TmpfsFile) (size newFile : ℕ) :
    (growFile ⟨m, file⟩ size newFile).file = (growFile ⟨m', file⟩ size newFile).file := by
  simp only [growFile]
  split_ifs <;> rfl

theorem writeToFile_tracks {k data size offset : ℕ} {file : TmpfsFile}
    (ht : Mem.Tracks P s.shadow s.mem m') (h : writeToFile s k file data size offset = some t) :
    ∃ n', writeToFile (s.over m' o') k file data size offset = some (t.over n' o') ∧
      Mem.Tracks P t.shadow t.mem n' := by
  obtain ⟨⟨nodes, newFile⟩, hr, h⟩ := Option.bind_eq_some_iff.mp h
  obtain ⟨hin, h⟩ := Option.ite_none_right_eq_some.mp h
  obtain rfl := Option.some.inj h
  have hfile := growFile_file s.mem m' file ((offset + size) % 2 ^ 64) newFile
  have hshadow := growFile_file s.mem s.shadow file ((offset + size) % 2 ^ 64) newFile
  refine ⟨(tmpfsWriteToFile ⟨m', file⟩ data size offset newFile).mem, ?_, ?_⟩
  · refine Option.bind_eq_some_iff.mpr ⟨_, hr, ?_⟩
    simp only [tmpfsWriteToFile, hfile] at hin ⊢
    exact if_pos hin
  · simp only [tmpfsWriteToFile, ← hfile, ← hshadow]
    exact (growFile_tracks ht).memcpy _ _ _

theorem readFromFile_tracks {data size offset : ℕ} {file : TmpfsFile}
    (ht : Mem.Tracks P s.shadow s.mem m') (h : readFromFile s file data size offset = some t) :
    ∃ n', readFromFile (s.over m' o') file data size offset = some (t.over n' o') ∧
      Mem.Tracks P t.shadow t.mem n' := by
  rw [readFromFile] at h
  split_ifs at h with hin
  obtain rfl := Option.some.inj h
  refine ⟨(tmpfsReadFromFile ⟨m', file⟩ data size offset).2.mem, ?_, ?_⟩
  · rw [readFromFile, if_pos hin]
    rfl
  · simp only [tmpfsReadFromFile]
    split_ifs
    · exact ht
    · exact ht.memcpy _ _ _
    · exact ht.memcpy _ _ _

theorem createFile_tracks {size : ℕ} (hP : ∀ b, P 0 b b) (ht : Mem.Tracks P s.shadow s.mem m')
    (h : createFile s size = some t) :
    ∃ n', createFile (s.over m' o') size = some (t.over n' o') ∧
      Mem.Tracks P t.shadow t.mem n' := by
  simp only [createFile] at h
  split_ifs at h with hnull hfull
  · obtain ⟨n', heq, ht'⟩ := growArray_tracks o' hP (ht.write64 hP _ _) h
    exact ⟨n', (if_neg hnull).trans ((if_pos hfull).trans heq), ht'⟩
  · obtain rfl := Option.some.inj h
    exact ⟨_, (if_neg hnull).trans (if_neg hfull), ht.write64 hP _ _⟩

/-- **No call looks at the bytes.** Over other contents of the memory it does the same, and the
shadow says of both memories what it said before. -/
theorem call_tracks (hP : ∀ b, P 0 b b) (ht : Mem.Tracks P s.shadow s.mem m')
    (h : call s e = some t) :
    ∃ n', call (s.over m' o') e = some (t.over n' o') ∧ Mem.Tracks P t.shadow t.mem n' := by
  cases e with
  | create size => exact createFile_tracks o' hP ht h
  | write k data size offset =>
    obtain ⟨file, hfile, h⟩ := Option.bind_eq_some_iff.mp h
    obtain ⟨n', heq, ht'⟩ := writeToFile_tracks o' ht h
    exact ⟨n', Option.bind_eq_some_iff.mpr ⟨file, hfile, heq⟩, ht'⟩
  | read k data size offset =>
    obtain ⟨file, hfile, h⟩ := Option.bind_eq_some_iff.mp h
    obtain ⟨n', heq, ht'⟩ := readFromFile_tracks o' ht h
    exact ⟨n', Option.bind_eq_some_iff.mpr ⟨file, hfile, heq⟩, ht'⟩

/-- What is returned, but for the bytes, does not depend on the memory. -/
theorem returned_over : returned (s.over m' o') e = returned s e := by
  cases e with
  | read k data size offset =>
    simp only [returned, FileHeap.over, tmpfsReadFromFile]
    congr 1
    funext file
    split_ifs <;> rfl
  | _ => rfl

end Calls

/-! ### The two directions -/

section Runs

variable {s t : FileHeap} {m m' : Mem} (o' : List (ℕ × List UInt8)) {e : FileCall}
  {es : List FileCall}

/-- The condition does not depend on the bytes. -/
theorem returnsWritten_over (h : ReturnsWritten s e) : ReturnsWritten (s.over m' o') e := by
  intro t ht r hr
  have htracks : Mem.Tracks (fun _ _ _ => True) s.shadow m' s.mem := fun _ => trivial
  obtain ⟨n', heq, -⟩ := call_tracks s.out (fun _ => trivial) htracks ht
  rw [returned_over] at hr
  exact h _ heq r hr

/-- **One step over two memories.** The bytes returned are read where the shadow is known. -/
theorem callStep_over {P : UInt8 → UInt8 → UInt8 → Prop} (hP : ∀ b, P 0 b b)
    (ht : Mem.Tracks P s.shadow s.mem m') (h : callStep s e = some t) :
    ∃ n', callStep (s.over m' o') e =
        some (t.over n' (o' ++ ((returned s e).map (Returned.bytes n')).toList)) ∧
      t.out = s.out ++ ((returned s e).map (Returned.bytes t.mem)).toList ∧
      Mem.Tracks P t.shadow t.mem n' ∧
      (ReturnsWritten s e ↔ ∀ r ∈ returned s e, ∀ i < r.count, t.shadow (r.buffer + i) = 0) := by
  obtain ⟨u, hu, rfl⟩ := Option.map_eq_some_iff.mp h
  obtain ⟨n', heq, ht'⟩ := call_tracks o' hP ht hu
  refine ⟨n', ?_, rfl, ht', fun hw => hw u hu, fun hw v hv => ?_⟩
  · rw [callStep, heq, returned_over]
    rfl
  · obtain rfl := Option.some.inj (hu.symm.trans hv)
    exact hw

/-- What is appended to the outputs of two runs is the same exactly if its bytes are. -/
theorem append_bytes_eq_iff {o o' : List (ℕ × List UInt8)} {r : Option Returned} :
    o ++ (r.map (Returned.bytes m)).toList = o' ++ (r.map (Returned.bytes m')).toList ↔
      o = o' ∧ ∀ x ∈ r, ∀ i < x.count, m (x.buffer + i) = m' (x.buffer + i) := by
  cases r with
  | none => simp
  | some r =>
    simp only [Option.map_some, Option.toList_some, Option.mem_some_iff, forall_eq',
      ← Mem.bytesAt_eq_iff, Returned.bytes]
    refine ⟨fun h => ?_, fun ⟨h1, h2⟩ => by rw [h1, h2]⟩
    obtain ⟨h1, h2⟩ := List.append_inj' h rfl
    exact ⟨h1, by simpa using h2⟩

/-- Under the condition, runs from memories that agree where the shadow is `0` return the same. -/
theorem run_over_of_meets (ht : Mem.Tracks (fun b x y => b = 0 → x = y) s.shadow s.mem m')
    (hw : Meets callStep ReturnsWritten s es) (h : es.foldlM callStep s = some t) :
    ∃ n', es.foldlM callStep (s.over m' s.out) = some (t.over n' t.out) := by
  induction es generalizing s m' with
  | nil =>
    obtain rfl : s = t := by simpa using h
    exact ⟨m', rfl⟩
  | cons e es ih =>
    obtain ⟨u, hu, hrest⟩ := run_cons.mp h
    obtain ⟨n', heq, hout, ht', hiff⟩ := callStep_over s.out (fun _ _ => rfl) ht hu
    obtain ⟨hG, hw⟩ := (meets_cons hu).mp hw
    have hsame : u.out = s.out ++ ((returned s e).map (Returned.bytes n')).toList := by
      rw [hout, append_bytes_eq_iff]
      exact ⟨rfl, fun r hr i hi => ht' _ (hiff.mp hG r hr i hi)⟩
    obtain ⟨n'', hrun⟩ := ih ht' hw hrest
    rw [hsame] at hrun
    exact ⟨n'', run_cons.mpr ⟨_, heq, hrun⟩⟩

/-- Over memories that differ wherever the shadow is not `0`, runs that return the same meet the
condition. -/
theorem meets_of_run_over (ht : Mem.Tracks (fun b x y => b = 0 ↔ x = y) s.shadow s.mem m')
    (h : es.foldlM callStep s = some t) :
    ∃ n' o'', es.foldlM callStep (s.over m' o') = some (t.over n' o'') ∧
      (t.out = o'' ↔ s.out = o' ∧ Meets callStep ReturnsWritten s es) := by
  induction es generalizing s m' o' with
  | nil =>
    obtain rfl : s = t := by simpa using h
    exact ⟨m', o', rfl, (and_iff_left trivial).symm⟩
  | cons e es ih =>
    obtain ⟨u, hu, hrest⟩ := run_cons.mp h
    obtain ⟨n', heq, hout, ht', hiff⟩ := callStep_over o' (fun _ => by simp) ht hu
    obtain ⟨n'', o'', hrun, hsame⟩ := ih _ ht' hrest
    refine ⟨n'', o'', run_cons.mpr ⟨_, heq, hrun⟩, ?_⟩
    rw [hsame, hout, append_bytes_eq_iff, meets_cons hu, and_assoc, hiff]
    simp only [ht' _]

/-- Nor do runs and their conditions look at the bytes. -/
theorem meets_over (m' : Mem) (o' : List (ℕ × List UInt8)) (hw : Meets callStep ReturnsWritten s es)
    (h : es.foldlM callStep s = some t) :
    Meets callStep ReturnsWritten (s.over m' o') es ∧
      ∃ n' o'', es.foldlM callStep (s.over m' o') = some (t.over n' o'') := by
  induction es generalizing s m' o' with
  | nil =>
    obtain rfl : s = t := by simpa using h
    exact ⟨trivial, m', o', rfl⟩
  | cons e es ih =>
    obtain ⟨u, hu, hrest⟩ := run_cons.mp h
    have htracks : Mem.Tracks (fun _ _ _ => True) s.shadow s.mem m' := fun _ => trivial
    obtain ⟨n', heq, -⟩ := callStep_over o' (fun _ => trivial) htracks hu
    obtain ⟨hG, hw⟩ := (meets_cons hu).mp hw
    obtain ⟨hmeets, n'', o'', hrun⟩ := ih _ _ hw hrest
    exact ⟨(meets_cons heq).mpr ⟨returnsWritten_over o' hG, hmeets⟩, n'', o'',
      run_cons.mpr ⟨_, heq, hrun⟩⟩

end Runs

/-- The heap with the array of a new directory in it. -/
def directoryHeap : List HeapPage := (kmallocByte initHeap (32 * 8)).2

/-- A file of 64 bytes is written to, and grown by a write at its end; then it is read. -/
def writtenCalls : List FileCall :=
  [.create 64, .write 0 0x1000 64 0, .write 0 0x1000 16 64, .read 0 0x2000 100 0]

end Tmpfs

end WillowOS
