import WillowOS.Tmpfs.Concurrent
import WillowOS.Tmpfs.Stale

/-!
# At the end of a file, and past it

Three things that happen at the end of a file.

A read there returns `1`, and stores nothing. A program that reads a file chunk by chunk until a
read returns `0` does not come to an end, with any file and any chunk size
(`WillowOS.Tmpfs.not_readsInChunks`).

A write past the end asks for a larger block, and does not look at what it gets. If that is `NULL`,
the old block is freed and the file is left with its new size and no block; or the copy of its bytes
to `NULL` faults. The file is never left as it was (`WillowOS.Tmpfs.not_leavesFile`).

Where a write ends is computed in 64 bits. If `offset + size` wraps around, the file is taken to be
large enough, and the bytes go outside of its block; apart from that, and from a block that was not
allocated, writes stay inside of it, and reads always do
(`WillowOS.Tmpfs.Concurrent.writesInside_iff`).
-/

namespace WillowOS

namespace Tmpfs

open Heap

/-! ### Reading in chunks -/

section Chunks

variable {s : FileState} {data size offset c : ℕ}

/-- What a read stores. -/
theorem mem_tmpfsReadFromFile : (tmpfsReadFromFile s data size offset).2.mem =
    s.mem.memcpy data ((s.file.data + offset) % 2 ^ 64) (readCount s.file size offset) := by
  rw [tmpfsReadFromFile, readCount]
  split_ifs with hend
  · rw [Nat.sub_eq_zero_of_le hend, Nat.zero_min]
    rfl
  · dsimp only
    rw [show min (s.file.size - offset) size =
      if s.file.size - offset > size then size else s.file.size - offset by split_ifs <;> omega]

/-- The loop of a program that reads a file in chunks of `c` bytes: it goes on at the offset plus
what was returned, until that is `0`. The number of turns is bounded. -/
def readLoop (data c : ℕ) : ℕ → FileState → ℕ → Option (List UInt8)
  | 0, _, _ => none
  | n + 1, s, offset =>
    let r := tmpfsReadFromFile s data c offset
    if r.1 = 0 then some []
    else (readLoop data c n r.2 ((offset + r.1) % 2 ^ 64)).map (r.2.mem.bytesAt data r.1 ++ ·)

/-- No read returns `0`. -/
theorem tmpfsReadFromFile_ne_zero (hc : 0 < c) : (tmpfsReadFromFile s data c offset).1 ≠ 0 := by
  rw [tmpfsReadFromFile]
  split_ifs with hend
  · exact Nat.one_ne_zero
  · dsimp only
    split_ifs <;> omega

theorem readLoop_eq_none (hc : 0 < c) (n : ℕ) : readLoop data c n s offset = none := by
  induction n generalizing s offset with
  | zero => rfl
  | succ n ih =>
    rw [readLoop, if_neg (tmpfsReadFromFile_ne_zero hc), ih, Option.map_none]

/-- **Reading in chunks never comes to an end.** For every file, chunk size and buffer, no number
of turns is enough; and the value a read returns is the number of bytes it has stored exactly if it
starts before the end of the file. -/
theorem not_readsInChunks (hc : 0 < c) :
    (∀ n, readLoop data c n s 0 = none) ∧
      ∀ size offset,
        (tmpfsReadFromFile s data size offset).2.mem =
          s.mem.memcpy data ((s.file.data + offset) % 2 ^ 64) (readCount s.file size offset) ∧
        ((tmpfsReadFromFile s data size offset).1 = readCount s.file size offset ↔
          offset < s.file.size) := by
  refine ⟨readLoop_eq_none hc, fun size offset => ⟨mem_tmpfsReadFromFile, ?_⟩⟩
  rw [tmpfsReadFromFile, readCount]
  split_ifs with hend
  · exact iff_of_false (by omega) (by omega)
  · refine iff_of_true ?_ (by omega)
    dsimp only
    split_ifs <;> omega

/-- A file of five bytes, read in chunks of four. -/
theorem not_readsInChunks_fiveBytes :
    (∀ n, readLoop 0x1000 4 n ⟨fun _ => 0, ⟨5, 0x2000⟩⟩ 0 = none) ∧
      (tmpfsReadFromFile ⟨fun _ => 0, ⟨5, 0x2000⟩⟩ 0x1000 4 5).1 ≠ readCount ⟨5, 0x2000⟩ 4 5 := by
  obtain ⟨hloop, hreads⟩ := @not_readsInChunks ⟨fun _ => 0, ⟨5, 0x2000⟩⟩ 0x1000 4 (by decide)
  exact ⟨hloop, fun h => absurd ((hreads 4 5).2.mp h) (by decide)⟩

/-- **The end of an empty file is not seen**: a read returns `1`, and has stored nothing. -/
theorem readsPastEnd_empty :
    (tmpfsReadFromFile ⟨fun _ => 0, ⟨0, 0⟩⟩ 0x1000 4 0).1 = 1 ∧ readCount ⟨0, 0⟩ 4 0 = 0 ∧
      ∀ n, readLoop 0x1000 4 n ⟨fun _ => 0, ⟨0, 0⟩⟩ 0 = none :=
  ⟨rfl, rfl, readLoop_eq_none (by decide)⟩

end Chunks

/-! ### Writing without memory -/

section NoMemory

variable {s : FileHeap} {locked : Bool} {k data size offset : ℕ} {file : TmpfsFile}

/-- An operation on the mutex of a file. -/
inductive MutexOp where
  | acquire
  | release

/-- Whether the mutex is locked after an operation: `acquire_mutex` does not return before it has
stored `1`, and `release_mutex` leaves `0` there in any case. -/
def MutexOp.locks : MutexOp → Bool
  | .acquire => true
  | .release => false

/-- What `tmpfs_write_to_file` does to the mutex: a file without a block is not locked to give it
one, but unlocked all the same. -/
def writeMutexOps (file : TmpfsFile) (newSize : ℕ) : List MutexOp :=
  (if newSize > file.size then (if file.data ≠ 0 then [.acquire] else []) ++ [.release] else []) ++
    [.acquire, .release]

/-- `tmpfs_write_to_file` with the mutex of the file: `none` is a page fault. -/
def lockedWrite (s : FileHeap) (locked : Bool) (k : ℕ) (file : TmpfsFile) (data size offset : ℕ) :
    Option (FileHeap × Bool) :=
  (writeToFile s k file data size offset).map fun t =>
    (t, (writeMutexOps file ((offset + size) % 2 ^ 64)).foldl (fun _ op => op.locks) locked)

/-- **A call leaves the file as it was**: it returns, with the block and the size of the file, its
bytes and its mutex unchanged. -/
def LeavesFile (s : FileHeap) (locked : Bool) (k : ℕ) (file : TmpfsFile) (data size offset : ℕ) :
    Prop :=
  ∃ t, lockedWrite s locked k file data size offset = some (t, locked) ∧
    t.files[k]? = some file ∧ ∀ i < file.size, t.mem (file.data + i) = s.mem (file.data + i)

/-- A file that has grown has the block it was given. -/
theorem tmpfsWriteToFile_file {s : FileState} {newFile : ℕ}
    (hgrow : (offset + size) % 2 ^ 64 > s.file.size) :
    (tmpfsWriteToFile s data size offset newFile).file = ⟨(offset + size) % 2 ^ 64, newFile⟩ := by
  simp only [tmpfsWriteToFile, growFile, if_pos hgrow]

/-- Without memory, the new block is `NULL`. -/
theorem growNodes_null {h h' : List HeapPage} {n q : ℕ} (hgrow : n > file.size)
    (hnull : (kmallocByte h n).1 = 0) (hr : growNodes h file n = some (h', q)) : q = 0 := by
  rw [growNodes, if_pos hgrow] at hr
  dsimp only at hr
  split_ifs at hr
  · obtain ⟨a, -, ha⟩ := Option.map_eq_some_iff.mp hr
    exact (Prod.mk.inj ha).2.symm.trans hnull
  · exact (Prod.mk.inj (Option.some.inj hr)).2.symm.trans hnull

/-- The copy of the bytes of a file to `NULL` is a page fault. -/
theorem growNodes_eq_none {h : List HeapPage} {n : ℕ} (hgrow : n > file.size)
    (hnull : (kmallocByte h n).1 = 0) (hdata : file.data ≠ 0) (hsize : 0 < file.size) :
    growNodes h file n = none := by
  have hfault : ¬InHeap 0 file.size := by
    rintro (h | ⟨h, -⟩)
    · omega
    · exact absurd h (by decide)
  rw [growNodes, if_pos hgrow]
  dsimp only
  rw [if_pos hdata, hnull, if_neg fun h => hfault h.1]

/-- **A write that gets no memory never leaves the file as it was.** If it returns, the file has its
new size and no block; and if the file has bytes, it does not return. -/
theorem not_leavesFile (hk : s.files[k]? = some file)
    (hgrow : (offset + size) % 2 ^ 64 > file.size)
    (hnull : (kmallocByte s.nodes ((offset + size) % 2 ^ 64)).1 = 0) :
    ¬LeavesFile s locked k file data size offset ∧
      (∀ r, lockedWrite s locked k file data size offset = some r →
        r.1.files[k]? = some ⟨(offset + size) % 2 ^ 64, 0⟩) ∧
      (file.data ≠ 0 → 0 < file.size → lockedWrite s locked k file data size offset = none) := by
  have hfile : ∀ r, lockedWrite s locked k file data size offset = some r →
      r.1.files[k]? = some ⟨(offset + size) % 2 ^ 64, 0⟩ := by
    intro r h
    obtain ⟨t, ht, rfl⟩ := Option.map_eq_some_iff.mp h
    obtain ⟨⟨nodes, newFile⟩, hr, ht⟩ := Option.bind_eq_some_iff.mp ht
    obtain ⟨-, ht⟩ := Option.ite_none_right_eq_some.mp ht
    obtain rfl := Option.some.inj ht
    obtain rfl := growNodes_null hgrow hnull hr
    obtain ⟨hlt, -⟩ := List.getElem?_eq_some_iff.mp hk
    dsimp only
    rw [tmpfsWriteToFile_file hgrow, List.getElem?_set_self hlt]
  refine ⟨?_, hfile, fun hdata hsize => ?_⟩
  · -- the size alone tells the two files apart
    rintro ⟨t, h, hkept, -⟩
    have hsame := (hfile _ h).symm.trans hkept
    have hsize : (offset + size) % 2 ^ 64 = file.size :=
      congrArg TmpfsFile.size (Option.some.inj hsame)
    omega
  · rw [lockedWrite, writeToFile, growNodes_eq_none hgrow hnull hdata hsize, Option.bind_none,
      Option.map_none]

/-- A file, and a heap whose two chunks are in use. -/
def fullHeap (file : TmpfsFile) : FileHeap :=
  fileHeap (kmallocByte (List.replicate 2 freePage) 128).2 newDirectory heapStart [file] fun _ => 0

theorem not_leavesFile_fullHeap :
    ¬LeavesFile (fullHeap ⟨64, heapStart⟩) false 0 ⟨64, heapStart⟩ 0x1000 64 64 ∧
      lockedWrite (fullHeap ⟨64, heapStart⟩) false 0 ⟨64, heapStart⟩ 0x1000 64 64 = none := by
  obtain ⟨hleaves, -, hfault⟩ := @not_leavesFile (fullHeap ⟨64, heapStart⟩) false 0 0x1000 64 64
    ⟨64, heapStart⟩ rfl (by decide) (by decide +kernel)
  exact ⟨hleaves, hfault (by decide) (by decide)⟩

/-- **No bytes are written past the end of an empty file**: it is left with a size and no block. -/
theorem not_leavesFile_empty :
    (kmallocByte (fullHeap ⟨0, 0⟩).nodes 10).1 = 0 ∧
      (lockedWrite (fullHeap ⟨0, 0⟩) false 0 ⟨0, 0⟩ 0x1000 0 10).map (·.1.files) =
        some [⟨10, 0⟩] :=
  ⟨rfl, rfl⟩

end NoMemory

/-! ### Indices of the block -/

namespace Concurrent

variable {f : File} {c : Call} {found : Bool} {offset n k : ℕ}

/-- The indices a copy of `n` bytes uses: addresses are computed in 64 bits, and so are the
distances to `file->data`. -/
def indices (offset n : ℕ) : List ℕ := (List.range n).map fun i => (offset + i) % 2 ^ 64

/-- An index is below the length of the block; `NULL` has no bytes. -/
def Below (block : Option DataBlock) (k : ℕ) : Prop := k < block.elim 0 (·.length)

instance (block : Option DataBlock) (k : ℕ) : Decidable (Below block k) :=
  inferInstanceAs (Decidable (_ < _))

/-- The file when `tmpfs_write_to_file` copies the data: `kmalloc_byte` may have returned `NULL`. -/
def File.grown (f : File) (c : Call) (found : Bool) : File :=
  if c.newSize > f.size then if found then f.moved c.newSize else ⟨c.newSize, none⟩ else f

/-- The indices `tmpfs_read_from_file` uses. -/
def readIndices (f : File) (size offset : ℕ) : List ℕ :=
  if offset ≥ f.size then []
  else
    let count := f.size - offset
    indices offset (if count > size then size else count)

theorem forall_mem_indices {P : ℕ → Prop} :
    (∀ k ∈ indices offset n, P k) ↔ ∀ i < n, P ((offset + i) % 2 ^ 64) := by
  simp only [indices, List.forall_mem_map, List.mem_range]

/-- The bytes of a file are in its block. -/
theorem File.HasBlock.below (hf : f.HasBlock) (hk : k < f.size) : Below f.data k := by
  obtain ⟨size, _ | b⟩ := f
  · exact absurd (hf.null rfl) (by dsimp only at hk ⊢; omega)
  · exact hk.trans_le (hf.size_le b rfl)

/-- The file has its block after a growth, unless there was no memory. -/
theorem File.HasBlock.grown (hf : f.HasBlock) (hfound : c.newSize > f.size → found = true) :
    (f.grown c found).HasBlock ∧ c.newSize ≤ (f.grown c found).size := by
  rw [File.grown]
  by_cases hgrow : c.newSize > f.size
  · rw [if_pos hgrow, if_pos (hfound hgrow)]
    refine ⟨⟨nofun, ?_, ?_⟩, le_rfl⟩
    · rintro b ⟨⟩
      exact le_rfl
    · rintro b ⟨⟩
      exact Nat.mod_lt _ (by decide)
  · rw [if_neg hgrow]
    exact ⟨hf, Nat.not_lt.mp hgrow⟩

theorem File.HasBlock.size_lt (hf : f.HasBlock) : f.size < 2 ^ 64 := by
  obtain ⟨size, _ | b⟩ := f
  · exact (hf.null rfl).trans_lt (by decide)
  · exact (hf.size_le b rfl).trans_lt (hf.length_lt b rfl)

/-- No block has the index `2 ^ 64 - 1`. -/
theorem File.HasBlock.not_below (hf : f.HasBlock) : ¬Below f.data (2 ^ 64 - 1) := by
  obtain ⟨size, _ | b⟩ := f
  · exact Nat.not_lt_zero _
  · have := hf.length_lt b rfl
    exact Nat.not_lt.mpr (by dsimp only [Option.elim]; omega)

/-- A file that did not get its block has no index. -/
theorem File.not_below_grown (hgrow : c.newSize > f.size) (hfound : found ≠ true) :
    ¬Below (f.grown c found).data k := by
  rw [File.grown, if_pos hgrow, if_neg hfound]
  exact Nat.not_lt_zero _

/-- When the bytes of a write go to indices of the block, if there are any. -/
theorem below_grown_iff (hf : f.HasBlock) (hsize : 0 < c.size) :
    (∀ i < c.size, Below (f.grown c found).data ((c.offset + i) % 2 ^ 64)) ↔
      c.offset + c.size < 2 ^ 64 ∧ (c.newSize > f.size → found = true) := by
  constructor
  · intro h
    have hfound : c.newSize > f.size → found = true := fun hgrow =>
      by_contra fun hnull => File.not_below_grown hgrow hnull (h 0 hsize)
    refine ⟨by_contra fun hwrap => ?_, hfound⟩
    -- the copy goes through the last address there is
    have hoffset := c.offset_lt
    have hlast := h (2 ^ 64 - 1 - c.offset) (by omega)
    rw [show (c.offset + (2 ^ 64 - 1 - c.offset)) % 2 ^ 64 = 2 ^ 64 - 1 by omega] at hlast
    exact (hf.grown hfound).1.not_below hlast
  · rintro ⟨hend, hfound⟩ i hi
    obtain ⟨hblock, hle⟩ := hf.grown hfound
    rw [Call.newSize, Nat.mod_eq_of_lt hend] at hle
    rw [Nat.mod_eq_of_lt (by omega)]
    exact hblock.below (by omega)

/-- **Where the accesses to a file go.** The data is copied to indices of its block exactly if there
is none, or the end of the write does not wrap around and the block that was asked for was found;
the bytes that are moved, and those that are read, are always at indices of the block. -/
theorem writesInside_iff (hf : f.HasBlock) :
    ((∀ k ∈ indices c.offset c.size, Below (f.grown c found).data k) ↔
      c.size = 0 ∨ c.offset + c.size < 2 ^ 64 ∧ (c.newSize > f.size → found = true)) ∧
    (∀ k ∈ indices 0 f.size, Below f.data k) ∧
    ∀ size offset, ∀ k ∈ readIndices f size offset, Below f.data k := by
  have hlt := hf.size_lt
  simp only [forall_mem_indices]
  refine ⟨?_, fun i hi => ?_, fun size offset => ?_⟩
  · rcases Nat.eq_zero_or_pos c.size with hzero | hpos
    · exact iff_of_true (fun i hi => absurd hi (by omega)) (Or.inl hzero)
    · rw [below_grown_iff hf hpos, or_iff_right hpos.ne']
  · rw [Nat.mod_eq_of_lt (by omega)]
    exact hf.below (by omega)
  · rw [readIndices]
    split_ifs with hend
    · exact fun k hk => absurd hk List.not_mem_nil
    · refine forall_mem_indices.mpr fun i hi => ?_
      have hin : offset + i < f.size := by split_ifs at hi <;> omega
      rw [Nat.mod_eq_of_lt (by omega)]
      exact hf.below hin

/-- A file of eight bytes. -/
def eightBytes : File := ⟨8, some ⟨8, fun _ => none⟩⟩

theorem hasBlock_eightBytes : eightBytes.HasBlock := by
  refine ⟨nofun, ?_, ?_⟩
  · rintro b ⟨⟩
    exact le_rfl
  · rintro b ⟨⟩
    decide

/-- Eight bytes are written to the middle of it. -/
theorem writesInside_iff_eightBytes :
    eightBytes.HasBlock ∧
      ∀ k ∈ indices 4 8, Below (eightBytes.grown ⟨fun _ => 0, 8, 4, by decide⟩ true).data k := by
  have hwrite := @writesInside_iff eightBytes ⟨fun _ => 0, 8, 4, by decide⟩ true hasBlock_eightBytes
  exact ⟨hasBlock_eightBytes, hwrite.1.mpr (Or.inr ⟨by decide, fun _ => rfl⟩)⟩

/-- **The end of a write wraps around**: the four bytes before the block are overwritten. -/
theorem not_writesInside_eightBytes :
    eightBytes.HasBlock ∧ ∃ k ∈ indices (2 ^ 64 - 4) 8,
      ¬Below (eightBytes.grown ⟨fun _ => 0, 8, 2 ^ 64 - 4, by decide⟩ true).data k :=
  ⟨hasBlock_eightBytes, by decide⟩

end Concurrent

end Tmpfs

end WillowOS
