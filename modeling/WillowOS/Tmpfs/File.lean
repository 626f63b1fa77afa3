import WillowOS.Lib.Memory
import WillowOS.Lib.Run

/-!
# Files of the temporary file system

A file is a block of the heap and its size. A write inside the file is a copy into the
block; a write that reaches past the end first moves the file to a new block, which the
bytes between the old end and the offset are left as they were found in. A read copies out,
up to the end of the file.

The state is the memory and one file. The block a write allocates is an argument of it, and
is where neither the file nor the caller's buffer is; the buffer, too, is an object of its
own. Between two calls the memory may change in any way outside of the file. After any
such calls, a write and a read do what they are for: **`WillowOS.Tmpfs.tmpfsFile_run`**.

The calls are made one after the other, so that the mutex of the file is free at each of
them.
-/

namespace WillowOS

namespace Tmpfs

/-- A `tmpfs_file_t`, without its header and `open_count`. -/
structure TmpfsFile where
  size : ℕ
  data : ℕ

/-- The memory, and a file. -/
structure FileState where
  mem : Mem
  file : TmpfsFile

namespace FileState

/-- Byte `i` of the file. -/
def byte (s : FileState) (i : ℕ) : UInt8 := s.mem (s.file.data + i)

end FileState

/-! ### The two calls -/

/-- The first half of `tmpfs_write_to_file`: a file that is too small is moved to the new
block. -/
def growFile (s : FileState) (size newFile : ℕ) : FileState :=
  if size > s.file.size then
    { mem := if s.file.data ≠ 0 then s.mem.memcpy newFile s.file.data s.file.size else s.mem
      file := ⟨size, newFile⟩ }
  else s

/-- `tmpfs_write_to_file`, with the address `kmalloc_byte` returns if it is called. -/
def tmpfsWriteToFile (s : FileState) (data size offset newFile : ℕ) : FileState :=
  let s := growFile s ((offset + size) % 2 ^ 64) newFile
  { s with mem := s.mem.memcpy ((s.file.data + offset) % 2 ^ 64) data size }

/-- `tmpfs_read_from_file`. -/
def tmpfsReadFromFile (s : FileState) (data size offset : ℕ) : ℕ × FileState :=
  if offset ≥ s.file.size then (1, s)
  else
    let count := s.file.size - offset
    let count := if count > size then size else count
    (count, { s with mem := s.mem.memcpy data ((s.file.data + offset) % 2 ^ 64) count })

/-! ### Runs -/

/-- Two blocks do not overlap. -/
def Apart (a n b k : ℕ) : Prop := n = 0 ∨ k = 0 ∨ a + n ≤ b ∨ b + k ≤ a

instance (a n b k : ℕ) : Decidable (Apart a n b k) := inferInstanceAs (Decidable (_ ∨ _))

/-- A file has its block: of `size` bytes, and `NULL` only if it has none. -/
def HasBlock (file : TmpfsFile) : Prop :=
  (file.data ≠ 0 ∨ file.size = 0) ∧ file.data + file.size ≤ 2 ^ 64

/-- What is asked of the arguments of a write. -/
def CanWrite (s : FileState) (data size offset newFile : ℕ) : Prop :=
  offset + size < 2 ^ 64 ∧ Apart data size s.file.data s.file.size ∧
    (s.file.size < offset + size →
      newFile ≠ 0 ∧ newFile + (offset + size) ≤ 2 ^ 64 ∧ Apart data size newFile (offset + size) ∧
        Apart s.file.data s.file.size newFile (offset + size))

instance (s : FileState) (data size offset newFile : ℕ) :
    Decidable (CanWrite s data size offset newFile) :=
  inferInstanceAs (Decidable (_ ∧ _))

/-- What is asked of the arguments of a read: the bytes it can copy do not go to the file. -/
def CanRead (s : FileState) (data size offset : ℕ) : Prop :=
  Apart data (min size (s.file.size - offset)) s.file.data s.file.size

instance (s : FileState) (data size offset : ℕ) : Decidable (CanRead s data size offset) :=
  inferInstanceAs (Decidable (Apart ..))

/-- A call; or a change of the memory outside of the file. -/
inductive FileEvent where
  | write (data size offset newFile : ℕ)
  | read (data size offset : ℕ)
  | store (mem : Mem)

def fileStep (s : FileState) : FileEvent → Option FileState
  | .write data size offset newFile =>
    if CanWrite s data size offset newFile then
      some (tmpfsWriteToFile s data size offset newFile)
    else none
  | .read data size offset =>
    if CanRead s data size offset then some (tmpfsReadFromFile s data size offset).2 else none
  | .store mem =>
    if ∀ i < s.file.size, mem (s.file.data + i) = s.byte i then some { s with mem := mem } else none

/-! ### What the calls are for -/

/-- The state after a write: the size, the bytes written and the others. -/
structure Written (s s' : FileState) (data size offset : ℕ) : Prop where
  size_eq : s'.file.size = max s.file.size (offset + size)
  written : ∀ i, offset ≤ i → i < offset + size → s'.byte i = s.mem (data + (i - offset))
  kept : ∀ i < s.file.size, ¬(offset ≤ i ∧ i < offset + size) → s'.byte i = s.byte i

/-- What a read returns, and the state after it: the bytes are copied, and nothing else is
changed. -/
structure ReadOut (s s' : FileState) (data size offset count : ℕ) : Prop where
  count_eq : count = min size (s.file.size - offset)
  copied : ∀ j < count, s'.mem (data + j) = s.byte (offset + j)
  other : ∀ x, ¬(data ≤ x ∧ x < data + count) → s'.mem x = s.mem x
  file_eq : s'.file = s.file
  kept : ∀ i < s.file.size, s'.byte i = s.byte i

section Calls

variable {s : FileState} {data size offset newFile : ℕ}

/-- The file before the copy of a write: it is large enough, and has the bytes it had. The
buffer is not touched. -/
theorem growFile_spec (hs : HasBlock s.file) (h : CanWrite s data size offset newFile) :
    let t := growFile s (offset + size) newFile
    HasBlock t.file ∧ t.file.size = max s.file.size (offset + size) ∧
      Apart data size t.file.data t.file.size ∧ (∀ i < s.file.size, t.byte i = s.byte i) ∧
      ∀ j < size, t.mem (data + j) = s.mem (data + j) := by
  obtain ⟨-, hbuffer, hnew⟩ := h
  intro t
  by_cases hgrow : s.file.size < offset + size
  · have ht : t = ⟨_, ⟨offset + size, newFile⟩⟩ := if_pos hgrow
    obtain ⟨hne, hend, hbuffer', hfile⟩ := hnew hgrow
    rw [ht]
    refine ⟨⟨Or.inl hne, hend⟩, by simp only; omega, hbuffer', fun i hi => ?_, fun j hj => ?_⟩
    · -- a file that has bytes has a block, so they are copied
      have hdata : s.file.data ≠ 0 := hs.1.resolve_right (by omega)
      have happart : newFile + s.file.size ≤ s.file.data ∨ s.file.data + s.file.size ≤ newFile := by
        rcases hfile with h | h | h | h <;> omega
      simp only [FileState.byte, if_pos hdata]
      rw [Mem.memcpy_of_mem happart (by omega) (by omega), Nat.add_sub_cancel_left]
    · simp only
      split_ifs
      · exact Mem.memcpy_of_notMem (by rcases hbuffer' with h | h | h | h <;> omega)
      · rfl
  · have ht : t = s := if_neg hgrow
    rw [ht]
    exact ⟨hs, by omega, hbuffer, fun _ _ => rfl, fun _ _ => rfl⟩

/-- **A write.** -/
theorem written_tmpfsWriteToFile (hs : HasBlock s.file)
    (h : CanWrite s data size offset newFile) :
    Written s (tmpfsWriteToFile s data size offset newFile) data size offset ∧
      HasBlock (tmpfsWriteToFile s data size offset newFile).file := by
  obtain ⟨hblock, hsize, happart, hkept, hbuffer⟩ := growFile_spec hs h
  rw [tmpfsWriteToFile, Nat.mod_eq_of_lt h.1]
  generalize growFile s (offset + size) newFile = t at *
  refine ⟨⟨hsize, fun i h1 h2 => ?_, fun i hi hout => ?_⟩, hblock⟩
  · -- the bytes are inside the block, so that their addresses do not wrap around
    have haddr : (t.file.data + offset) % 2 ^ 64 = t.file.data + offset :=
      Nat.mod_eq_of_lt (by have := hblock.2; omega)
    show t.mem.memcpy _ data size (t.file.data + i) = _
    rw [haddr, Mem.memcpy_of_mem (by rcases happart with h | h | h | h <;> omega) (by omega)
      (by omega), show t.file.data + i - (t.file.data + offset) = i - offset by omega]
    exact hbuffer _ (by omega)
  · show t.mem.memcpy _ data size (t.file.data + i) = _
    rw [← hkept i hi]
    refine Mem.memcpy_of_notMem fun hin => hout ?_
    rcases Nat.eq_zero_or_pos size with hzero | hpos
    · omega
    · have haddr : (t.file.data + offset) % 2 ^ 64 = t.file.data + offset :=
        Nat.mod_eq_of_lt (by have := hblock.2; omega)
      rw [haddr] at hin
      omega

/-- **A read.** -/
theorem readOut_tmpfsReadFromFile (hs : HasBlock s.file) (h : CanRead s data size offset)
    (ho : offset < s.file.size) :
    ReadOut s (tmpfsReadFromFile s data size offset).2 data size offset
      (tmpfsReadFromFile s data size offset).1 := by
  have haddr : (s.file.data + offset) % 2 ^ 64 = s.file.data + offset :=
    Nat.mod_eq_of_lt (by have := hs.2; omega)
  have hcount : (if s.file.size - offset > size then size else s.file.size - offset) =
      min size (s.file.size - offset) := by
    split_ifs <;> omega
  rw [tmpfsReadFromFile, if_neg (not_le.mpr ho), haddr]
  simp only [hcount]
  rw [CanRead] at h
  generalize hn : min size (s.file.size - offset) = n at *
  have hle : offset + n ≤ s.file.size := by omega
  refine ⟨hn.symm, fun j hj => ?_, fun x hx => Mem.memcpy_of_notMem hx, rfl, fun i hi => ?_⟩
  · show s.mem.memcpy data _ n (data + j) = _
    rw [Mem.memcpy_of_mem (by rcases h with h | h | h | h <;> omega) (by omega) (by omega),
      Nat.add_sub_cancel_left, Nat.add_assoc]
    rfl
  · show s.mem.memcpy data _ n (s.file.data + i) = _
    exact Mem.memcpy_of_notMem (by rcases h with h | h | h | h <;> omega)

/-- A read past the end copies nothing. -/
theorem tmpfsReadFromFile_of_le (h : s.file.size ≤ offset) :
    tmpfsReadFromFile s data size offset = (1, s) :=
  if_pos h

end Calls

/-- A step keeps the block of the file. -/
theorem hasBlock_fileStep {s s' : FileState} {e : FileEvent} (hs : HasBlock s.file)
    (h : fileStep s e = some s') : HasBlock s'.file := by
  cases e with
  | write data size offset newFile =>
    rw [fileStep] at h
    split_ifs at h with hc
    obtain rfl := Option.some.inj h
    exact (written_tmpfsWriteToFile hs hc).2
  | read data size offset =>
    rw [fileStep] at h
    split_ifs at h with hc
    obtain rfl := Option.some.inj h
    rcases lt_or_ge offset s.file.size with ho | ho
    · rw [(readOut_tmpfsReadFromFile hs hc ho).file_eq]
      exact hs
    · rw [tmpfsReadFromFile_of_le ho]
      exact hs
  | store mem =>
    rw [fileStep] at h
    split_ifs at h
    obtain rfl := Option.some.inj h
    exact hs

/-- **Positional reads and writes.** After any calls on a file that has its block, a write
makes the file as large as it needs, writes the bytes of the buffer at the offset and keeps
the others; and a read that begins inside the file copies the bytes from the offset on, as
many as are asked for or are left, returns their number and changes nothing else. -/
theorem tmpfsFile_run (s₀ s : FileState) (es : List FileEvent) (hblock : HasBlock s₀.file)
    (h : es.foldlM fileStep s₀ = some s) :
    (∀ data size offset newFile, CanWrite s data size offset newFile →
      Written s (tmpfsWriteToFile s data size offset newFile) data size offset) ∧
      ∀ data size offset, CanRead s data size offset → offset < s.file.size →
        ReadOut s (tmpfsReadFromFile s data size offset).2 data size offset
          (tmpfsReadFromFile s data size offset).1 := by
  have hs : HasBlock s.file :=
    run_inv (I := fun s => HasBlock s.file) (fun _ _ _ hs hstep => hasBlock_fileStep hs hstep)
      hblock h
  exact ⟨fun _ _ _ _ hw => (written_tmpfsWriteToFile hs hw).1,
    fun _ _ _ hr ho => readOut_tmpfsReadFromFile hs hr ho⟩

/-- A file of four bytes, written to inside and past its end, then overlapping its new end
and read to its end. -/
theorem tmpfsFile_run_twoWrites :
    ∃ s, [FileEvent.write 0x9000 2 1 0, .write 0x9100 3 6 0x2000].foldlM fileStep
        ⟨fun x => UInt8.ofNat x, ⟨4, 0x1000⟩⟩ = some s ∧
      (tmpfsWriteToFile s 0x9000 8 4 0x3000).file.size = 12 ∧
      (tmpfsWriteToFile s 0x9000 8 4 0x3000).byte 5 = 1 ∧
      (tmpfsReadFromFile s 0x9000 100 5).1 = 4 := by
  have hrun : [FileEvent.write 0x9000 2 1 0, .write 0x9100 3 6 0x2000].foldlM fileStep
      ⟨fun x => UInt8.ofNat x, ⟨4, 0x1000⟩⟩ = some _ := rfl
  obtain ⟨hwrite, hread⟩ := tmpfsFile_run _ _ _ ⟨by decide, by decide⟩ hrun
  have hw := hwrite 0x9000 8 4 0x3000 (by decide)
  have hr := hread 0x9000 100 5 (by decide) (by decide)
  exact ⟨_, hrun, hw.size_eq, hw.written 5 (by decide) (by decide), hr.count_eq⟩

end Tmpfs

end WillowOS
