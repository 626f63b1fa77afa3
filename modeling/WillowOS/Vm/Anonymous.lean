import WillowOS.Heap.Realloc
import WillowOS.Tmpfs.Stale
import WillowOS.Vm.Range

/-!
# Anonymous memory

`syscall13` hands a block of the kernel heap to a program: it asks `kmalloc_byte` for the block,
clears it, and makes its pages accessible. It does not look at what `kmalloc_byte` returns, and it
clears 4096 bytes more than it was asked for, while a block is at most 63 bytes longer.

So the call fails when there is no block, the size `0` included, instead of returning an error; it
faults close to the end of the heap; and it clears whatever is in the 4096 bytes behind. Of the
blocks there it leaves none as it was, except for those that are clear already:
**`WillowOS.Vm.allocatesOnly_iff`**.

The page tables are in frames of their own, which the heap does not share.
-/

namespace WillowOS

namespace Vm

open Heap

open Tmpfs (InHeap)

/-- `syscall13`: the value returned, `*pointer`, the heap and the page tables. `memset` outside of
the heap is a page fault. -/
def syscall13 (s : ByteHeap) (tables : Mem) (cr3 size : ℕ) : Option (ℤ × ℕ × ByteHeap × Mem) :=
  let pointer := (kmallocByte s.nodes size).1
  let clear := (size + 4096) % 2 ^ 64
  if InHeap pointer clear then
    some (0, pointer,
      { nodes := (kmallocByte s.nodes size).2
        mem := s.mem.memset pointer 0 clear
        live := (newBlock s.nodes size).toList ++ s.live },
      (changePageMapRange tables cr3 pointer size 7).2)
  else none

/-- **What the call has to do**: it returns an error and changes nothing; or it returns `0` and a
new live block of at least the size asked for, whose bytes are clear, and leaves all bytes of the
other live blocks as they were. -/
def AllocatesOnly (s : ByteHeap) (tables : Mem) (cr3 size : ℕ) : Prop :=
  ∃ ret pointer s' tables', syscall13 s tables cr3 size = some (ret, pointer, s', tables') ∧
    (ret ≠ 0 ∧ s' = s ∧ tables' = tables ∨
      ret = 0 ∧
      (∃ b ∈ newBlock s.nodes size, b ∈ s'.live ∧ b.ptr = pointer ∧
        size ≤ heapChunkSize * b.len) ∧
      (∀ i < size, s'.mem (pointer + i) = 0) ∧
      ∀ c ∈ s.live, ∀ x, c.Contains x → s'.mem x = s.mem x)

variable {h : List HeapPage} {size n : ℕ} {r : ℕ × ℕ}

/-- What is allocated is in the heap. -/
theorem le_length_of_kmallocAt (hk : kmallocAt h n = some r) : n ≤ h.length := by
  rw [kmallocAt, Option.ite_none_left_eq_some] at hk
  obtain ⟨h0, hk⟩ := hk
  have hfinds : Finds h n 0 0 (search n h 0 0) := finds_search (Nat.pos_of_ne_zero h0)
  rw [hk] at hfinds
  obtain ⟨k, -, hfirst, -⟩ := hfinds
  have := hfirst.1.le_length (Nat.pos_of_ne_zero h0)
  omega

/-- There is a new block exactly if the address is not `NULL`. -/
theorem exists_newBlock_iff : (∃ b, newBlock h size = some b) ↔ (kmallocByte h size).1 ≠ 0 := by
  rw [newBlock, kmallocByte_eq]
  rcases hk : kmallocAt h (chunks size) with _ | ⟨pos, index⟩
  · rw [kmalloc_of_none hk]
    exact iff_of_false (fun ⟨b, hb⟩ => absurd hb (Option.some_ne_none b).symm) fun h0 => h0 rfl
  · rw [kmalloc_of_some hk]
    refine iff_of_true ⟨_, rfl⟩ ?_
    show heapStart + index * heapChunkSize ≠ 0
    rw [heapStart]
    omega

/-- A new block is as long as was asked for, which is less than `2 ^ 64`. -/
theorem newBlock_spec {b : ByteBlock} (hlen : h.length = heapSize / heapChunkSize)
    (hb : newBlock h size = some b) :
    b.ptr = (kmallocByte h size).1 ∧ size ≤ heapChunkSize * b.len ∧ size ≤ heapSize := by
  obtain ⟨r, hk, rfl⟩ := Option.map_eq_some_iff.mp hb
  have hle := le_length_of_kmallocAt hk
  rw [hlen, heapSize, heapChunkSize, chunks] at hle
  refine ⟨rfl, ?_, ?_⟩
  · show size ≤ heapChunkSize * chunks size
    rw [heapChunkSize, chunks]
    omega
  · rw [heapSize]
    omega

/-- The number of bytes to clear does not wrap around. -/
theorem newBlock_mod {b : ByteBlock} (hlen : h.length = heapSize / heapChunkSize)
    (hb : newBlock h size = some b) : (size + 4096) % 2 ^ 64 = size + 4096 := by
  have hsize := (newBlock_spec hlen hb).2.2
  rw [heapSize] at hsize
  exact Nat.mod_eq_of_lt (by omega)

/-- What a call that does what it has to has done: it returns no error, ever. -/
theorem AllocatesOnly.cleared {s : ByteHeap} {tables : Mem} {cr3 : ℕ}
    (h : AllocatesOnly s tables cr3 size) :
    (∃ b, newBlock s.nodes size = some b) ∧
      InHeap (kmallocByte s.nodes size).1 ((size + 4096) % 2 ^ 64) ∧
      ∀ c ∈ s.live, ∀ x, c.Contains x →
        s.mem.memset (kmallocByte s.nodes size).1 0 ((size + 4096) % 2 ^ 64) x = s.mem x := by
  obtain ⟨ret, pointer, s', tables', heq, hret⟩ := h
  rw [syscall13, Option.ite_none_right_eq_some] at heq
  obtain ⟨hin, heq⟩ := heq
  simp only [Option.some.injEq, Prod.mk.injEq] at heq
  obtain ⟨rfl, rfl, rfl, rfl⟩ := heq
  obtain ⟨hne, -⟩ | ⟨-, ⟨b, hb, -⟩, -, hothers⟩ := hret
  · exact absurd rfl hne
  · exact ⟨⟨b, hb⟩, hin, hothers⟩

/-- **When anonymous memory is only its own.** There has to be a block, the 4096 bytes behind what
was asked for have to be in the heap, and whatever live blocks have in the bytes that are cleared
has to be clear before. -/
theorem allocatesOnly_iff (s : ByteHeap) (tables : Mem) (cr3 size : ℕ)
    (hlen : s.nodes.length = heapSize / heapChunkSize) :
    AllocatesOnly s tables cr3 size ↔
      (kmallocByte s.nodes size).1 ≠ 0 ∧
      InHeap (kmallocByte s.nodes size).1 (size + 4096) ∧
      ∀ c ∈ s.live, ∀ x, c.Contains x → (kmallocByte s.nodes size).1 ≤ x →
        x < (kmallocByte s.nodes size).1 + (size + 4096) → s.mem x = 0 := by
  constructor
  · intro h
    obtain ⟨⟨b, hb⟩, hin, hothers⟩ := h.cleared
    rw [newBlock_mod hlen hb] at hin hothers
    refine ⟨exists_newBlock_iff.mp ⟨b, hb⟩, hin, fun c hc x hx hle hlt => ?_⟩
    rw [← hothers c hc x hx]
    exact Mem.memset_of_mem hle hlt
  · rintro ⟨h0, hin, hclear⟩
    obtain ⟨b, hb⟩ := exists_newBlock_iff.mpr h0
    obtain ⟨hptr, hlong, -⟩ := newBlock_spec hlen hb
    have hmod := newBlock_mod hlen hb
    refine ⟨0, _, _, _, by rw [syscall13, hmod, if_pos hin],
      Or.inr ⟨rfl, ⟨b, hb, ?_, hptr, hlong⟩, fun i hi => ?_, fun c hc x hx => ?_⟩⟩
    · rw [hb]
      exact List.mem_append_left _ List.mem_cons_self
    · exact Mem.memset_of_mem (Nat.le_add_right _ _) (by omega)
    · by_cases hmem : (kmallocByte s.nodes size).1 ≤ x ∧
        x < (kmallocByte s.nodes size).1 + (size + 4096)
      · exact (Mem.memset_of_mem hmem.1 hmem.2).trans (hclear c hc x hx hmem.1 hmem.2).symm
      · exact Mem.memset_of_notMem hmem

/-- A hundred bytes of a heap with nothing in it. -/
theorem allocatesOnly_iff_byteInit : AllocatesOnly (byteInit fun _ => 0) (fun _ => 0) 0 100 :=
  (allocatesOnly_iff (byteInit fun _ => 0) (fun _ => 0) 0 100 List.length_replicate).mpr
    ⟨by decide, by decide, fun _ hc => absurd hc List.not_mem_nil⟩

/-- A block of 64 bytes, behind one that is freed. -/
def freedBefore : List ByteEvent :=
  [.kmallocByte 128, .kmallocByte 64, .kfree heapStart, .store fun _ => 7]

/-- **The block behind is cleared**: the first chunk is handed out again, and with its 64 bytes the
4096 bytes behind them are cleared. -/
theorem not_allocatesOnly_freedBefore : ∃ s,
    freedBefore.foldlM byteStep (byteInit fun _ => 0) = some s ∧
      ⟨⟨heapStart + 128, 1, 2⟩, 64⟩ ∈ s.live ∧ ¬AllocatesOnly s (fun _ => 0) 0 64 := by
  refine ⟨_, rfl, by decide, ?_⟩
  intro h
  have hkept := h.cleared.2.2 ⟨⟨heapStart + 128, 1, 2⟩, 64⟩ (by decide) (heapStart + 128)
    ⟨by decide, by decide⟩
  exact absurd ((Mem.memset_of_mem (by decide) (by decide)).symm.trans hkept) (by decide)

end Vm

end WillowOS
