import Mathlib.Data.Finset.Card
import WillowOS.Heap.Reserve

/-!
# Requests of one chunk

Most of what the kernel allocates is at most 64 bytes, one chunk. For such a request the
search of `kmalloc` always keeps step, so the address returned is that of the chunk marked;
and since the only node of the block is its last one, no `kfree` ever clears it again
(`WillowOS.Heap.Pinned`). A chunk once handed out stays with whoever has it, even when it is
freed, or freed twice (`WillowOS.Heap.kmallocByte_cases`, `WillowOS.Heap.exists_kfree`).
-/

namespace WillowOS

namespace Heap

variable {h h' h'' : List HeapPage} {size a i j n : ℕ}

/-- `kmalloc_byte`. -/
def kmallocByte (h : List HeapPage) (size : ℕ) : ℕ × List HeapPage :=
  if size = 0 then kmalloc h 0
  else if size ≤ 64 then kmalloc h 1
  else if size % 64 = 0 then kmalloc h (size / 64)
  else kmalloc h (size / 64 + 1)

/-- The address of a chunk. -/
def chunkAddr (i : ℕ) : ℕ := heapStart + i * heapChunkSize

theorem chunkAddr_injective : Function.Injective chunkAddr := by
  intro i j hij
  simp only [chunkAddr, heapChunkSize] at hij
  omega

theorem chunkAddr_ne_zero : chunkAddr i ≠ 0 := by
  simp only [chunkAddr, heapStart]
  omega

/-- At least `n` chunks are free. -/
def Room (n : ℕ) (h : List HeapPage) : Prop := ∃ S : Finset ℕ, S.card = n ∧ ∀ i ∈ S, Free h i

/-- A heap as calls leave it. -/
structure Good (h : List HeapPage) : Prop where
  reserved : Reserved h
  length : h.length = heapSize / heapChunkSize

theorem good_initHeap : Good initHeap := ⟨reserved_initHeap, List.length_replicate⟩

/-- A heap later on: what is pinned stays so. -/
structure Later (h h' : List HeapPage) : Prop where
  good : Good h'
  pinned : ∀ {i}, Pinned h i → Pinned h' i

theorem Later.trans (h₁ : Later h h') (h₂ : Later h' h'') : Later h h'' :=
  ⟨h₂.good, fun hi => h₂.pinned (h₁.pinned hi)⟩

/-- After any request the heap is a later one. -/
theorem later_kmalloc (hg : Good h) : Later h (kmalloc h size).2 := by
  cases hk : kmallocAt h size with
  | none => rw [kmalloc_of_none hk]; exact ⟨hg, id⟩
  | some r =>
    obtain ⟨pos, index⟩ := r
    exact ⟨⟨hg.reserved.kmalloc hk, length_kmalloc.trans hg.length⟩,
      fun hi => hi.kmalloc hg.reserved hk⟩

/-- After any `kfree` that completes the heap is a later one. -/
theorem later_kfree (hg : Good h) (hk : kfree h a = some h') : Later h h' :=
  ⟨⟨hg.reserved.kfree hk, (length_kfree hk).trans hg.length⟩, fun hi => hi.kfree hk⟩

theorem Room.mono {m : ℕ} (hmn : m ≤ n) (hroom : Room n h) : Room m h := by
  obtain ⟨S, rfl, hfree⟩ := hroom
  obtain ⟨T, hTS, hT⟩ := Finset.exists_subset_card_eq hmn
  exact ⟨T, hT, fun i hi => hfree i (hTS hi)⟩

/-- A chunk handed out: it was free, and from now on it is pinned. -/
structure Taken (h : List HeapPage) (i : ℕ) (h' : List HeapPage) : Prop where
  free : Free h i
  lt : i < heapSize / heapChunkSize
  pinned : Pinned h' i
  later : Later h h'
  room : ∀ {n}, Room (n + 1) h → Room n h'

/-- **A request of one chunk**: there is no room, or a chunk is handed out and its address
is the one returned. -/
theorem kmallocByte_cases (hg : Good h) (size : ℕ) (h0 : size ≠ 0) (h64 : size ≤ 64) :
    ¬Room 1 h ∧ kmallocByte h size = (0, h) ∨
      ∃ i h', kmallocByte h size = (chunkAddr i, h') ∧ Taken h i h' := by
  rw [kmallocByte, if_neg h0, if_pos h64]
  have h2 := hg.reserved.twoValued
  cases hk : kmallocAt h 1 with
  | none =>
    -- a free chunk would be a run of length one
    refine Or.inl ⟨?_, kmalloc_of_none hk⟩
    rintro ⟨S, hS, hfree⟩
    obtain ⟨i, hi⟩ := Finset.card_pos.mp (show 0 < S.card by omega)
    refine not_runAt_of_kmallocAt_none h2 Nat.one_pos hk i fun j hj hjn => ?_
    obtain rfl : j = i := by omega
    exact hfree j hi
  | some r =>
    obtain ⟨pos, index⟩ := r
    obtain ⟨-, hfirst, -, hindex⟩ := kmallocAt_spec h2 hk
    obtain rfl : index = pos := hindex.mpr (Or.inl (by decide))
    have hpos : Free h index := hfirst.1 index le_rfl (by omega)
    refine Or.inr ⟨index, (kmalloc h 1).2, by rw [kmalloc_of_some hk]; rfl, hpos,
      hg.length ▸ lt_length_of_status hpos, pinned_kmalloc_last hg.reserved hk,
      later_kmalloc hg, ?_⟩
    -- the other free chunks are still free
    rintro n ⟨S, hS, hfree⟩
    have hcard : n ≤ (S.erase index).card := by
      have := @Finset.pred_card_le_card_erase _ S index _
      omega
    refine Room.mono hcard ⟨S.erase index, rfl, fun j hj => ?_⟩
    obtain ⟨hne, hjS⟩ := Finset.mem_erase.mp hj
    rw [Free, status_kmalloc h2 hk, if_neg (by omega)]
    exact hfree j hjS

/-- A chunk that is pinned is not the one handed out. -/
theorem Taken.ne (ht : Taken h i h') (hj : Pinned h j) : j ≠ i := by
  rintro rfl
  exact hj.1.not_free ht.free

theorem Pinned.lt (hg : Good h) (hi : Pinned h i) : i < heapSize / heapChunkSize :=
  hg.length ▸ lt_length_of_status hi.1

/-- `kfree` of a chunk of the heap completes, and takes no room. -/
theorem exists_kfree (hg : Good h) (hi : i < heapSize / heapChunkSize) :
    ∃ h', kfree h (chunkAddr i) = some h' ∧ Later h h' ∧ ∀ {n}, Room n h → Room n h' := by
  have hpos : kfreePos (chunkAddr i) < h.length := by
    rw [kfreePos, chunkAddr, chunkIndex_heapStart hi, hg.length]
    omega
  have hget : h[kfreePos (chunkAddr i)]? = some h[kfreePos (chunkAddr i)] :=
    List.getElem?_eq_getElem hpos
  have hlen : allocLength h (kfreePos (chunkAddr i)) = h[kfreePos (chunkAddr i)].allocLength := by
    rw [allocLength, hget]
    rfl
  have hsome : ∃ h', kfree h (chunkAddr i) = some h' := by
    rw [kfree, hget]
    dsimp only
    rw [if_pos]
    · exact ⟨_, rfl⟩
    · by_cases hone : h[kfreePos (chunkAddr i)].allocLength - 1 = 0
      · exact Or.inl hone
      · -- the nodes cleared are reserved, so they exist
        refine Or.inr ?_
        have hused := hg.reserved.used (kfreePos (chunkAddr i))
          (kfreePos (chunkAddr i) + (h[kfreePos (chunkAddr i)].allocLength - 1) - 1)
          (by omega) (by omega)
        rw [List.getElem?_eq_getElem (lt_length_of_status hused)]
        rfl
  obtain ⟨h', hk⟩ := hsome
  refine ⟨h', hk, later_kfree hg hk, ?_⟩
  rintro n ⟨S, hS, hfree⟩
  refine ⟨S, hS, fun j hj => ?_⟩
  have hj := hfree j hj
  rw [Free] at hj ⊢
  rw [status_kfree hk, hj]
  split <;> rfl

end Heap

end WillowOS
