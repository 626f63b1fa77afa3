import WillowOS.Heap.Chunk
import WillowOS.Heap.Disjoint
import WillowOS.Lib.Memory

/-!
# Reallocation

`krealloc_byte` allocates a new block, copies as much as both blocks can hold, and frees the old
one. It looks up the length of the old block at the node its address designates, and leaves the rest
to `kfree`, which walks to the node before that one and never clears the last node of a block. So
the nodes of the old block are not all free afterwards, whatever was copied:
**`WillowOS.Heap.preserves_iff`** says that a call does what it is for exactly when it returns
`NULL` and does nothing.

The state is the heap with the contents of the memory; between the calls the owners of the blocks
may store what they like.
-/

namespace WillowOS

namespace Heap

variable {h h' : List HeapPage} {m : Mem} {size a k n : ℕ}

/-- The number of chunks `kmalloc_byte` asks for. -/
def chunks (size : ℕ) : ℕ := (size + 63) / 64

theorem kmallocByte_eq : kmallocByte h size = kmalloc h (chunks size) := by
  rw [kmallocByte]
  split_ifs with h0 h64 hmod
  · rw [chunks, show (size + 63) / 64 = 0 by omega]
  · rw [chunks, show (size + 63) / 64 = 1 by omega]
  · rw [chunks, show (size + 63) / 64 = size / 64 by omega]
  · rw [chunks, show (size + 63) / 64 = size / 64 + 1 by omega]

/-- `krealloc_byte`: the address returned, the nodes and the memory after the call. It is `none` for
the page fault of walking past the last node. -/
def kreallocByte (h : List HeapPage) (m : Mem) (virtAddress size : ℕ) :
    Option (ℕ × List HeapPage × Mem) :=
  let ret := kmallocByte h size
  if ret.1 = 0 then some (ret.1, ret.2, m)
  else if virtAddress = 0 then some (ret.1, ret.2, m)
  else
    match ret.2[chunkIndex virtAddress]? with
    | none => none
    | some current =>
      let allocLengthNode := current.allocLength
      let m :=
        if allocLengthNode * 64 % 2 ^ 64 ≥ size then m.memcpy ret.1 virtAddress size
        else m.memcpy ret.1 virtAddress (allocLengthNode * 64 % 2 ^ 64)
      (kfree ret.2 virtAddress).map fun h => (ret.1, h, m)

/-! ### Runs -/

/-- A block, and the number of bytes it was obtained with. -/
structure ByteBlock extends Block where
  bytes : ℕ
deriving DecidableEq

/-- The heap, the memory, and the live blocks. -/
structure ByteHeap where
  nodes : List HeapPage
  mem : Mem
  live : List ByteBlock

/-- The calls; or any change of the memory by the owners of the blocks. -/
inductive ByteEvent where
  | kmallocByte (size : ℕ)
  | kreallocByte (virtAddress size : ℕ)
  | kfree (virtAddress : ℕ)
  | store (mem : Mem)

/-- The heap `init_heap` builds, over a memory with any contents. -/
def byteInit (mem : Mem) : ByteHeap := ⟨initHeap, mem, []⟩

/-- The block a request is given, if it succeeds. -/
def newBlock (h : List HeapPage) (size : ℕ) : Option ByteBlock :=
  (kmallocAt h (chunks size)).map fun r => ⟨⟨(kmallocByte h size).1, chunks size, r.1⟩, size⟩

/-- **One call**, on live pointers only; `krealloc_byte` may also be given `NULL`. -/
def byteStep (s : ByteHeap) : ByteEvent → Option ByteHeap
  | .kmallocByte size =>
    some ⟨(kmallocByte s.nodes size).2, s.mem, (newBlock s.nodes size).toList ++ s.live⟩
  | .kreallocByte virtAddress size =>
    if virtAddress = 0 ∨ s.live.any (·.ptr == virtAddress) then
      (kreallocByte s.nodes s.mem virtAddress size).map fun r =>
        ⟨r.2.1, r.2.2, if r.1 = 0 then s.live
          else (newBlock s.nodes size).toList ++ s.live.eraseP (·.ptr == virtAddress)⟩
    else none
  | .kfree virtAddress =>
    if s.live.any (·.ptr == virtAddress) then
      (kfree s.nodes virtAddress).map fun h =>
        ⟨h, s.mem, s.live.eraseP (·.ptr == virtAddress)⟩
    else none
  | .store mem => some { s with mem := mem }

/-! ### What a call is for -/

/-- A block has its contents and its reservation. -/
structure BlockKept (s : ByteHeap) (c : ByteBlock) (h : List HeapPage) (m : Mem) : Prop where
  contents : ∀ i < c.bytes, m (c.ptr + i) = s.mem (c.ptr + i)
  status : ∀ i, c.Marks i → status h i = status s.nodes i
  allocLength : allocLength h c.first = allocLength s.nodes c.first

/-- **What `krealloc_byte` is for.** If it returns a block, the bytes are copied, the other live
blocks are kept and the nodes of the old one are free; if it returns `NULL`, the block is kept. -/
structure Preserved (s : ByteHeap) (b : ByteBlock) (size : ℕ) (r : ℕ × List HeapPage × Mem) :
    Prop where
  copied : r.1 ≠ 0 → ∀ i < min b.bytes size, r.2.2 (r.1 + i) = s.mem (b.ptr + i)
  others : r.1 ≠ 0 → ∀ c ∈ s.live, c ≠ b → BlockKept s c r.2.1 r.2.2
  freed : r.1 ≠ 0 → ∀ i, b.Marks i → Free r.2.1 i
  kept : r.1 = 0 → BlockKept s b r.2.1 r.2.2

/-- A call that comes back does so. -/
def Preserves (s : ByteHeap) (b : ByteBlock) (size : ℕ) : Prop :=
  ∀ r, kreallocByte s.nodes s.mem b.ptr size = some r → Preserved s b size r

/-! ### The invariant -/

/-- A live block: its pointer is that of a chunk, and its last node is never cleared. -/
structure Held (h : List HeapPage) (b : ByteBlock) : Prop where
  pos : 0 < b.len
  pinned : Pinned h (b.first + b.len - 1)
  ptr : ∃ k < heapSize / heapChunkSize, b.ptr = chunkAddr k

theorem Held.later {b : ByteBlock} (hb : Held h b) (hl : Later h h') : Held h' b :=
  ⟨hb.pos, hl.pinned hb.pinned, hb.ptr⟩

/-- After a request the heap is a later one. -/
theorem later_kmallocByte (hg : Good h) (size : ℕ) : Later h (kmallocByte h size).2 := by
  rw [kmallocByte_eq]
  exact later_kmalloc hg

/-- The block a request is given is held. -/
theorem held_newBlock {b : ByteBlock} (hg : Good h) (hb : b ∈ newBlock h size) :
    Held (kmallocByte h size).2 b := by
  obtain ⟨⟨pos, index⟩, hk, rfl⟩ := Option.map_eq_some_iff.mp hb
  obtain ⟨hn, hfirst, hle, -⟩ := kmallocAt_spec hg.reserved.twoValued hk
  rw [kmallocByte_eq]
  refine ⟨hn, pinned_kmalloc_last hg.reserved hk, index, ?_, ?_⟩
  · have := lt_length_of_runAt hn hfirst.1
    rw [← hg.length]
    omega
  · rw [kmalloc_of_some hk]
    rfl

/-- The invariant: a heap as calls leave it, with blocks that are held. -/
structure ByteInv (s : ByteHeap) : Prop where
  good : Good s.nodes
  held : ∀ b ∈ s.live, Held s.nodes b

theorem byteInv_init (mem : Mem) : ByteInv (byteInit mem) :=
  ⟨good_initHeap, fun _ hb => absurd hb List.not_mem_nil⟩

/-- **`krealloc_byte` on the address of a chunk** comes back: with `NULL` and nothing changed, or
with the nodes of a later heap. -/
theorem kreallocByte_cases (hg : Good h) (hk : k < heapSize / heapChunkSize) :
    (kmallocByte h size).1 = 0 ∧ kreallocByte h m (chunkAddr k) size = some (0, h, m) ∨
      (kmallocByte h size).1 ≠ 0 ∧ ∃ h' m', Later (kmallocByte h size).2 h' ∧
        kreallocByte h m (chunkAddr k) size = some ((kmallocByte h size).1, h', m') := by
  by_cases hnull : (kmallocByte h size).1 = 0
  · refine Or.inl ⟨hnull, ?_⟩
    have hsame : kmallocByte h size = (0, h) := by
      rw [kmallocByte_eq] at hnull ⊢
      cases hat : kmallocAt h (chunks size) with
      | none => exact kmalloc_of_none hat
      | some r =>
        rw [kmalloc_of_some hat] at hnull
        exact absurd hnull chunkAddr_ne_zero
    rw [kreallocByte, if_pos hnull, hsame]
  · refine Or.inr ⟨hnull, ?_⟩
    have hl := later_kmallocByte hg size
    obtain ⟨h', hfree, hl', -⟩ := exists_kfree hl.good hk
    have hget : chunkIndex (chunkAddr k) < (kmallocByte h size).2.length := by
      rw [chunkAddr, chunkIndex_heapStart hk, hl.good.length]
      exact hk
    rw [kreallocByte, if_neg hnull, if_neg chunkAddr_ne_zero, List.getElem?_eq_getElem hget]
    dsimp only
    rw [hfree, Option.map_some]
    exact ⟨h', _, hl', rfl⟩

/-- A call keeps the invariant. -/
theorem byteInv_step {s s' : ByteHeap} {e : ByteEvent} (hs : ByteInv s)
    (h : byteStep s e = some s') : ByteInv s' := by
  have hcons : ∀ {size : ℕ} {h' : List HeapPage} {bs : List ByteBlock} {m : Mem},
      Later (kmallocByte s.nodes size).2 h' → (∀ b ∈ bs, b ∈ s.live) →
      ByteInv ⟨h', m, (newBlock s.nodes size).toList ++ bs⟩ := by
    intro size h' bs m hl hbs
    refine ⟨hl.good, fun b hb => ?_⟩
    rcases List.mem_append.mp hb with hb | hb
    · exact (held_newBlock hs.good (Option.mem_toList.mp hb)).later hl
    · exact (hs.held b (hbs b hb)).later ((later_kmallocByte hs.good size).trans hl)
  cases e with
  | kmallocByte size =>
    obtain rfl := Option.some.inj h
    exact hcons ⟨(later_kmallocByte hs.good size).good, id⟩ fun _ hb => hb
  | kreallocByte virtAddress size =>
    rw [byteStep] at h
    split_ifs at h with hlive
    obtain ⟨r, hr, rfl⟩ := Option.map_eq_some_iff.mp h
    by_cases hzero : virtAddress = 0
    · -- a request like any other
      have hrefl : Later (kmallocByte s.nodes size).2 (kmallocByte s.nodes size).2 :=
        ⟨(later_kmallocByte hs.good size).good, id⟩
      rw [kreallocByte, if_pos hzero, ite_self, Option.some.injEq] at hr
      subst hr
      dsimp only
      split_ifs
      · exact ⟨hrefl.good, fun b hb => (hs.held b hb).later (later_kmallocByte hs.good size)⟩
      · exact hcons hrefl fun _ hb => List.mem_of_mem_eraseP hb
    · obtain ⟨b, hb, hptr⟩ := List.any_eq_true.mp (hlive.resolve_left hzero)
      obtain ⟨k, hk, hbk⟩ := (hs.held b hb).ptr
      obtain rfl : chunkAddr k = virtAddress := hbk.symm.trans (beq_iff_eq.mp hptr)
      rcases kreallocByte_cases hs.good hk with ⟨-, heq⟩ | ⟨hne, h', m', hl, heq⟩
      · obtain rfl := Option.some.inj (heq.symm.trans hr)
        exact hs
      · obtain rfl := Option.some.inj (heq.symm.trans hr)
        dsimp only
        rw [if_neg hne]
        exact hcons hl fun _ hb => List.mem_of_mem_eraseP hb
  | kfree virtAddress =>
    rw [byteStep] at h
    split_ifs at h
    obtain ⟨h', hk, rfl⟩ := Option.map_eq_some_iff.mp h
    have hl := later_kfree hs.good hk
    exact ⟨hl.good, fun b hb => (hs.held b (List.mem_of_mem_eraseP hb)).later hl⟩
  | store mem =>
    obtain rfl := Option.some.inj h
    exact ⟨hs.good, hs.held⟩

/-! ### The old block -/

/-- **When `krealloc_byte` does what it is for.** In every state reached by calls on live pointers,
for every live block and every new size, exactly when it returns `NULL`: if it returns a block, the
last node of the old one is still used. -/
theorem preserves_iff {mem : Mem} {es : List ByteEvent} {s : ByteHeap} {b : ByteBlock} (size : ℕ)
    (hrun : es.foldlM byteStep (byteInit mem) = some s) (hb : b ∈ s.live) :
    Preserves s b size ↔ (kmallocByte s.nodes size).1 = 0 := by
  have hs : ByteInv s := run_inv (fun _ _ _ hI h => byteInv_step hI h) (byteInv_init mem) hrun
  have hheld := hs.held b hb
  obtain ⟨k, hk, hptr⟩ := hheld.ptr
  rw [Preserves, hptr]
  rcases kreallocByte_cases (m := s.mem) hs.good hk with ⟨hnull, heq⟩ | ⟨hne, h', m', hl, heq⟩
  · refine iff_of_true (fun r hr => ?_) hnull
    obtain rfl := Option.some.inj (heq.symm.trans hr)
    exact ⟨fun h => absurd rfl h, fun h => absurd rfl h, fun h => absurd rfl h,
      fun _ => ⟨fun _ _ => rfl, fun _ _ => rfl, rfl⟩⟩
  · refine iff_of_false (fun hall => ?_) hne
    have hlater := (later_kmallocByte hs.good size).trans hl
    have hlast : b.Marks (b.first + b.len - 1) := by
      have := hheld.pos
      exact ⟨by omega, by omega⟩
    exact (hlater.pinned hheld.pinned).1.not_free ((hall _ heq).freed hne _ hlast)

/-- A request for more chunks than there are fails. -/
theorem kmallocByte_of_lt (hg : Good h) (hlt : heapSize / heapChunkSize < chunks size) :
    (kmallocByte h size).1 = 0 := by
  rw [kmallocByte_eq]
  cases hat : kmallocAt h (chunks size) with
  | none => rw [kmalloc_of_none hat]
  | some r =>
    obtain ⟨hn, hfirst, -⟩ := kmallocAt_spec hg.reserved.twoValued hat
    have := lt_length_of_runAt hn hfirst.1
    rw [hg.length] at this
    omega

/-- A block of 100 bytes is not moved to one that is larger than the heap. -/
theorem preserves_iff_tooLarge : ∃ s,
    [ByteEvent.kmallocByte 100].foldlM byteStep (byteInit fun _ => 0) = some s ∧
      ⟨⟨heapStart, 2, 0⟩, 100⟩ ∈ s.live ∧ Preserves s ⟨⟨heapStart, 2, 0⟩, 100⟩ (heapSize + 1) := by
  have hrun : [ByteEvent.kmallocByte 100].foldlM byteStep (byteInit fun _ => 0) = some _ := rfl
  have hb : (⟨⟨heapStart, 2, 0⟩, 100⟩ : ByteBlock) ∈
      (newBlock initHeap 100).toList ++ ([] : List ByteBlock) := by decide
  refine ⟨_, hrun, hb, (preserves_iff _ hrun hb).mpr ?_⟩
  exact kmallocByte_of_lt (later_kmallocByte good_initHeap 100).good (by decide)

/-- **A block of one chunk is moved**, and its node is not free again. -/
theorem not_preserves_oneChunk : ∃ s,
    [ByteEvent.kmallocByte 64].foldlM byteStep (byteInit fun _ => 0) = some s ∧
      ⟨⟨heapStart, 1, 0⟩, 64⟩ ∈ s.live ∧ ¬Preserves s ⟨⟨heapStart, 1, 0⟩, 64⟩ 64 := by
  refine ⟨_, rfl, by decide, fun hall => ?_⟩
  have hg := (later_kmallocByte good_initHeap 64).good
  have hheld : Held (kmallocByte initHeap 64).2 ⟨⟨heapStart, 1, 0⟩, 64⟩ :=
    held_newBlock good_initHeap (by decide)
  rcases @kreallocByte_cases _ (fun _ => 0) 64 0 hg (by decide) with
    ⟨hnull, -⟩ | ⟨hne, h', m', hl, heq⟩
  · exact absurd hnull (by decide)
  · have hused := (hl.pinned ((later_kmallocByte hg 64).pinned hheld.pinned)).1
    exact hused.not_free ((hall _ heq).freed hne 0 ⟨by decide, by decide⟩)

end Heap

end WillowOS
