import WillowOS.Heap.FirstFit

/-!
# Runs of the heap, and what stays reserved

A run of the heap is a sequence of calls of `kmalloc` and of `kfree` on live
pointers. Beside the node list the state carries the live blocks: the pointer
`kmalloc` returned, the length asked for, and the first of the nodes that call
marked – which the code does not keep, and which the pointer need not designate.

The `alloc_length` of a node says which nodes it reserves. Reservations never
overlap, and `kfree` only ever clears nodes of the reservation it lands on
(`WillowOS.Heap.Reserved`), wherever that is. It never clears its *last* node: so
the last node of a block, once marked, is used for ever
(`WillowOS.Heap.Pinned`), and no call of `kfree` undoes a call of `kmalloc`
(`WillowOS.Heap.not_undoes_kmalloc`).
-/

namespace WillowOS

namespace Heap

variable {h h' : List HeapPage} {size pos index a i j : ℕ}

/-! ### Runs -/

/-- A block `kmalloc` returned and that is not freed yet. -/
structure Block where
  /-- The pointer returned. -/
  ptr : ℕ
  /-- The number of chunks asked for. -/
  len : ℕ
  /-- The first of the nodes the call marked. -/
  first : ℕ
deriving DecidableEq

/-- The heap, and its live blocks. -/
structure State where
  nodes : List HeapPage
  live : List Block

/-- The calls. -/
inductive Event
  | kmalloc (size : ℕ)
  | kfree (virtAddress : ℕ)

/-- The heap `init_heap` builds, with nothing allocated. -/
def init : State := ⟨initHeap, []⟩

/-- **One call.** `kfree` is applied to live pointers only. -/
def step (s : State) : Event → Option State
  | .kmalloc size =>
    some ⟨(kmalloc s.nodes size).2, match kmallocAt s.nodes size with
      | none => s.live
      | some (pos, _) => ⟨(kmalloc s.nodes size).1, size, pos⟩ :: s.live⟩
  | .kfree virtAddress =>
    if s.live.any (·.ptr == virtAddress) then
      (kfree s.nodes virtAddress).map fun h => ⟨h, s.live.eraseP (·.ptr == virtAddress)⟩
    else none

/-- **What a call can do**: fail to allocate, allocate, or free a live block. -/
theorem step_cases {s s' : State} {e : Event} (hs : step s e = some s') :
    s' = s ∨
      (∃ size pos index, e = .kmalloc size ∧ kmallocAt s.nodes size = some (pos, index) ∧
        s' = ⟨(kmalloc s.nodes size).2,
          ⟨heapStart + index * heapChunkSize, size, pos⟩ :: s.live⟩) ∨
      ∃ b ∈ s.live, ∃ h', e = .kfree b.ptr ∧ kfree s.nodes b.ptr = some h' ∧
        s' = ⟨h', s.live.eraseP (·.ptr == b.ptr)⟩ := by
  cases e with
  | kmalloc size =>
    rcases hk : kmallocAt s.nodes size with _ | ⟨pos, index⟩
    · rw [step, hk, kmalloc_of_none hk, Option.some.injEq] at hs
      exact Or.inl hs.symm
    · refine Or.inr (Or.inl ⟨size, pos, index, rfl, hk, ?_⟩)
      rw [step, hk, Option.some.injEq] at hs
      rw [← hs, kmalloc_of_some hk]
  | kfree virtAddress =>
    rw [step, Option.ite_none_right_eq_some] at hs
    obtain ⟨hlive, hs⟩ := hs
    obtain ⟨b, hb, hptr⟩ := List.any_eq_true.mp hlive
    obtain rfl : b.ptr = virtAddress := by simpa using hptr
    obtain ⟨h', hk, rfl⟩ := Option.map_eq_some_iff.mp hs
    exact Or.inr (Or.inr ⟨b, hb, h', rfl, hk, rfl⟩)

/-! ### What `kfree` does to the nodes -/

/-- `kfree` clears all but the last of the nodes reserved where it lands. -/
theorem status_kfree (hk : kfree h a = some h') (i : ℕ) :
    status h' i =
      if kfreePos a ≤ i ∧ i + 1 < kfreePos a + allocLength h (kfreePos a) then
        (status h i).map fun _ => 0
      else status h i := by
  rw [kfree] at hk
  rcases hcur : h[kfreePos a]? with _ | current
  · rw [hcur] at hk
    cases hk
  · rw [hcur] at hk
    simp only [Option.ite_none_right_eq_some, Option.some.injEq] at hk
    obtain ⟨-, rfl⟩ := hk
    have hlen : allocLength h (kfreePos a) = current.allocLength := by simp [allocLength, hcur]
    have hin : (kfreePos a ≤ i ∧ i < kfreePos a + (current.allocLength - 1)) ↔
        (kfreePos a ≤ i ∧ i + 1 < kfreePos a + current.allocLength) := by omega
    rw [status_setStatus, status_setAllocLength, hlen]
    simp only [hin]

/-- `kfree` resets the `alloc_length` of the node where it lands. -/
theorem allocLength_kfree (hk : kfree h a = some h') (i : ℕ) :
    allocLength h' i = if i = kfreePos a then 0 else allocLength h i := by
  rw [kfree] at hk
  rcases hcur : h[kfreePos a]? with _ | current
  · rw [hcur] at hk
    cases hk
  · rw [hcur] at hk
    simp only [Option.ite_none_right_eq_some, Option.some.injEq] at hk
    obtain ⟨-, rfl⟩ := hk
    rw [allocLength_setStatus,
      allocLength_setAllocLength (List.getElem?_eq_some_iff.mp hcur).1]

theorem length_kfree (hk : kfree h a = some h') : h'.length = h.length := by
  rw [kfree] at hk
  split at hk
  next => cases hk
  next =>
    simp only [Option.ite_none_right_eq_some, Option.some.injEq] at hk
    obtain ⟨-, rfl⟩ := hk
    simp

/-- The address of a chunk, read back. -/
theorem chunkIndex_heapStart (hi : i < heapSize / heapChunkSize) :
    chunkIndex (heapStart + i * heapChunkSize) = i := by
  simp only [chunkIndex, heapStart, heapSize, heapChunkSize] at hi ⊢
  omega

/-! ### Reservations -/

/-- **Reservations are sound**: the nodes an `alloc_length` covers are used, and
none of them but the first has an `alloc_length` of its own. -/
structure Reserved (h : List HeapPage) : Prop where
  twoValued : TwoValued h
  used : ∀ j i, j ≤ i → i < j + allocLength h j → Used h i
  apart : ∀ j i, j < i → i < j + allocLength h j → allocLength h i = 0

/-- No node is covered by two reservations. -/
theorem Reserved.unique (hr : Reserved h) {k : ℕ} (hj : j ≤ i) (hji : i < j + allocLength h j)
    (hk : k ≤ i) (hki : i < k + allocLength h k) : j = k := by
  rcases lt_trichotomy j k with hlt | heq | hgt
  · have := hr.apart j k hlt (by omega)
    omega
  · exact heq
  · have := hr.apart k j hgt (by omega)
    omega

/-- A free node has no reservation. -/
theorem Reserved.allocLength_eq_zero (hr : Reserved h) (hf : Free h i) : allocLength h i = 0 := by
  by_contra hne
  exact (hr.used i i le_rfl (by omega)).not_free hf

theorem reserved_initHeap : Reserved initHeap := by
  have hlen : ∀ j, allocLength initHeap j = 0 := by
    intro j
    rw [allocLength, initHeap, List.getElem?_replicate]
    split <;> rfl
  refine ⟨fun p hp => ?_, fun j i hj hi => ?_, fun j i hj hi => ?_⟩
  · obtain rfl := List.eq_of_mem_replicate hp
    exact Or.inl rfl
  · rw [hlen] at hi
    omega
  · rw [hlen] at hi
    omega

/-- An allocation keeps reservations sound: it takes free nodes, which no other
reservation covers. -/
theorem Reserved.kmalloc (hr : Reserved h) (hk : kmallocAt h size = some (pos, index)) :
    Reserved (kmalloc h size).2 := by
  obtain ⟨hn, hfirst, -⟩ := kmallocAt_spec hr.twoValued hk
  have hst := status_kmalloc hr.twoValued hk
  have hal := allocLength_kmalloc hr.twoValued hk
  refine ⟨twoValued_iff.mpr fun i v hv => ?_, fun j i hj hi => ?_, fun j i hj hi => ?_⟩
  · rw [hst] at hv
    split at hv
    · exact Or.inr (Option.some.inj hv).symm
    · exact twoValued_iff.mp hr.twoValued i v hv
  · rw [hal] at hi
    rw [Used, hst]
    split
    next => rfl
    next hout =>
      split at hi
      next heq => exact absurd ⟨by omega, by omega⟩ hout
      next => exact hr.used j i hj hi
  · rw [hal] at hi ⊢
    split at hi
    next heq =>
      rw [if_neg (by omega)]
      exact hr.allocLength_eq_zero (hfirst.1 i (by omega) (by omega))
    next =>
      have hi0 := hr.apart j i hj hi
      have hused := hr.used j i (by omega) hi
      rw [if_neg fun heq => hused.not_free (hfirst.1 i (by omega) (by omega))]
      exact hi0

/-- `kfree` keeps reservations sound, wherever it lands. -/
theorem Reserved.kfree (hr : Reserved h) (hk : kfree h a = some h') : Reserved h' := by
  have hst := status_kfree hk
  have hal := allocLength_kfree hk
  refine ⟨twoValued_iff.mpr fun i v hv => ?_, fun j i hj hi => ?_, fun j i hj hi => ?_⟩
  · rw [hst] at hv
    split at hv
    · obtain ⟨-, -, rfl⟩ := Option.map_eq_some_iff.mp hv
      exact Or.inl rfl
    · exact twoValued_iff.mp hr.twoValued i v hv
  · rw [hal] at hi
    split at hi
    next => omega
    next hne =>
      rw [Used, hst, if_neg fun hin => hne (hr.unique hj hi hin.1 (by omega))]
      exact hr.used j i hj hi
  · rw [hal] at hi ⊢
    split at hi
    next => omega
    next =>
      split
      next => rfl
      next => exact hr.apart j i hj hi

/-! ### The last node of a block is never released -/

/-- A node that no call of `kfree` can clear: a used one that is the last node of
the reservation covering it, if there is one. -/
def Pinned (h : List HeapPage) (i : ℕ) : Prop :=
  Used h i ∧ ∀ j ≤ i, i < j + allocLength h j → i + 1 = j + allocLength h j

/-- An allocation pins the last node of its run. -/
theorem pinned_kmalloc_last (hr : Reserved h) (hk : kmallocAt h size = some (pos, index)) :
    Pinned (kmalloc h size).2 (pos + size - 1) := by
  obtain ⟨hn, -⟩ := kmallocAt_spec hr.twoValued hk
  have hr' := hr.kmalloc hk
  have hpos : allocLength (kmalloc h size).2 pos = size := by
    rw [allocLength_kmalloc hr.twoValued hk, if_pos rfl]
  refine ⟨hr'.used pos _ (by omega) (by omega), fun j hj hji => ?_⟩
  obtain rfl : j = pos := hr'.unique hj hji (by omega) (by omega)
  omega

/-- An allocation keeps a node pinned. -/
theorem Pinned.kmalloc (hp : Pinned h i) (hr : Reserved h)
    (hk : kmallocAt h size = some (pos, index)) : Pinned (kmalloc h size).2 i := by
  obtain ⟨-, hfirst, -⟩ := kmallocAt_spec hr.twoValued hk
  have hout : ¬(pos ≤ i ∧ i < pos + size) :=
    fun hin => hp.1.not_free (hfirst.1 i hin.1 hin.2)
  refine ⟨?_, fun j hj hji => ?_⟩
  · rw [Used, status_kmalloc hr.twoValued hk, if_neg hout]
    exact hp.1
  · rw [allocLength_kmalloc hr.twoValued hk] at hji ⊢
    split at hji
    next => exact absurd ⟨by omega, by omega⟩ hout
    next hne =>
      rw [if_neg hne]
      exact hp.2 j hj hji

/-- `kfree` keeps a node pinned, whatever pointer it is given. -/
theorem Pinned.kfree (hp : Pinned h i) (hk : kfree h a = some h') : Pinned h' i := by
  refine ⟨?_, fun j hj hji => ?_⟩
  · rw [Used, status_kfree hk, if_neg fun hin => ?_]
    · exact hp.1
    · have := hp.2 _ hin.1 (by omega)
      omega
  · rw [allocLength_kfree hk] at hji ⊢
    split at hji
    next => omega
    next hne =>
      rw [if_neg hne]
      exact hp.2 j hj hji

/-- The invariant of a run: sound reservations, and every live block has its last
node pinned. -/
def Inv (s : State) : Prop :=
  Reserved s.nodes ∧ ∀ b ∈ s.live, 0 < b.len ∧ Pinned s.nodes (b.first + b.len - 1)

theorem inv_init : Inv init :=
  ⟨reserved_initHeap, fun _ hb => absurd hb List.not_mem_nil⟩

theorem inv_step {s s' : State} {e : Event} (hs : Inv s) (h : step s e = some s') : Inv s' := by
  obtain ⟨hr, hlive⟩ := hs
  rcases step_cases h with rfl | ⟨size, pos, index, -, hk, rfl⟩ | ⟨b, -, h', -, hk, rfl⟩
  · exact ⟨hr, hlive⟩
  · refine ⟨hr.kmalloc hk, fun b hb => ?_⟩
    rcases List.mem_cons.mp hb with rfl | hb
    · exact ⟨(kmallocAt_spec hr.twoValued hk).1, pinned_kmalloc_last hr hk⟩
    · exact ⟨(hlive b hb).1, (hlive b hb).2.kmalloc hr hk⟩
  · refine ⟨hr.kfree hk, fun c hc => ?_⟩
    have hc' := List.mem_of_mem_eraseP hc
    exact ⟨(hlive c hc').1, (hlive c hc').2.kfree hk⟩

/-- The invariant holds all along every run. -/
theorem inv_run {es : List Event} {s : State} (h : es.foldlM step init = some s) : Inv s :=
  run_inv (I := Inv) (fun _ _ _ hI h => inv_step hI h) inv_init h

/-! ### `kfree` against `kmalloc` -/

/-- **`kfree` undoes the call of `kmalloc` that returned the block**: the nodes that
call marked are free, the first of them has its `alloc_length` reset, and nothing
else is changed. -/
def Undoes (h : List HeapPage) (b : Block) (h' : List HeapPage) : Prop :=
  (∀ i, b.first ≤ i → i < b.first + b.len → Free h' i) ∧
    allocLength h' b.first = 0 ∧
    (∀ i, i < b.first ∨ b.first + b.len ≤ i → status h' i = status h i) ∧
    ∀ i, i ≠ b.first → allocLength h' i = allocLength h i

/-- A block whose last node is pinned is not undone. -/
theorem not_undoes_of_pinned {b : Block} (hlen : 0 < b.len)
    (hp : Pinned h (b.first + b.len - 1)) (hk : kfree h a = some h') : ¬Undoes h b h' :=
  fun hu => (hp.kfree hk).1.not_free (hu.1 _ (by omega) (by omega))

/-- **No call of `kfree` undoes a call of `kmalloc`.** In every state a run reaches
and for every live block, `kfree` of its pointer leaves a node of the block used; and
`kfree` right after a `kmalloc` that succeeded does not restore the nodes. -/
theorem not_undoes_kmalloc {es : List Event} {s : State} (h : es.foldlM step init = some s) :
    (∀ b ∈ s.live, ¬∃ h', kfree s.nodes b.ptr = some h' ∧ Undoes s.nodes b h') ∧
      ∀ size, (kmalloc s.nodes size).1 ≠ 0 →
        ¬∃ h', kfree (kmalloc s.nodes size).2 (kmalloc s.nodes size).1 = some h' ∧
          ∀ i, status h' i = status s.nodes i ∧ allocLength h' i = allocLength s.nodes i := by
  obtain ⟨hr, hlive⟩ := inv_run h
  refine ⟨fun b hb => ?_, fun size hnull => ?_⟩
  · rintro ⟨h', hk, hu⟩
    exact not_undoes_of_pinned (hlive b hb).1 (hlive b hb).2 hk hu
  · rintro ⟨h', hk', hsame⟩
    rcases hk : kmallocAt s.nodes size with _ | ⟨pos, index⟩
    · exact hnull (by rw [kmalloc_of_none hk])
    · -- the last node was free before the allocation, and is used after `kfree`
      obtain ⟨hn, hfirst, -⟩ := kmallocAt_spec hr.twoValued hk
      have hused := ((pinned_kmalloc_last hr hk).kfree hk').1
      refine hused.not_free ((hsame _).1.trans (hfirst.1 _ (by omega) (by omega)))

/-- A run with three live blocks, the middle one at position `2`. -/
def threeBlocks : List Event := [.kmalloc 2, .kmalloc 3, .kmalloc 1]

theorem not_undoes_kmalloc_threeBlocks :
    ∃ s, threeBlocks.foldlM step init = some s ∧ ⟨heapStart + 2 * 64, 3, 2⟩ ∈ s.live ∧
      ¬∃ h', kfree s.nodes (heapStart + 2 * 64) = some h' ∧
        Undoes s.nodes ⟨heapStart + 2 * 64, 3, 2⟩ h' := by
  refine ⟨_, rfl, by decide, ?_⟩
  exact (@not_undoes_kmalloc threeBlocks _ rfl).1 ⟨heapStart + 2 * 64, 3, 2⟩ (by decide)

/-- **Freeing the first block of one chunk leaves its node used.** -/
theorem not_forall_undoes :
    ¬∀ (es : List Event) (s : State), es.foldlM step init = some s →
      ∀ b ∈ s.live, ∃ h', kfree s.nodes b.ptr = some h' ∧ Undoes s.nodes b h' := by
  intro hall
  obtain ⟨h', hk, hfree, -⟩ := hall [.kmalloc 1] _ rfl ⟨heapStart, 1, 0⟩ (by decide)
  have hnode : status h' 0 = some 1 := by
    rw [status_kfree hk]
    decide
  exact absurd (hfree 0 (by decide) (by decide)) (Used.not_free hnode)

end Heap

end WillowOS
