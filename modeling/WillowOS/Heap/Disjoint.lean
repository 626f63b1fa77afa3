import WillowOS.Heap.Reserve
import Mathlib.Data.List.Pairwise
import Mathlib.Tactic.IntervalCases

/-!
# When live blocks do not overlap

The addresses `kmalloc` returns designate the nodes it marks as long as its search
keeps step: every request is for at most two chunks, or finds no free node before
the run it takes (`WillowOS.Heap.KeepsStep`). In a run that meets this condition
the live blocks are disjoint and inside the heap
(`WillowOS.Heap.disjoint_of_meets`), and this although `kfree` goes wrong on every
block: landing one node before its block, it finds there no reservation it could
clear, so that it releases nothing but the block at the start of the heap, and of
that one never the last node.

Without the condition two live blocks can have the same address
(`WillowOS.Heap.not_disjoint_of_gap`).
-/

namespace WillowOS

namespace Heap

variable {h h' : List HeapPage} {size pos index a i j : ℕ}

/-! ### Blocks, as nodes and as addresses -/

/-- A block contains an address: those of the `64 * len` bytes from its pointer on. -/
def Block.Contains (b : Block) (x : ℕ) : Prop :=
  b.ptr ≤ x ∧ x < b.ptr + heapChunkSize * b.len

/-- A block has marked a node. -/
def Block.Marks (b : Block) (i : ℕ) : Prop := b.first ≤ i ∧ i < b.first + b.len

/-- The two blocks share no address. -/
def Block.Disjoint (b c : Block) : Prop := ∀ x, ¬(b.Contains x ∧ c.Contains x)

/-- The block lies in the heap. -/
def Block.Inside (b : Block) : Prop :=
  heapStart ≤ b.ptr ∧ b.ptr + heapChunkSize * b.len ≤ heapStart + heapSize

/-- **The condition on a call**: the search of `kmalloc` keeps step with the run it
takes. -/
def KeepsStep (s : State) : Event → Prop
  | .kmalloc size => ∀ k, FirstRun (Free s.nodes) size k → InStep s.nodes size k
  | .kfree _ => True

/-- An element left by erasing the first one of a kind is not of that kind, when no
two are. -/
theorem not_of_mem_eraseP {α : Type*} {p : α → Bool} {l : List α}
    (hl : l.Pairwise fun a b => ¬(p a = true ∧ p b = true)) {c : α} (hc : c ∈ l.eraseP p) :
    ¬p c = true := by
  induction l with
  | nil => exact absurd hc List.not_mem_nil
  | cons a l ih =>
    obtain ⟨ha, hl⟩ := List.pairwise_cons.mp hl
    by_cases hpa : p a = true
    · rw [List.eraseP_cons_of_pos hpa] at hc
      exact fun hpc => ha c hc ⟨hpa, hpc⟩
    · rw [List.eraseP_cons_of_neg hpa] at hc
      rcases List.mem_cons.mp hc with rfl | hc
      · exact hpa
      · exact ih hl hc

/-! ### The invariant of a run that keeps step -/

/-- **The invariant of a block**: its pointer designates the nodes it marked, they
are used, and no reservation but its own covers them. -/
structure Placed (h : List HeapPage) (b : Block) : Prop where
  ptr : b.ptr = heapStart + b.first * heapChunkSize
  pos : 0 < b.len
  used : ∀ i, b.Marks i → Used h i
  own : ∀ i, b.Marks i → ∀ j ≤ i, i < j + allocLength h j → j = b.first

/-- A placed block marks nodes of the list. -/
theorem Placed.lt_length {b : Block} (hb : Placed h b) (hi : b.Marks i) : i < h.length :=
  lt_length_of_status (hb.used i hi)

theorem Placed.marks_first {b : Block} (hb : Placed h b) : b.Marks b.first :=
  ⟨le_rfl, by have := hb.pos; omega⟩

/-- An allocation leaves a placed block placed. -/
theorem Placed.kmalloc {b : Block} (hb : Placed h b) (hr : Reserved h)
    (hk : kmallocAt h size = some (pos, index)) : Placed (kmalloc h size).2 b := by
  obtain ⟨-, hfirst, -⟩ := kmallocAt_spec hr.twoValued hk
  have hout : ∀ i, b.Marks i → ¬(pos ≤ i ∧ i < pos + size) :=
    fun i hi hin => (hb.used i hi).not_free (hfirst.1 i hin.1 hin.2)
  refine ⟨hb.ptr, hb.pos, fun i hi => ?_, fun i hi j hj hji => ?_⟩
  · rw [Used, status_kmalloc hr.twoValued hk, if_neg (hout i hi)]
    exact hb.used i hi
  · rw [allocLength_kmalloc hr.twoValued hk] at hji
    split at hji
    next heq => exact absurd ⟨by omega, by omega⟩ (hout i hi)
    next => exact hb.own i hi j hj hji

/-- The block an allocation returns is placed, when the search has kept step. -/
theorem placed_kmalloc (hr : Reserved h) (hk : kmallocAt h size = some (pos, index))
    (hstep : InStep h size pos) :
    Placed (kmalloc h size).2 ⟨heapStart + index * heapChunkSize, size, pos⟩ := by
  obtain ⟨hn, -, -, hindex⟩ := kmallocAt_spec hr.twoValued hk
  have hr' := hr.kmalloc hk
  have hlen : allocLength (kmalloc h size).2 pos = size := by
    rw [allocLength_kmalloc hr.twoValued hk, if_pos rfl]
  refine ⟨by rw [hindex.mpr hstep], hn, fun i hi => ?_, fun i hi j hj hji => ?_⟩
  · exact hr'.used pos i hi.1 (by rw [hlen]; exact hi.2)
  · exact hr'.unique hj hji hi.1 (by rw [hlen]; exact hi.2)

/-- `kfree` of a placed block clears no node that another placed block marked. -/
theorem Placed.kfree {b c : Block} (hb : Placed h b) (hc : Placed h c)
    (hbc : ∀ i, ¬(b.Marks i ∧ c.Marks i)) (hlen : h.length = heapSize / heapChunkSize)
    (hk : kfree h b.ptr = some h') : Placed h' c := by
  have hpos : kfreePos b.ptr = b.first - 1 := by
    rw [kfreePos, hb.ptr, chunkIndex_heapStart]
    rw [← hlen]
    exact hb.lt_length hb.marks_first
  refine ⟨hc.ptr, hc.pos, fun i hi => ?_, fun i hi j hj hji => ?_⟩
  · rw [Used, status_kfree hk, if_neg fun hin => ?_]
    · exact hc.used i hi
    · rw [hpos] at hin
      rcases Nat.eq_zero_or_pos b.first with h0 | h1
      · -- `kfree` lands on the block, and the reservation there is not that of `c`
        have howner := hc.own i hi _ hin.1 (by omega)
        have heq : b.first = c.first := by omega
        exact hbc b.first ⟨hb.marks_first, heq ▸ hc.marks_first⟩
      · -- `kfree` lands before the block, where a reservation of two would cover it
        have howner := hb.own b.first hb.marks_first (b.first - 1) (by omega) (by omega)
        omega
  · rw [allocLength_kfree hk] at hji
    split at hji
    next => omega
    next => exact hc.own i hi j hj hji

/-- **The invariant of a run that keeps step**: sound reservations, and live blocks
that are placed and mark no node in common. -/
structure Tidy (s : State) : Prop where
  reserved : Reserved s.nodes
  length : s.nodes.length = heapSize / heapChunkSize
  placed : ∀ b ∈ s.live, Placed s.nodes b
  apart : s.live.Pairwise fun b c => ∀ i, ¬(b.Marks i ∧ c.Marks i)

theorem tidy_init : Tidy init where
  reserved := reserved_initHeap
  length := List.length_replicate
  placed := fun _ hb => absurd hb List.not_mem_nil
  apart := List.Pairwise.nil

/-- A call that keeps step keeps the invariant. -/
theorem tidy_step {s s' : State} {e : Event} (hs : Tidy s) (hG : KeepsStep s e)
    (h : step s e = some s') : Tidy s' := by
  rcases step_cases h with rfl | ⟨size, pos, index, rfl, hk, rfl⟩ | ⟨b, hb, h', -, hk, rfl⟩
  · exact hs
  · obtain ⟨hn, hfirst, -⟩ := kmallocAt_spec hs.reserved.twoValued hk
    refine ⟨hs.reserved.kmalloc hk, length_kmalloc.trans hs.length, fun b hb => ?_,
      List.pairwise_cons.mpr ⟨fun c hc i hi => ?_, hs.apart⟩⟩
    · rcases List.mem_cons.mp hb with rfl | hb
      · exact placed_kmalloc hs.reserved hk (hG pos hfirst)
      · exact (hs.placed b hb).kmalloc hs.reserved hk
    · -- a node of the new run was free, a node of a live block is used
      exact ((hs.placed c hc).used i hi.2).not_free (hfirst.1 i hi.1.1 hi.1.2)
  · have hptr : s.live.Pairwise fun c d =>
        ¬((c.ptr == b.ptr) = true ∧ (d.ptr == b.ptr) = true) := by
      refine hs.apart.imp_of_mem fun {c d} hc hd hcd ⟨hcp, hdp⟩ => ?_
      have hfirst : c.first = d.first := by
        have h1 := (hs.placed c hc).ptr
        have h2 := (hs.placed d hd).ptr
        rw [beq_iff_eq] at hcp hdp
        simp only [heapChunkSize] at h1 h2
        omega
      exact hcd c.first ⟨(hs.placed c hc).marks_first, hfirst ▸ (hs.placed d hd).marks_first⟩
    refine ⟨hs.reserved.kfree hk, (length_kfree hk).trans hs.length, fun c hc => ?_,
      hs.apart.sublist List.eraseP_sublist⟩
    have hcl := List.mem_of_mem_eraseP hc
    have hne : c ≠ b := by
      rintro rfl
      exact not_of_mem_eraseP hptr hc (by simp)
    refine (hs.placed b hb).kfree (hs.placed c hcl) (fun i hi => ?_) hs.length hk
    have hsymm : Std.Symm fun b c : Block => ∀ i, ¬(b.Marks i ∧ c.Marks i) :=
      ⟨fun _ _ h i hi => h i hi.symm⟩
    exact hs.apart.forall hb hcl hne.symm i hi

/-! ### Disjointness -/

/-- Placed blocks that mark no node in common share no address. -/
theorem Placed.disjoint {b c : Block} (hb : Placed h b) (hc : Placed h c)
    (hbc : ∀ i, ¬(b.Marks i ∧ c.Marks i)) : b.Disjoint c := by
  rintro x ⟨⟨hb1, hb2⟩, hc1, hc2⟩
  have h1 := hb.ptr
  have h2 := hc.ptr
  simp only [heapChunkSize] at h1 h2 hb2 hc2
  refine hbc ((x - heapStart) / 64) ⟨⟨?_, ?_⟩, ?_, ?_⟩ <;> omega

/-- A placed block lies in the heap. -/
theorem Placed.inside {b : Block} (hb : Placed h b) (hlen : h.length = heapSize / heapChunkSize) :
    b.Inside := by
  have hlast : b.first + b.len - 1 < h.length :=
    hb.lt_length ⟨by have := hb.pos; omega, by have := hb.pos; omega⟩
  have hp := hb.ptr
  have hpos := hb.pos
  simp only [Block.Inside, heapSize, heapChunkSize] at hlen hp ⊢
  omega

/-- **When live blocks do not overlap.** In every run from the heap `init_heap`
builds in which each `kmalloc` asks for at most two chunks or finds no free node
before the run it takes, the live blocks are pairwise disjoint and inside the heap. -/
theorem disjoint_of_meets {es : List Event} {s : State} (hG : Meets step KeepsStep init es)
    (h : es.foldlM step init = some s) :
    s.live.Pairwise Block.Disjoint ∧ ∀ b ∈ s.live, b.Inside := by
  have hs : Tidy s :=
    run_inv_of_meets (I := Tidy) (fun _ _ _ hI hG h => tidy_step hI hG h) tidy_init hG h
  exact ⟨hs.apart.imp_of_mem fun hb hc hbc => (hs.placed _ hb).disjoint (hs.placed _ hc) hbc,
    fun b hb => (hs.placed b hb).inside hs.length⟩

/-- Three chunks are asked for first, and two of those freed are asked for again. -/
def gapFilled : List Event := [.kmalloc 3, .kmalloc 1, .kfree heapStart, .kmalloc 2]

theorem disjoint_of_meets_gapFilled :
    ∃ s, gapFilled.foldlM step init = some s ∧ Meets step KeepsStep init gapFilled ∧
      s.live.length = 2 ∧ s.live.Pairwise Block.Disjoint := by
  have hfresh : RunAt (Free initHeap) 0 3 := by
    intro j _ hj
    interval_cases j <;> rfl
  have hG : Meets step KeepsStep init gapFilled := by
    refine ⟨fun k hk => Or.inr fun j hj _ => hk.2 0 (by omega) hfresh, ?_⟩
    rintro _ ⟨⟩
    refine ⟨fun k _ => Or.inl (by decide), ?_⟩
    rintro _ ⟨⟩
    refine ⟨trivial, ?_⟩
    rintro _ ⟨⟩
    exact ⟨fun k _ => Or.inl (by decide), fun _ _ => trivial⟩
  exact ⟨_, rfl, hG, rfl, (disjoint_of_meets hG rfl).1⟩

/-- **A gap makes two live blocks overlap**: of three chunks freed two are released,
and the next request for three, passing over them, is given the address of a live
block. -/
theorem not_disjoint_of_gap :
    ¬∀ (es : List Event) (s : State), es.foldlM step init = some s →
      s.live.Pairwise Block.Disjoint := by
  intro hall
  have hlive := hall [.kmalloc 3, .kmalloc 1, .kfree heapStart, .kmalloc 3] _ rfl
  have hblocks : List.Pairwise Block.Disjoint
      [⟨heapStart + 3 * 64, 3, 4⟩, ⟨heapStart + 3 * 64, 1, 3⟩] := hlive
  have hpair := (List.pairwise_cons.mp hblocks).1 _ List.mem_cons_self (heapStart + 3 * 64)
  exact hpair ⟨⟨le_rfl, by decide⟩, ⟨le_rfl, by decide⟩⟩

end Heap

end WillowOS
