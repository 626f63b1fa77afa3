import WillowOS.Heap.Basic

/-!
# `kmalloc` is first fit on the node list

Whatever the number it computes the address from, the nodes `kmalloc` takes are
those of the leftmost run of free nodes that is long enough
(`WillowOS.Heap.kmallocAt_spec`), and it fails only when there is no such run
(`WillowOS.Heap.not_runAt_of_kmallocAt_none`): a probe that reaches the end of the
list cannot miss a run further on, since that run would be cut short by the same
end.

The number it computes the address from is the position of that run when no probe
fails halfway, which is the case of requests of at most two chunks and of runs with
no free node before them (`WillowOS.Heap.InStep`).

All of this is over the two statuses that are ever stored. What a call does over nodes with any
statuses at all, and what it leaves as it is, is **`WillowOS.Heap.kmalloc_firstFit`**.
-/

namespace WillowOS

namespace Heap

variable {h l : List HeapPage} {n size pos index : ℕ}

/-! ### The probe -/

/-- A probe that finds the heap full has fewer nodes in front of it than needed. -/
theorem length_le_of_probe_heapIsFull (hp : probe n l = .heapIsFull) : l.length ≤ n := by
  fun_induction probe n l with
  | case1 => simp
  | case2 => cases hp
  | case3 => simp
  | case4 => cases hp
  | case5 n p q ps hne ih =>
    have := ih hp
    simp only [List.length_cons] at this ⊢
    omega

/-- A probe that does not fit has met a used node before the last one. -/
theorem exists_used_of_probe_doesNotFit (hp : probe n l = .doesNotFit) : ∃ j < n, Used l j := by
  fun_induction probe n l with
  | case1 => cases hp
  | case2 => cases hp
  | case3 => cases hp
  | case4 n p q ps h1 => exact ⟨0, by omega, by simp [Used, status, h1]⟩
  | case5 n p q ps hne ih =>
    obtain ⟨j, hj, hu⟩ := ih hp
    exact ⟨j + 1, by omega, by simpa [Used, status] using hu⟩

/-- A probe that reaches the last node has passed no used one. -/
theorem status_of_probe_reached {v : UInt8} (hp : probe n l = .reached v) :
    status l n = some v ∧ ∀ j < n, ¬Used l j := by
  fun_induction probe n l with
  | case1 => cases hp
  | case2 p ps => exact ⟨by cases hp; simp [status], fun j hj => absurd hj (by omega)⟩
  | case3 => cases hp
  | case4 => cases hp
  | case5 n p q ps hne ih =>
    obtain ⟨hst, hpass⟩ := ih hp
    refine ⟨by simpa [status] using hst, fun j hj hu => ?_⟩
    rcases j with _ | j
    · exact hne (by simpa [Used, status] using hu)
    · exact hpass j (by omega) (by simpa [Used, status] using hu)

/-- The last node of a run is in the list. -/
theorem lt_length_of_runAt {k : ℕ} (hn : 0 < n) (hr : RunAt (Free l) k n) :
    k + n ≤ l.length := by
  have := lt_length_of_status (hr (k + n - 1) (by omega) (by omega))
  omega

/-- A probe that reaches a free node has found a run. -/
theorem runAt_of_probe_reached (h2 : TwoValued l) (hn : 0 < size)
    (hp : probe (size - 1) l = .reached 0) : RunAt (Free l) 0 size := by
  obtain ⟨hst, hpass⟩ := status_of_probe_reached hp
  intro j _ hj
  rcases Nat.lt_or_ge j (size - 1) with hlt | hge
  · by_contra hf
    have hlen := lt_length_of_status hst
    exact hpass j hlt (h2.used_of_not_free (by omega) hf)
  · obtain rfl : j = size - 1 := by omega
    exact hst

/-! ### The search -/

/-- The number of the search keeps step with its position on the way to the run at
distance `k`: no probe fails halfway before it. -/
def InStep (h : List HeapPage) (size k : ℕ) : Prop :=
  size ≤ 2 ∨ ∀ j < k, ¬Free h j

/-- What a search of the nodes `l` from position `pos` and number `index` has to
answer: that there is no run long enough, or the first one and a number that has
kept step exactly when it could. -/
def Answers (l : List HeapPage) (size pos index : ℕ) : Option (ℕ × ℕ) → Prop
  | none => ∀ k, ¬RunAt (Free l) k size
  | some r => ∃ k, r.1 = pos + k ∧ FirstRun (Free l) size k ∧ r.2 ≤ index + k ∧
      (r.2 = index + k ↔ InStep l size k)

/-- Going on past a node that starts no run, counting it (`d = 1`) or not (`d = 0`).
A node is left uncounted only when it is free and more than two are asked for, and
such a node is counted only when the one after it is free too. -/
theorem Answers.cons {p : HeapPage} {d : ℕ} {r : Option (ℕ × ℕ)}
    (hr : Answers l size (pos + 1) (index + d) r) (hd : d ≤ 1)
    (hno : ¬RunAt (Free (p :: l)) 0 size) (hskip : d = 0 → 2 < size ∧ p.status = 0)
    (hcount : d = 1 → p.status = 0 → 2 < size → Free l 0) :
    Answers (p :: l) size pos index r := by
  have hfree : (fun j => Free (p :: l) (j + 1)) = Free l :=
    funext fun j => propext (free_cons_succ p l j)
  cases r with
  | none =>
    intro k hk
    rcases k with _ | k
    · exact hno hk
    · exact hr k (hfree ▸ runAt_succ.mp hk)
  | some r =>
    obtain ⟨k, hpos, hfirst, hle, hstep⟩ := hr
    refine ⟨k + 1, by omega, firstRun_succ hno (hfree ▸ hfirst), by omega, fun heq => ?_,
      fun hin => ?_⟩
    · have hd1 : d = 1 := by omega
      rcases hstep.mp (by omega) with hsmall | hnone
      · exact Or.inl hsmall
      · refine (Nat.lt_or_ge 2 size).symm.imp_right fun hbig j hj hf => ?_
        rcases j with _ | j
        · have h0 := (free_cons_zero p l).mp hf
          rcases Nat.eq_zero_or_pos k with rfl | hk
          · -- the node and the run right after it would be a run
            obtain ⟨m, rfl⟩ : ∃ m, size = m + 1 := ⟨size - 1, by omega⟩
            refine hno (runAt_zero_succ.mpr ⟨hf, ?_⟩)
            rw [hfree]
            exact fun j hj hjm => hfirst.1 j hj (by omega)
          · exact hnone 0 hk (hcount hd1 h0 hbig)
        · exact hnone j (by omega) ((free_cons_succ p l j).mp hf)
    · have hd1 : d = 1 := by
        by_contra hne
        obtain ⟨hbig, h0⟩ := hskip (by omega)
        rcases hin with hsmall | hnone
        · omega
        · exact hnone 0 (by omega) ((free_cons_zero p l).mpr h0)
      have hin' : InStep l size k :=
        hin.imp_right fun hnone j hj hf => hnone (j + 1) (by omega) ((free_cons_succ p l j).mpr hf)
      have := hstep.mpr hin'
      omega

/-- **The search finds the first run, or there is none.** -/
theorem answers_search (h2 : TwoValued l) (hn : 0 < size) :
    Answers l size pos index (search size l pos index) := by
  induction l generalizing pos index with
  | nil =>
    intro k hr
    have := lt_length_of_runAt hn hr
    simp only [List.length_nil] at this
    omega
  | cons p ps ih =>
    have h2' : TwoValued ps := fun q hq => h2 q (List.mem_cons_of_mem p hq)
    rw [search]
    by_cases h0 : p.status = 0
    · rw [if_pos h0]
      rcases hprobe : probe (size - 1) (p :: ps) with _ | _ | v <;> dsimp only
      · -- the end of the list cuts short every run from here on
        intro k hr
        have hfull := length_le_of_probe_heapIsFull hprobe
        have hfit := lt_length_of_runAt hn hr
        omega
      · obtain ⟨j, hj, hu⟩ := exists_used_of_probe_doesNotFit hprobe
        refine Answers.cons (d := 0) (ih h2') (by omega)
          (fun hr => hu.not_free (hr j (by omega) (by omega))) (fun _ => ⟨?_, h0⟩)
          fun h => absurd h (by omega)
        rcases j with _ | j
        · exact absurd ((free_cons_zero p ps).mpr h0) hu.not_free
        · omega
      · obtain ⟨hlast, hpass⟩ := status_of_probe_reached hprobe
        by_cases hv : v = 0
        · subst hv
          rw [if_pos rfl]
          have hrun := runAt_of_probe_reached h2 hn hprobe
          exact ⟨0, rfl, ⟨hrun, fun j hj => absurd hj (by omega)⟩, le_rfl,
            iff_of_true rfl (Or.inr fun j hj => absurd hj (by omega))⟩
        · rw [if_neg hv]
          refine Answers.cons (d := 1) (ih h2') le_rfl (fun hr => hv ?_)
            (fun h => absurd h (by omega)) fun _ _ hbig => ?_
          · have hfree : status (p :: ps) (size - 1) = some 0 := hr (size - 1) (by omega) (by omega)
            exact Option.some.inj (hlast.symm.trans hfree)
          · -- at least two nodes were passed, and the second is not a used one
            have hlen := lt_length_of_status hlast
            rw [← free_cons_succ p ps 0]
            by_contra hf
            exact hpass 1 (by omega) (h2.used_of_not_free (by omega) hf)
    · rw [if_neg h0]
      refine Answers.cons (d := 1) (ih h2') le_rfl (fun hr => h0 ?_) (fun h => absurd h (by omega))
        fun _ h => absurd h h0
      exact (free_cons_zero p ps).mp (hr 0 le_rfl (by omega))

/-- **Where `kmalloc` allocates**: at the first run long enough, and the number the
address is computed from never exceeds its position, and is its position exactly
when the search has kept step. -/
theorem kmallocAt_spec (h2 : TwoValued h) (hk : kmallocAt h size = some (pos, index)) :
    0 < size ∧ FirstRun (Free h) size pos ∧ index ≤ pos ∧ (index = pos ↔ InStep h size pos) := by
  rw [kmallocAt, Option.ite_none_left_eq_some] at hk
  obtain ⟨hn, hk⟩ := hk
  have hspec : Answers h size 0 0 (search size h 0 0) := answers_search h2 (Nat.pos_of_ne_zero hn)
  rw [hk] at hspec
  obtain ⟨k, hpos, hfirst, hle, hstep⟩ := hspec
  rw [Nat.zero_add] at hpos hle hstep
  subst hpos
  exact ⟨Nat.pos_of_ne_zero hn, hfirst, hle, hstep⟩

/-- **`kmalloc` fails only when no run is long enough.** -/
theorem not_runAt_of_kmallocAt_none (h2 : TwoValued h) (hn : 0 < size)
    (hk : kmallocAt h size = none) (k : ℕ) : ¬RunAt (Free h) k size := by
  have hspec : Answers h size 0 0 (search size h 0 0) := answers_search h2 hn
  rw [kmallocAt, if_neg (by omega)] at hk
  rw [hk] at hspec
  exact hspec k

/-! ### What a call does to the nodes -/

/-- A call that fails returns `NULL` and changes nothing. -/
theorem kmalloc_of_none (hk : kmallocAt h size = none) : kmalloc h size = (0, h) := by
  rw [kmalloc, hk]

theorem kmalloc_of_some (hk : kmallocAt h size = some (pos, index)) :
    kmalloc h size =
      (heapStart + index * heapChunkSize, setAllocLength size pos (setStatus 1 pos size h)) := by
  rw [kmalloc, hk]

/-- A call that succeeds marks exactly the nodes of its run. -/
theorem status_kmalloc (h2 : TwoValued h) (hk : kmallocAt h size = some (pos, index)) (i : ℕ) :
    status (kmalloc h size).2 i =
      if pos ≤ i ∧ i < pos + size then some 1 else status h i := by
  rw [kmalloc_of_some hk, status_setAllocLength, status_setStatus]
  split
  next hin =>
    obtain ⟨-, hfirst, -⟩ := kmallocAt_spec h2 hk
    have hfree : status h i = some 0 := hfirst.1 i hin.1 hin.2
    rw [hfree, Option.map_some]
  next => rfl

/-- A call that succeeds sets the `alloc_length` of the first node of its run, and
no other. -/
theorem allocLength_kmalloc (h2 : TwoValued h) (hk : kmallocAt h size = some (pos, index))
    (i : ℕ) : allocLength (kmalloc h size).2 i = if i = pos then size else allocLength h i := by
  obtain ⟨hn, hfirst, -⟩ := kmallocAt_spec h2 hk
  have hlen := lt_length_of_runAt hn hfirst.1
  rw [kmalloc_of_some hk, allocLength_setAllocLength (by rw [length_setStatus]; omega),
    allocLength_setStatus]

theorem length_kmalloc : (kmalloc h size).2.length = h.length := by
  rw [kmalloc]
  split <;> simp

/-! ### Any statuses

The probe passes the nodes whose status is not `1`, and looks for a status `0` only at both ends.
With the two statuses there are, what it accepts is a run of free nodes. -/

/-- **What the probe accepts**: a node with status `0` at both ends, and none with status `1`. -/
def FitsAt (h : List HeapPage) (size k : ℕ) : Prop :=
  Free h k ∧ Free h (k + size - 1) ∧ ∀ j, k ≤ j → j < k + size → ¬Used h j

/-- The leftmost place the probe accepts. -/
def FirstFit (h : List HeapPage) (size k : ℕ) : Prop :=
  FitsAt h size k ∧ ∀ j < k, ¬FitsAt h size j

/-- With two statuses, it accepts the runs of free nodes. -/
theorem fitsAt_iff_runAt (h2 : TwoValued h) (hn : 0 < size) {k : ℕ} :
    FitsAt h size k ↔ RunAt (Free h) k size := by
  constructor
  · rintro ⟨-, hlast, hpass⟩ j hj hjk
    have hlen := lt_length_of_status hlast
    by_contra hf
    exact hpass j hj hjk (h2.used_of_not_free (by omega) hf)
  · intro hrun
    exact ⟨hrun k le_rfl (by omega), hrun _ (by omega) (by omega),
      fun j hj hjk hu => hu.not_free (hrun j hj hjk)⟩

theorem firstFit_iff_firstRun (h2 : TwoValued h) (hn : 0 < size) {k : ℕ} :
    FirstFit h size k ↔ FirstRun (Free h) size k := by
  simp only [FirstFit, FirstRun, fitsAt_iff_runAt h2 hn]

theorem FirstFit.unique {j k : ℕ} (hj : FirstFit h size j) (hk : FirstFit h size k) : j = k := by
  rcases Nat.lt_trichotomy j k with hlt | heq | hlt
  · exact absurd hj.1 (hk.2 j hlt)
  · exact heq
  · exact absurd hk.1 (hj.2 k hlt)

theorem FitsAt.le_length {k : ℕ} (hn : 0 < size) (hk : FitsAt h size k) : k + size ≤ h.length := by
  have := lt_length_of_status hk.2.1
  omega

theorem fitsAt_succ {p : HeapPage} {k : ℕ} (hn : 0 < size) :
    FitsAt (p :: l) size (k + 1) ↔ FitsAt l size k := by
  have hlast : k + 1 + size - 1 = k + size - 1 + 1 := by omega
  rw [FitsAt, FitsAt, free_cons_succ, hlast, free_cons_succ]
  refine and_congr_right fun _ => and_congr_right fun _ => ⟨fun hpass j hj hjk hu => ?_, ?_⟩
  · exact hpass (j + 1) (by omega) (by omega) (by simpa [Used, status] using hu)
  · intro hpass j hj hjk hu
    obtain ⟨i, rfl⟩ : ∃ i, j = i + 1 := ⟨j - 1, by omega⟩
    exact hpass i (by omega) (by omega) (by simpa [Used, status] using hu)

/-- What a search has to answer, whatever the statuses. -/
def Finds (l : List HeapPage) (size pos index : ℕ) : Option (ℕ × ℕ) → Prop
  | none => ∀ k, ¬FitsAt l size k
  | some r => ∃ k, r.1 = pos + k ∧ FirstFit l size k ∧ r.2 ≤ index + k

/-- Going on past a node that is not accepted, whether it is counted or not. -/
theorem Finds.cons {p : HeapPage} {d : ℕ} {r : Option (ℕ × ℕ)} (hn : 0 < size) (hd : d ≤ 1)
    (hr : Finds l size (pos + 1) (index + d) r) (hno : ¬FitsAt (p :: l) size 0) :
    Finds (p :: l) size pos index r := by
  cases r with
  | none =>
    intro k hk
    rcases k with _ | k
    · exact hno hk
    · exact hr k ((fitsAt_succ hn).mp hk)
  | some r =>
    obtain ⟨k, hpos, ⟨hfit, hfirst⟩, hle⟩ := hr
    refine ⟨k + 1, by omega, ⟨(fitsAt_succ hn).mpr hfit, fun j hj hjfit => ?_⟩, by omega⟩
    rcases j with _ | j
    · exact hno hjfit
    · exact hfirst j (by omega) ((fitsAt_succ hn).mp hjfit)

/-- **The search finds the first place the probe accepts, or there is none.** -/
theorem finds_search (hn : 0 < size) : Finds l size pos index (search size l pos index) := by
  induction l generalizing pos index with
  | nil =>
    intro k hk
    have := hk.le_length hn
    rw [List.length_nil] at this
    omega
  | cons p ps ih =>
    rw [search]
    split_ifs with h0
    · rcases hprobe : probe (size - 1) (p :: ps) with _ | _ | v <;> dsimp only
      · -- the end of the list is as near for every later node
        intro k hk
        have hfull := length_le_of_probe_heapIsFull hprobe
        have hfit := hk.le_length hn
        omega
      · obtain ⟨j, hj, hu⟩ := exists_used_of_probe_doesNotFit hprobe
        exact ih.cons (d := 0) hn (by omega) fun hfit => hfit.2.2 j (by omega) (by omega) hu
      · obtain ⟨hlast, hpass⟩ := status_of_probe_reached hprobe
        split_ifs with hv
        · subst hv
          refine ⟨0, rfl, ⟨⟨(free_cons_zero p ps).mpr h0, ?_, fun j _ hj hu => ?_⟩,
            fun j hj => absurd hj (Nat.not_lt_zero j)⟩, le_rfl⟩
          · rw [Nat.zero_add]
            exact hlast
          · rcases Nat.lt_or_ge j (size - 1) with hlt | hge
            · exact hpass j hlt hu
            · obtain rfl : j = size - 1 := by omega
              exact hu.not_free hlast
        · refine ih.cons (d := 1) hn le_rfl fun hfit => hv ?_
          have hfree : status (p :: ps) (size - 1) = some 0 := Nat.zero_add size ▸ hfit.2.1
          exact Option.some.inj (hlast.symm.trans hfree)
    · exact ih.cons (d := 1) hn le_rfl fun hfit => h0 ((free_cons_zero p ps).mp hfit.1)

/-- A node, at position `i`, once the `size` nodes from `pos` on are allocated. -/
def markPage (size pos i : ℕ) (p : HeapPage) : HeapPage where
  status := if pos ≤ i ∧ i < pos + size then 1 else p.status
  size := p.size
  allocLength := if i = pos then size else p.allocLength

/-- **A call that allocates** the `size` nodes from `pos` on: the pointer it returns is not `NULL`
(and fits a word, for a heap inside the address space), the nodes are marked, the first one keeps
the length, and nothing else is changed. -/
structure Allocated (h : List HeapPage) (size pos : ℕ) (r : ℕ × List HeapPage) : Prop where
  ne_null : r.1 ≠ 0
  lt_of_le : h.length ≤ 2 ^ 40 → r.1 < 2 ^ 64
  nodes : ∀ i, r.2[i]? = h[i]?.map (markPage size pos i)

theorem allocated_kmalloc (hk : kmallocAt h size = some (pos, index)) (hindex : index ≤ pos)
    (hfit : pos < h.length) : Allocated h size pos (kmalloc h size) := by
  rw [kmalloc_of_some hk]
  refine ⟨?_, fun hlen => ?_, fun i => ?_⟩
  · show heapStart + _ ≠ 0
    rw [heapStart]
    omega
  · show heapStart + index * heapChunkSize < 2 ^ 64
    rw [heapStart, heapChunkSize]
    omega
  · rw [setAllocLength, List.getElem?_modify, getElem?_setStatus, Option.map_eq_map,
      Option.map_map]
    congr 1
    funext p
    rw [Function.comp_apply, markPage]
    by_cases hi : pos = i
    · subst hi
      rw [if_pos rfl, if_pos rfl]
      split_ifs <;> rfl
    · rw [if_neg hi, if_neg (Ne.symm hi)]
      split_ifs <;> rfl

/-- **`kmalloc` is exact first fit**: over every list of nodes, it allocates the leftmost nodes the
probe accepts and fails if there are none. With any assignment of the two statuses `0` and `1`,
these are the leftmost run of `size` nodes with status `0`. -/
theorem kmalloc_firstFit (h : List HeapPage) (size : ℕ) (hsize : 1 ≤ size) :
    (TwoValued h →
      (∀ pos, FirstRun (Free h) size pos → Allocated h size pos (kmalloc h size)) ∧
        ((∀ k, ¬RunAt (Free h) k size) → kmalloc h size = (0, h))) ∧
      (∀ pos, FirstFit h size pos → Allocated h size pos (kmalloc h size)) ∧
      ((∀ k, ¬FitsAt h size k) → kmalloc h size = (0, h)) := by
  have hfinds : Finds h size 0 0 (kmallocAt h size) := by
    rw [kmallocAt, if_neg (by omega)]
    exact finds_search hsize
  have hfit : ∀ pos, FirstFit h size pos → Allocated h size pos (kmalloc h size) := by
    intro pos hpos
    rcases hk : kmallocAt h size with _ | ⟨pos', index⟩
    · rw [hk] at hfinds
      exact absurd hpos.1 (hfinds pos)
    · rw [hk] at hfinds
      obtain ⟨k, hpos', hfirst, hindex⟩ := hfinds
      rw [Nat.zero_add] at hpos' hindex
      obtain rfl : pos' = pos := hpos'.trans (hfirst.unique hpos)
      exact allocated_kmalloc hk (hindex.trans_eq hpos'.symm)
        (by have := hpos.1.le_length hsize; omega)
  have hnone : (∀ k, ¬FitsAt h size k) → kmalloc h size = (0, h) := by
    intro hno
    rcases hk : kmallocAt h size with _ | ⟨pos', index⟩
    · exact kmalloc_of_none hk
    · rw [hk] at hfinds
      obtain ⟨k, -, hfirst, -⟩ := hfinds
      exact absurd hfirst.1 (hno k)
  refine ⟨fun h2 => ⟨fun pos hpos => ?_, fun hno => ?_⟩, hfit, hnone⟩
  · exact hfit pos ((firstFit_iff_firstRun h2 hsize).mpr hpos)
  · exact hnone fun k hk => hno k ((fitsAt_iff_runAt h2 hsize).mp hk)

/-- Two chunks out of a heap with a free node, a used one and two free ones. -/
theorem kmalloc_firstFit_gap : Allocated [⟨0, 64, 0⟩, ⟨1, 64, 1⟩, freePage, freePage] 2 2
    (kmalloc [⟨0, 64, 0⟩, ⟨1, 64, 1⟩, freePage, freePage] 2) := by
  refine ((kmalloc_firstFit [⟨0, 64, 0⟩, ⟨1, 64, 1⟩, freePage, freePage] 2 (by decide)).1
    (by decide)).1 2 ⟨?_, ?_⟩
  · intro j hj hj'
    obtain rfl | rfl : j = 2 ∨ j = 3 := by omega
    · decide
    · decide
  · intro j hj hrun
    obtain rfl | rfl : j = 0 ∨ j = 1 := by omega
    · exact absurd (hrun 1 (by decide) (by decide)) (by decide)
    · exact absurd (hrun 1 (by decide) (by decide)) (by decide)

end Heap

end WillowOS
