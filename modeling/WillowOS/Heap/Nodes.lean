import WillowOS.Heap.Basic
import WillowOS.Lib.Memory
import Mathlib.Data.List.GetD
import Mathlib.Data.List.Nodup

/-!
# The node list in memory

The nodes of the heap are structures of 32 bytes in the direct map, `status` in the first byte
and `size`, `alloc_length` and `next` in the three words behind the first. `init_heap` puts them
64 bytes apart, 64 of them into each frame it takes for them; what it has made after `k` nodes
is a chain (`WillowOS.HeapInit.Chain`) through the frames, and a node made behind the last one
makes it longer (`WillowOS.HeapInit.Chain.snoc`). A whole chain is what a walk from its first
node along `next` finds (`WillowOS.HeapInit.Chain.nodeList`).
-/

namespace WillowOS

namespace HeapInit

open Heap (HeapPage heapChunkSize freePage)

/-- `a + hhdm_offset`: the pointer to an address, in the direct map. -/
def toVirt (hhdmOffset a : ℕ) : ℕ := (a + hhdmOffset) % 2 ^ 64

/-- `p - hhdm_offset`: the address a pointer stands for. -/
def toPhys (hhdmOffset p : ℕ) : ℕ := (p + 2 ^ 64 - hhdmOffset) % 2 ^ 64

/-- The `heap_page` at an address, without its `next` pointer. -/
def pageAt (m : Mem) (a : ℕ) : HeapPage := ⟨m a, m.read64 (a + 8), m.read64 (a + 16)⟩

/-- The `next` pointer of the `heap_page` at an address. -/
def nextAt (m : Mem) (a : ℕ) : ℕ := m.read64 (a + 24)

/-- The four assignments to the fields of a new node. -/
def makeNode (hhdmOffset : ℕ) (m : Mem) (page : ℕ) : Mem :=
  let a := toPhys hhdmOffset page
  let m := m.write64 (a + 8) heapChunkSize
  let m := m.writeLE a 1 0
  let m := m.write64 (a + 16) 0
  m.write64 (a + 24) 0

/-- `page->next = next`. -/
def setNext (hhdmOffset : ℕ) (m : Mem) (page next : ℕ) : Mem :=
  m.write64 (toPhys hhdmOffset page + 24) next

/-- **The list from a node**: the pointers met along `next`, up to `NULL`. -/
def NodeList (hhdmOffset : ℕ) (m : Mem) : ℕ → List ℕ → Prop
  | p, [] => p = 0
  | p, q :: qs => p ≠ 0 ∧ p = q ∧ NodeList hhdmOffset m (nextAt m (toPhys hhdmOffset p)) qs

/-- The address of node `i`, if the nodes are in the frames `N`. -/
def nodeAddr (N : List ℕ) (i : ℕ) : ℕ := 4096 * N.getD (i / 64) 0 + 64 * (i % 64)

/-- **A chain of `k` free nodes** in the frames `N`, each pointing to the one behind it. -/
structure Chain (hhdmOffset : ℕ) (N : List ℕ) (k : ℕ) (m : Mem) : Prop where
  page : ∀ i < k, pageAt m (nodeAddr N i) = freePage
  next : ∀ i, i + 1 < k → nextAt m (nodeAddr N i) = hhdmOffset + nodeAddr N (i + 1)
  last : ∀ i, i + 1 = k → nextAt m (nodeAddr N i) = 0

variable {hhdmOffset a i j k f n v : ℕ} {N : List ℕ} {m m' : Mem}

/-! ### The fields of a node -/

theorem toPhys_add (ha : a < 2 ^ 64) : toPhys hhdmOffset (hhdmOffset + a) = a := by
  rw [toPhys]
  omega

theorem toVirt_eq (h : hhdmOffset + a < 2 ^ 64) : toVirt hhdmOffset a = hhdmOffset + a := by
  rw [toVirt, Nat.mod_eq_of_lt (by omega), Nat.add_comm]

/-- A node depends on its own bytes only. -/
theorem pageAt_congr (h : ∀ x, a ≤ x → x < a + 24 → m' x = m x) : pageAt m' a = pageAt m a := by
  have h8 : m'.read64 (a + 8) = m.read64 (a + 8) :=
    Mem.readLE_congr fun x h1 h2 => h x (by omega) (by omega)
  have h16 : m'.read64 (a + 16) = m.read64 (a + 16) :=
    Mem.readLE_congr fun x h1 h2 => h x (by omega) (by omega)
  rw [pageAt, pageAt, h8, h16, h a le_rfl (by omega)]

theorem nextAt_congr (h : ∀ x, a + 24 ≤ x → x < a + 32 → m' x = m x) : nextAt m' a = nextAt m a :=
  Mem.readLE_congr fun x h1 h2 => h x (by omega) (by omega)

/-- A new node is a free one, -/
theorem pageAt_makeNode (ha : a < 2 ^ 64) :
    pageAt (makeNode hhdmOffset m (hhdmOffset + a)) a = freePage := by
  have hstatus : makeNode hhdmOffset m (hhdmOffset + a) a = 0 := by
    simp only [makeNode, toPhys_add ha, Mem.write64, Mem.writeLE]
    rw [if_neg (by omega), if_neg (by omega), if_pos (by omega), Nat.zero_div]
    rfl
  have hsize : (makeNode hhdmOffset m (hhdmOffset + a)).read64 (a + 8) = heapChunkSize := by
    simp only [makeNode, toPhys_add ha]
    rw [Mem.read64_write64_of_disjoint (by omega), Mem.read64_write64_of_disjoint (by omega),
      Mem.read64, Mem.readLE_writeLE_of_disjoint (by omega)]
    exact Mem.read64_write64 (by decide)
  have hlength : (makeNode hhdmOffset m (hhdmOffset + a)).read64 (a + 16) = 0 := by
    simp only [makeNode, toPhys_add ha]
    rw [Mem.read64_write64_of_disjoint (by omega), Mem.read64_write64 (by decide)]
  rw [pageAt, hstatus, hsize, hlength, freePage]

/-- and the last one. -/
theorem nextAt_makeNode (ha : a < 2 ^ 64) :
    nextAt (makeNode hhdmOffset m (hhdmOffset + a)) a = 0 := by
  simp only [nextAt, makeNode, toPhys_add ha]
  exact Mem.read64_write64 (by decide)

theorem makeNode_apply {x : ℕ} (ha : a < 2 ^ 64) (hx : x < a ∨ a + 32 ≤ x) :
    makeNode hhdmOffset m (hhdmOffset + a) x = m x := by
  simp only [makeNode, toPhys_add ha, Mem.write64, Mem.writeLE]
  rw [if_neg (by omega), if_neg (by omega), if_neg (by omega), if_neg (by omega)]

theorem nextAt_setNext (ha : a < 2 ^ 64) (hv : v < 2 ^ 64) :
    nextAt (setNext hhdmOffset m (hhdmOffset + a) v) a = v := by
  rw [nextAt, setNext, toPhys_add ha, Mem.read64_write64 hv]

theorem setNext_apply {x : ℕ} (ha : a < 2 ^ 64) (hx : x < a + 24 ∨ a + 32 ≤ x) :
    setNext hhdmOffset m (hhdmOffset + a) v x = m x := by
  rw [setNext, toPhys_add ha, Mem.write64, Mem.writeLE, if_neg (by omega)]

/-! ### The places of the nodes -/

/-- A node lies in one of the frames. -/
theorem nodeAddr_div_mem (h : i < 64 * N.length) : nodeAddr N i / 4096 ∈ N := by
  have hi : i / 64 < N.length := by omega
  have : nodeAddr N i / 4096 = N.getD (i / 64) 0 := by
    rw [nodeAddr]
    omega
  rw [this, List.getD_eq_getElem _ _ hi]
  exact List.getElem_mem hi

theorem nodeAddr_mod_le : nodeAddr N i % 4096 + 64 ≤ 4096 := by
  rw [nodeAddr]
  omega

/-- **Two nodes are 64 bytes apart.** -/
theorem nodeAddr_disjoint (hN : N.Nodup) (hi : i < 64 * N.length) (hj : j < 64 * N.length)
    (hij : i ≠ j) :
    nodeAddr N i + 64 ≤ nodeAddr N j ∨ nodeAddr N j + 64 ≤ nodeAddr N i := by
  have hi' : i / 64 < N.length := by omega
  have hj' : j / 64 < N.length := by omega
  rw [nodeAddr, nodeAddr]
  by_cases hframe : i / 64 = j / 64
  · rw [hframe]
    omega
  · have hne : N.getD (i / 64) 0 ≠ N.getD (j / 64) 0 := by
      rw [List.getD_eq_getElem _ _ hi', List.getD_eq_getElem _ _ hj']
      exact fun h => hframe ((hN.getElem_inj_iff).mp h)
    omega

/-- One frame more does not move the nodes. -/
theorem nodeAddr_append (h : i < 64 * N.length) : nodeAddr (N ++ [f]) i = nodeAddr N i := by
  have hi : i / 64 < N.length := by omega
  rw [nodeAddr, nodeAddr, List.getD_append _ _ _ _ hi]

/-- It begins with the next node. -/
theorem nodeAddr_concat : nodeAddr (N ++ [f]) (64 * N.length) = 4096 * f := by
  have hdiv : 64 * N.length / 64 = N.length := by omega
  have hmod : 64 * N.length % 64 = 0 := by omega
  rw [nodeAddr, hdiv, hmod, List.getD_append_right _ _ _ _ le_rfl, Nat.sub_self]
  rfl

/-- Within a frame the nodes are 64 bytes apart. -/
theorem nodeAddr_succ (h : (i + 1) % 64 ≠ 0) : nodeAddr N (i + 1) = nodeAddr N i + 64 := by
  have hdiv : (i + 1) / 64 = i / 64 := by omega
  rw [nodeAddr, nodeAddr, hdiv]
  omega

/-! ### Chains -/

/-- The first node. -/
theorem chain_makeNode (hf : 4096 * f < 2 ^ 64) :
    Chain hhdmOffset [f] 1 (makeNode hhdmOffset m (hhdmOffset + 4096 * f)) := by
  have hfirst : nodeAddr [f] 0 = 4096 * f := rfl
  refine ⟨fun i hi => ?_, fun i hi => by omega, fun i hi => ?_⟩
  · obtain rfl : i = 0 := by omega
    rw [hfirst, pageAt_makeNode hf]
  · obtain rfl : i = 0 := by omega
    rw [hfirst, nextAt_makeNode hf]

namespace Chain

/-- A chain is in the bytes of its frames. -/
theorem congr (h : Chain hhdmOffset N k m) (hk : k ≤ 64 * N.length)
    (hsame : ∀ f ∈ N, ∀ x, x / 4096 = f → m' x = m x) : Chain hhdmOffset N k m' := by
  have hnode : ∀ i < k, ∀ x, nodeAddr N i ≤ x → x < nodeAddr N i + 32 → m' x = m x := by
    intro i hi x h1 h2
    have hmod := nodeAddr_mod_le (N := N) (i := i)
    exact hsame _ (nodeAddr_div_mem (hi.trans_le hk)) x (by omega)
  refine ⟨fun i hi => ?_, fun i hi => ?_, fun i hi => ?_⟩
  · rw [pageAt_congr fun x h1 h2 => hnode i hi x h1 (by omega), h.page i hi]
  · rw [nextAt_congr fun x h1 h2 => hnode i (by omega) x (by omega) h2, h.next i hi]
  · rw [nextAt_congr fun x h1 h2 => hnode i (by omega) x (by omega) h2, h.last i hi]

/-- One frame more does not change it. -/
theorem append (h : Chain hhdmOffset N k m) (hk : k ≤ 64 * N.length) :
    Chain hhdmOffset (N ++ [f]) k m := by
  refine ⟨fun i hi => ?_, fun i hi => ?_, fun i hi => ?_⟩
  · rw [nodeAddr_append (by omega), h.page i hi]
  · rw [nodeAddr_append (by omega), nodeAddr_append (by omega), h.next i hi]
  · rw [nodeAddr_append (by omega), h.last i hi]

/-- **A node made behind the last one.** -/
theorem snoc (h : Chain hhdmOffset N (k + 1) m) (hk : k + 1 < 64 * N.length) (hN : N.Nodup)
    (hfit : ∀ f ∈ N, hhdmOffset + 4096 * f + 4096 ≤ 2 ^ 64) :
    Chain hhdmOffset N (k + 2) (setNext hhdmOffset
      (makeNode hhdmOffset m (hhdmOffset + nodeAddr N (k + 1))) (hhdmOffset + nodeAddr N k)
      (hhdmOffset + nodeAddr N (k + 1))) := by
  have hlt : ∀ i < 64 * N.length, hhdmOffset + nodeAddr N i < 2 ^ 64 := by
    intro i hi
    have := hfit _ (nodeAddr_div_mem hi)
    omega
  have hnew : nodeAddr N (k + 1) < 2 ^ 64 := (Nat.le_add_left _ _).trans_lt (hlt _ hk)
  have hold : nodeAddr N k < 2 ^ 64 := (Nat.le_add_left _ _).trans_lt (hlt k (by omega))
  -- the new node is away from the others
  have hmake : ∀ i < k + 1, ∀ x, nodeAddr N i ≤ x → x < nodeAddr N i + 32 →
      makeNode hhdmOffset m (hhdmOffset + nodeAddr N (k + 1)) x = m x := by
    intro i hi x h1 h2
    have := nodeAddr_disjoint hN (i := i) (j := k + 1) (by omega) hk (by omega)
    exact makeNode_apply hnew (by omega)
  -- and the pointer to it is the `next` of the last one
  have hset : ∀ i < k + 2, ∀ x, nodeAddr N i ≤ x → x < nodeAddr N i + 32 →
      (i ≠ k ∨ x < nodeAddr N i + 24) → ∀ m', setNext hhdmOffset m' (hhdmOffset + nodeAddr N k)
        (hhdmOffset + nodeAddr N (k + 1)) x = m' x := by
    intro i hi x h1 h2 hik m'
    refine setNext_apply hold ?_
    by_cases heq : i = k
    · subst heq
      exact Or.inl (hik.resolve_left fun hne => hne rfl)
    · have := nodeAddr_disjoint hN (i := i) (j := k) (by omega) (by omega) heq
      omega
  refine ⟨fun i hi => ?_, fun i hi => ?_, fun i hi => ?_⟩
  · rw [pageAt_congr fun x h1 h2 => hset i hi x h1 (by omega) (Or.inr h2) _]
    by_cases heq : i = k + 1
    · rw [heq, pageAt_makeNode hnew]
    · rw [pageAt_congr fun x h1 h2 => hmake i (by omega) x h1 (by omega), h.page i (by omega)]
  · by_cases heq : i = k
    · rw [heq, nextAt_setNext hold (hlt _ hk)]
    · rw [nextAt_congr fun x h1 h2 => hset i (by omega) x (by omega) h2 (Or.inl heq) _,
        nextAt_congr fun x h1 h2 => hmake i (by omega) x (by omega) h2, h.next i (by omega)]
  · obtain rfl : i = k + 1 := by omega
    rw [nextAt_congr fun x h1 h2 => hset _ (by omega) x (by omega) h2 (Or.inl (by omega)) _,
      nextAt_makeNode hnew]

/-- **What a walk along a chain finds**, from any of its nodes on. -/
theorem nodeList (h : Chain hhdmOffset N k m) (hk : k ≤ 64 * N.length)
    (hne : ∀ f ∈ N, f ≠ 0) (hlt : ∀ f ∈ N, 4096 * f + 4096 ≤ 2 ^ 64) (hn : j + (n + 1) = k) :
    NodeList hhdmOffset m (hhdmOffset + nodeAddr N j)
      ((List.range' j (n + 1)).map fun i => hhdmOffset + nodeAddr N i) := by
  induction n generalizing j with
  | zero =>
    have hmem := nodeAddr_div_mem (N := N) (i := j) (by omega)
    have h1 := hne _ hmem
    have h2 := hlt _ hmem
    refine ⟨by omega, rfl, ?_⟩
    rw [toPhys_add (by omega)]
    exact h.last j hn
  | succ n ih =>
    have hmem := nodeAddr_div_mem (N := N) (i := j) (by omega)
    have h1 := hne _ hmem
    have h2 := hlt _ hmem
    rw [List.range'_succ, List.map_cons]
    refine ⟨by omega, rfl, ?_⟩
    rw [toPhys_add (by omega), h.next j (by omega)]
    exact ih (by omega)

end Chain

end HeapInit

end WillowOS
