import WillowOS.Lib.Run
import WillowOS.Lib.FirstFit
import Mathlib.Algebra.Group.Nat.Defs

/-!
# The kernel heap

The heap is a list of nodes, one for each 64-byte chunk from
`HEAP_START_VIRT_DEFINED` on; the nodes live outside the heap, in the direct map.
A pointer into the node list is a position in it, and `current->next` is the next
position, `NULL` past the last.

`kmalloc` walks two cursors: the node `current`, here the suffix of the list that
starts there with its position `pos`, and the number `index` from which the
address is computed. They part when a probe meets a used node, where the code
goes on to the next node without counting it. `kfree` computes a position from
an address and walks to it with a loop that starts at `1`, and clears the nodes
with another loop that starts at `1`.
-/

namespace WillowOS

namespace Heap

/-- A `heap_page`, without its `next` pointer. -/
structure HeapPage where
  /-- `0` for free and `1` for used. -/
  status : UInt8
  size : ℕ
  /-- The length of the allocation that starts here. -/
  allocLength : ℕ
deriving DecidableEq

/-- `HEAP_START_VIRT_DEFINED`. -/
def heapStart : ℕ := 0xffffc00000000000

/-- `HEAP_SIZE_DEFINED`. -/
def heapSize : ℕ := 0x4000000

/-- `HEAP_CHUNK_SIZE_DEFINED`. -/
def heapChunkSize : ℕ := 64

/-- A node as `init_heap` makes it. -/
def freePage : HeapPage := ⟨0, heapChunkSize, 0⟩

/-- The node list `init_heap` builds. -/
def initHeap : List HeapPage := List.replicate (heapSize / heapChunkSize) freePage

/-! ### Allocation -/

/-- How the probe of `kmalloc` ends. -/
inductive Probe
  /-- `probe->next` was `NULL` before the last node needed: `kmalloc` gives up. -/
  | heapIsFull
  /-- A used node was met before the last one: `fits` is set to `1`. -/
  | doesNotFit
  /-- The last node needed is reached, with this status. -/
  | reached (status : UInt8)
deriving DecidableEq

/-- The probe of `kmalloc`: `n` nodes are checked and passed, and the node after
them is only reached. It starts at a node, so the empty list is no case of it. -/
def probe : ℕ → List HeapPage → Probe
  | _, [] => .heapIsFull
  | 0, p :: _ => .reached p.status
  | _ + 1, [_] => .heapIsFull
  | n + 1, p :: q :: ps => if p.status = 1 then .doesNotFit else probe n (q :: ps)

/-- The loop of `kmalloc` over `current`, from position `pos` and with the number
`index`: the position and the number at which it allocates. -/
def search (size : ℕ) : List HeapPage → ℕ → ℕ → Option (ℕ × ℕ)
  | [], _, _ => none
  | p :: ps, pos, index =>
    if p.status = 0 then
      match probe (size - 1) (p :: ps) with
      | .heapIsFull => none
      -- `current = current->next; continue;`, without `index++`
      | .doesNotFit => search size ps (pos + 1) index
      | .reached status =>
        if status = 0 then some (pos, index) else search size ps (pos + 1) (index + 1)
    else search size ps (pos + 1) (index + 1)

/-- Set the status of the `n` nodes from position `pos` on. -/
def setStatus (v : UInt8) : ℕ → ℕ → List HeapPage → List HeapPage
  | _, _, [] => []
  | pos + 1, n, p :: ps => p :: setStatus v pos n ps
  | 0, 0, p :: ps => p :: ps
  | 0, n + 1, p :: ps => { p with status := v } :: setStatus v 0 n ps

/-- Set the `alloc_length` of the node at position `pos`. -/
def setAllocLength (n pos : ℕ) (h : List HeapPage) : List HeapPage :=
  h.modify pos fun p => { p with allocLength := n }

/-- Where `kmalloc(size)` allocates, and the number it computes the address from. -/
def kmallocAt (h : List HeapPage) (size : ℕ) : Option (ℕ × ℕ) :=
  if size = 0 then none else search size h 0 0

/-- `kmalloc`: the address returned, `0` for `NULL`, and the nodes after the call. -/
def kmalloc (h : List HeapPage) (size : ℕ) : ℕ × List HeapPage :=
  match kmallocAt h size with
  | none => (0, h)
  | some (pos, index) =>
    (heapStart + index * heapChunkSize, setAllocLength size pos (setStatus 1 pos size h))

/-! ### Deallocation -/

/-- The number of the chunk an address lies in. -/
def chunkIndex (virtAddress : ℕ) : ℕ :=
  (virtAddress + 2 ^ 64 - heapStart) % 2 ^ 64 / heapChunkSize

/-- The position `kfree` walks to: `for (i = 1; i < index; i++)` makes `index - 1`
steps from the head. -/
def kfreePos (virtAddress : ℕ) : ℕ := chunkIndex virtAddress - 1

/-- `kfree`, with `none` for the page fault of walking past the last node. The loop
`for (i = 1; i < alloc_length_node; i++)` clears one node less than that length. -/
def kfree (h : List HeapPage) (virtAddress : ℕ) : Option (List HeapPage) :=
  match h[kfreePos virtAddress]? with
  | none => none
  | some current =>
    let cleared := current.allocLength - 1
    if cleared = 0 ∨ h[kfreePos virtAddress + cleared - 1]?.isSome then
      some (setStatus 0 (kfreePos virtAddress) cleared
        (setAllocLength 0 (kfreePos virtAddress) h))
    else none

/-! ### Reading the node list -/

/-- The status of a node. -/
def status (h : List HeapPage) (i : ℕ) : Option UInt8 := h[i]?.map (·.status)

/-- The `alloc_length` of a node, `0` past the end. -/
def allocLength (h : List HeapPage) (i : ℕ) : ℕ := (h[i]?.map (·.allocLength)).getD 0

/-- A node is free. -/
def Free (h : List HeapPage) (i : ℕ) : Prop := status h i = some 0

/-- A node is used. -/
def Used (h : List HeapPage) (i : ℕ) : Prop := status h i = some 1

instance (h : List HeapPage) (i : ℕ) : Decidable (Free h i) :=
  inferInstanceAs (Decidable (status h i = some 0))

instance (h : List HeapPage) (i : ℕ) : Decidable (Used h i) :=
  inferInstanceAs (Decidable (status h i = some 1))

/-- Every node is free or used: no other status is ever stored. -/
def TwoValued (h : List HeapPage) : Prop := ∀ p ∈ h, p.status = 0 ∨ p.status = 1

instance (h : List HeapPage) : Decidable (TwoValued h) :=
  inferInstanceAs (Decidable (∀ p ∈ h, p.status = 0 ∨ p.status = 1))

theorem Used.not_free {h : List HeapPage} {i : ℕ} (hu : Used h i) : ¬Free h i := by
  intro hf
  have h01 : (some 1 : Option UInt8) = some 0 := hu.symm.trans hf
  exact absurd h01 (by decide)

theorem lt_length_of_status {h : List HeapPage} {i : ℕ} {v : UInt8} (hs : status h i = some v) :
    i < h.length := by
  obtain ⟨p, hp, -⟩ := Option.map_eq_some_iff.mp hs
  exact (List.getElem?_eq_some_iff.mp hp).1

theorem TwoValued.used_of_not_free {h : List HeapPage} (h2 : TwoValued h) {i : ℕ}
    (hi : i < h.length) (hf : ¬Free h i) : Used h i := by
  have hget : h[i]? = some h[i] := List.getElem?_eq_getElem hi
  have hst : status h i = some h[i].status := by rw [status, hget, Option.map_some]
  rcases h2 h[i] (List.getElem_mem hi) with h0 | h1
  · exact absurd (hst.trans (congrArg some h0)) hf
  · exact hst.trans (congrArg some h1)

theorem twoValued_iff {h : List HeapPage} :
    TwoValued h ↔ ∀ i v, status h i = some v → v = 0 ∨ v = 1 := by
  constructor
  · intro h2 i v hv
    obtain ⟨p, hp, rfl⟩ := Option.map_eq_some_iff.mp hv
    exact h2 p (List.mem_of_getElem? hp)
  · intro h2 p hp
    obtain ⟨i, hi⟩ := List.mem_iff_getElem?.mp hp
    exact h2 i p.status (by rw [status, hi, Option.map_some])

@[simp] theorem free_nil (i : ℕ) : ¬Free [] i := by simp [Free, status]

@[simp] theorem free_cons_zero (p : HeapPage) (ps : List HeapPage) :
    Free (p :: ps) 0 ↔ p.status = 0 := by simp [Free, status]

@[simp] theorem free_cons_succ (p : HeapPage) (ps : List HeapPage) (i : ℕ) :
    Free (p :: ps) (i + 1) ↔ Free ps i := by simp [Free, status]

/-! ### Writing the node list -/

@[simp] theorem length_setStatus (v : UInt8) (pos n : ℕ) (h : List HeapPage) :
    (setStatus v pos n h).length = h.length := by
  fun_induction setStatus v pos n h <;> simp_all

@[simp] theorem length_setAllocLength (n pos : ℕ) (h : List HeapPage) :
    (setAllocLength n pos h).length = h.length :=
  List.length_modify ..

theorem getElem?_setStatus (v : UInt8) (pos n : ℕ) (h : List HeapPage) (i : ℕ) :
    (setStatus v pos n h)[i]? =
      h[i]?.map fun p => if pos ≤ i ∧ i < pos + n then { p with status := v } else p := by
  induction h generalizing pos n i with
  | nil => simp [setStatus]
  | cons p ps ih =>
    rcases pos with _ | pos
    · rcases n with _ | n
      · simp [setStatus]
      · rcases i with _ | i
        · simp [setStatus]
        · have hin : (0 ≤ i ∧ i < 0 + n) ↔ (0 ≤ i + 1 ∧ i + 1 < 0 + (n + 1)) := by omega
          simp only [setStatus, List.getElem?_cons_succ, ih, hin]
    · rcases i with _ | i
      · simp [setStatus]
      · have hin : (pos ≤ i ∧ i < pos + n) ↔ (pos + 1 ≤ i + 1 ∧ i + 1 < pos + 1 + n) := by omega
        simp only [setStatus, List.getElem?_cons_succ, ih, hin]

@[simp] theorem status_setAllocLength (n pos : ℕ) (h : List HeapPage) (i : ℕ) :
    status (setAllocLength n pos h) i = status h i := by
  rw [status, setAllocLength, List.getElem?_modify, status, Option.map_eq_map, Option.map_map]
  congr 1
  funext p
  simp only [Function.comp_apply]
  split <;> rfl

theorem status_setStatus (v : UInt8) (pos n : ℕ) (h : List HeapPage) (i : ℕ) :
    status (setStatus v pos n h) i =
      if pos ≤ i ∧ i < pos + n then (status h i).map fun _ => v else status h i := by
  rw [status, getElem?_setStatus, Option.map_map]
  split <;> simp_all [status, Function.comp_def]

@[simp] theorem allocLength_setStatus (v : UInt8) (pos n : ℕ) (h : List HeapPage) (i : ℕ) :
    allocLength (setStatus v pos n h) i = allocLength h i := by
  rw [allocLength, getElem?_setStatus, Option.map_map, allocLength]
  congr 2
  funext p
  simp only [Function.comp_apply]
  split <;> rfl

theorem allocLength_setAllocLength {n pos : ℕ} {h : List HeapPage} (hpos : pos < h.length) (i : ℕ) :
    allocLength (setAllocLength n pos h) i = if i = pos then n else allocLength h i := by
  rw [allocLength, setAllocLength, List.getElem?_modify, allocLength]
  rcases eq_or_ne i pos with rfl | hne
  · simp [List.getElem?_eq_getElem hpos]
  · rw [if_neg hne]
    simp [hne.symm]

end Heap

end WillowOS
