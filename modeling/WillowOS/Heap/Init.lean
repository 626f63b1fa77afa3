import WillowOS.Heap.Nodes
import WillowOS.Paging.Ways
import WillowOS.Vm.Basic

/-!
# The heap is built

`init_heap` takes frames in pairs: one that is mapped as a page of the heap, and one for the 64
nodes of that page, which is reached through the direct map. The first pair is made before the
loop, in the other order, and with the frame of the nodes mapped at the start of the heap for
the time being. The loop makes one node in each turn and a new pair in every 64th. Since the head
of the list is made before it, a heap of size `0` has a node all the same.

What has been taken so far is known by its frames alone (`WillowOS.HeapInit.Reserved`): they
were free, they are not any more, and no table of the heap is in them. Writing nodes and mapping
pages do not disturb that. **`WillowOS.HeapInit.soundHeap_initHeap`** is the heap that comes of
it, seen through the walk of the hardware; at the size the kernel is built with, its nodes are
the list `kmalloc` starts from (`WillowOS.HeapInit.SoundHeap.map_pageAt`).

The direct map is supposed to lie outside the heap, and to reach the frames.
-/

namespace WillowOS

namespace HeapInit

open Paging Heap

open Frames hiding State

open Vm (mmuTranslate Canonical HugePage frameNumber)

/-! ### `init_heap` -/

/-- The variables of `init_heap`, with `heap_page_head` and the memory. -/
structure Loop where
  s : Paging.State
  heapPageHead : ℕ
  heapPagePhys : ℕ
  newHeapPage : ℕ
  current : ℕ

/-- The first half of a turn: the place of the next node, and in every 64th turn a new page of
the heap. -/
def nextPlace (hhdmOffset pml4Address : ℕ) (l : Loop) (i : ℕ) : Loop :=
  if i % (4096 / heapChunkSize) = 0 then
    let frame := allocFrame l.s.phys
    let s := (mapPage { l.s with phys := frame.2 } pml4Address frame.1
      ((heapStart + i * heapChunkSize) % 2 ^ 64) 3).2
    let nodes := allocFrame s.phys
    { l with
      s := { s with phys := nodes.2 }
      heapPagePhys := frame.1
      newHeapPage := toVirt hhdmOffset nodes.1 }
  else
    { l with
      heapPagePhys := (l.heapPagePhys + heapChunkSize) % 2 ^ 64
      newHeapPage := (l.newHeapPage + heapChunkSize) % 2 ^ 64 }

/-- The second half: the node is made and put behind `current`. -/
def appendNode (hhdmOffset : ℕ) (l : Loop) : Loop :=
  let mem := makeNode hhdmOffset l.s.phys.mem l.newHeapPage
  let mem := setNext hhdmOffset mem l.current l.newHeapPage
  { l with
    s := { l.s with phys := { l.s.phys with mem := mem } }
    current := nextAt mem (toPhys hhdmOffset l.current) }

/-- One turn of the loop of `init_heap`. -/
def turn (hhdmOffset pml4Address : ℕ) (l : Loop) (i : ℕ) : Loop :=
  appendNode hhdmOffset (nextPlace hhdmOffset pml4Address l i)

/-- The head of the list: its frame is mapped at the start of the heap too. -/
def firstNode (hhdmOffset pml4Address : ℕ) (s : Paging.State) : ℕ × Paging.State :=
  let frame := allocFrame s.phys
  let heapPageHead := toVirt hhdmOffset frame.1
  let s := (mapPage { s with phys := frame.2 } pml4Address (toPhys hhdmOffset heapPageHead)
    heapStart 3).2
  (heapPageHead,
    { s with phys := { s.phys with mem := makeNode hhdmOffset s.phys.mem heapPageHead } })

/-- `init_heap` up to its loop. -/
def beforeLoop (hhdmOffset pml4Address : ℕ) (s : Paging.State) : Loop :=
  let head := firstNode hhdmOffset pml4Address s
  let frame := allocFrame head.2.phys
  let s := (mapPage { head.2 with phys := frame.2 } pml4Address frame.1 heapStart 3).2
  { s := s, heapPageHead := head.1, heapPagePhys := frame.1, newHeapPage := head.1,
    current := head.1 }

/-- `init_heap`, with the size of the heap in place of `HEAP_SIZE_DEFINED`: the value returned,
and the variables at the end. -/
def initHeap (hhdmOffset pml4Address heapSize : ℕ) (s : Paging.State) : ℕ × Loop :=
  (heapStart, (List.range' 1 (heapSize / heapChunkSize - 1)).foldl (turn hhdmOffset pml4Address)
    (beforeLoop hhdmOffset pml4Address s))

/-! ### What it is for -/

/-- The pages of a heap. -/
def heapPages (pages : ℕ) : List ℕ := (List.range pages).map fun i => heapStart + 4096 * i

/-- **What `init_heap` needs**: tables on the ways to the pages of the heap that are its own, a
free list with a frame for every table that is missing there and two for every page, and a
direct map that reaches these frames outside the heap. -/
structure Ready (hhdmOffset root heapSize : ℕ) (s : Phys) : Prop where
  tables : OwnTables root (heapPages (heapSize / 4096)) s
  allocates : Allocates s.regions
  room : (missingTables s.mem root (heapPages (heapSize / 4096))).card + 2 * (heapSize / 4096) ≤
    (freeFrames s.regions).length
  fits : ∀ a ∈ freeFrames s.regions, hhdmOffset + a + 4096 ≤ 2 ^ 64
  outside : ∀ a ∈ freeFrames s.regions,
    hhdmOffset + a + 4096 ≤ heapStart ∨ heapStart + heapSize ≤ hhdmOffset + a

/-- **A sound heap**: the list of its nodes, one for each chunk and all of them free, each in
bytes of its own in the direct map of a frame that was free; and the frames its pages are mapped
to by the hardware, which were free and are taken, each for one page and none for nodes. -/
structure SoundHeap (hhdmOffset root heapSize : ℕ) (s₀ : Phys) (r : Loop)
    (nodes frames : List ℕ) : Prop where
  list : NodeList hhdmOffset r.s.phys.mem r.heapPageHead nodes
  length_nodes : nodes.length = heapSize / heapChunkSize
  page : ∀ p ∈ nodes, pageAt r.s.phys.mem (toPhys hhdmOffset p) = freePage
  apart : nodes.Pairwise fun p p' => p + 32 ≤ p' ∨ p' + 32 ≤ p
  direct : ∀ p ∈ nodes, ∃ a ∈ freeFrames s₀.regions,
    hhdmOffset + a ≤ p ∧ p + 32 ≤ hhdmOffset + a + 4096
  outside : ∀ p ∈ nodes, p + 32 ≤ heapStart ∨ heapStart + heapSize ≤ p
  length_frames : frames.length = heapSize / 4096
  nodup : frames.Nodup
  taken : ∀ f ∈ frames,
    4096 * f ∈ freeFrames s₀.regions ∧ 4096 * f ∉ freeFrames r.s.phys.regions
  mapped : ∀ i < frames.length, ∀ w, w / 4096 = heapStart / 4096 + i →
    mmuTranslate r.s.phys.mem (4096 * root) w = some (4096 * frames.getD i 0 + w % 4096)
  separate : ∀ p ∈ nodes, toPhys hhdmOffset p / 4096 ∉ frames

variable {hhdmOffset root heapSize pages k n v w a f : ℕ} {ws F H N : List ℕ} {s s₀ : Phys}
  {m : Mem}

/-- **The nodes are the list `kmalloc` starts from.** -/
theorem SoundHeap.map_pageAt {r : Loop} {nodes frames : List ℕ}
    (h : SoundHeap hhdmOffset root Heap.heapSize s₀ r nodes frames) :
    nodes.map (fun p => pageAt r.s.phys.mem (toPhys hhdmOffset p)) = Heap.initHeap := by
  refine List.eq_replicate_iff.mpr ⟨?_, fun q hq => ?_⟩
  · rw [List.length_map, h.length_nodes]
  · obtain ⟨p, hp, rfl⟩ := List.mem_map.mp hq
    exact h.page p hp

/-! ### The frames taken so far -/

/-- The frames `F` were taken from the free ones, hold no table on the ways, and leave `n` frames
beyond those for the missing tables. -/
structure Reserved (root : ℕ) (ws : List ℕ) (s₀ : Phys) (F : List ℕ) (n : ℕ) (s : Phys) :
    Prop where
  tables : OwnTables root ws s
  free : freeFrames s.regions <:+ freeFrames s₀.regions
  room : (missingTables s.mem root ws).card + n ≤ (freeFrames s.regions).length
  nodup : F.Nodup
  held : ∀ f ∈ F, Held root ws s f
  wasFree : ∀ f ∈ F, 4096 * f ∈ freeFrames s₀.regions

namespace Reserved

/-- The order in which they were taken does not matter. -/
theorem perm {F' : List ℕ} (h : Reserved root ws s₀ F n s) (hF : F.Perm F') :
    Reserved root ws s₀ F' n s where
  tables := h.tables
  free := h.free
  room := h.room
  nodup := hF.nodup_iff.mp h.nodup
  held := fun f hf => h.held f (hF.mem_iff.mpr hf)
  wasFree := fun f hf => h.wasFree f (hF.mem_iff.mpr hf)

/-- **One frame more is taken**: it is new, and nothing else is changed. -/
theorem alloc (h : Reserved root ws s₀ F (n + 1) s) (hA : Allocates s₀.regions) :
    ∃ f, (allocFrame s).1 = 4096 * f ∧ Reserved root ws s₀ (f :: F) n (allocFrame s).2 ∧
      (∀ w ∈ ws, leaf (allocFrame s).2.mem root w = leaf s.mem root w) ∧
      ∀ g ∈ F, ∀ x, x / 4096 = g → (allocFrame s).2.mem x = s.mem x := by
  have hpos : 0 < (freeFrames s.regions).length := by
    have := h.room
    omega
  obtain ⟨a, fs, hfree⟩ := List.exists_cons_of_ne_nil (List.ne_nil_of_length_pos hpos)
  obtain ⟨rs', halloc, rfl, -⟩ := allocFrame_of_cons hfree
  have ha : a ∈ freeFrames s.regions := hfree ▸ List.mem_cons_self
  obtain ⟨f, rfl, -, -⟩ := (hA.mono h.free).exists_frame ha
  have hnodup := (hA.mono h.free).nodup
  rw [hfree] at hnodup
  rw [halloc]
  -- the frame is no table, so the tables are as they were
  have hentry : ∀ q ∈ waysTo ws, ∀ t, walk (next s.mem) root q = some t →
      ∀ j, entry (s.mem.memset (4096 * f) 0 4096) t j = entry s.mem t j := by
    rintro q hq t hw j
    rw [entry_memset, if_neg]
    rintro rfl
    exact h.tables.ne_of_free ha hq hw
  have hways : SameWays root ws s.mem (s.mem.memset (4096 * f) 0 4096) :=
    fun q i t hqi hw => hentry q (waysTo_of_concat q i hqi) t hw i
  have hsub : freeFrames rs' <:+ freeFrames s.regions := hfree ▸ List.suffix_cons _ _
  have hnew : f ∉ F := fun hf => (h.held f hf).1 ha
  refine ⟨f, rfl, ⟨hways.ownTables h.tables hsub, hsub.trans h.free, ?_, ?_, ?_, ?_⟩,
    fun w hw => hways.leaf_eq hw fun pt hpt => hentry _ (tablePath_mem_waysTo hw) pt hpt _,
    fun g hg x hx => ?_⟩
  · have hroom := h.room
    rw [hfree, List.length_cons] at hroom
    show (missingTables (s.mem.memset (4096 * f) 0 4096) root ws).card + n ≤
      (freeFrames rs').length
    rw [hways.missingTables_eq]
    omega
  · exact List.nodup_cons.mpr ⟨hnew, h.nodup⟩
  · intro g hg
    rcases List.mem_cons.mp hg with rfl | hg
    · refine ⟨(List.nodup_cons.mp hnodup).1, fun q hq => ?_⟩
      show walk (next (s.mem.memset (4096 * g) 0 4096)) root q ≠ some g
      rw [hways.walk_eq hq]
      exact h.tables.ne_of_free ha hq
    · exact hways.held (h.held g hg) hsub
  · intro g hg
    rcases List.mem_cons.mp hg with rfl | hg
    · exact h.free.subset ha
    · exact h.wasFree g hg
  · have hgf : g ≠ f := fun hgf => hnew (hgf ▸ hg)
    exact Mem.memset_of_notMem (by omega)

/-- **A page is mapped**: the frames taken are as they were. -/
theorem map {s : Paging.State} (h : Reserved root ws s₀ F n s.phys) (hA : Allocates s₀.regions)
    (ha : a % 4096 = 0) (ha64 : a < 2 ^ 64) (hv : v ∈ ws) :
    Reserved root ws s₀ F n (mapPage s (4096 * root) a v 3).2.phys ∧
      Mapped root ws v (a + 3) s.phys (mapPage s (4096 * root) a v 3).2.phys := by
  have hM := mapped_mapPage h.tables (hA.mono h.free) (Nat.le_of_add_right_le h.room) ha ha64
    (show 3 < 4096 by decide) (by decide) (by decide) hv
  exact ⟨⟨hM.tables, hM.free.trans h.free, hM.room n h.room, h.nodup,
    fun f hf => (hM.held f (h.held f hf)).1, h.wasFree⟩, hM⟩

/-- **Their contents are written**: no table sees it. -/
theorem write (h : Reserved root ws s₀ F n s) (hm : ∀ x, x / 4096 ∉ F → m x = s.mem x) :
    Reserved root ws s₀ F n { s with mem := m } ∧
      ∀ w ∈ ws, leaf m root w = leaf s.mem root w := by
  have hentry : ∀ q ∈ waysTo ws, ∀ t, walk (next s.mem) root q = some t →
      ∀ j, entry m t j = entry s.mem t j := by
    intro q hq t hw j
    refine entry_congr fun x hx => hm x ?_
    rw [hx]
    exact fun ht => (h.held t ht).2 q hq hw
  have hways : SameWays root ws s.mem m :=
    fun q i t hqi hw => hentry q (waysTo_of_concat q i hqi) t hw i
  have hroom := h.room
  rw [← hways.missingTables_eq] at hroom
  exact ⟨⟨hways.ownTables h.tables List.suffix_rfl, h.free, hroom, h.nodup,
    fun f hf => hways.held (h.held f hf) List.suffix_rfl, h.wasFree⟩,
    fun w hw => hways.leaf_eq hw fun pt hpt => hentry _ (tablePath_mem_waysTo hw) pt hpt _⟩

end Reserved

/-! ### The heap so far -/

/-- **The heap after `k` nodes**: its first pages are mapped to the frames `H`, and the nodes are
a chain in the frames `N`. -/
structure Placed (hhdmOffset root pages : ℕ) (s₀ : Phys) (k : ℕ) (H N : List ℕ) (s : Phys) :
    Prop where
  reserved : Reserved root (heapPages pages) s₀ (H ++ N) (2 * (pages - H.length)) s
  length_eq : N.length = H.length
  length_le : H.length ≤ pages
  leaf_eq : ∀ j < H.length, leaf s.mem root (heapStart + 4096 * j) = some (4096 * H.getD j 0 + 3)
  chain : Chain hhdmOffset N k s.mem

/-- The same between two turns of the loop: there is room for `k` nodes and for less than 64
more, and the pointers are at the last one. -/
def Built (hhdmOffset root pages : ℕ) (s₀ : Phys) (k : ℕ) (l : Loop) : Prop :=
  ∃ H N, Placed hhdmOffset root pages s₀ k H N l.s.phys ∧ H.length = (k + 63) / 64 ∧
    l.heapPageHead = hhdmOffset + nodeAddr N 0 ∧
    l.newHeapPage = hhdmOffset + nodeAddr N (k - 1) ∧ l.current = l.newHeapPage

theorem mem_heapPages : v ∈ heapPages pages ↔ ∃ i < pages, heapStart + 4096 * i = v := by
  simp [heapPages]

/-- The pages of a heap have different numbers. -/
theorem pageNumber_heapPage {j : ℕ} (hj : j < 2 ^ 34) :
    pageNumber (heapStart + 4096 * j) = 2 ^ 36 - 2 ^ 34 + j := by
  rw [pageNumber, heapStart]
  omega

/-- **A node is appended** where there is room for it. -/
theorem Placed.node (h : Placed hhdmOffset root pages s₀ (k + 1) H N s)
    (hfits : ∀ a ∈ freeFrames s₀.regions, hhdmOffset + a + 4096 ≤ 2 ^ 64)
    (hk : k + 1 < 64 * H.length) :
    Placed hhdmOffset root pages s₀ (k + 2) H N
      ⟨s.regions, setNext hhdmOffset
        (makeNode hhdmOffset s.mem (hhdmOffset + nodeAddr N (k + 1))) (hhdmOffset + nodeAddr N k)
        (hhdmOffset + nodeAddr N (k + 1))⟩ := by
  have hN : ∀ f ∈ N, hhdmOffset + 4096 * f + 4096 ≤ 2 ^ 64 :=
    fun f hf => hfits _ (h.reserved.wasFree f (List.mem_append_right _ hf))
  rw [← h.length_eq] at hk
  have hchain := h.chain.snoc hk (List.nodup_append.mp h.reserved.nodup).2.1 hN
  -- what is written is in the frames of the nodes
  have hnode : ∀ i < 64 * N.length, nodeAddr N i / 4096 ∈ H ++ N ∧
      nodeAddr N i % 4096 + 64 ≤ 4096 ∧ nodeAddr N i < 2 ^ 64 := by
    intro i hi
    have hmem := nodeAddr_div_mem hi
    have := hN _ hmem
    exact ⟨List.mem_append_right _ hmem, nodeAddr_mod_le, by omega⟩
  obtain ⟨hnew, hmod, hlt⟩ := hnode (k + 1) hk
  obtain ⟨hold, hmod', hlt'⟩ := hnode k (by omega)
  have hsame : ∀ x, x / 4096 ∉ H ++ N → setNext hhdmOffset
      (makeNode hhdmOffset s.mem (hhdmOffset + nodeAddr N (k + 1))) (hhdmOffset + nodeAddr N k)
      (hhdmOffset + nodeAddr N (k + 1)) x = s.mem x := by
    intro x hx
    have hx1 : x / 4096 ≠ nodeAddr N (k + 1) / 4096 := fun heq => hx (heq ▸ hnew)
    have hx2 : x / 4096 ≠ nodeAddr N k / 4096 := fun heq => hx (heq ▸ hold)
    rw [setNext_apply hlt' (by omega), makeNode_apply hlt (by omega)]
  obtain ⟨hres, hleaf⟩ := h.reserved.write hsame
  refine ⟨hres, h.length_eq, h.length_le, fun j hj => ?_, hchain⟩
  have hpage := mem_heapPages.mpr ⟨j, hj.trans_le h.length_le, rfl⟩
  rw [hleaf _ hpage, h.leaf_eq j hj]

/-- **A page is added**, with a frame for its nodes. -/
theorem Placed.page {s : Paging.State} (h : Placed hhdmOffset root pages s₀ k H N s.phys)
    (hA : Allocates s₀.regions) (hpages : pages ≤ 2 ^ 34) (hH : H.length < pages)
    (hk : k ≤ 64 * H.length) :
    let s' := (mapPage { s with phys := (allocFrame s.phys).2 } (4096 * root)
      (allocFrame s.phys).1 (heapStart + 4096 * H.length) 3).2
    ∃ f g, (allocFrame s'.phys).1 = 4096 * g ∧
      Placed hhdmOffset root pages s₀ k (H ++ [f]) (N ++ [g]) (allocFrame s'.phys).2 := by
  intro s'
  have hv : heapStart + 4096 * H.length ∈ heapPages pages := mem_heapPages.mpr ⟨_, hH, rfl⟩
  have hroom : 2 * (pages - H.length) = 2 * (pages - (H.length + 1)) + 1 + 1 := by omega
  have hres₀ := h.reserved
  rw [hroom] at hres₀
  obtain ⟨f, hf, hres₁, hleaf₁, hmem₁⟩ := hres₀.alloc hA
  have hflt := hA.lt _ (hres₁.wasFree f List.mem_cons_self)
  have hs' : s' = (mapPage { s with phys := (allocFrame s.phys).2 } (4096 * root)
      (4096 * f) (heapStart + 4096 * H.length) 3).2 := by rw [← hf]
  obtain ⟨hres₂, hM⟩ := Reserved.map (s := { s with phys := (allocFrame s.phys).2 }) hres₁ hA
    (a := 4096 * f) (by omega) (by omega) hv
  rw [← hs'] at hres₂ hM
  obtain ⟨g, hg, hres₃, hleaf₃, hmem₃⟩ := hres₂.alloc hA
  have hperm : (g :: f :: (H ++ N)).Perm (H ++ [f] ++ (N ++ [g])) := by
    rw [← List.append_assoc]
    refine (List.Perm.cons g ?_).trans (List.perm_append_singleton g _).symm
    rw [List.append_assoc, List.singleton_append]
    exact List.perm_middle.symm
  have hlen : (H ++ [f]).length = H.length + 1 := List.length_append
  refine ⟨f, g, hg, ?_, ?_, ?_, fun j hj => ?_, ?_⟩
  · rw [hlen]
    exact hres₃.perm hperm
  · rw [List.length_append, hlen, h.length_eq, List.length_singleton]
  · rw [hlen]
    exact hH
  · rw [hlen] at hj
    have hjv : heapStart + 4096 * j ∈ heapPages pages := mem_heapPages.mpr ⟨j, by omega, rfl⟩
    rw [hleaf₃ _ hjv]
    rcases Nat.lt_succ_iff_lt_or_eq.mp hj with hlt | rfl
    · have hne : pageNumber (heapStart + 4096 * j) ≠ pageNumber (heapStart + 4096 * H.length) := by
        rw [pageNumber_heapPage (by omega), pageNumber_heapPage (by omega)]
        omega
      rw [hM.leaf_of_ne _ hjv hne, List.getD_append _ _ _ _ hlt, ← h.leaf_eq j hlt]
      exact hleaf₁ _ hjv
    · rw [hM.leaf_self, List.getD_append_right _ _ _ _ le_rfl, Nat.sub_self]
      rfl
  · -- none of the three calls writes to a frame with nodes
    have hkN : k ≤ 64 * N.length := h.length_eq ▸ hk
    refine (h.chain.congr hkN fun n hn x hx => ?_).append hkN
    have hmem : n ∈ f :: (H ++ N) := List.mem_cons_of_mem _ (List.mem_append_right _ hn)
    rw [hmem₃ n hmem x hx, (hM.held n (hres₁.held n hmem)).2 x hx]
    exact hmem₁ n (List.mem_append_right _ hn) x hx

theorem Placed.ptr_lt (h : Placed hhdmOffset root pages s₀ k H N s)
    (hfits : ∀ a ∈ freeFrames s₀.regions, hhdmOffset + a + 4096 ≤ 2 ^ 64) {i : ℕ}
    (hi : i < 64 * N.length) : hhdmOffset + nodeAddr N i + 64 ≤ 2 ^ 64 := by
  have hmem := h.reserved.wasFree _ (List.mem_append_right H (nodeAddr_div_mem hi))
  have hle := hfits _ hmem
  have hmod := nodeAddr_mod_le (N := N) (i := i)
  omega

section Loop

variable (hA : Allocates s₀.regions)
  (hfits : ∀ a ∈ freeFrames s₀.regions, hhdmOffset + a + 4096 ≤ 2 ^ 64)
include hA hfits

/-- **The place of the next node**: in the frame of the last one, or at the start of a new
frame. -/
theorem Built.nextPlace {l : Loop} (h : Built hhdmOffset root pages s₀ (k + 1) l)
    (hpages : pages ≤ 2 ^ 34) (hk : k + 1 < 64 * pages) :
    ∃ H N, Placed hhdmOffset root pages s₀ (k + 1) H N
        (nextPlace hhdmOffset (4096 * root) l (k + 1)).s.phys ∧ H.length = (k + 2 + 63) / 64 ∧
      (nextPlace hhdmOffset (4096 * root) l (k + 1)).heapPageHead = hhdmOffset + nodeAddr N 0 ∧
      (nextPlace hhdmOffset (4096 * root) l (k + 1)).newHeapPage =
        hhdmOffset + nodeAddr N (k + 1) ∧
      (nextPlace hhdmOffset (4096 * root) l (k + 1)).current = hhdmOffset + nodeAddr N k := by
  obtain ⟨H, N, hP, hH, hhead, hnew, hcur⟩ := h
  have hN := hP.length_eq
  rw [Nat.add_sub_cancel] at hnew
  rw [HeapInit.nextPlace]
  split_ifs with hpage
  · -- the last frame is full
    have hmod : (k + 1) % 64 = 0 := hpage
    have haddr : (heapStart + (k + 1) * heapChunkSize) % 2 ^ 64 = heapStart + 4096 * H.length := by
      rw [heapStart, heapChunkSize]
      omega
    rw [haddr]
    obtain ⟨f, g, hg, hP'⟩ := hP.page hA hpages (by omega) (by omega)
    have hlen : k + 1 = 64 * N.length := by omega
    have hroom : k + 1 < 64 * (N ++ [g]).length := by
      rw [List.length_append, List.length_singleton]
      omega
    have hlt := hP'.ptr_lt hfits hroom
    rw [hlen, nodeAddr_concat] at hlt
    refine ⟨H ++ [f], N ++ [g], hP', ?_, ?_, ?_, ?_⟩
    · rw [List.length_append, List.length_singleton]
      omega
    · show l.heapPageHead = _
      rw [hhead, nodeAddr_append (by omega)]
    · show toVirt hhdmOffset _ = _
      rw [hg, toVirt_eq (by omega), hlen, nodeAddr_concat]
    · show l.current = _
      rw [hcur, hnew, nodeAddr_append (by omega)]
  · have hmod : (k + 1) % 64 ≠ 0 := hpage
    have hlt := hP.ptr_lt hfits (i := k + 1) (by omega)
    have hsucc := nodeAddr_succ (N := N) hmod
    refine ⟨H, N, hP, by omega, hhead, ?_, hcur.trans hnew⟩
    show (l.newHeapPage + heapChunkSize) % 2 ^ 64 = _
    rw [hnew, heapChunkSize]
    omega

/-- **One turn of the loop.** -/
theorem Built.turn {l : Loop} (h : Built hhdmOffset root pages s₀ (k + 1) l)
    (hpages : pages ≤ 2 ^ 34) (hk : k + 1 < 64 * pages) :
    Built hhdmOffset root pages s₀ (k + 2) (turn hhdmOffset (4096 * root) l (k + 1)) := by
  obtain ⟨H, N, hP, hH, hhead, hnew, hcur⟩ := h.nextPlace hA hfits hpages hk
  have hN := hP.length_eq
  have hlt := hP.ptr_lt hfits (i := k + 1) (by omega)
  have hlt' := hP.ptr_lt hfits (i := k) (by omega)
  rw [HeapInit.turn, appendNode, hnew, hcur]
  refine ⟨H, N, hP.node hfits (by omega), hH, hhead, rfl, ?_⟩
  show nextAt _ _ = _
  rw [toPhys_add (by omega), nextAt_setNext (by omega) (by omega)]

/-- **The whole loop.** -/
theorem Built.foldl_turn {l : Loop} (h : Built hhdmOffset root pages s₀ (k + 1) l)
    (hpages : pages ≤ 2 ^ 34) (hn : k + 1 + n ≤ 64 * pages) :
    Built hhdmOffset root pages s₀ (k + 1 + n)
      ((List.range' (k + 1) n).foldl (HeapInit.turn hhdmOffset (4096 * root)) l) := by
  induction n generalizing k l with
  | zero => exact h
  | succ n ih =>
    rw [List.range'_succ, List.foldl_cons, show k + 1 + (n + 1) = k + 1 + 1 + n by omega]
    exact ih (h.turn hA hfits hpages (by omega)) (by omega)

/-! ### Before the loop -/

/-- **The head of the list.** -/
theorem reserved_firstNode {s : Paging.State} (h : Reserved root ws s₀ [] (n + 1) s.phys)
    (hv : heapStart ∈ ws) :
    ∃ f, (firstNode hhdmOffset (4096 * root) s).1 = hhdmOffset + 4096 * f ∧
      Reserved root ws s₀ [f] n (firstNode hhdmOffset (4096 * root) s).2.phys ∧
      Chain hhdmOffset [f] 1 (firstNode hhdmOffset (4096 * root) s).2.phys.mem := by
  obtain ⟨f, hf, hres₁, -, -⟩ := h.alloc hA
  have hlt := hfits _ (hres₁.wasFree f List.mem_cons_self)
  have hhead : toVirt hhdmOffset (4096 * f) = hhdmOffset + 4096 * f := toVirt_eq (by omega)
  obtain ⟨hres₂, -⟩ := Reserved.map (s := { s with phys := (allocFrame s.phys).2 }) hres₁ hA
    (a := 4096 * f) (by omega) (by omega) hv
  rw [firstNode, hf, hhead, toPhys_add (by omega)]
  refine ⟨f, rfl, (hres₂.write fun x hx => ?_).1, chain_makeNode (by omega)⟩
  have hne : x / 4096 ≠ f := fun heq => hx (heq ▸ List.mem_cons_self)
  exact makeNode_apply (by omega) (by omega)

/-- **The heap before the loop**: one page is mapped, and one node is made. -/
theorem built_beforeLoop {s : Paging.State}
    (h : Reserved root (heapPages pages) s₀ [] (2 * pages) s.phys) (hpos : 0 < pages) :
    Built hhdmOffset root pages s₀ 1 (beforeLoop hhdmOffset (4096 * root) s) := by
  have hv : heapStart ∈ heapPages pages := mem_heapPages.mpr ⟨0, hpos, rfl⟩
  rw [show 2 * pages = 2 * (pages - 1) + 1 + 1 by omega] at h
  obtain ⟨g, hhead, hres, hchain⟩ := reserved_firstNode hA hfits h hv
  obtain ⟨f, hf, hres₁, -, hmem₁⟩ := hres.alloc hA
  have hlt := hA.lt _ (hres₁.wasFree f List.mem_cons_self)
  obtain ⟨hres₂, hM⟩ := Reserved.map
    (s := { (firstNode hhdmOffset (4096 * root) s).2 with
      phys := (allocFrame (firstNode hhdmOffset (4096 * root) s).2.phys).2 }) hres₁ hA
    (a := 4096 * f) (by omega) (by omega) hv
  rw [beforeLoop, hf]
  refine ⟨[f], [g], ⟨hres₂, rfl, hpos, fun j hj => ?_, ?_⟩, rfl, hhead, hhead, rfl⟩
  · obtain rfl : j = 0 := Nat.lt_one_iff.mp hj
    exact hM.leaf_self
  · refine hchain.congr (by simp) fun n hn x hx => ?_
    have hmem : n ∈ [f, g] := List.mem_cons_of_mem _ hn
    exact ((hM.held n (hres₁.held n hmem)).2 x hx).trans (hmem₁ n hn x hx)

end Loop

/-! ### The whole of `init_heap` -/

/-- **The hardware finds the pages on the ways** where their entries say. -/
theorem mmuTranslate_of_leaf {e : ℕ} (hT : OwnTables root ws s) (hv : v ∈ ws)
    (hleaf : leaf s.mem root v = some e) (he : e < 2 ^ 52) (hc : Canonical w)
    (hpage : pageNumber w = pageNumber v) :
    mmuTranslate s.mem (4096 * root) w = some (4096 * (e / 4096) + w % 4096) := by
  rw [← leaf_of_pageNumber_eq hpage, leaf] at hleaf
  have hpath : tablePath w ∈ waysTo ws := (pageNumber_eq_iff.mp hpage).1 ▸ tablePath_mem_waysTo hv
  have hway₂ : [] ++ [pml4Index w] ++ [pdptIndex w] ++ [pdIndex w] ∈ waysTo ws := hpath
  have hway₃ := waysTo_of_concat _ _ hway₂
  have hway₄ := waysTo_of_concat _ _ hway₃
  obtain ⟨t₁, hw₁, hleaf⟩ := Option.bind_eq_some_iff.mp hleaf
  obtain ⟨t₂, hw₂, h₂⟩ := walk_concat_eq_some (p := [pml4Index w, pdptIndex w]).mp hw₁
  obtain ⟨t₃, hw₃, h₃⟩ := walk_concat_eq_some (p := [pml4Index w]).mp hw₂
  have h₄ := hw₃
  rw [walk_singleton] at h₄
  have hlt₁ := hT.lt _ hway₂ t₁ hw₁
  have hlt₂ := hT.lt _ hway₃ t₂ hw₂
  have hlt₃ := hT.lt _ hway₄ t₃ hw₃
  obtain ⟨hp₁, hentry⟩ := ifPresent_eq_some.mp hleaf
  obtain ⟨hp₂, hf₂⟩ := next_eq_some.mp h₂
  obtain ⟨hp₃, hf₃⟩ := next_eq_some.mp h₃
  obtain ⟨hp₄, hf₄⟩ := next_eq_some.mp h₄
  have hs₃ := hT.notHuge _ _ t₃ (by simp) hway₃ hw₃ hp₃
  have hs₂ := hT.notHuge _ _ t₂ (by simp) hway₂ hw₂ hp₂
  -- the hardware takes fewer bits of an entry, but the tables are below them
  have hframe : ∀ e : ℕ, e / 4096 < 2 ^ 40 → frameNumber e = e / 4096 :=
    fun e he => Nat.mod_eq_of_lt he
  have hread : ∀ t i, readEntry s.mem (4096 * t) i = entry s.mem t i := fun _ _ => rfl
  simp only [mmuTranslate, hread]
  rw [hframe _ (by omega), hf₄, hframe _ (by omega), hf₃, hframe _ (by omega), hf₂, hentry,
    hframe _ (by omega), if_neg (by simp [hc, hp₄, hp₃]), if_neg, if_neg (not_not_intro hp₂),
    if_neg, if_neg (not_not_intro (hentry ▸ hp₁))]
  · rw [HugePage, hs₂]
    decide
  · rw [HugePage, hs₃]
    decide

/-- The free frames below 2⁴⁷ are not more than there are pages. -/
theorem length_freeFrames_le {rs : List Region} (hA : Allocates rs) :
    (freeFrames rs).length ≤ 2 ^ 35 := by
  have hbound : ∀ b, (∀ a ∈ freeFrames rs, a / 4096 < b) → (freeFrames rs).length ≤ b := by
    intro b hb
    have hinj : ((freeFrames rs).map (· / 4096)).Nodup := by
      refine List.Nodup.map_on (fun x hx y hy hxy => ?_) hA.nodup
      have := hA.aligned x hx
      have := hA.aligned y hy
      omega
    have hsub : ((freeFrames rs).map (· / 4096)).toFinset ⊆ Finset.range b := by
      intro x hx
      obtain ⟨a, ha, rfl⟩ := List.mem_map.mp (List.mem_toFinset.mp hx)
      exact Finset.mem_range.mpr (hb a ha)
    have hcard := Finset.card_le_card hsub
    rwa [List.toFinset_card_of_nodup hinj, List.length_map, Finset.card_range] at hcard
  refine hbound _ fun a ha => ?_
  have := hA.lt a ha
  omega

section AllNodes

variable {l : Loop} (h : Placed hhdmOffset root pages s₀ (64 * pages) H N l.s.phys)
  (hready : Ready hhdmOffset root (4096 * pages) s₀) (hH : H.length = pages)
include h hready hH

/-- The pointers to the nodes, with the frames they are in. -/
theorem Placed.of_mem_nodes {p : ℕ}
    (hp : p ∈ (List.range' 0 (64 * pages)).map fun i => hhdmOffset + nodeAddr N i) :
    ∃ i < 64 * pages, p = hhdmOffset + nodeAddr N i ∧ toPhys hhdmOffset p = nodeAddr N i ∧
      nodeAddr N i / 4096 ∈ N ∧ 4096 * (nodeAddr N i / 4096) ∈ freeFrames s₀.regions := by
  have hN : N.length = pages := h.length_eq.trans hH
  obtain ⟨i, hi, rfl⟩ := List.mem_map.mp hp
  have hi : i < 64 * pages := by simpa using hi
  have hmem : nodeAddr N i / 4096 ∈ N := nodeAddr_div_mem (by omega)
  have hlt := h.ptr_lt hready.fits (i := i) (by omega)
  exact ⟨i, hi, rfl, toPhys_add (by omega), hmem,
    h.reserved.wasFree _ (List.mem_append_right _ hmem)⟩

/-- Their list. -/
theorem Placed.nodeList (hpos : 0 < pages) :
    NodeList hhdmOffset l.s.phys.mem (hhdmOffset + nodeAddr N 0)
      ((List.range' 0 (64 * pages)).map fun i => hhdmOffset + nodeAddr N i) := by
  have hN : N.length = pages := h.length_eq.trans hH
  have hfree : ∀ f ∈ N, 4096 * f ∈ freeFrames s₀.regions :=
    fun f hf => h.reserved.wasFree f (List.mem_append_right _ hf)
  obtain ⟨n, hn⟩ : ∃ n, 64 * pages = n + 1 := ⟨64 * pages - 1, by omega⟩
  rw [hn]
  refine h.chain.nodeList (by omega) (fun f hf => ?_) (fun f hf => ?_) (by omega)
  · have := hready.allocates.ne_zero _ (hfree f hf)
    omega
  · have := hready.allocates.lt _ (hfree f hf)
    omega

/-- The pages, for the hardware. -/
theorem Placed.mmuTranslate_eq {i : ℕ} (hi : i < pages) (hw : w / 4096 = heapStart / 4096 + i) :
    mmuTranslate l.s.phys.mem (4096 * root) w = some (4096 * H.getD i 0 + w % 4096) := by
  have hiH : i < H.length := hH ▸ hi
  have hmem : H.getD i 0 ∈ H := by
    rw [List.getD_eq_getElem _ _ hiH]
    exact List.getElem_mem hiH
  have hlt := hready.allocates.lt _ (h.reserved.wasFree _ (List.mem_append_left _ hmem))
  have hnumber : pageNumber w = pageNumber (heapStart + 4096 * i) := by
    have haddr : (heapStart + 4096 * i) / 4096 = heapStart / 4096 + i := by omega
    rw [pageNumber, pageNumber, hw, haddr]
  have hcanonical : Canonical w := by
    rw [heapStart] at hw
    exact Or.inr (by omega)
  rw [mmuTranslate_of_leaf h.reserved.tables (mem_heapPages.mpr ⟨i, hi, rfl⟩) (h.leaf_eq i hiH)
      (by omega) hcanonical hnumber,
    show (4096 * H.getD i 0 + 3) / 4096 = H.getD i 0 by omega]

/-- **The heap with all its nodes** is sound. -/
theorem Placed.soundHeap (hpos : 0 < pages) (hhead : l.heapPageHead = hhdmOffset + nodeAddr N 0) :
    SoundHeap hhdmOffset root (4096 * pages) s₀ l
      ((List.range' 0 (64 * pages)).map fun i => hhdmOffset + nodeAddr N i) H := by
  have hN : N.length = pages := h.length_eq.trans hH
  obtain ⟨hHnodup, hNnodup, hdisj⟩ := List.nodup_append.mp h.reserved.nodup
  have hmod : ∀ i, nodeAddr N i % 4096 + 64 ≤ 4096 := fun _ => nodeAddr_mod_le
  constructor
  case list =>
    rw [hhead]
    exact h.nodeList hready hH hpos
  case length_nodes =>
    rw [List.length_map, List.length_range', heapChunkSize]
    omega
  case page =>
    intro p hp
    obtain ⟨i, hi, rfl, hphys, -⟩ := h.of_mem_nodes hready hH hp
    rw [hphys, h.chain.page i hi]
  case apart =>
    refine List.pairwise_map.mpr (List.Pairwise.imp_of_mem (fun {i j} hi hj hij => ?_)
      (List.nodup_range' (s := 0) (n := 64 * pages)))
    have hi : i < 64 * pages := by simpa using hi
    have hj : j < 64 * pages := by simpa using hj
    have := nodeAddr_disjoint hNnodup (i := i) (j := j) (by omega) (by omega) hij
    omega
  case direct =>
    intro p hp
    obtain ⟨i, hi, rfl, -, -, hfree⟩ := h.of_mem_nodes hready hH hp
    have := hmod i
    exact ⟨_, hfree, by omega, by omega⟩
  case outside =>
    intro p hp
    obtain ⟨i, hi, rfl, -, -, hfree⟩ := h.of_mem_nodes hready hH hp
    have := hmod i
    have := hready.outside _ hfree
    omega
  case length_frames =>
    rw [hH]
    omega
  case nodup => exact hHnodup
  case taken =>
    intro f hf
    have hmem : f ∈ H ++ N := List.mem_append_left _ hf
    exact ⟨h.reserved.wasFree f hmem, (h.reserved.held f hmem).1⟩
  case mapped =>
    intro i hi w hw
    exact h.mmuTranslate_eq hready hH (hH ▸ hi) hw
  case separate =>
    intro p hp
    obtain ⟨i, hi, rfl, hphys, hmem, -⟩ := h.of_mem_nodes hready hH hp
    rw [hphys]
    exact fun hf => hdisj _ hf _ hmem rfl

end AllNodes

/-- **`init_heap` builds a sound heap**, for every size but `0`. -/
theorem soundHeap_initHeap {s : Paging.State} (hsize : heapSize % 4096 = 0) (hpos : 0 < heapSize)
    (h : Ready hhdmOffset root heapSize s.phys) :
    ∃ nodes frames, SoundHeap hhdmOffset root heapSize s.phys
      (initHeap hhdmOffset (4096 * root) heapSize s).2 nodes frames := by
  have hA := h.allocates
  obtain ⟨pages, rfl⟩ : ∃ pages, heapSize = 4096 * pages := ⟨heapSize / 4096, by omega⟩
  have hdiv : 4096 * pages / 4096 = pages := by omega
  have hchunks : 4096 * pages / heapChunkSize = 64 * pages := by
    rw [heapChunkSize]
    omega
  have hT := h.tables
  have hroom := h.room
  rw [hdiv] at hT hroom
  have hpages : pages ≤ 2 ^ 34 := by
    have := length_freeFrames_le hA
    omega
  have hres : Reserved root (heapPages pages) s.phys [] (2 * pages) s.phys :=
    ⟨hT, List.suffix_rfl, hroom, List.nodup_nil, fun _ hf => absurd hf List.not_mem_nil,
      fun _ hf => absurd hf List.not_mem_nil⟩
  have hbuilt := (built_beforeLoop hA h.fits hres (by omega)).foldl_turn
    (k := 0) (n := 64 * pages - 1) hA h.fits hpages (by omega)
  rw [show 0 + 1 + (64 * pages - 1) = 64 * pages by omega] at hbuilt
  obtain ⟨H, N, hP, hH, hhead, -, -⟩ := hbuilt
  rw [initHeap, hchunks]
  exact ⟨_, H, hP.soundHeap h (by omega) (by omega) hhead⟩

/-! ### A cleared memory -/

/-- The tables of a root without entries. -/
theorem ownTables_of_clear (hclear : ∀ i, entry s.mem root i = 0)
    (hfree : 4096 * root ∉ freeFrames s.regions) (hlt : 4096 * root < 2 ^ 47) :
    OwnTables root ws s where
  notFree := by
    intro q _ t hw
    obtain ⟨-, rfl⟩ := walk_of_clear hclear hw
    exact hfree
  lt := by
    intro q _ t hw
    obtain ⟨-, rfl⟩ := walk_of_clear hclear hw
    exact hlt
  onePath := fun q _ q' _ t hw hw' =>
    (walk_of_clear hclear hw).1.trans (walk_of_clear hclear hw').1.symm
  notHuge := fun q i t hne _ hw _ => absurd (walk_of_clear hclear hw).1 hne

/-- A cleared memory with a root at address `0` and five free frames. -/
def clearState : Paging.State :=
  ⟨⟨initMemmaps [⟨8192, 20480, 0⟩], fun _ => 0⟩, false, ⟨fun _ => ⟨0, 0, false⟩, 0, 0⟩⟩

/-- It is ready for a heap the frames are enough for. -/
theorem ready_clearState
    (hroom : (missingTables clearState.phys.mem 0 (heapPages (heapSize / 4096))).card +
      2 * (heapSize / 4096) ≤ 5) :
    Ready 0xffff800000000000 0 heapSize clearState.phys where
  tables := ownTables_of_clear (fun _ => Mem.read64_zero) (by decide) (by decide)
  allocates := ⟨by decide, by decide, by decide, by decide⟩
  room := hroom
  fits := by decide
  outside := fun a ha => Or.inl (show 0xffff800000000000 + a + 4096 ≤ heapStart by
    revert a
    decide)

/-- A heap of one page. -/
theorem soundHeap_initHeap_clear : ∃ nodes frames, SoundHeap 0xffff800000000000 0 4096
    clearState.phys (initHeap 0xffff800000000000 (4096 * 0) 4096 clearState).2 nodes frames :=
  soundHeap_initHeap (by decide) (by decide) (ready_clearState (by decide +kernel))

/-- **A heap of size `0` has a node**: the head of the list is made before the size is looked
at. -/
theorem not_soundHeap_zero : 0 % 4096 = 0 ∧ Ready 0xffff800000000000 0 0 clearState.phys ∧
    ¬∃ nodes frames, SoundHeap 0xffff800000000000 0 0 clearState.phys
      (initHeap 0xffff800000000000 (4096 * 0) 0 clearState).2 nodes frames := by
  refine ⟨rfl, ready_clearState (by decide +kernel), ?_⟩
  rintro ⟨nodes, frames, h⟩
  obtain rfl : nodes = [] := List.eq_nil_of_length_eq_zero h.length_nodes
  have hhead : (initHeap 0xffff800000000000 (4096 * 0) 0 clearState).2.heapPageHead =
      toVirt 0xffff800000000000 (allocFrame clearState.phys).1 := rfl
  have hnull : toVirt 0xffff800000000000 (allocFrame clearState.phys).1 = 0 :=
    hhead.symm.trans h.list
  revert hnull
  decide

end HeapInit

end WillowOS
