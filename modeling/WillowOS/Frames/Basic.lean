import WillowOS.Lib.Memory
import WillowOS.Lib.Run
import Mathlib.Data.List.Nodup
import Mathlib.Logic.Function.Basic

/-!
# The physical frame allocator

The memory map Limine delivers is copied by `init_memmaps` into a linked list of
regions, each with one byte per 4 KiB frame. `alloc_frame` takes the first free
frame of the first usable region that has one, clears it and returns its address;
`free_frame` finds the region of an address by comparing it with the base of the
next one.

The loop of `free_frame` only moves on when the address is *beyond the end* of the
region: an address that is neither before the next region nor strictly beyond the
end keeps it on the same node for ever. Such a call, and one that fails an
assertion, is `none` here.

What the allocator is for is stated by two lists of addresses: the usable frames of
the map (`WillowOS.Frames.usableFrames`), which never change, and those of them that
are free (`WillowOS.Frames.freeFrames`), of which `alloc_frame` takes the first.
-/

namespace WillowOS

namespace Frames

/-- A `limine_memmap_entry`. -/
structure MemmapEntry where
  base : ℕ
  length : ℕ
  type : ℕ
deriving DecidableEq

/-- A `usable_memmaps_region`, without its `next` pointer. -/
structure Region extends MemmapEntry where
  /-- One byte for each frame: `0` when free, `1` when allocated. -/
  frameBitmap : ℕ → UInt8

/-- The region `init_memmaps` makes of an entry: the type is kept in a `uint8_t`, the
byte after those of the frames is set to `2`. -/
def initRegion (e : MemmapEntry) : Region where
  base := e.base
  length := e.length
  type := e.type % 256
  frameBitmap := fun i => if i = e.length / 4096 then 2 else 0

/-- `init_memmaps`: one region for each entry, linked in the order of the map. -/
def initMemmaps (es : List MemmapEntry) : List Region := es.map initRegion

/-- The regions, and the physical memory. -/
structure Phys where
  regions : List Region
  mem : Mem

/-- Store into the bitmap of a region. -/
def Region.setFrame (r : Region) (i : ℕ) (v : UInt8) : Region :=
  { r with frameBitmap := Function.update r.frameBitmap i v }

/-- The inner loop of `alloc_frame`: the first free frame of a usable region. -/
def Region.firstFree (r : Region) : Option ℕ :=
  (List.range (r.length / 4096)).find? fun i => decide (r.frameBitmap i = 0 ∧ r.type = 0)

/-- The outer loop of `alloc_frame`, over the regions from `current` on. -/
def takeFrame : List Region → Option (ℕ × List Region)
  | [] => none
  | r :: rs =>
    match r.firstFree with
    | some i => some (r.base + i * 4096, r.setFrame i 1 :: rs)
    | none => (takeFrame rs).map fun p => (p.1, r :: p.2)

/-- `alloc_frame`: the address returned, and the state after the call. The frame is
cleared through the direct map. -/
def allocFrame (s : Phys) : ℕ × Phys :=
  match takeFrame s.regions with
  | none => (0, s)
  | some (a, rs) => (a, ⟨rs, s.mem.memset a 0 4096⟩)

/-- The byte of the bitmap `free_frame` uses for an address. -/
def Region.frameIndex (r : Region) (physAddress : ℕ) : ℕ :=
  (physAddress + 2 ^ 64 - r.base) % 2 ^ 64 / 4096

/-- The loop of `free_frame`, over the regions from `current` on. -/
def freeLoop (physAddress : ℕ) : List Region → Option (List Region)
  | [] => some []
  | [r] => some [r.setFrame (r.frameIndex physAddress) 0]
  | r :: next :: rs =>
    if r.base ≤ physAddress ∧ physAddress < next.base then
      -- `assert(false)` on a frame that is already free
      if r.frameBitmap (r.frameIndex physAddress) = 0 then none
      else some (r.setFrame (r.frameIndex physAddress) 0 :: next :: rs)
    else if (r.base + r.length) % 2 ^ 64 < physAddress then
      (freeLoop physAddress (next :: rs)).map (r :: ·)
    -- `current` is not changed, and nothing the loop tests is
    else none

/-- `free_frame`, with `none` for a call that never returns. -/
def freeFrame (s : Phys) (physAddress : ℕ) : Option Phys :=
  if physAddress % 4096 ≠ 0 then none
  else (freeLoop physAddress s.regions).map fun rs => { s with regions := rs }

/-! ### The frames of a memory map -/

/-- The whole frames of a usable entry, in order. -/
def MemmapEntry.frames (e : MemmapEntry) : List ℕ :=
  if e.type = 0 then (List.range (e.length / 4096)).map fun i => e.base + i * 4096 else []

/-- The whole frames of the usable entries, in the order of the map. -/
def usableFrames (es : List MemmapEntry) : List ℕ := es.flatMap MemmapEntry.frames

/-- The free frames of a region, in order. -/
def Region.free (r : Region) : List ℕ :=
  if r.type = 0 then
    ((List.range (r.length / 4096)).filter fun i => decide (r.frameBitmap i = 0)).map
      fun i => r.base + i * 4096
  else []

/-- **The free frames**, in the order `alloc_frame` takes them. -/
def freeFrames (rs : List Region) : List ℕ := rs.flatMap Region.free

/-- The entries the regions were made from, as far as the regions keep them. -/
def layout (rs : List Region) : List MemmapEntry := rs.map Region.toMemmapEntry

variable {r : Region} {rs rs' : List Region} {a b i : ℕ} {e : MemmapEntry} {es : List MemmapEntry}

theorem mem_frames : a ∈ e.frames ↔ e.type = 0 ∧ ∃ i < e.length / 4096, a = e.base + i * 4096 := by
  rw [MemmapEntry.frames]
  split
  next h => simp [h, eq_comm]
  next h => simp [h]

theorem mem_usableFrames : a ∈ usableFrames es ↔ ∃ e ∈ es, a ∈ e.frames := List.mem_flatMap

theorem mem_free :
    a ∈ r.free ↔ r.type = 0 ∧
      ∃ i < r.length / 4096, r.frameBitmap i = 0 ∧ a = r.base + i * 4096 := by
  rw [Region.free]
  split
  next h => simp [h, eq_comm, and_assoc]
  next h => simp [h]

theorem mem_freeFrames : a ∈ freeFrames rs ↔ ∃ r ∈ rs, a ∈ r.free := List.mem_flatMap

/-- A frame lies in its entry. -/
theorem le_of_mem_frames (h : a ∈ e.frames) : e.base ≤ a ∧ a + 4096 ≤ e.base + e.length := by
  obtain ⟨-, i, hi, rfl⟩ := mem_frames.mp h
  omega

/-- A free frame of a region is one of its frames. -/
theorem frames_of_mem_free (h : a ∈ r.free) : a ∈ r.toMemmapEntry.frames := by
  obtain ⟨ht, i, hi, -, rfl⟩ := mem_free.mp h
  exact mem_frames.mpr ⟨ht, i, hi, rfl⟩

/-- The free frames are usable ones. -/
theorem usableFrames_of_mem_freeFrames (h : a ∈ freeFrames rs) : a ∈ usableFrames (layout rs) := by
  obtain ⟨r, hr, ha⟩ := mem_freeFrames.mp h
  exact mem_usableFrames.mpr ⟨_, List.mem_map_of_mem hr, frames_of_mem_free ha⟩

/-! ### Taking a frame -/

/-- The first element of a kind, taken out of the elements of that kind. -/
theorem filter_of_find? {α : Type*} [DecidableEq α] {p : α → Bool} {l : List α} {x : α}
    (hl : l.Nodup) (h : l.find? p = some x) :
    l.filter p = x :: l.filter fun y => p y && decide (y ≠ x) := by
  induction l with
  | nil => cases h
  | cons y l ih =>
    obtain ⟨hy, hl⟩ := List.nodup_cons.mp hl
    by_cases hp : p y = true
    · obtain rfl : y = x := by simpa [List.find?_cons, hp] using h
      have hrest : l.filter p = l.filter fun z => p z && decide (z ≠ y) := by
        refine List.filter_congr fun z hz => ?_
        have hne : z ≠ y := fun hzy => hy (hzy ▸ hz)
        simp [hne]
      rw [List.filter_cons_of_pos hp, hrest, List.filter_cons_of_neg (by simp)]
    · have h' : l.find? p = some x := by simpa [List.find?_cons, hp] using h
      simp [hp, ih hl h']

/-- The region after its first free frame is taken. -/
theorem free_of_firstFree (h : r.firstFree = some i) :
    r.free = (r.base + i * 4096) :: (r.setFrame i 1).free := by
  have hp : r.frameBitmap i = 0 ∧ r.type = 0 := by simpa using List.find?_some h
  have hfind : (List.range (r.length / 4096)).find?
      (fun j => decide (r.frameBitmap j = 0)) = some i := by
    rw [← h, Region.firstFree]
    simp [hp.2]
  have hbit : ∀ j, (decide ((r.setFrame i 1).frameBitmap j = 0)) =
      (decide (r.frameBitmap j = 0) && decide (j ≠ i)) := by
    intro j
    rcases eq_or_ne j i with rfl | hne
    · simp [Region.setFrame]
    · simp [Region.setFrame, hne]
  have ht : (r.setFrame i 1).type = 0 := hp.2
  rw [Region.free, if_pos hp.2, filter_of_find? List.nodup_range hfind, List.map_cons, Region.free,
    if_pos ht]
  simp only [hbit]
  rfl

/-- A region without a first free frame has none. -/
theorem free_of_firstFree_none (h : r.firstFree = none) : r.free = [] := by
  rw [List.eq_nil_iff_forall_not_mem]
  intro a ha
  obtain ⟨ht, i, hi, h0, -⟩ := mem_free.mp ha
  have := List.find?_eq_none.mp h i (List.mem_range.mpr hi)
  simp [ht, h0] at this

/-- **What `alloc_frame` takes is the first free frame**, and it changes nothing but
that. -/
theorem takeFrame_eq_some (h : takeFrame rs = some (a, rs')) :
    freeFrames rs = a :: freeFrames rs' ∧ layout rs' = layout rs := by
  induction rs generalizing a rs' with
  | nil => cases h
  | cons r rs ih =>
    rw [takeFrame] at h
    rcases hf : r.firstFree with _ | i <;> rw [hf] at h
    · obtain ⟨⟨b, rs₁⟩, htake, heq⟩ := Option.map_eq_some_iff.mp h
      obtain ⟨rfl, rfl⟩ := Prod.mk.inj heq
      obtain ⟨h1, h2⟩ := ih htake
      refine ⟨?_, by simpa [layout] using h2⟩
      rw [freeFrames, List.flatMap_cons, free_of_firstFree_none hf, List.nil_append, ← freeFrames,
        h1,
        freeFrames, freeFrames, List.flatMap_cons, free_of_firstFree_none hf, List.nil_append]
    · obtain ⟨rfl, rfl⟩ : r.base + i * 4096 = a ∧ r.setFrame i 1 :: rs = rs' := by simpa using h
      refine ⟨?_, rfl⟩
      rw [freeFrames, List.flatMap_cons, free_of_firstFree hf, freeFrames, List.flatMap_cons,
        List.cons_append]

/-- It takes none when there is none. -/
theorem takeFrame_eq_none (h : takeFrame rs = none) : freeFrames rs = [] := by
  induction rs with
  | nil => rfl
  | cons r rs ih =>
    rw [takeFrame] at h
    rcases hf : r.firstFree with _ | i <;> rw [hf] at h
    · rw [freeFrames, List.flatMap_cons, free_of_firstFree_none hf, List.nil_append]
      exact ih (Option.map_eq_none_iff.mp h)
    · cases h

/-- **`alloc_frame` with a free frame**: it returns the first one, cleared, and
leaves the others free. -/
theorem allocFrame_of_cons {s : Phys} {fs : List ℕ} (h : freeFrames s.regions = a :: fs) :
    ∃ rs', allocFrame s = (a, ⟨rs', s.mem.memset a 0 4096⟩) ∧ freeFrames rs' = fs ∧
      layout rs' = layout s.regions := by
  rcases ht : takeFrame s.regions with _ | ⟨b, rs'⟩
  · rw [takeFrame_eq_none ht] at h
    cases h
  · obtain ⟨h1, h2⟩ := takeFrame_eq_some ht
    obtain ⟨rfl, rfl⟩ := List.cons.inj (h1.symm.trans h)
    exact ⟨rs', by rw [allocFrame, ht], rfl, h2⟩

/-- **`alloc_frame` without a free frame** returns `0` and changes nothing. -/
theorem allocFrame_of_nil {s : Phys} (h : freeFrames s.regions = []) : allocFrame s = (0, s) := by
  rcases ht : takeFrame s.regions with _ | ⟨b, rs'⟩
  · rw [allocFrame, ht]
  · rw [(takeFrame_eq_some ht).1] at h
    cases h

end Frames

end WillowOS
