import WillowOS.Vm.Calls

/-!
# Ranges of pages, and frames that run out

`map_range` and `change_page_map_range` go through the pages of a range with one loop. It takes
exactly the pages of the range, in order, **for ranges of up to 2 GiB, counted from the start of
the first page** (`WillowOS.Vm.coversRange_iff`): from there on the offset of a page does not fit
the `int` it is computed in.

Each turn of `map_range` allocates a frame for the page, and up to three for its tables.
`alloc_frame` returns `0` when there is none left, and nobody looks: the entry that is written then
points to frame `0`, which is used as a table, and the call returns as if all were well
(`WillowOS.Vm.handlesExhaustion_iff`). What is allocated and written during a call is a list of
events (`WillowOS.Vm.mapRangeTrace`), and the memory after the call is the one they lead to
(`WillowOS.Vm.foldl_mapAllTrace`).
-/

namespace WillowOS

namespace Vm

open Paging

open Frames hiding State

variable {root v size permissions flag : ℕ} {s : State}

/-! ### The pages of a range -/

/-- `change_page_map_range`: the value returned, and the memory. Its loop is that of
`map_range`. -/
def changePageMapRange (m : Mem) (cr3 virtAddress size permissions : ℕ) : ℕ × Mem :=
  if size = 0 then (einval, m)
  else (0, (mapRangeAddresses virtAddress size).foldl (changePageMap · cr3 · permissions) m)

/-- The numbers of the pages the loop goes through, in order. -/
def rangePages (virtAddress size : ℕ) : List ℕ :=
  (mapRangeAddresses virtAddress size).map (· / 4096)

/-- **The loop goes through the pages of the range**: those that meet it, each once and in
increasing order. -/
def CoversRange (virtAddress size : ℕ) : Prop :=
  (∀ p, p ∈ rangePages virtAddress size ↔
    ∃ a, virtAddress ≤ a ∧ a < virtAddress + size ∧ a / 4096 = p) ∧
  (rangePages virtAddress size).Pairwise (· < ·)

/-- **Nothing overflows on the way**: neither the size that is counted from the start of the first
page, nor the product of the `int` counter with the page size, nor the address of a page. -/
def NoOverflow (virtAddress size : ℕ) : Prop :=
  size + virtAddress % 4096 < 2 ^ 64 ∧
    ∀ i < (mapRangeAddresses virtAddress size).length,
      i * 4096 < 2 ^ 31 ∧ virtAddress + i * 4096 < 2 ^ 64

/-- The loop up to 2 GiB. -/
theorem rangePages_eq (hsize : 0 < size) (hv : v + size ≤ 2 ^ 64)
    (hle : v % 4096 + size ≤ 2 ^ 31) :
    rangePages v size = (List.range (pageCount v size)).map (v / 4096 + ·) := by
  have hcount : pageCount v size ≤ 2 ^ 19 := by
    rw [pageCount]
    omega
  rw [rangePages, mapRangeAddresses_eq_of_lt (by omega) (by omega) (by omega),
    rangeAddresses_eq hcount, pagesFrom, List.map_map]
  refine List.map_congr_left fun i hi => ?_
  have hi := List.mem_range.mp hi
  rw [pageCount] at hi
  rw [Function.comp_apply, Nat.mod_eq_of_lt (by omega)]
  omega

theorem length_mapRangeAddresses (hsize : 0 < size) (hv : v < 2 ^ 64)
    (hlt : v % 4096 + size < 2 ^ 64) :
    (mapRangeAddresses v size).length = min (pageCount v size) (2 ^ 31) := by
  rw [mapRangeAddresses_eq_of_lt (by omega) hv hlt, rangeAddresses, List.length_map,
    List.length_range]

theorem coversRange_of_le (hsize : 0 < size) (hv : v + size ≤ 2 ^ 64)
    (hle : v % 4096 + size ≤ 2 ^ 31) : CoversRange v size := by
  rw [CoversRange, rangePages_eq hsize hv hle, pageCount]
  refine ⟨fun p => ?_, ?_⟩
  · rw [List.mem_map]
    constructor
    · rintro ⟨i, hi, rfl⟩
      have hi := List.mem_range.mp hi
      -- the first byte of the page that is in the range
      rcases Nat.eq_zero_or_pos i with rfl | hpos
      · exact ⟨v, le_rfl, by omega, rfl⟩
      · exact ⟨4096 * (v / 4096 + i), by omega, by omega, by omega⟩
    · rintro ⟨a, hva, hav, rfl⟩
      exact ⟨a / 4096 - v / 4096, List.mem_range.mpr (by omega), by omega⟩
  · rw [List.pairwise_map]
    exact List.pairwise_lt_range.imp fun hij => Nat.add_lt_add_left hij _

/-- Two pages of the loop, by their turns. -/
theorem CoversRange.lt_of_lt (h : CoversRange v size) (hsize : 0 < size) (hv : v < 2 ^ 64)
    (hlt : v % 4096 + size < 2 ^ 64) {i j : ℕ} (hij : i < j)
    (hj : j < min (pageCount v size) (2 ^ 31)) :
    (v + intOffset i) % 2 ^ 64 / 4096 < (v + intOffset j) % 2 ^ 64 / 4096 := by
  have hpair := h.2
  rw [rangePages, mapRangeAddresses_eq_of_lt (by omega) hv hlt, rangeAddresses, List.map_map,
    List.pairwise_map] at hpair
  have := List.pairwise_iff_getElem.mp hpair i j (by simpa using hij.trans hj) (by simpa using hj)
    hij
  simpa using this

/-- **Beyond 2 GiB the loop leaves the range, or goes through a page twice**: the offset of turn
2¹⁹ is negative, and that of turn 2²⁰ is zero again. -/
theorem not_coversRange_of_lt (hsize : size < 2 ^ 64) (hv : v + size ≤ 2 ^ 64)
    (hlt : 2 ^ 31 < v % 4096 + size) : ¬CoversRange v size := by
  intro h
  -- the last page of the range is gone through
  have hlast : (v + size - 1) / 4096 ∈ rangePages v size :=
    (h.1 _).mpr ⟨v + size - 1, by omega, by omega, rfl⟩
  rcases Nat.lt_or_ge (v % 4096 + size) (2 ^ 64) with hno | hwrap
  · have hnine : (2 ^ 19) < min (pageCount v size) (2 ^ 31) := by
      rw [pageCount]
      omega
    have hback : intOffset (2 ^ 19) = 2 ^ 64 - 2 ^ 31 := by decide
    have hzero : intOffset 0 = 0 := by decide
    have hturn := h.lt_of_lt (by omega) (by omega) hno (show 0 < 2 ^ 19 by decide) hnine
    rw [hback, hzero] at hturn
    -- the page of turn 2¹⁹ comes after the first one, so the address has not wrapped around
    have hin : (v + (2 ^ 64 - 2 ^ 31)) % 2 ^ 64 / 4096 ∈ rangePages v size := by
      rw [rangePages, mapRangeAddresses_eq_of_lt (by omega) (by omega) hno, rangeAddresses]
      refine List.mem_map_of_mem (List.mem_map.mpr ⟨2 ^ 19, List.mem_range.mpr hnine, ?_⟩)
      rw [hback]
    obtain ⟨a, -, hav, ha⟩ := (h.1 _).mp hin
    have htwenty : (2 ^ 20) < min (pageCount v size) (2 ^ 31) := by
      rw [pageCount]
      omega
    have hagain := h.lt_of_lt (by omega) (by omega) hno (show 0 < 2 ^ 20 by decide) htwenty
    rw [show intOffset (2 ^ 20) = 0 by decide, hzero] at hagain
    exact lt_irrefl _ hagain
  · -- the size has wrapped around to zero, and one page is gone through
    have hone : rangePages v size = [v / 4096] := by
      rw [rangePages, mapRangeAddresses, if_neg (by omega)]
      dsimp only
      rw [if_pos (by omega), List.map_singleton]
    rw [hone, List.mem_singleton] at hlast
    omega

theorem noOverflow_iff (hpos : 0 < size) (hsize : size < 2 ^ 64) (hv : v + size ≤ 2 ^ 64) :
    NoOverflow v size ↔ v % 4096 + size ≤ 2 ^ 31 := by
  constructor
  · rintro ⟨hno, hturns⟩
    rw [length_mapRangeAddresses hpos (by omega) (by omega), pageCount] at hturns
    by_contra hlt
    have := (hturns (2 ^ 19) (by omega)).1
    omega
  · intro hle
    refine ⟨by omega, fun i hi => ?_⟩
    rw [length_mapRangeAddresses hpos (by omega) (by omega), pageCount] at hi
    omega

/-- **When the range operations go through the pages of the range.** `map_range` and
`change_page_map_range` both make a turn for each address of one list. For every range that ends at
2⁶⁴ at the latest, these are the pages of the range exactly when it ends no more than 2 GiB after
the start of its first page. The same ranges are those in which nothing overflows. -/
theorem coversRange_iff (hpos : 0 < size) (hsize : size < 2 ^ 64) (hv : v + size ≤ 2 ^ 64) :
    (∀ s pml4Address permissions flag, mapRange s pml4Address v permissions size flag =
      ((mapRangeAddresses v size).foldlM (mapNext pml4Address permissions flag) s).map
        fun s => (0, s)) ∧
    (∀ m cr3 permissions, changePageMapRange m cr3 v size permissions =
      (0, (mapRangeAddresses v size).foldl (changePageMap · cr3 · permissions) m)) ∧
    (CoversRange v size ↔ v % 4096 + size ≤ 2 ^ 31) ∧
    (NoOverflow v size ↔ v % 4096 + size ≤ 2 ^ 31) := by
  refine ⟨fun s pml4Address permissions flag => if_neg hpos.ne',
    fun m cr3 permissions => if_neg hpos.ne', ⟨fun h => ?_, coversRange_of_le hpos hv⟩,
    noOverflow_iff hpos hsize hv⟩
  by_contra hlt
  exact not_coversRange_of_lt hsize hv (by omega) h

/-- Two bytes on both sides of a page boundary. -/
theorem coversRange_iff_boundary : CoversRange 0x400fff 2 ∧ NoOverflow 0x400fff 2 := by
  obtain ⟨-, -, hcovers, hno⟩ := coversRange_iff (v := 0x400fff) (show 0 < 2 by decide)
    (by decide) (by decide)
  exact ⟨hcovers.mpr (by decide), hno.mpr (by decide)⟩

/-- **A range of 2 GiB and one page**: the last of its pages is not gone through, and the page
2 GiB below the first one is. -/
theorem not_coversRange_large :
    0x100000000 + (2 ^ 31 + 4096) ≤ 2 ^ 64 ∧ ¬CoversRange 0x100000000 (2 ^ 31 + 4096) ∧
      ¬NoOverflow 0x100000000 (2 ^ 31 + 4096) :=
  ⟨by decide, not_coversRange_of_lt (by decide) (by decide) (by decide),
    fun h => absurd ((noOverflow_iff (by decide) (by decide) (by decide)).mp h) (by decide)⟩

/-! ### Running out of frames -/

/-- What mapping does to frames and tables: a call of `alloc_frame`, with the address it returns,
and an entry that is written. -/
inductive TableEvent
  /-- `alloc_frame` returns an address. -/
  | alloc (address : ℕ) : TableEvent
  /-- An entry of a table is written. -/
  | write (table : ℕ) (i : Fin 512) (entry : ℕ) : TableEvent
  deriving DecidableEq

/-- What an event does to the memory and the frames. -/
def TableEvent.apply (s : Phys) : TableEvent → Phys
  | .alloc _ => (allocFrame s).2
  | .write table i entry => { s with mem := writeEntry s.mem table i entry }

/-- The events of one of the steps of `map_page` down to the page table. -/
def ensureTrace (s : Phys) (table : ℕ) (i : Fin 512) (permissions : ℕ) : List TableEvent :=
  if Present (readEntry s.mem table i) then []
  else [.alloc (allocFrame s).1, .write table i ((allocFrame s).1 ||| permissions)]

/-- The events of `map_page`, up to a table that is not reached. -/
def mapPageTrace (s : Phys) (pml4Address physAddress virtAddress permissions : ℕ) :
    List TableEvent :=
  let e₄ := ensureEntry s pml4Address (pml4Index virtAddress) permissions
  let e₃ := ensureEntry e₄.2 (maskFlags e₄.1) (pdptIndex virtAddress) permissions
  let e₂ := ensureEntry e₃.2 (maskFlags e₃.1) (pdIndex virtAddress) permissions
  ensureTrace s pml4Address (pml4Index virtAddress) permissions ++
    if directMapped (maskFlags e₄.1) then
      ensureTrace e₄.2 (maskFlags e₄.1) (pdptIndex virtAddress) permissions ++
        if directMapped (maskFlags e₃.1) then
          ensureTrace e₃.2 (maskFlags e₃.1) (pdIndex virtAddress) permissions ++
            if directMapped (maskFlags e₂.1) then
              [.write (maskFlags e₂.1) (ptIndex virtAddress) (physAddress ||| permissions)]
            else []
        else []
    else []

/-- The events of the turns of `map_range`. -/
def mapAllTrace (pml4Address permissions flag : ℕ) : State → List ℕ → List TableEvent
  | _, [] => []
  | s, v :: vs =>
    let frame := allocFrame s.phys
    .alloc frame.1 :: (mapPageTrace frame.2 pml4Address frame.1 v permissions ++
      match mapNext pml4Address permissions flag s v with
      | none => []
      | some s => mapAllTrace pml4Address permissions flag s vs)

/-- The events of `map_range`. -/
def mapRangeTrace (s : State) (pml4Address virtAddress permissions size flag : ℕ) :
    List TableEvent :=
  mapAllTrace pml4Address permissions flag s (mapRangeAddresses virtAddress size)

/-- `alloc_frame` has returned `0` at some point. -/
def OutOfFrames (l : List TableEvent) : Prop := .alloc 0 ∈ l

instance (l : List TableEvent) : Decidable (OutOfFrames l) := inferInstanceAs (Decidable (_ ∈ _))

/-- No present entry that points to frame `0` is written, and no entry in frame `0`. -/
def SparesFrameZero (l : List TableEvent) : Prop :=
  ∀ table i entry, .write table i entry ∈ l →
    ¬(Present entry ∧ entry / 4096 = 0) ∧ table / 4096 ≠ 0

/-! The events are what the functions do. -/

theorem foldl_ensureTrace {s : Phys} {table : ℕ} {i : Fin 512} :
    (ensureTrace s table i permissions).foldl TableEvent.apply s =
      (ensureEntry s table i permissions).2 := by
  rw [ensureTrace, ensureEntry]
  split <;> rfl

theorem foldl_mapPageTrace {s : Phys} {pml4Address physAddress : ℕ}
    (h : mapPageReaches s pml4Address v permissions = true) :
    (mapPageTrace s pml4Address physAddress v permissions).foldl TableEvent.apply s =
      mapTables s pml4Address physAddress v permissions := by
  simp only [mapPageReaches, Bool.and_eq_true] at h
  obtain ⟨⟨h₄, h₃⟩, h₂⟩ := h
  simp only [mapPageTrace, h₄, h₃, h₂, if_true, List.foldl_append, foldl_ensureTrace,
    List.foldl_cons, List.foldl_nil, TableEvent.apply, mapTables, ensureTables]

theorem foldl_mapAllTrace {pml4Address : ℕ} {s' : State} {vs : List ℕ}
    (h : vs.foldlM (mapNext pml4Address permissions flag) s = some s') :
    (mapAllTrace pml4Address permissions flag s vs).foldl TableEvent.apply s.phys = s'.phys := by
  induction vs generalizing s with
  | nil =>
    obtain rfl : s = s' := Option.some.inj h
    rfl
  | cons v vs ih =>
    obtain ⟨s₁, hs₁, h⟩ := run_cons.mp h
    obtain ⟨hreach, heq⟩ := mapNext_eq_some.mp hs₁
    have hphys : mapTables (allocFrame s.phys).2 pml4Address (allocFrame s.phys).1 v permissions =
        s₁.phys := by rw [heq]
    rw [mapAllTrace, hs₁]
    dsimp only
    rw [List.foldl_cons, List.foldl_append, TableEvent.apply, foldl_mapPageTrace hreach, hphys]
    exact ih h

/-- **An allocation that fails writes an entry that points to frame `0`.** -/
theorem write_of_alloc_ensureTrace {s : Phys} {table : ℕ} {i : Fin 512}
    (h : .alloc 0 ∈ ensureTrace s table i permissions) :
    .write table i permissions ∈ ensureTrace s table i permissions := by
  rw [ensureTrace] at h ⊢
  split_ifs at h ⊢ with hslot
  · exact absurd h List.not_mem_nil
  · rcases List.mem_cons.mp h with halloc | hrest
    · have hzero : 0 = (allocFrame s).1 := TableEvent.alloc.inj halloc
      rw [← hzero, Nat.zero_or]
      exact List.mem_cons_of_mem _ List.mem_cons_self
    · cases List.mem_singleton.mp hrest

theorem exists_write_of_outOfFrames {s : Phys} {pml4Address physAddress : ℕ}
    (h : OutOfFrames (mapPageTrace s pml4Address physAddress v permissions)) :
    ∃ table i, .write table i permissions ∈
      mapPageTrace s pml4Address physAddress v permissions := by
  simp only [OutOfFrames, mapPageTrace, List.mem_append, List.mem_ite_nil_right] at h ⊢
  rcases h with h₄ | ⟨hd₄, h₃ | ⟨hd₃, h₂ | ⟨-, h₁⟩⟩⟩
  · exact ⟨_, _, Or.inl (write_of_alloc_ensureTrace h₄)⟩
  · exact ⟨_, _, Or.inr ⟨hd₄, Or.inl (write_of_alloc_ensureTrace h₃)⟩⟩
  · exact ⟨_, _, Or.inr ⟨hd₄, Or.inr ⟨hd₃, Or.inl (write_of_alloc_ensureTrace h₂)⟩⟩⟩
  · cases List.mem_singleton.mp h₁

/-- With a size, `map_range` returns `0` if it returns at all. -/
theorem fst_eq_zero_of_mapRange {pml4Address : ℕ} {r : ℕ × State} (hsize : size ≠ 0)
    (h : mapRange s pml4Address v permissions size flag = some r) : r.1 = 0 := by
  rw [mapRange, if_neg hsize] at h
  obtain ⟨s', -, rfl⟩ := Option.map_eq_some_iff.mp h
  rfl

/-- **Running out of frames is never handled.** In any state and for any range, a `map_range`
during which `alloc_frame` returns `0` does not report it, so that the call is safe only if that
does not happen. Nor is a `map_page` safe: the allocation that fails has written a present entry
that points to frame `0`. -/
theorem handlesExhaustion_iff :
    ((OutOfFrames (mapRangeTrace s (4096 * root) v permissions size flag) →
      ∃ r, mapRange s (4096 * root) v permissions size flag = some r ∧ r.1 ≠ 0 ∧
        SparesFrameZero (mapRangeTrace s (4096 * root) v permissions size flag) ∧
        ∀ w ∈ mapRangeAddresses v size, ∀ a, translate s.phys.mem root w = some a →
          translate r.2.phys.mem root w = some a) ↔
      ¬OutOfFrames (mapRangeTrace s (4096 * root) v permissions size flag)) ∧
    ∀ physAddress, permissions < 4096 → Present permissions →
      ((OutOfFrames (mapPageTrace s.phys (4096 * root) physAddress v permissions) →
        SparesFrameZero (mapPageTrace s.phys (4096 * root) physAddress v permissions) ∧
        ∀ a, translate s.phys.mem root v = some a →
          translate (mapPage s (4096 * root) physAddress v permissions).2.phys.mem root v =
            some a) ↔
        ¬OutOfFrames (mapPageTrace s.phys (4096 * root) physAddress v permissions)) := by
  refine ⟨⟨fun h hout => ?_, fun h hout => absurd hout h⟩, fun physAddress hlt hpres =>
    ⟨fun h hout => ?_, fun h hout => absurd hout h⟩⟩
  · obtain ⟨r, hr, hne, -⟩ := h hout
    rcases eq_or_ne size 0 with rfl | hsize
    · exact absurd hout List.not_mem_nil
    · exact hne (fst_eq_zero_of_mapRange hsize hr)
  · obtain ⟨table, i, hwrite⟩ := exists_write_of_outOfFrames hout
    exact ((h hout).1 table i permissions hwrite).1 ⟨hpres, Nat.div_eq_of_lt hlt⟩

/-- A root in frame `1`, and a single frame that is free. -/
def lastFrame : State :=
  ⟨⟨initMemmaps [⟨8192, 4096, 0⟩], fun _ => 0⟩, false, ⟨fun _ => ⟨0, 0, false⟩, 0, 8⟩⟩

/-- The frame goes to the page, and none is left for its tables. -/
theorem handlesExhaustion_iff_lastFrame :
    OutOfFrames (mapPageTrace (allocFrame lastFrame.phys).2 (4096 * 1) 8192 0x400000 7) ∧
      ¬(OutOfFrames (mapPageTrace (allocFrame lastFrame.phys).2 (4096 * 1) 8192 0x400000 7) →
        SparesFrameZero (mapPageTrace (allocFrame lastFrame.phys).2 (4096 * 1) 8192 0x400000 7) ∧
        ∀ a, translate (allocFrame lastFrame.phys).2.mem 1 0x400000 = some a →
          translate (mapPage { lastFrame with phys := (allocFrame lastFrame.phys).2 } (4096 * 1)
            8192 0x400000 7).2.phys.mem 1 0x400000 = some a) := by
  have hout : OutOfFrames
      (mapPageTrace (allocFrame lastFrame.phys).2 (4096 * 1) 8192 0x400000 7) := by decide +kernel
  refine ⟨hout, fun h => ?_⟩
  have hiff := (@handlesExhaustion_iff 1 0x400000 4096 7 0
    { lastFrame with phys := (allocFrame lastFrame.phys).2 }).2 8192 (by decide) (by decide)
  exact hiff.mp h hout

/-- **A page is mapped with the last frame**: `map_range` returns `0`, the entry of the root points
to frame `0`, and entries of that frame were written. -/
theorem not_handlesExhaustion :
    OutOfFrames (mapRangeTrace lastFrame (4096 * 1) 0x400000 7 4096 0) ∧
      (mapRange lastFrame (4096 * 1) 0x400000 7 4096 0).map (fun r =>
        (r.1, entry r.2.phys.mem 1 0, entry r.2.phys.mem 0 0, entry r.2.phys.mem 0 2)) =
          some (0, 7, 8192 + 7, 7) := by
  refine ⟨?_, ?_⟩ <;> decide +kernel

end Vm

end WillowOS
