import WillowOS.Frames.Basic

/-!
# What the frame allocator guarantees

Over any memory map of the shape Limine delivers (`WillowOS.Frames.WellFormed`), any
sequence of `alloc_frame` calls, of `free_frame` calls that return, on frames that are
currently allocated, and of stores into the memory. The state carries the list of
frames currently allocated: the addresses other than `0` that were returned and not
freed since.

One invariant ties the bitmaps to that list (`WillowOS.Frames.Inv`): an allocated frame
is usable and not free, and a usable frame that is neither free nor allocated can only
be the frame at address `0`. So the address `0` is the one place where soundness and
completeness part: **`WillowOS.Frames.allocSound_run`** holds over every map, and the
answer `0` means that no frame is left exactly when the frame at address `0` is not a
usable one. If it is, `alloc_frame` hands it out with the address that means failure
(`WillowOS.Frames.not_allocComplete_of_base_zero`).
-/

namespace WillowOS

namespace Frames

/-- What Limine delivers, and what the arrays of `init_memmaps` can hold. -/
structure WellFormed (es : List MemmapEntry) : Prop where
  /-- `init_memmaps` reads the first entry without a test. -/
  ne_nil : es ≠ []
  length_le : es.length ≤ 32
  sorted : es.Pairwise fun d e => d.base ≤ e.base
  disjoint : es.Pairwise fun d e =>
    ∀ x, d.base ≤ x → x < d.base + d.length → ¬(e.base ≤ x ∧ x < e.base + e.length)
  aligned : ∀ e ∈ es, e.type = 0 → e.base % 4096 = 0
  length_lt : ∀ e ∈ es, e.length / 4096 < 600000
  end_lt : ∀ e ∈ es, e.base + e.length < 2 ^ 64
  type_lt : ∀ e ∈ es, e.type < 256

/-- Entries sorted by their bases that do not overlap, inside the address space. -/
structure SortedMap (es : List MemmapEntry) : Prop where
  sorted : es.Pairwise fun d e => d.base ≤ e.base
  disjoint : es.Pairwise fun d e =>
    ∀ x, d.base ≤ x → x < d.base + d.length → ¬(e.base ≤ x ∧ x < e.base + e.length)
  end_lt : ∀ e ∈ es, e.base + e.length < 2 ^ 64

theorem WellFormed.sortedMap {es : List MemmapEntry} (h : WellFormed es) : SortedMap es :=
  ⟨h.sorted, h.disjoint, h.end_lt⟩

variable {r : Region} {rs rs' : List Region} {a b i : ℕ} {e : MemmapEntry} {es : List MemmapEntry}

theorem SortedMap.tail (h : SortedMap (e :: es)) : SortedMap es where
  sorted := (List.pairwise_cons.mp h.sorted).2
  disjoint := (List.pairwise_cons.mp h.disjoint).2
  end_lt := fun c hc => h.end_lt c (List.mem_cons_of_mem _ hc)

/-- No frame is before the first entry. -/
theorem SortedMap.base_le (h : SortedMap (e :: es)) (ha : a ∈ usableFrames (e :: es)) :
    e.base ≤ a := by
  obtain ⟨d, hd, hframe⟩ := mem_usableFrames.mp ha
  have hle := (le_of_mem_frames hframe).1
  rcases List.mem_cons.mp hd with rfl | hd
  · exact hle
  · exact ((List.pairwise_cons.mp h.sorted).1 d hd).trans hle

/-! ### The initial regions -/

/-- Of a map with types that fit a byte, the regions keep everything. -/
theorem layout_initMemmaps (h : WellFormed es) : layout (initMemmaps es) = es := by
  rw [layout, initMemmaps, List.map_map]
  refine (List.map_congr_left fun e he => ?_).trans (List.map_id es)
  show (initRegion e).toMemmapEntry = e
  rw [initRegion, Nat.mod_eq_of_lt (h.type_lt e he)]

/-- The regions are sorted and apart as the entries are, whatever their types. -/
theorem SortedMap.initMemmaps (h : SortedMap es) : SortedMap (layout (initMemmaps es)) where
  sorted := List.pairwise_map.mpr (List.pairwise_map.mpr h.sorted)
  disjoint := List.pairwise_map.mpr (List.pairwise_map.mpr h.disjoint)
  end_lt := by
    intro e he
    obtain ⟨r, hr, rfl⟩ := List.mem_map.mp he
    obtain ⟨d, hd, rfl⟩ := List.mem_map.mp hr
    exact h.end_lt d hd

/-- At the start every usable frame is free. -/
theorem mem_freeFrames_initMemmaps (ha : a ∈ usableFrames (layout (initMemmaps es))) :
    a ∈ freeFrames (initMemmaps es) := by
  obtain ⟨_, he, hf⟩ := mem_usableFrames.mp ha
  obtain ⟨r, hr, rfl⟩ := List.mem_map.mp he
  obtain ⟨e, -, rfl⟩ := List.mem_map.mp hr
  obtain ⟨ht, i, hi, rfl⟩ := mem_frames.mp hf
  refine mem_freeFrames.mpr ⟨initRegion e, hr, mem_free.mpr ⟨ht, i, hi, ?_, rfl⟩⟩
  exact if_neg (ne_of_lt hi)

/-! ### Frames of different entries -/

/-- The frames of one region are listed once. -/
theorem nodup_free : r.free.Nodup := by
  rw [Region.free]
  split
  · refine List.Nodup.map (fun i j hij => ?_) (List.nodup_range.filter _)
    have : r.base + i * 4096 = r.base + j * 4096 := hij
    omega
  · exact List.nodup_nil

/-- **No frame is listed twice as free.** -/
theorem nodup_freeFrames (h : SortedMap (layout rs)) : (freeFrames rs).Nodup := by
  rw [freeFrames, List.nodup_flatMap]
  refine ⟨fun r _ => nodup_free, (List.pairwise_map.mp h.disjoint).imp fun {r n} hd a hr hn => ?_⟩
  have h1 := le_of_mem_frames (frames_of_mem_free hr)
  have h2 := le_of_mem_frames (frames_of_mem_free hn)
  exact hd a h1.1 (by omega) ⟨h2.1, by omega⟩

/-- A usable frame is aligned. -/
theorem aligned_of_mem_usableFrames (h : WellFormed es) (ha : a ∈ usableFrames es) :
    a % 4096 = 0 := by
  obtain ⟨e, he, hf⟩ := mem_usableFrames.mp ha
  obtain ⟨ht, i, -, rfl⟩ := mem_frames.mp hf
  have := h.aligned e he ht
  omega

/-! ### Freeing a frame -/

/-- The index `free_frame` computes for a frame of the region. -/
theorem frameIndex_eq (hend : r.base + r.length < 2 ^ 64) (hi : i < r.length / 4096) :
    r.frameIndex (r.base + i * 4096) = i := by
  rw [Region.frameIndex]
  omega

/-- Clearing the byte of a frame makes it free, and no other. -/
theorem mem_free_setFrame_zero (ht : r.type = 0) (hi : i < r.length / 4096) :
    b ∈ (r.setFrame i 0).free ↔ b ∈ r.free ∨ b = r.base + i * 4096 := by
  rw [mem_free, mem_free]
  constructor
  · rintro ⟨-, j, hj, h0, rfl⟩
    rcases eq_or_ne j i with rfl | hne
    · exact Or.inr rfl
    · refine Or.inl ⟨ht, j, hj, ?_, rfl⟩
      simpa [Region.setFrame, hne] using h0
  · rintro (⟨-, j, hj, h0, rfl⟩ | rfl)
    · refine ⟨ht, j, hj, ?_, rfl⟩
      rcases eq_or_ne j i with rfl | hne
      · simp [Region.setFrame]
      · simpa [Region.setFrame, hne] using h0
    · exact ⟨ht, i, hi, by simp [Region.setFrame], rfl⟩

/-- The store of `free_frame` in the region of the frame. -/
theorem mem_free_setFrame_frameIndex (hend : r.base + r.length < 2 ^ 64)
    (ha : a ∈ r.toMemmapEntry.frames) :
    b ∈ (r.setFrame (r.frameIndex a) 0).free ↔ b ∈ r.free ∨ b = a := by
  obtain ⟨ht, i, hi, rfl⟩ := mem_frames.mp ha
  rw [frameIndex_eq hend hi, mem_free_setFrame_zero ht hi]

/-- `free_frame` changes nothing but the regions. -/
theorem freeFrame_eq_some {s s' : Phys} : freeFrame s a = some s' ↔
    a % 4096 = 0 ∧ ∃ rs', freeLoop a s.regions = some rs' ∧ { s with regions := rs' } = s' := by
  rw [freeFrame]
  split_ifs with halign
  · exact ⟨fun hnone => (nomatch hnone), fun hsome => absurd hsome.1 halign⟩
  · rw [Option.map_eq_some_iff, and_iff_right (not_not.mp halign)]

/-- **What a terminating walk of `free_frame` does to a usable frame**: it finds the
region of the frame, and makes that frame free and no other. -/
theorem freeLoop_spec (hwf : SortedMap (layout rs)) (ha : a ∈ usableFrames (layout rs))
    (h : freeLoop a rs = some rs') :
    layout rs' = layout rs ∧ ∀ b, b ∈ freeFrames rs' ↔ b ∈ freeFrames rs ∨ b = a := by
  induction rs generalizing rs' with
  | nil => exact absurd ha List.not_mem_nil
  | cons r rs ih =>
    have hend : r.base + r.length < 2 ^ 64 := hwf.end_lt r.toMemmapEntry List.mem_cons_self
    -- the frame is one of this region or one of a later region
    have hcases : a ∈ r.toMemmapEntry.frames ∨ a ∈ usableFrames (layout rs) := by
      simpa [usableFrames, layout] using ha
    -- storing into this region, when the frame is its own
    have hhere : a ∈ r.toMemmapEntry.frames → ∀ b,
        b ∈ freeFrames (r.setFrame (r.frameIndex a) 0 :: rs) ↔
          b ∈ freeFrames (r :: rs) ∨ b = a := by
      intro ha b
      simp only [freeFrames, List.flatMap_cons, List.mem_append,
        mem_free_setFrame_frameIndex hend ha]
      exact or_right_comm
    cases rs with
    | nil =>
      obtain rfl : [r.setFrame (r.frameIndex a) 0] = rs' := Option.some.inj h
      refine ⟨rfl, hhere (hcases.resolve_right ?_)⟩
      exact List.not_mem_nil
    | cons n rs =>
      rw [freeLoop] at h
      split_ifs at h with h1 h2 h3
      · -- before the next region: every later region starts at or after that one
        cases Option.some.inj h
        refine ⟨rfl, hhere (hcases.resolve_right fun hlater => ?_)⟩
        have hn : n.base ≤ a := hwf.tail.base_le hlater
        omega
      · -- beyond the end of this region
        obtain ⟨rs₁, hrec, rfl⟩ := Option.map_eq_some_iff.mp h
        have hlater : a ∈ usableFrames (layout (n :: rs)) := by
          refine hcases.resolve_left fun hf => ?_
          have := le_of_mem_frames hf
          rw [Nat.mod_eq_of_lt hend] at h3
          omega
        obtain ⟨hl, hfree⟩ := ih hwf.tail hlater hrec
        refine ⟨by simpa [layout] using hl, fun b => ?_⟩
        rw [freeFrames, freeFrames, List.flatMap_cons, List.flatMap_cons, List.mem_append,
          List.mem_append, ← freeFrames, ← freeFrames, hfree b, or_assoc]

/-! ### Runs -/

/-- The memory, and the frames that are currently allocated. -/
structure State where
  phys : Phys
  allocated : List ℕ

/-- A call of `alloc_frame`, a call of `free_frame`, or a store of whoever uses the
frames. -/
inductive Event where
  | alloc
  | free (physAddress : ℕ)
  | store (address : ℕ) (v : UInt8)

/-- The state `init_memmaps` leaves, over a memory with any contents. -/
def init (es : List MemmapEntry) (mem : Mem) : State := ⟨⟨initMemmaps es, mem⟩, []⟩

/-- One step: a frame is only freed while it is allocated, and only by a call that
returns. -/
def step (s : State) : Event → Option State
  | .alloc =>
    let p := allocFrame s.phys
    some ⟨p.2, if p.1 = 0 then s.allocated else p.1 :: s.allocated⟩
  | .free a =>
    if a ∈ s.allocated then
      (freeFrame s.phys a).map fun q => ⟨q, s.allocated.erase a⟩
    else none
  | .store a v => some { s with phys.mem := Function.update s.phys.mem a v }

/-- What every address `alloc_frame` returns other than `0` has to be: an aligned
address, of 4096 bytes inside a usable entry, not allocated, and cleared. -/
def AllocSound (es : List MemmapEntry) (s : State) : Prop :=
  (allocFrame s.phys).1 ≠ 0 →
    (allocFrame s.phys).1 % 4096 = 0 ∧
    (∃ e ∈ es, e.type = 0 ∧ e.base ≤ (allocFrame s.phys).1 ∧
      (allocFrame s.phys).1 + 4096 ≤ e.base + e.length) ∧
    (allocFrame s.phys).1 ∉ s.allocated ∧
    ∀ k < 4096, (allocFrame s.phys).2.mem ((allocFrame s.phys).1 + k) = 0

/-- `alloc_frame` returns `0` exactly when every whole frame of every usable entry is
allocated. -/
def AllocComplete (es : List MemmapEntry) (s : State) : Prop :=
  (allocFrame s.phys).1 = 0 ↔ ∀ a ∈ usableFrames es, a ∈ s.allocated

/-- The invariant: the regions are those of the map, and every usable frame other than
that at address `0` is either free or allocated. -/
structure Inv (es : List MemmapEntry) (s : State) : Prop where
  layout_eq : layout s.phys.regions = es
  nodup : s.allocated.Nodup
  usable : ∀ a ∈ s.allocated, a ∈ usableFrames es
  notMem_free : ∀ a ∈ s.allocated, a ∉ freeFrames s.phys.regions
  covered : ∀ a ∈ usableFrames es, a ≠ 0 → a ∈ freeFrames s.phys.regions ∨ a ∈ s.allocated

theorem init_inv (mem : Mem) : Inv (layout (initMemmaps es)) (init es mem) where
  layout_eq := rfl
  nodup := List.nodup_nil
  usable := fun _ ha => absurd ha List.not_mem_nil
  notMem_free := fun _ ha => absurd ha List.not_mem_nil
  covered := fun _ ha _ => Or.inl (mem_freeFrames_initMemmaps ha)

/-- `alloc_frame` keeps the invariant. -/
theorem inv_alloc {s s' : State} (hwf : SortedMap es) (hI : Inv es s)
    (h : step s .alloc = some s') : Inv es s' := by
  obtain rfl := Option.some.inj h
  rcases hf : freeFrames s.phys.regions with _ | ⟨a, fs⟩
  · rw [allocFrame_of_nil hf]
    exact hI
  · obtain ⟨rs', heq, hfs, hlay⟩ := allocFrame_of_cons hf
    have husable : a ∈ usableFrames es := by
      rw [← hI.layout_eq]
      exact usableFrames_of_mem_freeFrames (hf ▸ List.mem_cons_self)
    have hnodup : (a :: fs).Nodup := hf ▸ nodup_freeFrames (hI.layout_eq ▸ hwf)
    obtain ⟨hafs, -⟩ := List.nodup_cons.mp hnodup
    have hnew : a ∉ s.allocated := fun hin => hI.notMem_free a hin (hf ▸ List.mem_cons_self)
    -- in either case the list holds at most `a` in addition
    have hmem : ∀ b, (b ∈ if a = 0 then s.allocated else a :: s.allocated) →
        b = a ∨ b ∈ s.allocated := by
      intro b hb
      split_ifs at hb with h0
      · exact Or.inr hb
      · exact List.mem_cons.mp hb
    rw [heq]
    refine ⟨hlay.trans hI.layout_eq, ?_, fun b hb => ?_, fun b hb => ?_, fun b hb h0 => ?_⟩
    · dsimp only
      split_ifs
      · exact hI.nodup
      · exact List.nodup_cons.mpr ⟨hnew, hI.nodup⟩
    · rcases hmem b hb with rfl | hb
      · exact husable
      · exact hI.usable b hb
    · show b ∉ freeFrames rs'
      rw [hfs]
      rcases hmem b hb with rfl | hb
      · exact hafs
      · intro hbfs
        exact hI.notMem_free b hb (hf ▸ List.mem_cons_of_mem _ hbfs)
    · show b ∈ freeFrames rs' ∨ b ∈ if a = 0 then s.allocated else a :: s.allocated
      have hcov := hI.covered b hb h0
      rw [hf] at hcov
      rw [hfs]
      split_ifs with ha
      · subst ha
        exact hcov.imp (fun hb' => (List.mem_cons.mp hb').resolve_left h0) id
      · rw [List.mem_cons] at hcov ⊢
        exact or_left_comm.mp (or_assoc.mp hcov)

/-- A `free_frame` call that returns keeps the invariant. -/
theorem inv_free {s s' : State} (hwf : SortedMap es) (hI : Inv es s)
    (h : step s (.free a) = some s') : Inv es s' := by
  rw [step] at h
  split_ifs at h with ha
  obtain ⟨q, hq, rfl⟩ := Option.map_eq_some_iff.mp h
  obtain ⟨-, rs', hloop, rfl⟩ := freeFrame_eq_some.mp hq
  obtain ⟨hlay, hfree⟩ := freeLoop_spec (hI.layout_eq ▸ hwf) (hI.layout_eq ▸ hI.usable a ha) hloop
  refine ⟨hlay.trans hI.layout_eq, hI.nodup.erase a, fun b hb => ?_, fun b hb => ?_,
    fun b hb h0 => ?_⟩
  · exact hI.usable b (List.mem_of_mem_erase hb)
  · obtain ⟨hne, hb⟩ := hI.nodup.mem_erase_iff.mp hb
    intro hbf
    exact ((hfree b).mp hbf).elim (hI.notMem_free b hb) hne
  · show b ∈ freeFrames rs' ∨ b ∈ s.allocated.erase a
    rw [hfree, hI.nodup.mem_erase_iff]
    rcases eq_or_ne b a with rfl | hne
    · exact Or.inl (Or.inr rfl)
    · exact (hI.covered b hb h0).imp Or.inl fun hb => ⟨hne, hb⟩

/-- **One step keeps the invariant.** -/
theorem inv_step {s s' : State} {ev : Event} (hwf : SortedMap es) (hI : Inv es s)
    (h : step s ev = some s') : Inv es s' := by
  cases ev with
  | alloc => exact inv_alloc hwf hI h
  | free a => exact inv_free hwf hI h
  | store a v =>
    obtain rfl := Option.some.inj h
    exact ⟨hI.layout_eq, hI.nodup, hI.usable, hI.notMem_free, hI.covered⟩

/-- It holds along every run. -/
theorem inv_run {evs : List Event} {mem : Mem} {s : State} (hwf : SortedMap es)
    (h : evs.foldlM step (init es mem) = some s) : Inv (layout (initMemmaps es)) s :=
  run_inv (fun _ _ _ hI hs => inv_step hwf.initMemmaps hI hs) (init_inv mem) h

/-- What the invariant says about the next call: soundness. -/
theorem Inv.allocSound {s : State} (hwf : WellFormed es) (hI : Inv es s) : AllocSound es s := by
  intro h0
  rcases hf : freeFrames s.phys.regions with _ | ⟨a, fs⟩
  · rw [allocFrame_of_nil hf] at h0
    exact absurd rfl h0
  · obtain ⟨rs', heq, -, -⟩ := allocFrame_of_cons hf
    have hfree : a ∈ freeFrames s.phys.regions := hf ▸ List.mem_cons_self
    have husable : a ∈ usableFrames es := by
      rw [← hI.layout_eq]
      exact usableFrames_of_mem_freeFrames hfree
    rw [heq]
    refine ⟨aligned_of_mem_usableFrames hwf husable, ?_, fun hin => hI.notMem_free a hin hfree,
      fun k hk => ?_⟩
    · obtain ⟨e, he, hfr⟩ := mem_usableFrames.mp husable
      exact ⟨e, he, (mem_frames.mp hfr).1, le_of_mem_frames hfr⟩
    · exact Mem.memset_of_mem (Nat.le_add_right a k) (by omega)

/-- What it says about the answer `0`, when that is not the address of a usable
frame. -/
theorem Inv.allocComplete {s : State} (h0 : 0 ∉ usableFrames es) (hI : Inv es s) :
    AllocComplete es s := by
  have hne : ∀ a ∈ usableFrames es, a ≠ 0 := fun a ha h => h0 (h ▸ ha)
  rcases hf : freeFrames s.phys.regions with _ | ⟨a, fs⟩
  · rw [AllocComplete, allocFrame_of_nil hf]
    refine iff_of_true rfl fun a ha => (hI.covered a ha (hne a ha)).resolve_left ?_
    rw [hf]
    exact List.not_mem_nil
  · obtain ⟨rs', heq, -, -⟩ := allocFrame_of_cons hf
    have hfree : a ∈ freeFrames s.phys.regions := hf ▸ List.mem_cons_self
    have husable : a ∈ usableFrames es := by
      rw [← hI.layout_eq]
      exact usableFrames_of_mem_freeFrames hfree
    rw [AllocComplete, heq]
    exact iff_of_false (hne a husable) fun hall => hI.notMem_free a (hall a husable) hfree

/-- **Soundness and completeness of the frame allocator.** In every state reached from
`init_memmaps`, over every map: the next address `alloc_frame` returns, unless it is
`0`, is that of an aligned, cleared frame inside a usable entry that is not allocated;
and, unless the frame at address `0` is itself a usable one, the answer is `0` exactly
when every whole usable frame is allocated. -/
theorem allocSound_run {mem : Mem} {evs : List Event} {s : State} (hwf : WellFormed es)
    (h : evs.foldlM step (init es mem) = some s) :
    AllocSound es s ∧ (0 ∉ usableFrames es → AllocComplete es s) := by
  have hI : Inv es s := layout_initMemmaps hwf ▸ inv_run hwf.sortedMap h
  exact ⟨hI.allocSound hwf, fun h0 => hI.allocComplete h0⟩

/-- A reserved page followed, after a gap, by one usable frame. -/
def gapMap : List MemmapEntry := [⟨0, 4096, 1⟩, ⟨8192, 4096, 0⟩]

theorem wellFormed_gapMap : WellFormed gapMap where
  ne_nil := List.cons_ne_nil _ _
  length_le := by decide
  sorted := by decide
  disjoint := by
    simp only [gapMap, List.pairwise_cons, List.mem_singleton]
    refine ⟨?_, by simp⟩
    rintro e rfl x - hx ⟨hx', -⟩
    change x < 0 + 4096 at hx
    change 8192 ≤ x at hx'
    omega
  aligned := by decide
  length_lt := by decide
  end_lt := by decide
  type_lt := by decide

/-- The frame is taken, written, freed and taken again; then no frame is left. -/
theorem allocSound_run_gapMap :
    ∃ s, [.alloc, .store 8200 7, .free 8192, .alloc].foldlM step (init gapMap fun _ => 0) = some s ∧
      s.allocated = [8192] ∧ AllocSound gapMap s ∧ AllocComplete gapMap s := by
  refine ⟨_, rfl, rfl, ?_⟩
  obtain ⟨hsound, hcomplete⟩ := @allocSound_run gapMap (fun _ => 0)
    [.alloc, .store 8200 7, .free 8192, .alloc] _ wellFormed_gapMap rfl
  exact ⟨hsound, hcomplete (by decide)⟩

/-- A map whose usable entry starts at address `0`. -/
def lowMap : List MemmapEntry := [⟨0, 4096, 0⟩]

/-- **Completeness fails at address `0`**: the first call hands out the frame at `0`,
and its answer is the one that means that every frame is allocated. -/
theorem not_allocComplete_of_base_zero :
    WellFormed lowMap ∧ ¬AllocComplete lowMap (init lowMap fun _ => 0) := by
  refine ⟨⟨List.cons_ne_nil _ _, by decide, List.pairwise_singleton _ _,
    List.pairwise_singleton _ _, by decide, by decide, by decide, by decide⟩, fun h => ?_⟩
  have h0 : (allocFrame (init lowMap fun _ => 0).phys).1 = 0 := rfl
  have hall : ∀ a ∈ usableFrames lowMap, a ∈ ([] : List ℕ) := h.mp h0
  exact List.not_mem_nil (hall 0 (by decide))

end Frames

end WillowOS
