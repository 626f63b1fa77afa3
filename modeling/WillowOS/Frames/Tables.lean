import WillowOS.Frames.Run

/-!
# The bounds of the memory map tables

`init_memmaps` copies the memory map into `memmap_arr`, of 32 regions, each with a `frame_bitmap` of
600000 bytes. Neither it nor `alloc_frame` and `free_frame` look at these numbers: a map of 33
entries, or one with an entry of 2.4 GB, is beyond them.

The indices each function uses are listed beside what it does
(`WillowOS.Frames.Tables.accesses`). The largest ones are those of `init_memmaps`, which writes a
byte behind the last frame of each region. `alloc_frame` stays below them; and so does `free_frame`,
even on maps whose entries overlap or wrap around at the end of the address space: on its walk it
uses no larger index than the one of the frame in its own region
(`WillowOS.Frames.Tables.walkAccesses_le`). So the tables are large enough exactly for the maps
that fit them: **`WillowOS.Frames.Tables.alwaysInBounds_iff`**.
-/

namespace WillowOS

namespace Frames

namespace Tables

/-- An index that is used: on `memmap_arr`, or on the `frame_bitmap` of a region. -/
inductive Access where
  | memmapArr (i : ℕ)
  | frameBitmap (i : ℕ)
deriving DecidableEq

/-- The index is below the size of its array. -/
def Access.InBounds : Access → Prop
  | memmapArr i => i < 32
  | frameBitmap i => i < 600000

/-! ### The indices of the functions -/

/-- The entries `init_memmaps` makes regions of: it reads the first one without a test, and if the
map is empty that is whatever is found behind the array. -/
def entriesOf (es : List MemmapEntry) (stray : MemmapEntry) : List MemmapEntry :=
  if es = [] then [stray] else es

/-- Region `i` of `init_memmaps`: a byte for each frame, and one behind them. -/
def regionAccesses (i : ℕ) (e : MemmapEntry) : List Access :=
  .memmapArr i :: (List.range (e.length / 4096 + 1)).map .frameBitmap

/-- The indices of `init_memmaps`. -/
def initAccesses (es : List MemmapEntry) (stray : MemmapEntry) : List Access :=
  (entriesOf es stray).zipIdx.flatMap fun p => regionAccesses p.2 p.1

/-- The indices of the loops of `alloc_frame`. The byte of a frame is looked at before the type of
the region. -/
def scanAccesses : List Region → List Access
  | [] => []
  | r :: rs =>
    match r.firstFree with
    | some i => (List.range (i + 1)).map .frameBitmap
    | none => (List.range (r.length / 4096)).map .frameBitmap ++ scanAccesses rs

/-- The indices of the loop of `free_frame`. -/
def walkAccesses (physAddress : ℕ) : List Region → List Access
  | [] => []
  | [r] => [.frameBitmap (r.frameIndex physAddress)]
  | r :: next :: rs =>
    if r.base ≤ physAddress ∧ physAddress < next.base then
      [.frameBitmap (r.frameIndex physAddress)]
    else if (r.base + r.length) % 2 ^ 64 < physAddress then walkAccesses physAddress (next :: rs)
    else []

/-! ### Runs -/

/-- The regions, and the addresses of all frames that `alloc_frame` has returned. -/
structure State where
  regions : List Region
  returned : List ℕ

/-- A call of `alloc_frame` or of `free_frame`. -/
inductive Event where
  | alloc
  | free (physAddress : ℕ)

/-- The state `init_memmaps` leaves. -/
def init (es : List MemmapEntry) (stray : MemmapEntry) : State :=
  ⟨initMemmaps (entriesOf es stray), []⟩

/-- A call. The address of a frame is computed in 64 bits, and what is freed is a frame that was
returned before. -/
def step (s : State) : Event → Option State
  | .alloc =>
    match takeFrame s.regions with
    | none => some s
    | some (a, rs) => some ⟨rs, a % 2 ^ 64 :: s.returned⟩
  | .free a =>
    if a ∈ s.returned ∧ a % 4096 = 0 then
      (freeLoop a s.regions).map fun rs => { s with regions := rs }
    else none

/-- **The indices a call uses.** An address that is not aligned fails an assertion first. -/
def accesses (s : State) : Event → List Access
  | .alloc => .memmapArr 0 :: scanAccesses s.regions
  | .free a =>
    if a ∈ s.returned ∧ a % 4096 = 0 then .memmapArr 0 :: walkAccesses a s.regions else []

/-- **No index is beyond its table**: neither in `init_memmaps` nor in any call after any others. -/
def AlwaysInBounds (es : List MemmapEntry) : Prop :=
  ∀ stray : MemmapEntry, stray.base < 2 ^ 64 → stray.length < 2 ^ 64 →
    (∀ x ∈ initAccesses es stray, x.InBounds) ∧
    ∀ (evs : List Event) s, evs.foldlM step (init es stray) = some s →
      ∀ ev, ∀ x ∈ accesses s ev, x.InBounds

/-- What Limine delivers: entries sorted by their bases, with bases and lengths of 64 bits. -/
structure LimineMap (es : List MemmapEntry) : Prop where
  sorted : es.Pairwise fun d e => d.base ≤ e.base
  base_lt : ∀ e ∈ es, e.base < 2 ^ 64
  length_lt : ∀ e ∈ es, e.length < 2 ^ 64

/-- **The map fits the tables.** -/
structure Fits (es : List MemmapEntry) : Prop where
  ne_nil : es ≠ []
  length_le : es.length ≤ 32
  frames_lt : ∀ e ∈ es, e.length / 4096 < 600000

variable {r : Region} {rs rs' : List Region} {a b i n : ℕ} {e stray : MemmapEntry}
  {es : List MemmapEntry} {x : Access}

/-! ### `init_memmaps` -/

theorem mem_regionAccesses : x ∈ regionAccesses i e ↔
    x = .memmapArr i ∨ ∃ j ≤ e.length / 4096, x = .frameBitmap j := by
  rw [regionAccesses, List.mem_cons, List.mem_map]
  simp only [List.mem_range, Nat.lt_succ_iff, eq_comm]

/-- The indices of `init_memmaps` are below the bounds exactly when the entries fit. -/
theorem initAccesses_inBounds : (∀ x ∈ initAccesses es stray, x.InBounds) ↔
    (entriesOf es stray).length ≤ 32 ∧ ∀ e ∈ entriesOf es stray, e.length / 4096 < 600000 := by
  simp only [initAccesses, List.mem_flatMap, Prod.exists, List.mem_zipIdx_iff_getElem?,
    mem_regionAccesses]
  constructor
  · intro h
    refine ⟨?_, fun e he => ?_⟩
    · by_contra hlt
      have hget := List.getElem?_eq_getElem (show 32 < (entriesOf es stray).length by omega)
      have : 32 < 32 := h (.memmapArr 32) ⟨_, 32, hget, Or.inl rfl⟩
      omega
    · obtain ⟨i, hi⟩ := List.mem_iff_getElem?.mp he
      exact h (.frameBitmap (e.length / 4096)) ⟨e, i, hi, Or.inr ⟨_, le_rfl, rfl⟩⟩
  · rintro ⟨hlen, hframes⟩ x ⟨e, i, hget, rfl | ⟨j, hj, rfl⟩⟩
    · have hi := (List.getElem?_eq_some_iff.mp hget).1
      exact hi.trans_le hlen
    · exact hj.trans_lt (hframes e (List.mem_of_getElem? hget))

/-! ### `alloc_frame` -/

/-- `alloc_frame` looks at the bytes of frames. -/
theorem scanAccesses_lt (hx : x ∈ scanAccesses rs) :
    ∃ r ∈ rs, ∃ j < r.length / 4096, x = .frameBitmap j := by
  induction rs with
  | nil => cases hx
  | cons r rs ih =>
    rw [scanAccesses] at hx
    rcases hf : r.firstFree with _ | i <;> rw [hf] at hx
    · rcases List.mem_append.mp hx with hx | hx
      · obtain ⟨j, hj, rfl⟩ := List.mem_map.mp hx
        exact ⟨r, List.mem_cons_self, j, List.mem_range.mp hj, rfl⟩
      · obtain ⟨q, hq, hx⟩ := ih hx
        exact ⟨q, List.mem_cons_of_mem _ hq, hx⟩
    · obtain ⟨j, hj, rfl⟩ := List.mem_map.mp hx
      have hi : i < r.length / 4096 := List.mem_range.mp (List.mem_of_find?_eq_some hf)
      have := List.mem_range.mp hj
      exact ⟨r, List.mem_cons_self, j, by omega, rfl⟩

/-- The frame it takes is one of a region. -/
theorem exists_of_takeFrame (h : takeFrame rs = some (a, rs')) :
    ∃ e ∈ layout rs, ∃ i < e.length / 4096, a = e.base + i * 4096 := by
  have hfree : a ∈ freeFrames rs := (takeFrame_eq_some h).1 ▸ List.mem_cons_self
  obtain ⟨e, he, hf⟩ := mem_usableFrames.mp (usableFrames_of_mem_freeFrames hfree)
  exact ⟨e, he, (mem_frames.mp hf).2⟩

/-! ### `free_frame` -/

/-- `free_frame` changes a byte of a bitmap. -/
theorem layout_freeLoop (h : freeLoop a rs = some rs') : layout rs' = layout rs := by
  fun_induction freeLoop a rs generalizing rs' with
  | case1 => exact Option.some.inj h ▸ rfl
  | case2 r => exact Option.some.inj h ▸ rfl
  | case3 => cases h
  | case4 => exact Option.some.inj h ▸ rfl
  | case5 r next rs _ _ ih =>
    obtain ⟨rs₁, hrest, rfl⟩ := Option.map_eq_some_iff.mp h
    exact congrArg (r.toMemmapEntry :: ·) (ih hrest)
  | case6 => cases h

/-- The region with base `b` is still to come, or the walk is at larger bases. -/
def Ahead (b : ℕ) (rs : List Region) : Prop := (∃ r ∈ rs, r.base = b) ∨ ∀ r ∈ rs, b ≤ r.base

theorem Ahead.head_or_tail (h : Ahead b (r :: rs)) : b ≤ r.base ∨ ∃ q ∈ rs, q.base = b := by
  rcases h with ⟨q, hq, hbase⟩ | hall
  · rcases List.mem_cons.mp hq with rfl | hq
    · exact Or.inl hbase.ge
    · exact Or.inr ⟨q, hq, hbase⟩
  · exact Or.inl (hall r List.mem_cons_self)

theorem Ahead.tail (hsorted : (layout (r :: rs)).Pairwise fun d e => d.base ≤ e.base)
    (h : Ahead b (r :: rs)) : Ahead b rs := by
  refine h.head_or_tail.elim (fun hle => Or.inr fun q hq => hle.trans ?_) Or.inl
  exact (List.pairwise_cons.mp hsorted).1 _ (List.mem_map_of_mem hq)

/-- No region begins before the first one. -/
theorem head_le {q : Region} (hsorted : (layout rs).Pairwise fun d e => d.base ≤ e.base)
    (hq : q ∈ rs.head?) (hr : r ∈ rs) : q.base ≤ r.base := by
  cases rs with
  | nil => cases hq
  | cons d rs =>
    obtain rfl := Option.some.inj hq
    rcases List.mem_cons.mp hr with rfl | hr
    · exact le_rfl
    · exact (List.pairwise_cons.mp hsorted).1 _ (List.mem_map_of_mem hr)

/-- **The walk of `free_frame` uses no larger index than that of the frame**, which is number `i` of
an entry with base `b`. If the address does not wrap around, the walk stays at bases up to it. -/
theorem walkAccesses_le (hsorted : (layout rs).Pairwise fun d e => d.base ≤ e.base)
    (hlt : ∀ r ∈ rs, r.base < 2 ^ 64) (hb : b < 2 ^ 64) (hi : i < 600000)
    (ha : a = (b + i * 4096) % 2 ^ 64) (hhead : ∀ r ∈ rs.head?, b + i * 4096 < 2 ^ 64 → r.base ≤ a)
    (hat : Ahead b rs) (hx : x ∈ walkAccesses a rs) : ∃ j ≤ i, x = .frameBitmap j := by
  fun_induction walkAccesses a rs with
  | case1 => cases hx
  | case2 r =>
    refine ⟨_, ?_, List.mem_singleton.mp hx⟩
    have hr := hlt r List.mem_cons_self
    have hle : b ≤ r.base := hat.head_or_tail.resolve_right (by simp)
    have hbase := hhead r rfl
    rw [Region.frameIndex]
    omega
  | case3 r next rs hin =>
    refine ⟨_, ?_, List.mem_singleton.mp hx⟩
    -- later regions begin after the address, and so does that of the frame if it is one of them
    have hle : b ≤ r.base ∨ a < b := by
      refine hat.head_or_tail.imp_right ?_
      rintro ⟨q, hq, rfl⟩
      refine hin.2.trans_le ?_
      rcases List.mem_cons.mp hq with rfl | hq
      · exact le_rfl
      · exact (List.pairwise_cons.mp (List.pairwise_cons.mp hsorted).2).1 _ (List.mem_map_of_mem hq)
    rw [Region.frameIndex]
    omega
  | case4 r next rs hin hend ih =>
    refine ih (List.pairwise_cons.mp hsorted).2 (fun q hq => hlt q (List.mem_cons_of_mem _ hq)) ?_
      (hat.tail hsorted) hx
    intro q hq hfits
    obtain rfl := Option.some.inj hq
    have := hhead r rfl hfits
    omega
  | case5 => cases hx

/-! ### Runs -/

/-- The regions are those of the map, and what was returned are addresses of frames in them. -/
structure Inv (es : List MemmapEntry) (s : State) : Prop where
  layout_eq : layout s.regions = es
  returned : ∀ a ∈ s.returned, ∃ e ∈ es, ∃ i < e.length / 4096, a = (e.base + i * 4096) % 2 ^ 64

theorem inv_step {s s' : State} {ev : Event} (hI : Inv es s) (h : step s ev = some s') :
    Inv es s' := by
  cases ev with
  | alloc =>
    rw [step] at h
    rcases ht : takeFrame s.regions with _ | ⟨a, rs⟩ <;> rw [ht] at h
    · exact Option.some.inj h ▸ hI
    · obtain rfl := Option.some.inj h
      refine ⟨(takeFrame_eq_some ht).2.trans hI.layout_eq, fun b hb => ?_⟩
      rcases List.mem_cons.mp hb with rfl | hb
      · obtain ⟨e, he, i, hi, rfl⟩ := exists_of_takeFrame ht
        exact ⟨e, hI.layout_eq ▸ he, i, hi, rfl⟩
      · exact hI.returned b hb
  | free a =>
    rw [step] at h
    split_ifs at h
    obtain ⟨rs, hloop, rfl⟩ := Option.map_eq_some_iff.mp h
    exact ⟨(layout_freeLoop hloop).trans hI.layout_eq, hI.returned⟩

theorem init_inv (hne : es ≠ []) : Inv (layout (initMemmaps es)) (init es stray) := by
  refine ⟨?_, fun _ ha => absurd ha List.not_mem_nil⟩
  rw [init, entriesOf, if_neg hne]

/-- The regions of a map that fits have the bounds of its entries. -/
theorem forall_layout_initMemmaps {P : ℕ → ℕ → Prop} (h : ∀ e ∈ es, P e.base e.length) :
    ∀ e ∈ layout (initMemmaps es), P e.base e.length := by
  intro e he
  obtain ⟨r, hr, rfl⟩ := List.mem_map.mp he
  obtain ⟨d, hd, rfl⟩ := List.mem_map.mp hr
  exact h d hd

/-- **The calls after `init_memmaps`** use no index beyond the tables, if the map fits them. -/
theorem accesses_inBounds {evs : List Event} {s : State} (hmap : LimineMap es) (hfits : Fits es)
    (hrun : evs.foldlM step (init es stray) = some s) (ev : Event) (hx : x ∈ accesses s ev) :
    x.InBounds := by
  have hI : Inv (layout (initMemmaps es)) s :=
    run_inv (fun _ _ _ hI hs => inv_step hI hs) (init_inv hfits.ne_nil) hrun
  have hframes : ∀ r ∈ s.regions, r.length / 4096 < 600000 := fun r hr =>
    forall_layout_initMemmaps (P := fun _ l => l / 4096 < 600000) hfits.frames_lt _
      (hI.layout_eq ▸ List.mem_map_of_mem hr)
  have hbase : ∀ r ∈ s.regions, r.base < 2 ^ 64 := fun r hr =>
    forall_layout_initMemmaps (P := fun b _ => b < 2 ^ 64) hmap.base_lt _
      (hI.layout_eq ▸ List.mem_map_of_mem hr)
  have hsorted : (layout s.regions).Pairwise fun d e => d.base ≤ e.base := by
    rw [hI.layout_eq]
    exact List.pairwise_map.mpr (List.pairwise_map.mpr hmap.sorted)
  cases ev with
  | alloc =>
    rcases List.mem_cons.mp hx with rfl | hx
    · exact (by decide : 0 < 32)
    · obtain ⟨r, hr, j, hj, rfl⟩ := scanAccesses_lt hx
      exact hj.trans (hframes r hr)
  | free a =>
    rw [accesses] at hx
    split_ifs at hx with hret
    · rcases List.mem_cons.mp hx with rfl | hx
      · exact (by decide : 0 < 32)
      · obtain ⟨e, he, i, hi, ha⟩ := hI.returned a hret.1
        rw [← hI.layout_eq] at he
        obtain ⟨r, hr, rfl⟩ := List.mem_map.mp he
        have hi' : i < 600000 := hi.trans (hframes r hr)
        have hhead : ∀ q ∈ s.regions.head?, r.base + i * 4096 < 2 ^ 64 → q.base ≤ a := by
          intro q hq hwrap
          rw [ha, Nat.mod_eq_of_lt hwrap]
          exact (head_le hsorted hq hr).trans (Nat.le_add_right _ _)
        obtain ⟨j, hj, rfl⟩ := walkAccesses_le hsorted hbase (hbase r hr) hi' ha hhead
          (Or.inl ⟨r, hr, rfl⟩) hx
        exact hj.trans_lt hi'
    · cases hx

/-- **The tables are large enough for the maps that fit them**, and for no others. -/
theorem alwaysInBounds_iff (hmap : LimineMap es) : AlwaysInBounds es ↔ Fits es := by
  constructor
  · intro h
    rcases eq_or_ne es [] with rfl | hne
    · -- what is found behind an empty array may be too long
      have hstray := initAccesses_inBounds.mp
        (h ⟨0, 600000 * 4096, 0⟩ (by decide) (by decide)).1
      exact absurd (hstray.2 _ (List.mem_singleton_self _)) (by decide)
    · have hinit := initAccesses_inBounds.mp (h ⟨0, 0, 0⟩ (by decide) (by decide)).1
      rw [entriesOf, if_neg hne] at hinit
      exact ⟨hne, hinit.1, hinit.2⟩
  · intro hfits stray _ _
    have hentries : entriesOf es stray = es := if_neg hfits.ne_nil
    refine ⟨initAccesses_inBounds.mpr ?_, fun evs s hrun ev x hx =>
      accesses_inBounds hmap hfits hrun ev hx⟩
    rw [hentries]
    exact ⟨hfits.length_le, hfits.frames_lt⟩

/-- Two usable entries of a few frames, the second of which overlaps the first. -/
theorem alwaysInBounds_iff_overlapping :
    AlwaysInBounds [⟨0x1000, 0x4000, 0⟩, ⟨0x2000, 0x1000, 0⟩] := by
  refine (alwaysInBounds_iff ⟨by decide, by decide, by decide⟩).mpr ?_
  exact ⟨List.cons_ne_nil _ _, by decide, by decide⟩

/-- **A machine with 4 GiB of memory in one entry**: the byte behind its frames is number 1048576
of the 600000 of the bitmap. -/
theorem not_alwaysInBounds_fourGigabytes :
    LimineMap [⟨0x100000000, 0x100000000, 0⟩] ∧
      .frameBitmap 1048576 ∈ initAccesses [⟨0x100000000, 0x100000000, 0⟩] ⟨0, 0, 0⟩ ∧
      ¬AlwaysInBounds [⟨0x100000000, 0x100000000, 0⟩] := by
  have hmem : .frameBitmap 1048576 ∈ initAccesses [⟨0x100000000, 0x100000000, 0⟩] ⟨0, 0, 0⟩ := by
    refine List.mem_flatMap.mpr ⟨(⟨0x100000000, 0x100000000, 0⟩, 0), List.mem_singleton_self _, ?_⟩
    exact mem_regionAccesses.mpr (Or.inr ⟨1048576, by decide, rfl⟩)
  refine ⟨⟨by decide, by decide, by decide⟩, hmem, fun h => ?_⟩
  have hlt : 1048576 < 600000 := (h ⟨0, 0, 0⟩ (by decide) (by decide)).1 _ hmem
  exact absurd hlt (by decide)

end Tables

end Frames

end WillowOS
