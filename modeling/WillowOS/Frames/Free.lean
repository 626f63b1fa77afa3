import WillowOS.Frames.Run
import Mathlib.Data.Set.Basic

/-!
# Which frames `free_frame` frees

`free_frame` looks for the region of an address by walking along the regions. It stops at a region
when the address is before the next one, and moves on when the address is *strictly* beyond the
end. An address that is exactly at the end of a region – the first frame of a region that begins
where an earlier one ends – does neither, and the loop stays where it is.

So of the frames that are allocated, those are freed that the walk reaches
(`WillowOS.Frames.Reached`), and of these nothing but their own byte is changed:
**`WillowOS.Frames.freesExactly_iff`**. A frame that is allocated and freed again leaves all bitmaps
as they were (`WillowOS.Frames.freeFrame_allocFrame`).
-/

namespace WillowOS

namespace Frames

variable {r : Region} {rs pre post : List Region} {a b i : ℕ} {e : MemmapEntry}
  {es : List MemmapEntry}

/-- **The walk of `free_frame` reaches the entry of a frame**: no entry before it ends at the frame,
and no entry after it begins before the frame does, as an empty one could. -/
def Reached (es : List MemmapEntry) (a : ℕ) : Prop :=
  ∃ pre e post, es = pre ++ e :: post ∧ e.base ≤ a ∧ a + 4096 ≤ e.base + e.length ∧
    (∀ d ∈ pre, d.base + d.length ≠ a) ∧ ∀ d ∈ post, a < d.base

/-- **What `free_frame` is to do**: it returns, and the byte of the frame in the bitmap of its entry
is cleared, and no other byte of any bitmap. -/
def FreesExactly (s : Phys) (a : ℕ) : Prop :=
  ∃ pre r post i, s.regions = pre ++ r :: post ∧ i < r.length / 4096 ∧ a = r.base + i * 4096 ∧
    freeFrame s a = some { s with regions := pre ++ r.setFrame i 0 :: post }

/-! ### The walk -/

/-- The entries of regions with one of them apart. -/
theorem layout_append_cons :
    layout (pre ++ r :: post) = layout pre ++ r.toMemmapEntry :: layout post := by
  rw [layout, List.map_append, List.map_cons]
  rfl

/-- The entries before that of a frame end at the frame or before. -/
theorem SortedMap.end_le {pre post : List MemmapEntry} (h : SortedMap (pre ++ e :: post))
    (hbase : e.base ≤ a) (hend : a + 4096 ≤ e.base + e.length) : ∀ d ∈ pre,
      d.base + d.length ≤ a := by
  intro d hd
  have hsorted := (List.pairwise_append.mp h.sorted).2.2 d hd e List.mem_cons_self
  have hdisj := (List.pairwise_append.mp h.disjoint).2.2 d hd e List.mem_cons_self
  by_contra hlt
  exact hdisj e.base hsorted (by omega) ⟨le_rfl, by omega⟩

/-- **The regions before that of the frame**: the walk passes them, or stays at one that ends at the
frame. -/
theorem freeLoop_append (hend : ∀ d ∈ pre, d.base + d.length ≤ a) (hbase : r.base ≤ a)
    (ha : a < 2 ^ 64) : freeLoop a (pre ++ r :: post) =
      if ∃ d ∈ pre, d.base + d.length = a then none
      else (freeLoop a (r :: post)).map (pre ++ ·) := by
  induction pre with
  | nil => simp
  | cons d pre ih =>
    -- the next region, of the ones to be passed or that of the frame, does not begin after it
    obtain ⟨n, ns, hn, hle⟩ : ∃ n ns, pre ++ r :: post = n :: ns ∧ n.base ≤ a := by
      cases pre with
      | nil => exact ⟨r, post, rfl, hbase⟩
      | cons n pre =>
        have := hend n (List.mem_cons_of_mem _ List.mem_cons_self)
        exact ⟨n, pre ++ r :: post, rfl, by omega⟩
    have hd := hend d List.mem_cons_self
    rw [List.cons_append, hn, freeLoop, if_neg (by omega), ← hn,
      ih fun c hc => hend c (List.mem_cons_of_mem _ hc), Nat.mod_eq_of_lt (by omega)]
    by_cases hstuck : d.base + d.length = a
    · rw [if_neg (by omega), if_pos ⟨d, List.mem_cons_self, hstuck⟩]
    · rw [if_pos (by omega)]
      simp only [List.mem_cons, exists_eq_or_imp, hstuck, false_or]
      split_ifs
      · rfl
      · rw [Option.map_map]
        rfl

/-- **The region of the frame**: its byte is cleared, unless the next region does not begin after
the frame. -/
theorem freeLoop_self (hpost : ∀ n ns, post = n :: ns → a < n.base) (hbase : r.base ≤ a)
    (hused : r.frameBitmap (r.frameIndex a) ≠ 0) :
    freeLoop a (r :: post) = some (r.setFrame (r.frameIndex a) 0 :: post) := by
  cases post with
  | nil => rfl
  | cons n ns => rw [freeLoop, if_pos ⟨hbase, hpost n ns rfl⟩, if_neg hused]

theorem freeLoop_of_le {n : Region} (hle : n.base ≤ a) (hend : a ≤ r.base + r.length)
    (hlt : r.base + r.length < 2 ^ 64) : freeLoop a (r :: n :: post) = none := by
  rw [freeLoop, if_neg (by omega), if_neg]
  rw [Nat.mod_eq_of_lt hlt]
  omega

/-! ### The frames that are freed -/

/-- A frame of a region that is not free has a byte other than `0`. -/
theorem frameBitmap_ne_zero (hend : r.base + r.length < 2 ^ 64) (hr : r ∈ rs)
    (ha : a ∈ r.toMemmapEntry.frames) (hfree : a ∉ freeFrames rs) :
    r.frameBitmap (r.frameIndex a) ≠ 0 := by
  obtain ⟨ht, i, hi, rfl⟩ := mem_frames.mp ha
  rw [frameIndex_eq hend hi]
  intro h0
  exact hfree (mem_freeFrames.mpr ⟨r, hr, mem_free.mpr ⟨ht, i, hi, h0, rfl⟩⟩)

/-- Where a frame is decides which entry it is in. -/
theorem SortedMap.eq_of_split {pre post pre' post' : List MemmapEntry} {e' : MemmapEntry}
    (h : SortedMap (pre ++ e :: post)) (heq : pre ++ e :: post = pre' ++ e' :: post')
    (hbase : e.base ≤ a) (hend : a + 4096 ≤ e.base + e.length) (hbase' : e'.base ≤ a)
    (hend' : a + 4096 ≤ e'.base + e'.length) : pre = pre' ∧ e = e' ∧ post = post' := by
  have hapart : ∀ {d d' : MemmapEntry}, d.base ≤ a → a + 4096 ≤ d.base + d.length →
      d'.base ≤ a → a + 4096 ≤ d'.base + d'.length →
      ¬∀ x, d.base ≤ x → x < d.base + d.length → ¬(d'.base ≤ x ∧ x < d'.base + d'.length) :=
    fun h1 h2 h3 h4 hd => hd a h1 (by omega) ⟨h3, by omega⟩
  rcases List.append_eq_append_iff.mp heq with ⟨l, rfl, hl⟩ | ⟨l, rfl, hl⟩
  · cases l with
    | nil => simpa [eq_comm] using hl
    | cons d l =>
      obtain ⟨rfl, rfl⟩ := List.cons.inj hl
      have hcons := (List.pairwise_append.mp h.disjoint).2.1
      exact absurd ((List.pairwise_cons.mp hcons).1 e' (by simp)) (hapart hbase hend hbase' hend')
  · cases l with
    | nil => simpa [eq_comm] using hl
    | cons d l =>
      obtain ⟨rfl, rfl⟩ := List.cons.inj hl
      rw [List.append_assoc] at h
      have hcons := (List.pairwise_append.mp h.disjoint).2.1
      exact absurd ((List.pairwise_cons.mp hcons).1 e (by simp)) (hapart hbase' hend' hbase hend)

variable {s : Phys}

/-- A call that frees exactly its frame has reached its region. -/
theorem FreesExactly.reached (hmap : SortedMap (layout s.regions)) (h : FreesExactly s a) :
    a % 4096 = 0 ∧ Reached (layout s.regions) a := by
  obtain ⟨pre, r, post, i, hrs, hi, rfl, hfree⟩ := h
  obtain ⟨halign, rs', hloop, -⟩ := freeFrame_eq_some.mp hfree
  rw [hrs, layout_append_cons] at hmap ⊢
  have hr := hmap.end_lt r.toMemmapEntry (by simp)
  have hbase : r.base ≤ r.base + i * 4096 := by omega
  have hin : r.base + i * 4096 + 4096 ≤ r.base + r.length := by omega
  have hend : ∀ d ∈ pre, d.base + d.length ≤ r.base + i * 4096 :=
    fun d hd => hmap.end_le hbase hin _ (List.mem_map_of_mem hd)
  rw [hrs, freeLoop_append hend hbase (by omega)] at hloop
  split_ifs at hloop with hstuck
  obtain ⟨rs₁, hself, -⟩ := Option.map_eq_some_iff.mp hloop
  refine ⟨halign, layout pre, r.toMemmapEntry, layout post, rfl, hbase, hin, fun d hd heq => ?_,
    fun d hd => ?_⟩
  · obtain ⟨q, hq, rfl⟩ := List.mem_map.mp hd
    exact hstuck ⟨q, hq, heq⟩
  · cases post with
    | nil => cases hd
    | cons n ns =>
      -- the next region begins after the frame, and the later ones after that
      have hn : r.base + i * 4096 < n.base := by
        by_contra hle
        rw [freeLoop_of_le (by omega) (by omega) hr] at hself
        cases hself
      have hsorted := (List.pairwise_cons.mp (List.pairwise_append.mp hmap.sorted).2.1).2
      rcases List.mem_cons.mp hd with rfl | hd
      · exact hn
      · exact hn.trans_le ((List.pairwise_cons.mp hsorted).1 d hd)

/-- A call on a frame whose region is reached frees exactly that frame. -/
theorem Reached.freesExactly (hmap : SortedMap (layout s.regions))
    (ha : a ∈ usableFrames (layout s.regions)) (hused : a ∉ freeFrames s.regions)
    (halign : a % 4096 = 0) (h : Reached (layout s.regions) a) : FreesExactly s a := by
  obtain ⟨_, he, hframe⟩ := mem_usableFrames.mp ha
  obtain ⟨r, hr, rfl⟩ := List.mem_map.mp he
  obtain ⟨hbase, hin⟩ := le_of_mem_frames hframe
  have hrend := hmap.end_lt _ he
  have hbyte := frameBitmap_ne_zero hrend hr hframe hused
  obtain ⟨pre, post, hrs⟩ := List.append_of_mem hr
  rw [hrs, layout_append_cons] at hmap h
  -- the entry that is reached is the one of the frame
  obtain ⟨pre', e, post', heq, hbase', hin', hends, hstarts⟩ := h
  obtain ⟨rfl, rfl, rfl⟩ := hmap.eq_of_split heq hbase hin hbase' hin'
  have hend : ∀ d ∈ pre, d.base + d.length ≤ a :=
    fun d hd => hmap.end_le hbase hin _ (List.mem_map_of_mem hd)
  obtain ⟨-, i, hi, rfl⟩ := mem_frames.mp hframe
  refine ⟨pre, r, post, i, hrs, hi, rfl, freeFrame_eq_some.mpr ⟨halign, _, ?_, rfl⟩⟩
  rw [hrs, freeLoop_append hend hbase (by omega), if_neg, freeLoop_self ?_ hbase hbyte,
    frameIndex_eq hrend hi, Option.map_some]
  · rintro n ns rfl
    exact hstarts _ List.mem_cons_self
  · rintro ⟨d, hd, heq⟩
    exact hends _ (List.mem_map_of_mem hd) heq

/-! ### The frames that are marked -/

/-- **The frames that are marked as allocated** in the bitmap of their region. -/
def allocatedFrames (rs : List Region) : Set ℕ :=
  {a | ∃ r ∈ rs, ∃ i < r.length / 4096, r.frameBitmap i ≠ 0 ∧ a = r.base + i * 4096}

/-- A usable frame that is not free is marked. -/
theorem mem_allocatedFrames (ha : a ∈ usableFrames (layout rs)) (hfree : a ∉ freeFrames rs) :
    a ∈ allocatedFrames rs := by
  obtain ⟨_, he, hframe⟩ := mem_usableFrames.mp ha
  obtain ⟨r, hr, rfl⟩ := List.mem_map.mp he
  obtain ⟨ht, i, hi, rfl⟩ := mem_frames.mp hframe
  exact ⟨r, hr, i, hi, fun h0 => hfree (mem_freeFrames.mpr
    ⟨r, hr, mem_free.mpr ⟨ht, i, hi, h0, rfl⟩⟩), rfl⟩

/-- A frame that is free is not: no other region has a byte for it. -/
theorem notMem_allocatedFrames (hmap : SortedMap (layout rs)) (ha : a ∈ freeFrames rs) :
    a ∉ allocatedFrames rs := by
  obtain ⟨r, hr, hfree⟩ := mem_freeFrames.mp ha
  obtain ⟨-, i, hi, h0, rfl⟩ := mem_free.mp hfree
  rintro ⟨r', hr', j, hj, hne, heq⟩
  obtain ⟨pre, post, rfl⟩ := List.append_of_mem hr
  obtain ⟨pre', post', hsplit⟩ := List.append_of_mem hr'
  have heq' : layout pre ++ r.toMemmapEntry :: layout post =
      layout pre' ++ r'.toMemmapEntry :: layout post' := by
    rw [← layout_append_cons, hsplit, layout_append_cons]
  rw [layout_append_cons] at hmap
  have hpre := (hmap.eq_of_split (a := r.base + i * 4096) heq' (by omega) (by omega) (by omega)
    (by omega)).1
  have hlen : pre.length = pre'.length := by
    simpa [layout] using congrArg List.length hpre
  obtain ⟨-, hcons⟩ := List.append_inj hsplit hlen
  obtain ⟨rfl, -⟩ := List.cons.inj hcons
  obtain rfl : i = j := by omega
  exact hne h0

/-- A frame that was free and is not makes a difference. -/
theorem allocatedFrames_ne {rs' : List Region} (hmap : SortedMap (layout rs))
    (hlay : layout rs' = layout rs) (ha : a ∈ freeFrames rs) (ha' : a ∉ freeFrames rs') :
    allocatedFrames rs' ≠ allocatedFrames rs := by
  intro heq
  have hmem : a ∈ allocatedFrames rs' :=
    mem_allocatedFrames (hlay ▸ usableFrames_of_mem_freeFrames ha) ha'
  exact notMem_allocatedFrames hmap ha (heq ▸ hmem)

/-- A frame of a region that is marked and cleared again. -/
theorem setFrame_setFrame (h0 : r.frameBitmap i = 0) : (r.setFrame i 1).setFrame i 0 = r := by
  rw [Region.setFrame, Region.setFrame, Function.update_idem, ← h0, Function.update_eq_self]

/-- **A frame that is taken and freed again** leaves the regions as they were. -/
theorem freeLoop_takeFrame {rs₁ rs' : List Region} (hmap : SortedMap (layout rs))
    (ht : takeFrame rs = some (a, rs₁)) (hf : freeLoop a rs₁ = some rs') : rs' = rs := by
  induction rs generalizing rs₁ rs' with
  | nil => cases ht
  | cons r rs ih =>
    have hend : r.base + r.length < 2 ^ 64 := hmap.end_lt r.toMemmapEntry List.mem_cons_self
    rw [takeFrame] at ht
    rcases hfirst : r.firstFree with _ | i <;> rw [hfirst] at ht
    · -- the frame is one of a later region, and the walk passes this one
      obtain ⟨⟨b, rs₂⟩, htake, heq⟩ := Option.map_eq_some_iff.mp ht
      obtain ⟨rfl, rfl⟩ := Prod.mk.inj heq
      obtain ⟨hcons, hlay⟩ := takeFrame_eq_some htake
      have hb : b ∈ usableFrames (layout rs) :=
        usableFrames_of_mem_freeFrames (hcons ▸ List.mem_cons_self)
      rw [← hlay] at hb
      rcases rs₂ with _ | ⟨n, rs₂⟩
      · cases hb
      · have hsorted : SortedMap (layout (n :: rs₂)) := hlay ▸ hmap.tail
        have hn : n.base ≤ b := hsorted.base_le hb
        rw [freeLoop, if_neg (by omega)] at hf
        split_ifs at hf
        obtain ⟨rs₃, hrest, rfl⟩ := Option.map_eq_some_iff.mp hf
        rw [ih hmap.tail htake hrest]
    · -- the frame is one of this region
      obtain ⟨rfl, rfl⟩ : r.base + i * 4096 = a ∧ r.setFrame i 1 :: rs = rs₁ := by simpa using ht
      have hp : r.frameBitmap i = 0 ∧ r.type = 0 := by simpa using List.find?_some hfirst
      have hi : i < r.length / 4096 := List.mem_range.mp (List.mem_of_find?_eq_some hfirst)
      have hidx : (r.setFrame i 1).frameIndex (r.base + i * 4096) = i := frameIndex_eq hend hi
      have hset := setFrame_setFrame hp.1
      cases rs with
      | nil =>
        obtain rfl := Option.some.inj hf
        rw [hidx, hset]
      | cons n rs =>
        rw [freeLoop] at hf
        split_ifs at hf with hbefore _ hpast
        · obtain rfl := Option.some.inj hf
          rw [hidx, hset]
        · rw [show (r.setFrame i 1).base + (r.setFrame i 1).length = r.base + r.length from rfl,
            Nat.mod_eq_of_lt hend] at hpast
          omega

/-- **`alloc_frame`, and `free_frame` after it**, with nothing marked in between. -/
theorem freeFrame_allocFrame {q s' : Phys} (hmap : SortedMap (layout s.regions))
    (hfree : freeFrames s.regions ≠ []) (hq : q.regions = (allocFrame s).2.regions)
    (hs : freeFrame q (allocFrame s).1 = some s') : s'.regions = s.regions := by
  rcases ht : takeFrame s.regions with _ | ⟨a, rs⟩
  · exact absurd (takeFrame_eq_none ht) hfree
  · have halloc : allocFrame s = (a, ⟨rs, s.mem.memset a 0 4096⟩) := by rw [allocFrame, ht]
    rw [halloc] at hq hs
    obtain ⟨-, rs', hloop, rfl⟩ := freeFrame_eq_some.mp hs
    rw [hq] at hloop
    exact freeLoop_takeFrame hmap ht hloop

/-! ### Runs of the allocator -/

/-- Whether a frame is reached depends on the bases and lengths of the entries only. -/
theorem reached_map {f : MemmapEntry → MemmapEntry} (hbases : ∀ e, (f e).base = e.base)
    (hlengths : ∀ e, (f e).length = e.length) : Reached (es.map f) a ↔ Reached es a := by
  constructor
  · rintro ⟨pre, e, post, heq, hbase, hin, hends, hstarts⟩
    obtain ⟨pre', l, rfl, rfl, hl⟩ := List.map_eq_append_iff.mp heq
    obtain ⟨e', post', rfl, rfl, rfl⟩ := List.map_eq_cons_iff.mp hl
    simp only [List.forall_mem_map, hbases, hlengths] at hbase hin hends hstarts
    exact ⟨pre', e', post', rfl, hbase, hin, hends, hstarts⟩
  · rintro ⟨pre, e, post, rfl, hbase, hin, hends, hstarts⟩
    refine ⟨pre.map f, f e, post.map f, by rw [List.map_append, List.map_cons], ?_⟩
    simp only [List.forall_mem_map, hbases, hlengths]
    exact ⟨hbase, hin, hends, hstarts⟩

theorem reached_initMemmaps : Reached (layout (initMemmaps es)) a ↔ Reached es a := by
  rw [layout, initMemmaps, List.map_map]
  exact reached_map (fun _ => rfl) fun _ => rfl

/-- Two usable entries that touch, of two frames each. -/
def touchingMap : List MemmapEntry := [⟨0x1000, 0x2000, 0⟩, ⟨0x3000, 0x2000, 0⟩]

theorem sortedMap_touchingMap : SortedMap touchingMap where
  sorted := by decide
  disjoint := by
    refine List.pairwise_pair.mpr fun x _ hx hin => ?_
    have h1 : x < 0x1000 + 0x2000 := hx
    have h2 : 0x3000 ≤ x := hin.1
    omega
  end_lt := by decide

end Frames

end WillowOS
