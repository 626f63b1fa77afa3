import WillowOS.Vm.Pages

/-!
# The bytes of an address space

What a program reads in its lower half, as a function of the address. As long as no two pages
are mapped onto one frame (`WillowOS.Vm.Contents`), a byte that is written through its mapping is
changed at its own address only (`WillowOS.Vm.Contents.storeByte`), and a page that is mapped
reads as zero, whatever was there before (`WillowOS.Vm.Contents.frameMapped`). The second fact
is what becomes of a page that is mapped twice.
-/

namespace WillowOS

namespace Vm

open Paging

open Frames hiding State

variable {roots K pages : Set ℕ} {c : ℕ → UInt8} {root v w a n permissions : ℕ}

/-- **The bytes of an address space**: the pages of the lower half that are mapped, each of them
onto a frame of its own, and what is read there. -/
structure Contents (roots K : Set ℕ) (root : ℕ) (pages : Set ℕ) (c : ℕ → UInt8) (s : Phys) :
    Prop where
  spaces : Spaces roots K s
  mapped_iff : ∀ w < 2 ^ 47, (leaf (userHalf roots s.mem) root w).isSome ↔ pageNumber w ∈ pages
  own : ∀ w < 2 ^ 47, ∀ w' < 2 ^ 47, ∀ e e', leaf (userHalf roots s.mem) root w = some e →
    leaf (userHalf roots s.mem) root w' = some e' → frameNumber e = frameNumber e' →
    pageNumber w = pageNumber w'
  content : ∀ w < 2 ^ 47, pageNumber w ∈ pages → loadByte s.mem (4096 * root) w = some (c w)

/-- The pages of a lower half that are mapped. -/
def mappedPages (m : Mem) (cr3 : ℕ) : Set ℕ :=
  {p | ∃ w < 2 ^ 47, pageNumber w = p ∧ mmuTranslate m cr3 w ≠ none}

/-- No two pages of the lower half are mapped onto one frame. -/
def OwnFrames (m : Mem) (cr3 : ℕ) : Prop :=
  ∀ w < 2 ^ 47, ∀ w' < 2 ^ 47, ∀ a a', mmuTranslate m cr3 w = some a →
    mmuTranslate m cr3 w' = some a' → a / 4096 = a' / 4096 → w / 4096 = w' / 4096

theorem pageNumber_of_lt (hw : w < 2 ^ 47) : pageNumber w = w / 4096 := by
  rw [pageNumber]
  omega

section

variable {s s' : Phys}

/-- A byte is read from the frame of its page. -/
theorem Spaces.loadByte_eq (h : Spaces roots K s) (hroot : root ∈ roots) (hw : w < 2 ^ 47) :
    loadByte s.mem (4096 * root) w =
      (leaf (userHalf roots s.mem) root w).map fun e =>
        s.mem (4096 * frameNumber e + w % 4096) := by
  rw [loadByte, h.mmuTranslate_eq hroot hw]
  exact Option.map_map ..

/-- The bytes of an address space at the start. -/
theorem Spaces.contents (h : Spaces roots K s) (hroot : root ∈ roots)
    (hown : OwnFrames s.mem (4096 * root)) :
    Contents roots K root (mappedPages s.mem (4096 * root))
      (fun w => (loadByte s.mem (4096 * root) w).getD 0) s := by
  have hmapped : ∀ w < 2 ^ 47, (leaf (userHalf roots s.mem) root w).isSome ↔
      pageNumber w ∈ mappedPages s.mem (4096 * root) := by
    intro w hw
    constructor
    · intro hsome
      refine ⟨w, hw, rfl, fun hnone => ?_⟩
      rw [h.mmuTranslate_eq hroot hw, Option.map_eq_none_iff] at hnone
      rw [hnone] at hsome
      cases hsome
    · rintro ⟨w', hw', hpage, hne⟩
      rw [← leaf_of_pageNumber_eq hpage, Option.isSome_iff_ne_none]
      intro hnone
      exact hne (by rw [h.mmuTranslate_eq hroot hw', hnone, Option.map_none])
  refine ⟨h, hmapped, fun w hw w' hw' e e' he he' hframe => ?_, fun w hw hin => ?_⟩
  · rw [pageNumber_of_lt hw, pageNumber_of_lt hw']
    refine hown w hw w' hw' (4096 * frameNumber e + w % 4096) (4096 * frameNumber e' + w' % 4096)
      ?_ ?_ (by omega)
    · rw [h.mmuTranslate_eq hroot hw, he, Option.map_some]
    · rw [h.mmuTranslate_eq hroot hw', he', Option.map_some]
  · obtain ⟨e, he⟩ := Option.isSome_iff_exists.mp ((hmapped w hw).mpr hin)
    rw [h.loadByte_eq hroot hw, he]
    rfl

namespace Contents

variable (h : Contents roots K root pages c s)
include h

/-- **A page is mapped**: it reads as zero, and the others as before. -/
theorem frameMapped (hroot : root ∈ roots) (hP : permissions < 4096)
    (hM : FrameMapped roots K root v permissions s s' a) :
    Contents roots K root (insert (pageNumber v) pages)
      (fun w => if pageNumber w = pageNumber v then 0 else c w) s' := by
  have hle := h.spaces.usable_le _ (usableFrames_of_mem_freeFrames hM.free_mem)
  have hframe : frameNumber (4096 * a ||| permissions) = a :=
    frameNumber_or (by omega) (by omega)
  have hleaf := hM.leaf_eq root hroot
  -- no page was mapped onto the frame, which was free
  have hfresh : ∀ w e, leaf (userHalf roots s.mem) root w = some e → frameNumber e ≠ a := by
    rintro w e he rfl
    exact (h.spaces.leaf_spare root hroot w e he).1 (Or.inl hM.free_mem)
  refine ⟨hM.spaces, fun w hw => ?_, fun w hw w' hw' e e' he he' heq => ?_, fun w hw hin => ?_⟩
  · rw [hleaf w, Set.mem_insert_iff, ← h.mapped_iff w hw]
    by_cases hpage : pageNumber w = pageNumber v
    · simp [hpage]
    · simp [hpage]
  · rw [hleaf] at he he'
    split_ifs at he he' with hv hv' hv'
    · exact hv.2.trans hv'.2.symm
    · obtain rfl := Option.some.inj he
      exact absurd (heq.symm.trans hframe) (hfresh w' e' he')
    · obtain rfl := Option.some.inj he'
      exact absurd (heq.trans hframe) (hfresh w e he)
    · exact h.own w hw w' hw' e e' he he' heq
  · rw [hM.spaces.loadByte_eq hroot hw, hleaf w]
    by_cases hpage : pageNumber w = pageNumber v
    · rw [if_pos ⟨rfl, hpage⟩, Option.map_some, if_pos hpage, hframe,
        hM.cleared _ (by omega)]
    · have hold := h.content w hw (hin.resolve_left hpage)
      rw [h.spaces.loadByte_eq hroot hw] at hold
      rw [if_neg fun hself => hpage hself.2, if_neg hpage, ← hold]
      -- the frame of another page is neither a table nor free
      rcases he : leaf (userHalf roots s.mem) root w with _ | e
      · rfl
      · rw [Option.map_some, Option.map_some, hM.kept _ (Or.inl ?_)]
        rw [show (4096 * frameNumber e + w % 4096) / 4096 = frameNumber e by omega]
        exact (h.spaces.leaf_spare root hroot w e he).1

/-- **A byte is written** through its mapping, and read at its address only. -/
theorem storeByte {b : UInt8} (hroot : root ∈ roots) (hw : w < 2 ^ 47)
    (hin : pageNumber w ∈ pages) : ∃ m, Vm.storeByte s.mem (4096 * root) w b = some m ∧
      Contents roots K root pages (fun x => if x = w then b else c x) ⟨s.regions, m⟩ := by
  obtain ⟨e, he⟩ := Option.isSome_iff_exists.mp ((h.mapped_iff w hw).mpr hin)
  have hstore : Vm.storeByte s.mem (4096 * root) w b =
      some (Function.update s.mem (4096 * frameNumber e + w % 4096) b) := by
    rw [Vm.storeByte, h.spaces.mmuTranslate_eq hroot hw, he]
    rfl
  have hstores := h.spaces.stores_storeByte hroot hw hstore
  refine ⟨_, hstore, hstores.spaces h.spaces, fun x hx => ?_, fun x hx x' hx' e₁ e₂ h₁ h₂ => ?_,
    fun x hx hxin => ?_⟩
  · rw [hstores.leaf_eq hroot]
    exact h.mapped_iff x hx
  · rw [hstores.leaf_eq hroot] at h₁ h₂
    exact h.own x hx x' hx' e₁ e₂ h₁ h₂
  · have hold := h.content x hx hxin
    rw [h.spaces.loadByte_eq hroot hx] at hold
    rw [(hstores.spaces h.spaces).loadByte_eq hroot hx, hstores.leaf_eq hroot]
    obtain ⟨e', he', hc⟩ := Option.map_eq_some_iff.mp hold
    rw [he', Option.map_some]
    refine congrArg some ?_
    by_cases hxw : x = w
    · subst hxw
      obtain rfl := Option.some.inj (he.symm.trans he')
      rw [if_pos rfl]
      exact Function.update_self ..
    · rw [if_neg hxw, ← hc]
      refine Function.update_of_ne (fun haddr => hxw ?_) _ _
      -- two bytes at one place of one frame are of one page
      have hpage := h.own x hx w hw e' e he' he (by omega)
      rw [pageNumber_of_lt hx, pageNumber_of_lt hw] at hpage
      omega

/-- **Bytes are written one after the other.** -/
theorem storeBytes {b : ℕ → UInt8} (hroot : root ∈ roots) (hv : v + n ≤ 2 ^ 47)
    (hin : ∀ w, v ≤ w → w < v + n → pageNumber w ∈ pages) :
    ∃ m, Vm.storeBytes s.mem (4096 * root) v b n = some m ∧
      Contents roots K root pages (fun x => if v ≤ x ∧ x < v + n then b (x - v) else c x)
        ⟨s.regions, m⟩ := by
  induction n with
  | zero =>
    refine ⟨s.mem, rfl, ?_⟩
    have hfun : (fun x => if v ≤ x ∧ x < v + 0 then b (x - v) else c x) = c :=
      funext fun x => if_neg (by omega)
    rwa [hfun]
  | succ n ih =>
    obtain ⟨m, hm, hc⟩ := ih (by omega) fun w h1 h2 => hin w h1 (by omega)
    obtain ⟨m', hm', hc'⟩ := hc.storeByte (b := b n) hroot (w := v + n) (by omega)
      (hin _ (by omega) (by omega))
    refine ⟨m', ?_, ?_⟩
    · rw [storeBytes_succ, hm, Option.bind_some, Nat.mod_eq_of_lt (by omega)]
      exact hm'
    · have hfun : (fun x => if v ≤ x ∧ x < v + (n + 1) then b (x - v) else c x) = fun x =>
          if x = v + n then b n else if v ≤ x ∧ x < v + n then b (x - v) else c x := by
        funext x
        by_cases hx : x = v + n
        · rw [if_pos hx, if_pos (by omega), hx, Nat.add_sub_cancel_left]
        · rw [if_neg hx]
          exact if_congr (by omega) rfl rfl
      rwa [hfun]

/-- Bytes of a page that is not mapped cannot be written. -/
theorem storeBytes_eq_none {b : ℕ → UInt8} (hroot : root ∈ roots) (hv : v + n ≤ 2 ^ 47)
    (hw : v ≤ w ∧ w < v + n) (hout : pageNumber w ∉ pages) :
    Vm.storeBytes s.mem (4096 * root) v b n = none := by
  by_contra hne
  obtain ⟨m, hm⟩ := Option.ne_none_iff_exists'.mp hne
  obtain ⟨-, -, hmapped⟩ := h.spaces.stores_storeBytes hroot (by omega) hm
  have hsome := hmapped (w - v) (by omega)
  rw [show v + (w - v) = w by omega] at hsome
  exact hout ((h.mapped_iff w (by omega)).mp hsome)

end Contents

end

/-- **The loop of `map_range`** comes back, and the pages it maps read as zero. -/
theorem Contents.mapAll (flag : ℕ) {s : State} {vs : List ℕ}
    (h : Contents roots K root pages c s.phys) (hroot : root ∈ roots)
    (hvs : ∀ v ∈ vs, v < 2 ^ 47) (hP : Grants permissions)
    (hlt : permissions < 4096)
    (hfree : 4 * vs.length ≤ (freeFrames s.phys.regions).length) :
    ∃ s', vs.foldlM (mapNext (4096 * root) permissions flag) s = some s' ∧
      (freeFrames s.phys.regions).length ≤
        4 * vs.length + (freeFrames s'.phys.regions).length ∧
      Contents roots K root (pages ∪ {p | p ∈ vs.map pageNumber})
        (fun w => if pageNumber w ∈ vs.map pageNumber then 0 else c w) s'.phys := by
  induction vs generalizing s pages c with
  | nil =>
    refine ⟨s, rfl, by simp, ?_⟩
    simpa using h
  | cons v vs ih =>
    rw [List.length_cons] at hfree
    obtain ⟨s₁, hs₁⟩ := h.spaces.exists_mapNext flag hroot (hvs v List.mem_cons_self) hP
      hlt (by omega)
    obtain ⟨a, ha⟩ := h.spaces.mapNext hroot (hvs v List.mem_cons_self) hP (by omega) hs₁
    have hfree₁ := ha.free_le
    obtain ⟨s', hs', hfree', hc⟩ := ih (h.frameMapped hroot hlt ha)
      (fun u hu => hvs u (List.mem_cons_of_mem _ hu)) (by omega)
    refine ⟨s', run_cons.mpr ⟨s₁, hs₁, hs'⟩, ?_, ?_⟩
    · rw [List.length_cons]
      omega
    · have hpages : insert (pageNumber v) pages ∪ {p | p ∈ vs.map pageNumber} =
          pages ∪ {p | p ∈ (v :: vs).map pageNumber} := by
        ext p
        simp only [Set.mem_union, Set.mem_insert_iff, Set.mem_ofPred_eq, List.map_cons,
          List.mem_cons]
        tauto
      have hfun : (fun w => if pageNumber w ∈ vs.map pageNumber then 0 else
          if pageNumber w = pageNumber v then 0 else c w) =
          fun w => if pageNumber w ∈ (v :: vs).map pageNumber then 0 else c w := by
        funext w
        simp only [List.map_cons, List.mem_cons]
        split_ifs <;> first | rfl | tauto
      rwa [hpages, hfun] at hc

end Vm

end WillowOS
