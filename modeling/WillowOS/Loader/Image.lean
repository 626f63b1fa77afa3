import WillowOS.Loader.Elf
import WillowOS.Vm.Contents
import WillowOS.Vm.Undo

/-!
# The memory image of an ELF file

`load_elf` goes through the segments one after the other. For each of them it has new frames
mapped on all pages the segment meets, clears the memory from the start of the first of these
pages to the end of the segment, and copies the bytes of the file. The segments before it have
bytes on such a page too, when two segments share one, and they are gone then: the page is mapped
once more, and reads as zero.

So the memory has the image of the file exactly when the bytes a later segment takes from an
earlier one are zero anyway, and all the memory that is cleared has been mapped
(**`WillowOS.Loader.image_iff`**). The second condition is there for segments of more than 2 GiB,
whose last pages are not mapped, and for empty segments in the middle of a page, for which no
page is mapped, but the memory before them in the page is cleared all the same.

The table is the one that is loaded, so that the segments are written through it. The file is
not in the memory that is written.
-/

namespace WillowOS

namespace Loader

open Paging Vm

open Frames hiding State

variable {roots K pages : Set ℕ} {c : ℕ → UInt8} {file : Mem} {root v w n : ℕ} {phdr : Elf64Phdr}
  {segments : List Elf64Phdr} {s s' : State}

/-! ### The function -/

/-- A turn of `load_elf`, for a segment of type `PT_LOAD`. -/
def loadSegment (file : Mem) (cr3 : ℕ) (s : State) (phdr : Elf64Phdr) : Option State :=
  (mapRange s cr3 phdr.pVaddr 0b111 phdr.pMemsz 0b111).bind fun r =>
    (storeBytes r.2.phys.mem cr3 (phdr.pVaddr / 4096 * 4096) (fun _ => 0)
      ((phdr.pMemsz + phdr.pVaddr % 4096) % 2 ^ 64)).bind fun m =>
      (storeBytes m cr3 phdr.pVaddr (fun i => file (phdr.pOffset + i)) phdr.pFilesz).bind fun m =>
        (if phdr.pMemsz > phdr.pFilesz then
          storeBytes m cr3 ((phdr.pVaddr + phdr.pFilesz) % 2 ^ 64) (fun _ => 0)
            (phdr.pMemsz - phdr.pFilesz)
        else some m).map fun m => { r.2 with phys := { r.2.phys with mem := m } }

/-- `load_elf`: the address it returns, and the state. -/
def loadElf (file : Mem) (cr3 : ℕ) (s : State) : Option (ℕ × State) :=
  ((ptLoad file).foldlM (loadSegment file cr3) s).map fun s => ((readEhdr file).eEntry, s)

/-! ### The image -/

/-- The byte of a segment at an offset. -/
def segmentByte (file : Mem) (phdr : Elf64Phdr) (i : ℕ) : UInt8 :=
  if i < phdr.pFilesz then file (phdr.pOffset + i) else 0

/-- **`load_elf` builds the image of the file**: it comes back with the entry point, and each
segment reads as the file says. -/
def Image (file : Mem) (cr3 : ℕ) (s : State) : Prop :=
  ∃ s', loadElf file cr3 s = some ((readEhdr file).eEntry, s') ∧
    ∀ phdr ∈ ptLoad file, ∀ i < phdr.pMemsz,
      loadByte s'.phys.mem cr3 (phdr.pVaddr + i) = some (segmentByte file phdr i)

/-- An address of a segment. -/
def Elf64Phdr.Covers (phdr : Elf64Phdr) (w : ℕ) : Prop :=
  phdr.pVaddr ≤ w ∧ w < phdr.pVaddr + phdr.pMemsz

/-- An address from the start of the first page of a segment on. -/
def Elf64Phdr.Clears (phdr : Elf64Phdr) (w : ℕ) : Prop :=
  phdr.pVaddr / 4096 * 4096 ≤ w ∧ w < phdr.pVaddr + phdr.pMemsz

instance (phdr : Elf64Phdr) (w : ℕ) : Decidable (phdr.Clears w) :=
  inferInstanceAs (Decidable (_ ∧ _))

/-- An address that reads as zero before the bytes of the file are copied: it is on a page that
is mapped for the segment, or it is cleared. -/
def Elf64Phdr.Zeroes (phdr : Elf64Phdr) (w : ℕ) : Prop :=
  pageNumber w ∈ (loadAddresses phdr).map pageNumber ∨ phdr.Clears w

instance (phdr : Elf64Phdr) (w : ℕ) : Decidable (phdr.Zeroes w) :=
  inferInstanceAs (Decidable (_ ∨ _))

/-- Segments of the lower half that have no bytes in common. -/
structure Loadable (segments : List Elf64Phdr) : Prop where
  filesz_le : ∀ phdr ∈ segments, phdr.pFilesz ≤ phdr.pMemsz
  lower : ∀ phdr ∈ segments, phdr.pVaddr < 2 ^ 47 ∧ phdr.pVaddr + phdr.pMemsz ≤ 2 ^ 47
  addresses_lower : ∀ phdr ∈ segments, ∀ v ∈ loadAddresses phdr, v < 2 ^ 47
  disjoint : segments.Pairwise fun phdr phdr' => ∀ w, phdr.Covers w → ¬phdr'.Covers w

/-- The pages that are mapped after a segment is loaded. -/
def pagesAfter (pages : Set ℕ) (phdr : Elf64Phdr) : Set ℕ :=
  pages ∪ {p | p ∈ (loadAddresses phdr).map pageNumber}

/-- The memory that is cleared for each segment is mapped when it is. -/
def ClearsMapped : Set ℕ → List Elf64Phdr → Prop
  | _, [] => True
  | pages, phdr :: segments =>
    (∀ w, phdr.Clears w → pageNumber w ∈ pagesAfter pages phdr) ∧
      ClearsMapped (pagesAfter pages phdr) segments

/-- What a segment makes zero is zero in the segments before it. -/
def KeepsBytes (file : Mem) (segments : List Elf64Phdr) : Prop :=
  segments.Pairwise fun phdr phdr' => ∀ i < phdr.pMemsz, phdr'.Zeroes (phdr.pVaddr + i) →
    segmentByte file phdr i = 0

instance (file : Mem) (segments : List Elf64Phdr) : Decidable (KeepsBytes file segments) :=
  inferInstanceAs (Decidable (List.Pairwise _ _))

/-! ### One segment -/

/-- The bytes of the address space after a segment is loaded. -/
def bytesAfter (file : Mem) (c : ℕ → UInt8) (phdr : Elf64Phdr) (w : ℕ) : UInt8 :=
  if phdr.pVaddr ≤ w ∧ w < phdr.pVaddr + phdr.pFilesz then file (phdr.pOffset + (w - phdr.pVaddr))
  else if phdr.Zeroes w then 0 else c w

/-- A segment reads as the file says right after it is loaded. -/
theorem bytesAfter_self {i : ℕ} (hi : i < phdr.pMemsz) :
    bytesAfter file c phdr (phdr.pVaddr + i) = segmentByte file phdr i := by
  rw [bytesAfter, segmentByte]
  by_cases hfile : i < phdr.pFilesz
  · rw [if_pos (by omega), if_pos hfile, Nat.add_sub_cancel_left]
  · have hzero : phdr.Zeroes (phdr.pVaddr + i) := Or.inr ⟨by omega, by omega⟩
    rw [if_neg (by omega), if_neg hfile, if_pos hzero]

/-- The pages are mapped, the memory is cleared, and the file is copied. -/
theorem bytesAfter_eq : bytesAfter file c phdr = fun w =>
    if phdr.pVaddr ≤ w ∧ w < phdr.pVaddr + phdr.pFilesz then
      file (phdr.pOffset + (w - phdr.pVaddr))
    else if phdr.pVaddr / 4096 * 4096 ≤ w ∧
        w < phdr.pVaddr / 4096 * 4096 + (phdr.pMemsz + phdr.pVaddr % 4096) then 0
    else if pageNumber w ∈ (loadAddresses phdr).map pageNumber then 0 else c w := by
  funext w
  have hclears : (phdr.pVaddr / 4096 * 4096 ≤ w ∧
      w < phdr.pVaddr / 4096 * 4096 + (phdr.pMemsz + phdr.pVaddr % 4096)) ↔ phdr.Clears w := by
    rw [Elf64Phdr.Clears]
    omega
  rw [bytesAfter, if_congr hclears rfl rfl]
  refine if_congr Iff.rfl rfl ?_
  by_cases hpage : pageNumber w ∈ (loadAddresses phdr).map pageNumber
  · have hzero : phdr.Zeroes w := Or.inl hpage
    rw [if_pos hzero, if_pos hpage, ite_self]
  · rw [if_neg hpage]
    exact if_congr (or_iff_right hpage) rfl rfl

/-- What is cleared once more is zero already. -/
theorem clear_bytesAfter (hle : phdr.pFilesz ≤ phdr.pMemsz) : (fun w =>
    if phdr.pVaddr + phdr.pFilesz ≤ w ∧
      w < phdr.pVaddr + phdr.pFilesz + (phdr.pMemsz - phdr.pFilesz) then 0
    else bytesAfter file c phdr w) = bytesAfter file c phdr := by
  funext w
  split
  next h =>
    have hzero : phdr.Zeroes w := Or.inr ⟨by omega, by omega⟩
    rw [bytesAfter, if_neg (by omega), if_pos hzero]
  next => rfl

/-- `map_range` maps the pages, and none for an empty segment. -/
theorem mapRange_contents (h : Contents roots K root pages c s.phys) (hroot : root ∈ roots)
    (hlow : ∀ v ∈ loadAddresses phdr, v < 2 ^ 47)
    (hfree : 4 * (loadAddresses phdr).length ≤ (freeFrames s.phys.regions).length) :
    ∃ err s₁, mapRange s (4096 * root) phdr.pVaddr 0b111 phdr.pMemsz 0b111 = some (err, s₁) ∧
      (freeFrames s.phys.regions).length ≤
        4 * (loadAddresses phdr).length + (freeFrames s₁.phys.regions).length ∧
      Contents roots K root (pagesAfter pages phdr)
        (fun w => if pageNumber w ∈ (loadAddresses phdr).map pageNumber then 0 else c w)
        s₁.phys := by
  by_cases hzero : phdr.pMemsz = 0
  · have hnil : loadAddresses phdr = [] := by
      rw [loadAddresses, mapRangeAddresses, if_pos hzero]
    refine ⟨einval, s, by rw [mapRange, if_pos hzero], by omega, ?_⟩
    rw [pagesAfter, hnil]
    simpa using h
  · obtain ⟨s₁, hs₁, hfree₁, hc⟩ := h.mapAll 0b111 hroot hlow
      (show Grants 0b111 by decide) (by decide) hfree
    exact ⟨0, s₁, by rw [mapRange, if_neg hzero, ← loadAddresses, hs₁, Option.map_some], hfree₁, hc⟩

/-- **A segment is loaded** when the memory to be cleared is mapped. -/
theorem loadSegment_contents (file : Mem) (h : Contents roots K root pages c s.phys)
    (hroot : root ∈ roots) (hle : phdr.pFilesz ≤ phdr.pMemsz)
    (hend : phdr.pVaddr + phdr.pMemsz ≤ 2 ^ 47)
    (hlow : ∀ v ∈ loadAddresses phdr, v < 2 ^ 47)
    (hfree : 4 * (loadAddresses phdr).length ≤ (freeFrames s.phys.regions).length)
    (hmapped : ∀ w, phdr.Clears w → pageNumber w ∈ pagesAfter pages phdr) :
    ∃ s', loadSegment file (4096 * root) s phdr = some s' ∧
      (freeFrames s.phys.regions).length ≤
        4 * (loadAddresses phdr).length + (freeFrames s'.phys.regions).length ∧
      Contents roots K root (pagesAfter pages phdr) (bytesAfter file c phdr) s'.phys := by
  obtain ⟨err, s₁, hs₁, hfree₁, hc₁⟩ := mapRange_contents h hroot hlow hfree
  have hsize : (phdr.pMemsz + phdr.pVaddr % 4096) % 2 ^ 64 = phdr.pMemsz + phdr.pVaddr % 4096 :=
    Nat.mod_eq_of_lt (by omega)
  obtain ⟨m₂, hm₂, hc₂⟩ := hc₁.storeBytes (v := phdr.pVaddr / 4096 * 4096)
    (n := phdr.pMemsz + phdr.pVaddr % 4096) (b := fun _ => 0) hroot (by omega)
    fun w h1 h2 => hmapped w ⟨h1, by omega⟩
  obtain ⟨m₃, hm₃, hc₃⟩ := hc₂.storeBytes (v := phdr.pVaddr) (n := phdr.pFilesz)
    (b := fun i => file (phdr.pOffset + i)) hroot (by omega)
    fun w h1 h2 => hmapped w ⟨by omega, by omega⟩
  rw [← bytesAfter_eq] at hc₃
  have hrest : ∃ m₄, (if phdr.pMemsz > phdr.pFilesz then
      storeBytes m₃ (4096 * root) ((phdr.pVaddr + phdr.pFilesz) % 2 ^ 64) (fun _ => 0)
        (phdr.pMemsz - phdr.pFilesz) else some m₃) = some m₄ ∧
      Contents roots K root (pagesAfter pages phdr) (bytesAfter file c phdr)
        ⟨s₁.phys.regions, m₄⟩ := by
    split
    next hgt =>
      obtain ⟨m₄, hm₄, hc₄⟩ := hc₃.storeBytes (v := phdr.pVaddr + phdr.pFilesz)
        (n := phdr.pMemsz - phdr.pFilesz) (b := fun _ => 0) hroot (by omega)
        fun w h1 h2 => hmapped w ⟨by omega, by omega⟩
      rw [clear_bytesAfter hle] at hc₄
      rw [Nat.mod_eq_of_lt (by omega)]
      exact ⟨m₄, hm₄, hc₄⟩
    next => exact ⟨m₃, rfl, hc₃⟩
  obtain ⟨m₄, hm₄, hc₄⟩ := hrest
  refine ⟨{ s₁ with phys := { s₁.phys with mem := m₄ } }, ?_, hfree₁, hc₄⟩
  rw [loadSegment, hs₁, Option.bind_some, hsize, hm₂, Option.bind_some, hm₃, Option.bind_some, hm₄,
    Option.map_some]

/-- And it is not otherwise: clearing the memory faults. -/
theorem loadSegment_eq_none (h : Contents roots K root pages c s.phys) (hroot : root ∈ roots)
    (hend : phdr.pVaddr + phdr.pMemsz ≤ 2 ^ 47)
    (hlow : ∀ v ∈ loadAddresses phdr, v < 2 ^ 47)
    (hfree : 4 * (loadAddresses phdr).length ≤ (freeFrames s.phys.regions).length)
    (hw : phdr.Clears w) (hout : pageNumber w ∉ pagesAfter pages phdr) :
    loadSegment file (4096 * root) s phdr = none := by
  obtain ⟨err, s₁, hs₁, -, hc₁⟩ := mapRange_contents h hroot hlow hfree
  have hnone := hc₁.storeBytes_eq_none (v := phdr.pVaddr / 4096 * 4096)
    (n := phdr.pMemsz + phdr.pVaddr % 4096) (b := fun _ => 0) hroot (by omega)
    ⟨hw.1, by have := hw.2; omega⟩ hout
  rw [loadSegment, hs₁, Option.bind_some, Nat.mod_eq_of_lt (by omega), hnone, Option.bind_none]

/-! ### All segments -/

/-- The pages that are mapped in the end. -/
theorem subset_foldl_pagesAfter (segments : List Elf64Phdr) :
    pages ⊆ segments.foldl pagesAfter pages := by
  induction segments generalizing pages with
  | nil => exact subset_rfl
  | cons phdr segments ih => exact Set.subset_union_left.trans ih

/-- **The segments are loaded** exactly when the memory cleared for them is mapped. -/
theorem loadSegments_contents (file : Mem) (h : Contents roots K root pages c s.phys)
    (hroot : root ∈ roots) (hle : ∀ phdr ∈ segments, phdr.pFilesz ≤ phdr.pMemsz)
    (hend : ∀ phdr ∈ segments, phdr.pVaddr + phdr.pMemsz ≤ 2 ^ 47)
    (hlow : ∀ phdr ∈ segments, ∀ v ∈ loadAddresses phdr, v < 2 ^ 47)
    (hfree : 4 * (segments.flatMap loadAddresses).length ≤ (freeFrames s.phys.regions).length) :
    (ClearsMapped pages segments → ∃ s',
      segments.foldlM (loadSegment file (4096 * root)) s = some s' ∧
      Contents roots K root (segments.foldl pagesAfter pages) (segments.foldl (bytesAfter file) c)
        s'.phys) ∧
    (¬ClearsMapped pages segments → segments.foldlM (loadSegment file (4096 * root)) s = none) := by
  induction segments generalizing pages c s with
  | nil => exact ⟨fun _ => ⟨s, rfl, h⟩, fun hnot => absurd trivial hnot⟩
  | cons phdr segments ih =>
    rw [List.flatMap_cons, List.length_append] at hfree
    have hphdr := List.mem_cons_self (a := phdr) (l := segments)
    by_cases hmapped : ∀ w, phdr.Clears w → pageNumber w ∈ pagesAfter pages phdr
    · obtain ⟨s₁, hs₁, hfree₁, hc₁⟩ := loadSegment_contents file h hroot (hle phdr hphdr)
        (hend phdr hphdr) (hlow phdr hphdr) (by omega) hmapped
      obtain ⟨hpos, hneg⟩ := ih hc₁ (fun p hp => hle p (List.mem_cons_of_mem _ hp))
        (fun p hp => hend p (List.mem_cons_of_mem _ hp))
        (fun p hp => hlow p (List.mem_cons_of_mem _ hp)) (by omega)
      constructor
      · rintro ⟨-, hrest⟩
        obtain ⟨s', hs', hc'⟩ := hpos hrest
        exact ⟨s', run_cons.mpr ⟨s₁, hs₁, hs'⟩, hc'⟩
      · intro hnot
        rw [List.foldlM_cons, hs₁]
        exact hneg fun hrest => hnot ⟨hmapped, hrest⟩
    · refine ⟨fun hc => absurd hc.1 hmapped, fun _ => ?_⟩
      push Not at hmapped
      obtain ⟨w, hw, hout⟩ := hmapped
      rw [List.foldlM_cons, loadSegment_eq_none h hroot (hend phdr hphdr) (hlow phdr hphdr)
        (by omega) hw hout]
      rfl

/-- The bytes of a segment are on pages that are mapped in the end. -/
theorem ClearsMapped.mem (h : ClearsMapped pages segments) (hphdr : phdr ∈ segments)
    (hw : phdr.Clears w) : pageNumber w ∈ segments.foldl pagesAfter pages := by
  induction segments generalizing pages with
  | nil => cases hphdr
  | cons q segments ih =>
    rcases List.mem_cons.mp hphdr with rfl | hphdr
    · exact subset_foldl_pagesAfter segments (h.1 w hw)
    · exact ih h.2 hphdr

/-- What later segments make of a byte that is none of theirs. -/
theorem foldl_bytesAfter (hle : ∀ phdr ∈ segments, phdr.pFilesz ≤ phdr.pMemsz)
    (hout : ∀ phdr ∈ segments, ¬phdr.Covers w) : segments.foldl (bytesAfter file) c w =
      if ∃ phdr ∈ segments, phdr.Zeroes w then 0 else c w := by
  induction segments generalizing c with
  | nil => simp
  | cons phdr segments ih =>
    have hfile : ¬(phdr.pVaddr ≤ w ∧ w < phdr.pVaddr + phdr.pFilesz) := by
      rintro ⟨h1, h2⟩
      have := hle phdr List.mem_cons_self
      exact hout phdr List.mem_cons_self ⟨h1, by omega⟩
    rw [List.foldl_cons, ih (fun p hp => hle p (List.mem_cons_of_mem _ hp))
      fun p hp => hout p (List.mem_cons_of_mem _ hp), bytesAfter, if_neg hfile]
    rw [← ite_or]
    refine if_congr ?_ rfl rfl
    rw [List.exists_mem_cons_iff, or_comm]

/-- **The segments read as the file says** exactly when none of them makes bytes of an earlier one
zero that are not. -/
theorem foldl_bytesAfter_iff (hle : ∀ phdr ∈ segments, phdr.pFilesz ≤ phdr.pMemsz)
    (hdisj : segments.Pairwise fun phdr phdr' => ∀ w, phdr.Covers w → ¬phdr'.Covers w) :
    (∀ phdr ∈ segments, ∀ i < phdr.pMemsz,
      segments.foldl (bytesAfter file) c (phdr.pVaddr + i) = segmentByte file phdr i) ↔
    KeepsBytes file segments := by
  induction segments generalizing c with
  | nil => simp [KeepsBytes]
  | cons phdr segments ih =>
    have hle' : ∀ p ∈ segments, p.pFilesz ≤ p.pMemsz :=
      fun p hp => hle p (List.mem_cons_of_mem _ hp)
    obtain ⟨hout, hdisj⟩ := List.pairwise_cons.mp hdisj
    have hfirst : ∀ i < phdr.pMemsz,
        (phdr :: segments).foldl (bytesAfter file) c (phdr.pVaddr + i) =
          if ∃ q ∈ segments, q.Zeroes (phdr.pVaddr + i) then 0 else segmentByte file phdr i := by
      intro i hi
      rw [List.foldl_cons, foldl_bytesAfter hle' fun q hq =>
        hout q hq _ ⟨by omega, by omega⟩, bytesAfter_self hi]
    rw [KeepsBytes, List.pairwise_cons, List.forall_mem_cons]
    refine and_congr ?_ (ih hle' hdisj)
    constructor
    · intro h q hq i hi hz
      have := h i hi
      rw [hfirst i hi, if_pos ⟨q, hq, hz⟩] at this
      exact this.symm
    · intro h i hi
      rw [hfirst i hi]
      split
      next hz =>
        obtain ⟨q, hq, hz⟩ := hz
        exact (h q hq i hi hz).symm
      next => rfl

/-- **When `load_elf` builds the image of a file**: the memory it clears is mapped, and no segment
makes bytes of an earlier one zero that are not. -/
theorem image_iff (h : Spaces roots K s.phys) (hroot : root ∈ roots)
    (hown : OwnFrames s.phys.mem (4096 * root)) (hfile : Loadable (ptLoad file))
    (hfree : 4 * ((ptLoad file).flatMap loadAddresses).length ≤
      (freeFrames s.phys.regions).length) :
    Image file (4096 * root) s ↔
      ClearsMapped (mappedPages s.phys.mem (4096 * root)) (ptLoad file) ∧
        KeepsBytes file (ptLoad file) := by
  obtain ⟨hpos, hneg⟩ := loadSegments_contents file (h.contents hroot hown) hroot
    hfile.filesz_le (fun p hp => (hfile.lower p hp).2) hfile.addresses_lower hfree
  have hbytes : ∀ {s' : State}, ClearsMapped (mappedPages s.phys.mem (4096 * root)) (ptLoad file) →
      (ptLoad file).foldlM (loadSegment file (4096 * root)) s = some s' →
      ((∀ phdr ∈ ptLoad file, ∀ i < phdr.pMemsz,
        loadByte s'.phys.mem (4096 * root) (phdr.pVaddr + i) = some (segmentByte file phdr i)) ↔
      KeepsBytes file (ptLoad file)) := by
    intro s' hmapped hs'
    obtain ⟨s'', hs'', hc⟩ := hpos hmapped
    obtain rfl := Option.some.inj (hs'.symm.trans hs'')
    rw [← foldl_bytesAfter_iff hfile.filesz_le hfile.disjoint]
    refine forall₂_congr fun phdr hphdr => forall₂_congr fun i hi => ?_
    have hend := (hfile.lower phdr hphdr).2
    rw [hc.content (phdr.pVaddr + i) (by omega) (hmapped.mem hphdr ⟨by omega, by omega⟩),
      Option.some_inj]
  constructor
  · rintro ⟨s', hs', hread⟩
    obtain ⟨s'', hs'', heq⟩ := Option.map_eq_some_iff.mp hs'
    obtain ⟨-, rfl⟩ := Prod.mk.inj heq
    have hmapped : ClearsMapped (mappedPages s.phys.mem (4096 * root)) (ptLoad file) := by
      by_contra hnot
      rw [hneg hnot] at hs''
      cases hs''
    exact ⟨hmapped, (hbytes hmapped hs'').mp hread⟩
  · rintro ⟨hmapped, hkeeps⟩
    obtain ⟨s', hs', -⟩ := hpos hmapped
    exact ⟨s', by rw [loadElf, hs', Option.map_some], (hbytes hmapped hs').mpr hkeeps⟩

/-! ### The address spaces -/

/-- **What loading a segment does**: its pages are mapped, and pages are written. -/
theorem loadSegment_cases (h : Spaces roots K s.phys) (hroot : root ∈ roots)
    (hv : phdr.pVaddr < 2 ^ 47) (hend : phdr.pVaddr + phdr.pMemsz ≤ 2 ^ 47)
    (hlow : ∀ v ∈ loadAddresses phdr, v < 2 ^ 47)
    (hfree : 4 * (loadAddresses phdr).length ≤ (freeFrames s.phys.regions).length)
    (hs : loadSegment file (4096 * root) s phdr = some s') :
    ∃ s₁ m, (loadAddresses phdr).foldlM (mapNext (4096 * root) 0b111 0b111) s = some s₁ ∧
      PagesMapped roots K root 0b111 (loadAddresses phdr) s.phys s₁.phys ∧
      Stores roots K s₁.phys m ∧ s' = { s₁ with phys := { s₁.phys with mem := m } } := by
  obtain ⟨⟨err, s₁⟩, hs₁, hs⟩ := Option.bind_eq_some_iff.mp hs
  obtain ⟨m₂, hm₂, hs⟩ := Option.bind_eq_some_iff.mp hs
  obtain ⟨m₃, hm₃, hs⟩ := Option.bind_eq_some_iff.mp hs
  obtain ⟨m₄, hm₄, rfl⟩ := Option.map_eq_some_iff.mp hs
  have hall : (loadAddresses phdr).foldlM (mapNext (4096 * root) 0b111 0b111) s = some s₁ := by
    rw [mapRange] at hs₁
    split_ifs at hs₁ with hzero
    · obtain ⟨-, rfl⟩ := Prod.mk.inj (Option.some.inj hs₁)
      rw [loadAddresses, mapRangeAddresses, if_pos hzero]
      rfl
    · obtain ⟨s₁', hall, heq⟩ := Option.map_eq_some_iff.mp hs₁
      obtain ⟨-, rfl⟩ := Prod.mk.inj heq
      exact hall
  have hpages := h.mapAll hroot hlow (by decide) hfree hall
  have h₁ := hpages.spaces
  have hst₂ := (h₁.stores_storeBytes hroot (by omega) hm₂).1
  have h₂ := hst₂.spaces h₁
  have hst₃ := (h₂.stores_storeBytes hroot hv hm₃).1
  have h₃ := hst₃.spaces h₂
  refine ⟨s₁, m₄, hall, hpages, ?_, rfl⟩
  split_ifs at hm₄ with hgt
  · rw [Nat.mod_eq_of_lt (by omega)] at hm₄
    exact (hst₂.trans hst₃).trans (h₃.stores_storeBytes hroot (by omega) hm₄).1
  · obtain rfl := Option.some.inj hm₄
    exact hst₂.trans hst₃

/-- **What mapping pages and writing them preserves, `load_elf` preserves.** -/
theorem loadElf_induct {I : State → Prop} {entry : ℕ} (hroot : root ∈ roots)
    (hlower : ∀ phdr ∈ ptLoad file, phdr.pVaddr < 2 ^ 47 ∧ phdr.pVaddr + phdr.pMemsz ≤ 2 ^ 47 ∧
      ∀ v ∈ loadAddresses phdr, v < 2 ^ 47)
    (hfree : 4 * ((ptLoad file).flatMap loadAddresses).length ≤
      (freeFrames s.phys.regions).length)
    (hspaces : ∀ s, I s → Spaces roots K s.phys)
    (hstep : ∀ s s₁ m, ∀ phdr ∈ ptLoad file, I s →
      4 * (loadAddresses phdr).length ≤ (freeFrames s.phys.regions).length →
      (loadAddresses phdr).foldlM (mapNext (4096 * root) 0b111 0b111) s = some s₁ →
      Stores roots K s₁.phys m → I { s₁ with phys := { s₁.phys with mem := m } })
    (h : I s) (hs : loadElf file (4096 * root) s = some (entry, s')) : I s' := by
  obtain ⟨s'', hs'', heq⟩ := Option.map_eq_some_iff.mp hs
  obtain ⟨-, rfl⟩ := Prod.mk.inj heq
  clear hs heq
  generalize ptLoad file = segments at hlower hfree hstep hs''
  induction segments generalizing s with
  | nil =>
    obtain rfl : s = s'' := Option.some.inj hs''
    exact h
  | cons phdr segments ih =>
    rw [List.flatMap_cons, List.length_append] at hfree
    obtain ⟨s₁, hs₁, hrest⟩ := run_cons.mp hs''
    obtain ⟨hv, hend, hlow⟩ := hlower phdr List.mem_cons_self
    obtain ⟨s₂, m, hall, hpages, hstores, rfl⟩ :=
      loadSegment_cases (hspaces s h) hroot hv hend hlow (by omega) hs₁
    have hfree₂ := hpages.free_le
    have h₂ := hstep s s₂ m phdr List.mem_cons_self h (by omega) hall hstores
    exact ih h₂ (fun p hp => hlower p (List.mem_cons_of_mem _ hp))
      (Nat.le_trans (by omega) (Nat.sub_le_iff_le_add'.mpr hfree₂))
      (fun s s₁ m p hp => hstep s s₁ m p (List.mem_cons_of_mem _ hp)) hrest

/-- `load_elf` keeps the address spaces. -/
theorem loadElf_spaces {entry : ℕ} (h : Spaces roots K s.phys) (hroot : root ∈ roots)
    (hlower : ∀ phdr ∈ ptLoad file, phdr.pVaddr < 2 ^ 47 ∧ phdr.pVaddr + phdr.pMemsz ≤ 2 ^ 47 ∧
      ∀ v ∈ loadAddresses phdr, v < 2 ^ 47)
    (hfree : 4 * ((ptLoad file).flatMap loadAddresses).length ≤
      (freeFrames s.phys.regions).length)
    (hs : loadElf file (4096 * root) s = some (entry, s')) : Spaces roots K s'.phys :=
  loadElf_induct (I := fun s => Spaces roots K s.phys) hroot hlower hfree (fun _ h => h)
    (fun _ _ _ phdr hphdr h hfree hall hstores => hstores.spaces
      (h.mapAll hroot (hlower phdr hphdr).2.2 (by decide) hfree hall).spaces) h hs

/-! ### Two files -/

/-- The pages of a segment that is not empty, of up to 2 GiB. -/
theorem mem_loadAddresses (hne : phdr.pMemsz ≠ 0) (hend : phdr.pVaddr + phdr.pMemsz ≤ 2 ^ 47)
    (hsize : phdr.pVaddr % 4096 + phdr.pMemsz ≤ 2 ^ 31) (hw : phdr.Clears w) :
    pageNumber w ∈ (loadAddresses phdr).map pageNumber := by
  obtain ⟨h1, h2⟩ := hw
  have hcount : pageCount phdr.pVaddr phdr.pMemsz =
      (phdr.pVaddr % 4096 + phdr.pMemsz + 4095) / 4096 := rfl
  rw [loadAddresses, mapRangeAddresses_eq hne hend, rangeAddresses_eq (by omega),
    mem_pages_iff (by omega) (by omega)]
  omega

/-- **For such segments the memory that is cleared is mapped.** -/
theorem clearsMapped_of_forall (h : ∀ phdr ∈ segments, phdr.pMemsz ≠ 0 ∧
    phdr.pVaddr + phdr.pMemsz ≤ 2 ^ 47 ∧ phdr.pVaddr % 4096 + phdr.pMemsz ≤ 2 ^ 31) :
    ClearsMapped pages segments := by
  induction segments generalizing pages with
  | nil => exact trivial
  | cons phdr segments ih =>
    obtain ⟨hne, hend, hsize⟩ := h phdr List.mem_cons_self
    exact ⟨fun w hw => Or.inr (mem_loadAddresses hne hend hsize hw),
      ih fun p hp => h p (List.mem_cons_of_mem _ hp)⟩

/-- Two segments of a few bytes on two pages. -/
def apartSegments : List Elf64Phdr := [⟨1, 54, 0x400000, 4, 4⟩, ⟨1, 0, 0x401010, 4, 8⟩]

/-- Two segments of a few bytes on one page. -/
def sharedSegments : List Elf64Phdr := [⟨1, 54, 0x400000, 4, 4⟩, ⟨1, 0, 0x400008, 4, 8⟩]

theorem ptLoad_apartSegments : ptLoad (elfFile 0x400000 apartSegments) = apartSegments := by
  decide +kernel

/-- Two segments, of which the second starts after the end of the first. -/
theorem disjoint_pair {phdr phdr' : Elf64Phdr} (h : phdr.pVaddr + phdr.pMemsz ≤ phdr'.pVaddr) :
    [phdr, phdr'].Pairwise fun phdr phdr' => ∀ w, phdr.Covers w → ¬phdr'.Covers w := by
  refine List.pairwise_pair.mpr ?_
  rintro w ⟨-, hend⟩ ⟨hstart, -⟩
  omega

/-- The file with segments on two pages is loaded. -/
theorem image_iff_apart : Image (elfFile 0x400000 apartSegments) (4096 * 0) clearedState := by
  have hfile : Loadable apartSegments :=
    ⟨by decide, by decide, by decide, disjoint_pair (by decide)⟩
  refine (image_iff spaces_clearedState (Set.mem_singleton 0) ?_ (ptLoad_apartSegments ▸ hfile)
    ?_).mpr ⟨?_, ?_⟩
  · intro w _ w' _ a a' ha
    cases mmuTranslate_cleared.symm.trans ha
  · rw [ptLoad_apartSegments]
    decide +kernel
  · rw [ptLoad_apartSegments]
    exact clearsMapped_of_forall (by decide)
  · rw [ptLoad_apartSegments]
    decide +kernel

/-- **The bytes of the first segment are gone** when the second one is on its page: it begins with
a byte `0x38` of the file, and reads as zero. -/
theorem not_image_shared :
    Loadable (ptLoad (elfFile 0x400000 sharedSegments)) ∧
      (∃ s', loadElf (elfFile 0x400000 sharedSegments) (4096 * 0) clearedState =
        some (0x400000, s') ∧ loadByte s'.phys.mem (4096 * 0) 0x400000 = some 0) ∧
      segmentByte (elfFile 0x400000 sharedSegments) ⟨1, 54, 0x400000, 4, 4⟩ 0 = 0x38 ∧
      ¬Image (elfFile 0x400000 sharedSegments) (4096 * 0) clearedState := by
  have hload : ptLoad (elfFile 0x400000 sharedSegments) = sharedSegments := by decide +kernel
  have hfile : Loadable sharedSegments :=
    ⟨by decide, by decide, by decide, disjoint_pair (by decide)⟩
  have hbyte : segmentByte (elfFile 0x400000 sharedSegments) ⟨1, 54, 0x400000, 4, 4⟩ 0 = 0x38 := by
    decide +kernel
  have hrun : ((loadElf (elfFile 0x400000 sharedSegments) (4096 * 0) clearedState).map fun r =>
      (r.1, loadByte r.2.phys.mem (4096 * 0) 0x400000)) = some (0x400000, some 0) := by
    decide +kernel
  obtain ⟨⟨entry, s'⟩, hs', heq⟩ := Option.map_eq_some_iff.mp hrun
  obtain ⟨rfl, hread⟩ := Prod.mk.inj heq
  refine ⟨hload ▸ hfile, ⟨s', hs', hread⟩, hbyte, ?_⟩
  rintro ⟨s'', hs'', himage⟩
  obtain ⟨-, rfl⟩ := Prod.mk.inj (Option.some.inj (hs'.symm.trans hs''))
  have := himage ⟨1, 54, 0x400000, 4, 4⟩ (by rw [hload]; decide) 0 (by decide)
  rw [hbyte] at this
  cases hread.symm.trans this

end Loader

end WillowOS
