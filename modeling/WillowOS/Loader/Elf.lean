import WillowOS.Lib.Memory
import WillowOS.Paging.Range

/-!
# ELF files, and the pages of their segments

`load_elf` has the pages of a segment mapped by `map_range`, which adds the offset of the
segment in its first page to its size and rounds up. `unload_elf` computes the pages once
more, from the size alone: one for a segment of less than a page, the whole pages for one
whose size is a multiple of the page size, and one more than these otherwise. Only the last
two counts take the offset into account, and none rounds up.

So the pages released are those that were mapped exactly when the two counts agree:
**`WillowOS.Loader.releasesMapped_iff`**. They differ for a short segment that crosses a page
boundary, for whole pages that do not begin at one, for other segments that end at one, for
empty segments, and beyond 2 GiB.

The file is a memory of its own, addressed from its first byte on.
-/

namespace WillowOS

namespace Loader

open Paging

/-! ### The headers -/

/-- The fields of an `Elf64_Ehdr` that are read. -/
structure Elf64Ehdr where
  eEntry : ℕ
  ePhoff : ℕ
  ePhentsize : ℕ
  ePhnum : ℕ

/-- The fields of an `Elf64_Phdr` that are read. -/
structure Elf64Phdr where
  pType : ℕ
  pOffset : ℕ
  pVaddr : ℕ
  pFilesz : ℕ
  pMemsz : ℕ
deriving DecidableEq

def readEhdr (file : Mem) : Elf64Ehdr :=
  ⟨file.readLE 24 8, file.readLE 32 8, file.readLE 54 2, file.readLE 56 2⟩

/-- The program header at an offset of the file. -/
def readPhdr (file : Mem) (a : ℕ) : Elf64Phdr :=
  ⟨file.readLE a 4, file.readLE (a + 8) 8, file.readLE (a + 16) 8, file.readLE (a + 32) 8,
    file.readLE (a + 40) 8⟩

/-- The program headers, in order. -/
def phdrs (file : Mem) : List Elf64Phdr :=
  let ehdr := readEhdr file
  (List.range ehdr.ePhnum).map fun i => readPhdr file ((ehdr.ePhoff + i * ehdr.ePhentsize) % 2 ^ 64)

/-- The segments both functions look at: those of type `PT_LOAD`. -/
def ptLoad (file : Mem) : List Elf64Phdr := (phdrs file).filter fun phdr => phdr.pType = 1

/-- The addresses `unload_elf` passes to `free_frame`, translated, and to `unmap_page` for a
segment, in order. -/
def unloadAddresses (phdr : Elf64Phdr) : List ℕ :=
  let pages := (phdr.pVaddr % 4096 + phdr.pMemsz) % 2 ^ 64 / 4096
  if phdr.pMemsz < 4096 then [phdr.pVaddr]
  else if phdr.pMemsz % 4096 = 0 then
    phdr.pVaddr :: (List.range ((pages + 2 ^ 64 - 1) % 2 ^ 64)).map fun j =>
      (phdr.pVaddr + 4096 * (j + 1)) % 2 ^ 64
  else if phdr.pMemsz % 4096 ≠ 0 ∧ phdr.pMemsz > 4096 then
    phdr.pVaddr :: (List.range' 1 pages).map fun j => (phdr.pVaddr + 4096 * j) % 2 ^ 64
  else []

/-- The addresses `load_elf` maps for a segment. -/
def loadAddresses (phdr : Elf64Phdr) : List ℕ := mapRangeAddresses phdr.pVaddr phdr.pMemsz

/-- **The pages released are the pages mapped**, each of them once. -/
def ReleasesMapped (phdr : Elf64Phdr) : Prop :=
  ((unloadAddresses phdr).map pageNumber).Nodup ∧
    ∀ p, p ∈ (unloadAddresses phdr).map pageNumber ↔ p ∈ (loadAddresses phdr).map pageNumber

/-- When the two functions count the same pages: the segment has a size, of up to 2 GiB from
the start of its first page on; and it is inside a page, or made of whole pages, or longer
than a page with no boundary at either end of its last page. (A size that wraps around with
the offset leaves one page to both.) -/
def CountsAgree (phdr : Elf64Phdr) : Prop :=
  phdr.pMemsz ≠ 0 ∧ (phdr.pVaddr % 4096 + phdr.pMemsz) % 2 ^ 64 ≤ 2 ^ 31 ∧
    (phdr.pMemsz < 4096 ∧ phdr.pVaddr % 4096 + phdr.pMemsz ≤ 4096 ∨
      phdr.pMemsz % 4096 = 0 ∧ phdr.pVaddr % 4096 = 0 ∨
      4096 < phdr.pMemsz ∧ phdr.pMemsz % 4096 ≠ 0 ∧ (phdr.pVaddr + phdr.pMemsz) % 4096 ≠ 0 ∨
      2 ^ 64 ≤ phdr.pVaddr % 4096 + phdr.pMemsz)

instance (phdr : Elf64Phdr) : Decidable (CountsAgree phdr) := inferInstanceAs (Decidable (_ ∧ _))

/-! ### Both as consecutive pages -/

variable {phdr : Elf64Phdr}

/-- How many pages `unload_elf` releases. -/
def unloadCount (phdr : Elf64Phdr) : ℕ :=
  if phdr.pMemsz < 4096 then 1
  else if phdr.pMemsz % 4096 = 0 then (phdr.pVaddr % 4096 + phdr.pMemsz) % 2 ^ 64 / 4096
  else if phdr.pMemsz > 4096 then (phdr.pVaddr % 4096 + phdr.pMemsz) % 2 ^ 64 / 4096 + 1
  else 0

/-- A first page and those after it. -/
theorem pagesFrom_succ {v n : ℕ} (hv : v < 2 ^ 64) :
    pagesFrom v (n + 1) = v :: (List.range n).map fun j => (v + 4096 * (j + 1)) % 2 ^ 64 := by
  rw [pagesFrom, List.range_succ_eq_map, List.map_cons, List.map_map, Nat.mul_zero, Nat.add_zero,
    Nat.mod_eq_of_lt hv]
  rfl

theorem unloadAddresses_eq (hv : phdr.pVaddr < 2 ^ 64) (hm : phdr.pMemsz < 2 ^ 64) :
    unloadAddresses phdr = pagesFrom phdr.pVaddr (unloadCount phdr) := by
  rw [unloadAddresses, unloadCount]
  split_ifs with h1 h2 h3 h4 h5
  · exact (pagesFrom_one hv).symm
  · -- the offset of a segment of whole pages does not wrap its size around
    rw [← pagesFrom_succ hv]
    congr 1
    omega
  · rw [List.range'_eq_map_range, List.map_map, pagesFrom_succ hv]
    refine congrArg _ (List.map_congr_left fun j _ => ?_)
    rw [Function.comp_apply, Nat.add_comm 1 j]
  · omega
  · omega
  · rfl

/-- How many pages `map_range` maps, up to 2 GiB. -/
def loadCount (phdr : Elf64Phdr) : ℕ :=
  let size := (phdr.pMemsz + phdr.pVaddr % 4096) % 2 ^ 64
  if phdr.pMemsz = 0 then 0
  else if size ≤ 4096 then 1
  else if size % 4096 = 0 then size / 4096
  else size / 4096 + 1

theorem loadAddresses_eq (hv : phdr.pVaddr < 2 ^ 64)
    (hsize : (phdr.pMemsz + phdr.pVaddr % 4096) % 2 ^ 64 ≤ 2 ^ 31) :
    loadAddresses phdr = pagesFrom phdr.pVaddr (loadCount phdr) := by
  rw [loadAddresses, mapRangeAddresses, loadCount]
  simp only
  split_ifs with h1 h2 h3
  · rfl
  · exact (pagesFrom_one hv).symm
  · exact rangeAddresses_eq (by omega)
  · exact rangeAddresses_eq (by omega)

/-- Two runs of pages from one address are the same pages when they have one length. -/
theorem pagesFrom_inj {v n k : ℕ} (hn : n < 2 ^ 36) (hk : k < 2 ^ 36)
    (h : ∀ p, p ∈ (pagesFrom v n).map pageNumber ↔ p ∈ (pagesFrom v k).map pageNumber) :
    n = k := by
  -- the page after the shorter run is one of the longer run only
  have hle : ∀ {n k : ℕ}, n < 2 ^ 36 → k < 2 ^ 36 → (∀ p, p ∈ (pagesFrom v n).map pageNumber →
      p ∈ (pagesFrom v k).map pageNumber) → n ≤ k := by
    intro n k hn hk h
    by_contra hlt
    obtain ⟨i, hi, he⟩ := mem_pageNumber_pagesFrom.mp
      (h _ (mem_pageNumber_pagesFrom.mpr ⟨k, by omega, rfl⟩))
    omega
  exact le_antisymm (hle hn hk fun p => (h p).mp) (hle hk hn fun p => (h p).mpr)

/-! ### Beyond 2 GiB -/

/-- The offsets of `map_range` are those of the 2¹⁹ pages on either side. -/
theorem intOffset_cases (i : ℕ) : ∃ d, (d < 2 ^ 19 ∨ 2 ^ 52 - 2 ^ 19 ≤ d ∧ d < 2 ^ 52) ∧
    intOffset i = 4096 * d := by
  rw [intOffset]
  split_ifs with h
  · exact ⟨i % 2 ^ 20, by omega, by omega⟩
  · exact ⟨i % 2 ^ 20 + (2 ^ 52 - 2 ^ 20), by omega, by omega⟩

/-- **Beyond 2 GiB other pages are mapped than released.** -/
theorem not_releasesMapped_of_lt (hv : phdr.pVaddr < 2 ^ 64) (hm : phdr.pMemsz < 2 ^ 64)
    (hsize : 2 ^ 31 < (phdr.pMemsz + phdr.pVaddr % 4096) % 2 ^ 64) : ¬ReleasesMapped phdr := by
  rintro ⟨-, h⟩
  rw [unloadAddresses_eq hv hm] at h
  have hload : ∃ n, 2 ^ 19 < n ∧ loadAddresses phdr = rangeAddresses phdr.pVaddr n := by
    rw [loadAddresses, mapRangeAddresses, if_neg (by omega)]
    simp only
    rw [if_neg (by omega)]
    split_ifs with h1
    · exact ⟨_, by omega, rfl⟩
    · exact ⟨_, by omega, rfl⟩
  obtain ⟨n, hn, hload⟩ := hload
  rw [hload] at h
  have hcount : 2 ^ 19 ≤ unloadCount phdr := by
    rw [unloadCount]
    split_ifs <;> omega
  rcases hcount.eq_or_lt with heq | hlt
  · -- the page 2 GiB before the first one is mapped
    have hmem : (phdr.pVaddr / 4096 + (2 ^ 52 - 2 ^ 19)) % 2 ^ 36 ∈
        (rangeAddresses phdr.pVaddr n).map pageNumber := by
      refine List.mem_map.mpr ⟨_, List.mem_map.mpr ⟨2 ^ 19, List.mem_range.mpr (by omega), rfl⟩, ?_⟩
      rw [show intOffset (2 ^ 19) = 4096 * (2 ^ 52 - 2 ^ 19) by decide, pageNumber_add]
    obtain ⟨i, hi, he⟩ := mem_pageNumber_pagesFrom.mp ((h _).mpr hmem)
    omega
  · -- the page 2 GiB after the first one is released
    have hmem := (h _).mp (mem_pageNumber_pagesFrom.mpr ⟨2 ^ 19, hlt, rfl⟩)
    obtain ⟨a, ha, he⟩ := List.mem_map.mp hmem
    obtain ⟨i, -, rfl⟩ := List.mem_map.mp ha
    obtain ⟨d, hd, hi⟩ := intOffset_cases i
    rw [hi, pageNumber_add] at he
    omega

/-! ### The two functions compared -/

theorem lt_of_mem_ptLoad {file : Mem} (h : phdr ∈ ptLoad file) :
    phdr.pVaddr < 2 ^ 64 ∧ phdr.pMemsz < 2 ^ 64 := by
  obtain ⟨i, -, rfl⟩ := List.mem_map.mp (List.mem_filter.mp h).1
  exact ⟨Mem.readLE_lt, Mem.readLE_lt⟩

/-- **When `unload_elf` releases what `load_elf` mapped**, for a segment of any file. -/
theorem releasesMapped_iff (file : Mem) (phdr : Elf64Phdr) (h : phdr ∈ ptLoad file) :
    ReleasesMapped phdr ↔ CountsAgree phdr := by
  obtain ⟨hv, hm⟩ := lt_of_mem_ptLoad h
  rcases lt_or_ge (2 ^ 31) ((phdr.pMemsz + phdr.pVaddr % 4096) % 2 ^ 64) with hsize | hsize
  · refine iff_of_false (not_releasesMapped_of_lt hv hm hsize) ?_
    rintro ⟨-, hle, -⟩
    omega
  · have hunload : unloadCount phdr < 2 ^ 36 := by
      rw [unloadCount]
      split_ifs <;> omega
    have hload : loadCount phdr < 2 ^ 36 := by
      rw [loadCount]
      split_ifs <;> omega
    have hcounts : ReleasesMapped phdr ↔ unloadCount phdr = loadCount phdr := by
      rw [ReleasesMapped, unloadAddresses_eq hv hm, loadAddresses_eq hv hsize]
      refine ⟨fun hs => pagesFrom_inj hunload hload hs.2, fun he => ?_⟩
      rw [he]
      exact ⟨nodup_pageNumber_pagesFrom hload.le, fun _ => Iff.rfl⟩
    rw [hcounts, unloadCount, loadCount, CountsAgree]
    by_cases hzero : phdr.pMemsz = 0
    · rw [if_pos (by omega), if_pos hzero]
      exact iff_of_false (by decide) fun hc => hc.1 hzero
    · rw [if_neg hzero]
      split_ifs <;> omega

/-! ### Files -/

/-- A file with these program headers, and nothing after them. -/
def elfFile (entry : ℕ) (phdrs : List Elf64Phdr) : Mem :=
  let file : Mem := fun _ => 0
  let ehdr :=
    (((file.writeLE 24 8 entry).writeLE 32 8 64).writeLE 54 2 56).writeLE 56 2 phdrs.length
  (phdrs.zipIdx.foldl fun file p =>
    let a := 64 + 56 * p.2
    ((((file.writeLE a 4 p.1.pType).writeLE (a + 8) 8 p.1.pOffset).writeLE (a + 16) 8
      p.1.pVaddr).writeLE (a + 32) 8 p.1.pFilesz).writeLE (a + 40) 8 p.1.pMemsz) ehdr

/-- A segment of 32 bytes that crosses a page boundary. -/
def crossingSegment : Elf64Phdr := ⟨1, 0, 0x400ff0, 32, 32⟩

/-- **Half of a segment is not released**: two pages are mapped for it, and one is
released. -/
theorem not_releasesMapped_crossingSegment :
    crossingSegment ∈ ptLoad (elfFile 0x400ff0 [crossingSegment]) ∧
      (loadAddresses crossingSegment).map pageNumber = [0x400, 0x401] ∧
      (unloadAddresses crossingSegment).map pageNumber = [0x400] ∧
      ¬ReleasesMapped crossingSegment := by
  have hload : (loadAddresses crossingSegment).map pageNumber = [0x400, 0x401] := by decide +kernel
  have hunload : (unloadAddresses crossingSegment).map pageNumber = [0x400] := by decide +kernel
  refine ⟨by decide +kernel, hload, hunload, fun h => ?_⟩
  have := (h.2 0x401).mpr (hload ▸ by decide)
  rw [hunload] at this
  exact absurd this (by decide)

/-- A segment of a page and a half. -/
theorem releasesMapped_iff_pageAndHalf :
    ReleasesMapped ⟨1, 0, 0x400000, 0x1800, 0x1800⟩ :=
  (releasesMapped_iff (elfFile 0x400000 [⟨1, 0, 0x400000, 0x1800, 0x1800⟩]) _
    (by decide +kernel)).mpr (by decide)

end Loader

end WillowOS
