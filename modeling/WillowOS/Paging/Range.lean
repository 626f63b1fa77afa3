import WillowOS.Paging.Basic

/-!
# Ranges of pages

`map_range` maps the pages of a range one by one, each at the address of the range plus a
multiple of the page size. The multiple is computed in an `int`: it wraps around at 2³¹ and
is then extended to 64 bits with its sign, so from the page 2 GiB after the first one on, the
addresses are *below* the range. The counter of the loop is an `int` as well and compared with
a `uint64_t`, which ends the loop after 2³¹ turns at the latest.

For ranges of up to 2 GiB the addresses are those of consecutive pages
(`WillowOS.Paging.rangeAddresses_eq`).
-/

namespace WillowOS

namespace Paging

/-- `i*PAGE_SIZE_DEFINED` for an `int` `i`, as it is added to an address. -/
def intOffset (i : ℕ) : ℕ :=
  if i * 4096 % 2 ^ 32 < 2 ^ 31 then i * 4096 % 2 ^ 32
  else i * 4096 % 2 ^ 32 + (2 ^ 64 - 2 ^ 32)

/-- The addresses of the loops of `map_range`, over `n` pages. -/
def rangeAddresses (virtAddress n : ℕ) : List ℕ :=
  (List.range (min n (2 ^ 31))).map fun i => (virtAddress + intOffset i) % 2 ^ 64

/-- The addresses `map_range` maps, in order. -/
def mapRangeAddresses (virtAddress size : ℕ) : List ℕ :=
  if size = 0 then []
  else
    let size := (size + virtAddress % 4096) % 2 ^ 64
    if size ≤ 4096 then [virtAddress]
    else if size % 4096 = 0 then rangeAddresses virtAddress (size / 4096)
    else rangeAddresses virtAddress (size / 4096 + 1)

/-! ### Unmapping and changing a page -/

/-- The page table the walk of an address ends in, made without looking at the present bits,
and the tables it passes on the way. -/
def walkTables (m : Mem) (pml4Address virtAddress : ℕ) : ℕ × ℕ × ℕ :=
  let pdpt := maskFlags (readEntry m pml4Address (pml4Index virtAddress))
  let pd := maskFlags (readEntry m pdpt (pdptIndex virtAddress))
  let pt := maskFlags (readEntry m pd (pdIndex virtAddress))
  (pdpt, pd, pt)

/-- The part of `unmap_page` that writes the tables. -/
def unmapTables (m : Mem) (pml4Address virtAddress : ℕ) : Mem :=
  writeEntry m (walkTables m pml4Address virtAddress).2.2 (ptIndex virtAddress) 0

/-- The bookkeeping of `unmap_page`: the first record of the address, used or not, is
cleared. -/
def clearMapping (mp : ThreadMappings) (virtAddress : ℕ) : ThreadMappings :=
  match (List.range mp.maxMappings).find? fun i =>
      decide ((mp.mappedVirtAddressesArray i).virtAddress = virtAddress) with
  | none => mp
  | some i =>
    { mp with
      mappedVirtAddressesArray := Function.update mp.mappedVirtAddressesArray i ⟨0, 0, false⟩
      numMappings := (mp.numMappings + 2 ^ 64 - 1) % 2 ^ 64 }

/-- `unmap_page`. -/
def unmapPage (s : State) (pml4Address virtAddress : ℕ) : State where
  phys := { s.phys with mem := unmapTables s.phys.mem pml4Address virtAddress }
  schedulingStarted := s.schedulingStarted
  mappings := if s.schedulingStarted then clearMapping s.mappings virtAddress else s.mappings

/-- One of the steps of `change_page_map`: permissions are added to an entry. -/
def addPermissions (m : Mem) (table : ℕ) (i : Fin 512) (permissions : ℕ) : ℕ × Mem :=
  let entry := readEntry m table i ||| permissions
  (entry, writeEntry m table i entry)

/-- `change_page_map`: permissions are added to the entries of all four levels. -/
def changePageMap (m : Mem) (cr3 virtAddress permissions : ℕ) : Mem :=
  let e₄ := addPermissions m cr3 (pml4Index virtAddress) permissions
  let e₃ := addPermissions e₄.2 (maskFlags e₄.1) (pdptIndex virtAddress) permissions
  let e₂ := addPermissions e₃.2 (maskFlags e₃.1) (pdIndex virtAddress) permissions
  (addPermissions e₂.2 (maskFlags e₂.1) (ptIndex virtAddress) permissions).2

/-! ### Consecutive pages -/

/-- The addresses of `n` consecutive pages, 64 bits each. -/
def pagesFrom (virtAddress n : ℕ) : List ℕ :=
  (List.range n).map fun i => (virtAddress + 4096 * i) % 2 ^ 64

variable {v n k p : ℕ}

theorem intOffset_of_lt {i : ℕ} (h : i < 2 ^ 19) : intOffset i = 4096 * i := by
  rw [intOffset, if_pos (by omega)]
  omega

/-- **Up to 2 GiB, the addresses are those of consecutive pages.** -/
theorem rangeAddresses_eq (hn : n ≤ 2 ^ 19) : rangeAddresses v n = pagesFrom v n := by
  rw [rangeAddresses, pagesFrom, Nat.min_eq_left (by omega)]
  refine List.map_congr_left fun i hi => ?_
  rw [intOffset_of_lt (lt_of_lt_of_le (List.mem_range.mp hi) hn)]

theorem pagesFrom_one (hv : v < 2 ^ 64) : pagesFrom v 1 = [v] := by
  show [(v + 4096 * 0) % 2 ^ 64] = [v]
  rw [Nat.mul_zero, Nat.add_zero, Nat.mod_eq_of_lt hv]

/-- The number of a page some pages further on. -/
theorem pageNumber_add {i : ℕ} :
    pageNumber ((v + 4096 * i) % 2 ^ 64) = (v / 4096 + i) % 2 ^ 36 := by
  rw [pageNumber]
  omega

/-- The pages there are. -/
theorem mem_pageNumber_pagesFrom :
    p ∈ (pagesFrom v n).map pageNumber ↔ ∃ i < n, p = (v / 4096 + i) % 2 ^ 36 := by
  simp only [pagesFrom, List.map_map, List.mem_map, List.mem_range, Function.comp_apply,
    pageNumber_add, eq_comm]

/-- As long as there are no more than an address space has, the pages are different ones. -/
theorem nodup_pageNumber_pagesFrom (hn : n ≤ 2 ^ 36) :
    ((pagesFrom v n).map pageNumber).Nodup := by
  rw [pagesFrom, List.map_map]
  refine List.Nodup.map_on (fun i hi j hj hij => ?_) List.nodup_range
  have hi := List.mem_range.mp hi
  have hj := List.mem_range.mp hj
  simp only [Function.comp_apply, pageNumber_add] at hij
  omega

end Paging

end WillowOS
