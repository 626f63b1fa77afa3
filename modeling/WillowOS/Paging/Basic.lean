import WillowOS.Frames.Run
import WillowOS.Lib.Walk
import Mathlib.Data.Fin.Basic

/-!
# Page tables

The four levels of tables `map_page` fills and `virt_to_phys` reads. The kernel reaches
a table through the direct map: it masks the low 12 bits of an entry off, adds
`hhdm_offset` and reads the word there. The two translations cancel, so a table is
addressed here by its physical address.

`map_page` also records the page in the mappings of the current thread once scheduling
has started; that array is grown by eight entries when the count of mappings reaches
its size.
-/

namespace WillowOS

namespace Paging

open Frames

/-! ### Indices and entries -/

/-- Nine bits of a virtual address: those that select an entry, `level` levels above
the page tables. -/
def tableIndex (level virtAddress : ℕ) : Fin 512 :=
  ⟨virtAddress / 2 ^ (12 + 9 * level) % 512, Nat.mod_lt _ (by decide)⟩

/-- `(virt_address >> 39) & 0x1FF`. -/
def pml4Index (virtAddress : ℕ) : Fin 512 := tableIndex 3 virtAddress

/-- `(virt_address >> 30) & 0x1FF`. -/
def pdptIndex (virtAddress : ℕ) : Fin 512 := tableIndex 2 virtAddress

/-- `(virt_address >> 21) & 0x1FF`. -/
def pdIndex (virtAddress : ℕ) : Fin 512 := tableIndex 1 virtAddress

/-- `(virt_address >> 12) & 0x1FF`. -/
def ptIndex (virtAddress : ℕ) : Fin 512 := tableIndex 0 virtAddress

/-- `entries[i]` of the table at `table`. -/
def readEntry (m : Mem) (table : ℕ) (i : Fin 512) : ℕ := m.read64 (table + 8 * i)

/-- `entries[i] = v` for the table at `table`. -/
def writeEntry (m : Mem) (table : ℕ) (i : Fin 512) (v : ℕ) : Mem := m.write64 (table + 8 * i) v

/-- `entry & ~0xfff`: the mask is the `int` `-4096`, extended to 64 bits. -/
def maskFlags (entry : ℕ) : ℕ := entry / 4096 * 4096

/-- `entry & 1`. -/
def Present (entry : ℕ) : Prop := entry % 2 = 1

instance (entry : ℕ) : Decidable (Present entry) := inferInstanceAs (Decidable (_ = _))

/-! ### The mappings of a thread -/

/-- A `mapped_virt_addresses_t`. -/
structure MappedVirtAddress where
  virtAddress : ℕ
  flag : ℕ
  used : Bool

/-- A `thread_mappings_t`. The array is the block `mapped_virt_addresses_array` points
to; `krealloc_byte` keeps its contents. -/
structure ThreadMappings where
  mappedVirtAddressesArray : ℕ → MappedVirtAddress
  numMappings : ℕ
  maxMappings : ℕ

/-- The first loop of the bookkeeping of `map_page`: the address goes into the first
unused entry, and the index is returned; `0` when there is none. -/
def useMapping (mp : ThreadMappings) (virtAddress : ℕ) : ℕ × ThreadMappings :=
  match (List.range mp.maxMappings).find? fun i => !(mp.mappedVirtAddressesArray i).used with
  | none => (0, mp)
  | some i =>
    (i, { mp with
      mappedVirtAddressesArray := Function.update mp.mappedVirtAddressesArray i
        { mp.mappedVirtAddressesArray i with virtAddress := virtAddress, used := true }
      numMappings := (mp.numMappings + 1) % 2 ^ 64 })

/-- The growth of the array of mappings by eight cleared entries. -/
def growMappings (mp : ThreadMappings) : ThreadMappings :=
  if mp.numMappings = mp.maxMappings then
    { mp with
      mappedVirtAddressesArray := fun i =>
        if mp.maxMappings ≤ i ∧ i < mp.maxMappings + 8 then ⟨0, 0, false⟩
        else mp.mappedVirtAddressesArray i
      maxMappings := mp.maxMappings + 8 }
  else mp

/-! ### Mapping a page -/

/-- What `map_page` works on: the physical memory with its allocator,
`scheduling_started`, and the mappings of the current thread. -/
structure State where
  phys : Phys
  schedulingStarted : Bool
  mappings : ThreadMappings

/-- One of the three steps of `map_page` down to the page table: the entry of a table,
made to point to a new frame if it is not present. -/
def ensureEntry (s : Phys) (table : ℕ) (i : Fin 512) (permissions : ℕ) : ℕ × Phys :=
  let entry := readEntry s.mem table i
  if Present entry then (entry, s)
  else
    let p := allocFrame s
    let newEntry := p.1 ||| permissions
    (newEntry, { p.2 with mem := writeEntry p.2.mem table i newEntry })

/-- The tables of `map_page`: the page table of the address, and the memory after the
tables on the way to it were made. -/
def ensureTables (s : Phys) (pml4Address virtAddress permissions : ℕ) : ℕ × Phys :=
  let e₄ := ensureEntry s pml4Address (pml4Index virtAddress) permissions
  let e₃ := ensureEntry e₄.2 (maskFlags e₄.1) (pdptIndex virtAddress) permissions
  let e₂ := ensureEntry e₃.2 (maskFlags e₃.1) (pdIndex virtAddress) permissions
  (maskFlags e₂.1, e₂.2)

/-- The part of `map_page` that writes the tables. -/
def mapTables (s : Phys) (pml4Address physAddress virtAddress permissions : ℕ) : Phys :=
  let pt := ensureTables s pml4Address virtAddress permissions
  { pt.2 with mem := writeEntry pt.2.mem pt.1 (ptIndex virtAddress) (physAddress ||| permissions) }

/-- `map_page`: the value returned (the index of the record, or `UINT64_MAX` before
scheduling has started) and the state after the call. -/
def mapPage (s : State) (pml4Address physAddress virtAddress permissions : ℕ) : ℕ × State :=
  let phys := mapTables s.phys pml4Address physAddress virtAddress permissions
  if s.schedulingStarted then
    let u := useMapping s.mappings virtAddress
    (u.1, { s with phys := phys, mappings := growMappings u.2 })
  else (2 ^ 64 - 1, { s with phys := phys })

/-- `virt_to_phys`: the walk, made without looking at the present bits. -/
def virtToPhys (m : Mem) (virtAddress cr3 : ℕ) : ℕ :=
  let pml4Entry := readEntry m cr3 (pml4Index virtAddress)
  let pdptEntry := readEntry m (maskFlags pml4Entry) (pdptIndex virtAddress)
  let pdEntry := readEntry m (maskFlags pdptEntry) (pdIndex virtAddress)
  let ptEntry := readEntry m (maskFlags pdEntry) (ptIndex virtAddress)
  maskFlags ptEntry + virtAddress % 4096

/-! ### Tables by their frame number -/

/-- Entry `i` of the table in frame `t`. -/
def entry (m : Mem) (t : ℕ) (i : Fin 512) : ℕ := readEntry m (4096 * t) i

/-- The table entry `i` of the table in frame `t` points to, by its frame number. -/
def next (m : Mem) (t : ℕ) (i : Fin 512) : Option ℕ :=
  if Present (entry m t i) then some (entry m t i / 4096) else none

/-- The slots on the way to the page table of an address. -/
def tablePath (w : ℕ) : List (Fin 512) := [pml4Index w, pdptIndex w, pdIndex w]

/-- **The translation of an address by a root**: none unless the entries of all four
levels are present. -/
def translate (m : Mem) (root w : ℕ) : Option ℕ :=
  (walk (next m) root (tablePath w)).bind fun pt =>
    if Present (entry m pt (ptIndex w)) then
      some (maskFlags (entry m pt (ptIndex w)) + w % 4096)
    else none

/-- An entry, if it is present. -/
def ifPresent (entry : ℕ) : Option ℕ := if Present entry then some entry else none

/-- **The entry that maps the page of an address**: that of its page table, if it is
present. -/
def leaf (m : Mem) (root w : ℕ) : Option ℕ :=
  (walk (next m) root (tablePath w)).bind fun pt => ifPresent (entry m pt (ptIndex w))

/-- The number of the page of an address: the 36 bits the walk looks at. -/
def pageNumber (w : ℕ) : ℕ := w / 4096 % 2 ^ 36

variable {m m' : Mem} {t u f root w v : ℕ} {i j : Fin 512}

theorem maskFlags_eq (e : ℕ) : maskFlags e = 4096 * (e / 4096) := Nat.mul_comm _ _

theorem next_eq_some : next m t i = some u ↔ Present (entry m t i) ∧ entry m t i / 4096 = u := by
  rw [next]
  split
  next h => simp [h]
  next h => simp [h]

theorem next_eq_none : next m t i = none ↔ ¬Present (entry m t i) := by
  rw [next]
  split
  next h => simp [h]
  next h => simp [h]

theorem ifPresent_eq_some {e e' : ℕ} : ifPresent e = some e' ↔ Present e ∧ e = e' := by
  rw [ifPresent]
  split
  next h => simp [h]
  next h => simp [h]

/-- The translation of an address is read off its entry. -/
theorem translate_eq_map_leaf :
    translate m root w = (leaf m root w).map fun e => maskFlags e + w % 4096 := by
  rw [translate, leaf, Option.map_bind]
  refine congrArg _ (funext fun pt => ?_)
  rw [Function.comp_apply, ifPresent]
  split <;> rfl

/-- A present translation is what `virt_to_phys` computes. -/
theorem virtToPhys_of_translate {a : ℕ} (h : translate m root w = some a) :
    virtToPhys m w (4096 * root) = a := by
  obtain ⟨pt, hwalk, hleaf⟩ := Option.bind_eq_some_iff.mp h
  rw [tablePath, walk_cons] at hwalk
  obtain ⟨t₃, h₄, hwalk⟩ := Option.bind_eq_some_iff.mp hwalk
  rw [walk_cons] at hwalk
  obtain ⟨t₂, h₃, h₂⟩ := Option.bind_eq_some_iff.mp hwalk
  rw [walk_singleton] at h₂
  obtain ⟨-, rfl⟩ := next_eq_some.mp h₄
  obtain ⟨-, rfl⟩ := next_eq_some.mp h₃
  obtain ⟨-, rfl⟩ := next_eq_some.mp h₂
  split_ifs at hleaf
  rw [virtToPhys]
  simp only [maskFlags_eq] at hleaf ⊢
  exact Option.some.inj hleaf

/-- The page number is what the four indices say. -/
theorem pageNumber_eq (w : ℕ) : pageNumber w =
    512 ^ 3 * pml4Index w + 512 ^ 2 * pdptIndex w + 512 * pdIndex w + ptIndex w := by
  simp only [pageNumber, pml4Index, pdptIndex, pdIndex, ptIndex, tableIndex]
  omega

/-- Two addresses are in one page when their walks agree. -/
theorem pageNumber_eq_iff :
    pageNumber w = pageNumber v ↔ tablePath w = tablePath v ∧ ptIndex w = ptIndex v := by
  rw [pageNumber_eq, pageNumber_eq, tablePath, tablePath]
  simp only [List.cons.injEq, and_true, Fin.ext_iff]
  constructor
  · intro h
    omega
  · rintro ⟨⟨h₄, h₃, h₂⟩, h₁⟩
    rw [h₄, h₃, h₂, h₁]

/-- The entry is that of the page. -/
theorem leaf_of_pageNumber_eq (h : pageNumber w = pageNumber v) :
    leaf m root w = leaf m root v := by
  obtain ⟨hpath, hidx⟩ := pageNumber_eq_iff.mp h
  rw [leaf, leaf, hpath, hidx]

/-! ### Writing an entry and clearing a frame -/

theorem entry_lt : entry m t i < 2 ^ 64 := Mem.read64_lt

/-- An entry depends on the bytes of its frame. -/
theorem entry_congr (h : ∀ x, x / 4096 = t → m' x = m x) : entry m' t i = entry m t i :=
  Mem.readLE_congr fun x h1 h2 => h x (by omega)

/-- **Writing an entry changes that entry and no other**, since tables are aligned. -/
theorem entry_writeEntry {e : ℕ} (he : e < 2 ^ 64) :
    entry (writeEntry m (4096 * t) i e) u j = if u = t ∧ j = i then e else entry m u j := by
  split
  next h =>
    obtain ⟨rfl, rfl⟩ := h
    exact Mem.read64_write64 he
  next h =>
    refine Mem.read64_write64_of_disjoint ?_
    rw [Fin.ext_iff] at h
    omega

/-- **Clearing a frame clears the entries of its table**, and no others. -/
theorem entry_memset :
    entry (m.memset (4096 * f) 0 4096) u j = if u = f then 0 else entry m u j := by
  split
  next h =>
    subst h
    exact Mem.read64_memset_zero (by omega) (by omega)
  next h =>
    exact Mem.read64_memset_of_disjoint (by omega)

/-- The address in an entry, bit by bit. -/
theorem or_div (x y : ℕ) : (x ||| y) / 4096 = x / 4096 ||| y / 4096 := by
  have h : (x ||| y) >>> 12 = x >>> 12 ||| y >>> 12 := Nat.shiftRight_or_distrib
  rwa [Nat.shiftRight_eq_div_pow, Nat.shiftRight_eq_div_pow, Nat.shiftRight_eq_div_pow] at h

/-- Flag bits do not reach the address of an entry. -/
theorem or_div_of_lt {permissions : ℕ} (h : permissions < 4096) (e : ℕ) :
    (e ||| permissions) / 4096 = e / 4096 := by
  rw [or_div, Nat.div_eq_of_lt h, Nat.or_zero]

/-- A frame address with permissions is their sum. -/
theorem or_permissions {permissions : ℕ} (h : permissions < 4096) :
    4096 * f ||| permissions = 4096 * f + permissions := by
  have := Nat.two_pow_add_eq_or_of_lt (i := 12) h f
  exact this.symm

end Paging

end WillowOS
