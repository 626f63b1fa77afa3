import WillowOS.Lib.CString
import WillowOS.Lib.Memory
import Mathlib.Data.List.GetD

/-!
# Looking up a file in a USTAR archive

`tar_lookup` goes from header to header. A header has the name of a file, and its size in eleven
octal digits; the contents follow, padded to blocks of 512 bytes, and then the next header. The
block after the last file has no magic number, and ends the loop. Names are compared with
`memcmp`, with the zero that ends them, so that a name that is the beginning of another one does
not match.

Sizes are `int`s here: the decoder and the stride of the loop wrap around at 2³¹. The archives that
are laid out (`WillowOS.Tar.LaidOut`) have files of at most 2³¹ - 1024 bytes, for which neither
does, and on them the lookup is what it is for: **`WillowOS.Tar.tarLookup_spec`**.
-/

namespace WillowOS

/-- `memcmp`, on the bytes the two pointers lead to. -/
def memcmp (p q : ℕ → UInt8) : ℕ → ℤ
  | 0 => 0
  | n + 1 =>
    if p 0 ≠ q 0 then (if p 0 < q 0 then -1 else 1)
    else memcmp (fun i => p (i + 1)) (fun i => q (i + 1)) n

/-- **`memcmp` returns `0` for equal bytes only.** -/
theorem memcmp_eq_zero {p q : ℕ → UInt8} {n : ℕ} : memcmp p q n = 0 ↔ ∀ i < n, p i = q i := by
  induction n generalizing p q with
  | zero => exact iff_of_true rfl fun i hi => absurd hi (Nat.not_lt_zero i)
  | succ n ih =>
    rw [memcmp]
    split_ifs with hne hlt
    · exact iff_of_false (by decide) fun h => hne (h 0 (Nat.succ_pos n))
    · exact iff_of_false (by decide) fun h => hne (h 0 (Nat.succ_pos n))
    · rw [ih]
      constructor
      · intro h i hi
        rcases i with _ | i
        · exact not_not.mp hne
        · exact h i (by omega)
      · exact fun h i hi => h (i + 1) (by omega)

namespace Tar

/-- An `int`, after an overflow. -/
def toInt32 (x : ℤ) : ℤ := x.bmod (2 ^ 32)

/-- `oct2bin`, with the value `n` of the digits before. -/
def oct2bin (c : ℕ → UInt8) : ℕ → ℤ → ℤ
  | 0, n => n
  | size + 1, n =>
    oct2bin (fun i => c (i + 1)) size (toInt32 (toInt32 (n * 8) + ((c 0).toNat - 48)))

/-- The magic number, `"ustar"`. -/
def ustar (i : ℕ) : UInt8 := [0x75, 0x73, 0x74, 0x61, 0x72].getD i 0

/-- A byte of a name, with the zero that ends it. -/
def nameByte (name : CString) (i : ℕ) : UInt8 := name.bytes.getD i 0

/-- How far it is to the next header: `(((filesize + 511) / 512) + 1) * 512`. -/
def stride (filesize : ℤ) : ℤ :=
  toInt32 (toInt32 ((toInt32 (filesize + 511)).tdiv 512 + 1) * 512)

/-- `tar_lookup`: what is returned, and `*out` after the call. The loop is made at most as often as
the first argument says. -/
def tarLookup (m : Mem) (filename : CString) (out : ℕ) : ℕ → ℕ → Option (ℤ × ℕ)
  | 0, _ => none
  | fuel + 1, ptr =>
    if memcmp (fun i => m (ptr + 257 + i)) ustar 5 = 0 then
      let filesize := oct2bin (fun i => m (ptr + 0x7c + i)) 11 0
      if memcmp (fun i => m (ptr + i)) (nameByte filename) (filename.length + 1) = 0 then
        some (filesize, ptr + 512)
      else tarLookup m filename out fuel (((ptr : ℤ) + stride filesize) % 2 ^ 64).toNat
    else some (0, out)

/-! ### Archives -/

/-- A file of an archive. -/
structure Entry where
  name : CString
  contents : List UInt8
  name_lt : name.length < 100
  contents_le : contents.length ≤ 2 ^ 31 - 1024

/-- Digit `i` of eleven octal digits. -/
def octalDigit (n i : ℕ) : UInt8 := UInt8.ofNat (48 + n / 8 ^ (10 - i) % 8)

/-- The header of a file. -/
structure Header (m : Mem) (ptr : ℕ) (e : Entry) : Prop where
  name : ∀ i ≤ e.name.length, m (ptr + i) = nameByte e.name i
  size : ∀ i < 11, m (ptr + 0x7c + i) = octalDigit e.contents.length i
  magic : ∀ i < 5, m (ptr + 257 + i) = ustar i

/-- The bytes a file takes: its header, and its contents padded to blocks. -/
def Entry.length (e : Entry) : ℕ := 512 + (e.contents.length + 511) / 512 * 512

/-- **An archive** at an address: the files one after the other, and a block without the magic
number. -/
def LaidOut (m : Mem) : ℕ → List Entry → Prop
  | ptr, [] => ptr + 512 ≤ 2 ^ 64 ∧ ∃ i < 5, m (ptr + 257 + i) ≠ ustar i
  | ptr, e :: es => Header m ptr e ∧
      (∀ i (h : i < e.contents.length), m (ptr + 512 + i) = e.contents[i]) ∧
      LaidOut m (ptr + e.length) es

/-- Where the contents of the file after some others are. -/
def contentsAt (archive : ℕ) (es : List Entry) : ℕ := archive + (es.map Entry.length).sum + 512

/-! ### The sizes -/

theorem toInt32_of_lt {x : ℤ} (h0 : 0 ≤ x) (h : x < 2 ^ 31) : toInt32 x = x :=
  Int.bmod_eq_of_le (by omega) (by omega)

/-- **The decoder**: with `k` digits to read, it has read the number without these digits. -/
theorem oct2bin_eq {n k : ℕ} {c : ℕ → UInt8} (hn : n < 2 ^ 31) (hk : k ≤ 11)
    (hc : ∀ i < k, c i = octalDigit n (11 - k + i)) : oct2bin c k ((n / 8 ^ k : ℕ) : ℤ) = n := by
  induction k generalizing c with
  | zero => simp [oct2bin]
  | succ k ih =>
    have hdigit : ((c 0).toNat : ℤ) = 48 + (n / 8 ^ k % 8 : ℕ) := by
      rw [hc 0 (Nat.succ_pos k), octalDigit, show 10 - (11 - (k + 1) + 0) = k by omega,
        UInt8.toNat_ofNat', Nat.mod_eq_of_lt (by omega)]
      omega
    -- the number up to this digit is at most the whole one
    have hle : n / 8 ^ k ≤ n := Nat.div_le_self _ _
    have hsplit : n / 8 ^ (k + 1) * 8 + n / 8 ^ k % 8 = n / 8 ^ k := by
      rw [pow_succ, ← Nat.div_div_eq_div_mul]
      omega
    have hnext : toInt32 (toInt32 (((n / 8 ^ (k + 1) : ℕ) : ℤ) * 8) + ((c 0).toNat - 48)) =
        ((n / 8 ^ k : ℕ) : ℤ) := by
      rw [hdigit, toInt32_of_lt (x := _ * 8) (by omega) (by omega), toInt32_of_lt (by omega)
        (by omega)]
      omega
    rw [oct2bin, hnext]
    refine ih (by omega) fun i hi => ?_
    rw [hc (i + 1) (by omega), show 11 - (k + 1) + (i + 1) = 11 - k + i by omega]

theorem Header.oct2bin {m : Mem} {ptr : ℕ} {e : Entry} (h : Header m ptr e) :
    Tar.oct2bin (fun i => m (ptr + 0x7c + i)) 11 0 = e.contents.length := by
  have hle := e.contents_le
  have h0 : e.contents.length / 8 ^ 11 = 0 := Nat.div_eq_of_lt (by omega)
  have heq := oct2bin_eq (n := e.contents.length) (c := fun i => m (ptr + 0x7c + i)) (by omega)
    (le_refl 11) fun i hi => by
      rw [h.size i hi, Nat.sub_self, Nat.zero_add]
  rw [h0] at heq
  exact heq

theorem Entry.stride_eq (e : Entry) : stride e.contents.length = e.length := by
  have hle := e.contents_le
  rw [stride, toInt32_of_lt (x := _ + 511) (by omega) (by omega),
    Int.tdiv_eq_ediv_of_nonneg (by omega), toInt32_of_lt (x := _ + 1) (by omega) (by omega),
    toInt32_of_lt (by omega) (by omega), Entry.length]
  omega

/-! ### The names -/

theorem nameByte_eq_zero {name : CString} {i : ℕ} :
    nameByte name i = 0 ↔ name.length ≤ i := by
  rw [nameByte]
  constructor
  · intro h0
    by_contra hlt
    have hi : i < name.bytes.length := not_le.mp hlt
    rw [List.getD_eq_getElem _ _ hi] at h0
    exact name.nul_notMem (h0 ▸ List.getElem_mem hi)
  · intro hle
    exact List.getD_eq_default _ _ hle

/-- **Names that agree up to the end of one of them** are equal. -/
theorem name_eq_of_bytes {s t : CString} (h : ∀ i < t.length + 1, nameByte s i = nameByte t i) :
    s = t := by
  have hlen : s.length = t.length := by
    have h1 : s.length ≤ t.length := by
      rw [← nameByte_eq_zero, h _ (Nat.lt_succ_self _), nameByte_eq_zero]
    refine le_antisymm h1 ?_
    rw [← nameByte_eq_zero, ← h _ (by omega), nameByte_eq_zero]
  obtain ⟨sb, hs⟩ := s
  obtain ⟨tb, ht⟩ := t
  have hlen : sb.length = tb.length := hlen
  congr 1
  refine List.ext_getElem hlen fun i h1 h2 => ?_
  have := h i (Nat.lt_succ_of_lt h2)
  rwa [nameByte, nameByte, List.getD_eq_getElem _ _ h1, List.getD_eq_getElem _ _ h2] at this

/-- The test of the loop is that of the names. -/
theorem Header.memcmp_name {m : Mem} {ptr : ℕ} {e : Entry} {filename : CString}
    (h : Header m ptr e) :
    memcmp (fun i => m (ptr + i)) (nameByte filename) (filename.length + 1) = 0 ↔
      e.name = filename := by
  rw [memcmp_eq_zero]
  constructor
  · intro hall
    -- the bytes compared are those of the name as far as it goes
    have hname : ∀ i < filename.length + 1, i ≤ e.name.length →
        nameByte e.name i = nameByte filename i :=
      fun i hi hle => (h.name i hle).symm.trans (hall i hi)
    refine name_eq_of_bytes fun i hi => hname i hi ?_
    by_contra hlt
    have h0 := hname e.name.length (by omega) le_rfl
    rw [nameByte_eq_zero.mpr le_rfl, eq_comm, nameByte_eq_zero] at h0
    omega
  · rintro rfl i hi
    exact h.name i (Nat.lt_succ_iff.mp hi)

/-! ### The lookup -/

section Lookup

variable {m : Mem} {filename : CString} {out ptr : ℕ} {e : Entry} {es pre : List Entry}

theorem LaidOut.le (h : LaidOut m ptr es) : ptr + 512 ≤ 2 ^ 64 := by
  induction es generalizing ptr with
  | nil => exact h.1
  | cons e es ih =>
    have := ih h.2.2
    omega

/-- A turn of the loop on a file of that name. -/
theorem tarLookup_self (fuel : ℕ) (h : Header m ptr e) (hname : e.name = filename) :
    tarLookup m filename out (fuel + 1) ptr = some (↑e.contents.length, ptr + 512) := by
  rw [tarLookup, if_pos (memcmp_eq_zero.mpr h.magic), h.oct2bin, if_pos (h.memcmp_name.mpr hname)]

/-- A turn of the loop on another file. -/
theorem tarLookup_cons (fuel : ℕ) (h : LaidOut m ptr (e :: es)) (hname : e.name ≠ filename) :
    tarLookup m filename out (fuel + 1) ptr = tarLookup m filename out fuel (ptr + e.length) := by
  have hle := h.2.2.le
  have hptr : (((ptr : ℤ) + stride e.contents.length) % 2 ^ 64).toNat = ptr + e.length := by
    rw [e.stride_eq]
    omega
  rw [tarLookup, if_pos (memcmp_eq_zero.mpr h.1.magic), h.1.oct2bin,
    if_neg (mt h.1.memcmp_name.mp hname), hptr]

/-- The end of the archive. -/
theorem tarLookup_nil (fuel : ℕ) (h : LaidOut m ptr []) :
    tarLookup m filename out (fuel + 1) ptr = some (0, out) := by
  obtain ⟨-, i, hi, hne⟩ := h
  rw [tarLookup, if_neg]
  exact fun hmagic => hne (memcmp_eq_zero.mp hmagic i hi)

/-- **Files of other names are passed**, by induction on how many they are. -/
theorem tarLookup_append (fuel : ℕ) (h : LaidOut m ptr (pre ++ es))
    (hpre : ∀ d ∈ pre, d.name ≠ filename) :
    LaidOut m (ptr + (pre.map Entry.length).sum) es ∧
      tarLookup m filename out (fuel + pre.length) ptr =
        tarLookup m filename out fuel (ptr + (pre.map Entry.length).sum) := by
  induction pre generalizing ptr with
  | nil => exact ⟨h, rfl⟩
  | cons d pre ih =>
    obtain ⟨hrest, heq⟩ := ih h.2.2 fun c hc => hpre c (List.mem_cons_of_mem _ hc)
    rw [List.map_cons, List.sum_cons, ← Nat.add_assoc]
    refine ⟨hrest, ?_⟩
    rw [List.length_cons, ← Nat.add_assoc, tarLookup_cons _ h (hpre d List.mem_cons_self), heq]

end Lookup

/-- **`tar_lookup` inverts the encoding.** On every archive, the loop ends; for a name that a file
has, the first of these files is found, its size is returned and `*out` is set to its contents; for
any other name `0` is returned and `*out` is not changed. -/
theorem tarLookup_spec (m : Mem) (archive : ℕ) (entries : List Entry) (filename : CString)
    (out fuel : ℕ) (h : LaidOut m archive entries) (hfuel : entries.length < fuel) :
    (∀ pre e post, entries = pre ++ e :: post → (∀ d ∈ pre, d.name ≠ filename) →
      e.name = filename →
      tarLookup m filename out fuel archive = some (↑e.contents.length, contentsAt archive pre) ∧
        ∀ i (hi : i < e.contents.length), m (contentsAt archive pre + i) = e.contents[i]) ∧
      ((∀ e ∈ entries, e.name ≠ filename) →
        tarLookup m filename out fuel archive = some (0, out)) := by
  constructor
  · rintro pre e post rfl hpre hname
    obtain ⟨k, rfl⟩ : ∃ k, fuel = k + 1 + pre.length :=
      ⟨fuel - 1 - pre.length, by rw [List.length_append] at hfuel; omega⟩
    obtain ⟨hrest, heq⟩ := tarLookup_append (k + 1) h hpre
    refine ⟨?_, hrest.2.1⟩
    rw [heq, tarLookup_self k hrest.1 hname]
    rfl
  · intro hnone
    obtain ⟨k, rfl⟩ : ∃ k, fuel = k + 1 + entries.length := ⟨fuel - 1 - entries.length, by omega⟩
    rw [← List.append_nil entries] at h
    obtain ⟨hrest, heq⟩ := tarLookup_append (k + 1) h hnone
    rw [heq, tarLookup_nil k hrest]

/-- The bytes of a header that has a name and a size, and zeros elsewhere. -/
def headerByte (name : CString) (size i : ℕ) : UInt8 :=
  if 0x7c ≤ i ∧ i < 0x7c + 11 then octalDigit size (i - 0x7c)
  else if 257 ≤ i ∧ i < 262 then ustar (i - 257)
  else nameByte name i

theorem nul_notMem_a : (0 : UInt8) ∉ [0x61] := by decide

/-- The empty file `ab`, and the file `a` with one byte. -/
def twoFiles : List Entry :=
  [⟨⟨[0x61, 0x62], by decide⟩, [], by decide, by decide⟩,
    ⟨⟨[0x61], nul_notMem_a⟩, [7], by decide, by decide⟩]

/-- An archive with these two files at address `0x1000`. -/
def twoFilesArchive : Mem := fun x =>
  if x < 0x1200 then headerByte ⟨[0x61, 0x62], by decide⟩ 0 (x - 0x1000)
  else if x < 0x1400 then headerByte ⟨[0x61], nul_notMem_a⟩ 1 (x - 0x1200)
  else if x = 0x1400 then 7
  else 0

/-- The file `a` is found, although the name of the first file begins with it. -/
theorem tarLookup_spec_twoFiles : LaidOut twoFilesArchive 0x1000 twoFiles ∧
    tarLookup twoFilesArchive ⟨[0x61], by decide⟩ 0 3 0x1000 = some (1, 0x1400) := by
  have hlaid : LaidOut twoFilesArchive 0x1000 twoFiles := by
    refine ⟨⟨by decide, by decide, by decide⟩, fun i hi => absurd hi (Nat.not_lt_zero i),
      ⟨by decide, by decide, by decide⟩, fun i hi => ?_, by decide, by decide⟩
    obtain rfl : i = 0 := Nat.lt_one_iff.mp hi
    rfl
  have hspec := tarLookup_spec twoFilesArchive 0x1000 twoFiles ⟨[0x61], by decide⟩ 0 3 hlaid
    (by decide)
  exact ⟨hlaid, (hspec.1 [twoFiles[0]] twoFiles[1] [] rfl (by decide) rfl).1.trans (by decide)⟩

end Tar

end WillowOS
