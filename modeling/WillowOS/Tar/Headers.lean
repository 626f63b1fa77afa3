import WillowOS.Tar

/-!
# The headers that a lookup goes through

On bytes that are no archive the loop of `tar_lookup` goes wherever the size fields lead. A field
is eleven bytes of any kind, decoded without a look at them in 32 bits, so that a size may be
negative, and a stride may be negative or zero as well: `"0000000.000"` is -1024, and the loop stays
at its header forever. Nothing bounds the pointer either.

What is read of a header is listed (`WillowOS.Tar.headerReads`), with `memcmp` reading as far as the
first difference. The strides that lead on are those of the sizes from -1022 to 2³¹ - 1024
(`WillowOS.Tar.stride_pos_iff`), and as long as the loop meets no other sizes, and stays in the
buffer, it ends: **`WillowOS.Tar.walksBuffer_iff`**.
-/

namespace WillowOS

/-- How many bytes `memcmp` reads through each of its pointers: as far as the first difference. -/
def memcmpReads (p q : ℕ → UInt8) : ℕ → ℕ
  | 0 => 0
  | n + 1 =>
    if p 0 ≠ q 0 then 1 else memcmpReads (fun i => p (i + 1)) (fun i => q (i + 1)) n + 1

theorem memcmpReads_le {p q : ℕ → UInt8} {n : ℕ} : memcmpReads p q n ≤ n := by
  induction n generalizing p q with
  | zero => exact le_rfl
  | succ n ih =>
    rw [memcmpReads]
    split_ifs
    · exact Nat.succ_pos n
    · exact Nat.succ_le_succ ih

/-- Nothing is read after a difference. -/
theorem memcmpReads_le_of_ne {p q : ℕ → UInt8} {i n : ℕ} (hne : p i ≠ q i) :
    memcmpReads p q n ≤ i + 1 := by
  induction n generalizing p q i with
  | zero => exact Nat.zero_le _
  | succ n ih =>
    rw [memcmpReads]
    split_ifs with h0
    · exact Nat.succ_pos i
    · rcases i with _ | i
      · exact absurd hne h0
      · exact Nat.succ_le_succ (ih hne)

theorem memcmpReads_pos {p q : ℕ → UInt8} {n : ℕ} : 0 < memcmpReads p q (n + 1) := by
  rw [memcmpReads]
  split_ifs
  · exact Nat.one_pos
  · exact Nat.succ_pos _

namespace Tar

/-- The size in a header, `oct2bin(ptr + 0x7c, 11)`. -/
def filesize (m : Mem) (ptr : ℕ) : ℤ := oct2bin (fun i => m (ptr + 0x7c + i)) 11 0

/-- The header after this one, if the loop of `tar_lookup` goes on. -/
def nextHeader (m : Mem) (filename : CString) (ptr : ℕ) : Option ℕ :=
  if memcmp (fun i => m (ptr + 257 + i)) ustar 5 = 0 ∧
      memcmp (fun i => m (ptr + i)) (nameByte filename) (filename.length + 1) ≠ 0 then
    some (((ptr : ℤ) + stride (filesize m ptr)) % 2 ^ 64).toNat
  else none

/-- The pointer of the loop after `k` turns, if it has not ended before. -/
def headerAt (m : Mem) (filename : CString) (archive k : ℕ) : Option ℕ :=
  (fun ptr : Option ℕ => ptr.bind (nextHeader m filename))^[k] (some archive)

/-- The addresses a turn of the loop reads of the archive: the magic number, and behind it the size
and the name. -/
def headerReads (m : Mem) (filename : CString) (ptr : ℕ) : List ℕ :=
  (List.range (memcmpReads (fun i => m (ptr + 257 + i)) ustar 5)).map (ptr + 257 + ·) ++
    if memcmp (fun i => m (ptr + 257 + i)) ustar 5 = 0 then
      (List.range 11).map (ptr + 0x7c + ·) ++
        (List.range (memcmpReads (fun i => m (ptr + i)) (nameByte filename)
          (filename.length + 1))).map (ptr + ·)
    else []

/-- What a lookup in the `length` bytes at `archive` has to do: it ends, the pointer goes up at each
turn by the stride, and what is read of the headers is in the buffer. -/
structure WalksBuffer (m : Mem) (filename : CString) (archive length : ℕ) : Prop where
  ends : ∀ out, ∃ fuel, tarLookup m filename out fuel archive ≠ none
  increasing : ∀ k ptr next, headerAt m filename archive k = some ptr →
    headerAt m filename archive (k + 1) = some next →
      ptr < next ∧ (next : ℤ) = ptr + stride (filesize m ptr)
  inside : ∀ k ptr, headerAt m filename archive k = some ptr →
    ∀ a ∈ headerReads m filename ptr, archive ≤ a ∧ a < archive + length

/-! ### Which strides lead on -/

theorem toInt32_mem (x : ℤ) : -2 ^ 31 ≤ toInt32 x ∧ toInt32 x < 2 ^ 31 := by
  have hle := Int.le_bmod (x := x) (m := 2 ^ 32) (by decide)
  have hlt := Int.bmod_lt (x := x) (m := 2 ^ 32) (by decide)
  rw [toInt32]
  omega

theorem toInt32_of_mem {x : ℤ} (hle : -2 ^ 31 ≤ x) (hlt : x < 2 ^ 31) : toInt32 x = x :=
  Int.bmod_eq_of_le (by omega) (by omega)

/-- One overflow. -/
theorem toInt32_of_ge {x : ℤ} (hle : 2 ^ 31 ≤ x) (hlt : x < 2 ^ 32 + 2 ^ 31) :
    toInt32 x = x - 2 ^ 32 := by
  have heq : toInt32 (x - 2 ^ 32) = toInt32 x := Int.sub_bmod_right x (2 ^ 32)
  rw [← heq, toInt32_of_mem (by omega) (by omega)]

/-- Division that rounds towards zero, with a rest of the sign of what is divided. -/
theorem tdiv_blocks (x : ℤ) : ∃ r, x.tdiv 512 * 512 = x - r ∧ -512 < r ∧ r < 512 ∧
    (0 ≤ x → 0 ≤ r) ∧ (x ≤ 0 → r ≤ 0) := by
  have hsplit := Int.tmod_add_tdiv_mul x 512
  have hneg : x ≤ 0 → x.tmod 512 ≤ 0 := by
    intro hx
    have h0 := Int.tmod_nonneg 512 (show 0 ≤ -x by omega)
    rw [Int.neg_tmod] at h0
    omega
  exact ⟨x.tmod 512, by omega, Int.lt_tmod_of_pos x (by decide), Int.tmod_lt_of_pos x (by decide),
    Int.tmod_nonneg 512, hneg⟩

theorem oct2bin_mem (c : ℕ → UInt8) (size : ℕ) {n : ℤ} (h : -2 ^ 31 ≤ n ∧ n < 2 ^ 31) :
    -2 ^ 31 ≤ oct2bin c size n ∧ oct2bin c size n < 2 ^ 31 := by
  induction size generalizing c n with
  | zero => exact h
  | succ size ih => exact ih _ (toInt32_mem _)

theorem filesize_mem (m : Mem) (ptr : ℕ) : -2 ^ 31 ≤ filesize m ptr ∧ filesize m ptr < 2 ^ 31 :=
  oct2bin_mem _ _ (by decide)

/-- **The sizes that lead on.** A size below them gives a stride that is zero or negative, and one
above them an overflow. -/
theorem stride_pos_iff {size : ℤ} (h : -2 ^ 31 ≤ size ∧ size < 2 ^ 31) :
    0 < stride size ↔ -1022 ≤ size ∧ size ≤ 2 ^ 31 - 1024 := by
  have hmem := toInt32_mem (size + 511)
  obtain ⟨r, hdiv, hr⟩ := tdiv_blocks (toInt32 (size + 511))
  rw [stride]
  generalize (toInt32 (size + 511)).tdiv 512 = quot at hdiv ⊢
  rw [toInt32_of_mem (x := quot + 1) (by omega) (by omega)]
  rcases lt_or_ge (size + 511) (2 ^ 31) with hlt | hge
  · rw [toInt32_of_mem (x := size + 511) (by omega) hlt] at hdiv hr
    by_cases hlast : size ≤ 2 ^ 31 - 1024
    · rw [toInt32_of_mem (by omega) (by omega)]
      omega
    · -- the last block that fits is followed by one at 2³¹
      rw [toInt32_of_ge (by omega) (by omega)]
      omega
  · rw [toInt32_of_ge hge (by omega)] at hdiv hr
    rw [toInt32_of_mem (by omega) (by omega)]
    omega

/-! ### The loop -/

section Loop

variable {m : Mem} {filename : CString} {archive ptr next k length : ℕ}

theorem headerAt_succ :
    headerAt m filename archive (k + 1) =
      (headerAt m filename archive k).bind (nextHeader m filename) :=
  Function.iterate_succ_apply' _ k _

/-- The turns after the first one. -/
theorem headerAt_succ_eq :
    headerAt m filename archive (k + 1) =
      (nextHeader m filename archive).bind fun ptr => headerAt m filename ptr k := by
  induction k with
  | zero =>
    rw [headerAt_succ]
    exact (Option.bind_fun_some _).symm
  | succ k ih =>
    rw [headerAt_succ, ih, Option.bind_assoc]
    exact congrArg _ (funext fun ptr => headerAt_succ.symm)

theorem eq_of_nextHeader (h : nextHeader m filename ptr = some next) :
    (next : ℤ) = (ptr + stride (filesize m ptr)) % 2 ^ 64 := by
  rw [nextHeader, Option.ite_none_right_eq_some] at h
  rw [← Option.some.inj h.2]
  omega

/-- **The loop is not over after some turns** if there is a header for the next one. -/
theorem tarLookup_eq_none_iff {out fuel : ℕ} :
    tarLookup m filename out fuel ptr = none ↔ headerAt m filename ptr fuel ≠ none := by
  induction fuel generalizing ptr with
  | zero => exact iff_of_true rfl (Option.some_ne_none ptr)
  | succ fuel ih =>
    rw [tarLookup, headerAt_succ_eq, nextHeader]
    by_cases hmagic : memcmp (fun i => m (ptr + 257 + i)) ustar 5 = 0
    · by_cases hname : memcmp (fun i => m (ptr + i)) (nameByte filename) (filename.length + 1) = 0
      · rw [if_pos hmagic, if_pos hname, if_neg (fun h => h.2 hname)]
        exact iff_of_false (Option.some_ne_none _) fun h => h rfl
      · rw [if_pos hmagic, if_neg hname, if_pos ⟨hmagic, hname⟩]
        exact ih
    · rw [if_neg hmagic, if_neg fun h => hmagic h.1]
      exact iff_of_false (Option.some_ne_none _) fun h => h rfl

/-- The first byte of the magic number is read at each turn. -/
theorem mem_headerReads : ptr + 257 ∈ headerReads m filename ptr := by
  refine List.mem_append_left _ (List.mem_map.mpr ⟨0, ?_, rfl⟩)
  exact List.mem_range.mpr memcmpReads_pos

/-- A lookup that stays in the buffer and meets no size but those that lead on. -/
def LeadsOn (m : Mem) (filename : CString) (archive length : ℕ) : Prop :=
  ∀ k ptr, headerAt m filename archive k = some ptr →
    (∀ a ∈ headerReads m filename ptr, archive ≤ a ∧ a < archive + length) ∧
    (nextHeader m filename ptr ≠ none →
      -1022 ≤ filesize m ptr ∧ filesize m ptr ≤ 2 ^ 31 - 1024 ∧
        ptr + stride (filesize m ptr) < 2 ^ 64)

/-- A turn goes up by the stride. -/
theorem LeadsOn.lt_next (h : LeadsOn m filename archive length)
    (hptr : headerAt m filename archive k = some ptr)
    (hnext : nextHeader m filename ptr = some next) :
    ptr < next ∧ (next : ℤ) = ptr + stride (filesize m ptr) := by
  obtain ⟨hlow, hhigh, hlt⟩ := (h k ptr hptr).2 (hnext ▸ Option.some_ne_none next)
  have hpos := (stride_pos_iff (filesize_mem m ptr)).mpr ⟨hlow, hhigh⟩
  have heq := eq_of_nextHeader hnext
  omega

/-- So the pointer has gone up by one byte a turn, at least. -/
theorem LeadsOn.le_headerAt (h : LeadsOn m filename archive length)
    (hptr : headerAt m filename archive k = some ptr) : archive + k ≤ ptr := by
  induction k generalizing ptr with
  | zero => exact (Option.some.inj hptr).le
  | succ k ih =>
    rw [headerAt_succ, Option.bind_eq_some_iff] at hptr
    obtain ⟨before, hbefore, hnext⟩ := hptr
    have hlt := (h.lt_next hbefore hnext).1
    have hle := ih hbefore
    omega

/-- **A lookup behaves exactly if it leads on**: every header it comes to is read inside of the
buffer, and has a size from -1022 to 2³¹ - 1024 if the loop goes on from it. That it ends then
follows, since a buffer is finite. -/
theorem walksBuffer_iff (m : Mem) (filename : CString) (archive length : ℕ) :
    WalksBuffer m filename archive length ↔ LeadsOn m filename archive length := by
  constructor
  · intro h k ptr hptr
    refine ⟨h.inside k ptr hptr, fun hne => ?_⟩
    obtain ⟨next, hnext⟩ := Option.ne_none_iff_exists'.mp hne
    obtain ⟨hlt, heq⟩ := h.increasing k ptr next hptr (by rw [headerAt_succ, hptr]; exact hnext)
    have hmod := eq_of_nextHeader hnext
    obtain ⟨hlow, hhigh⟩ := (stride_pos_iff (filesize_mem m ptr)).mp (by omega)
    exact ⟨hlow, hhigh, by omega⟩
  · intro h
    refine ⟨fun out => ⟨length, ?_⟩, ?_, fun k ptr hptr => (h k ptr hptr).1⟩
    · -- after as many turns as there are bytes the pointer would be past the buffer
      rw [Ne, tarLookup_eq_none_iff, not_not]
      by_contra hne
      obtain ⟨ptr, hptr⟩ := Option.ne_none_iff_exists'.mp hne
      have hle := h.le_headerAt hptr
      have hlt := ((h length ptr hptr).1 _ mem_headerReads).2
      omega
    · intro k ptr next hptr hnext
      rw [headerAt_succ, hptr] at hnext
      exact h.lt_next hptr hnext

/-- A header that leads to itself is never left. -/
theorem headerAt_of_nextHeader_self (h : nextHeader m filename ptr = some ptr) :
    headerAt m filename ptr k = some ptr := by
  induction k with
  | zero => rfl
  | succ k ih => rw [headerAt_succ, ih, Option.bind_some, h]

end Loop

/-- The header of a file `a`, with `"0000000.000"` for its size. -/
def dottedHeader : Mem := fun x =>
  if x = 0x1000 + 0x7c + 7 then 0x2e
  else if 0x1000 ≤ x ∧ x < 0x1200 then headerByte ⟨[0x61], nul_notMem_a⟩ 0 (x - 0x1000)
  else 0

/-- The size is -1024, its stride is zero, and the lookup of a file `b` does not end. -/
theorem not_walksBuffer_dottedHeader :
    filesize dottedHeader 0x1000 = -1024 ∧
      (∀ out fuel, tarLookup dottedHeader ⟨[0x62], by decide⟩ out fuel 0x1000 = none) ∧
      ¬ WalksBuffer dottedHeader ⟨[0x62], by decide⟩ 0x1000 512 := by
  have hself : nextHeader dottedHeader ⟨[0x62], by decide⟩ 0x1000 = some 0x1000 := by
    decide +kernel
  have hnone : ∀ out fuel,
      tarLookup dottedHeader ⟨[0x62], by decide⟩ out fuel 0x1000 = none := by
    intro out fuel
    rw [tarLookup_eq_none_iff, headerAt_of_nextHeader_self hself]
    exact Option.some_ne_none _
  refine ⟨by decide +kernel, hnone, fun h => ?_⟩
  obtain ⟨fuel, hfuel⟩ := h.ends 0
  exact hfuel (hnone 0 fuel)

/-! ### Archives lead on -/

section Archives

variable {m : Mem} {filename : CString} {archive ptr k : ℕ} {e : Entry} {es : List Entry}

/-- Where the loop is on an archive: at one of its files, or at the end. -/
theorem LaidOut.headerAt (h : LaidOut m archive es)
    (hptr : headerAt m filename archive k = some ptr) :
    ∃ post, LaidOut m ptr post ∧ archive ≤ ptr ∧
      ptr + (post.map Entry.length).sum = archive + (es.map Entry.length).sum := by
  induction k generalizing archive es with
  | zero => exact ⟨es, Option.some.inj hptr ▸ h, (Option.some.inj hptr).le, by
      rw [Option.some.inj hptr]⟩
  | succ k ih =>
    rw [headerAt_succ_eq, Option.bind_eq_some_iff] at hptr
    obtain ⟨next, hnext, hptr⟩ := hptr
    rcases es with _ | ⟨e, es⟩
    · obtain ⟨-, i, hi, hne⟩ := h
      rw [nextHeader, if_neg fun hgo => hne (memcmp_eq_zero.mp hgo.1 i hi)] at hnext
      cases hnext
    · have hle := h.2.2.le
      have heq := eq_of_nextHeader hnext
      rw [filesize, h.1.oct2bin, e.stride_eq] at heq
      obtain rfl : next = archive + e.length := by omega
      obtain ⟨post, hpost, hfrom, hsum⟩ := ih h.2.2 hptr
      refine ⟨post, hpost, by omega, ?_⟩
      rw [hsum, List.map_cons, List.sum_cons]
      omega

/-- The name in a header ends after at most 99 bytes, and a comparison with it does as well. -/
theorem Header.memcmpReads_le (h : Header m ptr e) :
    memcmpReads (fun i => m (ptr + i)) (nameByte filename) (filename.length + 1) ≤ 100 := by
  have hlt := e.name_lt
  by_cases hlen : e.name.length < filename.length
  · -- the zero after the name is not in the longer one
    have hne : m (ptr + e.name.length) ≠ nameByte filename e.name.length := by
      rw [h.name _ le_rfl, nameByte_eq_zero.mpr le_rfl]
      exact fun h0 => absurd (nameByte_eq_zero.mp h0.symm) (by omega)
    exact (memcmpReads_le_of_ne (p := fun i => m (ptr + i)) hne).trans (by omega)
  · exact WillowOS.memcmpReads_le.trans (by omega)

/-- What is read of a header is in its block. -/
theorem LaidOut.headerReads (h : LaidOut m ptr es) {a : ℕ}
    (ha : a ∈ headerReads m filename ptr) : ptr ≤ a ∧ a < ptr + 512 := by
  rcases List.mem_append.mp ha with hmagic | hrest
  · obtain ⟨i, hi, rfl⟩ := List.mem_map.mp hmagic
    have hlt := (List.mem_range.mp hi).trans_le memcmpReads_le
    omega
  · rcases es with _ | ⟨e, es⟩
    · obtain ⟨-, i, hi, hne⟩ := h
      rw [if_neg fun hmagic => hne (memcmp_eq_zero.mp hmagic i hi)] at hrest
      cases hrest
    · rw [if_pos (memcmp_eq_zero.mpr h.1.magic)] at hrest
      rcases List.mem_append.mp hrest with hsize | hname
      · obtain ⟨i, hi, rfl⟩ := List.mem_map.mp hsize
        have hlt := List.mem_range.mp hi
        omega
      · obtain ⟨i, hi, rfl⟩ := List.mem_map.mp hname
        have hlt := (List.mem_range.mp hi).trans_le h.1.memcmpReads_le
        omega

/-- **A lookup in an archive leads on**, whatever the name. -/
theorem LaidOut.leadsOn (h : LaidOut m archive es) :
    LeadsOn m filename archive ((es.map Entry.length).sum + 512) := by
  intro k ptr hptr
  obtain ⟨post, hpost, hle, hsum⟩ := h.headerAt hptr
  refine ⟨fun a ha => ?_, fun hgo => ?_⟩
  · have := hpost.headerReads ha
    omega
  · rcases post with _ | ⟨e, post⟩
    · obtain ⟨-, i, hi, hne⟩ := hpost
      exact absurd (if_neg fun hmagic => hne (memcmp_eq_zero.mp hmagic.1 i hi)) hgo
    · have hend := hpost.2.2.le
      have hcontents := e.contents_le
      rw [filesize, hpost.1.oct2bin, e.stride_eq]
      omega

end Archives

end Tar

end WillowOS
