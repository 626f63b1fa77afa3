import WillowOS.Lib.WordScan

/-!
# Searching in strings

`strlen`, `__strchrnul`, `strchr` and `memchr` of `string.c` read eight bytes at a time where they
can, and test all of them at once. Here they also return the bytes they read, one by one or as part
of a word, because a read of a page that is not there is a fault whatever becomes of what was read.

All of them find what the loop over the bytes would. `strlen` reads words at multiples of eight
only, so that it reads no word without a byte of the string in it, and no page either
(**`WillowOS.Strings.strlen_eq`**), and `memchr` reads nothing outside of what it is given
(**`WillowOS.Strings.memchr_eq`**). `__strchrnul` takes the remainder by `ALIGN`, which is seven and
meant as a mask, and so it reads words across the end of a page: at every end of a page there is an
address such that the empty string there makes it do so
(`WillowOS.Strings.strchrnul_reads_next_page`).
-/

namespace WillowOS

namespace Strings

open WordScan

/-- The word at an address. -/
def word (m : Mem) (a : ℕ) : BitVec 64 := BitVec.ofNat 64 (m.read64 a)

/-- `ONES`: `(size_t)-1/UCHAR_MAX`. -/
def ONES : BitVec 64 := (-1 : BitVec 64) / 255

/-- `HIGHS`: `ONES * (UCHAR_MAX/2+1)`. -/
def HIGHS : BitVec 64 := ONES * (255 / 2 + 1)

/-- `HASZERO`. -/
def haszero (x : BitVec 64) : BitVec 64 := (x - ONES) &&& ~~~x &&& HIGHS

/-- `DETECTNULL`. -/
def detectnull (x : BitVec 64) : BitVec 64 :=
  (x - 0x0101010101010101) &&& ~~~x &&& 0x8080808080808080

/-- The bytes of the words at some addresses. -/
def bytesOf (ws : List ℕ) : List ℕ := ws.flatMap fun w => (List.range 8).map (w + ·)

/-- `strlen`, with the addresses it reads. -/
def strlen (m : Mem) (fuel str : ℕ) : Option (ℕ × List ℕ) :=
  (wordScan 8 (m · = 0) (fun a => detectnull (word m a) ≠ 0) fuel str).map fun r =>
    (r.1 - str, r.2.1 ++ bytesOf r.2.2)

/-- `__strchrnul`, with the addresses it reads. -/
def strchrnul (m : Mem) (fuel s : ℕ) (c : UInt8) : Option (ℕ × List ℕ) :=
  if c = 0 then (strlen m fuel s).map fun r => (s + r.1, r.2)
  else
    (wordScan 7 (fun a => m a = 0 || m a = c)
      (fun a => haszero (word m a) ≠ 0 || haszero (word m a ^^^ ONES * c.toBitVec.setWidth 64) ≠ 0)
      fuel s).map fun r => (r.1, r.2.1 ++ bytesOf r.2.2)

/-- `strchr`: `0` for `NULL`. -/
def strchr (m : Mem) (fuel s : ℕ) (c : UInt8) : Option ℕ :=
  (strchrnul m fuel s c).map fun r => if m r.1 = c then r.1 else 0

/-- `memchr`, `0` for `NULL`, with the addresses it reads; `e` is the end of the bytes left. -/
def memchr (m : Mem) (fuel src : ℕ) (c : UInt8) (n : ℕ) : Option (ℕ × List ℕ) :=
  let e := src + n
  (scan (fun a => a % 8 = 0 || a = e || m a = c) 1 fuel src).bind fun r₁ =>
    (if r₁.2 ≠ e ∧ m r₁.2 ≠ c then
      scan (fun a => e - a < 8 || haszero (word m a ^^^ ONES * c.toBitVec.setWidth 64) ≠ 0) 8
        fuel r₁.2
    else some ([], r₁.2)).bind fun r₂ =>
      (scan (fun a => a = e || m a = c) 1 fuel r₂.2).map fun r₃ =>
        (if r₃.2 ≠ e then r₃.2 else 0,
          (r₁.1 ++ r₃.1).filter (· ≠ e) ++ bytesOf (r₂.1.filter (8 ≤ e - ·)))

variable {m : Mem} {fuel n s a : ℕ} {c : UInt8}

/-! ### The tests -/

theorem toNat_word : (word m a).toNat = m.readLE a 8 := by
  rw [word, BitVec.toNat_ofNat]
  exact Nat.mod_eq_of_lt Mem.read64_lt

theorem toNat_haszero (x : BitVec 64) : (haszero x).toNat = hasZero 8 x.toNat := by
  have hones : ONES.toNat = ones 8 := by decide
  have hhighs : HIGHS.toNat = 128 * ones 8 := by decide
  have hlt : ones 8 < 256 ^ 8 := ones_lt
  have hpow : (2 : ℕ) ^ 64 = 256 ^ 8 := by decide
  rw [haszero, hasZero, BitVec.toNat_and, BitVec.toNat_and, BitVec.toNat_not, BitVec.toNat_sub,
    hones, hhighs, hpow, show 256 ^ 8 - ones 8 + x.toNat = x.toNat + 256 ^ 8 - ones 8 by omega]

theorem detectnull_eq (x : BitVec 64) : detectnull x = haszero x := by
  have hones : ONES = 0x0101010101010101 := by decide
  have hhighs : HIGHS = 0x8080808080808080 := by decide
  rw [detectnull, haszero, hones, hhighs]

/-- A word has a zero byte. -/
theorem haszero_word_ne_zero : haszero (word m a) ≠ 0 ↔ ∃ j < 8, m (a + j) = 0 := by
  have hzero : haszero (word m a) = 0 ↔ ∀ j < 8, m (a + j) ≠ 0 := by
    rw [← hasZero_eq_zero_iff, ← toNat_word, ← toNat_haszero]
    exact ⟨fun h => congrArg BitVec.toNat h, fun h => BitVec.eq_of_toNat_eq h⟩
  rw [Ne, hzero]
  simp only [not_forall, not_not, exists_prop]

/-- The words of a memory whose bytes were compared with `c`. -/
theorem word_xor : word m a ^^^ ONES * c.toBitVec.setWidth 64 = word (xorMem m c) a := by
  apply BitVec.eq_of_toNat_eq
  have hc : (c.toBitVec.setWidth 64).toNat = c.toNat := by
    rw [BitVec.toNat_setWidth]
    exact Nat.mod_eq_of_lt (Nat.lt_of_lt_of_le c.toNat_lt (by decide))
  have hones : ONES.toNat = ones 8 := by decide
  have hlt : ones 8 * c.toNat < 2 ^ 64 := by
    have hc := c.toNat_lt
    have h8 : ones 8 = 72340172838076673 := by decide
    rw [h8]
    omega
  rw [BitVec.toNat_xor, BitVec.toNat_mul, hc, hones, Nat.mod_eq_of_lt hlt, toNat_word, toNat_word,
    readLE_xorMem]

/-- A word has a byte `c`. -/
theorem haszero_xor_ne_zero :
    haszero (word m a ^^^ ONES * c.toBitVec.setWidth 64) ≠ 0 ↔ ∃ j < 8, m (a + j) = c := by
  rw [word_xor, haszero_word_ne_zero]
  exact exists_congr fun j => and_congr_right fun _ => UInt8.xor_eq_zero_iff

theorem mem_bytesOf {ws : List ℕ} {z : ℕ} : z ∈ bytesOf ws ↔ ∃ w ∈ ws, w ≤ z ∧ z < w + 8 := by
  rw [bytesOf, List.mem_flatMap]
  refine exists_congr fun w => and_congr_right fun _ => ?_
  rw [List.mem_map]
  constructor
  · rintro ⟨j, hj, rfl⟩
    have := List.mem_range.mp hj
    omega
  · rintro ⟨h1, h2⟩
    exact ⟨z - w, List.mem_range.mpr (by omega), by omega⟩

/-! ### Strings -/

/-- A string of length `n`. -/
structure IsString (m : Mem) (s n : ℕ) : Prop where
  ne_zero : ∀ i < n, m (s + i) ≠ 0
  zero : m (s + n) = 0

/-- `strlen` finds the length, and every byte it reads is in a word with one of the string's, the
terminator included. -/
theorem strlen_of_isString (h : IsString m s n) (hf : n < fuel) :
    ∃ reads, strlen m fuel s = some (n, reads) ∧
      ∀ z ∈ reads, ∃ y, s ≤ y ∧ y ≤ s + n ∧ z / 8 = y / 8 := by
  have hword (a : ℕ) : decide (detectnull (word m a) ≠ 0) = true ↔
      ∃ j < 8, decide (m (a + j) = 0) = true := by
    rw [decide_eq_true_iff, detectnull_eq, haszero_word_ne_zero]
    simp only [decide_eq_true_iff]
  obtain ⟨bs, ws, hscan, hbs, hws⟩ := wordScan_eq (A := 8) (m · = 0)
    (fun a => detectnull (word m a) ≠ 0) (by decide) hword
    (fun i hi => decide_eq_false (h.ne_zero i hi)) (decide_eq_true h.zero) hf
  refine ⟨bs ++ bytesOf ws, ?_, fun z hz => ?_⟩
  · rw [strlen, hscan, Option.map_some, Nat.add_sub_cancel_left]
  · rcases List.mem_append.mp hz with hz | hz
    · exact ⟨z, (hbs z hz).1, (hbs z hz).2, rfl⟩
    · obtain ⟨w, hw, h1, h2⟩ := mem_bytesOf.mp hz
      obtain ⟨hsw, hwn, r, i, hr, rfl⟩ := hws w hw
      exact ⟨_, hsw, hwn, by omega⟩

/-- **`strlen` finds the length, and reads no page that the string is not on.** -/
theorem strlen_eq (h : IsString m s n) (hf : n < fuel) :
    ∃ reads, strlen m fuel s = some (n, reads) ∧
      ∀ z ∈ reads, ∃ y, s ≤ y ∧ y ≤ s + n ∧ z / 4096 = y / 4096 := by
  obtain ⟨reads, heq, hreads⟩ := strlen_of_isString h hf
  refine ⟨reads, heq, fun z hz => ?_⟩
  obtain ⟨y, h1, h2, hzy⟩ := hreads z hz
  exact ⟨y, h1, h2, by omega⟩

theorem strlen_eq_sample :
    ∃ reads, strlen (fun x => if x = 13 then 0 else 65) 9 5 = some (8, reads) ∧
      ∀ z ∈ reads, ∃ y, 5 ≤ y ∧ y ≤ 5 + 8 ∧ z / 4096 = y / 4096 :=
  strlen_eq ⟨by decide, by decide⟩ (by decide)

/-! ### A character of a string -/

/-- The first byte that is `c` or the terminator is `n` bytes on. -/
structure FirstAt (m : Mem) (s : ℕ) (c : UInt8) (n : ℕ) : Prop where
  ne : ∀ i < n, m (s + i) ≠ 0 ∧ m (s + i) ≠ c
  eq : m (s + n) = 0 ∨ m (s + n) = c

/-- The words of `__strchrnul`. -/
theorem strchrnul_word (a : ℕ) :
    (decide (haszero (word m a) ≠ 0) ||
        decide (haszero (word m a ^^^ ONES * c.toBitVec.setWidth 64) ≠ 0)) = true ↔
      ∃ j < 8, (decide (m (a + j) = 0) || decide (m (a + j) = c)) = true := by
  simp only [Bool.or_eq_true, decide_eq_true_iff, haszero_word_ne_zero, haszero_xor_ne_zero,
    ← exists_or, ← and_or_left]

/-- The scan of `__strchrnul`. -/
theorem strchrnul_of_ne_zero (hc : c ≠ 0) (h : FirstAt m s c n) (hf : n < fuel) :
    ∃ reads, strchrnul m fuel s c = some (s + n, reads) := by
  have hstop {i : ℕ} : (decide (m (s + i) = 0) || decide (m (s + i) = c)) = true ↔
      m (s + i) = 0 ∨ m (s + i) = c := by
    rw [Bool.or_eq_true, decide_eq_true_iff, decide_eq_true_iff]
  obtain ⟨bs, ws, hscan, -, -⟩ := wordScan_eq (A := 7) (fun a => m a = 0 || m a = c) _ (by decide)
    (fun a => strchrnul_word a)
    (fun i hi => Bool.eq_false_iff.mpr fun ht => (hstop.mp ht).elim (h.ne i hi).1 (h.ne i hi).2)
    (hstop.mpr h.eq) hf
  refine ⟨bs ++ bytesOf ws, ?_⟩
  rw [strchrnul, if_neg hc, hscan, Option.map_some]

/-- **`strchr` finds the first occurrence** of a character before the terminator, the terminator
itself included, and `NULL` if there is none. -/
theorem strchr_eq (h : FirstAt m s c n) (hf : n < fuel) :
    strchr m fuel s c = some (if m (s + n) = c then s + n else 0) := by
  by_cases hc : c = 0
  · subst hc
    have hstr : IsString m s n := ⟨fun i hi => (h.ne i hi).1, h.eq.elim id id⟩
    obtain ⟨reads, hlen, -⟩ := strlen_of_isString hstr hf
    rw [strchr, strchrnul, if_pos rfl, hlen, Option.map_some, Option.map_some]
  · obtain ⟨reads, heq⟩ := strchrnul_of_ne_zero hc h hf
    rw [strchr, heq, Option.map_some]

theorem strchr_eq_sample :
    strchr (fun x => if x = 13 then 0 else if x = 9 then 66 else 65) 9 5 66 = some 9 :=
  strchr_eq (n := 4) ⟨by decide, by decide⟩ (by decide)

/-- **Every end of a page is crossed by some read of `__strchrnul`**: of the seven addresses before
it there is one such that, for the empty string there, the first byte of the next page is read. -/
theorem strchrnul_reads_next_page {page : ℕ} (hp : 7 ≤ page) :
    ∃ s, s < page ∧ page ≤ s + 7 ∧ ∀ (m : Mem) (c : UInt8) (fuel : ℕ), m s = 0 → c ≠ 0 →
      0 < fuel → ∃ reads, strchrnul m fuel s c = some (s, reads) ∧ page ∈ reads := by
  -- the last multiple of seven
  obtain ⟨s, hs⟩ : ∃ s, s = (page - 1) / 7 * 7 := ⟨_, rfl⟩
  refine ⟨s, by omega, by omega, fun m c fuel hz hc hf => ?_⟩
  have hzero : haszero (word m s) ≠ 0 := haszero_word_ne_zero.mpr ⟨0, by decide, hz⟩
  have hstop : (decide (m s = 0) || decide (m s = c)) = true := by
    rw [decide_eq_true hz, Bool.true_or]
  have hword : (decide (haszero (word m s) ≠ 0) ||
      decide (haszero (word m s ^^^ ONES * c.toBitVec.setWidth 64) ≠ 0)) = true := by
    rw [decide_eq_true hzero, Bool.true_or]
  obtain ⟨bs, hscan⟩ := wordScan_of_aligned (A := 7) (fun a => m a = 0 || m a = c)
    (fun a => haszero (word m a) ≠ 0 || haszero (word m a ^^^ ONES * c.toBitVec.setWidth 64) ≠ 0)
    (by omega) hstop hword hf
  refine ⟨bs ++ bytesOf [s], ?_, List.mem_append_right _ (mem_bytesOf.mpr
    ⟨s, List.mem_cons_self, by omega, by omega⟩)⟩
  rw [strchrnul, if_neg hc, hscan, Option.map_some]

theorem strchrnul_reads_next_page_sample :
    ∃ s, s < 4096 ∧ ∃ reads, strchrnul (fun _ => 0) 1 s 65 = some (s, reads) ∧ 4096 ∈ reads := by
  obtain ⟨s, hs, -, h⟩ := @strchrnul_reads_next_page 4096 (by decide)
  exact ⟨s, hs, h _ 65 1 rfl (by decide) (by decide)⟩

/-! ### A byte among many -/

/-- The first of `n` bytes that is `c` is `k` bytes on, or `k` is `n`. -/
structure FirstOf (m : Mem) (s : ℕ) (c : UInt8) (n k : ℕ) : Prop where
  ne : ∀ i < k, m (s + i) ≠ c
  le : k ≤ n
  eq : k = n ∨ m (s + k) = c

variable {k : ℕ}

/-- The first loop of `memchr` ends at the next word, at the byte or at the end. -/
theorem scan_unaligned (h : FirstOf m s c n k) {r : ℕ} (hr : (s + r) % 8 = 0)
    (hrlt : ∀ i < r, (s + i) % 8 ≠ 0) (hf : n < fuel) :
    scan (fun a => a % 8 = 0 || a = s + n || m a = c) 1 fuel s =
      some (tested 1 s (min r k), s + min r k) := by
  have hle := h.le
  have hscan := @scan_eq s (fun a => a % 8 = 0 || a = s + n || m a = c) 1 (min r k) fuel
    (fun i hi => ?_) ?_ (by omega)
  · rwa [Nat.one_mul] at hscan
  · have hne : s + i ≠ s + n := by omega
    rw [Nat.one_mul, decide_eq_false (hrlt i (by omega)), decide_eq_false hne,
      decide_eq_false (h.ne i (by omega))]
    rfl
  · rw [Nat.one_mul]
    rcases Nat.le_total r k with hrk | hkr
    · rw [Nat.min_eq_left hrk, decide_eq_true hr]
      rfl
    · rw [Nat.min_eq_right hkr]
      rcases h.eq with rfl | heq
      · rw [decide_eq_true rfl, Bool.or_true]
        rfl
      · rw [decide_eq_true heq, Bool.or_true]

/-- The last loop of `memchr` ends at the byte or at the end. -/
theorem scan_bytes (h : FirstOf m s c n k) {j : ℕ} (hj : j ≤ k) (hf : n < fuel) :
    scan (fun a => a = s + n || m a = c) 1 fuel (s + j) =
      some (tested 1 (s + j) (k - j), s + k) := by
  have hle := h.le
  have hend : s + j + 1 * (k - j) = s + k := by omega
  rw [← hend]
  refine scan_eq (fun i hi => ?_) ?_ (by omega)
  · have hne : s + j + 1 * i ≠ s + n := by omega
    have hbyte := h.ne (j + i) (by omega)
    rw [← Nat.add_assoc, ← Nat.one_mul i] at hbyte
    rw [decide_eq_false hne, decide_eq_false hbyte]
    rfl
  · rw [hend]
    rcases h.eq with rfl | heq
    · rw [decide_eq_true rfl, Bool.true_or]
    · rw [decide_eq_true heq, Bool.or_true]

/-- The words of `memchr` go up to the one with the byte or the end in it. -/
theorem scan_words (h : FirstOf m s c n k) {r : ℕ} (hr : r ≤ k) (hf : n < fuel) :
    scan (fun a => s + n - a < 8 || haszero (word m a ^^^ ONES * c.toBitVec.setWidth 64) ≠ 0) 8
      fuel (s + r) = some (tested 8 (s + r) ((k - r) / 8), s + r + 8 * ((k - r) / 8)) := by
  have hle := h.le
  refine scan_eq (fun i hi => ?_) ?_ (by omega)
  · have hlong : ¬s + n - (s + r + 8 * i) < 8 := by omega
    have hnone : ¬haszero (word m (s + r + 8 * i) ^^^ ONES * c.toBitVec.setWidth 64) ≠ 0 := by
      rw [haszero_xor_ne_zero]
      rintro ⟨j, hj, heq⟩
      refine h.ne (r + 8 * i + j) (by omega) ?_
      rwa [show s + (r + 8 * i + j) = s + r + 8 * i + j by omega]
    rw [decide_eq_false hlong, decide_eq_false hnone]
    rfl
  · rcases h.eq with rfl | heq
    · have hshort : s + k - (s + r + 8 * ((k - r) / 8)) < 8 := by omega
      rw [decide_eq_true hshort, Bool.true_or]
    · have hhit : haszero (word m (s + r + 8 * ((k - r) / 8)) ^^^
          ONES * c.toBitVec.setWidth 64) ≠ 0 := by
        refine haszero_xor_ne_zero.mpr ⟨(k - r) % 8, by omega, ?_⟩
        rwa [show s + r + 8 * ((k - r) / 8) + (k - r) % 8 = s + k by omega]
      rw [decide_eq_true hhit, Bool.or_true]

/-- What the bytes and the words that were tested come to. -/
theorem mem_reads {j : ℕ} {ws : List ℕ} {z : ℕ} (hle : k ≤ n) {l : ℕ} (hl : l ≤ k) (hj : j ≤ k)
    (hws : ∀ w ∈ ws, s ≤ w)
    (hz : z ∈ (tested 1 s l ++ tested 1 (s + j) (k - j)).filter (· ≠ s + n) ++
      bytesOf (ws.filter (8 ≤ s + n - ·))) : s ≤ z ∧ z < s + n := by
  rcases List.mem_append.mp hz with hz | hz
  · obtain ⟨hz, hne⟩ := List.mem_filter.mp hz
    have hne := of_decide_eq_true hne
    rcases List.mem_append.mp hz with hz | hz <;> obtain ⟨i, hi, rfl⟩ := mem_tested.mp hz <;> omega
  · obtain ⟨w, hw, h1, h2⟩ := mem_bytesOf.mp hz
    obtain ⟨hw, hlong⟩ := List.mem_filter.mp hw
    have hlong := of_decide_eq_true hlong
    have := hws w hw
    omega

/-- **`memchr` finds the first byte, and reads none outside of the `n` it is given.** -/
theorem memchr_eq (h : FirstOf m s c n k) (hf : n < fuel) :
    ∃ reads, memchr m fuel s c n = some (if k = n then 0 else s + k, reads) ∧
      ∀ z ∈ reads, s ≤ z ∧ z < s + n := by
  have hle := h.le
  obtain ⟨r, hr, hrlt⟩ := exists_aligned (A := 8) (by decide) s
  have hres : (if s + k ≠ s + n then s + k else 0) = if k = n then 0 else s + k := by
    rcases Nat.eq_or_lt_of_le hle with rfl | hlt
    · rw [if_neg (not_not.mpr rfl), if_pos rfl]
    · rw [if_pos (by omega), if_neg (by omega)]
  rcases Nat.lt_or_ge r k with hrk | hkr
  · -- the words come to bear
    have hgo : s + min r k ≠ s + n ∧ m (s + min r k) ≠ c := by
      rw [Nat.min_eq_left (by omega)]
      exact ⟨by omega, h.ne r hrk⟩
    have hj : r + 8 * ((k - r) / 8) ≤ k := by omega
    have hbytes := scan_bytes h hj hf
    rw [← Nat.add_assoc] at hbytes
    refine ⟨(tested 1 s (min r k) ++ tested 1 (s + (r + 8 * ((k - r) / 8)))
      (k - (r + 8 * ((k - r) / 8)))).filter (· ≠ s + n) ++
        bytesOf ((tested 8 (s + r) ((k - r) / 8)).filter (8 ≤ s + n - ·)), ?_, fun z hz => ?_⟩
    · rw [memchr, scan_unaligned h hr hrlt hf, Option.bind_some, if_pos hgo,
        Nat.min_eq_left (by omega), scan_words h (by omega) hf, Option.bind_some, hbytes,
        Option.map_some, hres, ← Nat.add_assoc]
    · refine mem_reads hle (Nat.min_le_right r k) hj (fun w hw => ?_) hz
      obtain ⟨i, -, rfl⟩ := mem_tested.mp hw
      omega
  · -- found, or at the end, before the first word
    have hstop : ¬(s + min r k ≠ s + n ∧ m (s + min r k) ≠ c) := by
      rw [Nat.min_eq_right hkr]
      rintro ⟨hne, hnc⟩
      exact h.eq.elim (fun hkn => hne (by omega)) hnc
    refine ⟨(tested 1 s (min r k) ++ tested 1 (s + k) (k - k)).filter (· ≠ s + n) ++
      bytesOf (([] : List ℕ).filter (8 ≤ s + n - ·)), ?_, fun z hz => ?_⟩
    · rw [memchr, scan_unaligned h hr hrlt hf, Option.bind_some, if_neg hstop, Option.bind_some,
        Nat.min_eq_right hkr, scan_bytes h (Nat.le_refl k) hf, Option.map_some, hres]
    · exact mem_reads hle (Nat.min_le_right r k) (Nat.le_refl k)
        (fun w hw => absurd hw List.not_mem_nil) hz

theorem memchr_eq_sample :
    ∃ reads, memchr (fun x => if x = 21 then 66 else 65) 30 3 66 25 = some (21, reads) ∧
      ∀ z ∈ reads, 3 ≤ z ∧ z < 3 + 25 :=
  memchr_eq (k := 18) ⟨by decide, by decide, by decide⟩ (by decide)

end Strings

end WillowOS
