import WillowOS.Strings.Scan

/-!
# Copying strings

`strncpy` of `string.c` copies words as long as both addresses are multiples of eight and the word
has no terminator in it, goes on byte by byte, and fills up with zeros. What each loop has done is
said by the number of bytes that are copied (`WillowOS.Strings.copied`): a word is eight of them.
In the end the destination has the string and zeros after it, whatever the alignment of the two
(**`WillowOS.Strings.strncpy_eq`**), so that the words make no difference.
-/

namespace WillowOS

namespace Strings

/-- A byte is written. -/
def put (m : Mem) (a : ℕ) (b : UInt8) : Mem := fun x => if x = a then b else m x

/-- The loop over words: the memory, the two addresses and the count after it. -/
def copyWords (m : Mem) (dst src count : ℕ) : Mem × ℕ × ℕ × ℕ :=
  if 8 ≤ count ∧ detectnull (word m src) = 0 then
    copyWords (m.write64 dst (m.read64 src)) (dst + 8) (src + 8) (count - 8)
  else (m, dst, src, count)
termination_by count

/-- The loop over bytes: the memory, the address and the count after it. -/
def copyBytes (m : Mem) (dst src : ℕ) : ℕ → Mem × ℕ × ℕ
  | 0 => (m, dst, 0)
  | count + 1 =>
    if m src = 0 then (put m dst (m src), dst + 1, count)
    else copyBytes (put m dst (m src)) (dst + 1) (src + 1) count

/-- The loop that writes zeros. -/
def pad (m : Mem) (dst : ℕ) : ℕ → Mem
  | 0 => m
  | count + 1 => pad (put m dst 0) (dst + 1) count

/-- The loops over bytes of `strncpy`. -/
def strncpyBytes (m : Mem) (dst src count : ℕ) : Mem :=
  let r := copyBytes m dst src count
  pad r.1 r.2.1 r.2.2

/-- `strncpy`. -/
def strncpy (m : Mem) (dst src count : ℕ) : Mem :=
  if src % 8 = 0 ∧ dst % 8 = 0 ∧ 8 ≤ count then
    let r := copyWords m dst src count
    strncpyBytes r.1 r.2.1 r.2.2.1 r.2.2.2
  else strncpyBytes m dst src count

/-- The memory after `i` bytes were copied. -/
def copied (m : Mem) (dst src i : ℕ) : Mem :=
  fun x => if dst ≤ x ∧ x < dst + i then m (src + (x - dst)) else m x

/-- **What is to be in memory after `strncpy`**: the bytes of the source up to its terminator, and
zeros after it. -/
def stringCopied (m : Mem) (dst src count : ℕ) : Mem :=
  fun x =>
    if dst ≤ x ∧ x < dst + count then
      if ∀ j < x - dst, m (src + j) ≠ 0 then m (src + (x - dst)) else 0
    else m x

variable {m : Mem} {dst src count i n : ℕ}

/-! ### One byte and one word -/

theorem copied_zero : copied m dst src 0 = m := by
  funext x
  exact if_neg (by omega)

/-- The source is where it was. -/
theorem copied_src {j : ℕ} (hd : dst + count ≤ src ∨ src + count ≤ dst) (hi : i ≤ count)
    (hj : j < count) : copied m dst src i (src + j) = m (src + j) :=
  if_neg (by omega)

theorem put_copied (hd : dst + count ≤ src ∨ src + count ≤ dst) (hi : i < count) :
    put (copied m dst src i) (dst + i) (copied m dst src i (src + i)) =
      copied m dst src (i + 1) := by
  funext x
  rw [put, copied_src hd (by omega) hi, copied, copied]
  rcases eq_or_ne x (dst + i) with rfl | hne
  · rw [if_pos rfl, if_pos (by omega), Nat.add_sub_cancel_left]
  · rw [if_neg hne]
    by_cases hx : dst ≤ x ∧ x < dst + i
    · rw [if_pos hx, if_pos (by omega)]
    · rw [if_neg hx, if_neg (by omega)]

/-- A byte of a word. -/
theorem ofNat_readLE_div {a j : ℕ} (hj : j < n) :
    UInt8.ofNat (m.readLE a n / 256 ^ j) = m (a + j) := by
  induction n generalizing a j with
  | zero => omega
  | succ n ih =>
    rw [Mem.readLE]
    have hlt := (m a).toNat_lt
    cases j with
    | zero =>
      rw [Nat.pow_zero, Nat.div_one]
      refine UInt8.toNat.inj ?_
      change _ = (m a).toNat
      rw [UInt8.toNat_ofNat']
      omega
    | succ j =>
      have hpow : 256 ^ (j + 1) = 256 * 256 ^ j := by rw [Nat.pow_succ, Nat.mul_comm]
      rw [hpow, ← Nat.div_div_eq_div_mul,
        show ((m a).toNat + 256 * m.readLE (a + 1) n) / 256 = m.readLE (a + 1) n by omega,
        ih (by omega), show a + 1 + j = a + (j + 1) by omega]

theorem write64_copied (hd : dst + count ≤ src ∨ src + count ≤ dst) (hi : i + 8 ≤ count) :
    (copied m dst src i).write64 (dst + i) ((copied m dst src i).read64 (src + i)) =
      copied m dst src (i + 8) := by
  funext x
  rw [Mem.write64, Mem.writeLE]
  by_cases hx : dst + i ≤ x ∧ x < dst + i + 8
  · rw [if_pos hx, Mem.read64, ofNat_readLE_div (by omega),
      show src + i + (x - (dst + i)) = src + (x - dst) by omega,
      copied_src hd (by omega) (by omega), copied, if_pos (by omega)]
  · rw [if_neg hx, copied, copied]
    by_cases hx' : dst ≤ x ∧ x < dst + i
    · rw [if_pos hx', if_pos (by omega)]
    · rw [if_neg hx', if_neg (by omega)]

/-! ### The loops -/

/-- No terminator among the bytes copied so far. -/
def NoNull (m : Mem) (src i : ℕ) : Prop := ∀ j < i, m (src + j) ≠ 0

/-- The loop over words copies some bytes, none of them the terminator. -/
theorem copyWords_copied (hd : dst + count ≤ src ∨ src + count ≤ dst) (hi : i ≤ count)
    (hn : NoNull m src i) :
    ∃ k ≤ count, NoNull m src k ∧
      copyWords (copied m dst src i) (dst + i) (src + i) (count - i) =
        (copied m dst src k, dst + k, src + k, count - k) := by
  -- by induction on the bytes that are left
  induction hl : count - i using Nat.strongRecOn generalizing i with
  | _ l ih =>
    rw [copyWords]
    by_cases hgo : 8 ≤ l ∧ detectnull (word (copied m dst src i) (src + i)) = 0
    · have hnull : ∀ j < 8, copied m dst src i (src + i + j) ≠ 0 := by
        intro j hj hz
        refine haszero_word_ne_zero.mpr ⟨j, hj, hz⟩ ?_
        rw [← detectnull_eq]
        exact hgo.2
      have hn' : NoNull m src (i + 8) := by
        intro j hj
        rcases Nat.lt_or_ge j i with hji | hji
        · exact hn j hji
        · have h := hnull (j - i) (by omega)
          rwa [show src + i + (j - i) = src + j by omega,
            copied_src hd hi (by omega)] at h
      rw [if_pos hgo, write64_copied hd (by omega)]
      obtain ⟨k, hk, hnk, heq⟩ := ih (l - 8) (by omega) (by omega) hn' (by omega)
      exact ⟨k, hk, hnk, heq⟩
    · rw [if_neg hgo]
      exact ⟨i, hi, hn, by rw [hl]⟩

theorem pad_eq (m : Mem) (dst count : ℕ) :
    pad m dst count = fun x => if dst ≤ x ∧ x < dst + count then 0 else m x := by
  induction count generalizing m dst with
  | zero =>
    funext x
    exact (if_neg (by omega)).symm
  | succ count ih =>
    rw [pad, ih]
    funext x
    rw [put]
    by_cases hx : dst + 1 ≤ x ∧ x < dst + 1 + count
    · rw [if_pos hx, if_pos (by omega)]
    · rw [if_neg hx]
      rcases eq_or_ne x dst with rfl | hne
      · rw [if_pos rfl, if_pos (by omega)]
      · rw [if_neg hne, if_neg (by omega)]

/-- Zeros after the terminator. -/
theorem pad_copied (hi : i < count) (hn : NoNull m src i) (hz : m (src + i) = 0) :
    pad (copied m dst src (i + 1)) (dst + i + 1) (count - (i + 1)) =
      stringCopied m dst src count := by
  rw [pad_eq]
  funext x
  rw [stringCopied, copied]
  by_cases hx : dst + i + 1 ≤ x ∧ x < dst + i + 1 + (count - (i + 1))
  · have hnot : ¬∀ j < x - dst, m (src + j) ≠ 0 := fun h => h i (by omega) hz
    rw [if_pos hx, if_pos (by omega), if_neg hnot]
  · rw [if_neg hx]
    by_cases hx' : dst ≤ x ∧ x < dst + (i + 1)
    · rw [if_pos hx', if_pos (by omega), if_pos fun j hj => hn j (by omega)]
    · rw [if_neg hx', if_neg (by omega)]

/-- No terminator was met. -/
theorem copied_eq_stringCopied (hn : NoNull m src count) :
    copied m dst src count = stringCopied m dst src count := by
  funext x
  rw [copied, stringCopied]
  by_cases hx : dst ≤ x ∧ x < dst + count
  · rw [if_pos hx, if_pos hx, if_pos fun j hj => hn j (by omega)]
  · rw [if_neg hx, if_neg hx]

/-- The loops over bytes go on from any number of bytes copied. -/
theorem strncpyBytes_copied (hd : dst + count ≤ src ∨ src + count ≤ dst) (hi : i ≤ count)
    (hn : NoNull m src i) :
    strncpyBytes (copied m dst src i) (dst + i) (src + i) (count - i) =
      stringCopied m dst src count := by
  induction hl : count - i generalizing i with
  | zero =>
    obtain rfl : i = count := by omega
    exact copied_eq_stringCopied hn
  | succ l ih =>
    have hsrc : copied m dst src i (src + i) = m (src + i) := copied_src hd hi (by omega)
    have hput := put_copied (m := m) hd (show i < count by omega)
    by_cases hz : m (src + i) = 0
    · have hbytes : copyBytes (copied m dst src i) (dst + i) (src + i) (l + 1) =
          (copied m dst src (i + 1), dst + i + 1, l) := by
        rw [copyBytes, if_pos (hsrc.trans hz), hput]
      rw [strncpyBytes, hbytes]
      have hpad : pad (copied m dst src (i + 1)) (dst + i + 1) _ = _ :=
        pad_copied (show i < count by omega) hn hz
      rwa [show count - (i + 1) = l by omega] at hpad
    · have hbytes : copyBytes (copied m dst src i) (dst + i) (src + i) (l + 1) =
          copyBytes (copied m dst src (i + 1)) (dst + (i + 1)) (src + (i + 1)) l := by
        rw [copyBytes, if_neg (hsrc ▸ hz), hput]
        rfl
      have hn' : NoNull m src (i + 1) := by
        intro j hj
        rcases Nat.lt_succ_iff_lt_or_eq.mp hj with hj | rfl
        · exact hn j hj
        · exact hz
      have hrest := ih (by omega) hn' (by omega)
      rw [strncpyBytes] at hrest ⊢
      rw [hbytes]
      exact hrest

/-- **`strncpy` copies the string and fills up with zeros**, whatever the alignment: the words and
the bytes come to the same. -/
theorem strncpy_eq (hd : dst + count ≤ src ∨ src + count ≤ dst) :
    strncpy m dst src count = stringCopied m dst src count := by
  have h0 : NoNull m src 0 := fun j hj => absurd hj (Nat.not_lt_zero j)
  rw [strncpy]
  by_cases hw : src % 8 = 0 ∧ dst % 8 = 0 ∧ 8 ≤ count
  · obtain ⟨k, hk, hn, heq⟩ := copyWords_copied hd (Nat.zero_le count) h0
    rw [copied_zero] at heq
    rw [if_pos hw]
    dsimp only
    rw [show copyWords m dst src count = _ from heq]
    exact strncpyBytes_copied hd hk hn
  · rw [if_neg hw]
    have h := strncpyBytes_copied hd (Nat.zero_le count) h0
    rwa [copied_zero] at h

theorem strncpy_eq_sample :
    strncpy (fun x => if x = 74 then 0 else x.toUInt8) 16 64 20 =
      stringCopied (fun x => if x = 74 then 0 else x.toUInt8) 16 64 20 :=
  strncpy_eq (by decide)

end Strings

end WillowOS
