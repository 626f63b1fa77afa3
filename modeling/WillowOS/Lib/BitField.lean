import Mathlib.Data.BitVec

/-!
# Fields of a word

A word that is put together from fields: each is shifted to its place, and the words this gives
are joined by "or". If no two fields overlap, reading the bits of one of them gives it back
(`WillowOS.BitField.extractLsb'_place_self`), and the others are not seen
(`WillowOS.BitField.extractLsb'_place_of_disjoint`).

What is shifted is mostly itself a part of a number, cut out by a shift to the right and a mask of
ones (`WillowOS.BitField.ushiftRight_and_mask`). Parts that lie side by side make the number again.
-/

namespace WillowOS

namespace BitField

variable {n w k p q len : ℕ} {x : BitVec n} {v : BitVec w}

/-- A field at its place in a word: its bits from bit `p` on. -/
def place (n p : ℕ) (v : BitVec w) : BitVec n := v.setWidth n <<< p

theorem getLsbD_place (i : ℕ) :
    (place n p v).getLsbD i = (decide (i < n) && (decide (p ≤ i) && v.getLsbD (i - p))) := by
  rw [place, BitVec.getLsbD_shiftLeft, BitVec.getLsbD_setWidth]
  by_cases hp : i < p
  · simp [hp, Nat.not_le.mpr hp]
  · by_cases hn : i < n
    · simp [hp, hn, Nat.not_lt.mp hp, Nat.lt_of_le_of_lt (Nat.sub_le i p) hn]
    · simp [hn]

/-- **A field reads as it was placed.** -/
theorem extractLsb'_place_self (h : p + w ≤ n) : (place n p v).extractLsb' p w = v := by
  refine BitVec.eq_of_getLsbD_eq fun i hi => ?_
  rw [BitVec.getLsbD_extractLsb', getLsbD_place]
  simp [hi, show p + i < n by omega]

/-- **Other bits do not see it.** -/
theorem extractLsb'_place_of_disjoint (h : q + len ≤ p ∨ p + w ≤ q) :
    (place n p v).extractLsb' q len = BitVec.ofNat len 0 := by
  refine BitVec.eq_of_getLsbD_eq fun i hi => ?_
  rw [BitVec.getLsbD_extractLsb', getLsbD_place, BitVec.getLsbD_zero]
  rcases h with h | h
  · simp [show ¬p ≤ q + i by omega]
  · rw [BitVec.getLsbD_of_ge v _ (by omega)]
    simp

/-- Bits cut out of a number by a shift and a mask of ones. -/
theorem ushiftRight_and_mask {c : BitVec n} (hc : c = BitVec.ofNat n (2 ^ w - 1)) :
    (x >>> p) &&& c = (x.extractLsb' p w).setWidth n := by
  refine BitVec.eq_of_getLsbD_eq fun i hi => ?_
  rw [hc, BitVec.getLsbD_and, BitVec.getLsbD_ushiftRight, BitVec.getLsbD_ofNat,
    Nat.testBit_two_pow_sub_one, BitVec.getLsbD_setWidth, BitVec.getLsbD_extractLsb']
  by_cases hiw : i < w
  · simp [hi, hiw]
  · simp [hiw]

/-- The lowest bits, cut out by a mask. -/
theorem and_mask {c : BitVec n} (hc : c = BitVec.ofNat n (2 ^ w - 1)) :
    x &&& c = (x.extractLsb' 0 w).setWidth n := by
  rw [← ushiftRight_and_mask hc, BitVec.ushiftRight_zero]

/-- A field that was placed in a shorter word first. -/
theorem setWidth_place (h : p + w ≤ k) : (place k p v).setWidth n = place n p v := by
  refine BitVec.eq_of_getLsbD_eq fun i hi => ?_
  rw [BitVec.getLsbD_setWidth, getLsbD_place, getLsbD_place]
  by_cases hik : i < k
  · simp [hi, hik]
  · rw [BitVec.getLsbD_of_ge v (i - p) (by omega)]
    simp

/-- Bits cut out of a number and placed in a word. -/
theorem place_ushiftRight_and {x c : BitVec k} (hc : c = BitVec.ofNat k (2 ^ w - 1))
    (hw : w ≤ k) :
    ((x >>> q) &&& c).setWidth n <<< p = place n p (x.extractLsb' q w) := by
  rw [ushiftRight_and_mask hc, BitVec.setWidth_setWidth (by omega), place]

/-- The lowest bits, cut out and placed. -/
theorem place_and {x c : BitVec k} (hc : c = BitVec.ofNat k (2 ^ w - 1)) (hw : w ≤ k) :
    (x &&& c).setWidth n <<< p = place n p (x.extractLsb' 0 w) := by
  rw [and_mask hc, BitVec.setWidth_setWidth (by omega), place]

/-- A number that fits in fewer bits is given back by them. -/
theorem setWidth_setWidth_of_le {c : BitVec n} (hx : x ≤ c) (hc : c < BitVec.twoPow n w) :
    (x.setWidth w).setWidth n = x := by
  refine BitVec.setWidth_setWidth_eq_self (BitVec.lt_def.mpr ?_)
  exact Nat.lt_of_le_of_lt (BitVec.le_def.mp hx) (BitVec.lt_def.mp hc)

end BitField

end WillowOS
