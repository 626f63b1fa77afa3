import WillowOS.Lib.CString
import WillowOS.Lib.Stores
import Mathlib.Data.Nat.Digits.Lemmas

/-!
# Numbers in decimal

`uint64_to_string` writes the digits of a number into a buffer, lowest first, ends them with a
zero, and then reverses them in place: two pointers move towards each other from the two ends, and
exchange what they point to until they meet or have passed each other.

The first loop leaves the list of digits of the number
(`WillowOS.Decimal.digitLoop_eq`), the second one the same bytes in the opposite order
(`WillowOS.Decimal.reverseLoop_apply`), whether their number is odd or even. Read from the left
they are the number again, and the highest digit is not zero:
**`WillowOS.Decimal.uint64ToString_canonical`**.
-/

namespace WillowOS

namespace Decimal

open Mem

/-- The character of a digit. -/
def digitChar (d : ℕ) : UInt8 := UInt8.ofNat (48 + d)

/-- The first loop of `uint64_to_string`: the digits from `ptr` on, lowest first, and the pointer
behind them. -/
def digitLoop (m : Mem) (ptr : ℕ) (value : UInt64) : Mem × ℕ :=
  if h : value = 0 then (m, ptr)
  else digitLoop (m.store ⟨ptr, [(48 + value % 10).toUInt8]⟩) (ptr + 1) (value / 10)
termination_by value.toNat
decreasing_by
  have hpos : value.toNat ≠ 0 := fun h0 => h (UInt64.toNat_inj.mp h0)
  rw [UInt64.toNat_div]
  exact Nat.div_lt_self (Nat.pos_of_ne_zero hpos) (by decide)

/-- The second loop: the bytes from `start` to `last` are exchanged, from the two ends. -/
def reverseLoop (m : Mem) (start last : ℕ) : Mem :=
  if start < last then
    let temp := m start
    reverseLoop ((m.store ⟨start, [m last]⟩).store ⟨last, [temp]⟩) (start + 1) (last - 1)
  else m
termination_by last - start

/-- `uint64_to_string`. -/
def uint64ToString (m : Mem) (value : UInt64) (buffer : ℕ) : Mem :=
  let digits :=
    if value = 0 then (m.store ⟨buffer, [48]⟩, buffer + 1) else digitLoop m buffer value
  reverseLoop (digits.1.store ⟨digits.2, [0]⟩) buffer (digits.2 - 1)

/-! ### What a decimal is -/

/-- The number that digits stand for, read from the left. -/
def decimalValue (bytes : List UInt8) : ℕ := bytes.foldl (fun v c => 10 * v + (c.toNat - 48)) 0

/-- **A decimal without leading zeros**, of a number of 64 bits. -/
structure Canonical (s : CString) (v : ℕ) : Prop where
  isDigit : ∀ c ∈ s.bytes, 48 ≤ c ∧ c ≤ 57
  length_pos : 1 ≤ s.length
  length_le : s.length ≤ 20
  no_leading_zero : s.bytes.head? = some 48 → v = 0 ∧ s.length = 1
  value_eq : decimalValue s.bytes = v

/-- The digits of a number, lowest first; zero has one. -/
def lowFirst (v : ℕ) : List ℕ := if v = 0 then [0] else Nat.digits 10 v

variable {m : Mem} {v d x ptr start last buffer : ℕ} {value : UInt64}

theorem lt_of_mem_lowFirst (h : d ∈ lowFirst v) : d < 10 := by
  rw [lowFirst] at h
  split_ifs at h
  · rw [List.mem_singleton.mp h]
    decide
  · exact Nat.digits_lt_base (by decide) h

theorem ofDigits_lowFirst (v : ℕ) : Nat.ofDigits 10 (lowFirst v) = v := by
  rw [lowFirst]
  split_ifs with h0
  · rw [h0]
    rfl
  · exact Nat.ofDigits_digits 10 v

theorem lowFirst_ne_nil (v : ℕ) : lowFirst v ≠ [] := by
  rw [lowFirst]
  split_ifs with h0
  · exact List.cons_ne_nil _ _
  · exact Nat.digits_ne_nil_iff_ne_zero.mpr h0

/-- Twenty digits are enough. -/
theorem length_lowFirst_le (hv : v < 2 ^ 64) : (lowFirst v).length ≤ 20 := by
  rw [lowFirst]
  split_ifs with h0
  · simp
  · exact (Nat.digits_length_le_iff (by decide) v).mpr (hv.trans (by norm_num))

/-- The highest digit is zero for the number zero only. -/
theorem eq_zero_of_getLast_lowFirst (h : (lowFirst v).getLast? = some 0) :
    v = 0 ∧ (lowFirst v).length = 1 := by
  rw [lowFirst] at h ⊢
  split_ifs at h ⊢ with h0
  · exact ⟨h0, rfl⟩
  · have hlast := List.getLast?_eq_some_getLast (Nat.digits_ne_nil_iff_ne_zero (b := 10).mpr h0)
    exact absurd (Option.some.inj (hlast.symm.trans h)) (Nat.getLast_digit_ne_zero 10 h0)

/-! ### The characters -/

theorem toNat_digitChar (h : d < 10) : (digitChar d).toNat = 48 + d := by
  rw [digitChar, UInt8.toNat_ofNat']
  omega

theorem digitChar_isDigit (h : d < 10) : 48 ≤ digitChar d ∧ digitChar d ≤ 57 := by
  rw [UInt8.le_iff_toNat_le, UInt8.le_iff_toNat_le, toNat_digitChar h]
  simp only [UInt8.reduceToNat]
  omega

/-- The byte the loop stores. -/
theorem toUInt8_digit (value : UInt64) :
    (48 + value % 10).toUInt8 = digitChar (value.toNat % 10) := by
  refine UInt8.toNat_inj.mp ?_
  rw [toNat_digitChar (Nat.mod_lt _ (by decide)), UInt64.toNat_toUInt8, UInt64.toNat_add,
    UInt64.toNat_mod]
  simp only [UInt64.reduceToNat]
  omega

/-- Read from the left, the digits from the highest on are the number. -/
theorem decimalValue_reverse {ds : List ℕ} (h : ∀ d ∈ ds, d < 10) :
    decimalValue (ds.map digitChar).reverse = Nat.ofDigits 10 ds := by
  induction ds with
  | nil => rfl
  | cons d ds ih =>
    have hd := toNat_digitChar (h d List.mem_cons_self)
    have hrest := ih fun c hc => h c (List.mem_cons_of_mem _ hc)
    rw [decimalValue] at hrest
    rw [decimalValue, List.map_cons, List.reverse_cons, List.foldl_append, hrest, Nat.ofDigits_cons]
    simp only [List.foldl_cons, List.foldl_nil, hd]
    omega

/-! ### The loops -/

/-- **The first loop** stores the digits, lowest first. -/
theorem digitLoop_eq (m : Mem) (ptr : ℕ) (value : UInt64) : digitLoop m ptr value =
    (m.store ⟨ptr, (Nat.digits 10 value.toNat).map digitChar⟩,
      ptr + (Nat.digits 10 value.toNat).length) := by
  fun_induction digitLoop m ptr value with
  | case1 m ptr =>
    have hnil : m.store ⟨ptr, []⟩ = m := funext fun x => store_of_notMem (by simp)
    rw [UInt64.toNat_zero, Nat.digits_zero, List.map_nil, hnil]
    rfl
  | case2 m ptr value h ih =>
    have hpos : value.toNat ≠ 0 := fun h0 => h (UInt64.toNat_inj.mp h0)
    have hdigits : Nat.digits 10 value.toNat =
        value.toNat % 10 :: Nat.digits 10 (value.toNat / 10) :=
      Nat.digits_def' (by decide) (Nat.pos_of_ne_zero hpos)
    have hdiv : (value / 10).toNat = value.toNat / 10 := UInt64.toNat_div _ _
    rw [ih, hdiv, hdigits, List.map_cons, List.length_cons, toUInt8_digit,
      show ptr + 1 = ptr + [digitChar (value.toNat % 10)].length from rfl, store_store,
      List.singleton_append, Nat.add_assoc, List.length_singleton, Nat.add_comm 1]

/-- **The second loop** leaves the bytes in the opposite order, and all others as they are. -/
theorem reverseLoop_apply (m : Mem) (start last x : ℕ) : reverseLoop m start last x =
    if start ≤ x ∧ x ≤ last then m (start + last - x) else m x := by
  fun_induction reverseLoop m start last with
  | case1 m start last hlt temp ih =>
    rw [ih]
    simp only [store_singleton]
    -- the two ends have been exchanged, and the rest is between them
    rcases eq_or_ne x start with rfl | hstart
    · rw [if_neg (by omega), if_neg (by omega), if_pos rfl, if_pos (by omega),
        Nat.add_sub_cancel_left]
    · rcases eq_or_ne x last with rfl | hlast
      · rw [if_neg (by omega), if_pos rfl, if_pos (by omega), Nat.add_sub_cancel]
      · by_cases hin : start < x ∧ x < last
        · rw [if_pos (by omega), if_neg (by omega), if_neg (by omega), if_pos (by omega),
            show start + 1 + (last - 1) - x = start + last - x by omega]
        · rw [if_neg (by omega), if_neg hlast, if_neg hstart, if_neg (by omega)]
  | case2 m start last hlt =>
    split_ifs with hin
    · rw [show start + last - x = x by omega]
    · rfl

/-- Bytes that are stored and then reversed. -/
theorem reverseLoop_store {l r : List UInt8} (hl : l ≠ []) :
    reverseLoop (m.store ⟨start, l ++ r⟩) start (start + l.length - 1) =
      m.store ⟨start, l.reverse ++ r⟩ := by
  have hpos := List.length_pos_iff.mpr hl
  funext x
  rw [reverseLoop_apply, store_mk, store_mk, store_mk, List.length_append, List.length_append,
    List.length_reverse]
  by_cases hin : start ≤ x ∧ x < start + l.length
  · rw [if_pos (by omega), if_pos (by omega), if_pos (by omega),
      List.getD_append _ _ _ _ (by omega),
      List.getD_append _ _ _ _ (by rw [List.length_reverse]; omega),
      List.getD_reverse _ (by omega)]
    congr 1
    omega
  · rw [if_neg (by omega)]
    split_ifs
    · -- behind the bytes that are reversed
      rw [List.getD_append_right _ _ _ _ (by omega),
        List.getD_append_right _ _ _ _ (by rw [List.length_reverse]; omega), List.length_reverse]
    · rfl

/-! ### The string -/

/-- What is stored before it is reversed. -/
theorem digits_eq (m : Mem) (value : UInt64) (buffer : ℕ) :
    (if value = 0 then (m.store ⟨buffer, [48]⟩, buffer + 1) else digitLoop m buffer value) =
      (m.store ⟨buffer, (lowFirst value.toNat).map digitChar⟩,
        buffer + (lowFirst value.toNat).length) := by
  split_ifs with h0
  · rw [h0]
    rfl
  · have hpos : value.toNat ≠ 0 := fun hv => h0 (UInt64.toNat_inj.mp hv)
    rw [digitLoop_eq, lowFirst, if_neg hpos]

/-- The decimal of a number, highest digit first. -/
def decimal (value : UInt64) : CString where
  bytes := ((lowFirst value.toNat).map digitChar).reverse
  nul_notMem := by
    intro h0
    obtain ⟨d, hd, hzero⟩ := List.mem_map.mp (List.mem_reverse.mp h0)
    have := (digitChar_isDigit (lt_of_mem_lowFirst hd)).1
    rw [hzero] at this
    exact absurd this (by decide)

@[simp]
theorem length_decimal (value : UInt64) :
    (decimal value).length = (lowFirst value.toNat).length := by
  rw [CString.length, decimal, List.length_reverse, List.length_map]

/-- The decimal of a number is one without leading zeros. -/
theorem canonical_decimal (value : UInt64) : Canonical (decimal value) value.toNat where
  isDigit := by
    intro c hc
    obtain ⟨d, hd, rfl⟩ := List.mem_map.mp (List.mem_reverse.mp hc)
    exact digitChar_isDigit (lt_of_mem_lowFirst hd)
  length_pos := by
    rw [length_decimal]
    exact List.length_pos_iff.mpr (lowFirst_ne_nil _)
  length_le := by
    rw [length_decimal]
    exact length_lowFirst_le value.toNat_lt
  no_leading_zero := by
    intro h
    rw [decimal, List.head?_reverse, List.getLast?_map] at h
    obtain ⟨d, hd, hchar⟩ := Option.map_eq_some_iff.mp h
    have hlt := lt_of_mem_lowFirst (List.mem_of_getLast? hd)
    have hnat : 48 + d = 48 := (toNat_digitChar hlt).symm.trans (congrArg UInt8.toNat hchar)
    obtain rfl : d = 0 := by omega
    rw [length_decimal]
    exact eq_zero_of_getLast_lowFirst hd
  value_eq := by
    rw [decimal, decimalValue_reverse fun d hd => lt_of_mem_lowFirst hd, ofDigits_lowFirst]

/-- **What the call leaves in memory**: the decimal of the number, and the zero behind it. -/
theorem uint64ToString_eq (m : Mem) (value : UInt64) (buffer : ℕ) :
    uint64ToString m value buffer = m.store ⟨buffer, (decimal value).terminated⟩ := by
  have hne : (lowFirst value.toNat).map digitChar ≠ [] :=
    fun h => lowFirst_ne_nil _ (List.map_eq_nil_iff.mp h)
  rw [uint64ToString, digits_eq, ← List.length_map digitChar, store_store, reverseLoop_store hne]
  rfl

/-- **`uint64_to_string` prints canonical decimal**: it leaves a string in the buffer, ended by a
zero, of one to twenty decimal digits, without a leading zero unless the number is zero, and they
are the digits of the number. Nothing but the buffer is written. -/
theorem uint64ToString_canonical (m : Mem) (value : UInt64) (buffer : ℕ) :
    ∃ s : CString, (uint64ToString m value buffer).BytesAt buffer s.terminated ∧
      Canonical s value.toNat ∧
      ∀ x, ¬(buffer ≤ x ∧ x ≤ buffer + s.length) → uint64ToString m value buffer x = m x := by
  refine ⟨decimal value, fun i hi => ?_, canonical_decimal value, fun x hx => ?_⟩
  · rw [uint64ToString_eq]
    exact bytesAt_store i hi
  · rw [uint64ToString_eq, store_mk, CString.length_terminated, if_neg (by omega)]

end Decimal

end WillowOS
