import Mathlib.Data.List.Basic
import Mathlib.Data.Int.Notation

/-!
# C strings

The bytes of a string before the zero that ends it. `strcmp` compares two of them byte by
byte and returns the difference of the first two bytes that differ, the end of a string
counting as a zero; since no byte before it is zero, it returns `0` for equal strings only
(`WillowOS.CString.strcmp_eq_zero`).
-/

namespace WillowOS

/-- A string, without the zero that ends it. -/
structure CString where
  bytes : List UInt8
  nul_notMem : 0 ∉ bytes
deriving DecidableEq

namespace CString

/-- `strlen`. -/
def length (s : CString) : ℕ := s.bytes.length

/-- The bytes of a string, with the zero that ends it. -/
def terminated (s : CString) : List UInt8 := s.bytes ++ [0]

@[simp]
theorem length_terminated {s : CString} : s.terminated.length = s.length + 1 := by
  rw [terminated, List.length_append, List.length_singleton, length]

/-- The loop of `strcmp`. -/
def compareBytes : List UInt8 → List UInt8 → ℤ
  | [], [] => 0
  | [], b :: _ => 0 - b.toNat
  | a :: _, [] => a.toNat - 0
  | a :: l, b :: r => if a = b then compareBytes l r else a.toNat - b.toNat

/-- `strcmp`. -/
def strcmp (s t : CString) : ℤ := compareBytes s.bytes t.bytes

theorem compareBytes_eq_zero {l r : List UInt8} (hl : 0 ∉ l) (hr : 0 ∉ r) :
    compareBytes l r = 0 ↔ l = r := by
  induction l generalizing r with
  | nil =>
    cases r with
    | nil => simp [compareBytes]
    | cons b r =>
      have hb : b.toNat ≠ 0 := fun h => hr (List.mem_cons.mpr (Or.inl (UInt8.toNat_inj.mp h).symm))
      simp [compareBytes, hb]
  | cons a l ih =>
    cases r with
    | nil =>
      have ha : a.toNat ≠ 0 := fun h => hl (List.mem_cons.mpr (Or.inl (UInt8.toNat_inj.mp h).symm))
      simp [compareBytes, ha]
    | cons b r =>
      rw [compareBytes]
      split_ifs with hab
      · rw [ih (fun h => hl (List.mem_cons_of_mem _ h)) (fun h => hr (List.mem_cons_of_mem _ h))]
        simp [hab]
      · have hne : a.toNat ≠ b.toNat := fun h => hab (UInt8.toNat_inj.mp h)
        constructor
        · intro h
          omega
        · intro h
          exact absurd (List.cons.inj h).1 hab

/-- **`strcmp` returns `0` for equal strings only.** -/
theorem strcmp_eq_zero {s t : CString} : strcmp s t = 0 ↔ s = t := by
  rw [strcmp, compareBytes_eq_zero s.nul_notMem t.nul_notMem, CString.mk.injEq]

end CString

end WillowOS
