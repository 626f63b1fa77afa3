import WillowOS.Lib.Memory

/-!
# A shadow memory

Two memories that the same copies and stores are made in are compared byte by byte, with a
third one that says of each byte where it comes from: the shadow is copied along with the
bytes, and cleared where something is stored. A relation of a byte of the shadow and the two
bytes that holds everywhere, and holds of equal bytes with a cleared shadow, goes on to hold
everywhere.
-/

namespace WillowOS

namespace Mem

/-- The two memories are related everywhere, as the shadow says. -/
def Tracks (P : UInt8 → UInt8 → UInt8 → Prop) (shadow m m' : Mem) : Prop :=
  ∀ x, P (shadow x) (m x) (m' x)

variable {P : UInt8 → UInt8 → UInt8 → Prop} {shadow m m' : Mem}

namespace Tracks

/-- A copy in all three. -/
theorem memcpy (h : Tracks P shadow m m') (dest src n : ℕ) :
    Tracks P (shadow.memcpy dest src n) (m.memcpy dest src n) (m'.memcpy dest src n) := by
  induction n with
  | zero => exact h
  | succ n ih =>
    intro x
    rw [memcpy_succ, memcpy_succ, memcpy_succ]
    split_ifs
    · exact ih _
    · exact ih _

/-- A block filled with the same byte in both. -/
theorem memset (hP : ∀ b, P 0 b b) (h : Tracks P shadow m m') (a : ℕ) (c : UInt8) (n : ℕ) :
    Tracks P (shadow.memset a 0 n) (m.memset a c n) (m'.memset a c n) := by
  intro x
  rw [Mem.memset, Mem.memset, Mem.memset]
  split_ifs
  · exact hP c
  · exact h x

/-- The same word stored in both. -/
theorem write64 (hP : ∀ b, P 0 b b) (h : Tracks P shadow m m') (a v : ℕ) :
    Tracks P (shadow.memset a 0 8) (m.write64 a v) (m'.write64 a v) := by
  intro x
  rw [Mem.memset, Mem.write64, Mem.write64, writeLE, writeLE]
  split_ifs
  · exact hP _
  · exact h x

end Tracks

/-- The `n` bytes at `a`. -/
def bytesAt (m : Mem) (a n : ℕ) : List UInt8 := (List.range n).map fun i => m (a + i)

theorem bytesAt_eq_iff {a n : ℕ} :
    m.bytesAt a n = m'.bytesAt a n ↔ ∀ i < n, m (a + i) = m' (a + i) := by
  simp [bytesAt, List.map_inj_left]

end Mem

end WillowOS
