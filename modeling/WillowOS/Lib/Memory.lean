import Mathlib.Algebra.Order.Ring.Nat

/-!
# A byte-addressed memory

A memory is a function from addresses to bytes. Words are read and written
little-endian, byte by byte, so that a block cleared byte by byte reads as zero
words, and writes to words that do not overlap do not see one another.
-/

namespace WillowOS

/-- A memory, byte by byte. -/
def Mem : Type := ℕ → UInt8

namespace Mem

variable {m m' : Mem} {a b n v : ℕ}

/-- `memset(a, c, n)`. -/
def memset (m : Mem) (a : ℕ) (c : UInt8) (n : ℕ) : Mem :=
  fun x => if a ≤ x ∧ x < a + n then c else m x

/-- The loop of `memcpy(dest, src, n)`, one byte after the other. -/
def memcpy (m : Mem) (dest src : ℕ) : ℕ → Mem
  | 0 => m
  | n + 1 => fun x =>
    if x = dest + n then m.memcpy dest src n (src + n) else m.memcpy dest src n x

/-- The `n` bytes at `a`, as a little-endian number. -/
def readLE (m : Mem) (a : ℕ) : ℕ → ℕ
  | 0 => 0
  | n + 1 => (m a).toNat + 256 * readLE m (a + 1) n

/-- The `n` bytes at `a` replaced by those of `v`, lowest first. -/
def writeLE (m : Mem) (a n v : ℕ) : Mem :=
  fun x => if a ≤ x ∧ x < a + n then UInt8.ofNat (v / 256 ^ (x - a)) else m x

/-- The 64-bit word at `a`. -/
def read64 (m : Mem) (a : ℕ) : ℕ := m.readLE a 8

/-- The 64-bit word at `a` replaced by `v`. -/
def write64 (m : Mem) (a v : ℕ) : Mem := m.writeLE a 8 v

theorem memset_of_mem {c : UInt8} {x : ℕ} (h1 : a ≤ x) (h2 : x < a + n) : m.memset a c n x = c :=
  if_pos ⟨h1, h2⟩

theorem memset_of_notMem {c : UInt8} {x : ℕ} (h : ¬(a ≤ x ∧ x < a + n)) :
    m.memset a c n x = m x :=
  if_neg h

theorem memcpy_succ {x : ℕ} : m.memcpy a b (n + 1) x =
    if x = a + n then m.memcpy a b n (b + n) else m.memcpy a b n x := rfl

/-- What is not copied to is not changed. -/
theorem memcpy_of_notMem {x : ℕ} (h : ¬(a ≤ x ∧ x < a + n)) : m.memcpy a b n x = m x := by
  induction n with
  | zero => rfl
  | succ n ih => rw [memcpy_succ, if_neg (by omega), ih (by omega)]

/-- **Between blocks that do not overlap, a copy is a copy.** -/
theorem memcpy_of_mem {x : ℕ} (h : a + n ≤ b ∨ b + n ≤ a) (h1 : a ≤ x) (h2 : x < a + n) :
    m.memcpy a b n x = m (b + (x - a)) := by
  induction n with
  | zero => omega
  | succ n ih =>
    rw [memcpy_succ]
    split_ifs with hx
    · rw [memcpy_of_notMem (by omega), hx, Nat.add_sub_cancel_left]
    · exact ih (by omega) (by omega)

/-- A word depends on its own bytes only. -/
theorem readLE_congr (h : ∀ x, a ≤ x → x < a + n → m x = m' x) :
    m.readLE a n = m'.readLE a n := by
  induction n generalizing a with
  | zero => rfl
  | succ n ih =>
    rw [readLE, readLE, h a le_rfl (by omega), ih fun x h1 h2 => h x (by omega) (by omega)]

/-- A word reads as it was written, up to its size. -/
theorem readLE_writeLE : (m.writeLE a n v).readLE a n = v % 256 ^ n := by
  induction n generalizing a v with
  | zero => simp [readLE, Nat.mod_one]
  | succ n ih =>
    -- past its first byte, the word written is the rest of the number one byte up
    have hrest : (m.writeLE a (n + 1) v).readLE (a + 1) n =
        (m.writeLE (a + 1) n (v / 256)).readLE (a + 1) n := by
      refine readLE_congr fun x h1 h2 => ?_
      rw [writeLE, writeLE, if_pos ⟨by omega, by omega⟩, if_pos ⟨h1, h2⟩, Nat.div_div_eq_div_mul,
        ← pow_succ', show x - (a + 1) + 1 = x - a by omega]
    have hbyte : ((m.writeLE a (n + 1) v) a).toNat = v % 256 := by
      rw [writeLE, if_pos ⟨le_rfl, by omega⟩]
      simp
    rw [readLE, hrest, ih, hbyte, pow_succ', Nat.mod_mul]

/-- A number that is read fits its bytes. -/
theorem readLE_lt : m.readLE a n < 256 ^ n := by
  induction n generalizing a with
  | zero => exact Nat.one_pos
  | succ n ih =>
    have hbyte := (m a).toNat_lt
    have := @ih (a + 1)
    rw [readLE, pow_succ]
    omega

theorem read64_lt : m.read64 a < 2 ^ 64 := readLE_lt

/-- A word is not changed by a write that does not overlap it. -/
theorem readLE_writeLE_of_disjoint {k : ℕ} (h : a + n ≤ b ∨ b + k ≤ a) :
    (m.writeLE b k v).readLE a n = m.readLE a n := by
  refine readLE_congr fun x h1 h2 => ?_
  exact if_neg (by omega)

@[simp] theorem read64_write64 (hv : v < 2 ^ 64) : (m.write64 a v).read64 a = v := by
  rw [write64, read64, readLE_writeLE]
  exact Nat.mod_eq_of_lt (by simpa using hv)

theorem read64_write64_of_disjoint (h : a + 8 ≤ b ∨ b + 8 ≤ a) :
    (m.write64 b v).read64 a = m.read64 a :=
  readLE_writeLE_of_disjoint h

/-- A cleared memory reads as zero. -/
theorem readLE_zero : readLE (fun _ => 0) a n = 0 := by
  induction n generalizing a with
  | zero => rfl
  | succ n ih =>
    show (0 : UInt8).toNat + 256 * readLE (fun _ => 0) (a + 1) n = 0
    rw [ih]
    rfl

theorem read64_zero : read64 (fun _ => 0) a = 0 := readLE_zero

/-- The bytes of a number that reads as zero. -/
theorem eq_zero_of_readLE {x : ℕ} (h : m.readLE a n = 0) (h1 : a ≤ x) (h2 : x < a + n) :
    m x = 0 := by
  induction n generalizing a with
  | zero => omega
  | succ n ih =>
    rw [readLE] at h
    rcases Nat.eq_or_lt_of_le h1 with rfl | hlt
    · exact UInt8.toNat_inj.mp (by rw [UInt8.toNat_zero]; omega)
    · exact ih (a := a + 1) (by omega) hlt (by omega)

/-- **Clearing a word changes nothing exactly when it reads as zero.** -/
theorem write64_zero_eq_self : m.write64 a 0 = m ↔ m.read64 a = 0 := by
  constructor
  · intro h
    rw [← h]
    exact read64_write64 (by decide)
  · intro h
    funext x
    rw [write64, writeLE]
    split
    next hx => rw [eq_zero_of_readLE h hx.1 hx.2, Nat.zero_div]; rfl
    next => rfl

/-- A word of a cleared block is zero. -/
theorem read64_memset_zero (h1 : b ≤ a) (h2 : a + 8 ≤ b + n) :
    (m.memset b 0 n).read64 a = 0 := by
  have hzero : (m.memset b 0 n).read64 a = read64 (fun _ => 0) a :=
    readLE_congr fun x _ _ => memset_of_mem (by omega) (by omega)
  rw [hzero, read64_zero]

/-- A word outside a cleared block is not changed. -/
theorem read64_memset_of_disjoint {c : UInt8} (h : a + 8 ≤ b ∨ b + n ≤ a) :
    (m.memset b c n).read64 a = m.read64 a :=
  readLE_congr fun x _ _ => memset_of_notMem (by omega)

end Mem

end WillowOS
