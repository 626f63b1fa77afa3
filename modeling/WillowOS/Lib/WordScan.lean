import WillowOS.Lib.Memory
import Mathlib.Data.BitVec
import Mathlib.Algebra.Order.Ring.Nat

/-!
# Looking for a byte a word at a time

`(x - 0x01…01) & ~x & 0x80…80` is not zero exactly if one of the bytes of `x` is
(**`WillowOS.WordScan.hasZero_eq_zero_iff`**). The proof peels off one byte at a time, lowest
first: a byte that is not zero lends nothing to the ones above it and leaves no bit of its own, and
one that is zero leaves its top bit, whatever the bytes above it are. So the test says that there
is a zero byte, but not where.

A scan goes from an address in steps of `d` to the first one that passes a test, and keeps a list
of the addresses it has tested.
-/

namespace WillowOS

namespace WordScan

/-! ### The test -/

/-- The word of `n` bytes that are all `1`. -/
def ones : ℕ → ℕ
  | 0 => 0
  | n + 1 => 1 + 256 * ones n

/-- The test for a zero byte, on words of `n` bytes. -/
def hasZero (n x : ℕ) : ℕ :=
  (x + 256 ^ n - ones n) % 256 ^ n &&& (256 ^ n - 1 - x) &&& 128 * ones n

variable {n x y b c e : ℕ} {m : Mem} {a : ℕ}

theorem ones_lt : ones n < 256 ^ n := by
  induction n with
  | zero => exact Nat.one_pos
  | succ n ih =>
    rw [ones, Nat.pow_succ]
    omega

/-- Conjunction goes byte by byte. -/
theorem land_byte (hb : b < 256) (he : e < 256) :
    (b + 256 * x) &&& (e + 256 * y) = (b &&& e) + 256 * (x &&& y) := by
  have hlow : ((b + 256 * x) &&& (e + 256 * y)) % 2 ^ 8 = b &&& e := by
    rw [Nat.and_mod_two_pow]
    congr 1 <;> omega
  have hhigh : ((b + 256 * x) &&& (e + 256 * y)) / 2 ^ 8 = x &&& y := by
    rw [Nat.and_div_two_pow]
    congr 1 <;> omega
  omega

/-- What a byte that is not zero leaves of itself. -/
theorem byte_of_pos : ∀ b < 256, 0 < b → (b - 1) &&& (255 - b) &&& 128 = 0 := by decide +kernel

theorem mod_byte (hb : b < 256) : (b + 256 * x) % (256 * y) = b + 256 * (x % y) := by
  rw [Nat.mod_mul, Nat.add_mul_mod_self_left, Nat.mod_eq_of_lt hb,
    Nat.add_mul_div_left _ _ (by decide), Nat.div_eq_of_lt hb, Nat.zero_add]

/-- The lowest byte decides, or leaves it to the others. -/
theorem hasZero_succ (hb : b < 256) (hx : x < 256 ^ n) :
    hasZero (n + 1) (b + 256 * x) = 0 ↔ b ≠ 0 ∧ hasZero n x = 0 := by
  have hones : ones n < 256 ^ n := ones_lt
  have hpow : 256 ^ (n + 1) = 256 * 256 ^ n := by rw [Nat.pow_succ, Nat.mul_comm]
  have hnot : 256 ^ (n + 1) - 1 - (b + 256 * x) = (255 - b) + 256 * (256 ^ n - 1 - x) := by omega
  have hhigh : 128 * ones (n + 1) = 128 + 256 * (128 * ones n) := by
    rw [ones]
    omega
  rw [hasZero, hnot, hhigh, hpow]
  rcases Nat.eq_zero_or_pos b with rfl | hpos
  · -- the subtraction borrows, and the byte becomes `0xff`
    have hsub : (0 + 256 * x + 256 * 256 ^ n - ones (n + 1)) % (256 * 256 ^ n) =
        255 + 256 * ((x + 256 ^ n - ones n - 1) % 256 ^ n) := by
      rw [ones, show 0 + 256 * x + 256 * 256 ^ n - (1 + 256 * ones n) =
        255 + 256 * (x + 256 ^ n - ones n - 1) by omega, mod_byte (by decide)]
    rw [hsub, land_byte (by decide) (by decide), land_byte (by decide) (by decide)]
    refine iff_of_false ?_ fun h => h.1 rfl
    rw [show (255 &&& (255 - 0) &&& 128 : ℕ) = 128 by decide]
    omega
  · have hsub : (b + 256 * x + 256 * 256 ^ n - ones (n + 1)) % (256 * 256 ^ n) =
        (b - 1) + 256 * ((x + 256 ^ n - ones n) % 256 ^ n) := by
      rw [ones, show b + 256 * x + 256 * 256 ^ n - (1 + 256 * ones n) =
        (b - 1) + 256 * (x + 256 ^ n - ones n) by omega, mod_byte (by omega)]
    have hand : (b - 1) &&& (255 - b) < 256 := Nat.lt_of_le_of_lt Nat.and_le_left (by omega)
    rw [hsub, land_byte (by omega) (by omega), land_byte hand (by decide), byte_of_pos b hb hpos]
    rw [hasZero]
    omega

/-- **The test finds a zero byte exactly if there is one.** -/
theorem hasZero_eq_zero_iff : hasZero n (m.readLE a n) = 0 ↔ ∀ i < n, m (a + i) ≠ 0 := by
  induction n generalizing a with
  | zero =>
    rw [Mem.readLE]
    exact iff_of_true (by decide) fun i hi => absurd hi (Nat.not_lt_zero i)
  | succ n ih =>
    rw [Mem.readLE, hasZero_succ (m a).toNat_lt Mem.readLE_lt, ih]
    constructor
    · rintro ⟨h0, h⟩ i hi
      cases i with
      | zero => exact fun hz => h0 (congrArg UInt8.toNat hz)
      | succ i =>
        rw [show a + (i + 1) = a + 1 + i by omega]
        exact h i (by omega)
    · intro h
      refine ⟨fun hz => h 0 (by omega) (UInt8.toNat.inj hz), fun i hi => ?_⟩
      rw [show a + 1 + i = a + (i + 1) by omega]
      exact h (i + 1) (by omega)

/-- Exclusive disjunction goes byte by byte. -/
theorem xor_byte (hb : b < 256) (he : e < 256) :
    (b + 256 * x) ^^^ (e + 256 * y) = (b ^^^ e) + 256 * (x ^^^ y) := by
  have hlow : ((b + 256 * x) ^^^ (e + 256 * y)) % 2 ^ 8 = b ^^^ e := by
    rw [Nat.xor_mod_two_pow]
    congr 1 <;> omega
  have hhigh : ((b + 256 * x) ^^^ (e + 256 * y)) / 2 ^ 8 = x ^^^ y := by
    rw [Nat.xor_div_two_pow]
    congr 1 <;> omega
  omega

/-- A memory with every byte compared with `c`. -/
def xorMem (m : Mem) (c : UInt8) : Mem := fun x => m x ^^^ c

/-- A byte repeated in a word is taken off every byte of it. -/
theorem readLE_xorMem (c : UInt8) :
    (xorMem m c).readLE a n = m.readLE a n ^^^ ones n * c.toNat := by
  induction n generalizing a with
  | zero =>
    change 0 = 0 ^^^ 0 * c.toNat
    rw [Nat.zero_mul, Nat.xor_zero]
  | succ n ih =>
    change (m a ^^^ c).toNat + 256 * (xorMem m c).readLE (a + 1) n =
      ((m a).toNat + 256 * m.readLE (a + 1) n) ^^^ (1 + 256 * ones n) * c.toNat
    rw [ih, UInt8.toNat_xor, Nat.add_mul, Nat.one_mul, Nat.mul_assoc,
      xor_byte (m a).toNat_lt c.toNat_lt]

/-! ### Scans -/

/-- From `a` on in steps of `d` to the first address that passes the test, with the addresses
tested; `none` if there was not enough fuel. -/
def scan (p : ℕ → Bool) (d : ℕ) : ℕ → ℕ → Option (List ℕ × ℕ)
  | 0, _ => none
  | fuel + 1, a =>
    if p a then some ([a], a)
    else (scan p d fuel (a + d)).map fun r => (a :: r.1, r.2)

/-- The addresses a scan tests up to the `k`-th. -/
def tested (d a k : ℕ) : List ℕ := (List.range (k + 1)).map fun i => a + d * i

variable {p : ℕ → Bool} {d k fuel : ℕ}

theorem tested_succ : tested d a (k + 1) = a :: tested d (a + d) k := by
  rw [tested, List.range_succ_eq_map, List.map_cons, List.map_map, tested]
  congr 1
  refine List.map_congr_left fun i _ => ?_
  rw [Function.comp_apply, Nat.mul_succ]
  omega

theorem mem_tested {z : ℕ} : z ∈ tested d a k ↔ ∃ i ≤ k, a + d * i = z := by
  rw [tested, List.mem_map]
  exact exists_congr fun i => and_congr_left fun _ => by rw [List.mem_range, Nat.lt_succ_iff]

/-- **A scan stops at the first address that passes**, given fuel to get there. -/
theorem scan_eq (h : ∀ i < k, p (a + d * i) = false) (hk : p (a + d * k) = true)
    (hf : k < fuel) : scan p d fuel a = some (tested d a k, a + d * k) := by
  induction k generalizing a fuel with
  | zero =>
    cases fuel with
    | zero => omega
    | succ fuel => exact if_pos hk
  | succ k ih =>
    cases fuel with
    | zero => omega
    | succ fuel =>
      have h0 : p a = false := h 0 (by omega)
      have hnext (i : ℕ) : a + d * (i + 1) = a + d + d * i := by
        rw [Nat.mul_succ]
        omega
      have hrest := @ih (a + d) fuel (fun i hi => hnext i ▸ h (i + 1) (by omega)) (hnext k ▸ hk)
        (by omega)
      rw [scan, h0, hrest, tested_succ, hnext]
      rfl

/-! ### Bytes, words, bytes -/

/-- A scan for the first address where `stop` holds: byte by byte up to a multiple of `A`, then in
words as long as `word` finds nothing in them, then byte by byte again. Besides the address it
returns those of the bytes and of the words that were read. -/
def wordScan (A : ℕ) (stop word : ℕ → Bool) (fuel s : ℕ) : Option (ℕ × List ℕ × List ℕ) :=
  (scan (fun a => a % A = 0 || stop a) 1 fuel s).bind fun r₁ =>
    if r₁.2 % A ≠ 0 then some (r₁.2, r₁.1, [])
    else (scan word 8 fuel r₁.2).bind fun r₂ =>
      (scan stop 1 fuel r₂.2).map fun r₃ => (r₃.2, r₁.1.filter (· % A ≠ 0) ++ r₃.1, r₂.1)

/-- The next multiple of `A`. -/
theorem exists_aligned {A : ℕ} (hA : 0 < A) (s : ℕ) :
    ∃ r, (s + r) % A = 0 ∧ ∀ i < r, (s + i) % A ≠ 0 := by
  have hex : ∃ r, (s + r) % A = 0 := by
    refine ⟨A - s % A, ?_⟩
    have hlt := Nat.mod_lt s hA
    have hdiv := Nat.div_add_mod s A
    rw [show s + (A - s % A) = A * (s / A) + A by omega, Nat.mul_add_mod, Nat.mod_self]
  exact ⟨Nat.find hex, Nat.find_spec hex, fun i hi => Nat.find_min hex hi⟩

/-- **The three scans find the first address**, and read nothing after it but the rest of its
word. -/
theorem wordScan_eq {A s : ℕ} (stop word : ℕ → Bool) (hA : 0 < A)
    (hword : ∀ a, word a = true ↔ ∃ j < 8, stop (a + j) = true)
    (hs : ∀ i < n, stop (s + i) = false) (hn : stop (s + n) = true) (hf : n < fuel) :
    ∃ bs ws, wordScan A stop word fuel s = some (s + n, bs, ws) ∧
      (∀ z ∈ bs, s ≤ z ∧ z ≤ s + n) ∧
      ∀ w ∈ ws, s ≤ w ∧ w ≤ s + n ∧ ∃ r i, r % A = 0 ∧ w = r + 8 * i := by
  obtain ⟨r, hr, hrlt⟩ := exists_aligned hA s
  have hbytes {a k : ℕ} (hle : s ≤ a) (hk : a + k ≤ s + n) :
      ∀ z ∈ tested 1 a k, s ≤ z ∧ z ≤ s + n := by
    intro z hz
    obtain ⟨i, hi, rfl⟩ := mem_tested.mp hz
    omega
  rcases Nat.lt_or_ge n r with hnr | hnr
  · -- found before the first multiple
    have h₁ : scan (fun a => a % A = 0 || stop a) 1 fuel s = some (tested 1 s n, s + 1 * n) := by
      refine scan_eq (fun i hi => ?_) ?_ hf
      · rw [Nat.one_mul, hs i hi, Bool.or_false]
        exact decide_eq_false (hrlt i (by omega))
      · rw [Nat.one_mul, hn, Bool.or_true]
    refine ⟨tested 1 s n, [], ?_, hbytes (Nat.le_refl s) (Nat.le_refl _),
      fun w hw => absurd hw List.not_mem_nil⟩
    rw [wordScan, h₁, Option.bind_some, Nat.one_mul, if_pos (hrlt n hnr)]
  · have h₁ : scan (fun a => a % A = 0 || stop a) 1 fuel s = some (tested 1 s r, s + 1 * r) := by
      refine scan_eq (fun i hi => ?_) ?_ (by omega)
      · rw [Nat.one_mul, hs i (by omega), Bool.or_false]
        exact decide_eq_false (hrlt i hi)
      · rw [Nat.one_mul, hr]
        rfl
    -- the word that has the address in it is the first with a hit
    have h₂ : scan word 8 fuel (s + r) =
        some (tested 8 (s + r) ((n - r) / 8), s + r + 8 * ((n - r) / 8)) := by
      refine scan_eq (fun i hi => ?_) ((hword _).mpr ⟨(n - r) % 8, by omega, ?_⟩) (by omega)
      · refine Bool.eq_false_iff.mpr fun hw => ?_
        obtain ⟨j, hj, hstop⟩ := (hword _).mp hw
        rw [show s + r + 8 * i + j = s + (r + 8 * i + j) by omega,
          hs (r + 8 * i + j) (by omega)] at hstop
        cases hstop
      · rwa [show s + r + 8 * ((n - r) / 8) + (n - r) % 8 = s + n by omega]
    have h₃ : scan stop 1 fuel (s + r + 8 * ((n - r) / 8)) =
        some (tested 1 (s + r + 8 * ((n - r) / 8)) ((n - r) % 8), s + n) := by
      have hend : s + r + 8 * ((n - r) / 8) + 1 * ((n - r) % 8) = s + n := by omega
      rw [← hend]
      refine scan_eq (fun i hi => ?_) (hend ▸ hn) (by omega)
      rw [show s + r + 8 * ((n - r) / 8) + 1 * i = s + (r + 8 * ((n - r) / 8) + i) by omega]
      exact hs _ (by omega)
    refine ⟨(tested 1 s r).filter (· % A ≠ 0) ++ tested 1 (s + r + 8 * ((n - r) / 8)) ((n - r) % 8),
      tested 8 (s + r) ((n - r) / 8), ?_, fun z hz => ?_, fun w hw => ?_⟩
    · rw [wordScan, h₁, Option.bind_some, Nat.one_mul, if_neg (not_not.mpr hr), h₂,
        Option.bind_some, h₃, Option.map_some]
    · rcases List.mem_append.mp hz with hz | hz
      · exact hbytes (Nat.le_refl s) (by omega) z (List.mem_filter.mp hz).1
      · exact hbytes (by omega) (by omega) z hz
    · obtain ⟨i, hi, rfl⟩ := mem_tested.mp hw
      exact ⟨by omega, by omega, s + r, i, hr, rfl⟩

/-- A scan that ends where it begins, at a multiple of `A`, has read the whole word there. -/
theorem wordScan_of_aligned {A s : ℕ} (stop word : ℕ → Bool) (hs : s % A = 0)
    (hstop : stop s = true) (hword : word s = true) (hf : 0 < fuel) :
    ∃ bs, wordScan A stop word fuel s = some (s, bs, [s]) := by
  have hhere {p : ℕ → Bool} {d : ℕ} (hp : p s = true) : scan p d fuel s = some ([s], s) :=
    scan_eq (k := 0) (fun i hi => absurd hi (Nat.not_lt_zero i)) hp hf
  have halign : (decide (s % A = 0) || stop s) = true := by rw [hstop, Bool.or_true]
  refine ⟨[s].filter (· % A ≠ 0) ++ [s], ?_⟩
  rw [wordScan, hhere halign, Option.bind_some, if_neg (not_not.mpr hs), hhere hword,
    Option.bind_some, hhere hstop, Option.map_some]

end WordScan

end WillowOS
