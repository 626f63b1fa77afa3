import Mathlib.Algebra.Order.Ring.Nat
import Mathlib.Tactic.Linarith

/-!
# The time stamp counter

`tsc.c` reads the time off the time stamp counter, and converts between ticks of the counter and
nanoseconds. Both conversions are computed in 64 bits:

* `tsc_ticks_to_ns` splits the ticks into whole seconds and a rest before it multiplies by the
  nanoseconds of a second. Below a frequency of `(2 ^ 64 - 1) / 10 ^ 9` no product overflows, and
  the result is the exact one, rounded down (`WillowOS.Tsc.toNat_tscTicksToNs`);
* `tsc_ns_to_ticks` multiplies first. The product is the frequency times the nanoseconds, which
  stays below `2 ^ 64` for a few seconds at the rate of a processor.

There and back is then within one tick of the rounding as long as the second product fits
(`WillowOS.Tsc.toNat_tscNsToTicks`), and never after that: one overflow takes away more ticks than
rounding can.

The counter itself is an argument, and so is `tsc_freq`.
-/

namespace WillowOS

namespace Tsc

/-- `ONE_SECOND`, in nanoseconds. -/
def oneSecond : UInt64 := 1000000000

/-- `tsc_ns_to_ticks`. -/
def tscNsToTicks (tscFreq time : UInt64) : UInt64 := tscFreq * time / oneSecond

/-- `tsc_ticks_to_ns`. -/
def tscTicksToNs (tscFreq ticks : UInt64) : UInt64 :=
  let quot := ticks / tscFreq
  let rem := ticks % tscFreq
  quot * oneSecond + rem * oneSecond / tscFreq

/-- `tsc_read_ns`, where the counter is at `ticks`. -/
def tscReadNs (tscFreq ticks : UInt64) : UInt64 := tscTicksToNs tscFreq ticks

/-- `tsc_read_ms`. -/
def tscReadMs (tscFreq ticks : UInt64) : UInt64 := tscReadNs tscFreq ticks / 1000000

/-- `tsc_read_s`. -/
def tscReadS (tscFreq ticks : UInt64) : UInt64 := tscReadMs tscFreq ticks / 1000

@[simp]
theorem toNat_oneSecond : oneSecond.toNat = 10 ^ 9 := rfl

/-- The exact number of nanoseconds, rounded down. -/
def nanoseconds (tscFreq ticks : UInt64) : ℕ := ticks.toNat * 10 ^ 9 / tscFreq.toNat

/-- **Splitting a product before a division**: whole divisors and the rest are converted apart, and
nothing is lost. -/
theorem div_mul_add_mod_mul_div {b : ℕ} (hb : 0 < b) (a c : ℕ) :
    a / b * c + a % b * c / b = a * c / b := by
  have hsplit : a * c = b * (a / b * c) + a % b * c := by
    rw [← mul_assoc, ← add_mul, Nat.div_add_mod]
  rw [hsplit, Nat.mul_add_div hb]

/-! ### Ticks to nanoseconds -/

section TicksToNs

variable {tscFreq ticks : UInt64}

theorem nanoseconds_mono (tscFreq : UInt64) {ticks' : UInt64} (h : ticks ≤ ticks') :
    nanoseconds tscFreq ticks ≤ nanoseconds tscFreq ticks' :=
  Nat.div_le_div_right (Nat.mul_le_mul_right _ (UInt64.le_iff_toNat_le.mp h))

theorem split_eq_nanoseconds (ticks : UInt64) (h0 : 0 < tscFreq.toNat) :
    ticks.toNat / tscFreq.toNat * 10 ^ 9 + ticks.toNat % tscFreq.toNat * 10 ^ 9 / tscFreq.toNat =
      nanoseconds tscFreq ticks :=
  div_mul_add_mod_mul_div h0 _ _

/-- The seconds, in nanoseconds, are no more than the result. -/
theorem toNat_quot_mul (h0 : 0 < tscFreq.toNat) (hfits : nanoseconds tscFreq ticks < 2 ^ 64) :
    (ticks / tscFreq).toNat * oneSecond.toNat < 2 ^ 64 := by
  rw [UInt64.toNat_div, toNat_oneSecond]
  calc ticks.toNat / tscFreq.toNat * 10 ^ 9
      ≤ ticks.toNat / tscFreq.toNat * 10 ^ 9 +
          ticks.toNat % tscFreq.toNat * 10 ^ 9 / tscFreq.toNat := Nat.le_add_right _ _
    _ = nanoseconds tscFreq ticks := split_eq_nanoseconds ticks h0
    _ < 2 ^ 64 := hfits

/-- The rest is less than a second, and the frequency is one whose seconds fit. -/
theorem toNat_rem_mul (ticks : UInt64) (h0 : 0 < tscFreq.toNat)
    (hfreq : tscFreq.toNat ≤ (2 ^ 64 - 1) / 10 ^ 9) :
    (ticks % tscFreq).toNat * oneSecond.toNat < 2 ^ 64 := by
  have hlt : ticks.toNat % tscFreq.toNat < tscFreq.toNat := Nat.mod_lt _ h0
  rw [UInt64.toNat_mod, toNat_oneSecond]
  omega

/-- **`tsc_ticks_to_ns` is exact.** -/
theorem toNat_tscTicksToNs (h0 : 0 < tscFreq.toNat)
    (hfreq : tscFreq.toNat ≤ (2 ^ 64 - 1) / 10 ^ 9) (hfits : nanoseconds tscFreq ticks < 2 ^ 64) :
    (tscTicksToNs tscFreq ticks).toNat = nanoseconds tscFreq ticks := by
  have hquot := toNat_quot_mul h0 hfits
  have hrem := toNat_rem_mul ticks h0 hfreq
  have hsplit := split_eq_nanoseconds ticks h0
  rw [UInt64.toNat_div, toNat_oneSecond] at hquot
  rw [UInt64.toNat_mod, toNat_oneSecond] at hrem
  rw [tscTicksToNs, UInt64.toNat_add, UInt64.toNat_mul, UInt64.toNat_div, UInt64.toNat_div,
    UInt64.toNat_mul, UInt64.toNat_mod, toNat_oneSecond, Nat.mod_eq_of_lt hquot,
    Nat.mod_eq_of_lt hrem, hsplit, Nat.mod_eq_of_lt hfits]

/-- What `tsc_read_s` returns is whole seconds of the counter: rounding down three times is
rounding down once. -/
theorem toNat_tscReadS (h0 : 0 < tscFreq.toNat) (hfreq : tscFreq.toNat ≤ (2 ^ 64 - 1) / 10 ^ 9)
    (hfits : nanoseconds tscFreq ticks < 2 ^ 64) :
    (tscReadS tscFreq ticks).toNat = ticks.toNat / tscFreq.toNat := by
  rw [tscReadS, tscReadMs, tscReadNs, UInt64.toNat_div, UInt64.toNat_div,
    toNat_tscTicksToNs h0 hfreq hfits, nanoseconds]
  rw [show (1000000 : UInt64).toNat = 10 ^ 6 from rfl, show (1000 : UInt64).toNat = 10 ^ 3 from rfl,
    Nat.div_div_eq_div_mul, ← pow_add, Nat.div_div_eq_div_mul, mul_comm tscFreq.toNat,
    ← Nat.div_div_eq_div_mul, Nat.mul_div_cancel _ (by positivity)]

/-- **The conversion to nanoseconds is exact and monotone**, and no step of it overflows. -/
theorem tscTicksToNs_exact (tscFreq : UInt64) (h0 : 0 < tscFreq.toNat)
    (hfreq : tscFreq.toNat ≤ (2 ^ 64 - 1) / 10 ^ 9) :
    (∀ ticks, nanoseconds tscFreq ticks < 2 ^ 64 →
      (tscTicksToNs tscFreq ticks).toNat = ticks.toNat * 10 ^ 9 / tscFreq.toNat ∧
      (ticks / tscFreq).toNat * oneSecond.toNat < 2 ^ 64 ∧
      (ticks % tscFreq).toNat * oneSecond.toNat < 2 ^ 64 ∧
      (ticks / tscFreq * oneSecond).toNat + (ticks % tscFreq * oneSecond / tscFreq).toNat <
        2 ^ 64) ∧
    ∀ ticks ticks', ticks ≤ ticks' → nanoseconds tscFreq ticks' < 2 ^ 64 →
      tscTicksToNs tscFreq ticks ≤ tscTicksToNs tscFreq ticks' := by
  constructor
  · intro ticks hfits
    have hquot := toNat_quot_mul h0 hfits
    have hrem := toNat_rem_mul ticks h0 hfreq
    refine ⟨toNat_tscTicksToNs h0 hfreq hfits, hquot, hrem, ?_⟩
    have hsplit := split_eq_nanoseconds ticks h0
    rw [UInt64.toNat_mul, Nat.mod_eq_of_lt hquot, UInt64.toNat_div, UInt64.toNat_div,
      UInt64.toNat_mul, Nat.mod_eq_of_lt hrem, UInt64.toNat_mod, toNat_oneSecond, hsplit]
    exact hfits
  · intro ticks ticks' hle hfits
    have hmono := nanoseconds_mono tscFreq hle
    rw [UInt64.le_iff_toNat_le, toNat_tscTicksToNs h0 hfreq (hmono.trans_lt hfits),
      toNat_tscTicksToNs h0 hfreq hfits]
    exact hmono

theorem tscTicksToNs_exact_gigahertz :
    (tscTicksToNs 3000000000 10000000001).toNat = 10000000001 * 10 ^ 9 / 3000000000 :=
  ((tscTicksToNs_exact 3000000000 (by decide) (by decide)).1 10000000001 (by decide)).1

end TicksToNs

/-! ### There and back -/

section RoundTrip

variable {tscFreq : UInt64}

/-- **Multiplying first**: what `tsc_ns_to_ticks` divides is the product modulo `2 ^ 64`. -/
theorem toNat_tscNsToTicks (time : UInt64) :
    (tscNsToTicks tscFreq time).toNat = tscFreq.toNat * time.toNat % 2 ^ 64 / 10 ^ 9 := by
  rw [tscNsToTicks, UInt64.toNat_div, UInt64.toNat_mul, toNat_oneSecond]

/-- The product that `tsc_ns_to_ticks` makes lies below the one the ticks came from, by less than
the frequency. -/
theorem mul_nanoseconds_bounds (ticks : UInt64) (h0 : 0 < tscFreq.toNat) :
    tscFreq.toNat * nanoseconds tscFreq ticks ≤ ticks.toNat * 10 ^ 9 ∧
      ticks.toNat * 10 ^ 9 < tscFreq.toNat * nanoseconds tscFreq ticks + tscFreq.toNat := by
  have hsplit := Nat.div_add_mod (ticks.toNat * 10 ^ 9) tscFreq.toNat
  have hlt := Nat.mod_lt (ticks.toNat * 10 ^ 9) h0
  rw [nanoseconds]
  omega

/-- **There and back is consistent as long as the product on the way back fits**: an overflow takes
away `2 ^ 64 / 10 ^ 9` ticks at least, while the frequency allows for twenty at most. -/
theorem tscNsToTicks_tscTicksToNs_iff (tscFreq ticks : UInt64) (hlow : 10 ^ 6 ≤ tscFreq.toNat)
    (hfreq : tscFreq.toNat ≤ (2 ^ 64 - 1) / 10 ^ 9) (hfits : nanoseconds tscFreq ticks < 2 ^ 64) :
    ((tscNsToTicks tscFreq (tscTicksToNs tscFreq ticks)).toNat ≤ ticks.toNat ∧
      ticks.toNat - (tscNsToTicks tscFreq (tscTicksToNs tscFreq ticks)).toNat ≤
        tscFreq.toNat / 10 ^ 9 + 1) ↔
    tscFreq.toNat * (tscTicksToNs tscFreq ticks).toNat < 2 ^ 64 := by
  have h0 : 0 < tscFreq.toNat := by omega
  obtain ⟨hle, hlt⟩ := mul_nanoseconds_bounds ticks h0
  rw [toNat_tscNsToTicks, toNat_tscTicksToNs h0 hfreq hfits]
  -- from here on only the product counts
  generalize tscFreq.toNat * nanoseconds tscFreq ticks = product at hle hlt ⊢
  omega

theorem tscNsToTicks_tscTicksToNs_second :
    (tscNsToTicks 3000000000 (tscTicksToNs 3000000000 3000000001)).toNat ≤ 3000000001 ∧
      3000000001 - (tscNsToTicks 3000000000 (tscTicksToNs 3000000000 3000000001)).toNat ≤ 4 :=
  (tscNsToTicks_tscTicksToNs_iff 3000000000 3000000001 (by decide) (by decide) (by decide)).mpr
    (by decide)

/-- Ten seconds at 3 GHz: the way back wraps around, and nearly two thirds of the ticks are lost. -/
theorem tscNsToTicks_tscTicksToNs_wraps :
    nanoseconds 3000000000 30000000000 < 2 ^ 64 ∧
      (tscNsToTicks 3000000000 (tscTicksToNs 3000000000 30000000000)).toNat = 11553255926 ∧
      ¬ 30000000000 - (tscNsToTicks 3000000000 (tscTicksToNs 3000000000 30000000000)).toNat ≤
        3000000000 / 10 ^ 9 + 1 := by
  decide

end RoundTrip

end Tsc

end WillowOS
