import Mathlib.Order.Nat
import Mathlib.Tactic.Common

/-!
# Runs of consecutive positions, and the first one

First fit, in its own terms: the positions are the natural numbers, `P` says which
of them are available, and a request of length `n` is served at the least position
from which `n` consecutive ones are available.
-/

namespace WillowOS

variable {P : ℕ → Prop} {i j m n : ℕ}

/-- The `n` positions from `i` on all satisfy `P`. -/
def RunAt (P : ℕ → Prop) (i n : ℕ) : Prop :=
  ∀ j, i ≤ j → j < i + n → P j

/-- **The first fit**: the run of length `n` at `i` is the leftmost one. -/
def FirstRun (P : ℕ → Prop) (n i : ℕ) : Prop :=
  RunAt P i n ∧ ∀ j < i, ¬RunAt P j n

/-- Shifting the positions by one. -/
theorem runAt_succ : RunAt P (i + 1) n ↔ RunAt (fun j => P (j + 1)) i n := by
  constructor
  · exact fun h j hj hjn => h (j + 1) (by omega) (by omega)
  · intro h j hj hjn
    obtain ⟨k, rfl⟩ : ∃ k, j = k + 1 := ⟨j - 1, by omega⟩
    exact h k (by omega) (by omega)

/-- A run is a position followed by a run one shorter. -/
theorem runAt_zero_succ : RunAt P 0 (n + 1) ↔ P 0 ∧ RunAt (fun j => P (j + 1)) 0 n := by
  rw [← runAt_succ]
  constructor
  · exact fun h => ⟨h 0 le_rfl (by omega), fun j hj hjn => h j (by omega) (by omega)⟩
  · rintro ⟨h0, h⟩ j - hjn
    rcases Nat.eq_zero_or_pos j with rfl | hpos
    · exact h0
    · exact h j hpos (by omega)

/-- A position that starts no run does not change which run comes first. -/
theorem firstRun_succ (h0 : ¬RunAt P 0 n) (h : FirstRun (fun j => P (j + 1)) n i) :
    FirstRun P n (i + 1) := by
  refine ⟨runAt_succ.mpr h.1, fun j hj hrun => ?_⟩
  rcases j with _ | j
  · exact h0 hrun
  · exact h.2 j (by omega) (runAt_succ.mp hrun)

end WillowOS
