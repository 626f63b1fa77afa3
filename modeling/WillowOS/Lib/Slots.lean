import Mathlib.Data.Nat.Count
import Mathlib.Data.Finset.Card
import Mathlib.Data.Finset.Range

/-!
# Arrays of slots

An array whose slots are taken or free, and which is grown when it is full. The slots
that are taken are a function `taken : ℕ → Bool`, of which the first `n` values count; how
many of them are taken is `Nat.count`.

A free slot is looked for from the first one on (`WillowOS.Slots.firstFree`). It is found
whenever the count is below the size (`WillowOS.Slots.exists_firstFree`), so an array that
is grown as soon as its count reaches its size always has one.
-/

namespace WillowOS

namespace Slots

variable {taken taken' : ℕ → Bool} {i n k : ℕ}

/-- The first free slot. -/
def firstFree (taken : ℕ → Bool) (n : ℕ) : Option ℕ := (List.range n).find? fun i => !taken i

theorem firstFree_eq_some (h : firstFree taken n = some i) : i < n ∧ taken i = false := by
  have hmem := List.mem_range.mp (List.mem_of_find?_eq_some h)
  have hfree := List.find?_some h
  exact ⟨hmem, by simpa using hfree⟩

theorem firstFree_eq_none : firstFree taken n = none ↔ ∀ i < n, taken i = true := by
  simp [firstFree]

/-- How many slots are taken, as the size of a set. -/
theorem count_eq_card : Nat.count (taken · = true) n =
    ((Finset.range n).filter (taken · = true)).card :=
  Nat.count_eq_card_filter_range _ n

/-- **An array that is not full has a free slot.** -/
theorem exists_firstFree (h : Nat.count (taken · = true) n < n) :
    ∃ i, firstFree taken n = some i := by
  refine Option.ne_none_iff_exists'.mp fun hnone => ?_
  have hall : (Finset.range n).filter (taken · = true) = Finset.range n :=
    Finset.filter_true_of_mem fun i hi => firstFree_eq_none.mp hnone i (Finset.mem_range.mp hi)
  rw [count_eq_card, hall, Finset.card_range] at h
  exact h.false

/-- Taking a free slot. -/
theorem count_take (hi : i < n) (hfree : taken i = false) :
    Nat.count (Function.update taken i true · = true) n = Nat.count (taken · = true) n + 1 := by
  have hset : (Finset.range n).filter (Function.update taken i true · = true) =
      insert i ((Finset.range n).filter (taken · = true)) := by
    ext j
    rw [Finset.mem_insert, Finset.mem_filter, Finset.mem_filter, Finset.mem_range]
    rcases eq_or_ne j i with rfl | hne
    · simp [hi]
    · simp [hne]
  rw [count_eq_card, count_eq_card, hset, Finset.card_insert_of_notMem]
  simp [hfree]

/-- Freeing a taken slot. -/
theorem count_free (hi : i < n) (htaken : taken i = true) :
    Nat.count (Function.update taken i false · = true) n + 1 = Nat.count (taken · = true) n := by
  have hback : Function.update (Function.update taken i false) i true = taken := by
    rw [Function.update_idem, ← htaken, Function.update_eq_self]
  have := @count_take (Function.update taken i false) i n hi (Function.update_self ..)
  rw [hback] at this
  exact this.symm

/-- Growing an array by free slots. -/
theorem count_grow (hold : ∀ i < n, taken' i = taken i)
    (hnew : ∀ i, n ≤ i → i < n + k → taken' i = false) :
    Nat.count (taken' · = true) (n + k) = Nat.count (taken · = true) n := by
  rw [count_eq_card, count_eq_card]
  congr 1
  ext i
  rw [Finset.mem_filter, Finset.mem_filter, Finset.mem_range, Finset.mem_range]
  constructor
  · rintro ⟨hi, ht⟩
    rcases Nat.lt_or_ge i n with hlt | hge
    · exact ⟨hlt, hold i hlt ▸ ht⟩
    · rw [hnew i hge hi] at ht
      cases ht
  · rintro ⟨hi, ht⟩
    exact ⟨Nat.lt_add_right k hi, (hold i hi).trans ht⟩

end Slots

end WillowOS
