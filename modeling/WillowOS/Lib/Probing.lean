import Mathlib.Algebra.Order.Ring.Nat
import Mathlib.Data.Finset.Card

/-!
# Open addressing with linear probing

A table of `c` buckets holds keys with their values. A key has a home slot, and its probes
go round the table from there (`WillowOS.Probing.circle`), up to the first empty bucket. A
key that is removed leaves a *deleted* bucket behind, which probes pass over and a new key
may take.

Two facts make a table a map (`WillowOS.Probing.Sound`): a key is in one bucket at most,
and no empty bucket lies on the way from its home to it. An insertion that finds a place
and a removal keep both, and change what is looked up at their own key only
(`WillowOS.Probing.Sound.lookup_occupy`, `WillowOS.Probing.Sound.lookup_delete`). A place is
found exactly when *some* bucket is empty, deleted ones not counting
(`WillowOS.Probing.place_eq_none_iff`).
-/

namespace WillowOS

/-- A bucket of a table. -/
inductive Bucket (K V : Type*)
  | empty
  | deleted
  | occupied (key : K) (value : V)

namespace Probing

/-! ### The slots a probe visits -/

/-- The values of `slot` in `do … slot = (slot + 1) % c; while (slot != start)`, from `slot`
on and for at most `n` rounds. -/
def circle (c start : ℕ) : ℕ → ℕ → List ℕ
  | 0, _ => []
  | n + 1, slot =>
    slot :: if (slot + 1) % c = start then [] else circle c start n ((slot + 1) % c)

/-- Going round from `start`: `c` rounds are enough. -/
def probes (c start : ℕ) : List ℕ := circle c start c start

variable {c start i r n : ℕ}

/-- Within one turn, the circle is back at its start only after the last slot. -/
theorem add_mod_eq_iff (hs : start < c) (hr : r < c) :
    (start + (r + 1)) % c = start ↔ r + 1 = c := by
  by_cases hturn : start + (r + 1) < c
  · rw [Nat.mod_eq_of_lt hturn]
    omega
  · rw [Nat.mod_eq_sub_mod (by omega), Nat.mod_eq_of_lt (by omega)]
    omega

/-- What is left of the circle after `r` slots. The rounds allowed do not show, as soon as
they are enough. -/
theorem circle_eq (hs : start < c) (hr : r < c) (hn : c ≤ n + r) :
    circle c start n ((start + r) % c) =
      (List.range' r (c - r)).map fun i => (start + i) % c := by
  induction n generalizing r with
  | zero => omega
  | succ n ih =>
    have hnext : ((start + r) % c + 1) % c = (start + (r + 1)) % c := by
      rw [Nat.mod_add_mod, Nat.add_assoc]
    rw [circle, hnext, show c - r = c - (r + 1) + 1 by omega, List.range'_succ, List.map_cons]
    congr 1
    by_cases hlast : r + 1 = c
    · rw [if_pos ((add_mod_eq_iff hs hr).mpr hlast), hlast, Nat.sub_self]
      rfl
    · rw [if_neg (mt (add_mod_eq_iff hs hr).mp hlast)]
      exact ih (by omega) (by omega)

/-- **A probe visits every slot.** -/
theorem mem_probes (hs : start < c) : i ∈ probes c start ↔ i < c := by
  have hall := circle_eq (n := c) hs (show 0 < c by omega) (by omega)
  rw [Nat.add_zero, Nat.mod_eq_of_lt hs, Nat.sub_zero] at hall
  rw [probes, hall, List.mem_map]
  constructor
  · rintro ⟨j, -, rfl⟩
    exact Nat.mod_lt _ (by omega)
  · intro hi
    refine ⟨(i + (c - start)) % c, ?_, ?_⟩
    · rw [List.mem_range'_1]
      exact ⟨Nat.zero_le _, by simpa using Nat.mod_lt _ (show 0 < c by omega)⟩
    · rw [Nat.add_mod_mod, show start + (i + (c - start)) = i + c by omega, Nat.add_mod_right,
        Nat.mod_eq_of_lt hi]

/-! ### Finding a key, and a place for one -/

variable {K V : Type*} {t : ℕ → Bucket K V} {k k' : K} {v w : V} {l : List ℕ}
  {free : Option ℕ}

section Keys

variable [DecidableEq K]

/-- The slot of a key among those visited, up to the first empty bucket. -/
def find (t : ℕ → Bucket K V) (k : K) : List ℕ → Option ℕ
  | [] => none
  | i :: is =>
    match t i with
    | .empty => none
    | .deleted => find t k is
    | .occupied k' _ => if k' = k then some i else find t k is

/-- The slot an insertion writes to: that of the key, if it is met; else, once an empty
bucket is met, the first deleted one passed (`free`), or the empty one. -/
def place (t : ℕ → Bucket K V) (k : K) : Option ℕ → List ℕ → Option ℕ
  | _, [] => none
  | free, i :: is =>
    match t i with
    | .empty => some (free.getD i)
    | .deleted => place t k (some (free.getD i)) is
    | .occupied k' _ => if k' = k then some i else place t k free is

theorem occupied_of_find (h : find t k l = some i) : i ∈ l ∧ ∃ v, t i = .occupied k v := by
  induction l with
  | nil => cases h
  | cons j l ih =>
    rw [find] at h
    split at h
    next => cases h
    next => exact ⟨List.mem_cons_of_mem _ (ih h).1, (ih h).2⟩
    next k' w hj =>
      split_ifs at h with hk
      · obtain rfl := Option.some.inj h
        exact ⟨List.mem_cons_self, w, hk ▸ hj⟩
      · exact ⟨List.mem_cons_of_mem _ (ih h).1, (ih h).2⟩

/-- A key is found if no empty bucket is met before it. -/
theorem exists_find {pre : List ℕ} (hpre : ∀ j ∈ pre, t j ≠ .empty)
    (hi : t i = .occupied k v) (post : List ℕ) : ∃ j, find t k (pre ++ i :: post) = some j := by
  induction pre with
  | nil => exact ⟨i, by rw [List.nil_append, find, hi]; exact if_pos rfl⟩
  | cons j pre ih =>
    have ih := ih fun j hj => hpre j (List.mem_cons_of_mem _ hj)
    rw [List.cons_append, find]
    split
    next hj => exact absurd hj (hpre j List.mem_cons_self)
    next => exact ih
    next =>
      split_ifs
      · exact ⟨j, rfl⟩
      · exact ih

/-- **There is no place exactly when no bucket is empty**, for a key that is not there. -/
theorem place_eq_none_iff (hk : ∀ j ∈ l, ∀ w, t j ≠ .occupied k w) :
    place t k free l = none ↔ ∀ j ∈ l, t j ≠ .empty := by
  induction l generalizing free with
  | nil => exact ⟨fun _ => nofun, fun _ => rfl⟩
  | cons j l ih =>
    have ih := fun free => @ih free fun j hj => hk j (List.mem_cons_of_mem _ hj)
    rw [place, List.forall_mem_cons]
    split
    next hj => exact ⟨nofun, fun h => absurd hj h.1⟩
    next hj => rw [ih, hj]; exact ⟨fun h => ⟨nofun, h⟩, fun h => h.2⟩
    next k' w hj =>
      rw [if_neg fun he : k' = k => hk j List.mem_cons_self w (he ▸ hj), ih, hj]
      exact ⟨fun h => ⟨nofun, h⟩, fun h => h.2⟩

/-- The place of a key that is not there is not occupied, and no empty bucket is met before
it. -/
theorem split_of_place (hk : ∀ j ∈ l, ∀ w, t j ≠ .occupied k w) (h : place t k free l = some i) :
    free = some i ∨ ∃ pre post, l = pre ++ i :: post ∧ (∀ j ∈ pre, t j ≠ .empty) ∧
      ∀ k' w, t i ≠ .occupied k' w := by
  induction l generalizing free with
  | nil => cases h
  | cons j l ih =>
    have ih := fun free => @ih free fun j hj => hk j (List.mem_cons_of_mem _ hj)
    -- the place is further on, and `j` is not empty
    have hlater : t j ≠ .empty → (∃ pre post, l = pre ++ i :: post ∧
        (∀ j ∈ pre, t j ≠ .empty) ∧ ∀ k' w, t i ≠ .occupied k' w) →
        ∃ pre post, j :: l = pre ++ i :: post ∧ (∀ j ∈ pre, t j ≠ .empty) ∧
          ∀ k' w, t i ≠ .occupied k' w := by
      rintro hj ⟨pre, post, rfl, hpre, hfree⟩
      exact ⟨j :: pre, post, rfl, List.forall_mem_cons.mpr ⟨hj, hpre⟩, hfree⟩
    -- the place is `j` itself, or has been passed
    have hhere : (∀ k' w, t j ≠ .occupied k' w) → free.getD j = i →
        free = some i ∨ ∃ pre post, j :: l = pre ++ i :: post ∧ (∀ j ∈ pre, t j ≠ .empty) ∧
          ∀ k' w, t i ≠ .occupied k' w := by
      rintro hj rfl
      cases free with
      | none => exact Or.inr ⟨[], l, rfl, nofun, hj⟩
      | some d => exact Or.inl rfl
    rw [place] at h
    split at h
    next hj => exact hhere (by rw [hj]; nofun) (Option.some.inj h)
    next hj =>
      rcases ih _ h with hd | hsplit
      · exact hhere (by rw [hj]; nofun) (Option.some.inj hd)
      · exact Or.inr (hlater (by rw [hj]; nofun) hsplit)
    next k' w hj =>
      rw [if_neg fun he : k' = k => hk j List.mem_cons_self w (he ▸ hj)] at h
      exact (ih _ h).imp_right (hlater (by rw [hj]; nofun))

end Keys

/-! ### Sound tables -/

/-- The value of an occupied bucket. -/
def value? : Bucket K V → Option V
  | .occupied _ v => some v
  | _ => none

/-- The value of a key, in a table of `c` buckets where the home of a key is `home k`. -/
def lookup [DecidableEq K] (c : ℕ) (home : K → ℕ) (t : ℕ → Bucket K V) (k : K) : Option V :=
  (find t k (probes c (home k))).bind fun i => value? (t i)

/-- A table in which every key is in one bucket at most, and is met by its own probes. -/
structure Sound (c : ℕ) (home : K → ℕ) (t : ℕ → Bucket K V) : Prop where
  home_lt : ∀ k, home k < c
  unique : ∀ {i j k v w}, i < c → j < c → t i = .occupied k v → t j = .occupied k w → i = j
  reach : ∀ {i k v}, i < c → t i = .occupied k v →
    ∃ pre post, probes c (home k) = pre ++ i :: post ∧ ∀ j ∈ pre, t j ≠ .empty

variable {home : K → ℕ}

namespace Sound

/-- A probe that meets no empty bucket still meets none when a bucket becomes occupied or
deleted. -/
theorem reach_update (h : Sound c home t) {b : Bucket K V} (hb : b ≠ .empty) {j : ℕ} {w : V}
    (hj : j < c) (hw : t j = .occupied k w) :
    ∃ pre post, probes c (home k) = pre ++ j :: post ∧
      ∀ j' ∈ pre, Function.update t i b j' ≠ .empty := by
  obtain ⟨pre, post, hsplit, hpre⟩ := h.reach hj hw
  refine ⟨pre, post, hsplit, fun j' hj' => ?_⟩
  rcases eq_or_ne j' i with rfl | hne
  · rwa [Function.update_self]
  · rw [Function.update_of_ne hne]
    exact hpre j' hj'

/-- **Deleting a bucket** keeps the table sound. -/
theorem delete (h : Sound c home t) : Sound c home (Function.update t i .deleted) := by
  have hold : ∀ {j k w}, Function.update t i .deleted j = .occupied k w →
      j ≠ i ∧ t j = .occupied k w := by
    intro j k w hw
    rcases eq_or_ne j i with rfl | hne
    · rw [Function.update_self] at hw
      cases hw
    · exact ⟨hne, by rwa [Function.update_of_ne hne] at hw⟩
  exact ⟨h.home_lt, fun h₁ h₂ hv₁ hv₂ => h.unique h₁ h₂ (hold hv₁).2 (hold hv₂).2,
    fun hj hw => h.reach_update (b := .deleted) nofun hj (hold hw).2⟩

/-- An occupied bucket after the value of one of them is replaced. -/
theorem occupied_replace (hv : t i = .occupied k v) {w u : V} {j : ℕ} {k' : K}
    (h : Function.update t i (.occupied k w) j = .occupied k' u) : ∃ u', t j = .occupied k' u' := by
  rcases eq_or_ne j i with rfl | hne
  · rw [Function.update_self] at h
    exact ⟨v, (Bucket.occupied.inj h).1 ▸ hv⟩
  · rw [Function.update_of_ne hne] at h
    exact ⟨u, h⟩

/-- **Replacing a value** keeps the table sound. -/
theorem replace (h : Sound c home t) (hv : t i = .occupied k v) {w : V} :
    Sound c home (Function.update t i (.occupied k w)) := by
  refine ⟨h.home_lt, fun h₁ h₂ hv₁ hv₂ => ?_, fun hj hw => ?_⟩
  · obtain ⟨_, hv₁⟩ := occupied_replace hv hv₁
    obtain ⟨_, hv₂⟩ := occupied_replace hv hv₂
    exact h.unique h₁ h₂ hv₁ hv₂
  · obtain ⟨_, hw⟩ := occupied_replace hv hw
    exact h.reach_update (b := .occupied k w) nofun hj hw

variable [DecidableEq K]

/-- **A key is found exactly where it is.** -/
theorem find_eq_some_iff (h : Sound c home t) :
    find t k (probes c (home k)) = some i ↔ i < c ∧ ∃ v, t i = .occupied k v := by
  constructor
  · intro hf
    obtain ⟨hmem, hv⟩ := occupied_of_find hf
    exact ⟨(mem_probes (h.home_lt k)).mp hmem, hv⟩
  · rintro ⟨hi, v, hv⟩
    obtain ⟨pre, post, hsplit, hpre⟩ := h.reach hi hv
    obtain ⟨j, hj⟩ := exists_find hpre hv post
    rw [← hsplit] at hj
    -- no other bucket has that key
    obtain ⟨hmem, w, hw⟩ := occupied_of_find hj
    rwa [h.unique hi ((mem_probes (h.home_lt k)).mp hmem) hv hw]

theorem find_eq_none_iff (h : Sound c home t) :
    find t k (probes c (home k)) = none ↔ ∀ i < c, ∀ v, t i ≠ .occupied k v := by
  constructor
  · intro hf i hi v hv
    rw [h.find_eq_some_iff.mpr ⟨hi, v, hv⟩] at hf
    cases hf
  · intro hno
    refine Option.eq_none_iff_forall_ne_some.mpr fun i hf => ?_
    obtain ⟨hi, v, hv⟩ := h.find_eq_some_iff.mp hf
    exact hno i hi v hv

theorem lookup_eq_some_iff (h : Sound c home t) :
    lookup c home t k = some v ↔ ∃ i < c, t i = .occupied k v := by
  rw [lookup, Option.bind_eq_some_iff]
  constructor
  · rintro ⟨i, hf, hv⟩
    obtain ⟨hi, w, hw⟩ := h.find_eq_some_iff.mp hf
    rw [hw] at hv
    obtain rfl := Option.some.inj hv
    exact ⟨i, hi, hw⟩
  · rintro ⟨i, hi, hv⟩
    exact ⟨i, h.find_eq_some_iff.mpr ⟨hi, v, hv⟩, by rw [hv]; rfl⟩

theorem lookup_eq_none_iff (h : Sound c home t) :
    lookup c home t k = none ↔ ∀ i < c, ∀ v, t i ≠ .occupied k v := by
  rw [Option.eq_none_iff_forall_ne_some]
  constructor
  · exact fun hno i hi v hv => hno v (h.lookup_eq_some_iff.mpr ⟨i, hi, hv⟩)
  · rintro hno v hv
    obtain ⟨i, hi, hv⟩ := h.lookup_eq_some_iff.mp hv
    exact hno i hi v hv

/-- The place found for a new key. -/
theorem of_place (h : Sound c home t) (hk : lookup c home t k = none)
    (hp : place t k none (probes c (home k)) = some i) :
    i < c ∧ (∀ k' w, t i ≠ .occupied k' w) ∧ ∃ pre post, probes c (home k) = pre ++ i :: post ∧
      ∀ j ∈ pre, t j ≠ .empty := by
  have habsent : ∀ j ∈ probes c (home k), ∀ w, t j ≠ .occupied k w := fun j hj =>
    h.lookup_eq_none_iff.mp hk j ((mem_probes (h.home_lt k)).mp hj)
  obtain hfree | ⟨pre, post, hsplit, hpre, hfree⟩ := split_of_place habsent hp
  · cases hfree
  · exact ⟨(mem_probes (h.home_lt k)).mp (by rw [hsplit]; simp), hfree, pre, post, hsplit, hpre⟩

/-- A new key is given a place unless no bucket is empty. -/
theorem place_eq_none_iff (h : Sound c home t) (hk : lookup c home t k = none) :
    place t k none (probes c (home k)) = none ↔ ∀ i < c, t i ≠ .empty := by
  rw [Probing.place_eq_none_iff fun j hj =>
    h.lookup_eq_none_iff.mp hk j ((mem_probes (h.home_lt k)).mp hj)]
  exact forall_congr' fun i => by rw [mem_probes (h.home_lt k)]

/-- **Occupying the place found for a new key** keeps the table sound. -/
theorem occupy (h : Sound c home t) (hk : lookup c home t k = none)
    (hp : place t k none (probes c (home k)) = some i) :
    Sound c home (Function.update t i (.occupied k v)) := by
  obtain ⟨-, -, pre, post, hsplit, hpre⟩ := h.of_place hk hp
  have habsent := h.lookup_eq_none_iff.mp hk
  -- a bucket of the new table is the new one, or one of the old table with another key
  have hcases : ∀ {j k' w}, j < c → Function.update t i (.occupied k v) j = .occupied k' w →
      j = i ∧ k' = k ∨ j ≠ i ∧ k' ≠ k ∧ t j = .occupied k' w := by
    intro j k' w hj hw
    rcases eq_or_ne j i with rfl | hne
    · rw [Function.update_self] at hw
      exact Or.inl ⟨rfl, (Bucket.occupied.inj hw).1.symm⟩
    · rw [Function.update_of_ne hne] at hw
      exact Or.inr ⟨hne, fun he => habsent j hj w (he ▸ hw), hw⟩
  refine ⟨h.home_lt, ?_, ?_⟩
  · intro j₁ j₂ k' v₁ v₂ h₁ h₂ hv₁ hv₂
    rcases hcases h₁ hv₁ with ⟨rfl, rfl⟩ | ⟨-, hk₁, hv₁⟩ <;>
      rcases hcases h₂ hv₂ with ⟨rfl, hk₂⟩ | ⟨-, hk₂, hv₂⟩
    · rfl
    · exact absurd rfl hk₂
    · exact absurd hk₂ hk₁
    · exact h.unique h₁ h₂ hv₁ hv₂
  · intro j k' w hj hw
    rcases hcases hj hw with ⟨rfl, rfl⟩ | ⟨-, -, hw⟩
    · refine ⟨pre, post, hsplit, fun j' hj' => ?_⟩
      rcases eq_or_ne j' j with rfl | hne
      · rw [Function.update_self]
        nofun
      · rw [Function.update_of_ne hne]
        exact hpre j' hj'
    · exact h.reach_update (b := .occupied k v) nofun hj hw

/-- **What is looked up after an insertion.** -/
theorem lookup_occupy (h : Sound c home t) (hk : lookup c home t k = none)
    (hp : place t k none (probes c (home k)) = some i) (k' : K) :
    lookup c home (Function.update t i (.occupied k v)) k' =
      if k' = k then some v else lookup c home t k' := by
  obtain ⟨hi, hfree, -⟩ := h.of_place hk hp
  have h' := h.occupy (v := v) hk hp
  split_ifs with he
  · exact h'.lookup_eq_some_iff.mpr ⟨i, hi, by rw [Function.update_self, he]⟩
  · refine Option.ext fun w => ?_
    rw [h'.lookup_eq_some_iff, h.lookup_eq_some_iff]
    refine exists_congr fun j => and_congr_right fun _ => ?_
    rcases eq_or_ne j i with rfl | hne
    · rw [Function.update_self]
      exact ⟨fun hw => absurd (Bucket.occupied.inj hw).1.symm he, fun hw => absurd hw (hfree k' w)⟩
    · rw [Function.update_of_ne hne]

/-- **What is looked up after a removal.** -/
theorem lookup_delete (h : Sound c home t) (hi : i < c) (hv : t i = .occupied k v) (k' : K) :
    lookup c home (Function.update t i .deleted) k' =
      if k' = k then none else lookup c home t k' := by
  refine Option.ext fun w => ?_
  rw [h.delete.lookup_eq_some_iff]
  split_ifs with he
  · refine ⟨?_, nofun⟩
    rintro ⟨j, hj, hw⟩
    rcases eq_or_ne j i with rfl | hne
    · rw [Function.update_self] at hw
      cases hw
    · rw [Function.update_of_ne hne] at hw
      exact absurd (h.unique hj hi hw (he ▸ hv)) hne
  · rw [h.lookup_eq_some_iff]
    refine exists_congr fun j => and_congr_right fun _ => ?_
    rcases eq_or_ne j i with rfl | hne
    · rw [Function.update_self, hv]
      exact ⟨nofun, fun hw => absurd (Bucket.occupied.inj hw).1.symm he⟩
    · rw [Function.update_of_ne hne]

/-- **What is looked up after a value is replaced.** -/
theorem lookup_replace (h : Sound c home t) (hi : i < c) (hv : t i = .occupied k v) {w : V}
    (k' : K) : lookup c home (Function.update t i (.occupied k w)) k' =
      if k' = k then some w else lookup c home t k' := by
  have h' := h.replace (w := w) hv
  split_ifs with he
  · exact h'.lookup_eq_some_iff.mpr ⟨i, hi, by rw [Function.update_self, he]⟩
  · refine Option.ext fun u => ?_
    rw [h'.lookup_eq_some_iff, h.lookup_eq_some_iff]
    refine exists_congr fun j => and_congr_right fun _ => ?_
    rcases eq_or_ne j i with rfl | hne
    · rw [Function.update_self, hv]
      exact iff_of_false (fun hu => he (Bucket.occupied.inj hu).1.symm)
        fun hu => he (Bucket.occupied.inj hu).1.symm
    · rw [Function.update_of_ne hne]

end Sound

/-! ### How full a table is -/

/-- The occupied slots. -/
def occupiedSlots (c : ℕ) (t : ℕ → Bucket K V) : Finset ℕ :=
  (Finset.range c).filter fun i => (value? (t i)).isSome

/-- The number of occupied buckets. -/
def load (c : ℕ) (t : ℕ → Bucket K V) : ℕ := (occupiedSlots c t).card

theorem mem_occupiedSlots : i ∈ occupiedSlots c t ↔ i < c ∧ ∃ k v, t i = .occupied k v := by
  rw [occupiedSlots, Finset.mem_filter, Finset.mem_range]
  refine and_congr_right fun _ => ?_
  cases t i <;> simp [value?]

theorem load_occupy (hi : i < c) (hfree : ∀ k w, t i ≠ .occupied k w) :
    load c (Function.update t i (.occupied k v)) = load c t + 1 := by
  have hslots : occupiedSlots c (Function.update t i (.occupied k v)) =
      insert i (occupiedSlots c t) := by
    ext j
    rw [Finset.mem_insert, mem_occupiedSlots, mem_occupiedSlots]
    rcases eq_or_ne j i with rfl | hne
    · rw [Function.update_self]
      exact ⟨fun _ => Or.inl rfl, fun _ => ⟨hi, k, v, rfl⟩⟩
    · rw [Function.update_of_ne hne]
      exact ⟨Or.inr, fun h => h.resolve_left hne⟩
  rw [load, hslots, Finset.card_insert_of_notMem, load]
  rw [mem_occupiedSlots]
  rintro ⟨-, k', w, hw⟩
  exact hfree k' w hw

theorem load_delete (hi : i < c) (hv : t i = .occupied k v) :
    load c (Function.update t i .deleted) = load c t - 1 := by
  have hslots : occupiedSlots c (Function.update t i .deleted) = (occupiedSlots c t).erase i := by
    ext j
    rw [Finset.mem_erase, mem_occupiedSlots, mem_occupiedSlots]
    rcases eq_or_ne j i with rfl | hne
    · rw [Function.update_self]
      exact ⟨nofun, fun h => absurd rfl h.1⟩
    · rw [Function.update_of_ne hne]
      exact ⟨fun h => ⟨hne, h⟩, fun h => h.2⟩
  rw [load, hslots, Finset.card_erase_of_mem (mem_occupiedSlots.mpr ⟨hi, k, v, hv⟩), load]

theorem load_replace (hv : t i = .occupied k v) {w : V} :
    load c (Function.update t i (.occupied k w)) = load c t := by
  refine congrArg Finset.card (Finset.ext fun j => ?_)
  rw [mem_occupiedSlots, mem_occupiedSlots]
  refine and_congr_right fun _ => ?_
  rcases eq_or_ne j i with rfl | hne
  · rw [Function.update_self]
    exact ⟨fun _ => ⟨k, v, hv⟩, fun _ => ⟨k, w, rfl⟩⟩
  · rw [Function.update_of_ne hne]

theorem load_le : load c t ≤ c :=
  (Finset.card_filter_le _ _).trans (Finset.card_range c).le

theorem load_lt_of_empty (hi : i < c) (he : t i = .empty) : load c t < c := by
  have hout : i ∉ occupiedSlots c t := by
    rw [mem_occupiedSlots, he]
    exact fun h => nomatch h.2
  refine (Finset.card_lt_card ⟨Finset.filter_subset _ _, fun hall => ?_⟩).trans_eq
    (Finset.card_range c)
  exact hout (hall (Finset.mem_range.mpr hi))

/-- **A table that is not full misses one of any `c` keys.** -/
theorem exists_lookup_eq_none [DecidableEq K] (key : ℕ → K) (hkey : Function.Injective key)
    (h : Sound c home t) (hload : load c t < c) : ∃ d < c, lookup c home t (key d) = none := by
  by_contra hall
  have hslot : ∀ d < c, ∃ i ∈ occupiedSlots c t, ∃ v, t i = .occupied (key d) v := by
    intro d hd
    obtain ⟨v, hv⟩ := Option.ne_none_iff_exists'.mp fun hnone => hall ⟨d, hd, hnone⟩
    obtain ⟨i, hi, hv⟩ := h.lookup_eq_some_iff.mp hv
    exact ⟨i, mem_occupiedSlots.mpr ⟨hi, _, v, hv⟩, v, hv⟩
  choose! f hf hv using hslot
  -- the keys would be in as many buckets
  have hcard : (Finset.range c).card ≤ load c t := by
    refine Finset.card_le_card_of_injOn f (fun d hd => hf d (Finset.mem_range.mp hd)) ?_
    intro d hd d' hd' he
    obtain ⟨v, hv₁⟩ := hv d (Finset.mem_range.mp hd)
    obtain ⟨w, hv₂⟩ := hv d' (Finset.mem_range.mp hd')
    rw [he, hv₂] at hv₁
    exact hkey (Bucket.occupied.inj hv₁).1.symm
  rw [Finset.card_range] at hcard
  omega

end Probing

end WillowOS
