import Mathlib.Data.List.Induction
import Mathlib.Logic.Basic
import Mathlib.Tactic.Common

/-!
# Walks through linked tables

Tables with numbered slots, a slot being empty or pointing to another table: the
slots are a function `next`, and a walk follows a list of slot numbers from a table.

Two changes of the slots are considered. A change of tables that no walk passes
(`WillowOS.walk_congr`) changes no walk. Putting a fresh table, all of whose slots are
empty, into an empty slot (`WillowOS.linkTable`) adds exactly the walks that end in
that slot (`WillowOS.walk_linkTable`). Walks are bounded in length throughout, since
the entries of the last level of a page table do not point to tables.

Where only some of the walks matter, the same is said of the walks along a set of paths that
has the beginnings of its paths (`WillowOS.walk_congr_along`,
`WillowOS.walk_linkTable_along`): the tables on other paths may be linked in any way.
-/

namespace WillowOS

variable {T I : Type*}

/-- The table reached from `t` through the slots of a list, if none of them is
empty. -/
def walk (next : T → I → Option T) : T → List I → Option T
  | t, [] => some t
  | t, i :: p => (next t i).bind fun u => walk next u p

variable {next next' : T → I → Option T} {r t x f : T} {i j : I} {p q : List I}

@[simp] theorem walk_nil : walk next t [] = some t := rfl

theorem walk_cons : walk next t (i :: p) = (next t i).bind fun u => walk next u p := rfl

theorem walk_singleton : walk next t [i] = next t i := by
  rw [walk_cons]
  simp

theorem walk_append : walk next t (p ++ q) = (walk next t p).bind fun u => walk next u q := by
  induction p generalizing t with
  | nil => rfl
  | cons i p ih =>
    rw [List.cons_append, walk_cons, walk_cons]
    rcases next t i with _ | u
    · rfl
    · exact ih

/-- A walk, with its last slot apart. -/
theorem walk_concat : walk next t (p ++ [i]) = (walk next t p).bind fun u => next u i := by
  rw [walk_append]
  simp only [walk_singleton]

theorem walk_concat_eq_some :
    walk next t (p ++ [i]) = some x ↔ ∃ u, walk next t p = some u ∧ next u i = some x := by
  rw [walk_concat, Option.bind_eq_some_iff]

/-- A walk along a set of paths does not depend on the slots off them. -/
theorem walk_congr_along {P : List I → Prop} (hP : ∀ p i, P (p ++ [i]) → P p)
    (h : ∀ q i u, P (q ++ [i]) → walk next r q = some u → next' u i = next u i) (hp : P p) :
    walk next' r p = walk next r p := by
  induction p using List.reverseRecOn with
  | nil => rfl
  | append_singleton p i ih =>
    rw [walk_concat, walk_concat, ih (hP p i hp)]
    rcases hu : walk next r p with _ | u
    · rfl
    · exact h p i u hp hu

/-- A walk does not depend on the slots of tables it does not leave. -/
theorem walk_congr (h : ∀ q u, q.length < p.length → walk next r q = some u → next' u = next u) :
    walk next' r p = walk next r p := by
  refine walk_congr_along (P := fun q => q.length ≤ p.length) (fun q i hq => ?_)
    (fun q i u hq hu => ?_) (Nat.le_refl _)
  · rw [List.length_append] at hq
    exact Nat.le_of_add_right_le hq
  · rw [List.length_append] at hq
    rw [h q u hq hu]

/-! ### A fresh table -/

variable [DecidableEq T] [DecidableEq I]

/-- The slots after the empty table `f` has been put into slot `i` of `t`. -/
def linkTable (next : T → I → Option T) (t : T) (i : I) (f : T) : T → I → Option T :=
  fun x j => if x = t ∧ j = i then some f else if x = f then none else next x j

theorem linkTable_self : linkTable next t i f t i = some f := if_pos ⟨rfl, rfl⟩

theorem linkTable_of_ne (hx : x ≠ f) (h : ¬(x = t ∧ j = i)) :
    linkTable next t i f x j = next x j := by
  rw [linkTable, if_neg h, if_neg hx]

theorem linkTable_fresh (h : t ≠ f) : linkTable next t i f f j = none := by
  rw [linkTable, if_neg fun hf => h hf.1.symm, if_pos rfl]

/-- **The walks after a fresh table has been linked**: those there were, and those that
end in the new table. -/
theorem walk_linkTable {n : ℕ} (hslot : next t i = none) (htf : t ≠ f)
    (hfresh : ∀ q, q.length ≤ n → walk next r q ≠ some f) (hp : p.length ≤ n) :
    walk (linkTable next t i f) r p = some x ↔
      walk next r p = some x ∨ x = f ∧ ∃ q, p = q ++ [i] ∧ walk next r q = some t := by
  induction p using List.reverseRecOn generalizing x with
  | nil =>
    simp only [walk_nil, Option.some.injEq]
    refine ⟨Or.inl, ?_⟩
    rintro (h | ⟨-, q, hq, -⟩)
    · exact h
    · simp at hq
  | append_singleton p j ih =>
    have hlen : p.length ≤ n := by
      rw [List.length_append] at hp
      exact Nat.le_of_add_right_le hp
    rw [walk_concat_eq_some, walk_concat_eq_some]
    constructor
    · rintro ⟨u, hu', hj⟩
      rcases (ih hlen).mp hu' with hu | ⟨rfl, -⟩
      · have huf : u ≠ f := fun h => hfresh p hlen (h ▸ hu)
        by_cases hti : u = t ∧ j = i
        · obtain ⟨rfl, rfl⟩ := hti
          rw [linkTable_self] at hj
          exact Or.inr ⟨(Option.some.inj hj).symm, p, rfl, hu⟩
        · rw [linkTable_of_ne huf hti] at hj
          exact Or.inl ⟨u, hu, hj⟩
      · -- the fresh table has no slot to leave it by
        rw [linkTable_fresh htf] at hj
        cases hj
    · rintro (⟨u, hu, hj⟩ | ⟨rfl, q, hq, ht⟩)
      · have huf : u ≠ f := fun h => hfresh p hlen (h ▸ hu)
        refine ⟨u, (ih hlen).mpr (Or.inl hu), ?_⟩
        rwa [linkTable_of_ne huf]
        rintro ⟨rfl, rfl⟩
        rw [hslot] at hj
        cases hj
      · obtain ⟨rfl, hji⟩ := List.append_inj' hq rfl
        obtain rfl : j = i := by simpa using hji
        exact ⟨t, (ih hlen).mpr (Or.inl ht), linkTable_self⟩

/-- **The walks along a set of paths after a fresh table has been linked** to the end of one
of them: one path more is a walk. -/
theorem walk_linkTable_along {P : List I → Prop} (hP : ∀ p i, P (p ++ [i]) → P p)
    (hslot : next t i = none) (htf : t ≠ f) (hfresh : ∀ q, P q → walk next r q ≠ some f)
    (hq : walk next r q = some t) (hone : ∀ q', P q' → walk next r q' = some t → q' = q)
    (hp : P p) :
    walk (linkTable next t i f) r p = if p = q ++ [i] then some f else walk next r p := by
  induction p using List.reverseRecOn with
  | nil => rw [if_neg (by simp), walk_nil, walk_nil]
  | append_singleton p j ih =>
    have hpP : P p := hP p j hp
    rw [walk_concat, ih hpP]
    by_cases hpq : p = q ++ [i]
    · -- the fresh table has no slot to leave it by, and there was none before
      have hnone : walk next r p = none := by
        rw [hpq, walk_concat, hq]
        exact hslot
      have hlen : p ++ [j] ≠ q ++ [i] := by
        intro h
        have := congrArg List.length h
        rw [hpq] at this
        simp at this
      rw [if_pos hpq, if_neg hlen, walk_concat, hnone]
      exact linkTable_fresh htf
    · rw [if_neg hpq, walk_concat]
      rcases hu : walk next r p with _ | u
      · have hne : p ++ [j] ≠ q ++ [i] := by
          intro h
          rw [(List.append_inj' h rfl).1, hq] at hu
          cases hu
        rw [if_neg hne]
        rfl
      · have huf : u ≠ f := fun h => hfresh p hpP (h ▸ hu)
        show linkTable next t i f u j = if p ++ [j] = q ++ [i] then some f else next u j
        by_cases hti : u = t ∧ j = i
        · obtain ⟨rfl, rfl⟩ := hti
          rw [linkTable_self, if_pos (by rw [hone p hpP hu])]
        · have hne : p ++ [j] ≠ q ++ [i] := by
            intro h
            obtain ⟨rfl, hji⟩ := List.append_inj' h rfl
            exact hti ⟨Option.some.inj (hu.symm.trans hq), by simpa using hji⟩
          rw [linkTable_of_ne huf hti, if_neg hne]

end WillowOS
