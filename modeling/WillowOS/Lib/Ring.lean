import Mathlib.Data.List.Iterate
import Mathlib.Data.List.Nodup
import Mathlib.Logic.Function.Iterate
import Mathlib.Tactic.Common

/-!
# Doubly linked rings

Nodes with a `next` and a `prev` pointer, given as functions. A path from `x` to `y`
through a list of nodes is a chain of links that agree in both directions
(`WillowOS.Path`), and a ring is a path that returns to where it started, without a
repeated node (`WillowOS.Ring`).

A path depends on the `next` pointers of its nodes up to the last one and on the `prev`
pointers of those after the first one (`WillowOS.Path.congr`). Inserting after a node
and removing a node are updates of two pointers in each direction, and what is left of
the path is kept by that rule (`WillowOS.Ring.insert`, `WillowOS.Ring.remove`). Any
member may be taken as the start (`WillowOS.Ring.rotate`), and following `next` from
there reaches the members and nothing else (`WillowOS.Ring.exists_iterate_iff`), each of
them once in a round (`WillowOS.Ring.iterate_perm`).
-/

namespace WillowOS

variable {T : Type*} {next prev next' prev' : T → T} {a b x y z : T} {l l₁ l₂ : List T}

/-- The nodes of `l` link `x` to `y`. -/
def Path (next prev : T → T) : T → List T → T → Prop
  | x, [], y => next x = y ∧ prev y = x
  | x, z :: l, y => (next x = z ∧ prev z = x) ∧ Path next prev z l y

theorem path_nil : Path next prev x [] y ↔ next x = y ∧ prev y = x := Iff.rfl

theorem path_cons :
    Path next prev x (z :: l) y ↔ (next x = z ∧ prev z = x) ∧ Path next prev z l y := Iff.rfl

/-- A path, cut at a node. -/
theorem path_append : Path next prev x (l₁ ++ z :: l₂) y ↔
    Path next prev x l₁ z ∧ Path next prev z l₂ y := by
  induction l₁ generalizing x with
  | nil => rw [List.nil_append, path_cons, path_nil]
  | cons w l₁ ih =>
    rw [List.cons_append, path_cons, path_cons, ih]
    exact and_assoc.symm

/-- **A path depends on few pointers.** -/
theorem Path.congr (h : Path next prev x l y) (hnext : ∀ u ∈ x :: l, next' u = next u)
    (hprev : ∀ u, u ∈ l ∨ u = y → prev' u = prev u) : Path next' prev' x l y := by
  induction l generalizing x with
  | nil =>
    obtain ⟨h1, h2⟩ := path_nil.mp h
    exact ⟨(hnext x List.mem_cons_self).trans h1, (hprev y (Or.inr rfl)).trans h2⟩
  | cons z l ih =>
    obtain ⟨⟨h1, h2⟩, hrest⟩ := path_cons.mp h
    refine ⟨⟨(hnext x List.mem_cons_self).trans h1, (hprev z (Or.inl List.mem_cons_self)).trans h2⟩,
      ih hrest (fun u hu => hnext u (List.mem_cons_of_mem _ hu)) fun u hu => hprev u ?_⟩
    exact hu.imp_left (List.mem_cons_of_mem _)

/-- Every node of a path but the last has a successor on it. -/
theorem Path.next_mem (h : Path next prev x l y) {u : T} (hu : u ∈ x :: l) :
    (next u ∈ l ∨ next u = y) ∧ prev (next u) = u := by
  induction l generalizing x with
  | nil =>
    obtain rfl : u = x := by simpa using hu
    obtain ⟨h1, h2⟩ := path_nil.mp h
    exact ⟨Or.inr h1, by rw [h1, h2]⟩
  | cons z l ih =>
    obtain ⟨⟨h1, h2⟩, hrest⟩ := path_cons.mp h
    rcases List.mem_cons.mp hu with rfl | hu
    · exact ⟨Or.inl (h1 ▸ List.mem_cons_self), by rw [h1, h2]⟩
    · obtain ⟨hmem, hprev⟩ := ih hrest hu
      exact ⟨hmem.imp_left (List.mem_cons_of_mem _), hprev⟩

/-- Every node of a path but the first has a predecessor on it. -/
theorem Path.prev_mem (h : Path next prev x l y) {u : T} (hu : u ∈ l ∨ u = y) :
    prev u ∈ x :: l ∧ next (prev u) = u := by
  induction l generalizing x with
  | nil =>
    obtain rfl : u = y := by simpa using hu
    obtain ⟨h1, h2⟩ := path_nil.mp h
    exact ⟨h2 ▸ List.mem_cons_self, by rw [h2, h1]⟩
  | cons z l ih =>
    obtain ⟨⟨h1, h2⟩, hrest⟩ := path_cons.mp h
    by_cases hz : u = z
    · subst hz
      exact ⟨h2 ▸ List.mem_cons_self, by rw [h2, h1]⟩
    · have hu : u ∈ l ∨ u = y := hu.imp_left fun h => (List.mem_cons.mp h).resolve_left hz
      obtain ⟨hmem, hnext⟩ := ih hrest hu
      exact ⟨List.mem_cons_of_mem _ hmem, hnext⟩

/-- The nodes of a path are reached by following `next`. -/
theorem Path.exists_iterate (h : Path next prev x l y) {u : T} (hu : u ∈ x :: l) :
    ∃ k, next^[k] x = u := by
  induction l generalizing x with
  | nil => exact ⟨0, (List.mem_singleton.mp hu).symm⟩
  | cons z l ih =>
    obtain ⟨⟨h1, -⟩, hrest⟩ := path_cons.mp h
    rcases List.mem_cons.mp hu with rfl | hu
    · exact ⟨0, rfl⟩
    · obtain ⟨k, hk⟩ := ih hrest hu
      exact ⟨k + 1, by rw [Function.iterate_succ_apply, h1, hk]⟩

/-- Following `next` along a path, node by node. -/
theorem Path.iterate_eq (h : Path next prev x l y) :
    List.iterate next x (l.length + 1) = x :: l := by
  induction l generalizing x with
  | nil => rfl
  | cons z l ih =>
    obtain ⟨⟨rfl, -⟩, hrest⟩ := path_cons.mp h
    rw [List.length_cons, List.iterate, ih hrest]

/-- **A ring**: the node `a`, then those of `l`, then `a` again. -/
structure Ring (next prev : T → T) (a : T) (l : List T) : Prop where
  nodup : (a :: l).Nodup
  path : Path next prev a l a

namespace Ring

variable (h : Ring next prev a l)
include h

theorem next_mem (hx : x ∈ a :: l) : next x ∈ a :: l :=
  (h.path.next_mem hx).1.elim (List.mem_cons_of_mem _) fun he => he ▸ List.mem_cons_self

theorem prev_next (hx : x ∈ a :: l) : prev (next x) = x := (h.path.next_mem hx).2

theorem next_prev (hx : x ∈ a :: l) : next (prev x) = x :=
  (h.path.prev_mem ((List.mem_cons.mp hx).symm)).2

theorem prev_mem (hx : x ∈ a :: l) : prev x ∈ a :: l :=
  (h.path.prev_mem ((List.mem_cons.mp hx).symm)).1

/-- The ring is not changed by changes outside. -/
theorem congr (hnext : ∀ u ∈ a :: l, next' u = next u) (hprev : ∀ u ∈ a :: l, prev' u = prev u) :
    Ring next' prev' a l where
  nodup := h.nodup
  path := h.path.congr hnext fun u hu => hprev u (List.mem_cons.mpr hu.symm)

/-- **Following `next` reaches the members**, and nothing else. -/
theorem exists_iterate_iff : (∃ k, next^[k] a = x) ↔ x ∈ a :: l := by
  refine ⟨?_, h.path.exists_iterate⟩
  rintro ⟨k, rfl⟩
  induction k with
  | zero => exact List.mem_cons_self
  | succ k ih =>
    rw [Function.iterate_succ_apply']
    exact h.next_mem ih

omit h in
/-- **A ring may be started anywhere.** -/
theorem rotate (h : Ring next prev a (l₁ ++ x :: l₂)) : Ring next prev x (l₂ ++ a :: l₁) where
  nodup := by
    have hperm : (x :: (l₂ ++ a :: l₁)).Perm (a :: (l₁ ++ x :: l₂)) := by
      show ((x :: l₂) ++ (a :: l₁)).Perm ((a :: l₁) ++ (x :: l₂))
      exact List.perm_append_comm
    exact hperm.nodup_iff.mpr h.nodup
  path := by
    obtain ⟨h1, h2⟩ := path_append.mp h.path
    exact path_append.mpr ⟨h2, h1⟩

/-- Started at a member, the ring has the same members. -/
theorem exists_of_mem (hx : x ∈ a :: l) : ∃ l', Ring next prev x l' ∧ (x :: l').Perm (a :: l) := by
  rcases List.mem_cons.mp hx with rfl | hx
  · exact ⟨l, h, List.Perm.refl _⟩
  · obtain ⟨l₁, l₂, rfl⟩ := List.append_of_mem hx
    refine ⟨l₂ ++ a :: l₁, h.rotate, ?_⟩
    show ((x :: l₂) ++ (a :: l₁)).Perm ((a :: l₁) ++ (x :: l₂))
    exact List.perm_append_comm

/-- **As many steps as there are nodes pass each of them once**, wherever they start. -/
theorem iterate_perm (hx : x ∈ a :: l) :
    (List.iterate next x (l.length + 1)).Perm (a :: l) := by
  obtain ⟨l', h', hperm⟩ := h.exists_of_mem hx
  have hlen : l.length + 1 = l'.length + 1 := hperm.length_eq.symm
  rw [hlen, h'.path.iterate_eq]
  exact hperm

omit h in
/-- A node linked to itself is a ring. -/
theorem singleton (hnext : next a = a) (hprev : prev a = a) : Ring next prev a [] where
  nodup := List.nodup_singleton a
  path := ⟨hnext, hprev⟩

/-- In a ring of one node, it is its own successor. -/
theorem next_eq_self_iff : next a = a ↔ l = [] := by
  cases l with
  | nil => exact iff_of_true h.path.1 rfl
  | cons b l =>
    obtain ⟨⟨hab, -⟩, -⟩ := path_cons.mp h.path
    refine iff_of_false (fun ha => ?_) (List.cons_ne_nil _ _)
    exact (List.nodup_cons.mp h.nodup).1 (by rw [← ha, hab]; exact List.mem_cons_self)

variable [DecidableEq T]

/-- **Inserting a node after the first one.** -/
theorem insert (hx : x ∉ a :: l) :
    Ring (Function.update (Function.update next a x) x (next a))
      (Function.update (Function.update prev (next a) x) x a) a (x :: l) := by
  have hxa : x ≠ a := fun he => hx (he ▸ List.mem_cons_self)
  have hxl : x ∉ l := fun hm => hx (List.mem_cons_of_mem _ hm)
  have hxn : x ≠ next a := fun he => hx (he ▸ h.next_mem List.mem_cons_self)
  obtain ⟨hal, hl⟩ := List.nodup_cons.mp h.nodup
  have hfirst : Function.update (Function.update next a x) x (next a) a = x := by
    rw [Function.update_of_ne hxa.symm, Function.update_self]
  have hback : Function.update (Function.update prev (next a) x) x a (next a) = x := by
    rw [Function.update_of_ne hxn.symm, Function.update_self]
  refine ⟨?_, ⟨hfirst, Function.update_self ..⟩, ?_⟩
  · refine List.nodup_cons.mpr ⟨?_, List.nodup_cons.mpr ⟨hxl, hl⟩⟩
    rintro (_ | ⟨_, hm⟩)
    · exact hxa rfl
    · exact hal hm
  · cases l with
    | nil =>
      obtain ⟨hna, -⟩ := path_nil.mp h.path
      rw [hna] at hback ⊢
      exact ⟨Function.update_self .., hback⟩
    | cons b l =>
      obtain ⟨⟨hab, -⟩, hrest⟩ := path_cons.mp h.path
      obtain ⟨hbl, -⟩ := List.nodup_cons.mp hl
      rw [hab] at hback ⊢
      refine ⟨⟨Function.update_self .., hback⟩, hrest.congr (fun u hu => ?_) fun u hu => ?_⟩
      · -- past `b`, no node is `a` or `x`
        have hux : u ≠ x := fun he => hxl (he ▸ hu)
        have hua : u ≠ a := fun he => hal (he ▸ hu)
        rw [Function.update_of_ne hux, Function.update_of_ne hua]
      · -- past `b`, no node is `b` or `x`
        have hub : u ≠ b := by
          rintro rfl
          rcases hu with hu | rfl
          · exact hbl hu
          · exact hal List.mem_cons_self
        have hux : u ≠ x := by
          rintro rfl
          rcases hu with hu | rfl
          · exact hxl (List.mem_cons_of_mem _ hu)
          · exact hxa rfl
        rw [Function.update_of_ne hux, Function.update_of_ne hub]

omit h in
/-- **Removing the first of several nodes.** -/
theorem remove (h : Ring next prev a (b :: l)) :
    Ring (Function.update next (prev a) b) (Function.update prev b (prev a)) b l := by
  obtain ⟨hal, hbl⟩ := List.nodup_cons.mp h.nodup
  obtain ⟨-, hrest⟩ := path_cons.mp h.path
  refine ⟨hbl, ?_⟩
  rcases List.eq_nil_or_concat l with rfl | ⟨l, z, rfl⟩
  · -- two nodes: the other one is both neighbours
    obtain ⟨-, hpa⟩ := path_nil.mp hrest
    rw [hpa]
    exact ⟨Function.update_self .., Function.update_self ..⟩
  · rw [List.concat_eq_append] at hrest hbl hal ⊢
    obtain ⟨hbz, hza⟩ := path_append.mp hrest
    obtain ⟨-, hpa⟩ := path_nil.mp hza
    rw [hpa]
    obtain ⟨hb, hlz⟩ := List.nodup_cons.mp hbl
    have hz : z ∉ l := fun hm => (List.disjoint_of_nodup_append hlz) hm (List.mem_singleton_self z)
    refine path_append.mpr ⟨hbz.congr (fun u hu => ?_) fun u hu => ?_, ?_, ?_⟩
    · refine Function.update_of_ne ?_ _ _
      rintro rfl
      rcases List.mem_cons.mp hu with rfl | hu
      · exact hb (List.mem_append_right _ (List.mem_singleton_self u))
      · exact hz hu
    · refine Function.update_of_ne ?_ _ _
      rintro rfl
      rcases hu with hu | rfl
      · exact hb (List.mem_append_left _ hu)
      · exact hb (List.mem_append_right _ (List.mem_singleton_self u))
    · exact Function.update_self ..
    · exact Function.update_self ..

end Ring

end WillowOS
