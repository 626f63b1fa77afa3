import Mathlib.Data.List.Basic

/-!
# Runs of a deterministic step function

A component is modelled by a step function `step : S → E → Option S`
on its states, `none` saying that the event is not possible there or that the call
it stands for never comes back. A run is the left fold of that function over a
list of events, `List.foldlM step s es`, so that runs are executed by evaluation.

Four rules carry every statement about whole runs:

* `WillowOS.run_inv`: what one step preserves, a run preserves;
* `WillowOS.run_simulation`: a relation to the states of an abstract model that one step
  preserves, a run preserves;
* `WillowOS.run_inv_of_meets`: the same when the steps are only known to
  preserve the invariant under a condition `G` on the state before the step and
  the event, and the run *meets* that condition (`WillowOS.Meets`);
* `WillowOS.run_iff_meets`: if the condition is exact for a step, it is for a run; and
  `WillowOS.always_iff_meets` for a property that is to hold in every state of the run.
-/

namespace WillowOS

variable {S E : Type*} {step : S → E → Option S} {G H : S → E → Prop} {I : S → Prop}

/-- Running one event and then the others. -/
theorem run_cons {s t : S} {e : E} {es : List E} :
    (e :: es).foldlM step s = some t ↔ ∃ u, step s e = some u ∧ es.foldlM step u = some t := by
  rw [List.foldlM_cons]
  exact Option.bind_eq_some_iff

/-- **What one step preserves, a run preserves.** -/
theorem run_inv (hstep : ∀ s e t, I s → step s e = some t → I t) {s t : S} {es : List E}
    (hs : I s) (h : es.foldlM step s = some t) : I t := by
  induction es generalizing s with
  | nil =>
    obtain rfl : s = t := by simpa using h
    exact hs
  | cons e es ih =>
    obtain ⟨u, hu, hrest⟩ := run_cons.mp h
    exact ih (hstep s e u hs hu) hrest

/-- **A simulation of steps is one of runs**: the abstract model makes a step for each
event. -/
theorem run_simulation {A : Type*} {f : A → E → A} {R : S → A → Prop}
    (hstep : ∀ s a e t, R s a → step s e = some t → R t (f a e)) {s t : S} {a : A}
    {es : List E} (hs : R s a) (h : es.foldlM step s = some t) :
    R t (es.foldl f a) := by
  induction es generalizing s a with
  | nil =>
    obtain rfl : s = t := by simpa using h
    exact hs
  | cons e es ih =>
    obtain ⟨u, hu, hrest⟩ := run_cons.mp h
    exact ih (hstep s a e u hs hu) hrest

/-- **A run meets a condition** when every one of its steps does: `G` is asked of
the state before the step and of the event. -/
def Meets (step : S → E → Option S) (G : S → E → Prop) : S → List E → Prop
  | _, [] => True
  | s, e :: es => G s e ∧ ∀ t, step s e = some t → Meets step G t es

/-- The condition along a run, one step after the other. -/
theorem meets_cons {s u : S} {e : E} {es : List E} (hu : step s e = some u) :
    Meets step G s (e :: es) ↔ G s e ∧ Meets step G u es := by
  refine and_congr_right fun _ => ⟨fun h => h u hu, fun h t ht => ?_⟩
  rwa [← Option.some.inj (hu.symm.trans ht)]

/-- A condition on the events alone. -/
theorem meets_of_forall {s : S} {es : List E} (h : ∀ e ∈ es, ∀ s, G s e) : Meets step G s es := by
  induction es generalizing s with
  | nil => trivial
  | cons e es ih =>
    exact ⟨h e List.mem_cons_self s, fun t _ => ih fun e he => h e (List.mem_cons_of_mem _ he)⟩

/-- `WillowOS.Meets`, evaluated along the run. -/
def checkMeets (step : S → E → Option S) (G : S → E → Prop) [∀ s e, Decidable (G s e)] :
    S → List E → Bool
  | _, [] => true
  | s, e :: es =>
    decide (G s e) && match step s e with
      | none => true
      | some t => checkMeets step G t es

theorem meets_of_checkMeets [∀ s e, Decidable (G s e)] {s : S} {es : List E}
    (h : checkMeets step G s es = true) : Meets step G s es := by
  induction es generalizing s with
  | nil => trivial
  | cons e es ih =>
    obtain ⟨hG, hrest⟩ := (Bool.and_eq_true _ _).mp h
    refine ⟨of_decide_eq_true hG, fun t ht => ih ?_⟩
    rw [ht] at hrest
    exact hrest

/-- **The invariant rule under a condition**: if a step that meets `G` preserves
`I`, a run that meets `G` does. -/
theorem run_inv_of_meets (hstep : ∀ s e t, I s → G s e → step s e = some t → I t)
    {s t : S} {es : List E} (hs : I s) (hG : Meets step G s es)
    (h : es.foldlM step s = some t) : I t := by
  induction es generalizing s with
  | nil =>
    obtain rfl : s = t := by simpa using h
    exact hs
  | cons e es ih =>
    obtain ⟨u, hu, hrest⟩ := run_cons.mp h
    exact ih (hstep s e u hs hG.1 hu) (hG.2 u hu) hrest

/-- **The rule for exact conditions**: if a step keeps a property exactly when it meets `G`, a run
does. The invariant the steps need may speak of the events that are still to come. -/
theorem run_iff_meets {P : S → Prop} {J : List E → S → Prop}
    (hstep : ∀ s e es t, J (e :: es) s → step s e = some t → J es t ∧ (P t ↔ P s ∧ G s e))
    {s t : S} {es : List E} (hs : J es s) (h : es.foldlM step s = some t) :
    P t ↔ P s ∧ Meets step G s es := by
  induction es generalizing s with
  | nil =>
    obtain rfl : s = t := by simpa using h
    exact (and_iff_left trivial).symm
  | cons e es ih =>
    obtain ⟨u, hu, hrest⟩ := run_cons.mp h
    obtain ⟨hJ, hP⟩ := hstep s e es u hs hu
    rw [ih hJ hrest, hP, meets_cons hu, and_assoc]

/-- A property holds in every state of a run. -/
def Always (step : S → E → Option S) (P : S → Prop) : S → List E → Prop
  | s, [] => P s
  | s, e :: es => P s ∧ ∀ t, step s e = some t → Always step P t es

theorem Always.head {P : S → Prop} {s : S} {es : List E} (h : Always step P s es) : P s := by
  cases es with
  | nil => exact h
  | cons e es => exact h.1

/-- **The rule for what always holds**: if a step from a state with the property leads to one
exactly when it meets `G`, a run stays in such states exactly when it meets `G`. The steps need to
preserve the invariant only where they meet `G`. -/
theorem always_iff_meets_of_meets {P : S → Prop}
    (hstep : ∀ s e t, I s → P s → step s e = some t → (P t ↔ G s e) ∧ (G s e → I t))
    {s t : S} {es : List E} (hI : I s) (hP : P s) (h : es.foldlM step s = some t) :
    Always step P s es ↔ Meets step G s es := by
  induction es generalizing s with
  | nil => exact iff_of_true hP trivial
  | cons e es ih =>
    obtain ⟨u, hu, hrest⟩ := run_cons.mp h
    obtain ⟨hiff, hkeep⟩ := hstep s e u hI hP hu
    rw [meets_cons hu]
    constructor
    · rintro ⟨-, hall⟩
      have hu' := hall u hu
      have hG := hiff.mp hu'.head
      exact ⟨hG, (ih (hkeep hG) hu'.head hrest).mp hu'⟩
    · rintro ⟨hG, hmeets⟩
      refine ⟨hP, fun v hv => ?_⟩
      obtain rfl := Option.some.inj (hu.symm.trans hv)
      exact (ih (hkeep hG) (hiff.mpr hG) hrest).mpr hmeets

/-- The rule for steps that always preserve the invariant. -/
theorem always_iff_meets {P : S → Prop}
    (hstep : ∀ s e t, I s → P s → step s e = some t → I t ∧ (P t ↔ G s e))
    {s t : S} {es : List E} (hI : I s) (hP : P s) (h : es.foldlM step s = some t) :
    Always step P s es ↔ Meets step G s es := by
  refine always_iff_meets_of_meets (fun s e t hI hP hs => ?_) hI hP h
  obtain ⟨hIt, hiff⟩ := hstep s e t hI hP hs
  exact ⟨hiff, fun _ => hIt⟩

end WillowOS
