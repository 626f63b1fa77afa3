import Mathlib.Logic.Basic
import Mathlib.Tactic.Common

/-!
# Programs that save and restore a flag

Programs on a state, one part of which is a flag that functions turn off while they run and
put back before they return. A program is *neutral* if it leaves the flag as it found it
(`WillowOS.Prog.Neutral`), and *ends with* a value if it leaves that value there when it is
started with the flag off (`WillowOS.Prog.Ends`).

These two notions compose: what runs between saving the flag and restoring it only has to
leave it off, and what follows the restoring only has to be neutral. Ending with a value is
proved return by return, which is how a function with many ways out is looked at.
-/

namespace WillowOS

/-- A program on states `S`, which need not return. -/
abbrev Prog (S α : Type) := StateT S Option α

namespace Prog

variable {S α β : Type} {flag : S → Bool} {b : Bool} {x : Prog S α} {f : α → Prog S β}

/-- A run, with its first part apart. -/
theorem run_bind_eq_some {s : S} {r : β × S} :
    (x >>= f).run s = some r ↔ ∃ a s', x.run s = some (a, s') ∧ (f a).run s' = some r := by
  rw [StateT.run_bind]
  constructor
  · intro h
    obtain ⟨⟨a, s'⟩, hx, hf⟩ := Option.bind_eq_some_iff.mp h
    exact ⟨a, s', hx, hf⟩
  · rintro ⟨a, s', hx, hf⟩
    exact Option.bind_eq_some_iff.mpr ⟨(a, s'), hx, hf⟩

/-- **The flag is left as it was.** -/
def Neutral (flag : S → Bool) (x : Prog S α) : Prop :=
  ∀ s a s', x.run s = some (a, s') → flag s' = flag s

/-- **The flag is left at a value**, if it was off. -/
def Ends (flag : S → Bool) (b : Bool) (x : Prog S α) : Prop :=
  ∀ s a s', flag s = false → x.run s = some (a, s') → flag s' = b

/-! ### Neutral programs -/

theorem Neutral.pure {a : α} : Neutral flag (Pure.pure a : Prog S α) := by
  intro s a' s' h
  exact (Prod.mk.inj (Option.some.inj h)).2 ▸ rfl

theorem Neutral.bind (hx : Neutral flag x) (hf : ∀ a, Neutral flag (f a)) :
    Neutral flag (x >>= f) := by
  intro s r s' h
  obtain ⟨a, s₁, h₁, h₂⟩ := run_bind_eq_some.mp h
  exact (hf a _ _ _ h₂).trans (hx _ _ _ h₁)

theorem Neutral.failure : Neutral flag (failure : Prog S α) := fun _ _ _ h => nomatch h

theorem Neutral.get : Neutral flag (get : Prog S S) := by
  intro s a s' h
  exact (Prod.mk.inj (Option.some.inj h)).2 ▸ rfl

theorem Neutral.modify {g : S → S} (hg : ∀ s, flag (g s) = flag s) :
    Neutral flag (modify g : Prog S Unit) := by
  intro s a s' h
  exact (Prod.mk.inj (Option.some.inj h)).2 ▸ hg s

/-- The state is changed first, but not its flag. -/
theorem neutral_modify_bind {g : S → S} {f : Unit → Prog S β} (hg : ∀ s, flag (g s) = flag s)
    (hf : Neutral flag (f ())) : Neutral flag (modify g >>= f) :=
  Neutral.bind (Neutral.modify hg) fun _ => hf

theorem Neutral.liftOption {o : Option α} : Neutral flag (liftM o : Prog S α) := by
  intro s a s' h
  obtain ⟨a', -, h⟩ := Option.bind_eq_some_iff.mp h
  exact (Prod.mk.inj (Option.some.inj h)).2 ▸ rfl

theorem Neutral.ite {c : Prop} [Decidable c] {y : Prog S α} (hx : Neutral flag x)
    (hy : Neutral flag y) : Neutral flag (if c then x else y) := by
  split
  · exact hx
  · exact hy

/-! ### Programs started with the flag off -/

/-- A neutral program leaves the flag off. -/
theorem Neutral.ends (hx : Neutral flag x) : Ends flag false x :=
  fun s a s' h0 h => (hx s a s' h).trans h0

/-- While the flag is off. -/
theorem Ends.bind (hx : Ends flag false x) (hf : ∀ a, Ends flag b (f a)) :
    Ends flag b (x >>= f) := by
  intro s r s' h0 h
  obtain ⟨a, s₁, h₁, h₂⟩ := run_bind_eq_some.mp h
  exact hf a _ _ _ (hx _ _ _ h0 h₁) h₂

/-- After the flag was put back. -/
theorem Ends.bind_neutral (hx : Ends flag b x) (hf : ∀ a, Neutral flag (f a)) :
    Ends flag b (x >>= f) := by
  intro s r s' h0 h
  obtain ⟨a, s₁, h₁, h₂⟩ := run_bind_eq_some.mp h
  exact (hf a _ _ _ h₂).trans (hx _ _ _ h0 h₁)

theorem Ends.failure : Ends flag b (failure : Prog S α) := fun _ _ _ _ h => nomatch h

theorem Ends.ite {c : Prop} [Decidable c] {y : Prog S α} (hx : Ends flag b x)
    (hy : Ends flag b y) : Ends flag b (if c then x else y) := by
  split
  · exact hx
  · exact hy

theorem ends_modify_bind {g : S → S} {f : Unit → Prog S β} (hg : ∀ s, flag (g s) = flag s)
    (hf : Ends flag b (f ())) : Ends flag b (modify g >>= f) :=
  (Neutral.modify hg).ends.bind fun _ => hf

/-- A program that leaves the flag off, for each element of a list. -/
theorem Ends.forM {l : List α} {g : α → Prog S PUnit} (hg : ∀ a, Ends flag false (g a)) :
    Ends flag false (l.forM g) := by
  induction l with
  | nil => exact Neutral.pure.ends
  | cons a l ih => exact (hg a).bind fun _ => ih

end Prog

end WillowOS
