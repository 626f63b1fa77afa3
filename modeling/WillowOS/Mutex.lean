import WillowOS.Lib.Run
import Mathlib.Logic.Function.Basic

/-!
# The kernel mutex

`acquire_mutex` spins on a compare-exchange of `mutex->locked`, and
`release_mutex` makes one. The compare-exchange takes its expected value *by
address*: when it fails it stores the value it observed there. `acquire_mutex`
passes the address of its local `old` and never resets it, so the first failed
attempt leaves `old = 1`, and the next one asks to replace `1` by `1` – which a
locked mutex grants.

The model has any number of threads, and one event per atomic step. A thread is
described by the local `old` of the call of `acquire_mutex` it is in, and by how
many calls have returned to it that it has not released; a thread may call
`acquire_mutex` again while it holds the mutex, as nothing in the code forbids.

The mutex excludes as long as no attempt is made with `old = 1` on a locked mutex
(`WillowOS.Mutex.mutualExclusion_of_meets`), and the first such attempt of a
thread that does not hold the mutex itself breaks exclusion
(`WillowOS.Mutex.not_mutualExclusion_of_staleAttempt`).
-/

namespace WillowOS

namespace Mutex

/-! ### The two calls, one atomic step at a time -/

/-- The strong compare-exchange `__atomic_compare_exchange(&obj, &old, &new, …)`:
whether it succeeded, the object after it, and the value left in `old`. -/
def atomicCompareExchange (obj old new : Bool) : Bool × Bool × Bool :=
  if obj = old then (true, new, old) else (false, obj, obj)

/-- Where a thread stands with respect to the mutex. -/
structure Local where
  /-- The local `old` of the call of `acquire_mutex` the thread is in, if any. -/
  old : Option Bool
  /-- Calls of `acquire_mutex` that returned and are not released yet. -/
  held : ℕ

/-- The mutex, and where every thread stands. -/
structure State (T : Type*) where
  /-- The field `mutex->locked`. -/
  locked : Bool
  thread : T → Local

/-- The atomic steps. -/
inductive Event (T : Type*)
  /-- Enter `acquire_mutex`, setting `old = 0`. -/
  | enter (t : T)
  /-- One turn of the loop of `acquire_mutex`. -/
  | attempt (t : T)
  /-- The compare-exchange of `release_mutex`. -/
  | release (t : T)

variable {T : Type*} [DecidableEq T]

/-- An unlocked mutex nobody has asked for. -/
def init : State T where
  locked := false
  thread := fun _ => ⟨none, 0⟩

/-- Replace what is known of one thread. -/
def State.setThread (s : State T) (t : T) (l : Local) : State T :=
  { s with thread := Function.update s.thread t l }

/-- One turn of the loop of `acquire_mutex`, by a thread whose local is `old`. -/
def acquireMutex (s : State T) (t : T) (old : Bool) : State T :=
  match atomicCompareExchange s.locked old true with
  | (true, obj, _) =>
    { s with locked := obj }.setThread t ⟨none, (s.thread t).held + 1⟩
  | (false, obj, seen) =>
    { s with locked := obj }.setThread t ⟨some seen, (s.thread t).held⟩

/-- `release_mutex`: the result of the compare-exchange is not looked at. -/
def releaseMutex (s : State T) (t : T) : State T :=
  { s with locked := (atomicCompareExchange s.locked true false).2.1 }.setThread t
    ⟨none, (s.thread t).held - 1⟩

/-- **One atomic step.** A thread that is inside `acquire_mutex` does nothing else,
and `release_mutex` is called only by a thread `acquire_mutex` has returned to. -/
def step (s : State T) : Event T → Option (State T)
  | .enter t =>
    if (s.thread t).old = none then some (s.setThread t ⟨some false, (s.thread t).held⟩)
    else none
  | .attempt t => (s.thread t).old.map (acquireMutex s t)
  | .release t =>
    if (s.thread t).old = none ∧ 0 < (s.thread t).held then some (releaseMutex s t) else none

/-- **Mutual exclusion**: no two threads have both returned from `acquire_mutex`
without having released. -/
def MutualExclusion (s : State T) : Prop :=
  ∀ t u, 0 < (s.thread t).held → 0 < (s.thread u).held → t = u

/-- The attempt that goes wrong: a retry that still expects the `1` an earlier
failure stored in `old`, made while the mutex is locked. -/
def StaleAttempt (s : State T) (t : T) : Prop :=
  (s.thread t).old = some true ∧ s.locked = true

/-- The condition on a step: it is not a stale attempt. -/
def NoStaleAttempt (s : State T) : Event T → Prop
  | .attempt t => ¬StaleAttempt s t
  | _ => True

/-! ### What a step does -/

@[simp] theorem setThread_locked (s : State T) (t : T) (l : Local) :
    (s.setThread t l).locked = s.locked := rfl

@[simp] theorem setThread_self (s : State T) (t : T) (l : Local) :
    (s.setThread t l).thread t = l :=
  Function.update_self ..

theorem setThread_of_ne {s : State T} {t u : T} {l : Local} (h : u ≠ t) :
    (s.setThread t l).thread u = s.thread u :=
  Function.update_of_ne h ..

/-- An attempt that finds what it expects returns, and leaves the mutex locked. -/
theorem acquireMutex_of_eq {s : State T} {t : T} {old : Bool} (h : s.locked = old) :
    acquireMutex s t old =
      { s with locked := true }.setThread t ⟨none, (s.thread t).held + 1⟩ := by
  simp [acquireMutex, atomicCompareExchange, h]

/-- An attempt that does not find what it expects stores what it saw in `old`. -/
theorem acquireMutex_of_ne {s : State T} {t : T} {old : Bool} (h : s.locked ≠ old) :
    acquireMutex s t old = s.setThread t ⟨some s.locked, (s.thread t).held⟩ := by
  simp [acquireMutex, atomicCompareExchange, h]

/-- A release leaves the mutex unlocked, whatever it was. -/
theorem releaseMutex_eq (s : State T) (t : T) :
    releaseMutex s t = { s with locked := false }.setThread t ⟨none, (s.thread t).held - 1⟩ := by
  cases h : s.locked <;> simp [releaseMutex, atomicCompareExchange, h]

/-- **What a step that is not a stale attempt can do**: leave the mutex and the
returned calls as they are, take the unlocked mutex, or release. -/
theorem step_cases {s s' : State T} {e : Event T} (hG : NoStaleAttempt s e)
    (h : step s e = some s') :
    (s'.locked = s.locked ∧ ∀ u, (s'.thread u).held = (s.thread u).held) ∨
      (∃ t, s.locked = false ∧
        s' = { s with locked := true }.setThread t ⟨none, (s.thread t).held + 1⟩) ∨
      ∃ t, 0 < (s.thread t).held ∧
        s' = { s with locked := false }.setThread t ⟨none, (s.thread t).held - 1⟩ := by
  have hkeep : ∀ t o, ∀ u, ((s.setThread t ⟨o, (s.thread t).held⟩).thread u).held =
      (s.thread u).held := by
    intro t o u
    rcases eq_or_ne u t with rfl | hne
    · rw [setThread_self]
    · rw [setThread_of_ne hne]
  cases e with
  | enter t =>
    simp only [step, Option.ite_none_right_eq_some, Option.some.injEq] at h
    obtain ⟨-, rfl⟩ := h
    exact Or.inl ⟨rfl, hkeep t _⟩
  | attempt t =>
    obtain ⟨old, hold, rfl⟩ := Option.map_eq_some_iff.mp h
    rcases eq_or_ne s.locked old with heq | hne
    · -- the value expected is the one found: it cannot be `1`, or the attempt is stale
      have hfree : s.locked = false := by
        rw [← Bool.not_eq_true]
        exact fun hl => hG ⟨by rw [hold, ← heq, hl], hl⟩
      exact Or.inr (Or.inl ⟨t, hfree, acquireMutex_of_eq heq⟩)
    · rw [acquireMutex_of_ne hne]
      exact Or.inl ⟨rfl, hkeep t _⟩
  | release t =>
    simp only [step, Option.ite_none_right_eq_some, Option.some.injEq] at h
    obtain ⟨⟨-, hheld⟩, rfl⟩ := h
    exact Or.inr (Or.inr ⟨t, hheld, releaseMutex_eq s t⟩)

/-! ### The invariant -/

/-- **The invariant of a mutex that excludes**: an unlocked mutex is held by nobody,
a locked one by exactly one thread, and once. -/
def Owned (s : State T) : Prop :=
  (s.locked = false → ∀ u, (s.thread u).held = 0) ∧
    (s.locked = true → ∃ t, (s.thread t).held = 1 ∧ ∀ u, u ≠ t → (s.thread u).held = 0)

omit [DecidableEq T] in
theorem owned_init : Owned (init : State T) :=
  ⟨fun _ _ => rfl, fun h => absurd h (by simp [init])⟩

/-- A step that is not a stale attempt keeps the invariant. -/
theorem owned_step {s s' : State T} {e : Event T} (hs : Owned s) (hG : NoStaleAttempt s e)
    (h : step s e = some s') : Owned s' := by
  rcases step_cases hG h with ⟨hl, hheld⟩ | ⟨t, hfree, rfl⟩ | ⟨t, ht, rfl⟩
  · refine ⟨fun hf u => ?_, fun hf => ?_⟩
    · rw [hheld]
      exact hs.1 (hl ▸ hf) u
    · obtain ⟨t, h1, h2⟩ := hs.2 (hl ▸ hf)
      exact ⟨t, (hheld t).trans h1, fun u hu => (hheld u).trans (h2 u hu)⟩
  · -- the mutex was free, so the thread that takes it is the only holder
    refine ⟨fun hf => absurd hf (by simp), fun _ => ⟨t, ?_, fun u hu => ?_⟩⟩
    · rw [setThread_self, hs.1 hfree t]
    · rw [setThread_of_ne hu]
      exact hs.1 hfree u
  · -- the thread that releases is the one holder, and held the mutex once
    have hlocked : s.locked = true := by
      rw [← Bool.not_eq_false]
      exact fun hf => absurd (hs.1 hf t) (by omega)
    obtain ⟨o, ho, hother⟩ := hs.2 hlocked
    obtain rfl : t = o := by
      by_contra hne
      exact absurd (hother t hne) (by omega)
    refine ⟨fun _ u => ?_, fun hf => absurd hf (by simp)⟩
    rcases eq_or_ne u t with rfl | hne
    · rw [setThread_self, ho]
    · rw [setThread_of_ne hne]
      exact hother u hne

/-- The invariant is mutual exclusion. -/
theorem Owned.mutualExclusion {s : State T} (hs : Owned s) : MutualExclusion s := by
  intro t u ht hu
  have hlocked : s.locked = true := by
    rw [← Bool.not_eq_false]
    exact fun hf => absurd (hs.1 hf t) (by omega)
  obtain ⟨o, -, hother⟩ := hs.2 hlocked
  have honly : ∀ v, 0 < (s.thread v).held → v = o := by
    intro v hv
    by_contra hne
    exact absurd (hother v hne) (by omega)
  rw [honly t ht, honly u hu]

/-- The invariant holds all along a run without stale attempts. -/
theorem owned_of_meets {es : List (Event T)} {s : State T} (hG : Meets step NoStaleAttempt init es)
    (h : es.foldlM step init = some s) : Owned s :=
  run_inv_of_meets (I := Owned) (fun _ _ _ hI hG h => owned_step hI hG h) owned_init hG h

/-- A stale attempt returns although the mutex is locked: the holder and the
thread that attempted both hold it. -/
theorem not_mutualExclusion_of_staleAttempt {s s' : State T} {t : T} (hs : Owned s)
    (hstale : StaleAttempt s t) (hheld : (s.thread t).held = 0)
    (h : step s (.attempt t) = some s') : ¬MutualExclusion s' := by
  intro hex
  obtain ⟨hold, hlocked⟩ := hstale
  obtain ⟨o, ho, -⟩ := hs.2 hlocked
  have hne : o ≠ t := by
    rintro rfl
    omega
  have hs' : s' = { s with locked := true }.setThread t ⟨none, (s.thread t).held + 1⟩ := by
    rw [step, hold, Option.map_some, Option.some.injEq] at h
    rw [← h, acquireMutex_of_eq hlocked]
  subst hs'
  refine hne (hex o t ?_ ?_)
  · rw [setThread_of_ne hne]
    simp [ho]
  · rw [setThread_self]
    simp

/-! ### Mutual exclusion -/

/-- **When the mutex excludes.** In every run, of any number of threads and in any
interleaving, in which no compare-exchange of `acquire_mutex` is attempted with
`old = 1` while `locked = 1`, no two threads ever hold the mutex together. The
condition cannot be dropped: after such a run, one stale attempt by a thread that
does not hold the mutex makes two threads hold it. -/
theorem mutualExclusion_of_meets {es : List (Event T)} {s : State T}
    (hG : Meets step NoStaleAttempt init es) (h : es.foldlM step init = some s) :
    MutualExclusion s ∧
      ∀ t s', StaleAttempt s t → (s.thread t).held = 0 → step s (.attempt t) = some s' →
        ¬MutualExclusion s' :=
  ⟨(owned_of_meets hG h).mutualExclusion, fun _ _ hstale hheld h' =>
    not_mutualExclusion_of_staleAttempt (owned_of_meets hG h) hstale hheld h'⟩

/-- Thread `0` takes the mutex, thread `1` finds it locked and keeps spinning. -/
def spinRun : List (Event ℕ) := [.enter 0, .attempt 0, .enter 1, .attempt 1]

/-- The condition is met by a run with contention, up to the retry. -/
theorem mutualExclusion_of_meets_spinRun :
    ∃ s, spinRun.foldlM step init = some s ∧ Meets step NoStaleAttempt init spinRun ∧
      MutualExclusion s := by
  have hG : Meets step NoStaleAttempt (init : State ℕ) spinRun := by
    refine ⟨trivial, ?_⟩
    rintro _ ⟨⟩
    refine ⟨by simp [NoStaleAttempt, StaleAttempt, State.setThread, init], ?_⟩
    rintro _ ⟨⟩
    refine ⟨trivial, ?_⟩
    rintro _ ⟨⟩
    exact ⟨fun hst => absurd hst.1 (by simp), fun _ _ => trivial⟩
  exact ⟨_, rfl, hG, (mutualExclusion_of_meets hG rfl).1⟩

/-- **The retry of thread `1` returns while thread `0` holds the mutex.** -/
theorem not_mutualExclusion_of_retry :
    ¬∀ (es : List (Event ℕ)) (s : State ℕ), es.foldlM step init = some s → MutualExclusion s := by
  intro h
  exact absurd (h (spinRun ++ [.attempt 1]) _ rfl 0 1 (by decide) (by decide)) (by decide)

end Mutex

end WillowOS
