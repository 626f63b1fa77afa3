import WillowOS.Lib.Run
import Mathlib.Algebra.Group.Nat.Defs
import Mathlib.Logic.Function.Basic

/-!
# Process ids

`get_new_pid` increments `new_pid` under a mutex, and reads the value it returns after it has
released it. Even with a mutex that excludes, a call does not return what its own increment made of
`new_pid`, but what all increments up to its last read did.

The model has any number of threads, with one event for each of the four steps of a call, and a
mutex that is held by at most one thread. The values that were returned are recorded, the last one
first. They are all different exactly in the runs in which `new_pid` is incremented between any two
of the reads: **`WillowOS.Pid.nodup_returned_iff`**.
-/

namespace WillowOS

namespace Pid

variable {T : Type*}

/-- Where a thread stands in `get_new_pid`. -/
inductive Local where
  /-- Not in the function. -/
  | outside
  /-- `acquire_mutex` has returned. -/
  | acquired
  /-- `new_pid` is incremented. -/
  | incremented
  /-- `release_mutex` has returned. -/
  | released
deriving DecidableEq

/-- The counter, the mutex by the thread that holds it, the threads, and the values returned so far,
the last one first. -/
structure State (T : Type*) where
  newPid : ℕ
  holder : Option T
  thread : T → Local
  returned : List ℕ

/-- The steps of a call. -/
inductive Event (T : Type*) where
  | acquire (t : T)
  | increment (t : T)
  | release (t : T)
  | read (t : T)

/-- `new_pid` and the mutex before the first call. -/
def init : State T := ⟨0, none, fun _ => .outside, []⟩

variable [DecidableEq T]

/-- **A step of `get_new_pid`.** The mutex is only taken when no thread holds it. -/
def step (s : State T) : Event T → Option (State T)
  | .acquire t =>
    if s.thread t = .outside ∧ s.holder = none then
      some { s with holder := some t, thread := Function.update s.thread t .acquired }
    else none
  | .increment t =>
    if s.thread t = .acquired then
      some { s with newPid := (s.newPid + 1) % 2 ^ 64
                    thread := Function.update s.thread t .incremented }
    else none
  | .release t =>
    if s.thread t = .incremented then
      some { s with holder := none, thread := Function.update s.thread t .released }
    else none
  | .read t =>
    if s.thread t = .released then
      some { s with returned := s.newPid :: s.returned
                    thread := Function.update s.thread t .outside }
    else none

/-- The calls of a run: those that have taken the mutex. -/
def calls (es : List (Event T)) : ℕ :=
  es.countP fun
    | .acquire _ => true
    | _ => false

/-- The condition on a step: when `new_pid` is read, it is not what it was when it was last read. -/
def ReadsNew (s : State T) : Event T → Prop
  | .read _ => s.returned.head? ≠ some s.newPid
  | _ => True

/-! ### The invariant -/

/-- The invariant, for a run with `n` calls to come. The threads between `acquire_mutex` and
`release_mutex` hold the mutex, `new_pid` does not wrap around, and the values returned never get
smaller, up to the present one. -/
structure Inv (n : ℕ) (s : State T) : Prop where
  holder : ∀ t, s.thread t = .acquired ∨ s.thread t = .incremented → s.holder = some t
  lt : s.newPid + n < 2 ^ 64
  lt_of_acquired : ∀ t, s.thread t = .acquired → s.newPid + 1 + n < 2 ^ 64
  le : ∀ v ∈ s.returned, v ≤ s.newPid
  sorted : s.returned.Pairwise fun v w => w ≤ v

omit [DecidableEq T] in
theorem inv_init {n : ℕ} (hn : n < 2 ^ 64) : Inv n (init : State T) where
  holder := fun _ ht => ht.elim (fun h => nomatch h) fun h => nomatch h
  lt := by
    show 0 + n < 2 ^ 64
    omega
  lt_of_acquired := fun _ ht => nomatch ht
  le := fun _ hv => absurd hv List.not_mem_nil
  sorted := List.Pairwise.nil

/-- A thread that is at a place the running one has not come to was there before. -/
theorem of_update {s : State T} {t u : T} {l l' : Local}
    (hu : Function.update s.thread t l u = l') (hl : l ≠ l') : u ≠ t ∧ s.thread u = l' := by
  rcases eq_or_ne u t with rfl | hne
  · rw [Function.update_self] at hu
    exact absurd hu hl
  · rw [Function.update_of_ne hne] at hu
    exact ⟨hne, hu⟩

omit [DecidableEq T] in
/-- Two threads that hold the mutex are the same. -/
theorem Inv.eq_of_holder {n : ℕ} {s : State T} (h : Inv n s) {t u : T}
    (ht : s.thread t = .acquired ∨ s.thread t = .incremented)
    (hu : s.thread u = .acquired ∨ s.thread u = .incremented) : u = t :=
  Option.some.inj ((h.holder u hu).symm.trans (h.holder t ht))

section Steps

variable {n : ℕ} {s s' : State T} {t : T}

theorem inv_acquire (h : Inv (n + 1) s) (hs : step s (.acquire t) = some s') : Inv n s' := by
  have hlt := h.lt
  rw [step] at hs
  split_ifs at hs with hc
  obtain rfl := Option.some.inj hs
  refine ⟨fun u hu => ?_, by dsimp only; omega, fun u _ => by dsimp only; omega, h.le, h.sorted⟩
  rcases eq_or_ne u t with rfl | hne
  · rfl
  · -- the mutex was free
    dsimp only at hu
    rw [Function.update_of_ne hne] at hu
    exact absurd (hc.2.symm.trans (h.holder u hu)) (by simp)

theorem inv_increment (h : Inv n s) (hs : step s (.increment t) = some s') : Inv n s' := by
  rw [step] at hs
  split_ifs at hs with hc
  obtain rfl := Option.some.inj hs
  have hlt := h.lt_of_acquired t hc
  have hmod : (s.newPid + 1) % 2 ^ 64 = s.newPid + 1 := Nat.mod_eq_of_lt (by omega)
  refine ⟨fun u hu => ?_, by dsimp only; omega, fun u hu => ?_, fun v hv => ?_, h.sorted⟩
  · rcases eq_or_ne u t with rfl | hne
    · exact h.holder u (Or.inl hc)
    · dsimp only at hu
      rw [Function.update_of_ne hne] at hu
      exact h.holder u hu
  · -- only one thread was about to increment
    obtain ⟨hne, hu⟩ := of_update hu (by decide)
    exact absurd (h.eq_of_holder (Or.inl hc) (Or.inl hu)) hne
  · have := h.le v hv
    dsimp only
    omega

theorem inv_release (h : Inv n s) (hs : step s (.release t) = some s') : Inv n s' := by
  rw [step] at hs
  split_ifs at hs with hc
  obtain rfl := Option.some.inj hs
  refine ⟨fun u hu => ?_, h.lt, fun u hu => ?_, h.le, h.sorted⟩
  · obtain ⟨hne, hu⟩ : u ≠ t ∧ (s.thread u = .acquired ∨ s.thread u = .incremented) := by
      rcases hu with hu | hu
      · exact (of_update hu (by decide)).imp_right Or.inl
      · exact (of_update hu (by decide)).imp_right Or.inr
    exact absurd (h.eq_of_holder (Or.inr hc) hu) hne
  · exact h.lt_of_acquired u (of_update hu (by decide)).2

theorem inv_read (h : Inv n s) (hs : step s (.read t) = some s') : Inv n s' := by
  rw [step] at hs
  split_ifs at hs with hc
  obtain rfl := Option.some.inj hs
  refine ⟨fun u hu => ?_, h.lt, fun u hu => ?_, fun v hv => ?_, ?_⟩
  · rcases hu with hu | hu
    · exact h.holder u (Or.inl (of_update hu (by decide)).2)
    · exact h.holder u (Or.inr (of_update hu (by decide)).2)
  · exact h.lt_of_acquired u (of_update hu (by decide)).2
  · rcases List.mem_cons.mp hv with rfl | hv
    · exact Nat.le_refl _
    · exact h.le v hv
  · exact List.pairwise_cons.mpr ⟨h.le, h.sorted⟩

end Steps

/-- **A step keeps the invariant.** -/
theorem inv_step {s s' : State T} {e : Event T} {es : List (Event T)} (h : Inv (calls (e :: es)) s)
    (hs : step s e = some s') : Inv (calls es) s' := by
  cases e with
  | acquire t =>
    rw [show calls (.acquire t :: es) = calls es + 1 from List.countP_cons_of_pos rfl] at h
    exact inv_acquire h hs
  | increment t =>
    rw [show calls (.increment t :: es) = calls es from List.countP_cons_of_neg (by simp)] at h
    exact inv_increment h hs
  | release t =>
    rw [show calls (.release t :: es) = calls es from List.countP_cons_of_neg (by simp)] at h
    exact inv_release h hs
  | read t =>
    rw [show calls (.read t :: es) = calls es from List.countP_cons_of_neg (by simp)] at h
    exact inv_read h hs

/-! ### The values returned -/

omit [DecidableEq T] in
/-- The value read next was returned before exactly if it was the last one. -/
theorem Inv.head?_eq_iff {n : ℕ} {s : State T} (h : Inv n s) :
    s.returned.head? = some s.newPid ↔ s.newPid ∈ s.returned := by
  refine ⟨List.mem_of_mem_head?, fun hin => ?_⟩
  have hle := h.le
  have hsorted := h.sorted
  cases hr : s.returned with
  | nil =>
    rw [hr] at hin
    cases hin
  | cons v vs =>
    rw [hr] at hin hle hsorted
    have hv := hle v List.mem_cons_self
    rcases List.mem_cons.mp hin with heq | hin
    · rw [List.head?_cons, heq]
    · have := (List.pairwise_cons.mp hsorted).1 _ hin
      rw [List.head?_cons, show v = s.newPid by omega]

/-- A step makes no value be returned twice exactly if it meets the condition. -/
theorem nodup_step {n : ℕ} {s s' : State T} {e : Event T} (h : Inv n s) (hs : step s e = some s') :
    s'.returned.Nodup ↔ s.returned.Nodup ∧ ReadsNew s e := by
  cases e with
  | read t =>
    rw [step] at hs
    split_ifs at hs
    obtain rfl := Option.some.inj hs
    rw [List.nodup_cons, ← h.head?_eq_iff, and_comm]
    rfl
  | acquire t | increment t | release t =>
    rw [step] at hs
    split_ifs at hs
    obtain rfl := Option.some.inj hs
    exact (and_iff_left trivial).symm

/-- **When process ids are unique.** In every run of fewer than 2⁶⁴ calls, by any threads and in any
interleaving, the values returned are pairwise distinct if and only if `new_pid` is never read
twice without an increment in between. -/
theorem nodup_returned_iff {es : List (Event T)} {s : State T} (hcalls : calls es < 2 ^ 64)
    (hrun : es.foldlM step init = some s) :
    s.returned.Nodup ↔ Meets step ReadsNew init es := by
  rw [run_iff_meets (P := fun s => s.returned.Nodup) (J := fun es => Inv (calls es))
    (fun _ _ _ _ hI hs => ⟨inv_step hI hs, nodup_step hI hs⟩) (inv_init hcalls) hrun]
  exact and_iff_right List.nodup_nil

/-- Two calls that overlap: the second one takes the mutex before the first one has read. -/
def overlapping : List (Event ℕ) :=
  [.acquire 0, .increment 0, .release 0, .acquire 1, .read 0, .increment 1, .release 1, .read 1]

theorem nodup_returned_iff_overlapping : ∃ s, overlapping.foldlM step init = some s ∧
    s.returned = [2, 1] ∧ Meets step ReadsNew init overlapping := by
  refine ⟨_, rfl, rfl, (nodup_returned_iff (by decide) rfl).mp ?_⟩
  decide

/-- **Both calls increment before either reads**, and both return `2`. -/
theorem not_nodup_returned : ∃ s,
    [Event.acquire 0, .increment 0, .release 0, .acquire 1, .increment 1, .release 1, .read 0,
      .read 1].foldlM step init = some s ∧ s.returned = [2, 2] ∧ ¬s.returned.Nodup := by
  refine ⟨_, rfl, rfl, ?_⟩
  decide

end Pid

end WillowOS
