import WillowOS.Scheduler.Ring
import Mathlib.Data.Nat.Find

/-!
# Which thread `reschedule` selects

`reschedule` is to switch to the first thread after the current one that is not blocked,
and to return without a switch only when that is the current thread itself
(`WillowOS.Scheduler.Selects`). Of the threads after the current one it only ever
considers the first. If that one is blocked, the loop that is to pass over it tests it
again and again while moving `running_thread` instead, and is only left if the blocked
thread is the idle one; and a pid that two neighbours share is taken to mean that there is
one thread left. What remains is **`WillowOS.Scheduler.selects_iff`**.
-/

namespace WillowOS

namespace Scheduler

open Sched

/-- `f` is the first thread that is not blocked, of those that follow the current one in
the order of `next_thread`. -/
def FirstRunnable (s : Sched) (f : ℕ) : Prop :=
  ∃ k, s.next^[k + 1] s.runningThread = f ∧ s.blocked f = false ∧
    ∀ j < k, s.blocked (s.next^[j + 1] s.runningThread) = true

/-- **What a call of `reschedule` has to do**: it finishes, and either it switches to the
first thread that is not blocked, or it returns without a switch and that thread is the
current one. -/
def Selects (s : Sched) : Prop :=
  ∃ f, FirstRunnable s f ∧ ∃ fuel s' sw, s.reschedule fuel = some (s', sw) ∧
    match sw with
    | some sw => s'.runningThread = f ∧ sw.load = s.rsp f
    | none => f = s.runningThread

variable {s : Sched} {l : List ℕ}

/-- In a ring with a thread that is not blocked there is a first one. -/
theorem exists_firstRunnable (h : Ring s.next s.prev s.runningThread l)
    (hrun : ∃ t ∈ s.runningThread :: l, s.blocked t = false) : ∃ f, FirstRunnable s f := by
  obtain ⟨t, ht, hb⟩ := hrun
  -- every thread is reached after at least one step, since the last one leads back
  have hex : ∃ k, s.blocked (s.next^[k + 1] s.runningThread) = false := by
    have hp := h.prev_mem ht
    obtain ⟨k, hk⟩ := h.exists_iterate_iff.mpr hp
    refine ⟨k, ?_⟩
    rw [Function.iterate_succ_apply', hk, h.next_prev ht]
    exact hb
  classical
  refine ⟨_, Nat.find hex, rfl, Nat.find_spec hex, fun j hj => ?_⟩
  simpa using Nat.find_min hex hj

/-- The next thread, if it is not blocked, is the first one. -/
theorem firstRunnable_next (h : s.blocked (s.next s.runningThread) = false) :
    FirstRunnable s (s.next s.runningThread) :=
  ⟨0, rfl, h, fun _ hj => absurd hj (Nat.not_lt_zero _)⟩

/-- **When `reschedule` selects as it should.** After the first dispatch, in any ring in
which a thread is not blocked, with any pids and any blocked threads, there is a first
thread that is not blocked, and the call selects it in two cases: either the next thread is
not blocked and has another pid than the current one; or every other thread is blocked and
the current one is not, and the call returns because the next thread has the same pid or is
the idle thread. -/
theorem selects_iff (hfirst : s.first = true) (hring : Ring s.next s.prev s.runningThread l)
    (hnull : 0 ∉ s.runningThread :: l)
    (hrun : ∃ t ∈ s.runningThread :: l, s.blocked t = false) :
    (∃ f, FirstRunnable s f) ∧
    (Selects s ↔
      (s.pid (s.next s.runningThread) ≠ s.pid s.runningThread ∧
        s.blocked (s.next s.runningThread) = false) ∨
      (FirstRunnable s s.runningThread ∧
        (s.pid (s.next s.runningThread) = s.pid s.runningThread ∨
          s.blocked (s.next s.runningThread) = true ∧
            s.pid (s.next s.runningThread) = idlePid))) := by
  have hn : s.next s.runningThread ≠ 0 := fun h0 =>
    hnull (h0 ▸ hring.next_mem List.mem_cons_self)
  have hprev : s.prev (s.next s.runningThread) = s.runningThread :=
    hring.prev_next List.mem_cons_self
  refine ⟨exists_firstRunnable hring hrun, ?_, ?_⟩
  · rintro ⟨f, hf, fuel, s', sw, hex, hsel⟩
    rcases reschedule_cases hfirst hn hprev hex with
      ⟨hpid, -, rfl⟩ | ⟨hpid, hb, -, -⟩ | ⟨-, hb, hidle, -, rfl⟩
    · obtain rfl : f = s.runningThread := hsel
      exact Or.inr ⟨hf, Or.inl hpid⟩
    · exact Or.inl ⟨hpid, hb⟩
    · obtain rfl : f = s.runningThread := hsel
      exact Or.inr ⟨hf, Or.inr ⟨hb, hidle⟩⟩
  · rintro (⟨hpid, hb⟩ | ⟨hf, hpid | ⟨hb, hidle⟩⟩)
    · exact ⟨_, firstRunnable_next hb, 0, _, _, reschedule_of_runnable hfirst hn hprev hpid hb,
        rfl, rfl⟩
    · exact ⟨_, hf, 0, _, _, reschedule_of_pid hfirst hn hprev hpid, rfl⟩
    · by_cases hpid : s.pid (s.next s.runningThread) = s.pid s.runningThread
      · exact ⟨_, hf, 0, _, _, reschedule_of_pid hfirst hn hprev hpid, rfl⟩
      · exact ⟨_, hf, 0 + 1, _, _, reschedule_of_idle hfirst hn hprev hpid hb hidle, rfl⟩

/-! ### Two threads -/

/-- Two threads, of pids 7 and 8, of which the second may be blocked, with the first one
dispatched. -/
def twoThreads (blocked : Bool) : Sched where
  ctx := fun t =>
    if t = 1 then ⟨7, ⟨1, 1981⟩, false, fun _ => 0, 2, 2⟩
    else ⟨8, ⟨2, 1981⟩, blocked, fun _ => 0, 1, 1⟩
  stack := fun _ _ => 0
  threads := [2, 1]
  runningThread := 1
  numThreads := 2
  firstThread := false
  first := true

theorem ring_twoThreads (b : Bool) :
    Ring (twoThreads b).next (twoThreads b).prev (twoThreads b).runningThread [2] where
  nodup := by
    show [1, 2].Nodup
    decide
  path := ⟨⟨rfl, rfl⟩, rfl, rfl⟩

/-- Neither is blocked: the second one is selected. -/
theorem selects_iff_twoThreads : Selects (twoThreads false) :=
  (selects_iff rfl (ring_twoThreads false) (by decide) ⟨1, by decide, rfl⟩).2.mpr
    (Or.inl ⟨by decide, rfl⟩)

/-- **With the second thread blocked, `reschedule` never finishes**, although the current
thread could go on. -/
theorem not_selects_of_blocked :
    Ring (twoThreads true).next (twoThreads true).prev (twoThreads true).runningThread [2] ∧
      FirstRunnable (twoThreads true) (twoThreads true).runningThread ∧
      (∀ fuel, (twoThreads true).reschedule fuel = none) ∧ ¬Selects (twoThreads true) := by
  have hnone : ∀ fuel, (twoThreads true).reschedule fuel = none := fun fuel =>
    reschedule_of_blocked rfl (by decide) rfl (by decide) rfl (by decide)
  refine ⟨ring_twoThreads true, ⟨1, rfl, rfl, fun j hj => ?_⟩, hnone, ?_⟩
  · obtain rfl : j = 0 := Nat.lt_one_iff.mp hj
    rfl
  · rintro ⟨f, -, fuel, s', sw, hex, -⟩
    rw [hnone] at hex
    cases hex

end Scheduler

end WillowOS
