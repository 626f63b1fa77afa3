import WillowOS.Scheduler.Machine
import Mathlib.Logic.Function.Iterate

/-!
# What the calls do

One lemma for each call that says everything it can do, in terms of the running thread
and of the one after it. The loop of `reschedule` over a blocked thread comes out as what
it is: since the thread it tests is never changed, it is left in its first round, at the
idle thread, or never.
-/

namespace WillowOS

namespace Scheduler

namespace Sched

variable {s s' : Sched} {n t u pid fuel idle : ℕ} {sw : Option Switch}

/-! ### `reschedule` -/

theorem skipBlocked_of_runnable (h : s.blocked n = false) :
    skipBlocked n fuel s = some (s, false) := by
  unfold skipBlocked
  rw [if_neg (by rw [h]; decide)]

theorem skipBlocked_of_idle (h : s.blocked n = true) (hpid : s.pid n = idlePid) :
    skipBlocked n (fuel + 1) s =
      some ({ s with runningThread := s.next s.runningThread }, true) := by
  rw [skipBlocked, if_pos h]
  exact if_pos hpid

theorem skipBlocked_zero (h : s.blocked n = true) : skipBlocked n 0 s = none := by
  rw [skipBlocked, if_pos h]

/-- **The loop is never left** over a blocked thread other than the idle one. -/
theorem skipBlocked_of_blocked (h : s.blocked n = true) (hpid : s.pid n ≠ idlePid) :
    skipBlocked n fuel s = none := by
  induction fuel generalizing s with
  | zero => exact skipBlocked_zero h
  | succ fuel ih =>
    rw [skipBlocked, if_pos h]
    refine (if_neg hpid).trans ?_
    -- the state of the next round has the same contexts
    exact ih (s := { s with runningThread := s.next s.runningThread }) h hpid

/-- The first call. -/
theorem reschedule_first (h : s.first = false) (hrun : s.runningThread ≠ 0) :
    s.reschedule fuel = some ({ s with first := true }, some ⟨none, s.rsp s.runningThread⟩) := by
  rw [reschedule, if_pos h, if_neg hrun]

theorem reschedule_first_null (h : s.first = false) (hrun : s.runningThread = 0) :
    s.reschedule fuel = none := by
  rw [reschedule, if_pos h, if_pos hrun]

section Later

variable (hfirst : s.first = true) (hnull : s.next s.runningThread ≠ 0)
  (hprev : s.prev (s.next s.runningThread) = s.runningThread)
include hfirst hnull hprev

/-- A later call, when the next thread has the pid of the running one: it returns. -/
theorem reschedule_of_pid (hpid : s.pid (s.next s.runningThread) = s.pid s.runningThread) :
    s.reschedule fuel = some ({ s with runningThread := s.next s.runningThread }, none) := by
  rw [reschedule, if_neg (by rw [hfirst]; decide)]
  refine (if_neg hnull).trans (if_pos ?_)
  show s.pid (s.next s.runningThread) = s.pid (s.prev (s.next s.runningThread))
  rw [hprev, hpid]

/-- A later call, when the pids differ, up to the loop. -/
theorem reschedule_of_pid_ne (hpid : s.pid (s.next s.runningThread) ≠ s.pid s.runningThread) :
    s.reschedule fuel =
      match skipBlocked (s.next s.runningThread) fuel
        { s with runningThread := s.next s.runningThread } with
      | none => none
      | some (s, true) => some (s, none)
      | some (s', false) =>
        if s'.pid (s.next s.runningThread) = s'.pid (s'.prev (s.next s.runningThread)) then
          some (s', none)
        else some (s', some ⟨some (s'.prev s'.runningThread), s'.rsp s'.runningThread⟩) := by
  rw [reschedule, if_neg (by rw [hfirst]; decide)]
  refine (if_neg hnull).trans (if_neg ?_)
  show s.pid (s.next s.runningThread) ≠ s.pid (s.prev (s.next s.runningThread))
  rwa [hprev]

/-- **The next thread can run**: it is switched to. -/
theorem reschedule_of_runnable (hpid : s.pid (s.next s.runningThread) ≠ s.pid s.runningThread)
    (hrun : s.blocked (s.next s.runningThread) = false) :
    s.reschedule fuel = some ({ s with runningThread := s.next s.runningThread },
      some ⟨some s.runningThread, s.rsp (s.next s.runningThread)⟩) := by
  rw [reschedule_of_pid_ne hfirst hnull hprev hpid]
  rw [skipBlocked_of_runnable (s := { s with runningThread := s.next s.runningThread }) hrun]
  have hpid' : ¬s.pid (s.next s.runningThread) = s.pid (s.prev (s.next s.runningThread)) := by
    rwa [hprev]
  refine (if_neg hpid').trans ?_
  show some (_, some (Switch.mk (some (s.prev (s.next s.runningThread))) _)) = _
  rw [hprev]
  rfl

/-- The next thread is a blocked idle thread: the call returns, two threads on. -/
theorem reschedule_of_idle (hpid : s.pid (s.next s.runningThread) ≠ s.pid s.runningThread)
    (hblocked : s.blocked (s.next s.runningThread) = true)
    (hidle : s.pid (s.next s.runningThread) = idlePid) :
    s.reschedule (fuel + 1) =
      some ({ s with runningThread := s.next (s.next s.runningThread) }, none) := by
  rw [reschedule_of_pid_ne hfirst hnull hprev hpid]
  rw [skipBlocked_of_idle (s := { s with runningThread := s.next s.runningThread }) hblocked hidle]
  rfl

/-- **The next thread is blocked and not idle**: the call never returns. -/
theorem reschedule_of_blocked (hpid : s.pid (s.next s.runningThread) ≠ s.pid s.runningThread)
    (hblocked : s.blocked (s.next s.runningThread) = true)
    (hidle : s.pid (s.next s.runningThread) ≠ idlePid) : s.reschedule fuel = none := by
  rw [reschedule_of_pid_ne hfirst hnull hprev hpid]
  rw [skipBlocked_of_blocked (s := { s with runningThread := s.next s.runningThread }) hblocked
    hidle]

/-- **A later call that ends**, in its three ways. -/
theorem reschedule_cases (h : s.reschedule fuel = some (s', sw)) :
    (s.pid (s.next s.runningThread) = s.pid s.runningThread ∧
      s' = { s with runningThread := s.next s.runningThread } ∧ sw = none) ∨
    (s.pid (s.next s.runningThread) ≠ s.pid s.runningThread ∧
      s.blocked (s.next s.runningThread) = false ∧
      s' = { s with runningThread := s.next s.runningThread } ∧
      sw = some ⟨some s.runningThread, s.rsp (s.next s.runningThread)⟩) ∨
    (s.pid (s.next s.runningThread) ≠ s.pid s.runningThread ∧
      s.blocked (s.next s.runningThread) = true ∧ s.pid (s.next s.runningThread) = idlePid ∧
      s' = { s with runningThread := s.next (s.next s.runningThread) } ∧ sw = none) := by
  by_cases hpid : s.pid (s.next s.runningThread) = s.pid s.runningThread
  · rw [reschedule_of_pid hfirst hnull hprev hpid] at h
    obtain ⟨rfl, rfl⟩ := Prod.mk.inj (Option.some.inj h)
    exact Or.inl ⟨hpid, rfl, rfl⟩
  · rcases hb : s.blocked (s.next s.runningThread) with _ | _
    · rw [reschedule_of_runnable hfirst hnull hprev hpid hb] at h
      obtain ⟨rfl, rfl⟩ := Prod.mk.inj (Option.some.inj h)
      exact Or.inr (Or.inl ⟨hpid, rfl, rfl, rfl⟩)
    · by_cases hidle : s.pid (s.next s.runningThread) = idlePid
      · cases fuel with
        | zero =>
          rw [reschedule_of_pid_ne hfirst hnull hprev hpid,
            skipBlocked_zero (s := { s with runningThread := s.next s.runningThread }) hb] at h
          cases h
        | succ fuel =>
          rw [reschedule_of_idle hfirst hnull hprev hpid hb hidle] at h
          obtain ⟨rfl, rfl⟩ := Prod.mk.inj (Option.some.inj h)
          exact Or.inr (Or.inr ⟨hpid, rfl, hidle, rfl, rfl⟩)
      · rw [reschedule_of_blocked hfirst hnull hprev hpid hb hidle] at h
        cases h

end Later

/-! ### `scheduler_return` -/

/-- What the search of `scheduler_return` finds: a thread that is not blocked, and the
next one if that is not. -/
theorem findRunnable_eq_some {tempPid : ℕ} (h : s.findRunnable tempPid fuel n = some (some t)) :
    (∃ k, s.next^[k] n = t) ∧ s.blocked t = false ∧ (t = n ∨ s.blocked n = true ∧ s.pid t ≠ tempPid)
    := by
  induction fuel generalizing n with
  | zero =>
    rw [findRunnable] at h
    split_ifs at h with hb
    obtain rfl : n = t := by simpa using h
    exact ⟨⟨0, rfl⟩, by simpa using hb, Or.inl rfl⟩
  | succ fuel ih =>
    rw [findRunnable] at h
    split_ifs at h with hb hpid
    · cases h
    · obtain ⟨⟨k, hk⟩, hrun, hor⟩ := ih h
      refine ⟨⟨k + 1, hk⟩, hrun, Or.inr ⟨hb, ?_⟩⟩
      rcases hor with rfl | ⟨-, hne⟩
      · exact fun he => hpid he.symm
      · exact hne
    · obtain rfl : n = t := by simpa using h
      exact ⟨⟨0, rfl⟩, by simpa using hb, Or.inl rfl⟩

/-- It gives up over blocked threads only. -/
theorem findRunnable_eq_none {tempPid : ℕ} (h : s.findRunnable tempPid fuel n = some none) :
    s.blocked n = true := by
  by_contra hb
  unfold findRunnable at h
  rw [if_neg hb] at h
  cases h

/-- A call that ends through the label `kill_and_switch_to_idle`. -/
theorem killAndSwitchToIdle_eq_some {temp : ℕ}
    (h : s.killAndSwitchToIdle temp idle = some (s', sw)) :
    s' = (s.exitThread temp).hotCreateAndPushThread idle idlePid ∧
      sw = some ⟨none, s'.rsp (s'.next s'.runningThread)⟩ := by
  rw [killAndSwitchToIdle] at h
  split_ifs at h
  obtain ⟨rfl, rfl⟩ := Prod.mk.inj (Option.some.inj h)
  exact ⟨rfl, rfl⟩

/-- **A call of `scheduler_return` that ends**, in its two ways: it switches to a thread
that is not blocked, the next one if possible; or it makes an idle thread, which it does
when the next thread has the pid of the one that exits or is blocked. -/
theorem schedulerReturn_cases (h : s.schedulerReturn fuel idle = some (s', sw)) :
    s.runningThread ≠ 0 ∧
    ((s.pid (s.next s.runningThread) ≠ s.pid s.runningThread ∧
        ∃ t, (∃ k, s.next^[k] (s.next s.runningThread) = t) ∧ s.blocked t = false ∧
          (t = s.next s.runningThread ∨ s.blocked (s.next s.runningThread) = true ∧
            s.pid t ≠ s.pid s.runningThread) ∧
          s' = ({ s with runningThread := s.next s.runningThread }.exitThread
            s.runningThread).setNext s.runningThread 0 ∧
          sw = some ⟨none, s'.rsp t⟩) ∨
      ((s.pid (s.next s.runningThread) = s.pid s.runningThread ∨
          s.blocked (s.next s.runningThread) = true) ∧
        s' = ({ s with runningThread := s.next s.runningThread }.exitThread
          s.runningThread).hotCreateAndPushThread idle idlePid ∧
        sw = some ⟨none, s'.rsp (s'.next s'.runningThread)⟩)) := by
  rw [schedulerReturn] at h
  dsimp only at h
  split_ifs at h with hnull hnext hpid
  · exact ⟨hnull, Or.inr ⟨Or.inl hpid, killAndSwitchToIdle_eq_some h⟩⟩
  · refine ⟨hnull, ?_⟩
    have hexit : { s with runningThread := s.next s.runningThread }.pid s.runningThread =
        s.pid s.runningThread := rfl
    rw [hexit] at h
    rcases hf : findRunnable { s with runningThread := s.next s.runningThread }
      (s.pid s.runningThread) fuel (s.next s.runningThread) with _ | _ | t
    · rw [hf] at h
      cases h
    · rw [hf] at h
      exact Or.inr ⟨Or.inr (findRunnable_eq_none hf :), killAndSwitchToIdle_eq_some h⟩
    · rw [hf] at h
      obtain ⟨rfl, rfl⟩ := Prod.mk.inj (Option.some.inj h)
      obtain ⟨hk, hrun, hor⟩ := findRunnable_eq_some hf
      exact Or.inl ⟨hpid, t, hk, hrun, hor, rfl, rfl⟩

/-! ### `block_thread` -/

theorem findPid_eq_some {k : ℕ} (h : s.findPid pid k n = some t) :
    s.pid t = pid ∧ (t = n ∨ s.pid n ≠ pid) := by
  induction k generalizing n with
  | zero => cases h
  | succ k ih =>
    rw [findPid] at h
    split_ifs at h with hpid
    · obtain rfl : n = t := by simpa using h
      exact ⟨hpid, Or.inl rfl⟩
    · exact ⟨(ih h).1, Or.inr hpid⟩

/-- A thread that blocks itself: the search starts at the running thread. -/
theorem blockThread_self (hrun : s.runningThread ≠ 0) (hb : s.blocked s.runningThread = false) :
    s.blockThread fuel (s.pid s.runningThread) =
      ((s.setStatus3 s.runningThread true).reschedule fuel).map fun r => (s.runningThread, r) := by
  have hf : s.findPid (s.pid s.runningThread) (s.numThreads + 1) s.runningThread =
      some s.runningThread := if_pos rfl
  rw [blockThread, if_neg hrun, hf]
  dsimp only
  rw [if_neg (by rw [hb]; decide), setStatus3_pid, setStatus3_runningThread, if_pos rfl]

/-- **A call of `block_thread` that ends**: it changes nothing, or it blocks another
thread, or it blocks the running one and calls `reschedule`. -/
theorem blockThread_cases (h : s.blockThread fuel pid = some (t, s', sw)) :
    s.runningThread ≠ 0 ∧
    ((s' = s ∧ sw = none) ∨
      (∃ u, s' = s.setStatus3 u true ∧ sw = none) ∨
      (pid = s.pid s.runningThread ∧ s.blocked s.runningThread = false ∧
        (s.setStatus3 s.runningThread true).reschedule fuel = some (s', sw))) := by
  rw [blockThread] at h
  split_ifs at h with hnull
  refine ⟨hnull, ?_⟩
  rcases hf : s.findPid pid (s.numThreads + 1) s.runningThread with _ | u
  · rw [hf] at h
    obtain ⟨-, hr⟩ := Prod.mk.inj (Option.some.inj h)
    obtain ⟨rfl, rfl⟩ := Prod.mk.inj hr
    exact Or.inl ⟨rfl, rfl⟩
  · rw [hf] at h
    dsimp only at h
    split_ifs at h with hb hself
    · obtain ⟨-, hr⟩ := Prod.mk.inj (Option.some.inj h)
      obtain ⟨rfl, rfl⟩ := Prod.mk.inj hr
      exact Or.inl ⟨rfl, rfl⟩
    · -- the search starts at the running thread, so a pid it has is found there
      obtain ⟨⟨s₁, sw₁⟩, hr, heq⟩ := Option.map_eq_some_iff.mp h
      obtain ⟨-, hr'⟩ := Prod.mk.inj heq
      obtain ⟨rfl, rfl⟩ := Prod.mk.inj hr'
      rw [setStatus3_pid] at hself
      have hu : u = s.runningThread :=
        (findPid_eq_some hf).2.resolve_right fun hne => hne hself.symm
      rw [hu] at hr hb
      exact Or.inr (Or.inr ⟨hself, by simpa using hb, hr⟩)
    · obtain ⟨-, hr⟩ := Prod.mk.inj (Option.some.inj h)
      obtain ⟨rfl, rfl⟩ := Prod.mk.inj hr
      exact Or.inr (Or.inl ⟨u, rfl, rfl⟩)

/-! ### All calls -/

/-- **Everything a call that ends can do**: it creates a thread; it changes nothing, or the
status of a thread; it marks the running thread as blocked and calls `reschedule`; or it is
a call of `reschedule` or of `scheduler_return`. -/
theorem exec_cases {c : Call} (hex : c.exec s = some (s', sw)) :
    (∃ t pid, (c.Fresh s → t ≠ 0 ∧ t ∉ s.threads) ∧ c.exits = false ∧
      s' = s.createAndPush t pid ∧ sw = none) ∨
    (c.exits = false ∧ s' = s ∧ sw = none) ∨
    (∃ t b, c.exits = false ∧ s' = s.setStatus3 t b ∧ sw = none) ∨
    (∃ pid fuel, c = .blockThread pid fuel ∧ pid = s.pid s.runningThread ∧
      s.blocked s.runningThread = false ∧
      (s.setStatus3 s.runningThread true).reschedule fuel = some (s', sw)) ∨
    (∃ fuel, c = .reschedule fuel ∧ s.reschedule fuel = some (s', sw)) ∨
    ∃ idle fuel, c = .schedulerReturn idle fuel ∧ s.schedulerReturn fuel idle = some (s', sw) := by
  cases c with
  | hotCreateAndPushThread t pid =>
    obtain ⟨rfl, rfl⟩ := Prod.mk.inj (Option.some.inj hex)
    exact Or.inl ⟨t, pid, id, rfl, rfl, rfl⟩
  | hotExecElf t pid =>
    obtain ⟨rfl, rfl⟩ := Prod.mk.inj (Option.some.inj hex)
    exact Or.inl ⟨t, pid, id, rfl, rfl, rfl⟩
  | hotCreateAndPushUserThread t pid =>
    obtain ⟨rfl, rfl⟩ := Prod.mk.inj (Option.some.inj hex)
    exact Or.inl ⟨t, pid, id, rfl, rfl, rfl⟩
  | blockThread pid fuel =>
    obtain ⟨⟨t, s₁, sw₁⟩, hblock, heq⟩ := Option.map_eq_some_iff.mp hex
    obtain ⟨rfl, rfl⟩ := Prod.mk.inj heq
    obtain ⟨-, ⟨rfl, rfl⟩ | ⟨u, rfl, rfl⟩ | ⟨hpid, hb, hres⟩⟩ := blockThread_cases hblock
    · exact Or.inr (Or.inl ⟨rfl, rfl, rfl⟩)
    · exact Or.inr (Or.inr (Or.inl ⟨u, true, rfl, rfl, rfl⟩))
    · exact Or.inr (Or.inr (Or.inr (Or.inl ⟨pid, fuel, rfl, hpid, hb, hres⟩)))
  | unblockThread t =>
    obtain ⟨rfl, rfl⟩ := Prod.mk.inj (Option.some.inj hex)
    rw [unblockThread]
    split_ifs
    · exact Or.inr (Or.inr (Or.inl ⟨_, _, rfl, rfl, rfl⟩))
    · exact Or.inr (Or.inl ⟨rfl, rfl, rfl⟩)
  | reschedule fuel => exact Or.inr (Or.inr (Or.inr (Or.inr (Or.inl ⟨fuel, rfl, hex⟩))))
  | schedulerReturn idle fuel =>
    exact Or.inr (Or.inr (Or.inr (Or.inr (Or.inr ⟨idle, fuel, rfl, hex⟩))))

end Sched

end Scheduler

end WillowOS
