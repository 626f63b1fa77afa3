import WillowOS.Scheduler.Executing

/-!
# The page table, the kernel stack and the timer of the thread that executes

A thread needs more of the processor than its registers: its page table in `cr3`, the end of its
stack in the TSS, where an interrupt finds it, and the timer that will take the processor away from
it again. `reschedule` and `scheduler_return` begin by loading the page table of the kernel, and
each of their ways out loads what the thread that goes on needs, or forgets to.

The calls are written again here with these loads (`WillowOS.Scheduler.stepLoading`). Without them
they are the calls of the machine (`WillowOS.Scheduler.step_of_stepLoading`). The condition under
which the processor always has the page table, the stack and the timer of the thread that executes
is exact (**`WillowOS.Scheduler.always_matches_iff`**), and it is stronger than the one for
`running_thread` alone: where `reschedule` comes back past a blocked idle thread, `running_thread`
may be right, but the page table is the one of the kernel.
-/

namespace WillowOS

namespace Scheduler

/-- What the scheduler loads besides the registers. -/
structure Loaded where
  /-- The thread whose page table is in `cr3`, or `none` for the one of the kernel. -/
  cr3 : Option ℕ
  /-- The thread whose `stack_base` is in the TSS, or `none` for the address it starts with. -/
  rsp0 : Option ℕ
  /-- The timer has been set since the scheduler was last entered. -/
  timer : Bool
deriving DecidableEq

/-- Everything that a thread needs. -/
def Loaded.of (t : ℕ) : Loaded := ⟨some t, some t, true⟩

namespace Sched

/-- `reschedule`, with what it loads. -/
def rescheduleLoading (fuel : ℕ) (s : Sched) (hw : Loaded) :
    Option ((Sched × Option Switch) × Loaded) :=
  let hw := { hw with cr3 := none, timer := false }
  if s.first = false then
    if s.runningThread = 0 then none
    else some (({ s with first := true }, some ⟨none, s.rsp s.runningThread⟩),
      { hw with rsp0 := some s.runningThread, timer := true, cr3 := some s.runningThread })
  else
    let s := { s with runningThread := s.next s.runningThread }
    let nextThread := s.runningThread
    if nextThread = 0 then none
    else if s.pid nextThread = s.pid (s.prev nextThread) then
      some ((s, none), { hw with timer := true, cr3 := some nextThread })
    else
      match skipBlocked nextThread fuel s with
      | none => none
      -- the timer is set, but the page table stays
      | some (s, true) => some ((s, none), { hw with timer := true })
      | some (s, false) =>
        if s.pid nextThread = s.pid (s.prev nextThread) then some ((s, none), hw)
        else some ((s, some ⟨some (s.prev s.runningThread), s.rsp s.runningThread⟩),
          { hw with rsp0 := some nextThread, timer := true, cr3 := some nextThread })

/-- The label `kill_and_switch_to_idle`, with what it loads. -/
def killAndSwitchToIdleLoading (s : Sched) (temp idle : ℕ) (hw : Loaded) :
    Option ((Sched × Option Switch) × Loaded) :=
  let s := (s.exitThread temp).hotCreateAndPushThread idle idlePid
  if s.pid (s.next s.runningThread) ≠ idlePid then none
  else
    let nextThread := s.next s.runningThread
    some ((s, some ⟨none, s.rsp nextThread⟩),
      { hw with rsp0 := some nextThread, timer := true, cr3 := some nextThread })

/-- `scheduler_return`, with what it loads. -/
def schedulerReturnLoading (fuel : ℕ) (s : Sched) (idle : ℕ) (hw : Loaded) :
    Option ((Sched × Option Switch) × Loaded) :=
  let hw := { hw with cr3 := none, timer := false }
  if s.runningThread = 0 then none
  else
    let temp := s.runningThread
    let s := { s with runningThread := s.next temp }
    let nextThread := s.runningThread
    if nextThread = 0 then none
    else if s.pid nextThread = s.pid temp then s.killAndSwitchToIdleLoading temp idle hw
    else
      match s.findRunnable (s.pid temp) fuel nextThread with
      | none => none
      | some none => s.killAndSwitchToIdleLoading temp idle hw
      | some (some nextThread) =>
        let s := (s.exitThread temp).setNext temp 0
        some ((s, some ⟨none, s.rsp nextThread⟩),
          { hw with rsp0 := some nextThread, timer := true, cr3 := some nextThread })

/-- `block_thread`, with what it loads, up to its result. -/
def blockThreadLoading (fuel : ℕ) (s : Sched) (pid : ℕ) (hw : Loaded) :
    Option ((Sched × Option Switch) × Loaded) :=
  if s.runningThread = 0 then none
  else
    match s.findPid pid (s.numThreads + 1) s.runningThread with
    | none => some ((s, none), hw)
    | some t =>
      if s.blocked t then some ((s, none), hw)
      else
        let s := s.setStatus3 t true
        if pid = s.pid s.runningThread then s.rescheduleLoading fuel hw
        else some ((s, none), hw)

end Sched

/-- A call, with what it loads. `hot_exec_elf` runs on the new page table for a while, but loads the
one it found before it returns. -/
def Call.execLoading (s : Sched) (hw : Loaded) : Call → Option ((Sched × Option Switch) × Loaded)
  | .hotCreateAndPushThread t pid => some ((s.hotCreateAndPushThread t pid, none), hw)
  | .hotExecElf t pid => some ((s.hotExecElf t pid, none), hw)
  | .hotCreateAndPushUserThread t pid => some ((s.hotCreateAndPushUserThread t pid, none), hw)
  | .blockThread pid fuel => s.blockThreadLoading fuel pid hw
  | .unblockThread t => some ((s.unblockThread t, none), hw)
  | .reschedule fuel => s.rescheduleLoading fuel hw
  | .schedulerReturn idle fuel => s.schedulerReturnLoading fuel idle hw

/-- A step of the machine, with what it loads. Only a thread calls `scheduler_return`. -/
def stepLoading (m : Machine × Loaded) : Event → Option (Machine × Loaded)
  | .call c =>
    if c.Fresh m.1.sched ∧ (c.exits = true → m.1.sched.first = true) then
      (c.execLoading m.1.sched m.2).map fun r => (afterCall m.1.cpu r.1, r.2)
    else none
  | .compute gpr fx index words =>
    (step m.1 (.compute gpr fx index words)).map fun m' => (m', m.2)

/-! ### Without the loads -/

open Sched

variable {s s' : Sched} {l : List ℕ} {t u pid fuel idle : ℕ} {sw : Option Switch} {hw hw' : Loaded}
  {c : Call} {e : Event} {m m' : Machine}

theorem result_inj {r : Sched × Option Switch} {hw₁ : Loaded}
    (h : some (r, hw₁) = some ((s', sw), hw')) : r.1 = s' ∧ r.2 = sw ∧ hw₁ = hw' := by
  obtain ⟨rfl, rfl⟩ := Prod.mk.inj (Option.some.inj h)
  exact ⟨rfl, rfl, rfl⟩

theorem rescheduleLoading_fst :
    (s.rescheduleLoading fuel hw).map Prod.fst = s.reschedule fuel := by
  rw [rescheduleLoading, reschedule]
  dsimp only
  split_ifs with h1 h2 h3 h4
  · rfl
  · rfl
  · rfl
  · rfl
  · rcases skipBlocked (s.next s.runningThread) fuel
      { s with runningThread := s.next s.runningThread } with _ | ⟨s', _ | _⟩
    · rfl
    · dsimp only
      split_ifs <;> rfl
    · rfl

theorem killAndSwitchToIdleLoading_fst :
    (s.killAndSwitchToIdleLoading t idle hw).map Prod.fst = s.killAndSwitchToIdle t idle := by
  rw [killAndSwitchToIdleLoading, killAndSwitchToIdle]
  dsimp only
  split_ifs <;> rfl

theorem schedulerReturnLoading_fst :
    (s.schedulerReturnLoading fuel idle hw).map Prod.fst = s.schedulerReturn fuel idle := by
  rw [schedulerReturnLoading, schedulerReturn]
  dsimp only
  split_ifs with h1 h2 h3
  · rfl
  · rfl
  · exact killAndSwitchToIdleLoading_fst
  · rcases findRunnable { s with runningThread := s.next s.runningThread } _ fuel
      (s.next s.runningThread) with _ | _ | u
    · rfl
    · exact killAndSwitchToIdleLoading_fst
    · rfl

theorem blockThreadLoading_fst :
    (s.blockThreadLoading fuel pid hw).map Prod.fst = (s.blockThread fuel pid).map Prod.snd := by
  rw [blockThreadLoading, blockThread]
  split_ifs with h1
  · rfl
  · rcases s.findPid pid (s.numThreads + 1) s.runningThread with _ | u
    · rfl
    · dsimp only
      split_ifs with h2 h3
      · rfl
      · rw [rescheduleLoading_fst, Option.map_map]
        exact Option.map_id'.symm
      · rfl

/-- **Without what it loads, a call is the call of the machine.** -/
theorem execLoading_fst : (c.execLoading s hw).map Prod.fst = c.exec s := by
  cases c with
  | hotCreateAndPushThread t pid => rfl
  | hotExecElf t pid => rfl
  | hotCreateAndPushUserThread t pid => rfl
  | unblockThread t => rfl
  | blockThread pid fuel => exact blockThreadLoading_fst
  | reschedule fuel => exact rescheduleLoading_fst
  | schedulerReturn idle fuel => exact schedulerReturnLoading_fst

theorem exec_of_execLoading (h : c.execLoading s hw = some ((s', sw), hw')) :
    c.exec s = some (s', sw) := by
  have hfst : (c.execLoading s hw).map Prod.fst = c.exec s := execLoading_fst
  rw [← hfst, h]
  rfl

/-- **Without the loads, a step is a step of the machine.** -/
theorem step_of_stepLoading (h : stepLoading (m, hw) e = some (m', hw')) :
    step m e = some m' := by
  cases e with
  | call c =>
    rw [stepLoading] at h
    split_ifs at h with hc
    obtain ⟨⟨⟨s', sw⟩, hw₁⟩, hex, heq⟩ := Option.map_eq_some_iff.mp h
    obtain ⟨rfl, -⟩ := Prod.mk.inj heq
    rw [step, if_pos hc.1, exec_of_execLoading hex]
    rfl
  | compute gpr fx index words =>
    rw [stepLoading] at h
    obtain ⟨m₁, hm, heq⟩ := Option.map_eq_some_iff.mp h
    obtain ⟨rfl, -⟩ := Prod.mk.inj heq
    exact hm

/-! ### What the calls load -/

section Later

variable (hfirst : s.first = true) (hnull : s.next s.runningThread ≠ 0)
  (hprev : s.prev (s.next s.runningThread) = s.runningThread)
include hfirst hnull hprev

/-- **What `reschedule` loads** after the first dispatch: the page table of the next thread where
the pids are the same; everything the next thread needs where it switches; and past a blocked idle
thread, no page table but the kernel's. -/
theorem rescheduleLoading_cases (h : s.rescheduleLoading fuel hw = some ((s', sw), hw')) :
    (s.pid (s.next s.runningThread) = s.pid s.runningThread ∧
      s' = { s with runningThread := s.next s.runningThread } ∧ sw = none ∧
      hw' = { hw with cr3 := some (s.next s.runningThread), timer := true }) ∨
    (s.pid (s.next s.runningThread) ≠ s.pid s.runningThread ∧
      s.blocked (s.next s.runningThread) = false ∧
      s' = { s with runningThread := s.next s.runningThread } ∧
      sw = some ⟨some s.runningThread, s.rsp (s.next s.runningThread)⟩ ∧
      hw' = Loaded.of (s.next s.runningThread)) ∨
    (s.pid (s.next s.runningThread) ≠ s.pid s.runningThread ∧
      s.blocked (s.next s.runningThread) = true ∧ s'.first = true ∧ sw = none ∧
      hw'.cr3 = none) := by
  have hex : s.reschedule fuel = some (s', sw) :=
    exec_of_execLoading (c := .reschedule fuel) h
  have hpid' : { s with runningThread := s.next s.runningThread }.pid
      ({ s with runningThread := s.next s.runningThread }.prev (s.next s.runningThread)) =
      s.pid s.runningThread := congrArg s.pid hprev
  have hnext : { s with runningThread := s.next s.runningThread }.pid (s.next s.runningThread) =
      s.pid (s.next s.runningThread) := rfl
  rw [rescheduleLoading, if_neg (by rw [hfirst]; decide)] at h
  dsimp only at h
  rw [if_neg hnull, hpid', hnext] at h
  rcases reschedule_cases hfirst hnull hprev hex with
    ⟨hpid, rfl, rfl⟩ | ⟨hpid, hb, rfl, rfl⟩ | ⟨hpid, hb, hidle, rfl, rfl⟩
  · rw [if_pos hpid] at h
    exact Or.inl ⟨hpid, rfl, rfl, (result_inj h).2.2.symm⟩
  · rw [if_neg hpid, skipBlocked_of_runnable
      (s := { s with runningThread := s.next s.runningThread }) hb] at h
    dsimp only at h
    rw [hpid', hnext, if_neg hpid] at h
    exact Or.inr (Or.inl ⟨hpid, hb, rfl, rfl, (result_inj h).2.2.symm⟩)
  · rw [if_neg hpid] at h
    cases fuel with
    | zero =>
      rw [skipBlocked_zero (s := { s with runningThread := s.next s.runningThread }) hb] at h
      cases h
    | succ fuel =>
      rw [skipBlocked_of_idle (s := { s with runningThread := s.next s.runningThread }) hb
        hidle] at h
      refine Or.inr (Or.inr ⟨hpid, hb, hfirst, rfl, ?_⟩)
      rw [← (result_inj h).2.2]

end Later

/-- The first dispatch loads everything. -/
theorem rescheduleLoading_first (hfirst : s.first = false)
    (h : s.rescheduleLoading fuel hw = some ((s', sw), hw')) :
    s' = { s with first := true } ∧ sw = some ⟨none, s.rsp s.runningThread⟩ ∧
      hw' = Loaded.of s.runningThread := by
  rw [rescheduleLoading, if_pos hfirst] at h
  split_ifs at h
  obtain ⟨rfl, rfl, rfl⟩ := result_inj h
  exact ⟨rfl, rfl, rfl⟩

/-- `kill_and_switch_to_idle` loads what the thread it switches to needs. -/
theorem killAndSwitchToIdleLoading_eq_some
    (h : s.killAndSwitchToIdleLoading t idle hw = some ((s', sw), hw')) :
    s'.first = s.first ∧ sw = some ⟨none, s'.rsp (s'.next s'.runningThread)⟩ ∧
      hw' = Loaded.of (s'.next s'.runningThread) := by
  rw [killAndSwitchToIdleLoading] at h
  dsimp only at h
  split_ifs at h
  obtain ⟨rfl, rfl, rfl⟩ := result_inj h
  exact ⟨createAndPush_first, rfl, rfl⟩

/-- **What `scheduler_return` loads** is always what the thread it switches to needs. -/
theorem schedulerReturnLoading_eq_some
    (h : s.schedulerReturnLoading fuel idle hw = some ((s', sw), hw')) :
    s'.first = s.first ∧ ∃ n, sw = some ⟨none, s'.rsp n⟩ ∧ hw' = Loaded.of n ∧
      (s'.rsp = s.rsp ∧ (∃ k, s.next^[k] (s.next s.runningThread) = n) ∨
        n = s'.next s'.runningThread) := by
  rw [schedulerReturnLoading] at h
  dsimp only at h
  split_ifs at h with h1 h2 h3
  · obtain ⟨hfirst, hsw, hhw⟩ := killAndSwitchToIdleLoading_eq_some h
    exact ⟨hfirst, _, hsw, hhw, Or.inr rfl⟩
  · rcases hf : findRunnable { s with runningThread := s.next s.runningThread }
      ({ s with runningThread := s.next s.runningThread }.pid s.runningThread) fuel
      (s.next s.runningThread) with _ | _ | u
    · rw [hf] at h
      cases h
    · rw [hf] at h
      obtain ⟨hfirst, hsw, hhw⟩ := killAndSwitchToIdleLoading_eq_some h
      exact ⟨hfirst, _, hsw, hhw, Or.inr rfl⟩
    · rw [hf] at h
      obtain ⟨rfl, rfl, rfl⟩ := result_inj h
      refine ⟨rfl, u, rfl, rfl, Or.inl ⟨?_, (findRunnable_eq_some hf).1⟩⟩
      rw [setNext_rsp, exitThread_rsp]
      rfl

/-! ### The condition -/

/-- The processor has what the thread that executes needs, and `running_thread` points to it. -/
def Matches (m : Machine × Loaded) : Prop :=
  m.1.sched.first = true → Executing m.1 ∧ m.2 = Loaded.of m.1.cpu.rsp.block

/-- The condition on a call that moves `running_thread`: the running thread is alone; or the next
one has another pid and is not blocked. -/
def ToNext (s : Sched) : Call → Prop
  | .reschedule _ => s.first = true → ExitsToNext s
  | .blockThread pid _ => s.first = true → pid = s.pid s.runningThread →
    s.blocked s.runningThread = false → ExitsToNext s
  | .schedulerReturn _ _ => ExitsToNext s
  | _ => True

def ToNextStep (m : Machine × Loaded) : Event → Prop
  | .call c => ToNext m.1.sched c
  | .compute .. => True

/-- **What `block_thread` loads**: nothing, or what `reschedule` does. -/
theorem blockThreadLoading_eq_some (h : s.blockThreadLoading fuel pid hw = some ((s', sw), hw')) :
    (sw = none ∧ hw' = hw ∧ s'.first = s.first ∧ s'.runningThread = s.runningThread ∧
        ¬(pid = s.pid s.runningThread ∧ s.blocked s.runningThread = false)) ∨
      (pid = s.pid s.runningThread ∧ s.blocked s.runningThread = false ∧
        (s.setStatus3 s.runningThread true).rescheduleLoading fuel hw = some ((s', sw), hw')) := by
  rw [blockThreadLoading] at h
  split_ifs at h
  -- the search starts at the running thread, so a pid it has is found there
  have hself (he : pid = s.pid s.runningThread) :
      s.findPid pid (s.numThreads + 1) s.runningThread = some s.runningThread := by
    rw [he]
    exact if_pos rfl
  rcases hf : s.findPid pid (s.numThreads + 1) s.runningThread with _ | u
  · rw [hf] at h
    obtain ⟨rfl, rfl, rfl⟩ := result_inj h
    refine Or.inl ⟨rfl, rfl, rfl, rfl, fun hcon => ?_⟩
    rw [hself hcon.1] at hf
    cases hf
  · rw [hf] at h
    dsimp only at h
    split_ifs at h with hb hpid
    · obtain ⟨rfl, rfl, rfl⟩ := result_inj h
      refine Or.inl ⟨rfl, rfl, rfl, rfl, fun hcon => ?_⟩
      obtain rfl : u = s.runningThread := (Option.some.inj ((hself hcon.1).symm.trans hf)).symm
      rw [hcon.2] at hb
      cases hb
    · rw [setStatus3_pid] at hpid
      obtain rfl : u = s.runningThread := (Option.some.inj ((hself hpid).symm.trans hf)).symm
      exact Or.inr ⟨hpid, by simpa using hb, h⟩
    · obtain ⟨rfl, rfl, rfl⟩ := result_inj h
      rw [setStatus3_pid] at hpid
      exact Or.inl ⟨rfl, rfl, rfl, rfl, fun hcon => hpid hcon.1⟩

/-- **Everything a call can load**: nothing, or what one of these two does. -/
theorem execLoading_cases (h : c.execLoading s hw = some ((s', sw), hw')) :
    (ToNext s c ∧ sw = none ∧ hw' = hw ∧ s'.first = s.first ∧
      ∀ l, RingOf s l → c.Fresh s → s'.runningThread = s.runningThread) ∨
    (∃ pid fuel, c = .blockThread pid fuel ∧ pid = s.pid s.runningThread ∧
      s.blocked s.runningThread = false ∧
      (s.setStatus3 s.runningThread true).rescheduleLoading fuel hw = some ((s', sw), hw')) ∨
    (∃ fuel, c = .reschedule fuel ∧ s.rescheduleLoading fuel hw = some ((s', sw), hw')) ∨
    ∃ idle fuel, c = .schedulerReturn idle fuel ∧
      s.schedulerReturnLoading fuel idle hw = some ((s', sw), hw') := by
  -- the calls that make or unblock a thread
  have hplain {s₁ : Sched} (hs : s₁.first = s.first)
      (hrun : ∀ l, RingOf s l → c.Fresh s → s₁.runningThread = s.runningThread)
      (heq : some ((s₁, none), hw) = some ((s', sw), hw')) :
      sw = none ∧ hw' = hw ∧ s'.first = s.first ∧
        ∀ l, RingOf s l → c.Fresh s → s'.runningThread = s.runningThread := by
    obtain ⟨rfl, rfl, rfl⟩ := result_inj heq
    exact ⟨rfl, rfl, hs, hrun⟩
  have hcreate {t pid : ℕ} (hf : c.Fresh s → t ≠ 0 ∧ t ∉ s.threads) (l : List ℕ) (hl : RingOf s l)
      (hfresh : c.Fresh s) : (s.createAndPush t pid).runningThread = s.runningThread :=
    (ringOf_createAndPush pid hl (hf hfresh).1 (hf hfresh).2).2
  cases c with
  | hotCreateAndPushThread t pid =>
    exact Or.inl ⟨trivial, hplain createAndPush_first (hcreate id) h⟩
  | hotExecElf t pid => exact Or.inl ⟨trivial, hplain createAndPush_first (hcreate id) h⟩
  | hotCreateAndPushUserThread t pid =>
    exact Or.inl ⟨trivial, hplain createAndPush_first (hcreate id) h⟩
  | unblockThread t =>
    refine Or.inl ⟨trivial, hplain ?_ (fun _ _ _ => ?_) h⟩
    · rw [unblockThread]
      split_ifs <;> rfl
    · rw [unblockThread]
      split_ifs <;> rfl
  | blockThread pid fuel =>
    rcases blockThreadLoading_eq_some h with ⟨hsw, hhw, hfirst, hrun, hother⟩ | hres
    · exact Or.inl ⟨fun _ hpid hb => absurd ⟨hpid, hb⟩ hother, hsw, hhw, hfirst,
        fun _ _ _ => hrun⟩
    · exact Or.inr (Or.inl ⟨pid, fuel, rfl, hres⟩)
  | reschedule fuel => exact Or.inr (Or.inr (Or.inl ⟨fuel, rfl, h⟩))
  | schedulerReturn idle fuel => exact Or.inr (Or.inr (Or.inr ⟨idle, fuel, rfl, h⟩))

theorem ExitsToNext.steady (h : ExitsToNext s) : Steady s := by
  refine h.imp_right fun h => ⟨h.1, fun hb => ?_⟩
  rw [h.2] at hb
  cases hb

theorem exitsToNext_setStatus3 :
    ExitsToNext (s.setStatus3 s.runningThread true) ↔ ExitsToNext s := by
  rw [ExitsToNext, ExitsToNext, setStatus3_next, setStatus3_pid, setStatus3_blocked,
    setStatus3_runningThread]
  by_cases hself : s.next s.runningThread = s.runningThread
  · simp [hself]
  · rw [Function.update_of_ne hself]

/-- `reschedule` after the first dispatch. -/
theorem matches_reschedule {cpu : Cpu} (hring : RingOf s l) (hown : OwnStacks s)
    (hfirst : s.first = true) (hexec : cpu.rsp.block = s.runningThread)
    (hhw : hw = Loaded.of s.runningThread)
    (h : s.rescheduleLoading fuel hw = some ((s', sw), hw')) :
    Matches (afterCall cpu (s', sw), hw') ↔ ExitsToNext s := by
  have hn := hring.next_mem hring.running_mem
  rcases rescheduleLoading_cases hfirst (hring.ne_zero hn) (hring.prev_next hring.running_mem) h
    with ⟨hpid, rfl, rfl, rfl⟩ | ⟨hpid, hb, rfl, rfl, rfl⟩ | ⟨hpid, hb, hfirst', rfl, hcr3⟩
  · -- the page table of the next thread, which does not execute unless it is the same
    constructor
    · intro hm
      exact Or.inl ((hm hfirst).1.symm.trans hexec)
    · intro hto _
      have hself : s.next s.runningThread = s.runningThread :=
        hto.resolve_right fun h => h.1 hpid
      refine ⟨hexec.trans hself.symm, ?_⟩
      change _ = Loaded.of cpu.rsp.block
      rw [hhw, hself, hexec]
      rfl
  · refine iff_of_true (fun _ => ?_) (Or.inr ⟨hpid, hb⟩)
    have hblock : (s.rsp (s.next s.runningThread)).block = s.next s.runningThread :=
      hown _ hn
    have hrun := (@sameRing_saveState { s with runningThread := s.next s.runningThread } cpu
      (some s.runningThread)).runningThread
    refine ⟨hblock.trans hrun.symm, ?_⟩
    change _ = Loaded.of (s.rsp (s.next s.runningThread)).block
    rw [hblock]
  · refine iff_of_false (fun hm => ?_) fun hto => ?_
    · have hof : hw' = Loaded.of cpu.rsp.block := (hm hfirst').2
      rw [hof] at hcr3
      cases hcr3
    · rcases hto with hself | ⟨-, hb'⟩
      · exact hpid (congrArg s.pid hself)
      · rw [hb] at hb'
        cases hb'

/-- The first dispatch. -/
theorem matches_first {cpu : Cpu} (hring : RingInv s) (hown : OwnStacks s)
    (hfirst : s.first = false) (h : s.rescheduleLoading fuel hw = some ((s', sw), hw')) :
    Matches (afterCall cpu (s', sw), hw') := by
  have hrun : s.runningThread ≠ 0 := by
    intro h0
    rw [rescheduleLoading, if_pos hfirst, if_pos h0] at h
    cases h
  obtain ⟨l, hl⟩ := hring.exists_ring hrun
  obtain ⟨rfl, rfl, rfl⟩ := rescheduleLoading_first hfirst h
  intro _
  have hblock : (s.rsp s.runningThread).block = s.runningThread := hown _ hl.running_mem
  have hsame := (@sameRing_saveState { s with first := true } cpu none).runningThread
  refine ⟨hblock.trans hsame.symm, ?_⟩
  change _ = Loaded.of (s.rsp s.runningThread).block
  rw [hblock]

/-- `scheduler_return` leaves the threads on their own stacks. -/
theorem OwnStacks.schedulerReturn (hown : OwnStacks s)
    (hex : s.schedulerReturn fuel idle = some (s', sw)) : OwnStacks s' := by
  have hexit : OwnStacks ({ s with runningThread := s.next s.runningThread }.exitThread
      s.runningThread) :=
    hown.congr exitThread_rsp fun _ ht => List.mem_of_mem_erase ht
  obtain ⟨-, ⟨-, t, -, -, -, rfl, -⟩ | ⟨-, rfl, -⟩⟩ := schedulerReturn_cases hex
  · exact hexit.congr setNext_rsp fun _ ht => ht
  · exact hexit.createAndPush

/-- **What `scheduler_return` loads** is what the thread on the stack it loads needs. -/
theorem own_of_schedulerReturnLoading (hring : RingOf s l) (hown : OwnStacks s)
    (hfirst : s.first = true)
    (hfresh : Call.Fresh s (.schedulerReturn idle fuel))
    (h : s.schedulerReturnLoading fuel idle hw = some ((s', sw), hw')) :
    s'.first = s.first ∧ ∃ x, sw = some x ∧ hw' = Loaded.of x.load.block := by
  obtain ⟨hfirst', n, rfl, rfl, hn⟩ := schedulerReturnLoading_eq_some h
  have hex : (Call.schedulerReturn idle fuel).exec s = some (s', some ⟨none, s'.rsp n⟩) :=
    exec_of_execLoading (c := .schedulerReturn idle fuel) h
  refine ⟨hfirst', _, rfl, ?_⟩
  suffices hblock : (s'.rsp n).block = n by rw [hblock]
  rcases hn with ⟨hrsp, hk⟩ | rfl
  · rw [hrsp]
    exact hown n ((hring.ringOk.reach _ (hring.next_mem hring.running_mem) n).mp hk)
  · -- the idle thread that was made is in the ring
    rcases ringInv_exec (Or.inr ⟨l, hring⟩) hfresh hex with h0 | ⟨l', hl'⟩
    · exact absurd (h0.first.symm.trans (hfirst'.trans hfirst)) (by decide)
    · exact OwnStacks.schedulerReturn hown hex _ (hl'.next_mem hl'.running_mem)

/-- `scheduler_return`. -/
theorem matches_schedulerReturn (hinv : ExecInv m) (hfirst : m.sched.first = true)
    (hfresh : Call.Fresh m.sched (.schedulerReturn idle fuel))
    (h : m.sched.schedulerReturnLoading fuel idle hw = some ((s', sw), hw')) :
    Matches (afterCall m.cpu (s', sw), hw') ↔ ExitsToNext m.sched := by
  obtain ⟨l, hl⟩ := hinv.exists_ring hfirst
  have hex : (Call.schedulerReturn idle fuel).exec m.sched = some (s', sw) :=
    exec_of_execLoading (c := .schedulerReturn idle fuel) h
  have hstep : step m (.call (.schedulerReturn idle fuel)) = some (afterCall m.cpu (s', sw)) := by
    rw [step, if_pos hfresh, hex]
    rfl
  obtain ⟨hfirst', x, rfl, rfl⟩ := own_of_schedulerReturnLoading hl hinv.own hfirst hfresh h
  have hafter : (afterCall m.cpu (s', some x)).sched.first = true :=
    sameRing_afterCall.first.trans (hfirst'.trans hfirst)
  constructor
  · intro hm
    by_contra hnot
    exact not_executing_of_not_sound hinv hfirst hfresh (fun hs => hnot hs.2) hex (hm hafter).1
  · intro hto _
    have hsound : SoundStep m (.call (.schedulerReturn idle fuel)) :=
      show Sound m.sched (.schedulerReturn idle fuel) from ⟨hfirst, hto⟩
    exact ⟨(execInv_step hinv hsound hstep).exec hafter, rfl⟩

/-- **A step keeps the match exactly when it meets the condition.** -/
theorem matches_step_iff (hinv : ExecInv m) (hm : Matches (m, hw))
    (h : stepLoading (m, hw) e = some (m', hw')) :
    Matches (m', hw') ↔ ToNextStep (m, hw) e := by
  cases e with
  | compute gpr fx index words =>
    rw [stepLoading] at h
    obtain ⟨m₁, hm₁, heq⟩ := Option.map_eq_some_iff.mp h
    obtain ⟨rfl, rfl⟩ := Prod.mk.inj heq
    obtain rfl := Option.some.inj hm₁
    exact iff_of_true hm trivial
  | call c =>
    rw [stepLoading] at h
    split_ifs at h with hc
    obtain ⟨⟨⟨s', sw⟩, hw₁⟩, hex, heq⟩ := Option.map_eq_some_iff.mp h
    obtain ⟨rfl, rfl⟩ := Prod.mk.inj heq
    change _ ↔ ToNext m.sched c
    rcases hfirst : m.sched.first with _ | _
    · -- before the first dispatch
      obtain ⟨hto, rfl, rfl, hf, -⟩ | ⟨pid, fuel, rfl, -, -, hres⟩ | ⟨fuel, rfl, hres⟩ |
        ⟨idle, fuel, rfl, -⟩ := execLoading_cases hex
      · refine iff_of_true (fun ht => ?_) hto
        exact absurd (ht.symm.trans (hf.trans hfirst)) (by decide)
      · refine iff_of_true (matches_first hinv.ring.setStatus3 hinv.own.setStatus3 hfirst hres)
          fun ht => ?_
        exact absurd (ht.symm.trans hfirst) (by decide)
      · refine iff_of_true (matches_first hinv.ring hinv.own hfirst hres) fun ht => ?_
        exact absurd (ht.symm.trans hfirst) (by decide)
      · exact absurd ((hc.2 rfl).symm.trans hfirst) (by decide)
    · obtain ⟨l, hl⟩ := hinv.exists_ring hfirst
      obtain ⟨hexec, hof⟩ := hm hfirst
      have hof' : hw = Loaded.of m.sched.runningThread := hof.trans (congrArg Loaded.of hexec)
      obtain ⟨hto, rfl, rfl, hf, hrun⟩ | ⟨pid, fuel, rfl, hpid, hb, hres⟩ | ⟨fuel, rfl, hres⟩ |
        ⟨idle, fuel, rfl, hret⟩ := execLoading_cases hex
      · exact iff_of_true (fun _ => ⟨hexec.trans (hrun l hl hc.1).symm, hof⟩) hto
      · rw [matches_reschedule hl.setStatus3 hinv.own.setStatus3 hfirst hexec hof' hres,
          exitsToNext_setStatus3]
        exact ⟨fun hto _ _ _ => hto, fun hto => hto hfirst hpid hb⟩
      · rw [matches_reschedule hl hinv.own hfirst hexec hof' hres]
        exact ⟨fun hto _ => hto, fun hto => hto hfirst⟩
      · exact matches_schedulerReturn hinv hfirst hc.1 hret

/-- The condition is stronger than the one for `running_thread`. -/
theorem soundStep_of_toNextStep (hG : ToNextStep (m, hw) e)
    (h : stepLoading (m, hw) e = some (m', hw')) : SoundStep m e := by
  cases e with
  | compute gpr fx index words => trivial
  | call c =>
    rw [stepLoading] at h
    split_ifs at h with hc
    cases c with
    | hotCreateAndPushThread t pid => trivial
    | hotExecElf t pid => trivial
    | hotCreateAndPushUserThread t pid => trivial
    | unblockThread t => trivial
    | blockThread pid fuel => exact fun hf hpid hb => (hG hf hpid hb).steady
    | reschedule fuel => exact fun hf => (hG hf).steady
    | schedulerReturn idle fuel => exact ⟨hc.2 rfl, hG⟩

/-- **The thread that executes has its page table, its kernel stack and its timer**, in every state
of a run from boot, exactly if every call that moves `running_thread` finds the next thread able to
run and with another pid, or the running thread alone. -/
theorem always_matches_iff (ctx : ℕ → ThreadContext) (stack : ℕ → ℤ → ℕ) (index : ℤ)
    (gpr : Fin 15 → ℕ) (fx : FxImage) (hw : Loaded) (es : List Event) (t : Machine × Loaded)
    (h : es.foldlM stepLoading (boot ctx stack index gpr fx, hw) = some t) :
    Always stepLoading Matches (boot ctx stack index gpr fx, hw) es ↔
      Meets stepLoading ToNextStep (boot ctx stack index gpr fx, hw) es := by
  refine always_iff_meets_of_meets (I := fun m => ExecInv m.1) ?_ execInv_boot nofun h
  rintro ⟨m, hw⟩ e ⟨m', hw'⟩ hinv hm hstep
  refine ⟨matches_step_iff hinv hm hstep, fun hG => ?_⟩
  exact execInv_step hinv (soundStep_of_toNextStep hG hstep) (step_of_stepLoading hstep)

instance (m : Machine × Loaded) (e : Event) : Decidable (ToNextStep m e) :=
  match e with
  | .call (.reschedule _) => inferInstanceAs (Decidable (_ → _))
  | .call (.blockThread _ _) => inferInstanceAs (Decidable (_ → _ → _ → _))
  | .call (.schedulerReturn _ _) => inferInstanceAs (Decidable (ExitsToNext m.1.sched))
  | .call (.hotCreateAndPushThread _ _) => inferInstanceAs (Decidable True)
  | .call (.hotExecElf _ _) => inferInstanceAs (Decidable True)
  | .call (.hotCreateAndPushUserThread _ _) => inferInstanceAs (Decidable True)
  | .call (.unblockThread _) => inferInstanceAs (Decidable True)
  | .compute .. => inferInstanceAs (Decidable True)

/-- The TSS and the page table the kernel starts with. -/
def bootLoaded : Loaded := ⟨none, none, false⟩

theorem always_matches_iff_takeTurns :
    Always stepLoading Matches (clearBoot, bootLoaded) takeTurns := by
  have hrun : (takeTurns.foldlM stepLoading (clearBoot, bootLoaded)).map
      (fun m => (m.1.sched.threads, m.2)) = some ([2], Loaded.of 2) := by decide +kernel
  obtain ⟨m, hm, -⟩ := Option.map_eq_some_iff.mp hrun
  exact (always_matches_iff _ _ _ _ _ bootLoaded takeTurns m hm).mpr
    (meets_of_checkMeets (by decide +kernel))

end Scheduler

end WillowOS
