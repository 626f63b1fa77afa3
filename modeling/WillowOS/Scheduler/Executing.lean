import WillowOS.Scheduler.Ring

/-!
# Is the running thread the one that executes?

The processor executes the thread whose stack it is on. `running_thread` is to be that
thread, so that a switch saves the stack pointer of the outgoing thread in its own context
and loads that of the thread `running_thread` designates.

The calls that move `running_thread` do so before they know whether, and to which thread,
they will switch. `reschedule` may return without a switch after having moved on, and
`scheduler_return` may switch to a thread further on, or to the idle thread it inserts
after the one it has moved to. The condition under which none of this happens is a
condition on the thread after the running one (`WillowOS.Scheduler.Steady`,
`WillowOS.Scheduler.ExitsToNext`). Under it every switch is right
(**`WillowOS.Scheduler.executing_of_meets`**), and the first call that breaks it leaves
`running_thread` pointing to a thread that does not execute.
-/

namespace WillowOS

namespace Scheduler

open Sched

/-- The thread that executes is the one `running_thread` points to. -/
def Executing (m : Machine) : Prop := m.cpu.rsp.block = m.sched.runningThread

/-- **What a switch at the end of a call has to be**: it loads the stack pointer of the
thread that `running_thread` designates; and, if a thread executed and the call is not its
end, it saves the stack pointer of that thread in its own context. -/
structure SwitchOk (cpu : Cpu) (c : Call) (s : Sched) (sw : Switch) : Prop where
  load : sw.load = s.rsp s.runningThread
  save : cpu.rsp.block ∈ s.threads → c.exits = false → sw.save = some cpu.rsp.block

/-- The condition for `reschedule`: the running thread is alone; or the next one has
another pid, and is not a blocked idle thread – unless these two are all. -/
def Steady (s : Sched) : Prop :=
  s.next s.runningThread = s.runningThread ∨
    s.pid (s.next s.runningThread) ≠ s.pid s.runningThread ∧
      (s.blocked (s.next s.runningThread) = true → s.pid (s.next s.runningThread) = idlePid →
        s.next (s.next s.runningThread) = s.runningThread)

/-- The condition for `scheduler_return`: the running thread is alone; or the next one has
another pid and is not blocked. -/
def ExitsToNext (s : Sched) : Prop :=
  s.next s.runningThread = s.runningThread ∨
    s.pid (s.next s.runningThread) ≠ s.pid s.runningThread ∧
      s.blocked (s.next s.runningThread) = false

/-- The condition on a call. A thread that blocks itself calls `reschedule`. Only a thread
exits, so `scheduler_return` is not called before the first dispatch. -/
def Sound (s : Sched) : Call → Prop
  | .reschedule _ => s.first = true → Steady s
  | .blockThread pid _ =>
    s.first = true → pid = s.pid s.runningThread → s.blocked s.runningThread = false → Steady s
  | .schedulerReturn _ _ => s.first = true ∧ ExitsToNext s
  | _ => True

/-- The condition on a step. -/
def SoundStep (m : Machine) : Event → Prop
  | .call c => Sound m.sched c
  | .compute .. => True

instance (s : Sched) : Decidable (Steady s) := inferInstanceAs (Decidable (_ ∨ _ ∧ _))

instance (s : Sched) : Decidable (ExitsToNext s) := inferInstanceAs (Decidable (_ ∨ _ ∧ _))

instance (m : Machine) (e : Event) : Decidable (SoundStep m e) :=
  match e with
  | .call (.reschedule _) => inferInstanceAs (Decidable (_ → _))
  | .call (.blockThread _ _) => inferInstanceAs (Decidable (_ → _ → _ → _))
  | .call (.schedulerReturn _ _) => inferInstanceAs (Decidable (_ ∧ _))
  | .call (.hotCreateAndPushThread _ _) => inferInstanceAs (Decidable True)
  | .call (.hotExecElf _ _) => inferInstanceAs (Decidable True)
  | .call (.hotCreateAndPushUserThread _ _) => inferInstanceAs (Decidable True)
  | .call (.unblockThread _) => inferInstanceAs (Decidable True)
  | .compute .. => inferInstanceAs (Decidable True)

/-! ### Stack pointers -/

/-- Every thread's saved stack pointer points into its own stack. -/
def OwnStacks (s : Sched) : Prop := ∀ t ∈ s.threads, (s.rsp t).block = t

variable {s s' : Sched} {l : List ℕ} {t u pid fuel idle : ℕ} {sw : Option Switch}

theorem OwnStacks.congr (h : OwnStacks s) (hrsp : s'.rsp = s.rsp)
    (hthreads : ∀ t ∈ s'.threads, t ∈ s.threads) : OwnStacks s' := by
  intro t ht
  rw [hrsp]
  exact h t (hthreads t ht)

theorem OwnStacks.setStatus3 {b : Bool} (h : OwnStacks s) : OwnStacks (s.setStatus3 t b) :=
  h.congr setStatus3_rsp fun _ ht => ht

/-- Blocking the running thread does not touch the condition, which is about the next
one. -/
theorem steady_setStatus3 : Steady (s.setStatus3 s.runningThread true) ↔ Steady s := by
  rw [Steady, Steady, setStatus3_next, setStatus3_pid, setStatus3_blocked, setStatus3_runningThread]
  by_cases hself : s.next s.runningThread = s.runningThread
  · simp [hself]
  · rw [Function.update_of_ne hself]

theorem createAndPush_rsp :
    (s.createAndPush t pid).rsp = Function.update s.rsp t ⟨t, 2000 - 4 - 15⟩ := by
  have hcreate : (s.createThread t pid).rsp = Function.update s.rsp t ⟨t, 2000 - 4 - 15⟩ := by
    funext u
    rcases eq_or_ne u t with rfl | hne
    · simp [createThread, Sched.rsp]
    · simp [createThread, Sched.rsp, hne]
  rw [← hcreate]
  show ((s.createThread t pid).pushThread t).rsp = _
  rw [pushThread]
  split_ifs
  · show (({ s.createThread t pid with runningThread := t }.setNext t t).setPrev t t).rsp = _
    rw [setPrev_rsp, setNext_rsp]
    rfl
  · rw [insertThread, setPrev_rsp, setNext_rsp, setPrev_rsp, setNext_rsp]

theorem createAndPush_threads : (s.createAndPush t pid).threads = t :: s.threads := by
  show ((s.createThread t pid).pushThread t).threads = _
  rw [pushThread]
  split_ifs <;> rfl

theorem createAndPush_first : (s.createAndPush t pid).first = s.first := by
  show ((s.createThread t pid).pushThread t).first = _
  rw [pushThread]
  split_ifs <;> rfl

theorem OwnStacks.createAndPush (h : OwnStacks s) : OwnStacks (s.createAndPush t pid) := by
  intro u hu
  rw [createAndPush_threads] at hu
  rw [createAndPush_rsp]
  rcases eq_or_ne u t with rfl | hne
  · rw [Function.update_self]
  · rw [Function.update_of_ne hne]
    exact h u ((List.mem_cons.mp hu).resolve_left hne)

theorem exitThread_rsp : (s.exitThread t).rsp = s.rsp := by
  show (s.discardThread t).rsp = s.rsp
  rw [discardThread, setPrev_rsp, setNext_rsp]

/-! ### Calls -/

/-- What a call leaves when it meets the condition, with `running` executing: the stack
pointers are in their own stacks, and either there is no switch and `running_thread` is
where it was, or there is one and it is right. -/
structure Kept (running : ℕ) (exits : Bool) (s' : Sched) (sw : Option Switch) : Prop where
  own : OwnStacks s'
  first : s'.first = true
  ret : sw = none → s'.runningThread = running
  load : ∀ x, sw = some x → x.load = s'.rsp s'.runningThread
  save : ∀ x, sw = some x → x.save = if exits then none else some running
  moves : ∀ x, sw = some x → exits = false → s'.runningThread ≠ running

theorem Kept.of_return {running : ℕ} {exits : Bool} (hown : OwnStacks s')
    (hfirst : s'.first = true) (hrunning : s'.runningThread = running) :
    Kept running exits s' none :=
  ⟨hown, hfirst, fun _ => hrunning, nofun, nofun, nofun⟩

theorem Kept.of_switch {running : ℕ} {exits : Bool} {x : Switch} (hown : OwnStacks s')
    (hfirst : s'.first = true) (hload : x.load = s'.rsp s'.runningThread)
    (hsave : x.save = if exits then none else some running)
    (hmoves : exits = false → s'.runningThread ≠ running) : Kept running exits s' (some x) where
  own := hown
  first := hfirst
  ret := nofun
  load := by
    rintro _ ⟨⟩
    exact hload
  save := by
    rintro _ ⟨⟩
    exact hsave
  moves := fun _ _ => hmoves

section Executing

variable (hring : RingOf s l) (hown : OwnStacks s) (hfirst : s.first = true)
include hring hown hfirst

theorem kept_createAndPush (ht : t ≠ 0) (hnew : t ∉ s.threads) :
    Kept s.runningThread false (s.createAndPush t pid) none :=
  .of_return hown.createAndPush (createAndPush_first.trans hfirst)
    (ringOf_createAndPush _ hring ht hnew).2

theorem kept_reschedule (hsteady : Steady s) (hex : s.reschedule fuel = some (s', sw)) :
    Kept s.runningThread false s' sw := by
  have hn := hring.next_mem hring.running_mem
  rcases reschedule_cases hfirst (hring.ne_zero hn) (hring.prev_next hring.running_mem) hex with
    ⟨hpid, rfl, rfl⟩ | ⟨hpid, -, rfl, rfl⟩ | ⟨hpid, hb, hidle, rfl, rfl⟩
  · -- one pid: the thread is alone
    have hself : s.next s.runningThread = s.runningThread :=
      hsteady.resolve_right fun h => h.1 hpid
    exact .of_return hown hfirst hself
  · exact .of_switch hown hfirst rfl rfl fun _ he => hpid (congrArg s.pid he)
  · -- past the blocked idle thread, back to the running one
    have hback : s.next (s.next s.runningThread) = s.runningThread := by
      rcases hsteady with hself | ⟨-, hback⟩
      · rw [hself, hself]
      · exact hback hb hidle
    exact .of_return hown hfirst hback

theorem kept_schedulerReturn (hidle : idle ≠ 0) (hto : ExitsToNext s)
    (hex : s.schedulerReturn fuel idle = some (s', sw)) : Kept s.runningThread true s' sw := by
  obtain ⟨-, ⟨hpid, t, -, -, ht, rfl, rfl⟩ | ⟨hor, rfl, rfl⟩⟩ := schedulerReturn_cases hex
  · -- the next thread is not blocked, so the search ends there
    have hb : s.blocked (s.next s.runningThread) = false := by
      rcases hto with hself | ⟨-, hb⟩
      · exact absurd (by rw [hself]) hpid
      · exact hb
    obtain rfl : t = s.next s.runningThread := by
      refine ht.resolve_right fun h => ?_
      rw [hb] at h
      exact absurd h.1 (by decide)
    refine .of_switch (hown.congr ?_ fun _ ht => List.mem_of_mem_erase ht) hfirst rfl rfl nofun
    rw [setNext_rsp, exitThread_rsp]
    rfl
  · -- alone: the idle thread is the new ring
    have hself : s.next s.runningThread = s.runningThread := by
      refine hto.resolve_right fun h => ?_
      rcases hor with hpid | hb
      · exact h.1 hpid
      · rw [h.2] at hb
        cases hb
    obtain rfl : l = [] := hring.ring.next_eq_self_iff.mp hself
    rw [hself]
    obtain ⟨hthreads, hnum⟩ := exitThread_last hring
    obtain ⟨hnew, -⟩ := ringOf_createAndPush_empty idlePid hthreads hnum hidle
    refine .of_switch (OwnStacks.createAndPush ?_) (createAndPush_first.trans hfirst) ?_ rfl nofun
    · intro t ht
      change t ∈ (s.exitThread s.runningThread).threads at ht
      rw [hthreads] at ht
      cases ht
    · exact congrArg (Sched.rsp ((s.exitThread s.runningThread).createAndPush idle idlePid))
        (hnew.ring.next_eq_self_iff.mpr rfl)

/-- **A call that meets the condition**, with a thread executing. -/
theorem kept_exec {c : Call} (hfresh : c.Fresh s) (hsound : Sound s c)
    (hex : c.exec s = some (s', sw)) : Kept s.runningThread c.exits s' sw := by
  obtain ⟨t, pid, hnew, hexits, rfl, rfl⟩ | ⟨hexits, rfl, rfl⟩ | ⟨t, b, hexits, rfl, rfl⟩ |
    ⟨pid, fuel, rfl, hpid, hb, hres⟩ | ⟨fuel, rfl, hres⟩ | ⟨idle, fuel, rfl, hret⟩ := exec_cases hex
  · rw [hexits]
    exact kept_createAndPush hring hown hfirst (hnew hfresh).1 (hnew hfresh).2
  · exact .of_return hown hfirst rfl
  · exact .of_return (OwnStacks.setStatus3 hown) hfirst rfl
  · -- the condition is asked of the state before the thread is marked as blocked
    have hsteady := steady_setStatus3.mpr (hsound hfirst hpid hb)
    exact kept_reschedule (s := s.setStatus3 s.runningThread true) hring.setStatus3
      (OwnStacks.setStatus3 hown) hfirst hsteady hres
  · exact kept_reschedule hring hown hfirst (hsound hfirst) hres
  · exact kept_schedulerReturn hring hown hfirst hfresh.1 hsound.2 hret

end Executing

/-- A call before the first dispatch: it makes no switch, or it dispatches the running
thread. -/
theorem exec_before_first {c : Call} (hown : OwnStacks s)
    (hfirst : s.first = false) (hsound : Sound s c) (hex : c.exec s = some (s', sw)) :
    OwnStacks s' ∧ ((s'.first = false ∧ sw = none) ∨
      (s'.first = true ∧ sw = some ⟨none, s'.rsp s'.runningThread⟩)) := by
  -- the first call of `reschedule`, whether a thread was blocked before it or not
  have hres : ∀ {s₁ : Sched} {fuel : ℕ}, OwnStacks s₁ → s₁.first = false →
      s₁.reschedule fuel = some (s', sw) → OwnStacks s' ∧ s'.first = true ∧
        sw = some ⟨none, s'.rsp s'.runningThread⟩ := by
    intro s₁ fuel hown₁ hfirst₁ hex₁
    by_cases hrun : s₁.runningThread = 0
    · rw [reschedule_first_null hfirst₁ hrun] at hex₁
      cases hex₁
    · rw [reschedule_first hfirst₁ hrun] at hex₁
      obtain ⟨rfl, rfl⟩ := Prod.mk.inj (Option.some.inj hex₁)
      exact ⟨hown₁, rfl, rfl⟩
  obtain ⟨t, pid, -, -, rfl, rfl⟩ | ⟨-, rfl, rfl⟩ | ⟨t, b, -, rfl, rfl⟩ |
    ⟨pid, fuel, -, -, -, hblock⟩ | ⟨fuel, -, hcall⟩ | ⟨idle, fuel, rfl, -⟩ := exec_cases hex
  · exact ⟨hown.createAndPush, Or.inl ⟨createAndPush_first.trans hfirst, rfl⟩⟩
  · exact ⟨hown, Or.inl ⟨hfirst, rfl⟩⟩
  · exact ⟨hown.setStatus3, Or.inl ⟨hfirst, rfl⟩⟩
  · obtain ⟨h1, h2, h3⟩ := hres hown.setStatus3 hfirst hblock
    exact ⟨h1, Or.inr ⟨h2, h3⟩⟩
  · obtain ⟨h1, h2, h3⟩ := hres hown hfirst hcall
    exact ⟨h1, Or.inr ⟨h2, h3⟩⟩
  · exact absurd (hsound.1.symm.trans hfirst) (by decide)

/-! ### Steps -/

/-- The invariant: the threads form a ring and keep to their own stacks; the processor is
on the stack of the boot code, `0`, until the first dispatch, and from then on on that of
the running thread. -/
structure ExecInv (m : Machine) : Prop where
  ring : RingInv m.sched
  own : OwnStacks m.sched
  boot : m.sched.first = false → m.cpu.rsp.block = 0
  exec : m.sched.first = true → Executing m

variable {m m' : Machine} {c : Call} {e : Event}

theorem execInv_boot {ctx : ℕ → ThreadContext} {stack : ℕ → ℤ → ℕ} {index : ℤ}
    {gpr : Fin 15 → ℕ} {fx : FxImage} : ExecInv (boot ctx stack index gpr fx) :=
  ⟨Or.inl ⟨rfl, rfl, rfl, rfl⟩, nofun, fun _ => rfl, nofun⟩

theorem ExecInv.exists_ring (h : ExecInv m) (hfirst : m.sched.first = true) :
    ∃ l, RingOf m.sched l :=
  h.ring.resolve_left fun h0 => absurd (h0.first.symm.trans hfirst) (by decide)

/-- What a switch does to the saved stack pointers. -/
theorem saveState_rsp {cpu : Cpu} {save : Option ℕ} :
    (saveState s cpu save).rsp = match save with
      | some t => Function.update s.rsp t ⟨cpu.rsp.block, cpu.rsp.index - 15⟩
      | none => s.rsp := by
  cases save with
  | none => simp [saveState]
  | some t => simp [saveState]

/-- A switch that saves in the context of the thread on whose stack it is called, if
anywhere, leaves the threads on their own stacks. -/
theorem OwnStacks.saveState {cpu : Cpu} {save : Option ℕ} (h : OwnStacks s)
    (hsave : ∀ t, save = some t → t = cpu.rsp.block) : OwnStacks (saveState s cpu save) := by
  intro t ht
  rw [sameRing_saveState.threads] at ht
  rw [saveState_rsp]
  cases save with
  | none => exact h t ht
  | some u =>
    rcases eq_or_ne t u with rfl | hne
    · show (Function.update s.rsp t _ t).block = t
      rw [Function.update_self]
      exact (hsave t rfl).symm
    · show (Function.update s.rsp u _ t).block = t
      rw [Function.update_of_ne hne]
      exact h t ht

/-- **The switch of a call that meets the condition is right.** -/
theorem switchOk_exec {x : Switch} (h : ExecInv m) (hfresh : c.Fresh m.sched)
    (hsound : Sound m.sched c) (hex : c.exec m.sched = some (s', some x)) :
    SwitchOk m.cpu c s' x := by
  rcases hfirst : m.sched.first with _ | _
  · -- the boot code is no thread
    obtain ⟨-, ⟨-, hx⟩ | ⟨-, hx⟩⟩ := exec_before_first h.own hfirst hsound hex
    · cases hx
    · obtain rfl := Option.some.inj hx
      refine ⟨rfl, fun hmem => ?_⟩
      rw [h.boot hfirst] at hmem
      rcases ringInv_exec h.ring hfresh hex with h0 | ⟨l, hl⟩
      · rw [h0.threads] at hmem
        cases hmem
      · exact absurd hmem hl.null
  · obtain ⟨l, hl⟩ := h.exists_ring hfirst
    have hkept := kept_exec hl h.own hfirst hfresh hsound hex
    refine ⟨hkept.load x rfl, fun _ hexits => ?_⟩
    rw [hkept.save x rfl, hexits]
    exact congrArg some (h.exec hfirst).symm

/-- What a call that meets the condition leaves, whether it is made before the first
dispatch or after it: the threads are on their own stacks; a call that returns moves
neither `first` nor, after the first dispatch, `running_thread`; and a switch loads the
running thread and saves, if at all, in the context of the thread that executes. -/
theorem ExecInv.exec_spec (h : ExecInv m) (hfresh : c.Fresh m.sched) (hsound : Sound m.sched c)
    (hex : c.exec m.sched = some (s', sw)) :
    OwnStacks s' ∧
      (sw = none → s'.first = m.sched.first ∧
        (s'.first = true → s'.runningThread = m.sched.runningThread)) ∧
      ∀ x, sw = some x → s'.first = true ∧ x.load = s'.rsp s'.runningThread ∧
        ∀ t, x.save = some t → t = m.cpu.rsp.block := by
  rcases hfirst : m.sched.first with _ | _
  · obtain ⟨hown, ⟨hf, rfl⟩ | ⟨hf, rfl⟩⟩ := exec_before_first h.own hfirst hsound hex
    · refine ⟨hown, fun _ => ⟨hf, fun ht => ?_⟩, nofun⟩
      exact absurd (hf.symm.trans ht) (by decide)
    · refine ⟨hown, nofun, fun x hx => ?_⟩
      obtain rfl := Option.some.inj hx
      exact ⟨hf, rfl, nofun⟩
  · obtain ⟨l, hl⟩ := h.exists_ring hfirst
    have hkept := kept_exec hl h.own hfirst hfresh hsound hex
    refine ⟨hkept.own, fun hsw => ⟨hkept.first, fun _ => hkept.ret hsw⟩, fun x hx =>
      ⟨hkept.first, hkept.load x hx, fun t ht => ?_⟩⟩
    rw [hkept.save x hx] at ht
    split_ifs at ht
    obtain rfl := Option.some.inj ht
    exact (h.exec hfirst).symm

/-- **A step that meets the condition keeps the invariant.** -/
theorem execInv_step (h : ExecInv m) (hG : SoundStep m e) (hs : step m e = some m') :
    ExecInv m' := by
  have hring := ringInv_step h.ring hs
  obtain ⟨c, s', sw, rfl, hfresh, hex, rfl⟩ | ⟨gpr, fx, index, words, -, rfl⟩ := step_cases hs
  · have hsame := @sameRing_afterCall s' m.cpu sw
    obtain ⟨hown, hret, hswitch⟩ := h.exec_spec hfresh hG hex
    cases sw with
    | none =>
      obtain ⟨hf, hrun⟩ := hret rfl
      refine ⟨hring, hown, fun hfalse => h.boot (hf.symm.trans hfalse), fun htrue => ?_⟩
      exact (h.exec (hf.symm.trans htrue)).trans (hrun htrue).symm
    | some x =>
      obtain ⟨hf, hload, hsave⟩ := hswitch x rfl
      refine ⟨hring, hown.saveState hsave, fun hfalse => ?_, fun htrue => ?_⟩
      · rw [hsame.first, hf] at hfalse
        cases hfalse
      · -- the thread loaded is on its own stack
        have hmem : s'.runningThread ∈ s'.threads := by
          rcases ringInv_exec h.ring hfresh hex with h0 | ⟨l, hl⟩
          · exact absurd (h0.first.symm.trans hf) (by decide)
          · exact hl.running_mem
        show x.load.block = (saveState s' m.cpu x.save).runningThread
        rw [sameRing_saveState.runningThread, hload]
        exact hown _ hmem
  · exact ⟨hring, h.own, h.boot, h.exec⟩

/-! ### Breaking the condition -/

section Broken

variable (hring : RingOf s l) (hown : OwnStacks s) (hfirst : s.first = true)
include hring hfirst

/-- `reschedule` outside of its condition returns without a switch, with `running_thread`
moved to another thread. -/
theorem reschedule_of_not_steady (hnot : ¬Steady s) (hex : s.reschedule fuel = some (s', sw)) :
    sw = none ∧ s'.runningThread ≠ s.runningThread := by
  obtain ⟨hself, hor⟩ := not_or.mp hnot
  have hn := hring.next_mem hring.running_mem
  rcases reschedule_cases hfirst (hring.ne_zero hn) (hring.prev_next hring.running_mem) hex with
    ⟨hpid, rfl, rfl⟩ | ⟨hpid, hb, -, -⟩ | ⟨hpid, hb, hidle, rfl, rfl⟩
  · exact ⟨rfl, hself⟩
  · refine absurd ⟨hpid, fun hb' => ?_⟩ hor
    rw [hb] at hb'
    cases hb'
  · exact ⟨rfl, fun hback => hor ⟨hpid, fun _ _ => hback⟩⟩

omit hfirst in
include hown in
/-- `scheduler_return` outside of its condition switches to a thread that is not the one
`running_thread` has moved to. -/
theorem schedulerReturn_of_not_exitsToNext (hidle : idle ≠ 0)
    (hnew : idle ∉ s.threads.erase s.runningThread) (hnot : ¬ExitsToNext s)
    (hex : s.schedulerReturn fuel idle = some (s', sw)) :
    ∃ x, sw = some x ∧ x.load.block ≠ s'.runningThread := by
  obtain ⟨hself, hor⟩ := not_or.mp hnot
  obtain ⟨l', rfl⟩ : ∃ l', l = s.next s.runningThread :: l' :=
    hring.next_running.resolve_left fun h => hself h.1
  obtain ⟨-, ⟨hpid, t, hk, hb, -, rfl, rfl⟩ | ⟨-, rfl, rfl⟩⟩ := schedulerReturn_cases hex
  · -- a thread further on, since the next one is blocked
    have htn : t ≠ s.next s.runningThread := by
      rintro rfl
      exact hor ⟨hpid, hb⟩
    have ht : t ∈ s.threads := by
      rw [← hring.ringOk.reach _ (hring.next_mem hring.running_mem)]
      exact hk
    refine ⟨_, rfl, ?_⟩
    show (Sched.rsp (Sched.setNext _ _ _) t).block ≠ s.next s.runningThread
    rw [setNext_rsp, exitThread_rsp]
    show (s.rsp t).block ≠ s.next s.runningThread
    rw [hown t ht]
    exact htn
  · -- the idle thread, which is put after the next one
    have hexit := ringOf_exitThread hring
    obtain ⟨hpush, hrun⟩ := ringOf_createAndPush idlePid hexit hidle hnew
    obtain ⟨⟨hnext, -⟩, -⟩ := path_cons.mp hpush.ring.path
    refine ⟨_, rfl, ?_⟩
    show (Sched.rsp (Sched.createAndPush _ _ _)
      (Sched.next (Sched.createAndPush _ _ _) _)).block ≠ _
    rw [hotCreateAndPushThread, hnext, createAndPush_rsp, Function.update_self]
    show idle ≠ _
    rw [hrun]
    exact fun he => hnew (he ▸ hexit.running_mem)

end Broken

/-- **A call that breaks the condition**, with a thread executing, leaves another one as
the running thread. -/
theorem not_executing_of_not_sound (h : ExecInv m) (hfirst : m.sched.first = true)
    (hfresh : c.Fresh m.sched) (hnot : ¬Sound m.sched c) (hex : c.exec m.sched = some (s', sw)) :
    ¬Executing (afterCall m.cpu (s', sw)) := by
  obtain ⟨l, hl⟩ := h.exists_ring hfirst
  have hexec : m.cpu.rsp.block = m.sched.runningThread := h.exec hfirst
  cases c with
  | hotCreateAndPushThread t pid => exact absurd trivial hnot
  | hotExecElf t pid => exact absurd trivial hnot
  | hotCreateAndPushUserThread t pid => exact absurd trivial hnot
  | unblockThread t => exact absurd trivial hnot
  | blockThread pid fuel =>
    obtain ⟨rfl, hb, hsteady⟩ : pid = m.sched.pid m.sched.runningThread ∧
        m.sched.blocked m.sched.runningThread = false ∧ ¬Steady m.sched := by
      by_contra hcon
      refine hnot fun _ hpid hb => ?_
      by_contra hsteady
      exact hcon ⟨hpid, hb, hsteady⟩
    rw [Call.exec, blockThread_self (hl.ne_zero hl.running_mem) hb, Option.map_map] at hex
    obtain ⟨r, hr, rfl⟩ := Option.map_eq_some_iff.mp hex
    obtain ⟨rfl, hne⟩ := reschedule_of_not_steady (s := m.sched.setStatus3 _ true) hl.setStatus3
      hfirst (fun hs => hsteady (steady_setStatus3.mp hs)) hr
    exact fun he => hne (he.symm.trans hexec)
  | reschedule fuel =>
    obtain ⟨rfl, hne⟩ := reschedule_of_not_steady hl hfirst
      (fun hs => hnot fun _ => hs) hex
    exact fun he => hne (he.symm.trans hexec)
  | schedulerReturn idle fuel =>
    obtain ⟨x, rfl, hne⟩ := schedulerReturn_of_not_exitsToNext hl h.own hfresh.1 hfresh.2
      (fun hs => hnot ⟨hfirst, hs⟩) hex
    have hrun := (@sameRing_saveState s' m.cpu x.save).runningThread
    exact fun he => hne (Eq.trans he hrun)

/-! ### Runs -/

/-- **The running thread is the one that executes.** In every state reached from boot by a
run whose steps all meet the condition: once a thread was dispatched, the processor is on
the stack of `running_thread`; every thread's saved stack pointer points into its own
stack; every switch of a further call that meets the condition is right; and a further
call that breaks it, with a thread executing, leaves `running_thread` pointing to another
thread than the one that executes. -/
theorem executing_of_meets (ctx : ℕ → ThreadContext) (stack : ℕ → ℤ → ℕ) (index : ℤ)
    (gpr : Fin 15 → ℕ) (fx : FxImage) (es : List Event) (m : Machine)
    (hG : Meets step SoundStep (boot ctx stack index gpr fx) es)
    (h : es.foldlM step (boot ctx stack index gpr fx) = some m) :
    (m.sched.first = true → Executing m) ∧ OwnStacks m.sched ∧
      (∀ c s' x, Call.Fresh m.sched c → Sound m.sched c → c.exec m.sched = some (s', some x) →
        SwitchOk m.cpu c s' x) ∧
      ∀ c s' sw, m.sched.first = true → Call.Fresh m.sched c → ¬Sound m.sched c →
        c.exec m.sched = some (s', sw) → ¬Executing (afterCall m.cpu (s', sw)) := by
  have hinv : ExecInv m :=
    run_inv_of_meets (I := ExecInv) (fun _ _ _ hI hG hs => execInv_step hI hG hs) execInv_boot hG h
  exact ⟨hinv.exec, hinv.own, fun c s' x hfresh hsound hex => switchOk_exec hinv hfresh hsound hex,
    fun c s' sw hfirst hfresh hnot hex => not_executing_of_not_sound hinv hfirst hfresh hnot hex⟩

/-- Two threads that take turns, until the first one exits. -/
def takeTurns : List Event :=
  [.call (.hotCreateAndPushThread 1 7), .call (.hotExecElf 2 8), .call (.reschedule 0),
    .call (.reschedule 0), .call (.reschedule 0), .call (.schedulerReturn 3 0)]

theorem executing_of_meets_takeTurns :
    ∃ m, takeTurns.foldlM step clearBoot = some m ∧ m.sched.threads = [2] ∧ Executing m := by
  have hthreads : (takeTurns.foldlM step clearBoot).map
      (fun m => (m.sched.threads, m.sched.first)) = some ([2], true) := by decide +kernel
  obtain ⟨m, hm, heq⟩ := Option.map_eq_some_iff.mp hthreads
  obtain ⟨h2, hfirst⟩ := Prod.mk.inj heq
  exact ⟨m, hm, h2,
    (executing_of_meets _ _ _ _ _ takeTurns m (meets_of_checkMeets (by decide +kernel)) hm).1
      hfirst⟩

/-- Three threads, of which the one after the running one gets blocked. -/
def blockNext : List Event :=
  [.call (.hotCreateAndPushThread 1 7), .call (.hotCreateAndPushThread 2 8),
    .call (.hotCreateAndPushThread 3 9), .call (.reschedule 0), .call (.blockThread 9 0)]

/-- **The exit of a thread before a blocked one**: `scheduler_return` moves
`running_thread` to the blocked thread 3, and loads the stack pointer of thread 2. -/
theorem not_switchOk_of_blocked_next :
    ∃ m s' x, blockNext.foldlM step clearBoot = some m ∧
      Call.Fresh m.sched (.schedulerReturn 4 1) ∧
      (Call.schedulerReturn 4 1).exec m.sched = some (s', some x) ∧
      ¬SwitchOk m.cpu (.schedulerReturn 4 1) s' x := by
  -- the stack loaded, and that of the thread `running_thread` points to
  have hrun : ((blockNext.foldlM step clearBoot).bind fun m =>
      ((Call.schedulerReturn 4 1).exec m.sched).map fun r =>
        (decide (Call.Fresh m.sched (.schedulerReturn 4 1)), r.2.map fun x => x.load.block,
          (r.1.rsp r.1.runningThread).block)) = some (true, some 2, 3) := by
    decide +kernel
  obtain ⟨m, hm, hexec⟩ := Option.bind_eq_some_iff.mp hrun
  obtain ⟨⟨s', sw⟩, hex, heq⟩ := Option.map_eq_some_iff.mp hexec
  obtain ⟨hfresh, hload, hblock⟩ := Prod.mk.inj heq |>.imp_right Prod.mk.inj
  obtain ⟨x, rfl, hx⟩ := Option.map_eq_some_iff.mp hload
  refine ⟨m, s', x, hm, of_decide_eq_true hfresh, hex, fun h => ?_⟩
  rw [h.load, hblock] at hx
  exact absurd hx (by decide)

end Scheduler

end WillowOS
