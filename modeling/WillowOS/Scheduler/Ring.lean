import WillowOS.Scheduler.Calls
import WillowOS.Lib.Ring

/-!
# The ring of threads

Whatever is called, in whatever order and with whatever pids, the contexts that are
allocated form one ring, `running_thread` is in it, and `num_threads` counts it:
**`WillowOS.Scheduler.ringOk_run`**.

`reschedule` and `block_thread` only move `running_thread` along the ring. A new thread
goes after the running one. `scheduler_return` has two ends, which differ in the thread
they switch to and in whether an idle thread is made; both first take the thread out that
exits. The case of one thread is the one that does not fit: taking it out leaves no ring,
and it is `num_threads` that tells `push_thread` to start a new one.
-/

namespace WillowOS

namespace Scheduler

open Sched

/-- The contexts allocated are those of a ring that starts at `running_thread`. -/
structure RingOf (s : Sched) (l : List ℕ) : Prop where
  ring : Ring s.next s.prev s.runningThread l
  perm : s.threads.Perm (s.runningThread :: l)
  num : s.numThreads = s.threads.length
  null : 0 ∉ s.threads
  firstThread : s.firstThread = false

variable {s s' : Sched} {l : List ℕ} {t u pid fuel idle : ℕ} {sw : Option Switch}

namespace RingOf

variable (h : RingOf s l)
include h

theorem mem_iff : t ∈ s.threads ↔ t ∈ s.runningThread :: l := h.perm.mem_iff

theorem running_mem : s.runningThread ∈ s.threads := h.mem_iff.mpr List.mem_cons_self

theorem ne_zero (ht : t ∈ s.threads) : t ≠ 0 := fun h0 => h.null (h0 ▸ ht)

theorem next_mem (ht : t ∈ s.threads) : s.next t ∈ s.threads :=
  h.mem_iff.mpr (h.ring.next_mem (h.mem_iff.mp ht))

theorem prev_next (ht : t ∈ s.threads) : s.prev (s.next t) = t :=
  h.ring.prev_next (h.mem_iff.mp ht)

/-- The ring does not depend on stacks, stack pointers or statuses. -/
theorem congr (hnext : s'.next = s.next) (hprev : s'.prev = s.prev)
    (hthreads : s'.threads = s.threads)
    (hrun : s'.runningThread = s.runningThread) (hnum : s'.numThreads = s.numThreads)
    (hfirst : s'.firstThread = s.firstThread) : RingOf s' l where
  ring := by
    rw [hnext, hprev, hrun]
    exact h.ring
  perm := by
    rw [hthreads, hrun]
    exact h.perm
  num := by rw [hnum, hthreads, h.num]
  null := hthreads ▸ h.null
  firstThread := hfirst.trans h.firstThread

/-- **`running_thread` may be moved to any thread.** -/
theorem move (ht : t ∈ s.threads) : ∃ l', RingOf { s with runningThread := t } l' := by
  obtain ⟨l', hring, hperm⟩ := h.ring.exists_of_mem (h.mem_iff.mp ht)
  exact ⟨l', hring, h.perm.trans hperm.symm, h.num, h.null, h.firstThread⟩

/-- The thread after the running one is the running one, or the first of the others. -/
theorem next_running :
    (s.next s.runningThread = s.runningThread ∧ l = []) ∨
      ∃ l', l = s.next s.runningThread :: l' := by
  cases l with
  | nil => exact Or.inl ⟨h.ring.next_eq_self_iff.mpr rfl, rfl⟩
  | cons b l =>
    obtain ⟨⟨hb, -⟩, -⟩ := path_cons.mp h.ring.path
    exact Or.inr ⟨l, by rw [hb]⟩

end RingOf

/-! ### Creating a thread -/

theorem createThread_next : (s.createThread t pid).next = Function.update s.next t 0 := by
  funext u
  rcases eq_or_ne u t with rfl | hne
  · simp [createThread, Sched.next]
  · simp [createThread, Sched.next, hne]

theorem createThread_prev : (s.createThread t pid).prev = Function.update s.prev t 0 := by
  funext u
  rcases eq_or_ne u t with rfl | hne
  · simp [createThread, Sched.prev]
  · simp [createThread, Sched.prev, hne]

/-- **The first thread, or the first after the last one has exited.** -/
theorem ringOf_createAndPush_empty (pid : ℕ) (hthreads : s.threads = [])
    (hnum : s.numThreads = 0) (ht : t ≠ 0) :
    RingOf (s.createAndPush t pid) [] ∧ (s.createAndPush t pid).runningThread = t := by
  have hpush : (s.createThread t pid).pushThread t =
      { ({ s.createThread t pid with runningThread := t }.setNext t t).setPrev t t with
        firstThread := false } :=
    if_pos (Or.inr hnum)
  rw [createAndPush, hpush]
  refine ⟨⟨Ring.singleton ?_ ?_, ?_, ?_, ?_, rfl⟩, rfl⟩
  · show (({ s.createThread t pid with runningThread := t }.setNext t t).setPrev t t).next t = t
    rw [setPrev_next, setNext_next, Function.update_self]
  · show (({ s.createThread t pid with runningThread := t }.setNext t t).setPrev t t).prev t = t
    rw [setPrev_prev, Function.update_self]
  · show (t :: s.threads).Perm [t]
    rw [hthreads]
  · show s.numThreads + 1 = (t :: s.threads).length
    rw [hnum, hthreads, List.length_singleton]
  · show 0 ∉ t :: s.threads
    rw [hthreads, List.mem_singleton]
    exact ht.symm

/-- **A new thread goes after the running one.** -/
theorem ringOf_createAndPush (pid : ℕ) (h : RingOf s l) (ht : t ≠ 0) (hnew : t ∉ s.threads) :
    RingOf (s.createAndPush t pid) (t :: l) ∧
      (s.createAndPush t pid).runningThread = s.runningThread := by
  have hrun : s.runningThread ≠ t := fun he => hnew (he ▸ h.running_mem)
  have hpos : s.numThreads ≠ 0 := by
    rw [h.num]
    exact (List.length_pos_of_mem h.running_mem).ne'
  have hpush : (s.createThread t pid).pushThread t = (s.createThread t pid).insertThread
      s.runningThread t ((s.createThread t pid).next s.runningThread) := by
    refine if_neg ?_
    rintro (hfirst | hnum)
    · exact absurd (h.firstThread.symm.trans hfirst) (by decide)
    · exact hpos hnum
  -- the ring is still there after the context is cleared
  have hring : Ring (s.createThread t pid).next (s.createThread t pid).prev s.runningThread l := by
    have hne : ∀ v ∈ s.runningThread :: l, v ≠ t := by
      rintro v hv rfl
      exact hnew (h.mem_iff.mpr hv)
    refine h.ring.congr (fun v hv => ?_) fun v hv => ?_
    · rw [createThread_next, Function.update_of_ne (hne v hv)]
    · rw [createThread_prev, Function.update_of_ne (hne v hv)]
  have hins := hring.insert fun hmem => hnew (h.mem_iff.mpr hmem)
  rw [createAndPush, hpush, insertThread]
  refine ⟨⟨?_, ?_, ?_, ?_, h.firstThread⟩, rfl⟩
  · show Ring (Sched.next (((((s.createThread t pid).setNext s.runningThread t).setPrev _ t).setNext
      t _).setPrev t s.runningThread)) (Sched.prev (((((s.createThread t pid).setNext
      s.runningThread t).setPrev _ t).setNext t _).setPrev t s.runningThread)) s.runningThread _
    simp only [setPrev_next, setNext_next, setPrev_prev, setNext_prev]
    exact hins
  · show (t :: s.threads).Perm (s.runningThread :: t :: l)
    exact (h.perm.cons t).trans (List.Perm.swap _ _ _)
  · show s.numThreads + 1 = (t :: s.threads).length
    rw [h.num, List.length_cons]
  · show 0 ∉ t :: s.threads
    rintro (_ | ⟨_, hmem⟩)
    · exact ht rfl
    · exact h.null hmem

/-! ### Taking a thread out -/

/-- Of one thread, nothing is left. -/
theorem exitThread_last (h : RingOf s []) :
    (s.exitThread s.runningThread).threads = [] ∧
      (s.exitThread s.runningThread).numThreads = 0 := by
  have hthreads : s.threads = [s.runningThread] := List.perm_singleton.mp h.perm
  constructor
  · show s.threads.erase s.runningThread = []
    rw [hthreads, List.erase_cons_head]
  · show s.numThreads - 1 = 0
    rw [h.num, hthreads, List.length_singleton]

/-- **Of several threads, the others**, with the next one running. -/
theorem ringOf_exitThread (h : RingOf s (u :: l)) :
    RingOf ({ s with runningThread := u }.exitThread s.runningThread) l := by
  obtain ⟨⟨hu, -⟩, -⟩ := path_cons.mp h.ring.path
  obtain ⟨hrun, hnodup⟩ := List.nodup_cons.mp h.ring.nodup
  have hperm : (s.threads.erase s.runningThread).Perm (u :: l) := by
    have := h.perm.erase s.runningThread
    rwa [List.erase_cons_head] at this
  have hring := h.ring.remove
  -- the second store reads the links of a context the first one has not changed
  have hprev : s.prev s.runningThread ≠ s.runningThread := by
    intro he
    have hnext := h.ring.next_prev List.mem_cons_self
    rw [he, hu] at hnext
    exact hrun (hnext ▸ List.mem_cons_self)
  have hnext' : Function.update s.next (s.prev s.runningThread) u s.runningThread = u := by
    rw [Function.update_of_ne hprev.symm, hu]
  refine ⟨?_, hperm, ?_, fun h0 => h.null (List.mem_of_mem_erase h0), h.firstThread⟩
  · have e₁ : ({ s with runningThread := u }.exitThread s.runningThread).next =
        Function.update s.next (s.prev s.runningThread) u := by
      show (discardThread { s with runningThread := u } s.runningThread).next = _
      rw [discardThread, setPrev_next, setNext_next]
      show Function.update s.next (s.prev s.runningThread) (s.next s.runningThread) = _
      rw [hu]
    have e₂ : ({ s with runningThread := u }.exitThread s.runningThread).prev =
        Function.update s.prev u (s.prev s.runningThread) := by
      show (discardThread { s with runningThread := u } s.runningThread).prev = _
      rw [discardThread, setPrev_prev, setNext_next, setNext_prev]
      show Function.update s.prev (Function.update s.next (s.prev s.runningThread)
        (s.next s.runningThread) s.runningThread) (s.prev s.runningThread) = _
      rw [hu, hnext']
    rw [e₁, e₂]
    exact hring
  · show s.numThreads - 1 = (s.threads.erase s.runningThread).length
    rw [h.num, List.length_erase_of_mem h.running_mem]

/-! ### Calls -/

/-- The state before the first thread. -/
structure NoThread (s : Sched) : Prop where
  threads : s.threads = []
  runningThread : s.runningThread = 0
  numThreads : s.numThreads = 0
  first : s.first = false

/-- The invariant: no thread was made yet, or the threads form a ring. -/
def RingInv (s : Sched) : Prop := NoThread s ∨ ∃ l, RingOf s l

/-- The ring and the counters are all the invariant is about. -/
theorem RingInv.congr (h : RingInv s) (hnext : s'.next = s.next) (hprev : s'.prev = s.prev)
    (hthreads : s'.threads = s.threads) (hrun : s'.runningThread = s.runningThread)
    (hnum : s'.numThreads = s.numThreads) (hfirstThread : s'.firstThread = s.firstThread)
    (hfirst : s'.first = s.first) : RingInv s' := by
  rcases h with h | ⟨l, h⟩
  · exact Or.inl ⟨hthreads.trans h.threads, hrun.trans h.runningThread, hnum.trans h.numThreads,
      hfirst.trans h.first⟩
  · exact Or.inr ⟨l, h.congr hnext hprev hthreads hrun hnum hfirstThread⟩

theorem RingOf.setStatus3 {b : Bool} (h : RingOf s l) : RingOf (s.setStatus3 t b) l :=
  h.congr setStatus3_next setStatus3_prev rfl rfl rfl rfl

theorem RingInv.setStatus3 {b : Bool} (h : RingInv s) : RingInv (s.setStatus3 t b) :=
  h.congr setStatus3_next setStatus3_prev rfl rfl rfl rfl rfl

/-- With a running thread there is a ring. -/
theorem RingInv.exists_ring (h : RingInv s) (hrun : s.runningThread ≠ 0) : ∃ l, RingOf s l :=
  h.resolve_left fun h0 => hrun h0.runningThread

theorem ringInv_createAndPush (h : RingInv s) (ht : t ≠ 0) (hnew : t ∉ s.threads) :
    RingInv (s.createAndPush t pid) := by
  rcases h with h | ⟨l, h⟩
  · exact Or.inr ⟨[], (ringOf_createAndPush_empty _ h.threads h.numThreads ht).1⟩
  · exact Or.inr ⟨t :: l, (ringOf_createAndPush _ h ht hnew).1⟩

/-- `reschedule` itself stores into no context and no stack. -/
theorem reschedule_ctx (h : RingInv s) (hex : s.reschedule fuel = some (s', sw)) :
    s'.ctx = s.ctx ∧ s'.stack = s.stack ∧ s'.threads = s.threads := by
  rcases hfirst : s.first with _ | _
  · by_cases hrun : s.runningThread = 0
    · rw [reschedule_first_null hfirst hrun] at hex
      cases hex
    · rw [reschedule_first hfirst hrun] at hex
      obtain ⟨rfl, -⟩ := Prod.mk.inj (Option.some.inj hex)
      exact ⟨rfl, rfl, rfl⟩
  · obtain ⟨l, hl⟩ : ∃ l, RingOf s l :=
      h.resolve_left fun h0 => absurd (h0.first.symm.trans hfirst) (by decide)
    have hn := hl.next_mem hl.running_mem
    rcases reschedule_cases hfirst (hl.ne_zero hn) (hl.prev_next hl.running_mem) hex with
      ⟨-, rfl, -⟩ | ⟨-, -, rfl, -⟩ | ⟨-, -, -, rfl, -⟩ <;> exact ⟨rfl, rfl, rfl⟩

/-- **`reschedule` moves along the ring.** -/
theorem ringInv_reschedule (h : RingInv s) (hex : s.reschedule fuel = some (s', sw)) :
    RingInv s' := by
  rcases hfirst : s.first with _ | _
  · -- the first call
    by_cases hrun : s.runningThread = 0
    · rw [reschedule_first_null hfirst hrun] at hex
      cases hex
    · rw [reschedule_first hfirst hrun] at hex
      obtain ⟨rfl, -⟩ := Prod.mk.inj (Option.some.inj hex)
      obtain ⟨l, hl⟩ := h.exists_ring hrun
      exact Or.inr ⟨l, hl.congr rfl rfl rfl rfl rfl rfl⟩
  · obtain ⟨l, hl⟩ : ∃ l, RingOf s l :=
      h.resolve_left fun h0 => absurd (h0.first.symm.trans hfirst) (by decide)
    have hn := hl.next_mem hl.running_mem
    rcases reschedule_cases hfirst (hl.ne_zero hn) (hl.prev_next hl.running_mem) hex with
      ⟨-, rfl, -⟩ | ⟨-, -, rfl, -⟩ | ⟨-, -, -, rfl, -⟩
    · exact Or.inr (hl.move hn)
    · exact Or.inr (hl.move hn)
    · exact Or.inr (hl.move (hl.next_mem hn))

/-- **`scheduler_return` takes one thread out**, and may put the idle thread in. -/
theorem ringInv_schedulerReturn (h : RingInv s) (hidle : idle ≠ 0)
    (hnew : idle ∉ s.threads.erase s.runningThread)
    (hex : s.schedulerReturn fuel idle = some (s', sw)) : RingInv s' := by
  obtain ⟨hrun, hcases⟩ := schedulerReturn_cases hex
  obtain ⟨l, hl⟩ := h.exists_ring hrun
  rcases hcases with ⟨hpid, t, -, -, -, rfl, -⟩ | ⟨-, rfl, -⟩
  · -- the next thread has another pid, so there are others
    rcases hl.next_running with ⟨hself, -⟩ | ⟨l', rfl⟩
    · exact absurd (by rw [hself]) hpid
    · have hexit := ringOf_exitThread hl
      have hout : s.runningThread ∉ s.next s.runningThread :: l' :=
        (List.nodup_cons.mp hl.ring.nodup).1
      refine Or.inr ⟨l', ⟨hexit.ring.congr (fun v hv => ?_) fun v _ => ?_, hexit.perm, hexit.num,
        hexit.null, hexit.firstThread⟩⟩
      · -- the link that is cleared is that of the thread taken out
        have hne : v ≠ s.runningThread := fun he => hout (he ▸ hv)
        rw [setNext_next, Function.update_of_ne hne]
      · rw [setNext_prev]
  · rcases hl.next_running with ⟨hself, rfl⟩ | ⟨l', rfl⟩
    · -- the last thread: `num_threads` is `0`, and the idle thread starts a new ring
      rw [hself]
      obtain ⟨hthreads, hnum⟩ := exitThread_last hl
      exact Or.inr ⟨[], (ringOf_createAndPush_empty _ hthreads hnum hidle).1⟩
    · exact Or.inr ⟨idle :: l', (ringOf_createAndPush _ (ringOf_exitThread hl) hidle hnew).1⟩

/-- **Every call keeps the invariant.** -/
theorem ringInv_exec {c : Call} (h : RingInv s) (hfresh : c.Fresh s)
    (hex : c.exec s = some (s', sw)) : RingInv s' := by
  obtain ⟨t, pid, hnew, -, rfl, -⟩ | ⟨-, rfl, -⟩ | ⟨t, b, -, rfl, -⟩ |
    ⟨pid, fuel, -, -, -, hres⟩ | ⟨fuel, -, hres⟩ | ⟨idle, fuel, rfl, hret⟩ := exec_cases hex
  · exact ringInv_createAndPush h (hnew hfresh).1 (hnew hfresh).2
  · exact h
  · exact h.setStatus3
  · exact ringInv_reschedule h.setStatus3 hres
  · exact ringInv_reschedule h hres
  · exact ringInv_schedulerReturn h hfresh.1 hfresh.2 hret

theorem ringInv_of_sameRing (h : RingInv s) (hsame : SameRing s s') : RingInv s' :=
  h.congr hsame.next hsame.prev hsame.threads hsame.runningThread hsame.numThreads
    hsame.firstThread hsame.first

/-- One step of the machine keeps it. -/
theorem ringInv_step {m m' : Machine} {e : Event} (h : RingInv m.sched) (hs : step m e = some m') :
    RingInv m'.sched := by
  obtain ⟨c, s, sw, -, hfresh, hex, rfl⟩ | ⟨gpr, fx, index, words, -, rfl⟩ := step_cases hs
  · exact ringInv_of_sameRing (ringInv_exec h hfresh hex) sameRing_afterCall
  · exact ringInv_of_sameRing h sameRing_setStack

/-! ### Runs -/

/-- What the ring is to be: from any thread, `next_thread` leads to every thread and to
nothing else, so the threads form a single cycle; `prev_thread` is its inverse on them;
`running_thread` is one of them; and `num_threads` is their number. -/
structure RingOk (s : Sched) : Prop where
  reach : ∀ t ∈ s.threads, ∀ u, (∃ k, s.next^[k] t = u) ↔ u ∈ s.threads
  inverse : ∀ t ∈ s.threads, s.prev (s.next t) = t ∧ s.next (s.prev t) = t
  running : s.runningThread ∈ s.threads
  nodup : s.threads.Nodup
  num : s.threads.length = s.numThreads

theorem RingOf.ringOk (h : RingOf s l) : RingOk s where
  reach := by
    intro t ht u
    obtain ⟨l', hring, hperm⟩ := h.ring.exists_of_mem (h.mem_iff.mp ht)
    rw [hring.exists_iterate_iff, hperm.mem_iff, h.mem_iff]
  inverse := fun t ht => ⟨h.prev_next ht, h.ring.next_prev (h.mem_iff.mp ht)⟩
  running := h.running_mem
  nodup := h.perm.nodup_iff.mpr h.ring.nodup
  num := h.num.symm

/-- **The ring of threads.** In every state reached from boot by any calls into the
scheduler and any computations between them: as long as no thread was made,
`running_thread` is `NULL` and `num_threads` is `0`; from then on the threads that were
made and have not exited form a ring around `running_thread`. -/
theorem ringOk_run (ctx : ℕ → ThreadContext) (stack : ℕ → ℤ → ℕ) (index : ℤ) (gpr : Fin 15 → ℕ)
    (fx : FxImage) (es : List Event) (m : Machine)
    (h : es.foldlM step (boot ctx stack index gpr fx) = some m) :
    (m.sched.threads = [] ∧ m.sched.runningThread = 0 ∧ m.sched.numThreads = 0) ∨
      RingOk m.sched := by
  have hboot : RingInv (boot ctx stack index gpr fx).sched := Or.inl ⟨rfl, rfl, rfl, rfl⟩
  have hinv : RingInv m.sched :=
    run_inv (I := fun m => RingInv m.sched) (fun _ _ _ hI hs => ringInv_step hI hs) hboot h
  rcases hinv with h0 | ⟨l, hl⟩
  · exact Or.inl ⟨h0.threads, h0.runningThread, h0.numThreads⟩
  · exact Or.inr hl.ringOk

/-- Two threads, of which both exit: the second one leaves the idle thread alone. -/
def exitBoth : List Event :=
  [.call (.hotCreateAndPushThread 1 7), .call (.reschedule 0), .call (.hotExecElf 2 8),
    .call (.schedulerReturn 3 0), .call (.schedulerReturn 4 0)]

theorem ringOk_run_exitBoth :
    ∃ m, exitBoth.foldlM step clearBoot = some m ∧ m.sched.threads = [4] ∧ RingOk m.sched := by
  have hthreads : (exitBoth.foldlM step clearBoot).map (fun m => m.sched.threads) = some [4] := by
    decide +kernel
  obtain ⟨m, hm, h4⟩ := Option.map_eq_some_iff.mp hthreads
  refine ⟨m, hm, h4, (ringOk_run _ _ _ _ _ exitBoth m hm).resolve_left fun h0 => ?_⟩
  rw [h4] at h0
  cases h0.1

end Scheduler

end WillowOS
