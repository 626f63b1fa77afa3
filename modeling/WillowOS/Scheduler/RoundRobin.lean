import WillowOS.Scheduler.Executing
import WillowOS.Scheduler.Select

/-!
# Taking turns

As long as no thread is made, blocked or ended, `reschedule` is a round robin. The threads compute
and are interrupted, in any number of turns; each call of `reschedule` hands the processor on to the
successor of the thread it interrupts, stores the stack pointer of that thread in its own
`current_rsp`, and loads what was last stored for the successor.

Three details of the source come together here. The slot that is stored to is found as
`running_thread->prev_thread`, after `running_thread` has been moved, and is that of the thread
interrupted since the links of a ring agree in both directions. The test for a last thread compares
pids, which is why they have to be distinct. And a ring of `n` threads is back at its start after
`n` turns, so that every thread had one of them: **`WillowOS.Scheduler.roundRobin_turns`**.
-/

namespace WillowOS

namespace Scheduler

open Sched

/-- A turn, as a call of `reschedule` ends it: the thread it interrupts, with its stack pointer and
the thread whose `current_rsp` that is stored in, and the thread it hands the processor on to, with
the stack pointer loaded. -/
structure Turn where
  outgoing : ℕ
  saved : StackPtr
  savedIn : Option ℕ
  incoming : ℕ
  loaded : StackPtr

/-- The turn that an event ends, if it ends one. -/
def turn (m : Machine) : Event → Option Turn
  | .call (.reschedule fuel) =>
    match m.sched.reschedule fuel with
    | some (s, some sw) =>
      some
        { outgoing := m.sched.runningThread
          saved := ⟨m.cpu.rsp.block, m.cpu.rsp.index - 15⟩
          savedIn := sw.save
          incoming := s.runningThread
          loaded := sw.load }
    | _ => none
  | _ => none

/-- The turns of a run. -/
def turns : Machine → List Event → List Turn
  | _, [] => []
  | m, e :: es =>
    match step m e with
    | none => []
    | some m' => (turn m e).toList ++ turns m' es

/-- What was last saved for every thread, with `rsp` before the first of the turns. -/
def lastSaved (rsp : ℕ → StackPtr) (ts : List Turn) : ℕ → StackPtr :=
  ts.foldl (fun saved t => Function.update saved t.outgoing t.saved) rsp

/-- The event is a call of `reschedule`. -/
def Event.reschedules : Event → Bool
  | .call (.reschedule _) => true
  | _ => false

/-- No thread is made, blocked, unblocked or ended. -/
def Event.undisturbed : Event → Bool
  | .call c => (Event.call c).reschedules
  | .compute .. => true

/-- **Threads that take turns**: a ring of at least two threads with distinct pids, none of them
blocked, after the first dispatch. The processor is on the stack of the running thread, and the
saved stack pointers point into the threads' own stacks. -/
structure TakesTurns (m : Machine) (l : List ℕ) : Prop where
  ring : Ring m.sched.next m.sched.prev m.sched.runningThread l
  two : l ≠ []
  null : 0 ∉ m.sched.runningThread :: l
  pids : ∀ t ∈ m.sched.runningThread :: l, ∀ u ∈ m.sched.runningThread :: l,
    m.sched.pid t = m.sched.pid u → t = u
  runnable : ∀ t ∈ m.sched.runningThread :: l, m.sched.blocked t = false
  first : m.sched.first = true
  exec : Executing m
  own : ∀ t ∈ m.sched.runningThread :: l, (m.sched.rsp t).block = t

variable {m m' : Machine} {l : List ℕ} {e : Event} {es : List Event} {fuel : ℕ}

/-! ### One turn -/

/-- The scheduler, with `running_thread` moved to the successor. -/
def moveOn (s : Sched) : Sched := { s with runningThread := s.next s.runningThread }

/-- The machine after a turn. -/
def handOn (m : Machine) : Machine :=
  switchThread ⟨moveOn m.sched, m.cpu⟩
    ⟨some m.sched.runningThread, m.sched.rsp (m.sched.next m.sched.runningThread)⟩

theorem handOn_sameRing : SameRing (moveOn m.sched) (handOn m).sched :=
  @sameRing_saveState (moveOn m.sched) m.cpu (some m.sched.runningThread)

theorem handOn_next : (handOn m).sched.next = m.sched.next := handOn_sameRing.next

theorem handOn_runningThread :
    (handOn m).sched.runningThread = m.sched.next m.sched.runningThread :=
  handOn_sameRing.runningThread

theorem handOn_rsp : (handOn m).sched.rsp = Function.update m.sched.rsp m.sched.runningThread
    ⟨m.cpu.rsp.block, m.cpu.rsp.index - 15⟩ :=
  @saveState_rsp (moveOn m.sched) m.cpu (some m.sched.runningThread)

namespace TakesTurns

variable (h : TakesTurns m l)
include h

theorem next_mem : m.sched.next m.sched.runningThread ∈ m.sched.runningThread :: l :=
  h.ring.next_mem List.mem_cons_self

/-- **The call hands on to the successor.** -/
theorem reschedule_eq :
    m.sched.reschedule fuel =
      some (moveOn m.sched,
        some ⟨some m.sched.runningThread, m.sched.rsp (m.sched.next m.sched.runningThread)⟩) := by
  refine reschedule_of_runnable h.first ?_ (h.ring.prev_next List.mem_cons_self) ?_
    (h.runnable _ h.next_mem)
  · exact fun h0 => h.null (h0 ▸ h.next_mem)
  · intro hpid
    exact h.two (h.ring.next_eq_self_iff.mp (h.pids _ h.next_mem _ List.mem_cons_self hpid))

theorem step_reschedule : step m (.call (.reschedule fuel)) = some (handOn m) := by
  show (if True then (m.sched.reschedule fuel).map (afterCall m.cpu) else none) = _
  rw [if_pos trivial, h.reschedule_eq]
  rfl

theorem turn_reschedule : turn m (.call (.reschedule fuel)) = some
    { outgoing := m.sched.runningThread
      saved := ⟨m.cpu.rsp.block, m.cpu.rsp.index - 15⟩
      savedIn := some m.sched.runningThread
      incoming := m.sched.next m.sched.runningThread
      loaded := m.sched.rsp (m.sched.next m.sched.runningThread) } := by
  rw [turn, h.reschedule_eq]
  rfl

/-- **The threads go on taking turns**, the ring starting one thread later. -/
theorem next_turn : ∃ l', TakesTurns (handOn m) l' ∧
    (m.sched.next m.sched.runningThread :: l').Perm (m.sched.runningThread :: l) := by
  obtain ⟨l', hring, hperm⟩ := h.ring.exists_of_mem h.next_mem
  have hmem : ∀ t, t ∈ m.sched.next m.sched.runningThread :: l' → t ∈ m.sched.runningThread :: l :=
    fun t ht => hperm.mem_iff.mp ht
  have hlen := hperm.length_eq
  refine ⟨l', ⟨?_, ?_, ?_, ?_, ?_, ?_, ?_, ?_⟩, hperm⟩
  · rw [handOn_next, handOn_sameRing.prev, handOn_runningThread]
    exact hring
  · rintro rfl
    exact h.two (List.length_eq_zero_iff.mp (by simpa using hlen.symm))
  · rw [handOn_runningThread]
    exact fun h0 => h.null (hmem 0 h0)
  · rw [handOn_runningThread, handOn_sameRing.pid]
    exact fun t ht u hu => h.pids t (hmem t ht) u (hmem u hu)
  · rw [handOn_runningThread, handOn_sameRing.blocked]
    exact fun t ht => h.runnable t (hmem t ht)
  · rw [handOn_sameRing.first]
    exact h.first
  · rw [Executing, handOn_runningThread]
    exact h.own _ h.next_mem
  · rw [handOn_runningThread, handOn_rsp]
    intro t ht
    rcases eq_or_ne t m.sched.runningThread with rfl | hne
    · rw [Function.update_self]
      exact h.exec
    · rw [Function.update_of_ne hne]
      exact h.own t (hmem t ht)

/-- Between the calls the threads compute. -/
theorem compute (gpr : Fin 15 → ℕ) (fx : FxImage) (index : ℤ) (words : ℤ → ℕ) :
    TakesTurns ⟨m.sched.setStack m.cpu.rsp.block words, ⟨⟨m.cpu.rsp.block, index⟩, gpr, fx⟩⟩ l :=
  ⟨h.ring, h.two, h.null, h.pids, h.runnable, h.first, h.exec, h.own⟩

end TakesTurns

/-! ### A run -/

/-- **An event while threads take turns**: one more turn, or none. -/
theorem TakesTurns.event (h : TakesTurns m l) (he : e.undisturbed = true) :
    (∃ fuel, e = .call (.reschedule fuel) ∧ step m e = some (handOn m)) ∨
    e.reschedules = false ∧ turn m e = none ∧ ∃ m', step m e = some m' ∧
      TakesTurns m' l ∧ m'.sched.next = m.sched.next ∧ m'.sched.rsp = m.sched.rsp ∧
      m'.sched.runningThread = m.sched.runningThread := by
  match e, he with
  | .call (.reschedule fuel), _ => exact Or.inl ⟨fuel, rfl, h.step_reschedule⟩
  | .compute gpr fx index words, _ =>
    exact Or.inr ⟨rfl, rfl, _, rfl, h.compute gpr fx index words, rfl, rfl, rfl⟩

theorem turns_reschedule (h : TakesTurns m l) :
    turns m (.call (.reschedule fuel) :: es) =
      { outgoing := m.sched.runningThread
        saved := ⟨m.cpu.rsp.block, m.cpu.rsp.index - 15⟩
        savedIn := some m.sched.runningThread
        incoming := m.sched.next m.sched.runningThread
        loaded := m.sched.rsp (m.sched.next m.sched.runningThread) } :: turns (handOn m) es := by
  rw [turns, h.step_reschedule, h.turn_reschedule]
  rfl

/-- The threads of a run that takes turns, one after the other. -/
theorem turns_incoming (h : TakesTurns m l) (hes : ∀ e ∈ es, e.undisturbed = true) :
    (turns m es).map Turn.incoming = List.iterate m.sched.next
      (m.sched.next m.sched.runningThread) (es.countP Event.reschedules) := by
  induction es generalizing m l with
  | nil => rfl
  | cons e es ih =>
    have hrest : ∀ e ∈ es, e.undisturbed = true := fun e he => hes e (List.mem_cons_of_mem _ he)
    rcases h.event (hes e List.mem_cons_self) with
      ⟨fuel, rfl, -⟩ | ⟨hno, hturn, m', hstep, h', hnext, -, hrun⟩
    · obtain ⟨l', h', -⟩ := h.next_turn
      rw [turns_reschedule h, List.map_cons, ih h' hrest, List.countP_cons_of_pos rfl,
        handOn_next, handOn_runningThread]
      rfl
    · rw [turns, hstep, hturn, List.countP_cons_of_neg (by rw [hno]; decide), ← hnext, ← hrun]
      exact ih h' hrest

/-- **What each turn of a run saves and loads.** -/
theorem turns_spec (h : TakesTurns m l) (hes : ∀ e ∈ es, e.undisturbed = true)
    {pre post : List Turn} {t : Turn} (ht : turns m es = pre ++ t :: post) :
    t.outgoing = m.sched.next^[pre.length] m.sched.runningThread ∧
      t.incoming = m.sched.next t.outgoing ∧
      t.saved.block = t.outgoing ∧ t.savedIn = some t.outgoing ∧
      t.loaded = lastSaved m.sched.rsp pre t.incoming := by
  induction es generalizing m l pre with
  | nil => exact absurd ht (List.append_ne_nil_of_right_ne_nil _ (List.cons_ne_nil _ _)).symm
  | cons e es ih =>
    have hrest : ∀ e ∈ es, e.undisturbed = true := fun e he => hes e (List.mem_cons_of_mem _ he)
    rcases h.event (hes e List.mem_cons_self) with
      ⟨fuel, rfl, -⟩ | ⟨-, hturn, m', hstep, h', hnext, hrsp, hrun⟩
    · rw [turns_reschedule h] at ht
      rcases pre with _ | ⟨t₀, pre⟩
      · -- the first turn
        obtain ⟨rfl, -⟩ := List.cons.inj ht
        exact ⟨rfl, rfl, h.exec, rfl, rfl⟩
      · obtain ⟨rfl, hpost⟩ := List.cons.inj ht
        obtain ⟨l', h', -⟩ := h.next_turn
        have hspec := ih h' hrest hpost
        rw [handOn_next, handOn_runningThread, handOn_rsp] at hspec
        exact hspec
    · rw [turns, hstep, hturn] at ht
      rw [← hnext, ← hrsp, ← hrun]
      exact ih h' hrest ht

/-- A run that takes turns is not stopped. -/
theorem exists_run_of_takesTurns (h : TakesTurns m l) (hes : ∀ e ∈ es, e.undisturbed = true) :
    ∃ m', es.foldlM step m = some m' ∧ (∃ l', TakesTurns m' l') ∧
      m'.sched.runningThread =
        m.sched.next^[es.countP Event.reschedules] m.sched.runningThread ∧
      m'.sched.rsp = lastSaved m.sched.rsp (turns m es) := by
  induction es generalizing m l with
  | nil => exact ⟨m, rfl, ⟨l, h⟩, rfl, rfl⟩
  | cons e es ih =>
    have hrest : ∀ e ∈ es, e.undisturbed = true := fun e he => hes e (List.mem_cons_of_mem _ he)
    rcases h.event (hes e List.mem_cons_self) with
      ⟨fuel, rfl, hstep⟩ | ⟨hno, hturn, m', hstep, h', hnext, hrsp, hrun⟩
    · obtain ⟨l', h', -⟩ := h.next_turn
      obtain ⟨m', hm', htakes, hrunning, hsaved⟩ := ih h' hrest
      refine ⟨m', run_cons.mpr ⟨_, hstep, hm'⟩, htakes, ?_, ?_⟩
      · rw [hrunning, handOn_next, handOn_runningThread,
          List.countP_cons_of_pos rfl]
        rfl
      · rw [hsaved, turns_reschedule h, handOn_rsp]
        rfl
    · obtain ⟨m'', hm'', htakes, hrunning, hsaved⟩ := ih h' hrest
      refine ⟨m'', run_cons.mpr ⟨m', hstep, hm''⟩, htakes, ?_, ?_⟩
      · rw [hrunning, hnext, hrun, List.countP_cons_of_neg (by rw [hno]; decide)]
      · rw [hsaved, turns, hstep, hturn, hrsp]
        rfl

/-- **As many turns as there are threads**: every thread has one of them. -/
theorem turns_window (h : TakesTurns m l) (hes : ∀ e ∈ es, e.undisturbed = true)
    {pre window post : List Turn} (hturns : turns m es = pre ++ window ++ post)
    (hlen : window.length = l.length + 1) :
    (window.map Turn.incoming).Perm (m.sched.runningThread :: l) := by
  have hmap := turns_incoming h hes
  have hcount : es.countP Event.reschedules = pre.length + window.length + post.length := by
    have hlength := congrArg List.length hmap
    rw [List.length_map, List.length_iterate, hturns, List.length_append,
      List.length_append] at hlength
    exact hlength.symm
  -- cut the iteration where the turns are cut
  rw [hturns, hcount, List.iterate_add, List.iterate_add, List.map_append, List.map_append] at hmap
  obtain ⟨hmap, -⟩ := List.append_inj hmap (by
    rw [List.length_append, List.length_append, List.length_map, List.length_map,
      List.length_iterate, List.length_iterate])
  obtain ⟨-, hwindow⟩ := List.append_inj hmap (by rw [List.length_map, List.length_iterate])
  rw [hwindow, hlen]
  refine h.ring.iterate_perm (h.ring.exists_iterate_iff.mp ⟨pre.length + 1, ?_⟩)
  rw [Function.iterate_succ_apply]

/-- **`reschedule` is a round robin.** Whatever threads that take turns compute in between, no call
fails to return; the `k` calls of a run hand the processor on to the first `k` successors of the
thread that was running; each saves the stack pointer of the thread it interrupts in its own
`current_rsp`, and loads what was last saved for the successor; and in `n` successive calls every
one of the `n` threads has its turn once. -/
theorem roundRobin_turns (m : Machine) (l : List ℕ) (es : List Event) (h : TakesTurns m l)
    (hes : ∀ e ∈ es, e.undisturbed = true) :
    (∃ m', es.foldlM step m = some m' ∧ Executing m' ∧
      m'.sched.runningThread =
        m.sched.next^[es.countP Event.reschedules] m.sched.runningThread ∧
      m'.sched.rsp = lastSaved m.sched.rsp (turns m es)) ∧
    (turns m es).map Turn.incoming = List.iterate m.sched.next
      (m.sched.next m.sched.runningThread) (es.countP Event.reschedules) ∧
    (∀ pre t post, turns m es = pre ++ t :: post →
      t.outgoing = m.sched.next^[pre.length] m.sched.runningThread ∧
      t.incoming = m.sched.next t.outgoing ∧
      t.saved.block = t.outgoing ∧ t.savedIn = some t.outgoing ∧
      t.loaded = lastSaved m.sched.rsp pre t.incoming) ∧
    ∀ pre window post, turns m es = pre ++ window ++ post → window.length = l.length + 1 →
      (window.map Turn.incoming).Perm (m.sched.runningThread :: l) := by
  obtain ⟨m', hrun, ⟨l', h'⟩, hrunning, hsaved⟩ := exists_run_of_takesTurns h hes
  exact ⟨⟨m', hrun, h'.exec, hrunning, hsaved⟩, turns_incoming h hes,
    fun pre t post ht => turns_spec h hes ht,
    fun pre window post hturns hlen => turns_window h hes hturns hlen⟩

/-- Two threads, the first of them on the processor. -/
def twoOnMachine : Machine := ⟨twoThreads false, ⟨⟨1, 1950⟩, fun _ => 0, fun _ => 0⟩⟩

theorem takesTurns_twoOnMachine : TakesTurns twoOnMachine [2] where
  ring := ring_twoThreads false
  two := List.cons_ne_nil 2 []
  null := by decide
  pids := by decide
  runnable := by decide
  first := rfl
  exec := rfl
  own := by decide

/-- Three turns, with a computation before the last one. -/
theorem roundRobin_turns_twoOnMachine :
    (turns twoOnMachine [.call (.reschedule 0), .call (.reschedule 0),
      .compute (fun _ => 1) (fun _ => 0) 1900 (fun _ => 0), .call (.reschedule 0)]).map
        Turn.incoming = [2, 1, 2] :=
  (roundRobin_turns twoOnMachine [2] [.call (.reschedule 0), .call (.reschedule 0),
    .compute (fun _ => 1) (fun _ => 0) 1900 (fun _ => 0), .call (.reschedule 0)]
    takesTurns_twoOnMachine (by decide)).2.1

end Scheduler

end WillowOS
