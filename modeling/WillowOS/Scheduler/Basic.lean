import Mathlib.Data.Int.Notation
import Mathlib.Data.List.Basic
import Mathlib.Logic.Function.Basic
import Mathlib.Tactic.Common

/-!
# The scheduler

Threads are kept in a doubly linked ring of contexts, with `running_thread` pointing
into it. `push_thread` puts a new thread after the running one, `reschedule` moves
`running_thread` on and switches to the thread it finds there, and `scheduler_return`
takes the running thread out of the ring and switches to another one – or, when it sees
no thread that could run, to a new idle thread.

Contexts are named by their addresses, `0` being `NULL`. The calls work on the
pointers only and report the switch they end in, if any: what `switch_thread` then does
with the stacks and registers is a matter of the machine. A call that halts, or that
never leaves one of its loops, is `none`; the loops run on fuel.
-/

namespace WillowOS

namespace Scheduler

/-- A pointer into a kernel stack: the block of 16000 bytes `create_thread` reserves for
a thread, named as its context, and an index into it, in 64-bit words. -/
structure StackPtr where
  block : ℕ
  index : ℤ
deriving DecidableEq

/-- The 512 bytes `fxsave` stores. -/
def FxImage : Type := Fin 512 → UInt8

/-- A `thread_context`, as far as the scheduler uses it. -/
structure ThreadContext where
  pid : ℕ
  currentRsp : StackPtr
  /-- `status[3]`, which is only ever `0` or `1`: the thread is blocked. -/
  status3 : Bool
  ssefxsave : FxImage
  nextThread : ℕ
  prevThread : ℕ

/-- The globals of the scheduler, with the contexts they point to and the stacks of the
threads, word by word. -/
structure Sched where
  ctx : ℕ → ThreadContext
  stack : ℕ → ℤ → ℕ
  /-- The contexts that are allocated: made by `create_thread` and not passed to `kfree`
  since. -/
  threads : List ℕ
  runningThread : ℕ
  numThreads : ℕ
  /-- `first_thread`, for `push_thread`. -/
  firstThread : Bool
  /-- `first`, which `reschedule` sets with the first switch. -/
  first : Bool

/-- A call of `switch_thread`: the thread whose `current_rsp` the first argument is the
address of, or `none` for that of a local variable, and the stack pointer to load. -/
structure Switch where
  save : Option ℕ
  load : StackPtr

/-- The pid of the idle thread, `0xDEADBEEFCAFEBABE`. -/
def idlePid : ℕ := 0xDEADBEEFCAFEBABE

namespace Sched

/-! ### Fields of contexts -/

/-- `thread->next_thread`. -/
def next (s : Sched) (t : ℕ) : ℕ := (s.ctx t).nextThread

/-- `thread->prev_thread`. -/
def prev (s : Sched) (t : ℕ) : ℕ := (s.ctx t).prevThread

/-- `thread->pid`. -/
def pid (s : Sched) (t : ℕ) : ℕ := (s.ctx t).pid

/-- `thread->status[3] == 1`. -/
def blocked (s : Sched) (t : ℕ) : Bool := (s.ctx t).status3

/-- `thread->current_rsp`. -/
def rsp (s : Sched) (t : ℕ) : StackPtr := (s.ctx t).currentRsp

/-- `thread->ssefxsave`. -/
def fx (s : Sched) (t : ℕ) : FxImage := (s.ctx t).ssefxsave

/-- Store into a context. -/
def modify (s : Sched) (t : ℕ) (f : ThreadContext → ThreadContext) : Sched :=
  { s with ctx := Function.update s.ctx t (f (s.ctx t)) }

def setNext (s : Sched) (t u : ℕ) : Sched := s.modify t fun c => { c with nextThread := u }

def setPrev (s : Sched) (t u : ℕ) : Sched := s.modify t fun c => { c with prevThread := u }

def setStatus3 (s : Sched) (t : ℕ) (b : Bool) : Sched := s.modify t fun c => { c with status3 := b }

def setRsp (s : Sched) (t : ℕ) (p : StackPtr) : Sched :=
  s.modify t fun c => { c with currentRsp := p }

def setFx (s : Sched) (t : ℕ) (fx : FxImage) : Sched :=
  s.modify t fun c => { c with ssefxsave := fx }

/-- Store into the words of a stack. -/
def setStack (s : Sched) (t : ℕ) (words : ℤ → ℕ) : Sched :=
  { s with stack := Function.update s.stack t words }

/-! ### The ring -/

/-- `insert_thread`. -/
def insertThread (s : Sched) (leftThread newThread rightThread : ℕ) : Sched :=
  (((s.setNext leftThread newThread).setPrev rightThread newThread).setNext newThread
    rightThread).setPrev newThread leftThread

/-- `discard_thread`. -/
def discardThread (s : Sched) (thread : ℕ) : Sched :=
  let s := s.setNext (s.prev thread) (s.next thread)
  s.setPrev (s.next thread) (s.prev thread)

/-- `push_thread`. -/
def pushThread (s : Sched) (thread : ℕ) : Sched :=
  if s.firstThread ∨ s.numThreads = 0 then
    { ({ s with runningThread := thread }.setNext thread thread).setPrev thread thread with
      firstThread := false }
  else s.insertThread s.runningThread thread (s.next s.runningThread)

/-- `create_thread`: a cleared context, and a stack pointer 19 words below the end of a
cleared stack, as `start_thread` leaves it. -/
def createThread (s : Sched) (t pid : ℕ) : Sched :=
  { s with
    ctx := Function.update s.ctx t
      { pid := pid
        currentRsp := ⟨t, 2000 - 4 - 15⟩
        status3 := false
        ssefxsave := fun _ => 0
        nextThread := 0
        prevThread := 0 }
    stack := Function.update s.stack t fun _ => 0
    threads := t :: s.threads }

/-- What the three functions that make a thread do to the ring; they differ in the entry
points and the page table they give to the thread. -/
def createAndPush (s : Sched) (t pid : ℕ) : Sched :=
  let s := (s.createThread t pid).pushThread t
  { s with numThreads := s.numThreads + 1 }

/-- `hot_create_and_push_thread`, with the context at `t`. -/
def hotCreateAndPushThread (s : Sched) (t pid : ℕ) : Sched := s.createAndPush t pid

/-- `hot_exec_elf`, with the context at `t`. -/
def hotExecElf (s : Sched) (t pid : ℕ) : Sched := s.createAndPush t pid

/-- `hot_create_and_push_user_thread`, with the context at `t`. -/
def hotCreateAndPushUserThread (s : Sched) (t pid : ℕ) : Sched := s.createAndPush t pid

/-! ### `reschedule` -/

/-- The loop of `reschedule` over a blocked thread. It tests `nextThread`, which it does
not change, and moves `running_thread` on; the result says whether the call returns from
inside the loop, as it does at the idle thread. -/
def skipBlocked (nextThread : ℕ) : ℕ → Sched → Option (Sched × Bool)
  | fuel, s =>
    if s.blocked nextThread then
      match fuel with
      | 0 => none
      | fuel + 1 =>
        let s := { s with runningThread := s.next s.runningThread }
        if s.pid nextThread = idlePid then some (s, true) else skipBlocked nextThread fuel s
    else some (s, false)

/-- `reschedule`: the state it leaves and the switch it makes, if it makes one. -/
def reschedule (fuel : ℕ) (s : Sched) : Option (Sched × Option Switch) :=
  if s.first = false then
    -- the first call dispatches the running thread, if there is one
    if s.runningThread = 0 then none
    else some ({ s with first := true }, some ⟨none, s.rsp s.runningThread⟩)
  else
    let s := { s with runningThread := s.next s.runningThread }
    let nextThread := s.runningThread
    if nextThread = 0 then none
    else if s.pid nextThread = s.pid (s.prev nextThread) then some (s, none)
    else
      match skipBlocked nextThread fuel s with
      | none => none
      | some (s, true) => some (s, none)
      | some (s, false) =>
        if s.pid nextThread = s.pid (s.prev nextThread) then some (s, none)
        else some (s, some ⟨some (s.prev s.runningThread), s.rsp s.runningThread⟩)

/-! ### `scheduler_return` -/

/-- The loop of `scheduler_return` that looks for a thread that is not blocked, or
`none` once it meets the pid of the thread that exits. -/
def findRunnable (s : Sched) (tempPid : ℕ) : ℕ → ℕ → Option (Option ℕ)
  | fuel, nextThread =>
    if s.blocked nextThread then
      match fuel with
      | 0 => none
      | fuel + 1 =>
        if tempPid = s.pid (s.next nextThread) then some none
        else findRunnable s tempPid fuel (s.next nextThread)
    else some (some nextThread)

/-- The end of a thread: it is taken out of the ring and its context is freed. -/
def exitThread (s : Sched) (temp : ℕ) : Sched :=
  let s := s.discardThread temp
  { s with numThreads := s.numThreads - 1, threads := s.threads.erase temp }

/-- The label `kill_and_switch_to_idle`, with the context of the idle thread at
`idle`. -/
def killAndSwitchToIdle (s : Sched) (temp idle : ℕ) : Option (Sched × Option Switch) :=
  let s := (s.exitThread temp).hotCreateAndPushThread idle idlePid
  if s.pid (s.next s.runningThread) ≠ idlePid then none
  else some (s, some ⟨none, s.rsp (s.next s.runningThread)⟩)

/-- `scheduler_return`. -/
def schedulerReturn (fuel : ℕ) (s : Sched) (idle : ℕ) : Option (Sched × Option Switch) :=
  if s.runningThread = 0 then none
  else
    let temp := s.runningThread
    let s := { s with runningThread := s.next temp }
    let nextThread := s.runningThread
    if nextThread = 0 then none
    else if s.pid nextThread = s.pid temp then s.killAndSwitchToIdle temp idle
    else
      match s.findRunnable (s.pid temp) fuel nextThread with
      | none => none
      | some none => s.killAndSwitchToIdle temp idle
      | some (some nextThread) =>
        let s := (s.exitThread temp).setNext temp 0
        some (s, some ⟨none, s.rsp nextThread⟩)

/-! ### Blocking -/

/-- The loop of `block_thread`: the first thread with a pid among the next `n`. -/
def findPid (s : Sched) (pid : ℕ) : ℕ → ℕ → Option ℕ
  | 0, _ => none
  | n + 1, currentThread =>
    if s.pid currentThread = pid then some currentThread
    else findPid s pid n (s.next currentThread)

/-- `block_thread`: the thread returned (`0` for `NULL`), the state, and the switch when
a thread blocks itself, which raises the interrupt that calls `reschedule`. -/
def blockThread (fuel : ℕ) (s : Sched) (pid : ℕ) : Option (ℕ × Sched × Option Switch) :=
  if s.runningThread = 0 then none
  else
    match s.findPid pid (s.numThreads + 1) s.runningThread with
    | none => some (0, s, none)
    | some t =>
      if s.blocked t then some (0, s, none)
      else
        let s := s.setStatus3 t true
        if pid = s.pid s.runningThread then (s.reschedule fuel).map fun r => (t, r)
        else some (t, s, none)

/-- `unblock_thread`. -/
def unblockThread (s : Sched) (thread : ℕ) : Sched :=
  if s.blocked thread then s.setStatus3 thread false else s

/-! ### What a store changes -/

variable {s : Sched} {t u v : ℕ} {b : Bool} {f : ThreadContext → ThreadContext}

/-- A field of the contexts, after a store into one of them. -/
theorem field_modify {α : Type*} (g : ThreadContext → α) (hg : ∀ c, g (f c) = g c) :
    (fun u => g ((s.modify t f).ctx u)) = fun u => g (s.ctx u) := by
  funext u
  rcases eq_or_ne u t with rfl | hne
  · simp [modify, hg]
  · simp [modify, hne]

theorem field_modify_of_eq {α : Type*} (g : ThreadContext → α) {x : α} (hg : ∀ c, g (f c) = x) :
    (fun u => g ((s.modify t f).ctx u)) = Function.update (fun u => g (s.ctx u)) t x := by
  funext u
  rcases eq_or_ne u t with rfl | hne
  · simp [modify, hg]
  · simp [modify, hne]

@[simp] theorem setNext_next : (s.setNext t u).next = Function.update s.next t u :=
  field_modify_of_eq ThreadContext.nextThread fun _ => rfl

@[simp] theorem setNext_prev : (s.setNext t u).prev = s.prev :=
  field_modify ThreadContext.prevThread fun _ => rfl

@[simp] theorem setNext_rsp : (s.setNext t u).rsp = s.rsp :=
  field_modify ThreadContext.currentRsp fun _ => rfl

@[simp] theorem setPrev_next : (s.setPrev t u).next = s.next :=
  field_modify ThreadContext.nextThread fun _ => rfl

@[simp] theorem setPrev_prev : (s.setPrev t u).prev = Function.update s.prev t u :=
  field_modify_of_eq ThreadContext.prevThread fun _ => rfl

@[simp] theorem setPrev_rsp : (s.setPrev t u).rsp = s.rsp :=
  field_modify ThreadContext.currentRsp fun _ => rfl

@[simp] theorem setStatus3_next : (s.setStatus3 t b).next = s.next :=
  field_modify ThreadContext.nextThread fun _ => rfl

@[simp] theorem setStatus3_prev : (s.setStatus3 t b).prev = s.prev :=
  field_modify ThreadContext.prevThread fun _ => rfl

@[simp] theorem setStatus3_pid : (s.setStatus3 t b).pid = s.pid :=
  field_modify ThreadContext.pid fun _ => rfl

@[simp] theorem setStatus3_blocked :
    (s.setStatus3 t b).blocked = Function.update s.blocked t b :=
  field_modify_of_eq ThreadContext.status3 fun _ => rfl

@[simp] theorem setStatus3_runningThread : (s.setStatus3 t b).runningThread = s.runningThread := rfl

@[simp] theorem setStatus3_rsp : (s.setStatus3 t b).rsp = s.rsp :=
  field_modify ThreadContext.currentRsp fun _ => rfl

@[simp] theorem setRsp_rsp {p : StackPtr} : (s.setRsp t p).rsp = Function.update s.rsp t p :=
  field_modify_of_eq ThreadContext.currentRsp fun _ => rfl

@[simp] theorem setFx_rsp {fx : FxImage} : (s.setFx t fx).rsp = s.rsp :=
  field_modify ThreadContext.currentRsp fun _ => rfl

@[simp] theorem setRsp_fx {p : StackPtr} : (s.setRsp t p).fx = s.fx :=
  field_modify ThreadContext.ssefxsave fun _ => rfl

@[simp] theorem setFx_fx {x : FxImage} : (s.setFx t x).fx = Function.update s.fx t x :=
  field_modify_of_eq ThreadContext.ssefxsave fun _ => rfl

@[simp] theorem setStack_rsp {w : ℤ → ℕ} : (s.setStack t w).rsp = s.rsp := rfl

end Sched

end Scheduler

end WillowOS
