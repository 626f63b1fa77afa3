import WillowOS.Scheduler.Basic
import WillowOS.Lib.Run
import Mathlib.Data.Fin.Basic

/-!
# The machine the scheduler runs on

A processor with a stack pointer, fifteen general-purpose registers and the x87/SSE
state, next to the data of the scheduler. `switch_thread` pushes the registers on the
stack it is called on, stores the x87/SSE state in the context of the running thread,
exchanges the stack pointers, and takes both back in the reverse order – from the context
`running_thread` points to, which is the same one: neither of its two calls of
`get_current_thread` is before the scheduler has moved `running_thread` on.

A run of the machine is a sequence of calls into the scheduler, each up to the switch it
ends in, and of computations of the thread whose stack the processor is on. What follows
a switch, in the thread that is switched to, is the end of an earlier call and touches no
data of the scheduler.
-/

namespace WillowOS

namespace Scheduler

/-- The state of the processor that a switch saves and restores. The registers are in the
order they are pushed: `rax`, `rbx`, `rcx`, `rdx`, `rsi`, `rdi`, `rbp`, `r8`, …, `r15`. -/
structure Cpu where
  rsp : StackPtr
  gpr : Fin 15 → ℕ
  fx : FxImage

structure Machine where
  sched : Sched
  cpu : Cpu

/-- The words of a stack after the fifteen registers were pushed at `top`. -/
def pushRegs (words : ℤ → ℕ) (top : ℤ) (gpr : Fin 15 → ℕ) : ℤ → ℕ := fun i =>
  if h : top - 15 ≤ i ∧ i < top then gpr ⟨(top - 1 - i).toNat, by omega⟩ else words i

/-- The fifteen registers popped from `sp` on, the last one pushed first. -/
def popRegs (words : ℤ → ℕ) (sp : ℤ) : Fin 15 → ℕ := fun k => words (sp + 14 - k)

/-- What is popped is what was pushed. -/
theorem popRegs_pushRegs (words : ℤ → ℕ) (top : ℤ) (gpr : Fin 15 → ℕ) :
    popRegs (pushRegs words top gpr) (top - 15) = gpr := by
  funext k
  have hk : top - 15 ≤ top - 15 + 14 - k ∧ top - 15 + 14 - (k : ℤ) < top := by omega
  rw [popRegs, pushRegs, dif_pos hk]
  congr 1
  ext
  show (top - 1 - (top - 15 + 14 - (k : ℤ))).toNat = k
  omega

/-- The part of `switch_thread` up to the exchange of the stack pointers: the registers go
to the stack, the x87/SSE state to the context of `running_thread`, and the stack pointer
to where the first argument says. -/
def saveState (s : Sched) (cpu : Cpu) (save : Option ℕ) : Sched :=
  let s := s.setStack cpu.rsp.block (pushRegs (s.stack cpu.rsp.block) cpu.rsp.index cpu.gpr)
  let s := s.setFx s.runningThread cpu.fx
  match save with
  | some t => s.setRsp t ⟨cpu.rsp.block, cpu.rsp.index - 15⟩
  | none => s

/-- The part of `switch_thread` after it: everything is taken from the stack loaded and
from the context of `running_thread`. -/
def restoreState (s : Sched) (load : StackPtr) : Cpu where
  rsp := ⟨load.block, load.index + 15⟩
  gpr := popRegs (s.stack load.block) load.index
  fx := s.fx s.runningThread

/-- `switch_thread`. -/
def switchThread (m : Machine) (sw : Switch) : Machine :=
  let s := saveState m.sched m.cpu sw.save
  ⟨s, restoreState s sw.load⟩

/-! ### Runs -/

/-- A call into the scheduler, with the address of the context where one is allocated and
fuel for the loops. -/
inductive Call where
  | hotCreateAndPushThread (t pid : ℕ)
  | hotExecElf (t pid : ℕ)
  | hotCreateAndPushUserThread (t pid : ℕ)
  | blockThread (pid fuel : ℕ)
  | unblockThread (t : ℕ)
  | reschedule (fuel : ℕ)
  | schedulerReturn (idle fuel : ℕ)

/-- What a call does to the scheduler, and the switch it ends in. -/
def Call.exec (s : Sched) : Call → Option (Sched × Option Switch)
  | .hotCreateAndPushThread t pid => some (s.hotCreateAndPushThread t pid, none)
  | .hotExecElf t pid => some (s.hotExecElf t pid, none)
  | .hotCreateAndPushUserThread t pid => some (s.hotCreateAndPushUserThread t pid, none)
  | .blockThread pid fuel => (s.blockThread fuel pid).map Prod.snd
  | .unblockThread t => some (s.unblockThread t, none)
  | .reschedule fuel => s.reschedule fuel
  | .schedulerReturn idle fuel => s.schedulerReturn fuel idle

/-- A context is allocated where none is. `scheduler_return` frees that of the thread
that exits before it allocates that of the idle thread. -/
def Call.Fresh (s : Sched) : Call → Prop
  | .hotCreateAndPushThread t _ => t ≠ 0 ∧ t ∉ s.threads
  | .hotExecElf t _ => t ≠ 0 ∧ t ∉ s.threads
  | .hotCreateAndPushUserThread t _ => t ≠ 0 ∧ t ∉ s.threads
  | .schedulerReturn idle _ => idle ≠ 0 ∧ idle ∉ s.threads.erase s.runningThread
  | _ => True

instance (s : Sched) (c : Call) : Decidable (c.Fresh s) := by
  cases c <;> unfold Call.Fresh <;> infer_instance

/-- The call is the end of the thread that makes it. -/
def Call.exits : Call → Bool
  | .schedulerReturn .. => true
  | _ => false

/-- A step of the machine: a call, or a computation of the thread that executes, which
leaves it with other registers, another stack pointer and other words on its stack. -/
inductive Event where
  | call (c : Call)
  | compute (gpr : Fin 15 → ℕ) (fx : FxImage) (index : ℤ) (words : ℤ → ℕ)

/-- The machine after a call that has returned or has reached its switch. -/
def afterCall (cpu : Cpu) : Sched × Option Switch → Machine
  | (s, none) => ⟨s, cpu⟩
  | (s, some sw) => switchThread ⟨s, cpu⟩ sw

def step (m : Machine) : Event → Option Machine
  | .call c => if c.Fresh m.sched then (c.exec m.sched).map (afterCall m.cpu) else none
  | .compute gpr fx index words =>
    some
      { sched := m.sched.setStack m.cpu.rsp.block words
        cpu := { rsp := ⟨m.cpu.rsp.block, index⟩, gpr := gpr, fx := fx } }

/-- The state at boot: no thread, `first_thread = 1`, and the processor on the stack of
the boot code. -/
def boot (ctx : ℕ → ThreadContext) (stack : ℕ → ℤ → ℕ) (index : ℤ) (gpr : Fin 15 → ℕ)
    (fx : FxImage) : Machine where
  sched :=
    { ctx := ctx
      stack := stack
      threads := []
      runningThread := 0
      numThreads := 0
      firstThread := true
      first := false }
  cpu := { rsp := ⟨0, index⟩, gpr := gpr, fx := fx }

/-- The state at boot with everything cleared. -/
def clearBoot : Machine :=
  boot (fun _ => ⟨0, ⟨0, 0⟩, false, fun _ => 0, 0, 0⟩) (fun _ _ => 0) 0 (fun _ => 0) fun _ => 0

/-! ### What a switch does not change -/

/-- Two states of the scheduler that differ in stacks, saved stack pointers and saved
x87/SSE states at most. -/
structure SameRing (s s' : Sched) : Prop where
  next : s'.next = s.next
  prev : s'.prev = s.prev
  pid : s'.pid = s.pid
  blocked : s'.blocked = s.blocked
  threads : s'.threads = s.threads
  runningThread : s'.runningThread = s.runningThread
  numThreads : s'.numThreads = s.numThreads
  firstThread : s'.firstThread = s.firstThread
  first : s'.first = s.first

theorem SameRing.refl (s : Sched) : SameRing s s := ⟨rfl, rfl, rfl, rfl, rfl, rfl, rfl, rfl, rfl⟩

theorem SameRing.trans {s s' s'' : Sched} (h : SameRing s s') (h' : SameRing s' s'') :
    SameRing s s'' :=
  ⟨h'.next.trans h.next, h'.prev.trans h.prev, h'.pid.trans h.pid, h'.blocked.trans h.blocked,
    h'.threads.trans h.threads, h'.runningThread.trans h.runningThread,
    h'.numThreads.trans h.numThreads, h'.firstThread.trans h.firstThread, h'.first.trans h.first⟩

/-- A store that touches neither the links nor the pid nor the status. -/
theorem sameRing_modify {s : Sched} {t : ℕ} {f : ThreadContext → ThreadContext}
    (hf : ∀ c, (f c).nextThread = c.nextThread ∧ (f c).prevThread = c.prevThread ∧
      (f c).pid = c.pid ∧ (f c).status3 = c.status3) : SameRing s (s.modify t f) where
  next := Sched.field_modify ThreadContext.nextThread fun c => (hf c).1
  prev := Sched.field_modify ThreadContext.prevThread fun c => (hf c).2.1
  pid := Sched.field_modify ThreadContext.pid fun c => (hf c).2.2.1
  blocked := Sched.field_modify ThreadContext.status3 fun c => (hf c).2.2.2
  threads := rfl
  runningThread := rfl
  numThreads := rfl
  firstThread := rfl
  first := rfl

theorem sameRing_setFx {s : Sched} {t : ℕ} {x : FxImage} : SameRing s (s.setFx t x) :=
  sameRing_modify fun _ => ⟨rfl, rfl, rfl, rfl⟩

theorem sameRing_setRsp {s : Sched} {t : ℕ} {p : StackPtr} : SameRing s (s.setRsp t p) :=
  sameRing_modify fun _ => ⟨rfl, rfl, rfl, rfl⟩

theorem sameRing_setStack {s : Sched} {t : ℕ} {w : ℤ → ℕ} : SameRing s (s.setStack t w) :=
  ⟨rfl, rfl, rfl, rfl, rfl, rfl, rfl, rfl, rfl⟩

/-- A switch leaves the ring alone. -/
theorem sameRing_saveState {s : Sched} {cpu : Cpu} {save : Option ℕ} :
    SameRing s (saveState s cpu save) := by
  have hstack := sameRing_setStack (s := s) (t := cpu.rsp.block)
    (w := pushRegs (s.stack cpu.rsp.block) cpu.rsp.index cpu.gpr)
  have hfx := hstack.trans (sameRing_setFx (t := s.runningThread) (x := cpu.fx))
  cases save with
  | none => exact hfx
  | some t => exact hfx.trans sameRing_setRsp

theorem sameRing_afterCall {s : Sched} {cpu : Cpu} {sw : Option Switch} :
    SameRing s (afterCall cpu (s, sw)).sched := by
  cases sw with
  | none => exact SameRing.refl s
  | some sw => exact sameRing_saveState

/-- **What a step is**: a call and the switch it ends in, or a computation. -/
theorem step_cases {m m' : Machine} {e : Event} (h : step m e = some m') :
    (∃ c s sw, e = .call c ∧ c.Fresh m.sched ∧ c.exec m.sched = some (s, sw) ∧
      m' = afterCall m.cpu (s, sw)) ∨
    ∃ gpr fx index words, e = .compute gpr fx index words ∧
      m' = ⟨m.sched.setStack m.cpu.rsp.block words, ⟨⟨m.cpu.rsp.block, index⟩, gpr, fx⟩⟩ := by
  cases e with
  | call c =>
    rw [step] at h
    split_ifs at h with hfresh
    obtain ⟨⟨s, sw⟩, hexec, rfl⟩ := Option.map_eq_some_iff.mp h
    exact Or.inl ⟨c, s, sw, rfl, hfresh, hexec, rfl⟩
  | compute gpr fx index words =>
    exact Or.inr ⟨gpr, fx, index, words, rfl, (Option.some.inj h).symm⟩

end Scheduler

end WillowOS
