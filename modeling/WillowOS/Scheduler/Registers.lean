import WillowOS.Scheduler.Executing

/-!
# What a thread finds when it is switched back in

A thread that was switched out is to find its fifteen registers and its x87/SSE state as
they were. The registers are on its own stack, and come back
(`WillowOS.Scheduler.switch_gpr`). The x87/SSE state never leaves the processor:
`reschedule` moves `running_thread` before it calls `switch_thread`, so both the `fxsave`
and the `fxrstor` of a switch address the context of the *incoming* thread, and what the
second one loads is what the first one has just stored (`WillowOS.Scheduler.switch_fx`).

So a thread finds the x87/SSE state of the thread it takes over from
(**`WillowOS.Scheduler.restored_of_meets`**). For the kernel's own threads, which are
built without SSE, the two are the same.

To speak of all this, the machine is traced: next to it stand the registers every thread
had when it was last switched out, and, for the last switch, what the thread switched to
had then and what it finds. Threads do not exit in this part.
-/

namespace WillowOS

namespace Scheduler

open Sched

/-- What a switch is to preserve. -/
structure Regs where
  gpr : Fin 15 → ℕ
  fx : FxImage

def Cpu.regs (cpu : Cpu) : Regs := ⟨cpu.gpr, cpu.fx⟩

/-- The machine with its trace. -/
structure Traced where
  machine : Machine
  /-- What a thread had when it was last switched out. -/
  out : ℕ → Option Regs
  /-- At the last switch, if it was back to a thread: what that thread had when it was
  switched out, and what it finds. -/
  last : Option (Regs × Regs)

/-- A step of the machine, with its trace. -/
def tracedStep (t : Traced) : Event → Option Traced
  | .compute gpr fx index words =>
    (step t.machine (.compute gpr fx index words)).map fun m => { t with machine := m }
  | .call c =>
    if c.exits then none
    else
      (step t.machine (.call c)).map fun m =>
        match c.exec t.machine.sched with
        | some (_, some _) =>
          { machine := m
            out := Function.update t.out t.machine.cpu.rsp.block (some t.machine.cpu.regs)
            last := (t.out m.cpu.rsp.block).map fun r => (r, m.cpu.regs) }
        | _ => { t with machine := m }

/-- **What is asked of every switch back to a thread.** -/
def Restored (t : Traced) : Prop := ∀ was now, t.last = some (was, now) → now = was

/-- What the thread that the call `c` switches back to had when it was switched out. -/
def incoming (t : Traced) (c : Call) : Option Regs :=
  (c.exec t.machine.sched).bind fun r => r.2.bind fun x => t.out x.load.block

/-- The condition on the x87/SSE state: at a switch back to a thread, the processor has
the state that thread had when it was switched out. -/
def FxKept (t : Traced) : Event → Prop
  | .call c => ∀ r ∈ incoming t c, t.machine.cpu.fx = r.fx
  | .compute .. => True

/-- The condition on a step of the traced machine. -/
def TracedSound (t : Traced) (e : Event) : Prop := SoundStep t.machine e ∧ FxKept t e

instance : DecidableEq FxImage := fun (f g : Fin 512 → UInt8) =>
  decidable_of_iff (∀ i, f i = g i) funext_iff.symm

instance (t : Traced) (e : Event) : Decidable (FxKept t e) :=
  match e with
  | .call c => inferInstanceAs (Decidable (∀ r ∈ incoming t c, t.machine.cpu.fx = r.fx))
  | .compute .. => inferInstanceAs (Decidable True)

instance (t : Traced) (e : Event) : Decidable (TracedSound t e) :=
  inferInstanceAs (Decidable (_ ∧ _))

variable {t t' : Traced} {m : Machine} {s s' : Sched} {c : Call} {e : Event} {u : ℕ} {r : Regs}
  {sw : Option Switch} {x : Switch}

/-- The traced machine after a switch. -/
def Traced.switch (t : Traced) (s' : Sched) (x : Switch) : Traced :=
  ⟨switchThread ⟨s', t.machine.cpu⟩ x,
    Function.update t.out t.machine.cpu.rsp.block (some t.machine.cpu.regs),
    (t.out x.load.block).map fun r => (r, (switchThread ⟨s', t.machine.cpu⟩ x).cpu.regs)⟩

theorem Traced.switch_out : (t.switch s' x).out =
    Function.update t.out t.machine.cpu.rsp.block (some t.machine.cpu.regs) := rfl

/-- **What a traced step is.** -/
theorem tracedStep_cases (h : tracedStep t e = some t') :
    (∃ c s', e = .call c ∧ c.exits = false ∧ step t.machine e = some t'.machine ∧
      c.Fresh t.machine.sched ∧ c.exec t.machine.sched = some (s', none) ∧
      t' = { t with machine := ⟨s', t.machine.cpu⟩ }) ∨
    (∃ c s' x, e = .call c ∧ c.exits = false ∧ step t.machine e = some t'.machine ∧
      c.Fresh t.machine.sched ∧ c.exec t.machine.sched = some (s', some x) ∧
      t' = t.switch s' x) ∨
    ∃ gpr fx index words, e = .compute gpr fx index words ∧ step t.machine e = some t'.machine ∧
      t' = { t with machine := ⟨t.machine.sched.setStack t.machine.cpu.rsp.block words,
        ⟨⟨t.machine.cpu.rsp.block, index⟩, gpr, fx⟩⟩ } := by
  cases e with
  | compute gpr fx index words =>
    rw [tracedStep] at h
    obtain ⟨m, hm, rfl⟩ := Option.map_eq_some_iff.mp h
    obtain rfl := Option.some.inj hm
    exact Or.inr (Or.inr ⟨gpr, fx, index, words, rfl, rfl, rfl⟩)
  | call c =>
    rw [tracedStep] at h
    split_ifs at h with hexits
    obtain ⟨m, hm, rfl⟩ := Option.map_eq_some_iff.mp h
    have hexits : c.exits = false := by simpa using hexits
    obtain ⟨c', s', sw, hc, hfresh, hex, rfl⟩ | ⟨_, _, _, _, hc, -⟩ := step_cases hm
    · obtain rfl := Event.call.inj hc
      rw [hex]
      cases sw with
      | none => exact Or.inl ⟨c, s', rfl, hexits, hm, hfresh, hex, rfl⟩
      | some x => exact Or.inr (Or.inl ⟨c, s', x, rfl, hexits, hm, hfresh, hex, rfl⟩)
    · cases hc

/-! ### One switch -/

/-- The saved x87/SSE states after a switch: one is stored, in the context of
`running_thread`. -/
theorem saveState_fx {cpu : Cpu} {save : Option ℕ} :
    (saveState s cpu save).fx = Function.update s.fx s.runningThread cpu.fx := by
  have hstack : (s.setStack cpu.rsp.block
      (pushRegs (s.stack cpu.rsp.block) cpu.rsp.index cpu.gpr)).fx = s.fx := rfl
  cases save with
  | none => exact setFx_fx.trans (by rw [hstack]; rfl)
  | some u => exact setRsp_fx.trans (setFx_fx.trans (by rw [hstack]; rfl))

/-- **The x87/SSE state is not switched.** -/
theorem switch_fx : (switchThread m x).cpu.fx = m.cpu.fx := by
  show (saveState m.sched m.cpu x.save).fx (saveState m.sched m.cpu x.save).runningThread = m.cpu.fx
  rw [sameRing_saveState.runningThread, saveState_fx, Function.update_self]

/-- The stacks after a switch. -/
theorem saveState_stack {cpu : Cpu} {save : Option ℕ} :
    (saveState s cpu save).stack = Function.update s.stack cpu.rsp.block
      (pushRegs (s.stack cpu.rsp.block) cpu.rsp.index cpu.gpr) := by
  cases save <;> rfl

theorem createAndPush_stack {v pid : ℕ} :
    (s.createAndPush v pid).stack = Function.update s.stack v fun _ => 0 := by
  show ((s.createThread v pid).pushThread v).stack = _
  rw [pushThread]
  split_ifs <;> rfl

/-- A call leaves the stacks of the threads there are, and their saved stack pointers. -/
theorem exec_frame (hring : RingInv s) (hexits : c.exits = false) (hfresh : c.Fresh s)
    (hex : c.exec s = some (s', sw)) (hu : u ∈ s.threads) :
    u ∈ s'.threads ∧ s'.stack u = s.stack u ∧ s'.rsp u = s.rsp u := by
  -- `reschedule` changes no thread's context
  have hctx : ∀ {s₁ : Sched} {fuel : ℕ}, RingInv s₁ → s₁.reschedule fuel = some (s', sw) →
      s'.threads = s₁.threads ∧ s'.stack = s₁.stack ∧ s'.rsp = s₁.rsp := by
    intro s₁ fuel hring₁ hres
    obtain ⟨h1, h2, h3⟩ := reschedule_ctx hring₁ hres
    refine ⟨h3, h2, ?_⟩
    funext v
    rw [Sched.rsp, Sched.rsp, h1]
  obtain ⟨v, pid, hnew, -, rfl, -⟩ | ⟨-, rfl, -⟩ | ⟨v, b, -, rfl, -⟩ |
    ⟨pid, fuel, -, -, -, hres⟩ | ⟨fuel, -, hres⟩ | ⟨idle, fuel, rfl, -⟩ := exec_cases hex
  · have hne : u ≠ v := fun he => (hnew hfresh).2 (he ▸ hu)
    rw [createAndPush_stack, createAndPush_rsp, createAndPush_threads, Function.update_of_ne hne,
      Function.update_of_ne hne]
    exact ⟨List.mem_cons_of_mem _ hu, rfl, rfl⟩
  · exact ⟨hu, rfl, rfl⟩
  · exact ⟨hu, rfl, congrFun setStatus3_rsp u⟩
  · obtain ⟨hthreads, hstack, hrsp⟩ := hctx hring.setStatus3 hres
    rw [hthreads, hstack, hrsp]
    exact ⟨hu, rfl, congrFun setStatus3_rsp u⟩
  · obtain ⟨hthreads, hstack, hrsp⟩ := hctx hring hres
    rw [hthreads, hstack, hrsp]
    exact ⟨hu, rfl, rfl⟩
  · cases hexits

/-! ### The invariant -/

/-- The invariant: the machine executes the running thread; only threads and the boot code
(`0`) were switched out, and none before the first dispatch; and a thread that is switched
out has its registers on its stack, where its stack pointer says. -/
structure RegsInv (t : Traced) : Prop where
  exec : ExecInv t.machine
  known : ∀ u r, t.out u = some r → u = 0 ∨ u ∈ t.machine.sched.threads
  before : t.machine.sched.first = false → ∀ u, t.out u = none
  saved : ∀ u ∈ t.machine.sched.threads, u ≠ t.machine.sched.runningThread →
    ∀ r, t.out u = some r →
      popRegs (t.machine.sched.stack u) (t.machine.sched.rsp u).index = r.gpr

/-- A thread that was switched out, and is a thread after a call, was one before. -/
theorem RegsInv.mem_threads (h : RegsInv t) (hring : RingInv s') (hu : u ∈ s'.threads)
    (hr : t.out u = some r) : u ∈ t.machine.sched.threads := by
  refine (h.known u r hr).resolve_left fun h0 => ?_
  rcases hring with hno | ⟨l, hl⟩
  · rw [hno.threads] at hu
    cases hu
  · exact hl.null (h0 ▸ hu)

/-- **The registers of a thread that is switched back in.** -/
theorem switch_gpr (h : RegsInv t) (hexits : c.exits = false) (hfresh : c.Fresh t.machine.sched)
    (hsound : Sound t.machine.sched c) (hex : c.exec t.machine.sched = some (s', some x))
    (hr : t.out x.load.block = some r) :
    (switchThread ⟨s', t.machine.cpu⟩ x).cpu.gpr = r.gpr := by
  rcases hfirst : t.machine.sched.first with _ | _
  · rw [h.before hfirst] at hr
    cases hr
  · obtain ⟨l, hl⟩ := h.exec.exists_ring hfirst
    have hkept := kept_exec hl h.exec.own hfirst hfresh hsound hex
    have hring' := ringInv_exec h.exec.ring hfresh hex
    -- the thread loaded is the running one, and another one than the one that executed
    have hrun : s'.runningThread ∈ s'.threads := by
      rcases hring' with h0 | ⟨l', hl'⟩
      · exact absurd (h0.first.symm.trans hkept.first) (by decide)
      · exact hl'.running_mem
    have hload := hkept.load x rfl
    have hblock : x.load.block = s'.runningThread := by
      rw [hload]
      exact hkept.own _ hrun
    have hne := hkept.moves x rfl hexits
    rw [hblock] at hr
    have hmem := h.mem_threads hring' hrun hr
    obtain ⟨-, hstack, hrsp⟩ := exec_frame h.exec.ring hexits hfresh hex hmem
    have hcpu : t.machine.cpu.rsp.block = t.machine.sched.runningThread := h.exec.exec hfirst
    show popRegs ((saveState s' t.machine.cpu x.save).stack x.load.block) x.load.index = r.gpr
    rw [saveState_stack, hblock, hcpu, Function.update_of_ne hne, hload, hstack, hrsp]
    exact h.saved _ hmem hne r hr

/-- A call without a switch keeps the invariant. -/
theorem RegsInv.call (h : RegsInv t) (hexits : c.exits = false) (hfresh : c.Fresh t.machine.sched)
    (hsound : Sound t.machine.sched c) (hex : c.exec t.machine.sched = some (s', none))
    (hexec : ExecInv ⟨s', t.machine.cpu⟩) : RegsInv { t with machine := ⟨s', t.machine.cpu⟩ } := by
  have hring' := ringInv_exec h.exec.ring hfresh hex
  rcases hfirst : t.machine.sched.first with _ | _
  · have hnone := h.before hfirst
    refine ⟨hexec, fun u r hr => ?_, fun _ => hnone, fun u _ _ r hr => ?_⟩
    · rw [hnone u] at hr
      cases hr
    · rw [hnone u] at hr
      cases hr
  · obtain ⟨l, hl⟩ := h.exec.exists_ring hfirst
    have hkept := kept_exec hl h.exec.own hfirst hfresh hsound hex
    refine ⟨hexec, fun u r hr => (h.known u r hr).imp_right fun hu =>
      (exec_frame h.exec.ring hexits hfresh hex hu).1, fun hf => ?_, fun u hu hne r hr => ?_⟩
    · exact absurd (hkept.first.symm.trans hf) (by decide)
    · have hmem := h.mem_threads hring' hu hr
      obtain ⟨-, hstack, hrsp⟩ := exec_frame h.exec.ring hexits hfresh hex hmem
      have hne' : u ≠ t.machine.sched.runningThread := by
        rw [← hkept.ret rfl]
        exact hne
      show popRegs (s'.stack u) (s'.rsp u).index = r.gpr
      rw [hstack, hrsp]
      exact h.saved u hmem hne' r hr

/-- The first dispatch, which switches the boot code out. -/
theorem RegsInv.dispatch (h : RegsInv t) (hfirst : t.machine.sched.first = false)
    (hfresh : c.Fresh t.machine.sched) (hsound : Sound t.machine.sched c)
    (hex : c.exec t.machine.sched = some (s', some x))
    (hexec : ExecInv (switchThread ⟨s', t.machine.cpu⟩ x)) : RegsInv (t.switch s' x) := by
  have hsame := @sameRing_saveState s' t.machine.cpu x.save
  obtain ⟨-, ⟨-, hx⟩ | ⟨hf, -⟩⟩ := exec_before_first h.exec.own hfirst hsound hex
  · cases hx
  have hzero : ∀ u r, (t.switch s' x).out u = some r → u = 0 := by
    intro u r hr
    by_contra h0
    rw [Traced.switch_out, h.exec.boot hfirst, Function.update_of_ne h0, h.before hfirst u] at hr
    cases hr
  refine ⟨hexec, fun u r hr => Or.inl (hzero u r hr), fun hfalse => ?_, fun u hu _ r hr => ?_⟩
  · change (saveState s' t.machine.cpu x.save).first = false at hfalse
    rw [hsame.first, hf] at hfalse
    cases hfalse
  · change u ∈ (saveState s' t.machine.cpu x.save).threads at hu
    rw [hsame.threads, hzero u r hr] at hu
    -- the boot code is no thread
    rcases ringInv_exec h.exec.ring hfresh hex with h0 | ⟨l, hl⟩
    · rw [h0.threads] at hu
      cases hu
    · exact absurd hu hl.null

/-- A switch from one thread to another keeps the invariant. -/
theorem RegsInv.switch (h : RegsInv t) (hfirst : t.machine.sched.first = true)
    (hexits : c.exits = false) (hfresh : c.Fresh t.machine.sched)
    (hsound : Sound t.machine.sched c) (hex : c.exec t.machine.sched = some (s', some x))
    (hexec : ExecInv (switchThread ⟨s', t.machine.cpu⟩ x)) : RegsInv (t.switch s' x) := by
  have hsame := @sameRing_saveState s' t.machine.cpu x.save
  obtain ⟨l, hl⟩ := h.exec.exists_ring hfirst
  have hkept := kept_exec hl h.exec.own hfirst hfresh hsound hex
  have hcpu : t.machine.cpu.rsp.block = t.machine.sched.runningThread := h.exec.exec hfirst
  have hsave : x.save = some t.machine.sched.runningThread := by
    rw [hkept.save x rfl, hexits]
    rfl
  refine ⟨hexec, fun u r hr => ?_, fun hfalse => ?_, fun u hu hne r hr => ?_⟩
  · show u = 0 ∨ u ∈ (saveState s' t.machine.cpu x.save).threads
    rw [hsame.threads]
    rcases eq_or_ne u t.machine.cpu.rsp.block with rfl | hne
    · rw [hcpu]
      exact Or.inr (exec_frame h.exec.ring hexits hfresh hex hl.running_mem).1
    · rw [Traced.switch_out, Function.update_of_ne hne] at hr
      exact (h.known u r hr).imp_right fun hu => (exec_frame h.exec.ring hexits hfresh hex hu).1
  · change (saveState s' t.machine.cpu x.save).first = false at hfalse
    rw [hsame.first, hkept.first] at hfalse
    cases hfalse
  · change u ∈ (saveState s' t.machine.cpu x.save).threads at hu
    show popRegs ((saveState s' t.machine.cpu x.save).stack u)
      ((saveState s' t.machine.cpu x.save).rsp u).index = r.gpr
    rw [hsame.threads] at hu
    rw [Traced.switch_out] at hr
    rw [saveState_stack, saveState_rsp, hsave]
    dsimp only
    rcases eq_or_ne u t.machine.cpu.rsp.block with rfl | hne'
    · -- the thread that is switched out
      rw [Function.update_self] at hr
      obtain rfl := Option.some.inj hr
      rw [Function.update_self, ← hcpu, Function.update_self]
      exact popRegs_pushRegs _ _ _
    · rw [Function.update_of_ne hne'] at hr
      have hmem := h.mem_threads (ringInv_exec h.exec.ring hfresh hex) hu hr
      obtain ⟨-, hstack, hrsp⟩ := exec_frame h.exec.ring hexits hfresh hex hmem
      have hne'' : u ≠ t.machine.sched.runningThread := hcpu ▸ hne'
      rw [Function.update_of_ne hne', Function.update_of_ne hne'', hstack, hrsp]
      exact h.saved u hmem hne'' r hr

/-- **A step that meets the condition on the ring keeps the invariant.** -/
theorem regsInv_step (h : RegsInv t) (hG : SoundStep t.machine e)
    (hs : tracedStep t e = some t') : RegsInv t' := by
  obtain ⟨c, s', rfl, hexits, hm, hfresh, hex, rfl⟩ |
    ⟨c, s', x, rfl, hexits, hm, hfresh, hex, rfl⟩ |
    ⟨gpr, fx, index, words, rfl, hm, rfl⟩ := tracedStep_cases hs
  · exact h.call hexits hfresh hG hex (execInv_step h.exec hG hm)
  · rcases hfirst : t.machine.sched.first with _ | _
    · exact h.dispatch hfirst hfresh hG hex (execInv_step h.exec hG hm)
    · exact h.switch hfirst hexits hfresh hG hex (execInv_step h.exec hG hm)
  · -- a computation writes the stack of the running thread only
    refine ⟨execInv_step h.exec hG hm, h.known, h.before, fun u hu hne r hr => ?_⟩
    rcases hfirst : t.machine.sched.first with _ | _
    · rw [h.before hfirst] at hr
      cases hr
    · have hcpu : t.machine.cpu.rsp.block = t.machine.sched.runningThread := h.exec.exec hfirst
      show popRegs (Function.update t.machine.sched.stack t.machine.cpu.rsp.block words u) _ = r.gpr
      have hne' : u ≠ t.machine.cpu.rsp.block := by
        rw [hcpu]
        exact hne
      rw [Function.update_of_ne hne']
      exact h.saved u hu hne r hr

/-- A step that meets both conditions restores what it switches back to. -/
theorem restored_step (h : RegsInv t) (hrestored : Restored t) (hG : TracedSound t e)
    (hs : tracedStep t e = some t') : Restored t' := by
  obtain ⟨c, s', rfl, -, -, -, -, rfl⟩ | ⟨c, s', x, rfl, hexits, -, hfresh, hex, rfl⟩ |
    ⟨gpr, fx, index, words, rfl, -, rfl⟩ := tracedStep_cases hs
  · exact hrestored
  · rintro was now hlast
    obtain ⟨r, hr, heq⟩ := Option.map_eq_some_iff.mp hlast
    obtain ⟨rfl, rfl⟩ := Prod.mk.inj heq
    have hin : incoming t c = some r := by
      rw [incoming, hex, Option.bind_some, Option.bind_some, hr]
    have hfx : t.machine.cpu.fx = r.fx := hG.2 r hin
    have hgpr := switch_gpr h hexits hfresh hG.1 hex hr
    rw [Cpu.regs, hgpr, switch_fx, hfx]
  · exact hrestored

/-! ### Runs -/

/-- The machine at boot, with nothing traced yet. -/
def traced (m : Machine) : Traced := ⟨m, fun _ => none, none⟩

/-- **A thread finds its registers when it is switched back in.** In every state reached
from boot by a run whose steps all meet the conditions, the last switch back to a thread
has restored its registers and its x87/SSE state. And the second condition is sharp: at a
further switch that meets the condition on the ring, the thread switched back to finds its
registers in any case, and its x87/SSE state exactly when the processor has it at the time
of the switch. -/
theorem restored_of_meets (ctx : ℕ → ThreadContext) (stack : ℕ → ℤ → ℕ) (index : ℤ)
    (gpr : Fin 15 → ℕ) (fx : FxImage) (es : List Event) (t : Traced)
    (hG : Meets tracedStep TracedSound (traced (boot ctx stack index gpr fx)) es)
    (h : es.foldlM tracedStep (traced (boot ctx stack index gpr fx)) = some t) :
    Restored t ∧
      ∀ c s' x r, Call.exits c = false → Call.Fresh t.machine.sched c → Sound t.machine.sched c →
        c.exec t.machine.sched = some (s', some x) → t.out x.load.block = some r →
        (switchThread ⟨s', t.machine.cpu⟩ x).cpu.gpr = r.gpr ∧
          ((switchThread ⟨s', t.machine.cpu⟩ x).cpu.fx = r.fx ↔ t.machine.cpu.fx = r.fx) := by
  have hboot : RegsInv (traced (boot ctx stack index gpr fx)) ∧
      Restored (traced (boot ctx stack index gpr fx)) :=
    ⟨⟨execInv_boot, nofun, fun _ _ => rfl, nofun⟩, nofun⟩
  have hinv : RegsInv t ∧ Restored t :=
    run_inv_of_meets (I := fun t => RegsInv t ∧ Restored t)
      (fun _ _ _ hI hG hs => ⟨regsInv_step hI.1 hG.1 hs, restored_step hI.1 hI.2 hG hs⟩) hboot hG h
  refine ⟨hinv.2, fun c s' x r hexits hfresh hsound hex hr => ?_⟩
  rw [switch_fx]
  exact ⟨switch_gpr hinv.1 hexits hfresh hsound hex hr, Iff.rfl⟩

/-- Two threads take turns; the second one sets all its registers to 9 and its x87/SSE
state to the byte `b`, before the first one, which has 5 everywhere, is switched back
in. -/
def thereAndBack (b : UInt8) : List Event :=
  [.call (.hotCreateAndPushThread 1 7), .call (.hotExecElf 2 8), .call (.reschedule 0),
    .compute (fun _ => 5) (fun _ => 0) 1900 (fun _ => 0), .call (.reschedule 0),
    .compute (fun _ => 9) (fun _ => b) 1800 (fun _ => 0), .call (.reschedule 0)]

theorem restored_of_meets_thereAndBack :
    ∃ t, (thereAndBack 0).foldlM tracedStep (traced clearBoot) = some t ∧
      t.last.isSome ∧ Restored t := by
  have hlast : ((thereAndBack 0).foldlM tracedStep (traced clearBoot)).map
      (fun t => t.last.isSome) = some true := by decide +kernel
  obtain ⟨t, ht, hsome⟩ := Option.map_eq_some_iff.mp hlast
  exact ⟨t, ht, hsome,
    (restored_of_meets _ _ _ _ _ _ t (meets_of_checkMeets (by decide +kernel)) ht).1⟩

/-- **A thread finds the x87/SSE state of another one**: the second thread leaves the byte
`1` everywhere, and the first one, which had `0`, finds it. -/
theorem not_restored_of_fx :
    ∃ t, (thereAndBack 1).foldlM tracedStep (traced clearBoot) = some t ∧ ¬Restored t := by
  have hlast : (((thereAndBack 1).foldlM tracedStep (traced clearBoot)).bind fun t =>
      t.last.map fun p => (p.1.fx 0, p.2.fx 0)) = some (0, 1) := by decide +kernel
  obtain ⟨t, ht, hlast⟩ := Option.bind_eq_some_iff.mp hlast
  obtain ⟨⟨was, now⟩, hlast, heq⟩ := Option.map_eq_some_iff.mp hlast
  obtain ⟨h0, h1⟩ := Prod.mk.inj heq
  refine ⟨t, ht, fun hrestored => ?_⟩
  obtain rfl := hrestored was now hlast
  rw [h0] at h1
  exact absurd h1 (by decide)

end Scheduler

end WillowOS
