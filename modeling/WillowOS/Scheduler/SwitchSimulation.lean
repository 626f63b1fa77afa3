import WillowOS.Scheduler.Registers
import WillowOS.Scheduler.SwitchCode

/-!
# The code of `switch_thread` and the machine of the scheduler

The machine of the scheduler has contexts with fields and stacks with words that are numbered
(`WillowOS.Scheduler.Machine`). The code has bytes at addresses. Here the one is laid out in the
other: a context is 0x320 bytes at its address, with the fields at the offsets the assembly relies
on, and a stack is a block of 16000 bytes (`WillowOS.SwitchCode.Related`). As long as contexts,
stacks and the variable `running_thread` do not overlap (`WillowOS.SwitchCode.Placed`), the fifteen
pushes and pops, the two calls and the four moves do to the bytes what the machine's `switchThread`
does to the fields: **`WillowOS.SwitchCode.related_switchThread`**.

On the stack in use nothing is compared, since the code that runs there is free to change it. On
those of the other threads it is the fifteen words at the saved stack pointer, which is why a
thread that executes must not have an old stack pointer into its own stack in the context of
another thread.
-/

namespace WillowOS

namespace SwitchCode

open X86 CurrentThread

/-! ### The layout -/

/-- Where the stacks are. -/
structure Layout where
  blocks : List ℕ
  base : ℕ → ℕ

/-- The address of a word of a stack. -/
def Layout.addr (L : Layout) (p : Scheduler.StackPtr) : ℕ := (L.base p.block + 8 * p.index).toNat

/-- The word is in one of the stacks, with some bytes below it and some from it on. -/
structure Layout.Inside (L : Layout) (p : Scheduler.StackPtr) (below above : ℕ) : Prop where
  block : p.block ∈ L.blocks
  below : below ≤ 8 * p.index
  above : 8 * p.index + above ≤ 16000

def stackArea (L : Layout) (b : ℕ) : Area := ⟨L.base b, L.base b + 16000⟩

def contextArea (t : ℕ) : Area := ⟨t, t + 0x320⟩

/-- The field `current_rsp`. -/
def currentRspArea (t : ℕ) : Area := ⟨t + 0x260, t + 0x268⟩

/-- **Nothing overlaps.** -/
structure Placed (L : Layout) (im : Image) (threads : List ℕ) : Prop where
  stackStack : ∀ b ∈ L.blocks, ∀ c ∈ L.blocks, b ≠ c → (stackArea L b).Apart (stackArea L c)
  contextContext : ∀ t ∈ threads, ∀ u ∈ threads, t ≠ u → (contextArea t).Apart (contextArea u)
  contextStack : ∀ t ∈ threads, ∀ b ∈ L.blocks, (contextArea t).Apart (stackArea L b)
  variableContext : ∀ t ∈ threads, (variableArea im).Apart (contextArea t)
  variableStack : ∀ b ∈ L.blocks, (variableArea im).Apart (stackArea L b)
  contextFits : ∀ t ∈ threads, t + 0x320 ≤ 2 ^ 64
  stackFits : ∀ b ∈ L.blocks, L.base b + 16000 < 2 ^ 64

/-- The place of a register in the order they are pushed in. -/
def place : Reg → Fin 15
  | .rax => 0
  | .rbx => 1
  | .rcx => 2
  | .rdx => 3
  | .rsi => 4
  | .rdi => 5
  | .rbp => 6
  | .r8 => 7
  | .r9 => 8
  | .r10 => 9
  | .r11 => 10
  | .r12 => 11
  | .r13 => 12
  | .r14 => 13
  | .r15 => 14

/-- A `thread_context` in memory. -/
structure ContextAt (L : Layout) (m : Mem) (t : ℕ) (c : Scheduler.ThreadContext) : Prop where
  pid : m.read64 (t + 0x30) = c.pid
  ssefxsave : ∀ i : Fin 512, m (t + 0x50 + i) = c.ssefxsave i
  currentRsp : m.read64 (t + 0x260) = L.addr c.currentRsp
  status3 : m.read64 (t + 0x288) = c.status3.toNat
  nextThread : m.read64 (t + 0x310) = c.nextThread
  prevThread : m.read64 (t + 0x318) = c.prevThread

/-- The registers of a thread that does not execute are at its stack pointer. -/
structure SavedAt (L : Layout) (d : ℕ) (m : Mem) (s : Scheduler.Sched) (t : ℕ) : Prop where
  inside : L.Inside (s.rsp t) (8 + d) 120
  words : m.WordsAt (L.addr (s.rsp t)) (restored.map fun r =>
    Scheduler.popRegs (s.stack (s.rsp t).block) (s.rsp t).index (place r))

/-- **The processor and the machine of the scheduler.** -/
structure Related (L : Layout) (im : Image) (d : ℕ) (s : Cpu) (m : Scheduler.Machine) : Prop where
  gpr : ∀ r, (s.gpr r).toNat = m.cpu.gpr (place r)
  rsp : s.rsp.toNat = L.addr m.cpu.rsp
  inside : L.Inside m.cpu.rsp 0 0
  fx : ∀ i : Fin 512, s.fx i = m.cpu.fx i
  running : (thread im s).toNat = m.sched.runningThread
  context : ∀ t ∈ m.sched.threads, ContextAt L s.mem t (m.sched.ctx t)
  saved : ∀ t ∈ m.sched.threads, (m.sched.rsp t).block ≠ m.cpu.rsp.block →
    SavedAt L d s.mem m.sched t

/-- Where the first argument points to: the field `current_rsp` of a thread, or a local variable of
the caller. -/
def SavesTo (L : Layout) (s : Cpu) (m : Scheduler.Machine) : Option ℕ → Prop
  | some t => t ∈ m.sched.threads ∧ (s.gpr .rdi).toNat = t + 0x260
  | none => s.rsp.toNat ≤ (s.gpr .rdi).toNat ∧
    (s.gpr .rdi).toNat + 8 ≤ L.base m.cpu.rsp.block + 16000

/-- **A call of `switch_thread`** that is to make the switch `sw`. -/
structure Calls (L : Layout) (d : ℕ) (s : Cpu) (m : Scheduler.Machine) (sw : Scheduler.Switch) :
    Prop where
  running : m.sched.runningThread ∈ m.sched.threads
  room : L.Inside m.cpu.rsp (128 + d) 0
  save : SavesTo L s m sw.save
  load : ∃ u ∈ m.sched.threads, sw.load = m.sched.rsp u
  other : sw.load.block ≠ m.cpu.rsp.block
  rsi : (s.gpr .rsi).toNat = L.addr sw.load
  /-- Only the thread that executes may have a stack pointer into the stack in use. -/
  executing : ∀ t ∈ m.sched.threads, (m.sched.rsp t).block = m.cpu.rsp.block → sw.save = some t

/-! ### The five areas in the layout -/

variable {fn : Word → Cpu → Option Cpu} {L : Layout} {im : Image} {d : ℕ} {s s' : Cpu}
  {m : Scheduler.Machine} {sw : Scheduler.Switch} {g : Reg → Word} {a b c e : Area}

def Area.Within (a b : Area) : Prop := b.first ≤ a.first ∧ a.past ≤ b.past

theorem Area.Apart.within (h : b.Apart c) (ha : a.Within b) (he : e.Within c) : a.Apart e :=
  (h.mono he.1 he.2).symm.mono ha.1 ha.2 |>.symm

theorem Area.Within.refl : a.Within a := ⟨Nat.le_refl _, Nat.le_refl _⟩

theorem currentRspArea_within (t : ℕ) : (currentRspArea t).Within (contextArea t) :=
  ⟨Nat.le_add_right t _, Nat.add_le_add_left (by decide) t⟩

/-- Words from a stack pointer on are in the stack. -/
theorem addr_bounds {p : Scheduler.StackPtr} {i j : ℕ} (h : L.Inside p i j) :
    L.base p.block + i ≤ L.addr p ∧ L.addr p + j ≤ L.base p.block + 16000 := by
  have h1 := h.below
  have h2 := h.above
  rw [Layout.addr]
  omega

/-- What the first argument points to, seen from another area. -/
theorem SavesTo.apart {save : Option ℕ} (h : SavesTo L s m save)
    (hctx : ∀ t ∈ m.sched.threads, save = some t → a.Apart (currentRspArea t))
    (hstack : a.Apart (stackArea L m.cpu.rsp.block) ∨ a.past ≤ s.rsp.toNat)
    (hbase : L.base m.cpu.rsp.block ≤ s.rsp.toNat) : a.Apart (saveArea s) := by
  cases save with
  | some t =>
    rw [saveArea, h.2]
    exact hctx t h.1 rfl
  | none =>
    have hwithin : (saveArea s).Within (stackArea L m.cpu.rsp.block) :=
      ⟨Nat.le_trans hbase h.1, h.2⟩
    rcases hstack with hstack | hstack
    · exact hstack.within Area.Within.refl hwithin
    · exact Or.inl (Nat.le_trans hstack h.1)

section Areas

variable (hp : Placed L im m.sched.threads) (hr : Related L im d s m) (hc : Calls L d s m sw)

include hr in
theorem fxArea_within : (fxArea im s).Within (contextArea m.sched.runningThread) := by
  rw [fxArea, hr.running]
  exact ⟨Nat.le_add_right _ _, Nat.add_le_add_left (by decide) _⟩

include hr hc in
theorem room_of_calls : L.base m.cpu.rsp.block + (128 + d) ≤ s.rsp.toNat ∧
    s.rsp.toNat ≤ L.base m.cpu.rsp.block + 16000 := by
  rw [hr.rsp]
  exact addr_bounds hc.room

include hr hc in
theorem toNat_rsp_sub : (s.rsp - 120).toNat = s.rsp.toNat - 120 := by
  have h := room_of_calls hr hc
  exact toNat_sub_of_le (b := 120) (show 120 ≤ s.rsp.toNat by omega)

include hr hc in
theorem outArea_within :
    (callArea d (s.rsp - 120) 120).Within (stackArea L m.cpu.rsp.block) := by
  have h := room_of_calls hr hc
  rw [callArea, toNat_rsp_sub hr hc]
  constructor <;> dsimp only [stackArea] <;> omega

include hr hc in
theorem inside_load : L.Inside sw.load (8 + d) 120 := by
  obtain ⟨u, hu, hload⟩ := hc.load
  have hne := hc.other
  rw [hload] at hne ⊢
  exact (hr.saved u hu hne).inside

include hr hc in
theorem inArea_within : (callArea d (s.gpr .rsi) 120).Within (stackArea L sw.load.block) := by
  have h := addr_bounds (inside_load hr hc)
  rw [callArea, hc.rsi]
  constructor <;> dsimp only [stackArea] <;> omega

include hp hr hc in
/-- **The five areas do not overlap.** -/
theorem ready_of_calls
    (hf : ∀ s, ∃ s', fn im.getCurrentThread s = some s' ∧ Fetches im.runningThread d s s') :
    Ready fn im d s := by
  have hroom := room_of_calls hr hc
  have hin := addr_bounds (inside_load hr hc)
  have hfits := hp.stackFits _ (inside_load hr hc).block
  have hctxfits := hp.contextFits _ hc.running
  have hbase : L.base m.cpu.rsp.block ≤ s.rsp.toNat := by omega
  have hrun := hc.running
  have hblock := hc.room.block
  have hload := (inside_load hr hc).block
  have hfx := fxArea_within hr
  have hout := outArea_within hr hc
  have hin' := inArea_within hr hc
  have hpast : (callArea d (s.rsp - 120) 120).past = s.rsp.toNat := by
    rw [callArea, toNat_rsp_sub hr hc]
    dsimp only
    omega
  refine ⟨hf, by omega, by rw [hc.rsi]; omega, by rw [hc.rsi]; omega, by rw [hr.running]; omega, ?_⟩
  refine ⟨?_, ?_, ?_, ?_, ?_, ?_, ?_, ?_, ?_, ?_⟩
  · exact (hp.variableContext _ hrun).within Area.Within.refl hfx
  · exact hc.save.apart
      (fun t ht _ => (hp.variableContext t ht).within Area.Within.refl (currentRspArea_within t))
      (Or.inl (hp.variableStack _ hblock)) hbase
  · exact (hp.variableStack _ hblock).within Area.Within.refl hout
  · exact (hp.variableStack _ hload).within Area.Within.refl hin'
  · refine hc.save.apart (fun t ht _ => ?_)
      (Or.inl ((hp.contextStack _ hrun _ hblock).within hfx Area.Within.refl)) hbase
    rcases eq_or_ne m.sched.runningThread t with rfl | hne
    · left
      rw [fxArea, hr.running]
      exact Nat.add_le_add_left (by decide) _
    · exact (hp.contextContext _ hrun t ht hne).within hfx (currentRspArea_within t)
  · exact (hp.contextStack _ hrun _ hblock).within hfx hout
  · exact (hp.contextStack _ hrun _ hload).within hfx hin'
  · exact (hc.save.apart (fun t ht _ =>
      ((hp.contextStack t ht _ hblock).within (currentRspArea_within t) hout).symm)
      (Or.inr (Nat.le_of_eq hpast)) hbase).symm
  · exact (hc.save.apart (fun t ht _ =>
      ((hp.contextStack t ht _ hload).within (currentRspArea_within t) hin').symm)
      (Or.inl ((hp.stackStack _ hload _ hblock hc.other).within hin' Area.Within.refl)) hbase).symm
  · exact (hp.stackStack _ hblock _ hload (Ne.symm hc.other)).within hout hin'

end Areas

/-! ### What is left alone -/

section Clear

variable (hp : Placed L im m.sched.threads) (hr : Related L im d s m) (hc : Calls L d s m sw)

include hp hr hc in
/-- **A part of a context** is left alone, unless it is the x87/SSE state of the running thread or
the stack pointer that is stored. -/
theorem clear_context {t k n : ℕ} (ht : t ∈ m.sched.threads) (hk : k + n ≤ 0x320)
    (hfx : t = m.sched.runningThread → k + n ≤ 0x50 ∨ 0x250 ≤ k)
    (hrsp : sw.save = some t → k + n ≤ 0x260 ∨ 0x268 ≤ k) :
    Clear im d s ⟨t + k, t + k + n⟩ := by
  have hwithin : Area.Within ⟨t + k, t + k + n⟩ (contextArea t) := by
    constructor <;> dsimp only [contextArea] <;> omega
  have hroom := room_of_calls hr hc
  have hblock := hc.room.block
  have hload := (inside_load hr hc).block
  refine ⟨?_, hc.save.apart (fun u hu hsave => ?_) (Or.inl ?_) (by omega), ?_, ?_⟩
  · rcases eq_or_ne t m.sched.runningThread with rfl | hne
    · have h := hfx rfl
      rw [fxArea, hr.running, Area.Apart]
      dsimp only
      omega
    · exact (hp.contextContext t ht _ hc.running hne).within hwithin (fxArea_within hr)
  · rcases eq_or_ne t u with rfl | hne
    · have h := hrsp hsave
      rw [currentRspArea, Area.Apart]
      dsimp only
      omega
    · exact (hp.contextContext t ht u hu hne).within hwithin (currentRspArea_within u)
  · exact (hp.contextStack t ht _ hblock).within hwithin Area.Within.refl
  · exact (hp.contextStack t ht _ hblock).within hwithin (outArea_within hr hc)
  · exact apart_callArea_zero
      ((hp.contextStack t ht _ hload).within hwithin (inArea_within hr hc))

include hp hr hc in
/-- **The stack of a third thread** is left alone. -/
theorem clear_stack {b : ℕ} (hb : b ∈ L.blocks) (hout : b ≠ m.cpu.rsp.block)
    (hin : b ≠ sw.load.block) : Clear im d s (stackArea L b) := by
  have hroom := room_of_calls hr hc
  have hblock := hc.room.block
  have hload := (inside_load hr hc).block
  refine ⟨?_, hc.save.apart (fun u hu _ => ?_) (Or.inl ?_) (by omega), ?_, ?_⟩
  · exact ((hp.contextStack _ hc.running b hb).within (fxArea_within hr) Area.Within.refl).symm
  · exact ((hp.contextStack u hu b hb).within (currentRspArea_within u) Area.Within.refl).symm
  · exact hp.stackStack b hb _ hblock hout
  · exact (hp.stackStack b hb _ hblock hout).within Area.Within.refl (outArea_within hr hc)
  · exact apart_callArea_zero
      ((hp.stackStack b hb _ hload hin).within Area.Within.refl (inArea_within hr hc))

theorem clear_variable (h : Ready fn im d s) : Clear im d s (variableArea im) :=
  ⟨h.apart.ab, h.apart.ac, h.apart.ae, apart_callArea_zero h.apart.af⟩

/-! ### The simulation -/

include hp hr hc in
/-- A word of a context that is neither the x87/SSE state nor the stack pointer. -/
theorem read64_context (hsw : Switched im d g s s') {t k : ℕ} (ht : t ∈ m.sched.threads)
    (hk : k + 8 ≤ 0x50 ∨ 0x268 ≤ k ∧ k + 8 ≤ 0x320) :
    s'.mem.read64 (t + k) = s.mem.read64 (t + k) :=
  hsw.read64_of_clear
    (clear_context hp hr hc ht (by omega) (fun _ => by omega) fun _ => by omega)

/-- The stack pointer that is stored. -/
theorem addr_sub {p : Scheduler.StackPtr} (h : L.Inside p (128 + d) 0) :
    L.addr ⟨p.block, p.index - 15⟩ = L.addr p - 120 := by
  have h1 := h.below
  rw [Layout.addr, Layout.addr]
  dsimp only
  omega

include hp hr hc in
/-- **The contexts after the switch.** -/
theorem contextAt_saveState (hsw : Switched im d g s s') {t : ℕ} (ht : t ∈ m.sched.threads) :
    ContextAt L s'.mem t ((Scheduler.saveState m.sched m.cpu sw.save).ctx t) := by
  have hctx := hr.context t ht
  have hring := @Scheduler.sameRing_saveState m.sched m.cpu sw.save
  refine ⟨?_, fun i => ?_, ?_, ?_, ?_, ?_⟩
  · rw [read64_context hp hr hc hsw ht (by decide), hctx.pid]
    exact (congrFun hring.pid t).symm
  · have hfx : ((Scheduler.saveState m.sched m.cpu sw.save).ctx t).ssefxsave =
        Function.update m.sched.fx m.sched.runningThread m.cpu.fx t :=
      congrFun Scheduler.saveState_fx t
    rw [hfx]
    rcases eq_or_ne t m.sched.runningThread with rfl | hne
    · rw [Function.update_self, ← hr.fx i, ← hr.running]
      exact hsw.image i i.isLt
    · rw [Function.update_of_ne hne]
      have hclear := clear_context (k := 0x50 + i) (n := 1) hp hr hc ht (by omega)
        (fun he => absurd he hne) fun _ => by omega
      refine (hsw.mem_of_clear hclear ⟨?_, ?_⟩).trans (hctx.ssefxsave i)
      · dsimp only
        omega
      · dsimp only
        omega
  · have hrsp : ((Scheduler.saveState m.sched m.cpu sw.save).ctx t).currentRsp =
        (Scheduler.saveState m.sched m.cpu sw.save).rsp t := rfl
    rw [hrsp, Scheduler.saveState_rsp]
    have hsave := hc.save
    have hother (h : sw.save ≠ some t) : s'.mem.read64 (t + 0x260) = L.addr (m.sched.rsp t) :=
      (hsw.read64_of_clear (clear_context hp hr hc ht (by decide) (fun _ => by decide)
        fun he => absurd he h)).trans hctx.currentRsp
    cases h : sw.save with
    | none => exact hother (by rw [h]; exact Option.some_ne_none t |>.symm)
    | some u =>
      dsimp only
      rcases eq_or_ne t u with rfl | hne
      · rw [h] at hsave
        rw [Function.update_self, addr_sub hc.room, ← hr.rsp, ← hsave.2]
        exact hsw.stored
      · rw [Function.update_of_ne hne]
        exact hother (by rw [h]; exact fun he => hne (Option.some.inj he).symm)
  · rw [read64_context hp hr hc hsw ht (by decide), hctx.status3]
    exact (congrArg Bool.toNat (congrFun hring.blocked t)).symm
  · rw [read64_context hp hr hc hsw ht (by decide), hctx.nextThread]
    exact (congrFun hring.next t).symm
  · rw [read64_context hp hr hc hsw ht (by decide), hctx.prevThread]
    exact (congrFun hring.prev t).symm

include hp hr hc in
/-- **The stacks after the switch.** -/
theorem savedAt_saveState (hsw : Switched im d g s s') {t : ℕ} (ht : t ∈ m.sched.threads)
    (hne : ((Scheduler.saveState m.sched m.cpu sw.save).rsp t).block ≠ sw.load.block) :
    SavedAt L d s'.mem (Scheduler.saveState m.sched m.cpu sw.save) t := by
  by_cases hsave : sw.save = some t
  · -- the thread that was switched out: its registers have just been pushed
    have hrsp : (Scheduler.saveState m.sched m.cpu sw.save).rsp t =
        ⟨m.cpu.rsp.block, m.cpu.rsp.index - 15⟩ := by
      rw [Scheduler.saveState_rsp, hsave]
      exact Function.update_self ..
    have hroom := hc.room.below
    have habove := hc.room.above
    refine ⟨?_, ?_⟩
    · rw [hrsp]
      exact ⟨hc.room.block, by dsimp only; omega, by dsimp only; omega⟩
    · rw [hrsp, Scheduler.saveState_stack, Function.update_self, Scheduler.popRegs_pushRegs,
        addr_sub hc.room, ← hr.rsp]
      simp only [← hr.gpr]
      exact hsw.saved
  · -- any other thread: its stack pointer is as before, into another stack
    have hrsp : (Scheduler.saveState m.sched m.cpu sw.save).rsp t = m.sched.rsp t := by
      rw [Scheduler.saveState_rsp]
      cases h : sw.save with
      | none => rfl
      | some u => exact Function.update_of_ne (fun he => hsave (by rw [h, he])) ..
    have hblock : (m.sched.rsp t).block ≠ m.cpu.rsp.block :=
      fun he => hsave (hc.executing t ht he)
    have hold := hr.saved t ht hblock
    rw [hrsp] at hne
    refine ⟨by rw [hrsp]; exact hold.inside, ?_⟩
    rw [hrsp, Scheduler.saveState_stack, Function.update_of_ne hblock]
    refine wordsAt_congr (fun x h1 h2 => ?_) hold.words
    rw [List.length_map, length_restored] at h2
    have hbounds := addr_bounds hold.inside
    exact hsw.mem_of_clear (clear_stack hp hr hc hold.inside.block hblock hne)
      (show Area.Has _ x from ⟨by dsimp only [stackArea]; omega, by dsimp only [stackArea]; omega⟩)

end Clear

theorem lt_of_wordsAt {m : Mem} {x w : ℕ} {ws : List ℕ} (h : m.WordsAt x ws) (hw : w ∈ ws) :
    w < 2 ^ 64 := by
  induction ws generalizing x with
  | nil => cases hw
  | cons v ws ih =>
    rcases List.mem_cons.mp hw with rfl | hw
    · rw [← h.1]
      exact Mem.read64_lt
    · exact ih h.2 hw

/-- **The code of `switch_thread` does what the machine's `switchThread` does**: from states that
are related, up to its return, to states that are related. -/
theorem related_switchThread
    (hf : ∀ s, ∃ s', fn im.getCurrentThread s = some s' ∧ Fetches im.runningThread d s s')
    (hp : Placed L im m.sched.threads) (hr : Related L im d s m) (hc : Calls L d s m sw) :
    ∃ s', exec fn s (switchThread im) = step fn s' .ret ∧
      s'.rflags &&& interruptFlag = interruptFlag ∧
      Related L im d s' (Scheduler.switchThread m sw) := by
  obtain ⟨t, ht, hload⟩ := hc.load
  have hother := hc.other
  have hwords := (hr.saved t ht (by rw [← hload]; exact hother)).words
  rw [← hload, ← hc.rsi] at hwords
  -- the registers it finds on the other stack
  obtain ⟨g, hg⟩ : ∃ g : Reg → Word, ∀ r, (g r).toNat =
      Scheduler.popRegs (m.sched.stack sw.load.block) sw.load.index (place r) := by
    refine ⟨fun r => BitVec.ofNat 64
      (Scheduler.popRegs (m.sched.stack sw.load.block) sw.load.index (place r)), fun r => ?_⟩
    rw [BitVec.toNat_ofNat, Nat.mod_eq_of_lt]
    exact lt_of_wordsAt hwords (List.mem_map_of_mem (mem_restored r))
  have hwords' : s.mem.WordsAt (s.gpr .rsi).toNat (restored.map fun r => (g r).toNat) := by
    simp only [hg]
    exact hwords
  have hready := ready_of_calls hp hr hc hf
  obtain ⟨s', hexec, hsw⟩ := exec_switchThread hready hwords'
  have hinside := inside_load hr hc
  have hbounds := addr_bounds hinside
  have hring := @Scheduler.sameRing_saveState m.sched m.cpu sw.save
  refine ⟨s', hexec, hsw.interrupts, fun r => ?_, ?_, ?_, fun i => ?_, ?_, fun t ht => ?_,
    fun t ht hne => ?_⟩
  · rw [hsw.gpr, hg]
    change _ = Scheduler.popRegs ((Scheduler.saveState m.sched m.cpu sw.save).stack _) _ _
    rw [Scheduler.saveState_stack, Function.update_of_ne hother]
  · rw [hsw.rsp, hc.rsi]
    have hbelow := hinside.below
    change _ = L.addr ⟨sw.load.block, sw.load.index + 15⟩
    rw [Layout.addr, Layout.addr]
    dsimp only
    omega
  · have hbelow := hinside.below
    have habove := hinside.above
    refine ⟨hinside.block, ?_, ?_⟩
    · change _ ≤ 8 * (sw.load.index + 15)
      omega
    · change 8 * (sw.load.index + 15) + _ ≤ _
      omega
  · rw [hsw.fx, Scheduler.switch_fx]
    exact hr.fx i
  · rw [thread, Cpu.toNat_read, hsw.read64_of_clear (clear_variable hready), ← Cpu.toNat_read,
      ← thread, hr.running]
    exact hring.runningThread.symm
  · exact contextAt_saveState hp hr hc hsw
      (by rwa [← hring.threads])
  · exact savedAt_saveState hp hr hc hsw
      (by rwa [← hring.threads]) hne

/-! ### Two threads -/

/-- The thread at 0x2000, with its stack at 0x10000, executes; `running_thread` has been moved to
the one at 0x3000, whose stack is at 0x20000. -/
def sampleLayout : Layout := ⟨[0x2000, 0x3000], fun b => 16 * b - 0x10000⟩

/-- A context, read off the memory. -/
def sampleContext (t : ℕ) (index : ℤ) : Scheduler.ThreadContext where
  pid := sampleMem.read64 (t + 0x30)
  currentRsp := ⟨t, index⟩
  status3 := false
  ssefxsave := fun i => sampleMem (t + 0x50 + i)
  nextThread := sampleMem.read64 (t + 0x310)
  prevThread := sampleMem.read64 (t + 0x318)

def sampleMachine : Scheduler.Machine where
  sched :=
    { ctx := fun t => if t = 0x2000 then sampleContext 0x2000 0 else sampleContext 0x3000 50
      stack := fun b i => sampleMem.read64 (sampleLayout.addr ⟨b, i⟩)
      threads := [0x2000, 0x3000]
      runningThread := 0x3000
      numThreads := 2
      firstThread := false
      first := true }
  cpu :=
    { rsp := ⟨0x2000, 100⟩
      gpr := fun k => if k = 5 then 0x2260 else if k = 4 then 0x20190 else 0
      fx := fun _ => 0 }

theorem placed_sample : Placed sampleLayout sampleImage sampleMachine.sched.threads := by
  constructor <;> decide

theorem related_sample : Related sampleLayout sampleImage 0 sampleCpu sampleMachine := by
  refine ⟨fun r => ?_, by decide, ⟨by decide, by decide, by decide⟩, fun _ => rfl, by decide, ?_,
    ?_⟩
  · cases r <;> rfl
  · intro t ht
    rcases List.mem_pair.mp ht with rfl | rfl
    · exact ⟨rfl, fun _ => rfl, by decide, by decide, rfl, rfl⟩
    · exact ⟨rfl, fun _ => rfl, by decide, by decide, rfl, rfl⟩
  · intro t ht hne
    rcases List.mem_pair.mp ht with rfl | rfl
    · exact absurd rfl hne
    · refine ⟨⟨by decide, by decide, by decide⟩, ?_⟩
      exact ⟨rfl, rfl, rfl, rfl, rfl, rfl, rfl, rfl, rfl, rfl, rfl, rfl, rfl, rfl, rfl, trivial⟩

theorem calls_sample : Calls sampleLayout 0 sampleCpu sampleMachine
    ⟨some 0x2000, ⟨0x3000, 50⟩⟩ := by
  refine ⟨by decide, ⟨by decide, by decide, by decide⟩, ⟨by decide, rfl⟩, ⟨0x3000, by decide, rfl⟩,
    by decide, rfl, ?_⟩
  decide

theorem related_switchThread_sample :
    ∃ s', exec sampleFn sampleCpu (switchThread sampleImage) = step sampleFn s' .ret ∧
      s'.rflags &&& interruptFlag = interruptFlag ∧
      Related sampleLayout sampleImage 0 s'
        (Scheduler.switchThread sampleMachine ⟨some 0x2000, ⟨0x3000, 50⟩⟩) :=
  related_switchThread fetches_sampleFn placed_sample related_sample calls_sample

end SwitchCode

end WillowOS
