import WillowOS.Scheduler.Current

/-!
# System calls

`syscall_handler` of `syscalls.asm`, from the instruction `syscall` of a user program to the
`sysret` that goes back to it. The handler begins on the stack of the user, asks
`get_current_thread` twice for the running thread, notes the stack pointer of the user in
`user_rsp`, changes to the stack at `stack_base`, saves the registers there and calls the word of
`syscall_array` that the first argument numbers.

The handler keeps what it still needs in registers that a function is free to change, and so it
needs `get_current_thread` to be as `WillowOS.CurrentThread.Fetches` says. With that, a call that
returns is seen by the user as a function call
(**`WillowOS.Syscalls.syscallHandler_returns`**): only `rax`, `rcx` and `r11` change. The number is
not compared with the length of the table, so that every word of the memory is an entry of it, at
the addresses that are a multiple of eight away (`WillowOS.Syscalls.syscallHandler_calls_any`).
-/

namespace WillowOS

namespace Syscalls

open X86 CurrentThread

/-- Where the linker put things, with the addresses after the three calls. -/
structure Image where
  syscallHandler : Word
  getCurrentThread : Word
  syscallArray : Word
  /-- The variable `running_thread`. -/
  runningThread : Word
  next : Fin 3 → Word

/-- The instruction `syscall`, with the registers `init_syscalls` set up. -/
def syscall (im : Image) (s : Cpu) : Cpu :=
  { (s.setReg .rcx s.rip).setReg .r11 s.rflags with
    rip := im.syscallHandler
    rflags := s.rflags &&& ~~~0x202
    cs := 0x8
    ss := 0x10 }

/-- The registers in the order they are pushed in, after the stack pointer of the user. -/
def saved : List Reg :=
  [.rbx, .rbp, .r12, .r13, .r14, .r15, .r11, .rcx, .rbx, .rcx, .rdx, .rsi, .rdi, .rbp,
    .r8, .r9, .r10, .r11, .r12, .r13, .r14, .r15]

/-- The registers in the order they are popped in. -/
def restored : List Reg :=
  [.r15, .r14, .r13, .r12, .r11, .r10, .r9, .r8, .rbp, .rdi, .rsi, .rdx, .rcx, .rbx,
    .rcx, .r11, .r15, .r14, .r13, .r12, .rbp, .rbx]

/-- Up to the change of stacks. -/
def switchStacks (im : Image) : List Instr :=
  [.cli, .call im.getCurrentThread (im.next 0), .storeRsp .rax 0x48, .movCr2 .rax,
    .call im.getCurrentThread (im.next 1), .load .rax .rax 0x40, .xchgRsp .rax]

/-- After the call. -/
def leave : List Instr := .cli :: restored.map .pop ++ [.popRsp, .sysret 0x23 0x1b]

def syscallHandler (im : Image) : List Instr :=
  switchStacks im ++ (.rax :: saved).map .push ++
    .callTable im.syscallArray .rdi (im.next 2) :: leave

variable {fn : Word → Cpu → Option Cpu} {im : Image} {d lo : ℕ} {shared : ℕ → Prop} {s s' t u : Cpu}

/-- The thread that makes the call. -/
def thread (im : Image) (s : Cpu) : Word := s.read im.runningThread

/-- The top of its stack in the kernel. -/
def stackBase (im : Image) (s : Cpu) : Word := s.read (thread im s + 0x40)

/-- The bytes the handler writes before it has changed stacks: below the stack pointer of the user,
and the field `user_rsp`. -/
def Scratch (im : Image) (d : ℕ) (s : Cpu) (x : ℕ) : Prop :=
  (s.rsp.toNat - 8 - d ≤ x ∧ x < s.rsp.toNat) ∨
    ((thread im s).toNat + 0x48 ≤ x ∧ x < (thread im s).toNat + 0x50)

/-- No byte of the word at `a` is written before the change of stacks. -/
def Kept (im : Image) (d : ℕ) (s : Cpu) (a : Word) : Prop :=
  ∀ x, a.toNat ≤ x → x < a.toNat + 8 → ¬Scratch im d s x

/-- What the handler takes for granted about the state of the user. -/
structure Ready (fn : Word → Cpu → Option Cpu) (im : Image) (d : ℕ) (s : Cpu) : Prop where
  fetches : ∀ s, ∃ s', fn im.getCurrentThread s = some s' ∧ Fetches im.runningThread d s s'
  room : 8 + d ≤ s.rsp.toNat
  fits : (thread im s).toNat + 0x50 ≤ 2 ^ 64
  running : Kept im d s im.runningThread
  base : Kept im d s (thread im s + 0x40)

/-! ### The change of stacks -/

/-- A call of `get_current_thread` on the stack of the user. -/
theorem step_getCurrentThread (next : Word) (hr : Ready fn im d s) (hrsp : u.rsp = s.rsp)
    (hmem : ∀ x, ¬Scratch im d s x → u.mem x = s.mem x) :
    ∃ u', step fn u (.call im.getCurrentThread next) = some u' ∧ u'.gpr .rax = thread im s ∧
      (∀ r, r ≠ .rax → u'.gpr r = u.gpr r) ∧ u'.rsp = s.rsp ∧ u'.cs = u.cs ∧
      ∀ x, ¬Scratch im d s x → u'.mem x = s.mem x := by
  have hroom := hr.room
  -- the first byte of the variable and the last one are not in the scratch area
  have hfirst := hr.running im.runningThread.toNat (Nat.le_refl _) (by omega)
  have hlast := hr.running (im.runningThread.toNat + 7) (by omega) (by omega)
  rw [Scratch] at hfirst hlast
  have hrun : im.runningThread.toNat + 8 ≤ u.rsp.toNat - 8 - d ∨
      u.rsp.toNat ≤ im.runningThread.toNat := by
    rw [hrsp]
    omega
  obtain ⟨u', hu', hf⟩ := exists_step_call hr.fetches next (hrsp ▸ hroom) hrun
  refine ⟨u', hu', ?_, hf.gpr, hf.rsp.trans hrsp, hf.cs, fun x hx => ?_⟩
  · rw [hf.rax, thread]
    exact read_congr fun x h1 h2 => hmem x (hr.running x h1 h2)
  · refine (hf.mem x ?_).trans (hmem x hx)
    rw [Scratch] at hx
    rw [hrsp]
    omega

theorem exec_load_xchg {w : Word} (h : s.read (s.gpr .rax + 0x40) = w) :
    exec fn s [.load .rax .rax 0x40, .xchgRsp .rax] =
      some { s.setReg .rax s.rsp with rsp := w } := by
  have hset : (s.setReg .rax w).setReg .rax s.rsp = s.setReg .rax s.rsp := by
    simp only [Cpu.setReg, Function.update_idem]
  have hrsp : (s.setReg .rax w).rsp = s.rsp := rfl
  rw [exec_cons, step, Option.bind_some, h, exec_cons, step, Option.bind_some, exec_nil,
    Cpu.gpr_setReg_self, hrsp, hset]

/-- **The state on the stack of the kernel**, before the registers are saved. -/
structure Switched (im : Image) (d : ℕ) (s u : Cpu) : Prop where
  rax : u.gpr .rax = s.rsp
  gpr : ∀ r, r ≠ .rax → u.gpr r = (syscall im s).gpr r
  rsp : u.rsp = stackBase im s
  cs : u.cs = 0x8
  mem : ∀ x, ¬Scratch im d s x → u.mem x = s.mem x

theorem exec_switchStacks (hr : Ready fn im d s) :
    ∃ u, exec fn (syscall im s) (switchStacks im) = some u ∧ Switched im d s u := by
  have hfits := hr.fits
  obtain ⟨s₂, h₂, hrax₂, hgpr₂, hrsp₂, hcs₂, hmem₂⟩ :=
    step_getCurrentThread (im.next 0) (u := { syscall im s with
      rflags := (syscall im s).rflags &&& ~~~interruptFlag }) hr rfl fun _ _ => rfl
  have h48 : (s₂.gpr .rax + 0x48).toNat = (thread im s).toNat + 0x48 := by
    rw [hrax₂]
    exact toNat_add_of_lt (show (thread im s).toNat + 0x48 < 2 ^ 64 by omega)
  -- the store to `user_rsp` is part of what may change
  have hstore (x : ℕ) (hx : ¬Scratch im d s x) :
      (s₂.write (s₂.gpr .rax + 0x48) s₂.rsp).mem x = s.mem x := by
    refine (write64_of_notMem ?_).trans (hmem₂ x hx)
    rw [Scratch] at hx
    omega
  obtain ⟨s₅, h₅, hrax₅, hgpr₅, hrsp₅, hcs₅, hmem₅⟩ :=
    step_getCurrentThread (im.next 1) (u := { s₂.write (s₂.gpr .rax + 0x48) s₂.rsp with
      cr2 := (s₂.write (s₂.gpr .rax + 0x48) s₂.rsp).gpr .rax }) hr hrsp₂ hstore
  have hload : s₅.read (s₅.gpr .rax + 0x40) = stackBase im s := by
    rw [hrax₅, stackBase]
    exact read_congr fun x h1 h2 => hmem₅ x (hr.base x h1 h2)
  refine ⟨{ s₅.setReg .rax s₅.rsp with rsp := stackBase im s }, ?_, ?_, fun r hr' => ?_, rfl,
    hcs₅.trans hcs₂, hmem₅⟩
  · rw [switchStacks, exec_cons, step, Option.bind_some, exec_cons, h₂, Option.bind_some, exec_cons,
      step, Option.bind_some, exec_cons, step, Option.bind_some, exec_cons, h₅, Option.bind_some,
      exec_load_xchg hload]
  · change (s₅.setReg .rax s₅.rsp).gpr .rax = s.rsp
    rw [Cpu.gpr_setReg_self, hrsp₅]
  · calc (s₅.setReg .rax s₅.rsp).gpr r = s₅.gpr r := Cpu.gpr_setReg_of_ne hr'
      _ = s₂.gpr r := hgpr₅ r hr'
      _ = (syscall im s).gpr r := hgpr₂ r hr'

/-! ### The call -/

theorem gpr_syscall :
    (syscall im s).gpr = Function.update (Function.update s.gpr .rcx s.rip) .r11 s.rflags := rfl

theorem gpr_syscall_of_notMem {r : Reg} (h : r ∉ [Reg.rax, .rcx, .r11]) :
    (syscall im s).gpr r = s.gpr r := by
  simp only [List.mem_cons, List.not_mem_nil, or_false, not_or] at h
  rw [gpr_syscall, Function.update_of_ne h.2.2, Function.update_of_ne h.2.1]

theorem rcx_syscall : (syscall im s).gpr .rcx = s.rip := by
  rw [gpr_syscall, Function.update_of_ne (by decide), Function.update_self]

theorem r11_syscall : (syscall im s).gpr .r11 = s.rflags := by
  rw [gpr_syscall, Function.update_self]

/-- The word of the table that the first argument numbers. -/
def entry (im : Image) (s : Cpu) : Word := im.syscallArray + 8 * s.gpr .rdi

/-- The state the function of a system call is entered in, `u` being the one after the change of
stacks. -/
def atCall (im : Image) (u : Cpu) : Cpu :=
  (u.pushWords ((.rax :: saved).map u.gpr)).pushWord (im.next 2)

/-- No byte of the word at `a` is written before the call. -/
def Untouched (im : Image) (d : ℕ) (s : Cpu) (a : Word) : Prop :=
  Kept im d s a ∧ (a.toNat + 8 ≤ (stackBase im s).toNat - 184 ∨ (stackBase im s).toNat ≤ a.toNat)

theorem restored_eq : restored = saved.reverse := rfl

theorem length_saved : saved.length = 22 := rfl

/-- What the handler has pushed. -/
theorem pushed_saved (hu : Switched im d s u) (hroom : 192 ≤ (stackBase im s).toNat) :
    Pushed (stackBase im s).toNat ((.rax :: saved).map u.gpr) u.mem
      (u.pushWords ((.rax :: saved).map u.gpr)) := by
  have hlen : ((.rax :: saved).map u.gpr).length = 23 := by
    rw [List.length_map, List.length_cons, length_saved]
  have hle : 8 * ((.rax :: saved).map u.gpr).length ≤ u.rsp.toNat := by
    rw [hlen, hu.rsp]
    omega
  have h := (Pushed.nil u).pushWords hle
  rwa [List.nil_append, hu.rsp] at h

theorem toNat_rsp_pushed (hu : Switched im d s u) (hroom : 192 ≤ (stackBase im s).toNat) :
    (u.pushWords ((.rax :: saved).map u.gpr)).rsp.toNat + 184 = (stackBase im s).toNat := by
  have h := (pushed_saved hu hroom).rsp
  rwa [List.length_map, List.length_cons, length_saved] at h

/-- **What the handler does**, up to the call and from there on. -/
theorem exec_syscallHandler (hr : Ready fn im d s) (hroom : 192 ≤ (stackBase im s).toNat)
    (hentry : Untouched im d s (entry im s)) :
    ∃ u, Switched im d s u ∧ exec fn (syscall im s) (syscallHandler im) =
      (fn (s.read (entry im s)) (atCall im u)).bind fun v => exec fn v leave := by
  obtain ⟨u, hexec, hu⟩ := exec_switchStacks hr
  refine ⟨u, hu, ?_⟩
  have hp := pushed_saved hu hroom
  have hsp := toNat_rsp_pushed hu hroom
  have hrdi : (u.pushWords ((.rax :: saved).map u.gpr)).gpr .rdi = s.gpr .rdi := by
    rw [Cpu.pushWords_gpr, hu.gpr _ (by decide), gpr_syscall_of_notMem (by decide)]
  have hread : (u.pushWords ((.rax :: saved).map u.gpr)).read (entry im s) =
      s.read (entry im s) := by
    refine read_congr fun x h1 h2 => ?_
    have hout := hentry.2
    exact (hp.mem x (by omega)).trans (hu.mem x (hentry.1 x h1 h2))
  rw [syscallHandler, List.append_assoc, exec_append, hexec, Option.bind_some, exec_append,
    exec_pushes, Option.bind_some, exec_cons, step, hrdi, ← entry, hread, atCall]

/-- **What the function finds**: the kernel's privileges, the registers of the user, and for its
fourth argument the address the user goes on at. -/
structure Entered (im : Image) (s c : Cpu) : Prop where
  cs : c.cs = 0x8
  gpr : ∀ r, r ∉ [Reg.rax, .rcx, .r11] → c.gpr r = s.gpr r
  rcx : c.gpr .rcx = s.rip
  rsp : c.rsp.toNat + 192 = (stackBase im s).toNat

theorem gpr_atCall : (atCall im u).gpr = u.gpr := by
  rw [atCall, Cpu.pushWord_gpr, Cpu.pushWords_gpr]

theorem cs_atCall : (atCall im u).cs = u.cs := by
  rw [atCall, Cpu.pushWord_cs, Cpu.pushWords_eq]

theorem toNat_rsp_atCall (hu : Switched im d s u) (hroom : 192 ≤ (stackBase im s).toNat) :
    (atCall im u).rsp.toNat + 192 = (stackBase im s).toNat := by
  have hsp := toNat_rsp_pushed hu hroom
  rw [atCall, Cpu.toNat_rsp_pushWord (by omega)]
  omega

theorem entered_atCall (hu : Switched im d s u) (hroom : 192 ≤ (stackBase im s).toNat) :
    Entered im s (atCall im u) := by
  refine ⟨cs_atCall.trans hu.cs, fun r hr => ?_, ?_, toNat_rsp_atCall hu hroom⟩
  · rw [gpr_atCall, hu.gpr r fun h => hr (h ▸ List.mem_cons_self), gpr_syscall_of_notMem hr]
  · rw [gpr_atCall, hu.gpr _ (by decide), rcx_syscall]

/-! ### The way back -/

/-- **What the user sees of a system call** whose function returned in `v`: the result is in `rax`,
`rcx` and `r11` are lost to the instructions, and of the memory outside of the kernel's stack only
what the function writes to has changed, and what `Scratch` says. -/
structure ReturnsToUser (im : Image) (d lo : ℕ) (shared : ℕ → Prop) (s v s' : Cpu) : Prop where
  rax : s'.gpr .rax = v.gpr .rax
  rcx : s'.gpr .rcx = s.rip
  r11 : s'.gpr .r11 = s.rflags
  gpr : ∀ r, r ∉ [Reg.rax, .rcx, .r11] → s'.gpr r = s.gpr r
  rsp : s'.rsp = s.rsp
  rip : s'.rip = s.rip
  rflags : s'.rflags = (s.rflags &&& 0x3c7fd7) ||| 2
  cs : s'.cs = 0x23
  ss : s'.ss = 0x1b
  mem : ∀ x, ¬shared x → ¬Scratch im d s x → x < lo ∨ (stackBase im s).toNat ≤ x →
    s'.mem x = s.mem x

theorem mem_restored {r : Reg} (h : r ≠ .rax) : r ∈ restored := by
  cases r <;> first | exact absurd rfl h | decide

theorem rax_notMem_restored : Reg.rax ∉ restored := by decide

/-- The last two instructions, with the stack pointer of the user on the stack. -/
theorem exec_popRsp_sysret {w : Word} (h : t.read t.rsp = w) :
    exec fn t [.popRsp, .sysret 0x23 0x1b] = some { t with
      rsp := w
      rip := t.gpr .rcx
      rflags := (t.gpr .r11 &&& 0x3c7fd7) ||| 2
      cs := 0x23
      ss := 0x1b } := by
  rw [exec_cons, step, Option.bind_some, exec_cons, step, Option.bind_some, exec_nil, h]

/-- The last part of the handler, from a state with the saved registers on the stack. -/
theorem exec_leave {g : Reg → Word} {w : Word} (hlt : t.rsp.toNat + 184 < 2 ^ 64)
    (h : t.mem.WordsAt t.rsp.toNat ((restored.map g ++ [w]).map BitVec.toNat)) :
    exec fn t leave = some { t with
      gpr := fun r => if r ∈ restored then g r else t.gpr r
      rsp := w
      rip := g .rcx
      rflags := (g .r11 &&& 0x3c7fd7) ||| 2
      cs := 0x23
      ss := 0x1b } := by
  rw [List.map_append, wordsAt_append, List.map_map] at h
  have hlen : restored.length = 22 := by rw [restored_eq, List.length_reverse, length_saved]
  obtain ⟨p, hp⟩ : ∃ p, p = Cpu.popped { t with rflags := t.rflags &&& ~~~interruptFlag } g
    restored := ⟨_, rfl⟩
  have hpops : exec fn { t with rflags := t.rflags &&& ~~~interruptFlag } (restored.map .pop) =
      some p := by
    rw [hp]
    exact exec_pops g (show t.rsp.toNat + 8 * restored.length < 2 ^ 64 by omega) h.1
  have hread : p.read p.rsp = w := by
    refine Cpu.read_eq ?_
    have hrsp : p.rsp.toNat = t.rsp.toNat + 8 * restored.length := by
      rw [hp]
      exact Cpu.toNat_rsp_popped (show t.rsp.toNat + 8 * restored.length < 2 ^ 64 by omega)
    have hmem : p.mem = t.mem := by rw [hp, Cpu.popped]
    have hw := h.2.1
    rw [List.length_map] at hw
    rw [hrsp, hmem, hw]
  have hcx : p.gpr .rcx = g .rcx := by
    rw [hp]
    exact Cpu.gpr_popped_of_mem (mem_restored (by decide))
  have h11 : p.gpr .r11 = g .r11 := by
    rw [hp]
    exact Cpu.gpr_popped_of_mem (mem_restored (by decide))
  rw [leave, List.cons_append, exec_cons, step, Option.bind_some, exec_append, hpops,
    Option.bind_some, exec_popRsp_sysret hread, hcx, h11, hp, Cpu.popped]

/-- **What is saved at the call**, in a state `c` with the return address on the stack: the
registers, which had the values `g`, and the stack pointer of the user above them. -/
structure Saved (im : Image) (d : ℕ) (s : Cpu) (g : Reg → Word) (c : Cpu) : Prop where
  rsp : c.rsp.toNat + 192 = (stackBase im s).toNat
  words : c.mem.WordsAt (c.rsp.toNat + 8) ((restored.map g ++ [s.rsp]).map BitVec.toNat)
  mem : ∀ x, ¬Scratch im d s x → x < c.rsp.toNat ∨ (stackBase im s).toNat ≤ x →
    c.mem x = s.mem x

/-- The return address is pushed below what was saved. -/
theorem saved_pushWord {p : Cpu} {next : Word} (hu : Switched im d s u)
    (hroom : 192 ≤ (stackBase im s).toNat) (hsp : p.rsp.toNat + 184 = (stackBase im s).toNat)
    (hp : Pushed (stackBase im s).toNat ((.rax :: saved).map u.gpr) u.mem p) :
    Saved im d s u.gpr (p.pushWord next) := by
  have hrsp : (p.pushWord next).rsp.toNat = p.rsp.toNat - 8 := Cpu.toNat_rsp_pushWord (by omega)
  have hkeep {x : ℕ} (hx : x < (p.pushWord next).rsp.toNat ∨
      (p.pushWord next).rsp.toNat + 8 ≤ x) : (p.pushWord next).mem x = p.mem x :=
    write64_of_notMem hx
  refine ⟨by omega, ?_, fun x hs hx => ?_⟩
  · have hw := hp.words
    rw [← List.map_reverse, List.reverse_cons, ← restored_eq, List.map_append, List.map_singleton,
      hu.rax] at hw
    rw [show (p.pushWord next).rsp.toNat + 8 = p.rsp.toNat by omega]
    exact wordsAt_congr (fun x h1 _ => hkeep (by omega)) hw
  · rw [hkeep (by omega), hp.mem x (by omega), hu.mem x hs]

theorem saved_atCall (hu : Switched im d s u) (hroom : 192 ≤ (stackBase im s).toNat) :
    Saved im d s u.gpr (atCall im u) := by
  rw [atCall]
  exact saved_pushWord hu hroom (toNat_rsp_pushed hu hroom) (pushed_saved hu hroom)

/-- The way back from a function that keeps to the calling convention. -/
theorem returnsToUser_of_returns {c v : Cpu} (hu : Switched im d s u)
    (hc : Saved im d s u.gpr c) (hroom : lo + 192 ≤ (stackBase im s).toNat)
    (hstack : ∀ x, lo ≤ x → x < (stackBase im s).toNat → ¬shared x)
    (hret : Returns lo shared c v) :
    ∃ s', exec fn v leave = some s' ∧ ReturnsToUser im d lo shared s v s' := by
  have hsp := hc.rsp
  have hlt := (stackBase im s).isLt
  have hrsp : v.rsp.toNat = c.rsp.toNat + 8 := by
    rw [hret.rsp]
    exact toNat_add_of_lt (show c.rsp.toNat + 8 < 2 ^ 64 by omega)
  have hlen : ((restored.map u.gpr ++ [s.rsp]).map BitVec.toNat).length = 23 := by
    rw [List.length_map, List.length_append, List.length_map, restored_eq, List.length_reverse,
      length_saved, List.length_singleton]
  -- what was saved is above the stack pointer of the function, and not shared
  have hwords : v.mem.WordsAt v.rsp.toNat ((restored.map u.gpr ++ [s.rsp]).map BitVec.toNat) := by
    rw [hrsp]
    refine wordsAt_congr (fun x h1 h2 => ?_) hc.words
    rw [hlen] at h2
    exact hret.mem x (hstack x (by omega) (by omega)) (Or.inr h1)
  have hrcx : u.gpr .rcx = s.rip := (hu.gpr _ (by decide)).trans rcx_syscall
  have hr11 : u.gpr .r11 = s.rflags := (hu.gpr _ (by decide)).trans r11_syscall
  have hpop {r : Reg} (hr : r ≠ .rax) : (if r ∈ restored then u.gpr r else v.gpr r) = u.gpr r :=
    if_pos (mem_restored hr)
  have hrax : (if Reg.rax ∈ restored then u.gpr .rax else v.gpr .rax) = v.gpr .rax :=
    if_neg rax_notMem_restored
  refine ⟨_, exec_leave (by omega) hwords, hrax, (hpop (r := .rcx) (by decide)).trans hrcx,
    (hpop (r := .r11) (by decide)).trans hr11, fun r hr => ?_, rfl, hrcx,
    congrArg (fun w => (w &&& 0x3c7fd7) ||| 2) hr11, rfl, rfl, fun x hx hs hout => ?_⟩
  · have hne : r ≠ .rax := fun h => hr (h ▸ List.mem_cons_self)
    exact (hpop hne).trans ((hu.gpr r hne).trans (gpr_syscall_of_notMem hr))
  · exact (hret.mem x hx (by omega)).trans (hc.mem x hs (by omega))

/-! ### A user program -/

/-- A kernel with `running_thread` at `0x1000` and the table at `0x3000`. -/
def sampleImage : Image where
  syscallHandler := 0x100
  getCurrentThread := 0x4000
  syscallArray := 0x3000
  runningThread := 0x1000
  next := fun _ => 0x200

/-- Its functions: `get_current_thread`, and others that do nothing. -/
def sampleFn (a : Word) (s : Cpu) : Option Cpu :=
  if a = sampleImage.getCurrentThread then
    some (getCurrentThread sampleImage.runningThread s)
  else some { s with rsp := s.rsp + 8 }

/-- The running thread is at `0x2000`, and its stack in the kernel ends at `0x9000`. -/
def sampleMem : Mem := (Mem.write64 (fun _ => 0) 0x1000 0x2000).write64 0x2040 0x9000

/-- A program that has the number `n` in its registers. -/
def sampleUser (n : Word) : Cpu where
  gpr := fun _ => n
  rsp := 0x5000
  rip := 0x6000
  rflags := 0x202
  cs := 0x23
  ss := 0x1b
  cr2 := 0
  fx := fun _ => 0
  mem := sampleMem

theorem thread_sampleUser {n : Word} : thread sampleImage (sampleUser n) = 0x2000 := by
  refine Cpu.read_eq ((Mem.read64_write64_of_disjoint ?_).trans (Mem.read64_write64 ?_))
  · exact Or.inl (by decide)
  · decide

theorem stackBase_sampleUser {n : Word} : stackBase sampleImage (sampleUser n) = 0x9000 := by
  rw [stackBase, thread_sampleUser]
  exact Cpu.read_eq (Mem.read64_write64 (by decide))

theorem scratch_sampleUser {n : Word} {x : ℕ} : Scratch sampleImage 0 (sampleUser n) x ↔
    (0x4ff8 ≤ x ∧ x < 0x5000) ∨ (0x2048 ≤ x ∧ x < 0x2050) := by
  rw [Scratch, thread_sampleUser]
  exact Iff.rfl

theorem kept_sampleUser {n a : Word}
    (h : a.toNat + 8 ≤ 0x2048 ∨ (0x2050 ≤ a.toNat ∧ a.toNat + 8 ≤ 0x4ff8)) :
    Kept sampleImage 0 (sampleUser n) a := by
  intro x h1 h2
  rw [scratch_sampleUser]
  omega

theorem fetches_sampleFn (s : Cpu) : ∃ s', sampleFn sampleImage.getCurrentThread s = some s' ∧
    Fetches sampleImage.runningThread 0 s s' :=
  ⟨_, if_pos rfl, fetches_getCurrentThread _ s⟩

theorem ready_sampleUser {n : Word} : Ready sampleFn sampleImage 0 (sampleUser n) := by
  refine ⟨fetches_sampleFn, show 8 + 0 ≤ 0x5000 by decide, ?_,
    kept_sampleUser (Or.inl (by decide)), ?_⟩
  · rw [thread_sampleUser]
    decide
  · rw [thread_sampleUser]
    exact kept_sampleUser (Or.inl (by decide))

theorem untouched_sampleUser {n a : Word} (h1 : 0x3000 ≤ a.toNat) (h2 : a.toNat < 0x4000) :
    Untouched sampleImage 0 (sampleUser n) a := by
  refine ⟨kept_sampleUser (Or.inr (by omega)), Or.inl ?_⟩
  rw [stackBase_sampleUser]
  change a.toNat + 8 ≤ 0x9000 - 184
  omega

/-- The memory of the table is empty. -/
theorem read_entry_sampleUser :
    (sampleUser 3).read (entry sampleImage (sampleUser 3)) = 0 := by
  refine Cpu.read_eq ((Mem.read64_write64_of_disjoint ?_).trans
    ((Mem.read64_write64_of_disjoint ?_).trans Mem.read64_zero))
  · exact Or.inr (by decide)
  · exact Or.inr (by decide)

/-- **The number of a system call is not checked**: for every word of the memory that is a multiple
of eight bytes away from the table there is a number that makes the handler call what the word says,
with the privileges of the kernel. -/
theorem syscallHandler_calls_any {a : Word} (ha : 8 ∣ (a - im.syscallArray).toNat)
    (hrdi : s.gpr .rdi = (a - im.syscallArray) / 8) (hr : Ready fn im d s)
    (hroom : 192 ≤ (stackBase im s).toNat) (hkeep : Untouched im d s a) :
    ∃ c, Entered im s c ∧ exec fn (syscall im s) (syscallHandler im) =
      (fn (s.read a) c).bind fun v => exec fn v leave := by
  have hmul : 8 * ((a - im.syscallArray) / 8) = a - im.syscallArray := by
    apply BitVec.eq_of_toNat_eq
    have hlt := (a - im.syscallArray).isLt
    rw [BitVec.toNat_mul, BitVec.toNat_udiv]
    change 8 * ((a - im.syscallArray).toNat / 8) % 2 ^ 64 = _
    rw [Nat.mul_div_cancel' ha, Nat.mod_eq_of_lt hlt]
  have hentry : entry im s = a := by
    rw [entry, hrdi, hmul, BitVec.add_comm, BitVec.sub_add_cancel]
  obtain ⟨u, hu, hexec⟩ := exec_syscallHandler hr hroom (hentry.symm ▸ hkeep)
  exact ⟨atCall im u, entered_atCall hu hroom, hentry ▸ hexec⟩

/-- The table has twenty entries; this call uses the one numbered 256. -/
theorem syscallHandler_calls_any_sampleUser :
    ∃ c, Entered sampleImage (sampleUser 256) c ∧
      exec sampleFn (syscall sampleImage (sampleUser 256)) (syscallHandler sampleImage) =
        (sampleFn ((sampleUser 256).read 0x3800) c).bind fun v => exec sampleFn v leave :=
  syscallHandler_calls_any (by decide) (by decide) ready_sampleUser
    (by rw [stackBase_sampleUser]; decide) (untouched_sampleUser (by decide) (by decide))

end Syscalls

end WillowOS
