import WillowOS.Lib.X86

/-!
# The running thread, asked for by assembly

`get_current_thread` returns the variable `running_thread`. The assembly of the kernel calls it in
the middle of other work, with values in registers that a function is free to change. So it rests
on more than the calling convention: the function has to leave every register but `rax` alone
(`WillowOS.CurrentThread.Fetches`), as one does that only loads a variable. What a call then does
to the caller is said once, in `WillowOS.CurrentThread.exists_step_call`.
-/

namespace WillowOS

namespace CurrentThread

open X86

/-- `get_current_thread`, from its entry in `s` to its return in `s'`: it loads the variable at
`running`, and needs at most `d` bytes of stack. -/
structure Fetches (running : Word) (d : ℕ) (s s' : Cpu) : Prop where
  rax : s'.gpr .rax = s.read running
  gpr : ∀ r, r ≠ .rax → s'.gpr r = s.gpr r
  rsp : s'.rsp = s.rsp + 8
  cs : s'.cs = s.cs
  fx : s'.fx = s.fx
  mem : ∀ x, x < s.rsp.toNat - d ∨ s.rsp.toNat ≤ x → s'.mem x = s.mem x

/-- `get_current_thread`, as a load and a return. -/
def getCurrentThread (running : Word) (s : Cpu) : Cpu :=
  { s.setReg .rax (s.read running) with rsp := s.rsp + 8 }

theorem fetches_getCurrentThread (running : Word) (s : Cpu) :
    Fetches running 0 s (getCurrentThread running s) :=
  ⟨Cpu.gpr_setReg_self (s := s) (r := .rax), fun _ hr => Cpu.gpr_setReg_of_ne (s := s) hr, rfl, rfl,
    rfl, fun _ _ => rfl⟩

/-- The caller of `get_current_thread`, before and after the call. -/
structure Fetched (running : Word) (d : ℕ) (u u' : Cpu) : Prop where
  rax : u'.gpr .rax = u.read running
  gpr : ∀ r, r ≠ .rax → u'.gpr r = u.gpr r
  rsp : u'.rsp = u.rsp
  cs : u'.cs = u.cs
  fx : u'.fx = u.fx
  mem : ∀ x, x < u.rsp.toNat - 8 - d ∨ u.rsp.toNat ≤ x → u'.mem x = u.mem x

variable {fn : Word → Cpu → Option Cpu} {f running : Word} {d : ℕ} {s t u : Cpu}

theorem read_congr {a : Word} (h : ∀ x, a.toNat ≤ x → x < a.toNat + 8 → t.mem x = s.mem x) :
    t.read a = s.read a := by
  rw [Cpu.read, Cpu.read]
  exact congrArg (BitVec.ofNat 64) (Mem.readLE_congr h)

/-- **A call of `get_current_thread`**, where the variable is not in the way of the stack. -/
theorem exists_step_call (hf : ∀ s, ∃ s', fn f s = some s' ∧ Fetches running d s s') (next : Word)
    (hroom : 8 + d ≤ u.rsp.toNat)
    (hrun : running.toNat + 8 ≤ u.rsp.toNat - 8 - d ∨ u.rsp.toNat ≤ running.toNat) :
    ∃ u', step fn u (.call f next) = some u' ∧ Fetched running d u u' := by
  have h8 : (u.rsp - 8).toNat = u.rsp.toNat - 8 := toNat_sub_eight (by omega)
  have hpush (x : ℕ) (hx : x < u.rsp.toNat - 8 ∨ u.rsp.toNat ≤ x) :
      (u.pushWord next).mem x = u.mem x :=
    write64_of_notMem (by omega)
  obtain ⟨u', hu', hfetch⟩ := hf (u.pushWord next)
  refine ⟨u', hu', ?_, hfetch.gpr, ?_, hfetch.cs, hfetch.fx, fun x hx => ?_⟩
  · rw [hfetch.rax]
    exact read_congr fun x h1 h2 => hpush x (by omega)
  · rw [hfetch.rsp]
    exact BitVec.sub_add_cancel u.rsp 8
  · refine (hfetch.mem x ?_).trans (hpush x (by omega))
    change x < (u.rsp - 8).toNat - d ∨ (u.rsp - 8).toNat ≤ x
    omega

end CurrentThread

end WillowOS
