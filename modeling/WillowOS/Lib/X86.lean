import WillowOS.Lib.Stores
import Mathlib.Data.BitVec
import Mathlib.Tactic.Common

/-!
# A piece of the x86-64 processor

The registers and the instructions that code uses which saves the state of other code, calls a
function and puts the state back: pushes and pops, a few moves, calls and returns from interrupts.
Code is a list of instructions without jumps, and running it is a left fold
(`WillowOS.X86.exec`). The functions it calls are not translated: they are any functions on the
state, one for each address, and `none` says that a call does not return.

Words that were pushed lie on the stack in the reverse order
(`WillowOS.X86.Cpu.wordsAt_pushWords`), and pops take them off again
(**`WillowOS.X86.exec_pops`**): registers that are popped in the reverse order they were pushed in
are what they were, if the words on the stack still are.

What a called function may change is said by the calling convention
(`WillowOS.X86.Conforms`): of the registers it keeps six, it takes its return address off the
stack, and of the memory it changes only what it shares with its caller and what is below the
stack pointer. The arithmetic flags are not modelled: what reads the flags here reloads them. The
x87/SSE state is the image that `fxsave` writes.
-/

namespace WillowOS

namespace X86

/-- The general-purpose registers, without the stack pointer. -/
inductive Reg where
  | rax | rbx | rcx | rdx | rsi | rdi | rbp | r8 | r9 | r10 | r11 | r12 | r13 | r14 | r15
deriving DecidableEq

abbrev Word : Type := BitVec 64

/-- The processor and its memory. Selectors are kept as the words they are pushed as. -/
structure Cpu where
  gpr : Reg → Word
  rsp : Word
  rip : Word
  rflags : Word
  cs : Word
  ss : Word
  cr2 : Word
  /-- The x87/SSE state, as the bytes `fxsave` writes. -/
  fx : ℕ → UInt8
  mem : Mem

inductive Instr where
  | push (r : Reg)
  | pop (r : Reg)
  | popRsp
  /-- `mov r, rsp`. -/
  | movRsp (r : Reg)
  | subRsp (n : Word)
  | addRsp (n : Word)
  /-- `xchg rsp, r`. -/
  | xchgRsp (r : Reg)
  /-- `mov rsp, r`. -/
  | loadRsp (r : Reg)
  /-- `mov r, [base + offset]`. -/
  | load (r base : Reg) (offset : Word)
  /-- `mov [base + offset], rsp`. -/
  | storeRsp (base : Reg) (offset : Word)
  /-- `mov cr2, r`. -/
  | movCr2 (r : Reg)
  /-- `call f`, with the address of the next instruction. -/
  | call (f next : Word)
  /-- `call [table + 8 * r]`. -/
  | callTable (table : Word) (r : Reg) (next : Word)
  | cli
  | sti
  /-- `fxsave [base + offset]`. -/
  | fxsave (base : Reg) (offset : Word)
  /-- `fxrstor [base + offset]`. -/
  | fxrstor (base : Reg) (offset : Word)
  | ret
  | iretq
  /-- `o64 sysret`, to the user's selectors. -/
  | sysret (cs ss : Word)
deriving DecidableEq

/-- The bit of the flags that lets interrupts through. -/
def interruptFlag : Word := 0x200

namespace Cpu

/-- The word at an address. -/
def read (s : Cpu) (a : Word) : Word := BitVec.ofNat 64 (s.mem.read64 a.toNat)

def write (s : Cpu) (a v : Word) : Cpu := { s with mem := s.mem.write64 a.toNat v.toNat }

def setReg (s : Cpu) (r : Reg) (v : Word) : Cpu := { s with gpr := Function.update s.gpr r v }

def pushWord (s : Cpu) (v : Word) : Cpu := { s with rsp := s.rsp - 8 }.write (s.rsp - 8) v

/-- The words pushed, one after the other. -/
def pushWords (s : Cpu) (vs : List Word) : Cpu := vs.foldl pushWord s

/-- The 512 bytes at an address are those of the x87/SSE state. -/
def writeFx (s : Cpu) (a : Word) : Cpu :=
  { s with mem := fun x => if a.toNat ≤ x ∧ x < a.toNat + 512 then s.fx (x - a.toNat) else s.mem x }

/-- The x87/SSE state is that of the 512 bytes at an address. -/
def readFx (s : Cpu) (a : Word) : Cpu :=
  { s with fx := fun i => if i < 512 then s.mem (a.toNat + i) else s.fx i }

/-- The stack pointer after `n` pops. -/
def drop (s : Cpu) (n : Word) : Cpu := { s with rsp := s.rsp + 8 * n }

end Cpu

/-- An instruction. -/
def step (fn : Word → Cpu → Option Cpu) (s : Cpu) : Instr → Option Cpu
  | .push r => some (s.pushWord (s.gpr r))
  | .pop r => some ((s.drop 1).setReg r (s.read s.rsp))
  | .popRsp => some { s with rsp := s.read s.rsp }
  | .movRsp r => some (s.setReg r s.rsp)
  | .subRsp n => some { s with rsp := s.rsp - n }
  | .addRsp n => some { s with rsp := s.rsp + n }
  | .xchgRsp r => some { s.setReg r s.rsp with rsp := s.gpr r }
  | .loadRsp r => some { s with rsp := s.gpr r }
  | .load r base offset => some (s.setReg r (s.read (s.gpr base + offset)))
  | .storeRsp base offset => some (s.write (s.gpr base + offset) s.rsp)
  | .movCr2 r => some { s with cr2 := s.gpr r }
  | .call f next => fn f (s.pushWord next)
  | .callTable table r next => fn (s.read (table + 8 * s.gpr r)) (s.pushWord next)
  | .cli => some { s with rflags := s.rflags &&& ~~~interruptFlag }
  | .sti => some { s with rflags := s.rflags ||| interruptFlag }
  | .fxsave base offset => some (s.writeFx (s.gpr base + offset))
  | .fxrstor base offset => some (s.readFx (s.gpr base + offset))
  | .ret => some { s with rip := s.read s.rsp, rsp := s.rsp + 8 }
  | .iretq => some { s with
      rip := s.read s.rsp
      cs := s.read (s.rsp + 8)
      rflags := s.read (s.rsp + 16)
      rsp := s.read (s.rsp + 24)
      ss := s.read (s.rsp + 32) }
  | .sysret cs ss => some { s with
      rip := s.gpr .rcx
      rflags := (s.gpr .r11 &&& 0x3c7fd7) ||| 2
      cs := cs
      ss := ss }

/-- **A run of code.** -/
def exec (fn : Word → Cpu → Option Cpu) (s : Cpu) (code : List Instr) : Option Cpu :=
  code.foldlM (step fn) s

/-- The registers a function keeps. -/
def calleeSaved : List Reg := [.rbx, .rbp, .r12, .r13, .r14, .r15]

/-- **The calling convention.** `s` is the state on entry, with the return address on the stack, and
`s'` the one after the return. The stack begins at `lo`, and `shared` is the memory outside of it
that the function may write to. -/
structure Returns (lo : ℕ) (shared : ℕ → Prop) (s s' : Cpu) : Prop where
  saved : ∀ r ∈ calleeSaved, s'.gpr r = s.gpr r
  rsp : s'.rsp = s.rsp + 8
  mem : ∀ x, ¬shared x → x < lo ∨ s.rsp.toNat + 8 ≤ x → s'.mem x = s.mem x

/-- A function that keeps to the calling convention, whenever it returns. -/
def Conforms (lo : ℕ) (shared : ℕ → Prop) (f : Cpu → Option Cpu) : Prop :=
  ∀ s s', f s = some s' → Returns lo shared s s'

variable {fn : Word → Cpu → Option Cpu} {s s' t : Cpu} {a b v : Word} {vs : List Word} {n : ℕ}
  {rs : List Reg} {code code' : List Instr}

theorem exec_nil : exec fn s [] = some s := rfl

theorem exec_cons {i : Instr} :
    exec fn s (i :: code) = (step fn s i).bind fun t => exec fn t code := rfl

theorem exec_append :
    exec fn s (code ++ code') = (exec fn s code).bind fun t => exec fn t code' :=
  List.foldlM_append ..

/-! ### Addresses -/

theorem toNat_sub_of_le (h : b.toNat ≤ a.toNat) : (a - b).toNat = a.toNat - b.toNat := by
  bv_omega

theorem toNat_sub_eight (h : 8 ≤ a.toNat) : (a - 8).toNat = a.toNat - 8 := toNat_sub_of_le h

theorem toNat_add_of_lt (h : a.toNat + b.toNat < 2 ^ 64) : (a + b).toNat = a.toNat + b.toNat := by
  bv_omega

theorem toNat_and_fifteen : (a &&& 15).toNat = a.toNat % 16 := by
  rw [BitVec.toNat_and]
  exact Nat.and_two_pow_sub_one_eq_mod _ 4

/-- Alignment clears the last four bits. -/
theorem toNat_align : (a &&& ~~~15).toNat = a.toNat - a.toNat % 16 := by
  have hzero : (a &&& ~~~15) &&& (a &&& 15) = 0 := by
    rw [BitVec.and_assoc, BitVec.and_comm a 15, ← BitVec.and_assoc (~~~15)]
    exact (congrArg (a &&& ·) BitVec.zero_and).trans BitVec.and_zero
  have hsplit : (a &&& ~~~15) + (a &&& 15) = a := by
    rw [BitVec.add_eq_or_of_and_eq_zero _ _ hzero, ← BitVec.and_or_distrib_left]
    exact BitVec.and_allOnes
  have hlow := @toNat_and_fifteen a
  bv_omega

/-! ### Words on the stack -/

/-- A word is written where it is written. -/
theorem write64_of_notMem {m : Mem} {a v x : ℕ} (h : x < a ∨ a + 8 ≤ x) : m.write64 a v x = m x :=
  if_neg (by omega)

theorem wordsAt_append {m : Mem} {a : ℕ} {us ws : List ℕ} :
    m.WordsAt a (us ++ ws) ↔ m.WordsAt a us ∧ m.WordsAt (a + 8 * us.length) ws := by
  induction us generalizing a with
  | nil => exact ⟨fun h => ⟨trivial, h⟩, And.right⟩
  | cons u us ih =>
    rw [List.cons_append, Mem.WordsAt, Mem.WordsAt, ih, and_assoc, List.length_cons,
      show a + 8 + 8 * us.length = a + 8 * (us.length + 1) by omega]

/-- One of the words. -/
theorem read64_of_wordsAt {m : Mem} {a : ℕ} {ws : List ℕ} (h : m.WordsAt a ws) (k : ℕ) {w : ℕ}
    (hk : ws[k]? = some w) : m.read64 (a + 8 * k) = w := by
  induction ws generalizing a k with
  | nil => cases hk
  | cons u ws ih =>
    cases k with
    | zero => exact h.1.trans (Option.some.inj hk)
    | succ k => exact (ih h.2 k hk) ▸ congrArg m.read64 (by omega)

/-- Words depend on their own bytes only. -/
theorem wordsAt_congr {m m' : Mem} {a : ℕ} {ws : List ℕ}
    (h : ∀ x, a ≤ x → x < a + 8 * ws.length → m' x = m x) (hw : m.WordsAt a ws) :
    m'.WordsAt a ws := by
  induction ws generalizing a with
  | nil => trivial
  | cons w ws ih =>
    rw [List.length_cons] at h
    refine ⟨?_, ih (fun x h1 h2 => h x (by omega) (by omega)) hw.2⟩
    rw [← hw.1]
    exact Mem.readLE_congr fun x h1 h2 => h x h1 (by omega)

namespace Cpu

@[simp] theorem gpr_setReg_self {r : Reg} : (s.setReg r v).gpr r = v := by simp [setReg]

theorem gpr_setReg_of_ne {r r' : Reg} (h : r' ≠ r) : (s.setReg r v).gpr r' = s.gpr r' := by
  simp [setReg, h]

theorem toNat_read : (s.read a).toNat = s.mem.read64 a.toNat := by
  rw [read, BitVec.toNat_ofNat, Nat.mod_eq_of_lt Mem.read64_lt]

theorem read_eq (h : s.mem.read64 a.toNat = v.toNat) : s.read a = v :=
  BitVec.eq_of_toNat_eq (toNat_read.trans h)

theorem pushWords_nil : s.pushWords [] = s := rfl

theorem pushWords_cons : s.pushWords (v :: vs) = (s.pushWord v).pushWords vs := rfl

theorem pushWords_append {us : List Word} :
    s.pushWords (vs ++ us) = (s.pushWords vs).pushWords us :=
  List.foldl_append ..

/-- Pushing changes the stack pointer and the memory only. -/
theorem pushWords_eq : s.pushWords vs =
    { s with rsp := (s.pushWords vs).rsp, mem := (s.pushWords vs).mem } := by
  induction vs generalizing s with
  | nil => rfl
  | cons v vs ih =>
    rw [pushWords_cons]
    conv_lhs => rw [ih]
    rfl

theorem pushWords_gpr : (s.pushWords vs).gpr = s.gpr := by rw [pushWords_eq]

theorem pushWord_gpr : (s.pushWord v).gpr = s.gpr := rfl

theorem pushWord_cs : (s.pushWord v).cs = s.cs := rfl

theorem toNat_rsp_pushWord (h : 8 ≤ s.rsp.toNat) :
    (s.pushWord v).rsp.toNat = s.rsp.toNat - 8 :=
  toNat_sub_eight h

theorem toNat_rsp_pushWords (h : 8 * vs.length ≤ s.rsp.toNat) :
    (s.pushWords vs).rsp.toNat = s.rsp.toNat - 8 * vs.length := by
  induction vs generalizing s with
  | nil => rfl
  | cons v vs ih =>
    rw [List.length_cons] at h ⊢
    have hv := toNat_rsp_pushWord (s := s) (v := v) (by omega)
    rw [pushWords_cons, ih (by omega), hv]
    omega

/-- Pushing writes below the stack pointer. -/
theorem mem_pushWords (h : 8 * vs.length ≤ s.rsp.toNat) {x : ℕ}
    (hx : x < s.rsp.toNat - 8 * vs.length ∨ s.rsp.toNat ≤ x) :
    (s.pushWords vs).mem x = s.mem x := by
  induction vs generalizing s with
  | nil => rfl
  | cons v vs ih =>
    rw [List.length_cons] at h hx
    have hv := toNat_rsp_pushWord (s := s) (v := v) (by omega)
    rw [pushWords_cons, ih (by omega) (by omega)]
    have hsub : (s.rsp - 8).toNat = s.rsp.toNat - 8 := hv
    exact write64_of_notMem (by omega)

/-- **The words lie on the stack in the reverse order.** -/
theorem wordsAt_pushWords (h : 8 * vs.length ≤ s.rsp.toNat) :
    (s.pushWords vs).mem.WordsAt (s.pushWords vs).rsp.toNat (vs.reverse.map BitVec.toNat) := by
  induction vs generalizing s with
  | nil => trivial
  | cons v vs ih =>
    rw [List.length_cons] at h
    have hv := toNat_rsp_pushWord (s := s) (v := v) (by omega)
    have hsub : (s.rsp - 8).toNat = s.rsp.toNat - 8 := hv
    rw [pushWords_cons, List.reverse_cons, List.map_append, wordsAt_append]
    refine ⟨ih (by omega), ?_⟩
    rw [List.length_map, List.length_reverse, toNat_rsp_pushWords (by omega), hv,
      show s.rsp.toNat - 8 - 8 * vs.length + 8 * vs.length = s.rsp.toNat - 8 by omega]
    refine ⟨?_, trivial⟩
    -- the later pushes are below this word
    have hkeep : ((s.pushWord v).pushWords vs).mem.read64 (s.rsp.toNat - 8) =
        (s.pushWord v).mem.read64 (s.rsp.toNat - 8) :=
      Mem.readLE_congr fun x h1 _ => mem_pushWords (by omega) (by omega)
    rw [hkeep, ← hsub]
    exact Mem.read64_write64 v.isLt

end Cpu

/-- `t` is a state in which the words `ws` have been pushed, in this order, on the stack that was at
`sp` in a state with the memory `m`. -/
structure Pushed (sp : ℕ) (ws : List Word) (m : Mem) (t : Cpu) : Prop where
  rsp : t.rsp.toNat + 8 * ws.length = sp
  words : t.mem.WordsAt t.rsp.toNat (ws.reverse.map BitVec.toNat)
  mem : ∀ x, x < t.rsp.toNat ∨ sp ≤ x → t.mem x = m x

namespace Pushed

variable {sp : ℕ} {ws : List Word} {m : Mem}

theorem nil (s : Cpu) : Pushed s.rsp.toNat [] s.mem s := ⟨rfl, trivial, fun _ _ => rfl⟩

theorem congr (h : Pushed sp ws m t) (hrsp : s.rsp = t.rsp) (hmem : s.mem = t.mem) :
    Pushed sp ws m s := by
  refine ⟨hrsp ▸ h.rsp, ?_, fun x hx => ?_⟩
  · rw [hrsp, hmem]
    exact h.words
  · rw [hmem]
    exact h.mem x (hrsp ▸ hx)

/-- More words are pushed. -/
theorem pushWords (h : Pushed sp ws m t) (hroom : 8 * vs.length ≤ t.rsp.toNat) :
    Pushed sp (ws ++ vs) m (t.pushWords vs) := by
  have hrsp := Cpu.toNat_rsp_pushWords hroom
  have hsp := h.rsp
  refine ⟨?_, ?_, fun x hx => ?_⟩
  · rw [hrsp, List.length_append]
    omega
  · rw [List.reverse_append, List.map_append, wordsAt_append]
    refine ⟨Cpu.wordsAt_pushWords hroom, ?_⟩
    rw [List.length_map, List.length_reverse, hrsp, Nat.sub_add_cancel hroom]
    exact wordsAt_congr (fun x h1 _ => Cpu.mem_pushWords hroom (Or.inr h1)) h.words
  · rw [Cpu.mem_pushWords hroom (by omega)]
    exact h.mem x (by omega)

end Pushed

theorem exec_pushes : exec fn s (rs.map .push) = some (s.pushWords (rs.map s.gpr)) := by
  induction rs generalizing s with
  | nil => rfl
  | cons r rs ih =>
    rw [List.map_cons, exec_cons, step, Option.bind_some, ih]
    rfl

/-- The state after registers that are to have the values `g` were popped. -/
def Cpu.popped (s : Cpu) (g : Reg → Word) (rs : List Reg) : Cpu :=
  { s with
    gpr := fun r => if r ∈ rs then g r else s.gpr r
    rsp := s.rsp + 8 * BitVec.ofNat 64 rs.length }

theorem Cpu.gpr_popped_of_mem {g : Reg → Word} {r : Reg} (h : r ∈ rs) :
    (s.popped g rs).gpr r = g r :=
  if_pos h

theorem Cpu.toNat_rsp_popped {g : Reg → Word} (hlt : s.rsp.toNat + 8 * rs.length < 2 ^ 64) :
    (s.popped g rs).rsp.toNat = s.rsp.toNat + 8 * rs.length := by
  rw [popped]
  have hlen : (BitVec.ofNat 64 rs.length).toNat = rs.length := by
    rw [BitVec.toNat_ofNat]
    exact Nat.mod_eq_of_lt (by omega)
  bv_omega

/-- **Pops take off what was pushed**: if the words on the stack are those of registers that had
the values `g`, the registers popped have these values again. -/
theorem exec_pops (g : Reg → Word) (hlt : s.rsp.toNat + 8 * rs.length < 2 ^ 64)
    (h : s.mem.WordsAt s.rsp.toNat (rs.map fun r => (g r).toNat)) :
    exec fn s (rs.map .pop) = some (s.popped g rs) := by
  induction rs generalizing s with
  | nil =>
    have hsp : s.rsp + 8 * BitVec.ofNat 64 0 = s.rsp := by bv_omega
    simp only [List.map_nil, exec_nil, Cpu.popped, List.not_mem_nil, if_false, List.length_nil, hsp]
  | cons r rs ih =>
    rw [List.length_cons] at hlt
    have hrsp : (s.rsp + 8 * 1 : Word).toNat = s.rsp.toNat + 8 :=
      toNat_add_of_lt (show s.rsp.toNat + 8 < 2 ^ 64 by omega)
    rw [List.map_cons, exec_cons, step, Option.bind_some, Cpu.read_eq h.1, ih]
    · refine congrArg some ?_
      rw [Cpu.popped, Cpu.popped]
      congr 1
      · funext r'
        by_cases hr' : r' = r
        · subst hr'
          simp [Cpu.setReg]
        · simp [Cpu.setReg, Cpu.drop, hr']
      · rw [List.length_cons, BitVec.ofNat_add]
        change s.rsp + 8 * 1 + 8 * BitVec.ofNat 64 rs.length = _
        bv_omega
    · change (s.rsp + 8 * 1 : Word).toNat + _ < _
      omega
    · change s.mem.WordsAt (s.rsp + 8 * 1 : Word).toNat _
      rw [hrsp]
      exact h.2

/-- The word at an offset from the stack pointer. -/
theorem Cpu.read_rsp_add {k : Word} (hlt : s.rsp.toNat + k.toNat < 2 ^ 64)
    (h : s.mem.read64 (s.rsp.toNat + k.toNat) = v.toNat) : s.read (s.rsp + k) = v := by
  refine read_eq ?_
  rw [toNat_add_of_lt hlt, h]

/-- A return from an interrupt, with what it returns to on the stack. -/
theorem step_iretq {rip cs rflags rsp ss : Word} (hlt : s.rsp.toNat + 40 < 2 ^ 64)
    (h : s.mem.WordsAt s.rsp.toNat
      [rip.toNat, cs.toNat, rflags.toNat, rsp.toNat, ss.toNat]) :
    step fn s .iretq =
      some { s with rip := rip, cs := cs, rflags := rflags, rsp := rsp, ss := ss } := by
  have h0 : s.read s.rsp = rip := Cpu.read_eq h.1
  have h1 : s.read (s.rsp + 8) = cs :=
    Cpu.read_rsp_add (show s.rsp.toNat + 8 < 2 ^ 64 by omega) h.2.1
  have h2 : s.read (s.rsp + 16) = rflags :=
    Cpu.read_rsp_add (show s.rsp.toNat + 16 < 2 ^ 64 by omega) h.2.2.1
  have h3 : s.read (s.rsp + 24) = rsp :=
    Cpu.read_rsp_add (show s.rsp.toNat + 24 < 2 ^ 64 by omega) h.2.2.2.1
  have h4 : s.read (s.rsp + 32) = ss :=
    Cpu.read_rsp_add (show s.rsp.toNat + 32 < 2 ^ 64 by omega) h.2.2.2.2.1
  rw [step, h0, h1, h2, h3, h4]

/-! ### Memory that is not read -/

/-- The addresses of the words an instruction reads. -/
def reads (s : Cpu) : Instr → List Word
  | .pop _ | .popRsp | .ret => [s.rsp]
  | .load _ base offset => [s.gpr base + offset]
  | .iretq => [s.rsp, s.rsp + 8, s.rsp + 16, s.rsp + 24, s.rsp + 32]
  | .callTable table r _ => [table + 8 * s.gpr r]
  | _ => []

/-- The address of the word an instruction writes. -/
def writes (s : Cpu) : Instr → Option Word
  | .push _ => some (s.rsp - 8)
  | .storeRsp base offset => some (s.gpr base + offset)
  | _ => none

/-- The instruction is not a call, and does not use the x87/SSE state. -/
def Instr.plain : Instr → Bool
  | .call .. | .callTable .. | .fxsave .. | .fxrstor .. => false
  | _ => true

/-- The byte is one of the word at this address. -/
def InWord (a : Word) (x : ℕ) : Prop := a.toNat ≤ x ∧ x < a.toNat + 8

/-- **Two states agree** but for the memory that is stale in the first, the address of the last
page fault and the x87/SSE state. -/
structure Agrees (stale : ℕ → Prop) (s t : Cpu) : Prop where
  gpr : t.gpr = s.gpr
  rsp : t.rsp = s.rsp
  rip : t.rip = s.rip
  rflags : t.rflags = s.rflags
  cs : t.cs = s.cs
  ss : t.ss = s.ss
  mem : ∀ x, ¬stale x → t.mem x = s.mem x

/-- What is stale after an instruction: the word it writes no longer is. -/
def stillStale (stale : ℕ → Prop) (s : Cpu) (i : Instr) (x : ℕ) : Prop :=
  stale x ∧ ∀ a ∈ writes s i, ¬InWord a x

theorem stillStale_of_writes_eq_none {stale : ℕ → Prop} {i : Instr} (h : writes s i = none) :
    stillStale stale s i = stale := by
  funext x
  simp [stillStale, h]

theorem stillStale_of_writes_eq_some {stale : ℕ → Prop} {i : Instr} (h : writes s i = some a) :
    stillStale stale s i = fun x => stale x ∧ ¬InWord a x := by
  funext x
  simp [stillStale, h]

namespace Agrees

variable {stale : ℕ → Prop} {i : Instr} {m : Mem} {c : Word} {f : ℕ → UInt8}

theorem exists_eq (h : Agrees stale s t) :
    ∃ m c f, t = { s with mem := m, cr2 := c, fx := f } ∧ ∀ x, ¬stale x → m x = s.mem x := by
  refine ⟨t.mem, t.cr2, t.fx, ?_, h.mem⟩
  rw [← h.gpr, ← h.rsp, ← h.rip, ← h.rflags, ← h.cs, ← h.ss]

theorem of_mem (hm : ∀ x, ¬stale x → m x = s.mem x) :
    Agrees stale s { s with mem := m, cr2 := c, fx := f } :=
  ⟨rfl, rfl, rfl, rfl, rfl, rfl, hm⟩

theorem read_eq (h : Agrees stale s t) (ha : ∀ x, InWord a x → ¬stale x) : t.read a = s.read a := by
  rw [Cpu.read, Cpu.read, Mem.read64, Mem.read64,
    Mem.readLE_congr fun x h1 h2 => h.mem x (ha x ⟨h1, h2⟩)]

/-- Both states write the same word. -/
theorem write (h : Agrees stale s t) :
    Agrees (fun x => stale x ∧ ¬InWord a x) (s.write a v) (t.write a v) := by
  refine ⟨h.gpr, h.rsp, h.rip, h.rflags, h.cs, h.ss, fun x hx => ?_⟩
  change t.mem.write64 a.toNat v.toNat x = s.mem.write64 a.toNat v.toNat x
  by_cases hin : a.toNat ≤ x ∧ x < a.toNat + 8
  · rw [Mem.write64, Mem.write64, Mem.writeLE, Mem.writeLE, if_pos hin, if_pos hin]
  · rw [write64_of_notMem (by omega), write64_of_notMem (by omega)]
    exact h.mem x fun hstale => hx ⟨hstale, hin⟩

/-- An instruction that writes nothing depends on the words it reads only. -/
theorem step_of_writes_eq_none (hi : i.plain = true) (hw : writes s i = none)
    (hread : ∀ a ∈ reads s i, Cpu.read { s with mem := m, cr2 := c, fx := f } a = s.read a)
    (hs : step fn s i = some s') : s'.mem = s.mem ∧ ∃ c',
      step fn { s with mem := m, cr2 := c, fx := f } i =
        some { s' with mem := m, cr2 := c', fx := f } := by
  cases i with
  | call | callTable | fxsave | fxrstor => cases hi
  | push | storeRsp => cases hw
  | pop | load =>
    obtain rfl := Option.some.inj hs
    exact ⟨rfl, c, by rw [step, hread _ List.mem_cons_self]; rfl⟩
  | popRsp | ret | iretq =>
    obtain rfl := Option.some.inj hs
    simp only [reads, List.mem_cons, List.not_mem_nil, or_false, forall_eq_or_imp,
      forall_eq] at hread
    exact ⟨rfl, c, by simp only [step, hread]⟩
  | movCr2 r =>
    obtain rfl := Option.some.inj hs
    exact ⟨rfl, s.gpr r, rfl⟩
  | _ =>
    obtain rfl := Option.some.inj hs
    exact ⟨rfl, c, rfl⟩

/-- **An instruction that reads nothing stale** does the same in both states. -/
theorem exists_step (h : Agrees stale s t) (hi : i.plain = true)
    (hreads : ∀ a ∈ reads s i, ∀ x, InWord a x → ¬stale x) (hs : step fn s i = some s') :
    ∃ t', step fn t i = some t' ∧ Agrees (stillStale stale s i) s' t' := by
  have hread (a : Word) (ha : a ∈ reads s i) : t.read a = s.read a := h.read_eq (hreads a ha)
  obtain ⟨m, c, f, rfl, hm⟩ := h.exists_eq
  cases hw : writes s i with
  | none =>
    obtain ⟨hmem, c', hstep⟩ := step_of_writes_eq_none hi hw hread hs
    rw [stillStale_of_writes_eq_none hw]
    exact ⟨_, hstep, of_mem fun x hx => (hm x hx).trans (congrFun hmem.symm x)⟩
  | some a =>
    rw [stillStale_of_writes_eq_some hw]
    cases i with
    | push r =>
      obtain rfl := Option.some.inj hs
      obtain rfl := Option.some.inj hw
      exact ⟨_, rfl, write (of_mem (s := { s with rsp := s.rsp - 8 }) hm)⟩
    | storeRsp base offset =>
      obtain rfl := Option.some.inj hs
      obtain rfl := Option.some.inj hw
      exact ⟨_, rfl, write h⟩
    | _ => cases hw

end Agrees

end X86

end WillowOS
