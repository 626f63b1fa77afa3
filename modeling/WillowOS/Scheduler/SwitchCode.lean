import WillowOS.Scheduler.Current

/-!
# The code of `switch_thread`

`switch_thread` of `scheduler.asm`, instruction by instruction. It saves the registers on the stack
in use and the x87/SSE state in the context of the running thread, stores the stack pointer where
its first argument says and loads its second one, and takes everything from there in the reverse
order. It touches five areas of the memory, and what it does is clear as long as these do not
overlap (`WillowOS.SwitchCode.Ready`): **`WillowOS.SwitchCode.exec_switchThread`**.

The running thread is asked for twice, before and after the change of stacks, but both times it is
the same one. So the x87/SSE state that is restored is the one that was just saved.
-/

namespace WillowOS

namespace SwitchCode

open X86 CurrentThread

/-- Where the linker put things, with the addresses after the two calls. -/
structure Image where
  getCurrentThread : Word
  /-- The variable `running_thread`. -/
  runningThread : Word
  next : Fin 2 → Word

/-- The registers in the order they are pushed in. -/
def saved : List Reg :=
  [.rax, .rbx, .rcx, .rdx, .rsi, .rdi, .rbp, .r8, .r9, .r10, .r11, .r12, .r13, .r14, .r15]

/-- The registers in the order they are popped in. -/
def restored : List Reg :=
  [.r15, .r14, .r13, .r12, .r11, .r10, .r9, .r8, .rbp, .rdi, .rsi, .rdx, .rcx, .rbx, .rax]

/-- Between the pushes and the pops. -/
def exchange (im : Image) : List Instr :=
  [.call im.getCurrentThread (im.next 0), .fxsave .rax 0x50, .storeRsp .rdi 0, .loadRsp .rsi,
    .call im.getCurrentThread (im.next 1), .fxrstor .rax 0x50]

def switchThread (im : Image) : List Instr :=
  .cli :: saved.map .push ++ (exchange im ++ (restored.map .pop ++ [.sti, .ret]))

/-- The running thread. -/
def thread (im : Image) (s : Cpu) : Word := s.read im.runningThread

/-! ### Areas of the memory -/

/-- Bytes from one address up to another one. -/
structure Area where
  first : ℕ
  past : ℕ

def Area.Apart (a b : Area) : Prop := a.past ≤ b.first ∨ b.past ≤ a.first

def Area.Has (a : Area) (x : ℕ) : Prop := a.first ≤ x ∧ x < a.past

instance (a b : Area) : Decidable (a.Apart b) := inferInstanceAs (Decidable (_ ∨ _))

/-- The field `ssefxsave` of the running thread. -/
def fxArea (im : Image) (s : Cpu) : Area :=
  ⟨(thread im s).toNat + 0x50, (thread im s).toNat + 0x250⟩

/-- What the first argument points to. -/
def saveArea (s : Cpu) : Area := ⟨(s.gpr .rdi).toNat, (s.gpr .rdi).toNat + 8⟩

/-- The part of a stack that a call of `get_current_thread` uses, and `k` bytes above it. -/
def callArea (d : ℕ) (sp : Word) (k : ℕ) : Area := ⟨sp.toNat - 8 - d, sp.toNat + k⟩

def variableArea (im : Image) : Area :=
  ⟨im.runningThread.toNat, im.runningThread.toNat + 8⟩

variable {fn : Word → Cpu → Option Cpu} {im : Image} {d : ℕ} {s s' t u v : Cpu} {g : Reg → Word}
  {a b : Area}

theorem Area.Apart.symm (h : a.Apart b) : b.Apart a := Or.symm h

theorem not_has_of_apart {x : ℕ} (h : a.Apart b) (hx : a.Has x) : ¬b.Has x := by
  rw [Area.Apart] at h
  rw [Area.Has] at hx ⊢
  omega

/-- A part of an area is apart from what the area is apart from. -/
theorem Area.Apart.mono {c : Area} (h : a.Apart c) (h1 : c.first ≤ b.first)
    (h2 : b.past ≤ c.past) : a.Apart b :=
  h.imp (fun h => Nat.le_trans h h1) fun h => Nat.le_trans h2 h

theorem apart_callArea_zero {sp : Word} {k : ℕ} (h : a.Apart (callArea d sp k)) :
    a.Apart (callArea d sp 0) :=
  h.mono (Nat.le_refl _) (Nat.add_le_add_left (Nat.zero_le k) _)

theorem has_fxArea {x : ℕ} : (fxArea im s).Has x ↔
    (thread im s).toNat + 0x50 ≤ x ∧ x < (thread im s).toNat + 0x250 := Iff.rfl

theorem has_fxArea_add {i : ℕ} (hi : i < 512) :
    (fxArea im s).Has ((thread im s).toNat + 0x50 + i) :=
  has_fxArea.mpr (by omega)

theorem has_saveArea {x : ℕ} : (saveArea s).Has x ↔
    (s.gpr .rdi).toNat ≤ x ∧ x < (s.gpr .rdi).toNat + 8 := Iff.rfl

theorem has_callArea {sp : Word} {k x : ℕ} : (callArea d sp k).Has x ↔
    sp.toNat - 8 - d ≤ x ∧ x < sp.toNat + k := Iff.rfl

/-- Five areas of which no two overlap. -/
structure Five (a b c e f : Area) : Prop where
  ab : a.Apart b
  ac : a.Apart c
  ae : a.Apart e
  af : a.Apart f
  bc : b.Apart c
  be : b.Apart e
  bf : b.Apart f
  ce : c.Apart e
  cf : c.Apart f
  ef : e.Apart f

/-! ### The exchange of the stacks -/

/-- What the exchange takes for granted. -/
structure Exchangeable (fn : Word → Cpu → Option Cpu) (im : Image) (d : ℕ) (u : Cpu) : Prop where
  fetches : ∀ s, ∃ s', fn im.getCurrentThread s = some s' ∧ Fetches im.runningThread d s s'
  room : 8 + d ≤ u.rsp.toNat
  newRoom : 8 + d ≤ (u.gpr .rsi).toNat
  fits : (thread im u).toNat + 0x250 ≤ 2 ^ 64
  apart : Five (variableArea im) (fxArea im u) (saveArea u) (callArea d u.rsp 0)
    (callArea d (u.gpr .rsi) 0)

/-- The state after the exchange. -/
structure Exchanged (im : Image) (d : ℕ) (u v : Cpu) : Prop where
  rsp : v.rsp = u.gpr .rsi
  fx : v.fx = u.fx
  image : ∀ i < 512, v.mem ((thread im u).toNat + 0x50 + i) = u.fx i
  stored : v.mem.read64 (u.gpr .rdi).toNat = u.rsp.toNat
  mem : ∀ x, ¬(fxArea im u).Has x → ¬(saveArea u).Has x → ¬(callArea d u.rsp 0).Has x →
    ¬(callArea d (u.gpr .rsi) 0).Has x → v.mem x = u.mem x

theorem mem_writeFx {a : Word} {x : ℕ} (hx : x < a.toNat ∨ a.toNat + 512 ≤ x) :
    (s.writeFx a).mem x = s.mem x :=
  if_neg (by omega)

theorem mem_writeFx_add {a : Word} {i : ℕ} (hi : i < 512) :
    (s.writeFx a).mem (a.toNat + i) = s.fx i := by
  refine (if_pos (by omega)).trans ?_
  rw [Nat.add_sub_cancel_left]

theorem fx_readFx {a : Word} (h : ∀ i < 512, s.mem (a.toNat + i) = s.fx i) :
    (s.readFx a).fx = s.fx := by
  funext i
  change (if i < 512 then s.mem (a.toNat + i) else s.fx i) = s.fx i
  split_ifs with hi
  · exact h i hi
  · rfl

/-- The memory after a call of `get_current_thread`. -/
theorem mem_of_fetched (h : Fetched im.runningThread d u v) {x : ℕ}
    (hx : ¬(callArea d u.rsp 0).Has x) : v.mem x = u.mem x := by
  rw [has_callArea] at hx
  exact h.mem x (by omega)

/-- The variable is not in the way of a call. -/
theorem apart_variable {sp : Word} (h : (variableArea im).Apart (callArea d sp 0)) :
    im.runningThread.toNat + 8 ≤ sp.toNat - 8 - d ∨ sp.toNat ≤ im.runningThread.toNat := h

theorem exec_exchange (h : Exchangeable fn im d u) :
    ∃ v, exec fn u (exchange im) = some v ∧ Exchanged im d u v := by
  have hfits := h.fits
  have hap := h.apart
  -- the first call, and the two stores
  obtain ⟨u₁, h₁, hf₁⟩ := exists_step_call h.fetches (im.next 0) h.room (apart_variable hap.ae)
  have hT : (u₁.gpr .rax + 0x50).toNat = (thread im u).toNat + 0x50 := by
    rw [hf₁.rax]
    exact toNat_add_of_lt (show (thread im u).toNat + 0x50 < 2 ^ 64 by omega)
  obtain ⟨u₂, hu₂⟩ : ∃ u₂, u₂ = u₁.writeFx (u₁.gpr .rax + 0x50) := ⟨_, rfl⟩
  have hgpr₂ : u₂.gpr = u₁.gpr := by rw [hu₂, Cpu.writeFx]
  have hrsp₂ : u₂.rsp = u.rsp := by
    rw [hu₂, Cpu.writeFx]
    exact hf₁.rsp
  have hfx₂ : u₂.fx = u.fx := by
    rw [hu₂, Cpu.writeFx]
    exact hf₁.fx
  have hrdi : u₂.gpr .rdi + 0 = u.gpr .rdi := by
    rw [hgpr₂, hf₁.gpr _ (by decide)]
    exact BitVec.add_zero _
  have hrsi : u₂.gpr .rsi = u.gpr .rsi := by rw [hgpr₂, hf₁.gpr _ (by decide)]
  have hmem₂ {x : ℕ} (hx : ¬(fxArea im u).Has x) : u₂.mem x = u₁.mem x := by
    rw [has_fxArea] at hx
    rw [hu₂]
    exact mem_writeFx (by omega)
  obtain ⟨u₃, hu₃⟩ : ∃ u₃, u₃ = { u₂.write (u.gpr .rdi) u.rsp with rsp := u.gpr .rsi } := ⟨_, rfl⟩
  have hmem₃ {x : ℕ} (hx : ¬(saveArea u).Has x) : u₃.mem x = u₂.mem x := by
    rw [has_saveArea] at hx
    rw [hu₃]
    exact write64_of_notMem (by omega)
  have hrsp₃ : u₃.rsp = u.gpr .rsi := by rw [hu₃]
  -- the second call finds the same thread
  obtain ⟨u₄, h₄, hf₄⟩ := exists_step_call (u := u₃) h.fetches (im.next 1) (hrsp₃ ▸ h.newRoom)
    (hrsp₃ ▸ apart_variable hap.af)
  have hmem₄ {x : ℕ} (hx : ¬(callArea d (u.gpr .rsi) 0).Has x) : u₄.mem x = u₃.mem x :=
    mem_of_fetched hf₄ (hrsp₃ ▸ hx)
  have hrax₄ : u₄.gpr .rax = thread im u := by
    rw [hf₄.rax, thread]
    refine read_congr fun x h1 h2 => ?_
    have hx : (variableArea im).Has x := ⟨h1, h2⟩
    rw [hmem₃ (not_has_of_apart hap.ac hx), hmem₂ (not_has_of_apart hap.ab hx),
      mem_of_fetched hf₁ (not_has_of_apart hap.ae hx)]
  have hfx₄ : u₄.fx = u.fx := by
    rw [hf₄.fx, hu₃]
    exact hfx₂
  have himage₄ (i : ℕ) (hi : i < 512) : u₄.mem ((thread im u).toNat + 0x50 + i) = u.fx i := by
    have hx : (fxArea im u).Has ((thread im u).toNat + 0x50 + i) := has_fxArea_add hi
    rw [hmem₄ (not_has_of_apart hap.bf hx), hmem₃ (not_has_of_apart hap.bc hx), hu₂, ← hT,
      mem_writeFx_add hi, hf₁.fx]
  have hT₄ : (u₄.gpr .rax + 0x50).toNat = (thread im u).toNat + 0x50 := by
    rw [hrax₄]
    exact toNat_add_of_lt (show (thread im u).toNat + 0x50 < 2 ^ 64 by omega)
  refine ⟨u₄.readFx (u₄.gpr .rax + 0x50), ?_, hf₄.rsp.trans hrsp₃, ?_, himage₄, ?_,
    fun x hxf hxs hxc hxn => ?_⟩
  · have hset : { u₂.write (u.gpr .rdi) u.rsp with
        rsp := (u₂.write (u.gpr .rdi) u.rsp).gpr .rsi } = u₃ := by
      rw [hu₃]
      change { u₂.write (u.gpr .rdi) u.rsp with rsp := u₂.gpr .rsi } = _
      rw [hrsi]
    rw [exchange, exec_cons, h₁, Option.bind_some, exec_cons, step, Option.bind_some, ← hu₂,
      exec_cons, step, Option.bind_some, hrdi, hrsp₂, exec_cons, step, Option.bind_some, hset,
      exec_cons, h₄, Option.bind_some, exec_cons, step, Option.bind_some, exec_nil]
  · rw [fx_readFx fun i hi => ?_, hfx₄]
    rw [hT₄, himage₄ i hi, hfx₄]
  · change u₄.mem.read64 _ = _
    have hkeep : u₄.mem.read64 (u.gpr .rdi).toNat = u₃.mem.read64 (u.gpr .rdi).toNat :=
      Mem.readLE_congr fun x h1 h2 => hmem₄ (not_has_of_apart hap.cf (has_saveArea.mpr ⟨h1, h2⟩))
    rw [hkeep, hu₃]
    exact Mem.read64_write64 u.rsp.isLt
  · change u₄.mem x = _
    rw [hmem₄ hxn, hmem₃ hxs, hmem₂ hxf, mem_of_fetched hf₁ hxc]

/-! ### The whole function -/

/-- What `switch_thread` takes for granted: the areas it works on do not overlap. On the stack in
use these are the fifteen registers and what a call needs below them, on the other one the fifteen
words it is to pop as well. -/
structure Ready (fn : Word → Cpu → Option Cpu) (im : Image) (d : ℕ) (s : Cpu) : Prop where
  fetches : ∀ s, ∃ s', fn im.getCurrentThread s = some s' ∧ Fetches im.runningThread d s s'
  room : 128 + d ≤ s.rsp.toNat
  newRoom : 8 + d ≤ (s.gpr .rsi).toNat
  newFits : (s.gpr .rsi).toNat + 120 < 2 ^ 64
  fits : (thread im s).toNat + 0x250 ≤ 2 ^ 64
  apart : Five (variableArea im) (fxArea im s) (saveArea s) (callArea d (s.rsp - 120) 120)
    (callArea d (s.gpr .rsi) 120)

/-- The bytes that `switch_thread` writes to. -/
def Touched (im : Image) (d : ℕ) (s : Cpu) (x : ℕ) : Prop :=
  (fxArea im s).Has x ∨ (saveArea s).Has x ∨ (callArea d (s.rsp - 120) 120).Has x ∨
    (callArea d (s.gpr .rsi) 0).Has x

/-- **A switch**: `s'` is the state before the `ret`, with the registers `g` that were on the stack
switched to. -/
structure Switched (im : Image) (d : ℕ) (g : Reg → Word) (s s' : Cpu) : Prop where
  gpr : s'.gpr = g
  rsp : s'.rsp.toNat = (s.gpr .rsi).toNat + 120
  interrupts : s'.rflags &&& interruptFlag = interruptFlag
  fx : s'.fx = s.fx
  image : ∀ i < 512, s'.mem ((thread im s).toNat + 0x50 + i) = s.fx i
  stored : s'.mem.read64 (s.gpr .rdi).toNat = s.rsp.toNat - 120
  saved : s'.mem.WordsAt (s.rsp.toNat - 120) (restored.map fun r => (s.gpr r).toNat)
  mem : ∀ x, ¬Touched im d s x → s'.mem x = s.mem x

theorem restored_eq : restored = saved.reverse := rfl

theorem length_saved : saved.length = 15 := rfl

theorem length_restored : restored.length = 15 := rfl

theorem mem_restored (r : Reg) : r ∈ restored := by
  cases r <;> decide

/-- The state when the registers are on the stack. -/
structure OnStack (s u : Cpu) : Prop where
  gpr : u.gpr = s.gpr
  rsp : u.rsp = s.rsp - 120
  fx : u.fx = s.fx
  words : u.mem.WordsAt (s.rsp.toNat - 120) (restored.map fun r => (s.gpr r).toNat)
  mem : ∀ x, x < s.rsp.toNat - 120 ∨ s.rsp.toNat ≤ x → u.mem x = s.mem x

theorem exec_saved (hroom : 120 ≤ s.rsp.toNat) :
    ∃ u, exec fn s (.cli :: saved.map .push) = some u ∧ OnStack s u := by
  obtain ⟨s₀, hs₀⟩ : ∃ s₀, s₀ = { s with rflags := s.rflags &&& ~~~interruptFlag } := ⟨_, rfl⟩
  have hlen : (saved.map s₀.gpr).length = 15 := by rw [List.length_map, length_saved]
  have hgpr : s₀.gpr = s.gpr := by rw [hs₀]
  have hrsp₀ : s₀.rsp = s.rsp := by rw [hs₀]
  have hmem₀ : s₀.mem = s.mem := by rw [hs₀]
  have hle : 8 * (saved.map s₀.gpr).length ≤ s₀.rsp.toNat := by
    rw [hlen, hrsp₀]
    omega
  have hp := (Pushed.nil s₀).pushWords hle
  have hsp := hp.rsp
  rw [List.nil_append, hlen, hrsp₀] at hsp
  have hrsp : (s₀.pushWords (saved.map s₀.gpr)).rsp = s.rsp - 120 := by
    apply BitVec.eq_of_toNat_eq
    rw [toNat_sub_of_le (b := 120) hroom]
    change _ = s.rsp.toNat - 120
    omega
  refine ⟨s₀.pushWords (saved.map s₀.gpr), ?_, ?_, hrsp, ?_, ?_, fun x hx => ?_⟩
  · rw [exec_cons, step, Option.bind_some, ← hs₀, exec_pushes]
  · rw [Cpu.pushWords_gpr, hgpr]
  · rw [Cpu.pushWords_eq, hs₀]
  · have hw := hp.words
    rw [List.nil_append, ← List.map_reverse, ← restored_eq, List.map_map, hgpr] at hw
    rwa [show s.rsp.toNat - 120 = (s₀.pushWords (saved.map s₀.gpr)).rsp.toNat by omega, hgpr]
  · rw [hp.mem x (by rw [hrsp₀]; omega), hmem₀]

/-- `sti` sets the flag. -/
theorem or_and_self {x y : Word} : (x ||| y) &&& y = y := by
  ext i hi
  rw [BitVec.getElem_and, BitVec.getElem_or]
  cases x[i] <;> cases y[i] <;> rfl

/-- `cli` clears it. -/
theorem and_not_and_self {x y : Word} : (x &&& ~~~y) &&& y = 0 := by
  ext i hi
  rw [BitVec.getElem_and, BitVec.getElem_and, BitVec.getElem_not]
  refine Eq.trans ?_ (BitVec.getElem_zero hi).symm
  cases x[i] <;> cases y[i] <;> rfl

/-- The part of the code after the exchange. -/
theorem exec_restored (hlt : v.rsp.toNat + 120 < 2 ^ 64)
    (h : v.mem.WordsAt v.rsp.toNat (restored.map fun r => (g r).toNat)) :
    ∃ s', exec fn v (restored.map .pop ++ [.sti, .ret]) = step fn s' .ret ∧ s'.gpr = g ∧
      s'.rsp.toNat = v.rsp.toNat + 120 ∧ s'.rflags &&& interruptFlag = interruptFlag ∧
      s'.fx = v.fx ∧ s'.mem = v.mem := by
  have hlt' : v.rsp.toNat + 8 * restored.length < 2 ^ 64 := by
    rw [length_restored]
    omega
  have hrsp := Cpu.toNat_rsp_popped (g := g) hlt'
  rw [length_restored] at hrsp
  refine ⟨{ v.popped g restored with
    rflags := (v.popped g restored).rflags ||| interruptFlag }, ?_, ?_, hrsp, ?_, ?_, ?_⟩
  · rw [exec_append, exec_pops g hlt' h, Option.bind_some, exec_cons, step, Option.bind_some,
      exec_cons]
    rfl
  · funext r
    exact Cpu.gpr_popped_of_mem (mem_restored r)
  · exact or_and_self
  · rw [Cpu.popped]
  · rw [Cpu.popped]

/-- **What `switch_thread` does**, up to its return: the registers are those on the stack it
switches to, which may be anything, and those it was called with are on the stack it was called on,
with the stack pointer stored. Apart from these areas the memory is as it was, and so is the x87/SSE
state. -/
theorem exec_switchThread (h : Ready fn im d s)
    (hg : s.mem.WordsAt (s.gpr .rsi).toNat (restored.map fun r => (g r).toNat)) :
    ∃ s', exec fn s (switchThread im) = step fn s' .ret ∧ Switched im d g s s' := by
  have hroom := h.room
  have hap := h.apart
  have h120 : (s.rsp - 120).toNat = s.rsp.toNat - 120 :=
    toNat_sub_of_le (b := 120) (show 120 ≤ s.rsp.toNat by omega)
  obtain ⟨u, hexec, hu⟩ := @exec_saved fn s (show 120 ≤ s.rsp.toNat by omega)
  -- what the pushes leave alone
  have hpush {x : ℕ} (hx : ¬(callArea d (s.rsp - 120) 120).Has x) : u.mem x = s.mem x := by
    rw [has_callArea, h120] at hx
    exact hu.mem x (by omega)
  have hT : thread im u = thread im s := read_congr fun x h1 h2 =>
    hpush (not_has_of_apart hap.ae (show (variableArea im).Has x from ⟨h1, h2⟩))
  have hfx : fxArea im u = fxArea im s := by rw [fxArea, hT, fxArea]
  have hsave : saveArea u = saveArea s := by rw [saveArea, hu.gpr, saveArea]
  have hex : Exchangeable fn im d u := by
    refine ⟨h.fetches, by rw [hu.rsp, h120]; omega, by rw [hu.gpr]; exact h.newRoom,
      by rw [hT]; exact h.fits, ?_⟩
    rw [hfx, hsave, hu.rsp, hu.gpr]
    exact ⟨hap.ab, hap.ac, apart_callArea_zero hap.ae, apart_callArea_zero hap.af, hap.bc,
      apart_callArea_zero hap.be, apart_callArea_zero hap.bf, apart_callArea_zero hap.ce,
      apart_callArea_zero hap.cf, apart_callArea_zero (apart_callArea_zero hap.ef.symm).symm⟩
  obtain ⟨v, hexec', hx⟩ := exec_exchange hex
  have hmem := hx.mem
  rw [hfx, hsave, hu.rsp, hu.gpr] at hmem
  have hlow {x : ℕ} {sp : Word} (hx : ¬(callArea d sp 120).Has x) : ¬(callArea d sp 0).Has x := by
    rw [has_callArea] at hx ⊢
    omega
  -- the words to be popped are still there
  have hwords : v.mem.WordsAt v.rsp.toNat (restored.map fun r => (g r).toNat) := by
    rw [hx.rsp, hu.gpr]
    refine wordsAt_congr (fun x h1 h2 => ?_) hg
    rw [List.length_map, length_restored] at h2
    have hin : (callArea d (s.gpr .rsi) 120).Has x := has_callArea.mpr (by omega)
    have hout : ¬(callArea d (s.gpr .rsi) 0).Has x := by
      rw [has_callArea]
      omega
    have hother := not_has_of_apart hap.ef.symm hin
    rw [hmem x (not_has_of_apart hap.bf.symm hin) (not_has_of_apart hap.cf.symm hin) (hlow hother)
      hout, hpush hother]
  have hlt : v.rsp.toNat + 120 < 2 ^ 64 := by
    rw [hx.rsp, hu.gpr]
    exact h.newFits
  obtain ⟨s', hexec'', hgpr, hrsp, hif, hfx', hmem'⟩ := @exec_restored fn v g hlt hwords
  refine ⟨s', ?_, hgpr, ?_, hif, ?_, fun i hi => ?_, ?_, ?_, fun x hxt => ?_⟩
  · rw [switchThread, exec_append, hexec, Option.bind_some, exec_append, hexec', Option.bind_some,
      hexec'']
  · rw [hrsp, hx.rsp, hu.gpr]
  · rw [hfx', hx.fx, hu.fx]
  · rw [hmem', ← hT, hx.image i hi, hu.fx]
  · rw [hmem', ← hu.gpr, hx.stored, hu.rsp, h120]
  · rw [hmem']
    refine wordsAt_congr (fun x h1 h2 => ?_) hu.words
    rw [List.length_map, length_restored] at h2
    have hin : (callArea d (s.rsp - 120) 120).Has x := has_callArea.mpr (by omega)
    have hout : ¬(callArea d (s.rsp - 120) 0).Has x := by
      rw [has_callArea]
      omega
    exact hmem x (not_has_of_apart hap.be.symm hin) (not_has_of_apart hap.ce.symm hin) hout
      (hlow (not_has_of_apart hap.ef hin))
  · rw [Touched, not_or, not_or, not_or] at hxt
    rw [hmem', hmem x hxt.1 hxt.2.1 (hlow hxt.2.2.1) hxt.2.2.2, hpush hxt.2.2.1]

/-! ### There and back -/

/-- An area that the switch does not write to. -/
structure Clear (im : Image) (d : ℕ) (s : Cpu) (a : Area) : Prop where
  fx : a.Apart (fxArea im s)
  save : a.Apart (saveArea s)
  out : a.Apart (callArea d (s.rsp - 120) 120)
  into : a.Apart (callArea d (s.gpr .rsi) 0)

theorem Switched.mem_of_clear (h : Switched im d g s s') (ha : Clear im d s a) {x : ℕ}
    (hx : a.Has x) : s'.mem x = s.mem x := by
  refine h.mem x ?_
  rw [Touched, not_or, not_or, not_or]
  exact ⟨not_has_of_apart ha.fx hx, not_has_of_apart ha.save hx, not_has_of_apart ha.out hx,
    not_has_of_apart ha.into hx⟩

theorem Switched.read64_of_clear (h : Switched im d g s s') {x : ℕ}
    (ha : Clear im d s ⟨x, x + 8⟩) : s'.mem.read64 x = s.mem.read64 x :=
  Mem.readLE_congr fun y h1 h2 => h.mem_of_clear ha (show Area.Has ⟨x, x + 8⟩ y from ⟨h1, h2⟩)

/-- **A call of `switch_thread` returns**, when a later one switches back: to where it was made,
with every register as it was. What happens in between does not matter as long as it leaves alone
the registers and the return address on the stack; but the x87/SSE state is the one it has left. -/
theorem exists_resumed (h : Ready fn im d s)
    (hg : s.mem.WordsAt (s.gpr .rsi).toNat (restored.map fun r => (g r).toNat))
    (hret : Clear im d s ⟨s.rsp.toNat, s.rsp.toNat + 8⟩) :
    ∃ s', exec fn s (switchThread im) = step fn s' .ret ∧ s'.gpr = g ∧
      ∀ u, Ready fn im d u → u.gpr .rsi = s.rsp - 120 →
        Clear im d u ⟨s.rsp.toNat, s.rsp.toNat + 8⟩ →
        (∀ x, s.rsp.toNat - 120 ≤ x → x < s.rsp.toNat + 8 → u.mem x = s'.mem x) →
        ∃ v, exec fn u (switchThread im) = some v ∧ v.gpr = s.gpr ∧ v.rsp = s.rsp + 8 ∧
          v.rip = s.read s.rsp ∧ v.rflags &&& interruptFlag = interruptFlag ∧ v.fx = u.fx := by
  obtain ⟨s', hexec, hsw⟩ := exec_switchThread h hg
  refine ⟨s', hexec, hsw.gpr, fun u hu hrsi hclear hmem => ?_⟩
  have hroom := h.room
  have h120 : (s.rsp - 120).toNat = s.rsp.toNat - 120 :=
    toNat_sub_of_le (b := 120) (show 120 ≤ s.rsp.toNat by omega)
  have hwords : u.mem.WordsAt (u.gpr .rsi).toNat (restored.map fun r => (s.gpr r).toNat) := by
    rw [hrsi, h120]
    refine wordsAt_congr (fun x h1 h2 => hmem x h1 ?_) hsw.saved
    rw [List.length_map, length_restored] at h2
    omega
  obtain ⟨v, hexec', hsw'⟩ := exec_switchThread hu hwords
  have hrsp : v.rsp = s.rsp := by
    apply BitVec.eq_of_toNat_eq
    rw [hsw'.rsp, hrsi, h120]
    omega
  have hread : v.read s.rsp = s.read s.rsp := by
    rw [Cpu.read, Cpu.read, hsw'.read64_of_clear hclear]
    refine congrArg (BitVec.ofNat 64) ?_
    rw [← hsw.read64_of_clear hret]
    exact Mem.readLE_congr fun x h1 h2 => hmem x (by omega) h2
  refine ⟨{ v with rip := v.read v.rsp, rsp := v.rsp + 8 }, hexec', hsw'.gpr, ?_, ?_,
    hsw'.interrupts, hsw'.fx⟩
  · dsimp only
    rw [hrsp]
  · dsimp only
    rw [hrsp, hread]

def sampleImage : Image := ⟨0x100, 0x1000, fun _ => 0x200⟩

/-- All functions are `get_current_thread`. -/
def sampleFn (_ : Word) (s : Cpu) : Option Cpu :=
  some (getCurrentThread sampleImage.runningThread s)

theorem fetches_sampleFn (s : Cpu) : ∃ s', sampleFn sampleImage.getCurrentThread s = some s' ∧
    Fetches sampleImage.runningThread 0 s s' :=
  ⟨_, rfl, fetches_getCurrentThread _ s⟩

/-- The variable, the stack pointers and the links, and a word on the stack of the second
thread. -/
def sampleMem : Mem :=
  (((((((Mem.write64 (fun _ => 0) 0x1000 0x3000).write64 0x2260 0x10000).write64 0x3260
    0x20190).write64 0x2310 0x3000).write64 0x2318 0x3000).write64 0x3310 0x2000).write64 0x3318
    0x2000).write64 0x20198 7

/-- The thread at 0x2000 switches to the one at 0x3000, which is the running one by now. -/
def sampleCpu : Cpu where
  gpr := fun r => if r = .rdi then 0x2260 else if r = .rsi then 0x20190 else 0
  rsp := 0x10320
  rip := 0
  rflags := 0
  cs := 0
  ss := 0
  cr2 := 0
  fx := fun _ => 0
  mem := sampleMem

theorem ready_sampleCpu : Ready sampleFn sampleImage 0 sampleCpu := by
  refine ⟨fetches_sampleFn, by decide, by decide, by decide, by decide, ?_⟩
  constructor <;> decide

theorem exists_resumed_sampleCpu :
    ∃ s', exec sampleFn sampleCpu (switchThread sampleImage) = step sampleFn s' .ret ∧
      s'.gpr = (fun r => if r = .r14 then 7 else 0) ∧
      ∀ u, Ready sampleFn sampleImage 0 u → u.gpr .rsi = sampleCpu.rsp - 120 →
        Clear sampleImage 0 u ⟨sampleCpu.rsp.toNat, sampleCpu.rsp.toNat + 8⟩ →
        (∀ x, sampleCpu.rsp.toNat - 120 ≤ x → x < sampleCpu.rsp.toNat + 8 → u.mem x = s'.mem x) →
        ∃ v, exec sampleFn u (switchThread sampleImage) = some v ∧ v.gpr = sampleCpu.gpr ∧
          v.rsp = sampleCpu.rsp + 8 ∧ v.rip = sampleCpu.read sampleCpu.rsp ∧
          v.rflags &&& interruptFlag = interruptFlag ∧ v.fx = u.fx :=
  exists_resumed ready_sampleCpu
    ⟨rfl, rfl, rfl, rfl, rfl, rfl, rfl, rfl, rfl, rfl, rfl, rfl, rfl, rfl, rfl, trivial⟩
    ⟨by decide, by decide, by decide, by decide⟩

end SwitchCode

end WillowOS
