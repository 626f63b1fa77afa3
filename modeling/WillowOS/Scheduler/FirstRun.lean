import WillowOS.Scheduler.SwitchCode

/-!
# The first run of a thread

A new thread has never called `switch_thread`, and yet the first switch to it has to return
somewhere. `start_thread` prepares its stack so that it does: below fifteen words for the registers,
cleared by `create_thread`, lie the addresses of four functions, and each of them returns into the
next one. So the thread turns interrupts on, runs its entry point, turns them off again and ends in
`scheduler_return` (**`WillowOS.FirstRun.first_run`**), whatever the entry point does, as long as it
keeps to the calling convention and returns at all.

When `scheduler_return` starts, the stack pointer is `stack_base` itself: there is no word left for
an address it could return to.
-/

namespace WillowOS

namespace FirstRun

open X86 CurrentThread SwitchCode

/-- The addresses of the functions a thread runs besides its entry point. -/
structure Entries where
  enablePreemption : Word
  disablePreemption : Word
  schedulerReturn : Word

/-! ### The stack of a new thread -/

/-- `*sp -= n`, for a pointer to words. -/
def moveBack (m : Mem) (sp n : ℕ) : Mem :=
  m.write64 sp ((m.read64 sp + (2 ^ 64 - 8 * n)) % 2 ^ 64)

/-- `**sp = w`. -/
def storeThrough (m : Mem) (sp : ℕ) (w : Word) : Mem := m.write64 (m.read64 sp) w.toNat

/-- `start_thread`. -/
def startThread (e : Entries) (m : Mem) (sp : ℕ) (entry : Word) : Mem :=
  let m := storeThrough (moveBack m sp 1) sp e.schedulerReturn
  let m := storeThrough (moveBack m sp 1) sp e.disablePreemption
  let m := storeThrough (moveBack m sp 1) sp entry
  let m := storeThrough (moveBack m sp 1) sp e.enablePreemption
  moveBack m sp 15

variable {fn : Word → Cpu → Option Cpu} {im : Image} {e : Entries} {d lo : ℕ} {shared : ℕ → Prop}
  {s t : Cpu} {m m' : Mem} {sp p : ℕ} {ws : List ℕ} {entry w : Word}

theorem read64_moveBack {n : ℕ} (hp : m.read64 sp = p) (hn : 8 * n ≤ p) :
    (moveBack m sp n).read64 sp = p - 8 * n := by
  have hlt : p < 2 ^ 64 := hp ▸ Mem.read64_lt
  rw [moveBack, Mem.read64_write64 (Nat.mod_lt _ (by decide)), hp]
  omega

theorem moveBack_of_notMem {n x : ℕ} (hx : x < sp ∨ sp + 8 ≤ x) : moveBack m sp n x = m x :=
  write64_of_notMem hx

/-- **The stack under construction**: the words `ws` lie at the end of the stack, which is at `top`,
and the variable at `sp` points to the first of them. -/
structure Builds (m : Mem) (sp top : ℕ) (ws : List ℕ) (m' : Mem) : Prop where
  pointer : m'.read64 sp + 8 * ws.length = top
  words : m'.WordsAt (m'.read64 sp) ws
  mem : ∀ x, x < sp ∨ sp + 8 ≤ x → x < m'.read64 sp ∨ top ≤ x → m' x = m x

variable {top : ℕ}

theorem Builds.nil (h : m.read64 sp = top) : Builds m sp top [] m := by
  refine ⟨?_, trivial, fun _ _ _ => rfl⟩
  rw [h, List.length_nil, Nat.mul_zero, Nat.add_zero]

/-- One more word. -/
theorem Builds.store (h : Builds m sp top ws m') (hroom : 8 ≤ m'.read64 sp)
    (hsp : sp + 8 ≤ m'.read64 sp - 8 ∨ top ≤ sp) :
    Builds m sp top (w.toNat :: ws) (storeThrough (moveBack m' sp 1) sp w) := by
  have hlen := h.pointer
  have hback : (moveBack m' sp 1).read64 sp = m'.read64 sp - 8 := read64_moveBack rfl hroom
  have hpointer : (storeThrough (moveBack m' sp 1) sp w).read64 sp = m'.read64 sp - 8 := by
    rw [storeThrough, hback, Mem.read64_write64_of_disjoint (by omega), hback]
  have hmem (x : ℕ) (h1 : x < sp ∨ sp + 8 ≤ x) (h2 : x < m'.read64 sp - 8 ∨ m'.read64 sp ≤ x) :
      storeThrough (moveBack m' sp 1) sp w x = m' x := by
    rw [storeThrough, hback, write64_of_notMem (by omega), moveBack_of_notMem h1]
  refine ⟨?_, ⟨?_, ?_⟩, fun x h1 h2 => ?_⟩
  · rw [hpointer, List.length_cons]
    omega
  · rw [hpointer, storeThrough, hback]
    exact Mem.read64_write64 w.isLt
  · rw [hpointer, Nat.sub_add_cancel hroom]
    exact wordsAt_congr (fun x h1 h2 => hmem x (by omega) (by omega)) h.words
  · rw [hpointer] at h2
    rw [hmem x h1 (by omega), h.mem x h1 (by omega)]

/-- Words stored one after the other. -/
def storeAll (m : Mem) (sp : ℕ) (vs : List Word) : Mem :=
  vs.foldl (fun m w => storeThrough (moveBack m sp 1) sp w) m

theorem storeAll_cons {v : Word} {vs : List Word} :
    storeAll m sp (v :: vs) = storeAll (storeThrough (moveBack m sp 1) sp v) sp vs := by
  rw [storeAll, List.foldl_cons, storeAll]

/-- As many words as there is room for. -/
theorem Builds.storeAll (h : Builds m sp top ws m') (vs : List Word)
    (hroom : 8 * vs.length ≤ m'.read64 sp)
    (hsp : sp + 8 ≤ m'.read64 sp - 8 * vs.length ∨ top ≤ sp) :
    Builds m sp top (vs.reverse.map BitVec.toNat ++ ws) (storeAll m' sp vs) := by
  induction vs generalizing m' ws with
  | nil => exact h
  | cons v vs ih =>
    rw [List.length_cons] at hroom hsp
    have hstore := h.store (w := v) (by omega) (by omega)
    have hpointer := hstore.pointer
    have hold := h.pointer
    rw [List.length_cons] at hpointer
    rw [List.reverse_cons, List.map_append, List.append_assoc, storeAll_cons]
    exact ih hstore (by omega) (by omega)

theorem startThread_eq : startThread e m sp entry = moveBack (storeAll m sp
    [e.schedulerReturn, e.disablePreemption, entry, e.enablePreemption]) sp 15 := by
  rw [storeAll_cons, storeAll_cons, storeAll_cons, storeAll_cons, startThread, storeAll,
    List.foldl_nil]

/-- The words at the end of a new stack. -/
def firstWords (e : Entries) (entry : Word) : List ℕ :=
  [e.enablePreemption.toNat, entry.toNat, e.disablePreemption.toNat, e.schedulerReturn.toNat]

/-- **What `start_thread` leaves**: four words at the end of the stack, and a stack pointer fifteen
words below them. -/
structure Started (e : Entries) (entry : Word) (m : Mem) (sp top : ℕ) (m' : Mem) : Prop where
  pointer : m'.read64 sp = top - 152
  words : m'.WordsAt (top - 32) (firstWords e entry)
  mem : ∀ x, x < sp ∨ sp + 8 ≤ x → x < top - 32 ∨ top ≤ x → m' x = m x

theorem started_startThread (hp : m.read64 sp = top) (hroom : 152 ≤ top)
    (hsp : sp + 8 ≤ top - 32 ∨ top ≤ sp) :
    Started e entry m sp top (startThread e m sp entry) := by
  have hb := (Builds.nil hp).storeAll
    [e.schedulerReturn, e.disablePreemption, entry, e.enablePreemption]
    (show 32 ≤ _ by omega) (show _ ≤ _ - 32 ∨ _ by omega)
  rw [startThread_eq]
  obtain ⟨m₄, hm₄⟩ : ∃ m₄, m₄ = storeAll m sp
    [e.schedulerReturn, e.disablePreemption, entry, e.enablePreemption] := ⟨_, rfl⟩
  rw [← hm₄] at hb ⊢
  have hpointer : m₄.read64 sp = top - 32 := by
    have h : m₄.read64 sp + 32 = top := hb.pointer
    omega
  have hwords := hb.words
  have hmem := hb.mem
  rw [hpointer] at hwords hmem
  refine ⟨?_, ?_, fun x h1 h2 => ?_⟩
  · rw [read64_moveBack hpointer (by omega)]
    omega
  · refine wordsAt_congr (fun x h1 h2 => moveBack_of_notMem ?_) hwords
    change x < top - 32 + 32 at h2
    omega
  · rw [moveBack_of_notMem h1, hmem x h1 h2]

/-! ### Functions that return into each other -/

/-- The function at the instruction pointer runs, and returns to the address it finds on the
stack. -/
def enter (fn : Word → Cpu → Option Cpu) (s : Cpu) : Option Cpu :=
  (fn s.rip s).map fun t => { t with rip := s.read s.rsp }

/-- What is known of the functions: the two of the scheduler return with interrupts on and off, and
all three keep to the calling convention. -/
structure Convention (fn : Word → Cpu → Option Cpu) (e : Entries) (entry : Word) (lo : ℕ)
    (shared : ℕ → Prop) : Prop where
  enable : ∀ s, ∃ s', fn e.enablePreemption s = some s' ∧ Returns lo shared s s' ∧
    s'.rflags &&& interruptFlag = interruptFlag
  disable : ∀ s, ∃ s', fn e.disablePreemption s = some s' ∧ Returns lo shared s s' ∧
    s'.rflags &&& interruptFlag = 0
  entry : Conforms lo shared (fn entry)

/-- A state in which functions lie on the stack: `s` is about to run `f`, and what it finds on the
stack is the addresses of the functions that come after it, up to the end of the stack. -/
structure Chain (s : Cpu) (top : ℕ) (f : Word) (fs : List Word) : Prop where
  rip : s.rip = f
  rsp : s.rsp.toNat + 8 * fs.length = top
  words : s.mem.WordsAt s.rsp.toNat (fs.map BitVec.toNat)

/-- **One function of the chain** runs and returns into the next one. -/
theorem Chain.enter {f f' : Word} {fs : List Word} (h : Chain s top f (f' :: fs))
    (hrun : fn f s = some t) (hret : Returns lo shared s t) (htop : top < 2 ^ 64)
    (hshared : ∀ x, s.rsp.toNat ≤ x → x < top → ¬shared x) :
    ∃ u, enter fn s = some u ∧ Chain u top f' fs ∧ u.gpr = t.gpr ∧ u.rflags = t.rflags := by
  have hrsp := h.rsp
  rw [List.length_cons] at hrsp
  have hnext : t.rsp.toNat = s.rsp.toNat + 8 := by
    rw [hret.rsp]
    exact toNat_add_of_lt (b := 8) (show s.rsp.toNat + 8 < 2 ^ 64 by omega)
  refine ⟨{ t with rip := s.read s.rsp }, ?_, ⟨Cpu.read_eq h.words.1, ?_, ?_⟩, rfl, rfl⟩
  · rw [FirstRun.enter, h.rip, hrun, Option.map_some]
  · dsimp only
    omega
  · dsimp only
    rw [hnext]
    refine wordsAt_congr (fun x h1 h2 => hret.mem x (hshared x (by omega) ?_) (Or.inr h1)) h.words.2
    rw [List.length_map] at h2
    omega

theorem wordsAt_zero {x : ℕ} (hws : ∀ w ∈ ws, w = 0)
    (h : ∀ y, x ≤ y → y < x + 8 * ws.length → m y = 0) : m.WordsAt x ws := by
  induction ws generalizing x with
  | nil => trivial
  | cons w ws ih =>
    rw [List.length_cons] at h
    refine ⟨?_, ih (fun v hv => hws v (List.mem_cons_of_mem w hv))
      fun y h1 h2 => h y (by omega) (by omega)⟩
    rw [hws w List.mem_cons_self, ← Mem.read64_zero (a := x)]
    exact Mem.readLE_congr fun y h1 h2 => h y h1 (by omega)

/-- **The first run of a thread.** `start_thread` was called for a cleared stack that ends at `top`,
and since then its last 152 bytes have not changed. A switch to the thread finds zero in every
register and enters `enable_preemption`, and this the entry point, with interrupts on. If the entry
point returns, it returns into `disable_preemption`, and this into `scheduler_return`, with
interrupts off and nothing left on the stack. -/
theorem first_run (hpointer : m.read64 sp = top) (hroom : 152 ≤ top) (htop : top < 2 ^ 64)
    (hsp : sp + 8 ≤ top - 152 ∨ top ≤ sp) (hzero : ∀ x, top - 152 ≤ x → x < top → m x = 0)
    (hconv : Convention fn e entry lo shared) (hshared : ∀ x, top - 32 ≤ x → x < top → ¬shared x)
    (hready : Ready fn im d s) (hclear : Clear im d s ⟨top - 32, top⟩)
    (hrsi : (s.gpr .rsi).toNat = (startThread e m sp entry).read64 sp)
    (hmem : ∀ x, top - 152 ≤ x → x < top → s.mem x = startThread e m sp entry x) :
    ∃ s₀ s₁, exec fn s (switchThread im) = some s₀ ∧ s₀.gpr = (fun _ => 0) ∧
      s₀.rip = e.enablePreemption ∧ enter fn s₀ = some s₁ ∧ s₁.rip = entry ∧
      s₁.rsp.toNat = top - 16 ∧ s₁.rflags &&& interruptFlag = interruptFlag ∧
      ∀ s₂, enter fn s₁ = some s₂ → s₂.rip = e.disablePreemption ∧
        ∃ s₃, enter fn s₂ = some s₃ ∧ s₃.rip = e.schedulerReturn ∧ s₃.rsp.toNat = top ∧
          s₃.rflags &&& interruptFlag = 0 := by
  have hst : Started e entry m sp top (startThread e m sp entry) :=
    started_startThread hpointer hroom (by omega)
  rw [hst.pointer] at hrsi
  -- fifteen zeros and four addresses
  have hregs : s.mem.WordsAt (s.gpr .rsi).toNat
      (restored.map fun _ : Reg => (0 : Word).toNat) := by
    rw [hrsi]
    refine wordsAt_zero (fun w hw => ?_) fun y h1 h2 => ?_
    · obtain ⟨_, -, rfl⟩ := List.mem_map.mp hw
      rfl
    · rw [List.length_map, length_restored] at h2
      rw [hmem y h1 (by omega), hst.mem y (by omega) (by omega), hzero y h1 (by omega)]
  obtain ⟨s', hexec, hsw⟩ := exec_switchThread (g := fun _ => 0) hready hregs
  have hwords : s'.mem.WordsAt (top - 32) (firstWords e entry) := by
    refine wordsAt_congr (fun x h1 h2 => ?_) hst.words
    change x < top - 32 + 32 at h2
    have hin : Area.Has ⟨top - 32, top⟩ x := ⟨h1, by dsimp only; omega⟩
    rw [hsw.mem_of_clear hclear hin, hmem x (by omega) (by omega)]
  have hrsp' : s'.rsp.toNat = top - 32 := by
    rw [hsw.rsp, hrsi]
    omega
  have hrsp₀ : (s'.rsp + 8).toNat = top - 32 + 8 := by
    rw [← hrsp']
    exact toNat_add_of_lt (b := 8) (show s'.rsp.toNat + 8 < 2 ^ 64 by omega)
  obtain ⟨s₀, hs₀⟩ : ∃ s₀, s₀ = { s' with rip := s'.read s'.rsp, rsp := s'.rsp + 8 } := ⟨_, rfl⟩
  have hchain : Chain s₀ top e.enablePreemption
      [entry, e.disablePreemption, e.schedulerReturn] := by
    rw [hs₀]
    refine ⟨Cpu.read_eq (by rw [hrsp']; exact hwords.1), ?_, ?_⟩
    · change (s'.rsp + 8).toNat + 24 = top
      omega
    · change s'.mem.WordsAt (s'.rsp + 8).toNat _
      rw [hrsp₀]
      exact hwords.2
  have hbound {u : Cpu} {f : Word} {fs : List Word} (hu : Chain u top f fs) (hlen : fs.length ≤ 3)
      (x : ℕ) (h1 : u.rsp.toNat ≤ x) (h2 : x < top) : ¬shared x := by
    have hrsp := hu.rsp
    exact hshared x (by omega) h2
  -- one function after the other
  obtain ⟨t₀, hrun₀, hret₀, hon⟩ := hconv.enable s₀
  obtain ⟨s₁, henter₀, hchain₁, -, hflags₁⟩ :=
    hchain.enter hrun₀ hret₀ htop (hbound hchain (show 3 ≤ 3 by decide))
  refine ⟨s₀, s₁, ?_, ?_, hchain.rip, henter₀, hchain₁.rip, ?_, by rw [hflags₁, hon],
    fun s₂ henter₁ => ?_⟩
  · rw [hexec, step, hs₀]
  · rw [hs₀]
    exact hsw.gpr
  · have hrsp : s₁.rsp.toNat + 16 = top := hchain₁.rsp
    omega
  · obtain ⟨t₁, hrun₁, -⟩ := Option.map_eq_some_iff.mp henter₁
    rw [hchain₁.rip] at hrun₁
    obtain ⟨u, henter, hchain₂, -⟩ := hchain₁.enter hrun₁ (hconv.entry s₁ t₁ hrun₁) htop
      (hbound hchain₁ (show 2 ≤ 3 by decide))
    obtain rfl : u = s₂ := Option.some.inj (henter.symm.trans henter₁)
    obtain ⟨t₂, hrun₂, hret₂, hoff⟩ := hconv.disable u
    obtain ⟨s₃, henter₂, hchain₃, -, hflags₃⟩ :=
      hchain₂.enter hrun₂ hret₂ htop (hbound hchain₂ (show 1 ≤ 3 by decide))
    exact ⟨hchain₂.rip, s₃, henter₂, hchain₃.rip, hchain₃.rsp, by rw [hflags₃, hoff]⟩

/-! ### A thread at 0x3000 -/

def sampleEntries : Entries := ⟨0x300, 0x400, 0x500⟩

/-- `get_current_thread`, the two functions that set and clear the flag, and others that do
nothing. -/
def sampleRun (f : Word) (s : Cpu) : Option Cpu :=
  if f = sampleImage.getCurrentThread then some (getCurrentThread sampleImage.runningThread s)
  else if f = sampleEntries.enablePreemption then
    some { s with rflags := s.rflags ||| interruptFlag, rsp := s.rsp + 8 }
  else if f = sampleEntries.disablePreemption then
    some { s with rflags := s.rflags &&& ~~~interruptFlag, rsp := s.rsp + 8 }
  else some { s with rsp := s.rsp + 8 }

/-- The thread is the running one, and its stack ends at 0x23e80. -/
def newMem : Mem := (Mem.write64 (fun _ => 0) 0x1000 0x3000).write64 0x3260 0x23e80

/-- The first switch to it. -/
def newCpu : Cpu :=
  { sampleCpu with
    gpr := fun r => if r = .rdi then 0x2260 else if r = .rsi then 0x23de8 else 0
    mem := startThread sampleEntries newMem 0x3260 0x600 }

theorem started_newMem :
    Started sampleEntries 0x600 newMem 0x3260 0x23e80 newCpu.mem := by
  rw [newCpu]
  exact started_startThread (by decide) (by decide) (by decide)

theorem thread_newCpu : thread sampleImage newCpu = 0x3000 := by
  refine Cpu.read_eq ?_
  have hkeep : newCpu.mem.read64 0x1000 = newMem.read64 0x1000 :=
    Mem.readLE_congr fun x h1 h2 => started_newMem.mem x (by omega) (by omega)
  exact hkeep.trans (by decide)

theorem ready_newCpu : Ready sampleRun sampleImage 0 newCpu := by
  refine ⟨fun s => ⟨_, if_pos rfl, fetches_getCurrentThread _ s⟩, by decide, by decide, by decide,
    by rw [thread_newCpu]; decide, ?_⟩
  rw [fxArea, thread_newCpu]
  constructor <;> decide

theorem convention_sampleRun :
    Convention sampleRun sampleEntries 0x600 0x20000 fun _ => False := by
  refine ⟨fun s => ⟨_, rfl, ⟨fun _ _ => rfl, rfl, fun _ _ _ => rfl⟩, ?_⟩,
    fun s => ⟨_, rfl, ⟨fun _ _ => rfl, rfl, fun _ _ _ => rfl⟩, ?_⟩, fun s s' h => ?_⟩
  · exact or_and_self
  · exact and_not_and_self
  · obtain rfl := Option.some.inj h
    exact ⟨fun _ _ => rfl, rfl, fun _ _ _ => rfl⟩

theorem first_run_sample :
    ∃ s₀ s₁, exec sampleRun newCpu (switchThread sampleImage) = some s₀ ∧ s₀.gpr = (fun _ => 0) ∧
      s₀.rip = 0x300 ∧ enter sampleRun s₀ = some s₁ ∧ s₁.rip = 0x600 ∧
      s₁.rsp.toNat = 0x23e80 - 16 ∧ s₁.rflags &&& interruptFlag = interruptFlag ∧
      ∀ s₂, enter sampleRun s₁ = some s₂ → s₂.rip = 0x400 ∧
        ∃ s₃, enter sampleRun s₂ = some s₃ ∧ s₃.rip = 0x500 ∧ s₃.rsp.toNat = 0x23e80 ∧
          s₃.rflags &&& interruptFlag = 0 :=
  first_run (m := newMem) (by decide) (by decide) (by decide) (by decide)
    (fun x h1 _ => (write64_of_notMem (by omega)).trans (write64_of_notMem (by omega)))
    convention_sampleRun (fun _ _ _ => id) ready_newCpu
    ⟨by rw [fxArea, thread_newCpu]; decide, by decide, by decide, by decide⟩
    started_newMem.pointer.symm fun _ _ _ => rfl

end FirstRun

end WillowOS
