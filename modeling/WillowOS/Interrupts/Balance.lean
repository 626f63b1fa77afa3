import WillowOS.Interrupts.Basic
import WillowOS.Scheduler.Machine

/-!
# Which functions leave the interrupt flag as they found it

Eleven of the fifteen functions do so on every way out. The others do when interrupts are
disabled to begin with, since `irq_restore` then has nothing to do; and otherwise

* `map_page` before scheduling has started only;
* `syscall7` for even addresses only;
* `get_thread_by_pid` if it finds no thread;
* `block_thread` never: the value it saved first is overwritten with that of the flag it has
  just cleared.

That is the whole of **`WillowOS.Interrupts.balanced_iff`**.
-/

namespace WillowOS

namespace Interrupts

open Prog

/-- The flag is as it was. -/
abbrev Balanced {α : Type} (x : K α) : Prop := Neutral Kernel.interruptFlag x

/-- Started with interrupts disabled, the program leaves the flag at `irq`. -/
abbrev Restores {α : Type} (irq : Bool) (x : K α) : Prop := Ends Kernel.interruptFlag irq x

variable {α : Type} {irq : Bool}

/-! ### Saving and restoring -/

theorem run_irqDisableSave {s : Kernel} :
    irqDisableSave.run s = some (s.interruptFlag, { s with interruptFlag := false }) := rfl

theorem restores_irqRestore : Restores irq (irqRestore irq) := by
  intro s a s' h0 h
  cases irq with
  | false => exact (Prod.mk.inj (Option.some.inj h)).2 ▸ h0
  | true => exact (Prod.mk.inj (Option.some.inj h)).2 ▸ rfl

/-- Restoring the flag, and returning. -/
theorem restores_return {x : K Unit} {a : α} (hx : Restores irq x) :
    Restores irq (x >>= fun _ => pure a) :=
  hx.bind_neutral fun _ => Neutral.pure

/-- **A function that saves the flag**: every way out has to restore it. -/
theorem balanced_of_restores {f : Bool → K α} (hf : ∀ irq, Restores irq (f irq)) :
    Balanced (irqDisableSave >>= f) := by
  intro s a s' h
  obtain ⟨b, s₁, h₁, h₂⟩ := run_bind_eq_some.mp h
  rw [run_irqDisableSave] at h₁
  obtain ⟨rfl, rfl⟩ := Prod.mk.inj (Option.some.inj h₁)
  exact hf _ _ _ _ rfl h₂

/-- A function that saves the flag and looks at the state: the ways out may depend on it. -/
theorem flag_of_restores {f : Bool → Kernel → K α} {b : Bool → Kernel → Bool} {s s' : Kernel}
    {a : α} (hf : ∀ irq k, Restores (b irq k) (f irq k))
    (h : (irqDisableSave >>= fun irq => get >>= f irq).run s = some (a, s')) :
    s'.interruptFlag = b s.interruptFlag { s with interruptFlag := false } :=
  hf _ _ _ _ _ rfl h

/-- Interrupts that are disabled already are saved as such. -/
theorem restores_save {f : Bool → K α} {b : Bool} (hf : Restores b (f false)) :
    Restores b (irqDisableSave >>= f) := by
  intro s a s' h0 h
  obtain ⟨b, s₁, h₁, h₂⟩ := run_bind_eq_some.mp h
  rw [run_irqDisableSave, h0] at h₁
  obtain ⟨rfl, rfl⟩ := Prod.mk.inj (Option.some.inj h₁)
  exact hf _ _ _ rfl h₂

theorem balanced_kprintf : Balanced kprintf := balanced_of_restores fun _ => restores_irqRestore

theorem balanced_check {c : Bool} : Balanced (check c) := Neutral.pure.ite Neutral.failure

theorem balanced_nonNull {a : ℕ} : Balanced (nonNull a) := balanced_check

theorem balanced_assert {c : Bool} : Balanced (assert c) :=
  Neutral.pure.ite (balanced_kprintf.bind fun _ => Neutral.failure)

theorem balanced_kprintln : Balanced kprintln := Neutral.pure

/-! ### The heap -/

theorem restores_kmallocLoop {size : ℕ} {ps : List Heap.HeapPage} {pos index : ℕ} :
    Restores irq (kmallocLoop irq size ps pos index) := by
  induction ps generalizing pos index with
  | nil => exact balanced_kprintln.ends.bind fun _ => restores_return restores_irqRestore
  | cons p ps ih =>
    rw [kmallocLoop]
    refine Ends.ite ?_ ih
    rcases Heap.probe (size - 1) (p :: ps) with _ | _ | status
    · exact balanced_kprintln.ends.bind fun _ => restores_return restores_irqRestore
    · exact ih
    · refine Ends.ite ?_ ih
      exact ends_modify_bind (fun _ => rfl) (restores_return restores_irqRestore)

theorem balanced_kmalloc {size : ℕ} : Balanced (kmalloc size) := by
  refine balanced_of_restores fun irq => Ends.ite ?_ ?_
  · exact balanced_kprintln.ends.bind fun _ => restores_return restores_irqRestore
  · exact Neutral.get.ends.bind fun s => restores_kmallocLoop

theorem balanced_kfree {a : ℕ} : Balanced (kfree a) :=
  balanced_of_restores fun _ => Neutral.get.ends.bind fun _ => Neutral.liftOption.ends.bind fun _ =>
    ends_modify_bind (fun _ => rfl) restores_irqRestore

theorem balanced_kmallocByte {size : ℕ} : Balanced (kmallocByte size) := by
  have hout : ∀ irq n, Restores irq (irqRestore irq >>= fun _ => kmalloc n) :=
    fun irq n => restores_irqRestore.bind_neutral fun _ => balanced_kmalloc
  exact balanced_of_restores fun irq =>
    (hout irq _).ite ((hout irq _).ite ((hout irq _).ite (hout irq _)))

theorem balanced_kmallocByteInterruptable {size : ℕ} :
    Balanced (kmallocByteInterruptable size) :=
  balanced_kmalloc.ite (balanced_kmalloc.ite (balanced_kmalloc.ite balanced_kmalloc))

theorem balanced_kreallocByte {a size : ℕ} : Balanced (kreallocByte a size) := by
  refine balanced_of_restores fun irq => balanced_kmallocByteInterruptable.ends.bind fun ret => ?_
  refine (restores_return restores_irqRestore).ite ((restores_return restores_irqRestore).ite ?_)
  exact Neutral.get.ends.bind fun _ => Neutral.liftOption.ends.bind fun _ =>
    balanced_kfree.ends.bind fun _ => restores_return restores_irqRestore

/-! ### Frames and pages -/

theorem balanced_assertAllocated {r : Frames.Region} {a : ℕ} : Balanced (assertAllocated r a) :=
  (balanced_kprintf.bind fun _ => balanced_assert).ite Neutral.pure

theorem restores_freeFrameLoop {a : ℕ} {before rs : List Frames.Region} :
    Restores irq (freeFrameLoop irq a before rs) := by
  have hout : ∀ {g : Kernel → Kernel}, (∀ s, (g s).interruptFlag = s.interruptFlag) →
      Restores irq (modify g >>= fun _ => irqRestore irq) :=
    fun hg => ends_modify_bind hg restores_irqRestore
  induction rs generalizing before with
  | nil => exact restores_irqRestore
  | cons r rs ih =>
    cases rs with
    | nil => exact hout fun _ => rfl
    | cons next rs =>
      rw [freeFrameLoop]
      refine Ends.ite ?_ (Ends.ite ih Ends.failure)
      exact balanced_assertAllocated.ends.bind fun _ => hout fun _ => rfl

theorem balanced_freeFrame {a : ℕ} : Balanced (freeFrame a) := by
  refine balanced_of_restores fun irq => Ends.ite ?_ ?_
  · -- the assertion fails
    refine balanced_kprintf.ends.bind fun _ => ?_
    exact balanced_kprintf.ends.bind fun _ => Ends.failure
  · exact Neutral.get.ends.bind fun _ => restores_freeFrameLoop

theorem balanced_recordUnmapping {v : ℕ} : Balanced (recordUnmapping v) :=
  Neutral.get.bind fun _ =>
    Neutral.ite (balanced_nonNull.bind fun _ => Neutral.modify fun _ => rfl) Neutral.pure

theorem balanced_unmapPage {pml4Address v : ℕ} : Balanced (unmapPage pml4Address v) :=
  balanced_of_restores fun _ => Neutral.get.ends.bind fun _ => balanced_check.ends.bind fun _ =>
    ends_modify_bind (fun _ => rfl)
      (balanced_recordUnmapping.ends.bind fun _ => restores_irqRestore)

theorem balanced_changePageMap {cr3 v permissions : ℕ} :
    Balanced (changePageMap cr3 v permissions) :=
  balanced_of_restores fun _ => ends_modify_bind (fun _ => rfl) restores_irqRestore

theorem balanced_growArray {t : ℕ} {mp : Paging.ThreadMappings} : Balanced (growArray t mp) :=
  Neutral.ite (Neutral.get.bind fun _ => balanced_kreallocByte.bind fun _ =>
    balanced_nonNull.bind fun _ => Neutral.modify fun _ => rfl) Neutral.pure

theorem balanced_recordMapping {v : ℕ} : Balanced (recordMapping v) :=
  Neutral.get.bind fun _ => balanced_nonNull.bind fun _ =>
    neutral_modify_bind (fun _ => rfl) (balanced_growArray.bind fun _ => Neutral.pure)

/-- **`map_page`** leaves interrupts disabled once scheduling has started. -/
theorem flag_mapPage {pml4Address a v permissions r : ℕ} {s s' : Kernel}
    (h : (mapPage pml4Address a v permissions).run s = some (r, s')) :
    s'.interruptFlag = (s.interruptFlag && !s.schedulingStarted) := by
  refine flag_of_restores (b := fun irq k => irq && !k.schedulingStarted) (fun irq k => ?_) h
  refine balanced_check.ends.bind fun _ => ends_modify_bind (fun _ => rfl) ?_
  cases k.schedulingStarted with
  | false => exact (Bool.and_true irq).symm ▸ restores_return restores_irqRestore
  | true => exact (Bool.and_false irq).symm ▸ balanced_recordMapping.ends

theorem restores_mapNext {pml4Address permissions flag v : ℕ} :
    Restores false (mapNext pml4Address permissions flag v) := by
  refine Neutral.get.ends.bind fun _ => ends_modify_bind (fun _ => rfl) (Ends.bind ?_ fun _ => ?_)
  · intro s a s' h0 h
    rw [flag_mapPage h, h0, Bool.false_and]
  · exact Neutral.ends (Neutral.ite (Neutral.modify fun _ => rfl) Neutral.pure)

theorem restores_mapRange {pml4Address v permissions size flag : ℕ} :
    Restores false (mapRange pml4Address v permissions size flag) :=
  Neutral.pure.ends.ite ((Ends.forM fun _ => restores_mapNext).bind fun _ => Neutral.pure.ends)

theorem balanced_assertCleared {w : ℕ} : Balanced (assertCleared w) :=
  (balanced_kprintf.bind fun _ => balanced_assert).ite Neutral.pure

/-- **`syscall7`** leaves interrupts disabled on an odd address. -/
theorem flag_syscall7 {v permissions size flag r : ℕ} {s s' : Kernel}
    (h : (syscall7 v permissions size flag).run s = some (r, s')) :
    s'.interruptFlag = (s.interruptFlag && decide (v % 2 = 0)) := by
  rcases Nat.mod_two_eq_zero_or_one v with hv | hv
  · rw [hv, decide_eq_true rfl, Bool.and_true]
    refine balanced_of_restores (fun irq => ?_) s r s' h
    rw [if_neg (not_not.mpr hv)]
    refine Neutral.get.ends.bind fun _ => balanced_nonNull.ends.bind fun _ => ?_
    refine restores_mapRange.bind fun _ => Neutral.get.ends.bind fun _ => ?_
    refine Neutral.liftOption.ends.bind fun _ => ends_modify_bind (fun _ => rfl) ?_
    exact Neutral.liftOption.ends.bind fun _ => balanced_assertCleared.ends.bind fun _ =>
      restores_return restores_irqRestore
  · rw [hv, decide_eq_false one_ne_zero, Bool.and_false]
    obtain ⟨irq, s₁, h₁, h₂⟩ := run_bind_eq_some.mp h
    rw [run_irqDisableSave] at h₁
    rw [if_pos (by omega)] at h₂
    obtain ⟨rfl, rfl⟩ := Prod.mk.inj (Option.some.inj h₁)
    exact Neutral.pure.ends _ _ _ rfl h₂

/-! ### Files -/

theorem balanced_directory {dir : ℕ} : Balanced (directory dir) := by
  refine Neutral.get.bind fun s => ?_
  cases s.objects dir with
  | directory _ d => exact Neutral.pure
  | file => exact Neutral.failure

theorem balanced_addObject {dir object : ℕ} : Balanced (addObject dir object) := by
  refine balanced_directory.bind fun d => Neutral.bind (Neutral.ite ?_ Neutral.pure) fun _ =>
    Neutral.modify fun _ => rfl
  exact Neutral.get.bind fun _ => balanced_kreallocByte.bind fun _ => balanced_nonNull.bind fun _ =>
    Neutral.modify fun _ => rfl

/-- An object that is made and put into a directory. -/
theorem restores_create {dir object : ℕ} {g : Kernel → Kernel}
    (hg : ∀ s, (g s).interruptFlag = s.interruptFlag) :
    Restores irq (do
      modify g
      addObject dir object
      irqRestore irq
      return object : K ℕ) :=
  ends_modify_bind hg (balanced_addObject.ends.bind fun _ => restores_return restores_irqRestore)

theorem balanced_tmpfsCreateFile {dir size : ℕ} {name : CString} :
    Balanced (tmpfsCreateFile dir name size) := by
  refine balanced_of_restores fun irq => balanced_kmallocByte.ends.bind fun file => ?_
  refine balanced_nonNull.ends.bind fun _ => balanced_kmallocByte.ends.bind fun _ => ?_
  exact balanced_nonNull.ends.bind fun _ => balanced_kmallocByte.ends.bind fun _ =>
    restores_create fun _ => rfl

theorem balanced_tmpfsCreateDirectory {dir : ℕ} {name : CString} :
    Balanced (tmpfsCreateDirectory dir name) := by
  refine balanced_of_restores fun irq => balanced_kmallocByte.ends.bind fun newDir => ?_
  refine balanced_nonNull.ends.bind fun _ => balanced_kmallocByte.ends.bind fun _ => ?_
  refine balanced_nonNull.ends.bind fun _ => balanced_kmallocByte.ends.bind fun _ => ?_
  exact balanced_nonNull.ends.bind fun _ => restores_create fun _ => rfl

/-! ### Threads -/

theorem restores_blockThreadLoop {pid n t : ℕ} :
    Restores false (blockThreadLoop pid n t false) := by
  induction n generalizing t with
  | zero => exact balanced_kprintln.ends.bind fun _ => restores_return restores_irqRestore
  | succ n ih =>
    refine restores_save (balanced_nonNull.ends.bind fun _ => Neutral.get.ends.bind fun s => ?_)
    refine Ends.ite (Ends.ite ?_ ?_) ih
    · exact balanced_kprintln.ends.bind fun _ => restores_return restores_irqRestore
    · refine ends_modify_bind (fun _ => rfl) (balanced_kprintln.ends.bind fun _ => ?_)
      exact balanced_check.ends.bind fun _ => restores_return restores_irqRestore

/-- **`block_thread`** leaves interrupts disabled: its loop takes at least one turn, which saves
the flag over the value saved first. -/
theorem flag_blockThread {pid r : ℕ} {s s' : Kernel}
    (h : (blockThread pid).run s = some (r, s')) : s'.interruptFlag = false :=
  -- the value passed to the first turn is not used
  flag_of_restores (b := fun _ _ => false)
    (fun _ k => (restores_blockThreadLoop : Restores false
      (blockThreadLoop pid (k.sched.numThreads + 1) k.sched.runningThread false))) h

theorem balanced_unblockThread {t : ℕ} : Balanced (unblockThread t) :=
  balanced_of_restores fun _ => balanced_nonNull.ends.bind fun _ =>
    ends_modify_bind (fun _ => rfl) (balanced_kprintln.ends.bind fun _ => restores_irqRestore)

theorem flag_getThreadByPidLoop {pid n t r : ℕ} {s s' : Kernel} (h0 : s.interruptFlag = false)
    (h : (getThreadByPidLoop irq pid n t).run s = some (r, s')) :
    s'.interruptFlag = (irq && (s.sched.findPid pid n t).isNone) := by
  induction n generalizing t with
  | zero =>
    rw [Scheduler.Sched.findPid, Option.isNone_none, Bool.and_true]
    exact (balanced_kprintln.ends.bind fun _ => restores_return restores_irqRestore) _ _ _ h0 h
  | succ n ih =>
    obtain ⟨_, s₁, h₁, h₂⟩ := run_bind_eq_some.mp h
    by_cases ht : t = 0
    · rw [nonNull, check, if_neg (by simpa using ht)] at h₁
      cases h₁
    · rw [nonNull, check, if_pos (by simpa using ht)] at h₁
      obtain ⟨-, rfl⟩ := Prod.mk.inj (Option.some.inj h₁)
      change StateT.run (if _ then _ else _) s = some (r, s') at h₂
      rw [Scheduler.Sched.findPid]
      split_ifs at h₂ ⊢ with hpid
      · obtain ⟨-, rfl⟩ := Prod.mk.inj (Option.some.inj h₂)
        rw [h0, Option.isNone_some, Bool.and_false]
      · exact ih h₂

/-- **`get_thread_by_pid`** leaves interrupts disabled if it finds the thread. -/
theorem flag_getThreadByPid {pid r : ℕ} {s s' : Kernel}
    (h : (getThreadByPid pid).run s = some (r, s')) :
    s'.interruptFlag = (s.interruptFlag &&
      (s.sched.findPid pid (s.sched.numThreads + 1) s.sched.runningThread).isNone) :=
  flag_getThreadByPidLoop (s := { s with interruptFlag := false }) rfl h

/-! ### Futexes -/

theorem balanced_futexQueue {null : Option ℕ} {pointer : ℕ} :
    Balanced (futexQueue null pointer) := by
  refine Neutral.get.bind fun _ => Neutral.liftOption.bind fun _ => Neutral.bind ?_ fun _ => ?_
  · refine Neutral.get.bind fun _ => Neutral.ite ?_ Neutral.pure
    exact balanced_kreallocByte.bind fun _ => balanced_nonNull.bind fun _ =>
      Neutral.modify fun _ => rfl
  · refine Neutral.liftOption.bind fun _ => neutral_modify_bind (fun _ => rfl) ?_
    refine Neutral.ite (balanced_kmallocByteInterruptable.bind fun _ => ?_) Neutral.pure
    exact balanced_nonNull.bind fun _ => balanced_kmallocByteInterruptable.bind fun _ =>
      neutral_modify_bind (fun _ => rfl) Neutral.pure

theorem balanced_growThreads {a : ℕ} {q : Futex.FutexQueue} : Balanced (growThreads a q) :=
  Neutral.ite (Neutral.get.bind fun _ => balanced_kreallocByte.bind fun _ =>
    Neutral.modify fun _ => rfl) Neutral.pure

theorem balanced_futexEnqueue {null : Option ℕ} {pointer thread : ℕ} :
    Balanced (futexEnqueue null pointer thread) := by
  refine balanced_of_restores fun irq => balanced_futexQueue.ends.bind fun _ => ?_
  refine Neutral.get.ends.bind fun _ => Neutral.liftOption.ends.bind fun _ => ?_
  refine balanced_growThreads.ends.bind fun _ => Neutral.get.ends.bind fun _ => ?_
  exact balanced_nonNull.ends.bind fun _ =>
    ends_modify_bind (fun _ => rfl) (restores_return restores_irqRestore)

/-! ### All of them -/

/-- A call of one of the functions. -/
inductive Call where
  | kmalloc (size : ℕ)
  | kfree (virtAddress : ℕ)
  | kmallocByte (size : ℕ)
  | kreallocByte (virtAddress size : ℕ)
  | freeFrame (physAddress : ℕ)
  | mapPage (pml4Address physAddress virtAddress permissions : ℕ)
  | unmapPage (pml4Address virtAddress : ℕ)
  | changePageMap (cr3 virtAddress permissions : ℕ)
  | tmpfsCreateFile (dir : ℕ) (name : CString) (size : ℕ)
  | tmpfsCreateDirectory (dir : ℕ) (name : CString)
  | blockThread (pid : ℕ)
  | unblockThread (thread : ℕ)
  | getThreadByPid (pid : ℕ)
  | futexEnqueue (null : Option ℕ) (pointer thread : ℕ)
  | syscall7 (virtAddress permissions size flag : ℕ)

/-- The kernel a program leaves. -/
def after (x : K α) (s : Kernel) : Option Kernel := (x.run s).map Prod.snd

def Call.exec (s : Kernel) : Call → Option Kernel
  | .kmalloc size => after (Interrupts.kmalloc size) s
  | .kfree virtAddress => after (Interrupts.kfree virtAddress) s
  | .kmallocByte size => after (Interrupts.kmallocByte size) s
  | .kreallocByte virtAddress size => after (Interrupts.kreallocByte virtAddress size) s
  | .freeFrame physAddress => after (Interrupts.freeFrame physAddress) s
  | .mapPage pml4Address physAddress virtAddress permissions =>
    after (Interrupts.mapPage pml4Address physAddress virtAddress permissions) s
  | .unmapPage pml4Address virtAddress => after (Interrupts.unmapPage pml4Address virtAddress) s
  | .changePageMap cr3 virtAddress permissions =>
    after (Interrupts.changePageMap cr3 virtAddress permissions) s
  | .tmpfsCreateFile dir name size => after (Interrupts.tmpfsCreateFile dir name size) s
  | .tmpfsCreateDirectory dir name => after (Interrupts.tmpfsCreateDirectory dir name) s
  | .blockThread pid => after (Interrupts.blockThread pid) s
  | .unblockThread thread => after (Interrupts.unblockThread thread) s
  | .getThreadByPid pid => after (Interrupts.getThreadByPid pid) s
  | .futexEnqueue null pointer thread => after (Interrupts.futexEnqueue null pointer thread) s
  | .syscall7 virtAddress permissions size flag =>
    after (Interrupts.syscall7 virtAddress permissions size flag) s

/-- The calls that enable interrupts again. -/
def Call.Restoring (s : Kernel) : Call → Prop
  | .mapPage .. => s.schedulingStarted = false
  | .blockThread _ => False
  | .getThreadByPid pid =>
    s.sched.findPid pid (s.sched.numThreads + 1) s.sched.runningThread = none
  | .syscall7 virtAddress .. => virtAddress % 2 = 0
  | _ => True

theorem exists_run {x : K α} {s s' : Kernel} (h : after x s = some s') :
    ∃ a, x.run s = some (a, s') := by
  obtain ⟨⟨a, s₁⟩, hx, rfl⟩ := Option.map_eq_some_iff.mp h
  exact ⟨a, hx⟩

/-- A flag that was enabled, and is left so under a condition only. -/
theorem flag_eq_iff {b c d : Bool} {p : Prop} (h : d = (b && c)) (hp : c = true ↔ p) :
    d = b ↔ b = false ∨ p := by
  subst h
  rw [← hp]
  cases b <;> cases c <;> simp

/-- **Which calls leave the flag as they found it.** -/
theorem balanced_iff (s s' : Kernel) (c : Call) (h : c.exec s = some s') :
    s'.interruptFlag = s.interruptFlag ↔ s.interruptFlag = false ∨ c.Restoring s := by
  have always : ∀ {α : Type} {x : K α}, Balanced x → c.exec s = after x s → c.Restoring s →
      (s'.interruptFlag = s.interruptFlag ↔ s.interruptFlag = false ∨ c.Restoring s) := by
    intro α x hx hc hr
    obtain ⟨a, h⟩ := exists_run (hc.symm.trans h)
    exact iff_of_true (hx s a s' h) (Or.inr hr)
  cases c with
  | kmalloc => exact always balanced_kmalloc rfl trivial
  | kfree => exact always balanced_kfree rfl trivial
  | kmallocByte => exact always balanced_kmallocByte rfl trivial
  | kreallocByte => exact always balanced_kreallocByte rfl trivial
  | freeFrame => exact always balanced_freeFrame rfl trivial
  | unmapPage => exact always balanced_unmapPage rfl trivial
  | changePageMap => exact always balanced_changePageMap rfl trivial
  | tmpfsCreateFile => exact always balanced_tmpfsCreateFile rfl trivial
  | tmpfsCreateDirectory => exact always balanced_tmpfsCreateDirectory rfl trivial
  | unblockThread => exact always balanced_unblockThread rfl trivial
  | futexEnqueue => exact always balanced_futexEnqueue rfl trivial
  | mapPage =>
    obtain ⟨r, h⟩ := exists_run h
    exact flag_eq_iff (flag_mapPage h) (by rw [Bool.not_eq_true']; rfl)
  | blockThread =>
    obtain ⟨r, h⟩ := exists_run h
    exact flag_eq_iff (c := false) (by rw [flag_blockThread h, Bool.and_false])
      (iff_of_false Bool.false_ne_true id)
  | getThreadByPid =>
    obtain ⟨r, h⟩ := exists_run h
    exact flag_eq_iff (flag_getThreadByPid h) Option.isNone_iff_eq_none
  | syscall7 =>
    obtain ⟨r, h⟩ := exists_run h
    exact flag_eq_iff (flag_syscall7 h) decide_eq_true_iff

/-- A kernel with one thread at `8`, whose pid is `5`, and interrupts enabled. -/
def oneThread : Kernel where
  interruptFlag := true
  heap := []
  phys := ⟨[], fun _ => 0⟩
  schedulingStarted := true
  sched := Scheduler.clearBoot.sched.createAndPush 8 5
  cr3 := fun _ => 0
  mappings := fun _ => ⟨fun _ => ⟨0, 0, false⟩, 0, 8⟩
  mappedVirtAddressesArray := fun _ => 0
  objects := fun _ => .directory ⟨[], by simp⟩ Tmpfs.newDirectory
  filesBlock := fun _ => 0
  futex := Futex.initFutex fun _ => 0
  globalFutexArray := 0
  threadsBlock := fun _ => 0

/-- A pid that no thread has. -/
theorem balanced_iff_getThreadByPid :
    (Call.getThreadByPid 6).exec oneThread = some oneThread ∧
      (oneThread.interruptFlag = false ∨ (Call.getThreadByPid 6).Restoring oneThread) :=
  ⟨rfl, (balanced_iff oneThread oneThread (.getThreadByPid 6) rfl).mp rfl⟩

/-- The pid of the thread that executes: the call returns with interrupts disabled. -/
theorem not_balanced_getThreadByPid :
    oneThread.interruptFlag = true ∧ ((getThreadByPid 5).run oneThread).map
      (fun r => (r.1, r.2.interruptFlag)) = some (8, false) := by
  decide

end Interrupts

end WillowOS
