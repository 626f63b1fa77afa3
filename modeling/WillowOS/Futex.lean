import Mathlib.Data.BitVec
import Mathlib.Logic.Function.Basic
import WillowOS.Lib.Run

/-!
# Futexes

A thread that waits on a word is to be blocked if the word is what it expects, and a thread
that wakes a word is to unblock all that wait on it. `syscall11` compares the word with the
*status* of the caller instead, and if they are equal stores there the value expected. The
caller is then queued by `futex_enqueue`, which starts with the queue at index `0` of
`global_futex_array`, the only one its loop looks at – and that is `NULL` until a first
thread has been queued. `syscall12` starts in the same way.

A null pointer is followed to address `0` of the caller's memory. If that page is not mapped,
which is the usual case, the call does not come back, and is `none`; if it is, what the caller
has put there is taken for a queue, of which only the first field is looked at here.

So a wait does what it is for only when it is refused on both counts, and a wake only when
it finds, at address `0`, something else than what it looks for:
**`WillowOS.Futex.callOk_of_meets`**, where the converse is proved of every call by a thread
that is not blocked.
-/

namespace WillowOS

namespace Futex

/-- A `futex_queue_t`. -/
structure FutexQueue where
  pointer : ℕ
  threads : ℕ → ℕ
  size : ℕ
  maxSize : ℕ

/-- The futexes and the threads, these by the addresses of their contexts. -/
structure State where
  /-- `status[3]`. -/
  status : ℕ → BitVec 64
  globalFutexArray : ℕ → ℕ
  globalFutexArraySize : ℕ
  /-- The size of the block `global_futex_array` points to. -/
  arrayBytes : ℕ
  /-- The queues that are allocated, by their addresses. -/
  queues : ℕ → Option FutexQueue
  /-- The word a thread has waited on without having been woken since. -/
  waiting : ℕ → Option ℕ

/-- `init_futex`, with threads of any status. -/
def initFutex (status : ℕ → BitVec 64) : State where
  status := status
  globalFutexArray := fun _ => 0
  globalFutexArraySize := 128
  arrayBytes := 128 * 8
  queues := fun _ => none
  waiting := fun _ => none

/-! ### The calls -/

/-- The `pointer` of the queue at an address. `null` is the word at address `0` of the
caller's memory, if there is one. -/
def queuePointer (s : State) (null : Option ℕ) (queue : ℕ) : Option ℕ :=
  if queue = 0 then null else (s.queues queue).map FutexQueue.pointer

/-- The loop of `futex_enqueue`, of one turn: the queue found, or `NULL`. When the first queue
is the one looked for, the index is *set* to the last one and the array reallocated, to a
size in bytes that is meant in entries; an entry beyond that size is no queue. -/
def findQueue (s : State) (null : Option ℕ) (pointer : ℕ) : Option (ℕ × State) :=
  (queuePointer s null (s.globalFutexArray 0)).bind fun p =>
    if p = pointer then
      let i := s.globalFutexArraySize - 1
      let arrayBytes := if i ≠ 0 then s.globalFutexArraySize + 128 else s.arrayBytes
      if 8 * i + 8 ≤ arrayBytes then
        some (s.globalFutexArray i, { s with arrayBytes := arrayBytes })
      else none
    else some (0, s)

/-- The end of `futex_enqueue`: a thread put into a queue, which is grown if it is full. -/
def FutexQueue.push (queue : FutexQueue) (thread : ℕ) : FutexQueue :=
  let maxSize := if queue.size = queue.maxSize then queue.maxSize + 64 else queue.maxSize
  { queue with threads := Function.update queue.threads queue.size thread
               size := queue.size + 1
               maxSize := maxSize }

/-- `futex_enqueue`, with the address of the queue if one is allocated. -/
def futexEnqueue (s : State) (null : Option ℕ) (pointer thread newQueue : ℕ) : Option State :=
  (findQueue s null pointer).bind fun p =>
    let s := p.2
    if p.1 = 0 then
      let queue := FutexQueue.push ⟨pointer, fun _ => 0, 0, 64⟩ thread
      some { s with globalFutexArray := Function.update s.globalFutexArray 0 newQueue
                    queues := Function.update s.queues newQueue (some queue) }
    else
      (s.queues p.1).map fun queue =>
        { s with queues := Function.update s.queues p.1 (some (queue.push thread)) }

/-- `syscall11`: the value returned, and the state. `word` is what the caller's pointer
points to and `pointer` the physical address of that; both ints are extended with their
sign for the compare-and-swap of the status. -/
def syscall11 (s : State) (null : Option ℕ) (thread : ℕ) (word expected : BitVec 32)
    (pointer newQueue : ℕ) : Option (ℕ × State) :=
  if s.status thread = word.signExtend 64 then
    let s := { s with status := Function.update s.status thread (expected.signExtend 64) }
    (futexEnqueue s null pointer thread newQueue).map fun s => (0, s)
  else some (11, s)

/-- `syscall12`: of the queue found, thread `i` is woken in each turn, `i` being the index of
the queue. The queue is freed and stays in the array. -/
def syscall12 (s : State) (null : Option ℕ) (pointer : ℕ) : Option (ℕ × State) :=
  let i := 0
  (queuePointer s null (s.globalFutexArray i)).bind fun p =>
    if p = pointer then
      (s.queues (s.globalFutexArray i)).map fun queue =>
        (0, { s with
          status := (List.range queue.size).foldl
            (fun status _ => Function.update status (queue.threads i) 0) s.status
          queues := Function.update s.queues (s.globalFutexArray i) none })
    else some (0, s)

/-! ### Runs -/

/-- A call. For a wake, `pointer` is what the caller passes and `phys` the physical address
of that. -/
inductive Event where
  | wait (thread : ℕ) (word expected : BitVec 32) (pointer newQueue : ℕ) (null : Option ℕ)
  | wake (thread pointer phys : ℕ) (null : Option ℕ)

/-- The caller. -/
def Event.thread : Event → ℕ
  | wait thread .. => thread
  | wake thread .. => thread

/-- A call, with what is known of who waits. -/
def call (s : State) : Event → Option (ℕ × State)
  | .wait thread word expected pointer newQueue null =>
    (syscall11 s null thread word expected pointer newQueue).map fun p =>
      if p.1 = 0 then
        (p.1, { p.2 with waiting := Function.update p.2.waiting thread (some pointer) })
      else p
  | .wake _ pointer phys null =>
    (syscall12 s null pointer).map fun p =>
      (p.1, { p.2 with waiting := fun t => (p.2.waiting t).filter fun k => k ≠ phys })

def step (s : State) (e : Event) : Option State := (call s e).map Prod.snd

/-- What a call is for, by the value it returns and the state it leaves. -/
def Done (s : State) (ret : ℕ) (s' : State) : Event → Prop
  | .wait thread word expected .. =>
    if word = expected then s'.status thread = 1 else ret = 11 ∧ s'.status = s.status
  | .wake _ _ phys _ =>
    ∀ t k, s.waiting t = some k → s'.status t = if k = phys then 0 else s.status t

/-- **A call does what it is for.** It returns; a wait for the value the word has blocks the
caller, any other returns `EAGAIN` and changes no status; a wake unblocks the threads that
wait on the word, and no thread that waits on another one. -/
def CallOk (s : State) (e : Event) : Prop := ∃ ret s', call s e = some (ret, s') ∧ Done s ret s' e

/-- A call that is refused: a wait for another value than the word has, by a thread whose
status is not that word either; a wake that finds something else at address `0`. -/
def Refused (s : State) : Event → Prop
  | .wait thread word expected .. => word ≠ expected ∧ s.status thread ≠ word.signExtend 64
  | .wake _ pointer _ (some w) => w ≠ pointer
  | .wake _ _ _ none => False

instance (s : State) : (e : Event) → Decidable (Refused s e)
  | .wait .. => inferInstanceAs (Decidable (_ ∧ _))
  | .wake _ _ _ (some _) => inferInstanceAs (Decidable (_ ≠ _))
  | .wake _ _ _ none => inferInstanceAs (Decidable False)

/-! ### Calls before any thread is queued -/

variable {status : ℕ → BitVec 64} {e : Event}

theorem signExtend_eq_zero {x : BitVec 32} : 0 = x.signExtend 64 ↔ x = 0 := by
  constructor
  · intro h
    have hint := congrArg BitVec.toInt h
    rw [BitVec.toInt_signExtend_of_le (by decide)] at hint
    exact BitVec.eq_of_toInt_eq hint.symm
  · rintro rfl
    rfl

/-- A call that is refused changes nothing. -/
theorem call_of_refused (h : Refused (initFutex status) e) :
    ∃ ret, call (initFutex status) e = some (ret, initFutex status) ∧
      ∀ t w x p q n, e = .wait t w x p q n → ret = 11 := by
  cases e with
  | wait thread word expected pointer newQueue null =>
    refine ⟨11, ?_, fun _ _ _ _ _ _ _ => rfl⟩
    rw [call, syscall11, if_neg h.2]
    rfl
  | wake thread pointer phys null =>
    rcases null with _ | w
    · exact absurd h id
    · refine ⟨0, ?_, nofun⟩
      show ((if w = pointer then _ else some (0, initFutex status)) : Option _).map _ = _
      rw [if_neg h]
      rfl

/-- **A call that is refused does what it is for.** -/
theorem callOk_of_refused (h : Refused (initFutex status) e) : CallOk (initFutex status) e := by
  obtain ⟨ret, hcall, hret⟩ := call_of_refused h
  refine ⟨ret, _, hcall, ?_⟩
  cases e with
  | wait thread word expected pointer newQueue null =>
    rw [Done, if_neg h.1]
    exact ⟨hret _ _ _ _ _ _ rfl, rfl⟩
  | wake thread pointer phys null => exact fun t k hk => nomatch hk

/-- What is queued first leaves the statuses as they are. -/
theorem status_futexEnqueue {s s' : State} {null : Option ℕ} {pointer thread newQueue : ℕ}
    (h : futexEnqueue s null pointer thread newQueue = some s') : s'.status = s.status := by
  obtain ⟨⟨queue, s₁⟩, hfind, h⟩ := Option.bind_eq_some_iff.mp h
  have hs₁ : s₁.status = s.status := by
    obtain ⟨p, -, hfind⟩ := Option.bind_eq_some_iff.mp hfind
    simp only at hfind
    split_ifs at hfind <;> obtain ⟨-, rfl⟩ := Prod.mk.inj (Option.some.inj hfind) <;> rfl
  rw [← hs₁]
  dsimp only at h
  split_ifs at h
  · exact (Option.some.inj h) ▸ rfl
  · obtain ⟨q, -, rfl⟩ := Option.map_eq_some_iff.mp h
    rfl

/-- **A call that is not refused does not**, if the caller is not blocked. -/
theorem refused_of_callOk (h0 : status e.thread = 0) (h : CallOk (initFutex status) e) :
    Refused (initFutex status) e := by
  obtain ⟨ret, s', hcall, hok⟩ := h
  cases e with
  | wait thread word expected pointer newQueue null =>
    have h0 : status thread = 0 := h0
    rw [call, syscall11] at hcall
    split_ifs at hcall with hcas
    · -- the word is zero, and the caller has the status it expects
      have hword : word = 0 := signExtend_eq_zero.mp (h0.symm.trans hcas)
      obtain ⟨⟨r, s₁⟩, hsys, hp⟩ := Option.map_eq_some_iff.mp hcall
      obtain ⟨s₂, henq, he⟩ := Option.map_eq_some_iff.mp hsys
      obtain ⟨rfl, rfl⟩ := Prod.mk.inj he
      obtain ⟨rfl, rfl⟩ := Prod.mk.inj hp
      rw [Done] at hok
      split_ifs at hok with heq
      · have hstatus : s₂.status thread = expected.signExtend 64 :=
          (congrFun (status_futexEnqueue henq) thread).trans (Function.update_self ..)
        rw [← heq, hword] at hstatus
        exact absurd (hstatus.symm.trans hok) (by decide)
      · exact absurd hok.1 (by decide)
    · -- the call is refused as far as the status goes
      obtain ⟨rfl, rfl⟩ := Prod.mk.inj (Option.some.inj hcall)
      rw [Done] at hok
      split_ifs at hok with heq
      · exact absurd (h0.symm.trans hok) (by decide)
      · exact ⟨heq, hcas⟩
  | wake thread pointer phys null =>
    obtain ⟨p, hsys, -⟩ := Option.map_eq_some_iff.mp hcall
    obtain ⟨w, hw, hp⟩ := Option.bind_eq_some_iff.mp hsys
    obtain rfl : null = some w := hw
    rintro rfl
    rw [if_pos rfl] at hp
    exact nomatch hp

/-- **When futexes do what they are for.** In a run in which every call is refused, every call
does; and in every state it reaches, a call by a thread that is not blocked does so only if
it is refused. -/
theorem callOk_of_meets (status : ℕ → BitVec 64) (es : List Event) (s : State)
    (hmeets : Meets step Refused (initFutex status) es)
    (h : es.foldlM step (initFutex status) = some s) :
    (∀ e, Refused s e → CallOk s e) ∧
      ∀ e, s.status e.thread = 0 → (CallOk s e ↔ Refused s e) := by
  have hs : s = initFutex status := by
    refine run_inv_of_meets (I := fun s => s = initFutex status) ?_ rfl hmeets h
    rintro s e t rfl hG hstep
    obtain ⟨ret, hcall, -⟩ := call_of_refused hG
    rw [step, hcall] at hstep
    exact (Option.some.inj hstep).symm
  rw [hs]
  exact ⟨fun e he => callOk_of_refused he,
    fun e he => ⟨refused_of_callOk he, callOk_of_refused⟩⟩

/-- Two waits for values the word does not have, then one for the value it has. -/
theorem callOk_of_meets_twoRefused :
    CallOk (initFutex fun _ => 0) (.wait 1 5 7 0x2000 0x8000 none) ∧
      ¬CallOk (initFutex fun _ => 0) (.wait 2 5 5 0x2000 0x8000 none) := by
  have hmeets : Meets step Refused (initFutex fun _ => 0)
      [.wait 1 5 6 0x2000 0x8000 none, .wait 2 3 4 0x3000 0x8000 none] := by
    exact meets_of_checkMeets (by decide +kernel)
  obtain ⟨hok, hiff⟩ := callOk_of_meets (fun _ => 0) _ _ hmeets rfl
  refine ⟨hok _ ⟨by decide, by decide⟩, fun h => ?_⟩
  exact ((hiff (.wait 2 5 5 0x2000 0x8000 none) rfl).mp h).1 rfl

/-- **A wait that should block is refused**: the word is `1` and so is the value expected,
and the call returns `EAGAIN` to a thread that is not blocked. -/
theorem not_callOk_of_wait_one :
    (call (initFutex fun _ => 0) (.wait 1 1 1 0x2000 0x8000 none)).map
        (fun p => (p.1, p.2.status 1)) = some (11, 0) ∧
      ¬CallOk (initFutex fun _ => 0) (.wait 1 1 1 0x2000 0x8000 none) := by
  refine ⟨by decide +kernel, ?_⟩
  rintro ⟨ret, s', hcall, hok⟩
  have hstatus := congrArg (Option.map fun p => p.2.status 1) hcall
  exact absurd (hstatus.trans (congrArg some hok)) (by decide +kernel)

end Futex

end WillowOS
