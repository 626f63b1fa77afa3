import WillowOS.Futex

/-!
# One queue for each address

`futex_enqueue` is to keep, in `global_futex_array`, one queue for each address that threads wait
on, with the threads in the order of the calls. Its loop has one turn, since the size of a pointer
is divided by the size of a pointer: it looks at the entry at index `0` only. There are three ways
on from there, and none of them leads to a second call that works:

* before the first call the entry is `NULL`, and its `pointer` is read at address `0`;
* if the queue is the one looked for, the index is set to the last one, `127`, and the array is cut
  to 256 bytes before that entry is read;
* otherwise a new queue is put at index `0`, and the one that was there is lost.

So after any calls that return there is one queue with one thread, the last one
(`WillowOS.Futex.run_last`), and what the array is for is met by no call at all, or by a single one
where there is something to be read at address `0`: **`WillowOS.Futex.keepsQueues_iff`**.
-/

namespace WillowOS

namespace Futex

/-- A call of `futex_enqueue`. `newQueue` is the block `kmalloc_byte` returns if it is asked for
one, and `null` the word at address `0`, if there is one. -/
structure Call where
  pointer : ℕ
  thread : ℕ
  newQueue : ℕ
  null : Option ℕ
deriving DecidableEq

/-- A call, as a step. -/
def enqueue (s : State) (c : Call) : Option State :=
  futexEnqueue s c.null c.pointer c.thread c.newQueue

/-- The entries of the block `global_futex_array` points to. -/
def State.entries (s : State) : ℕ := s.arrayBytes / 8

/-- The queue at an index of `global_futex_array`. -/
def State.queueAt (s : State) (i : ℕ) : Option FutexQueue :=
  if s.globalFutexArray i = 0 then none else s.queues (s.globalFutexArray i)

/-! ### Indices -/

/-- The index that is read when the first queue is the one looked for, and the entries that the
array has then. -/
def foundIndex (s : State) : ℕ × ℕ :=
  let i := s.globalFutexArraySize - 1
  (i, (if i ≠ 0 then s.globalFutexArraySize + 128 else s.arrayBytes) / 8)

/-- **The indices a call uses**, each with the number of entries of the array it is used on: in the
loop, on what it finds, and on the threads of the queue. -/
def indices (s : State) (c : Call) : List (ℕ × ℕ) :=
  let loop := (0, s.entries)
  let found :=
    if queuePointer s c.null (s.globalFutexArray 0) = some c.pointer then [foundIndex s] else []
  let stored := match findQueue s c.null c.pointer with
    | none => []
    | some (0, s') =>
      [(0, s'.entries), (0, (FutexQueue.push ⟨c.pointer, fun _ => 0, 0, 64⟩ c.thread).maxSize)]
    | some (queue, _) => ((s.queues queue).map fun q => (q.size, (q.push c.thread).maxSize)).toList
  loop :: found ++ stored

/-- Every index a call uses is one of its array. -/
def InBounds (s : State) (c : Call) : Prop := ∀ p ∈ indices s c, p.1 < p.2

instance (s : State) (c : Call) : Decidable (InBounds s c) :=
  inferInstanceAs (Decidable (∀ p ∈ indices s c, p.1 < p.2))

/-! ### What the array is for -/

/-- **One queue for each address**: for each one that was enqueued there is exactly one queue in the
array, with the threads of these calls in their order, and there is no other queue. -/
structure OneQueueEach (s : State) (cs : List Call) : Prop where
  one : ∀ c ∈ cs, ∃! i, i < s.entries ∧ ∃ q, s.queueAt i = some q ∧ q.pointer = c.pointer
  threads : ∀ i < s.entries, ∀ q, s.queueAt i = some q →
    (List.range q.size).map q.threads =
      (cs.filter fun c => c.pointer = q.pointer).map Call.thread
  only : ∀ i < s.entries, ∀ q, s.queueAt i = some q → ∃ c ∈ cs, c.pointer = q.pointer

/-- **What `futex_enqueue` is to do** over calls from `init_futex` on: they return, no index is
beyond its array, and there is one queue for each address. -/
def KeepsQueues (status : ℕ → BitVec 64) (cs : List Call) : Prop :=
  ∃ s, cs.foldlM enqueue (initFutex status) = some s ∧
    Meets enqueue InBounds (initFutex status) cs ∧ OneQueueEach s cs

/-! ### A call -/

variable {status : ℕ → BitVec 64} {s s' : State} {c : Call} {cs : List Call}

/-- The state after a queue has been made for a call. -/
def newQueue (s : State) (c : Call) : State :=
  { s with
    globalFutexArray := Function.update s.globalFutexArray 0 c.newQueue
    queues := Function.update s.queues c.newQueue
      (some (FutexQueue.push ⟨c.pointer, fun _ => 0, 0, 64⟩ c.thread)) }

/-- The array as `init_futex` has made it. -/
structure Unchanged (s : State) : Prop where
  size_eq : s.globalFutexArraySize = 128
  arrayBytes_eq : s.arrayBytes = 1024
  rest : ∀ i ≠ 0, s.globalFutexArray i = 0

/-- The loop that finds no queue. -/
theorem findQueue_of_ne {p : ℕ} (hp : queuePointer s c.null (s.globalFutexArray 0) = some p)
    (hne : p ≠ c.pointer) : findQueue s c.null c.pointer = some (0, s) := by
  rw [findQueue, hp, Option.bind_some, if_neg hne]

/-- **What a call can do**: make a queue in the place of the first one, if that is another one. -/
theorem enqueue_eq_some (h : Unchanged s) : enqueue s c = some s' ↔
    (∃ p, queuePointer s c.null (s.globalFutexArray 0) = some p ∧ p ≠ c.pointer) ∧
      s' = newQueue s c := by
  rw [enqueue, futexEnqueue]
  rcases hp : queuePointer s c.null (s.globalFutexArray 0) with _ | p
  · rw [findQueue, hp]
    simp
  · rcases eq_or_ne p c.pointer with rfl | hne
    · -- the last entry is not one of the array that is left
      have hnone : findQueue s c.null c.pointer = none := by
        rw [findQueue, hp, Option.bind_some, if_pos rfl]
        simp only [h.size_eq]
        rfl
      rw [hnone]
      simp
    · rw [findQueue_of_ne hp hne]
      simp only [Option.bind_some, if_true, Option.some.injEq, hne, ne_eq, not_false_eq_true,
        exists_eq_left', true_and]
      exact eq_comm

theorem unchanged_newQueue (h : Unchanged s) : Unchanged (newQueue s c) where
  size_eq := h.size_eq
  arrayBytes_eq := h.arrayBytes_eq
  rest := fun i hi => (Function.update_of_ne hi _ _).trans (h.rest i hi)

theorem unchanged_initFutex : Unchanged (initFutex status) := ⟨rfl, rfl, fun _ _ => rfl⟩

/-- **The array after any calls that return**: as `init_futex` has made it, but for the queue of the
last call. -/
theorem run_last (hs : Unchanged s) (h : (cs ++ [c]).foldlM enqueue s = some s') :
    ∃ t, Unchanged t ∧ s' = newQueue t c := by
  rw [List.foldlM_append] at h
  obtain ⟨t, ht, hlast⟩ := Option.bind_eq_some_iff.mp h
  have hU : Unchanged t := run_inv (fun s e t hs he => by
    rw [((enqueue_eq_some hs).mp he).2]
    exact unchanged_newQueue hs) hs ht
  refine ⟨t, hU, ?_⟩
  obtain ⟨u, hu, hnil⟩ := run_cons.mp hlast
  obtain rfl : u = s' := by simpa using hnil
  exact ((enqueue_eq_some hU).mp hu).2

/-! ### The queues after a call -/

theorem entries_newQueue (h : Unchanged s) : (newQueue s c).entries = 128 := by
  rw [State.entries, (unchanged_newQueue h).arrayBytes_eq]

/-- The queue of the last call is at index `0`, if it is one. -/
theorem queueAt_newQueue_zero : (newQueue s c).queueAt 0 = if c.newQueue = 0 then none
    else some (FutexQueue.push ⟨c.pointer, fun _ => 0, 0, 64⟩ c.thread) := by
  have harray : (newQueue s c).globalFutexArray 0 = c.newQueue := by
    simp only [newQueue, Function.update_self]
  have hqueue : (newQueue s c).queues c.newQueue =
      some (FutexQueue.push ⟨c.pointer, fun _ => 0, 0, 64⟩ c.thread) := Function.update_self ..
  rw [State.queueAt, harray, hqueue]

/-- There is no other one. -/
theorem queueAt_newQueue_of_ne (h : Unchanged s) {i : ℕ} (hi : i ≠ 0) :
    (newQueue s c).queueAt i = none := by
  rw [State.queueAt, if_pos ((unchanged_newQueue h).rest i hi)]

theorem eq_of_queueAt_newQueue (h : Unchanged s) {i : ℕ} {q : FutexQueue}
    (hq : (newQueue s c).queueAt i = some q) :
    i = 0 ∧ c.newQueue ≠ 0 ∧ q = FutexQueue.push ⟨c.pointer, fun _ => 0, 0, 64⟩ c.thread := by
  rcases eq_or_ne i 0 with rfl | hi
  · rw [queueAt_newQueue_zero] at hq
    split_ifs at hq with h0
    exact ⟨rfl, h0, (Option.some.inj hq).symm⟩
  · rw [queueAt_newQueue_of_ne h hi] at hq
    cases hq

/-- **A second call is one too many**: the queue has one thread, and all calls were to be in it. -/
theorem OneQueueEach.eq_nil (hs : Unchanged s) (h : OneQueueEach (newQueue s c) (cs ++ [c])) :
    cs = [] ∧ c.newQueue ≠ 0 := by
  have hsame : ∀ d ∈ cs ++ [c], d.pointer = c.pointer ∧ c.newQueue ≠ 0 := by
    intro d hd
    obtain ⟨i, ⟨-, q, hq, hpointer⟩, -⟩ := h.one d hd
    obtain ⟨-, h0, rfl⟩ := eq_of_queueAt_newQueue hs hq
    exact ⟨hpointer.symm, h0⟩
  have hnew := (hsame c (by simp)).2
  have hthreads := h.threads 0 (by rw [entries_newQueue hs]; decide) _
    (queueAt_newQueue_zero.trans (if_neg hnew))
  have hall : (cs ++ [c]).filter (fun d => d.pointer = c.pointer) = cs ++ [c] :=
    List.filter_eq_self.mpr fun d hd => decide_eq_true (hsame d hd).1
  have hlength := congrArg List.length hthreads
  rw [show (FutexQueue.push ⟨c.pointer, fun _ => 0, 0, 64⟩ c.thread).pointer = c.pointer from rfl,
    hall, List.length_map, List.length_map, List.length_range, List.length_append] at hlength
  refine ⟨List.eq_nil_of_length_eq_zero ?_, hnew⟩
  have hone : 1 = cs.length + 1 := hlength
  omega

/-- A first call that makes a queue does what it is to do. -/
theorem oneQueueEach_newQueue (hs : Unchanged s) (hnew : c.newQueue ≠ 0) :
    OneQueueEach (newQueue s c) [c] where
  one := by
    intro d hd
    obtain rfl := List.mem_singleton.mp hd
    refine ⟨0, ⟨by rw [entries_newQueue hs]; decide, _,
      queueAt_newQueue_zero.trans (if_neg hnew), rfl⟩, ?_⟩
    rintro i ⟨-, q, hq, -⟩
    exact (eq_of_queueAt_newQueue hs hq).1
  threads := by
    intro i _ q hq
    obtain ⟨-, -, rfl⟩ := eq_of_queueAt_newQueue hs hq
    have hfilter : [c].filter (fun d => d.pointer = c.pointer) = [c] :=
      List.filter_eq_self.mpr fun d hd => decide_eq_true (by rw [List.mem_singleton.mp hd])
    exact (congrArg (List.map Call.thread) hfilter).symm
  only := by
    intro i _ q hq
    obtain ⟨-, -, rfl⟩ := eq_of_queueAt_newQueue hs hq
    exact ⟨c, List.mem_singleton_self c, rfl⟩

/-- The indices of such a call. -/
theorem inBounds_initFutex {w : ℕ} (hnull : c.null = some w) (hne : w ≠ c.pointer) :
    InBounds (initFutex status) c := by
  have hp : queuePointer (initFutex status) c.null ((initFutex status).globalFutexArray 0) =
      some w := hnull
  have hfind := findQueue_of_ne hp hne
  intro p hmem
  rw [indices, hp, hfind, if_neg (fun heq => hne (Option.some.inj heq))] at hmem
  simp only [List.mem_cons, List.nil_append, List.cons_append, List.not_mem_nil, or_false] at hmem
  rcases hmem with rfl | rfl | rfl
  · show 0 < 1024 / 8
    decide
  · show 0 < 1024 / 8
    decide
  · show 0 < 64
    decide

end Futex

end WillowOS
