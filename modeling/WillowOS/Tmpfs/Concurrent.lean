import Mathlib.Algebra.Order.Ring.Nat
import Mathlib.Data.List.Permutation
import WillowOS.Lib.Run

/-!
# Two writes to a file at the same time

`tmpfs_write_to_file` decides whether the file is too small, and allocates the block it will need,
before it takes the mutex of the file; it moves the file in one critical section and copies the data
in another. A file without a block is given one with no mutex held, and the mutex is released all
the same. Here two threads run one call each, a thread being at one of the places between which it
cannot be interrupted by the other: before and after each operation on the mutex. The mutex itself
does what it is for.

The blocks are objects of their own, each with its length, and a byte that was never written is
`none`; `kmalloc_byte` is taken to find a block. Two calls behave like one after the other
(`WillowOS.Tmpfs.Concurrent.Serialises`) exactly when every growth finds a block to move, and no
block that is smaller than the file when it is moved:
**`WillowOS.Tmpfs.Concurrent.serialises_iff`**.
-/

namespace WillowOS

namespace Tmpfs

namespace Concurrent

/-- A block of the heap. -/
structure DataBlock where
  length : ℕ
  bytes : ℕ → Option UInt8

/-- A file: its size, and its block if `data` is not `NULL`. -/
structure File where
  size : ℕ
  data : Option DataBlock

/-- The arguments of a call; `offset` is a `uint64_t`. -/
structure Call where
  data : ℕ → UInt8
  size : ℕ
  offset : ℕ
  offset_lt : offset < 2 ^ 64

/-- `offset + size`. -/
def Call.newSize (c : Call) : ℕ := (c.offset + c.size) % 2 ^ 64

namespace File

/-- The bytes of the file, up to its size. -/
def contents (f : File) (i : ℕ) : Option UInt8 :=
  if i < f.size then f.data.bind (·.bytes i) else none

/-- Moving the file to a new block of `size` bytes. -/
def moved (f : File) (size : ℕ) : File where
  size := size
  data := some ⟨size, fun i => if i < f.size then f.data.bind (·.bytes i) else none⟩

/-- Some bytes written over others. -/
def overlay (c : Call) (bytes : ℕ → Option UInt8) (i : ℕ) : Option UInt8 :=
  if c.offset ≤ i ∧ i < c.offset + c.size then some (c.data (i - c.offset)) else bytes i

/-- The copy of the data into the block. -/
def written (f : File) (c : Call) : File :=
  { f with data := f.data.map fun b => { b with bytes := overlay c b.bytes } }

/-- The copy of `n` bytes from or to `offset` stays inside of the block. -/
def Inside (f : File) (offset n : ℕ) : Prop :=
  n = 0 ∨ ∃ b ∈ f.data, offset + n ≤ b.length

instance (f : File) (offset n : ℕ) : Decidable (f.Inside offset n) :=
  match f with
  | ⟨_, none⟩ => decidable_of_iff (n = 0) (by simp [Inside])
  | ⟨_, some b⟩ => decidable_of_iff (n = 0 ∨ offset + n ≤ b.length) (by simp [Inside])

/-- A file has its block: `NULL` only if it has no bytes. -/
structure HasBlock (f : File) : Prop where
  null : f.data = none → f.size = 0
  size_le : ∀ b ∈ f.data, f.size ≤ b.length
  length_lt : ∀ b ∈ f.data, b.length < 2 ^ 64

/-- `tmpfs_write_to_file`, with no other call in between. -/
def tmpfsWriteToFile (f : File) (c : Call) : File :=
  (if c.newSize > f.size then f.moved c.newSize else f).written c

/-- The same file: its size and its bytes. -/
def Same (f g : File) : Prop := f.size = g.size ∧ f.contents = g.contents

end File

/-! ### Interleavings -/

/-- Where a call is. -/
inductive Place where
  /-- Before the comparison with the size of the file. -/
  | start
  /-- At `acquire_mutex`, with a new block. -/
  | acquireToGrow
  /-- Before the file is moved. -/
  | grow
  /-- At the first `release_mutex`. -/
  | releaseGrown
  /-- At the second `acquire_mutex`. -/
  | acquireToWrite
  /-- Before the copy of the data. -/
  | write
  /-- At the second `release_mutex`. -/
  | releaseWritten
  | finished
deriving DecidableEq

/-- The file, its mutex, and the two threads; and whether a copy has left a block, or a mutex was
released by a thread that does not hold it. -/
structure State where
  file : File
  holder : Option Bool
  place : Bool → Place
  overrun : Bool
  wrongRelease : Bool

def init (f : File) : State := ⟨f, none, fun _ => .start, false, false⟩

/-- A thread goes to its next place. -/
def State.goto (s : State) (t : Bool) (p : Place) : State :=
  { s with place := Function.update s.place t p }

/-- `release_mutex`. -/
def State.release (s : State) (t : Bool) : State :=
  { s with holder := none, wrongRelease := s.wrongRelease || decide (s.holder ≠ some t) }

variable (calls : Bool → Call)

/-- **One step of thread `t`**: it waits at `acquire_mutex` while the mutex is held. -/
def step (s : State) (t : Bool) : Option State :=
  let c := calls t
  match s.place t with
  | .start =>
    if c.newSize > s.file.size then
      if s.file.data.isSome then some (s.goto t .acquireToGrow)
      else some ({ s with file := s.file.moved c.newSize }.goto t .releaseGrown)
    else some (s.goto t .acquireToWrite)
  | .acquireToGrow =>
    if s.holder = none then some ({ s with holder := some t }.goto t .grow) else none
  | .grow =>
    -- both the old block and the new one have to have the bytes of the file
    let inside := s.file.Inside 0 s.file.size ∧ s.file.size ≤ c.newSize
    some ({ s with file := s.file.moved c.newSize
                   overrun := s.overrun || decide ¬inside }.goto t .releaseGrown)
  | .releaseGrown => some ((s.release t).goto t .acquireToWrite)
  | .acquireToWrite =>
    if s.holder = none then some ({ s with holder := some t }.goto t .write) else none
  | .write =>
    some ({ s with file := s.file.written c
                   overrun := s.overrun || decide ¬s.file.Inside c.offset c.size }.goto t
      .releaseWritten)
  | .releaseWritten => some ((s.release t).goto t .finished)
  | .finished => none

/-- **What two calls at the same time are to do**: what they do one after the other, in one of the
two orders; every copy inside of a block, and every release by the thread that holds the mutex. -/
structure Serialises (f : File) (s : State) : Prop where
  serial : s.file.Same ((f.tmpfsWriteToFile (calls false)).tmpfsWriteToFile (calls true)) ∨
    s.file.Same ((f.tmpfsWriteToFile (calls true)).tmpfsWriteToFile (calls false))
  inside : s.overrun = false
  holds : s.wrongRelease = false

/-- **The condition on a step**: the sum of offset and size does not wrap around, a file that is
too small has a block, and the new block is not smaller than the file when the file is moved. -/
def Grows (s : State) (t : Bool) : Prop :=
  (s.place t = .start → (calls t).offset + (calls t).size < 2 ^ 64 ∧
      ((calls t).newSize > s.file.size → s.file.data.isSome)) ∧
    (s.place t = .grow → s.file.size ≤ (calls t).newSize)

instance (s : State) (t : Bool) : Decidable (Grows calls s t) :=
  inferInstanceAs (Decidable (_ ∧ _))

/-! ### The file -/

namespace File

variable {f : File} {c : Call} {size : ℕ}

/-- A file that is moved to a block that is not smaller keeps its bytes. -/
theorem contents_moved (h : f.size ≤ size) : (f.moved size).contents = f.contents := by
  funext i
  show (if i < size then f.contents i else none) = f.contents i
  split_ifs with hi
  · rfl
  · exact (if_neg (by omega)).symm

/-- Data that fits into the file is written over its bytes. -/
theorem contents_written (hf : f.HasBlock) (h : c.offset + c.size ≤ f.size) :
    (f.written c).contents = overlay c f.contents := by
  funext i
  show (if i < f.size then (f.written c).data.bind (·.bytes i) else none) = _
  rw [overlay, contents]
  split_ifs with hi hin hin
  · obtain ⟨b, hb⟩ : ∃ b, f.data = some b := by
      refine Option.ne_none_iff_exists'.mp fun hnull => ?_
      have := hf.null hnull
      omega
    simp only [written, hb, Option.map_some, Option.bind_some]
    exact if_pos hin
  · cases hdata : f.data with
    | none => simp [written, hdata]
    | some b =>
      simp only [written, hdata, Option.map_some, Option.bind_some]
      exact if_neg hin
  · omega
  · rfl

theorem HasBlock.moved (h : size < 2 ^ 64) : (f.moved size).HasBlock := by
  refine ⟨fun hnull => ?_, fun b hb => ?_, fun b hb => ?_⟩
  · simp [File.moved] at hnull
  · obtain rfl := Option.some.inj hb
    exact Nat.le_refl _
  · obtain rfl := Option.some.inj hb
    exact h

theorem HasBlock.written (hf : f.HasBlock) : (f.written c).HasBlock := by
  refine ⟨fun hnull => hf.null (Option.map_eq_none_iff.mp hnull), fun b hb => ?_, fun b hb => ?_⟩
  · obtain ⟨b', hb', rfl⟩ := Option.map_eq_some_iff.mp hb
    exact hf.size_le b' hb'
  · obtain ⟨b', hb', rfl⟩ := Option.map_eq_some_iff.mp hb
    exact hf.length_lt b' hb'

/-- What fits into the file is inside of its block. -/
theorem HasBlock.inside {offset n : ℕ} (hf : f.HasBlock) (h : offset + n ≤ f.size) :
    f.Inside offset n := by
  cases hdata : f.data with
  | none =>
    have := hf.null hdata
    exact Or.inl (by omega)
  | some b => exact Or.inr ⟨b, hdata, h.trans (hf.size_le b hdata)⟩

/-- **A call alone**: the file is as large as it needs to be, and the data is written. -/
theorem tmpfsWriteToFile_spec (hf : f.HasBlock) (h : c.offset + c.size < 2 ^ 64) :
    (f.tmpfsWriteToFile c).HasBlock ∧
      (f.tmpfsWriteToFile c).size = max f.size (c.offset + c.size) ∧
      (f.tmpfsWriteToFile c).contents = overlay c f.contents := by
  have hnew : c.newSize = c.offset + c.size := Nat.mod_eq_of_lt h
  rw [tmpfsWriteToFile, hnew]
  split_ifs with hgrow
  · refine ⟨(HasBlock.moved h).written, (Nat.max_eq_right (Nat.le_of_lt hgrow)).symm, ?_⟩
    rw [contents_written (HasBlock.moved h) (Nat.le_refl _),
      contents_moved (Nat.le_of_lt hgrow)]
  · have hle : c.offset + c.size ≤ f.size := Nat.le_of_not_lt hgrow
    exact ⟨hf.written, (Nat.max_eq_left hle).symm, contents_written hf hle⟩

end File

/-! ### The invariant -/

namespace Place

/-- The thread holds the mutex here. -/
def critical : Place → Bool
  | grow | releaseGrown | write | releaseWritten => true
  | _ => false

/-- The file has been found or made large enough. -/
def grown : Place → Bool
  | releaseGrown | acquireToWrite | write | releaseWritten | finished => true
  | _ => false

/-- The data has been written. -/
def written : Place → Bool
  | releaseWritten | finished => true
  | _ => false

end Place

/-- Nothing has gone wrong, and nothing will for what was done so far. -/
structure Kept (s : State) : Prop where
  inside : s.overrun = false
  holds : s.wrongRelease = false
  fits : ∀ t, s.place t ≠ .start → (s.place t).written = false →
    (calls t).offset + (calls t).size < 2 ^ 64
  held : ∀ t, s.place t = .releaseGrown → s.holder = some t

/-- Then the file is as the calls so far have made it, in the order of their copies. -/
structure Inv (f : File) (s : State) : Prop where
  block : s.file.HasBlock
  holder : ∀ t, s.holder = some t ↔ (s.place t).critical = true
  grown : ∀ t, (s.place t).grown = true → (calls t).newSize ≤ s.file.size
  fits : ∀ t, s.place t ≠ .start → (calls t).offset + (calls t).size < 2 ^ 64
  growing : ∀ t, s.place t = .acquireToGrow ∨ s.place t = .grow → s.file.data.isSome = true
  size_le : f.size ≤ s.file.size
  size_eq : s.file.size = f.size ∨ ∃ t, s.file.size = (calls t).newSize
  contents : ∃ order : List Bool, order.Nodup ∧ (∀ t, t ∈ order ↔ (s.place t).written = true) ∧
    s.file.contents = order.foldl (fun bytes t => File.overlay (calls t) bytes) f.contents

variable {calls} {f : File} {s u : State} {t : Bool}

@[simp] theorem place_goto {p : Place} {v : Bool} :
    (s.goto t p).place v = if v = t then p else s.place v := Function.update_apply ..

theorem inv_init (hf : f.HasBlock) : Inv calls f (init f) where
  block := hf
  holder t := by simp [init, Place.critical]
  grown t h := by simp [init, Place.grown] at h
  fits t h := absurd rfl h
  growing t h := by simp [init] at h
  size_le := Nat.le_refl _
  size_eq := Or.inl rfl
  contents := ⟨[], List.nodup_nil, by simp [init, Place.written], rfl⟩

/-- The order of the copies, when a thread goes to its next place, and when it copies. -/
theorem Inv.contents_next (hs : Inv calls f s) {q : Place} {file : File} {holder : Option Bool}
    {overrun wrongRelease : Bool}
    (hcontents : q.written = (s.place t).written ∧ file.contents = s.file.contents ∨
      q.written = true ∧ (s.place t).written = false ∧
        file.contents = File.overlay (calls t) s.file.contents) :
    ∃ order : List Bool, order.Nodup ∧
      (∀ v, v ∈ order ↔ ((State.goto ⟨file, holder, s.place, overrun, wrongRelease⟩ t q).place
        v).written = true) ∧
      file.contents = order.foldl (fun bytes v => File.overlay (calls v) bytes) f.contents := by
  obtain ⟨order, hnodup, hmem, heq⟩ := hs.contents
  rcases hcontents with ⟨hw, hsame⟩ | ⟨hw, hnot, hover⟩
  · refine ⟨order, hnodup, fun v => ?_, hsame.trans heq⟩
    rw [place_goto, hmem v]
    split_ifs with hvt
    · rw [hw, hvt]
    · rfl
  · -- the thread comes last in the order
    have hnotMem : t ∉ order := by simp [hmem, hnot]
    refine ⟨order ++ [t], ?_, fun v => ?_, ?_⟩
    · exact List.nodup_append.mpr ⟨hnodup, List.nodup_singleton t, by
        rintro a ha b hb rfl
        exact hnotMem (List.mem_singleton.mp hb ▸ ha)⟩
    · rw [place_goto, List.mem_append, List.mem_singleton, hmem v]
      split_ifs with hvt
      · simp [hvt, hw]
      · simp [hvt]
    · rw [List.foldl_append, ← heq]
      exact hover

/-- **A thread goes to its next place**, with another file and holder of the mutex. -/
theorem Inv.next (hs : Inv calls f s) {q : Place} {file : File} {holder : Option Bool}
    {overrun wrongRelease : Bool} (hblock : file.HasBlock)
    (hfits : (calls t).offset + (calls t).size < 2 ^ 64)
    (hdata : s.file.data.isSome = true → file.data.isSome = true)
    (hsize : file.size = s.file.size ∨
      s.file.size ≤ file.size ∧ file.size = (calls t).newSize)
    (hholder : holder = some t ↔ q.critical = true)
    (hother : ∀ v, v ≠ t → (holder = some v ↔ s.holder = some v))
    (hgrown : q.grown = true → (calls t).newSize ≤ file.size)
    (hgrowing : q = .acquireToGrow ∨ q = .grow → file.data.isSome = true)
    (hcontents : q.written = (s.place t).written ∧ file.contents = s.file.contents ∨
      q.written = true ∧ (s.place t).written = false ∧
        file.contents = File.overlay (calls t) s.file.contents) :
    Inv calls f (State.goto ⟨file, holder, s.place, overrun, wrongRelease⟩ t q) := by
  have hle : s.file.size ≤ file.size := by
    rcases hsize with h | h
    · exact h.ge
    · exact h.1
  refine ⟨hblock, fun v => ?_, fun v hv => ?_, fun v hv => ?_, fun v hv => ?_,
    hs.size_le.trans hle, ?_, hs.contents_next hcontents⟩
  · rw [place_goto]
    split_ifs with hvt
    · rw [hvt]
      exact hholder
    · exact (hother v hvt).trans (hs.holder v)
  · rw [place_goto] at hv
    split_ifs at hv with hvt
    · rw [hvt]
      exact hgrown hv
    · exact (hs.grown v hv).trans hle
  · rw [place_goto] at hv
    split_ifs at hv with hvt
    · rw [hvt]
      exact hfits
    · exact hs.fits v hv
  · rw [place_goto] at hv
    split_ifs at hv
    · exact hgrowing hv
    · exact hdata (hs.growing v hv)
  · rcases hsize with h | ⟨-, h⟩
    · have heq := hs.size_eq
      rw [← h] at heq
      exact heq
    · exact Or.inr ⟨t, h⟩

/-- What is kept after a step was kept before it. -/
theorem Kept.back {q : Place} {file : File} {holder : Option Bool} {overrun wrongRelease : Bool}
    (h : Kept calls (State.goto ⟨file, holder, s.place, overrun, wrongRelease⟩ t q))
    (hoverrun : overrun = false → s.overrun = false)
    (hwrong : wrongRelease = false → s.wrongRelease = false) (hstart : q ≠ .start)
    (hfits : (s.place t).written = false → q.written = true →
      (calls t).offset + (calls t).size < 2 ^ 64)
    (hheld : s.place t = .releaseGrown → s.holder = some t)
    (hother : ∀ v, v ≠ t → holder = some v → s.holder = some v) : Kept calls s := by
  refine ⟨hoverrun h.inside, hwrong h.holds, fun v hne hv => ?_, fun v hv => ?_⟩
  · by_cases hvt : v = t
    · subst hvt
      cases hq : q.written with
      | true => exact hfits hv hq
      | false =>
        exact h.fits v (by rwa [place_goto, if_pos rfl]) (by rw [place_goto, if_pos rfl, hq])
    · exact h.fits v (by rwa [place_goto, if_neg hvt]) (by rw [place_goto, if_neg hvt, hv])
  · by_cases hvt : v = t
    · subst hvt
      exact hheld hv
    · exact hother v hvt (h.held v (by rw [place_goto, if_neg hvt, hv]))

/-- What is kept before a step is kept after it. -/
theorem Kept.next {q : Place} {file : File} {holder : Option Bool} {overrun wrongRelease : Bool}
    (h : Kept calls s) (hoverrun : overrun = false) (hwrong : wrongRelease = false)
    (hfits : q.written = false → (calls t).offset + (calls t).size < 2 ^ 64)
    (hheld : q = .releaseGrown → holder = some t)
    (hother : ∀ v, v ≠ t → s.holder = some v → holder = some v) :
    Kept calls (State.goto ⟨file, holder, s.place, overrun, wrongRelease⟩ t q) := by
  refine ⟨hoverrun, hwrong, fun v hne hv => ?_, fun v hv => ?_⟩
  · rw [place_goto] at hne hv
    split_ifs at hne hv with hvt
    · rw [hvt]
      exact hfits hv
    · exact h.fits v hne hv
  · rw [place_goto] at hv
    split_ifs at hv with hvt
    · rw [hvt]
      exact hheld hv
    · exact hother v hvt (h.held v hv)

/-- A step keeps what is kept exactly if it meets the condition. -/
structure Exact (calls : Bool → Call) (f : File) (s : State) (t : Bool) (u : State) : Prop where
  small : ∀ b ∈ u.file.data, b.length < 2 ^ 64
  back : Kept calls u → Kept calls s ∧ Grows calls s t
  next : Kept calls s → Grows calls s t → Kept calls u ∧ Inv calls f u

section Steps

variable (hsmall : ∀ b ∈ s.file.data, b.length < 2 ^ 64) (hinv : Kept calls s → Inv calls f s)
include hsmall hinv

theorem exact_start (hp : s.place t = .start) (h : step calls s t = some u) :
    Exact calls f s t u := by
  have hnot : (s.place t).written = false := by rw [hp]; rfl
  have hfree : Kept calls s → s.holder ≠ some t := fun hk => by
    rw [Ne, (hinv hk).holder, hp]
    decide
  have hgrows : (calls t).offset + (calls t).size < 2 ^ 64 →
      ((calls t).newSize > s.file.size → s.file.data.isSome) → Grows calls s t :=
    fun h1 h2 => ⟨fun _ => ⟨h1, h2⟩, fun hg => by rw [hp] at hg; cases hg⟩
  simp only [step, hp] at h
  split_ifs at h with hlt hsome
  · -- the file has a block, and the thread goes to take the mutex
    obtain rfl := Option.some.inj h
    refine ⟨hsmall, fun hk => ?_, fun hk hg => ⟨?_, ?_⟩⟩
    · refine ⟨hk.back id id nofun (fun _ hq => by cases hq) (fun hr => by rw [hp] at hr; cases hr)
        fun _ _ hv => hv, hgrows (hk.fits t ?_ ?_) fun _ => hsome⟩ <;> simp [Place.written]
    · exact hk.next hk.inside hk.holds (fun _ => (hg.1 hp).1) (fun hq => by cases hq)
        fun _ _ hv => hv
    · refine (hinv hk).next (hinv hk).block (hg.1 hp).1 id (Or.inl rfl) ?_ (fun _ _ => Iff.rfl)
        (fun hq => by cases hq) (fun _ => hsome) (Or.inl ⟨hnot.symm, rfl⟩)
      exact iff_of_false (hfree hk) (by decide)
  · -- it has none: the mutex will be released by a thread that does not hold it
    obtain rfl := Option.some.inj h
    refine ⟨(File.HasBlock.moved (Nat.mod_lt _ (by decide))).length_lt, fun hk => ?_,
      fun hk hg => absurd ((hg.1 hp).2 hlt) hsome⟩
    have hk' : Kept calls s := hk.back id id nofun (fun _ hq => by cases hq)
      (fun hr => by rw [hp] at hr; cases hr) fun _ _ hv => hv
    exact absurd (hk.held t (by rw [place_goto, if_pos rfl])) (hfree hk')
  · obtain rfl := Option.some.inj h
    refine ⟨hsmall, fun hk => ?_, fun hk hg => ⟨?_, ?_⟩⟩
    · refine ⟨hk.back id id nofun (fun _ hq => by cases hq) (fun hr => by rw [hp] at hr; cases hr)
        fun _ _ hv => hv, hgrows (hk.fits t ?_ ?_) fun h => absurd h hlt⟩ <;> simp [Place.written]
    · exact hk.next hk.inside hk.holds (fun _ => (hg.1 hp).1) (fun hq => by cases hq)
        fun _ _ hv => hv
    · refine (hinv hk).next (hinv hk).block (hg.1 hp).1 id (Or.inl rfl) ?_ (fun _ _ => Iff.rfl)
        (fun _ => Nat.le_of_not_lt hlt) (fun hq => by rcases hq with hq | hq <;> cases hq)
        (Or.inl ⟨hnot.symm, rfl⟩)
      exact iff_of_false (hfree hk) (by decide)

/-- `acquire_mutex`, on the way from `p` to `q`. -/
theorem exact_acquire {p q : Place} (hp : s.place t = p) (hfree : s.holder = none)
    (hpq : p = .acquireToGrow ∧ q = .grow ∨ p = .acquireToWrite ∧ q = .write) :
    Exact calls f s t ({ s with holder := some t }.goto t q) := by
  have hwritten : q.written = false ∧ (s.place t).written = false := by
    rcases hpq with ⟨rfl, rfl⟩ | ⟨rfl, rfl⟩ <;> exact ⟨rfl, by rw [hp]; rfl⟩
  have hcritical : q.critical = true := by
    rcases hpq with ⟨rfl, rfl⟩ | ⟨rfl, rfl⟩ <;> rfl
  have hgrows : Grows calls s t := by
    rcases hpq with ⟨rfl, rfl⟩ | ⟨rfl, rfl⟩ <;> simp [Grows, hp]
  have hstart : s.place t ≠ .start := by
    rcases hpq with ⟨rfl, -⟩ | ⟨rfl, -⟩ <;> rw [hp] <;> decide
  refine ⟨hsmall, fun hk => ⟨?_, hgrows⟩, fun hk _ => ⟨?_, ?_⟩⟩
  · refine hk.back id id ?_ (fun _ hq => ?_) (fun hr => ?_) fun v hv h => ?_
    · rcases hpq with ⟨-, rfl⟩ | ⟨-, rfl⟩ <;> decide
    · rw [hwritten.1] at hq
      cases hq
    · rcases hpq with ⟨rfl, -⟩ | ⟨rfl, -⟩ <;> exact absurd (hp.symm.trans hr) (by decide)
    · exact absurd (Option.some.inj h).symm hv
  · refine hk.next hk.inside hk.holds (fun _ => hk.fits t hstart hwritten.2) (fun _ => rfl)
      fun v _ h => ?_
    rw [hfree] at h
    cases h
  · have hs := hinv hk
    refine hs.next hs.block (hs.fits t hstart) id (Or.inl rfl) (iff_of_true rfl hcritical)
      (fun v hv => ?_) (fun hq => ?_) (fun hq => ?_)
      (Or.inl ⟨hwritten.1.trans hwritten.2.symm, rfl⟩)
    · rw [hfree]
      exact iff_of_false (fun h => hv (Option.some.inj h).symm) nofun
    · rcases hpq with ⟨-, rfl⟩ | ⟨rfl, -⟩
      · cases hq
      · exact hs.grown t (by rw [hp]; rfl)
    · rcases hpq with ⟨rfl, -⟩ | ⟨-, rfl⟩
      · exact hs.growing t (Or.inl hp)
      · rcases hq with hq | hq <;> cases hq

/-- `release_mutex`, on the way from `p` to `q`. -/
theorem exact_release {p q : Place} (hp : s.place t = p)
    (hpq : p = .releaseGrown ∧ q = .acquireToWrite ∨ p = .releaseWritten ∧ q = .finished) :
    Exact calls f s t ((s.release t).goto t q) := by
  have hwritten : q.written = (s.place t).written := by
    rcases hpq with ⟨rfl, rfl⟩ | ⟨rfl, rfl⟩ <;> rw [hp] <;> rfl
  have hcritical : q.critical = false ∧ (s.place t).critical = true := by
    rcases hpq with ⟨rfl, rfl⟩ | ⟨rfl, rfl⟩ <;> exact ⟨rfl, by rw [hp]; rfl⟩
  have hgrown : (s.place t).grown = true := by
    rcases hpq with ⟨rfl, rfl⟩ | ⟨rfl, rfl⟩ <;> rw [hp] <;> rfl
  have hgrows : Grows calls s t := by
    rcases hpq with ⟨rfl, rfl⟩ | ⟨rfl, rfl⟩ <;> simp [Grows, hp]
  have hstart : s.place t ≠ .start := fun hst => by
    rw [hst] at hgrown
    cases hgrown
  have hplace : q ≠ .releaseGrown ∧ q ≠ .acquireToGrow ∧ q ≠ .grow ∧ q ≠ .start := by
    rcases hpq with ⟨-, rfl⟩ | ⟨-, rfl⟩ <;> decide
  refine ⟨hsmall, fun hk => ⟨?_, hgrows⟩, fun hk _ => ?_⟩
  · obtain ⟨hwrong, hheld⟩ := (Bool.or_eq_false_iff).mp hk.holds
    have hheld : s.holder = some t := by simpa using hheld
    refine hk.back id (fun _ => hwrong) hplace.2.2.2 (fun hn hq => ?_) (fun _ => hheld) nofun
    rw [hwritten, hn] at hq
    cases hq
  · have hs := hinv hk
    have hheld : s.holder = some t := (hs.holder t).mpr hcritical.2
    have hother : ∀ v, v ≠ t → s.holder ≠ some v := fun v hv h =>
      hv (Option.some.inj (h.symm.trans hheld))
    constructor
    · refine hk.next hk.inside ?_ (fun hq => hk.fits t hstart (hwritten ▸ hq))
        (fun hq => absurd hq hplace.1) fun v hv h => absurd h (hother v hv)
      simp [hk.holds, hheld]
    · refine hs.next hs.block (hs.fits t hstart) id (Or.inl rfl) ?_ (fun v hv => ?_)
        (fun _ => hs.grown t hgrown) (fun hq => ?_) (Or.inl ⟨hwritten, rfl⟩)
      · exact iff_of_false nofun (by simp [hcritical.1])
      · exact iff_of_false nofun (hother v hv)
      · rcases hq with hq | hq
        · exact absurd hq hplace.2.1
        · exact absurd hq hplace.2.2.1

omit hsmall in
theorem exact_grow (hp : s.place t = .grow) (h : step calls s t = some u) :
    Exact calls f s t u := by
  have hnot : (s.place t).written = false := by rw [hp]; rfl
  simp only [step, hp, Option.some.injEq] at h
  subst h
  refine ⟨(File.HasBlock.moved (Nat.mod_lt _ (by decide))).length_lt, fun hk => ?_, fun hk hg => ?_⟩
  · obtain ⟨hinside, hcopy⟩ := (Bool.or_eq_false_iff).mp hk.inside
    have hcopy : s.file.Inside 0 s.file.size ∧ s.file.size ≤ (calls t).newSize := by
      simpa using hcopy
    refine ⟨hk.back (fun _ => hinside) id nofun (fun _ hq => by cases hq)
      (fun hr => by rw [hp] at hr; cases hr) fun _ _ hv => hv, fun hst => ?_, fun _ => hcopy.2⟩
    rw [hp] at hst
    cases hst
  · have hs := hinv hk
    have hle := hg.2 hp
    have hheld : s.holder = some t := (hs.holder t).mpr (by rw [hp]; rfl)
    have hinside : s.file.Inside 0 s.file.size := hs.block.inside (by omega)
    constructor
    · refine hk.next ?_ hk.holds (fun _ => hk.fits t (by rw [hp]; decide) hnot) (fun _ => hheld)
        fun _ _ hv => hv
      simp [hk.inside, hinside, hle]
    · exact hs.next (File.HasBlock.moved (Nat.mod_lt _ (by decide)))
        (hs.fits t (by rw [hp]; decide)) (fun _ => rfl) (Or.inr ⟨hle, rfl⟩)
        (iff_of_true hheld rfl) (fun _ _ => Iff.rfl) (fun _ => Nat.le_refl _) (fun _ => rfl)
        (Or.inl ⟨hnot.symm, File.contents_moved hle⟩)

theorem exact_write (hp : s.place t = .write) (h : step calls s t = some u) :
    Exact calls f s t u := by
  have hnot : (s.place t).written = false := by rw [hp]; rfl
  have hgrows : Grows calls s t := by simp [Grows, hp]
  simp only [step, hp, Option.some.injEq] at h
  subst h
  refine ⟨fun b hb => ?_, fun hk => ⟨?_, hgrows⟩, fun hk _ => ?_⟩
  · obtain ⟨b', hb', rfl⟩ := Option.map_eq_some_iff.mp hb
    exact hsmall b' hb'
  · obtain ⟨hinside, hcopy⟩ := (Bool.or_eq_false_iff).mp hk.inside
    have hcopy : s.file.Inside (calls t).offset (calls t).size := by simpa using hcopy
    refine hk.back (fun _ => hinside) id nofun (fun _ _ => ?_)
      (fun hr => by rw [hp] at hr; cases hr) fun _ _ hv => hv
    -- a block is not as large as to hold a range that wraps around
    rcases hcopy with hzero | ⟨b, hb, hle⟩
    · rw [hzero]
      exact (calls t).offset_lt
    · exact hle.trans_lt (hsmall b hb)
  · have hs := hinv hk
    have hheld : s.holder = some t := (hs.holder t).mpr (by rw [hp]; rfl)
    have hfits : (calls t).offset + (calls t).size ≤ s.file.size := by
      rw [← Nat.mod_eq_of_lt (hk.fits t (by rw [hp]; decide) hnot)]
      exact hs.grown t (by rw [hp]; rfl)
    constructor
    · refine hk.next ?_ hk.holds (fun hq => by cases hq) (fun hq => by cases hq) fun _ _ hv => hv
      simp [hk.inside, hs.block.inside hfits]
    · refine hs.next hs.block.written (hs.fits t (by rw [hp]; decide)) (fun h => ?_) (Or.inl rfl)
        (iff_of_true hheld rfl) (fun _ _ => Iff.rfl) (fun _ => hs.grown t (by rw [hp]; rfl))
        (fun hq => ?_) (Or.inr ⟨rfl, hnot, File.contents_written hs.block hfits⟩)
      · simpa [File.written] using h
      · rcases hq with hq | hq <;> cases hq

/-- **A step of either thread.** -/
theorem exact_step (h : step calls s t = some u) : Exact calls f s t u := by
  cases hp : s.place t with
  | start => exact exact_start hsmall hinv hp h
  | acquireToGrow =>
    simp only [step, hp] at h
    split_ifs at h with hfree
    obtain rfl := Option.some.inj h
    exact exact_acquire hsmall hinv hp hfree (Or.inl ⟨rfl, rfl⟩)
  | grow => exact exact_grow hinv hp h
  | releaseGrown =>
    simp only [step, hp, Option.some.injEq] at h
    subst h
    exact exact_release hsmall hinv hp (Or.inl ⟨rfl, rfl⟩)
  | acquireToWrite =>
    simp only [step, hp] at h
    split_ifs at h with hfree
    obtain rfl := Option.some.inj h
    exact exact_acquire hsmall hinv hp hfree (Or.inr ⟨rfl, rfl⟩)
  | write => exact exact_write hsmall hinv hp h
  | releaseWritten =>
    simp only [step, hp, Option.some.injEq] at h
    subst h
    exact exact_release hsmall hinv hp (Or.inr ⟨rfl, rfl⟩)
  | finished =>
    simp only [step, hp] at h
    cases h

end Steps

/-! ### Whole runs -/

/-- Two calls that are finished have been made in one of the two orders. -/
theorem Inv.serial (hs : Inv calls f s) (hf : f.HasBlock)
    (hdone : ∀ t, s.place t = .finished) :
    s.file.Same ((f.tmpfsWriteToFile (calls false)).tmpfsWriteToFile (calls true)) ∨
      s.file.Same ((f.tmpfsWriteToFile (calls true)).tmpfsWriteToFile (calls false)) := by
  obtain ⟨order, hnodup, hmem, hcontents⟩ := hs.contents
  have hfits : ∀ t, (calls t).offset + (calls t).size < 2 ^ 64 := fun t =>
    hs.fits t (by rw [hdone t]; decide)
  have hsize : s.file.size = max f.size (max ((calls false).offset + (calls false).size)
      ((calls true).offset + (calls true).size)) := by
    have hnew : ∀ t, (calls t).newSize = (calls t).offset + (calls t).size := fun t =>
      Nat.mod_eq_of_lt (hfits t)
    have hgrown : ∀ t, (calls t).offset + (calls t).size ≤ s.file.size := fun t => by
      rw [← hnew t]
      exact hs.grown t (by rw [hdone t]; rfl)
    have hle := hs.size_le
    have hfalse := hgrown false
    have htrue := hgrown true
    rcases hs.size_eq with heq | ⟨_ | _, heq⟩
    · omega
    · rw [hnew] at heq
      omega
    · rw [hnew] at heq
      omega
  -- either order makes the file as large as both calls need
  have hserial : ∀ a b, order = [a, b] → max ((calls a).offset + (calls a).size)
      ((calls b).offset + (calls b).size) = max ((calls false).offset + (calls false).size)
        ((calls true).offset + (calls true).size) →
      s.file.Same ((f.tmpfsWriteToFile (calls a)).tmpfsWriteToFile (calls b)) := by
    rintro a b rfl hmax
    obtain ⟨hblock, hsize₁, hbytes₁⟩ := File.tmpfsWriteToFile_spec hf (hfits a)
    obtain ⟨-, hsize₂, hbytes₂⟩ := File.tmpfsWriteToFile_spec hblock (hfits b)
    refine ⟨?_, ?_⟩
    · rw [hsize₂, hsize₁, hsize, ← hmax, Nat.max_assoc]
    · rw [hcontents, hbytes₂, hbytes₁]
      rfl
  have hboth : ∀ t, t ∈ order := fun t => (hmem t).mpr (by rw [hdone t]; rfl)
  have horder : order = [false, true] ∨ order = [true, false] := by
    have hperm : order.Perm [false, true] := (List.perm_ext_iff_of_nodup hnodup (by decide)).mpr
      fun t => iff_of_true (hboth t) (by cases t <;> decide)
    exact List.perm_pair.mp hperm
  rcases horder with heq | heq
  · exact Or.inl (hserial false true heq rfl)
  · exact Or.inr (hserial true false heq (Nat.max_comm _ _))

/-- **Two writes at the same time.** For every file that has its block, any two calls and every
interleaving in which both come to their end: they behave like one after the other exactly when
every step of the run meets the condition. -/
theorem serialises_iff {es : List Bool} (hf : f.HasBlock)
    (hrun : es.foldlM (step calls) (init f) = some s) (hdone : ∀ t, s.place t = .finished) :
    Serialises calls f s ↔ Meets (step calls) (Grows calls) (init f) es := by
  have hinit : Kept calls (init f) :=
    ⟨rfl, rfl, fun _ h => absurd rfl h, fun _ h => by cases h⟩
  let J : State → Prop := fun s =>
    (∀ b ∈ s.file.data, b.length < 2 ^ 64) ∧ (Kept calls s → Inv calls f s)
  have hJ : J (init f) := ⟨hf.length_lt, fun _ => inv_init hf⟩
  have hstep : ∀ s t u, J s → step calls s t = some u →
      J u ∧ (Kept calls u ↔ Kept calls s ∧ Grows calls s t) := by
    intro s t u hs h
    have hexact := exact_step hs.1 hs.2 h
    refine ⟨⟨hexact.small, fun hk => ?_⟩, hexact.back, fun ⟨hk, hg⟩ => (hexact.next hk hg).1⟩
    obtain ⟨hk, hg⟩ := hexact.back hk
    exact (hexact.next hk hg).2
  have hkept : Kept calls s ↔ Meets (step calls) (Grows calls) (init f) es := by
    rw [run_iff_meets (J := fun _ => J) (fun s t _ u => hstep s t u) hJ hrun, and_iff_right hinit]
  have hJs : J s := run_inv (fun s t u hs h => (hstep s t u hs h).1) hJ hrun
  rw [← hkept]
  constructor
  · intro hs
    refine ⟨hs.inside, hs.holds, fun t _ ht => ?_, fun t ht => ?_⟩
    · rw [hdone t] at ht
      cases ht
    · rw [hdone t] at ht
      cases ht
  · intro hk
    exact ⟨(hJs.2 hk).serial hf hdone, hk.inside, hk.holds⟩

/-- A file of four bytes. -/
def fourBytes : File := ⟨4, some ⟨4, fun _ => some 0⟩⟩

/-- Two calls that both make it larger, the one by `true` the larger. -/
def growingCalls : Bool → Call
  | false => ⟨fun _ => 1, 128, 0, by decide⟩
  | true => ⟨fun _ => 2, 128, 128, by decide⟩

/-- Both calls find the file too small, and the one that needs less moves it first. -/
def smallerFirst : List Bool :=
  [false, true] ++ [false, false, false] ++ [true, true, true] ++ [false, false, false] ++
    [true, true, true]

theorem serialises_iff_smallerFirst : ∃ s,
    smallerFirst.foldlM (step growingCalls) (init fourBytes) = some s ∧
      Serialises growingCalls fourBytes s := by
  have hrun : smallerFirst.foldlM (step growingCalls) (init fourBytes) = some _ := rfl
  have hf : fourBytes.HasBlock := ⟨Option.some_ne_none _ |>.elim, by decide, by decide⟩
  exact ⟨_, hrun, (serialises_iff hf hrun (by decide)).mpr (meets_of_checkMeets (by decide))⟩

/-- **The one that needs more moves it first**: 256 bytes are copied into a block of 128, and the
file ends up with 128 bytes. -/
theorem not_serialises_largerFirst : ∃ s,
    ([false, true] ++ [true, true, true] ++ [false, false, false] ++ [false, false, false] ++
      [true, true, true]).foldlM (step growingCalls) (init fourBytes) = some s ∧
      (∀ t, s.place t = .finished) ∧ ¬Serialises growingCalls fourBytes s ∧ s.file.size = 128 := by
  refine ⟨_, rfl, by decide, fun h => ?_, rfl⟩
  exact absurd h.inside (by decide)

end Concurrent

end Tmpfs

end WillowOS
