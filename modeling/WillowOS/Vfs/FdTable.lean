import Mathlib.Data.Nat.Digits.Defs
import Mathlib.Tactic.IntervalCases
import WillowOS.Lib.Run
import WillowOS.Heap.Chunk
import WillowOS.Vfs.OaHash

/-!
# File descriptors

A thread's descriptors are numbers, and its table is an `oa_hash` of 32 buckets whose keys
are these numbers, printed in decimal into buffers of their own. `vfs_fdopen` tries the
number of descriptors there are, and if that is taken looks for one from `0` on. It frees
the buffer of the key in that second case, and `oa_hash_remove` frees it again.

The state keeps the nodes of the heap next to the table: whether a key still reads as it was
printed depends on whether its buffer is ever handed out again. The path is resolved before
anything else is done, so its vnode is an argument here, and what resolving it does to the
heap is other code's, as are the calls of other threads. A call is `none` when it does not
come back: an assertion fails, or there is no memory for the file or for a key.
-/

namespace WillowOS

namespace Vfs

open Heap OaHash

/-! ### Numbers as text -/

/-- The decimal digits of a number, as characters. -/
def digits (n : ℕ) : List UInt8 :=
  if n = 0 then [48] else (Nat.digits 10 n).reverse.map fun d => 48 + UInt8.ofNat d

/-- What `npf_snprintf` prints for `%d`. -/
def decimal : ℤ → List UInt8
  | .ofNat n => digits n
  | .negSucc n => 45 :: digits (n + 1)

theorem digits_ne_nil {n : ℕ} : digits n ≠ [] := by
  rw [digits]
  split_ifs with h
  · nofun
  · simpa using Nat.digits_ne_nil_iff_ne_zero.mpr h

/-- A digit read back. -/
theorem toNat_digit {d : ℕ} (hd : d < 10) : (48 + UInt8.ofNat d - 48).toNat = d := by
  interval_cases d <;> rfl

/-- No digit is a minus sign. -/
theorem minus_notMem_digits {n : ℕ} : 45 ∉ digits n := by
  rw [digits]
  split_ifs
  · decide
  · rw [List.mem_map]
    rintro ⟨d, hd, he⟩
    have hlt : d < 10 := Nat.digits_lt_base (by decide) (List.mem_reverse.mp hd)
    interval_cases d <;> cases he

/-- The number read back from its digits. -/
theorem ofDigits_digits {n : ℕ} :
    Nat.ofDigits 10 ((digits n).reverse.map fun c => (c - 48).toNat) = n := by
  rw [digits]
  split_ifs with h
  · rw [h]
    rfl
  · have hback : ((Nat.digits 10 n).map fun d => 48 + UInt8.ofNat d).map
        (fun c => (c - 48).toNat) = Nat.digits 10 n := by
      rw [List.map_map]
      refine (List.map_congr_left fun d hd => ?_).trans (List.map_id _)
      exact toNat_digit (Nat.digits_lt_base (by decide) hd)
    rw [← List.map_reverse, List.reverse_reverse, hback, Nat.ofDigits_digits]

theorem digits_injective : Function.Injective digits := by
  intro m n h
  rw [← @ofDigits_digits m, h, ofDigits_digits]

theorem decimal_ne_nil {n : ℤ} : decimal n ≠ [] := by
  cases n with
  | ofNat n => exact digits_ne_nil
  | negSucc n => nofun

/-- **Different numbers are printed differently.** -/
theorem decimal_injective : Function.Injective decimal := by
  -- only negative numbers have a minus sign
  have hsign : ∀ m n : ℕ, decimal (.ofNat m) ≠ decimal (.negSucc n) := fun m n h =>
    minus_notMem_digits (h ▸ List.mem_cons_self : (45 : UInt8) ∈ decimal (.ofNat m))
  intro a b h
  cases a with
  | ofNat m =>
    cases b with
    | ofNat n => exact congrArg _ (digits_injective h)
    | negSucc n => exact absurd h (hsign m n)
  | negSucc m =>
    cases b with
    | ofNat n => exact absurd h.symm (hsign n m)
    | negSucc n =>
      have := digits_injective (List.cons.inj h).2
      exact congrArg _ (Nat.succ.inj this)

/-! ### The state -/

/-- `mutex_t`. -/
structure MutexT where
  locked : Bool
  object : ℕ

/-- `struct vfs_file`; pointers are addresses. -/
structure VfsFile where
  vnode : ℕ
  mutex : MutexT
  fileOps : ℕ
  flags : ℤ
  mode : ℤ
  position : ℕ
  absPath : ℕ

/-- The state a thread's descriptors depend on. -/
structure State where
  /-- The nodes of the heap. -/
  heap : List HeapPage
  /-- The buffers of the keys. -/
  text : Text
  /-- The files, by address. -/
  files : ℕ → VfsFile
  /-- The thread's `fd_table`. -/
  fdTable : Table
  schedulingStarted : Bool

/-- `sizeof(vfs_file_t)`. -/
def sizeofVfsFile : ℕ := 56

/-- `sizeof(vfs_file_ops_t)`. -/
def sizeofVfsFileOps : ℕ := 48

/-- `sizeof(struct oa_hash_entry)`. -/
def sizeofOaHashEntry : ℕ := 32

/-- A buffer written to. -/
def State.print (s : State) (buf : ℕ) (t : List UInt8) : State :=
  { s with text := Function.update s.text buf t }

/-- `kfree`. -/
def State.kfree (s : State) (virtAddress : ℕ) : Option State :=
  (Heap.kfree s.heap virtAddress).map fun h => { s with heap := h }

/-- `oa_hash_set` on the table, whose result nobody looks at. -/
def State.oaHashSet (s : State) (buf len file : ℕ) : State :=
  { s with fdTable := (OaHash.oaHashSet s.fdTable s.text buf len file).2 }

/-- `kmalloc_byte(64)` and `npf_snprintf(buf, 64, "%d", fd)`: the buffer. -/
def printKey (s : State) (fd : ℤ) : Option (ℕ × State) :=
  let r := kmallocByte s.heap 64
  if r.1 = 0 then none else some (r.1, { s with heap := r.2 }.print r.1 (decimal fd))

/-! ### Opening -/

/-- The file `vfs_fdopen` makes. -/
def newFile (v fileOps : ℕ) (flags mode : ℤ) : VfsFile :=
  ⟨v, ⟨false, 0⟩, fileOps, flags, mode, 0, 0⟩

/-- The part of `vfs_fdopen` that allocates the file and fills it in. Nothing is stored
through `file_ops`, so that one may be `NULL`. -/
def createFile (s : State) (v : ℕ) (flags mode : ℤ) : Option (ℕ × State) :=
  let fd := kmallocByte s.heap sizeofVfsFile
  if fd.1 = 0 then none
  else
    let ops := kmallocByte fd.2 sizeofVfsFileOps
    some (fd.1, { s with
      heap := ops.2
      files := Function.update s.files fd.1 (newFile v ops.1 flags mode) })

/-- The part of `vfs_fdopen` that grows the table. After a rehash that went well the table
has its new buckets already, so the assertion on the old ones fails. -/
def growFdTable (s : State) : Option State :=
  if s.fdTable.length = 33 then
    let new := kmallocByte s.heap (sizeofOaHashEntry * (s.fdTable.capacity + 32))
    let old := oaHashRehash s.fdTable s.text new.1 (s.fdTable.capacity + 32)
    let s := { s with heap := new.2, fdTable := old.2 }
    if old.1 ≠ 0 then
      if old.1 = s.fdTable.buckets then
        { s with fdTable := { s.fdTable with buckets := new.1 } }.kfree old.1
      else none
    else s.kfree new.1
  else some s

/-- The loop of `vfs_fdopen` over the numbers from `i` on, `n` of them. Past the last one
the function ends without returning anything. -/
def takeFree (s : State) (buf file : ℕ) : ℕ → ℕ → Option (ℤ × State)
  | 0, _ => none
  | n + 1, i =>
    let s := s.print buf (decimal i)
    if oaHashGet s.fdTable s.text buf (decimal i).length = 0 then
      ((s.oaHashSet buf (decimal i).length file).kfree buf).map fun s => ((i : ℤ), s)
    else takeFree s buf file n (i + 1)

/-- The part of `vfs_fdopen` that chooses the descriptor. -/
def insertFd (s : State) (file : ℕ) : Option (ℤ × State) :=
  let htlen : ℤ := s.fdTable.length
  (printKey s htlen).bind fun (buf, s) =>
    if oaHashGetEntry s.fdTable s.text buf (decimal htlen).length = none then
      some (htlen, s.oaHashSet buf (decimal htlen).length file)
    else takeFree s buf file s.fdTable.capacity 0

/-- `vfs_fdopen`, for a path that resolves to the vnode `v`. -/
def vfsFdopen (s : State) (v : ℕ) (flags mode : ℤ) : Option (ℤ × State) :=
  if s.schedulingStarted = false then some (-1, s)
  else if v = 0 then none
  else
    (createFile s v flags mode).bind fun (file, s) =>
      (growFdTable s).bind fun s => insertFd s file

/-! ### Closing, and looking up -/

/-- `oa_hash_remove` on the table, with its `kfree` of the key. -/
def State.oaHashRemove (s : State) (buf len : ℕ) : Option State :=
  match OaHash.oaHashRemove s.fdTable s.text buf len with
  | none => some s
  | some (keyBuf, ht) => { s with fdTable := ht }.kfree keyBuf

/-- `if (p != NULL) kfree(p)`. -/
def State.kfreeIfSet (s : State) (p : ℕ) : Option State := if p ≠ 0 then s.kfree p else some s

/-- The end of `vfs_fdclose`, which frees the file. -/
def freeFile (s : State) (file : ℕ) : Option State :=
  if file ≠ 0 then
    (s.kfreeIfSet (s.files file).absPath).bind fun s =>
      (s.kfreeIfSet (s.files file).fileOps).bind fun s => s.kfree file
  else some s

/-- `vfs_fdclose`. -/
def vfsFdclose (s : State) (fd : ℤ) : Option State :=
  (printKey s fd).bind fun (buf, s) =>
    let file := oaHashGet s.fdTable s.text buf (decimal fd).length
    (s.oaHashRemove buf (decimal fd).length).bind fun s =>
      (s.kfree buf).bind fun s => freeFile s file

/-- `vfs_int_fd_to_vfs_file`, which asserts that there is a file. -/
def vfsIntFdToVfsFile (s : State) (fd : ℤ) : Option (ℕ × State) :=
  (printKey s fd).bind fun (buf, s) =>
    let file := oaHashGet s.fdTable s.text buf (decimal fd).length
    if file ≠ 0 then (s.kfree buf).map fun s => (file, s) else none

/-! ### Runs -/

/-- What happens to the state: the calls of the thread, and requests to the heap by other
code. -/
inductive Event
  | vfsFdopen (v : ℕ) (flags mode : ℤ)
  | vfsFdclose (fd : ℤ)
  | vfsIntFdToVfsFile (fd : ℤ)
  | kmalloc (size : ℕ)
  | kfree (virtAddress : ℕ)

/-- **One step.** -/
def step (s : State) : Event → Option State
  | .vfsFdopen v flags mode => (vfsFdopen s v flags mode).map Prod.snd
  | .vfsFdclose fd => vfsFdclose s fd
  | .vfsIntFdToVfsFile fd => (vfsIntFdToVfsFile s fd).map Prod.snd
  | .kmalloc size => some { s with heap := (Heap.kmalloc s.heap size).2 }
  | .kfree virtAddress => s.kfree virtAddress

/-- A thread with the table `create_thread` gives it, at the address `buckets`. -/
def init (text : Text) (files : ℕ → VfsFile) (buckets : ℕ) : State :=
  ⟨initHeap, text, files, oaHashInit buckets 32, true⟩

end Vfs

end WillowOS
