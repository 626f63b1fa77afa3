import WillowOS.Lib.CString
import WillowOS.Lib.Stores
import Mathlib.Data.List.Forall2

/-!
# The first stack of a program

`com_sys_elf64_prepare_stack` lays out what a program finds on its stack: from the stack pointer
upwards the number of its arguments, pointers to them, pointers to the environment, and the
auxiliary vector; and above all that the strings themselves.

The function works downwards. It copies the strings, first those of the environment, and forgets
where; the pointers are found again later by adding up the lengths from the end of the stack. In
between it rounds the stack pointer down to 16 bytes and skips a word if that is what makes the
number of words even. At last it fills a hundred words with a pattern, three hundred words below.

Nothing of what is written is read, so the function is modelled by its stores, in their order, and
by the address it returns. No two stores overlap (`WillowOS.Loader.area_prepareStack`), so that all
of them are there in the end: **`WillowOS.Loader.comSysElf64PrepareStack_layout`**.

The strings are given by their bytes: where they are copied from is outside of the stack. The
addresses do not wrap around, since there is room below the end of the stack.
-/

namespace WillowOS

namespace Loader

/-- `com_elf_data_t`, without the path of the interpreter. -/
structure ComElfData where
  entry : UInt64
  phdr : UInt64
  phentSz : UInt64
  phentNum : UInt64

/-- `AT_PHDR`. -/
def atPhdr : ℕ := 3

/-- `AT_PHENT`. -/
def atPhent : ℕ := 4

/-- `AT_PHNUM`. -/
def atPhnum : ℕ := 5

/-- `AT_ENTRY`. -/
def atEntry : ℕ := 9

/-- The first two loops, over the strings of the environment and over the arguments: the stack
pointer goes down by the length of a string, and the string is copied there. -/
def copyStrings (stackptr : ℕ) : List CString → ℕ × List Store
  | [] => (stackptr, [])
  | s :: ss =>
    let len := s.length + 1
    let stackptr := stackptr - len
    let r := copyStrings stackptr ss
    (r.1, ⟨stackptr, s.terminated⟩ :: r.2)

/-- `PUSH(x)`, for each of the words in turn. -/
def push (stackptr : ℕ) : List ℕ → ℕ × List Store
  | [] => (stackptr, [])
  | x :: xs =>
    let stackptr := stackptr - 8
    let r := push stackptr xs
    (r.1, ⟨stackptr, le64 x⟩ :: r.2)

/-- The two loops that store pointers, `stackptr[i] = stack_end_virt - (off += strlen(..) + 1)`. -/
def storePointers (stackEndVirt : ℕ) : ℕ → ℕ → List CString → ℕ × List Store
  | _, off, [] => (off, [])
  | a, off, s :: ss =>
    let off := off + (s.length + 1)
    let r := storePointers stackEndVirt (a + 8) off ss
    (r.1, ⟨a, le64 (stackEndVirt - off)⟩ :: r.2)

/-- The words pushed after the strings, in the order in which they are pushed. -/
def auxiliary (elfData : ComElfData) : List ℕ :=
  [0, 0, elfData.entry.toNat, atEntry, elfData.phdr.toNat, atPhdr, elfData.phentSz.toNat, atPhent,
    elfData.phentNum.toNat, atPhnum]

/-- `com_sys_elf64_prepare_stack`: the address returned, and the stores. -/
def comSysElf64PrepareStack (elfData : ComElfData) (stackEndVirt : ℕ) (argv envp : List CString) :
    ℕ × List Store :=
  let orig := stackEndVirt
  let envc := envp.length
  let (stackptr, envStrings) := copyStrings stackEndVirt envp
  let argc := argv.length
  let (stackptr, argStrings) := copyStrings stackptr argv
  -- `stackptr & (~0xF)`
  let stackptr := stackptr / 16 * 16
  let stackptr := if (argc + envc + 1) % 2 ≠ 0 then stackptr - 8 else stackptr
  let (stackptr, auxiliary) := push stackptr (auxiliary elfData)
  let (stackptr, envNull) := push stackptr [0]
  let stackptr := stackptr - 8 * envc
  let (off, envPointers) := storePointers stackEndVirt stackptr 0 envp
  let (stackptr, argNull) := push stackptr [0]
  let stackptr := stackptr - 8 * argc
  let (_, argPointers) := storePointers stackEndVirt stackptr off argv
  let (stackptr, count) := push stackptr [argc]
  let (_, pattern) := push (stackptr - 8 * 300) (List.replicate 100 0xDEADBEEFCAFEBABE)
  (stackEndVirt - (orig - stackptr),
    envStrings ++ argStrings ++ auxiliary ++ envNull ++ envPointers ++ argNull ++ argPointers ++
      count ++ pattern)

/-! ### What is to be found -/

/-- The bytes that strings take, with the zeros that end them. -/
def stringBytes (ss : List CString) : ℕ := (ss.map fun s => s.length + 1).sum

/-- The number of words between the strings and the stack pointer, with the one that is skipped. -/
def vectorWords (argc envc : ℕ) : ℕ := 13 + argc + envc + (argc + envc + 1) % 2

/-- There is room for all stores, the pattern included. -/
def EnoughRoom (stackEndVirt : ℕ) (argv envp : List CString) : Prop :=
  stringBytes envp + stringBytes argv ≤ stackEndVirt ∧
    8 * (vectorWords argv.length envp.length + 400) ≤
      (stackEndVirt - (stringBytes envp + stringBytes argv)) / 16 * 16

/-- The pointers lead to copies of the strings. -/
def PointTo (m : Mem) (pointers : List ℕ) (ss : List CString) : Prop :=
  List.Forall₂ (fun p s => m.BytesAt p s.terminated) pointers ss

/-- The auxiliary vector, as it is read. -/
def auxv (elfData : ComElfData) : List ℕ :=
  [atPhnum, elfData.phentNum.toNat, atPhent, elfData.phentSz.toNat, atPhdr, elfData.phdr.toNat,
    atEntry, elfData.entry.toNat, 0, 0]

/-- The pointers to strings that are copied one below the other, `off` bytes below the end of the
stack. -/
def pointers (stackEndVirt : ℕ) : ℕ → List CString → List ℕ
  | _, [] => []
  | off, s :: ss =>
    (stackEndVirt - (off + (s.length + 1))) :: pointers stackEndVirt (off + (s.length + 1)) ss

/-- The stores of strings, each at its pointer. -/
def stringStores (ps : List ℕ) (ss : List CString) : List Store :=
  (ps.zip ss).map fun x => ⟨x.1, x.2.terminated⟩

/-! ### The loops -/

section Loops

variable {stackEndVirt stackptr off a : ℕ} {s : CString} {ss : List CString} {xs : List ℕ}

@[simp]
theorem stringBytes_nil : stringBytes [] = 0 := rfl

@[simp]
theorem stringBytes_cons : stringBytes (s :: ss) = s.length + 1 + stringBytes ss := rfl

@[simp]
theorem length_pointers : (pointers stackEndVirt off ss).length = ss.length := by
  induction ss generalizing off with
  | nil => rfl
  | cons s ss ih => rw [pointers, List.length_cons, ih, List.length_cons]

theorem pointers_le {p : ℕ} (hp : p ∈ pointers stackEndVirt off ss) : p ≤ stackEndVirt := by
  induction ss generalizing off with
  | nil => cases hp
  | cons s ss ih =>
    rcases List.mem_cons.mp hp with rfl | hp
    · exact Nat.sub_le _ _
    · exact ih hp

/-- **The strings are where the pointers will say.** -/
theorem copyStrings_eq (h : off + stringBytes ss ≤ stackEndVirt) :
    copyStrings (stackEndVirt - off) ss = (stackEndVirt - (off + stringBytes ss),
      stringStores (pointers stackEndVirt off ss) ss) := by
  induction ss generalizing off with
  | nil => rfl
  | cons s ss ih =>
    rw [stringBytes_cons, ← Nat.add_assoc] at h ⊢
    rw [copyStrings, Nat.sub_sub, ih h, pointers]
    rfl

theorem area_copyStrings (h : stringBytes ss ≤ stackptr) :
    Area (stackptr - stringBytes ss) stackptr (copyStrings stackptr ss).2 := by
  induction ss generalizing stackptr with
  | nil => exact Area.nil
  | cons s ss ih =>
    rw [stringBytes_cons] at h ⊢
    rw [copyStrings]
    have hrest := @ih (stackptr - (s.length + 1)) (by omega)
    rw [Nat.sub_sub] at hrest
    refine Area.append (b := stackptr - (s.length + 1)) (Area.single le_rfl ?_) hrest (by omega)
      (Nat.sub_le _ _)
    show stackptr - (s.length + 1) + s.terminated.length ≤ stackptr
    rw [CString.length_terminated]
    omega

theorem storePointers_eq : storePointers stackEndVirt a off ss =
    (off + stringBytes ss, wordStores a (pointers stackEndVirt off ss)) := by
  induction ss generalizing a off with
  | nil => rfl
  | cons s ss ih =>
    rw [storePointers, ih, stringBytes_cons, Nat.add_assoc off (s.length + 1)]
    rfl

/-- What is pushed is found from the last word to the first. -/
theorem push_eq : push (a + 8 * xs.length) xs = (a, (wordStores a xs.reverse).reverse) := by
  induction xs generalizing a with
  | nil => rfl
  | cons x xs ih =>
    have hsp : a + 8 * (x :: xs).length - 8 = a + 8 * xs.length := by
      rw [List.length_cons]
      omega
    rw [push, hsp, ih, List.reverse_cons, wordStores_append, List.reverse_append,
      List.length_reverse]
    rfl

theorem push_single {x : ℕ} : push (a + 8) [x] = (a, wordStores a [x]) := @push_eq a [x]

end Loops

/-! ### The function -/

section PrepareStack

variable {stackEndVirt : ℕ} {argv envp : List CString} {elfData : ComElfData}

/-- The address returned. -/
def vectorAddress (stackEndVirt : ℕ) (argv envp : List CString) : ℕ :=
  (stackEndVirt - (stringBytes envp + stringBytes argv)) / 16 * 16 -
    8 * vectorWords argv.length envp.length

/-- The pattern, three hundred words below. -/
def patternStores (sp : ℕ) : List Store :=
  (wordStores (sp - 8 * 400) (List.replicate 100 0xDEADBEEFCAFEBABE)).reverse

/-- The stores below the strings, for a stack pointer `sp` in the end. -/
def vectorStores (sp : ℕ) (elfData : ComElfData) (argvPointers envpPointers : List ℕ) :
    List Store :=
  (wordStores (sp + 8 * (3 + argvPointers.length + envpPointers.length)) (auxv elfData)).reverse ++
    wordStores (sp + 8 * (2 + argvPointers.length + envpPointers.length)) [0] ++
    wordStores (sp + 8 * (2 + argvPointers.length)) envpPointers ++
    wordStores (sp + 8 * (1 + argvPointers.length)) [0] ++
    wordStores (sp + 8) argvPointers ++ wordStores sp [argvPointers.length]

/-- **The function, with its loops replaced by what they store.** -/
theorem comSysElf64PrepareStack_eq (h : EnoughRoom stackEndVirt argv envp) :
    comSysElf64PrepareStack elfData stackEndVirt argv envp =
      (vectorAddress stackEndVirt argv envp,
        stringStores (pointers stackEndVirt 0 envp) envp ++
        stringStores (pointers stackEndVirt (stringBytes envp) argv) argv ++
        vectorStores (vectorAddress stackEndVirt argv envp) elfData
          (pointers stackEndVirt (stringBytes envp) argv) (pointers stackEndVirt 0 envp) ++
        patternStores (vectorAddress stackEndVirt argv envp)) := by
  obtain ⟨hstrings, hroom⟩ := h
  have henv := @copyStrings_eq stackEndVirt 0 envp (by omega)
  have harg := @copyStrings_eq stackEndVirt (stringBytes envp) argv hstrings
  rw [Nat.sub_zero, Nat.zero_add] at henv
  rw [vectorStores, patternStores, length_pointers, length_pointers]
  -- the stack pointer between the strings and the words
  generalize hsp : vectorAddress stackEndVirt argv envp = sp
  have htop : (stackEndVirt - (stringBytes envp + stringBytes argv)) / 16 * 16 =
      sp + 8 * vectorWords argv.length envp.length := by
    rw [← hsp, vectorAddress]
    omega
  rw [htop] at hroom
  have hskip : (if (argv.length + envp.length + 1) % 2 ≠ 0 then
      sp + 8 * vectorWords argv.length envp.length - 8
      else sp + 8 * vectorWords argv.length envp.length) =
        sp + 8 * (3 + argv.length + envp.length) + 8 * (auxiliary elfData).length := by
    rw [vectorWords, show (auxiliary elfData).length = 10 from rfl]
    split_ifs <;> omega
  have henvNull : sp + 8 * (3 + argv.length + envp.length) =
      sp + 8 * (2 + argv.length + envp.length) + 8 := by omega
  have henvp : sp + 8 * (2 + argv.length + envp.length) - 8 * envp.length =
      sp + 8 * (1 + argv.length) + 8 := by omega
  have hargv : sp + 8 * (1 + argv.length) - 8 * argv.length = sp + 8 := by omega
  have hpattern : sp - 8 * 300 =
      sp - 8 * 400 + 8 * (List.replicate 100 0xDEADBEEFCAFEBABE).length := by
    rw [List.length_replicate]
    omega
  have hreturn : stackEndVirt - (stackEndVirt - sp) = sp := by omega
  have hvector : sp + 8 * (2 + argv.length) = sp + 8 * (1 + argv.length) + 8 := by omega
  have haux : (auxiliary elfData).reverse = auxv elfData := rfl
  unfold comSysElf64PrepareStack
  simp only [henv, harg, htop, hskip, push_eq, henvNull, push_single, henvp, storePointers_eq,
    hargv, hpattern, hreturn, hvector, haux, List.append_assoc, List.reverse_replicate,
    Nat.zero_add]

theorem area_vectorStores (sp : ℕ) (elfData : ComElfData) (argvPointers envpPointers : List ℕ) :
    Area sp (sp + 8 * (13 + argvPointers.length + envpPointers.length))
      (vectorStores sp elfData argvPointers envpPointers) := by
  have haux := (area_wordStores (sp + 8 * (3 + argvPointers.length + envpPointers.length))
    (auxv elfData)).reverse
  have henvNull := area_wordStores (sp + 8 * (2 + argvPointers.length + envpPointers.length)) [0]
  have henvp := area_wordStores (sp + 8 * (2 + argvPointers.length)) envpPointers
  have hargNull := area_wordStores (sp + 8 * (1 + argvPointers.length)) [0]
  have hargv := area_wordStores (sp + 8) argvPointers
  have hargc := area_wordStores sp [argvPointers.length]
  rw [show (auxv elfData).length = 10 from rfl] at haux
  rw [List.length_singleton] at henvNull hargNull hargc
  refine (((((haux.mono le_rfl ?_).append (henvNull.mono le_rfl ?_) ?_ ?_).append
    (henvp.mono le_rfl ?_) ?_ ?_).append (hargNull.mono le_rfl ?_) ?_ ?_).append
    (hargv.mono le_rfl ?_) ?_ ?_).append (hargc.mono le_rfl ?_) ?_ ?_ <;> omega

/-- There is room for the pattern below the vector. -/
theorem EnoughRoom.le_vectorAddress (h : EnoughRoom stackEndVirt argv envp) :
    8 * 400 ≤ vectorAddress stackEndVirt argv envp := by
  have hroom := h.2
  rw [vectorAddress]
  rw [Nat.mul_add] at hroom
  exact Nat.le_sub_of_add_le (by rw [Nat.add_comm]; exact hroom)

theorem area_patternStores {sp : ℕ} (h : 8 * 400 ≤ sp) : Area 0 sp (patternStores sp) := by
  have hwords := area_wordStores (sp - 8 * 400) (List.replicate 100 0xDEADBEEFCAFEBABE)
  rw [List.length_replicate] at hwords
  exact hwords.reverse.mono (Nat.zero_le _) (by omega)

/-- **No two stores overlap**: each part is below the one before. -/
theorem area_prepareStack (h : EnoughRoom stackEndVirt argv envp) :
    Area 0 stackEndVirt (comSysElf64PrepareStack elfData stackEndVirt argv envp).2 := by
  rw [comSysElf64PrepareStack_eq h]
  obtain ⟨hstrings, hroom⟩ := h
  have henv := @area_copyStrings stackEndVirt envp (by omega)
  have harg := @area_copyStrings (stackEndVirt - stringBytes envp) argv (by omega)
  have hcopyEnv := @copyStrings_eq stackEndVirt 0 envp (by omega)
  have hcopyArg := @copyStrings_eq stackEndVirt (stringBytes envp) argv hstrings
  rw [Nat.sub_zero, Nat.zero_add] at hcopyEnv
  rw [hcopyEnv] at henv
  rw [hcopyArg] at harg
  have hvector := area_vectorStores (vectorAddress stackEndVirt argv envp) elfData
    (pointers stackEndVirt (stringBytes envp) argv) (pointers stackEndVirt 0 envp)
  have hpattern := area_patternStores (EnoughRoom.le_vectorAddress ⟨hstrings, hroom⟩)
  rw [length_pointers, length_pointers] at hvector
  have htop : vectorAddress stackEndVirt argv envp + 8 * (13 + argv.length + envp.length) ≤
      stackEndVirt - stringBytes envp - stringBytes argv := by
    rw [vectorAddress, vectorWords] at *
    omega
  exact ((henv.append harg (Nat.sub_le _ _) (Nat.sub_le _ _)).append
    (hvector.mono le_rfl htop) (by omega) (by omega)).append hpattern (Nat.zero_le _) (by omega)

/-- The words from the stack pointer on are among the stores. -/
theorem wordStores_subset_vectorStores (sp : ℕ) (elfData : ComElfData)
    (argvPointers envpPointers : List ℕ) :
    wordStores sp (argvPointers.length :: argvPointers ++ 0 :: envpPointers ++ 0 :: auxv elfData) ⊆
      vectorStores sp elfData argvPointers envpPointers := by
  have hargNull : sp + 8 * (argvPointers.length :: argvPointers).length =
      sp + 8 * (1 + argvPointers.length) := by
    rw [List.length_cons]
    omega
  have henvNull : sp + 8 * (argvPointers.length :: argvPointers ++ 0 :: envpPointers).length =
      sp + 8 * (2 + argvPointers.length + envpPointers.length) := by
    rw [List.length_append, List.length_cons, List.length_cons]
    omega
  have henvp : sp + 8 * (1 + argvPointers.length) + 8 = sp + 8 * (2 + argvPointers.length) := by
    omega
  have haux : sp + 8 * (2 + argvPointers.length + envpPointers.length) + 8 =
      sp + 8 * (3 + argvPointers.length + envpPointers.length) := by omega
  rw [wordStores_append, wordStores_append, hargNull, henvNull, vectorStores]
  intro w hw
  simp only [wordStores, List.cons_append, List.mem_append, List.mem_cons, List.mem_reverse,
    List.not_mem_nil, or_false] at hw ⊢
  rw [henvp, haux] at hw
  rcases hw with hw | (hw | hw | hw) | hw | hw <;> simp only [hw, true_or, or_true]

/-- Stores of strings, among others that do not overlap. -/
theorem pointTo_stores {m : Mem} {ws : List Store} {ps : List ℕ} {ss : List CString}
    (hws : ws.Pairwise Store.Disjoint) (hlen : ps.length = ss.length)
    (hsub : stringStores ps ss ⊆ ws) : PointTo (m.stores ws) ps ss := by
  refine List.forall₂_iff_zip.mpr ⟨hlen, fun {p s} hps => ?_⟩
  have hmem : (⟨p, s.terminated⟩ : Store) ∈ ws := hsub (List.mem_map.mpr ⟨(p, s), hps, rfl⟩)
  exact Mem.bytesAt_stores hws hmem

/-- The number of words is even. -/
theorem vectorAddress_mod (h : EnoughRoom stackEndVirt argv envp) :
    vectorAddress stackEndVirt argv envp % 16 = 0 := by
  have hroom := h.2
  rw [vectorAddress]
  rw [Nat.mul_add] at hroom
  have heven : vectorWords argv.length envp.length % 2 = 0 := by
    rw [vectorWords]
    omega
  omega

/-- All words of the vector are 64-bit words. -/
theorem lt_of_mem_vector (hend : stackEndVirt < 2 ^ 64) (h : EnoughRoom stackEndVirt argv envp)
    (off : ℕ) {v : ℕ} (hv : v ∈ argv.length :: pointers stackEndVirt off argv ++
      0 :: pointers stackEndVirt 0 envp ++ 0 :: auxv elfData) : v < 2 ^ 64 := by
  have hroom := h.2
  rw [vectorWords] at hroom
  have hargc : argv.length < 2 ^ 64 := by omega
  simp only [List.cons_append, List.append_assoc, List.mem_cons, List.mem_append] at hv
  rcases hv with rfl | hv | rfl | hv | rfl | hv
  · exact hargc
  · exact (pointers_le hv).trans_lt hend
  · decide
  · exact (pointers_le hv).trans_lt hend
  · decide
  · simp only [auxv, List.mem_cons, List.not_mem_nil, or_false] at hv
    rcases hv with rfl | rfl | rfl | rfl | rfl | rfl | rfl | rfl | rfl | rfl
    all_goals first | exact UInt64.toNat_lt _ | decide

end PrepareStack

/-- **The first stack of a program is as it should be.** For all arguments, all environments and
all stacks with enough room, the address returned is a multiple of 16; from it on there are the
number of arguments, pointers to copies of them, a zero, pointers to copies of the strings of the
environment, a zero, and the auxiliary vector; and no store overlaps another one, so that none of
all this is overwritten. -/
theorem comSysElf64PrepareStack_layout (m : Mem) (elfData : ComElfData) (stackEndVirt : ℕ)
    (argv envp : List CString) (hend : stackEndVirt < 2 ^ 64)
    (hroom : EnoughRoom stackEndVirt argv envp) :
    (comSysElf64PrepareStack elfData stackEndVirt argv envp).1 % 16 = 0 ∧
    (∃ argvPointers envpPointers,
      PointTo (m.stores (comSysElf64PrepareStack elfData stackEndVirt argv envp).2)
        argvPointers argv ∧
      PointTo (m.stores (comSysElf64PrepareStack elfData stackEndVirt argv envp).2)
        envpPointers envp ∧
      (m.stores (comSysElf64PrepareStack elfData stackEndVirt argv envp).2).WordsAt
        (comSysElf64PrepareStack elfData stackEndVirt argv envp).1
        (argv.length :: argvPointers ++ 0 :: envpPointers ++ 0 :: auxv elfData)) ∧
    (comSysElf64PrepareStack elfData stackEndVirt argv envp).2.Pairwise Store.Disjoint := by
  have hapart := (@area_prepareStack stackEndVirt argv envp elfData hroom).apart
  rw [comSysElf64PrepareStack_eq hroom] at hapart ⊢
  refine ⟨vectorAddress_mod hroom, ⟨pointers stackEndVirt (stringBytes envp) argv,
    pointers stackEndVirt 0 envp, ?_, ?_, ?_⟩, hapart⟩
  · refine pointTo_stores hapart length_pointers fun w hw => ?_
    exact List.mem_append_left _ (List.mem_append_left _ (List.mem_append_right _ hw))
  · refine pointTo_stores hapart length_pointers fun w hw => ?_
    exact List.mem_append_left _ (List.mem_append_left _ (List.mem_append_left _ hw))
  · refine Mem.wordsAt_stores hapart (fun w hw => ?_) fun v hv => lt_of_mem_vector hend hroom _ hv
    have hsub := wordStores_subset_vectorStores (vectorAddress stackEndVirt argv envp) elfData
      (pointers stackEndVirt (stringBytes envp) argv) (pointers stackEndVirt 0 envp)
    rw [length_pointers] at hsub
    exact List.mem_append_left _ (List.mem_append_right _ (hsub hw))

/-- One argument, `a`, and two strings in the environment. -/
theorem comSysElf64PrepareStack_layout_small :
    EnoughRoom 0x8000 [⟨[0x61], by decide⟩] [⟨[0x62, 0x3d], by decide⟩, ⟨[], by decide⟩] ∧
    (comSysElf64PrepareStack ⟨0x400000, 0x400040, 56, 2⟩ 0x8000 [⟨[0x61], by decide⟩]
      [⟨[0x62, 0x3d], by decide⟩, ⟨[], by decide⟩]).1 % 16 = 0 :=
  ⟨⟨by decide, by decide⟩, (comSysElf64PrepareStack_layout (fun _ => 0)
    ⟨0x400000, 0x400040, 56, 2⟩ 0x8000 [⟨[0x61], by decide⟩]
    [⟨[0x62, 0x3d], by decide⟩, ⟨[], by decide⟩] (by decide) ⟨by decide, by decide⟩).1⟩

end Loader

end WillowOS
