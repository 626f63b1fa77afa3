import WillowOS.Heap.Realloc
import WillowOS.Lib.Stores
import WillowOS.Vfs.Path

/-!
# Opening a relative path

For a path that does not begin with a slash, `vfs_fdopen` duplicates the path with `strdup` and
appends the `current_dir` of the thread to the duplicate. Two things are wrong with that. The
duplicate has room for the path and nothing else, except for what `kmalloc_byte` rounds its size up
by; and what is resolved is the path followed by the directory, instead of the directory followed by
the path.

So the stores stay inside of the block as long as the rounding leaves room for the directory, and
the path is the right one if the two strings commute (**`WillowOS.Vfs.opensRelative_iff`**). With
the `"/"` that every thread has, the first is true of all lengths but those that are 63 modulo 64,
and the second only of the empty path, the others that are made of slashes being no relative ones.
-/

namespace WillowOS

namespace Vfs

open Heap

/-- The string at an address, of less than `n` bytes. -/
def stringAt (m : Mem) (a n : ℕ) : CString :=
  CString.ofBytes ((List.range n).map fun i => m (a + i))

/-- `strdup`: the address of the duplicate, or `0`; the nodes of the heap; and what is stored. -/
def strdup (h : List HeapPage) (s : CString) : ℕ × List HeapPage × List Store :=
  let l := s.length
  let d := kmallocByte h (l + 1)
  if d.1 = 0 then (0, d.2, []) else (d.1, d.2, [⟨d.1, s.terminated⟩])

/-- What `strcat` stores, if the string `s` is at `dest`. -/
def strcatStores (dest : ℕ) (s src : CString) : List Store := [⟨dest + s.length, src.terminated⟩]

/-- The beginning of `vfs_fdopen`: the path handed to `vfs_resolve_path`, the nodes of the heap and
the stores into it. `strcat` on `NULL` is a page fault. -/
def fdopenRelative (h : List HeapPage) (m : Mem) (path currentDir : CString) :
    Option (CString × List HeapPage × List Store) :=
  if path.bytes.head? = some 47 then some (path, h, [])
  else
    let (d, h, copied) := strdup h path
    if d = 0 then none
    else
      let stores := copied ++ strcatStores d path currentDir
      some (stringAt (m.stores stores) d (path.length + currentDir.length + 1), h, stores)

/-- **What opening a relative path has to do**: it comes to the resolution, with the directory
followed by the path, and has stored to nothing but the chunks of the duplicate. -/
def OpensRelative (h : List HeapPage) (m : Mem) (path currentDir : CString) : Prop :=
  ∃ h' stores, fdopenRelative h m path currentDir = some (strcat currentDir path, h', stores) ∧
    ∀ w ∈ stores, (kmallocByte h (path.length + 1)).1 ≤ w.addr ∧
      w.addr + w.bytes.length ≤
        (kmallocByte h (path.length + 1)).1 + heapChunkSize * chunks (path.length + 1)

variable {h : List HeapPage} {m : Mem} {s t path currentDir : CString} {a d : ℕ}

theorem length_strcat : (strcat s t).length = s.length + t.length := List.length_append

theorem ofBytes_terminated : CString.ofBytes s.terminated = s := by
  obtain ⟨bytes, hnul⟩ := s
  have hne : ∀ b ∈ bytes, decide (b ≠ 0) = true := fun b hb =>
    decide_eq_true fun h0 => hnul (h0 ▸ hb)
  simp only [CString.ofBytes, CString.terminated, CString.mk.injEq]
  rw [List.takeWhile_append_of_pos hne]
  exact List.append_nil _

/-- The string that bytes with a zero at the end make. -/
theorem stringAt_eq (hm : m.BytesAt a s.terminated) : stringAt m a (s.length + 1) = s := by
  have hbytes : ((List.range (s.length + 1)).map fun i => m (a + i)) = s.terminated := by
    refine List.ext_getElem ?_ fun i hi hi' => ?_
    · rw [List.length_map, List.length_range, CString.length_terminated]
    · rw [List.getElem_map, List.getElem_range, hm i hi']
  rw [stringAt, hbytes, ofBytes_terminated]

/-- **Copying one string and appending another**: the second store begins at the zero of the
first. -/
theorem bytesAt_strcat :
    (m.stores [⟨d, s.terminated⟩, ⟨d + s.length, t.terminated⟩]).BytesAt d
      (strcat s t).terminated := by
  intro i hi
  rw [CString.length_terminated, length_strcat] at hi
  have hsplit : (strcat s t).terminated = s.bytes ++ t.terminated := List.append_assoc ..
  rw [Mem.stores_cons, Mem.stores_cons]
  by_cases hlt : i < s.length
  · have hlen : i < s.terminated.length := by
      rw [CString.length_terminated]
      omega
    have hcopy := @Mem.bytesAt_store m ⟨d, s.terminated⟩ i hlen
    have happ : ((m.store ⟨d, s.terminated⟩).store ⟨d + s.length, t.terminated⟩) (d + i) =
        (m.store ⟨d, s.terminated⟩) (d + i) := by
      refine Mem.store_of_notMem ?_
      show ¬(d + s.length ≤ d + i ∧ _)
      omega
    have hbyte : s.terminated[i] = s.bytes[i] := List.getElem_append_left hlt
    rw [List.getElem_of_eq hsplit, List.getElem_append_left hlt, ← hbyte]
    exact happ.trans hcopy
  · have happ := @Mem.bytesAt_store (m.store ⟨d, s.terminated⟩) ⟨d + s.length, t.terminated⟩
      (i - s.length) (by
        rw [CString.length_terminated]
        omega)
    rw [show d + s.length + (i - s.length) = d + i by omega] at happ
    rw [List.getElem_of_eq hsplit, List.getElem_append_right (not_lt.mp hlt)]
    exact happ

/-- What `vfs_fdopen` does with a relative path. -/
theorem fdopenRelative_eq (hrel : path.bytes.head? ≠ some 47) :
    fdopenRelative h m path currentDir =
      if (kmallocByte h (path.length + 1)).1 = 0 then none
      else some (strcat path currentDir, (kmallocByte h (path.length + 1)).2,
        [⟨(kmallocByte h (path.length + 1)).1, path.terminated⟩,
          ⟨(kmallocByte h (path.length + 1)).1 + path.length, currentDir.terminated⟩]) := by
  rw [fdopenRelative, if_neg hrel]
  by_cases h0 : (kmallocByte h (path.length + 1)).1 = 0
  · simp only [strdup, if_pos h0, if_true]
  · have hstring := stringAt_eq (@bytesAt_strcat m path currentDir
      (kmallocByte h (path.length + 1)).1)
    rw [length_strcat] at hstring
    simp only [strdup, if_neg h0, strcatStores, List.singleton_append, hstring]

/-- **When opening a relative path does what it should**: there is a block for the duplicate, the
directory fits in the bytes that its size is rounded up by, and the path and the directory
commute. -/
theorem opensRelative_iff (h : List HeapPage) (m : Mem) (path currentDir : CString)
    (hrel : path.bytes.head? ≠ some 47) :
    OpensRelative h m path currentDir ↔
      (kmallocByte h (path.length + 1)).1 ≠ 0 ∧
      path.length + currentDir.length + 1 ≤ 64 * chunks (path.length + 1) ∧
      path.bytes ++ currentDir.bytes = currentDir.bytes ++ path.bytes := by
  rw [OpensRelative, fdopenRelative_eq hrel]
  constructor
  · rintro ⟨h', stores, heq, hin⟩
    rw [Option.ite_none_left_eq_some] at heq
    obtain ⟨h0, heq⟩ := heq
    obtain ⟨hpath, hrest⟩ := Prod.mk.inj (Option.some.inj heq)
    obtain ⟨-, rfl⟩ := Prod.mk.inj hrest
    refine ⟨h0, ?_, congrArg CString.bytes hpath⟩
    have hlast := (hin _ (List.mem_cons_of_mem _ List.mem_cons_self)).2
    rw [CString.length_terminated, heapChunkSize] at hlast
    dsimp only at hlast
    omega
  · rintro ⟨h0, hfits, hcomm⟩
    have hpath : strcat path currentDir = strcat currentDir path := by
      rw [strcat, strcat, CString.mk.injEq]
      exact hcomm
    refine ⟨_, _, by rw [if_neg h0, hpath], fun w hw => ?_⟩
    rcases List.mem_cons.mp hw with rfl | hw
    · rw [CString.length_terminated, heapChunkSize]
      exact ⟨le_rfl, by dsimp only; omega⟩
    · obtain rfl := List.mem_singleton.mp hw
      rw [CString.length_terminated, heapChunkSize]
      exact ⟨Nat.le_add_right _ _, by dsimp only; omega⟩

/-- The empty path, from `"/"`. -/
theorem opensRelative_iff_empty : OpensRelative [freePage] (fun _ => 0) ⟨[], by decide⟩ slash :=
  (opensRelative_iff [freePage] (fun _ => 0) ⟨[], by decide⟩ slash (by decide)).mpr
    ⟨by decide, by decide, by decide⟩

/-- A path of 63 bytes. -/
def longName : CString := ⟨List.replicate 63 0x61, by decide⟩

/-- The duplicate of a path of 63 bytes fills its chunk: the zero after the slash is stored behind
it. And what is resolved begins with the path. -/
theorem not_opensRelative_longName :
    (∃ h' stores, fdopenRelative [freePage] (fun _ => 0) longName slash =
        some (strcat longName slash, h', stores) ∧
      heapChunkSize * chunks (longName.length + 1) = 64 ∧ ⟨heapStart + 63, [47, 0]⟩ ∈ stores) ∧
    ¬OpensRelative [freePage] (fun _ => 0) longName slash := by
  have hrel : longName.bytes.head? ≠ some 47 := by decide
  have hnull : (kmallocByte [freePage] (longName.length + 1)).1 ≠ 0 := by decide
  constructor
  · refine ⟨_, _, (fdopenRelative_eq hrel).trans (if_neg hnull), rfl, ?_⟩
    exact List.mem_cons_of_mem _ List.mem_cons_self
  · rintro ⟨h', stores, heq, -⟩
    have hsome := ((fdopenRelative_eq hrel).trans (if_neg hnull)).symm.trans heq
    exact absurd (Prod.mk.inj (Option.some.inj hsome)).1 (by decide)

/-! ### Threads in `"/"` -/

/-- The path of a thread in `"/"`, which every thread is in. -/
theorem fdopenRelative_slash {r : CString × List HeapPage × List Store}
    (hr : fdopenRelative h m path slash = some r) : r.1 = fdopenPath path := by
  by_cases hrel : path.bytes.head? = some 47
  · rw [fdopenRelative, if_pos hrel] at hr
    rw [← Option.some.inj hr, fdopenPath, if_pos hrel]
  · rw [fdopenRelative_eq hrel, Option.ite_none_left_eq_some] at hr
    rw [← Option.some.inj hr.2, fdopenPath, if_neg hrel]

/-- There, the only relative path that is not turned around is the empty one. -/
theorem strcat_slash_comm (hrel : path.bytes.head? ≠ some 47) :
    path.bytes ++ slash.bytes = slash.bytes ++ path.bytes ↔ path.bytes = [] := by
  constructor
  · intro hcomm
    rcases hbytes : path.bytes with _ | ⟨b, bytes⟩
    · rfl
    · rw [hbytes] at hcomm hrel
      exact absurd (congrArg some (List.cons.inj hcomm).1) hrel
  · intro hnil
    rw [hnil]
    rfl

/-- And its stores stay inside of the duplicate unless its length is 63 modulo 64. -/
theorem slash_fits_iff {l : ℕ} : l + slash.length + 1 ≤ 64 * chunks (l + 1) ↔ l % 64 ≠ 63 := by
  rw [chunks, show slash.length = 1 from rfl]
  omega

end Vfs

end WillowOS
