import WillowOS.Vfs.FdTable

/-!
# What a descriptor stands for

The keys of the table stay readable although their buffers are freed, some of them twice: a
chunk once handed out is never handed out again, so nothing is printed over a key. Under
that invariant (`WillowOS.Vfs.Inv`) the table is a map from numbers below 32 to files
(`WillowOS.Vfs.resolve`), which is what `vfs_int_fd_to_vfs_file` looks up
(`WillowOS.Vfs.yields_eq`) and what `vfs_fdclose` takes one descriptor out of
(`WillowOS.Vfs.vfsFdclose_cases`).
-/

namespace WillowOS

namespace Vfs

open Heap OaHash

variable {s s' s'' : State} {fd : ℤ} {a b i p : ℕ}

/-- The file a descriptor stands for, in the table. -/
def resolve (s : State) (fd : ℤ) : Option ℕ := valueOf s.text s.fdTable (decimal fd)

/-! ### The invariant -/

/-- A file whose pointers `vfs_fdclose` can free. -/
def FileOk (f : VfsFile) : Prop :=
  f.absPath = 0 ∧ (f.fileOps = 0 ∨ ∃ c < heapSize / heapChunkSize, f.fileOps = chunkAddr c)

/-- An occupied entry: its key is a number below 32, in a chunk of its own, and its value is
the chunk of a file. -/
structure EntryOk (s : State) (e : Entry) : Prop where
  key : ∃ d : ℕ, d < 32 ∧ s.text e.keyBuf = decimal d
  buf : ∃ a, e.keyBuf = chunkAddr a ∧ Pinned s.heap a
  file : ∃ b, e.value = chunkAddr b ∧ Pinned s.heap b
  fileOk : FileOk (s.files e.value)

/-- **The invariant of a run.** -/
structure Inv (s : State) : Prop where
  heap : Good s.heap
  table : Ok s.text s.fdTable
  capacity : s.fdTable.capacity = 32
  started : s.schedulingStarted = true
  entries : ∀ {i}, (s.fdTable.entries i).state = .occupied → EntryOk s (s.fdTable.entries i)

/-- No key of the table is in this chunk. -/
def Unused (s : State) (a : ℕ) : Prop :=
  ∀ i, (s.fdTable.entries i).state = .occupied → (s.fdTable.entries i).keyBuf ≠ chunkAddr a

/-- A change that does not concern the descriptors. -/
structure Frame (s s' : State) : Prop where
  inv : Inv s'
  later : Later s.heap s'.heap
  fdTable : s'.fdTable = s.fdTable
  files : s'.files = s.files
  resolve : ∀ g, resolve s' g = resolve s g

theorem Frame.trans (h₁ : Frame s s') (h₂ : Frame s' s'') : Frame s s'' :=
  ⟨h₂.inv, h₁.later.trans h₂.later, h₂.fdTable.trans h₁.fdTable, h₂.files.trans h₁.files,
    fun g => (h₂.resolve g).trans (h₁.resolve g)⟩

/-- The heap may go on. -/
theorem Inv.setHeap (hs : Inv s) {h : List HeapPage} (hl : Later s.heap h) :
    Frame s { s with heap := h } where
  inv := ⟨hl.good, hs.table, hs.capacity, hs.started, fun hocc =>
    have he := hs.entries hocc
    ⟨he.key, he.buf.imp fun _ ha => ⟨ha.1, hl.pinned ha.2⟩,
      he.file.imp fun _ hb => ⟨hb.1, hl.pinned hb.2⟩, he.fileOk⟩⟩
  later := hl
  fdTable := rfl
  files := rfl
  resolve := fun _ => rfl

/-- A buffer that is no key may be printed to. -/
theorem Inv.print (hs : Inv s) (hun : Unused s a) (t : List UInt8) :
    Frame s (s.print (chunkAddr a) t) := by
  have htext : ∀ i, (s.fdTable.entries i).state = .occupied →
      (s.print (chunkAddr a) t).text (s.fdTable.entries i).keyBuf =
        s.text (s.fdTable.entries i).keyBuf :=
    fun i hocc => Function.update_of_ne (hun i hocc) ..
  refine ⟨⟨hs.heap, hs.table.congr htext, hs.capacity, hs.started, fun hocc => ?_⟩,
    ⟨hs.heap, id⟩, rfl, rfl, fun g => ?_⟩
  · have he := hs.entries hocc
    exact ⟨he.key.imp fun d hd => ⟨hd.1, (htext _ hocc).trans hd.2⟩, he.buf, he.file, he.fileOk⟩
  · show valueOf _ s.fdTable _ = valueOf _ s.fdTable _
    rw [valueOf, valueOf, view_congr htext]

/-- `kfree` of a chunk completes, and does not concern the descriptors. -/
theorem Inv.kfree (hs : Inv s) (hi : i < heapSize / heapChunkSize) :
    ∃ s', s.kfree (chunkAddr i) = some s' ∧ Frame s s' ∧
      ∀ {n}, Room n s.heap → Room n s'.heap := by
  obtain ⟨h', hk, hl, hroom⟩ := exists_kfree hs.heap hi
  exact ⟨{ s with heap := h' }, by rw [State.kfree, hk]; rfl, hs.setHeap hl, hroom⟩

/-- The entry of a descriptor that stands for a file. -/
theorem Inv.exists_entry (hs : Inv s) (h : resolve s fd = some p) :
    ∃ i, (s.fdTable.entries i).state = .occupied ∧
      s.text (s.fdTable.entries i).keyBuf = decimal fd ∧ (s.fdTable.entries i).value = p := by
  obtain ⟨i, -, hi⟩ := hs.table.sound.lookup_eq_some_iff.mp h
  exact ⟨i, viewEntry_eq_occupied.mp hi⟩

theorem Inv.exists_chunk (hs : Inv s) (h : resolve s fd = some p) :
    ∃ b, p = chunkAddr b ∧ Pinned s.heap b := by
  obtain ⟨i, hocc, -, rfl⟩ := hs.exists_entry h
  exact (hs.entries hocc).file

theorem Inv.resolve_getD (hs : Inv s) : (resolve s fd).getD 0 = 0 ↔ resolve s fd = none := by
  cases h : resolve s fd with
  | none => exact ⟨fun _ => rfl, fun _ => rfl⟩
  | some p =>
    obtain ⟨b, rfl, -⟩ := hs.exists_chunk h
    exact ⟨fun h0 => absurd h0 chunkAddr_ne_zero, nofun⟩

/-! ### Printing a key -/

/-- A key printed into a chunk of its own. -/
structure Printed (s : State) (fd : ℤ) (a : ℕ) (s' : State) : Prop extends Frame s s' where
  unused : Unused s' a
  pinned : Pinned s'.heap a
  text : s'.text (chunkAddr a) = decimal fd

theorem printKey_cases (hs : Inv s) (fd : ℤ) :
    ¬Room 1 s.heap ∧ printKey s fd = none ∨
      ∃ a s', printKey s fd = some (chunkAddr a, s') ∧ Printed s fd a s' ∧
        ∀ {n}, Room (n + 1) s.heap → Room n s'.heap := by
  rw [printKey]
  obtain ⟨hroom, hk⟩ | ⟨a, h', hk, ht⟩ := kmallocByte_cases hs.heap 64 nofun le_rfl
  · rw [hk]
    exact Or.inl ⟨hroom, if_pos rfl⟩
  · rw [hk]
    have hun : Unused { s with heap := h' } a := by
      intro i hocc he
      obtain ⟨a', ha', hpin⟩ := (hs.entries hocc).buf
      exact ht.ne hpin (chunkAddr_injective (ha'.symm.trans he))
    have hframe := hs.setHeap ht.later
    exact Or.inr ⟨a, _, if_neg chunkAddr_ne_zero,
      ⟨hframe.trans (hframe.inv.print hun _), hun, ht.pinned, Function.update_self ..⟩, ht.room⟩

theorem keyAt (h : s.text (chunkAddr a) = decimal fd) :
    KeyAt s.text (chunkAddr a) (decimal fd).length :=
  ⟨chunkAddr_ne_zero, by rw [h], by rw [h]; exact decimal_ne_nil⟩

/-- What the table holds under the key in a buffer. -/
theorem oaHashGet_eq_resolve (hs : Inv s) (h : s.text (chunkAddr a) = decimal fd) :
    oaHashGet s.fdTable s.text (chunkAddr a) (decimal fd).length = (resolve s fd).getD 0 := by
  rw [oaHashGet_eq hs.table (keyAt h), h, resolve]

/-! ### Looking up -/

theorem vfsIntFdToVfsFile_cases (hs : Inv s) (fd : ℤ) :
    ¬Room 1 s.heap ∧ vfsIntFdToVfsFile s fd = none ∨
      resolve s fd = none ∧ vfsIntFdToVfsFile s fd = none ∨
        ∃ p s', resolve s fd = some p ∧ vfsIntFdToVfsFile s fd = some (p, s') ∧ Frame s s' := by
  rw [vfsIntFdToVfsFile]
  obtain ⟨hroom, hk⟩ | ⟨a, s₁, hk, hp, -⟩ := printKey_cases hs fd
  · rw [hk]
    exact Or.inl ⟨hroom, rfl⟩
  · rw [hk, Option.bind_some]
    dsimp only
    rw [oaHashGet_eq_resolve hp.inv hp.text]
    by_cases hnone : resolve s₁ fd = none
    · rw [if_neg (not_not.mpr (hp.inv.resolve_getD.mpr hnone))]
      exact Or.inr (Or.inl ⟨(hp.resolve fd).symm.trans hnone, rfl⟩)
    · rw [if_pos (mt hp.inv.resolve_getD.mp hnone)]
      obtain ⟨p, hres⟩ := Option.ne_none_iff_exists'.mp hnone
      obtain ⟨s', hfree, hframe, -⟩ := hp.inv.kfree (hp.pinned.lt hp.inv.heap)
      refine Or.inr (Or.inr ⟨p, s', (hp.resolve fd).symm.trans hres, ?_,
        hp.toFrame.trans hframe⟩)
      rw [hfree, hres]
      rfl

/-- What `vfs_int_fd_to_vfs_file` yields; `none` when its assertion fails. -/
def yields (s : State) (fd : ℤ) : Option ℕ := (vfsIntFdToVfsFile s fd).map Prod.fst

/-- **`vfs_int_fd_to_vfs_file` yields what the table has for the descriptor.** -/
theorem yields_eq (hs : Inv s) (hroom : Room 1 s.heap) : yields s fd = resolve s fd := by
  rw [yields]
  obtain ⟨hno, -⟩ | ⟨hnone, h⟩ | ⟨p, s', hres, h, -⟩ := vfsIntFdToVfsFile_cases hs fd
  · exact absurd hroom hno
  · rw [h, hnone]
    rfl
  · rw [h, hres]
    rfl

/-! ### Closing -/

/-- `oa_hash_remove` takes the key printed out of the table. -/
theorem oaHashRemove_spec (hs : Inv s) (htext : s.text (chunkAddr a) = decimal fd) :
    ∃ s', s.oaHashRemove (chunkAddr a) (decimal fd).length = some s' ∧ Inv s' ∧
      Later s.heap s'.heap ∧ s'.files = s.files ∧
      (∀ g, resolve s' g = if g = fd then none else resolve s g) ∧
      ∀ {n}, Room n s.heap → Room n s'.heap := by
  rw [State.oaHashRemove]
  obtain ⟨hnone, hrem⟩ | ⟨slot, hocc, hrem, hok, hvalue⟩ :=
    oaHashRemove_cases hs.table (keyAt htext)
  · rw [hrem]
    refine ⟨s, rfl, hs, ⟨hs.heap, id⟩, rfl, fun g => ?_, id⟩
    split_ifs with he
    · rw [he, resolve, ← htext]
      exact hnone
    · rfl
  · rw [hrem]
    obtain ⟨c, hc, hpin⟩ := (hs.entries hocc).buf
    -- the entries left are entries of the old table
    have hdel : Inv { s with fdTable := s.fdTable.delete slot } := by
      refine ⟨hs.heap, hok, hs.capacity, hs.started, fun {i} hi => ?_⟩
      dsimp only at hi ⊢
      rw [delete_entries] at hi ⊢
      rcases eq_or_ne i slot with rfl | hne
      · rw [Function.update_self] at hi
        cases hi
      · rw [Function.update_of_ne hne] at hi ⊢
        have he := hs.entries hi
        exact ⟨he.key, he.buf, he.file, he.fileOk⟩
    obtain ⟨s', hfree, hframe, hroom⟩ := hdel.kfree (hpin.lt hs.heap)
    refine ⟨s', by rw [hc]; exact hfree, hframe.inv, hframe.later, hframe.files, fun g => ?_,
      hroom⟩
    rw [hframe.resolve, resolve, hvalue, htext]
    exact if_congr decimal_injective.eq_iff rfl rfl

/-- Freeing a file does not concern the descriptors. -/
theorem freeFile_spec (hs : Inv s) (hb : Pinned s.heap b) (hok : FileOk (s.files (chunkAddr b))) :
    ∃ s', freeFile s (chunkAddr b) = some s' ∧ Frame s s' ∧
      ∀ {n}, Room n s.heap → Room n s'.heap := by
  have hlt := hb.lt hs.heap
  obtain ⟨habs, hops⟩ := hok
  rw [freeFile, if_pos chunkAddr_ne_zero, habs, State.kfreeIfSet, if_neg (not_not.mpr rfl),
    Option.bind_some, State.kfreeIfSet]
  rcases hops with hzero | ⟨c, hc, hops⟩
  · rw [hzero, if_neg (not_not.mpr rfl), Option.bind_some]
    exact hs.kfree hlt
  · rw [hops, if_pos chunkAddr_ne_zero]
    obtain ⟨s₁, hk₁, hf₁, hroom₁⟩ := hs.kfree hc
    obtain ⟨s₂, hk₂, hf₂, hroom₂⟩ := hf₁.inv.kfree hlt
    exact ⟨s₂, by rw [hk₁, Option.bind_some, hk₂], hf₁.trans hf₂, fun h => hroom₂ (hroom₁ h)⟩

/-- **What `vfs_fdclose` does**: only its own descriptor stops standing for a file. -/
theorem vfsFdclose_cases (hs : Inv s) (fd : ℤ) :
    ¬Room 1 s.heap ∧ vfsFdclose s fd = none ∨
      ∃ s', vfsFdclose s fd = some s' ∧ Inv s' ∧ s'.files = s.files ∧
        (∀ g, resolve s' g = if g = fd then none else resolve s g) ∧
        ∀ {n}, Room (n + 1) s.heap → Room n s'.heap := by
  rw [vfsFdclose]
  obtain ⟨hroom, hk⟩ | ⟨a, s₁, hk, hp, hroom₁⟩ := printKey_cases hs fd
  · rw [hk]
    exact Or.inl ⟨hroom, rfl⟩
  · refine Or.inr ?_
    obtain ⟨s₂, hrem, hs₂, hl₂, hfiles₂, hres₂, hroom₂⟩ := oaHashRemove_spec hp.inv hp.text
    obtain ⟨s₃, hfree, hf₃, hroom₃⟩ := hs₂.kfree ((hl₂.pinned hp.pinned).lt hs₂.heap)
    have hres : ∀ g, resolve s₃ g = if g = fd then none else resolve s g := fun g => by
      rw [hf₃.resolve, hres₂, hp.resolve]
    have hfiles : s₃.files = s.files := hf₃.files.trans (hfiles₂.trans hp.files)
    rw [hk, Option.bind_some]
    dsimp only
    rw [hrem, Option.bind_some, hfree, Option.bind_some, oaHashGet_eq_resolve hp.inv hp.text]
    cases hfile : resolve s₁ fd with
    | none =>
      exact ⟨s₃, if_neg (not_not.mpr rfl), hf₃.inv, hfiles, hres,
        fun h => hroom₃ (hroom₂ (hroom₁ h))⟩
    | some p =>
      -- the file of the descriptor, in its chunk
      obtain ⟨i, hocc, -, rfl⟩ := hp.inv.exists_entry hfile
      obtain ⟨b, hb, hpin⟩ := (hp.inv.entries hocc).file
      have hok := (hp.inv.entries hocc).fileOk
      rw [hb, hp.files, ← hfiles] at hok
      obtain ⟨s', hk', hf', hroom'⟩ :=
        freeFile_spec hf₃.inv (hf₃.later.pinned (hl₂.pinned hpin)) hok
      refine ⟨s', ?_, hf'.inv, hf'.files.trans hfiles, fun g => (hf'.resolve g).trans (hres g),
        fun h => hroom' (hroom₃ (hroom₂ (hroom₁ h)))⟩
      rw [hb]
      exact hk'

end Vfs

end WillowOS
