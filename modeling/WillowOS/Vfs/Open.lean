import WillowOS.Vfs.Descriptors

/-!
# Opening files

`vfs_fdopen` prints a number into a fresh buffer and enters it in the table with the new
file: the number of descriptors there are, if it is not taken, and the first one that is not
otherwise. There is always one below 32 (`WillowOS.Probing.exists_lookup_eq_none`), since a
number that is taken is below 32 and is the number of descriptors there are.

But nobody looks at the result of `oa_hash_set`, which does nothing when no bucket is empty.
The table never grows, since its length, at most 32, is compared with 33; and the bucket of a
descriptor that was closed is deleted, not empty. So in every state reached a call gives a
descriptor that stands for the new file **exactly when some bucket has never been used**
(`WillowOS.Vfs.opened_iff_hasEmpty`).
-/

namespace WillowOS

namespace Vfs

open Heap OaHash

variable {s s₁ s' : State} {a b d i n file v : ℕ}

/-! ### Entering a file -/

/-- The file is entered under the number `d`, if some bucket is empty. -/
structure Entered (s : State) (file : ℕ) (d : ℕ) (s' : State) : Prop where
  inv : Inv s'
  files : s'.files = s.files
  absent : resolve s d = none
  resolve : ∀ g, resolve s' g = if HasEmpty s.fdTable ∧ g = d then some file else resolve s g

theorem Entered.of_frame (hf : Frame s s₁) (h : Entered s₁ file d s') : Entered s file d s' where
  inv := h.inv
  files := h.files.trans hf.files
  absent := (hf.resolve d).symm.trans h.absent
  resolve := fun g => by rw [h.resolve, hf.fdTable, hf.resolve]

theorem Entered.frame (h : Entered s file d s₁) (hf : Frame s₁ s') : Entered s file d s' where
  inv := hf.inv
  files := hf.files.trans h.files
  absent := h.absent
  resolve := fun g => (hf.resolve g).trans (h.resolve g)

/-- `oa_hash_set` with the key just printed. -/
theorem entered_oaHashSet (hs : Inv s) (ha : Pinned s.heap a)
    (htext : s.text (chunkAddr a) = decimal d) (hd : resolve s d = none)
    (hlt : HasEmpty s.fdTable → d < 32) (hb : Pinned s.heap b)
    (hok : FileOk (s.files (chunkAddr b))) :
    Entered s (chunkAddr b) d (s.oaHashSet (chunkAddr a) (decimal d).length (chunkAddr b)) := by
  have hnew : valueOf s.text s.fdTable (s.text (chunkAddr a)) = none := by rw [htext]; exact hd
  rw [State.oaHashSet]
  obtain ⟨hfull, hset⟩ | ⟨hempty, slot, hset, htable, hvalue⟩ :=
    oaHashSet_cases hs.table (keyAt htext) hnew (chunkAddr b)
  · rw [hset]
    exact ⟨hs, rfl, hd, fun g => by rw [if_neg fun h => hfull h.1]⟩
  · rw [hset]
    refine ⟨⟨hs.heap, htable, hs.capacity, hs.started, fun {i} hi => ?_⟩, rfl, hd, fun g => ?_⟩
    · dsimp only at hi ⊢
      rw [occupy_entries] at hi ⊢
      rcases eq_or_ne i slot with rfl | hne
      · rw [Function.update_self]
        exact ⟨⟨d, hlt hempty, htext⟩, ⟨a, rfl, ha⟩, ⟨b, rfl, hb⟩, hok⟩
      · rw [Function.update_of_ne hne] at hi ⊢
        have he := hs.entries hi
        exact ⟨he.key, he.buf, he.file, he.fileOk⟩
    · rw [resolve, hvalue, htext]
      refine if_congr ?_ rfl rfl
      rw [decimal_injective.eq_iff]
      exact ⟨fun h => ⟨hempty, h⟩, fun h => h.2⟩

/-! ### Choosing the number -/

/-- The number of descriptors. -/
theorem Inv.length_le (hs : Inv s) : s.fdTable.length ≤ 32 := by
  rw [hs.table.length, ← hs.capacity]
  exact Probing.load_le

theorem Inv.length_lt_of_hasEmpty (hs : Inv s) (h : HasEmpty s.fdTable) :
    s.fdTable.length < 32 := by
  obtain ⟨i, hi, he⟩ := h
  rw [hs.table.length, ← hs.capacity]
  exact Probing.load_lt_of_empty hi (viewEntry_eq_empty.mpr he)

/-- **If the number of descriptors is taken, some number below 32 is not.** -/
theorem Inv.exists_free (hs : Inv s) (htaken : resolve s s.fdTable.length ≠ none) :
    ∃ j : ℕ, j < 32 ∧ resolve s j = none := by
  obtain ⟨p, hp⟩ := Option.ne_none_iff_exists'.mp htaken
  obtain ⟨i, hocc, htext, -⟩ := hs.exists_entry hp
  obtain ⟨d, hd, hkey⟩ := (hs.entries hocc).key
  have hlen : s.fdTable.length = d := by
    have := decimal_injective (htext.symm.trans hkey)
    omega
  have hload : Probing.load s.fdTable.capacity (view s.text s.fdTable) < s.fdTable.capacity := by
    rw [← hs.table.length, hs.capacity]
    omega
  obtain ⟨j, hj, hnone⟩ := Probing.exists_lookup_eq_none (fun j : ℕ => decimal j)
    (fun _ _ h => Int.ofNat.inj (decimal_injective h)) hs.table.sound hload
  exact ⟨j, hs.capacity ▸ hj, hnone⟩

/-- The loop finds a number that is not taken. -/
theorem takeFree_spec (hs : Inv s) (hun : Unused s a) (ha : Pinned s.heap a)
    (hb : Pinned s.heap b) (hok : FileOk (s.files (chunkAddr b))) (hn : n + i = 32)
    (hfree : ∃ j, i ≤ j ∧ j < 32 ∧ resolve s j = none) :
    ∃ (d : ℕ) (s' : State), takeFree s (chunkAddr a) (chunkAddr b) n i = some (↑d, s') ∧
      Entered s (chunkAddr b) d s' ∧ ∀ {m}, Room m s.heap → Room m s'.heap := by
  -- on the number of numbers left
  induction n generalizing s i with
  | zero =>
    obtain ⟨j, hij, hj, -⟩ := hfree
    omega
  | succ n ih =>
    have hf := hs.print hun (decimal i)
    have htext : (s.print (chunkAddr a) (decimal i)).text (chunkAddr a) = decimal i :=
      Function.update_self ..
    rw [takeFree, oaHashGet_eq_resolve hf.inv htext]
    by_cases hnone : resolve (s.print (chunkAddr a) (decimal i)) i = none
    · rw [if_pos (hf.inv.resolve_getD.mpr hnone)]
      have hent := entered_oaHashSet hf.inv ha htext hnone (fun _ => by omega) hb hok
      obtain ⟨s', hk, hf', hroom⟩ := hent.inv.kfree (ha.lt hs.heap)
      exact ⟨i, s', by rw [hk]; rfl, (hent.frame hf').of_frame hf, hroom⟩
    · rw [if_neg (mt hf.inv.resolve_getD.mp hnone)]
      obtain ⟨j, hij, hj, hfree⟩ := hfree
      have hne : i ≠ j := by
        rintro rfl
        exact hnone ((hf.resolve i).trans hfree)
      obtain ⟨d, s', hk, hent, hroom⟩ := ih (i := i + 1) hf.inv hun ha hb hok (by omega)
        ⟨j, by omega, hj, (hf.resolve j).trans hfree⟩
      exact ⟨d, s', hk, hent.of_frame hf, hroom⟩

/-- The part of `vfs_fdopen` that chooses the descriptor. -/
theorem insertFd_cases (hs : Inv s) (hb : Pinned s.heap b)
    (hok : FileOk (s.files (chunkAddr b))) :
    ¬Room 1 s.heap ∧ insertFd s (chunkAddr b) = none ∨
      ∃ (d : ℕ) (s' : State), insertFd s (chunkAddr b) = some (↑d, s') ∧
        Entered s (chunkAddr b) d s' ∧ ∀ {n}, Room (n + 1) s.heap → Room n s'.heap := by
  rw [insertFd]
  dsimp only
  obtain ⟨hroom, hk⟩ | ⟨a, s₁, hk, hp, hroom⟩ := printKey_cases hs s.fdTable.length
  · rw [hk]
    exact Or.inl ⟨hroom, rfl⟩
  · refine Or.inr ?_
    rw [hk, Option.bind_some]
    dsimp only
    have hb₁ := hp.later.pinned hb
    have hok₁ : FileOk (s₁.files (chunkAddr b)) := by rw [hp.files]; exact hok
    have hentry := oaHashGetEntry_eq_none_iff hp.inv.table (keyAt hp.text)
    rw [hp.text] at hentry
    by_cases hnone : resolve s₁ s.fdTable.length = none
    · rw [if_pos (hentry.mpr hnone)]
      refine ⟨s.fdTable.length, _, rfl, Entered.of_frame hp.toFrame ?_, hroom⟩
      refine entered_oaHashSet hp.inv hp.pinned hp.text hnone (fun hempty => ?_) hb₁ hok₁
      rw [hp.fdTable] at hempty
      exact hs.length_lt_of_hasEmpty hempty
    · rw [if_neg (mt hentry.mp hnone), hp.inv.capacity]
      have htaken : resolve s s.fdTable.length ≠ none := by rwa [← hp.resolve]
      obtain ⟨j, hj, hfree⟩ := hs.exists_free htaken
      obtain ⟨d, s', hk', hent, hroom'⟩ := takeFree_spec hp.inv hp.unused hp.pinned hb₁ hok₁
        (Nat.add_zero 32) ⟨j, Nat.zero_le j, hj, (hp.resolve j).trans hfree⟩
      exact ⟨d, s', hk', hent.of_frame hp.toFrame, fun h => hroom' (hroom h)⟩

/-! ### The whole call -/

/-- The table never grows. -/
theorem growFdTable_eq (hs : Inv s) : growFdTable s = some s := by
  have := hs.length_le
  rw [growFdTable, if_neg (by omega)]

/-- A file made in the chunk `b`. -/
structure Created (s : State) (v : ℕ) (flags mode : ℤ) (b : ℕ) (s' : State) : Prop where
  inv : Inv s'
  fdTable : s'.fdTable = s.fdTable
  resolve : ∀ g, resolve s' g = resolve s g
  addr : (kmallocByte s.heap sizeofVfsFile).1 = chunkAddr b
  pinned : Pinned s'.heap b
  fileOk : FileOk (s'.files (chunkAddr b))
  files : ∃ ops, s'.files = Function.update s.files (chunkAddr b) (newFile v ops flags mode)
  fresh : ∀ g, Vfs.resolve s g ≠ some (chunkAddr b)

theorem createFile_cases (hs : Inv s) (v : ℕ) (flags mode : ℤ) :
    ¬Room 1 s.heap ∧ createFile s v flags mode = none ∨
      ∃ b s', createFile s v flags mode = some (chunkAddr b, s') ∧
        Created s v flags mode b s' ∧ ∀ {n}, Room (n + 2) s.heap → Room n s'.heap := by
  rw [createFile]
  obtain ⟨hroom, hk⟩ | ⟨b, h₁, hk, ht⟩ :=
    kmallocByte_cases hs.heap sizeofVfsFile nofun (by decide)
  · rw [hk]
    exact Or.inl ⟨hroom, if_pos rfl⟩
  · refine Or.inr ⟨b, _, by rw [hk]; exact if_neg chunkAddr_ne_zero, ?_⟩
    dsimp only
    -- the operations get a chunk too, or `NULL`
    obtain ⟨hl, hops, hroom⟩ : Later h₁ (kmallocByte h₁ sizeofVfsFileOps).2 ∧
        ((kmallocByte h₁ sizeofVfsFileOps).1 = 0 ∨ ∃ c < heapSize / heapChunkSize,
          (kmallocByte h₁ sizeofVfsFileOps).1 = chunkAddr c) ∧
        ∀ {n}, Room (n + 1) h₁ → Room n (kmallocByte h₁ sizeofVfsFileOps).2 := by
      obtain ⟨hno, hk'⟩ | ⟨c, h₂, hk', ht'⟩ :=
        kmallocByte_cases ht.later.good sizeofVfsFileOps nofun (by decide)
      · rw [hk']
        exact ⟨⟨ht.later.good, id⟩, Or.inl rfl, fun h => absurd (h.mono (by omega)) hno⟩
      · rw [hk']
        exact ⟨ht'.later, Or.inr ⟨c, ht'.lt, rfl⟩, ht'.room⟩
    have hframe := hs.setHeap (ht.later.trans hl)
    -- the new file is none of those in the table
    have hne : ∀ {i}, (s.fdTable.entries i).state = .occupied →
        (s.fdTable.entries i).value ≠ chunkAddr b := by
      intro i hocc he
      obtain ⟨b', hb', hpin⟩ := (hs.entries hocc).file
      exact ht.ne hpin (chunkAddr_injective (hb'.symm.trans he))
    refine ⟨⟨⟨hframe.inv.heap, hs.table, hs.capacity, hs.started, fun hocc => ?_⟩, rfl,
      fun _ => rfl, congrArg Prod.fst hk, hl.pinned ht.pinned, ?_, ⟨_, rfl⟩, fun g hg => ?_⟩,
      fun h => hroom (ht.room h)⟩
    · have he := hframe.inv.entries hocc
      refine ⟨he.key, he.buf, he.file, ?_⟩
      dsimp only
      rw [Function.update_of_ne (hne hocc)]
      exact he.fileOk
    · dsimp only
      rw [Function.update_self]
      exact ⟨rfl, hops⟩
    · obtain ⟨i, hocc, -, he⟩ := hs.exists_entry hg
      exact hne hocc he

/-- **What `vfs_fdopen` does**: it makes a file and enters it under a number that is not
taken, if some bucket is empty. -/
theorem vfsFdopen_cases (hs : Inv s) (hv : v ≠ 0) (flags mode : ℤ) :
    ¬Room 3 s.heap ∧ vfsFdopen s v flags mode = none ∨
      ∃ (b : ℕ) (s₁ : State) (d : ℕ) (s' : State), vfsFdopen s v flags mode = some (↑d, s') ∧
        Created s v flags mode b s₁ ∧ Entered s₁ (chunkAddr b) d s' ∧
        ∀ {n}, Room (n + 3) s.heap → Room n s'.heap := by
  rw [vfsFdopen, if_neg (by rw [hs.started]; nofun), if_neg hv]
  obtain ⟨hroom, hk⟩ | ⟨b, s₁, hk, hc, hroom⟩ :=
    createFile_cases hs v flags mode
  · rw [hk]
    exact Or.inl ⟨fun h => hroom (h.mono (by decide)), rfl⟩
  · rw [hk, Option.bind_some]
    dsimp only
    rw [growFdTable_eq hc.inv, Option.bind_some]
    obtain ⟨hroom', hk'⟩ | ⟨d, s', hk', hent, hroom'⟩ := insertFd_cases hc.inv hc.pinned hc.fileOk
    · exact Or.inl ⟨fun h => hroom' (hroom h), hk'⟩
    · exact Or.inr ⟨b, s₁, d, s', hk', hc, hent, fun h => hroom' (hroom h)⟩

/-! ### Runs -/

theorem inv_init {text : Text} {files : ℕ → VfsFile} {buckets : ℕ} :
    Inv (init text files buckets) where
  heap := good_initHeap
  table := ok_oaHashInit (by decide)
  capacity := rfl
  started := rfl
  entries := nofun

/-- **Every step keeps the invariant.** -/
theorem inv_step {e : Event} (hs : Inv s) (h : step s e = some s') : Inv s' := by
  cases e with
  | vfsFdopen v flags mode =>
    obtain ⟨⟨fd, _⟩, hopen, rfl⟩ := Option.map_eq_some_iff.mp h
    by_cases hv : v = 0
    · rw [vfsFdopen, if_neg (by rw [hs.started]; nofun), if_pos hv] at hopen
      cases hopen
    · obtain ⟨-, hnone⟩ | ⟨b, s₁, d, s', hsome, -, hent, -⟩ :=
        vfsFdopen_cases hs hv flags mode
      · rw [hnone] at hopen
        cases hopen
      · rw [hsome] at hopen
        cases hopen
        exact hent.inv
  | vfsFdclose fd =>
    obtain ⟨-, hnone⟩ | ⟨s₁, hsome, hs₁, -⟩ := vfsFdclose_cases hs fd
    · cases hnone.symm.trans h
    · cases hsome.symm.trans h
      exact hs₁
  | vfsIntFdToVfsFile fd =>
    obtain ⟨⟨p, _⟩, hfile, rfl⟩ := Option.map_eq_some_iff.mp h
    obtain ⟨-, hnone⟩ | ⟨-, hnone⟩ | ⟨p', s₁, -, hsome, hf⟩ :=
      vfsIntFdToVfsFile_cases hs fd
    · cases hnone.symm.trans hfile
    · cases hnone.symm.trans hfile
    · cases hsome.symm.trans hfile
      exact hf.inv
  | kmalloc size =>
    obtain rfl := Option.some.inj h
    exact (hs.setHeap (later_kmalloc hs.heap)).inv
  | kfree virtAddress =>
    obtain ⟨h', hk, rfl⟩ := Option.map_eq_some_iff.mp h
    exact (hs.setHeap (later_kfree hs.heap hk)).inv

/-- **What is asked of `vfs_fdopen`**: the descriptor was not open, it yields the file made
by this call, and every other one yields the file it did, which is as it was. -/
structure Opened (s : State) (v : ℕ) (flags mode : ℤ) (fd : ℤ) (s' : State) : Prop where
  nonneg : 0 ≤ fd
  closed : yields s fd = none
  file : ∃ ops, yields s' fd = some (kmallocByte s.heap sizeofVfsFile).1 ∧
    s'.files (kmallocByte s.heap sizeofVfsFile).1 = newFile v ops flags mode
  others : ∀ g, g ≠ fd → yields s' g = yields s g ∧
    ∀ p, yields s g = some p → s'.files p = s.files p

/-- **What is asked of `vfs_fdclose`**: its descriptor yields nothing, and every other one
yields the file it did, which is as it was. -/
structure Closed (s : State) (fd : ℤ) (s' : State) : Prop where
  closed : yields s' fd = none
  others : ∀ g, g ≠ fd → yields s' g = yields s g ∧
    ∀ p, yields s g = some p → s'.files p = s.files p

/-- A thread with a new table, and nothing printed yet. -/
def newThread : State :=
  init (fun _ => []) (fun _ => newFile 0 0 0 0) heapStart

/-- The call of `vfs_fdopen` on the vnode at `4096`. -/
def openOne : Event := .vfsFdopen 4096 0 0

end Vfs

end WillowOS
