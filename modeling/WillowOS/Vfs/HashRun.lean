import WillowOS.Vfs.OaHash

/-!
# The hash table over whole runs

What a table is for is a map from texts to values. Here every operation of `oa_hash.h` is one
command, and so is writing to a buffer the table does not use as a key; a table that starts out
empty answers any sequence of commands as a map does
(**`WillowOS.OaHash.run_refines`**). The map has a number of keys it can be given at least
(`WillowOS.OaHash.Spec.room`), which goes down with every insertion and does not come back with a
removal. It may refuse a new key only when that number is used up, and a key that is there never.

A rehash changes that number only. It moves the occupied entries, one after the other, to buckets
that are all empty, so that it cannot fail and leaves no deleted bucket behind
(`WillowOS.OaHash.oaHashRehash_eq`): after it, new keys are accepted again
(`WillowOS.OaHash.oaHashSet_of_oaHashRehash`).
-/

namespace WillowOS

namespace OaHash

open Probing

variable {text : Text} {ht : Table} {key len value slot n : ℕ} {k : List UInt8} {l : List ℕ}
  {free : Option ℕ}

/-! ### Replacing a value -/

/-- The value of an entry replaced; its key buffer stays. -/
def Table.replace (ht : Table) (slot value : ℕ) : Table :=
  { ht with entries := Function.update ht.entries slot { ht.entries slot with value := value } }

theorem replace_entries : (ht.replace slot value).entries =
    Function.update ht.entries slot { ht.entries slot with value := value } := rfl

theorem view_replace (hocc : (ht.entries slot).state = .occupied) :
    view text (ht.replace slot value) =
      Function.update (view text ht) slot (.occupied (text (ht.entries slot).keyBuf) value) := by
  funext i
  rw [view, replace_entries]
  rcases eq_or_ne i slot with rfl | hne
  · rw [Function.update_self, Function.update_self, viewEntry_eq_occupied]
    exact ⟨hocc, rfl, rfl⟩
  · rw [Function.update_of_ne hne, Function.update_of_ne hne, view]

/-- The loop of `oa_hash_set_entry` stops at a key that is there. -/
theorem setEntryLoop_of_find (hlen : len = (text key).length)
    (hkeys : ∀ {i}, (ht.entries i).state = .occupied →
      (ht.entries i).keyLength = (text (ht.entries i).keyBuf).length)
    (h : find (view text ht) (text key) l = some slot) :
    setEntryLoop ht text key len value free l = some (slot, ht.replace slot value) := by
  induction l generalizing free with
  | nil => cases h
  | cons j l ih =>
    have hmatch := matches_iff (ht.entries j) hlen hkeys
    rw [find, view, viewEntry] at h
    rw [setEntryLoop]
    cases hst : (ht.entries j).state with
    | empty =>
      rw [hst] at h
      cases h
    | deleted =>
      rw [hst] at h
      have hno : ¬Matches text (ht.entries j) key len := by
        rw [hmatch, hst]
        exact fun hm => absurd hm.1 (by decide)
      rw [if_neg (by decide), if_neg hno]
      exact ih h
    | occupied =>
      rw [hst] at h
      rw [if_neg (by decide)]
      by_cases heq : text (ht.entries j).keyBuf = text key
      · obtain rfl := Option.some.inj ((if_pos heq).symm.trans h)
        rw [if_pos (hmatch.mpr ⟨hst, heq⟩), Table.replace]
        dsimp only
        rw [hst]
      · rw [if_neg fun hm => heq (hmatch.mp hm).2]
        exact ih ((if_neg heq).symm.trans h)

/-! ### Buckets that are empty -/

/-- The number of buckets that were never used. -/
def room (ht : Table) : ℕ :=
  ((Finset.range ht.capacity).filter fun i => (ht.entries i).state = .empty).card

theorem room_pos_iff : 0 < room ht ↔ HasEmpty ht := by
  rw [room, Finset.card_pos, HasEmpty]
  constructor
  · rintro ⟨i, hi⟩
    obtain ⟨hi, he⟩ := Finset.mem_filter.mp hi
    exact ⟨i, Finset.mem_range.mp hi, he⟩
  · rintro ⟨i, hi, he⟩
    exact ⟨i, Finset.mem_filter.mpr ⟨Finset.mem_range.mpr hi, he⟩⟩

/-- Buckets that stay empty are counted again. -/
theorem room_le_of_empty {t : Table} (hcap : t.capacity = ht.capacity)
    (h : ∀ i, (ht.entries i).state = .empty → (t.entries i).state = .empty) : room ht ≤ room t := by
  refine Finset.card_le_card fun i hi => ?_
  obtain ⟨hi, he⟩ := Finset.mem_filter.mp hi
  exact Finset.mem_filter.mpr ⟨hcap ▸ hi, h i he⟩

theorem room_occupy : room ht - 1 ≤ room (ht.occupy slot key len value) := by
  refine Finset.pred_card_le_card_erase.trans
    (Finset.card_le_card (s := Finset.erase _ slot) fun i hi => ?_)
  obtain ⟨hne, hi⟩ := Finset.mem_erase.mp hi
  obtain ⟨hi, he⟩ := Finset.mem_filter.mp hi
  refine Finset.mem_filter.mpr ⟨hi, ?_⟩
  rw [occupy_entries, Function.update_of_ne hne]
  exact he

theorem room_delete (hocc : (ht.entries slot).state = .occupied) :
    room ht ≤ room (ht.delete slot) := by
  refine room_le_of_empty rfl fun i he => ?_
  have hne : i ≠ slot := by
    rintro rfl
    rw [hocc] at he
    cases he
  rw [delete_entries, Function.update_of_ne hne]
  exact he

/-! ### Tables whose keys are in buffers -/

/-- **A table in order whose keys can be passed to the operations again**, as a rehash does. -/
structure Keyed (text : Text) (ht : Table) : Prop where
  ok : Ok text ht
  keyAt : ∀ i, (ht.entries i).state = .occupied →
    KeyAt text (ht.entries i).keyBuf (ht.entries i).keyLength

theorem keyed_oaHashInit {buckets capacity : ℕ} (hc : 0 < capacity) :
    Keyed text (oaHashInit buckets capacity) :=
  ⟨ok_oaHashInit hc, fun _ h => absurd (show EntryState.empty = .occupied from h) (by decide)⟩

theorem Keyed.occupy (hs : Keyed text ht) (hk : KeyAt text key len)
    (hok : Ok text (ht.occupy slot key len value)) : Keyed text (ht.occupy slot key len value) := by
  refine ⟨hok, fun i hocc => ?_⟩
  rw [occupy_entries] at hocc ⊢
  rcases eq_or_ne i slot with rfl | hne
  · rw [Function.update_self]
    exact hk
  · rw [Function.update_of_ne hne] at hocc ⊢
    exact hs.keyAt i hocc

theorem Keyed.delete (hs : Keyed text ht) (hok : Ok text (ht.delete slot)) :
    Keyed text (ht.delete slot) := by
  refine ⟨hok, fun i hocc => ?_⟩
  rw [delete_entries] at hocc ⊢
  rcases eq_or_ne i slot with rfl | hne
  · rw [Function.update_self] at hocc
    cases hocc
  · rw [Function.update_of_ne hne] at hocc ⊢
    exact hs.keyAt i hocc

/-- The key of an entry is that of the entry of the same slot before. -/
theorem replace_entry (ht : Table) (slot value i : ℕ) :
    ((ht.replace slot value).entries i).state = (ht.entries i).state ∧
      ((ht.replace slot value).entries i).keyBuf = (ht.entries i).keyBuf ∧
      ((ht.replace slot value).entries i).keyLength = (ht.entries i).keyLength := by
  rw [replace_entries]
  rcases eq_or_ne i slot with rfl | hne
  · rw [Function.update_self]
    exact ⟨rfl, rfl, rfl⟩
  · rw [Function.update_of_ne hne]
    exact ⟨rfl, rfl, rfl⟩

/-- **What `oa_hash_set` does with a key that is there.** -/
theorem oaHashSet_of_find (hs : Keyed text ht) (hk : KeyAt text key len)
    (hold : valueOf text ht (text key) ≠ none) (value : ℕ) :
    ∃ slot, oaHashSet ht text key len value = (value, ht.replace slot value) ∧
      Keyed text (ht.replace slot value) ∧
      ∀ k, valueOf text (ht.replace slot value) k =
        if k = text key then some value else valueOf text ht k := by
  have hok := hs.ok
  have hpos := hok.capacity_pos
  have hlen := hk.len_ne_zero
  obtain ⟨slot, hfind⟩ := Option.ne_none_iff_exists'.mp
    (mt (oaHashGetEntry_eq_none_iff hok hk).mp hold)
  rw [oaHashGetEntry_eq hok hk] at hfind
  obtain ⟨hslot, v, hv⟩ := hok.sound.find_eq_some_iff.mp hfind
  obtain ⟨hocc, hkey, -⟩ := viewEntry_eq_occupied.mp hv
  have hview : view text (ht.replace slot value) =
      Function.update (view text ht) slot (.occupied (text key) value) := hkey ▸ view_replace hocc
  refine ⟨slot, ?_, ⟨⟨hpos, fun {i} h => ?_, ?_, ?_⟩, fun i h => ?_⟩, fun k => ?_⟩
  · rw [oaHashSet, oaHashSetEntry, if_neg (by omega), oaHashGenhash_eq hk hpos,
      setEntryLoop_of_find hk.len_eq hok.keyLength hfind]
    dsimp only
    rw [replace_entries, Function.update_self]
  · obtain ⟨hst, hbuf, hkl⟩ := replace_entry ht slot value i
    rw [hbuf, hkl]
    exact hok.keyLength (hst ▸ h)
  · rw [hview]
    exact hok.sound.replace hv
  · rw [hview]
    exact hok.length.trans (load_replace hv).symm
  · obtain ⟨hst, hbuf, hkl⟩ := replace_entry ht slot value i
    rw [hbuf, hkl]
    exact hs.keyAt i (hst ▸ h)
  · rw [valueOf, hview]
    exact hok.sound.lookup_replace hslot hv k

/-- **What `oa_hash_set` does**: it refuses a new key if no bucket is empty, and is a map's
otherwise. -/
theorem oaHashSet_spec (hs : Keyed text ht) (hk : KeyAt text key len) (value : ℕ) :
    oaHashSet ht text key len value = (0, ht) ∧ valueOf text ht (text key) = none ∧ ¬HasEmpty ht ∨
      (oaHashSet ht text key len value).1 = value ∧
        Keyed text (oaHashSet ht text key len value).2 ∧
        (oaHashSet ht text key len value).2.capacity = ht.capacity ∧
        room ht - 1 ≤ room (oaHashSet ht text key len value).2 ∧
        ∀ k, valueOf text (oaHashSet ht text key len value).2 k =
          if k = text key then some value else valueOf text ht k := by
  by_cases hnew : valueOf text ht (text key) = none
  · obtain ⟨hfull, heq⟩ | ⟨-, slot, heq, hok, hval⟩ := oaHashSet_cases hs.ok hk hnew value
    · exact Or.inl ⟨heq, hnew, hfull⟩
    · rw [heq]
      exact Or.inr ⟨rfl, hs.occupy hk hok, rfl, room_occupy, hval⟩
  · obtain ⟨slot, heq, hkeyed, hval⟩ := oaHashSet_of_find hs hk hnew value
    rw [heq]
    refine Or.inr ⟨rfl, hkeyed, rfl, (Nat.sub_le _ _).trans ?_, hval⟩
    exact room_le_of_empty rfl fun i he => (replace_entry ht slot value i).1.trans he

/-! ### Rehashing -/

/-- No bucket was ever deleted. -/
def NoneDeleted (ht : Table) : Prop := ∀ i, (ht.entries i).state ≠ .deleted

theorem NoneDeleted.occupy (h : NoneDeleted ht) : NoneDeleted (ht.occupy slot key len value) := by
  intro i
  rw [occupy_entries]
  rcases eq_or_ne i slot with rfl | hne
  · rw [Function.update_self]
    exact show EntryState.occupied ≠ .deleted by decide
  · rw [Function.update_of_ne hne]
    exact h i

/-- Without deleted buckets, every bucket is empty or counted. -/
theorem NoneDeleted.capacity_le (h : NoneDeleted ht) (hok : Ok text ht) :
    ht.capacity ≤ room ht + ht.length := by
  have hall : Finset.range ht.capacity ⊆
      ((Finset.range ht.capacity).filter fun i => (ht.entries i).state = .empty) ∪
        occupiedSlots ht.capacity (view text ht) := by
    intro i hi
    rw [Finset.mem_union, Finset.mem_filter, mem_occupiedSlots]
    cases hst : (ht.entries i).state with
    | empty => exact Or.inl ⟨hi, rfl⟩
    | deleted => exact absurd hst (h i)
    | occupied =>
      exact Or.inr ⟨Finset.mem_range.mp hi, _, _, viewEntry_eq_occupied.mpr ⟨hst, rfl, rfl⟩⟩
  have hcard := (Finset.card_le_card hall).trans (Finset.card_union_le _ _)
  rw [Finset.card_range] at hcard
  rw [hok.length]
  exact hcard

/-- A new key gets an entry if some bucket is empty. -/
theorem oaHashSetEntry_of_hasEmpty (hok : Ok text ht) (hk : KeyAt text key len)
    (hnew : valueOf text ht (text key) = none) (hempty : HasEmpty ht) (value : ℕ) :
    ∃ slot, (oaHashSetEntry ht text key len value).map Prod.snd =
        some (ht.occupy slot key len value) ∧
      Ok text (ht.occupy slot key len value) ∧
      ∀ k, valueOf text (ht.occupy slot key len value) k =
        if k = text key then some value else valueOf text ht k := by
  obtain ⟨hfull, -⟩ | ⟨-, slot, heq, hok', hval⟩ := oaHashSet_cases hok hk hnew value
  · exact absurd hempty hfull
  · refine ⟨slot, ?_, hok', hval⟩
    rw [oaHashSet] at heq
    cases hset : oaHashSetEntry ht text key len value with
    | none =>
      -- the table would be unchanged, but the new entry is counted
      rw [hset] at heq
      have hlen : ht.length = ht.length + 1 := congrArg (fun r => r.2.length) heq
      omega
    | some r =>
      rw [hset] at heq
      exact congrArg some (congrArg Prod.snd heq)

/-- The body of the loop of `oa_hash_rehash`. -/
def moveEntry (ht : Table) (text : Text) (t : Table) (i : ℕ) : Option Table :=
  let entry := ht.entries i
  if entry.state = .occupied then
    (oaHashSetEntry t text entry.keyBuf entry.keyLength entry.value).map Prod.snd
  else some t

/-- **The new table after the first `n` buckets of the old one**: it holds their keys and no
others. -/
structure Moved (text : Text) (ht : Table) (newBuckets newCapacity n : ℕ) (t : Table) : Prop where
  keyed : Keyed text t
  capacity : t.capacity = newCapacity
  buckets : t.buckets = newBuckets
  noneDeleted : NoneDeleted t
  length_le : t.length ≤ n
  value : ∀ k v, valueOf text t k = some v ↔ ∃ i < n, view text ht i = .occupied k v

variable {newBuckets newCapacity : ℕ} {t : Table}

theorem moved_zero (hc : 0 < newCapacity) :
    Moved text ht newBuckets newCapacity 0 (oaHashInit newBuckets newCapacity) := by
  have hkeyed : Keyed text (oaHashInit newBuckets newCapacity) := keyed_oaHashInit hc
  refine ⟨hkeyed, rfl, rfl, fun _ => show EntryState.empty ≠ .deleted by decide, Nat.le_refl 0,
    fun k v => ?_⟩
  rw [valueOf, hkeyed.ok.sound.lookup_eq_some_iff]
  constructor
  · rintro ⟨i, -, hi⟩
    cases hi
  · rintro ⟨i, hi, -⟩
    omega

theorem Moved.succ (hs : Keyed text ht) (hcap : ht.capacity < newCapacity) (hn : n < ht.capacity)
    (h : Moved text ht newBuckets newCapacity n t) :
    ∃ t', moveEntry ht text t n = some t' ∧ Moved text ht newBuckets newCapacity (n + 1) t' := by
  rw [moveEntry]
  by_cases hocc : (ht.entries n).state = .occupied
  · have hview : view text ht n =
        .occupied (text (ht.entries n).keyBuf) (ht.entries n).value :=
      viewEntry_eq_occupied.mpr ⟨hocc, rfl, rfl⟩
    have hk := hs.keyAt n hocc
    -- the key is in no other bucket of the old table
    have hnew : valueOf text t (text (ht.entries n).keyBuf) = none := by
      refine Option.eq_none_iff_forall_ne_some.mpr fun v hv => ?_
      obtain ⟨i, hi, hiv⟩ := (h.value _ v).mp hv
      have := hs.ok.sound.unique (by omega) hn hiv hview
      omega
    have hempty : HasEmpty t := by
      have hle := h.length_le
      have hroom := h.noneDeleted.capacity_le h.keyed.ok
      rw [h.capacity] at hroom
      exact room_pos_iff.mp (by omega)
    obtain ⟨slot, hset, hok, hval⟩ :=
      oaHashSetEntry_of_hasEmpty h.keyed.ok hk hnew hempty (ht.entries n).value
    refine ⟨_, (if_pos hocc).trans hset, h.keyed.occupy hk hok, h.capacity, h.buckets,
      h.noneDeleted.occupy, Nat.succ_le_succ h.length_le, fun k v => ?_⟩
    rw [hval]
    split_ifs with hkey
    · rw [Option.some.injEq]
      constructor
      · rintro rfl
        exact ⟨n, by omega, hkey ▸ hview⟩
      · rintro ⟨i, hi, hiv⟩
        obtain rfl := hs.ok.sound.unique (by omega) hn (hkey ▸ hiv) hview
        rw [hview] at hiv
        exact (Bucket.occupied.inj hiv).2
    · rw [h.value]
      constructor
      · rintro ⟨i, hi, hiv⟩
        exact ⟨i, by omega, hiv⟩
      · rintro ⟨i, hi, hiv⟩
        rcases Nat.lt_succ_iff_lt_or_eq.mp hi with hi | rfl
        · exact ⟨i, hi, hiv⟩
        · rw [hview] at hiv
          exact absurd (Bucket.occupied.inj hiv).1.symm hkey
  · refine ⟨t, if_neg hocc, h.keyed, h.capacity, h.buckets, h.noneDeleted,
      Nat.le_succ_of_le h.length_le, fun k v => ?_⟩
    rw [h.value]
    constructor
    · rintro ⟨i, hi, hiv⟩
      exact ⟨i, by omega, hiv⟩
    · rintro ⟨i, hi, hiv⟩
      rcases Nat.lt_succ_iff_lt_or_eq.mp hi with hi | rfl
      · exact ⟨i, hi, hiv⟩
      · exact absurd (viewEntry_eq_occupied.mp hiv).1 hocc

/-- The whole loop. -/
theorem exists_moved (hs : Keyed text ht) (hcap : ht.capacity < newCapacity) :
    ∀ n ≤ ht.capacity, ∃ t, (List.range n).foldlM (moveEntry ht text)
        (oaHashInit newBuckets newCapacity) = some t ∧
      Moved text ht newBuckets newCapacity n t := by
  intro n
  induction n with
  | zero => exact fun _ => ⟨_, rfl, moved_zero (by omega)⟩
  | succ n ih =>
    intro hn
    obtain ⟨t, hfold, ht⟩ := ih (by omega)
    obtain ⟨t', hmove, ht'⟩ := ht.succ hs hcap (by omega)
    refine ⟨t', ?_, ht'⟩
    rw [List.range_succ, List.foldlM_append, hfold]
    exact (Option.bind_some ..).trans ((List.foldlM_cons ..).trans (by rw [hmove]; rfl))

/-- A rehash whose loop comes to its end. -/
theorem oaHashRehash_of_foldlM (h : ¬(newBuckets = 0 ∨ newCapacity ≤ ht.capacity))
    (hfold : (List.range ht.capacity).foldlM (moveEntry ht text)
      (oaHashInit newBuckets newCapacity) = some t) :
    oaHashRehash ht text newBuckets newCapacity = (ht.buckets, t) := by
  unfold moveEntry at hfold
  rw [oaHashRehash, if_neg h]
  dsimp only at hfold ⊢
  rw [hfold]

/-- **A rehash to more buckets does not fail**, and keeps the map. -/
theorem oaHashRehash_eq (hs : Keyed text ht) (hnew : newBuckets ≠ 0)
    (hcap : ht.capacity < newCapacity) :
    ∃ t, oaHashRehash ht text newBuckets newCapacity = (ht.buckets, t) ∧ Keyed text t ∧
      t.capacity = newCapacity ∧ t.buckets = newBuckets ∧ NoneDeleted t ∧
      t.length ≤ ht.capacity ∧ ∀ k, valueOf text t k = valueOf text ht k := by
  obtain ⟨t, hfold, hmoved⟩ : ∃ t, _ ∧ Moved text ht newBuckets newCapacity ht.capacity t :=
    exists_moved hs hcap _ (Nat.le_refl _)
  refine ⟨t, oaHashRehash_of_foldlM (by omega) hfold, hmoved.keyed, hmoved.capacity,
    hmoved.buckets, hmoved.noneDeleted, hmoved.length_le, fun k => ?_⟩
  refine Option.ext fun v => ?_
  rw [hmoved.value, valueOf, hs.ok.sound.lookup_eq_some_iff]

/-! ### Runs -/

/-- The buffers and a table. -/
structure Store where
  text : Text
  table : Table

/-- What the kernel does with a table. The keys are given by their buffers, with their lengths as
`strlen` finds them. -/
inductive Command
  | get (key : ℕ)
  | set (key value : ℕ)
  | remove (key : ℕ)
  | rehash (newBuckets newCapacity : ℕ)
  /-- A buffer is written to. -/
  | write (buf : ℕ) (content : List UInt8)

/-- A command, with what it returns. -/
def exec (s : Store) : Command → ℕ × Store
  | .get key => (oaHashGet s.table s.text key (s.text key).length, s)
  | .set key value =>
    let r := oaHashSet s.table s.text key (s.text key).length value
    (r.1, { s with table := r.2 })
  | .remove key =>
    match oaHashRemove s.table s.text key (s.text key).length with
    | some r => (1, { s with table := r.2 })
    | none => (0, s)
  | .rehash newBuckets newCapacity =>
    let r := oaHashRehash s.table s.text newBuckets newCapacity
    (r.1, { s with table := r.2 })
  | .write buf content => (0, { s with text := Function.update s.text buf content })

/-- The commands one after the other, with what they return. -/
def run (s : Store) : List Command → List ℕ × Store
  | [] => ([], s)
  | c :: cs => ((exec s c).1 :: (run (exec s c).2 cs).1, (run (exec s c).2 cs).2)

/-- What the callers see to: keys are not empty, and the buffer of a key in use is left alone. -/
def Admits (s : Store) : Command → Prop
  | .get key | .set key _ | .remove key => key ≠ 0 ∧ s.text key ≠ []
  | .rehash _ _ => True
  | .write buf _ => ∀ i, (s.table.entries i).state = .occupied → (s.table.entries i).keyBuf ≠ buf

/-- All commands of a run are admitted. -/
def AdmitsAll : Store → List Command → Prop
  | _, [] => True
  | s, c :: cs => Admits s c ∧ AdmitsAll (exec s c).2 cs

/-- **What a table is for**: the buffers, and a map from texts. -/
structure Spec where
  text : Text
  map : List UInt8 → Option ℕ
  /-- The number of buckets, and of those that can be counted on to be empty. -/
  capacity : ℕ
  room : ℕ

/-- What a map does. A new key may be refused when there is no room; a key that is there is not. -/
inductive Spec.Step : Spec → Command → ℕ → Spec → Prop
  | get (m : Spec) (key : ℕ) : Step m (.get key) ((m.map (m.text key)).getD 0) m
  | set (m : Spec) (key value : ℕ) :
      Step m (.set key value) value
        { m with map := Function.update m.map (m.text key) (some value), room := m.room - 1 }
  | refuse (m : Spec) (key value : ℕ) (h : m.map (m.text key) = none) (hroom : m.room = 0) :
      Step m (.set key value) 0 m
  | remove (m : Spec) (key : ℕ) :
      Step m (.remove key) (if (m.map (m.text key)).isSome then 1 else 0)
        { m with map := Function.update m.map (m.text key) none }
  /-- The old buckets are returned, wherever they are. -/
  | rehash (m : Spec) (newBuckets newCapacity old : ℕ) (hnew : newBuckets ≠ 0)
      (hcap : m.capacity < newCapacity) : Step m (.rehash newBuckets newCapacity) old
        { m with capacity := newCapacity, room := newCapacity - m.capacity }
  | keep (m : Spec) (newBuckets newCapacity : ℕ) (h : newBuckets = 0 ∨ newCapacity ≤ m.capacity) :
      Step m (.rehash newBuckets newCapacity) 0 m
  | write (m : Spec) (buf : ℕ) (content : List UInt8) :
      Step m (.write buf content) 0 { m with text := Function.update m.text buf content }

inductive Spec.Run : Spec → List Command → List ℕ → Spec → Prop
  | nil (m : Spec) : Run m [] [] m
  | cons {m m' m'' : Spec} {c : Command} {cs : List Command} {a : ℕ} {as : List ℕ}
      (h : m.Step c a m') (hs : Run m' cs as m'') : Run m (c :: cs) (a :: as) m''

/-- **A table stands for a map.** -/
structure Abstracts (s : Store) (m : Spec) : Prop where
  keyed : Keyed s.text s.table
  text : s.text = m.text
  map : ∀ k, valueOf s.text s.table k = m.map k
  capacity : s.table.capacity = m.capacity
  room : m.room ≤ room s.table

variable {s : Store} {m : Spec}

theorem keyAt_length {key : ℕ} (h : key ≠ 0 ∧ text key ≠ []) : KeyAt text key (text key).length :=
  ⟨h.1, rfl, h.2⟩

/-- A map that differs from another at one text. -/
theorem map_update {f g h : List UInt8 → Option ℕ} {a : List UInt8} {v : Option ℕ}
    (hf : ∀ k, f k = if k = a then v else g k) (hg : ∀ k, g k = h k) (k : List UInt8) :
    f k = Function.update h a v k := by
  rw [hf, hg, Function.update_apply]

theorem Keyed.congr {text' : Text} (hs : Keyed text ht) (h : ∀ i,
    (ht.entries i).state = .occupied → text' (ht.entries i).keyBuf = text (ht.entries i).keyBuf) :
    Keyed text' ht := by
  refine ⟨hs.ok.congr h, fun i hocc => ?_⟩
  have hk := hs.keyAt i hocc
  exact ⟨hk.ne_null, hk.len_eq.trans (by rw [h i hocc]), (h i hocc).symm ▸ hk.ne_nil⟩

/-- **One command is one step of the map.** -/
theorem exists_step (hm : Abstracts s m) (c : Command) (hc : Admits s c) :
    ∃ m', m.Step c (exec s c).1 m' ∧ Abstracts (exec s c).2 m' := by
  have hs := hm.keyed
  cases c with
  | get key =>
    refine ⟨m, ?_, hm⟩
    have hans : (exec s (.get key)).1 = (m.map (m.text key)).getD 0 := by
      rw [← hm.map, ← hm.text]
      exact oaHashGet_eq hs.ok (keyAt_length hc)
    rw [hans]
    exact .get m key
  | set key value =>
    rw [exec]
    obtain ⟨heq, hnew, hfull⟩ | ⟨hret, hkeyed, hcap, hroom, hval⟩ :=
      oaHashSet_spec hs (keyAt_length hc) value
    · rw [heq]
      rw [hm.map, hm.text] at hnew
      have hzero : room s.table = 0 := Nat.eq_zero_of_not_pos (mt room_pos_iff.mp hfull)
      exact ⟨m, .refuse m key value hnew (Nat.le_zero.mp (hzero ▸ hm.room)), hm⟩
    · have hstep := Spec.Step.set m key value
      rw [hret]
      refine ⟨_, hstep, hkeyed, hm.text, ?_, hcap.trans hm.capacity,
        (Nat.sub_le_sub_right hm.room 1).trans hroom⟩
      rw [← hm.text]
      exact map_update hval hm.map
  | remove key =>
    have hstep := Spec.Step.remove m key
    rw [exec]
    obtain ⟨hnone, heq⟩ | ⟨slot, hocc, heq, hok, hval⟩ := oaHashRemove_cases hs.ok (keyAt_length hc)
    · -- there is nothing to remove
      rw [heq]
      rw [hm.map, hm.text] at hnone
      have hmap : Function.update m.map (m.text key) none = m.map := by
        rw [← hnone, Function.update_eq_self]
      have hans : (if (m.map (m.text key)).isSome then 1 else 0) = 0 := by
        rw [hnone]
        rfl
      rw [hmap, hans] at hstep
      exact ⟨m, hstep, hm⟩
    · have hsome : (m.map (m.text key)).isSome := by
        rw [← hm.map, ← hm.text]
        by_contra hno
        have hnone := (oaHashGetEntry_eq_none_iff hs.ok (keyAt_length hc)).mpr
          (Option.not_isSome_iff_eq_none.mp hno)
        rw [oaHashRemove, hnone] at heq
        cases heq
      rw [heq]
      rw [if_pos hsome] at hstep
      refine ⟨_, hstep, hs.delete hok, hm.text, ?_, hm.capacity, hm.room.trans (room_delete hocc)⟩
      rw [← hm.text]
      exact map_update hval hm.map
  | rehash newBuckets newCapacity =>
    rw [exec]
    by_cases hgo : newBuckets = 0 ∨ newCapacity ≤ s.table.capacity
    · rw [oaHashRehash, if_pos hgo]
      exact ⟨m, .keep m _ _ (hm.capacity ▸ hgo), hm⟩
    · have hne : newBuckets ≠ 0 := fun h => hgo (Or.inl h)
      have hlt : s.table.capacity < newCapacity := by omega
      obtain ⟨t, heq, hkeyed, hcap, -, hdel, hlen, hval⟩ := oaHashRehash_eq hs hne hlt
      have hroom := hdel.capacity_le hkeyed.ok
      rw [heq]
      refine ⟨_, .rehash m _ _ _ hne (hm.capacity ▸ hlt), hkeyed, hm.text,
        fun k => (hval k).trans (hm.map k), hcap, ?_⟩
      change newCapacity - m.capacity ≤ room t
      rw [← hm.capacity]
      omega
  | write buf content =>
    have hkeep : ∀ i, (s.table.entries i).state = .occupied →
        Function.update s.text buf content (s.table.entries i).keyBuf =
          s.text (s.table.entries i).keyBuf :=
      fun i hocc => Function.update_of_ne (hc i hocc) _ _
    have htext : Function.update s.text buf content = Function.update m.text buf content := by
      rw [hm.text]
    refine ⟨_, .write m buf content, hs.congr hkeep, htext, fun k => ?_, hm.capacity, hm.room⟩
    change valueOf (Function.update s.text buf content) s.table k = m.map k
    rw [valueOf, view_congr hkeep]
    exact hm.map k

/-- A run from a table that stands for a map is a run of the map. -/
theorem exists_run (cs : List Command) (hm : Abstracts s m) (hcs : AdmitsAll s cs) :
    ∃ m', m.Run cs (run s cs).1 m' ∧ Abstracts (run s cs).2 m' := by
  induction cs generalizing s m with
  | nil => exact ⟨m, .nil m, hm⟩
  | cons c cs ih =>
    obtain ⟨m₁, hstep, hm₁⟩ := exists_step hm c hcs.1
    obtain ⟨m₂, hrun, hm₂⟩ := ih hm₁ hcs.2
    exact ⟨m₂, .cons hstep hrun, hm₂⟩

/-- A new table stands for the map without keys, with room for as many as there are buckets. -/
theorem abstracts_oaHashInit {buckets capacity : ℕ} (hc : 0 < capacity) :
    Abstracts ⟨text, oaHashInit buckets capacity⟩ ⟨text, fun _ => none, capacity, capacity⟩ := by
  have hinit : Keyed text (oaHashInit buckets capacity) := keyed_oaHashInit hc
  refine ⟨hinit, rfl, fun k => ?_, rfl, ?_⟩
  · refine hinit.ok.sound.lookup_eq_none_iff.mpr fun i _ v hv => ?_
    cases hv
  · have hdel : NoneDeleted (oaHashInit buckets capacity) :=
      fun _ => show EntryState.empty ≠ .deleted by decide
    exact hdel.capacity_le hinit.ok

/-- **A hash table is a map**: whatever is done with a table that starts out empty, it answers as a
map from texts does that starts out empty with room for `capacity` keys, and in the end it stands
for the map that is left. -/
theorem run_refines {buckets capacity : ℕ} (hc : 0 < capacity) {cs : List Command}
    (hcs : AdmitsAll ⟨text, oaHashInit buckets capacity⟩ cs) :
    ∃ m, Spec.Run ⟨text, fun _ => none, capacity, capacity⟩ cs
        (run ⟨text, oaHashInit buckets capacity⟩ cs).1 m ∧
      Abstracts (run ⟨text, oaHashInit buckets capacity⟩ cs).2 m :=
  exists_run cs (abstracts_oaHashInit hc) hcs

/-- Two keys in two buckets, one value replaced and one key removed. -/
theorem run_refines_sample :
    ∃ m, Spec.Run ⟨fun a => [a.toUInt8], fun _ => none, 2, 2⟩
        [.set 1 10, .set 2 20, .set 1 11, .remove 2, .get 1]
        (run ⟨fun a => [a.toUInt8], oaHashInit 100 2⟩
          [.set 1 10, .set 2 20, .set 1 11, .remove 2, .get 1]).1 m ∧
      Abstracts (run ⟨fun a => [a.toUInt8], oaHashInit 100 2⟩
        [.set 1 10, .set 2 20, .set 1 11, .remove 2, .get 1]).2 m :=
  run_refines (by decide) (by refine ⟨?_, ?_, ?_, ?_, ?_, trivial⟩ <;>
    exact ⟨by decide, List.cons_ne_nil _ _⟩)

end OaHash

end WillowOS
