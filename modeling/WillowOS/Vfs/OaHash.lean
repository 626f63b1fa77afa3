import WillowOS.Lib.Probing

/-!
# The hash table of the file-descriptor tables

`oa_hash.h` is a table with open addressing, whose keys are strings. An entry keeps its key
by pointer, with its length, and compares it to another one by comparing what the two
buffers hold *now*: a key changes when its buffer is written to. So every operation reads
the buffers (`WillowOS.OaHash.Text`).

As long as the lengths kept are those of the texts, the table is one of
`WillowOS.Probing`, with the texts as keys (`WillowOS.OaHash.view`), and what the operations
do is read off there: `WillowOS.OaHash.oaHashGet_eq`, `WillowOS.OaHash.oaHashSet_cases`,
`WillowOS.OaHash.oaHashRemove_cases`. In the kernel `oa_hash_remove` also frees the buffer of
the key, which is left to its caller here.
-/

namespace WillowOS

namespace OaHash

open Probing

/-- What the buffer at an address holds. -/
abbrev Text : Type := ℕ → List UInt8

/-- `enum oa_hash_entry_state`. -/
inductive EntryState
  | empty
  | occupied
  | deleted
deriving DecidableEq

/-- `struct oa_hash_entry`. -/
structure Entry where
  state : EntryState
  /-- `key.buf`. -/
  keyBuf : ℕ
  /-- `key.length`. -/
  keyLength : ℕ
  value : ℕ

/-- `struct oa_hash`, with the entries of its bucket array. -/
structure Table where
  /-- The number of occupied entries. -/
  length : ℕ
  capacity : ℕ
  /-- The address of the bucket array. -/
  buckets : ℕ
  /-- What that array holds. -/
  entries : ℕ → Entry

/-- An entry cleared with `memset`. -/
def zeroEntry : Entry := ⟨.empty, 0, 0, 0⟩

/-- `oa_hash_init`. -/
def oaHashInit (buckets capacity : ℕ) : Table := ⟨0, capacity, buckets, fun _ => zeroEntry⟩

/-- The hash of a text: the loop of `_oa_hash_genhash`. -/
def djb2 (key : List UInt8) : UInt64 :=
  key.foldl (fun hash c => ((hash &&& 0x7fffffff) <<< 5) + hash + c.toUInt64) 5381

/-- `_oa_hash_genhash`. -/
def oaHashGenhash (text : Text) (key len capacity : ℕ) : ℕ :=
  if key = 0 ∨ capacity = 0 then 0 else (djb2 ((text key).take len)).toNat % capacity

/-- The test for the key of an entry: it is occupied, the lengths are equal, and `memcmp`
finds no difference. -/
def Matches (text : Text) (entry : Entry) (key len : ℕ) : Prop :=
  entry.state = .occupied ∧ len = entry.keyLength ∧
    (text entry.keyBuf).take len = (text key).take len

instance (text : Text) (entry : Entry) (key len : ℕ) : Decidable (Matches text entry key len) :=
  inferInstanceAs (Decidable (_ ∧ _ ∧ _))

/-! ### The operations -/

/-- The loop of `oa_hash_get_entry` and of `oa_hash_remove`, over the slots it visits. -/
def getEntryLoop (ht : Table) (text : Text) (key len : ℕ) : List ℕ → Option ℕ
  | [] => none
  | slot :: slots =>
    if (ht.entries slot).state = .empty then none
    else if Matches text (ht.entries slot) key len then some slot
    else getEntryLoop ht text key len slots

/-- `oa_hash_get_entry`: the slot of the entry, `none` for `NULL`. -/
def oaHashGetEntry (ht : Table) (text : Text) (key len : ℕ) : Option ℕ :=
  if len = 0 ∨ ht.capacity = 0 then none
  else getEntryLoop ht text key len
    (probes ht.capacity (oaHashGenhash text key len ht.capacity))

/-- `oa_hash_get`. -/
def oaHashGet (ht : Table) (text : Text) (key len : ℕ) : ℕ :=
  match oaHashGetEntry ht text key len with
  | some slot => (ht.entries slot).value
  | none => 0

/-- A new entry in a slot, counted. -/
def Table.occupy (ht : Table) (slot key len value : ℕ) : Table :=
  { ht with
    entries := Function.update ht.entries slot ⟨.occupied, key, len, value⟩
    length := ht.length + 1 }

/-- The loop of `oa_hash_set_entry`, over the slots it visits; `firstDeleted` is `none` for
`SIZE_MAX`. -/
def setEntryLoop (ht : Table) (text : Text) (key len value : ℕ) :
    Option ℕ → List ℕ → Option (ℕ × Table)
  | _, [] => none
  | firstDeleted, slot :: slots =>
    let entry := ht.entries slot
    let firstDeleted :=
      if firstDeleted = none ∧ entry.state = .deleted then some slot else firstDeleted
    if entry.state = .empty then
      some (firstDeleted.getD slot, ht.occupy (firstDeleted.getD slot) key len value)
    else if Matches text entry key len then
      -- the value is replaced, the old key buffer stays
      some (slot, { ht with
        entries := Function.update ht.entries slot { entry with value := value } })
    else setEntryLoop ht text key len value firstDeleted slots

/-- `oa_hash_set_entry`: the slot of the entry, and the table; `none` for `NULL`, which
leaves the table as it was. -/
def oaHashSetEntry (ht : Table) (text : Text) (key len value : ℕ) : Option (ℕ × Table) :=
  if len = 0 ∨ ht.capacity = 0 then none
  else setEntryLoop ht text key len value none
    (probes ht.capacity (oaHashGenhash text key len ht.capacity))

/-- `oa_hash_set`. -/
def oaHashSet (ht : Table) (text : Text) (key len value : ℕ) : ℕ × Table :=
  match oaHashSetEntry ht text key len value with
  | some (slot, ht') => ((ht'.entries slot).value, ht')
  | none => (0, ht)

/-- The entry of a slot marked as deleted, and counted out. -/
def Table.delete (ht : Table) (slot : ℕ) : Table :=
  { ht with
    entries := Function.update ht.entries slot { ht.entries slot with state := .deleted }
    length := ht.length - 1 }

/-- `oa_hash_remove`: the key buffer it frees, and the table; `none` when it returns `0`. -/
def oaHashRemove (ht : Table) (text : Text) (key len : ℕ) : Option (ℕ × Table) :=
  (oaHashGetEntry ht text key len).map fun slot => ((ht.entries slot).keyBuf, ht.delete slot)

/-- `oa_hash_rehash`: the address of the old buckets, `0` for `NULL`, and the table. -/
def oaHashRehash (ht : Table) (text : Text) (newBuckets newCapacity : ℕ) : ℕ × Table :=
  if newBuckets = 0 ∨ newCapacity ≤ ht.capacity then (0, ht)
  else
    let moved := (List.range ht.capacity).foldlM
      (fun (t : Table) i =>
        let entry := ht.entries i
        if entry.state = .occupied then
          (oaHashSetEntry t text entry.keyBuf entry.keyLength entry.value).map Prod.snd
        else some t)
      (oaHashInit newBuckets newCapacity)
    match moved with
    | some t => (ht.buckets, t)
    | none => (0, ht)

/-! ### The table as a map from texts -/

/-- The bucket an entry is. -/
def viewEntry (text : Text) (entry : Entry) : Bucket (List UInt8) ℕ :=
  match entry.state with
  | .empty => .empty
  | .deleted => .deleted
  | .occupied => .occupied (text entry.keyBuf) entry.value

/-- The table, with the texts as keys. -/
def view (text : Text) (ht : Table) : ℕ → Bucket (List UInt8) ℕ :=
  fun i => viewEntry text (ht.entries i)

/-- The slot the probes of a text start from. -/
def home (capacity : ℕ) (key : List UInt8) : ℕ := (djb2 key).toNat % capacity

/-- The value of a text. -/
def valueOf (text : Text) (ht : Table) (k : List UInt8) : Option ℕ :=
  lookup ht.capacity (home ht.capacity) (view text ht) k

/-- Some bucket has never been used. -/
def HasEmpty (ht : Table) : Prop := ∃ i < ht.capacity, (ht.entries i).state = .empty

instance (ht : Table) : Decidable (HasEmpty ht) :=
  inferInstanceAs (Decidable (∃ i < ht.capacity, (ht.entries i).state = .empty))

/-- **A table in order**: the lengths kept are those of the keys, the keys are where their
probes meet them, and the entries are counted. -/
structure Ok (text : Text) (ht : Table) : Prop where
  capacity_pos : 0 < ht.capacity
  keyLength : ∀ {i}, (ht.entries i).state = .occupied →
    (ht.entries i).keyLength = (text (ht.entries i).keyBuf).length
  sound : Sound ht.capacity (home ht.capacity) (view text ht)
  length : ht.length = load ht.capacity (view text ht)

variable {text text' : Text} {ht : Table} {key len value slot i : ℕ} {k : List UInt8}
  {l : List ℕ} {free : Option ℕ}

theorem viewEntry_eq_empty {entry : Entry} :
    viewEntry text entry = .empty ↔ entry.state = .empty := by
  rw [viewEntry]
  cases entry.state <;> simp

theorem viewEntry_eq_occupied {entry : Entry} {v : ℕ} :
    viewEntry text entry = .occupied k v ↔
      entry.state = .occupied ∧ text entry.keyBuf = k ∧ entry.value = v := by
  rw [viewEntry]
  cases entry.state <;> simp

/-- Two keys of the lengths kept are compared by their texts. -/
theorem matches_iff (entry : Entry) (hlen : len = (text key).length)
    (hentry : entry.state = .occupied → entry.keyLength = (text entry.keyBuf).length) :
    Matches text entry key len ↔ entry.state = .occupied ∧ text entry.keyBuf = text key := by
  refine and_congr_right fun hocc => ?_
  rw [hentry hocc, hlen, List.take_length]
  constructor
  · rintro ⟨heq, htake⟩
    rwa [heq, List.take_length] at htake
  · intro heq
    rw [heq, List.take_length]
    exact ⟨rfl, rfl⟩

/-- The loop of `oa_hash_get_entry` finds the text of the key. -/
theorem getEntryLoop_eq (hlen : len = (text key).length)
    (hkeys : ∀ {i}, (ht.entries i).state = .occupied →
      (ht.entries i).keyLength = (text (ht.entries i).keyBuf).length) :
    getEntryLoop ht text key len l = find (view text ht) (text key) l := by
  induction l with
  | nil => rfl
  | cons slot l ih =>
    have hmatch := matches_iff (ht.entries slot) hlen hkeys
    rw [getEntryLoop, find, ih, view, viewEntry]
    cases hst : (ht.entries slot).state with
    | empty => rfl
    | deleted =>
      rw [if_neg (by decide), if_neg]
      rw [hmatch, hst]
      exact fun h => absurd h.1 (by decide)
    | occupied =>
      rw [if_neg (by decide)]
      simp only [hmatch, hst, true_and]

/-- The loop of `oa_hash_set_entry` takes the place found for a new text. -/
theorem setEntryLoop_eq (hlen : len = (text key).length)
    (hkeys : ∀ {i}, (ht.entries i).state = .occupied →
      (ht.entries i).keyLength = (text (ht.entries i).keyBuf).length)
    (hnew : ∀ j ∈ l, ∀ w, view text ht j ≠ .occupied (text key) w) :
    setEntryLoop ht text key len value free l =
      (place (view text ht) (text key) free l).map fun slot =>
        (slot, ht.occupy slot key len value) := by
  induction l generalizing free with
  | nil => rfl
  | cons slot l ih =>
    have ih := fun free => @ih free fun j hj => hnew j (List.mem_cons_of_mem _ hj)
    have hno : ¬Matches text (ht.entries slot) key len := by
      rw [matches_iff _ hlen hkeys]
      rintro ⟨hocc, heq⟩
      exact hnew slot List.mem_cons_self _ (viewEntry_eq_occupied.mpr ⟨hocc, heq, rfl⟩)
    rw [setEntryLoop, place, view, viewEntry, if_neg hno]
    cases hst : (ht.entries slot).state with
    | empty =>
      rw [if_pos rfl, if_neg fun h => absurd h.2 (by decide)]
      rfl
    | deleted =>
      rw [if_neg (by decide), ih]
      cases free <;> rfl
    | occupied =>
      have hne : text (ht.entries slot).keyBuf ≠ text key := fun heq =>
        hnew slot List.mem_cons_self _ (viewEntry_eq_occupied.mpr ⟨hst, heq, rfl⟩)
      rw [if_neg (by decide), if_neg fun h => absurd h.2 (by decide)]
      exact (ih free).trans (congrArg _ (if_neg hne).symm)

/-! ### What the operations do -/

/-- A buffer that holds a key of that length. -/
structure KeyAt (text : Text) (key len : ℕ) : Prop where
  ne_null : key ≠ 0
  len_eq : len = (text key).length
  ne_nil : text key ≠ []

theorem KeyAt.len_ne_zero (hk : KeyAt text key len) : len ≠ 0 := by
  rw [hk.len_eq]
  exact mt List.length_eq_zero_iff.mp hk.ne_nil

theorem oaHashGenhash_eq (hk : KeyAt text key len) {capacity : ℕ} (hc : 0 < capacity) :
    oaHashGenhash text key len capacity = home capacity (text key) := by
  rw [oaHashGenhash, if_neg, hk.len_eq, List.take_length, home]
  rintro (h | h)
  · exact hk.ne_null h
  · omega

theorem oaHashGetEntry_eq (hok : Ok text ht) (hk : KeyAt text key len) :
    oaHashGetEntry ht text key len =
      find (view text ht) (text key) (probes ht.capacity (home ht.capacity (text key))) := by
  have hpos := hok.capacity_pos
  have hlen := hk.len_ne_zero
  rw [oaHashGetEntry, if_neg (by omega), oaHashGenhash_eq hk hpos,
    getEntryLoop_eq hk.len_eq hok.keyLength]

/-- **`oa_hash_get` looks up the text in the buffer it is given.** -/
theorem oaHashGet_eq (hok : Ok text ht) (hk : KeyAt text key len) :
    oaHashGet ht text key len = (valueOf text ht (text key)).getD 0 := by
  rw [oaHashGet, oaHashGetEntry_eq hok hk, valueOf, lookup]
  cases hf : find (view text ht) (text key)
      (probes ht.capacity (home ht.capacity (text key))) with
  | none => rfl
  | some slot =>
    obtain ⟨-, v, hv⟩ := occupied_of_find hf
    rw [Option.bind_some, hv]
    exact (viewEntry_eq_occupied.mp hv).2.2

theorem oaHashGetEntry_eq_none_iff (hok : Ok text ht) (hk : KeyAt text key len) :
    oaHashGetEntry ht text key len = none ↔ valueOf text ht (text key) = none := by
  rw [oaHashGetEntry_eq hok hk, hok.sound.find_eq_none_iff, valueOf, hok.sound.lookup_eq_none_iff]

theorem occupy_entries : (ht.occupy slot key len value).entries =
    Function.update ht.entries slot ⟨.occupied, key, len, value⟩ := rfl

theorem delete_entries : (ht.delete slot).entries =
    Function.update ht.entries slot { ht.entries slot with state := .deleted } := rfl

theorem view_occupy :
    view text (ht.occupy slot key len value) =
      Function.update (view text ht) slot (.occupied (text key) value) := by
  funext i
  rw [view, occupy_entries]
  rcases eq_or_ne i slot with rfl | hne
  · rw [Function.update_self, Function.update_self]
    rfl
  · rw [Function.update_of_ne hne, Function.update_of_ne hne, view]

theorem view_delete :
    view text (ht.delete slot) = Function.update (view text ht) slot .deleted := by
  funext i
  rw [view, delete_entries]
  rcases eq_or_ne i slot with rfl | hne
  · rw [Function.update_self, Function.update_self]
    rfl
  · rw [Function.update_of_ne hne, Function.update_of_ne hne, view]

/-- **What `oa_hash_set` does with a new key**: nothing, if no bucket is empty. -/
theorem oaHashSet_cases (hok : Ok text ht) (hk : KeyAt text key len)
    (hnew : valueOf text ht (text key) = none) (value : ℕ) :
    ¬HasEmpty ht ∧ oaHashSet ht text key len value = (0, ht) ∨
      HasEmpty ht ∧ ∃ slot, oaHashSet ht text key len value =
          (value, ht.occupy slot key len value) ∧
        Ok text (ht.occupy slot key len value) ∧
        ∀ k, valueOf text (ht.occupy slot key len value) k =
          if k = text key then some value else valueOf text ht k := by
  have hpos := hok.capacity_pos
  have hlen := hk.len_ne_zero
  have hempty : HasEmpty ht ↔ ¬∀ i < ht.capacity, view text ht i ≠ .empty := by
    simp only [HasEmpty, view, ne_eq, viewEntry_eq_empty, not_forall, not_not, exists_prop]
  have hset : oaHashSetEntry ht text key len value =
      (place (view text ht) (text key) none
        (probes ht.capacity (home ht.capacity (text key)))).map fun slot =>
          (slot, ht.occupy slot key len value) := by
    rw [oaHashSetEntry, if_neg (by omega), oaHashGenhash_eq hk hpos]
    refine setEntryLoop_eq hk.len_eq hok.keyLength fun j hj => ?_
    exact hok.sound.lookup_eq_none_iff.mp hnew j ((mem_probes (hok.sound.home_lt _)).mp hj)
  rw [oaHashSet, hset]
  cases hplace : place (view text ht) (text key) none
      (probes ht.capacity (home ht.capacity (text key))) with
  | none =>
    refine Or.inl ⟨?_, rfl⟩
    rw [hempty, not_not]
    exact (hok.sound.place_eq_none_iff hnew).mp hplace
  | some slot =>
    obtain ⟨hslot, hfree, -⟩ := hok.sound.of_place hnew hplace
    refine Or.inr ⟨?_, slot, ?_, ⟨hpos, ?_, ?_, ?_⟩, fun k => ?_⟩
    · rw [hempty, ← hok.sound.place_eq_none_iff hnew, hplace]
      nofun
    · rw [Option.map_some]
      dsimp only
      rw [occupy_entries, Function.update_self]
    · -- the length kept with the new key is that of its text
      intro i hocc
      rw [occupy_entries] at hocc ⊢
      rcases eq_or_ne i slot with rfl | hne
      · rw [Function.update_self]
        exact hk.len_eq
      · rw [Function.update_of_ne hne] at hocc ⊢
        exact hok.keyLength hocc
    · rw [view_occupy]
      exact hok.sound.occupy hnew hplace
    · rw [view_occupy]
      exact (congrArg (· + 1) hok.length).trans (load_occupy hslot hfree).symm
    · rw [valueOf, view_occupy]
      exact hok.sound.lookup_occupy hnew hplace k

/-- **What `oa_hash_remove` does.** -/
theorem oaHashRemove_cases (hok : Ok text ht) (hk : KeyAt text key len) :
    valueOf text ht (text key) = none ∧ oaHashRemove ht text key len = none ∨
      ∃ slot, (ht.entries slot).state = .occupied ∧
        oaHashRemove ht text key len = some ((ht.entries slot).keyBuf, ht.delete slot) ∧
        Ok text (ht.delete slot) ∧
        ∀ k, valueOf text (ht.delete slot) k =
          if k = text key then none else valueOf text ht k := by
  rw [oaHashRemove]
  cases hentry : oaHashGetEntry ht text key len with
  | none => exact Or.inl ⟨(oaHashGetEntry_eq_none_iff hok hk).mp hentry, rfl⟩
  | some slot =>
    rw [oaHashGetEntry_eq hok hk, hok.sound.find_eq_some_iff] at hentry
    obtain ⟨hslot, v, hv⟩ := hentry
    refine Or.inr ⟨slot, (viewEntry_eq_occupied.mp hv).1, rfl,
      ⟨hok.capacity_pos, ?_, ?_, ?_⟩, fun k => ?_⟩
    · intro i hocc
      rw [delete_entries] at hocc ⊢
      rcases eq_or_ne i slot with rfl | hne
      · rw [Function.update_self] at hocc
        cases hocc
      · rw [Function.update_of_ne hne] at hocc ⊢
        exact hok.keyLength hocc
    · rw [view_delete]
      exact hok.sound.delete
    · rw [view_delete]
      exact (congrArg (· - 1) hok.length).trans (load_delete hslot hv).symm
    · rw [valueOf, view_delete]
      exact hok.sound.lookup_delete hslot hv k

/-- A new table is in order, and every one of its buckets is empty. -/
theorem ok_oaHashInit {buckets capacity : ℕ} (hc : 0 < capacity) :
    Ok text (oaHashInit buckets capacity) where
  capacity_pos := hc
  keyLength := nofun
  sound := ⟨fun _ => Nat.mod_lt _ hc, fun _ _ hi => (nomatch hi), fun _ hi => (nomatch hi)⟩
  length := by
    refine (Finset.card_eq_zero.mpr (Finset.eq_empty_iff_forall_notMem.mpr fun i hi => ?_)).symm
    obtain ⟨-, k, v, hv⟩ := mem_occupiedSlots.mp hi
    cases hv

/-! ### Writing to other buffers -/

/-- The table does not change when its own key buffers do not. -/
theorem view_congr (h : ∀ i, (ht.entries i).state = .occupied →
    text' (ht.entries i).keyBuf = text (ht.entries i).keyBuf) : view text' ht = view text ht := by
  funext i
  rw [view, view, viewEntry, viewEntry]
  cases hst : (ht.entries i).state with
  | occupied => rw [h i hst]
  | empty => rfl
  | deleted => rfl

theorem Ok.congr (hok : Ok text ht) (h : ∀ i, (ht.entries i).state = .occupied →
    text' (ht.entries i).keyBuf = text (ht.entries i).keyBuf) : Ok text' ht where
  capacity_pos := hok.capacity_pos
  keyLength := fun hocc => by rw [h _ hocc]; exact hok.keyLength hocc
  sound := by rw [view_congr h]; exact hok.sound
  length := by rw [view_congr h]; exact hok.length

end OaHash

end WillowOS
