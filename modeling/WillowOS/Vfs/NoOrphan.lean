import Mathlib.Data.List.Perm.Subperm
import Mathlib.Logic.Relation
import WillowOS.Vfs.Delete

/-!
# Deleting a directory with what is in it

`tmpfs_delete_directory_no_orphan` is to free a directory and all that is below it. The loop over
the entries of the directory is left at once, with a `break` before its body; what remains is a call
for the directory itself *with the same name*. So of the entries of the directory only one of the
name of the directory is looked for, and below that one again; all others are orphaned. And it is
the first entry of the name that is deleted, which may be a file.

The entries that are found on the way down are a list (`WillowOS.Vfs.NoOrphan.trail`), and what the
call does is said by that list: it frees the blocks of each, and takes it out of the directory that
it is in (`WillowOS.Vfs.NoOrphan.Deleted`). Nothing is orphaned exactly if each directory on the way
has no entry but the next one (**`WillowOS.Vfs.NoOrphan.deletesSubtree_iff`**).

The mutex of an object is freed with it, and is not listed. `kfree` of `NULL`, which the data of a
file may be, walks past the last node of the heap.
-/

namespace WillowOS

namespace Vfs

namespace NoOrphan

open Tmpfs

open Relation (TransGen ReflTransGen)

/-- The objects, and the blocks that were passed to `kfree`, the last one first. -/
structure State where
  objects : ℕ → TmpfsObject
  freed : List ℕ

/-- What is freed with an object: the object, and before it the data of a file. -/
def blocks (objects : ℕ → TmpfsObject) (x : ℕ) : List ℕ :=
  match objects x with
  | .file _ _ data _ => [x, data]
  | .directory .. => [x]

/-- The object in slot `i` is freed; `dir->files[i] = NULL; dir->num_files--;`. -/
def removeAt (s : State) (a i : ℕ) : Option State :=
  match s.objects a with
  | .file .. => none
  | .directory name dir =>
    if 0 ∈ blocks s.objects (dir.files i) then none
    else
      some
        { objects := Function.update s.objects a
            (.directory name (removeSlot ⟨dir, s.objects⟩ i).dir)
          freed := blocks s.objects (dir.files i) ++ s.freed }

/-- `tmpfs_delete_directory_no_orphan`, in the directory at `a`; with a bound for how far down the
calls go. -/
def tmpfsDeleteDirectoryNoOrphan : ℕ → State → ℕ → CString → Option State
  | 0, _, _, _ => none
  | n + 1, s, a, name =>
    match s.objects a with
    | .file .. => none
    | .directory _ dir =>
      match findSlot ⟨dir, s.objects⟩ name fun _ => true with
      | none => some s
      | some i =>
        if (s.objects (dir.files i)).type = 1 then
          (tmpfsDeleteDirectoryNoOrphan n s (dir.files i) name).bind fun s => removeAt s a i
        else removeAt s a i

/-! ### What the call has to do -/

/-- The object at `b` is an entry of the one at `a`. -/
def Holds (objects : ℕ → TmpfsObject) (a b : ℕ) : Prop := ∃ i, Slot objects a i b

/-- An object is in one slot only, and no directory is below itself. -/
structure Unshared (objects : ℕ → TmpfsObject) : Prop where
  unique : ∀ {a a' i j b}, Slot objects a i b → Slot objects a' j b → a = a' ∧ i = j
  rank : ∃ rank : ℕ → ℕ, ∀ a i b, Slot objects a i b → rank b < rank a

/-- **What the call has to do** with the directory at `b`, in slot `k` of the one at `a`: it comes
to its end, the slot is cleared, the blocks of what is at `b` and below have been freed, once each,
and nothing else has changed. -/
def DeletesSubtree (objects : ℕ → TmpfsObject) (a k b : ℕ) (name : CString) : Prop :=
  ∃ depth t, tmpfsDeleteDirectoryNoOrphan depth ⟨objects, []⟩ a name = some t ∧
    (∀ dirName dir, objects a = .directory dirName dir →
      t.objects a = .directory dirName (removeSlot ⟨dir, objects⟩ k).dir) ∧
    (∃ l : List ℕ, l.Nodup ∧ (∀ x, x ∈ l ↔ ReflTransGen (Holds objects) b x) ∧
      t.freed.Perm (l.flatMap (blocks objects))) ∧
    ∀ x, x ≠ a → ¬ReflTransGen (Holds objects) b x → t.objects x = objects x

/-- **One below the other**: a directory is empty, or its one entry has the name and is a file with
data, or such a directory again. -/
inductive Chain (objects : ℕ → TmpfsObject) (name : CString) : ℕ → Prop
  | empty {b : ℕ} (hdir : IsDir objects b) (hnone : ∀ c, ¬Holds objects b c) :
    Chain objects name b
  | file {b c size data count : ℕ} (hc : Holds objects b c) (only : ∀ d, Holds objects b d → d = c)
    (hfile : objects c = .file name size data count) (hdata : data ≠ 0) : Chain objects name b
  | directory {b c : ℕ} (hc : Holds objects b c) (only : ∀ d, Holds objects b d → d = c)
    (hname : (objects c).name = name) (hchain : Chain objects name c) : Chain objects name b

/-! ### The way down -/

/-- The entries that are found on the way down. -/
def trail (objects : ℕ → TmpfsObject) : ℕ → ℕ → CString → List ℕ
  | 0, _, _ => []
  | n + 1, a, name =>
    match objects a with
    | .file .. => []
    | .directory _ dir =>
      match findSlot ⟨dir, objects⟩ name fun _ => true with
      | none => []
      | some i =>
        dir.files i ::
          if (objects (dir.files i)).type = 1 then trail objects n (dir.files i) name else []

section Trail

variable {objects : ℕ → TmpfsObject} {rank : ℕ → ℕ} {a b c x i n : ℕ} {name : CString}

/-- **One step down**: there is no entry of the name, or the first one is next. -/
theorem trail_cases {dirName : CString} {dir : TmpfsDirectory}
    (hdir : objects a = .directory dirName dir) (n : ℕ) (name : CString) :
    (findSlot ⟨dir, objects⟩ name fun _ => true) = none ∧
        (∀ c, Holds objects a c → (objects c).name ≠ name) ∧ trail objects (n + 1) a name = [] ∨
      ∃ i, (findSlot ⟨dir, objects⟩ name fun _ => true) = some i ∧
        Slot objects a i (dir.files i) ∧ (objects (dir.files i)).name = name ∧
        trail objects (n + 1) a name = dir.files i ::
          if (objects (dir.files i)).type = 1 then trail objects n (dir.files i) name else [] := by
  cases hfind : findSlot ⟨dir, objects⟩ name fun _ => true with
  | none =>
    refine Or.inl ⟨rfl, ?_, by simp only [trail, hdir, hfind]⟩
    rintro c ⟨i, _, dir', heq, hlt, rfl, hne⟩ hname
    rw [hdir] at heq
    cases heq
    exact absurd (findSlot_eq_none hfind ⟨hlt, hne, hname⟩) (by simp)
  | some i =>
    obtain ⟨⟨hlt, hne, hname⟩, -⟩ := named_of_findSlot hfind
    exact Or.inr ⟨i, rfl, ⟨_, dir, hdir, hlt, rfl, hne⟩, hname, by simp only [trail, hdir, hfind]⟩

theorem isDir_of_type (h : (objects a).type = 1) : IsDir objects a := by
  cases hobject : objects a with
  | file =>
    rw [hobject] at h
    cases h
  | directory name dir => exact ⟨name, dir, hobject⟩

theorem rank_lt_of_transGen (hrank : ∀ a i b, Slot objects a i b → rank b < rank a)
    (h : TransGen (Holds objects) a x) : rank x < rank a := by
  induction h with
  | single h => exact h.elim fun i hi => hrank _ i _ hi
  | tail _ h ih => exact (h.elim fun i hi => hrank _ i _ hi).trans ih

/-- What is on the way down is below. -/
theorem transGen_of_mem_trail (hx : x ∈ trail objects n a name) :
    TransGen (Holds objects) a x := by
  induction n generalizing a with
  | zero => cases hx
  | succ n ih =>
    cases hobject : objects a with
    | file => simp [trail, hobject] at hx
    | directory dirName dir =>
      rcases trail_cases hobject n name with ⟨-, -, hnil⟩ | ⟨i, -, hslot, -, hcons⟩
      · rw [hnil] at hx
        cases hx
      · rw [hcons] at hx
        rcases List.mem_cons.mp hx with rfl | hx
        · exact TransGen.single ⟨i, hslot⟩
        · split_ifs at hx
          · exact TransGen.head ⟨i, hslot⟩ (ih hx)
          · cases hx

theorem nodup_trail (hrank : ∀ a i b, Slot objects a i b → rank b < rank a) :
    (trail objects n a name).Nodup := by
  induction n generalizing a with
  | zero => exact List.nodup_nil
  | succ n ih =>
    cases hobject : objects a with
    | file => simp [trail, hobject]
    | directory dirName dir =>
      rcases trail_cases hobject n name with ⟨-, -, hnil⟩ | ⟨i, -, hslot, -, hcons⟩
      · rw [hnil]
        exact List.nodup_nil
      · rw [hcons]
        split_ifs
        · refine List.nodup_cons.mpr ⟨fun hx => ?_, ih⟩
          exact absurd (rank_lt_of_transGen hrank (transGen_of_mem_trail hx)) (Nat.lt_irrefl _)
        · exact List.nodup_singleton _

/-- The way down from an entry does not come back. -/
theorem notMem_trail (hrank : ∀ a i b, Slot objects a i b → rank b < rank a)
    (hslot : Slot objects a i c) (n : ℕ) (name : CString) :
    a ∉ c :: trail objects n c name := by
  have hlt := hrank a i c hslot
  intro ha
  rcases List.mem_cons.mp ha with rfl | ha
  · exact absurd hlt (Nat.lt_irrefl _)
  · have := rank_lt_of_transGen hrank (transGen_of_mem_trail ha)
    omega

/-! ### The call -/

/-- **What the call does**, in terms of the way down. -/
structure Deleted (objects : ℕ → TmpfsObject) (freed : List ℕ) (a : ℕ) (name : CString)
    (trail : List ℕ) (t : State) : Prop where
  nonnull : ∀ c ∈ trail, 0 ∉ blocks objects c
  freed_eq : t.freed = trail.flatMap (blocks objects) ++ freed
  kept : ∀ x, x ∉ a :: trail → t.objects x = objects x
  blocks_eq : ∀ x, blocks t.objects x = blocks objects x
  dir : ∀ dirName dir, objects a = .directory dirName dir →
    t.objects a = .directory dirName (match findSlot ⟨dir, objects⟩ name fun _ => true with
      | none => dir
      | some i => (removeSlot ⟨dir, objects⟩ i).dir)

theorem blocks_directory {dirName : CString} {dir : TmpfsDirectory}
    (h : objects x = .directory dirName dir) : blocks objects x = [x] := by
  rw [blocks, h]

theorem blocks_congr {objects' : ℕ → TmpfsObject} (h : objects x = objects' x) :
    blocks objects x = blocks objects' x := by
  rw [blocks, blocks, h]

theorem removeAt_eq {s : State} {dirName : CString} {dir : TmpfsDirectory}
    (hdir : s.objects a = .directory dirName dir) : removeAt s a i =
      if 0 ∈ blocks s.objects (dir.files i) then none
      else
        some ⟨Function.update s.objects a (.directory dirName (removeSlot ⟨dir, s.objects⟩ i).dir),
          blocks s.objects (dir.files i) ++ s.freed⟩ := by
  simp only [removeAt, hdir]

/-- The entry is removed, after what was found below it. -/
theorem deleted_removeAt {s t : State} {freed rest : List ℕ} {dirName : CString}
    {dir : TmpfsDirectory} (hdir : objects a = .directory dirName dir)
    (hfind : (findSlot ⟨dir, objects⟩ name fun _ => true) = some i)
    (ha : a ∉ dir.files i :: rest) (hs : Deleted objects freed (dir.files i) name rest s)
    (h : removeAt s a i = some t) : Deleted objects freed a name (dir.files i :: rest) t := by
  have hsame : s.objects a = .directory dirName dir := (hs.kept a ha).trans hdir
  rw [removeAt_eq hsame, hs.blocks_eq, Option.ite_none_left_eq_some, Option.some.injEq] at h
  obtain ⟨hnull, rfl⟩ := h
  refine ⟨?_, ?_, fun x hx => ?_, fun x => ?_, fun dirName' dir' heq => ?_⟩
  · exact List.forall_mem_cons.mpr ⟨hnull, hs.nonnull⟩
  · rw [List.flatMap_cons, List.append_assoc, ← hs.freed_eq]
  · rw [List.mem_cons, not_or] at hx
    exact (Function.update_of_ne hx.1 _ _).trans (hs.kept x hx.2)
  · by_cases hxa : x = a
    · rw [hxa, blocks_directory hdir, blocks_directory (Function.update_self ..)]
    · rw [← hs.blocks_eq x]
      exact blocks_congr (Function.update_of_ne hxa _ _)
  · rw [hdir] at heq
    cases heq
    rw [hfind]
    exact Function.update_self _ _ _

/-- The call does what its way down says. -/
theorem deleted_of_eq_some {s t : State}
    (hrank : ∀ a i b, Slot s.objects a i b → rank b < rank a)
    (h : tmpfsDeleteDirectoryNoOrphan n s a name = some t) :
    Deleted s.objects s.freed a name (trail s.objects n a name) t := by
  induction n generalizing a t with
  | zero => cases h
  | succ n ih =>
    rw [tmpfsDeleteDirectoryNoOrphan] at h
    cases hobject : s.objects a with
    | file => simp [hobject] at h
    | directory dirName dir =>
      simp only [hobject] at h
      rcases trail_cases hobject n name with ⟨hfind, -, hnil⟩ | ⟨i, hfind, hslot, -, hcons⟩
      · simp only [hfind, Option.some.injEq] at h
        subst h
        rw [hnil]
        refine ⟨nofun, rfl, fun _ _ => rfl, fun _ => rfl, fun dirName' dir' heq => ?_⟩
        rw [hobject] at heq
        cases heq
        rw [hfind]
        exact hobject
      · simp only [hfind] at h
        rw [hcons]
        split_ifs at h ⊢ with htype
        · obtain ⟨u, hu, h⟩ := Option.bind_eq_some_iff.mp h
          exact deleted_removeAt hobject hfind (notMem_trail hrank hslot n name) (ih hu) h
        · refine deleted_removeAt hobject hfind (notMem_trail hrank hslot 0 name)
            ⟨nofun, rfl, fun _ _ => rfl, fun _ => rfl, fun dirName' dir' heq => ?_⟩ h
          rw [heq] at htype
          exact absurd rfl htype

/-- **The call comes to its end**, if no data on the way is `NULL`. -/
theorem exists_eq_some {s : State} (hrank : ∀ a i b, Slot s.objects a i b → rank b < rank a)
    (hn : rank a < n) (ha : IsDir s.objects a)
    (hnull : ∀ c ∈ trail s.objects n a name, 0 ∉ blocks s.objects c) :
    ∃ t, tmpfsDeleteDirectoryNoOrphan n s a name = some t := by
  induction n generalizing a with
  | zero => omega
  | succ n ih =>
    obtain ⟨dirName, dir, hdir⟩ := ha
    rw [tmpfsDeleteDirectoryNoOrphan]
    simp only [hdir]
    rcases trail_cases hdir n name with ⟨hfind, -, hnil⟩ | ⟨i, hfind, hslot, -, hcons⟩
    · simp only [hfind]
      exact ⟨s, rfl⟩
    · simp only [hfind]
      have hlt := hrank a i _ hslot
      rw [hcons] at hnull
      obtain ⟨hfirst, hnull⟩ := List.forall_mem_cons.mp hnull
      split_ifs at hnull ⊢ with htype
      · obtain ⟨u, hu⟩ := ih (by omega) (isDir_of_type htype) hnull
        have hspec := deleted_of_eq_some hrank hu
        have hsame : u.objects a = .directory dirName dir :=
          (hspec.kept a (notMem_trail hrank hslot n name)).trans hdir
        rw [hu, Option.bind_some, removeAt_eq hsame, hspec.blocks_eq, if_neg hfirst]
        exact ⟨_, rfl⟩
      · rw [removeAt_eq hdir, if_neg hfirst]
        exact ⟨_, rfl⟩

/-- A removal is one of the model without the data. -/
theorem removeAt_sim {s t : State} {d : Delete.State} (hd : d.objects = s.objects)
    (h : removeAt s a i = some t) :
    ∃ d', Delete.removeAt d a i = some d' ∧ d'.objects = t.objects := by
  cases hobject : s.objects a with
  | file => simp [removeAt, hobject] at h
  | directory dirName dir =>
    rw [removeAt_eq hobject, Option.ite_none_left_eq_some, Option.some.injEq] at h
    obtain ⟨hnull, rfl⟩ := h
    have hne : dir.files i ≠ 0 := fun h0 => hnull (by
      rw [← h0, blocks]
      split <;> exact List.mem_cons_self)
    simp only [Delete.removeAt, hd, hobject, if_neg hne]
    exact ⟨_, rfl, rfl⟩

/-- **So is the call**: what it leaves of the objects is the same. -/
theorem deleteNoOrphan_sim {s t : State} {d : Delete.State} (hd : d.objects = s.objects)
    (h : tmpfsDeleteDirectoryNoOrphan n s a name = some t) :
    ∃ d', Delete.deleteNoOrphan n d a name = some d' ∧ d'.objects = t.objects := by
  induction n generalizing a t with
  | zero => cases h
  | succ n ih =>
    rw [tmpfsDeleteDirectoryNoOrphan] at h
    rw [Delete.deleteNoOrphan, hd]
    cases hobject : s.objects a with
    | file => simp [hobject] at h
    | directory dirName dir =>
      simp only [hobject] at h ⊢
      cases hfind : findSlot ⟨dir, s.objects⟩ name fun _ => true with
      | none =>
        simp only [hfind, Option.some.injEq] at h ⊢
        exact ⟨d, rfl, hd.trans (h ▸ rfl)⟩
      | some i =>
        simp only [hfind] at h ⊢
        split_ifs at h ⊢
        · obtain ⟨u, hu, h⟩ := Option.bind_eq_some_iff.mp h
          obtain ⟨d', hd', hobjects⟩ := ih hu
          rw [hd', Option.bind_some]
          exact removeAt_sim hobjects h
        · exact removeAt_sim hd h

/-! ### Chains -/

/-- **If all that is below is on the way down**, and its data is there, the directories are one
below the other. -/
theorem chain_of_forall_mem_trail (hu : Unshared objects)
    (hrank : ∀ a i b, Slot objects a i b → rank b < rank a) (hb : IsDir objects b)
    (hall : ∀ x, TransGen (Holds objects) b x → x ∈ trail objects n b name)
    (hnull : ∀ c ∈ trail objects n b name, 0 ∉ blocks objects c) : Chain objects name b := by
  induction n generalizing b with
  | zero => exact .empty hb fun c hc => absurd (hall c (.single hc)) List.not_mem_nil
  | succ n ih =>
    obtain ⟨dirName, dir, hdir⟩ := hb
    rcases trail_cases hdir n name with ⟨-, -, hnil⟩ | ⟨i, -, hslot, hname, hcons⟩
    · rw [hnil] at hall
      exact .empty ⟨_, _, hdir⟩ fun c hc => absurd (hall c (.single hc)) List.not_mem_nil
    rw [hcons] at hall hnull
    have hholds : Holds objects b (dir.files i) := ⟨i, hslot⟩
    -- an entry further down would be an entry of `b` and of something below
    have only : ∀ d, Holds objects b d → d = dir.files i := by
      intro d hd
      rcases List.mem_cons.mp (hall d (.single hd)) with rfl | hmem
      · rfl
      split_ifs at hmem
      · obtain ⟨y, hy, j, hj⟩ := (TransGen.tail'_iff.mp (transGen_of_mem_trail hmem))
        obtain ⟨k, hk⟩ := hd
        obtain rfl := (hu.unique hk hj).1
        exact absurd (rank_lt_of_transGen hrank (TransGen.tail' hy hholds)) (Nat.lt_irrefl _)
      · cases hmem
    split_ifs at hall hnull with htype
    · refine .directory hholds only hname (ih (isDir_of_type htype) (fun x hx => ?_)
        fun c hc => hnull c (List.mem_cons_of_mem _ hc))
      rcases List.mem_cons.mp (hall x (.head hholds hx)) with rfl | hmem
      · exact absurd (rank_lt_of_transGen hrank hx) (Nat.lt_irrefl _)
      · exact hmem
    · cases hobject : objects (dir.files i) with
      | directory name' dir' =>
        rw [hobject] at htype
        exact absurd rfl htype
      | file name' size data count =>
        rw [hobject] at hname
        obtain rfl : name' = name := hname
        refine .file hholds only hobject fun h0 => hnull _ List.mem_cons_self ?_
        rw [blocks, hobject, h0]
        exact List.mem_cons_of_mem _ List.mem_cons_self

/-- A file has no entries. -/
theorem not_holds_file {size data count : ℕ} (h : objects a = .file name size data count) (b : ℕ) :
    ¬Holds objects a b := by
  rintro ⟨i, _, dir, hdir, -⟩
  rw [h] at hdir
  cases hdir

theorem Chain.isDir (h : Chain objects name b) : IsDir objects b := by
  cases h with
  | empty hdir => exact hdir
  | file hc => exact hc.elim fun _ h => h.isDir
  | directory hc => exact hc.elim fun _ h => h.isDir

/-- The way down from a directory with one entry, which has the name. -/
theorem trail_of_only (hc : Holds objects b c) (only : ∀ d, Holds objects b d → d = c)
    (hname : (objects c).name = name) (n : ℕ) : trail objects (n + 1) b name =
      c :: if (objects c).type = 1 then trail objects n c name else [] := by
  obtain ⟨dirName, dir, hdir⟩ : IsDir objects b := hc.elim fun _ h => h.isDir
  rcases trail_cases hdir n name with ⟨-, hnone, -⟩ | ⟨i, -, hslot, -, hcons⟩
  · exact absurd hname (hnone c hc)
  · rw [hcons, only _ ⟨i, hslot⟩]

/-- In a chain, all that is below is on the way down, and its data is there. -/
theorem Chain.forall_mem_trail (hrank : ∀ a i b, Slot objects a i b → rank b < rank a)
    (h : Chain objects name b) (hn : rank b < n) :
    (∀ x, TransGen (Holds objects) b x → x ∈ trail objects n b name) ∧
      ∀ c ∈ trail objects n b name, 0 ∉ blocks objects c := by
  induction h generalizing n with
  | empty hdir hnone =>
    have hbelow : ∀ x, ¬TransGen (Holds objects) _ x := fun x hx => by
      obtain ⟨c, hc, -⟩ := TransGen.head'_iff.mp hx
      exact hnone c hc
    exact ⟨fun x hx => absurd hx (hbelow x),
      fun c hc => absurd (transGen_of_mem_trail hc) (hbelow c)⟩
  | @file b c size data count hc only hfile hdata =>
    obtain ⟨m, rfl⟩ := Nat.exists_eq_add_one_of_ne_zero (Nat.ne_zero_of_lt hn)
    have htrail : trail objects (m + 1) b name = [c] := by
      rw [trail_of_only hc only (by rw [hfile]; rfl), hfile]
      rfl
    rw [htrail]
    refine ⟨fun x hx => ?_, fun d hd => ?_⟩
    · obtain ⟨d, hd, hx⟩ := TransGen.head'_iff.mp hx
      rw [only d hd] at hx
      rcases ReflTransGen.cases_head hx with rfl | ⟨y, hy, -⟩
      · exact List.mem_singleton_self _
      · exact absurd hy (not_holds_file hfile y)
    · obtain ⟨i, _, _, _, _, _, hne⟩ := hc
      rw [List.mem_singleton.mp hd, blocks, hfile]
      simpa using ⟨hne.symm, hdata.symm⟩
  | @directory b c hc only hname hchain ih =>
    obtain ⟨m, rfl⟩ := Nat.exists_eq_add_one_of_ne_zero (Nat.ne_zero_of_lt hn)
    obtain ⟨dirName, dir, hdir⟩ := hchain.isDir
    have htrail : trail objects (m + 1) b name = c :: trail objects m c name := by
      rw [trail_of_only hc only hname, hdir]
      rfl
    have hlt : rank c < rank b := hc.elim fun i hi => hrank b i c hi
    obtain ⟨hall, hnull⟩ := ih (show rank c < m by omega)
    rw [htrail]
    refine ⟨fun x hx => ?_, List.forall_mem_cons.mpr ⟨?_, hnull⟩⟩
    · obtain ⟨d, hd, hx⟩ := TransGen.head'_iff.mp hx
      rw [only d hd] at hx
      rcases ReflTransGen.cases_head hx with rfl | ⟨y, hy, hx⟩
      · exact List.mem_cons_self
      · exact List.mem_cons_of_mem _ (hall x (TransGen.head' hy hx))
    · obtain ⟨i, _, _, _, _, _, hne⟩ := hc
      rw [blocks_directory hdir]
      simpa using hne.symm

end Trail

/-! ### Whole subtrees -/

section Subtree

variable {objects : ℕ → TmpfsObject} {a b k n : ℕ} {name dirName : CString} {dir : TmpfsDirectory}

/-- If a part of the objects has as many blocks as all of them, it is all of them. -/
theorem subset_of_perm_flatMap {l l' : List ℕ} (hl : l.Nodup) (hsub : l ⊆ l')
    (hperm : (l.flatMap (blocks objects)).Perm (l'.flatMap (blocks objects))) : l' ⊆ l := by
  obtain ⟨l₀, hl₀, hsublist⟩ := hl.subperm hsub
  obtain ⟨rest, hrest⟩ := hsublist.exists_perm_append
  have hl' : l'.Perm (l ++ rest) := hrest.trans (hl₀.append_right rest)
  have hlength := (hperm.trans (hl'.flatMap_right _)).length_eq
  rw [List.flatMap_append, List.length_append] at hlength
  cases rest with
  | nil =>
    rw [List.append_nil] at hl'
    exact hl'.subset
  | cons x rest =>
    rw [List.flatMap_cons, List.length_append] at hlength
    have hpos : 0 < (blocks objects x).length := by
      rw [blocks]
      split <;> exact Nat.succ_pos _
    omega

/-- The way down to an entry that is a directory, and on. -/
theorem trail_of_first (hdir : objects a = .directory dirName dir)
    (hslot : Slot objects a k b) (hb : IsDir objects b)
    (hfirst : (findSlot ⟨dir, objects⟩ name fun _ => true) = some k) (n : ℕ) :
    trail objects (n + 1) a name = b :: trail objects n b name := by
  obtain ⟨_, dir', heq, -, rfl, -⟩ := hslot
  rw [hdir] at heq
  cases heq
  obtain ⟨dirName', dir', hb⟩ := hb
  simp only [trail, hdir, hfirst, hb, TmpfsObject.type, if_true]

/-- Only the slot that was found is cleared. -/
theorem findSlot_eq_of_removeSlot {t : State} {freed l : List ℕ}
    (hdir : objects a = .directory dirName dir) (hslot : Slot objects a k b)
    (hdeleted : Deleted objects freed a name l t)
    (hremoved : t.objects a = .directory dirName (removeSlot ⟨dir, objects⟩ k).dir) :
    (findSlot ⟨dir, objects⟩ name fun _ => true) = some k := by
  obtain ⟨_, dir', heq, -, rfl, hne⟩ := hslot
  rw [hdir] at heq
  cases heq
  have hcleared : (removeSlot ⟨dir, objects⟩ k).dir.files k = 0 := Function.update_self ..
  have hsame := (TmpfsObject.directory.inj ((hdeleted.dir _ _ hdir).symm.trans hremoved)).2
  cases hfind : findSlot ⟨dir, objects⟩ name fun _ => true with
  | none =>
    rw [hfind] at hsame
    rw [← hsame] at hcleared
    exact absurd hcleared hne
  | some i =>
    rw [hfind] at hsame
    rw [← hsame] at hcleared
    by_contra hik
    have hik : k ≠ i := fun h => hik (congrArg some h.symm)
    exact hne ((Function.update_of_ne hik _ _).symm.trans hcleared)

/-- If the call frees all that it has to, the directory is found first, and is a chain. -/
theorem DeletesSubtree.first_and_chain (hu : Unshared objects)
    (hdir : objects a = .directory dirName dir) (hslot : Slot objects a k b)
    (hb : IsDir objects b) (h : DeletesSubtree objects a k b name) :
    (findSlot ⟨dir, objects⟩ name fun _ => true) = some k ∧ Chain objects name b := by
  obtain ⟨rank, hrank⟩ := hu.rank
  obtain ⟨depth, t, hcall, hremoved, ⟨l, hnodup, hl, hperm⟩, -⟩ := h
  have hdeleted := deleted_of_eq_some hrank hcall
  have hfirst := findSlot_eq_of_removeSlot hdir hslot hdeleted (hremoved _ _ hdir)
  refine ⟨hfirst, ?_⟩
  cases depth with
  | zero => cases hcall
  | succ n =>
    have hfreed := hdeleted.freed_eq
    have hnonnull := hdeleted.nonnull
    have hnodup' : (trail objects (n + 1) a name).Nodup := nodup_trail hrank
    dsimp only at hfreed hnonnull
    rw [trail_of_first hdir hslot hb hfirst] at hfreed hnonnull hnodup'
    rw [hfreed, List.append_nil] at hperm
    -- the way down is part of the subtree, and has all its blocks
    have hsub : b :: trail objects n b name ⊆ l := fun x hx => by
      rcases List.mem_cons.mp hx with rfl | hx
      · exact (hl _).mpr ReflTransGen.refl
      · exact (hl x).mpr (transGen_of_mem_trail hx).to_reflTransGen
    have hall := subset_of_perm_flatMap hnodup' hsub hperm
    refine chain_of_forall_mem_trail hu hrank hb (fun x hx => ?_)
      fun c hc => hnonnull c (List.mem_cons_of_mem _ hc)
    rcases List.mem_cons.mp (hall ((hl x).mpr hx.to_reflTransGen)) with rfl | hmem
    · exact absurd (rank_lt_of_transGen hrank hx) (Nat.lt_irrefl _)
    · exact hmem

/-- **When nothing is orphaned.** For every finite tree, and every directory in another one: it has
to be the first entry of its name, and be empty, or have one entry, of its own name, that is a file
with data or such a directory. -/
theorem deletesSubtree_iff (hu : Unshared objects) (hdir : objects a = .directory dirName dir)
    (hslot : Slot objects a k b) (hb : IsDir objects b) :
    DeletesSubtree objects a k b name ↔
      (findSlot ⟨dir, objects⟩ name fun _ => true) = some k ∧ Chain objects name b := by
  refine ⟨fun h => h.first_and_chain hu hdir hslot hb, ?_⟩
  rintro ⟨hfirst, hchain⟩
  obtain ⟨rank, hrank⟩ := hu.rank
  obtain ⟨hall, hnull⟩ := hchain.forall_mem_trail hrank (hrank a k b hslot)
  have htrail := trail_of_first hdir hslot hb hfirst (rank a)
  have hmem : ∀ x, x ∈ b :: trail objects (rank a) b name ↔ ReflTransGen (Holds objects) b x := by
    intro x
    rw [List.mem_cons, Relation.reflTransGen_iff_eq_or_transGen]
    exact or_congr_right ⟨transGen_of_mem_trail, hall x⟩
  have hnonnull : ∀ c ∈ trail objects (rank a + 1) a name, 0 ∉ blocks objects c := by
    obtain ⟨_, _, hdir'⟩ := hb
    obtain ⟨_, _, _, _, _, hne⟩ := hslot
    rw [htrail]
    refine List.forall_mem_cons.mpr ⟨?_, hnull⟩
    rw [blocks_directory hdir']
    simpa using hne.symm
  obtain ⟨t, ht⟩ := exists_eq_some (s := ⟨objects, []⟩) hrank (Nat.lt_succ_self _)
    ⟨dirName, dir, hdir⟩ hnonnull
  have hdeleted := deleted_of_eq_some hrank ht
  have hfreed := hdeleted.freed_eq
  have hkept := hdeleted.kept
  have hnodup : (trail objects (rank a + 1) a name).Nodup := nodup_trail hrank
  dsimp only at hfreed hkept
  rw [htrail] at hfreed hkept hnodup
  refine ⟨rank a + 1, t, ht, fun dirName' dir' heq => ?_, ⟨_, hnodup, hmem, ?_⟩, fun x hxa hx => ?_⟩
  · rw [hdir] at heq
    cases heq
    have := hdeleted.dir _ _ hdir
    rw [hfirst] at this
    exact this
  · rw [hfreed, List.append_nil]
  · refine hkept x fun hmem' => ?_
    rcases List.mem_cons.mp hmem' with rfl | hmem'
    · exact hxa rfl
    · exact hx ((hmem x).mp hmem')

/-- In a tree nothing is shared. -/
theorem unshared_of_isTree {root : ℕ} (ht : IsTree objects root) : Unshared objects where
  unique hb hb' := by
    obtain rfl := ht.parent hb hb'
    exact ⟨rfl, ht.distinct hb hb' rfl⟩
  rank := ht.rank

end Subtree

/-- A directory `d` in the root, at address 1, with a file `d` in it. -/
def sameNames : ℕ → TmpfsObject
  | 1 => .directory ⟨[82], nul_notMem_R⟩ ⟨fun i => if i = 0 then 2 else 0, 32, 1⟩
  | 2 => .directory ⟨[100], nul_notMem_d⟩ ⟨fun i => if i = 0 then 3 else 0, 32, 1⟩
  | _ => .file ⟨[100], nul_notMem_d⟩ 5 9 0

/-- Only the file differs from the one of `twoLevels`. -/
theorem slot_sameNames {a i b : ℕ} (h : Slot sameNames a i b) : Slot twoLevels a i b := by
  obtain ⟨name, dir, hdir, hslot⟩ := h
  refine ⟨name, dir, ?_, hslot⟩
  unfold sameNames at hdir
  split at hdir
  · exact hdir
  · exact hdir
  · cases hdir

theorem unshared_sameNames : Unshared sameNames where
  unique hb hb' :=
    (unshared_of_isTree isTree_twoLevels).unique (slot_sameNames hb) (slot_sameNames hb')
  rank := by
    obtain ⟨rank, hrank⟩ := isTree_twoLevels.rank
    exact ⟨rank, fun a i b h => hrank a i b (slot_sameNames h)⟩

/-- The file has the name of the directory, and is found. -/
theorem deletesSubtree_iff_sameNames : DeletesSubtree sameNames 1 0 2 ⟨[100], by decide⟩ := by
  have hslot : Slot sameNames 1 0 2 := ⟨_, _, rfl, by decide, rfl, by decide⟩
  have hd : Holds sameNames 2 3 := ⟨0, _, _, rfl, by decide, rfl, by decide⟩
  have hfile : sameNames 3 = .file ⟨[100], by decide⟩ 5 9 0 := rfl
  refine (deletesSubtree_iff unshared_sameNames rfl hslot ⟨_, _, rfl⟩).mpr
    ⟨by decide, .file hd ?_ hfile (by decide)⟩
  rintro d ⟨i, hslot⟩
  have := slot_twoLevels (slot_sameNames hslot)
  omega

/-- **The file `f` in the directory `d` is orphaned.** -/
theorem not_deletesSubtree_twoLevels : IsTree twoLevels 1 ∧
    (∃ t, tmpfsDeleteDirectoryNoOrphan 3 ⟨twoLevels, []⟩ 1 ⟨[100], by decide⟩ = some t ∧
      t.freed = [2]) ∧
    ¬DeletesSubtree twoLevels 1 0 2 ⟨[100], by decide⟩ := by
  refine ⟨isTree_twoLevels, ⟨_, rfl, by decide⟩, fun h => ?_⟩
  have hslot : Slot twoLevels 1 0 2 := ⟨_, _, rfl, by decide, rfl, by decide⟩
  have hf : Holds twoLevels 2 3 := ⟨0, _, _, rfl, by decide, rfl, by decide⟩
  obtain ⟨-, hchain⟩ := h.first_and_chain (unshared_of_isTree isTree_twoLevels) rfl hslot
    ⟨_, _, rfl⟩
  cases hchain with
  | empty _ hnone => exact hnone 3 hf
  | file _ only hfile =>
    rw [← only 3 hf] at hfile
    exact absurd (TmpfsObject.file.inj hfile).1 (by decide)
  | directory _ only hname =>
    rw [← only 3 hf] at hname
    exact absurd hname (by decide)

end NoOrphan

end Vfs

end WillowOS
