import WillowOS.Tmpfs.Tree
import WillowOS.Vfs.FdTable

/-!
# Paths

A path is cut into its components by `strtok_r`, and `vfs_resolve_path` looks each of them up in
what the one before it led to. It does not look at what that was: a component that does not exist
leads to `NULL`, and the next one is looked up in it; and a regular file is taken for a directory.
So only the last component may be missing. `vfs_fdopen` asserts that the path has led somewhere, so
that it does not come back when it has not.

A lookup inside of `NULL`, or of a regular file, is where the model ends (`WillowOS.Vfs.Stray`):
the one is a page fault, the other reads the size of the file as the address of its entries.
Nothing is mounted, and there is memory for the vnodes. What a path is for is to be followed from
the root (`WillowOS.Vfs.ResolvesAsTree`); **`WillowOS.Vfs.resolvesAsTree_iff`** says when it is.
-/

namespace WillowOS

/-- The string that begins with these bytes. -/
def CString.ofBytes (l : List UInt8) : CString where
  bytes := l.takeWhile (· ≠ 0)
  nul_notMem := fun h => by simpa using List.all_eq_true.mp List.all_takeWhile 0 h

namespace Vfs

open Tmpfs

/-! ### Components -/

/-- The first loop of `strtok_r`, over leading delimiters. -/
def skipDelim (delim : CString) : List UInt8 → List UInt8
  | [] => []
  | c :: s => if c ∈ delim.bytes then skipDelim delim s else c :: s

/-- The second loop of `strtok_r`: the rest of the token, and where the next call goes on. At the
end of the string that is `NULL`. -/
def scanToken (delim : CString) : List UInt8 → List UInt8 × Option (List UInt8)
  | [] => ([], none)
  | c :: s =>
    if c ∈ delim.bytes then ([], some s)
    else (c :: (scanToken delim s).1, (scanToken delim s).2)

/-- `strtok_r`: the token, and `*last`. -/
def strtokR (delim : CString) : Option (List UInt8) → Option (List UInt8 × Option (List UInt8))
  | none => none
  | some s =>
    match skipDelim delim s with
    | [] => none
    | c :: s => some (c :: (scanToken delim s).1, (scanToken delim s).2)

/-- The tokens of a string, of which there are less than `n`. -/
def tokens (delim : CString) : ℕ → Option (List UInt8) → List (List UInt8)
  | 0, _ => []
  | n + 1, s =>
    match strtokR delim s with
    | none => []
    | some (tok, last) => tok :: tokens delim n last

/-- `"/"`. -/
def slash : CString := ⟨[47], by decide⟩

/-- **The components of a path**: what stands between slashes, if it is not empty. -/
def components (path : CString) : List CString :=
  ((path.bytes.splitOnP (· = 47)).filter (· ≠ [])).map CString.ofBytes

/-! ### Resolution -/

/-- The two kinds of vnodes `tmpfs` makes. -/
inductive Vtype where
  | vreg
  | vdir
deriving DecidableEq

/-- A `vnode_t`: its type and its object. -/
structure Vnode where
  vnodeType : Vtype
  vnodeData : ℕ
deriving DecidableEq

/-- A lookup inside of something that is not a directory. -/
inductive Stray where
  | insideNull
  | insideFile
deriving DecidableEq

/-- `tmpfs_link_vnode`, with the type that goes with the object. -/
def tmpfsLinkVnode (objects : ℕ → TmpfsObject) (object : ℕ) : Vnode where
  vnodeType := if (objects object).type = 0 then .vreg else .vdir
  vnodeData := object

/-- `vnode_tmpfs_lookup`, `none` being `NULL`. -/
def vnodeTmpfsLookup (objects : ℕ → TmpfsObject) :
    Option Vnode → CString → Except Stray (Option Vnode)
  | none, _ => .error .insideNull
  | some vnode, name =>
    match objects vnode.vnodeData with
    | .file .. => .error .insideFile
    | .directory _ dir =>
      let temp := tmpfsLookup ⟨dir, objects⟩ name
      .ok (if temp = 0 then none else some (tmpfsLinkVnode objects temp))

/-- `vfs_resolve_path`. -/
def vfsResolvePath (objects : ℕ → TmpfsObject) (tmpfsRoot rootDir : Vnode) (path : CString) :
    Except Stray (Option Vnode) :=
  let rootDir := if path.bytes.head? = some 47 then tmpfsRoot else rootDir
  ((tokens slash (path.length + 1) (some path.bytes)).map CString.ofBytes).foldlM
    (vnodeTmpfsLookup objects) (some rootDir)

/-- `strcat`. -/
def strcat (s t : CString) : CString where
  bytes := s.bytes ++ t.bytes
  nul_notMem := by simp [s.nul_notMem, t.nul_notMem]

/-- The path `vfs_fdopen` resolves: one that does not begin with a slash has the `current_dir` of
the thread appended, which is `"/"` for every thread. -/
def fdopenPath (path : CString) : CString :=
  if path.bytes.head? = some 47 then path else strcat path slash

/-- `vfs_fdopen` from the path on, `vnode` being the address of the vnode it leads to. -/
def vfsFdopenPath (objects : ℕ → TmpfsObject) (tmpfsRoot : Vnode) (s : State) (path : CString)
    (vnode : ℕ) (flags mode : ℤ) : Option (ℤ × State) :=
  if s.schedulingStarted = false then some (-1, s)
  else
    match vfsResolvePath objects tmpfsRoot tmpfsRoot (fdopenPath path) with
    | .error _ => none
    | .ok none => vfsFdopen s 0 flags mode
    | .ok (some _) => vfsFdopen s vnode flags mode

/-! ### What a path is for -/

/-- **What resolving a path is for.** It leads to the object that its components lead to from the
root, and to `NULL` if they lead to none; opening it then gives `-1` and changes no descriptor. -/
structure ResolvesAsTree (objects : ℕ → TmpfsObject) (root : ℕ) (s : State) (path : CString)
    (flags mode : ℤ) : Prop where
  found : ∀ b, Follows objects root (components path) b →
    vfsResolvePath objects (tmpfsLinkVnode objects root) (tmpfsLinkVnode objects root) path =
      .ok (some (tmpfsLinkVnode objects b))
  missing : (∀ b, ¬Follows objects root (components path) b) →
    vfsResolvePath objects (tmpfsLinkVnode objects root) (tmpfsLinkVnode objects root) path =
      .ok none
  fdopen : (∀ b, ¬Follows objects root (components path) b) → ∀ vnode, ∃ s',
    vfsFdopenPath objects (tmpfsLinkVnode objects root) s path vnode flags mode = some (-1, s') ∧
      s'.fdTable = s.fdTable

/-- All components but the last lead to a directory. -/
def LeadsToDir (objects : ℕ → TmpfsObject) (root : ℕ) (names : List CString) : Prop :=
  ∃ front last a, names = front ++ [last] ∧ Follows objects root front a ∧ IsDir objects a

/-! ### The components are the tokens -/

section Tokens

variable {delim : CString} {s : List UInt8} {c : UInt8}

theorem splitOnP_skipDelim :
    ((skipDelim delim s).splitOnP (· ∈ delim.bytes)).filter (· ≠ []) =
      (s.splitOnP (· ∈ delim.bytes)).filter (· ≠ []) := by
  induction s with
  | nil => rfl
  | cons c s ih =>
    rw [skipDelim]
    split_ifs with hc
    · rw [ih, List.splitOnP_cons_eq_if_modifyHead, if_pos (by simpa using hc)]
      simp
    · rfl

theorem length_skipDelim_le : (skipDelim delim s).length ≤ s.length := by
  induction s with
  | nil => exact Nat.le_refl _
  | cons c s ih =>
    rw [skipDelim]
    split_ifs
    · exact ih.trans (Nat.le_succ _)
    · exact Nat.le_refl _

theorem head_skipDelim {r : List UInt8} (h : skipDelim delim s = c :: r) : c ∉ delim.bytes := by
  induction s with
  | nil => cases h
  | cons d s ih =>
    rw [skipDelim] at h
    split_ifs at h with hd
    · exact ih h
    · cases h
      exact hd

/-- The rest of a token, which has no delimiter, ends at a delimiter or with the string. -/
theorem scanToken_cases (delim : CString) (s : List UInt8) :
    (∀ x ∈ (scanToken delim s).1, x ∉ delim.bytes) ∧
      ((scanToken delim s).2 = none ∧ s = (scanToken delim s).1 ∨
        ∃ d ∈ delim.bytes, ∃ r, (scanToken delim s).2 = some r ∧
          s = (scanToken delim s).1 ++ d :: r) := by
  induction s with
  | nil => exact ⟨nofun, Or.inl ⟨rfl, rfl⟩⟩
  | cons c s ih =>
    rw [scanToken]
    split_ifs with hc
    · exact ⟨nofun, Or.inr ⟨c, hc, s, rfl, rfl⟩⟩
    · obtain ⟨hnone, hcases⟩ := ih
      refine ⟨fun x hx => ?_, ?_⟩
      · rcases List.mem_cons.mp hx with rfl | hx
        · exact hc
        · exact hnone x hx
      · rcases hcases with ⟨hlast, heq⟩ | ⟨d, hd, r, hlast, heq⟩
        · exact Or.inl ⟨hlast, congrArg (c :: ·) heq⟩
        · exact Or.inr ⟨d, hd, r, hlast, congrArg (c :: ·) heq⟩

/-- **The tokens of a string** are the parts between delimiters that are not empty. -/
theorem tokens_eq {n : ℕ} (h : s.length < n) :
    tokens delim n (some s) = (s.splitOnP (· ∈ delim.bytes)).filter (· ≠ []) := by
  induction n generalizing s with
  | zero => omega
  | succ n ih =>
    rw [← splitOnP_skipDelim, tokens, strtokR]
    have hlen : (skipDelim delim s).length ≤ s.length := length_skipDelim_le
    cases hskip : skipDelim delim s with
    | nil => simp
    | cons c r =>
      have hc := head_skipDelim hskip
      rw [hskip] at hlen
      obtain ⟨hnone, hcases⟩ := scanToken_cases delim r
      have htoken : ∀ x ∈ c :: (scanToken delim r).1, decide (x ∈ delim.bytes) = false := by
        simpa [hc] using hnone
      dsimp only
      rcases hcases with ⟨hlast, heq⟩ | ⟨d, hd, r', hlast, heq⟩
      · rw [hlast, ← heq]
        rw [← heq] at htoken
        rw [List.splitOnP_eq_singleton htoken]
        cases n <;> simp [tokens, strtokR]
      · have hlen' : r'.length < n := by
          have := congrArg List.length heq
          simp only [List.length_append, List.length_cons] at this hlen
          omega
        have hsplit : (c :: r).splitOnP (fun x => decide (x ∈ delim.bytes)) =
            (c :: (scanToken delim r).1) :: r'.splitOnP (fun x => decide (x ∈ delim.bytes)) := by
          conv_lhs => rw [heq]
          exact List.splitOnP_append_cons_of_forall_mem htoken d (by simpa using hd) r'
        rw [hlast, ih hlen', hsplit]
        simp

/-- The tokens of a path are its components. -/
theorem tokens_slash (path : CString) :
    (tokens slash (path.length + 1) (some path.bytes)).map CString.ofBytes = components path := by
  rw [tokens_eq (s := path.bytes) (Nat.lt_succ_self path.length), components]
  congr 3
  funext c
  simp [slash]

/-- What is appended makes no difference. -/
theorem components_fdopenPath (path : CString) :
    components (fdopenPath path) = components path := by
  rw [fdopenPath]
  split_ifs
  · rfl
  show (((path.bytes ++ 47 :: []).splitOnP (· = 47)).filter (· ≠ [])).map CString.ofBytes = _
  rw [List.splitOnP_append_cons _ _ (by decide), List.filter_append, components]
  simp

end Tokens

/-! ### Following the components -/

section Follow

variable {objects : ℕ → TmpfsObject} {root a b : ℕ} {name : CString} {names : List CString}

/-- A lookup in a directory. -/
theorem vnodeTmpfsLookup_cases (ha : IsDir objects a) (name : CString) :
    (∃ b, Child objects a name b ∧
      vnodeTmpfsLookup objects (some (tmpfsLinkVnode objects a)) name =
        .ok (some (tmpfsLinkVnode objects b))) ∨
      (∀ b, ¬Child objects a name b) ∧
        vnodeTmpfsLookup objects (some (tmpfsLinkVnode objects a)) name = .ok none := by
  obtain ⟨dirName, dir, hdir⟩ := ha
  simp only [vnodeTmpfsLookup, tmpfsLinkVnode, hdir]
  rcases tmpfsLookup_cases name hdir with ⟨b, hb, hfound, hne⟩ | ⟨hnone, hnull⟩
  · exact Or.inl ⟨b, hb, by rw [hfound, if_neg hne]⟩
  · exact Or.inr ⟨hnone, by rw [hnull, if_pos rfl]⟩

/-- Inside of a file nothing is found. -/
theorem vnodeTmpfsLookup_of_not_isDir (ha : ¬IsDir objects a) (name : CString) :
    vnodeTmpfsLookup objects (some (tmpfsLinkVnode objects a)) name = .error .insideFile := by
  cases hobject : objects a with
  | file => simp only [vnodeTmpfsLookup, tmpfsLinkVnode, hobject]
  | directory name dir => exact absurd ⟨name, dir, hobject⟩ ha

/-- All names but the last lead to a directory: the first of several leads to an object from which
the others do. -/
theorem leadsToDir_cons (hne : names ≠ []) :
    LeadsToDir objects a (name :: names) ↔
      ∃ b, Child objects a name b ∧ LeadsToDir objects b names := by
  constructor
  · rintro ⟨front, last, d, heq, hfollows, hdir⟩
    cases front with
    | nil => exact absurd (List.cons.inj heq).2 hne
    | cons first front =>
      obtain ⟨rfl, rfl⟩ := List.cons.inj heq
      obtain ⟨b, hb, hfollows⟩ := hfollows
      exact ⟨b, hb, front, last, d, rfl, hfollows, hdir⟩
  · rintro ⟨b, hb, front, last, d, rfl, hfollows, hdir⟩
    exact ⟨name :: front, last, d, rfl, ⟨b, hb, hfollows⟩, hdir⟩

/-- A single name: the start is a directory. -/
theorem leadsToDir_singleton : LeadsToDir objects a [name] ↔ IsDir objects a := by
  constructor
  · rintro ⟨front, last, d, heq, hfollows, hdir⟩
    cases front with
    | nil => exact (show a = d from hfollows) ▸ hdir
    | cons first front => simp at heq
  · exact fun hdir => ⟨[], name, a, rfl, rfl, hdir⟩

/-- **The loop**: it leads to the object the names lead to; if they lead to none, it comes to its
end, with `NULL`, exactly if all but the last lead to a directory. -/
theorem foldlM_vnodeTmpfsLookup (ht : IsTree objects root) (a : ℕ) (names : List CString) :
    (∀ b, Follows objects a names b →
      names.foldlM (vnodeTmpfsLookup objects) (some (tmpfsLinkVnode objects a)) =
        .ok (some (tmpfsLinkVnode objects b))) ∧
      ((∀ b, ¬Follows objects a names b) →
        (names.foldlM (vnodeTmpfsLookup objects) (some (tmpfsLinkVnode objects a)) = .ok none ↔
          LeadsToDir objects a names)) := by
  induction names generalizing a with
  | nil =>
    refine ⟨?_, fun h => absurd rfl (h a)⟩
    rintro b rfl
    rfl
  | cons name names ih =>
    rw [List.foldlM_cons]
    by_cases ha : IsDir objects a
    · rcases vnodeTmpfsLookup_cases ha name with ⟨c, hc, hlookup⟩ | ⟨hnone, hlookup⟩
      · rw [hlookup]
        obtain ⟨hfound, hmissing⟩ := ih c
        refine ⟨?_, fun h => ?_⟩
        · rintro b ⟨c', hc', hb⟩
          obtain rfl := ht.child_unique hc hc'
          exact hfound b hb
        · have hne : names ≠ [] := by
            rintro rfl
            exact h c ⟨c, hc, rfl⟩
          refine (hmissing fun b hb => h b ⟨c, hc, hb⟩).trans ?_
          rw [leadsToDir_cons hne]
          refine ⟨fun hl => ⟨c, hc, hl⟩, fun ⟨c', hc', hl⟩ => ?_⟩
          obtain rfl := ht.child_unique hc hc'
          exact hl
      · rw [hlookup]
        refine ⟨fun b ⟨c, hc, _⟩ => absurd hc (hnone c), fun _ => ?_⟩
        cases names with
        | nil => exact iff_of_true rfl (leadsToDir_singleton.mpr ha)
        | cons next names =>
          -- the next name is looked up in `NULL`
          refine iff_of_false nofun fun hl => ?_
          obtain ⟨c, hc, -⟩ := (leadsToDir_cons (List.cons_ne_nil _ _)).mp hl
          exact hnone c hc
    · rw [vnodeTmpfsLookup_of_not_isDir ha]
      have hnone : ∀ c, ¬Child objects a name c := fun c ⟨i, hi, _⟩ => ha hi.isDir
      refine ⟨fun b ⟨c, hc, _⟩ => absurd hc (hnone c), fun _ => iff_of_false nofun fun hl => ?_⟩
      cases names with
      | nil => exact ha (leadsToDir_singleton.mp hl)
      | cons next names =>
        obtain ⟨c, hc, -⟩ := (leadsToDir_cons (List.cons_ne_nil _ _)).mp hl
        exact hnone c hc

/-- What the loop leads to is what the names lead to. -/
theorem follows_of_foldlM {w : Vnode}
    (h : names.foldlM (vnodeTmpfsLookup objects) (some (tmpfsLinkVnode objects a)) =
      .ok (some w)) : Follows objects a names w.vnodeData := by
  induction names generalizing a with
  | nil =>
    cases h
    rfl
  | cons name names ih =>
    rw [List.foldlM_cons] at h
    by_cases ha : IsDir objects a
    · rcases vnodeTmpfsLookup_cases ha name with ⟨c, hc, hlookup⟩ | ⟨-, hlookup⟩
      · rw [hlookup] at h
        exact ⟨c, hc, ih h⟩
      · rw [hlookup] at h
        cases names <;> cases h
    · rw [vnodeTmpfsLookup_of_not_isDir ha] at h
      cases h

/-- What a path leads to is the start, or in a slot. -/
theorem slot_of_foldlM {v w : Vnode}
    (h : names.foldlM (vnodeTmpfsLookup objects) (some v) = .ok (some w)) :
    w = v ∨ ∃ x j, Slot objects x j w.vnodeData := by
  induction names generalizing v with
  | nil =>
    cases h
    exact Or.inl rfl
  | cons name names ih =>
    rw [List.foldlM_cons] at h
    cases hobject : objects v.vnodeData with
    | file => simp [vnodeTmpfsLookup, hobject, bind, Except.bind] at h
    | directory dirName dir =>
      have hcases := tmpfsLookup_cases name hobject
      simp only [vnodeTmpfsLookup, hobject] at h
      rcases hcases with ⟨b, ⟨i, hslot, -⟩, hfound, hne⟩ | ⟨-, hnull⟩
      · rw [hfound, if_neg hne] at h
        rcases ih h with rfl | hslot'
        · exact Or.inr ⟨_, i, hslot⟩
        · exact Or.inr hslot'
      · rw [hnull, if_pos rfl] at h
        cases names with
        | nil => cases h
        | cons => cases h

end Follow

theorem nul_notMem_R : (0 : UInt8) ∉ [82] := by decide

theorem nul_notMem_d : (0 : UInt8) ∉ [100] := by decide

/-- A directory `d` in the root, at address 1, with a file `f` in it. -/
def twoLevels : ℕ → TmpfsObject
  | 1 => .directory ⟨[82], nul_notMem_R⟩ ⟨fun i => if i = 0 then 2 else 0, 32, 1⟩
  | 2 => .directory ⟨[100], nul_notMem_d⟩ ⟨fun i => if i = 0 then 3 else 0, 32, 1⟩
  | _ => .file ⟨[102], by decide⟩ 0 0 0

theorem slot_twoLevels {a i b : ℕ} (h : Slot twoLevels a i b) :
    i = 0 ∧ (a = 1 ∧ b = 2 ∨ a = 2 ∧ b = 3) := by
  obtain ⟨name, dir, hdir, -, hslot, hne⟩ := h
  unfold twoLevels at hdir
  split at hdir
  · cases hdir
    dsimp only at hslot
    split_ifs at hslot <;> omega
  · cases hdir
    dsimp only at hslot
    split_ifs at hslot <;> omega
  · cases hdir

theorem isTree_twoLevels : IsTree twoLevels 1 where
  root_dir := ⟨_, _, rfl⟩
  distinct hb hc _ := (slot_twoLevels hb).1.trans (slot_twoLevels hc).1.symm
  parent hb hc := by
    have := slot_twoLevels hb
    have := slot_twoLevels hc
    omega
  rank := ⟨fun a => 3 - a, fun a i b h => by
    have := slot_twoLevels h
    show 3 - b < 3 - a
    omega⟩

end Vfs

end WillowOS
