import Mathlib.Data.List.TakeWhile
import WillowOS.Vfs.Path

/-!
# Mounts

`vnode_mount_vfs` writes a file system into the mount field of a vnode, and `vnode_tmpfs_lookup`
looks there first: if the root of what is mounted has the name, it is what the name leads to. But a
lookup makes a new vnode each time, so that the vnode of a directory which was mounted on is not the
one that the next lookup of the directory gives; only the root of the tree has a vnode that is kept.
And `tmpfs_link_vnode` does not set the mount field of the vnode it makes, where there is what the
memory held before.

The model keeps the vnodes by their addresses, with those that are not allocated yet, and what their
mount fields hold. As long as these are clear a path leads where it leads without mounts
(`WillowOS.Vfs.Mount.map_foldlM_of_clear`). What a mount is for, whatever they hold, is
`WillowOS.Vfs.Mount.MountsVisible`; **`WillowOS.Vfs.Mount.mountsVisible_iff`** says when that is so:
the mount has to be on the root, and the root has to have no other entry.
-/

namespace WillowOS

namespace Vfs

open Tmpfs

/-! ### Components of a path that is put together -/

theorem components_strcat_slash (p r : CString) :
    components (strcat (strcat p slash) r) = components p ++ components r := by
  show (((p.bytes ++ [47] ++ r.bytes).splitOnP (· = 47)).filter (· ≠ [])).map CString.ofBytes = _
  rw [List.append_assoc, List.singleton_append, List.splitOnP_append_cons _ _ (by decide),
    List.filter_append, List.map_append, components, components]

/-- What stands between delimiters is part of the string and has none. -/
theorem mem_of_mem_splitOnP {α : Type*} {p : α → Bool} {l part : List α} {x : α}
    (h : part ∈ l.splitOnP p) (hx : x ∈ part) : x ∈ l ∧ p x = false := by
  induction l generalizing part with
  | nil =>
    rw [List.splitOnP_nil, List.mem_singleton] at h
    rw [h] at hx
    cases hx
  | cons c l ih =>
    rw [List.splitOnP_cons_eq_if_modifyHead] at h
    split_ifs at h with hc
    · rcases List.mem_cons.mp h with rfl | h
      · cases hx
      · exact ⟨List.mem_cons_of_mem c (ih h hx).1, (ih h hx).2⟩
    · cases hsplit : l.splitOnP p with
      | nil =>
        rw [hsplit] at h
        cases h
      | cons first rest =>
        rw [hsplit] at h ih
        rcases List.mem_cons.mp h with rfl | h
        · rcases List.mem_cons.mp hx with rfl | hx
          · exact ⟨List.mem_cons_self, by simpa using hc⟩
          · obtain ⟨hmem, hp⟩ := ih List.mem_cons_self hx
            exact ⟨List.mem_cons_of_mem c hmem, hp⟩
        · obtain ⟨hmem, hp⟩ := ih (List.mem_cons_of_mem first h) hx
          exact ⟨List.mem_cons_of_mem c hmem, hp⟩

/-- A component is its own only one. -/
theorem components_of_mem {n q : CString} (h : n ∈ components q) : components n = [n] := by
  obtain ⟨part, hpart, rfl⟩ := List.mem_map.mp h
  obtain ⟨hpart, hne⟩ := List.mem_filter.mp hpart
  have hbytes : (CString.ofBytes part).bytes = part := by
    refine List.takeWhile_eq_self_iff.mpr fun x hx => ?_
    have hx := (mem_of_mem_splitOnP hpart hx).1
    exact decide_eq_true fun h0 => q.nul_notMem (h0 ▸ hx)
  rw [components, hbytes,
    List.splitOnP_eq_singleton fun x hx => (mem_of_mem_splitOnP hpart hx).2,
    List.filter_singleton, hne, cond_true, List.map_singleton]

namespace Mount

/-- A `vnode_t` with its mount field: the address of a `vfs_t`, or `0`. -/
structure MountVnode where
  vnode : Vnode
  mountedVfs : ℕ

/-- The vnodes by their addresses. Those from `next` on are not allocated, and their fields are what
the memory holds. -/
structure Vnodes where
  vnodes : ℕ → MountVnode
  next : ℕ

/-- A vnode is allocated, and its fields are set but for the mount field. -/
def Vnodes.alloc (s : Vnodes) (vnode : Vnode) : Vnodes where
  vnodes := Function.update s.vnodes s.next ⟨vnode, (s.vnodes s.next).mountedVfs⟩
  next := s.next + 1

/-- `tmpfs_link_vnode`. -/
def tmpfsLinkVnode (objects : ℕ → TmpfsObject) (s : Vnodes) (object : ℕ) : ℕ × Vnodes :=
  (s.next, s.alloc (Vfs.tmpfsLinkVnode objects object))

/-- `vnode_tmpfs_lookup`, with the `vnode_covered` of each file system. -/
def vnodeTmpfsLookup (objects : ℕ → TmpfsObject) (vnodeCovered : ℕ → ℕ) :
    Option ℕ × Vnodes → CString → Except Stray (Option ℕ × Vnodes)
  | (none, _), _ => .error .insideNull
  | (some vnode, s), name =>
    let mountedVfs := (s.vnodes vnode).mountedVfs
    let covered := vnodeCovered mountedVfs
    if mountedVfs ≠ 0 ∧
        CString.strcmp (objects (s.vnodes covered).vnode.vnodeData).name name = 0 then
      .ok (some covered, s)
    else
      match objects (s.vnodes vnode).vnode.vnodeData with
      | .file .. => .error .insideFile
      | .directory _ dir =>
        let temp := tmpfsLookup ⟨dir, objects⟩ name
        if temp = 0 then .ok (none, s)
        else
          let (ret, s) := tmpfsLinkVnode objects s temp
          .ok (some ret, s)

/-- `vfs_resolve_path`. -/
def vfsResolvePath (objects : ℕ → TmpfsObject) (vnodeCovered : ℕ → ℕ) (tmpfsRoot rootDir : ℕ)
    (s : Vnodes) (path : CString) : Except Stray (Option ℕ × Vnodes) :=
  let rootDir := if path.bytes.head? = some 47 then tmpfsRoot else rootDir
  ((tokens slash (path.length + 1) (some path.bytes)).map CString.ofBytes).foldlM
    (vnodeTmpfsLookup objects vnodeCovered) (some rootDir, s)

/-- `vnode_mount_vfs`. -/
def vnodeMountVfs (s : Vnodes) (parentVnode vfs : ℕ) : Vnodes :=
  { s with vnodes := Function.update s.vnodes parentVnode ⟨(s.vnodes parentVnode).vnode, vfs⟩ }

/-! ### What a mount is for -/

/-- The object that a path leads to. -/
def found (objects : ℕ → TmpfsObject) (vnodeCovered : ℕ → ℕ) (tmpfsRoot : ℕ) (s : Vnodes)
    (path : CString) : Except Stray (Option ℕ) :=
  (vfsResolvePath objects vnodeCovered tmpfsRoot tmpfsRoot s path).map fun r =>
    r.1.map fun a => (r.2.vnodes a).vnode.vnodeData

/-- Later on: the vnodes that were allocated are as they were, and the memory of the others may hold
anything. -/
structure Later (s t : Vnodes) : Prop where
  next : s.next ≤ t.next
  kept : ∀ i < s.next, t.vnodes i = s.vnodes i

/-- **What a mount is for.** When the path has led to a directory and the file system is mounted
there, the path followed by the name `r` leads to the root of the file system from then on, and all
paths that do not pass through it lead to the objects they led to before. -/
def MountsVisible (objects : ℕ → TmpfsObject) (vnodeCovered : ℕ → ℕ) (tmpfsRoot : ℕ) (s₀ : Vnodes)
    (path r : CString) (vfs : ℕ) : Prop :=
  ∀ s, Later s₀ s → ∀ a s', vfsResolvePath objects vnodeCovered tmpfsRoot tmpfsRoot s path =
      .ok (some a, s') → (s'.vnodes a).vnode.vnodeType = .vdir → ∀ t, Later s' t →
    (∃ t', vfsResolvePath objects vnodeCovered tmpfsRoot tmpfsRoot (vnodeMountVfs t a vfs)
      (strcat (strcat path slash) r) = .ok (some (vnodeCovered vfs), t')) ∧
    ∀ q, ¬components (strcat (strcat path slash) r) <+: components q →
      found objects vnodeCovered tmpfsRoot (vnodeMountVfs t a vfs) q =
        found objects vnodeCovered tmpfsRoot s q

/-- A tree on whose root nothing is mounted, and a file system whose root has the name `r`. -/
structure Mountable (objects : ℕ → TmpfsObject) (vnodeCovered : ℕ → ℕ) (root tmpfsRoot : ℕ)
    (s : Vnodes) (r : CString) (vfs : ℕ) : Prop where
  tree : IsTree objects root
  root_lt : tmpfsRoot < s.next
  root_vnode : s.vnodes tmpfsRoot = ⟨Vfs.tmpfsLinkVnode objects root, 0⟩
  vfs_ne : vfs ≠ 0
  covered_lt : vnodeCovered vfs < s.next
  covered_name : (objects (s.vnodes (vnodeCovered vfs)).vnode.vnodeData).name = r

/-! ### One lookup -/

section Lookup

variable {objects : ℕ → TmpfsObject} {vnodeCovered : ℕ → ℕ} {s t u : Vnodes} {v a b : ℕ}
  {name n : CString} {names : List CString}

/-- On this vnode something is mounted, and its root has this name. -/
def MountedAs (objects : ℕ → TmpfsObject) (vnodeCovered : ℕ → ℕ) (s : Vnodes) (v : ℕ)
    (name : CString) : Prop :=
  (s.vnodes v).mountedVfs ≠ 0 ∧
    (objects (s.vnodes (vnodeCovered (s.vnodes v).mountedVfs)).vnode.vnodeData).name = name

/-- What is made of the vnode that a lookup without mounts gives. -/
def enter (s : Vnodes) : Option Vnode → Option ℕ × Vnodes
  | none => (none, s)
  | some w => (some s.next, s.alloc w)

/-- A lookup of what is mounted. -/
theorem vnodeTmpfsLookup_of_mounted {vfs : ℕ} (h : (s.vnodes v).mountedVfs = vfs) (hne : vfs ≠ 0)
    (hname : (objects (s.vnodes (vnodeCovered vfs)).vnode.vnodeData).name = name) :
    vnodeTmpfsLookup objects vnodeCovered (some v, s) name = .ok (some (vnodeCovered vfs), s) := by
  subst h
  rw [vnodeTmpfsLookup]
  exact if_pos ⟨hne, CString.strcmp_eq_zero.mpr hname⟩

/-- A lookup of what is not mounted is one without mounts. -/
theorem vnodeTmpfsLookup_of_not_mountedAs (h : ¬MountedAs objects vnodeCovered s v name) :
    vnodeTmpfsLookup objects vnodeCovered (some v, s) name =
      (Vfs.vnodeTmpfsLookup objects (some (s.vnodes v).vnode) name).map (enter s) := by
  rw [vnodeTmpfsLookup, Vfs.vnodeTmpfsLookup]
  rw [if_neg fun hm => h ⟨hm.1, CString.strcmp_eq_zero.mp hm.2⟩]
  cases objects (s.vnodes v).vnode.vnodeData with
  | file => rfl
  | directory dirName dir =>
    dsimp only [Except.map]
    split_ifs <;> rfl

theorem Later.refl (s : Vnodes) : Later s s := ⟨Nat.le_refl _, fun _ _ => rfl⟩

theorem Later.trans (h : Later s t) (h' : Later t u) : Later s u :=
  ⟨h.next.trans h'.next, fun i hi => (h'.kept i (hi.trans_le h.next)).trans (h.kept i hi)⟩

theorem alloc_next (s : Vnodes) (w : Vnode) :
    (s.alloc w).vnodes s.next = ⟨w, (s.vnodes s.next).mountedVfs⟩ :=
  Function.update_self _ _ _

theorem alloc_of_ne (w : Vnode) (h : a ≠ s.next) : (s.alloc w).vnodes a = s.vnodes a :=
  Function.update_of_ne h _ _

theorem later_alloc (s : Vnodes) (w : Vnode) : Later s (s.alloc w) :=
  ⟨Nat.le_succ _, fun _ hi => alloc_of_ne w hi.ne⟩

/-- The mount fields of the vnodes that are not allocated are clear. -/
def Clear (s : Vnodes) : Prop := ∀ i, s.next ≤ i → (s.vnodes i).mountedVfs = 0

theorem Clear.alloc (h : Clear s) (w : Vnode) : Clear (s.alloc w) := fun i hi => by
  rw [alloc_of_ne w (Nat.ne_of_gt hi)]
  exact h i (Nat.le_of_succ_le hi)

theorem Clear.not_mountedAs_alloc (h : Clear s) (w : Vnode) (name : CString) :
    ¬MountedAs objects vnodeCovered (s.alloc w) s.next name := by
  rintro ⟨hne, -⟩
  rw [alloc_next] at hne
  exact hne (h s.next (Nat.le_refl _))

theorem not_mountedAs_of_null (h : (s.vnodes v).mountedVfs = 0) :
    ¬MountedAs objects vnodeCovered s v name := fun hm => hm.1 h

theorem foldlM_cons_of_ok {r r' : Option ℕ × Vnodes}
    (h : vnodeTmpfsLookup objects vnodeCovered r name = .ok r') :
    (name :: names).foldlM (vnodeTmpfsLookup objects vnodeCovered) r =
      names.foldlM (vnodeTmpfsLookup objects vnodeCovered) r' := by
  rw [List.foldlM_cons, h]
  rfl

/-- From `NULL` on. -/
theorem foldlM_null (hne : names ≠ []) :
    names.foldlM (vnodeTmpfsLookup objects vnodeCovered) (none, s) = .error .insideNull := by
  cases names with
  | nil => exact absurd rfl hne
  | cons name names => rfl

/-- **In clear memory a path leads to a new vnode**, if it has a component and the first of them is
not what is mounted where it starts. -/
theorem foldlM_of_clear {s' : Vnodes} (hs : Clear s)
    (hv : ∀ n ∈ names.head?, ¬MountedAs objects vnodeCovered s v n)
    (h : names.foldlM (vnodeTmpfsLookup objects vnodeCovered) (some v, s) = .ok (some a, s')) :
    names = [] ∧ a = v ∧ s' = s ∨ s.next ≤ a ∧ a < s'.next ∧ Later s s' ∧ Clear s' := by
  induction names generalizing s v with
  | nil =>
    cases h
    exact Or.inl ⟨rfl, rfl, rfl⟩
  | cons n names ih =>
    rw [List.foldlM_cons, vnodeTmpfsLookup_of_not_mountedAs (hv n rfl)] at h
    rcases hw : Vfs.vnodeTmpfsLookup objects (some (s.vnodes v).vnode) n with e | _ | w
    · rw [hw] at h
      cases h
    · rw [hw] at h
      cases names <;> cases h
    · rw [hw] at h
      have hlater := later_alloc s w
      obtain ⟨-, rfl, rfl⟩ | ⟨hle, hlt, hlater', hclear⟩ :=
        ih (hs.alloc w) (fun name _ => hs.not_mountedAs_alloc w name) h
      · exact Or.inr ⟨Nat.le_refl _, Nat.lt_succ_self _, hlater, hs.alloc w⟩
      · exact Or.inr ⟨Nat.le_of_succ_le hle, hlt, hlater.trans hlater', hclear⟩

/-- **In clear memory, from where nothing is mounted**, a path leads where it leads without
mounts. -/
theorem map_foldlM_of_clear (objects : ℕ → TmpfsObject) (vnodeCovered : ℕ → ℕ) (hs : Clear s)
    (hv : (s.vnodes v).mountedVfs = 0) (names : List CString) :
    (names.foldlM (vnodeTmpfsLookup objects vnodeCovered) (some v, s)).map
        (fun r => r.1.map fun a => (r.2.vnodes a).vnode) =
      names.foldlM (Vfs.vnodeTmpfsLookup objects) (some (s.vnodes v).vnode) := by
  induction names generalizing s v with
  | nil => rfl
  | cons n names ih =>
    rw [List.foldlM_cons, List.foldlM_cons,
      vnodeTmpfsLookup_of_not_mountedAs (not_mountedAs_of_null hv)]
    rcases Vfs.vnodeTmpfsLookup objects (some (s.vnodes v).vnode) n with e | _ | w
    · rfl
    · cases names <;> rfl
    · have hnext := alloc_next s w
      have := @ih (s.alloc w) s.next (hs.alloc w) (by rw [hnext]; exact hs s.next (Nat.le_refl _))
      rw [hnext] at this
      exact this

end Lookup

/-! ### Mounting -/

section Visible

variable {objects : ℕ → TmpfsObject} {vnodeCovered : ℕ → ℕ} {root tmpfsRoot vfs v a b d : ℕ}
  {s₀ s t : Vnodes} {path q r n name : CString} {names : List CString} {f g : ℕ → ℕ}

theorem mount_self (s : Vnodes) (v vfs : ℕ) :
    (vnodeMountVfs s v vfs).vnodes v = ⟨(s.vnodes v).vnode, vfs⟩ :=
  Function.update_self _ _ _

theorem mount_of_ne (h : a ≠ v) : (vnodeMountVfs s v vfs).vnodes a = s.vnodes a :=
  Function.update_of_ne h _ _

/-- A mount changes a mount field and nothing else. -/
theorem mount_vnode (s : Vnodes) (v vfs a : ℕ) :
    ((vnodeMountVfs s v vfs).vnodes a).vnode = (s.vnodes a).vnode := by
  by_cases h : a = v
  · rw [h, mount_self]
  · rw [mount_of_ne h]

theorem Clear.mount (h : Clear s) (hv : v < s.next) : Clear (vnodeMountVfs s v vfs) := by
  intro i hi
  rw [mount_of_ne (hv.trans_le hi).ne']
  exact h i hi

theorem resolve_eq (s : Vnodes) (path : CString) :
    vfsResolvePath objects vnodeCovered tmpfsRoot tmpfsRoot s path =
      (components path).foldlM (vnodeTmpfsLookup objects vnodeCovered) (some tmpfsRoot, s) := by
  rw [vfsResolvePath, tokens_slash, ite_self]

/-- The empty path leads to the root. -/
theorem resolve_of_nil (hp : components path = []) (s : Vnodes) :
    vfsResolvePath objects vnodeCovered tmpfsRoot tmpfsRoot s path = .ok (some tmpfsRoot, s) := by
  rw [resolve_eq, hp]
  rfl

theorem found_of_resolve {s' : Vnodes}
    (h : vfsResolvePath objects vnodeCovered tmpfsRoot tmpfsRoot s path = .ok (some a, s')) :
    found objects vnodeCovered tmpfsRoot s path = .ok (some (s'.vnodes a).vnode.vnodeData) := by
  rw [found, h]
  rfl

/-- The memory of the vnodes that are not allocated holds these mount fields. -/
def Vnodes.fill (s : Vnodes) (f : ℕ → ℕ) : Vnodes :=
  { s with vnodes := fun i => if i < s.next then s.vnodes i else ⟨(s.vnodes i).vnode, f i⟩ }

theorem fill_of_le (hle : s.next ≤ a) : ((s.fill f).vnodes a).mountedVfs = f a := by
  rw [Vnodes.fill]
  exact congrArg MountVnode.mountedVfs (if_neg (Nat.not_lt.mpr hle))

theorem later_fill (s : Vnodes) (f : ℕ → ℕ) : Later s (s.fill f) :=
  ⟨Nat.le_refl _, fun _ hi => if_pos hi⟩

theorem later_fill_fill (s : Vnodes) (f g : ℕ → ℕ) : Later (s.fill f) (s.fill g) :=
  ⟨Nat.le_refl _, fun _ hi => (if_pos hi).trans (if_pos hi).symm⟩

theorem clear_fill (s : Vnodes) : Clear (s.fill fun _ => 0) := fun _ hi => fill_of_le hi

theorem Mountable.later (hm : Mountable objects vnodeCovered root tmpfsRoot s r vfs)
    (h : Later s t) : Mountable objects vnodeCovered root tmpfsRoot t r vfs where
  tree := hm.tree
  root_lt := hm.root_lt.trans_le h.next
  root_vnode := (h.kept _ hm.root_lt).trans hm.root_vnode
  vfs_ne := hm.vfs_ne
  covered_lt := hm.covered_lt.trans_le h.next
  covered_name := by
    rw [h.kept _ hm.covered_lt]
    exact hm.covered_name

/-- What is mounted on the root. -/
theorem Mountable.mountedAs_iff (hm : Mountable objects vnodeCovered root tmpfsRoot s r vfs) :
    MountedAs objects vnodeCovered (vnodeMountVfs s tmpfsRoot vfs) tmpfsRoot name ↔ name = r := by
  rw [MountedAs, mount_self, mount_vnode, hm.covered_name]
  exact ⟨fun h => h.2.symm, fun h => ⟨hm.vfs_ne, h.symm⟩⟩

theorem Mountable.mountedVfs_root (hm : Mountable objects vnodeCovered root tmpfsRoot s r vfs) :
    (s.vnodes tmpfsRoot).mountedVfs = 0 := by
  rw [hm.root_vnode]

/-- The name of what is mounted on the root leads to it. -/
theorem Mountable.lookup_mount (hm : Mountable objects vnodeCovered root tmpfsRoot s r vfs) :
    vnodeTmpfsLookup objects vnodeCovered (some tmpfsRoot, vnodeMountVfs s tmpfsRoot vfs) r =
      .ok (some (vnodeCovered vfs), vnodeMountVfs s tmpfsRoot vfs) :=
  vnodeTmpfsLookup_of_mounted (by rw [mount_self]) hm.vfs_ne
    (by rw [mount_vnode]; exact hm.covered_name)

/-- If the root has no entry that a path can name but what is mounted, the path leads to `NULL` or
inside of it, and to the root if it is empty. -/
theorem Mountable.found_of_not_mountedAs
    (hm : Mountable objects vnodeCovered root tmpfsRoot s r vfs) (hq : components q ≠ [])
    (hvnode : (t.vnodes tmpfsRoot).vnode = (s.vnodes tmpfsRoot).vnode)
    (hnot : ∀ n ∈ (components q).head?, ¬MountedAs objects vnodeCovered t tmpfsRoot n ∧
      ∀ b, ¬Child objects root n b) :
    found objects vnodeCovered tmpfsRoot t q =
      if (components q).tail = [] then .ok none else .error .insideNull := by
  cases hcomps : components q with
  | nil => exact absurd hcomps hq
  | cons n names =>
    rw [hcomps] at hnot
    obtain ⟨hnot, hnone⟩ := hnot n rfl
    have hlookup : vnodeTmpfsLookup objects vnodeCovered (some tmpfsRoot, t) n =
        .ok (none, t) := by
      rw [vnodeTmpfsLookup_of_not_mountedAs hnot, hvnode, hm.root_vnode]
      rcases vnodeTmpfsLookup_cases hm.tree.root_dir n with ⟨c, hc, -⟩ | ⟨-, hlookup⟩
      · exact absurd hc (hnone c)
      · rw [hlookup]
        rfl
    rw [found, resolve_eq, hcomps, foldlM_cons_of_ok hlookup, List.tail_cons]
    split_ifs with hnil
    · rw [hnil]
      rfl
    · rw [foldlM_null hnil]
      rfl

/-- So a mount on the root changes nothing for the others. -/
theorem Mountable.found_mount (hmt : Mountable objects vnodeCovered root tmpfsRoot t r vfs)
    (hms : Mountable objects vnodeCovered root tmpfsRoot s r vfs)
    (hentries : ∀ name b, Child objects root name b → components name = [name] → name = r)
    (hq : ¬[r] <+: components q) :
    found objects vnodeCovered tmpfsRoot (vnodeMountVfs t tmpfsRoot vfs) q =
      found objects vnodeCovered tmpfsRoot s q := by
  by_cases hnil : components q = []
  · rw [found_of_resolve (resolve_of_nil hnil _), found_of_resolve (resolve_of_nil hnil _),
      mount_vnode, hmt.root_vnode, hms.root_vnode]
  have hhead : ∀ n ∈ (components q).head?, n ≠ r ∧ ∀ b, ¬Child objects root n b := by
    intro n hn
    have hne : n ≠ r := by
      rintro rfl
      exact hq (List.singleton_prefix_iff_head?_eq_some.mpr hn)
    exact ⟨hne, fun b hb => hne (hentries n b hb (components_of_mem (List.mem_of_mem_head? hn)))⟩
  rw [hmt.found_of_not_mountedAs hnil (mount_vnode ..) fun n hn =>
      ⟨fun hma => (hhead n hn).1 (hmt.mountedAs_iff.mp hma), (hhead n hn).2⟩,
    hms.found_of_not_mountedAs hnil rfl fun n hn =>
      ⟨not_mountedAs_of_null hms.mountedVfs_root, (hhead n hn).2⟩]

/-- In clear memory a path leads to a vnode of the object it leads to. -/
theorem Mountable.exists_resolve (hm : Mountable objects vnodeCovered root tmpfsRoot s r vfs)
    (hs : Clear s) (hp : Follows objects root (components path) d) : ∃ a s',
      vfsResolvePath objects vnodeCovered tmpfsRoot tmpfsRoot s path = .ok (some a, s') ∧
        (s'.vnodes a).vnode = Vfs.tmpfsLinkVnode objects d := by
  have hfold := map_foldlM_of_clear objects vnodeCovered hs hm.mountedVfs_root (components path)
  rw [hm.root_vnode, (foldlM_vnodeTmpfsLookup hm.tree root _).1 d hp, ← resolve_eq] at hfold
  rcases hr : vfsResolvePath objects vnodeCovered tmpfsRoot tmpfsRoot s path with e | ⟨_ | a, s'⟩
  · rw [hr] at hfold
    cases hfold
  · rw [hr] at hfold
    cases hfold
  · rw [hr] at hfold
    exact ⟨a, s', rfl, Option.some.inj (Except.ok.inj hfold)⟩

/-- In clear memory the object found is the one that the components lead to. -/
theorem Mountable.follows_of_found (hm : Mountable objects vnodeCovered root tmpfsRoot s r vfs)
    (hs : Clear s) (h : found objects vnodeCovered tmpfsRoot s q = .ok (some d)) :
    Follows objects root (components q) d := by
  have hfold := map_foldlM_of_clear objects vnodeCovered hs hm.mountedVfs_root (components q)
  rw [found, resolve_eq] at h
  rw [hm.root_vnode] at hfold
  rcases hr : (components q).foldlM (vnodeTmpfsLookup objects vnodeCovered) (some tmpfsRoot, s)
    with e | ⟨_ | a, s'⟩
  · rw [hr] at h
    cases h
  · rw [hr] at h
    cases h
  · rw [hr] at h hfold
    have hd : (s'.vnodes a).vnode.vnodeData = d := Option.some.inj (Except.ok.inj h)
    rw [← hd]
    exact follows_of_foldlM hfold.symm

/-- **A mount on a directory other than the root is not seen**: the next lookup of the directory
makes a vnode on which nothing is mounted. -/
theorem MountsVisible.components_eq_nil
    (hm : Mountable objects vnodeCovered root tmpfsRoot s₀ r vfs)
    (hp : Follows objects root (components path) d) (hd : IsDir objects d)
    (h : MountsVisible objects vnodeCovered tmpfsRoot s₀ path r vfs) : components path = [] := by
  by_contra hne
  have hlater := later_fill s₀ fun _ => 0
  have hclear := clear_fill s₀
  have hm' := hm.later hlater
  obtain ⟨a, s', hres, hvnode⟩ := hm'.exists_resolve hclear hp
  have htype : (s'.vnodes a).vnode.vnodeType = .vdir := by
    obtain ⟨dirName, dir, hdir⟩ := hd
    rw [hvnode, Vfs.tmpfsLinkVnode, hdir]
    rfl
  obtain ⟨⟨t', hmounted⟩, -⟩ := h _ hlater a s' hres htype s' (Later.refl s')
  rw [resolve_eq] at hres hmounted
  rw [components_strcat_slash] at hmounted
  obtain ⟨h0, -⟩ | ⟨hle, hlt, hs', hclear'⟩ := foldlM_of_clear hclear
    (fun _ _ => not_mountedAs_of_null hm'.mountedVfs_root) hres
  · exact hne h0
  have hnull : ((vnodeMountVfs s' a vfs).vnodes tmpfsRoot).mountedVfs = 0 := by
    rw [mount_of_ne (hm'.root_lt.trans_le hle).ne]
    exact (hm'.later hs').mountedVfs_root
  obtain ⟨h0, -⟩ | ⟨hle', -⟩ := foldlM_of_clear (hclear'.mount hlt)
    (fun _ _ => not_mountedAs_of_null hnull) hmounted
  · exact hne (List.append_eq_nil_iff.mp h0).1
  · exact absurd (hm'.later hs').covered_lt (Nat.not_lt.mpr hle')

/-- The root is a directory. -/
theorem Mountable.type_root (hm : Mountable objects vnodeCovered root tmpfsRoot s r vfs) :
    (s.vnodes tmpfsRoot).vnode.vnodeType = .vdir := by
  obtain ⟨dirName, dir, hdir⟩ := hm.tree.root_dir
  rw [hm.root_vnode, Vfs.tmpfsLinkVnode, hdir]
  rfl

/-- On the root, the name of what is mounted has to be one that a path can name. -/
theorem MountsVisible.components_name
    (hm : Mountable objects vnodeCovered root tmpfsRoot s₀ r vfs) (hp : components path = [])
    (h : MountsVisible objects vnodeCovered tmpfsRoot s₀ path r vfs) :
    components r = [] ∧ vnodeCovered vfs = tmpfsRoot ∨ components r = [r] := by
  have hlater := later_fill s₀ fun _ => 0
  have hm' := hm.later hlater
  obtain ⟨⟨t', hmounted⟩, -⟩ := h _ hlater tmpfsRoot _ (resolve_of_nil hp _) hm'.type_root _
    (Later.refl _)
  rw [resolve_eq, components_strcat_slash, hp, List.nil_append] at hmounted
  cases hr : components r with
  | nil =>
    rw [hr] at hmounted
    cases hmounted
    exact Or.inl ⟨rfl, rfl⟩
  | cons n ns =>
    have hn := components_of_mem (n := n) (q := r) (hr ▸ List.mem_cons_self)
    by_cases hnr : n = r
    · rw [hnr, hr] at hn
      exact Or.inr hn
    rw [hr] at hmounted
    have hnot : ∀ name ∈ (n :: ns).head?, ¬MountedAs objects vnodeCovered
        (vnodeMountVfs (s₀.fill fun _ => 0) tmpfsRoot vfs) tmpfsRoot name := by
      rintro name hname hmounted
      obtain rfl : n = name := Option.some.inj hname
      exact hnr (hm'.mountedAs_iff.mp hmounted)
    obtain ⟨h0, -⟩ | ⟨hle, -⟩ :=
      foldlM_of_clear ((clear_fill s₀).mount hm'.root_lt) hnot hmounted
    · cases h0
    · exact absurd hm'.covered_lt (Nat.not_lt.mpr hle)

/-- What is found does not depend on the memory, except below the mount. -/
theorem MountsVisible.found_fill
    (hm : Mountable objects vnodeCovered root tmpfsRoot s₀ r vfs) (hp : components path = [])
    (h : MountsVisible objects vnodeCovered tmpfsRoot s₀ path r vfs)
    (hq : ¬components r <+: components q) (f g : ℕ → ℕ) :
    found objects vnodeCovered tmpfsRoot (s₀.fill f) q =
      found objects vnodeCovered tmpfsRoot (s₀.fill g) q := by
  have hpr : components (strcat (strcat path slash) r) = components r := by
    rw [components_strcat_slash, hp, List.nil_append]
  rw [← hpr] at hq
  have hmount : ∀ f, found objects vnodeCovered tmpfsRoot
      (vnodeMountVfs (s₀.fill fun _ => 0) tmpfsRoot vfs) q =
        found objects vnodeCovered tmpfsRoot (s₀.fill f) q := fun f =>
    (h _ (later_fill s₀ f) tmpfsRoot _ (resolve_of_nil hp _) (hm.later (later_fill s₀ f)).type_root
      _ (later_fill_fill s₀ f fun _ => 0)).2 q hq
  exact (hmount f).symm.trans (hmount g)

/-- The lookup of an entry of a directory. -/
theorem vnodeTmpfsLookup_child {x : ℕ} (ht : IsTree objects root)
    (hv : ¬MountedAs objects vnodeCovered s v n)
    (hvnode : (s.vnodes v).vnode = Vfs.tmpfsLinkVnode objects x) (hc : Child objects x n b) :
    vnodeTmpfsLookup objects vnodeCovered (some v, s) n =
      .ok (some s.next, s.alloc (Vfs.tmpfsLinkVnode objects b)) := by
  rw [vnodeTmpfsLookup_of_not_mountedAs hv, hvnode]
  have hdir : IsDir objects x := hc.elim fun _ h => h.1.isDir
  rcases vnodeTmpfsLookup_cases hdir n with ⟨c, hc', hlookup⟩ | ⟨hnone, -⟩
  · obtain rfl := ht.child_unique hc hc'
    rw [hlookup]
    rfl
  · exact absurd hc (hnone b)

/-- The lookup in a new vnode whose memory held the file system. -/
theorem Mountable.lookup_stale (hm : Mountable objects vnodeCovered root tmpfsRoot s r vfs)
    (hs : (s.vnodes s.next).mountedVfs = vfs) (w : Vnode) :
    vnodeTmpfsLookup objects vnodeCovered (some s.next, s.alloc w) r =
      .ok (some (vnodeCovered vfs), s.alloc w) := by
  have hmounted : ((s.alloc w).vnodes s.next).mountedVfs = vfs := by
    rw [alloc_next]
    exact hs
  exact vnodeTmpfsLookup_of_mounted hmounted hm.vfs_ne (hm.later (later_alloc s w)).covered_name

/-- A path to an object, followed by `r`, if the memory of the last vnode that is made held the file
system. -/
theorem Mountable.foldlM_stale {x y : ℕ}
    (hm : Mountable objects vnodeCovered root tmpfsRoot s r vfs)
    (hv : (s.vnodes v).mountedVfs = 0) (hvnode : (s.vnodes v).vnode = Vfs.tmpfsLinkVnode objects x)
    (hfollows : Follows objects x (n :: names) y)
    (hstale : ∀ i, (s.vnodes (s.next + i)).mountedVfs = if i = names.length then vfs else 0) :
    ∃ s', (n :: names ++ [r]).foldlM (vnodeTmpfsLookup objects vnodeCovered) (some v, s) =
      .ok (some (vnodeCovered vfs), s') ∧ Later s s' := by
  induction names generalizing s v x n with
  | nil =>
    obtain ⟨b, hb, -⟩ := hfollows
    refine ⟨_, ?_, later_alloc s (Vfs.tmpfsLinkVnode objects b)⟩
    rw [List.singleton_append, foldlM_cons_of_ok (vnodeTmpfsLookup_child hm.tree
      (not_mountedAs_of_null hv) hvnode hb), foldlM_cons_of_ok (hm.lookup_stale (hstale 0) _)]
    rfl
  | cons name names ih =>
    obtain ⟨b, hb, hfollows⟩ := hfollows
    have hlater := later_alloc s (Vfs.tmpfsLinkVnode objects b)
    obtain ⟨s', hfold, hlater'⟩ := ih (hm.later hlater) (v := s.next)
      (by rw [alloc_next]; exact hstale 0) (by rw [alloc_next]) hfollows fun i => by
        rw [alloc_of_ne _ (by show s.next + 1 + i ≠ s.next; omega)]
        show (s.vnodes (s.next + 1 + i)).mountedVfs = _
        rw [Nat.add_assoc, Nat.add_comm 1 i, hstale, List.length_cons]
        simp
    refine ⟨s', ?_, hlater.trans hlater'⟩
    rw [List.cons_append, foldlM_cons_of_ok (vnodeTmpfsLookup_child hm.tree
      (not_mountedAs_of_null hv) hvnode hb)]
    exact hfold

/-- **Below other entries of the root nothing is found reliably**: a path to an object, followed by
`r`, may lead to what the root of the file system is a vnode of, by what the memory held. So that
has to be where the path leads. -/
theorem MountsVisible.follows {y : ℕ}
    (hm : Mountable objects vnodeCovered root tmpfsRoot s₀ r vfs) (hp : components path = [])
    (hr : components r = [r]) (h : MountsVisible objects vnodeCovered tmpfsRoot s₀ path r vfs)
    (hq : components q = n :: names) (hnr : n ≠ r) (hy : Follows objects root (n :: names) y) :
    Follows objects root (n :: names ++ [r]) (s₀.vnodes (vnodeCovered vfs)).vnode.vnodeData := by
  have hqr : components (strcat (strcat q slash) r) = n :: names ++ [r] := by
    rw [components_strcat_slash, hq, hr]
  have hnot : ¬components r <+: components (strcat (strcat q slash) r) := by
    rw [hr, hqr]
    exact fun hpre => hnr (List.cons_prefix_cons.mp hpre).1.symm
  -- what the memory of the last vnode on the way holds
  obtain ⟨f, hf⟩ : ∃ f : ℕ → ℕ, ∀ i, f (s₀.next + i) = if i = names.length then vfs else 0 :=
    ⟨fun j => if j = s₀.next + names.length then vfs else 0,
      fun i => if_congr Nat.add_left_cancel_iff rfl rfl⟩
  have hlater := later_fill s₀ f
  have hm' := hm.later hlater
  obtain ⟨s', hfold, hlater'⟩ := hm'.foldlM_stale hm'.mountedVfs_root
    (congrArg MountVnode.vnode hm'.root_vnode) hy fun i =>
      (fill_of_le (Nat.le_add_right _ _)).trans (hf i)
  rw [← hqr, ← resolve_eq] at hfold
  rw [← hqr]
  refine (hm.later (later_fill s₀ _)).follows_of_found (clear_fill s₀)
    ((h.found_fill hm hp hnot _ f).trans ?_)
  rw [found_of_resolve hfold, (hlater.trans hlater').kept _ hm.covered_lt]

/-- So the root has no other entry that a path can name. -/
theorem MountsVisible.name_eq
    (hm : Mountable objects vnodeCovered root tmpfsRoot s₀ r vfs) (hp : components path = [])
    (hr : components r = [r]) (h : MountsVisible objects vnodeCovered tmpfsRoot s₀ path r vfs)
    (hc : Child objects root n b) (hn : components n = [n]) : n = r := by
  by_contra hnr
  have hfirst := h.follows hm hp hr hn hnr ⟨b, hc, rfl⟩
  have hnr' : components (strcat (strcat n slash) r) = [n, r] := by
    rw [components_strcat_slash, hn, hr]
    rfl
  obtain ⟨c, hc', d, hd, e, he, rfl⟩ := h.follows hm hp hr hnr' hnr hfirst
  obtain ⟨c', hc'', d', hd', rfl⟩ := hfirst
  obtain rfl := hm.tree.child_unique hc' hc''
  obtain rfl := hm.tree.child_unique hd hd'
  -- it would be an entry of itself
  obtain ⟨rank, hrank⟩ := hm.tree.rank
  obtain ⟨i, hslot, -⟩ := he
  exact absurd (hrank _ i _ hslot) (Nat.lt_irrefl _)

/-- **When a mount is visible.** It has to be on the root. Then, if its name is a component, the
root has to have no entry of another name that is one; if the name has no component, what is mounted
has to be the root itself. -/
theorem mountsVisible_iff (hm : Mountable objects vnodeCovered root tmpfsRoot s₀ r vfs)
    (hp : Follows objects root (components path) d) (hd : IsDir objects d) :
    MountsVisible objects vnodeCovered tmpfsRoot s₀ path r vfs ↔
      components path = [] ∧
        (components r = [] ∧ vnodeCovered vfs = tmpfsRoot ∨
          components r = [r] ∧ ∀ name b, Child objects root name b → components name = [name] →
            name = r) := by
  constructor
  · intro h
    have hpath := h.components_eq_nil hm hp hd
    refine ⟨hpath, ?_⟩
    rcases h.components_name hm hpath with hr | hr
    · exact Or.inl hr
    · exact Or.inr ⟨hr, fun name b hc hn => h.name_eq hm hpath hr hc hn⟩
  · rintro ⟨hpath, hr⟩ s hs a s' hres - t ht
    rw [resolve_of_nil hpath] at hres
    cases hres
    have hpr : components (strcat (strcat path slash) r) = components r := by
      rw [components_strcat_slash, hpath, List.nil_append]
    rcases hr with ⟨hr, hcovered⟩ | ⟨hr, hentries⟩
    · refine ⟨⟨vnodeMountVfs t tmpfsRoot vfs, ?_⟩, fun q hq => ?_⟩
      · rw [hcovered, resolve_of_nil (hpr.trans hr)]
      · rw [hpr, hr] at hq
        exact absurd List.nil_prefix hq
    have hms := hm.later hs
    have hmt := hms.later ht
    refine ⟨⟨vnodeMountVfs t tmpfsRoot vfs, ?_⟩, fun q hq => ?_⟩
    · rw [resolve_eq, hpr, hr, foldlM_cons_of_ok hmt.lookup_mount]
      rfl
    · rw [hpr, hr] at hq
      exact hmt.found_mount hms hentries hq

end Visible

/-- A vnode of the root of `twoLevels` at address 0, and one of the directory in it at address 1. -/
def twoVnodes : Vnodes := ⟨fun i => ⟨Vfs.tmpfsLinkVnode twoLevels (i + 1), 0⟩, 2⟩

theorem mountable_twoVnodes {covered : ℕ} (h : covered < 2) : Mountable twoLevels (fun _ => covered)
    1 0 twoVnodes (twoLevels (covered + 1)).name 1 where
  tree := isTree_twoLevels
  root_lt := by decide
  root_vnode := rfl
  vfs_ne := by decide
  covered_lt := h
  covered_name := rfl

/-- A file system named as the only entry of the root, on the root. -/
theorem mountsVisible_iff_twoVnodes :
    MountsVisible twoLevels (fun _ => 1) 0 twoVnodes ⟨[47], by decide⟩ ⟨[100], by decide⟩ 1 := by
  have hcomponents : components ⟨[47], by decide⟩ = [] := by decide
  have hroot : Follows twoLevels 1 (components ⟨[47], by decide⟩) 1 := by
    rw [hcomponents]
    rfl
  refine (mountsVisible_iff (mountable_twoVnodes (by decide)) hroot isTree_twoLevels.root_dir).mpr
    ⟨hcomponents, Or.inr ⟨by decide, ?_⟩⟩
  rintro name b ⟨i, hslot, rfl⟩ -
  obtain ⟨-, ⟨-, rfl⟩ | ⟨h, -⟩⟩ := slot_twoLevels hslot
  · rfl
  · cases h

/-- **The temporary file system on its directory `d`**, in clear memory: `"/d/R"` leads to
`NULL`. -/
theorem not_mountsVisible_twoVnodes : ∃ a s',
    vfsResolvePath twoLevels (fun _ => 0) 0 0 twoVnodes ⟨[47, 100], by decide⟩ =
        .ok (some a, s') ∧
      found twoLevels (fun _ => 0) 0 (vnodeMountVfs s' a 1) ⟨[47, 100, 47, 82], by decide⟩ =
        .ok none ∧
      ¬MountsVisible twoLevels (fun _ => 0) 0 twoVnodes ⟨[47, 100], by decide⟩
        ⟨[82], by decide⟩ 1 := by
  refine ⟨_, _, rfl, by decide, fun h => ?_⟩
  have hd : Child twoLevels 1 ⟨[100], by decide⟩ 2 :=
    ⟨0, ⟨_, _, rfl, by decide, rfl, by decide⟩, rfl⟩
  have hcomponents : components ⟨[47, 100], by decide⟩ = [⟨[100], by decide⟩] := by decide
  have hfollows : Follows twoLevels 1 (components ⟨[47, 100], by decide⟩) 2 := by
    rw [hcomponents]
    exact ⟨2, hd, rfl⟩
  have hnil := h.components_eq_nil (mountable_twoVnodes (by decide)) hfollows ⟨_, _, rfl⟩
  rw [hcomponents] at hnil
  cases hnil

end Mount

end Vfs

end WillowOS
