import WillowOS.Tmpfs.Map

/-!
# The tree of the temporary file system

All objects of a temporary file system, by their addresses: a directory has the addresses of its
entries in its slots. It is a tree (`WillowOS.Tmpfs.IsTree`) if no directory has two entries of one
name, no object is in two directories, and no directory is below itself. A path is followed
component by component (`WillowOS.Tmpfs.Follows`).
-/

namespace WillowOS

namespace Tmpfs

variable {objects : ℕ → TmpfsObject} {root a b c i j : ℕ} {name : CString} {names : List CString}

/-- The object at `a` is a directory. -/
def IsDir (objects : ℕ → TmpfsObject) (a : ℕ) : Prop := ∃ name dir, objects a = .directory name dir

/-- Slot `i` of the directory at `a` holds the object at `b`. -/
def Slot (objects : ℕ → TmpfsObject) (a i b : ℕ) : Prop :=
  ∃ name dir, objects a = .directory name dir ∧ i < dir.maxFiles ∧ dir.files i = b ∧ b ≠ 0

/-- The object at `b` is in the directory at `a`, under this name. -/
def Child (objects : ℕ → TmpfsObject) (a : ℕ) (name : CString) (b : ℕ) : Prop :=
  ∃ i, Slot objects a i b ∧ (objects b).name = name

/-- **Following names** from the object at `a` leads to the one at `b`. -/
def Follows (objects : ℕ → TmpfsObject) : ℕ → List CString → ℕ → Prop
  | a, [], b => a = b
  | a, name :: names, b => ∃ c, Child objects a name c ∧ Follows objects c names b

/-- The objects below the directory at `root` are a tree. -/
structure IsTree (objects : ℕ → TmpfsObject) (root : ℕ) : Prop where
  root_dir : IsDir objects root
  distinct : ∀ {a i j b c}, Slot objects a i b → Slot objects a j c →
    (objects b).name = (objects c).name → i = j
  parent : ∀ {a a' i j b}, Slot objects a i b → Slot objects a' j b → a = a'
  rank : ∃ rank : ℕ → ℕ, ∀ a i b, Slot objects a i b → rank b < rank a

theorem Slot.isDir (h : Slot objects a i b) : IsDir objects a := by
  obtain ⟨name, dir, heq, -⟩ := h
  exact ⟨name, dir, heq⟩

/-- A slot holds one object. -/
theorem Slot.unique (hb : Slot objects a i b) (hc : Slot objects a i c) : b = c := by
  obtain ⟨_, dir, hdir, -, rfl, -⟩ := hb
  obtain ⟨_, dir', hdir', -, rfl, -⟩ := hc
  rw [hdir] at hdir'
  cases hdir'
  rfl

/-- A name leads to one object. -/
theorem IsTree.child_unique (h : IsTree objects root) (hb : Child objects a name b)
    (hc : Child objects a name c) : b = c := by
  obtain ⟨i, hi, hb⟩ := hb
  obtain ⟨j, hj, hc⟩ := hc
  obtain rfl := h.distinct hi hj (hb.trans hc.symm)
  exact hi.unique hj

/-- The object a lookup in the directory at `a` finds. -/
theorem tmpfsLookup_cases (name : CString) {dirName : CString} {dir : TmpfsDirectory}
    (hdir : objects a = .directory dirName dir) :
    (∃ b, Child objects a name b ∧ tmpfsLookup ⟨dir, objects⟩ name = b ∧ b ≠ 0) ∨
      (∀ b, ¬Child objects a name b) ∧ tmpfsLookup ⟨dir, objects⟩ name = 0 := by
  rw [tmpfsLookup]
  cases hf : findSlot ⟨dir, objects⟩ name fun _ => true with
  | none =>
    refine Or.inr ⟨fun b hb => ?_, rfl⟩
    obtain ⟨i, ⟨_, dir', heq, hlt, rfl, hne⟩, hname⟩ := hb
    rw [hdir] at heq
    cases heq
    exact absurd (findSlot_eq_none hf ⟨hlt, hne, hname⟩) (by simp)
  | some i =>
    obtain ⟨⟨hlt, hne, hname⟩, -⟩ := named_of_findSlot hf
    exact Or.inl ⟨dir.files i, ⟨i, ⟨_, dir, hdir, hlt, rfl, hne⟩, hname⟩, rfl, hne⟩

end Tmpfs

end WillowOS
