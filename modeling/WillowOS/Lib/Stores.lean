import WillowOS.Lib.Memory
import Mathlib.Data.List.GetD
import Mathlib.Tactic.Common

/-!
# Stores that do not overlap

A function that writes a data structure into memory, and reads nothing of what it writes, is a list
of stores. If no two of them overlap, their order does not matter, and each is in the memory in the
end (`WillowOS.Mem.bytesAt_stores`): nothing is overwritten.

That stores do not overlap is shown area by area. `WillowOS.Area` says that stores keep to an area
and are apart; two areas side by side make one (`WillowOS.Area.append`).
-/

namespace WillowOS

/-- A store: bytes, and the address of the first one. -/
structure Store where
  addr : ℕ
  bytes : List UInt8
deriving DecidableEq

/-- Two stores that do not overlap. -/
def Store.Disjoint (w v : Store) : Prop :=
  w.addr + w.bytes.length ≤ v.addr ∨ v.addr + v.bytes.length ≤ w.addr

/-- The stores keep to the addresses from `lo` up to `hi`, and do not overlap. -/
structure Area (lo hi : ℕ) (ws : List Store) : Prop where
  within : ∀ w ∈ ws, lo ≤ w.addr ∧ w.addr + w.bytes.length ≤ hi
  apart : ws.Pairwise Store.Disjoint

/-- The eight bytes of a word, lowest first. -/
def le64 (v : ℕ) : List UInt8 := (List.range 8).map fun i => UInt8.ofNat (v / 256 ^ i)

/-- The stores of words at successive addresses. -/
def wordStores (a : ℕ) : List ℕ → List Store
  | [] => []
  | v :: vs => ⟨a, le64 v⟩ :: wordStores (a + 8) vs

namespace Mem

/-- A store into a memory. -/
def store (m : Mem) (w : Store) : Mem := fun x =>
  if w.addr ≤ x ∧ x < w.addr + w.bytes.length then w.bytes.getD (x - w.addr) 0 else m x

/-- Stores, one after the other. -/
def stores (m : Mem) (ws : List Store) : Mem := ws.foldl store m

/-- These bytes are at an address. -/
def BytesAt (m : Mem) (a : ℕ) (bytes : List UInt8) : Prop :=
  ∀ i (h : i < bytes.length), m (a + i) = bytes[i]

/-- These words are at an address, and after it. -/
def WordsAt (m : Mem) : ℕ → List ℕ → Prop
  | _, [] => True
  | a, v :: vs => m.read64 a = v ∧ m.WordsAt (a + 8) vs

end Mem

/-! ### Areas -/

namespace Area

variable {lo hi a b c : ℕ} {ws vs : List Store}

theorem nil : Area lo hi [] := ⟨nofun, List.Pairwise.nil⟩

/-- An area below another one. -/
theorem append (hws : Area b c ws) (hvs : Area a b vs) (hab : a ≤ b) (hbc : b ≤ c) :
    Area a c (ws ++ vs) where
  within := by
    intro w hw
    rcases List.mem_append.mp hw with hw | hw
    · have := hws.within w hw
      omega
    · have := hvs.within w hw
      omega
  apart := by
    refine List.pairwise_append.mpr ⟨hws.apart, hvs.apart, fun w hw v hv => Or.inr ?_⟩
    have h1 := hws.within w hw
    have h2 := hvs.within v hv
    omega

theorem mono (h : Area b c ws) (hab : a ≤ b) (hcd : c ≤ hi) : Area a hi ws where
  within := by
    intro w hw
    have := h.within w hw
    omega
  apart := h.apart

theorem reverse (h : Area lo hi ws) : Area lo hi ws.reverse where
  within := fun w hw => h.within w (List.mem_reverse.mp hw)
  apart := List.pairwise_reverse.mpr (h.apart.imp fun hd => hd.symm)

theorem single {w : Store} (hlo : lo ≤ w.addr) (hhi : w.addr + w.bytes.length ≤ hi) :
    Area lo hi [w] where
  within := by
    intro v hv
    rw [List.mem_singleton.mp hv]
    exact ⟨hlo, hhi⟩
  apart := List.pairwise_singleton _ _

end Area

@[simp]
theorem length_le64 (v : ℕ) : (le64 v).length = 8 := by
  rw [le64, List.length_map, List.length_range]

theorem area_wordStores (a : ℕ) (vs : List ℕ) : Area a (a + 8 * vs.length) (wordStores a vs) := by
  induction vs generalizing a with
  | nil => exact Area.nil
  | cons v vs ih =>
    rw [wordStores, List.length_cons]
    constructor
    · intro w hw
      rcases List.mem_cons.mp hw with rfl | hw
      · show a ≤ a ∧ a + (le64 v).length ≤ a + 8 * (vs.length + 1)
        rw [length_le64]
        omega
      · have := (ih (a + 8)).within w hw
        omega
    · refine List.pairwise_cons.mpr ⟨fun w hw => Or.inl ?_, (ih (a + 8)).apart⟩
      rw [length_le64]
      exact ((ih (a + 8)).within w hw).1

theorem wordStores_append (a : ℕ) (vs us : List ℕ) :
    wordStores a (vs ++ us) = wordStores a vs ++ wordStores (a + 8 * vs.length) us := by
  induction vs generalizing a with
  | nil => rfl
  | cons v vs ih =>
    rw [List.cons_append, wordStores, ih, wordStores, List.length_cons, List.cons_append,
      show a + 8 + 8 * vs.length = a + 8 * (vs.length + 1) by omega]

/-! ### What is in memory in the end -/

namespace Mem

variable {m : Mem} {a x v : ℕ} {w : Store} {ws : List Store} {vs : List ℕ}

theorem store_of_notMem (h : ¬(w.addr ≤ x ∧ x < w.addr + w.bytes.length)) : m.store w x = m x :=
  if_neg h

theorem bytesAt_store : (m.store w).BytesAt w.addr w.bytes := by
  intro i hi
  rw [store, if_pos ⟨by omega, by omega⟩, Nat.add_sub_cancel_left, List.getD_eq_getElem _ _ hi]

theorem store_mk {l : List UInt8} : m.store ⟨a, l⟩ x =
    if a ≤ x ∧ x < a + l.length then l.getD (x - a) 0 else m x := rfl

/-- One byte stored. -/
theorem store_singleton {c : UInt8} : m.store ⟨a, [c]⟩ x = if x = a then c else m x := by
  rw [store_mk, List.length_singleton]
  rcases eq_or_ne x a with rfl | hne
  · rw [if_pos (by omega), if_pos rfl, Nat.sub_self]
    rfl
  · rw [if_neg (by omega), if_neg hne]

/-- Bytes stored, and others behind them. -/
theorem store_store (l r : List UInt8) :
    (m.store ⟨a, l⟩).store ⟨a + l.length, r⟩ = m.store ⟨a, l ++ r⟩ := by
  funext x
  rw [store_mk, store_mk, store_mk, List.length_append]
  rcases Nat.lt_or_ge x (a + l.length) with hlt | hge
  · rw [if_neg (by omega)]
    by_cases ha : a ≤ x
    · rw [if_pos ⟨ha, hlt⟩, if_pos (by omega), List.getD_append _ _ _ _ (by omega)]
    · rw [if_neg (by omega), if_neg (by omega)]
  · rw [if_neg (show ¬(a ≤ x ∧ x < a + l.length) by omega),
      List.getD_append_right _ _ _ _ (by omega), Nat.sub_sub]
    exact if_congr (by omega) rfl rfl

theorem stores_cons : m.stores (w :: ws) = (m.store w).stores ws := rfl

/-- Where nothing is stored, nothing changes. -/
theorem stores_of_notMem (h : ∀ w ∈ ws, ¬(w.addr ≤ x ∧ x < w.addr + w.bytes.length)) :
    m.stores ws x = m x := by
  induction ws generalizing m with
  | nil => rfl
  | cons w ws ih =>
    rw [stores_cons, ih fun v hv => h v (List.mem_cons_of_mem _ hv),
      store_of_notMem (h w List.mem_cons_self)]

theorem stores_append (m : Mem) (ws vs : List Store) :
    m.stores (ws ++ vs) = (m.stores ws).stores vs :=
  List.foldl_append

/-- What stores leave at an address depends on what was there. -/
theorem stores_congr {m' : Mem} (h : m x = m' x) (ws : List Store) :
    m.stores ws x = m'.stores ws x := by
  induction ws generalizing m m' with
  | nil => exact h
  | cons w ws ih =>
    refine ih ?_
    rw [store, store]
    split_ifs
    · rfl
    · exact h

/-- What is not stored to after a store is what it has stored. -/
theorem bytesAt_stores_append {vs : List Store} (h : ∀ v ∈ vs, w.Disjoint v) :
    (m.stores (ws ++ w :: vs)).BytesAt w.addr w.bytes := by
  intro i hi
  rw [stores_append, stores_cons, stores_of_notMem fun v hv => ?_, bytesAt_store i hi]
  rcases h v hv with hd | hd <;> omega

/-- **Of stores that do not overlap, each is there in the end.** -/
theorem bytesAt_stores (h : ws.Pairwise Store.Disjoint) (hw : w ∈ ws) :
    (m.stores ws).BytesAt w.addr w.bytes := by
  induction ws generalizing m with
  | nil => cases hw
  | cons v ws ih =>
    obtain ⟨hv, hws⟩ := List.pairwise_cons.mp h
    rcases List.mem_cons.mp hw with rfl | hw
    · intro i hi
      rw [stores_cons, stores_of_notMem fun u hu => ?_, bytesAt_store i hi]
      rcases hv u hu with hd | hd <;> omega
    · exact ih hws hw

theorem read64_of_bytesAt (h : m.BytesAt a (le64 v)) (hv : v < 2 ^ 64) : m.read64 a = v := by
  have hcongr : m.read64 a = (m.write64 a v).read64 a := by
    refine readLE_congr fun x h1 h2 => ?_
    have hx := h (x - a) (by rw [length_le64]; omega)
    rw [show a + (x - a) = x by omega] at hx
    rw [hx, write64, writeLE, if_pos ⟨h1, h2⟩]
    simp only [le64, List.getElem_map, List.getElem_range]
  rw [hcongr, read64_write64 hv]

/-- Words that were stored, among other stores that do not overlap. -/
theorem wordsAt_stores (h : ws.Pairwise Store.Disjoint) (hvs : wordStores a vs ⊆ ws)
    (hlt : ∀ v ∈ vs, v < 2 ^ 64) : (m.stores ws).WordsAt a vs := by
  induction vs generalizing a with
  | nil => trivial
  | cons v vs ih =>
    obtain ⟨hv, hrest⟩ := List.cons_subset.mp hvs
    refine ⟨?_, ih hrest fun u hu => hlt u (List.mem_cons_of_mem _ hu)⟩
    exact read64_of_bytesAt (bytesAt_stores h hv) (hlt v List.mem_cons_self)

end Mem

end WillowOS
