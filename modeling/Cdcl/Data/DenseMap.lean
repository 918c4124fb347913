/-!
# Dense maps

A map from a key type that is numbered `0, 1, 2, …` to values, kept as one array. Keys past the
end read as the fallback value, and inserting there fills the gap with it, so a map behaves as a
total function that differs from its fallback at finitely many keys.

Main statements: `get_insert` and `get_modify` say what an update does to every later reading.
-/

namespace Cdcl

/-- A key type numbered by the naturals, one key for each number. -/
class DenseKey (κ : Type) where
  index : κ → Nat
  ofIndex : Nat → κ
  ofIndex_index : ∀ k, ofIndex (index k) = k
  index_ofIndex : ∀ n, index (ofIndex n) = n

instance : DenseKey Nat where
  index n := n
  ofIndex n := n
  ofIndex_index _ := rfl
  index_ofIndex _ := rfl

namespace DenseKey

theorem index_inj {κ : Type} [DenseKey κ] {a b : κ} : index a = index b ↔ a = b :=
  ⟨fun h => by rw [← ofIndex_index a, h, ofIndex_index], fun h => h ▸ rfl⟩

end DenseKey

/-- An array of values, and the value that every key beyond it has. -/
structure DenseMap (κ α : Type) where
  fallback : α
  values : Array α := #[]
  deriving Repr

namespace DenseMap

variable {κ α : Type} [DenseKey κ]

/-- The number of keys that have a slot of their own. -/
def size (m : DenseMap κ α) : Nat := m.values.size

def isEmpty (m : DenseMap κ α) : Bool := m.values.isEmpty

/-- Does the key have a slot of its own? -/
def has (m : DenseMap κ α) (k : κ) : Bool := DenseKey.index k < m.values.size

/-- The value in the key's slot, if it has one. -/
def get? (m : DenseMap κ α) (k : κ) : Option α := m.values[DenseKey.index k]?

/-- The value of the key: its slot's, or the fallback. -/
def get (m : DenseMap κ α) (k : κ) : α := m.values.getD (DenseKey.index k) m.fallback

/-- Make at least `n` slots, the new ones holding `pad`. -/
def grow (m : DenseMap κ α) (n : Nat) (pad : α) : DenseMap κ α :=
  if n ≤ m.values.size then m
  else { m with values := m.values ++ Array.replicate (n - m.values.size) pad }

/-- Make sure that `k` has a slot, filling new slots with `pad`. -/
def reserve (m : DenseMap κ α) (k : κ) (pad : α) : DenseMap κ α :=
  m.grow (DenseKey.index k + 1) pad

/-- Change the value in the key's slot, if it has one. -/
def set? (m : DenseMap κ α) (k : κ) (v : α) : Option (DenseMap κ α) :=
  if m.has k then some { m with values := m.values.setIfInBounds (DenseKey.index k) v } else none

/-- Give `k` the value `v`, with new slots up to it as needed. -/
def insert (m : DenseMap κ α) (k : κ) (v : α) : DenseMap κ α :=
  let i := DenseKey.index k
  let grown := m.grow (i + 1) m.fallback
  { grown with values := grown.values.setIfInBounds i v }

/-- Apply `f` to the value of `k`. -/
def modify (m : DenseMap κ α) (k : κ) (f : α → α) : DenseMap κ α :=
  let i := DenseKey.index k
  let grown := m.grow (i + 1) m.fallback
  { grown with values := grown.values.modify i f }

/-- Drop every slot. -/
def clear (m : DenseMap κ α) : DenseMap κ α := { m with values := #[] }

/-- Apply `f` to the value of every slot. -/
def mapValues (m : DenseMap κ α) (f : α → α) : DenseMap κ α :=
  { m with values := m.values.map f }

/-- Apply `f` to the value of every slot, one after the other. -/
def mapValuesM {m : Type → Type} [Monad m] (d : DenseMap κ α) (f : α → m α) : m (DenseMap κ α) := do
  return { d with values := ← d.values.mapM f }

/-- Apply `f` to every slot's key and value. -/
def mapEntries (m : DenseMap κ α) (f : κ → α → α) : DenseMap κ α :=
  { m with values := m.values.mapIdx fun i v => f (DenseKey.ofIndex i) v }

/-- Every key with a slot, in order. -/
def keys (m : DenseMap κ α) : List κ := (List.range m.values.size).map DenseKey.ofIndex

/-- Every slot with its key, in order of keys. -/
def entries (m : DenseMap κ α) : List (κ × α) :=
  m.values.toList.mapIdx fun i v => (DenseKey.ofIndex i, v)

/-! ### What updates do to readings -/

theorem get_eq (m : DenseMap κ α) (k : κ) :
    m.get k = (m.values[DenseKey.index k]?).getD m.fallback := by
  simp [get, Array.getD_eq_getD_getElem?]

/-- Every slot is read under some key. -/
theorem exists_get_of_mem (m : DenseMap κ α) {v : α} (stored : v ∈ m.values) : ∃ k, m.get k = v := by
  obtain ⟨i, at_i⟩ := Array.mem_iff_getElem?.mp stored
  refine ⟨DenseKey.ofIndex i, ?_⟩
  rw [get_eq, DenseKey.index_ofIndex, at_i]
  rfl

/-- What is read is stored in a slot, or the fallback. -/
theorem get_mem_or_eq (m : DenseMap κ α) (k : κ) : m.get k ∈ m.values ∨ m.get k = m.fallback := by
  rw [get_eq]
  cases stored : m.values[DenseKey.index k]? with
  | some v => exact .inl (Array.mem_of_getElem? stored)
  | none => exact .inr rfl

theorem get_mapValues (m : DenseMap κ α) {f : α → α} (fixed : f m.fallback = m.fallback) (k : κ) :
    (m.mapValues f).get k = f (m.get k) := by
  simp only [get_eq, mapValues, Array.getElem?_map]
  cases m.values[DenseKey.index k]? with
  | some v => rfl
  | none => exact fixed.symm

omit [DenseKey κ] in
@[simp] theorem fallback_grow (m : DenseMap κ α) (n : Nat) (pad : α) :
    (m.grow n pad).fallback = m.fallback := by
  unfold grow; split <;> rfl

omit [DenseKey κ] in
theorem size_grow (m : DenseMap κ α) (n : Nat) (pad : α) :
    (m.grow n pad).values.size = max n m.values.size := by
  unfold grow; split
  · omega
  · simp; omega

@[simp] theorem get_grow (m : DenseMap κ α) (n : Nat) (k : κ) :
    (m.grow n m.fallback).get k = m.get k := by
  unfold grow
  split
  · rfl
  · simp only [get_eq, Array.getElem?_append, Array.getElem?_replicate]
    split
    · rfl
    · rename_i h
      rw [Array.getElem?_eq_none (by omega)]
      split <;> rfl

@[simp] theorem fallback_insert (m : DenseMap κ α) (k : κ) (v : α) :
    (m.insert k v).fallback = m.fallback := by simp [insert]

@[simp] theorem fallback_modify (m : DenseMap κ α) (k : κ) (f : α → α) :
    (m.modify k f).fallback = m.fallback := by simp [modify]

theorem get_insert [DecidableEq κ] (m : DenseMap κ α) (k j : κ) (v : α) :
    (m.insert k v).get j = if k = j then v else m.get j := by
  have size := size_grow m (DenseKey.index k + 1) m.fallback
  rw [← get_grow m (DenseKey.index k + 1) j, get_eq, get_eq]
  simp only [insert, fallback_grow, Array.getElem?_setIfInBounds]
  by_cases h : k = j
  · subst h
    rw [if_pos rfl, if_pos (by omega), if_pos rfl, Option.getD_some]
  · rw [if_neg (fun e => h (DenseKey.index_inj.mp e)), if_neg h]

theorem get_modify [DecidableEq κ] (m : DenseMap κ α) (k j : κ) (f : α → α) :
    (m.modify k f).get j = if k = j then f (m.get j) else m.get j := by
  have size := size_grow m (DenseKey.index k + 1) m.fallback
  rw [← get_grow m (DenseKey.index k + 1) j, get_eq, get_eq]
  simp only [modify, fallback_grow, Array.getElem?_modify]
  by_cases h : k = j
  · subst h
    rw [if_pos rfl, if_pos rfl, Array.getElem?_eq_getElem (by omega)]
    rfl
  · rw [if_neg (fun e => h (DenseKey.index_inj.mp e)), if_neg h]

theorem insert_insert (m : DenseMap κ α) (k : κ) (u v : α) :
    (m.insert k u).insert k v = m.insert k v := by
  have size := size_grow m (DenseKey.index k + 1) m.fallback
  simp only [insert, fallback_grow]
  rw [grow, if_pos (by rw [Array.size_setIfInBounds]; omega), Array.setIfInBounds_setIfInBounds]

end DenseMap

/-- A map to flags, all of them down at first. -/
abbrev DenseFlags (κ : Type) := DenseMap κ Bool

namespace DenseFlags

variable {κ : Type} [DenseKey κ]

def empty : DenseFlags κ := { fallback := false }

/-- Put the flag of `k` up. -/
def raise (m : DenseFlags κ) (k : κ) : DenseFlags κ := m.insert k true

/-- Put every flag down; the slots stay. -/
def lowerAll (m : DenseFlags κ) : DenseFlags κ := m.mapValues fun _ => false

/-- The keys whose flag is up, in order. -/
def raised (m : DenseFlags κ) : List κ := m.keys.filter m.get

end DenseFlags

end Cdcl
