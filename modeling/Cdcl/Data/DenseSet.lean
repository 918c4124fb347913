import Cdcl.Data.DenseMap

/-!
# Dense sets

A set of numbered keys that remembers the order in which its members came. Membership is one flag
per key; clearing lowers only the flags of the members.
-/

namespace Cdcl

/-- The members in the order they were first inserted, and a flag for each. -/
structure DenseSet (κ : Type) where
  flags : DenseFlags κ := DenseFlags.empty
  members : Array κ := #[]

namespace DenseSet

variable {κ : Type} [DenseKey κ]

def empty : DenseSet κ := {}

def size (s : DenseSet κ) : Nat := s.members.size

def isEmpty (s : DenseSet κ) : Bool := s.members.isEmpty

def contains (s : DenseSet κ) (k : κ) : Bool := s.flags.get k

/-- Add `k` at the end, unless it is a member already. -/
def insert (s : DenseSet κ) (k : κ) : DenseSet κ :=
  if s.contains k then s
  else { flags := s.flags.raise k, members := s.members.push k }

/-- Remove every member. -/
def clear (s : DenseSet κ) : DenseSet κ :=
  { flags := s.members.foldl (fun flags k => flags.insert k false) s.flags, members := #[] }

def toList (s : DenseSet κ) : List κ := s.members.toList

/-- The set of the keys of a list, in order of first occurrence. -/
def ofList (ks : List κ) : DenseSet κ := ks.foldl insert empty

theorem toList_insert (s : DenseSet κ) (k : κ) :
    (s.insert k).toList = if s.contains k then s.toList else s.toList ++ [k] := by
  unfold insert toList
  split <;> simp

theorem contains_insert [DecidableEq κ] (s : DenseSet κ) (k j : κ) :
    (s.insert k).contains j = (decide (k = j) || s.contains j) := by
  unfold insert
  split
  · rename_i h
    by_cases e : k = j <;> simp_all
  · simp only [contains, DenseFlags.raise, DenseMap.get_insert]
    by_cases e : k = j <;> simp [e]

end DenseSet

end Cdcl
