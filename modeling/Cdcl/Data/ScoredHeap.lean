import Cdcl.Data.IndexedHeap
import Cdcl.Error

/-!
# Scored heaps

A heap of numbers in which the higher score comes first. Keys need a score as soon as they are
compared, so a heap of two keys or more must have a score for each; a single key needs none.
-/

namespace Cdcl

structure ScoredHeap where
  /-- The scores of the keys `0, 1, …`. -/
  scores : Array Int
  /-- Whether the lower of two keys with equal scores comes first. If not, neither does. -/
  tieByIndex : Bool
  heap : IndexedHeap Nat := {}

namespace ScoredHeap

/-- The order of the heap. -/
def before (h : ScoredHeap) (a b : Nat) : Bool :=
  let x := h.scores.getD a 0
  let y := h.scores.getD b 0
  y < x || (x == y && h.tieByIndex && a < b)

/-- Every key that would be compared has a score. -/
def isScored (h : ScoredHeap) : Bool :=
  h.heap.size ≤ 1 || h.heap.items.all (· < h.scores.size)

/-- Put another heap in place, if its keys could be compared. -/
def withHeap (h : ScoredHeap) (heap : IndexedHeap Nat) : Except Fault ScoredHeap :=
  let h := { h with heap }
  if h.isScored then .ok h else .error .unscoredKey

def insert (h : ScoredHeap) (k : Nat) : Except Fault ScoredHeap :=
  h.withHeap (h.heap.insert h.before k)

/-- Restore the order around a present key whose score grew. -/
def raise (h : ScoredHeap) (k : Nat) : Except Fault ScoredHeap :=
  match h.heap.raise? h.before k with
  | some heap => h.withHeap heap
  | none => .error .absentKey

def build (h : ScoredHeap) (ks : List Nat) : Except Fault ScoredHeap :=
  h.withHeap (h.heap.build h.before ks)

/-- Change the score of a key, and nothing else. -/
def setScore (h : ScoredHeap) (k : Nat) (score : Int) : Except Fault ScoredHeap :=
  if k < h.scores.size then .ok { h with scores := h.scores.setIfInBounds k score }
  else .error .outOfRange

/-- Take the top key out, if there is one. -/
def pop (h : ScoredHeap) : Option Nat × ScoredHeap :=
  match h.heap.pop? h.before with
  | none => (none, h)
  | some (k, heap) => (some k, { h with heap })

/-- Take everything out, in order. -/
def drain (h : ScoredHeap) : List Nat × ScoredHeap :=
  let (ks, heap) := h.heap.drain h.before
  (ks, { h with heap })

end ScoredHeap

end Cdcl
