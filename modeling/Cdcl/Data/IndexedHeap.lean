import Cdcl.Data.DenseMap

/-!
# Indexed heaps

A binary heap of numbered keys with a table of positions, so that a key whose rank improved can be
found and moved up. The order lives outside the heap: every operation takes the comparison it is
to work with, `before a b` saying that `a` belongs above `b`.

An element on the move is held apart from the array: `siftUp` and `siftDown` carry a hole to where
the element belongs, and place it there.
-/

namespace Cdcl

/-- The keys in heap order, and the position of each key that is present. -/
structure IndexedHeap (κ : Type) where
  items : Array κ := #[]
  positions : DenseMap κ (Option Nat) := { fallback := none }

namespace IndexedHeap

variable {κ : Type} [DenseKey κ]

def empty : IndexedHeap κ := {}

def size (h : IndexedHeap κ) : Nat := h.items.size

def isEmpty (h : IndexedHeap κ) : Bool := h.items.isEmpty

def contains (h : IndexedHeap κ) (k : κ) : Bool := (h.positions.get k).isSome

/-- Write `k` at position `i`, and note the position. -/
def place (h : IndexedHeap κ) (i : Nat) (k : κ) : IndexedHeap κ :=
  { items := h.items.setIfInBounds i k, positions := h.positions.insert k (some i) }

@[simp] theorem size_place (h : IndexedHeap κ) (i : Nat) (k : κ) :
    (h.place i k).items.size = h.items.size := by simp [place]

/-- Move the hole at `i` towards the top until its parent is not after `x`, and place `x` there. -/
def siftUp (before : κ → κ → Bool) (h : IndexedHeap κ) (i : Nat) (x : κ) : IndexedHeap κ :=
  if i = 0 then h.place i x
  else
    match h.items[(i - 1) / 2]? with
    | none => h.place i x
    | some parent =>
      if before x parent then siftUp before (h.place i parent) ((i - 1) / 2) x
      else h.place i x
termination_by i
decreasing_by omega

/-- The child of position `i` that belongs above the other, with its key, if there is one. -/
def upperChild (before : κ → κ → Bool) (h : IndexedHeap κ) (i : Nat) : Option (Nat × κ) :=
  match h.items[2 * i + 1]?, h.items[2 * i + 2]? with
  | none, _ => none
  | some left, none => some (2 * i + 1, left)
  | some left, some right =>
    if before right left then some (2 * i + 2, right) else some (2 * i + 1, left)

omit [DenseKey κ] in
theorem upperChild_bounds {before : κ → κ → Bool} {h : IndexedHeap κ} {i c : Nat} {k : κ}
    (found : h.upperChild before i = some (c, k)) : i < c ∧ c < h.items.size := by
  unfold upperChild at found
  split at found
  · cases found
  · rename_i left _
    obtain ⟨bound, _⟩ := Array.getElem?_eq_some_iff.mp left
    cases found
    omega
  · rename_i left right
    obtain ⟨boundLeft, _⟩ := Array.getElem?_eq_some_iff.mp left
    obtain ⟨boundRight, _⟩ := Array.getElem?_eq_some_iff.mp right
    split at found <;> cases found <;> omega

/-- Move the hole at `i` towards the leaves until no child belongs above `x`, and place `x`
there. -/
def siftDown (before : κ → κ → Bool) (h : IndexedHeap κ) (i : Nat) (x : κ) : IndexedHeap κ :=
  match _found : h.upperChild before i with
  | none => h.place i x
  | some (c, child) =>
    if before child x then siftDown before (h.place i child) c x else h.place i x
termination_by h.items.size - i
decreasing_by
  have := upperChild_bounds _found
  simp
  omega

/-- Add a key that is not present. -/
def insert (before : κ → κ → Bool) (h : IndexedHeap κ) (k : κ) : IndexedHeap κ :=
  let i := h.items.size
  siftUp before { h with items := h.items.push k } i k

/-- Restore the order around a present key that has come to belong higher; `none` if it is not
present. -/
def raise? (before : κ → κ → Bool) (h : IndexedHeap κ) (k : κ) : Option (IndexedHeap κ) :=
  (h.positions.get k).map fun i => siftUp before h i k

/-- Restore the order around `k` if it is present. -/
def raise (before : κ → κ → Bool) (h : IndexedHeap κ) (k : κ) : IndexedHeap κ :=
  match h.positions.get k with
  | some i => siftUp before h i k
  | none => h

/-- Take the top key out. -/
def pop? (before : κ → κ → Bool) (h : IndexedHeap κ) : Option (κ × IndexedHeap κ) :=
  match h.items[0]?, h.items.back? with
  | some top, some last =>
    let rest : IndexedHeap κ :=
      { items := h.items.pop, positions := h.positions.insert top none }
    -- The last key fills the hole that the top one leaves.
    if rest.items.isEmpty then some (top, rest)
    else some (top, siftDown before rest 0 last)
  | _, _ => none

/-- Sift down the positions below `n`, the last first. -/
def settle (before : κ → κ → Bool) : Nat → IndexedHeap κ → IndexedHeap κ
  | 0, h => h
  | n + 1, h =>
    match h.items[n]? with
    | some x => settle before n (siftDown before h n x)
    | none => settle before n h

/-- The heap of the keys of a list, whatever was in it. -/
def build (before : κ → κ → Bool) (h : IndexedHeap κ) (ks : List κ) : IndexedHeap κ :=
  let positions := h.items.foldl (fun table k => table.insert k none) h.positions
  let filled := ks.zipIdx.foldl (fun table (k, i) => table.insert k (some i)) positions
  settle before (ks.length / 2) { items := ks.toArray, positions := filled }

/-- Take out the top `n` times, or until nothing is left. -/
def takeTop (before : κ → κ → Bool) : Nat → IndexedHeap κ → List κ × IndexedHeap κ
  | 0, h => ([], h)
  | n + 1, h =>
    match h.pop? before with
    | none => ([], h)
    | some (k, rest) =>
      let (ks, final) := takeTop before n rest
      (k :: ks, final)

/-- Take everything out, in order. -/
def drain (before : κ → κ → Bool) (h : IndexedHeap κ) : List κ × IndexedHeap κ :=
  takeTop before h.size h

end IndexedHeap

end Cdcl
