/-!
# Means

The mean of the most recent values, over a window of fixed capacity, and the mean of all values.
Both keep a running sum, so a mean carries the rounding of every addition and subtraction before
it. The window is written for any kind of number, so that its sum can be studied in exact
arithmetic.
-/

namespace Cdcl

/-- The last values added, in a ring. Once the ring is full, `next` is the place of the oldest. -/
structure Window (α : Type) where
  capacity : Nat
  values : Array α := #[]
  next : Nat := 0
  sum : α

namespace Window

variable {α : Type} [OfNat α 0] [Add α] [Sub α]

def empty (capacity : Nat) : Window α := { capacity, sum := 0 }

/-- The most values that a window can have room for: eight bytes each, as many as an address can count. -/
def maxCapacity : Nat := (1 <<< 63 - 1) / 8

/-- A window must hold at least one value, and no more than there can be room for. -/
def empty? (capacity : Nat) : Option (Window α) :=
  if capacity = 0 || maxCapacity < capacity then none else some (empty capacity)

def size (w : Window α) : Nat := w.values.size

def isEmpty (w : Window α) : Bool := w.values.isEmpty

def isFull (w : Window α) : Bool := w.values.size == w.capacity

/-- Add a value; a full window gives up its oldest one. -/
def add (w : Window α) (v : α) : Window α :=
  let next := (w.next + 1) % w.capacity
  if w.values.size < w.capacity then
    { w with values := w.values.push v, next, sum := w.sum + v }
  else
    let oldest := w.values.getD w.next 0
    { w with values := w.values.setIfInBounds w.next v, next, sum := w.sum - oldest + v }

/-- Forget every value; the capacity stays. -/
def clear (w : Window α) : Window α := { w with values := #[], next := 0, sum := 0 }

/-- The values from the oldest to the latest. -/
def toList (w : Window α) : List α :=
  if w.values.size < w.capacity then w.values.toList
  else w.values.toList.drop w.next ++ w.values.toList.take w.next

/-- The mean of the values in the window, zero if there are none. -/
def mean (w : Window Float) : Float :=
  if w.values.isEmpty then 0 else w.sum / Float.ofNat w.values.size

end Window

/-- The sum and number of all values added. -/
structure RunningMean where
  sum : Float := 0
  count : Nat := 0

namespace RunningMean

def add (m : RunningMean) (v : Float) : RunningMean := { sum := m.sum + v, count := m.count + 1 }

/-- The mean of all values, zero if there are none. -/
def mean (m : RunningMean) : Float := if m.count = 0 then 0 else m.sum / Float.ofNat m.count

end RunningMean

end Cdcl
