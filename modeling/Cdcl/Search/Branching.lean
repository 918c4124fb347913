import Cdcl.Data.IndexedHeap
import Cdcl.Search.Trail

/-!
# Branching

Which variable to decide next and with which polarity. Variables that took part in recent
conflicts are the most active; the heap holds at least every unassigned decision variable, the
most active one on top. The polarity of a variable is remembered from its last assignment.
-/

namespace Cdcl

structure Branching where
  activity : DenseMap Var Float := { fallback := 0 }
  /-- What the next conflict adds to the activity of a variable. -/
  increment : Float := 1
  heap : IndexedHeap Var := {}
  /-- The variables that may be decided. -/
  decision : DenseFlags Var := DenseFlags.empty
  polarity : DenseMap Var Bool := { fallback := false }
  /-- The polarities at the last reduction. -/
  referencePolarity : DenseMap Var Bool := { fallback := false }
  /-- The epoch in which each variable was last assigned. Reductions start new epochs. -/
  lastAssigned : DenseMap Var (Option Nat) := { fallback := none }
  epoch : Nat := 0
  /-- How many variables were assigned in this epoch. -/
  assignedInEpoch : Nat := 0

namespace Branching

/-- The order of the heap: more active variables first, then those of lower index. -/
def before (activity : DenseMap Var Float) (a b : Var) : Bool :=
  let x := activity.get a
  let y := activity.get b
  if y < x then true
  else if x < y then false
  else a.index < b.index

/-- Put a decision variable into the heap, unless it is there. -/
def offer (b : Branching) (v : Var) : Branching :=
  if b.decision.get v && !b.heap.contains v then
    { b with heap := b.heap.insert (before b.activity) v }
  else b

/-- Allow or forbid decisions on a variable. A forbidden one leaves the heap once it gets to the
top. -/
def setDecision (b : Branching) (v : Var) (allowed : Bool) : Branching :=
  { b with decision := b.decision.insert v allowed }.offer v

def setPolarity (b : Branching) (v : Var) (positive : Bool) : Branching :=
  { b with polarity := b.polarity.insert v positive }

/-- Set up a new variable. -/
def addVar (b : Branching) (v : Var) (polarity : Bool) : Branching :=
  { b with
    activity := b.activity.insert v 0
    decision := b.decision.insert v false
    polarity := b.polarity.insert v polarity
    referencePolarity := b.referencePolarity.insert v polarity
    lastAssigned := b.lastAssigned.insert v none }

/-- Note that a literal was assigned. -/
def noteAssigned (b : Branching) (phaseSaving : Nat) (l : Lit) : Branching :=
  let b := if 1 < phaseSaving then b.setPolarity l.var l.positive else b
  if b.lastAssigned.get l.var == some b.epoch then b
  else
    { b with
      lastAssigned := b.lastAssigned.insert l.var (some b.epoch)
      assignedInEpoch := b.assignedInEpoch + 1 }

/-- Note that a literal was unassigned; `latest` says that it was of the last decision level. -/
def noteUnassigned (b : Branching) (phaseSaving : Nat) (l : Lit) (latest : Bool) : Branching :=
  let b := if phaseSaving == 1 && latest then b.setPolarity l.var l.positive else b
  b.offer l.var

/-- Fill the heap with exactly the decision variables among the given ones. -/
def rebuild (b : Branching) (unassigned : List Var) : Branching :=
  { b with heap := b.heap.build (before b.activity) (unassigned.filter b.decision.get) }

/-- Take variables from the heap until one is an unassigned decision variable; at most `n`. -/
def pickFrom (unassigned : Var → Bool) : Nat → Branching → Option Var × Branching
  | 0, b => (none, b)
  | n + 1, b =>
    match b.heap.pop? (before b.activity) with
    | none => (none, b)
    | some (v, heap) =>
      let b := { b with heap }
      -- The heap may hold variables that were assigned or forbidden since they came in.
      if unassigned v && b.decision.get v then (some v, b) else pickFrom unassigned n b

/-- The most active unassigned decision variable, which leaves the heap. -/
def pick (b : Branching) (unassigned : Var → Bool) : Option Var × Branching :=
  pickFrom unassigned b.heap.size b

/-- Activities above this are scaled down. -/
def ceiling : Float := 1e100

/-- Make a variable more active. When an activity gets too large, all of them and the increment
are scaled down. -/
def bump (b : Branching) (v : Var) : Branching :=
  let b := { b with activity := b.activity.modify v (· + b.increment) }
  let b :=
    if ceiling < b.activity.get v then
      { b with activity := b.activity.mapValues (· * 1e-100), increment := b.increment * 1e-100 }
    else b
  { b with heap := b.heap.raise (before b.activity) v }

/-- Let later conflicts weigh more. -/
def decay (b : Branching) (factor : Float) : Branching :=
  { b with increment := b.increment * (1 / factor) }

/-- How many variables have another polarity than at the last reduction. -/
def movedPhases (b : Branching) : Nat :=
  b.polarity.keys.countP fun v => b.referencePolarity.get v != b.polarity.get v

/-- Start a new epoch, with the polarities of now as the reference. -/
def newEpoch (b : Branching) : Branching :=
  { b with
    referencePolarity := b.polarity
    epoch := b.epoch + 1
    assignedInEpoch := 0 }

end Branching

end Cdcl
