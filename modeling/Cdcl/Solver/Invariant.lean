import Cdcl.Solver.Basic

/-!
# The consistency check

A check of what the search relies on, clause by clause: levels and reasons along the trail, the
watches of the clauses that propagate, and the single watches of the frozen ones.
-/

namespace Cdcl

namespace Engine

/-- Is the literal false, and assigned at a level up to this one? -/
def isFalseUpTo (e : Engine) (level : Nat) (l : Lit) : Bool :=
  e.trail.isFalse l && e.trail.levelOf l.var ≤ level

/-- Does the reason imply the literal at its level? -/
def checkReason (e : Engine) (level : Nat) (l : Lit) : Bool :=
  match e.trail.reason l.var with
  | .decision => true
  | .binary other => e.isFalseUpTo level other
  | .clause id =>
    let c := e.clause id
    !c.isRemoved && c.lit 0 == l && c.tail.all (e.isFalseUpTo level)

/-- The level of a position of the trail: how many levels start at or before it. The levels of
earlier positions are given as `level`, and `n` levels are left to look at. -/
def levelAt (marks : Array Nat) (position level : Nat) : Nat → Nat
  | 0 => level
  | n + 1 =>
    match marks[level]? with
    | some start => if start ≤ position then levelAt marks position (level + 1) n else level
    | none => level

/-- Check the literals of the trail from a position and its level on. -/
def checkTrailFrom (e : Engine) : List Lit → Nat → Nat → Bool
  | [], _, _ => true
  | l :: rest, position, level =>
    let level := levelAt e.trail.marks position level e.trail.marks.size
    e.trail.isTrue l && e.trail.levelOf l.var == level && e.checkReason level l &&
      checkTrailFrom e rest (position + 1) level

/-- Are levels and reasons along the trail consistent? -/
def checkTrail (e : Engine) : Bool := e.checkTrailFrom e.trail.lits.toList 0 0

/-- Is the clause in use, and watched as it should be? -/
def checkClause (e : Engine) (id : ClauseId) : Bool :=
  let c := e.clause id
  if c.isRemoved then false
  else if c.isFrozen then c.lits.any fun l => e.watches.watchesFrozen id l.neg
  else
    let first := c.lit 0
    let second := c.lit 1
    let falseWatch := e.trail.isFalse first || e.trail.isFalse second
    e.watches.watches id first.neg && e.watches.watches id second.neg &&
      !(e.trail.isPropagated && falseWatch && !e.isSatisfied id)

/-- Is everything consistent? -/
def check (e : Engine) : Bool :=
  let ids := e.originals.toList ++ e.learnts.toList
  e.checkTrail && ids.all e.checkClause &&
    ids.countP (fun id => (e.clause id).isFrozen) == e.tally.frozen

end Engine

/-- Is the state of the solver consistent? -/
def Solver.checkInvariants (s : Solver) : Bool := s.engine.check

end Cdcl
