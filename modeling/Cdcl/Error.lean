import Cdcl.Logic.Literal

/-!
# Errors and faults

A call is answered with an error if its arguments are not acceptable or there is no room for a clause;
the solver can go on afterwards. A fault means that an operation met a state it relies on never
to see, and has no answer.
-/

namespace Cdcl

/-- What has room for so much and no more. -/
inductive Capacity where
  /-- The header of a clause counts its literals. -/
  | header
  /-- The arena may hold `limit` words. -/
  | arena (limit : Nat)
  deriving DecidableEq, Repr

/-- Why a call was rejected. -/
inductive SolverError where
  /-- The variable was never created. -/
  | unknownVar (v : Var)
  /-- A sentinel was given for a literal. -/
  | invalidLit (l : Lit)
  /-- There would have to be room for `requested`. -/
  | capacityExhausted (requested : Nat) (capacity : Capacity)
  deriving DecidableEq, Repr

namespace SolverError

/-- A clause has more literals than its header can count. -/
@[match_pattern]
def clauseTooLarge (size : Nat) : SolverError := .capacityExhausted size .header

/-- The arena would need to hold `requested` words, and may hold `limit`. -/
@[match_pattern]
def arenaExhausted (requested limit : Nat) : SolverError :=
  .capacityExhausted requested (.arena limit)

def message : SolverError → String
  | unknownVar v => s!"variable {v.describe} was not created in this solver"
  | invalidLit l => s!"literal {l.describe} is a sentinel and cannot be used in a clause"
  | clauseTooLarge size => s!"clause of {size} literals exceeds the maximal clause size"
  | arenaExhausted requested limit =>
    s!"clause arena exhausted: {requested} words requested, limit is {limit}"

end SolverError

/-- What an operation relies on never to meet. -/
inductive Fault where
  /-- The key has no slot in a map, or the offset is outside an arena. -/
  | outOfRange
  /-- The key is not in the heap. -/
  | absentKey
  /-- Two keys were to be compared and one has no score. -/
  | unscoredKey
  /-- The options do not pass their check, or a window has no room for a value. -/
  | invalidOptions
  /-- A window was to hold more values than any memory has room for. -/
  | windowTooLarge
  /-- A time limit is up at a moment that the clock will never show. -/
  | deadlineTooLate
  /-- Conflict analysis went past the start of the trail. -/
  | trailExhausted
  /-- Conflict analysis had to resolve with a decision. -/
  | decisionResolved
  /-- Minimization had to explain a decision. -/
  | decisionExplained
  /-- The allowance of search steps is used up. -/
  | stepsExhausted
  deriving DecidableEq, Repr

end Cdcl
