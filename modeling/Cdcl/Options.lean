import Cdcl.Arena.Clause

/-!
# Options

The settings of a solver, with their defaults, and the check that they make sense together.
-/

namespace Cdcl

/-- When to restart the search. -/
inductive RestartPolicy where
  /-- When recent learnt clauses span clearly more levels than all of them do on average, unless
  the trail is unusually long. -/
  | adaptive
  | everyConflict
  | never
  deriving DecidableEq, Repr, Inhabited

namespace RestartPolicy

def name : RestartPolicy → String
  | adaptive => "Adaptive"
  | everyConflict => "EveryConflict"
  | never => "Never"

/-- The policy of a name. -/
def ofName? : String → Option RestartPolicy
  | "Adaptive" => some adaptive
  | "EveryConflict" => some everyConflict
  | "Never" => some never
  | _ => none

end RestartPolicy

structure Options where
  /-- The weight of older conflicts in the activity of variables. -/
  varDecay : Float := 0.95
  /-- The weight of older conflicts in the activity of learnt clauses. -/
  clauseDecay : Float := 0.999
  /-- Minimization of learnt clauses: 0 for none, 1 for local, 2 for recursive. -/
  minimization : Nat := 2
  /-- Which polarities are remembered on backtracking: 0 for none, 1 for those of the last
  decision level, 2 for all. -/
  phaseSaving : Nat := 2
  /-- The polarity to try first for a variable that was never assigned. -/
  defaultPolarity : Bool := false
  restarts : RestartPolicy := .adaptive
  /-- How many recent level counts are averaged. -/
  lbdWindow : Nat := 50
  /-- Restart once the recent mean times this exceeds the mean of all. -/
  lbdFactor : Float := 0.8
  /-- How many recent trail lengths are averaged. -/
  trailWindow : Nat := 5000
  /-- Put restarts off while the trail is longer than its mean times this. -/
  trailFactor : Float := 1.4
  /-- Restarts are not put off before that many conflicts. -/
  blockingAfter : Nat := 10000
  /-- Whether learnt clauses are reduced at all. -/
  reduce : Bool := true
  /-- Conflicts before the first reduction. -/
  reduceFirst : Nat := 500
  /-- By how many conflicts each gap between reductions exceeds the one before. -/
  reduceIncrement : Nat := 100
  /-- Upper bound of the phase deviation that decides about freezing. -/
  minDeviation : Float := 100.0
  /-- A clause frozen more often than that is removed. -/
  maxFreeze : Nat := 7
  /-- The part of the arena that may be wasted before it is compacted. -/
  garbageFraction : Float := 0.20
  /-- Whether pure literals are assumed during search. -/
  pureLiterals : Bool := true
  /-- Original clauses of at least this size are vivified before search; 0 for none. -/
  vivifyMinSize : Nat := 0
  /-- Whether the clauses are kept as they were given. -/
  keepOriginals : Bool := true
  /-- Words that the clause arena may hold. -/
  maxArenaWords : Nat := 1 <<< 32 - 2

namespace Options

/-- Is the number above zero, and finite? -/
def isPositiveFinite (x : Float) : Bool := 0 < x && x < 1 / 0

/-- Is the number strictly between zero and one? -/
def isFraction (x : Float) : Bool := 0 < x && x < 1

/-- Do the options make sense together? The gap between reductions has to grow, so that each part
of the search is given enough time in the end. -/
def check (o : Options) : Bool :=
  isFraction o.varDecay && isFraction o.clauseDecay &&
  o.minimization ≤ 2 && o.phaseSaving ≤ 2 &&
  1 ≤ o.lbdWindow && isPositiveFinite o.lbdFactor &&
  1 ≤ o.trailWindow && isPositiveFinite o.trailFactor &&
  1 ≤ o.reduceFirst && 1 ≤ o.reduceIncrement &&
  isPositiveFinite o.minDeviation && o.maxFreeze < Clause.maxLbd &&
  isPositiveFinite o.garbageFraction &&
  1 ≤ o.maxArenaWords && o.maxArenaWords < 1 <<< 32 - 1

end Options

end Cdcl
