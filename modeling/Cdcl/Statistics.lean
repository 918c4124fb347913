/-!
# Statistics

Counts kept during the life of a solver. They never influence the search, except through budgets.
-/

namespace Cdcl

structure Statistics where
  solves : Nat := 0
  restarts : Nat := 0
  /-- Restarts put off because the trail was long. -/
  blockedRestarts : Nat := 0
  decisions : Nat := 0
  propagations : Nat := 0
  conflicts : Nat := 0
  reductions : Nat := 0
  compactions : Nat := 0
  /-- Learnt clauses removed by reductions or as satisfied. -/
  removedLearnts : Nat := 0
  /-- How often a learnt clause was frozen. -/
  frozen : Nat := 0
  /-- How often a frozen clause was put back to work. -/
  thawed : Nat := 0
  /-- Level counts lowered when a learnt clause propagated. -/
  lbdUpdates : Nat := 0
  /-- Learnt literals before minimization. -/
  literalsBefore : Nat := 0
  /-- Learnt literals after minimization. -/
  literalsAfter : Nat := 0
  pureLiterals : Nat := 0
  /-- Original clauses removed because satisfied. -/
  removedClauses : Nat := 0
  /-- Original clauses that lost false literals. -/
  shrunkClauses : Nat := 0
  vivifiedClauses : Nat := 0
  vivifiedLits : Nat := 0
  deriving DecidableEq, Repr

namespace Statistics

/-- All counts, in the order above. -/
def toList (s : Statistics) : List Nat :=
  [s.solves, s.restarts, s.blockedRestarts, s.decisions, s.propagations, s.conflicts,
    s.reductions, s.compactions, s.removedLearnts, s.frozen, s.thawed, s.lbdUpdates,
    s.literalsBefore, s.literalsAfter, s.pureLiterals, s.removedClauses, s.shrunkClauses,
    s.vivifiedClauses, s.vivifiedLits]

end Statistics

end Cdcl
