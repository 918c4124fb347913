import Cdcl.Logic.Literal

/-!
# Logs of clauses

Clauses that are only ever added and taken back at the end are kept in two arrays: their literals one after
the other, and where each clause ends.
-/

namespace Cdcl

/-- Clauses one after the other, and where each of them ends. -/
structure ClauseLog where
  lits : Array Lit := #[]
  ends : Array Nat := #[]
  deriving DecidableEq

namespace ClauseLog

def push (g : ClauseLog) (c : List Lit) : ClauseLog where
  lits := g.lits ++ c.toArray
  ends := g.ends.push (g.lits.size + c.length)

/-- Take the last clause back. -/
def pop (g : ClauseLog) : ClauseLog where
  lits := g.lits.extract 0 (g.ends.pop.back?.getD 0)
  ends := g.ends.pop

/-- The clauses that end there, the first of which begins at `start`. -/
def clausesFrom (lits : Array Lit) (start : Nat) : List Nat → List (List Lit)
  | [] => []
  | stop :: ends => (lits.extract start stop).toList :: clausesFrom lits stop ends

def clauses (g : ClauseLog) : List (List Lit) := clausesFrom g.lits 0 g.ends.toList

end ClauseLog

end Cdcl
