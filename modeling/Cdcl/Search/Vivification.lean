import Cdcl.Search.Propagation

/-!
# Vivification

An original clause is set aside, and the negations of its literals are assumed in order. If they
lead to a conflict, or make another literal of the clause true, the literals assumed so far form
a clause by themselves that the other clauses imply; literals found false on the way can be left
out. The shorter clause takes the place of the old one.
-/

namespace Cdcl

namespace Engine

/-- Assume the negations of literals until they give a conflict or a true literal. The literals
needed are added to `kept`. -/
def probe : List Lit → Array Lit → Engine → Array Lit × Engine
  | [], kept, e => (kept, e)
  | l :: rest, kept, e =>
    match e.trail.valueLit l with
    -- The negations assumed so far imply `l`.
    | .yes => (kept.push l, e)
    -- They imply that `l` is false, so the clause can do without it.
    | .no => probe rest kept e
    | .undecided =>
      match (e.decide l.neg).propagate with
      | (e, some _) => (kept.push l, e)
      | (e, none) => probe rest (kept.push l) e

/-- Set a clause aside and probe it, from level zero and back to it. -/
def probeClause (e : Engine) (id : ClauseId) : Array Lit × Engine :=
  let lits := (e.clause id).lits.toList
  let (kept, e) := probe lits #[] (e.detachNow id)
  (kept, e.cancelTo 0)

/-- Put fewer literals in place of those of an original clause that is set aside. -/
def replaceLits (e : Engine) (id : ClauseId) (lits : Array Lit) : Engine :=
  let dropped := (e.clause id).size - lits.size
  let e := { e with arena := (e.arena.modify id (·.setLits lits)).waste dropped }
  e.modifyTally fun t => { t with originalLits := t.originalLits - dropped }

/-- Learn a fact at level zero. -/
def addFact (e : Engine) (l : Lit) : Engine :=
  match (e.assign l .decision).propagate with
  | (e, some _) => e.refute
  | (e, none) => e

/-- The course of a vivification: the clauses that stay. -/
structure VivifyState where
  engine : Engine
  kept : Array ClauseId := #[]

/-- Put the shorter clause in place of the one set aside. -/
def shorten (e : Engine) (id : ClauseId) (lits : Array Lit) : Bool × Engine :=
  let dropped := (e.clause id).size - lits.size
  let e := e.modifyStats fun s =>
    { s with
      vivifiedClauses := s.vivifiedClauses + 1
      vivifiedLits := s.vivifiedLits + dropped }
  match lits.toList with
  | [] => (false, e.refute)
  | [l] => (false, (e.removeClause id).addFact l)
  | [a, b] => (false, (e.removeClause id).addBinary a b false)
  | _ => (true, (e.replaceLits id lits).attach id)

/-- Vivify a clause, unless it is too short or the clauses are known to be contradictory. -/
def vivifyClause (minSize : Nat) (s : VivifyState) (id : ClauseId) : VivifyState :=
  let e := s.engine
  if !e.ok || (e.clause id).size < minSize then { s with kept := s.kept.push id }
  else if e.isSatisfied id then
    let e := (e.removeClause id).modifyStats fun s =>
      { s with removedClauses := s.removedClauses + 1 }
    { s with engine := e }
  else
    let size := (e.clause id).size
    let (lits, e) := e.probeClause id
    if lits.size < size then
      let (stays, e) := e.shorten id lits
      { engine := e, kept := if stays then s.kept.push id else s.kept }
    -- Nothing was gained: the clause goes back to work as it was.
    else { engine := e.attach id, kept := s.kept.push id }

/-- Vivify the original clauses of at least `minSize` literals. -/
def vivifyAll (e : Engine) (minSize : Nat) : Engine :=
  let s := e.originals.foldl (vivifyClause (max minSize 3)) { engine := e }
  { s.engine with originals := s.kept }

end Engine

end Cdcl
