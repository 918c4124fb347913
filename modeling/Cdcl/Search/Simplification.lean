import Cdcl.Search.Propagation

/-!
# Simplification at level zero

Facts at level zero hold for good: a clause that one of them satisfies is removed, and false
literals are dropped from the others. A clause that is left with two literals becomes a binary
one. Frozen clauses are removed when satisfied, and otherwise stay as they are.
-/

namespace Cdcl

/-- What simplification did to a clause. -/
inductive Simplified where
  | unchanged
  | shrunk
  /-- The clause is now one of two literals. -/
  | becameBinary
  | removed
  deriving DecidableEq, Repr

namespace Simplified

/-- Is the clause still in the arena? -/
def stays : Simplified → Bool
  | unchanged | shrunk => true
  | becameBinary | removed => false

end Simplified

/-- How a simplification of all clauses ended. -/
inductive Simplification where
  /-- The clauses are contradictory. -/
  | refuted
  /-- No fact is new since the last time. -/
  | upToDate
  | done
  deriving DecidableEq, Repr

namespace Engine

/-- Drop the false literals after the second. -/
def dropFalse (t : Trail) (lits : Array Lit) : Array Lit :=
  let rest := (lits.toList.drop 2).filter fun l => !t.isFalse l
  (lits.toList.take 2 ++ rest).toArray

/-- Simplify a clause. After propagation at level zero the watched literals of a clause that is
not satisfied are not false, so only those after the second need be looked at. -/
def simplifyClause (e : Engine) (id : ClauseId) : Simplified × Engine :=
  let c := e.clause id
  if e.isSatisfied id then (.removed, e.removeClause id)
  else if c.isFrozen then (.unchanged, e)
  else
    let lits := dropFalse e.trail c.lits
    let dropped := c.size - lits.size
    if dropped = 0 then (.unchanged, e)
    else if lits.size = 2 then
      -- The first two literals are not false, so they are the two that are left.
      (.becameBinary, (e.removeClause id).addBinary (c.lit 0) (c.lit 1) c.isLearnt)
    else
      let e := { e with arena := (e.arena.modify id (·.setLits lits)).waste dropped }
      let e := e.modifyTally fun t =>
        if c.isLearnt then { t with learntLits := t.learntLits - dropped }
        else { t with originalLits := t.originalLits - dropped }
      (.shrunk, e)

/-- The course of a simplification: the clauses that stay, and how many recent ones do not. -/
structure SimplifyState where
  engine : Engine
  kept : Array ClauseId := #[]
  recentGone : Nat := 0

/-- Simplify a learnt clause; `recent` says that it came after the latest reduction. -/
def simplifyLearnt (firstRecent : Nat) (s : SimplifyState) (entry : ClauseId × Nat) :
    SimplifyState :=
  let (id, i) := entry
  let (outcome, e) := s.engine.simplifyClause id
  let e :=
    if outcome = .removed then
      e.modifyStats fun s => { s with removedLearnts := s.removedLearnts + 1 }
    else e
  if outcome.stays then { s with engine := e, kept := s.kept.push id }
  else
    { s with
      engine := e
      recentGone := if firstRecent ≤ i then s.recentGone + 1 else s.recentGone }

/-- Simplify an original clause. -/
def simplifyOriginal (s : SimplifyState) (id : ClauseId) : SimplifyState :=
  let (outcome, e) := s.engine.simplifyClause id
  let e := e.modifyStats fun st =>
    match outcome with
    | .unchanged => st
    | .removed => { st with removedClauses := st.removedClauses + 1 }
    | .shrunk | .becameBinary => { st with shrunkClauses := st.shrunkClauses + 1 }
  if outcome.stays then { s with engine := e, kept := s.kept.push id }
  else { s with engine := e }

/-- Simplify all clauses, learnt ones first. -/
def simplifyAll (e : Engine) : Engine :=
  let learnts := e.learnts.toList
  let firstRecent := learnts.length - e.recentLearnts
  let s := learnts.zipIdx.foldl (simplifyLearnt firstRecent) { engine := e }
  let e :=
    { s.engine with
      learnts := s.kept
      recentLearnts := s.engine.recentLearnts - s.recentGone }
  let s := e.originals.foldl simplifyOriginal { engine := e }
  { s.engine with originals := s.kept }

/-- Propagate the facts at level zero, and simplify all clauses if there are new ones. -/
def simplify (e : Engine) : Simplification × Engine :=
  if !e.ok then (.refuted, e)
  else
    match e.propagate with
    | (e, some _) => (.refuted, e.refute)
    | (e, none) =>
      if e.simplifiedAt == some e.trail.size then (.upToDate, e)
      else
        let e := e.simplifyAll
        -- Variables settled at level zero are never decided again.
        let unassigned := e.vars.filter e.trail.isUnassigned
        let e :=
          { e with
            branching := e.branching.rebuild unassigned
            simplifiedAt := some e.trail.size }
        (.done, e)

end Engine

end Cdcl
