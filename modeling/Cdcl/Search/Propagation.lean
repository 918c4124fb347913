import Cdcl.Search.Engine

/-!
# Unit propagation

Every literal on the trail is visited once, in order: first the clauses of two literals in which
its opposite occurs, then the watched clauses, then the frozen ones. A visited clause whose other
literals are all false gives a new literal for the trail, or a conflict.

A frozen clause gives no new literals. Its single watch moves to any literal that is not false;
when none is left, the clause is put back to work and is the conflict.
-/

namespace Cdcl

/-- A clause whose literals are all false. -/
inductive Conflict where
  | binary (a b : Lit)
  | clause (id : ClauseId)
  deriving DecidableEq, Repr

namespace Engine

/-- Visit the clauses of `falseLit` and one other literal. -/
def visitBinary (falseLit : Lit) : List Lit → Engine → Engine × Option Conflict
  | [], e => (e, none)
  | other :: rest, e =>
    match e.trail.valueLit other with
    | .yes => visitBinary falseLit rest e
    | .no => (e, some (.binary other falseLit))
    | .undecided => visitBinary falseLit rest (e.assign other (.binary falseLit))

/-- A learnt clause has propagated: lower its level count if its literals are on fewer levels
now. Counts up to three are as good as it gets. -/
def refreshLbd (e : Engine) (id : ClauseId) : Engine :=
  let c := e.clause id
  let old := c.lbd
  if old ≤ 3 then e
  else
    let (e, lbd) := e.countLevels c.lits.toList
    if lbd < old then
      -- The clause moves from one level count to the other in the table of counts.
      let e := { e.modifyClause id (·.setLbd lbd) with
        lbdCounts := e.lbdCounts.modify old (· - 1) }
      (e.recordLbd lbd).modifyStats fun s => { s with lbdUpdates := s.lbdUpdates + 1 }
    else e

/-- What a visit of a watched clause comes to. -/
inductive Visit where
  /-- The entry stays in the list, with this blocker. -/
  | keep (blocker : Lit)
  /-- The clause is now watched on the literal at this position. -/
  | move (position : Nat) (blocker : Lit)
  /-- All literals but the first are false. -/
  | unit (first : Lit)

/-- Look at a clause with `falseLit` as its second literal. -/
def inspect (t : Trail) (c : Clause) (blocker : Lit) : Visit :=
  let first := c.lit 0
  -- The blocker was looked at before, and is not true.
  if first != blocker && t.isTrue first then .keep first
  else
    match t.findNonFalse c.lits 2 (c.size - 2) with
    | some k => .move k first
    | none => .unit first

/-- Make `falseLit` the second literal of the clause, if it is the first. -/
def orient (falseLit : Lit) (c : Clause) : Clause :=
  if c.lit 0 == falseLit then c.swap 0 1 else c

/-- Visit the watched clauses of a list of entries. The entries that stay are added to `kept`. -/
def visitWatched (falseLit : Lit) :
    List Watcher → Array Watcher → Engine → Engine × Array Watcher × Option Conflict
  | [], kept, e => (e, kept, none)
  | entry :: rest, kept, e =>
    if e.trail.isTrue entry.blocker then visitWatched falseLit rest (kept.push entry) e
    else
      let id := entry.clause
      let e := e.modifyClause id (orient falseLit)
      match inspect e.trail (e.clause id) entry.blocker with
      | .keep first => visitWatched falseLit rest (kept.push ⟨id, first⟩) e
      | .move k first =>
        let e := e.modifyClause id (·.swap 1 k)
        let key := ((e.clause id).lit 1).neg
        visitWatched falseLit rest kept (e.modifyWatches (·.pushLong key ⟨id, first⟩))
      | .unit first =>
        let kept := kept.push ⟨id, first⟩
        -- On a conflict the entries not visited yet stay in the list as they are.
        if e.trail.isFalse first then (e, kept ++ rest.toArray, some (.clause id))
        else
          let e := e.assign first (.clause id)
          let e := if (e.clause id).isLearnt then e.refreshLbd id else e
          visitWatched falseLit rest kept e

/-- Visit the clauses that watch the opposite of `p`. -/
def propagateWatched (e : Engine) (p : Lit) : Engine × Option Conflict :=
  let arena := e.arena
  let e := e.modifyWatches (·.cleanIfDirty arena p)
  -- A new watch is never false, so no entry is added to this list during the visit.
  let entries := (e.watches.long.get p).toList
  let (e, kept, conflict) := visitWatched p.neg entries #[] e
  (e.modifyWatches (·.setLong p kept), conflict)

/-- Put a frozen clause that has become false back to work, watched on two literals of highest
level. -/
def thawFalsified (e : Engine) (id : ClauseId) : Engine :=
  let t := e.trail
  let e := e.modifyClause id fun c =>
    (c.setLits (t.bringHighest 1 (t.bringHighest 0 c.lits))).setFrozen false
  let e := (e.attach id).modifyTally fun t => { t with frozen := t.frozen - 1 }
  e.modifyStats fun s => { s with thawed := s.thawed + 1 }

/-- Visit the frozen clauses of a list of entries; the answer holds the entries not visited. -/
def visitFrozen (falseLit : Lit) :
    List Watcher → Engine → Engine × List Watcher × Option Conflict
  | [], e => (e, [], none)
  | entry :: rest, e =>
    let id := entry.clause
    if Watches.isFrozenStale e.arena entry then visitFrozen falseLit rest e
    else if entry.blocker != falseLit && !e.trail.isFalse entry.blocker then
      visitFrozen falseLit rest
        (e.modifyWatches (·.pushFrozen entry.blocker.neg ⟨id, falseLit⟩))
    else
      match (e.clause id).lits.find? fun l => !e.trail.isFalse l with
      | some l =>
        visitFrozen falseLit rest (e.modifyWatches (·.pushFrozen l.neg ⟨id, falseLit⟩))
      | none => (e.thawFalsified id, rest, some (.clause id))

/-- Visit the frozen clauses that watch the opposite of `p`. -/
def propagateFrozen (e : Engine) (p : Lit) : Engine × Option Conflict :=
  let entries := e.watches.frozen.get p
  if entries.isEmpty then (e, none)
  else
    let (e, left, conflict) := visitFrozen p.neg entries.toList e
    (e.modifyWatches (·.setFrozen p left.toArray), conflict)

/-- Visit all clauses in which the opposite of `p` is watched or occurs beside one other
literal. -/
def propagateLit (e : Engine) (p : Lit) : Engine × Option Conflict :=
  match visitBinary p.neg (e.watches.binary.get p).toList e with
  | (e, some conflict) => (e, some conflict)
  | (e, none) =>
    match e.propagateWatched p with
    | (e, some conflict) => (e, some conflict)
    | (e, none) => e.propagateFrozen p

/-- Propagate at most `n` literals of the trail. -/
def propagateFrom : Nat → Engine → Engine × Option Conflict
  | 0, e => (e, none)
  | n + 1, e =>
    match e.trail.lits[e.trail.head]? with
    | none => (e, none)
    | some p =>
      let e := (e.modifyTrail Trail.advance).modifyStats fun s =>
        { s with propagations := s.propagations + 1 }
      match e.propagateLit p with
      | (e, none) => propagateFrom n e
      | (e, some conflict) => (e.modifyTrail Trail.skipQueue, some conflict)

/-- Propagate until nothing is left to propagate, or a conflict arises. A variable is on the trail
at most once, so that the number of variables bounds the number of literals to propagate. -/
def propagate (e : Engine) : Engine × Option Conflict := propagateFrom e.numVars e

end Engine

end Cdcl
