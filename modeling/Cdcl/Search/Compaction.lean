import Cdcl.Search.Engine

/-!
# Compaction of the clause arena

When too much of the arena is wasted, the clauses in use are moved into a fresh one. Every holder
of a handle is visited: the watch lists, the reasons, and the lists of clauses. A clause is moved
when the first holder is visited, and leaves its new handle in the old arena for those that follow.
Entries of clauses that are gone are dropped from the watch lists beforehand, and a fact whose
reason is gone needs none.
-/

namespace Cdcl

namespace ClauseArena

/-- A compaction under way: the arena that clauses are moved out of, and the one they move into. -/
structure Move where
  source : ClauseArena
  target : ClauseArena

namespace Move

/-- Nothing is moved yet. The fresh arena has the same limit as the old one. -/
def start (a : ClauseArena) : Move := { source := a, target := .empty a.space.limit }

/-- The new handle of a clause, which is moved unless it was before. -/
def follow (m : Move) (id : ClauseId) : Except SolverError (ClauseId × Move) :=
  let c := m.source.get id
  if c.relocated then .ok (c.relocation, m)
  else
    match m.target.copy c with
    | .error e => .error e
    | .ok (new, target) => .ok (new, { source := m.source.modify id (·.relocate new), target })

end Move

end ClauseArena

namespace Engine

/-- A step of a compaction. -/
abbrev Moving := StateT ClauseArena.Move (Except SolverError)

/-- Follow a clause to the fresh arena. -/
def follow (id : ClauseId) : Moving ClauseId := fun m => m.follow id

def followEntry (entry : Watcher) : Moving Watcher := do
  return { entry with clause := ← follow entry.clause }

/-- Give a fact its reason's new handle; if the reason was removed, the fact needs none. -/
def followReason (t : Trail) (l : Lit) : Moving Trail := do
  match t.reason l.var with
  | .clause id =>
    -- What is asked of the clause here stays in the old arena when the clause moves.
    if ((← get).source.get id).isRemoved then return t.forgetReason l.var
    else return { t with reasons := t.reasons.insert l.var (.clause (← follow id)) }
  | _ => return t

/-- Visit every holder of a handle, with all clauses still in the old arena. -/
def followAll (e : Engine) : Moving Engine := do
  let watches := e.watches.cleanAll (← get).source
  let long ← watches.long.mapValuesM (·.mapM followEntry)
  let watches := watches.cleanFrozen (← get).source
  let frozen ← watches.frozen.mapValuesM (·.mapM followEntry)
  let trail ← e.trail.lits.foldlM followReason e.trail
  let learnts ← e.learnts.mapM follow
  let originals ← e.originals.mapM follow
  return { e with watches := { watches with long, frozen }, trail, learnts, originals }

/-- Move the clauses in use into a fresh arena. -/
def compact (e : Engine) : Except SolverError Engine := do
  let (moved, m) ← e.followAll (.start e.arena)
  return { moved with
    arena := m.target
    stats := { moved.stats with compactions := moved.stats.compactions + 1 } }

/-- Is more of the arena wasted than the options allow? -/
def isWasteful (e : Engine) : Bool :=
  Float.ofNat e.arena.space.used * e.opts.garbageFraction < Float.ofNat e.arena.space.wasted

/-- The bytes that the arena takes. -/
def arenaBytes (e : Engine) : Nat := e.arena.space.used * ClauseArena.wordSize

end Engine

end Cdcl
