import Cdcl.Search.Minimization
import Cdcl.Search.Propagation

/-!
# Conflict analysis

From a conflict above level zero to a clause that is learnt from it. The conflicting clause is
resolved with the reasons of its literals of the current level, from the end of the trail
backwards, until a single literal of that level is left. Every variable met on the way becomes
more active. The result is minimized, and the literal of the highest other level is put second:
that is the level to go back to.

If the conflict is with an assumption, the analysis tells which assumptions it rests on.
-/

namespace Cdcl

/-- A clause to be learnt. Its first literal is implied by the others once the search is back at
`level`. -/
structure Learnt where
  lits : Array Lit
  level : Nat
  lbd : Nat

/-- The state of resolution: `pending` literals of the conflict's level are still to be resolved,
`lits` are those of lower levels. -/
structure Resolution where
  engine : Engine
  pending : Nat := 0
  lits : Array Lit := #[]

namespace Resolution

/-- Take a literal into the clause, unless its variable was met before or is settled at level
zero. -/
def addLit (level : Nat) (r : Resolution) (l : Lit) : Resolution :=
  let e := r.engine
  let litLevel := e.trail.levelOf l.var
  if e.seen.get l.var == .unseen && litLevel != 0 then
    let e := { e with branching := e.branching.bump l.var, seen := e.seen.insert l.var .source }
    if litLevel == level then { r with engine := e, pending := r.pending + 1 }
    else { r with engine := e, lits := r.lits.push l }
  else { r with engine := e }

/-- Take all literals of a list into the clause. -/
def addLits (level : Nat) (lits : List Lit) (r : Resolution) : Resolution :=
  lits.foldl (addLit level) r

/-- Start with the literals of the conflict. -/
def start (level : Nat) (e : Engine) : Conflict → Resolution
  | .binary a b => addLits level [a, b] { engine := e }
  | .clause id =>
    let e := e.bumpIfLearnt id
    let lits := (e.clause id).lits.toList
    addLits level lits { engine := e }

/-- Resolve with the reason of a variable. -/
def resolve (level : Nat) (r : Resolution) (v : Var) : Except Fault Resolution :=
  match r.engine.trail.reason v with
  | .decision => .error .decisionResolved
  | .binary other => .ok (addLits level [other] r)
  | .clause id =>
    let e := r.engine.bumpIfLearnt id
    let lits := (e.clause id).tail
    .ok (addLits level lits { r with engine := e })

/-- Resolve the literals of the conflict's level among the first `n` of the trail, the last one
first, until one is left. The answer has that one, as it is on the trail, and its position. -/
def backward (level : Nat) : Nat → Resolution → Except Fault (Resolution × Lit × Nat)
  | 0, _ => .error .trailExhausted
  | n + 1, r =>
    match r.engine.trail.lits[n]? with
    | none => .error .trailExhausted
    | some p =>
      if r.engine.seen.get p.var == .unseen then backward level n r
      else
        let r := { r with engine := r.engine.setSeen p.var .resolved }
        -- The last literal of the level is the one that the learnt clause asserts.
        if r.pending ≤ 1 then .ok (r, p, n)
        else
          match resolve level { r with pending := r.pending - 1 } p.var with
          | .error fault => .error fault
          | .ok r => backward level n r

/-- Unmark the variables that were resolved away, which are on the trail from a position on. -/
def unmarkResolved (position : Nat) (e : Engine) : Engine :=
  (e.trail.lits.toList.drop position).foldl
    (fun e l => if e.seen.get l.var == .resolved then e.setSeen l.var .unseen else e) e

end Resolution

namespace Engine

def explainer (e : Engine) : Explainer := { trail := e.trail, arena := e.arena }

/-- Learn a clause from a conflict. -/
def analyze (e : Engine) (conflict : Conflict) : Except Fault (Engine × Learnt) :=
  let level := e.trail.level
  match Resolution.backward level e.trail.size (Resolution.start level e conflict) with
  | .error fault => .error fault
  | .ok (r, p, position) =>
    let e := Resolution.unmarkResolved position r.engine
    let others := r.lits.toList
    -- The asserted literal stays; only the others can be redundant.
    match Minimizer.run e.explainer e.opts.minimization e.numVars e.seen others with
    | .error fault => .error fault
    | .ok m =>
      let lits := e.trail.bringHighest 1 (#[p.neg] ++ m.kept)
      -- Every mark goes: those of the clause before minimization, and those of explanations.
      let seen := (others ++ m.marked).foldl (fun seen l => seen.insert l.var .unseen) m.seen
      let e := { e with seen := seen.insert p.var .unseen }
      let e := e.modifyStats fun s =>
        { s with
          literalsBefore := s.literalsBefore + others.length + 1
          literalsAfter := s.literalsAfter + lits.size }
      let (e, lbd) := e.countLevels lits.toList
      let back := if lits.size ≤ 1 then 0 else e.trail.levelOf (lits.getD 1 .missing).var
      .ok (e, { lits, level := back, lbd })

/-- Mark the variable of a literal, unless it is settled at level zero. -/
def markAbove (t : Trail) (seen : DenseMap Var Seen) (l : Lit) : DenseMap Var Seen :=
  if t.levelOf l.var == 0 then seen else seen.insert l.var .source

/-- Explain a marked literal of the trail by those before it, or add its opposite to the core if
it is a decision. -/
def explainFinal (x : Explainer) (state : DenseMap Var Seen × DenseSet Lit) (l : Lit) :
    DenseMap Var Seen × DenseSet Lit :=
  let (seen, core) := state
  if seen.get l.var == .unseen then (seen, core)
  else
    match x.causes l.var with
    | none => (seen.insert l.var .unseen, core.insert l.neg)
    | some lits => ((lits.foldl (markAbove x.trail) seen).insert l.var .unseen, core)

/-- The opposites of the assumptions that imply `p`, and `p` itself, the opposite of one that
`p` contradicts. -/
def analyzeFinal (e : Engine) (p : Lit) : Engine × DenseSet Lit :=
  let core := DenseSet.empty.insert p
  if e.trail.level = 0 then (e, core)
  else
    let trail := (e.trail.above 0).map Prod.fst
    let (seen, core) := trail.foldl (explainFinal e.explainer) (e.seen.insert p.var .source, core)
    ({ e with seen := seen.insert p.var .unseen }, core)

end Engine

end Cdcl
