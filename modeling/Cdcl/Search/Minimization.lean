import Cdcl.Search.Engine

/-!
# Minimization of learnt clauses

A literal can be left out of a learnt clause if the others imply its falsity: locally, if every
other literal of its reason is in the clause or false at level zero; recursively, if each of those
can be explained so in turn.

The recursive test explores reasons with a stack. It gives up on a literal whose level no literal
of the clause shares, judged by the level modulo 32, since such a literal cannot be explained.
Variables found to be implied by the clause stay marked for the literals after.
-/

namespace Cdcl

/-- What the explanation of literals looks at. -/
structure Explainer where
  trail : Trail
  arena : ClauseArena

namespace Explainer

/-- The false literals that imply the variable's value; `none` for a decision. -/
def causes (x : Explainer) (v : Var) : Option (List Lit) :=
  match x.trail.reason v with
  | .decision => none
  | .binary other => some [other]
  | .clause id => some (x.arena.get id).tail

end Explainer

/-- A set of levels modulo 32, as bits. -/
abbrev LevelMask := Nat

namespace LevelMask

def add (m : LevelMask) (level : Nat) : LevelMask := m ||| 1 <<< (level % 32)

def mayHold (m : LevelMask) (level : Nat) : Bool := m.testBit (level % 32)

end LevelMask

/-- An exploration of reasons: the literals still to be explained, and those marked by it. -/
structure Frontier where
  seen : DenseMap Var Seen
  stack : List Lit
  marked : List Lit := []

namespace Frontier

/-- Take in the literals of a reason: skip what needs no explanation, mark and stack the rest. The
answer is false if one of them cannot be explained. -/
def absorb (x : Explainer) (mask : LevelMask) : List Lit → Frontier → Bool × Frontier
  | [], f => (true, f)
  | l :: rest, f =>
    if x.trail.levelOf l.var == 0 || f.seen.get l.var == .source then absorb x mask rest f
    else if x.trail.reason l.var != .decision && mask.mayHold (x.trail.levelOf l.var) then
      absorb x mask rest
        { seen := f.seen.insert l.var .source, stack := l :: f.stack, marked := l :: f.marked }
    else (false, f)

/-- Explain the stacked literals, at most `n` of them. -/
def explain (x : Explainer) (mask : LevelMask) : Nat → Frontier → Except Fault (Bool × Frontier)
  | 0, _ => .error .stepsExhausted
  | n + 1, f =>
    match f.stack with
    | [] => .ok (true, f)
    | l :: stack =>
      match x.causes l.var with
      -- A decision is never stacked: a reason is asked for beforehand.
      | none => .error .decisionExplained
      | some lits =>
        match absorb x mask lits { f with stack } with
        | (true, f) => explain x mask n f
        | (false, f) => .ok (false, f)

/-- Take the marks of this exploration back. -/
def unmark (f : Frontier) : DenseMap Var Seen :=
  f.marked.foldl (fun seen l => seen.insert l.var .unseen) f.seen

end Frontier

/-- The course of a minimization: the literals kept, and those marked beyond the clause. -/
structure Minimizer where
  seen : DenseMap Var Seen
  kept : Array Lit := #[]
  marked : List Lit := []

namespace Minimizer

/-- Is some literal neither in the clause nor false at level zero? -/
def isNeeded (x : Explainer) (seen : DenseMap Var Seen) (lits : List Lit) : Bool :=
  lits.any fun l => seen.get l.var == .unseen && x.trail.levelOf l.var != 0

/-- Keep the literal unless its reason alone makes it redundant. -/
def stepLocal (x : Explainer) (m : Minimizer) (l : Lit) : Minimizer :=
  match x.causes l.var with
  | none => { m with kept := m.kept.push l }
  | some lits => if isNeeded x m.seen lits then { m with kept := m.kept.push l } else m

/-- Keep the literal unless the clause makes it redundant. A variable is stacked at most once, so
that the number of variables bounds the exploration. -/
def stepRecursive (x : Explainer) (numVars : Nat) (mask : LevelMask) (m : Minimizer) (l : Lit) :
    Except Fault Minimizer :=
  if x.trail.reason l.var == .decision then .ok { m with kept := m.kept.push l }
  else
    match Frontier.explain x mask (numVars + 2) { seen := m.seen, stack := [l] } with
    | .error fault => .error fault
    | .ok (true, f) => .ok { m with seen := f.seen, marked := f.marked ++ m.marked }
    -- A failed exploration may have marked literals that the clause does not imply.
    | .ok (false, f) => .ok { seen := f.unmark, kept := m.kept.push l, marked := m.marked }

/-- Minimize the literals after the first. All of them are marked as in the clause. A mode above 2 is
none of those known, and minimizes nothing. -/
def run (x : Explainer) (mode numVars : Nat) (seen : DenseMap Var Seen) (lits : List Lit) :
    Except Fault Minimizer :=
  match mode with
  | 1 => .ok (lits.foldl (stepLocal x) { seen })
  | 2 =>
    let mask : LevelMask := lits.foldl (fun mask l => mask.add (x.trail.levelOf l.var)) 0
    lits.foldlM (stepRecursive x numVars mask) { seen }
  | _ => .ok { seen, kept := lits.toArray }

end Minimizer

end Cdcl
