import Cdcl.Numeric.Single
import Cdcl.Search.Branching
import Cdcl.Search.LevelCount
import Cdcl.Search.Policy
import Cdcl.Search.Watches
import Cdcl.Statistics

/-!
# The search engine

All that propagation, conflict analysis and the upkeep of clauses work on, with the operations
that touch more than one part of it: assigning and backtracking, attaching and removing clauses,
and the activity of learnt clauses.
-/

namespace Cdcl

/-- What conflict analysis knows about a variable. -/
inductive Seen where
  | unseen
  /-- The variable is in the clause under construction, or is implied by it. -/
  | source
  /-- The variable was resolved away. -/
  | resolved
  deriving DecidableEq, Repr, Inhabited

/-- Numbers of clauses and literals that take part in the search. -/
structure Tally where
  /-- Original clauses in the arena. -/
  originals : Nat := 0
  /-- Learnt clauses in the arena, frozen ones included. -/
  learnts : Nat := 0
  frozen : Nat := 0
  /-- Original clauses of two literals. -/
  originalBinary : Nat := 0
  /-- Learnt clauses of two literals. -/
  learntBinary : Nat := 0
  originalLits : Nat := 0
  learntLits : Nat := 0
  deriving DecidableEq, Repr

structure Engine where
  opts : Options
  trail : Trail := {}
  branching : Branching := {}
  watches : Watches := {}
  arena : ClauseArena
  /-- Original clauses in the arena. -/
  originals : Array ClauseId := #[]
  /-- Learnt clauses in the arena. -/
  learnts : Array ClauseId := #[]
  /-- How many of the last learnt clauses came after the latest reduction. -/
  recentLearnts : Nat := 0
  policy : Policy
  stats : Statistics := {}
  tally : Tally := {}
  /-- Number of learnt clauses in the arena by level count. -/
  lbdCounts : DenseMap Nat Nat := { fallback := 0 }
  /-- What the next conflict adds to the activity of a learnt clause. -/
  clauseIncrement : Float := 1
  numVars : Nat := 0
  /-- False once the clauses are known to be contradictory. -/
  ok : Bool := true
  /-- All unseen between conflict analyses. -/
  seen : DenseMap Var Seen := { fallback := .unseen }
  levelCounter : LevelCounter := {}
  /-- The number of facts at the latest simplification. -/
  simplifiedAt : Option Nat := none

namespace Engine

def initial (opts : Options) : Engine :=
  { opts, arena := .empty opts.maxArenaWords, policy := .initial opts }

def vars (e : Engine) : List Var := (List.range e.numVars).map Var.mk

def clause (e : Engine) (id : ClauseId) : Clause := e.arena.get id

/-! ### Bookkeeping of single fields -/

def modifyStats (e : Engine) (f : Statistics → Statistics) : Engine :=
  { e with stats := f e.stats }

def modifyTally (e : Engine) (f : Tally → Tally) : Engine := { e with tally := f e.tally }

def modifyClause (e : Engine) (id : ClauseId) (f : Clause → Clause) : Engine :=
  { e with arena := e.arena.modify id f }

def modifyWatches (e : Engine) (f : Watches → Watches) : Engine :=
  { e with watches := f e.watches }

def modifyTrail (e : Engine) (f : Trail → Trail) : Engine := { e with trail := f e.trail }

def setSeen (e : Engine) (v : Var) (s : Seen) : Engine := { e with seen := e.seen.insert v s }

/-- The clauses are contradictory. -/
def refute (e : Engine) : Engine := { e with ok := false }

/-! ### Variables -/

/-- Allow or forbid decisions on a variable. -/
def setDecision (e : Engine) (v : Var) (allowed : Bool) : Engine :=
  { e with branching := e.branching.setDecision v allowed }

/-- Create the next variable, with the polarity to try first. -/
def newVar (e : Engine) (polarity : Truth) (decision : Bool) : Var × Engine :=
  let v : Var := ⟨e.numVars⟩
  let polarity := polarity.toBool?.getD e.opts.defaultPolarity
  let e :=
    { e with
      numVars := e.numVars + 1
      watches := (e.watches.addLit ⟨v, false⟩).addLit ⟨v, true⟩
      trail := e.trail.addVar v
      branching := e.branching.addVar v polarity
      seen := e.seen.insert v .unseen }
  (v, e.setDecision v decision)

/-! ### Assigning and backtracking -/

/-- Make an unassigned literal true. -/
def assign (e : Engine) (l : Lit) (why : Reason) : Engine :=
  { e with
    trail := e.trail.assign l why
    branching := e.branching.noteAssigned e.opts.phaseSaving l }

def openLevel (e : Engine) : Engine := e.modifyTrail Trail.openLevel

/-- Open a level for a decision, and decide the literal. -/
def decide (e : Engine) (l : Lit) : Engine := e.openLevel.assign l .decision

/-- Go back to a level, if it is below the current one. -/
def cancelTo (e : Engine) (level : Nat) : Engine :=
  if e.trail.level ≤ level then e
  else
    -- The positions from here on are of the last level.
    let latestStart := e.trail.marks.back?.getD 0
    let undone := e.trail.above level
    { e with
      trail := e.trail.cancelTo level
      branching := undone.foldl
        (fun b (l, position) => b.noteUnassigned e.opts.phaseSaving l (latestStart ≤ position))
        e.branching }

/-- Choose the literal to decide next. -/
def pickLit (e : Engine) : Option Lit × Engine :=
  let (choice, branching) := e.branching.pick e.trail.isUnassigned
  (choice.map fun v => ⟨v, branching.polarity.get v⟩, { e with branching })

/-! ### Clauses -/

/-- Watch a clause of the arena on its first two literals. -/
def attach (e : Engine) (id : ClauseId) : Engine :=
  let c := e.clause id
  let first := c.lit 0
  let second := c.lit 1
  e.modifyWatches (·.watch id first second)

/-- Stop watching a clause; its entries go when their lists are cleaned. -/
def detachLater (e : Engine) (id : ClauseId) : Engine :=
  let c := e.clause id
  let first := c.lit 0
  let second := c.lit 1
  e.modifyWatches (·.unwatchLater first second)

/-- Stop watching a clause, and drop its entries. -/
def detachNow (e : Engine) (id : ClauseId) : Engine :=
  let c := e.clause id
  let first := c.lit 0
  let second := c.lit 1
  e.modifyWatches (·.unwatchNow id first second)

/-- Is the clause the reason of its first literal? -/
def isLocked (e : Engine) (id : ClauseId) : Bool :=
  let first := (e.clause id).lit 0
  e.trail.isTrue first && e.trail.reason first.var == .clause id

/-- Does the trail make a literal of the clause true? -/
def isSatisfied (e : Engine) (id : ClauseId) : Bool := e.trail.satisfies (e.clause id).lits

/-- Add a clause of two literals. -/
def addBinary (e : Engine) (a b : Lit) (learnt : Bool) : Engine :=
  let e := e.modifyWatches (·.addBinary a b)
  if learnt then e.modifyTally fun t => { t with learntBinary := t.learntBinary + 1 }
  else e.modifyTally fun t => { t with originalBinary := t.originalBinary + 1 }

/-- Take the clause out of the counts of clauses and literals. -/
def uncount (e : Engine) (c : Clause) : Engine :=
  match c.learnt? with
  | some info =>
    let e := { e with lbdCounts := e.lbdCounts.modify info.lbd (· - 1) }
    e.modifyTally fun t =>
      { t with
        learnts := t.learnts - 1
        learntLits := t.learntLits - c.size
        frozen := if info.frozen then t.frozen - 1 else t.frozen }
  | none =>
    e.modifyTally fun t =>
      { t with originals := t.originals - 1, originalLits := t.originalLits - c.size }

/-- Remove a clause from the arena and from the watches. -/
def removeClause (e : Engine) (id : ClauseId) : Engine :=
  let c := e.clause id
  -- A frozen clause is not among the watched ones; its single entry is told apart as stale.
  let e := if c.isFrozen then e else e.detachLater id
  let e := if e.isLocked id then e.modifyTrail (·.forgetReason (c.lit 0).var) else e
  let e := e.uncount c
  { e with arena := (e.arena.modify id Clause.remove).free id }

/-- Store an original clause of at least three literals. -/
def storeOriginal (e : Engine) (lits : Array Lit) : Except SolverError Engine :=
  match e.arena.alloc lits false with
  | .error err => .error err
  | .ok (id, arena) =>
    let e := { e with arena, originals := e.originals.push id }
    .ok ((e.attach id).modifyTally fun t =>
      { t with originals := t.originals + 1, originalLits := t.originalLits + lits.size })

/-! ### Activity and level counts of learnt clauses -/

/-- Activities of clauses above this are scaled down. -/
def clauseCeiling : Float32 := 1e20

/-- Make a learnt clause more active. When its activity gets too large, those of all learnt
clauses and the increment are scaled down. -/
def bumpClause (e : Engine) (id : ClauseId) : Engine :=
  let increment := narrow e.clauseIncrement
  let e := e.modifyClause id fun c => c.setActivity (c.activity + increment)
  if clauseCeiling < (e.clause id).activity then
    { e with
      arena := e.learnts.foldl
        (fun arena id => arena.modify id fun c => c.setActivity (c.activity * 1e-20)) e.arena
      clauseIncrement := e.clauseIncrement * 1e-20 }
  else e

/-- Make the clause more active if it is learnt. -/
def bumpIfLearnt (e : Engine) (id : ClauseId) : Engine :=
  if (e.clause id).isLearnt then e.bumpClause id else e

/-- Let later conflicts weigh more. -/
def decayActivities (e : Engine) : Engine :=
  { e with
    branching := e.branching.decay e.opts.varDecay
    clauseIncrement := e.clauseIncrement * (1 / e.opts.clauseDecay) }

/-- Count one more learnt clause of a level count. -/
def recordLbd (e : Engine) (lbd : Nat) : Engine :=
  { e with lbdCounts := e.lbdCounts.modify (min lbd Clause.maxLbd) (· + 1) }

/-- The number of distinct decision levels among literals. -/
def countLevels (e : Engine) (lits : List Lit) : Engine × Nat :=
  let (levelCounter, n) := e.levelCounter.count (lits.map fun l => e.trail.levelOf l.var)
  ({ e with levelCounter }, n)

/-- Store and attach a learnt clause of at least three literals. -/
def storeLearnt (e : Engine) (lits : Array Lit) (lbd : Nat) :
    Except SolverError (ClauseId × Engine) :=
  match e.arena.alloc lits true with
  | .error err => .error err
  | .ok (id, arena) =>
    let e :=
      { e with
        arena := arena.modify id (·.setLbd lbd)
        learnts := e.learnts.push id
        recentLearnts := e.recentLearnts + 1 }
    let e := (e.attach id).modifyTally fun t =>
      { t with learnts := t.learnts + 1, learntLits := t.learntLits + lits.size }
    .ok (id, (e.recordLbd lbd).bumpClause id)

/-! ### Progress -/

/-- `x` to the power `n`, by repeated squaring: `acc` times the power that is left. -/
def powerFrom (acc x : Float) : Nat → Nat → Float
  | 0, _ => acc
  | fuel + 1, n =>
    let acc := if n % 2 = 1 then acc * x else acc
    if n / 2 = 0 then acc else powerFrom acc (x * x) fuel (n / 2)

/-- `x` to the power `n`, by repeated squaring. -/
def power (x : Float) (n : Nat) : Float := powerFrom 1 x (n + 1) n

/-- How much of the search space is behind, roughly: each assigned variable counts for one part in
`n` to the power of its level. -/
def progressEstimate (e : Engine) : Float :=
  let n := Float.ofNat (max e.numVars 1)
  let top := e.trail.level
  let size (i : Nat) : Nat :=
    let start := if i = 0 then 0 else e.trail.marks.getD (i - 1) 0
    let stop := if i = top then e.trail.size else e.trail.marks.getD i 0
    stop - start
  let progress := (List.range (top + 1)).foldl
    (fun total i => total + power (1 / n) i * Float.ofNat (size i)) 0
  progress / n

end Engine

end Cdcl
