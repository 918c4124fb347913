import Cdcl.Numeric.Fixed
import Cdcl.Solver.Solve

/-!
# Queries

What a user can ask a solver between calls: values, cores, clauses, counts, and a printed summary.
-/

namespace Cdcl

namespace Solver

/-- The value of a literal settled at level zero; none for a literal that is not known. -/
def factValue (s : Solver) (l : Lit) : Truth :=
  match s.checkLit l with
  | .ok () => s.engine.trail.factValue l
  | .error _ => .undecided

/-- The level at which a variable is assigned, if it is. -/
def varLevel (s : Solver) (v : Var) : Option Nat :=
  match s.checkVar v with
  | .ok () => if s.engine.trail.isUnassigned v then none else some (s.engine.trail.levelOf v)
  | .error _ => none

/-- Is a literal of the variable in the core? -/
def coreHasVar (s : Solver) (v : Var) : Bool :=
  s.core.contains ⟨v, true⟩ || s.core.contains ⟨v, false⟩

/-- The learnt clauses of the arena, with their literals in current order. -/
def learntClauses (s : Solver) : List (List Lit) :=
  s.engine.learnts.toList.map fun id => (s.engine.clause id).lits.toList

/-- Does the model satisfy the clauses as they are stored now, and the facts? -/
def satisfiesStored (s : Solver) : Bool :=
  let e := s.engine
  let m := s.model
  e.originals.all (fun id => (e.clause id).lits.any m.makesTrue) &&
    e.watches.binary.entries.all (fun (p, others) => m.makesTrue p.neg || others.all m.makesTrue) &&
    e.trail.facts.all m.makesTrue

/-- Does the model of the latest solve satisfy the clauses? If they were not kept as given, the
stored ones stand for them. -/
def validate (s : Solver) : Bool :=
  if s.status != .sat then false
  else if s.engine.opts.keepOriginals then s.model.satisfies s.given.clauses
  else s.satisfiesStored

/-- Numbers of clauses, original ones and learnt ones, binary ones included. -/
def numClauses (s : Solver) : Nat := s.engine.tally.originals + s.engine.tally.originalBinary

def numLearnts (s : Solver) : Nat := s.engine.tally.learnts + s.engine.tally.learntBinary

def numBinary (s : Solver) : Nat := s.engine.tally.originalBinary + s.engine.tally.learntBinary

/-- The part of learnt literals that minimization left out, in percent. -/
def deletedPercent (st : Statistics) : Float :=
  Float.ofNat (st.literalsBefore - st.literalsAfter) * 100 /
    Float.ofNat (max st.literalsBefore 1)

/-- The numbers of variables, clauses and steps so far. -/
def counts (s : Solver) : List Nat :=
  let e := s.engine
  [e.numVars, s.numClauses, s.numLearnts, s.numBinary, e.tally.frozen, e.trail.size,
    e.trail.level, e.stats.conflicts, e.stats.propagations, e.stats.decisions,
    e.stats.restarts, e.stats.reductions]

/-- For how many entries the vectors of a solver have room. How much more room they have than they need is
up to the allocator. -/
structure Holdings where
  /-- Words of the arena. -/
  arena : Nat := 0
  /-- Entries of all lists of watched clauses, and lists that there is room for. -/
  watchers : Nat := 0
  watchLists : Nat := 0
  /-- Bits that tell which lists are dirty. -/
  dirtyBits : Nat := 0
  binary : Nat := 0
  binaryLists : Nat := 0
  frozen : Nat := 0
  frozenLists : Nat := 0
  trail : Nat := 0
  /-- Literals whose marks an analysis has to take back. -/
  marked : Nat := 0
  lbdCounts : Nat := 0
  originals : Nat := 0
  learnts : Nat := 0
  givenLits : Nat := 0
  givenEnds : Nat := 0
  model : Nat := 0

/-- Bytes that the tables take for each variable: activity, polarity, reason and level, three flags, the
mark of an analysis, and two numbers of four bytes. -/
def bytesPerVar : Nat := 8 + 1 + 12 + 3 * 1 + 4 + 1 + 4

/-- Roughly the bytes that the solver takes, given for how much its vectors have room. -/
def footprint (s : Solver) (held : Holdings) : Nat :=
  let watches := held.watchers * 8 + held.watchLists * 24 + held.dirtyBits / 8 + held.binary * 4 +
    held.frozen * 8 + held.binaryLists * 24 + held.frozenLists * 24
  let engine := held.arena * ClauseArena.wordSize + watches + s.engine.numVars * bytesPerVar +
    (held.trail + held.marked) * 4 + held.lbdCounts * 8
  engine + (held.originals + held.learnts) * 4 + (held.givenLits * 4 + held.givenEnds * 8) + held.model

/-- The beginning of a line of the summary. -/
def summaryTitle (title : String) : String := s!"c {padRight 22 title}: "

/-- A line of the summary: a title, a count and perhaps more. -/
def summaryLine (title : String) (count : Nat) (more : String) : String :=
  let line := summaryTitle title ++ padRight 12 (toString count)
  if more.isEmpty then line else s!"{line}   ({more})"

/-- The lines of the summary, but for the last one. -/
def summary (s : Solver) : List String :=
  let st := s.engine.stats
  let t := s.engine.tally
  let deleted := padLeft 4 (Fixed.twoPlaces (deletedPercent st))
  [ summaryTitle "restarts" ++ s!"{st.restarts} ({st.blockedRestarts} blocked)",
    summaryLine "conflicts" st.conflicts "",
    summaryLine "decisions" st.decisions "",
    summaryLine "propagations" st.propagations "",
    summaryLine "conflict literals" st.literalsAfter s!"{deleted} % deleted",
    summaryLine "reduces" st.reductions "",
    summaryLine "learnts" t.learnts s!"{t.frozen} frozen, {t.learntBinary} binary",
    summaryLine "removed learnts" st.removedLearnts s!"{st.frozen} freezes, {st.thawed} thaws",
    summaryLine "lbd updates" st.lbdUpdates "",
    summaryLine "compactions" st.compactions "",
    summaryLine "simplified clauses" (st.removedClauses + st.shrunkClauses)
      s!"{st.removedClauses} removed, {st.shrunkClauses} shrunk",
    summaryLine "pure literals" st.pureLiterals "",
    summaryLine "vivified clauses" st.vivifiedClauses s!"{st.vivifiedLits} literals" ]

/-- The summary with its last line, which tells the bytes that the solver takes. -/
def report (s : Solver) (held : Holdings) : List String :=
  s.summary ++ [summaryLine "memory footprint" (s.footprint held) "bytes"]

end Solver

end Cdcl
