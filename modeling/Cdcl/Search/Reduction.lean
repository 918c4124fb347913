import Cdcl.Search.Engine

/-!
# Reduction of learnt clauses

From time to time the learnt clauses are ranked, fewer levels first and then higher activity, and
each older one is kept, frozen or removed. Clauses in the worse half that span more levels than
most are removed, and so are satisfied ones. A clause with many literals that agree with the
remembered polarities is far from being false: it is frozen, and removed once that has happened
too often. Clauses learnt since the last reduction stay as they are.
-/

namespace Cdcl

/-- The place of a number in the total order of single-precision numbers by their bits: negative
ones in reverse, then positive ones. -/
def float32Rank (x : Float32) : Nat :=
  let bits := x.toBits.toNat
  if bits < 1 <<< 31 then bits + 1 <<< 31 else 1 <<< 32 - 1 - bits

/-- What a reduction does to a learnt clause. -/
inductive Verdict where
  | keep
  | freeze
  | remove
  deriving DecidableEq, Repr

namespace Engine

/-- Is a reduction due? -/
def isReductionDue (e : Engine) : Bool := e.opts.reduce && e.policy.conflictsBeforeReduction == 0

/-- The median search over level counts: `sum` clauses are below `median`. -/
def medianFrom (counts : Array Nat) (half : Nat) : Nat → Nat → Nat → Nat
  | 0, median, _ => median
  | n + 1, median, sum =>
    if median + 1 < counts.size && sum + counts.getD (median + 1) 0 < half then
      medianFrom counts half n (median + 1) (sum + counts.getD median 0)
    else median

/-- About the smallest level count that half of the learnt clauses reach, plus two. -/
def lbdMedian (e : Engine) : Nat :=
  let counts := e.lbdCounts.values
  medianFrom counts (e.tally.learnts / 2) counts.size 0 0 + 2

/-- Start a new epoch; the answer is how much the phases moved in the last one. -/
def phaseDeviation (e : Engine) : Float × Engine :=
  let moved := e.branching.movedPhases
  let assigned := e.branching.assignedInEpoch
  let (deviation, policy) := e.policy.deviation moved assigned
  (deviation, { e with branching := e.branching.newEpoch, policy })

/-- Does the clause come before the other in the ranking, or level with it? -/
def ranksBefore (arena : ClauseArena) (a b : ClauseId) : Bool :=
  let x := arena.get a
  let y := arena.get b
  x.lbd < y.lbd || (x.lbd == y.lbd && float32Rank y.activity ≤ float32Rank x.activity)

/-- The clauses from best to worst. -/
def rank (arena : ClauseArena) (ids : List ClauseId) : List ClauseId :=
  sortBy (ranksBefore arena) ids

/-- How many literals of the clause agree with the remembered polarities? -/
def agreeing (e : Engine) (c : Clause) : Nat :=
  c.lits.toList.countP fun l => e.branching.polarity.get l.var == l.positive

/-- Decide about a learnt clause. -/
def verdict (e : Engine) (id : ClauseId) (worseHalf : Bool) (median : Nat) (deviation : Float) :
    Verdict :=
  let c := e.clause id
  -- The reason of an assignment must not go.
  if e.isLocked id then .keep
  else if worseHalf && median < c.lbd then .remove
  else if e.trail.satisfies c.lits then .remove
  else if c.lbd < 3 then .keep
  else if e.agreeing c ≤ (Float.ofNat c.size * deviation).toUInt32.toNat then .keep
  else if e.opts.maxFreeze < c.freezeCount + 1 then .remove
  else .freeze

/-- Take a clause out of propagation. -/
def freezeClause (e : Engine) (id : ClauseId) : Engine :=
  let e := (e.detachLater id).modifyClause id (·.setFrozen true)
  let e := e.modifyTally fun t => { t with frozen := t.frozen + 1 }
  e.modifyStats fun s => { s with frozen := s.frozen + 1 }

/-- Bring up to two literals that are not false to the front, in order; the answer has their
number. -/
def bringNonFalse (t : Trail) (lits : Array Lit) : Array Lit × Nat :=
  match t.findNonFalse lits 0 lits.size with
  | none => (lits, 0)
  | some i =>
    let lits := lits.swapIfInBounds 0 i
    match t.findNonFalse lits (i + 1) (lits.size - (i + 1)) with
    | none => (lits, 1)
    | some j => (lits.swapIfInBounds 1 j, 2)

/-- Put a frozen clause back to work at level zero. If a single literal is not false, it is
propagated. -/
def thawClause (e : Engine) (id : ClauseId) : Engine :=
  let (lits, n) := bringNonFalse e.trail (e.clause id).lits
  let first := lits.getD 0 .missing
  let e := e.modifyClause id fun c => (c.setLits lits).setFrozen false
  let e := (e.attach id).modifyTally fun t => { t with frozen := t.frozen - 1 }
  let e := e.modifyStats fun s => { s with thawed := s.thawed + 1 }
  if n == 1 && e.trail.isUnassigned first.var then e.assign first (.clause id) else e

/-- Watch a frozen clause on its first literal that is not false. -/
def watchFrozen (e : Engine) (id : ClauseId) : Engine :=
  let c := e.clause id
  if c.isFrozen then
    let k := (e.trail.findNonFalse c.lits 0 c.size).getD 0
    let blocker := if k = 0 then c.lit 1 else c.lit 0
    let key := (c.lit k).neg
    e.modifyWatches (·.pushFrozen key ⟨id, blocker⟩)
  else e

/-- Watch the frozen clauses anew. -/
def rewatchFrozen (e : Engine) : Engine :=
  e.learnts.foldl watchFrozen (e.modifyWatches Watches.clearFrozen)

/-- The course of a reduction: the clauses that stay, and those to put back to work. -/
structure ReductionState where
  engine : Engine
  kept : Array ClauseId := #[]
  thawing : Array ClauseId := #[]

/-- Carry out the verdict on a clause. -/
def reduceClause (half median : Nat) (deviation : Float) (r : ReductionState)
    (entry : ClauseId × Nat) : ReductionState :=
  let (id, i) := entry
  let e := r.engine
  let frozen := (e.clause id).isFrozen
  match e.verdict id (half ≤ i) median deviation with
  | .remove =>
    let e := (e.removeClause id).modifyStats fun s =>
      { s with removedLearnts := s.removedLearnts + 1 }
    { r with engine := e }
  | .freeze =>
    let e := e.modifyClause id fun c => c.setFreezeCount (c.freezeCount + 1)
    -- A clause that is frozen already stays so, and only its count grows.
    { r with engine := if frozen then e else e.freezeClause id, kept := r.kept.push id }
  | .keep =>
    { r with
      kept := r.kept.push id
      thawing := if frozen then r.thawing.push id else r.thawing }

/-- Remove, freeze or thaw the learnt clauses that are not recent, at level zero. -/
def reduce (e : Engine) : Engine :=
  let learnts := e.learnts.toList
  let firstRecent := learnts.length - e.recentLearnts
  let recent := learnts.drop firstRecent
  let e := { e with recentLearnts := 0 }
  let e := e.modifyStats fun s => { s with reductions := s.reductions + 1 }
  let median := e.lbdMedian
  let (deviation, e) := e.phaseDeviation
  let ranked := rank e.arena (learnts.take firstRecent)
  let r := ranked.zipIdx.foldl (reduceClause (ranked.length / 2) median deviation)
    { engine := e }
  let e := { r.engine with learnts := r.kept ++ recent.toArray }
  let arena := e.arena
  -- The entries of removed and frozen clauses go before thawed ones are watched again.
  let e := e.modifyWatches (·.cleanAll arena)
  let e := (r.thawing.foldl thawClause e).rewatchFrozen
  { e with policy := e.policy.noteReduction e.opts }

end Engine

end Cdcl
