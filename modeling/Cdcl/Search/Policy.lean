import Cdcl.Numeric.Mean
import Cdcl.Options

/-!
# Restart and reduction policy

The policy looks at each conflict: how many decision levels the learnt clause spans, and how long
the trail was. From these it tells when to restart, and when to reduce the learnt clauses. The gap
between reductions grows by the same amount each time.
-/

namespace Cdcl

structure Policy where
  /-- A restart is due at the next step without a conflict. -/
  restartPending : Bool := false
  /-- Level counts of the recent learnt clauses. -/
  lbdWindow : Window Float
  /-- Trail lengths at the recent conflicts. -/
  trailWindow : Window Float
  /-- Level counts of all learnt clauses. -/
  lbdMean : RunningMean := {}
  conflictsBeforeReduction : Nat
  /-- The current gap between reductions, in conflicts. -/
  reductionGap : Nat
  /-- The smallest phase deviation so far, or the bound that the options give. -/
  minDeviation : Float

/-- Is there room for the windows of recent values? -/
def Options.windowsFit (o : Options) : Bool :=
  o.lbdWindow ≤ Window.maxCapacity && o.trailWindow ≤ Window.maxCapacity

namespace Policy

def initial (o : Options) : Policy where
  lbdWindow := .empty o.lbdWindow
  trailWindow := .empty o.trailWindow
  conflictsBeforeReduction := o.reduceFirst
  reductionGap := o.reduceFirst
  minDeviation := o.minDeviation

/-- A long trail means that a model may be near: forget the recent level counts. -/
def blocks (p : Policy) (o : Options) (conflicts trailSize : Nat) : Bool :=
  decide (o.blockingAfter < conflicts) && p.lbdWindow.isFull &&
    p.trailWindow.mean * o.trailFactor < Float.ofNat trailSize

/-- Do the recent learnt clauses span clearly more levels than all of them on average? -/
def isStuck (p : Policy) (o : Options) : Bool :=
  p.lbdWindow.isFull && p.lbdMean.mean < p.lbdWindow.mean * o.lbdFactor

/-- Take a conflict into account; the answer says whether a restart was put off. -/
def noteConflict (p : Policy) (o : Options) (conflicts lbd trailSize : Nat) : Policy × Bool :=
  let p :=
    { p with
      lbdMean := p.lbdMean.add (Float.ofNat lbd)
      conflictsBeforeReduction := p.conflictsBeforeReduction - 1 }
  match o.restarts with
  | .adaptive =>
    let p := { p with trailWindow := p.trailWindow.add (Float.ofNat trailSize) }
    let blocked := p.blocks o conflicts trailSize
    -- The window is emptied before this conflict enters it as its first.
    let p := if blocked then { p with lbdWindow := p.lbdWindow.clear } else p
    let p := { p with lbdWindow := p.lbdWindow.add (Float.ofNat lbd) }
    ({ p with restartPending := p.restartPending || p.isStuck o }, blocked)
  | .everyConflict => ({ p with restartPending := true }, false)
  | .never => (p, false)

/-- A restart is under way. -/
def noteRestart (p : Policy) : Policy :=
  { p with restartPending := false, lbdWindow := p.lbdWindow.clear }

/-- A reduction is done: the next gap is longer. -/
def noteReduction (p : Policy) (o : Options) : Policy :=
  let gap := p.reductionGap + o.reduceIncrement
  { p with reductionGap := gap, conflictsBeforeReduction := gap }

/-- The part of the variables assigned since the last reduction whose phase moved, but not more
than the smallest such part so far, and at least a tenth if it vanishes. -/
def deviation (p : Policy) (moved assigned : Nat) : Float × Policy :=
  let raw := if assigned = 0 then p.minDeviation else Float.ofNat moved / Float.ofNat assigned
  let (part, p) :=
    if p.minDeviation < raw then (p.minDeviation, p) else (raw, { p with minDeviation := raw })
  (if part < 0.01 then 0.1 else part, p)

end Policy

end Cdcl
