/-!
# Listeners

A listener accompanies a solver: it may ask it to stop, and may keep a record of what happens. The solver
looks at the clock through it as well. Apart from stopping and the time, it cannot influence the search.
-/

namespace Cdcl

/-- The verdict of the latest solve, or why there is none. -/
inductive Status where
  /-- Nothing was solved yet, a budget ran out, or clauses were added since. -/
  | unknown
  | sat
  | unsat
  /-- The search was asked to stop. -/
  | interrupted
  deriving DecidableEq, Repr, Inhabited

namespace Status

/-- The status as a verdict line. -/
def describe : Status → String
  | unknown => "UNKNOWN"
  | sat => "SATISFIABLE"
  | unsat => "UNSATISFIABLE"
  | interrupted => "INTERRUPTED"

def name : Status → String
  | unknown => "Unknown"
  | sat => "Sat"
  | unsat => "Unsat"
  | interrupted => "Interrupted"

end Status

/-- How far the search is. -/
structure Progress where
  conflicts : Nat
  restarts : Nat
  reductions : Nat
  originals : Nat
  binary : Nat
  learnts : Nat
  frozen : Nat
  lbdMean : Float
  estimate : Float

inductive Event where
  | started
  | restarted
  | simplified
  /-- Learnt clauses were reduced from one number to another. -/
  | reduced (before after : Nat)
  /-- The arena was compacted from one number of bytes to another. -/
  | compacted (before after : Nat)
  | progressed (p : Progress)
  | finished (s : Status)

/-- What a listener does. -/
inductive ListenerKind where
  /-- It may stop the search. -/
  | basic
  /-- It may stop the search, and keeps the events. -/
  | recording
  /-- It does nothing. -/
  | silent
  deriving DecidableEq, Repr

structure Listener where
  kind : ListenerKind := .basic
  /-- Whether to stop, given how often that was asked before. -/
  stopRule : Option (Nat → Bool) := none
  /-- How often the stop rule was asked. -/
  polls : Nat := 0
  events : Array Event := #[]
  /-- What the clock shows, in nanoseconds, given how often it was looked at before. -/
  clock : Nat → Nat := fun _ => 0
  /-- How often the clock was looked at. -/
  readings : Nat := 0

namespace Listener

/-- The stop rule that lets the first `n` polls pass, and no later one. -/
def stopAfter (n : Nat) : Nat → Bool := fun polls => n ≤ polls

/-- Put a stop rule in place, or take it away. -/
def setStopRule (l : Listener) (rule : Option (Nat → Bool)) : Listener :=
  { l with stopRule := rule, polls := 0 }

/-- Ask whether to stop. -/
def poll (l : Listener) : Bool × Listener :=
  match l.kind, l.stopRule with
  | .silent, _ => (false, l)
  | _, none => (false, l)
  | _, some rule => (rule l.polls, { l with polls := l.polls + 1 })

/-- Look at the clock. -/
def readClock (l : Listener) : Nat × Listener :=
  (l.clock l.readings, { l with readings := l.readings + 1 })

/-- The nanoseconds of a second. -/
def second : Nat := 1000000000

/-- The clock shows whole seconds below `2 ^ 63`, and nanoseconds. -/
def clockEnd : Nat := (1 <<< 63) * second

/-- Take note of an event. -/
def notify (l : Listener) (e : Event) : Listener :=
  match l.kind with
  | .recording => { l with events := l.events.push e }
  | _ => l

/-- The events since this was last asked. -/
def takeEvents (l : Listener) : List Event × Listener :=
  (l.events.toList, { l with events := #[] })

end Listener

end Cdcl
