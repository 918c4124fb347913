import Cdcl.Arena.Clause

/-!
# Watches

Which clauses to look at when a literal becomes true. All lists are kept under the literal whose
truth calls for a visit, the opposite of the one that is watched:

- `long` holds the clauses of the arena that take part in propagation, each under the opposites of
  its first two literals;
- `binary` holds, for each clause of two literals, the other literal;
- `frozen` holds the frozen clauses, each under the opposite of a single literal.

Entries of removed or frozen clauses stay in `long` until their list is cleaned. A list that may
hold such entries is flagged dirty.
-/

namespace Cdcl

/-- A watched clause, and a literal of it whose truth makes a visit needless. -/
structure Watcher where
  clause : ClauseId
  blocker : Lit
  deriving DecidableEq, Repr

structure Watches where
  long : DenseMap Lit (Array Watcher) := { fallback := #[] }
  dirty : DenseFlags Lit := DenseFlags.empty
  /-- Every literal whose list is dirty, and perhaps more. -/
  dirtyKeys : Array Lit := #[]
  binary : DenseMap Lit (Array Lit) := { fallback := #[] }
  frozen : DenseMap Lit (Array Watcher) := { fallback := #[] }

namespace Watches

/-- Set up the lists of a new literal. -/
def addLit (w : Watches) (l : Lit) : Watches :=
  { w with
    long := w.long.insert l #[]
    dirty := w.dirty.reserve l false
    binary := w.binary.insert l #[]
    frozen := w.frozen.insert l #[] }

/-- Add the clause of two literals. -/
def addBinary (w : Watches) (a b : Lit) : Watches :=
  { w with binary := (w.binary.modify a.neg (·.push b)).modify b.neg (·.push a) }

/-- Add an entry to a list of clauses that take part in propagation. -/
def pushLong (w : Watches) (key : Lit) (entry : Watcher) : Watches :=
  { w with long := w.long.modify key (·.push entry) }

/-- Put a list of clauses that take part in propagation in place of another. -/
def setLong (w : Watches) (key : Lit) (entries : Array Watcher) : Watches :=
  { w with long := w.long.insert key entries }

/-- Add an entry to a list of frozen clauses. -/
def pushFrozen (w : Watches) (key : Lit) (entry : Watcher) : Watches :=
  { w with frozen := w.frozen.modify key (·.push entry) }

/-- Put a list of frozen clauses in place of another. -/
def setFrozen (w : Watches) (key : Lit) (entries : Array Watcher) : Watches :=
  { w with frozen := w.frozen.insert key entries }

/-- Watch a clause on its first two literals. -/
def watch (w : Watches) (id : ClauseId) (first second : Lit) : Watches :=
  (w.pushLong first.neg ⟨id, second⟩).pushLong second.neg ⟨id, first⟩

/-- Flag a list as dirty. -/
def smudge (w : Watches) (key : Lit) : Watches :=
  if w.dirty.get key then w
  else { w with dirty := w.dirty.raise key, dirtyKeys := w.dirtyKeys.push key }

/-- Stop watching a clause; its entries stay until the lists are cleaned. -/
def unwatchLater (w : Watches) (first second : Lit) : Watches :=
  (w.smudge first.neg).smudge second.neg

/-- Drop the first entry of a clause from a list. -/
def dropEntry (w : Watches) (id : ClauseId) (key : Lit) : Watches :=
  { w with long := w.long.modify key (·.eraseP fun e => e.clause == id) }

/-- Stop watching a clause, and drop its entries. -/
def unwatchNow (w : Watches) (id : ClauseId) (first second : Lit) : Watches :=
  (w.dropEntry id first.neg).dropEntry id second.neg

/-- The entries of removed and of frozen clauses have no business in `long`. -/
def isStale (arena : ClauseArena) (entry : Watcher) : Bool :=
  let c := arena.get entry.clause
  c.isRemoved || c.isFrozen

/-- Only clauses that are frozen and not removed have business in `frozen`. -/
def isFrozenStale (arena : ClauseArena) (entry : Watcher) : Bool :=
  let c := arena.get entry.clause
  c.isRemoved || !c.isFrozen

/-- Drop the stale entries of a list. -/
def clean (w : Watches) (arena : ClauseArena) (key : Lit) : Watches :=
  { w with
    long := w.long.modify key (·.filter fun e => !isStale arena e)
    dirty := w.dirty.insert key false }

/-- Clean the list if it is dirty. -/
def cleanIfDirty (w : Watches) (arena : ClauseArena) (key : Lit) : Watches :=
  if w.dirty.get key then w.clean arena key else w

/-- Clean every dirty list. -/
def cleanAll (w : Watches) (arena : ClauseArena) : Watches :=
  { w.dirtyKeys.foldl (fun w key => w.cleanIfDirty arena key) w with dirtyKeys := #[] }

/-- Empty the lists of frozen clauses. -/
def clearFrozen (w : Watches) : Watches := { w with frozen := w.frozen.mapValues fun _ => #[] }

/-- Drop the entries of clauses that are not frozen, or removed. -/
def cleanFrozen (w : Watches) (arena : ClauseArena) : Watches :=
  { w with frozen := w.frozen.mapValues (·.filter fun e => !isFrozenStale arena e) }

/-- Does the list of a literal hold an entry of the clause? -/
def watches (w : Watches) (id : ClauseId) (key : Lit) : Bool :=
  (w.long.get key).any fun e => e.clause == id

/-- Does the list of frozen clauses of a literal hold an entry of the clause? -/
def watchesFrozen (w : Watches) (id : ClauseId) (key : Lit) : Bool :=
  (w.frozen.get key).any fun e => e.clause == id

end Watches

end Cdcl
