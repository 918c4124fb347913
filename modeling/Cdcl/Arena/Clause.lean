import Cdcl.Arena.Header
import Cdcl.Arena.Region

/-!
# The clause arena

Clauses of three literals or more live in an arena and are named by handles. A clause takes one
word for its header, one for each literal and, if it was learnt, two for its activity, its level
count and the number of times it was frozen. Removing a clause only marks it and counts its words
as waste; its handle keeps reading as a removed clause until the arena is compacted.

Main statements: `alloc_eq_ok_iff` and `alloc_eq_error_iff`, when a clause is stored; `get_modify`, an operation on one handle changes what that handle reads and no
other; `get_alloc`, a new clause reads as given and the others as before.
-/

namespace Cdcl

/-- What is known about a learnt clause beyond its literals. -/
structure LearntInfo where
  activity : Float32 := 0
  /-- Number of distinct decision levels of the literals, as last counted. -/
  lbd : Nat := 0
  /-- How many reductions decided to freeze the clause. -/
  freezeCount : Nat := 0
  /-- A frozen clause takes no part in propagation until it is falsified. -/
  frozen : Bool := false
  deriving Repr

/-- A handle of a stored clause. -/
structure ClauseId where
  slot : Nat
  deriving DecidableEq, Repr, Inhabited

/-- A stored clause. The first two literals are the watched ones. -/
structure Clause where
  lits : Array Lit
  /-- Zero for a clause in use, one for a removed clause. -/
  mark : Nat := 0
  learnt? : Option LearntInfo := none
  /-- Set when the clause is moved to another arena. From then on its new handle stands in the place
  of its first literal. -/
  relocated : Bool := false
  deriving Repr

namespace Clause

/-- Level counts and freeze counts stop at this value. -/
def maxLbd : Nat := 1 <<< 16 - 1

/-- A clause as it is stored at first. -/
def fresh (lits : Array Lit) (learnt : Bool) : Clause :=
  { lits, learnt? := if learnt then some {} else none }

/-- What a handle reads that names no clause. -/
def absent : Clause := { lits := #[], mark := 1 }

def size (c : Clause) : Nat := c.lits.size

def isLearnt (c : Clause) : Bool := c.learnt?.isSome

def isFrozen (c : Clause) : Bool := c.learnt?.any LearntInfo.frozen

def isRemoved (c : Clause) : Bool := c.mark != 0

/-- The literal at a position; past the end, the sentinel. -/
def lit (c : Clause) (i : Nat) : Lit := c.lits.getD i .missing

/-- The literals after the first. -/
def tail (c : Clause) : List Lit := c.lits.toList.drop 1

def lbd (c : Clause) : Nat := (c.learnt?.map LearntInfo.lbd).getD 0

def freezeCount (c : Clause) : Nat := (c.learnt?.map LearntInfo.freezeCount).getD 0

def activity (c : Clause) : Float32 := (c.learnt?.map LearntInfo.activity).getD 0

/-- Words of the arena that the clause takes. -/
def words (c : Clause) : Nat := 1 + c.size + if c.isLearnt then 2 else 0

def header (c : Clause) : Header :=
  { mark := c.mark, learnt := c.isLearnt, frozen := c.isFrozen, relocated := c.relocated,
    size := c.size }

def swap (c : Clause) (i j : Nat) : Clause := { c with lits := c.lits.swapIfInBounds i j }

def setLits (c : Clause) (lits : Array Lit) : Clause := { c with lits }

/-- Change what is known about a learnt clause. -/
def modifyLearnt (c : Clause) (f : LearntInfo → LearntInfo) : Clause :=
  { c with learnt? := c.learnt?.map f }

def setLbd (c : Clause) (n : Nat) : Clause := c.modifyLearnt ({ · with lbd := min n maxLbd })

def setFreezeCount (c : Clause) (n : Nat) : Clause :=
  c.modifyLearnt ({ · with freezeCount := min n maxLbd })

def setFrozen (c : Clause) (b : Bool) : Clause := c.modifyLearnt ({ · with frozen := b })

def setActivity (c : Clause) (a : Float32) : Clause := c.modifyLearnt ({ · with activity := a })

def remove (c : Clause) : Clause := { c with mark := 1 }

/-- Leave the new handle of a clause that was moved. -/
def relocate (c : Clause) (new : ClauseId) : Clause :=
  { c with lits := c.lits.setIfInBounds 0 (.ofCode new.slot), relocated := true }

/-- The new handle of a clause that was moved. -/
def relocation (c : Clause) : ClauseId := ⟨(c.lit 0).code⟩

end Clause

/-- The stored clauses by handle, and the accounts of the words they take. -/
structure ClauseArena where
  clauses : Array Clause := #[]
  space : Space

namespace ClauseArena

/-- Bytes in a word. -/
def wordSize : Nat := 4

def empty (limit : Nat) : ClauseArena := { space := { limit } }

def get (a : ClauseArena) (id : ClauseId) : Clause := a.clauses.getD id.slot .absent

/-- Change the clause of a handle. -/
def modify (a : ClauseArena) (id : ClauseId) (f : Clause → Clause) : ClauseArena :=
  { a with clauses := a.clauses.modify id.slot f }

/-- Store a clause. Its header must be able to count its literals, however much room there is. -/
def alloc (a : ClauseArena) (lits : Array Lit) (learnt : Bool) :
    Except SolverError (ClauseId × ClauseArena) :=
  if Header.maxSize < lits.size then .error (.clauseTooLarge lits.size)
  else
    match a.space.claim (Clause.fresh lits learnt).words with
    | .error e => .error e
    | .ok space =>
      .ok (⟨a.clauses.size⟩, { clauses := a.clauses.push (.fresh lits learnt), space })

/-- Store a copy of a clause of another arena. -/
def copy (a : ClauseArena) (c : Clause) : Except SolverError (ClauseId × ClauseArena) :=
  match a.space.claim c.words with
  | .error e => .error e
  | .ok space => .ok (⟨a.clauses.size⟩, { clauses := a.clauses.push c, space })

/-- Count `n` words as waste. -/
def waste (a : ClauseArena) (n : Nat) : ClauseArena := { a with space := a.space.waste n }

/-- Count the words of a clause as waste. -/
def free (a : ClauseArena) (id : ClauseId) : ClauseArena := a.waste (a.get id).words

/-- Forget the literals of a clause from position `n` on, and count their words as waste. -/
def shrink (a : ClauseArena) (id : ClauseId) (n : Nat) : ClauseArena :=
  let dropped := (a.get id).size - n
  (a.modify id fun c => { c with lits := c.lits.extract 0 n }).waste dropped

theorem get_eq (a : ClauseArena) (id : ClauseId) :
    a.get id = (a.clauses[id.slot]?).getD .absent := by
  simp [get, Array.getD_eq_getD_getElem?]

/-- A clause in use is stored in the slot of its handle. -/
theorem getElem?_of_used {a : ClauseArena} {id : ClauseId} (used : (a.get id).isRemoved = false) :
    a.clauses[id.slot]? = some (a.get id) := by
  rw [get_eq] at used ⊢
  cases stored : a.clauses[id.slot]? with
  | some c => rfl
  | none =>
    rw [stored] at used
    cases used

theorem slot_lt_of_used {a : ClauseArena} {id : ClauseId} (used : (a.get id).isRemoved = false) :
    id.slot < a.clauses.size :=
  (Array.getElem?_eq_some_iff.mp (getElem?_of_used used)).1

theorem get_modify (a : ClauseArena) (id other : ClauseId) (f : Clause → Clause)
    (valid : id.slot < a.clauses.size) :
    (a.modify id f).get other = if id = other then f (a.get other) else a.get other := by
  simp only [get_eq, modify, Array.getElem?_modify]
  by_cases h : id = other
  · subst h
    simp [Array.getElem?_eq_getElem valid]
  · have slots : id.slot ≠ other.slot := fun e => h (by cases id; cases other; cases e; rfl)
    simp [h, slots]

theorem alloc_eq_ok_iff {a b : ClauseArena} {lits : Array Lit} {learnt : Bool} {id : ClauseId} :
    a.alloc lits learnt = .ok (id, b) ↔ lits.size ≤ Header.maxSize ∧ id = ⟨a.clauses.size⟩ ∧
      ∃ space, a.space.claim (Clause.fresh lits learnt).words = .ok space ∧
        b = { clauses := a.clauses.push (.fresh lits learnt), space } := by
  unfold alloc
  split
  next large => simp [Nat.not_le_of_lt large]
  next small =>
    cases a.space.claim (Clause.fresh lits learnt).words with
    | error => simp
    | ok => simp [Nat.le_of_not_lt small, eq_comm]

/-- A clause is not stored if its header or the arena has no room for it. -/
theorem alloc_eq_error_iff {a : ClauseArena} {lits : Array Lit} {learnt : Bool} {e : SolverError} :
    a.alloc lits learnt = .error e ↔
      Header.maxSize < lits.size ∧ e = .clauseTooLarge lits.size ∨
      lits.size ≤ Header.maxSize ∧ a.space.claim (Clause.fresh lits learnt).words = .error e := by
  unfold alloc
  split
  next large => simp [large, Nat.not_le_of_lt large, eq_comm]
  next small =>
    cases a.space.claim (Clause.fresh lits learnt).words with
    | error => simp [small, Nat.le_of_not_lt small]
    | ok => simp [small]

theorem get_alloc {a b : ClauseArena} {lits : Array Lit} {learnt : Bool} {id : ClauseId}
    (ok : a.alloc lits learnt = .ok (id, b)) (other : ClauseId)
    (valid : other.slot < a.clauses.size ∨ other = id) :
    b.get other =
      if other = id then .fresh lits learnt else a.get other := by
  obtain ⟨-, rfl, space, -, rfl⟩ := alloc_eq_ok_iff.mp ok
  simp only [get_eq, Array.getElem?_push]
  by_cases h : other = ⟨a.clauses.size⟩
  · subst h; simp
  · have slot : other.slot ≠ a.clauses.size := fun e => h (by cases other; cases e; rfl)
    simp [h, slot]

end ClauseArena

end Cdcl
