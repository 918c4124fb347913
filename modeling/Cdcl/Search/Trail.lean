import Cdcl.Arena.Clause
import Cdcl.Logic.Formula

/-!
# The trail

The partial assignment of the search, as the list of literals made true in order, cut into
decision levels. Each assigned variable has a value, the level it was assigned at and the reason.

Main statements: `value_assign` and `value_cancelTo` say what assigning and backtracking do to the
values.
-/

namespace Cdcl

/-- Why a literal is on the trail. -/
inductive Reason where
  /-- A decision, an assumption, or a fact at level zero. -/
  | decision
  /-- Implied by the clause of the literal and this other one, which is false. -/
  | binary (other : Lit)
  /-- Implied by a stored clause, whose first literal it is. -/
  | clause (id : ClauseId)
  deriving DecidableEq, Repr, Inhabited

/-- The assignment. The first `head` literals of the trail are already propagated. -/
structure Trail where
  lits : Array Lit := #[]
  /-- The length of the trail at the start of each decision level above zero. -/
  marks : Array Nat := #[]
  head : Nat := 0
  values : DenseMap Var Truth := { fallback := .undecided }
  reasons : DenseMap Var Reason := { fallback := .decision }
  levels : DenseMap Var Nat := { fallback := 0 }

namespace Trail

def size (t : Trail) : Nat := t.lits.size

/-- The current decision level. -/
def level (t : Trail) : Nat := t.marks.size

/-- Is every literal of the trail propagated? -/
def isPropagated (t : Trail) : Bool := t.head == t.lits.size

def value (t : Trail) (v : Var) : Truth := t.values.get v

def valueLit (t : Trail) (l : Lit) : Truth := (t.value l.var).ofLit l

def isTrue (t : Trail) (l : Lit) : Bool := t.valueLit l == .yes

def isFalse (t : Trail) (l : Lit) : Bool := t.valueLit l == .no

def isUnassigned (t : Trail) (v : Var) : Bool := t.value v == .undecided

def reason (t : Trail) (v : Var) : Reason := t.reasons.get v

/-- The level a variable was last assigned at. -/
def levelOf (t : Trail) (v : Var) : Nat := t.levels.get v

/-- The literals assigned at level zero. -/
def facts (t : Trail) : List Lit :=
  match t.marks[0]? with
  | some n => t.lits.toList.take n
  | none => t.lits.toList

/-- The value of a literal if it is settled at level zero. -/
def factValue (t : Trail) (l : Lit) : Truth :=
  let value := t.valueLit l
  if value.isDefined && t.levelOf l.var == 0 then value else .undecided

/-- Does the trail make a literal of the clause true? -/
def satisfies (t : Trail) (lits : Array Lit) : Bool := lits.any t.isTrue

/-- Set up a new variable. -/
def addVar (t : Trail) (v : Var) : Trail :=
  { t with
    values := t.values.insert v .undecided
    reasons := t.reasons.insert v .decision
    levels := t.levels.insert v 0 }

/-- Start a new decision level. -/
def openLevel (t : Trail) : Trail := { t with marks := t.marks.push t.lits.size }

/-- Make an unassigned literal true at the current level. -/
def assign (t : Trail) (l : Lit) (why : Reason) : Trail :=
  { t with
    lits := t.lits.push l
    values := t.values.insert l.var (.ofBool l.positive)
    reasons := t.reasons.insert l.var why
    levels := t.levels.insert l.var t.marks.size }

/-- Where the literals above a level start. -/
def startAbove (t : Trail) (level : Nat) : Nat := t.marks.getD level t.lits.size

/-- The literals above a level, the latest first, with their positions. -/
def above (t : Trail) (level : Nat) : List (Lit × Nat) :=
  ((t.lits.toList.drop (t.startAbove level)).zipIdx (t.startAbove level)).reverse

/-- Go back to a level below the current one, and unassign what is above it. -/
def cancelTo (t : Trail) (level : Nat) : Trail :=
  let start := t.startAbove level
  { t with
    lits := t.lits.extract 0 start
    marks := t.marks.extract 0 level
    head := start
    values := (t.above level).foldl (fun values (l, _) => values.insert l.var .undecided) t.values }

/-- The facts at level zero need no reason. -/
def forgetReason (t : Trail) (v : Var) : Trail :=
  { t with reasons := t.reasons.insert v .decision, levels := t.levels.insert v 0 }

/-- The first position from `start` on, among the next `n`, of a literal that is not false. -/
def findNonFalse (t : Trail) (lits : Array Lit) (start : Nat) : Nat → Option Nat
  | 0 => none
  | n + 1 =>
    if t.isFalse (lits.getD start .missing) then findNonFalse t lits (start + 1) n else some start

/-- Among the positions from `k` on, `n` of them, and `best`, the first one whose literal is of the
highest level; `best` wins a tie. -/
def highestFrom (t : Trail) (lits : Array Lit) (best k : Nat) : Nat → Nat
  | 0 => best
  | n + 1 =>
    let level (i : Nat) : Nat := t.levelOf (lits.getD i .missing).var
    highestFrom t lits (if level best < level k then k else best) (k + 1) n

/-- Bring a literal of the highest level from position `i` on to that position. -/
def bringHighest (t : Trail) (i : Nat) (lits : Array Lit) : Array Lit :=
  lits.swapIfInBounds i (t.highestFrom lits i (i + 1) (lits.size - (i + 1)))

/-- Take the next literal to propagate. -/
def advance (t : Trail) : Trail := { t with head := t.head + 1 }

/-- Nothing is left to propagate. -/
def skipQueue (t : Trail) : Trail := { t with head := t.lits.size }

@[simp] theorem valueLit_neg (t : Trail) (l : Lit) : t.valueLit l.neg = (t.valueLit l).neg :=
  Truth.ofLit_neg _ _

theorem value_assign (t : Trail) (l : Lit) (why : Reason) (v : Var) :
    (t.assign l why).value v = if l.var = v then .ofBool l.positive else t.value v := by
  simp only [value, assign, DenseMap.get_insert]

private theorem get_foldl_insert_undecided (ls : List (Lit × Nat)) (values : DenseMap Var Truth)
    (v : Var) :
    (ls.foldl (fun values (l, _) => values.insert l.var .undecided) values).get v =
      if v ∈ ls.map (·.1.var) then .undecided else values.get v := by
  induction ls generalizing values with
  | nil => simp
  | cons l ls ih =>
    rw [List.foldl_cons, ih, DenseMap.get_insert, List.map_cons]
    by_cases here : l.1.var = v
    · subst here; simp
    · by_cases there : v ∈ ls.map (·.1.var)
      · simp [there]
      · rw [if_neg there, if_neg here, if_neg]
        simp only [List.mem_cons, not_or]
        exact ⟨fun e => here e.symm, there⟩

/-- Backtracking unassigns the variables above the level and no other. -/
theorem value_cancelTo (t : Trail) (level : Nat) (v : Var) :
    (t.cancelTo level).value v =
      if v ∈ (t.above level).map (·.1.var) then .undecided else t.value v := by
  simp only [value, cancelTo]
  exact get_foldl_insert_undecided _ _ _

end Trail

end Cdcl
