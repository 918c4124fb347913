/-!
# Three-valued truth

The value of a variable under a partial assignment: true, false, or not decided. The connectives
are those of strong Kleene logic: an undecided operand leaves the result undecided unless the
other operand settles it.
-/

namespace Cdcl

inductive Truth where
  | yes
  | no
  | undecided
  deriving DecidableEq, Repr, Inhabited

namespace Truth

def ofBool : Bool → Truth
  | true => yes
  | false => no

/-- The value as a boolean, if it is decided. -/
def toBool? : Truth → Option Bool
  | yes => some true
  | no => some false
  | undecided => none

/-- Two bits name a value: 0 is true, 1 is false, and both others are undecided. -/
def ofCode : Nat → Truth
  | 0 => yes
  | 1 => no
  | _ => undecided

def isDefined : Truth → Bool
  | undecided => false
  | _ => true

def neg : Truth → Truth
  | yes => no
  | no => yes
  | undecided => undecided

/-- The value, negated if `flip` is set. -/
def xor (t : Truth) (flip : Bool) : Truth := if flip then t.neg else t

def and : Truth → Truth → Truth
  | no, _ => no
  | _, no => no
  | yes, yes => yes
  | _, _ => undecided

def or : Truth → Truth → Truth
  | yes, _ => yes
  | _, yes => yes
  | no, no => no
  | _, _ => undecided

def name : Truth → String
  | yes => "TRUE"
  | no => "FALSE"
  | undecided => "UNDEF"

/-- One letter for a value in a written model. -/
def letter : Truth → Char
  | yes => 'T'
  | no => 'F'
  | undecided => 'U'

def ofLetter : Char → Truth
  | 'T' => yes
  | 'F' => no
  | _ => undecided

@[simp] theorem neg_neg (t : Truth) : t.neg.neg = t := by cases t <;> rfl

@[simp] theorem ofLetter_letter (t : Truth) : ofLetter t.letter = t := by cases t <;> rfl

end Truth

end Cdcl
