import Cdcl.Data.DenseMap
import Cdcl.Logic.Truth

/-!
# Variables and literals

A literal is a variable with a sign. Literals are ordered by their code, which puts the two
literals of a variable side by side, the positive one first. The two literals of one reserved
variable are sentinels: they stand for "no literal" and "invalid literal", and no clause holds
them.
-/

namespace Cdcl

/-- A propositional variable, by its index from zero. -/
structure Var where
  index : Nat
  deriving DecidableEq, Repr, Inhabited

namespace Var

/-- Stands for "no variable". -/
def missing : Var := ⟨1 <<< 32 - 1⟩

/-- The variable's number in written clauses, which count from one. -/
def dimacs (v : Var) : Nat := v.index + 1

/-- The variable of a number; zero gives `missing`. -/
def ofDimacs : Nat → Var
  | 0 => missing
  | n + 1 => ⟨n⟩

/-- The variable as text. -/
def describe (v : Var) : String := if v = missing then "UNDEF" else toString v.dimacs

instance : DenseKey Var where
  index := Var.index
  ofIndex := Var.mk
  ofIndex_index _ := rfl
  index_ofIndex _ := rfl

instance : Ord Var where
  compare a b := compare a.index b.index

end Var

/-- A variable, or its negation. -/
structure Lit where
  var : Var
  positive : Bool
  deriving DecidableEq, Repr, Inhabited

namespace Lit

/-- The opposite literal. -/
def neg (l : Lit) : Lit := ⟨l.var, !l.positive⟩

/-- The literal, negated if `flip` is set. -/
def xor (l : Lit) (flip : Bool) : Lit := if flip then l.neg else l

/-- Position in the order of literals. -/
def code (l : Lit) : Nat := 2 * l.var.index + if l.positive then 0 else 1

def ofCode (n : Nat) : Lit := ⟨⟨n / 2⟩, n % 2 == 0⟩

theorem ofCode_code (l : Lit) : ofCode l.code = l := by
  obtain ⟨⟨i⟩, positive⟩ := l
  cases positive
  · simp [ofCode, code]; omega
  · simp [ofCode, code]

theorem code_ofCode (n : Nat) : (ofCode n).code = n := by
  rcases Nat.mod_two_eq_zero_or_one n with h | h <;> simp [ofCode, code, h] <;> omega

instance : DenseKey Lit where
  index := code
  ofIndex := ofCode
  ofIndex_index := ofCode_code
  index_ofIndex := code_ofCode

instance : Ord Lit where
  compare a b := compare a.code b.code

/-- Stands for "no literal". -/
def missing : Lit := ⟨⟨1 <<< 31 - 1⟩, true⟩

/-- Stands for "invalid literal". -/
def invalid : Lit := ⟨⟨1 <<< 31 - 1⟩, false⟩

def isSentinel (l : Lit) : Bool := l == missing || l == invalid

/-- The literal as a signed number. -/
def dimacs (l : Lit) : Int := if l.positive then l.var.dimacs else -l.var.dimacs

/-- The literal of a signed number; zero gives `missing`. -/
def ofDimacs (n : Int) : Lit :=
  if n = 0 then missing else ⟨Var.ofDimacs n.natAbs, decide (0 < n)⟩

/-- The literal as text. -/
def describe (l : Lit) : String :=
  if l = invalid then "ERROR"
  else if l = missing then "UNDEF"
  else toString l.dimacs

@[simp] theorem neg_neg (l : Lit) : l.neg.neg = l := by simp [neg]

@[simp] theorem var_neg (l : Lit) : l.neg.var = l.var := rfl

@[simp] theorem positive_neg (l : Lit) : l.neg.positive = !l.positive := rfl

theorem neg_ne (l : Lit) : l.neg ≠ l := by
  intro h
  have := congrArg positive h
  simp at this

theorem neg_inj {a b : Lit} : a.neg = b.neg ↔ a = b :=
  ⟨fun h => by rw [← neg_neg a, h, neg_neg], fun h => h ▸ rfl⟩

/-- Two literals of one variable are equal or opposite. -/
theorem eq_or_eq_neg_of_var_eq {a b : Lit} (h : a.var = b.var) : a = b ∨ a = b.neg := by
  obtain ⟨v, p⟩ := a
  obtain ⟨w, q⟩ := b
  cases h
  cases p <;> cases q <;> simp [neg]

theorem code_inj {a b : Lit} : a.code = b.code ↔ a = b := DenseKey.index_inj (κ := Lit)

end Lit

/-- The value of a literal, given that of its variable. -/
def Truth.ofLit (value : Truth) (l : Lit) : Truth := value.xor (!l.positive)

theorem Truth.ofLit_neg (value : Truth) (l : Lit) : value.ofLit l.neg = (value.ofLit l).neg := by
  obtain ⟨v, positive⟩ := l
  cases value <;> cases positive <;> rfl

end Cdcl
