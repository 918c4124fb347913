import Cdcl.Data.DenseSet
import Cdcl.Data.Sort
import Cdcl.Logic.Literal

/-!
# Formulas and models

A clause is a list of literals, a formula a list of clauses. A total assignment gives each variable
a boolean and satisfies a formula in the classical sense; a model is a finite list of three-valued
truths, which satisfies a clause if it makes one of its literals true.
-/

namespace Cdcl

/-! ### Classical satisfaction -/

/-- A boolean for every variable. -/
abbrev Valuation := Var → Bool

/-- Does the assignment make the literal true? -/
def Valuation.satisfiesLit (σ : Valuation) (l : Lit) : Prop := σ l.var = l.positive

/-- Some literal of the clause is true. -/
def Valuation.satisfiesClause (σ : Valuation) (c : List Lit) : Prop := ∃ l ∈ c, σ.satisfiesLit l

/-- Every clause has a true literal. -/
def Valuation.satisfies (σ : Valuation) (f : List (List Lit)) : Prop :=
  ∀ c ∈ f, σ.satisfiesClause c

theorem Valuation.satisfiesLit_neg (σ : Valuation) (l : Lit) :
    σ.satisfiesLit l.neg ↔ ¬ σ.satisfiesLit l := by
  simp only [Valuation.satisfiesLit, Lit.var_neg, Lit.positive_neg]
  cases σ l.var <;> cases l.positive <;> simp

/-! ### Models -/

/-- Truths of the variables in order; variables past the end are undecided. -/
abbrev Model := Array Truth

namespace Model

def value (m : Model) (v : Var) : Truth := m.getD v.index .undecided

def valueLit (m : Model) (l : Lit) : Truth := (m.value l.var).ofLit l

/-- Does the model make the literal true? -/
def makesTrue (m : Model) (l : Lit) : Bool := m.valueLit l == .yes

/-- Does the model make some literal of each clause true? -/
def satisfies (m : Model) (f : List (List Lit)) : Bool := f.all fun c => c.any m.makesTrue

/-- The model as one letter for each variable. -/
def describe (m : Model) : String := String.ofList (m.toList.map Truth.letter)

/-- The model of a text of letters. -/
def ofText (text : String) : Model := (text.toList.map Truth.ofLetter).toArray

/-- The clause that excludes the model on the first `n` variables: it negates the true ones and
asserts all others. -/
def blockingClause (m : Model) (n : Nat) : List Lit :=
  (List.range n).map fun i => ⟨⟨i⟩, m.value ⟨i⟩ != .yes⟩

theorem makesTrue_iff (m : Model) (l : Lit) :
    m.makesTrue l = true ↔ m.value l.var = Truth.ofBool l.positive := by
  unfold makesTrue valueLit Truth.ofLit
  cases m.value l.var <;> cases l.positive <;> simp [Truth.xor, Truth.neg, Truth.ofBool]

end Model

/-! ### Clauses as text -/

namespace ClauseText

/-- A clause as the numbers of its literals and a closing zero. -/
def dimacs (c : List Lit) : String :=
  String.join (c.map fun l => toString l.dimacs ++ " ") ++ "0"

/-- A clause as a list in brackets. -/
def bracketed (c : List Lit) : String := "[" ++ String.intercalate ", " (c.map Lit.describe) ++ "]"

end ClauseText

/-- A clause in the order of literals; repeated literals stay. -/
def sortLits (c : List Lit) : List Lit := sortBy (fun a b => a.code ≤ b.code) c

/-- The distinct literals of a clause, in order of first occurrence. -/
def distinctLits (c : List Lit) : List Lit := (DenseSet.ofList c).toList

end Cdcl
