import Cdcl.Search.Engine

/-!
# Pure literals

A literal that occurs in some clause while its opposite occurs in none may be assumed: if the
clauses have a model, they have one that makes it true. Learnt clauses and assumptions count as
occurrences.
-/

namespace Cdcl

namespace Engine

/-- Flag the literals of the stored clauses. -/
def flagStored (e : Engine) (flags : DenseFlags Lit) (id : ClauseId) : DenseFlags Lit :=
  (e.clause id).lits.foldl DenseFlags.raise flags

/-- The literals that occur in clauses of the arena, in binary clauses or among the assumptions.
Each literal of a binary clause is listed under the opposite of the other one. -/
def occurring (e : Engine) (assumptions : List Lit) : DenseFlags Lit :=
  let stored := (e.originals ++ e.learnts).foldl e.flagStored DenseFlags.empty
  let withBinary := e.watches.binary.values.foldl
    (fun flags others => others.foldl DenseFlags.raise flags) stored
  assumptions.foldl DenseFlags.raise withBinary

/-- The pure literal of a variable, if one of its literals is pure and it may be decided. -/
def pureLit? (e : Engine) (occurs : DenseFlags Lit) (v : Var) : Option Lit :=
  let positive := occurs.get ⟨v, true⟩
  let negative := occurs.get ⟨v, false⟩
  if e.branching.decision.get v && e.trail.isUnassigned v && positive != negative then
    some ⟨v, positive⟩
  else none

/-- The pure literals of the unassigned decision variables, in order of variables. -/
def pureLits (e : Engine) (assumptions : List Lit) : List Lit :=
  let occurs := e.occurring assumptions
  e.vars.filterMap (e.pureLit? occurs)

end Engine

end Cdcl
