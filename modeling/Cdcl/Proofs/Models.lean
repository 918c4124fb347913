import Cdcl.Proofs.Faithfulness
import Cdcl.Solver.Query

/-!
# Models

A complete assignment that was propagated without conflict makes all clauses that were given true:
each original clause has a true literal, and with the facts these imply the formula.

## Main results

- `Settled.satisfies_total`: what a complete trail satisfies.
- `Settled.satisfiesStored`: a model of the formula satisfies what is stored.
-/

namespace Cdcl

namespace Model

variable {m : Model} {F : List (List Lit)} {n : Nat} {l : Lit}

/-- The assignment that makes true what the model does, and false all else. -/
def total (m : Model) : Valuation := fun v => m.value v == .yes

/-- All variables below `n` have values. -/
def Decides (m : Model) (n : Nat) : Prop := ∀ v : Var, v.index < n → m.value v ≠ .undecided

theorem satisfiesLit_total (holds : m.makesTrue l = true) : m.total.satisfiesLit l := by
  rw [makesTrue_iff] at holds
  unfold Valuation.satisfiesLit total
  rw [holds]
  cases l.positive <;> rfl

theorem Decides.makesTrue_iff (h : m.Decides n) (bound : l.var.index < n) :
    m.makesTrue l = true ↔ m.total.satisfiesLit l := by
  refine ⟨satisfiesLit_total, fun holds => ?_⟩
  have decided := h l.var bound
  unfold Valuation.satisfiesLit total at holds
  rw [Model.makesTrue_iff]
  revert decided holds
  cases m.value l.var <;> cases l.positive <;> simp [Truth.ofBool]

theorem Decides.any_makesTrue (h : m.Decides n) {c : List Lit} (bound : ∀ l ∈ c, l.var.index < n) :
    c.any m.makesTrue = true ↔ m.total.satisfiesClause c := by
  rw [List.any_eq_true]
  exact exists_congr fun l => and_congr_right fun inside => h.makesTrue_iff (bound l inside)

/-- A model that decides all variables of a formula satisfies it as an assignment does. -/
theorem Decides.satisfies_iff (h : m.Decides n) (bound : ∀ c ∈ F, ∀ l ∈ c, l.var.index < n) :
    m.satisfies F = true ↔ m.total.satisfies F := by
  unfold Model.satisfies
  rw [List.all_eq_true]
  exact forall_congr' fun c => forall_congr' fun given => h.any_makesTrue (bound c given)

end Model

/-- Reading the values of a trail as a model. -/
theorem Solver.value_currentModel {e : Engine} {v : Var} (bound : v.index < e.numVars) :
    (Solver.currentModel e).value v = e.trail.value v := by
  unfold Solver.currentModel Model.value Engine.vars
  simp [bound]

namespace Engine

variable {F : List (List Lit)} {e : Engine} {n : Nat}

theorem makesTrue_currentModel {k : Nat} (coherent : e.trail.Coherent k) (le : k ≤ e.numVars) {l : Lit}
    (member : l ∈ e.trail.lits) : (Solver.currentModel e).makesTrue l = true := by
  have bound := coherent.bounded l member
  rw [Model.makesTrue_iff, Solver.value_currentModel (by omega)]
  exact (Trail.isTrue_eq _ _).mp ((coherent.isTrue_iff l).mpr member)

/-- A complete trail without anything left to propagate satisfies the formula. -/
theorem Settled.satisfies_total (h : e.Settled F) (propagated : e.trail.head = e.trail.lits.size)
    (complete : ∀ v : Var, v.index < e.numVars → e.trail.value v ≠ .undecided) :
    (Solver.currentModel e).total.satisfies F := by
  obtain ⟨pairs, faithful⟩ := h.faithful
  have coherent := faithful.sound.trail
  have holds {l : Lit} (member : l ∈ e.trail.lits) :
      (Solver.currentModel e).total.satisfiesLit l :=
    Model.satisfiesLit_total (makesTrue_currentModel coherent (Nat.le_refl _) member)
  have guards := faithful.guards
  rw [propagated] at guards
  obtain ⟨clauses, both⟩ := guards.satisfied faithful.sound faithful.guarded complete
  refine faithful.determined ⟨fun id member => ?_, fun a b member => ?_, fun l fact => ?_⟩
  · obtain ⟨l, inside, true_⟩ := clauses id member
    exact ⟨l, Array.mem_toList_iff.mpr inside, holds ((coherent.isTrue_iff l).mp true_)⟩
  · exact (both a b member).imp (fun true_ => holds ((coherent.isTrue_iff a).mp true_))
      fun true_ => holds ((coherent.isTrue_iff b).mp true_)
  · exact holds (coherent.mem_facts_iff_levelOf.mp fact).1

end Engine

/-- A model of the formula satisfies all that is stored. -/
theorem Solver.satisfiesStored_of_satisfies {F : List (List Lit)} {s : Solver}
    (h : s.engine.Settled F) (decides : s.model.Decides s.engine.numVars)
    (models : s.model.total.satisfies F) : s.satisfiesStored = true := by
  obtain ⟨pairs, faithful⟩ := h.faithful
  have sound := faithful.sound
  have respected := faithful.upheld _ models
  unfold Solver.satisfiesStored
  dsimp only
  rw [Bool.and_eq_true, Bool.and_eq_true]
  refine ⟨⟨?_, ?_⟩, ?_⟩
  · rw [Array.all_eq_true_iff_forall_mem]
    intro id member
    have used := faithful.live (List.mem_append_right [] (Array.mem_toList_iff.mpr member))
    rw [← Array.any_toList]
    refine (decides.any_makesTrue fun l inside => ?_).mpr (respected.clauses id used)
    exact (sound.proper id used).bounded l (Array.mem_toList_iff.mp inside)
  · rw [List.all_eq_true]
    rintro ⟨p, others⟩ entry
    obtain ⟨i, at_i⟩ := List.mem_iff_getElem?.mp entry
    unfold DenseMap.entries at at_i
    rw [List.getElem?_mapIdx, Option.map_eq_some_iff] at at_i
    obtain ⟨list, at_list, same⟩ := at_i
    obtain ⟨rfl, rfl⟩ := Prod.mk.inj same
    have stored : s.engine.watches.binary.get (DenseKey.ofIndex i) = list := by
      rw [DenseMap.get_eq, DenseKey.index_ofIndex, ← Array.getElem?_toList, at_list]
      rfl
    rw [Bool.or_eq_true, Array.all_eq_true_iff_forall_mem]
    -- A list of pairs is kept with its literal: either that is false, or all others in the list hold.
    by_cases implied : s.model.total.satisfiesLit (DenseKey.ofIndex i)
    · refine .inr fun q member => ?_
      rw [← stored] at member
      exact (decides.makesTrue_iff (sound.binary_bounded _ q member).2).mpr
        (respected.binary _ q member implied)
    · by_cases empty : ∃ q, q ∈ list
      · obtain ⟨q, member⟩ := empty
        rw [← stored] at member
        refine .inl ((decides.makesTrue_iff ?_).mpr ((Valuation.satisfiesLit_neg _ _).mpr implied))
        exact (sound.binary_bounded _ q member).1
      · exact .inr fun q member => absurd ⟨q, member⟩ empty
  · rw [List.all_eq_true]
    intro l fact
    have member := (sound.trail.mem_facts_iff_levelOf.mp fact).1
    exact (decides.makesTrue_iff (sound.trail.bounded l member)).mpr (respected.facts l fact)

end Cdcl
