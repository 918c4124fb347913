import Cdcl.Proofs.Sessions

/-!
# Verdicts

What the answers of a solver say about the clauses that it accepted: a model satisfies them all, and the
assumptions too; a refutation rests on the clauses alone; a core names assumptions that cannot hold
together with the clauses.

## Main results

- `model_of_sat`, `unsatisfiable_of_declared`, `core_of_unsat`
-/

namespace Cdcl

namespace Solver

variable {F : List (List Lit)} {s t : Solver} {steps : Nat} {as : List Lit} {c : Call} {answer : Answer}

/-! ### Models -/

/-- A model that is validated after a solve. -/
theorem Concluded.validate {u : Solver} (h : Concluded F s (.ok .sat) u)
    (all : ∀ v : Var, v.index < s.engine.numVars → s.engine.branching.decision.get v = true) :
    u.model.Decides u.engine.numVars ∧ u.model.satisfies F = true ∧ u.validate = true := by
  cases h with
  | sat ready scope status found =>
    have decides : u.model.Decides u.engine.numVars := by
      rw [scope.numVars]
      exact fun v bound => found.decided v bound (all v bound)
    have models := found.models all
    have satisfies := (decides.satisfies_iff ready.known).mpr models
    refine ⟨decides, satisfies, ?_⟩
    unfold Solver.validate
    rw [status, if_neg (by decide)]
    split
    next keep =>
      rw [ready.given keep, ClauseLog.clauses_of]
      exact satisfies
    next => exact satisfiesStored_of_satisfies ready.settled decides models

/-- If all variables may be decided, a solve that ends with a model gives each variable a value, makes a
literal of each accepted clause true, and each assumption. -/
theorem model_of_sat (before : History F s)
    (all : ∀ v : Var, v.index < s.engine.numVars → s.engine.branching.decision.get v = true)
    (solved : s.call steps (.solve as) = .ok (.status .sat, t)) :
    t.engine.numVars = s.engine.numVars ∧
      (∀ v : Var, v.index < s.engine.numVars → t.model.value v ≠ .undecided) ∧
      (∀ c ∈ F, ∃ l ∈ c, t.model.makesTrue l = true) ∧
      (∀ a ∈ s.assumptions.toList ++ as, t.model.makesTrue a = true) ∧
      t.validate = true := by
  rcases before.rests.status_of_solve solved with ⟨unsat, -⟩ | ⟨u, concluded, rfl⟩
  · cases unsat
  · obtain ⟨decides, satisfies, validates⟩ := concluded.validate all
    generalize ended : (Except.ok .sat : Outcome) = outcome at concluded
    cases concluded with
    | sat ready scope status found =>
      refine ⟨scope.numVars, fun v bound => decides v (scope.numVars ▸ bound), fun c given => ?_,
        fun a member => found.assumed a ?_, validates⟩
      · exact List.any_eq_true.mp (List.all_eq_true.mp satisfies c given)
      · simpa [assuming] using member
    | _ => cases ended

/-- Exactly one of two variables holds, and the first one is assumed to. -/
theorem model_of_sat_exactlyOne : ∃ s t,
    History (clausesOf [[1, 2], [-1, -2]]) s ∧
      (∀ v : Var, v.index < s.engine.numVars → s.engine.branching.decision.get v = true) ∧
      s.call 9 (.solve [.ofDimacs 1]) = .ok (.status .sat, t) ∧
      (∀ v : Var, v.index < s.engine.numVars → t.model.value v ≠ .undecided) ∧
      (∀ c ∈ clausesOf [[1, 2], [-1, -2]], ∃ l ∈ c, t.model.makesTrue l = true) ∧
      t.model.makesTrue (.ofDimacs (-2)) = true ∧ t.validate = true := by
  have passes : sessionPasses {} 9 (giving 2 (clausesOf [[1, 2], [-1, -2]]))
      (clausesOf [[1, 2], [-1, -2]])
      (fun s => s.engine.vars.all s.engine.branching.decision.get &&
        s.callPasses 9 (.solve [.ofDimacs 1]) fun answer t =>
          answer.isStatus .sat && t.model.makesTrue (.ofDimacs (-2))) = true := by
    decide +kernel
  obtain ⟨s, history, tests⟩ := exists_of_sessionPasses passes
  obtain ⟨all, solves⟩ := Bool.and_eq_true_iff.mp tests
  have decision (v : Var) (bound : v.index < s.engine.numVars) :
      s.engine.branching.decision.get v = true := List.all_eq_true.mp all v (Engine.mem_vars.mpr bound)
  obtain ⟨answer, t, solved, both⟩ := exists_of_callPasses solves
  obtain ⟨sat, holds⟩ := Bool.and_eq_true_iff.mp both
  rw [Answer.eq_of_isStatus sat] at solved
  obtain ⟨-, decided, satisfied, -, validates⟩ := model_of_sat history decision solved
  exact ⟨s, t, history, decision, solved, decided, satisfied, holds, validates⟩

/-! ### Refutations -/

/-- The ways in which a solver says that the clauses themselves are contradictory. -/
inductive Declares : Call → Answer → Solver → Prop where
  | notOk {c : Call} {answer : Answer} {t : Solver} (notOk : t.engine.ok = false) : Declares c answer t
  | clause {c : List Lit} {t : Solver} : Declares (.obey (.addClause c)) (.boolean false) t
  | block {n : Nat} {c : List Lit} {t : Solver} :
    Declares (.obey (.block n)) (.blocked c (.ok false)) t
  | simplify {t : Solver} : Declares (.obey .simplify) (.boolean false) t
  | vivify {minSize : Nat} {t : Solver} : Declares (.obey (.vivify minSize)) (.boolean false) t
  | solve {as : List Lit} {t : Solver} (core : t.core.toList = []) :
    Declares (.solve as) (.status .unsat) t

theorem Rests.notOk_of_addClause (h : s.Rests F) {d : List Lit}
    (added : s.addClause d = (.ok false, t)) : t.engine.ok = false := by
  rcases h with refuted | ready
  · exact congrArg Engine.ok (addClause_of_not_ok refuted.notOk added).2 |>.trans refuted.notOk
  · exact (ready.addClause added).2.symm

theorem Rests.notOk_of_vivifyQuietly (h : s.Rests F) {minSize : Nat}
    (vivified : s.vivifyQuietly minSize = (.ok false, t)) : t.engine.ok = false := by
  rcases h with refuted | ready
  · unfold vivifyQuietly at vivified
    rw [simplify_of_not_ok refuted.notOk] at vivified
    cases vivified
    exact refuted.notOk
  · obtain ⟨f, noted, tidies⟩ := vivifyQuietly_spec ready.settled ready.zero minSize vivified
    exact (ready.tidies noted tidies).2 rfl

theorem Rests.notOk_of_simplify (h : s.Rests F) (simplified : s.simplify = (.ok false, t)) :
    t.engine.ok = false := by
  rcases h with refuted | ready
  · rw [simplify_of_not_ok refuted.notOk] at simplified
    cases simplified
    exact refuted.notOk
  · obtain ⟨f, noted, tidies, -⟩ := simplify_spec ready.settled.working ready.zero simplified
    exact (ready.tidies noted tidies).2 rfl

/-- Whatever way the solver says it, it knows that the clauses are contradictory. -/
theorem Declares.notOk_of_call (declares : Declares c answer t) (h : s.Rests F)
    (called : s.call steps c = .ok (answer, t)) : t.engine.ok = false := by
  cases declares with
  | notOk notOk => exact notOk
  | clause =>
    change Except.ok (answering (s.addClause _)) = .ok (Answer.boolean false, t) at called
    unfold answering at called
    split at called
    next b u added =>
      cases called
      exact h.notOk_of_addClause added
    next => cases called
  | block =>
    change Except.ok (s.block _) = .ok (Answer.blocked _ (.ok false), t) at called
    unfold Solver.block at called
    injection called with called
    obtain ⟨told, rfl⟩ := Prod.mk.inj called
    injection told with _ refuted
    exact h.notOk_of_addClause (Prod.ext refuted rfl)
  | simplify =>
    change Except.ok (answering s.simplify) = .ok (Answer.boolean false, t) at called
    rcases done : s.simplify with ⟨quiet, u⟩
    rw [done] at called
    cases quiet with
    | ok =>
      cases called
      exact h.notOk_of_simplify done
    | error => cases called
  | @vivify minSize =>
    change Except.ok (answering (s.vivify minSize)) = .ok (Answer.boolean false, t) at called
    unfold Solver.vivify at called
    rcases done : s.vivifyQuietly minSize with ⟨quiet, u⟩
    rw [done] at called
    match quiet with
    | .ok false =>
      have notOk := h.notOk_of_vivifyQuietly done
      cases called
      exact notOk
    | .ok true => cases called
    | .error err => cases called
  | solve core =>
    -- A verdict of a search with an empty core can blame no assumption, so it is a refutation.
    rcases h.status_of_solve called with ⟨-, refuted, -⟩ | ⟨u, concluded, rfl⟩
    · exact refuted.notOk
    · generalize ended : (Except.ok .unsat : Outcome) = outcome at concluded
      cases concluded with
      | refuted refuted => exact refuted.notOk
      | blamed ready blame => exact absurd core blame.nonempty
      | _ => cases ended

/-- If a solver says that the clauses are contradictory, no assignment satisfies those it accepted. -/
theorem unsatisfiable_of_declared (before : History F s) (called : s.call steps c = .ok (answer, t))
    (declares : Declares c answer t) (σ : Valuation) : ¬ σ.satisfies (F ++ c.accepted answer) := by
  have notOk := declares.notOk_of_call before.rests called
  rcases before.rests.call called with refuted | ready
  · exact refuted.unsatisfiable σ
  · exact absurd (ready.settled.ok.symm.trans notOk) nofun

/-- A core that was found before does not matter for a later refutation. -/
theorem unsatisfiable_of_declared_unit : ∃ s t,
    History (clausesOf [[1, 2], [-1, 2], [1, -2]]) s ∧ s.engine.ok = true ∧ s.core.isEmpty = false ∧
      s.call 9 (.obey (.addClause [.ofDimacs (-2)])) = .ok (.boolean false, t) ∧
      Declares (.obey (.addClause [.ofDimacs (-2)])) (.boolean false) t ∧
      ∀ σ : Valuation, ¬ σ.satisfies (clausesOf [[1, 2], [-1, 2], [1, -2]] ++ clausesOf [[-2]]) := by
  have passes : sessionPasses {} 9
      (giving 2 (clausesOf [[1, 2], [-1, 2], [1, -2]]) ++ [.solve [.ofDimacs (-2)]])
      (clausesOf [[1, 2], [-1, 2], [1, -2]])
      (fun s => (s.engine.ok && !s.core.isEmpty) &&
        s.callPasses 9 (.obey (.addClause [.ofDimacs (-2)])) fun answer _ => answer.isFalse) = true := by
    decide +kernel
  obtain ⟨s, history, tests⟩ := exists_of_sessionPasses passes
  obtain ⟨both, adds⟩ := Bool.and_eq_true_iff.mp tests
  obtain ⟨ok, core⟩ := Bool.and_eq_true_iff.mp both
  obtain ⟨answer, t, added, refused⟩ := exists_of_callPasses adds
  rw [Answer.eq_of_isFalse refused] at added
  exact ⟨s, t, history, ok, by simpa using core, added, .clause,
    unsatisfiable_of_declared history added .clause⟩

/-! ### Cores -/

/-- A core that is not empty holds opposites of assumptions of this solve, each once, which the clauses
do not allow to be false together, and the clauses are not known to be contradictory. If the core is
empty, they are. -/
theorem core_of_unsat (before : History F s)
    (solved : s.call steps (.solve as) = .ok (.status .unsat, t)) :
    (t.core.toList ≠ [] →
      (∀ q ∈ t.core.toList, ∃ a ∈ s.assumptions.toList ++ as, q = a.neg) ∧ t.core.toList.Nodup ∧
        (¬ ∃ σ : Valuation, σ.satisfies F ∧ ∀ q ∈ t.core.toList, σ.satisfiesLit q.neg) ∧
        t.engine.ok = true) ∧
      (t.core.toList = [] → t.engine.ok = false) := by
  rcases before.rests.status_of_solve solved with ⟨-, refuted, empty⟩ | ⟨u, concluded, rfl⟩
  · exact ⟨fun some_ => absurd empty some_, fun _ => refuted.notOk⟩
  · generalize ended : (Except.ok .unsat : Outcome) = outcome at concluded
    cases concluded with
    | refuted refuted empty => exact ⟨fun some_ => absurd empty some_, fun _ => refuted.notOk⟩
    | blamed ready core =>
      refine ⟨fun _ => ⟨fun q member => ⟨q.neg, ?_, (Lit.neg_neg q).symm⟩, core.nodup, ?_,
        ready.settled.ok⟩, fun empty => absurd empty core.nonempty⟩
      · simpa [assuming] using core.opposes q member
      · rintro ⟨σ, holds, fails⟩
        obtain ⟨q, member, true_⟩ := core.implied σ holds
        exact (σ.satisfiesLit_neg q).mp (fails q member) true_
    | _ => cases ended

/-- Of three assumptions, the last two cannot both hold. -/
theorem core_of_unsat_chain : ∃ s t,
    History (clausesOf [[-2, 4], [-4, -3]]) s ∧
      s.call 9 (.solve [.ofDimacs 1, .ofDimacs 2, .ofDimacs 3]) = .ok (.status .unsat, t) ∧
      t.core.toList = [.ofDimacs (-3), .ofDimacs (-2)] ∧ t.engine.ok = true ∧
      ¬ ∃ σ : Valuation, σ.satisfies (clausesOf [[-2, 4], [-4, -3]]) ∧
        ∀ q ∈ t.core.toList, σ.satisfiesLit q.neg := by
  have passes : sessionPasses {} 9 (giving 4 (clausesOf [[-2, 4], [-4, -3]]))
      (clausesOf [[-2, 4], [-4, -3]])
      (callPasses 9 (.solve [.ofDimacs 1, .ofDimacs 2, .ofDimacs 3]) fun answer t =>
        answer.isStatus .unsat && t.core.toList == [.ofDimacs (-3), .ofDimacs (-2)]) = true := by
    decide +kernel
  obtain ⟨s, history, solves⟩ := exists_of_sessionPasses passes
  obtain ⟨answer, t, solved, both⟩ := exists_of_callPasses solves
  obtain ⟨unsat, blames⟩ := Bool.and_eq_true_iff.mp both
  rw [Answer.eq_of_isStatus unsat] at solved
  have core := eq_of_beq blames
  obtain ⟨-, -, conflicting, ok⟩ :=
    (core_of_unsat history solved).1 (by rw [core]; exact List.cons_ne_nil _ _)
  exact ⟨s, t, history, solved, core, ok, conflicting⟩

end Solver

end Cdcl
