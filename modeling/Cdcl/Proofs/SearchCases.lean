import Cdcl.Proofs.Upkeep

/-!
# The ways of a step of a search

What a step of a search does, one constructor for each way that it may go, with the calls it makes on
that way. Nothing is asked of the state before: whoever knows more of it has the calls to go on from.

## Main results

- `branch_cases`, `rest_cases`, `advance_cases`: the parts of a step.
- `searchStep_cases`: a whole step.
-/

namespace Cdcl

/-- One more conflict. -/
def Engine.clashed (e : Engine) : Engine := e.modifyStats fun st => { st with conflicts := st.conflicts + 1 }

namespace Solver

variable {s t u : Solver} {r : StepResult}

/-! ### Deciding -/

/-- The literals to assume that have no level of their own yet. -/
def toAssume (s : Solver) : List (Lit × Bool) :=
  (s.assumptions.toList.map (·, true) ++ s.pureLits.toList.map (·, false)).drop s.engine.trail.level

/-- How a level is opened, or the search ends because none is left to open. -/
inductive Deciding (s : Solver) : StepResult → Solver → Prop where
  | assumed {l : Lit} {e : Engine} (opened : s.engine.openAssumed s.toAssume = (.next l, e)) :
    Deciding s .continue { s with engine := e.decide l }
  | blamed {l : Lit} {e f : Engine} {core : DenseSet Lit}
    (opened : s.engine.openAssumed s.toAssume = (.violated l, e))
    (analyzed : e.analyzeFinal l.neg = (f, core)) :
    Deciding s (.finished .unsat) { s with engine := f, core }
  | exhausted {e f : Engine} (opened : s.engine.openAssumed s.toAssume = (.all, e))
    (picked : (e.modifyStats fun st => { st with decisions := st.decisions + 1 }).pickLit = (none, f)) :
    Deciding s (.finished .sat) { s with engine := f }
  | picked {l : Lit} {e f : Engine} (opened : s.engine.openAssumed s.toAssume = (.all, e))
    (picked : (e.modifyStats fun st => { st with decisions := st.decisions + 1 }).pickLit = (some l, f)) :
    Deciding s .continue { s with engine := f.decide l }

theorem branch_cases (result : s.branch = (r, t)) : s.Deciding r t := by
  unfold branch at result
  dsimp only at result
  split at result
  next opened =>
    cases result
    exact .assumed opened
  next opened =>
    cases result
    exact .blamed opened rfl
  next opened =>
    split at result
    next picked =>
      cases result
      exact .exhausted opened picked
    next picked =>
      cases result
      exact .picked opened picked

/-! ### Upkeep -/

/-- How upkeep goes: what comes after simplification depends on what that came to. -/
inductive Maintaining (s : Solver) : Upkeep → Solver → Prop where
  | failed {err : SolverError} {t : Solver} (simplified : s.simplify = (.error err, t)) :
    Maintaining s (.failed err) t
  | refuted {t : Solver} (simplified : s.simplify = (.ok false, t)) : Maintaining s .refuted t
  | broken {t v : Solver} {u : Upkeep} (simplified : s.simplify = (.ok true, t))
    (reduced : t.reduceIfDue = (u, v)) (undone : u ≠ .done) : Maintaining s u v
  | done {t v : Solver} (simplified : s.simplify = (.ok true, t)) (reduced : t.reduceIfDue = (.done, v)) :
    Maintaining s .done (if v.pureLitsStale then v.findPureLits else v)

theorem upkeep_cases {u : Upkeep} (result : s.upkeep = (u, t)) : s.Maintaining u t := by
  unfold upkeep at result
  split at result
  next simplified =>
    cases result
    exact .failed simplified
  next simplified =>
    cases result
    exact .refuted simplified
  next simplified =>
    split at result
    next reduced =>
      cases result
      exact .done simplified reduced
    next undone =>
      exact .broken simplified result fun same => undone t (same ▸ result)

/-! ### Going on -/

/-- The state in which a step goes on: restarted, if that is due. -/
def resumed (s : Solver) : Solver := if s.engine.policy.restartPending then s.restart else s

theorem level_restart (s : Solver) : s.restart.engine.trail.level = 0 := by
  rw [(noted_restart s).engine]
  exact Engine.level_cancelTo_zero _

/-- How a step goes on at level zero, where upkeep comes first. -/
inductive Resting (s : Solver) : StepResult → Solver → Prop where
  | refuted {t : Solver} (upkept : s.upkeep = (.refuted, t)) : Resting s (.finished .unsat) t
  | failed {err : SolverError} {t : Solver} (upkept : s.upkeep = (.failed err, t)) :
    Resting s (.failed err) t
  | propagateFirst {t : Solver} (upkept : s.upkeep = (.propagateFirst, t)) : Resting s .continue t
  | decided {r : StepResult} {t u : Solver} (upkept : s.upkeep = (.done, t))
    (decides : t.branch = (r, u)) : Resting s r u

/-- How a step goes on after a propagation without conflict. -/
inductive Advancing (s : Solver) : StepResult → Solver → Prop where
  | limited {t : Solver} (checked : s.withinBudget = (false, t)) : Advancing s (.finished .unknown) t
  | rested {r : StepResult} {t u : Solver} (checked : s.withinBudget = (true, t))
    (zero : t.resumed.engine.trail.level = 0) (rests : t.resumed.Resting r u) : Advancing s r u
  | decided {r : StepResult} {t u : Solver} (checked : s.withinBudget = (true, t))
    (calm : t.engine.policy.restartPending = false) (positive : t.engine.trail.level ≠ 0)
    (decides : t.branch = (r, u)) : Advancing s r u

theorem advance_cases (result : s.advance = (r, t)) : s.Advancing r t := by
  unfold advance at result
  split at result
  next checked =>
    cases result
    exact .limited checked
  next u checked =>
    change (if u.resumed.engine.trail.level = 0 then _ else u.resumed.branch) = _ at result
    split at result
    next zero =>
      refine .rested checked zero ?_
      split at result
      next upkept =>
        cases result
        exact .refuted upkept
      next upkept =>
        cases result
        exact .failed upkept
      next upkept =>
        cases result
        exact .propagateFirst upkept
      next upkept => exact .decided upkept result
    next positive =>
      -- A restart leads to level zero.
      unfold resumed at positive result
      split at positive
      · exact absurd u.level_restart positive
      next calm =>
        rw [if_neg calm] at result
        exact .decided checked (Bool.eq_false_iff.mpr calm) positive result

/-! ### Steps -/

/-- No stop was requested, and a propagation met no conflict. -/
inductive Proceeds (s : Solver) : Solver → Prop where
  | mk {t : Solver} {e : Engine} (asked : s.stopRequested = (false, t))
    (result : t.engine.propagate = (e, none)) : Proceeds s { t with engine := e }

/-- No stop was requested, and a propagation met a conflict. -/
inductive Conflicts (s : Solver) : Engine → Conflict → Solver → Prop where
  | mk {t : Solver} {e : Engine} {c : Conflict} (asked : s.stopRequested = (false, t))
    (result : t.engine.propagate = (e, some c)) : Conflicts s e c t

/-- How a step goes. -/
inductive Stepping (s : Solver) : StepResult → Solver → Prop where
  | stopped {t : Solver} (asked : s.stopRequested = (true, t)) : Stepping s (.finished .interrupted) t
  | advanced {r : StepResult} {t u : Solver} (proceeds : s.Proceeds t) (advances : t.advance = (r, u)) :
    Stepping s r u
  | refuted {e : Engine} {c : Conflict} {t : Solver} (conflicts : s.Conflicts e c t)
    (zero : e.trail.level = 0) : Stepping s (.finished .unsat) { t with engine := e.clashed }
  | failed {e f : Engine} {c : Conflict} {t : Solver} {err : SolverError} (conflicts : s.Conflicts e c t)
    (positive : e.trail.level ≠ 0) (handled : e.clashed.handleConflict c = .ok (.failed err, f)) :
    Stepping s (.failed err) { t with engine := f }
  | learnt {e f : Engine} {c : Conflict} {t : Solver} (conflicts : s.Conflicts e c t)
    (positive : e.trail.level ≠ 0) (handled : e.clashed.handleConflict c = .ok (.learnt, f)) :
    Stepping s .continue { t with engine := f }

theorem searchStep_cases (result : s.searchStep = .ok (r, t)) : s.Stepping r t := by
  unfold searchStep at result
  split at result
  next asked =>
    cases result
    exact .stopped asked
  next asked =>
    split at result
    next propagated => exact .advanced (.mk asked propagated) (Except.ok.inj result)
    next propagated =>
      have conflicts := Conflicts.mk asked propagated
      dsimp only at result
      split at result
      next zero =>
        cases result
        exact .refuted conflicts zero
      next positive =>
        split at result
        · cases result
        next handled =>
          cases result
          exact .failed conflicts positive handled
        next handled =>
          cases result
          exact .learnt conflicts positive handled

/-- A step that meets a conflict and goes on has learnt from it. -/
theorem Conflicts.handled {e : Engine} {c : Conflict} (conflicts : s.Conflicts e c u)
    (stepped : s.searchStep = .ok (.continue, t)) : e.clashed.handleConflict c = .ok (.learnt, t.engine) := by
  obtain ⟨asked, run⟩ := conflicts
  cases searchStep_cases stepped with
  | advanced proceeds =>
    obtain ⟨asked', run'⟩ := proceeds
    cases asked.symm.trans asked'
    cases run.symm.trans run'
  | learnt conflicts' positive handled =>
    obtain ⟨asked', run'⟩ := conflicts'
    cases asked.symm.trans asked'
    cases run.symm.trans run'
    exact handled

end Solver

end Cdcl
