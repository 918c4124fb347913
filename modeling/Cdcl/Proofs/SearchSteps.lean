import Cdcl.Proofs.AnalysisEnds
import Cdcl.Proofs.SearchCases

/-!
# The search, step by step

Before each step of a search the engine is in working order, and the levels that are open belong to the
literals to assume, as far as there are any. A step keeps this up or ends the search, and what the end
says about the clauses follows from it.

## Main results

- `Searching.step`: no step meets a fault, and what each of them may do.
- `Searching.search`: what is known when a search has ended.
-/

namespace Cdcl

/-- The listener asks for no stop, whenever it is polled. -/
def Listener.NeverStops (l : Listener) : Prop :=
  l.kind = .silent ∨ ∀ rule, l.stopRule = some rule → ∀ k, rule k = false

theorem Listener.NeverStops.poll {l : Listener} (h : l.NeverStops) : l.poll.1 = false := by
  unfold Listener.poll
  split
  · rfl
  · rfl
  next rule present loud =>
    rcases h with silent | quiet
    · exact absurd silent loud
    · exact quiet rule present _

/-- Opposites of assumptions, one of which must hold if the formula does. -/
structure Core (F : List (List Lit)) (assumptions : List Lit) (core : DenseSet Lit) : Prop where
  nonempty : core.toList ≠ []
  nodup : core.toList.Nodup
  opposes : ∀ q ∈ core.toList, q.neg ∈ assumptions
  implied : ∀ σ : Valuation, σ.satisfies F → σ.satisfiesClause core.toList

namespace Engine

variable {F log : List (List Lit)} {as ps : List Lit} {e f : Engine}

/-- How a step of a search that goes on changes the clauses learnt since the last reduction, and what
else it brings closer to an end. -/
inductive Progress (log : List (List Lit)) (e f : Engine) : List (List Lit) → Prop where
  | learnt (d : List Lit)
    (due : f.policy.conflictsBeforeReduction = e.policy.conflictsBeforeReduction - 1)
    (gap : f.policy.reductionGap = e.policy.reductionGap) : Progress log e f (log ++ [d])
  | reduced (reduced : e.Reduced f) : Progress log e f []
  | restarted (was : e.policy.restartPending = true) (now : f.policy.restartPending = false)
    (due : f.policy.conflictsBeforeReduction = e.policy.conflictsBeforeReduction)
    (gap : f.policy.reductionGap = e.policy.reductionGap) : Progress log e f log
  | grown (paced : e.policy.Paced f.policy) (more : e.trail.lits.size < f.trail.lits.size) :
    Progress log e f log

/-! ### Levels of literals to assume -/

section OpenAssumed

theorem getElem?_toAssume {k : Nat} {l : Lit} {b : Bool}
    (at_k : (as.map (·, true) ++ ps.map (·, false))[k]? = some (l, b)) :
    (as ++ ps)[k]? = some l ∧ as[k]? = if b then some l else none := by
  rw [List.getElem?_append, List.length_map] at at_k
  rw [List.getElem?_append]
  split at at_k
  next low =>
    rw [List.getElem?_map, List.getElem?_eq_getElem low] at at_k
    rw [if_pos low, List.getElem?_eq_getElem low]
    cases at_k
    exact ⟨rfl, rfl⟩
  next high =>
    rw [List.getElem?_map] at at_k
    obtain ⟨q, at_q, same⟩ := Option.map_eq_some_iff.mp at_k
    rw [if_neg high]
    cases same
    exact ⟨at_q, List.getElem?_eq_none (by omega)⟩

/-- What is known after the levels of literals that are decided already were opened. -/
inductive Opened (as ps : List Lit) (e : Engine) : Assumed → Prop where
  | all (enough : (as ++ ps).length ≤ e.trail.level) : Opened as ps e .all
  | next {l : Lit} (unassigned : e.trail.value l.var = .undecided)
    (at_level : (as ++ ps)[e.trail.level]? = some l) : Opened as ps e (.next l)
  | violated {l : Lit} (fails : e.trail.isFalse l = true)
    (at_level : as[e.trail.level]? = some l) : Opened as ps e (.violated l)

theorem Working.openAssumed (rest : List (Lit × Bool)) (h : e.Working F log)
    (presumes : e.trail.Presumes as ps) (propagated : e.trail.head = e.trail.lits.size)
    (left : rest = (as.map (·, true) ++ ps.map (·, false)).drop e.trail.level) {a : Assumed}
    (result : Engine.openAssumed rest e = (a, f)) :
    f.Working F log ∧ f.trail.Presumes as ps ∧ e.Framed f ∧ f.trail.lits = e.trail.lits ∧
      f.trail.head = f.trail.lits.size ∧ Opened as ps f a := by
  induction rest generalizing e with
  | nil =>
    cases result
    refine ⟨h, presumes, .refl _, rfl, propagated, .all ?_⟩
    simpa using List.drop_eq_nil_iff.mp left.symm
  | cons entry rest ih =>
    obtain ⟨l, b⟩ := entry
    have at_level : (as.map (·, true) ++ ps.map (·, false))[e.trail.level]? = some (l, b) := by
      rw [← List.head?_drop, ← left]
      rfl
    have left' : rest = (as.map (·, true) ++ ps.map (·, false)).drop e.openLevel.trail.level := by
      have next : e.openLevel.trail.level = e.trail.level + 1 := e.trail.level_openLevel
      rw [next, ← List.tail_drop, ← left]
      rfl
    obtain ⟨both, first⟩ := getElem?_toAssume at_level
    -- A level is opened without a decision if what it is for holds already, or is pure and false.
    have onward (holds : ∀ a, as[e.trail.level]? = some a → a ∈ e.trail.lits)
        (result : Engine.openAssumed rest e.openLevel = (a, f)) :
        f.Working F log ∧ f.trail.Presumes as ps ∧ e.Framed f ∧ f.trail.lits = e.trail.lits ∧
          f.trail.head = f.trail.lits.size ∧ Opened as ps f a := by
      obtain ⟨working, presumes', framed, lits, rest⟩ := ih (h.openLevel propagated)
        (presumes.openLevel h.sound.trail holds) propagated left' result
      exact ⟨working, presumes', (framed_openLevel e).trans framed, lits, rest⟩
    unfold Engine.openAssumed at result
    split at result
    next undecided =>
      cases result
      exact ⟨h, presumes, .refl _, rfl, propagated,
        .next ((Trail.valueLit_eq_undecided_iff _ l).mp undecided) both⟩
    next fails =>
      split at result
      next assumption =>
        cases result
        rw [if_pos assumption] at first
        exact ⟨h, presumes, .refl _, rfl, propagated,
          .violated ((Trail.valueLit_eq_no_iff _ l).mp fails) first⟩
      next pure =>
        refine onward (fun a at_a => ?_) result
        rw [first, if_neg pure] at at_a
        cases at_a
    next holds =>
      refine onward (fun a at_a => ?_) result
      rw [first] at at_a
      split at at_a
      · cases at_a
        exact (h.sound.trail.isTrue_iff l).mp ((e.trail.valueLit_eq_yes_iff l).mp holds)
      · cases at_a

/-- A false assumption is to blame together with the assumptions before it. -/
theorem Working.core (h : e.Working F log) (presumes : e.trail.Presumes as ps) {l : Lit}
    (fails : e.trail.isFalse l = true) (at_level : as[e.trail.level]? = some l) {core : DenseSet Lit}
    (result : e.analyzeFinal l.neg = (f, core)) : f.Working F log ∧ e.Framed f ∧ Core F as core := by
  have coherent := h.sound.trail
  obtain ⟨x, unseen, nodup, inside, decided, implied⟩ :=
    analyzeFinal_spec h.sound ((coherent.isFalse_iff l).mp fails) result
  have below : e.trail.level < as.length := (List.getElem?_eq_some_iff.mp at_level).1
  obtain ⟨pairs, faithful⟩ := h.settled.faithful
  refine ⟨h.examined x unseen, x.framed, List.ne_nil_of_mem inside, nodup, fun q member => ?_,
    fun σ holds => implied σ (faithful.upheld σ holds)⟩
  rcases decided q member with rfl | ⟨d, onTrail, rfl, decision, above⟩
  · rw [Lit.neg_neg]
    exact List.mem_of_getElem? at_level
  · have le := coherent.levelOf_le onTrail
    have low : e.trail.levelOf d.var - 1 < as.length := by omega
    have at_d : (as ++ ps)[e.trail.levelOf d.var - 1]? = some as[e.trail.levelOf d.var - 1] := by
      rw [List.getElem?_append_left low, List.getElem?_eq_getElem low]
    rw [Lit.neg_neg, presumes.decided d onTrail decision above _ at_d]
    exact List.getElem_mem low

end OpenAssumed

/-- A conflict above level zero can be learnt from, unless the clause finds no room. -/
theorem handleConflict_total {aside : List ClauseId} (sound : e.Sound aside) {c : Conflict}
    (conflict : e.IsConflict c) (positive : e.trail.level ≠ 0) :
    ∃ handled f, e.handleConflict c = .ok (handled, f) := by
  obtain ⟨f, learnt, analyzed⟩ := analyze_total sound conflict positive
  unfold Engine.handleConflict
  dsimp only
  rw [analyzed]
  dsimp only
  split
  · exact ⟨_, _, rfl⟩
  · exact ⟨_, _, rfl⟩

/-- What a step comes to after a propagation. -/
theorem Progress.of_paced {more : List (List Lit)} {b : Engine} (h : Progress log e f more)
    (paced : b.policy.Paced e.policy) (opts : e.opts = b.opts)
    (le : b.trail.lits.size ≤ e.trail.lits.size) : Progress log b f more := by
  cases h with
  | learnt d due gap => exact .learnt d (paced.due ▸ due) (paced.gap ▸ gap)
  | reduced reduced =>
    exact .reduced ⟨paced.due ▸ reduced.was, paced.gap ▸ opts ▸ reduced.gap, reduced.due⟩
  | restarted was now due gap =>
    exact .restarted (paced.pending ▸ was) now (paced.due ▸ due) (paced.gap ▸ gap)
  | grown paced' more => exact .grown (paced.trans paced') (by omega)

/-- What a step comes to after a restart. -/
theorem Progress.after_restart {more : List (List Lit)} {b : Engine} (h : Progress log e f more)
    (was : b.policy.restartPending = true) (now : e.policy.restartPending = false)
    (due : e.policy.conflictsBeforeReduction = b.policy.conflictsBeforeReduction)
    (gap : e.policy.reductionGap = b.policy.reductionGap) (opts : e.opts = b.opts) :
    Progress log b f more := by
  cases h with
  | learnt d due' gap' => exact .learnt d (due ▸ due') (gap ▸ gap')
  | reduced reduced => exact .reduced ⟨due ▸ reduced.was, gap ▸ opts ▸ reduced.gap, reduced.due⟩
  | restarted was' => exact absurd (was'.symm.trans now) nofun
  | grown paced => exact .restarted was (paced.pending.trans now) (paced.due.trans due) (paced.gap.trans gap)

end Engine

namespace Solver

variable {F log : List (List Lit)} {s t u : Solver}

/-- A stop is requested only if the user or the listener asks for it. -/
theorem asked_of_stopRequested (result : s.stopRequested = (true, t)) :
    t.interrupted = true ∨ ¬ t.listener.NeverStops := by
  unfold stopRequested at result
  split at result
  next interrupted =>
    cases result
    exact .inl interrupted
  next =>
    refine .inr fun never => ?_
    obtain ⟨stop, rfl⟩ := Prod.mk.inj result
    have quiet : s.listener.NeverStops := by
      unfold Listener.NeverStops at never ⊢
      rw [← s.listener.kind_poll, ← s.listener.stopRule_poll]
      exact never
    exact absurd (stop.symm.trans quiet.poll) nofun

/-- In the course of a search. -/
structure Searching (F log : List (List Lit)) (s : Solver) : Prop where
  working : s.engine.Working F log
  presumes : s.engine.trail.Presumes s.assumptions.toList s.pureLits.toList
  bounded : ∀ l ∈ s.assumptions.toList ++ s.pureLits.toList, l.var.index < s.engine.numVars
  core : s.core.isEmpty = true

/-- What is known when a search that began with `s` has ended, before it is undone. -/
inductive Ended (F : List (List Lit)) (s : Solver) : Outcome → Solver → Prop where
  | sat {t : Solver} {log : List (List Lit)} (searching : t.Searching F log) (task : s.SameTask t)
    (propagated : t.engine.trail.head = t.engine.trail.lits.size)
    (complete : ∀ v : Var, v.index < t.engine.numVars → t.engine.branching.decision.get v = true →
      t.engine.trail.value v ≠ .undecided)
    (assumed : ∀ a ∈ t.assumptions.toList, a ∈ t.engine.trail.lits) : Ended F s (.ok .sat) t
  | refuted {t : Solver} (core : t.core.isEmpty = true)
    (unsatisfiable : ∀ σ : Valuation, ¬ σ.satisfies F) : Ended F s (.ok .unsat) t
  | blamed {t : Solver} {log : List (List Lit)} (working : t.engine.Working F log)
    (task : s.SameTask t) (core : Core F t.assumptions.toList t.core) : Ended F s (.ok .unsat) t
  | interrupted {t : Solver} {log : List (List Lit)} (working : t.engine.Working F log)
    (task : s.SameTask t) (asked : t.interrupted = true ∨ ¬ t.listener.NeverStops) :
    Ended F s (.ok .interrupted) t
  | unknown {t : Solver} {log : List (List Lit)} (working : t.engine.Working F log)
    (task : s.SameTask t)
    (limited : (∃ stats, t.budget.isOpen stats = false) ∨ t.budget.deadline ≠ none) :
    Ended F s (.ok .unknown) t
  | failed {t : Solver} {log : List (List Lit)} {err : SolverError} (working : t.engine.Working F log)
    (task : s.SameTask t) (full : NoRoom t.engine.numVars err) : Ended F s (.error err) t

theorem Ended.of_sameTask {outcome : Outcome} (h : Ended F t outcome u) (task : s.SameTask t) :
    Ended F s outcome u := by
  cases h with
  | sat searching task' propagated complete assumed =>
    exact .sat searching (task.trans task') propagated complete assumed
  | refuted core unsatisfiable => exact .refuted core unsatisfiable
  | blamed working task' core => exact .blamed working (task.trans task') core
  | interrupted working task' asked => exact .interrupted working (task.trans task') asked
  | unknown working task' limited => exact .unknown working (task.trans task') limited
  | failed working task' full => exact .failed working (task.trans task') full

/-- What a step of a search may come to. -/
inductive Stepped (F log : List (List Lit)) (s : Solver) : StepResult → Solver → Prop where
  | continue {t : Solver} {more : List (List Lit)} (searching : t.Searching F more)
    (task : s.SameTask t) (progress : s.engine.Progress log t.engine more) :
    Stepped F log s .continue t
  | finished {t : Solver} {status : Status} (ended : Ended F s (.ok status) t) :
    Stepped F log s (.finished status) t
  | failed {t : Solver} {err : SolverError} (ended : Ended F s (.error err) t) :
    Stepped F log s (.failed err) t

/-- What the listener remembers does not matter to a search. -/
theorem Searching.noted (h : s.Searching F log) (noted : s.Noted t) : t.Searching F log := by
  rw [noted.rest]
  exact ⟨h.working, h.presumes, h.bounded, h.core⟩

theorem Stepped.of_noted {r : StepResult} (h : Stepped F log t r u) (noted : s.Noted t) :
    Stepped F log s r u := by
  have task := noted.sameTask (.refl _)
  cases h with
  | «continue» searching task' progress =>
    exact .continue searching (task.trans task') (noted.engine ▸ progress)
  | finished ended => exact .finished (ended.of_sameTask task)
  | failed ended => exact .failed (ended.of_sameTask task)

/-- What a decision may come to. -/
inductive Branched (F log : List (List Lit)) (s : Solver) : StepResult → Solver → Prop where
  | decided {t : Solver} (searching : t.Searching F log) (task : s.SameTask t)
    (paced : s.engine.policy.Paced t.engine.policy)
    (grown : s.engine.trail.lits.size < t.engine.trail.lits.size) : Branched F log s .continue t
  | ended {t : Solver} {status : Status} (ended : Ended F s (.ok status) t) :
    Branched F log s (.finished status) t

section Decide

variable {e : Engine} {l : Lit}

/-- A literal that is free may open the next level, if it is the next one to assume or none is left. -/
theorem Searching.decide (h : s.Searching F log) (working : (e.decide l).Working F log)
    (presumes : (e.decide l).trail.Presumes s.assumptions.toList s.pureLits.toList)
    (scope : s.engine.Scoped e) (paced : s.engine.policy.Paced e.policy)
    (lits : e.trail.lits = s.engine.trail.lits) :
    Branched F log s .continue { s with engine := e.decide l } := by
  have framed := Engine.framed_decide e l
  refine .decided ⟨working, presumes, ?_, h.core⟩ ?_ (paced.trans framed.paced) ?_
  · exact fun q member => scope.numVars ▸ h.bounded q member
  · exact ⟨rfl, rfl, rfl, rfl, rfl, rfl, scope.trans framed.toScoped⟩
  · change _ < (e.trail.lits.push l).size
    rw [Array.size_push, lits]
    omega

end Decide

/-- Assuming or deciding the next literal. -/
theorem Searching.branch (h : s.Searching F log)
    (propagated : s.engine.trail.head = s.engine.trail.lits.size) {r : StepResult}
    (result : s.branch = (r, t)) : Branched F log s r t := by
  have opens {a : Assumed} {e : Engine} (opened : s.engine.openAssumed s.toAssume = (a, e)) :=
    h.working.openAssumed _ h.presumes propagated rfl opened
  cases branch_cases result with
  | @assumed l e opened =>
    obtain ⟨working, presumes, framed, lits, propagated', opened⟩ := opens opened
    cases opened with
    | next unassigned at_level =>
      have bound : l.var.index < e.numVars :=
        framed.numVars ▸ h.bounded l (List.mem_of_getElem? at_level)
      refine h.decide (working.decide propagated' unassigned bound) ?_ framed.toScoped framed.paced lits
      refine presumes.decide working.sound.trail propagated' unassigned fun a at_a => ?_
      exact Option.some.inj (at_level.symm.trans at_a)
  | @blamed l e f core opened analyzed =>
    obtain ⟨working, presumes, framed, -, -, opened⟩ := opens opened
    cases opened with
    | violated fails at_level =>
      obtain ⟨working', framed', core⟩ := working.core presumes fails at_level analyzed
      exact .ended (.blamed working'
        ⟨rfl, rfl, rfl, rfl, rfl, rfl, framed.toScoped.trans framed'.toScoped⟩ core)
  | @exhausted e f opened picked =>
    obtain ⟨working, presumes, framed, -, propagated', opened⟩ := opens opened
    obtain ⟨framed', trail, spec⟩ := (working.modifyStats _).pickLit propagated' picked
    have scope : s.engine.Scoped f := framed.toScoped.trans { framed'.toScoped with }
    have trail : f.trail = e.trail := trail
    cases opened with
    | all enough =>
      refine .ended (.sat ⟨spec.1, ?_, ?_, h.core⟩ ⟨rfl, rfl, rfl, rfl, rfl, rfl, scope⟩ ?_ ?_ ?_)
      · exact trail ▸ presumes
      · exact fun q member => scope.numVars ▸ h.bounded q member
      · exact trail ▸ propagated'
      · intro v bound allowed
        have numVars : f.numVars = e.numVars := framed'.numVars
        have decision : f.branching.decision = e.branching.decision := framed'.decision
        dsimp only at bound allowed ⊢
        rw [trail]
        exact spec.2 v (numVars ▸ bound) (decision ▸ allowed)
      · -- Each assumption has a level, and was true before it or is its decision.
        intro a member
        obtain ⟨k, low, at_k⟩ := List.getElem_of_mem member
        dsimp only at low at_k ⊢
        rw [List.length_append] at enough
        rw [trail]
        exact (presumes.assumed k a (by omega) (List.getElem?_eq_some_iff.mpr ⟨low, at_k⟩)).1
  | @picked l e f opened picked =>
    obtain ⟨working, presumes, framed, lits, propagated', opened⟩ := opens opened
    obtain ⟨framed', trail, spec⟩ := (working.modifyStats _).pickLit propagated' picked
    have trail : f.trail = e.trail := trail
    have paced : e.policy.Paced f.policy := framed'.paced
    cases opened with
    | all enough =>
      refine h.decide spec.1 ?_ (framed.toScoped.trans { framed'.toScoped with })
        (framed.paced.trans paced) (trail ▸ lits)
      have coherent := working.sound.trail
      refine Trail.Presumes.decide (trail ▸ presumes) (trail ▸ coherent) (trail ▸ propagated')
        (trail ▸ spec.2) fun a at_a => ?_
      rw [trail, List.getElem?_eq_none enough] at at_a
      cases at_a

/-- Upkeep leaves the search ready to go on at level zero. -/
theorem Searching.upkept (h : s.Searching F log) (zero : s.engine.trail.level = 0)
    (called : s.upkeep = (.done, t)) : ∃ more, t.Searching F more ∧ s.SameTask t ∧
      t.engine.trail.level = 0 ∧ t.engine.trail.head = t.engine.trail.lits.size ∧
      s.engine.Tends log t.engine more := by
  cases upkeep_spec h.working zero called with
  | @done _ more working task level propagated core pure tends =>
    refine ⟨more, ⟨working, .of_level_zero working.sound.trail level, ?_, core ▸ h.core⟩, task, level,
      propagated, tends⟩
    rw [task.assumptions, task.scope.numVars]
    intro l member
    rcases List.mem_append.mp member with inside | inside
    · exact h.bounded l (List.mem_append_left _ inside)
    · rcases pure l (Array.mem_toList_iff.mp inside) with old | bound
      · exact h.bounded l (List.mem_append_right _ (Array.mem_toList_iff.mpr old))
      · exact bound

/-- At level zero, upkeep comes before the next decision. -/
theorem Searching.rest (h : s.Searching F log) (zero : s.engine.trail.level = 0) {r : StepResult}
    (rests : s.Resting r t) : Stepped F log s r t := by
  cases rests with
  | refuted upkept =>
    cases upkeep_spec h.working zero upkept with
    | refuted refuted core => exact .finished (.refuted (core ▸ h.core) refuted.unsatisfiable)
  | failed upkept =>
    cases upkeep_spec h.working zero upkept with
    | failed working task requested limit => exact .failed (.failed working task (.arena requested limit))
  | propagateFirst upkept =>
    cases upkeep_spec h.working zero upkept with
    | propagateFirst working task level core pure reduced =>
      refine .continue ⟨working, .of_level_zero working.sound.trail level, ?_, core ▸ h.core⟩ task
        (.reduced reduced)
      rw [task.assumptions, pure, task.scope.numVars]
      exact h.bounded
  | decided upkept decides =>
    obtain ⟨more, searching, task, -, propagated, tends⟩ := h.upkept zero upkept
    cases searching.branch propagated decides with
    | ended ended => exact .finished (ended.of_sameTask task)
    | decided searching' task' paced grown =>
      refine .continue searching' (task.trans task') ?_
      cases tends with
      | idle paced' grown' => exact .grown (paced'.trans paced) (by omega)
      | reduced reduced =>
        exact .reduced ⟨reduced.was, paced.gap.trans reduced.gap,
          paced.due.trans (reduced.due.trans paced.gap.symm)⟩

/-- A restart takes the search back to level zero. -/
theorem Searching.restart (h : s.Searching F log) :
    s.restart.Searching F log ∧ s.SameTask s.restart ∧ s.restart.engine.trail.level = 0 ∧
      s.restart.engine.policy.restartPending = false ∧
      s.restart.engine.policy.conflictsBeforeReduction = s.engine.policy.conflictsBeforeReduction ∧
      s.restart.engine.policy.reductionGap = s.engine.policy.reductionGap := by
  obtain ⟨f, noted, working, scope, zero, now, due, gap⟩ := restart_spec h.working
  have engine : s.restart.engine = f := noted.engine
  have task : s.SameTask s.restart := noted.sameTask scope
  rw [← engine] at working zero now due gap
  refine ⟨⟨working, .of_level_zero working.sound.trail zero, ?_, noted.core.symm ▸ h.core⟩, task, zero, now,
    due, gap⟩
  rw [task.assumptions, noted.pureLits, task.scope.numVars]
  exact h.bounded

theorem Searching.resumed (h : s.Searching F log) : s.resumed.Searching F log ∧
    s.resumed.assumptions = s.assumptions ∧ s.resumed.pureLits = s.pureLits := by
  unfold Solver.resumed
  split
  · obtain ⟨f, noted, -⟩ := restart_spec h.working
    exact ⟨h.restart.1, h.restart.2.1.assumptions, noted.pureLits⟩
  · exact ⟨h, rfl, rfl⟩

/-- A step after a propagation without conflict. -/
theorem Searching.advance (h : s.Searching F log)
    (propagated : s.engine.trail.head = s.engine.trail.lits.size) {r : StepResult}
    (result : s.advance = (r, t)) : Stepped F log s r t := by
  cases advance_cases result with
  | limited checked =>
    obtain ⟨noted, closed⟩ := noted_withinBudget checked
    have task := noted.sameTask (.refl _)
    refine .finished (.unknown (h.noted noted).working task ?_)
    rw [task.budget]
    exact (closed rfl).imp_left fun closed => ⟨_, closed⟩
  | @rested _ u _ checked zero rests =>
    have noted := (noted_withinBudget checked).1
    have h := h.noted noted
    refine Stepped.of_noted ?_ noted
    unfold Solver.resumed at zero rests
    split at rests
    -- The restart gives up literals. That is still progress, as none is pending after it.
    next pending =>
      obtain ⟨restarted, task, level, now, due, gap⟩ := h.restart
      cases restarted.rest level rests with
      | finished ended => exact .finished (ended.of_sameTask task)
      | failed ended => exact .failed (ended.of_sameTask task)
      | «continue» searching task' progress =>
        exact .continue searching (task.trans task')
          (progress.after_restart pending now due gap task.scope.opts)
    next calm =>
      rw [if_neg calm] at zero
      exact h.rest zero rests
  | decided checked calm positive decides =>
    have noted := (noted_withinBudget checked).1
    rw [← noted.engine] at propagated
    refine Stepped.of_noted ?_ noted
    cases (h.noted noted).branch propagated decides with
    | ended ended => exact .finished ended
    | decided searching task paced grown => exact .continue searching task (.grown paced grown)

theorem Searching.proceeds (h : s.Searching F log) (proceeds : s.Proceeds t) :
    t.Searching F log ∧ s.SameTask t ∧ s.engine.Extends t.engine ∧
      t.engine.trail.head = t.engine.trail.lits.size := by
  obtain ⟨asked, result⟩ := proceeds
  next u e =>
  have noted := noted_stopRequested asked
  have task : s.SameTask u := noted.sameTask (.refl _)
  rw [show u.engine = s.engine from noted.engine] at result
  obtain ⟨working, grown, finished⟩ := h.working.propagate result
  have scope := grown.framed.toScoped
  have presumes := grown.presumes h.working.sound.trail working.sound.trail h.presumes
  refine ⟨⟨working, ?_, ?_, noted.core ▸ h.core⟩, ⟨task.assumptions, task.given, task.budget,
    task.interrupted, task.kind, task.stopRule, scope⟩, grown, finished⟩
  · dsimp only
    rw [task.assumptions, noted.pureLits]
    exact presumes
  · dsimp only
    rw [task.assumptions, noted.pureLits, scope.numVars]
    exact h.bounded

/-- What a conflict may lead to. -/
inductive Handles (F log : List (List Lit)) (s : Solver) : StepResult → Solver → Prop where
  | learnt {t : Solver} (d : List Lit) (searching : t.Searching F (log ++ [d])) (task : s.SameTask t)
    (due : t.engine.policy.conflictsBeforeReduction = s.engine.policy.conflictsBeforeReduction - 1)
    (gap : t.engine.policy.reductionGap = s.engine.policy.reductionGap) : Handles F log s .continue t
  | finished {t : Solver} {status : Status} (ended : Ended F s (.ok status) t) :
    Handles F log s (.finished status) t
  | failed {t : Solver} {err : SolverError} (ended : Ended F s (.error err) t) :
    Handles F log s (.failed err) t

theorem Searching.conflicts (h : s.Searching F log) {e : Engine} {c : Conflict}
    (conflicts : s.Conflicts e c u) : ∃ r t, s.searchStep = .ok (r, t) ∧ Handles F log s r t := by
  obtain ⟨asked, result⟩ := conflicts
  unfold Solver.searchStep
  rw [asked]
  dsimp only
  rw [result]
  have noted := noted_stopRequested asked
  have task : s.SameTask u := noted.sameTask (.refl _)
  rw [show u.engine = s.engine from noted.engine] at result
  have core : u.core.isEmpty = true := noted.core ▸ h.core
  have sameTask {f : Engine} (scope : s.engine.Scoped f) : s.SameTask { u with engine := f } :=
    ⟨task.assumptions, task.given, task.budget, task.interrupted, task.kind, task.stopRule, scope⟩
  obtain ⟨grown, sound, refuted, conflict⟩ := h.working.conflict result
  dsimp only
  split
  next zero => exact ⟨_, _, rfl, .finished (.refuted core (refuted zero))⟩
  -- Above level zero an analysis cannot fail, and what it learns is stored unless there is no room.
  next positive =>
    obtain ⟨handled, f, learnt⟩ := Engine.handleConflict_total
      (e := e.modifyStats fun st => { st with conflicts := st.conflicts + 1 })
      { sound with } conflict positive
    obtain ⟨scope, down, outcome⟩ := h.working.handleConflict result positive _ learnt
    rw [learnt]
    cases handled with
    | learnt =>
      obtain ⟨⟨d, working⟩, due, gap⟩ := outcome
      refine ⟨_, _, rfl, .learnt d ⟨working, ?_, ?_, core⟩ (sameTask scope) due gap⟩
      · dsimp only
        rw [task.assumptions, noted.pureLits]
        exact (grown.presumes h.working.sound.trail sound.trail h.presumes).descends sound.trail down
      · dsimp only
        rw [task.assumptions, noted.pureLits, scope.numVars]
        exact h.bounded
    | failed err =>
      obtain ⟨working, full⟩ := outcome
      exact ⟨_, _, rfl, .failed (.failed working (sameTask scope) (scope.numVars.symm ▸ full))⟩

/-- A step of a search meets no fault, and is answered for. -/
theorem Searching.step (h : s.Searching F log) :
    ∃ r t, s.searchStep = .ok (r, t) ∧ Stepped F log s r t := by
  rcases asked : s.stopRequested with ⟨stop, u⟩
  cases stop with
  | true =>
    have noted := noted_stopRequested asked
    have working : u.engine.Working F log := noted.engine.symm ▸ h.working
    refine ⟨.finished .interrupted, u, by unfold Solver.searchStep; rw [asked], .finished ?_⟩
    exact .interrupted working (noted.sameTask (.refl _)) (asked_of_stopRequested asked)
  | false =>
    rcases propagated : u.engine.propagate with ⟨e, conflict⟩
    cases conflict with
    | none =>
      obtain ⟨searching, task, grown, finished⟩ := h.proceeds (.mk asked propagated)
      rcases advanced : Solver.advance { u with engine := e } with ⟨r, t⟩
      refine ⟨r, t, ?_, ?_⟩
      · unfold Solver.searchStep
        rw [asked]
        dsimp only
        rw [propagated]
        exact congrArg Except.ok advanced
      cases searching.advance finished advanced with
      | finished ended => exact .finished (ended.of_sameTask task)
      | failed ended => exact .failed (ended.of_sameTask task)
      | «continue» searching' task' progress =>
        exact .continue searching' (task.trans task')
          (progress.of_paced grown.paced grown.opts grown.size_le)
    | some c =>
      obtain ⟨r, t, stepped, handles⟩ := h.conflicts (.mk asked propagated)
      refine ⟨r, t, stepped, ?_⟩
      cases handles with
      | learnt d searching task due gap => exact .continue searching task (.learnt d due gap)
      | finished ended => exact .finished ended
      | failed ended => exact .failed ended

/-- What is known when a search has ended. -/
theorem Searching.search (n : Nat) (h : s.Searching F log) {outcome : Outcome}
    (result : Solver.search n s = .ok (outcome, t)) : Ended F s outcome t := by
  induction n generalizing s log with
  | zero => cases result
  | succ n ih =>
    obtain ⟨r, u, stepped, step⟩ := h.step
    unfold Solver.search at result
    rw [stepped] at result
    cases step with
    | «continue» searching task progress => exact (ih searching result).of_sameTask task
    | finished ended =>
      cases result
      exact ended
    | failed ended =>
      cases result
      exact ended

end Solver

end Cdcl
