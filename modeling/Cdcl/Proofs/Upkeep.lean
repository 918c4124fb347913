import Cdcl.Proofs.Epochs
import Cdcl.Proofs.Vivified
import Cdcl.Solver.Solve

/-!
# Upkeep between decisions

At level zero a solver simplifies its clauses, reduces those it learnt, and collects garbage. Each of
these keeps the engine in working order or refutes the formula; a lack of room is reported, and leaves
the engine as good as before.

## Main results

- `simplify_spec`, `vivifyQuietly_spec`: what the user can ask for as well.
- `restart_spec`, `upkeep_spec`: what only a search does.
-/

namespace Cdcl

namespace Listener

theorem kind_poll (l : Listener) : l.poll.2.kind = l.kind := by
  unfold poll
  split <;> rfl

theorem stopRule_poll (l : Listener) : l.poll.2.stopRule = l.stopRule := by
  unfold poll
  split <;> rfl

end Listener

namespace Engine

variable {F log : List (List Lit)} {e f g : Engine}

/-- The second engine came from the first one by upkeep at level zero, and has nothing left to
propagate. -/
structure Tidied (F log : List (List Lit)) (e f : Engine) : Prop where
  working : f.Working F log
  framed : e.Framed f
  zero : f.trail.level = 0
  propagated : f.trail.head = f.trail.lits.size

theorem Tidied.quiet (h : Tidied F log e f) : f.Quiet F := ⟨h.working.settled, h.zero, h.propagated⟩

/-- Changes that leave the trail as it is. -/
theorem Tidied.trans (h : Tidied F log e f) (working : g.Working F log) (framed : f.Framed g)
    (same : f.trail.Same g.trail) : Tidied F log e g where
  working := working
  framed := h.framed.trans framed
  zero := same.level.trans h.zero
  propagated := by
    rw [same.head, same.lits]
    exact h.propagated

/-- A reduction was due, and the next one is after a longer gap. -/
structure Reduced (e f : Engine) : Prop where
  was : e.policy.conflictsBeforeReduction = 0
  gap : f.policy.reductionGap = e.policy.reductionGap + e.opts.reduceIncrement
  due : f.policy.conflictsBeforeReduction = f.policy.reductionGap

/-- The clauses learnt stay while the trail grows, or they are reduced. -/
inductive Tends (log : List (List Lit)) (e f : Engine) : List (List Lit) → Prop where
  | idle (paced : e.policy.Paced f.policy) (grown : e.trail.lits.size ≤ f.trail.lits.size) :
    Tends log e f log
  | reduced (reduced : e.Reduced f) : Tends log e f []

theorem level_cancelTo_zero (e : Engine) : (e.cancelTo 0).trail.level = 0 := by
  by_cases below : 0 < e.trail.level
  · rw [trail_cancelTo below, Trail.level_cancelTo below]
  · rw [cancelTo_of_le (by omega)]
    omega

/-- The engine once a restart is taken down. -/
def noteRestart (e : Engine) : Engine :=
  { e with
    policy := e.policy.noteRestart
    stats := { e.stats with restarts := e.stats.restarts + 1 } }

end Engine

namespace Solver

variable {F log : List (List Lit)} {s t u : Solver}

/-! ### Changes that do not matter -/

/-- The second state differs at most in what the listener remembers, and in whether the pure literals
are up to date. -/
structure Noted (s t : Solver) : Prop where
  rest : t = { s with listener := t.listener, pureLitsStale := t.pureLitsStale }
  kind : t.listener.kind = s.listener.kind
  stopRule : t.listener.stopRule = s.listener.stopRule

/-- Options and variables are the same, and so is whatever the user gave. -/
structure SameTask (s t : Solver) : Prop where
  assumptions : t.assumptions = s.assumptions
  given : t.given = s.given
  budget : t.budget = s.budget
  interrupted : t.interrupted = s.interrupted
  kind : t.listener.kind = s.listener.kind
  stopRule : t.listener.stopRule = s.listener.stopRule
  scope : s.engine.Scoped t.engine

theorem SameTask.refl (s : Solver) : s.SameTask s := ⟨rfl, rfl, rfl, rfl, rfl, rfl, .refl _⟩

theorem SameTask.trans (h : s.SameTask t) (k : t.SameTask u) : s.SameTask u where
  assumptions := k.assumptions.trans h.assumptions
  given := k.given.trans h.given
  budget := k.budget.trans h.budget
  interrupted := k.interrupted.trans h.interrupted
  kind := k.kind.trans h.kind
  stopRule := k.stopRule.trans h.stopRule
  scope := h.scope.trans k.scope

theorem Noted.refl (s : Solver) : s.Noted s := ⟨rfl, rfl, rfl⟩

theorem Noted.trans (h : s.Noted t) (k : t.Noted u) : s.Noted u where
  rest := by
    rw [k.rest, h.rest]
  kind := k.kind.trans h.kind
  stopRule := k.stopRule.trans h.stopRule

theorem Noted.engine (h : s.Noted t) : t.engine = s.engine := by rw [h.rest]

/-- Of two changes of the engine only the second is left. -/
theorem Noted.replace {e f : Engine} (h : Noted { s with engine := e } t)
    (k : Noted { t with engine := f } u) : Noted { s with engine := f } u where
  rest := by rw [k.rest, h.rest]
  kind := k.kind.trans h.kind
  stopRule := k.stopRule.trans h.stopRule

theorem Noted.core (h : s.Noted t) : t.core = s.core := by rw [h.rest]

theorem Noted.pureLits (h : s.Noted t) : t.pureLits = s.pureLits := by rw [h.rest]

/-- A change of the engine within its scope. -/
theorem Noted.sameTask {e : Engine} (h : Noted { s with engine := e } t) (scope : s.engine.Scoped e) :
    s.SameTask t := by
  obtain ⟨rest, kind, stopRule⟩ := h
  have engine : t.engine = e := by rw [rest]
  refine ⟨?_, ?_, ?_, ?_, kind, stopRule, engine ▸ scope⟩ <;> rw [rest]

theorem noted_notify (s : Solver) (event : Event) : s.Noted (s.notify event) := by
  refine ⟨rfl, ?_, ?_⟩ <;>
  · unfold notify Listener.notify
    dsimp only
    split <;> rfl

theorem noted_reportProgress (s : Solver) : s.Noted s.reportProgress := by
  unfold reportProgress
  split
  · exact .refl s
  · exact noted_notify s _

/-- A reduction is told of and reported before any garbage is collected. -/
theorem noted_reduce (s : Solver) : Noted { s with engine := s.engine.reduce }
    ((s.mapEngine Engine.reduce).notify
      (.reduced s.engine.learnts.size (s.mapEngine Engine.reduce).engine.learnts.size)).reportProgress :=
  (noted_notify _ _).trans (noted_reportProgress _)

theorem noted_stopRequested {asked : Bool} (result : s.stopRequested = (asked, t)) : s.Noted t := by
  unfold stopRequested at result
  split at result
  · cases result
    exact .refl s
  · cases result
    exact ⟨rfl, s.listener.kind_poll, s.listener.stopRule_poll⟩

/-- The budget closes at a limit on the statistics, or at a deadline. -/
theorem noted_withinBudget {within : Bool} (result : s.withinBudget = (within, t)) :
    s.Noted t ∧ (within = false → s.budget.isOpen s.engine.stats = false ∨ s.budget.deadline ≠ none) := by
  unfold withinBudget at result
  split at result
  next =>
    split at result
    next =>
      cases result
      exact ⟨.refl s, nofun⟩
    next deadline =>
      cases result
      exact ⟨⟨rfl, rfl, rfl⟩, fun _ => .inr (deadline ▸ nofun)⟩
  next closed =>
    cases result
    exact ⟨.refl s, fun _ => .inl (by simpa using closed)⟩

/-! ### Garbage -/

/-- The answer is yes, or there was no room. -/
inductive Settles : Except SolverError Bool → Prop where
  | fine : Settles (.ok true)
  | full (requested limit : Nat) : Settles (.error (.arenaExhausted requested limit))

/-- The engine is tidied up, or the clauses turned out to be contradictory. -/
inductive Tidies (F log : List (List Lit)) (e f : Engine) : Except SolverError Bool → Prop where
  | refuted (refuted : f.Refuted F) : Tidies F log e f (.ok false)
  | settled {answer : Except SolverError Bool} (tidied : Engine.Tidied F log e f)
    (settles : Settles answer) : Tidies F log e f answer

/-- What a check for garbage comes to. -/
inductive Settling (s : Solver) : Except SolverError Bool → Solver → Prop
  | idle : Settling s (.ok true) s
  | compacted {f : Engine} (compacted : s.engine.compact = .ok f) :
      Settling s (.ok true) (notify { s with engine := f } (.compacted s.engine.arenaBytes f.arenaBytes))
  | full {err : SolverError} (failed : s.engine.compact = .error err) : Settling s (.error err) s

theorem settle_cases {answer : Except SolverError Bool} (result : s.settle = (answer, t)) :
    s.Settling answer t := by
  unfold settle collectGarbage at result
  by_cases wasteful : s.engine.isWasteful = true
  · rw [if_pos wasteful] at result
    rcases compacted : s.engine.compact with err | f
    all_goals
      rw [compacted] at result
      cases result
    · exact .full compacted
    · exact .compacted compacted
  · rw [if_neg wasteful] at result
    cases result
    exact .idle

theorem settle_spec (h : s.engine.Working F log) {answer : Except SolverError Bool}
    (result : s.settle = (answer, t)) :
    Settles answer ∧ ∃ f, Noted { s with engine := f } t ∧ f.Working F log ∧ s.engine.Framed f ∧
      s.engine.trail.Same f.trail := by
  cases settle_cases result with
  | idle => exact ⟨.fine, s.engine, .refl s, h, .refl _, .refl _⟩
  | @compacted f compacted =>
    have kept (G : List (List Lit)) (n : Nat) (recalls : s.engine.Recalls G n) :
        f.Recalls G n := (recalls.compact compacted).1
    obtain ⟨-, framed, same⟩ := h.recalls.compact compacted
    exact ⟨.fine, f, noted_notify _ _, h.keep framed.toScoped kept, framed, same⟩
  | full failed =>
    obtain ⟨requested, limit, rfl⟩ := h.settled.compact_error failed
    exact ⟨.full requested limit, s.engine, .refl s, h, .refl _, .refl _⟩

/-! ### Simplification and vivification -/

theorem simplify_spec (h : s.engine.Working F log) (zero : s.engine.trail.level = 0)
    {answer : Except SolverError Bool} (result : s.simplify = (answer, t)) :
    ∃ f, Noted { s with engine := f } t ∧ Tidies F log s.engine f answer ∧
      (answer ≠ .ok false → s.engine.trail.lits.size ≤ f.trail.lits.size) := by
  unfold simplify at result
  rcases simplified : s.engine.simplify with ⟨outcome, f⟩
  rw [simplified] at result
  have plain := h.settled.recalls.simplify h.settled.ok zero simplified
  -- This is shown for any formula, as it is needed for the one given and for the one with the clauses learnt.
  have kept (ok : outcome ≠ .refuted) : Engine.Tidied F log s.engine f := by
    rw [if_neg ok] at plain
    obtain ⟨-, framed, level, propagated, -⟩ := plain
    refine ⟨h.keep framed.toScoped fun G n recalls => ?_, framed, level, propagated⟩
    have spec := recalls.simplify h.settled.ok zero simplified
    rw [if_neg ok] at spec
    exact spec.1
  have grown (ok : outcome ≠ .refuted) : s.engine.trail.lits.size ≤ f.trail.lits.size := by
    rw [if_neg ok] at plain
    exact plain.2.2.2.2
  cases outcome with
  | refuted =>
    cases result
    exact ⟨f, .refl _, .refuted plain, fun other => absurd rfl other⟩
  | upToDate =>
    cases result
    exact ⟨f, .refl _, .settled (kept nofun) .fine, fun _ => grown nofun⟩
  | done =>
    dsimp only at result
    have tidied := kept nofun
    have noted : Noted { s with engine := f }
        (notify { s with engine := f, pureLitsStale := true } .simplified) := by
      obtain ⟨-, kind, stopRule⟩ := noted_notify { s with engine := f, pureLitsStale := true } .simplified
      exact ⟨rfl, kind, stopRule⟩
    obtain ⟨settles, g, noted', working, framed, same⟩ := settle_spec tidied.working result
    refine ⟨g, ?_, .settled (tidied.trans working framed same) settles, fun _ => ?_⟩
    · obtain ⟨rest, kind, stopRule⟩ := noted'
      exact ⟨rest, kind.trans noted.kind, stopRule.trans noted.stopRule⟩
    · rw [same.lits]
      exact grown nofun

/-- What a simplification that succeeds leaves behind. -/
theorem tidied_of_simplify (h : s.engine.Working F log) (zero : s.engine.trail.level = 0)
    (simplified : s.simplify = (.ok true, t)) : Engine.Tidied F log s.engine t.engine := by
  obtain ⟨f, noted, tidies, -⟩ := simplify_spec h zero simplified
  cases tidies with
  | settled tidied => exact noted.engine.symm ▸ tidied

/-- A simplification that finds no contradiction leaves nothing to propagate. -/
theorem quiet_of_simplify (h : s.engine.Settled F) (zero : s.engine.trail.level = 0)
    (simplified : s.simplify = (.ok true, t)) : t.engine.Quiet F :=
  (tidied_of_simplify h.working zero simplified).quiet

/-- How far a vivification goes: it stops at a simplification that fails or finds a contradiction, or finds
one itself, or ends with a check for garbage. -/
inductive Vivifying (s : Solver) (minSize : Nat) : Except SolverError Bool → Solver → Prop
  | stopped {t : Solver} {answer : Except SolverError Bool} (simplified : s.simplify = (answer, t))
      (differs : answer ≠ .ok true) : Vivifying s minSize answer t
  | refuted {u : Solver} (simplified : s.simplify = (.ok true, u))
      (notOk : (u.engine.vivifyAll minSize).ok = false) :
      Vivifying s minSize (.ok false) { u with engine := u.engine.vivifyAll minSize }
  | settled {t u : Solver} {answer : Except SolverError Bool} (simplified : s.simplify = (.ok true, u))
      (ok : (u.engine.vivifyAll minSize).ok = true)
      (settles : settle { u with engine := u.engine.vivifyAll minSize } = (answer, t)) :
      Vivifying s minSize answer t

theorem vivifyQuietly_cases {minSize : Nat} {answer : Except SolverError Bool}
    (result : s.vivifyQuietly minSize = (answer, t)) : s.Vivifying minSize answer t := by
  unfold vivifyQuietly at result
  split at result
  next simplified =>
    dsimp only [mapEngine] at result
    split at result
    next ok => exact .settled simplified ok result
    next notOk =>
      cases result
      exact .refuted simplified (by simpa using notOk)
  next other =>
    rcases simplified : s.simplify with ⟨answer', u⟩
    rw [simplified] at result other
    cases result
    exact .stopped simplified fun same => other _ (congrArg (·, t) same)

theorem vivifyQuietly_spec (h : s.engine.Settled F) (zero : s.engine.trail.level = 0) (minSize : Nat)
    {answer : Except SolverError Bool} (result : s.vivifyQuietly minSize = (answer, t)) :
    ∃ f, Noted { s with engine := f } t ∧ Tidies F [] s.engine f answer := by
  cases vivifyQuietly_cases result with
  | stopped simplified =>
    obtain ⟨f, noted, tidies, -⟩ := simplify_spec h.working zero simplified
    exact ⟨f, noted, tidies⟩
  | @refuted u simplified notOk =>
    obtain ⟨f, noted, -⟩ := simplify_spec h.working zero simplified
    have tidied := tidied_of_simplify h.working zero simplified
    refine ⟨u.engine.vivifyAll minSize, noted.replace (.refl _), .refuted ?_⟩
    exact (tidied.quiet.vivifyAll minSize).resolve_right fun ⟨quiet, _⟩ =>
      Bool.false_ne_true (notOk.symm.trans quiet.ok)
  | @settled t u answer simplified ok settles =>
    obtain ⟨f, noted, -⟩ := simplify_spec h.working zero simplified
    have tidied := tidied_of_simplify h.working zero simplified
    obtain ⟨quiet, framed⟩ := (tidied.quiet.vivifyAll minSize).resolve_left fun refuted =>
      Bool.false_ne_true (refuted.notOk.symm.trans ok)
    obtain ⟨answers, g, noted', working, framed', same⟩ := settle_spec quiet.toSettled.working settles
    have vivified : Engine.Tidied F [] s.engine (u.engine.vivifyAll minSize) :=
      ⟨quiet.toSettled.working, tidied.framed.trans framed, quiet.zero, quiet.propagated⟩
    exact ⟨g, noted.replace noted', .settled (vivified.trans working framed' same) answers⟩

/-! ### Restarts, reductions and pure literals -/

theorem noted_restart (s : Solver) :
    Noted { s with engine := s.engine.noteRestart.cancelTo 0 } s.restart :=
  (noted_notify _ _).trans (noted_reportProgress _)

theorem restart_spec (h : s.engine.Working F log) :
    ∃ f, Noted { s with engine := f } s.restart ∧ f.Working F log ∧ s.engine.Scoped f ∧
      f.trail.level = 0 ∧ f.policy.restartPending = false ∧
      f.policy.conflictsBeforeReduction = s.engine.policy.conflictsBeforeReduction ∧
      f.policy.reductionGap = s.engine.policy.reductionGap := by
  have back : (s.engine.noteRestart.cancelTo 0).Working F log := (h.books _ _).cancelTo 0
  have framed := Engine.framed_cancelTo s.engine.noteRestart 0
  refine ⟨_, noted_restart s, back, ?_, Engine.level_cancelTo_zero _, ?_, ?_, ?_⟩
  · exact { framed.toScoped with }
  · exact framed.paced.pending
  · exact framed.paced.due
  · exact framed.paced.gap

/-- A reduction, if it is due. -/
theorem reduceIfDue_spec (h : s.engine.Working F log) (zero : s.engine.trail.level = 0) {u : Upkeep}
    (result : s.reduceIfDue = (u, t)) :
    (u = .done ∧ t = s) ∨ ∃ f, Noted { s with engine := f } t ∧ f.Working F [] ∧
      s.engine.Scoped f ∧ f.trail.level = 0 ∧ s.engine.Reduced f ∧
      (u = .done ∧ f.trail.head = f.trail.lits.size ∨ u = .propagateFirst ∨
        ∃ requested limit, u = .failed (.arenaExhausted requested limit)) := by
  unfold reduceIfDue at result
  split at result
  next due =>
    refine .inr ?_
    have was : s.engine.policy.conflictsBeforeReduction = 0 := by
      unfold Engine.isReductionDue at due
      simpa using (Bool.and_eq_true_iff.mp due).2
    obtain ⟨kept, scope, level, p, paced, policy⟩ := h.settled.reduce zero
    have reduced : s.engine.Reduced s.engine.reduce := by
      refine ⟨was, ?_, ?_⟩ <;> rw [policy]
      · exact congrArg (· + _) paced.gap
      · rfl
    rcases called : s.reduce with ⟨answer, v⟩
    unfold reduce at called
    dsimp only at called
    have noted := noted_reduce s
    obtain ⟨settles, g, noted', working', framed, same⟩ :=
      settle_spec (by rw [noted.engine]; exact kept.working) called
    rw [noted.engine] at framed same
    -- The listener hears of the reduction, and of the compaction if there is one.
    have after : Noted { s with engine := g } v := noted.replace noted'
    have reduced' : s.engine.Reduced g :=
      ⟨was, framed.paced.gap.trans reduced.gap,
        framed.paced.due.trans (reduced.due.trans framed.paced.gap.symm)⟩
    refine ⟨g, ?_⟩
    unfold reduce at result
    dsimp only at result
    rw [called] at result
    cases settles with
    | fine =>
      cases result
      refine ⟨after, working', scope.trans framed.toScoped, same.level.trans level, reduced', ?_⟩
      split
      next propagated =>
        rw [after.engine] at propagated
        exact .inl ⟨rfl, by simpa [Trail.isPropagated] using propagated⟩
      · exact .inr (.inl rfl)
    | full requested limit =>
      cases result
      exact ⟨after, working', scope.trans framed.toScoped, same.level.trans level, reduced',
        .inr (.inr ⟨requested, limit, rfl⟩)⟩
  next =>
    cases result
    exact .inl ⟨rfl, rfl⟩

/-- Only variables that were created are assumed. -/
theorem pureLits_bounded {e : Engine} {as : List Lit} {l : Lit} (member : l ∈ e.pureLits as) :
    l.var.index < e.numVars := by
  obtain ⟨v, inside, found⟩ := List.mem_filterMap.mp member
  unfold Engine.pureLit? at found
  dsimp only at found
  split at found
  · cases found
    exact Engine.mem_vars.mp inside
  · cases found

/-- Finding pure literals changes nothing else that matters. -/
theorem findPureLits_spec (h : s.engine.Working F log) : ∃ stats,
    s.findPureLits.engine = { s.engine with stats } ∧ s.findPureLits.engine.Working F log ∧
      s.SameTask s.findPureLits ∧ s.findPureLits.core = s.core ∧
      ∀ l ∈ s.findPureLits.pureLits, l.var.index < s.engine.numVars := by
  refine ⟨_, rfl, h.books s.engine.policy _, ⟨rfl, rfl, rfl, rfl, rfl, rfl, ⟨rfl, rfl, rfl, rfl⟩⟩, rfl, ?_⟩
  intro l member
  unfold findPureLits at member
  dsimp only [mapEngine] at member
  rw [List.mem_toArray] at member
  split at member
  · exact pureLits_bounded member
  · cases member

/-- How the upkeep at level zero may end. -/
inductive Upkeeps (F log : List (List Lit)) (s : Solver) : Upkeep → Solver → Prop where
  | refuted {t : Solver} (refuted : t.engine.Refuted F) (core : t.core = s.core) :
    Upkeeps F log s .refuted t
  | failed {t : Solver} {more : List (List Lit)} (working : t.engine.Working F more)
    (task : s.SameTask t) (requested limit : Nat) :
    Upkeeps F log s (.failed (.arenaExhausted requested limit)) t
  | propagateFirst {t : Solver} (working : t.engine.Working F []) (task : s.SameTask t)
    (zero : t.engine.trail.level = 0) (core : t.core = s.core) (pure : t.pureLits = s.pureLits)
    (reduced : s.engine.Reduced t.engine) : Upkeeps F log s .propagateFirst t
  | done {t : Solver} {more : List (List Lit)} (working : t.engine.Working F more)
    (task : s.SameTask t) (zero : t.engine.trail.level = 0)
    (propagated : t.engine.trail.head = t.engine.trail.lits.size) (core : t.core = s.core)
    (pure : ∀ l ∈ t.pureLits, l ∈ s.pureLits ∨ l.var.index < s.engine.numVars)
    (tends : s.engine.Tends log t.engine more) : Upkeeps F log s .done t

/-- Upkeep is done once nothing is left to propagate, with pure literals as found before or anew. -/
theorem Upkeeps.finish {more : List (List Lit)} (working : t.engine.Working F more)
    (task : s.SameTask t) (zero : t.engine.trail.level = 0)
    (propagated : t.engine.trail.head = t.engine.trail.lits.size) (core : t.core = s.core)
    (pure : t.pureLits = s.pureLits) (tends : s.engine.Tends log t.engine more) :
    Upkeeps F log s .done (if t.pureLitsStale then t.findPureLits else t) := by
  split
  · obtain ⟨stats, engine, working', task', core', bounded⟩ := findPureLits_spec working
    refine .done working' (task.trans task') ?_ ?_ (core'.trans core) ?_ ?_
    · rw [engine]
      exact zero
    · rw [engine]
      exact propagated
    · exact fun l member => .inr (task.scope.numVars ▸ bounded l member)
    · rw [engine]
      cases tends with
      | idle paced grown => exact .idle paced grown
      | reduced reduced => exact .reduced ⟨reduced.was, reduced.gap, reduced.due⟩
  · exact .done working task zero propagated core (fun l member => .inl (pure ▸ member)) tends

theorem upkeep_spec (h : s.engine.Working F log) (zero : s.engine.trail.level = 0) {u : Upkeep}
    (result : s.upkeep = (u, t)) : Upkeeps F log s u t := by
  unfold upkeep at result
  rcases simplified : s.simplify with ⟨answer, v⟩
  rw [simplified] at result
  obtain ⟨f, noted, tidies, grown⟩ := simplify_spec h zero simplified
  have engine : v.engine = f := noted.engine
  have core : v.core = s.core := noted.core
  have pure : v.pureLits = s.pureLits := noted.pureLits
  -- Reduction comes only after a simplification that found no contradiction and had room.
  cases tidies with
  | refuted refuted =>
    cases result
    exact .refuted (engine ▸ refuted) core
  | settled tidied settles =>
    have task : s.SameTask v := noted.sameTask tidied.framed.toScoped
    cases settles with
    | full requested limit =>
      cases result
      exact .failed (engine ▸ tidied.working) task requested limit
    | fine =>
      dsimp only at result
      rcases called : v.reduceIfDue with ⟨u', w⟩
      rw [called] at result
      have more : s.engine.trail.lits.size ≤ v.engine.trail.lits.size := engine ▸ grown nofun
      rw [← engine] at tidied
      rcases reduceIfDue_spec tidied.working tidied.zero called with ⟨rfl, rfl⟩ | ⟨g, noted', rest⟩
      · cases result
        exact .finish tidied.working task tidied.zero tidied.propagated core pure
          (.idle tidied.framed.paced more)
      · obtain ⟨working, scope, level, reduced, ended⟩ := rest
        have engine' : w.engine = g := noted'.engine
        have core' : w.core = s.core := noted'.core.trans core
        have pure' : w.pureLits = s.pureLits := noted'.pureLits.trans pure
        have task' : s.SameTask w := task.trans (noted'.sameTask scope)
        rw [← engine'] at working level reduced
        have reduced' : s.engine.Reduced w.engine := by
          refine ⟨tidied.framed.paced.due.symm.trans reduced.was, ?_, reduced.due⟩
          rw [reduced.gap, tidied.framed.paced.gap, tidied.framed.opts]
        rcases ended with ⟨rfl, propagated⟩ | rfl | ⟨requested, limit, rfl⟩
        · cases result
          exact .finish working task' level (engine' ▸ propagated) core' pure' (.reduced reduced')
        · cases result
          exact .propagateFirst working task' level core' pure' reduced'
        · cases result
          exact .failed working task' requested limit

end Solver

end Cdcl
