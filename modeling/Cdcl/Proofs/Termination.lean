import Cdcl.Proofs.Searches
import Mathlib.Data.Prod.Lex
import Mathlib.Logic.Relation
import Mathlib.Order.WellFounded

/-!
# Termination

A search that nobody stops and that has no budget ends, whatever the heuristics do. Restarts throw away
the trail, and reductions throw away learnt clauses, so neither grows forever. But between two reductions
no clause learnt repeats another one, which leaves only so many; and each reduction makes the gap before
the next one longer, until no reduction comes before the clauses to be learnt run out. Between two
conflicts at most one restart is made, and otherwise the trail grows.

## Main results

- `Rationed.liberal`: each step spends something.
- `solve_terminates`: a solve ends with a verdict or for lack of room.
-/

namespace Cdcl

namespace Solver

variable {F log more : List (List Lit)} {s t u : Solver} {r : Nat} {as : List Lit}

/-! ### What heuristics may do -/

/-- The second state differs in nothing but what heuristics go by: the scores of variables and clauses,
the order in which variables are offered for decisions, their polarities, the level counts and freeze
counts of clauses, the means and windows of the policy, and statistics. -/
structure Reweighed (s t : Solver) : Prop where
  rest : t = { s with engine := t.engine }
  examined : s.engine.Examined t.engine
  seen : t.engine.seen = s.engine.seen

theorem Reweighed.refl (s : Solver) : s.Reweighed s := ⟨rfl, .refl _, rfl⟩

/-- Let the next step restart, or not. -/
def pend (s : Solver) (restart : Bool) : Solver :=
  s.mapEngine fun e => { e with policy := { e.policy with restartPending := restart } }

/-- A step of a search with any heuristics: before it, all that they go by may change, and if it learnt
from a conflict, it may ask for a restart or not. -/
inductive Liberal (s : Solver) : Solver → Prop where
  | step {u t : Solver} (reweighed : s.Reweighed u) (stepped : u.searchStep = .ok (.continue, t)) :
    Liberal s t
  | conflict {u v t : Solver} {e : Engine} {c : Conflict} (reweighed : s.Reweighed u)
    (conflicts : u.Conflicts e c v) (stepped : u.searchStep = .ok (.continue, t)) (restart : Bool) :
    Liberal s (t.pend restart)

/-- Nobody stops the search, and it has no budget. -/
structure Unhindered (s : Solver) : Prop where
  budget : s.budget = {}
  interrupted : s.interrupted = false
  quiet : s.listener.NeverStops

/-- A verdict, or a lack of room for a learnt clause: in the arena, or in the header of a clause that has
more literals than any header can count. There are no more literals than variables, so with fewer than
`2 ^ 27` variables there is a lack of room only in the arena. -/
inductive Definite (numVars : Nat) : Outcome → Prop where
  | sat : Definite numVars (.ok .sat)
  | unsat : Definite numVars (.ok .unsat)
  | arenaFull (requested limit : Nat) : Definite numVars (.error (.arenaExhausted requested limit))
  | headerFull {size : Nat} (large : Header.maxSize < size) (few : size ≤ numVars) :
    Definite numVars (.error (.clauseTooLarge size))

theorem NoRoom.definite {n : Nat} {err : SolverError} (full : NoRoom n err) : Definite n (.error err) := by
  cases full with
  | arena requested limit => exact .arenaFull requested limit
  | header large few => exact .headerFull large few

theorem Unhindered.of_sameTask (h : s.Unhindered) (task : s.SameTask t) : t.Unhindered where
  budget := task.budget.trans h.budget
  interrupted := task.interrupted.trans h.interrupted
  quiet := (NeverStops_congr task.kind task.stopRule).mpr h.quiet

theorem Unhindered.not_asked (h : s.Unhindered) : ¬ (s.interrupted = true ∨ ¬ s.listener.NeverStops) := by
  rintro (interrupted | stops)
  · exact absurd (interrupted.symm.trans h.interrupted) nofun
  · exact stops h.quiet

theorem Ended.definite {outcome : Outcome} (h : Ended F s outcome t) (unhindered : s.Unhindered) :
    Definite s.engine.numVars outcome := by
  cases h with
  | sat => exact .sat
  | refuted => exact .unsat
  | blamed => exact .unsat
  | interrupted working task asked => exact absurd asked (unhindered.of_sameTask task).not_asked
  | unknown working task limited =>
    rw [(unhindered.of_sameTask task).budget] at limited
    rcases limited with ⟨stats, closed⟩ | timed
    · cases closed
    · exact absurd rfl timed
  | failed working task full => exact NoRoom.definite (task.scope.numVars ▸ full)

theorem Searching.reweighed (h : s.Searching F log) (reweighed : s.Reweighed t) :
    t.Searching F log ∧ s.SameTask t := by
  obtain ⟨rest, examined, seen⟩ := reweighed
  have scope := examined.framed.toScoped
  have same : t.assumptions = s.assumptions ∧ t.pureLits = s.pureLits ∧ t.core = s.core := by
    rw [rest]
    exact ⟨rfl, rfl, rfl⟩
  refine ⟨⟨h.working.examined examined (seen ▸ h.working.sound.unseen), ?_, ?_, same.2.2 ▸ h.core⟩, ?_⟩
  · rw [same.1, same.2.1, examined.trail]
    exact h.presumes
  · rw [same.1, same.2.1, scope.numVars]
    exact h.bounded
  · refine ⟨?_, ?_, ?_, ?_, ?_, ?_, scope⟩ <;> rw [rest]

theorem Searching.pend (h : s.Searching F log) (restart : Bool) :
    (s.pend restart).Searching F log ∧ s.SameTask (s.pend restart) :=
  ⟨⟨h.working.books _ s.engine.stats, h.presumes, h.bounded, h.core⟩,
    ⟨rfl, rfl, rfl, rfl, rfl, rfl, ⟨rfl, rfl, rfl, rfl⟩⟩⟩

/-! ### What a step spends -/

/-- More clauses than can be learnt without a reduction. -/
def supply (e : Engine) : Nat := 2 ^ (2 * e.numVars)

/-- A search with room for `r` more reductions: after so many the gap to the next one is longer than the
supply of clauses to learn. -/
structure Rationed (F log : List (List Lit)) (r : Nat) (s : Solver) : Prop where
  searching : s.Searching F log
  grows : 1 ≤ s.engine.opts.reduceIncrement
  room : supply s.engine < s.engine.policy.reductionGap + r
  last : r = 0 → supply s.engine < s.engine.policy.conflictsBeforeReduction + log.length

/-- What is left to spend: reductions, then clauses to learn before the next one, then a restart that is
due, then variables to assign. -/
def purse (log : List (List Lit)) (r : Nat) (e : Engine) : Nat ×ₗ Nat ×ₗ Nat ×ₗ Nat :=
  toLex (r, toLex (supply e - log.length,
    toLex (if e.policy.restartPending then 1 else 0, e.numVars - e.trail.lits.size)))

theorem purse_lt_of_reductions {e f : Engine} {r' : Nat} (lt : r' < r) :
    purse more r' f < purse log r e := Prod.Lex.toLex_lt_toLex.mpr (.inl lt)

theorem purse_lt_of_clauses {e f : Engine} (lt : supply f - more.length < supply e - log.length) :
    purse more r f < purse log r e :=
  Prod.Lex.toLex_lt_toLex.mpr (.inr ⟨rfl, Prod.Lex.toLex_lt_toLex.mpr (.inl lt)⟩)

theorem purse_lt_of_restart {e f : Engine} (same : supply f = supply e)
    (was : e.policy.restartPending = true) (now : f.policy.restartPending = false) :
    purse log r f < purse log r e := by
  refine Prod.Lex.toLex_lt_toLex.mpr (.inr ⟨rfl, Prod.Lex.toLex_lt_toLex.mpr (.inr ⟨?_, ?_⟩)⟩)
  · exact congrArg (· - log.length) same
  · refine Prod.Lex.toLex_lt_toLex.mpr (.inl ?_)
    dsimp only
    rw [was, now]
    decide

theorem purse_lt_of_trail {e f : Engine} (same : f.numVars = e.numVars)
    (pending : f.policy.restartPending = e.policy.restartPending)
    (longer : e.trail.lits.size < f.trail.lits.size) (le : f.trail.lits.size ≤ f.numVars) :
    purse log r f < purse log r e := by
  refine Prod.Lex.toLex_lt_toLex.mpr (.inr ⟨rfl, Prod.Lex.toLex_lt_toLex.mpr (.inr ⟨?_, ?_⟩)⟩)
  · exact congrArg (fun n => 2 ^ (2 * n) - log.length) same
  · refine Prod.Lex.toLex_lt_toLex.mpr (.inr ⟨?_, ?_⟩)
    · dsimp only
      rw [pending]
    · dsimp only
      omega

theorem supply_congr (task : s.SameTask t) : supply t.engine = supply s.engine :=
  congrArg (fun n => 2 ^ (2 * n)) task.scope.numVars

theorem Rationed.reweighed (h : Rationed F log r s) (reweighed : s.Reweighed t) :
    Rationed F log r t ∧ purse log r t.engine = purse log r s.engine := by
  obtain ⟨searching, task⟩ := h.searching.reweighed reweighed
  have paced := reweighed.examined.paced
  refine ⟨⟨searching, task.scope.opts ▸ h.grows, ?_, fun none => ?_⟩, ?_⟩
  · rw [supply_congr task, paced.gap]
    exact h.room
  · rw [supply_congr task, paced.due]
    exact h.last none
  · unfold purse
    rw [supply_congr task, paced.pending, task.scope.numVars, reweighed.examined.trail]

/-- A clause more was learnt since the last reduction. -/
theorem Rationed.learnt (h : Rationed F log r s) {d : List Lit} (searching : t.Searching F (log ++ [d]))
    (task : s.SameTask t)
    (due : t.engine.policy.conflictsBeforeReduction = s.engine.policy.conflictsBeforeReduction - 1)
    (gap : t.engine.policy.reductionGap = s.engine.policy.reductionGap) :
    Rationed F (log ++ [d]) r t ∧ purse (log ++ [d]) r t.engine < purse log r s.engine := by
  have enough : (log ++ [d]).length ≤ supply t.engine := searching.working.log_length_le
  have same := supply_congr task
  rw [List.length_append, List.length_singleton] at enough
  refine ⟨⟨searching, task.scope.opts ▸ h.grows, ?_, fun none => ?_⟩, purse_lt_of_clauses ?_⟩
  · rw [same, gap]
    exact h.room
  · have := h.last none
    rw [same, due, List.length_append, List.length_singleton]
    omega
  · rw [List.length_append, List.length_singleton]
    omega

/-- Each step that goes on spends something. -/
theorem Rationed.next (h : Rationed F log r s) (searching : t.Searching F more) (task : s.SameTask t)
    (progress : s.engine.Progress log t.engine more) :
    ∃ r', Rationed F more r' t ∧ purse more r' t.engine < purse log r s.engine := by
  have same := supply_congr task
  have grows : 1 ≤ t.engine.opts.reduceIncrement := task.scope.opts ▸ h.grows
  have kept (due : t.engine.policy.conflictsBeforeReduction = s.engine.policy.conflictsBeforeReduction)
      (gap : t.engine.policy.reductionGap = s.engine.policy.reductionGap)
      (searching : t.Searching F log) : Rationed F log r t := by
    refine ⟨searching, grows, ?_, fun none => ?_⟩
    · rw [same, gap]
      exact h.room
    · rw [same, due]
      exact h.last none
  cases progress with
  | learnt d due gap => exact ⟨r, h.learnt searching task due gap⟩
  | reduced reduced =>
    -- No reduction is due once the gap exceeds the supply.
    have some_ : r ≠ 0 := by
      intro none
      have := h.last none
      have enough : log.length ≤ supply s.engine := h.searching.working.log_length_le
      rw [reduced.was] at this
      omega
    have room := h.room
    have increment := h.grows
    refine ⟨r - 1, ⟨searching, grows, ?_, fun none => ?_⟩, purse_lt_of_reductions (by omega)⟩
    · rw [same, reduced.gap]
      omega
    · rw [same, reduced.due, reduced.gap, List.length_nil]
      omega
  | restarted was now due gap =>
    exact ⟨r, kept due gap searching, purse_lt_of_restart same was now⟩
  | grown paced longer =>
    exact ⟨r, kept paced.due paced.gap searching, purse_lt_of_trail task.scope.numVars paced.pending longer
      searching.working.sound.trail.size_le⟩

/-- A step with any heuristics spends something. -/
theorem Rationed.liberal (h : Rationed F log r s) (step : s.Liberal t) :
    ∃ more r', Rationed F more r' t ∧ s.SameTask t ∧ purse more r' t.engine < purse log r s.engine := by
  cases step with
  | @step u _ reweighed stepped =>
    obtain ⟨rationed, same⟩ := h.reweighed reweighed
    have task := (h.searching.reweighed reweighed).2
    obtain ⟨more, searching, task', progress⟩ := rationed.searching.next stepped
    obtain ⟨r', rationed', lt⟩ := rationed.next searching task' progress
    exact ⟨more, r', rationed', task.trans task', same ▸ lt⟩
  | @conflict u v w e c reweighed conflicts stepped restart =>
    obtain ⟨rationed, same⟩ := h.reweighed reweighed
    have task := (h.searching.reweighed reweighed).2
    obtain ⟨result, x, stepped', handles⟩ := rationed.searching.conflicts conflicts
    rw [stepped] at stepped'
    cases stepped'
    cases handles with
    | learnt d searching task' due gap =>
      obtain ⟨searching', task''⟩ := searching.pend restart
      obtain ⟨rationed', lt⟩ := rationed.learnt searching' (task'.trans task'') due gap
      exact ⟨_, r, rationed', task.trans (task'.trans task''), same ▸ lt⟩

/-! ### Termination -/

/-- A search with any heuristics does not go on forever. -/
theorem Rationed.acc (h : Rationed F log r s) : Acc (fun t s => Liberal s t) s := by
  generalize left : purse log r s.engine = p
  induction p using WellFoundedLT.induction generalizing s log r with
  | _ p ih =>
    refine ⟨s, fun t step => ?_⟩
    obtain ⟨more, r', rationed, -, lt⟩ := h.liberal step
    exact ih _ (left ▸ lt) rationed rfl

/-- The outcome of a search that a step ends. -/
def outcomeOf? : StepResult → Option Outcome
  | .continue => none
  | .finished status => some (.ok status)
  | .failed err => some (.error err)

/-- Whatever heuristics do from here on, the search does not go on forever, meets no fault, and ends
definitely. -/
structure Terminates (s : Solver) : Prop where
  finite : Acc (fun t s => Liberal s t) s
  definite : ∀ t, Relation.ReflTransGen Liberal s t → ∀ u, t.Reweighed u →
    ∃ result v, u.searchStep = .ok (result, v) ∧
      ∀ outcome, outcomeOf? result = some outcome → Definite s.engine.numVars outcome

theorem Stepped.definite {result : StepResult} (h : Stepped F log s result t)
    (unhindered : s.Unhindered) {outcome : Outcome} (ends : outcomeOf? result = some outcome) :
    Definite s.engine.numVars outcome := by
  cases h with
  | «continue» => cases ends
  | finished ended => exact Option.some.inj ends ▸ ended.definite unhindered
  | failed ended => exact Option.some.inj ends ▸ ended.definite unhindered

theorem Rationed.path (h : Rationed F log r s) (path : Relation.ReflTransGen Liberal s t) :
    (∃ more r', Rationed F more r' t) ∧ s.SameTask t := by
  induction path with
  | refl => exact ⟨⟨log, r, h⟩, .refl s⟩
  | tail _ step ih =>
    obtain ⟨⟨more, r', rationed⟩, task⟩ := ih
    obtain ⟨more', r'', rationed', task', -⟩ := rationed.liberal step
    exact ⟨⟨more', r'', rationed'⟩, task.trans task'⟩

/-- A search whose heuristics are those of the solver ends within some number of steps. -/
theorem Terminates.search (h : s.Terminates) : ∃ n, ∀ steps, n ≤ steps →
    ∃ outcome t, Solver.search steps s = .ok (outcome, t) ∧ Definite s.engine.numVars outcome := by
  obtain ⟨finite, definite⟩ := h
  generalize s.engine.numVars = numVars at definite ⊢
  induction finite with
  | intro s _ ih =>
    obtain ⟨result, t, stepped, ends⟩ := definite s .refl s (.refl s)
    cases result with
    | «continue» =>
      have next : Liberal s t := .step (.refl s) stepped
      obtain ⟨n, later⟩ := ih t next fun u path => definite u (.head next path)
      refine ⟨n + 1, fun steps enough => ?_⟩
      obtain ⟨k, rfl⟩ := Nat.exists_eq_add_one_of_ne_zero (show steps ≠ 0 by omega)
      simp only [Solver.search, stepped]
      exact later k (by omega)
    | finished status =>
      refine ⟨1, fun steps enough => ?_⟩
      obtain ⟨k, rfl⟩ := Nat.exists_eq_add_one_of_ne_zero (show steps ≠ 0 by omega)
      exact ⟨.ok status, t, by simp only [Solver.search, stepped], ends _ rfl⟩
    | failed err =>
      refine ⟨1, fun steps enough => ?_⟩
      obtain ⟨k, rfl⟩ := Nat.exists_eq_add_one_of_ne_zero (show steps ≠ 0 by omega)
      exact ⟨.error err, t, by simp only [Solver.search, stepped], ends _ rfl⟩

theorem Unhindered.assuming (h : s.Unhindered) (as : List Lit) : (s.assuming as).Unhindered :=
  ⟨h.budget, h.interrupted, h.quiet⟩

/-- No deadline is set without a limit. -/
theorem Unhindered.setDeadline (h : s.Unhindered) : s.setDeadline = s := by
  obtain ⟨budget, -, -⟩ := h
  unfold Solver.setDeadline
  rw [budget]
  dsimp only
  rw [← budget]

theorem Unhindered.deadlineShows (h : s.Unhindered) : s.begun.deadlineShows = true := by
  have same := h.setDeadline
  have budget : s.begun.budget = {} := by
    rw [begun_eq, same]
    exact h.budget
  unfold Solver.deadlineShows
  rw [budget]
  rfl

end Solver

end Cdcl
