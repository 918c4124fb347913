import Cdcl.Proofs.MatchingWatches
import Mathlib.Tactic.Ring

/-!
# Reductions are spaced

The countdown to the next reduction goes down by at most one with each conflict, and a reduction starts it
anew from a gap that has grown. Conflicts at level zero, and those whose clause does not fit, do not count
down. So the conflicts there were and those left in the countdown together always pay for the reductions
done and for the next one.

## Main results

- `Round.onSchedule`: a round of the engine keeps to the schedule.
- `reductions_searchStep`: a step of the search reduces the clauses at most once, when it is due.
- `reductions_spaced`: so many reductions take so many conflicts, and there are none out of their time.
-/

namespace Cdcl

/-- The number of conflicts that `k` reductions take. -/
def Options.conflictsFor (o : Options) : Nat → Nat
  | 0 => 0
  | k + 1 => o.conflictsFor k + (o.reduceFirst + k * o.reduceIncrement)

/-- The gaps grow evenly, so their sum is quadratic. -/
theorem Options.conflictsFor_eq (o : Options) (k : Nat) :
    o.conflictsFor k = k * o.reduceFirst + o.reduceIncrement * k * (k - 1) / 2 := by
  have double : 2 * o.conflictsFor k = 2 * (k * o.reduceFirst) + o.reduceIncrement * k * (k - 1) := by
    induction k with
    | zero => simp [Options.conflictsFor]
    | succ k ih =>
      rw [Options.conflictsFor, Nat.mul_add, ih]
      cases k with
      | zero => simp
      | succ k =>
        simp only [Nat.add_sub_cancel]
        ring
  omega

namespace Schedule

/-- The conflicts so far, with those that are left to wait for, pay for the next reduction. -/
structure Kept (s : Schedule) : Prop where
  gap : s.gap = s.opts.reduceFirst + s.reductions * s.opts.reduceIncrement
  countdown : s.countdown ≤ s.gap
  paid : s.opts.conflictsFor (s.reductions + 1) ≤ s.conflicts + s.countdown
  off : s.opts.reduce = false → s.reductions = 0

/-- So the reductions so far are paid for. -/
theorem Kept.bound {s : Schedule} (h : s.Kept) : s.opts.conflictsFor s.reductions ≤ s.conflicts := by
  have paid := h.paid
  have countdown := h.countdown
  rw [Options.conflictsFor, ← h.gap] at paid
  omega

theorem Kept.clash {s : Schedule} (h : s.Kept) : Kept { s with conflicts := s.conflicts + 1 } :=
  { h with paid := h.paid.trans (Nat.add_le_add_right (Nat.le_succ _) _) }

/-- A conflict that counts down is counted itself. -/
theorem Kept.learn {s : Schedule} (h : s.Kept) :
    Kept { s with conflicts := s.conflicts + 1, countdown := s.countdown - 1 } where
  gap := h.gap
  countdown := (Nat.sub_le _ _).trans h.countdown
  paid := by
    have paid := h.paid
    dsimp only
    omega
  off := h.off

theorem Kept.reduce {s : Schedule} (h : s.Kept) (on : s.opts.reduce = true) (due : s.countdown = 0) :
    Kept { s with
      reductions := s.reductions + 1
      countdown := s.gap + s.opts.reduceIncrement
      gap := s.gap + s.opts.reduceIncrement } where
  gap := by
    rw [h.gap, Nat.succ_mul, Nat.add_assoc]
  countdown := Nat.le_refl _
  paid := by
    have paid := h.paid
    have next : s.gap + s.opts.reduceIncrement =
        s.opts.reduceFirst + (s.reductions + 1) * s.opts.reduceIncrement := by
      rw [h.gap, Nat.succ_mul, Nat.add_assoc]
    rw [due, Nat.add_zero] at paid
    rw [Options.conflictsFor, next]
    exact Nat.add_le_add_right paid _
  off := fun off => nomatch on.symm.trans off

end Schedule

namespace Engine

variable {F log : List (List Lit)} {e f : Engine}

theorem kept_initial (opts : Options) : (initial opts).schedule.Kept where
  gap := by simp [schedule, initial, Policy.initial]
  countdown := Nat.le_refl _
  paid := by simp [schedule, initial, Policy.initial, Options.conflictsFor]
  off := fun _ => rfl

/-- A round of the work on an engine keeps to the schedule. -/
theorem Round.onSchedule (round : Round e f) (_ : e.Orderly) (h : e.schedule.Kept) :
    f.schedule.Kept := by
  cases round with
  | turn _ uncounted => exact uncounted.schedule.symm ▸ h
  | clash => exact h.clash
  | learn _ result =>
    -- The conflict was counted already, and the countdown follows only if a clause is learnt.
    rcases (handleConflict_counts result).2 with same | learnt
    · exact same.symm ▸ h.clash
    · exact learnt.symm ▸ h.learn
  | reduce _ due =>
    obtain ⟨on, zero⟩ := Bool.and_eq_true_iff.mp due
    exact (reduce_counts e).2.2.symm ▸ h.reduce on (eq_of_beq zero)

end Engine

namespace Solver

open Engine

variable {F log : List (List Lit)} {s t : Solver} {e : Engine}

theorem Pause.onSchedule (h : Pause F e) : e.schedule.Kept :=
  (h.upholds (fun opts _ => kept_initial opts) Round.onSchedule).2

/-! ### Where clauses are reduced -/

/-- The engine whose clauses a step of the search is about to reduce: nothing was left to propagate, no
limit was reached, there was a restart perhaps, and the clauses were simplified. -/
inductive Reducing (s : Solver) : Engine → Prop where
  | mk {t u v : Solver} (proceeds : s.Proceeds t) (checked : t.withinBudget = (true, u))
    (zero : u.resumed.engine.trail.level = 0) (simplified : u.resumed.simplify = (.ok true, v))
    (due : v.engine.isReductionDue = true) : s.Reducing v.engine

theorem reductions_upkeep (h : s.engine.Working F log) (zero : s.engine.trail.level = 0) {u : Upkeep}
    (result : s.upkeep = (u, t)) :
    t.engine.stats.reductions = s.engine.stats.reductions ∨
      ∃ v, s.simplify = (.ok true, v) ∧ v.engine.isReductionDue = true ∧ v.engine.trail.level = 0 ∧
        t.engine.stats.reductions = s.engine.stats.reductions + 1 := by
  have first {answer : Except SolverError Bool} {v : Solver} (simplified : s.simplify = (answer, v)) :
      v.engine.stats.reductions = s.engine.stats.reductions :=
    (chores_simplify h.settled zero simplified).strides.uncounted.reductions
  have second {v w : Solver} {u : Upkeep} (simplified : s.simplify = (.ok true, v))
      (reduced : v.reduceIfDue = (u, w)) (last : t.engine.stats.reductions = w.engine.stats.reductions) :
      t.engine.stats.reductions = s.engine.stats.reductions ∨
        ∃ v, s.simplify = (.ok true, v) ∧ v.engine.isReductionDue = true ∧ v.engine.trail.level = 0 ∧
          t.engine.stats.reductions = s.engine.stats.reductions + 1 := by
    have quiet := quiet_of_simplify h.settled zero simplified
    rcases chores_reduce quiet.toSettled quiet.zero reduced with ⟨-, rfl⟩ | ⟨due, chores⟩
    · exact .inl (last.trans (first simplified))
    · have counted : w.engine.stats.reductions = v.engine.stats.reductions + 1 :=
        chores.strides.uncounted.reductions.trans
          (congrArg Schedule.reductions (reduce_counts v.engine).2.2)
      exact .inr ⟨v, simplified, due, quiet.zero,
        last.trans (counted.trans (congrArg (· + 1) (first simplified)))⟩
  cases upkeep_cases result with
  | failed simplified | refuted simplified => exact .inl (first simplified)
  | broken simplified reduced => exact second simplified reduced rfl
  | done simplified reduced =>
    -- What may follow the reduction is the search for pure literals, which is counted elsewhere.
    refine second simplified reduced ?_
    split <;> rfl

theorem reductions_branch (h : s.Searching F log)
    (propagated : s.engine.trail.head = s.engine.trail.lits.size) :
    s.branch.2.engine.stats.reductions = s.engine.stats.reductions :=
  (strides_branch h propagated rfl).uncounted.reductions

theorem reductions_rest (h : s.Searching F log) (zero : s.engine.trail.level = 0) {r : StepResult}
    (rests : s.Resting r t) :
    t.engine.stats.reductions = s.engine.stats.reductions ∨
      ∃ v, s.simplify = (.ok true, v) ∧ v.engine.isReductionDue = true ∧ v.engine.trail.level = 0 ∧
        t.engine.stats.reductions = s.engine.stats.reductions + 1 := by
  cases rests with
  | refuted upkept | failed upkept | propagateFirst upkept => exact reductions_upkeep h.working zero upkept
  | decided upkept decides =>
    obtain ⟨more, searching, -, -, propagated, -⟩ := h.upkept zero upkept
    have branched := reductions_branch searching propagated
    rw [decides] at branched
    rw [show t.engine.stats.reductions = _ from branched]
    exact reductions_upkeep h.working zero upkept

/-- A search goes on with an upkeep at level zero, perhaps after a restart, and then it opens a level. -/
theorem reductions_advance (h : s.Searching F log)
    (propagated : s.engine.trail.head = s.engine.trail.lits.size) {r : StepResult}
    (result : s.advance = (r, t)) :
    t.engine.stats.reductions = s.engine.stats.reductions ∨
      ∃ u v, s.withinBudget = (true, u) ∧ u.resumed.engine.trail.level = 0 ∧
        u.resumed.simplify = (.ok true, v) ∧ v.engine.isReductionDue = true ∧
        v.engine.trail.level = 0 ∧ t.engine.stats.reductions = s.engine.stats.reductions + 1 := by
  cases advance_cases result with
  | limited checked => exact .inl (congrArg (·.stats.reductions) (noted_withinBudget checked).1.engine)
  | @rested _ u _ checked zero rests =>
    have noted := (noted_withinBudget checked).1
    rw [← noted.engine, ← (chores_resumed u).strides.uncounted.reductions]
    exact (reductions_rest (h.noted noted).resumed.1 zero rests).imp_right
      fun ⟨v, reduces⟩ => ⟨u, v, checked, zero, reduces⟩
  | decided checked calm positive decides =>
    have noted := (noted_withinBudget checked).1
    rw [← noted.engine] at propagated ⊢
    have branched := reductions_branch (h.noted noted) propagated
    rw [decides] at branched
    exact .inl branched

/-- A step of a search reduces the clauses at most once, and then it is due and at level zero. -/
theorem reductions_searchStep (h : s.Searching F log) {r : StepResult}
    (result : s.searchStep = .ok (r, t)) :
    t.engine.stats.reductions = s.engine.stats.reductions ∨
      ∃ e, s.Reducing e ∧ e.trail.level = 0 ∧
        t.engine.stats.reductions = s.engine.stats.reductions + 1 := by
  have first {e : Engine} {conflict : Option Conflict} (run : s.engine.propagate = (e, conflict)) :
      e.stats.reductions = s.engine.stats.reductions := (uneventful_propagateFrom run).reductions
  have clashed {e : Engine} {c : Conflict} {u : Solver} (conflicts : s.Conflicts e c u) :
      e.clashed.stats.reductions = s.engine.stats.reductions := by
    obtain ⟨asked, run⟩ := conflicts
    rw [(noted_stopRequested asked).engine] at run
    exact (uneventful_propagateFrom run).reductions
  cases searchStep_cases result with
  | stopped asked => exact .inl (congrArg (·.stats.reductions) (noted_stopRequested asked).engine)
  | advanced proceeds advances =>
    obtain ⟨searching, -, -, finished⟩ := h.proceeds proceeds
    have advanced := reductions_advance searching finished advances
    obtain ⟨asked, run⟩ := proceeds
    have run' := run
    rw [(noted_stopRequested asked).engine] at run'
    rw [show (Engine.stats _).reductions = _ from first run'] at advanced
    refine advanced.imp_right fun ⟨u, v, checked, zero, simplified, due, level, counted⟩ => ?_
    exact ⟨v.engine, .mk (.mk asked run) checked zero simplified due, level, counted⟩
  | refuted conflicts => exact .inl (clashed conflicts)
  | failed conflicts positive handled | learnt conflicts positive handled =>
    exact .inl ((handleConflict_counts handled).1.reductions.trans (clashed conflicts))

/-- What a solver does before and after a search, and when it carries out a command. -/
inductive Aside (F : List (List Lit)) : Solver → Solver → Prop where
  | obeyed {s t : Solver} {c : Command} {answer : Answer} (before : History F s)
    (called : s.obey c = (answer, t)) : Aside F s t
  | opened {s t : Solver} {as : List Lit} (before : History F s) (ok : s.engine.ok = true)
    (assumed : s.addAssumptions as = .ok t) : Aside F s t.begun.opening.solver
  | concluded (outcome : Outcome) (s : Solver) : Aside F s (conclude (outcome, s)).2

theorem Aside.reductions (h : Aside F s t) :
    t.engine.stats.reductions = s.engine.stats.reductions := by
  cases h with
  | obeyed before called => exact (chores_obeyed before.rests (Solver.obeyed called)).strides.uncounted.reductions
  | @opened _ u as before ok assumed =>
    obtain ⟨rfl, known⟩ := addAssumptions_eq assumed
    obtain ⟨searching, -, zero⟩ := ((before.ready ok).assuming known).begun
    have chores := (chores_begun (s.assuming as)).trans
      (chores_opening searching.working.settled zero)
    exact chores.strides.uncounted.reductions
  | concluded outcome => exact (chores_conclude outcome s).strides.uncounted.reductions

/-- At every pause the reductions done have taken the conflicts that their gaps add up to. A step of a
search reduces the clauses at most once, and only if the options say so, the countdown is over and no
level is open. Nothing else reduces them. -/
theorem reductions_spaced :
    (∀ e, Pause F e → e.stats.reductions * e.opts.reduceFirst +
        e.opts.reduceIncrement * e.stats.reductions * (e.stats.reductions - 1) / 2 ≤ e.stats.conflicts ∧
      (e.opts.reduce = false → e.stats.reductions = 0)) ∧
    (∀ s t r, Searched F s → s.searchStep = .ok (r, t) →
      t.engine.stats.reductions = s.engine.stats.reductions ∨
      ∃ e, s.Reducing e ∧ e.opts.reduce = true ∧ e.policy.conflictsBeforeReduction = 0 ∧
        e.trail.level = 0 ∧ t.engine.stats.reductions = s.engine.stats.reductions + 1) ∧
    ∀ s t, Aside F s t → t.engine.stats.reductions = s.engine.stats.reductions := by
  refine ⟨fun e h => ?_, fun s t r before stepped => ?_, fun s t => Aside.reductions⟩
  · have kept := h.onSchedule
    have bound := kept.bound
    rw [Options.conflictsFor_eq] at bound
    exact ⟨bound, kept.off⟩
  · obtain ⟨log, searching⟩ := before.searching
    refine (reductions_searchStep searching stepped).imp_right fun ⟨e, reducing, zero, counted⟩ => ?_
    have due : e.isReductionDue = true := by
      cases reducing with
      | mk _ _ _ _ due => exact due
    obtain ⟨on, none⟩ := Bool.and_eq_true_iff.mp due
    exact ⟨e, reducing, on, eq_of_beq none, zero, counted⟩

/-- With gaps of one conflict, two conflicts and so on, the first reduction comes at the restart after the
first conflicts. -/
theorem reductions_spaced_eager : ∃ s t,
    Searched (clausesOf [[1, 2, 3], [1, 2, -3], [1, -2, 3], [1, -2, -3], [-1, 2, 3], [-1, 2, -3]]) s ∧
    s.searchStep = .ok (.continue, t) ∧ s.engine.stats.reductions = 0 ∧
    t.engine.stats.reductions = 1 ∧ t.engine.stats.conflicts = 2 ∧
    t.engine.stats.reductions * t.engine.opts.reduceFirst +
      t.engine.opts.reduceIncrement * t.engine.stats.reductions * (t.engine.stats.reductions - 1) / 2 ≤
        t.engine.stats.conflicts ∧
    (∃ e, s.Reducing e ∧ e.opts.reduce = true ∧ e.policy.conflictsBeforeReduction = 0 ∧
      e.trail.level = 0) ∧
    (conclude (.ok .unknown, t)).2.engine.stats.reductions = 1 := by
  have passes : sessionPasses { restarts := .everyConflict, reduceFirst := 1, reduceIncrement := 1 } 9
      (giving 3 (clausesOf [[1, 2, 3], [1, 2, -3], [1, -2, 3], [1, -2, -3], [-1, 2, 3], [-1, 2, -3]]))
      (clausesOf [[1, 2, 3], [1, 2, -3], [1, -2, 3], [1, -2, -3], [-1, 2, 3], [-1, 2, -3]])
      (fun s => s.engine.ok && s.searchPasses [] (stepsPass (fun t =>
        t.engine.stats.reductions == 0 && stepsPass (fun u =>
          u.engine.stats.reductions == 1 && u.engine.stats.conflicts == 2) 1 t) 4)) = true := by
    decide +kernel
  obtain ⟨r, history, tests⟩ := exists_of_sessionPasses passes
  obtain ⟨ok, searches⟩ := Bool.and_eq_true_iff.mp tests
  obtain ⟨q, u, assumed, starts, steps⟩ := exists_of_searchPasses searches
  obtain ⟨s, searched, tests⟩ := (Searched.start history ok assumed starts).exists_of_stepsPass steps
  obtain ⟨none, next⟩ := Bool.and_eq_true_iff.mp tests
  unfold stepsPass at next
  split at next
  next t stepped =>
    obtain ⟨one, two⟩ := Bool.and_eq_true_iff.mp next
    have counts : s.engine.stats.reductions = 0 ∧ t.engine.stats.reductions = 1 :=
      ⟨eq_of_beq none, eq_of_beq one⟩
    obtain ⟨spaced, reduces, rests⟩ := reductions_spaced (F := clausesOf [[1, 2, 3], [1, 2, -3],
      [1, -2, 3], [1, -2, -3], [-1, 2, 3], [-1, 2, -3]])
    refine ⟨s, t, searched, stepped, counts.1, counts.2, eq_of_beq two,
      (spaced _ (.stepped searched stepped)).1, ?_, (rests t _ (.concluded _ t)).trans counts.2⟩
    rcases reduces s t _ searched stepped with same | ⟨e, reducing, on, none, zero, -⟩
    · exact absurd (counts.2.symm.trans (same.trans counts.1)) (by decide)
    · exact ⟨e, reducing, on, none, zero⟩
  · cases next

end Solver

end Cdcl
