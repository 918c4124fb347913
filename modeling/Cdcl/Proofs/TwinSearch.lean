import Cdcl.Proofs.TwinAnalysis
import Cdcl.Proofs.TwinCompaction
import Cdcl.Proofs.TwinVivification

/-!
# Searches of twins

Two solvers are twins if their engines are and all else is the same, but for what their listeners
were told of compactions. As long as neither runs out of room they stay twins: through simplification
and vivification, through every step of a search, and through a whole search.

## Main results

- `Twins.settle`: whether either is compacted makes no difference.
- `Twins.searchStep`, `Twins.search`: twins search alike.
-/

namespace Cdcl

/-! ### Listeners -/

def Event.isCompaction : Event → Bool
  | .compacted _ _ => true
  | _ => false

namespace Listener

/-- The events kept, but those of compactions. -/
def told (l : Listener) : List Event := l.events.toList.filter fun e => !e.isCompaction

/-- Listeners that differ only in what they were told of compactions. -/
structure Twins (l k : Listener) : Prop where
  kind : k.kind = l.kind
  stopRule : k.stopRule = l.stopRule
  polls : k.polls = l.polls
  clock : k.clock = l.clock
  readings : k.readings = l.readings
  told : k.told = l.told

variable {l k : Listener}

theorem told_notify (l : Listener) (e : Event) : (l.notify e).told =
    if l.kind = .recording ∧ e.isCompaction = false then l.told ++ [e] else l.told := by
  unfold notify told
  cases kind : l.kind <;> cases compaction : e.isCompaction <;> simp [compaction, List.filter_append]

theorem notify_eq (l : Listener) (e : Event) : ∃ events, l.notify e = { l with events } := by
  unfold notify
  split <;> exact ⟨_, rfl⟩

theorem Twins.notify (h : l.Twins k) (e : Event) : (l.notify e).Twins (k.notify e) := by
  have told : (k.notify e).told = (l.notify e).told := by
    rw [told_notify, told_notify, h.kind, h.told]
  obtain ⟨_, left⟩ := l.notify_eq e
  obtain ⟨_, right⟩ := k.notify_eq e
  rw [left, right] at told ⊢
  exact ⟨h.kind, h.stopRule, h.polls, h.clock, h.readings, told⟩

/-- A compaction is not noticed. -/
theorem twins_compacted (l : Listener) (before after : Nat) :
    l.Twins (l.notify (.compacted before after)) := by
  have told := l.told_notify (.compacted before after)
  rw [if_neg fun both => Bool.false_ne_true both.2.symm] at told
  obtain ⟨_, same⟩ := l.notify_eq (.compacted before after)
  rw [same] at told ⊢
  exact ⟨rfl, rfl, rfl, rfl, rfl, told⟩

theorem Twins.symm (h : l.Twins k) : k.Twins l :=
  ⟨h.kind.symm, h.stopRule.symm, h.polls.symm, h.clock.symm, h.readings.symm, h.told.symm⟩

theorem Twins.trans {j : Listener} (h : l.Twins k) (i : k.Twins j) : l.Twins j :=
  ⟨i.kind.trans h.kind, i.stopRule.trans h.stopRule, i.polls.trans h.polls, i.clock.trans h.clock,
    i.readings.trans h.readings, i.told.trans h.told⟩

theorem Twins.poll (h : l.Twins k) : k.poll.1 = l.poll.1 ∧ l.poll.2.Twins k.poll.2 := by
  unfold Listener.poll
  rw [h.kind, h.stopRule, h.polls]
  split
  · exact ⟨rfl, h⟩
  · exact ⟨rfl, h⟩
  · exact ⟨rfl, { h with kind := rfl, stopRule := rfl, polls := rfl }⟩

theorem Twins.readClock (h : l.Twins k) :
    k.readClock.1 = l.readClock.1 ∧ l.readClock.2.Twins k.readClock.2 := by
  unfold Listener.readClock
  rw [h.clock, h.readings]
  exact ⟨rfl, { h with clock := rfl, readings := rfl }⟩

end Listener

/-! ### Engines that search -/

namespace Engine

variable {M : ClauseId → ClauseId → Prop} {e f : Engine}

namespace Mates

theorem stats_eq {α : Type} (h : Mates M e f) (read : Statistics → α)
    (free : ∀ s n, read { s with compactions := n } = read s) : read f.stats = read e.stats := by
  rw [h.stats, free]

theorem progressEstimate (h : Mates M e f) : f.progressEstimate = e.progressEstimate := by
  unfold Engine.progressEstimate
  rw [h.numVars, h.trail.level, h.trail.marks, h.trail.size]

theorem isReductionDue (h : Mates M e f) : f.isReductionDue = e.isReductionDue := by
  have reduce : f.opts.reduce = e.opts.reduce := h.opts_eq _ fun _ _ => rfl
  unfold Engine.isReductionDue
  rw [reduce, h.policy]

theorem pureLits (h : Mates M e f) (assumptions : List Lit) :
    f.pureLits assumptions = e.pureLits assumptions := by
  have stored : (f.originals ++ f.learnts).foldl f.flagStored DenseFlags.empty =
      (e.originals ++ e.learnts).foldl e.flagStored DenseFlags.empty := by
    rw [← Array.foldl_toList, ← Array.foldl_toList, Array.toList_append, Array.toList_append]
    refine (List.rel_foldl (P := Eq) (R := M) (fun flags flags' same a b pair => ?_) rfl
      (List.rel_append h.originals h.learnts)).symm
    unfold flagStored
    rw [same, h.clause pair]
  have occurs : f.occurring assumptions = e.occurring assumptions := by
    unfold Engine.occurring
    dsimp only
    rw [stored, h.binary]
  have chosen (flags : DenseFlags Lit) : f.pureLit? flags = e.pureLit? flags := by
    funext v
    unfold Engine.pureLit?
    rw [h.branching, h.trail.isUnassigned]
  unfold Engine.pureLits
  dsimp only
  rw [occurs, h.vars, chosen]

theorem pickLit (h : Mates M e f) : f.pickLit.1 = e.pickLit.1 ∧ Mates M e.pickLit.2 f.pickLit.2 := by
  unfold Engine.pickLit
  rw [h.branching, h.trail.isUnassigned]
  exact ⟨rfl, { h with branching := rfl }⟩

end Mates

namespace Twins

theorem openLevel (h : Twins M e f) : Twins M e.openLevel f.openLevel :=
  { h with toMates := h.toMates.openLevel }

theorem openAssumed (h : Twins M e f) (rest : List (Lit × Bool)) :
    (Engine.openAssumed rest f).1 = (Engine.openAssumed rest e).1 ∧
      Twins M (Engine.openAssumed rest e).2 (Engine.openAssumed rest f).2 := by
  induction rest generalizing e f with
  | nil => exact ⟨rfl, h⟩
  | cons entry rest ih =>
    unfold Engine.openAssumed
    rw [h.trail.valueLit]
    split
    · exact ⟨rfl, h⟩
    · split
      · exact ⟨rfl, h⟩
      · exact ih h.openLevel
    · exact ih h.openLevel

theorem analyzeFinal (h : Twins M e f) {n : Nat} (coherent : e.trail.Coherent n) (p : Lit) :
    (f.analyzeFinal p).2 = (e.analyzeFinal p).2 ∧
      Twins M (e.analyzeFinal p).1 (f.analyzeFinal p).1 := by
  have marked (x : Engine) : ∃ seen, (x.analyzeFinal p).1 = { x with seen } := by
    unfold Engine.analyzeFinal
    dsimp only
    split
    · exact ⟨x.seen, rfl⟩
    · exact ⟨_, rfl⟩
  obtain ⟨same, mates⟩ := h.toMates.analyzeFinal coherent p
  obtain ⟨_, left⟩ := marked e
  obtain ⟨_, right⟩ := marked f
  rw [left, right] at mates ⊢
  exact ⟨same, { h with toMates := mates }⟩

theorem pickLit (h : Twins M e f) :
    f.pickLit.1 = e.pickLit.1 ∧ Twins M e.pickLit.2 f.pickLit.2 :=
  ⟨h.toMates.pickLit.1, { h with toMates := h.toMates.pickLit.2 }⟩

end Twins

end Engine

/-! ### Solvers -/

namespace Solver

/-- Solvers that differ in nothing but where clauses are stored, what is left of clauses out of use,
and what is known of compactions. -/
structure Twins (s t : Solver) : Prop where
  engine : ∃ M, s.engine.Twins M t.engine
  model : t.model = s.model
  core : t.core = s.core
  assumptions : t.assumptions = s.assumptions
  pureLits : t.pureLits = s.pureLits
  pureLitsStale : t.pureLitsStale = s.pureLitsStale
  given : t.given = s.given
  status : t.status = s.status
  interrupted : t.interrupted = s.interrupted
  budget : t.budget = s.budget
  verbosity : t.verbosity = s.verbosity
  listener : s.listener.Twins t.listener

/-- Unless one of them ran out of room, two solvers went on alike: both met the same fault, or their
answers are related and they are twins. -/
inductive Abreast {α : Type} (full : α → Prop) (R : α → α → Prop) :
    Except Fault (α × Solver) → Except Fault (α × Solver) → Prop where
  | fault (fault : Fault) : Abreast full R (.error fault) (.error fault)
  | left {a : α} {s : Solver} {q : Except Fault (α × Solver)} (out : full a) :
    Abreast full R (.ok (a, s)) q
  | right {b : α} {t : Solver} {r : Except Fault (α × Solver)} (out : full b) :
    Abreast full R r (.ok (b, t))
  | both {a b : α} {s t : Solver} (same : R a b) (twins : s.Twins t) :
    Abreast full R (.ok (a, s)) (.ok (b, t))

theorem Abreast.cases {α : Type} {full : α → Prop} {R : α → α → Prop} {a b : α} {s t : Solver}
    (h : Abreast full R (.ok (a, s)) (.ok (b, t))) : full a ∨ full b ∨ R a b ∧ s.Twins t := by
  cases h with
  | left out => exact .inl out
  | right out => exact .inr (.inl out)
  | both same twins => exact .inr (.inr ⟨same, twins⟩)

/-- There was no room in the arena. -/
def OutOfRoom {α : Type} (answer : Except SolverError α) : Prop :=
  ∃ requested limit, answer = .error (.arenaExhausted requested limit)

variable {F F' log log' : List (List Lit)} {s t : Solver}

namespace Twins

theorem notify (h : s.Twins t) (e : Event) : (s.notify e).Twins (t.notify e) :=
  { h with listener := h.listener.notify e }

theorem put (h : s.Twins t) {M : ClauseId → ClauseId → Prop} {e f : Engine} (engines : e.Twins M f) :
    Twins { s with engine := e } { t with engine := f } :=
  { h with engine := ⟨M, engines⟩ }

theorem reportProgress (h : s.Twins t) : s.reportProgress.Twins t.reportProgress := by
  obtain ⟨M, twins⟩ := h.engine
  have stats (read : Statistics → Nat) (free : ∀ s n, read { s with compactions := n } = read s) :=
    twins.stats_eq read free
  unfold Solver.reportProgress
  dsimp only
  rw [h.verbosity, stats Statistics.conflicts fun _ _ => rfl, stats Statistics.restarts fun _ _ => rfl,
    stats Statistics.reductions fun _ _ => rfl, twins.tally, twins.policy, twins.progressEstimate]
  split
  · exact h
  · exact h.notify _

theorem stopRequested (h : s.Twins t) :
    t.stopRequested.1 = s.stopRequested.1 ∧ s.stopRequested.2.Twins t.stopRequested.2 := by
  obtain ⟨same, listeners⟩ := h.listener.poll
  have interrupted := h.interrupted
  unfold Solver.stopRequested
  cases asked : s.interrupted with
  | true =>
    rw [asked] at interrupted
    rw [interrupted, if_pos rfl, if_pos rfl]
    exact ⟨rfl, h⟩
  | false =>
    rw [asked] at interrupted
    rw [interrupted, if_neg Bool.false_ne_true, if_neg Bool.false_ne_true]
    exact ⟨same, { h with interrupted := rfl, listener := listeners }⟩

theorem symm (h : s.Twins t) : t.Twins s where
  engine := h.engine.elim fun _ twins => ⟨_, twins.symm⟩
  model := h.model.symm
  core := h.core.symm
  assumptions := h.assumptions.symm
  pureLits := h.pureLits.symm
  pureLitsStale := h.pureLitsStale.symm
  given := h.given.symm
  status := h.status.symm
  interrupted := h.interrupted.symm
  budget := h.budget.symm
  verbosity := h.verbosity.symm
  listener := h.listener.symm

/-! ### Compaction -/

theorem settle_left (h : s.Twins t) (settled : s.engine.Settled F) :
    OutOfRoom s.settle.1 ∨ s.settle.1 = .ok true ∧ s.settle.2.Twins t := by
  obtain ⟨M, twins⟩ := h.engine
  rcases result : s.settle with ⟨answer, s'⟩
  cases settle_cases result with
  | idle => exact .inr ⟨rfl, h⟩
  | @compacted e compacted =>
    obtain ⟨N, twins⟩ := twins.compact_left settled compacted
    exact .inr ⟨rfl,
      { h with
        engine := ⟨N, twins⟩
        listener := (s.listener.twins_compacted _ _).symm.trans h.listener }⟩
  | full failed =>
    obtain ⟨requested, limit, rfl⟩ := settled.compact_error failed
    exact .inl ⟨requested, limit, rfl⟩

theorem settle_right (h : s.Twins t) (settled : t.engine.Settled F) :
    OutOfRoom t.settle.1 ∨ t.settle.1 = .ok true ∧ s.Twins t.settle.2 :=
  (h.symm.settle_left settled).imp_right fun fits => ⟨fits.1, fits.2.symm⟩

/-- Whether either of them is compacted makes no difference. -/
theorem settle (h : s.Twins t) (settled : s.engine.Settled F) (settled' : t.engine.Settled F') :
    Abreast OutOfRoom Eq (.ok s.settle) (.ok t.settle) := by
  rcases h.settle_left settled with full | ⟨fits, h⟩
  · exact .left full
  · rcases h.settle_right settled' with full | ⟨fits', h⟩
    · exact .right full
    · exact .both (fits.trans fits'.symm) h

theorem checkVar (h : s.Twins t) : t.checkVar = s.checkVar := by
  obtain ⟨M, engines⟩ := h.engine
  funext v
  unfold Solver.checkVar
  rw [engines.numVars]

theorem checkLit (h : s.Twins t) : t.checkLit = s.checkLit := by
  funext l
  unfold Solver.checkLit
  rw [h.checkVar]

theorem level (h : s.Twins t) : t.engine.trail.level = s.engine.trail.level := by
  obtain ⟨M, twins⟩ := h.engine
  exact twins.trail.level

/-! ### Upkeep -/

theorem simplify (h : s.Twins t) (settled : s.engine.Settled F) (settled' : t.engine.Settled F')
    (zero : s.engine.trail.level = 0) :
    Abreast OutOfRoom Eq (.ok s.simplify) (.ok t.simplify) := by
  obtain ⟨M, twins⟩ := h.engine
  obtain ⟨same, twins⟩ :=
    twins.simplify settled.order.1 settled'.order.1 settled.order.2 settled'.order.2
  rcases simplified : s.engine.simplify with ⟨outcome, e⟩
  rcases simplified' : t.engine.simplify with ⟨outcome', f⟩
  have spec := settled.simplify zero simplified
  have spec' := settled'.simplify (h.level.trans zero) simplified'
  rw [simplified, simplified'] at same twins
  cases same
  unfold Solver.simplify
  rw [simplified, simplified']
  cases outcome with
  | refuted => exact .both rfl (h.put twins)
  | upToDate => exact .both rfl (h.put twins)
  | done =>
    rw [if_neg (by decide)] at spec spec'
    have stale : Twins { s with engine := e, pureLitsStale := true }
        { t with engine := f, pureLitsStale := true } := { h.put twins with pureLitsStale := rfl }
    exact (stale.notify .simplified).settle spec.1.toSettled spec'.1.toSettled

theorem vivifyQuietly (h : s.Twins t) (settled : s.engine.Settled F)
    (settled' : t.engine.Settled F') (zero : s.engine.trail.level = 0) (minSize : Nat) :
    Abreast OutOfRoom Eq (.ok (s.vivifyQuietly minSize)) (.ok (t.vivifyQuietly minSize)) := by
  have step := h.simplify settled settled' zero
  rcases simplified : s.simplify with ⟨answer, u⟩
  rcases simplified' : t.simplify with ⟨answer', v⟩
  rw [simplified, simplified'] at step
  unfold Solver.vivifyQuietly
  rw [simplified, simplified']
  obtain ⟨n, m, rfl⟩ | ⟨n, m, rfl⟩ | ⟨rfl, twins⟩ := step.cases
  · exact .left ⟨n, m, rfl⟩
  · exact .right ⟨n, m, rfl⟩
  · match answer with
    | .error err => exact .both rfl twins
    | .ok false => exact .both rfl twins
    | .ok true =>
      have quiet := quiet_of_simplify settled zero simplified
      have quiet' := quiet_of_simplify settled' (h.level.trans zero) simplified'
      obtain ⟨M, engines⟩ := twins.engine
      have vivified := engines.vivifyAll quiet quiet' minSize
      dsimp only [mapEngine]
      rw [vivified.ok]
      split
      next ok =>
        have kept := (quiet.vivifyAll minSize).resolve_left fun refuted =>
          Bool.false_ne_true (refuted.notOk.symm.trans ok)
        have kept' := (quiet'.vivifyAll minSize).resolve_left fun refuted =>
          Bool.false_ne_true (refuted.notOk.symm.trans (vivified.ok.trans ok))
        exact (twins.put vivified).settle kept.1.toSettled kept'.1.toSettled
      next => exact .both rfl (twins.put vivified)

theorem vivify (h : s.Twins t) (settled : s.engine.Settled F) (settled' : t.engine.Settled F')
    (zero : s.engine.trail.level = 0) (minSize : Nat) :
    Abreast OutOfRoom Eq (.ok (s.vivify minSize)) (.ok (t.vivify minSize)) := by
  have step := h.vivifyQuietly settled settled' zero minSize
  rcases vivified : s.vivifyQuietly minSize with ⟨answer, u⟩
  rcases vivified' : t.vivifyQuietly minSize with ⟨answer', v⟩
  rw [vivified, vivified'] at step
  unfold Solver.vivify
  rw [vivified, vivified']
  obtain ⟨n, m, rfl⟩ | ⟨n, m, rfl⟩ | ⟨rfl, twins⟩ := step.cases
  · exact .left ⟨n, m, rfl⟩
  · exact .right ⟨n, m, rfl⟩
  · match answer with
    | .error err => exact .both rfl twins
    | .ok false => exact .both rfl { twins with status := rfl }
    | .ok true => exact .both rfl twins

theorem restart (h : s.Twins t) : s.restart.Twins t.restart := by
  obtain ⟨M, twins⟩ := h.engine
  have noted : Engine.Twins M { s.engine with policy := s.engine.policy.noteRestart }
      { t.engine with policy := t.engine.policy.noteRestart } :=
    { twins with policy := congrArg Policy.noteRestart twins.policy }
  have counted := noted.modifyStats (fun st => { st with restarts := st.restarts + 1 }) fun _ _ => rfl
  exact ((h.put (counted.cancelTo 0)).notify .restarted).reportProgress

theorem reduce (h : s.Twins t) (settled : s.engine.Settled F) (settled' : t.engine.Settled F')
    (zero : s.engine.trail.level = 0) :
    Abreast OutOfRoom Eq (.ok s.reduce) (.ok t.reduce) := by
  obtain ⟨M, twins⟩ := h.engine
  have reduced := twins.reduce settled settled' zero
  unfold Solver.reduce
  dsimp only [mapEngine]
  have before : t.engine.learnts.size = s.engine.learnts.size := twins.learnts.length_eq.symm
  have after : t.engine.reduce.learnts.size = s.engine.reduce.learnts.size :=
    reduced.learnts.length_eq.symm
  rw [before, after]
  have kept {G : List (List Lit)} (x : Solver) (event : Event) (settled : x.engine.Settled G) :
      (x.notify event).reportProgress.engine.Settled G := by
    rw [(noted_reportProgress _).engine]
    exact settled
  exact ((h.put reduced).notify _).reportProgress.settle (kept _ _ (settled.reduce zero).1)
    (kept _ _ (settled'.reduce (h.level.trans zero)).1)

end Twins

/-- There was no room in the arena at upkeep. -/
def Upkeep.OutOfRoom (u : Upkeep) : Prop :=
  ∃ requested limit, u = .failed (.arenaExhausted requested limit)

namespace Twins

theorem reduceIfDue (h : s.Twins t) (settled : s.engine.Settled F) (settled' : t.engine.Settled F')
    (zero : s.engine.trail.level = 0) :
    Abreast Upkeep.OutOfRoom Eq (.ok s.reduceIfDue) (.ok t.reduceIfDue) := by
  have step := h.reduce settled settled' zero
  obtain ⟨M, twins⟩ := h.engine
  unfold Solver.reduceIfDue
  rw [twins.isReductionDue]
  split
  · rcases reduced : s.reduce with ⟨answer, u⟩
    rcases reduced' : t.reduce with ⟨answer', v⟩
    rw [reduced, reduced'] at step
    obtain ⟨n, m, rfl⟩ | ⟨n, m, rfl⟩ | ⟨rfl, twins⟩ := step.cases
    · exact .left ⟨n, m, rfl⟩
    · exact .right ⟨n, m, rfl⟩
    · cases answer with
      | error err => exact .both rfl twins
      | ok _ =>
        obtain ⟨N, engines⟩ := twins.engine
        dsimp only
        rw [engines.trail.isPropagated]
        exact .both rfl twins
  · exact .both rfl h

theorem findPureLits (h : s.Twins t) : s.findPureLits.Twins t.findPureLits := by
  obtain ⟨M, twins⟩ := h.engine
  have mode : t.engine.opts.pureLiterals = s.engine.opts.pureLiterals :=
    twins.opts_eq Options.pureLiterals fun _ _ => rfl
  unfold Solver.findPureLits
  rw [mode, h.assumptions, twins.pureLits]
  dsimp only
  generalize (if s.engine.opts.pureLiterals = true then s.engine.pureLits s.assumptions.toList else [])
    = found
  have counted := twins.modifyStats
    (fun st => { st with pureLiterals := st.pureLiterals + found.length }) fun _ _ => rfl
  exact { h.put counted with assumptions := rfl, pureLits := rfl, pureLitsStale := rfl }

theorem upkeep (h : s.Twins t) (working : s.engine.Working F log)
    (working' : t.engine.Working F' log') (zero : s.engine.trail.level = 0) :
    Abreast Upkeep.OutOfRoom Eq (.ok s.upkeep) (.ok t.upkeep) := by
  have step := h.simplify working.settled working'.settled zero
  rcases simplified : s.simplify with ⟨answer, u⟩
  rcases simplified' : t.simplify with ⟨answer', v⟩
  rw [simplified, simplified'] at step
  unfold Solver.upkeep
  rw [simplified, simplified']
  obtain ⟨n, m, rfl⟩ | ⟨n, m, rfl⟩ | ⟨rfl, twins⟩ := step.cases
  · exact .left ⟨n, m, rfl⟩
  · exact .right ⟨n, m, rfl⟩
  · -- Both go on to a reduction only if the simplification found no contradiction.
    match answer with
    | .error err => exact .both rfl twins
    | .ok false => exact .both rfl twins
    | .ok true =>
      have quiet := quiet_of_simplify working.settled zero simplified
      have quiet' := quiet_of_simplify working'.settled (h.level.trans zero) simplified'
      have step := twins.reduceIfDue quiet.toSettled quiet'.toSettled quiet.zero
      dsimp only
      rcases reduced : u.reduceIfDue with ⟨outcome, x⟩
      rcases reduced' : v.reduceIfDue with ⟨outcome', y⟩
      rw [reduced, reduced'] at step
      obtain ⟨n, m, rfl⟩ | ⟨n, m, rfl⟩ | ⟨rfl, twins⟩ := step.cases
      · exact .left ⟨n, m, rfl⟩
      · exact .right ⟨n, m, rfl⟩
      · cases outcome with
        | done =>
          refine .both rfl ?_
          rw [twins.pureLitsStale]
          split
          · exact twins.findPureLits
          · exact twins
        | _ => exact .both rfl twins

end Twins

/-! ### Steps of a search -/

/-- There was no room in the arena in a step. -/
def StepResult.OutOfRoom (r : StepResult) : Prop :=
  ∃ requested limit, r = .failed (.arenaExhausted requested limit)

namespace Twins

theorem branch (h : s.Twins t) (searching : s.Searching F log)
    (propagated : s.engine.trail.head = s.engine.trail.lits.size) :
    t.branch.1 = s.branch.1 ∧ s.branch.2.Twins t.branch.2 := by
  obtain ⟨M, twins⟩ := h.engine
  have left : (t.assumptions.toList.map (·, true) ++ t.pureLits.toList.map (·, false)).drop
      t.engine.trail.level =
      (s.assumptions.toList.map (·, true) ++ s.pureLits.toList.map (·, false)).drop
        s.engine.trail.level := by
    -- Twins are at the same level, so that as many assumptions and pure literals are left for both.
    rw [h.assumptions, h.pureLits, h.level]
  unfold Solver.branch
  dsimp only
  rw [left]
  generalize toAssume : (s.assumptions.toList.map (·, true) ++
    s.pureLits.toList.map (·, false)).drop s.engine.trail.level = rest
  obtain ⟨same, twins⟩ := twins.openAssumed rest
  rcases opened : s.engine.openAssumed rest with ⟨a, e⟩
  rcases opened' : t.engine.openAssumed rest with ⟨b, f⟩
  rw [opened, opened'] at same twins
  obtain ⟨working, -⟩ :=
    searching.working.openAssumed _ searching.presumes propagated toAssume.symm opened
  cases same
  cases a with
  | next l => exact ⟨rfl, h.put (twins.decide l)⟩
  | violated l =>
    obtain ⟨same, marked⟩ := twins.analyzeFinal working.settled.order.1.trail l.neg
    exact ⟨rfl, { h.put marked with core := same }⟩
  | all =>
    dsimp only
    obtain ⟨same, picked⟩ :=
      (twins.modifyStats (fun st => { st with decisions := st.decisions + 1 }) fun _ _ => rfl).pickLit
    rcases chosen : (e.modifyStats fun st => { st with decisions := st.decisions + 1 }).pickLit
      with ⟨choice, e'⟩
    rcases chosen' : (f.modifyStats fun st => { st with decisions := st.decisions + 1 }).pickLit
      with ⟨choice', f'⟩
    rw [chosen, chosen'] at same picked
    cases same
    cases choice with
    | none => exact ⟨rfl, h.put picked⟩
    | some l => exact ⟨rfl, h.put (picked.decide l)⟩

theorem rest (h : s.Twins t) (searching : s.Searching F log) (searching' : t.Searching F' log')
    (zero : s.engine.trail.level = 0) :
    Abreast StepResult.OutOfRoom Eq
      (.ok (match s.upkeep with
        | (.refuted, s) => (.finished .unsat, s)
        | (.failed e, s) => (.failed e, s)
        | (.propagateFirst, s) => (.continue, s)
        | (.done, s) => s.branch))
      (.ok (match t.upkeep with
        | (.refuted, s) => (.finished .unsat, s)
        | (.failed e, s) => (.failed e, s)
        | (.propagateFirst, s) => (.continue, s)
        | (.done, s) => s.branch)) := by
  have step := h.upkeep searching.working searching'.working zero
  rcases called : s.upkeep with ⟨outcome, u⟩
  rcases called' : t.upkeep with ⟨outcome', v⟩
  rw [called, called'] at step
  obtain ⟨n, m, rfl⟩ | ⟨n, m, rfl⟩ | ⟨rfl, twins⟩ := step.cases
  · exact .left ⟨n, m, rfl⟩
  · exact .right ⟨n, m, rfl⟩
  · cases outcome with
    | refuted => exact .both rfl twins
    | failed err => exact .both rfl twins
    | propagateFirst => exact .both rfl twins
    | done =>
      obtain ⟨more, searching, -, -, propagated, -⟩ := searching.upkept zero called
      obtain ⟨same, branched⟩ := twins.branch searching propagated
      exact .both same.symm branched

theorem withinBudget (h : s.Twins t) :
    t.withinBudget.1 = s.withinBudget.1 ∧ s.withinBudget.2.Twins t.withinBudget.2 := by
  obtain ⟨M, twins⟩ := h.engine
  have isOpen : t.budget.isOpen t.engine.stats = s.budget.isOpen s.engine.stats := by
    rw [h.budget]
    exact twins.stats_eq s.budget.isOpen fun _ _ => rfl
  obtain ⟨same, listeners⟩ := h.listener.readClock
  unfold Solver.withinBudget
  rw [isOpen, h.budget]
  split
  · split
    · exact ⟨rfl, h⟩
    next deadline _ =>
      dsimp only
      rw [same]
      exact ⟨rfl, { h with budget := rfl, listener := listeners }⟩
  · exact ⟨rfl, h⟩

theorem advance (h : s.Twins t) (searching : s.Searching F log) (searching' : t.Searching F' log')
    (propagated : s.engine.trail.head = s.engine.trail.lits.size) :
    Abreast StepResult.OutOfRoom Eq (.ok s.advance) (.ok t.advance) := by
  obtain ⟨same, h⟩ := h.withinBudget
  unfold Solver.advance
  rcases checked : s.withinBudget with ⟨within, u⟩
  rcases checked' : t.withinBudget with ⟨within', v⟩
  have noted := (noted_withinBudget checked).1
  have searching := searching.noted noted
  have searching' := searching'.noted (noted_withinBudget checked').1
  rw [← noted.engine] at propagated
  rw [checked, checked'] at same h
  cases same
  obtain ⟨M, twins⟩ := h.engine
  cases within with
  | false => exact .both rfl h
  | true =>
    dsimp only at twins h ⊢
    rw [twins.policy]
    split
    · obtain ⟨restarted, -, zero, -⟩ := searching.restart
      obtain ⟨restarted', -, zero', -⟩ := searching'.restart
      rw [if_pos zero, if_pos zero']
      exact h.restart.rest restarted restarted' zero
    · rw [h.level]
      split
      next zero => exact h.rest searching searching' zero
      next =>
        obtain ⟨same, branched⟩ := h.branch searching propagated
        exact .both same.symm branched

theorem searchStep (h : s.Twins t) (searching : s.Searching F log)
    (searching' : t.Searching F' log') :
    Abreast StepResult.OutOfRoom Eq s.searchStep t.searchStep := by
  obtain ⟨same, asking⟩ := h.stopRequested
  rcases asked : s.stopRequested with ⟨stop, u⟩
  rcases asked' : t.stopRequested with ⟨stop', v⟩
  have engine : u.engine = s.engine := (noted_stopRequested asked).engine
  have engine' : v.engine = t.engine := (noted_stopRequested asked').engine
  rw [asked, asked'] at same asking
  cases same
  unfold Solver.searchStep
  rw [asked, asked']
  cases stop with
  | true => exact .both rfl asking
  | false =>
    have working : u.engine.Working F log := engine.symm ▸ searching.working
    have working' : v.engine.Working F' log' := engine'.symm ▸ searching'.working
    obtain ⟨M, twins⟩ := asking.engine
    obtain ⟨twins, conflicts⟩ := twins.propagate working.settled.order.1 working'.settled.order.1
      working.settled.order.2 working'.settled.order.2
    rcases run : u.engine.propagate with ⟨e, conflict⟩
    rcases run' : v.engine.propagate with ⟨f, conflict'⟩
    dsimp only
    rw [run, run'] at twins conflicts
    rw [run, run']
    cases conflicts with
    | none =>
      obtain ⟨searching, -, -, finished⟩ := searching.proceeds (.mk asked run)
      obtain ⟨searching', -⟩ := searching'.proceeds (.mk asked' run')
      exact (asking.put twins).advance searching searching' finished
    | @some c c' pair =>
      -- A conflict: both engines analyze it, learn the same clause and store it, if they have room.
      have counted :=
        twins.modifyStats (fun st => { st with conflicts := st.conflicts + 1 }) fun _ _ => rfl
      obtain ⟨-, sound, -, conflict⟩ := working.conflict run
      obtain ⟨-, sound', -, conflict'⟩ := working'.conflict run'
      dsimp only
      rw [counted.trail.level]
      split
      · exact .both rfl (asking.put counted)
      next positive =>
        obtain ⟨handled, e', learnt⟩ := Engine.handleConflict_total
          (e := e.modifyStats fun st => { st with conflicts := st.conflicts + 1 })
          { sound with } conflict positive
        obtain ⟨handled', f', learnt', alike⟩ := counted.toMates.handleConflict
          { sound with } { sound' with } conflict conflict' positive pair learnt
        rw [learnt, learnt']
        obtain ⟨n, m, rfl⟩ | ⟨n, m, rfl⟩ | ⟨rfl, N, more, mates⟩ := alike
        · exact .left ⟨n, m, rfl⟩
        · cases handled <;> exact .right ⟨n, m, rfl⟩
        · have kept := asking.put (counted.keep mates more
            (Engine.frozenKept_handleConflict learnt) (Engine.frozenKept_handleConflict learnt'))
          cases handled' <;> exact .both rfl kept

/-- Twins search alike. -/
theorem search (n : Nat) (h : s.Twins t) (searching : s.Searching F log)
    (searching' : t.Searching F' log') :
    Abreast OutOfRoom Eq (Solver.search n s) (Solver.search n t) := by
  induction n generalizing s t log log' with
  | zero => exact .fault .stepsExhausted
  | succ n ih =>
    have step := h.searchStep searching searching'
    obtain ⟨r, u, stepped, after⟩ := searching.step
    obtain ⟨q, v, stepped', after'⟩ := searching'.step
    rw [stepped, stepped'] at step
    unfold Solver.search
    rw [stepped, stepped']
    obtain ⟨n, m, rfl⟩ | ⟨n, m, rfl⟩ | ⟨rfl, twins⟩ := step.cases
    · exact .left ⟨n, m, rfl⟩
    · exact .right ⟨n, m, rfl⟩
    · cases after with
      | finished => exact .both rfl twins
      | failed => exact .both rfl twins
      | «continue» searching =>
        cases after' with
        | «continue» searching' => exact ih twins searching searching'

end Twins

end Solver

end Cdcl
