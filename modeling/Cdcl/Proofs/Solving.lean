import Cdcl.Proofs.ClauseLogs
import Cdcl.Proofs.Models
import Cdcl.Proofs.SearchSteps

/-!
# A solve from beginning to end

A solve may be answered before any search: by a stop, by assumptions that contradict each other or the
facts, or by the preparation of the clauses. Otherwise it searches, takes down what was found, and goes
back to level zero.

## Main results

- `opening`, `solveKeeping_eq`: how a solve begins, and what is left to do then.
- `Ready.solve`: what a solve comes to.
-/

namespace Cdcl

namespace Solver

variable {F log : List (List Lit)} {s t u : Solver}

/-! ### How a solve begins -/

/-- What comes before the search. -/
inductive Opening where
  /-- There is no search to be made. -/
  | answered (outcome : Outcome) (s : Solver)
  /-- The search begins here. -/
  | search (s : Solver)

/-- Clear what an earlier solve found, and fix the deadline. -/
def begun (s : Solver) : Solver :=
  (mapEngine { s with model := #[], core := s.core.clear }.setDeadline fun e =>
    e.modifyStats fun st => { st with solves := st.solves + 1 }).notify .started

/-- All that a solve does before its search. -/
def opening (s : Solver) : Opening :=
  match s.stopRequested with
  | (true, s) => .answered (.ok .interrupted) s
  | (false, s) =>
    match contradiction? s.engine.trail s.assumptions.toList {} with
    | some core => .answered (.ok .unsat) { s with core }
    | none =>
      match s.prepare with
      | (.error e, s) => .answered (.error e) s
      | (.ok false, s) => .answered (.ok .unsat) s
      | (.ok true, s) => .search { s with pureLitsStale := true }

/-- Take down what was found, and undo the search. -/
def conclude : Outcome × Solver → Outcome × Solver
  | (.error err, s) => (.error err, s.leaveSearch .unknown)
  | (.ok status, s) => (.ok status, ((s.takeResult status).leaveSearch status).notify (.finished status))

theorem decideStatus_eq (steps : Nat) (s : Solver) :
    decideStatus steps s = match s.opening with
      | .answered outcome t => .ok (outcome, t)
      | .search t => search steps t := by
  unfold decideStatus opening
  rcases s.stopRequested with ⟨asked, t⟩
  cases asked with
  | true => rfl
  | false =>
    dsimp only
    cases contradiction? t.engine.trail t.assumptions.toList {} with
    | some core => rfl
    | none =>
      unfold prepareAndSearch
      rcases t.prepare with ⟨err | fine, u⟩
      · rfl
      · cases fine <;> rfl

/-- A solve of clauses that are not known to be contradictory, for which the clock shows the deadline. -/
theorem solveKeeping_eq (steps : Nat) (ok : s.engine.ok = true) (shows : s.begun.deadlineShows = true) :
    solveKeeping steps s = match s.begun.opening with
      | .answered outcome t => .ok (conclude (outcome, t))
      | .search t => (search steps t).map conclude := by
  have whole : solveKeeping steps s = (decideStatus steps s.begun).map conclude := by
    unfold solveKeeping
    dsimp only
    rw [ok, Bool.not_true, if_neg nofun]
    refine (if_pos shows).trans ?_
    unfold begun
    generalize decideStatus steps _ = result
    rcases result with fault | ⟨err | status, t⟩ <;> rfl
  rw [whole, decideStatus_eq]
  cases s.begun.opening <;> rfl

/-- No solve is made up to a moment that the clock never shows. -/
theorem solveKeeping_of_not_shows (steps : Nat) (ok : s.engine.ok = true)
    (late : s.begun.deadlineShows = false) : solveKeeping steps s = .error .deadlineTooLate := by
  unfold solveKeeping
  dsimp only
  rw [ok, Bool.not_true, if_neg nofun]
  exact if_neg (Bool.eq_false_iff.mp late)

theorem shows_of_solveKeeping {steps : Nat} {result : Outcome × Solver} (ok : s.engine.ok = true)
    (solved : solveKeeping steps s = .ok result) : s.begun.deadlineShows = true := by
  by_contra late
  cases (solveKeeping_of_not_shows steps ok (Bool.eq_false_iff.mpr late)).symm.trans solved

/-- A deadline is set only for a limited time, and nothing else is changed. -/
theorem setDeadline_eq (s : Solver) : ∃ listener budget,
    s.setDeadline = { s with listener, budget } ∧ listener.kind = s.listener.kind ∧
      listener.stopRule = s.listener.stopRule ∧ (∀ stats, budget.isOpen stats = s.budget.isOpen stats) ∧
      (budget.deadline ≠ none → s.budget.time ≠ none) := by
  unfold setDeadline
  split
  next => exact ⟨_, _, rfl, rfl, rfl, fun _ => rfl, nofun⟩
  next limited => exact ⟨_, _, rfl, rfl, rfl, fun _ => rfl, fun _ => limited ▸ nofun⟩

/-! ### Assumptions that contradict each other or the facts -/

/-- The literals that contradict each other, or a fact, form a core. -/
theorem core_of_contradiction {e : Engine} {as rest : List Lit} {before core : DenseSet Lit}
    (h : e.Settled F) (proper : before.Proper) (earlier : ∀ k ∈ before.toList, k ∈ as)
    (later : ∀ k ∈ rest, k ∈ as) (result : contradiction? e.trail rest before = some core) :
    Core F as core := by
  induction rest generalizing before with
  | nil => cases result
  | cons l rest ih =>
    obtain ⟨first, others⟩ := List.forall_mem_cons.mp later
    unfold contradiction? at result
    split at result
    -- Either the opposite of the literal is a fact, or it is one of the assumptions before.
    next fails =>
      cases result
      have single : (DenseSet.empty.insert l.neg).toList = [l.neg] := rfl
      obtain ⟨pairs, faithful⟩ := h.faithful
      have fact : l.neg ∈ e.trail.facts := by
        have coherent := faithful.sound.trail
        unfold Trail.factValue at fails
        dsimp only at fails
        split at fails
        next settled =>
          obtain ⟨-, level⟩ := Bool.and_eq_true_iff.mp settled
          refine coherent.mem_facts_iff_levelOf.mpr ⟨?_, by simpa using level⟩
          exact (coherent.isFalse_iff l).mp ((e.trail.valueLit_eq_no_iff l).mp fails)
        next => cases fails
      refine ⟨by rw [single]; exact nofun, by rw [single]; exact List.nodup_singleton _, ?_, ?_⟩
      · rw [single, List.forall_mem_singleton, Lit.neg_neg]
        exact first
      · intro σ holds
        rw [single]
        exact ⟨l.neg, List.mem_singleton_self _, (faithful.upheld σ holds).facts _ fact⟩
    next =>
      split at result
      next opposed =>
        cases result
        have both := (DenseSet.proper_empty.insert l).insert l.neg
        have members (q : Lit) : q ∈ ((DenseSet.empty.insert l).insert l.neg).toList ↔
            q = l ∨ q = l.neg := by
          rw [(DenseSet.proper_empty.insert l).mem_insert, DenseSet.proper_empty.mem_insert]
          exact or_congr_left (or_iff_right nofun)
        refine ⟨List.ne_nil_of_mem ((members l).mpr (.inl rfl)), both.nodup, fun q inside => ?_, ?_⟩
        · rcases (members q).mp inside with rfl | rfl
          · exact earlier _ ((proper.contains_iff _).mp opposed)
          · rw [Lit.neg_neg]
            exact first
        · intro σ _
          -- Of a literal and its opposite one is true in any case.
          by_cases holds : σ.satisfiesLit l
          · exact ⟨l, (members l).mpr (.inl rfl), holds⟩
          · exact ⟨l.neg, (members _).mpr (.inr rfl), (σ.satisfiesLit_neg l).mpr holds⟩
      next =>
        refine ih (proper.insert l) (fun k inside => ?_) others result
        rcases proper.mem_insert.mp inside with old | rfl
        · exact earlier k old
        · exact first

/-! ### Between calls -/

/-- A solver at rest that has accepted a formula and does not know it to be contradictory. -/
structure Ready (F : List (List Lit)) (s : Solver) : Prop where
  settled : s.engine.Settled F
  zero : s.engine.trail.level = 0
  checked : s.engine.opts.check = true
  given : s.engine.opts.keepOriginals = true → s.given = .of F
  known : ∀ c ∈ F, ∀ l ∈ c, l.var.index < s.engine.numVars
  assumable : ∀ l ∈ s.assumptions, l.var.index < s.engine.numVars
  pure : s.pureLits = #[]

/-- Setting the deadline does not keep a solve from beginning. -/
theorem Ready.setDeadline (h : s.Ready F) : s.setDeadline.Ready F := by
  obtain ⟨listener, budget, same, -⟩ := s.setDeadline_eq
  rw [same]
  exact { h with }

theorem begun_eq (s : Solver) : s.begun =
    (mapEngine { s.setDeadline with model := #[], core := s.core.clear } fun e =>
      e.modifyStats fun st => { st with solves := st.solves + 1 }).notify .started := by
  unfold Solver.begun setDeadline
  cases s.budget.time <;> rfl

/-- At level zero, without pure literals, a solve may begin. -/
theorem Ready.begun (h : s.Ready F) :
    s.begun.Searching F [] ∧ s.setDeadline.SameTask s.begun ∧ s.begun.engine.trail.level = 0 := by
  have timed := h.setDeadline
  rw [s.begun_eq]
  generalize s.setDeadline = b at timed
  have noted := noted_notify (mapEngine { b with model := #[], core := s.core.clear } fun e =>
    e.modifyStats fun st => { st with solves := st.solves + 1 }) .started
  have working := timed.settled.working.modifyStats fun st => { st with solves := st.solves + 1 }
  refine ⟨⟨working, .of_level_zero working.sound.trail timed.zero, ?_, rfl⟩,
    ⟨rfl, rfl, rfl, rfl, noted.kind, noted.stopRule, ⟨rfl, rfl, rfl, rfl⟩⟩, timed.zero⟩
  · change ∀ l ∈ b.assumptions.toList ++ b.pureLits.toList, l.var.index < b.engine.numVars
    rw [timed.pure, List.append_nil]
    exact fun l member => timed.assumable l (Array.mem_toList_iff.mp member)

/-- Preparing the clauses for a search. -/
theorem prepare_spec (h : s.engine.Settled F) (zero : s.engine.trail.level = 0)
    {answer : Except SolverError Bool} (result : s.prepare = (answer, t)) :
    ∃ f, Noted { s with engine := f } t ∧ Tidies F [] s.engine f answer := by
  unfold prepare at result
  dsimp only at result
  rcases simplified : s.simplify with ⟨answer', u⟩
  rw [simplified] at result
  obtain ⟨f, noted, tidies, -⟩ := simplify_spec h.working zero simplified
  split at result
  next first =>
    cases first
    cases tidies with
    | settled tidied settles =>
      split at result
      · have engine : u.engine = f := noted.engine
        rw [← engine] at tidied
        obtain ⟨g, noted', tidies'⟩ :=
          vivifyQuietly_spec tidied.working.settled tidied.zero _ result
        have after : Noted { s with engine := g } t := noted.replace noted'
        refine ⟨g, after, ?_⟩
        cases tidies' with
        | refuted refuted => exact .refuted refuted
        | settled tidied' settles' =>
          exact .settled ⟨tidied'.working, tidied.framed.trans tidied'.framed, tidied'.zero,
            tidied'.propagated⟩ settles'
      · cases result
        exact ⟨f, noted, .settled tidied settles⟩
  next other =>
    cases result
    exact ⟨f, noted, tidies⟩

/-- What may come of the beginning of a solve. -/
inductive Opens (F : List (List Lit)) (s : Solver) : Opening → Prop where
  | answered {outcome : Outcome} {t : Solver} (ended : Ended F s outcome t) :
    Opens F s (.answered outcome t)
  | search {t : Solver} (searching : t.Searching F []) (task : s.SameTask t)
    (zero : t.engine.trail.level = 0) : Opens F s (.search t)

theorem Searching.opening (h : s.Searching F []) (zero : s.engine.trail.level = 0) :
    Opens F s s.opening := by
  unfold Solver.opening
  rcases asked : s.stopRequested with ⟨stop, u⟩
  have noted := noted_stopRequested asked
  have engine : u.engine = s.engine := noted.engine
  have task : s.SameTask u := noted.sameTask (.refl _)
  have core : u.core.isEmpty = true := noted.core ▸ h.core
  rw [← engine] at zero
  have working : u.engine.Working F [] := engine ▸ h.working
  cases stop with
  | true => exact .answered (.interrupted working task (asked_of_stopRequested asked))
  | false =>
    dsimp only
    split
    -- Assumptions that contradict each other or the facts are blamed before anything is simplified.
    next core found =>
      refine .answered (.blamed working ⟨task.assumptions, task.given, task.budget, task.interrupted,
        task.kind, task.stopRule, task.scope⟩ ?_)
      exact core_of_contradiction working.settled DenseSet.proper_empty nofun (fun _ => id) found
    next =>
      rcases prepared : u.prepare with ⟨answer, v⟩
      obtain ⟨f, noted', tidies⟩ := prepare_spec working.settled zero prepared
      have engine' : v.engine = f := noted'.engine
      have core' : v.core.isEmpty = true := by
        have same : v.core = u.core := noted'.core
        rw [same]
        exact core
      cases tidies with
      | refuted refuted => exact .answered (.refuted core' refuted.unsatisfiable)
      | settled tidied settles =>
        have task' : s.SameTask v := task.trans (noted'.sameTask tidied.framed.toScoped)
        rw [← engine'] at tidied
        cases settles with
        | full requested limit => exact .answered (.failed tidied.working task' (.arena requested limit))
        | fine =>
          refine .search ⟨tidied.working, ?_, ?_, core'⟩
            ⟨task'.assumptions, task'.given, task'.budget, task'.interrupted, task'.kind,
              task'.stopRule, task'.scope⟩ tidied.zero
          · exact .of_level_zero tidied.working.sound.trail tidied.zero
          · have pure : v.pureLits = s.pureLits := noted'.pureLits.trans noted.pureLits
            dsimp only
            rw [task'.assumptions, pure, task'.scope.numVars]
            exact h.bounded

/-! ### How a solve ends -/

/-- What a model found under assumptions says. -/
structure Found (F : List (List Lit)) (s t : Solver) : Prop where
  decided : ∀ v : Var, v.index < s.engine.numVars → s.engine.branching.decision.get v = true →
    t.model.value v ≠ .undecided
  assumed : ∀ a ∈ s.assumptions, t.model.makesTrue a = true
  models : (∀ v : Var, v.index < s.engine.numVars → s.engine.branching.decision.get v = true) →
    t.model.total.satisfies F

/-- What a solve of `s` under its assumptions may come to. -/
inductive Concluded (F : List (List Lit)) (s : Solver) : Outcome → Solver → Prop where
  | sat {t : Solver} (ready : t.Ready F) (scope : s.engine.Scoped t.engine) (status : t.status = .sat)
    (found : Found F s t) : Concluded F s (.ok .sat) t
  | refuted {t : Solver} (refuted : t.engine.Refuted F) (core : t.core.toList = []) :
    Concluded F s (.ok .unsat) t
  | blamed {t : Solver} (ready : t.Ready F) (core : Core F s.assumptions.toList t.core) :
    Concluded F s (.ok .unsat) t
  | interrupted {t : Solver} (ready : t.Ready F)
    (asked : s.interrupted = true ∨ ¬ s.listener.NeverStops) : Concluded F s (.ok .interrupted) t
  | unknown {t : Solver} (ready : t.Ready F)
    (limited : (∃ stats, s.budget.isOpen stats = false) ∨ s.budget.time ≠ none) :
    Concluded F s (.ok .unknown) t
  | failed {t : Solver} {err : SolverError} (ready : t.Ready F) (full : NoRoom s.engine.numVars err) :
    Concluded F s (.error err) t

/-- Back at level zero the solver is ready for the next call. -/
theorem Ready.leaveSearch (h : s.Ready F) (working : t.engine.Working F log) (task : s.SameTask t)
    (status : Status) : (t.leaveSearch status).Ready F := by
  have framed := Engine.framed_cancelTo t.engine 0
  have scope : s.engine.Scoped (t.engine.cancelTo 0) := task.scope.trans framed.toScoped
  refine ⟨(working.cancelTo 0).settled, Engine.level_cancelTo_zero _, scope.opts ▸ h.checked, ?_, ?_, ?_,
    rfl⟩
  · intro keep
    exact task.given.trans (h.given (scope.opts ▸ keep))
  · exact fun c given l inside => scope.numVars ▸ h.known c given l inside
  · intro l member
    exact scope.numVars ▸ h.assumable l (task.assumptions ▸ member)

/-- The listener's memory does not matter. -/
theorem Ready.notify (h : s.Ready F) (event : Event) : (s.notify event).Ready F := { h with }

theorem NeverStops_congr {l k : Listener} (kind : l.kind = k.kind) (rule : l.stopRule = k.stopRule) :
    l.NeverStops ↔ k.NeverStops := by
  unfold Listener.NeverStops
  rw [kind, rule]

/-- Taking down what was found, and going back. -/
theorem Ready.conclude (h : s.Ready F) {outcome : Outcome} (ended : Ended F s.setDeadline outcome t) :
    ∃ u, Solver.conclude (outcome, t) = (outcome, u) ∧ Concluded F s outcome u := by
  have h := h.setDeadline
  obtain ⟨listener, budget, same, kind, stopRule, limits, deadline⟩ := s.setDeadline_eq
  rw [same] at h ended
  cases ended with
  | sat searching task propagated complete assumed =>
    refine ⟨_, rfl, .sat ((h.leaveSearch (t := t.takeResult .sat) searching.working
      ⟨task.assumptions, task.given, task.budget, task.interrupted, task.kind, task.stopRule, task.scope⟩
      .sat).notify _) ?_ rfl ⟨?_, ?_, ?_⟩⟩
    · exact task.scope.trans (Engine.framed_cancelTo t.engine 0).toScoped
    · intro v bound allowed
      rw [← task.scope.numVars] at bound
      rw [← task.scope.decision] at allowed
      exact value_currentModel bound ▸ complete v bound allowed
    · intro a member
      refine Engine.makesTrue_currentModel searching.working.sound.trail (Nat.le_refl _) (assumed a ?_)
      exact Array.mem_toList_iff.mpr (task.assumptions.symm ▸ member)
    · intro all
      refine searching.working.settled.satisfies_total propagated fun v bound => complete v bound ?_
      rw [task.scope.decision]
      exact all v (task.scope.numVars ▸ bound)
  | refuted core unsatisfiable =>
    have empty : t.core.toList = [] := by
      simpa [DenseSet.isEmpty, DenseSet.toList] using core
    refine ⟨_, rfl, .refuted ⟨?_, unsatisfiable⟩ ?_⟩
    · change ((t.takeResult .unsat).engine.cancelTo 0).ok = false
      rw [(Engine.framed_cancelTo _ 0).ok]
      unfold takeResult
      rw [if_pos core]
      rfl
    · change (t.takeResult .unsat).core.toList = []
      unfold takeResult
      rw [if_pos core]
      exact empty
  | blamed working task core =>
    have some_ : t.core.isEmpty = false := by
      have nonempty := core.nonempty
      simpa [DenseSet.isEmpty, DenseSet.toList] using nonempty
    have result : t.takeResult .unsat = t := by
      unfold takeResult
      rw [some_, if_neg Bool.false_ne_true]
    unfold Solver.conclude
    dsimp only
    rw [result]
    exact ⟨_, rfl, .blamed ((h.leaveSearch working task .unsat).notify _) (task.assumptions ▸ core)⟩
  | interrupted working task asked =>
    have left := h.leaveSearch working task .interrupted
    -- The request to stop has been answered, and is forgotten.
    have ready : ((t.takeResult .interrupted).leaveSearch .interrupted).Ready F := { left with }
    refine ⟨_, rfl, .interrupted (ready.notify _) ?_⟩
    · rw [← NeverStops_congr (task.kind.trans kind) (task.stopRule.trans stopRule)]
      exact task.interrupted ▸ asked
  | unknown working task limited =>
    rw [task.budget] at limited
    refine ⟨_, rfl, .unknown ((h.leaveSearch working task .unknown).notify _) ?_⟩
    exact limited.imp (Exists.imp fun stats closed => limits stats ▸ closed) deadline
  | failed working task full =>
    exact ⟨_, rfl, .failed (h.leaveSearch working task .unknown) (task.scope.numVars ▸ full)⟩

/-- What a solve comes to. -/
theorem Ready.solveKeeping (h : s.Ready F) {steps : Nat} {outcome : Outcome}
    (result : Solver.solveKeeping steps s = .ok (outcome, t)) : Concluded F s outcome t := by
  obtain ⟨searching, task, zero⟩ := h.begun
  rw [solveKeeping_eq steps h.settled.ok (shows_of_solveKeeping h.settled.ok result)] at result
  have finish {o : Outcome} {v : Solver} (ended : Ended F s.begun o v)
      (same : Solver.conclude (o, v) = (outcome, t)) : Concluded F s outcome t := by
    obtain ⟨u, concluded, spec⟩ := h.conclude (ended.of_sameTask task)
    rw [concluded] at same
    cases same
    exact spec
  have opens := searching.opening zero
  generalize s.begun.opening = o at opens result
  cases opens with
  | answered ended => exact finish ended (Except.ok.inj result)
  | search searching' task' zero' =>
    dsimp only at result
    rcases found : Solver.search steps _ with fault | ⟨o, v⟩
    · rw [found] at result
      cases result
    · rw [found] at result
      exact finish ((searching'.search steps found).of_sameTask task') (Except.ok.inj result)

end Solver

end Cdcl
