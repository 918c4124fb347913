import Cdcl.Proofs.Sessions
import Cdcl.Proofs.TwinSearch

/-!
# Solves of twins

Twins that solve under the same assumptions come to the same verdict, with the same model or the same
core, and are twins again.

## Main results

- `Twins.solveWith`: twins solve alike, unless one of them runs out of room.
-/

namespace Cdcl

namespace Solver

variable {F F' : List (List Lit)} {s t : Solver}

theorem contradiction?_twins {t u : Trail} (h : t.Twins u) (rest : List Lit) (before : DenseSet Lit) :
    contradiction? u rest before = contradiction? t rest before := by
  induction rest generalizing before with
  | nil => rfl
  | cons l rest ih =>
    unfold contradiction?
    rw [h.factValue, ih]

namespace Twins

/-! ### How a solve begins -/

theorem prepare (h : s.Twins t) (settled : s.engine.Settled F) (settled' : t.engine.Settled F')
    (zero : s.engine.trail.level = 0) :
    Abreast OutOfRoom Eq (.ok s.prepare) (.ok t.prepare) := by
  obtain ⟨M, engines⟩ := h.engine
  have minSize : t.engine.opts.vivifyMinSize = s.engine.opts.vivifyMinSize :=
    engines.opts_eq Options.vivifyMinSize fun _ _ => rfl
  have step := h.simplify settled settled' zero
  rcases simplified : s.simplify with ⟨answer, u⟩
  rcases simplified' : t.simplify with ⟨answer', v⟩
  rw [simplified, simplified'] at step
  unfold Solver.prepare
  rw [simplified, simplified', minSize]
  obtain ⟨n, m, rfl⟩ | ⟨n, m, rfl⟩ | ⟨rfl, twins⟩ := step.cases
  · exact .left ⟨n, m, rfl⟩
  · exact .right ⟨n, m, rfl⟩
  · match answer with
    | .error err => exact .both rfl twins
    | .ok false => exact .both rfl twins
    | .ok true =>
      have quiet := quiet_of_simplify settled zero simplified
      have quiet' := quiet_of_simplify settled' (h.level.trans zero) simplified'
      dsimp only
      split
      · exact twins.vivifyQuietly quiet.toSettled quiet'.toSettled quiet.zero _
      · exact .both rfl twins

theorem prepareAndSearch (h : s.Twins t) (steps : Nat) (settled : s.engine.Settled F)
    (settled' : t.engine.Settled F') (zero : s.engine.trail.level = 0)
    (begins : ∀ u, s.prepare = (.ok true, u) → Searching F [] { u with pureLitsStale := true })
    (begins' : ∀ v, t.prepare = (.ok true, v) → Searching F' [] { v with pureLitsStale := true }) :
    Abreast OutOfRoom Eq (Solver.prepareAndSearch steps s) (Solver.prepareAndSearch steps t) := by
  have step := h.prepare settled settled' zero
  rcases prepared : s.prepare with ⟨answer, u⟩
  rcases prepared' : t.prepare with ⟨answer', v⟩
  rw [prepared, prepared'] at step
  unfold Solver.prepareAndSearch
  rw [prepared, prepared']
  obtain ⟨n, m, rfl⟩ | ⟨n, m, rfl⟩ | ⟨rfl, twins⟩ := step.cases
  · exact .left ⟨n, m, rfl⟩
  · exact .right ⟨n, m, rfl⟩
  · match answer with
    | .error err => exact .both rfl twins
    | .ok false => exact .both rfl twins
    | .ok true =>
      have stale : Twins { u with pureLitsStale := true } { v with pureLitsStale := true } :=
        { twins with pureLitsStale := rfl }
      exact stale.search steps (begins u prepared) (begins' v prepared')

/-- The search that an opening leads to. -/
theorem begins_of_opening (searching : s.Searching F []) (zero : s.engine.trail.level = 0) {u v : Solver}
    (asked : s.stopRequested = (false, u))
    (clear : contradiction? u.engine.trail u.assumptions.toList {} = none)
    (prepared : u.prepare = (.ok true, v)) : Searching F [] { v with pureLitsStale := true } := by
  have opened := searching.opening zero
  unfold Solver.opening at opened
  rw [asked] at opened
  dsimp only at opened
  rw [clear, prepared] at opened
  cases opened with
  | search searching => exact searching

theorem decideStatus (h : s.Twins t) (steps : Nat) (searching : s.Searching F [])
    (searching' : t.Searching F' []) (zero : s.engine.trail.level = 0) :
    Abreast OutOfRoom Eq (Solver.decideStatus steps s) (Solver.decideStatus steps t) := by
  obtain ⟨same, asking⟩ := h.stopRequested
  rcases asked : s.stopRequested with ⟨stop, u⟩
  rcases asked' : t.stopRequested with ⟨stop', v⟩
  have engine : u.engine = s.engine := (noted_stopRequested asked).engine
  have engine' : v.engine = t.engine := (noted_stopRequested asked').engine
  rw [asked, asked'] at same asking
  cases same
  unfold Solver.decideStatus
  rw [asked, asked']
  cases stop with
  | true => exact .both rfl asking
  | false =>
    dsimp only at asking ⊢
    obtain ⟨M, engines⟩ := asking.engine
    have blamed : contradiction? v.engine.trail v.assumptions.toList {} =
        contradiction? u.engine.trail u.assumptions.toList {} := by
      rw [asking.assumptions, contradiction?_twins engines.trail]
    rw [blamed]
    split
    · exact .both rfl { asking with core := rfl }
    next clear =>
      exact asking.prepareAndSearch steps (engine.symm ▸ searching.working.settled)
        (engine'.symm ▸ searching'.working.settled) (engine.symm ▸ zero)
        (fun w prepared => begins_of_opening searching zero asked clear prepared)
        fun w prepared => begins_of_opening searching' (h.level.trans zero) asked' (blamed.trans clear)
          prepared

/-! ### How a solve ends -/

theorem takeResult (h : s.Twins t) (status : Status) : (s.takeResult status).Twins (t.takeResult status) := by
  obtain ⟨M, engines⟩ := h.engine
  have model : currentModel t.engine = currentModel s.engine := by
    unfold currentModel
    rw [engines.vars, engines.trail.value]
  cases status with
  | sat => exact { h with model := model }
  | interrupted => exact { h with model := model, interrupted := rfl }
  | unknown => exact h
  | unsat =>
    unfold Solver.takeResult
    dsimp only
    rw [h.core]
    split
    · exact h.put engines.refute
    · exact h

theorem leaveSearch (h : s.Twins t) (status : Status) :
    (s.leaveSearch status).Twins (t.leaveSearch status) := by
  obtain ⟨M, engines⟩ := h.engine
  exact { h.put (engines.cancelTo 0) with pureLits := rfl, status := rfl }

/-- The clock shows the same to both. -/
theorem setDeadline (h : s.Twins t) : s.setDeadline.Twins t.setDeadline := by
  obtain ⟨same, listeners⟩ := h.listener.readClock
  unfold Solver.setDeadline
  rw [h.budget]
  split
  · exact { h with budget := rfl }
  · dsimp only
    rw [same]
    exact { h with budget := rfl, listener := listeners }

theorem begun (h : s.Twins t) : s.begun.Twins t.begun := by
  rw [begun_eq, begun_eq]
  have core := congrArg DenseSet.clear h.core
  have timed := h.setDeadline
  obtain ⟨M, engines⟩ := timed.engine
  have counted := engines.modifyStats (fun st => { st with solves := st.solves + 1 }) fun _ _ => rfl
  have cleared : Twins (mapEngine { s.setDeadline with model := #[], core := s.core.clear } fun e =>
      e.modifyStats fun st => { st with solves := st.solves + 1 })
      (mapEngine { t.setDeadline with model := #[], core := t.core.clear } fun e =>
        e.modifyStats fun st => { st with solves := st.solves + 1 }) :=
    { timed.put counted with model := rfl, core := core }
  exact cleared.notify .started

theorem deadlineShows (h : s.Twins t) : t.deadlineShows = s.deadlineShows := by
  unfold Solver.deadlineShows
  rw [h.budget]

theorem conclude (h : s.Twins t) (outcome : Outcome) :
    (Solver.conclude (outcome, s)).2.Twins (Solver.conclude (outcome, t)).2 := by
  cases outcome with
  | error err => exact h.leaveSearch .unknown
  | ok status => exact ((h.takeResult status).leaveSearch status).notify (.finished status)

end Twins

theorem conclude_eq (outcome : Outcome) (s : Solver) :
    Solver.conclude (outcome, s) = (outcome, (Solver.conclude (outcome, s)).2) := by
  cases outcome <;> rfl

theorem Abreast.conclude {r q : Except Fault (Outcome × Solver)} (h : Abreast OutOfRoom Eq r q) :
    Abreast OutOfRoom Eq (r.map Solver.conclude) (q.map Solver.conclude) := by
  cases h with
  | fault fault => exact .fault fault
  | @left outcome s _ out =>
    show Abreast OutOfRoom Eq (.ok (Solver.conclude (outcome, s))) _
    rw [conclude_eq]
    exact .left out
  | @right outcome t _ out =>
    show Abreast OutOfRoom Eq _ (.ok (Solver.conclude (outcome, t)))
    rw [conclude_eq]
    exact .right out
  | @both outcome _ s t same twins =>
    cases same
    show Abreast OutOfRoom Eq (.ok (Solver.conclude (outcome, s))) (.ok (Solver.conclude (outcome, t)))
    rw [conclude_eq outcome s, conclude_eq outcome t]
    exact .both rfl (twins.conclude outcome)

/-- What a solve comes to if nothing is known of a contradiction. -/
theorem solveKeeping_of_ok (steps : Nat) (ok : s.engine.ok = true) (shows : s.begun.deadlineShows = true) :
    Solver.solveKeeping steps s = (Solver.decideStatus steps s.begun).map Solver.conclude := by
  rw [solveKeeping_eq steps ok shows, decideStatus_eq]
  cases s.begun.opening <;> rfl

namespace Twins

/-- Twins are both contradictory, or both ready. -/
theorem ready (h : s.Twins t) (rests : s.Rests F) (rests' : t.Rests F') :
    s.engine.ok = false ∧ t.engine.ok = false ∨ s.Ready F ∧ t.Ready F' := by
  obtain ⟨M, engines⟩ := h.engine
  rcases rests with refuted | ready
  · exact .inl ⟨refuted.notOk, engines.ok.trans refuted.notOk⟩
  · rcases rests' with refuted' | ready'
    · exact .inl ⟨engines.ok.symm.trans refuted'.notOk, refuted'.notOk⟩
    · exact .inr ⟨ready, ready'⟩

theorem solveKeeping (h : s.Twins t) (steps : Nat) (rests : s.Rests F) (rests' : t.Rests F') :
    Abreast OutOfRoom Eq (Solver.solveKeeping steps s) (Solver.solveKeeping steps t) := by
  rcases h.ready rests rests' with ⟨notOk, notOk'⟩ | ⟨ready, ready'⟩
  · rw [solveKeeping_of_not_ok notOk, solveKeeping_of_not_ok notOk']
    exact .both rfl { h with model := rfl, core := congrArg DenseSet.clear h.core, status := rfl }
  · obtain ⟨searching, -, zero⟩ := ready.begun
    obtain ⟨searching', -⟩ := ready'.begun
    have same := h.begun.deadlineShows
    cases shows : s.begun.deadlineShows with
    | false =>
      rw [solveKeeping_of_not_shows steps ready.settled.ok shows,
        solveKeeping_of_not_shows steps ready'.settled.ok (same.trans shows)]
      exact .fault .deadlineTooLate
    | true =>
      rw [solveKeeping_of_ok steps ready.settled.ok shows,
        solveKeeping_of_ok steps ready'.settled.ok (same.trans shows)]
      exact (h.begun.decideStatus steps searching searching' zero).conclude

theorem solve (h : s.Twins t) (steps : Nat) (rests : s.Rests F) (rests' : t.Rests F') :
    Abreast OutOfRoom Eq (Solver.solve steps s) (Solver.solve steps t) := by
  have step := h.solveKeeping steps rests rests'
  unfold Solver.solve
  generalize Solver.solveKeeping steps s = r at step ⊢
  generalize Solver.solveKeeping steps t = q at step ⊢
  cases step with
  | fault fault => exact .fault fault
  | left out => exact .left out
  | right out => exact .right out
  | both same twins => exact .both same { twins with assumptions := rfl }

/-! ### Assumptions -/

theorem addAssumption (h : s.Twins t) (l : Lit) :
    (∃ err, s.addAssumption l = .error err ∧ t.addAssumption l = .error err) ∨
      ∃ u v, s.addAssumption l = .ok u ∧ t.addAssumption l = .ok v ∧ u.Twins v := by
  unfold Solver.addAssumption
  rw [h.checkLit]
  split
  next err _ => exact .inl ⟨err, rfl, rfl⟩
  next => exact .inr ⟨_, _, rfl, rfl, { h with assumptions := congrArg (·.push l) h.assumptions }⟩

theorem addAssumptions (h : s.Twins t) (as : List Lit) :
    (∃ err, s.addAssumptions as = .error err ∧ t.addAssumptions as = .error err) ∨
      ∃ u v, s.addAssumptions as = .ok u ∧ t.addAssumptions as = .ok v ∧ u.Twins v := by
  induction as generalizing s t with
  | nil => exact .inr ⟨s, t, rfl, rfl, h⟩
  | cons l rest ih =>
    unfold Solver.addAssumptions
    rcases h.addAssumption l with ⟨err, failed, failed'⟩ | ⟨u, v, added, added', twins⟩
    · rw [failed, failed']
      exact .inl ⟨err, rfl, rfl⟩
    · rw [added, added']
      exact ih twins

end Twins

theorem Rests.assuming (h : s.Rests F) {as : List Lit} (known : ∀ l ∈ as, s.checkLit l = .ok ()) :
    (s.assuming as).Rests F :=
  h.imp id fun ready => ready.assuming known

/-- Twins solve alike, unless one of them runs out of room. -/
theorem Twins.solveWith (h : s.Twins t) (steps : Nat) (rests : s.Rests F) (rests' : t.Rests F')
    (as : List Lit) :
    Abreast OutOfRoom Eq (Solver.solveWith steps s as) (Solver.solveWith steps t as) := by
  unfold Solver.solveWith
  rcases h.addAssumptions as with ⟨err, failed, failed'⟩ | ⟨u, v, added, added', twins⟩
  · rw [failed, failed']
    exact .both rfl { h with assumptions := rfl }
  · rw [added, added']
    obtain ⟨rfl, known⟩ := addAssumptions_eq added
    obtain ⟨rfl, known'⟩ := addAssumptions_eq added'
    exact twins.solve steps (rests.assuming known) (rests'.assuming known')

end Solver

end Cdcl
