import Cdcl.Proofs.Turns

/-!
# Watches match clauses

Between calls, and wherever a search pauses between two propagations, the watch lists match the
clauses in use: no entry is lost, none is there twice, and what is left of removed clauses stays in
lists flagged dirty.

## Main results

- `Pause.orderly`: the engine is in order at every pause.
- `watches_of_pause`: the watch lists match the clauses at every pause.
-/

namespace Cdcl

namespace Engine

variable {e : Engine}

/-- The watch lists match the clauses in use. -/
structure WatchesMatch (e : Engine) : Prop where
  /-- A clause that takes part in propagation has an entry for each of its first two literals. -/
  watched : ∀ id, (e.clause id).isRemoved = false → (e.clause id).isFrozen = false →
    entriesOf id (e.watches.long.get ((e.clause id).lit 0).neg) = 1 ∧
    entriesOf id (e.watches.long.get ((e.clause id).lit 1).neg) = 1 ∧
    ∀ p, p ≠ ((e.clause id).lit 0).neg → p ≠ ((e.clause id).lit 1).neg →
      entriesOf id (e.watches.long.get p) = 0
  /-- What is left of removed clauses is in lists that wait to be cleaned. -/
  stale : ∀ p, ∀ w ∈ e.watches.long.get p, (e.clause w.clause).isRemoved = true →
    e.watches.dirty.get p = true
  listed : ∀ p, e.watches.dirty.get p = true → p ∈ e.watches.dirtyKeys
  /-- A frozen clause has a single entry, among those of frozen clauses. -/
  frozen : ∀ id, (e.clause id).isRemoved = false → (e.clause id).isFrozen = true →
    (∃ l ∈ (e.clause id).lits, entriesOf id (e.watches.frozen.get l.neg) = 1 ∧
      ∀ p, p ≠ l.neg → entriesOf id (e.watches.frozen.get p) = 0) ∧
    ∀ p, entriesOf id (e.watches.long.get p) = 0
  /-- A blocker that is not in its clause any more is false for good. -/
  blockers : ∀ p, ∀ w, w ∈ e.watches.long.get p ∨ w ∈ e.watches.frozen.get p →
    (e.clause w.clause).isRemoved = false →
    w.blocker ∈ (e.clause w.clause).lits ∨
      e.trail.isFalse w.blocker = true ∧ e.trail.levelOf w.blocker.var = 0
  /-- A clause of two literals is in the lists of both. -/
  binary : ∀ p q, (e.watches.binary.get p).count q = (e.watches.binary.get q.neg).count p.neg

/-- A literal whose opposite is a fact is false for good. -/
theorem Sound.isFalse_of_fact {aside : List ClauseId} (h : e.Sound aside) {l : Lit}
    (fact : l.neg ∈ e.trail.facts) :
    e.trail.isFalse l = true ∧ e.trail.levelOf l.var = 0 := by
  obtain ⟨assigned, zero⟩ := (h.trail.mem_facts_iff_levelOf).mp fact
  rw [Lit.var_neg] at zero
  exact ⟨(h.trail.isFalse_iff l).mpr assigned, zero⟩

/-- The watches of an engine in order match its clauses. -/
theorem Orderly.watchesMatch (h : e.Orderly) : e.WatchesMatch where
  watched := by
    intro id used thawed
    have exact (p : Lit) : entriesOf id (e.watches.long.get p) = (e.clause id).watchCount p :=
      h.sound.tracked.exact id (isAttached_iff.mpr ⟨used, thawed⟩) List.not_mem_nil p
    refine ⟨?_, ?_, fun p first second => ?_⟩
    · rw [exact, Clause.watchCount, if_pos (.inl rfl)]
    · rw [exact, Clause.watchCount, if_pos (.inr rfl)]
    · rw [exact, Clause.watchCount, if_neg (not_or.mpr ⟨first, second⟩)]
  stale := by
    intro p w member removed
    refine h.sound.tracked.stale w.clause ?_ p (entriesOf_pos_iff.mpr ⟨w, member, rfl⟩)
    rw [Clause.isAttached, removed]
    rfl
  listed := h.sound.tracked.listed
  frozen := by
    intro id used frozen
    obtain ⟨l, inside, counts⟩ := h.watched.exact.once id used frozen
    refine ⟨⟨l, inside, ?_, fun p other => ?_⟩, h.apart.unwatched id used frozen⟩
    · rw [counts, if_pos rfl]
    · rw [counts, if_neg other]
  blockers := by
    intro p w member used
    cases frozen : (e.clause w.clause).isFrozen with
    | false =>
      rcases member with long | mono
      · exact (h.sound.blockers p w long (isAttached_iff.mpr ⟨used, frozen⟩)).imp_right
          h.sound.isFalse_of_fact
      · have none := h.watched.exact.only w.clause used frozen p
        exact absurd (entriesOf_pos_iff.mpr ⟨w, mono, rfl⟩) (by omega)
    | true =>
      rcases member with long | mono
      · have none := h.apart.unwatched w.clause used frozen p
        exact absurd (entriesOf_pos_iff.mpr ⟨w, long, rfl⟩) (by omega)
      · exact .inl (h.apart.entries p w mono used frozen).2
  binary := h.shelved.booked.symmetric

end Engine

namespace Solver

open Engine

variable {F : List (List Lit)} {e : Engine}

/-- The engine of a solver between two calls, or wherever a search pauses between two propagations. -/
inductive Pause (F : List (List Lit)) : Engine → Prop where
  | reached {s : Solver} (before : Reached F s) : Pause F s.engine
  /-- Some of the literals that wait are propagated, up to a conflict perhaps. -/
  | propagated {e f : Engine} {n : Nat} {conflict : Option Conflict} (before : Pause F e)
    (result : propagateFrom n e = (f, conflict)) : Pause F f
  | resumed {s t : Solver} (before : Searched F s) (proceeds : s.Proceeds t) :
    Pause F t.resumed.engine
  | simplified {s t u : Solver} (before : Searched F s) (proceeds : s.Proceeds t)
    (zero : t.resumed.engine.trail.level = 0) {answer : Except SolverError Bool}
    (result : t.resumed.simplify = (answer, u)) : Pause F u.engine
  | upkept {s t v : Solver} (before : Searched F s) (proceeds : s.Proceeds t)
    (zero : t.resumed.engine.trail.level = 0) {u : Upkeep}
    (result : t.resumed.upkeep = (u, v)) : Pause F v.engine
  | opened {s : Solver} {a : Assumed} {f : Engine} (before : Branches F s)
    (opens : s.engine.openAssumed ((s.assumptions.toList.map (·, true) ++
      s.pureLits.toList.map (·, false)).drop s.engine.trail.level) = (a, f)) : Pause F f
  /-- A step is over, and perhaps the search with it. -/
  | stepped {s t : Solver} (before : Searched F s) {r : StepResult}
    (stepped : s.searchStep = .ok (r, t)) : Pause F t.engine

theorem rounds_proceeds {s t : Solver} (proceeds : s.Proceeds t) :
    s.engine.Rounds t.resumed.engine := by
  obtain ⟨asked, result⟩ := proceeds
  next u f =>
  have engine : u.engine = s.engine := (noted_stopRequested asked).engine
  rw [← engine]
  exact ((Turn.chore (.propagate result)).rounds (uneventful_propagateFrom result)).trans
    (chores_resumed { u with engine := f }).rounds

/-- What holds at first and is kept by every round holds at every pause. -/
theorem Pause.upholds {P : Engine → Prop}
    (start : ∀ opts : Options, opts.check = true → P (initial opts))
    (step : ∀ {e f}, Round e f → e.Orderly → P e → P f) (h : Pause F e) : e.Orderly ∧ P e := by
  -- The upkeep is met twice: as a pause of its own, and on the way to a decision.
  have upkept {s t v : Solver} (before : Searched F s) (proceeds : s.Proceeds t)
      (zero : t.resumed.engine.trail.level = 0) {u : Upkeep} (result : t.resumed.upkeep = (u, v)) :
      v.engine.Orderly ∧ P v.engine := by
    obtain ⟨log, searching⟩ := before.searching
    have working := (searching.proceeds proceeds).1.resumed.1.working
    exact ((rounds_proceeds proceeds).trans (rounds_upkeep working zero result)).keeps step
      (before.upholds start step)
  induction h with
  | reached before => exact before.upholds start step
  | propagated before result ih =>
    have rounds := (Turn.chore (.propagate result)).rounds (uneventful_propagateFrom result)
    exact rounds.keeps step ih
  | resumed before proceeds => exact (rounds_proceeds proceeds).keeps step (before.upholds start step)
  | simplified before proceeds zero result =>
    obtain ⟨log, searching⟩ := before.searching
    have working := (searching.proceeds proceeds).1.resumed.1.working
    exact ((rounds_proceeds proceeds).trans
      (chores_simplify working.settled zero result).rounds).keeps step (before.upholds start step)
  | upkept before proceeds zero result => exact upkept before proceeds zero result
  | opened before opens =>
    obtain ⟨log, searching, propagated⟩ := before.searching
    refine (strides_openAssumed _ propagated opens).rounds.keeps step ?_
    cases before with
    | straight before proceeds =>
      obtain ⟨asked, result⟩ := proceeds
      next u f =>
      have engine : u.engine = _ := (noted_stopRequested asked).engine
      have rounds := (Turn.chore (.propagate result)).rounds (uneventful_propagateFrom result)
      exact rounds.keeps step (engine ▸ before.upholds start step)
    | upkept before proceeds zero kept => exact upkept before proceeds zero kept
  | stepped before stepped =>
    obtain ⟨log, searching⟩ := before.searching
    exact (rounds_searchStep searching stepped).keeps step (before.upholds start step)

/-- What every turn keeps is kept by every round. -/
theorem Pause.keeps {P : Engine → Prop}
    (start : ∀ opts : Options, opts.check = true → P (initial opts))
    (step : ∀ {e f}, Turn e f → e.Orderly → P e → P f) (h : Pause F e) : e.Orderly ∧ P e :=
  h.upholds start (Round.keeps step)

/-- At every pause the engine is in order. -/
theorem Pause.orderly (h : Pause F e) : e.Orderly :=
  (h.keeps (P := fun _ => True) (fun _ _ => trivial) fun _ _ _ => trivial).1

/-- A clause was learnt, and entries and words of one that a fact satisfies are left. -/
theorem exists_pause : ∃ e,
    Pause (clausesOf [[-1, -2, 3], [-1, -2, -3], [1, 2, 3], [2, 3, 4], [1, 2, 5], [5]]) e ∧
      e.tally.learntBinary = 1 ∧ e.watches.dirtyKeys.size = 2 ∧ e.arena.space.wasted = 4 := by
  have passes : sessionPasses {} 9
      (giving 5 (clausesOf [[-1, -2, 3], [-1, -2, -3], [1, 2, 3], [2, 3, 4], [1, 2, 5], [5]]))
      (clausesOf [[-1, -2, 3], [-1, -2, -3], [1, 2, 3], [2, 3, 4], [1, 2, 5], [5]])
      (fun s => s.engine.ok && s.searchPasses [.ofDimacs 1, .ofDimacs 2] (stepsPass (fun t =>
        t.engine.tally.learntBinary == 1 && (t.engine.watches.dirtyKeys.size == 2 &&
          t.engine.arena.space.wasted == 4)) 3)) = true := by
    decide +kernel
  obtain ⟨s, history, tests⟩ := exists_of_sessionPasses passes
  obtain ⟨ok, searches⟩ := Bool.and_eq_true_iff.mp tests
  obtain ⟨t, u, assumed, starts, steps⟩ := exists_of_searchPasses searches
  obtain ⟨w, searched, sizes⟩ := (Searched.start history ok assumed starts).exists_of_stepsPass steps
  obtain ⟨learnt, left⟩ := Bool.and_eq_true_iff.mp sizes
  obtain ⟨keys, words⟩ := Bool.and_eq_true_iff.mp left
  exact ⟨_, .reached (.search searched), eq_of_beq learnt, eq_of_beq keys, eq_of_beq words⟩

/-- Between calls, and wherever a search pauses between two propagations, the watch lists match the
clauses in use. -/
theorem watches_of_pause (h : Pause F e) : e.WatchesMatch := h.orderly.watchesMatch

/-- Two lists hold what is left of a removed clause. -/
theorem watches_of_pause_learnt : ∃ e,
    Pause (clausesOf [[-1, -2, 3], [-1, -2, -3], [1, 2, 3], [2, 3, 4], [1, 2, 5], [5]]) e ∧
      e.watches.dirtyKeys.size = 2 ∧ e.WatchesMatch := by
  obtain ⟨e, pause, -, keys, -⟩ := exists_pause
  exact ⟨e, pause, keys, watches_of_pause pause⟩

end Solver

end Cdcl
