import Cdcl.Proofs.ImplicationGraph
import Cdcl.Proofs.LevelCounts
import Cdcl.Proofs.OpenClauses

/-!
# Turns

A call on a solver, or a step of a search, is a sequence of operations on its engine: turns. What
every turn keeps holds at all times.

## Main results

- `Turn.orderly`: a turn keeps the engine in order, in its stored clauses, its books and its watches,
  also if it finds the clauses contradictory.
- `rounds_call`, `rounds_searchStep`: a call on a solver, and a step of a search, is a sequence of
  rounds, which are turns with what they count.
- `History.upholds`, `Searched.upholds`: what every round keeps holds between calls, and in the course
  of a search. `History.keeps` and `Searched.keeps` say so of what every turn keeps.
-/

namespace Cdcl

namespace Engine

variable {F : List (List Lit)} {e f g : Engine} {c lits : List Lit}

/-- The clauses, the books and all watches of an engine are in order. -/
structure Orderly (e : Engine) : Prop where
  sound : e.Sound []
  apart : e.FrozenApart
  shelved : e.Shelved
  watched : e.FrozenWatched

/-- One operation on the engine of a solver that opens no level. -/
inductive Chore : Engine → Engine → Prop where
  /-- Something is taken down that is not about assignments or clauses. -/
  | noted (e : Engine) {policy : Policy} {stats : Statistics} {ok : Bool} :
    Chore e { e with policy, stats, ok }
  | rebuild (e : Engine) :
    Chore e { e with branching := e.branching.rebuild (e.vars.filter e.trail.isUnassigned) }
  | setDecision {e : Engine} {v : Var} (bound : v.index < e.numVars) (allowed : Bool) :
    Chore e (e.setDecision v allowed)
  | setPolarity {e : Engine} {v : Var} (bound : v.index < e.numVars) (positive : Bool) :
    Chore e { e with branching := e.branching.setPolarity v positive }
  | cancelTo (e : Engine) (level : Nat) : Chore e (e.cancelTo level)
  | grown (e : Engine) (polarity : Bool) : Chore e (e.grown polarity)
  | propagate {e f : Engine} {n : Nat} {conflict : Option Conflict}
    (result : propagateFrom n e = (f, conflict)) : Chore e f
  | simplifyAll {F : List (List Lit)} {e : Engine} (quiet : e.Quiet F) : Chore e e.simplifyAll
  /-- The number of facts by which the clauses are simplified is taken down. -/
  | dated {e : Engine} (simplified : e.OriginalsOpen) (zero : e.trail.level = 0) :
    Chore e { e with simplifiedAt := some e.trail.size }
  | reduce {F : List (List Lit)} {e : Engine} (settled : e.Settled F) (zero : e.trail.level = 0) :
    Chore e e.reduce
  | vivifyAll {F : List (List Lit)} {e : Engine} (quiet : e.Quiet F) (minSize : Nat) :
    Chore e (e.vivifyAll minSize)
  | compact {F : List (List Lit)} {e f : Engine} (settled : e.Settled F)
    (result : e.compact = .ok f) : Chore e f
  | add {F : List (List Lit)} {e f : Engine} {c lits : List Lit} (settled : e.Settled F)
    (zero : e.trail.level = 0) (normalized : Solver.Normalized e.trail c lits)
    (bound : ∀ l ∈ c, l.var.index < e.numVars)
    (result : Solver.addNormalized e lits = .ok f) : Chore e f

/-- One operation on the engine of a solver. -/
inductive Turn : Engine → Engine → Prop where
  | chore {e f : Engine} (chore : Chore e f) : Turn e f
  | openLevel {e : Engine} (propagated : e.trail.head = e.trail.lits.size) : Turn e e.openLevel
  | decide {e : Engine} {l : Lit} (propagated : e.trail.head = e.trail.lits.size)
    (unassigned : e.trail.value l.var = .undecided) (bound : l.var.index < e.numVars) :
    Turn e (e.decide l)
  /-- Nothing is left to decide. -/
  | exhausted {e f : Engine} (result : e.pickLit = (none, f)) : Turn e f
  | picked {e f : Engine} {l : Lit} (propagated : e.trail.head = e.trail.lits.size)
    (unassigned : e.trail.value l.var = .undecided) (bound : l.var.index < e.numVars)
    (result : e.pickLit = (some l, f)) : Turn e (f.decide l)
  /-- An assumption is false, and the core is found. -/
  | blame {e f : Engine} {l : Lit} {core : DenseSet Lit} (fails : e.trail.isFalse l = true)
    (result : e.analyzeFinal l.neg = (f, core)) : Turn e f
  | learn {F : List (List Lit)} {e f : Engine} {c : Conflict} {handled : Handled}
    (result : e.handleConflict c = .ok (handled, f)) (settled : f.Settled F)
    (descends : e.trail.Descends f.trail) : Turn e f

/-! ### Turns keep the engine in order -/

theorem Settled.order (h : e.Settled F) : e.Sound [] ∧ e.FrozenApart := by
  obtain ⟨pairs, faithful⟩ := h.faithful
  exact ⟨faithful.sound, faithful.apart⟩

theorem Orderly.settled (shelved : e.Shelved) (watched : e.FrozenWatched) (h : e.Settled F) :
    e.Orderly := ⟨h.order.1, h.order.2, shelved, watched⟩

theorem Orderly.aside (h : e.Orderly) (books : e.SameBooks f) (sound : f.Sound [])
    (apart : f.FrozenApart) : f.Orderly :=
  ⟨sound, apart, h.shelved.kept books.kept, books.frozenKept.watched h.watched⟩

theorem Orderly.propagateFrom (h : e.Orderly) {n : Nat} {conflict : Option Conflict}
    (result : Engine.propagateFrom n e = (f, conflict)) : f.Orderly := by
  obtain ⟨sound, apart, -⟩ := propagateFrom_sound h.sound h.apart result
  exact ⟨sound, apart, h.shelved.kept (booksKept_propagateFrom h.sound h.apart result),
    h.watched.propagateFrom h.sound h.apart result⟩

theorem Orderly.refute (h : e.Orderly) : e.refute.Orderly :=
  h.aside (.others e) { h.sound with } { h.apart with }

theorem sound_addFact {l : Lit} (sound : (e.assign l .decision).Sound [])
    (apart : (e.assign l .decision).FrozenApart) :
    (e.addFact l).Sound [] ∧ (e.addFact l).FrozenApart := by
  unfold Engine.addFact
  rcases run : (e.assign l .decision).propagate with ⟨f, _ | c⟩
  all_goals obtain ⟨sound', apart', -⟩ := propagate_sound sound apart run
  · exact ⟨sound', apart'⟩
  · exact ⟨{ sound' with }, { apart' with }⟩

theorem Orderly.addFact (h : e.Orderly) {l : Lit} (sound : (e.assign l .decision).Sound [])
    (apart : (e.assign l .decision).FrozenApart) : (e.addFact l).Orderly :=
  ⟨(sound_addFact sound apart).1, (sound_addFact sound apart).2,
    h.shelved.kept (booksKept_addFact sound apart), h.watched.addFact sound apart⟩

theorem Orderly.add (h : e.Orderly) (settled : e.Settled F) (zero : e.trail.level = 0)
    (normalized : Solver.Normalized e.trail c lits) (bound : ∀ l ∈ c, l.var.index < e.numVars)
    (result : Solver.addNormalized e lits = .ok f) : f.Orderly := by
  obtain ⟨pairs, faithful⟩ := settled.faithful
  cases added_of_addNormalized result with
  | empty => exact h.refute
  | fact =>
    have assigned := faithful.toRegular.assignUnit zero normalized bound rfl
    exact h.addFact assigned.sound assigned.apart
  | @pair a b =>
    exact .settled (h.shelved.kept (booksKept_addBinary e a b false))
      ((frozenKept_addBinary e a b false).watched h.watched)
      (settled.addPair zero normalized bound rfl)
  | long size stored =>
    obtain ⟨booked, learnts, recent, -⟩ := h.shelved.booked.storeOriginal stored
    refine .settled ⟨learnts ▸ booked, ?_⟩ ((frozenKept_storeOriginal stored).watched h.watched)
      (settled.addLong zero normalized bound size stored).1
    rw [recent, learnts]
    exact h.shelved.recent

theorem Shelved.compact (h : e.Shelved) (sound : e.Sound []) (result : e.compact = .ok f) :
    f.Shelved := by
  obtain ⟨booked, learnts, recent⟩ := h.booked.compact sound result
  exact ⟨booked, by rw [recent, learnts]; exact h.recent⟩

theorem Upkept.order {originals learnts : List ClauseId} {b : Engine}
    (h : e.Upkept F originals learnts b) : e.Sound [] ∧ e.FrozenApart := by
  obtain ⟨pairs, faithful⟩ := h.faithful
  exact ⟨faithful.sound, faithful.apart⟩

theorem VivifiedTo.order {before after learnts : List ClauseId} {b : Engine} {id : ClauseId}
    (h : e.Upkept F (before ++ id :: after) learnts b) {stays : Bool}
    (result : VivifiedTo F before after learnts e id stays f) : f.Sound [] ∧ f.FrozenApart := by
  rcases result.upkept_or_fact h with upkept | ⟨pairs, lits, g, l, shorter, list, -, -, rfl⟩
  · exact upkept.order
  · have assigned := shorter.assigned list
    exact sound_addFact assigned.sound assigned.apart

theorem Quiet.order_vivifyAll (quiet : e.Quiet F) (minSize : Nat) :
    (e.vivifyAll minSize).Sound [] ∧ (e.vivifyAll minSize).FrozenApart := by
  obtain ⟨pairs, faithful⟩ := quiet.faithful
  obtain ⟨kept, g, vivified, sound, apart⟩ := quiet.vivifyAll_keeps
    (P := fun _ x => x.Sound [] ∧ x.FrozenApart) minSize
    (fun upkept _ vivified => vivified.order upkept) ⟨faithful.sound, faithful.apart⟩
  rw [vivified]
  exact ⟨{ sound with }, { apart with }⟩

theorem Orderly.branching (h : e.Orderly) (b : Branching) : ({ e with branching := b } : Engine).Orderly :=
  h.aside (.others e) (h.sound.branching b) { h.apart with }

theorem Orderly.decide (h : e.Orderly) {l : Lit} (propagated : e.trail.head = e.trail.lits.size)
    (unassigned : e.trail.value l.var = .undecided) (bound : l.var.index < e.numVars) :
    (e.decide l).Orderly :=
  h.aside (sameBooks_decide e l) (h.sound.decide propagated unassigned bound) { h.apart with }

/-- Choosing what to decide takes variables from the heap, and does nothing else. -/
theorem pickLit_eq {choice : Option Lit} (result : e.pickLit = (choice, f)) :
    f = { e with branching := (e.branching.pick e.trail.isUnassigned).2 } :=
  (congrArg Prod.snd result).symm

theorem Orderly.blame (h : e.Orderly) {l : Lit} (fails : e.trail.isFalse l = true)
    {core : DenseSet Lit} (result : e.analyzeFinal l.neg = (f, core)) : f.Orderly := by
  have unseen := (analyzeFinal_spec h.sound ((h.sound.trail.isFalse_iff l).mp fails) result).2.1
  unfold analyzeFinal at result
  dsimp only at result
  split at result <;> cases result
  · exact h
  · exact h.aside (.others e) { h.sound with unseen := unseen } { h.apart with }

theorem Chore.orderly (chore : Chore e f) (h : e.Orderly) : f.Orderly := by
  cases chore with
  | noted | dated => exact h.aside (.others e) { h.sound with } { h.apart with }
  | rebuild => exact h.branching _
  | setDecision => exact h.branching _
  | setPolarity => exact h.branching _
  | cancelTo _ level =>
    exact h.aside (sameBooks_cancelTo e level) (h.sound.cancelTo level) (h.apart.cancelTo level)
  | grown _ polarity =>
    exact ⟨h.sound.grown polarity, h.apart.grown polarity,
      ⟨h.shelved.booked.grown h.sound polarity, h.shelved.recent⟩, h.watched.grown h.sound polarity⟩
  | propagate result => exact h.propagateFrom result
  | simplifyAll quiet =>
    obtain ⟨⟨pairs, olds, recents, list, le, faithful⟩, -⟩ :=
      quiet.recalls.simplifyAll quiet.zero quiet.propagated
    exact ⟨faithful.sound, faithful.apart, h.shelved.simplifyAll,
      e.effects_simplifyAll.frozenKept.watched h.watched⟩
  | reduce settled zero =>
    exact .settled (h.shelved.reduce settled zero) (.reduce h.shelved settled zero)
      (settled.reduce zero).1
  | vivifyAll quiet minSize =>
    obtain ⟨sound, apart⟩ := quiet.order_vivifyAll minSize
    exact ⟨sound, apart, h.shelved.vivifyAll quiet minSize, h.watched.vivifyAll quiet minSize⟩
  | compact settled result =>
    obtain ⟨pairs, faithful⟩ := settled.faithful
    obtain ⟨new, moved, -⟩ := faithful.compact rfl (e.lists_ledger pairs) result
    exact ⟨moved.sound, moved.apart, h.shelved.compact h.sound result,
      h.watched.compact h.sound h.shelved.booked.filed.listsUsed result⟩
  | add settled zero normalized bound result => exact h.add settled zero normalized bound result

/-- A turn keeps an engine in order. -/
theorem Turn.orderly (turn : Turn e f) (h : e.Orderly) : f.Orderly := by
  cases turn with
  | chore chore => exact chore.orderly h
  | openLevel propagated =>
    exact h.aside (sameBooks_openLevel e) (h.sound.openLevel propagated) { h.apart with }
  | decide propagated unassigned bound => exact h.decide propagated unassigned bound
  | exhausted result =>
    rw [pickLit_eq result]
    exact h.branching _
  | picked propagated unassigned bound result =>
    rw [pickLit_eq result]
    exact (h.branching _).decide propagated unassigned bound
  | blame fails result => exact h.blame fails result
  | learn result settled =>
    exact .settled (h.shelved.handleConflict result)
      ((frozenKept_handleConflict result).watched h.watched) settled

/-- A sequence of turns. -/
def Turns : Engine → Engine → Prop := Relation.ReflTransGen Turn

/-- A step that counts nothing. -/
structure Quietly (step : Engine → Engine → Prop) (e f : Engine) : Prop where
  step : step e f
  uncounted : e.Uncounted f

/-- A sequence of operations that open no level and count nothing. -/
def Chores : Engine → Engine → Prop := Relation.ReflTransGen (Quietly Chore)

theorem Chores.refl (e : Engine) : e.Chores e := Relation.ReflTransGen.refl

theorem Chores.trans (h : e.Chores f) (k : f.Chores g) : e.Chores g := Relation.ReflTransGen.trans h k

theorem Chore.chores (chore : Chore e f) (uneventful : e.Uneventful f) : e.Chores f :=
  .single ⟨chore, uneventful.toUncounted⟩

/-- A sequence of turns that count nothing. -/
def Strides : Engine → Engine → Prop := Relation.ReflTransGen (Quietly Turn)

theorem Strides.refl (e : Engine) : e.Strides e := Relation.ReflTransGen.refl

theorem Strides.trans (h : e.Strides f) (k : f.Strides g) : e.Strides g := Relation.ReflTransGen.trans h k

theorem Turn.strides (turn : Turn e f) (uneventful : e.Uneventful f) : e.Strides f :=
  .single ⟨turn, uneventful.toUncounted⟩

theorem Chores.strides (chores : e.Chores f) : e.Strides f :=
  Relation.ReflTransGen.mono (fun _ _ chore => ⟨.chore chore.step, chore.uncounted⟩) _ _ chores

theorem Strides.uncounted (strides : e.Strides f) : e.Uncounted f := by
  induction strides with
  | refl => exact .refl e
  | tail _ turn ih => exact ih.trans turn.uncounted

theorem strides_countDecision (e : Engine) :
    e.Strides (e.modifyStats fun st => { st with decisions := st.decisions + 1 }) :=
  (Turn.chore (.noted e)).strides (.of_eq ⟨rfl, rfl, rfl, rfl⟩)

/-- One round of the work on an engine, with what it counts. -/
inductive Round : Engine → Engine → Prop where
  | turn {e f : Engine} (turn : Turn e f) (uncounted : e.Uncounted f) : Round e f
  /-- A conflict from which nothing is learnt. -/
  | clash (e : Engine) : Round e e.clashed
  | learn {e f : Engine} {c : Conflict} {handled : Handled} (turn : Turn e.clashed f)
    (result : e.clashed.handleConflict c = .ok (handled, f)) : Round e f
  | reduce {e : Engine} (turn : Turn e e.reduce) (due : e.isReductionDue = true)
    (zero : e.trail.level = 0) : Round e e.reduce

/-- A round is a sequence of turns. -/
theorem Round.turns (round : Round e f) : e.Turns f := by
  cases round with
  | turn turn => exact .single turn
  | clash => exact .single (.chore (.noted e))
  | learn turn => exact .tail (.single (.chore (.noted e))) turn
  | reduce turn => exact .single turn

/-- A sequence of rounds. -/
def Rounds : Engine → Engine → Prop := Relation.ReflTransGen Round

theorem Rounds.refl (e : Engine) : e.Rounds e := Relation.ReflTransGen.refl

theorem Rounds.trans (h : e.Rounds f) (k : f.Rounds g) : e.Rounds g := Relation.ReflTransGen.trans h k

theorem Turn.rounds (turn : Turn e f) (uneventful : e.Uneventful f) : e.Rounds f :=
  .single (.turn turn uneventful.toUncounted)

theorem Strides.rounds (strides : e.Strides f) : e.Rounds f :=
  Relation.ReflTransGen.mono (fun _ _ turn => .turn turn.step turn.uncounted) _ _ strides

theorem Chores.rounds (chores : e.Chores f) : e.Rounds f := chores.strides.rounds

theorem Rounds.turns (rounds : e.Rounds f) : e.Turns f := by
  induction rounds with
  | refl => exact .refl
  | tail _ round ih => exact Relation.ReflTransGen.trans ih round.turns

/-- What every turn keeps is kept by a sequence of turns. -/
theorem Turns.keeps {P : Engine → Prop} (step : ∀ {e f}, Turn e f → e.Orderly → P e → P f)
    (turns : e.Turns f) (h : e.Orderly ∧ P e) : f.Orderly ∧ P f := by
  induction turns with
  | refl => exact h
  | tail _ turn ih => exact ⟨turn.orderly ih.1, step turn ih.1 ih.2⟩

/-- What every turn keeps is kept by a round. -/
theorem Round.keeps {P : Engine → Prop} (step : ∀ {e f}, Turn e f → e.Orderly → P e → P f)
    {e f : Engine} (round : Round e f) (orderly : e.Orderly) (h : P e) : P f :=
  (round.turns.keeps step ⟨orderly, h⟩).2

theorem Turns.orderly (turns : e.Turns f) (h : e.Orderly) : f.Orderly :=
  (turns.keeps (P := fun _ => True) (fun _ _ _ => trivial) ⟨h, trivial⟩).1

/-- What every round keeps is kept by a sequence of rounds. -/
theorem Rounds.keeps {P : Engine → Prop} (step : ∀ {e f}, Round e f → e.Orderly → P e → P f)
    (rounds : e.Rounds f) (h : e.Orderly ∧ P e) : f.Orderly ∧ P f := by
  induction rounds with
  | refl => exact h
  | tail _ round ih => exact ⟨round.turns.orderly ih.1, step round ih.1 ih.2⟩

theorem uneventful_pickLit {choice : Option Lit} (result : e.pickLit = (choice, f)) : e.Uneventful f := by
  rw [pickLit_eq result]
  exact .of_eq ⟨rfl, rfl, rfl, rfl⟩

theorem current_initial (opts : Options) : (initial opts).levelCounter.Current :=
  fun _ => Nat.le_refl 0

/-- A turn keeps the counter of levels right. -/
theorem Turn.current (turn : Turn e f) (h : e.levelCounter.Current) : f.levelCounter.Current := by
  cases turn with
  | chore chore =>
    cases chore with
    | cancelTo _ level => exact (uneventful_cancelTo e level).current h
    | propagate result => exact (uneventful_propagateFrom result).current h
    | simplifyAll => exact e.effects_simplifyAll.uneventful.current h
    | reduce => exact (reduce_counts e).1 h
    | vivifyAll _ minSize => exact (uneventful_vivifyAll e minSize).current h
    | compact settled result => exact (uneventful_compact settled result).current h
    | add _ _ _ _ result => exact (uneventful_addNormalized result).current h
    | _ => exact h
  | decide => exact h
  | exhausted result => exact (uneventful_pickLit result).current h
  | picked _ _ _ result => exact (uneventful_pickLit result).current h
  | blame _ result => exact (uneventful_analyzeFinal result).current h
  | learn result => exact (handleConflict_counts result).1.current h
  | openLevel => exact h

/-- An engine without clauses is in order. -/
theorem orderly_initial (opts : Options) : (initial opts).Orderly := by
  have absent (id : ClauseId) : (initial opts).clause id = .absent := clause_eq_absent (Nat.zero_le _)
  have removed (id : ClauseId) : ¬ ((initial opts).clause id).isRemoved = false := by
    rw [absent]
    exact nofun
  have filed : (initial opts).Filed [] [] :=
    ⟨fun id => by simp [removed], fun id => by simp [removed], List.nodup_nil, List.nodup_nil⟩
  obtain ⟨sound, apart⟩ := (settled_initial opts).order
  refine ⟨sound, apart, ⟨⟨⟨rfl, rfl, rfl, rfl, rfl, fun _ => rfl, rfl, Nat.zero_le _⟩, filed, rfl, fun _ _ => rfl, rfl⟩,
    Nat.le_refl 0⟩, ⟨⟨?_, ?_⟩, ?_⟩⟩
  · exact fun id used => absurd used (removed id)
  · exact fun id used => absurd used (removed id)
  · exact fun p w member => absurd member (Array.not_mem_empty w)

/-- All is quiet after a propagation at level zero that finds no conflict. -/
theorem Settled.quiet_propagate (h : e.Settled F) (zero : e.trail.level = 0)
    (result : e.propagate = (f, none)) : f.Quiet F := by
  obtain ⟨pairs, faithful⟩ := h.faithful
  obtain ⟨-, grown, finished, -⟩ := faithful.propagate result
  obtain ⟨faithful', propagated⟩ := finished rfl
  refine ⟨⟨⟨pairs, ?_⟩, grown.ok.trans h.ok⟩, grown.level.trans zero, propagated⟩
  rw [ledger, grown.originals, grown.learnts]
  exact faithful'

end Engine

namespace Solver

open Engine

variable {F log : List (List Lit)} {s t u : Solver}

/-! ### Turns of calls and searches -/

/-- A check for garbage compacts the arena or changes nothing. -/
theorem engine_of_settle {answer : Except SolverError Bool} (result : s.settle = (answer, t)) :
    t.engine = s.engine ∨ s.engine.compact = .ok t.engine := by
  cases settle_cases result with
  | idle | full => exact .inl rfl
  | @compacted f compacted =>
    rw [(noted_notify { s with engine := f } (.compacted s.engine.arenaBytes f.arenaBytes)).engine]
    exact .inr compacted

theorem chores_settle (h : s.engine.Settled F) {answer : Except SolverError Bool}
    (result : s.settle = (answer, t)) : s.engine.Chores t.engine := by
  rcases engine_of_settle result with same | compacted
  · rw [same]
    exact .refl _
  · exact (Chore.compact h compacted).chores (uneventful_compact h compacted)

theorem chores_engineSimplify {e f : Engine} (h : e.Settled F) (zero : e.trail.level = 0)
    {outcome : Simplification} (result : e.simplify = (outcome, f)) : e.Chores f := by
  have propagates {g : Engine} {conflict : Option Conflict} (run : e.propagate = (g, conflict)) :
      e.Chores g := (Chore.propagate run).chores (uneventful_propagateFrom run)
  cases tidying_of_simplify h.ok result with
  | @clash g c run =>
    exact (propagates run).trans ((Chore.noted g).chores (Uneventful.refl g).refute)
  | upToDate run => exact propagates run
  | @done g run =>
    have quiet := h.quiet_propagate zero run
    have simplified := (propagates run).trans
      ((Chore.simplifyAll quiet).chores g.effects_simplifyAll.uneventful)
    have rebuilt := simplified.trans
      ((Chore.rebuild g.simplifyAll).chores (.of_eq ⟨rfl, rfl, rfl, rfl⟩))
    obtain ⟨-, -, same⟩ := quiet.recalls.simplifyAll quiet.zero quiet.propagated
    have dated := Chore.dated (e := { g.simplifyAll with
        branching := g.simplifyAll.branching.rebuild
          (g.simplifyAll.vars.filter g.simplifyAll.trail.isUnassigned) })
      quiet.originalsOpen_simplifyAll (same.level.trans quiet.zero)
    exact rebuilt.tail ⟨dated, id, rfl, id⟩

theorem chores_simplify (h : s.engine.Settled F) (zero : s.engine.trail.level = 0)
    {answer : Except SolverError Bool} (result : s.simplify = (answer, t)) :
    s.engine.Chores t.engine := by
  unfold Solver.simplify at result
  rcases simplified : s.engine.simplify with ⟨outcome, f⟩
  rw [simplified] at result
  have spec := h.simplify zero simplified
  have chores := chores_engineSimplify h zero simplified
  cases outcome with
  | refuted =>
    cases result
    exact chores
  | upToDate =>
    cases result
    exact chores
  | done =>
    dsimp only at result
    have noted := noted_notify { s with engine := f, pureLitsStale := true } .simplified
    have settled : f.Settled F := by
      rw [if_neg (by decide)] at spec
      exact spec.1.toSettled
    have rest := chores_settle (by rw [noted.engine]; exact settled) result
    rw [noted.engine] at rest
    exact chores.trans rest

theorem chores_vivifyQuietly (h : s.engine.Settled F) (zero : s.engine.trail.level = 0) (minSize : Nat)
    {answer : Except SolverError Bool} (result : s.vivifyQuietly minSize = (answer, t)) :
    s.engine.Chores t.engine := by
  have vivified {u : Solver} (simplified : s.simplify = (.ok true, u)) :
      s.engine.Chores (u.engine.vivifyAll minSize) :=
    (chores_simplify h zero simplified).trans
      ((Chore.vivifyAll (quiet_of_simplify h zero simplified) minSize).chores
        (uneventful_vivifyAll u.engine minSize))
  cases vivifyQuietly_cases result with
  | stopped simplified => exact chores_simplify h zero simplified
  | refuted simplified => exact vivified simplified
  | @settled t u answer simplified ok settles =>
    have quiet := ((quiet_of_simplify h zero simplified).vivifyAll minSize).resolve_left fun refuted =>
      Bool.false_ne_true (refuted.notOk.symm.trans ok)
    exact (vivified simplified).trans (chores_settle quiet.1.toSettled settles)

theorem chores_restart (s : Solver) : s.engine.Chores s.restart.engine := by
  rw [(noted_restart s).engine]
  have counted : s.engine.Chores s.engine.noteRestart :=
    (Chore.noted s.engine).chores (.of_eq ⟨rfl, rfl, rfl, rfl⟩)
  exact counted.trans ((Chore.cancelTo _ 0).chores (uneventful_cancelTo _ 0))

/-- If a reduction is due it is made, and then there may be a check for garbage. -/
theorem chores_reduce (h : s.engine.Settled F) (zero : s.engine.trail.level = 0) {u : Upkeep}
    (result : s.reduceIfDue = (u, t)) :
    s.engine.isReductionDue = false ∧ t = s ∨
      s.engine.isReductionDue = true ∧ s.engine.reduce.Chores t.engine := by
  unfold reduceIfDue at result
  split at result
  next due =>
    rcases called : s.reduce with ⟨answer, v⟩
    have chores : s.engine.reduce.Chores v.engine := by
      unfold reduce at called
      dsimp only at called
      have noted := noted_reduce s
      have settled := (h.reduce zero).1
      have rest := chores_settle (by rw [noted.engine]; exact settled) called
      rw [noted.engine] at rest
      exact rest
    rw [called] at result
    cases answer <;>
    · cases result
      exact .inr ⟨due, chores⟩
  next other =>
    cases result
    exact .inl ⟨Bool.eq_false_iff.mpr other, rfl⟩

theorem rounds_reduceIfDue (h : s.engine.Settled F) (zero : s.engine.trail.level = 0) {u : Upkeep}
    (result : s.reduceIfDue = (u, t)) : s.engine.Rounds t.engine := by
  rcases chores_reduce h zero result with ⟨-, rfl⟩ | ⟨due, chores⟩
  · exact .refl _
  · have reduced : s.engine.Rounds s.engine.reduce := .single (.reduce (.chore (.reduce h zero)) due zero)
    exact reduced.trans chores.rounds

theorem rounds_upkeep (h : s.engine.Working F log) (zero : s.engine.trail.level = 0) {u : Upkeep}
    (result : s.upkeep = (u, t)) : s.engine.Rounds t.engine := by
  cases upkeep_cases result with
  | failed simplified | refuted simplified => exact (chores_simplify h.settled zero simplified).rounds
  | broken simplified reduced =>
    have tidied := tidied_of_simplify h zero simplified
    exact (chores_simplify h.settled zero simplified).rounds.trans
      (rounds_reduceIfDue tidied.working.settled tidied.zero reduced)
  | @done v w simplified reduced =>
    have tidied := tidied_of_simplify h zero simplified
    have rounds := (chores_simplify h.settled zero simplified).rounds.trans
      (rounds_reduceIfDue tidied.working.settled tidied.zero reduced)
    split
    · exact rounds.trans ((Turn.chore (.noted w.engine)).rounds (.of_eq ⟨rfl, rfl, rfl, rfl⟩))
    · exact rounds

theorem strides_openAssumed (rest : List (Lit × Bool)) {e f : Engine}
    (propagated : e.trail.head = e.trail.lits.size) {a : Assumed}
    (result : Engine.openAssumed rest e = (a, f)) : e.Strides f := by
  induction rest generalizing e with
  | nil =>
    cases result
    exact .refl _
  | cons entry rest ih =>
    have opened := (Turn.openLevel propagated).strides (.of_eq ⟨rfl, rfl, rfl, rfl⟩)
    unfold Engine.openAssumed at result
    split at result
    · cases result
      exact .refl _
    · split at result
      · cases result
        exact .refl _
      · exact opened.trans (ih propagated result)
    · exact opened.trans (ih propagated result)

/-- With all assumptions true, either nothing is left to decide or what is picked is decided. -/
theorem strides_pickLit {e f : Engine} (offers : e.Offers)
    (propagated : e.trail.head = e.trail.lits.size) {choice : Option Lit}
    (picked : e.pickLit = (choice, f)) :
    (choice = none → e.Strides f) ∧ ∀ l, choice = some l → e.Strides (f.decide l) := by
  obtain ⟨branching, -, -, spec⟩ := pickLit_spec offers picked
  refine ⟨fun none_left => ?_, fun l chosen => ?_⟩
  · cases none_left
    exact (Turn.exhausted picked).strides (uneventful_pickLit picked)
  · cases chosen
    exact (Turn.picked propagated spec.2.1 spec.1 picked).strides
      ((uneventful_pickLit picked).andThen (sameCounts_update rfl rfl))

theorem strides_branch (h : s.Searching F log)
    (propagated : s.engine.trail.head = s.engine.trail.lits.size) {r : StepResult}
    (result : s.branch = (r, t)) : s.engine.Strides t.engine := by
  -- With all assumptions true, one more decision is counted before it is made.
  have picks {e : Engine} (opened : s.engine.openAssumed s.toAssume = (.all, e)) {choice : Option Lit}
      {f : Engine} (picked : (e.modifyStats fun st => { st with decisions := st.decisions + 1 }).pickLit =
        (choice, f)) :
      (choice = none → s.engine.Strides f) ∧ ∀ l, choice = some l → s.engine.Strides (f.decide l) := by
    obtain ⟨working, -, -, -, propagated', -⟩ :=
      h.working.openAssumed _ h.presumes propagated rfl opened
    have offers : (e.modifyStats fun st => { st with decisions := st.decisions + 1 }).Offers :=
      { working.settled.offers with }
    have counted := (strides_openAssumed _ propagated opened).trans (strides_countDecision e)
    obtain ⟨none_left, decides⟩ := strides_pickLit offers propagated' picked
    exact ⟨fun same => counted.trans (none_left same), fun l same => counted.trans (decides l same)⟩
  cases branch_cases result with
  | @assumed l e opened =>
    have strides := strides_openAssumed _ propagated opened
    obtain ⟨working, -, framed, -, propagated', opened⟩ :=
      h.working.openAssumed _ h.presumes propagated rfl opened
    cases opened with
    | next unassigned at_level =>
      have bound : l.var.index < e.numVars :=
        framed.numVars ▸ h.bounded l (List.mem_of_getElem? at_level)
      exact strides.trans
        ((Turn.decide propagated' unassigned bound).strides (.of_eq (sameCounts_update rfl rfl)))
  | blamed opened analyzed =>
    have strides := strides_openAssumed _ propagated opened
    obtain ⟨-, -, -, -, -, opened⟩ := h.working.openAssumed _ h.presumes propagated rfl opened
    cases opened with
    | violated fails =>
      exact strides.trans ((Turn.blame fails analyzed).strides (uneventful_analyzeFinal analyzed))
  | exhausted opened picked => exact (picks opened picked).1 rfl
  | picked opened picked => exact (picks opened picked).2 _ rfl

theorem rounds_rest (h : s.Searching F log) (zero : s.engine.trail.level = 0) {r : StepResult}
    (rests : s.Resting r t) : s.engine.Rounds t.engine := by
  cases rests with
  | refuted upkept | failed upkept | propagateFirst upkept => exact rounds_upkeep h.working zero upkept
  | decided upkept decides =>
    obtain ⟨more, searching, -, -, propagated, -⟩ := h.upkept zero upkept
    exact (rounds_upkeep h.working zero upkept).trans (strides_branch searching propagated decides).rounds

theorem chores_resumed (s : Solver) : s.engine.Chores s.resumed.engine := by
  unfold resumed
  split
  · exact chores_restart s
  · exact .refl _

theorem rounds_advance (h : s.Searching F log)
    (propagated : s.engine.trail.head = s.engine.trail.lits.size) {r : StepResult}
    (result : s.advance = (r, t)) : s.engine.Rounds t.engine := by
  have kept {within : Bool} {u : Solver} (checked : s.withinBudget = (within, u)) :
      u.engine = s.engine ∧ u.Searching F log :=
    ⟨(noted_withinBudget checked).1.engine, h.noted (noted_withinBudget checked).1⟩
  cases advance_cases result with
  | limited checked =>
    rw [(kept checked).1]
    exact .refl _
  | @rested _ u _ checked zero rests =>
    obtain ⟨engine, searching⟩ := kept checked
    rw [← engine]
    exact (chores_resumed u).rounds.trans (rounds_rest searching.resumed.1 zero rests)
  | decided checked calm positive decides =>
    obtain ⟨engine, searching⟩ := kept checked
    rw [← engine] at propagated ⊢
    exact (strides_branch searching propagated decides).rounds

/-- A conflict above level zero is handled in one round, even if there is no room for what is learnt. -/
theorem round_conflict (h : s.Searching F log) {e f : Engine} {c : Conflict} {handled : Handled}
    (run : s.engine.propagate = (e, some c)) (positive : e.trail.level ≠ 0)
    (result : e.clashed.handleConflict c = .ok (handled, f)) : e.Round f := by
  obtain ⟨-, descends, outcome⟩ := h.working.handleConflict run positive _ result
  have settled : f.Settled F := by
    cases handled with
    | learnt =>
      obtain ⟨⟨d, working⟩, -⟩ := outcome
      exact working.settled
    | failed => exact outcome.1.settled
  exact .learn (.learn result settled descends) result

theorem rounds_searchStep (h : s.Searching F log) {r : StepResult}
    (result : s.searchStep = .ok (r, t)) : s.engine.Rounds t.engine := by
  -- Whatever follows, a step that is not stopped propagates first.
  have first {e : Engine} {conflict : Option Conflict} (run : s.engine.propagate = (e, conflict)) :
      s.engine.Rounds e :=
    ((Chore.propagate run).chores (uneventful_propagateFrom run)).rounds
  have found {e : Engine} {c : Conflict} {u : Solver} (conflicts : s.Conflicts e c u) :
      s.engine.propagate = (e, some c) := by
    obtain ⟨asked, run⟩ := conflicts
    rwa [(noted_stopRequested asked).engine] at run
  cases searchStep_cases result with
  | stopped asked =>
    rw [(noted_stopRequested asked).engine]
    exact .refl _
  | advanced proceeds advances =>
    obtain ⟨searching, -, -, finished⟩ := h.proceeds proceeds
    obtain ⟨asked, run⟩ := proceeds
    rw [(noted_stopRequested asked).engine] at run
    exact (first run).trans (rounds_advance searching finished advances)
  | @refuted e _ _ conflicts => exact (first (found conflicts)).trans (.single (.clash e))
  | failed conflicts positive handled | learnt conflicts positive handled =>
    have run := found conflicts
    exact (first run).trans (.single (round_conflict h run positive handled))

theorem rounds_search (n : Nat) (h : s.Searching F log) {outcome : Outcome}
    (result : Solver.search n s = .ok (outcome, t)) : s.engine.Rounds t.engine := by
  induction n generalizing s log with
  | zero => cases result
  | succ n ih =>
    obtain ⟨r, u, stepped, step⟩ := h.step
    have rounds := rounds_searchStep h stepped
    unfold Solver.search at result
    rw [stepped] at result
    cases step with
    | «continue» searching => exact rounds.trans (ih searching result)
    | finished =>
      cases result
      exact rounds
    | failed =>
      cases result
      exact rounds

/-! ### Turns of a solve -/

theorem chores_prepare (h : s.engine.Settled F) (zero : s.engine.trail.level = 0)
    {answer : Except SolverError Bool} (result : s.prepare = (answer, t)) :
    s.engine.Chores t.engine := by
  unfold prepare at result
  dsimp only at result
  rcases simplified : s.simplify with ⟨answer', u⟩
  rw [simplified] at result
  have chores := chores_simplify h zero simplified
  split at result
  next first =>
    cases first
    have quiet := quiet_of_simplify h zero simplified
    split at result
    · exact chores.trans (chores_vivifyQuietly quiet.toSettled quiet.zero _ result)
    · cases result
      exact chores
  next other =>
    cases result
    exact chores

/-- The solver from which a solve goes on. -/
def Opening.solver : Opening → Solver
  | .answered _ s => s
  | .search s => s

theorem chores_opening (h : s.engine.Settled F) (zero : s.engine.trail.level = 0) :
    s.engine.Chores s.opening.solver.engine := by
  unfold Solver.opening
  rcases asked : s.stopRequested with ⟨stop, u⟩
  have noted := noted_stopRequested asked
  have engine : u.engine = s.engine := noted.engine
  rw [← engine] at h zero ⊢
  cases stop with
  | true => exact .refl _
  | false =>
    dsimp only
    split
    · exact .refl _
    · rcases prepared : u.prepare with ⟨answer, v⟩
      have chores := chores_prepare h zero prepared
      match answer with
      | .error err => exact chores
      | .ok false => exact chores
      | .ok true => exact chores

theorem chores_begun (s : Solver) : s.engine.Chores s.begun.engine := by
  obtain ⟨listener, budget, same, -⟩ := s.setDeadline_eq
  rw [begun_eq, (noted_notify _ .started).engine, same]
  exact (Chore.noted s.engine).chores (.of_eq ⟨rfl, rfl, rfl, rfl⟩)

theorem chores_conclude (outcome : Outcome) (s : Solver) :
    s.engine.Chores (Solver.conclude (outcome, s)).2.engine := by
  cases outcome with
  | error err => exact (Chore.cancelTo s.engine 0).chores (uneventful_cancelTo s.engine 0)
  | ok status =>
    have taken : s.engine.Chores (s.takeResult status).engine := by
      cases status with
      | unsat =>
        by_cases empty : s.core.isEmpty = true
        · simp only [takeResult, if_pos empty]
          exact (Chore.noted s.engine).chores (Uneventful.refl s.engine).refute
        · simp only [takeResult, if_neg empty]
          exact .refl _
      | _ => exact .refl _
    exact taken.trans
      ((Chore.cancelTo (s.takeResult status).engine 0).chores (uneventful_cancelTo _ 0))

theorem rounds_solveKeeping (h : s.Ready F) {steps : Nat} {outcome : Outcome}
    (result : Solver.solveKeeping steps s = .ok (outcome, t)) : s.engine.Rounds t.engine := by
  obtain ⟨searching, -, zero⟩ := h.begun
  rw [solveKeeping_eq steps h.settled.ok (shows_of_solveKeeping h.settled.ok result)] at result
  have opened := searching.opening zero
  have rounds := ((chores_begun s).trans (chores_opening searching.working.settled zero)).rounds
  generalize s.begun.opening = o at opened rounds result
  cases opened with
  | @answered outcome' u ended =>
    have last := (chores_conclude outcome' u).rounds
    rw [Except.ok.inj result] at last
    exact rounds.trans last
  | @search u searching' =>
    dsimp only at result
    rcases searched : search steps u with fault | ⟨outcome', v⟩
    · rw [searched] at result
      cases result
    · rw [searched] at result
      have last := (chores_conclude outcome' v).rounds
      rw [Except.ok.inj result] at last
      exact (rounds.trans (rounds_search steps searching' searched)).trans last

/-! ### Turns of commands -/

theorem chores_newVar (s : Solver) (polarity : Truth) (decision : Bool) :
    s.engine.Chores (s.newVar polarity decision).2.engine :=
  ((Chore.grown s.engine _).chores (.of_eq ⟨rfl, rfl, rfl, rfl⟩)).trans
    ((Chore.setDecision (Nat.lt_succ_self s.engine.numVars) decision).chores
      (.of_eq (sameCounts_update rfl rfl)))

theorem chores_newVars (n : Nat) (s : Solver) : s.engine.Chores (newVars n s).engine := by
  induction n generalizing s with
  | zero => exact .refl _
  | succ n ih => exact (chores_newVar s .undecided true).trans (ih _)

theorem chores_addClause (h : s.Rests F) {c : List Lit} {b : Bool}
    (result : s.addClause c = (.ok b, t)) : s.engine.Chores t.engine := by
  cases addClause_cases result with
  | closed | idle => exact .refl _
  | stored ok known left added =>
    have ready := h.resolve_left fun refuted => absurd (ok.symm.trans refuted.notOk) nofun
    have normalized := normalize_eq_some (fun l inside => (known l inside).1) left
    exact (Chore.add ready.settled ready.zero normalized (fun l inside => (known l inside).2)
      added).chores (uneventful_addNormalized added)

theorem chores_vivify (h : s.Rests F) (minSize : Nat) :
    s.engine.Chores (s.vivify minSize).2.engine := by
  unfold vivify
  rcases h with refuted | ready
  · unfold vivifyQuietly
    rw [simplify_of_not_ok refuted.notOk]
    exact .refl _
  · rcases result : s.vivifyQuietly minSize with ⟨answer, u⟩
    have chores := chores_vivifyQuietly ready.settled ready.zero minSize result
    match answer with
    | .ok false => exact chores
    | .ok true => exact chores
    | .error err => exact chores

theorem lt_of_checkVar {v : Var} (passed : s.checkVar v = .ok ()) : v.index < s.engine.numVars := by
  unfold checkVar at passed
  split at passed
  next bound => exact bound
  · cases passed

theorem chores_obeyed (h : s.Rests F) {d : Command} {c : List (List Lit)} (obeyed : s.Obeyed d c t) :
    s.engine.Chores t.engine := by
  -- Only a clause added, a simplification and a vivification do more than one chore.
  cases obeyed with
  | added result => exact chores_addClause h result
  | created polarity decision => exact chores_newVar s polarity decision
  | ensured n => exact chores_newVars n s
  | told | refused => exact .refl _
  | assumed result =>
    unfold addAssumption at result
    split at result <;> cases result
    exact .refl _
  | @allowed _ allowed =>
    next result =>
    unfold Solver.setDecision at result
    split at result
    · cases result
    next checked =>
      cases result
      exact (Chore.setDecision (lt_of_checkVar checked) allowed).chores (.of_eq ⟨rfl, rfl, rfl, rfl⟩)
  | @preferred _ positive =>
    next result =>
    unfold Solver.setPolarity at result
    split at result
    · cases result
    next checked =>
      cases result
      exact (Chore.setPolarity (lt_of_checkVar checked) positive).chores (.of_eq ⟨rfl, rfl, rfl, rfl⟩)
  | simplified _ result =>
    rcases h with refuted | ready
    · rw [simplify_of_not_ok refuted.notOk] at result
      cases result
      exact .refl _
    · exact chores_simplify ready.settled ready.zero result
  | @vivified minSize =>
    next result =>
    have chores := chores_vivify h minSize
    rw [result] at chores
    exact chores

/-! ### Reachable solvers are in order -/

theorem rounds_solveWith (h : s.Rests F) {steps : Nat} {as : List Lit} {outcome : Outcome}
    (result : s.solveWith steps as = .ok (outcome, t)) : s.engine.Rounds t.engine := by
  rcases solveWith_cases result with ⟨err, failed, rfl, rfl⟩ | ⟨u, known, solved, rfl⟩
  · exact .refl _
  · rcases h with refuted | ready
    · have notOk : (s.assuming as).engine.ok = false := refuted.notOk
      rw [solveKeeping_of_not_ok notOk] at solved
      cases solved
      exact .refl _
    · have rounds : (s.assuming as).engine.Rounds u.engine :=
        rounds_solveKeeping (ready.assuming known) solved
      exact rounds

theorem rounds_call (h : s.Rests F) {steps : Nat} {c : Call} {answer : Answer}
    (called : s.call steps c = .ok (answer, t)) : s.engine.Rounds t.engine := by
  cases c with
  | ask q =>
    cases called
    exact .refl _
  | obey c => exact (chores_obeyed h (obeyed (Except.ok.inj called))).rounds
  | solve as =>
    obtain ⟨outcome, result, -⟩ := call_solve called
    exact rounds_solveWith h result

section Upholding

variable {P : Engine → Prop} (start : ∀ opts : Options, opts.check = true → P (initial opts))
  (step : ∀ {e f}, Round e f → e.Orderly → P e → P f)

include start step

/-- What holds at first and is kept by every round holds between calls, even if the clauses are
contradictory. -/
theorem History.upholds (h : History F s) : s.engine.Orderly ∧ P s.engine := by
  induction h with
  | @create opts listener s created =>
    obtain ⟨checked, -, rfl⟩ := create_eq_ok_iff.mp created
    exact ⟨orderly_initial opts, start opts checked⟩
  | call before called ih => exact (rounds_call before.rests called).keeps step ih

/-- It holds in the course of a search. -/
theorem Searched.upholds (h : Searched F s) : s.engine.Orderly ∧ P s.engine := by
  induction h with
  | @start s t u as before ok assumed starts =>
    have ready := before.ready ok
    obtain ⟨rfl, known⟩ := addAssumptions_eq assumed
    have ready' := ready.assuming known
    obtain ⟨searching, -, zero⟩ := ready'.begun
    have rounds := ((chores_begun (s.assuming as)).trans
      (chores_opening searching.working.settled zero)).rounds
    have kept := before.upholds start step
    rw [starts] at rounds
    exact rounds.keeps step kept
  | step before stepped ih =>
    obtain ⟨log, searching⟩ := before.searching
    exact (rounds_searchStep searching stepped).keeps step ih

theorem Reached.upholds (h : Reached F s) : s.engine.Orderly ∧ P s.engine := by
  cases h with
  | rest before => exact before.upholds start step
  | search before => exact before.upholds start step

end Upholding

section Keeping

variable {P : Engine → Prop} (start : ∀ opts : Options, opts.check = true → P (initial opts))
  (step : ∀ {e f}, Turn e f → e.Orderly → P e → P f)

include start step

/-- What every turn keeps is kept by every round. -/
theorem History.keeps (h : History F s) : s.engine.Orderly ∧ P s.engine :=
  h.upholds start (Round.keeps step)

theorem Searched.keeps (h : Searched F s) : s.engine.Orderly ∧ P s.engine :=
  h.upholds start (Round.keeps step)

theorem Reached.keeps (h : Reached F s) : s.engine.Orderly ∧ P s.engine :=
  h.upholds start (Round.keeps step)

end Keeping

theorem History.orderly (h : History F s) : s.engine.Orderly :=
  (h.keeps (P := fun _ => True) (fun _ _ => trivial) fun _ _ _ => trivial).1

theorem Searched.orderly (h : Searched F s) : s.engine.Orderly :=
  (h.keeps (P := fun _ => True) (fun _ _ => trivial) fun _ _ _ => trivial).1

/-- The counter of levels counts right in the course of a search. -/
theorem Searched.current (h : Searched F s) : s.engine.levelCounter.Current :=
  (h.keeps (fun opts _ => Engine.current_initial opts) fun turn _ => turn.current).2

end Solver

end Cdcl
