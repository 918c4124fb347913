import Cdcl.Proofs.FrozenWatches
import Cdcl.Proofs.GivenClauses
import Mathlib.Data.Finset.Card

/-!
# What is counted

The counter of levels never clears its stamps. It counts right all the same, as no level carries the
stamp of a count to come, and that stays so in all that an engine does. The numbers of conflicts and of
reductions and the schedule of reductions only change when a conflict is handled or clauses are reduced,
and a contradiction is not forgotten.

## Main results

- `LevelCounter.count_spec`: a count is the number of distinct levels.
- `Uneventful`: the other operations of an engine keep the counts, and do not note a simplification.
- `handleConflict_counts`, `reduce_counts`: how a conflict and a reduction change the schedule.
-/

namespace Cdcl

namespace LevelCounter

/-- No level carries the stamp of a count to come. -/
def Current (c : LevelCounter) : Prop := ∀ level, c.stamps.get level ≤ c.now

/-- The levels in `met` are those that the present count has seen, `n` of them. -/
structure Counting (c : LevelCounter) (n : Nat) (met : Finset Nat) : Prop where
  current : c.Current
  stamped : ∀ level, c.stamps.get level = c.now ↔ level ∈ met
  number : n = met.card

theorem Counting.visit {c : LevelCounter} {n : Nat} {met : Finset Nat} (h : c.Counting n met)
    (level : Nat) : (c.visit n level).1.Counting (c.visit n level).2 (insert level met) := by
  unfold LevelCounter.visit
  split
  next again =>
    have member := (h.stamped level).mp (by simpa using again)
    rw [Finset.insert_eq_of_mem member]
    exact h
  next first =>
    have fresh : level ∉ met := fun member => first (by simpa using (h.stamped level).mpr member)
    constructor
    case current =>
      intro other
      rw [DenseMap.get_insert]
      split
      · exact Nat.le_refl _
      · exact h.current other
    case stamped =>
      intro other
      rw [DenseMap.get_insert, Finset.mem_insert, ← h.stamped]
      by_cases same : level = other
      · simp [same]
      · simp [same, Ne.symm same]
    case number => rw [Finset.card_insert_of_notMem fresh, h.number]

theorem Counting.visits {c : LevelCounter} {n : Nat} {met : Finset Nat} (h : c.Counting n met)
    (levels : List Nat) :
    let (d, m) := levels.foldl (fun (c, n) level => c.visit n level) (c, n)
    d.Counting m (levels.toFinset ∪ met) := by
  induction levels generalizing c n met with
  | nil => simpa using h
  | cons level levels ih =>
    have next := ih (h.visit level)
    rw [Finset.union_insert, ← Finset.insert_union, ← List.toFinset_cons] at next
    exact next

/-- A count is the number of distinct levels, and the next one will be right, too. -/
theorem count_spec {c : LevelCounter} (h : c.Current) (levels : List Nat) :
    (c.count levels).1.Current ∧ (c.count levels).2 = levels.toFinset.card := by
  have start : ({ c with now := c.now + 1 } : LevelCounter).Counting 0 ∅ :=
    { current := fun level => Nat.le_succ_of_le (h level)
      stamped := fun level => by
        have := h level
        simp only [Finset.notMem_empty, iff_false]
        omega
      number := rfl }
  have counted := start.visits levels
  rw [Finset.union_empty] at counted
  exact ⟨counted.current, counted.number⟩

end LevelCounter

/-- How many conflicts and reductions there were, and when the next reduction is due. -/
structure Schedule where
  opts : Options
  conflicts : Nat
  reductions : Nat
  /-- The conflicts left before the next reduction. -/
  countdown : Nat
  /-- The present gap between reductions. -/
  gap : Nat

namespace Engine

variable {F : List (List Lit)} {e f g : Engine} {id : ClauseId} {conflict : Option Conflict}

/-! ### Updates that leave the counts alone -/

/-- The schedule of an engine. -/
def schedule (e : Engine) : Schedule where
  opts := e.opts
  conflicts := e.stats.conflicts
  reductions := e.stats.reductions
  countdown := e.policy.conflictsBeforeReduction
  gap := e.policy.reductionGap

/-- The counts are the same, and so is what the last simplification noted. -/
def SameCounts (e f : Engine) : Prop :=
  f.levelCounter = e.levelCounter ∧ f.schedule = e.schedule ∧ f.ok = e.ok ∧
    f.simplifiedAt = e.simplifiedAt

/-- The other fields may change, and so may the numbers that are not of conflicts or reductions. -/
theorem sameCounts_update {trail : Trail} {branching : Branching} {watches : Watches} {arena : ClauseArena}
    {originals learnts : Array ClauseId} {recentLearnts : Nat} {stats : Statistics} {tally : Tally}
    {lbdCounts : DenseMap Nat Nat} {clauseIncrement : Float} {numVars : Nat} {seen : DenseMap Var Seen}
    (conflicts : stats.conflicts = e.stats.conflicts) (reductions : stats.reductions = e.stats.reductions) :
    e.SameCounts
      { e with
        trail, branching, watches, arena, originals, learnts, recentLearnts, stats, tally, lbdCounts,
        clauseIncrement, numVars, seen } := by
  refine ⟨rfl, ?_, rfl, rfl⟩
  simp only [schedule, conflicts, reductions]

/-- The counter of levels counts on, no reduction is counted, and a contradiction is not forgotten. -/
structure Unreduced (e f : Engine) : Prop where
  current : e.levelCounter.Current → f.levelCounter.Current
  reductions : f.stats.reductions = e.stats.reductions
  ok : f.ok = true → e.ok = true
  simplifiedAt : f.simplifiedAt = e.simplifiedAt

/-- Neither a conflict nor a reduction is counted, and the next reduction is due as before. -/
structure Uncounted (e f : Engine) : Prop where
  current : e.levelCounter.Current → f.levelCounter.Current
  schedule : f.schedule = e.schedule
  ok : f.ok = true → e.ok = true

/-- Nothing is counted, and no simplification is noted. -/
structure Uneventful (e f : Engine) : Prop extends e.Uncounted f where
  simplifiedAt : f.simplifiedAt = e.simplifiedAt

theorem Uncounted.refl (e : Engine) : e.Uncounted e := ⟨id, rfl, id⟩

theorem Uncounted.trans (h : e.Uncounted f) (k : f.Uncounted g) : e.Uncounted g :=
  ⟨fun old => k.current (h.current old), k.schedule.trans h.schedule, fun ok => h.ok (k.ok ok)⟩

theorem Uncounted.reductions (h : e.Uncounted f) : f.stats.reductions = e.stats.reductions :=
  congrArg Schedule.reductions h.schedule

namespace Uneventful

theorem refl (e : Engine) : e.Uneventful e := ⟨.refl e, rfl⟩

theorem trans (h : e.Uneventful f) (k : f.Uneventful g) : e.Uneventful g :=
  ⟨h.toUncounted.trans k.toUncounted, k.simplifiedAt.trans h.simplifiedAt⟩

theorem unreduced (h : e.Uneventful f) : e.Unreduced f :=
  ⟨h.current, h.toUncounted.reductions, h.ok, h.simplifiedAt⟩

theorem of_eq (same : e.SameCounts f) : e.Uneventful f :=
  ⟨⟨fun old => same.1 ▸ old, same.2.1, fun ok => same.2.2.1 ▸ ok⟩, same.2.2.2⟩

/-- What goes before leaves the counts alone. -/
theorem after (k : f.Uneventful g) (same : e.SameCounts f) : e.Uneventful g := (of_eq same).trans k

/-- What comes afterwards leaves the counts alone. -/
theorem andThen (h : e.Uneventful f) (same : f.SameCounts g) : e.Uneventful g := h.trans (of_eq same)

/-- What goes before and what comes afterwards leave the counts alone. -/
theorem within {b : Engine} (h : e.Uneventful f) (before : b.SameCounts e) (after : f.SameCounts g) :
    b.Uneventful g := ((of_eq before).trans h).trans (of_eq after)

/-- A contradiction may be noted. -/
theorem refute (h : e.Uneventful f) : e.Uneventful f.refute := ⟨⟨h.current, h.schedule, nofun⟩, h.simplifiedAt⟩

/-- Uneventful steps make an uneventful run. -/
theorem foldl {α β : Type} {step : β → α → β} (engine : β → Engine)
    (each : ∀ b a, (engine b).Uneventful (engine (step b a))) (l : List α) (b : β) :
    (engine b).Uneventful (engine (l.foldl step b)) := by
  induction l generalizing b with
  | nil => exact .refl _
  | cons a l ih => exact (each b a).trans (ih (step b a))

end Uneventful

theorem countLevels_spec (h : e.levelCounter.Current) (lits : List Lit) :
    (e.countLevels lits).2 = (lits.map fun l => e.trail.levelOf l.var).toFinset.card :=
  (LevelCounter.count_spec h _).2

theorem uneventful_countLevels (e : Engine) (lits : List Lit) : e.Uneventful (e.countLevels lits).1 :=
  ⟨⟨fun h => (LevelCounter.count_spec h _).1, rfl, id⟩, rfl⟩

/-! ### Operations on clauses -/

theorem uneventful_bumpClause (e : Engine) (id : ClauseId) : e.Uneventful (e.bumpClause id) := by
  refine .of_eq ?_
  unfold bumpClause
  dsimp only
  split <;> exact sameCounts_update rfl rfl

theorem uneventful_bumpIfLearnt (e : Engine) (id : ClauseId) : e.Uneventful (e.bumpIfLearnt id) := by
  unfold bumpIfLearnt
  split
  · exact uneventful_bumpClause e id
  · exact .of_eq (sameCounts_update rfl rfl)

theorem uneventful_addBinary (e : Engine) (a b : Lit) (learnt : Bool) :
    e.Uneventful (e.addBinary a b learnt) := by
  obtain ⟨tally, same⟩ := e.addBinary_eq a b learnt
  rw [same]
  exact .of_eq (sameCounts_update rfl rfl)

theorem uneventful_removeClause (e : Engine) (id : ClauseId) : e.Uneventful (e.removeClause id) := by
  obtain ⟨tally, lbdCounts, space, same⟩ := e.removeClause_eq id
  rw [same]
  exact .of_eq (sameCounts_update rfl rfl)

theorem uneventful_cancelTo (e : Engine) (level : Nat) : e.Uneventful (e.cancelTo level) := by
  unfold cancelTo
  split <;> exact .of_eq (sameCounts_update rfl rfl)

theorem uneventful_storeOriginal {lits : Array Lit} (result : e.storeOriginal lits = .ok f) :
    e.Uneventful f := by
  obtain ⟨id, arena, -, rfl⟩ := storeOriginal_eq result
  exact .of_eq (sameCounts_update rfl rfl)

theorem uneventful_storeLearnt {lits : Array Lit} {lbd : Nat}
    (result : e.storeLearnt lits lbd = .ok (id, f)) : e.Uneventful f := by
  obtain ⟨arena, -, rfl⟩ := storeLearnt_eq result
  exact (uneventful_bumpClause _ _).after (sameCounts_update rfl rfl)

/-! ### Propagation -/

theorem uneventful_refreshLbd (e : Engine) (id : ClauseId) : e.Uneventful (e.refreshLbd id) := by
  unfold refreshLbd
  dsimp only
  split
  · exact .of_eq (sameCounts_update rfl rfl)
  · have counted := uneventful_countLevels e (e.clause id).lits.toList
    split
    · exact counted.andThen (sameCounts_update rfl rfl)
    · exact counted

theorem VisitEffect.uneventful (effect : VisitEffect e f) : e.Uneventful f := by
  cases effect with
  | assign | orient | swap | watch => exact .of_eq (sameCounts_update rfl rfl)
  | thaw id =>
    dsimp only [thawFalsified, modifyStats, modifyTally, attach, modifyWatches, modifyClause]
    exact .of_eq (sameCounts_update rfl rfl)
  | refresh id => exact uneventful_refreshLbd e id

theorem uneventful_propagateFrom {n : Nat} (result : propagateFrom n e = (f, conflict)) :
    e.Uneventful f := by
  have effects := propagateFrom_effects result
  clear result
  induction effects with
  | refl => exact .refl e
  | tail _ effect ih =>
    refine ih.trans ?_
    cases effect with
    | visit effect => exact effect.uneventful
    | queue _ _ same =>
      obtain ⟨n, rfl⟩ := same
      exact .of_eq (sameCounts_update rfl rfl)

theorem uneventful_addFact (e : Engine) (l : Lit) : e.Uneventful (e.addFact l) := by
  unfold addFact
  rcases run : (e.assign l .decision).propagate with ⟨f, _ | c⟩
  · exact (uneventful_propagateFrom run).after (sameCounts_update rfl rfl)
  · exact ((uneventful_propagateFrom run).after (sameCounts_update rfl rfl)).refute

/-! ### Conflict analysis -/

theorem uneventful_effects (effects : Resolution.Effects e f) : e.Uneventful f := by
  induction effects with
  | refl => exact .refl e
  | tail _ effect ih =>
    refine ih.trans ?_
    cases effect with
    | mark | meet => exact .of_eq (sameCounts_update rfl rfl)
    | cite id => exact uneventful_bumpIfLearnt _ id

/-- The level count of a learnt clause is right. -/
theorem analyze_counts {c : Conflict} {learnt : Learnt} (result : e.analyze c = .ok (f, learnt)) :
    e.Uneventful f ∧ (e.levelCounter.Current →
      learnt.lbd = (learnt.lits.toList.map fun l => f.trail.levelOf l.var).toFinset.card) := by
  obtain ⟨u, g, effects, ⟨seen, before, after, same⟩, rfl, lbd⟩ := analyze_effects result
  have resolved := uneventful_effects effects
  have marked : u.Uneventful g := by
    rw [same]
    exact .of_eq (sameCounts_update rfl rfl)
  have staged := resolved.trans marked
  refine ⟨staged.trans (uneventful_countLevels g _), fun current => ?_⟩
  rw [lbd, countLevels_spec (staged.current current)]
  rfl

theorem uneventful_addLearnt {c : Learnt} (result : e.addLearnt c = .ok f) : e.Uneventful f := by
  cases addLearnt_cases result with
  | empty => exact .refl e
  | unit => exact .of_eq (sameCounts_update rfl rfl)
  | pair => exact .of_eq (sameCounts_update rfl rfl)
  | stored _ stored => exact (uneventful_storeLearnt stored).andThen (sameCounts_update rfl rfl)

theorem schedule_noteConflict (e : Engine) (lbd size : Nat) :
    (e.noteConflict lbd size).schedule =
      { e.schedule with countdown := e.schedule.countdown - 1 } := by
  obtain ⟨policy, stats, noted, due, gap⟩ := e.noteConflict_eq lbd size
  have counts : (e.noteConflict lbd size).stats.conflicts = e.stats.conflicts ∧
      (e.noteConflict lbd size).stats.reductions = e.stats.reductions := by
    unfold noteConflict
    dsimp only
    split <;> exact ⟨rfl, rfl⟩
  rw [noted] at counts ⊢
  obtain ⟨conflicts, reductions⟩ : stats.conflicts = e.stats.conflicts ∧
    stats.reductions = e.stats.reductions := counts
  simp only [schedule, conflicts, reductions, due, gap]

/-- Learning from a conflict brings the next reduction closer, unless the clause does not fit. -/
theorem handleConflict_counts {c : Conflict} {handled : Handled}
    (result : e.handleConflict c = .ok (handled, f)) : e.Unreduced f ∧
      (f.schedule = e.schedule ∨
        f.schedule = { e.schedule with countdown := e.schedule.countdown - 1 }) := by
  have back {a : Engine} {d : Learnt} (analyzed : e.analyze c = .ok (a, d)) :
      e.Uneventful (a.cancelTo d.level) :=
    (analyze_counts analyzed).1.trans (uneventful_cancelTo a d.level)
  cases handleConflict_cases result with
  | full analyzed => exact ⟨(back analyzed).unreduced, .inl (back analyzed).schedule⟩
  | @learnt a b d analyzed added =>
    have aged : e.Uneventful b.decayActivities :=
      ((back analyzed).trans (uneventful_addLearnt added)).andThen
        (sameCounts_update rfl rfl)
    have noted := schedule_noteConflict b.decayActivities d.lbd e.trail.size
    refine ⟨⟨?_, (congrArg Schedule.reductions noted).trans aged.reductions, ?_, ?_⟩,
      .inr (noted.trans (by rw [aged.schedule]))⟩
    all_goals
      obtain ⟨policy, stats, same, -⟩ := b.decayActivities.noteConflict_eq d.lbd e.trail.size
      rw [same]
    · exact aged.current
    · exact aged.ok
    · exact aged.simplifiedAt

/-- Assumptions that are false are explained by the trail alone. -/
theorem uneventful_analyzeFinal {p : Lit} {core : DenseSet Lit} (result : e.analyzeFinal p = (f, core)) :
    e.Uneventful f := by
  unfold analyzeFinal at result
  dsimp only at result
  split at result <;>
  · cases result
    exact .of_eq (sameCounts_update rfl rfl)

/-! ### Upkeep of clauses -/

theorem uneventful_simplifyClause {outcome : Simplified}
    (result : e.simplifyClause id = (outcome, f)) : e.Uneventful f := by
  cases simplifyClause_cases result with
  | satisfied => exact uneventful_removeClause e id
  | frozen | whole => exact .refl _
  | pair => exact (uneventful_removeClause e id).trans (uneventful_addBinary _ _ _ _)
  | shorter => exact .of_eq (sameCounts_update rfl rfl)

theorem SimplifyEffects.uneventful (effects : SimplifyEffects e f) : e.Uneventful f := by
  induction effects with
  | refl => exact .refl e
  | tail _ effect ih =>
    refine ih.trans ?_
    cases effect with
    | clause => exact uneventful_simplifyClause rfl
    | relist _ _ _ _ same => exact .of_eq (sameCounts_update same.1 same.2)

theorem uneventful_reduceClause (half median : Nat) (deviation : Float) (r : ReductionState)
    (entry : ClauseId × Nat) :
    r.engine.Uneventful (reduceClause half median deviation r entry).engine := by
  unfold reduceClause
  dsimp only
  split
  · exact (uneventful_removeClause r.engine entry.1).andThen (sameCounts_update rfl rfl)
  · split <;> exact .of_eq (sameCounts_update rfl rfl)
  · exact .of_eq (sameCounts_update rfl rfl)

theorem uneventful_thawClause (e : Engine) (id : ClauseId) : e.Uneventful (e.thawClause id) := by
  generalize result : e.thawClause id = f
  cases thawClause_cases result with
  | unit | attached => exact .of_eq (sameCounts_update rfl rfl)

theorem uneventful_rewatchFrozen (e : Engine) : e.Uneventful e.rewatchFrozen := by
  have watched (e : Engine) (id : ClauseId) : e.Uneventful (e.watchFrozen id) := by
    unfold watchFrozen
    dsimp only
    split <;> exact .of_eq (sameCounts_update rfl rfl)
  unfold rewatchFrozen
  rw [← Array.foldl_toList]
  exact (Uneventful.foldl (fun e => e) watched e.learnts.toList _).after (sameCounts_update rfl rfl)

/-- Until the policy takes note of it, a reduction changes no count but its own. -/
theorem uneventful_awakened (e : Engine) : e.appraised.2.Uneventful e.awakened.rewatchFrozen := by
  have judged := Uneventful.foldl ReductionState.engine
    (uneventful_reduceClause (e.ranked.length / 2) e.lbdMedian e.appraised.1) e.ranked.zipIdx
    { engine := e.appraised.2 }
  have survived : e.judged.engine.Uneventful
      (e.survived.modifyWatches (·.cleanAll e.survived.arena)) :=
    .of_eq (sameCounts_update rfl rfl)
  have thawed := Uneventful.foldl (fun e => e) uneventful_thawClause e.judged.thawing.toList
    (e.survived.modifyWatches (·.cleanAll e.survived.arena))
  rw [Array.foldl_toList] at thawed
  exact ((judged.trans survived).trans thawed).trans (uneventful_rewatchFrozen _)

/-- A reduction counts itself, and the next one is due after a longer gap. -/
theorem reduce_counts (e : Engine) :
    (e.levelCounter.Current → e.reduce.levelCounter.Current) ∧
      e.reduce.simplifiedAt = e.simplifiedAt ∧ e.reduce.schedule =
        { e.schedule with
          reductions := e.schedule.reductions + 1
          countdown := e.schedule.gap + e.opts.reduceIncrement
          gap := e.schedule.gap + e.opts.reduceIncrement } := by
  have calm := uneventful_awakened e
  have paced := paced_deviation e.policy e.branching.movedPhases e.branching.assignedInEpoch
  have start : e.appraised.2.schedule =
      { e.schedule with reductions := e.schedule.reductions + 1 } := by
    unfold appraised phaseDeviation
    simp only [schedule, modifyStats, paced.due, paced.gap]
  have counted := calm.schedule.trans start
  have current : e.levelCounter.Current → e.awakened.rewatchFrozen.levelCounter.Current :=
    calm.current
  have noted : e.awakened.rewatchFrozen.simplifiedAt = e.simplifiedAt := calm.simplifiedAt
  rw [reduce_eq]
  generalize e.awakened.rewatchFrozen = f at current noted counted
  simp only [schedule, Schedule.mk.injEq] at counted
  obtain ⟨opts, conflicts, reductions, -, gap⟩ := counted
  refine ⟨current, noted, ?_⟩
  simp only [schedule, Policy.noteReduction, opts, conflicts, reductions, gap]

theorem uneventful_probe {rest : List Lit} {kept kept' : Array Lit} (result : probe rest kept e = (kept', f)) :
    e.Uneventful f := by
  induction rest generalizing kept e with
  | nil =>
    cases result
    exact .of_eq (sameCounts_update rfl rfl)
  | cons l rest ih =>
    unfold probe at result
    split at result
    · cases result
      exact .of_eq (sameCounts_update rfl rfl)
    · exact ih result
    · rcases run : (e.decide l.neg).propagate with ⟨g, _ | c⟩ <;> rw [run] at result
      · exact ((uneventful_propagateFrom run).trans (ih result)).after (sameCounts_update rfl rfl)
      · cases result
        exact (uneventful_propagateFrom run).after (sameCounts_update rfl rfl)

theorem uneventful_shorten {lits : Array Lit} {stays : Bool} (result : e.shorten id lits = (stays, f)) :
    e.Uneventful f := by
  unfold shorten at result
  dsimp only at result
  split at result <;> cases result
  · refine Uneventful.refute (.of_eq ?_)
    exact sameCounts_update rfl rfl
  · exact ((uneventful_removeClause _ id).trans (uneventful_addFact _ _)).after (sameCounts_update rfl rfl)
  · exact ((uneventful_removeClause _ id).trans (uneventful_addBinary _ _ _ _)).after (sameCounts_update rfl rfl)
  · exact .of_eq (sameCounts_update rfl rfl)

theorem uneventful_probeClause {lits : Array Lit} (result : e.probeClause id = (lits, f)) :
    e.Uneventful f := by
  unfold probeClause at result
  dsimp only at result
  rcases run : probe (e.clause id).lits.toList #[] (e.detachNow id) with ⟨kept, g⟩
  rw [run] at result
  cases result
  exact ((uneventful_probe run).trans (uneventful_cancelTo g 0)).after (sameCounts_update rfl rfl)

theorem uneventful_vivifyClause (minSize : Nat) (s : VivifyState) (id : ClauseId) :
    s.engine.Uneventful (vivifyClause minSize s id).engine := by
  unfold vivifyClause
  dsimp only
  split
  · exact .refl _
  · split
    · exact (uneventful_removeClause s.engine id).andThen (sameCounts_update rfl rfl)
    · rcases probed : s.engine.probeClause id with ⟨lits, f⟩
      have first := uneventful_probeClause probed
      dsimp only
      split
      · rcases shortened : f.shorten id lits with ⟨stays, g⟩
        exact first.trans (uneventful_shorten shortened)
      · exact first.andThen (sameCounts_update rfl rfl)

theorem uneventful_vivifyAll (e : Engine) (minSize : Nat) : e.Uneventful (e.vivifyAll minSize) := by
  unfold vivifyAll
  dsimp only
  rw [← Array.foldl_toList]
  exact (Uneventful.foldl VivifyState.engine (uneventful_vivifyClause (max minSize 3)) e.originals.toList
    { engine := e }).andThen (sameCounts_update rfl rfl)

theorem uneventful_compact {F : List (List Lit)} (settled : e.Settled F) (result : e.compact = .ok f) :
    e.Uneventful f := by
  obtain ⟨ids, b, reasons, -, -, -, rfl⟩ := settled.compact_eq result
  exact .of_eq (sameCounts_update rfl rfl)

theorem uneventful_addNormalized {lits : List Lit} (result : Solver.addNormalized e lits = .ok f) :
    e.Uneventful f := by
  cases added_of_addNormalized result with
  | empty => exact (Uneventful.refl e).refute
  | fact => exact uneventful_addFact e _
  | pair => exact uneventful_addBinary e _ _ false
  | long size stored => exact uneventful_storeOriginal stored

end Engine

end Cdcl
