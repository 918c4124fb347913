import Cdcl.Proofs.Reduced
import Cdcl.Proofs.Simplified
import Cdcl.Proofs.TwinClauses

/-!
# Upkeep of twins

Simplification and reduction go through the clauses in the order in which they are listed or ranked,
which twins share, and decide about each by what its handle reads.

## Main results

- `Twins.simplify`: twins stay twins when they are simplified, and it ends alike.
- `Twins.reduce`: twins stay twins when their learnt clauses are reduced.
-/

namespace Cdcl

variable {M : ClauseId → ClauseId → Prop}

/-! ### Numbered and sorted lists -/

theorem forall₂_zipIdx {α : Type} {R : α → α → Prop} {xs ys : List α} (h : List.Forall₂ R xs ys)
    (n : Nat) :
    List.Forall₂ (fun x y => R x.1 y.1 ∧ y.2 = x.2) (xs.zipIdx n) (ys.zipIdx n) := by
  induction h generalizing n with
  | nil => exact .nil
  | cons head _ ih => exact .cons ⟨head, rfl⟩ (ih (n + 1))

section Sorting

variable {α : Type} {R : α → α → Prop} {le le' : α → α → Bool}
  (agree : ∀ x y x' y', R x y → R x' y' → le' y y' = le x x')

include agree

theorem forall₂_mergeLists {xs ys : List α} (h : List.Forall₂ R xs ys) {us vs : List α}
    (k : List.Forall₂ R us vs) : List.Forall₂ R (mergeLists le xs us) (mergeLists le' ys vs) := by
  induction h generalizing us vs with
  | nil => exact k
  | @cons x y xs ys head tail ih =>
    unfold mergeLists
    induction k with
    | nil => exact .cons head tail
    | @cons u v us vs first rest inner =>
      unfold mergeCons
      rw [agree _ _ _ _ head first]
      split
      · exact .cons head (ih (.cons first rest))
      · exact .cons first inner

/-- Lists that correspond are sorted alike. -/
theorem forall₂_sortBy {xs ys : List α} (h : List.Forall₂ R xs ys) :
    List.Forall₂ R (sortBy le xs) (sortBy le' ys) := by
  unfold sortBy
  rw [← h.length_eq]
  generalize xs.length = n
  induction n generalizing xs ys with
  | zero => exact h
  | succ n ih =>
    unfold sortUpTo
    dsimp only
    rw [← h.length_eq]
    split
    · exact h
    · exact forall₂_mergeLists agree (ih (List.forall₂_take _ h)) (ih (List.forall₂_drop _ h))

end Sorting

namespace Engine

variable {F F' : List (List Lit)} {e f e' f' : Engine} {a b : ClauseId} {aside : List ClauseId}

/-! ### Simplification -/

namespace Mates

theorem simplifyClause (h : Mates M e f) (pair : M a b) :
    (f.simplifyClause b).1 = (e.simplifyClause a).1 ∧
      Mates M (e.simplifyClause a).2 (f.simplifyClause b).2 := by
  have drop (lits : Array Lit) : dropFalse f.trail lits = dropFalse e.trail lits := by
    unfold dropFalse
    rw [h.trail.isFalse]
  unfold Engine.simplifyClause
  dsimp only
  rw [h.isSatisfied pair, h.clause pair, drop]
  split
  · exact ⟨rfl, h.removeClause pair⟩
  · split
    · exact ⟨rfl, h⟩
    next thawed =>
      split
      · exact ⟨rfl, h⟩
      · split
        · exact ⟨rfl, (h.removeClause pair).addBinary _ _ _⟩
        · dsimp only
          exact ⟨rfl, (h.setLits pair _ _).modifyTally _⟩

end Mates

/-- Simplifications in twin engines that have come equally far. -/
structure SimplifyState.Twins (M : ClauseId → ClauseId → Prop) (s t : SimplifyState) : Prop where
  engine : s.engine.Mates M t.engine
  kept : List.Forall₂ M s.kept.toList t.kept.toList
  recentGone : t.recentGone = s.recentGone

namespace SimplifyState.Twins

variable {s t : SimplifyState}

theorem simplifyLearnt (h : s.Twins M t) (pair : M a b) (firstRecent i : Nat) :
    (Engine.simplifyLearnt firstRecent s (a, i)).Twins M
      (Engine.simplifyLearnt firstRecent t (b, i)) := by
  obtain ⟨same, mates⟩ := h.engine.simplifyClause pair
  unfold Engine.simplifyLearnt
  dsimp only
  rw [same]
  generalize (s.engine.simplifyClause a).1 = outcome
  have counted : Mates M
      (if outcome = .removed then (s.engine.simplifyClause a).2.modifyStats fun s =>
        { s with removedLearnts := s.removedLearnts + 1 } else (s.engine.simplifyClause a).2)
      (if outcome = .removed then (t.engine.simplifyClause b).2.modifyStats fun s =>
        { s with removedLearnts := s.removedLearnts + 1 } else (t.engine.simplifyClause b).2) := by
    split
    · exact mates.modifyStats _ fun _ _ => rfl
    · exact mates
  split
  · exact ⟨counted, forall₂_push h.kept pair, h.recentGone⟩
  · refine ⟨counted, h.kept, ?_⟩
    dsimp only
    rw [h.recentGone]

theorem simplifyOriginal (h : s.Twins M t) (pair : M a b) :
    (Engine.simplifyOriginal s a).Twins M (Engine.simplifyOriginal t b) := by
  obtain ⟨same, mates⟩ := h.engine.simplifyClause pair
  unfold Engine.simplifyOriginal
  dsimp only
  rw [same]
  generalize (s.engine.simplifyClause a).1 = outcome
  split
  · refine ⟨?_, forall₂_push h.kept pair, h.recentGone⟩
    dsimp only
    refine mates.modifyStats _ ?_
    cases outcome <;> exact fun _ _ => rfl
  · refine ⟨?_, h.kept, h.recentGone⟩
    dsimp only
    refine mates.modifyStats _ ?_
    cases outcome <;> exact fun _ _ => rfl

end SimplifyState.Twins

namespace Mates

theorem simplifyAll (h : Mates M e f) : Mates M e.simplifyAll f.simplifyAll := by
  have start {e f : Engine} (h : Mates M e f) :
      SimplifyState.Twins M { engine := e } { engine := f } := ⟨h, .nil, rfl⟩
  have first := List.rel_foldl (P := SimplifyState.Twins M)
    (fun s t twins x y entry => by
      obtain ⟨y, j⟩ := y
      obtain rfl : j = x.2 := entry.2
      exact twins.simplifyLearnt entry.1 (e.learnts.toList.length - e.recentLearnts) x.2)
    (start h) (forall₂_zipIdx h.learnts 0)
  unfold Engine.simplifyAll
  dsimp only
  rw [← h.learnts.length_eq, h.recentLearnts]
  generalize e.learnts.toList.zipIdx.foldl _ _ = s at first ⊢
  generalize f.learnts.toList.zipIdx.foldl _ _ = t at first ⊢
  have listed := first.engine.relist first.engine.originals first.kept
    (congrArg₂ (· - ·) first.engine.recentLearnts first.recentGone)
  have second := List.rel_foldl (P := SimplifyState.Twins M) (R := M)
    (fun s t twins x y pair => twins.simplifyOriginal pair) (start listed) listed.originals
  rw [← Array.foldl_toList, ← Array.foldl_toList]
  generalize s.engine.originals.toList.foldl _ _ = u at second ⊢
  generalize t.engine.originals.toList.foldl _ _ = v at second ⊢
  exact second.engine.relist second.kept second.engine.learnts second.engine.recentLearnts

end Mates

theorem Mates.rebuild (h : Mates M e f) :
    Mates M
      { e with
        branching := e.branching.rebuild (e.vars.filter e.trail.isUnassigned)
        simplifiedAt := some e.trail.size }
      { f with
        branching := f.branching.rebuild (f.vars.filter f.trail.isUnassigned)
        simplifiedAt := some f.trail.size } :=
  { h with
    branching := by
      dsimp only
      rw [h.branching, h.vars, h.trail.isUnassigned]
    simplifiedAt := congrArg some h.trail.size }

theorem Twins.refute (h : Twins M e f) : Twins M e.refute f.refute :=
  { h with ok := rfl }

/-- Twins stay twins when they are simplified, and it ends alike. -/
theorem Twins.simplify (h : Twins M e f) (sound : e.Sound aside) (sound' : f.Sound aside)
    (apart : e.FrozenApart) (apart' : f.FrozenApart) :
    f.simplify.1 = e.simplify.1 ∧ Twins M e.simplify.2 f.simplify.2 := by
  unfold Engine.simplify
  rw [h.ok]
  split
  · exact ⟨rfl, h⟩
  · obtain ⟨twins, found⟩ := h.propagate sound sound' apart apart'
    rcases run : e.propagate with ⟨g, c⟩
    rcases run' : f.propagate with ⟨g', c'⟩
    rw [run, run'] at twins found
    cases found with
    | some _ => exact ⟨rfl, twins.refute⟩
    | none =>
      have twins : Twins M g g' := twins
      dsimp only
      rw [twins.simplifiedAt, twins.trail.size]
      split
      · exact ⟨rfl, twins⟩
      · have simplified := twins.toMates.simplifyAll
        have same := simplified.trail.size
        have kept (x : Engine) : x.FrozenKept
            { x with
              branching := x.branching.rebuild (x.vars.filter x.trail.isUnassigned)
              simplifiedAt := some x.trail.size } :=
          ⟨rfl, Nat.le_refl _, fun _ used => .inl ⟨used, rfl, fun _ _ member => member⟩⟩
        exact ⟨rfl, twins.keep simplified.rebuild id (g.effects_simplifyAll.frozenKept.trans (kept _))
          (g'.effects_simplifyAll.frozenKept.trans (kept _))⟩

/-! ### Reduction -/

namespace Mates

theorem verdict (h : Mates M e f) (pair : M a b) (worseHalf : Bool) (median : Nat) (deviation : Float) :
    f.verdict b worseHalf median deviation = e.verdict a worseHalf median deviation := by
  have agreeing (c : Clause) : f.agreeing c = e.agreeing c := by
    unfold Engine.agreeing
    rw [h.branching]
  have maxFreeze : f.opts.maxFreeze = e.opts.maxFreeze := h.opts_eq _ fun _ _ => rfl
  unfold Engine.verdict
  dsimp only
  rw [h.isLocked pair, h.clause pair, h.trail.satisfies, agreeing, maxFreeze]

theorem freezeClause (h : Mates M e f) (pair : M a b) : Mates M (e.freezeClause a) (f.freezeClause b) := by
  have awake (c : Clause) (attached : (c.setFrozen true).isAttached = true) : c.isAttached = true := by
    obtain ⟨lits, mark, _ | info⟩ := c
    · exact attached
    · simp [Clause.isAttached, Clause.isFrozen, Clause.setFrozen, Clause.modifyLearnt] at attached
  have frozen := (h.detachLater a b).modifyClause pair (·.setFrozen true) fun attached =>
    .inl (awake _ attached)
  exact (frozen.modifyTally fun t => { t with frozen := t.frozen + 1 }).modifyStats
    (fun s => { s with frozen := s.frozen + 1 }) fun _ _ => rfl

theorem thawClause (h : Mates M e f) (pair : M a b) (none : e.Unwatched a) (none' : f.Unwatched b) :
    Mates M (e.thawClause a) (f.thawClause b) := by
  have front (lits : Array Lit) : bringNonFalse f.trail lits = bringNonFalse e.trail lits := by
    unfold bringNonFalse
    simp only [h.trail.findNonFalse]
  unfold Engine.thawClause
  rw [h.clause pair, front]
  generalize bringNonFalse e.trail (e.clause a).lits = r
  obtain ⟨lits, n⟩ := r
  have thawed := h.modifyClause pair (fun c => (c.setLits lits).setFrozen false)
    fun _ => .inr ⟨none, none'⟩
  have thawed := ((thawed.attach pair).modifyTally fun t =>
    { t with frozen := t.frozen - 1 }).modifyStats (fun s => { s with thawed := s.thawed + 1 })
    fun _ _ => rfl
  dsimp only
  rw [thawed.trail.isUnassigned]
  split
  · exact thawed.assign _ (.clause pair)
  · exact thawed

theorem phaseDeviation (h : Mates M e f) :
    f.phaseDeviation.1 = e.phaseDeviation.1 ∧ Mates M e.phaseDeviation.2 f.phaseDeviation.2 := by
  unfold Engine.phaseDeviation
  dsimp only
  rw [h.branching, h.policy]
  exact ⟨rfl, { h with
    branching := rfl
    policy := rfl }⟩

theorem rank (h : Mates M e f) {ids ids' : List ClauseId} (pairs : List.Forall₂ M ids ids') :
    List.Forall₂ M (Engine.rank e.arena ids) (Engine.rank f.arena ids') := by
  refine forall₂_sortBy (fun x y x' y' pair pair' => ?_) pairs
  have same : f.arena.get y = e.arena.get x := h.clause pair
  have same' : f.arena.get y' = e.arena.get x' := h.clause pair'
  unfold ranksBefore
  rw [same, same']

theorem cleanAll (h : Mates M e f) :
    Mates M (e.modifyWatches (·.cleanAll e.arena)) (f.modifyWatches (·.cleanAll f.arena)) :=
  h.cleaned (Watches.cleanAll_cleaned e.watches e.arena) (Watches.cleanAll_cleaned f.watches f.arena)

end Mates

/-- Reductions in twin engines that have come equally far. -/
structure ReductionState.Twins (M : ClauseId → ClauseId → Prop) (r q : ReductionState) : Prop where
  engine : r.engine.Mates M q.engine
  kept : List.Forall₂ M r.kept.toList q.kept.toList
  thawing : List.Forall₂ M r.thawing.toList q.thawing.toList

theorem ReductionState.Twins.step {r q : ReductionState} (h : r.Twins M q) (pair : M a b)
    (half median i : Nat) (deviation : Float) :
    (reduceClause half median deviation r (a, i)).Twins M
      (reduceClause half median deviation q (b, i)) := by
  have mates := h.engine
  unfold reduceClause
  dsimp only
  rw [mates.verdict pair, mates.clause pair]
  cases r.engine.verdict a (half ≤ i) median deviation with
  | remove =>
    exact ⟨(mates.removeClause pair).modifyStats (fun s =>
      { s with removedLearnts := s.removedLearnts + 1 }) fun _ _ => rfl, h.kept, h.thawing⟩
  | freeze =>
    have counted := mates.rearrange pair (fun c => c.setFreezeCount (c.freezeCount + 1))
      fun c => (c.alike_setFreezeCount _).reordered.attached
    refine ⟨?_, forall₂_push h.kept pair, h.thawing⟩
    dsimp only
    split
    · exact counted
    · exact counted.freezeClause pair
  | keep =>
    refine ⟨mates, forall₂_push h.kept pair, ?_⟩
    dsimp only
    split
    · exact forall₂_push h.thawing pair
    · exact h.thawing

theorem Mates.judged (h : Mates M e f) : e.judged.Twins M f.judged := by
  have begun : Mates M
      (({ e with recentLearnts := 0 } : Engine).modifyStats fun s =>
        { s with reductions := s.reductions + 1 })
      (({ f with recentLearnts := 0 } : Engine).modifyStats fun s =>
        { s with reductions := s.reductions + 1 }) :=
    (h.relist h.originals h.learnts rfl).modifyStats _ fun _ _ => rfl
  obtain ⟨deviation, appraised⟩ := begun.phaseDeviation
  have ranked : List.Forall₂ M e.ranked f.ranked := by
    unfold Engine.ranked
    rw [← h.learnts.length_eq, h.recentLearnts]
    exact appraised.rank (List.forall₂_take _ h.learnts)
  have median : f.lbdMedian = e.lbdMedian := by
    unfold Engine.lbdMedian
    rw [h.lbdCounts, h.tally]
  have same : f.appraised.1 = e.appraised.1 := deviation
  unfold Engine.judged
  rw [← ranked.length_eq, median, same]
  exact List.rel_foldl (P := ReductionState.Twins M)
    (fun r q twins x y entry => by
      obtain ⟨y, j⟩ := y
      obtain rfl : j = x.2 := entry.2
      exact twins.step entry.1 (e.ranked.length / 2) e.lbdMedian x.2 e.appraised.1)
    ⟨appraised, .nil, .nil⟩ (forall₂_zipIdx ranked 0)

theorem Mates.survived (h : Mates M e f) : Mates M e.survived f.survived := by
  have judged := h.judged
  unfold Engine.survived
  rw [← h.learnts.length_eq, h.recentLearnts]
  refine judged.engine.relist judged.engine.originals ?_ judged.engine.recentLearnts
  rw [Array.toList_append, Array.toList_append]
  exact List.rel_append judged.kept (List.forall₂_drop _ h.learnts)

theorem Thawable.none {L : Ledger} {m : Nat} {id : ClauseId} {ids : List ClauseId}
    (h : Thawable L m (id :: ids) e) : e.Unwatched id :=
  unwatched_of_entriesOf (h.unwatched id
    (h.loose.listed.learnt id (h.among id List.mem_cons_self)).1 (h.frozen id List.mem_cons_self))

theorem Mates.thawClauses {L L' : Ledger} {m m' : Nat} {ids ids' : List ClauseId}
    (pairs : List.Forall₂ M ids ids') (h : Mates M e f) (ready : Thawable L m ids e)
    (ready' : Thawable L' m' ids' f) :
    Mates M (ids.foldl Engine.thawClause e) (ids'.foldl Engine.thawClause f) := by
  induction pairs generalizing e f with
  | nil => exact h
  | cons pair _ ih => exact ih (h.thawClause pair ready.none ready'.none) ready.step ready'.step

theorem Settled.blank_awakened (h : e.Settled F) (zero : e.trail.level = 0) :
    e.awakened.watches.Blank := by
  obtain ⟨pairs, ready⟩ := h.thawable zero
  unfold awakened
  rw [← Array.foldl_toList]
  exact ready.thawed.1.loose.sound.blank

theorem Mates.awakened (h : Mates M e f) (settled : e.Settled F) (settled' : f.Settled F')
    (zero : e.trail.level = 0) : Mates M e.awakened f.awakened := by
  obtain ⟨pairs, ready⟩ := settled.thawable zero
  obtain ⟨pairs', ready'⟩ := settled'.thawable (h.trail.level.trans zero)
  unfold Engine.awakened
  rw [← Array.foldl_toList, ← Array.foldl_toList]
  exact h.survived.cleanAll.thawClauses h.judged.thawing ready ready'

theorem Mates.clearFrozen (h : Mates M e f) (blank : e.watches.Blank) (blank' : f.watches.Blank) :
    Twins M (e.modifyWatches Watches.clearFrozen) (f.modifyWatches Watches.clearFrozen) where
  toMates := h.watches h.binary h.long
  frozen := by
    intro p
    have cleared {w : Watches} (blank : w.Blank) : w.clearFrozen.frozen.get p = #[] :=
      DenseMap.get_mapValues _ blank.frozen.symm p
    unfold dormant Engine.modifyWatches
    dsimp only
    rw [cleared blank, cleared blank']
    exact .nil

theorem Twins.watchFrozen (h : Twins M e f) (pair : M a b) :
    Twins M (e.watchFrozen a) (f.watchFrozen b) := by
  unfold Engine.watchFrozen
  dsimp only
  rw [h.clause pair, h.trail.findNonFalse]
  split
  · exact h.pushFrozen _ (Watcher.twins pair _)
  · exact h

theorem Mates.rewatchFrozen (h : Mates M e f) (blank : e.watches.Blank) (blank' : f.watches.Blank) :
    Twins M e.rewatchFrozen f.rewatchFrozen := by
  unfold Engine.rewatchFrozen
  rw [← Array.foldl_toList, ← Array.foldl_toList]
  exact List.rel_foldl (P := Twins M) (R := M) (fun x y twins a b pair => twins.watchFrozen pair)
    (h.clearFrozen blank blank') h.learnts

theorem Twins.noteReduction (h : Twins M e f) :
    Twins M { e with policy := e.policy.noteReduction e.opts }
      { f with policy := f.policy.noteReduction f.opts } :=
  { h with
    policy := by
      dsimp only
      rw [h.policy]
      exact h.opts_eq (fun o => e.policy.noteReduction o) fun _ _ => rfl }

/-- Twins stay twins when their learnt clauses are reduced. -/
theorem Twins.reduce (h : Twins M e f) (settled : e.Settled F) (settled' : f.Settled F')
    (zero : e.trail.level = 0) : Twins M e.reduce f.reduce := by
  have rewatched := (h.toMates.awakened settled settled' zero).rewatchFrozen
    (settled.blank_awakened zero) (settled'.blank_awakened (h.trail.level.trans zero))
  rw [reduce_eq, reduce_eq]
  exact rewatched.noteReduction

end Engine

end Cdcl
