import Cdcl.Proofs.PropagationSound

/-!
# Twins

Two engines are twins if they differ in nothing but where their clauses are stored and which
entries of clauses out of use are left in their watch lists. A relation `M` tells which handle of
one stands for which handle of the other; it pairs the clauses in use, and perhaps some that are
removed.

## Main results

- `Mates.modifyClause`, `Mates.assign`, `Mates.attach`: what is done to both alike keeps them twins; a
  clause that goes back to work must have no entries left.
- `Twins.setFrozen`: of the lists of frozen clauses only entries of clauses that are frozen matter.
-/

namespace Cdcl

variable {M N : ClauseId → ClauseId → Prop}

/-! ### Lists -/

theorem forall₂_push {α : Type} {R : α → α → Prop} {xs ys : Array α}
    (h : List.Forall₂ R xs.toList ys.toList) {x y : α} (last : R x y) :
    List.Forall₂ R (xs.push x).toList (ys.push y).toList := by
  rw [Array.toList_push, Array.toList_push]
  exact List.rel_append h (.cons last .nil)

theorem forall₂_filter {α : Type} {R : α → α → Prop} {p q : α → Bool} {xs ys : List α}
    (h : List.Forall₂ R xs ys) (agree : ∀ x y, R x y → p x = q y) :
    List.Forall₂ R (xs.filter p) (ys.filter q) :=
  List.rel_filter (fun x y related => by simp only [agree x y related]) h

/-- Lists that are related on what passes a test are so on what passes a narrower one. -/
theorem forall₂_narrow {α : Type} {R : α → α → Prop} {p p' q q' : α → Bool} {xs ys : List α}
    (h : List.Forall₂ R (xs.filter p) (ys.filter q)) (left : ∀ x ∈ xs, p' x = true → p x = true)
    (right : ∀ y ∈ ys, q' y = true → q y = true) (agree : ∀ x y, R x y → p' x = q' y) :
    List.Forall₂ R (xs.filter p') (ys.filter q') := by
  have again := forall₂_filter h agree
  rw [List.filter_filter, List.filter_filter] at again
  have narrow {p p' : α → Bool} {xs : List α} (le : ∀ x ∈ xs, p' x = true → p x = true) :
      xs.filter (fun x => p' x && p x) = xs.filter p' :=
    List.filter_congr fun x inside => by
      cases passes : p' x with
      | false => rfl
      | true => exact le x inside passes
  rwa [narrow left, narrow right] at again

/-! ### Twin trails -/

/-- Reasons that are the same, but for the handles of clauses. -/
inductive Reason.Twins (M : ClauseId → ClauseId → Prop) : Reason → Reason → Prop where
  | decision : Twins M .decision .decision
  | binary (other : Lit) : Twins M (.binary other) (.binary other)
  | clause {a b : ClauseId} (pair : M a b) : Twins M (.clause a) (.clause b)

namespace Trail

/-- Trails that differ in nothing but reasons. -/
structure Twins (t u : Trail) : Prop where
  lits : u.lits = t.lits
  marks : u.marks = t.marks
  head : u.head = t.head
  values : u.values = t.values
  levels : u.levels = t.levels

namespace Twins

variable {t u : Trail}

theorem size (h : t.Twins u) : u.size = t.size := by rw [Trail.size, h.lits, Trail.size]

theorem level (h : t.Twins u) : u.level = t.level := by rw [Trail.level, h.marks, Trail.level]

theorem isPropagated (h : t.Twins u) : u.isPropagated = t.isPropagated := by
  rw [Trail.isPropagated, h.head, h.lits, Trail.isPropagated]

theorem value (h : t.Twins u) : u.value = t.value := by
  funext v
  rw [Trail.value, h.values, Trail.value]

theorem valueLit (h : t.Twins u) : u.valueLit = t.valueLit := by
  funext l
  rw [Trail.valueLit, h.value, Trail.valueLit]

theorem isTrue (h : t.Twins u) : u.isTrue = t.isTrue := by
  funext l
  rw [Trail.isTrue, h.valueLit, Trail.isTrue]

theorem isFalse (h : t.Twins u) : u.isFalse = t.isFalse := by
  funext l
  rw [Trail.isFalse, h.valueLit, Trail.isFalse]

theorem isUnassigned (h : t.Twins u) : u.isUnassigned = t.isUnassigned := by
  funext v
  rw [Trail.isUnassigned, h.value, Trail.isUnassigned]

theorem levelOf (h : t.Twins u) : u.levelOf = t.levelOf := by
  funext v
  rw [Trail.levelOf, h.levels, Trail.levelOf]

theorem facts (h : t.Twins u) : u.facts = t.facts := by
  rw [Trail.facts, h.marks, h.lits, Trail.facts]

theorem factValue (h : t.Twins u) : u.factValue = t.factValue := by
  funext l
  rw [Trail.factValue, h.valueLit, h.levelOf, Trail.factValue]

theorem satisfies (h : t.Twins u) : u.satisfies = t.satisfies := by
  funext lits
  rw [Trail.satisfies, h.isTrue, Trail.satisfies]

theorem startAbove (h : t.Twins u) : u.startAbove = t.startAbove := by
  funext level
  rw [Trail.startAbove, h.marks, h.lits, Trail.startAbove]

theorem above (h : t.Twins u) : u.above = t.above := by
  funext level
  rw [Trail.above, h.lits, h.startAbove, Trail.above]

theorem findNonFalse (h : t.Twins u) (lits : Array Lit) (start n : Nat) :
    u.findNonFalse lits start n = t.findNonFalse lits start n := by
  induction n generalizing start with
  | zero => rfl
  | succ n ih => rw [Trail.findNonFalse, h.isFalse, ih, Trail.findNonFalse]

theorem highestFrom (h : t.Twins u) (lits : Array Lit) (best k n : Nat) :
    u.highestFrom lits best k n = t.highestFrom lits best k n := by
  induction n generalizing best k with
  | zero => rfl
  | succ n ih => rw [Trail.highestFrom, h.levelOf, ih, Trail.highestFrom]

theorem bringHighest (h : t.Twins u) (i : Nat) (lits : Array Lit) :
    u.bringHighest i lits = t.bringHighest i lits := by
  rw [Trail.bringHighest, h.highestFrom, Trail.bringHighest]

theorem openLevel (h : t.Twins u) : t.openLevel.Twins u.openLevel :=
  { h with
    marks := by
      rw [Trail.openLevel, Trail.openLevel, h.marks, h.lits] }

theorem assign (h : t.Twins u) (l : Lit) (why why' : Reason) :
    (t.assign l why).Twins (u.assign l why') where
  lits := by rw [Trail.assign, Trail.assign, h.lits]
  marks := h.marks
  head := h.head
  values := by rw [Trail.assign, Trail.assign, h.values]
  levels := by rw [Trail.assign, Trail.assign, h.levels, h.marks]

theorem cancelTo (h : t.Twins u) (level : Nat) : (t.cancelTo level).Twins (u.cancelTo level) where
  lits := by rw [Trail.cancelTo, Trail.cancelTo, h.lits, h.startAbove]
  marks := by rw [Trail.cancelTo, Trail.cancelTo, h.marks]
  head := by rw [Trail.cancelTo, Trail.cancelTo, h.startAbove]
  values := by rw [Trail.cancelTo, Trail.cancelTo, h.values, h.above]
  levels := h.levels

theorem forgetReason (h : t.Twins u) (v : Var) : (t.forgetReason v).Twins (u.forgetReason v) :=
  { h with levels := by rw [Trail.forgetReason, Trail.forgetReason, h.levels] }

end Twins

end Trail

/-! ### Twin engines -/

/-- Entries of clauses that stand for each other, with the same blocker. -/
structure Watcher.Twins (M : ClauseId → ClauseId → Prop) (x y : Watcher) : Prop where
  pair : M x.clause y.clause
  blocker : y.blocker = x.blocker

theorem Watcher.twins {a b : ClauseId} (pair : M a b) (blocker : Lit) :
    Watcher.Twins M ⟨a, blocker⟩ ⟨b, blocker⟩ := ⟨pair, rfl⟩

/-- The clauses that a frozen entry is to wake. -/
def Clause.isDormant (c : Clause) : Bool := !c.isRemoved && c.isFrozen

namespace Engine

variable {e f e' f' : Engine} {a b : ClauseId} {p : Lit}

/-- The entries of a list that are of clauses that take part in propagation. -/
def working (e : Engine) (p : Lit) : List Watcher :=
  (e.watches.long.get p).toList.filter fun w => (e.clause w.clause).isAttached

/-- The entries of a list that are of frozen clauses. -/
def dormant (e : Engine) (p : Lit) : List Watcher :=
  (e.watches.frozen.get p).toList.filter fun w => (e.clause w.clause).isDormant

/-- The handles that stand for each other read the same. -/
structure Paired (M : ClauseId → ClauseId → Prop) (e f : Engine) : Prop where
  left : ∀ {a b b'}, M a b → M a b' → b = b'
  right : ∀ {a a' b}, M a b → M a' b → a = a'
  slots : ∀ {a b}, M a b → a.slot < e.arena.clauses.size ∧ b.slot < f.arena.clauses.size
  clauses : ∀ {a b}, M a b → f.clause b = e.clause a

/-- Twins as far as frozen entries do not matter. -/
structure Mates (M : ClauseId → ClauseId → Prop) (e f : Engine) : Prop extends Paired M e f where
  opts : f.opts = { e.opts with garbageFraction := f.opts.garbageFraction }
  trail : e.trail.Twins f.trail
  reasons : ∀ v, e.trail.value v ≠ .undecided → Reason.Twins M (e.trail.reason v) (f.trail.reason v)
  originals : List.Forall₂ M e.originals.toList f.originals.toList
  learnts : List.Forall₂ M e.learnts.toList f.learnts.toList
  long : ∀ p, List.Forall₂ (Watcher.Twins M) (e.working p) (f.working p)
  binary : f.watches.binary = e.watches.binary
  branching : f.branching = e.branching
  recentLearnts : f.recentLearnts = e.recentLearnts
  policy : f.policy = e.policy
  stats : f.stats = { e.stats with compactions := f.stats.compactions }
  tally : f.tally = e.tally
  lbdCounts : f.lbdCounts = e.lbdCounts
  clauseIncrement : f.clauseIncrement = e.clauseIncrement
  numVars : f.numVars = e.numVars
  ok : f.ok = e.ok
  seen : f.seen = e.seen
  levelCounter : f.levelCounter = e.levelCounter
  simplifiedAt : f.simplifiedAt = e.simplifiedAt

/-- Engines that differ only in where clauses are stored and in what is left of clauses out of use. -/
structure Twins (M : ClauseId → ClauseId → Prop) (e f : Engine) : Prop extends Mates M e f where
  frozen : ∀ p, List.Forall₂ (Watcher.Twins M) (e.dormant p) (f.dormant p)

/-! ### Clauses and handles -/

namespace Paired

theorem eq_iff (h : Paired M e f) {a a' b b' : ClauseId} (pair : M a b) (pair' : M a' b') :
    a = a' ↔ b = b' := by
  constructor
  · rintro rfl
    exact h.left pair pair'
  · rintro rfl
    exact h.right pair pair'

theorem isAttached (h : Paired M e f) {x y : Watcher} (twins : x.Twins M y) :
    (e.clause x.clause).isAttached = (f.clause y.clause).isAttached := by
  rw [h.clauses twins.pair]

theorem isDormant (h : Paired M e f) {x y : Watcher} (twins : x.Twins M y) :
    (e.clause x.clause).isDormant = (f.clause y.clause).isDormant := by
  rw [h.clauses twins.pair]

/-- The clause of a handle inside the arena changes. -/
theorem get_modifyClause (valid : a.slot < e.arena.clauses.size) (change : Clause → Clause)
    (x : ClauseId) :
    (e.modifyClause a change).clause x = if a = x then change (e.clause x) else e.clause x :=
  ClauseArena.get_modify e.arena a x change valid

/-- Changing both of a pair alike keeps all pairs. -/
theorem modifyClause (h : Paired M e f) (pair : M a b) (change : Clause → Clause) :
    Paired M (e.modifyClause a change) (f.modifyClause b change) where
  left := h.left
  right := h.right
  slots := by
    intro x y other
    simp only [Engine.modifyClause, ClauseArena.modify, Array.size_modify]
    exact h.slots other
  clauses := by
    intro x y other
    rw [get_modifyClause (h.slots pair).1, get_modifyClause (h.slots pair).2, h.clauses other]
    simp only [h.eq_iff pair other]

end Paired

/-! ### What is done to both alike -/

/-- No entry of a list of clauses that propagate is of this clause. -/
def Unwatched (e : Engine) (id : ClauseId) : Prop := ∀ p, ∀ w ∈ e.watches.long.get p, w.clause ≠ id

namespace Mates

theorem opts_eq {α : Type} (h : Mates M e f) (read : Options → α)
    (free : ∀ o x, read { o with garbageFraction := x } = read o) : read f.opts = read e.opts := by
  rw [h.opts, free]

theorem clause (h : Mates M e f) (pair : M a b) : f.clause b = e.clause a := h.clauses pair

theorem vars (h : Mates M e f) : f.vars = e.vars := by rw [Engine.vars, h.numVars, Engine.vars]

theorem modifyStats (h : Mates M e f) (count : Statistics → Statistics)
    (free : ∀ s n, count { s with compactions := n } = { count s with compactions := n }) :
    Mates M (e.modifyStats count) (f.modifyStats count) :=
  { h with
    stats := by
      change count f.stats = { count e.stats with compactions := (count f.stats).compactions }
      rw [h.stats, free] }

theorem modifyTally (h : Mates M e f) (count : Tally → Tally) :
    Mates M (e.modifyTally count) (f.modifyTally count) :=
  { h with tally := congrArg count h.tally }

theorem modifyLbdCounts (h : Mates M e f) (count : DenseMap Nat Nat → DenseMap Nat Nat) :
    Mates M { e with lbdCounts := count e.lbdCounts } { f with lbdCounts := count f.lbdCounts } :=
  { h with lbdCounts := congrArg count h.lbdCounts }

theorem openLevel (h : Mates M e f) : Mates M e.openLevel f.openLevel :=
  { h with trail := h.trail.openLevel }

theorem assign (h : Mates M e f) (l : Lit) {why why' : Reason} (twins : why.Twins M why') :
    Mates M (e.assign l why) (f.assign l why') :=
  { h with
    trail := h.trail.assign l why why'
    reasons := by
      intro v assigned
      simp only [Engine.assign, Trail.reason, Trail.assign, DenseMap.get_insert] at assigned ⊢
      split
      · exact twins
      next other =>
        refine h.reasons v fun unassigned => assigned ?_
        rw [← unassigned, Trail.value, Trail.value, DenseMap.get_insert, if_neg other]
    branching := by
      have saving : f.opts.phaseSaving = e.opts.phaseSaving := h.opts_eq _ fun _ _ => rfl
      simp only [Engine.assign, saving, h.branching] }

theorem decide (h : Mates M e f) (l : Lit) : Mates M (e.decide l) (f.decide l) :=
  h.openLevel.assign l .decision

theorem cancelTo (h : Mates M e f) (level : Nat) : Mates M (e.cancelTo level) (f.cancelTo level) := by
  unfold Engine.cancelTo
  rw [h.trail.level]
  split
  · exact h
  · exact
      { h with
        trail := h.trail.cancelTo level
        reasons := by
          intro v assigned
          refine h.reasons v fun unassigned => assigned ?_
          change (e.trail.cancelTo level).value v = _
          rw [Trail.value_cancelTo, unassigned, ite_self]
        branching := by
          have saving : f.opts.phaseSaving = e.opts.phaseSaving := h.opts_eq _ fun _ _ => rfl
          simp only [saving, h.branching, h.trail.above, h.trail.marks] }

theorem countLevels (h : Mates M e f) (lits : List Lit) :
    (f.countLevels lits).2 = (e.countLevels lits).2 ∧
      Mates M (e.countLevels lits).1 (f.countLevels lits).1 := by
  unfold Engine.countLevels
  rw [h.levelCounter, h.trail.levelOf]
  exact ⟨rfl, { h with levelCounter := rfl }⟩

/-- Changing a clause and its twin alike. If that puts it to work, it had no entries. -/
theorem modifyClause (h : Mates M e f) (pair : M a b) (change : Clause → Clause)
    (wakes : (change (e.clause a)).isAttached = true →
      (e.clause a).isAttached = true ∨ e.Unwatched a ∧ f.Unwatched b) :
    Mates M (e.modifyClause a change) (f.modifyClause b change) :=
  { h with
    toPaired := h.toPaired.modifyClause pair change
    long := by
      intro p
      refine forall₂_narrow (h.long p) (fun w inside attached => ?_) (fun w inside attached => ?_)
        fun x y twins => (h.toPaired.modifyClause pair change).isAttached twins
      · rw [Paired.get_modifyClause (h.slots pair).1] at attached
        split at attached
        next here =>
          rw [← here] at attached ⊢
          exact (wakes attached).resolve_right fun none =>
            none.1 p w (Array.mem_toList_iff.mp inside) here.symm
        next => exact attached
      · rw [Paired.get_modifyClause (h.slots pair).2] at attached
        split at attached
        next here =>
          rw [← here, h.clause pair] at attached ⊢
          exact (wakes attached).resolve_right fun none =>
            none.2 p w (Array.mem_toList_iff.mp inside) here.symm
        next => exact attached }

/-- New lists, related on the entries of clauses that take part in propagation. -/
theorem watches (h : Mates M e f) {change change' : Watches → Watches}
    (binary : (change' f.watches).binary = (change e.watches).binary)
    (long : ∀ p, List.Forall₂ (Watcher.Twins M) ((e.modifyWatches change).working p)
      ((f.modifyWatches change').working p)) :
    Mates M (e.modifyWatches change) (f.modifyWatches change') :=
  { h with binary, long }

theorem pushLong (h : Mates M e f) (key : Lit) {x y : Watcher} (twins : x.Twins M y) :
    Mates M (e.modifyWatches (·.pushLong key x)) (f.modifyWatches (·.pushLong key y)) := by
  refine h.watches h.binary fun p => ?_
  have long := h.long p
  simp only [working, Engine.modifyWatches, Watches.pushLong, DenseMap.get_modify] at long ⊢
  split
  · rw [Array.toList_push, Array.toList_push, List.filter_append, List.filter_append]
    exact List.rel_append long (forall₂_filter (.cons twins .nil) fun _ _ => h.isAttached)
  · exact long

theorem setLong (h : Mates M e f) (key : Lit) {xs ys : Array Watcher}
    (twins : List.Forall₂ (Watcher.Twins M) xs.toList ys.toList) :
    Mates M (e.modifyWatches (·.setLong key xs)) (f.modifyWatches (·.setLong key ys)) := by
  refine h.watches h.binary fun p => ?_
  have long := h.long p
  simp only [working, Engine.modifyWatches, Watches.setLong, DenseMap.get_insert] at long ⊢
  split
  · exact forall₂_filter twins fun _ _ => h.isAttached
  · exact long

/-- Cleaning drops no entry of a clause that takes part in propagation. -/
theorem working_cleaned {clean : Watches → Watches}
    (cleaned : Watches.Cleaned e.arena e.watches (clean e.watches)) (p : Lit) :
    (e.modifyWatches clean).working p = e.working p := by
  have working (ws : Array Watcher) : ws.toList.filter (fun w => (e.clause w.clause).isAttached) =
      (ws.filter (!Watches.isStale e.arena ·)).toList := by
    rw [Array.toList_filter]
    refine List.filter_congr fun w _ => ?_
    rw [Bool.eq_iff_iff, Watches.not_isStale_iff]
    rfl
  exact (working _).trans ((congrArg Array.toList (cleaned.fresh p)).trans (working _).symm)

/-- Only what is left of clauses out of use is cleaned away. -/
theorem cleaned (h : Mates M e f) {clean clean' : Watches → Watches}
    (cleaned : Watches.Cleaned e.arena e.watches (clean e.watches))
    (cleaned' : Watches.Cleaned f.arena f.watches (clean' f.watches)) :
    Mates M (e.modifyWatches clean) (f.modifyWatches clean') :=
  h.watches (by rw [cleaned.binary, cleaned'.binary, h.binary]) fun p => by
    rw [working_cleaned cleaned, working_cleaned cleaned']
    exact h.long p

theorem addBinary (h : Mates M e f) (l m : Lit) (learnt : Bool) :
    Mates M (e.addBinary l m learnt) (f.addBinary l m learnt) := by
  have added : Mates M (e.modifyWatches (·.addBinary l m)) (f.modifyWatches (·.addBinary l m)) :=
    h.watches (by simp only [Watches.addBinary, h.binary]) h.long
  unfold Engine.addBinary
  cases learnt <;> simp only [if_true, Bool.false_eq_true, if_false] <;> exact added.modifyTally _

theorem attach (h : Mates M e f) (pair : M a b) : Mates M (e.attach a) (f.attach b) := by
  unfold Engine.attach
  simp only [h.clause pair]
  exact (h.pushLong _ (Watcher.twins pair _)).pushLong _ (Watcher.twins pair _)

end Mates

/-! ### Entries of frozen clauses -/

namespace Twins

theorem pushFrozen (h : Twins M e f) (key : Lit) {x y : Watcher} (twins : x.Twins M y) :
    Twins M (e.modifyWatches (·.pushFrozen key x)) (f.modifyWatches (·.pushFrozen key y)) where
  toMates := h.toMates.watches h.binary h.long
  frozen := by
    intro p
    have frozen := h.frozen p
    simp only [dormant, Engine.modifyWatches, Watches.pushFrozen, DenseMap.get_modify] at frozen ⊢
    split
    · rw [Array.toList_push, Array.toList_push, List.filter_append, List.filter_append]
      exact List.rel_append frozen (forall₂_filter (.cons twins .nil) fun _ _ => h.isDormant)
    · exact frozen

end Twins

end Engine

end Cdcl
