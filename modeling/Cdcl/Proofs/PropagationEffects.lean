import Mathlib.Logic.Relation
import Cdcl.Proofs.TrailCoherence
import Cdcl.Search.Propagation

/-!
# What propagation does to an engine

Propagation takes one literal after another from the queue, and for each it goes through three lists.
Here its runs are laid out as data to reason over, and its effects on an engine are told apart.

## Main results

- `propagates`: a run of propagation, literal by literal.
- `propagateLit_cases`: the lists that are visited for a literal.
- `propagateLit_effects`, `propagateFrom_effects`: all that the visits for one literal, and a whole run,
  do to an engine.
-/

namespace Cdcl

namespace Engine

variable {e f g : Engine} {p : Lit} {conflict : Option Conflict} {n : Nat}

/-! ### Runs -/

/-- The next literal of the queue is taken up. -/
def dequeue (e : Engine) : Engine :=
  (e.modifyTrail Trail.advance).modifyStats fun s => { s with propagations := s.propagations + 1 }

@[simp] theorem head_dequeue (e : Engine) : e.dequeue.trail.head = e.trail.head + 1 := rfl

@[simp] theorem lits_dequeue (e : Engine) : e.dequeue.trail.lits = e.trail.lits := rfl

@[simp] theorem clause_dequeue (e : Engine) (id : ClauseId) : e.dequeue.clause id = e.clause id := rfl

theorem propagateFrom_succ (at_head : e.trail.lits[e.trail.head]? = some p) :
    propagateFrom (n + 1) e =
      match e.dequeue.propagateLit p with
      | (g, none) => propagateFrom n g
      | (g, some c) => (g.modifyTrail Trail.skipQueue, some c) := by
  rw [propagateFrom, at_head]
  rfl

/-- Propagation of at most `n` literals: it ends when it has taken as many, when none is left, or when one
brings a conflict, and then the others are skipped. -/
inductive Propagates : Nat → Engine → Engine → Option Conflict → Prop
  | spent {e : Engine} : Propagates 0 e e none
  | idle {n : Nat} {e : Engine} (done : e.trail.lits[e.trail.head]? = none) :
      Propagates (n + 1) e e none
  | next {n : Nat} {e g f : Engine} {p : Lit} {conflict : Option Conflict}
      (at_head : e.trail.lits[e.trail.head]? = some p) (run : e.dequeue.propagateLit p = (g, none))
      (rest : Propagates n g f conflict) : Propagates (n + 1) e f conflict
  | clash {n : Nat} {e g : Engine} {p : Lit} {c : Conflict}
      (at_head : e.trail.lits[e.trail.head]? = some p) (run : e.dequeue.propagateLit p = (g, some c)) :
      Propagates (n + 1) e (g.modifyTrail Trail.skipQueue) (some c)

theorem propagates (result : propagateFrom n e = (f, conflict)) : Propagates n e f conflict := by
  induction n generalizing e with
  | zero =>
    cases result
    exact .spent
  | succ n ih =>
    cases at_head : e.trail.lits[e.trail.head]? with
    | none =>
      rw [propagateFrom, at_head] at result
      cases result
      exact .idle at_head
    | some p =>
      rw [propagateFrom_succ at_head] at result
      split at result
      next run => exact .next at_head run (ih result)
      next run =>
        cases result
        exact .clash at_head run

/-- The visits for a literal: its pairs, the clauses watched on it, and the frozen ones, as far as none
of them brings a conflict. -/
inductive LitVisits (e : Engine) (p : Lit) : Engine → Option Conflict → Prop
  | binary {f : Engine} {c : Conflict}
      (first : visitBinary p.neg (e.watches.binary.get p).toList e = (f, some c)) :
      LitVisits e p f (some c)
  | watched {g f : Engine} {c : Conflict}
      (first : visitBinary p.neg (e.watches.binary.get p).toList e = (g, none))
      (second : g.propagateWatched p = (f, some c)) : LitVisits e p f (some c)
  | frozen {g k f : Engine} {conflict : Option Conflict}
      (first : visitBinary p.neg (e.watches.binary.get p).toList e = (g, none))
      (second : g.propagateWatched p = (k, none)) (third : k.propagateFrozen p = (f, conflict)) :
      LitVisits e p f conflict

theorem propagateLit_cases (result : e.propagateLit p = (f, conflict)) : LitVisits e p f conflict := by
  unfold propagateLit at result
  split at result
  next first =>
    cases result
    exact .binary first
  next first =>
    split at result
    next second =>
      cases result
      exact .watched first second
    next second => exact .frozen first second result

/-- The list of a literal is cleaned, visited, and what stays of it is put back. -/
theorem propagateWatched_eq (result : e.propagateWatched p = (f, conflict)) : ∃ g kept,
    visitWatched p.neg ((e.modifyWatches (·.cleanIfDirty e.arena p)).watches.long.get p).toList #[]
      (e.modifyWatches (·.cleanIfDirty e.arena p)) = (g, kept, conflict) ∧
    f = g.modifyWatches (·.setLong p kept) := by
  unfold propagateWatched at result
  cases result
  exact ⟨_, _, rfl, rfl⟩

/-- Either no frozen clause is listed, or the list is visited, and what is left of it is put back. -/
inductive FrozenVisits (e : Engine) (p : Lit) : Engine → Option Conflict → Prop
  | none : FrozenVisits e p e none
  | some {g : Engine} {left : List Watcher} {conflict : Option Conflict}
      (run : visitFrozen p.neg (e.watches.frozen.get p).toList e = (g, left, conflict)) :
      FrozenVisits e p (g.modifyWatches (·.setFrozen p left.toArray)) conflict

theorem propagateFrozen_visits (result : e.propagateFrozen p = (f, conflict)) :
    FrozenVisits e p f conflict := by
  unfold propagateFrozen at result
  dsimp only at result
  split at result
  · cases result
    exact .none
  · cases result
    exact .some rfl

/-! ### Effects -/

/-- One effect of a visit: a literal without a value is assigned, the literals of a clause change places,
a level count is brought up to date, watches change, or a frozen clause is put back to work. -/
inductive VisitEffect : Engine → Engine → Prop
  | assign {e : Engine} {l : Lit} (why : Reason) (unassigned : e.trail.value l.var = .undecided) :
      VisitEffect e (e.assign l why)
  | orient (e : Engine) (id : ClauseId) (falseLit : Lit) :
      VisitEffect e (e.modifyClause id (orient falseLit))
  | swap (e : Engine) (id : ClauseId) (i j : Nat) : VisitEffect e (e.modifyClause id (·.swap i j))
  | refresh (e : Engine) (id : ClauseId) : VisitEffect e (e.refreshLbd id)
  | watch (e : Engine) (change : Watches → Watches) : VisitEffect e (e.modifyWatches change)
  | thaw (e : Engine) (id : ClauseId) : VisitEffect e (e.thawFalsified id)

/-- Any number of effects of visits, one after another. -/
def VisitEffects : Engine → Engine → Prop := Relation.ReflTransGen VisitEffect

namespace VisitEffects

theorem refl (e : Engine) : VisitEffects e e := Relation.ReflTransGen.refl

theorem trans (h : VisitEffects e f) (k : VisitEffects f g) : VisitEffects e g :=
  Relation.ReflTransGen.trans h k

/-- One more effect comes first. -/
theorem after (k : VisitEffects f g) (effect : VisitEffect e f) : VisitEffects e g :=
  Relation.ReflTransGen.head effect k

/-- One more effect comes last. -/
theorem andThen (h : VisitEffects e f) (effect : VisitEffect f g) : VisitEffects e g :=
  Relation.ReflTransGen.tail h effect

end VisitEffects

theorem visitBinary_effects {falseLit : Lit} {others : List Lit}
    (result : visitBinary falseLit others e = (f, conflict)) : VisitEffects e f := by
  induction others generalizing e with
  | nil =>
    cases result
    exact .refl _
  | cons other rest ih =>
    unfold visitBinary at result
    split at result
    next => exact ih result
    next =>
      cases result
      exact .refl _
    next undecided =>
      exact (ih result).after (.assign _ ((Trail.valueLit_eq_undecided_iff _ _).mp undecided))

/-- The first literal of a clause that is visited is not true if all but it are false: either it is the
blocker, which was looked at before, or it was looked at now. -/
theorem not_true_of_unit {t : Trail} {c : Clause} {blocker first : Lit}
    (blocked : t.isTrue blocker = false) (unit : inspect t c blocker = .unit first) :
    t.isTrue first = false := by
  unfold inspect at unit
  dsimp only at unit
  split at unit
  · cases unit
  next other =>
    split at unit
    · cases unit
    · cases unit
      by_cases same : c.lit 0 = blocker
      · rw [same]
        exact blocked
      · simpa [same] using other

theorem visitWatched_effects {falseLit : Lit} {rest : List Watcher} {kept kept' : Array Watcher}
    (result : visitWatched falseLit rest kept e = (f, kept', conflict)) : VisitEffects e f := by
  induction rest generalizing kept e with
  | nil =>
    cases result
    exact .refl _
  | cons entry rest ih =>
    unfold visitWatched at result
    split at result
    next => exact ih result
    next blocked =>
      have oriented := VisitEffect.orient e entry.clause falseLit
      refine VisitEffects.after ?_ oriented
      dsimp only at result
      split at result
      next => exact ih result
      next k first _ =>
        have moved := (ih result).after (.watch _ _)
        exact moved.after (.swap _ entry.clause 1 k)
      next first unit =>
        split at result
        next =>
          cases result
          exact .refl _
        next notFalse =>
          have notTrue := not_true_of_unit (t := e.trail) (Bool.eq_false_iff.mpr blocked) unit
          have unassigned : e.trail.value first.var = .undecided :=
            Trail.value_eq_undecided notTrue (Bool.eq_false_iff.mpr notFalse)
          refine VisitEffects.after ?_ (.assign (.clause entry.clause) unassigned)
          split at result
          next => exact (ih result).after (.refresh _ _)
          next => exact ih result

theorem propagateWatched_effects (result : e.propagateWatched p = (f, conflict)) : VisitEffects e f := by
  obtain ⟨g, kept, run, rfl⟩ := propagateWatched_eq result
  exact ((visitWatched_effects run).after (.watch e _)).andThen (.watch g _)

theorem visitFrozen_effects {falseLit : Lit} {entries left : List Watcher}
    (result : visitFrozen falseLit entries e = (f, left, conflict)) : VisitEffects e f := by
  induction entries generalizing e with
  | nil =>
    cases result
    exact .refl _
  | cons entry rest ih =>
    unfold visitFrozen at result
    dsimp only at result
    split at result
    · -- A stale entry is dropped.
      exact ih result
    split at result
    · -- The blocker is not false: the entry moves to its list.
      exact (ih result).after (.watch e _)
    split at result
    · -- Another literal is not false.
      exact (ih result).after (.watch e _)
    · -- All literals are false.
      cases result
      exact (VisitEffects.refl _).after (.thaw e _)

theorem propagateFrozen_effects (result : e.propagateFrozen p = (f, conflict)) : VisitEffects e f := by
  cases propagateFrozen_visits result with
  | none => exact .refl e
  | @some g left _ run => exact (visitFrozen_effects run).andThen (.watch g _)

theorem propagateLit_effects (result : e.propagateLit p = (f, conflict)) : VisitEffects e f := by
  cases propagateLit_cases result with
  | binary first => exact visitBinary_effects first
  | watched first second => exact (visitBinary_effects first).trans (propagateWatched_effects second)
  | frozen first second third =>
    have before := (visitBinary_effects first).trans (propagateWatched_effects second)
    exact before.trans (propagateFrozen_effects third)

/-- One effect of propagation: that of a visit, or a move in the queue, which is counted. -/
inductive PropagationEffect : Engine → Engine → Prop
  | visit {e f : Engine} (effect : VisitEffect e f) : PropagationEffect e f
  | queue (e : Engine) (head : Nat) (stats : Statistics)
      (same : ∃ n, stats = { e.stats with propagations := n }) :
      PropagationEffect e { e with trail := { e.trail with head }, stats }

def PropagationEffects : Engine → Engine → Prop := Relation.ReflTransGen PropagationEffect

theorem VisitEffects.effects (h : VisitEffects e f) : PropagationEffects e f :=
  Relation.ReflTransGen.mono (fun _ _ => .visit) _ _ h

theorem propagateFrom_effects (result : propagateFrom n e = (f, conflict)) : PropagationEffects e f := by
  have dequeued (e : Engine) : PropagationEffect e e.dequeue := .queue e _ _ ⟨_, rfl⟩
  have run := propagates result
  clear result
  induction run with
  | spent | idle => exact Relation.ReflTransGen.refl
  | next _ run _ ih =>
    have visited := (propagateLit_effects run).effects
    exact Relation.ReflTransGen.head (dequeued _) (Relation.ReflTransGen.trans visited ih)
  | @clash _ e g _ _ _ run =>
    have visited := (propagateLit_effects run).effects
    have skipped : PropagationEffect g (g.modifyTrail Trail.skipQueue) := .queue g _ _ ⟨_, rfl⟩
    exact Relation.ReflTransGen.head (dequeued _) (Relation.ReflTransGen.tail visited skipped)

end Engine

end Cdcl
