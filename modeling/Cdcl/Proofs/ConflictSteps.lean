import Mathlib.Logic.Relation
import Cdcl.Solver.Solve

/-!
# What a conflict does to an engine

Resolution walks back over the trail, and all that it changes on the way are marks and scores. What is
learnt is added by its size, after the search went back. Whatever these steps keep is kept when a conflict
is handled.

## Main results

- `analyze_effects`: an analysis marks and scores, and beside that clears the marks and counts what it
  learns.
- `addLearnt_cases`: how a clause that was learnt is added.
- `handleConflict_cases`: what comes of a conflict.
-/

namespace Cdcl

namespace Resolution

/-- One effect of resolution: a variable gets a mark, it is met for the first time, or a clause is
cited. -/
inductive Effect : Engine → Engine → Prop
  | mark (e : Engine) (v : Var) (s : Seen) : Effect e (e.setSeen v s)
  | meet (e : Engine) (v : Var) :
      Effect e { e with branching := e.branching.bump v, seen := e.seen.insert v .source }
  | cite (e : Engine) (id : ClauseId) : Effect e (e.bumpIfLearnt id)

/-- Any number of effects, one after another. -/
def Effects : Engine → Engine → Prop := Relation.ReflTransGen Effect

variable {e f g : Engine} {level n position : Nat} {r s : Resolution} {p : Lit}

theorem Effects.refl (e : Engine) : Effects e e := Relation.ReflTransGen.refl

theorem Effects.trans (h : Effects e f) (k : Effects f g) : Effects e g :=
  Relation.ReflTransGen.trans h k

theorem Effect.once (h : Effect e f) : Effects e f := Relation.ReflTransGen.single h

/-- What each effect keeps is kept by all of them. -/
theorem Effects.keeps {P : Engine → Prop} (step : ∀ {e f}, Effect e f → P e → P f) (h : Effects e f)
    (start : P e) : P f := by
  induction h with
  | refl => exact start
  | tail _ effect ih => exact step effect ih

theorem effects_addLit (level : Nat) (r : Resolution) (l : Lit) :
    Effects r.engine (addLit level r l).engine := by
  have met := (Effect.meet r.engine l.var).once
  unfold addLit
  dsimp only
  split
  · split
    · exact met
    · exact met
  · exact .refl _

theorem effects_addLits (level : Nat) (lits : List Lit) (r : Resolution) :
    Effects r.engine (addLits level lits r).engine := by
  unfold addLits
  induction lits generalizing r with
  | nil => exact .refl _
  | cons l lits ih => exact (effects_addLit level r l).trans (ih (addLit level r l))

theorem effects_start (level : Nat) (e : Engine) (c : Conflict) :
    Effects e (start level e c).engine := by
  cases c with
  | binary a b => exact effects_addLits level [a, b] { engine := e }
  | clause id =>
    have cited := (Effect.cite e id).once
    exact cited.trans (effects_addLits level _ { engine := e.bumpIfLearnt id })

theorem effects_resolve {v : Var} (result : resolve level r v = .ok s) : Effects r.engine s.engine := by
  unfold resolve at result
  split at result
  · -- A decision has no reason to resolve with.
    cases result
  · -- The other literal of a pair.
    cases result
    exact effects_addLits level _ r
  next id _ =>
    -- A clause is cited first, and then its tail is taken in.
    cases result
    have cited := (Effect.cite r.engine id).once
    exact cited.trans (effects_addLits level _ { r with engine := r.engine.bumpIfLearnt id })

theorem effects_backward (result : backward level n r = .ok (s, p, position)) :
    Effects r.engine s.engine := by
  induction n generalizing r with
  | zero => cases result
  | succ n ih =>
    unfold backward at result
    split at result
    · cases result
    next q _ =>
      split at result
      · -- The literal has no part in the conflict.
        exact ih result
      have marked := (Effect.mark r.engine q.var .resolved).once
      dsimp only at result
      split at result
      · -- It is the last one of its level.
        cases result
        exact marked
      split at result
      · cases result
      next resolved => exact (marked.trans (effects_resolve resolved)).trans (ih result)

theorem effects_unmarkResolved (position : Nat) (e : Engine) :
    Effects e (unmarkResolved position e) := by
  unfold unmarkResolved
  generalize e.trail.lits.toList.drop position = lits
  induction lits generalizing e with
  | nil => exact .refl e
  | cons l lits ih =>
    rw [List.foldl_cons]
    split
    · exact (Effect.mark e l.var .unseen).once.trans (ih _)
    · exact ih e

/-- From a conflict to the literal that is left, and back to where no variable is marked as
resolved. -/
theorem effects_found {c : Conflict} (found : backward level n (start level e c) = .ok (r, p, position)) :
    Effects e (unmarkResolved position r.engine) :=
  ((effects_start level e c).trans (effects_backward found)).trans (effects_unmarkResolved position _)

end Resolution

namespace Engine

variable {e f : Engine} {c : Conflict} {learnt : Learnt}

/-- After resolution, an analysis sets marks, counts literals and counts the levels of what it
learns. -/
theorem analyze_effects (result : e.analyze c = .ok (f, learnt)) :
    ∃ u g : Engine, Resolution.Effects e u ∧
      (∃ (seen : DenseMap Var Seen) (before after : Nat), g = { u with
        seen
        stats := { u.stats with literalsBefore := before, literalsAfter := after } }) ∧
      f = (g.countLevels learnt.lits.toList).1 ∧ learnt.lbd = (g.countLevels learnt.lits.toList).2 := by
  unfold analyze at result
  dsimp only at result
  split at result
  · cases result
  next found =>
    split at result
    · cases result
    · cases result
      exact ⟨_, _, Resolution.effects_found found, ⟨_, _, _, rfl⟩, rfl, rfl⟩

/-- How a clause that was learnt is added, by its size. -/
inductive Adding (e : Engine) : Learnt → Engine → Prop
  | empty {d : Learnt} (list : d.lits.toList = []) : Adding e d e
  | unit {d : Learnt} {l : Lit} (list : d.lits.toList = [l]) : Adding e d (e.assign l .decision)
  | pair {d : Learnt} {l other : Lit} (list : d.lits.toList = [l, other]) :
      Adding e d ((e.addBinary l other true).assign l (.binary other))
  | stored {d : Learnt} {l second third : Lit} {rest : List Lit} {id : ClauseId} {g : Engine}
      (list : d.lits.toList = l :: second :: third :: rest)
      (stored : e.storeLearnt d.lits d.lbd = .ok (id, g)) : Adding e d (g.assign l (.clause id))

theorem addLearnt_cases (result : e.addLearnt learnt = .ok f) : e.Adding learnt f := by
  unfold addLearnt at result
  rcases list : learnt.lits.toList with _ | ⟨l, _ | ⟨second, _ | ⟨third, rest⟩⟩⟩
  all_goals
    rw [list] at result
    dsimp only at result
  case nil =>
    cases result
    exact .empty list
  case cons.nil =>
    cases result
    exact .unit list
  case cons.cons.nil =>
    cases result
    exact .pair list
  case cons.cons.cons =>
    split at result
    · cases result
    next stored =>
      cases result
      exact .stored list stored

/-- What comes of a conflict after its analysis: the search goes back, and either there is no room for
what was learnt, or it is added and the policy takes note. -/
inductive Handling (e : Engine) (c : Conflict) : Handled → Engine → Prop
  | full {a : Engine} {d : Learnt} {err : SolverError} (analyzed : e.analyze c = .ok (a, d))
      (refused : (a.cancelTo d.level).addLearnt d = .error err) :
      Handling e c (.failed err) (a.cancelTo d.level)
  | learnt {a b : Engine} {d : Learnt} (analyzed : e.analyze c = .ok (a, d))
      (added : (a.cancelTo d.level).addLearnt d = .ok b) :
      Handling e c .learnt (b.decayActivities.noteConflict d.lbd e.trail.size)

theorem handleConflict_cases {handled : Handled} (result : e.handleConflict c = .ok (handled, f)) :
    e.Handling c handled f := by
  unfold handleConflict at result
  dsimp only at result
  split at result
  · cases result
  next analyzed =>
    split at result
    next refused =>
      cases result
      exact .full analyzed refused
    next added =>
      cases result
      exact .learnt analyzed added

end Engine

end Cdcl
