import Cdcl.Proofs.Turns

/-!
# Clauses learnt from conflicts

At every conflict that a search meets above level zero, analysis ends with a clause of one literal of
the last level and others of lower levels, all of them false, that what is stored implies. Back at the
level that comes with it, the clause asserts its first literal. So it is however the clause is
minimized, as analysis ends with all marks taken back.

## Main results

- `Solver.Clash.sound`: what is known where a search meets a conflict.
- `Solver.analyzed_of_clash`: what analysis makes of it.
-/

namespace Cdcl

namespace Engine

variable {e f : Engine} {c : Learnt}

/-- The engine, set to minimize what it learns in a mode. -/
def minimizing (e : Engine) (mode : Nat) : Engine :=
  { e with opts := { e.opts with minimization := mode } }

/-- What is to be learnt from a conflict in `e`: a clause of a first literal, the only one of the last
level, and of others. -/
structure Lesson (e : Engine) (first : Lit) (others : List Lit) (c : Learnt) : Prop where
  lits : c.lits.toList = first :: others
  entailed : ∀ σ, e.Respected σ → σ.satisfiesClause (first :: others)
  distinct : ((first :: others).map Lit.var).Nodup
  fails : ∀ l ∈ first :: others, e.trail.isFalse l = true
  above : ∀ l ∈ first :: others, e.trail.levelOf l.var ≠ 0
  latest : e.trail.levelOf first.var = e.trail.level
  lower : ∀ l ∈ others, e.trail.levelOf l.var < e.trail.level
  unit : others = [] → c.level = 0
  highest : ∀ l ∈ others, e.trail.levelOf l.var ≤ c.level
  second : ∀ l, others.head? = some l → e.trail.levelOf l.var = c.level
  lbd : c.lbd = ((first :: others).map fun l => e.trail.levelOf l.var).toFinset.card

/-- What analysis makes of a conflict in `e`: a lesson, which asserts its first literal when the search
is back at its level, and no marks. -/
structure Analyzed (e f : Engine) (c : Learnt) : Prop where
  lesson : ∃ first others, e.Lesson first others c ∧
    (f.cancelTo c.level).trail.isUnassigned first.var = true ∧
    ∀ l ∈ others, (f.cancelTo c.level).trail.isFalse l = true
  unseen : ∀ v, f.seen.get v = .unseen

theorem Teaches.lesson (h : e.Teaches c) {k : Nat} (coherent : e.trail.Coherent k)
    (lbd : c.lbd = (c.lits.toList.map fun l => e.trail.levelOf l.var).toFinset.card) {first : Lit}
    {others : List Lit} (list : c.lits.toList = first :: others) : e.Lesson first others c := by
  obtain ⟨p, rest, lits, member, latest, below⟩ := h.shape
  rw [list] at lits
  cases lits
  constructor
  case lits => exact list
  case entailed => exact list ▸ h.entailed
  case distinct => exact list ▸ h.distinct
  case fails =>
    refine List.forall_mem_cons.mpr ⟨?_, fun l inside => ?_⟩
    · rw [coherent.isFalse_iff, Lit.neg_neg]
      exact member
    · exact (coherent.isFalse_iff l).mpr (below l inside).1
  case above => exact list ▸ h.above
  case latest => exact latest
  case lower => exact fun l inside => Nat.lt_of_le_of_lt (below l inside).2 h.lower
  case unit =>
    rintro rfl
    refine h.unit ?_
    rw [← Array.length_toList, list]
    exact Nat.le_refl _
  case highest => exact fun l inside => (below l inside).2
  case second =>
    intro l head
    refine h.latest l ?_
    rw [list, List.getElem?_cons_succ, ← List.head?_eq_getElem?]
    exact head
  case lbd => rw [← list, lbd]

/-- At a conflict above level zero, analysis ends with a lesson. -/
theorem exists_analyzed {aside : List ClauseId} (sound : e.Sound aside) {c : Conflict}
    (conflict : e.IsConflict c) (positive : e.trail.level ≠ 0) (current : e.levelCounter.Current) :
    ∃ f learnt, e.analyze c = .ok (f, learnt) ∧ e.Analyzed f learnt := by
  obtain ⟨f, learnt, analyzed⟩ := analyze_total sound conflict positive
  obtain ⟨examined, unseen, teaches⟩ := analyze_teaches sound conflict positive analyzed
  have lbd := (analyze_counts analyzed).2 current
  rw [examined.trail] at lbd
  obtain ⟨first, others, asserts⟩ := teaches.asserts examined.trail (examined.sound sound unseen).trail
  refine ⟨f, learnt, analyzed, ⟨first, others, teaches.lesson sound.trail lbd asserts.lits, ?_, ?_⟩, unseen⟩
  · simp [Trail.isUnassigned, asserts.unassigned]
  · exact fun l inside => (((examined.sound sound unseen).cancelTo learnt.level).trail.isFalse_iff l).mpr
      (asserts.falsified l inside)

end Engine

namespace Solver

open Engine

variable {F : List (List Lit)} {s : Solver} {e : Engine} {c : Conflict}

/-- A step of a search from `s` has met a conflict above level zero, and is about to analyze it. -/
inductive Clash (F : List (List Lit)) (s : Solver) : Engine → Conflict → Prop where
  | mk {t : Solver} {e : Engine} {c : Conflict} (before : Searched F s) (conflicts : s.Conflicts e c t)
    (positive : e.trail.level ≠ 0) :
    Clash F s (e.modifyStats fun st => { st with conflicts := st.conflicts + 1 }) c

theorem Clash.sound (h : Clash F s e c) :
    e.Sound [] ∧ e.IsConflict c ∧ e.trail.level ≠ 0 ∧ e.levelCounter.Current := by
  obtain ⟨before, conflicts, positive⟩ := h
  next t e =>
    obtain ⟨log, searching⟩ := before.searching
    have current := before.current
    obtain ⟨asked, run⟩ := conflicts
    rw [(noted_stopRequested asked).engine] at run
    obtain ⟨-, sound, -, conflict⟩ := searching.working.conflict run
    exact ⟨{ sound with }, conflict, positive, (uneventful_propagateFrom run).current current⟩

/-- From every conflict above level zero a search learns its lesson, and forgets how it came by it,
whichever way the clause is minimized. -/
theorem analyzed_of_clash (h : Clash F s e c) (mode : Nat) :
    ∃ f learnt, (e.minimizing mode).analyze c = .ok (f, learnt) ∧
      (e.minimizing mode).Analyzed f learnt := by
  obtain ⟨sound, conflict, positive, current⟩ := h.sound
  have sound' : (e.minimizing mode).Sound [] := { sound with }
  exact exists_analyzed sound' conflict positive current

/-- Does the next step of a search meet a conflict above level zero, in a state that passes a test? -/
def clashPasses (test : Engine → Conflict → Bool) (s : Solver) : Bool :=
  let (stop, t) := s.stopRequested
  let (e, conflict) := t.engine.propagate
  match conflict with
  | none => false
  | some c => !stop && (e.trail.level != 0 &&
      test (e.modifyStats fun st => { st with conflicts := st.conflicts + 1 }) c)

theorem Searched.exists_of_clashPasses (h : Searched F s) {test : Engine → Conflict → Bool}
    (passes : s.clashPasses test = true) : ∃ e c, Clash F s e c ∧ test e c = true := by
  unfold clashPasses at passes
  rcases asked : s.stopRequested with ⟨stop, t⟩
  rcases run : t.engine.propagate with ⟨e, _ | c⟩ <;> rw [asked] at passes <;> dsimp only at passes <;>
    rw [run] at passes
  · cases passes
  · simp only [Bool.and_eq_true, Bool.not_eq_true', bne_iff_ne] at passes
    obtain ⟨rfl, positive, tested⟩ := passes
    exact ⟨_, c, .mk h (.mk asked run) positive, tested⟩

/-- Two is implied by one, so that the clause says as much without its opposite. -/
theorem analyzed_of_clash_chain : ∃ s e c f g full learnt,
    Clash (clausesOf [[-1, 2], [-3, 4], [-1, -2, -4, 5], [-4, -2, -5]]) s e c ∧
      (e.minimizing 0).analyze c = .ok (f, full) ∧ (e.minimizing 0).Analyzed f full ∧
      full.lits = #[.ofDimacs (-4), .ofDimacs (-1), .ofDimacs (-2)] ∧
      (e.minimizing 2).analyze c = .ok (g, learnt) ∧ (e.minimizing 2).Analyzed g learnt ∧
      learnt.lits = #[.ofDimacs (-4), .ofDimacs (-1)] := by
  have passes : sessionPasses {} 9
      (giving 5 (clausesOf [[-1, 2], [-3, 4], [-1, -2, -4, 5], [-4, -2, -5]]))
      (clausesOf [[-1, 2], [-3, 4], [-1, -2, -4, 5], [-4, -2, -5]])
      (fun s => s.engine.ok && s.searchPasses [.ofDimacs 1, .ofDimacs 3] (stepsPass
        (clashPasses fun e c =>
          ((e.minimizing 0).analyze c).toOption.any (fun r =>
            r.2.lits == #[.ofDimacs (-4), .ofDimacs (-1), .ofDimacs (-2)]) &&
          ((e.minimizing 2).analyze c).toOption.any (fun r =>
            r.2.lits == #[.ofDimacs (-4), .ofDimacs (-1)])) 2)) = true := by
    decide +kernel
  obtain ⟨s, history, tests⟩ := exists_of_sessionPasses passes
  obtain ⟨ok, searches⟩ := Bool.and_eq_true_iff.mp tests
  obtain ⟨t, u, assumed, starts, steps⟩ := exists_of_searchPasses searches
  obtain ⟨w, searched, meets⟩ := (Searched.start history ok assumed starts).exists_of_stepsPass steps
  obtain ⟨e, c, clash, learns⟩ := searched.exists_of_clashPasses meets
  obtain ⟨f, full, analyzed, known⟩ := analyzed_of_clash clash 0
  obtain ⟨g, learnt, analyzed', known'⟩ := analyzed_of_clash clash 2
  rw [analyzed, analyzed'] at learns
  obtain ⟨three, two⟩ := Bool.and_eq_true_iff.mp learns
  exact ⟨w, e, c, f, g, full, learnt, clash, analyzed, known, eq_of_beq three, analyzed', known', eq_of_beq two⟩

end Solver

end Cdcl
