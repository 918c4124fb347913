import Cdcl.Proofs.LearntClauses
import Mathlib.Data.Finset.Card
import Mathlib.Data.Finset.Range

/-!
# Conflict analysis always ends with a clause

Resolution stops at the latest with the decision of the last level, which comes before all other
literals of that level, and so never has to resolve with a decision. An exploration of reasons
marks a variable each time it stacked one, so that the number of variables bounds it.

## Main results

- `Explainer.Closed.run_total`: minimization ends.
- `analyze_total`: so does conflict analysis, at any conflict above level zero.
-/

namespace Cdcl

namespace Explainer

/-- The variables are below `n`, and what causes a literal of the trail is false on it. -/
structure Closed (n : Nat) (x : Explainer) : Prop where
  bounded : ∀ l ∈ x.trail.lits, l.var.index < n
  causes : ∀ l ∈ x.trail.lits, ∀ lits, x.causes l.var = some lits →
    ∀ q ∈ lits, q.neg ∈ x.trail.lits

variable {n : Nat} {x : Explainer} {mask : LevelMask} {f g : Frontier} {lits : List Lit}

/-- How many variables are not marked as in the clause. -/
def unmarked (n : Nat) (seen : DenseMap Var Seen) : Nat :=
  ((Finset.range n).filter fun i => seen.get ⟨i⟩ ≠ .source).card

theorem unmarked_le (n : Nat) (seen : DenseMap Var Seen) : unmarked n seen ≤ n :=
  (Finset.card_filter_le _ _).trans_eq (Finset.card_range n)

theorem unmarked_mark {seen : DenseMap Var Seen} {v : Var} (bound : v.index < n)
    (fresh : seen.get v ≠ .source) : unmarked n (seen.insert v .source) + 1 = unmarked n seen := by
  have erased : ((Finset.range n).filter fun i => (seen.insert v .source).get ⟨i⟩ ≠ .source) =
      ((Finset.range n).filter fun i => seen.get ⟨i⟩ ≠ .source).erase v.index := by
    ext i
    rw [Finset.mem_erase, Finset.mem_filter, Finset.mem_filter, DenseMap.get_insert]
    by_cases here : v = ⟨i⟩
    · subst here
      simp
    · have apart : i ≠ v.index := fun same => here (by rw [same])
      simp [here, apart]
  unfold unmarked
  rw [erased]
  exact Finset.card_erase_add_one (Finset.mem_filter.mpr ⟨Finset.mem_range.mpr bound, fresh⟩)

/-- What is stacked is false on the trail, and not by decision. -/
def Stacks (x : Explainer) (stack : List Lit) : Prop :=
  ∀ q ∈ stack, q.neg ∈ x.trail.lits ∧ x.trail.reason q.var ≠ .decision

/-- Each literal that is stacked is marked. -/
theorem absorb_measure (closed : x.Closed n) (inside : ∀ q ∈ lits, q.neg ∈ x.trail.lits)
    (stacked : x.Stacks f.stack) {answer : Bool}
    (result : Frontier.absorb x mask lits f = (answer, g)) :
    x.Stacks g.stack ∧ g.stack.length + unmarked n g.seen = f.stack.length + unmarked n f.seen := by
  induction lits generalizing f with
  | nil =>
    cases result
    exact ⟨stacked, rfl⟩
  | cons l rest ih =>
    have others : ∀ q ∈ rest, q.neg ∈ x.trail.lits := fun q member =>
      inside q (List.mem_cons_of_mem _ member)
    unfold Frontier.absorb at result
    split at result
    · exact ih others stacked result
    next unknown =>
      simp only [Bool.or_eq_true, beq_iff_eq, not_or] at unknown
      split at result
      next explained =>
        have opposite := inside l List.mem_cons_self
        have reason : x.trail.reason l.var ≠ .decision := by
          simpa using (Bool.and_eq_true_iff.mp explained).1
        have wider : x.Stacks (l :: f.stack) :=
          List.forall_mem_cons.mpr ⟨⟨opposite, reason⟩, stacked⟩
        obtain ⟨stacked_g, same⟩ := ih others
          (f := ⟨f.seen.insert l.var .source, l :: f.stack, l :: f.marked⟩) wider result
        have bound : l.var.index < n := closed.bounded l.neg opposite
        -- A literal that goes on the stack is marked, so that the sum stays the same.
        have marked := unmarked_mark bound unknown.2
        refine ⟨stacked_g, ?_⟩
        rw [same]
        dsimp only
        rw [List.length_cons]
        omega
      · cases result
        exact ⟨stacked, rfl⟩

/-- An exploration ends within as many steps as there are literals stacked and variables unmarked. -/
theorem explain_total (closed : x.Closed n) {fuel : Nat} {f : Frontier} (stacked : x.Stacks f.stack)
    (enough : f.stack.length + unmarked n f.seen < fuel) :
    ∃ answer g, Frontier.explain x mask fuel f = .ok (answer, g) := by
  induction fuel generalizing f with
  | zero => omega
  | succ fuel ih =>
    unfold Frontier.explain
    split
    · exact ⟨_, _, rfl⟩
    next l stack top =>
      rw [top] at stacked enough
      obtain ⟨⟨opposite, reason⟩, below⟩ := List.forall_mem_cons.mp stacked
      split
      next none_ =>
        unfold causes at none_
        split at none_
        next decision => exact absurd decision reason
        · cases none_
        · cases none_
      next lits some_ =>
        rw [← Lit.var_neg] at some_
        have inside := closed.causes _ opposite lits some_
        split
        next k absorbed =>
          obtain ⟨stacked_k, same⟩ := absorb_measure closed inside (f := { f with stack }) below absorbed
          refine ih stacked_k ?_
          rw [List.length_cons] at enough
          dsimp only at same
          omega
        · exact ⟨_, _, rfl⟩

theorem stepRecursive_total (closed : x.Closed n) (m : Minimizer) {l : Lit}
    (opposite : l.neg ∈ x.trail.lits) : ∃ m', m.stepRecursive x n mask l = .ok m' := by
  unfold Minimizer.stepRecursive
  split
  · exact ⟨_, rfl⟩
  next implied =>
    have stacked : x.Stacks [l] := List.forall_mem_singleton.mpr ⟨opposite, by simpa using implied⟩
    have enough : [l].length + unmarked n m.seen < n + 2 := by
      have := unmarked_le n m.seen
      rw [List.length_singleton]
      omega
    obtain ⟨answer, g, ended⟩ : ∃ answer g,
        Frontier.explain x mask (n + 2) { seen := m.seen, stack := [l] } = .ok (answer, g) :=
      explain_total closed stacked enough
    rw [ended]
    cases answer
    · exact ⟨_, rfl⟩
    · exact ⟨_, rfl⟩

/-- Minimization of literals that are false on the trail ends. -/
theorem Closed.run_total (closed : x.Closed n) (mode : Nat) (seen : DenseMap Var Seen)
    (inside : ∀ l ∈ lits, l.neg ∈ x.trail.lits) : ∃ m, Minimizer.run x mode n seen lits = .ok m := by
  unfold Minimizer.run
  split
  next => exact ⟨_, rfl⟩
  next =>
    dsimp only
    generalize lits.foldl (fun mask l => LevelMask.add mask (x.trail.levelOf l.var)) 0 = mask
    generalize ({ seen } : Minimizer) = m
    induction lits generalizing m with
    | nil => exact ⟨m, rfl⟩
    | cons l rest ih =>
      obtain ⟨opposite, others⟩ := List.forall_mem_cons.mp inside
      obtain ⟨m', stepped⟩ : ∃ m', m.stepRecursive x n mask l = .ok m' :=
        stepRecursive_total closed m opposite
      rw [List.foldlM_cons, stepped]
      exact ih others m'
  next => exact ⟨_, rfl⟩

end Explainer

namespace Resolution

variable {e : Engine} {n : Nat} {current : List Lit} {r : Resolution}

/-- A literal of the last level is not decided if another one of that level comes before it. -/
theorem Marks.implied (h : Marks e (n + 1) current r) {aside : List ClauseId} (sound : e.Sound aside)
    (positive : e.trail.level ≠ 0) {p : Lit} (at_n : e.trail.lits[n]? = some p) (member : p ∈ current)
    (more : 1 < r.pending) : e.trail.reason p.var ≠ .decision := by
  intro decision
  have level := ((h.latest p).mp member).2.2
  rw [sound.trail.level_eq at_n] at level
  -- Some other literal is marked at the last level, and comes earlier.
  obtain ⟨q, inside⟩ : ∃ q, q ∈ current.erase p := by
    refine List.exists_mem_of_ne_nil _ fun empty => ?_
    have := List.length_erase_of_mem member
    rw [empty, h.pending] at this
    simp only [List.length_nil] at this
    omega
  obtain ⟨differs, other⟩ := (h.distinct.mem_erase_iff).mp inside
  obtain ⟨j, below, at_j⟩ := h.before q other
  have earlier : j < n := by
    refine Nat.lt_of_le_of_ne (Nat.le_of_lt_succ below) fun same => differs ?_
    rw [same, at_n] at at_j
    exact (Option.some.inj at_j).symm
  have level_q := ((h.latest q).mp other).2.2
  rw [sound.trail.level_eq at_j] at level_q
  have opens := sound.justified at_n
  rw [decision] at opens
  rcases opens with zero | first
  · omega
  · have := first j earlier
    omega

theorem resolve_total {level : Nat} {v : Var} (implied : r.engine.trail.reason v ≠ .decision) :
    ∃ r', resolve level r v = .ok r' := by
  unfold resolve
  split
  next decision => exact absurd decision implied
  · exact ⟨_, rfl⟩
  · exact ⟨_, rfl⟩

/-- Going back along the trail ends at a literal of the last level. -/
theorem backward_total (h : Marks e n current r) {aside : List ClauseId} (sound : e.Sound aside)
    (positive : e.trail.level ≠ 0) (contra : Contradicts e [] r) (waiting : current ≠ [])
    (le : n ≤ e.trail.lits.size) : ∃ r' p i, backward e.trail.level n r = .ok (r', p, i) := by
  induction n generalizing r current with
  | zero =>
    obtain ⟨l, member⟩ := List.exists_mem_of_ne_nil _ waiting
    exact absurd (h.before l member) Trail.not_before_zero
  | succ n ih =>
    unfold backward
    rw [h.examined.trail]
    split
    next outside =>
      rw [Array.getElem?_eq_none_iff] at outside
      omega
    next p at_n =>
      split
      next unseen => exact ih (h.skip at_n (by simpa using unseen)) contra waiting (by omega)
      next seen =>
        have member := h.mem_current sound.trail waiting at_n (by simpa using seen)
        dsimp only
        split
        · exact ⟨_, _, _, rfl⟩
        next more =>
          have implied := h.implied sound positive at_n member (by omega)
          rw [← h.examined.trail] at implied
          obtain ⟨r', resolved⟩ : ∃ r', resolve e.trail.level
              { r with engine := r.engine.setSeen p.var .resolved, pending := r.pending - 1 }
              p.var = .ok r' := resolve_total implied
          obtain ⟨current', marks, contra', left⟩ := resolveMarked h sound contra at_n member resolved
          rw [resolved]
          exact ih marks contra' (left (by omega)) (by omega)

end Resolution

namespace Engine

variable {aside : List ClauseId} {e f : Engine}

theorem Sound.closed (sound : e.Sound aside) : e.explainer.Closed e.numVars where
  bounded := sound.trail.bounded
  causes := by
    intro l member lits causes q inside
    obtain ⟨i, at_i⟩ := Array.mem_iff_getElem?.mp member
    exact ((sound.causes at_i causes).1 q inside).mem

/-- Explanations are the same as before an examination. -/
theorem Examined.closed (h : e.Examined f) {n : Nat} (closed : e.explainer.Closed n) :
    f.explainer.Closed n where
  bounded := by
    intro l member
    change l ∈ f.trail.lits at member
    rw [h.trail] at member
    exact closed.bounded l member
  causes := by
    intro l member lits causes q inside
    change l ∈ f.trail.lits at member
    change q.neg ∈ f.trail.lits
    rw [h.causes] at causes
    rw [h.trail] at member ⊢
    exact closed.causes l member lits causes q inside

/-- At a conflict above level zero, analysis ends with a clause. -/
theorem analyze_total (sound : e.Sound aside) {c : Conflict} (conflict : e.IsConflict c)
    (positive : e.trail.level ≠ 0) : ∃ f learnt, e.analyze c = .ok (f, learnt) := by
  obtain ⟨current, marks, contra, waiting⟩ := Resolution.start_marks sound conflict positive
  obtain ⟨r, p, i, found⟩ := Resolution.backward_total marks sound positive contra waiting
    (Nat.le_refl _)
  have resolved := Resolution.backward_resolved marks sound contra waiting found
  obtain ⟨seen, unmarked, _⟩ := Resolution.unmarkResolved_eq r.engine i
  have examined : e.Examined { r.engine with seen } :=
    resolved.examined.trans { Examined.refl r.engine with }
  have closed := examined.closed sound.closed
  rw [← examined.numVars] at closed
  have inside : ∀ l ∈ r.lits.toList, l.neg ∈ ({ r.engine with seen } : Engine).trail.lits :=
    fun l member => examined.trail ▸ (resolved.lower l (Array.mem_toList_iff.mp member)).1
  obtain ⟨m, ran⟩ := closed.run_total ({ r.engine with seen } : Engine).opts.minimization seen inside
  unfold analyze
  dsimp only
  rw [found]
  dsimp only
  rw [unmarked, ran]
  exact ⟨_, _, rfl⟩

end Engine

end Cdcl
