import Cdcl.Proofs.AnalysisEnds
import Cdcl.Proofs.TwinClauses

/-!
# Conflict analysis of twins

Analysis reads the reasons of assigned variables and the literals of their clauses, never a handle
itself. From twin conflicts twins learn the same clause, and from an assumption that is false the
same core.

## Main results

- `Mates.analyze`: twins learn the same clause.
- `Mates.analyzeFinal`: twins find the same core.
-/

namespace Cdcl

variable {M : ClauseId → ClauseId → Prop}

/-! ### Explanations -/

namespace Explainer

/-- Explanations of the literals on the trail are the same. -/
structure Agrees (x y : Explainer) : Prop where
  levels : y.trail.levelOf = x.trail.levelOf
  causes : ∀ l ∈ x.trail.lits, y.causes l.var = x.causes l.var

namespace Agrees

variable {x y : Explainer} {mask : LevelMask} {n : Nat} {f : Frontier} {lits : List Lit}

theorem isDecision (h : x.Agrees y) {l : Lit} (member : l ∈ x.trail.lits) :
    (y.trail.reason l.var == .decision) = (x.trail.reason l.var == .decision) := by
  have none_iff (z : Explainer) : z.causes l.var = none ↔ z.trail.reason l.var = .decision := by
    unfold Explainer.causes
    split <;> simp_all
  rw [Bool.eq_iff_iff, beq_iff_eq, beq_iff_eq, ← none_iff, ← none_iff, h.causes l member]

theorem absorb (h : x.Agrees y) (inside : ∀ q ∈ lits, q.neg ∈ x.trail.lits) :
    Frontier.absorb y mask lits f = Frontier.absorb x mask lits f := by
  induction lits generalizing f with
  | nil => rfl
  | cons l rest ih =>
    have later {g : Frontier} : Frontier.absorb y mask rest g = Frontier.absorb x mask rest g :=
      ih fun q member => inside q (List.mem_cons_of_mem _ member)
    have decision := h.isDecision (inside l List.mem_cons_self)
    change (y.trail.reason l.var == .decision) = (x.trail.reason l.var == .decision) at decision
    unfold Frontier.absorb
    rw [h.levels, later, later]
    unfold bne
    rw [decision]

theorem explain (h : x.Agrees y) (closed : x.Closed n) {fuel : Nat} (stacked : x.Stacks f.stack) :
    Frontier.explain y mask fuel f = Frontier.explain x mask fuel f := by
  induction fuel generalizing f with
  | zero => rfl
  | succ fuel ih =>
    unfold Frontier.explain
    split
    · rfl
    next l stack list =>
      have on_trail := (stacked l (list ▸ List.mem_cons_self)).1
      have causes : y.causes l.var = x.causes l.var := h.causes l.neg on_trail
      rw [causes]
      split
      · rfl
      next lits found =>
        have inside := closed.causes l.neg on_trail lits found
        rw [h.absorb inside]
        split
        next g absorbed =>
          have below : x.Stacks stack := fun q member => stacked q (list ▸ List.mem_cons_of_mem _ member)
          exact ih (absorb_measure closed inside below absorbed).1
        · rfl

theorem stepLocal (h : x.Agrees y) (m : Minimizer) {l : Lit} (inside : l.neg ∈ x.trail.lits) :
    m.stepLocal y l = m.stepLocal x l := by
  have causes : y.causes l.var = x.causes l.var := h.causes l.neg inside
  unfold Minimizer.stepLocal Minimizer.isNeeded
  rw [causes, h.levels]

theorem stepRecursive (h : x.Agrees y) (closed : x.Closed n) (m : Minimizer) {l : Lit}
    (inside : l.neg ∈ x.trail.lits) :
    m.stepRecursive y n mask l = m.stepRecursive x n mask l := by
  have decision : (y.trail.reason l.var == .decision) = (x.trail.reason l.var == .decision) :=
    h.isDecision (l := l.neg) inside
  unfold Minimizer.stepRecursive
  rw [decision]
  split
  · rfl
  next implied =>
    rw [h.explain closed]
    intro q member
    obtain rfl := List.mem_singleton.mp member
    exact ⟨inside, fun reason => implied (by rw [reason]; rfl)⟩

/-- Minimization comes to the same. -/
theorem run (h : x.Agrees y) (closed : x.Closed n) (mode : Nat) (seen : DenseMap Var Seen)
    (inside : ∀ l ∈ lits, l.neg ∈ x.trail.lits) :
    Minimizer.run y mode n seen lits = Minimizer.run x mode n seen lits := by
  unfold Minimizer.run
  split
  next =>
    exact congrArg Except.ok
      (List.foldl_ext _ _ _ fun m l member => h.stepLocal m (inside l member))
  next =>
    rw [h.levels]
    generalize lits.foldl (fun (mask : LevelMask) l => mask.add (x.trail.levelOf l.var)) 0 = mask
    dsimp only
    generalize ({ seen } : Minimizer) = m
    induction lits generalizing m with
    | nil => rfl
    | cons l rest ih =>
      rw [List.foldlM_cons, List.foldlM_cons, h.stepRecursive closed m (inside l List.mem_cons_self)]
      exact bind_congr fun m => ih (fun q member => inside q (List.mem_cons_of_mem _ member)) m
  next => rfl

end Agrees

end Explainer

namespace Engine

variable {e f e' f' : Engine} {a b : ClauseId}

namespace Mates

theorem mark (h : Mates M e f) (branching : Branching) (seen : DenseMap Var Seen) :
    Mates M { e with branching, seen } { f with branching, seen } :=
  { h with
    branching := rfl
    seen := rfl }

theorem setSeen (h : Mates M e f) (v : Var) (s : Seen) : Mates M (e.setSeen v s) (f.setSeen v s) :=
  { h with seen := congrArg (·.insert v s) h.seen }

/-- The reason of a literal on the trail. -/
theorem reason (h : Mates M e f) {n : Nat} (coherent : e.trail.Coherent n) {l : Lit}
    (member : l ∈ e.trail.lits) : Reason.Twins M (e.trail.reason l.var) (f.trail.reason l.var) :=
  h.reasons l.var fun unassigned => (coherent.undecided_iff l.var).mp unassigned l member rfl

theorem explainer (h : Mates M e f) {n : Nat} (coherent : e.trail.Coherent n) :
    e.explainer.Agrees f.explainer where
  levels := h.trail.levelOf
  causes := by
    intro l member
    have reasons := h.reason coherent member
    rw [causes_eq, causes_eq]
    generalize e.trail.reason l.var = why at reasons
    generalize f.trail.reason l.var = why' at reasons
    cases reasons with
    | decision => rfl
    | binary => rfl
    | clause pair =>
      dsimp only
      rw [h.clause pair]

end Mates

end Engine

/-! ### Resolution -/

namespace Resolution

/-- Resolutions in twin engines that have come to the same clause. -/
structure Twins (M : ClauseId → ClauseId → Prop) (r q : Resolution) : Prop where
  engine : r.engine.Mates M q.engine
  pending : q.pending = r.pending
  lits : q.lits = r.lits

variable {r q r' : Resolution} {level : Nat}

theorem trail_addLits (level : Nat) (lits : List Lit) (r : Resolution) :
    (addLits level lits r).engine.trail = r.engine.trail := by
  unfold addLits
  induction lits generalizing r with
  | nil => rfl
  | cons l rest ih =>
    rw [List.foldl_cons, ih]
    unfold addLit
    dsimp only
    split
    · split <;> rfl
    · rfl

theorem trail_resolve {v : Var} (result : resolve level r v = .ok r') :
    r'.engine.trail = r.engine.trail := by
  unfold resolve at result
  split at result
  · cases result
  · cases result
    exact trail_addLits _ _ _
  · cases result
    exact (trail_addLits _ _ _).trans (Engine.rescored_bumpIfLearnt _ _).trail

namespace Twins

theorem addLit (h : r.Twins M q) (l : Lit) : (addLit level r l).Twins M (addLit level q l) := by
  unfold Resolution.addLit
  dsimp only
  rw [h.engine.trail.levelOf, h.engine.seen, h.engine.branching]
  split
  · have marked := h.engine.mark (r.engine.branching.bump l.var) (r.engine.seen.insert l.var .source)
    split
    · exact ⟨marked, congrArg (· + 1) h.pending, h.lits⟩
    · exact ⟨marked, h.pending, congrArg (·.push l) h.lits⟩
  · exact h

theorem addLits (h : r.Twins M q) (lits : List Lit) :
    (addLits level lits r).Twins M (Resolution.addLits level lits q) := by
  unfold Resolution.addLits
  induction lits generalizing r q with
  | nil => exact h
  | cons l rest ih => exact ih (h.addLit l)

theorem resolve (h : r.Twins M q) {v : Var}
    (reasons : Reason.Twins M (r.engine.trail.reason v) (q.engine.trail.reason v))
    (result : resolve level r v = .ok r') :
    ∃ q', Resolution.resolve level q v = .ok q' ∧ r'.Twins M q' := by
  unfold Resolution.resolve at result ⊢
  generalize r.engine.trail.reason v = why at reasons result
  generalize q.engine.trail.reason v = why' at reasons
  cases reasons with
  | decision => cases result
  | binary other =>
    cases result
    exact ⟨_, rfl, h.addLits [other]⟩
  | @clause a b pair =>
    cases result
    have bumped := h.engine.bumpIfLearnt pair
    have start : Twins M { r with engine := r.engine.bumpIfLearnt a }
        { q with engine := q.engine.bumpIfLearnt b } := ⟨bumped, h.pending, h.lits⟩
    refine ⟨_, rfl, ?_⟩
    rw [bumped.clause pair]
    exact start.addLits _

theorem backward {n k : Nat} (h : r.Twins M q) (coherent : r.engine.trail.Coherent k) {p : Lit}
    {i : Nat} (result : backward level n r = .ok (r', p, i)) :
    ∃ q', Resolution.backward level n q = .ok (q', p, i) ∧ r'.Twins M q' := by
  induction n generalizing r q with
  | zero => cases result
  | succ n ih =>
    unfold Resolution.backward at result ⊢
    rw [h.engine.trail.lits]
    split at result
    · cases result
    next l at_n =>
      dsimp only at result ⊢
      rw [h.engine.seen, h.pending]
      split at result
      next unseen =>
        rw [if_pos unseen]
        exact ih h coherent result
      next seen =>
        rw [if_neg seen]
        split at result
        next last =>
          rw [if_pos last]
          cases result
          exact ⟨_, rfl, h.engine.setSeen p.var .resolved, rfl, h.lits⟩
        next more =>
          rw [if_neg more]
          -- Going on, both resolve with the reason of the same literal, which is the same for twins.
          have passed : Twins M
              { engine := r.engine.setSeen l.var .resolved, pending := r.pending - 1, lits := r.lits }
              { engine := q.engine.setSeen l.var .resolved, pending := r.pending - 1, lits := q.lits } :=
            ⟨h.engine.setSeen l.var .resolved, rfl, h.lits⟩
          split at result
          · cases result
          next r₁ resolved =>
            obtain ⟨q₁, resolved', twins⟩ := passed.resolve
              (passed.engine.reason coherent (Array.mem_of_getElem? at_n)) resolved
            rw [resolved']
            have trail := trail_resolve resolved
            have coherent : r₁.engine.trail.Coherent k := by
              rw [trail]
              exact coherent
            exact ih twins coherent result

end Twins

theorem start_twins {e f : Engine} (h : e.Mates M f) {c c' : Conflict} (twins : c.Twins M c')
    (level : Nat) : (start level e c).Twins M (start level f c') := by
  have initial {e f : Engine} (h : e.Mates M f) :
      Twins M ({ engine := e } : Resolution) { engine := f } := ⟨h, rfl, rfl⟩
  cases twins with
  | binary a b => exact (initial h).addLits [a, b]
  | clause pair =>
    unfold start
    dsimp only
    rw [(h.bumpIfLearnt pair).clause pair]
    exact (initial (h.bumpIfLearnt pair)).addLits _

theorem unmarkResolved_twins {e f : Engine} (h : e.Mates M f) (position : Nat) :
    (unmarkResolved position e).Mates M (unmarkResolved position f) := by
  unfold unmarkResolved
  rw [h.trail.lits]
  generalize e.trail.lits.toList.drop position = lits
  induction lits generalizing e f with
  | nil => exact h
  | cons l rest ih =>
    rw [List.foldl_cons, List.foldl_cons, h.seen]
    split
    · exact ih (h.setSeen l.var .unseen)
    · exact ih h

end Resolution

namespace Engine

variable {e f e' f' : Engine} {aside : List ClauseId}

theorem Examined.inside (h : e.Examined f) (inside : e.Inside) : f.Inside := by
  intro p w member
  rw [h.watches] at member
  rw [h.slots]
  exact inside p w member

theorem Inside.cancelTo (h : e.Inside) (level : Nat) : (e.cancelTo level).Inside := by
  unfold Engine.cancelTo
  split <;> exact h

/-- There was no room in the arena for what was learnt. -/
def Handled.OutOfRoom (h : Handled) : Prop :=
  ∃ requested limit, h = .failed (.arenaExhausted requested limit)

namespace Mates

/-- Twins learn the same clause from twin conflicts. -/
theorem analyze (h : Mates M e f) (sound : e.Sound aside) {c c' : Conflict}
    (conflict : e.IsConflict c) (positive : e.trail.level ≠ 0) (twins : c.Twins M c') {learnt : Learnt}
    (result : e.analyze c = .ok (e', learnt)) :
    ∃ f', f.analyze c' = .ok (f', learnt) ∧ Mates M e' f' := by
  have started := Resolution.start_twins h twins e.trail.level
  obtain ⟨current, marks, contra, waiting⟩ := Resolution.start_marks sound conflict positive
  unfold Engine.analyze at result ⊢
  dsimp only at result ⊢
  rw [h.trail.level, h.trail.size]
  split at result
  · cases result
  next r p i found =>
    -- Both runs resolve backwards to the same position, with twin states.
    have resolved := Resolution.backward_resolved marks sound contra waiting found
    have coherent : (Resolution.start e.trail.level e c).engine.trail.Coherent e.numVars := by
      rw [marks.examined.trail]
      exact sound.trail
    obtain ⟨q, found', ended⟩ := started.backward coherent found
    have mates := Resolution.unmarkResolved_twins ended.engine i
    rw [found']
    dsimp only at result ⊢
    rw [ended.lits]
    obtain ⟨seen, unmarked, -⟩ := Resolution.unmarkResolved_eq r.engine i
    rw [unmarked] at result mates
    generalize Resolution.unmarkResolved i q.engine = g at mates ⊢
    have examined : e.Examined { r.engine with seen } :=
      resolved.examined.trans { Examined.refl r.engine with }
    have coherent : ({ r.engine with seen } : Engine).trail.Coherent e.numVars := by
      rw [examined.trail]
      exact sound.trail
    -- Minimization looks up reasons of literals on the trail only, where both explainers agree.
    have closed := examined.closed sound.closed
    rw [← examined.numVars] at closed
    have inside : ∀ l ∈ r.lits.toList, l.neg ∈ ({ r.engine with seen } : Engine).trail.lits :=
      fun l member => examined.trail ▸ (resolved.lower l (Array.mem_toList_iff.mp member)).1
    have mode : g.opts.minimization = ({ r.engine with seen } : Engine).opts.minimization :=
      mates.opts_eq _ fun _ _ => rfl
    generalize ({ r.engine with seen } : Engine) = k at *
    have same : Minimizer.run g.explainer g.opts.minimization g.numVars g.seen r.lits.toList =
        Minimizer.run k.explainer k.opts.minimization k.numVars k.seen r.lits.toList := by
      rw [mode, mates.numVars, mates.seen, (mates.explainer coherent).run closed _ _ inside]
    rw [same]
    split at result
    · cases result
    next m ran =>
      rw [mates.trail.bringHighest]
      generalize k.trail.bringHighest 1 (#[p.neg] ++ m.kept) = lits at result ⊢
      generalize ((r.lits.toList ++ m.marked).foldl (fun seen l => seen.insert l.var .unseen)
        m.seen).insert p.var .unseen = cleared at result ⊢
      have counted : Mates M { k with seen := cleared } { g with seen := cleared } :=
        { mates with seen := rfl }
      have counted := counted.modifyStats (fun s =>
        { s with
          literalsBefore := s.literalsBefore + r.lits.toList.length + 1
          literalsAfter := s.literalsAfter + lits.size }) fun _ _ => rfl
      cases result
      obtain ⟨same, mates⟩ := counted.countLevels lits.toList
      rw [same, mates.trail.levelOf]
      exact ⟨_, rfl, mates⟩

theorem explainFinal {x y : Explainer} (h : x.Agrees y) (state : DenseMap Var Seen × DenseSet Lit)
    {l : Lit} (member : l ∈ x.trail.lits) :
    Engine.explainFinal y state l = Engine.explainFinal x state l := by
  have marked (seen : DenseMap Var Seen) (q : Lit) :
      markAbove y.trail seen q = markAbove x.trail seen q := by
    unfold markAbove
    rw [h.levels]
  unfold Engine.explainFinal
  rw [h.causes l member, funext fun seen => funext (marked seen)]

/-- Twins find the same core. -/
theorem analyzeFinal (h : Mates M e f) {n : Nat} (coherent : e.trail.Coherent n) (p : Lit) :
    (f.analyzeFinal p).2 = (e.analyzeFinal p).2 ∧
      Mates M (e.analyzeFinal p).1 (f.analyzeFinal p).1 := by
  have agrees := h.explainer coherent
  have same (state : DenseMap Var Seen × DenseSet Lit) :
      ((e.trail.above 0).map Prod.fst).foldl (Engine.explainFinal f.explainer) state =
        ((e.trail.above 0).map Prod.fst).foldl (Engine.explainFinal e.explainer) state := by
    refine List.foldl_ext _ _ _ fun state l member => explainFinal agrees state ?_
    obtain ⟨⟨l, i⟩, above, rfl⟩ := List.mem_map.mp member
    exact Array.mem_of_getElem? (Trail.mem_above_iff.mp above).2
  unfold Engine.analyzeFinal
  dsimp only
  rw [h.trail.level, h.trail.above, h.seen]
  split
  · exact ⟨rfl, h⟩
  · rw [same]
    exact ⟨rfl, { h with seen := rfl }⟩

/-! ### Learning -/

theorem addLearnt (h : Mates M e f) (inside : e.Inside) (inside' : f.Inside) {c : Learnt}
    (result : e.addLearnt c = .ok e') (result' : f.addLearnt c = .ok f') :
    ∃ N, (∀ {x y}, M x y → N x y) ∧ Mates N e' f' := by
  unfold Engine.addLearnt at result result'
  rcases list : c.lits.toList with _ | ⟨l, _ | ⟨other, _ | ⟨third, others⟩⟩⟩
  all_goals
    rw [list] at result result'
    dsimp only at result result'
  case nil =>
    cases result
    cases result'
    exact ⟨M, id, h⟩
  case cons.nil =>
    cases result
    cases result'
    exact ⟨M, id, h.assign l .decision⟩
  case cons.cons.nil =>
    cases result
    cases result'
    exact ⟨M, id, (h.addBinary l other true).assign l (.binary other)⟩
  case cons.cons.cons =>
    split at result
    · cases result
    next a g stored =>
      split at result'
      · cases result'
      next b g' stored' =>
        cases result
        cases result'
        exact ⟨Joined M a b, fun pair => .inl pair,
          (h.storeLearnt inside inside' stored stored').assign l (.clause (.self M a b))⟩

theorem decayActivities (h : Mates M e f) : Mates M e.decayActivities f.decayActivities := by
  have varDecay : f.opts.varDecay = e.opts.varDecay := h.opts_eq _ fun _ _ => rfl
  have clauseDecay : f.opts.clauseDecay = e.opts.clauseDecay := h.opts_eq _ fun _ _ => rfl
  unfold Engine.decayActivities
  rw [varDecay, clauseDecay, h.branching, h.clauseIncrement]
  exact
    { h with
      branching := rfl
      clauseIncrement := rfl }

theorem noteConflict (h : Mates M e f) (lbd trailSize : Nat) :
    Mates M (e.noteConflict lbd trailSize) (f.noteConflict lbd trailSize) := by
  have conflicts : f.stats.conflicts = e.stats.conflicts := by rw [h.stats]
  have noted : f.policy.noteConflict f.opts f.stats.conflicts lbd trailSize =
      e.policy.noteConflict e.opts e.stats.conflicts lbd trailSize := by
    rw [h.policy, conflicts]
    exact h.opts_eq (fun o => e.policy.noteConflict o e.stats.conflicts lbd trailSize) fun _ _ => rfl
  unfold Engine.noteConflict
  rw [noted]
  generalize e.policy.noteConflict e.opts e.stats.conflicts lbd trailSize = r
  obtain ⟨policy, blocked⟩ := r
  have noted : Mates M { e with policy } { f with policy } := { h with policy := rfl }
  dsimp only
  split
  · exact noted.modifyStats _ fun _ _ => rfl
  · exact noted

/-- Unless one of them runs out of space, twins learn from a conflict alike. -/
theorem handleConflict (h : Mates M e f) (sound : e.Sound aside) (sound' : f.Sound aside)
    {c c' : Conflict} (conflict : e.IsConflict c) (conflict' : f.IsConflict c')
    (positive : e.trail.level ≠ 0) (twins : c.Twins M c') {handled : Handled}
    (result : e.handleConflict c = .ok (handled, e')) :
    ∃ handled' f', f.handleConflict c' = .ok (handled', f') ∧
      (handled.OutOfRoom ∨ handled'.OutOfRoom ∨
        handled' = handled ∧ ∃ N, (∀ {x y}, M x y → N x y) ∧ Mates N e' f') := by
  have level := h.trail.level
  unfold Engine.handleConflict at result ⊢
  dsimp only at result ⊢
  rw [h.trail.size]
  split at result
  · cases result
  next g learnt analyzed =>
    obtain ⟨g', analyzed', mates⟩ := h.analyze sound conflict positive twins analyzed
    obtain ⟨examined, -⟩ := analyze_teaches sound conflict positive analyzed
    obtain ⟨examined', -⟩ := analyze_teaches sound' conflict' (level ▸ positive) analyzed'
    have inside := (examined.inside sound.inside).cancelTo learnt.level
    have inside' := (examined'.inside sound'.inside).cancelTo learnt.level
    have back := mates.cancelTo learnt.level
    rw [analyzed']
    dsimp only
    -- Twins learn the same clause, so that it is too large for both or for neither.
    rcases Nat.lt_or_ge Header.maxSize learnt.lits.size with large | fits
    · rw [addLearnt_of_large large] at result ⊢
      cases result
      exact ⟨_, _, rfl, .inr (.inr ⟨rfl, M, id, back⟩)⟩
    have full {x : Engine} {err : SolverError} (failed : x.addLearnt learnt = .error err) :
        ∃ requested limit, err = .arenaExhausted requested limit :=
      (addLearnt_error_cases failed).resolve_right fun large => Nat.not_lt_of_le fits large.1
    -- Their arenas are filled differently, and one may be full when the other is not.
    cases added : (g.cancelTo learnt.level).addLearnt learnt <;>
      cases added' : (g'.cancelTo learnt.level).addLearnt learnt
    all_goals
      rw [added] at result
      cases result
    · obtain ⟨requested, limit, rfl⟩ := full added
      exact ⟨_, _, rfl, .inl ⟨requested, limit, rfl⟩⟩
    · obtain ⟨requested, limit, rfl⟩ := full added
      exact ⟨_, _, rfl, .inl ⟨requested, limit, rfl⟩⟩
    · obtain ⟨requested, limit, rfl⟩ := full added'
      exact ⟨_, _, rfl, .inr (.inl ⟨requested, limit, rfl⟩)⟩
    · obtain ⟨N, more, mates⟩ := back.addLearnt inside inside' added added'
      exact ⟨_, _, rfl, .inr (.inr ⟨rfl, N, more, mates.decayActivities.noteConflict _ _⟩)⟩

end Mates

end Engine

end Cdcl
