import Cdcl.Proofs.Sessions
import Cdcl.Proofs.TwinSearch

/-!
# Questions to twins

Whatever twins are asked, they give the same answer, except for what they know of compactions: the
count of them, and the line of the summary that has it. The bytes that a solver takes rest on how much room
its vectors have, which need not be the same for both.

## Main results

- `Mates.check`: the consistency check comes to the same for both.
- `Twins.ask`: the answers of twins agree.
-/

namespace Cdcl

namespace Engine

variable {M : ClauseId → ClauseId → Prop} {e f : Engine} {a b : ClauseId}

/-! ### Lists of clauses that stand for each other -/

theorem forall₂_all {α : Type} {R : α → α → Prop} {p q : α → Bool} {xs ys : List α}
    (h : List.Forall₂ R xs ys) (agree : ∀ x y, R x y → q y = p x) : ys.all q = xs.all p := by
  induction h with
  | nil => rfl
  | cons pair _ ih => rw [List.all_cons, List.all_cons, agree _ _ pair, ih]

theorem forall₂_any {α : Type} {R : α → α → Prop} {p q : α → Bool} {xs ys : List α}
    (h : List.Forall₂ R xs ys) (agree : ∀ x y, R x y → q y = p x) : ys.any q = xs.any p := by
  induction h with
  | nil => rfl
  | cons pair _ ih => rw [List.any_cons, List.any_cons, agree _ _ pair, ih]

theorem forall₂_countP {α : Type} {R : α → α → Prop} {p q : α → Bool} {xs ys : List α}
    (h : List.Forall₂ R xs ys) (agree : ∀ x y, R x y → p x = q y) : ys.countP q = xs.countP p := by
  rw [List.countP_eq_length_filter, List.countP_eq_length_filter]
  exact (forall₂_filter h agree).length_eq.symm

namespace Mates

/-! ### The consistency check -/

theorem isFalseUpTo (h : Mates M e f) (level : Nat) : f.isFalseUpTo level = e.isFalseUpTo level := by
  funext l
  unfold Engine.isFalseUpTo
  rw [h.trail.isFalse, h.trail.levelOf]

theorem checkReason (h : Mates M e f) (level : Nat) {l : Lit}
    (reasons : Reason.Twins M (e.trail.reason l.var) (f.trail.reason l.var)) :
    f.checkReason level l = e.checkReason level l := by
  unfold Engine.checkReason
  rw [h.isFalseUpTo]
  generalize e.trail.reason l.var = why at reasons ⊢
  generalize f.trail.reason l.var = why' at reasons ⊢
  cases reasons with
  | decision => rfl
  | binary => rfl
  | clause pair =>
    dsimp only
    rw [h.clause pair]

theorem checkTrailFrom (h : Mates M e f) {n : Nat} (coherent : e.trail.Coherent n) (lits : List Lit)
    (position level : Nat) (member : ∀ l ∈ lits, l ∈ e.trail.lits) :
    f.checkTrailFrom lits position level = e.checkTrailFrom lits position level := by
  induction lits generalizing position level with
  | nil => rfl
  | cons l rest ih =>
    unfold Engine.checkTrailFrom
    dsimp only
    rw [h.trail.isTrue, h.trail.levelOf, h.trail.marks,
      h.checkReason _ (h.reason coherent (member l List.mem_cons_self)),
      ih _ _ fun k inside => member k (List.mem_cons_of_mem l inside)]

theorem checkTrail (h : Mates M e f) {n : Nat} (coherent : e.trail.Coherent n) :
    f.checkTrail = e.checkTrail := by
  unfold Engine.checkTrail
  rw [h.trail.lits]
  exact h.checkTrailFrom coherent _ 0 0 fun l member => Array.mem_toList_iff.mp member

theorem any_clause (h : Mates M e f) (pair : M a b) {ws ws' : List Watcher}
    (twins : List.Forall₂ (Watcher.Twins M) ws ws') :
    (ws'.any fun w => w.clause == b) = ws.any fun w => w.clause == a :=
  forall₂_any twins fun x y entry => by
    rw [Bool.eq_iff_iff, beq_iff_eq, beq_iff_eq]
    exact (h.eq_iff entry.pair pair).symm

end Mates

/-- Only entries of the clause itself matter. -/
theorem any_clause_filter {ws : List Watcher} {p : Watcher → Bool}
    (holds : ∀ w ∈ ws, w.clause = a → p w = true) :
    ((ws.filter p).any fun w => w.clause == a) = ws.any fun w => w.clause == a := by
  rw [Bool.eq_iff_iff, List.any_eq_true, List.any_eq_true]
  constructor
  · rintro ⟨w, inside, same⟩
    exact ⟨w, (List.mem_filter.mp inside).1, same⟩
  · rintro ⟨w, inside, same⟩
    exact ⟨w, List.mem_filter.mpr ⟨inside, holds w inside (eq_of_beq same)⟩, same⟩

theorem watches_eq (attached : (e.clause a).isAttached = true) (p : Lit) :
    e.watches.watches a p = (e.working p).any fun w => w.clause == a := by
  unfold Watches.watches working
  rw [any_clause_filter, Array.any_toList]
  rintro w - rfl
  exact attached

theorem watchesFrozen_eq (dormant : (e.clause a).isDormant = true) (p : Lit) :
    e.watches.watchesFrozen a p = (e.dormant p).any fun w => w.clause == a := by
  unfold Watches.watchesFrozen Engine.dormant
  rw [any_clause_filter, Array.any_toList]
  rintro w - rfl
  exact dormant

namespace Twins

theorem checkClause (h : Twins M e f) (pair : M a b) : f.checkClause b = e.checkClause a := by
  unfold Engine.checkClause
  dsimp only
  rw [h.clause pair, h.isSatisfied pair, h.trail.isFalse, h.trail.isPropagated]
  split
  · rfl
  next used =>
    have used : (e.clause a).isRemoved = false := Bool.eq_false_iff.mpr used
    split
    next frozen =>
      have dormant : (e.clause a).isDormant = true := by rw [Clause.isDormant, used, frozen]; rfl
      refine congrArg (Array.any _ · 0 _) (funext fun l => ?_)
      rw [watchesFrozen_eq dormant, watchesFrozen_eq (h.clause pair ▸ dormant),
        h.any_clause pair (h.frozen l.neg)]
    next thawed =>
      have attached : (e.clause a).isAttached = true :=
        isAttached_iff.mpr ⟨used, Bool.eq_false_iff.mpr thawed⟩
      have attached' : (f.clause b).isAttached = true := h.clause pair ▸ attached
      rw [watches_eq attached, watches_eq attached, watches_eq attached', watches_eq attached',
        h.any_clause pair (h.long _), h.any_clause pair (h.long _)]

theorem check (h : Twins M e f) {n : Nat} (coherent : e.trail.Coherent n) : f.check = e.check := by
  have pairs := List.rel_append h.originals h.learnts
  unfold Engine.check
  dsimp only
  rw [h.checkTrail coherent, h.tally, forall₂_all pairs fun a b pair => h.checkClause pair,
    forall₂_countP pairs fun a b pair => by rw [h.clause pair]]

end Twins

end Engine

/-! ### Answers -/

/-- Calls that are the same but for how much room vectors have. -/
inductive Call.Alike : Call → Call → Prop where
  | same (c : Call) : Alike c c
  | footprint (held held' : Solver.Holdings) : Alike (.ask (.footprint held)) (.ask (.footprint held'))
  | report (held held' : Solver.Holdings) : Alike (.ask (.report held)) (.ask (.report held'))

/-- Answers to two calls that are the same but for what they tell of compactions, and of the room that
vectors have. -/
inductive Answer.Agrees : Call → Call → Answer → Answer → Prop where
  | same {c : Call} (a : Answer) : Agrees c c a a
  | statistics (s : Statistics) (n : Nat) :
    Agrees (.ask .statistics) (.ask .statistics) (.statistics s) (.statistics { s with compactions := n })
  | events {es es' : List Event}
    (told : es'.filter (!·.isCompaction) = es.filter (!·.isCompaction)) :
    Agrees (.obey .takeEvents) (.obey .takeEvents) (.events es) (.events es')
  /-- Lines of a summary, one of which counts compactions. -/
  | summary (before after : List String) (n m : Nat) :
    Agrees (.ask .summary) (.ask .summary)
      (.lines (before ++ Solver.summaryLine "compactions" n "" :: after))
      (.lines (before ++ Solver.summaryLine "compactions" m "" :: after))
  /-- The bytes taken by the same solver, its vectors having more room or less. -/
  | footprint (s : Solver) (held held' : Solver.Holdings) :
    Agrees (.ask (.footprint held)) (.ask (.footprint held')) (.number (s.footprint held))
      (.number (s.footprint held'))
  /-- The last line of the summary tells the bytes taken. -/
  | report (before after : List String) (n m : Nat) (s : Solver) (held held' : Solver.Holdings) :
    Agrees (.ask (.report held)) (.ask (.report held'))
      (.lines (before ++ Solver.summaryLine "compactions" n "" :: after ++
        [Solver.summaryLine "memory footprint" (s.footprint held) "bytes"]))
      (.lines (before ++ Solver.summaryLine "compactions" m "" :: after ++
        [Solver.summaryLine "memory footprint" (s.footprint held') "bytes"]))

namespace Solver

variable {s t : Solver}

namespace Twins

theorem factValue (h : s.Twins t) (l : Lit) : t.factValue l = s.factValue l := by
  obtain ⟨M, engines⟩ := h.engine
  unfold Solver.factValue
  rw [h.checkLit, engines.trail.factValue]

theorem varLevel (h : s.Twins t) (v : Var) : t.varLevel v = s.varLevel v := by
  obtain ⟨M, engines⟩ := h.engine
  unfold Solver.varLevel
  rw [h.checkVar, engines.trail.isUnassigned, engines.trail.levelOf]

theorem coreHasVar (h : s.Twins t) (v : Var) : t.coreHasVar v = s.coreHasVar v := by
  unfold Solver.coreHasVar
  rw [h.core]

theorem learntClauses (h : s.Twins t) : t.learntClauses = s.learntClauses := by
  obtain ⟨M, engines⟩ := h.engine
  unfold Solver.learntClauses
  have pairs := engines.learnts
  generalize s.engine.learnts.toList = ids at pairs ⊢
  generalize t.engine.learnts.toList = ids' at pairs ⊢
  induction pairs with
  | nil => rfl
  | cons pair _ ih => rw [List.map_cons, List.map_cons, engines.clause pair, ih]

theorem satisfiesStored (h : s.Twins t) : t.satisfiesStored = s.satisfiesStored := by
  obtain ⟨M, engines⟩ := h.engine
  unfold Solver.satisfiesStored
  dsimp only
  rw [h.model, engines.binary, engines.trail.facts, ← Array.all_toList, ← Array.all_toList,
    Engine.forall₂_all engines.originals fun a b pair => by rw [engines.clause pair]]

theorem validate (h : s.Twins t) : t.validate = s.validate := by
  obtain ⟨M, engines⟩ := h.engine
  have keeps : t.engine.opts.keepOriginals = s.engine.opts.keepOriginals :=
    engines.opts_eq Options.keepOriginals fun _ _ => rfl
  unfold Solver.validate
  rw [h.status, keeps, h.model, h.given, h.satisfiesStored]

theorem counts (h : s.Twins t) : t.counts = s.counts := by
  obtain ⟨M, engines⟩ := h.engine
  unfold Solver.counts Solver.numClauses Solver.numLearnts Solver.numBinary
  dsimp only
  rw [engines.numVars, engines.tally, engines.trail.size, engines.trail.level]
  exact engines.stats_eq (fun st => _ :: _ :: _ :: _ :: _ :: _ :: _ :: st.conflicts ::
    st.propagations :: st.decisions :: st.restarts :: [st.reductions]) fun _ _ => rfl

/-- The summaries of twins differ in one line at most. -/
theorem summary (h : s.Twins t) : ∃ before after n m,
    s.summary = before ++ summaryLine "compactions" n "" :: after ∧
      t.summary = before ++ summaryLine "compactions" m "" :: after := by
  obtain ⟨M, engines⟩ := h.engine
  unfold Solver.summary
  dsimp only
  rw [engines.tally, engines.stats]
  exact ⟨[_, _, _, _, _, _, _, _, _], [_, _, _], _, _, rfl, rfl⟩

theorem footprint (h : s.Twins t) : t.footprint = s.footprint := by
  obtain ⟨M, engines⟩ := h.engine
  funext held
  unfold Solver.footprint
  rw [engines.numVars]

theorem report (h : s.Twins t) (held held' : Holdings) :
    Answer.Agrees (.ask (.report held)) (.ask (.report held')) (.lines (s.report held))
      (.lines (t.report held')) := by
  obtain ⟨before, after, n, m, left, right⟩ := h.summary
  unfold Solver.report
  rw [left, right, h.footprint]
  exact .report before after n m s held held'

/-- The answers of twins to the same question agree. -/
theorem ask (h : s.Twins t) {n : Nat} (coherent : s.engine.trail.Coherent n) (q : Question) :
    Answer.Agrees (.ask q) (.ask q) (s.ask q) (t.ask q) := by
  obtain ⟨M, engines⟩ := h.engine
  cases q with
  | statistics =>
    unfold Solver.ask
    rw [engines.stats]
    exact .statistics _ _
  | summary =>
    obtain ⟨before, after, n, m, left, right⟩ := h.summary
    unfold Solver.ask
    rw [left, right]
    exact .summary before after n m
  | report held => exact h.report held held
  | checkInvariants =>
    have checked : t.ask .checkInvariants = s.ask .checkInvariants :=
      congrArg Answer.boolean (engines.check coherent)
    rw [checked]
    exact .same _
  | restartPolicy =>
    have policy : t.ask .restartPolicy = s.ask .restartPolicy :=
      congrArg Answer.policy (engines.opts_eq Options.restarts fun _ _ => rfl)
    rw [policy]
    exact .same _
  | _ =>
    simp only [Solver.ask, h.assumptions, h.interrupted, h.status, engines.ok, h.model, h.factValue,
      h.varLevel, h.core, engines.trail.facts, h.coreHasVar, h.learntClauses, h.given,
      engines.lbdCounts, h.validate, h.counts, h.footprint]
    exact .same _

end Twins

end Solver

end Cdcl
