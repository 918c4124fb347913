import Cdcl.Proofs.ClauseBooks
import Cdcl.Proofs.RecentClauses

/-!
# The consistency check

The check of what the search relies on passes for the trail, for the original clauses, for the frozen
ones and for their number. Learnt clauses that take part in propagation are watched, but a literal that one
of them is watched for may be false if the clause was frozen before: nothing else can fail the check.

## Main results

- `Sound.checkTrail`: levels and reasons pass.
- `Orderly.checkFrozen`: so does a frozen clause.
- `check_of_reached`: what passes in every state that is reached without a contradiction.
-/

namespace Cdcl

namespace Engine

variable {F : List (List Lit)} {aside : List ClauseId} {e : Engine} {id : ClauseId} {l : Lit}

/-! ### The trail -/

/-- The level of a position is found from that of an earlier one. -/
theorem levelAt_eq (coherent : e.trail.Coherent e.numVars) (position : Nat) {level n : Nat}
    (reached : level ≤ e.trail.levelAt position) (enough : e.trail.level ≤ level + n) :
    levelAt e.trail.marks position level n = e.trail.levelAt position := by
  have le := e.trail.levelAt_le position
  induction n generalizing level with
  | zero => exact (show level = _ by omega)
  | succ n ih =>
    by_cases below : level < e.trail.level
    · have some_ : e.trail.marks[level]? = some (e.trail.startAbove level) :=
        (Array.getElem?_eq_getElem below).trans (congrArg some (Trail.startAbove_of_lt below).symm)
      have later := coherent.levelAt_le_iff below position
      simp only [levelAt, some_]
      split
      next => exact ih (by omega) (by omega)
      next => omega
    · have none_ : e.trail.marks[level]? = none := Array.getElem?_eq_none (Nat.le_of_not_lt below)
      simp only [levelAt, none_]
      omega

section Sound

variable (h : e.Sound aside)
include h

theorem Sound.isFalseUpTo_of_before {i : Nat} {q : Lit} (before : e.trail.Before i q.neg) :
    e.isFalseUpTo (e.trail.levelAt i) q = true := by
  obtain ⟨j, below, at_j⟩ := before
  have level := h.trail.level_eq at_j
  rw [Lit.var_neg] at level
  rw [isFalseUpTo, Bool.and_eq_true, decide_eq_true_iff, level]
  exact ⟨(h.trail.isFalse_iff q).mpr (Array.mem_of_getElem? at_j), e.trail.levelAt_mono (by omega)⟩

theorem Sound.checkReason {i : Nat} (at_i : e.trail.lits[i]? = some l) :
    e.checkReason (e.trail.levelAt i) l = true := by
  have explained := h.justified at_i
  unfold Engine.checkReason
  split
  next => rfl
  next other why =>
    rw [why] at explained
    exact h.isFalseUpTo_of_before explained.2.before
  next id why =>
    rw [why] at explained
    obtain ⟨attached, first, before, -⟩ := explained
    have used := isRemoved_of_isAttached attached
    dsimp only
    rw [used, first, Bool.not_false, BEq.rfl, Bool.true_and, Bool.true_and]
    exact List.all_eq_true.mpr fun q member => h.isFalseUpTo_of_before (before q member)

/-- Levels and reasons along the trail pass the check. -/
theorem Sound.checkTrail : e.checkTrail = true := by
  -- The check carries the level of the last position along.
  suffices rest : ∀ (ls : List Lit) {n level : Nat}, ls = e.trail.lits.toList.drop n →
      level ≤ e.trail.levelAt n → e.checkTrailFrom ls n level = true from
    rest _ rfl (Nat.zero_le _)
  intro ls
  induction ls with
  | nil => exact fun _ _ => rfl
  | cons l ls ih =>
    intro n level rest reached
    have at_n : e.trail.lits[n]? = some l := by
      rw [← Array.getElem?_toList, ← List.head?_drop, ← rest]
      rfl
    have after : ls = e.trail.lits.toList.drop (n + 1) := by
      rw [← List.tail_drop, ← rest]
      rfl
    have here := levelAt_eq h.trail n reached (Nat.le_add_left _ _)
    have holds := (h.trail.isTrue_iff l).mpr (Array.mem_of_getElem? at_n)
    have level := h.trail.level_eq at_n
    unfold checkTrailFrom
    dsimp only
    rw [show levelAt e.trail.marks n _ e.trail.marks.size = _ from here, holds, level, BEq.rfl,
      h.checkReason at_n, ih after (e.trail.levelAt_mono (Nat.le_succ n))]
    rfl

/-! ### Clauses -/

/-- A clause that takes part in propagation is watched for its first two literals. -/
theorem Sound.watches (attached : (e.clause id).isAttached = true) (apart : id ∉ aside) {w : Lit}
    (watched : e.Watched id w) : e.watches.watches id w.neg = true := by
  have some_ : 0 < entriesOf id (e.watches.long.get w.neg) := by
    rw [h.tracked.exact id attached apart, Clause.watchCount,
      if_pos (watched.imp (congrArg Lit.neg) (congrArg Lit.neg))]
    exact Nat.one_pos
  obtain ⟨x, member, same⟩ := entriesOf_pos_iff.mp some_
  exact Array.any_eq_true'.mpr ⟨x, member, beq_iff_eq.mpr same⟩

end Sound

/-- An original clause passes the check. -/
theorem Settled.checkClause (h : e.Settled F) (member : id ∈ e.originals) : e.checkClause id = true := by
  obtain ⟨pairs, faithful⟩ := h.faithful
  have sound := faithful.sound
  obtain ⟨attached, apart⟩ := faithful.guarded.clauses id (Array.mem_toList_iff.mpr member)
  -- A watch that was visited while false belongs to a clause with a true literal.
  have covered {w : Lit} (watched : e.Watched id w) (done : e.trail.isPropagated = true)
      (fails : e.trail.isFalse w = true) : e.isSatisfied id = true := by
    have visited : e.trail.Before e.trail.head w.neg := by
      rw [eq_of_beq done]
      exact Trail.mem_iff_before.mp ((sound.trail.isFalse_iff w).mp fails)
    obtain ⟨q, inside, holds, -⟩ :=
      faithful.guards.clauses id (Array.mem_toList_iff.mpr member) w watched visited
    exact Array.any_eq_true'.mpr ⟨q, inside, holds⟩
  unfold Engine.checkClause
  dsimp only
  rw [isRemoved_of_isAttached attached, isFrozen_of_isAttached attached, if_neg nofun, if_neg nofun,
    sound.watches attached apart (.inl rfl), sound.watches attached apart (.inr rfl), Bool.true_and,
    Bool.true_and, Bool.not_eq_true', Bool.eq_false_iff]
  intro fails
  simp only [Bool.and_eq_true, Bool.or_eq_true, Bool.not_eq_true'] at fails
  obtain ⟨⟨done, either⟩, unsatisfied⟩ := fails
  have satisfied : e.isSatisfied id = true := either.elim (covered (.inl rfl) done) (covered (.inr rfl) done)
  exact absurd (satisfied.symm.trans unsatisfied) nofun

/-- The check looks for false watches of a clause that is watched for its first two literals. -/
theorem checkClause_iff (attached : (e.clause id).isAttached = true)
    (first : e.watches.watches id ((e.clause id).lit 0).neg = true)
    (second : e.watches.watches id ((e.clause id).lit 1).neg = true) :
    e.checkClause id = true ↔ (e.trail.isPropagated = true →
      e.trail.isFalse ((e.clause id).lit 0) = true ∨ e.trail.isFalse ((e.clause id).lit 1) = true →
        e.isSatisfied id = true) := by
  unfold checkClause
  dsimp only
  rw [isRemoved_of_isAttached attached, isFrozen_of_isAttached attached, if_neg nofun, if_neg nofun,
    first, second]
  cases e.trail.isPropagated <;> cases e.isSatisfied id <;> simp

/-- A frozen clause passes the check. -/
theorem Orderly.checkFrozen (h : e.Orderly) (used : (e.clause id).isRemoved = false)
    (frozen : (e.clause id).isFrozen = true) : e.checkClause id = true := by
  obtain ⟨⟨l, inside, once, -⟩, -⟩ := h.watchesMatch.frozen id used frozen
  obtain ⟨x, member, same⟩ := entriesOf_pos_iff.mp (show 0 < entriesOf id (e.watches.frozen.get l.neg) by omega)
  unfold checkClause
  dsimp only
  rw [used, frozen, if_neg nofun, if_pos rfl]
  exact Array.any_eq_true'.mpr ⟨l, inside, Array.any_eq_true'.mpr ⟨x, member, beq_iff_eq.mpr same⟩⟩

/-- The frozen clauses are as many as the check counts. -/
theorem Orderly.countP_frozen (h : e.Orderly) :
    (e.originals.toList ++ e.learnts.toList).countP (fun id => (e.clause id).isFrozen) = e.tally.frozen := by
  have books := h.booksMatch
  have none : e.originals.toList.countP (fun id => (e.clause id).isFrozen) = 0 := by
    refine List.countP_eq_zero.mpr fun id member frozen => ?_
    have original := ((books.original id).mp (Array.mem_toList_iff.mp member)).2
    exact nomatch original.symm.trans (Clause.isLearnt_of_isFrozen frozen)
  rw [List.countP_append, none, Nat.zero_add, books.frozen]

end Engine

namespace Solver

open Engine

variable {F : List (List Lit)} {s : Solver}

/-- In every state that is reached without a contradiction, levels, reasons, original and frozen clauses pass
the check, and so does the number of frozen clauses. The other learnt clauses are in use and watched. They
may be watched for false literals, which is all that can fail the check: a clause that is thawed above level
zero may be one of which a single literal was left there. -/
theorem check_of_reached (h : Reached F s) (ok : s.engine.ok = true) :
    s.engine.checkTrail = true ∧ (∀ id ∈ s.engine.originals, s.engine.checkClause id = true) ∧
      (∀ id ∈ s.engine.learnts, (s.engine.clause id).isRemoved = false ∧
        ((s.engine.clause id).isFrozen = false →
          s.engine.watches.watches id ((s.engine.clause id).lit 0).neg = true ∧
          s.engine.watches.watches id ((s.engine.clause id).lit 1).neg = true) ∧
        ((s.engine.clause id).isFrozen = true → s.engine.checkClause id = true)) ∧
      (s.engine.originals.toList ++ s.engine.learnts.toList).countP
        (fun id => (s.engine.clause id).isFrozen) = s.engine.tally.frozen ∧
      (s.checkInvariants = true ↔ ∀ id ∈ s.engine.learnts, (s.engine.clause id).isFrozen = false →
        s.engine.trail.isPropagated = true →
          s.engine.trail.isFalse ((s.engine.clause id).lit 0) = true ∨
            s.engine.trail.isFalse ((s.engine.clause id).lit 1) = true →
          s.engine.isSatisfied id = true) := by
  have settled := h.settled ok
  obtain ⟨pairs, faithful⟩ := settled.faithful
  have orderly : s.engine.Orderly := (Pause.reached h).orderly
  have originals (id : ClauseId) (member : id ∈ s.engine.originals) := settled.checkClause member
  have used (id : ClauseId) (member : id ∈ s.engine.learnts) : (s.engine.clause id).isRemoved = false :=
    (faithful.listed.learnt id (Array.mem_toList_iff.mpr member)).1
  have attached (id : ClauseId) (member : id ∈ s.engine.learnts)
      (working : (s.engine.clause id).isFrozen = false) : (s.engine.clause id).isAttached = true :=
    isAttached_iff.mpr ⟨used id member, working⟩
  have watches {id : ClauseId} (attached : (s.engine.clause id).isAttached = true) {w : Lit}
      (watched : s.engine.Watched id w) := faithful.sound.watches attached List.not_mem_nil watched
  refine ⟨faithful.sound.checkTrail, originals, fun id member => ⟨used id member, fun working => ?_,
    orderly.checkFrozen (used id member)⟩, orderly.countP_frozen, ?_⟩
  · have here := attached id member working
    exact ⟨watches here (.inl rfl), watches here (.inr rfl)⟩
  · unfold checkInvariants check
    dsimp only
    rw [faithful.sound.checkTrail, orderly.countP_frozen, BEq.rfl, Bool.true_and, Bool.and_true,
      List.all_append, List.all_eq_true.mpr fun id member => originals id (Array.mem_toList_iff.mp member),
      Bool.true_and, List.all_eq_true]
    -- All that the check asks holds, but for the values of the watched literals of a learnt clause in use.
    refine forall_congr' fun id => ?_
    rw [Array.mem_toList_iff]
    refine imp_congr_right fun member => ?_
    cases frozen : (s.engine.clause id).isFrozen with
    | true => exact iff_of_true (orderly.checkFrozen (used id member) frozen) nofun
    | false =>
      have here := attached id member frozen
      rw [checkClause_iff here (watches here (.inl rfl)) (watches here (.inr rfl))]
      exact ⟨fun passes _ => passes, fun passes => passes rfl⟩

/-- After two solves that learnt a fact and four clauses, one of which is frozen. -/
theorem check_of_reached_graded : ∃ s, Reached gradedClauses s ∧ s.engine.ok = true ∧
    s.engine.trail.lits = #[.ofDimacs (-8)] ∧ s.engine.checkTrail = true ∧
    s.engine.learnts.toList = [⟨7⟩, ⟨8⟩, ⟨9⟩, ⟨10⟩] ∧
    (∀ id ∈ s.engine.originals, s.engine.checkClause id = true) ∧
    (s.engine.clause ⟨7⟩).isFrozen = true ∧ s.engine.checkClause ⟨7⟩ = true ∧
    s.engine.watches.watches ⟨8⟩ ((s.engine.clause ⟨8⟩).lit 0).neg = true ∧
    (s.engine.trail.isPropagated = true → s.engine.trail.isFalse ((s.engine.clause ⟨8⟩).lit 0) = true →
      s.engine.isSatisfied ⟨8⟩ = true) := by
  obtain ⟨s, history, ok, passes, trail, older, recents, -, ⟨frozen, -⟩, ⟨working, -⟩, -⟩ := exists_graded
  have listed : s.engine.learnts.toList = [⟨7⟩, ⟨8⟩, ⟨9⟩, ⟨10⟩] := by
    rw [← s.engine.older_append_recents, older, recents]
    rfl
  have member (id : ClauseId) (inside : id ∈ [(⟨7⟩ : ClauseId), ⟨8⟩, ⟨9⟩, ⟨10⟩]) :
      id ∈ s.engine.learnts := Array.mem_toList_iff.mp (listed ▸ inside)
  obtain ⟨levels, originals, learnts, -, exact⟩ := check_of_reached (.rest history) ok
  exact ⟨s, .rest history, ok, trail, levels, listed, originals, frozen,
    (learnts ⟨7⟩ (member _ (by decide))).2.2 frozen,
    ((learnts ⟨8⟩ (member _ (by decide))).2.1 working).1,
    fun done fails => exact.mp passes ⟨8⟩ (member _ (by decide)) working done (.inl fails)⟩

end Solver

end Cdcl
