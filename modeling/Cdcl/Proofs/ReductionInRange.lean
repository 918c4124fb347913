import Cdcl.Proofs.SimplificationInRange

/-!
# Reduction in range

A reduction looks at every older learnt clause, cleans the watch lists that are dirty, puts frozen clauses
back to work, and goes through all learnt clauses that are left to watch the frozen ones anew.

## Main results

- `Settled.reduce_inRange`: every access of a reduction is in range, and none of the counts goes below
  zero.
-/

namespace Cdcl

theorem Policy.windows_deviation (p : Policy) (moved assigned : Nat) :
    (p.deviation moved assigned).2.lbdWindow = p.lbdWindow ∧
      (p.deviation moved assigned).2.trailWindow = p.trailWindow := by
  obtain ⟨minDeviation, same⟩ := Engine.exists_deviation_eq p moved assigned
  rw [same]
  exact ⟨rfl, rfl⟩

namespace Engine

variable {F : List (List Lit)} {e f b c : Engine} {id : ClauseId} {os rest ids : List ClauseId}
  {pairs : List (Lit × Lit)} {L : Ledger} {m half median : Nat} {deviation : Float}

/-! ### What a reduction looks up -/

/-- The frozen clause can be put back to work. It is not false, unless the clauses that were given are
contradictory. -/
structure ThawInRange (F : List (List Lit)) (e : Engine) (id : ClauseId) : Prop where
  reads : e.Reads id
  counted : 0 < e.tally.frozen
  unfalsified : ∀ σ : Valuation, σ.satisfies F →
    ∃ l ∈ (e.clause id).lits, e.trail.isFalse l = false

/-- All dirty lists can be cleaned. -/
def SweepInRange (e : Engine) : Prop := ∀ key ∈ e.watches.dirtyKeys, e.CleanInRange key

structure ReduceInRange (F : List (List Lit)) (e : Engine) : Prop where
  zero : e.trail.level = 0
  phases : e.branching.polarity.size ≤ e.branching.referencePolarity.size
  ranked : e.LearntsInRange
  judged : Throughout (reduceClause (e.ranked.length / 2) e.lbdMedian e.appraised.1)
    (fun r entry => r.engine.ClauseInRange entry.1) { engine := e.appraised.2 } e.ranked.zipIdx
  swept : e.survived.SweepInRange
  thawed : Throughout thawClause (ThawInRange F)
    (e.survived.modifyWatches (·.cleanAll e.survived.arena)) e.judged.thawing.toList
  rewatched : ∀ id ∈ e.awakened.learnts, e.awakened.Reads id

theorem Equipped.sweepInRange (h : e.Equipped)
    (inside : ∀ p, ∀ w ∈ e.watches.long.get p, w.clause.slot < e.arena.clauses.size) :
    e.SweepInRange := fun key member => ⟨h.watches.has (h.watches.listed key member), inside key⟩

/-! ### Slots stay during a reduction -/

theorem Equipped.appraised (h : e.Equipped) : e.appraised.2.Equipped := by
  obtain ⟨lbdWindow, trailWindow⟩ :=
    e.policy.windows_deviation e.branching.movedPhases e.branching.assignedInEpoch
  exact { h with
    branching := h.branching.newEpoch
    lbdWindow := lbdWindow.symm ▸ h.lbdWindow
    trailWindow := trailWindow.symm ▸ h.trailWindow }

theorem Equipped.freezeClause (h : e.Equipped) (proper : (e.clause id).Proper e.numVars) :
    (e.freezeClause id).Equipped := { h.detachLater proper with }

theorem Equipped.reduceClause {r : ReductionState} (h : r.engine.Equipped)
    (proper : (r.engine.clause id).Proper r.engine.numVars)
    (used : (r.engine.clause id).isRemoved = false) (half median i : Nat) (deviation : Float) :
    (reduceClause half median deviation r (id, i)).engine.Equipped := by
  unfold Engine.reduceClause
  dsimp only
  split
  · exact { h.removeClause proper with }
  · have counted := h.modifyClause id fun c => c.setFreezeCount (c.freezeCount + 1)
    split
    · exact counted
    · refine counted.freezeClause ?_
      rw [clause_modifyClause used, if_pos rfl]
      exact proper.of_perm (.refl _) rfl
  · exact h

theorem Equipped.thawClause (h : e.Equipped) (proper : (e.clause id).Proper e.numVars) :
    (e.thawClause id).Equipped := by
  have thaws (lits : Array Lit) : (e.thawedAs id lits).Equipped := by
    unfold thawedAs
    exact { h with watches := h.watches.watch _ _ _ }
  generalize result : e.thawClause id = f
  cases thawClause_cases result with
  | attached => exact thaws _
  | @unit lits brought =>
    -- The literals only changed places, so that the first is one of the clause, which is known.
    obtain ⟨perm, -⟩ := bringNonFalse_spec brought
    have first : lits.getD 0 .missing ∈ lits := by
      refine Clause.lit_mem (c := (e.clause id).setLits lits) ?_
      change 0 < lits.size
      rw [← Array.length_toList, perm.length_eq, Array.length_toList]
      exact Nat.lt_of_lt_of_le (by decide) proper.size
    have inside : lits.getD 0 .missing ∈ (e.clause id).lits := by
      rw [← Array.mem_toList_iff] at first ⊢
      exact perm.mem_iff.mp first
    exact (thaws lits).assign (proper.bounded _ inside) _

theorem Equipped.watchFrozen (h : e.Equipped) (id : ClauseId) : (e.watchFrozen id).Equipped := by
  unfold Engine.watchFrozen
  dsimp only
  split
  · exact h.modifyWatches (h.watches.pushFrozen _ _)
  · exact h

theorem Equipped.rewatchFrozen (h : e.Equipped) : e.rewatchFrozen.Equipped := by
  have watched : ∀ (ids : List ClauseId) {e : Engine}, e.Equipped →
      (ids.foldl Engine.watchFrozen e).Equipped := by
    intro ids
    induction ids with
    | nil => exact fun h => h
    | cons id ids ih => exact fun h => ih (h.watchFrozen id)
  unfold Engine.rewatchFrozen
  rw [← Array.foldl_toList]
  exact watched _ (h.modifyWatches h.watches.clearFrozen)

/-! ### The loops -/

/-- In the course of a reduction that began with `b`, with the engine `c` when the verdicts begin. -/
structure Adjudicating (F : List (List Lit)) (os rest : List ClauseId) (pairs : List (Lit × Lit))
    (b c : Engine) (r : ReductionState) : Prop where
  reducing : Reducing F os rest pairs b r
  sorting : Sorting os rest c r
  equipped : r.engine.Equipped

theorem Adjudicating.provides {r : ReductionState} (zero : b.trail.level = 0)
    (h : Adjudicating F os (id :: rest) pairs b c r) : r.engine.ClauseInRange id :=
  h.reducing.loose.sound.clauseInRange h.sorting.booked.balanced h.equipped
    (h.reducing.steady.trail.level.trans zero) h.reducing.used.1

theorem Adjudicating.step {r : ReductionState} (zero : b.trail.level = 0)
    (h : Adjudicating F os (id :: rest) pairs b c r) (half median i : Nat) (deviation : Float) :
    Adjudicating F os rest pairs b c (Engine.reduceClause half median deviation r (id, i)) := by
  have used := h.reducing.used.1
  exact ⟨h.reducing.step zero half median i deviation, h.sorting.step half median i deviation,
    h.equipped.reduceClause (h.reducing.loose.sound.proper id used) used half median i deviation⟩

theorem Adjudicating.loop {entries : List (ClauseId × Nat)} {r : ReductionState} (zero : b.trail.level = 0)
    (h : Adjudicating F os (entries.map Prod.fst ++ rest) pairs b c r) (half median : Nat)
    (deviation : Float) :
    Throughout (Engine.reduceClause half median deviation)
        (fun r entry => r.engine.ClauseInRange entry.1) r entries ∧
      Adjudicating F os rest pairs b c (entries.foldl (Engine.reduceClause half median deviation) r) :=
  throughout_of_keeps (fun r entries => Adjudicating F os (entries.map Prod.fst ++ rest) pairs b c r)
    (Adjudicating.provides zero) (fun {_ entry _} h => h.step zero half median entry.2 deviation) h

/-- Some frozen clauses wait to be put back to work. -/
structure Thawing (F : List (List Lit)) (L : Ledger) (m : Nat) (os ks ids : List ClauseId)
    (e : Engine) : Prop where
  thawable : Thawable L m ids e
  upheld : ∀ σ : Valuation, σ.satisfies F → e.Respected σ
  booked : e.Booked os ks
  equipped : e.Equipped

theorem Thawing.used {ks : List ClauseId} (h : Thawing F L m os ks (id :: ids) e) :
    (e.clause id).isRemoved = false ∧ (e.clause id).isLearnt = true :=
  h.thawable.loose.listed.learnt id (h.thawable.among id List.mem_cons_self)

theorem Thawing.provides {ks : List ClauseId} (h : Thawing F L m os ks (id :: ids) e) :
    e.ThawInRange F id := by
  have frozen := h.thawable.frozen id List.mem_cons_self
  have sound := h.thawable.loose.sound
  refine ⟨sound.reads h.equipped h.used.1,
    (h.booked.balanced.counts h.equipped.uncounted h.used.1).frozen frozen, fun σ holds => ?_⟩
  -- What satisfies the formula satisfies the clause and the facts, so that no fact is the opposite.
  have respected := h.upheld σ holds
  obtain ⟨l, inside, satisfied⟩ := respected.clauses id h.used.1
  refine ⟨l, Array.mem_toList_iff.mp inside, Bool.eq_false_iff.mpr fun fails => ?_⟩
  have opposite := (sound.trail.isFalse_iff l).mp fails
  have fact := (Trail.Coherent.mem_facts_of_level_zero h.thawable.zero).mpr opposite
  exact (σ.satisfiesLit_neg l).mp (respected.facts _ fact) satisfied

theorem Thawing.step {ks : List ClauseId} (h : Thawing F L m os ks (id :: ids) e) :
    Thawing F L m os ks ids (e.thawClause id) := by
  have frozen := h.thawable.frozen id List.mem_cons_self
  have books := (booksKept_thawClause h.used.2 h.used.1 frozen).1
  have coherent := h.thawable.loose.sound.trail
  obtain ⟨loose, -, grown, -⟩ := h.thawable.next
  exact ⟨h.thawable.step, fun σ holds => grown.respected coherent loose.sound (h.upheld σ holds),
    books.booked h.booked,
    h.equipped.thawClause (h.thawable.loose.sound.proper id h.used.1)⟩

theorem Thawing.loop {ks : List ClauseId} (h : Thawing F L m os ks ids e) :
    Throughout Engine.thawClause (ThawInRange F) e ids ∧
      Thawing F L m os ks [] (ids.foldl Engine.thawClause e) :=
  throughout_of_keeps (fun e ids => Thawing F L m os ks ids e) Thawing.provides Thawing.step h

/-- Once the clauses that survive are listed, the lists are cleaned and the thawed clauses go back to
work. -/
theorem Relisted.inRange {thawing : Array ClauseId} (h : Relisted F pairs thawing b e)
    (zero : b.trail.level = 0) (shelved : e.Shelved) (equipped : e.Equipped) :
    e.SweepInRange ∧
      Throughout Engine.thawClause (ThawInRange F) (e.modifyWatches (·.cleanAll e.arena)) thawing.toList ∧
      Thawing F (e.ledger pairs) b.trail.head e.originals.toList e.learnts.toList []
        (thawing.foldl Engine.thawClause (e.modifyWatches (·.cleanAll e.arena))) := by
  have cleaned := Watches.cleanAll_cleaned e.watches e.arena
  have books : e.SameBooks (e.modifyWatches (·.cleanAll e.arena)) :=
    .modifyWatches e _ cleaned.binary cleaned.frozen
  have swept : (e.modifyWatches (·.cleanAll e.arena)).Equipped :=
    { equipped with watches := equipped.watches.cleanAll e.arena }
  rw [← Array.foldl_toList]
  obtain ⟨loose, -, grown⟩ := h.loose.cleanAll
  have upheld (σ : Valuation) (holds : σ.satisfies F) :=
    grown.respected h.loose.sound.trail loose.sound (h.equivalent.upheld σ holds)
  exact ⟨equipped.sweepInRange h.loose.sound.inside,
    Thawing.loop ⟨h.thawable zero, upheld, books.booked shelved.booked, swept⟩⟩

/-- Every access of a reduction is in range, and no count goes below zero. -/
theorem Settled.reduce_inRange (h : e.Settled F) (zero : e.trail.level = 0) (shelved : e.Shelved)
    (equipped : e.Equipped) : e.ReduceInRange F ∧ e.reduce.Equipped := by
  obtain ⟨pairs, faithful⟩ := h.faithful
  have rescored : e.Rescored e.appraised.2 :=
    { Rescored.refl e with heap := rfl, decision := rfl, paced := paced_deviation .. }
  -- The clauses learnt since the last reduction are not ranked, and wait behind those that are.
  have adjudicating : Adjudicating F e.originals.toList (e.ranked.zipIdx.map Prod.fst ++
      e.learnts.toList.drop (e.learnts.toList.length - e.recentLearnts)) pairs e e.appraised.2
      { engine := e.appraised.2 } :=
    ⟨faithful.startReduction rescored (e.learnts.toList.length - e.recentLearnts),
      shelved.startSorting, equipped.appraised⟩
  obtain ⟨judged, done⟩ := adjudicating.loop zero (e.ranked.length / 2) e.lbdMedian e.appraised.1
  change Adjudicating F _ _ pairs e e.appraised.2 e.judged at done
  have relisted : Relisted F pairs e.judged.thawing e e.survived := done.reducing.relist
  obtain ⟨swept, thawed, awake⟩ := relisted.inRange zero shelved.survived { done.equipped with }
  change Thawing F _ _ _ _ [] e.awakened at awake
  have rewatched : ∀ id ∈ e.awakened.learnts, e.awakened.Reads id := by
    intro id listed
    have used := (((shelved.awakened h zero).booked.filed.learnt id).mp
      (Array.mem_toList_iff.mpr listed)).1
    exact awake.thawable.loose.sound.reads awake.equipped used
  have watched := awake.equipped.rewatchFrozen
  refine ⟨⟨zero, equipped.branching.paired, shelved.learntsInRange, judged, swept, thawed, rewatched⟩, ?_⟩
  rw [reduce_eq]
  generalize e.awakened.rewatchFrozen = f at watched
  exact { watched with }

end Engine

end Cdcl
