import Cdcl.Proofs.Coverage

/-!
# Going back

Going back to a lower level leaves the facts and the clauses alone, keeps the coverage of what
stays on the trail, and offers the variables that lose their values for decisions.
-/

namespace Cdcl

namespace Trail

variable {n : Nat} {t : Trail} {k : Nat}

theorem Coherent.facts_cancelTo (h : t.Coherent n) (below : k < t.level) :
    (t.cancelTo k).facts = t.facts := by
  have le : t.startAbove 0 ≤ t.startAbove k := by
    by_contra higher
    have zero := (h.levelAt_le_iff (by omega : 0 < t.level) (t.startAbove k)).mpr (by omega)
    have := (h.levelAt_le_iff below (t.startAbove k)).mp (by omega)
    omega
  have start : (t.cancelTo k).startAbove 0 = t.startAbove 0 := by
    rcases Nat.eq_zero_or_pos k with rfl | positive
    · rw [Coherent.startAbove_of_level_le (Nat.le_of_eq (level_cancelTo below)), h.size_cancelTo]
    · have inside : 0 < (t.cancelTo k).marks.size :=
        Nat.lt_of_lt_of_eq positive (level_cancelTo below).symm
      rw [startAbove_of_lt inside, startAbove_of_lt (positive.trans below)]
      simp [Trail.cancelTo]
  rw [Coherent.facts_eq, Coherent.facts_eq, start]
  have lits : (t.cancelTo k).lits.toList = t.lits.toList.take (t.startAbove k) := by
    simp [Trail.cancelTo]
  rw [lits, List.take_take, Nat.min_eq_left le]

theorem Coherent.mem_facts_cancelTo (h : t.Coherent n) (below : k < t.level) {l : Lit} :
    l ∈ (t.cancelTo k).facts ↔ l ∈ t.facts := by
  rw [h.facts_cancelTo below]

theorem isUnassigned_cancelTo {v : Var} (free : (t.cancelTo k).isUnassigned v = true) :
    t.isUnassigned v = true ∨ ∃ l ∈ t.above k, v = l.1.var := by
  rw [isUnassigned_iff, value_cancelTo] at free
  split at free
  next undone =>
    obtain ⟨l, member, same⟩ := List.mem_map.mp undone
    exact .inr ⟨l, member, same.symm⟩
  next => exact .inl ((isUnassigned_iff _ _).mpr free)

/-- A literal true before a level was left is covered in time after going back to it. -/
theorem Coherent.covers_cancelTo (h : t.Coherent n) (below : k < t.level) {lits : Array Lit} {w : Lit}
    (stays : t.Before (t.startAbove k) w.neg) (covered : t.Covers lits w) :
    (t.cancelTo k).Covers lits w := by
  obtain ⟨l, inside, holds, le⟩ := covered
  obtain ⟨i, bound, at_i⟩ := stays
  obtain ⟨j, at_j⟩ := Array.mem_iff_getElem?.mp ((h.isTrue_iff l).mp holds)
  have low := (h.levelAt_le_iff below i).mpr bound
  have level_w := h.level_eq at_i
  have level_l := h.level_eq at_j
  rw [Lit.var_neg] at level_w
  refine ⟨l, inside, h.isTrue_cancelTo.mpr ⟨j, ?_, at_j⟩, le⟩
  rw [← h.levelAt_le_iff below]
  omega

end Trail

namespace Engine

variable {aside ids : List ClauseId} {pairs : List (Lit × Lit)} {e f : Engine} {k m : Nat}

/-- The heap offers every unassigned decision variable. -/
def Offers (e : Engine) : Prop :=
  e.branching.Offers e.numVars fun v => e.trail.isUnassigned v = true

theorem cancelTo_of_le (le : e.trail.level ≤ k) : e.cancelTo k = e := if_pos le

theorem trail_cancelTo (below : k < e.trail.level) :
    (e.cancelTo k).trail = e.trail.cancelTo k := by
  rw [Engine.cancelTo, if_neg (by omega)]

/-- Going back changes nothing but the trail and the heuristics of branching. -/
theorem cancelTo_eq (below : k < e.trail.level) :
    e.cancelTo k =
      { e with trail := e.trail.cancelTo k, branching := (e.cancelTo k).branching } := by
  rw [Engine.cancelTo, if_neg (by omega)]

/-- A change of the heuristics of branching alone. -/
theorem Sound.branching (h : e.Sound aside) (b : Branching) :
    ({ e with branching := b } : Engine).Sound aside := { h with }

theorem Sound.cancelTo (h : e.Sound aside) (k : Nat) : (e.cancelTo k).Sound aside := by
  by_cases below : k < e.trail.level
  · rw [cancelTo_eq below]
    exact
      { trail := h.trail.cancelTo below
        justified := by
          intro i l at_i
          have start := h.trail.startAbove_le k
          have old : i < e.trail.startAbove k ∧ e.trail.lits[i]? = some l := by
            change (e.trail.cancelTo k).lits[i]? = some l at at_i
            rw [Trail.getElem?_cancelTo start] at at_i
            split at at_i
            next inside => exact ⟨inside, at_i⟩
            next => cases at_i
          exact (h.justified old.2).transfer (h.trail.agreesTo_cancelTo below old.1) (fun _ _ => id)
            fun _ _ attached first => ⟨attached, first, fun _ => .rfl⟩
        proper := h.proper
        binary_bounded := h.binary_bounded
        tracked := h.tracked
        inside := h.inside
        blockers := fun p w member attached =>
          (h.blockers p w member attached).imp_right (h.trail.mem_facts_cancelTo below).mpr
        blank := h.blank
        unseen := h.unseen }
  · rw [cancelTo_of_le (by omega)]
    exact h

theorem FrozenApart.cancelTo (h : e.FrozenApart) (k : Nat) : (e.cancelTo k).FrozenApart := by
  by_cases below : k < e.trail.level
  · rw [cancelTo_eq below]
    exact { h with }
  · rw [cancelTo_of_le (by omega)]
    exact h

theorem respected_cancelTo {n : Nat} (coherent : e.trail.Coherent n) (k : Nat) {σ : Valuation} :
    (e.cancelTo k).Respected σ ↔ e.Respected σ := by
  by_cases below : k < e.trail.level
  · rw [cancelTo_eq below]
    constructor
    · intro h
      exact { h with facts := fun l fact => h.facts l ((coherent.mem_facts_cancelTo below).mpr fact) }
    · intro h
      exact { h with facts := fun l fact => h.facts l ((coherent.mem_facts_cancelTo below).mp fact) }
  · rw [cancelTo_of_le (by omega)]

theorem Guarded.cancelTo (h : e.Guarded aside ids pairs) (k : Nat) :
    (e.cancelTo k).Guarded aside ids pairs := by
  by_cases below : k < e.trail.level
  · rw [cancelTo_eq below]
    exact { h with }
  · rw [cancelTo_of_le (by omega)]
    exact h

/-- What was covered up to the level to go back to stays covered, and that is all of the trail. -/
theorem Guards.cancelTo {n : Nat} (h : e.Guards ids pairs m) (coherent : e.trail.Coherent n)
    (below : k < e.trail.level) (le : e.trail.startAbove k ≤ m) :
    (e.cancelTo k).Guards ids pairs (e.cancelTo k).trail.head := by
  rw [cancelTo_eq below]
  have stays {w : Lit} (before : (e.trail.cancelTo k).Before (e.trail.cancelTo k).head w.neg) :
      e.trail.Before (e.trail.startAbove k) w.neg := by
    rw [coherent.before_cancelTo] at before
    exact before.mono (Nat.min_le_right _ _)
  constructor
  · intro id member w watched before
    have old := stays before
    exact coherent.covers_cancelTo below old (h.clauses id member w watched (old.mono le))
  · intro a b member before
    have old := stays before
    exact coherent.covers_cancelTo below old (h.pairs a b member (old.mono le))

theorem Offers.cancelTo (h : e.Offers) (coherent : e.trail.Coherent e.numVars) (k : Nat) :
    (e.cancelTo k).Offers := by
  by_cases below : k < e.trail.level
  · unfold Engine.cancelTo
    rw [if_neg (by omega)]
    refine Branching.Offers.foldl_noteUnassigned (fun l => _ ≤ l.2) _ ?_ h ?_
    · intro l member
      obtain ⟨l, i⟩ := l
      exact coherent.bounded l (Array.mem_of_getElem? (Trail.mem_above_iff.mp member).2)
    · intro v free
      exact Trail.isUnassigned_cancelTo free
  · rw [cancelTo_of_le (by omega)]
    exact h

end Engine

end Cdcl
