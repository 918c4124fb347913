import Cdcl.Proofs.Learning

/-!
# Cores

When an assumption is found false, its opposite is traced back along the trail to the decisions that
imply it. As long as no literal is decided before all assumptions are, these are assumptions too.

## Main results

- `analyzeFinal_spec`: the clause of the core is implied by what is stored.
- `Trail.Presumes`: which decisions are literals to assume, with a lemma for each change of the trail.
-/

namespace Cdcl

namespace DenseSet

variable {κ : Type} [DenseKey κ] [DecidableEq κ]

/-- The members are listed once each, and have their flags up. -/
structure Proper (s : DenseSet κ) : Prop where
  nodup : s.toList.Nodup
  contains_iff : ∀ k, s.contains k = true ↔ k ∈ s.toList

omit [DecidableEq κ] in
theorem proper_empty : (empty : DenseSet κ).Proper where
  nodup := List.nodup_nil
  contains_iff := by
    intro k
    simp [empty, contains, toList, DenseFlags.empty, DenseMap.get_eq]

variable {s : DenseSet κ}

omit [DecidableEq κ] in
theorem Proper.mem_insert (h : s.Proper) {k j : κ} :
    j ∈ (s.insert k).toList ↔ j ∈ s.toList ∨ j = k := by
  rw [toList_insert]
  split
  next present =>
    have member := (h.contains_iff k).mp present
    constructor
    · exact .inl
    · rintro (old | rfl)
      · exact old
      · exact member
  next => simp

theorem Proper.insert (h : s.Proper) (k : κ) : (s.insert k).Proper where
  nodup := by
    rw [toList_insert]
    split
    · exact h.nodup
    next absent =>
      refine h.nodup.append (List.nodup_singleton k) ?_
      intro j member same
      rw [List.mem_singleton.mp same] at member
      exact absent ((h.contains_iff k).mpr member)
  contains_iff := by
    intro j
    rw [contains_insert, h.mem_insert, Bool.or_eq_true, decide_eq_true_eq, h.contains_iff]
    constructor
    · rintro (rfl | old)
      · exact .inr rfl
      · exact .inl old
    · rintro (old | rfl)
      · exact .inr old
      · exact .inl rfl

end DenseSet

/-! ### Levels of assumptions -/

namespace Trail

/-- The literals to assume are the assumptions `as` and then the literals `ps`, one level each. A
decision at such a level is the literal that it belongs to, and the assumptions whose levels are open
are true since then. -/
structure Presumes (as ps : List Lit) (t : Trail) : Prop where
  decided : ∀ l ∈ t.lits, t.reason l.var = .decision → t.levelOf l.var ≠ 0 →
    ∀ a, (as ++ ps)[t.levelOf l.var - 1]? = some a → l = a
  assumed : ∀ k a, k < t.level → as[k]? = some a → a ∈ t.lits ∧ t.levelOf a.var ≤ k + 1

variable {as ps : List Lit} {t u : Trail} {n : Nat} {l : Lit}

theorem Presumes.of_level_zero (h : t.Coherent n) (zero : t.level = 0) : t.Presumes as ps where
  decided := by
    intro l member _ above
    have := h.levelOf_le member
    omega
  assumed := by
    intro k a below
    omega

theorem Presumes.cancelTo (h : t.Presumes as ps) (coherent : t.Coherent n) {k : Nat}
    (below : k < t.level) : (t.cancelTo k).Presumes as ps where
  decided := fun l member => h.decided l (coherent.mem_cancelTo.mp member).mem
  assumed := by
    intro i a open_i at_i
    have level : (t.cancelTo k).level = k := level_cancelTo below
    obtain ⟨member, le⟩ := h.assumed i a (by omega) at_i
    obtain ⟨j, at_j⟩ := Array.mem_iff_getElem?.mp member
    refine ⟨coherent.mem_cancelTo.mpr ⟨j, ?_, at_j⟩, le⟩
    rw [← coherent.levelAt_le_iff below, ← coherent.level_eq at_j]
    omega

/-- A literal that is implied, or assigned at level zero, or the one whose level it is. -/
theorem Presumes.assign (h : t.Presumes as ps) (coherent : t.Coherent n) {why : Reason}
    (unassigned : t.value l.var = .undecided)
    (presumed : why = .decision → t.level ≠ 0 → ∀ a, (as ++ ps)[t.level - 1]? = some a → l = a) :
    (t.assign l why).Presumes as ps where
  decided := by
    intro m member decision above
    rw [reason_assign] at decision
    rw [levelOf_assign] at above ⊢
    rcases Array.mem_push.mp member with old | rfl
    · have ne := (coherent.var_ne unassigned old).symm
      rw [if_neg ne] at decision above ⊢
      exact h.decided m old decision above
    · rw [if_pos rfl] at decision above ⊢
      exact presumed decision above
  assumed := by
    intro k a below at_k
    obtain ⟨member, le⟩ := h.assumed k a below at_k
    refine ⟨Array.mem_push.mpr (.inl member), ?_⟩
    rw [levelOf_assign, if_neg (coherent.var_ne unassigned member).symm]
    exact le

theorem Presumes.openLevel (h : t.Presumes as ps) (coherent : t.Coherent n)
    (holds : ∀ a, as[t.level]? = some a → a ∈ t.lits) : t.openLevel.Presumes as ps where
  decided := h.decided
  assumed := by
    intro k a below at_k
    have level : t.openLevel.level = t.level + 1 := t.level_openLevel
    rcases Nat.lt_succ_iff_lt_or_eq.mp (level ▸ below) with lt | rfl
    · exact h.assumed k a lt at_k
    · exact ⟨holds a at_k, Nat.le_succ_of_le (coherent.levelOf_le (holds a at_k))⟩

/-- Opening a level for a literal, which is the next one to assume as long as there are any. -/
theorem Presumes.decide (h : t.Presumes as ps) (coherent : t.Coherent n)
    (propagated : t.head = t.lits.size) (unassigned : t.value l.var = .undecided)
    (next : ∀ a, (as ++ ps)[t.level]? = some a → l = a) :
    (t.openLevel.assign l .decision).Presumes as ps where
  decided := by
    have coherent' := coherent.openLevel propagated
    have level : t.openLevel.level = t.level + 1 := t.level_openLevel
    intro m member decision above
    rw [levelOf_assign] at above ⊢
    rcases Array.mem_push.mp member with old | rfl
    · have ne := (coherent'.var_ne unassigned old).symm
      rw [reason_assign, if_neg ne] at decision
      rw [if_neg ne] at above ⊢
      exact h.decided m old decision above
    · rw [if_pos rfl, level]
      exact next
  assumed := by
    intro k a below at_k
    have level : t.openLevel.level = t.level + 1 := t.level_openLevel
    have below' : k < t.level + 1 := level ▸ below
    rcases Nat.lt_succ_iff_lt_or_eq.mp below' with lt | rfl
    · obtain ⟨member, le⟩ := h.assumed k a lt at_k
      refine ⟨Array.mem_push.mpr (.inl member), ?_⟩
      rw [levelOf_assign, if_neg (coherent.var_ne unassigned member).symm]
      exact le
    · have inside := (List.getElem?_eq_some_iff.mp at_k).1
      cases next a ((List.getElem?_append_left inside).trans at_k)
      exact ⟨Array.mem_push.mpr (.inr rfl), Nat.le_of_eq (by rw [levelOf_assign, if_pos rfl, level])⟩

/-- Learning from a conflict decides nothing above level zero. -/
theorem Presumes.descends (h : t.Presumes as ps) (coherent : t.Coherent n) (down : t.Descends u) :
    u.Presumes as ps := by
  cases down with
  | back below => exact h.cancelTo coherent below
  | @learnt k l why below unassigned implied =>
    refine (h.cancelTo coherent below).assign (coherent.cancelTo below) unassigned ?_
    intro decision above
    have level : (t.cancelTo k).level = k := level_cancelTo below
    rcases implied with zero | reason
    · omega
    · exact absurd decision reason

end Trail

/-- Propagation decides nothing. -/
theorem Engine.Extends.presumes {e f : Engine} (h : e.Extends f) {as ps : List Lit} {n n' : Nat}
    (before : e.trail.Coherent n) (after : f.trail.Coherent n') (old : e.trail.Presumes as ps) :
    f.trail.Presumes as ps where
  decided := by
    intro l member decision above
    obtain ⟨i, at_i⟩ := Array.mem_iff_getElem?.mp member
    by_cases inside : i < e.trail.lits.size
    · have same := at_i
      rw [h.lits i inside] at same
      have inTrail := Array.mem_of_getElem? same
      rw [h.reasons l inTrail] at decision
      rw [h.levelOf before after inTrail] at above ⊢
      exact old.decided l inTrail decision above
    · exact absurd decision (h.implied (by omega) at_i)
  assumed := by
    intro k a below at_k
    rw [h.level] at below
    obtain ⟨member, le⟩ := old.assumed k a below at_k
    exact ⟨h.mem member, (h.levelOf before after member).symm ▸ le⟩

namespace Engine

variable {e f : Engine} {aside : List ClauseId} {p : Lit}

/-! ### Tracing a literal back to decisions -/

theorem get_foldl_markAbove (t : Trail) (lits : List Lit) (seen : DenseMap Var Seen) (v : Var) :
    (lits.foldl (markAbove t) seen).get v =
      if t.levelOf v ≠ 0 ∧ ∃ q ∈ lits, q.var = v then .source else seen.get v := by
  induction lits generalizing seen with
  | nil => simp
  | cons l lits ih =>
    rw [List.foldl_cons, ih]
    unfold markAbove
    by_cases zero : t.levelOf l.var = 0
    · rw [if_pos (beq_iff_eq.mpr zero)]
      refine if_congr (and_congr_right fun above => ?_) rfl rfl
      have ne : l.var ≠ v := fun same => above (same ▸ zero)
      simp [ne]
    · rw [if_neg (fun same => zero (beq_iff_eq.mp same)), DenseMap.get_insert]
      by_cases here : l.var = v
      · subst here
        simp [zero]
      · simp [here]

/-- What is known when the positions of the trail from `i` on are explained: if the literals marked
below hold, and the core does not, then `p` holds. -/
structure Traced (e : Engine) (p : Lit) (i : Nat) (seen : DenseMap Var Seen) (core : DenseSet Lit) :
    Prop where
  proper : core.Proper
  start : p ∈ core.toList
  marked : ∀ v, seen.get v ≠ .unseen → v = p.var ∨
    ∃ j l, e.trail.startAbove 0 ≤ j ∧ j < i ∧ e.trail.lits[j]? = some l ∧ l.var = v
  decided : ∀ q ∈ core.toList, q = p ∨
    ∃ l ∈ e.trail.lits, q = l.neg ∧ e.trail.reason l.var = .decision ∧ e.trail.levelOf l.var ≠ 0
  implies : ∀ σ : Valuation, e.Respected σ → (∀ q ∈ core.toList, ¬ σ.satisfiesLit q) →
    (∀ j l, j < i → e.trail.lits[j]? = some l → seen.get l.var ≠ .unseen → σ.satisfiesLit l) →
    σ.satisfiesLit p

section Step

variable {i : Nat} {seen : DenseMap Var Seen} {core : DenseSet Lit} {l : Lit}
  (at_i : e.trail.lits[i]? = some l)

include at_i

theorem before_or_here {j : Nat} {q : Lit} (high : j < i + 1) (at_j : e.trail.lits[j]? = some q) :
    j < i ∨ q = l := by
  rcases Nat.lt_succ_iff_lt_or_eq.mp high with lt | rfl
  · exact .inl lt
  · rw [at_i] at at_j
    exact .inr (Option.some.inj at_j).symm

theorem level_ne_zero (sound : e.Sound aside) (above : e.trail.startAbove 0 ≤ i) :
    e.trail.levelOf l.var ≠ 0 := by
  intro zero
  have fact := sound.trail.mem_facts_iff_levelOf.mpr ⟨Array.mem_of_getElem? at_i, zero⟩
  obtain ⟨k, below, at_k⟩ := Trail.Coherent.mem_facts_iff.mp fact
  have := sound.trail.distinct at_i at_k rfl
  omega

/-- Marks of other variables are of earlier positions. -/
theorem Traced.marked_before (h : Traced e p (i + 1) seen core) {v : Var} (ne : l.var ≠ v)
    (mark : seen.get v ≠ .unseen) : v = p.var ∨
      ∃ j q, e.trail.startAbove 0 ≤ j ∧ j < i ∧ e.trail.lits[j]? = some q ∧ q.var = v := by
  refine (h.marked v mark).imp_right fun ⟨j, q, low, high, at_j, same⟩ => ?_
  rcases before_or_here at_i high at_j with lt | rfl
  · exact ⟨j, q, low, lt, at_j, same⟩
  · exact absurd same ne

/-- A literal that is not marked is passed over. -/
theorem Traced.skip (h : Traced e p (i + 1) seen core) (unseen : seen.get l.var = .unseen) :
    Traced e p i seen core :=
  { h with
    marked := fun v mark => h.marked_before at_i (fun same => mark (same ▸ unseen)) mark
    implies := by
      intro σ respected falsified below
      refine h.implies σ respected falsified fun j q high at_j mark => ?_
      rcases before_or_here at_i high at_j with lt | rfl
      · exact below j q lt at_j mark
      · exact absurd unseen mark }

/-- The opposite of a decision goes into the core. -/
theorem Traced.decide (h : Traced e p (i + 1) seen core) (sound : e.Sound aside)
    (above : e.trail.startAbove 0 ≤ i) (decision : e.trail.reason l.var = .decision) :
    Traced e p i (seen.insert l.var .unseen) (core.insert l.neg) where
  proper := h.proper.insert l.neg
  start := h.proper.mem_insert.mpr (.inl h.start)
  marked := by
    intro v mark
    rw [DenseMap.get_insert] at mark
    split at mark
    · exact absurd rfl mark
    next ne => exact h.marked_before at_i ne mark
  decided := by
    intro q member
    rcases h.proper.mem_insert.mp member with old | rfl
    · exact h.decided q old
    · exact .inr ⟨l, Array.mem_of_getElem? at_i, rfl, decision, level_ne_zero at_i sound above⟩
  implies := by
    intro σ respected falsified below
    refine h.implies σ respected
      (fun q member => falsified q (h.proper.mem_insert.mpr (.inl member))) ?_
    intro j q high at_j mark
    have opposite := falsified l.neg (h.proper.mem_insert.mpr (.inr rfl))
    rcases before_or_here at_i high at_j with lt | rfl
    · refine below j q lt at_j ?_
      have ne : l.var ≠ q.var := fun same => by
        have := sound.trail.distinct at_i at_j same
        omega
      rw [DenseMap.get_insert, if_neg ne]
      exact mark
    · rwa [σ.satisfiesLit_neg, not_not] at opposite

/-- The causes of an implied literal are marked in its place. -/
theorem Traced.explain (h : Traced e p (i + 1) seen core) (sound : e.Sound aside)
    {lits : List Lit} (causes : e.explainer.causes l.var = some lits) :
    Traced e p i ((lits.foldl (markAbove e.trail) seen).insert l.var .unseen) core := by
  obtain ⟨before, holds⟩ := sound.causes at_i causes
  -- A cause comes earlier on the trail, so that taking back the mark of `l` does not unmark it.
  have ne_of {j : Nat} {q : Lit} (lt : j < i) (at_j : e.trail.lits[j]? = some q) :
      l.var ≠ q.var := fun same => by
    have := sound.trail.distinct at_i at_j same
    omega
  refine { h with marked := fun v mark => ?_, implies := fun σ respected falsified below => ?_ }
  · rw [DenseMap.get_insert] at mark
    split at mark
    · exact absurd rfl mark
    next ne =>
      rw [get_foldl_markAbove] at mark
      split at mark
      next cause =>
        obtain ⟨level, q, member, rfl⟩ := cause
        obtain ⟨j, lt, at_j⟩ := before q member
        refine .inr ⟨j, q.neg, ?_, lt, at_j, rfl⟩
        by_contra low
        refine level ((sound.trail.mem_facts_iff_levelOf (l := q.neg)).mp ?_).2
        exact Trail.Coherent.mem_facts_iff.mpr ⟨j, by omega, at_j⟩
      next => exact h.marked_before at_i ne mark
  · refine h.implies σ respected falsified fun j q high at_j mark => ?_
    rcases before_or_here at_i high at_j with lt | rfl
    · refine below j q lt at_j ?_
      rw [DenseMap.get_insert, if_neg (ne_of lt at_j), get_foldl_markAbove]
      split
      · exact nofun
      · exact mark
    · refine holds σ respected.toUpheld fun c member => ?_
      rw [← σ.satisfiesLit_neg]
      obtain ⟨k, lt, at_k⟩ := before c member
      by_cases zero : e.trail.levelOf c.var = 0
      · refine respected.facts _ (sound.trail.mem_facts_iff_levelOf.mpr ⟨?_, zero⟩)
        exact Array.mem_of_getElem? at_k
      · refine below k c.neg lt at_k ?_
        have ne : q.var ≠ c.var := ne_of (q := c.neg) lt at_k
        rw [Lit.var_neg, DenseMap.get_insert, if_neg ne, get_foldl_markAbove,
          if_pos ⟨zero, c, member, rfl⟩]
        exact nofun

/-- One step back along the trail. -/
theorem Traced.step (h : Traced e p (i + 1) seen core) (sound : e.Sound aside)
    (above : e.trail.startAbove 0 ≤ i) {seen' : DenseMap Var Seen} {core' : DenseSet Lit}
    (result : explainFinal e.explainer (seen, core) l = (seen', core')) :
    Traced e p i seen' core' := by
  unfold explainFinal at result
  dsimp only at result
  split at result
  next unseen =>
    cases result
    exact h.skip at_i (beq_iff_eq.mp unseen)
  next =>
    split at result
    next none =>
      cases result
      refine h.decide at_i sound above ?_
      unfold Explainer.causes at none
      split at none
      next reason => exact reason
      · cases none
      · cases none
    next lits causes =>
      cases result
      exact h.explain at_i sound causes

end Step

/-- All steps back to where the facts end. -/
theorem Traced.steps (sound : e.Sound aside) (n : Nat) {seen seen' : DenseMap Var Seen}
    {core core' : DenseSet Lit} (h : Traced e p (e.trail.startAbove 0 + n) seen core)
    (le : e.trail.startAbove 0 + n ≤ e.trail.lits.size)
    (result : ((e.trail.lits.toList.drop (e.trail.startAbove 0)).take n).reverse.foldl
      (explainFinal e.explainer) (seen, core) = (seen', core')) :
    Traced e p (e.trail.startAbove 0) seen' core' := by
  induction n generalizing seen core with
  | zero =>
    cases result
    exact h
  | succ n ih =>
    have inside : n < (e.trail.lits.toList.drop (e.trail.startAbove 0)).length := by
      simp only [List.length_drop, Array.length_toList]
      omega
    rw [List.take_succ_eq_append_getElem inside, List.reverse_append, List.reverse_singleton,
      List.singleton_append, List.foldl_cons] at result
    generalize stepped : explainFinal e.explainer (seen, core)
      (e.trail.lits.toList.drop (e.trail.startAbove 0))[n] = next at result
    obtain ⟨seen₁, core₁⟩ := next
    refine ih (h.step ?_ sound (Nat.le_add_right _ _) stepped) (by omega) result
    simp only [List.getElem_drop, Array.getElem_toList]
    exact Array.getElem?_eq_getElem _

/-- The core has `p` and opposites of decisions, and what is stored implies one of its literals. -/
theorem analyzeFinal_spec (sound : e.Sound aside) (member : p ∈ e.trail.lits) {core : DenseSet Lit}
    (result : e.analyzeFinal p = (f, core)) :
    e.Examined f ∧ (∀ v, f.seen.get v = .unseen) ∧ core.toList.Nodup ∧ p ∈ core.toList ∧
      (∀ q ∈ core.toList, q = p ∨ ∃ l ∈ e.trail.lits, q = l.neg ∧
        e.trail.reason l.var = .decision ∧ e.trail.levelOf l.var ≠ 0) ∧
      ∀ σ : Valuation, e.Respected σ → σ.satisfiesClause core.toList := by
  have single := DenseSet.proper_empty.insert p
  have only {q : Lit} (inside : q ∈ (DenseSet.empty.insert p).toList) : q = p :=
    (DenseSet.proper_empty.mem_insert.mp inside).resolve_left (by simp [DenseSet.empty, DenseSet.toList])
  have first : p ∈ (DenseSet.empty.insert p).toList := DenseSet.proper_empty.mem_insert.mpr (.inr rfl)
  unfold analyzeFinal at result
  dsimp only at result
  split at result
  next zero =>
    cases result
    refine ⟨.refl e, sound.unseen, single.nodup, first, fun q inside => .inl (only inside), ?_⟩
    intro σ respected
    refine ⟨p, first, respected.facts p ?_⟩
    exact (Trail.Coherent.mem_facts_of_level_zero zero).mpr member
  next =>
    have start := sound.trail.startAbove_le 0
    -- The walk goes back from the end of the trail to where level one starts.
    have all : (e.trail.above 0).map Prod.fst =
        ((e.trail.lits.toList.drop (e.trail.startAbove 0)).take
          (e.trail.lits.size - e.trail.startAbove 0)).reverse := by
      rw [List.take_of_length_le (by simp), Trail.above, List.map_reverse, List.zipIdx_map_fst]
    rw [all] at result
    generalize walked : List.foldl (explainFinal e.explainer) _ _ = final at result
    obtain ⟨seen, traced_core⟩ := final
    -- It begins with the literal itself marked, and as the only one in the core.
    have initial : Traced e p e.trail.lits.size (e.seen.insert p.var .source)
        (DenseSet.empty.insert p) := by
      refine ⟨single, first, fun v mark => .inl ?_, fun q inside => .inl (only inside), ?_⟩
      · rw [DenseMap.get_insert] at mark
        split at mark
        next same => exact same.symm
        next => exact absurd (sound.unseen v) mark
      · intro σ _ _ below
        obtain ⟨j, at_j⟩ := Array.mem_iff_getElem?.mp member
        refine below j p (Array.getElem?_eq_some_iff.mp at_j).1 at_j ?_
        rw [DenseMap.get_insert, if_pos rfl]
        decide
    have sum : e.trail.startAbove 0 + (e.trail.lits.size - e.trail.startAbove 0) =
        e.trail.lits.size := by omega
    have traced := Traced.steps sound _ (sum.symm ▸ initial) (by omega) walked
    cases result
    refine ⟨.marked _ (fun _ _ => id) rfl, fun v => ?_, traced.proper.nodup, traced.start,
      traced.decided, fun σ respected => ?_⟩
    · change (seen.insert p.var .unseen).get v = .unseen
      rw [DenseMap.get_insert]
      split
      · rfl
      next ne =>
        by_contra mark
        rcases traced.marked v mark with same | ⟨j, l, low, high, _⟩
        · exact ne same.symm
        · omega
    · -- Where the core is false, all that was walked over is implied, and so the literal itself is.
      by_contra none
      have falsified : ∀ q ∈ traced_core.toList, ¬ σ.satisfiesLit q := fun q inside holds =>
        none ⟨q, inside, holds⟩
      refine falsified p traced.start (traced.implies σ respected falsified fun j l low at_j _ => ?_)
      exact respected.facts l (Trail.Coherent.mem_facts_iff.mpr ⟨j, low, at_j⟩)

end Engine

end Cdcl
