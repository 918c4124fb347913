import Cdcl.Proofs.Minimized
import Cdcl.Proofs.Resolution

/-!
# Learnt clauses

What conflict analysis hands to the search: a clause that is implied by what is stored, whose first
literal is of the last level and whose others are false at the level to go back to.

## Main results

`analyze_teaches`: the clause that analysis learns from a conflict.
-/

namespace Cdcl

namespace Trail

/-! ### The literal of the highest level -/

theorem highestFrom_spec (t : Trail) (lits : Array Lit) (best k n : Nat) :
    let level (i : Nat) : Nat := t.levelOf (lits.getD i .missing).var
    let found := t.highestFrom lits best k n
    (found = best ∨ k ≤ found ∧ found < k + n) ∧ level best ≤ level found ∧
      ∀ i, k ≤ i → i < k + n → level i ≤ level found := by
  induction n generalizing best k with
  | zero => exact ⟨.inl rfl, Nat.le_refl _, fun i low high => by omega⟩
  | succ n ih =>
    dsimp only
    unfold highestFrom
    dsimp only
    obtain ⟨place, least, all⟩ := ih (if t.levelOf (lits.getD best .missing).var <
      t.levelOf (lits.getD k .missing).var then k else best) (k + 1)
    refine ⟨?_, ?_, fun i low high => ?_⟩
    · rcases place with same | inside
      · rw [same]
        split
        · exact .inr ⟨Nat.le_refl _, by omega⟩
        · exact .inl rfl
      · exact .inr ⟨by omega, by omega⟩
    · refine Nat.le_trans ?_ least
      split
      next more => exact Nat.le_of_lt more
      next => exact Nat.le_refl _
    · by_cases here : i = k
      · subst here
        refine Nat.le_trans ?_ least
        split
        · exact Nat.le_refl _
        next less => exact Nat.le_of_not_lt less
      · exact all i (by omega) (by omega)

/-- Bringing a literal of the highest level to the second position leaves the first one alone. -/
theorem bringHighest_one (t : Trail) (first : Lit) (others : List Lit) :
    ∃ rest : List Lit, (t.bringHighest 1 (first :: others).toArray).toList = first :: rest ∧
      rest.Perm others ∧ ∀ l ∈ others, t.levelOf l.var ≤
        t.levelOf ((t.bringHighest 1 (first :: others).toArray).getD 1 .missing).var := by
  cases others with
  | nil =>
    refine ⟨[], ?_, .refl _, nofun⟩
    rw [bringHighest, Array.swapIfInBounds_def, dif_neg (by simp)]
  | cons second others =>
    have spec := t.highestFrom_spec (first :: second :: others).toArray 1 2 others.length
    have start : t.bringHighest 1 (first :: second :: others).toArray =
        (first :: second :: others).toArray.swapIfInBounds 1
          (t.highestFrom (first :: second :: others).toArray 1 2 others.length) := by
      simp [bringHighest]
    rw [start]
    generalize t.highestFrom (first :: second :: others).toArray 1 2 others.length = k at spec
    dsimp only at spec
    obtain ⟨place, least, all⟩ := spec
    -- The place found is behind the first literal, which therefore stays when the second is swapped.
    have low : 1 ≤ k := by omega
    have high : k < (first :: second :: others).toArray.size := by
      simp only [List.size_toArray, List.length_cons]
      omega
    let c : Clause := { lits := (first :: second :: others).toArray }
    have swapped (i : Nat) := Clause.lit_swap (c := c) (i := 1) (j := k) (by simp [c]) high i
    have perm := Clause.swapIfInBounds_perm (first :: second :: others).toArray 1 k
    have head : (c.swap 1 k).lit 0 = c.lit 0 := by
      rw [swapped, if_neg (by omega), if_neg (by omega)]
    have size : 0 < (c.swap 1 k).lits.size := by simp [c, Clause.swap]
    have tails := Clause.tail_perm (c := c) (d := c.swap 1 k) perm (by simp [c]) head
    refine ⟨(c.swap 1 k).tail, ?_, tails, fun l member => ?_⟩
    · have := Clause.lits_eq_cons_tail size
      rw [head] at this
      exact this
    · change _ ≤ t.levelOf ((c.swap 1 k).lit 1).var
      rw [swapped, if_pos rfl]
      obtain ⟨i, bound, rfl⟩ := List.mem_iff_getElem.mp member
      rcases Nat.eq_zero_or_pos i with rfl | positive
      · exact least
      · have := all (i + 1) (by omega) (by simp only [List.length_cons] at bound; omega)
        have same : (first :: second :: others).toArray.getD (i + 1) .missing =
            (second :: others)[i] := by
          simp [Array.getD_eq_getD_getElem?, List.getElem?_eq_getElem bound]
        rw [same] at this
        exact this

end Trail

/-! ### Cleaning up the marks -/

theorem Resolution.unmarkResolved_eq (e : Engine) (position : Nat) :
    ∃ seen, Resolution.unmarkResolved position e = { e with seen } ∧
      ∀ v, seen.get v =
        if (∃ l ∈ e.trail.lits.toList.drop position, l.var = v) ∧ e.seen.get v = .resolved
        then .unseen else e.seen.get v := by
  -- The marks are taken back literal by literal, whatever the engine. The induction is on the literals.
  have loop (ls : List Lit) : ∀ f : Engine, ∃ seen,
      ls.foldl (fun f l => if f.seen.get l.var == .resolved then f.setSeen l.var .unseen else f) f =
        { f with seen } ∧
      ∀ v, seen.get v = if (∃ l ∈ ls, l.var = v) ∧ f.seen.get v = .resolved then .unseen
        else f.seen.get v := by
    induction ls with
    | nil => exact fun f => ⟨f.seen, rfl, by simp⟩
    | cons l ls ih =>
      intro f
      rw [List.foldl_cons]
      split
      next resolved =>
        obtain ⟨seen, same, marks⟩ := ih (f.setSeen l.var .unseen)
        refine ⟨seen, same, fun v => ?_⟩
        rw [marks]
        have set : (f.setSeen l.var .unseen).seen.get v =
            if l.var = v then .unseen else f.seen.get v := DenseMap.get_insert ..
        rw [set]
        by_cases here : l.var = v
        · subst here
          simp only [beq_iff_eq] at resolved
          simp [resolved]
        · simp [here]
      next other =>
        obtain ⟨seen, same, marks⟩ := ih f
        refine ⟨seen, same, fun v => ?_⟩
        rw [marks]
        by_cases here : l.var = v
        · subst here
          simp only [beq_iff_eq] at other
          simp [other]
        · simp [here]
  exact loop _ e

namespace Engine

/-- A clause that the search may learn in this state, to go back to its level. -/
structure Teaches (e : Engine) (c : Learnt) : Prop where
  distinct : (c.lits.toList.map Lit.var).Nodup
  shape : ∃ p rest, c.lits.toList = p.neg :: rest ∧ p ∈ e.trail.lits ∧
    e.trail.levelOf p.var = e.trail.level ∧
    ∀ l ∈ rest, l.neg ∈ e.trail.lits ∧ e.trail.levelOf l.var ≤ c.level
  above : ∀ l ∈ c.lits.toList, e.trail.levelOf l.var ≠ 0
  lower : c.level < e.trail.level
  latest : ∀ q, c.lits.toList[1]? = some q → e.trail.levelOf q.var = c.level
  unit : c.lits.size ≤ 1 → c.level = 0
  entailed : ∀ σ, e.Respected σ → σ.satisfiesClause c.lits.toList

/-- All literals of a clause that is learnt are false. -/
theorem Teaches.falsified {e : Engine} {c : Learnt} (h : e.Teaches c) {l : Lit} (inside : l ∈ c.lits.toList) :
    l.neg ∈ e.trail.lits := by
  obtain ⟨p, rest, list, member, -, below⟩ := h.shape
  rw [list] at inside
  rcases List.mem_cons.mp inside with rfl | inside
  · exact (Lit.neg_neg p).symm ▸ member
  · exact (below l inside).1

/-- A clause that is learnt has no more literals than there are variables. -/
theorem Teaches.size_le {e : Engine} {c : Learnt} (h : e.Teaches c) {n : Nat} (coherent : e.trail.Coherent n) :
    c.lits.size ≤ n := by
  have distinct : (c.lits.toList.map Lit.neg).Nodup :=
    (List.Nodup.of_map _ h.distinct).map fun _ _ same => Lit.neg_inj.mp same
  have inside : c.lits.toList.map Lit.neg ⊆ e.trail.lits.toList := by
    intro q member
    obtain ⟨l, inClause, rfl⟩ := List.mem_map.mp member
    exact Array.mem_toList_iff.mpr (h.falsified inClause)
  have few := (List.subperm_of_subset distinct inside).length_le
  rw [List.length_map, Array.length_toList, Array.length_toList] at few
  exact few.trans coherent.size_le

open Resolution in
/-- No two of the literals collected have one variable. -/
theorem distinct_of_resolved {aside : List ClauseId} {e : Engine} (sound : e.Sound aside) {p : Lit} {i : Nat}
    {r : Resolution} (h : Resolved e p i r) : (r.lits.toList.map Lit.var).Nodup := by
  refine h.nodup.map_on fun a aMem b bMem same => ?_
  have aOpposite := (h.lower a (Array.mem_toList_iff.mp aMem)).1
  have bOpposite := (h.lower b (Array.mem_toList_iff.mp bMem)).1
  exact Lit.neg_inj.mp (eq_of_var_eq sound.trail aOpposite bOpposite same)

open Resolution in
/-- The literals kept, behind the opposite of the last one resolved, form a clause to be learnt. -/
theorem teaches_of_resolved {aside : List ClauseId} {e : Engine} (sound : e.Sound aside)
    (positive : e.trail.level ≠ 0) {p : Lit} {i : Nat} {r : Resolution} (h : Resolved e p i r)
    {seen : DenseMap Var Seen} {kept : List Lit} (sublist : kept.Sublist r.lits.toList)
    (explained : Explained { trail := e.trail, arena := e.arena } seen kept)
    (marked : ∀ l ∈ r.lits, seen.get l.var = .source) {lits : Array Lit}
    (brought : lits = e.trail.bringHighest 1 (p.neg :: kept).toArray) (lbd : Nat) :
    e.Teaches
      { lits, lbd,
        level := if lits.size ≤ 1 then 0 else e.trail.levelOf (lits.getD 1 .missing).var } := by
  have inTrail := Array.mem_of_getElem? h.at_i
  obtain ⟨rest, list, perm, highest⟩ := e.trail.bringHighest_one p.neg kept
  rw [← brought] at list highest
  have collected {l : Lit} (member : l ∈ rest) : l ∈ r.lits :=
    Array.mem_toList_iff.mp (sublist.subset (perm.mem_iff.mp member))
  have size : lits.size = rest.length + 1 := by
    rw [← Array.length_toList, list, List.length_cons]
  -- With more than one literal the second is one of those kept.
  have second (more : 1 < lits.size) : lits.getD 1 .missing ∈ rest := by
    have : lits.toList[1]? = rest[0]? := by rw [list, List.getElem?_cons_succ]
    rw [Array.getD_eq_getD_getElem?, ← Array.getElem?_toList, this,
      List.getElem?_eq_getElem (by omega), Option.getD_some]
    exact List.getElem_mem _
  constructor
  case distinct =>
    rw [list, List.map_cons, List.nodup_cons]
    constructor
    · intro member
      obtain ⟨l, inside, same⟩ := List.mem_map.mp member
      obtain ⟨_, _, lower⟩ := h.lower l (collected inside)
      rw [same, Lit.var_neg, h.latest] at lower
      exact lower rfl
    · refine ((perm.map Lit.var).nodup_iff).mpr ?_
      exact (sublist.map Lit.var).nodup (distinct_of_resolved sound h)
  case shape =>
    refine ⟨p, rest, list, inTrail, h.latest, fun l member => ⟨(h.lower l (collected member)).1, ?_⟩⟩
    have nonempty := List.length_pos_of_mem member
    dsimp only
    rw [if_neg (by omega)]
    exact highest l (perm.mem_iff.mp member)
  case above =>
    intro l member
    dsimp only at member
    rw [list] at member
    rcases List.mem_cons.mp member with rfl | other
    · rw [Lit.var_neg, h.latest]
      exact positive
    · exact (h.lower l (collected other)).2.1
  case lower =>
    dsimp only
    split
    · omega
    next more =>
      obtain ⟨opposite, _, other⟩ := h.lower _ (collected (second (by omega)))
      have := sound.trail.levelOf_le opposite
      rw [Lit.var_neg] at this
      omega
  case latest =>
    intro q at_1
    dsimp only at at_1 ⊢
    have more : ¬ lits.size ≤ 1 := by
      have inside := (List.getElem?_eq_some_iff.mp at_1).1
      rw [Array.length_toList] at inside
      omega
    rw [if_neg more, Array.getD_eq_getD_getElem?, ← Array.getElem?_toList, at_1]
    rfl
  case unit => exact fun small => if_pos small
  case entailed =>
    intro σ respected
    by_contra fails
    have false_of {l : Lit} (member : l ∈ lits.toList) : ¬ σ.satisfiesLit l := fun holds =>
      fails ⟨l, member, holds⟩
    rw [list] at false_of
    have holds : σ.satisfiesLit p := by
      have := false_of List.mem_cons_self
      rw [Valuation.satisfiesLit_neg] at this
      exact not_not.mp this
    -- If all literals kept are false, those that minimization dropped are false too. But the clause before
    -- minimization follows.
    have kept_false : ∀ q ∈ kept, ¬ σ.satisfiesLit q := fun q member =>
      false_of (List.mem_cons_of_mem _ (perm.mem_iff.mpr member))
    have kept_opposites : ∀ q ∈ kept, q.neg ∈ e.trail.lits := fun q member =>
      (h.lower q (Array.mem_toList_iff.mp (sublist.subset member))).1
    have all := explained.satisfied sound respected kept_opposites kept_false
    obtain ⟨l, inside, true_l⟩ := h.contradicts σ respected holds
    have opposite := all l.neg (h.lower l inside).1 (marked l inside)
    exact (σ.satisfiesLit_neg l).mp opposite true_l

open Resolution in
/-- With the variables resolved away unmarked, the marks are those of the clause collected. -/
theorem unmarked_of_resolved {e : Engine} {p : Lit} {i : Nat} {r : Resolution} (h : Resolved e p i r) :
    ∃ seen, unmarkResolved i r.engine = { r.engine with seen } ∧
      (∀ v, seen.get v = .source ↔ ∃ q ∈ r.lits.toList, q.var = v) ∧ ∀ v, seen.get v ≠ .resolved := by
  obtain ⟨seen, unmarked, seen_eq⟩ := unmarkResolved_eq r.engine i
  refine ⟨seen, unmarked, fun v => ?_, fun v => ?_⟩
  · have marked := h.marked v
    simp only [Array.mem_toList_iff, ← marked]
    rw [seen_eq]
    split
    next both =>
      rw [both.2]
      exact ⟨nofun, nofun⟩
    next => exact .rfl
  · rw [seen_eq]
    split
    · exact nofun
    next unmet =>
      intro mark
      obtain ⟨j, l, le, at_j, same⟩ := h.resolved v mark
      refine unmet ⟨⟨l, ?_, same⟩, mark⟩
      rw [h.examined.trail, List.mem_drop_iff_getElem]
      obtain ⟨bound, get⟩ := Array.getElem?_eq_some_iff.mp at_j
      have sum : i + (j - i) = j := by omega
      exact ⟨j - i, by simp only [Array.length_toList]; omega, by simp only [sum]; exact get⟩

/-- What an analysis has gone through: the resolution of the conflict with the reasons of the last level, up
to the literal `p`, and the minimization of the clause that collected. -/
structure Analysis (e : Engine) (c : Conflict) (p : Lit) (r : Resolution) (seen : DenseMap Var Seen)
    (m : Minimizer) (f : Engine) (learnt : Learnt) : Prop where
  resolved : ∃ i, Resolution.Resolved e p i r ∧
    Resolution.backward e.trail.level e.trail.size (Resolution.start e.trail.level e c) = .ok (r, p, i)
  source : ∀ v, seen.get v = .source ↔ ∃ q ∈ r.lits.toList, q.var = v
  clear : ∀ v, seen.get v ≠ .resolved
  ran : Minimizer.run r.engine.explainer r.engine.opts.minimization r.engine.numVars seen r.lits.toList =
    .ok m
  examined : e.Examined f
  unmarked : f.seen = ((r.lits.toList ++ m.marked).foldl (fun seen l => seen.insert l.var .unseen)
    m.seen).insert p.var .unseen
  lits : learnt.lits = e.trail.bringHighest 1 (p.neg :: m.kept.toList).toArray
  level : learnt.level =
    if learnt.lits.size ≤ 1 then 0 else e.trail.levelOf (learnt.lits.getD 1 .missing).var

variable {e f : Engine} {c : Conflict} {p : Lit} {r : Resolution} {seen : DenseMap Var Seen} {m : Minimizer}
  {learnt : Learnt}

theorem analysis_of_analyze {aside : List ClauseId} (sound : e.Sound aside) (conflict : e.IsConflict c)
    (positive : e.trail.level ≠ 0) (result : e.analyze c = .ok (f, learnt)) :
    ∃ p r seen m, Analysis e c p r seen m f learnt := by
  obtain ⟨current, marks, contra, waiting⟩ := Resolution.start_marks sound conflict positive
  unfold analyze at result
  dsimp only at result
  split at result
  · cases result
  next r p position found =>
    have resolved := Resolution.backward_resolved marks sound contra waiting found
    have trail : r.engine.trail = e.trail := resolved.examined.trail
    obtain ⟨seen, unmarked, source, clear⟩ := unmarked_of_resolved resolved
    rw [unmarked] at result
    split at result
    · cases result
    next m ran =>
      have brought : #[p.neg] ++ m.kept = (p.neg :: m.kept.toList).toArray :=
        Array.toList_inj.mp (by simp)
      cases result
      refine ⟨p, r, seen, m, ⟨position, resolved, found⟩, source, clear, ran, ?_, rfl, ?_, ?_⟩
      case refine_1 => exact resolved.examined.trans { Examined.refl r.engine with }
      case refine_2 =>
        dsimp only
        rw [trail, brought]
      case refine_3 =>
        dsimp only
        rw [trail]
        rfl

namespace Analysis

theorem minimizing (h : Analysis e c p r seen m f learnt) :
    Minimizing r.engine.explainer seen r.lits.toList [] m :=
  Minimizer.run_minimizing (fun v => (h.source v).mp) h.clear h.ran

theorem sublist (h : Analysis e c p r seen m f learnt) : m.kept.toList.Sublist r.lits.toList := by
  have kept := h.minimizing.sublist
  rw [List.append_nil] at kept
  exact kept

/-- The clause learnt is the opposite of the literal left and what minimization kept. -/
theorem list (h : Analysis e c p r seen m f learnt) :
    ∃ rest, learnt.lits.toList = p.neg :: rest ∧ rest.Perm m.kept.toList := by
  obtain ⟨rest, list, perm, -⟩ := e.trail.bringHighest_one p.neg m.kept.toList
  exact ⟨rest, h.lits ▸ list, perm⟩

/-- Minimization left out only what the kept literals explain. -/
theorem explained (h : Analysis e c p r seen m f learnt) :
    Explained { trail := e.trail, arena := e.arena } m.seen m.kept.toList := by
  obtain ⟨i, resolved, -⟩ := h.resolved
  intro v mark
  have known := h.minimizing.explained v mark
  rw [List.append_nil] at known
  have causes : r.engine.explainer.causes v = e.explainer.causes v := resolved.examined.causes v
  have trail : r.engine.explainer.trail = e.trail := resolved.examined.trail
  rw [causes, trail] at known
  exact known

theorem marked (h : Analysis e c p r seen m f learnt) {l : Lit} (inside : l ∈ r.lits) :
    m.seen.get l.var = .source :=
  h.minimizing.keeps _ ((h.source l.var).mpr ⟨l, Array.mem_toList_iff.mpr inside, rfl⟩)

/-- Every mark is of the clause before minimization or of an explanation, and both are taken back. -/
theorem unseen (h : Analysis e c p r seen m f learnt) (v : Var) : f.seen.get v = .unseen := by
  rw [h.unmarked, DenseMap.get_insert, Frontier.get_foldl_unmark]
  split
  · rfl
  · split
    · rfl
    next unlisted =>
      cases mark : m.seen.get v with
      | unseen => rfl
      | source =>
        refine absurd ?_ unlisted
        rcases h.minimizing.listed v mark with ⟨q, member, same⟩ | ⟨q, member, same⟩
        · exact ⟨q, List.mem_append_left _ member, same⟩
        · exact ⟨q, List.mem_append_right _ member, same⟩
      | resolved => exact absurd mark (h.minimizing.clear v)

theorem teaches {aside : List ClauseId} (h : Analysis e c p r seen m f learnt) (sound : e.Sound aside)
    (positive : e.trail.level ≠ 0) : e.Teaches learnt := by
  obtain ⟨i, resolved, -⟩ := h.resolved
  have learns := teaches_of_resolved sound positive resolved h.sublist h.explained (fun l => h.marked)
    h.lits learnt.lbd
  rw [← h.level] at learns
  exact learns

end Analysis

/-- Conflict analysis learns a clause, and leaves nothing behind but scores. -/
theorem analyze_teaches {aside : List ClauseId} (sound : e.Sound aside) (conflict : e.IsConflict c)
    (positive : e.trail.level ≠ 0) (result : e.analyze c = .ok (f, learnt)) :
    e.Examined f ∧ (∀ v, f.seen.get v = .unseen) ∧ e.Teaches learnt := by
  obtain ⟨p, r, seen, m, h⟩ := analysis_of_analyze sound conflict positive result
  exact ⟨h.examined, h.unseen, h.teaches sound positive⟩

end Engine

end Cdcl
