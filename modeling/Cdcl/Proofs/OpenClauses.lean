import Cdcl.Proofs.Simplified

/-!
# Simplified clauses are open

A simplification looks only at the literals after the second. That is enough: after propagation a watched
literal of an original clause is false only if the clause is satisfied, and then it is removed. So the
original clauses that stay have no literal with a value, and neither have the pairs that others become.

## Main results

- `Regular.simplifyClause_open`: what is left of one clause has no literal with a value.
- `Quiet.originalsOpen_simplifyAll`: so it is with all that is left of the original clauses.
- `PairedBy.undecided`: and with the pairs that become of them.
-/

namespace Cdcl

namespace Engine

variable {F : List (List Lit)} {L : Ledger} {e f : Engine} {ids rest : List ClauseId} {id x : ClauseId}
  {outcome : Simplified} {a b l : Lit} {n : Nat}

/-- No literal of the clause has a value. -/
def OpenClause (e : Engine) (id : ClauseId) : Prop :=
  ∀ l ∈ (e.clause id).lits, e.trail.value l.var = .undecided

/-- No fact is about a literal of an original clause. -/
def OriginalsOpen (e : Engine) : Prop :=
  ∀ id ∈ e.originals, ∀ l ∈ (e.clause id).lits, l ∉ e.trail.facts ∧ l.neg ∉ e.trail.facts

/-! ### One clause -/

theorem undecided_of_dropFalse (h : e.Regular L e.trail.head)
    (propagated : e.trail.head = e.trail.lits.size) (original : id ∈ L.originals)
    (unsatisfied : e.isSatisfied id = false) (member : l ∈ dropFalse e.trail (e.clause id).lits) :
    e.trail.value l.var = .undecided := by
  have proper := h.sound.proper id (isRemoved_of_isAttached (h.guarded.clauses id original).1)
  have size := proper.size
  have inside : l ∈ (e.clause id).lits := by
    rw [← Array.mem_toList_iff, toList_dropFalse] at member
    rw [← Array.mem_toList_iff, ← List.take_append_drop 2 (e.clause id).lits.toList]
    exact (List.Sublist.append (.refl _) List.filter_sublist).subset member
  have notTrue : e.trail.isTrue l = false := by
    by_contra holds
    have satisfied : e.isSatisfied id = true := by
      unfold Engine.isSatisfied Trail.satisfies
      rw [Array.any_eq_true']
      exact ⟨l, inside, by simpa using holds⟩
    exact absurd (unsatisfied.symm.trans satisfied) Bool.false_ne_true
  have notFalse : e.trail.isFalse l = false := by
    rw [← Array.mem_toList_iff, toList_dropFalse, List.mem_append, List.mem_filter] at member
    rcases member with watched | ⟨-, kept⟩
    · -- The first two are watched.
      obtain ⟨i, at_i⟩ := List.mem_iff_getElem?.mp watched
      have low : i < 2 := by
        have bound := (List.getElem?_eq_some_iff.mp at_i).1
        rw [List.length_take] at bound
        omega
      rw [List.getElem?_take_of_lt low, Array.getElem?_toList] at at_i
      have same : (e.clause id).lit i = l := by
        rw [Clause.lit, Array.getD_eq_getD_getElem?, at_i, Option.getD_some]
      refine h.watched_open propagated original unsatisfied ?_
      rcases (by omega : i = 0 ∨ i = 1) with rfl | rfl
      · exact .inl same.symm
      · exact .inr same.symm
    · simpa using kept
  exact Trail.value_eq_undecided notTrue notFalse

/-- If no fewer literals are left, then nothing was dropped. -/
theorem dropFalse_eq_self {t : Trail} {lits : Array Lit} (size : lits.size ≤ (dropFalse t lits).size) :
    dropFalse t lits = lits := by
  have sublist : (dropFalse t lits).toList.Sublist lits.toList := by
    rw [toList_dropFalse]
    conv_rhs => rw [← List.take_append_drop 2 lits.toList]
    exact (List.Sublist.refl _).append List.filter_sublist
  exact Array.toList_inj.mp (sublist.eq_of_length_le (by simpa using size))

/-- What is left of an original clause has no literal with a value. -/
theorem Regular.simplifyClause_open (h : e.Regular L e.trail.head)
    (propagated : e.trail.head = e.trail.lits.size) (original : id ∈ L.originals)
    (result : e.simplifyClause id = (outcome, f)) :
    (outcome.stays = true → ∀ l ∈ (f.clause id).lits, e.trail.value l.var = .undecided) ∧
      (outcome = .becameBinary → e.trail.value ((e.clause id).lit 0).var = .undecided ∧
        e.trail.value ((e.clause id).lit 1).var = .undecided) := by
  obtain ⟨attached, -⟩ := h.guarded.clauses id original
  have used := isRemoved_of_isAttached attached
  have size := (h.sound.proper id used).size
  have left (open_ : e.isSatisfied id = false) {l : Lit}
      (member : l ∈ dropFalse e.trail (e.clause id).lits) : e.trail.value l.var = .undecided :=
    undecided_of_dropFalse h propagated original open_ member
  cases simplifyClause_cases result with
  | satisfied => exact ⟨by simp [Simplified.stays], by simp⟩
  | frozen _ frozen =>
    rw [isAttached_iff] at attached
    rw [attached.2] at frozen
    cases frozen
  | whole open_ _ none =>
    refine ⟨fun _ l inside => left open_ ?_, by simp⟩
    rwa [dropFalse_eq_self none]
  | pair open_ _ two =>
    have watched {i : Nat} (low : i < 2) : e.trail.value ((e.clause id).lit i).var = .undecided := by
      refine left open_ ?_
      rw [← getD_dropFalse size low, Array.getD_eq_getD_getElem?,
        Array.getElem?_eq_getElem (by omega), Option.getD_some]
      exact Array.getElem_mem _
    exact ⟨by simp [Simplified.stays], fun _ => ⟨watched (by omega), watched (by omega)⟩⟩
  | shorter open_ =>
    refine ⟨fun _ l inside => left open_ ?_, by simp⟩
    change l ∈ (((e.arena.modify id (·.setLits _)).waste _).get id).lits at inside
    rw [get_shrunk used, if_pos rfl] at inside
    exact inside

/-- The other clauses are as before. -/
theorem SimplifiedTo.clause_of_ne (h : e.SimplifiedTo id outcome f)
    (used : (e.clause id).isRemoved = false) (ne : x ≠ id) : f.clause x = e.clause x := by
  cases h with
  | removed => exact clause_removeClause used ne
  | unchanged => rfl
  | becameBinary =>
    obtain ⟨tally, same⟩ := (e.removeClause id).addBinary_eq ((e.clause id).lit 0)
      ((e.clause id).lit 1) (e.clause id).isLearnt
    rw [same]
    exact clause_removeClause used ne
  | shrunk _ _ n =>
    exact (get_shrunk used x).trans (if_neg (Ne.symm ne))

/-! ### All clauses -/

/-- An original clause becomes this pair when all clauses are simplified. -/
inductive PairedBy (e : Engine) : Lit → Lit → Prop where
  | mk {before after : List ClauseId} {id : ClauseId} {f : Engine}
    (list : e.originals.toList = before ++ id :: after)
    (result : (e.simplifiedUpTo before).engine.simplifyClause id = (.becameBinary, f)) :
    PairedBy e (((e.simplifiedUpTo before).engine.clause id).lit 0)
      (((e.simplifiedUpTo before).engine.clause id).lit 1)

theorem simplifiedUpTo_append_singleton (e : Engine) (ids : List ClauseId) (id : ClauseId) :
    e.simplifiedUpTo (ids ++ [id]) = simplifyOriginal (e.simplifiedUpTo ids) id :=
  List.foldl_concat ..

theorem Quiet.open_simplifiedUpTo (h : e.Quiet F) (list : e.originals.toList = ids ++ rest) :
    ∀ id ∈ (e.simplifiedUpTo ids).kept, (e.simplifiedUpTo ids).engine.OpenClause id := by
  induction ids using List.reverseRecOn generalizing rest with
  | nil => exact fun id member => absurd member (Array.not_mem_empty id)
  | append_singleton ids id ih =>
    rw [List.append_assoc, List.singleton_append] at list
    have before := ih list
    obtain ⟨⟨olds, front, pairs, -, -, faithful⟩, neat⟩ := h.recalls.simplifiedUpTo h.zero h.propagated list
    have same := neat.same
    rw [simplifiedUpTo_append_singleton]
    generalize e.simplifiedUpTo ids = s at before faithful same ⊢
    have propagated : s.engine.trail.head = s.engine.trail.lits.size := by
      rw [same.head, same.lits]
      exact h.propagated
    rcases stepped : s.engine.simplifyClause id with ⟨outcome, f⟩
    obtain ⟨⟨stats, engine⟩, kept⟩ := simplifyOriginal_eq stepped
    have used := isRemoved_of_isAttached (faithful.guarded.clauses id (by simp)).1
    have done := simplifiedTo (faithful.sound.proper id used).size stepped
    have value (v : Var) : f.trail.value v = s.engine.trail.value v := by
      unfold Trail.value
      rw [done.steady.trail.values]
    obtain ⟨stays, -⟩ := faithful.toRegular.simplifyClause_open propagated (by simp) stepped
    -- The clauses kept before are other clauses, and stay open when this one is simplified.
    have fresh : id ∉ s.kept.toList := by
      have distinct := faithful.listed.originals_nodup
      rw [List.nil_append, ← List.append_assoc, List.nodup_middle, List.nodup_cons] at distinct
      exact fun member => distinct.1
        (List.mem_append_left _ (List.mem_append_right _ member))
    suffices stay : ∀ x ∈ (if outcome.stays then s.kept.toList ++ [id] else s.kept.toList), f.OpenClause x by
      intro x member
      rw [engine]
      exact stay x (kept ▸ Array.mem_toList_iff.mpr member)
    have old : ∀ x ∈ s.kept.toList, f.OpenClause x := fun x member l inside => by
      rw [done.clause_of_ne used fun same => fresh (same ▸ member)] at inside
      exact (value _).trans (before x (Array.mem_toList_iff.mp member) l inside)
    split
    next stay =>
      intro x member
      rcases List.mem_append.mp member with member | last
      · exact old x member
      · cases List.mem_singleton.mp last
        exact fun l inside => (value _).trans (stays stay l inside)
    next => exact old

/-- At level zero a literal without a value is about no fact. -/
theorem Sound.undecided_iff {aside : List ClauseId} (h : e.Sound aside) (zero : e.trail.level = 0) :
    e.trail.value l.var = .undecided ↔ l ∉ e.trail.facts ∧ l.neg ∉ e.trail.facts := by
  rw [Trail.Coherent.mem_facts_of_level_zero zero, Trail.Coherent.mem_facts_of_level_zero zero,
    ← h.trail.isTrue_iff, ← h.trail.isFalse_iff, Bool.not_eq_true, Bool.not_eq_true]
  constructor
  · intro undecided
    rw [← Trail.valueLit_eq_undecided_iff] at undecided
    simp [Trail.isTrue, Trail.isFalse, undecided]
  · rintro ⟨notTrue, notFalse⟩
    exact Trail.value_eq_undecided notTrue notFalse

/-- After a simplification no fact is about a literal of an original clause. -/
theorem Quiet.originalsOpen_simplifyAll (h : e.Quiet F) : e.simplifyAll.OriginalsOpen := by
  obtain ⟨-, originals, -⟩ := h.recalls.learntsSimplified h.zero h.propagated
  have list := (List.append_nil e.originals.toList).symm
  have left := h.open_simplifiedUpTo list
  obtain ⟨⟨olds, front, pairs, -, -, faithful⟩, neat⟩ := h.recalls.simplifiedUpTo h.zero h.propagated list
  have zero : (e.simplifiedUpTo e.originals.toList).engine.trail.level = 0 :=
    neat.same.level.trans h.zero
  rw [simplifyAll_eq, originals]
  exact fun id member l inside => (faithful.sound.undecided_iff zero).mp (left id member l inside)

/-- A pair that an original clause becomes has no literal with a value. -/
theorem PairedBy.undecided (h : e.Quiet F) (paired : e.PairedBy a b) :
    e.trail.value a.var = .undecided ∧ e.trail.value b.var = .undecided := by
  obtain ⟨list, result⟩ := paired
  obtain ⟨⟨olds, front, pairs, -, -, faithful⟩, neat⟩ := h.recalls.simplifiedUpTo h.zero h.propagated list
  have same := neat.same
  have undecided := (faithful.toRegular.simplifyClause_open
    (by rw [same.head, same.lits]; exact h.propagated) (by simp) result).2 rfl
  unfold Trail.value at undecided ⊢
  rwa [same.values] at undecided

end Engine

end Cdcl
