import Cdcl.Proofs.FixedOptions

/-!
# How often clauses are frozen

Only a reduction freezes clauses, and each time it does so it counts. Whatever else is done to a
clause, its count stays, and it is thawed at most.

## Main results

- `thaws_propagateFrom`, `thaws_handleConflict`, `thaws_simplifyClause`: what the parts of a search do to
  the counts.
-/

namespace Cdcl

namespace Clause

theorem freezeCount_modifyLearnt (c : Clause) {f : LearntInfo → LearntInfo}
    (same : ∀ i, (f i).freezeCount = i.freezeCount) : (c.modifyLearnt f).freezeCount = c.freezeCount := by
  unfold freezeCount modifyLearnt
  cases c.learnt? with
  | none => rfl
  | some info => exact same info

theorem isFrozen_modifyLearnt (c : Clause) {f : LearntInfo → LearntInfo}
    (same : ∀ i, (f i).frozen = i.frozen) : (c.modifyLearnt f).isFrozen = c.isFrozen := by
  unfold isFrozen modifyLearnt
  cases c.learnt? with
  | none => rfl
  | some info => exact same info

theorem isFrozen_thawed (c : Clause) : (c.setFrozen false).isFrozen = false := by
  unfold isFrozen setFrozen modifyLearnt
  cases c.learnt? <;> rfl

end Clause

namespace Engine

variable {F : List (List Lit)} {e f g : Engine} {id : ClauseId} {conflict : Option Conflict}

/-- No clause is frozen, and no count of them rises. -/
structure Thaws (e f : Engine) : Prop where
  counts : ∀ id, (f.clause id).freezeCount = (e.clause id).freezeCount
  frozen : ∀ id, (f.clause id).isFrozen = true → (e.clause id).isFrozen = true

namespace Thaws

theorem of_eq (same : f.arena.clauses = e.arena.clauses) : e.Thaws f := by
  have clause (x : ClauseId) : f.clause x = e.clause x := by
    rw [clause, clause, ClauseArena.get, ClauseArena.get, same]
  exact ⟨fun x => congrArg _ (clause x), fun x frozen => clause x ▸ frozen⟩

theorem refl (e : Engine) : e.Thaws e := .of_eq rfl

theorem trans (h : e.Thaws f) (k : f.Thaws g) : e.Thaws g :=
  ⟨fun x => (k.counts x).trans (h.counts x), fun x frozen => h.frozen x (k.frozen x frozen)⟩

/-- What comes afterwards is not about clauses. -/
theorem andThen (h : e.Thaws f) (same : g.arena.clauses = f.arena.clauses) : e.Thaws g :=
  h.trans (.of_eq same)

/-- What went before is not about clauses. -/
theorem after (k : f.Thaws g) (same : f.arena.clauses = e.arena.clauses) : e.Thaws g :=
  (of_eq same).trans k

theorem modifyClause (e : Engine) (id : ClauseId) {change : Clause → Clause}
    (count : ∀ c, (change c).freezeCount = c.freezeCount)
    (frozen : ∀ c, (change c).isFrozen = true → c.isFrozen = true) :
    e.Thaws (e.modifyClause id change) := by
  have clause := e.clause_modifyClause_or id change
  constructor
  · intro x
    rcases clause x with same | ⟨-, changed⟩
    · rw [same]
    · rw [changed, count]
  · intro x isFrozen
    rcases clause x with same | ⟨-, changed⟩
    · exact same ▸ isFrozen
    · exact frozen _ (changed ▸ isFrozen)

/-- The literals of a clause are not about freezing. -/
theorem relit (e : Engine) (id : ClauseId) (change : Clause → Clause)
    (same : ∀ c, (change c).learnt? = c.learnt?) : e.Thaws (e.modifyClause id change) :=
  .modifyClause e id (fun c => by simp only [Clause.freezeCount, same])
    fun c frozen => by simpa only [Clause.isFrozen, same] using frozen

theorem setLbd (e : Engine) (id : ClauseId) (lbd : Nat) : e.Thaws (e.modifyClause id (·.setLbd lbd)) :=
  .modifyClause e id (fun c => c.freezeCount_modifyLearnt fun _ => rfl)
    fun c frozen => (c.isFrozen_modifyLearnt (f := ({ · with lbd := min lbd Clause.maxLbd })) fun _ => rfl) ▸ frozen

theorem setActivity (e : Engine) (id : ClauseId) (activity : Clause → Float32) :
    e.Thaws (e.modifyClause id fun c => c.setActivity (activity c)) :=
  .modifyClause e id (fun c => c.freezeCount_modifyLearnt fun _ => rfl)
    fun c frozen => (c.isFrozen_modifyLearnt (f := ({ · with activity := activity c })) fun _ => rfl) ▸ frozen

/-- A new clause is not frozen, and was not before. -/
theorem alloc {lits : Array Lit} {learnt : Bool} {arena : ClauseArena}
    (stored : e.arena.alloc lits learnt = .ok (id, arena)) : e.Thaws { e with arena } := by
  have adds := ClauseArena.adds_alloc stored
  have fresh : e.clause id = .absent := clause_eq_absent (Nat.le_of_eq adds.fresh.symm)
  have count : (Clause.fresh lits learnt).freezeCount = 0 := by cases learnt <;> rfl
  have thawed : (Clause.fresh lits learnt).isFrozen = false := by cases learnt <;> rfl
  constructor
  · intro x
    change (arena.get x).freezeCount = _
    rw [adds.get]
    split
    next same => rw [same, fresh, count]; rfl
    · rfl
  · intro x
    change (arena.get x).isFrozen = true → _
    rw [adds.get]
    split
    · rw [thawed]
      exact nofun
    · exact fun frozen => frozen

end Thaws

/-! ### Propagation -/

theorem thaws_refreshLbd (e : Engine) (id : ClauseId) : e.Thaws (e.refreshLbd id) := by
  unfold refreshLbd
  dsimp only
  split
  · exact .refl e
  · split
    · exact ((Thaws.setLbd _ id _).after rfl).andThen rfl
    · exact .of_eq rfl

theorem thaws_thawFalsified (e : Engine) (id : ClauseId) : e.Thaws (e.thawFalsified id) := by
  have thawed : e.Thaws (e.modifyClause id fun c =>
      (c.setLits (e.trail.bringHighest 1 (e.trail.bringHighest 0 c.lits))).setFrozen false) := by
    refine .modifyClause e id (fun c => ?_) fun c frozen => ?_
    · exact Clause.freezeCount_modifyLearnt _ fun _ => rfl
    · rw [Clause.isFrozen_thawed] at frozen
      cases frozen
  exact thawed.andThen rfl

theorem VisitEffect.thaws (effect : VisitEffect e f) : e.Thaws f := by
  cases effect with
  | assign | watch => exact .of_eq rfl
  | orient id falseLit =>
    refine .relit e id _ fun c => ?_
    unfold Engine.orient
    split <;> rfl
  | swap id i j => exact .relit e id (·.swap i j) fun _ => rfl
  | refresh id => exact thaws_refreshLbd e id
  | thaw id => exact thaws_thawFalsified e id

theorem thaws_propagateFrom {n : Nat} (result : propagateFrom n e = (f, conflict)) : e.Thaws f := by
  have effects := propagateFrom_effects result
  clear result
  induction effects with
  | refl => exact .refl e
  | tail _ effect ih =>
    refine ih.trans ?_
    cases effect with
    | visit effect => exact effect.thaws
    | queue => exact .of_eq rfl

/-! ### Learning -/

theorem thaws_bumpClause (e : Engine) (id : ClauseId) : e.Thaws (e.bumpClause id) := by
  have bumped := Thaws.setActivity e id fun c => c.activity + narrow e.clauseIncrement
  unfold bumpClause
  dsimp only
  split
  · refine bumped.trans ?_
    generalize e.modifyClause id _ = g
    have scaled (ids : List ClauseId) (arena : ClauseArena) :
        ({ g with arena } : Engine).Thaws { g with
          arena := ids.foldl
            (fun arena id => arena.modify id fun c => c.setActivity (c.activity * 1e-20)) arena } := by
      induction ids generalizing arena with
      | nil => exact .refl _
      | cons id ids ih =>
        exact (Thaws.setActivity { g with arena } id fun c => c.activity * 1e-20).trans (ih _)
    have all := scaled g.learnts.toList g.arena
    rw [Array.foldl_toList] at all
    exact all.andThen rfl
  · exact bumped

theorem thaws_bumpIfLearnt (e : Engine) (id : ClauseId) : e.Thaws (e.bumpIfLearnt id) := by
  unfold bumpIfLearnt
  split
  · exact thaws_bumpClause e id
  · exact .refl e

theorem thaws_effects (effects : Resolution.Effects e f) : e.Thaws f := by
  induction effects with
  | refl => exact .refl e
  | tail _ effect ih =>
    refine ih.trans ?_
    cases effect with
    | mark | meet => exact .of_eq rfl
    | cite id => exact thaws_bumpIfLearnt _ id

theorem thaws_analyze {c : Conflict} {learnt : Learnt} (result : e.analyze c = .ok (f, learnt)) :
    e.Thaws f := by
  obtain ⟨u, g, effects, ⟨seen, before, after, rfl⟩, rfl, -⟩ := analyze_effects result
  exact (thaws_effects effects).andThen rfl

theorem arena_cancelTo (e : Engine) (level : Nat) : (e.cancelTo level).arena = e.arena := by
  unfold cancelTo
  split <;> rfl

theorem thaws_storeLearnt {lits : Array Lit} {lbd : Nat}
    (result : e.storeLearnt lits lbd = .ok (id, f)) : e.Thaws f := by
  obtain ⟨arena, stored, rfl⟩ := storeLearnt_eq result
  have counted := (Thaws.alloc stored).trans (.setLbd _ id lbd)
  exact counted.trans ((thaws_bumpClause (e.withLearnt id arena lits lbd) id).after rfl)

theorem thaws_addLearnt {c : Learnt} (result : e.addLearnt c = .ok f) : e.Thaws f := by
  cases addLearnt_cases result with
  | empty => exact .refl _
  | unit => exact .of_eq rfl
  | pair => exact .of_eq rfl
  | stored _ stored => exact (thaws_storeLearnt stored).andThen rfl

theorem thaws_handleConflict {c : Conflict} {handled : Handled}
    (result : e.handleConflict c = .ok (handled, f)) : e.Thaws f := by
  cases handleConflict_cases result with
  | full analyzed => exact (thaws_analyze analyzed).andThen (congrArg _ (arena_cancelTo _ _))
  | @learnt a b d analyzed added =>
    have back := (thaws_analyze analyzed).andThen (congrArg _ (arena_cancelTo a d.level))
    obtain ⟨policy, stats, noted, -⟩ := noteConflict_eq b.decayActivities d.lbd e.trail.size
    rw [noted]
    exact (back.trans (thaws_addLearnt added)).andThen rfl

/-! ### Upkeep -/

theorem thaws_removeClause (e : Engine) (id : ClauseId) : e.Thaws (e.removeClause id) := by
  obtain ⟨tally, lbdCounts, space, same⟩ := e.removeClause_eq id
  rw [same]
  exact (Thaws.relit e id Clause.remove fun _ => rfl).andThen rfl

theorem thaws_addFact (e : Engine) (l : Lit) : e.Thaws (e.addFact l) := by
  unfold addFact
  split
  next run => exact ((thaws_propagateFrom run).after (e := e) rfl).andThen rfl
  next run => exact (thaws_propagateFrom run).after rfl

theorem thaws_simplifyClause {outcome : Simplified} (result : e.simplifyClause id = (outcome, f)) :
    e.Thaws f := by
  cases simplifyClause_cases result with
  | satisfied => exact thaws_removeClause e id
  | frozen | whole => exact .refl _
  | pair =>
    obtain ⟨tally, same⟩ :=
      (e.removeClause id).addBinary_eq ((e.clause id).lit 0) ((e.clause id).lit 1) (e.clause id).isLearnt
    rw [same]
    exact (thaws_removeClause e id).andThen rfl
  | shorter =>
    exact (Thaws.relit e id (·.setLits (dropFalse e.trail (e.clause id).lits)) fun _ => rfl).andThen rfl

theorem thaws_replaceLits (e : Engine) (id : ClauseId) (lits : Array Lit) :
    e.Thaws (e.replaceLits id lits) :=
  (Thaws.relit e id (·.setLits lits) fun _ => rfl).andThen rfl

end Engine

end Cdcl
