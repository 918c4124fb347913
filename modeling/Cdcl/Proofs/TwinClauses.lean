import Cdcl.Proofs.Removal
import Cdcl.Proofs.TwinPropagation

/-!
# Clauses of twins

Storing a clause in both of two twins joins the new handles; removing a clause and its twin leaves
the twins as they are.

## Main results

- `Mates.store`: a clause stored in both stands for itself.
- `Mates.removeClause`: twins stay twins when a clause and its twin are removed.
-/

namespace Cdcl

variable {M : ClauseId → ClauseId → Prop}

/-- The pairs of a relation and one more. -/
def Joined (M : ClauseId → ClauseId → Prop) (a b : ClauseId) : ClauseId → ClauseId → Prop :=
  fun x y => M x y ∨ x = a ∧ y = b

theorem Joined.self (M : ClauseId → ClauseId → Prop) (a b : ClauseId) : Joined M a b a b :=
  .inr ⟨rfl, rfl⟩

theorem Reason.Twins.mono {N : ClauseId → ClauseId → Prop} (more : ∀ {x y}, M x y → N x y)
    {why why' : Reason} (twins : why.Twins M why') : why.Twins N why' := by
  cases twins with
  | decision => exact .decision
  | binary other => exact .binary other
  | clause pair => exact .clause (more pair)

theorem Watcher.Twins.mono {N : ClauseId → ClauseId → Prop} (more : ∀ {x y}, M x y → N x y)
    {w w' : Watcher} (twins : w.Twins M w') : w.Twins N w' := ⟨more twins.pair, twins.blocker⟩

namespace Engine

variable {e f e' f' : Engine} {a b : ClauseId}

/-- Every entry is of a handle that the arena has given out. -/
def Inside (e : Engine) : Prop :=
  ∀ p, ∀ w ∈ e.watches.long.get p, w.clause.slot < e.arena.clauses.size

namespace Mates

/-! ### Storing -/

/-- A clause that is stored in both stands for itself. No entry names it yet. -/
theorem store (h : Mates M e f) {c : Clause} {arena arena' : ClauseArena}
    (adds : e.arena.Adds a c arena) (adds' : f.arena.Adds b c arena') (inside : e.Inside)
    (inside' : f.Inside) :
    Mates (Joined M a b) { e with arena } { f with arena := arena' } := by
  -- The new handles are apart from all that were related before.
  have old {x y : ClauseId} (pair : M x y) : x ≠ a ∧ y ≠ b := by
    have slots := h.slots pair
    constructor
    · rintro rfl
      exact absurd slots.1 (by rw [adds.fresh]; exact Nat.lt_irrefl _)
    · rintro rfl
      exact absurd slots.2 (by rw [adds'.fresh]; exact Nat.lt_irrefl _)
  have read (x : ClauseId) : ({ e with arena } : Engine).clause x = if x = a then c else e.clause x :=
    adds.get x
  have read' (y : ClauseId) :
      ({ f with arena := arena' } : Engine).clause y = if y = b then c else f.clause y :=
    adds'.get y
  have paired : Paired (Joined M a b) { e with arena } { f with arena := arena' } :=
    { left := by
        rintro x y y' (pair | ⟨rfl, rfl⟩) (pair' | ⟨same, rfl⟩)
        · exact h.left pair pair'
        · exact absurd same (old pair).1
        · exact absurd rfl (old pair').1
        · rfl
      right := by
        rintro x x' y (pair | ⟨rfl, rfl⟩) (pair' | ⟨rfl, same⟩)
        · exact h.right pair pair'
        · exact absurd same (old pair).2
        · exact absurd rfl (old pair').2
        · rfl
      slots := by
        rintro x y (pair | ⟨rfl, rfl⟩)
        · have slots := h.slots pair
          exact ⟨by rw [adds.size]; exact Nat.lt_succ_of_lt slots.1,
            by rw [adds'.size]; exact Nat.lt_succ_of_lt slots.2⟩
        · rw [adds.fresh, adds'.fresh, adds.size, adds'.size]
          exact ⟨Nat.lt_succ_self _, Nat.lt_succ_self _⟩
      clauses := by
        rintro x y (pair | ⟨rfl, rfl⟩)
        · rw [read, read', if_neg (old pair).1, if_neg (old pair).2, h.clause pair]
        · rw [read, read', if_pos rfl, if_pos rfl] }
  exact
    { h with
      toPaired := paired
      reasons := fun v assigned => (h.reasons v assigned).mono .inl
      originals := h.originals.imp fun _ _ => .inl
      learnts := h.learnts.imp fun _ _ => .inl
      long := by
        intro p
        have before : List.Forall₂ (Watcher.Twins (Joined M a b)) (e.working p) (f.working p) :=
          (h.long p).imp fun x y twins => twins.mono .inl
        refine forall₂_narrow before (fun w entry attached => ?_) (fun w entry attached => ?_)
          fun x y => paired.isAttached
        · -- An entry of the old lists is of a clause that was there before.
          have there := inside p w (Array.mem_toList_iff.mp entry)
          rwa [read, if_neg] at attached
          rintro rfl
          exact absurd there (by rw [adds.fresh]; exact Nat.lt_irrefl _)
        · have there := inside' p w (Array.mem_toList_iff.mp entry)
          rwa [read', if_neg] at attached
          rintro rfl
          exact absurd there (by rw [adds'.fresh]; exact Nat.lt_irrefl _) }

theorem relist (h : Mates M e f) {originals originals' learnts learnts' : Array ClauseId}
    (pairs : List.Forall₂ M originals.toList originals'.toList)
    (pairs' : List.Forall₂ M learnts.toList learnts'.toList) {recent recent' : Nat}
    (same : recent' = recent) :
    Mates M { e with originals, learnts, recentLearnts := recent }
      { f with originals := originals', learnts := learnts', recentLearnts := recent' } :=
  { h with
    originals := pairs
    learnts := pairs'
    recentLearnts := same }

/-! ### Activity -/

theorem modifyAll (h : Mates M e f) (change : Clause → Clause)
    (same : ∀ c, (change c).isAttached = c.isAttached) {ids ids' : List ClauseId}
    (pairs : List.Forall₂ M ids ids') :
    Mates M { e with arena := ids.foldl (fun arena id => arena.modify id change) e.arena }
      { f with arena := ids'.foldl (fun arena id => arena.modify id change) f.arena } := by
  induction pairs generalizing e f with
  | nil => exact h
  | cons pair _ ih => exact ih (h.rearrange pair change same)

theorem bumpClause (h : Mates M e f) (pair : M a b) : Mates M (e.bumpClause a) (f.bumpClause b) := by
  have scored (c : Clause) (x : Float32) : (c.setActivity x).isAttached = c.isAttached :=
    (c.alike_setActivity x).reordered.attached
  have bumped := h.rearrange pair (fun c => c.setActivity (c.activity + narrow e.clauseIncrement))
    fun c => scored c _
  unfold Engine.bumpClause
  dsimp only
  rw [h.clauseIncrement, bumped.clause pair]
  split
  · rw [← Array.foldl_toList, ← Array.foldl_toList]
    exact
      { bumped.modifyAll (fun c => c.setActivity (c.activity * 1e-20)) (fun c => scored c _)
          bumped.learnts with
        clauseIncrement := congrArg (· * 1e-20) bumped.clauseIncrement }
  · exact bumped

theorem bumpIfLearnt (h : Mates M e f) (pair : M a b) :
    Mates M (e.bumpIfLearnt a) (f.bumpIfLearnt b) := by
  unfold Engine.bumpIfLearnt
  rw [h.clause pair]
  split
  · exact h.bumpClause pair
  · exact h

/-! ### New clauses -/

theorem storeOriginal (h : Mates M e f) (inside : e.Inside) (inside' : f.Inside) {lits : Array Lit}
    (result : e.storeOriginal lits = .ok e') (result' : f.storeOriginal lits = .ok f') :
    ∃ N, (∀ {x y}, M x y → N x y) ∧ Mates N e' f' := by
  unfold Engine.storeOriginal at result result'
  split at result
  · cases result
  next a arena stored =>
    split at result'
    · cases result'
    next b arena' stored' =>
      cases result
      cases result'
      have joined := h.store (ClauseArena.adds_alloc stored) (ClauseArena.adds_alloc stored') inside
        inside'
      have self := Joined.self M a b
      have listed := joined.relist (forall₂_push joined.originals self) joined.learnts
        joined.recentLearnts
      exact ⟨Joined M a b, fun pair => .inl pair, (listed.attach self).modifyTally _⟩

theorem storeLearnt (h : Mates M e f) (inside : e.Inside) (inside' : f.Inside) {lits : Array Lit}
    {lbd : Nat} (result : e.storeLearnt lits lbd = .ok (a, e'))
    (result' : f.storeLearnt lits lbd = .ok (b, f')) :
    Mates (Joined M a b) e' f' := by
  unfold Engine.storeLearnt at result result'
  split at result
  · cases result
  next a arena stored =>
    split at result'
    · cases result'
    next b arena' stored' =>
      cases result
      cases result'
      have self := Joined.self M a b
      have joined := h.store ((ClauseArena.adds_alloc stored).modify (·.setLbd lbd))
        ((ClauseArena.adds_alloc stored').modify (·.setLbd lbd)) inside inside'
      have listed := joined.relist joined.originals (forall₂_push joined.learnts self)
        (congrArg (· + 1) joined.recentLearnts)
      exact (((listed.attach self).modifyTally _).recordLbd lbd).bumpClause self

/-! ### Removal -/

theorem isSatisfied (h : Mates M e f) (pair : M a b) : f.isSatisfied b = e.isSatisfied a := by
  unfold Engine.isSatisfied
  rw [h.clause pair, h.trail.satisfies]

/-- A clause is a reason if its twin is: a true literal is assigned. -/
theorem isLocked (h : Mates M e f) (pair : M a b) : f.isLocked b = e.isLocked a := by
  unfold Engine.isLocked
  dsimp only
  rw [h.clause pair, h.trail.isTrue]
  cases holds : e.trail.isTrue ((e.clause a).lit 0) with
  | false => rfl
  | true =>
    rw [Bool.true_and, Bool.true_and, Bool.eq_iff_iff, beq_iff_eq, beq_iff_eq]
    have reasons := h.reasons ((e.clause a).lit 0).var fun unassigned => by
      rw [Trail.isTrue_eq, unassigned] at holds
      cases positive : ((e.clause a).lit 0).positive <;> rw [positive] at holds <;> cases holds
    generalize e.trail.reason ((e.clause a).lit 0).var = why at reasons
    generalize f.trail.reason ((e.clause a).lit 0).var = why' at reasons
    cases reasons with
    | decision => exact ⟨nofun, nofun⟩
    | binary other => exact ⟨nofun, nofun⟩
    | clause pair' =>
      rw [Reason.clause.injEq, Reason.clause.injEq]
      exact (h.eq_iff pair' pair).symm

theorem forgetReason (h : Mates M e f) (v : Var) :
    Mates M (e.modifyTrail (·.forgetReason v)) (f.modifyTrail (·.forgetReason v)) :=
  { h with
    trail := h.trail.forgetReason v
    reasons := by
      intro w assigned
      simp only [Engine.modifyTrail, Trail.reason, Trail.forgetReason, DenseMap.get_insert]
      split
      · exact .decision
      · exact h.reasons w assigned }

theorem detachLater (h : Mates M e f) (a b : ClauseId) : Mates M (e.detachLater a) (f.detachLater b) := by
  have smudged (w : Watches) (l m : Lit) :
      (w.unwatchLater l m).long = w.long ∧ (w.unwatchLater l m).binary = w.binary := by
    obtain ⟨_, _, same, -⟩ := w.unwatchLater_eq l m
    rw [same]
    exact ⟨rfl, rfl⟩
  unfold Engine.detachLater
  dsimp only
  refine h.watches ?_ fun p => ?_
  · rw [(smudged _ _ _).2, (smudged _ _ _).2, h.binary]
  · unfold working Engine.modifyWatches
    dsimp only
    rw [(smudged _ _ _).1, (smudged _ _ _).1]
    exact h.long p

theorem uncount (h : Mates M e f) (c : Clause) : Mates M (e.uncount c) (f.uncount c) := by
  unfold Engine.uncount
  split
  next info _ => exact (h.modifyLbdCounts (·.modify info.lbd (· - 1))).modifyTally _
  · exact h.modifyTally _

/-- The accounts of the arenas need not agree. -/
theorem space (h : Mates M e f) (s s' : Space) :
    Mates M { e with arena := { e.arena with space := s } }
      { f with arena := { f.arena with space := s' } } :=
  { h with }

/-- Other literals take the place of those of a clause. -/
theorem setLits (h : Mates M e f) (pair : M a b) (lits : Array Lit) (n : Nat) :
    Mates M { e with arena := (e.arena.modify a (·.setLits lits)).waste n }
      { f with arena := (f.arena.modify b (·.setLits lits)).waste n } :=
  (h.rearrange pair (·.setLits lits) fun _ => rfl).space _ _

/-- Twins stay twins when a clause and its twin are removed. -/
theorem removeClause (h : Mates M e f) (pair : M a b) : Mates M (e.removeClause a) (f.removeClause b) := by
  unfold Engine.removeClause
  dsimp only
  rw [h.clause pair]
  have detached : Mates M (if (e.clause a).isFrozen = true then e else e.detachLater a)
      (if (e.clause a).isFrozen = true then f else f.detachLater b) := by
    split
    · exact h
    · exact h.detachLater a b
  generalize (if (e.clause a).isFrozen = true then e else e.detachLater a) = e₁ at detached ⊢
  generalize (if (e.clause a).isFrozen = true then f else f.detachLater b) = f₁ at detached ⊢
  rw [detached.isLocked pair]
  have unlocked : Mates M
      (if e₁.isLocked a = true then e₁.modifyTrail (·.forgetReason ((e.clause a).lit 0).var) else e₁)
      (if e₁.isLocked a = true then f₁.modifyTrail (·.forgetReason ((e.clause a).lit 0).var)
        else f₁) := by
    split
    · exact detached.forgetReason _
    · exact detached
  have uncounted := unlocked.uncount (e.clause a)
  have removed := uncounted.modifyClause pair Clause.remove fun attached => by
    simp [Clause.isAttached, Clause.remove, Clause.isRemoved] at attached
  exact removed.space _ _

end Mates

end Engine

end Cdcl
