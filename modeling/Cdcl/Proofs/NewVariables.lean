import Cdcl.Proofs.Faithfulness

/-!
# Variables

A new variable occurs nowhere yet, so that its empty lists and its missing value change nothing for the
clauses stored. What may be decided, and how to try it first, is up to the user at any time.

## Main results

- `Settled.newVar`, `Settled.setDecision`, `Settled.setPolarity`.
-/

namespace Cdcl

namespace Watches

variable {w : Watches} {l : Lit}

theorem long_addLit (w : Watches) (l p : Lit) :
    (w.addLit l).long.get p = if l = p then #[] else w.long.get p :=
  DenseMap.get_insert ..

theorem binary_addLit (w : Watches) (l p : Lit) :
    (w.addLit l).binary.get p = if l = p then #[] else w.binary.get p :=
  DenseMap.get_insert ..

theorem frozen_addLit (w : Watches) (l p : Lit) :
    (w.addLit l).frozen.get p = if l = p then #[] else w.frozen.get p :=
  DenseMap.get_insert ..

theorem Blank.dirty_addLit (h : w.Blank) (l p : Lit) : (w.addLit l).dirty.get p = w.dirty.get p := by
  have same := DenseMap.get_grow w.dirty (DenseKey.index l + 1) p
  rw [h.dirty] at same
  exact same

theorem Blank.addLit (h : w.Blank) (l : Lit) : (w.addLit l).Blank where
  long := (DenseMap.fallback_insert ..).trans h.long
  dirty := (DenseMap.fallback_grow ..).trans h.dirty
  binary := (DenseMap.fallback_insert ..).trans h.binary
  frozen := (DenseMap.fallback_insert ..).trans h.frozen

/-- Empty lists for a literal that no clause in use watches. -/
theorem Tracks.addLit {clause : ClauseId → Clause} {aside : List ClauseId} (h : w.Tracks clause aside)
    (blank : w.Blank)
    (fresh : ∀ id, (clause id).isAttached = true → (clause id).watchCount l = 0) :
    (w.addLit l).Tracks clause aside where
  exact := by
    intro id attached notAside p
    rw [long_addLit]
    split
    next same =>
      subst same
      rw [fresh id attached, entriesOf_empty]
    next => exact h.exact id attached notAside p
  usable := h.usable
  aside := by
    intro id member p
    rw [long_addLit]
    split
    · rfl
    · exact h.aside id member p
  stale := by
    intro id detached p some_
    rw [long_addLit] at some_
    rw [blank.dirty_addLit]
    split at some_
    · rw [entriesOf_empty] at some_
      omega
    · exact h.stale id detached p some_
  listed := fun p dirty => h.listed p (blank.dirty_addLit l p ▸ dirty)

end Watches

namespace Trail

variable {n : Nat} {t : Trail}

theorem isTrue_addVar (h : t.Coherent n) (l : Lit) : (t.addVar ⟨n⟩).isTrue l = t.isTrue l := by
  have after := h.addVar.isTrue_iff l
  have before := h.isTrue_iff l
  rw [Bool.eq_iff_iff]
  exact after.trans before.symm

theorem levelOf_addVar (t : Trail) {v : Var} (old : v.index < n) :
    (t.addVar ⟨n⟩).levelOf v = t.levelOf v := by
  have other : (⟨n⟩ : Var) ≠ v := by
    rintro rfl
    exact Nat.lt_irrefl _ old
  simp only [levelOf, addVar, DenseMap.get_insert, if_neg other]

theorem reason_addVar (t : Trail) {v : Var} (old : v.index < n) :
    (t.addVar ⟨n⟩).reason v = t.reason v := by
  have other : (⟨n⟩ : Var) ≠ v := by
    rintro rfl
    exact Nat.lt_irrefl _ old
  simp only [reason, addVar, DenseMap.get_insert, if_neg other]

theorem value_addVar (t : Trail) {v : Var} (old : v.index < n) :
    (t.addVar ⟨n⟩).value v = t.value v := by
  have other : (⟨n⟩ : Var) ≠ v := by
    rintro rfl
    exact Nat.lt_irrefl _ old
  simp only [value, addVar, DenseMap.get_insert, if_neg other]

/-- What was covered stays so. -/
theorem Covers.addVar (h : t.Coherent n) {lits : Array Lit} {w : Lit} (old : w.var.index < n)
    (covered : t.Covers lits w) : (t.addVar ⟨n⟩).Covers lits w := by
  obtain ⟨l, inside, holds, le⟩ := covered
  have bound : l.var.index < n := h.bounded l ((h.isTrue_iff l).mp holds)
  refine ⟨l, inside, (isTrue_addVar h l).trans holds, ?_⟩
  rw [levelOf_addVar t bound, levelOf_addVar t old]
  exact le

end Trail

namespace Engine

variable {F : List (List Lit)} {L : Ledger} {m : Nat} {e : Engine} {aside : List ClauseId}

/-- The engine with one more variable, which may not be decided. -/
def grown (e : Engine) (polarity : Bool) : Engine :=
  { e with
    numVars := e.numVars + 1
    watches := (e.watches.addLit ⟨⟨e.numVars⟩, false⟩).addLit ⟨⟨e.numVars⟩, true⟩
    trail := e.trail.addVar ⟨e.numVars⟩
    branching := e.branching.addVar ⟨e.numVars⟩ polarity
    seen := e.seen.insert ⟨e.numVars⟩ .unseen }

theorem newVar_eq (e : Engine) (polarity : Truth) (decision : Bool) :
    e.newVar polarity decision = (⟨e.numVars⟩,
      (e.grown (polarity.toBool?.getD e.opts.defaultPolarity)).setDecision ⟨e.numVars⟩ decision) := rfl

section Grown

variable (polarity : Bool)

theorem binary_grown (sound : e.Sound aside) (p : Lit) :
    (e.grown polarity).watches.binary.get p = e.watches.binary.get p := by
  have empty {q : Lit} (new : q.var = ⟨e.numVars⟩) : e.watches.binary.get q = #[] := by
    refine Array.eq_empty_iff_forall_not_mem.mpr fun r member => ?_
    have := (sound.binary_bounded q r member).1
    rw [new] at this
    exact Nat.lt_irrefl _ this
  simp only [grown, Watches.binary_addLit]
  split
  next same => exact same ▸ (empty rfl).symm
  next =>
    split
    next same => exact same ▸ (empty rfl).symm
    next => rfl

theorem mem_long_grown {p : Lit} {w : Watcher} (member : w ∈ (e.grown polarity).watches.long.get p) :
    w ∈ e.watches.long.get p := by
  simp only [grown, Watches.long_addLit] at member
  split at member
  · cases Array.not_mem_empty w member
  · split at member
    · cases Array.not_mem_empty w member
    · exact member

theorem mem_frozen_grown {p : Lit} {w : Watcher}
    (member : w ∈ (e.grown polarity).watches.frozen.get p) : w ∈ e.watches.frozen.get p := by
  simp only [grown, Watches.frozen_addLit] at member
  split at member
  · cases Array.not_mem_empty w member
  · split at member
    · cases Array.not_mem_empty w member
    · exact member

/-- No clause in use watches a literal of the new variable. -/
theorem Sound.watchCount_new (h : e.Sound aside) {id : ClauseId}
    (attached : (e.clause id).isAttached = true) (positive : Bool) :
    (e.clause id).watchCount ⟨⟨e.numVars⟩, positive⟩ = 0 := by
  have proper := h.proper id (isRemoved_of_isAttached attached)
  have size := proper.size
  have differ {i : Nat} (low : i < 2) : (⟨⟨e.numVars⟩, positive⟩ : Lit) ≠ ((e.clause id).lit i).neg := by
    intro same
    have bound := proper.bounded _ (Clause.lit_mem (c := e.clause id) (i := i) (by omega))
    rw [← Lit.var_neg, ← same] at bound
    exact Nat.lt_irrefl _ bound
  exact if_neg fun watched => watched.elim (differ (by omega)) (differ (by omega))

theorem Sound.grown (h : e.Sound aside) : (e.grown polarity).Sound aside where
  trail := h.trail.addVar
  justified := by
    intro i l at_i
    have bound := h.trail.bounded l (Array.mem_of_getElem? at_i)
    have reason : (e.grown polarity).trail.reason l.var = e.trail.reason l.var :=
      e.trail.reason_addVar bound
    rw [reason]
    refine (h.justified at_i).transfer ⟨fun _ _ => rfl, fun _ _ => rfl⟩ (fun p q member => ?_) ?_
    · rw [binary_grown polarity h]
      exact member
    · exact fun id _ attached first => ⟨attached, first, fun _ => .rfl⟩
  proper := fun id used =>
    { h.proper id used with
      bounded := fun l member => Nat.lt_succ_of_lt ((h.proper id used).bounded l member) }
  binary_bounded := by
    intro p q member
    rw [binary_grown polarity h] at member
    exact (h.binary_bounded p q member).imp Nat.lt_succ_of_lt Nat.lt_succ_of_lt
  tracked := (h.tracked.addLit h.blank fun id attached => h.watchCount_new attached false).addLit
    (h.blank.addLit _) fun id attached => h.watchCount_new attached true
  inside := fun p w member => h.inside p w (mem_long_grown polarity member)
  blockers := fun p w member => h.blockers p w (mem_long_grown polarity member)
  blank := (h.blank.addLit _).addLit _
  unseen := by
    intro v
    simp only [Engine.grown, DenseMap.get_insert]
    split
    · rfl
    · exact h.unseen v

theorem FrozenApart.grown (h : e.FrozenApart) : (e.grown polarity).FrozenApart where
  unwatched := by
    intro id used frozen p
    have none := h.unwatched id used frozen p
    by_contra some_
    obtain ⟨w, member, same⟩ := entriesOf_pos_iff.mp (Nat.pos_of_ne_zero some_)
    have : 0 < entriesOf id (e.watches.long.get p) :=
      entriesOf_pos_iff.mpr ⟨w, mem_long_grown polarity member, same⟩
    omega
  entries := fun p w member => h.entries p w (mem_frozen_grown polarity member)

theorem Offers.grown (h : e.Offers) : (e.grown polarity).Offers :=
  h.addVar polarity fun v bound free => by
    rw [Trail.isUnassigned_iff] at free ⊢
    exact (e.trail.value_addVar bound).symm.trans free

theorem Regular.grown (h : e.Regular L m) : (e.grown polarity).Regular L m where
  sound := h.sound.grown polarity
  listed := { h.listed with }
  guarded :=
    { clauses := h.guarded.clauses
      pairs := fun a b member => by
        rw [binary_grown polarity h.sound]
        exact h.guarded.pairs a b member }
  guards :=
    { clauses := fun id member w watched before =>
        (h.guards.clauses id member w watched before).addVar h.sound.trail
          (Lit.var_neg w ▸ h.sound.trail.bounded _ before.mem)
      pairs := fun a b member before =>
        (h.guards.pairs a b member before).addVar h.sound.trail
          (Lit.var_neg a ▸ h.sound.trail.bounded _ before.mem) }
  offers := h.offers.grown polarity
  apart := h.apart.grown polarity

theorem Faithful.grown (h : e.Faithful F L m) : (e.grown polarity).Faithful F L m where
  toRegular := h.toRegular.grown polarity
  upheld := fun σ holds =>
    { clauses := (h.upheld σ holds).clauses
      binary := fun p q member => by
        rw [binary_grown polarity h.sound] at member
        exact (h.upheld σ holds).binary p q member
      facts := (h.upheld σ holds).facts }
  held := fun c given => (h.held c given).keeps (.of_same (fun _ fact => fact) rfl)

end Grown

/-- What may be decided does not matter for what is stored. -/
theorem Faithful.setDecision (h : e.Faithful F L m) {v : Var} (bound : v.index < e.numVars)
    (allowed : Bool) : (e.setDecision v allowed).Faithful F L m where
  sound := h.sound.branching _
  apart := { h.apart with }
  listed := { h.listed with }
  guarded := { h.guarded with }
  guards := ⟨h.guards.clauses, h.guards.pairs⟩
  offers := h.offers.setDecision bound allowed
  upheld := fun σ holds => { h.upheld σ holds with }
  held := fun c given => (h.held c given).keeps (.of_same (fun _ fact => fact) rfl)

theorem Settled.setDecision (h : e.Settled F) {v : Var} (bound : v.index < e.numVars)
    (allowed : Bool) : (e.setDecision v allowed).Settled F := by
  obtain ⟨⟨pairs, faithful⟩, ok⟩ := h
  exact ⟨⟨pairs, faithful.setDecision bound allowed⟩, ok⟩

theorem Settled.newVar (h : e.Settled F) (polarity : Truth) (decision : Bool) :
    (e.newVar polarity decision).2.Settled F := by
  obtain ⟨⟨pairs, faithful⟩, ok⟩ := h
  rw [newVar_eq]
  have grown : (e.grown (polarity.toBool?.getD e.opts.defaultPolarity)).Settled F :=
    ⟨⟨pairs, faithful.grown _⟩, ok⟩
  exact grown.setDecision (Nat.lt_succ_self e.numVars) decision

theorem Settled.setPolarity (h : e.Settled F) (v : Var) (positive : Bool) :
    ({ e with branching := e.branching.setPolarity v positive } : Engine).Settled F := by
  obtain ⟨⟨pairs, faithful⟩, ok⟩ := h
  exact ⟨⟨pairs, faithful.rescored { Rescored.refl e with }⟩, ok⟩

end Engine

end Cdcl
