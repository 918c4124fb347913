import Cdcl.Proofs.Turns

/-!
# Slots

A key can be looked up in a table only if it has a slot there. The tables that are kept for variables
and literals get a slot for each variable when it is created, and none loses one later.

## Main results

- `Equipped`: the tables have slots for all variables that were created. It comes with what else the
  accesses rely on and no operation on clauses touches.
- `Equipped.knows`, `Sound.reads`: a variable that was created can be looked up, and a clause in use can
  be read.
- `Balanced.counts`: a clause in use was counted, so that it can be taken out of the counts.
- `Offers.heapInRange`: positions in the heap are those of its elements.
-/

namespace Cdcl

namespace DenseMap

variable {κ α : Type} [DenseKey κ] {m : DenseMap κ α} {n : Nat} {k : κ}

theorem has_iff : m.has k = true ↔ DenseKey.index k < m.size := decide_eq_true_iff

theorem size_insert (m : DenseMap κ α) (k : κ) (v : α) :
    (m.insert k v).size = max (DenseKey.index k + 1) m.size := by
  simp only [insert, size, Array.size_setIfInBounds]
  exact size_grow m _ _

theorem size_modify (m : DenseMap κ α) (k : κ) (f : α → α) :
    (m.modify k f).size = max (DenseKey.index k + 1) m.size := by
  simp only [modify, size, Array.size_modify]
  exact size_grow m _ _

theorem le_size_insert (le : n ≤ m.size) (k : κ) (v : α) : n ≤ (m.insert k v).size := by
  rw [size_insert]
  exact Nat.le_trans le (Nat.le_max_right ..)

theorem le_size_modify (le : n ≤ m.size) (k : κ) (f : α → α) : n ≤ (m.modify k f).size := by
  rw [size_modify]
  exact Nat.le_trans le (Nat.le_max_right ..)

omit [DenseKey κ] in
theorem size_mapValues (m : DenseMap κ α) (f : α → α) : (m.mapValues f).size = m.size := by
  simp [size, mapValues]

theorem size_reserve (m : DenseMap κ α) (k : κ) (pad : α) :
    (m.reserve k pad).size = max (DenseKey.index k + 1) m.size := size_grow m _ _

theorem succ_le_size_insert (m : DenseMap κ α) (v : α) (at_n : DenseKey.index k = n) :
    n + 1 ≤ (m.insert k v).size := by
  rw [size_insert, at_n]
  exact Nat.le_max_left ..

theorem size_insert_of_has (slot : m.has k = true) (v : α) : (m.insert k v).size = m.size := by
  have inside := has_iff.mp slot
  rw [size_insert]
  exact Nat.max_eq_right inside

/-- A value other than the fallback is in a slot. -/
theorem has_of_get_ne (differs : m.get k ≠ m.fallback) : m.has k = true := by
  refine has_iff.mpr (Nat.lt_of_not_le fun outside => differs ?_)
  rw [get_eq, Array.getElem?_eq_none outside]
  rfl

theorem le_size_foldl_insert {β : Type} (key : β → κ) (value : β → α) (bs : List β)
    {m : DenseMap κ α} (le : n ≤ m.size) :
    n ≤ (bs.foldl (fun m b => m.insert (key b) (value b)) m).size := by
  induction bs generalizing m with
  | nil => exact le
  | cons b bs ih => exact ih (le_size_insert le _ _)

end DenseMap

/-- Each member of the set has a flag, which clearing the set lowers. -/
def DenseSet.Slotted {κ : Type} [DenseKey κ] (s : DenseSet κ) : Prop :=
  ∀ k ∈ s.members, s.flags.has k = true

namespace DenseSet

variable {κ : Type} [DenseKey κ] {s : DenseSet κ}

theorem slotted_empty : (empty : DenseSet κ).Slotted := by
  intro k member
  simp [empty] at member

theorem Slotted.insert (h : s.Slotted) (k : κ) : (s.insert k).Slotted := by
  unfold DenseSet.insert
  split
  · exact h
  intro j member
  simp only [Array.mem_push] at member
  refine DenseMap.has_iff.mpr ?_
  change DenseKey.index j < (s.flags.insert k true).size
  rcases member with before | rfl
  · have slot := DenseMap.has_iff.mp (h j before)
    rw [DenseMap.size_insert]
    omega
  · exact DenseMap.succ_le_size_insert _ _ rfl

end DenseSet

theorem Lit.code_lt {n : Nat} {l : Lit} (bound : l.var.index < n) : l.code < 2 * n := by
  obtain ⟨v, positive⟩ := l
  dsimp only at bound
  cases positive
  all_goals
    simp only [Lit.code]
    simp
    omega

/-! ### The tables of the trail, the heuristic and the watches -/

/-- The tables of the assignment have a slot for the variable. -/
structure Trail.Has (t : Trail) (v : Var) : Prop where
  value : t.values.has v = true
  reason : t.reasons.has v = true
  level : t.levels.has v = true

/-- The tables of the branching heuristic have a slot for the variable. -/
structure Branching.Has (b : Branching) (v : Var) : Prop where
  activity : b.activity.has v = true
  decision : b.decision.has v = true
  polarity : b.polarity.has v = true
  reference : b.referencePolarity.has v = true
  assigned : b.lastAssigned.has v = true

/-- There are lists of watches for the literal. -/
structure Watches.Has (w : Watches) (l : Lit) : Prop where
  long : w.long.has l = true
  dirty : w.dirty.has l = true
  binary : w.binary.has l = true
  frozen : w.frozen.has l = true

/-- The tables of the assignment have slots for the variables below `n`. -/
structure Trail.Spans (n : Nat) (t : Trail) : Prop where
  values : n ≤ t.values.size
  reasons : n ≤ t.reasons.size
  levels : n ≤ t.levels.size

/-- The tables of the branching heuristic have slots for the variables below `n`, and each polarity has
one to be compared with. -/
structure Branching.Spans (n : Nat) (b : Branching) : Prop where
  activity : n ≤ b.activity.size
  decision : n ≤ b.decision.size
  polarity : n ≤ b.polarity.size
  reference : n ≤ b.referencePolarity.size
  assigned : n ≤ b.lastAssigned.size
  paired : b.polarity.size ≤ b.referencePolarity.size

/-- There are lists of watches for both literals of each variable below `n`, and no others are to be
cleaned. -/
structure Watches.Spans (n : Nat) (w : Watches) : Prop where
  long : 2 * n ≤ w.long.size
  dirty : 2 * n ≤ w.dirty.size
  binary : 2 * n ≤ w.binary.size
  frozen : 2 * n ≤ w.frozen.size
  listed : ∀ key ∈ w.dirtyKeys, key.var.index < n

namespace Trail

variable {n : Nat} {t : Trail} {v : Var}

theorem Spans.has (h : t.Spans n) (bound : v.index < n) : t.Has v :=
  ⟨DenseMap.has_iff.mpr (Nat.lt_of_lt_of_le bound h.values),
    DenseMap.has_iff.mpr (Nat.lt_of_lt_of_le bound h.reasons),
    DenseMap.has_iff.mpr (Nat.lt_of_lt_of_le bound h.levels)⟩

theorem Spans.assign (h : t.Spans n) (l : Lit) (why : Reason) : (t.assign l why).Spans n :=
  ⟨DenseMap.le_size_insert h.values _ _, DenseMap.le_size_insert h.reasons _ _,
    DenseMap.le_size_insert h.levels _ _⟩

theorem Spans.forgetReason (h : t.Spans n) (u : Var) : (t.forgetReason u).Spans n :=
  { h with
    reasons := DenseMap.le_size_insert h.reasons _ _
    levels := DenseMap.le_size_insert h.levels _ _ }

theorem Spans.cancelTo (h : t.Spans n) (level : Nat) : (t.cancelTo level).Spans n where
  values := DenseMap.le_size_foldl_insert (fun x : Lit × Nat => x.1.var) (fun _ => Truth.undecided) _
    h.values
  reasons := h.reasons
  levels := h.levels

theorem spans_addVar (t : Trail) (n : Nat) : (t.addVar ⟨n⟩).Spans (n + 1) :=
  ⟨DenseMap.succ_le_size_insert _ _ rfl, DenseMap.succ_le_size_insert _ _ rfl,
    DenseMap.succ_le_size_insert _ _ rfl⟩

end Trail

namespace Branching

variable {n : Nat} {b : Branching} {v : Var}

theorem Spans.has (h : b.Spans n) (bound : v.index < n) : b.Has v :=
  ⟨DenseMap.has_iff.mpr (Nat.lt_of_lt_of_le bound h.activity),
    DenseMap.has_iff.mpr (Nat.lt_of_lt_of_le bound h.decision),
    DenseMap.has_iff.mpr (Nat.lt_of_lt_of_le bound h.polarity),
    DenseMap.has_iff.mpr (Nat.lt_of_lt_of_le bound h.reference),
    DenseMap.has_iff.mpr (Nat.lt_of_lt_of_le bound h.assigned)⟩

/-- The heap is no table of variables. -/
theorem Spans.heap (h : b.Spans n) (heap : IndexedHeap Var) : ({ b with heap } : Branching).Spans n :=
  { h with }

theorem Spans.offer (h : b.Spans n) (u : Var) : (b.offer u).Spans n := by
  unfold Branching.offer
  split
  · exact h.heap _
  · exact h

theorem Spans.setPolarity (h : b.Spans n) (bound : v.index < n) (positive : Bool) :
    (b.setPolarity v positive).Spans n := by
  have same : (b.polarity.insert v positive).size = b.polarity.size :=
    DenseMap.size_insert_of_has (h.has bound).polarity _
  exact { h with polarity := same.symm ▸ h.polarity, paired := same.symm ▸ h.paired }

theorem Spans.setDecision (h : b.Spans n) (u : Var) (allowed : Bool) :
    (b.setDecision u allowed).Spans n := by
  have set : ({ b with decision := b.decision.insert u allowed } : Branching).Spans n :=
    { h with decision := DenseMap.le_size_insert h.decision _ _ }
  exact set.offer u

theorem Spans.noteAssigned (h : b.Spans n) (phaseSaving : Nat) {l : Lit} (bound : l.var.index < n) :
    (b.noteAssigned phaseSaving l).Spans n := by
  have saved : (if 1 < phaseSaving then b.setPolarity l.var l.positive else b).Spans n := by
    split
    · exact h.setPolarity bound _
    · exact h
  unfold Branching.noteAssigned
  generalize (if 1 < phaseSaving then b.setPolarity l.var l.positive else b) = c at saved
  dsimp only
  split
  · exact saved
  · exact { saved with assigned := DenseMap.le_size_insert saved.assigned _ _ }

theorem Spans.noteUnassigned (h : b.Spans n) (phaseSaving : Nat) {l : Lit} (bound : l.var.index < n)
    (latest : Bool) : (b.noteUnassigned phaseSaving l latest).Spans n := by
  unfold Branching.noteUnassigned
  refine Spans.offer ?_ _
  split
  · exact h.setPolarity bound _
  · exact h

theorem Spans.bump (h : b.Spans n) (u : Var) : (b.bump u).Spans n := by
  have raised := DenseMap.le_size_modify h.activity u (· + b.increment)
  unfold Branching.bump
  dsimp only
  split
  · exact { h with activity := (DenseMap.size_mapValues _ _).symm ▸ raised }
  · exact { h with activity := raised }

theorem Spans.newEpoch (h : b.Spans n) : b.newEpoch.Spans n :=
  { h with reference := h.polarity, paired := Nat.le_refl _ }

theorem Spans.pickFrom (h : b.Spans n) (unassigned : Var → Bool) (k : Nat) :
    (b.pickFrom unassigned k).2.Spans n := by
  induction k generalizing b with
  | zero => exact h
  | succ k ih =>
    unfold Branching.pickFrom
    split
    · exact h
    · dsimp only
      split
      · exact h.heap _
      · exact ih (h.heap _)

theorem Spans.addVar (h : b.Spans n) (polarity : Bool) : (b.addVar ⟨n⟩ polarity).Spans (n + 1) where
  activity := DenseMap.succ_le_size_insert _ _ rfl
  decision := DenseMap.succ_le_size_insert _ _ rfl
  polarity := DenseMap.succ_le_size_insert _ _ rfl
  reference := DenseMap.succ_le_size_insert _ _ rfl
  assigned := DenseMap.succ_le_size_insert _ _ rfl
  paired := by
    have paired := h.paired
    simp only [Branching.addVar, DenseMap.size_insert]
    omega

end Branching

namespace Watches

variable {n : Nat} {w : Watches} {l : Lit}

theorem Spans.has (h : w.Spans n) (bound : l.var.index < n) : w.Has l := by
  have code := Lit.code_lt bound
  exact ⟨DenseMap.has_iff.mpr (Nat.lt_of_lt_of_le code h.long),
    DenseMap.has_iff.mpr (Nat.lt_of_lt_of_le code h.dirty),
    DenseMap.has_iff.mpr (Nat.lt_of_lt_of_le code h.binary),
    DenseMap.has_iff.mpr (Nat.lt_of_lt_of_le code h.frozen)⟩

theorem Spans.pushLong (h : w.Spans n) (key : Lit) (x : Watcher) : (w.pushLong key x).Spans n :=
  { h with long := DenseMap.le_size_modify h.long _ _ }

theorem Spans.setLong (h : w.Spans n) (key : Lit) (xs : Array Watcher) : (w.setLong key xs).Spans n :=
  { h with long := DenseMap.le_size_insert h.long _ _ }

theorem Spans.pushFrozen (h : w.Spans n) (key : Lit) (x : Watcher) : (w.pushFrozen key x).Spans n :=
  { h with frozen := DenseMap.le_size_modify h.frozen _ _ }

theorem Spans.setFrozen (h : w.Spans n) (key : Lit) (xs : Array Watcher) :
    (w.setFrozen key xs).Spans n := { h with frozen := DenseMap.le_size_insert h.frozen _ _ }

theorem Spans.watch (h : w.Spans n) (id : ClauseId) (first second : Lit) :
    (w.watch id first second).Spans n := (h.pushLong _ _).pushLong _ _

theorem Spans.addBinary (h : w.Spans n) (a b : Lit) : (w.addBinary a b).Spans n :=
  { h with binary := DenseMap.le_size_modify (DenseMap.le_size_modify h.binary _ _) _ _ }

theorem Spans.smudge (h : w.Spans n) {key : Lit} (bound : key.var.index < n) :
    (w.smudge key).Spans n := by
  unfold Watches.smudge
  split
  · exact h
  · refine { h with dirty := DenseMap.le_size_insert h.dirty _ _, listed := fun k member => ?_ }
    rcases Array.mem_push.mp member with old | rfl
    · exact h.listed k old
    · exact bound

theorem Spans.unwatchLater (h : w.Spans n) {first second : Lit} (first_lt : first.var.index < n)
    (second_lt : second.var.index < n) : (w.unwatchLater first second).Spans n := by
  have smudged : (w.smudge first.neg).Spans n := h.smudge first_lt
  exact smudged.smudge second_lt

theorem Spans.unwatchNow (h : w.Spans n) (id : ClauseId) (first second : Lit) :
    (w.unwatchNow id first second).Spans n :=
  { h with long := DenseMap.le_size_modify (DenseMap.le_size_modify h.long _ _) _ _ }

theorem Spans.cleanIfDirty (h : w.Spans n) (arena : ClauseArena) (key : Lit) :
    (w.cleanIfDirty arena key).Spans n := by
  unfold Watches.cleanIfDirty
  split
  · exact { h with
      long := DenseMap.le_size_modify h.long _ _
      dirty := DenseMap.le_size_insert h.dirty _ _ }
  · exact h

theorem Spans.cleanAll (h : w.Spans n) (arena : ClauseArena) : (w.cleanAll arena).Spans n := by
  have swept : ∀ keys : List Lit, ∀ {w : Watches}, w.Spans n →
      (keys.foldl (fun w key => w.cleanIfDirty arena key) w).Spans n := by
    intro keys
    induction keys with
    | nil => exact id
    | cons key keys ih => exact fun h => ih (h.cleanIfDirty arena key)
  unfold Watches.cleanAll
  rw [← Array.foldl_toList]
  exact { swept w.dirtyKeys.toList h with listed := fun key member => by simp at member }

theorem Spans.clearFrozen (h : w.Spans n) : w.clearFrozen.Spans n :=
  { h with frozen := (DenseMap.size_mapValues _ _).symm ▸ h.frozen }

theorem Spans.cleanFrozen (h : w.Spans n) (arena : ClauseArena) : (w.cleanFrozen arena).Spans n :=
  { h with frozen := (DenseMap.size_mapValues _ _).symm ▸ h.frozen }

/-- The lists of the two literals of a new variable. -/
theorem Spans.addVar (h : w.Spans n) : ((w.addLit ⟨⟨n⟩, false⟩).addLit ⟨⟨n⟩, true⟩).Spans (n + 1) := by
  have first : DenseKey.index (⟨⟨n⟩, false⟩ : Lit) = 2 * n + 1 := rfl
  have second : DenseKey.index (⟨⟨n⟩, true⟩ : Lit) = 2 * n := rfl
  constructor
  case listed => exact fun key member => Nat.lt_succ_of_lt (h.listed key member)
  all_goals
    simp only [Watches.addLit, DenseMap.size_insert, DenseMap.size_reserve, first, second]
    omega

end Watches

/-! ### Windows -/

namespace Window

/-- There is room for a value, and in a full window a place to put the next one. -/
structure Ringed {α : Type} (w : Window α) : Prop where
  capacity : 0 < w.capacity
  size : w.values.size ≤ w.capacity
  next : w.next < w.capacity

variable {w : Window Float}

theorem ringed_empty {capacity : Nat} (positive : 0 < capacity) : (empty capacity : Window Float).Ringed :=
  ⟨positive, Nat.zero_le _, positive⟩

theorem Ringed.clear (h : w.Ringed) : w.clear.Ringed := ⟨h.capacity, Nat.zero_le _, h.capacity⟩

theorem Ringed.add (h : w.Ringed) (v : Float) : (w.add v).Ringed := by
  have next : (w.next + 1) % w.capacity < w.capacity := Nat.mod_lt _ h.capacity
  unfold Window.add
  dsimp only
  split
  next room => exact ⟨h.capacity, by simpa using Nat.succ_le_of_lt room, next⟩
  next full => exact ⟨h.capacity, by simpa using h.size, next⟩

end Window

namespace Engine

variable {e f : Engine} {v : Var} {l : Lit} {id : ClauseId} {aside : List ClauseId}

/-- Every table that is kept for variables or for literals has a slot for the variable. -/
structure Knows (e : Engine) (v : Var) : Prop where
  trail : e.trail.Has v
  branching : e.branching.Has v
  watches : ∀ positive, e.watches.Has ⟨v, positive⟩
  seen : e.seen.has v = true

/-- There are slots for the variables that were created. No clause was counted where there is no count
of its level count, the windows are in shape, and minimization did not make clauses longer. -/
structure Equipped (e : Engine) : Prop where
  trail : e.trail.Spans e.numVars
  branching : e.branching.Spans e.numVars
  watches : e.watches.Spans e.numVars
  seen : e.numVars ≤ e.seen.size
  uncounted : e.lbdCounts.fallback = 0
  lbdWindow : e.policy.lbdWindow.Ringed
  trailWindow : e.policy.trailWindow.Ringed
  deleted : e.stats.literalsAfter ≤ e.stats.literalsBefore

theorem Equipped.knows (h : e.Equipped) (bound : v.index < e.numVars) : e.Knows v :=
  ⟨h.trail.has bound, h.branching.has bound, fun _ => h.watches.has bound,
    DenseMap.has_iff.mpr (Nat.lt_of_lt_of_le bound h.seen)⟩

theorem equipped_initial {opts : Options} (checked : opts.check = true) : (initial opts).Equipped where
  trail := ⟨Nat.zero_le _, Nat.zero_le _, Nat.zero_le _⟩
  branching :=
    ⟨Nat.zero_le _, Nat.zero_le _, Nat.zero_le _, Nat.zero_le _, Nat.zero_le _, Nat.le_refl _⟩
  watches :=
    ⟨Nat.zero_le _, Nat.zero_le _, Nat.zero_le _, Nat.zero_le _, fun key member =>
      absurd member (Array.not_mem_empty key)⟩
  seen := Nat.zero_le _
  uncounted := rfl
  lbdWindow := Window.ringed_empty (by simp [Options.check] at checked; omega)
  trailWindow := Window.ringed_empty (by simp [Options.check] at checked; omega)
  deleted := Nat.le_refl _

/-! ### Slots stay -/

theorem Equipped.modifyWatches (h : e.Equipped) {change : Watches → Watches}
    (spans : (change e.watches).Spans e.numVars) : (e.modifyWatches change).Equipped :=
  { h with watches := spans }

theorem Equipped.modifyClause (h : e.Equipped) (id : ClauseId) (change : Clause → Clause) :
    (e.modifyClause id change).Equipped := { h with }

theorem Equipped.assign (h : e.Equipped) (bound : l.var.index < e.numVars) (why : Reason) :
    (e.assign l why).Equipped :=
  { h with trail := h.trail.assign l why, branching := h.branching.noteAssigned _ bound }

theorem Equipped.openLevel (h : e.Equipped) : e.openLevel.Equipped :=
  { h with trail := ⟨h.trail.values, h.trail.reasons, h.trail.levels⟩ }

theorem Equipped.decide (h : e.Equipped) (bound : l.var.index < e.numVars) : (e.decide l).Equipped :=
  h.openLevel.assign bound .decision

theorem Equipped.cancelTo (h : e.Equipped) (bounded : ∀ l ∈ e.trail.lits, l.var.index < e.numVars)
    (level : Nat) : (e.cancelTo level).Equipped := by
  have above : ∀ x ∈ e.trail.above level, x.1.var.index < e.numVars := by
    intro x member
    exact bounded _ (Array.mem_of_getElem? (Trail.mem_above_iff.mp member).2)
  have undone : ∀ (xs : List (Lit × Nat)) (b : Branching), b.Spans e.numVars →
      (∀ x ∈ xs, x.1.var.index < e.numVars) →
      (xs.foldl (fun b (x : Lit × Nat) => b.noteUnassigned e.opts.phaseSaving x.1
        (Decidable.decide (e.trail.marks.back?.getD 0 ≤ x.2))) b).Spans e.numVars := by
    intro xs
    induction xs with
    | nil => exact fun b spans _ => spans
    | cons x xs ih =>
      intro b spans inside
      refine ih _ (spans.noteUnassigned _ (inside x List.mem_cons_self) _) fun y member => ?_
      exact inside y (List.mem_cons_of_mem _ member)
  unfold Engine.cancelTo
  split
  · exact h
  · exact { h with
      trail := h.trail.cancelTo level
      branching := undone _ _ h.branching above }

theorem Equipped.setDecision (h : e.Equipped) (v : Var) (allowed : Bool) :
    (e.setDecision v allowed).Equipped := { h with branching := h.branching.setDecision v allowed }

theorem Equipped.setPolarity (h : e.Equipped) (bound : v.index < e.numVars) (positive : Bool) :
    ({ e with branching := e.branching.setPolarity v positive } : Engine).Equipped :=
  { h with branching := h.branching.setPolarity bound positive }

theorem Equipped.pickLit (h : e.Equipped) : e.pickLit.2.Equipped :=
  { h with branching := h.branching.pickFrom _ _ }

theorem Equipped.addBinary (h : e.Equipped) (a b : Lit) (learnt : Bool) :
    (e.addBinary a b learnt).Equipped := by
  have added : (e.modifyWatches (·.addBinary a b)).Equipped :=
    { h with watches := h.watches.addBinary a b }
  unfold Engine.addBinary
  dsimp only
  split
  · exact { added with }
  · exact { added with }

theorem Equipped.grown (h : e.Equipped) (polarity : Bool) : (e.grown polarity).Equipped where
  trail := Trail.spans_addVar ..
  branching := h.branching.addVar polarity
  watches := h.watches.addVar
  seen := DenseMap.succ_le_size_insert _ _ rfl
  uncounted := h.uncounted
  lbdWindow := h.lbdWindow
  trailWindow := h.trailWindow
  deleted := h.deleted

/-! ### Clauses that can be read and counted -/

/-- The clause can be read: its handle names a slot of the arena, it has more literals than it is watched
on, all of them of different variables, and the tables have slots for them. -/
structure Reads (e : Engine) (id : ClauseId) : Prop where
  stored : id.slot < e.arena.clauses.size
  watched : 2 < (e.clause id).size
  distinct : ((e.clause id).lits.toList.map Lit.var).Nodup
  known : ∀ l ∈ (e.clause id).lits, e.Knows l.var

/-- The number of learnt clauses of a level count can be lowered. -/
def CountsLbd (e : Engine) (lbd : Nat) : Prop :=
  e.lbdCounts.has lbd = true ∧ 0 < e.lbdCounts.get lbd

/-- The counts are large enough for the clause to be taken out of them. -/
structure Counts (e : Engine) (id : ClauseId) : Prop where
  original : (e.clause id).learnt? = none →
    0 < e.tally.originals ∧ (e.clause id).size ≤ e.tally.originalLits
  learnt : ∀ info, (e.clause id).learnt? = some info →
    0 < e.tally.learnts ∧ (e.clause id).size ≤ e.tally.learntLits ∧
      (info.frozen = true → 0 < e.tally.frozen) ∧ e.CountsLbd info.lbd

theorem Counts.frozen (h : e.Counts id) (frozen : (e.clause id).isFrozen = true) :
    0 < e.tally.frozen := by
  unfold Clause.isFrozen at frozen
  cases learnt : (e.clause id).learnt? with
  | none =>
    rw [learnt] at frozen
    cases frozen
  | some info =>
    rw [learnt] at frozen
    exact (h.learnt info learnt).2.2.1 frozen

theorem Sound.reads (h : e.Sound aside) (equipped : e.Equipped)
    (used : (e.clause id).isRemoved = false) : e.Reads id where
  stored := slot_lt used
  watched := (h.proper id used).size
  distinct := (h.proper id used).distinct
  known := fun l inside => equipped.knows ((h.proper id used).bounded l inside)

/-- A literal of the trail is of a variable that was created. -/
theorem Sound.knows (h : e.Sound aside) (equipped : e.Equipped) (assigned : l ∈ e.trail.lits) :
    e.Knows l.var := equipped.knows (h.trail.bounded l assigned)

theorem Balanced.countsLbd (h : e.Balanced) (uncounted : e.lbdCounts.fallback = 0)
    (used : (e.clause id).isRemoved = false) {info : LearntInfo}
    (learnt : (e.clause id).learnt? = some info) : e.CountsLbd info.lbd := by
  have lbds := (h.counted used).lbds info.lbd
  rw [Clause.lbdShare_of_learnt used learnt, if_pos rfl] at lbds
  refine ⟨DenseMap.has_of_get_ne ?_, lbds⟩
  rw [uncounted]
  exact Nat.ne_of_gt lbds

theorem Balanced.counts (h : e.Balanced) (uncounted : e.lbdCounts.fallback = 0)
    (used : (e.clause id).isRemoved = false) : e.Counts id := by
  have counted := h.counted used
  refine ⟨fun original => ?_, fun info learnt => ?_⟩
  · have originals := counted.originals
    have originalLits := counted.originalLits
    rw [Clause.share_of_original used original] at originals originalLits
    exact ⟨originals, originalLits⟩
  · have learnts := counted.learnts
    have learntLits := counted.learntLits
    have frozen := counted.frozen
    rw [Clause.share_of_learnt used learnt] at learnts learntLits frozen
    refine ⟨learnts, learntLits, fun isFrozen => ?_, h.countsLbd uncounted used learnt⟩
    rw [if_pos isFrozen] at frozen
    exact frozen

/-- All learnt clauses are stored, and have activities that can be compared, and scaled down. -/
def LearntsInRange (e : Engine) : Prop :=
  ∀ id ∈ e.learnts, id.slot < e.arena.clauses.size ∧ (e.clause id).isLearnt = true

theorem Shelved.learntsInRange (h : e.Shelved) : e.LearntsInRange := by
  intro id listed
  obtain ⟨used, learnt⟩ := (h.booked.filed.learnt id).mp (Array.mem_toList_iff.mpr listed)
  exact ⟨slot_lt used, learnt⟩

theorem SameBooks.learntsInRange (h : e.SameBooks f) (stored : e.LearntsInRange) : f.LearntsInRange := by
  intro id listed
  obtain ⟨inside, learnt⟩ := stored id (h.learnts ▸ listed)
  exact ⟨h.slots.symm ▸ inside, (h.kindred id).learnt.trans learnt⟩

/-- What the accesses to an engine rely on, while some clauses are set aside: its clauses, watches and
books are in order, and its tables have slots. -/
structure Fit (aside : List ClauseId) (e : Engine) : Prop where
  sound : e.Sound aside
  apart : e.FrozenApart
  watched : e.FrozenWatched
  booked : ∃ os ks, e.Booked os ks
  equipped : e.Equipped

/-- A change that leaves the books alone. -/
theorem Fit.sameBooks {aside' : List ClauseId} (h : e.Fit aside) (books : e.SameBooks f)
    (sound : f.Sound aside') (apart : f.FrozenApart) (equipped : f.Equipped) : f.Fit aside' := by
  obtain ⟨os, ks, booked⟩ := h.booked
  exact ⟨sound, apart, books.frozenKept.watched h.watched, ⟨os, ks, books.booked booked⟩, equipped⟩

theorem Orderly.fit (h : e.Orderly) (equipped : e.Equipped) : e.Fit [] :=
  ⟨h.sound, h.apart, h.watched, ⟨_, _, h.shelved.booked⟩, equipped⟩

theorem Fit.knows (h : e.Fit aside) (bound : v.index < e.numVars) : e.Knows v := h.equipped.knows bound

theorem Fit.reads (h : e.Fit aside) (used : (e.clause id).isRemoved = false) : e.Reads id :=
  h.sound.reads h.equipped used

/-- No level starts behind the end of the trail. -/
theorem Fit.marks_le (h : e.Fit aside) : ∀ k ∈ e.trail.marks, k ≤ e.trail.lits.size := fun k mark =>
  Nat.le_trans (h.sound.trail.marks_le k mark) h.sound.trail.head_le

theorem Fit.counts (h : e.Fit aside) (used : (e.clause id).isRemoved = false) : e.Counts id := by
  obtain ⟨_, _, booked⟩ := h.booked
  exact booked.balanced.counts h.equipped.uncounted used

/-! ### The heap -/

/-- Every variable in the heap has a place in the table of positions, and slots elsewhere; the positions
are positions of the heap. -/
structure HeapInRange (e : Engine) : Prop where
  known : ∀ v ∈ e.branching.heap.items, e.Knows v ∧ e.branching.heap.positions.has v = true
  positions : ∀ v i, e.branching.heap.positions.get v = some i → i < e.branching.heap.items.size

end Engine

/-- A table of positions is blank where it has no slots: no position is that of two keys. -/
theorem IndexedHeap.Linked.fallback {κ : Type} [DenseKey κ] {h : IndexedHeap κ} (linked : h.Linked) :
    h.positions.fallback = none := by
  have beyond : ∀ n, h.positions.size ≤ n →
      h.positions.get (DenseKey.ofIndex n) = h.positions.fallback := by
    intro n outside
    rw [DenseMap.get_eq, DenseKey.index_ofIndex, Array.getElem?_eq_none outside]
    rfl
  cases blank : h.positions.fallback with
  | none => rfl
  | some i =>
    have first := (linked _ i).mp ((beyond _ (Nat.le_refl _)).trans blank)
    have second := (linked _ i).mp ((beyond _ (Nat.le_succ _)).trans blank)
    rw [first, Option.some.injEq] at second
    have same := congrArg DenseKey.index second
    rw [DenseKey.index_ofIndex, DenseKey.index_ofIndex] at same
    omega

theorem Engine.Offers.heapInRange {e : Engine} (h : e.Offers) (equipped : e.Equipped) :
    e.HeapInRange where
  known := by
    intro v member
    refine ⟨equipped.knows (h.bounded v member), DenseMap.has_of_get_ne ?_⟩
    obtain ⟨i, at_i⟩ := Array.mem_iff_getElem?.mp member
    rw [h.linked.fallback, (h.linked v i).mpr at_i]
    exact Option.some_ne_none i
  positions := fun v i at_v => (Array.getElem?_eq_some_iff.mp ((h.linked v i).mp at_v)).1

end Cdcl
