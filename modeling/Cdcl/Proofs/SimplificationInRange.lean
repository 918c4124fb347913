import Cdcl.Proofs.OpenVariables
import Cdcl.Proofs.PropagationInRange

/-!
# Simplification in range

Upkeep goes through clauses one by one. It looks at the literals of each, and takes the clause, or some
of its literals, out of the counts. What it does to one clause changes the counts that the next is taken
out of.

## Main results

- `throughout_of_keeps`: what a loop asks for holds at each of its steps if an invariant provides it.
- `Quiet.simplifyAll_inRange`: every access in a simplification of all clauses is in range, and none of
  the counts goes below zero.
- `Settled.simplify_inRange`: so is every access of a simplification.
-/

namespace Cdcl

section Loops

variable {σ α : Type}

/-- What the steps of a loop ask for holds whenever one is taken. -/
def Throughout (step : σ → α → σ) (asks : σ → α → Prop) : σ → List α → Prop
  | _, [] => True
  | s, a :: as => asks s a ∧ Throughout step asks (step s a) as

/-- An invariant of a state and what is left to do provides for each step, and holds at the end. -/
theorem throughout_of_keeps {step : σ → α → σ} {asks : σ → α → Prop} (holds : σ → List α → Prop)
    (provides : ∀ {s : σ} {a : α} {as : List α}, holds s (a :: as) → asks s a)
    (keeps : ∀ {s : σ} {a : α} {as : List α}, holds s (a :: as) → holds (step s a) as)
    {s : σ} {as : List α} (start : holds s as) :
    Throughout step asks s as ∧ holds (as.foldl step s) [] := by
  induction as generalizing s with
  | nil => exact ⟨trivial, start⟩
  | cons a as ih =>
    obtain ⟨later, final⟩ := ih (keeps start)
    exact ⟨⟨provides start, later⟩, final⟩

end Loops

namespace Engine

variable {F : List (List Lit)} {e f b : Engine} {id : ClauseId} {aside os rest : List ClauseId}
  {pairs : List (Lit × Lit)} {m i firstRecent : Nat}

/-! ### What simplification looks up -/

/-- The clause can be looked at and changed, it can be taken out of the counts, and if it is a reason then
of a fact. -/
structure ClauseInRange (e : Engine) (id : ClauseId) : Prop where
  reads : e.Reads id
  counts : e.Counts id
  locked : e.isLocked id = true → e.trail.levelOf ((e.clause id).lit 0).var = 0

/-- The engine when the learnt clauses are simplified. -/
def SimplifyState.relisted (s : SimplifyState) : Engine :=
  { s.engine with
    learnts := s.kept
    recentLearnts := s.engine.recentLearnts - s.recentGone }

/-- Each clause can be simplified when its turn comes, and no more of the recent ones go than there are. -/
def SimplifyAllInRange (e : Engine) : Prop :=
  let learnts := e.learnts.toList
  let firstRecent := learnts.length - e.recentLearnts
  Throughout (simplifyLearnt firstRecent) (fun s entry => s.engine.ClauseInRange entry.1)
      { engine := e } learnts.zipIdx ∧
    let s := learnts.zipIdx.foldl (simplifyLearnt firstRecent) { engine := e }
    s.recentGone ≤ s.engine.recentLearnts ∧
      Throughout simplifyOriginal (fun s id => s.engine.ClauseInRange id) { engine := s.relisted }
        s.relisted.originals.toList

/-- The heap can be emptied, and all variables can be put in it. -/
def RebuildInRange (e : Engine) : Prop := e.HeapInRange ∧ ∀ v ∈ e.vars, e.Knows v

/-- Clauses are simplified at level zero. -/
def SimplifyInRange (e : Engine) : Prop :=
  e.trail.level = 0 ∧ (e.ok = true → e.PropagateInRange ∧
    match e.propagate with
    | (_, some _) => True
    | (e, none) =>
      e.simplifiedAt ≠ some e.trail.size → e.SimplifyAllInRange ∧ e.simplifyAll.RebuildInRange)

theorem Sound.clauseInRange (h : e.Sound aside) (balanced : e.Balanced) (equipped : e.Equipped)
    (zero : e.trail.level = 0) (used : (e.clause id).isRemoved = false) : e.ClauseInRange id := by
  refine ⟨h.reads equipped used, balanced.counts equipped.uncounted used, fun locked => ?_⟩
  have level := h.trail.levelOf_le ((h.trail.isTrue_iff _).mp (Bool.and_eq_true_iff.mp locked).1)
  rw [zero] at level
  exact Nat.le_zero.mp level

theorem Fit.clauseInRange (h : e.Fit aside) (zero : e.trail.level = 0)
    (used : (e.clause id).isRemoved = false) : e.ClauseInRange id := by
  obtain ⟨os, ks, booked⟩ := h.booked
  exact h.sound.clauseInRange booked.balanced h.equipped zero used

/-! ### Slots stay when clauses go -/

theorem Equipped.detachLater (h : e.Equipped) (proper : (e.clause id).Proper e.numVars) :
    (e.detachLater id).Equipped := by
  have bounded {i : Nat} (low : i < 3) : ((e.clause id).lit i).var.index < e.numVars :=
    proper.bounded _ (Clause.lit_mem (Nat.lt_of_lt_of_le low proper.size))
  have first := bounded (i := 0) (by decide)
  have second := bounded (i := 1) (by decide)
  exact { h with watches := h.watches.unwatchLater first second }

theorem Equipped.forgetReason (h : e.Equipped) (v : Var) :
    (e.modifyTrail (·.forgetReason v)).Equipped := { h with trail := h.trail.forgetReason v }

theorem Equipped.uncount (h : e.Equipped) (c : Clause) : (e.uncount c).Equipped := by
  unfold Engine.uncount
  split
  · exact { h.modifyLbdCounts _ (· - 1) with }
  · exact { h with }

theorem Equipped.removeClause (h : e.Equipped) (proper : (e.clause id).Proper e.numVars) :
    (e.removeClause id).Equipped := by
  unfold Engine.removeClause
  dsimp only
  have detached : (if (e.clause id).isFrozen then e else e.detachLater id).Equipped := by
    split
    · exact h
    · exact h.detachLater proper
  generalize (if (e.clause id).isFrozen then e else e.detachLater id) = d at detached
  have forgotten : (if d.isLocked id then d.modifyTrail (·.forgetReason ((e.clause id).lit 0).var)
      else d).Equipped := by
    split
    · exact detached.forgetReason _
    · exact detached
  exact { forgotten.uncount (e.clause id) with }

theorem Equipped.simplifyClause (h : e.Equipped) (proper : (e.clause id).Proper e.numVars)
    {outcome : Simplified} (result : e.simplifyClause id = (outcome, f)) : f.Equipped := by
  cases simplifyClause_cases result with
  | satisfied => exact h.removeClause proper
  | frozen | whole => exact h
  | pair => exact (h.removeClause proper).addBinary _ _ _
  | shorter =>
    unfold trimmed
    exact { h with }

theorem Equipped.simplifyLearnt {s : SimplifyState} (h : s.engine.Equipped)
    (proper : (s.engine.clause id).Proper s.engine.numVars) (firstRecent i : Nat) :
    (simplifyLearnt firstRecent s (id, i)).engine.Equipped := by
  rcases stepped : s.engine.simplifyClause id with ⟨outcome, f⟩
  have simplified := h.simplifyClause proper stepped
  have noted : (if outcome = .removed then
      f.modifyStats fun s => { s with removedLearnts := s.removedLearnts + 1 } else f).Equipped := by
    split
    · exact simplified.modifyStats simplified.deleted
    · exact simplified
  unfold Engine.simplifyLearnt
  dsimp only
  rw [stepped]
  dsimp only
  split
  · exact noted
  · exact noted

theorem Equipped.simplifyOriginal {s : SimplifyState} (h : s.engine.Equipped)
    (proper : (s.engine.clause id).Proper s.engine.numVars) :
    (simplifyOriginal s id).engine.Equipped := by
  rcases stepped : s.engine.simplifyClause id with ⟨outcome, f⟩
  have simplified := h.simplifyClause proper stepped
  unfold Engine.simplifyOriginal
  rw [stepped]
  -- No count that goes up is one of those of literals.
  cases outcome <;> exact { simplified with }

/-! ### The loops -/

/-- In the course of simplifying the learnt clauses, the `i`-th of which is next. -/
structure TidyingLearnts (F : List (List Lit)) (os rest : List ClauseId) (pairs : List (Lit × Lit))
    (b : Engine) (firstRecent i : Nat) (s : SimplifyState) : Prop where
  faithful : s.engine.Faithful F { originals := os, learnts := s.kept.toList ++ rest, pairs }
    b.trail.head
  books : SimplifyingLearnts os rest b firstRecent i s
  same : b.trail.Same s.engine.trail
  gone : s.recentGone ≤ i - firstRecent
  equipped : s.engine.Equipped

/-- In the course of simplifying the original clauses. -/
structure TidyingOriginals (F : List (List Lit)) (ks rest : List ClauseId) (b : Engine)
    (s : SimplifyState) : Prop where
  faithful : ∃ pairs, s.engine.Faithful F { originals := s.kept.toList ++ rest, learnts := ks, pairs }
    s.engine.trail.head
  books : SimplifyingOriginals ks rest b s
  same : b.trail.Same s.engine.trail
  equipped : s.engine.Equipped

theorem TidyingLearnts.provides {s : SimplifyState} (zero : b.trail.level = 0)
    (h : TidyingLearnts F os (id :: rest) pairs b firstRecent i s) : s.engine.ClauseInRange id :=
  h.faithful.sound.clauseInRange h.books.booked.balanced h.equipped (h.same.level.trans zero)
    (h.faithful.listed.learnt id (by simp)).1

theorem recentGone_simplifyLearnt (s : SimplifyState) (firstRecent i : Nat) (id : ClauseId) :
    (simplifyLearnt firstRecent s (id, i)).recentGone ≤
      s.recentGone + if firstRecent ≤ i then 1 else 0 := by
  unfold simplifyLearnt
  dsimp only
  split
  · exact Nat.le_add_right ..
  · dsimp only
    split
    · exact Nat.le_refl _
    · exact Nat.le_refl _

theorem TidyingLearnts.step {s : SimplifyState} (zero : b.trail.level = 0)
    (h : TidyingLearnts F os (id :: rest) pairs b firstRecent i s) :
    TidyingLearnts F os rest pairs b firstRecent (i + 1) (simplifyLearnt firstRecent s (id, i)) := by
  rcases stepped : s.engine.simplifyClause id with ⟨outcome, f⟩
  have proper := h.faithful.sound.proper id (h.faithful.listed.learnt id (by simp)).1
  have done := simplifiedTo proper.size stepped
  have faithful := h.faithful.simplifyLearnt (h.same.level.trans zero) done
  obtain ⟨⟨stats, engine⟩, kept⟩ := simplifyLearnt_eq stepped firstRecent i
  refine ⟨?_, h.books.step, ?_, ?_, h.equipped.simplifyLearnt proper firstRecent i⟩
  · rw [engine, kept]
    exact faithful.books
  · rw [engine]
    exact h.same.trans done.steady.trail
  · have gone := h.gone
    have more := recentGone_simplifyLearnt s firstRecent i id
    split at more <;> omega

theorem TidyingOriginals.provides {ks : List ClauseId} {s : SimplifyState} (zero : b.trail.level = 0)
    (h : TidyingOriginals F ks (id :: rest) b s) : s.engine.ClauseInRange id := by
  obtain ⟨pairs, faithful⟩ := h.faithful
  exact faithful.sound.clauseInRange h.books.booked.balanced h.equipped (h.same.level.trans zero)
    (isRemoved_of_isAttached (faithful.guarded.clauses id (by simp)).1)

theorem TidyingOriginals.step {ks : List ClauseId} {s : SimplifyState} (zero : b.trail.level = 0)
    (propagated : b.trail.head = b.trail.lits.size) (h : TidyingOriginals F ks (id :: rest) b s) :
    TidyingOriginals F ks rest b (simplifyOriginal s id) := by
  obtain ⟨pairs, faithful⟩ := h.faithful
  rcases stepped : s.engine.simplifyClause id with ⟨outcome, f⟩
  have proper := faithful.sound.proper id
    (isRemoved_of_isAttached (faithful.guarded.clauses id (by simp)).1)
  have done := simplifiedTo proper.size stepped
  have finished : s.engine.trail.head = s.engine.trail.lits.size := by
    rw [h.same.head, h.same.lits]
    exact propagated
  obtain ⟨pairs', faithful'⟩ := faithful.simplifyOriginal (h.same.level.trans zero) finished done
  obtain ⟨⟨stats, engine⟩, kept⟩ := simplifyOriginal_eq stepped
  refine ⟨⟨pairs', ?_⟩, h.books.step, ?_, h.equipped.simplifyOriginal proper⟩
  · rw [engine, kept]
    have head : f.trail.head = s.engine.trail.head := done.steady.trail.head
    change ({ f with stats } : Engine).Faithful F _ f.trail.head
    rw [head]
    exact faithful'.books
  · rw [engine]
    exact h.same.trans done.steady.trail

theorem TidyingLearnts.loop (zero : b.trail.level = 0) {ids : List ClauseId} {s : SimplifyState}
    (h : TidyingLearnts F os ids pairs b firstRecent i s) :
    Throughout (simplifyLearnt firstRecent) (fun s entry => s.engine.ClauseInRange entry.1) s
        (ids.zipIdx i) ∧
      TidyingLearnts F os [] pairs b firstRecent (i + ids.length)
        ((ids.zipIdx i).foldl (simplifyLearnt firstRecent) s) := by
  induction ids generalizing i s with
  | nil => exact ⟨trivial, h⟩
  | cons id ids ih =>
    obtain ⟨later, final⟩ := ih (h.step zero)
    rw [List.zipIdx_cons, List.length_cons, Nat.add_comm ids.length, ← Nat.add_assoc]
    exact ⟨⟨h.provides zero, later⟩, final⟩

theorem TidyingOriginals.loop {ks ids : List ClauseId} (zero : b.trail.level = 0)
    (propagated : b.trail.head = b.trail.lits.size) {s : SimplifyState}
    (h : TidyingOriginals F ks ids b s) :
    Throughout simplifyOriginal (fun s id => s.engine.ClauseInRange id) s ids ∧
      TidyingOriginals F ks [] b (ids.foldl simplifyOriginal s) :=
  throughout_of_keeps (fun s ids => TidyingOriginals F ks ids b s) (TidyingOriginals.provides zero)
    (TidyingOriginals.step zero propagated) h

theorem TidyingLearnts.relisted {s : SimplifyState} (h : TidyingLearnts F os [] pairs b firstRecent i s)
    (original : b.originals.toList = os) :
    TidyingOriginals F s.kept.toList s.relisted.originals.toList s.relisted { engine := s.relisted } := by
  have kept := h.faithful
  have booked := h.books.booked
  have head : s.relisted.trail.head = b.trail.head := h.same.head
  have originals : s.relisted.originals = b.originals := h.books.originals
  rw [List.append_nil] at kept booked
  rw [originals, original]
  exact ⟨⟨pairs, head.symm ▸ kept.books⟩,
    ⟨.refl _, booked.relist s.engine.originals s.kept (s.engine.recentLearnts - s.recentGone)⟩,
    .refl _, { h.equipped with }⟩

/-- Every access in a simplification of all clauses is in range, and no count goes below zero. -/
theorem Quiet.simplifyAll_inRange (quiet : e.Quiet F) (shelved : e.Shelved) (equipped : e.Equipped) :
    e.SimplifyAllInRange ∧ e.simplifyAll.Equipped := by
  obtain ⟨pairs, faithful⟩ := quiet.faithful
  have few : e.learnts.toList.length - (e.learnts.toList.length - e.recentLearnts) ≤ e.recentLearnts := by
    omega
  unfold SimplifyAllInRange Engine.simplifyAll
  dsimp only
  generalize e.learnts.toList.length - e.recentLearnts = firstRecent at few ⊢
  have began : TidyingLearnts F e.originals.toList e.learnts.toList pairs e firstRecent 0
      { engine := e } :=
    ⟨faithful, ⟨.refl e, shelved.booked, by simp⟩, .refl _, Nat.zero_le _, equipped⟩
  obtain ⟨first, done⟩ := began.loop quiet.zero
  generalize e.learnts.toList.zipIdx.foldl (simplifyLearnt firstRecent) { engine := e } = s at done ⊢
  have gone : s.recentGone ≤ s.engine.recentLearnts := by
    rw [done.books.recentLearnts]
    exact Nat.le_trans done.gone (by omega)
  have propagated : s.engine.trail.head = s.engine.trail.lits.size := by
    rw [done.same.head, done.same.lits]
    exact quiet.propagated
  obtain ⟨second, done'⟩ :=
    (done.relisted rfl).loop (b := s.relisted) (done.same.level.trans quiet.zero) propagated
  rw [← Array.foldl_toList]
  exact ⟨⟨first, gone, second⟩, { done'.equipped with }⟩

/-- Rebuilding the heap touches variables that were created only. -/
theorem Offers.rebuildInRange (h : e.Offers) (equipped : e.Equipped) : e.RebuildInRange :=
  ⟨h.heapInRange equipped, fun _ member => equipped.knows (mem_vars.mp member)⟩

/-- Every access of a simplification is in range. -/
theorem Settled.simplify_inRange (h : e.Settled F) (zero : e.trail.level = 0) (orderly : e.Orderly)
    (equipped : e.Equipped) {outcome : Simplification} (result : e.simplify = (outcome, f)) :
    e.SimplifyInRange ∧ f.Equipped := by
  have fit := orderly.fit equipped
  unfold SimplifyInRange
  cases tidying_of_simplify h.ok result with
  | clash run =>
    have propagated := (fit.propagateFrom run).equipped
    rw [run]
    exact ⟨⟨zero, fun _ => ⟨fit.propagateFrom_inRange _, trivial⟩⟩, { propagated with }⟩
  | upToDate run noted =>
    rw [run]
    exact ⟨⟨zero, fun _ => ⟨fit.propagateFrom_inRange _, fun due => absurd noted due⟩⟩,
      (fit.propagateFrom run).equipped⟩
  | @done g run =>
    have quiet := h.quiet_propagate zero run
    have orderly' := orderly.propagateFrom run
    obtain ⟨inRange, simplified⟩ :=
      quiet.simplifyAll_inRange orderly'.shelved (fit.propagateFrom run).equipped
    have offers : g.simplifyAll.Offers := (Chore.simplifyAll quiet).offers orderly' quiet.offers
    rw [run]
    exact ⟨⟨zero, fun _ => ⟨fit.propagateFrom_inRange _, fun _ =>
        ⟨inRange, offers.rebuildInRange simplified⟩⟩⟩,
      { simplified with branching := { simplified.branching with } }⟩

end Engine

end Cdcl
