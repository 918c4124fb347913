import Cdcl.Proofs.StoredClauses
import Cdcl.Proofs.TrailCoherence
import Cdcl.Search.Minimization

/-!
# What holds of an engine at all times

`Engine.Sound` collects what propagation, conflict analysis and the upkeep of clauses rely on: a
coherent trail whose literals are justified by clauses in use, proper clauses, and watch lists that
match the clauses. `Engine.Respected` says that an assignment satisfies all that is stored.

Clauses that vivification has set aside are in use but not watched.
-/

namespace Cdcl

/-- How many entries of a clause are in a list. -/
def entriesOf (id : ClauseId) (ws : Array Watcher) : Nat := ws.toList.countP (·.clause == id)

theorem entriesOf_empty (id : ClauseId) : entriesOf id #[] = 0 := rfl

theorem entriesOf_push (id : ClauseId) (ws : Array Watcher) (w : Watcher) :
    entriesOf id (ws.push w) = entriesOf id ws + if w.clause = id then 1 else 0 := by
  simp [entriesOf, List.countP_append, List.countP_singleton]

theorem entriesOf_append (id : ClauseId) (ws vs : Array Watcher) :
    entriesOf id (ws ++ vs) = entriesOf id ws + entriesOf id vs := by
  simp [entriesOf, List.countP_append]

theorem entriesOf_cons (id : ClauseId) (w : Watcher) (ws : List Watcher) :
    entriesOf id (w :: ws).toArray = (if w.clause = id then 1 else 0) + entriesOf id ws.toArray := by
  simp [entriesOf, List.countP_cons]
  omega

theorem entriesOf_pos_iff {id : ClauseId} {ws : Array Watcher} :
    0 < entriesOf id ws ↔ ∃ w ∈ ws, w.clause = id := by
  simp [entriesOf]

/-- Where a clause has no entry, all entries are of others. -/
theorem clause_ne_of_entriesOf {id : ClauseId} {ws : Array Watcher} (none : entriesOf id ws = 0)
    {w : Watcher} (member : w ∈ ws) : w.clause ≠ id := fun same =>
  absurd none (Nat.ne_of_gt (entriesOf_pos_iff.mpr ⟨w, member, same⟩))

/-- How many entries of the clause belong in the list of a key. -/
def Clause.watchCount (c : Clause) (p : Lit) : Nat :=
  if p = (c.lit 0).neg ∨ p = (c.lit 1).neg then 1 else 0

namespace Watches

/-- The maps read as empty past their ends. -/
structure Blank (w : Watches) : Prop where
  long : w.long.fallback = #[]
  dirty : w.dirty.fallback = false
  binary : w.binary.fallback = #[]
  frozen : w.frozen.fallback = #[]

/-- The lists hold each clause that takes part in propagation under its two watches, none that is
set aside, and entries of other clauses only where a list is dirty. -/
structure Tracks (w : Watches) (clause : ClauseId → Clause) (aside : List ClauseId) : Prop where
  exact : ∀ id, (clause id).isAttached = true → id ∉ aside → ∀ p,
    entriesOf id (w.long.get p) = (clause id).watchCount p
  usable : ∀ id ∈ aside, (clause id).isAttached = true
  aside : ∀ id ∈ aside, ∀ p, entriesOf id (w.long.get p) = 0
  stale : ∀ id, (clause id).isAttached = false → ∀ p, 0 < entriesOf id (w.long.get p) →
    w.dirty.get p = true
  listed : ∀ p, w.dirty.get p = true → p ∈ w.dirtyKeys

/-- Lists with as many entries of each clause are as good, for clauses that watch the same
literals. -/
theorem Tracks.congr {w v : Watches} {clause clause' : ClauseId → Clause} {aside : List ClauseId}
    (h : w.Tracks clause aside)
    (attached : ∀ id, (clause' id).isAttached = (clause id).isAttached)
    (watchCount : ∀ id, (clause id).isAttached = true → ∀ p,
      (clause' id).watchCount p = (clause id).watchCount p)
    (counts : ∀ id p, entriesOf id (v.long.get p) = entriesOf id (w.long.get p))
    (dirty : v.dirty = w.dirty) (dirtyKeys : v.dirtyKeys = w.dirtyKeys) :
    v.Tracks clause' aside where
  exact := by
    intro id used notAside p
    rw [attached] at used
    rw [counts, watchCount id used]
    exact h.exact id used notAside p
  usable := fun id member => (attached id).trans (h.usable id member)
  aside := fun id member p => (counts id p).trans (h.aside id member p)
  stale := fun id detached p some => by
    rw [attached] at detached
    rw [counts] at some
    rw [dirty]
    exact h.stale id detached p some
  listed := by
    rw [dirty, dirtyKeys]
    exact h.listed

end Watches

/-- Restarts and reductions are due as before; means and windows may differ. -/
structure Policy.Paced (p q : Policy) : Prop where
  pending : q.restartPending = p.restartPending
  due : q.conflictsBeforeReduction = p.conflictsBeforeReduction
  gap : q.reductionGap = p.reductionGap

theorem Policy.Paced.refl (p : Policy) : p.Paced p := ⟨rfl, rfl, rfl⟩

theorem Policy.Paced.trans {p q r : Policy} (h : p.Paced q) (k : q.Paced r) : p.Paced r :=
  ⟨k.pending.trans h.pending, k.due.trans h.due, k.gap.trans h.gap⟩

namespace Engine

/-- The reason implies the literal from literals that are false before position `i`, one of them at
its level. Only facts and the first literals of levels stand without a reason. -/
def Explains (e : Engine) (why : Reason) (i : Nat) (l : Lit) : Prop :=
  match why with
  | .decision => e.trail.Opens i
  | .binary other => l ∈ e.watches.binary.get other.neg ∧ e.trail.Beside i other.neg
  | .clause id =>
    (e.clause id).isAttached = true ∧ (e.clause id).lit 0 = l ∧
      (∀ q ∈ (e.clause id).tail, e.trail.Before i q.neg) ∧
      ∃ q ∈ (e.clause id).tail, e.trail.Beside i q.neg

/-- A reason stays one as long as the trail before it, the binary clauses and the clause it names
do. -/
theorem Explains.transfer {e f : Engine} {why : Reason} {i : Nat} {l : Lit}
    (h : e.Explains why i l) (agrees : e.trail.AgreesTo f.trail i)
    (binary : ∀ p, ∀ q ∈ e.watches.binary.get p, q ∈ f.watches.binary.get p)
    (clause : ∀ id, why = .clause id → (e.clause id).isAttached = true → (e.clause id).lit 0 = l →
      (f.clause id).isAttached = true ∧ (f.clause id).lit 0 = l ∧
        ∀ q, q ∈ (f.clause id).tail ↔ q ∈ (e.clause id).tail) :
    f.Explains why i l := by
  cases why with
  | decision => exact agrees.opens.mpr h
  | binary other => exact ⟨binary _ _ h.1, agrees.beside.mpr h.2⟩
  | clause id =>
    obtain ⟨used, first, before, q, member, beside⟩ := h
    obtain ⟨used, first, same⟩ := clause id rfl used first
    exact ⟨used, first, fun q member => agrees.before.mpr (before q ((same q).mp member)),
      q, (same q).mpr member, agrees.beside.mpr beside⟩

structure Sound (aside : List ClauseId) (e : Engine) : Prop where
  trail : e.trail.Coherent e.numVars
  justified : ∀ {i : Nat} {l : Lit}, e.trail.lits[i]? = some l →
    e.Explains (e.trail.reason l.var) i l
  proper : ∀ id, (e.clause id).isRemoved = false → (e.clause id).Proper e.numVars
  binary_bounded : ∀ p, ∀ q ∈ e.watches.binary.get p,
    p.var.index < e.numVars ∧ q.var.index < e.numVars
  tracked : e.watches.Tracks e.clause aside
  inside : ∀ p, ∀ w ∈ e.watches.long.get p, w.clause.slot < e.arena.clauses.size
  /-- A blocker that was dropped from its clause is false for good. -/
  blockers : ∀ p, ∀ w ∈ e.watches.long.get p, (e.clause w.clause).isAttached = true →
    w.blocker ∈ (e.clause w.clause).lits ∨ w.blocker.neg ∈ e.trail.facts
  blank : e.watches.Blank
  unseen : ∀ v, e.seen.get v = .unseen

/-- Frozen clauses have left the lists of those that take part in propagation, and those on watch
over them watch literals of theirs. -/
structure FrozenApart (e : Engine) : Prop where
  unwatched : ∀ id, (e.clause id).isRemoved = false → (e.clause id).isFrozen = true →
    ∀ p, entriesOf id (e.watches.long.get p) = 0
  entries : ∀ p, ∀ w ∈ e.watches.frozen.get p, (e.clause w.clause).isRemoved = false →
    (e.clause w.clause).isFrozen = true →
    p.neg ∈ (e.clause w.clause).lits ∧ w.blocker ∈ (e.clause w.clause).lits

/-- The assignment satisfies all clauses in use. -/
structure Upheld (σ : Valuation) (e : Engine) : Prop where
  clauses : ∀ id, (e.clause id).isRemoved = false → σ.satisfiesClause (e.clause id).lits.toList
  binary : ∀ p, ∀ q ∈ e.watches.binary.get p, σ.satisfiesLit p → σ.satisfiesLit q

/-- The assignment satisfies all clauses in use and the facts. -/
structure Respected (σ : Valuation) (e : Engine) : Prop extends Upheld σ e where
  facts : ∀ l ∈ e.trail.facts, σ.satisfiesLit l

/-! ### Reading the arena -/

theorem clause_eq_absent {e : Engine} {id : ClauseId} (outside : e.arena.clauses.size ≤ id.slot) :
    e.clause id = .absent := by
  rw [clause, ClauseArena.get_eq, Array.getElem?_eq_none outside]
  rfl

theorem slot_lt {e : Engine} {id : ClauseId} (used : (e.clause id).isRemoved = false) :
    id.slot < e.arena.clauses.size := ClauseArena.slot_lt_of_used used

theorem isRemoved_of_isAttached {c : Clause} (attached : c.isAttached = true) :
    c.isRemoved = false := by
  unfold Clause.isAttached at attached
  simp only [Bool.and_eq_true, Bool.not_eq_true'] at attached
  exact attached.1

theorem isFrozen_of_isAttached {c : Clause} (attached : c.isAttached = true) :
    c.isFrozen = false := by
  unfold Clause.isAttached at attached
  simp only [Bool.and_eq_true, Bool.not_eq_true'] at attached
  exact attached.2

theorem isAttached_iff {c : Clause} :
    c.isAttached = true ↔ c.isRemoved = false ∧ c.isFrozen = false := by
  simp [Clause.isAttached]

theorem clause_modifyClause {e : Engine} {id : ClauseId} (used : (e.clause id).isRemoved = false)
    (f : Clause → Clause) (other : ClauseId) :
    (e.modifyClause id f).clause other = if id = other then f (e.clause other) else e.clause other :=
  ClauseArena.get_modify e.arena id other f (slot_lt used)

/-- Whatever is done to clauses one by one, a handle outside the arena stays so. -/
theorem clause_modifyClause_alike (e : Engine) (id : ClauseId) {f : Clause → Clause}
    (alike : ∀ c : Clause, c.Alike (f c)) (other : ClauseId) :
    (e.clause other).Alike ((e.modifyClause id f).clause other) := by
  by_cases valid : id.slot < e.arena.clauses.size
  · have := ClauseArena.get_modify e.arena id other f valid
    change (e.clause other).Alike ((e.arena.modify id f).get other)
    rw [this]
    split
    · exact alike _
    · exact .refl _
  · have : (e.modifyClause id f).clause other = e.clause other := by
      simp only [clause, modifyClause, ClauseArena.get_eq, ClauseArena.modify]
      rw [Array.getElem?_modify]
      split
      next same =>
        rw [Array.getElem?_eq_none (by omega)]
        rfl
      next => rfl
    rw [this]
    exact .refl _

/-! ### Changes of scores -/

/-- Equal but for scores of clauses and variables, means and statistics. -/
structure Rescored (e f : Engine) : Prop where
  trail : f.trail = e.trail
  watches : f.watches = e.watches
  numVars : f.numVars = e.numVars
  seen : f.seen = e.seen
  slots : f.arena.clauses.size = e.arena.clauses.size
  alike : ∀ id, (e.clause id).Alike (f.clause id)
  originals : f.originals = e.originals
  learnts : f.learnts = e.learnts
  heap : f.branching.heap = e.branching.heap
  decision : f.branching.decision = e.branching.decision
  opts : f.opts = e.opts
  ok : f.ok = e.ok
  paced : e.policy.Paced f.policy

namespace Rescored

variable {e f g : Engine}

theorem refl (e : Engine) : e.Rescored e :=
  ⟨rfl, rfl, rfl, rfl, rfl, fun _ => .refl _, rfl, rfl, rfl, rfl, rfl, rfl, .refl _⟩

theorem trans (h : e.Rescored f) (k : f.Rescored g) : e.Rescored g where
  trail := k.trail.trans h.trail
  watches := k.watches.trans h.watches
  numVars := k.numVars.trans h.numVars
  seen := k.seen.trans h.seen
  slots := k.slots.trans h.slots
  alike := fun id => (h.alike id).trans (k.alike id)
  originals := k.originals.trans h.originals
  learnts := k.learnts.trans h.learnts
  heap := k.heap.trans h.heap
  decision := k.decision.trans h.decision
  opts := k.opts.trans h.opts
  ok := k.ok.trans h.ok
  paced := h.paced.trans k.paced

theorem modifyClause (e : Engine) (id : ClauseId) {f : Clause → Clause}
    (alike : ∀ c : Clause, c.Alike (f c)) : e.Rescored (e.modifyClause id f) :=
  { refl e with
    slots := by simp [Engine.modifyClause, ClauseArena.modify]
    alike := clause_modifyClause_alike e id alike }

theorem tracks {aside : List ClauseId} (r : e.Rescored f) (h : e.watches.Tracks e.clause aside) :
    f.watches.Tracks f.clause aside := by
  rw [r.watches]
  refine h.congr (fun id => (r.alike id).reordered.attached) (fun id _ p => ?_) (fun _ _ => rfl) rfl rfl
  simp only [Clause.watchCount, (r.alike id).lit]

theorem sound {aside : List ClauseId} (r : e.Rescored f) (h : e.Sound aside) : f.Sound aside where
  trail := by rw [r.trail, r.numVars]; exact h.trail
  justified := by
    intro i l at_i
    rw [r.trail] at at_i
    rw [r.trail]
    refine (h.justified at_i).transfer (r.trail ▸ .refl _ _) (r.watches ▸ fun _ _ => id) ?_
    intro id _ used first
    rw [(r.alike id).reordered.attached, (r.alike id).lit, (r.alike id).tail]
    exact ⟨used, first, fun _ => .rfl⟩
  proper := by
    intro id used
    rw [(r.alike id).removed] at used
    rw [r.numVars]
    exact (r.alike id).reordered.proper (h.proper id used)
  binary_bounded := by rw [r.watches, r.numVars]; exact h.binary_bounded
  tracked := r.tracks h.tracked
  inside := by rw [r.watches, r.slots]; exact h.inside
  blockers := by
    intro p w member attached
    rw [r.watches] at member
    rw [(r.alike w.clause).reordered.attached] at attached
    rw [(r.alike w.clause).lits, r.trail]
    exact h.blockers p w member attached
  blank := by rw [r.watches]; exact h.blank
  unseen := by rw [r.seen]; exact h.unseen

theorem frozenApart (r : e.Rescored f) (h : e.FrozenApart) : f.FrozenApart where
  unwatched := by
    intro id used frozen p
    rw [(r.alike id).removed] at used
    rw [(r.alike id).frozen] at frozen
    rw [r.watches]
    exact h.unwatched id used frozen p
  entries := by
    intro p w member used frozen
    rw [r.watches] at member
    rw [(r.alike w.clause).removed] at used
    rw [(r.alike w.clause).frozen] at frozen
    rw [(r.alike w.clause).lits]
    exact h.entries p w member used frozen

theorem respected (r : e.Rescored f) {σ : Valuation} (h : e.Respected σ) : f.Respected σ where
  clauses := by
    intro id used
    rw [(r.alike id).removed] at used
    rw [(r.alike id).lits]
    exact h.clauses id used
  binary := by rw [r.watches]; exact h.binary
  facts := by rw [r.trail]; exact h.facts

end Rescored

/-! ### What reasons and falsified clauses say about assignments -/

/-- The false literals that imply a variable's value come before it, and imply it under every
assignment that satisfies what is stored. -/
theorem Sound.causes {aside : List ClauseId} {e : Engine} (h : e.Sound aside) {i : Nat} {l : Lit}
    (at_i : e.trail.lits[i]? = some l) {lits : List Lit}
    (causes : ({ trail := e.trail, arena := e.arena : Explainer }).causes l.var = some lits) :
    (∀ q ∈ lits, e.trail.Before i q.neg) ∧
      ∀ σ, e.Upheld σ → (∀ q ∈ lits, ¬ σ.satisfiesLit q) → σ.satisfiesLit l := by
  have justified := h.justified at_i
  unfold Explains at justified
  unfold Explainer.causes at causes
  split at causes
  · cases causes
  next other reason =>
    cases causes
    rw [reason] at justified
    obtain ⟨entry, beside⟩ := justified
    refine ⟨by simpa using beside.before, fun σ upheld falsified => ?_⟩
    refine upheld.binary _ l entry ?_
    rw [Valuation.satisfiesLit_neg]
    exact falsified other List.mem_cons_self
  next id reason =>
    cases causes
    rw [reason] at justified
    obtain ⟨attached, first, before, -⟩ := justified
    have used := isRemoved_of_isAttached attached
    refine ⟨before, fun σ upheld falsified => ?_⟩
    obtain ⟨q, member, holds⟩ := upheld.clauses id used
    have size := (h.proper id used).size
    rw [Clause.lits_eq_cons_tail (by omega), first] at member
    rcases List.mem_cons.mp member with rfl | later
    · exact holds
    · exact absurd holds (falsified q later)

/-- An implied literal holds if all literals before it do. -/
theorem Sound.implied {aside : List ClauseId} {e : Engine} (h : e.Sound aside) {i : Nat} {l : Lit}
    (at_i : e.trail.lits[i]? = some l) (implied : e.trail.reason l.var ≠ .decision)
    {σ : Valuation} (upheld : e.Upheld σ)
    (earlier : ∀ m, e.trail.Before i m → σ.satisfiesLit m) : σ.satisfiesLit l := by
  obtain ⟨lits, causes⟩ : ∃ lits,
      ({ trail := e.trail, arena := e.arena : Explainer }).causes l.var = some lits := by
    unfold Explainer.causes
    split
    next reason => exact absurd reason implied
    · exact ⟨_, rfl⟩
    · exact ⟨_, rfl⟩
  obtain ⟨before, holds⟩ := h.causes at_i causes
  refine holds σ upheld fun q member => ?_
  rw [← Valuation.satisfiesLit_neg]
  exact earlier _ (before q member)

end Engine

end Cdcl
