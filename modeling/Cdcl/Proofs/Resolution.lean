import Cdcl.Proofs.Backtracking
import Cdcl.Search.Analysis

/-!
# Resolution of a conflict

The variables marked during conflict analysis stand for a clause: their literals on the trail cannot
all hold. Each step of resolution replaces a literal of the last level by those that imply it, and
keeps count of how many of that level are left.

## Main results

`backward_resolved`: when resolution ends, the literal found and those collected contradict what is
stored.
-/

namespace Cdcl

namespace Engine

/-- Equal but for scores, the marks of analysis and the order of the heap. -/
structure Examined (e f : Engine) : Prop where
  trail : f.trail = e.trail
  watches : f.watches = e.watches
  numVars : f.numVars = e.numVars
  slots : f.arena.clauses.size = e.arena.clauses.size
  alike : ∀ id, (e.clause id).Alike (f.clause id)
  originals : f.originals = e.originals
  learnts : f.learnts = e.learnts
  offers : ∀ n free, e.branching.Offers n free → f.branching.Offers n free
  decision : f.branching.decision = e.branching.decision
  opts : f.opts = e.opts
  ok : f.ok = e.ok
  paced : e.policy.Paced f.policy

/-- What implies a variable's value, by its reason. -/
theorem causes_eq (e : Engine) (v : Var) : e.explainer.causes v =
    match e.trail.reason v with
    | .decision => none
    | .binary other => some [other]
    | .clause id => some (e.clause id).tail := rfl

namespace Examined

variable {e f g : Engine}

theorem refl (e : Engine) : e.Examined e :=
  ⟨rfl, rfl, rfl, rfl, fun _ => .refl _, rfl, rfl, fun _ _ => id, rfl, rfl, rfl, .refl _⟩

theorem trans (h : e.Examined f) (k : f.Examined g) : e.Examined g where
  trail := k.trail.trans h.trail
  watches := k.watches.trans h.watches
  numVars := k.numVars.trans h.numVars
  slots := k.slots.trans h.slots
  alike := fun id => (h.alike id).trans (k.alike id)
  originals := k.originals.trans h.originals
  learnts := k.learnts.trans h.learnts
  offers := fun n free old => k.offers n free (h.offers n free old)
  decision := k.decision.trans h.decision
  opts := k.opts.trans h.opts
  ok := k.ok.trans h.ok
  paced := h.paced.trans k.paced

theorem of_rescored (r : e.Rescored f) : e.Examined f :=
  { r with offers := fun _ _ old => old.congr r.heap r.decision }

theorem marked (seen : DenseMap Var Seen) {b : Branching}
    (offers : ∀ n free, e.branching.Offers n free → b.Offers n free)
    (decision : b.decision = e.branching.decision) :
    e.Examined { e with branching := b, seen } :=
  { refl e with offers, decision }

theorem sound {aside : List ClauseId} (h : e.Examined f) (sound : e.Sound aside)
    (unseen : ∀ v, f.seen.get v = .unseen) : f.Sound aside := by
  have r : e.Rescored { f with branching := e.branching, seen := e.seen } :=
    { h with seen := rfl, heap := rfl, decision := rfl }
  exact { r.sound sound with unseen }

theorem frozenApart (h : e.Examined f) (apart : e.FrozenApart) : f.FrozenApart := by
  have r : e.Rescored { f with branching := e.branching, seen := e.seen } :=
    { h with seen := rfl, heap := rfl, decision := rfl }
  exact { r.frozenApart apart with }

theorem respected (h : e.Examined f) {σ : Valuation} (old : e.Respected σ) : f.Respected σ := by
  have r : e.Rescored { f with branching := e.branching, seen := e.seen } :=
    { h with seen := rfl, heap := rfl, decision := rfl }
  exact { r.respected old with }

/-- The causes of a variable are the same. -/
theorem causes (h : e.Examined f) (v : Var) : f.explainer.causes v = e.explainer.causes v := by
  rw [causes_eq, causes_eq, h.trail]
  split
  · rfl
  · rfl
  next id _ => exact congrArg some (h.alike id).tail

end Examined

theorem rescored_bumpClause (e : Engine) (id : ClauseId) : e.Rescored (e.bumpClause id) := by
  have scaled (ids : List ClauseId) : ∀ a : Engine, a.Rescored { a with
      arena := ids.foldl (fun arena id => arena.modify id fun c => c.setActivity (c.activity * 1e-20))
        a.arena } := by
    induction ids with
    | nil => exact fun a => .refl a
    | cons id ids ih =>
      intro a
      have first := Rescored.modifyClause a id (f := fun c => c.setActivity (c.activity * 1e-20))
        fun c => c.alike_setActivity _
      exact first.trans (ih (a.modifyClause id _))
  unfold bumpClause
  dsimp only
  have bumped := Rescored.modifyClause e id
    (f := fun c => c.setActivity (c.activity + narrow e.clauseIncrement))
    fun c => c.alike_setActivity _
  split
  · rw [← Array.foldl_toList]
    have all := scaled e.learnts.toList (e.modifyClause id
      fun c => c.setActivity (c.activity + narrow e.clauseIncrement))
    exact bumped.trans { all with }
  · exact bumped

theorem rescored_bumpIfLearnt (e : Engine) (id : ClauseId) : e.Rescored (e.bumpIfLearnt id) := by
  unfold bumpIfLearnt
  split
  · exact rescored_bumpClause e id
  · exact .refl e

end Engine

namespace Resolution

/-- Resolution has reached position `n`: `current` holds the marked literals of the last level, all
of them before `n`, and the clause collected holds the opposites of the others. -/
structure Marks (e : Engine) (n : Nat) (current : List Lit) (r : Resolution) : Prop where
  examined : e.Examined r.engine
  distinct : current.Nodup
  pending : current.length = r.pending
  latest : ∀ l, l ∈ current ↔
    l ∈ e.trail.lits ∧ r.engine.seen.get l.var = .source ∧ e.trail.levelOf l.var = e.trail.level
  before : ∀ l ∈ current, e.trail.Before n l
  nodup : r.lits.toList.Nodup
  lower : ∀ l, l ∈ r.lits ↔ l.neg ∈ e.trail.lits ∧ r.engine.seen.get l.var = .source ∧
    e.trail.levelOf l.var ≠ e.trail.level
  above : ∀ v, r.engine.seen.get v = .source → e.trail.levelOf v ≠ 0 ∧ ∃ l ∈ e.trail.lits, l.var = v
  resolved : ∀ v, r.engine.seen.get v = .resolved →
    ∃ i l, n ≤ i ∧ e.trail.lits[i]? = some l ∧ l.var = v

/-- What is stored contradicts the marked literals together with the falsity of others. -/
def Contradicts (e : Engine) (lits : List Lit) (r : Resolution) : Prop :=
  ∀ σ, e.Respected σ →
    ¬ ((∀ l ∈ e.trail.lits, r.engine.seen.get l.var = .source → σ.satisfiesLit l) ∧
      ∀ l ∈ lits, ¬ σ.satisfiesLit l)

variable {e : Engine} {n : Nat} {current : List Lit} {r : Resolution}

/-- Two literals of the trail with one variable are the same. -/
theorem eq_of_var_eq {k : Nat} {t : Trail} (h : t.Coherent k) {l m : Lit} (lMem : l ∈ t.lits)
    (mMem : m ∈ t.lits) (same : l.var = m.var) : l = m := by
  obtain ⟨i, at_i⟩ := Array.mem_iff_getElem?.mp lMem
  obtain ⟨j, at_j⟩ := Array.mem_iff_getElem?.mp mMem
  rw [h.distinct at_i at_j same, at_j] at at_i
  exact (Option.some.inj at_i).symm

/-- Marking a literal of the last level. -/
theorem Marks.markCurrent (h : Marks e n current r) (coherent : e.trail.Coherent e.numVars)
    {l : Lit} (before : e.trail.Before n l.neg) (unseen : r.engine.seen.get l.var = .unseen)
    (positive : e.trail.levelOf l.var ≠ 0) (latest : e.trail.levelOf l.var = e.trail.level)
    {f : Engine} (examined : r.engine.Examined f)
    (seen : ∀ v, f.seen.get v = if l.var = v then .source else r.engine.seen.get v) :
    Marks e n (l.neg :: current) { r with engine := f, pending := r.pending + 1 } := by
  -- The opposite of a literal without mark does not wait to be resolved.
  have fresh : l.neg ∉ current := fun member => by
    have := ((h.latest _).mp member).2.1
    rw [Lit.var_neg, unseen] at this
    cases this
  constructor
  case examined => exact h.examined.trans examined
  case nodup => exact h.nodup
  case distinct => exact List.nodup_cons.mpr ⟨fresh, h.distinct⟩
  case pending => simp [h.pending]
  case latest =>
    intro m
    rw [List.mem_cons, h.latest, seen]
    split
    next same =>
      constructor
      · rintro (rfl | ⟨member, marked, _⟩)
        · exact ⟨before.mem, rfl, latest⟩
        · rw [← same, unseen] at marked
          cases marked
      · rintro ⟨member, _, _⟩
        exact .inl (eq_of_var_eq coherent member before.mem same.symm)
    next other =>
      refine ⟨?_, .inr⟩
      rintro (rfl | old)
      · exact absurd rfl other
      · exact old
  case before =>
    intro m member
    rcases List.mem_cons.mp member with rfl | old
    · exact before
    · exact h.before m old
  case lower =>
    intro m
    rw [h.lower, seen]
    split
    next same => simp [← same, unseen, latest]
    next => rfl
  case above =>
    intro v marked
    rw [seen] at marked
    split at marked
    next same => exact ⟨same ▸ positive, l.neg, before.mem, same⟩
    next => exact h.above v marked
  case resolved =>
    intro v marked
    rw [seen] at marked
    split at marked
    next => cases marked
    next => exact h.resolved v marked

/-- Marking a literal of a lower level, and collecting it. -/
theorem Marks.markLower (h : Marks e n current r) (coherent : e.trail.Coherent e.numVars)
    {l : Lit} (before : e.trail.Before n l.neg) (unseen : r.engine.seen.get l.var = .unseen)
    (positive : e.trail.levelOf l.var ≠ 0) (lower : e.trail.levelOf l.var ≠ e.trail.level)
    {f : Engine} (examined : r.engine.Examined f)
    (seen : ∀ v, f.seen.get v = if l.var = v then .source else r.engine.seen.get v) :
    Marks e n current { r with engine := f, lits := r.lits.push l } := by
  -- A literal without mark was not collected before.
  have fresh : l ∉ r.lits := fun member => by
    have := ((h.lower _).mp member).2.1
    rw [unseen] at this
    cases this
  constructor
  case examined => exact h.examined.trans examined
  case distinct => exact h.distinct
  case pending => exact h.pending
  case before => exact h.before
  case nodup =>
    rw [Array.toList_push]
    refine List.nodup_append.mpr ⟨h.nodup, List.nodup_singleton _, ?_⟩
    rintro a member b single rfl
    rw [List.mem_singleton.mp single] at member
    exact fresh (Array.mem_toList_iff.mp member)
  case latest =>
    intro m
    rw [h.latest, seen]
    split
    next same => simp [← same, unseen, lower]
    next => rfl
  case lower =>
    intro m
    rw [Array.mem_push, h.lower, seen]
    split
    next same =>
      constructor
      · rintro (⟨_, marked, _⟩ | rfl)
        · rw [← same, unseen] at marked
          cases marked
        · exact ⟨before.mem, rfl, lower⟩
      · rintro ⟨member, _, _⟩
        exact .inr (Lit.neg_inj.mp (eq_of_var_eq coherent member before.mem same.symm))
    next other =>
      refine ⟨?_, .inl⟩
      rintro (old | rfl)
      · exact old
      · exact absurd rfl other
  case above =>
    intro v marked
    rw [seen] at marked
    split at marked
    next same => exact ⟨same ▸ positive, l.neg, before.mem, same⟩
    next => exact h.above v marked
  case resolved =>
    intro v marked
    rw [seen] at marked
    split at marked
    next => cases marked
    next => exact h.resolved v marked

theorem Marks.not_resolved (h : Marks e n current r) (coherent : e.trail.Coherent e.numVars)
    {l : Lit} (before : e.trail.Before n l.neg) : r.engine.seen.get l.var ≠ .resolved := by
  intro resolved
  obtain ⟨i, m, le, at_i, same⟩ := h.resolved _ resolved
  obtain ⟨j, below, at_j⟩ := before
  have := coherent.distinct at_i at_j same
  omega

/-- Taking in a literal that is false before `n` makes good for dropping it from the contradiction. -/
theorem Marks.addLit (h : Marks e n current r) (coherent : e.trail.Coherent e.numVars) {l : Lit}
    (before : e.trail.Before n l.neg) :
    ∃ current', Marks e n current' (addLit e.trail.level r l) ∧
      (∀ v, r.engine.seen.get v = .source →
        (Resolution.addLit e.trail.level r l).engine.seen.get v = .source) ∧
      (e.trail.levelOf l.var ≠ 0 →
        (Resolution.addLit e.trail.level r l).engine.seen.get l.var = .source) := by
  have not_resolved := h.not_resolved coherent before
  have trail := h.examined.trail
  unfold Resolution.addLit
  dsimp only
  split
  -- A new literal is marked. If it is of the conflict's level it has still to be resolved, else it is kept.
  next fresh =>
    simp only [Bool.and_eq_true, beq_iff_eq, bne_iff_ne, ne_eq] at fresh
    obtain ⟨unseen, positive⟩ := fresh
    rw [trail] at positive
    have examined : r.engine.Examined { r.engine with
        branching := r.engine.branching.bump l.var
        seen := r.engine.seen.insert l.var .source } :=
      .marked _ (fun _ _ old => old.bump l.var) (Branching.decision_bump _ _)
    have seen (v : Var) : (r.engine.seen.insert l.var .source).get v =
        if l.var = v then .source else r.engine.seen.get v := DenseMap.get_insert ..
    have grows (v : Var) (marked : r.engine.seen.get v = .source) :
        (r.engine.seen.insert l.var .source).get v = .source := by
      rw [seen]
      split
      · rfl
      · exact marked
    have marks_l : (r.engine.seen.insert l.var .source).get l.var = .source := by
      rw [seen, if_pos rfl]
    split
    next latest =>
      simp only [beq_iff_eq, trail] at latest
      have marked := h.markCurrent coherent before unseen positive latest examined seen
      exact ⟨l.neg :: current, marked, grows, fun _ => marks_l⟩
    next lower =>
      simp only [beq_iff_eq, trail] at lower
      have marked := h.markLower coherent before unseen positive lower examined seen
      exact ⟨current, marked, grows, fun _ => marks_l⟩
  -- A literal that was marked before has not been resolved, and facts are left out.
  next known =>
    refine ⟨current, h, fun _ => id, fun positive => ?_⟩
    cases mark : r.engine.seen.get l.var with
    | unseen => simp [mark, trail, positive] at known
    | source => rfl
    | resolved => exact absurd mark not_resolved

theorem Contradicts.addLit {l : Lit} {lits : List Lit} (h : Contradicts e (l :: lits) r)
    (marks : Marks e n current r) (coherent : e.trail.Coherent e.numVars)
    (before : e.trail.Before n l.neg) : Contradicts e lits (addLit e.trail.level r l) := by
  obtain ⟨_, _, grows, marks_l⟩ := marks.addLit coherent before
  rintro σ respected ⟨marked, others⟩
  refine h σ respected ⟨fun m member old => marked m member (grows _ old), ?_⟩
  intro m member
  rcases List.mem_cons.mp member with rfl | later
  · rw [← Valuation.satisfiesLit_neg]
    by_cases zero : e.trail.levelOf m.var = 0
    · exact respected.facts _ (coherent.mem_facts_iff_levelOf.mpr ⟨before.mem, zero⟩)
    · exact marked _ before.mem (marks_l zero)
  · exact others m later

/-- Taking in all literals of a clause that is false before `n`. -/
theorem Marks.addLits {lits : List Lit} (h : Marks e n current r)
    (coherent : e.trail.Coherent e.numVars) (before : ∀ l ∈ lits, e.trail.Before n l.neg)
    (contra : Contradicts e lits r) :
    ∃ current', Marks e n current' (addLits e.trail.level lits r) ∧
      Contradicts e [] (Resolution.addLits e.trail.level lits r) ∧
      (∀ v, r.engine.seen.get v = .source →
        (Resolution.addLits e.trail.level lits r).engine.seen.get v = .source) ∧
      ∀ l ∈ lits, e.trail.levelOf l.var ≠ 0 →
        (Resolution.addLits e.trail.level lits r).engine.seen.get l.var = .source := by
  induction lits generalizing r current with
  | nil => exact ⟨current, h, contra, fun _ => id, nofun⟩
  | cons l lits ih =>
    have here := before l List.mem_cons_self
    obtain ⟨between, marks, grows, marks_l⟩ := h.addLit coherent here
    obtain ⟨final, done, contra, keeps, marks_lits⟩ := ih marks
      (fun m member => before m (List.mem_cons_of_mem _ member)) (contra.addLit h coherent here)
    refine ⟨final, done, contra, fun v marked => keeps v (grows v marked), fun m member positive => ?_⟩
    rcases List.mem_cons.mp member with rfl | later
    · exact keeps _ (marks_l positive)
    · exact marks_lits m later positive

/-! ### The loop -/

theorem Marks.rescored (h : Marks e n current r) {f : Engine} (rescored : r.engine.Rescored f) :
    Marks e n current { r with engine := f } :=
  { h with
    examined := h.examined.trans (.of_rescored rescored)
    latest := by rw [rescored.seen]; exact h.latest
    lower := by rw [rescored.seen]; exact h.lower
    above := by rw [rescored.seen]; exact h.above
    resolved := by rw [rescored.seen]; exact h.resolved }

/-- An unmarked literal at the position reached is passed over. -/
theorem Marks.skip (h : Marks e (n + 1) current r) {p : Lit} (at_n : e.trail.lits[n]? = some p)
    (unseen : r.engine.seen.get p.var = .unseen) : Marks e n current r :=
  { h with
    before := by
      intro l member
      obtain ⟨j, below, at_j⟩ := h.before l member
      refine ⟨j, ?_, at_j⟩
      by_contra last
      rw [show j = n by omega, at_n] at at_j
      cases at_j
      rw [((h.latest _).mp member).2.1] at unseen
      cases unseen
    resolved := by
      intro v mark
      obtain ⟨i, l, le, at_i, same⟩ := h.resolved v mark
      exact ⟨i, l, by omega, at_i, same⟩ }

/-- As long as literals of the last level are marked, a marked literal at the position reached is
of that level. -/
theorem Marks.mem_current (h : Marks e (n + 1) current r) (coherent : e.trail.Coherent e.numVars)
    (waiting : current ≠ []) {p : Lit} (at_n : e.trail.lits[n]? = some p)
    (seen : r.engine.seen.get p.var ≠ .unseen) : p ∈ current := by
  have member := Array.mem_of_getElem? at_n
  rw [h.latest]
  refine ⟨member, ?_, ?_⟩
  · cases mark : r.engine.seen.get p.var with
    | unseen => exact absurd mark seen
    | source => rfl
    | resolved =>
      obtain ⟨i, m, le, at_i, same⟩ := h.resolved _ mark
      have := coherent.distinct at_i at_n same
      omega
  · obtain ⟨m, rest⟩ := List.exists_mem_of_ne_nil _ waiting
    obtain ⟨j, below, at_j⟩ := h.before m rest
    have level_m := ((h.latest m).mp rest).2.2
    rw [coherent.level_eq at_j] at level_m
    have mono := e.trail.levelAt_mono (show j ≤ n by omega)
    have le := e.trail.levelAt_le n
    rw [coherent.level_eq at_n]
    omega

/-- A literal of the last level is crossed out. -/
theorem Marks.cross (h : Marks e (n + 1) current r) (coherent : e.trail.Coherent e.numVars)
    {p : Lit} (at_n : e.trail.lits[n]? = some p) (member : p ∈ current) (pending : Nat)
    (count : pending = r.pending - 1) :
    Marks e n (current.erase p)
      { r with engine := r.engine.setSeen p.var .resolved, pending } := by
  have inTrail := Array.mem_of_getElem? at_n
  obtain ⟨_, marked, level⟩ := (h.latest p).mp member
  have seen (v : Var) : (r.engine.setSeen p.var .resolved).seen.get v =
      if p.var = v then .resolved else r.engine.seen.get v := DenseMap.get_insert ..
  have examined : r.engine.Examined (r.engine.setSeen p.var .resolved) :=
    .marked _ (fun _ _ => id) rfl
  constructor
  case examined => exact h.examined.trans examined
  case distinct => exact h.distinct.erase _
  case pending => rw [List.length_erase_of_mem member, h.pending, count]
  case latest =>
    intro l
    rw [h.distinct.mem_erase_iff, h.latest, seen]
    split
    next same =>
      simp only [reduceCtorEq, false_and, and_false, iff_false, not_and]
      rintro other inside
      exact absurd (eq_of_var_eq coherent inside inTrail same.symm) other
    next other =>
      refine ⟨And.right, fun old => ⟨?_, old⟩⟩
      rintro rfl
      exact other rfl
  case before =>
    intro l inside
    obtain ⟨other, old⟩ := (h.distinct.mem_erase_iff).mp inside
    obtain ⟨j, below, at_j⟩ := h.before l old
    -- Only the literal that is crossed out was at the last position.
    refine ⟨j, ?_, at_j⟩
    by_contra last
    rw [show j = n by omega, at_n] at at_j
    exact other (Option.some.inj at_j).symm
  case nodup => exact h.nodup
  case lower =>
    intro l
    rw [h.lower, seen]
    split
    next same => simp [← same, level]
    next => rfl
  case above =>
    intro v mark
    rw [seen] at mark
    split at mark
    next => cases mark
    next => exact h.above v mark
  case resolved =>
    intro v mark
    rw [seen] at mark
    split at mark
    next same => exact ⟨n, p, Nat.le_refl _, at_n, same⟩
    next =>
      obtain ⟨i, l, le, at_i, same⟩ := h.resolved v mark
      exact ⟨i, l, by omega, at_i, same⟩

/-- How resolution ends: with a literal of the last level at position `i`, and literals of lower
levels that cannot all be false with it. -/
structure Resolved (e : Engine) (p : Lit) (i : Nat) (r : Resolution) : Prop where
  examined : e.Examined r.engine
  at_i : e.trail.lits[i]? = some p
  latest : e.trail.levelOf p.var = e.trail.level
  nodup : r.lits.toList.Nodup
  lower : ∀ l ∈ r.lits, l.neg ∈ e.trail.lits ∧ e.trail.levelOf l.var ≠ 0 ∧
    e.trail.levelOf l.var ≠ e.trail.level
  marked : ∀ v, r.engine.seen.get v = .source ↔ ∃ l ∈ r.lits, l.var = v
  resolved : ∀ v, r.engine.seen.get v = .resolved →
    ∃ j l, i ≤ j ∧ e.trail.lits[j]? = some l ∧ l.var = v
  contradicts : ∀ σ, e.Respected σ → σ.satisfiesLit p → ∃ l ∈ r.lits, σ.satisfiesLit l

/-- The last literal of the level is the one that the rest of the clause refutes. -/
theorem Marks.finish (h : Marks e (n + 1) current r) (coherent : e.trail.Coherent e.numVars)
    (contra : Contradicts e [] r) {p : Lit} (at_n : e.trail.lits[n]? = some p)
    (member : p ∈ current) (last : r.pending ≤ 1) :
    Resolved e p n { r with engine := r.engine.setSeen p.var .resolved } := by
  -- With nothing left to resolve at this level, the marks that remain are those of the lower levels.
  have crossed := h.cross coherent at_n member (r.pending - 1) rfl
  have none_left : current.erase p = [] := by
    refine List.eq_nil_of_length_eq_zero ?_
    rw [List.length_erase_of_mem member, h.pending]
    omega
  rw [none_left] at crossed
  have inTrail := Array.mem_of_getElem? at_n
  have seen (v : Var) : (r.engine.setSeen p.var .resolved).seen.get v =
      if p.var = v then .resolved else r.engine.seen.get v := DenseMap.get_insert ..
  have source_iff (v : Var) : (r.engine.setSeen p.var .resolved).seen.get v = .source ↔
      ∃ l ∈ r.lits, l.var = v := by
    constructor
    · intro mark
      obtain ⟨_, l, inside, same⟩ := crossed.above v mark
      have other : e.trail.levelOf l.var ≠ e.trail.level := fun level => by
        have := (crossed.latest l).mpr ⟨inside, same ▸ mark, level⟩
        cases this
      refine ⟨l.neg, (crossed.lower _).mpr ⟨?_, same ▸ mark, other⟩, same⟩
      rw [Lit.neg_neg]
      exact inside
    · rintro ⟨l, inside, rfl⟩
      exact ((crossed.lower l).mp inside).2.1
  constructor
  case examined => exact crossed.examined
  case at_i => exact at_n
  case latest => exact ((h.latest p).mp member).2.2
  case nodup => exact h.nodup
  case lower =>
    intro l inside
    obtain ⟨opposite, mark, level⟩ := (crossed.lower l).mp inside
    exact ⟨opposite, (crossed.above _ mark).1, level⟩
  case marked => exact source_iff
  case resolved => exact crossed.resolved
  case contradicts =>
    intro σ respected holds
    -- If none of the collected literals held, all marked ones would, which the resolution forbids.
    by_contra none_holds
    refine contra σ respected ⟨fun l inside mark => ?_, nofun⟩
    by_cases same : p.var = l.var
    · rw [← eq_of_var_eq coherent inTrail inside same]
      exact holds
    · have still : (r.engine.setSeen p.var .resolved).seen.get l.var = .source := by
        rw [seen, if_neg same]
        exact mark
      obtain ⟨m, collected, var⟩ := (source_iff _).mp still
      have opposite := ((crossed.lower m).mp collected).1
      have equal := eq_of_var_eq coherent inside opposite var.symm
      rw [equal, Valuation.satisfiesLit_neg]
      exact fun sat => none_holds ⟨m, collected, sat⟩

/-- Resolving with a variable takes in what causes it. -/
theorem Marks.resolve_eq (h : Marks e n current r) {v : Var} {r' : Resolution}
    (result : Resolution.resolve e.trail.level r v = .ok r') :
    ∃ lits f, e.explainer.causes v = some lits ∧ r.engine.Rescored f ∧
      r' = Resolution.addLits e.trail.level lits { r with engine := f } := by
  rw [← h.examined.causes, Engine.causes_eq]
  unfold Resolution.resolve at result
  cases reason : r.engine.trail.reason v with
  | decision =>
    rw [reason] at result
    cases result
  | binary other =>
    rw [reason] at result
    cases result
    exact ⟨_, _, rfl, .refl _, rfl⟩
  | clause id =>
    rw [reason] at result
    cases result
    have bumped := Engine.rescored_bumpIfLearnt r.engine id
    refine ⟨_, _, rfl, bumped, ?_⟩
    have same : ((r.engine.bumpIfLearnt id).clause id).tail = (r.engine.clause id).tail :=
      (bumped.alike id).tail
    rw [same]

theorem resolveMarked (h : Marks e (n + 1) current r) {aside : List ClauseId} (sound : e.Sound aside)
    (contra : Contradicts e [] r) {p : Lit} (at_n : e.trail.lits[n]? = some p) (member : p ∈ current)
    {r' : Resolution}
    (result : resolve e.trail.level
      { r with engine := r.engine.setSeen p.var .resolved, pending := r.pending - 1 } p.var = .ok r') :
    ∃ current', Marks e n current' r' ∧ Contradicts e [] r' ∧
      (1 < r.pending → current' ≠ []) := by
  have crossed := h.cross sound.trail at_n member (r.pending - 1) rfl
  obtain ⟨lits, f, causes, rescored, rfl⟩ := crossed.resolve_eq result
  obtain ⟨before, implied⟩ := sound.causes at_n causes
  have inTrail := Array.mem_of_getElem? at_n
  have marks := crossed.rescored rescored
  have seen (v : Var) : f.seen.get v = if p.var = v then .resolved else r.engine.seen.get v := by
    rw [rescored.seen]
    exact DenseMap.get_insert ..
  -- What is taken in implies the literal crossed out.
  have wider : Contradicts e lits { r with engine := f, pending := r.pending - 1 } := by
    rintro σ respected ⟨marked, others⟩
    refine contra σ respected ⟨fun l inside mark => ?_, nofun⟩
    by_cases same : p.var = l.var
    · rw [← eq_of_var_eq sound.trail inTrail inside same]
      exact implied σ respected.toUpheld others
    · refine marked l inside ?_
      rw [seen, if_neg same]
      exact mark
  obtain ⟨current', done, contra', keeps, _⟩ := marks.addLits sound.trail before wider
  refine ⟨current', done, contra', fun more => ?_⟩
  have left : current.erase p ≠ [] := by
    intro empty
    have := List.length_erase_of_mem member
    rw [empty, h.pending] at this
    simp only [List.length_nil] at this
    omega
  obtain ⟨m, rest⟩ := List.exists_mem_of_ne_nil _ left
  obtain ⟨inside, mark, level⟩ := (marks.latest m).mp rest
  exact List.ne_nil_of_mem ((done.latest m).mpr ⟨inside, keeps _ mark, level⟩)

/-- Resolution ends with a literal of the last level that what is stored refutes together with the
literals collected. -/
theorem backward_resolved (h : Marks e n current r) {aside : List ClauseId} (sound : e.Sound aside)
    (contra : Contradicts e [] r) (waiting : current ≠ []) {r' : Resolution} {p : Lit} {i : Nat}
    (result : backward e.trail.level n r = .ok (r', p, i)) : Resolved e p i r' := by
  induction n generalizing r current with
  | zero => cases result
  | succ n ih =>
    unfold backward at result
    rw [h.examined.trail] at result
    split at result
    · cases result
    next q at_n =>
      split at result
      next unseen => exact ih (h.skip at_n (by simpa using unseen)) contra waiting result
      next seen =>
        have member := h.mem_current sound.trail waiting at_n (by simpa using seen)
        dsimp only at result
        split at result
        next last =>
          cases result
          exact h.finish sound.trail contra at_n member last
        next more =>
          split at result
          · cases result
          next resolved =>
            obtain ⟨current', marks, contra', left⟩ := resolveMarked h sound contra at_n member resolved
            exact ih marks contra' (left (by omega)) result

/-! ### The start -/

theorem Marks.initial {f : Engine} (examined : e.Examined f) (unseen : ∀ v, f.seen.get v = .unseen)
    (n : Nat) : Marks e n [] { engine := f } := by
  constructor
  case examined => exact examined
  case distinct => exact List.nodup_nil
  case pending => rfl
  case latest => simp [unseen]
  case before => exact nofun
  case nodup => exact List.nodup_nil
  case lower => simp [unseen]
  case above =>
    intro v mark
    rw [unseen] at mark
    cases mark
  case resolved =>
    intro v mark
    rw [unseen] at mark
    cases mark

/-- The literals of a conflict. -/
def conflictLits (e : Engine) : Conflict → List Lit
  | .binary a b => [a, b]
  | .clause id => (e.clause id).lits.toList

theorem start_eq (e : Engine) (c : Conflict) :
    ∃ f, e.Rescored f ∧
      start e.trail.level e c = addLits e.trail.level (conflictLits e c) { engine := f } := by
  cases c with
  | binary a b => exact ⟨e, .refl e, rfl⟩
  | clause id =>
    have bumped := Engine.rescored_bumpIfLearnt e id
    refine ⟨_, bumped, ?_⟩
    simp only [start, conflictLits, (bumped.alike id).lits]

/-- What is stored satisfies the clause of a conflict, all of whose literals are false. -/
theorem conflict_lits {aside : List ClauseId} (sound : e.Sound aside) {c : Conflict} {falseLit : Lit}
    (falsifies : e.Falsifies falseLit c) :
    falseLit ∈ conflictLits e c ∧ (∀ l ∈ conflictLits e c, l.neg ∈ e.trail.lits) ∧
      ∀ σ, e.Upheld σ → σ.satisfiesClause (conflictLits e c) := by
  cases c with
  | binary a b =>
    obtain ⟨rfl, entry, a_false, b_false⟩ := falsifies
    refine ⟨by simp [conflictLits], ?_, fun σ upheld => ?_⟩
    · intro l member
      simp only [conflictLits, List.mem_cons, List.not_mem_nil, or_false] at member
      rcases member with rfl | rfl
      · exact (sound.trail.isFalse_iff _).mp a_false
      · exact (sound.trail.isFalse_iff _).mp b_false
    · by_cases holds : σ.satisfiesLit b
      · exact ⟨b, by simp [conflictLits], holds⟩
      · rw [← Valuation.satisfiesLit_neg] at holds
        exact ⟨a, by simp [conflictLits], upheld.binary _ a entry holds⟩
  | clause id =>
    obtain ⟨used, inside, fails⟩ := falsifies
    refine ⟨Array.mem_toList_iff.mpr inside, fun l member => ?_, fun σ upheld => upheld.clauses id used⟩
    exact (sound.trail.isFalse_iff l).mp (fails l (Array.mem_toList_iff.mp member))

theorem start_marks {aside : List ClauseId} (sound : e.Sound aside) {c : Conflict}
    (conflict : e.IsConflict c) (positive : e.trail.level ≠ 0) :
    ∃ current, Marks e e.trail.size current (start e.trail.level e c) ∧
      Contradicts e [] (start e.trail.level e c) ∧ current ≠ [] := by
  obtain ⟨p, inTrail, latest, falsifies⟩ := conflict
  obtain ⟨inside, opposites, satisfied⟩ := conflict_lits sound falsifies
  obtain ⟨f, rescored, started⟩ := start_eq e c
  have unseen (v : Var) : f.seen.get v = .unseen := by rw [rescored.seen, sound.unseen]
  have initial := Marks.initial (.of_rescored rescored) unseen e.trail.size
  have contra : Contradicts e (conflictLits e c) { engine := f } := by
    rintro σ respected ⟨_, others⟩
    obtain ⟨l, member, holds⟩ := satisfied σ respected.toUpheld
    exact others l member holds
  have before := fun l member => Trail.mem_iff_before.mp (opposites l member)
  obtain ⟨current, marks, contra', _, marked⟩ := initial.addLits sound.trail before contra
  rw [started]
  refine ⟨current, marks, contra', List.ne_nil_of_mem ((marks.latest p).mpr ⟨inTrail, ?_, latest⟩)⟩
  have mark := marked p.neg inside
  rw [Lit.var_neg, latest] at mark
  exact mark positive

end Resolution

/-- No assignment satisfies what is stored and all of the trail when there is a conflict. -/
theorem Engine.not_all_of_conflict {aside : List ClauseId} {e : Engine} (sound : e.Sound aside)
    {c : Conflict} (conflict : e.IsConflict c) {σ : Valuation} (upheld : e.Upheld σ) :
    ¬ ∀ l ∈ e.trail.lits, σ.satisfiesLit l := by
  intro all
  obtain ⟨p, _, _, falsifies⟩ := conflict
  obtain ⟨_, opposites, satisfied⟩ := Resolution.conflict_lits sound falsifies
  obtain ⟨l, member, holds⟩ := satisfied σ upheld
  exact (σ.satisfiesLit_neg l).mp (all _ (opposites l member)) holds

/-- A conflict at level zero refutes what is stored. -/
theorem Engine.refuted_of_conflict {aside : List ClauseId} {e : Engine} (sound : e.Sound aside)
    {c : Conflict} (conflict : e.IsConflict c) (zero : e.trail.level = 0) (σ : Valuation) :
    ¬ e.Respected σ := fun respected =>
  not_all_of_conflict sound conflict respected.toUpheld fun l member =>
    respected.facts l ((Trail.Coherent.mem_facts_of_level_zero zero).mpr member)

end Cdcl
