import Cdcl.Proofs.Turns
import Cdcl.Proofs.TwinUpkeep

/-!
# Vivification of twins

A probe looks at values only, and an original clause that is set aside loses its entries in both of
two twins. So the literals kept are the same, and the shorter clauses stand for each other.

## Main results

- `Twins.vivifyAll`: twins stay twins when their original clauses are vivified.
-/

namespace Cdcl

variable {M : ClauseId → ClauseId → Prop}

/-! ### Dropping one entry -/

theorem filter_eraseP {α : Type} {p q : α → Bool} (le : ∀ x, p x = true → q x = true) (xs : List α) :
    (xs.eraseP p).filter q = (xs.filter q).eraseP p := by
  induction xs with
  | nil => rfl
  | cons x xs ih =>
    cases first : p x with
    | true => rw [List.eraseP_cons_of_pos first, List.filter_cons_of_pos (le x first),
        List.eraseP_cons_of_pos first]
    | false =>
      have later : ¬ p x = true := Bool.eq_false_iff.mp first
      rw [List.eraseP_cons_of_neg later, List.filter_cons, List.filter_cons]
      split
      · rw [List.eraseP_cons_of_neg later, ih]
      · exact ih

theorem forall₂_eraseP {α : Type} {R : α → α → Prop} {p q : α → Bool} {xs ys : List α}
    (h : List.Forall₂ R xs ys) (agree : ∀ x y, R x y → q y = p x) :
    List.Forall₂ R (xs.eraseP p) (ys.eraseP q) := by
  induction h with
  | nil => exact .nil
  | cons head tail ih =>
    rw [List.eraseP_cons, List.eraseP_cons, agree _ _ head]
    cases p _ with
    | true => exact tail
    | false => exact .cons head ih

namespace Engine

variable {F F' : List (List Lit)} {L L' : Ledger} {e f e' f' base base' : Engine} {a b : ClauseId}
  {before before' after after' learnts learnts' : List ClauseId} {pairs pairs' : List (Lit × Lit)}

/-- Without the first entry of a clause that takes part in propagation. -/
theorem working_dropEntry (attached : (e.clause a).isAttached = true) (key p : Lit) :
    (e.modifyWatches (·.dropEntry a key)).working p =
      if key = p then (e.working p).eraseP (·.clause == a) else e.working p := by
  simp only [working, modifyWatches, Watches.dropEntry, DenseMap.get_modify]
  split
  · generalize e.watches.long.get p = ws
    obtain ⟨ws⟩ := ws
    rw [List.eraseP_toArray]
    refine filter_eraseP (fun w same => ?_) _
    rw [beq_iff_eq] at same
    change (e.clause w.clause).isAttached = true
    rw [same]
    exact attached
  · rfl

namespace Mates

theorem dropEntry (h : Mates M e f) (pair : M a b) (attached : (e.clause a).isAttached = true)
    (key : Lit) :
    Mates M (e.modifyWatches (·.dropEntry a key)) (f.modifyWatches (·.dropEntry b key)) := by
  have attached' : (f.clause b).isAttached = true := by
    rw [h.clause pair]
    exact attached
  refine h.watches h.binary fun p => ?_
  rw [working_dropEntry attached, working_dropEntry attached']
  split
  · refine forall₂_eraseP (h.long p) fun x y twins => ?_
    rw [Bool.eq_iff_iff, beq_iff_eq, beq_iff_eq]
    exact (h.eq_iff twins.pair pair).symm
  · exact h.long p

theorem detachNow (h : Mates M e f) (pair : M a b) (attached : (e.clause a).isAttached = true) :
    Mates M (e.detachNow a) (f.detachNow b) := by
  unfold Engine.detachNow
  dsimp only
  rw [h.clause pair]
  exact (h.dropEntry pair attached _).dropEntry pair attached _

end Mates

namespace Twins

theorem decide (h : Twins M e f) (l : Lit) : Twins M (e.decide l) (f.decide l) :=
  h.keep (h.toMates.decide l) id (sameBooks_decide e l).frozenKept (sameBooks_decide f l).frozenKept

theorem cancelTo (h : Twins M e f) (level : Nat) : Twins M (e.cancelTo level) (f.cancelTo level) :=
  h.keep (h.toMates.cancelTo level) id (sameBooks_cancelTo e level).frozenKept
    (sameBooks_cancelTo f level).frozenKept

theorem attach (h : Twins M e f) (pair : M a b) : Twins M (e.attach a) (f.attach b) :=
  h.keep (h.toMates.attach pair) id (sameBooks_attach e a).frozenKept (sameBooks_attach f b).frozenKept

theorem removeClause (h : Twins M e f) (pair : M a b) : Twins M (e.removeClause a) (f.removeClause b) :=
  h.keep (h.toMates.removeClause pair) id (frozenKept_removeClause e a) (frozenKept_removeClause f b)

theorem addBinary (h : Twins M e f) (l m : Lit) (learnt : Bool) :
    Twins M (e.addBinary l m learnt) (f.addBinary l m learnt) :=
  h.keep (h.toMates.addBinary l m learnt) id (frozenKept_addBinary e l m learnt)
    (frozenKept_addBinary f l m learnt)

theorem assign (h : Twins M e f) (l : Lit) : Twins M (e.assign l .decision) (f.assign l .decision) :=
  h.keep (h.toMates.assign l .decision) id (sameBooks_assign e l .decision).frozenKept
    (sameBooks_assign f l .decision).frozenKept

/-! ### Probes -/

theorem probe (lits : List Lit) (h : Twins M e f) {done : List Lit} {kept : Array Lit}
    (probing : Probing F L base done kept e) (probing' : Probing F' L' base' done kept f)
    (bound : ∀ q ∈ lits, q.var.index < e.numVars) :
    (Engine.probe lits kept f).1 = (Engine.probe lits kept e).1 ∧
      Twins M (Engine.probe lits kept e).2 (Engine.probe lits kept f).2 := by
  induction lits generalizing e f done kept with
  | nil => exact ⟨rfl, h⟩
  | cons l lits ih =>
    have boundRest : ∀ q ∈ lits, q.var.index < e.numVars := fun q member =>
      bound q (List.mem_cons_of_mem l member)
    unfold Engine.probe
    rw [h.trail.valueLit]
    split
    · exact ⟨rfl, h⟩
    next no =>
      have fails := (e.trail.valueLit_eq_no_iff l).mp no
      refine ih h (probing.skip fails) (probing'.skip ?_) boundRest
      rw [h.trail.isFalse]
      exact fails
    next undecided =>
      have free := (e.trail.valueLit_eq_undecided_iff l).mp undecided
      have free' : f.trail.value l.var = .undecided := by
        rw [h.trail.value]
        exact free
      have inside := bound l List.mem_cons_self
      have inside' : l.var.index < f.numVars := by
        rw [h.numVars]
        exact inside
      have decided := probing.faithful.decide (l := l.neg) probing.propagated free inside
      have decided' := probing'.faithful.decide (l := l.neg) probing'.propagated free' inside'
      -- Both twins decide the same literal, and meet a conflict together or not at all.
      obtain ⟨twins, found⟩ := (h.decide l.neg).propagate decided.sound decided'.sound decided.apart
        decided'.apart
      rcases run : (e.decide l.neg).propagate with ⟨g, c⟩
      rcases run' : (f.decide l.neg).propagate with ⟨g', c'⟩
      rw [run, run'] at twins found
      cases found with
      | some _ => exact ⟨rfl, twins⟩
      | none =>
        have next : Probing F L base (done ++ [l]) (kept.push l) g := probing.decide lits free inside run
        have next' : Probing F' L' base' (done ++ [l]) (kept.push l) g' :=
          probing'.decide lits free' inside' run'
        have numVars : g.numVars = e.numVars := next.framed.numVars.trans probing.framed.numVars.symm
        exact ih twins next next' fun q member => numVars ▸ boundRest q member

/-- Probing a clause and its twin keeps the same literals. -/
theorem probeClause (h : Twins M e f) (pair : M a b)
    (faithful : e.Faithful F { originals := before ++ a :: after, learnts, pairs } e.trail.head)
    (faithful' : f.Faithful F' { originals := before' ++ b :: after', learnts := learnts', pairs := pairs' }
      f.trail.head)
    (zero : e.trail.level = 0) (propagated : e.trail.head = e.trail.lits.size) :
    (f.probeClause b).1 = (e.probeClause a).1 ∧ Twins M (e.probeClause a).2 (f.probeClause b).2 := by
  have attached := (faithful.guarded.clauses a (by simp)).1
  have bound := (faithful.sound.proper a (isRemoved_of_isAttached attached)).bounded
  have zero' : f.trail.level = 0 := h.trail.level.trans zero
  have propagated' : f.trail.head = f.trail.lits.size := by
    rw [h.trail.head, h.trail.lits]
    exact propagated
  have apart : Twins M (e.detachNow a) (f.detachNow b) :=
    h.keep (h.toMates.detachNow pair attached) id (sameBooks_detachNow e a).frozenKept
      (sameBooks_detachNow f b).frozenKept
  obtain ⟨same, twins⟩ := apart.probe (e.clause a).lits.toList (faithful.startProbe zero propagated)
    (faithful'.startProbe zero' propagated') fun q member => bound q (Array.mem_toList_iff.mp member)
  unfold Engine.probeClause
  rw [h.clause pair]
  exact ⟨same, twins.cancelTo 0⟩

/-! ### Shorter clauses -/

theorem addFact (h : Twins M e f) {aside aside' : List ClauseId} {l : Lit}
    (sound : (e.assign l .decision).Sound aside) (sound' : (f.assign l .decision).Sound aside')
    (apart : (e.assign l .decision).FrozenApart) (apart' : (f.assign l .decision).FrozenApart) :
    Twins M (e.addFact l) (f.addFact l) := by
  obtain ⟨twins, found⟩ := (h.assign l).propagate sound sound' apart apart'
  unfold Engine.addFact
  rcases run : (e.assign l .decision).propagate with ⟨g, c⟩
  rcases run' : (f.assign l .decision).propagate with ⟨g', c'⟩
  rw [run, run'] at twins found
  cases found with
  | some _ => exact twins.refute
  | none => exact twins

theorem replaceLits (h : Twins M e f) (pair : M a b) (lits : Array Lit)
    (thawed : (e.clause a).isFrozen = false) :
    Twins M (e.replaceLits a lits) (f.replaceLits b lits) := by
  have thawed' : (f.clause b).isFrozen = false := by
    rw [h.clause pair]
    exact thawed
  have mates : Mates M (e.replaceLits a lits) (f.replaceLits b lits) := by
    unfold Engine.replaceLits
    dsimp only
    rw [h.clause pair]
    exact (h.setLits pair _ _).modifyTally _
  exact h.keep mates id (frozenKept_change (·.setLits lits) rfl rfl (.inr ⟨rfl, thawed, thawed⟩))
    (frozenKept_change (·.setLits lits) rfl rfl (.inr ⟨rfl, thawed', thawed'⟩))

theorem shorten (h : Twins M e f) (pair : M a b) {lits : Array Lit}
    (shorter : e.Shorter F before after learnts pairs a lits)
    (shorter' : f.Shorter F' before' after' learnts' pairs' b lits) :
    (f.shorten b lits).1 = (e.shorten a lits).1 ∧ Twins M (e.shorten a lits).2 (f.shorten b lits).2 := by
  unfold Engine.shorten
  dsimp only
  rw [h.clause pair]
  generalize (e.clause a).size - lits.size = dropped
  have counted := h.modifyStats (fun s =>
    { s with
      vivifiedClauses := s.vivifiedClauses + 1
      vivifiedLits := s.vivifiedLits + dropped }) fun _ _ => rfl
  have shorter := shorter.stats
    { e.stats with
      vivifiedClauses := e.stats.vivifiedClauses + 1
      vivifiedLits := e.stats.vivifiedLits + dropped }
  have shorter' := shorter'.stats
    { f.stats with
      vivifiedClauses := f.stats.vivifiedClauses + 1
      vivifiedLits := f.stats.vivifiedLits + dropped }
  split
  · exact ⟨rfl, counted.refute⟩
  next l list =>
    have fact := shorter.assigned list
    have fact' := shorter'.assigned list
    exact ⟨rfl, (counted.removeClause pair).addFact fact.sound fact'.sound fact.apart fact'.apart⟩
  next l m _ => exact ⟨rfl, (counted.removeClause pair).addBinary l m false⟩
  · refine ⟨rfl, Twins.attach ?_ pair⟩
    exact counted.replaceLits pair lits
      (isFrozen_of_isAttached (shorter.faithful.sound.tracked.usable a List.mem_cons_self))

end Twins

/-- Vivifications in twin engines that have come equally far. -/
structure VivifyState.Twins (M : ClauseId → ClauseId → Prop) (s t : VivifyState) : Prop where
  engine : s.engine.Twins M t.engine
  kept : List.Forall₂ M s.kept.toList t.kept.toList

/-- The clauses of a vivification that are kept or still to come. -/
def VivifyState.Ready (F : List (List Lit)) (learnts rest : List ClauseId) (base : Engine)
    (s : VivifyState) : Prop :=
  s.engine.Refuted F ∨ s.engine.Upkept F (s.kept.toList ++ rest) learnts base

theorem VivifyState.Ready.step {rest : List ClauseId} {s : VivifyState}
    (h : s.Ready F learnts (a :: rest) base) (minSize : Nat) :
    (Engine.vivifyClause minSize s a).Ready F learnts rest base :=
  h.elim (fun refuted => .inl (refuted.vivifyClause minSize a)) fun upkept => upkept.vivifyClause minSize

namespace VivifyState.Twins

variable {s t : VivifyState} {rest rest' : List ClauseId}

theorem vivifyClause (h : s.Twins M t) (pair : M a b) (minSize : Nat)
    (ready : s.Ready F learnts (a :: rest) base) (ready' : t.Ready F' learnts' (b :: rest') base') :
    (Engine.vivifyClause minSize s a).Twins M (Engine.vivifyClause minSize t b) := by
  have twins := h.engine
  unfold Engine.vivifyClause
  dsimp only
  rw [twins.ok, twins.clause pair, twins.isSatisfied pair]
  split
  · exact ⟨twins, forall₂_push h.kept pair⟩
  next open_ =>
    have ok : s.engine.ok = true := by
      cases ok : s.engine.ok with
      | true => rfl
      | false => exact absurd (by rw [ok]; rfl) open_
    have upkept := ready.resolve_left fun refuted => by
      rw [refuted.notOk] at ok
      cases ok
    have upkept' := ready'.resolve_left fun refuted => by
      rw [← twins.ok, refuted.notOk] at ok
      cases ok
    split
    · exact ⟨(twins.removeClause pair).modifyStats (fun s =>
        { s with removedClauses := s.removedClauses + 1 }) fun _ _ => rfl, h.kept⟩
    next unsatisfied =>
      obtain ⟨pairs, faithful⟩ := upkept.faithful
      obtain ⟨pairs', faithful'⟩ := upkept'.faithful
      have zero' := upkept'.zero
      -- Both clauses are open, so that both are probed, with the same outcome.
      have open_ : s.engine.isSatisfied a = false := Bool.eq_false_iff.mpr unsatisfied
      have open' : t.engine.isSatisfied b = false := (twins.isSatisfied pair).trans open_
      obtain ⟨same, probed⟩ := twins.probeClause pair faithful faithful' upkept.zero upkept.propagated
      rcases run : s.engine.probeClause a with ⟨lits, g⟩
      rcases run' : t.engine.probeClause b with ⟨lits', g'⟩
      rw [run, run'] at same probed
      obtain rfl : lits' = lits := same
      obtain ⟨shorter, -⟩ := probeClause_spec faithful upkept.zero upkept.propagated open_ run
      obtain ⟨shorter', -⟩ := probeClause_spec faithful' zero' upkept'.propagated open' run'
      dsimp only
      split
      · obtain ⟨stays, twins⟩ := probed.shorten pair shorter shorter'
        rw [stays]
        refine ⟨twins, ?_⟩
        dsimp only
        split
        · exact forall₂_push h.kept pair
        · exact h.kept
      · exact ⟨probed.attach pair, forall₂_push h.kept pair⟩

theorem vivifyClauses {ids ids' : List ClauseId} (pairs : List.Forall₂ M ids ids') (h : s.Twins M t)
    (minSize : Nat) (ready : s.Ready F learnts ids base) (ready' : t.Ready F' learnts' ids' base') :
    (ids.foldl (Engine.vivifyClause minSize) s).Twins M (ids'.foldl (Engine.vivifyClause minSize) t) := by
  induction pairs generalizing s t with
  | nil => exact h
  | cons pair _ ih =>
    exact ih (h.vivifyClause pair minSize ready ready') (ready.step minSize) (ready'.step minSize)

end VivifyState.Twins

theorem Quiet.ready (h : e.Quiet F) :
    VivifyState.Ready F e.learnts.toList e.originals.toList e { engine := e } := by
  obtain ⟨pairs, faithful⟩ := h.faithful
  exact .inr ⟨⟨pairs, faithful⟩, .refl e, ⟨rfl, rfl⟩, h.zero, h.propagated⟩

/-- Twins stay twins when their original clauses are vivified. -/
theorem Twins.vivifyAll (h : Twins M e f) (quiet : e.Quiet F) (quiet' : f.Quiet F') (minSize : Nat) :
    Twins M (e.vivifyAll minSize) (f.vivifyAll minSize) := by
  have start : VivifyState.Twins M { engine := e } { engine := f } := ⟨h, .nil⟩
  have done := start.vivifyClauses h.originals (max minSize 3) quiet.ready quiet'.ready
  unfold Engine.vivifyAll
  dsimp only
  rw [← Array.foldl_toList, ← Array.foldl_toList]
  generalize e.originals.toList.foldl _ _ = s at done ⊢
  generalize f.originals.toList.foldl _ _ = t at done ⊢
  exact
    { done.engine with
      originals := done.kept }

end Engine

end Cdcl
