import Cdcl.Proofs.Turns

/-!
# Facts only grow

Solving and vivification open levels above the facts, and may stop anywhere, fail in the middle of
learning or move clauses about. Every call ends at level zero all the same, and no fact is lost.

## Main results

- `Turn.facts`: a turn of the engine keeps the list of facts, or adds to its end.
- `History.zero`: no level is open between calls.
- `facts_grow`: whatever is called, the facts only grow, and a literal that is settled stays so.
-/

namespace Cdcl

/-- A step of learning may add a fact. -/
theorem Trail.Descends.facts {t u : Trail} {n : Nat} (h : t.Descends u) (coherent : t.Coherent n) :
    t.facts <+: u.facts := by
  cases h with
  | back below => exact (coherent.facts_cancelTo below).symm ▸ List.prefix_rfl
  | @learnt k l why below =>
    rw [← coherent.facts_cancelTo below]
    exact (t.cancelTo k).prefix_facts_assign l why

/-- Which literals are settled is read off the facts. -/
theorem Trail.Coherent.factValue_eq_yes {t : Trail} {n : Nat} (h : t.Coherent n) {l : Lit} :
    t.factValue l = .yes ↔ l ∈ t.facts := by
  rw [h.mem_facts_iff_levelOf, ← h.isTrue_iff, ← Trail.valueLit_eq_yes_iff]
  unfold Trail.factValue
  cases t.valueLit l <;> by_cases zero : t.levelOf l.var = 0 <;> simp [zero, Truth.isDefined]

theorem Trail.Coherent.factValue_eq_no {t : Trail} {n : Nat} (h : t.Coherent n) {l : Lit} :
    t.factValue l = .no ↔ l.neg ∈ t.facts := by
  rw [h.mem_facts_iff_levelOf, ← h.isFalse_iff, ← Trail.valueLit_eq_no_iff, Lit.var_neg]
  unfold Trail.factValue
  cases t.valueLit l <;> by_cases zero : t.levelOf l.var = 0 <;> simp [zero, Truth.isDefined]

namespace Engine

variable {F : List (List Lit)} {before after learnts : List ClauseId} {b e f : Engine}
  {id : ClauseId} {l : Lit}

/-! ### What the operations on an engine do to the facts -/

theorem prefix_facts_decide (e : Engine) (l : Lit) : e.trail.facts <+: (e.decide l).trail.facts := by
  have opened : e.openLevel.trail.facts = e.trail.facts := e.trail.facts_openLevel
  rw [← opened]
  exact e.openLevel.trail.prefix_facts_assign l .decision

theorem Sound.facts_cancelTo {aside : List ClauseId} (h : e.Sound aside) (k : Nat) :
    (e.cancelTo k).trail.facts = e.trail.facts := by
  by_cases below : k < e.trail.level
  · rw [trail_cancelTo below, h.trail.facts_cancelTo below]
  · rw [cancelTo_of_le (by omega)]

/-- Learning a fact adds it and what follows, and opens no level. -/
theorem facts_addFact (sound : (e.assign l .decision).Sound [])
    (apart : (e.assign l .decision).FrozenApart) :
    e.trail.facts <+: (e.addFact l).trail.facts ∧ (e.addFact l).trail.level = e.trail.level := by
  have assigned := e.trail.prefix_facts_assign l .decision
  unfold Engine.addFact
  rcases run : (e.assign l .decision).propagate with ⟨f, _ | c⟩
  all_goals
    obtain ⟨-, -, grown, -⟩ := propagate_sound sound apart run
    exact ⟨assigned.trans grown.prefix_facts, grown.level⟩

/-- Clauses that are put back to work may add facts. -/
theorem Settled.facts_reduce (h : e.Settled F) (zero : e.trail.level = 0) :
    e.trail.facts <+: e.reduce.trail.facts := by
  obtain ⟨pairs, relisted⟩ := h.survived zero
  obtain ⟨-, -, -, facts⟩ := relisted.rewatch zero rfl (rfl : e.awakened.rewatchFrozen = _)
  rw [reduce_eq]
  exact facts

/-- A probe that went back leaves the facts as they were, or adds some. -/
theorem Upkept.facts_probeClause {pairs : List (Lit × Lit)} {lits : Array Lit} {g : Engine}
    (h : e.Upkept F (before ++ id :: after) learnts b)
    (tried : Tried F before after learnts pairs e id lits g) :
    e.trail.facts <+: g.trail.facts := by
  obtain ⟨pairs', faithful⟩ := h.faithful
  obtain ⟨x, facts, sound, rfl⟩ := faithful.exists_probed (P := fun x => e.trail.facts <+: x.trail.facts)
    h.zero h.propagated List.prefix_rfl (fun x q facts => facts.trans (prefix_facts_decide x q))
    (fun sound apart facts run =>
      have ⟨_, _, grown, _⟩ := propagate_sound sound apart run
      facts.trans grown.prefix_facts) tried.probed
  rw [sound.facts_cancelTo]
  exact facts

/-- Vivifying a clause opens no level that stays, and may add a fact. -/
theorem VivifiedTo.facts (h : e.Upkept F (before ++ id :: after) learnts b) {stays : Bool}
    (result : VivifiedTo F before after learnts e id stays f) :
    e.trail.facts <+: f.trail.facts ∧ f.trail.level = 0 := by
  refine ⟨?_, ?_⟩
  · cases result with
    | idle => exact List.prefix_rfl
    | satisfied => exact (steady_removeClause e id).trail.facts ▸ List.prefix_rfl
    | @fact pairs lits g l stats tried list =>
      have assigned := (tried.shorter.stats stats).assigned list
      have added := (facts_addFact assigned.sound assigned.apart).1
      rw [(steady_removeClause ({ g with stats } : Engine) id).trail.facts] at added
      exact (h.facts_probeClause tried).trans added
    | @pair pairs lits g x y stats tried list =>
      have steady := (steady_removeClause ({ g with stats } : Engine) id).trans
        (steady_addBinary _ x y false)
      have probed := h.facts_probeClause tried
      rw [steady.trail.facts]
      exact probed
    | shorter stats tried size =>
      have probed := h.facts_probeClause tried
      exact probed
    | unchanged tried size =>
      have probed := h.facts_probeClause tried
      exact probed
  · rcases result.upkept_or_fact h with upkept | ⟨pairs, lits, g, l, shorter, list, -, -, rfl⟩
    · exact upkept.zero
    · have assigned := shorter.assigned list
      rw [(facts_addFact assigned.sound assigned.apart).2, (steady_removeClause g id).trail.level]
      exact shorter.zero

theorem Quiet.facts_vivifyAll (quiet : e.Quiet F) (minSize : Nat) :
    e.trail.facts <+: (e.vivifyAll minSize).trail.facts ∧ (e.vivifyAll minSize).trail.level = 0 := by
  obtain ⟨kept, g, vivified, facts, zero⟩ := quiet.vivifyAll_keeps
    (P := fun _ x => e.trail.facts <+: x.trail.facts ∧ x.trail.level = 0) minSize
    (fun upkept old vivified =>
      have ⟨facts, zero⟩ := vivified.facts upkept
      ⟨old.1.trans facts, zero⟩)
    ⟨List.prefix_rfl, quiet.zero⟩
  rw [vivified]
  exact ⟨facts, zero⟩

theorem Settled.facts_addNormalized (settled : e.Settled F) (zero : e.trail.level = 0)
    {c lits : List Lit} (normalized : Solver.Normalized e.trail c lits)
    (bound : ∀ l ∈ c, l.var.index < e.numVars) (result : Solver.addNormalized e lits = .ok f) :
    e.trail.facts <+: f.trail.facts ∧ f.trail.level = 0 := by
  obtain ⟨pairs, faithful⟩ := settled.faithful
  cases added_of_addNormalized result with
  | empty => exact ⟨List.prefix_rfl, zero⟩
  | fact =>
    have assigned := faithful.toRegular.assignUnit zero normalized bound rfl
    obtain ⟨facts, level⟩ := facts_addFact assigned.sound assigned.apart
    exact ⟨facts, level.trans zero⟩
  | @pair a b =>
    have same := (steady_addBinary e a b false).trail
    rw [same.facts]
    exact ⟨List.prefix_rfl, same.level.trans zero⟩
  | long size stored =>
    rw [(settled.addLong zero normalized bound size stored).2.2]
    exact ⟨List.prefix_rfl, zero⟩

/-- An operation that opens no level keeps the facts. -/
theorem Chore.facts (chore : Chore e f) (h : e.Orderly) : e.trail.facts <+: f.trail.facts := by
  cases chore with
  | noted | dated => exact List.prefix_rfl
  | rebuild => exact List.prefix_rfl
  | setDecision => exact List.prefix_rfl
  | setPolarity => exact List.prefix_rfl
  | cancelTo _ level => exact h.sound.facts_cancelTo level ▸ List.prefix_rfl
  | grown => exact List.prefix_rfl
  | propagate result =>
    obtain ⟨-, -, grown, -⟩ := propagateFrom_sound h.sound h.apart result
    exact grown.prefix_facts
  | simplifyAll quiet =>
    obtain ⟨-, -, same⟩ := quiet.recalls.simplifyAll quiet.zero quiet.propagated
    exact same.facts ▸ List.prefix_rfl
  | reduce settled zero => exact settled.facts_reduce zero
  | vivifyAll quiet minSize => exact (quiet.facts_vivifyAll minSize).1
  | compact settled result =>
    obtain ⟨pairs, faithful⟩ := settled.faithful
    obtain ⟨new, -, -, -, -, same⟩ := faithful.compact rfl (e.lists_ledger _) result
    exact same.facts ▸ List.prefix_rfl
  | add settled zero normalized bound result =>
    exact (settled.facts_addNormalized zero normalized bound result).1

theorem Chore.zero (chore : Chore e f) (h : e.Orderly) (zero : e.trail.level = 0) :
    f.trail.level = 0 := by
  cases chore with
  | noted | dated => exact zero
  | rebuild => exact zero
  | setDecision => exact zero
  | setPolarity => exact zero
  | cancelTo _ level => exact (cancelTo_of_le (by omega : e.trail.level ≤ level)).symm ▸ zero
  | grown => exact zero
  | propagate result =>
    obtain ⟨-, -, grown, -⟩ := propagateFrom_sound h.sound h.apart result
    exact grown.level.trans zero
  | simplifyAll quiet =>
    obtain ⟨-, -, same⟩ := quiet.recalls.simplifyAll quiet.zero quiet.propagated
    exact same.level.trans zero
  | reduce settled zero => exact (settled.reduce zero).2.2.1
  | vivifyAll quiet minSize => exact (quiet.facts_vivifyAll minSize).2
  | compact settled result =>
    obtain ⟨pairs, faithful⟩ := settled.faithful
    obtain ⟨new, -, -, -, -, same⟩ := faithful.compact rfl (e.lists_ledger _) result
    exact same.level.trans zero
  | add settled zero normalized bound result =>
    exact (settled.facts_addNormalized zero normalized bound result).2

theorem Chores.zero (chores : e.Chores f) (h : e.Orderly) (zero : e.trail.level = 0) :
    f.trail.level = 0 := by
  induction chores with
  | refl => exact zero
  | tail before chore ih => exact chore.step.zero ((Chores.rounds before).turns.orderly h) ih

/-- A turn keeps the facts. -/
theorem Turn.facts (turn : Turn e f) (h : e.Orderly) : e.trail.facts <+: f.trail.facts := by
  cases turn with
  | chore chore => exact chore.facts h
  | openLevel => exact e.trail.facts_openLevel ▸ List.prefix_rfl
  | decide => exact prefix_facts_decide e _
  | exhausted result => exact pickLit_eq result ▸ List.prefix_rfl
  | picked _ _ _ result =>
    rw [pickLit_eq result]
    exact prefix_facts_decide _ _
  | blame fails result =>
    obtain ⟨examined, -⟩ := analyzeFinal_spec h.sound ((h.sound.trail.isFalse_iff _).mp fails) result
    exact examined.trail ▸ List.prefix_rfl
  | learn _ _ descends => exact descends.facts h.sound.trail

theorem Turns.facts (turns : e.Turns f) (h : e.Orderly) : e.trail.facts <+: f.trail.facts :=
  (turns.keeps (P := fun x => e.trail.facts <+: x.trail.facts)
    (fun turn orderly facts => facts.trans (turn.facts orderly)) ⟨h, List.prefix_rfl⟩).2

end Engine

namespace Solver

open Engine

variable {F : List (List Lit)} {s t u : Solver} {c : Call} {answer : Answer} {steps : Nat}

theorem zero_solveWith (h : s.Rests F) (zero : s.engine.trail.level = 0) {as : List Lit}
    {outcome : Outcome} (result : s.solveWith steps as = .ok (outcome, t)) :
    t.engine.trail.level = 0 := by
  -- A search ends by going back to level zero, whatever came of it.
  have concluded (outcome' : Outcome) (v : Solver) :
      (Solver.conclude (outcome', v)).2.engine.trail.level = 0 := by
    cases outcome' with
    | error err => exact level_cancelTo_zero v.engine
    | ok status => exact level_cancelTo_zero (v.takeResult status).engine
  rcases solveWith_cases result with ⟨err, failed, rfl, rfl⟩ | ⟨u, known, solved, rfl⟩
  · exact zero
  · rcases h with refuted | ready
    · have notOk : (s.assuming as).engine.ok = false := refuted.notOk
      rw [solveKeeping_of_not_ok notOk] at solved
      cases solved
      exact zero
    · have ok : (s.assuming as).engine.ok = true := ready.settled.ok
      rw [solveKeeping_eq steps ok (shows_of_solveKeeping ok solved)] at solved
      split at solved
      next outcome' v _ =>
        have final := concluded outcome' v
        rw [Except.ok.inj solved] at final
        exact final
      next v _ =>
        rcases searched : search steps v with fault | ⟨outcome', w⟩
        · rw [searched] at solved
          cases solved
        · rw [searched] at solved
          have final := concluded outcome' w
          rw [Except.ok.inj solved] at final
          exact final

/-- Between calls no level is open, even if the clauses are contradictory. -/
theorem History.zero (h : History F s) : s.engine.trail.level = 0 := by
  induction h with
  | @create opts listener s created =>
    obtain ⟨-, -, rfl⟩ := create_eq_ok_iff.mp created
    rfl
  | @call F s t before steps c answer called ih =>
    cases c with
    | ask q =>
      cases called
      exact ih
    | obey c => exact (chores_obeyed before.rests (obeyed (Except.ok.inj called))).zero before.orderly ih
    | solve as =>
      obtain ⟨outcome, result, -⟩ := call_solve called
      exact zero_solveWith before.rests ih result

/-- The second solver comes from the first one by calls. -/
def Later : Solver → Solver → Prop :=
  Relation.ReflTransGen fun s t => ∃ steps c answer, s.call steps c = .ok (answer, t)

theorem History.later (h : History F s) (later : s.Later t) :
    (∃ G, History (F ++ G) t) ∧ s.engine.trail.facts <+: t.engine.trail.facts := by
  induction later with
  | refl => exact ⟨⟨[], (List.append_nil F).symm ▸ h⟩, List.prefix_rfl⟩
  | tail _ called ih =>
    obtain ⟨⟨G, before⟩, facts⟩ := ih
    obtain ⟨steps, c, answer, called⟩ := called
    refine ⟨⟨G ++ c.accepted answer, ?_⟩, ?_⟩
    · rw [← List.append_assoc]
      exact before.call called
    · exact facts.trans ((rounds_call before.rests called).turns.facts before.orderly)

/-- Only known literals are settled. -/
theorem factValue_of_settled {l : Lit} (settled : s.factValue l ≠ .undecided) :
    l.isSentinel = false ∧ s.factValue l = s.engine.trail.factValue l := by
  unfold factValue at *
  split at settled
  next passed => exact ⟨(known_of_checkLit passed).1, rfl⟩
  · exact absurd rfl settled

theorem factValue_of_fact (h : t.engine.Sound []) {l q : Lit} (known : l.isSentinel = false)
    (fact : q ∈ t.engine.trail.facts) (same : q.var = l.var) :
    t.factValue l = t.engine.trail.factValue l := by
  have bound := h.trail.bounded q (h.trail.mem_facts_iff_levelOf.mp fact).1
  have passed : t.checkLit l = .ok () := by
    simp [checkLit, known, checkVar, same ▸ bound]
  rw [factValue, passed]

/-- After any calls no level is open, the facts of before come first among those of now, and a
literal that was settled has the value that it had. -/
theorem facts_grow (h : History F s) (later : s.Later t) :
    t.engine.trail.level = 0 ∧ s.engine.trail.facts <+: t.engine.trail.facts ∧
      ∀ l, s.factValue l ≠ .undecided → t.factValue l = s.factValue l := by
  obtain ⟨⟨G, after⟩, facts⟩ := h.later later
  refine ⟨after.zero, facts, fun l settled => ?_⟩
  have sound := h.orderly.sound
  have sound' := after.orderly.sound
  obtain ⟨known, value⟩ := factValue_of_settled settled
  rw [value] at settled ⊢
  cases was : s.engine.trail.factValue l with
  | yes =>
    have fact := facts.subset (sound.trail.factValue_eq_yes.mp was)
    rw [factValue_of_fact sound' known fact rfl]
    exact sound'.trail.factValue_eq_yes.mpr fact
  | no =>
    have fact := facts.subset (sound.trail.factValue_eq_no.mp was)
    rw [factValue_of_fact sound' known fact (Lit.var_neg l)]
    exact sound'.trail.factValue_eq_no.mpr fact
  | undecided => exact absurd was settled

/-- A literal is given as a fact, and a search learns another one. -/
theorem facts_grow_learnt : ∃ s t, History (clausesOf [[-1, 2], [-1, -2], [3]]) s ∧
    s.Later t ∧ s.engine.trail.facts = [.ofDimacs 3] ∧
      t.engine.trail.facts = [.ofDimacs 3, .ofDimacs (-1)] ∧
      s.factValue (.ofDimacs (-3)) = .no ∧ t.engine.trail.level = 0 ∧
      t.factValue (.ofDimacs (-3)) = s.factValue (.ofDimacs (-3)) := by
  have passes : sessionPasses {} 9 (giving 3 (clausesOf [[-1, 2], [-1, -2], [3]]))
      (clausesOf [[-1, 2], [-1, -2], [3]])
      (fun s => s.engine.trail.facts == [.ofDimacs 3] && (s.factValue (.ofDimacs (-3)) == .no &&
        s.callPasses 9 (.solve [.ofDimacs 1]) fun _ t =>
          t.engine.trail.facts == [.ofDimacs 3, .ofDimacs (-1)])) = true := by
    decide +kernel
  obtain ⟨s, history, tests⟩ := exists_of_sessionPasses passes
  obtain ⟨first, tests⟩ := Bool.and_eq_true_iff.mp tests
  obtain ⟨no, solves⟩ := Bool.and_eq_true_iff.mp tests
  obtain ⟨answer, t, called, second⟩ := exists_of_callPasses solves
  have later : s.Later t := .single ⟨9, _, answer, called⟩
  obtain ⟨zero, -, kept⟩ := facts_grow history later
  have settled : s.factValue (.ofDimacs (-3)) ≠ .undecided := by
    rw [eq_of_beq no]
    exact nofun
  exact ⟨s, t, history, later, eq_of_beq first, eq_of_beq second, eq_of_beq no, zero, kept _ settled⟩

end Solver

end Cdcl
