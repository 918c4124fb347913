import Cdcl.Proofs.AnalysisInRange
import Cdcl.Proofs.SimplificationInRange

/-!
# Vivification in range

While a clause is probed it is set aside: decisions are made and propagated as in a search. What comes of
the probe replaces the clause, or some of its literals, in the counts.

## Main results

- `Probing.inRange`: every access of a probe is in range, and the engine stays fit.
- `Quiet.vivifyAll_inRange`: every access of a vivification is in range, even after it found the clauses
  contradictory.
-/

namespace Cdcl

namespace Engine

variable {F : List (List Lit)} {L : Ledger} {e f b : Engine} {id : ClauseId} {l : Lit}
  {aside before after learnts ks rest : List ClauseId} {lits kept : Array Lit} {done : List Lit}
  {pairs : List (Lit × Lit)} {minSize : Nat}

/-! ### What vivification looks up -/

/-- The negations of the literals can be assumed in turn. -/
def ProbeInRange : List Lit → Engine → Prop
  | [], _ => True
  | l :: rest, e =>
    e.Knows l.var ∧
      match e.trail.valueLit l with
      | .yes => True
      | .no => ProbeInRange rest e
      | .undecided =>
        (e.decide l.neg).PropagateInRange ∧
          match (e.decide l.neg).propagate with
          | (_, some _) => True
          | (e, none) => ProbeInRange rest e

/-- The clause is found in the lists of its watches, and its literals can be assumed to be false. -/
def ProbeClauseInRange (e : Engine) (id : ClauseId) : Prop :=
  let lits := (e.clause id).lits.toList
  e.Reads id ∧ (∀ w, e.Watched id w → 0 < entriesOf id (e.watches.long.get w.neg)) ∧
    ProbeInRange lits (e.detachNow id) ∧ (probe lits #[] (e.detachNow id)).2.CancelInRange

/-- A literal without value can be added as a fact. -/
structure AddFactInRange (e : Engine) (l : Lit) : Prop where
  known : e.Knows l.var
  unassigned : e.trail.value l.var = .undecided
  propagates : (e.assign l .decision).PropagateInRange

/-- The engine that counts one more clause shortened. -/
def shortening (e : Engine) (id : ClauseId) (lits : Array Lit) : Engine :=
  e.modifyStats fun s =>
    { s with
      vivifiedClauses := s.vivifiedClauses + 1
      vivifiedLits := s.vivifiedLits + ((e.clause id).size - lits.size) }

/-- The clause can be replaced by some of its literals. -/
structure ShortenInRange (e : Engine) (id : ClauseId) (lits : Array Lit) : Prop where
  clause : e.ClauseInRange id
  fewer : lits.size ≤ (e.clause id).size
  distinct : (lits.toList.map Lit.var).Nodup
  known : ∀ l ∈ lits, e.Knows l.var
  fact : ∀ l, lits.toList = [l] → ((e.shortening id lits).removeClause id).AddFactInRange l

/-- At level zero a clause that is satisfied can be removed, and another one can be tried. -/
def VivifyClauseInRange (minSize : Nat) (e : Engine) (id : ClauseId) : Prop :=
  e.Reads id ∧ (e.ok = true → minSize ≤ (e.clause id).size →
    e.trail.level = 0 ∧ e.ClauseInRange id ∧ (e.isSatisfied id = false →
      e.ProbeClauseInRange id ∧
        match e.probeClause id with
        | (lits, f) =>
          (lits.size < (e.clause id).size → f.ShortenInRange id lits) ∧
            (¬ lits.size < (e.clause id).size → f.Reads id)))

def VivifyAllInRange (e : Engine) (minSize : Nat) : Prop :=
  Throughout (vivifyClause (max minSize 3))
    (fun s id => s.engine.VivifyClauseInRange (max minSize 3) id) { engine := e } e.originals.toList

/-! ### Probes -/

theorem Fit.decide (h : e.Fit aside) (propagated : e.trail.head = e.trail.lits.size)
    (unassigned : e.trail.value l.var = .undecided) (bound : l.var.index < e.numVars) :
    (e.decide l).Fit aside :=
  h.sameBooks (sameBooks_decide e l) (h.sound.decide propagated unassigned bound) { h.apart with }
    (h.equipped.decide bound)

/-- What follows from each decision is looked up as in a search; the induction is on the literals that
are left. -/
theorem Probing.inRange (ls : List Lit) (h : Probing F L b done kept e) (fit : e.Fit L.aside)
    (bound : ∀ q ∈ ls, q.var.index < e.numVars) :
    ProbeInRange ls e ∧ (probe ls kept e).2.Fit L.aside := by
  induction ls generalizing e done kept with
  | nil => exact ⟨trivial, fit⟩
  | cons l ls ih =>
    have inside := bound l List.mem_cons_self
    have later : ∀ q ∈ ls, q.var.index < e.numVars := fun q member =>
      bound q (List.mem_cons_of_mem l member)
    unfold ProbeInRange probe
    cases value : e.trail.valueLit l with
    | yes => exact ⟨⟨fit.knows inside, trivial⟩, fit⟩
    | no =>
      obtain ⟨inRange, fit'⟩ := ih (h.skip ((e.trail.valueLit_eq_no_iff l).mp value)) fit later
      exact ⟨⟨fit.knows inside, inRange⟩, fit'⟩
    | undecided =>
      have free := (e.trail.valueLit_eq_undecided_iff l).mp value
      have decided : (e.decide l.neg).Fit L.aside := fit.decide h.propagated free inside
      have propagates := decided.propagateFrom_inRange (e.decide l.neg).numVars
      dsimp only
      rcases run : (e.decide l.neg).propagate with ⟨g, _ | c⟩
      · have next : Probing F L b (done ++ [l]) (kept.push l) g := h.decide ls free inside run
        have numVars : g.numVars = e.numVars := next.framed.numVars.trans h.framed.numVars.symm
        obtain ⟨inRange, fit'⟩ := ih next (decided.propagateFrom run) fun q member =>
          numVars ▸ later q member
        exact ⟨⟨fit.knows inside, propagates, inRange⟩, fit'⟩
      · exact ⟨⟨fit.knows inside, propagates, trivial⟩, decided.propagateFrom run⟩

theorem Equipped.detachNow (h : e.Equipped) (id : ClauseId) : (e.detachNow id).Equipped :=
  { h with watches := h.watches.unwatchNow id _ _ }

theorem Faithful.probeClause_inRange
    (h : e.Faithful F { originals := before ++ id :: after, learnts, pairs } e.trail.head)
    (zero : e.trail.level = 0) (propagated : e.trail.head = e.trail.lits.size)
    (unsatisfied : e.isSatisfied id = false) (fit : e.Fit []) (result : e.probeClause id = (lits, f)) :
    e.ProbeClauseInRange id ∧ f.Fit [id] := by
  have used := isRemoved_of_isAttached (h.guarded.clauses id (by simp)).1
  have known : ∀ q ∈ (e.clause id).lits.toList, q.var.index < e.numVars := fun q member =>
    (h.sound.proper id used).bounded q (Array.mem_toList_iff.mp member)
  have start := h.startProbe zero propagated
  have apart : (e.detachNow id).Fit [id] :=
    fit.sameBooks (sameBooks_detachNow e id) start.faithful.sound start.faithful.apart
      (fit.equipped.detachNow id)
  obtain ⟨inRange, probed⟩ := start.inRange _ apart known
  unfold Engine.probeClause at result
  unfold ProbeClauseInRange
  rcases run : probe (e.clause id).lits.toList #[] (e.detachNow id) with ⟨kept, g⟩
  rw [run] at probed
  simp only [run, Prod.mk.injEq] at result
  have open_ : ∀ q ∈ (e.clause id).lits.toList, q ∉ e.trail.facts := by
    intro q member fact
    have holds := (h.sound.trail.isTrue_iff q).mpr
      ((Trail.Coherent.mem_facts_of_level_zero zero).mp fact)
    rw [isTrue_of_isSatisfied_false unsatisfied (Array.mem_toList_iff.mp member)] at holds
    cases holds
  obtain ⟨m, faithful, -⟩ := (probe_spec _ start open_ known run).faithful
  have attached := (h.guarded.clauses id (by simp)).1
  refine ⟨⟨fit.reads used, fun w watched => ?_, inRange, ?_⟩, result.2 ▸ probed.cancelTo 0⟩
  · rw [h.sound.tracked.exact id attached List.not_mem_nil, Clause.watchCount,
      if_pos (watched.imp (congrArg Lit.neg) (congrArg Lit.neg))]
    exact Nat.one_pos
  · rw [run]
    exact probed.cancelInRange faithful.offers

/-! ### Shorter clauses -/

theorem Fit.refute (h : e.Fit aside) : e.refute.Fit aside :=
  h.sameBooks (.others e) { h.sound with } { h.apart with } { h.equipped with }

theorem Fit.addFact_inRange (h : (e.assign l .decision).Fit aside) (knows : e.Knows l.var)
    (unassigned : e.trail.value l.var = .undecided) :
    e.AddFactInRange l ∧ (e.addFact l).Fit aside := by
  refine ⟨⟨knows, unassigned, h.propagateFrom_inRange _⟩, ?_⟩
  unfold Engine.addFact
  rcases run : (e.assign l .decision).propagate with ⟨f, _ | c⟩
  · exact h.propagateFrom run
  · exact (h.propagateFrom run).refute

/-- What is left of a clause is put in its place, and the fact that a single literal is can be added. -/
theorem Shorter.inRange (h : e.Shorter F before after learnts pairs id lits) (fit : e.Fit [id])
    (booked : e.Booked (before ++ id :: after) ks) :
    e.ShortenInRange id lits ∧ (e.shorten id lits).2.Equipped := by
  have proper := h.faithful.sound.proper id h.used
  have counting : (e.shortening id lits).Equipped := fit.equipped.modifyStats fit.equipped.deleted
  have removed : ((e.shortening id lits).removeClause id).Equipped := counting.removeClause proper
  obtain ⟨c, perm, sublist⟩ := h.sublist
  have fewer : lits.size ≤ (e.clause id).size := sublist.length_le.trans perm.length_eq.le
  have fact (l : Lit) (list : lits.toList = [l]) :
      ((e.shortening id lits).removeClause id).AddFactInRange l ∧
        (((e.shortening id lits).removeClause id).addFact l).Fit [] := by
    have member : l ∈ lits := Array.mem_toList_iff.mp (list ▸ List.mem_singleton_self l)
    have bound : l.var.index < ((e.shortening id lits).removeClause id).numVars := by
      rw [((e.shortening id lits).steady_removeClause id).numVars]
      exact h.bound member
    have counted := h.stats (e.shortening id lits).stats
    have assigned := counted.assigned list
    have gone : (e.shortening id lits).Booked (before ++ id :: after) ks :=
      (sameBooks_stats e _).booked booked
    have watched := (frozenKept_removeClause (e.shortening id lits) id).watched
      ((sameBooks_stats e _).frozenKept.watched fit.watched)
    have same := sameBooks_assign ((e.shortening id lits).removeClause id) l .decision
    -- The clause is removed before its last literal becomes a fact, so that nothing watches it.
    have ready : (((e.shortening id lits).removeClause id).assign l .decision).Fit [] :=
      ⟨assigned.sound, assigned.apart, same.frozenKept.watched watched,
        ⟨_, _, same.booked gone.removeOriginal⟩, removed.assign bound _⟩
    exact ready.addFact_inRange (removed.knows bound) (counted.free_removed member)
  refine ⟨⟨fit.clauseInRange h.zero h.used, fewer, h.distinct, fun l member => fit.knows (h.bound member),
    fun l list => (fact l list).1⟩, ?_⟩
  unfold Engine.shorten
  dsimp only
  split
  · exact { counting with }
  next l list => exact (fact l list).2.equipped
  next a b list => exact removed.addBinary a b false
  · have replaced : ((e.shortening id lits).replaceLits id lits).Equipped := { counting with }
    exact replaced.attach id

/-! ### The loop -/

/-- A clause is tried, and what is left of it replaces it. -/
theorem Upkept.vivifyClause_inRange {s : VivifyState} (minSize : Nat)
    (h : s.engine.Upkept F (before ++ id :: after) learnts b) (fit : s.engine.Fit [])
    (booked : s.engine.Booked (before ++ id :: after) ks) :
    s.engine.VivifyClauseInRange minSize id ∧ (Engine.vivifyClause minSize s id).engine.Equipped := by
  obtain ⟨pairs, faithful⟩ := h.faithful
  have clause : s.engine.ClauseInRange id := fit.clauseInRange h.zero (isLearnt_eq_false booked).1
  have proper := fit.sound.proper id (isLearnt_eq_false booked).1
  unfold VivifyClauseInRange Engine.vivifyClause
  dsimp only
  rcases probed : s.engine.probeClause id with ⟨lits, g⟩
  have tried (unsatisfied : s.engine.isSatisfied id = false) :
      s.engine.ProbeClauseInRange id ∧ g.Fit [id] ∧ (g.clause id).size = (s.engine.clause id).size ∧
        g.Reads id ∧ g.ShortenInRange id lits ∧ (g.shorten id lits).2.Equipped := by
    obtain ⟨probing, fit'⟩ :=
      faithful.probeClause_inRange h.zero h.propagated unsatisfied fit probed
    obtain ⟨shorter, -, -, sameSize⟩ := probeClause_spec faithful h.zero h.propagated unsatisfied probed
    have booked' := (booksKept_probeClause faithful h.zero h.propagated probed).booked booked
    exact ⟨probing, fit', sameSize, fit'.reads shorter.used, shorter.inRange fit' booked'⟩
  refine ⟨⟨clause.reads, fun _ _ => ⟨h.zero, clause, fun unsatisfied => ?_⟩⟩, ?_⟩
  · obtain ⟨probing, -, -, reads, shortens, -⟩ := tried unsatisfied
    exact ⟨probing, fun _ => shortens, fun _ => reads⟩
  · split
    · exact fit.equipped
    split
    · exact { fit.equipped.removeClause proper with }
    next unsatisfied =>
      obtain ⟨-, fit', -, -, -, shorter⟩ := tried (by simpa using unsatisfied)
      split
      · exact shorter
      · exact fit'.equipped.attach id

/-- Trying a clause keeps the engine fit, even if the fact that it adds refutes the clauses. -/
theorem VivifiedTo.fit {stays : Bool} (result : VivifiedTo F before after learnts e id stays f)
    (h : e.Upkept F (before ++ id :: after) learnts b) (fit : e.Fit [])
    (booked : e.Booked (before ++ id :: after) ks) (equipped : f.Equipped) : f.Fit [] := by
  obtain ⟨sound, apart⟩ := result.order h
  exact ⟨sound, apart, result.frozenWatched h fit.watched, ⟨_, _, (result.books h booked).1⟩, equipped⟩

/-- In the course of a vivification, which may have found the clauses contradictory already. -/
structure Vivifying (F : List (List Lit)) (learnts ks : List ClauseId) (b : Engine) (s : VivifyState)
    (rest : List ClauseId) : Prop where
  course : s.engine.Refuted F ∨ s.engine.Upkept F (s.kept.toList ++ rest) learnts b
  fit : s.engine.Fit []
  booked : s.engine.Booked (s.kept.toList ++ rest) ks

theorem vivifyClause_of_refuted {s : VivifyState} (refuted : s.engine.ok = false) :
    vivifyClause minSize s id = { s with kept := s.kept.push id } := by
  unfold vivifyClause
  dsimp only
  rw [refuted]
  rfl

theorem Vivifying.provides {s : VivifyState} (h : Vivifying F learnts ks b s (id :: rest)) :
    s.engine.VivifyClauseInRange minSize id := by
  rcases h.course with refuted | upkept
  · refine ⟨h.fit.reads (isLearnt_eq_false h.booked).1, fun ok => ?_⟩
    rw [refuted.notOk] at ok
    cases ok
  · exact (upkept.vivifyClause_inRange minSize h.fit h.booked).1

theorem Vivifying.step {s : VivifyState} (minSize : Nat)
    (h : Vivifying F learnts ks b s (id :: rest)) :
    Vivifying F learnts ks b (vivifyClause minSize s id) rest := by
  rcases h.course with refuted | upkept
  · rw [vivifyClause_of_refuted refuted.notOk]
    refine ⟨.inl refuted, h.fit, ?_⟩
    simpa using h.booked
  · obtain ⟨stays, vivified, kept⟩ := upkept.vivifiedTo minSize
    have equipped := (upkept.vivifyClause_inRange minSize h.fit h.booked).2
    refine ⟨upkept.vivifyClause minSize, vivified.fit upkept h.fit h.booked equipped, ?_⟩
    rw [kept]
    exact (vivified.books upkept h.booked).1

/-- Every access of a vivification is in range, and no count goes below zero. -/
theorem Quiet.vivifyAll_inRange (quiet : e.Quiet F) (minSize : Nat) (shelved : e.Shelved) (fit : e.Fit []) :
    e.VivifyAllInRange minSize ∧ (e.vivifyAll minSize).Equipped := by
  obtain ⟨pairs, faithful⟩ := quiet.faithful
  have began : Vivifying F e.learnts.toList e.learnts.toList e { engine := e } e.originals.toList :=
    ⟨.inr ⟨⟨pairs, faithful⟩, .refl e, ⟨rfl, rfl⟩, quiet.zero, quiet.propagated⟩, fit, shelved.booked⟩
  obtain ⟨inRange, done⟩ := throughout_of_keeps
    (fun s ids => Vivifying F e.learnts.toList e.learnts.toList e s ids)
    Vivifying.provides (Vivifying.step (max minSize 3)) began
  unfold VivifyAllInRange Engine.vivifyAll
  rw [← Array.foldl_toList]
  exact ⟨inRange, { done.fit.equipped with }⟩

end Engine

end Cdcl
