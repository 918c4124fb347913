import Cdcl.Proofs.Searches

/-!
# The formula that is stored

What a solver stores is equivalent to the clauses that it accepted, at all times: whatever satisfies the
original clauses, the clauses of two literals and the facts satisfies those, and the other way round. A
propagation that meets no conflict misses nothing that follows from one original clause.

## Main results

- `stored_iff_accepted`: what is stored is equivalent to what was accepted.
- `idles_of_propagated`: after a propagation each original clause has a true literal or two unassigned
  ones.
-/

namespace Cdcl

/-- From the clause alone nothing follows: it has a true literal, or two that are unassigned. -/
def Trail.Idle (t : Trail) (c : List Lit) : Prop :=
  (∃ l ∈ c, t.isTrue l = true) ∨
    ∃ a ∈ c, ∃ b ∈ c, a ≠ b ∧ t.value a.var = .undecided ∧ t.value b.var = .undecided

/-- Nothing follows from a clause that contains one from which nothing follows. -/
theorem Trail.Idle.mono {t : Trail} {c d : List Lit} (h : t.Idle c) (sub : ∀ l ∈ c, l ∈ d) : t.Idle d := by
  rcases h with ⟨l, inside, holds⟩ | ⟨a, left, b, right, rest⟩
  · exact .inl ⟨l, sub l inside, holds⟩
  · exact .inr ⟨a, sub a left, b, sub b right, rest⟩

/-- Literals that are false may be left out. -/
theorem Trail.Idle.drop {n : Nat} {t : Trail} (coherent : t.Coherent n) {c d : List Lit} (h : t.Idle c)
    (left : ∀ l ∈ c, l ∈ d ∨ l.neg ∈ t.facts) : t.Idle d := by
  have assigned {l : Lit} (fact : l.neg ∈ t.facts) : l.neg ∈ t.lits :=
    (coherent.mem_facts_iff_levelOf.mp fact).1
  have free {l : Lit} (inside : l ∈ c) (undecided : t.value l.var = .undecided) : l ∈ d :=
    (left l inside).resolve_right fun fact =>
      coherent.undecided_iff l.var |>.mp undecided _ (assigned fact) (Lit.var_neg l)
  rcases h with ⟨l, inside, holds⟩ | ⟨a, inA, b, inB, differ, freeA, freeB⟩
  · refine .inl ⟨l, (left l inside).resolve_right fun fact => ?_, holds⟩
    exact coherent.not_mem_neg ((coherent.isTrue_iff l).mp holds) (assigned fact)
  · exact .inr ⟨a, free inA freeA, b, free inB freeB, differ, freeA, freeB⟩

namespace Engine

variable {F : List (List Lit)} {L : Ledger} {m : Nat} {e f : Engine} {pairs : List (Lit × Lit)}
  {ids aside : List ClauseId}

/-- Does the assignment satisfy the original clauses, those of two literals and the facts? -/
structure Satisfied (e : Engine) (σ : Valuation) : Prop where
  originals : ∀ id ∈ e.originals, σ.satisfiesClause (e.clause id).lits.toList
  binary : ∀ p, ∀ q ∈ e.watches.binary.get p, σ.satisfiesClause [p.neg, q]
  facts : ∀ l ∈ e.trail.facts, σ.satisfiesLit l

theorem Settled.satisfied_iff (h : e.Settled F) (σ : Valuation) : e.Satisfied σ ↔ σ.satisfies F := by
  obtain ⟨pairs, faithful⟩ := h.faithful
  constructor
  · intro satisfied
    refine faithful.determined ⟨fun id member => ?_, fun a b member => ?_, satisfied.facts⟩
    · exact satisfied.originals id (Array.mem_toList_iff.mp member)
    · obtain ⟨l, inside, holds⟩ := satisfied.binary _ b (faithful.guarded.pairs a b member)
      rw [Lit.neg_neg] at inside
      rcases List.mem_pair.mp inside with rfl | rfl
      · exact .inl holds
      · exact .inr holds
  · intro holds
    have respected := faithful.upheld σ holds
    refine ⟨fun id member => ?_, fun p q member => ?_, respected.facts⟩
    · exact respected.clauses id (faithful.live (Array.mem_toList_iff.mpr member))
    · by_cases true_ : σ.satisfiesLit p
      · exact ⟨q, by simp, respected.binary p q member true_⟩
      · exact ⟨p.neg, by simp, (σ.satisfiesLit_neg p).mpr true_⟩

/-! ### Complete propagation -/

/-- Once the whole trail is covered, nothing follows from a guarded clause alone. -/
theorem Guards.idle (h : e.Guards ids pairs e.trail.lits.size) (sound : e.Sound aside)
    (guarded : e.Guarded aside ids pairs) :
    (∀ id ∈ ids, e.trail.Idle (e.clause id).lits.toList) ∧
      ∀ a b, (a, b) ∈ pairs → (b, a) ∈ pairs → a ≠ b → e.trail.Idle [a, b] := by
  -- A literal is unassigned, or a true one is found: itself, or what covers it.
  have open_ {l : Lit} {c : List Lit} (inside : l ∈ c)
      (covered : e.trail.Before e.trail.lits.size l.neg → ∃ q ∈ c, e.trail.isTrue q = true) :
      (∃ q ∈ c, e.trail.isTrue q = true) ∨ e.trail.value l.var = .undecided := by
    by_cases holds : e.trail.isTrue l = true
    · exact .inl ⟨l, inside, holds⟩
    · by_cases fails : e.trail.isFalse l = true
      · exact .inl (covered (Trail.mem_iff_before.mp ((sound.trail.isFalse_iff l).mp fails)))
      · exact .inr (Trail.value_eq_undecided (Bool.eq_false_iff.mpr holds) (Bool.eq_false_iff.mpr fails))
  constructor
  · intro id member
    have proper := sound.proper id (isRemoved_of_isAttached (guarded.clauses id member).1)
    have size := proper.size
    have inside {i : Nat} (low : i < 2) : (e.clause id).lit i ∈ (e.clause id).lits.toList :=
      Array.mem_toList_iff.mpr (Clause.lit_mem (by omega))
    have covered {w : Lit} (watched : e.Watched id w)
        (before : e.trail.Before e.trail.lits.size w.neg) :
        ∃ q ∈ (e.clause id).lits.toList, e.trail.isTrue q = true := by
      obtain ⟨q, member, holds, -⟩ := h.clauses id member w watched before
      exact ⟨q, Array.mem_toList_iff.mpr member, holds⟩
    rcases open_ (inside (i := 0) (by omega)) (covered (.inl rfl)) with holds | first
    · exact .inl holds
    · rcases open_ (inside (i := 1) (by omega)) (covered (.inr rfl)) with holds | second
      · exact .inl holds
      · refine .inr ⟨_, inside (i := 0) (by omega), _, inside (i := 1) (by omega), ?_, first, second⟩
        intro same
        exact absurd (proper.lit_inj (by omega) (by omega) (congrArg Lit.var same)) nofun
  · intro a b ab ba differ
    have covered {x y : Lit} (member : (x, y) ∈ pairs) (inside : y ∈ [a, b])
        (before : e.trail.Before e.trail.lits.size x.neg) : ∃ q ∈ [a, b], e.trail.isTrue q = true := by
      obtain ⟨q, single, holds, -⟩ := h.pairs x y member before
      rw [Array.mem_singleton.mp single] at holds
      exact ⟨y, inside, holds⟩
    rcases open_ (c := [a, b]) (by simp) (covered ab (by simp)) with holds | first
    · exact .inl holds
    · rcases open_ (c := [a, b]) (by simp) (covered ba (by simp)) with holds | second
      · exact .inl holds
      · exact .inr ⟨a, by simp, b, by simp, differ, first, second⟩

/-- Nothing follows from any original clause alone. Those of two literals are not told apart from learnt
ones in the lists, so they are the ones that `pairs` names: together with the listed clauses and the
facts they contain the reason why each clause accepted holds. Nor does anything follow from what is left
of a clause accepted without literals that are false for good. -/
structure Idles (F : List (List Lit)) (pairs : List (Lit × Lit)) (e : Engine) : Prop where
  originals : ∀ id ∈ e.originals, (e.clause id).isRemoved = false ∧
    e.trail.Idle (e.clause id).lits.toList
  stored : ∀ a b, (a, b) ∈ pairs → b ∈ e.watches.binary.get a.neg ∧ a ∈ e.watches.binary.get b.neg
  binary : ∀ a b, (a, b) ∈ pairs → e.trail.Idle [a, b]
  held : ∀ c ∈ F, e.Held (e.ledger pairs) c
  left : ∀ c ∈ F, ∀ d : List Lit, (∀ l ∈ c, l ∈ d ∨ l.neg ∈ e.trail.facts) → e.trail.Idle d

theorem Settled.idles (h : e.Settled F) (propagated : e.trail.head = e.trail.lits.size) :
    ∃ pairs, e.Idles F pairs := by
  obtain ⟨pairs, faithful⟩ := h.faithful
  have sound := faithful.sound
  have guards := faithful.guards
  rw [propagated] at guards
  obtain ⟨clauses, both⟩ := guards.idle sound faithful.guarded
  have idle (a b : Lit) (member : (a, b) ∈ pairs) : e.trail.Idle [a, b] := by
    obtain ⟨back, differ⟩ := faithful.listed.symmetric a b member
    exact both a b member back fun same => differ (congrArg Lit.var same)
  refine ⟨pairs, fun id member => ?_, fun a b member => ?_, idle, faithful.held,
    fun c given d left => Trail.Idle.drop sound.trail ?_ left⟩
  · have listed : id ∈ e.originals.toList := Array.mem_toList_iff.mpr member
    exact ⟨faithful.live listed, clauses id listed⟩
  · exact ⟨faithful.guarded.pairs a b member,
      faithful.guarded.pairs b a (faithful.listed.symmetric a b member).1⟩
  · cases faithful.held c given with
    | fact l inside fact =>
      exact .inl ⟨l, inside, (sound.trail.isTrue_iff l).mpr (sound.trail.mem_facts_iff_levelOf.mp fact).1⟩
    | clause id member sub =>
      exact (clauses id member).mono fun l inside => sub l (Array.mem_toList_iff.mp inside)
    | pair a b member left right =>
      refine (idle a b member).mono fun l inside => ?_
      rcases List.mem_pair.mp inside with rfl | rfl
      · exact left
      · exact right
    | tautology l inside opposite =>
      -- A clause with a literal and its opposite is true, or both are without a value.
      by_cases free : e.trail.value l.var = .undecided
      · exact .inr ⟨l, inside, l.neg, opposite, (Lit.neg_ne l).symm, free, (Lit.var_neg l).symm ▸ free⟩
      · by_cases holds : e.trail.isTrue l = true
        · exact .inl ⟨l, inside, holds⟩
        · refine .inl ⟨l.neg, opposite, ?_⟩
          by_contra fails
          rw [Trail.isTrue_neg] at fails
          exact free (Trail.value_eq_undecided (Bool.eq_false_iff.mpr holds) (Bool.eq_false_iff.mpr fails))

end Engine

namespace Solver

variable {F : List (List Lit)} {s t : Solver} {e f : Engine}

/-- In every state that is reached without a contradiction, the original clauses, the clauses of two
literals and the facts are equivalent to the clauses accepted, and these imply every clause in use: the
learnt ones too, also while they are frozen. -/
theorem stored_iff_accepted (h : Reached F s) (ok : s.engine.ok = true) (σ : Valuation) :
    (s.engine.Satisfied σ ↔ σ.satisfies F) ∧
      (∀ id, id ∈ s.engine.originals ∨ id ∈ s.engine.learnts → (s.engine.clause id).isRemoved = false) ∧
      (σ.satisfies F → ∀ id, (s.engine.clause id).isRemoved = false →
        σ.satisfiesClause (s.engine.clause id).lits.toList) := by
  have settled := h.settled ok
  obtain ⟨pairs, faithful⟩ := settled.faithful
  refine ⟨settled.satisfied_iff σ, ?_, fun holds => (faithful.upheld σ holds).clauses⟩
  rintro id (original | learnt)
  · exact faithful.live (Array.mem_toList_iff.mpr original)
  · exact (faithful.listed.learnt id (Array.mem_toList_iff.mpr learnt)).1

/-- Two assumptions that contradict two clauses teach a clause of two literals. -/
theorem stored_iff_accepted_learnt : ∃ s,
    Reached (clausesOf [[-1, -2, 3], [-1, -2, -3]]) s ∧ s.engine.ok = true ∧
      .ofDimacs (-2) ∈ s.engine.watches.binary.get (.ofDimacs 1) ∧
      ∀ σ : Valuation, s.engine.Satisfied σ ↔ σ.satisfies (clausesOf [[-1, -2, 3], [-1, -2, -3]]) := by
  have passes : sessionPasses {} 9
      (giving 3 (clausesOf [[-1, -2, 3], [-1, -2, -3]]) ++ [.solve [.ofDimacs 1, .ofDimacs 2]])
      (clausesOf [[-1, -2, 3], [-1, -2, -3]])
      (fun s => s.engine.ok &&
        (s.engine.watches.binary.get (.ofDimacs 1)).contains (.ofDimacs (-2))) = true := by
    decide +kernel
  obtain ⟨s, history, tests⟩ := exists_of_sessionPasses passes
  obtain ⟨ok, learnt⟩ := Bool.and_eq_true_iff.mp tests
  exact ⟨s, .rest history, ok, Array.contains_iff_mem.mp learnt,
    fun σ => (stored_iff_accepted (.rest history) ok σ).1⟩

/-- The engine comes out of a propagation without conflict: one that a simplification at rest begins
with, or one of a search, at the beginning of a step or for the upkeep at level zero. -/
inductive Propagated (F : List (List Lit)) : Engine → Prop where
  | rest {s : Solver} {e : Engine} (before : History F s) (ok : s.engine.ok = true)
    (result : s.engine.propagate = (e, none)) : Propagated F e
  | step {s t : Solver} (before : Searched F s) (proceeds : s.Proceeds t) : Propagated F t.engine
  | upkeep {s t : Solver} {e : Engine} (before : Searched F s) (proceeds : s.Proceeds t)
    (result : t.resumed.engine.propagate = (e, none)) : Propagated F e

/-- A propagation without conflict leaves no original clause from which anything follows. -/
theorem idles_of_propagated (h : Propagated F e) : ∃ pairs, e.Idles F pairs := by
  have finish {b f : Engine} (settled : b.Settled F) (result : b.propagate = (f, none)) :
      ∃ pairs, f.Idles F pairs := by
    obtain ⟨working, -, propagated⟩ := settled.working.propagate result
    exact working.settled.idles propagated
  cases h with
  | rest before ok result => exact finish (before.ready ok).settled result
  | step before proceeds =>
    obtain ⟨log, searching⟩ := before.searching
    obtain ⟨searching', -, -, propagated⟩ := searching.proceeds proceeds
    exact searching'.working.settled.idles propagated
  | upkeep before proceeds result =>
    obtain ⟨log, searching⟩ := before.searching
    exact finish (searching.proceeds proceeds).1.resumed.1.working.settled result

/-- An assumption that implies two literals, by a clause of two literals and by one of three. -/
theorem idles_of_propagated_chain : ∃ e,
    Propagated (clausesOf [[-1, 2], [-1, -2, 3], [-3, 4, 5]]) e ∧ e.trail.lits.size = 3 ∧
      ∃ pairs, e.Idles (clausesOf [[-1, 2], [-1, -2, 3], [-3, 4, 5]]) pairs := by
  have passes : sessionPasses {} 9 (giving 5 (clausesOf [[-1, 2], [-1, -2, 3], [-3, 4, 5]]))
      (clausesOf [[-1, 2], [-1, -2, 3], [-3, 4, 5]])
      (fun s => s.engine.ok && s.searchPasses [.ofDimacs 1] (stepsPass (fun v =>
        !v.stopRequested.1 && (v.stopRequested.2.engine.propagate.2.isNone &&
          v.stopRequested.2.engine.propagate.1.trail.lits.size == 3)) 1)) = true := by
    decide +kernel
  obtain ⟨s, history, tests⟩ := exists_of_sessionPasses passes
  obtain ⟨ok, searches⟩ := Bool.and_eq_true_iff.mp tests
  obtain ⟨t, u, assumed, starts, steps⟩ := exists_of_searchPasses searches
  obtain ⟨v, searched, propagates⟩ := (Searched.start history ok assumed starts).exists_of_stepsPass steps
  simp only [Bool.and_eq_true, Bool.not_eq_true', Option.isNone_iff_eq_none] at propagates
  obtain ⟨asked, none, three⟩ := propagates
  have propagated := Propagated.step searched (.mk (Prod.ext asked rfl) (Prod.ext rfl none))
  exact ⟨_, propagated, eq_of_beq three, idles_of_propagated propagated⟩

end Solver

end Cdcl
