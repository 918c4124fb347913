import Cdcl.Proofs.Searches

/-!
# The implication graph

At every moment of a search and of a vivification the reasons of the literals on the trail form a graph
without cycles that respects the levels. Conflict analysis and the extraction of cores walk this graph.

## Main results

- `Sound.graph`: the graph of a sound engine.
- `graph_of_moment`: the graph at every moment.
-/

namespace Cdcl

namespace Engine

variable {F : List (List Lit)} {as ps : List Lit} {aside : List ClauseId} {e f : Engine} {l : Lit}

/-- The trail and its reasons, while the first levels belong to the literals `as` and `ps` to assume. -/
structure Graph (as ps : List Lit) (e : Engine) : Prop where
  holds : ∀ l, l ∈ e.trail.lits ↔ e.trail.isTrue l = true
  once : ∀ v, e.trail.value v ≠ .undecided →
    ∃! i : Nat, ∃ l : Lit, e.trail.lits[i]? = some l ∧ l.var = v
  sorted : e.trail.marks.toList.Pairwise (· ≤ ·)
  bounded : ∀ m ∈ e.trail.marks, m ≤ e.trail.lits.size
  level : ∀ {i : Nat} {l : Lit}, e.trail.lits[i]? = some l →
    e.trail.levelOf l.var = e.trail.marks.toList.countP (· ≤ i)
  caused : ∀ {i : Nat} {l : Lit} {lits : List Lit}, e.trail.lits[i]? = some l →
    e.explainer.causes l.var = some lits → ∀ q ∈ lits, e.trail.isFalse q = true ∧ e.trail.Before i q.neg
  binary : ∀ l ∈ e.trail.lits, ∀ other, e.trail.reason l.var = .binary other →
    l ∈ e.watches.binary.get other.neg
  clause : ∀ l ∈ e.trail.lits, ∀ id, e.trail.reason l.var = .clause id →
    (e.clause id).isRemoved = false ∧ (e.clause id).isFrozen = false ∧ (e.clause id).lit 0 = l
  /-- Above level zero the decisions are the first literals of their levels. -/
  first : ∀ {i : Nat} {l : Lit}, e.trail.lits[i]? = some l → e.trail.levelOf l.var ≠ 0 →
    (e.trail.reason l.var = .decision ↔
      ∀ q, e.trail.Before i q → e.trail.levelOf q.var ≠ e.trail.levelOf l.var)
  beside : ∀ {i : Nat} {l : Lit} {lits : List Lit}, e.trail.lits[i]? = some l →
    e.trail.levelOf l.var ≠ 0 → e.explainer.causes l.var = some lits →
    ∃ q ∈ lits, e.trail.levelOf q.var = e.trail.levelOf l.var
  /-- The level of a literal to assume begins with that literal, or has none. -/
  assumed : ∀ {k : Nat} {a l : Lit}, (as ++ ps)[k]? = some a → l ∈ e.trail.lits →
    e.trail.levelOf l.var = k + 1 →
    a ∈ e.trail.lits ∧ e.trail.levelOf a.var = k + 1 ∧ e.trail.reason a.var = .decision
  /-- The level opened for a literal that was decided before stays empty. -/
  dummy : ∀ {k : Nat} {a : Lit}, (as ++ ps)[k]? = some a → e.trail.value a.var ≠ .undecided →
    e.trail.levelOf a.var ≤ k → ∀ l ∈ e.trail.lits, e.trail.levelOf l.var ≠ k + 1

theorem causes_eq_none_iff {v : Var} :
    e.explainer.causes v = none ↔ e.trail.reason v = .decision := by
  rw [causes_eq]
  cases e.trail.reason v <;> simp

section Sound

variable (h : e.Sound aside)
include h

/-- One of the literals that imply another one is of its level. -/
theorem Sound.beside {i : Nat} {lits : List Lit} (at_i : e.trail.lits[i]? = some l)
    (causes : e.explainer.causes l.var = some lits) :
    ∃ q ∈ lits, e.trail.Beside i q.neg := by
  have explained := h.justified at_i
  rw [causes_eq] at causes
  cases why : e.trail.reason l.var with
  | decision =>
    rw [why] at causes
    cases causes
  | binary other =>
    rw [why] at causes explained
    cases causes
    exact ⟨other, List.mem_singleton_self _, explained.2⟩
  | clause id =>
    rw [why] at causes explained
    cases causes
    exact explained.2.2.2

theorem Sound.levelOf_beside {i : Nat} (at_i : e.trail.lits[i]? = some l) {q : Lit}
    (beside : e.trail.Beside i q) : e.trail.levelOf q.var = e.trail.levelOf l.var := by
  obtain ⟨j, -, at_j, same⟩ := beside
  rw [h.trail.level_eq at_j, same, h.trail.level_eq at_i]

/-- The decision of the level of a literal that is not a fact. -/
theorem Sound.exists_decision (member : l ∈ e.trail.lits) (above : e.trail.levelOf l.var ≠ 0) :
    ∃ d ∈ e.trail.lits, e.trail.reason d.var = .decision ∧
      e.trail.levelOf d.var = e.trail.levelOf l.var := by
  obtain ⟨i, at_i⟩ := Array.mem_iff_getElem?.mp member
  -- Going from a literal to one beside it leads back on the trail, to a decision in the end.
  induction i using Nat.strong_induction_on generalizing l with
  | _ i ih =>
    cases causes : e.explainer.causes l.var with
    | none => exact ⟨l, member, causes_eq_none_iff.mp causes, rfl⟩
    | some lits =>
      obtain ⟨q, -, beside⟩ := h.beside at_i causes
      have same := h.levelOf_beside at_i beside
      obtain ⟨j, below, at_j, -⟩ := beside
      obtain ⟨d, inside, decision, level⟩ :=
        ih j below (Array.mem_of_getElem? at_j) (same ▸ above) at_j
      exact ⟨d, inside, decision, level.trans same⟩

/-- The graph of a sound engine. -/
theorem Sound.graph (presumes : e.trail.Presumes as ps) : e.Graph as ps := by
  have coherent := h.trail
  -- A level with any literal was opened by a decision, which is the assumption that it stands for.
  have assumed {k : Nat} {a l : Lit} (at_k : (as ++ ps)[k]? = some a) (member : l ∈ e.trail.lits)
      (level : e.trail.levelOf l.var = k + 1) :
      a ∈ e.trail.lits ∧ e.trail.levelOf a.var = k + 1 ∧ e.trail.reason a.var = .decision := by
    obtain ⟨d, inside, decision, same⟩ := h.exists_decision member (by omega)
    have at_d : (as ++ ps)[e.trail.levelOf d.var - 1]? = some a := by
      rw [same, level]
      exact at_k
    have eq := presumes.decided d inside decision (by omega) a at_d
    exact ⟨eq ▸ inside, eq ▸ same.trans level, eq ▸ decision⟩
  refine
    { holds := fun l => (coherent.isTrue_iff l).symm
      once := fun v assigned => ?_
      sorted := coherent.sorted
      bounded := fun m member => Nat.le_trans (coherent.marks_le m member) coherent.head_le
      level := fun at_i => coherent.level_eq at_i
      caused := fun at_i causes q member => by
        have before := (h.causes at_i causes).1 q member
        exact ⟨(coherent.isFalse_iff q).mpr before.mem, before⟩
      binary := fun l member other why => ?_
      clause := fun l member id why => ?_
      first := fun at_i above => ⟨fun decision q before same => ?_, fun none => ?_⟩
      beside := fun at_i _ causes => ?_
      assumed
      dummy := fun at_k assigned low l member level => ?_ }
  · obtain ⟨l, member, same⟩ : ∃ l ∈ e.trail.lits, l.var = v := by
      by_contra none
      exact assigned ((coherent.undecided_iff v).mpr fun l member same => none ⟨l, member, same⟩)
    obtain ⟨i, at_i⟩ := Array.mem_iff_getElem?.mp member
    refine ⟨i, ⟨l, at_i, same⟩, ?_⟩
    rintro j ⟨q, at_j, var⟩
    exact coherent.distinct at_j at_i (var.trans same.symm)
  · obtain ⟨i, at_i⟩ := Array.mem_iff_getElem?.mp member
    have explained := h.justified at_i
    rw [why] at explained
    exact explained.1
  · obtain ⟨i, at_i⟩ := Array.mem_iff_getElem?.mp member
    have explained := h.justified at_i
    rw [why] at explained
    exact ⟨isRemoved_of_isAttached explained.1, isFrozen_of_isAttached explained.1, explained.2.1⟩
  · next i l =>
    -- A decision is the first literal of its level.
    have opens := h.justified at_i
    rw [decision] at opens
    obtain ⟨j, below, at_j⟩ := before
    rw [coherent.level_eq at_j, coherent.level_eq at_i] at same
    rw [coherent.level_eq at_i] at above
    have lower := opens.resolve_left above j below
    omega
  · next i l =>
    -- What was implied has a cause at its own level, so that a literal without one was decided.
    cases causes : e.explainer.causes l.var with
    | none => exact causes_eq_none_iff.mp causes
    | some lits =>
      obtain ⟨q, -, beside⟩ := h.beside at_i causes
      exact absurd (h.levelOf_beside at_i beside) (none _ beside.before)
  · next i l lits =>
    obtain ⟨q, member, beside⟩ := h.beside at_i causes
    have same := h.levelOf_beside at_i beside
    rw [Lit.var_neg] at same
    exact ⟨q, member, same⟩
  · have := (assumed at_k member level).2.1
    omega

end Sound

/-- No levels are claimed for literals to assume. -/
theorem presumes_nil (t : Trail) : t.Presumes [] [] where
  decided := fun _ _ _ _ _ at_k => absurd at_k nofun
  assumed := fun _ _ _ at_k => absurd at_k nofun

theorem Sound.decide (h : e.Sound aside) (propagated : e.trail.head = e.trail.lits.size)
    (unassigned : e.trail.value l.var = .undecided) (bound : l.var.index < e.numVars) :
    (e.decide l).Sound aside :=
  (h.openLevel propagated).assign unassigned bound (h.trail.opens_openLevel propagated)

end Engine

namespace Solver

open Engine

variable {F : List (List Lit)} {as ps : List Lit} {e f : Engine} {s t : Solver}

/-- The solver is about to assume or decide a literal, in the course of a step. -/
inductive Branches (F : List (List Lit)) : Solver → Prop where
  | straight {s t : Solver} (before : Searched F s) (proceeds : s.Proceeds t) : Branches F t
  | upkept {s t u : Solver} (before : Searched F s) (proceeds : s.Proceeds t)
    (zero : t.resumed.engine.trail.level = 0) (kept : t.resumed.upkeep = (.done, u)) : Branches F u

/-- The original clauses of this engine are about to be vivified, at the user's command or at the
beginning of a solve. -/
inductive Vivifies (F : List (List Lit)) : Engine → Prop where
  | command {s t : Solver} (before : History F s) (ok : s.engine.ok = true)
    (simplified : s.simplify = (.ok true, t)) : Vivifies F t.engine
  | prepare {s t u v w : Solver} {as : List Lit} (before : History F s) (ok : s.engine.ok = true)
    (assumed : s.addAssumptions as = .ok t) (asked : t.begun.stopRequested = (false, u))
    (first : u.simplify = (.ok true, v)) (simplified : v.simplify = (.ok true, w)) :
    Vivifies F w.engine

/-- The engine at a moment of a search or of a vivification, while the first levels belong to the
literals `as` and `ps` to assume. -/
inductive Moment (F : List (List Lit)) : List Lit → List Lit → Engine → Prop where
  | rest {s : Solver} (before : History F s) (ok : s.engine.ok = true) : Moment F [] [] s.engine
  | step {s : Solver} (before : Searched F s) :
    Moment F s.assumptions.toList s.pureLits.toList s.engine
  | resumed {s t : Solver} (before : Searched F s) (proceeds : s.Proceeds t) :
    Moment F t.assumptions.toList t.pureLits.toList t.resumed.engine
  | branch {s : Solver} (before : Branches F s) :
    Moment F s.assumptions.toList s.pureLits.toList s.engine
  | opened {s : Solver} {a : Assumed} {f : Engine} (before : Branches F s)
    (opens : s.engine.openAssumed ((s.assumptions.toList.map (·, true) ++
      s.pureLits.toList.map (·, false)).drop s.engine.trail.level) = (a, f)) :
    Moment F s.assumptions.toList s.pureLits.toList f
  /-- Between two clauses of a vivification. -/
  | vivified {e : Engine} {ids rest : List ClauseId} {minSize : Nat} (before : Vivifies F e)
    (list : e.originals.toList = ids ++ rest)
    (ok : (ids.foldl (vivifyClause minSize) { engine := e }).engine.ok = true) :
    Moment F [] [] (ids.foldl (vivifyClause minSize) { engine := e }).engine
  /-- The next clause is set aside. -/
  | aside {e : Engine} {ids rest : List ClauseId} {id : ClauseId} {minSize : Nat}
    (before : Vivifies F e) (list : e.originals.toList = ids ++ id :: rest)
    (ok : (ids.foldl (vivifyClause minSize) { engine := e }).engine.ok = true) :
    Moment F [] [] ((ids.foldl (vivifyClause minSize) { engine := e }).engine.detachNow id)
  /-- A probe assumes a literal. -/
  | probed {e : Engine} {l : Lit} (before : Moment F [] [] e)
    (propagated : e.trail.head = e.trail.lits.size) (unassigned : e.trail.value l.var = .undecided)
    (bound : l.var.index < e.numVars) : Moment F [] [] (e.decide l)
  /-- Some of the literals that wait are propagated. -/
  | propagated {as ps : List Lit} {e f : Engine} {n : Nat} {conflict : Option Conflict}
    (before : Moment F as ps e) (result : propagateFrom n e = (f, conflict)) : Moment F as ps f
  | back {as ps : List Lit} {e : Engine} (before : Moment F as ps e) (k : Nat) :
    Moment F as ps (e.cancelTo k)

theorem Branches.searching (h : Branches F s) :
    ∃ log, s.Searching F log ∧ s.engine.trail.head = s.engine.trail.lits.size := by
  cases h with
  | straight before proceeds =>
    obtain ⟨log, searching⟩ := before.searching
    obtain ⟨searching', -, -, propagated⟩ := searching.proceeds proceeds
    exact ⟨log, searching', propagated⟩
  | upkept before proceeds zero kept =>
    obtain ⟨log, searching⟩ := before.searching
    obtain ⟨more, searching', -, -, propagated, -⟩ :=
      (searching.proceeds proceeds).1.resumed.1.upkept zero kept
    exact ⟨more, searching', propagated⟩

theorem Vivifies.quiet (h : Vivifies F e) : e.Quiet F := by
  cases h with
  | command before ok simplified =>
    have ready := before.ready ok
    exact quiet_of_simplify ready.settled ready.zero simplified
  | prepare before ok assumed asked first simplified =>
    obtain ⟨rfl, known⟩ := addAssumptions_eq assumed
    obtain ⟨searching, -, zero⟩ := ((before.ready ok).assuming known).begun
    have engine := (noted_stopRequested asked).engine
    have quiet := quiet_of_simplify (engine ▸ searching.working.settled) (engine ▸ zero) first
    exact quiet_of_simplify quiet.toSettled quiet.zero simplified

/-- What holds at a moment. -/
structure Orderly (as ps : List Lit) (e : Engine) : Prop where
  sound : ∃ aside, e.Sound aside
  apart : e.FrozenApart
  presumes : e.trail.Presumes as ps

theorem orderly_of_settled (h : e.Settled F) (presumes : e.trail.Presumes as ps) : Orderly as ps e := by
  obtain ⟨pairs, faithful⟩ := h.faithful
  exact ⟨⟨[], faithful.sound⟩, faithful.apart, presumes⟩

/-- The engine between two clauses of a vivification. -/
theorem Vivifies.faithful {ids rest : List ClauseId} (h : Vivifies F e) (minSize : Nat)
    (list : e.originals.toList = ids ++ rest)
    (ok : (ids.foldl (vivifyClause minSize) { engine := e }).engine.ok = true) :
    ∃ originals pairs, (ids.foldl (vivifyClause minSize) { engine := e }).engine.Faithful F
      { originals := originals ++ rest, learnts := e.learnts.toList, pairs }
      (ids.foldl (vivifyClause minSize) { engine := e }).engine.trail.head := by
  rcases h.quiet.vivifyClauses minSize list with refuted | upkept
  · exact absurd (ok.symm.trans refuted.notOk) nofun
  · obtain ⟨pairs, faithful⟩ := upkept.faithful
    exact ⟨_, pairs, faithful⟩

theorem Moment.orderly (h : Moment F as ps e) : Orderly as ps e := by
  induction h with
  | rest before ok => exact orderly_of_settled (before.ready ok).settled (presumes_nil _)
  | step before =>
    obtain ⟨log, searching⟩ := before.searching
    exact orderly_of_settled searching.working.settled searching.presumes
  | @resumed s t before proceeds =>
    obtain ⟨log, searching⟩ := before.searching
    obtain ⟨searching', assumptions, pureLits⟩ := (searching.proceeds proceeds).1.resumed
    rw [← assumptions, ← pureLits]
    exact orderly_of_settled searching'.working.settled searching'.presumes
  | branch before =>
    obtain ⟨log, searching, -⟩ := before.searching
    exact orderly_of_settled searching.working.settled searching.presumes
  | opened before opens =>
    obtain ⟨log, searching, propagated⟩ := before.searching
    obtain ⟨working, presumes, -⟩ :=
      searching.working.openAssumed _ searching.presumes propagated rfl opens
    exact orderly_of_settled working.settled presumes
  | @vivified e ids rest minSize before list ok =>
    obtain ⟨originals, pairs, faithful⟩ := before.faithful minSize list ok
    exact ⟨⟨[], faithful.sound⟩, faithful.apart, presumes_nil _⟩
  | @aside e ids rest id minSize before list ok =>
    obtain ⟨originals, pairs, faithful⟩ := before.faithful minSize list ok
    exact ⟨⟨[id], faithful.detachNow.sound⟩, faithful.detachNow.apart, presumes_nil _⟩
  | probed before propagated unassigned bound ih =>
    obtain ⟨⟨aside, sound⟩, apart, -⟩ := ih
    exact ⟨⟨aside, sound.decide propagated unassigned bound⟩, { apart with }, presumes_nil _⟩
  | propagated before result ih =>
    obtain ⟨⟨aside, sound⟩, apart, presumes⟩ := ih
    obtain ⟨sound', apart', grown, -⟩ := propagateFrom_sound sound apart result
    exact ⟨⟨aside, sound'⟩, apart', grown.presumes sound.trail sound'.trail presumes⟩
  | @back as ps e before k ih =>
    obtain ⟨⟨aside, sound⟩, apart, presumes⟩ := ih
    refine ⟨⟨aside, sound.cancelTo k⟩, apart.cancelTo k, ?_⟩
    -- Going back to a level that is not below changes nothing.
    by_cases below : k < e.trail.level
    · rw [trail_cancelTo below]
      exact presumes.cancelTo sound.trail below
    · rw [cancelTo_of_le (by omega)]
      exact presumes

/-- A probe goes through such moments. -/
theorem Moment.probe {lits : List Lit} {kept kept' : Array Lit} (h : Moment F [] [] e)
    (propagated : e.trail.head = e.trail.lits.size) (bound : ∀ l ∈ lits, l.var.index < e.numVars)
    (result : Engine.probe lits kept e = (kept', f)) : Moment F [] [] f := by
  induction lits generalizing e kept with
  | nil =>
    cases result
    exact h
  | cons l lits ih =>
    obtain ⟨inside, others⟩ := List.forall_mem_cons.mp bound
    unfold Engine.probe at result
    split at result
    · cases result
      exact h
    · exact ih h propagated others result
    next undecided =>
      have unassigned : e.trail.value l.neg.var = .undecided :=
        (Lit.var_neg l).symm ▸ (e.trail.valueLit_eq_undecided_iff l).mp undecided
      have decided := h.probed propagated unassigned ((Lit.var_neg l).symm ▸ inside)
      obtain ⟨⟨aside, sound⟩, apart, -⟩ := decided.orderly
      split at result
      next run =>
        cases result
        exact decided.propagated run
      next g run =>
        obtain ⟨-, -, grown, finished, -⟩ := propagate_sound sound apart run
        have numVars : g.numVars = e.numVars := grown.numVars
        exact ih (decided.propagated run) (finished rfl) (numVars ▸ others) result

/-- At every moment of a search and of a vivification the reasons form a graph without cycles that
respects the levels. -/
theorem graph_of_moment (h : Moment F as ps e) : e.Graph as ps := by
  obtain ⟨⟨aside, sound⟩, -, presumes⟩ := h.orderly
  exact sound.graph presumes

/-- The second of three assumptions follows from the first one, so that its level is empty. -/
theorem graph_of_moment_dummy : ∃ ps e,
    Moment (clausesOf [[-1, 2], [-1, -3, 4], [-3, -2, -4, 5]])
      [.ofDimacs 1, .ofDimacs 2, .ofDimacs 3] ps e ∧
      e.trail.lits.toList = [.ofDimacs 1, .ofDimacs 2, .ofDimacs 3, .ofDimacs 4, .ofDimacs 5] ∧
      e.trail.marks.toList = [0, 2, 2] ∧ e.Graph [.ofDimacs 1, .ofDimacs 2, .ofDimacs 3] ps := by
  have passes : sessionPasses {} 9
      (giving 5 (clausesOf [[-1, 2], [-1, -3, 4], [-3, -2, -4, 5]]))
      (clausesOf [[-1, 2], [-1, -3, 4], [-3, -2, -4, 5]])
      (fun s => s.engine.ok && s.searchPasses [.ofDimacs 1, .ofDimacs 2, .ofDimacs 3] (stepsPass (fun w =>
        w.assumptions == #[.ofDimacs 1, .ofDimacs 2, .ofDimacs 3] &&
          (w.engine.propagate.1.trail.lits.toList ==
              [.ofDimacs 1, .ofDimacs 2, .ofDimacs 3, .ofDimacs 4, .ofDimacs 5] &&
            w.engine.propagate.1.trail.marks.toList == [0, 2, 2])) 2)) = true := by
    decide +kernel
  obtain ⟨s, history, tests⟩ := exists_of_sessionPasses passes
  obtain ⟨ok, searches⟩ := Bool.and_eq_true_iff.mp tests
  obtain ⟨t, u, assumed, starts, steps⟩ := exists_of_searchPasses searches
  obtain ⟨w, searched, propagates⟩ := (Searched.start history ok assumed starts).exists_of_stepsPass steps
  obtain ⟨assumptions, trail⟩ := Bool.and_eq_true_iff.mp propagates
  obtain ⟨lits, marks⟩ := Bool.and_eq_true_iff.mp trail
  have moment : Moment _ _ _ w.engine.propagate.1 := .propagated (.step searched) rfl
  rw [eq_of_beq assumptions] at moment
  exact ⟨_, _, moment, eq_of_beq lits, eq_of_beq marks, graph_of_moment moment⟩

end Solver

end Cdcl
