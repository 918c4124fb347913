import Cdcl.Proofs.Retention

/-!
# Every conflict makes progress

What a search learns from a conflict contains no clause that was at work when the propagation began
that met it: such a clause would have been watched, and propagated before its last literals became false.
As only reductions forget what was learnt, nothing is learnt twice between two of them, in whichever
searches and after whatever calls.

## Main results

- `Alert.not_remembers`: what is learnt from a conflict says something new.
- `Follows.stands`, `Course.rounds`: a session, with the steps of its searches, is a sequence of turns.
- `progress_of_clash`: every conflict makes progress.
-/

namespace Cdcl

namespace Engine

variable {e f g : Engine} {d : Learnt} {l : Lit} {rest : List Lit}

/-! ### What is learnt says something new -/

/-- A clause that was added is remembered. -/
theorem Gained.remembers (h : e.Gained d f) (asserts : e.Asserts d l rest) :
    f.Remembers d.lits.toList := by
  have lits := asserts.lits
  match rest, lits with
  | [], lits =>
    obtain ⟨why, trail, -⟩ := h.trail l [] lits
    refine .fact (l := l) (lits ▸ List.mem_cons_self) ?_
    have zero : f.trail.level = 0 := by
      rw [trail]
      exact asserts.unit rfl
    rw [Trail.Coherent.mem_facts_of_level_zero zero, trail]
    exact Array.mem_push.mpr (.inr rfl)
  | [other], lits =>
    have stored := (h.pairs l.neg other).mpr (.inr ⟨l, other, lits, .inl ⟨rfl, rfl⟩⟩)
    exact .pair stored (lits ▸ List.mem_cons_self) (lits ▸ List.mem_cons_of_mem _ List.mem_cons_self)
  | second :: third :: others, lits =>
    obtain ⟨id, attached, same⟩ := h.stored (by rw [← Array.length_toList, lits]; simp)
    exact .clause attached fun q inside => Array.mem_toList_iff.mpr (same ▸ inside)

/-- What is learnt from a conflict contains nothing that was at work before the propagation that met it,
and no fact. -/
theorem Alert.not_remembers (h : e.Alert) (order : e.Orderly) (pairsApart : e.PairsApart)
    {conflict : Option Conflict} (run : e.propagate = (f, conflict)) (teaches : f.Teaches d) :
    ¬ e.Remembers d.lits.toList := by
  obtain ⟨sound, -, grown, -⟩ := propagate_sound order.sound order.apart run
  have coherent := sound.trail
  have marks : ∀ k ∈ f.trail.marks, k ≤ e.trail.head := grown.marks ▸ order.sound.trail.marks_le
  have settled {q : Lit} (fact : q ∈ e.trail.facts) : q ∈ f.trail.lits ∧ f.trail.levelOf q.var = 0 :=
    coherent.mem_facts_iff_levelOf.mp (grown.facts_subset fact)
  have open_ {q : Lit} (inside : q ∈ d.lits.toList) : q.neg ∉ e.trail.facts := fun fact =>
    teaches.above q inside (Lit.var_neg q ▸ (settled fact).2)
  -- A clause that takes no part yet would have propagated, or been the conflict, before it could be learnt
  -- again.
  have covered {ids : List ClauseId} {pairs : List (Lit × Lit)} (spared : e.Spared ids pairs) :=
    (propagate_guards order.sound order.apart spared.toGuarded (h ids pairs spared) run).1
  rintro (⟨inside, fact⟩ | @⟨id, attached, within⟩ | @⟨a, b, stored, left, right⟩)
  · exact coherent.not_mem_neg (settled fact).1 (teaches.falsified inside)
  · have spared : e.Spared [id] [] :=
      { clauses := fun x same => ⟨List.mem_singleton.mp same ▸ attached, nofun⟩
        pairs := nofun
        lits := by
          intro x same q inside
          cases List.mem_singleton.mp same
          exact open_ (within q inside)
        firsts := nofun }
    have used := (grown.clauses id).removed.trans (isRemoved_of_isAttached attached)
    exact teaches.not_guarded coherent (covered spared) marks (List.mem_singleton.mpr rfl)
      (sound.proper id used) fun q inside => within q (((grown.clauses id).mem q).mp inside)
  · have back : a ∈ e.watches.binary.get b.neg := by
      have count := order.shelved.booked.symmetric a.neg b
      rw [Lit.neg_neg] at count
      exact Array.count_pos_iff.mp (count ▸ Array.count_pos_iff.mpr stored)
    have spared : e.Spared [] [(a, b), (b, a)] :=
      { clauses := nofun
        pairs := by
          intro x y member
          rcases List.mem_cons.mp member with same | member
          · cases same
            exact stored
          · cases List.mem_singleton.mp member
            exact back
        lits := nofun
        firsts := by
          intro x y member
          rcases List.mem_cons.mp member with same | member
          · cases same
            exact open_ left
          · cases List.mem_singleton.mp member
            exact open_ right }
    have differ : a.var ≠ b.var := fun same => pairsApart a.neg b stored ((Lit.var_neg a).trans same)
    exact teaches.not_guarded_pair coherent (covered spared) marks List.mem_cons_self
      (List.mem_cons_of_mem _ List.mem_cons_self) differ left right

end Engine

namespace Solver

open Engine

variable {F G : List (List Lit)} {r s t : Solver} {e e' f f' : Engine} {c c' : Conflict} {d d' : Learnt}

/-! ### The course of a session -/

/-- Where a session stands: between two calls, or before a step of a search. -/
inductive Stage where
  | rest (s : Solver)
  | search (s : Solver)

def Stage.engine : Stage → Engine
  | rest s => s.engine
  | search s => s.engine

/-- How a session goes on: by a call, by the beginning of a search, or by a step of it. -/
inductive Follows : Stage → Stage → Prop where
  | call {s t : Solver} {steps : Nat} {c : Call} {answer : Answer}
    (called : s.call steps c = .ok (answer, t)) : Follows (.rest s) (.rest t)
  | start {s t u : Solver} {as : List Lit} (ok : s.engine.ok = true)
    (assumed : s.addAssumptions as = .ok t) (starts : t.begun.opening = .search u) :
    Follows (.rest s) (.search u)
  | step {s t : Solver} (stepped : s.searchStep = .ok (.continue, t)) : Follows (.search s) (.search t)
  | finish {s t : Solver} {status : Status} (stepped : s.searchStep = .ok (.finished status, t)) :
    Follows (.search s) (.rest { (conclude (.ok status, t)).2 with assumptions := #[] })
  | fail {s t : Solver} {err : SolverError} (stepped : s.searchStep = .ok (.failed err, t)) :
    Follows (.search s) (.rest { (conclude (.error err, t)).2 with assumptions := #[] })

/-- A part of a session. -/
def Course : Stage → Stage → Prop := Relation.ReflTransGen Follows

/-- What is known of the solver at a stage: a search belongs to a solve that began between calls. -/
def Stage.Stands : Stage → Prop
  | .rest s => s.engine.Orderly ∧ ∃ F, s.Rests F
  | .search s => s.engine.Orderly ∧ ∃ F b log, Ready F b ∧ b.setDeadline.SameTask s ∧ s.Searching F log

theorem Stage.Stands.orderly {x : Stage} (h : x.Stands) : x.engine.Orderly := by
  cases x with
  | rest => exact h.1
  | search => exact h.1

/-- What comes of a search that has ended. -/
theorem rests_of_ended {b : Solver} (ready : b.Ready F) (task : b.setDeadline.SameTask s)
    {outcome : Outcome} (ended : Ended F s outcome t) :
    Rests F { (conclude (outcome, t)).2 with assumptions := #[] } := by
  obtain ⟨u, concluded, spec⟩ := ready.conclude (ended.of_sameTask task)
  rw [concluded]
  exact spec.rests

/-- A session goes on by turns of the engine. -/
theorem Follows.stands {x y : Stage} (follows : Follows x y) (h : x.Stands) :
    y.Stands ∧ x.engine.Rounds y.engine := by
  have order := h.orderly
  have goes {z : Stage} (rounds : x.engine.Rounds z.engine) : z.engine.Orderly := rounds.turns.orderly order
  -- What stands is, between calls, that the solver rests, and in a search, that it searches for the solve
  -- that began it.
  cases follows with
  | @call s t steps c answer called =>
    obtain ⟨-, F, rests⟩ := h
    have rounds := rounds_call rests called
    exact ⟨⟨goes (z := .rest t) rounds, _, rests.call called⟩, rounds⟩
  | @start s t u as ok assumed starts =>
    obtain ⟨-, F, rests⟩ := h
    have ready : s.Ready F := rests.resolve_left fun refuted => absurd (ok.symm.trans refuted.notOk) nofun
    obtain ⟨searching, task, -⟩ := ready.search assumed starts
    obtain ⟨rfl, known⟩ := addAssumptions_eq assumed
    obtain ⟨begun, -, zero⟩ := (ready.assuming known).begun
    have rounds := ((chores_begun (s.assuming as)).trans
      (chores_opening begun.working.settled zero)).rounds
    rw [starts] at rounds
    exact ⟨⟨goes (z := .search u) rounds, F, _, [], ready.assuming known, task, searching⟩, rounds⟩
  | @step s t stepped =>
    obtain ⟨-, F, b, log, ready, task, searching⟩ := h
    obtain ⟨more, searching', task', -⟩ := searching.next stepped
    have rounds := rounds_searchStep searching stepped
    exact ⟨⟨goes (z := .search t) rounds, F, b, more, ready, task.trans task', searching'⟩, rounds⟩
  | @finish s t status stepped =>
    obtain ⟨-, F, b, log, ready, task, searching⟩ := h
    obtain ⟨r, v, result, spec⟩ := searching.step
    cases stepped.symm.trans result
    have rounds := (rounds_searchStep searching stepped).trans (chores_conclude (.ok status) t).rounds
    cases spec with
    | finished ended => exact ⟨⟨goes (z := .rest _) rounds, F, rests_of_ended ready task ended⟩, rounds⟩
  | @fail s t err stepped =>
    obtain ⟨-, F, b, log, ready, task, searching⟩ := h
    obtain ⟨r, v, result, spec⟩ := searching.step
    cases stepped.symm.trans result
    have rounds := (rounds_searchStep searching stepped).trans (chores_conclude (.error err) t).rounds
    cases spec with
    | failed ended => exact ⟨⟨goes (z := .rest _) rounds, F, rests_of_ended ready task ended⟩, rounds⟩

theorem Course.rounds {x y : Stage} (course : Course x y) (h : x.Stands) :
    y.Stands ∧ x.engine.Rounds y.engine := by
  induction course with
  | refl => exact ⟨h, .refl _⟩
  | tail _ follows ih =>
    obtain ⟨stands, rounds⟩ := follows.stands ih.1
    exact ⟨stands, ih.2.trans rounds⟩

theorem Searched.stands (h : Searched F s) : (Stage.search s).Stands := by
  induction h with
  | start before ok assumed starts =>
    have rests : (Stage.rest _).Stands := ⟨before.orderly, _, before.rests⟩
    exact ((Follows.start ok assumed starts).stands rests).1
  | step _ stepped ih => exact ((Follows.step stepped).stands ih).1

/-! ### Progress -/

theorem Searched.pairsApart (h : Searched F s) : s.engine.PairsApart :=
  (h.keeps (fun opts _ => pairsApart_initial opts) Turn.pairsApart).2

/-- Where a search meets a conflict, nothing learnt from it was remembered before the propagation. -/
theorem Clash.not_remembers (h : Clash F s e c) {mode : Nat}
    (analyzed : (e.minimizing mode).analyze c = .ok (f, d)) : ¬ s.engine.Remembers d.lits.toList := by
  obtain ⟨sound, conflict, positive, -⟩ := h.sound
  have sound' : (e.minimizing mode).Sound [] := { sound with }
  obtain ⟨-, -, teaches⟩ := analyze_teaches sound' conflict positive analyzed
  cases h with
  | @mk t x _ before conflicts _ =>
    obtain ⟨asked, run⟩ := conflicts
    rw [(noted_stopRequested asked).engine] at run
    have taught : x.Teaches d :=
      { teaches with entailed := fun σ respected => teaches.entailed σ { respected with } }
    exact before.alert.not_remembers before.orderly before.pairsApart run taught

/-- A search that goes on from a conflict remembers what it learnt. -/
theorem Clash.remembers (h : Clash F s e c) (analyzed : e.analyze c = .ok (f, d))
    (stepped : s.searchStep = .ok (.continue, t)) : t.engine.Remembers d.lits.toList := by
  obtain ⟨sound, conflict, positive, -⟩ := h.sound
  cases h with
  | mk before conflicts _ =>
    obtain ⟨a, d', l, rest, found, turned⟩ :=
      turned_handleConflict sound conflict positive (conflicts.handled stepped)
    cases analyzed.symm.trans found
    exact turned.gained.remembers turned.asserts

/-- What a search learns from a conflict above level zero, whichever way it is minimized, contains no
clause that was at work when the propagation began that met it, no clause of two literals, and nothing
that any search before it in the session has learnt since the last reduction. -/
theorem progress_of_clash (h : Clash F s e c) (mode : Nat) :
    ∃ f d, (e.minimizing mode).analyze c = .ok (f, d) ∧
      (∀ id, (s.engine.clause id).isAttached = true → ¬ ∀ l ∈ (s.engine.clause id).lits, l ∈ d.lits) ∧
      (∀ a b, b ∈ s.engine.watches.binary.get a.neg → a ∈ d.lits → b ∉ d.lits) ∧
      ∀ {G : List (List Lit)} {r t : Solver} {e' f' : Engine} {c' : Conflict} {d' : Learnt},
        Clash G r e' c' → e'.analyze c' = .ok (f', d') → r.searchStep = .ok (.continue, t) →
        Course (.search t) (.search s) → r.engine.stats.reductions = s.engine.stats.reductions →
        ¬ ∀ l ∈ d'.lits, l ∈ d.lits := by
  obtain ⟨sound, conflict, positive, -⟩ := h.sound
  have sound' : (e.minimizing mode).Sound [] := { sound with }
  obtain ⟨f, d, analyzed⟩ := analyze_total sound' conflict positive
  have novel := h.not_remembers analyzed
  refine ⟨f, d, analyzed, fun id attached within => ?_, fun a b stored left right => ?_, ?_⟩
  · exact novel (.clause attached fun l inside => Array.mem_toList_iff.mpr (within l inside))
  · exact novel (.pair stored (Array.mem_toList_iff.mpr left) (Array.mem_toList_iff.mpr right))
  · intro G r t e' f' c' d' earlier learnt stepped course same within
    have before : Searched G r := by
      cases earlier with
      | mk before => exact before
    obtain ⟨stands, first⟩ := (Follows.step stepped).stands before.stands
    obtain ⟨-, rounds⟩ := course.rounds stands
    have le := Rounds.reductions_le first
    have le' := Rounds.reductions_le rounds
    have retains : t.engine.Retains s.engine := rounds.retains stands.orderly (by
      simp only [Stage.engine] at le le' ⊢
      omega)
    refine novel ((retains.remembers (earlier.remembers learnt stepped)).mono fun l inside => ?_)
    exact Array.mem_toList_iff.mpr (within l (Array.mem_toList_iff.mp inside))

/-- Two conflicts, one right after the other. The second one makes a fact of a literal of the clause that
was learnt from the first. -/
theorem progress_of_clash_twice : ∃ r s e' c' f' d' e c f d,
    Clash (clausesOf [[-1, -2, 3], [-1, -2, -3], [-1, 2, 4], [-1, 2, -4]]) r e' c' ∧
      e'.analyze c' = .ok (f', d') ∧ d'.lits = #[.ofDimacs (-2), .ofDimacs (-1)] ∧
      r.searchStep = .ok (.continue, s) ∧ r.engine.stats.reductions = s.engine.stats.reductions ∧
      Clash (clausesOf [[-1, -2, 3], [-1, -2, -3], [-1, 2, 4], [-1, 2, -4]]) s e c ∧
      (e.minimizing 2).analyze c = .ok (f, d) ∧ d.lits = #[.ofDimacs (-1)] ∧
      (∀ id, (s.engine.clause id).isAttached = true → ¬ ∀ l ∈ (s.engine.clause id).lits, l ∈ d.lits) ∧
      (∀ a b, b ∈ s.engine.watches.binary.get a.neg → a ∈ d.lits → b ∉ d.lits) ∧
      ¬ ∀ l ∈ d'.lits, l ∈ d.lits := by
  have passes : sessionPasses {} 9
      (giving 4 (clausesOf [[-1, -2, 3], [-1, -2, -3], [-1, 2, 4], [-1, 2, -4]]))
      (clausesOf [[-1, -2, 3], [-1, -2, -3], [-1, 2, 4], [-1, 2, -4]])
      (fun s => s.engine.ok && s.searchPasses [.ofDimacs 1, .ofDimacs 2] (stepsPass
        (fun r => (r.clashPasses fun e c => (e.analyze c).toOption.any fun found =>
            found.2.lits == #[.ofDimacs (-2), .ofDimacs (-1)]) &&
          stepsPass (fun s => s.engine.stats.reductions == r.engine.stats.reductions &&
            s.clashPasses fun e c => ((e.minimizing 2).analyze c).toOption.any fun found =>
              found.2.lits == #[.ofDimacs (-1)]) 1 r) 2)) = true := by
    decide +kernel
  obtain ⟨s, history, tests⟩ := exists_of_sessionPasses passes
  obtain ⟨ok, searches⟩ := Bool.and_eq_true_iff.mp tests
  obtain ⟨t, u, assumed, starts, steps⟩ := exists_of_searchPasses searches
  obtain ⟨r, searched, meets⟩ := (Searched.start history ok assumed starts).exists_of_stepsPass steps
  obtain ⟨meets, next⟩ := Bool.and_eq_true_iff.mp meets
  obtain ⟨e', c', clash', learns'⟩ := searched.exists_of_clashPasses meets
  rcases analyzed' : e'.analyze c' with fault | ⟨f', d'⟩ <;> rw [analyzed'] at learns'
  · cases learns'
  rcases stepped : r.searchStep with fault | ⟨result, v⟩ <;> simp only [stepsPass, stepped] at next
  · cases next
  cases result <;> try cases next
  obtain ⟨same, meets⟩ := Bool.and_eq_true_iff.mp next
  obtain ⟨e, c, clash, learns⟩ := (Searched.step searched stepped).exists_of_clashPasses meets
  obtain ⟨f, d, analyzed, attached, pairs, since⟩ := progress_of_clash clash 2
  rw [analyzed] at learns
  have reductions := (eq_of_beq same).symm
  exact ⟨r, v, e', c', f', d', e, c, f, d, clash', analyzed', eq_of_beq learns', stepped, reductions, clash,
    analyzed, eq_of_beq learns, attached, pairs, since clash' analyzed' stepped .refl reductions⟩

end Solver

end Cdcl
