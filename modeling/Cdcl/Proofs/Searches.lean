import Cdcl.Proofs.Sessions

/-!
# States of a search

A search of a session begins where a solve has prepared its clauses, and goes on step by step. All of
its states answer for the clauses accepted before the solve.

## Main results

- `Searched.searching`: what holds before each step of a search.
- `Reached.settled`: states between calls, and states of a search, answer for the clauses accepted.
-/

namespace Cdcl

namespace Solver

variable {F : List (List Lit)} {s t u : Solver} {as : List Lit}

/-- The state stands before a step of the search that a solve makes in a session in which the clauses
`F` were accepted. -/
inductive Searched (F : List (List Lit)) : Solver → Prop where
  | start {s t u : Solver} {as : List Lit} (before : History F s) (ok : s.engine.ok = true)
    (assumed : s.addAssumptions as = .ok t) (starts : t.begun.opening = .search u) : Searched F u
  | step {s t : Solver} (before : Searched F s) (stepped : s.searchStep = .ok (.continue, t)) :
    Searched F t

/-- The state stands between two calls, or before a step of a search. -/
inductive Reached (F : List (List Lit)) (s : Solver) : Prop where
  | rest (before : History F s)
  | search (before : Searched F s)

theorem History.ready (h : History F s) (ok : s.engine.ok = true) : s.Ready F := by
  rcases h.rests with refuted | ready
  · exact absurd (ok.symm.trans refuted.notOk) nofun
  · exact ready

/-- How the search of a solve begins. -/
theorem Ready.search (h : s.Ready F) (assumed : s.addAssumptions as = .ok t)
    (starts : t.begun.opening = .search u) :
    u.Searching F [] ∧ (s.assuming as).setDeadline.SameTask u ∧ u.engine.trail.level = 0 := by
  obtain ⟨rfl, known⟩ := addAssumptions_eq assumed
  obtain ⟨searching, task, zero⟩ := (h.assuming known).begun
  have opens := searching.opening zero
  rw [starts] at opens
  cases opens with
  | search searching' task' zero' => exact ⟨searching', task.trans task', zero'⟩

/-- A step of a search that goes on. -/
theorem Searching.next {log : List (List Lit)} (h : s.Searching F log)
    (stepped : s.searchStep = .ok (.continue, t)) :
    ∃ more, t.Searching F more ∧ s.SameTask t ∧ s.engine.Progress log t.engine more := by
  obtain ⟨r, v, result, step⟩ := h.step
  rw [result] at stepped
  cases stepped
  cases step with
  | «continue» searching task progress => exact ⟨_, searching, task, progress⟩

theorem Searched.searching (h : Searched F s) : ∃ log, s.Searching F log := by
  induction h with
  | start before ok assumed starts => exact ⟨[], ((before.ready ok).search assumed starts).1⟩
  | step before stepped ih =>
    obtain ⟨log, searching⟩ := ih
    obtain ⟨more, searching', -⟩ := searching.next stepped
    exact ⟨more, searching'⟩

theorem Reached.settled (h : Reached F s) (ok : s.engine.ok = true) : s.engine.Settled F := by
  cases h with
  | rest before => exact (before.ready ok).settled
  | search before =>
    obtain ⟨log, searching⟩ := before.searching
    exact searching.working.settled

/-- What is found out about the clauses, before it is taken down and undone. -/
def openingThenSearch (steps : Nat) : Opening → Except Fault (Outcome × Solver)
  | .answered outcome s => .ok (outcome, s)
  | .search s => search steps s

/-- Does a solve under these assumptions make a search, from a state that passes a test? -/
def searchPasses (as : List Lit) (test : Solver → Bool) (s : Solver) : Bool :=
  match s.addAssumptions as with
  | .error _ => false
  | .ok t =>
    match t.begun.opening with
    | .answered _ _ => false
    | .search u => test u

theorem exists_of_searchPasses {test : Solver → Bool} (passes : s.searchPasses as test = true) :
    ∃ t u, s.addAssumptions as = .ok t ∧ t.begun.opening = .search u ∧ test u = true := by
  unfold searchPasses at passes
  split at passes
  · cases passes
  next t assumed =>
    split at passes
    · cases passes
    next u starts => exact ⟨t, u, assumed, starts, passes⟩

/-- Does the search go on for so many steps, up to a state that passes a test? -/
def stepsPass (test : Solver → Bool) : Nat → Solver → Bool
  | 0, s => test s
  | n + 1, s =>
    match s.searchStep with
    | .ok (.continue, t) => stepsPass test n t
    | _ => false

theorem Searched.exists_of_stepsPass (h : Searched F s) {test : Solver → Bool} {n : Nat}
    (passes : stepsPass test n s = true) : ∃ t, Searched F t ∧ test t = true := by
  induction n generalizing s with
  | zero => exact ⟨s, h, passes⟩
  | succ n ih =>
    unfold stepsPass at passes
    split at passes
    next t stepped => exact ih (.step h stepped) passes
    · cases passes

end Solver

end Cdcl
