import Cdcl.Proofs.ClauseBooks

/-!
# Checks for garbage

A solver checks for garbage after its clauses were simplified, vivified or reduced. If too much of the
arena is wasted it is compacted. The clauses in use fit into the arena as it was, so that they fit into a
fresh one of the same limit, and the compaction cannot fail halfway.

## Main results

- `Orderly.compacts`: whenever an engine is in order, its compaction succeeds and renames its handles.
- `compacted_of_check`: so it is whenever a solver checks for garbage.
-/

namespace Cdcl

namespace Engine

open ClauseArena

variable {e f : Engine} {new : ClauseId → ClauseId}

/-- The second engine is the first one with new handles for the clauses in use, in a fresh arena where
nothing is wasted. -/
structure Compacted (e : Engine) (new : ClauseId → ClauseId) (f : Engine) : Prop where
  /-- Different clauses have different new handles. -/
  inj : ∀ id other, (e.clause id).isRemoved = false → (e.clause other).isRemoved = false →
    new id = new other → id = other
  /-- A new handle reads as the old one did: literals, activity, level count and freeze count. -/
  clauses : ∀ id, (e.clause id).isRemoved = false → f.clause (new id) = e.clause id ∧
    (f.clause (new id)).mark = 0 ∧ (f.clause (new id)).relocated = false
  /-- No other clause is in use. -/
  onto : ∀ x, (f.clause x).isRemoved = false → ∃ id, (e.clause id).isRemoved = false ∧ new id = x
  originals : f.originals = e.originals.map new
  learnts : f.learnts = e.learnts.map new
  long : ∀ p, f.watches.long.get p =
    ((e.watches.long.get p).filter (!Watches.isStale e.arena ·)).map (Watches.renameEntry new)
  frozen : ∀ p, f.watches.frozen.get p =
    ((e.watches.frozen.get p).filter (!Watches.isFrozenStale e.arena ·)).map (Watches.renameEntry new)
  reasons : ∀ l ∈ e.trail.lits, f.trail.reason l.var = (e.trail.reason l.var).rename new
  /-- The handles renamed are of clauses in use. -/
  live : e.swept.Handles fun id => (e.clause id).isRemoved = false
  wasted : f.arena.space.wasted = 0
  used : f.arena.space.used + e.arena.space.wasted = e.arena.space.used
  binary : f.watches.binary = e.watches.binary
  /-- Everything else is as it was. -/
  rest : f = { e with
    arena := f.arena
    watches := f.watches
    trail := { e.trail with reasons := f.trail.reasons }
    originals := f.originals
    learnts := f.learnts
    stats := { e.stats with compactions := e.stats.compactions + 1 } }

/-- Whenever an engine is in order its compaction succeeds. -/
theorem Orderly.compacts (h : e.Orderly) : ∃ f new, e.compact = .ok f ∧ e.Compacted new f := by
  have filed := h.shelved.booked.filed
  have balanced := h.shelved.booked.balanced
  rcases h.sound.compact_spec filed.listsUsed with
    ⟨_, _, _, full⟩ | ⟨ids, b, reasons, moved, held, renamed, result⟩
  · -- The words in use fit, since they did before.
    have := balanced.words
    have := balanced.room
    omega
  refine ⟨_, newId ids, result, ?_⟩
  -- Each clause in use is listed, and so it is moved.
  have all (id : ClauseId) (used : (e.clause id).isRemoved = false) : id ∈ ids :=
    (filed.listed used).elim (held.originals id) (held.learnts id)
  obtain ⟨used, wasted⟩ := moved.words all
  constructor
  case inj => exact fun id other inUse _ same => Moved.inj (all id inUse) same
  case clauses =>
    intro id inUse
    have same : b.get (newId ids id) = e.clause id := moved.get (all id inUse)
    change b.get (newId ids id) = e.clause id ∧ (b.get (newId ids id)).mark = 0 ∧
      (b.get (newId ids id)).relocated = false
    rw [same]
    exact ⟨rfl, by simpa [Clause.isRemoved] using inUse, (h.sound.proper id inUse).inPlace⟩
  case onto =>
    intro x inUse
    obtain ⟨id, kept, same⟩ := moved.onto inUse
    exact ⟨id, moved.used id kept, same⟩
  case originals => rfl
  case learnts => rfl
  case long =>
    intro p
    rw [← h.sound.long_swept]
    exact Watches.long_rename h.sound.blank_swept p
  case frozen =>
    intro p
    rw [← h.sound.frozen_swept]
    exact Watches.frozen_rename h.sound.blank_swept p
  case reasons => exact renamed
  case live => exact h.sound.handles_swept filed.listsUsed
  case wasted => exact wasted
  case used =>
    have := balanced.words
    change b.space.used + _ = _
    omega
  case binary => exact (Watches.cleanAll_cleaned e.watches e.arena).binary
  case rest => rfl

end Engine

namespace Solver

open Engine

variable {F : List (List Lit)} {s t : Solver}

/-- The solver is about to simplify its clauses. -/
inductive Simplifies (F : List (List Lit)) : Solver → Prop where
  /-- As it was asked to. -/
  | asked {s : Solver} (before : History F s) (ok : s.engine.ok = true) : Simplifies F s
  /-- At the beginning of a solve. -/
  | opening {s t u : Solver} {as : List Lit} (before : History F s) (ok : s.engine.ok = true)
    (assumed : s.addAssumptions as = .ok t) (goes : t.begun.stopRequested = (false, u)) :
    Simplifies F u
  /-- Before a vivification, be it after another simplification. -/
  | again {s t : Solver} (before : Simplifies F s) (simplified : s.simplify = (.ok true, t)) :
    Simplifies F t
  /-- At level zero of a search. -/
  | searching {s t : Solver} (before : Searched F s) (proceeds : s.Proceeds t)
    (zero : t.resumed.engine.trail.level = 0) : Simplifies F t.resumed

/-- The solver is about to check for garbage. -/
inductive Checks (F : List (List Lit)) : Solver → Prop where
  /-- A simplification removed and shortened clauses. -/
  | simplified {s : Solver} {e : Engine} (before : Simplifies F s)
    (done : s.engine.simplify = (.done, e)) :
    Checks F ({ s with engine := e, pureLitsStale := true }.notify .simplified)
  /-- A vivification replaced original clauses. -/
  | vivified {s t : Solver} (before : Simplifies F s) (simplified : s.simplify = (.ok true, t))
    (minSize : Nat) (ok : (t.engine.vivifyAll minSize).ok = true) :
    Checks F (t.mapEngine (·.vivifyAll minSize))
  /-- A reduction removed, froze and thawed learnt clauses. -/
  | reduced {s t u : Solver} (before : Searched F s) (proceeds : s.Proceeds t)
    (zero : t.resumed.engine.trail.level = 0) (simplified : t.resumed.simplify = (.ok true, u))
    (due : u.engine.isReductionDue = true) :
    Checks F ((u.mapEngine Engine.reduce).notify
      (.reduced u.engine.learnts.size u.engine.reduce.learnts.size)).reportProgress

/-- A solver that is about to simplify its clauses is in order. -/
theorem Simplifies.orderly (h : Simplifies F s) :
    s.engine.Orderly ∧ (∃ log, s.engine.Working F log) ∧ s.engine.trail.level = 0 := by
  induction h with
  | asked before ok =>
    have ready := before.ready ok
    exact ⟨before.orderly, ⟨[], ready.settled.working⟩, ready.zero⟩
  | @opening s t u as before ok assumed goes =>
    obtain ⟨rfl, known⟩ := addAssumptions_eq assumed
    obtain ⟨searching, -, zero⟩ := ((before.ready ok).assuming known).begun
    rw [show u.engine = (s.assuming as).begun.engine from (noted_stopRequested goes).engine]
    have orderly : (s.assuming as).engine.Orderly := before.orderly
    exact ⟨(chores_begun (s.assuming as)).rounds.turns.orderly orderly, ⟨_, searching.working⟩, zero⟩
  | again before simplified ih =>
    obtain ⟨orderly, ⟨log, working⟩, zero⟩ := ih
    have tidied := tidied_of_simplify working zero simplified
    exact ⟨(chores_simplify working.settled zero simplified).rounds.turns.orderly orderly,
      ⟨log, tidied.working⟩, tidied.zero⟩
  | searching before proceeds zero =>
    obtain ⟨log, searching⟩ := before.searching
    exact ⟨(rounds_proceeds proceeds).turns.orderly before.orderly,
      ⟨log, (searching.proceeds proceeds).1.resumed.1.working⟩, zero⟩

/-- So is one that is about to check for garbage. -/
theorem Checks.orderly (h : Checks F s) : s.engine.Orderly := by
  cases h with
  | @simplified s e before done =>
    obtain ⟨orderly, ⟨log, working⟩, zero⟩ := before.orderly
    rw [(noted_notify { s with engine := e, pureLitsStale := true } .simplified).engine]
    exact (chores_engineSimplify working.settled zero done).rounds.turns.orderly orderly
  | @vivified s t before simplified minSize ok =>
    obtain ⟨orderly, ⟨log, working⟩, zero⟩ := (before.again simplified).orderly
    obtain ⟨-, ⟨log', working'⟩, zero'⟩ := before.orderly
    have quiet := (tidied_of_simplify working' zero' simplified).quiet
    exact (Chore.vivifyAll quiet minSize).orderly orderly
  | @reduced s t u before proceeds zero simplified due =>
    obtain ⟨orderly, ⟨log, working⟩, zero⟩ :=
      ((Simplifies.searching before proceeds zero).again simplified).orderly
    have after := (Chore.reduce working.settled zero).orderly orderly
    have engine : _ = u.engine.reduce := (noted_reduce u).engine
    rw [← engine] at after
    exact after

/-- Wherever a solver checks for garbage, a compaction succeeds and keeps the state up to new handles. -/
theorem compacted_of_check (h : Checks F s) :
    s.settle.1 = .ok true ∧ ∃ f new, s.engine.compact = .ok f ∧ s.engine.Compacted new f := by
  obtain ⟨f, new, result, compacted⟩ := h.orderly.compacts
  refine ⟨?_, f, new, result, compacted⟩
  unfold settle collectGarbage
  by_cases wasteful : s.engine.isWasteful = true
  · simp only [if_pos wasteful, result]
  · simp only [if_neg wasteful]

/-- A fact satisfies the clause before the one that is kept, so that this one gets a new handle. -/
theorem compacted_of_check_satisfied : ∃ s, Checks (clausesOf [[1, 2, 5], [2, 3, 4], [5]]) s ∧
    s.engine.originals.size = 1 ∧ s.engine.arena.space.wasted = 4 ∧ s.settle.1 = .ok true ∧
      ∃ f new, s.engine.compact = .ok f ∧ s.engine.Compacted new f := by
  have passes : sessionPasses {} 9 (giving 5 (clausesOf [[1, 2, 5], [2, 3, 4], [5]]))
      (clausesOf [[1, 2, 5], [2, 3, 4], [5]])
      (fun s => s.engine.ok && match s.engine.simplify with
        | (.done, e) => e.originals.size == 1 && e.arena.space.wasted == 4
        | _ => false) = true := by
    decide +kernel
  obtain ⟨s, history, tests⟩ := exists_of_sessionPasses passes
  obtain ⟨ok, simplifies⟩ := Bool.and_eq_true_iff.mp tests
  split at simplifies
  case h_2 => cases simplifies
  next e done =>
  obtain ⟨one, words⟩ := Bool.and_eq_true_iff.mp simplifies
  have checks := Checks.simplified (.asked history ok) done
  have engine : _ = e := (noted_notify { s with engine := e, pureLitsStale := true } .simplified).engine
  exact ⟨_, checks, engine ▸ eq_of_beq one, engine ▸ eq_of_beq words, compacted_of_check checks⟩

end Solver

end Cdcl
