import Cdcl.Proofs.Contradictions
import Cdcl.Proofs.Retention

/-!
# Normalization of given clauses

A clause that is given is left out if it holds already or says nothing. Otherwise its literals that
are not false are put in order, each of them once, and their number decides what becomes of them: a
contradiction, a fact, a clause of two literals, or one of the arena.

## Main results

- `normalize_eq_none_iff`, `normalize_eq_some_iff`: the one pass along the sorted clause finds true
  and opposite literals and what is left otherwise.
- `stored_of_addClause`: what a solver does with a clause of known literals.
-/

namespace Cdcl

namespace Solver

variable {t : Trail} {c lits lits' : List Lit}

/-- The clause says nothing new: a literal of it is true, or two are opposite. -/
def Moot (t : Trail) (c : List Lit) : Prop := (∃ l ∈ c, t.isTrue l = true) ∨ ∃ l ∈ c, l.neg ∈ c

/-- What is left of a clause: its literals that are not false, in order and each of them once. -/
structure Residue (t : Trail) (c lits : List Lit) : Prop where
  increasing : lits.Pairwise (·.code < ·.code)
  mem_iff : ∀ l, l ∈ lits ↔ l ∈ c ∧ t.isFalse l = false

/-- There is only one way to put literals in order. -/
theorem Residue.unique (h : Residue t c lits) (k : Residue t c lits') : lits = lits' := by
  have nodup {xs : List Lit} (increasing : xs.Pairwise (·.code < ·.code)) : xs.Nodup :=
    increasing.imp fun less same => absurd (same ▸ less) (Nat.lt_irrefl _)
  have perm : lits.Perm lits' :=
    (List.perm_ext_iff_of_nodup (nodup h.increasing) (nodup k.increasing)).mpr fun l =>
      (h.mem_iff l).trans (k.mem_iff l).symm
  exact perm.eq_of_pairwise (fun _ _ _ _ less more => absurd less (Nat.lt_asymm more)) h.increasing
    k.increasing

/-- The literals that are left are unassigned, unless the clause is moot. -/
theorem Residue.unassigned (h : Residue t c lits) (new : ¬ Moot t c) {l : Lit} (member : l ∈ lits) :
    t.isUnassigned l.var = true := by
  obtain ⟨inside, notFalse⟩ := (h.mem_iff l).mp member
  have notTrue : t.isTrue l = false := Bool.eq_false_iff.mpr fun holds => new (.inl ⟨l, inside, holds⟩)
  exact (t.isUnassigned_iff l.var).mpr (Trail.value_eq_undecided notTrue notFalse)

section Normalize

variable (usable : ∀ l ∈ c, l.isSentinel = false)

include usable

theorem residue_of_normalize (result : normalize t c = some lits) : Residue t c lits := by
  have left := leftBehind_normalize usable t
  rw [result] at left
  obtain ⟨sublist, -, -, -⟩ := left
  have normalized := normalize_eq_some usable result
  refine ⟨?_, fun l => ⟨fun member => ⟨normalized.sub l member, ?_⟩, ?_⟩⟩
  · have ordered : lits.Pairwise (·.code ≤ ·.code) := (pairwise_sortLits c).sublist sublist
    have nodup : lits.Nodup := List.Nodup.of_map Lit.var normalized.distinct
    exact (ordered.and nodup).imp fun ⟨le, differ⟩ =>
      Nat.lt_of_le_of_ne le fun same => differ (Lit.code_inj.mp same)
  · have undecided := (t.valueLit_eq_undecided_iff l).mpr (normalized.undecided l member)
    simp [Trail.isFalse, undecided]
  · rintro ⟨inside, notFalse⟩
    exact (normalized.dropped l inside).resolve_right (Bool.eq_false_iff.mp notFalse)

/-- A clause of which something is left is not moot, even if that is nothing but a contradiction. -/
theorem not_moot_of_normalize (result : normalize t c = some lits) : ¬ Moot t c := by
  have normalized := normalize_eq_some usable result
  have unassigned {l : Lit} (member : l ∈ lits) : t.isTrue l = false := by
    have undecided := (t.valueLit_eq_undecided_iff l).mpr (normalized.undecided l member)
    simp [Trail.isTrue, undecided]
  have notTrue {l : Lit} (inside : l ∈ c) : t.isTrue l = false := by
    rcases normalized.dropped l inside with kept | fails
    · exact unassigned kept
    · exact Trail.isTrue_of_isFalse fails
  rintro (⟨l, inside, holds⟩ | ⟨l, inside, opposite⟩)
  · exact absurd holds (Bool.eq_false_iff.mp (notTrue inside))
  · -- If one of the two were false, the other one would be true.
    have notFalse (q : Lit) (other : q.neg ∈ c) : t.isFalse q ≠ true := fun fails =>
      absurd ((Trail.isTrue_neg t q).trans fails) (Bool.eq_false_iff.mp (notTrue other))
    have left := (normalized.dropped l inside).resolve_right (notFalse l opposite)
    have right := (normalized.dropped l.neg opposite).resolve_right
      (notFalse l.neg ((Lit.neg_neg l).symm ▸ inside))
    exact Lit.neg_ne l (List.inj_on_of_nodup_map normalized.distinct right left (Lit.var_neg l))

/-- The pass along the sorted clause drops it exactly if it is moot. -/
theorem normalize_eq_none_iff : normalize t c = none ↔ Moot t c := by
  refine ⟨normalize_eq_none usable, fun moot => ?_⟩
  cases result : normalize t c with
  | none => rfl
  | some lits => exact absurd moot (not_moot_of_normalize usable result)

/-- Otherwise it comes to what is left. -/
theorem normalize_eq_some_iff : normalize t c = some lits ↔ ¬ Moot t c ∧ Residue t c lits := by
  constructor
  · exact fun result => ⟨not_moot_of_normalize usable result, residue_of_normalize usable result⟩
  · rintro ⟨new, residue⟩
    cases result : normalize t c with
    | none => exact absurd ((normalize_eq_none_iff usable).mp result) new
    | some out => rw [residue.unique (residue_of_normalize usable result)]

end Normalize

end Solver

namespace Engine

variable {e f : Engine} {a b : Lit} {rest : List Lit}

/-- The second engine has one more original clause of two literals, and is the same otherwise. -/
structure StoresPair (e : Engine) (a b : Lit) (f : Engine) : Prop where
  binary : ∀ p, f.watches.binary.get p =
    if p = a.neg then (e.watches.binary.get p).push b
    else if p = b.neg then (e.watches.binary.get p).push a
    else e.watches.binary.get p
  rest : f = { e with
    watches := { e.watches with binary := f.watches.binary }
    tally := { e.tally with originalBinary := e.tally.originalBinary + 1 } }

/-- The second engine has one more original clause in the arena, attached on its first two literals,
and is the same otherwise. -/
structure StoresLong (e : Engine) (a b : Lit) (rest : List Lit) (id : ClauseId) (f : Engine) : Prop where
  fresh : id.slot = e.arena.clauses.size
  clauses : ∀ x, f.clause x = if x = id then .fresh (a :: b :: rest).toArray false else e.clause x
  space : f.arena.space =
    { e.arena.space with used := e.arena.space.used + (1 + (a :: b :: rest).length) }
  long : ∀ p, f.watches.long.get p =
    if p = a.neg then (e.watches.long.get p).push ⟨id, b⟩
    else if p = b.neg then (e.watches.long.get p).push ⟨id, a⟩
    else e.watches.long.get p
  rest : f = { e with
    arena := f.arena
    originals := e.originals.push id
    watches := { e.watches with long := f.watches.long }
    tally := { e.tally with
      originals := e.tally.originals + 1
      originalLits := e.tally.originalLits + (a :: b :: rest).length } }

end Engine

namespace Solver

open Engine

variable {F : List (List Lit)} {s t : Solver} {c lits : List Lit}

/-- A literal of a variable that was created. -/
def Knows (s : Solver) (l : Lit) : Prop := l.isSentinel = false ∧ l.var.index < s.engine.numVars

instance (s : Solver) (l : Lit) : Decidable (s.Knows l) := inferInstanceAs (Decidable (_ ∧ _))

theorem checkLit_of_knows {l : Lit} (known : s.Knows l) : s.checkLit l = .ok () := by
  unfold checkLit checkVar
  rw [known.1, if_neg nofun, if_pos known.2]

/-- What comes of giving a clause of which these literals are left. -/
inductive Takes (s : Solver) (c : List Lit) : List Lit → Prop
  /-- The clauses are contradictory. -/
  | nothing {t : Solver} (result : s.addClause c = (.ok false, t))
    (engine : t.engine = s.engine.refute) : Takes s c []
  /-- The literal becomes a fact, and is propagated. -/
  | fact {t : Solver} {f : Engine} {l : Lit} {conflict : Option Conflict}
    (propagates : (s.engine.assign l .decision).propagate = (f, conflict))
    (result : s.addClause c = (.ok conflict.isNone, t))
    (engine : t.engine = if conflict.isNone then f else f.refute)
    (fact : l ∈ t.engine.trail.facts) : Takes s c [l]
  | pair {t : Solver} {a b : Lit} (result : s.addClause c = (.ok true, t))
    (stores : s.engine.StoresPair a b t.engine) : Takes s c [a, b]
  | long {t : Solver} {a b d : Lit} {rest : List Lit} {id : ClauseId}
    (result : s.addClause c = (.ok true, t))
    (stores : s.engine.StoresLong a b (d :: rest) id t.engine) : Takes s c (a :: b :: d :: rest)
  /-- There are more literals than a header can count. -/
  | large {a b d : Lit} {rest : List Lit} (large : Header.maxSize < (a :: b :: d :: rest).length)
    (result : s.addClause c = (.error (.clauseTooLarge (a :: b :: d :: rest).length), s)) :
    Takes s c (a :: b :: d :: rest)
  /-- The arena has too few words left. -/
  | full {a b d : Lit} {rest : List Lit} (small : (a :: b :: d :: rest).length ≤ Header.maxSize)
    (exceeds : s.engine.arena.space.limit <
      s.engine.arena.space.used + (1 + (a :: b :: d :: rest).length))
    (result : s.addClause c = (.error (.arenaExhausted
      (s.engine.arena.space.used + (1 + (a :: b :: d :: rest).length)) s.engine.arena.space.limit), s)) :
    Takes s c (a :: b :: d :: rest)

section Takes

variable (ok : s.engine.ok = true) (known : ∀ l ∈ c, s.Knows l)

include known

theorem addClause_of_knows :
    s.addClause c = ({ s with given := s.recorded c } : Solver).takeIn c := by
  rw [addClause, checkLits_of_known fun l inside => checkLit_of_knows (known l inside), record_eq]

include ok

theorem addClause_of_moot (moot : Moot s.engine.trail c) :
    ∃ t, s.addClause c = (.ok true, t) ∧ t.engine = s.engine := by
  rw [addClause_of_knows known, takeIn, ok, Bool.not_true, if_neg nofun,
    (normalize_eq_none_iff fun l inside => (known l inside).1).mpr moot]
  exact ⟨_, rfl, rfl⟩

/-- A clause that is not moot is left to `addNormalized`, with what is left of it. -/
theorem addClause_of_stored {f : Engine} (normalized : normalize s.engine.trail c = some lits)
    (stored : addNormalized s.engine lits = .ok f) :
    ∃ t, s.addClause c = (.ok f.ok, t) ∧ t.engine = f := by
  rw [addClause_of_knows known, takeIn, ok, Bool.not_true, if_neg nofun, normalized]
  dsimp only
  rw [stored]
  exact ⟨_, rfl, rfl⟩

/-- A clause for which there is no room leaves no trace. -/
theorem addClause_of_full {err : SolverError}
    (logged : s.engine.opts.keepOriginals = true → s.given = .of F)
    (normalized : normalize s.engine.trail c = some lits)
    (fails : addNormalized s.engine lits = .error err) : s.addClause c = (.error err, s) := by
  have result : (s.addClause c).1 = .error err := by
    rw [addClause_of_knows known, takeIn, ok, Bool.not_true, if_neg nofun, normalized]
    dsimp only
    rw [fails]
  rcases added : s.addClause c with ⟨answer, t⟩
  rw [added] at result
  cases result
  rw [eq_of_addClause_error logged added]

end Takes

/-- A clause of which something is left is not passed over in silence. -/
theorem Takes.changes (h : s.Takes c lits) (settled : s.engine.Settled F)
    (unassigned : ∀ l ∈ lits, s.engine.trail.isUnassigned l.var = true)
    (result : s.addClause c = (.ok true, t)) : t.engine ≠ s.engine := by
  intro same
  have only {u : Solver} {b : Bool} (takes : s.addClause c = (.ok b, u)) : b = true ∧ u = t :=
    (Prod.mk.inj (takes.symm.trans result)).imp_left Except.ok.inj
  cases h with
  | nothing takes => exact absurd (only takes).1 nofun
  | @fact _ _ l _ _ takes _ fact =>
    obtain ⟨-, rfl⟩ := only takes
    obtain ⟨pairs, faithful⟩ := settled.faithful
    have coherent := faithful.sound.trail
    have holds := (coherent.isTrue_iff l).mpr (coherent.mem_facts_iff_levelOf.mp (same ▸ fact)).1
    have undecided := (Trail.isUnassigned_iff _ _).mp (unassigned l List.mem_cons_self)
    rw [← Trail.valueLit_eq_undecided_iff, (Trail.valueLit_eq_yes_iff _ l).mpr holds] at undecided
    cases undecided
  | pair takes stores =>
    obtain ⟨-, rfl⟩ := only takes
    have counted := congrArg (·.tally.originalBinary) (stores.rest.symm.trans same)
    exact absurd counted (Nat.succ_ne_self _)
  | long takes stores =>
    obtain ⟨-, rfl⟩ := only takes
    have counted := congrArg (·.tally.originals) (stores.rest.symm.trans same)
    exact absurd counted (Nat.succ_ne_self _)
  | large _ fails | full _ _ fails => cases fails.symm.trans result

end Solver

end Cdcl
