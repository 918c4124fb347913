import Cdcl.Proofs.Vivified
import Cdcl.Solver.Basic

/-!
# Given clauses

A clause that is given is put in order first: repeated and false literals are dropped, and if a
literal is true or occurs with its opposite, nothing is left to store. What is stored instead says
the same, next to the facts.

## Main results

- `normalize_eq_some`, `normalize_eq_none`: what is left of a clause.
- `Engine.addNormalized_eq_error_iff`: when a clause in order is not stored.
- `Settled.addNormalized`: the engine answers for the clause that was given, or refutes it.
-/

namespace Cdcl

theorem Valuation.satisfies_append {σ : Valuation} {F : List (List Lit)} {c : List Lit} :
    σ.satisfies (F ++ [c]) ↔ σ.satisfies F ∧ σ.satisfiesClause c := by
  simp [Valuation.satisfies, or_imp, forall_and]

namespace Solver

variable {t : Trail} {c lits : List Lit}

/-- What is left of a clause that a trail neither satisfies nor finds to be a tautology. -/
structure Normalized (t : Trail) (c lits : List Lit) : Prop where
  sub : ∀ l ∈ lits, l ∈ c
  distinct : (lits.map Lit.var).Nodup
  undecided : ∀ l ∈ lits, t.value l.var = .undecided
  dropped : ∀ l ∈ c, l ∈ lits ∨ t.isFalse l = true

theorem var_index_mono {a b : Lit} (le : a.code ≤ b.code) : a.var.index ≤ b.var.index := by
  unfold Lit.code at le
  split at le <;> split at le <;> omega

/-- What may be left of the literals of a clause that come behind `last`. -/
def LeftBehind (t : Trail) (last : Lit) (c : List Lit) : Option (List Lit) → Prop
  | none => (∃ l ∈ c, t.isTrue l = true) ∨ ∃ l ∈ last :: c, l.neg ∈ c
  | some lits => lits.Sublist c ∧ ((last :: lits).map Lit.var).Nodup ∧
      (∀ l ∈ lits, t.value l.var = .undecided) ∧
      ∀ l ∈ c, l ∈ lits ∨ l = last ∨ t.isFalse l = true

/-- A literal that is false, or was kept already, leaves what the others leave. -/
theorem LeftBehind.drop {last l : Lit} {left : Option (List Lit)}
    (known : l = last ∨ t.isFalse l = true) (others : LeftBehind t last c left) :
    LeftBehind t last (l :: c) left := by
  cases left with
  | none =>
    rcases others with ⟨x, member, holds⟩ | ⟨x, member, opposite⟩
    · exact .inl ⟨x, List.mem_cons_of_mem _ member, holds⟩
    · refine .inr ⟨x, ?_, List.mem_cons_of_mem _ opposite⟩
      rcases List.mem_cons.mp member with rfl | member
      · exact List.mem_cons_self
      · exact List.mem_cons_of_mem _ (List.mem_cons_of_mem _ member)
  | some lits =>
    obtain ⟨sublist, distinct, undecided, complete⟩ := others
    refine ⟨sublist.cons l, distinct, undecided, fun x member => ?_⟩
    rcases List.mem_cons.mp member with rfl | member
    · exact .inr known
    · exact complete x member

/-- A literal that is kept is left in front of what is left behind it. -/
theorem LeftBehind.keep {last l : Lit} {left : Option (List Lit)}
    (undecided : t.value l.var = .undecided) (unseen : ∀ x ∈ l :: c, x.var ≠ last.var)
    (others : LeftBehind t l c left) : LeftBehind t last (l :: c) (left.map (l :: ·)) := by
  cases left with
  | none =>
    rcases others with ⟨x, member, holds⟩ | ⟨x, member, opposite⟩
    · exact .inl ⟨x, List.mem_cons_of_mem _ member, holds⟩
    · exact .inr ⟨x, List.mem_cons_of_mem _ member, List.mem_cons_of_mem _ opposite⟩
  | some lits =>
    obtain ⟨sublist, distinct, free, complete⟩ := others
    have kept : (l :: lits).Sublist (l :: c) := sublist.cons_cons l
    refine ⟨kept, List.nodup_cons.mpr ⟨fun inside => ?_, distinct⟩,
      List.forall_mem_cons.mpr ⟨undecided, free⟩, fun x member => ?_⟩
    · obtain ⟨x, member, same⟩ := List.mem_map.mp inside
      exact unseen x (kept.subset member) same
    · rcases List.mem_cons.mp member with rfl | member
      · exact .inl List.mem_cons_self
      · rcases complete x member with kept | rfl | fails
        · exact .inl (List.mem_cons_of_mem _ kept)
        · exact .inl List.mem_cons_self
        · exact .inr (.inr fails)

/-- In an ordered clause the literals of a variable are neighbours: behind one of another variable
than that of `last`, none is of the variable of `last`. -/
theorem var_ne_of_sorted {last l : Lit} (sorted : (l :: c).Pairwise (·.code ≤ ·.code))
    (above : last.code ≤ l.code) (apart : l.var ≠ last.var) : ∀ x ∈ l :: c, x.var ≠ last.var := by
  refine List.forall_mem_cons.mpr ⟨apart, fun x member same => apart ?_⟩
  have low := var_index_mono above
  have high := var_index_mono ((List.pairwise_cons.mp sorted).1 x member)
  rw [same] at high
  exact congrArg Var.mk (Nat.le_antisymm high low)

/-- The literals of an ordered clause behind `last`, which was kept or is of no variable in it. -/
theorem normalizeFrom_spec {last : Lit} (sorted : c.Pairwise (·.code ≤ ·.code))
    (behind : (∀ l ∈ c, l.var ≠ last.var) ∨ ∀ l ∈ c, last.code ≤ l.code) :
    LeftBehind t last c (normalizeFrom t last c) := by
  induction c generalizing last with
  | nil => simp [normalizeFrom, LeftBehind]
  | cons l rest ih =>
    obtain ⟨first, sorted'⟩ := List.pairwise_cons.mp sorted
    unfold normalizeFrom
    split
    next holds =>
      exact .inl ⟨l, List.mem_cons_self, (t.valueLit_eq_yes_iff l).mp holds⟩
    next notTrue =>
      split
      next opposite => exact .inr ⟨last, List.mem_cons_self, opposite ▸ List.mem_cons_self⟩
      next notOpposite =>
        split
        next drop =>
          have known : l = last ∨ t.isFalse l = true := by
            rcases Bool.or_eq_true_iff.mp drop with fails | same
            · exact .inr ((t.valueLit_eq_no_iff l).mp (of_decide_eq_true fails))
            · exact .inl (of_decide_eq_true same)
          refine (ih sorted' (behind.imp ?_ ?_)).drop known
          · exact fun other x member => other x (List.mem_cons_of_mem _ member)
          · exact fun above x member => above x (List.mem_cons_of_mem _ member)
        next keep =>
          obtain ⟨notFalse, differs⟩ : t.valueLit l ≠ .no ∧ l ≠ last := by
            simpa using keep
          have undecided : t.value l.var = .undecided := by
            rw [← t.valueLit_eq_undecided_iff]
            cases value : t.valueLit l
            · exact absurd value notTrue
            · exact absurd value notFalse
            · rfl
          have apart : l.var ≠ last.var := fun same =>
            (Lit.eq_or_eq_neg_of_var_eq same).elim differs notOpposite
          -- From here on the literal that is kept takes the place of `last`.
          refine (ih sorted' (.inr first)).keep undecided (behind.elim id fun above => ?_)
          exact var_ne_of_sorted sorted (above l List.mem_cons_self) apart

theorem pairwise_sortLits (c : List Lit) : (sortLits c).Pairwise (·.code ≤ ·.code) := by
  have sorted := @pairwise_sortBy Lit (fun a b => decide (a.code ≤ b.code))
    (by simp only [decide_eq_true_eq]; exact fun _ _ _ => Nat.le_trans)
    (by simpa using fun a b : Lit => Nat.le_total a.code b.code) c
  simp only [decide_eq_true_eq] at sorted
  exact sorted

section Normalize

variable (usable : ∀ l ∈ c, l.isSentinel = false)

include usable

theorem var_ne_missing {l : Lit} (member : l ∈ c) : l.var ≠ Lit.missing.var := by
  intro same
  have sentinel := usable l member
  rcases Lit.eq_or_eq_neg_of_var_eq same with rfl | rfl <;> simp [Lit.isSentinel] at sentinel
  exact sentinel.2 rfl

theorem leftBehind_normalize (t : Trail) :
    LeftBehind t .missing (sortLits c) (normalize t c) :=
  normalizeFrom_spec (pairwise_sortLits c)
    (.inl fun _ member => var_ne_missing usable ((perm_sortBy _ c).mem_iff.mp member))

/-- Nothing is left of a clause only if it holds already, or says nothing. -/
theorem normalize_eq_none (result : normalize t c = none) :
    (∃ l ∈ c, t.isTrue l = true) ∨ ∃ l ∈ c, l.neg ∈ c := by
  have perm : (sortLits c).Perm c := perm_sortBy _ c
  have left := leftBehind_normalize usable t
  rw [result] at left
  rcases left with ⟨l, member, holds⟩ | ⟨l, member, opposite⟩
  · exact .inl ⟨l, perm.mem_iff.mp member, holds⟩
  · have opposite := perm.mem_iff.mp opposite
    refine .inr ⟨l, ?_, opposite⟩
    rcases List.mem_cons.mp member with rfl | member
    · exact absurd (Lit.var_neg _) (var_ne_missing usable opposite)
    · exact perm.mem_iff.mp member

theorem normalize_eq_some (result : normalize t c = some lits) : Normalized t c lits := by
  have perm : (sortLits c).Perm c := perm_sortBy _ c
  have left := leftBehind_normalize usable t
  rw [result] at left
  obtain ⟨sublist, distinct, undecided, complete⟩ := left
  exact
    { sub := fun l member => perm.mem_iff.mp (sublist.subset member)
      distinct := (List.nodup_cons.mp distinct).2
      undecided
      dropped := fun l member => by
        rcases complete l (perm.mem_iff.mpr member) with kept | rfl | fails
        · exact .inl kept
        · exact absurd rfl (var_ne_missing usable member)
        · exact .inr fails }

end Normalize

end Solver

namespace Engine

variable {F : List (List Lit)} {L K : Ledger} {m : Nat} {e f : Engine} {c lits : List Lit}

/-- An engine answers for one more clause once that is held. -/
theorem Equivalent.accept (h : e.Equivalent F L) (keeps : e.Keeps L f K) (held : f.Held K c)
    (upheld : ∀ σ : Valuation, σ.satisfies F → σ.satisfiesClause c → f.Respected σ) :
    f.Equivalent (F ++ [c]) K where
  upheld := fun σ holds => (Valuation.satisfies_append.mp holds).elim (upheld σ)
  held := by
    intro d given
    rcases List.mem_append.mp given with old | new
    · exact (h.held d old).keeps keeps
    · rw [List.mem_singleton.mp new]
      exact held

/-- A clause that a fact satisfies or that is a tautology is answered for as things are. -/
theorem Settled.accept (h : e.Settled F) (zero : e.trail.level = 0)
    (idle : (∃ l ∈ c, e.trail.isTrue l = true) ∨ ∃ l ∈ c, l.neg ∈ c) : e.Settled (F ++ [c]) := by
  obtain ⟨pairs, faithful⟩ := h.faithful
  have held : e.Held (e.ledger pairs) c := by
    rcases idle with ⟨l, inside, holds⟩ | ⟨l, inside, opposite⟩
    · refine .fact l inside ?_
      rw [Trail.Coherent.mem_facts_of_level_zero zero]
      exact (faithful.sound.trail.isTrue_iff l).mp holds
    · exact .tautology l inside opposite
  have equivalent := faithful.toEquivalent.accept (.of_same (fun _ fact => fact) rfl) held
    fun σ holds _ => faithful.upheld σ holds
  exact ⟨⟨pairs, { faithful.toRegular, equivalent with }⟩, h.ok⟩

/-- What storing the literals that are left of a clause comes to. -/
inductive Added (e : Engine) : List Lit → Engine → Prop where
  | empty : Added e [] e.refute
  | fact {l : Lit} : Added e [l] (e.addFact l)
  | pair {a b : Lit} : Added e [a, b] (e.addBinary a b false)
  | long {lits : List Lit} {f : Engine} (size : 3 ≤ lits.length)
    (result : e.storeOriginal lits.toArray = .ok f) : Added e lits f

theorem added_of_addNormalized (result : Solver.addNormalized e lits = .ok f) : e.Added lits f := by
  unfold Solver.addNormalized at result
  split at result
  · cases result
    exact .empty
  · cases result
    exact .fact
  · cases result
    exact .pair
  next notEmpty notUnit notPair =>
    refine .long ?_ result
    match lits with
    | [] => exact absurd rfl notEmpty
    | [l] => exact absurd rfl (notUnit l)
    | [a, b] => exact absurd rfl (notPair a b)
    | _ :: _ :: _ :: _ => simp

/-- What is left of a clause is not stored if no header can count its literals, or if the arena has too few
words left for it. -/
theorem addNormalized_eq_error_iff {err : SolverError} :
    Solver.addNormalized e lits = .error err ↔
      Header.maxSize < lits.length ∧ err = .clauseTooLarge lits.length ∨
      3 ≤ lits.length ∧ lits.length ≤ Header.maxSize ∧
        e.arena.space.limit < e.arena.space.used + (1 + lits.length) ∧
        err = .arenaExhausted (e.arena.space.used + (1 + lits.length)) e.arena.space.limit := by
  have words : (Clause.fresh lits.toArray false).words = 1 + lits.length := by
    simp [Clause.words, Clause.size, Clause.fresh, Clause.isLearnt]
  have stored : e.storeOriginal lits.toArray = .error err ↔
      e.arena.alloc lits.toArray false = .error err := by
    unfold storeOriginal
    cases e.arena.alloc lits.toArray false <;> simp
  have refused := stored.trans ClauseArena.alloc_eq_error_iff
  rw [words, Space.claim_eq_error_iff, List.size_toArray] at refused
  -- Two literals or fewer need no room in the arena, and any header counts them.
  rcases lits with _ | ⟨a, _ | ⟨b, _ | ⟨d, rest⟩⟩⟩
  · simp [Solver.addNormalized]
  · simp [Solver.addNormalized, Header.maxSize]
  · simp [Solver.addNormalized, Header.maxSize]
  · have long : 3 ≤ (a :: b :: d :: rest).length := by simp
    rw [and_iff_right long]
    exact refused

section Add

variable (h : e.Settled F) (zero : e.trail.level = 0)
  (normalized : Solver.Normalized e.trail c lits) (bound : ∀ l ∈ c, l.var.index < e.numVars)

include h zero normalized

/-- Next to the facts, the clause says what is left of it. -/
theorem Settled.satisfies_normalized {σ : Valuation} (holds : σ.satisfies F) :
    σ.satisfiesClause c ↔ σ.satisfiesClause lits := by
  obtain ⟨pairs, faithful⟩ := h.faithful
  have respected := faithful.upheld σ holds
  constructor
  · rintro ⟨l, inside, true_l⟩
    rcases normalized.dropped l inside with kept | fails
    · exact ⟨l, kept, true_l⟩
    · have fact := (faithful.sound.trail.isFalse_iff l).mp fails
      rw [← Trail.Coherent.mem_facts_of_level_zero zero] at fact
      exact absurd true_l ((σ.satisfiesLit_neg l).mp (respected.facts _ fact))
  · rintro ⟨l, inside, true_l⟩
    exact ⟨l, normalized.sub l inside, true_l⟩

omit h zero in
theorem isFalse_normalized {l : Lit} (member : l ∈ lits) : e.trail.isFalse l = false := by
  have undecided := (e.trail.valueLit_eq_undecided_iff l).mpr (normalized.undecided l member)
  simp [Trail.isFalse, undecided]

/-- A clause of which nothing is left refutes the formula. -/
theorem Settled.refute (empty : lits = []) : e.refute.Refuted (F ++ [c]) where
  notOk := rfl
  unsatisfiable := by
    intro σ holds
    obtain ⟨old, new⟩ := Valuation.satisfies_append.mp holds
    rw [h.satisfies_normalized zero normalized old, empty] at new
    exact absurd new (by simp [Valuation.satisfiesClause])

include bound

omit h in
theorem Regular.assignUnit {L : Ledger} (regular : e.Regular L e.trail.head) {l : Lit}
    (unit : lits = [l]) : (e.assign l .decision).Regular L e.trail.head := by
  have member : l ∈ lits := unit ▸ List.mem_cons_self
  exact regular.assign (normalized.undecided l member) (bound l (normalized.sub l member))
    (Trail.opens_of_level_zero zero _) regular.sound.trail.head_le

/-- A single literal becomes a fact. -/
theorem Settled.addUnit {l : Lit} (unit : lits = [l]) :
    (e.addFact l).Refuted (F ++ [c]) ∨
      (e.addFact l).Settled (F ++ [c]) ∧ e.Framed (e.addFact l) ∧ (e.addFact l).trail.level = 0 := by
  obtain ⟨pairs, faithful⟩ := h.faithful
  have coherent := faithful.sound.trail
  have member : l ∈ lits := unit ▸ List.mem_cons_self
  have inside := normalized.sub l member
  have regular : (e.assign l .decision).Regular (e.ledger pairs) e.trail.head :=
    Regular.assignUnit zero normalized bound faithful.toRegular unit
  have equivalent : (e.assign l .decision).Equivalent (F ++ [c]) (e.ledger pairs) := by
    refine faithful.toEquivalent.accept
      (.of_same (fun _ fact => Trail.facts_assign_subset fact) rfl) ?_ fun σ old new => ?_
    · exact .fact l inside ((mem_facts_assign coherent).mpr (.inr ⟨zero, rfl⟩))
    · have respected := faithful.upheld σ old
      refine { respected with facts := fun q fact => ?_ }
      rcases (mem_facts_assign coherent).mp fact with old | ⟨_, rfl⟩
      · exact respected.facts q old
      · rw [h.satisfies_normalized zero normalized old, unit] at new
        simpa [Valuation.satisfiesClause] using new
  refine (addFact_spec { regular, equivalent with } zero).imp_right fun upkept => ?_
  obtain ⟨pairs', kept⟩ := upkept.faithful
  rw [← Array.toList_inj.mpr upkept.books.1, ← Array.toList_inj.mpr upkept.books.2] at kept
  exact ⟨⟨⟨pairs', kept⟩, upkept.framed.ok.trans h.ok⟩, upkept.framed, upkept.zero⟩

/-- Two literals become a clause of the watch lists. -/
theorem Settled.addPair {a b : Lit} (pair : lits = [a, b]) :
    (e.addBinary a b false).Settled (F ++ [c]) := by
  obtain ⟨pairs, faithful⟩ := h.faithful
  have aMember : a ∈ lits := pair ▸ List.mem_cons_self
  have bMember : b ∈ lits := pair ▸ List.mem_cons_of_mem _ List.mem_cons_self
  have differ : a.var ≠ b.var := by simpa [pair] using normalized.distinct
  have aInside := normalized.sub a aMember
  have bInside := normalized.sub b bMember
  have steady := steady_addBinary e a b false
  have listed : (e.addBinary a b false).Regular ((e.ledger pairs).addPair a b) e.trail.head :=
    faithful.toRegular.addPair (bound a aInside) (bound b bInside) differ
      (isFalse_normalized normalized aMember) (isFalse_normalized normalized bMember) false
  have equivalent : (e.addBinary a b false).Equivalent (F ++ [c]) ((e.ledger pairs).addPair a b) := by
    refine faithful.toEquivalent.accept
      ((keeps_addBinary e _ a b false).trans (keeps_addPair _ _ a b)) (held_addPair aInside bInside)
      fun σ old new => respected_addBinary (faithful.upheld σ old) ?_ false
    rw [h.satisfies_normalized zero normalized old, pair] at new
    simpa [Valuation.satisfiesClause] using new
  have books : (e.addBinary a b false).ledger ((a, b) :: (b, a) :: pairs) =
      (e.ledger pairs).addPair a b := by
    rw [ledger, steady.originals, steady.learnts]
    rfl
  refine ⟨⟨(a, b) :: (b, a) :: pairs, ?_⟩, steady.ok.trans h.ok⟩
  rw [books, steady.trail.head]
  exact { listed, equivalent with }

/-- Three literals or more are stored in the arena. -/
theorem Settled.addLong (size : 3 ≤ lits.length) (result : e.storeOriginal lits.toArray = .ok f) :
    f.Settled (F ++ [c]) ∧ e.Framed f ∧ f.trail = e.trail := by
  obtain ⟨pairs, faithful⟩ := h.faithful
  have proper : (Clause.fresh lits.toArray false).Proper e.numVars :=
    proper_fresh (by simpa using size) normalized.distinct
      (fun l member => bound l (normalized.sub l (by simpa using member))) false
  obtain ⟨id, regular, framed, originals, learnts, trail, respected, keeps, held⟩ :=
    faithful.toRegular.storeOriginal proper
      (fun l member => isFalse_normalized normalized (by simpa using member)) result
  have equivalent : f.Equivalent (F ++ [c]) ((e.ledger pairs).addOriginal id) :=
    faithful.toEquivalent.accept keeps (held.mono fun l inside => normalized.sub l inside)
      fun σ old new => respected σ (faithful.upheld σ old)
        ((h.satisfies_normalized zero normalized old).mp new)
  have books : f.ledger pairs = (e.ledger pairs).addOriginal id := by
    rw [ledger, originals, learnts, Array.toList_push]
    rfl
  refine ⟨⟨⟨pairs, ?_⟩, framed.ok.trans h.ok⟩, framed, trail⟩
  rw [books, trail]
  exact { regular, equivalent with }

/-- The engine answers for the clause that was given, or the clause refutes the formula. -/
theorem Settled.addNormalized (result : Solver.addNormalized e lits = .ok f) :
    f.Refuted (F ++ [c]) ∨ f.Settled (F ++ [c]) ∧ e.Framed f ∧ f.trail.level = 0 := by
  cases added_of_addNormalized result with
  | empty => exact .inl (h.refute zero normalized rfl)
  | fact => exact h.addUnit zero normalized bound rfl
  | @pair a b =>
    have steady := steady_addBinary e a b false
    exact .inr ⟨h.addPair zero normalized bound rfl, steady.toFramed, steady.trail.level.trans zero⟩
  | long size stored =>
    obtain ⟨settled, framed, trail⟩ := h.addLong zero normalized bound size stored
    exact .inr ⟨settled, framed, by rw [trail, zero]⟩

end Add

end Engine

end Cdcl
