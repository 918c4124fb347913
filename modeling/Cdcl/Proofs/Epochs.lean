import Cdcl.Proofs.Compacted
import Cdcl.Proofs.Decisions
import Cdcl.Proofs.Reduced
import Cdcl.Proofs.Simplified
import Mathlib.Data.Finset.Powerset
import Mathlib.Data.Fintype.Prod

/-!
# What is learnt between reductions

Between two reductions of the learnt clauses every clause learnt is kept: in the arena, as a clause of
two literals, or as a fact. So it can be answered for like a given one, and no clause is learnt that
contains one of these. That leaves only finitely many to be learnt.

## Main results

- `Faithful.novel`: a clause learnt contains none of those answered for.
- `Working`, `Working.handleConflict`, `Working.log_length_le`: the clauses learnt since the last
  reduction.
-/

namespace Cdcl

namespace Engine

variable {F G : List (List Lit)} {L : Ledger} {m n : Nat} {e f : Engine} {id : ClauseId} {c : Learnt}
  {d : List Lit} {pairs : List (Lit × Lit)} {originals learnts more : List ClauseId}

/-! ### Clauses learnt are new -/

section Novel

variable {ids : List ClauseId} (teaches : e.Teaches c) (coherent : e.trail.Coherent n)
  (guards : e.Guards ids pairs m) (marks : ∀ k ∈ e.trail.marks, k ≤ m)

include teaches coherent

theorem Teaches.uncovered {lits : Array Lit} {l : Lit} (inside : ∀ x ∈ lits, x ∈ c.lits.toList) :
    ¬ e.trail.Covers lits l := by
  rintro ⟨x, member, holds, _⟩
  exact coherent.not_mem_neg ((coherent.isTrue_iff x).mp holds) (teaches.falsified (inside x member))

include marks in
/-- All but one of them are so since before the last level. -/
theorem Teaches.early : ∃ first, ∀ l ∈ c.lits.toList, l ≠ first → e.trail.Before m l.neg := by
  obtain ⟨p, rest, list, member, latest, below⟩ := teaches.shape
  refine ⟨p.neg, fun l inside other => ?_⟩
  rw [list] at inside
  obtain ⟨opposite, le⟩ := below l ((List.mem_cons.mp inside).resolve_left other)
  obtain ⟨i, at_i⟩ := Array.mem_iff_getElem?.mp opposite
  have level := coherent.level_eq at_i
  rw [Lit.var_neg] at level
  have start := (coherent.levelAt_le_iff teaches.lower i).mp (by omega)
  have mark := marks _ (Array.getElem_mem teaches.lower)
  rw [Trail.startAbove_of_lt teaches.lower] at start
  exact ⟨i, by omega, at_i⟩

include guards marks

/-- So it contains no clause that is watched. -/
theorem Teaches.not_guarded (member : id ∈ ids) (proper : (e.clause id).Proper e.numVars) :
    ¬ ∀ l ∈ (e.clause id).lits, l ∈ c.lits.toList := by
  intro sub
  obtain ⟨first, early⟩ := teaches.early coherent marks
  have size := proper.size
  have apart {i : Nat} (low : i < 2) (watched : e.Watched id ((e.clause id).lit i)) :
      (e.clause id).lit i = first := by
    by_contra other
    exact teaches.uncovered coherent sub (guards.clauses id member _ watched
      (early _ (sub _ (Clause.lit_mem (by omega))) other))
  have same := (apart (i := 0) (by omega) (.inl rfl)).trans (apart (i := 1) (by omega) (.inr rfl)).symm
  exact absurd (proper.lit_inj (by omega) (by omega) (congrArg Lit.var same)) nofun

theorem Teaches.not_guarded_pair {a b : Lit} (member : (a, b) ∈ pairs) (back : (b, a) ∈ pairs)
    (differ : a.var ≠ b.var) (left : a ∈ c.lits.toList) : b ∉ c.lits.toList := by
  intro right
  obtain ⟨first, early⟩ := teaches.early coherent marks
  have single {x y : Lit} (xy : (x, y) ∈ pairs) (inX : x ∈ c.lits.toList) (inY : y ∈ c.lits.toList) :
      x = first := by
    by_contra other
    refine teaches.uncovered coherent (fun z hz => ?_) (guards.pairs x y xy (early x inX other))
    rw [List.mem_toArray.mp hz |> List.mem_singleton.mp]
    exact inY
  exact differ (congrArg Lit.var ((single member left right).trans (single back right left).symm))

end Novel

/-- A clause that is learnt contains none of those the engine answers for. -/
theorem Faithful.novel (h : e.Faithful G L m) (none : L.aside = [])
    (marks : ∀ k ∈ e.trail.marks, k ≤ m) (teaches : e.Teaches c) (given : d ∈ G) :
    ¬ ∀ l ∈ d, l ∈ c.lits.toList := by
  intro sub
  have coherent := h.sound.trail
  cases h.held d given with
  | fact l inside fact =>
    exact coherent.not_mem_neg (coherent.mem_facts_iff_levelOf.mp fact).1
      (teaches.falsified (sub l inside))
  | clause id member held =>
    rw [none, List.nil_append] at member
    have attached := (h.guarded.clauses id member).1
    have proper := h.sound.proper id (isRemoved_of_isAttached attached)
    exact teaches.not_guarded coherent h.guards marks member proper fun x inside => sub x (held x inside)
  | pair a b member left right =>
    obtain ⟨back, differ⟩ := h.listed.symmetric a b member
    exact teaches.not_guarded_pair coherent h.guards marks member back differ (sub a left) (sub b right)
  | tautology l inside opposite =>
    have same := List.inj_on_of_nodup_map teaches.distinct (sub l inside) (sub _ opposite)
      (Lit.var_neg l).symm
    exact Lit.neg_ne l same.symm

/-! ### Answering for clauses learnt -/

theorem Regular.permute (h : e.Regular { originals, learnts, pairs } m) {originals' : List ClauseId}
    (perm : originals'.Perm originals) : e.Regular { originals := originals', learnts, pairs } m where
  sound := h.sound
  listed :=
    { h.listed with
      originals_nodup := perm.nodup_iff.mpr h.listed.originals_nodup
      disjoint := fun x member inside => h.listed.disjoint x member (perm.mem_iff.mp inside) }
  guarded := { h.guarded with clauses := fun x member => h.guarded.clauses x (perm.mem_iff.mp member) }
  guards := { h.guards with clauses := fun x member => h.guards.clauses x (perm.mem_iff.mp member) }
  offers := h.offers
  apart := h.apart

/-- A learnt clause that was stored may be answered for. -/
theorem Faithful.record {recents : List ClauseId}
    (h : e.Faithful G { originals := recents ++ originals, learnts := learnts ++ more, pairs } m)
    (stored : e.Stored d more) : ∃ pairs,
    e.Faithful (G ++ [d]) { originals := (recents ++ more) ++ originals, learnts, pairs } m := by
  have coherent := h.sound.trail
  have regular := h.toRegular.weaken (.refl _) (List.sublist_append_left learnts more)
  have keeps : e.Keeps { originals := recents ++ originals, learnts := learnts ++ more, pairs } e
      { originals := recents ++ originals, learnts, pairs } :=
    .of_sub (fun _ => id) (fun _ => id) (fun _ => id) fun _ _ _ => id
  -- What is learnt follows from the clauses, so that only its place has to be shown.
  have accept {K : Ledger} (kept : e.Keeps { originals := recents ++ originals, learnts, pairs } e K)
      (held : e.Held K d) : e.Equivalent (G ++ [d]) K :=
    { upheld := fun σ holds => h.upheld σ (fun c given => holds c (List.mem_append_left _ given))
      held := fun c given => by
        rcases List.mem_append.mp given with old | new
        · exact ((h.held c old).keeps keeps).keeps kept
        · exact List.mem_singleton.mp new ▸ held }
  cases stored with
  | fact fact =>
    rw [List.append_nil]
    exact ⟨pairs, { regular, accept (.of_same (fun _ => id) rfl)
      (.fact _ List.mem_cons_self fact) with }⟩
  | @pair a b atA atB differ holds le =>
    rw [List.append_nil]
    -- The pair has a true literal, and so it is watched as it should be.
    have free : ¬ e.trail.Before m a.neg := fun before => coherent.not_mem_neg holds before.mem
    refine ⟨(a, b) :: (b, a) :: pairs, { regular.coverPair differ atA atB (fun before => absurd before free)
      fun _ => ?_, accept (keeps_addPair e _ a b)
        (held_addPair List.mem_cons_self (List.mem_cons_of_mem _ List.mem_cons_self)) with }⟩
    exact ⟨a, List.mem_toArray.mpr List.mem_cons_self, (coherent.isTrue_iff a).mpr holds, le⟩
  | @clause id attached holds le =>
    have fresh := h.listed.disjoint id (List.mem_append_right _ List.mem_cons_self)
    have notLearnt : id ∉ learnts := fun inside =>
      (List.nodup_append.mp h.listed.learnts_nodup).2.2 id inside id List.mem_cons_self rfl
    have wide := (h.sound.proper id (isRemoved_of_isAttached attached)).size
    have added : e.Regular { originals := (recents ++ originals) ++ [id], learnts, pairs } m := by
      refine regular.coverOriginal attached notLearnt fresh fun w watched before => ?_
      rcases watched with rfl | rfl
      · exact absurd before.mem (coherent.not_mem_neg holds)
      · exact ⟨_, Clause.lit_mem (by omega), (coherent.isTrue_iff _).mpr holds, le⟩
    -- It is recalled with the recent ones, in front of the originals.
    have perm : ((recents ++ [id]) ++ originals).Perm ((recents ++ originals) ++ [id]) := by
      rw [List.append_assoc, List.append_assoc]
      exact (List.perm_append_comm).append_left recents
    refine ⟨pairs, { added.permute perm, accept ?_ ?_ with }⟩
    · refine .of_sub (fun _ fact => fact) (fun _ mark => mark) (fun x inside => ?_) fun _ _ _ pair => pair
      exact perm.mem_iff.mpr (List.mem_append_left _ inside)
    · exact .clause id (perm.mem_iff.mpr (List.mem_append_right _ List.mem_cons_self))
        fun l inside => Array.mem_toList_iff.mpr inside

/-! ### Engines between the steps of a search -/

theorem Recalls.openLevel (h : e.Recalls G n) (propagated : e.trail.head = e.trail.lits.size) :
    e.openLevel.Recalls G n := by
  obtain ⟨pairs, olds, recents, list, le, faithful⟩ := h
  exact ⟨pairs, olds, recents, list, le, faithful.openLevel propagated⟩

theorem Recalls.decide (h : e.Recalls G n) (propagated : e.trail.head = e.trail.lits.size) {l : Lit}
    (unassigned : e.trail.value l.var = .undecided) (bound : l.var.index < e.numVars) :
    (e.decide l).Recalls G n := by
  obtain ⟨pairs, olds, recents, list, le, faithful⟩ := h
  exact ⟨pairs, olds, recents, list, le, faithful.decide propagated unassigned bound⟩

theorem Recalls.decide_picked (h : e.Recalls G n) (propagated : e.trail.head = e.trail.lits.size)
    {l : Lit} (result : e.pickLit = (some l, f)) : (f.decide l).Recalls G n := by
  obtain ⟨pairs, olds, recents, list, le, faithful⟩ := h
  obtain ⟨branching, rfl, _⟩ := pickLit_spec faithful.offers result
  exact ⟨pairs, olds, recents, list, le, faithful.decide_picked propagated result⟩

/-- The heuristics of branching may change as long as all that may be decided is offered. -/
theorem Recalls.branching (h : e.Recalls G n) {b : Branching}
    (offers : ({ e with branching := b } : Engine).Offers) :
    ({ e with branching := b } : Engine).Recalls G n := by
  obtain ⟨pairs, olds, recents, list, le, faithful⟩ := h
  refine ⟨pairs, olds, recents, list, le, ?_⟩
  exact
    { sound := faithful.sound.branching b
      apart := { faithful.apart with }
      listed := { faithful.listed with }
      guarded := { faithful.guarded with }
      guards := ⟨faithful.guards.clauses, faithful.guards.pairs⟩
      offers
      upheld := fun σ holds => { faithful.upheld σ holds with }
      held := fun c given => (faithful.held c given).keeps (.of_same (fun _ fact => fact) rfl) }

theorem Recalls.examined (h : e.Recalls G n) (x : e.Examined f)
    (unseen : ∀ v, f.seen.get v = .unseen) : f.Recalls G n := by
  obtain ⟨pairs, olds, recents, list, le, faithful⟩ := h
  refine ⟨pairs, olds, recents, x.learnts.symm ▸ list, le, ?_⟩
  rw [x.originals, x.trail]
  exact faithful.examined x unseen

/-- A conflict is learnt from, and one more clause is answered for, which contains none of those
before; or that clause finds no room. -/
theorem Recalls.handleConflict (h : e.Recalls G n) {conflict : Conflict}
    (result : e.propagate = (f, some conflict)) (positive : f.trail.level ≠ 0) (stats : Statistics)
    {handled : Handled} {g : Engine}
    (learnt : ({ f with stats } : Engine).handleConflict conflict = .ok (handled, g)) :
    (n = 0 → g.Recalls G 0) ∧ e.Scoped g ∧ f.trail.Descends g.trail ∧
      match handled with
      | .learnt =>
        (∃ d, g.Recalls (G ++ [d]) (n + 1) ∧ (∀ c ∈ G, ¬ ∀ l ∈ c, l ∈ d) ∧
          ∀ l ∈ d, l.var.index < e.numVars) ∧
        g.policy.conflictsBeforeReduction = e.policy.conflictsBeforeReduction - 1 ∧
        g.policy.reductionGap = e.policy.reductionGap
      | .failed err => g.Recalls G n ∧ NoRoom e.numVars err := by
  obtain ⟨pairs, olds, recents, list, le, faithful⟩ := h
  obtain ⟨kept, grown, -, found⟩ := faithful.propagate result
  have books : ({ f with stats } : Engine).Faithful G
      { originals := recents ++ e.originals.toList, learnts := olds, pairs } e.trail.head :=
    kept.books
  have marks : ∀ k ∈ f.trail.marks, k ≤ e.trail.head := grown.marks ▸ faithful.sound.trail.marks_le
  obtain ⟨more, after, scope, originals', learnts', down, learns, paced⟩ :=
    books.handleConflict marks (found conflict rfl) positive learnt
  have original : g.originals = e.originals := originals'.trans grown.originals
  have list' : g.learnts.toList = olds ++ recents ++ more := by
    rw [learnts', ← list, ← grown.learnts]
  have scope' : e.Scoped g := grown.framed.toScoped.trans { scope with }
  refine ⟨fun none => ?_, scope', down, ?_⟩
  · -- If nothing has to be recalled, what is learnt may be left among the older ones.
    have empty : recents = [] := List.length_eq_zero_iff.mp (by omega)
    subst empty
    refine ⟨pairs, olds ++ more, [], by rw [list', List.append_nil, List.append_nil], Nat.zero_le _, ?_⟩
    rw [original]
    exact after
  · cases learns with
    | learnt c teaches stored =>
      refine ⟨⟨c.lits.toList, ?_, ?_, ?_⟩, ?_⟩
      · -- The clause just learnt is recalled from now on, wherever it is stored.
        obtain ⟨pairs', recorded⟩ := after.record stored
        have few := stored.length_le
        refine ⟨pairs', olds, recents ++ more, list'.trans (List.append_assoc ..), ?_, ?_⟩
        · rw [List.length_append]
          omega
        · rw [original]
          exact recorded
      · exact fun d given => books.novel rfl marks teaches given
      · obtain ⟨p, rest, lits, member, -, below⟩ := teaches.shape
        rw [lits]
        refine List.forall_mem_cons.mpr ⟨?_, fun l inside => ?_⟩
        · rw [Lit.var_neg, ← grown.numVars]
          exact kept.sound.trail.bounded p member
        · have := kept.sound.trail.bounded _ (below l inside).1
          rw [Lit.var_neg] at this
          rwa [← grown.numVars]
      · obtain ⟨due, gap⟩ := paced rfl
        exact ⟨due.trans (by rw [← grown.paced.due]), gap.trans grown.paced.gap⟩
    | failed full =>
      refine ⟨⟨pairs, olds, recents, list'.trans (List.append_nil _), le, ?_⟩, grown.numVars ▸ full⟩
      rw [original, ← List.append_nil olds]
      exact after

/-! ### The clauses learnt since the last reduction -/

/-- An engine in the course of a search that answers for the clauses of `log` too, which it learnt since
the last reduction. None of them contains one learnt before it. -/
structure Working (F log : List (List Lit)) (e : Engine) : Prop where
  settled : e.Settled F
  recalls : e.Recalls (F ++ log) log.length
  distinct : log.Pairwise fun c d => ¬ ∀ l ∈ c, l ∈ d
  bounded : ∀ c ∈ log, ∀ l ∈ c, l.var.index < e.numVars

variable {log : List (List Lit)}

/-- Nothing is learnt yet. -/
theorem Settled.working (h : e.Settled F) : e.Working F [] where
  settled := h
  recalls := by
    rw [List.append_nil]
    exact h.recalls
  distinct := .nil
  bounded := nofun

/-- A step that keeps all clauses that are answered for. -/
theorem Working.keep (h : e.Working F log) (scope : e.Scoped f)
    (keeps : ∀ G n, e.Recalls G n → f.Recalls G n) : f.Working F log where
  settled := (keeps F 0 h.settled.recalls).settled (scope.ok.trans h.settled.ok)
  recalls := keeps _ _ h.recalls
  distinct := h.distinct
  bounded := fun c member l inside => scope.numVars ▸ h.bounded c member l inside

/-- Policies and statistics do not matter. -/
theorem Working.books (h : e.Working F log) (policy : Policy) (stats : Statistics) :
    ({ e with policy, stats } : Engine).Working F log := by
  refine h.keep ⟨rfl, rfl, rfl, rfl⟩ fun G n recalls => ?_
  obtain ⟨pairs, olds, recents, list, le, faithful⟩ := recalls
  exact ⟨pairs, olds, recents, list, le, faithful.books⟩

theorem Working.modifyStats (h : e.Working F log) (count : Statistics → Statistics) :
    (e.modifyStats count).Working F log := h.books e.policy (count e.stats)

theorem Working.sound (h : e.Working F log) : e.Sound [] := h.recalls.sound

theorem Working.propagate (h : e.Working F log) (result : e.propagate = (f, none)) :
    f.Working F log ∧ e.Extends f ∧ f.trail.head = f.trail.lits.size := by
  obtain ⟨grown, finished, -⟩ := h.recalls.propagate result
  refine ⟨h.keep grown.framed.toScoped fun G n recalls => ?_, grown, (finished rfl).2⟩
  exact ((recalls.propagate result).2.1 rfl).1

theorem Working.cancelTo (h : e.Working F log) (k : Nat) : (e.cancelTo k).Working F log :=
  h.keep (framed_cancelTo e k).toScoped fun _ _ recalls => recalls.cancelTo k

theorem Working.openLevel (h : e.Working F log) (propagated : e.trail.head = e.trail.lits.size) :
    e.openLevel.Working F log :=
  h.keep (framed_openLevel e).toScoped fun _ _ recalls => recalls.openLevel propagated

theorem Working.decide (h : e.Working F log) (propagated : e.trail.head = e.trail.lits.size) {l : Lit}
    (unassigned : e.trail.value l.var = .undecided) (bound : l.var.index < e.numVars) :
    (e.decide l).Working F log :=
  h.keep (framed_decide e l).toScoped fun _ _ recalls => recalls.decide propagated unassigned bound

/-- A literal that was picked may be decided; if there is none, all that may be decided is. -/
theorem Working.pickLit (h : e.Working F log) (propagated : e.trail.head = e.trail.lits.size)
    {choice : Option Lit} (result : e.pickLit = (choice, f)) :
    e.Framed f ∧ f.trail = e.trail ∧
      match choice with
      | none => f.Working F log ∧ ∀ v : Var, v.index < e.numVars → e.branching.decision.get v = true →
        e.trail.value v ≠ .undecided
      | some l => (f.decide l).Working F log ∧ e.trail.value l.var = .undecided := by
  obtain ⟨pairs, faithful⟩ := h.settled.faithful
  obtain ⟨b, rfl, decision, spec⟩ := pickLit_spec faithful.offers result
  have framed : e.Framed { e with branching := b } := ⟨⟨rfl, rfl, decision, rfl⟩, .refl _⟩
  refine ⟨framed, rfl, ?_⟩
  cases choice with
  | none => exact ⟨h.keep framed.toScoped fun _ _ recalls => recalls.branching spec.1, spec.2⟩
  | some l =>
    refine ⟨h.keep (framed.toScoped.trans (framed_decide _ l).toScoped) fun _ _ recalls => ?_, spec.2.1⟩
    exact recalls.decide_picked propagated result

theorem Working.examined (h : e.Working F log) (x : e.Examined f)
    (unseen : ∀ v, f.seen.get v = .unseen) : f.Working F log :=
  h.keep x.framed.toScoped fun _ _ recalls => recalls.examined x unseen

/-- A conflict at level zero refutes the formula, and any other one can be learnt from. -/
theorem Working.conflict (h : e.Working F log) {conflict : Conflict}
    (result : e.propagate = (f, some conflict)) :
    e.Extends f ∧ f.Sound [] ∧ (f.trail.level = 0 → ∀ σ : Valuation, ¬ σ.satisfies F) ∧
      f.IsConflict conflict := by
  obtain ⟨pairs, faithful⟩ := h.settled.faithful
  obtain ⟨kept, grown, -, found⟩ := faithful.propagate result
  exact ⟨grown, kept.sound, kept.refuted (found conflict rfl), found conflict rfl⟩

/-- Learning from a conflict adds a clause to those learnt since the last reduction. -/
theorem Working.handleConflict (h : e.Working F log) {conflict : Conflict}
    (result : e.propagate = (f, some conflict)) (positive : f.trail.level ≠ 0) (stats : Statistics)
    {handled : Handled} {g : Engine}
    (learnt : ({ f with stats } : Engine).handleConflict conflict = .ok (handled, g)) :
    e.Scoped g ∧ f.trail.Descends g.trail ∧
      match handled with
      | .learnt => (∃ d, g.Working F (log ++ [d])) ∧
        g.policy.conflictsBeforeReduction = e.policy.conflictsBeforeReduction - 1 ∧
        g.policy.reductionGap = e.policy.reductionGap
      | .failed err => g.Working F log ∧ NoRoom e.numVars err := by
  obtain ⟨plain, scope, down, -⟩ := h.settled.recalls.handleConflict result positive stats learnt
  obtain ⟨-, -, -, outcome⟩ := h.recalls.handleConflict result positive stats learnt
  have settled : g.Settled F := (plain rfl).settled (scope.ok.trans h.settled.ok)
  have bounded : ∀ c ∈ log, ∀ l ∈ c, l.var.index < g.numVars :=
    fun c member l inside => scope.numVars ▸ h.bounded c member l inside
  refine ⟨scope, down, ?_⟩
  cases handled with
  | learnt =>
    obtain ⟨⟨d, recalls, novel, inside⟩, due, gap⟩ := outcome
    refine ⟨⟨d, settled, ?_, ?_, ?_⟩, due, gap⟩
    · rw [← List.append_assoc, List.length_append]
      exact recalls
    · refine List.pairwise_append.mpr ⟨h.distinct, List.pairwise_singleton _ _, fun c member b last => ?_⟩
      rw [List.mem_singleton.mp last]
      exact novel c (List.mem_append_right _ member)
    · intro c member l mem
      rcases List.mem_append.mp member with old | last
      · exact bounded c old l mem
      · rw [List.mem_singleton.mp last] at mem
        exact scope.numVars ▸ inside l mem
  | failed err => exact ⟨⟨settled, outcome.1, h.distinct, bounded⟩, outcome.2⟩

/-- The literals of the first `n` variables. -/
def litsBelow (n : Nat) : Finset Lit :=
  (Finset.range n ×ˢ Finset.univ).image fun x => ⟨⟨x.1⟩, x.2⟩

theorem mem_litsBelow {k : Nat} {l : Lit} (bound : l.var.index < k) : l ∈ litsBelow k :=
  Finset.mem_image.mpr ⟨(l.var.index, l.positive),
    Finset.mem_product.mpr ⟨Finset.mem_range.mpr bound, Finset.mem_univ _⟩, rfl⟩

theorem card_litsBelow_le (k : Nat) : (litsBelow k).card ≤ 2 * k := by
  refine Finset.card_image_le.trans ?_
  rw [Finset.card_product, Finset.card_range, Finset.card_univ, Fintype.card_bool]
  omega

/-- Only so many clauses can be learnt before a reduction. -/
theorem Working.log_length_le (h : e.Working F log) : log.length ≤ 2 ^ (2 * e.numVars) := by
  have distinct : (log.map List.toFinset).Nodup := by
    refine (List.pairwise_map.mpr (h.distinct.imp fun differ same => differ fun l inside => ?_))
    exact List.mem_toFinset.mp (same ▸ List.mem_toFinset.mpr inside)
  have inside : ∀ s ∈ (log.map List.toFinset).toFinset, s ∈ (litsBelow e.numVars).powerset := by
    intro s member
    obtain ⟨c, given, rfl⟩ := List.mem_map.mp (List.mem_toFinset.mp member)
    refine Finset.mem_powerset.mpr fun l inside => mem_litsBelow ?_
    exact h.bounded c given l (List.mem_toFinset.mp inside)
  calc log.length
    _ = (log.map List.toFinset).toFinset.card := by
      rw [List.toFinset_card_of_nodup distinct, List.length_map]
    _ ≤ (litsBelow e.numVars).powerset.card := Finset.card_le_card inside
    _ = 2 ^ (litsBelow e.numVars).card := Finset.card_powerset _
    _ ≤ 2 ^ (2 * e.numVars) := Nat.pow_le_pow_right (by omega) (card_litsBelow_le _)

end Engine

end Cdcl
