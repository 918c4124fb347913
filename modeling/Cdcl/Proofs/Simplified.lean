import Mathlib.Logic.Relation
import Cdcl.Proofs.Removal
import Cdcl.Search.Simplification

/-!
# Simplification keeps the formula

At level zero, a clause that a fact satisfies may go, and so may false literals of the others. As
long as nothing is left to propagate, the watched literals of an original clause that is not
satisfied are not false, so that what is left of it stays covered.

## Main results

`Recalls.simplify`: simplification keeps an engine faithful, or refutes the formula.
-/

namespace Cdcl

namespace Engine

variable {F : List (List Lit)} {L : Ledger} {m : Nat} {e f : Engine} {ids aside : List ClauseId}
  {pairs : List (Lit × Lit)} {id : ClauseId} {lits : Array Lit}

/-! ### Dropping false literals -/

/-- What may replace the literals of a stored clause: its first two are the same, and all that is
dropped is false at level zero. -/
structure Shrinks (e : Engine) (id : ClauseId) (lits : Array Lit) : Prop where
  sublist : lits.toList.Sublist (e.clause id).lits.toList
  size : 3 ≤ lits.size
  first : lits.getD 0 .missing = (e.clause id).lit 0
  second : lits.getD 1 .missing = (e.clause id).lit 1
  dropped : ∀ l ∈ (e.clause id).lits, l ∉ lits → l.neg ∈ e.trail.facts

section Shrink

variable {n : Nat}

theorem get_shrunk (used : (e.clause id).isRemoved = false) (x : ClauseId) :
    ((e.arena.modify id (·.setLits lits)).waste n).get x =
      if id = x then (e.clause x).setLits lits else e.clause x :=
  ClauseArena.get_modify e.arena id x (·.setLits lits) (slot_lt used)

/-- Only the literals of the clause change. -/
theorem flags_shrunk (lits : Array Lit) (used : (e.clause id).isRemoved = false) (x : ClauseId) :
    let c := ((e.arena.modify id (·.setLits lits)).waste n).get x
    c.isRemoved = (e.clause x).isRemoved ∧ c.isFrozen = (e.clause x).isFrozen ∧
      c.isLearnt = (e.clause x).isLearnt ∧ c.isAttached = (e.clause x).isAttached := by
  dsimp only
  rw [get_shrunk used]
  split
  · exact ⟨rfl, rfl, rfl, rfl⟩
  · exact ⟨rfl, rfl, rfl, rfl⟩

theorem Shrinks.watched (h : e.Shrinks id lits) (used : (e.clause id).isRemoved = false)
    (x : ClauseId) :
    (((e.arena.modify id (·.setLits lits)).waste n).get x).lit 0 = (e.clause x).lit 0 ∧
      (((e.arena.modify id (·.setLits lits)).waste n).get x).lit 1 = (e.clause x).lit 1 := by
  rw [get_shrunk used]
  split
  next same =>
    subst same
    exact ⟨h.first, h.second⟩
  next => exact ⟨rfl, rfl⟩

theorem Shrinks.mem (h : e.Shrinks id lits) (used : (e.clause id).isRemoved = false) {x : ClauseId}
    {l : Lit} (member : l ∈ (((e.arena.modify id (·.setLits lits)).waste n).get x).lits) :
    l ∈ (e.clause x).lits := by
  rw [get_shrunk used] at member
  split at member
  next same =>
    subst same
    exact Array.mem_toList_iff.mp (h.sublist.subset (Array.mem_toList_iff.mpr member))
  next => exact member

theorem Shrinks.mem_or (h : e.Shrinks id lits) (used : (e.clause id).isRemoved = false)
    {x : ClauseId} {l : Lit} (member : l ∈ (e.clause x).lits) :
    l ∈ (((e.arena.modify id (·.setLits lits)).waste n).get x).lits ∨ l.neg ∈ e.trail.facts := by
  rw [get_shrunk used]
  split
  next same =>
    subst same
    by_cases stays : l ∈ lits
    · exact .inl stays
    · exact .inr (h.dropped l member stays)
  next => exact .inl member

theorem Shrinks.tail (h : e.Shrinks id lits) (wide : 3 ≤ (e.clause id).lits.size) {q : Lit}
    (member : q ∈ ((e.clause id).setLits lits).tail) : q ∈ (e.clause id).tail := by
  have large := h.size
  have sublist := h.sublist
  have head := Clause.lits_eq_cons_tail (c := (e.clause id).setLits lits)
    (by change 0 < lits.size; omega)
  have first : ((e.clause id).setLits lits).lit 0 = (e.clause id).lit 0 := h.first
  rw [first] at head
  change lits.toList = _ at head
  rw [head, Clause.lits_eq_cons_tail (c := e.clause id) (by omega), List.cons_sublist_cons] at sublist
  exact sublist.subset member

/-- A clause that lost literals explains what it explained before: the literals left are false, and at
level zero no more is asked of them. -/
theorem Shrinks.explains (shrinks : e.Shrinks id lits) (h : e.Sound aside)
    (used : (e.clause id).isRemoved = false) (zero : e.trail.level = 0) {x : ClauseId} {i : Nat} {l : Lit}
    (old : e.Explains (.clause x) i l) :
    ({ e with arena := (e.arena.modify id (·.setLits lits)).waste n } : Engine).Explains (.clause x) i l := by
  obtain ⟨attached, first, before, -⟩ := old
  have wide : 1 < (((e.arena.modify id (·.setLits lits)).waste n).get x).lits.size := by
    rw [get_shrunk used]
    split
    · exact Nat.lt_of_lt_of_le (by omega) shrinks.size
    · exact Nat.lt_of_lt_of_le (by omega) (h.proper x (isRemoved_of_isAttached attached)).size
  have falsified : ∀ q ∈ (((e.arena.modify id (·.setLits lits)).waste n).get x).tail,
      e.trail.Before i q.neg := by
    intro q member
    rw [get_shrunk used] at member
    split at member
    next same =>
      subst same
      exact before q (shrinks.tail (h.proper id used).size member)
    next => exact before q member
  have second : (((e.arena.modify id (·.setLits lits)).waste n).get x).lit 1 ∈
      (((e.arena.modify id (·.setLits lits)).waste n).get x).tail :=
    Clause.mem_tail_iff.mpr ⟨1, by omega, wide, rfl⟩
  exact ⟨(flags_shrunk lits used x).2.2.2.trans attached, (shrinks.watched used x).1.trans first, falsified,
    _, second, (falsified _ second).beside_of_level_zero zero⟩

/-- At level zero a clause may lose literals even while it is a reason. -/
theorem Sound.shrink (h : e.Sound aside) (used : (e.clause id).isRemoved = false)
    (zero : e.trail.level = 0) (shrinks : e.Shrinks id lits) :
    ({ e with arena := (e.arena.modify id (·.setLits lits)).waste n } : Engine).Sound aside := by
  have flags := flags_shrunk (n := n) lits used
  -- The two watched literals are the first ones that are kept, so that the lists need no change.
  have watched := shrinks.watched (n := n) used
  constructor
  case trail => exact h.trail
  case justified =>
    intro i l at_i
    change Explains _ (e.trail.reason l.var) i l
    have old := h.justified at_i
    generalize e.trail.reason l.var = why at old
    cases why with
    | decision => exact old
    | binary other => exact old
    | clause x => exact shrinks.explains h used zero old
  case proper =>
    intro x live
    have old := h.proper x ((flags x).1 ▸ live)
    change (((e.arena.modify id (·.setLits lits)).waste n).get x).Proper e.numVars
    rw [get_shrunk used]
    split
    next same =>
      subst same
      refine ⟨shrinks.size, (shrinks.sublist.map Lit.var).nodup old.distinct, fun l member => ?_,
        old.inPlace⟩
      exact old.bounded l
        (Array.mem_toList_iff.mp (shrinks.sublist.subset (Array.mem_toList_iff.mpr member)))
    next => exact old
  case binary_bounded => exact h.binary_bounded
  case tracked =>
    exact
      { h.tracked with
        exact := fun x attached notAside p => by
          rw [h.tracked.exact x ((flags x).2.2.2 ▸ attached) notAside p]
          unfold Clause.watchCount
          have same := watched x
          change (if _ then 1 else 0) =
            if p = ((((e.arena.modify id (·.setLits lits)).waste n).get x).lit 0).neg ∨
              p = ((((e.arena.modify id (·.setLits lits)).waste n).get x).lit 1).neg then 1 else 0
          rw [same.1, same.2]
        usable := fun x member => (flags x).2.2.2.trans (h.tracked.usable x member)
        stale := fun x detached => h.tracked.stale x ((flags x).2.2.2 ▸ detached) }
  case inside =>
    intro p w member
    have := h.inside p w member
    simpa [ClauseArena.waste, ClauseArena.modify] using this
  case blockers =>
    intro p w member attached
    rcases h.blockers p w member ((flags w.clause).2.2.2 ▸ attached) with inside | fact
    · exact shrinks.mem_or used inside
    · exact .inr fact
  case blank => exact h.blank
  case unseen => exact h.unseen

theorem Regular.shrink (h : e.Regular L m) (attached : (e.clause id).isAttached = true)
    (zero : e.trail.level = 0) (shrinks : e.Shrinks id lits) :
    ({ e with arena := (e.arena.modify id (·.setLits lits)).waste n } : Engine).Regular L m := by
  have used := isRemoved_of_isAttached attached
  have flags := flags_shrunk (n := n) lits used
  refine { sound := ?sound, apart := ?apart, listed := ?listed, guarded := ?guarded, guards := ?guards, offers := ?offers }
  case sound => exact h.sound.shrink used zero shrinks
  case apart =>
    have other {x : ClauseId} (frozen : (e.clause x).isFrozen = true) :
        ((e.arena.modify id (·.setLits lits)).waste n).get x = e.clause x := by
      rw [get_shrunk used]
      refine if_neg ?_
      rintro rfl
      rw [isFrozen_of_isAttached attached] at frozen
      cases frozen
    constructor
    · intro x live frozen
      exact h.apart.unwatched x ((flags x).1 ▸ live) ((flags x).2.1 ▸ frozen)
    · intro p w member live frozen
      have old : (e.clause w.clause).isFrozen = true := (flags w.clause).2.1 ▸ frozen
      change p.neg ∈ (((e.arena.modify id (·.setLits lits)).waste n).get w.clause).lits ∧
        w.blocker ∈ (((e.arena.modify id (·.setLits lits)).waste n).get w.clause).lits
      rw [other old]
      exact h.apart.entries p w member ((flags w.clause).1 ▸ live) old
  case listed =>
    exact
      { h.listed with
        learnt := fun x member =>
          ⟨(flags x).1.trans (h.listed.learnt x member).1,
            (flags x).2.2.1.trans (h.listed.learnt x member).2⟩ }
  case guarded =>
    exact
      { h.guarded with
        clauses := fun x member =>
          ⟨(flags x).2.2.2.trans (h.guarded.clauses x member).1, (h.guarded.clauses x member).2⟩ }
  case guards =>
    refine ⟨fun x member w watched before => ?_, h.guards.pairs⟩
    have same := shrinks.watched (n := n) used x
    change w = (((e.arena.modify id (·.setLits lits)).waste n).get x).lit 0 ∨
      w = (((e.arena.modify id (·.setLits lits)).waste n).get x).lit 1 at watched
    rw [same.1, same.2] at watched
    obtain ⟨l, inside, holds, le⟩ := h.guards.clauses x member w watched before
    refine ⟨l, ?_, holds, le⟩
    -- A true literal is not dropped.
    refine (shrinks.mem_or used inside).resolve_right fun fact => ?_
    have opposite := (h.sound.trail.mem_facts_iff_levelOf.mp fact).1
    exact h.sound.trail.not_mem_neg ((h.sound.trail.isTrue_iff l).mp holds) opposite
  case offers => exact h.offers

theorem respected_shrunk (used : (e.clause id).isRemoved = false) (shrinks : e.Shrinks id lits)
    {σ : Valuation} (h : e.Respected σ) :
    ({ e with arena := (e.arena.modify id (·.setLits lits)).waste n } : Engine).Respected σ := by
  refine { h with clauses := fun x live => ?_, binary := h.binary }
  obtain ⟨l, member, holds⟩ := h.clauses x ((flags_shrunk _ used x).1 ▸ live)
  refine ⟨l, Array.mem_toList_iff.mpr ?_, holds⟩
  refine (shrinks.mem_or used (Array.mem_toList_iff.mp member)).resolve_right fun fact => ?_
  exact (σ.satisfiesLit_neg l).mp (h.facts _ fact) holds

theorem keeps_shrunk (used : (e.clause id).isRemoved = false) (shrinks : e.Shrinks id lits) :
    e.Keeps L ({ e with arena := (e.arena.modify id (·.setLits lits)).waste n } : Engine) L :=
  .of_sub (fun _ fact => fact) (fun _ pair => pair) (fun _ inside => inside)
    fun _ _ _ inside => shrinks.mem used inside

end Shrink

section DropFalse

variable (wide : 3 ≤ (e.clause id).lits.size)

theorem toList_dropFalse (t : Trail) (lits : Array Lit) : (dropFalse t lits).toList =
    lits.toList.take 2 ++ (lits.toList.drop 2).filter fun l => !t.isFalse l := rfl

include wide

theorem two_le_size_dropFalse : 2 ≤ (dropFalse e.trail (e.clause id).lits).size := by
  rw [← Array.length_toList, toList_dropFalse, List.length_append, List.length_take,
    Array.length_toList]
  omega

theorem getD_dropFalse {i : Nat} (low : i < 2) :
    (dropFalse e.trail (e.clause id).lits).getD i .missing = (e.clause id).lit i := by
  rw [Clause.lit, Array.getD_eq_getD_getElem?, Array.getD_eq_getD_getElem?, ← Array.getElem?_toList,
    ← Array.getElem?_toList, toList_dropFalse, List.getElem?_append_left,
    List.getElem?_take_of_lt low]
  simp only [List.length_take, Array.length_toList]
  omega

omit wide in
theorem fact_of_dropped (sound : e.Sound aside) (zero : e.trail.level = 0) {l : Lit}
    (member : l ∈ (e.clause id).lits) (absent : l ∉ dropFalse e.trail (e.clause id).lits) :
    l.neg ∈ e.trail.facts := by
  rw [← Array.mem_toList_iff, ← List.take_append_drop 2 (e.clause id).lits.toList,
    List.mem_append] at member
  rw [← Array.mem_toList_iff, toList_dropFalse, List.mem_append, not_or, List.mem_filter] at absent
  have later := member.resolve_left absent.1
  have fails : e.trail.isFalse l = true := by
    by_contra notFalse
    exact absent.2 ⟨later, by simpa using notFalse⟩
  rw [Trail.Coherent.mem_facts_of_level_zero zero, ← sound.trail.isFalse_iff]
  exact fails

/-- The false literals after the second may be dropped if three or more are left. -/
theorem shrinks_dropFalse (sound : e.Sound aside) (zero : e.trail.level = 0)
    (size : 3 ≤ (dropFalse e.trail (e.clause id).lits).size) :
    e.Shrinks id (dropFalse e.trail (e.clause id).lits) := by
  refine ⟨?_, size, getD_dropFalse wide (by omega), getD_dropFalse wide (by omega),
    fun l => fact_of_dropped sound zero⟩
  rw [toList_dropFalse]
  conv_rhs => rw [← List.take_append_drop 2 (e.clause id).lits.toList]
  exact (List.Sublist.refl _).append List.filter_sublist

/-- If two literals are left, the others are false. -/
theorem eq_or_fact (sound : e.Sound aside) (zero : e.trail.level = 0)
    (two : (dropFalse e.trail (e.clause id).lits).size = 2) {l : Lit}
    (member : l ∈ (e.clause id).lits) :
    l = (e.clause id).lit 0 ∨ l = (e.clause id).lit 1 ∨ l.neg ∈ e.trail.facts := by
  by_cases stays : l ∈ dropFalse e.trail (e.clause id).lits
  · obtain ⟨i, bound, rfl⟩ := Array.mem_iff_getElem.mp stays
    have at_i := getD_dropFalse wide (show i < 2 by omega)
    rw [Array.getD_eq_getD_getElem?, Array.getElem?_eq_getElem bound, Option.getD_some] at at_i
    rw [at_i]
    rcases (by omega : i = 0 ∨ i = 1) with rfl | rfl
    · exact .inl rfl
    · exact .inr (.inl rfl)
  · exact .inr (.inr (fact_of_dropped sound zero member stays))

end DropFalse

/-! ### Simplifying a clause -/

/-- The engine once the false literals after the second are dropped from a clause. -/
def trimmed (e : Engine) (id : ClauseId) : Engine :=
  let lits := dropFalse e.trail (e.clause id).lits
  let dropped := (e.clause id).size - lits.size
  { e with
    arena := (e.arena.modify id (·.setLits lits)).waste dropped
    tally :=
      if (e.clause id).isLearnt then { e.tally with learntLits := e.tally.learntLits - dropped }
      else { e.tally with originalLits := e.tally.originalLits - dropped } }

/-- How a clause is simplified. -/
inductive Trimming (e : Engine) (id : ClauseId) : Simplified → Engine → Prop
  | satisfied (satisfied : e.isSatisfied id = true) : Trimming e id .removed (e.removeClause id)
  | frozen (open_ : e.isSatisfied id = false) (frozen : (e.clause id).isFrozen = true) :
      Trimming e id .unchanged e
  | whole (open_ : e.isSatisfied id = false) (thawed : (e.clause id).isFrozen = false)
      (none : (e.clause id).size ≤ (dropFalse e.trail (e.clause id).lits).size) :
      Trimming e id .unchanged e
  | pair (open_ : e.isSatisfied id = false) (thawed : (e.clause id).isFrozen = false)
      (two : (dropFalse e.trail (e.clause id).lits).size = 2) :
      Trimming e id .becameBinary
        ((e.removeClause id).addBinary ((e.clause id).lit 0) ((e.clause id).lit 1)
          (e.clause id).isLearnt)
  | shorter (open_ : e.isSatisfied id = false) (thawed : (e.clause id).isFrozen = false)
      (notTwo : (dropFalse e.trail (e.clause id).lits).size ≠ 2) :
      Trimming e id .shrunk (e.trimmed id)

theorem simplifyClause_cases {outcome : Simplified} (result : e.simplifyClause id = (outcome, f)) :
    e.Trimming id outcome f := by
  unfold simplifyClause at result
  dsimp only at result
  split at result
  next satisfied =>
    cases result
    exact .satisfied satisfied
  next unsatisfied =>
    have open_ : e.isSatisfied id = false := by simpa using unsatisfied
    split at result
    next frozen =>
      cases result
      exact .frozen open_ frozen
    next unfrozen =>
      have thawed : (e.clause id).isFrozen = false := by simpa using unfrozen
      split at result
      next none =>
        cases result
        exact .whole open_ thawed (by omega)
      next =>
        split at result
        next two =>
          cases result
          exact .pair open_ thawed two
        next notTwo =>
          cases result
          exact .shorter open_ thawed notTwo

/-- What simplification may do to a clause. -/
inductive SimplifiedTo (e : Engine) (id : ClauseId) : Simplified → Engine → Prop where
  | removed (satisfied : e.isSatisfied id = true) : SimplifiedTo e id .removed (e.removeClause id)
  | unchanged : SimplifiedTo e id .unchanged e
  | becameBinary (open_ : e.isSatisfied id = false)
    (two : (dropFalse e.trail (e.clause id).lits).size = 2) :
    SimplifiedTo e id .becameBinary
      ((e.removeClause id).addBinary ((e.clause id).lit 0) ((e.clause id).lit 1)
        (e.clause id).isLearnt)
  | shrunk (thawed : (e.clause id).isFrozen = false)
    (size : 3 ≤ (dropFalse e.trail (e.clause id).lits).size) (n : Nat) (tally : Tally) :
    SimplifiedTo e id .shrunk
      { e with
        arena := (e.arena.modify id (·.setLits (dropFalse e.trail (e.clause id).lits))).waste n
        tally }

theorem simplifiedTo (wide : 3 ≤ (e.clause id).lits.size) {outcome : Simplified}
    (result : e.simplifyClause id = (outcome, f)) : e.SimplifiedTo id outcome f := by
  have low := two_le_size_dropFalse (e := e) wide
  cases simplifyClause_cases result with
  | satisfied satisfied => exact .removed satisfied
  | frozen | whole => exact .unchanged
  | pair open_ _ two => exact .becameBinary open_ two
  | shorter _ thawed notTwo => exact .shrunk thawed (by omega) _ _

theorem SimplifiedTo.steady {outcome : Simplified} (h : e.SimplifiedTo id outcome f) :
    e.Steady f := by
  cases h with
  | removed => exact e.steady_removeClause id
  | unchanged => exact .refl e
  | becameBinary => exact (e.steady_removeClause id).trans (steady_addBinary ..)
  | shrunk => exact ⟨⟨⟨rfl, rfl, rfl, rfl⟩, .refl _⟩, rfl, rfl, .refl _⟩

theorem SimplifiedTo.respected (sound : e.Sound aside) (zero : e.trail.level = 0)
    (used : (e.clause id).isRemoved = false) {outcome : Simplified}
    (h : e.SimplifiedTo id outcome f) {σ : Valuation} (old : e.Respected σ) : f.Respected σ := by
  have wide := (sound.proper id used).size
  cases h with
  | removed => exact respected_removeClause used old
  | unchanged => exact old
  | becameBinary _ two =>
    refine respected_addBinary (respected_removeClause used old) ?_ _
    obtain ⟨l, member, holds⟩ := old.clauses id used
    rcases eq_or_fact wide sound zero two (Array.mem_toList_iff.mp member) with rfl | rfl | fact
    · exact .inl holds
    · exact .inr holds
    · exact absurd holds ((σ.satisfiesLit_neg l).mp (old.facts _ fact))
  | shrunk _ size n tally =>
    have shrinks := shrinks_dropFalse wide sound zero size
    have shrunk := respected_shrunk (n := n) used shrinks old
    exact { shrunk with }

/-- The first two literals of an original clause that is not satisfied are not false. -/
theorem Regular.watched_open (h : e.Regular L e.trail.head)
    (propagated : e.trail.head = e.trail.lits.size) (original : id ∈ L.originals)
    (unsatisfied : e.isSatisfied id = false) {w : Lit} (watched : e.Watched id w) :
    e.trail.isFalse w = false := by
  by_contra fails
  rw [Bool.not_eq_false, h.sound.trail.isFalse_iff, Trail.mem_iff_before, ← propagated] at fails
  obtain ⟨l, inside, holds, _⟩ := h.guards.clauses id original w watched fails
  have satisfied : e.isSatisfied id = true := by
    unfold Engine.isSatisfied Trail.satisfies
    rw [Array.any_eq_true']
    exact ⟨l, inside, holds⟩
  rw [satisfied] at unsatisfied
  cases unsatisfied

/-- At level zero, what the trail satisfies has a fact in it. -/
theorem fact_of_isSatisfied (sound : e.Sound aside) (zero : e.trail.level = 0)
    (satisfied : e.isSatisfied id = true) : ∃ l ∈ (e.clause id).lits.toList, l ∈ e.trail.facts := by
  unfold Engine.isSatisfied Trail.satisfies at satisfied
  rw [Array.any_eq_true'] at satisfied
  obtain ⟨l, inside, holds⟩ := satisfied
  refine ⟨l, Array.mem_toList_iff.mpr inside, ?_⟩
  rw [Trail.Coherent.mem_facts_of_level_zero zero]
  exact (sound.trail.isTrue_iff l).mp holds

section Lists

variable {originals learnts kept rest : List ClauseId} {outcome : Simplified}

/-- One clause after the other is simplified in an engine in order. -/
inductive Simplifying (e : Engine) : Engine → Prop where
  | refl : Simplifying e e
  | clause {x y : Engine} {id : ClauseId} {outcome : Simplified} (before : Simplifying e x)
    (sound : x.Sound []) (zero : x.trail.level = 0) (used : (x.clause id).isRemoved = false)
    (result : x.SimplifiedTo id outcome y) : Simplifying e y
  | books {x : Engine} (before : Simplifying e x) {originals learnts : Array ClauseId}
    {recentLearnts : Nat} {stats : Statistics} :
    Simplifying e { x with originals, learnts, recentLearnts, stats }

theorem Simplifying.trans {g : Engine} (h : e.Simplifying f) (k : f.Simplifying g) : e.Simplifying g := by
  induction k with
  | refl => exact h
  | clause _ sound zero used result ih => exact .clause ih sound zero used result
  | books _ ih => exact .books ih

/-- The clauses that stay after one more was simplified. -/
theorem stays_append (kept : List ClauseId) (id : ClauseId) (outcome : Simplified)
    (stays : outcome.stays = true) (rest : List ClauseId) :
    (if outcome.stays then kept ++ [id] else kept) ++ rest = kept ++ id :: rest := by
  rw [stays, if_pos rfl, List.append_assoc]
  rfl

theorem Faithful.simplifyLearnt (h : e.Faithful F { originals, learnts := kept ++ id :: rest, pairs } m)
    (zero : e.trail.level = 0) (result : e.SimplifiedTo id outcome f) :
    f.Faithful F
      { originals, learnts := (if outcome.stays then kept ++ [id] else kept) ++ rest, pairs } m := by
  obtain ⟨used, learnt⟩ := h.listed.learnt id (by simp)
  have wide := (h.sound.proper id used).size
  have respected (σ : Valuation) (holds : σ.satisfies F) : f.Respected σ :=
    result.respected h.sound zero used (h.upheld σ holds)
  have notOriginal : id ∉ originals := h.listed.disjoint id (by simp)
  have fresh : id ∉ kept ++ rest :=
    (List.nodup_cons.mp (List.nodup_middle.mp h.listed.learnts_nodup)).1
  -- At level zero nothing needs a reason, so the clause can go even if it is one.
  have removed : (e.removeClause id).Regular { originals, learnts := kept ++ rest, pairs } m :=
    (h.toRegular.weaken (.refl _) ((List.sublist_cons_self id rest).append_left kept)).removeClause
      used zero notOriginal fresh (.refl _) (by simp)
  have keeps : e.Keeps { originals, learnts := kept ++ id :: rest, pairs } (e.removeClause id)
      { originals, learnts := kept ++ rest, pairs } :=
    keeps_removeClause used (fun _ pair => pair) (fun _ inside _ => inside)
      fun inside => absurd inside notOriginal
  cases result with
  | removed => exact ⟨removed, h.toEquivalent.keeps keeps respected⟩
  | unchanged => exact stays_append kept id .unchanged rfl rest ▸ h
  | becameBinary _ two =>
    have proper := h.sound.proper id used
    have bounded {i : Nat} (low : i < 2) : ((e.clause id).lit i).var.index < e.numVars :=
      proper.bounded _ (Clause.lit_mem (by omega))
    have numVars := (e.steady_removeClause id).numVars
    refine ⟨removed.addBinary ?_ ?_ _,
      h.toEquivalent.keeps (keeps.trans (keeps_addBinary ..)) respected⟩
    · rw [numVars]
      exact bounded (by omega)
    · rw [numVars]
      exact bounded (by omega)
  | shrunk thawed size n tally =>
    rw [stays_append kept id .shrunk rfl rest]
    have shrinks := shrinks_dropFalse wide h.sound zero size
    have regular := h.toRegular.shrink (n := n) (isAttached_iff.mpr ⟨used, thawed⟩)
      zero shrinks
    exact ⟨regular.books, h.toEquivalent.keeps
      ((keeps_shrunk (n := n) used shrinks).trans (.of_same (fun _ fact => fact) rfl)) respected⟩

/-- An original clause that becomes one of two literals moves to the pairs. -/
theorem Faithful.simplifyOriginal
    (h : e.Faithful F { originals := kept ++ id :: rest, learnts, pairs } e.trail.head)
    (zero : e.trail.level = 0) (propagated : e.trail.head = e.trail.lits.size)
    (result : e.SimplifiedTo id outcome f) :
    ∃ pairs, f.Faithful F
      { originals := (if outcome.stays then kept ++ [id] else kept) ++ rest, learnts, pairs }
      e.trail.head := by
  have member : id ∈ kept ++ id :: rest := by simp
  obtain ⟨attached, _⟩ := h.guarded.clauses id member
  have used := isRemoved_of_isAttached attached
  have wide := (h.sound.proper id used).size
  have respected (σ : Valuation) (holds : σ.satisfies F) : f.Respected σ :=
    result.respected h.sound zero used (h.upheld σ holds)
  have notLearnt : id ∉ learnts := fun inside => h.listed.disjoint id inside member
  have fresh : id ∉ kept ++ rest :=
    (List.nodup_cons.mp (List.nodup_middle.mp h.listed.originals_nodup)).1
  have removed : (e.removeClause id).Regular { originals := kept ++ rest, learnts, pairs }
      e.trail.head :=
    (h.toRegular.weaken ((List.sublist_cons_self id rest).append_left kept) (.refl _)).removeClause
      used zero fresh notLearnt (.refl _) (by simp)
  have others {x : ClauseId} (inside : x ∈ kept ++ id :: rest) (ne : x ≠ id) : x ∈ kept ++ rest :=
    (List.mem_cons.mp (List.perm_middle.mem_iff.mp inside)).resolve_left ne
  cases result with
  | removed satisfied =>
    refine ⟨pairs, removed, h.toEquivalent.keeps ?_ respected⟩
    refine keeps_removeClause used (fun _ pair => pair) (fun _ => others) fun _ => ?_
    obtain ⟨l, inside, fact⟩ := fact_of_isSatisfied h.sound zero satisfied
    exact .fact l inside ((e.steady_removeClause id).trail.facts ▸ fact)
  | unchanged => exact ⟨pairs, stays_append kept id .unchanged rfl rest ▸ h⟩
  | becameBinary open_ two =>
    have proper := h.sound.proper id used
    have bounded {i : Nat} (low : i < 2) :
        ((e.clause id).lit i).var.index < (e.removeClause id).numVars := by
      rw [(e.steady_removeClause id).numVars]
      exact proper.bounded _ (Clause.lit_mem (by omega))
    have free {w : Lit} (watched : e.Watched id w) : (e.removeClause id).trail.isFalse w = false := by
      rw [(e.steady_removeClause id).trail.isFalse]
      exact h.toRegular.watched_open propagated member open_ watched
    have differ : ((e.clause id).lit 0).var ≠ ((e.clause id).lit 1).var := fun same =>
      absurd (proper.lit_inj (by omega) (by omega) same) nofun
    have inside {i : Nat} (low : i < 2) : (e.clause id).lit i ∈ (e.clause id).lits.toList :=
      Array.mem_toList_iff.mpr (Clause.lit_mem (by omega))
    refine ⟨_, removed.addPair (bounded (by omega)) (bounded (by omega)) differ (free (.inl rfl))
      (free (.inr rfl)) _, h.toEquivalent.keeps ?_ respected⟩
    -- The clause that goes is held by the pair that comes.
    refine Keeps.trans ?_ (keeps_addBinary ..)
    refine keeps_removeClause used ?_ (fun _ => others) fun _ => ?_
    · exact fun _ pair => List.mem_cons_of_mem _ (List.mem_cons_of_mem _ pair)
    · exact held_addPair (L := { originals := kept ++ rest, learnts, pairs })
        (inside (by omega)) (inside (by omega))
  | shrunk thawed size n tally =>
    rw [stays_append kept id .shrunk rfl rest]
    have shrinks := shrinks_dropFalse wide h.sound zero size
    have regular := h.toRegular.shrink (n := n) attached zero shrinks
    exact ⟨pairs, regular.books, h.toEquivalent.keeps
      ((keeps_shrunk (n := n) used shrinks).trans (.of_same (fun _ fact => fact) rfl)) respected⟩

end Lists

/-! ### Simplifying all clauses -/

section All

variable {originals learnts rest front : List ClauseId} {s : SimplifyState} {outcome : Simplified}

theorem simplifyLearnt_eq (stepped : s.engine.simplifyClause id = (outcome, f)) (firstRecent i : Nat) :
    (∃ stats, (Engine.simplifyLearnt firstRecent s (id, i)).engine = { f with stats }) ∧
      (Engine.simplifyLearnt firstRecent s (id, i)).kept.toList =
        if outcome.stays then s.kept.toList ++ [id] else s.kept.toList := by
  have counted : ∃ stats, (if outcome = .removed
      then f.modifyStats fun s => { s with removedLearnts := s.removedLearnts + 1 } else f) =
        { f with stats } := by
    split
    · exact ⟨_, rfl⟩
    · exact ⟨_, rfl⟩
  unfold Engine.simplifyLearnt
  dsimp only
  rw [stepped]
  dsimp only
  split
  · exact ⟨counted, by simp⟩
  · exact ⟨counted, rfl⟩

theorem simplifyOriginal_eq (stepped : s.engine.simplifyClause id = (outcome, f)) :
    (∃ stats, (Engine.simplifyOriginal s id).engine = { f with stats }) ∧
      (Engine.simplifyOriginal s id).kept.toList =
        if outcome.stays then s.kept.toList ++ [id] else s.kept.toList := by
  unfold Engine.simplifyOriginal
  rw [stepped]
  dsimp only
  split
  · exact ⟨⟨_, rfl⟩, by simp⟩
  · exact ⟨⟨_, rfl⟩, rfl⟩

/-- One thing done in the course of a simplification: a clause is simplified, or clauses are listed anew and
those removed are counted. -/
inductive SimplifyEffect : Engine → Engine → Prop
  | clause (e : Engine) (id : ClauseId) : SimplifyEffect e (e.simplifyClause id).2
  | relist (e : Engine) (originals learnts : Array ClauseId) (recentLearnts : Nat) (stats : Statistics)
      (same : stats.conflicts = e.stats.conflicts ∧ stats.reductions = e.stats.reductions) :
      SimplifyEffect e { e with originals, learnts, recentLearnts, stats }

def SimplifyEffects : Engine → Engine → Prop := Relation.ReflTransGen SimplifyEffect

theorem effects_simplifyLearnt (firstRecent : Nat) (s : SimplifyState) (entry : ClauseId × Nat) :
    SimplifyEffects s.engine (Engine.simplifyLearnt firstRecent s entry).engine := by
  refine .head (.clause s.engine entry.1) ?_
  unfold Engine.simplifyLearnt
  dsimp only
  generalize s.engine.simplifyClause entry.1 = simplified
  obtain ⟨outcome, f⟩ := simplified
  have counted : SimplifyEffects f (if outcome = .removed
      then f.modifyStats fun s => { s with removedLearnts := s.removedLearnts + 1 } else f) := by
    split
    · exact .single (.relist f _ _ _ _ ⟨rfl, rfl⟩)
    · exact .refl
  split <;> exact counted

theorem effects_simplifyOriginal (s : SimplifyState) (id : ClauseId) :
    SimplifyEffects s.engine (Engine.simplifyOriginal s id).engine := by
  refine .head (.clause s.engine id) ?_
  unfold Engine.simplifyOriginal
  generalize s.engine.simplifyClause id = simplified
  obtain ⟨outcome, f⟩ := simplified
  cases outcome <;> exact .single (.relist f _ _ _ _ ⟨rfl, rfl⟩)

theorem effects_simplifyFoldl {α : Type} {step : SimplifyState → α → SimplifyState}
    (each : ∀ s a, SimplifyEffects s.engine (step s a).engine) (as : List α) (s : SimplifyState) :
    SimplifyEffects s.engine (as.foldl step s).engine := by
  induction as generalizing s with
  | nil => exact .refl
  | cons a as ih => exact (each s a).trans (ih (step s a))

/-- A simplification of all clauses simplifies one after the other. -/
theorem effects_simplifyAll (e : Engine) : SimplifyEffects e e.simplifyAll := by
  unfold Engine.simplifyAll
  dsimp only
  have first := effects_simplifyFoldl
    (effects_simplifyLearnt (e.learnts.toList.length - e.recentLearnts)) e.learnts.toList.zipIdx
    { engine := e }
  generalize e.learnts.toList.zipIdx.foldl _ _ = s at first ⊢
  have relisted := first.tail
    (.relist s.engine s.engine.originals s.kept (s.engine.recentLearnts - s.recentGone) s.engine.stats
      ⟨rfl, rfl⟩)
  rw [← Array.foldl_toList]
  have second := effects_simplifyFoldl effects_simplifyOriginal s.engine.originals.toList
    { engine := { s.engine with
        learnts := s.kept, recentLearnts := s.engine.recentLearnts - s.recentGone } }
  generalize s.engine.originals.toList.foldl _ _ = t at second ⊢
  exact (relisted.trans second).tail
    (.relist t.engine t.kept t.engine.learnts t.engine.recentLearnts t.engine.stats ⟨rfl, rfl⟩)

theorem Faithful.simplifyLearnts (firstRecent : Nat) (entries : List (ClauseId × Nat))
    {s : SimplifyState} (zero : s.engine.trail.level = 0)
    (h : s.engine.Faithful F
      { originals, learnts := s.kept.toList ++ entries.map Prod.fst, pairs } m) :
    let t := entries.foldl (Engine.simplifyLearnt firstRecent) s
    t.engine.Faithful F { originals, learnts := t.kept.toList, pairs } m ∧
      s.engine.Steady t.engine ∧ s.engine.Simplifying t.engine := by
  induction entries generalizing s with
  | nil => exact ⟨by simpa using h, .refl _, .refl⟩
  | cons entry entries ih =>
    obtain ⟨id, i⟩ := entry
    rw [List.foldl_cons]
    generalize stepped : s.engine.simplifyClause id = result
    obtain ⟨outcome, f⟩ := result
    have used := (h.listed.learnt id (by simp)).1
    have done := simplifiedTo (h.sound.proper id used).size stepped
    have faithful := h.simplifyLearnt zero done
    obtain ⟨⟨stats, engine⟩, kept⟩ := simplifyLearnt_eq stepped firstRecent i
    have steady : s.engine.Steady (Engine.simplifyLearnt firstRecent s (id, i)).engine := by
      rw [engine]
      exact { done.steady with }
    have books : (Engine.simplifyLearnt firstRecent s (id, i)).engine.Faithful F
        { originals
          learnts := (Engine.simplifyLearnt firstRecent s (id, i)).kept.toList ++
            entries.map Prod.fst
          pairs } m := by
      rw [kept, engine]
      exact faithful.books
    have simplifies : s.engine.Simplifying (Engine.simplifyLearnt firstRecent s (id, i)).engine := by
      rw [engine]
      exact .books (.clause .refl h.sound zero used done)
    obtain ⟨final, after, course⟩ := ih (steady.trail.level.trans zero) books
    exact ⟨final, steady.trans after, simplifies.trans course⟩

/-- Learnt clauses that are answered for like original ones. -/
theorem Faithful.simplifyRecents (firstRecent : Nat) (entries : List (ClauseId × Nat))
    {s : SimplifyState} (zero : s.engine.trail.level = 0)
    (propagated : s.engine.trail.head = s.engine.trail.lits.size)
    (kept : s.kept.toList = learnts ++ front)
    (h : s.engine.Faithful F
      { originals := front ++ (entries.map Prod.fst ++ rest), learnts, pairs }
      s.engine.trail.head) :
    let t := entries.foldl (Engine.simplifyLearnt firstRecent) s
    (∃ front' pairs, t.kept.toList = learnts ++ front' ∧
      front'.length ≤ front.length + entries.length ∧
      t.engine.Faithful F { originals := front' ++ rest, learnts, pairs } t.engine.trail.head) ∧
        s.engine.Steady t.engine ∧ s.engine.Simplifying t.engine := by
  -- The induction is on the entries to come, `front` being those of the recent clauses that stayed.
  induction entries generalizing s front pairs with
  | nil => exact ⟨⟨front, pairs, kept, Nat.le_refl _, h⟩, .refl _, .refl⟩
  | cons entry entries ih =>
    obtain ⟨id, i⟩ := entry
    rw [List.foldl_cons]
    generalize stepped : s.engine.simplifyClause id = result
    obtain ⟨outcome, f⟩ := result
    have used := isRemoved_of_isAttached (h.guarded.clauses id (by simp)).1
    have done := simplifiedTo (h.sound.proper id used).size stepped
    obtain ⟨pairs', faithful⟩ := h.simplifyOriginal zero propagated done
    obtain ⟨⟨stats, engine⟩, kept'⟩ := simplifyLearnt_eq stepped firstRecent i
    have steady : s.engine.Steady (Engine.simplifyLearnt firstRecent s (id, i)).engine := by
      rw [engine]
      exact { done.steady with }
    have same := steady.trail
    have books : (Engine.simplifyLearnt firstRecent s (id, i)).engine.Faithful F
        { originals := (if outcome.stays then front ++ [id] else front) ++
            (entries.map Prod.fst ++ rest), learnts, pairs := pairs' }
        (Engine.simplifyLearnt firstRecent s (id, i)).engine.trail.head := by
      rw [steady.trail.head, engine]
      exact faithful.books
    have kept'' : (Engine.simplifyLearnt firstRecent s (id, i)).kept.toList =
        learnts ++ if outcome.stays then front ++ [id] else front := by
      rw [kept', kept]
      split
      · exact List.append_assoc ..
      · rfl
    have simplifies : s.engine.Simplifying (Engine.simplifyLearnt firstRecent s (id, i)).engine := by
      rw [engine]
      exact .books (.clause .refl h.sound zero used done)
    obtain ⟨⟨front', pairs'', list, le, final⟩, after, course⟩ := ih (same.level.trans zero)
      (by rw [same.head, same.lits]; exact propagated) kept'' books
    refine ⟨⟨front', pairs'', list, ?_, final⟩, steady.trans after, simplifies.trans course⟩
    have grown : (if outcome.stays then front ++ [id] else front).length ≤ front.length + 1 := by
      split
      · simp
      · exact Nat.le_succ _
    rw [List.length_cons]
    omega

theorem Faithful.simplifyOriginals (ids : List ClauseId) {s : SimplifyState}
    (zero : s.engine.trail.level = 0)
    (propagated : s.engine.trail.head = s.engine.trail.lits.size)
    (h : s.engine.Faithful F { originals := front ++ (s.kept.toList ++ (ids ++ rest)), learnts, pairs }
      s.engine.trail.head) :
    let t := ids.foldl Engine.simplifyOriginal s
    (∃ pairs, t.engine.Faithful F { originals := front ++ (t.kept.toList ++ rest), learnts, pairs }
      t.engine.trail.head) ∧ s.engine.Steady t.engine ∧ s.engine.Simplifying t.engine := by
  -- The clauses before `ids` are kept already, and those behind are still to come.
  induction ids generalizing s pairs with
  | nil => exact ⟨⟨pairs, h⟩, .refl _, .refl⟩
  | cons id ids ih =>
    rw [List.foldl_cons]
    generalize stepped : s.engine.simplifyClause id = result
    obtain ⟨outcome, f⟩ := result
    rw [← List.append_assoc, List.cons_append] at h
    have used := isRemoved_of_isAttached (h.guarded.clauses id (by simp)).1
    have done := simplifiedTo (h.sound.proper id used).size stepped
    obtain ⟨pairs', faithful⟩ := h.simplifyOriginal zero propagated done
    obtain ⟨⟨stats, engine⟩, kept⟩ := simplifyOriginal_eq stepped
    have steady : s.engine.Steady (Engine.simplifyOriginal s id).engine := by
      rw [engine]
      exact { done.steady with }
    have list : (if outcome.stays then front ++ s.kept.toList ++ [id] else front ++ s.kept.toList) =
        front ++ (Engine.simplifyOriginal s id).kept.toList := by
      rw [kept]
      split
      · exact List.append_assoc ..
      · rfl
    have books : (Engine.simplifyOriginal s id).engine.Faithful F
        { originals := front ++ ((Engine.simplifyOriginal s id).kept.toList ++ (ids ++ rest)), learnts,
          pairs := pairs' }
        (Engine.simplifyOriginal s id).engine.trail.head := by
      rw [steady.trail.head, ← List.append_assoc, ← list, engine]
      exact faithful.books
    have simplifies : s.engine.Simplifying (Engine.simplifyOriginal s id).engine := by
      rw [engine]
      exact .books (.clause .refl h.sound zero used done)
    have same := steady.trail
    obtain ⟨final, after, course⟩ := ih (same.level.trans zero)
      (by rw [same.head, same.lits]; exact propagated) books
    exact ⟨final, steady.trans after, simplifies.trans course⟩

end All

/-- The engine once its learnt clauses are simplified. -/
def learntsSimplified (e : Engine) : Engine :=
  let s := e.learnts.toList.zipIdx.foldl
    (Engine.simplifyLearnt (e.learnts.toList.length - e.recentLearnts)) { engine := e }
  { s.engine with
    learnts := s.kept
    recentLearnts := s.engine.recentLearnts - s.recentGone }

/-- The state once these original clauses are simplified, too. -/
def simplifiedUpTo (e : Engine) (ids : List ClauseId) : SimplifyState :=
  ids.foldl Engine.simplifyOriginal { engine := e.learntsSimplified }

theorem simplifyAll_eq (e : Engine) : e.simplifyAll =
    { (e.simplifiedUpTo e.learntsSimplified.originals.toList).engine with
      originals := (e.simplifiedUpTo e.learntsSimplified.originals.toList).kept } := by
  unfold Engine.simplifyAll simplifiedUpTo learntsSimplified
  dsimp only
  rw [← Array.foldl_toList]

/-- Only clauses and their lists change by a simplification. -/
structure Neatened (e f : Engine) : Prop where
  framed : e.Framed f
  same : e.trail.Same f.trail
  course : e.Simplifying f

/-- Simplifying the learnt clauses at level zero, among them those that are answered for. -/
theorem Recalls.learntsSimplified {n : Nat} (h : e.Recalls F n) (zero : e.trail.level = 0)
    (propagated : e.trail.head = e.trail.lits.size) :
    (∃ olds front pairs, e.learntsSimplified.learnts.toList = olds ++ front ∧ front.length ≤ n ∧
      e.learntsSimplified.Faithful F { originals := front ++ e.originals.toList, learnts := olds, pairs }
        e.learntsSimplified.trail.head) ∧
      e.learntsSimplified.originals = e.originals ∧ e.Neatened e.learntsSimplified := by
  obtain ⟨pairs, olds, recents, learnts, le, faithful⟩ := h
  unfold Engine.learntsSimplified
  dsimp only
  rw [learnts, List.zipIdx_append, List.foldl_append]
  generalize (olds ++ recents).length - e.recentLearnts = firstRecent
  -- First the clauses that are only learnt.
  have start : e.Faithful F
      { originals := recents ++ e.originals.toList
        learnts := (#[] : Array ClauseId).toList ++ olds.zipIdx.map Prod.fst
        pairs } e.trail.head := by
    rw [List.zipIdx_map_fst]
    exact faithful
  obtain ⟨first, steady, course⟩ := Faithful.simplifyLearnts (s := { engine := e }) firstRecent olds.zipIdx
    zero start
  generalize olds.zipIdx.foldl (Engine.simplifyLearnt firstRecent) { engine := e } = s
    at first steady course ⊢
  dsimp only at steady course
  have same := steady.trail
  -- Then those that are answered for as well.
  have middle : s.engine.Faithful F
      { originals := [] ++ ((recents.zipIdx (0 + olds.length)).map Prod.fst ++ e.originals.toList)
        learnts := s.kept.toList
        pairs } s.engine.trail.head := by
    rw [List.zipIdx_map_fst, same.head]
    exact first
  obtain ⟨⟨front, pairs', kept, le', second⟩, steady', course'⟩ :=
    Faithful.simplifyRecents firstRecent (recents.zipIdx (0 + olds.length))
      (same.level.trans zero) (by rw [same.head, same.lits]; exact propagated)
      (List.append_nil _).symm middle
  have both := steady.trans steady'
  refine ⟨⟨s.kept.toList, front, pairs', kept, ?_, second.books⟩, both.originals,
    { both.toFramed with }, both.trail, (course.trans course').books⟩
  rw [List.length_nil, List.length_zipIdx] at le'
  omega

/-- Simplifying some of the original clauses as well. -/
theorem Recalls.simplifiedUpTo {n : Nat} (h : e.Recalls F n) (zero : e.trail.level = 0)
    (propagated : e.trail.head = e.trail.lits.size) {ids rest : List ClauseId}
    (list : e.originals.toList = ids ++ rest) :
    (∃ olds front pairs, (e.simplifiedUpTo ids).engine.learnts.toList = olds ++ front ∧ front.length ≤ n ∧
      (e.simplifiedUpTo ids).engine.Faithful F
        { originals := front ++ ((e.simplifiedUpTo ids).kept.toList ++ rest), learnts := olds, pairs }
        (e.simplifiedUpTo ids).engine.trail.head) ∧
      e.Neatened (e.simplifiedUpTo ids).engine := by
  obtain ⟨⟨olds, front, pairs, learnts, le, faithful⟩, -, neat⟩ := h.learntsSimplified zero propagated
  have same := neat.same
  rw [list] at faithful
  obtain ⟨⟨pairs', faithful'⟩, steady, course⟩ := Faithful.simplifyOriginals
    (s := { engine := e.learntsSimplified }) ids (same.level.trans zero)
    (by rw [same.head, same.lits]; exact propagated) faithful
  exact ⟨⟨olds, front, pairs', (congrArg Array.toList steady.learnts).trans learnts, le, faithful'⟩,
    neat.framed.trans steady.toFramed, same.trans steady.trail, neat.course.trans course⟩

/-- Simplifying all clauses at level zero. -/
theorem Recalls.simplifyAll_spec {n : Nat} (h : e.Recalls F n) (zero : e.trail.level = 0)
    (propagated : e.trail.head = e.trail.lits.size) :
    e.simplifyAll.Recalls F n ∧ e.Framed e.simplifyAll ∧ e.trail.Same e.simplifyAll.trail ∧
      e.Simplifying e.simplifyAll := by
  obtain ⟨-, originals, -⟩ := h.learntsSimplified zero propagated
  obtain ⟨⟨olds, front, pairs, learnts, le, faithful⟩, neat⟩ :=
    h.simplifiedUpTo zero propagated (List.append_nil e.originals.toList).symm
  rw [simplifyAll_eq, originals]
  rw [List.append_nil] at faithful
  exact ⟨⟨pairs, olds, front, learnts, le, faithful.books⟩, { neat.framed with }, neat.same,
    neat.course.books⟩

theorem Recalls.simplifyAll {n : Nat} (h : e.Recalls F n) (zero : e.trail.level = 0)
    (propagated : e.trail.head = e.trail.lits.size) :
    e.simplifyAll.Recalls F n ∧ e.Framed e.simplifyAll ∧ e.trail.Same e.simplifyAll.trail := by
  obtain ⟨recalls, framed, same, -⟩ := h.simplifyAll_spec zero propagated
  exact ⟨recalls, framed, same⟩

theorem nodup_vars (e : Engine) : e.vars.Nodup :=
  List.nodup_range.map fun _ _ same => Var.mk.inj same

theorem mem_vars {e : Engine} {v : Var} : v ∈ e.vars ↔ v.index < e.numVars := by
  simp only [vars, List.mem_map, List.mem_range]
  constructor
  · rintro ⟨i, bound, rfl⟩
    exact bound
  · exact fun bound => ⟨v.index, bound, rfl⟩

theorem Offers.rebuild (h : e.Offers) :
    ({ e with branching := e.branching.rebuild (e.vars.filter e.trail.isUnassigned) } :
      Engine).Offers :=
  Branching.Offers.rebuild h ((nodup_vars e).filter _)
    (fun _ member => mem_vars.mp (List.mem_filter.mp member).1)
    fun _ bound free => List.mem_filter.mpr ⟨mem_vars.mpr bound, free⟩

/-- The heap may be filled anew with the unassigned variables. -/
theorem Faithful.rebuild (h : e.Faithful F L m) :
    ({ e with branching := e.branching.rebuild (e.vars.filter e.trail.isUnassigned) } :
      Engine).Faithful F L m where
  sound := h.sound.branching _
  apart := { h.apart with }
  listed := { h.listed with }
  guarded := { h.guarded with }
  guards := ⟨h.guards.clauses, h.guards.pairs⟩
  offers := h.offers.rebuild
  toEquivalent := h.toEquivalent.keeps (.of_same (fun _ fact => fact) rfl)
    fun σ holds => { h.upheld σ holds with }

/-- The engine once all clauses are simplified and the unassigned variables are offered anew. -/
def tidied (e : Engine) : Engine :=
  { e.simplifyAll with
    branching := e.simplifyAll.branching.rebuild (e.simplifyAll.vars.filter e.simplifyAll.trail.isUnassigned)
    simplifiedAt := some e.simplifyAll.trail.size }

/-- How a simplification ends, unless the clauses were contradictory before. -/
inductive Tidying (e : Engine) : Simplification → Engine → Prop
  | clash {g : Engine} {c : Conflict} (run : e.propagate = (g, some c)) : Tidying e .refuted g.refute
  | upToDate {g : Engine} (run : e.propagate = (g, none)) (noted : g.simplifiedAt = some g.trail.size) :
      Tidying e .upToDate g
  | done {g : Engine} (run : e.propagate = (g, none)) (due : g.simplifiedAt ≠ some g.trail.size) :
      Tidying e .done g.tidied

theorem tidying_of_simplify (ok : e.ok = true) {outcome : Simplification} (result : e.simplify = (outcome, f)) :
    e.Tidying outcome f := by
  unfold Engine.simplify at result
  rw [ok, Bool.not_true, if_neg Bool.false_ne_true] at result
  rcases run : e.propagate with ⟨g, _ | c⟩
  · rw [run] at result
    dsimp only at result
    split at result
    next noted =>
      cases result
      exact .upToDate run (eq_of_beq noted)
    next due =>
      cases result
      exact .done run (by simpa using due)
  · rw [run] at result
    cases result
    exact .clash run

/-- Simplification keeps an engine faithful, or refutes the formula. -/
theorem Recalls.simplify {n : Nat} (h : e.Recalls F n) (ok : e.ok = true)
    (zero : e.trail.level = 0) {outcome : Simplification} (result : e.simplify = (outcome, f)) :
    if outcome = .refuted then f.Refuted F
    else f.Recalls F n ∧ e.Framed f ∧ f.trail.level = 0 ∧ f.trail.head = f.trail.lits.size ∧
      e.trail.lits.size ≤ f.trail.lits.size := by
  cases tidying_of_simplify ok result with
  | @clash g c run =>
    obtain ⟨grown, -, refuted⟩ := h.propagate run
    rw [if_pos rfl]
    exact ⟨rfl, refuted c rfl (grown.level.trans zero)⟩
  | upToDate run =>
    obtain ⟨grown, finished, -⟩ := h.propagate run
    obtain ⟨kept, propagated⟩ := finished rfl
    rw [if_neg nofun]
    exact ⟨kept, grown.framed, grown.level.trans zero, propagated, grown.size_le⟩
  | @done g run =>
    obtain ⟨grown, finished, -⟩ := h.propagate run
    obtain ⟨kept, propagated⟩ := finished rfl
    have level : g.trail.level = 0 := grown.level.trans zero
    rw [if_neg nofun]
    obtain ⟨simplified, framed, same⟩ := kept.simplifyAll level propagated
    obtain ⟨pairs, olds, recents, learnts, le, faithful⟩ := simplified
    refine ⟨⟨pairs, olds, recents, learnts, le, faithful.rebuild.books⟩,
      grown.framed.trans { framed with }, same.level.trans level, ?_, ?_⟩
    · change g.simplifyAll.trail.head = g.simplifyAll.trail.lits.size
      rw [same.head, same.lits]
      exact propagated
    · change e.trail.lits.size ≤ g.simplifyAll.trail.lits.size
      rw [same.lits]
      exact grown.size_le

theorem Settled.simplify (h : e.Settled F) (zero : e.trail.level = 0) {outcome : Simplification}
    (result : e.simplify = (outcome, f)) :
    if outcome = .refuted then f.Refuted F else f.Quiet F ∧ e.Framed f := by
  have spec := h.recalls.simplify h.ok zero result
  split
  next refuted =>
    rw [if_pos refuted] at spec
    exact spec
  next other =>
    rw [if_neg other] at spec
    obtain ⟨kept, framed, level, propagated, -⟩ := spec
    exact ⟨⟨kept.settled (framed.ok.trans h.ok), level, propagated⟩, framed⟩

end Engine

end Cdcl
