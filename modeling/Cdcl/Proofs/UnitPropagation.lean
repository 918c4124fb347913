import Cdcl.Proofs.MatchingWatches
import Cdcl.Proofs.PropagationSteps

/-!
# Propagation is unit propagation

From an engine whose watch lists match its clauses, and whose literals before the head of the trail
are propagated, propagation ends with the literals that unit propagation derives, or with a conflict.

## Main results

- `Onward.propagateFrom`: propagation extends what holds of the literals before the head to all of
  the trail, unless it meets a conflict.
- `Matched.rests`: when propagation ends without a conflict, the trail closes under unit propagation.
- `propagate_derives`: propagation ends with the literals that unit propagation derives, or with a
  conflict if it refutes a clause.
- `Orderly.matched`: the watch lists of an engine in order match its clauses.
-/

namespace Cdcl

namespace Engine

variable {aside : List ClauseId} {o e f : Engine} {p : Lit} {n m : Nat} {id : ClauseId}
  {conflict : Option Conflict}

/-! ### Propagation of the whole trail -/

/-- The head may be moved. -/
theorem Wired.queue (h : e.Wired aside) {head : Nat} (le : head ≤ e.trail.lits.size)
    (stats : Statistics) : ({ e with trail := { e.trail with head }, stats } : Engine).Wired aside :=
  { h with
    trail := { h.trail with head_le := le }
    apart := { h.apart with } }

/-- Taking a literal from the queue changes nothing that matters to the visits. -/
theorem Onward.dequeue (h : Onward aside o e) (watched : e.FrozenWatched)
    (done : e.Propagated aside e.trail.head) (at_head : e.trail.lits[e.trail.head]? = some p) :
    Onward aside o e.dequeue ∧ e.dequeue.FrozenWatched ∧ e.dequeue.Propagated aside e.trail.head := by
  have waiting : e.trail.head < e.trail.lits.size := (Array.getElem?_eq_some_iff.mp at_head).1
  exact ⟨⟨h.wired.queue waiting _, { h.since with }, h.derived⟩, ⟨watched.exact, watched.inside⟩,
    ⟨done.binary, done.clauses, done.frozen⟩⟩

/-- A clash stays one when the rest of the queue is skipped. -/
theorem Clash.skipQueue {c : Conflict} (clash : Clash aside o p e c) :
    Clash aside o p (e.modifyTrail Trail.skipQueue) c := by
  refine ⟨clash.wired.queue (Nat.le_refl _) e.stats, { clash.grown with }, clash.derived, ?_,
    clash.takesPart⟩
  have old := clash.falsifies
  cases c <;> exact old

theorem Onward.propagateFrom (h : Onward aside o e) (watched : e.FrozenWatched)
    (done : e.Propagated aside e.trail.head) (result : propagateFrom n e = (f, conflict)) :
    f.FrozenWatched ∧ (conflict = none → Onward aside o f ∧ f.Propagated aside f.trail.head ∧
      (f.trail.head = f.trail.lits.size ∨ e.trail.head + n ≤ f.trail.head)) ∧
      ∀ c, conflict = some c → f.trail.head = f.trail.lits.size ∧
        ∃ p i, e.trail.head ≤ i ∧ f.trail.lits[i]? = some p ∧ Clash aside o p f c := by
  have run := propagates result
  clear result
  -- The induction is on the literals taken from the queue.
  induction run with
  | spent => exact ⟨watched, fun _ => ⟨h, done, .inr (Nat.le_refl _)⟩, nofun⟩
  | idle exhausted =>
    have all := Array.getElem?_eq_none_iff.mp exhausted
    exact ⟨watched, fun _ => ⟨h, done, .inl (Nat.le_antisymm h.wired.trail.head_le all)⟩, nofun⟩
  | @next n e g f p conflict at_head run _ ih =>
    obtain ⟨onward_a, watched_a, done_a⟩ := h.dequeue watched done at_head
    obtain ⟨onward_g, done_g⟩ := (onward_a.propagateLit at_head done_a run).1 rfl
    have head : g.trail.head = e.trail.head + 1 := head_propagateLit run
    have watched_g := onward_a.frozenWatched_propagateLit at_head done_a.clauses watched_a run
    obtain ⟨watched_f, ends, clash⟩ := ih onward_g watched_g (head ▸ done_g)
    refine ⟨watched_f, fun none => ?_, fun c some => ?_⟩
    · obtain ⟨onward, propagated, reached⟩ := ends none
      exact ⟨onward, propagated, reached.imp_right fun le => by omega⟩
    · obtain ⟨all, q, i, le, at_i, clash⟩ := clash c some
      exact ⟨all, q, i, by omega, at_i, clash⟩
  | @clash n e g p c at_head run =>
    obtain ⟨onward_a, watched_a, done_a⟩ := h.dequeue watched done at_head
    have clash := (onward_a.propagateLit at_head done_a run).2 c rfl
    have grown := (((Onward.refl onward_a.wired).propagateLit at_head done_a run).2 c rfl).grown
    have watched_g := onward_a.frozenWatched_propagateLit at_head done_a.clauses watched_a run
    refine ⟨⟨watched_g.exact, watched_g.inside⟩, nofun, ?_⟩
    rintro _ ⟨⟩
    have inside : e.trail.head < e.dequeue.trail.lits.size := (Array.getElem?_eq_some_iff.mp at_head).1
    exact ⟨rfl, p, e.trail.head, Nat.le_refl _, (grown.lits _ inside).trans at_head, clash.skipQueue⟩

/-! ### Propagation and unit propagation -/

/-- The values say what is on the trail, and all lists match the clauses. -/
structure Matched (aside : List ClauseId) (e : Engine) : Prop extends e.Wired aside where
  symmetric : ∀ p, ∀ q ∈ e.watches.binary.get p, p.neg ∈ e.watches.binary.get q.neg
  watched : e.FrozenWatched

/-- The conflict is a clause that is stored. -/
def Stores (aside : List ClauseId) (e : Engine) : Conflict → Prop
  | .binary a b => a ∈ e.watches.binary.get b.neg
  | .clause id => (e.clause id).isRemoved = false ∧ id ∉ aside

/-- What propagation comes to, in terms of unit propagation. -/
structure Computes (aside : List ClauseId) (e f : Engine) (conflict : Option Conflict) : Prop where
  /-- Nothing is left to propagate. -/
  head : f.trail.head = f.trail.lits.size
  /-- Literals are only appended. -/
  appends : e.trail.lits.toList <+: f.trail.lits.toList
  /-- Clauses keep their literals, but for their order. -/
  clauses : ∀ id, (f.clause id).lits.toList.Perm (e.clause id).lits.toList
  matched : f.Matched aside
  derived : ∀ l ∈ f.trail.lits, e.Derives aside l
  /-- There is no conflict exactly if unit propagation refutes no clause, frozen or not. -/
  none_iff : conflict = none ↔ (∀ c, e.InForce aside c → ¬ e.Refutes aside c) ∧
    ∀ id, (e.clause id).isRemoved = false → (e.clause id).isFrozen = true →
      ¬ e.Refutes aside (e.clause id).lits.toList
  /-- Without a conflict the trail holds all that unit propagation derives. -/
  closed : conflict = none →
    (∀ l, l ∈ f.trail.lits ↔ e.Derives aside l) ∧ f.Propagated aside f.trail.head
  /-- A conflict is a stored clause of false literals, one of which became false by a literal that
  had not been propagated. -/
  falsified : ∀ c, conflict = some c → e.Stores aside c ∧
    (∀ l ∈ Resolution.conflictLits f c, f.trail.isFalse l = true) ∧
    ∃ l ∈ Resolution.conflictLits f c, ∃ i, e.trail.head ≤ i ∧ f.trail.lits[i]? = some l.neg

/-- The literals of a conflict are false, the one visited among them. -/
theorem Clash.lits {c : Conflict} (h : Clash aside o p f c) :
    p.neg ∈ Resolution.conflictLits f c ∧
      ∀ l ∈ Resolution.conflictLits f c, f.trail.isFalse l = true := by
  cases c with
  | binary a b =>
    obtain ⟨rfl, -, a_false, b_false⟩ := h.falsifies
    exact ⟨by simp [Resolution.conflictLits], by simp [Resolution.conflictLits, a_false, b_false]⟩
  | clause id =>
    obtain ⟨-, here, fails⟩ := h.falsifies
    exact ⟨Array.mem_toList_iff.mpr here, fun l member => fails l (Array.mem_toList_iff.mp member)⟩

theorem Clash.stores {c : Conflict} (h : Clash aside o p f c) : o.Stores aside c := by
  cases c with
  | binary a b =>
    obtain ⟨-, entry, -⟩ := h.falsifies
    rw [h.grown.binary] at entry
    exact entry
  | clause id =>
    exact ⟨(h.grown.clauses id).removed.symm.trans h.falsifies.1, (h.takesPart id rfl).2⟩

/-- Unit propagation refutes the clause of a conflict. -/
theorem Clash.refutes {c : Conflict} (h : Clash aside o p f c) :
    (∃ d, o.InForce aside d ∧ o.Refutes aside d) ∨
      ∃ id, (o.clause id).isRemoved = false ∧ (o.clause id).isFrozen = true ∧
        o.Refutes aside (o.clause id).lits.toList := by
  have derives {l : Lit} (fails : f.trail.isFalse l = true) : o.Derives aside l.neg :=
    h.derived _ ((h.wired.trail.isFalse_iff l).mp fails)
  cases c with
  | binary a b =>
    obtain ⟨-, -, a_false, b_false⟩ := h.falsifies
    refine .inl ⟨_, .binary h.stores, fun l member => ?_⟩
    simp only [List.mem_cons, List.not_mem_nil, or_false, Lit.neg_neg] at member
    rcases member with rfl | rfl
    · exact derives b_false
    · exact derives a_false
  | clause id =>
    obtain ⟨used, notAside⟩ := h.stores
    have refutes : o.Refutes aside (o.clause id).lits.toList := fun l member => by
      rw [Array.mem_toList_iff, ← (h.grown.clauses id).mem] at member
      exact derives (h.falsifies.2.2 l member)
    cases frozen : (o.clause id).isFrozen with
    | true => exact .inr ⟨id, used, frozen, refutes⟩
    | false => exact .inl ⟨_, .long ⟨isAttached_iff.mpr ⟨used, frozen⟩, notAside⟩, refutes⟩

/-- Once all of the trail is propagated, a clause in force all of whose literals but one are false is
satisfied. -/
theorem Propagated.satisfied (done : e.Propagated aside e.trail.lits.size) (h : e.Matched aside)
    {c : List Lit} {l : Lit} (inForce : e.InForce aside c) (member : l ∈ c)
    (others : ∀ m ∈ c.erase l, m.neg ∈ e.trail.lits) : ∃ m ∈ c, m ∈ e.trail.lits := by
  have holds := h.trail.isTrue_iff
  have before {m : Lit} (inTrail : m ∈ e.trail.lits) : e.trail.Before e.trail.lits.size m :=
    Trail.mem_iff_before.mp inTrail
  cases inForce with
  | @binary p q stored =>
    by_cases first : p.neg = l
    · have negated := others q (by simp [first])
      have back := h.symmetric p q stored
      exact ⟨p.neg, by simp, (holds _).mp (done.binary q.neg (before negated) p.neg back)⟩
    · have visited := others p.neg (by simp [List.erase_cons, first])
      rw [Lit.neg_neg] at visited
      exact ⟨q, by simp, (holds q).mp (done.binary p (before visited) q stored)⟩
  | @long id takesPart =>
    have proper := h.proper id (isRemoved_of_isAttached takesPart.1)
    have size := proper.size
    have nodup : (e.clause id).lits.toList.Nodup := .of_map _ proper.distinct
    have satisfied {w : Lit} (watched : e.Watched id w) (inside : w ∈ (e.clause id).lits)
        (ne : w ≠ l) : ∃ m ∈ (e.clause id).lits.toList, m ∈ e.trail.lits := by
      have negated := others w (nodup.mem_erase_iff.mpr ⟨ne, Array.mem_toList_iff.mpr inside⟩)
      obtain ⟨m, inside, isTrue⟩ :=
        isSatisfied_iff.mp (done.clauses id takesPart w watched (before negated))
      exact ⟨m, Array.mem_toList_iff.mpr inside, (holds m).mp isTrue⟩
    -- Of the two watches one is not the literal in question.
    by_cases first : (e.clause id).lit 0 = l
    · refine satisfied (.inr rfl) (Clause.lit_mem (by omega)) fun second => ?_
      have same := congrArg Lit.var (first.trans second.symm)
      exact absurd (proper.lit_inj (by omega) (by omega) same) nofun
    · exact satisfied (.inl rfl) (Clause.lit_mem (by omega)) first

/-- Once all of the trail is propagated, it is closed under unit propagation. -/
theorem Propagated.closed (done : e.Propagated aside e.trail.lits.size) (h : e.Matched aside)
    {c : List Lit} {l : Lit} (inForce : e.InForce aside c) (member : l ∈ c)
    (others : ∀ m ∈ c.erase l, m.neg ∈ e.trail.lits) : l ∈ e.trail.lits := by
  obtain ⟨m, inside, holds⟩ := done.satisfied h inForce member others
  by_cases same : m = l
  · exact same ▸ holds
  · exact absurd (others m ((List.mem_erase_of_ne same).mpr inside)) (h.trail.not_mem_neg holds)

/-- Once all of the trail is propagated, no clause is refuted. -/
theorem Propagated.not_refuted (done : e.Propagated aside e.trail.lits.size) (h : e.Matched aside) :
    (∀ c, e.InForce aside c → ¬ ∀ l ∈ c, l.neg ∈ e.trail.lits) ∧
      ∀ id, (e.clause id).isRemoved = false → (e.clause id).isFrozen = true →
        ¬ ∀ l ∈ (e.clause id).lits.toList, l.neg ∈ e.trail.lits := by
  constructor
  · intro c inForce refuted
    obtain ⟨l, member⟩ : ∃ l, l ∈ c := by
      cases inForce with
      | @binary p q => exact ⟨q, by simp⟩
      | @long id takesPart =>
        have size := (h.proper id (isRemoved_of_isAttached takesPart.1)).size
        exact ⟨_, Array.mem_toList_iff.mpr (Clause.lit_mem (i := 0) (by omega))⟩
    obtain ⟨m, inside, holds⟩ := done.satisfied h inForce member
      fun m erased => refuted m (List.mem_of_mem_erase erased)
    exact h.trail.not_mem_neg holds (refuted m inside)
  · intro id used frozen refuted
    -- The clause has an entry under the opposite of one of its literals.
    obtain ⟨l, inside, counts⟩ := h.watched.exact.once id used frozen
    have some : 0 < entriesOf id (e.watches.frozen.get l.neg) := by
      rw [counts, if_pos rfl]
      exact Nat.zero_lt_one
    obtain ⟨w, listed, rfl⟩ := entriesOf_pos_iff.mp some
    have inTrail := refuted l (Array.mem_toList_iff.mpr inside)
    have thawed := done.frozen l.neg (Trail.mem_iff_before.mp inTrail) w listed used
    exact absurd (frozen.symm.trans thawed) nofun

/-- A clause in force stays so, but for the order of its literals. -/
theorem Unthawed.inForce (h : e.Unthawed f) {c : List Lit} (inForce : e.InForce aside c) :
    ∃ d, f.InForce aside d ∧ d.Perm c := by
  cases inForce with
  | binary stored => exact ⟨_, .binary (by rw [h.binary]; exact stored), .refl _⟩
  | long takesPart => exact ⟨_, .long (h.takesPart.mpr takesPart), (h.clauses _).lits⟩

theorem matched_of_extends (h : e.Matched aside) (grown : e.Extends f) (wired : f.Wired aside)
    (watched : f.FrozenWatched) : f.Matched aside :=
  ⟨wired, by rw [grown.binary]; exact h.symmetric, watched⟩

/-- If propagation comes to an end without a conflict, it has found all that is derived. -/
theorem Onward.mem_iff (h : Onward aside e f) (matched : f.Matched aside)
    (done : f.Propagated aside f.trail.lits.size) (l : Lit) :
    l ∈ f.trail.lits ↔ e.Derives aside l := by
  refine ⟨h.derived l, UnitDerived.of_closed (fun m => h.since.mem) fun c inForce m member others => ?_⟩
  obtain ⟨d, inForce, perm⟩ := h.since.inForce inForce
  exact done.closed matched inForce (perm.mem_iff.mpr member)
    fun k erased => others k ((perm.erase m).mem_iff.mp erased)

/-- Then unit propagation refutes no clause. -/
theorem Onward.not_refutes (h : Onward aside e f) (matched : f.Matched aside)
    (done : f.Propagated aside f.trail.lits.size) :
    (∀ c, e.InForce aside c → ¬ e.Refutes aside c) ∧
      ∀ id, (e.clause id).isRemoved = false → (e.clause id).isFrozen = true →
        ¬ e.Refutes aside (e.clause id).lits.toList := by
  have mem_iff := h.mem_iff matched done
  obtain ⟨inForce_open, frozen_open⟩ := done.not_refuted matched
  constructor
  · intro c inForce refutes
    obtain ⟨d, inForce, perm⟩ := h.since.inForce inForce
    exact inForce_open d inForce fun l member =>
      (mem_iff _).mpr (refutes l (perm.mem_iff.mp member))
  · intro id used frozen refutes
    refine frozen_open id ((h.since.clauses id).removed.trans used)
      ((h.since.isFrozen used).trans frozen) fun l member => ?_
    exact (mem_iff _).mpr (refutes l ((h.since.clauses id).lits.mem_iff.mp member))

/-- An engine in order matches. -/
theorem Orderly.matched (h : e.Orderly) : e.Matched [] where
  toWired := h.sound.wired h.apart
  symmetric := by
    intro p q stored
    have counts := h.shelved.booked.symmetric p q
    have some := Array.count_pos_iff.mpr stored
    rw [counts] at some
    exact Array.count_pos_iff.mp some
  watched := h.watched

theorem propagated_zero (aside : List ClauseId) (e : Engine) : e.Propagated aside 0 where
  binary := fun _ before => absurd before Trail.not_before_zero
  clauses := fun _ _ _ _ before => absurd before Trail.not_before_zero
  frozen := fun _ before => absurd before Trail.not_before_zero

/-- What is propagated stays so when a literal is decided. -/
theorem Propagated.decide (done : e.Propagated aside m) (trail : e.trail.Assigns n)
    (le : m ≤ e.trail.lits.size) {l : Lit} (unassigned : e.trail.value l.var = .undecided) :
    (e.decide l).Propagated aside m := by
  have grows {k : Lit} (holds : e.trail.isTrue k = true) : (e.decide l).trail.isTrue k = true :=
    (Trail.isTrue_assign ..).mpr
      (.inr ⟨(trail.var_ne unassigned ((trail.isTrue_iff k).mp holds)).symm, holds⟩)
  have before {k : Lit} : (e.decide l).trail.Before m k ↔ e.trail.Before m k :=
    Trail.before_assign (t := e.trail.openLevel) le
  constructor
  case binary => exact fun p visited q stored => grows (done.binary p (before.mp visited) q stored)
  case clauses =>
    intro id takesPart w watched falsified
    obtain ⟨k, inside, holds⟩ :=
      isSatisfied_iff.mp (done.clauses id takesPart w watched (before.mp falsified))
    exact isSatisfied_iff.mpr ⟨k, inside, grows holds⟩
  case frozen => exact fun p visited => done.frozen p (before.mp visited)

/-- A propagation that meets no conflict gets to the end of the trail. -/
theorem Matched.rests (h : e.Matched aside) (done : e.Propagated aside e.trail.head)
    (result : e.propagate = (f, none)) :
    Onward aside e f ∧ f.Matched aside ∧ f.trail.head = f.trail.lits.size ∧
      f.Propagated aside f.trail.head := by
  obtain ⟨watched, ends, -⟩ := (Onward.refl h.toWired).propagateFrom h.watched done result
  obtain ⟨onward, propagated, reached⟩ := ends rfl
  -- The trail has no more literals than there are variables, so the rounds suffice for all of them.
  have head : f.trail.head = f.trail.lits.size := by
    have bound := onward.wired.trail.size_le
    have head_le := onward.wired.trail.head_le
    rw [onward.since.numVars] at bound
    omega
  exact ⟨onward, matched_of_extends h onward.since.toExtends onward.wired watched, head, propagated⟩

/-- Propagation ends with what unit propagation derives, or with a conflict if that refutes a
clause. -/
theorem propagate_derives (h : e.Matched aside) (done : e.Propagated aside e.trail.head) :
    Computes aside e e.propagate.1 e.propagate.2 := by
  rcases result : e.propagate with ⟨f, conflict⟩
  -- Without a conflict nothing is refuted, as the trail is closed. A conflict is itself a clause refuted.
  cases conflict with
  | none =>
    obtain ⟨onward, matched, head, propagated⟩ := h.rests done result
    exact
      { head
        appends := onward.since.prefix_lits
        clauses := fun id => (onward.since.clauses id).lits
        matched
        derived := onward.derived
        none_iff := ⟨fun _ => onward.not_refutes matched (head ▸ propagated), fun _ => rfl⟩
        closed := fun _ => ⟨onward.mem_iff matched (head ▸ propagated), propagated⟩
        falsified := nofun }
  | some c =>
    obtain ⟨watched, -, clash⟩ := (Onward.refl h.toWired).propagateFrom h.watched done result
    obtain ⟨head, p, i, le, at_i, clash⟩ := clash c rfl
    obtain ⟨visited, fails⟩ := clash.lits
    exact
      { head
        appends := clash.grown.prefix_lits
        clauses := fun id => (clash.grown.clauses id).lits
        matched := matched_of_extends h clash.grown clash.wired watched
        derived := clash.derived
        none_iff := by
          refine ⟨nofun, fun ⟨inForce_open, frozen_open⟩ => ?_⟩
          rcases clash.refutes with ⟨d, inForce, refutes⟩ | ⟨id, used, frozen, refutes⟩
          · exact absurd refutes (inForce_open d inForce)
          · exact absurd refutes (frozen_open id used frozen)
        closed := nofun
        falsified := by
          rintro _ ⟨⟩
          exact ⟨clash.stores, fails, p.neg, visited, i, le, by rw [Lit.neg_neg]; exact at_i⟩ }

/-- Two literals are decided, and propagated one after the other; the second time two more follow. -/
theorem propagate_derives_decided : ∃ e, e.Matched [] ∧ e.Propagated [] e.trail.head ∧
    e.trail.head = 1 ∧ e.propagate.1.trail.lits.size = 4 ∧
    Computes [] e e.propagate.1 e.propagate.2 := by
  have passes : Solver.sessionPasses {} 9
      (Solver.giving 4 (Solver.clausesOf [[-1, -2, 3], [-3, 4], [1, 2, 4]]))
      (Solver.clausesOf [[-1, -2, 3], [-3, 4], [1, 2, 4]])
      (fun s => s.engine.trail.lits.size == 0 && (s.engine.numVars == 4 &&
        (s.engine.trail.value ⟨0⟩ == .undecided &&
          ((s.engine.decide (.ofDimacs 1)).propagate.2 == none &&
            ((s.engine.decide (.ofDimacs 1)).propagate.1.trail.lits.size == 1 &&
              ((s.engine.decide (.ofDimacs 1)).propagate.1.trail.value ⟨1⟩ == .undecided &&
                ((s.engine.decide (.ofDimacs 1)).propagate.1.decide
                  (.ofDimacs 2)).propagate.1.trail.lits.size == 4)))))) = true := by
    decide +kernel
  obtain ⟨s, history, tests⟩ := Solver.exists_of_sessionPasses passes
  simp only [Bool.and_eq_true, beq_iff_eq] at tests
  obtain ⟨empty, numVars, first, free, one, second, four⟩ := tests
  have start : s.engine.Orderly := (Solver.Pause.reached (.rest history)).orderly
  have head : s.engine.trail.head = 0 := Nat.le_zero.mp (empty ▸ start.sound.trail.head_le)
  have turn : Turn s.engine (s.engine.decide (.ofDimacs 1)) :=
    .decide (by omega) first (by rw [numVars]; decide)
  have orderly := turn.orderly start
  have fresh : (s.engine.decide (.ofDimacs 1)).Propagated [] s.engine.trail.head := by
    rw [head]
    exact propagated_zero _ _
  have computes := propagate_derives orderly.matched fresh
  have numVars' : (s.engine.decide (.ofDimacs 1)).propagate.1.numVars = 4 :=
    (propagate_sound orderly.sound orderly.apart rfl).2.2.1.numVars.trans numVars
  have orderly' : (s.engine.decide (.ofDimacs 1)).propagate.1.Orderly :=
    (Turn.chore (.propagate rfl)).orderly orderly
  generalize (s.engine.decide (.ofDimacs 1)).propagate = ended at *
  obtain ⟨f, conflict⟩ := ended
  have turn' : Turn f (f.decide (.ofDimacs 2)) :=
    .decide computes.head second (by rw [numVars']; decide)
  have done := ((computes.closed free).2).decide computes.matched.trail
    (Nat.le_of_eq computes.head) (l := .ofDimacs 2) second
  have matched := (turn'.orderly orderly').matched
  exact ⟨_, matched, done, computes.head.trans one, four, propagate_derives matched done⟩

end Engine

end Cdcl
