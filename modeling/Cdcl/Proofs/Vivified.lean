import Cdcl.Proofs.Decisions
import Cdcl.Proofs.SetAside
import Cdcl.Proofs.Simplified

/-!
# Vivification keeps the formula

Probing decides the negations of the literals of a clause. What it keeps of the clause is implied by
what is stored, the clause itself included: an assignment that falsifies all literals kept makes the
decisions true, and with them the trail.

## Main results

- `probe_spec`: what a probe comes to.
- `Quiet.vivifyAll`: vivification keeps an engine faithful, or refutes the formula.
-/

namespace Cdcl

namespace Engine

variable {F : List (List Lit)} {L : Ledger} {m : Nat} {e f : Engine} {id : ClauseId}
  {originals learnts : List ClauseId} {pairs : List (Lit × Lit)} {l : Lit} {done rest : List Lit}
  {kept : Array Lit}

/-! ### Probing -/

/-- In the course of a probe that began with the engine `b`: the literals `done` are looked at, and
those kept are false by decision, the others for other reasons. -/
structure Probing (F : List (List Lit)) (L : Ledger) (b : Engine) (done : List Lit) (kept : Array Lit)
    (e : Engine) : Prop where
  faithful : e.Faithful F L e.trail.head
  propagated : e.trail.head = e.trail.lits.size
  framed : b.Framed e
  books : e.originals = b.originals ∧ e.learnts = b.learnts
  facts : ∀ q, q ∈ e.trail.facts ↔ q ∈ b.trail.facts
  clauses : ∀ x, (b.clause x).Continues (e.clause x)
  sublist : kept.toList.Sublist done
  falsified : ∀ q ∈ done, q.neg ∈ e.trail.lits
  decided : ∀ q ∈ e.trail.lits, e.trail.reason q.var = .decision → e.trail.levelOf q.var ≠ 0 →
    q.neg ∈ kept
  free : ∀ q ∈ kept, q ∉ b.trail.facts ∧ q.neg ∉ b.trail.facts

/-- What a probe that began with the engine `b` comes to. -/
structure Probed (F : List (List Lit)) (L : Ledger) (b : Engine) (lits : List Lit) (kept : Array Lit)
    (e : Engine) : Prop where
  faithful : ∃ m, e.Faithful F L m ∧ (∀ k ∈ e.trail.marks, k ≤ m) ∧
    (e.trail.level = 0 → m = e.trail.head ∧ e.trail.head = e.trail.lits.size)
  framed : b.Framed e
  books : e.originals = b.originals ∧ e.learnts = b.learnts
  facts : ∀ q, q ∈ e.trail.facts ↔ q ∈ b.trail.facts
  clauses : ∀ x, (b.clause x).Continues (e.clause x)
  sublist : kept.toList.Sublist lits
  free : ∀ q ∈ kept, q ∉ b.trail.facts ∧ q.neg ∉ b.trail.facts
  implied : ∀ σ : Valuation, e.Respected σ → σ.satisfiesClause lits → σ.satisfiesClause kept.toList

theorem fails_of_unsatisfied {σ : Valuation} {lits : Array Lit}
    (none : ¬ σ.satisfiesClause lits.toList) : ∀ q ∈ lits, ¬ σ.satisfiesLit q :=
  fun q member holds => none ⟨q, Array.mem_toList_iff.mpr member, holds⟩

/-- If the literals kept are false, the trail holds. -/
theorem Probing.all_hold {b : Engine} (h : Probing F L b done kept e) {σ : Valuation}
    (respected : e.Respected σ) (fails : ∀ q ∈ kept, ¬ σ.satisfiesLit q) :
    ∀ q ∈ e.trail.lits, σ.satisfiesLit q := by
  refine h.faithful.sound.all_hold respected fun q member decision above => ?_
  have opposite := fails q.neg (h.decided q member decision above)
  rwa [σ.satisfiesLit_neg, not_not] at opposite

/-- A literal that is true above level zero, where no literal of the clause is true. -/
theorem Probing.not_fact {b : Engine} (h : Probing F L b done kept e) (fits : e.trail.value l.var = .undecided ∨
      l ∈ e.trail.lits ∧ l ∉ b.trail.facts) :
    l ∉ b.trail.facts ∧ l.neg ∉ b.trail.facts := by
  have coherent := h.faithful.sound.trail
  have inTrail {q : Lit} (fact : q ∈ b.trail.facts) : q ∈ e.trail.lits :=
    (coherent.mem_facts_iff_levelOf.mp ((h.facts q).mpr fact)).1
  rcases fits with undecided | ⟨member, open_⟩
  · have absent := (coherent.undecided_iff l.var).mp undecided
    exact ⟨fun fact => absent l (inTrail fact) rfl, fun fact => absent l.neg (inTrail fact) rfl⟩
  · exact ⟨open_, fun fact => coherent.not_mem_neg member (inTrail fact)⟩

/-- A literal found true ends the probe. -/
theorem Probing.stop {b : Engine} (h : Probing F L b done kept e)
    (open_ : l ∉ b.trail.facts) (holds : l ∈ e.trail.lits) :
    Probed F L b (done ++ l :: rest) (kept.push l) e where
  faithful := ⟨_, h.faithful, h.faithful.sound.trail.marks_le, fun _ => ⟨rfl, h.propagated⟩⟩
  framed := h.framed
  books := h.books
  facts := h.facts
  clauses := h.clauses
  sublist := by
    rw [Array.toList_push]
    exact h.sublist.append ((List.nil_sublist rest).cons_cons l)
  free := by
    intro q member
    rcases Array.mem_push.mp member with old | rfl
    · exact h.free q old
    · exact h.not_fact (.inr ⟨holds, open_⟩)
  implied := by
    intro σ respected _
    by_contra none
    have fails := fails_of_unsatisfied none
    refine fails l Array.mem_push_self (h.all_hold respected (fun q member => ?_) l holds)
    exact fails q (Array.mem_push.mpr (.inl member))

/-- A literal found false is left out. -/
theorem Probing.skip {b : Engine} (h : Probing F L b done kept e) (fails : e.trail.isFalse l = true) :
    Probing F L b (done ++ [l]) kept e :=
  { h with
    sublist := h.sublist.trans (List.sublist_append_left done [l])
    falsified := by
      intro q member
      rcases List.mem_append.mp member with old | same
      · exact h.falsified q old
      · rw [List.mem_singleton.mp same]
        exact (h.faithful.sound.trail.isFalse_iff l).mp fails }

/-- A probe that has looked at all literals keeps enough of them. -/
theorem Probing.finish {b : Engine} (h : Probing F L b done kept e) : Probed F L b done kept e where
  faithful := ⟨_, h.faithful, h.faithful.sound.trail.marks_le, fun _ => ⟨rfl, h.propagated⟩⟩
  framed := h.framed
  books := h.books
  facts := h.facts
  clauses := h.clauses
  sublist := h.sublist
  free := h.free
  implied := by
    rintro σ respected ⟨q, member, holds⟩
    by_contra none
    have opposite := h.all_hold respected (fails_of_unsatisfied none) q.neg (h.falsified q member)
    exact (σ.satisfiesLit_neg q).mp opposite holds

/-- Once the opposite of a literal is decided, each decision is the opposite of a literal kept. -/
theorem Probing.decisions {b : Engine} (h : Probing F L b done kept e)
    (undecided : e.trail.value l.var = .undecided) (before : (e.decide l.neg).Sound L.aside)
    (grown : (e.decide l.neg).Extends f) (after : f.Sound L.aside) :
    ∀ q ∈ f.trail.lits, f.trail.reason q.var = .decision → f.trail.levelOf q.var ≠ 0 →
      q.neg ∈ kept.push l := by
  intro q member decision above
  obtain ⟨i, at_i⟩ := Array.mem_iff_getElem?.mp member
  by_cases new : (e.decide l.neg).trail.lits.size ≤ i
  · exact absurd decision (grown.implied new at_i)
  · rw [grown.lits i (by omega)] at at_i
    have old := Array.mem_of_getElem? at_i
    rw [grown.reasons q old] at decision
    rw [grown.levelOf before.trail after.trail old] at above
    change (e.trail.openLevel.assign l.neg .decision).reason q.var = .decision at decision
    change (e.trail.openLevel.assign l.neg .decision).levelOf q.var ≠ 0 at above
    rw [Trail.reason_assign] at decision
    rw [Trail.levelOf_assign] at above
    rcases Array.mem_push.mp old with older | rfl
    · have ne : l.neg.var ≠ q.var :=
        (h.faithful.sound.trail.var_ne (l := l.neg) undecided older).symm
      rw [if_neg ne] at decision above
      exact Array.mem_push.mpr (.inl (h.decided q older decision above))
    · rw [Lit.neg_neg]
      exact Array.mem_push_self

/-- Deciding that a literal is false, and propagating. -/
theorem Probing.decide {b : Engine} (h : Probing F L b done kept e) (rest : List Lit)
    (undecided : e.trail.value l.var = .undecided) (bound : l.var.index < e.numVars)
    {conflict : Option Conflict} (result : (e.decide l.neg).propagate = (f, conflict)) :
    match conflict with
    | some _ => Probed F L b (done ++ l :: rest) (kept.push l) f
    | none => Probing F L b (done ++ [l]) (kept.push l) f := by
  have decided := h.faithful.decide (l := l.neg) h.propagated undecided bound
  obtain ⟨covered, grown, finished, found⟩ := decided.propagate result
  have before := decided.sound.trail
  have level : (e.decide l.neg).trail.level ≠ 0 := by
    rw [level_decide]
    omega
  have framed : b.Framed f := h.framed.trans ((framed_decide e l.neg).trans grown.framed)
  have books : f.originals = b.originals ∧ f.learnts = b.learnts :=
    ⟨grown.originals.trans h.books.1, grown.learnts.trans h.books.2⟩
  have facts (q : Lit) : q ∈ f.trail.facts ↔ q ∈ b.trail.facts := by
    rw [grown.facts_eq before level, facts_decide h.faithful.sound.trail h.propagated]
    exact h.facts q
  have clauses (x : ClauseId) : (b.clause x).Continues (f.clause x) :=
    (h.clauses x).trans (grown.clauses x)
  have free : ∀ q ∈ kept.push l, q ∉ b.trail.facts ∧ q.neg ∉ b.trail.facts := by
    intro q member
    rcases Array.mem_push.mp member with old | rfl
    · exact h.free q old
    · exact h.not_fact (.inl undecided)
  have decisions := h.decisions undecided decided.sound grown covered.sound
  cases conflict with
  | some c =>
    refine
      { faithful := ⟨_, covered, ?_, ?_⟩, framed, books, facts, clauses, free
        sublist := ?_
        implied := ?_ }
    · rw [grown.marks]
      exact before.marks_le
    · intro zero
      rw [grown.level] at zero
      exact absurd zero level
    · rw [Array.toList_push]
      exact h.sublist.append ((List.nil_sublist rest).cons_cons l)
    · -- If the literals kept were false, all of the trail would hold, and so would no literal of the conflict.
      intro σ respected _
      by_contra none
      refine not_all_of_conflict covered.sound (found c rfl) respected.toUpheld ?_
      refine covered.sound.all_hold respected fun q member decision above => ?_
      have opposite := fails_of_unsatisfied none _ (decisions q member decision above)
      rwa [σ.satisfiesLit_neg, not_not] at opposite
  | none =>
    obtain ⟨faithful, propagated⟩ := finished rfl
    refine
      { faithful, propagated, framed, books, facts, clauses, free, decided := decisions
        sublist := ?_
        falsified := ?_ }
    · rw [Array.toList_push]
      exact h.sublist.append (.refl [l])
    · intro q member
      rcases List.mem_append.mp member with old | same
      · exact grown.mem (Array.mem_push.mpr (.inl (h.falsified q old)))
      · rw [List.mem_singleton.mp same]
        exact grown.mem (Array.mem_push_self)

/-- A whole probe, of literals none of which is a fact. -/
theorem probe_spec {b : Engine} (lits : List Lit) (h : Probing F L b done kept e)
    (open_ : ∀ q ∈ lits, q ∉ b.trail.facts) (bound : ∀ q ∈ lits, q.var.index < e.numVars)
    {kept' : Array Lit} (result : probe lits kept e = (kept', f)) :
    Probed F L b (done ++ lits) kept' f := by
  -- The induction is on the literals still to be probed: `done` are probed, and `kept` is what stays of
  -- those.
  induction lits generalizing e done kept with
  | nil =>
    cases result
    rw [List.append_nil]
    exact h.finish
  | cons l lits ih =>
    unfold probe at result
    have openRest : ∀ q ∈ lits, q ∉ b.trail.facts := fun q member =>
      open_ q (List.mem_cons_of_mem l member)
    have boundRest : ∀ q ∈ lits, q.var.index < e.numVars := fun q member =>
      bound q (List.mem_cons_of_mem l member)
    have shift : done ++ l :: lits = (done ++ [l]) ++ lits := by simp
    split at result
    next yes =>
      cases result
      have holds := (h.faithful.sound.trail.isTrue_iff l).mp ((Trail.valueLit_eq_yes_iff _ l).mp yes)
      exact h.stop (open_ l List.mem_cons_self) holds
    next no =>
      rw [shift]
      exact ih (h.skip ((e.trail.valueLit_eq_no_iff l).mp no)) openRest boundRest result
    next undecided =>
      have free := (e.trail.valueLit_eq_undecided_iff l).mp undecided
      have inside := bound l List.mem_cons_self
      generalize run : (e.decide l.neg).propagate = final at result
      obtain ⟨g, conflict⟩ := final
      cases conflict with
      | some c =>
        cases result
        exact h.decide lits free inside run
      | none =>
        have next : Probing F L b (done ++ [l]) (kept.push l) g := h.decide lits free inside run
        have numVars : g.numVars = e.numVars := next.framed.numVars.trans h.framed.numVars.symm
        rw [shift]
        exact ih next openRest (fun q member => numVars ▸ boundRest q member) result

/-- What decisions and propagations keep, a probe keeps. -/
theorem probe_keeps {P : Engine → Prop} {b : Engine} (lits : List Lit)
    (h : Probing F L b done kept e) (bound : ∀ q ∈ lits, q.var.index < e.numVars)
    (decides : ∀ (x : Engine) (q : Lit), P x → P (x.decide q))
    (propagates : ∀ {x y : Engine} {c : Option Conflict}, x.Sound L.aside → x.FrozenApart → P x →
      x.propagate = (y, c) → P y)
    (start : P e) {kept' : Array Lit} (result : probe lits kept e = (kept', f)) :
    P f ∧ f.Sound L.aside := by
  induction lits generalizing e done kept with
  | nil =>
    cases result
    exact ⟨start, h.faithful.sound⟩
  | cons l lits ih =>
    unfold probe at result
    have boundRest : ∀ q ∈ lits, q.var.index < e.numVars := fun q member =>
      bound q (List.mem_cons_of_mem l member)
    split at result
    · cases result
      exact ⟨start, h.faithful.sound⟩
    next no => exact ih (h.skip ((e.trail.valueLit_eq_no_iff l).mp no)) boundRest start result
    next undecided =>
      have free := (e.trail.valueLit_eq_undecided_iff l).mp undecided
      have inside := bound l List.mem_cons_self
      have decided := h.faithful.decide (l := l.neg) h.propagated free inside
      generalize run : (e.decide l.neg).propagate = final at result
      obtain ⟨g, conflict⟩ := final
      have passed := propagates decided.sound decided.apart (decides e l.neg start) run
      cases conflict with
      | some c =>
        cases result
        exact ⟨passed, (propagate_sound decided.sound decided.apart run).1⟩
      | none =>
        have next : Probing F L b (done ++ [l]) (kept.push l) g := h.decide lits free inside run
        have numVars : g.numVars = e.numVars := next.framed.numVars.trans h.framed.numVars.symm
        exact ih next (fun q member => numVars ▸ boundRest q member) passed result

/-! ### Facts -/

/-- A fact is propagated, and may refute the formula. -/
theorem addFact_spec (h : (e.assign l .decision).Faithful F { originals, learnts, pairs }
      (e.assign l .decision).trail.head) (zero : e.trail.level = 0) :
    (e.addFact l).Refuted F ∨ (e.addFact l).Upkept F originals learnts e := by
  unfold addFact
  generalize run : (e.assign l .decision).propagate = final
  obtain ⟨f, conflict⟩ := final
  obtain ⟨covered, grown, finished, found⟩ := h.propagate run
  have level : f.trail.level = 0 := grown.level.trans zero
  cases conflict with
  | some c => exact .inl ⟨rfl, covered.refuted (found c rfl) level⟩
  | none =>
    obtain ⟨faithful, propagated⟩ := finished rfl
    exact .inr
      { faithful := ⟨pairs, faithful⟩
        framed := (framed_assign e l .decision).trans grown.framed
        books := ⟨grown.originals, grown.learnts⟩
        zero := level
        propagated }

/-! ### Fewer literals for a clause set aside -/

section Replace

variable {aside : List ClauseId} {lits : Array Lit} {n : Nat}

theorem Sound.replace (h : e.Sound aside) (member : id ∈ aside)
    (noReason : ∀ q ∈ e.trail.lits, e.trail.reason q.var ≠ .clause id)
    (proper : ((e.clause id).setLits lits).Proper e.numVars) :
    ({ e with arena := (e.arena.modify id (·.setLits lits)).waste n } : Engine).Sound aside := by
  have used := isRemoved_of_isAttached (h.tracked.usable id member)
  have flags := flags_shrunk (n := n) lits used
  -- The clause is set aside: no list has an entry of it, and no literal rests on it.
  have other {x : ClauseId} (ne : x ≠ id) :
      ((e.arena.modify id (·.setLits lits)).waste n).get x = e.clause x := by
    rw [get_shrunk used, if_neg (Ne.symm ne)]
  constructor
  case trail => exact h.trail
  case justified =>
    intro i q at_i
    refine (h.justified at_i).transfer (.refl _ _) (fun _ _ old => old) ?_
    intro x reason attached first
    change (((e.arena.modify id (·.setLits lits)).waste n).get x).isAttached = true ∧
      (((e.arena.modify id (·.setLits lits)).waste n).get x).lit 0 = q ∧
      ∀ r, r ∈ (((e.arena.modify id (·.setLits lits)).waste n).get x).tail ↔ r ∈ (e.clause x).tail
    rw [other fun same => noReason q (Array.mem_of_getElem? at_i) (same ▸ reason)]
    exact ⟨attached, first, fun _ => .rfl⟩
  case proper =>
    intro x live
    change (((e.arena.modify id (·.setLits lits)).waste n).get x).Proper e.numVars
    have old := h.proper x ((flags x).1 ▸ live)
    rw [get_shrunk used]
    split
    next same => exact same ▸ proper
    next => exact old
  case binary_bounded => exact h.binary_bounded
  case tracked =>
    exact
      { h.tracked with
        exact := fun x attached notAside p => by
          have ne : x ≠ id := fun same => notAside (same ▸ member)
          rw [h.tracked.exact x ((flags x).2.2.2 ▸ attached) notAside p]
          change _ = (((e.arena.modify id (·.setLits lits)).waste n).get x).watchCount p
          rw [other ne]
        usable := fun x inside => (flags x).2.2.2.trans (h.tracked.usable x inside)
        stale := fun x detached => h.tracked.stale x ((flags x).2.2.2 ▸ detached) }
  case inside =>
    intro p w inside
    have := h.inside p w inside
    simpa [ClauseArena.waste, ClauseArena.modify] using this
  case blockers =>
    intro p w inside attached
    have ne := clause_ne_of_entriesOf (h.tracked.aside id member p) inside
    change w.blocker ∈ (((e.arena.modify id (·.setLits lits)).waste n).get w.clause).lits ∨ _
    have old := h.blockers p w inside ((flags w.clause).2.2.2 ▸ attached)
    rw [other ne]
    exact old
  case blank => exact h.blank
  case unseen => exact h.unseen

theorem Regular.replace (h : e.Regular L m) (member : id ∈ L.aside)
    (noReason : ∀ q ∈ e.trail.lits, e.trail.reason q.var ≠ .clause id)
    (proper : ((e.clause id).setLits lits).Proper e.numVars) :
    ({ e with arena := (e.arena.modify id (·.setLits lits)).waste n } : Engine).Regular L m := by
  have attached := h.sound.tracked.usable id member
  have used := isRemoved_of_isAttached attached
  have flags := flags_shrunk (n := n) lits used
  -- All other clauses are as before, and the one that changes is set aside: no list watches it.
  have other {x : ClauseId} (ne : x ≠ id) :
      ((e.arena.modify id (·.setLits lits)).waste n).get x = e.clause x := by
    rw [get_shrunk used, if_neg (Ne.symm ne)]
  refine { sound := ?sound, apart := ?apart, listed := ?listed, guarded := ?guarded, guards := ?guards, offers := ?offers }
  case sound => exact h.sound.replace member noReason proper
  case apart =>
    refine ⟨fun x live frozen p => ?_, fun p w inside live frozen => ?_⟩
    · exact h.apart.unwatched x ((flags x).1 ▸ live) ((flags x).2.1 ▸ frozen) p
    · have old : (e.clause w.clause).isFrozen = true := (flags w.clause).2.1 ▸ frozen
      have ne : w.clause ≠ id := fun same => by
        rw [same, isFrozen_of_isAttached attached] at old
        cases old
      have entries := h.apart.entries p w inside ((flags w.clause).1 ▸ live) old
      change p.neg ∈ (((e.arena.modify id (·.setLits lits)).waste n).get w.clause).lits ∧
        w.blocker ∈ (((e.arena.modify id (·.setLits lits)).waste n).get w.clause).lits
      rw [other ne]
      exact entries
  case listed =>
    exact
      { h.listed with
        learnt := fun x inside =>
          ⟨(flags x).1.trans (h.listed.learnt x inside).1,
            (flags x).2.2.1.trans (h.listed.learnt x inside).2⟩ }
  case guarded =>
    exact
      { h.guarded with
        clauses := fun x inside =>
          ⟨(flags x).2.2.2.trans (h.guarded.clauses x inside).1, (h.guarded.clauses x inside).2⟩ }
  case guards =>
    refine ⟨fun x inside w watched before => ?_, h.guards.pairs⟩
    have ne : x ≠ id := fun same => (h.guarded.clauses x inside).2 (same ▸ member)
    change w = (((e.arena.modify id (·.setLits lits)).waste n).get x).lit 0 ∨
      w = (((e.arena.modify id (·.setLits lits)).waste n).get x).lit 1 at watched
    change e.trail.Covers (((e.arena.modify id (·.setLits lits)).waste n).get x).lits w
    rw [other ne] at watched ⊢
    exact h.guards.clauses x inside w watched before
  case offers => exact h.offers

/-- Literals that the formula implies may take the place of a clause set aside. -/
theorem Faithful.replace (h : e.Faithful F L m) (member : id ∈ L.aside)
    (noReason : ∀ q ∈ e.trail.lits, e.trail.reason q.var ≠ .clause id)
    (proper : ((e.clause id).setLits lits).Proper e.numVars)
    (sub : ∀ q ∈ lits, q ∈ (e.clause id).lits)
    (implied : ∀ σ : Valuation, σ.satisfies F → σ.satisfiesClause lits.toList) :
    ({ e with arena := (e.arena.modify id (·.setLits lits)).waste n } : Engine).Faithful F L m := by
  have used := isRemoved_of_isAttached (h.sound.tracked.usable id member)
  have flags := flags_shrunk (n := n) lits used
  refine ⟨h.toRegular.replace member noReason proper, h.toEquivalent.keeps ?_ fun σ holds => ?_⟩
  · refine .of_sub (fun _ fact => fact) (fun _ pair => pair) (fun _ inside => inside)
      fun x _ q inside => ?_
    change q ∈ (((e.arena.modify id (·.setLits lits)).waste n).get x).lits at inside
    rw [get_shrunk used] at inside
    split at inside
    next same => exact same ▸ sub q inside
    next => exact inside
  · have old := h.upheld σ holds
    refine { old with clauses := fun x live => ?_, binary := old.binary }
    have before := old.clauses x ((flags x).1 ▸ live)
    change σ.satisfiesClause (((e.arena.modify id (·.setLits lits)).waste n).get x).lits.toList
    rw [get_shrunk used]
    split
    · exact implied σ holds
    · exact before

end Replace

/-! ### Vivifying a clause -/

section Shorter

variable {before after : List ClauseId} {lits : Array Lit}

/-- At level zero, literals of a clause set aside that the formula implies. -/
structure Shorter (F : List (List Lit)) (before after learnts : List ClauseId)
    (pairs : List (Lit × Lit)) (id : ClauseId) (lits : Array Lit) (e : Engine) : Prop where
  faithful : e.Faithful F { originals := before ++ after, learnts, pairs, aside := [id] } e.trail.head
  zero : e.trail.level = 0
  propagated : e.trail.head = e.trail.lits.size
  open_ : ∀ q ∈ (e.clause id).lits, q ∉ e.trail.lits
  sublist : ∃ c, c.Perm (e.clause id).lits.toList ∧ lits.toList.Sublist c
  free : ∀ q ∈ lits, e.trail.value q.var = .undecided
  implied : ∀ σ : Valuation, σ.satisfies F → σ.satisfiesClause lits.toList

theorem isTrue_of_isSatisfied_false (unsatisfied : e.isSatisfied id = false) {q : Lit}
    (member : q ∈ (e.clause id).lits) : e.trail.isTrue q = false := by
  by_contra holds
  have satisfied : e.isSatisfied id = true := by
    unfold Engine.isSatisfied Trail.satisfies
    rw [Array.any_eq_true']
    exact ⟨q, member, by simpa using holds⟩
  rw [satisfied] at unsatisfied
  cases unsatisfied

/-- A probe begins once its clause is set aside. -/
theorem Faithful.startProbe
    (h : e.Faithful F { originals := before ++ id :: after, learnts, pairs } e.trail.head)
    (zero : e.trail.level = 0) (propagated : e.trail.head = e.trail.lits.size) :
    Probing F { originals := before ++ after, learnts, pairs, aside := [id] } (e.detachNow id) [] #[]
      (e.detachNow id) where
  faithful := h.detachNow
  propagated := propagated
  framed := .refl _
  books := ⟨rfl, rfl⟩
  facts := fun _ => Iff.rfl
  clauses := fun _ => .refl _
  sublist := .refl _
  falsified := fun _ none => absurd none List.not_mem_nil
  decided := by
    intro q member _ above
    have := h.sound.trail.levelOf_le member
    change e.trail.levelOf q.var ≠ 0 at above
    omega
  free := fun _ none => absurd none (Array.not_mem_empty _)

/-- After a probe the engine goes back to level zero, where nothing but the order of literals has
changed. -/
theorem Probed.back {b : Engine} {all : List Lit} (h : Probed F L b all lits e) :
    (e.cancelTo 0).Faithful F L (e.cancelTo 0).trail.head ∧ (e.cancelTo 0).trail.level = 0 ∧
      (e.cancelTo 0).trail.head = (e.cancelTo 0).trail.lits.size ∧
      (∀ q, q ∈ (e.cancelTo 0).trail.lits ↔ q ∈ b.trail.facts) ∧
      (∀ x, (e.cancelTo 0).clause x = e.clause x) ∧
      (e.cancelTo 0).originals = b.originals ∧ (e.cancelTo 0).learnts = b.learnts := by
  obtain ⟨m, faithful, marks, atZero⟩ := h.faithful
  by_cases level : e.trail.level = 0
  · rw [cancelTo_of_le (by omega)]
    obtain ⟨same, propagated⟩ := atZero level
    refine ⟨same ▸ faithful, level, propagated, fun q => ?_, fun _ => rfl, h.books⟩
    rw [← Trail.Coherent.mem_facts_of_level_zero level]
    exact h.facts q
  · have below : 0 < e.trail.level := by omega
    have zero : (e.cancelTo 0).trail.level = 0 := by
      rw [trail_cancelTo below, Trail.level_cancelTo below]
    refine ⟨faithful.cancelTo marks below, zero, ?_, fun q => ?_, fun x => ?_, ?_, ?_⟩
    · rw [trail_cancelTo below, faithful.sound.trail.size_cancelTo]
      rfl
    · rw [← Trail.Coherent.mem_facts_of_level_zero zero, trail_cancelTo below,
        faithful.sound.trail.mem_facts_cancelTo below]
      exact h.facts q
    · rw [cancelTo_eq below]
      rfl
    · rw [cancelTo_eq below]
      exact h.books.1
    · rw [cancelTo_eq below]
      exact h.books.2

/-- What setting the clause aside, decisions and propagations keep holds before a probe goes back. -/
theorem Faithful.exists_probed {P : Engine → Prop}
    (h : e.Faithful F { originals := before ++ id :: after, learnts, pairs } e.trail.head)
    (zero : e.trail.level = 0) (propagated : e.trail.head = e.trail.lits.size)
    (start : P (e.detachNow id)) (decides : ∀ (x : Engine) (q : Lit), P x → P (x.decide q))
    (propagates : ∀ {x y : Engine} {c : Option Conflict}, x.Sound [id] → x.FrozenApart → P x →
      x.propagate = (y, c) → P y)
    (result : e.probeClause id = (lits, f)) : ∃ g, P g ∧ g.Sound [id] ∧ f = g.cancelTo 0 := by
  have used := isRemoved_of_isAttached (h.guarded.clauses id (by simp)).1
  have bound := (h.sound.proper id used).bounded
  unfold Engine.probeClause at result
  rcases run : probe (e.clause id).lits.toList #[] (e.detachNow id) with ⟨kept, g⟩
  simp only [run, Prod.mk.injEq] at result
  obtain ⟨passed, sound⟩ := probe_keeps _ (h.startProbe zero propagated)
    (fun q member => bound q (Array.mem_toList_iff.mp member)) decides propagates start run
  exact ⟨g, passed, sound, result.2.symm⟩

/-- Probing an original clause that is not satisfied. -/
theorem probeClause_spec
    (h : e.Faithful F { originals := before ++ id :: after, learnts, pairs } e.trail.head)
    (zero : e.trail.level = 0) (propagated : e.trail.head = e.trail.lits.size)
    (unsatisfied : e.isSatisfied id = false) (result : e.probeClause id = (lits, f)) :
    f.Shorter F before after learnts pairs id lits ∧ e.Framed f ∧
      (f.originals = e.originals ∧ f.learnts = e.learnts) ∧
      (f.clause id).size = (e.clause id).size := by
  have original : id ∈ before ++ id :: after := by simp
  have used := isRemoved_of_isAttached (h.guarded.clauses id original).1
  have bound := (h.sound.proper id used).bounded
  have facts_iff {q : Lit} : q ∈ e.trail.facts ↔ q ∈ e.trail.lits :=
    Trail.Coherent.mem_facts_of_level_zero zero
  have openFacts : ∀ q ∈ (e.clause id).lits.toList, q ∉ e.trail.facts := by
    intro q member fact
    have holds := (h.sound.trail.isTrue_iff q).mpr (facts_iff.mp fact)
    rw [isTrue_of_isSatisfied_false unsatisfied (Array.mem_toList_iff.mp member)] at holds
    cases holds
  unfold Engine.probeClause at result
  rcases run : probe (e.clause id).lits.toList #[] (e.detachNow id) with ⟨kept, g⟩
  simp only [run, Prod.mk.injEq] at result
  obtain ⟨rfl, rfl⟩ := result
  -- Probing starts with the clause detached, so that it does not imply its own literals.
  have probed := probe_spec _ (h.startProbe zero propagated) openFacts
    (fun q member => bound q (Array.mem_toList_iff.mp member)) run
  rw [List.nil_append] at probed
  obtain ⟨faithful, level, all, inTrail, clauses, books⟩ := probed.back
  have clause := clauses id
  have continues := probed.clauses id
  refine ⟨⟨faithful, level, all, ?_, ?_, ?_, ?_⟩, ?_, books, ?_⟩
  · intro q member
    rw [clause, continues.mem] at member
    rw [inTrail]
    exact openFacts q (Array.mem_toList_iff.mpr member)
  · rw [clause]
    exact ⟨_, continues.lits.symm, probed.sublist⟩
  · intro q member
    rw [faithful.sound.trail.undecided_iff]
    intro x xMember same
    obtain ⟨notTrue, notFalse⟩ := probed.free q member
    rcases Lit.eq_or_eq_neg_of_var_eq same with rfl | rfl
    · exact notTrue ((inTrail _).mp xMember)
    · exact notFalse ((inTrail _).mp xMember)
  · intro σ holds
    -- What probing found out is implied with the clause itself among the clauses.
    obtain ⟨m, above, -⟩ := probed.faithful
    have respected := above.upheld σ holds
    refine probed.implied σ respected (continues.satisfied.mp (respected.clauses id ?_))
    exact continues.removed.trans used
  · have begun : e.Framed (e.detachNow id) :=
      ⟨⟨rfl, rfl, rfl, rfl⟩, .refl _⟩
    exact begun.trans (probed.framed.trans (framed_cancelTo g 0))
  · rw [clause, Clause.size, Clause.size, ← Array.length_toList, ← Array.length_toList]
    exact continues.lits.length_eq

variable (h : e.Shorter F before after learnts pairs id lits)

include h

theorem Shorter.sub {q : Lit} (member : q ∈ lits) : q ∈ (e.clause id).lits := by
  obtain ⟨c, perm, sublist⟩ := h.sublist
  exact Array.mem_toList_iff.mp (perm.mem_iff.mp (sublist.subset (Array.mem_toList_iff.mpr member)))

theorem Shorter.used : (e.clause id).isRemoved = false :=
  isRemoved_of_isAttached (h.faithful.sound.tracked.usable id List.mem_cons_self)

/-- No two of the literals are of one variable. -/
theorem Shorter.distinct : (lits.toList.map Lit.var).Nodup := by
  obtain ⟨c, perm, sublist⟩ := h.sublist
  have proper := h.faithful.sound.proper id h.used
  exact (sublist.map Lit.var).nodup ((perm.map Lit.var).nodup_iff.mpr proper.distinct)

theorem Shorter.bound {q : Lit} (member : q ∈ lits) : q.var.index < e.numVars :=
  (h.faithful.sound.proper id h.used).bounded q (h.sub member)

theorem Shorter.isFalse_free {q : Lit} (member : q ∈ lits) : e.trail.isFalse q = false := by
  have undecided := (e.trail.valueLit_eq_undecided_iff q).mpr (h.free q member)
  simp [Trail.isFalse, undecided]

/-- Without the clause set aside. -/
theorem Shorter.removed :
    (e.removeClause id).Regular { originals := before ++ after, learnts, pairs } e.trail.head := by
  have distinct := h.faithful.listed.originals_nodup
  refine h.faithful.toRegular.removeClause h.used h.zero ?_ ?_ (List.nil_sublist _) (by simp)
  · exact (List.nodup_cons.mp distinct).1
  · exact fun member => h.faithful.listed.disjoint id member List.mem_cons_self

/-- The clause may go once the literals that are left of it are held. -/
theorem Shorter.keeps {more : List (Lit × Lit)} (grown : ∀ p ∈ pairs, p ∈ more)
    (grownFacts : ∀ l ∈ (e.removeClause id).trail.facts, l ∈ f.trail.facts)
    (arena : f.arena = (e.removeClause id).arena)
    (held : f.Held { originals := before ++ after, learnts, pairs := more } lits.toList) :
    e.Keeps { originals := before ++ after, learnts, pairs, aside := [id] } f
      { originals := before ++ after, learnts, pairs := more } where
  facts := fun l fact => grownFacts l ((e.steady_removeClause id).trail.facts ▸ fact)
  pairs := grown
  clauses := by
    intro x member
    by_cases same : x = id
    · subst same
      refine held.mono fun l inside => ?_
      exact Array.mem_toList_iff.mpr (h.sub (Array.mem_toList_iff.mp inside))
    · refine .clause x ((List.mem_cons.mp member).resolve_left same) fun l inside => ?_
      rw [clause, arena] at inside
      change l ∈ ((e.removeClause id).clause x).lits at inside
      rw [clause_removeClause h.used same] at inside
      exact Array.mem_toList_iff.mpr inside

theorem Shorter.free_removed {q : Lit} (member : q ∈ lits) :
    (e.removeClause id).trail.value q.var = .undecided := by
  have same := (e.steady_removeClause id).trail
  rw [Trail.value, same.values]
  exact h.free q member

/-- A single literal may be assigned for good. -/
theorem Shorter.assigned {l : Lit} (list : lits.toList = [l]) :
    ((e.removeClause id).assign l .decision).Faithful F
      { originals := before ++ after, learnts, pairs }
      ((e.removeClause id).assign l .decision).trail.head := by
  have steady := e.steady_removeClause id
  have member : l ∈ lits := by
    rw [← Array.mem_toList_iff, list]
    exact List.mem_cons_self
  have zero : (e.removeClause id).trail.level = 0 := steady.trail.level.trans h.zero
  have bound : l.var.index < (e.removeClause id).numVars := by
    rw [steady.numVars]
    exact h.bound member
  have unassigned := h.free_removed member
  have le : e.trail.head ≤ (e.removeClause id).trail.lits.size :=
    Nat.le_of_eq (by rw [steady.trail.lits, h.propagated])
  have coherent := h.removed.sound.trail
  have single {σ : Valuation} : σ.satisfiesClause lits.toList ↔ σ.satisfiesLit l := by
    rw [list]
    simp [Valuation.satisfiesClause]
  refine ⟨?_, h.faithful.toEquivalent.keeps ?_ fun σ holds => ?_⟩
  · change Regular _ (e.removeClause id).trail.head _
    rw [steady.trail.head]
    exact h.removed.assign unassigned bound (Trail.opens_of_level_zero zero _) le
  · refine h.keeps (fun _ pair => pair) (fun _ fact => Trail.facts_assign_subset fact) rfl ?_
    refine .fact l (list ▸ List.mem_cons_self) ?_
    exact (mem_facts_assign coherent).mpr (.inr ⟨zero, rfl⟩)
  · have respected := respected_removeClause h.used (h.faithful.upheld σ holds)
    refine { respected with facts := fun q fact => ?_ }
    rcases (mem_facts_assign coherent).mp fact with old | ⟨_, rfl⟩
    · exact respected.facts q old
    · exact single.mp (h.implied σ holds)

/-- A single literal becomes a fact. -/
theorem Shorter.unit {l : Lit} (list : lits.toList = [l]) :
    ((e.removeClause id).addFact l).Refuted F ∨
      ((e.removeClause id).addFact l).Upkept F (before ++ after) learnts e := by
  have steady := e.steady_removeClause id
  have zero : (e.removeClause id).trail.level = 0 := steady.trail.level.trans h.zero
  refine (addFact_spec (h.assigned list) zero).imp_right fun upkept => ?_
  exact
    { upkept with
      framed := steady.toFramed.trans upkept.framed
      books := ⟨upkept.books.1.trans steady.originals, upkept.books.2.trans steady.learnts⟩ }

/-- Two literals become a clause of their own. -/
theorem Shorter.pair {a b : Lit} (list : lits.toList = [a, b]) :
    ((e.removeClause id).addBinary a b false).Upkept F (before ++ after) learnts e := by
  have steady := (e.steady_removeClause id).trans (steady_addBinary _ a b false)
  have aMember : a ∈ lits := by
    rw [← Array.mem_toList_iff, list]
    exact List.mem_cons_self
  have bMember : b ∈ lits := by
    rw [← Array.mem_toList_iff, list]
    exact List.mem_cons_of_mem _ List.mem_cons_self
  have bound {q : Lit} (member : q ∈ lits) : q.var.index < (e.removeClause id).numVars := by
    rw [(e.steady_removeClause id).numVars]
    exact h.bound member
  -- No literal of the clause has a value after the probe, so that the pair can be watched by any of them.
  have free {q : Lit} (member : q ∈ lits) : (e.removeClause id).trail.isFalse q = false := by
    rw [(e.steady_removeClause id).trail.isFalse]
    exact h.isFalse_free member
  have either {σ : Valuation} : σ.satisfiesClause lits.toList ↔ σ.satisfiesLit a ∨ σ.satisfiesLit b := by
    rw [list]
    simp [Valuation.satisfiesClause]
  obtain ⟨tally, same⟩ := (e.removeClause id).addBinary_eq a b false
  refine
    { faithful := ⟨(a, b) :: (b, a) :: pairs, ?_⟩
      framed := steady.toFramed
      books := ⟨steady.originals, steady.learnts⟩
      zero := steady.trail.level.trans h.zero
      propagated := by
        rw [steady.trail.head, steady.trail.lits]
        exact h.propagated }
  have differ : a.var ≠ b.var := by
    have distinct := h.distinct
    rw [list] at distinct
    simpa using distinct
  refine ⟨?_, h.faithful.toEquivalent.keeps ?_ fun σ holds => ?_⟩
  · rw [steady.trail.head]
    exact h.removed.addPair (bound aMember) (bound bMember) differ (free aMember) (free bMember) false
  · rw [same]
    refine h.keeps (fun _ pair => List.mem_cons_of_mem _ (List.mem_cons_of_mem _ pair))
      (fun _ fact => fact) rfl ?_
    exact held_addPair (L := { originals := before ++ after, learnts, pairs })
      (list ▸ List.mem_cons_self) (list ▸ List.mem_cons_of_mem _ List.mem_cons_self)
  · exact respected_addBinary (respected_removeClause h.used (h.faithful.upheld σ holds))
      (either.mp (h.implied σ holds)) false

/-- Three literals or more take the place of those of the clause. -/
theorem Shorter.replaced (size : 3 ≤ lits.size) :
    ((e.replaceLits id lits).attach id).Upkept F (before ++ id :: after) learnts e := by
  obtain ⟨c, perm, sublist⟩ := h.sublist
  have proper := h.faithful.sound.proper id h.used
  -- The clause is no reason, as none of its literals is on the trail.
  have noReason : ∀ q ∈ e.trail.lits, e.trail.reason q.var ≠ .clause id := by
    intro q member reason
    have first := (h.faithful.sound.isLocked_of_reason member reason).1
    have large := proper.size
    refine h.open_ q ?_ member
    rw [← first]
    exact Clause.lit_mem (by omega)
  have shorter : ((e.clause id).setLits lits).Proper e.numVars :=
    { size
      distinct := h.distinct
      bounded := fun q member => h.bound member
      inPlace := proper.inPlace }
  unfold replaceLits
  dsimp only
  generalize (e.clause id).size - lits.size = n
  have replaced := h.faithful.replace (n := n) List.mem_cons_self noReason shorter
    (fun q member => h.sub member) h.implied
  have clause : ((e.arena.modify id (·.setLits lits)).waste n).get id =
      (e.clause id).setLits lits := by
    rw [get_shrunk h.used, if_pos rfl]
  have within {i : Nat} (low : i < lits.size) : lits.getD i .missing ∈ lits := by
    rw [Array.getD_eq_getD_getElem?, Array.getElem?_eq_getElem low]
    exact Array.getElem_mem low
  have attached := Faithful.attachAside before after replaced (by
    intro w watched
    have member : w ∈ lits := by
      change w = ((e.arena.modify id (·.setLits lits)).waste n |>.get id).lit 0 ∨
        w = ((e.arena.modify id (·.setLits lits)).waste n |>.get id).lit 1 at watched
      rw [clause] at watched
      rcases watched with rfl | rfl
      · exact within (by omega)
      · exact within (by omega)
    exact h.isFalse_free member)
  exact
    { faithful := ⟨pairs, attached.books⟩
      framed := ⟨⟨rfl, rfl, rfl, rfl⟩, .refl _⟩
      books := ⟨rfl, rfl⟩
      zero := h.zero
      propagated := h.propagated }

/-- A clause from which nothing is left out goes back to work. -/
theorem Shorter.unchanged (size : lits.size = (e.clause id).lits.size) :
    (e.attach id).Upkept F (before ++ id :: after) learnts e := by
  obtain ⟨c, perm, sublist⟩ := h.sublist
  have same : lits.toList = c := sublist.eq_of_length (by
    rw [perm.length_eq]
    simpa using size)
  have proper := h.faithful.sound.proper id h.used
  have large := proper.size
  have attached := h.faithful.attachAside before after (by
    intro w watched
    have member : w ∈ (e.clause id).lits := by
      rcases watched with rfl | rfl
      · exact Clause.lit_mem (by omega)
      · exact Clause.lit_mem (by omega)
    rw [← Array.mem_toList_iff, ← perm.mem_iff, ← same, Array.mem_toList_iff] at member
    exact h.isFalse_free member)
  exact
    { faithful := ⟨pairs, attached⟩
      framed := ⟨⟨rfl, rfl, rfl, rfl⟩, .refl _⟩
      books := ⟨rfl, rfl⟩
      zero := h.zero
      propagated := h.propagated }

end Shorter

section All

variable {before after rest : List ClauseId} {lits : Array Lit} {b : Engine}

theorem Shorter.stats (h : e.Shorter F before after learnts pairs id lits) (stats : Statistics) :
    ({ e with stats } : Engine).Shorter F before after learnts pairs id lits :=
  { h with faithful := h.faithful.books }

theorem Upkept.trans (h : f.Upkept F originals learnts e) (begun : b.Framed e)
    (books : e.originals = b.originals ∧ e.learnts = b.learnts) : f.Upkept F originals learnts b :=
  { h with
    framed := begun.trans h.framed
    books := ⟨h.books.1.trans books.1, h.books.2.trans books.2⟩ }

/-- A satisfied original clause may go. -/
theorem Upkept.dropSatisfied (h : e.Upkept F (before ++ id :: rest) learnts b)
    (satisfied : e.isSatisfied id = true) : (e.removeClause id).Upkept F (before ++ rest) learnts b := by
  obtain ⟨pairs, faithful⟩ := h.faithful
  obtain ⟨pairs', kept⟩ := faithful.simplifyOriginal h.zero h.propagated (.removed satisfied)
  have steady := e.steady_removeClause id
  refine ⟨⟨pairs', ?_⟩, h.framed.trans steady.toFramed,
    ⟨steady.originals.trans h.books.1, steady.learnts.trans h.books.2⟩,
    steady.trail.level.trans h.zero, ?_⟩
  · rw [steady.trail.head]
    exact kept
  · rw [steady.trail.head, steady.trail.lits]
    exact h.propagated

theorem Upkept.stats (h : e.Upkept F originals learnts b) (stats : Statistics) :
    ({ e with stats } : Engine).Upkept F originals learnts b := by
  obtain ⟨pairs, faithful⟩ := h.faithful
  exact { h with faithful := ⟨pairs, faithful.books⟩, framed := { h.framed with } }

/-- A clause that is not satisfied is probed: the engine goes back to `g`, and the literals `lits` are
kept. -/
structure Tried (F : List (List Lit)) (before after learnts : List ClauseId)
    (pairs : List (Lit × Lit)) (e : Engine) (id : ClauseId) (lits : Array Lit) (g : Engine) :
    Prop where
  unsatisfied : e.isSatisfied id = false
  probed : e.probeClause id = (lits, g)
  shorter : g.Shorter F before after learnts pairs id lits

/-- What vivifying an original clause comes to, and whether the clause stays. -/
inductive VivifiedTo (F : List (List Lit)) (before after learnts : List ClauseId) (e : Engine)
    (id : ClauseId) : Bool → Engine → Prop where
  | idle : VivifiedTo F before after learnts e id true e
  | satisfied (satisfied : e.isSatisfied id = true) (stats : Statistics) :
    VivifiedTo F before after learnts e id false { e.removeClause id with stats }
  | fact {pairs : List (Lit × Lit)} {lits : Array Lit} {g : Engine} {l : Lit} (stats : Statistics)
    (tried : Tried F before after learnts pairs e id lits g) (list : lits.toList = [l]) :
    VivifiedTo F before after learnts e id false
      ((({ g with stats } : Engine).removeClause id).addFact l)
  | pair {pairs : List (Lit × Lit)} {lits : Array Lit} {g : Engine} {a b : Lit} (stats : Statistics)
    (tried : Tried F before after learnts pairs e id lits g) (list : lits.toList = [a, b]) :
    VivifiedTo F before after learnts e id false
      ((({ g with stats } : Engine).removeClause id).addBinary a b false)
  | shorter {pairs : List (Lit × Lit)} {lits : Array Lit} {g : Engine} (stats : Statistics)
    (tried : Tried F before after learnts pairs e id lits g) (size : 3 ≤ lits.size)
    (fewer : lits.size < (g.clause id).size) :
    VivifiedTo F before after learnts e id true
      ((({ g with stats } : Engine).replaceLits id lits).attach id)
  | unchanged {pairs : List (Lit × Lit)} {lits : Array Lit} {g : Engine}
    (tried : Tried F before after learnts pairs e id lits g)
    (size : lits.size = (g.clause id).lits.size) :
    VivifiedTo F before after learnts e id true (g.attach id)

/-- A probe keeps the literals that it kept before. -/
theorem size_le_probe (ls : List Lit) {kept' : Array Lit} (result : probe ls kept e = (kept', f)) :
    kept.size ≤ kept'.size := by
  induction ls generalizing kept e with
  | nil =>
    cases result
    exact Nat.le_refl _
  | cons l ls ih =>
    unfold probe at result
    split at result
    · cases result
      simp
    · exact ih result
    · split at result
      · cases result
        simp
      · have := ih result
        rw [Array.size_push] at this
        omega

/-- A clause that is not satisfied has a literal that a probe keeps: its first one is not false. -/
theorem probeClause_keeps
    (h : e.Faithful F { originals := before ++ id :: after, learnts, pairs } e.trail.head)
    (propagated : e.trail.head = e.trail.lits.size) (unsatisfied : e.isSatisfied id = false)
    (result : e.probeClause id = (lits, f)) : lits.toList ≠ [] := by
  have original : id ∈ before ++ id :: after := by simp
  have used := isRemoved_of_isAttached (h.guarded.clauses id original).1
  have large := (h.sound.proper id used).size
  have open_ := h.watched_open propagated original unsatisfied (w := (e.clause id).lit 0) (.inl rfl)
  unfold probeClause at result
  rcases list : (e.clause id).lits.toList with _ | ⟨l, ls⟩
  · rw [← Array.length_toList, list] at large
    cases large
  · have first : (e.clause id).lit 0 = l := by
      rw [Clause.lit, Array.getD_eq_getD_getElem?, ← Array.getElem?_toList, list]
      rfl
    rw [first] at open_
    rcases run : probe (l :: ls) #[] (e.detachNow id) with ⟨kept, g⟩
    rw [list] at result
    simp only [run, Prod.mk.injEq] at result
    obtain ⟨rfl, -⟩ := result
    have some : 1 ≤ kept.size := by
      unfold probe at run
      split at run
      · cases run
        simp
      next no =>
        change e.trail.valueLit l = .no at no
        rw [(e.trail.valueLit_eq_no_iff l).mp no] at open_
        cases open_
      · split at run
        · cases run
          simp
        · exact size_le_probe ls run
    intro none
    rw [← Array.length_toList, none] at some
    cases some

theorem Upkept.vivifiedTo (minSize : Nat) {s : VivifyState}
    (h : s.engine.Upkept F (before ++ id :: after) learnts b) :
    ∃ stays, VivifiedTo F before after learnts s.engine id stays
        (Engine.vivifyClause minSize s id).engine ∧
      (Engine.vivifyClause minSize s id).kept.toList =
        if stays then s.kept.toList ++ [id] else s.kept.toList := by
  have pushed : (s.kept.push id).toList = s.kept.toList ++ [id] := Array.toList_push
  obtain ⟨pairs, faithful⟩ := h.faithful
  unfold Engine.vivifyClause
  dsimp only
  split
  · exact ⟨true, .idle, pushed⟩
  · split
    next satisfied => exact ⟨false, .satisfied satisfied _, rfl⟩
    next unsatisfied =>
      rcases probed : s.engine.probeClause id with ⟨lits, g⟩
      obtain ⟨shorter, -, -, sameSize⟩ :=
        probeClause_spec faithful h.zero h.propagated (by simpa using unsatisfied) probed
      have some := probeClause_keeps faithful h.propagated (by simpa using unsatisfied) probed
      -- The clause was tried. What happens next depends on how many literals are left of it.
      have tried : Tried F before after learnts pairs s.engine id lits g :=
        ⟨by simpa using unsatisfied, probed, shorter⟩
      dsimp only
      split
      next fewer =>
        have kept (stays : Bool) : (if stays then s.kept.push id else s.kept).toList =
            if stays then s.kept.toList ++ [id] else s.kept.toList := by
          cases stays
          · rfl
          · exact pushed
        rw [← sameSize] at fewer
        rcases run : g.shorten id lits with ⟨stays, f⟩
        refine ⟨stays, ?_, kept stays⟩
        unfold Engine.shorten at run
        dsimp only [modifyStats] at run
        split at run
        next list => exact absurd list some
        next l list =>
          cases run
          exact .fact _ tried list
        next a b list =>
          cases run
          exact .pair _ tried list
        next none one two =>
          cases run
          have size : 3 ≤ lits.size := by
            rw [← Array.length_toList]
            rcases list : lits.toList with _ | ⟨x, _ | ⟨y, _ | ⟨z, zs⟩⟩⟩
            · exact absurd list none
            · exact absurd list (one x)
            · exact absurd list (two x y)
            · simp
          exact .shorter _ tried size fewer
      next all =>
        refine ⟨true, .unchanged tried ?_, pushed⟩
        -- No literal was left out, because what is left is a part of the clause.
        obtain ⟨c, perm, sublist⟩ := shorter.sublist
        have le := sublist.length_le
        rw [perm.length_eq, Array.length_toList, Array.length_toList] at le
        change (g.clause id).lits.size = (s.engine.clause id).lits.size at sameSize
        change ¬ lits.size < (s.engine.clause id).lits.size at all
        omega

/-- Vivifying an original clause keeps the engine in order, but for a fact that is yet to be added. -/
theorem VivifiedTo.upkept_or_fact (h : e.Upkept F (before ++ id :: after) learnts b) {stays : Bool}
    (result : VivifiedTo F before after learnts e id stays f) :
    f.Upkept F ((if stays then before ++ [id] else before) ++ after) learnts b ∨
      ∃ pairs lits g l, Shorter F before after learnts pairs id lits g ∧ lits.toList = [l] ∧
        (b.Framed g ∧ g.originals = b.originals ∧ g.learnts = b.learnts) ∧
        stays = false ∧ f = (g.removeClause id).addFact l := by
  have shift : (before ++ [id]) ++ after = before ++ id :: after := by simp
  obtain ⟨pairs, faithful⟩ := h.faithful
  -- What a probe goes back to came from the engine before it.
  have since {pairs : List (Lit × Lit)} {lits : Array Lit} {g : Engine}
      (tried : Tried F before after learnts pairs e id lits g) (stats : Statistics) :
      b.Framed { g with stats } ∧ g.originals = b.originals ∧ g.learnts = b.learnts := by
    obtain ⟨-, framed, books, -⟩ :=
      probeClause_spec faithful h.zero h.propagated tried.unsatisfied tried.probed
    exact ⟨{ h.framed.trans framed with }, books.1.trans h.books.1, books.2.trans h.books.2⟩
  cases result with
  | idle => exact .inl (shift ▸ h)
  | satisfied satisfied stats => exact .inl ((h.dropSatisfied satisfied).stats stats)
  | fact stats tried list =>
    exact .inr ⟨_, _, _, _, tried.shorter.stats stats, list, since tried stats, rfl, rfl⟩
  | pair stats tried list =>
    obtain ⟨framed, books⟩ := since tried stats
    exact .inl (((tried.shorter.stats stats).pair list).trans framed books)
  | shorter stats tried size =>
    obtain ⟨framed, books⟩ := since tried stats
    exact .inl (shift ▸ ((tried.shorter.stats stats).replaced size).trans framed books)
  | @unchanged _ _ g tried size =>
    obtain ⟨framed, books⟩ := since tried g.stats
    exact .inl (shift ▸ (tried.shorter.unchanged size).trans framed books)

theorem VivifiedTo.upkept (h : e.Upkept F (before ++ id :: after) learnts b) {stays : Bool}
    (result : VivifiedTo F before after learnts e id stays f) :
    f.Refuted F ∨
      f.Upkept F ((if stays then before ++ [id] else before) ++ after) learnts b := by
  rcases result.upkept_or_fact h with upkept | ⟨pairs, lits, g, l, shorter, list, ⟨framed, books⟩, rfl, rfl⟩
  · exact .inr upkept
  · exact (shorter.unit list).imp_right fun upkept => upkept.trans framed books

/-- Vivifying an original clause. -/
theorem Upkept.vivifyClause (minSize : Nat) {s : VivifyState}
    (h : s.engine.Upkept F (s.kept.toList ++ id :: rest) learnts b) :
    (Engine.vivifyClause minSize s id).engine.Refuted F ∨
      (Engine.vivifyClause minSize s id).engine.Upkept F
        ((Engine.vivifyClause minSize s id).kept.toList ++ rest) learnts b := by
  obtain ⟨stays, vivified, kept⟩ := h.vivifiedTo minSize
  rw [kept]
  exact vivified.upkept h

theorem Refuted.vivifyClause (minSize : Nat) {s : VivifyState} (h : s.engine.Refuted F)
    (id : ClauseId) : (Engine.vivifyClause minSize s id).engine.Refuted F := by
  unfold Engine.vivifyClause
  dsimp only
  rw [h.notOk, Bool.not_false, Bool.true_or, if_pos rfl]
  exact h

theorem Upkept.vivifyClauses (minSize : Nat) (ids : List ClauseId) {s : VivifyState}
    (h : s.engine.Refuted F ∨ s.engine.Upkept F (s.kept.toList ++ (ids ++ rest)) learnts b) :
    (ids.foldl (Engine.vivifyClause minSize) s).engine.Refuted F ∨
      (ids.foldl (Engine.vivifyClause minSize) s).engine.Upkept F
        ((ids.foldl (Engine.vivifyClause minSize) s).kept.toList ++ rest) learnts b := by
  induction ids generalizing s with
  | nil => exact h
  | cons id ids ih =>
    rw [List.foldl_cons]
    refine ih ?_
    rcases h with refuted | upkept
    · exact .inl (refuted.vivifyClause minSize id)
    · exact upkept.vivifyClause minSize

/-- What vivifying a clause keeps of the engine and the list of clauses that stay, vivifying some
clauses keeps. -/
theorem vivifyClauses_keeps {P : List ClauseId → Engine → Prop} (minSize : Nat) (ids : List ClauseId)
    (step : ∀ {before after : List ClauseId} {id : ClauseId} {x y : Engine} {stays : Bool},
      x.Upkept F (before ++ id :: after) learnts b → P (before ++ id :: after) x →
      VivifiedTo F before after learnts x id stays y →
      P ((if stays then before ++ [id] else before) ++ after) y)
    {s : VivifyState}
    (h : s.engine.Refuted F ∨ s.engine.Upkept F (s.kept.toList ++ ids) learnts b)
    (start : P (s.kept.toList ++ ids) s.engine) :
    P (ids.foldl (Engine.vivifyClause minSize) s).kept.toList
      (ids.foldl (Engine.vivifyClause minSize) s).engine := by
  induction ids generalizing s with
  | nil => rwa [List.append_nil] at start
  | cons id ids ih =>
    rw [List.foldl_cons]
    rcases h with refuted | upkept
    · have idle : Engine.vivifyClause minSize s id = { s with kept := s.kept.push id } := by
        unfold Engine.vivifyClause
        dsimp only
        rw [refuted.notOk, Bool.not_false, Bool.true_or, if_pos rfl]
      rw [idle]
      refine ih (.inl refuted) ?_
      rw [Array.toList_push, List.append_assoc]
      exact start
    · obtain ⟨stays, vivified, kept⟩ := upkept.vivifiedTo minSize
      refine ih ?_ ?_
      · rw [kept]
        exact vivified.upkept upkept
      · rw [kept]
        exact step upkept start vivified

/-- What vivifying a clause keeps, a vivification keeps; then it lists the clauses that stay. -/
theorem Quiet.vivifyAll_keeps {P : List ClauseId → Engine → Prop} (h : e.Quiet F) (minSize : Nat)
    (step : ∀ {before after : List ClauseId} {id : ClauseId} {x y : Engine} {stays : Bool},
      x.Upkept F (before ++ id :: after) e.learnts.toList e → P (before ++ id :: after) x →
      VivifiedTo F before after e.learnts.toList x id stays y →
      P ((if stays then before ++ [id] else before) ++ after) y)
    (start : P e.originals.toList e) :
    ∃ kept g, e.vivifyAll minSize = { g with originals := kept } ∧ P kept.toList g := by
  obtain ⟨pairs, faithful⟩ := h.faithful
  have upkept : e.Upkept F ([] ++ e.originals.toList) e.learnts.toList e :=
    ⟨⟨pairs, faithful⟩, .refl e, ⟨rfl, rfl⟩, h.zero, h.propagated⟩
  have done := vivifyClauses_keeps (s := { engine := e }) (max minSize 3) e.originals.toList step
    (.inr upkept) start
  rw [Array.foldl_toList] at done
  exact ⟨_, _, rfl, done⟩

/-- The first clauses of a vivification. -/
theorem Quiet.vivifyClauses (h : e.Quiet F) (minSize : Nat) {ids : List ClauseId}
    (list : e.originals.toList = ids ++ rest) :
    (ids.foldl (Engine.vivifyClause minSize) { engine := e }).engine.Refuted F ∨
      (ids.foldl (Engine.vivifyClause minSize) { engine := e }).engine.Upkept F
        ((ids.foldl (Engine.vivifyClause minSize) { engine := e }).kept.toList ++ rest)
        e.learnts.toList e := by
  obtain ⟨pairs, faithful⟩ := h.faithful
  have start : e.Upkept F (([] : List ClauseId) ++ (ids ++ rest)) e.learnts.toList e := by
    rw [List.nil_append, ← list]
    exact ⟨⟨pairs, faithful⟩, .refl e, ⟨rfl, rfl⟩, h.zero, h.propagated⟩
  exact Upkept.vivifyClauses minSize ids (.inr start)

end All

/-- Vivification keeps an engine faithful, or refutes the formula. -/
theorem Quiet.vivifyAll (h : e.Quiet F) (minSize : Nat) :
    (e.vivifyAll minSize).Refuted F ∨ (e.vivifyAll minSize).Quiet F ∧ e.Framed (e.vivifyAll minSize) := by
  have final := h.vivifyClauses (max minSize 3) (List.append_nil e.originals.toList).symm
  rw [List.append_nil] at final
  unfold Engine.vivifyAll
  dsimp only
  rw [← Array.foldl_toList]
  generalize e.originals.toList.foldl (Engine.vivifyClause (max minSize 3)) { engine := e } = s
    at final ⊢
  rcases final with refuted | upkept
  · exact .inl { refuted with }
  · obtain ⟨pairs', kept⟩ := upkept.faithful
    refine .inr ⟨⟨⟨⟨pairs', ?_⟩, ?_⟩, upkept.zero, upkept.propagated⟩, { upkept.framed with }⟩
    · rw [← upkept.books.2] at kept
      exact kept.books
    · exact upkept.framed.ok.trans h.ok

end Engine

end Cdcl
