import Cdcl.Proofs.MatchingWatches

/-!
# No decision variable is lost

A variable leaves the heap when it comes to the top, even if it is assigned or may not be decided by
then. It comes back when its value is undone, when decisions on it are allowed, or when the heap is
filled anew. So the heap holds every open variable at all times.

## Main results

- `Turn.offers`: a turn of the engine keeps every open variable in the heap.
- `open_of_instant`: at every instant all open variables are in the heap, none is picked exactly if
  there is none, and what is picked is open.
-/

namespace Cdcl

namespace Engine

variable {F : List (List Lit)} {aside before after learnts : List ClauseId} {b e f : Engine}
  {id : ClauseId} {l : Lit}

/-- A variable that may be decided and has no value. -/
structure Open (e : Engine) (v : Var) : Prop where
  bound : v.index < e.numVars
  allowed : e.branching.decision.get v = true
  unassigned : e.trail.value v = .undecided

/-- No open variable is lost, neither in the heap nor when one is picked. -/
structure Findable (e : Engine) : Prop where
  offered : ∀ v, e.Open v → e.branching.heap.contains v = true
  /-- None is picked exactly if every variable that may be decided is assigned. -/
  exhausted : (∃ f, e.pickLit = (none, f)) ↔ ∀ v, ¬ e.Open v
  picked : ∀ {l : Lit} {f : Engine}, e.pickLit = (some l, f) → e.Open l.var
  /-- All but the variable that is picked stay in the heap. -/
  others : ∀ {l : Lit} {f : Engine}, e.pickLit = (some l, f) →
    ∀ v, f.Open v → v ≠ l.var → f.branching.heap.contains v = true

theorem Offers.findable (h : e.Offers) : e.Findable := by
  have picked {l : Lit} {f : Engine} (result : e.pickLit = (some l, f)) : e.Open l.var := by
    obtain ⟨-, -, -, bound, unassigned, -⟩ := pickLit_spec h result
    refine ⟨bound, ?_, unassigned⟩
    unfold pickLit Branching.pick at result
    rcases run : e.branching.pickFrom e.trail.isUnassigned e.branching.heap.size with ⟨choice, c⟩
    rw [run] at result
    cases choice with
    | none => cases result
    | some v =>
      cases result
      exact Branching.decision_of_pickFrom _ run
  refine ⟨fun v free => ?_, ⟨?_, fun none => ?_⟩, picked, fun {l f} result v free other => ?_⟩
  · have unassigned := (e.trail.isUnassigned_iff v).mpr free.unassigned
    exact (h.linked.contains_iff v).mpr (h.complete v free.bound free.allowed unassigned)
  · rintro ⟨f, result⟩ v free
    obtain ⟨-, -, -, -, assigned⟩ := pickLit_spec h result
    exact assigned v free.bound free.allowed free.unassigned
  · rcases result : e.pickLit with ⟨choice, f⟩
    cases choice with
    | none => exact ⟨f, rfl⟩
    | some l => exact absurd (picked result) (none l.var)
  · obtain ⟨branching, rfl, -, -, -, offers⟩ := pickLit_spec h result
    have unassigned := (e.trail.isUnassigned_iff v).mpr free.unassigned
    exact (offers.linked.contains_iff v).mpr
      (offers.complete v free.bound free.allowed ⟨unassigned, other⟩)

/-! ### Turns keep open variables in the heap -/

theorem Offers.decide (h : e.Offers) (coherent : e.trail.Coherent e.numVars)
    (propagated : e.trail.head = e.trail.lits.size) (unassigned : e.trail.value l.var = .undecided)
    (bound : l.var.index < e.numVars) : (e.decide l).Offers := by
  have opened : e.openLevel.Offers := h
  exact opened.assign .decision (coherent.openLevel propagated) unassigned bound

theorem Offers.propagateFrom (h : e.Offers) (sound : e.Sound aside) (apart : e.FrozenApart) {n : Nat}
    {conflict : Option Conflict} (result : Engine.propagateFrom n e = (f, conflict)) : f.Offers := by
  obtain ⟨sound', -, grown, -⟩ := propagateFrom_sound sound apart result
  exact grown.offers sound.trail sound'.trail h

theorem offers_addFact (h : (e.assign l .decision).Offers) (sound : (e.assign l .decision).Sound [])
    (apart : (e.assign l .decision).FrozenApart) : (e.addFact l).Offers := by
  unfold Engine.addFact
  rcases run : (e.assign l .decision).propagate with ⟨f, _ | c⟩
  all_goals have offers := h.propagateFrom sound apart run
  · exact offers
  · exact offers

theorem Upkept.offers {originals : List ClauseId} (h : e.Upkept F originals learnts b) :
    e.Offers := by
  obtain ⟨pairs, faithful⟩ := h.faithful
  exact faithful.offers

theorem VivifiedTo.offers (h : e.Upkept F (before ++ id :: after) learnts b) {stays : Bool}
    (result : VivifiedTo F before after learnts e id stays f) : f.Offers := by
  rcases result.upkept_or_fact h with upkept | ⟨pairs, lits, g, l, shorter, list, -, -, rfl⟩
  · exact upkept.offers
  · have assigned := shorter.assigned list
    exact offers_addFact assigned.offers assigned.sound assigned.apart

theorem Quiet.offers_vivifyAll (quiet : e.Quiet F) (minSize : Nat) : (e.vivifyAll minSize).Offers := by
  obtain ⟨kept, g, vivified, offers⟩ := quiet.vivifyAll_keeps (P := fun _ x => x.Offers) minSize
    (fun upkept _ vivified => vivified.offers upkept) quiet.offers
  rw [vivified]
  exact offers

theorem Settled.offers_addNormalized (settled : e.Settled F) (zero : e.trail.level = 0)
    {c lits : List Lit} (normalized : Solver.Normalized e.trail c lits)
    (bound : ∀ l ∈ c, l.var.index < e.numVars) (result : Solver.addNormalized e lits = .ok f) :
    f.Offers := by
  obtain ⟨pairs, faithful⟩ := settled.faithful
  cases added_of_addNormalized result with
  | empty => exact faithful.offers
  | fact =>
    have assigned := faithful.toRegular.assignUnit zero normalized bound rfl
    exact offers_addFact assigned.offers assigned.sound assigned.apart
  | pair => exact (settled.addPair zero normalized bound rfl).offers
  | long size stored => exact (settled.addLong zero normalized bound size stored).1.offers

theorem Chore.offers (chore : Chore e f) (h : e.Orderly) (offers : e.Offers) : f.Offers := by
  cases chore with
  | noted | dated => exact offers
  | rebuild => exact offers.rebuild
  | setDecision bound allowed => exact Branching.Offers.setDecision offers bound allowed
  | setPolarity => exact Branching.Offers.congr offers rfl rfl
  | cancelTo _ level => exact offers.cancelTo h.sound.trail level
  | grown _ polarity => exact offers.grown polarity
  | propagate result => exact offers.propagateFrom h.sound h.apart result
  | simplifyAll quiet =>
    obtain ⟨⟨pairs, olds, recents, list, le, faithful⟩, -⟩ :=
      quiet.recalls.simplifyAll quiet.zero quiet.propagated
    exact faithful.offers
  | reduce settled zero => exact (settled.reduce zero).1.offers
  | vivifyAll quiet minSize => exact quiet.offers_vivifyAll minSize
  | compact settled result =>
    obtain ⟨pairs, faithful⟩ := settled.faithful
    obtain ⟨new, moved, -⟩ := faithful.compact rfl (e.lists_ledger pairs) result
    exact moved.offers
  | add settled zero normalized bound result =>
    exact settled.offers_addNormalized zero normalized bound result

/-- A turn keeps every open variable in the heap. -/
theorem Turn.offers (turn : Turn e f) (h : e.Orderly) (offers : e.Offers) : f.Offers := by
  cases turn with
  | chore chore => exact chore.offers h offers
  | openLevel => exact offers
  | decide propagated unassigned bound => exact offers.decide h.sound.trail propagated unassigned bound
  | exhausted result =>
    obtain ⟨-, -, -, kept, -⟩ := pickLit_spec offers result
    exact kept
  | picked propagated unassigned bound result =>
    obtain ⟨branching, rfl, -, -, -, others⟩ := pickLit_spec offers result
    exact .decide_picked others
  | blame fails result =>
    obtain ⟨examined, -⟩ := analyzeFinal_spec h.sound ((h.sound.trail.isFalse_iff _).mp fails) result
    exact offers.examined examined
  | learn result settled => exact settled.offers

end Engine

namespace Solver

open Engine

variable {F : List (List Lit)} {as ps : List Lit} {e : Engine}

/-- The engine at any instant of a call. -/
inductive Instant (F : List (List Lit)) : Engine → Prop where
  /-- At a pause, or after any turns from there: in the course of an upkeep, say. -/
  | turned {e f : Engine} (before : Pause F e) (turns : e.Turns f) : Instant F f
  /-- At a moment of a search, or of a vivification and its probes. -/
  | moment {as ps : List Lit} {e : Engine} (before : Moment F as ps e) : Instant F e
  /-- A conflict was analyzed, and nothing is learnt yet. -/
  | analyzed {e f g : Engine} {c : Conflict} {learnt : Learnt} (before : Instant F e)
    (run : e.propagate = (f, some c)) (positive : f.trail.level ≠ 0)
    (result : f.analyze c = .ok (g, learnt)) : Instant F g
  | back {e : Engine} (before : Instant F e) (k : Nat) : Instant F (e.cancelTo k)

theorem Pause.offers (h : Pause F e) : e.Orderly ∧ e.Offers :=
  h.keeps (fun opts _ => (settled_initial opts).offers) Turn.offers

/-- At every moment of a search and of a vivification the heap holds every open variable. -/
theorem Moment.offers (h : Moment F as ps e) : e.Offers := by
  induction h with
  | rest before ok => exact (before.ready ok).settled.offers
  | step before =>
    obtain ⟨log, searching⟩ := before.searching
    exact searching.working.settled.offers
  | resumed before proceeds =>
    obtain ⟨log, searching⟩ := before.searching
    exact (searching.proceeds proceeds).1.resumed.1.working.settled.offers
  | branch before =>
    obtain ⟨log, searching, -⟩ := before.searching
    exact searching.working.settled.offers
  | opened before opens =>
    obtain ⟨log, searching, propagated⟩ := before.searching
    exact (searching.working.openAssumed _ searching.presumes propagated rfl opens).1.settled.offers
  | vivified before list ok =>
    obtain ⟨originals, pairs, faithful⟩ := before.faithful _ list ok
    exact faithful.offers
  | aside before list ok =>
    obtain ⟨originals, pairs, faithful⟩ := before.faithful _ list ok
    exact faithful.detachNow.offers
  | probed before propagated unassigned bound ih =>
    obtain ⟨⟨aside, sound⟩, -, -⟩ := before.orderly
    exact ih.decide sound.trail propagated unassigned bound
  | propagated before result ih =>
    obtain ⟨⟨aside, sound⟩, apart, -⟩ := before.orderly
    exact ih.propagateFrom sound apart result
  | back before k ih =>
    obtain ⟨⟨aside, sound⟩, -, -⟩ := before.orderly
    exact ih.cancelTo sound.trail k

theorem Instant.offers (h : Instant F e) :
    (∃ aside, e.Sound aside) ∧ e.FrozenApart ∧ e.Offers := by
  induction h with
  | turned before turns =>
    obtain ⟨orderly, offers⟩ := turns.keeps Turn.offers before.offers
    exact ⟨⟨[], orderly.sound⟩, orderly.apart, offers⟩
  | moment before =>
    obtain ⟨sound, apart, -⟩ := before.orderly
    exact ⟨sound, apart, before.offers⟩
  | analyzed before run positive result ih =>
    obtain ⟨⟨aside, sound⟩, apart, offers⟩ := ih
    obtain ⟨sound', apart', grown, -, found⟩ := propagate_sound sound apart run
    obtain ⟨examined, unseen, -⟩ := analyze_teaches sound' (found _ rfl) positive result
    have offers' := grown.offers sound.trail sound'.trail offers
    exact ⟨⟨aside, examined.sound sound' unseen⟩, examined.frozenApart apart', offers'.examined examined⟩
  | back before k ih =>
    obtain ⟨⟨aside, sound⟩, apart, offers⟩ := ih
    exact ⟨⟨aside, sound.cancelTo k⟩, apart.cancelTo k, offers.cancelTo sound.trail k⟩

/-- At every instant all open variables are in the heap. None is picked exactly if there is no open
one, and the one picked is open. -/
theorem open_of_instant (h : Instant F e) : e.Findable := h.offers.2.2.findable

/-- The first variable could not be decided in the last search, and the second one never could. -/
theorem open_of_instant_allowed : ∃ e, Instant (clausesOf [[-1, 2]]) e ∧ e.Open ⟨0⟩ ∧
    ¬ e.Open ⟨1⟩ ∧ e.branching.heap.size = 1 ∧ e.Findable := by
  have passes : sessionPasses {} 9
      [.obey (.newVar .undecided true), .obey (.newVar .undecided false),
        .obey (.setDecision ⟨0⟩ false), .solve [], .obey (.setDecision ⟨0⟩ true),
        .obey (.addClause [.ofDimacs (-1), .ofDimacs 2])]
      (clausesOf [[-1, 2]])
      (fun s => s.engine.numVars == 2 && (s.engine.branching.decision.get ⟨0⟩ &&
        (s.engine.trail.value ⟨0⟩ == .undecided && (!s.engine.branching.decision.get ⟨1⟩ &&
          s.engine.branching.heap.size == 1)))) = true := by
    decide +kernel
  obtain ⟨s, history, tests⟩ := exists_of_sessionPasses passes
  simp only [Bool.and_eq_true, beq_iff_eq, Bool.not_eq_true'] at tests
  obtain ⟨numVars, allowed, unassigned, forbidden, size⟩ := tests
  have instant : Instant _ s.engine := .turned (.reached (.rest history)) .refl
  refine ⟨_, instant, ⟨by simp [numVars], allowed, unassigned⟩, fun free => ?_, size,
    open_of_instant instant⟩
  rw [free.allowed] at forbidden
  cases forbidden

end Solver

end Cdcl
