import Cdcl.Proofs.Cores

/-!
# Decisions

Opening levels and deciding literals keep an engine faithful. What is stored implies all of the trail
once it implies the decisions.

## Main results

- `Faithful.openLevel`, `Faithful.decide`, `Faithful.decide_picked`: opening levels and deciding literals.
- `pickLit_spec`: which literal is picked, and what it means if there is none.
- `Sound.all_hold`: an assignment that makes the decisions true makes all of the trail true.
-/

namespace Cdcl

namespace Trail

theorem facts_openLevel (t : Trail) : t.openLevel.facts = t.facts := by
  unfold facts Trail.openLevel
  dsimp only
  rw [Array.getElem?_push]
  by_cases empty : 0 = t.marks.size
  · rw [if_pos empty, Array.getElem?_eq_none (by omega)]
    exact List.take_of_length_le (by simp)
  · rw [if_neg empty]

end Trail

namespace Engine

variable {F : List (List Lit)} {L : Ledger} {m : Nat} {e f : Engine} {aside : List ClauseId} {l : Lit}

/-- An assignment that satisfies what is stored and the decisions satisfies the trail. -/
theorem Sound.all_hold (sound : e.Sound aside) {σ : Valuation} (respected : e.Respected σ)
    (decided : ∀ l ∈ e.trail.lits, e.trail.reason l.var = .decision → e.trail.levelOf l.var ≠ 0 →
      σ.satisfiesLit l) : ∀ l ∈ e.trail.lits, σ.satisfiesLit l := by
  have all : ∀ (i : Nat) (l : Lit), e.trail.lits[i]? = some l → σ.satisfiesLit l := by
    intro i
    induction i using Nat.strongRecOn with
    | ind i ih =>
      intro l at_i
      have member := Array.mem_of_getElem? at_i
      by_cases decision : e.trail.reason l.var = .decision
      · by_cases zero : e.trail.levelOf l.var = 0
        · exact respected.facts l (sound.trail.mem_facts_iff_levelOf.mpr ⟨member, zero⟩)
        · exact decided l member decision zero
      · refine sound.implied at_i decision respected.toUpheld ?_
        rintro q ⟨j, below, at_j⟩
        exact ih j below q at_j
  intro l member
  obtain ⟨i, at_i⟩ := Array.mem_iff_getElem?.mp member
  exact all i l at_i

/-! ### Opening levels -/

theorem Sound.openLevel (h : e.Sound aside) (propagated : e.trail.head = e.trail.lits.size) :
    e.openLevel.Sound aside :=
  { h with
    trail := h.trail.openLevel propagated
    justified := fun {i l} at_i =>
      (h.justified at_i).transfer
        (e.trail.agreesTo_openLevel (Array.getElem?_eq_some_iff.mp at_i).1) (fun _ _ => id)
        fun _ _ attached first => ⟨attached, first, fun _ => .rfl⟩
    blockers := by
      intro p w member attached
      change _ ∨ w.blocker.neg ∈ e.trail.openLevel.facts
      rw [Trail.facts_openLevel]
      exact h.blockers p w member attached }

theorem framed_openLevel (e : Engine) : e.Framed e.openLevel :=
  ⟨⟨rfl, rfl, rfl, rfl⟩, .refl _⟩

theorem Faithful.openLevel (h : e.Faithful F L m) (propagated : e.trail.head = e.trail.lits.size) :
    e.openLevel.Faithful F L m where
  sound := h.sound.openLevel propagated
  apart := { h.apart with }
  listed := { h.listed with }
  guarded := { h.guarded with }
  guards := ⟨h.guards.clauses, h.guards.pairs⟩
  offers := h.offers
  upheld := by
    intro σ holds
    refine { h.upheld σ holds with facts := fun q fact => ?_ }
    change q ∈ e.trail.openLevel.facts at fact
    rw [Trail.facts_openLevel] at fact
    exact (h.upheld σ holds).facts q fact
  held := fun c given => by
    refine (h.held c given).keeps (.of_same (fun q fact => ?_) rfl)
    change q ∈ e.trail.openLevel.facts
    rw [Trail.facts_openLevel]
    exact fact

/-! ### Deciding -/

theorem framed_decide (e : Engine) (l : Lit) : e.Framed (e.decide l) :=
  (framed_openLevel e).trans (framed_assign e.openLevel l .decision)

theorem level_decide (e : Engine) (l : Lit) : (e.decide l).trail.level = e.trail.level + 1 :=
  e.trail.level_openLevel

theorem Faithful.decide (h : e.Faithful F L e.trail.head)
    (propagated : e.trail.head = e.trail.lits.size) (unassigned : e.trail.value l.var = .undecided)
    (bound : l.var.index < e.numVars) : (e.decide l).Faithful F L (e.decide l).trail.head := by
  have opened := h.openLevel propagated
  refine opened.assign_decision unassigned bound (h.sound.trail.opens_openLevel propagated)
    (fun zero => ?_) (Nat.le_of_eq propagated)
  rw [show e.openLevel.trail.level = e.trail.level + 1 from e.trail.level_openLevel] at zero
  omega

/-- The facts are those of before. -/
theorem facts_decide {n : Nat} (coherent : e.trail.Coherent n)
    (propagated : e.trail.head = e.trail.lits.size) {q : Lit} :
    q ∈ (e.decide l).trail.facts ↔ q ∈ e.trail.facts := by
  have level : e.openLevel.trail.level ≠ 0 := by
    rw [show e.openLevel.trail.level = e.trail.level + 1 from e.trail.level_openLevel]
    omega
  change q ∈ (e.trail.openLevel.assign l .decision).facts ↔ _
  rw [mem_facts_assign (coherent.openLevel propagated), Trail.facts_openLevel]
  exact or_iff_left fun both => level both.1

/-- Picking a literal leaves all but the heap alone; it is unassigned, and if there is none, every
decision variable is assigned. -/
theorem pickLit_spec (h : e.Offers) {choice : Option Lit} (result : e.pickLit = (choice, f)) :
    ∃ branching, f = { e with branching } ∧ branching.decision = e.branching.decision ∧
      match choice with
      | none => f.Offers ∧ ∀ v : Var, v.index < e.numVars → e.branching.decision.get v = true →
        e.trail.value v ≠ .undecided
      | some l => l.var.index < e.numVars ∧ e.trail.value l.var = .undecided ∧
        branching.Offers e.numVars fun w => e.trail.isUnassigned w = true ∧ w ≠ l.var := by
  unfold Engine.pickLit Branching.pick at result
  have picked := Branching.Offers.pickFrom e.branching.heap.size h (Nat.le_refl _)
  rcases final : e.branching.pickFrom e.trail.isUnassigned e.branching.heap.size with
    ⟨choice', branching⟩
  rw [final] at result picked
  obtain ⟨decision, _, spec⟩ := picked
  cases choice' with
  | none =>
    cases result
    refine ⟨branching, rfl, decision, spec.1, fun v bound allowed undecided => ?_⟩
    have assigned := spec.2 v bound allowed
    rw [(e.trail.isUnassigned_iff v).mpr undecided] at assigned
    cases assigned
  | some v =>
    cases result
    obtain ⟨bound, free, offers⟩ := spec
    exact ⟨branching, rfl, decision, bound, (e.trail.isUnassigned_iff v).mp free, offers⟩

/-- The variable that was picked is offered no more, and need not be once it is assigned. -/
theorem Offers.decide_picked {branching : Branching}
    (offers : branching.Offers e.numVars fun w => e.trail.isUnassigned w = true ∧ w ≠ l.var) :
    (({ e with branching } : Engine).decide l).Offers := by
  have same := offers.congr (c := branching.noteAssigned e.opts.phaseSaving l)
    (Branching.heap_noteAssigned ..) (Branching.decision_noteAssigned ..)
  refine same.weaken fun v free => ?_
  rw [Trail.isUnassigned_iff] at free ⊢
  change (e.trail.openLevel.assign l .decision).value v = .undecided at free
  rw [Trail.value_assign] at free
  split at free
  next here => cases positive : l.positive <;> simp [positive, Truth.ofBool] at free
  next other => exact ⟨free, Ne.symm other⟩

/-- Deciding a literal that was picked. -/
theorem Faithful.decide_picked (h : e.Faithful F L e.trail.head)
    (propagated : e.trail.head = e.trail.lits.size) (result : e.pickLit = (some l, f)) :
    (f.decide l).Faithful F L (f.decide l).trail.head := by
  obtain ⟨branching, rfl, _, bound, unassigned, offers⟩ := pickLit_spec h.offers result
  have decided := h.decide propagated unassigned bound
  have sound : (({ e with branching } : Engine).decide l).Sound L.aside :=
    { decided.sound with }
  exact
    { sound
      apart := { decided.apart with }
      listed := { decided.listed with }
      guarded := { decided.guarded with }
      guards := ⟨decided.guards.clauses, decided.guards.pairs⟩
      offers := .decide_picked offers
      upheld := fun σ holds => { decided.upheld σ holds with }
      held := fun c given => (decided.held c given).keeps (.of_same (fun _ fact => fact) rfl) }

end Engine

end Cdcl
