import Cdcl.Proofs.HeapContents

/-!
# Candidates for decisions

The heap of the branching heuristic holds every variable that could be decided. A decision variable
leaves it only by being picked, and comes back when it is unassigned.
-/

namespace Cdcl

namespace Branching

/-- Every free decision variable below `n` is in the heap, and no variable past `n`. -/
structure Offers (n : Nat) (free : Var → Prop) (b : Branching) : Prop where
  linked : b.heap.Linked
  bounded : ∀ v ∈ b.heap.items, v.index < n
  complete : ∀ v, v.index < n → b.decision.get v = true → free v → v ∈ b.heap.items

variable {n : Nat} {free : Var → Prop} {b : Branching}

theorem Offers.weaken (h : b.Offers n free) {less : Var → Prop} (sub : ∀ v, less v → free v) :
    b.Offers n less :=
  ⟨h.linked, h.bounded, fun v bound allowed isFree => h.complete v bound allowed (sub v isFree)⟩

/-- Only the heap and the decision flags matter. -/
theorem Offers.congr (h : b.Offers n free) {c : Branching} (heap : c.heap = b.heap)
    (decision : c.decision = b.decision) : c.Offers n free := by
  refine ⟨heap ▸ h.linked, heap ▸ h.bounded, ?_⟩
  rw [heap, decision]
  exact h.complete

@[simp] theorem decision_offer (b : Branching) (v : Var) : (b.offer v).decision = b.decision := by
  unfold offer
  split <;> rfl

/-- Offering a variable makes good for its being free again. -/
theorem Offers.offer (h : b.Offers n free) {v : Var} (bound : v.index < n) {more : Var → Prop}
    (sub : ∀ w, more w → free w ∨ w = v) : (b.offer v).Offers n more := by
  have absent_iff : b.heap.contains v = false ↔ v ∉ b.heap.items := by
    rw [← h.linked.contains_iff, Bool.not_eq_true]
  unfold Branching.offer
  split
  next fits =>
    simp only [Bool.and_eq_true, Bool.not_eq_true', absent_iff] at fits
    have inserted := h.linked.insert (before b.activity) fits.2
    refine ⟨inserted.1, fun w member => ?_, fun w wBound allowed isFree => ?_⟩
    · rcases (inserted.2 w).mp member with old | rfl
      · exact h.bounded w old
      · exact bound
    · refine (inserted.2 w).mpr ((sub w isFree).imp_left ?_)
      exact h.complete w wBound allowed
  next skipped =>
    simp only [Bool.and_eq_true, Bool.not_eq_true', absent_iff, not_and, not_not] at skipped
    refine ⟨h.linked, h.bounded, fun w wBound allowed isFree => ?_⟩
    rcases sub w isFree with old | rfl
    · exact h.complete w wBound allowed old
    · exact skipped allowed

theorem Offers.setDecision (h : b.Offers n free) {v : Var} (bound : v.index < n) (allowed : Bool) :
    (b.setDecision v allowed).Offers n free := by
  have others : { b with decision := b.decision.insert v allowed }.Offers n
      (fun w => free w ∧ w ≠ v) := by
    refine ⟨h.linked, h.bounded, fun w wBound wAllowed ⟨isFree, other⟩ => ?_⟩
    simp only [DenseMap.get_insert, if_neg (Ne.symm other)] at wAllowed
    exact h.complete w wBound wAllowed isFree
  exact others.offer bound fun w isFree => by
    by_cases same : w = v
    · exact .inr same
    · exact .inl ⟨isFree, same⟩

theorem Offers.addVar (h : b.Offers n free) (polarity : Bool) {more : Var → Prop}
    (sub : ∀ w, w.index < n → more w → free w) : (b.addVar ⟨n⟩ polarity).Offers (n + 1) more := by
  refine ⟨h.linked, fun w member => Nat.lt_succ_of_lt (h.bounded w member), ?_⟩
  intro w wBound allowed isFree
  simp only [Branching.addVar, DenseMap.get_insert] at allowed
  split at allowed
  · cases allowed
  next other =>
    have below : w.index < n := by
      have : w.index ≠ n := fun e => other (by cases w; cases e; rfl)
      omega
    exact h.complete w below allowed (sub w below isFree)

@[simp] theorem heap_noteAssigned (b : Branching) (phaseSaving : Nat) (l : Lit) :
    (b.noteAssigned phaseSaving l).heap = b.heap := by
  simp only [noteAssigned, setPolarity]
  split <;> split <;> rfl

@[simp] theorem decision_noteAssigned (b : Branching) (phaseSaving : Nat) (l : Lit) :
    (b.noteAssigned phaseSaving l).decision = b.decision := by
  simp only [noteAssigned, setPolarity]
  split <;> split <;> rfl

@[simp] theorem decision_noteUnassigned (b : Branching) (phaseSaving : Nat) (l : Lit)
    (latest : Bool) : (b.noteUnassigned phaseSaving l latest).decision = b.decision := by
  unfold noteUnassigned setPolarity
  rw [decision_offer]
  split <;> rfl

theorem Offers.noteUnassigned (h : b.Offers n free) {phaseSaving : Nat} {l : Lit} {latest : Bool}
    (bound : l.var.index < n) {more : Var → Prop} (sub : ∀ w, more w → free w ∨ w = l.var) :
    (b.noteUnassigned phaseSaving l latest).Offers n more := by
  unfold Branching.noteUnassigned
  have kept : (if phaseSaving == 1 && latest then b.setPolarity l.var l.positive else b).Offers
      n free := by
    split
    · exact h.congr rfl rfl
    · exact h
  exact kept.offer bound sub

/-- Going back offers all variables that lose their values. -/
theorem Offers.foldl_noteUnassigned {phaseSaving : Nat} (latest : Lit × Nat → Bool)
    (undone : List (Lit × Nat)) (bound : ∀ l ∈ undone, l.1.var.index < n)
    (h : b.Offers n free) {more : Var → Prop}
    (sub : ∀ w, more w → free w ∨ ∃ l ∈ undone, w = l.1.var) :
    (undone.foldl (fun b l => b.noteUnassigned phaseSaving l.1 (latest l)) b).Offers n more := by
  induction undone generalizing b free with
  | nil => exact h.weaken fun w isFree => by simpa using sub w isFree
  | cons l undone ih =>
    rw [List.foldl_cons]
    refine ih (fun m member => bound m (List.mem_cons_of_mem _ member))
      (h.noteUnassigned (bound l List.mem_cons_self) fun w (back : free w ∨ w = l.1.var) => back) ?_
    intro w isFree
    rcases sub w isFree with old | ⟨m, member, rfl⟩
    · exact .inl (.inl old)
    · rcases List.mem_cons.mp member with rfl | member
      · exact .inl (.inr rfl)
      · exact .inr ⟨m, member, rfl⟩

theorem decision_foldl_noteUnassigned {phaseSaving : Nat} {latest : Lit × Nat → Bool}
    (undone : List (Lit × Nat)) (b : Branching) :
    (undone.foldl (fun b l => b.noteUnassigned phaseSaving l.1 (latest l)) b).decision =
      b.decision := by
  induction undone generalizing b with
  | nil => rfl
  | cons l undone ih => rw [List.foldl_cons, ih, decision_noteUnassigned]

theorem Offers.rebuild (h : b.Offers n free) {unassigned : List Var} (distinct : unassigned.Nodup)
    (bound : ∀ v ∈ unassigned, v.index < n) (all : ∀ v, v.index < n → free v → v ∈ unassigned) :
    (b.rebuild unassigned).Offers n free := by
  have built := h.linked.build (before b.activity)
    (distinct.filter fun v => b.decision.get v)
  refine ⟨built.1, fun v member => ?_, fun v vBound allowed isFree => ?_⟩
  · exact bound v (List.mem_filter.mp ((built.2 v).mp member)).1
  · exact (built.2 v).mpr (List.mem_filter.mpr ⟨all v vBound isFree, allowed⟩)

/-- What taking variables from the heap comes to: it stops at a free decision variable, or the
heap had none. -/
theorem Offers.pickFrom {unassigned : Var → Bool} (fuel : Nat)
    (h : b.Offers n (fun v => unassigned v = true)) (enough : b.heap.items.size ≤ fuel) :
    (b.pickFrom unassigned fuel).2.decision = b.decision ∧
    (b.pickFrom unassigned fuel).2.polarity = b.polarity ∧
    match b.pickFrom unassigned fuel with
    | (some v, c) =>
      v.index < n ∧ unassigned v = true ∧ c.Offers n (fun w => unassigned w = true ∧ w ≠ v)
    | (none, c) =>
      c.Offers n (fun v => unassigned v = true) ∧
        ∀ v, v.index < n → b.decision.get v = true → unassigned v = false := by
  induction fuel generalizing b with
  | zero =>
    have empty : b.heap.items = #[] := Array.eq_empty_of_size_eq_zero (by omega)
    refine ⟨rfl, rfl, h, fun v bound allowed => ?_⟩
    by_contra free
    have := h.complete v bound allowed (by simpa using free)
    simp [empty] at this
  | succ fuel ih =>
    unfold Branching.pickFrom
    split
    next none_left =>
      have empty := (IndexedHeap.pop?_eq_none_iff _ _).mp none_left
      refine ⟨rfl, rfl, h, fun v bound allowed => ?_⟩
      by_contra free
      have := h.complete v bound allowed (by simpa using free)
      simp [empty] at this
    next v heap popped =>
      obtain ⟨linked, members, inside, size⟩ := h.linked.pop popped
      have bounded : ∀ w ∈ heap.items, w.index < n :=
        fun w member => h.bounded w ((members w).mp member).1
      -- Without the variable that was taken out the rest are still offered.
      have others : { b with heap }.Offers n (fun w => unassigned w = true ∧ w ≠ v) :=
        ⟨linked, bounded, fun w bound allowed ⟨isFree, other⟩ =>
          (members w).mpr ⟨h.complete w bound allowed isFree, other⟩⟩
      simp only
      split
      next chosen =>
        simp only [Bool.and_eq_true] at chosen
        exact ⟨rfl, rfl, h.bounded v inside, chosen.1, others⟩
      next rejected =>
        have rest : { b with heap }.Offers n (fun w => unassigned w = true) := by
          refine ⟨linked, bounded, fun w bound allowed isFree => ?_⟩
          refine others.complete w bound allowed ⟨isFree, ?_⟩
          rintro rfl
          exact rejected (by simp [isFree, allowed])
        exact ih rest (by simp only; omega)

/-- What is picked may be decided. -/
theorem decision_of_pickFrom {unassigned : Var → Bool} (fuel : Nat) {v : Var} {c : Branching}
    (picked : b.pickFrom unassigned fuel = (some v, c)) : b.decision.get v = true := by
  induction fuel generalizing b with
  | zero => cases picked
  | succ fuel ih =>
    unfold Branching.pickFrom at picked
    split at picked
    · cases picked
    · dsimp only at picked
      split at picked
      next chosen =>
        cases picked
        exact (Bool.and_eq_true_iff.mp chosen).2
      next =>
        have allowed := ih picked
        exact allowed

theorem Offers.bump (h : b.Offers n free) (v : Var) : (b.bump v).Offers n free := by
  let raised (c : Branching) : Branching :=
    { c with heap := c.heap.raise (before c.activity) v }
  have kept (c : Branching) (start : c.Offers n free) : (raised c).Offers n free := by
    have members := start.linked.raise (before c.activity) v
    refine ⟨members.1, fun w member => start.bounded w ((members.2 w).mp member), ?_⟩
    intro w bound allowed isFree
    exact (members.2 w).mpr (start.complete w bound allowed isFree)
  unfold Branching.bump
  simp only
  split
  · exact kept _ (h.congr rfl rfl)
  · exact kept _ (h.congr rfl rfl)

@[simp] theorem decision_bump (b : Branching) (v : Var) : (b.bump v).decision = b.decision := by
  unfold Branching.bump
  simp only
  split <;> rfl

end Branching

end Cdcl
