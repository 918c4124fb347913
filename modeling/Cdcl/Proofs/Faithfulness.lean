import Cdcl.Proofs.Backtracking
import Cdcl.Proofs.LearntClauses

/-!
# An engine and the clauses it was given

`Engine.Faithful` ties an engine to a formula: the engine stores nothing that the formula does not
imply, and its original clauses and facts imply the formula. All upkeep and all of the search keep
this up, which is what the verdicts rest on.

Original clauses of two literals are not told apart from learnt ones in the watch lists, and the
lists of clauses lag behind while they are worked on. What is meant is kept in a ledger.
-/

namespace Cdcl

/-- The clauses an engine answers for. -/
structure Ledger where
  /-- Original clauses of the arena. -/
  originals : List ClauseId
  learnts : List ClauseId
  /-- Original clauses of two literals, each in both orders. -/
  pairs : List (Lit × Lit)
  /-- Original clauses that are set aside. -/
  aside : List ClauseId := []

namespace Ledger

def addOriginal (L : Ledger) (id : ClauseId) : Ledger :=
  { L with originals := L.originals ++ [id] }

def addLearnt (L : Ledger) (id : ClauseId) : Ledger := { L with learnts := L.learnts ++ [id] }

/-- The ledger with one more clause of two literals. -/
def addPair (L : Ledger) (a b : Lit) : Ledger :=
  { L with pairs := (a, b) :: (b, a) :: L.pairs }

end Ledger

namespace Engine

/-- Does the assignment satisfy the original clauses and the facts? -/
structure Grounded (L : Ledger) (σ : Valuation) (e : Engine) : Prop where
  clauses : ∀ id ∈ L.aside ++ L.originals, σ.satisfiesClause (e.clause id).lits.toList
  pairs : ∀ a b, (a, b) ∈ L.pairs → σ.satisfiesLit a ∨ σ.satisfiesLit b
  facts : ∀ l ∈ e.trail.facts, σ.satisfiesLit l

/-- Why a clause is implied by what is kept of the original clauses and the facts: it has a true
literal for good, it contains a clause that is kept, or it says nothing. -/
inductive Held (L : Ledger) (e : Engine) (c : List Lit) : Prop where
  | fact (l : Lit) (inside : l ∈ c) (fact : l ∈ e.trail.facts)
  | clause (id : ClauseId) (member : id ∈ L.aside ++ L.originals)
      (sub : ∀ l ∈ (e.clause id).lits, l ∈ c)
  | pair (a b : Lit) (member : (a, b) ∈ L.pairs) (left : a ∈ c) (right : b ∈ c)
  | tautology (l : Lit) (inside : l ∈ c) (opposite : l.neg ∈ c)

/-- What the first engine keeps under its ledger is held by the second one under the other. -/
structure Keeps (e : Engine) (L : Ledger) (f : Engine) (K : Ledger) : Prop where
  facts : ∀ l ∈ e.trail.facts, l ∈ f.trail.facts
  pairs : ∀ p ∈ L.pairs, p ∈ K.pairs
  clauses : ∀ id ∈ L.aside ++ L.originals, f.Held K (e.clause id).lits.toList

/-- The clauses of the ledger are told apart, and the learnt ones are in use. -/
structure Listed (L : Ledger) (e : Engine) : Prop where
  originals_nodup : (L.aside ++ L.originals).Nodup
  learnts_nodup : L.learnts.Nodup
  disjoint : ∀ id ∈ L.learnts, id ∉ L.aside ++ L.originals
  learnt : ∀ id ∈ L.learnts, (e.clause id).isRemoved = false ∧ (e.clause id).isLearnt = true
  symmetric : ∀ a b, (a, b) ∈ L.pairs → (b, a) ∈ L.pairs ∧ a.var ≠ b.var

/-- The ledger of an engine that is at rest. -/
def ledger (e : Engine) (pairs : List (Lit × Lit)) : Ledger :=
  { originals := e.originals.toList, learnts := e.learnts.toList, pairs }

/-- The engine is in order but for the watches of frozen clauses, and its original clauses are
covered up to position `m` of the trail. -/
structure Loose (L : Ledger) (m : Nat) (e : Engine) : Prop where
  sound : e.Sound L.aside
  listed : e.Listed L
  guarded : e.Guarded L.aside L.originals L.pairs
  guards : e.Guards L.originals L.pairs m
  offers : e.Offers

/-- The engine is in order. -/
structure Regular (L : Ledger) (m : Nat) (e : Engine) : Prop extends e.Loose L m where
  apart : e.FrozenApart

/-- What is stored is equivalent to a formula. -/
structure Equivalent (F : List (List Lit)) (L : Ledger) (e : Engine) : Prop where
  upheld : ∀ σ : Valuation, σ.satisfies F → e.Respected σ
  held : ∀ c ∈ F, e.Held L c

/-- A regular engine that is equivalent to a formula. -/
structure Faithful (F : List (List Lit)) (L : Ledger) (m : Nat) (e : Engine) : Prop
    extends e.Regular L m, e.Equivalent F L

/-- Options, variables and what may be decided are the same, and so is whether the clauses are known
to be contradictory. -/
structure Scoped (e f : Engine) : Prop where
  opts : f.opts = e.opts
  numVars : f.numVars = e.numVars
  decision : f.branching.decision = e.branching.decision
  ok : f.ok = e.ok

theorem Scoped.refl (e : Engine) : e.Scoped e := ⟨rfl, rfl, rfl, rfl⟩

theorem Scoped.trans {e f g : Engine} (h : e.Scoped f) (k : f.Scoped g) : e.Scoped g :=
  ⟨k.opts.trans h.opts, k.numVars.trans h.numVars, k.decision.trans h.decision, k.ok.trans h.ok⟩

/-- Restarts and reductions are due as before, too. -/
structure Framed (e f : Engine) : Prop extends e.Scoped f where
  paced : e.policy.Paced f.policy

theorem Framed.refl (e : Engine) : e.Framed e := ⟨.refl e, .refl _⟩

theorem Framed.trans {e f g : Engine} (h : e.Framed f) (k : f.Framed g) : e.Framed g :=
  ⟨h.toScoped.trans k.toScoped, h.paced.trans k.paced⟩

theorem Extends.framed {e f : Engine} (h : e.Extends f) : e.Framed f :=
  ⟨⟨h.opts, h.numVars, h.decision, h.ok⟩, h.paced⟩

theorem Rescored.framed {e f : Engine} (h : e.Rescored f) : e.Framed f :=
  ⟨⟨h.opts, h.numVars, h.decision, h.ok⟩, h.paced⟩

theorem Examined.framed {e f : Engine} (h : e.Examined f) : e.Framed f :=
  ⟨⟨h.opts, h.numVars, h.decision, h.ok⟩, h.paced⟩

variable {F : List (List Lit)} {L : Ledger} {m n : Nat} {e f : Engine} {ids aside : List ClauseId}
  {pairs : List (Lit × Lit)}

/-! ### What is kept -/

section Keeps

variable {K : Ledger} {c d : List Lit}

theorem Held.mono (h : e.Held L c) (sub : ∀ l ∈ c, l ∈ d) : e.Held L d := by
  cases h with
  | fact l inside fact => exact .fact l (sub l inside) fact
  | clause id member inside => exact .clause id member fun l here => sub l (inside l here)
  | pair a b member left right => exact .pair a b member (sub a left) (sub b right)
  | tautology l inside opposite => exact .tautology l (sub l inside) (sub l.neg opposite)

theorem Held.keeps (h : e.Held L c) (k : e.Keeps L f K) : f.Held K c := by
  cases h with
  | fact l inside fact => exact .fact l inside (k.facts l fact)
  | clause id member sub =>
    exact (k.clauses id member).mono fun l inside => sub l (Array.mem_toList_iff.mp inside)
  | pair a b member left right => exact .pair a b (k.pairs _ member) left right
  | tautology l inside opposite => exact .tautology l inside opposite

/-- A clause that is held is satisfied by what it is held by. -/
theorem Held.satisfied (h : e.Held L c) {σ : Valuation} (grounded : e.Grounded L σ) :
    σ.satisfiesClause c := by
  cases h with
  | fact l inside fact => exact ⟨l, inside, grounded.facts l fact⟩
  | clause id member sub =>
    obtain ⟨l, inside, holds⟩ := grounded.clauses id member
    exact ⟨l, sub l (Array.mem_toList_iff.mp inside), holds⟩
  | pair a b member left right =>
    rcases grounded.pairs a b member with holds | holds
    · exact ⟨a, left, holds⟩
    · exact ⟨b, right, holds⟩
  | tautology l inside opposite =>
    by_cases holds : σ.satisfiesLit l
    · exact ⟨l, inside, holds⟩
    · exact ⟨l.neg, opposite, (σ.satisfiesLit_neg l).mpr holds⟩

/-- Clauses that lose nothing but literals are kept. -/
theorem Keeps.of_sub (facts : ∀ l ∈ e.trail.facts, l ∈ f.trail.facts)
    (pairs : ∀ p ∈ L.pairs, p ∈ K.pairs)
    (members : ∀ id ∈ L.aside ++ L.originals, id ∈ K.aside ++ K.originals)
    (sub : ∀ id ∈ L.aside ++ L.originals, ∀ l ∈ (f.clause id).lits, l ∈ (e.clause id).lits) :
    e.Keeps L f K where
  facts := facts
  pairs := pairs
  clauses := fun id member =>
    .clause id (members id member) fun l inside => Array.mem_toList_iff.mpr (sub id member l inside)

/-- Nothing but what plays no part in it is changed. -/
theorem Keeps.of_same (facts : ∀ l ∈ e.trail.facts, l ∈ f.trail.facts) (arena : f.arena = e.arena) :
    e.Keeps L f L :=
  .of_sub facts (fun _ => id) (fun _ => id) fun id _ l inside => by
    rw [Engine.clause, arena] at inside
    exact inside

theorem Keeps.trans {g : Engine} {M : Ledger} (h : e.Keeps L f K) (k : f.Keeps K g M) :
    e.Keeps L g M where
  facts := fun l fact => k.facts l (h.facts l fact)
  pairs := fun p member => k.pairs p (h.pairs p member)
  clauses := fun id member => (h.clauses id member).keeps k

theorem Equivalent.keeps (h : e.Equivalent F L) (k : e.Keeps L f K)
    (upheld : ∀ σ : Valuation, σ.satisfies F → f.Respected σ) : f.Equivalent F K :=
  ⟨upheld, fun c given => (h.held c given).keeps k⟩

/-- The original clauses and the facts imply the formula. -/
theorem Equivalent.determined (h : e.Equivalent F L) {σ : Valuation} (grounded : e.Grounded L σ) :
    σ.satisfies F := fun c given => (h.held c given).satisfied grounded

end Keeps

/-! ### Books and ledgers -/

section Books

variable {originals learnts : Array ClauseId} {recentLearnts : Nat} {policy : Policy}
  {stats : Statistics} {tally : Tally} {lbdCounts : DenseMap Nat Nat} {clauseIncrement : Float}
  {ok : Bool} {levelCounter : LevelCounter} {simplifiedAt : Option Nat}

/-- Counts, policies and the lists of clauses that the ledger stands for do not matter. -/
theorem Loose.books (h : e.Loose L m) :
    ({ e with
        originals, learnts, recentLearnts, policy, stats, tally, lbdCounts, clauseIncrement, ok,
        levelCounter, simplifiedAt } : Engine).Loose L m where
  sound := { h.sound with }
  listed := { h.listed with }
  guarded := { h.guarded with }
  guards := ⟨h.guards.clauses, h.guards.pairs⟩
  offers := h.offers

theorem Regular.books (h : e.Regular L m) :
    ({ e with
        originals, learnts, recentLearnts, policy, stats, tally, lbdCounts, clauseIncrement, ok,
        levelCounter, simplifiedAt } : Engine).Regular L m where
  toLoose := h.toLoose.books
  apart := { h.apart with }

theorem Equivalent.books (h : e.Equivalent F L) :
    ({ e with
        originals, learnts, recentLearnts, policy, stats, tally, lbdCounts, clauseIncrement, ok,
        levelCounter, simplifiedAt } : Engine).Equivalent F L :=
  h.keeps (.of_same (fun _ => id) rfl) fun σ holds => { h.upheld σ holds with }

theorem Faithful.books (h : e.Faithful F L m) :
    ({ e with
        originals, learnts, recentLearnts, policy, stats, tally, lbdCounts, clauseIncrement, ok,
        levelCounter, simplifiedAt } : Engine).Faithful F L m :=
  ⟨h.toRegular.books, h.toEquivalent.books⟩

end Books

/-! ### Growing trails -/

theorem Listed.extends (h : e.Listed L) (grown : e.Extends f) : f.Listed L where
  originals_nodup := h.originals_nodup
  learnts_nodup := h.learnts_nodup
  disjoint := h.disjoint
  learnt := fun id member =>
    ⟨(grown.clauses id).removed.trans (h.learnt id member).1,
      (grown.clauses id).learnt.trans (h.learnt id member).2⟩
  symmetric := h.symmetric

theorem Extends.offers (h : e.Extends f) {n n' : Nat} (before : e.trail.Coherent n)
    (after : f.trail.Coherent n') (offers : e.Offers) : f.Offers := by
  unfold Offers at *
  rw [h.numVars]
  refine (offers.congr h.heap h.decision).weaken fun v free => ?_
  rw [Trail.isUnassigned_iff, after.undecided_iff] at free
  rw [Trail.isUnassigned_iff, before.undecided_iff]
  exact fun l member => free l (h.mem member)

theorem Extends.keeps (h : e.Extends f) : e.Keeps L f L :=
  .of_sub (fun _ => h.facts_subset) (fun _ => id) (fun _ => id) fun id _ l inside =>
    ((h.clauses id).mem l).mp inside

/-- The original clauses of the ledger are in use. -/
theorem Loose.live (h : e.Loose L m) {id : ClauseId} (member : id ∈ L.aside ++ L.originals) :
    (e.clause id).isRemoved = false := by
  rcases List.mem_append.mp member with member | member
  · exact isRemoved_of_isAttached (h.sound.tracked.usable id member)
  · exact isRemoved_of_isAttached (h.guarded.clauses id member).1

/-- What propagation does keeps an engine in order. -/
theorem Loose.extends (h : e.Loose L m) (grown : e.Extends f) (sound : f.Sound L.aside)
    (guards : f.Guards L.originals L.pairs n) : f.Loose L n where
  sound := sound
  listed := h.listed.extends grown
  guarded := h.guarded.extends grown
  guards := guards
  offers := grown.offers h.sound.trail sound.trail h.offers

theorem Equivalent.extends (h : e.Equivalent F L) (grown : e.Extends f) {k : Nat}
    (coherent : e.trail.Coherent k) (sound : f.Sound aside) : f.Equivalent F L :=
  h.keeps grown.keeps fun σ holds => grown.respected coherent sound (h.upheld σ holds)

theorem Faithful.extends (h : e.Faithful F L m) (grown : e.Extends f) (regular : f.Regular L n) :
    f.Faithful F L n :=
  ⟨regular, h.toEquivalent.extends grown h.sound.trail regular.sound⟩

theorem Guards.rescored (h : e.Guards ids pairs m) (r : e.Rescored f) : f.Guards ids pairs m where
  clauses := by
    intro id member w watched before
    rw [r.trail] at before ⊢
    rw [(r.alike id).lits]
    exact h.clauses id member w (r.watched watched) before
  pairs := by
    intro a b member before
    rw [r.trail] at before ⊢
    exact h.pairs a b member before

theorem Loose.rescored (h : e.Loose L m) (r : e.Rescored f) : f.Loose L m :=
  h.extends (.of_rescored r) (r.sound h.sound) (h.guards.rescored r)

theorem Regular.rescored (h : e.Regular L m) (r : e.Rescored f) : f.Regular L m :=
  ⟨h.toLoose.rescored r, r.frozenApart h.apart⟩

theorem Faithful.rescored (h : e.Faithful F L m) (r : e.Rescored f) : f.Faithful F L m :=
  h.extends (.of_rescored r) (h.toRegular.rescored r)

theorem Offers.examined (h : e.Offers) (x : e.Examined f) : f.Offers := by
  unfold Offers
  rw [x.numVars, x.trail]
  exact x.offers _ _ h

theorem Faithful.examined (h : e.Faithful F L m) (x : e.Examined f)
    (unseen : ∀ v, f.seen.get v = .unseen) : f.Faithful F L m := by
  have r : e.Rescored { f with branching := e.branching, seen := e.seen } :=
    { x with seen := rfl, heap := rfl, decision := rfl }
  have kept := h.rescored r
  exact
    { sound := x.sound h.sound unseen
      apart := x.frozenApart h.apart
      listed := { kept.listed with }
      guarded := { kept.guarded with }
      guards := ⟨kept.guards.clauses, kept.guards.pairs⟩
      offers := h.offers.examined x
      upheld := fun σ holds => x.respected (h.upheld σ holds)
      held := fun c given => (kept.held c given).keeps (.of_same (fun _ => id) rfl) }

/-- Propagation covers all of the trail, or finds a conflict. -/
theorem Faithful.propagate (h : e.Faithful F L e.trail.head) {conflict : Option Conflict}
    (result : e.propagate = (f, conflict)) :
    f.Faithful F L e.trail.head ∧ e.Extends f ∧
      (conflict = none → f.Faithful F L f.trail.head ∧ f.trail.head = f.trail.lits.size) ∧
      ∀ c, conflict = some c → f.IsConflict c := by
  obtain ⟨sound, apart, grown, finished, found⟩ := propagate_sound h.sound h.apart result
  obtain ⟨guards, more⟩ := propagate_guards h.sound h.apart h.guarded h.guards result
  have extended {n : Nat} (guards : f.Guards L.originals L.pairs n) : f.Faithful F L n :=
    h.extends grown ⟨h.toLoose.extends grown sound guards, apart⟩
  exact ⟨extended guards, grown, fun none => ⟨extended (more none), finished none⟩, found⟩

/-- A conflict at level zero refutes the formula. -/
theorem Faithful.refuted (h : e.Faithful F L m) {c : Conflict} (conflict : e.IsConflict c)
    (zero : e.trail.level = 0) (σ : Valuation) : ¬ σ.satisfies F := fun holds =>
  refuted_of_conflict h.sound conflict zero σ (h.upheld σ holds)

/-! ### Going back -/

theorem Faithful.cancelTo (h : e.Faithful F L m) (marks : ∀ k ∈ e.trail.marks, k ≤ m) {k : Nat}
    (below : k < e.trail.level) : (e.cancelTo k).Faithful F L (e.cancelTo k).trail.head where
  sound := h.sound.cancelTo k
  apart := h.apart.cancelTo k
  listed := by
    rw [cancelTo_eq below]
    exact { h.listed with }
  guarded := h.guarded.cancelTo k
  guards := by
    refine h.guards.cancelTo h.sound.trail below ?_
    rw [Trail.startAbove_of_lt below]
    exact marks _ (Array.getElem_mem below)
  offers := h.offers.cancelTo h.sound.trail k
  toEquivalent := by
    refine h.toEquivalent.keeps (.of_same (fun l fact => ?_) ?_)
      fun σ holds => (respected_cancelTo h.sound.trail k).mpr (h.upheld σ holds)
    · rw [trail_cancelTo below]
      exact (h.sound.trail.mem_facts_cancelTo below).mpr fact
    · rw [cancelTo_eq below]

/-- Going back to level zero or staying there. -/
theorem Faithful.cancelTo_head (h : e.Faithful F L e.trail.head) (k : Nat) :
    (e.cancelTo k).Faithful F L (e.cancelTo k).trail.head := by
  by_cases below : k < e.trail.level
  · exact h.cancelTo h.sound.trail.marks_le below
  · rw [cancelTo_of_le (by omega)]
    exact h

theorem framed_cancelTo (e : Engine) (k : Nat) : e.Framed (e.cancelTo k) := by
  by_cases below : k < e.trail.level
  · have decision : (e.cancelTo k).branching.decision = e.branching.decision := by
      unfold Engine.cancelTo
      rw [if_neg (by omega)]
      exact Branching.decision_foldl_noteUnassigned _ _
    rw [cancelTo_eq below]
    exact ⟨⟨rfl, rfl, decision, rfl⟩, .refl _⟩
  · rw [cancelTo_of_le (by omega)]
    exact .refl e

theorem ledger_cancelTo (e : Engine) (k : Nat) : (e.cancelTo k).ledger pairs = e.ledger pairs := by
  by_cases below : k < e.trail.level
  · rw [cancelTo_eq below]
    rfl
  · rw [cancelTo_of_le (by omega)]

/-! ### Assigning -/

/-- Coverage does not depend on reasons. -/
theorem Guards.assign (h : e.Guards ids pairs m) {l : Lit} (why : Reason)
    (coherent : e.trail.Coherent e.numVars) (unassigned : e.trail.value l.var = .undecided)
    (bound : l.var.index < e.numVars) (le : m ≤ e.trail.lits.size) :
    (e.assign l why).Guards ids pairs m := by
  have grown : e.Extends (e.assign l (.binary l)) :=
    .assign e (fun _ member => coherent.var_ne unassigned member) nofun
  have guards := h.extends_same grown coherent (coherent.assign _ unassigned bound) le
    fun _ _ => rfl
  exact ⟨guards.clauses, guards.pairs⟩

theorem Offers.assign (h : e.Offers) {l : Lit} (why : Reason)
    (coherent : e.trail.Coherent e.numVars) (unassigned : e.trail.value l.var = .undecided)
    (bound : l.var.index < e.numVars) : (e.assign l why).Offers := by
  have grown : e.Extends (e.assign l (.binary l)) :=
    .assign e (fun _ member => coherent.var_ne unassigned member) nofun
  exact grown.offers coherent (coherent.assign (.binary l) unassigned bound) h

theorem Loose.assign (h : e.Loose L m) {l : Lit} {why : Reason}
    (unassigned : e.trail.value l.var = .undecided) (bound : l.var.index < e.numVars)
    (explained : e.Explains why e.trail.lits.size l) (le : m ≤ e.trail.lits.size) :
    (e.assign l why).Loose L m where
  sound := h.sound.assign unassigned bound explained
  listed := { h.listed with }
  guarded := { h.guarded with }
  guards := h.guards.assign why h.sound.trail unassigned bound le
  offers := h.offers.assign why h.sound.trail unassigned bound

theorem Regular.assign (h : e.Regular L m) {l : Lit} {why : Reason}
    (unassigned : e.trail.value l.var = .undecided) (bound : l.var.index < e.numVars)
    (explained : e.Explains why e.trail.lits.size l) (le : m ≤ e.trail.lits.size) :
    (e.assign l why).Regular L m :=
  ⟨h.toLoose.assign unassigned bound explained le, { h.apart with }⟩

/-- A literal that is implied by what is stored may be assigned. -/
theorem Faithful.assign (h : e.Faithful F L m) {l : Lit} {why : Reason}
    (unassigned : e.trail.value l.var = .undecided) (bound : l.var.index < e.numVars)
    (explained : e.Explains why e.trail.lits.size l) (implied : why ≠ .decision)
    (le : m ≤ e.trail.lits.size) : (e.assign l why).Faithful F L m :=
  h.extends (.assign e (fun _ member => h.sound.trail.var_ne unassigned member) implied)
    (h.toRegular.assign unassigned bound explained le)

theorem framed_assign (e : Engine) (l : Lit) (why : Reason) : e.Framed (e.assign l why) :=
  { Framed.refl e with decision := Branching.decision_noteAssigned .. }

theorem mem_facts_assign {t : Trail} {l : Lit} {why : Reason} {q : Lit} {k : Nat}
    (coherent : t.Coherent k) :
    q ∈ (t.assign l why).facts ↔ q ∈ t.facts ∨ t.level = 0 ∧ q = l := by
  by_cases zero : t.level = 0
  · have later : (t.assign l why).level = 0 := zero
    rw [Trail.Coherent.mem_facts_of_level_zero later, Trail.Coherent.mem_facts_of_level_zero zero]
    simp [Trail.assign, Array.mem_push, zero]
  · have same : (t.assign l why).startAbove 0 = t.startAbove 0 := by
      rw [Trail.startAbove_of_lt (by omega : 0 < t.level)]
      exact Trail.startAbove_of_lt (t := t.assign l why) (k := 0) (by change 0 < t.level; omega)
    rw [Trail.Coherent.mem_facts_iff, Trail.Coherent.mem_facts_iff, same,
      Trail.before_assign (coherent.startAbove_le 0)]
    simp [zero]

/-- A literal may be decided, and at level zero if the formula implies it. -/
theorem Faithful.assign_decision (h : e.Faithful F L m) {l : Lit}
    (unassigned : e.trail.value l.var = .undecided) (bound : l.var.index < e.numVars)
    (opens : e.trail.Opens e.trail.lits.size)
    (implied : e.trail.level = 0 → ∀ σ : Valuation, σ.satisfies F → σ.satisfiesLit l)
    (le : m ≤ e.trail.lits.size) : (e.assign l .decision).Faithful F L m where
  toRegular := h.toRegular.assign unassigned bound opens le
  upheld := by
    intro σ holds
    refine { h.upheld σ holds with facts := fun q fact => ?_ }
    rcases (mem_facts_assign h.sound.trail).mp fact with old | ⟨zero, rfl⟩
    · exact (h.upheld σ holds).facts q old
    · exact implied zero σ holds
  held := fun c given =>
    (h.held c given).keeps (.of_same (fun _ fact => Trail.facts_assign_subset fact) rfl)

/-! ### Between the steps of a search -/

/-- An engine that answers for a formula and is not known to be contradictory. -/
structure Settled (F : List (List Lit)) (e : Engine) : Prop where
  faithful : ∃ pairs, e.Faithful F (e.ledger pairs) e.trail.head
  ok : e.ok = true

theorem Settled.offers (h : e.Settled F) : e.Offers := by
  obtain ⟨pairs, faithful⟩ := h.faithful
  exact faithful.offers

/-- An engine that answers for a formula and counts the last learnt clauses, at most `n` of them, among
those that it rests on, as if they had been given. -/
def Recalls (G : List (List Lit)) (n : Nat) (e : Engine) : Prop :=
  ∃ pairs olds recents, e.learnts.toList = olds ++ recents ∧ recents.length ≤ n ∧
    e.Faithful G { originals := recents ++ e.originals.toList, learnts := olds, pairs } e.trail.head

theorem Settled.recalls (h : e.Settled F) : e.Recalls F 0 := by
  obtain ⟨pairs, faithful⟩ := h.faithful
  exact ⟨pairs, e.learnts.toList, [], (List.append_nil _).symm, Nat.le_refl 0, faithful⟩

theorem Recalls.settled (h : e.Recalls F 0) (ok : e.ok = true) : e.Settled F := by
  obtain ⟨pairs, olds, recents, learnts, le, faithful⟩ := h
  cases List.eq_nil_of_length_eq_zero (Nat.le_zero.mp le)
  rw [List.append_nil] at learnts
  refine ⟨⟨pairs, ?_⟩, ok⟩
  rw [Engine.ledger, learnts]
  exact faithful

theorem Recalls.sound (h : e.Recalls F n) : e.Sound [] := by
  obtain ⟨_, _, _, _, _, faithful⟩ := h
  exact faithful.sound

theorem Recalls.propagate (h : e.Recalls F n) {conflict : Option Conflict}
    (result : e.propagate = (f, conflict)) :
    e.Extends f ∧ (conflict = none → f.Recalls F n ∧ f.trail.head = f.trail.lits.size) ∧
      ∀ c, conflict = some c → f.trail.level = 0 → ∀ σ : Valuation, ¬ σ.satisfies F := by
  obtain ⟨pairs, olds, recents, learnts, le, faithful⟩ := h
  obtain ⟨partial_, grown, finished, found⟩ := faithful.propagate result
  refine ⟨grown, fun none => ?_, fun c some => partial_.refuted (found c some)⟩
  obtain ⟨kept, propagated⟩ := finished none
  rw [← grown.originals] at kept
  rw [← grown.learnts] at learnts
  exact ⟨⟨pairs, olds, recents, learnts, le, kept⟩, propagated⟩

theorem Recalls.cancelTo (h : e.Recalls F n) (k : Nat) : (e.cancelTo k).Recalls F n := by
  obtain ⟨pairs, olds, recents, learnts, le, faithful⟩ := h
  have same : (e.cancelTo k).ledger pairs = e.ledger pairs := ledger_cancelTo e k
  rw [Engine.ledger, Engine.ledger, Ledger.mk.injEq] at same
  refine ⟨pairs, olds, recents, same.2.1.trans learnts, le, ?_⟩
  rw [same.1]
  exact faithful.cancelTo_head k

/-- A settled engine at level zero that has nothing left to propagate. -/
structure Quiet (F : List (List Lit)) (e : Engine) : Prop extends e.Settled F where
  zero : e.trail.level = 0
  propagated : e.trail.head = e.trail.lits.size

/-- An engine that is known to be contradictory, as the formula is. -/
structure Refuted (F : List (List Lit)) (e : Engine) : Prop where
  notOk : e.ok = false
  unsatisfiable : ∀ σ : Valuation, ¬ σ.satisfies F

/-- A faithful engine at level zero, with nothing left to propagate, that came from another by upkeep
of its clauses. -/
structure Upkept (F : List (List Lit)) (originals learnts : List ClauseId) (e b : Engine) : Prop where
  faithful : ∃ pairs, e.Faithful F { originals, learnts, pairs } e.trail.head
  framed : b.Framed e
  books : e.originals = b.originals ∧ e.learnts = b.learnts
  zero : e.trail.level = 0
  propagated : e.trail.head = e.trail.lits.size

end Engine

end Cdcl
