import Cdcl.Proofs.FrozenWatches
import Cdcl.Proofs.Wiring

/-!
# The steps of unit propagation

Unit propagation derives the last literal of a clause once its other literals are refuted. A frozen
clause derives nothing, but is a conflict once all of its literals are refuted.

The engine visits only the clauses that watch the opposite of the literal at hand, and not all of
those. That nothing is missed rests on what holds of the literals before the head of the trail: a
clause with a watch that became false there is satisfied. Each visit extends this to one more
clause, and all visits for a literal to one more position. Levels and reasons play no part.

## Main results

- `Touring.visit`, `Touring.clash`: what a single visit of a watched clause comes to.
- `Onward.propagateLit`: the visits for one literal extend what holds of the literals before it.
-/

namespace Cdcl

/-- What unit propagation derives: what is given, and the last literal of each clause whose other
literals are refuted. A literal that is there twice is another one. -/
inductive UnitDerived (clauses : List Lit → Prop) (given : Lit → Prop) : Lit → Prop
  | given {l : Lit} (holds : given l) : UnitDerived clauses given l
  | unit {c : List Lit} {l : Lit} (clause : clauses c) (member : l ∈ c)
    (others : ∀ m ∈ c.erase l, UnitDerived clauses given m.neg) : UnitDerived clauses given l

/-- Nothing is derived but what is in every set that is closed under unit propagation. -/
theorem UnitDerived.of_closed {clauses : List Lit → Prop} {given closed : Lit → Prop}
    (start : ∀ l, given l → closed l)
    (step : ∀ c, clauses c → ∀ l ∈ c, (∀ m ∈ c.erase l, closed m.neg) → closed l) {l : Lit}
    (derived : UnitDerived clauses given l) : closed l := by
  induction derived with
  | given holds => exact start _ holds
  | unit clause member _ ih => exact step _ clause _ member ih

/-- Before the last of `n + 1` literals there are `n`. -/
theorem Trail.before_succ {t : Trail} {p : Lit} {n : Nat} (at_n : t.lits[n]? = some p) {l : Lit} :
    t.Before (n + 1) l ↔ l = p ∨ t.Before n l := by
  constructor
  · rintro ⟨j, below, at_j⟩
    by_cases last : j = n
    · subst last
      rw [at_n] at at_j
      cases at_j
      exact .inl rfl
    · exact .inr ⟨j, by omega, at_j⟩
  · rintro (rfl | before)
    · exact ⟨n, by omega, at_n⟩
    · exact before.mono (Nat.le_succ n)

namespace Engine

variable {aside : List ClauseId} {o e f : Engine} {p : Lit} {n m : Nat} {id : ClauseId}
  {conflict : Option Conflict}

/-- Does the clause take part in propagation? -/
def TakesPart (aside : List ClauseId) (e : Engine) (id : ClauseId) : Prop :=
  (e.clause id).isAttached = true ∧ id ∉ aside

/-- The clauses of two literals, and those that take part in propagation. -/
inductive InForce (aside : List ClauseId) (e : Engine) : List Lit → Prop
  | binary {p q : Lit} (stored : q ∈ e.watches.binary.get p) : InForce aside e [p.neg, q]
  | long {id : ClauseId} (takesPart : e.TakesPart aside id) :
    InForce aside e (e.clause id).lits.toList

/-- Unit propagation from the trail derives the literal. -/
def Derives (aside : List ClauseId) (e : Engine) (l : Lit) : Prop :=
  UnitDerived (e.InForce aside) (· ∈ e.trail.lits) l

/-- Unit propagation from the trail refutes all literals of the clause. -/
def Refutes (aside : List ClauseId) (e : Engine) (c : List Lit) : Prop :=
  ∀ l ∈ c, e.Derives aside l.neg

/-- If a watch of the clause became false before position `m`, then the clause is satisfied. -/
def Calm (m : Nat) (e : Engine) (id : ClauseId) : Prop :=
  ∀ w, e.Watched id w → e.trail.Before m w.neg → e.isSatisfied id = true

/-- The literals before position `m` are propagated. -/
structure Propagated (aside : List ClauseId) (m : Nat) (e : Engine) : Prop where
  binary : ∀ p, e.trail.Before m p → ∀ q ∈ e.watches.binary.get p, e.trail.isTrue q = true
  clauses : ∀ id, e.TakesPart aside id → e.Calm m id
  /-- No frozen clause in use watches the opposite of one of them. -/
  frozen : ∀ p, e.trail.Before m p → ∀ w ∈ e.watches.frozen.get p,
    (e.clause w.clause).isRemoved = false → (e.clause w.clause).isFrozen = false

/-- Propagation has come from `o` to `e`, and has met no conflict. -/
structure Onward (aside : List ClauseId) (o e : Engine) : Prop where
  wired : e.Wired aside
  since : o.Unthawed e
  derived : ∀ l ∈ e.trail.lits, o.Derives aside l

/-- Propagation has come from `o` to a conflict, which a visit for `p` has found. -/
structure Clash (aside : List ClauseId) (o : Engine) (p : Lit) (f : Engine) (c : Conflict) :
    Prop where
  wired : f.Wired aside
  grown : o.Extends f
  derived : ∀ l ∈ f.trail.lits, o.Derives aside l
  falsifies : f.Falsifies p.neg c
  takesPart : ∀ id, c = .clause id → f.TakesPart aside id

/-! ### What holds for good -/

theorem Unthawed.takesPart (h : e.Unthawed f) : f.TakesPart aside id ↔ e.TakesPart aside id := by
  rw [TakesPart, TakesPart, h.attached]

theorem calm_of_satisfied (satisfied : e.isSatisfied id = true) : e.Calm m id :=
  fun _ _ _ => satisfied

theorem Calm.mono (h : e.Calm m id) (le : n ≤ m) : e.Calm n id :=
  fun w watched before => h w watched (before.mono le)

/-- A clause stays calm while its watches stay in place and the trail grows. -/
theorem Calm.extends {i j : Nat} (h : e.Calm m id) (grown : e.Extends f)
    (before : e.trail.Assigns i) (after : f.trail.Assigns j) (le : m ≤ e.trail.lits.size)
    (watched : ∀ w, f.Watched id w → e.Watched id w) : f.Calm m id := by
  intro w isWatched falsified
  rw [grown.before le] at falsified
  exact grown.isSatisfied before after (h w (watched w isWatched) falsified)

/-- The other literal of a clause of two. -/
theorem mem_erase_pair {a b m : Lit} (member : m ∈ [a, b].erase b) : m = a := by
  by_cases same : a = b
  · subst same
    simpa using member
  · simpa [List.erase_cons, same] using member

namespace Onward

theorem refl (h : e.Wired aside) : e.Onward aside e :=
  ⟨h, .refl e, fun _ member => .given member⟩

/-- A derived literal is put on the trail. -/
theorem assign (h : Onward aside o e) {l : Lit} {why : Reason}
    (unassigned : e.trail.value l.var = .undecided) (bound : l.var.index < e.numVars)
    (implied : why ≠ .decision) (derives : o.Derives aside l) :
    Onward aside o (e.assign l why) where
  wired := h.wired.assign unassigned bound implied
  since := h.since.trans (.assign (fun m => h.wired.trail.var_ne unassigned (m := m)) implied)
  derived := fun m member => by
    rcases Array.mem_push.mp member with old | rfl
    · exact h.derived m old
    · exact derives

end Onward

/-! ### Clauses of two literals -/

/-- If the other literals of these clauses are not true already, they are put on the trail. -/
theorem Onward.visitBinary {others : List Lit} (h : Onward aside o e) (visits : p ∈ e.trail.lits)
    (stored : ∀ q ∈ others, q ∈ e.watches.binary.get p)
    (result : visitBinary p.neg others e = (f, conflict)) :
    Onward aside o f ∧ e.Unthawed f ∧ f.arena = e.arena ∧ f.watches = e.watches ∧
      (conflict = none → ∀ q ∈ others, f.trail.isTrue q = true) ∧
      ∀ c, conflict = some c → Clash aside o p f c := by
  induction others generalizing e with
  | nil =>
    cases result
    exact ⟨h, .refl _, rfl, rfl, fun _ => nofun, nofun⟩
  | cons q others ih =>
    have here := stored q List.mem_cons_self
    have later := fun r member => stored r (List.mem_cons_of_mem _ member)
    unfold Engine.visitBinary at result
    split at result
    next yes =>
      obtain ⟨onward, unthawed, arena, watches, allTrue, clash⟩ := ih h visits later result
      have holds := unthawed.isTrue_of_assigns h.wired.trail onward.wired.trail
        ((Trail.valueLit_eq_yes_iff _ _).mp yes)
      exact ⟨onward, unthawed, arena, watches,
        fun none => List.forall_mem_cons.mpr ⟨holds, allTrue none⟩, clash⟩
    next no =>
      have fails : e.trail.isFalse p.neg = true := by
        rw [Trail.isFalse_neg]
        exact (h.wired.trail.isTrue_iff p).mpr visits
      cases result
      refine ⟨h, .refl _, rfl, rfl, nofun, ?_⟩
      rintro c ⟨⟩
      refine ⟨h.wired, h.since.toExtends, h.derived, ⟨rfl, ?_, ?_, fails⟩, nofun⟩
      · rw [Lit.neg_neg]
        exact here
      · exact (Trail.valueLit_eq_no_iff _ _).mp no
    next undecided =>
      have unassigned := (Trail.valueLit_eq_undecided_iff e.trail q).mp undecided
      -- The other literal of the pair is false, so that the pair is a unit.
      have derives : o.Derives aside q := by
        have stored : q ∈ o.watches.binary.get p := by rw [← h.since.binary]; exact here
        refine .unit (.binary stored) (by simp) fun m member => ?_
        rw [mem_erase_pair member, Lit.neg_neg]
        exact h.derived p visits
      have assigned : Onward aside o (e.assign q (.binary p.neg)) :=
        h.assign unassigned (h.wired.binary_bounded p q here).2 nofun derives
      obtain ⟨onward, unthawed, arena, watches, allTrue, clash⟩ :=
        ih assigned (Array.mem_push_of_mem q visits) later result
      have step : e.Unthawed (e.assign q (.binary p.neg)) :=
        .assign (fun m => h.wired.trail.var_ne unassigned (m := m)) nofun
      have holds : (e.assign q (.binary p.neg)).trail.isTrue q = true :=
        (Trail.isTrue_assign ..).mpr (.inl rfl)
      refine ⟨onward, step.trans unthawed, arena, watches, fun none => ?_, clash⟩
      exact List.forall_mem_cons.mpr
        ⟨unthawed.isTrue_of_assigns assigned.wired.trail onward.wired.trail holds, allTrue none⟩

/-! ### Watched clauses -/

/-- The list of `p` is being visited, `n` literals before it on the trail: `kept` holds the entries
that stay, `rest` those to come, whose clauses need not be calm yet. -/
structure Touring (aside : List ClauseId) (o : Engine) (n : Nat) (p : Lit) (rest : List Watcher)
    (kept : Array Watcher) (e : Engine) : Prop where
  wired : (e.withList p (kept ++ rest.toArray)).Wired aside
  since : o.Unthawed e
  derived : ∀ l ∈ e.trail.lits, o.Derives aside l
  clean : e.watches.dirty.get p = false
  at_n : e.trail.lits[n]? = some p
  earlier : ∀ id, e.TakesPart aside id → e.Calm n id
  calm : ∀ id, e.TakesPart aside id → (∃ x ∈ rest, x.clause = id) ∨ e.Calm (n + 1) id

namespace Touring

variable {rest : List Watcher} {kept kept' : Array Watcher} {entry : Watcher}

theorem trail (h : Touring aside o n p rest kept e) : e.trail.Assigns e.numVars := h.wired.trail

theorem inside (h : Touring aside o n p rest kept e) : n < e.trail.lits.size :=
  (Array.getElem?_eq_some_iff.mp h.at_n).1

theorem fails (h : Touring aside o n p rest kept e) : e.trail.isFalse p.neg = true := by
  rw [Trail.isFalse_neg]
  exact (h.trail.isTrue_iff p).mpr (Array.mem_of_getElem? h.at_n)

theorem takesPart (h : Touring aside o n p (entry :: rest) kept e) :
    e.TakesPart aside entry.clause :=
  attached_of_mem h.wired.tracked h.clean (by simp)

theorem proper (h : Touring aside o n p (entry :: rest) kept e) :
    (e.clause entry.clause).Proper e.numVars :=
  h.wired.proper entry.clause (isRemoved_of_isAttached h.takesPart.1)

/-- The clause of an entry has been visited and is calm; the others watch no other literals than
before. -/
theorem advance (h : Touring aside o n p (entry :: rest) kept e)
    (wired : (f.withList p (kept' ++ rest.toArray)).Wired aside) (step : e.Unthawed f)
    (derived : ∀ l ∈ f.trail.lits, o.Derives aside l)
    (clean : f.watches.dirty.get p = false)
    (others : ∀ id, id ≠ entry.clause → ∀ w, f.Watched id w → e.Watched id w)
    (done : f.Calm (n + 1) entry.clause) : Touring aside o n p rest kept' f where
  wired := wired
  since := h.since.trans step
  derived := derived
  clean := clean
  at_n := (step.lits n h.inside).trans h.at_n
  earlier := by
    intro id takesPart
    by_cases here : id = entry.clause
    · exact here ▸ done.mono (Nat.le_succ n)
    · exact (h.earlier id (step.takesPart.mp takesPart)).extends step.toExtends h.trail wired.trail
        (Nat.le_of_lt h.inside) (others id here)
  calm := by
    intro id takesPart
    by_cases here : id = entry.clause
    · exact .inr (here ▸ done)
    · rcases h.calm id (step.takesPart.mp takesPart) with ⟨x, listed, same⟩ | calm
      · rcases List.mem_cons.mp listed with rfl | later
        · exact absurd same.symm here
        · exact .inl ⟨x, later, same⟩
      · exact .inr (calm.extends step.toExtends h.trail wired.trail h.inside (others id here))

/-- Turn the clause of the next entry, so that the literal visited comes second. -/
theorem orient (h : Touring aside o n p (entry :: rest) kept e) :
    Touring aside o n p (entry :: rest) kept (e.modifyClause entry.clause (Engine.orient p.neg)) ∧
      e.Unthawed (e.modifyClause entry.clause (Engine.orient p.neg)) ∧
      ((e.modifyClause entry.clause (Engine.orient p.neg)).clause entry.clause).lit 1 = p.neg ∧
      ∀ id w, (e.modifyClause entry.clause (Engine.orient p.neg)).Watched id w → e.Watched id w := by
  have used := isRemoved_of_isAttached h.takesPart.1
  have size := h.proper.size
  have step : e.Unthawed (e.modifyClause entry.clause (Engine.orient p.neg)) :=
    .of_clauses (reordered_orient used p.neg) rfl
  have watched {id : ClauseId} {w : Lit}
      (isWatched : (e.modifyClause entry.clause (Engine.orient p.neg)).Watched id w) :
      e.Watched id w := watched_orient used (by omega) isWatched
  have calm {i : Nat} {id : ClauseId} (le : i ≤ e.trail.lits.size) (old : e.Calm i id) :
      (e.modifyClause entry.clause (Engine.orient p.neg)).Calm i id :=
    old.extends step.toExtends h.trail h.trail le fun _ => watched
  refine ⟨⟨h.wired.orient used p.neg, h.since.trans step, h.derived, h.clean, h.at_n,
    fun id takesPart => ?_, fun id takesPart => ?_⟩, step, ?_, fun _ _ => watched⟩
  · exact calm (Nat.le_of_lt h.inside) (h.earlier id (step.takesPart.mp takesPart))
  · exact (h.calm id (step.takesPart.mp takesPart)).imp_right (calm h.inside)
  · rw [clause_modifyClause used, if_pos rfl]
    exact orient_lit_one (by omega) (watched_of_mem h.wired.tracked h.clean (by simp))

/-- The first literal of a clause whose other literals are false is derived. -/
theorem derives (h : Touring aside o n p (entry :: rest) kept e)
    (second : (e.clause entry.clause).lit 1 = p.neg)
    (others : ∀ k, 2 ≤ k → k < (e.clause entry.clause).lits.size →
      e.trail.isFalse ((e.clause entry.clause).lit k) = true) :
    o.Derives aside ((e.clause entry.clause).lit 0) := by
  have size := h.proper.size
  have same := (h.since.clauses entry.clause).mem
  have nodup : (o.clause entry.clause).lits.toList.Nodup :=
    (h.since.clauses entry.clause).lits.nodup_iff.mp (.of_map _ h.proper.distinct)
  refine .unit (.long (h.since.takesPart.mp h.takesPart)) ?_ fun m member => ?_
  · rw [Array.mem_toList_iff, ← same]
    exact Clause.lit_mem (by omega)
  · obtain ⟨ne, member⟩ := nodup.mem_erase_iff.mp member
    rw [Array.mem_toList_iff, ← same] at member
    obtain ⟨i, bound, rfl⟩ := Array.mem_iff_getElem.mp member
    rw [← Clause.lit_eq_getElem bound] at ne ⊢
    refine h.derived _ ((h.trail.isFalse_iff _).mp ?_)
    by_cases one : i = 1
    · rw [one, second]
      exact h.fails
    · have positive : i ≠ 0 := fun zero => ne (by rw [zero])
      exact others i (by omega) bound

/-- A visit without a conflict leaves the clause calm. -/
theorem visit {kept' : Array Watcher} (h : Touring aside o n p (entry :: rest) kept e)
    (visited : Visited p.neg entry kept e (f, kept', none)) : Touring aside o n p rest kept' f := by
  obtain ⟨turned, step, second, watched⟩ := h.orient
  have size := turned.proper.size
  have first_mem := Clause.lit_mem (c := (e.modifyClause entry.clause (Engine.orient p.neg)).clause
    entry.clause) (i := 0) (by omega)
  have used := isRemoved_of_isAttached turned.takesPart.1
  generalize turning : e.modifyClause entry.clause (Engine.orient p.neg) = t at *
  cases visited with
  | skipped holds =>
    have list : kept.push entry ++ rest.toArray = kept ++ (entry :: rest).toArray := by simp
    have here : entry ∈ (e.withList p (kept ++ (entry :: rest).toArray)).watches.long.get p := by
      rw [long_withList, if_pos rfl]
      simp
    have vouches : e.Vouches entry := h.wired.blockers p entry here h.takesPart.1
    exact h.advance (list ▸ h.wired) (.refl e) h.derived h.clean (fun _ _ _ => id)
      (calm_of_satisfied (vouches.isSatisfied holds))
  | satisfied oriented holds =>
    cases oriented.trans turning
    exact turned.advance (turned.wired.reblock used first_mem) (.refl f) turned.derived turned.clean
      (fun _ _ _ => id) (calm_of_satisfied (isSatisfied_iff.mpr ⟨_, first_mem, holds⟩))
  | @moved _ oriented k low high usable =>
    cases oriented.trans turning
    have ne : (t.clause entry.clause).lit k ≠ p.neg := fun same => by
      rw [same, turned.fails] at usable
      cases usable
    have moved := turned.wired.moveWatch turned.takesPart.1 turned.takesPart.2 second low high ne
    have clauses := reordered_swap used 1 k
    refine turned.advance moved (.of_clauses clauses rfl) turned.derived turned.clean ?_ ?_
    · intro id other w isWatched
      change (t.modifyClause entry.clause (·.swap 1 k)).Watched id w at isWatched
      unfold Watched at isWatched
      rwa [clause_modifyClause used, if_neg other.symm] at isWatched
    · intro w isWatched falsified
      change (t.modifyClause entry.clause (·.swap 1 k)).Watched entry.clause w at isWatched
      change t.trail.Before (n + 1) w.neg at falsified
      unfold Watched at isWatched
      rw [clause_modifyClause used, if_pos rfl, Clause.lit_zero_swap_one low high,
        Clause.lit_one_swap_one low high] at isWatched
      rcases isWatched with rfl | rfl
      · rcases (Trail.before_succ turned.at_n).mp falsified with same | before
        · -- The first literal is not the one visited, which comes second.
          have first : (t.clause entry.clause).lit 0 = (t.clause entry.clause).lit 1 := by
            rw [second, ← same, Lit.neg_neg]
          exact absurd (turned.proper.lit_inj (by omega) (by omega) (congrArg Lit.var first)) nofun
        · have old := turned.earlier entry.clause turned.takesPart _ (.inl rfl) before
          obtain ⟨l, inside, holds⟩ := isSatisfied_iff.mp old
          exact isSatisfied_iff.mpr ⟨l, ((clauses entry.clause).mem l).mpr inside, holds⟩
      · -- The new watch is not false.
        rw [(turned.trail.isFalse_iff _).mpr falsified.mem] at usable
        cases usable
  | implied oriented others undecided rescored =>
    cases oriented.trans turning
    have absent := fun m => turned.trail.var_ne undecided (m := m)
    have bound := turned.proper.bounded _ first_mem
    have implied : Reason.clause entry.clause ≠ .decision := nofun
    have assigned := (turned.wired.reblock used first_mem).assign undecided bound implied
    have wired : (f.withList p (kept.push ⟨entry.clause, (t.clause entry.clause).lit 0⟩ ++
        rest.toArray)).Wired aside := assigned.rescored
      { rescored with watches := by simp only [withList, modifyWatches, rescored.watches]; rfl }
    have step : t.Unthawed f := (Unthawed.assign absent implied).trans (.of_rescored rescored)
    refine turned.advance wired step ?_ ?_ (fun _ _ _ => rescored.watched) (calm_of_satisfied ?_)
    · intro l member
      rw [rescored.trail] at member
      rcases Array.mem_push.mp member with old | rfl
      · exact turned.derived l old
      · exact turned.derives second others
    · rw [rescored.watches]
      exact turned.clean
    · refine isSatisfied_iff.mpr ⟨_, ((step.clauses entry.clause).mem _).mpr first_mem, ?_⟩
      rw [rescored.trail]
      exact (Trail.isTrue_assign ..).mpr (.inl rfl)

/-- A conflict is a clause that takes part, and has no literal that is not false. -/
theorem clash {c : Conflict} (h : Touring aside o n p (entry :: rest) kept e)
    (visited : Visited p.neg entry kept e (f, kept', some c)) :
    Clash aside o p (f.withList p (kept' ++ rest.toArray)) c := by
  obtain ⟨turned, step, second, -⟩ := h.orient
  have size := turned.proper.size
  have used := isRemoved_of_isAttached turned.takesPart.1
  generalize turning : e.modifyClause entry.clause (Engine.orient p.neg) = t at *
  cases visited with
  | falsified oriented others isFalse =>
    cases oriented.trans turning
    have falsifies : f.Falsifies p.neg (.clause entry.clause) := by
      refine ⟨used, ?_, fun l inside => ?_⟩
      · rw [← second]
        exact Clause.lit_mem (by omega)
      · obtain ⟨i, bound, rfl⟩ := Array.mem_iff_getElem.mp inside
        rw [← Clause.lit_eq_getElem bound]
        by_cases zero : i = 0
        · rw [zero]
          exact isFalse
        · by_cases one : i = 1
          · rw [one, second]
            exact turned.fails
          · exact others i (by omega) bound
    refine ⟨turned.wired.reblock used (Clause.lit_mem (by omega)),
      turned.since.toExtends.trans (.of_clauses (fun _ => .refl _) rfl), turned.derived, falsifies, ?_⟩
    rintro id ⟨⟩
    exact turned.takesPart

/-- The visit of a whole list leaves all clauses calm, unless it meets a conflict. -/
theorem visitWatched (h : Touring aside o n p rest kept e)
    (result : Engine.visitWatched p.neg rest kept e = (f, kept', conflict)) :
    (conflict = none → Touring aside o n p [] kept' f) ∧
      ∀ c, conflict = some c → Clash aside o p (f.withList p kept') c := by
  induction rest generalizing kept e with
  | nil =>
    cases result
    exact ⟨fun _ => h, nofun⟩
  | cons entry rest ih =>
    have visited := visitEntry_cases p.neg entry kept (isRemoved_of_isAttached h.takesPart.1)
    rw [visitWatched_cons] at result
    generalize visitEntry p.neg entry kept e = step at result visited
    obtain ⟨g, between, _ | c⟩ := step
    · exact ih (h.visit visited) result
    · cases result
      refine ⟨nofun, ?_⟩
      rintro _ ⟨⟩
      exact h.clash visited

end Touring

/-- Once the list of a literal is cleaned, the visit of its clauses may begin. -/
theorem Onward.touring (h : Onward aside o e) (at_n : e.trail.lits[n]? = some p)
    (calm : ∀ id, e.TakesPart aside id → e.Calm n id) :
    Touring aside o n p
      ((e.modifyWatches (·.cleanIfDirty e.arena p)).watches.long.get p).toList #[]
      (e.modifyWatches (·.cleanIfDirty e.arena p)) := by
  have cleaned := Watches.cleanIfDirty_cleaned e.watches e.arena p
  have wired := h.wired.cleaned p
  refine ⟨?_, h.since.trans (.of_clauses (fun _ => .refl _) cleaned.binary), h.derived,
    Watches.dirty_cleanIfDirty e.watches e.arena p, at_n, calm, fun id takesPart => ?_⟩
  · simp only [Array.toArray_toList, Array.empty_append]
    exact wired.relist (fun _ => rfl) (fun w member => .inl member)
  · by_cases visits : ∃ w, e.Watched id w ∧ w.neg = p
    · obtain ⟨w, watched, rfl⟩ := visits
      have count := wired.tracked.exact id takesPart.1 takesPart.2 w.neg
      have watches : w.neg = ((e.clause id).lit 0).neg ∨ w.neg = ((e.clause id).lit 1).neg :=
        watched.imp (congrArg Lit.neg) (congrArg Lit.neg)
      have one : (e.clause id).watchCount w.neg = 1 := by rw [Clause.watchCount, if_pos watches]
      have some := Nat.lt_of_lt_of_eq Nat.zero_lt_one (count.trans one).symm
      obtain ⟨x, inside, same⟩ := entriesOf_pos_iff.mp some
      exact .inl ⟨x, Array.mem_toList_iff.mpr inside, same⟩
    · refine .inr fun w watched falsified => ?_
      rcases (Trail.before_succ at_n).mp falsified with same | before
      · exact absurd ⟨w, watched, same⟩ visits
      · exact calm id takesPart w watched before

theorem Onward.propagateWatched (h : Onward aside o e) (at_n : e.trail.lits[n]? = some p)
    (calm : ∀ id, e.TakesPart aside id → e.Calm n id)
    (result : e.propagateWatched p = (f, conflict)) :
    (conflict = none → Onward aside o f ∧ f.trail.lits[n]? = some p ∧
      ∀ id, f.TakesPart aside id → f.Calm (n + 1) id) ∧
      ∀ c, conflict = some c → Clash aside o p f c := by
  have touring := h.touring at_n calm
  generalize run : visitWatched p.neg
    ((e.modifyWatches (·.cleanIfDirty e.arena p)).watches.long.get p).toList #[]
    (e.modifyWatches (·.cleanIfDirty e.arena p)) = final
  obtain ⟨k, kept, outcome⟩ := final
  unfold Engine.propagateWatched at result
  dsimp only at result
  rw [run] at result
  cases result
  obtain ⟨done, clash⟩ := touring.visitWatched run
  refine ⟨fun none => ?_, clash⟩
  have final := done none
  have wired := final.wired
  rw [Array.append_empty] at wired
  refine ⟨⟨wired, final.since.trans (.of_clauses (fun _ => .refl _) rfl), final.derived⟩, final.at_n,
    fun id takesPart => ?_⟩
  rcases final.calm id takesPart with ⟨x, listed, _⟩ | calm
  · cases listed
  · exact calm

/-! ### Propagation of a literal -/

theorem Onward.propagateFrozen (h : Onward aside o e)
    (result : e.propagateFrozen p = (f, conflict)) :
    (conflict = none → Onward aside o f) ∧ ∀ c, conflict = some c → Clash aside o p f c := by
  have visited := propagateFrozen_cases h.wired.apart p
  rw [result] at visited
  cases visited with
  | moved lists apart =>
    refine ⟨fun _ => ⟨h.wired.withFrozen apart, ?_, h.derived⟩, nofun⟩
    exact h.since.trans (.of_clauses (fun _ => .refl _) rfl)
  | @falsified lists apart _ id used frozen here fails =>
    refine ⟨nofun, ?_⟩
    rintro c ⟨⟩
    refine ⟨(h.wired.withFrozen apart).thawFalsified used frozen, ?_, ?_,
      falsifies_thawFalsified used here fails, ?_⟩
    · exact h.since.toExtends.trans
        ((extends_withFrozen e lists).trans (extends_thawFalsified used))
    · rw [trail_thawFalsified]
      exact h.derived
    · rintro id ⟨⟩
      refine ⟨isAttached_iff.mpr ⟨?_, ?_⟩, fun member => ?_⟩
      · exact ((extends_thawFalsified (e := e.withFrozen lists) used).clauses id).removed.trans used
      · exact isFrozen_thawFalsified (e := e.withFrozen lists) used
      · have thawed := isFrozen_of_isAttached (h.wired.tracked.usable id member)
        exact absurd (frozen.symm.trans thawed) nofun

/-- After the visits of clauses of two literals, the others are as calm as before. -/
theorem Onward.visitedBinary (h : Onward aside o e) (at_n : e.trail.lits[n]? = some p)
    (calm : ∀ id, e.TakesPart aside id → e.Calm n id) {g : Engine}
    (result : Engine.visitBinary p.neg (e.watches.binary.get p).toList e = (g, none)) :
    Onward aside o g ∧ e.Unthawed g ∧ g.watches = e.watches ∧ g.trail.lits[n]? = some p ∧
      (∀ id, g.TakesPart aside id → g.Calm n id) ∧
      ∀ q ∈ e.watches.binary.get p, g.trail.isTrue q = true := by
  have inside : n < e.trail.lits.size := (Array.getElem?_eq_some_iff.mp at_n).1
  obtain ⟨onward, step, arena, watches, allTrue, -⟩ :=
    h.visitBinary (Array.mem_of_getElem? at_n) (fun q => Array.mem_toList_iff.mp) result
  refine ⟨onward, step, watches, (step.lits n inside).trans at_n, fun id takesPart => ?_,
    fun q member => allTrue rfl q (Array.mem_toList_iff.mpr member)⟩
  refine (calm id (step.takesPart.mp takesPart)).extends step.toExtends h.wired.trail
    onward.wired.trail (Nat.le_of_lt inside) fun w watched => ?_
  rw [Watched, clause, arena] at watched
  exact watched

/-- The visits for a literal keep the lists of frozen clauses exact. -/
theorem Onward.frozenWatched_propagateLit (h : Onward aside o e) (at_n : e.trail.lits[n]? = some p)
    (calm : ∀ id, e.TakesPart aside id → e.Calm n id) (watched : e.FrozenWatched)
    (result : e.propagateLit p = (f, conflict)) : f.FrozenWatched := by
  refine watched.propagateLit (fun binary visited => ?_) result
  obtain ⟨onward_g, -, -, at_n_g, calm_g, -⟩ := h.visitedBinary at_n calm binary
  obtain ⟨onward_k, at_n_k, -⟩ := (onward_g.propagateWatched at_n_g calm_g visited).1 rfl
  refine ⟨onward_k.wired.apart, ?_⟩
  rw [Trail.isFalse_neg]
  exact (onward_k.wired.trail.isTrue_iff p).mpr (Array.mem_of_getElem? at_n_k)

/-- After the visits of the other clauses, those of the frozen ones complete what is propagated. -/
theorem Onward.propagated (h : Onward aside o e) (at_n : e.trail.lits[n]? = some p)
    (done : e.Propagated aside n) {g k : Engine}
    (first : Engine.visitBinary p.neg (e.watches.binary.get p).toList e = (g, none))
    (second : g.propagateWatched p = (k, none)) (third : k.propagateFrozen p = (f, none)) :
    f.Propagated aside (n + 1) := by
  have inside : n < e.trail.lits.size := (Array.getElem?_eq_some_iff.mp at_n).1
  obtain ⟨onward_g, step_g, watches_g, at_n_g, calm_g, allTrue⟩ := h.visitedBinary at_n done.clauses first
  obtain ⟨onward_k, at_n_k, calm_k⟩ := (onward_g.propagateWatched at_n_g calm_g second).1 rfl
  have grown := (((refl onward_g.wired).propagateWatched at_n_g calm_g second).1 rfl).1.since
  have step_k : e.Unthawed k := step_g.trans grown
  have lists_k : k.watches.frozen = e.watches.frozen := by
    rw [(frozenKept_propagateWatched second).lists, watches_g]
  have before_k {q : Lit} (before : k.trail.Before (n + 1) q) : q = p ∨ e.trail.Before n q :=
    ((Trail.before_succ at_n_k).mp before).imp_right (step_k.before (Nat.le_of_lt inside)).mp
  have visited := propagateFrozen_cases onward_k.wired.apart p
  rw [third] at visited
  cases visited with
  | moved lists _ _ emptied others =>
    constructor
    case binary =>
      intro q before r member
      change r ∈ k.watches.binary.get q at member
      rw [step_k.binary] at member
      rcases before_k before with rfl | before
      · exact grown.isTrue_of_assigns onward_g.wired.trail onward_k.wired.trail (allTrue r member)
      · exact step_k.isTrue_of_assigns h.wired.trail onward_k.wired.trail
          (done.binary q before r member)
    case clauses => exact calm_k
    case frozen =>
      intro q before w member used
      change w ∈ lists.get q at member
      rcases before_k before with rfl | before
      · -- The list of the literal itself is empty now.
        rw [emptied] at member
        cases Array.not_mem_empty w member
      · have inTrail : q ∈ k.trail.lits := step_k.mem before.mem
        have ne : q ≠ p := by
          rintro rfl
          obtain ⟨j, below, at_j⟩ := before
          have := h.wired.trail.distinct at_j at_n rfl
          omega
        rw [others q ((onward_k.wired.trail.isTrue_iff q).mpr inTrail) ne, lists_k] at member
        have used' : (e.clause w.clause).isRemoved = false :=
          (step_k.clauses w.clause).removed.symm.trans used
        exact (step_k.isFrozen used').trans (done.frozen q before w member used')

/-- The visits for a literal extend what holds of the literals before it, unless they meet a
conflict. -/
theorem Onward.propagateLit (h : Onward aside o e) (at_n : e.trail.lits[n]? = some p)
    (done : e.Propagated aside n) (result : e.propagateLit p = (f, conflict)) :
    (conflict = none → Onward aside o f ∧ f.Propagated aside (n + 1)) ∧
      ∀ c, conflict = some c → Clash aside o p f c := by
  cases propagateLit_cases result with
  | binary first =>
    have visited := h.visitBinary (Array.mem_of_getElem? at_n) (fun q => Array.mem_toList_iff.mp) first
    exact ⟨nofun, visited.2.2.2.2.2⟩
  | watched first second =>
    obtain ⟨onward_g, -, -, at_n_g, calm_g, -⟩ := h.visitedBinary at_n done.clauses first
    exact ⟨nofun, (onward_g.propagateWatched at_n_g calm_g second).2⟩
  | frozen first second third =>
    obtain ⟨onward_g, -, -, at_n_g, calm_g, -⟩ := h.visitedBinary at_n done.clauses first
    obtain ⟨onward_k, -, -⟩ := (onward_g.propagateWatched at_n_g calm_g second).1 rfl
    obtain ⟨onward_f, clash⟩ := onward_k.propagateFrozen third
    refine ⟨?_, clash⟩
    rintro rfl
    exact ⟨onward_f rfl, h.propagated at_n done first second third⟩

end Engine

end Cdcl
