import Cdcl.Proofs.Facts
import Cdcl.Proofs.SearchInRange

/-!
# Calls in range

A call may come with any arguments. What they name is looked up only after a check, so that every access
of a call is in range: before a search, in it and when it is undone, and in commands and questions as well.
Three things are not checked: how large the windows are that the options ask for, whether the clock will
ever show the deadline of a solve, and whether a variable has literals, when its part in the core is asked
for.

## Main results

- `Kept.ask_inRange`, `Kept.obey_inRange`, `Kept.solveKeeping`: every access of a question, a command or a
  solve is in range.
- `Kept.call`: a call keeps the solver fit for the next.
- `run_inRange`: no call of a session goes out of range or comes upon what it relies on never to see, but
  for what is not checked.
-/

namespace Cdcl

/-! ### What calls look up -/

namespace Engine

/-- The facts are the literals before the first mark. -/
def FactsInRange (e : Engine) : Prop := ∀ k ∈ e.trail.marks, k ≤ e.trail.lits.size

/-- The reasons of the trail and all clauses in the lists can be looked at. -/
structure CheckInRange (e : Engine) : Prop where
  reasons : ∀ l ∈ e.trail.lits, e.ReasonInRange l
  reads : ∀ id, id ∈ e.originals ∨ id ∈ e.learnts → e.Reads id

/-- The new variable has slots, and can be put in the heap. -/
def NewVarInRange (e : Engine) (polarity : Bool) : Prop :=
  (e.grown polarity).Knows ⟨e.numVars⟩ ∧ (e.grown polarity).HeapInRange

/-- The clause that is left can be stored and watched. -/
structure AddInRange (e : Engine) (lits : List Lit) : Prop where
  known : ∀ l ∈ lits, e.Knows l.var
  distinct : (lits.map Lit.var).Nodup
  fact : ∀ l, lits = [l] → e.AddFactInRange l

section Commands

variable {F : List (List Lit)} {e f : Engine} {c lits : List Lit}

theorem Equipped.storeOriginal (h : e.Equipped) {lits : Array Lit}
    (result : e.storeOriginal lits = .ok f) : f.Equipped := by
  obtain ⟨id, arena, -, rfl⟩ := storeOriginal_eq result
  unfold withOriginal
  exact { h with watches := h.watches.watch _ _ _ }

/-- What is left of a clause can be stored. -/
theorem Settled.add_inRange (h : e.Settled F) (zero : e.trail.level = 0) (fit : e.Fit [])
    (normalized : Solver.Normalized e.trail c lits) (bound : ∀ l ∈ c, l.var.index < e.numVars) :
    e.AddInRange lits ∧ ∀ f, Solver.addNormalized e lits = .ok f → f.Equipped := by
  obtain ⟨pairs, faithful⟩ := h.faithful
  -- What is left of the clause has no value, so that a single literal can become a fact.
  have bounded (l : Lit) (inside : l ∈ lits) : l.var.index < e.numVars :=
    bound l (normalized.sub l inside)
  have fact (l : Lit) (list : lits = [l]) : e.AddFactInRange l ∧ (e.addFact l).Fit [] := by
    have low := bounded l (list ▸ List.mem_singleton_self l)
    have assigned := faithful.toRegular.assignUnit zero normalized bound list
    have ready : (e.assign l .decision).Fit [] :=
      fit.sameBooks (sameBooks_assign e l .decision) assigned.sound assigned.apart
        (fit.equipped.assign low _)
    exact ready.addFact_inRange (fit.knows low)
      (normalized.undecided l (list ▸ List.mem_singleton_self l))
  refine ⟨⟨fun l inside => fit.knows (bounded l inside), normalized.distinct,
    fun l list => (fact l list).1⟩, ?_⟩
  intro f result
  cases added_of_addNormalized result with
  | empty => exact fit.refute.equipped
  | fact => exact (fact _ rfl).2.equipped
  | pair => exact fit.equipped.addBinary _ _ _
  | long size stored => exact fit.equipped.storeOriginal stored

end Commands

end Engine

namespace Solver

open Engine

/-- Before a search the clauses are simplified, and vivified if the options say so. -/
def PrepareInRange (s : Solver) : Prop :=
  s.SimplifyInRange ∧ ∀ t, s.simplify = (.ok true, t) →
    0 < s.engine.opts.vivifyMinSize → t.VivifyInRange s.engine.opts.vivifyMinSize

/-- The assumptions can be compared with the facts before that. -/
def OpeningInRange (s : Solver) : Prop :=
  ∀ t, s.stopRequested = (false, t) →
    t.engine.FactsInRange ∧ (∀ l ∈ t.assumptions, t.engine.Knows l.var) ∧
      (contradiction? t.engine.trail t.assumptions.toList {} = none → t.PrepareInRange)

/-- The values of all variables can be taken down, and the search undone. -/
structure ConcludeInRange (s : Solver) : Prop where
  vars : ∀ v ∈ s.engine.vars, s.engine.Knows v
  cancels : s.engine.CancelInRange

/-- A solve searches unless it has the answer when it opens, and is concluded. There is no contradiction
when a search starts. -/
def OpenedInRange (F : List (List Lit)) (steps : Nat) : Opening → Prop
  | .answered _ t => t.ConcludeInRange
  | .search t =>
    t.engine.ok = true ∧ SearchInRange F steps t ∧
      ∀ outcome u, search steps t = .ok (outcome, u) → u.ConcludeInRange

/-- A solve clears the core of the one before. If there is no contradiction yet it opens. -/
def SolveInRange (F : List (List Lit)) (steps : Nat) (s : Solver) : Prop :=
  s.core.Slotted ∧ (s.engine.ok = true → s.begun.OpeningInRange ∧ OpenedInRange F steps s.begun.opening)

/-- A clause can be added, at level zero, if its literals are acceptable. -/
def AddClauseInRange (s : Solver) (c : List Lit) : Prop :=
  c.forM s.checkLit = .ok () → s.engine.ok = true →
    s.engine.trail.level = 0 ∧ (∀ l ∈ c, s.engine.Knows l.var) ∧
      ∀ lits, normalize s.engine.trail c = some lits → s.engine.AddInRange lits

def NewVarInRange (s : Solver) (polarity : Truth) : Prop :=
  s.engine.NewVarInRange (polarity.toBool?.getD s.engine.opts.defaultPolarity)

def NewVarsInRange : Nat → Solver → Prop
  | 0, _ => True
  | n + 1, s => s.NewVarInRange .undecided ∧ NewVarsInRange n (s.newVar .undecided true).2

/-- The other questions are about what the solver has at hand. The numbers of the two literals of a variable
have to fit in 32 bits. -/
def AskInRange (s : Solver) : Question → Prop
  | .factValue l => s.checkLit l = .ok () → s.engine.Knows l.var
  | .varLevel v => s.checkVar v = .ok () → s.engine.Knows v
  | .facts => s.engine.FactsInRange
  | .coreHasVar v => v.index < 1 <<< 31
  | .learnts => s.engine.LearntsInRange
  | .validate =>
    s.engine.FactsInRange ∧ ∀ id ∈ s.engine.originals, id.slot < s.engine.arena.clauses.size
  | .checkInvariants => s.engine.CheckInRange
  | .summary => s.engine.stats.literalsAfter ≤ s.engine.stats.literalsBefore
  | _ => True

/-- The other commands look nothing up. -/
def ObeyInRange (s : Solver) : Command → Prop
  | .newVar polarity _ => s.NewVarInRange polarity
  | .ensureVars n => NewVarsInRange (n - s.engine.numVars) s
  | .addClause c => s.AddClauseInRange c
  | .block n => s.AddClauseInRange (s.model.blockingClause n)
  | .simplify => s.SimplifyInRange
  | .vivify minSize => s.VivifyInRange minSize
  | .setDecision v _ => s.checkVar v = .ok () → s.engine.Knows v ∧ s.engine.HeapInRange
  | .setPolarity v _ => s.checkVar v = .ok () → s.engine.Knows v
  | _ => True

def CallInRange (F : List (List Lit)) (steps : Nat) (s : Solver) : Call → Prop
  | .ask q => s.AskInRange q
  | .obey d => s.ObeyInRange d
  | .solve as => ∀ t, s.addAssumptions as = .ok t → SolveInRange F steps t

/-- The call asks for a variable whose literals have no numbers. -/
def Overflows : Call → Prop
  | .ask (.coreHasVar v) => 1 <<< 31 ≤ v.index
  | _ => False

/-- A solve would have to give up at a moment that the clock never shows. -/
def Belated (s : Solver) : Prop := s.engine.ok = true ∧ s.begun.deadlineShows = false

variable {F : List (List Lit)} {s t u : Solver} {outcome : Outcome} {steps : Nat}

/-- A solver between two calls, its engine in order and its tables with slots. -/
structure Kept (F : List (List Lit)) (s : Solver) : Prop where
  rests : s.Rests F
  zero : s.engine.trail.level = 0
  orderly : s.engine.Orderly
  offers : s.engine.Offers
  equipped : s.Equipped

/-- Its accesses to the engine are in range. -/
theorem Kept.fit (h : s.Kept F) : s.engine.Fit [] := h.orderly.fit h.equipped.engine

/-! ### Before and after a search -/

theorem prepare_inRange (h : s.engine.Settled F) (zero : s.engine.trail.level = 0)
    (orderly : s.engine.Orderly) (equipped : s.Equipped) {answer : Except SolverError Bool}
    (result : s.prepare = (answer, t)) : s.PrepareInRange ∧ t.Equipped := by
  unfold PrepareInRange
  unfold prepare at result
  dsimp only at result
  rcases simplified : s.simplify with ⟨answer', u⟩
  rw [simplified] at result
  obtain ⟨inRange, equipped'⟩ := simplify_inRange h zero orderly equipped simplified
  split at result
  next first =>
    cases first
    have quiet := quiet_of_simplify h zero simplified
    have orderly' := (chores_simplify h zero simplified).rounds.turns.orderly orderly
    have vivifies (minSize : Nat) (answer' : Except SolverError Bool) (v : Solver)
        (vivified : u.vivifyQuietly minSize = (answer', v)) : u.VivifyInRange minSize ∧ v.Equipped :=
      vivifyQuietly_inRange quiet.toSettled quiet.zero orderly' equipped' minSize vivified
    refine ⟨⟨inRange, fun t same positive => ?_⟩, ?_⟩
    · cases same
      rcases vivified : u.vivifyQuietly s.engine.opts.vivifyMinSize with ⟨answer', v⟩
      exact (vivifies _ _ _ vivified).1
    · split at result
      · exact (vivifies _ _ _ result).2
      · cases result
        exact equipped'
  next other =>
    cases result
    exact ⟨⟨inRange, fun t same => absurd (Prod.mk.inj same).1 fun same' => by
      cases same; exact (other _ rfl).elim⟩, equipped'⟩

theorem slotted_of_contradiction {trail : Trail} {rest : List Lit} {before core : DenseSet Lit}
    (result : contradiction? trail rest before = some core) : core.Slotted := by
  induction rest generalizing before with
  | nil => cases result
  | cons l rest ih =>
    unfold contradiction? at result
    split at result
    · cases result
      exact DenseSet.slotted_empty.insert _
    · split at result
      · cases result
        exact (DenseSet.slotted_empty.insert _).insert _
      · exact ih result

/-- Every access before a search is in range. -/
theorem opening_inRange (h : s.Searching F []) (zero : s.engine.trail.level = 0)
    (orderly : s.engine.Orderly) (equipped : s.Equipped) :
    s.OpeningInRange ∧ s.opening.solver.Equipped := by
  have fit := orderly.fit equipped.engine
  unfold OpeningInRange Solver.opening
  rcases asked : s.stopRequested with ⟨stop, u⟩
  have noted := noted_stopRequested asked
  have engine : u.engine = s.engine := noted.engine
  have equipped' : u.Equipped := equipped.noted noted
  have assumptions : u.assumptions = s.assumptions := (noted.sameTask (.refl _)).assumptions
  cases stop with
  | true =>
    refine ⟨fun t same => ?_, equipped'⟩
    cases same
  | false =>
    dsimp only
    rw [← engine] at zero orderly fit
    have settled : u.engine.Settled F := engine ▸ h.working.settled
    rcases prepared : u.prepare with ⟨answer, v⟩
    obtain ⟨prepares, final⟩ := prepare_inRange settled zero orderly equipped' prepared
    refine ⟨fun t same => ?_, ?_⟩
    · cases same
      refine ⟨fit.marks_le, fun l assumed => ?_, fun _ => prepares⟩
      -- Assumptions are literals that the solver knows, as adding them was checked.
      refine fit.knows ?_
      rw [assumptions] at assumed
      rw [engine]
      exact h.bounded l (List.mem_append_left _ (Array.mem_toList_iff.mpr assumed))
    · split
      next core found => exact ⟨equipped'.engine, slotted_of_contradiction found⟩
      · cases answer with
        | error err => exact final
        | ok fine =>
          cases fine with
          | false => exact final
          | true => exact ⟨final.engine, final.core⟩

/-- A search can be undone, whatever it found. -/
theorem conclude_inRange (orderly : t.engine.Orderly) (offers : t.engine.Offers) (equipped : t.Equipped)
    (outcome : Outcome) : t.ConcludeInRange ∧ (conclude (outcome, t)).2.Equipped := by
  have fit := orderly.fit equipped.engine
  refine ⟨⟨fun v listed => fit.knows (mem_vars.mp listed), fit.cancelInRange offers⟩, ?_⟩
  cases outcome with
  | error err => exact ⟨(fit.cancelTo 0).equipped, equipped.core⟩
  | ok status =>
    have taken : (t.takeResult status).engine.Fit [] ∧ (t.takeResult status).core = t.core := by
      cases status with
      | unsat =>
        by_cases empty : t.core.isEmpty = true
        · simp only [takeResult, if_pos empty]
          exact ⟨fit.refute, rfl⟩
        · simp only [takeResult, if_neg empty]
          exact ⟨fit, trivial⟩
      | _ => exact ⟨fit, rfl⟩
    exact Equipped.noted ⟨(taken.1.cancelTo 0).equipped, taken.2 ▸ equipped.core⟩ (noted_notify _ _)

/-! ### Solves -/

theorem slotted_clear (core : DenseSet Lit) : core.clear.Slotted := by
  intro k member
  cases member with
  | mk member => cases member

theorem Equipped.begun (h : s.Equipped) : s.begun.Equipped := by
  have counted : (s.engine.modifyStats fun st => { st with solves := st.solves + 1 }).Equipped :=
    h.engine.modifyStats h.engine.deleted
  obtain ⟨listener, budget, timed, -⟩ := s.setDeadline_eq
  rw [begun_eq, timed]
  exact Equipped.noted ⟨counted, slotted_clear _⟩ (noted_notify _ _)

/-- Either there is an answer before the search, or the search gives one or uses up its steps. -/
theorem opened_inRange {b : Solver} {o : Opening} (opens : Opens F b o) (orderly : o.solver.engine.Orderly)
    (offers : o.solver.engine.Offers) (equipped : o.solver.Equipped) (steps : Nat) :
    OpenedInRange F steps o ∧ Lasts False ((openingThenSearch steps o).map conclude) := by
  cases opens with
  | @answered outcome t _ => exact conclude_inRange orderly offers equipped outcome
  | @search t searching =>
    have running : t.Running F [] := ⟨searching, orderly, equipped⟩
    obtain ⟨searches, lasts⟩ := running.search_inRange steps
    unfold OpenedInRange openingThenSearch
    dsimp only
    rcases searched : search steps t with fault | ⟨outcome, u⟩
    · rw [searched] at lasts
      exact ⟨⟨searching.working.settled.ok, searches, fun outcome u same => by cases same⟩, lasts⟩
    · rw [searched] at lasts
      have kept := (rounds_search steps searching searched).turns.keeps Turn.offers ⟨orderly, offers⟩
      obtain ⟨concludes, concluded⟩ := conclude_inRange kept.1 kept.2 lasts outcome
      refine ⟨⟨searching.working.settled.ok, searches, fun outcome u same => ?_⟩, concluded⟩
      cases same
      exact concludes

/-- Every access of a solve is in range. -/
theorem Kept.solveKeeping (h : s.Kept F) (steps : Nat) :
    SolveInRange F steps s ∧ Lasts s.Belated (Solver.solveKeeping steps s) := by
  have core := h.equipped.core
  rcases h.rests with refuted | ready
  · rw [solveKeeping_of_not_ok refuted.notOk]
    refine ⟨⟨core, fun ok => ?_⟩, h.equipped.engine, slotted_clear _⟩
    rw [refuted.notOk] at ok
    cases ok
  · obtain ⟨searching, -, zero⟩ := ready.begun
    have begun := (chores_begun s).rounds.turns.keeps Turn.offers ⟨h.orderly, h.offers⟩
    obtain ⟨opens, opened⟩ := opening_inRange searching zero begun.1 h.equipped.begun
    obtain ⟨orderly, offers⟩ :=
      (chores_opening searching.working.settled zero).rounds.turns.keeps Turn.offers begun
    obtain ⟨inRange, lasts⟩ := opened_inRange (searching.opening zero) orderly offers opened steps
    refine ⟨⟨core, fun _ => ⟨opens, inRange⟩⟩, ?_⟩
    cases shows : s.begun.deadlineShows with
    | false =>
      rw [solveKeeping_of_not_shows steps ready.settled.ok shows]
      exact .inr ⟨rfl, ready.settled.ok, shows⟩
    | true =>
      have same : Solver.solveKeeping steps s =
          (openingThenSearch steps s.begun.opening).map conclude := by
        rw [solveKeeping_eq steps ready.settled.ok shows]
        cases s.begun.opening <;> rfl
      rw [same]
      exact lasts.mono False.elim

/-! ### Commands -/

theorem Kept.add_inRange (h : s.Kept F) (c : List Lit) :
    s.AddClauseInRange c ∧ ∀ b t, s.addClause c = (.ok b, t) → t.Equipped := by
  have adds (ok : s.engine.ok = true) (known : ∀ l ∈ c, l.isSentinel = false ∧ l.var.index < s.engine.numVars)
      {lits : List Lit} (left : normalize s.engine.trail c = some lits) := by
    have ready := h.rests.resolve_left fun refuted => absurd (ok.symm.trans refuted.notOk) nofun
    exact ready.settled.add_inRange ready.zero h.fit
      (normalize_eq_some (fun l inside => (known l inside).1) left) fun l inside => (known l inside).2
  refine ⟨fun passed ok => ?_, fun b t result => ?_⟩
  · have known : ∀ l ∈ c, l.isSentinel = false ∧ l.var.index < s.engine.numVars := fun l inside =>
      known_of_checkLit (checkLit_of_forM passed l inside)
    exact ⟨h.zero, fun l inside => h.fit.knows (known l inside).2, fun lits left => (adds ok known left).1⟩
  · cases addClause_cases result with
    | closed | idle => exact ⟨h.equipped.engine, h.equipped.core⟩
    | stored ok known left added => exact ⟨(adds ok known left).2 _ added, h.equipped.core⟩

theorem newVar_inRange (offers : s.engine.Offers) (equipped : s.Equipped) (polarity : Truth)
    (decision : Bool) : s.NewVarInRange polarity ∧ (s.newVar polarity decision).2.Equipped := by
  have grown := equipped.engine.grown (polarity.toBool?.getD s.engine.opts.defaultPolarity)
  have knows := grown.knows (v := ⟨s.engine.numVars⟩) (Nat.lt_succ_self _)
  exact ⟨⟨knows, (offers.grown _).heapInRange grown⟩, grown.setDecision _ decision, equipped.core⟩

theorem newVars_inRange (n : Nat) (orderly : s.engine.Orderly) (offers : s.engine.Offers)
    (equipped : s.Equipped) : NewVarsInRange n s ∧ (newVars n s).Equipped := by
  induction n generalizing s with
  | zero => exact ⟨trivial, equipped⟩
  | succ n ih =>
    obtain ⟨inRange, equipped'⟩ := newVar_inRange offers equipped .undecided true
    obtain ⟨orderly', offers'⟩ :=
      (chores_newVar s .undecided true).rounds.turns.keeps Turn.offers ⟨orderly, offers⟩
    obtain ⟨later, final⟩ := ih orderly' offers' equipped'
    exact ⟨⟨inRange, later⟩, final⟩

theorem Kept.simplifies (h : s.Kept F) : s.SimplifyInRange ∧ s.simplify.2.Equipped := by
  rcases h.rests with refuted | ready
  · rw [simplify_of_not_ok refuted.notOk]
    refine ⟨⟨⟨h.zero, fun ok => ?_⟩, fun e simplified => ?_⟩, h.equipped⟩
    · rw [refuted.notOk] at ok
      cases ok
    · unfold Engine.simplify at simplified
      rw [refuted.notOk, Bool.not_false, if_pos rfl] at simplified
      cases simplified
  · exact simplify_inRange ready.settled ready.zero h.orderly h.equipped rfl

theorem Kept.vivifies (h : s.Kept F) (minSize : Nat) :
    s.VivifyInRange minSize ∧ (s.vivify minSize).2.Equipped := by
  have quietly : s.VivifyInRange minSize ∧ (s.vivifyQuietly minSize).2.Equipped := by
    rcases h.rests with refuted | ready
    · unfold VivifyInRange vivifyQuietly
      rw [simplify_of_not_ok refuted.notOk]
      refine ⟨⟨h.simplifies.1, fun t same => ?_⟩, h.equipped⟩
      cases same
    · exact vivifyQuietly_inRange ready.settled ready.zero h.orderly h.equipped minSize rfl
  refine ⟨quietly.1, ?_⟩
  have equipped := quietly.2
  unfold vivify
  rcases result : s.vivifyQuietly minSize with ⟨answer, u⟩
  rw [result] at equipped
  cases answer with
  | error err => exact equipped
  | ok fine =>
    cases fine with
    | false => exact ⟨equipped.engine, equipped.core⟩
    | true => exact equipped

/-- Every access of a command is in range. -/
theorem Kept.obey_inRange (h : s.Kept F) (d : Command) : s.ObeyInRange d := by
  cases d with
  | newVar polarity decision => exact (newVar_inRange h.offers h.equipped polarity decision).1
  | ensureVars n => exact (newVars_inRange _ h.orderly h.offers h.equipped).1
  | addClause c => exact (h.add_inRange c).1
  | block n => exact (h.add_inRange _).1
  | simplify => exact h.simplifies.1
  | vivify minSize => exact (h.vivifies minSize).1
  | setDecision v allowed =>
    exact fun passed => ⟨h.fit.knows (lt_of_checkVar passed), h.offers.heapInRange h.equipped.engine⟩
  | setPolarity v positive => exact fun passed => h.fit.knows (lt_of_checkVar passed)
  | _ => exact trivial

/-- A command leaves slots for all that may be looked up. -/
theorem Kept.obeyed (h : s.Kept F) {d : Command} {c : List (List Lit)} (obeyed : s.Obeyed d c t) :
    t.Equipped := by
  cases obeyed with
  | added result => exact (h.add_inRange _).2 _ _ result
  | simplified _ result =>
    have equipped := h.simplifies.2
    rw [result] at equipped
    exact equipped
  | @vivified minSize =>
    next result =>
    have equipped := (h.vivifies minSize).2
    rw [result] at equipped
    exact equipped
  | created polarity decision => exact (newVar_inRange h.offers h.equipped polarity decision).2
  | ensured n => exact (newVars_inRange n h.orderly h.offers h.equipped).2
  | assumed result =>
    unfold addAssumption at result
    split at result <;> cases result
    exact ⟨h.equipped.engine, h.equipped.core⟩
  | allowed result =>
    unfold Solver.setDecision at result
    split at result <;> cases result
    exact ⟨h.equipped.engine.setDecision _ _, h.equipped.core⟩
  | preferred result =>
    unfold Solver.setPolarity at result
    split at result
    · cases result
    next passed =>
      cases result
      exact ⟨h.equipped.engine.setPolarity (lt_of_checkVar passed) _, h.equipped.core⟩
  | told | refused => exact ⟨h.equipped.engine, h.equipped.core⟩

/-! ### Questions -/

/-- Every access of a question is in range, unless it is about a variable without literals. -/
theorem Kept.ask_inRange (h : s.Kept F) (q : Question) : Overflows (.ask q) ∨ s.AskInRange q := by
  by_cases overflows : Overflows (.ask q)
  · exact .inl overflows
  refine .inr ?_
  have lists := h.orderly.shelved.booked.filed.listsUsed
  cases q with
  | factValue l => exact fun passed => h.fit.knows (known_of_checkLit passed).2
  | varLevel v => exact fun passed => h.fit.knows (lt_of_checkVar passed)
  | facts => exact h.fit.marks_le
  | learnts => exact h.orderly.shelved.learntsInRange
  | validate => exact ⟨h.fit.marks_le, fun id listed => (h.fit.reads (lists id (.inl listed))).stored⟩
  | checkInvariants =>
    exact ⟨fun l assigned => h.fit.reasonInRange assigned, fun id listed => h.fit.reads (lists id listed)⟩
  | summary => exact h.equipped.engine.deleted
  | coreHasVar v => exact Nat.lt_of_not_le overflows
  | _ => exact trivial

/-! ### Sessions -/

theorem Kept.assuming (h : s.Kept F) {as : List Lit} (known : ∀ l ∈ as, s.checkLit l = .ok ()) :
    (s.assuming as).Kept F where
  rests := h.rests.imp id fun ready => ready.assuming known
  zero := h.zero
  orderly := h.orderly
  offers := h.offers
  equipped := ⟨h.equipped.engine, h.equipped.core⟩

/-- Every access of a call is in range. -/
theorem Kept.call_inRange (h : s.Kept F) (steps : Nat) (c : Call) :
    (Overflows c ∨ CallInRange F steps s c) ∧
      Lasts (∃ as, c = .solve as ∧ (s.assuming as).Belated) (s.call steps c) := by
  cases c with
  | ask q => exact ⟨h.ask_inRange q, h.equipped⟩
  | obey d => exact ⟨.inr (h.obey_inRange d), h.obeyed (Solver.obeyed rfl)⟩
  | solve as =>
    unfold CallInRange Solver.call
    dsimp only
    unfold solveWith
    rcases assumed : s.addAssumptions as with err | t
    · refine ⟨.inr fun t same => ?_, h.equipped.engine, h.equipped.core⟩
      cases same
    · obtain ⟨rfl, known⟩ := addAssumptions_eq assumed
      obtain ⟨inRange, lasts⟩ := (h.assuming known).solveKeeping steps
      refine ⟨.inr fun t same => ?_, ?_⟩
      · cases same
        exact inRange
      · dsimp only
        unfold Solver.solve
        rcases result : (s.assuming as).solveKeeping steps with fault | ⟨outcome, u⟩
        · rw [result] at lasts
          exact lasts.mono fun belated => ⟨as, rfl, belated⟩
        · rw [result] at lasts
          rw [Except.map, solved_eq]
          exact ⟨lasts.engine, lasts.core⟩

/-- A call keeps the solver fit for the next. -/
theorem Kept.call (h : s.Kept F) {c : Call} {answer : Answer}
    (called : s.call steps c = .ok (answer, t)) (zero : t.engine.trail.level = 0) :
    t.Kept (F ++ c.accepted answer) := by
  obtain ⟨orderly, offers⟩ := (rounds_call h.rests called).turns.keeps Turn.offers ⟨h.orderly, h.offers⟩
  have lasts := (h.call_inRange steps c).2
  rw [called] at lasts
  exact ⟨h.rests.call called, zero, orderly, offers, lasts⟩

/-- Whatever its calls were, a solver is fit for the next. -/
theorem History.kept (h : History F s) : s.Kept F := by
  induction h with
  | @create opts listener s created =>
    have rests := (History.create created).rests
    obtain ⟨checked, fits, rfl⟩ := create_eq_ok_iff.mp created
    exact ⟨rests, rfl, orderly_initial opts, (settled_initial opts).offers, equipped_initial checked,
      DenseSet.slotted_empty⟩
  | call before called ih => exact ih.call called (before.call called).zero

end Solver

end Cdcl
