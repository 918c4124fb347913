import Cdcl.Proofs.OpenVariables
import Cdcl.Proofs.Record

/-!
# Pure literals are found exactly

A literal is flagged if it is in a stored clause, in the list of a literal that opposes the rest of a clause
of two, or assumed. Each clause of two is in the lists of both its literals, so no occurrence is missed, and
none is made up as the lists of clauses hold just the clauses in use.

## Main results

- `occurring_iff`: exactly the literals that occur are flagged.
- `pureLits_exact`: the literals found at level zero of a solve are exactly the pure ones, in order, a
  search finds its own, and a solve leaves none.
-/

namespace Cdcl

namespace DenseFlags

variable {κ : Type} [DenseKey κ] [DecidableEq κ]

/-- Raising flags one after the other raises those of the list. -/
theorem get_foldl_raise (ks : List κ) (flags : DenseFlags κ) (k : κ) :
    (ks.foldl raise flags).get k = true ↔ flags.get k = true ∨ k ∈ ks := by
  induction ks generalizing flags with
  | nil => simp
  | cons j ks ih =>
    rw [List.foldl_cons, ih, raise, DenseMap.get_insert, List.mem_cons]
    by_cases same : j = k
    · simp [same]
    · simp [same, Ne.symm same]

/-- So does raising those of several lists. -/
theorem get_foldl_raiseAll {α : Type} (lits : α → List κ) (as : List α) (flags : DenseFlags κ) (k : κ) :
    (as.foldl (fun flags a => (lits a).foldl raise flags) flags).get k = true ↔
      flags.get k = true ∨ ∃ a ∈ as, k ∈ lits a := by
  induction as generalizing flags with
  | nil => simp
  | cons a as ih =>
    rw [List.foldl_cons, ih, get_foldl_raise]
    simp [or_assoc]

end DenseFlags

namespace Engine

variable {F : List (List Lit)} {e : Engine} {as : List Lit} {l : Lit}

/-- The literal occurs in a clause in use, original or learnt, in a clause of two literals, or among the
assumptions. -/
inductive Mentions (e : Engine) (as : List Lit) (l : Lit) : Prop where
  | stored {id : ClauseId} (used : (e.clause id).isRemoved = false)
    (inside : l ∈ (e.clause id).lits) : Mentions e as l
  | pair {a b : Lit} (listed : b ∈ e.watches.binary.get a.neg) (inside : l = a ∨ l = b) :
    Mentions e as l
  | assumed (member : l ∈ as) : Mentions e as l

/-- These are the pure literals: of open variables, in order. -/
structure ListsPure (e : Engine) (as ls : List Lit) : Prop where
  increasing : ls.Pairwise fun l m => l.var.index < m.var.index
  nodup : ls.Nodup
  exact : ∀ l, l ∈ ls ↔ e.Open l.var ∧ e.Mentions as l ∧ ¬ e.Mentions as l.neg

/-- What is read off the lists of clauses of two are all their literals. -/
theorem mentions_pair_iff (symmetric : e.watches.Symmetric) :
    (∃ p, l ∈ e.watches.binary.get p) ↔
      ∃ a b, b ∈ e.watches.binary.get a.neg ∧ (l = a ∨ l = b) := by
  constructor
  · rintro ⟨p, listed⟩
    refine ⟨p.neg, l, ?_, .inr rfl⟩
    rwa [Lit.neg_neg]
  · rintro ⟨a, b, listed, rfl | rfl⟩
    · refine ⟨b.neg, Array.count_pos_iff.mp ?_⟩
      have count := Array.count_pos_iff.mpr listed
      have same := symmetric l.neg b
      rw [Lit.neg_neg] at same
      omega
    · exact ⟨a.neg, listed⟩

/-- Exactly the literals that occur are flagged. -/
theorem occurring_iff (h : e.Orderly) : (e.occurring as).get l = true ↔ e.Mentions as l := by
  have filed := h.shelved.booked.filed
  have stored (id : ClauseId) :
      id ∈ e.originals ++ e.learnts ↔ (e.clause id).isRemoved = false := by
    rw [Array.mem_append, ← Array.mem_toList_iff, ← Array.mem_toList_iff, filed.original, filed.learnt]
    cases (e.clause id).isLearnt <;> simp
  have listed : (∃ others ∈ e.watches.binary.values, l ∈ others) ↔
      ∃ p, l ∈ e.watches.binary.get p := by
    constructor
    · rintro ⟨others, slot, member⟩
      obtain ⟨p, rfl⟩ := e.watches.binary.exists_get_of_mem slot
      exact ⟨p, member⟩
    · rintro ⟨p, member⟩
      rcases e.watches.binary.get_mem_or_eq p with slot | blank
      · exact ⟨_, slot, member⟩
      · rw [blank, h.shelved.booked.blank] at member
        exact absurd member (Array.not_mem_empty l)
  -- What is flagged is, in this order, the arena, the pairs and the assumptions.
  have flagged : (e.occurring as).get l = true ↔
      (∃ id ∈ e.originals ++ e.learnts, l ∈ (e.clause id).lits) ∨
        (∃ others ∈ e.watches.binary.values, l ∈ others) ∨ l ∈ as := by
    unfold occurring flagStored
    dsimp only
    simp only [← Array.foldl_toList]
    rw [DenseFlags.get_foldl_raise,
      DenseFlags.get_foldl_raiseAll (fun others : Array Lit => others.toList),
      DenseFlags.get_foldl_raiseAll (fun id => (e.clause id).lits.toList)]
    simp [DenseFlags.empty, DenseMap.get_eq, or_assoc]
  rw [flagged, listed, mentions_pair_iff h.shelved.booked.symmetric]
  constructor
  · rintro (⟨id, member, inside⟩ | ⟨a, b, member, inside⟩ | member)
    · exact .stored ((stored id).mp member) inside
    · exact .pair member inside
    · exact .assumed member
  · rintro (⟨used, inside⟩ | ⟨member, inside⟩ | member)
    · exact .inl ⟨_, (stored _).mpr used, inside⟩
    · exact .inr (.inl ⟨_, _, member, inside⟩)
    · exact .inr (.inr member)

/-- At most one literal of a variable is pure. -/
theorem pureLit?_eq_some_iff {occurs : DenseFlags Lit} {v : Var} :
    e.pureLit? occurs v = some l ↔ l.var = v ∧ e.branching.decision.get v = true ∧
      e.trail.value v = .undecided ∧ occurs.get l = true ∧ occurs.get l.neg = false := by
  obtain ⟨w, positive⟩ := l
  unfold pureLit?
  dsimp only [Lit.neg]
  rw [← Trail.isUnassigned_iff]
  constructor
  · intro found
    split at found
    next passed =>
      simp only [Bool.and_eq_true, bne_iff_ne] at passed
      obtain ⟨⟨allowed, unassigned⟩, differ⟩ := passed
      cases found
      refine ⟨rfl, allowed, unassigned, ?_⟩
      cases up : occurs.get ⟨v, true⟩ with
      | true =>
        rw [up] at differ
        exact ⟨up, by simpa using differ.symm⟩
      | false =>
        rw [up] at differ
        exact ⟨by simpa using differ.symm, up⟩
    next => cases found
  · rintro ⟨rfl, allowed, unassigned, up, down⟩
    cases positive with
    | true =>
      rw [Bool.not_true] at down
      simp [allowed, unassigned, up, down]
    | false =>
      rw [Bool.not_false] at down
      simp [allowed, unassigned, up, down]

/-- The pure literals are listed in order of their variables. -/
theorem pureLits_increasing (e : Engine) (as : List Lit) :
    (e.pureLits as).Pairwise fun l m => l.var.index < m.var.index := by
  have vars : e.vars.Pairwise fun v w => v.index < w.index :=
    List.pairwise_map.mpr List.pairwise_lt_range
  refine vars.filterMap _ fun v w below l found m found' => ?_
  obtain ⟨rfl, -⟩ := pureLit?_eq_some_iff.mp found
  obtain ⟨rfl, -⟩ := pureLit?_eq_some_iff.mp found'
  exact below

theorem listsPure_pureLits (h : e.Orderly) (as : List Lit) : e.ListsPure as (e.pureLits as) where
  increasing := e.pureLits_increasing as
  nodup := (e.pureLits_increasing as).imp fun {l m} below (same : l = m) =>
    absurd below (same ▸ Nat.lt_irrefl _)
  exact := by
    intro l
    have clear : (e.occurring as).get l.neg = false ↔ ¬ e.Mentions as l.neg := by
      rw [← occurring_iff h, Bool.not_eq_true]
    unfold pureLits
    rw [List.mem_filterMap, ← occurring_iff h, ← clear]
    constructor
    · rintro ⟨v, inside, found⟩
      obtain ⟨rfl, allowed, unassigned, occurs, opposed⟩ := pureLit?_eq_some_iff.mp found
      exact ⟨⟨mem_vars.mp inside, allowed, unassigned⟩, occurs, opposed⟩
    · rintro ⟨free, occurs, opposed⟩
      exact ⟨l.var, mem_vars.mpr free.bound,
        pureLit?_eq_some_iff.mpr ⟨rfl, free.allowed, free.unassigned, occurs, opposed⟩⟩

/-- Neither a clause in use nor an assumption contains the negation of the literal. -/
structure Unopposed (e : Engine) (as : List Lit) (l : Lit) : Prop where
  stored : ∀ id, (e.clause id).isRemoved = false → l.neg ∉ (e.clause id).lits
  pairs : ∀ a b, b ∈ e.watches.binary.get a.neg → l.neg ≠ a ∧ l.neg ≠ b
  assumed : l.neg ∉ as

theorem ListsPure.unopposed {ls : List Lit} (h : e.ListsPure as ls) (member : l ∈ ls) :
    e.Unopposed as l := by
  have absent := ((h.exact l).mp member).2.2
  refine ⟨fun id used inside => absent (.stored used inside), fun a b listed => ?_,
    fun member => absent (.assumed member)⟩
  exact ⟨fun same => absent (.pair listed (.inl same)), fun same => absent (.pair listed (.inr same))⟩

end Engine

namespace Solver

open Engine

variable {F : List (List Lit)} {s t u : Solver} {steps : Nat} {answer : Answer} {outcome : Outcome}

/-! ### At level zero of a solve -/

/-- A solver in a solve, at level zero. -/
inductive Grounded (F : List (List Lit)) : Solver → Prop where
  | begun {s t : Solver} {as : List Lit} (before : History F s) (ok : s.engine.ok = true)
    (assumed : s.addAssumptions as = .ok t) : Grounded F t.begun
  | prepared {s t u v : Solver} {as : List Lit} (before : History F s) (ok : s.engine.ok = true)
    (assumed : s.addAssumptions as = .ok t) (asked : t.begun.stopRequested = (false, u))
    {answer : Except SolverError Bool} (result : u.prepare = (answer, v)) : Grounded F v
  | step {s : Solver} (before : Searched F s) (zero : s.engine.trail.level = 0) : Grounded F s
  | resumed {s t : Solver} (before : Searched F s) (proceeds : s.Proceeds t)
    (zero : t.resumed.engine.trail.level = 0) : Grounded F t.resumed
  | simplified {s t u : Solver} (before : Searched F s) (proceeds : s.Proceeds t)
    (zero : t.resumed.engine.trail.level = 0) {answer : Except SolverError Bool}
    (result : t.resumed.simplify = (answer, u)) : Grounded F u
  /-- The learnt clauses may have been reduced. -/
  | reduced {s t u v : Solver} (before : Searched F s) (proceeds : s.Proceeds t)
    (zero : t.resumed.engine.trail.level = 0) (result : t.resumed.simplify = (.ok true, u))
    {upkeep : Upkeep} (kept : u.reduceIfDue = (upkeep, v)) : Grounded F v

theorem Grounded.orderly (h : Grounded F s) : s.engine.Orderly := by
  have begins {s t : Solver} {as : List Lit} (before : History F s)
      (assumed : s.addAssumptions as = .ok t) : t.begun.engine.Orderly := by
    obtain ⟨rfl, -⟩ := addAssumptions_eq assumed
    exact (chores_begun (s.assuming as)).rounds.turns.orderly before.orderly
  cases h with
  | begun before ok assumed => exact begins before assumed
  | prepared before ok assumed asked result =>
    have orderly := begins before assumed
    obtain ⟨rfl, known⟩ := addAssumptions_eq assumed
    obtain ⟨searching, -, zero⟩ := ((before.ready ok).assuming known).begun
    have engine := (noted_stopRequested asked).engine
    rw [← engine] at orderly
    have chores := chores_prepare (engine ▸ searching.working.settled) (engine ▸ zero) result
    exact chores.rounds.turns.orderly orderly
  | step before zero => exact (Pause.reached (.search before)).orderly
  | resumed before proceeds zero => exact (Pause.resumed before proceeds).orderly
  | simplified before proceeds zero result => exact (Pause.simplified before proceeds zero result).orderly
  | reduced before proceeds zero result kept =>
    obtain ⟨log, searching⟩ := before.searching
    have working := (searching.proceeds proceeds).1.resumed.1.working
    have quiet := quiet_of_simplify working.settled zero result
    exact (rounds_reduceIfDue quiet.toSettled quiet.zero kept).turns.orderly
      (Pause.simplified before proceeds zero result).orderly

/-! ### Between solves -/

theorem undisturbed_pureLits : Undisturbed Solver.pureLits := fun _ _ _ _ _ => rfl

theorem pureLits_newVars (n : Nat) (s : Solver) : (newVars n s).pureLits = s.pureLits := by
  induction n generalizing s with
  | zero => rfl
  | succ n ih => exact ih _

theorem pureLits_addClause {c : List Lit} {b : Bool} (added : s.addClause c = (.ok b, t)) :
    t.pureLits = s.pureLits := by
  cases addClause_cases added <;> rfl

theorem pureLits_obeyed {d : Command} {more : List (List Lit)} (obeyed : s.Obeyed d more t) :
    t.pureLits = s.pureLits := by
  cases obeyed with
  | added result => exact pureLits_addClause result
  | created | told | refused => rfl
  | ensured n => exact pureLits_newVars n s
  | assumed result =>
    unfold addAssumption at result
    split at result <;> cases result
    rfl
  | allowed result =>
    unfold Solver.setDecision at result
    split at result <;> cases result
    rfl
  | preferred result =>
    unfold Solver.setPolarity at result
    split at result <;> cases result
    rfl
  | simplified _ result =>
    have same := undisturbed_pureLits.simplify s
    rw [result] at same
    exact same
  | @vivified minSize =>
    next result =>
    have same := undisturbed_pureLits.vivify s minSize
    rw [result] at same
    exact same

theorem pureLits_conclude {found : Outcome × Solver} (result : conclude found = (outcome, t)) :
    t.pureLits = #[] := by
  rcases found with ⟨_ | status, u⟩ <;> cases result
  · rfl
  · exact (noted_notify ((u.takeResult status).leaveSearch status) (.finished status)).pureLits

/-- Whatever a solve comes to, it leaves no pure literals. -/
theorem pureLits_solveWith {as : List Lit} (clear : s.pureLits = #[])
    (result : s.solveWith steps as = .ok (outcome, t)) : t.pureLits = #[] := by
  rcases solveWith_cases result with ⟨err, -, -, rfl⟩ | ⟨u, -, solved, rfl⟩
  · exact clear
  · change u.pureLits = #[]
    cases ok : s.engine.ok with
    | false =>
      rw [solveKeeping_of_not_ok (s := s.assuming as) ok] at solved
      cases solved
      exact clear
    | true =>
      rw [solveKeeping_eq (s := s.assuming as) steps ok (shows_of_solveKeeping ok solved)] at solved
      split at solved
      · exact pureLits_conclude (Except.ok.inj solved)
      next v starts =>
        cases searched : Solver.search steps v with
        | error fault =>
          rw [searched] at solved
          cases solved
        | ok found =>
          rw [searched] at solved
          exact pureLits_conclude (Except.ok.inj solved)

theorem History.pureLits_eq (h : History F s) : s.pureLits = #[] := by
  induction h with
  | create created =>
    obtain ⟨-, -, rfl⟩ := create_eq_ok_iff.mp created
    rfl
  | @call F s t before steps c answer called ih =>
    cases c with
    | ask =>
      cases called
      exact ih
    | obey d => exact (pureLits_obeyed (obeyed (Except.ok.inj called))).trans ih
    | solve as =>
      obtain ⟨outcome, result, -⟩ := call_solve called
      exact pureLits_solveWith ih result

/-- A search begins without pure literals, and looks for them before it decides. -/
theorem pureLits_opening (starts : s.opening = .search t) :
    t.pureLits = s.pureLits ∧ t.pureLitsStale = true := by
  unfold opening at starts
  rcases asked : s.stopRequested with ⟨stop, u⟩
  rw [asked] at starts
  cases stop with
  | true => cases starts
  | false =>
    dsimp only at starts
    split at starts
    · cases starts
    · have same := undisturbed_pureLits.prepare u
      generalize u.prepare = result at same starts
      rcases result with ⟨_ | fine, v⟩
      · cases starts
      · cases fine <;> cases starts
        exact ⟨same.trans (noted_stopRequested asked).pureLits, rfl⟩

/-! ### Pure literals of a search -/

/-- The upkeep of a search keeps the pure literals that are known, or finds them anew. -/
theorem pureLits_upkeep (before : Searched F s) (proceeds : s.Proceeds t)
    (zero : t.resumed.engine.trail.level = 0) (kept : t.resumed.upkeep = (.done, u)) :
    u.pureLitsStale = false ∧
      (u.pureLits = t.pureLits ∨ ∃ v, Grounded F v ∧ u = v.findPureLits) := by
  cases upkeep_cases kept with
  | broken _ _ undone => exact absurd rfl undone
  | @done v w simplified reduced =>
    have same : w.pureLits = t.resumed.pureLits := by
      have first := undisturbed_pureLits.simplify t.resumed
      have second := undisturbed_pureLits.reduceIfDue v
      rw [simplified] at first
      rw [reduced] at second
      exact second.trans first
    split
    next => exact ⟨rfl, .inr ⟨w, .reduced before proceeds zero simplified reduced, rfl⟩⟩
    next fresh =>
      refine ⟨Bool.eq_false_iff.mpr fresh, .inl ?_⟩
      obtain ⟨log, searching⟩ := before.searching
      exact same.trans (searching.proceeds proceeds).1.resumed.2.2

theorem Grounded.listsPure (h : Grounded F s) (wanted : s.engine.opts.pureLiterals = true) :
    s.engine.ListsPure s.assumptions.toList s.findPureLits.pureLits.toList := by
  have found : s.findPureLits.pureLits.toList = s.engine.pureLits s.assumptions.toList := by
    unfold findPureLits
    rw [if_pos wanted]
    rfl
  rw [found]
  exact listsPure_pureLits h.orderly _

/-- What is found at level zero of a solve are the pure literals, in order, and nothing opposes them.
A search begins without any, and finds them before it first branches at level zero; later it finds them
anew or keeps those that it knows. After a solve there are none. -/
theorem pureLits_exact :
    (∀ s, Grounded F s → s.engine.opts.pureLiterals = true →
      s.engine.ListsPure s.assumptions.toList s.findPureLits.pureLits.toList ∧
        ∀ l ∈ s.findPureLits.pureLits, s.engine.Unopposed s.assumptions.toList l) ∧
    (∀ s as t u, History F s → s.addAssumptions as = .ok t → t.begun.opening = .search u →
      u.pureLits = #[] ∧ u.pureLitsStale = true) ∧
    (∀ s t u, Searched F s → s.Proceeds t → t.resumed.engine.trail.level = 0 →
      t.resumed.upkeep = (.done, u) → u.pureLitsStale = false ∧
        (u.pureLits = t.pureLits ∨ ∃ v, Grounded F v ∧ u = v.findPureLits)) ∧
    ∀ s, History F s → s.pureLits = #[] ∧ ∀ steps as outcome t,
      s.solveWith steps as = .ok (outcome, t) → t.pureLits = #[] := by
  refine ⟨fun s grounded wanted => ?_, fun s as t u before assumed starts => ?_,
    fun s t u before proceeds zero kept => pureLits_upkeep before proceeds zero kept, fun s before => ?_⟩
  · have lists := grounded.listsPure wanted
    exact ⟨lists, fun l member => lists.unopposed (Array.mem_toList_iff.mpr member)⟩
  · obtain ⟨rfl, -⟩ := addAssumptions_eq assumed
    obtain ⟨same, stale⟩ := pureLits_opening starts
    have begun : (s.assuming as).begun.pureLits = s.pureLits := by
      obtain ⟨listener, budget, timed, -⟩ := (s.assuming as).setDeadline_eq
      rw [begun_eq, (noted_notify _ .started).pureLits, timed]
      rfl
    exact ⟨(same.trans begun).trans before.pureLits_eq, stale⟩
  · exact ⟨before.pureLits_eq, fun steps as outcome t result =>
      pureLits_solveWith before.pureLits_eq result⟩

/-- An assumption opposes the first variable, so that only the last one is pure. -/
theorem pureLits_exact_assumed : ∃ r s outcome t,
    History (clausesOf [[1, 2, 3], [1, -2], [-3, 4]]) r ∧
    Grounded (clausesOf [[1, 2, 3], [1, -2], [-3, 4]]) s ∧
    s.assumptions.toList = [.ofDimacs (-1)] ∧ s.findPureLits.pureLits.toList = [.ofDimacs 4] ∧
    s.engine.ListsPure [.ofDimacs (-1)] [.ofDimacs 4] ∧
    s.engine.Unopposed [.ofDimacs (-1)] (.ofDimacs 4) ∧
    r.solveWith 9 [.ofDimacs (-1)] = .ok (outcome, t) ∧ t.pureLits = #[] := by
  have passes : sessionPasses { pureLiterals := true } 9
      (giving 4 (clausesOf [[1, 2, 3], [1, -2], [-3, 4]]))
      (clausesOf [[1, 2, 3], [1, -2], [-3, 4]])
      (fun s => s.engine.ok && (s.searchPasses [.ofDimacs (-1)] (fun t =>
        t.engine.opts.pureLiterals && (t.engine.trail.level == 0 &&
          (t.assumptions.toList == [.ofDimacs (-1)] &&
            t.findPureLits.pureLits.toList == [.ofDimacs 4]))) &&
        (s.solveWith 9 [.ofDimacs (-1)]).isOk)) = true := by
    decide +kernel
  obtain ⟨r, history, tests⟩ := exists_of_sessionPasses passes
  obtain ⟨ok, tests⟩ := Bool.and_eq_true_iff.mp tests
  obtain ⟨searches, solves⟩ := Bool.and_eq_true_iff.mp tests
  obtain ⟨q, s, assumed, starts, tests⟩ := exists_of_searchPasses searches
  obtain ⟨wanted, tests⟩ := Bool.and_eq_true_iff.mp tests
  obtain ⟨zero, tests⟩ := Bool.and_eq_true_iff.mp tests
  obtain ⟨assumes, finds⟩ := Bool.and_eq_true_iff.mp tests
  have assumption := eq_of_beq assumes
  have found := eq_of_beq finds
  obtain ⟨exact, -, -, clear⟩ := pureLits_exact (F := clausesOf [[1, 2, 3], [1, -2], [-3, 4]])
  have grounded : Grounded (clausesOf [[1, 2, 3], [1, -2], [-3, 4]]) s :=
    .step (.start history ok assumed starts) (eq_of_beq zero)
  obtain ⟨lists, unopposed⟩ := exact s grounded wanted
  rcases solved : r.solveWith 9 [.ofDimacs (-1)] with fault | ⟨outcome, t⟩
  · rw [solved] at solves
    cases solves
  · have last : Lit.ofDimacs 4 ∈ s.findPureLits.pureLits := by
      rw [← Array.mem_toList_iff, found]
      exact List.mem_singleton_self _
    refine ⟨r, s, outcome, t, history, grounded, assumption, found, ?_, assumption ▸ unopposed _ last, solved,
      (clear r history).2 9 _ outcome t solved⟩
    rw [assumption, found] at lists
    exact lists

end Solver

end Cdcl
