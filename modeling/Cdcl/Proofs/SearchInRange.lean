import Cdcl.Proofs.UpkeepInRange

/-!
# Search in range

A step of a search propagates, and then it learns from a conflict, or it may restart, do its upkeep and
open levels. What each of them looks up is in range, and each leaves the tables with slots for all
variables, so that the next one finds them.

## Main results

- `branch_inRange`, `advance_inRange`: every access of the parts of a step is in range.
- `searchStep_inRange`: so is every access of a step, which meets no fault.
- `search_inRange`: so is every access of a search, however long. It meets no fault but that its allowance
  of steps is used up.
-/

namespace Cdcl

namespace Solver

open Engine

variable {F log : List (List Lit)} {s t u : Solver} {e f : Engine} {r : StepResult}

/-! ### What a search looks up -/

/-- The values of the literals to assume can be looked up, and then what the next level needs. -/
def BranchInRange (s : Solver) : Prop :=
  let toAssume := s.assumptions.toList.map (·, true) ++ s.pureLits.toList.map (·, false)
  (∀ x ∈ toAssume, s.engine.Knows x.1.var) ∧
    match s.engine.openAssumed (toAssume.drop s.engine.trail.level) with
    | (.next l, e) => e.Knows l.var
    | (.violated l, e) => e.AnalyzeFinalInRange l.neg
    | (.all, e) => e.HeapInRange

/-- The search can go back to level zero, and report how far it is. -/
structure RestartInRange (s : Solver) : Prop where
  cancels : s.engine.CancelInRange
  reports : s.restart.engine.ReportInRange

/-- After a propagation without conflict, if no limit is reached. -/
def AdvanceInRange (F : List (List Lit)) (s : Solver) : Prop :=
  ∀ u, s.withinBudget = (true, u) →
    (u.engine.policy.restartPending = true → u.RestartInRange) ∧
      (u.resumed.engine.trail.level = 0 →
        u.resumed.UpkeepInRange F ∧ ∀ t, u.resumed.upkeep = (.done, t) → t.BranchInRange) ∧
      (u.resumed.engine.trail.level ≠ 0 → u.resumed.BranchInRange)

/-- One step of a search. At level zero a conflict ends it, above it there is something to learn. -/
def StepInRange (F : List (List Lit)) (s : Solver) : Prop :=
  ∀ t, s.stopRequested = (false, t) →
    t.engine.PropagateInRange ∧
      match t.engine.propagate with
      | (e, none) => ({ t with engine := e } : Solver).AdvanceInRange F
      | (e, some c) =>
        e.trail.level ≠ 0 →
          (e.modifyStats fun st => { st with conflicts := st.conflicts + 1 }).HandleConflictInRange c

/-- Each step of a search can be taken, as long as the one before it says to go on. -/
def SearchInRange (F : List (List Lit)) : Nat → Solver → Prop
  | 0, _ => True
  | n + 1, s => s.StepInRange F ∧ ∀ t, s.searchStep = .ok (.continue, t) → SearchInRange F n t

/-! ### Decisions -/

theorem openAssumed_equipped (rest : List (Lit × Bool)) (h : e.Equipped) {a : Assumed}
    (result : Engine.openAssumed rest e = (a, f)) : f.Equipped := by
  induction rest generalizing e with
  | nil =>
    cases result
    exact h
  | cons entry rest ih =>
    unfold Engine.openAssumed at result
    split at result
    · cases result
      exact h
    · split at result
      · cases result
        exact h
      · exact ih h.openLevel result
    · exact ih h.openLevel result

/-- What is to be assumed in a search can be looked up. -/
theorem knows_toAssume (h : s.Searching F log) (equipped : s.Equipped) :
    ∀ x ∈ s.assumptions.toList.map (·, true) ++ s.pureLits.toList.map (·, false),
      s.engine.Knows x.1.var := by
  intro x member
  refine equipped.engine.knows (h.bounded x.1 ?_)
  rw [List.mem_append, List.mem_map, List.mem_map] at member
  rw [List.mem_append]
  rcases member with ⟨l, inside, rfl⟩ | ⟨l, inside, rfl⟩
  · exact .inl inside
  · exact .inr inside

/-- A literal that is picked can be decided. -/
theorem equipped_pickLit (offers : e.Offers) (equipped : e.Equipped) {choice : Option Lit}
    (picked : e.pickLit = (choice, f)) : f.Equipped ∧ ∀ l, choice = some l → (f.decide l).Equipped := by
  have picking := equipped.pickLit
  rw [picked] at picking
  refine ⟨picking, fun l chosen => ?_⟩
  obtain ⟨branching, rfl, -, spec⟩ := pickLit_spec offers picked
  cases chosen
  exact picking.decide spec.1

/-- What a decision looks up depends on what is left to assume. -/
theorem branchInRange_of_opened (h : s.Searching F log) (equipped : s.Equipped) {a : Assumed}
    (opened : s.engine.openAssumed s.toAssume = (a, e))
    (inRange : match a with
      | .next l => e.Knows l.var
      | .violated l => e.AnalyzeFinalInRange l.neg
      | .all => e.HeapInRange) : s.BranchInRange := by
  refine ⟨knows_toAssume h equipped, ?_⟩
  unfold toAssume at opened
  rw [opened]
  cases a <;> exact inRange

/-- Every access of a decision, or of what comes instead, is in range. -/
theorem branch_inRange (h : s.Searching F log)
    (propagated : s.engine.trail.head = s.engine.trail.lits.size) (orderly : s.engine.Orderly)
    (equipped : s.Equipped) (result : s.branch = (r, t)) : s.BranchInRange ∧ t.Equipped := by
  have opens {a : Assumed} {e : Engine} (opened : s.engine.openAssumed s.toAssume = (a, e)) :=
    h.working.openAssumed _ h.presumes propagated rfl opened
  have fits {a : Assumed} {e : Engine} (opened : s.engine.openAssumed s.toAssume = (a, e)) : e.Fit [] :=
    ((strides_openAssumed _ propagated opened).rounds.turns.orderly orderly).fit
      (openAssumed_equipped _ equipped.engine opened)
  -- With all assumptions true, a literal is picked from the heap.
  have picks {e : Engine} (opened : s.engine.openAssumed s.toAssume = (.all, e)) {choice : Option Lit}
      {f : Engine} (picked : (e.modifyStats fun st => { st with decisions := st.decisions + 1 }).pickLit =
        (choice, f)) :
      s.BranchInRange ∧ f.Equipped ∧ ∀ l, choice = some l → (f.decide l).Equipped := by
    obtain ⟨working, -⟩ := opens opened
    have offers := working.settled.offers
    have equipped' := (fits opened).equipped
    have counted : (e.modifyStats fun st => { st with decisions := st.decisions + 1 }).Equipped :=
      equipped'.modifyStats equipped'.deleted
    have offers' : (e.modifyStats fun st => { st with decisions := st.decisions + 1 }).Offers :=
      { offers with }
    exact ⟨branchInRange_of_opened h equipped opened (offers.heapInRange equipped'),
      equipped_pickLit offers' counted picked⟩
  cases branch_cases result with
  | @assumed l e opened =>
    obtain ⟨-, -, framed, -, -, next⟩ := opens opened
    have fit := fits opened
    cases next with
    | next unassigned at_level =>
      have bound : l.var.index < e.numVars :=
        framed.numVars ▸ h.bounded l (List.mem_of_getElem? at_level)
      exact ⟨branchInRange_of_opened h equipped opened (fit.knows bound), fit.equipped.decide bound,
        equipped.core⟩
  | @blamed l e f core opened analyzed =>
    obtain ⟨-, -, -, -, -, next⟩ := opens opened
    have fit := fits opened
    cases next with
    | violated fails at_level =>
      have assigned : l.neg ∈ e.trail.lits := (fit.sound.trail.isFalse_iff l).mp fails
      obtain ⟨equipped'', slotted⟩ := fit.equipped.analyzeFinal analyzed
      exact ⟨branchInRange_of_opened h equipped opened (fit.analyzeFinal_inRange assigned), equipped'',
        slotted⟩
  | exhausted opened picked =>
    obtain ⟨inRange, picking, -⟩ := picks opened picked
    exact ⟨inRange, picking, equipped.core⟩
  | picked opened picked =>
    obtain ⟨inRange, -, decides⟩ := picks opened picked
    exact ⟨inRange, decides _ rfl, equipped.core⟩

/-! ### Steps -/

/-- A solver in a search, its engine in order and its tables with slots. -/
structure Running (F log : List (List Lit)) (s : Solver) : Prop where
  searching : s.Searching F log
  orderly : s.engine.Orderly
  equipped : s.Equipped

/-- What the listener remembers does not matter. -/
theorem Running.noted (h : s.Running F log) (noted : s.Noted t) : t.Running F log :=
  ⟨h.searching.noted noted, noted.engine ▸ h.orderly, h.equipped.noted noted⟩

/-- Where a search is, its accesses to the engine are in range. -/
theorem Running.fit (h : s.Running F log) : s.engine.Fit [] := h.orderly.fit h.equipped.engine

theorem Running.restart (h : s.Running F log) : s.RestartInRange ∧ s.restart.Running F log := by
  have orderly := (chores_restart s).rounds.turns.orderly h.orderly
  have equipped : s.restart.Equipped := by
    have counted : s.engine.noteRestart.Equipped :=
      { h.equipped.engine with lbdWindow := h.equipped.engine.lbdWindow.clear }
    have back := counted.cancelTo (fun _ => h.fit.sound.trail.bounded _) 0
    exact Equipped.noted (s := { s with engine := _ }) ⟨back, h.equipped.core⟩ (noted_restart s)
  exact ⟨⟨h.fit.cancelInRange h.searching.working.settled.offers, (orderly.fit equipped.engine).reportInRange⟩,
    h.searching.restart.1, orderly, equipped⟩

/-- Where a search goes on after a propagation, restarted if that is due. -/
theorem Running.resumed (h : s.Running F log) :
    (s.engine.policy.restartPending = true → s.RestartInRange) ∧ s.resumed.Running F log := by
  obtain ⟨inRange, restarted⟩ := h.restart
  refine ⟨fun _ => inRange, ?_⟩
  unfold Solver.resumed
  split
  · exact restarted
  · exact h

/-- At level zero upkeep comes before the next decision. -/
theorem Running.rest_inRange (h : s.Running F log) (zero : s.engine.trail.level = 0)
    (rests : s.Resting r t) :
    (s.UpkeepInRange F ∧ ∀ v, s.upkeep = (.done, v) → v.BranchInRange) ∧ t.Equipped := by
  have assumable : ∀ l ∈ s.assumptions, l.var.index < s.engine.numVars := fun l member =>
    h.searching.bounded l (List.mem_append_left _ (Array.mem_toList_iff.mpr member))
  have upkeeps {u : Upkeep} {v : Solver} (upkept : s.upkeep = (u, v)) : s.UpkeepInRange F ∧ v.Equipped :=
    upkeep_inRange h.searching.working zero assumable h.orderly h.equipped upkept
  cases rests with
  | decided upkept decides =>
    obtain ⟨inRange, equipped⟩ := upkeeps upkept
    obtain ⟨more, searching, -, -, propagated, -⟩ := h.searching.upkept zero upkept
    have orderly := (rounds_upkeep h.searching.working zero upkept).turns.orderly h.orderly
    obtain ⟨branches, equipped'⟩ := branch_inRange searching propagated orderly equipped decides
    refine ⟨⟨inRange, fun w same => ?_⟩, equipped'⟩
    cases upkept.symm.trans same
    exact branches
  | refuted upkept | failed upkept | propagateFirst upkept =>
    obtain ⟨inRange, equipped⟩ := upkeeps upkept
    exact ⟨⟨inRange, fun w same => nomatch upkept.symm.trans same⟩, equipped⟩

/-- Every access after a propagation without conflict is in range. -/
theorem Running.advance_inRange (h : s.Running F log)
    (propagated : s.engine.trail.head = s.engine.trail.lits.size) (result : s.advance = (r, t)) :
    s.AdvanceInRange F ∧ t.Equipped := by
  unfold AdvanceInRange
  cases advance_cases result with
  | limited checked =>
    refine ⟨fun u same => ?_, h.equipped.noted (noted_withinBudget checked).1⟩
    cases checked.symm.trans same
  | rested checked zero rests =>
    obtain ⟨restarts, resumed⟩ := (h.noted (noted_withinBudget checked).1).resumed
    obtain ⟨inRange, equipped⟩ := resumed.rest_inRange zero rests
    refine ⟨fun v same => ?_, equipped⟩
    cases checked.symm.trans same
    exact ⟨restarts, fun _ => inRange, fun positive => absurd zero positive⟩
  | @decided _ u _ checked calm positive decides =>
    have noted := (noted_withinBudget checked).1
    have running := h.noted noted
    rw [← noted.engine] at propagated
    have same : u.resumed = u := if_neg (Bool.eq_false_iff.mp calm)
    obtain ⟨inRange, equipped⟩ :=
      branch_inRange running.searching propagated running.orderly running.equipped decides
    refine ⟨fun v same' => ?_, equipped⟩
    cases checked.symm.trans same'
    rw [same]
    exact ⟨running.resumed.1, fun zero => absurd zero positive, fun _ => inRange⟩

/-- The handling of a conflict above level zero is in range. -/
theorem Running.conflict_inRange (h : s.Running F log) {c : Conflict}
    (run : s.engine.propagate = (e, some c)) (positive : e.trail.level ≠ 0) :
    e.clashed.HandleConflictInRange c ∧
      ∀ handled g, e.clashed.handleConflict c = .ok (handled, g) → g.Equipped := by
  obtain ⟨-, -, -, conflict⟩ := h.searching.working.conflict run
  have fit := h.fit.propagateFrom run
  have offers : e.Offers :=
    h.searching.working.settled.offers.propagateFrom h.fit.sound h.fit.apart run
  have counted : e.clashed.Fit [] :=
    fit.queue { fit.sound with } { fit.apart with } fit.equipped.trail fit.equipped.deleted
  have shelved : e.clashed.Shelved :=
    (h.orderly.propagateFrom run).shelved.kept (SameBooks.others e).kept
  exact ⟨counted.handleConflict_inRange shelved { offers with } conflict positive,
    fun handled g handles => counted.equipped_handleConflict conflict positive handles⟩

/-- After a propagation without conflict the search is where it was, with nothing left to propagate. -/
theorem Running.proceeds (h : s.Running F log) (proceeds : s.Proceeds t) :
    t.Running F log ∧ t.engine.trail.head = t.engine.trail.lits.size := by
  obtain ⟨searching, -, -, propagated⟩ := h.searching.proceeds proceeds
  obtain ⟨asked, run⟩ := proceeds
  have noted := noted_stopRequested asked
  rw [noted.engine] at run
  exact ⟨⟨searching, h.orderly.propagateFrom run, (h.fit.propagateFrom run).equipped,
    (h.equipped.noted noted).core⟩, propagated⟩

/-- Every access of a step of a search is in range. -/
theorem Running.searchStep_inRange (h : s.Running F log) :
    s.StepInRange F ∧ ∀ r t, s.searchStep = .ok (r, t) → t.Equipped := by
  constructor
  · intro t asked
    have engine := (noted_stopRequested asked).engine
    refine ⟨engine ▸ h.fit.propagateFrom_inRange _, ?_⟩
    rcases run : t.engine.propagate with ⟨e, _ | c⟩
    · obtain ⟨running, propagated⟩ := h.proceeds (.mk asked run)
      exact (running.advance_inRange propagated rfl).1
    · rw [engine] at run
      exact fun positive => (h.conflict_inRange run positive).1
  · intro r t stepped
    cases searchStep_cases stepped with
    | stopped asked => exact h.equipped.noted (noted_stopRequested asked)
    | advanced proceeds advances =>
      obtain ⟨running, propagated⟩ := h.proceeds proceeds
      exact (running.advance_inRange propagated advances).2
    | @refuted e _ _ conflicts =>
      obtain ⟨asked, run⟩ := conflicts
      have noted := noted_stopRequested asked
      rw [noted.engine] at run
      have equipped := (h.fit.propagateFrom run).equipped
      have counted : e.clashed.Equipped := equipped.modifyStats equipped.deleted
      exact ⟨counted, (h.equipped.noted noted).core⟩
    | failed conflicts positive handled | learnt conflicts positive handled =>
      obtain ⟨asked, run⟩ := conflicts
      have noted := noted_stopRequested asked
      rw [noted.engine] at run
      exact ⟨(h.conflict_inRange run positive).2 _ _ handled, (h.equipped.noted noted).core⟩

/-! ### Searches -/

/-- A step that does not end the search leaves it as it was, and it takes the next. -/
theorem Running.next (h : s.Running F log) (stepped : s.searchStep = .ok (.continue, t)) :
    ∃ more, t.Running F more := by
  obtain ⟨more, searching, -⟩ := h.searching.next stepped
  exact ⟨more, searching, (rounds_searchStep h.searching stepped).turns.orderly h.orderly,
    h.searchStep_inRange.2 _ _ stepped⟩

/-- A part of a session comes to an end with slots for all that may be looked up, unless it uses up the
steps that it may make, or would have to give up too late. -/
def Lasts {α : Type} (late : Prop) : Except Fault (α × Solver) → Prop
  | .error fault => fault = .stepsExhausted ∨ fault = .deadlineTooLate ∧ late
  | .ok (_, t) => t.Equipped

theorem Lasts.mono {α : Type} {late later : Prop} {result : Except Fault (α × Solver)}
    (h : Lasts late result) (imp : late → later) : Lasts later result := by
  rcases result with fault | ⟨a, t⟩
  · exact Or.imp id (And.imp id imp) h
  · exact h

/-- Every access of a search is in range, and it meets no fault but that its steps are used up. The induction
is on the steps that are left. -/
theorem Running.search_inRange (n : Nat) (h : s.Running F log) :
    SearchInRange F n s ∧ Lasts False (Solver.search n s) := by
  induction n generalizing s log with
  | zero => exact ⟨trivial, .inl rfl⟩
  | succ n ih =>
    obtain ⟨inRange, equipped⟩ := h.searchStep_inRange
    obtain ⟨r, u, stepped, -⟩ := h.searching.step
    unfold SearchInRange Solver.search
    rw [stepped]
    cases r with
    | «continue» =>
      obtain ⟨more, running⟩ := h.next stepped
      obtain ⟨later, lasts⟩ := ih running
      refine ⟨⟨inRange, fun t same => ?_⟩, lasts⟩
      cases same
      exact later
    | finished | failed =>
      exact ⟨⟨inRange, fun t same => by cases same⟩, equipped _ _ stepped⟩

end Solver

end Cdcl
