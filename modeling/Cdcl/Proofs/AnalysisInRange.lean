import Cdcl.Proofs.PropagationInRange

/-!
# Conflict analysis in range

Analysis looks at literals of the conflict, walks the trail backwards, and goes from a literal to the
literals of its reason. Since those are false, their opposites are on the trail as well: whatever the
analysis comes to look at, and however it minimizes, is a literal of the trail and the reason of one.

## Main results

- `Fit.handleConflict_inRange`: every access in the handling of a conflict is in range, a decision is
  neither resolved nor explained, and the walk ends on the trail.
- `Fit.analyzeFinal_inRange`: every access in the search for a core is in range.
-/

namespace Cdcl

/-! ### What analysis looks up -/

/-- A value can be added to the window: once it is full, there is a slot where the value goes. -/
def Window.AddInRange {α : Type} (w : Window α) : Prop :=
  0 < w.capacity ∧ (w.capacity ≤ w.values.size → w.next < w.values.size)

namespace Engine

/-- The variable of a literal and its reason can be looked up. If the reason is a clause, the literal comes
first. The other literals of the reason are false, so that the trail has their opposites. -/
structure ReasonInRange (e : Engine) (l : Lit) : Prop where
  known : e.Knows l.var
  level : e.trail.levelOf l.var ≤ e.trail.level
  binary : ∀ other, e.trail.reason l.var = .binary other → other.neg ∈ e.trail.lits
  stored : ∀ id, e.trail.reason l.var = .clause id → id.slot < e.arena.clauses.size
  first : ∀ id, e.trail.reason l.var = .clause id → 0 < (e.clause id).size ∧ (e.clause id).lit 0 = l
  others : ∀ id, e.trail.reason l.var = .clause id → ∀ q ∈ (e.clause id).tail, q.neg ∈ e.trail.lits

/-- The analysis of a conflict stays in range, and ends with a clause. -/
structure AnalyzeInRange (e : Engine) (conflict : Conflict) : Prop where
  positive : 0 < e.trail.level
  reasons : ∀ l ∈ e.trail.lits, e.ReasonInRange l
  stored : ∀ id, conflict = .clause id → id.slot < e.arena.clauses.size
  falsified : ∀ l ∈ Resolution.conflictLits e conflict, l.neg ∈ e.trail.lits
  rescale : e.LearntsInRange
  heap : e.HeapInRange
  ends : ∃ f learnt, e.analyze conflict = .ok (f, learnt)

/-- Going back to a lower level: the marks are positions of the trail. -/
structure CancelInRange (e : Engine) : Prop where
  marks : ∀ k ∈ e.trail.marks, k ≤ e.trail.lits.size
  known : ∀ l ∈ e.trail.lits, e.Knows l.var
  heap : e.HeapInRange

/-- The clause can be stored and watched, and its first literal can be assigned. -/
structure AddLearntInRange (e : Engine) (c : Learnt) : Prop where
  nonempty : 0 < c.lits.size
  unassigned : ∀ l, c.lits.toList.head? = some l → e.trail.value l.var = .undecided
  distinct : (c.lits.toList.map Lit.var).Nodup
  known : ∀ l ∈ c.lits, e.Knows l.var
  rescale : e.LearntsInRange

def NoteConflictInRange (e : Engine) : Prop :=
  e.policy.lbdWindow.AddInRange ∧ e.policy.trailWindow.AddInRange

def HandleConflictInRange (e : Engine) (conflict : Conflict) : Prop :=
  e.AnalyzeInRange conflict ∧
    ∀ f learnt, e.analyze conflict = .ok (f, learnt) →
      f.CancelInRange ∧ (f.cancelTo learnt.level).AddLearntInRange learnt ∧
        ∀ g, (f.cancelTo learnt.level).addLearnt learnt = .ok g → g.NoteConflictInRange

/-- The search for the assumptions that a literal rests on: it does not come to facts, and leaves no
marks. -/
structure AnalyzeFinalInRange (e : Engine) (p : Lit) : Prop where
  known : e.Knows p.var
  marks : ∀ k ∈ e.trail.marks, k ≤ e.trail.lits.size
  reasons : ∀ l ∈ e.trail.lits, e.ReasonInRange l
  above : ∀ l i, (l, i) ∈ e.trail.above 0 → 0 < e.trail.levelOf l.var
  cleared : ∀ v, (e.analyzeFinal p).1.seen.get v = .unseen

end Engine

theorem Window.Ringed.addInRange {w : Window Float} (h : w.Ringed) : w.AddInRange :=
  ⟨h.capacity, Nat.lt_of_lt_of_le h.next⟩

theorem Policy.ringed_noteConflict {p : Policy} (lbdWindow : p.lbdWindow.Ringed)
    (trailWindow : p.trailWindow.Ringed) (o : Options) (conflicts lbd trailSize : Nat) :
    (p.noteConflict o conflicts lbd trailSize).1.lbdWindow.Ringed ∧
      (p.noteConflict o conflicts lbd trailSize).1.trailWindow.Ringed := by
  unfold Policy.noteConflict
  dsimp only
  split
  · split
    · exact ⟨lbdWindow.clear.add _, trailWindow.add _⟩
    · exact ⟨lbdWindow.add _, trailWindow.add _⟩
  · exact ⟨lbdWindow, trailWindow⟩
  · exact ⟨lbdWindow, trailWindow⟩

/-! ### Slots stay during minimization -/

namespace Frontier

variable {n : Nat} {x : Explainer} {mask : LevelMask} {f g : Frontier} {lits : List Lit} {answer : Bool}

theorem le_size_absorb (le : n ≤ f.seen.size) (result : absorb x mask lits f = (answer, g)) :
    n ≤ g.seen.size := by
  induction lits generalizing f with
  | nil => cases result; exact le
  | cons l lits ih =>
    unfold absorb at result
    split at result
    · exact ih le result
    split at result
    · exact ih (DenseMap.le_size_insert le _ _) result
    · cases result
      exact le

theorem le_size_explain {fuel : Nat} (le : n ≤ f.seen.size)
    (result : explain x mask fuel f = .ok (answer, g)) : n ≤ g.seen.size := by
  induction fuel generalizing f with
  | zero => cases result
  | succ fuel ih =>
    unfold explain at result
    split at result
    · cases result
      exact le
    split at result
    · cases result
    next l stack _ _ causes _ =>
      split at result
      next h absorbed => exact ih (le_size_absorb (f := { f with stack }) le absorbed) result
      next h absorbed =>
        cases result
        exact le_size_absorb (f := { f with stack }) le absorbed

theorem le_size_unmark (le : n ≤ f.seen.size) : n ≤ f.unmark.size :=
  DenseMap.le_size_foldl_insert (fun l : Lit => l.var) (fun _ => Seen.unseen) _ le

end Frontier

namespace Minimizer

/-- A minimization loses no marks' slots, and keeps no more literals than it has gone through. -/
structure Sized (n k : Nat) (m : Minimizer) : Prop where
  seen : n ≤ m.seen.size
  kept : m.kept.size ≤ k

variable {n k : Nat} {x : Explainer} {m m' : Minimizer} {mask : LevelMask} {numVars : Nat}

theorem Sized.keep (h : m.Sized n k) (l : Lit) : Sized n (k + 1) { m with kept := m.kept.push l } :=
  ⟨h.seen, by simpa using h.kept⟩

theorem Sized.stepLocal (h : m.Sized n k) (l : Lit) : (m.stepLocal x l).Sized n (k + 1) := by
  have skipped : m.Sized n (k + 1) := ⟨h.seen, Nat.le_succ_of_le h.kept⟩
  unfold Minimizer.stepLocal
  split
  · exact h.keep l
  · split
    · exact h.keep l
    · exact skipped

theorem Sized.stepRecursive (h : m.Sized n k) {l : Lit}
    (result : m.stepRecursive x numVars mask l = .ok m') : m'.Sized n (k + 1) := by
  unfold Minimizer.stepRecursive at result
  split at result
  · cases result
    exact h.keep l
  split at result
  · cases result
  next f explained =>
    cases result
    exact ⟨Frontier.le_size_explain (f := { seen := m.seen, stack := [l] }) h.seen explained,
      Nat.le_succ_of_le h.kept⟩
  next f explained =>
    cases result
    refine ⟨Frontier.le_size_unmark ?_, (h.keep l).kept⟩
    exact Frontier.le_size_explain (f := { seen := m.seen, stack := [l] }) h.seen explained

theorem Sized.foldl_stepLocal (lits : List Lit) (h : m.Sized n k) :
    (lits.foldl (Minimizer.stepLocal x) m).Sized n (k + lits.length) := by
  induction lits generalizing k m with
  | nil => exact h
  | cons l lits ih =>
    rw [List.length_cons, Nat.add_comm lits.length, ← Nat.add_assoc]
    exact ih (h.stepLocal l)

theorem Sized.foldlM_stepRecursive (lits : List Lit) (h : m.Sized n k)
    (result : lits.foldlM (Minimizer.stepRecursive x numVars mask) m = .ok m') :
    m'.Sized n (k + lits.length) := by
  induction lits generalizing k m with
  | nil =>
    cases result
    exact h
  | cons l lits ih =>
    rw [List.foldlM_cons] at result
    rw [List.length_cons, Nat.add_comm lits.length, ← Nat.add_assoc]
    cases step : m.stepRecursive x numVars mask l with
    | error fault =>
      rw [step] at result
      cases result
    | ok between =>
      rw [step] at result
      exact ih (h.stepRecursive step) result

theorem sized_run {seen : DenseMap Var Seen} (le : n ≤ seen.size) {mode : Nat} {others : List Lit}
    (result : run x mode numVars seen others = .ok m) : m.Sized n others.length := by
  have start : Sized n 0 { seen } := ⟨le, Nat.le_refl _⟩
  unfold run at result
  split at result
  next =>
    cases result
    simpa using start.foldl_stepLocal others
  next => simpa using start.foldlM_stepRecursive others result
  next =>
    cases result
    exact ⟨le, by simp⟩

end Minimizer

namespace Engine

variable {e f : Engine} {l p : Lit} {id : ClauseId} {c : Conflict} {aside : List ClauseId}

/-! ### Slots stay during resolution -/

theorem Equipped.mark (h : e.Equipped) {branching : Branching} (spans : branching.Spans e.numVars)
    {seen : DenseMap Var Seen} (le : e.numVars ≤ seen.size) :
    ({ e with branching, seen } : Engine).Equipped := { h with branching := spans, seen := le }

theorem Equipped.setSeen (h : e.Equipped) (v : Var) (s : Seen) : (e.setSeen v s).Equipped :=
  h.mark h.branching (DenseMap.le_size_insert h.seen v s)

theorem Equipped.bumpClause (h : e.Equipped) (id : ClauseId) : (e.bumpClause id).Equipped := by
  unfold Engine.bumpClause
  dsimp only
  split
  · exact { h with }
  · exact { h with }

theorem Equipped.bumpIfLearnt (h : e.Equipped) (id : ClauseId) : (e.bumpIfLearnt id).Equipped := by
  unfold Engine.bumpIfLearnt
  split
  · exact h.bumpClause id
  · exact h

theorem Equipped.effects (h : e.Equipped) (effects : Resolution.Effects e f) : f.Equipped := by
  refine effects.keeps (fun effect h => ?_) h
  cases effect with
  | mark v s => exact h.setSeen v s
  | meet v => exact h.mark (h.branching.bump v) (DenseMap.le_size_insert h.seen v .source)
  | cite id => exact h.bumpIfLearnt id

/-- What minimization leaves of a clause is no longer than the clause. -/
theorem Equipped.analyze (h : e.Equipped) {learnt : Learnt} (result : e.analyze c = .ok (f, learnt)) :
    f.Equipped := by
  unfold Engine.analyze at result
  dsimp only at result
  split at result
  · cases result
  next r p position found =>
    have unmarked := h.effects (Resolution.effects_found found)
    generalize Resolution.unmarkResolved position r.engine = u at result unmarked
    split at result
    · cases result
    next m ran =>
      have sized := Minimizer.sized_run unmarked.seen ran
      cases result
      have cleared : u.numVars ≤ ((r.lits.toList ++ m.marked).foldl
          (fun seen l => seen.insert l.var Seen.unseen) m.seen).size :=
        DenseMap.le_size_foldl_insert (fun l : Lit => l.var) (fun _ => Seen.unseen) _ sized.seen
      refine { unmarked with seen := DenseMap.le_size_insert cleared _ _, deleted := ?_ }
      -- The literals found and the opposite of `p` are counted before minimization, what is left after it.
      have size : (u.trail.bringHighest 1 (#[p.neg] ++ m.kept)).size = m.kept.size + 1 := by
        simp [Trail.bringHighest, Nat.add_comm]
      have shorter := sized.kept
      have before := unmarked.deleted
      change u.stats.literalsAfter + (u.trail.bringHighest 1 (#[p.neg] ++ m.kept)).size ≤
        u.stats.literalsBefore + r.lits.toList.length + 1
      omega

theorem Equipped.storeLearnt (h : e.Equipped) {lits : Array Lit} {lbd : Nat}
    (result : e.storeLearnt lits lbd = .ok (id, f)) : f.Equipped ∧ f.numVars = e.numVars := by
  obtain ⟨arena, -, rfl⟩ := storeLearnt_eq result
  have placed : (e.withLearnt id arena lits lbd).Equipped := by
    unfold withLearnt
    exact { h.modifyLbdCounts (min lbd Clause.maxLbd) (· + 1) with watches := h.watches.watch _ _ _ }
  exact ⟨placed.bumpClause id, (rescored_bumpClause _ id).numVars⟩

theorem Equipped.addLearnt (h : e.Equipped) {learnt : Learnt}
    (bounded : ∀ q ∈ learnt.lits.toList, q.var.index < e.numVars)
    (result : e.addLearnt learnt = .ok f) : f.Equipped := by
  cases addLearnt_cases result with
  | empty => exact h
  | @unit l list => exact h.assign (bounded l (by simp [list])) _
  | @pair l other list =>
    have bound : l.var.index < (e.addBinary l other true).numVars := bounded l (by simp [list])
    exact (h.addBinary l other true).assign bound _
  | @stored l _ _ _ _ _ list stored =>
    obtain ⟨equipped, numVars⟩ := h.storeLearnt stored
    exact equipped.assign (numVars ▸ bounded l (by simp [list])) _

theorem Equipped.noteConflict (h : e.Equipped) (lbd trailSize : Nat) :
    (e.noteConflict lbd trailSize).Equipped := by
  have ringed := Policy.ringed_noteConflict h.lbdWindow h.trailWindow e.opts e.stats.conflicts lbd
    trailSize
  have noted : ({ e with
      policy := (e.policy.noteConflict e.opts e.stats.conflicts lbd trailSize).1 } : Engine).Equipped :=
    { h with lbdWindow := ringed.1, trailWindow := ringed.2 }
  unfold Engine.noteConflict
  dsimp only
  split
  · exact { noted with }
  · exact noted

/-! ### Reasons and levels -/

/-- Each literal of the trail has a reason whose other literals are false. -/
theorem Fit.reasonInRange (h : e.Fit aside) (member : l ∈ e.trail.lits) : e.ReasonInRange l := by
  obtain ⟨i, at_i⟩ := Array.mem_iff_getElem?.mp member
  have explained := h.sound.justified at_i
  refine ⟨h.sound.knows h.equipped member, h.sound.trail.levelOf_le member, fun other binary => ?_,
    fun id clause => ?_, fun id clause => ?_, fun id clause q inTail => ?_⟩
  · rw [binary] at explained
    obtain ⟨-, j, -, at_j, -⟩ := explained
    exact Array.mem_of_getElem? at_j
  -- A clause that is a reason is attached, so that it has at least three literals.
  all_goals
    rw [clause] at explained
    obtain ⟨attached, first, earlier, -⟩ := explained
    have used := isRemoved_of_isAttached attached
  · exact slot_lt used
  · exact ⟨Nat.lt_of_lt_of_le (by decide) (h.sound.proper id used).size, first⟩
  · obtain ⟨j, -, at_j⟩ := earlier q inTail
    exact Array.mem_of_getElem? at_j

theorem Fit.cancelInRange (h : e.Fit aside) (offers : e.Offers) : e.CancelInRange where
  marks := h.marks_le
  known := fun _ member => h.sound.knows h.equipped member
  heap := offers.heapInRange h.equipped

theorem Fit.cancelTo (h : e.Fit aside) (level : Nat) : (e.cancelTo level).Fit aside :=
  h.sameBooks (sameBooks_cancelTo e level) (h.sound.cancelTo level) (h.apart.cancelTo level)
    (h.equipped.cancelTo (fun _ => h.sound.trail.bounded _) level)

/-! ### Conflicts -/

theorem Fit.analyze (h : e.Fit aside) (conflict : e.IsConflict c) (positive : e.trail.level ≠ 0)
    {learnt : Learnt} (result : e.analyze c = .ok (f, learnt)) : f.Fit aside := by
  obtain ⟨examined, unseen, -⟩ := analyze_teaches h.sound conflict positive result
  exact h.sameBooks (sameBooks_analyze result) (examined.sound h.sound unseen)
    (examined.frozenApart h.apart) (h.equipped.analyze result)

theorem Fit.analyzeInRange (h : e.Fit aside) (shelved : e.Shelved) (offers : e.Offers)
    (conflict : e.IsConflict c) (positive : e.trail.level ≠ 0) : e.AnalyzeInRange c where
  positive := Nat.pos_of_ne_zero positive
  reasons := fun _ => h.reasonInRange
  stored := by
    rintro id rfl
    obtain ⟨p, -, -, used, -⟩ := conflict
    exact slot_lt used
  falsified := by
    obtain ⟨p, -, -, falsifies⟩ := conflict
    exact (Resolution.conflict_lits h.sound falsifies).2.1
  rescale := shelved.learntsInRange
  heap := offers.heapInRange h.equipped
  ends := analyze_total h.sound conflict positive

theorem Examined.stillOffers (h : e.Examined f) (offers : e.Offers) : f.Offers := by
  unfold Engine.Offers
  rw [h.numVars, h.trail]
  exact h.offers _ _ offers

/-- The clause learnt is of variables that were created. -/
theorem Asserts.known {rest : List Lit} {learnt : Learnt} (h : e.Asserts learnt l rest)
    (coherent : e.trail.Coherent e.numVars) : ∀ q ∈ learnt.lits.toList, q.var.index < e.numVars := by
  intro q member
  rw [h.lits] at member
  rcases List.mem_cons.mp member with rfl | later
  · exact h.bound
  · exact h.bounded coherent later

/-- Every access in the handling of a conflict is in range, and its analysis ends. -/
theorem Fit.handleConflict_inRange (h : e.Fit aside) (shelved : e.Shelved) (offers : e.Offers)
    (conflict : e.IsConflict c) (positive : e.trail.level ≠ 0) : e.HandleConflictInRange c := by
  refine ⟨h.analyzeInRange shelved offers conflict positive, fun f learnt result => ?_⟩
  obtain ⟨examined, -, teaches⟩ := analyze_teaches h.sound conflict positive result
  have analyzed := h.analyze conflict positive result
  have back := analyzed.cancelTo learnt.level
  -- What is learnt asserts its first literal, and the others are false at the level gone back to.
  obtain ⟨l, rest, asserts⟩ := teaches.asserts examined.trail analyzed.sound.trail
  have known := asserts.known back.sound.trail
  have books := sameBooks_back result
  refine ⟨analyzed.cancelInRange (examined.stillOffers offers),
    ⟨?_, fun q first => ?_, asserts.distinct,
      fun q member => back.knows (known q (Array.mem_toList_iff.mpr member)), ?_⟩, fun g stored => ?_⟩
  · rw [← Array.length_toList, asserts.lits]
    exact Nat.succ_pos _
  · rw [asserts.lits] at first
    cases first
    exact asserts.unassigned
  · exact books.learntsInRange shelved.learntsInRange
  · have equipped := back.equipped.addLearnt known stored
    exact ⟨equipped.lbdWindow.addInRange, equipped.trailWindow.addInRange⟩

theorem Fit.equipped_handleConflict (h : e.Fit aside) (conflict : e.IsConflict c)
    (positive : e.trail.level ≠ 0) {handled : Handled}
    (result : e.handleConflict c = .ok (handled, f)) : f.Equipped := by
  cases handleConflict_cases result with
  | full analysis => exact ((h.analyze conflict positive analysis).cancelTo _).equipped
  | @learnt _ b d analysis added =>
    obtain ⟨examined, -, teaches⟩ := analyze_teaches h.sound conflict positive analysis
    have analyzed := h.analyze conflict positive analysis
    have back := analyzed.cancelTo d.level
    obtain ⟨l, rest, asserts⟩ := teaches.asserts examined.trail analyzed.sound.trail
    have equipped := back.equipped.addLearnt (asserts.known back.sound.trail) added
    have decayed : b.decayActivities.Equipped :=
      { equipped with branching := { equipped.branching with } }
    exact decayed.noteConflict _ _

/-- Every access in the search for a core is in range. -/
theorem Fit.analyzeFinal_inRange (h : e.Fit aside) (assigned : p ∈ e.trail.lits) :
    e.AnalyzeFinalInRange p where
  known := h.sound.knows h.equipped assigned
  marks := h.marks_le
  reasons := fun _ => h.reasonInRange
  above := by
    intro l i member
    obtain ⟨later, at_i⟩ := Trail.mem_above_iff.mp member
    rw [h.sound.trail.level_eq at_i]
    by_contra zero
    by_cases levels : 0 < e.trail.level
    · have before := (h.sound.trail.levelAt_le_iff levels i).mp (Nat.le_of_not_lt zero)
      omega
    · rw [Trail.Coherent.startAbove_of_level_le (Nat.le_of_not_lt levels)] at later
      exact absurd (Array.getElem?_eq_some_iff.mp at_i).1 (Nat.not_lt.mpr later)
  cleared := (analyzeFinal_spec h.sound assigned rfl).2.1

theorem le_size_foldl_markAbove {n : Nat} (t : Trail) (lits : List Lit) {seen : DenseMap Var Seen}
    (le : n ≤ seen.size) : n ≤ (lits.foldl (markAbove t) seen).size := by
  induction lits generalizing seen with
  | nil => exact le
  | cons l lits ih =>
    refine ih ?_
    unfold markAbove
    split
    · exact le
    · exact DenseMap.le_size_insert le _ _

/-- Explaining a literal only sets marks, and adds to the core. -/
theorem explainFinal_step {n : Nat} (x : Explainer) {state : DenseMap Var Seen × DenseSet Lit}
    (le : n ≤ state.1.size) (slotted : state.2.Slotted) (l : Lit) :
    n ≤ (explainFinal x state l).1.size ∧ (explainFinal x state l).2.Slotted := by
  unfold explainFinal
  dsimp only
  split
  · exact ⟨le, slotted⟩
  split
  · exact ⟨DenseMap.le_size_insert le _ _, slotted.insert _⟩
  · exact ⟨DenseMap.le_size_insert (le_size_foldl_markAbove _ _ le) _ _, slotted⟩

theorem Equipped.analyzeFinal (h : e.Equipped) {core : DenseSet Lit}
    (result : e.analyzeFinal p = (f, core)) : f.Equipped ∧ core.Slotted := by
  have single : (DenseSet.empty.insert p).Slotted := DenseSet.slotted_empty.insert p
  unfold Engine.analyzeFinal at result
  dsimp only at result
  split at result
  · cases result
    exact ⟨h, single⟩
  have steps : ∀ (lits : List Lit) (state : DenseMap Var Seen × DenseSet Lit),
      e.numVars ≤ state.1.size → state.2.Slotted →
      e.numVars ≤ (lits.foldl (explainFinal e.explainer) state).1.size ∧
        (lits.foldl (explainFinal e.explainer) state).2.Slotted := by
    intro lits
    induction lits with
    | nil => exact fun state le slotted => ⟨le, slotted⟩
    | cons l lits ih =>
      intro state le slotted
      obtain ⟨le', slotted'⟩ := explainFinal_step e.explainer le slotted l
      exact ih _ le' slotted'
  have walked := steps ((e.trail.above 0).map Prod.fst) (e.seen.insert p.var .source, _)
    (DenseMap.le_size_insert h.seen _ _) single
  cases result
  exact ⟨{ h with seen := DenseMap.le_size_insert walked.1 _ _ }, walked.2⟩

end Engine

end Cdcl
