import Cdcl.Proofs.ReductionInRange
import Cdcl.Proofs.VivificationInRange

/-!
# Upkeep in range

A compaction follows every handle there is: those of the watch lists once they are cleaned, those of the
reasons, and those of the lists of clauses. The search for pure literals goes through all clauses. Neither
comes upon a handle or a literal that is out of range, and so no part of the upkeep does.

## Main results

- `Fit.compactInRange`, `Fit.pureLitsInRange`: every access of a compaction and of the search for pure
  literals is in range.
- `simplify_inRange`, `vivifyQuietly_inRange`, `upkeep_inRange`: so is every access of the upkeep, even if
  its compaction fails for want of room.
-/

namespace Cdcl

namespace Engine

variable {F : List (List Lit)} {e f : Engine} {id : ClauseId} {aside : List ClauseId}

/-! ### What goes through all clauses -/

/-- The clauses that are held can be moved: each leaves its new handle in the place of a literal. A clause that
is a reason is still in use. -/
structure CompactInRange (e : Engine) : Prop where
  wasted : e.arena.space.wasted ≤ e.arena.space.used
  swept : e.SweepInRange
  frozen : ∀ p, ∀ w ∈ e.watches.frozen.get p, w.clause.slot < e.arena.clauses.size
  trail : ∀ l ∈ e.trail.lits, e.Knows l.var
  reasons : ∀ l ∈ e.trail.lits, ∀ id, e.trail.reason l.var = .clause id → (e.clause id).isRemoved = false
  moves : e.swept.Handles fun id => id.slot < e.arena.clauses.size ∧ 0 < (e.clause id).size

/-- The literals that occur are flagged in a table with two slots for each variable. -/
structure PureLitsInRange (e : Engine) (assumptions : List Lit) : Prop where
  reads : ∀ id, id ∈ e.originals ∨ id ∈ e.learnts → e.Reads id
  stored : ∀ id, id ∈ e.originals ∨ id ∈ e.learnts → ∀ l ∈ (e.clause id).lits, l.var.index < e.numVars
  binary : ∀ p, ∀ q ∈ e.watches.binary.get p, q.var.index < e.numVars
  assumed : ∀ l ∈ assumptions, l.var.index < e.numVars
  vars : ∀ v ∈ e.vars, e.Knows v

/-- No level starts after the next one. -/
def ReportInRange (e : Engine) : Prop :=
  ∀ i ≤ e.trail.level,
    (if i = 0 then 0 else e.trail.marks.getD (i - 1) 0) ≤
      if i = e.trail.level then e.trail.size else e.trail.marks.getD i 0

theorem Fit.compactInRange (h : e.Fit aside) (lists : e.ListsUsed) : e.CompactInRange := by
  obtain ⟨_, _, booked⟩ := h.booked
  have words := booked.balanced.words
  have moves (id : ClauseId) (used : (e.clause id).isRemoved = false) :
      id.slot < e.arena.clauses.size ∧ 0 < (e.clause id).size :=
    ⟨slot_lt used, Nat.lt_of_lt_of_le (by decide) (h.sound.proper id used).size⟩
  have held := h.sound.handles_swept lists
  exact
    { wasted := by omega
      swept := h.equipped.sweepInRange h.sound.inside
      frozen := h.watched.inside
      trail := fun _ member => h.sound.knows h.equipped member
      reasons := held.reasons
      moves :=
        { long := fun p w member => moves _ (held.long p w member)
          frozen := fun p w member => moves _ (held.frozen p w member)
          reasons := fun l member id reason => moves _ (held.reasons l member id reason)
          originals := fun id member => moves _ (held.originals id member)
          learnts := fun id member => moves _ (held.learnts id member) } }

theorem Fit.pureLitsInRange (h : e.Fit aside) (lists : e.ListsUsed) {assumptions : List Lit}
    (assumed : ∀ l ∈ assumptions, l.var.index < e.numVars) : e.PureLitsInRange assumptions where
  reads id listed := h.reads (lists id listed)
  stored id listed := (h.sound.proper id (lists id listed)).bounded
  binary p q member := (h.sound.binary_bounded p q member).2
  assumed := assumed
  vars _ member := h.knows (mem_vars.mp member)

theorem Fit.reportInRange (h : e.Fit aside) : e.ReportInRange := by
  have coherent := h.sound.trail
  have below {k : Nat} (low : k < e.trail.marks.size) : e.trail.marks[k] ≤ e.trail.lits.size :=
    h.marks_le _ (Array.getElem_mem low)
  intro i le
  change i ≤ e.trail.marks.size at le
  unfold Trail.level Trail.size
  rcases Nat.eq_zero_or_pos i with rfl | positive
  · exact Nat.zero_le _
  rw [if_neg (Nat.pos_iff_ne_zero.mp positive), Array.getD_eq_getD_getElem?,
    Array.getElem?_eq_getElem (by omega), Option.getD_some]
  split
  · exact below (by omega)
  next inside =>
    have low : i < e.trail.marks.size := by omega
    rw [Array.getD_eq_getD_getElem?, Array.getElem?_eq_getElem low, Option.getD_some]
    exact List.pairwise_iff_getElem.mp coherent.sorted (i - 1) i _ _ (by omega)

/-! ### Slots stay when clauses move -/

section Moving

variable {α β : Type} {m k : ClauseArena.Move} {n : Nat} {t u : Trail}

theorem Moving.exists_of_bind {x : Moving α} {next : α → Moving β} {w : β}
    (result : (x >>= next) m = .ok (w, k)) : ∃ v j, x m = .ok (v, j) ∧ next v j = .ok (w, k) := by
  change Except.bind (x m) _ = _ at result
  rcases run : x m with err | ⟨v, j⟩
  · rw [run] at result
    cases result
  · rw [run] at result
    exact ⟨v, j, rfl, result⟩

theorem le_size_followReason (le : n ≤ t.reasons.size) {l : Lit}
    (result : followReason t l m = .ok (u, k)) : n ≤ u.reasons.size := by
  unfold followReason at result
  cases reason : t.reason l.var with
  | clause id =>
    rw [reason] at result
    obtain ⟨_, _, -, result⟩ := Moving.exists_of_bind result
    split at result
    · cases result
      exact DenseMap.le_size_insert le _ _
    · obtain ⟨_, _, -, result⟩ := Moving.exists_of_bind result
      cases result
      exact DenseMap.le_size_insert le _ _
  | decision | binary =>
    rw [reason] at result
    cases result
    exact le

theorem le_size_followReasons (ls : List Lit) (le : n ≤ t.reasons.size)
    (result : ls.foldlM followReason t m = .ok (u, k)) : n ≤ u.reasons.size := by
  induction ls generalizing t m with
  | nil =>
    rw [List.foldlM_nil] at result
    cases result
    exact le
  | cons l ls ih =>
    rw [List.foldlM_cons] at result
    obtain ⟨_, _, followed, result⟩ := Moving.exists_of_bind result
    exact ih (le_size_followReason le followed) result

end Moving

theorem le_size_compact {n : Nat} (le : n ≤ e.trail.reasons.size) (result : e.compact = .ok f) :
    n ≤ f.trail.reasons.size := by
  unfold Engine.compact at result
  rcases run : e.followAll (.start e.arena) with err | ⟨moved, m⟩
  · rw [run] at result
    cases result
  · rw [run] at result
    cases result
    unfold Engine.followAll at run
    obtain ⟨_, _, -, run⟩ := Moving.exists_of_bind run
    obtain ⟨_, _, -, run⟩ := Moving.exists_of_bind run
    obtain ⟨_, _, -, run⟩ := Moving.exists_of_bind run
    obtain ⟨_, _, -, run⟩ := Moving.exists_of_bind run
    -- After the watch lists the reasons of the trail follow their clauses.
    obtain ⟨trail, _, followed, run⟩ := Moving.exists_of_bind run
    obtain ⟨_, _, -, run⟩ := Moving.exists_of_bind run
    obtain ⟨_, _, -, run⟩ := Moving.exists_of_bind run
    cases run
    rw [← Array.foldlM_toList] at followed
    exact le_size_followReasons _ le followed

theorem Settled.equipped_compact (h : e.Settled F) (equipped : e.Equipped) (result : e.compact = .ok f) :
    f.Equipped := by
  obtain ⟨ids, b, reasons, -, -, -, rfl⟩ := h.compact_eq result
  have trail : ({ e.trail with reasons } : Trail).Spans e.numVars :=
    { equipped.trail with reasons := le_size_compact equipped.trail.reasons result }
  have swept := (equipped.watches.cleanAll e.arena).cleanFrozen e.arena
  have watches : (e.swept.watches.rename (ClauseArena.newId ids)).Spans e.numVars :=
    { swept with
      long := Nat.le_trans swept.long (DenseMap.size_mapValues ..).ge
      frozen := Nat.le_trans swept.frozen (DenseMap.size_mapValues ..).ge }
  exact { equipped with trail, watches }

end Engine

namespace Solver

open Engine

variable {F log : List (List Lit)} {s t v : Solver} {e : Engine}

/-! ### What upkeep looks up -/

/-- The slots that the state of a solver needs, those of the core included. -/
structure Equipped (s : Solver) : Prop where
  engine : s.engine.Equipped
  core : s.core.Slotted

def SettleInRange (e : Engine) : Prop := e.isWasteful = true → e.CompactInRange

def SimplifyInRange (s : Solver) : Prop :=
  s.engine.SimplifyInRange ∧ ∀ e, s.engine.simplify = (.done, e) → SettleInRange e

/-- Each of the steps can be taken that are taken if those before it went well. -/
def VivifyInRange (s : Solver) (minSize : Nat) : Prop :=
  s.SimplifyInRange ∧ ∀ t, s.simplify = (.ok true, t) →
    t.engine.VivifyAllInRange minSize ∧
      ((t.engine.vivifyAll minSize).ok = true → SettleInRange (t.engine.vivifyAll minSize))

structure ReduceInRange (F : List (List Lit)) (s : Solver) : Prop where
  reduces : s.engine.ReduceInRange F
  reports : s.engine.reduce.ReportInRange
  settles : SettleInRange s.engine.reduce

def UpkeepInRange (F : List (List Lit)) (s : Solver) : Prop :=
  s.SimplifyInRange ∧ ∀ t, s.simplify = (.ok true, t) →
    (t.engine.isReductionDue = true → t.ReduceInRange F) ∧
      ∀ u, t.reduceIfDue = (.done, u) → u.pureLitsStale = true → u.engine.opts.pureLiterals = true →
        u.engine.PureLitsInRange u.assumptions.toList

/-! ### Upkeep -/

theorem Equipped.noted (h : s.Equipped) (noted : Noted s t) : t.Equipped :=
  ⟨noted.engine ▸ h.engine, noted.core ▸ h.core⟩

/-- Whether or not the clauses are compacted, there are slots for all that may be looked up then. -/
theorem settle_inRange (h : s.engine.Settled F) (orderly : s.engine.Orderly) (equipped : s.Equipped)
    {answer : Except SolverError Bool} (result : s.settle = (answer, t)) :
    SettleInRange s.engine ∧ t.Equipped := by
  refine ⟨fun _ => (orderly.fit equipped.engine).compactInRange h.listsUsed, ?_⟩
  cases settle_cases result with
  | idle | full => exact equipped
  | @compacted f compacted =>
    have moved : ({ s with engine := f } : Solver).Equipped :=
      ⟨h.equipped_compact equipped.engine compacted, equipped.core⟩
    exact moved.noted (noted_notify ..)

theorem simplify_inRange (h : s.engine.Settled F) (zero : s.engine.trail.level = 0)
    (orderly : s.engine.Orderly) (equipped : s.Equipped) {answer : Except SolverError Bool}
    (result : s.simplify = (answer, t)) : s.SimplifyInRange ∧ t.Equipped := by
  unfold SimplifyInRange
  unfold Solver.simplify at result
  rcases simplified : s.engine.simplify with ⟨outcome, f⟩
  rw [simplified] at result
  obtain ⟨inRange, equipped'⟩ := h.simplify_inRange zero orderly equipped.engine simplified
  have spec := h.simplify zero simplified
  have orderly' : f.Orderly := (chores_engineSimplify h zero simplified).rounds.turns.orderly orderly
  cases outcome with
  | refuted | upToDate =>
    cases result
    exact ⟨⟨inRange, fun _ done => nomatch done⟩, equipped', equipped.core⟩
  | done =>
    dsimp only at result
    have noted := noted_notify { s with engine := f, pureLitsStale := true } .simplified
    rw [if_neg (by decide)] at spec
    have simpler : ({ s with engine := f, pureLitsStale := true } : Solver).Equipped :=
      ⟨equipped', equipped.core⟩
    obtain ⟨settles, equipped''⟩ := settle_inRange (by rw [noted.engine]; exact spec.1.toSettled)
      (by rw [noted.engine]; exact orderly') (simpler.noted noted) result
    refine ⟨⟨inRange, fun e done => ?_⟩, equipped''⟩
    cases done
    rw [noted.engine] at settles
    exact settles

/-- So is every access of the vivification that follows. -/
theorem vivifyAll_inRange (h : s.engine.Settled F) (zero : s.engine.trail.level = 0)
    (orderly : s.engine.Orderly) (equipped : s.Equipped) (simplified : s.simplify = (.ok true, u))
    (minSize : Nat) :
    s.SimplifyInRange ∧ u.Equipped ∧ u.engine.VivifyAllInRange minSize ∧
      (u.engine.vivifyAll minSize).Equipped ∧ (u.engine.vivifyAll minSize).Orderly := by
  obtain ⟨inRange, equipped'⟩ := simplify_inRange h zero orderly equipped simplified
  have orderly' := (chores_simplify h zero simplified).rounds.turns.orderly orderly
  have quiet := quiet_of_simplify h zero simplified
  obtain ⟨vivifies, vivified⟩ := quiet.vivifyAll_inRange minSize orderly'.shelved
    (orderly'.fit equipped'.engine)
  exact ⟨inRange, equipped', vivifies, vivified, (Chore.vivifyAll quiet minSize).orderly orderly'⟩

theorem vivifyQuietly_inRange (h : s.engine.Settled F) (zero : s.engine.trail.level = 0)
    (orderly : s.engine.Orderly) (equipped : s.Equipped) (minSize : Nat)
    {answer : Except SolverError Bool} (result : s.vivifyQuietly minSize = (answer, t)) :
    s.VivifyInRange minSize ∧ t.Equipped := by
  unfold VivifyInRange
  cases vivifyQuietly_cases result with
  | stopped simplified differs =>
    obtain ⟨inRange, equipped'⟩ := simplify_inRange h zero orderly equipped simplified
    rw [simplified]
    exact ⟨⟨inRange, fun t same => absurd (congrArg Prod.fst same) differs⟩, equipped'⟩
  | @refuted u simplified notOk =>
    obtain ⟨inRange, equipped', vivifies, vivified, -⟩ :=
      vivifyAll_inRange h zero orderly equipped simplified minSize
    rw [simplified]
    refine ⟨⟨inRange, fun t same => ?_⟩, vivified, equipped'.core⟩
    cases same
    exact ⟨vivifies, fun ok => absurd (notOk.symm.trans ok) Bool.false_ne_true⟩
  | @settled t u answer simplified ok settles =>
    obtain ⟨inRange, equipped', vivifies, vivified, orderly'⟩ :=
      vivifyAll_inRange h zero orderly equipped simplified minSize
    have quiet := ((quiet_of_simplify h zero simplified).vivifyAll minSize).resolve_left fun refuted =>
      Bool.false_ne_true (refuted.notOk.symm.trans ok)
    obtain ⟨settling, equipped''⟩ := settle_inRange (s := { u with engine := u.engine.vivifyAll minSize })
      quiet.1.toSettled orderly' ⟨vivified, equipped'.core⟩ settles
    rw [simplified]
    refine ⟨⟨inRange, fun t same => ?_⟩, equipped''⟩
    cases same
    exact ⟨vivifies, fun _ => settling⟩

theorem reduceIfDue_inRange (h : s.engine.Settled F) (zero : s.engine.trail.level = 0)
    (orderly : s.engine.Orderly) (equipped : s.Equipped) {u : Upkeep}
    (result : s.reduceIfDue = (u, t)) :
    (s.engine.isReductionDue = true → s.ReduceInRange F) ∧ t.Equipped := by
  obtain ⟨inRange, reduced⟩ := h.reduce_inRange zero orderly.shelved equipped.engine
  have settled := (h.reduce zero).1
  have orderly' : s.engine.reduce.Orderly := (Chore.reduce h zero).orderly orderly
  have fit := orderly'.fit reduced
  refine ⟨fun _ => ⟨inRange, fit.reportInRange, fun _ => fit.compactInRange settled.listsUsed⟩, ?_⟩
  unfold reduceIfDue at result
  split at result
  · rcases called : s.reduce with ⟨answer, v⟩
    have equipped' : v.Equipped := by
      unfold reduce at called
      dsimp only at called
      have noted := noted_reduce s
      have smaller : (s.mapEngine Engine.reduce).Equipped := ⟨reduced, equipped.core⟩
      exact (settle_inRange (by rw [noted.engine]; exact settled) (by rw [noted.engine]; exact orderly')
        (smaller.noted noted) called).2
    rw [called] at result
    cases answer <;>
    · cases result
      exact equipped'
  · cases result
    exact equipped

theorem Equipped.findPureLits (h : s.Equipped) : s.findPureLits.Equipped :=
  ⟨{ h.engine with }, h.core⟩

theorem settled_reduceIfDue (h : s.engine.Working F log) (zero : s.engine.trail.level = 0) {u : Upkeep}
    (result : s.reduceIfDue = (u, t)) : t.engine.Settled F ∧ s.SameTask t := by
  rcases reduceIfDue_spec h zero result with ⟨-, rfl⟩ | ⟨g, noted, rest⟩
  · exact ⟨h.settled, .refl _⟩
  · exact ⟨noted.engine ▸ rest.1.settled, noted.sameTask rest.2.1⟩

section Upkeep

variable (h : s.engine.Working F log) (zero : s.engine.trail.level = 0)
  (assumable : ∀ l ∈ s.assumptions, l.var.index < s.engine.numVars) (orderly : s.engine.Orderly)
  (equipped : s.Equipped)

include h zero assumable orderly equipped

/-- After a simplification that succeeds, the reduction and what may follow it are in range. -/
theorem upkeep_inRange_of_simplified {u : Upkeep} (simplified : s.simplify = (.ok true, v))
    (reduced : v.reduceIfDue = (u, t)) : s.UpkeepInRange F ∧ t.Equipped := by
  obtain ⟨f, noted, -⟩ := simplify_spec h zero simplified
  have tidied := tidied_of_simplify h zero simplified
  obtain ⟨inRange, equipped'⟩ := simplify_inRange h.settled zero orderly equipped simplified
  have orderly' := (chores_simplify h.settled zero simplified).rounds.turns.orderly orderly
  obtain ⟨reduces, equipped''⟩ :=
    reduceIfDue_inRange tidied.working.settled tidied.zero orderly' equipped' reduced
  have orderly'' :=
    (rounds_reduceIfDue tidied.working.settled tidied.zero reduced).turns.orderly orderly'
  obtain ⟨settled, task⟩ := settled_reduceIfDue tidied.working tidied.zero reduced
  -- Pure literals are looked for among the variables that were there before.
  have assumed : ∀ l ∈ t.assumptions.toList, l.var.index < t.engine.numVars := by
    intro l member
    have assumptions : v.assumptions = s.assumptions := by rw [noted.rest]
    rw [task.scope.numVars, tidied.framed.numVars]
    exact assumable l (assumptions ▸ task.assumptions ▸ Array.mem_toList_iff.mp member)
  have pure := (orderly''.fit equipped''.engine).pureLitsInRange settled.listsUsed assumed
  refine ⟨⟨inRange, fun w same => ?_⟩, equipped''⟩
  cases simplified.symm.trans same
  refine ⟨reduces, fun x same _ _ => ?_⟩
  cases reduced.symm.trans same
  exact pure

/-- Every access of the upkeep at level zero is in range. -/
theorem upkeep_inRange {u : Upkeep} (result : s.upkeep = (u, t)) : s.UpkeepInRange F ∧ t.Equipped := by
  cases upkeep_cases result with
  | failed simplified | refuted simplified =>
    obtain ⟨inRange, equipped'⟩ := simplify_inRange h.settled zero orderly equipped simplified
    exact ⟨⟨inRange, fun _ same => nomatch simplified.symm.trans same⟩, equipped'⟩
  | broken simplified reduced =>
    exact upkeep_inRange_of_simplified h zero assumable orderly equipped simplified reduced
  | done simplified reduced =>
    obtain ⟨inRange, equipped'⟩ :=
      upkeep_inRange_of_simplified h zero assumable orderly equipped simplified reduced
    refine ⟨inRange, ?_⟩
    split
    · exact equipped'.findPureLits
    · exact equipped'

end Upkeep

end Solver

end Cdcl
