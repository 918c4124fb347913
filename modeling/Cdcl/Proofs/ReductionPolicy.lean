import Cdcl.Proofs.FreezeCounts
import Cdcl.Proofs.GarbageChecks
import Cdcl.Proofs.MatchingWatches
import Cdcl.Proofs.Retention

/-!
# What a reduction does

The clauses learnt before the latest reduction are ranked, and each of them is kept, frozen or removed.
Those learnt since then are left alone, and so are original clauses and clauses of two literals.

## Main results

- `Judging.foldl`: a clause is judged by what is known of it before the reduction.
- `reducedTo_reduce`: what a reduction does to each clause, and to the lists.
-/

namespace Cdcl

namespace Engine

variable {b e : Engine} {id : ClauseId} {half median i : Nat}

/-! ### The verdict on a clause -/

/-- What a verdict rests on, for a clause at position `i` of the ranking. -/
inductive Judges (e : Engine) (half median : Nat) (id : ClauseId) (i : Nat) : Verdict → Prop where
  | remove (unlocked : e.isLocked id = false)
    (reason : half ≤ i ∧ median < (e.clause id).lbd ∨ e.isSatisfied id = true ∨
      e.opts.maxFreeze ≤ (e.clause id).freezeCount) : Judges e half median id i .remove
  | freeze (unlocked : e.isLocked id = false) (open_ : e.isSatisfied id = false)
    (lbd : 3 ≤ (e.clause id).lbd) (count : (e.clause id).freezeCount < e.opts.maxFreeze) :
    Judges e half median id i .freeze
  | keep : Judges e half median id i .keep

theorem judges_verdict (e : Engine) (half median : Nat) (deviation : Float) (id : ClauseId) (i : Nat) :
    e.Judges half median id i (e.verdict id (Decidable.decide (half ≤ i)) median deviation) := by
  unfold verdict
  dsimp only
  split
  · exact .keep
  next unlocked =>
    have unlocked : e.isLocked id = false := Bool.eq_false_iff.mpr unlocked
    split
    next worse =>
      simp only [Bool.and_eq_true, decide_eq_true_eq] at worse
      exact .remove unlocked (.inl worse)
    · split
      next satisfied => exact .remove unlocked (.inr (.inl satisfied))
      next unsatisfied =>
        split
        · exact .keep
        next lbd =>
          split
          · exact .keep
          · split
            · exact .remove unlocked (.inr (.inr (by omega)))
            · exact .freeze unlocked (Bool.eq_false_iff.mpr unsatisfied) (by omega) (by omega)

/-- The conditions do not look at the polarities. -/
theorem Judges.congr {v : Verdict} (h : b.Judges half median id i v) (trail : b.trail = e.trail)
    (arena : b.arena = e.arena) (opts : b.opts = e.opts) : e.Judges half median id i v := by
  have clause : b.clause id = e.clause id := congrArg (·.get id) arena
  have locked : b.isLocked id = e.isLocked id := by unfold isLocked; rw [trail, clause]
  have satisfied : b.isSatisfied id = e.isSatisfied id := by unfold isSatisfied; rw [trail, clause]
  cases h with
  | remove unlocked reason =>
    rw [locked] at unlocked
    rw [satisfied, clause, opts] at reason
    exact .remove unlocked reason
  | freeze unlocked unsatisfied lbd count =>
    rw [locked] at unlocked
    rw [satisfied] at unsatisfied
    rw [clause] at lbd count
    rw [opts] at count
    exact .freeze unlocked unsatisfied lbd count
  | keep => exact .keep

end Engine

/-- What a verdict makes of a clause, before those to be thawed are put back to work. -/
def Clause.sentenced (c : Clause) : Verdict → Clause
  | .keep => c
  | .freeze => (c.setFreezeCount (c.freezeCount + 1)).setFrozen true
  | .remove => c.remove

/-- A clause that is frozen already stays as it is, its count apart. -/
theorem Clause.setFrozen_of_isFrozen (c : Clause) {n : Nat} (frozen : c.isFrozen = true) :
    (c.setFreezeCount n).setFrozen true = c.setFreezeCount n := by
  rcases c with ⟨lits, mark, _ | info, relocated⟩
  · cases frozen
  · have frozen : info.frozen = true := frozen
    unfold Clause.setFreezeCount Clause.setFrozen Clause.modifyLearnt
    simp [frozen]

namespace Engine

variable {e b f : Engine} {id : ClauseId} {half median i : Nat} {deviation : Float}

theorem fields_freezeClause (e : Engine) (id : ClauseId) :
    (e.freezeClause id).trail = e.trail ∧ (e.freezeClause id).branching = e.branching ∧
      (e.freezeClause id).opts = e.opts ∧ (e.freezeClause id).originals = e.originals ∧
      (e.freezeClause id).recentLearnts = e.recentLearnts ∧
      (e.freezeClause id).arena = e.arena.modify id (·.setFrozen true) := by
  dsimp only [freezeClause, modifyStats, modifyTally, modifyClause, detachLater, modifyWatches]
  exact ⟨rfl, rfl, rfl, rfl, rfl, rfl⟩

/-- In the course of a reduction that began with the engine `b`: the clauses of `done` were judged, by
what they were at the beginning. -/
structure Judging (b : Engine) (judge : ClauseId × Nat → Verdict) (done : List (ClauseId × Nat))
    (r : ReductionState) : Prop where
  trail : r.engine.trail = b.trail
  branching : r.engine.branching = b.branching
  opts : r.engine.opts = b.opts
  originals : r.engine.originals = b.originals
  recentLearnts : r.engine.recentLearnts = b.recentLearnts
  others : ∀ x, x ∉ done.map Prod.fst → r.engine.clause x = b.clause x
  sentenced : ∀ entry ∈ done, r.engine.clause entry.1 = (b.clause entry.1).sentenced (judge entry)
  kept : r.kept.toList = (done.filter fun entry => judge entry != .remove).map Prod.fst
  thawing : r.thawing.toList =
    (done.filter fun entry => judge entry == .keep && (b.clause entry.1).isFrozen).map Prod.fst

/-- The verdict looks at the clause, at the trail, at the polarities and at the options. -/
theorem verdict_congr (trail : e.trail = b.trail) (branching : e.branching = b.branching)
    (opts : e.opts = b.opts) (clause : e.clause id = b.clause id) (worse : Bool) :
    e.verdict id worse median deviation = b.verdict id worse median deviation := by
  unfold verdict isLocked agreeing
  rw [trail, branching, opts, clause]

/-- How a reduction that begins with the engine judges. -/
def judge (b : Engine) (half median : Nat) (deviation : Float) (entry : ClauseId × Nat) : Verdict :=
  b.verdict entry.1 (Decidable.decide (half ≤ entry.2)) median deviation

namespace Judging

variable {done : List (ClauseId × Nat)} {r : ReductionState}

theorem start (b : Engine) (judge : ClauseId × Nat → Verdict) : Judging b judge [] { engine := b } where
  trail := rfl
  branching := rfl
  opts := rfl
  originals := rfl
  recentLearnts := rfl
  others := fun _ _ => rfl
  sentenced := nofun
  kept := rfl
  thawing := rfl

/-- One more clause was judged, and no other one was touched. -/
theorem next (h : Judging b (b.judge half median deviation) done r) (new : id ∉ done.map Prod.fst)
    {s : ReductionState} (same : s.engine.trail = r.engine.trail ∧
      s.engine.branching = r.engine.branching ∧ s.engine.opts = r.engine.opts ∧
      s.engine.originals = r.engine.originals ∧ s.engine.recentLearnts = r.engine.recentLearnts)
    (others : ∀ x, x ≠ id → s.engine.clause x = r.engine.clause x) {v : Verdict}
    (verdict : b.judge half median deviation (id, i) = v)
    (sentenced : s.engine.clause id = (b.clause id).sentenced v)
    (kept : s.kept.toList = if v = .remove then r.kept.toList else r.kept.toList ++ [id])
    (thawing : s.thawing.toList = if v = .keep ∧ (b.clause id).isFrozen = true then
      r.thawing.toList ++ [id] else r.thawing.toList) :
    Judging b (b.judge half median deviation) (done ++ [(id, i)]) s where
  trail := same.1.trans h.trail
  branching := same.2.1.trans h.branching
  opts := same.2.2.1.trans h.opts
  originals := same.2.2.2.1.trans h.originals
  recentLearnts := same.2.2.2.2.trans h.recentLearnts
  others := by
    intro x absent
    rw [List.map_append, List.mem_append, not_or] at absent
    exact (others x fun eq => absent.2 (eq ▸ List.mem_singleton.mpr rfl)).trans (h.others x absent.1)
  sentenced := by
    intro entry member
    rcases List.mem_append.mp member with old | last
    · have differ : entry.1 ≠ id := fun eq => new (eq ▸ List.mem_map_of_mem old)
      exact (others _ differ).trans (h.sentenced entry old)
    · rw [List.mem_singleton.mp last, verdict]
      exact sentenced
  kept := by
    rw [kept, h.kept, List.filter_append, List.map_append]
    cases v <;> simp [verdict]
  thawing := by
    rw [thawing, h.thawing, List.filter_append, List.map_append]
    cases v <;> cases frozen : (b.clause id).isFrozen <;> simp [verdict, frozen]

/-- One more clause is judged. -/
theorem step (h : Judging b (b.judge half median deviation) done r) (new : id ∉ done.map Prod.fst)
    (used : (b.clause id).isRemoved = false) :
    Judging b (b.judge half median deviation) (done ++ [(id, i)])
      (reduceClause half median deviation r (id, i)) := by
  have clause := h.others id new
  have live : (r.engine.clause id).isRemoved = false := clause.symm ▸ used
  -- The verdict is that on the clause before the reduction: no step so far has come to it.
  have verdict : r.engine.verdict id (Decidable.decide (half ≤ i)) median deviation =
      b.judge half median deviation (id, i) := verdict_congr h.trail h.branching h.opts clause _
  have judged := judges_verdict b half median deviation id i
  change b.Judges half median id i (b.judge half median deviation (id, i)) at judged
  unfold reduceClause
  dsimp only
  rw [verdict]
  cases result : b.judge half median deviation (id, i) with
  | remove =>
    rw [result] at judged
    cases judged with
    | remove unlocked =>
      obtain ⟨tally, lbdCounts, space, removed⟩ := r.engine.removeClause_eq id
      have open_ : r.engine.isLocked id = false := by
        unfold isLocked at unlocked ⊢
        rw [h.trail, clause]
        exact unlocked
      rw [removed, open_]
      refine h.next new ⟨rfl, rfl, rfl, rfl, rfl⟩ (fun x differ => ?_) result ?_ rfl rfl
      · exact get_without_of_ne space live differ
      · exact (get_without space live id).trans (by rw [if_pos rfl, clause]; rfl)
  | freeze =>
    dsimp only
    obtain ⟨trail, branching, opts, originals, recentLearnts, arena⟩ :=
      (r.engine.modifyClause id fun c => c.setFreezeCount (c.freezeCount + 1)).fields_freezeClause id
    have counted : ∀ x, (r.engine.modifyClause id fun c =>
        c.setFreezeCount (c.freezeCount + 1)).clause x =
          if id = x then (r.engine.clause x).setFreezeCount ((r.engine.clause x).freezeCount + 1)
          else r.engine.clause x := fun x => r.engine.arena.get_modify id x _ (slot_lt live)
    -- A clause that is frozen already is only counted once more.
    cases frozen : (r.engine.clause id).isFrozen with
    | true =>
      rw [if_pos rfl]
      refine h.next new ⟨rfl, rfl, rfl, rfl, rfl⟩
        (fun x differ => (counted x).trans (if_neg differ.symm)) result ?_ ?_ ?_
      · rw [counted, if_pos rfl, clause]
        rw [clause] at frozen
        exact (Clause.setFrozen_of_isFrozen _ frozen).symm
      · simp
      · simp
    | false =>
      rw [if_neg Bool.false_ne_true]
      have thawed : ∀ x, ((r.engine.modifyClause id fun c =>
          c.setFreezeCount (c.freezeCount + 1)).freezeClause id).clause x =
            if id = x then ((r.engine.clause x).setFreezeCount
              ((r.engine.clause x).freezeCount + 1)).setFrozen true
            else r.engine.clause x := by
        intro x
        change ClauseArena.get _ x = _
        rw [arena, ClauseArena.get_modify _ _ _ _ (by simpa [modifyClause, ClauseArena.modify] using slot_lt live)]
        change (if id = x then (Engine.clause _ x).setFrozen true else Engine.clause _ x) = _
        rw [counted]
        split <;> rfl
      refine h.next new ⟨trail, branching, opts, originals, recentLearnts⟩
        (fun x differ => (thawed x).trans (if_neg differ.symm)) result ?_ ?_ ?_
      · rw [thawed, if_pos rfl, clause]
        rfl
      · simp
      · simp
  | keep =>
    dsimp only
    refine h.next new ⟨rfl, rfl, rfl, rfl, rfl⟩ (fun _ _ => rfl) result clause ?_ ?_
    · simp
    · rw [clause]
      cases (b.clause id).isFrozen <;> simp

theorem foldl {entries : List (ClauseId × Nat)} (h : Judging b (b.judge half median deviation) done r)
    (distinct : ((done ++ entries).map Prod.fst).Nodup)
    (used : ∀ entry ∈ entries, (b.clause entry.1).isRemoved = false) :
    Judging b (b.judge half median deviation) (done ++ entries)
      (entries.foldl (reduceClause half median deviation) r) := by
  induction entries generalizing done r with
  | nil => rwa [List.append_nil]
  | cons entry entries ih =>
    obtain ⟨id, i⟩ := entry
    have split : done ++ (id, i) :: entries = done ++ [(id, i)] ++ entries := by simp
    have new : id ∉ done.map Prod.fst := by
      rw [List.map_append, List.nodup_append] at distinct
      exact fun old => distinct.2.2 id old id List.mem_cons_self rfl
    rw [split] at distinct ⊢
    exact ih (h.step new (used _ List.mem_cons_self)) distinct fun other member =>
      used other (List.mem_cons_of_mem _ member)

/-! What the lists hold depends on the verdict on a clause. -/

variable {judge : ClauseId × Nat → Verdict} {ranked : List ClauseId} {x : ClauseId}
  (h : Judging b judge ranked.zipIdx r)

include h

theorem kept_sublist : r.kept.toList.Sublist ranked := by
  have sub := (List.filter_sublist (p := fun entry => judge entry != .remove) (l := ranked.zipIdx)).map
    Prod.fst
  rwa [← h.kept, List.zipIdx_map_fst] at sub

theorem thawing_sublist : r.thawing.toList.Sublist ranked := by
  have sub := (List.filter_sublist (l := ranked.zipIdx) (p := fun entry =>
    judge entry == .keep && (b.clause entry.1).isFrozen)).map Prod.fst
  rwa [← h.thawing, List.zipIdx_map_fst] at sub

variable (distinct : ranked.Nodup) (place : ranked[i]? = some x)

include distinct place

omit h in
/-- A clause has a single place in the ranking. -/
theorem unique {entry : ClauseId × Nat} (member : entry ∈ ranked.zipIdx) (same : entry.1 = x) :
    entry = (x, i) :=
  List.inj_on_of_nodup_map (f := Prod.fst) (by rwa [List.zipIdx_map_fst]) member
    (List.mk_mem_zipIdx_iff_getElem?.mpr place) same

theorem mem_kept : x ∈ r.kept.toList ↔ judge (x, i) ≠ .remove := by
  rw [h.kept, List.mem_map]
  constructor
  · rintro ⟨entry, member, same⟩
    obtain ⟨listed, stays⟩ := List.mem_filter.mp member
    rw [unique distinct place listed same] at stays
    exact bne_iff_ne.mp stays
  · intro stays
    exact ⟨(x, i), List.mem_filter.mpr ⟨List.mk_mem_zipIdx_iff_getElem?.mpr place, bne_iff_ne.mpr stays⟩,
      rfl⟩

theorem mem_thawing :
    x ∈ r.thawing.toList ↔ judge (x, i) = .keep ∧ (b.clause x).isFrozen = true := by
  rw [h.thawing, List.mem_map]
  constructor
  · rintro ⟨entry, member, same⟩
    obtain ⟨listed, thaws⟩ := List.mem_filter.mp member
    rw [unique distinct place listed same, Bool.and_eq_true, beq_iff_eq] at thaws
    exact thaws
  · rintro ⟨keeps, frozen⟩
    refine ⟨(x, i), List.mem_filter.mpr ⟨List.mk_mem_zipIdx_iff_getElem?.mpr place, ?_⟩, rfl⟩
    rw [keeps, frozen]
    rfl

omit distinct in
theorem clause_eq : r.engine.clause x = (b.clause x).sentenced (judge (x, i)) :=
  h.sentenced _ (List.mk_mem_zipIdx_iff_getElem?.mpr place)

end Judging

/-! ### Thawing -/

/-- A clause that was frozen is at work again, its literals in another order perhaps. -/
def Restored (c d : Clause) : Prop :=
  ∃ lits : Array Lit, lits.toList.Perm c.lits.toList ∧ d = (c.setLits lits).setFrozen false

/-- If a single literal is not false, it is in front and true afterwards. -/
theorem fields_thawClause {lits : Array Lit} {n : Nat}
    (front : bringNonFalse e.trail (e.clause id).lits = (lits, n)) :
    (e.thawClause id).arena = (e.arena.modify id fun c => (c.setLits lits).setFrozen false) ∧
      (e.thawClause id).trail =
        if n == 1 && e.trail.isUnassigned (lits.getD 0 .missing).var then
          e.trail.assign (lits.getD 0 .missing) (.clause id)
        else e.trail := by
  unfold thawClause
  rw [front]
  dsimp only [modifyStats, modifyTally, attach, modifyWatches, modifyClause, assign]
  split
  · exact ⟨rfl, rfl⟩
  · exact ⟨rfl, rfl⟩

theorem clause_thawClause (used : (e.clause id).isRemoved = false) :
    Restored (e.clause id) ((e.thawClause id).clause id) ∧
      ∀ x, x ≠ id → (e.thawClause id).clause x = e.clause x := by
  rcases front : bringNonFalse e.trail (e.clause id).lits with ⟨lits, n⟩
  have reads (x : ClauseId) : (e.thawClause id).clause x =
      if id = x then ((e.clause x).setLits lits).setFrozen false else e.clause x := by
    rw [clause, (fields_thawClause front).1]
    exact e.arena.get_modify id x _ (slot_lt used)
  exact ⟨⟨lits, (bringNonFalse_spec front).1, (reads id).trans (if_pos rfl)⟩,
    fun x differ => (reads x).trans (if_neg differ.symm)⟩

theorem clause_thawClauses (ids : List ClauseId) (distinct : ids.Nodup)
    (used : ∀ x ∈ ids, (e.clause x).isRemoved = false) (x : ClauseId) :
    (x ∈ ids → Restored (e.clause x) ((ids.foldl thawClause e).clause x)) ∧
      (x ∉ ids → (ids.foldl thawClause e).clause x = e.clause x) := by
  induction ids generalizing e with
  | nil => exact ⟨nofun, fun _ => rfl⟩
  | cons id ids ih =>
    obtain ⟨fresh, distinct⟩ := List.nodup_cons.mp distinct
    obtain ⟨restored, others⟩ := clause_thawClause (used id List.mem_cons_self)
    have rest := ih (e := e.thawClause id) distinct fun y member => by
      rw [others y fun same => fresh (same ▸ member)]
      exact used y (List.mem_cons_of_mem id member)
    rw [List.foldl_cons]
    by_cases same : x = id
    · subst same
      exact ⟨fun _ => (rest.2 fresh).symm ▸ restored, fun absent => absurd List.mem_cons_self absent⟩
    · rw [← others x same]
      exact ⟨fun member => rest.1 ((List.mem_cons.mp member).resolve_left same),
        fun absent => rest.2 fun member => absent (List.mem_cons_of_mem id member)⟩

theorem thawClause_eq (e : Engine) (id : ClauseId) : ∃ trail branching watches arena tally stats,
    e.thawClause id = { e with trail, branching, watches, arena, tally, stats } := by
  generalize result : e.thawClause id = f
  cases thawClause_cases result with
  | unit | attached => exact ⟨_, _, _, _, _, _, rfl⟩

theorem thawClauses_eq (ids : List ClauseId) (e : Engine) : ∃ trail branching watches arena tally stats,
    ids.foldl thawClause e = { e with trail, branching, watches, arena, tally, stats } := by
  induction ids generalizing e with
  | nil => exact ⟨_, _, _, _, _, _, rfl⟩
  | cons id ids ih =>
    obtain ⟨_, _, _, _, _, _, one⟩ := e.thawClause_eq id
    obtain ⟨_, _, _, _, _, _, rest⟩ := ih (e.thawClause id)
    exact ⟨_, _, _, _, _, _, by rw [List.foldl_cons, rest, one]⟩

/-! ### The whole reduction -/

/-- The clauses learnt before the latest reduction. -/
def older (e : Engine) : List ClauseId :=
  e.learnts.toList.take (e.learnts.toList.length - e.recentLearnts)

/-- The clauses learnt since the latest reduction. -/
def recents (e : Engine) : List ClauseId :=
  e.learnts.toList.drop (e.learnts.toList.length - e.recentLearnts)

theorem older_append_recents (e : Engine) : e.older ++ e.recents = e.learnts.toList :=
  List.take_append_drop _ _

/-- How a reduction of the engine judges. -/
def judgment (e : Engine) : ClauseId × Nat → Verdict :=
  e.appraised.2.judge (e.ranked.length / 2) e.lbdMedian e.appraised.1

/-- The engine when the survivors of a reduction are listed and the watch lists are cleaned. -/
def sifted (e : Engine) : Engine := e.survived.modifyWatches (·.cleanAll e.survived.arena)

theorem awakened_eq (e : Engine) : e.awakened = e.judged.thawing.toList.foldl thawClause e.sifted := by
  rw [Array.foldl_toList]
  rfl

/-- The first clause is ranked before the second, or as high. -/
def RanksBefore (e : Engine) (x y : ClauseId) : Prop :=
  (e.clause x).lbd < (e.clause y).lbd ∨ (e.clause x).lbd = (e.clause y).lbd ∧
    float32Rank (e.clause y).activity ≤ float32Rank (e.clause x).activity

theorem ranksBefore_iff (e : Engine) (x y : ClauseId) :
    ranksBefore e.arena x y = true ↔ e.RanksBefore x y := by
  simp only [ranksBefore, RanksBefore, clause, Bool.or_eq_true, Bool.and_eq_true, decide_eq_true_eq,
    beq_iff_eq]

theorem pairwise_rank (e : Engine) (ids : List ClauseId) :
    (rank e.arena ids).Pairwise e.RanksBefore := by
  have trans (x y z : ClauseId) (xy : ranksBefore e.arena x y) (yz : ranksBefore e.arena y z) :
      ranksBefore e.arena x z := by
    simp only [ranksBefore_iff, RanksBefore] at xy yz ⊢
    omega
  have total (x y : ClauseId) : (ranksBefore e.arena x y || ranksBefore e.arena y x) = true := by
    simp only [Bool.or_eq_true, ranksBefore_iff, RanksBefore]
    omega
  exact (pairwise_sortBy trans total ids).imp fun before => (e.ranksBefore_iff _ _).mp before

/-- What the handle `x` reads after a reduction of the engine that ranked some clauses and kept some of
those. -/
inductive Treated (e : Engine) (ranked kept : List ClauseId) (x : ClauseId) : Clause → Prop where
  | untouched (working : x ∈ ranked → x ∈ kept ∧ (e.clause x).isFrozen = false) :
    Treated e ranked kept x (e.clause x)
  | removed (listed : x ∈ ranked) (gone : x ∉ kept) (unlocked : e.isLocked x = false)
    (reason : x ∈ ranked.drop (ranked.length / 2) ∧ e.lbdMedian < (e.clause x).lbd ∨
      e.isSatisfied x = true ∨ e.opts.maxFreeze ≤ (e.clause x).freezeCount) :
    Treated e ranked kept x (e.clause x).remove
  | frozen (listed : x ∈ ranked) (stays : x ∈ kept) (unlocked : e.isLocked x = false)
    (unsatisfied : e.isSatisfied x = false) (lbd : 3 ≤ (e.clause x).lbd)
    (count : (e.clause x).freezeCount < e.opts.maxFreeze) :
    Treated e ranked kept x
      (((e.clause x).setFreezeCount ((e.clause x).freezeCount + 1)).setFrozen true)
  | thawed (listed : x ∈ ranked) (stays : x ∈ kept) (frozen : (e.clause x).isFrozen = true)
    {c : Clause} (restored : Restored (e.clause x) c) : Treated e ranked kept x c

/-- A reduction of the engine `e` gave `f`: the older clauses were ranked, and some of them kept. -/
structure ReducedTo (e : Engine) (ranked kept : List ClauseId) (f : Engine) : Prop where
  perm : ranked.Perm e.older
  ordered : ranked.Pairwise e.RanksBefore
  sublist : kept.Sublist ranked
  /-- Those that stay are listed in their new order, and the recent ones after them. -/
  learnts : f.learnts.toList = kept ++ e.recents
  recentLearnts : f.recentLearnts = 0
  treated : ∀ x, e.Treated ranked kept x (f.clause x)
  originals : f.originals = e.originals
  binary : f.watches.binary = e.watches.binary
  opts : f.opts = e.opts

theorem judges_judgment (e : Engine) (x : ClauseId) (i : Nat) :
    e.Judges (e.ranked.length / 2) e.lbdMedian x i (e.judgment (x, i)) :=
  (e.appraised.2.judges_verdict _ _ _ x i).congr rfl rfl rfl

theorem clause_appraised (e : Engine) (x : ClauseId) : e.appraised.2.clause x = e.clause x := rfl

theorem perm_ranked (e : Engine) : e.ranked.Perm e.older := perm_sortBy _ _

/-- Watching the frozen clauses anew changes neither the clauses nor the trail. -/
theorem clause_reduce (e : Engine) (x : ClauseId) : e.reduce.clause x = e.awakened.clause x := by
  obtain ⟨frozen, same, -⟩ := e.awakened.rewatchFrozen_eq
  rw [reduce_eq, same]
  rfl

theorem trail_reduce (e : Engine) : e.reduce.trail = e.awakened.trail := by
  obtain ⟨frozen, same, -⟩ := e.awakened.rewatchFrozen_eq
  rw [reduce_eq, same]

theorem fields_reduce (e : Engine) : e.reduce.originals = e.judged.engine.originals ∧
    e.reduce.learnts = e.judged.kept ++ e.recents.toArray ∧
    e.reduce.recentLearnts = e.judged.engine.recentLearnts ∧ e.reduce.opts = e.judged.engine.opts := by
  obtain ⟨frozen, same, -⟩ := e.awakened.rewatchFrozen_eq
  obtain ⟨_, _, _, _, _, _, thaws⟩ := thawClauses_eq e.judged.thawing.toList e.sifted
  rw [reduce_eq, same, awakened_eq, thaws]
  exact ⟨rfl, rfl, rfl, rfl⟩

section Judged

variable (distinct : e.learnts.toList.Nodup)
  (used : ∀ x ∈ e.learnts.toList, (e.clause x).isRemoved = false)

include distinct

theorem nodup_ranked : e.ranked.Nodup :=
  e.perm_ranked.nodup_iff.mpr (distinct.sublist (List.take_sublist _ _))

include used

/-- All clauses that are ranked are judged by what they are when the reduction begins. -/
theorem judging_judged : Judging e.appraised.2 e.judgment e.ranked.zipIdx e.judged := by
  refine (Judging.start e.appraised.2 e.judgment).foldl ?_ fun entry member => ?_
  · rw [List.nil_append, List.zipIdx_map_fst]
    exact nodup_ranked distinct
  · have listed := e.perm_ranked.subset (List.fst_mem_of_mem_zipIdx member)
    exact used _ (List.mem_of_mem_take listed)

theorem mem_thawing_judged {x : ClauseId} (member : x ∈ e.judged.thawing.toList) :
    x ∈ e.ranked ∧ (e.clause x).isFrozen = true ∧ e.sifted.clause x = e.clause x := by
  have judging := judging_judged distinct used
  have listed := judging.thawing_sublist.subset member
  obtain ⟨i, place⟩ := List.getElem?_of_mem listed
  obtain ⟨keeps, frozen⟩ := (judging.mem_thawing (nodup_ranked distinct) place).mp member
  refine ⟨listed, frozen, (judging.clause_eq place).trans ?_⟩
  rw [keeps]
  rfl

/-- A clause reads as it did once the verdicts were carried out, unless it is put back to work. -/
theorem clause_reduce_judged (x : ClauseId) :
    (x ∈ e.judged.thawing.toList → Restored (e.clause x) (e.reduce.clause x)) ∧
      (x ∉ e.judged.thawing.toList → e.reduce.clause x = e.judged.engine.clause x) := by
  have judging := judging_judged distinct used
  have thawed := clause_thawClauses (e := e.sifted) e.judged.thawing.toList
    ((nodup_ranked distinct).sublist judging.thawing_sublist) (fun y member => by
      obtain ⟨listed, -, same⟩ := mem_thawing_judged distinct used member
      rw [same]
      exact used y (List.mem_of_mem_take (e.perm_ranked.subset listed))) x
  rw [clause_reduce, awakened_eq]
  refine ⟨fun member => ?_, thawed.2⟩
  rw [← (mem_thawing_judged distinct used member).2.2]
  exact thawed.1 member

/-- A verdict changes no literals and brings nothing back, and none that leaves a clause at work changes
it. -/
theorem clause_judged (x : ClauseId) :
    (e.judged.engine.clause x).lits = (e.clause x).lits ∧
      ((e.judged.engine.clause x).isRemoved = false → (e.clause x).isRemoved = false) ∧
      ((e.judged.engine.clause x).isAttached = true → e.judged.engine.clause x = e.clause x) := by
  have judging := judging_judged distinct used
  by_cases listed : x ∈ e.ranked
  case neg =>
    have same := judging.others x (by rwa [List.zipIdx_map_fst])
    rw [clause_appraised] at same
    exact ⟨congrArg Clause.lits same, fun live => same ▸ live, fun _ => same⟩
  obtain ⟨i, place⟩ := List.getElem?_of_mem listed
  have reads := judging.clause_eq place
  rw [clause_appraised] at reads
  rw [reads]
  cases e.judgment (x, i) with
  | keep => exact ⟨rfl, fun live => live, fun _ => rfl⟩
  | freeze =>
    refine ⟨rfl, fun live => live, fun attached => ?_⟩
    -- It is frozen, unless it is no learnt clause and nothing is noted.
    have thawed := isFrozen_of_isAttached attached
    generalize e.clause x = c at *
    rcases c with ⟨lits, mark, _ | info, relocated⟩
    · rfl
    · cases thawed
  | remove =>
    have gone : ((e.clause x).sentenced .remove).isRemoved = true := rfl
    refine ⟨rfl, fun live => ?_, fun attached => ?_⟩
    · exact absurd (gone.symm.trans live) nofun
    · exact absurd (gone.symm.trans (isRemoved_of_isAttached attached)) nofun

theorem treated_reduce (x : ClauseId) :
    e.Treated e.ranked e.judged.kept.toList x (e.reduce.clause x) := by
  have judging := judging_judged distinct used
  have nodup := nodup_ranked distinct
  obtain ⟨thawed, unmoved⟩ := clause_reduce_judged distinct used x
  by_cases listed : x ∈ e.ranked
  case neg =>
    rw [unmoved fun member => listed (judging.thawing_sublist.subset member),
      judging.others x (by rwa [List.zipIdx_map_fst])]
    exact .untouched fun member => absurd member listed
  obtain ⟨i, place⟩ := List.getElem?_of_mem listed
  have kept := judging.mem_kept nodup place
  have thaws := judging.mem_thawing nodup place
  have reads := judging.clause_eq place
  have judged := e.judges_judgment x i
  rw [clause_appraised] at thaws reads
  -- Of the clauses ranked, those to be thawed are exactly those that are kept and were frozen.
  cases verdict : e.judgment (x, i) with
  | remove =>
    rw [verdict] at kept thaws reads judged
    rw [unmoved (fun member => nomatch (thaws.mp member).1), reads]
    cases judged with
    | remove unlocked reason =>
      refine .removed listed (fun stays => kept.mp stays rfl) unlocked
        (reason.imp_left (And.imp_left fun low => ?_))
      refine List.mem_of_getElem? (i := i - e.ranked.length / 2) ?_
      rwa [List.getElem?_drop, Nat.add_sub_cancel' low]
  | freeze =>
    rw [verdict] at kept thaws reads judged
    rw [unmoved (fun member => nomatch (thaws.mp member).1), reads]
    cases judged with
    | freeze unlocked unsatisfied lbd count =>
      exact .frozen listed (kept.mpr nofun) unlocked unsatisfied lbd count
  | keep =>
    rw [verdict] at kept thaws reads
    cases frozen : (e.clause x).isFrozen with
    | false =>
      rw [unmoved (fun member => nomatch frozen.symm.trans (thaws.mp member).2), reads]
      exact .untouched fun _ => ⟨kept.mpr nofun, frozen⟩
    | true => exact .thawed listed (kept.mpr nofun) frozen (thawed (thaws.mpr ⟨rfl, frozen⟩))

end Judged

/-- What a reduction does, whatever the state in which it begins. -/
theorem reducedTo_reduce (e : Engine) (distinct : e.learnts.toList.Nodup)
    (used : ∀ x ∈ e.learnts.toList, (e.clause x).isRemoved = false) :
    ∃ ranked kept, e.ReducedTo ranked kept e.reduce := by
  have judging := judging_judged distinct used
  obtain ⟨originals, learnts, recentLearnts, opts⟩ := e.fields_reduce
  exact ⟨e.ranked, e.judged.kept.toList,
    { perm := e.perm_ranked
      ordered := e.pairwise_rank e.older
      sublist := judging.kept_sublist
      learnts := learnts ▸ Array.toList_append
      recentLearnts := recentLearnts.trans judging.recentLearnts
      treated := treated_reduce distinct used
      originals := originals.trans judging.originals
      binary := e.binary_reduce
      opts := opts.trans judging.opts }⟩

end Engine

end Cdcl
