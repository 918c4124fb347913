import Cdcl.Proofs.TwinUpkeep

/-!
# Compaction of one twin

Compaction of one of two twins gives the clauses in use new handles, which stand for what the old
ones stood for, and drops what is left of clauses out of use. The other twin stays a twin.

## Main results

- `Twins.symm`: either twin may come first.
- `Twins.compact_left`: twins stay twins when the left one is compacted.
-/

namespace Cdcl

variable {M : ClauseId → ClauseId → Prop}

/-! ### Either twin may come first -/

theorem forall₂_flip {α : Type} {R S : α → α → Prop} {xs ys : List α} (h : List.Forall₂ R xs ys)
    (swap : ∀ x y, R x y → S y x) : List.Forall₂ S ys xs :=
  (h.imp fun x y => swap x y).flip

theorem Reason.Twins.symm {why why' : Reason} (h : why.Twins M why') : why'.Twins (flip M) why := by
  cases h with
  | decision => exact .decision
  | binary other => exact .binary other
  | clause pair => exact .clause pair

theorem Trail.Twins.symm {t u : Trail} (h : t.Twins u) : u.Twins t :=
  ⟨h.lits.symm, h.marks.symm, h.head.symm, h.values.symm, h.levels.symm⟩

theorem Watcher.Twins.symm {x y : Watcher} (h : x.Twins M y) : y.Twins (flip M) x :=
  ⟨h.pair, h.blocker.symm⟩

namespace Engine

variable {F : List (List Lit)} {e f e' : Engine} {a b : ClauseId}

theorem Twins.symm (h : Twins M e f) : Twins (flip M) f e where
  left := fun pair pair' => h.right pair pair'
  right := fun pair pair' => h.left pair pair'
  slots := fun pair => (h.slots pair).symm
  clauses := fun pair => (h.clauses pair).symm
  opts := by rw [h.opts]
  trail := h.trail.symm
  reasons := fun v assigned => (h.reasons v (h.trail.value ▸ assigned)).symm
  originals := h.originals.flip
  learnts := h.learnts.flip
  long := fun p => forall₂_flip (h.long p) fun _ _ => Watcher.Twins.symm
  binary := h.binary.symm
  branching := h.branching.symm
  recentLearnts := h.recentLearnts.symm
  policy := h.policy.symm
  stats := by rw [h.stats]
  tally := h.tally.symm
  lbdCounts := h.lbdCounts.symm
  clauseIncrement := h.clauseIncrement.symm
  numVars := h.numVars.symm
  ok := h.ok.symm
  seen := h.seen.symm
  levelCounter := h.levelCounter.symm
  simplifiedAt := h.simplifiedAt.symm
  frozen := fun p => forall₂_flip (h.frozen p) fun _ _ => Watcher.Twins.symm

/-! ### New handles on one side -/

open ClauseArena

/-- What handles stand for after the clauses of the left engine have moved. -/
def Renamed (M : ClauseId → ClauseId → Prop) (ids : List ClauseId) : ClauseId → ClauseId → Prop :=
  fun a b => ∃ id ∈ ids, M id b ∧ newId ids id = a

variable {ids : List ClauseId} {arena : ClauseArena}

theorem Paired.relocate (h : Paired M e f) (moved : e.arena.Moved ids arena)
    (held : e'.arena = arena) : Paired (Renamed M ids) e' f where
  left := by
    rintro a b b' ⟨x, kept, pair, rfl⟩ ⟨y, kept', pair', same⟩
    obtain rfl := Moved.inj kept' same
    exact h.left pair pair'
  right := by
    rintro a a' b ⟨x, kept, pair, rfl⟩ ⟨y, kept', pair', rfl⟩
    rw [h.right pair pair']
  slots := by
    rintro a b ⟨x, kept, pair, rfl⟩
    rw [held]
    exact ⟨slot_lt_of_used (moved.used_get kept), (h.slots pair).2⟩
  clauses := by
    rintro a b ⟨x, kept, pair, rfl⟩
    have same : e'.clause (newId ids x) = e.clause x := by
      rw [clause, held, moved.get kept]
      rfl
    rw [h.clauses pair, same]

theorem Renamed.forall₂ {held held' : List ClauseId} (pairs : List.Forall₂ M held held')
    (kept : ∀ id ∈ held, id ∈ ids) : List.Forall₂ (Renamed M ids) (held.map (newId ids)) held' :=
  List.forall₂_map_left_iff.mpr (((List.forall₂_and_left _ _).mpr ⟨kept, pairs⟩).imp
    fun id _ both => ⟨id, both.1, both.2, rfl⟩)

theorem Renamed.watchers {ws ws' : List Watcher} (twins : List.Forall₂ (Watcher.Twins M) ws ws')
    (kept : ∀ w ∈ ws, w.clause ∈ ids) :
    List.Forall₂ (Watcher.Twins (Renamed M ids)) (ws.map (Watches.renameEntry (newId ids))) ws' :=
  List.forall₂_map_left_iff.mpr (((List.forall₂_and_left _ _).mpr ⟨kept, twins⟩).imp
    fun w _ both => ⟨⟨w.clause, both.1, both.2.pair, rfl⟩, both.2.blocker⟩)

theorem Sound.working_eq {aside : List ClauseId} (h : e.Sound aside) (p : Lit) :
    (e.swept.watches.long.get p).toList = e.working p := by
  have kept : (e.modifyWatches (·.cleanAll e.arena)).working p = e.working p :=
    Mates.working_cleaned (Watches.cleanAll_cleaned e.watches e.arena) p
  rw [← kept]
  exact (List.filter_eq_self.mpr fun w member => h.attached_swept (Array.mem_toList_iff.mp member)).symm

theorem Sound.dormant_eq {aside : List ClauseId} (h : e.Sound aside) (p : Lit) :
    (e.swept.watches.frozen.get p).toList = e.dormant p := by
  rw [h.frozen_swept, Array.toList_filter]
  refine List.filter_congr fun w _ => ?_
  rw [isFrozenStale_eq, Bool.not_not]
  rfl

/-- Twins stay twins when the left one is compacted. -/
theorem Twins.compact_left (h : Twins M e f) (settled : e.Settled F) (result : e.compact = .ok e') :
    ∃ N, Twins N e' f := by
  obtain ⟨pairs, faithful⟩ := settled.faithful
  have sound := faithful.sound
  obtain ⟨ids, arena, reasons, moved, held, renamed, rfl⟩ := settled.compact_eq result
  have long (p : Lit) : ((e.swept.watches.rename (newId ids)).long.get p).toList =
      (e.working p).map (Watches.renameEntry (newId ids)) := by
    rw [Watches.long_rename sound.blank_swept, Array.toList_map, sound.working_eq]
  have frozen (p : Lit) : ((e.swept.watches.rename (newId ids)).frozen.get p).toList =
      (e.dormant p).map (Watches.renameEntry (newId ids)) := by
    rw [Watches.frozen_rename sound.blank_swept, Array.toList_map, sound.dormant_eq]
  have working (p : Lit) (w : Watcher) (member : w ∈ e.working p) : w.clause ∈ ids := by
    rw [← sound.working_eq] at member
    exact held.long p w (Array.mem_toList_iff.mp member)
  have dormant (p : Lit) (w : Watcher) (member : w ∈ e.dormant p) : w.clause ∈ ids := by
    rw [← sound.dormant_eq] at member
    exact held.frozen p w (Array.mem_toList_iff.mp member)
  -- What a clause is does not change when it moves.
  have all {ws : List Watcher} (passes : Clause → Bool)
      (left : ∀ w ∈ ws, w.clause ∈ ids ∧ passes (e.clause w.clause) = true) :
      (ws.map (Watches.renameEntry (newId ids))).filter (fun w => passes (arena.get w.clause)) =
        ws.map (Watches.renameEntry (newId ids)) := by
    refine List.filter_eq_self.mpr fun w member => ?_
    obtain ⟨x, inside, rfl⟩ := List.mem_map.mp member
    have same : arena.get (newId ids x.clause) = e.clause x.clause := moved.get (left x inside).1
    change passes (arena.get (newId ids x.clause)) = true
    rw [same]
    exact (left x inside).2
  refine ⟨Renamed M ids, ?_⟩
  exact
    { h with
      toPaired := h.toPaired.relocate moved rfl
      trail := { h.trail with }
      binary := h.binary.trans (Watches.cleanAll_cleaned e.watches e.arena).binary.symm
      reasons := by
        intro v assigned
        obtain ⟨l, member, rfl⟩ : ∃ l ∈ e.trail.lits, l.var = v := by
          by_contra none
          exact assigned ((sound.trail.undecided_iff v).mpr fun l member same => none ⟨l, member, same⟩)
        have twins := h.reasons l.var assigned
        have kept := held.reasons l member
        change Reason.Twins (Renamed M ids) (reasons.get l.var) _
        rw [renamed l member]
        change ∀ id, e.trail.reason l.var = .clause id → id ∈ ids at kept
        generalize e.trail.reason l.var = why at twins kept
        generalize f.trail.reason l.var = why' at twins
        cases twins with
        | decision => exact .decision
        | binary other => exact .binary other
        | clause pair => exact .clause ⟨_, kept _ rfl, pair, rfl⟩
      originals := by
        rw [Array.toList_map]
        exact Renamed.forall₂ h.originals fun id member =>
          held.originals id (Array.mem_toList_iff.mp member)
      learnts := by
        rw [Array.toList_map]
        exact Renamed.forall₂ h.learnts fun id member => held.learnts id (Array.mem_toList_iff.mp member)
      long := by
        intro p
        have twins : List.Forall₂ (Watcher.Twins (Renamed M ids)) _ _ :=
          Renamed.watchers (h.long p) (working p)
        rw [← all Clause.isAttached fun w member => ⟨working p w member, (List.mem_filter.mp member).2⟩,
          ← long p] at twins
        exact twins
      frozen := by
        intro p
        have twins : List.Forall₂ (Watcher.Twins (Renamed M ids)) _ _ :=
          Renamed.watchers (h.frozen p) (dormant p)
        rw [← all Clause.isDormant fun w member => ⟨dormant p w member, (List.mem_filter.mp member).2⟩,
          ← frozen p] at twins
        exact twins }

end Engine

end Cdcl
