import Cdcl.Proofs.FrozenWatches
import Cdcl.Proofs.Twins

/-!
# Propagation of twins

Propagation looks at clauses and at the entries of clauses that take part in it, and at nothing
else that tells twins apart. Its conflicts are twins again.

## Main results

- `Twins.propagateFrom`: twins stay twins when they propagate.
-/

namespace Cdcl

variable {M N : ClauseId → ClauseId → Prop}

/-- Conflicts that are the same, but for the handle of a clause. -/
inductive Conflict.Twins (M : ClauseId → ClauseId → Prop) : Conflict → Conflict → Prop where
  | binary (a b : Lit) : Twins M (.binary a b) (.binary a b)
  | clause {a b : ClauseId} (pair : M a b) : Twins M (.clause a) (.clause b)

namespace Engine

variable {e f e' f' : Engine} {a b : ClauseId} {p : Lit}

/-! ### Frozen entries -/

/-- The lists of frozen clauses are left alone, and no clause is put to sleep. -/
theorem Twins.narrow (h : Twins M e f) (mates : Mates N e' f') (more : ∀ {a b}, M a b → N a b)
    (lists : e'.watches.frozen = e.watches.frozen) (lists' : f'.watches.frozen = f.watches.frozen)
    (sleeps : ∀ id, (e'.clause id).isDormant = true → (e.clause id).isDormant = true)
    (sleeps' : ∀ id, (f'.clause id).isDormant = true → (f.clause id).isDormant = true) :
    Twins N e' f' where
  toMates := mates
  frozen := by
    intro p
    have before := (h.frozen p).imp fun x y (twins : Watcher.Twins M x y) =>
      (⟨more twins.pair, twins.blocker⟩ : Watcher.Twins N x y)
    unfold dormant at before ⊢
    rw [lists, lists']
    exact forall₂_narrow before (fun x _ => sleeps x.clause) (fun y _ => sleeps' y.clause)
      fun x y => mates.isDormant

theorem FrozenKept.isDormant (kept : e.FrozenKept f) (id : ClauseId)
    (dormant : (f.clause id).isDormant = true) : (e.clause id).isDormant = true := by
  simp only [Clause.isDormant, Bool.and_eq_true, Bool.not_eq_true'] at dormant ⊢
  rcases kept.clauses id dormant.1 with ⟨used, same, -⟩ | ⟨-, thawed⟩
  · exact ⟨used, same.symm.trans dormant.2⟩
  · exact absurd dormant.2 (Bool.eq_false_iff.mp thawed)

/-- What leaves the frozen clauses and their entries alone keeps them twins. -/
theorem Twins.keep (h : Twins M e f) (mates : Mates N e' f') (more : ∀ {a b}, M a b → N a b)
    (kept : e.FrozenKept e') (kept' : f.FrozenKept f') : Twins N e' f' :=
  h.narrow mates more kept.lists kept'.lists kept.isDormant kept'.isDormant

namespace Mates

/-! ### Clauses of two literals -/

theorem visitBinary (h : Mates M e f) (falseLit : Lit) (others : List Lit) :
    Mates M (Engine.visitBinary falseLit others e).1 (Engine.visitBinary falseLit others f).1 ∧
      Option.Rel (Conflict.Twins M) (Engine.visitBinary falseLit others e).2
        (Engine.visitBinary falseLit others f).2 := by
  induction others generalizing e f with
  | nil => exact ⟨h, .none⟩
  | cons other rest ih =>
    unfold Engine.visitBinary
    rw [h.trail.valueLit]
    split
    · exact ih h
    · exact ⟨h, .some (.binary other falseLit)⟩
    · exact ih (h.assign other (.binary falseLit))

/-! ### Watched clauses -/

/-- A change that leaves alone whether the clause takes part in propagation. -/
theorem rearrange (h : Mates M e f) (pair : M a b) (change : Clause → Clause)
    (same : ∀ c, (change c).isAttached = c.isAttached) :
    Mates M (e.modifyClause a change) (f.modifyClause b change) :=
  h.modifyClause pair change fun attached => .inl ((same _).symm.trans attached)

theorem recordLbd (h : Mates M e f) (lbd : Nat) : Mates M (e.recordLbd lbd) (f.recordLbd lbd) :=
  h.modifyLbdCounts (·.modify (min lbd Clause.maxLbd) (· + 1))

theorem refreshLbd (h : Mates M e f) (pair : M a b) : Mates M (e.refreshLbd a) (f.refreshLbd b) := by
  unfold Engine.refreshLbd
  dsimp only
  rw [h.clause pair]
  split
  · exact h
  · obtain ⟨same, counted⟩ := h.countLevels (e.clause a).lits.toList
    rw [same]
    generalize (e.countLevels (e.clause a).lits.toList).2 = lbd
    split
    · have lowered := counted.rearrange pair (·.setLbd lbd)
        fun c => (c.alike_setLbd lbd).reordered.attached
      have moved := (lowered.modifyLbdCounts (·.modify (e.clause a).lbd (· - 1))).recordLbd lbd
      exact moved.modifyStats _ fun _ _ => rfl
    · exact counted

theorem inspect (h : Mates M e f) (c : Clause) (blocker : Lit) :
    Engine.inspect f.trail c blocker = Engine.inspect e.trail c blocker := by
  unfold Engine.inspect
  rw [h.trail.isTrue, h.trail.findNonFalse]

theorem visitWatched (h : Mates M e f) (falseLit : Lit) {rest rest' : List Watcher}
    (twins : List.Forall₂ (Watcher.Twins M) rest rest') {kept kept' : Array Watcher}
    (keeps : List.Forall₂ (Watcher.Twins M) kept.toList kept'.toList) :
    Mates M (Engine.visitWatched falseLit rest kept e).1
        (Engine.visitWatched falseLit rest' kept' f).1 ∧
      List.Forall₂ (Watcher.Twins M) (Engine.visitWatched falseLit rest kept e).2.1.toList
        (Engine.visitWatched falseLit rest' kept' f).2.1.toList ∧
      Option.Rel (Conflict.Twins M) (Engine.visitWatched falseLit rest kept e).2.2
        (Engine.visitWatched falseLit rest' kept' f).2.2 := by
  -- The visits go alike, entry by entry: an entry decides by its blocker, and else by its clause.
  induction twins generalizing e f kept kept' with
  | nil => exact ⟨h, keeps, .none⟩
  | @cons x y rest rest' entry twins ih =>
    have pair := entry.pair
    have oriented := h.rearrange pair (orient falseLit)
      fun c => (orient_reordered falseLit c).attached
    unfold Engine.visitWatched
    rw [h.trail.isTrue, entry.blocker]
    split
    · exact ih h (forall₂_push keeps entry)
    · dsimp only
      rw [oriented.clause pair, oriented.inspect]
      split
      · exact ih oriented (forall₂_push keeps (Watcher.twins pair _))
      next k first _ =>
        have swapped := oriented.rearrange pair (·.swap 1 k)
          fun c => (c.reordered_swap 1 k).attached
        rw [swapped.clause pair]
        exact ih (swapped.pushLong _ (Watcher.twins pair first)) keeps
      next first _ =>
        have pushed := forall₂_push keeps (Watcher.twins pair first)
        rw [oriented.trail.isFalse]
        split
        · refine ⟨oriented, ?_, .some (.clause pair)⟩
          rw [Array.toList_append, Array.toList_append]
          exact List.rel_append pushed twins
        · have assigned := oriented.assign first (.clause pair)
          rw [assigned.clause pair]
          split
          · exact ih (assigned.refreshLbd pair) pushed
          · exact ih assigned pushed

/-- No entry of a clean list is left of a clause out of use. -/
theorem working_eq {aside : List ClauseId} (h : e.Sound aside) (clean : e.watches.dirty.get p = false) :
    e.working p = (e.watches.long.get p).toList :=
  List.filter_eq_self.mpr fun _ inside =>
    h.tracked.attached clean (Array.mem_toList_iff.mp inside)

theorem propagateWatched (h : Mates M e f) {aside aside' : List ClauseId} (sound : e.Sound aside)
    (sound' : f.Sound aside') (apart : e.FrozenApart) (apart' : f.FrozenApart)
    (latest : e.trail.Latest p) (latest' : f.trail.Latest p) :
    Mates M (e.propagateWatched p).1 (f.propagateWatched p).1 ∧
      Option.Rel (Conflict.Twins M) (e.propagateWatched p).2 (f.propagateWatched p).2 := by
  have swept : Mates M (e.modifyWatches (·.cleanIfDirty e.arena p))
      (f.modifyWatches (·.cleanIfDirty f.arena p)) :=
    h.cleaned (Watches.cleanIfDirty_cleaned e.watches e.arena p)
      (Watches.cleanIfDirty_cleaned f.watches f.arena p)
  have lists := swept.long p
  rw [working_eq (visiting_cleaned sound apart latest).1 (Watches.dirty_cleanIfDirty _ _ _),
    working_eq (visiting_cleaned sound' apart' latest').1 (Watches.dirty_cleanIfDirty _ _ _)] at lists
  have none : List.Forall₂ (Watcher.Twins M) (#[] : Array Watcher).toList (#[] : Array Watcher).toList :=
    .nil
  obtain ⟨visited, kept, conflict⟩ := swept.visitWatched p.neg lists none
  exact ⟨visited.setLong p kept, conflict⟩

/-! ### Frozen clauses -/

/-- A frozen clause and its twin are put back to work. Neither has entries left. -/
theorem thawFalsified (h : Mates M e f) (pair : M a b) (none : e.Unwatched a) (none' : f.Unwatched b) :
    Mates M (e.thawFalsified a) (f.thawFalsified b) := by
  unfold Engine.thawFalsified
  dsimp only
  have thawed := h.modifyClause pair (fun c =>
    (c.setLits (e.trail.bringHighest 1 (e.trail.bringHighest 0 c.lits))).setFrozen false)
    fun _ => .inr ⟨none, none'⟩
  simp only [h.trail.bringHighest]
  exact ((thawed.attach pair).modifyTally _).modifyStats _ fun _ _ => rfl

end Mates

theorem isDormant_thawFalsified (dormant : (e.clause a).isDormant = true) (id : ClauseId)
    (still : ((e.thawFalsified a).clause id).isDormant = true) : (e.clause id).isDormant = true := by
  have used : (e.clause a).isRemoved = false := by
    simp only [Clause.isDormant, Bool.and_eq_true, Bool.not_eq_true'] at dormant
    exact dormant.1
  by_cases same : a = id
  · exact same ▸ dormant
  · rwa [clause_thawFalsified used same] at still

theorem unwatched_of_entriesOf {id : ClauseId}
    (none : ∀ p, entriesOf id (e.watches.long.get p) = 0) : e.Unwatched id := fun p w member same =>
  absurd (entriesOf_pos_iff.mpr ⟨w, member, same⟩) (by rw [none]; exact Nat.lt_irrefl 0)

theorem FrozenApart.unwatched_of_dormant (h : e.FrozenApart) {id : ClauseId}
    (dormant : (e.clause id).isDormant = true) : e.Unwatched id := by
  simp only [Clause.isDormant, Bool.and_eq_true, Bool.not_eq_true'] at dormant
  exact unwatched_of_entriesOf (h.unwatched id dormant.1 dormant.2)

theorem isFrozenStale_eq (arena : ClauseArena) (w : Watcher) :
    Watches.isFrozenStale arena w = !(arena.get w.clause).isDormant := by
  simp [Watches.isFrozenStale, Clause.isDormant]

/-- Entries that are out of date are skipped. -/
theorem visitFrozen_filter (falseLit : Lit) (entries : List Watcher) (e : Engine) :
    let r := visitFrozen falseLit entries e
    let q := visitFrozen falseLit (entries.filter fun w => (e.clause w.clause).isDormant) e
    q.1 = r.1 ∧ q.2.2 = r.2.2 ∧
      q.2.1.filter (fun w => (r.1.clause w.clause).isDormant) =
        r.2.1.filter fun w => (r.1.clause w.clause).isDormant := by
  induction entries generalizing e with
  | nil => exact ⟨rfl, rfl, rfl⟩
  | cons entry rest ih =>
    rw [List.filter_cons]
    cases dormant : (e.clause entry.clause).isDormant with
    | false =>
      have stale : Watches.isFrozenStale e.arena entry = true := by
        rw [isFrozenStale_eq]
        exact congrArg not dormant
      rw [visitFrozen, if_pos stale]
      exact ih e
    | true =>
      have fresh : ¬ Watches.isFrozenStale e.arena entry = true := by
        rw [isFrozenStale_eq, Bool.not_eq_true', Bool.not_eq_false]
        exact dormant
      dsimp only [visitFrozen]
      rw [if_pos rfl, visitFrozen, if_neg fresh, if_neg fresh]
      split
      · exact ih (e.modifyWatches (·.pushFrozen entry.blocker.neg ⟨entry.clause, falseLit⟩))
      · split
        next l _ => exact ih (e.modifyWatches (·.pushFrozen l.neg ⟨entry.clause, falseLit⟩))
        · refine ⟨rfl, rfl, ?_⟩
          rw [List.filter_filter]
          refine List.filter_congr fun w _ => ?_
          rw [Bool.and_eq_left_iff_imp]
          exact fun still => isDormant_thawFalsified dormant w.clause still

namespace Twins

theorem visitFrozen (h : Twins M e f) (falseLit : Lit) {entries entries' : List Watcher}
    (twins : List.Forall₂ (Watcher.Twins M) entries entries')
    (apart : ∀ id, (e.clause id).isDormant = true → e.Unwatched id)
    (apart' : ∀ id, (f.clause id).isDormant = true → f.Unwatched id) :
    Twins M (Engine.visitFrozen falseLit entries e).1 (Engine.visitFrozen falseLit entries' f).1 ∧
      List.Forall₂ (Watcher.Twins M) (Engine.visitFrozen falseLit entries e).2.1
        (Engine.visitFrozen falseLit entries' f).2.1 ∧
      Option.Rel (Conflict.Twins M) (Engine.visitFrozen falseLit entries e).2.2
        (Engine.visitFrozen falseLit entries' f).2.2 := by
  induction twins generalizing e f with
  | nil => exact ⟨h, .nil, .none⟩
  | @cons x y rest rest' entry twins ih =>
    have pair := entry.pair
    have stale : Watches.isFrozenStale f.arena y = Watches.isFrozenStale e.arena x := by
      rw [isFrozenStale_eq, isFrozenStale_eq]
      exact congrArg (fun c : Clause => !c.isDormant) (h.clause pair)
    unfold Engine.visitFrozen
    dsimp only
    rw [stale, h.trail.isFalse, entry.blocker, h.clause pair]
    split
    · exact ih h apart apart'
    next fresh =>
      split
      · exact ih (h.pushFrozen _ (Watcher.twins pair falseLit)) apart apart'
      · split
        · exact ih (h.pushFrozen _ (Watcher.twins pair falseLit)) apart apart'
        · -- A frozen clause that became false is thawed in both, and ends the visit.
          have dormant : (e.clause x.clause).isDormant = true := by
            rw [isFrozenStale_eq, Bool.not_eq_true', Bool.not_eq_false] at fresh
            exact fresh
          have dormant' : (f.clause y.clause).isDormant = true := by
            rw [h.clause pair]
            exact dormant
          refine ⟨?_, twins, .some (.clause pair)⟩
          exact h.narrow (h.thawFalsified pair (apart _ dormant) (apart' _ dormant')) id rfl rfl
            (isDormant_thawFalsified dormant) (isDormant_thawFalsified dormant')

end Twins

/-- The entries that are left take the place of the list; an empty list needs no visit. -/
theorem propagateFrozen_eq (e : Engine) (p : Lit) :
    ∃ change : Watches → Watches, e.propagateFrozen p =
      ((visitFrozen p.neg (e.watches.frozen.get p).toList e).1.modifyWatches change,
        (visitFrozen p.neg (e.watches.frozen.get p).toList e).2.2) ∧
      (∀ w, (change w).long = w.long ∧ (change w).binary = w.binary) ∧
      ∀ q, (change (visitFrozen p.neg (e.watches.frozen.get p).toList e).1.watches).frozen.get q =
        if p = q then (visitFrozen p.neg (e.watches.frozen.get p).toList e).2.1.toArray
        else (visitFrozen p.neg (e.watches.frozen.get p).toList e).1.watches.frozen.get q := by
  unfold propagateFrozen
  dsimp only
  split
  next none =>
    have empty : e.watches.frozen.get p = #[] := Array.isEmpty_iff.mp none
    rw [empty]
    refine ⟨id, rfl, fun _ => ⟨rfl, rfl⟩, fun q => ?_⟩
    split
    next same => exact same ▸ empty
    · rfl
  · exact ⟨_, rfl, fun _ => ⟨rfl, rfl⟩, fun q => DenseMap.get_insert _ p q _⟩

namespace Twins

theorem propagateFrozen (h : Twins M e f) (apart : e.FrozenApart) (apart' : f.FrozenApart) (p : Lit) :
    Twins M (e.propagateFrozen p).1 (f.propagateFrozen p).1 ∧
      Option.Rel (Conflict.Twins M) (e.propagateFrozen p).2 (f.propagateFrozen p).2 := by
  obtain ⟨change, eq, same, lists⟩ := e.propagateFrozen_eq p
  obtain ⟨change', eq', same', lists'⟩ := f.propagateFrozen_eq p
  obtain ⟨visited, left, conflict⟩ := h.visitFrozen p.neg (h.frozen p)
    (fun _ dormant => apart.unwatched_of_dormant dormant)
    fun _ dormant => apart'.unwatched_of_dormant dormant
  obtain ⟨first, second, third⟩ := visitFrozen_filter p.neg (e.watches.frozen.get p).toList e
  obtain ⟨first', second', third'⟩ := visitFrozen_filter p.neg (f.watches.frozen.get p).toList f
  rw [eq, eq']
  unfold dormant at visited left conflict
  rw [first, first'] at visited
  rw [second, second'] at conflict
  have left := forall₂_filter left fun x y => visited.isDormant
  rw [third, third'] at left
  generalize Engine.visitFrozen p.neg (e.watches.frozen.get p).toList e = r at *
  generalize Engine.visitFrozen p.neg (f.watches.frozen.get p).toList f = r' at *
  refine ⟨⟨visited.toMates.watches ?_ fun q => ?_, fun q => ?_⟩, conflict⟩
  · rw [(same _).2, (same' _).2, visited.binary]
  · unfold working Engine.modifyWatches
    dsimp only
    rw [(same _).1, (same' _).1]
    exact visited.long q
  · have frozen := visited.frozen q
    unfold dormant Engine.modifyWatches at *
    dsimp only
    rw [lists, lists']
    split
    · exact left
    · exact frozen

/-! ### Propagation -/

section

variable {aside aside' : List ClauseId}

theorem propagateLit (h : Twins M e f) (sound : e.Sound aside) (sound' : f.Sound aside')
    (apart : e.FrozenApart) (apart' : f.FrozenApart) (latest : e.trail.Latest p)
    (latest' : f.trail.Latest p) :
    Twins M (e.propagateLit p).1 (f.propagateLit p).1 ∧
      Option.Rel (Conflict.Twins M) (e.propagateLit p).2 (f.propagateLit p).2 := by
  obtain ⟨mates, found⟩ := h.toMates.visitBinary p.neg (e.watches.binary.get p).toList
  rcases run : Engine.visitBinary p.neg (e.watches.binary.get p).toList e with ⟨g, c⟩
  rcases run' : Engine.visitBinary p.neg (e.watches.binary.get p).toList f with ⟨g', c'⟩
  rw [run, run'] at mates found
  have twins := h.keep mates id (sameBooks_visitBinary run).frozenKept
    (sameBooks_visitBinary run').frozenKept
  unfold Engine.propagateLit
  rw [h.binary, run, run']
  -- A conflict among the pairs ends the visit for both twins, and so does one in the list of watched
  -- clauses.
  cases found with
  | some conflicts => exact ⟨twins, .some conflicts⟩
  | none =>
    dsimp only
    obtain ⟨sound_g, apart_g, grown, -⟩ := visitBinary_sound sound apart latest
      (fun q inside => Array.mem_toList_iff.mp inside) run
    obtain ⟨sound_g', apart_g', grown', -⟩ := visitBinary_sound sound' apart' latest'
      (fun q inside => Array.mem_toList_iff.mp (h.binary ▸ inside)) run'
    have latest_g := grown.latest sound.trail sound_g.trail latest
    have latest_g' := grown'.latest sound'.trail sound_g'.trail latest'
    obtain ⟨mates, found⟩ := twins.toMates.propagateWatched sound_g sound_g' apart_g apart_g' latest_g
      latest_g'
    rcases watched : g.propagateWatched p with ⟨k, c⟩
    rcases watched' : g'.propagateWatched p with ⟨k', c'⟩
    rw [watched, watched'] at mates found
    have twins := twins.keep mates id (frozenKept_propagateWatched watched)
      (frozenKept_propagateWatched watched')
    cases found with
    | some conflicts => exact ⟨twins, .some conflicts⟩
    | none =>
      obtain ⟨-, apart_k, -⟩ := propagateWatched_sound sound_g apart_g latest_g watched
      obtain ⟨-, apart_k', -⟩ := propagateWatched_sound sound_g' apart_g' latest_g' watched'
      exact twins.propagateFrozen apart_k apart_k' p

theorem modifyTrail (h : Twins M e f) {head head' : Nat} (same : head' = head) :
    Twins M { e with trail := { e.trail with head } } { f with trail := { f.trail with head := head' } } :=
  { h with trail := { h.trail with head := same } }

theorem modifyStats (h : Twins M e f) (count : Statistics → Statistics)
    (free : ∀ s n, count { s with compactions := n } = { count s with compactions := n }) :
    Twins M (e.modifyStats count) (f.modifyStats count) where
  toMates := h.toMates.modifyStats count free
  frozen := h.frozen

/-- Twins stay twins when they propagate, and their conflicts are twins. -/
theorem propagateFrom (h : Twins M e f) (sound : e.Sound aside) (sound' : f.Sound aside')
    (apart : e.FrozenApart) (apart' : f.FrozenApart) (n : Nat) :
    Twins M (Engine.propagateFrom n e).1 (Engine.propagateFrom n f).1 ∧
      Option.Rel (Conflict.Twins M) (Engine.propagateFrom n e).2 (Engine.propagateFrom n f).2 := by
  induction n generalizing e f with
  | zero => exact ⟨h, .none⟩
  | succ n ih =>
    cases at_head : e.trail.lits[e.trail.head]? with
    | none =>
      unfold Engine.propagateFrom
      rw [h.trail.lits, h.trail.head, at_head]
      exact ⟨h, .none⟩
    | some p =>
      have at_head' : f.trail.lits[f.trail.head]? = some p := by
        rw [h.trail.lits, h.trail.head]
        exact at_head
      obtain ⟨sound_a, apart_a, -, latest⟩ := dequeue_sound sound apart at_head
      obtain ⟨sound_a', apart_a', -, latest'⟩ := dequeue_sound sound' apart' at_head'
      have taken : Twins M e.dequeue f.dequeue :=
        (h.modifyTrail (congrArg (· + 1) h.trail.head)).modifyStats _ fun _ _ => rfl
      obtain ⟨twins, found⟩ := taken.propagateLit sound_a sound_a' apart_a apart_a' latest latest'
      rw [propagateFrom_succ at_head, propagateFrom_succ at_head']
      rcases run : e.dequeue.propagateLit p with ⟨g, c⟩
      rcases run' : f.dequeue.propagateLit p with ⟨g', c'⟩
      rw [run, run'] at twins found
      cases found with
      | some conflicts =>
        exact ⟨twins.modifyTrail (congrArg Array.size twins.trail.lits), .some conflicts⟩
      | none =>
        obtain ⟨sound_g, apart_g, -⟩ := propagateLit_sound sound_a apart_a latest run
        obtain ⟨sound_g', apart_g', -⟩ := propagateLit_sound sound_a' apart_a' latest' run'
        exact ih twins sound_g sound_g' apart_g apart_g'

theorem propagate (h : Twins M e f) (sound : e.Sound aside) (sound' : f.Sound aside')
    (apart : e.FrozenApart) (apart' : f.FrozenApart) :
    Twins M e.propagate.1 f.propagate.1 ∧
      Option.Rel (Conflict.Twins M) e.propagate.2 f.propagate.2 := by
  unfold Engine.propagate
  rw [h.numVars]
  exact h.propagateFrom sound sound' apart apart' e.numVars

end

end Twins

end Engine

end Cdcl
