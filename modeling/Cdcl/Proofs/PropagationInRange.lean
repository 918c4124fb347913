import Cdcl.Proofs.Slots

/-!
# Propagation in range

What propagation looks up: the lists of the literal that is visited, the blockers in them, the clauses
of their entries and all literals of those, and the count of learnt clauses that a refreshed level count
leaves. What is looked up in a list is asked for when its visit starts, except for the watched clauses:
each visit of one may move level counts, so that the next is judged after it.

## Main results

- `Fit.propagateFrom_inRange`: every access of a propagation is in range.
- `Fit.propagateFrom`: and the engine stays fit for what comes next.
-/

namespace Cdcl

namespace Engine

variable {e f : Engine} {p l : Lit} {id : ClauseId} {aside : List ClauseId}
  {conflict : Option Conflict}

/-! ### What propagation looks up -/

/-- The entry of a watch list can be visited, and its clause turned so that the false literal comes second.
If the clause propagates, the count of its level count goes down by one. -/
structure EntryInRange (falseLit : Lit) (e : Engine) (w : Watcher) : Prop where
  blocker : e.Knows w.blocker.var
  reads : e.Reads w.clause
  second : (orient falseLit (e.clause w.clause)).lit 1 = falseLit
  lbd : ∀ info, (e.clause w.clause).learnt? = some info → e.CountsLbd info.lbd

/-- Each entry of a watch list can be visited when its turn comes, up to a conflict. -/
def WatchedInRange (falseLit : Lit) : List Watcher → Array Watcher → Engine → Prop
  | [], _, _ => True
  | entry :: rest, kept, e =>
    EntryInRange falseLit e entry ∧
      match visitEntry falseLit entry kept e with
      | (e, kept, none) => WatchedInRange falseLit rest kept e
      | (_, _, some _) => True

/-- The list can be cleaned. -/
def CleanInRange (e : Engine) (key : Lit) : Prop :=
  e.watches.Has key ∧ ∀ w ∈ e.watches.long.get key, w.clause.slot < e.arena.clauses.size

def PropagateWatchedInRange (e : Engine) (p : Lit) : Prop :=
  e.CleanInRange p ∧
    let e := e.modifyWatches (·.cleanIfDirty e.arena p)
    WatchedInRange p.neg (e.watches.long.get p).toList #[] e

/-- The entry of a list of frozen clauses can be visited: it tells whether it is stale, and if not, then
its clause can be put back to work. -/
structure FrozenInRange (e : Engine) (w : Watcher) : Prop where
  stored : w.clause.slot < e.arena.clauses.size
  blocker : Watches.isFrozenStale e.arena w = false → e.Knows w.blocker.var
  reads : Watches.isFrozenStale e.arena w = false → e.Reads w.clause
  counted : Watches.isFrozenStale e.arena w = false → 0 < e.tally.frozen

/-- The entries of a list of frozen clauses can be visited, and none of them is added to the list again. -/
structure PropagateFrozenInRange (e : Engine) (p : Lit) : Prop where
  lists : e.watches.Has p
  entries : ∀ w ∈ e.watches.frozen.get p, e.FrozenInRange w
  leaves : ∀ l, e.trail.isFalse l = false → l.neg ≠ p
  unlisted : (visitFrozen p.neg (e.watches.frozen.get p).toList e).1.watches.frozen.get p =
    e.watches.frozen.get p

def PropagateLitInRange (e : Engine) (p : Lit) : Prop :=
  e.Knows p.var ∧ (∀ other ∈ e.watches.binary.get p, e.Knows other.var) ∧
    match visitBinary p.neg (e.watches.binary.get p).toList e with
    | (_, some _) => True
    | (e, none) =>
      e.PropagateWatchedInRange p ∧
        match e.propagateWatched p with
        | (_, some _) => True
        | (e, none) => e.PropagateFrozenInRange p

def PropagateFromInRange : Nat → Engine → Prop
  | 0, _ => True
  | n + 1, e =>
    match e.trail.lits[e.trail.head]? with
    | none => True
    | some p =>
      let e := (e.modifyTrail Trail.advance).modifyStats fun s =>
        { s with propagations := s.propagations + 1 }
      e.PropagateLitInRange p ∧
        match e.propagateLit p with
        | (e, none) => PropagateFromInRange n e
        | (_, some _) => True

def PropagateInRange (e : Engine) : Prop := PropagateFromInRange e.numVars e

/-! ### Slots stay during propagation -/

theorem Equipped.modifyStats (h : e.Equipped) {change : Statistics → Statistics}
    (deleted : (change e.stats).literalsAfter ≤ (change e.stats).literalsBefore) :
    (e.modifyStats change).Equipped := { h with deleted }

theorem Equipped.modifyLbdCounts (h : e.Equipped) (lbd : Nat) (change : Nat → Nat) :
    ({ e with lbdCounts := e.lbdCounts.modify lbd change } : Engine).Equipped :=
  { h with uncounted := (DenseMap.fallback_modify ..).trans h.uncounted }

theorem Equipped.refreshLbd (h : e.Equipped) (id : ClauseId) : (e.refreshLbd id).Equipped := by
  have counted : (e.countLevels (e.clause id).lits.toList).1.Equipped := { h with }
  unfold Engine.refreshLbd
  dsimp only
  split
  · exact h
  generalize e.countLevels (e.clause id).lits.toList = result at counted ⊢
  obtain ⟨g, lbd⟩ := result
  dsimp only at counted ⊢
  split
  · have moved := ((counted.modifyClause id (·.setLbd lbd)).modifyLbdCounts (e.clause id).lbd
      (· - 1)).modifyLbdCounts (min lbd Clause.maxLbd) (· + 1)
    refine moved.modifyStats ?_
    exact counted.deleted
  · exact counted

theorem Equipped.visitBinary {others : List Lit} (h : e.Equipped)
    (bounded : ∀ q ∈ others, q.var.index < e.numVars)
    (result : visitBinary p others e = (f, conflict)) : f.Equipped := by
  induction others generalizing e with
  | nil => cases result; exact h
  | cons q others ih =>
    have later : ∀ r ∈ others, r.var.index < e.numVars := fun r member =>
      bounded r (List.mem_cons_of_mem _ member)
    unfold Engine.visitBinary at result
    split at result
    · exact ih h later result
    · cases result; exact h
    · exact ih (h.assign (bounded q List.mem_cons_self) _) later result

theorem Equipped.visitEntry {kept kept' : Array Watcher} {entry : Watcher} (h : e.Equipped)
    (used : (e.clause entry.clause).isRemoved = false)
    (proper : (e.clause entry.clause).Proper e.numVars)
    (result : visitEntry p entry kept e = (f, kept', conflict)) : f.Equipped := by
  have oriented := h.modifyClause entry.clause (orient p)
  unfold Engine.visitEntry visitWatched at result
  split at result
  next => cases result; exact h
  next blocked =>
    dsimp only at result
    split at result
    next => cases result; exact oriented
    next =>
      cases result
      exact (oriented.modifyClause _ _).modifyWatches (oriented.watches.pushLong _ _)
    next first seen =>
      split at result
      next => cases result; exact oriented
      next =>
        have bound : first.var.index < e.numVars := by
          obtain ⟨rfl, -⟩ := inspect_eq_unit blocked seen
          rw [clause_modifyClause used, if_pos rfl]
          have turned := proper.of_perm (orient_reordered p _).lits (orient_reordered p _).relocated
          exact turned.bounded _ (Clause.lit_mem (Nat.lt_of_lt_of_le (by decide) turned.size))
        have assigned := oriented.assign bound (.clause entry.clause)
        split at result
        · cases result
          exact assigned.refreshLbd _
        · cases result
          exact assigned

theorem Equipped.attach (h : e.Equipped) (id : ClauseId) : (e.attach id).Equipped :=
  { h with watches := h.watches.watch _ _ _ }

theorem Equipped.thawFalsified (h : e.Equipped) (id : ClauseId) : (e.thawFalsified id).Equipped := by
  have attached := (h.modifyClause id fun c =>
    (c.setLits (e.trail.bringHighest 1 (e.trail.bringHighest 0 c.lits))).setFrozen false).attach id
  exact { attached with deleted := h.deleted }

theorem Equipped.visitFrozen {entries left : List Watcher} (h : e.Equipped)
    (result : visitFrozen p entries e = (f, left, conflict)) : f.Equipped := by
  induction entries generalizing e with
  | nil => cases result; exact h
  | cons entry entries ih =>
    unfold Engine.visitFrozen at result
    dsimp only at result
    split at result
    · exact ih h result
    split at result
    · exact ih (h.modifyWatches (h.watches.pushFrozen _ _)) result
    split at result
    · exact ih (h.modifyWatches (h.watches.pushFrozen _ _)) result
    · cases result
      exact h.thawFalsified _

theorem Equipped.propagateFrozen (h : e.Equipped) (result : e.propagateFrozen p = (f, conflict)) :
    f.Equipped := by
  cases propagateFrozen_visits result with
  | none => exact h
  | some run =>
    have visited := h.visitFrozen run
    exact visited.modifyWatches (visited.watches.setFrozen _ _)

/-! ### Watched clauses -/

/-- What an entry of the list under visit relies on. -/
theorem Visiting.entryInRange {ws : Array Watcher} {w : Watcher} (h : Visiting aside p ws e)
    (equipped : e.Equipped) (balanced : e.Balanced) (member : w ∈ ws) : EntryInRange p.neg e w := by
  have attached := (h.attached member).1
  have used := isRemoved_of_isAttached attached
  have listed : w ∈ (e.withList p ws).watches.long.get p := by
    rw [long_withList, if_pos rfl]
    exact member
  have proper : (e.clause w.clause).Proper e.numVars := h.sound.proper w.clause used
  refine ⟨equipped.knows ?_, ?_, ?_, fun info learnt => ?_⟩
  · -- A blocker may have left its clause since, but then it is the opposite of a fact.
    rcases h.sound.blockers p w listed attached with inside | dropped
    · exact proper.bounded _ inside
    · exact h.sound.trail.bounded w.blocker.neg (h.sound.trail.mem_facts_iff_levelOf.mp dropped).1
  · exact ⟨slot_lt used, proper.size, proper.distinct,
      fun l inside => equipped.knows (proper.bounded l inside)⟩
  · exact orient_lit_one (Nat.le_of_succ_le proper.size) (h.watched member)
  · exact balanced.countsLbd equipped.uncounted used learnt

/-- A visit of one entry leaves the entries after it visitable: the induction is on those left. -/
theorem Visiting.watchedInRange {rest : List Watcher} {kept : Array Watcher}
    (h : Visiting aside p (kept ++ rest.toArray) e) (equipped : e.Equipped)
    {os ks : List ClauseId} (booked : e.Booked os ks) : WatchedInRange p.neg rest kept e := by
  induction rest generalizing kept e with
  | nil => trivial
  | cons entry rest ih =>
    have member : entry ∈ kept ++ (entry :: rest).toArray := by simp
    have used := isRemoved_of_isAttached (h.attached member).1
    refine ⟨h.entryInRange equipped booked.balanced member, ?_⟩
    rcases visited : Engine.visitEntry p.neg entry kept e with ⟨f, kept', _ | c⟩
    · have visit := h.visit (visited ▸ visitEntry_cases _ _ _ used)
      exact ih visit.1 (equipped.visitEntry used (h.sound.proper _ used) visited)
        ((booksKept_visitEntry used visited).booked booked)
    · trivial

theorem Visiting.equipped {rest : List Watcher} {kept kept' : Array Watcher}
    (h : Visiting aside p (kept ++ rest.toArray) e) (equipped : e.Equipped)
    (result : Engine.visitWatched p.neg rest kept e = (f, kept', conflict)) : f.Equipped := by
  induction rest generalizing kept e with
  | nil => cases result; exact equipped
  | cons entry rest ih =>
    have member : entry ∈ kept ++ (entry :: rest).toArray := by simp
    have used := isRemoved_of_isAttached (h.attached member).1
    rw [visitWatched_cons] at result
    rcases visited : Engine.visitEntry p.neg entry kept e with ⟨g, kept1, found⟩
    have after := equipped.visitEntry used (h.sound.proper _ used) visited
    rw [visited] at result
    cases found with
    | none => exact ih (h.visit (visited ▸ visitEntry_cases _ _ _ used)).1 after result
    | some c =>
      cases result
      exact after

/-! ### Literals -/

theorem Fit.visitBinary {others : List Lit} (h : e.Fit aside) (latest : e.trail.Latest p)
    (stored : ∀ q ∈ others, q ∈ e.watches.binary.get p)
    (result : visitBinary p.neg others e = (f, conflict)) : f.Fit aside ∧ f.trail.Latest p := by
  obtain ⟨sound, apart, grown, -⟩ := visitBinary_sound h.sound h.apart latest stored result
  have equipped := h.equipped.visitBinary
    (fun q member => (h.sound.binary_bounded p q (stored q member)).2) result
  exact ⟨h.sameBooks (sameBooks_visitBinary result) sound apart equipped,
    grown.latest h.sound.trail sound.trail latest⟩

theorem Fit.propagateWatched (h : e.Fit aside) (latest : e.trail.Latest p)
    (result : e.propagateWatched p = (f, conflict)) : f.Fit aside := by
  obtain ⟨sound, apart, -⟩ := propagateWatched_sound h.sound h.apart latest result
  obtain ⟨os, ks, booked⟩ := h.booked
  refine ⟨sound, apart, (frozenKept_propagateWatched result).watched h.watched,
    ⟨os, ks, (booksKept_propagateWatched h.sound h.apart latest result).booked booked⟩, ?_⟩
  have visiting := (visiting_cleaned h.sound h.apart latest).2
  have cleaned := h.equipped.modifyWatches (h.equipped.watches.cleanIfDirty e.arena p)
  obtain ⟨k, kept, run, rfl⟩ := propagateWatched_eq result
  have visited := visiting.equipped cleaned run
  exact visited.modifyWatches (visited.watches.setLong p kept)

theorem Fit.propagateWatched_inRange (h : e.Fit aside) (latest : e.trail.Latest p) :
    e.PropagateWatchedInRange p := by
  obtain ⟨os, ks, booked⟩ := h.booked
  have cleaned := h.equipped.modifyWatches (h.equipped.watches.cleanIfDirty e.arena p)
  have kept : e.BooksKept (e.modifyWatches (·.cleanIfDirty e.arena p)) :=
    booksKept_frozenLists e (e.watches.cleanIfDirty_cleaned e.arena p).binary
  exact ⟨⟨h.equipped.watches.has (h.sound.trail.bounded p latest.mem), h.sound.inside p⟩,
    (visiting_cleaned h.sound h.apart latest).2.watchedInRange cleaned (kept.booked booked)⟩

theorem unlisted_visitFrozen (holds : e.trail.isTrue p = true) (entries : List Watcher) :
    (visitFrozen p.neg entries e).1.watches.frozen.get p = e.watches.frozen.get p := by
  have visited := visitFrozen_cases p.neg entries e
  generalize visitFrozen p.neg entries e = final at visited
  cases visited with
  | moved rehung => exact rehung.visited p holds
  | @falsified lists rehung entry =>
    obtain ⟨-, -, -, -, frozen, -⟩ := (e.withFrozen lists).fields_thawFalsified entry.clause
    rw [frozen]
    exact rehung.visited p holds

theorem Fit.propagateFrozen_inRange (h : e.Fit aside) (assigned : p ∈ e.trail.lits) :
    e.PropagateFrozenInRange p := by
  have holds : e.trail.isTrue p = true := (h.sound.trail.isTrue_iff p).mpr assigned
  refine ⟨h.equipped.watches.has (h.sound.trail.bounded p assigned), fun w listed => ?_, ?_,
    unlisted_visitFrozen holds _⟩
  case refine_2 =>
    rintro l open_ rfl
    rw [(h.sound.trail.isFalse_iff l).mpr assigned] at open_
    cases open_
  have usable (fresh : Watches.isFrozenStale e.arena w = false) :
      (e.clause w.clause).isRemoved = false ∧ (e.clause w.clause).isFrozen = true :=
    not_isFrozenStale_iff.mp fresh
  refine ⟨h.watched.inside p w listed, fun fresh => ?_, fun fresh => h.reads (usable fresh).1, ?_⟩
  · obtain ⟨used, frozen⟩ := usable fresh
    have inside := (h.apart.entries p w listed used frozen).2
    exact h.knows ((h.sound.proper _ used).bounded _ inside)
  · intro fresh
    obtain ⟨used, frozen⟩ := usable fresh
    exact (h.counts used).frozen frozen

theorem Fit.propagateLit_inRange (h : e.Fit aside) (latest : e.trail.Latest p) :
    e.PropagateLitInRange p := by
  have bound := h.sound.trail.bounded p latest.mem
  refine ⟨h.knows bound, fun q stored => h.knows (h.sound.binary_bounded p q stored).2, ?_⟩
  rcases first : Engine.visitBinary p.neg (e.watches.binary.get p).toList e with ⟨g, _ | c⟩
  · obtain ⟨fit_g, latest_g⟩ := h.visitBinary latest (fun q => Array.mem_toList_iff.mp) first
    refine ⟨fit_g.propagateWatched_inRange latest_g, ?_⟩
    rcases second : g.propagateWatched p with ⟨k, _ | c⟩
    · -- What is propagated meanwhile is above `p` on the trail.
      have fit_k := fit_g.propagateWatched latest_g second
      obtain ⟨-, -, grown, -⟩ := propagateWatched_sound fit_g.sound fit_g.apart latest_g second
      have still := grown.latest fit_g.sound.trail fit_k.sound.trail latest_g
      exact fit_k.propagateFrozen_inRange still.mem
    · trivial
  · trivial

theorem Fit.propagateLit (h : e.Fit aside) (latest : e.trail.Latest p)
    (result : e.propagateLit p = (f, conflict)) : f.Fit aside := by
  obtain ⟨sound, apart, -⟩ := propagateLit_sound h.sound h.apart latest result
  obtain ⟨os, ks, booked⟩ := h.booked
  refine ⟨sound, apart, h.sound.frozenWatched_propagateLit h.apart latest h.watched result,
    ⟨os, ks, (booksKept_propagateLit h.sound h.apart latest result).booked booked⟩, ?_⟩
  cases propagateLit_cases result with
  | binary first => exact (h.visitBinary latest (fun q => Array.mem_toList_iff.mp) first).1.equipped
  | watched first second =>
    obtain ⟨fit_g, latest_g⟩ := h.visitBinary latest (fun q => Array.mem_toList_iff.mp) first
    exact (fit_g.propagateWatched latest_g second).equipped
  | frozen first second third =>
    obtain ⟨fit_g, latest_g⟩ := h.visitBinary latest (fun q => Array.mem_toList_iff.mp) first
    exact (fit_g.propagateWatched latest_g second).equipped.propagateFrozen third

/-! ### Propagation -/

/-- Nothing but the queue and the statistics changes between the visits of two literals. -/
theorem Fit.queue (h : e.Fit aside) {trail : Trail} {stats : Statistics}
    (sound : ({ e with trail, stats } : Engine).Sound aside)
    (apart : ({ e with trail, stats } : Engine).FrozenApart) (spans : trail.Spans e.numVars)
    (deleted : stats.literalsAfter ≤ stats.literalsBefore) :
    ({ e with trail, stats } : Engine).Fit aside :=
  h.sameBooks (.others e) sound apart { h.equipped with trail := spans, deleted }

theorem Fit.dequeue (h : e.Fit aside) (at_head : e.trail.lits[e.trail.head]? = some p) :
    e.dequeue.Fit aside ∧ e.dequeue.trail.Latest p := by
  obtain ⟨sound, apart, -, latest⟩ := dequeue_sound h.sound h.apart at_head
  have spans : (e.trail.advance).Spans e.numVars :=
    ⟨h.equipped.trail.values, h.equipped.trail.reasons, h.equipped.trail.levels⟩
  exact ⟨h.queue sound apart spans h.equipped.deleted, latest⟩

/-- Every access of a propagation is in range. -/
theorem Fit.propagateFrom_inRange (n : Nat) (h : e.Fit aside) : PropagateFromInRange n e := by
  induction n generalizing e with
  | zero => trivial
  | succ n ih =>
    unfold PropagateFromInRange
    split
    · trivial
    next p at_head =>
      obtain ⟨taken, latest⟩ := h.dequeue at_head
      change e.dequeue.PropagateLitInRange p ∧ match e.dequeue.propagateLit p with
        | (e, none) => PropagateFromInRange n e
        | (_, some _) => True
      refine ⟨taken.propagateLit_inRange latest, ?_⟩
      rcases run : e.dequeue.propagateLit p with ⟨g, _ | c⟩
      · exact ih (taken.propagateLit latest run)
      · trivial

theorem Fit.propagateFrom {n : Nat} (h : e.Fit aside)
    (result : propagateFrom n e = (f, conflict)) : f.Fit aside := by
  have run := propagates result
  clear result
  induction run with
  | spent | idle => exact h
  | next at_head run _ ih =>
    obtain ⟨taken, latest⟩ := h.dequeue at_head
    exact ih (taken.propagateLit latest run)
  | clash at_head run =>
    obtain ⟨taken, latest⟩ := h.dequeue at_head
    have visited := taken.propagateLit latest run
    obtain ⟨sound, apart, -⟩ := skipQueue_sound visited.sound visited.apart
    exact visited.queue sound apart
      ⟨visited.equipped.trail.values, visited.equipped.trail.reasons, visited.equipped.trail.levels⟩
      visited.equipped.deleted

end Engine

end Cdcl
