import Cdcl.Proofs.Compacted
import Cdcl.Proofs.BooksUpkeep

/-!
# The watches of frozen clauses

A frozen clause has one entry in the lists of frozen clauses, under the opposite of one of its
literals, and no other clause in use has any. A visit moves the entries of one list, which is put
back at the end: until then the entries not yet visited stand for that list. A reduction makes all
lists anew, and whatever else is done to clauses leaves them alone.

## Main results

- `FrozenWatched.propagateFrom`, `FrozenWatched.reduce`, `FrozenWatched.compact`: the operations that
  change the lists keep them exact.
- `FrozenKept.watched`: so does an operation that leaves the lists and the frozen clauses alone.
-/

namespace Cdcl

/-- The lists hold one entry of each frozen clause in use, under the opposite of one of its literals,
and none of another clause in use. -/
structure WatchesFrozen (lists : Lit → Array Watcher) (clause : ClauseId → Clause) : Prop where
  once : ∀ id, (clause id).isRemoved = false → (clause id).isFrozen = true →
    ∃ l ∈ (clause id).lits, ∀ p, entriesOf id (lists p) = if p = l.neg then 1 else 0
  only : ∀ id, (clause id).isRemoved = false → (clause id).isFrozen = false →
    ∀ p, entriesOf id (lists p) = 0

namespace WatchesFrozen

variable {lists lists' : Lit → Array Watcher} {clause clause' : ClauseId → Clause} {id : ClauseId}

/-- Entries of clauses not in use come and go freely. -/
theorem congr (h : WatchesFrozen lists clause)
    (same : ∀ id, (clause id).isRemoved = false → ∀ p,
      entriesOf id (lists' p) = entriesOf id (lists p)) : WatchesFrozen lists' clause where
  once := by
    intro id used frozen
    obtain ⟨l, inside, counts⟩ := h.once id used frozen
    exact ⟨l, inside, fun p => (same id used p).trans (counts p)⟩
  only := fun id used thawed p => (same id used p).trans (h.only id used thawed p)

/-- An entry of a frozen clause moves to the list of another of its literals. -/
theorem move (h : WatchesFrozen lists clause) (used : (clause id).isRemoved = false)
    (frozen : (clause id).isFrozen = true) {p : Lit} (there : 0 < entriesOf id (lists p)) {l : Lit}
    (inside : l ∈ (clause id).lits) (ne : l.neg ≠ p)
    (counts : ∀ x q, entriesOf x (lists' q) + (if p = q ∧ id = x then 1 else 0) =
      entriesOf x (lists q) + if l.neg = q ∧ id = x then 1 else 0) :
    WatchesFrozen lists' clause := by
  obtain ⟨k, -, before⟩ := h.once id used frozen
  -- The clause has one entry in all, which is the one that moves.
  have at_p : p = k.neg := by
    by_contra other
    rw [before, if_neg other] at there
    exact Nat.lt_irrefl 0 there
  have others (x : ClauseId) (other : id ≠ x) (q : Lit) :
      entriesOf x (lists' q) = entriesOf x (lists q) := by
    simpa [other] using counts x q
  constructor
  case once =>
    intro x used' frozen'
    by_cases same : id = x
    · subst same
      refine ⟨l, inside, fun q => ?_⟩
      have count := counts id q
      rw [before] at count
      by_cases first : l.neg = q
      · subst first
        rw [if_neg (fun both => ne both.1.symm), if_neg (fun same => ne (same.trans at_p.symm)),
          if_pos ⟨rfl, rfl⟩] at count
        rw [if_pos rfl]
        exact count
      · rw [if_neg fun same => first same.symm]
        by_cases second : p = q
        · subst second
          rw [if_pos ⟨rfl, rfl⟩, if_pos at_p, if_neg fun both => first both.1] at count
          omega
        · rw [if_neg fun both => second both.1, if_neg fun same => second (at_p.trans same.symm),
            if_neg fun both => first both.1] at count
          omega
    · obtain ⟨m, member, old⟩ := h.once x used' frozen'
      exact ⟨m, member, fun q => (others x same q).trans (old q)⟩
  case only =>
    intro x used' thawed q
    have other : id ≠ x := by
      rintro rfl
      exact absurd (frozen.symm.trans thawed) nofun
    rw [others x other]
    exact h.only x used' thawed q

/-- A frozen clause is thawed, and its entry dropped. -/
theorem thaw (h : WatchesFrozen lists clause) (used : (clause id).isRemoved = false)
    (frozen : (clause id).isFrozen = true) {p : Lit} (there : 0 < entriesOf id (lists p))
    (counts : ∀ x q, entriesOf x (lists' q) + (if p = q ∧ id = x then 1 else 0) =
      entriesOf x (lists q))
    (others : ∀ x, x ≠ id → clause' x = clause x) (thawed : (clause' id).isFrozen = false) :
    WatchesFrozen lists' clause' := by
  obtain ⟨k, -, before⟩ := h.once id used frozen
  -- The one entry of the clause is at `p`, and it is the entry that is dropped.
  have at_p : p = k.neg := by
    by_contra other
    rw [before, if_neg other] at there
    exact Nat.lt_irrefl 0 there
  have same (x : ClauseId) (other : id ≠ x) (q : Lit) :
      entriesOf x (lists' q) = entriesOf x (lists q) := by
    simpa [other] using counts x q
  constructor
  case once =>
    intro x used' frozen'
    have other : x ≠ id := by
      rintro rfl
      exact absurd (thawed.symm.trans frozen') nofun
    rw [others x other] at used' frozen' ⊢
    obtain ⟨m, member, old⟩ := h.once x used' frozen'
    exact ⟨m, member, fun q => (same x other.symm q).trans (old q)⟩
  case only =>
    intro x used' thawed' q
    by_cases here : x = id
    · subst here
      have count := counts x q
      rw [before] at count
      by_cases at_q : p = q
      · rw [if_pos ⟨at_q, rfl⟩, if_pos (at_q ▸ at_p)] at count
        omega
      · rw [if_neg fun both => at_q both.1, if_neg fun same => at_q (at_p.trans same.symm)] at count
        omega
    · rw [others x here] at used' thawed'
      rw [same x (Ne.symm here)]
      exact h.only x used' thawed' q

end WatchesFrozen

namespace Engine

variable {F : List (List Lit)} {e f g b : Engine} {id : ClauseId} {aside : List ClauseId} {p : Lit}
  {conflict : Option Conflict}

/-- The lists of frozen clauses are exact, and no entry is of a clause to come. -/
structure FrozenWatched (e : Engine) : Prop where
  exact : WatchesFrozen e.watches.frozen.get e.clause
  inside : ∀ p, ∀ w ∈ e.watches.frozen.get p, w.clause.slot < e.arena.clauses.size

/-! ### Operations on other clauses -/

/-- The lists of frozen clauses are the same, and so are the frozen clauses, but for some that are no
longer in use; clauses that are new are not frozen. -/
structure FrozenKept (e f : Engine) : Prop where
  lists : f.watches.frozen = e.watches.frozen
  slots : e.arena.clauses.size ≤ f.arena.clauses.size
  clauses : ∀ id, (f.clause id).isRemoved = false →
    ((e.clause id).isRemoved = false ∧ (f.clause id).isFrozen = (e.clause id).isFrozen ∧
      ((e.clause id).isFrozen = true → ∀ l ∈ (e.clause id).lits, l ∈ (f.clause id).lits)) ∨
    e.arena.clauses.size ≤ id.slot ∧ (f.clause id).isFrozen = false

namespace FrozenKept

theorem refl (e : Engine) : e.FrozenKept e :=
  ⟨rfl, Nat.le_refl _, fun _ used => .inl ⟨used, rfl, fun _ _ member => member⟩⟩

theorem trans (h : e.FrozenKept f) (k : f.FrozenKept g) : e.FrozenKept g where
  lists := k.lists.trans h.lists
  slots := Nat.le_trans h.slots k.slots
  clauses := by
    intro id used
    rcases k.clauses id used with ⟨before, frozen, lits⟩ | ⟨new, thawed⟩
    · rcases h.clauses id before with ⟨before', frozen', lits'⟩ | ⟨new, thawed⟩
      · refine .inl ⟨before', frozen.trans frozen', fun isFrozen l member => ?_⟩
        exact lits (frozen'.trans isFrozen) l (lits' isFrozen l member)
      · exact .inr ⟨new, frozen.trans thawed⟩
    · exact .inr ⟨Nat.le_trans h.slots new, thawed⟩

theorem watched (h : e.FrozenKept f) (k : e.FrozenWatched) : f.FrozenWatched := by
  have counts (id : ClauseId) (p : Lit) :
      entriesOf id (f.watches.frozen.get p) = entriesOf id (e.watches.frozen.get p) := by
    rw [h.lists]
  have none (id : ClauseId) (new : e.arena.clauses.size ≤ id.slot) (p : Lit) :
      entriesOf id (e.watches.frozen.get p) = 0 := by
    refine Nat.eq_zero_of_not_pos fun some => ?_
    obtain ⟨w, member, rfl⟩ := entriesOf_pos_iff.mp some
    exact Nat.lt_irrefl _ (Nat.lt_of_lt_of_le (k.inside p w member) new)
  constructor
  case exact =>
    constructor
    case once =>
      intro id used frozen
      rcases h.clauses id used with ⟨before, same, lits⟩ | ⟨-, thawed⟩
      · rw [same] at frozen
        obtain ⟨l, member, old⟩ := k.exact.once id before frozen
        exact ⟨l, lits frozen l member, fun p => (counts id p).trans (old p)⟩
      · exact absurd (thawed.symm.trans frozen) nofun
    case only =>
      intro id used thawed p
      rw [counts]
      rcases h.clauses id used with ⟨before, same, -⟩ | ⟨new, -⟩
      · exact k.exact.only id before (same.symm.trans thawed) p
      · exact none id new p
  case inside =>
    intro p w member
    rw [h.lists] at member
    exact Nat.lt_of_lt_of_le (k.inside p w member) h.slots

end FrozenKept

theorem SameBooks.frozenKept (h : e.SameBooks f) : e.FrozenKept f where
  lists := h.frozen
  slots := Nat.le_of_eq h.slots.symm
  clauses := fun id used => .inl ⟨(h.removed id).symm.trans used, (h.kindred id).frozen,
    fun _ _ member => ((h.kindred id).toReordered.mem _).mpr member⟩

theorem Rescored.frozenKept (h : e.Rescored f) : e.FrozenKept f where
  lists := by rw [h.watches]
  slots := Nat.le_of_eq h.slots.symm
  clauses := fun id used => .inl ⟨(h.alike id).removed.symm.trans used, (h.alike id).frozen,
    fun _ _ member => (h.alike id).lits.symm ▸ member⟩

/-! ### Propagation -/

theorem frozenKept_visitWatched {falseLit : Lit} {rest : List Watcher} {kept kept' : Array Watcher}
    (result : visitWatched falseLit rest kept e = (f, kept', conflict)) : e.FrozenKept f := by
  induction rest generalizing kept e with
  | nil =>
    cases result
    exact .refl _
  | cons entry rest ih =>
    have oriented := (sameBooks_orient e entry.clause falseLit).frozenKept
    unfold visitWatched at result
    split at result
    · exact ih result
    · dsimp only at result
      split at result
      · exact oriented.trans (ih result)
      · refine (oriented.trans ?_).trans (ih result)
        exact ((SameBooks.modifyClause _ entry.clause fun c => c.kindred_swap 1 _).trans
          (.modifyWatches _ _ rfl rfl)).frozenKept
      next first _ =>
        split at result
        · cases result
          exact oriented
        · refine (oriented.trans ?_).trans (ih result)
          have assigned := (sameBooks_assign (e.modifyClause entry.clause (orient falseLit)) first
            (.clause entry.clause)).frozenKept
          split
          · exact assigned.trans (rescored_refreshLbd _ entry.clause).frozenKept
          · exact assigned

theorem frozenKept_propagateWatched (result : e.propagateWatched p = (f, conflict)) :
    e.FrozenKept f := by
  have cleaned := Watches.cleanIfDirty_cleaned e.watches e.arena p
  have swept : e.SameBooks (e.modifyWatches (·.cleanIfDirty e.arena p)) :=
    .modifyWatches e _ cleaned.binary cleaned.frozen
  obtain ⟨k, kept, run, rfl⟩ := propagateWatched_eq result
  have relisted : k.SameBooks (k.modifyWatches (·.setLong p kept)) := .modifyWatches k _ rfl rfl
  exact (swept.frozenKept.trans (frozenKept_visitWatched run)).trans relisted.frozenKept

/-- The lists of frozen clauses, with other entries in that of `p`. -/
def frozenLists (e : Engine) (p : Lit) (entries : List Watcher) (q : Lit) : Array Watcher :=
  if p = q then entries.toArray else e.watches.frozen.get q

theorem entriesOf_frozenLists (e : Engine) (p : Lit) (entry : Watcher) (rest : List Watcher)
    (x : ClauseId) (q : Lit) :
    entriesOf x (e.frozenLists p rest q) + (if p = q ∧ entry.clause = x then 1 else 0) =
      entriesOf x (e.frozenLists p (entry :: rest) q) := by
  unfold frozenLists
  by_cases here : p = q
  · rw [if_pos here, if_pos here, entriesOf_cons, Nat.add_comm]
    simp [here]
  · rw [if_neg here, if_neg here, if_neg fun both => here both.1]
    rfl

theorem mem_frozenLists_cons {entry w : Watcher} {rest : List Watcher} {q : Lit}
    (member : w ∈ e.frozenLists p rest q) : w ∈ e.frozenLists p (entry :: rest) q := by
  unfold frozenLists at member ⊢
  split at member
  next here =>
    rw [if_pos here]
    simp only [List.mem_toArray] at member ⊢
    exact List.mem_cons_of_mem entry member
  next elsewhere =>
    rw [if_neg elsewhere]
    exact member

theorem frozenLists_push {key : Lit} (ne : key ≠ p) (w : Watcher) (entries : List Watcher) (q : Lit) :
    (e.modifyWatches (·.pushFrozen key w)).frozenLists p entries q =
      if key = q then (e.frozenLists p entries q).push w else e.frozenLists p entries q := by
  unfold frozenLists
  change (if p = q then _ else (e.watches.frozen.modify key (·.push w)).get q) = _
  rw [DenseMap.get_modify]
  by_cases here : p = q
  · rw [if_pos here, if_neg fun same => ne (same.trans here.symm), if_pos here]
  · rw [if_neg here, if_neg here]

theorem frozenLists_move {entry : Watcher} {l : Lit} (ne : l.neg ≠ p) (blocker : Lit)
    (rest : List Watcher) (x : ClauseId) (q : Lit) :
    entriesOf x ((e.modifyWatches (·.pushFrozen l.neg ⟨entry.clause, blocker⟩)).frozenLists p rest q) +
        (if p = q ∧ entry.clause = x then 1 else 0) =
      entriesOf x (e.frozenLists p (entry :: rest) q) +
        if l.neg = q ∧ entry.clause = x then 1 else 0 := by
  rw [frozenLists_push ne, ← entriesOf_frozenLists]
  by_cases there : l.neg = q
  · rw [if_pos there, entriesOf_push]
    simp only [there, true_and]
    omega
  · simp only [there, false_and, if_false, Nat.add_zero]

/-- In the course of visiting the frozen clauses of `p`, with these entries left. -/
structure VisitingFrozen (p : Lit) (entries : List Watcher) (e : Engine) : Prop where
  exact : WatchesFrozen (e.frozenLists p entries) e.clause
  inside : ∀ q, ∀ w ∈ e.frozenLists p entries q, w.clause.slot < e.arena.clauses.size

theorem VisitingFrozen.drop {entry : Watcher} {rest : List Watcher}
    (h : VisitingFrozen p (entry :: rest) e) (stale : Watches.isFrozenStale e.arena entry = true) :
    VisitingFrozen p rest e where
  exact := by
    refine h.exact.congr fun x used q => ?_
    have counts := e.entriesOf_frozenLists p entry rest x q
    by_cases here : p = q ∧ entry.clause = x
    · obtain ⟨rfl, rfl⟩ := here
      have thawed : (e.clause entry.clause).isFrozen = false := by
        rw [Watches.isFrozenStale, show e.arena.get entry.clause = e.clause entry.clause from rfl] at stale
        simpa [used] using stale
      have none := h.exact.only entry.clause used thawed p
      rw [none] at counts
      rw [none]
      omega
    · rw [if_neg here] at counts
      exact counts
  inside := fun q w member => h.inside q w (mem_frozenLists_cons member)

theorem VisitingFrozen.there {entry : Watcher} {rest : List Watcher} (e : Engine) :
    0 < entriesOf entry.clause (e.frozenLists p (entry :: rest) p) := by
  have counts := e.entriesOf_frozenLists p entry rest entry.clause p
  rw [if_pos ⟨rfl, rfl⟩] at counts
  omega

theorem VisitingFrozen.move {entry : Watcher} {rest : List Watcher}
    (h : VisitingFrozen p (entry :: rest) e) (fresh : Watches.isFrozenStale e.arena entry = false)
    {l : Lit} (inside : l ∈ (e.clause entry.clause).lits) (ne : l.neg ≠ p) (blocker : Lit) :
    VisitingFrozen p rest (e.modifyWatches (·.pushFrozen l.neg ⟨entry.clause, blocker⟩)) where
  exact := by
    have flags : (e.clause entry.clause).isRemoved = false ∧ (e.clause entry.clause).isFrozen = true := by
      simpa [Watches.isFrozenStale, clause] using fresh
    exact h.exact.move flags.1 flags.2 (VisitingFrozen.there e) inside ne
      (frozenLists_move ne blocker rest)
  inside := by
    have here := h.inside p entry (by simp [frozenLists])
    have old {q : Lit} {w : Watcher} (member : w ∈ e.frozenLists p rest q) :
        w.clause.slot < e.arena.clauses.size := h.inside q w (mem_frozenLists_cons member)
    intro q w member
    rw [frozenLists_push ne] at member
    split at member
    · rcases Array.mem_push.mp member with member | rfl
      · exact old member
      · exact here
    · exact old member

theorem isFrozen_thawFalsified (used : (e.clause id).isRemoved = false) :
    ((e.thawFalsified id).clause id).isFrozen = false := by
  rw [clause, (e.fields_thawFalsified id).1, ClauseArena.get_modify _ _ _ _ (slot_lt used), if_pos rfl]
  exact isFrozen_thawedByConflict _ _

theorem VisitingFrozen.visit {entries left : List Watcher} (h : VisitingFrozen p entries e)
    (fails : e.trail.isFalse p.neg = true)
    (watch : ∀ w ∈ entries, (e.clause w.clause).isRemoved = false →
      (e.clause w.clause).isFrozen = true → w.blocker ∈ (e.clause w.clause).lits)
    (result : visitFrozen p.neg entries e = (f, left, conflict)) : VisitingFrozen p left f := by
  induction entries generalizing e with
  | nil =>
    cases result
    exact h
  | cons entry rest ih =>
    have others : ∀ w ∈ rest, (e.clause w.clause).isRemoved = false →
        (e.clause w.clause).isFrozen = true → w.blocker ∈ (e.clause w.clause).lits :=
      fun w member => watch w (List.mem_cons_of_mem entry member)
    unfold visitFrozen at result
    dsimp only at result
    split at result
    next stale => exact ih (h.drop stale) fails others result
    next fresh =>
      have fresh : Watches.isFrozenStale e.arena entry = false := by simpa using fresh
      have flags : (e.clause entry.clause).isRemoved = false ∧
          (e.clause entry.clause).isFrozen = true := by
        simpa [Watches.isFrozenStale, clause] using fresh
      split at result
      next open_ =>
        have ne : entry.blocker ≠ p.neg := by
          simp only [Bool.and_eq_true, bne_iff_ne] at open_
          exact open_.1
        refine ih (h.move fresh (watch entry List.mem_cons_self flags.1 flags.2) ?_ p.neg) fails others
          result
        exact fun same => ne (by rw [← same, Lit.neg_neg])
      next =>
        split at result
        next l found =>
          have usable := Array.find?_some found
          refine ih (h.move fresh (Array.mem_of_find?_eq_some found) ?_ p.neg) fails others result
          rintro rfl
          rw [Lit.neg_neg] at fails
          simp [fails] at usable
        next =>
          cases result
          -- All literals are false: the clause is thawed, and watched as the others are.
          obtain ⟨arena, -, -, -, lists, -⟩ := e.fields_thawFalsified entry.clause
          have same (q : Lit) (ws : List Watcher) :
              (e.thawFalsified entry.clause).frozenLists p ws q = e.frozenLists p ws q := by
            rw [frozenLists, frozenLists, lists]
          refine ⟨h.exact.thaw flags.1 flags.2 (VisitingFrozen.there e) (fun x q => ?_)
            (fun x ne => clause_thawFalsified flags.1 (Ne.symm ne)) (isFrozen_thawFalsified flags.1),
            fun q w member => ?_⟩
          · rw [same]
            exact e.entriesOf_frozenLists p entry _ x q
          · rw [same] at member
            rw [arena]
            simpa [ClauseArena.modify] using h.inside q w (mem_frozenLists_cons member)

theorem FrozenWatched.propagateFrozen (h : e.FrozenWatched) (apart : e.FrozenApart)
    (fails : e.trail.isFalse p.neg = true) (result : e.propagateFrozen p = (f, conflict)) :
    f.FrozenWatched := by
  cases propagateFrozen_visits result with
  | none => exact h
  | @some g left _ run =>
    have lists : e.frozenLists p (e.watches.frozen.get p).toList = e.watches.frozen.get := by
      funext q
      unfold frozenLists
      split
      next here => rw [here]
      next => rfl
    have start : VisitingFrozen p (e.watches.frozen.get p).toList e :=
      ⟨by rw [lists]; exact h.exact, fun q w member => h.inside q w (by rwa [lists] at member)⟩
    have done := start.visit fails
      (fun w member used frozen => (apart.entries p w (by simpa using member) used frozen).2) run
    have back : (g.modifyWatches (·.setFrozen p left.toArray)).watches.frozen.get =
        g.frozenLists p left := by
      funext q
      exact DenseMap.get_insert g.watches.frozen p q left.toArray
    exact ⟨by rw [back]; exact done.exact, fun q w member => done.inside q w (by rwa [back] at member)⟩

/-- Once the other clauses are visited, entries of frozen clauses may be told apart. -/
theorem FrozenWatched.propagateLit (w : e.FrozenWatched)
    (ready : ∀ {g k : Engine}, visitBinary p.neg (e.watches.binary.get p).toList e = (g, none) →
      g.propagateWatched p = (k, none) → k.FrozenApart ∧ k.trail.isFalse p.neg = true)
    (result : e.propagateLit p = (f, conflict)) : f.FrozenWatched := by
  cases propagateLit_cases result with
  | binary first => exact (sameBooks_visitBinary first).frozenKept.watched w
  | watched first second =>
    have kept := (sameBooks_visitBinary first).frozenKept.trans (frozenKept_propagateWatched second)
    exact kept.watched w
  | frozen first second third =>
    have kept := (sameBooks_visitBinary first).frozenKept.trans (frozenKept_propagateWatched second)
    obtain ⟨apart, fails⟩ := ready first second
    exact (kept.watched w).propagateFrozen apart fails third

theorem Sound.frozenWatched_propagateLit (h : e.Sound aside) (apart : e.FrozenApart) (latest : e.trail.Latest p)
    (w : e.FrozenWatched) (result : e.propagateLit p = (f, conflict)) : f.FrozenWatched := by
  refine w.propagateLit (fun binary visited => ?_) result
  obtain ⟨sound, apart', grown, -⟩ :=
    visitBinary_sound h apart latest (fun q inside => Array.mem_toList_iff.mp inside) binary
  have latest' := grown.latest h.trail sound.trail latest
  obtain ⟨sound', apart'', grown', -⟩ := propagateWatched_sound sound apart' latest' visited
  refine ⟨apart'', ?_⟩
  rw [Trail.isFalse_neg]
  exact (sound'.trail.isTrue_iff p).mpr (grown'.latest sound.trail sound'.trail latest').mem

/-- Propagation keeps the lists of frozen clauses exact. -/
theorem FrozenWatched.propagateFrom {n : Nat} (w : e.FrozenWatched) (h : e.Sound aside)
    (apart : e.FrozenApart) (result : Engine.propagateFrom n e = (f, conflict)) : f.FrozenWatched :=
  propagateFrom_keeps (P := FrozenWatched) h apart
    (fun x head stats kept =>
      (show x.SameBooks { x with trail := { x.trail with head }, stats } from
        .others x).frozenKept.watched kept)
    (fun sound apart latest kept run => sound.frozenWatched_propagateLit apart latest kept run) w result

/-! ### Watching anew -/

/-- The literal on which a frozen clause is watched. -/
def frozenKey (e : Engine) (id : ClauseId) : Lit :=
  (e.clause id).lit ((e.trail.findNonFalse (e.clause id).lits 0 (e.clause id).size).getD 0)

theorem frozenKey_mem (size : 0 < (e.clause id).size) : e.frozenKey id ∈ (e.clause id).lits := by
  unfold frozenKey
  cases found : e.trail.findNonFalse (e.clause id).lits 0 (e.clause id).size with
  | none => exact Clause.lit_mem size
  | some k =>
    obtain ⟨-, high, -⟩ := Trail.findNonFalse_eq_some found
    rw [Nat.zero_add] at high
    exact Clause.lit_mem high

theorem entriesOf_watchFrozen (e : Engine) (id x : ClauseId) (p : Lit) :
    entriesOf x ((e.watchFrozen id).watches.frozen.get p) = entriesOf x (e.watches.frozen.get p) +
      if x = id ∧ (e.clause id).isFrozen = true ∧ p = (e.frozenKey id).neg then 1 else 0 := by
  unfold watchFrozen frozenKey
  dsimp only
  split
  next frozen =>
    dsimp only [modifyWatches, Watches.pushFrozen]
    rw [DenseMap.get_modify]
    split
    next here =>
      rw [entriesOf_push]
      simp only [frozen, here, and_true, eq_comm]
    next elsewhere =>
      rw [if_neg fun all => elsewhere all.2.2.symm]
      rfl
  next thawed =>
    rw [if_neg fun all => thawed all.2.1]
    rfl

/-- Watching some clauses anew gives an entry to each of them that is frozen. -/
theorem entriesOf_watchFrozens (ids : List ClauseId) (distinct : ids.Nodup) (e : Engine) (x : ClauseId)
    (p : Lit) : entriesOf x ((ids.foldl watchFrozen e).watches.frozen.get p) =
      entriesOf x (e.watches.frozen.get p) +
        if x ∈ ids ∧ (e.clause x).isFrozen = true ∧ p = (e.frozenKey x).neg then 1 else 0 := by
  induction ids generalizing e with
  | nil => simp
  | cons id ids ih =>
    obtain ⟨fresh, distinct⟩ := List.nodup_cons.mp distinct
    obtain ⟨frozen, same⟩ := e.watchFrozen_eq id
    have clause (x : ClauseId) : (e.watchFrozen id).clause x = e.clause x := by
      rw [same]
      rfl
    have key (x : ClauseId) : (e.watchFrozen id).frozenKey x = e.frozenKey x := by
      rw [same]
      rfl
    rw [List.foldl_cons, ih distinct, clause, key, entriesOf_watchFrozen, Nat.add_assoc]
    congr 1
    by_cases here : x = id
    · subst here
      simp [fresh]
    · simp [here]

theorem rewatchFrozen_eq (e : Engine) : ∃ frozen,
    e.rewatchFrozen = { e with watches := { e.watches with frozen } } ∧
      frozen.fallback = e.watches.frozen.fallback := by
  unfold rewatchFrozen
  rw [← Array.foldl_toList]
  generalize e.learnts.toList = ids
  suffices all : ∀ g : Engine, ∃ frozen,
      ids.foldl watchFrozen g = { g with watches := { g.watches with frozen } } ∧
        frozen.fallback = g.watches.frozen.fallback by
    obtain ⟨frozen, same, fallback⟩ := all (e.modifyWatches Watches.clearFrozen)
    exact ⟨frozen, same, fallback⟩
  induction ids with
  | nil => exact fun g => ⟨_, rfl, rfl⟩
  | cons id ids ih =>
    intro g
    obtain ⟨frozen, same, fallback⟩ := ih (g.watchFrozen id)
    refine ⟨frozen, ?_, fallback.trans ?_⟩
    · obtain ⟨first, pushed⟩ := g.watchFrozen_eq id
      rw [List.foldl_cons, same, pushed]
    · unfold watchFrozen
      dsimp only
      split
      · exact DenseMap.fallback_modify _ _ _
      · rfl

theorem entriesOf_rewatchFrozen (blank : e.watches.frozen.fallback = #[])
    (distinct : e.learnts.toList.Nodup)
    (x : ClauseId) (p : Lit) : entriesOf x (e.rewatchFrozen.watches.frozen.get p) =
      if x ∈ e.learnts.toList ∧ (e.clause x).isFrozen = true ∧ p = (e.frozenKey x).neg then 1 else 0 := by
  unfold rewatchFrozen
  rw [← Array.foldl_toList, entriesOf_watchFrozens _ distinct]
  have cleared : (e.modifyWatches Watches.clearFrozen).watches.frozen.get p = #[] :=
    DenseMap.get_mapValues e.watches.frozen blank.symm p
  rw [cleared, entriesOf_empty, Nat.zero_add]
  rfl

/-- Once the frozen clauses are watched anew, their lists are exact. -/
theorem FrozenWatched.rewatchFrozen {os : List ClauseId} {learnts : Array ClauseId}
    (blank : e.rewatchFrozen.watches.frozen.fallback = #[])
    (filed : e.rewatchFrozen.Filed os learnts.toList) (listed : e.rewatchFrozen.learnts = learnts)
    (proper : ∀ id, (e.rewatchFrozen.clause id).isRemoved = false →
      0 < (e.rewatchFrozen.clause id).size) : e.rewatchFrozen.FrozenWatched := by
  obtain ⟨frozen, same, fallback⟩ := e.rewatchFrozen_eq
  have clause (x : ClauseId) : e.rewatchFrozen.clause x = e.clause x := by
    rw [same]
    rfl
  have learnts' : e.learnts = learnts := by
    rw [← listed, same]
  -- The lists are made anew: each frozen learnt clause has one entry, at its key.
  have counts := entriesOf_rewatchFrozen (e := e) (by rw [← fallback, ← blank, same])
    (learnts' ▸ filed.learnts_nodup)
  rw [learnts'] at counts
  constructor
  case exact =>
    constructor
    case once =>
      intro id used isFrozen
      have listed : id ∈ learnts.toList :=
        (filed.learnt id).mpr ⟨used, Clause.isLearnt_of_isFrozen isFrozen⟩
      have member := frozenKey_mem (e := e) (clause id ▸ proper id used)
      rw [clause] at isFrozen
      refine ⟨e.frozenKey id, clause id ▸ member, fun p => ?_⟩
      rw [counts]
      simp [listed, isFrozen]
    case only =>
      intro id used thawed p
      rw [clause] at thawed
      rw [counts, if_neg fun all => by rw [thawed] at all; exact absurd all.2.1 nofun]
  case inside =>
    intro p w member
    have some : 0 < entriesOf w.clause (e.rewatchFrozen.watches.frozen.get p) :=
      entriesOf_pos_iff.mpr ⟨w, member, rfl⟩
    rw [counts] at some
    split at some
    next all => exact slot_lt ((filed.learnt w.clause).mp all.1).1
    next => cases some

/-- A reduction makes the lists of frozen clauses anew. -/
theorem FrozenWatched.reduce (shelved : e.Shelved) (settled : e.Settled F) (zero : e.trail.level = 0) :
    e.reduce.FrozenWatched := by
  have shelved' := shelved.reduce settled zero
  obtain ⟨⟨⟨pairs, faithful⟩, -⟩, -⟩ := settled.reduce zero
  have sound := faithful.sound
  rw [reduce_eq] at shelved' sound ⊢
  generalize e.awakened = g at *
  have watched : g.rewatchFrozen.FrozenWatched := by
    refine FrozenWatched.rewatchFrozen sound.blank.frozen
      (shelved'.booked.filed.arena rfl) rfl fun id used => ?_
    have size := (sound.proper id used).size
    exact Nat.lt_of_lt_of_le (by decide) size
  exact ⟨watched.exact, watched.inside⟩

/-! ### Other operations -/

/-- Whatever is done to a clause that is not frozen and stays so, or is removed. -/
theorem frozenKept_change (change : Clause → Clause)
    (lists : f.watches.frozen = e.watches.frozen)
    (clauses : f.arena.clauses = (e.arena.modify id change).clauses)
    (harmless : (change (e.clause id)).isRemoved = true ∨
      (e.clause id).isRemoved = (change (e.clause id)).isRemoved ∧
      (e.clause id).isFrozen = false ∧ (change (e.clause id)).isFrozen = false) : e.FrozenKept f where
  lists := lists
  slots := by simp [clauses, ClauseArena.modify]
  clauses := by
    intro x used
    have get : f.clause x = (e.modifyClause id change).clause x := by
      simp only [clause, ClauseArena.get_eq, modifyClause, clauses]
    rw [get] at used ⊢
    rcases e.clause_modifyClause_or id change x with same | ⟨rfl, same⟩
    · rw [same] at used ⊢
      exact .inl ⟨used, rfl, fun _ _ member => member⟩
    · rw [same] at used ⊢
      rcases harmless with removed | ⟨removed, thawed, thawed'⟩
      · exact absurd removed (Bool.eq_false_iff.mp used)
      · exact .inl ⟨removed.trans used, thawed'.trans thawed.symm,
          fun frozen => absurd frozen (Bool.eq_false_iff.mp thawed)⟩

theorem frozenKept_removeClause (e : Engine) (id : ClauseId) : e.FrozenKept (e.removeClause id) :=
  frozenKept_change Clause.remove (e.lists_removeClause id).2.1
    (by rw [(e.fields_removeClause id).1]; rfl) (.inl rfl)

theorem frozenKept_addBinary (e : Engine) (a b : Lit) (learnt : Bool) :
    e.FrozenKept (e.addBinary a b learnt) := by
  obtain ⟨arena, -, watches, -⟩ := e.fields_addBinary a b learnt
  have clause (x : ClauseId) : (e.addBinary a b learnt).clause x = e.clause x := by
    rw [Engine.clause, arena]
    rfl
  refine ⟨by rw [watches]; rfl, Nat.le_of_eq (by rw [arena]), fun x used => ?_⟩
  rw [clause] at used ⊢
  exact .inl ⟨used, rfl, fun _ _ member => member⟩

theorem frozenKept_store {arena : ClauseArena} {c : Clause} (adds : e.arena.Adds id c arena)
    (lists : f.watches.frozen = e.watches.frozen) (stored : f.arena = arena)
    (thawed : c.isFrozen = false) : e.FrozenKept f where
  lists := lists
  slots := by rw [stored, adds.size]; exact Nat.le_succ _
  clauses := by
    intro x used
    have get : f.clause x = if x = id then c else e.clause x := by
      rw [clause, stored]
      exact adds.get x
    rw [get] at used ⊢
    split
    next same =>
      subst same
      exact .inr ⟨Nat.le_of_eq adds.fresh.symm, thawed⟩
    next other =>
      rw [if_neg other] at used
      exact .inl ⟨used, rfl, fun _ _ member => member⟩

theorem frozenKept_storeOriginal {lits : Array Lit} (result : e.storeOriginal lits = .ok f) :
    e.FrozenKept f := by
  obtain ⟨id, arena, stored, rfl⟩ := storeOriginal_eq result
  exact frozenKept_store (ClauseArena.adds_alloc stored) rfl rfl rfl

theorem frozenKept_storeLearnt {lits : Array Lit} {lbd : Nat}
    (result : e.storeLearnt lits lbd = .ok (id, f)) : e.FrozenKept f := by
  obtain ⟨arena, stored, rfl⟩ := storeLearnt_eq result
  refine FrozenKept.trans ?_ (sameBooks_bumpClause _ _).frozenKept
  exact frozenKept_store ((ClauseArena.adds_alloc stored).modify (·.setLbd lbd)) rfl rfl rfl

theorem frozenKept_addLearnt {c : Learnt} (result : e.addLearnt c = .ok f) : e.FrozenKept f := by
  cases addLearnt_cases result with
  | empty => exact .refl _
  | unit => exact (sameBooks_assign _ _ _).frozenKept
  | pair => exact (frozenKept_addBinary e _ _ true).trans (sameBooks_assign _ _ _).frozenKept
  | stored _ stored => exact (frozenKept_storeLearnt stored).trans (sameBooks_assign _ _ _).frozenKept

theorem frozenKept_handleConflict {c : Conflict} {handled : Handled}
    (result : e.handleConflict c = .ok (handled, f)) : e.FrozenKept f := by
  cases handleConflict_cases result with
  | full analyzed => exact (sameBooks_back analyzed).frozenKept
  | learnt analyzed added =>
    have back := (sameBooks_back analyzed).frozenKept
    exact (back.trans (frozenKept_addLearnt added)).trans (sameBooks_noted _ _ _).frozenKept

theorem frozenKept_simplifyClause {outcome : Simplified} (result : e.simplifyClause id = (outcome, f)) :
    e.FrozenKept f := by
  cases simplifyClause_cases result with
  | satisfied => exact frozenKept_removeClause e id
  | frozen | whole => exact .refl _
  | pair => exact (frozenKept_removeClause e id).trans (frozenKept_addBinary _ _ _ _)
  | shorter _ thawed => exact frozenKept_change (·.setLits _) rfl rfl (.inr ⟨rfl, thawed, thawed⟩)

/-- The lists of clauses are of no account to the frozen ones. -/
theorem frozenKept_relist (e : Engine) (originals learnts : Array ClauseId) (recentLearnts : Nat) :
    e.FrozenKept { e with originals, learnts, recentLearnts } :=
  ⟨rfl, Nat.le_refl _, fun _ used => .inl ⟨used, rfl, fun _ _ member => member⟩⟩

theorem SimplifyEffects.frozenKept (effects : SimplifyEffects e f) : e.FrozenKept f := by
  induction effects with
  | refl => exact .refl e
  | tail _ effect ih =>
    refine ih.trans ?_
    cases effect with
    | clause => exact frozenKept_simplifyClause rfl
    | relist originals learnts recentLearnts stats =>
      exact (frozenKept_relist _ originals learnts recentLearnts).trans (sameBooks_stats _ stats).frozenKept

/-! ### Vivification -/

theorem FrozenWatched.addFact {l : Lit} (w : e.FrozenWatched)
    (h : (e.assign l .decision).Sound aside) (apart : (e.assign l .decision).FrozenApart) :
    (e.addFact l).FrozenWatched := by
  have assigned := (sameBooks_assign e l .decision).frozenKept.watched w
  unfold Engine.addFact
  rcases run : (e.assign l .decision).propagate with ⟨f, _ | c⟩
  all_goals have kept := assigned.propagateFrom h apart run
  · exact kept
  · exact (show f.SameBooks { f with ok := false } from .others f).frozenKept.watched kept

variable {before after learnts : List ClauseId} {lits : Array Lit} {pairs : List (Lit × Lit)}

theorem FrozenWatched.probeClause (w : e.FrozenWatched)
    (h : e.Faithful F { originals := before ++ id :: after, learnts, pairs } e.trail.head)
    (zero : e.trail.level = 0) (propagated : e.trail.head = e.trail.lits.size)
    (result : e.probeClause id = (lits, f)) : f.FrozenWatched := by
  obtain ⟨g, watched, -, rfl⟩ := h.exists_probed (P := FrozenWatched) zero propagated
    ((sameBooks_detachNow e id).frozenKept.watched w)
    (fun x q kept => (sameBooks_decide x q).frozenKept.watched kept)
    (fun sound apart kept propagates => kept.propagateFrom sound apart propagates) result
  exact (sameBooks_cancelTo g 0).frozenKept.watched watched

/-- The lists of frozen clauses after an original clause is vivified. -/
theorem VivifiedTo.frozenWatched (h : e.Upkept F (before ++ id :: after) learnts b) {stays : Bool}
    (result : VivifiedTo F before after learnts e id stays f) (w : e.FrozenWatched) :
    f.FrozenWatched := by
  obtain ⟨pairs, faithful⟩ := h.faithful
  have probed {pairs : List (Lit × Lit)} {lits : Array Lit} {g : Engine} (stats : Statistics)
      (tried : Tried F before after learnts pairs e id lits g) :
      ({ g with stats } : Engine).FrozenWatched :=
    (sameBooks_stats g stats).frozenKept.watched
      (w.probeClause faithful h.zero h.propagated tried.probed)
  cases result with
  | idle => exact w
  | satisfied satisfied stats =>
    exact ((frozenKept_removeClause e id).trans (sameBooks_stats _ stats).frozenKept).watched w
  | @fact _ _ g l stats tried list =>
    have assigned := (tried.shorter.stats stats).assigned list
    exact ((frozenKept_removeClause _ id).watched (probed stats tried)).addFact assigned.sound
      assigned.apart
  | @pair _ _ g a b stats tried list =>
    exact ((frozenKept_removeClause _ id).trans (frozenKept_addBinary _ a b false)).watched
      (probed stats tried)
  | @shorter _ lits g stats tried size fewer =>
    have shorter := tried.shorter
    have thawed : (g.clause id).isFrozen = false :=
      isFrozen_of_isAttached (shorter.faithful.sound.tracked.usable id List.mem_cons_self)
    have replaced : ({ g with stats } : Engine).FrozenKept (({ g with stats } : Engine).replaceLits id lits) :=
      frozenKept_change (·.setLits lits) rfl rfl (.inr ⟨rfl, thawed, thawed⟩)
    exact (replaced.trans (sameBooks_attach _ id).frozenKept).watched (probed stats tried)
  | @unchanged _ _ g tried size =>
    exact (sameBooks_attach g id).frozenKept.watched (probed g.stats tried)

/-- A vivification keeps the lists of frozen clauses exact. -/
theorem FrozenWatched.vivifyAll (w : e.FrozenWatched) (quiet : e.Quiet F) (minSize : Nat) :
    (e.vivifyAll minSize).FrozenWatched := by
  obtain ⟨kept, g, vivified, done⟩ := quiet.vivifyAll_keeps (P := fun _ x => x.FrozenWatched) minSize
    (fun upkept watched vivified => vivified.frozenWatched upkept watched) w
  rw [vivified]
  exact (frozenKept_relist g kept g.learnts g.recentLearnts).watched done

/-! ### New variables and compaction -/

/-- A new literal brings an empty list, whatever it was watched for before. -/
theorem FrozenWatched.grown (w : e.FrozenWatched) (h : e.Sound aside) (polarity : Bool) :
    (e.grown polarity).FrozenWatched := by
  have lists (p : Lit) : (e.grown polarity).watches.frozen.get p =
      if p.var = ⟨e.numVars⟩ then #[] else e.watches.frozen.get p := by
    simp only [Engine.grown, Watches.frozen_addLit]
    obtain ⟨v, s⟩ := p
    by_cases new : v = ⟨e.numVars⟩
    · subst new
      cases s <;> simp
    · have negative : (⟨⟨e.numVars⟩, false⟩ : Lit) ≠ ⟨v, s⟩ := fun same => new (congrArg Lit.var same).symm
      have positive : (⟨⟨e.numVars⟩, true⟩ : Lit) ≠ ⟨v, s⟩ := fun same => new (congrArg Lit.var same).symm
      rw [if_neg positive, if_neg negative, if_neg new]
  refine ⟨w.exact.congr fun id used p => ?_, fun p x member => ?_⟩
  · rw [lists]
    split
    next new =>
      rw [entriesOf_empty]
      cases frozen : (e.clause id).isFrozen with
      | false => exact (w.exact.only id used frozen p).symm
      | true =>
        obtain ⟨l, inside, counts⟩ := w.exact.once id used frozen
        rw [counts, if_neg]
        rintro rfl
        have bound := (h.proper id used).bounded l inside
        rw [show l.var = ⟨e.numVars⟩ from new] at bound
        exact Nat.lt_irrefl _ bound
    next => rfl
  · rw [lists] at member
    split at member
    · exact absurd member (Array.not_mem_empty _)
    · exact w.inside p x member

section Compaction

open ClauseArena

/-- Compaction drops the entries of other clauses, and renames the rest. -/
theorem FrozenWatched.compact (w : e.FrozenWatched) (h : e.Sound aside) (lists : e.ListsUsed)
    (result : e.compact = .ok f) : f.FrozenWatched := by
  obtain ⟨ids, arena, reasons, moved, held, -, rfl⟩ := h.compact_eq lists result
  have entries (p : Lit) : (e.swept.watches.rename (newId ids)).frozen.get p =
      (e.swept.watches.frozen.get p).map (Watches.renameEntry (newId ids)) :=
    Watches.frozen_rename h.blank_swept p
  -- Renaming keeps the entries of each clause apart from those of others.
  have counts (id : ClauseId) (p : Lit) :
      entriesOf (newId ids id) ((e.swept.watches.rename (newId ids)).frozen.get p) =
        entriesOf id (e.swept.watches.frozen.get p) := by
    rw [entries]
    exact Watches.entriesOf_renamed (held.frozen p)
  constructor
  case exact =>
    constructor
    case once =>
      intro x used frozen
      obtain ⟨id, kept, rfl⟩ := moved.onto used
      have before := moved.used id kept
      have same : arena.get (newId ids id) = e.clause id := moved.get kept
      change (arena.get (newId ids id)).isFrozen = true at frozen
      rw [same] at frozen
      obtain ⟨l, inside, old⟩ := w.exact.once id before frozen
      refine ⟨l, show l ∈ (arena.get (newId ids id)).lits from same.symm ▸ inside, fun p => ?_⟩
      refine (counts id p).trans ((Eq.trans ?_) (old p))
      rw [h.frozen_swept]
      unfold entriesOf
      rw [Array.toList_filter, List.countP_filter]
      -- Sweeping drops no entry of a clause that is frozen and in use.
      refine List.countP_congr fun x _ => ?_
      simp only [beq_iff_eq, Bool.and_eq_true, and_iff_left_iff_imp]
      rintro rfl
      have frozen : (e.arena.get x.clause).isFrozen = true := frozen
      simp [Watches.isFrozenStale, before, frozen]
    case only =>
      intro x used thawed p
      obtain ⟨id, kept, rfl⟩ := moved.onto used
      have same : arena.get (newId ids id) = e.clause id := moved.get kept
      change (arena.get (newId ids id)).isFrozen = false at thawed
      rw [same] at thawed
      refine (counts id p).trans (Nat.eq_zero_of_not_pos fun some => ?_)
      obtain ⟨x, member, rfl⟩ := entriesOf_pos_iff.mp some
      exact absurd (h.dormant_swept member).2.2 (Bool.eq_false_iff.mp thawed)
  case inside =>
    intro p x member
    change x ∈ (e.swept.watches.rename (newId ids)).frozen.get p at member
    rw [entries] at member
    obtain ⟨y, kept, rfl⟩ := Array.mem_map.mp member
    exact slot_lt_of_used (moved.used_get (held.frozen p y kept))

end Compaction

end Engine

end Cdcl
