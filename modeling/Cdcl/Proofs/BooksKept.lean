import Cdcl.Proofs.BookEntries
import Cdcl.Proofs.Learning

/-!
# The books through a search

Propagation, conflict analysis and learning keep the books of an engine in order.

## Main results

- `booksKept_propagateFrom`, `sameBooks_analyze`: propagation and analysis file nothing anew.
- `Shelved.handleConflict`: what is learnt is filed as the last learnt clause.
-/

namespace Cdcl

namespace Engine

variable {e f g : Engine} {id : ClauseId} {os ks : List ClauseId} {conflict : Option Conflict}
  {aside : List ClauseId} {p : Lit}

/-- The lists of clauses are not touched. -/
structure SameLists (e f : Engine) : Prop where
  originals : f.originals = e.originals
  learnts : f.learnts = e.learnts
  recentLearnts : f.recentLearnts = e.recentLearnts

theorem SameLists.refl (e : Engine) : e.SameLists e := ⟨rfl, rfl, rfl⟩

theorem SameLists.trans (h : e.SameLists f) (k : f.SameLists g) : e.SameLists g :=
  ⟨k.originals.trans h.originals, k.learnts.trans h.learnts,
    k.recentLearnts.trans h.recentLearnts⟩

/-- Books that are in order stay so, and the lists of clauses are not touched. -/
structure BooksKept (e f : Engine) : Prop extends e.SameLists f where
  booked : ∀ {os ks : List ClauseId}, e.Booked os ks → f.Booked os ks

theorem BooksKept.refl (e : Engine) : e.BooksKept e := ⟨.refl e, id⟩

theorem BooksKept.trans (h : e.BooksKept f) (k : f.BooksKept g) : e.BooksKept g :=
  ⟨h.toSameLists.trans k.toSameLists, fun b => k.booked (h.booked b)⟩

theorem SameBooks.kept (h : e.SameBooks f) : e.BooksKept f :=
  ⟨⟨h.originals, h.learnts, h.recentLearnts⟩, h.booked⟩

/-! ### Propagation -/

theorem sameBooks_visitBinary {falseLit : Lit} {others : List Lit}
    (result : visitBinary falseLit others e = (f, conflict)) : e.SameBooks f := by
  induction others generalizing e with
  | nil =>
    cases result
    exact .refl _
  | cons other rest ih =>
    unfold visitBinary at result
    split at result
    · exact ih result
    · cases result
      exact .refl _
    · have assigned : e.SameBooks (e.assign other (.binary falseLit)) := .others e
      exact assigned.trans (ih result)

theorem sameBooks_orient (e : Engine) (id : ClauseId) (falseLit : Lit) :
    e.SameBooks (e.modifyClause id (orient falseLit)) := by
  refine .modifyClause e id fun c => ?_
  unfold orient
  split
  · exact c.kindred_swap 0 1
  · exact .refl c

theorem booksKept_visitEntry {falseLit : Lit} {entry : Watcher} {kept kept' : Array Watcher}
    (used : (e.clause entry.clause).isRemoved = false)
    (result : visitEntry falseLit entry kept e = (f, kept', conflict)) : e.BooksKept f := by
  -- Literals change places in the clause, which is not counted. What may be counted anew is its level
  -- count.
  have oriented := sameBooks_orient e entry.clause falseLit
  unfold visitEntry visitWatched at result
  split at result
  · cases result
    exact .refl e
  · dsimp only at result
    split at result
    · cases result
      exact oriented.kept
    · cases result
      exact ((oriented.trans (.modifyClause _ entry.clause fun c => c.kindred_swap 1 _)).trans
        (.modifyWatches _ _ rfl rfl)).kept
    next first _ =>
      split at result
      · cases result
        exact oriented.kept
      · have assigned : e.SameBooks
            ((e.modifyClause entry.clause (orient falseLit)).assign first (.clause entry.clause)) :=
          oriented.trans (.others _)
        have used' := (assigned.removed entry.clause).trans used
        split at result
        · cases result
          refine assigned.kept.trans ⟨⟨?_, ?_, ?_⟩, fun b => b.refreshLbd used'⟩
          · exact (rescored_refreshLbd _ _).originals
          · exact (rescored_refreshLbd _ _).learnts
          · unfold refreshLbd
            dsimp only
            split
            · rfl
            · split <;> rfl
        · cases result
          exact assigned.kept

theorem booksKept_visitWatched {rest : List Watcher} {kept kept' : Array Watcher}
    (h : Visiting aside p (kept ++ rest.toArray) e)
    (result : visitWatched p.neg rest kept e = (f, kept', conflict)) : e.BooksKept f := by
  induction rest generalizing kept e with
  | nil =>
    cases result
    exact .refl _
  | cons entry rest ih =>
    have used : (e.clause entry.clause).isRemoved = false :=
      isRemoved_of_isAttached (h.attached (w := entry) (by simp)).1
    rw [visitWatched_cons] at result
    rcases visited : visitEntry p.neg entry kept e with ⟨g, kept1, found⟩
    have books := booksKept_visitEntry used visited
    rw [visited] at result
    cases found with
    | none => exact books.trans (ih (h.visit (visited ▸ visitEntry_cases _ _ _ used)).1 result)
    | some c =>
      cases result
      exact books

theorem booksKept_propagateWatched (h : e.Sound aside) (apart : e.FrozenApart)
    (latest : e.trail.Latest p) (result : e.propagateWatched p = (f, conflict)) : e.BooksKept f := by
  have cleaned := Watches.cleanIfDirty_cleaned e.watches e.arena p
  have books : e.SameBooks (e.modifyWatches (·.cleanIfDirty e.arena p)) :=
    .modifyWatches e _ cleaned.binary cleaned.frozen
  obtain ⟨-, visiting⟩ := visiting_cleaned h apart latest
  obtain ⟨k, kept, run, rfl⟩ := propagateWatched_eq result
  have relisted : k.SameBooks (k.modifyWatches (·.setLong p kept)) := .modifyWatches k _ rfl rfl
  exact (books.kept.trans (booksKept_visitWatched visiting run)).trans relisted.kept

/-- The lists of frozen clauses are not part of the books. -/
theorem booksKept_frozenLists (e : Engine) {change : Watches → Watches}
    (binary : (change e.watches).binary = e.watches.binary) : e.BooksKept (e.modifyWatches change) where
  booked := fun b =>
    { balanced := b.balanced.tally rfl rfl rfl
      filed := b.filed.arena rfl
      blank := by
        change (change e.watches).binary.fallback = #[]
        rw [binary]
        exact b.blank
      symmetric := by
        change (change e.watches).Symmetric
        rw [Watches.Symmetric, binary]
        exact b.symmetric
      pairs := by
        change (change e.watches).pairCount = _
        rw [Watches.pairCount, binary]
        exact b.pairs }
  originals := rfl
  learnts := rfl
  recentLearnts := rfl

theorem kindred_setLits (c : Clause) {lits : Array Lit} (perm : lits.toList.Perm c.lits.toList) :
    c.Kindred (c.setLits lits) := ⟨⟨perm, rfl, rfl, rfl, rfl⟩, rfl⟩

theorem fields_thawFalsified (e : Engine) (id : ClauseId) :
    (e.thawFalsified id).arena = e.arena.modify id (thawedByConflict e.trail) ∧
      (e.thawFalsified id).tally = { e.tally with frozen := e.tally.frozen - 1 } ∧
      (e.thawFalsified id).lbdCounts = e.lbdCounts ∧
      (e.thawFalsified id).watches.binary = e.watches.binary ∧
      (e.thawFalsified id).watches.frozen = e.watches.frozen ∧
      (e.thawFalsified id).originals = e.originals ∧ (e.thawFalsified id).learnts = e.learnts ∧
      (e.thawFalsified id).recentLearnts = e.recentLearnts := by
  dsimp only [Engine.thawFalsified, modifyStats, modifyTally, attach, modifyWatches, modifyClause]
  exact ⟨rfl, rfl, rfl, rfl, rfl, rfl, rfl, rfl⟩

theorem Booked.thawFalsified (b : e.Booked os ks) (used : (e.clause id).isRemoved = false)
    (frozen : (e.clause id).isFrozen = true) : (e.thawFalsified id).Booked os ks := by
  have learnt := Clause.isLearnt_of_isFrozen frozen
  have counted := (b.balanced.counted used).frozen
  have share : (e.clause id).share.frozen = 1 := by
    rw [Clause.share, used, learnt, frozen]
    rfl
  have perm := (bringHighest_perm e.trail 1 _).trans
    (bringHighest_perm e.trail 0 (e.clause id).lits)
  have count : e.tally.frozen - 1 + (if (e.clause id).isFrozen then 1 else 0) =
      e.tally.frozen + if false then 1 else 0 := by
    rw [share] at counted
    rw [if_pos frozen]
    exact Nat.sub_add_cancel counted
  obtain ⟨arena, tally, lbdCounts, binary, -⟩ := e.fields_thawFalsified id
  exact b.setFrozen used learnt (by rw [arena]) ⟨_, kindred_setLits (e.clause id) perm, rfl⟩ tally
    count lbdCounts (by rw [arena]; rfl) binary

theorem booksKept_visitFrozen {falseLit : Lit} {entries left : List Watcher}
    (result : visitFrozen falseLit entries e = (f, left, conflict)) : e.BooksKept f := by
  have visited := visitFrozen_cases falseLit entries e
  rw [result] at visited
  cases visited with
  | moved => exact booksKept_frozenLists e rfl
  | @falsified lists _ entry _ _ _ used frozen =>
    obtain ⟨-, -, -, -, -, originals, learnts, recent⟩ :=
      (e.withFrozen lists).fields_thawFalsified entry.clause
    have moved : e.BooksKept (e.withFrozen lists) := booksKept_frozenLists e rfl
    exact moved.trans ⟨⟨originals, learnts, recent⟩, fun b => b.thawFalsified used frozen⟩

theorem booksKept_propagateFrozen (result : e.propagateFrozen p = (f, conflict)) : e.BooksKept f := by
  cases propagateFrozen_visits result with
  | none => exact .refl _
  | @some g _ _ run => exact (booksKept_visitFrozen run).trans (booksKept_frozenLists g rfl)

theorem booksKept_propagateLit (h : e.Sound aside) (apart : e.FrozenApart)
    (latest : e.trail.Latest p) (result : e.propagateLit p = (f, conflict)) : e.BooksKept f := by
  -- The pairs and the clauses watched keep the books, in whichever way the visits go on.
  have both {g k : Engine} {found : Option Conflict}
      (first : visitBinary p.neg (e.watches.binary.get p).toList e = (g, none))
      (second : g.propagateWatched p = (k, found)) : e.BooksKept k := by
    obtain ⟨sound, apart', grown, -⟩ :=
      visitBinary_sound h apart latest (fun q inside => Array.mem_toList_iff.mp inside) first
    have latest' := grown.latest h.trail sound.trail latest
    exact (sameBooks_visitBinary first).kept.trans (booksKept_propagateWatched sound apart' latest' second)
  cases propagateLit_cases result with
  | binary first => exact (sameBooks_visitBinary first).kept
  | watched first second => exact both first second
  | frozen first second third => exact (both first second).trans (booksKept_propagateFrozen third)

/-- What the visits of single literals keep, propagation keeps. -/
theorem propagateFrom_keeps {P : Engine → Prop} {n : Nat} (h : e.Sound aside) (apart : e.FrozenApart)
    (queue : ∀ (x : Engine) (head : Nat) (stats : Statistics), P x →
      P { x with trail := { x.trail with head }, stats })
    (lit : ∀ {x y : Engine} {q : Lit} {c : Option Conflict}, x.Sound aside → x.FrozenApart →
      x.trail.Latest q → P x → x.propagateLit q = (y, c) → P y)
    (start : P e) (result : propagateFrom n e = (f, conflict)) : P f := by
  have run := propagates result
  clear result
  induction run with
  | spent | idle => exact start
  | @next _ e _ _ _ _ at_head run _ ih =>
    obtain ⟨sound, apart', -, latest⟩ := dequeue_sound h apart at_head
    obtain ⟨sound', apart'', -⟩ := propagateLit_sound sound apart' latest run
    exact ih sound' apart'' (lit sound apart' latest (queue e _ _ start) run)
  | @clash _ e g _ _ at_head run =>
    obtain ⟨sound, apart', -, latest⟩ := dequeue_sound h apart at_head
    exact queue g _ g.stats (lit sound apart' latest (queue e _ _ start) run)

theorem booksKept_propagateFrom {n : Nat} (h : e.Sound aside) (apart : e.FrozenApart)
    (result : propagateFrom n e = (f, conflict)) : e.BooksKept f :=
  propagateFrom_keeps (P := e.BooksKept) h apart
    (fun x head stats kept => kept.trans
      (show x.SameBooks { x with trail := { x.trail with head }, stats } from .others x).kept)
    (fun sound apart latest kept run => kept.trans (booksKept_propagateLit sound apart latest run))
    (.refl e) result

/-! ### Conflict analysis -/

/-- Marks and scores are not in the books. -/
theorem sameBooks_effects (effects : Resolution.Effects e f) : e.SameBooks f := by
  induction effects with
  | refl => exact .refl e
  | tail _ effect ih =>
    refine ih.trans ?_
    cases effect with
    | mark | meet => exact .others _
    | cite id => exact sameBooks_bumpIfLearnt _ id

theorem sameBooks_analyze {c : Conflict} {learnt : Learnt} (result : e.analyze c = .ok (f, learnt)) :
    e.SameBooks f := by
  obtain ⟨u, g, effects, ⟨seen, before, after, rfl⟩, rfl, -⟩ := analyze_effects result
  exact (sameBooks_effects effects).trans (.others u)

/-! ### Learning -/

/-- The books of an engine at rest: its own lists name the clauses in use, and no more learnt clauses
are recent than there are. -/
structure Shelved (e : Engine) : Prop where
  booked : e.Booked e.originals.toList e.learnts.toList
  recent : e.recentLearnts ≤ e.learnts.size

theorem Shelved.kept (h : e.Shelved) (k : e.BooksKept f) : f.Shelved where
  booked := by
    rw [k.originals, k.learnts]
    exact k.booked h.booked
  recent := by
    rw [k.recentLearnts, k.learnts]
    exact h.recent

theorem sameBooks_assign (e : Engine) (l : Lit) (why : Reason) : e.SameBooks (e.assign l why) := .others e

theorem sameBooks_openLevel (e : Engine) : e.SameBooks e.openLevel := .others e

theorem sameBooks_decide (e : Engine) (l : Lit) : e.SameBooks (e.decide l) :=
  (sameBooks_openLevel e).trans (sameBooks_assign e.openLevel l .decision)

theorem sameBooks_cancelTo (e : Engine) (level : Nat) : e.SameBooks (e.cancelTo level) := by
  unfold cancelTo
  split
  · exact .refl e
  · exact .others e

theorem booksKept_addBinary (e : Engine) (a b : Lit) (learnt : Bool) :
    e.BooksKept (e.addBinary a b learnt) := by
  obtain ⟨-, -, -, originals, learnts, recent⟩ := e.fields_addBinary a b learnt
  exact ⟨⟨originals, learnts, recent⟩, fun h => h.addBinary a b learnt⟩

theorem Shelved.addLearnt (h : e.Shelved) {c : Learnt} (result : e.addLearnt c = .ok f) :
    f.Shelved := by
  cases addLearnt_cases result with
  | empty => exact h
  | unit => exact h.kept (sameBooks_assign _ _ _).kept
  | pair => exact h.kept ((booksKept_addBinary e _ _ true).trans (sameBooks_assign _ _ _).kept)
  | @stored _ _ _ _ _ g _ stored =>
    obtain ⟨booked, originals, recent, learnts, -⟩ := h.booked.storeLearnt stored
    have shelved : g.Shelved := by
      refine ⟨originals ▸ booked, ?_⟩
      rw [recent, learnts, Array.size_push]
      exact Nat.succ_le_succ h.recent
    exact shelved.kept (sameBooks_assign _ _ _).kept

theorem sameBooks_noteConflict (e : Engine) (lbd trailSize : Nat) :
    e.SameBooks (e.noteConflict lbd trailSize) := by
  unfold noteConflict
  dsimp only
  split <;> exact .others e

/-- After an analysis the books are the same, also when the search has gone back. -/
theorem sameBooks_back {c : Conflict} {d : Learnt} {a : Engine} (analyzed : e.analyze c = .ok (a, d)) :
    e.SameBooks (a.cancelTo d.level) :=
  (sameBooks_analyze analyzed).trans (sameBooks_cancelTo a d.level)

/-- The books are the same when a conflict is noted. -/
theorem sameBooks_noted (e : Engine) (lbd trailSize : Nat) :
    e.SameBooks (e.decayActivities.noteConflict lbd trailSize) := by
  have decayed : e.SameBooks e.decayActivities := .others e
  exact decayed.trans (sameBooks_noteConflict _ lbd trailSize)

/-- Learning from a conflict files at most one clause, as the last one. -/
theorem Shelved.handleConflict (h : e.Shelved) {c : Conflict} {handled : Handled}
    (result : e.handleConflict c = .ok (handled, f)) : f.Shelved := by
  cases handleConflict_cases result with
  | full analyzed => exact h.kept (sameBooks_back analyzed).kept
  | learnt analyzed added =>
    have back := h.kept (sameBooks_back analyzed).kept
    exact (back.addLearnt added).kept (sameBooks_noted _ _ _).kept

end Engine

end Cdcl
