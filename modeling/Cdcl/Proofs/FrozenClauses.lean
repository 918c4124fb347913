import Cdcl.Proofs.Removal
import Cdcl.Search.Reduction

/-!
# Freezing and thawing

While learnt clauses are reduced, the watch lists lag behind: entries of clauses that were just
frozen stay until all lists are cleaned, and the lists of frozen clauses are only right once they
are built anew.

## Main results

- `Loose.freeze`, `thawClause_spec`: freezing and thawing a learnt clause.
- `Loose.rewatchFrozen`: frozen clauses are apart once their lists are built anew.
-/

namespace Cdcl

namespace Engine

variable {F : List (List Lit)} {L : Ledger} {m : Nat} {e f : Engine} {id : ClauseId}
  {aside : List ClauseId}

/-! ### Freezing -/

section Freeze

/-- The clauses once one of them is frozen. -/
theorem alike_frozen (used : (e.clause id).isRemoved = false) (x : ClauseId) :
    let c := (e.modifyClause id (·.setFrozen true)).clause x
    c.lits = (e.clause x).lits ∧ c.isRemoved = (e.clause x).isRemoved ∧
      c.isLearnt = (e.clause x).isLearnt ∧ (x ≠ id → c = e.clause x) := by
  dsimp only
  rw [clause_modifyClause used]
  split
  next same => exact ⟨rfl, rfl, Clause.isLearnt_setFrozen _ _, fun ne => absurd same.symm ne⟩
  next => exact ⟨rfl, rfl, rfl, fun _ => rfl⟩

/-- A clause that is frozen leaves. -/
theorem Sound.retires_freeze (h : e.Sound aside) (used : (e.clause id).isRemoved = false)
    (learnt : (e.clause id).isLearnt = true) :
    e.Retires id ((e.detachLater id).modifyClause id (·.setFrozen true)) := by
  have alike := alike_frozen (e := e) used
  constructor
  case numVars | trail | branching | seen => rfl
  case slots => exact Array.size_modify
  case flags => exact h.flags_unwatchLater id
  case others => exact fun x ne => (alike x).2.2.2 ne
  case detached =>
    change ((e.modifyClause id (·.setFrozen true)).clause id).isAttached = false
    rw [clause_modifyClause used, if_pos rfl, Clause.isAttached, Clause.isFrozen_setFrozen, learnt]
    exact Bool.and_false _
  case proper =>
    intro live
    change ((e.modifyClause id (·.setFrozen true)).clause id).Proper e.numVars
    rw [clause_modifyClause used, if_pos rfl]
    exact { h.proper id used with }

theorem Loose.freeze (h : e.Loose L m) (used : (e.clause id).isRemoved = false)
    (learnt : (e.clause id).isLearnt = true) (notAside : id ∉ L.aside) (notOriginal : id ∉ L.originals)
    (noReason : ∀ l ∈ e.trail.lits, e.trail.reason l.var ≠ .clause id) :
    ((e.detachLater id).modifyClause id (·.setFrozen true)).Loose L m := by
  obtain ⟨-, removed, learnt', -⟩ := alike_frozen (e := e) used id
  refine h.retire (h.sound.retires_freeze used learnt) noReason notOriginal
    (fun _ => ⟨removed.trans used, learnt'.trans learnt⟩) (.refl _) fun x => ?_
  exact ⟨fun member => ⟨member, fun same => notAside (same ▸ member)⟩, And.left⟩

theorem Equivalent.freeze (h : e.Equivalent F L) (used : (e.clause id).isRemoved = false) :
    ((e.detachLater id).modifyClause id (·.setFrozen true)).Equivalent F L := by
  have alike := alike_frozen (e := e) used
  obtain ⟨dirty, dirtyKeys, unwatched, _⟩ :=
    e.watches.unwatchLater_eq ((e.clause id).lit 0) ((e.clause id).lit 1)
  unfold Engine.detachLater
  dsimp only [modifyWatches]
  rw [unwatched]
  refine h.keeps ?_ ?_
  · refine .of_sub (fun _ fact => fact) (fun _ pair => pair) (fun _ inside => inside)
      fun x _ l inside => ?_
    change l ∈ ((e.modifyClause id (·.setFrozen true)).clause x).lits at inside
    rw [(alike x).1] at inside
    exact inside
  · intro σ holds
    have old := h.upheld σ holds
    refine { old with clauses := fun x live => ?_, binary := old.binary }
    obtain ⟨lits, removed, _⟩ := alike x
    change σ.satisfiesClause ((e.modifyClause id (·.setFrozen true)).clause x).lits.toList
    rw [lits]
    exact old.clauses x (removed ▸ live)

end Freeze

/-! ### Thawing -/

theorem findNonFalse_first {t : Trail} {lits : Array Lit} {start n k : Nat}
    (found : t.findNonFalse lits start n = some k) {i : Nat} (low : start ≤ i) (before : i < k) :
    t.isFalse (lits.getD i .missing) = true := by
  induction n generalizing start with
  | zero => cases found
  | succ n ih =>
    unfold Trail.findNonFalse at found
    split at found
    next fails =>
      by_cases here : i = start
      · rw [here]
        exact fails
      · exact ih found (by omega)
    next =>
      cases found
      omega

/-- The literals stay the same but for their order, a true one stays in front, and if a single one
is not false, it is in front. -/
theorem bringNonFalse_spec {t : Trail} {lits lits' : Array Lit} {n : Nat}
    (result : bringNonFalse t lits = (lits', n)) :
    lits'.toList.Perm lits.toList ∧
      (lits'.getD 0 .missing = lits.getD 0 .missing ∨
        t.isFalse (lits.getD 0 .missing) = true) ∧
      (n = 1 → ∀ i, 0 < i → i < lits'.size → t.isFalse (lits'.getD i .missing) = true) := by
  unfold bringNonFalse at result
  split at result
  · cases result
    exact ⟨.refl _, .inl rfl, nofun⟩
  next i found =>
    obtain ⟨_, high, _⟩ := Trail.findNonFalse_eq_some found
    have inside : i < lits.size := by omega
    let c : Clause := { lits }
    -- Swapping brings the literal found to the front, and the one from there to its place.
    have swapped (k : Nat) : (lits.swapIfInBounds 0 i).getD k .missing =
        if k = 0 then c.lit i else if k = i then c.lit 0 else c.lit k :=
      Clause.lit_swap (c := c) (by change 0 < lits.size; omega) inside k
    have first : (lits.swapIfInBounds 0 i).getD 0 .missing = lits.getD 0 .missing ∨
        t.isFalse (lits.getD 0 .missing) = true := by
      by_cases front : i = 0
      · refine .inl ?_
        rw [swapped 0, if_pos rfl, front]
        rfl
      · exact .inr (findNonFalse_first found (by omega) (by omega))
    dsimp only at result
    split at result
    next none =>
      cases result
      refine ⟨Clause.swapIfInBounds_perm .., first, fun _ k positive bound => ?_⟩
      by_cases after : i < k
      · exact Trail.findNonFalse_eq_none none (by omega) (by omega)
      rw [swapped, if_neg (by omega)]
      split
      next same => exact findNonFalse_first found (by omega) (by omega)
      next other => exact findNonFalse_first found (by omega) (by omega)
    next j again =>
      cases result
      obtain ⟨low, top, _⟩ := Trail.findNonFalse_eq_some again
      refine ⟨(Clause.swapIfInBounds_perm ..).trans (Clause.swapIfInBounds_perm ..), ?_, nofun⟩
      -- The second swap is behind the front.
      have stays : ((lits.swapIfInBounds 0 i).swapIfInBounds 1 j).getD 0 .missing =
          (lits.swapIfInBounds 0 i).getD 0 .missing := by
        let d : Clause := { lits := lits.swapIfInBounds 0 i }
        have size : (lits.swapIfInBounds 0 i).size = lits.size := Array.size_swapIfInBounds
        refine (Clause.lit_swap (c := d) (i := 1) (j := j) ?_ ?_ 0).trans ?_
        · change 1 < (lits.swapIfInBounds 0 i).size
          omega
        · change j < (lits.swapIfInBounds 0 i).size
          omega
        · rw [if_neg (by omega), if_neg (by omega)]
          rfl
      rw [stays]
      exact first

/-- Frozen clauses have left the lists of those that take part in propagation. -/
def FrozenUnwatched (e : Engine) : Prop :=
  ∀ id, (e.clause id).isRemoved = false → (e.clause id).isFrozen = true →
    ∀ p, entriesOf id (e.watches.long.get p) = 0

/-- The frozen clause `id` of the first engine takes part in propagation again in the second one, with
its literals in the order `lits`. -/
structure Thawed (L : Ledger) (m : Nat) (id : ClauseId) (lits : Array Lit) (e f : Engine) : Prop where
  loose : f.Loose L m
  unwatched : f.FrozenUnwatched
  grown : e.Extends f
  trail : f.trail = e.trail
  lits : (f.clause id).lits = lits
  attached : (f.clause id).isAttached = true
  others : ∀ x, x ≠ id → f.clause x = e.clause x

/-- Counts do not matter. -/
theorem Thawed.books {lits : Array Lit} (h : Thawed L m id lits e f) (tally : Tally)
    (stats : Statistics) : Thawed L m id lits e { f with tally, stats } where
  loose := h.loose.books
  unwatched := h.unwatched
  grown := h.grown.trans (.of_rescored { Rescored.refl f with })
  trail := h.trail
  lits := h.lits
  attached := h.attached
  others := h.others

/-- A frozen clause is attached again. -/
theorem Loose.reattach (h : e.Loose L m) (unwatched : e.FrozenUnwatched) (learnt : id ∈ L.learnts)
    (frozen : (e.clause id).isFrozen = true) (le : m ≤ e.trail.lits.size) {lits : Array Lit}
    (perm : lits.toList.Perm (e.clause id).lits.toList)
    (front : lits.getD 0 .missing = (e.clause id).lit 0 ∨ e.trail.isFalse ((e.clause id).lit 0) = true) :
    Thawed L m id lits e
      ((e.modifyClause id fun c => (c.setLits lits).setFrozen false).attach id) := by
  obtain ⟨used, -⟩ := h.listed.learnt id learnt
  generalize thawing : (fun c : Clause => (c.setLits lits).setFrozen false) = g
  have continues : (e.clause id).Continues (g (e.clause id)) := by
    rw [← thawing]
    exact ⟨perm, rfl, Clause.isLearnt_setFrozen _ _, by simp [Clause.isFrozen_setFrozen], rfl⟩
  have thawed : (g (e.clause id)).isFrozen = false := by
    rw [← thawing]
    simp [Clause.isFrozen_setFrozen]
  have lits_g : (g (e.clause id)).lits = lits := by
    rw [← thawing]
    rfl
  have clause := clause_modifyClause used g
  have other {x : ClauseId} (ne : x ≠ id) : ((e.modifyClause id g).attach id).clause x = e.clause x :=
    (clause x).trans (if_neg (Ne.symm ne))
  have self : ((e.modifyClause id g).attach id).clause id = g (e.clause id) :=
    (clause id).trans (if_pos rfl)
  -- The first literal stays unless it was false, and then nothing rests on the clause.
  have first : (g (e.clause id)).lit 0 = (e.clause id).lit 0 ∨
      e.trail.isTrue ((e.clause id).lit 0) = false := by
    rw [Clause.lit, lits_g]
    exact front.imp_right Trail.isTrue_of_isFalse
  have sound := h.sound.thaw used frozen (unwatched id used frozen) continues thawed first
  have grown : e.Extends ((e.modifyClause id g).attach id) := .thaw used continues
  refine
    { loose := h.extends grown sound (h.guards.extends_same grown h.sound.trail sound.trail le ?_)
      unwatched := fun x live isFrozen p => ?_
      grown
      trail := rfl
      lits := by rw [self, lits_g]
      attached := by
        rw [self, isAttached_iff, continues.removed]
        exact ⟨used, thawed⟩
      others := fun x ne => other ne }
  · intro x member
    exact other fun same => h.listed.disjoint id learnt (same ▸ List.mem_append_right _ member)
  · have ne : x ≠ id := by
      rintro rfl
      rw [self, thawed] at isFrozen
      cases isFrozen
    rw [other ne] at live isFrozen
    exact (Watches.entriesOf_watch_other (Ne.symm ne) _ _ p).trans (unwatched x live isFrozen p)

/-- At level zero a thawed clause all of whose literals but the first are false implies the first. -/
theorem Thawed.explains {lits : Array Lit} (h : Thawed L m id lits e f) (zero : e.trail.level = 0)
    (single : ∀ i, 0 < i → i < lits.size → e.trail.isFalse (lits.getD i .missing) = true) :
    f.Explains (.clause id) f.trail.lits.size (lits.getD 0 .missing) := by
  have size := (h.loose.sound.proper id (isRemoved_of_isAttached h.attached)).size
  have falsified : ∀ q ∈ (f.clause id).tail, f.trail.Before f.trail.lits.size q.neg := by
    intro q member
    obtain ⟨i, positive, bound, rfl⟩ := Clause.mem_tail_iff.mp member
    rw [← Trail.mem_iff_before, ← h.loose.sound.trail.isFalse_iff, h.trail, Clause.lit, h.lits]
    exact single i positive (h.lits ▸ bound)
  have second : (f.clause id).lit 1 ∈ (f.clause id).tail :=
    Clause.mem_tail_iff.mpr ⟨1, by omega, by omega, rfl⟩
  have isFirst : (f.clause id).lit 0 = lits.getD 0 .missing := by
    rw [Clause.lit, h.lits]
  exact ⟨h.attached, isFirst, falsified, _, second,
    (falsified _ second).beside_of_level_zero (h.trail ▸ zero)⟩

/-- The engine with a frozen clause back at work, its literals in this order, and counted as thawed. -/
def thawedAs (e : Engine) (id : ClauseId) (lits : Array Lit) : Engine :=
  let arena := e.arena.modify id fun c => (c.setLits lits).setFrozen false
  { e with
    arena
    watches := e.watches.watch id ((arena.get id).lit 0) ((arena.get id).lit 1)
    tally := { e.tally with frozen := e.tally.frozen - 1 }
    stats := { e.stats with thawed := e.stats.thawed + 1 } }

/-- How a frozen clause is put back to work: a single literal that is not false and has no value yet is
propagated. -/
inductive Awaking (e : Engine) (id : ClauseId) : Engine → Prop
  | unit {lits : Array Lit} (brought : bringNonFalse e.trail (e.clause id).lits = (lits, 1))
      (unassigned : e.trail.value (lits.getD 0 .missing).var = .undecided) :
      Awaking e id ((e.thawedAs id lits).assign (lits.getD 0 .missing) (.clause id))
  | attached {lits : Array Lit} {n : Nat} (brought : bringNonFalse e.trail (e.clause id).lits = (lits, n))
      (other : ¬ (n = 1 ∧ e.trail.value (lits.getD 0 .missing).var = .undecided)) :
      Awaking e id (e.thawedAs id lits)

theorem thawClause_cases (result : e.thawClause id = f) : e.Awaking id f := by
  unfold thawClause at result
  rcases brought : bringNonFalse e.trail (e.clause id).lits with ⟨lits, n⟩
  rw [brought] at result
  dsimp only [modifyClause, attach, modifyWatches, modifyTally, modifyStats, clause] at result
  split at result
  next propagates =>
    rw [Bool.and_eq_true, beq_iff_eq, Trail.isUnassigned_iff] at propagates
    obtain ⟨rfl, unassigned⟩ := propagates
    cases result
    exact .unit brought unassigned
  next rests =>
    rw [Bool.and_eq_true, beq_iff_eq, Trail.isUnassigned_iff] at rests
    cases result
    exact .attached brought rests

/-- Putting a frozen clause back to work. It is propagated if a single literal is not false. -/
theorem thawClause_spec (h : e.Loose L m) (unwatched : e.FrozenUnwatched) (learnt : id ∈ L.learnts)
    (frozen : (e.clause id).isFrozen = true) (zero : e.trail.level = 0)
    (le : m ≤ e.trail.lits.size) :
    (e.thawClause id).Loose L m ∧ (e.thawClause id).FrozenUnwatched ∧ e.Extends (e.thawClause id) ∧
      (e.thawClause id).trail.head = e.trail.head ∧
      ∀ x, x ≠ id → (e.thawClause id).clause x = e.clause x := by
  have thaws {lits : Array Lit} {n : Nat} (brought : bringNonFalse e.trail (e.clause id).lits = (lits, n)) :
      Thawed L m id lits e (e.thawedAs id lits) := by
    obtain ⟨perm, front, -⟩ := bringNonFalse_spec brought
    have books := (h.reattach unwatched learnt frozen le perm front).books
      { e.tally with frozen := e.tally.frozen - 1 } { e.stats with thawed := e.stats.thawed + 1 }
    dsimp only [modifyClause, attach, modifyWatches, clause] at books
    exact books
  generalize result : e.thawClause id = f
  cases thawClause_cases result with
  | @unit lits brought unassigned =>
    have thawed := thaws brought
    have explained := thawed.explains zero ((bringNonFalse_spec brought).2.2 rfl)
    have live := isRemoved_of_isAttached thawed.attached
    have proper := thawed.loose.sound.proper id live
    have bound : (lits.getD 0 .missing).var.index < (e.thawedAs id lits).numVars := by
      rw [← explained.2.1]
      exact proper.bounded _ (Clause.lit_mem (by have := proper.size; omega))
    have assigned : (e.thawedAs id lits).Extends
        ((e.thawedAs id lits).assign (lits.getD 0 .missing) (.clause id)) :=
      .assign _ (fun _ member => thawed.loose.sound.trail.var_ne unassigned member) (by simp)
    exact ⟨thawed.loose.assign unassigned bound explained (thawed.trail.symm ▸ le), thawed.unwatched,
      thawed.grown.trans assigned, rfl, thawed.others⟩
  | attached brought =>
    have thawed := thaws brought
    exact ⟨thawed.loose, thawed.unwatched, thawed.grown, rfl, thawed.others⟩

/-! ### Cleaning and watching anew -/

/-- The watch lists as they are after a cleaning. -/
theorem Loose.cleanAll (h : e.Loose L m) :
    (e.modifyWatches (·.cleanAll e.arena)).Loose L m ∧
      (e.modifyWatches (·.cleanAll e.arena)).FrozenUnwatched ∧
      e.Extends (e.modifyWatches (·.cleanAll e.arena)) := by
  have cleaned := Watches.cleanAll_cleaned e.watches e.arena
  have clean := Watches.dirty_cleanAll e.watches e.arena h.sound.tracked.listed
  have sound := h.sound.cleaned (f := (·.cleanAll e.arena)) cleaned fun p dirty => by
    rw [clean p] at dirty
    cases dirty
  have grown : e.Extends (e.modifyWatches (·.cleanAll e.arena)) :=
    .of_clauses (fun _ => .refl _) cleaned.binary
  refine ⟨h.extends grown sound ⟨h.guards.clauses, h.guards.pairs⟩, fun id used frozen p => ?_, grown⟩
  by_contra some
  have attached : ((e.modifyWatches (·.cleanAll e.arena)).clause id).isAttached = false := by
    rw [Clause.isAttached, frozen]
    simp
  have dirty := sound.tracked.stale id attached p (by omega)
  change (e.watches.cleanAll e.arena).dirty.get p = true at dirty
  rw [clean p] at dirty
  cases dirty

theorem sound_watchFrozen (h : e.Sound aside) (id : ClauseId) : (e.watchFrozen id).Sound aside := by
  unfold Engine.watchFrozen
  dsimp only
  split
  · exact sound_pushFrozen h _ _
  · exact h

theorem FrozenApart.watchFrozen (h : e.FrozenApart) (wide : 3 ≤ (e.clause id).lits.size) :
    (e.watchFrozen id).FrozenApart := by
  unfold Engine.watchFrozen
  dsimp only
  split
  · have inside : (e.trail.findNonFalse (e.clause id).lits 0 (e.clause id).size).getD 0 <
        (e.clause id).lits.size := by
      cases found : e.trail.findNonFalse (e.clause id).lits 0 (e.clause id).size with
      | none =>
        change 0 < _
        omega
      | some k =>
        have high := (Trail.findNonFalse_eq_some found).2.1
        rw [Nat.zero_add] at high
        exact high
    refine frozenApart_pushFrozen h (Clause.lit_mem inside) ?_
    split
    · exact Clause.lit_mem (by omega)
    · exact Clause.lit_mem (by omega)
  · exact h

/-- Only the lists of frozen clauses differ. -/
theorem watchFrozen_eq (e : Engine) (id : ClauseId) : ∃ frozen,
    e.watchFrozen id = { e with watches := { e.watches with frozen } } := by
  unfold Engine.watchFrozen
  dsimp only
  split
  · exact ⟨_, rfl⟩
  · exact ⟨_, rfl⟩

theorem watchFrozen_foldl (ids : List ClauseId) (sound : e.Sound aside) (apart : e.FrozenApart)
    (wide : ∀ id ∈ ids, 3 ≤ (e.clause id).lits.size) :
    (ids.foldl Engine.watchFrozen e).Sound aside ∧ (ids.foldl Engine.watchFrozen e).FrozenApart ∧
      ∃ frozen, ids.foldl Engine.watchFrozen e =
        { e with watches := { e.watches with frozen } } := by
  induction ids generalizing e with
  | nil => exact ⟨sound, apart, _, rfl⟩
  | cons id ids ih =>
    rw [List.foldl_cons]
    obtain ⟨frozen, same⟩ := e.watchFrozen_eq id
    obtain ⟨later, laterApart, frozen', same'⟩ := ih (sound_watchFrozen sound id)
      (apart.watchFrozen (wide id List.mem_cons_self)) (by
        intro x member
        rw [same]
        exact wide x (List.mem_cons_of_mem id member))
    exact ⟨later, laterApart, frozen', by rw [same', same]⟩

/-- The frozen clauses are apart once their lists are built anew. -/
theorem Loose.rewatchFrozen (h : e.Loose L m) (unwatched : e.FrozenUnwatched)
    (learnts : ∀ id ∈ e.learnts, id ∈ L.learnts) :
    e.rewatchFrozen.Regular L m ∧
      ∃ frozen, e.rewatchFrozen = { e with watches := { e.watches with frozen } } := by
  have cleared : (e.modifyWatches Watches.clearFrozen).Sound L.aside :=
    h.sound.frozenLists rfl rfl rfl rfl h.sound.blank.frozen
  have none (p : Lit) : (e.modifyWatches Watches.clearFrozen).watches.frozen.get p = #[] := by
    exact DenseMap.get_mapValues _ h.sound.blank.frozen.symm p
  have apart : (e.modifyWatches Watches.clearFrozen).FrozenApart := by
    refine ⟨unwatched, fun p w member => ?_⟩
    rw [none p] at member
    simp at member
  have wide : ∀ id ∈ e.learnts.toList,
      3 ≤ ((e.modifyWatches Watches.clearFrozen).clause id).lits.size := fun id member =>
    (h.sound.proper id (h.listed.learnt id (learnts id (Array.mem_toList_iff.mp member))).1).size
  obtain ⟨sound, finalApart, frozen, same⟩ :=
    watchFrozen_foldl e.learnts.toList cleared apart wide
  have result : e.rewatchFrozen = { e with watches := { e.watches with frozen } } := by
    unfold Engine.rewatchFrozen
    rw [← Array.foldl_toList, same]
    rfl
  rw [Array.foldl_toList] at sound finalApart
  refine ⟨⟨⟨sound, ?_, ?_, ?_, ?_⟩, finalApart⟩, frozen, result⟩
  all_goals rw [result]
  · exact { h.listed with }
  · exact { h.guarded with }
  · exact ⟨h.guards.clauses, h.guards.pairs⟩
  · exact h.offers

end Engine

end Cdcl
