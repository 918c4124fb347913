import Cdcl.Proofs.BooksKept
import Cdcl.Proofs.Reduced
import Cdcl.Proofs.Vivified

/-!
# The books through upkeep

A reduction, a simplification and a vivification each go through a list of clauses, and list those
that stay anew. On the way the clauses in use are those that were found to stay and those not looked
at yet.

## Main results

- `Shelved.reduce`, `Shelved.simplifyAll`, `Shelved.vivifyAll`: the books are in order afterwards.
-/

namespace Cdcl

namespace Engine

variable {F : List (List Lit)} {e f g b : Engine} {id : ClauseId} {os ks rest : List ClauseId}
  {pairs : List (Lit × Lit)}

theorem Booked.permute (h : e.Booked os ks) {ks' : List ClauseId} (perm : ks'.Perm ks) :
    e.Booked os ks' :=
  { h with
    filed :=
      { h.filed with
        learnt := fun id => perm.mem_iff.trans (h.filed.learnt id)
        learnts_nodup := perm.nodup_iff.mpr h.filed.learnts_nodup } }

theorem sameLists_removeClause (e : Engine) (id : ClauseId) : e.SameLists (e.removeClause id) := by
  have steady := e.steady_removeClause id
  exact ⟨steady.originals, steady.learnts, (e.lists_removeClause id).2.2⟩

theorem sameBooks_stats (e : Engine) (stats : Statistics) : e.SameBooks { e with stats } := .others e

/-! ### Reduction -/

theorem Booked.freezeClause (h : e.Booked os ks) (used : (e.clause id).isRemoved = false)
    (learnt : (e.clause id).isLearnt = true) (working : (e.clause id).isFrozen = false) :
    (e.freezeClause id).Booked os ks := by
  obtain ⟨_, _, later, -⟩ := e.watches.unwatchLater_eq ((e.clause id).lit 0) ((e.clause id).lit 1)
  have fields : (e.freezeClause id).arena = e.arena.modify id (·.setFrozen true) ∧
      (e.freezeClause id).tally = { e.tally with frozen := e.tally.frozen + 1 } ∧
      (e.freezeClause id).lbdCounts = e.lbdCounts ∧
      (e.freezeClause id).watches.binary = e.watches.binary := by
    dsimp only [Engine.freezeClause, modifyStats, modifyTally, modifyClause, detachLater, modifyWatches]
    rw [later]
    exact ⟨rfl, rfl, rfl, rfl⟩
  obtain ⟨arena, tally, lbdCounts, binary⟩ := fields
  refine h.setFrozen used learnt (by rw [arena]) ⟨_, .refl _, rfl⟩ tally ?_ lbdCounts
    (by rw [arena]; rfl) binary
  rw [working]
  rfl

theorem sameLists_freezeClause (e : Engine) (id : ClauseId) : e.SameLists (e.freezeClause id) := by
  dsimp only [Engine.freezeClause, modifyStats, modifyTally, modifyClause, detachLater, modifyWatches]
  exact ⟨rfl, rfl, rfl⟩

/-- In the course of a reduction: the clauses kept and those not looked at are in use. -/
structure Sorting (os rest : List ClauseId) (b : Engine) (r : ReductionState) : Prop
    extends b.SameLists r.engine where
  booked : r.engine.Booked os (r.kept.toList ++ rest)

theorem Sorting.step {r : ReductionState} (h : Sorting os (id :: rest) b r)
    (half median i : Nat) (deviation : Float) :
    Sorting os rest b (reduceClause half median deviation r (id, i)) := by
  obtain ⟨used, learnt⟩ := (h.booked.filed.learnt id).mp (by simp)
  have shift : (r.kept.push id).toList ++ rest = r.kept.toList ++ id :: rest := by simp
  unfold reduceClause
  dsimp only
  split
  · exact ⟨h.toSameLists.trans ((sameLists_removeClause r.engine id).trans ⟨rfl, rfl, rfl⟩),
      (sameBooks_stats _ _).booked h.booked.removeLearnt⟩
  · have counted := SameBooks.modifyClause r.engine id fun c =>
      c.kindred_setFreezeCount (c.freezeCount + 1)
    have booked := counted.booked h.booked
    split
    · exact ⟨h.toSameLists.trans counted.kept.toSameLists, shift ▸ booked⟩
    next working =>
      have same := counted.kindred id
      refine ⟨(h.toSameLists.trans counted.kept.toSameLists).trans (sameLists_freezeClause _ id), ?_⟩
      rw [shift]
      exact booked.freezeClause (same.removed.trans used) (same.learnt.trans learnt)
        (same.frozen.trans (by simpa using working))
  · exact ⟨h.toSameLists, shift ▸ h.booked⟩

theorem Sorting.foldl (half median : Nat) (deviation : Float) (entries : List (ClauseId × Nat))
    {r : ReductionState} (h : Sorting os (entries.map Prod.fst ++ rest) b r) :
    Sorting os rest b (entries.foldl (reduceClause half median deviation) r) := by
  induction entries generalizing r with
  | nil => exact h
  | cons entry entries ih =>
    rw [List.foldl_cons]
    exact ih (h.step half median entry.2 deviation)

theorem booksKept_thawClause (learnt : (e.clause id).isLearnt = true)
    (used : (e.clause id).isRemoved = false) (frozen : (e.clause id).isFrozen = true) :
    e.BooksKept (e.thawClause id) ∧ ∀ x, x ≠ id → (e.thawClause id).clause x = e.clause x := by
  have thaws {lits : Array Lit} {n : Nat} (brought : bringNonFalse e.trail (e.clause id).lits = (lits, n)) :
      e.BooksKept (e.thawedAs id lits) ∧ ∀ x, x ≠ id → (e.thawedAs id lits).clause x = e.clause x := by
    obtain ⟨perm, -⟩ := bringNonFalse_spec brought
    refine ⟨⟨⟨rfl, rfl, rfl⟩, fun h => ?_⟩, fun x ne => ?_⟩
    · have counted := (h.balanced.counted used).frozen
      rw [Clause.share, used, learnt, frozen] at counted
      refine h.setFrozen used learnt (by rw [thawedAs]) ⟨_, kindred_setLits (e.clause id) perm, rfl⟩ rfl
        ?_ rfl rfl rfl
      rw [if_pos frozen]
      exact Nat.sub_add_cancel counted
    · rw [thawedAs, clause, ClauseArena.get_modify _ _ _ _ (slot_lt used), if_neg (Ne.symm ne), clause]
  generalize result : e.thawClause id = f
  cases thawClause_cases result with
  | unit brought => exact ⟨(thaws brought).1.trans (sameBooks_assign _ _ _).kept, (thaws brought).2⟩
  | attached brought => exact thaws brought

theorem booksKept_thawClauses (ids : List ClauseId) (distinct : ids.Nodup)
    (working : ∀ x ∈ ids, (e.clause x).isRemoved = false ∧ (e.clause x).isLearnt = true ∧
      (e.clause x).isFrozen = true) : e.BooksKept (ids.foldl Engine.thawClause e) := by
  induction ids generalizing e with
  | nil => exact .refl e
  | cons id ids ih =>
    obtain ⟨fresh, distinct⟩ := List.nodup_cons.mp distinct
    obtain ⟨used, learnt, frozen⟩ := working id List.mem_cons_self
    obtain ⟨kept, others⟩ := booksKept_thawClause learnt used frozen
    refine kept.trans (ih distinct fun x member => ?_)
    rw [others x fun same => fresh (same ▸ member)]
    exact working x (List.mem_cons_of_mem id member)

theorem booksKept_rewatchFrozen (e : Engine) : e.BooksKept e.rewatchFrozen := by
  unfold rewatchFrozen
  rw [← Array.foldl_toList]
  have cleared : e.BooksKept (e.modifyWatches Watches.clearFrozen) := booksKept_frozenLists e rfl
  generalize e.learnts.toList = ids
  generalize e.modifyWatches Watches.clearFrozen = g at cleared
  induction ids generalizing g with
  | nil => exact cleared
  | cons id ids ih =>
    refine ih (g.watchFrozen id) (cleared.trans ?_)
    unfold watchFrozen
    dsimp only
    split
    · exact booksKept_frozenLists g rfl
    · exact .refl g

/-- When a reduction begins, the clauses to decide about and the recent ones are in the books. -/
theorem Shelved.startSorting (h : e.Shelved) : Sorting e.originals.toList
    (e.ranked.zipIdx.map Prod.fst ++ e.learnts.toList.drop (e.learnts.toList.length - e.recentLearnts))
    e.appraised.2 { engine := e.appraised.2 } := by
  have perm : (e.ranked ++ e.learnts.toList.drop (e.learnts.toList.length - e.recentLearnts)).Perm
      e.learnts.toList := by
    conv_rhs => rw [← List.take_append_drop (e.learnts.toList.length - e.recentLearnts) e.learnts.toList]
    exact (perm_sortBy _ _).append_right _
  refine ⟨.refl _, ?_⟩
  rw [List.zipIdx_map_fst]
  refine Booked.permute ?_ perm
  exact { h.booked with
    balanced := { h.booked.balanced with }, filed := { h.booked.filed with } }

/-- The clauses that survive are in the books, and none of them is recent. -/
theorem Shelved.survived (h : e.Shelved) : e.survived.Shelved := by
  have done : Sorting e.originals.toList
      (e.learnts.toList.drop (e.learnts.toList.length - e.recentLearnts)) e.appraised.2 e.judged :=
    h.startSorting.foldl (e.ranked.length / 2) e.lbdMedian e.appraised.1
  have originals : e.judged.engine.originals = e.originals := done.originals
  have recentLearnts : e.judged.engine.recentLearnts = 0 := done.recentLearnts
  have booked := done.booked
  unfold Engine.survived
  generalize e.judged = r at *
  refine ⟨?_, ?_⟩
  · dsimp only
    rw [originals, Array.toList_append]
    exact { booked with balanced := { booked.balanced with }, filed := { booked.filed with } }
  · dsimp only
    rw [recentLearnts]
    exact Nat.zero_le _

theorem Shelved.awakened (h : e.Shelved) (settled : e.Settled F) (zero : e.trail.level = 0) :
    e.awakened.Shelved := by
  have survived := h.survived
  obtain ⟨pairs, relisted⟩ := settled.survived zero
  unfold Engine.awakened
  rw [← Array.foldl_toList]
  generalize e.survived = g at *
  have cleaned := Watches.cleanAll_cleaned g.watches g.arena
  have swept : g.SameBooks (g.modifyWatches (·.cleanAll g.arena)) :=
    .modifyWatches g _ cleaned.binary cleaned.frozen
  refine (survived.kept swept.kept).kept (booksKept_thawClauses _
    (survived.booked.filed.learnts_nodup.sublist relisted.among) fun x member => ?_)
  obtain ⟨used, learnt⟩ := (survived.booked.filed.learnt x).mp (relisted.among.subset member)
  exact ⟨used, learnt, relisted.frozen x (Array.mem_toList_iff.mp member)⟩

/-- A reduction leaves the books in order. -/
theorem Shelved.reduce (h : e.Shelved) (settled : e.Settled F) (zero : e.trail.level = 0) :
    e.reduce.Shelved := by
  have rewatched := (h.awakened settled zero).kept (booksKept_rewatchFrozen e.awakened)
  rw [reduce_eq]
  generalize e.awakened.rewatchFrozen = f at rewatched
  have same : f.SameBooks { f with policy := f.policy.noteReduction f.opts } := .others f
  exact rewatched.kept same.kept

/-! ### Simplification -/

/-- A clause that stays leaves the books as they are; one that goes is taken out of them. -/
theorem simplifyClause_books {outcome : Simplified} (used : (e.clause id).isRemoved = false)
    (result : e.simplifyClause id = (outcome, f)) :
    if outcome.stays then e.BooksKept f else (e.removeClause id).BooksKept f := by
  cases simplifyClause_cases result with
  | satisfied => exact .refl _
  | frozen | whole => exact .refl e
  | pair => exact booksKept_addBinary _ _ _ _
  | shorter =>
    have le : (dropFalse e.trail (e.clause id).lits).size ≤ (e.clause id).size := by
      have parts := congrArg List.length (List.take_append_drop 2 (e.clause id).lits.toList)
      have fewer := List.length_filter_le (fun l => !e.trail.isFalse l)
        ((e.clause id).lits.toList.drop 2)
      rw [List.length_append] at parts
      rw [← Array.length_toList, toList_dropFalse, List.length_append]
      rw [Array.length_toList] at parts
      exact Nat.le_trans (Nat.add_le_add_left fewer _) (Nat.le_of_eq parts)
    exact ⟨⟨rfl, rfl, rfl⟩, fun h => h.shrink used le rfl rfl rfl rfl⟩

/-- In the course of simplifying the learnt clauses, the `i`-th of which is next: as many recent ones
are kept or gone as were looked at. -/
structure SimplifyingLearnts (os rest : List ClauseId) (b : Engine) (firstRecent i : Nat)
    (s : SimplifyState) : Prop extends b.SameLists s.engine where
  booked : s.engine.Booked os (s.kept.toList ++ rest)
  recent : i - firstRecent ≤ s.kept.size + s.recentGone

theorem SimplifyingLearnts.step {firstRecent i : Nat} {s : SimplifyState}
    (h : SimplifyingLearnts os (id :: rest) b firstRecent i s) :
    SimplifyingLearnts os rest b firstRecent (i + 1) (Engine.simplifyLearnt firstRecent s (id, i)) := by
  have used := ((h.booked.filed.learnt id).mp (by simp)).1
  have recent := h.recent
  have shift : (s.kept.push id).toList ++ rest = s.kept.toList ++ id :: rest := by simp
  rcases stepped : s.engine.simplifyClause id with ⟨outcome, f⟩
  have books := simplifyClause_books used stepped
  simp only [Engine.simplifyLearnt, stepped]
  have noted : f.BooksKept (if outcome = .removed then
      f.modifyStats fun s => { s with removedLearnts := s.removedLearnts + 1 } else f) := by
    split
    · exact (sameBooks_stats f _).kept
    · exact .refl f
  generalize (if outcome = .removed then
    f.modifyStats fun s => { s with removedLearnts := s.removedLearnts + 1 } else f) = g at noted
  cases stays : outcome.stays with
  | true =>
    rw [stays, if_pos rfl] at books
    rw [if_pos rfl]
    refine ⟨h.toSameLists.trans (books.trans noted).toSameLists, ?_, ?_⟩
    · exact shift ▸ (books.trans noted).booked h.booked
    · rw [Array.size_push]
      dsimp only
      omega
  | false =>
    rw [stays, if_neg (by simp)] at books
    rw [if_neg (by simp)]
    refine ⟨h.toSameLists.trans
      ((sameLists_removeClause s.engine id).trans (books.trans noted).toSameLists), ?_, ?_⟩
    · exact (books.trans noted).booked h.booked.removeLearnt
    · dsimp only
      split <;> omega

theorem SimplifyingLearnts.foldl {firstRecent : Nat} (ids : List ClauseId) {i : Nat}
    {s : SimplifyState} (h : SimplifyingLearnts os ids b firstRecent i s) :
    SimplifyingLearnts os [] b firstRecent (i + ids.length)
      ((ids.zipIdx i).foldl (Engine.simplifyLearnt firstRecent) s) := by
  induction ids generalizing i s with
  | nil => exact h
  | cons id ids ih =>
    rw [List.zipIdx_cons, List.foldl_cons, List.length_cons, Nat.add_comm ids.length 1,
      ← Nat.add_assoc]
    exact ih h.step

/-- In the course of simplifying the original clauses. -/
structure SimplifyingOriginals (ks rest : List ClauseId) (b : Engine) (s : SimplifyState) : Prop
    extends b.SameLists s.engine where
  booked : s.engine.Booked (s.kept.toList ++ rest) ks

theorem SimplifyingOriginals.step {s : SimplifyState} (h : SimplifyingOriginals ks (id :: rest) b s) :
    SimplifyingOriginals ks rest b (Engine.simplifyOriginal s id) := by
  have used := ((h.booked.filed.original id).mp (by simp)).1
  have shift : (s.kept.push id).toList ++ rest = s.kept.toList ++ id :: rest := by simp
  rcases stepped : s.engine.simplifyClause id with ⟨outcome, f⟩
  have books := simplifyClause_books used stepped
  simp only [Engine.simplifyOriginal, stepped, modifyStats]
  have noted (stats : Statistics) : f.BooksKept { f with stats } := (sameBooks_stats f stats).kept
  cases stays : outcome.stays with
  | true =>
    rw [stays, if_pos rfl] at books
    rw [if_pos rfl]
    exact ⟨h.toSameLists.trans (books.trans (noted _)).toSameLists,
      shift ▸ (books.trans (noted _)).booked h.booked⟩
  | false =>
    rw [stays, if_neg (by simp)] at books
    rw [if_neg (by simp)]
    exact ⟨h.toSameLists.trans
      ((sameLists_removeClause s.engine id).trans (books.trans (noted _)).toSameLists),
      (books.trans (noted _)).booked h.booked.removeOriginal⟩

theorem SimplifyingOriginals.foldl (ids : List ClauseId) {s : SimplifyState}
    (h : SimplifyingOriginals ks ids b s) :
    SimplifyingOriginals ks [] b (ids.foldl Engine.simplifyOriginal s) := by
  induction ids generalizing s with
  | nil => exact h
  | cons id ids ih => exact ih h.step

/-- Other lists in the engine, which the books do not read. -/
theorem Booked.relist (h : e.Booked os ks) (originals learnts : Array ClauseId) (recentLearnts : Nat) :
    ({ e with originals, learnts, recentLearnts } : Engine).Booked os ks :=
  { h with balanced := { h.balanced with }, filed := { h.filed with } }

/-- A simplification of all clauses leaves the books in order. -/
theorem Shelved.simplifyAll (h : e.Shelved) : e.simplifyAll.Shelved := by
  unfold Engine.simplifyAll
  dsimp only
  have began : SimplifyingLearnts e.originals.toList e.learnts.toList e
      (e.learnts.toList.length - e.recentLearnts) 0 { engine := e } :=
    ⟨.refl e, h.booked, by simp⟩
  have done := began.foldl e.learnts.toList
  generalize e.learnts.toList.zipIdx.foldl _ _ = s at done ⊢
  have recent := done.recent
  have booked := done.booked
  have listed := h.recent
  rw [List.append_nil] at booked
  rw [Nat.zero_add, Array.length_toList] at recent
  have relisted := booked.relist s.engine.originals s.kept (s.engine.recentLearnts - s.recentGone)
  generalize again : ({ s.engine with
    learnts := s.kept, recentLearnts := s.engine.recentLearnts - s.recentGone } : Engine) = b
    at relisted ⊢
  have started : SimplifyingOriginals s.kept.toList e.originals.toList b { engine := b } :=
    ⟨.refl b, relisted⟩
  rw [← Array.foldl_toList, done.originals]
  have done' := started.foldl e.originals.toList
  generalize e.originals.toList.foldl _ _ = t at done' ⊢
  have booked' := done'.booked
  rw [List.append_nil] at booked'
  have learnts : t.engine.learnts = s.kept := done'.learnts.trans (by rw [← again])
  refine ⟨?_, ?_⟩
  · rw [learnts]
    exact booked'.relist t.kept s.kept t.engine.recentLearnts
  · change t.engine.recentLearnts ≤ t.engine.learnts.size
    rw [learnts, done'.recentLearnts, ← again]
    change s.engine.recentLearnts - s.recentGone ≤ _
    rw [done.recentLearnts]
    omega

/-! ### Vivification -/

theorem sameBooks_detachNow (e : Engine) (id : ClauseId) : e.SameBooks (e.detachNow id) :=
  .modifyWatches e (·.unwatchNow id ((e.clause id).lit 0) ((e.clause id).lit 1)) rfl rfl

theorem sameBooks_attach (e : Engine) (id : ClauseId) : e.SameBooks (e.attach id) :=
  .modifyWatches e (·.watch id ((e.clause id).lit 0) ((e.clause id).lit 1)) rfl rfl

theorem booksKept_addFact {aside : List ClauseId} {l : Lit} (h : (e.assign l .decision).Sound aside)
    (apart : (e.assign l .decision).FrozenApart) : e.BooksKept (e.addFact l) := by
  unfold addFact
  rcases run : (e.assign l .decision).propagate with ⟨f, _ | c⟩
  all_goals have kept := (sameBooks_assign e l .decision).kept.trans (booksKept_propagateFrom h apart run)
  · exact kept
  · exact kept.trans (show f.SameBooks { f with ok := false } from .others f).kept

variable {before after learnts : List ClauseId} {lits : Array Lit}

theorem booksKept_probeClause
    (h : e.Faithful F { originals := before ++ id :: after, learnts, pairs } e.trail.head)
    (zero : e.trail.level = 0) (propagated : e.trail.head = e.trail.lits.size)
    (result : e.probeClause id = (lits, f)) : e.BooksKept f := by
  obtain ⟨g, kept, -, rfl⟩ := h.exists_probed (P := e.BooksKept) zero propagated
    (sameBooks_detachNow e id).kept (fun x q kept => kept.trans (sameBooks_decide x q).kept)
    (fun sound apart kept propagates => kept.trans (booksKept_propagateFrom sound apart propagates))
    result
  exact kept.trans (sameBooks_cancelTo g 0).kept

theorem isLearnt_eq_false (h : e.Booked (before ++ id :: after) ks) :
    (e.clause id).isRemoved = false ∧ (e.clause id).isLearnt = false :=
  (h.filed.original id).mp (by simp)

/-- The books after an original clause is vivified. -/
theorem VivifiedTo.books (h : e.Upkept F (before ++ id :: after) learnts b) {stays : Bool}
    (result : VivifiedTo F before after learnts e id stays f)
    (books : e.Booked (before ++ id :: after) ks) :
    f.Booked ((if stays then before ++ [id] else before) ++ after) ks ∧ e.SameLists f := by
  have shift : (before ++ [id]) ++ after = before ++ id :: after := by simp
  obtain ⟨pairs, faithful⟩ := h.faithful
  have probed {pairs : List (Lit × Lit)} {lits : Array Lit} {g : Engine} (stats : Statistics)
      (tried : Tried F before after learnts pairs e id lits g) : e.BooksKept { g with stats } :=
    (booksKept_probeClause faithful h.zero h.propagated tried.probed).trans
      (sameBooks_stats g stats).kept
  -- A clause that stays is counted with its new size. One that does not is uncounted before a fact or a
  -- pair comes in its place.
  cases result with
  | idle => exact ⟨shift ▸ books, .refl e⟩
  | satisfied satisfied stats =>
    exact ⟨(sameBooks_stats _ stats).booked books.removeOriginal,
      (sameLists_removeClause e id).trans ⟨rfl, rfl, rfl⟩⟩
  | @fact _ _ g l stats tried list =>
    have assigned := (tried.shorter.stats stats).assigned list
    have kept := booksKept_addFact assigned.sound assigned.apart
    exact ⟨kept.booked ((probed stats tried).booked books).removeOriginal,
      (probed stats tried).toSameLists.trans ((sameLists_removeClause _ id).trans kept.toSameLists)⟩
  | @pair _ _ g a b stats tried list =>
    have kept := booksKept_addBinary (({ g with stats } : Engine).removeClause id) a b false
    exact ⟨kept.booked ((probed stats tried).booked books).removeOriginal,
      (probed stats tried).toSameLists.trans ((sameLists_removeClause _ id).trans kept.toSameLists)⟩
  | @shorter _ lits g stats tried size fewer =>
    have booked := (probed stats tried).booked books
    obtain ⟨used, original⟩ := isLearnt_eq_false booked
    have replaced : (({ g with stats } : Engine).replaceLits id lits).Booked
        (before ++ id :: after) ks := by
      refine booked.shrink used (Nat.le_of_lt fewer) rfl ?_ rfl rfl
      rw [original]
      rfl
    refine ⟨?_, (probed stats tried).toSameLists.trans ⟨rfl, rfl, rfl⟩⟩
    rw [if_pos rfl, shift]
    exact (sameBooks_attach _ id).booked replaced
  | @unchanged _ _ g tried size =>
    have booked := (probed g.stats tried).booked books
    refine ⟨?_, (probed g.stats tried).toSameLists.trans ⟨rfl, rfl, rfl⟩⟩
    rw [if_pos rfl, shift]
    exact (sameBooks_attach g id).booked booked

/-- A vivification leaves the books in order, even if it ends with a refutation. -/
theorem Shelved.vivifyAll (h : e.Shelved) (quiet : e.Quiet F) (minSize : Nat) :
    (e.vivifyAll minSize).Shelved := by
  obtain ⟨kept, g, vivified, booked, lists⟩ := quiet.vivifyAll_keeps
    (P := fun ids x => x.Booked ids e.learnts.toList ∧ e.SameLists x) minSize
    (fun upkept books vivified =>
      have ⟨booked, lists⟩ := vivified.books upkept books.1
      ⟨booked, books.2.trans lists⟩)
    ⟨h.booked, .refl e⟩
  rw [vivified]
  refine ⟨?_, ?_⟩
  · rw [← lists.learnts] at booked
    exact booked.relist kept g.learnts g.recentLearnts
  · change g.recentLearnts ≤ g.learnts.size
    rw [lists.recentLearnts, lists.learnts]
    exact h.recent

end Engine

end Cdcl
