import Cdcl.Proofs.ReductionPolicy
import Cdcl.Solver.Invariant

/-!
# The clauses learnt since the latest reduction

They are the last ones of the list, whatever a simplification removes from the middle of it, and none
of them is frozen. No clause was frozen more often than the options allow. This makes the policy of
reductions exact at every state in which one may happen.

## Main results

- `recents_simplifyAll`: a simplification may remove recent clauses, and adds none.
- `Turn.tempered`: no turn freezes a recent clause, or one too often.
- `Orderly.policed`: what a reduction does to each clause.
-/

namespace Cdcl

/-- Whatever a handle reads after the clauses were moved, another one read before. -/
theorem ClauseArena.Moved.get_or_absent {a b : ClauseArena} {ids : List ClauseId} (h : a.Moved ids b)
    (x : ClauseId) : (∃ id ∈ ids, b.get x = a.get id) ∨ b.get x = .absent := by
  rw [get_eq, ← Array.getElem?_toList, h.clauses, List.getElem?_map]
  cases place : ids[x.slot]? with
  | none => exact .inr rfl
  | some id => exact .inl ⟨id, List.mem_of_getElem? place, rfl⟩

namespace Engine

variable {F : List (List Lit)} {b e f g : Engine} {id : ClauseId}

/-! ### Simplification -/

/-- In the course of simplifying the learnt clauses: those of `done` that stay are listed, and the
recent ones among them come last. -/
def Sifting (firstRecent : Nat) (done : List ClauseId) (s : SimplifyState) : Prop :=
  ∃ old recents, s.kept.toList = old ++ recents ∧ recents.Sublist (done.drop firstRecent) ∧
    s.recentGone + recents.length = done.length - firstRecent

theorem simplifyLearnt_recentGone {s : SimplifyState} {outcome : Simplified}
    (stepped : s.engine.simplifyClause id = (outcome, f)) (firstRecent i : Nat) :
    (simplifyLearnt firstRecent s (id, i)).recentGone =
      if outcome.stays = false ∧ firstRecent ≤ i then s.recentGone + 1 else s.recentGone := by
  unfold simplifyLearnt
  dsimp only
  rw [stepped]
  dsimp only
  cases outcome.stays <;> simp

theorem Sifting.step {firstRecent : Nat} {done : List ClauseId} {s : SimplifyState}
    (h : Sifting firstRecent done s) (id : ClauseId) :
    Sifting firstRecent (done ++ [id]) (simplifyLearnt firstRecent s (id, done.length)) := by
  obtain ⟨old, recents, kept, sublist, count⟩ := h
  rcases stepped : s.engine.simplifyClause id with ⟨outcome, f⟩
  have listed := (simplifyLearnt_eq stepped firstRecent done.length).2
  have gone := simplifyLearnt_recentGone stepped firstRecent done.length
  unfold Sifting
  rw [listed, gone, kept, List.length_append, List.length_singleton]
  by_cases late : firstRecent ≤ done.length
  · rw [List.drop_append_of_le_length late]
    cases outcome.stays with
    | true =>
      refine ⟨old, recents ++ [id], List.append_assoc _ _ _, sublist.append (.refl _), ?_⟩
      rw [if_neg (by simp), List.length_append, List.length_singleton]
      omega
    | false =>
      refine ⟨old, recents, rfl, sublist.trans (List.sublist_append_left _ _), ?_⟩
      rw [if_pos ⟨rfl, late⟩]
      omega
  · have none : recents = [] := List.length_eq_zero_iff.mp (by omega)
    subst none
    refine ⟨_, [], (List.append_nil _).symm, List.nil_sublist _, ?_⟩
    rw [if_neg (c := outcome.stays = false ∧ _) fun both => late both.2]
    rw [List.length_nil] at count ⊢
    omega

theorem Sifting.foldl {firstRecent : Nat} (ids : List ClauseId) {done : List ClauseId}
    {s : SimplifyState} (h : Sifting firstRecent done s) :
    Sifting firstRecent (done ++ ids)
      ((ids.zipIdx done.length).foldl (simplifyLearnt firstRecent) s) := by
  induction ids generalizing done s with
  | nil => rwa [List.append_nil]
  | cons id ids ih =>
    have rest := ih (h.step id)
    rwa [List.length_append, List.length_singleton, List.append_assoc] at rest

/-- Simplification removes some of the recent clauses, and lists the others as recent ones again. -/
theorem recents_simplifyAll (h : e.Shelved) : e.simplifyAll.recents.Sublist e.recents := by
  unfold simplifyAll
  dsimp only
  have began : SimplifyingLearnts e.originals.toList e.learnts.toList e
      (e.learnts.toList.length - e.recentLearnts) 0 { engine := e } := ⟨.refl e, h.booked, by simp⟩
  have same := began.foldl e.learnts.toList
  have nothing : Sifting (e.learnts.toList.length - e.recentLearnts) [] { engine := e } :=
    ⟨[], [], rfl, List.nil_sublist _, by simp⟩
  -- The learnt clauses come first: what is kept of the recent ones is counted down by those that go.
  have sifted := nothing.foldl e.learnts.toList
  rw [List.nil_append, List.length_nil] at sifted
  generalize e.learnts.toList.zipIdx.foldl _ _ = s at same sifted ⊢
  obtain ⟨old, recents, kept, sublist, count⟩ := sifted
  have relisted := Booked.relist (e := s.engine) (by simpa using same.booked) s.engine.originals s.kept
    (s.engine.recentLearnts - s.recentGone)
  generalize again : ({ s.engine with
    learnts := s.kept, recentLearnts := s.engine.recentLearnts - s.recentGone } : Engine) = b
    at relisted ⊢
  have started : SimplifyingOriginals s.kept.toList e.originals.toList b { engine := b } :=
    ⟨.refl b, relisted⟩
  rw [← Array.foldl_toList, same.originals]
  have same' := started.foldl e.originals.toList
  generalize e.originals.toList.foldl _ _ = t at same' ⊢
  have learnts : t.engine.learnts.toList = old ++ recents := by
    rw [same'.learnts, ← again]
    exact kept
  have recentLearnts : t.engine.recentLearnts = recents.length := by
    rw [same'.recentLearnts, ← again]
    change s.engine.recentLearnts - s.recentGone = _
    have listed := h.recent
    rw [← Array.length_toList] at listed
    rw [same.recentLearnts]
    omega
  change (t.engine.learnts.toList.drop (t.engine.learnts.toList.length - t.engine.recentLearnts)).Sublist _
  rw [learnts, recentLearnts, List.length_append, Nat.add_sub_cancel, List.drop_left]
  exact sublist

theorem SimplifyEffects.thaws (effects : SimplifyEffects e f) : e.Thaws f := by
  induction effects with
  | refl => exact .refl e
  | tail _ effect ih =>
    refine ih.trans ?_
    cases effect with
    | clause => exact thaws_simplifyClause rfl
    | relist => exact .of_eq rfl

/-! ### Vivification and new clauses -/

theorem VivifiedTo.thaws {before after learnts : List ClauseId}
    (h : e.Upkept F (before ++ id :: after) learnts b) {stays : Bool}
    (result : VivifiedTo F before after learnts e id stays f) : e.Thaws f := by
  obtain ⟨pairs, faithful⟩ := h.faithful
  have probed {pairs : List (Lit × Lit)} {lits : Array Lit} {g : Engine} (stats : Statistics)
      (tried : Tried F before after learnts pairs e id lits g) : e.Thaws { g with stats } := by
    obtain ⟨x, thaws, -, rfl⟩ := faithful.exists_probed (P := e.Thaws) h.zero h.propagated
      (.of_eq rfl) (fun x q thaws => thaws.andThen rfl)
      (fun _ _ thaws propagates => thaws.trans (thaws_propagateFrom propagates)) tried.probed
    exact thaws.andThen (congrArg _ (x.arena_cancelTo 0))
  cases result with
  | idle => exact .refl e
  | satisfied => exact (thaws_removeClause e id).andThen rfl
  | @fact _ _ g l stats tried =>
    exact (probed stats tried).trans ((thaws_removeClause _ id).trans (thaws_addFact _ l))
  | @pair _ _ g a b stats tried =>
    have removed := (probed stats tried).trans (thaws_removeClause _ id)
    obtain ⟨tally, same⟩ := (({ g with stats } : Engine).removeClause id).addBinary_eq a b false
    rw [same]
    exact removed.andThen rfl
  | @shorter _ lits g stats tried =>
    exact ((probed stats tried).trans (thaws_replaceLits _ id lits)).andThen rfl
  | @unchanged _ _ g tried => exact (probed g.stats tried).andThen rfl

theorem Quiet.thaws_vivifyAll (quiet : e.Quiet F) (minSize : Nat) (shelved : e.Shelved) :
    e.Thaws (e.vivifyAll minSize) ∧ (e.vivifyAll minSize).learnts = e.learnts ∧
      (e.vivifyAll minSize).recentLearnts = e.recentLearnts := by
  obtain ⟨kept, g, vivified, -, thaws, lists⟩ := quiet.vivifyAll_keeps
    (P := fun os x => x.Booked os e.learnts.toList ∧ e.Thaws x ∧ e.SameLists x) minSize
    (fun upkept ⟨booked, thaws, lists⟩ vivified =>
      have books := vivified.books upkept booked
      ⟨books.1, thaws.trans (vivified.thaws upkept), lists.trans books.2⟩)
    ⟨shelved.booked, .refl e, .refl e⟩
  rw [vivified]
  exact ⟨thaws.andThen rfl, lists.learnts, lists.recentLearnts⟩

theorem Settled.thaws_addNormalized (settled : e.Settled F) (zero : e.trail.level = 0)
    {c lits : List Lit} (normalized : Solver.Normalized e.trail c lits)
    (bound : ∀ l ∈ c, l.var.index < e.numVars) (result : Solver.addNormalized e lits = .ok f) :
    e.Thaws f ∧ f.learnts = e.learnts ∧ f.recentLearnts = e.recentLearnts := by
  obtain ⟨pairs, faithful⟩ := settled.faithful
  cases added_of_addNormalized result with
  | empty => exact ⟨.of_eq rfl, rfl, rfl⟩
  | @fact l =>
    have assigned := faithful.toRegular.assignUnit zero normalized bound rfl
    have books := booksKept_addFact assigned.sound assigned.apart
    exact ⟨thaws_addFact e l, books.learnts, books.recentLearnts⟩
  | @pair a b =>
    obtain ⟨tally, same⟩ := e.addBinary_eq a b false
    rw [same]
    exact ⟨.of_eq rfl, rfl, rfl⟩
  | long size stored =>
    obtain ⟨id, arena, allocated, rfl⟩ := storeOriginal_eq stored
    exact ⟨(Thaws.alloc allocated).andThen rfl, rfl, rfl⟩

/-! ### Learning -/

theorem recents_storeLearnt (shelved : e.Shelved) {lits : Array Lit} {lbd : Nat}
    (result : e.storeLearnt lits lbd = .ok (id, f)) :
    f.recents = e.recents ++ [id] ∧ (f.clause id).isFrozen = false := by
  obtain ⟨-, -, recentLearnts, learnts, -⟩ := shelved.booked.storeLearnt result
  refine ⟨?_, ?_⟩
  · have listed := shelved.recent
    rw [← Array.length_toList] at listed
    unfold recents
    rw [learnts, recentLearnts, Array.toList_push, List.length_append, List.length_singleton,
      Nat.add_sub_add_right, List.drop_append_of_le_length (Nat.sub_le _ _)]
  · -- A handle that is not in use yet reads as no clause, and so not as a frozen one.
    have absent : e.clause id = .absent := by
      obtain ⟨arena, allocated, -⟩ := storeLearnt_eq result
      exact clause_eq_absent (ClauseArena.adds_alloc allocated).fresh.ge
    refine Bool.eq_false_iff.mpr fun frozen => ?_
    have before := (thaws_storeLearnt result).frozen id frozen
    rw [absent] at before
    cases before

theorem recents_handleConflict (shelved : e.Shelved) {c : Conflict} {handled : Handled}
    (result : e.handleConflict c = .ok (handled, f)) :
    ∀ id ∈ f.recents, id ∈ e.recents ∨ (f.clause id).isFrozen = false := by
  have same {x y : Engine} (books : x.SameBooks y) : y.recents = x.recents := by
    unfold recents
    rw [books.kept.learnts, books.kept.recentLearnts]
  cases handleConflict_cases result with
  | full analyzed => exact fun id member => .inl (same (sameBooks_back analyzed) ▸ member)
  | @learnt a g d analyzed added =>
    have books := sameBooks_back analyzed
    obtain ⟨policy, stats, noted, -⟩ := noteConflict_eq g.decayActivities d.lbd e.trail.size
    rw [noted]
    change ∀ id ∈ g.recents, id ∈ e.recents ∨ (g.clause id).isFrozen = false
    rw [← same books]
    cases addLearnt_cases added with
    | empty => exact fun id member => .inl member
    | unit => exact fun id member => .inl member
    | pair =>
      obtain ⟨tally, pair⟩ := (a.cancelTo d.level).addBinary_eq _ _ true
      rw [pair]
      exact fun id member => .inl member
    | @stored _ _ _ _ _ k _ stored =>
      -- Only the clause that was learnt is new, and it is not frozen.
      obtain ⟨recents, thawed⟩ := recents_storeLearnt (shelved.kept books.kept) stored
      intro x member
      change x ∈ k.recents at member
      rw [recents, List.mem_append, List.mem_singleton] at member
      rcases member with old | rfl
      · exact .inl old
      · exact .inr thawed

/-! ### Turns -/

/-- No clause was frozen too often, and no recent one is frozen. -/
structure Tempered (e : Engine) : Prop where
  /-- Freeze counts stop above the number allowed. -/
  limit : e.opts.maxFreeze < Clause.maxLbd
  counts : ∀ id, (e.clause id).freezeCount ≤ e.opts.maxFreeze
  recents : ∀ id ∈ e.recents, (e.clause id).isFrozen = false

theorem tempered_initial (opts : Options) (checked : opts.check = true) :
    (initial opts).Tempered where
  limit := by
    simp only [Options.check, Bool.and_eq_true, decide_eq_true_eq] at checked
    exact checked.1.1.1.2
  counts := fun id => by
    rw [show (initial opts).clause id = .absent from clause_eq_absent (Nat.zero_le _)]
    exact Nat.zero_le _
  recents := nofun

/-- Nothing was frozen, and no older clause became a recent one. -/
theorem Tempered.thaws (h : e.Tempered) (thaws : e.Thaws f) (opts : f.opts = e.opts)
    (recents : ∀ id ∈ f.recents, id ∈ e.recents ∨ (f.clause id).isFrozen = false) : f.Tempered where
  limit := opts ▸ h.limit
  counts := fun id => by
    rw [thaws.counts, opts]
    exact h.counts id
  recents := by
    intro id member
    rcases recents id member with old | thawed
    · have working := h.recents id old
      exact Bool.eq_false_iff.mpr fun frozen => by
        rw [thaws.frozen id frozen] at working
        cases working
    · exact thawed

theorem Tempered.thaws_listed (h : e.Tempered) (thaws : e.Thaws f) (opts : f.opts = e.opts)
    (learnts : f.learnts = e.learnts) (recentLearnts : f.recentLearnts = e.recentLearnts) :
    f.Tempered := by
  refine h.thaws thaws opts fun id member => .inl ?_
  unfold Engine.recents at member
  rwa [learnts, recentLearnts] at member

theorem freezeCount_setFreezeCount_le (c : Clause) (n : Nat) : (c.setFreezeCount n).freezeCount ≤ n := by
  rcases c with ⟨lits, mark, _ | info, relocated⟩
  · exact Nat.zero_le n
  · exact Nat.min_le_left n Clause.maxLbd

theorem freezeCount_setFrozen (c : Clause) (b : Bool) : (c.setFrozen b).freezeCount = c.freezeCount :=
  c.freezeCount_modifyLearnt fun _ => rfl

theorem Restored.freezeCount {c d : Clause} (h : Restored c d) : d.freezeCount = c.freezeCount := by
  obtain ⟨lits, -, rfl⟩ := h
  exact freezeCount_setFrozen (c.setLits lits) false

theorem ReducedTo.tempered {ranked kept : List ClauseId} (h : e.ReducedTo ranked kept f)
    (before : e.Tempered) : f.Tempered where
  limit := h.opts ▸ before.limit
  counts := by
    intro id
    rw [h.opts]
    have bound := before.counts id
    have treated := h.treated id
    generalize f.clause id = c at treated ⊢
    cases treated with
    | untouched => exact bound
    | removed => exact bound
    | frozen _ _ _ _ _ count =>
      rw [freezeCount_setFrozen]
      exact (freezeCount_setFreezeCount_le _ _).trans count
    | thawed _ _ _ restored => rwa [restored.freezeCount]
  recents := by
    intro id member
    unfold recents at member
    rw [h.recentLearnts, Nat.sub_zero, List.drop_length] at member
    cases member

/-- New handles for the clauses in use. -/
theorem Tempered.compact (h : e.Tempered) (orderly : e.Orderly) (result : e.compact = .ok f) :
    f.Tempered := by
  obtain ⟨ids, b, reasons, moved, held, -, rfl⟩ :=
    orderly.sound.compact_eq orderly.shelved.booked.filed.listsUsed result
  refine ⟨h.limit, ?_, ?_⟩
  · intro x
    change (b.get x).freezeCount ≤ e.opts.maxFreeze
    rcases moved.get_or_absent x with ⟨id, -, reads⟩ | absent
    · rw [reads]
      exact h.counts id
    · rw [absent]
      exact Nat.zero_le _
  · intro x member
    change x ∈ (e.learnts.map (ClauseArena.newId ids)).toList.drop
      ((e.learnts.map (ClauseArena.newId ids)).toList.length - e.recentLearnts) at member
    rw [Array.toList_map, List.length_map, ← List.map_drop] at member
    obtain ⟨id, recent, rfl⟩ := List.mem_map.mp member
    have inside : id ∈ ids := held.learnts id (Array.mem_toList_iff.mp (List.mem_of_mem_drop recent))
    change (b.get (ClauseArena.newId ids id)).isFrozen = false
    rw [moved.get inside]
    exact h.recents id recent

theorem Chore.tempered (chore : Chore e f) (orderly : e.Orderly) (h : e.Tempered) : f.Tempered := by
  have opts := chore.opts orderly
  cases chore with
  | noted | dated => exact h.thaws_listed (.of_eq rfl) opts rfl rfl
  | rebuild => exact h.thaws_listed (.of_eq rfl) opts rfl rfl
  | setDecision => exact h.thaws_listed (.of_eq rfl) opts rfl rfl
  | setPolarity => exact h.thaws_listed (.of_eq rfl) opts rfl rfl
  | cancelTo _ level =>
    have books := (sameBooks_cancelTo e level).kept
    exact h.thaws_listed (.of_eq (congrArg _ (e.arena_cancelTo level))) opts books.learnts
      books.recentLearnts
  | grown => exact h.thaws_listed (.of_eq rfl) opts rfl rfl
  | propagate result =>
    have books := booksKept_propagateFrom orderly.sound orderly.apart result
    exact h.thaws_listed (thaws_propagateFrom result) opts books.learnts books.recentLearnts
  | simplifyAll quiet =>
    exact h.thaws e.effects_simplifyAll.thaws opts fun id member =>
      .inl ((recents_simplifyAll orderly.shelved).subset member)
  | reduce settled zero =>
    have filed := orderly.shelved.booked.filed
    obtain ⟨ranked, kept, reduced⟩ := e.reducedTo_reduce filed.learnts_nodup fun x member =>
      ((filed.learnt x).mp member).1
    exact reduced.tempered h
  | vivifyAll quiet minSize =>
    obtain ⟨thaws, learnts, recentLearnts⟩ := quiet.thaws_vivifyAll minSize orderly.shelved
    exact h.thaws_listed thaws opts learnts recentLearnts
  | compact settled result => exact h.compact orderly result
  | add settled zero normalized bound result =>
    obtain ⟨thaws, learnts, recentLearnts⟩ := settled.thaws_addNormalized zero normalized bound result
    exact h.thaws_listed thaws opts learnts recentLearnts

/-- No turn freezes a recent clause, or a clause too often. -/
theorem Turn.tempered (turn : Turn e f) (orderly : e.Orderly) (h : e.Tempered) : f.Tempered := by
  have opts := turn.opts orderly
  cases turn with
  | chore chore => exact chore.tempered orderly h
  | openLevel => exact h.thaws_listed (.of_eq rfl) opts rfl rfl
  | decide => exact h.thaws_listed (.of_eq rfl) opts rfl rfl
  | exhausted result =>
    rw [pickLit_eq result] at opts ⊢
    exact h.thaws_listed (.of_eq rfl) opts rfl rfl
  | picked _ _ _ result =>
    rw [pickLit_eq result] at opts ⊢
    exact h.thaws_listed (.of_eq rfl) opts rfl rfl
  | blame fails result =>
    have same : f.arena = e.arena ∧ f.learnts = e.learnts ∧ f.recentLearnts = e.recentLearnts := by
      unfold analyzeFinal at result
      dsimp only at result
      split at result <;> cases result
      · exact ⟨rfl, rfl, rfl⟩
      · exact ⟨rfl, rfl, rfl⟩
    exact h.thaws_listed (.of_eq (congrArg _ same.1)) opts same.2.1 same.2.2
  | learn result settled descends =>
    exact h.thaws (thaws_handleConflict result) opts (recents_handleConflict orderly.shelved result)

/-! ### The policy -/

/-- What a reduction of the engine `e` may do. It ranks the clauses learnt before the latest reduction;
those in `kept` stay. -/
structure Policed (e : Engine) (ranked kept : List ClauseId) (f : Engine) : Prop where
  ranking : ranked.Perm e.older ∧ ranked.Pairwise e.RanksBefore
  /-- The clauses that stay are listed in their new order, and those learnt since after them. -/
  learnts : kept.Sublist ranked ∧ f.learnts.toList = kept ++ e.recents
  recents : ∀ id ∈ e.recents, f.clause id = e.clause id ∧ (f.clause id).isFrozen = false
  locked : ∀ id, (e.clause id).isRemoved = false → e.isLocked id = true →
    (f.clause id).isRemoved = false ∧ (f.clause id).isFrozen = false
  /-- A clause is removed as one of the worse half with too many levels, as one that is satisfied, or
  as one that was frozen as often as allowed. -/
  removed : ∀ id, (e.clause id).isRemoved = false → (f.clause id).isRemoved = true →
    id ∈ ranked ∧ e.isLocked id = false ∧
      (id ∈ ranked.drop (ranked.length / 2) ∧ e.lbdMedian < (e.clause id).lbd ∨
        (∃ l ∈ (e.clause id).lits, e.trail.isTrue l = true) ∨
        (e.clause id).freezeCount = e.opts.maxFreeze)
  frozen : ∀ id, (f.clause id).isRemoved = false → (f.clause id).isFrozen = true →
    id ∈ ranked ∧ e.isLocked id = false ∧ 3 ≤ (e.clause id).lbd ∧
      (∀ l ∈ (e.clause id).lits, e.trail.isTrue l = false) ∧
      (f.clause id).freezeCount = (e.clause id).freezeCount + 1
  /-- A clause that works is one of those there were, its literals in another order perhaps. -/
  working : ∀ id, (f.clause id).isRemoved = false → (f.clause id).isFrozen = false →
    f.clause id = e.clause id ∨ (e.clause id).isFrozen = true ∧ Restored (e.clause id) (f.clause id)
  counts : ∀ id, (f.clause id).freezeCount ≤ f.opts.maxFreeze
  originals : f.originals = e.originals ∧ ∀ id ∈ e.originals, f.clause id = e.clause id
  binary : f.watches.binary = e.watches.binary

theorem Restored.same {c d : Clause} (h : Restored c d) :
    d.isRemoved = c.isRemoved ∧ d.isFrozen = false := by
  obtain ⟨lits, -, rfl⟩ := h
  exact ⟨rfl, Clause.isFrozen_thawed _⟩

theorem freezeCount_setFreezeCount (c : Clause) {n : Nat} (learnt : c.isLearnt = true)
    (small : n ≤ Clause.maxLbd) : (c.setFreezeCount n).freezeCount = n := by
  rcases c with ⟨lits, mark, _ | info, relocated⟩
  · cases learnt
  · exact Nat.min_eq_left small

namespace Treated

variable {ranked kept : List ClauseId} {x : ClauseId} {c : Clause} (h : e.Treated ranked kept x c)
  (unfrozen : (e.clause x).isRemoved = false → x ∉ ranked → (e.clause x).isFrozen = false)

include h

theorem of_unranked (absent : x ∉ ranked) : c = e.clause x := by
  cases h with
  | untouched => rfl
  | removed listed => exact absurd listed absent
  | frozen listed => exact absurd listed absent
  | thawed listed => exact absurd listed absent

theorem of_removed (used : (e.clause x).isRemoved = false) (gone : c.isRemoved = true) :
    x ∈ ranked ∧ e.isLocked x = false ∧
      (x ∈ ranked.drop (ranked.length / 2) ∧ e.lbdMedian < (e.clause x).lbd ∨
        e.isSatisfied x = true ∨ e.opts.maxFreeze ≤ (e.clause x).freezeCount) := by
  cases h with
  | untouched => exact nomatch used.symm.trans gone
  | removed listed _ unlocked reason => exact ⟨listed, unlocked, reason⟩
  | frozen => exact nomatch used.symm.trans gone
  | thawed _ _ _ restored => exact nomatch used.symm.trans (restored.same.1.symm.trans gone)

include unfrozen

theorem of_locked (used : (e.clause x).isRemoved = false) (locked : e.isLocked x = true) :
    c.isRemoved = false ∧ c.isFrozen = false := by
  cases h with
  | untouched working =>
    refine ⟨used, ?_⟩
    by_cases listed : x ∈ ranked
    · exact (working listed).2
    · exact unfrozen used listed
  | removed _ _ unlocked => exact nomatch unlocked.symm.trans locked
  | frozen _ _ unlocked => exact nomatch unlocked.symm.trans locked
  | thawed _ _ _ restored => exact ⟨restored.same.1.trans used, restored.same.2⟩

theorem of_frozen (used : c.isRemoved = false) (frozen : c.isFrozen = true) :
    x ∈ ranked ∧ e.isLocked x = false ∧ 3 ≤ (e.clause x).lbd ∧ e.isSatisfied x = false ∧
      (e.clause x).freezeCount < e.opts.maxFreeze ∧
      c.freezeCount = ((e.clause x).setFreezeCount ((e.clause x).freezeCount + 1)).freezeCount := by
  cases h with
  | untouched working =>
    by_cases listed : x ∈ ranked
    · exact nomatch frozen.symm.trans (working listed).2
    · exact nomatch frozen.symm.trans (unfrozen used listed)
  | removed => cases used
  | frozen listed _ unlocked unsatisfied lbd count =>
    exact ⟨listed, unlocked, lbd, unsatisfied, count, freezeCount_setFrozen _ true⟩
  | thawed _ _ _ restored => exact nomatch frozen.symm.trans restored.same.2

omit unfrozen in
theorem of_working (learnt : x ∈ ranked → (e.clause x).isLearnt = true) (used : c.isRemoved = false)
    (working : c.isFrozen = false) :
    c = e.clause x ∨ (e.clause x).isFrozen = true ∧ Restored (e.clause x) c := by
  cases h with
  | untouched => exact .inl rfl
  | removed => cases used
  | frozen listed =>
    have counted : ((e.clause x).setFreezeCount ((e.clause x).freezeCount + 1)).isLearnt = true :=
      (Option.isSome_map).trans (learnt listed)
    rw [Clause.isFrozen_setFrozen, counted] at working
    cases working
  | thawed _ _ frozen restored => exact .inr ⟨frozen, restored⟩

end Treated

/-- A reduction of an engine in order keeps to the policy. -/
theorem Orderly.policed (orderly : e.Orderly) (h : e.Tempered) :
    ∃ ranked kept, e.Policed ranked kept e.reduce := by
  have filed := orderly.shelved.booked.filed
  obtain ⟨ranked, kept, reduced⟩ := e.reducedTo_reduce filed.learnts_nodup fun x member =>
    ((filed.learnt x).mp member).1
  generalize e.reduce = f at reduced
  have learnt (x : ClauseId) (listed : x ∈ ranked) : (e.clause x).isLearnt = true :=
    ((filed.learnt x).mp (List.mem_of_mem_take (reduced.perm.subset listed))).2
  -- A recent clause is not ranked, and a frozen one is never recent.
  have unranked (x : ClauseId) (member : x ∈ e.recents) : x ∉ ranked := by
    intro listed
    have apart := (List.nodup_append.mp (e.older_append_recents ▸ filed.learnts_nodup)).2.2
    exact apart x (reduced.perm.subset listed) x member rfl
  have unfrozen (x : ClauseId) (used : (e.clause x).isRemoved = false) (absent : x ∉ ranked) :
      (e.clause x).isFrozen = false := by
    refine Bool.eq_false_iff.mpr fun frozen => ?_
    have listed := (filed.learnt x).mpr ⟨used, Clause.isLearnt_of_isFrozen frozen⟩
    rw [← e.older_append_recents, List.mem_append] at listed
    rcases listed with old | recent
    · exact absent (reduced.perm.mem_iff.mpr old)
    · exact nomatch frozen.symm.trans (h.recents x recent)
  have satisfied (x : ClauseId) : e.isSatisfied x = true ↔
      ∃ l ∈ (e.clause x).lits, e.trail.isTrue l = true := by
    rw [isSatisfied, Trail.satisfies, Array.any_eq_true']
  refine ⟨ranked, kept, ?_⟩
  constructor
  case ranking => exact ⟨reduced.perm, reduced.ordered⟩
  case learnts => exact ⟨reduced.sublist, reduced.learnts⟩
  case recents =>
    intro id member
    have reads := (reduced.treated id).of_unranked (unranked id member)
    exact ⟨reads, reads ▸ h.recents id member⟩
  case locked =>
    intro id used locked
    exact (reduced.treated id).of_locked (unfrozen id) used locked
  case removed =>
    intro id used gone
    obtain ⟨listed, unlocked, reason⟩ := (reduced.treated id).of_removed used gone
    refine ⟨listed, unlocked, reason.imp_right (Or.imp (satisfied id).mp fun count => ?_)⟩
    -- A count is never above its limit, so that it is the limit.
    exact Nat.le_antisymm (h.counts id) count
  case frozen =>
    intro id used frozen
    obtain ⟨listed, unlocked, lbd, unsatisfied, count, counted⟩ :=
      (reduced.treated id).of_frozen (unfrozen id) used frozen
    refine ⟨listed, unlocked, lbd, fun l member => ?_, ?_⟩
    · exact Bool.eq_false_iff.mpr fun isTrue =>
        nomatch unsatisfied.symm.trans ((satisfied id).mpr ⟨l, member, isTrue⟩)
    · rw [counted]
      exact freezeCount_setFreezeCount _ (learnt id listed) (Nat.succ_le_of_lt (count.trans h.limit))
  case working =>
    intro id used working
    exact (reduced.treated id).of_working (learnt id) used working
  case counts => exact (reduced.tempered h).counts
  case originals =>
    refine ⟨reduced.originals, fun id member => (reduced.treated id).of_unranked fun listed => ?_⟩
    have original := ((filed.original id).mp (Array.mem_toList_iff.mpr member)).2
    exact nomatch original.symm.trans (learnt id listed)
  case binary => exact reduced.binary

end Engine

namespace Solver

open Engine

variable {F : List (List Lit)} {s : Solver}

/-- What holds at first and is kept by every turn holds wherever the solver is about to simplify. -/
theorem Simplifies.keeps {P : Engine → Prop}
    (start : ∀ opts : Options, opts.check = true → P (initial opts))
    (step : ∀ {e f}, Turn e f → e.Orderly → P e → P f) (h : Simplifies F s) :
    s.engine.Orderly ∧ P s.engine := by
  induction h with
  | asked before => exact before.keeps start step
  | @opening s t u as before ok assumed goes =>
    obtain ⟨rfl, known⟩ := addAssumptions_eq assumed
    rw [show u.engine = (s.assuming as).begun.engine from (noted_stopRequested goes).engine]
    have kept := before.keeps start step
    exact (chores_begun (s.assuming as)).rounds.turns.keeps step kept
  | again before simplified ih =>
    obtain ⟨-, ⟨log, working⟩, zero⟩ := before.orderly
    exact (chores_simplify working.settled zero simplified).rounds.turns.keeps step ih
  | searching before proceeds =>
    exact (rounds_proceeds proceeds).turns.keeps step (before.keeps start step)

/-- After a check for garbage the engine is the same, up to new handles. -/
theorem settle_of_orderly (h : s.engine.Orderly) : s.settle.1 = .ok true ∧
    (s.settle.2.engine = s.engine ∨
      ∃ new, s.engine.compact = .ok s.settle.2.engine ∧ s.engine.Compacted new s.settle.2.engine) := by
  obtain ⟨f, new, result, compacted⟩ := h.compacts
  unfold settle collectGarbage
  by_cases wasteful : s.engine.isWasteful = true
  · rw [if_pos wasteful, result]
    dsimp only
    rw [(noted_notify { s with engine := f } _).engine]
    exact ⟨rfl, .inr ⟨new, rfl, compacted⟩⟩
  · rw [if_neg wasteful]
    exact ⟨rfl, .inl rfl⟩

/-- A reduction does what its policy says, and no clause is ever frozen too often. -/
theorem reductions_policed :
    (∀ s, Simplifies F s →
      (∃ ranked kept, s.engine.Policed ranked kept s.engine.reduce) ∧
      s.reduce.1 = .ok true ∧
      (s.reduce.2.engine = s.engine.reduce ∨ ∃ new, s.engine.reduce.compact = .ok s.reduce.2.engine ∧
        s.engine.reduce.Compacted new s.reduce.2.engine)) ∧
    ∀ e, Pause F e → (∀ id, (e.clause id).freezeCount ≤ e.opts.maxFreeze) ∧
      ∃ ranked kept, e.Policed ranked kept e.reduce := by
  refine ⟨fun s h => ?_, fun e h => ?_⟩
  case refine_2 =>
    obtain ⟨orderly, tempered⟩ := h.keeps tempered_initial Turn.tempered
    exact ⟨tempered.counts, orderly.policed tempered⟩
  obtain ⟨orderly, tempered⟩ := h.keeps tempered_initial Turn.tempered
  obtain ⟨-, ⟨log, working⟩, zero⟩ := h.orderly
  refine ⟨orderly.policed tempered, ?_⟩
  have noted := noted_reduce s
  have after := (Chore.reduce working.settled zero).orderly orderly
  have engine : _ = s.engine.reduce := noted.engine
  have settled := settle_of_orderly (engine.symm ▸ after)
  rwa [engine] at settled

/-- Clauses from which two short solves learn four. -/
def gradedClauses : List (List Lit) :=
  clausesOf [[10, 6, -2], [2, -1, 3], [-3, 2], [-4, 3, 8], [1, -2, 6, -5], [9, -7, 1], [5, 2],
    [-8, -10, -2], [-5, -6], [-8, -5, 1], [10, -9], [-6, 4], [-1, -4], [-4, 10]]

/-- Of the three older clauses that are learnt, the first one was frozen. A reduction puts it back to work,
freezes the second one and removes the third one. The fourth one is recent. -/
theorem exists_graded : ∃ s, History gradedClauses s ∧ s.engine.ok = true ∧ s.checkInvariants = true ∧
    s.engine.trail.lits = #[.ofDimacs (-8)] ∧
    s.engine.older = [⟨7⟩, ⟨8⟩, ⟨9⟩] ∧ s.engine.recents = [⟨10⟩] ∧
    s.engine.reduce.learnts = #[⟨8⟩, ⟨7⟩, ⟨10⟩] ∧
    ((s.engine.clause ⟨7⟩).isFrozen = true ∧ (s.engine.reduce.clause ⟨7⟩).isAttached = true) ∧
    ((s.engine.clause ⟨8⟩).isFrozen = false ∧ (s.engine.reduce.clause ⟨8⟩).isRemoved = false ∧
      (s.engine.reduce.clause ⟨8⟩).isFrozen = true) ∧
    (s.engine.clause ⟨9⟩).isRemoved = false ∧ (s.engine.reduce.clause ⟨9⟩).isRemoved = true := by
  have passes : sessionPasses
      { reduceFirst := 1, reduceIncrement := 1, restarts := .everyConflict, phaseSaving := 1 } 40
      (giving 10 gradedClauses ++
        [.obey (.limitConflicts 2), .solve [.ofDimacs (-1), .ofDimacs 4],
          .obey (.limitConflicts 2), .solve [.ofDimacs 8, .ofDimacs 7],
          .obey (.setPolarity ⟨1⟩ false)])
      gradedClauses
      (fun s => s.engine.ok && (s.checkInvariants && (s.engine.trail.lits == #[.ofDimacs (-8)] &&
        (s.engine.older == [⟨7⟩, ⟨8⟩, ⟨9⟩] && (s.engine.recents == [⟨10⟩] &&
          (s.engine.reduce.learnts == #[⟨8⟩, ⟨7⟩, ⟨10⟩] &&
            (((s.engine.clause ⟨7⟩).isFrozen && (s.engine.reduce.clause ⟨7⟩).isAttached) &&
              ((!(s.engine.clause ⟨8⟩).isFrozen && (!(s.engine.reduce.clause ⟨8⟩).isRemoved &&
                  (s.engine.reduce.clause ⟨8⟩).isFrozen)) &&
                (!(s.engine.clause ⟨9⟩).isRemoved &&
                  (s.engine.reduce.clause ⟨9⟩).isRemoved))))))))) = true := by
    decide +kernel
  obtain ⟨s, history, tests⟩ := exists_of_sessionPasses passes
  simp only [Bool.and_eq_true, Bool.not_eq_true', beq_iff_eq] at tests
  exact ⟨s, history, tests⟩

/-- What the policy says of clauses that a reduction treats in each of these ways. -/
theorem reductions_policed_graded : ∃ s ranked kept, Simplifies gradedClauses s ∧
    Pause gradedClauses s.engine ∧ s.reduce.1 = .ok true ∧ s.engine.older = [⟨7⟩, ⟨8⟩, ⟨9⟩] ∧
    s.engine.Policed ranked kept s.engine.reduce ∧ kept = [⟨8⟩, ⟨7⟩] ∧
    Restored (s.engine.clause ⟨7⟩) (s.engine.reduce.clause ⟨7⟩) ∧
    (s.engine.reduce.clause ⟨8⟩).freezeCount = (s.engine.clause ⟨8⟩).freezeCount + 1 ∧
    s.engine.isLocked ⟨9⟩ = false ∧ s.engine.reduce.clause ⟨10⟩ = s.engine.clause ⟨10⟩ ∧
    ∀ id, (s.engine.clause id).freezeCount ≤ s.engine.opts.maxFreeze := by
  obtain ⟨s, history, ok, -, -, older, recents, learnts, ⟨slept, awake⟩, ⟨-, used, frozen⟩, stood, gone⟩ :=
    exists_graded
  have asks : Simplifies gradedClauses s := .asked history ok
  have pause : Pause gradedClauses s.engine := .reached (.rest history)
  obtain ⟨⟨ranked, kept, policed⟩, answer, -⟩ := reductions_policed.1 s asks
  obtain ⟨counts, -⟩ := reductions_policed.2 s.engine pause
  have listed : [⟨8⟩, ⟨7⟩] ++ [⟨10⟩] = kept ++ [⟨10⟩] := by
    rw [← recents, ← policed.learnts.2, recents, learnts]
    rfl
  have thawed : Restored (s.engine.clause ⟨7⟩) (s.engine.reduce.clause ⟨7⟩) := by
    obtain ⟨used, working⟩ := isAttached_iff.mp awake
    rcases policed.working ⟨7⟩ used working with same | ⟨-, restored⟩
    · rw [same, slept] at working
      cases working
    · exact restored
  exact ⟨s, ranked, kept, asks, pause, answer, older, policed, (List.append_cancel_right listed).symm,
    thawed, (policed.frozen ⟨8⟩ used frozen).2.2.2.2, (policed.removed ⟨9⟩ stood gone).2.1,
    (policed.recents ⟨10⟩ (recents ▸ List.mem_singleton.mpr rfl)).1, counts⟩

end Solver

end Cdcl
