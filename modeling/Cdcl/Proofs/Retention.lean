import Cdcl.Proofs.Facts
import Cdcl.Proofs.LearntWatches

/-!
# What is remembered until a reduction

Simplification and vivification drop clauses, shorten them and store them in other forms, and compaction
moves them about. But only a reduction takes learnt clauses out of use. Whatever else is done, for every
clause at work something stays stored that says as much: a fact, a clause of two literals, or one of the
arena that is not frozen.

## Main results

- `Turn.retains`: a turn that is no reduction forgets nothing.
- `Rounds.retains`: nor does any sequence of rounds that counts no reduction.
- `Turn.pairsApart`: the two literals of a clause stay of different variables.
-/

namespace Cdcl

namespace Engine

variable {F : List (List Lit)} {e f g : Engine} {id : ClauseId} {c d : List Lit}

/-! ### What says as much as a clause -/

/-- Something is stored that says as much as the clause of these literals, or more. -/
inductive Remembers (e : Engine) (c : List Lit) : Prop where
  | fact {l : Lit} (inside : l ∈ c) (fact : l ∈ e.trail.facts)
  | clause {id : ClauseId} (attached : (e.clause id).isAttached = true)
    (within : ∀ l ∈ (e.clause id).lits, l ∈ c)
  | pair {a b : Lit} (stored : b ∈ e.watches.binary.get a.neg) (left : a ∈ c) (right : b ∈ c)

theorem Remembers.mono (h : e.Remembers c) (sub : ∀ l ∈ c, l ∈ d) : e.Remembers d := by
  cases h with
  | fact inside fact => exact .fact (sub _ inside) fact
  | clause attached within => exact .clause attached fun l inside => sub l (within l inside)
  | pair stored left right => exact .pair stored (sub _ left) (sub _ right)

/-- The second engine remembers what the first one does, and what pairs it has more are of different
variables. -/
structure Retains (e f : Engine) : Prop where
  facts : ∀ l ∈ e.trail.facts, l ∈ f.trail.facts
  clauses : ∀ id, (e.clause id).isAttached = true → f.Remembers (e.clause id).lits.toList
  pairs : ∀ p q, q ∈ e.watches.binary.get p → q ∈ f.watches.binary.get p
  apart : ∀ p q, q ∈ f.watches.binary.get p → q ∈ e.watches.binary.get p ∨ p.var ≠ q.var

namespace Retains

theorem remembers (h : e.Retains f) (old : e.Remembers c) : f.Remembers c := by
  cases old with
  | fact inside fact => exact .fact inside (h.facts _ fact)
  | clause attached within =>
    exact (h.clauses _ attached).mono fun l inside => within l (Array.mem_toList_iff.mp inside)
  | pair stored left right => exact .pair (h.pairs _ _ stored) left right

theorem trans (h : e.Retains f) (k : f.Retains g) : e.Retains g where
  facts := fun l fact => k.facts l (h.facts l fact)
  clauses := fun id attached => k.remembers (h.clauses id attached)
  pairs := fun p q stored => k.pairs p q (h.pairs p q stored)
  apart := fun p q stored => by
    rcases k.apart p q stored with old | differ
    · exact h.apart p q old
    · exact .inr differ

/-- Clauses at work stay so, with the same literals or with less. -/
theorem of_within (facts : ∀ l ∈ e.trail.facts, l ∈ f.trail.facts)
    (clauses : ∀ id, (e.clause id).isAttached = true → (f.clause id).isAttached = true ∧
      ∀ l ∈ (f.clause id).lits, l ∈ (e.clause id).lits)
    (binary : ∀ p, f.watches.binary.get p = e.watches.binary.get p) : e.Retains f where
  facts := facts
  clauses := fun id attached => .clause (clauses id attached).1 fun l inside =>
    Array.mem_toList_iff.mpr ((clauses id attached).2 l inside)
  pairs := fun p _ stored => binary p ▸ stored
  apart := fun p _ stored => .inl (binary p ▸ stored)

theorem of_continues (facts : ∀ l ∈ e.trail.facts, l ∈ f.trail.facts)
    (clauses : ∀ id, (e.clause id).Continues (f.clause id))
    (binary : f.watches.binary = e.watches.binary) : e.Retains f :=
  .of_within facts (fun id attached => ⟨(clauses id).attached attached, fun l => ((clauses id).mem l).mp⟩)
    fun p => by rw [binary]

/-- Only the facts, the arena and the pairs matter. -/
theorem of_eq (facts : f.trail.facts = e.trail.facts) (arena : f.arena = e.arena)
    (binary : f.watches.binary = e.watches.binary) : e.Retains f := by
  refine .of_continues (fun l fact => facts ▸ fact) (fun id => ?_) binary
  rw [clause, clause, arena]
  exact .refl _

theorem refl (e : Engine) : e.Retains e := .of_eq rfl rfl rfl

theorem of_books (facts : ∀ l ∈ e.trail.facts, l ∈ f.trail.facts) (books : e.SameBooks f) :
    e.Retains f :=
  .of_continues facts (fun id => (books.kindred id).toReordered.continues) books.binary

theorem of_extends (h : e.Extends f) : e.Retains f :=
  .of_continues (fun _ => h.facts_subset) h.clauses h.binary

end Retains

theorem retains_addBinary {a b : Lit} (differ : a.var ≠ b.var) (learnt : Bool) :
    e.Retains (e.addBinary a b learnt) where
  facts := fun l fact => (steady_addBinary e a b learnt).trail.facts.symm ▸ fact
  clauses := fun id attached => by
    obtain ⟨tally, same⟩ := e.addBinary_eq a b learnt
    rw [same]
    exact .clause attached fun l inside => Array.mem_toList_iff.mpr inside
  pairs := fun p q stored => by
    obtain ⟨tally, same⟩ := e.addBinary_eq a b learnt
    rw [same]
    exact Watches.mem_addBinary.mpr (.inl stored)
  apart := fun p q stored => by
    obtain ⟨tally, same⟩ := e.addBinary_eq a b learnt
    rw [same] at stored
    rcases Watches.mem_addBinary.mp stored with old | ⟨rfl, rfl⟩ | ⟨rfl, rfl⟩
    · exact .inl old
    · exact .inr differ
    · exact .inr differ.symm

theorem remembers_addBinary {a b : Lit} (learnt : Bool) (left : a ∈ c) (right : b ∈ c) :
    (e.addBinary a b learnt).Remembers c := by
  obtain ⟨tally, same⟩ := e.addBinary_eq a b learnt
  rw [same]
  exact .pair (Watches.mem_addBinary.mpr (.inr (.inl ⟨rfl, rfl⟩))) left right

theorem retains_storeOriginal {lits : Array Lit} (result : e.storeOriginal lits = .ok f) : e.Retains f := by
  obtain ⟨id, arena, alloc, rfl⟩ := storeOriginal_eq result
  have adds := ClauseArena.adds_alloc alloc
  refine .of_within (fun _ fact => fact) (fun x attached => ?_) fun _ => rfl
  have kept : arena.get x = e.clause x :=
    Adds.other adds (Adds.ne adds (isRemoved_of_isAttached attached))
  change (arena.get x).isAttached = true ∧ ∀ l ∈ (arena.get x).lits, l ∈ (e.clause x).lits
  rw [kept]
  exact ⟨attached, fun _ inside => inside⟩

/-- A clause may be removed if what is done next makes up for it. -/
theorem Retains.of_removed (used : (e.clause id).isRemoved = false) (others : (e.removeClause id).Retains f)
    (instead : f.Remembers (e.clause id).lits.toList) : e.Retains f := by
  have binary := (e.lists_removeClause id).1
  refine ⟨fun l fact => others.facts l ((steady_removeClause e id).trail.facts.symm ▸ fact),
    fun x attached => ?_, fun p q stored => others.pairs p q (binary.symm ▸ stored),
    fun p q stored => binary ▸ others.apart p q stored⟩
  by_cases same : x = id
  · exact same ▸ instead
  · have kept := clause_removeClause used same
    exact kept ▸ others.clauses x (kept.symm ▸ attached)

/-- A fact is added, and what follows from it. -/
theorem retains_addFact {l : Lit} (sound : (e.assign l .decision).Sound [])
    (apart : (e.assign l .decision).FrozenApart) :
    e.Retains (e.addFact l) ∧ (e.trail.level = 0 → l ∈ (e.addFact l).trail.facts) := by
  have assigned : e.Retains (e.assign l .decision) :=
    .of_continues (fun _ => Trail.facts_assign_subset) (fun _ => .refl _) rfl
  have fact (zero : e.trail.level = 0) : l ∈ (e.assign l .decision).trail.facts :=
    (Trail.Coherent.mem_facts_of_level_zero (t := e.trail.assign l .decision) zero).mpr
      (Array.mem_push.mpr (.inr rfl))
  have propagated : (e.assign l .decision).Retains (e.addFact l) := by
    unfold Engine.addFact
    rcases run : (e.assign l .decision).propagate with ⟨f, _ | c⟩
    all_goals obtain ⟨-, -, grown, -⟩ := propagate_sound sound apart run
    · exact .of_extends grown
    · exact (Retains.of_extends grown).trans (.of_eq rfl rfl rfl)
  exact ⟨assigned.trans propagated, fun zero => propagated.facts l (fact zero)⟩

/-! ### Simplification -/

/-- A literal of a clause is true, or two of its literals are all that is left, or it loses some. -/
theorem SimplifiedTo.retains {outcome : Simplified} (h : e.SimplifiedTo id outcome f)
    (sound : e.Sound []) (zero : e.trail.level = 0) (used : (e.clause id).isRemoved = false) :
    e.Retains f := by
  have proper := sound.proper id used
  have size := proper.size
  cases h with
  | removed satisfied =>
    obtain ⟨l, inside, fact⟩ := fact_of_isSatisfied sound zero satisfied
    exact .of_removed used (.refl _) (.fact inside ((steady_removeClause e id).trail.facts.symm ▸ fact))
  | unchanged => exact .refl e
  | becameBinary =>
    have differ : ((e.clause id).lit 0).var ≠ ((e.clause id).lit 1).var := fun same =>
      absurd (proper.lit_inj (by omega) (by omega) same) nofun
    refine .of_removed used (retains_addBinary differ _) (remembers_addBinary _ ?_ ?_)
    · exact Array.mem_toList_iff.mpr (Clause.lit_mem (by omega))
    · exact Array.mem_toList_iff.mpr (Clause.lit_mem (by omega))
  | shrunk _ wide n tally =>
    have shrinks := shrinks_dropFalse size sound zero wide
    refine .of_within (fun _ fact => fact) (fun x attached => ⟨?_, fun l => shrinks.mem used⟩) fun _ => rfl
    exact (flags_shrunk _ used x).2.2.2.trans attached

theorem Simplifying.retains (h : e.Simplifying f) : e.Retains f := by
  induction h with
  | refl => exact .refl e
  | clause _ sound zero used result ih => exact ih.trans (result.retains sound zero used)
  | books _ ih => exact ih.trans (.of_eq rfl rfl rfl)

/-! ### Vivification -/

section Vivify

variable {before after learnts : List ClauseId} {pairs : List (Lit × Lit)} {b : Engine} {lits : Array Lit}

theorem Upkept.retains_probeClause (h : e.Upkept F (before ++ id :: after) learnts b)
    (tried : Tried F before after learnts pairs e id lits g) : e.Retains g := by
  obtain ⟨pairs', faithful⟩ := h.faithful
  obtain ⟨x, retains, sound, rfl⟩ := faithful.exists_probed (P := e.Retains) h.zero h.propagated
    (.of_books (fun _ fact => fact) (sameBooks_detachNow e id))
    (fun x q retains => retains.trans
      (.of_books (fun _ fact => (prefix_facts_decide x q).subset fact) (sameBooks_decide x q)))
    (fun sound apart retains run =>
      have ⟨_, _, grown, _⟩ := propagate_sound sound apart run
      retains.trans (.of_extends grown)) tried.probed
  exact retains.trans (.of_books (fun _ fact => (sound.facts_cancelTo 0).symm ▸ fact) (sameBooks_cancelTo x 0))

/-- What is left of a clause says as much as the clause. -/
theorem Shorter.retains_removed (h : g.Shorter F before after learnts pairs id lits)
    (others : (g.removeClause id).Retains f) (instead : f.Remembers lits.toList) : g.Retains f :=
  .of_removed h.used others (instead.mono fun _ inside =>
    Array.mem_toList_iff.mpr (h.sub (Array.mem_toList_iff.mp inside)))

theorem VivifiedTo.retains (h : e.Upkept F (before ++ id :: after) learnts b) {stays : Bool}
    (result : VivifiedTo F before after learnts e id stays f) : e.Retains f := by
  obtain ⟨pairs, faithful⟩ := h.faithful
  -- What a clause that goes said is said after by a fact, by a pair, or by a shorter clause.
  cases result with
  | idle => exact .refl e
  | satisfied satisfied stats =>
    obtain ⟨l, inside, fact⟩ := fact_of_isSatisfied faithful.sound h.zero satisfied
    have used := isRemoved_of_isAttached (faithful.guarded.clauses id (by simp)).1
    exact (Retains.of_removed used (.refl _)
      (.fact inside ((steady_removeClause e id).trail.facts.symm ▸ fact))).trans (.of_eq rfl rfl rfl)
  | @fact _ lits g l stats tried list =>
    have shorter := tried.shorter.stats stats
    have assigned := shorter.assigned list
    have probed : e.Retains { g with stats } := (h.retains_probeClause tried).trans (.of_eq rfl rfl rfl)
    obtain ⟨retains, learns⟩ := retains_addFact assigned.sound assigned.apart
    refine probed.trans (shorter.retains_removed retains ?_)
    rw [list]
    exact .fact List.mem_cons_self
      (learns ((steady_removeClause ({ g with stats } : Engine) id).trail.level.trans shorter.zero))
  | @pair _ lits g x y stats tried list =>
    have shorter := tried.shorter.stats stats
    have probed : e.Retains { g with stats } := (h.retains_probeClause tried).trans (.of_eq rfl rfl rfl)
    have distinct := shorter.distinct
    rw [list] at distinct
    have differ : x.var ≠ y.var := by simpa using distinct
    refine probed.trans (shorter.retains_removed (retains_addBinary differ false) ?_)
    rw [list]
    exact remembers_addBinary false List.mem_cons_self (List.mem_cons_of_mem _ List.mem_cons_self)
  | @shorter _ lits g stats tried size fewer =>
    have used := tried.shorter.used
    refine (h.retains_probeClause tried).trans (.of_within (fun _ fact => fact) (fun x attached => ?_) fun _ => rfl)
    have kept : ((({ g with stats } : Engine).replaceLits id lits).attach id).clause x =
        if id = x then (g.clause x).setLits lits else g.clause x := get_shrunk used x
    rw [kept]
    split
    next same => exact ⟨attached, fun l inside => same ▸ tried.shorter.sub inside⟩
    next => exact ⟨attached, fun _ inside => inside⟩
  | @unchanged _ lits g tried size =>
    exact (h.retains_probeClause tried).trans (.of_books (fun _ fact => fact) (sameBooks_attach g id))

end Vivify

theorem Quiet.retains_vivifyAll (quiet : e.Quiet F) (minSize : Nat) : e.Retains (e.vivifyAll minSize) := by
  obtain ⟨kept, g, vivified, retains⟩ := quiet.vivifyAll_keeps (P := fun _ x => e.Retains x) minSize
    (fun upkept old vivified => old.trans (vivified.retains upkept)) (.refl e)
  rw [vivified]
  exact retains.trans (.of_eq rfl rfl rfl)

/-! ### Compaction -/

theorem Settled.retains_compact (settled : e.Settled F) (result : e.compact = .ok f) : e.Retains f := by
  obtain ⟨pairs, faithful⟩ := settled.faithful
  obtain ⟨-, -, -, -, -, same⟩ := faithful.compact rfl (e.lists_ledger pairs) result
  obtain ⟨ids, arena, reasons, moved, held, -, rfl⟩ := settled.compact_eq result
  have sound := faithful.sound
  have binary : e.swept.watches.binary = e.watches.binary :=
    (Watches.cleanAll_cleaned e.watches e.arena).binary
  refine ⟨fun _ fact => same.facts.symm ▸ fact, fun id attached => ?_, fun p q stored => ?_,
    fun p q stored => ?_⟩
  · have kept := moved.get (sound.attached_held held attached)
    refine @Remembers.clause _ _ (ClauseArena.newId ids id) ?_ fun l inside => ?_
    · change (arena.get (ClauseArena.newId ids id)).isAttached = true
      rw [kept]
      exact attached
    · change l ∈ (arena.get (ClauseArena.newId ids id)).lits at inside
      rw [kept] at inside
      exact Array.mem_toList_iff.mpr inside
  · change q ∈ e.swept.watches.binary.get p
    rw [binary]
    exact stored
  · change q ∈ e.swept.watches.binary.get p at stored
    rw [binary] at stored
    exact .inl stored

/-! ### Learning -/

theorem Gained.retains {b : Engine} {d : Learnt} (books : e.SameBooks b) (h : b.Gained d f)
    (sound : f.Sound []) (facts : ∀ l ∈ e.trail.facts, l ∈ f.trail.facts) : e.Retains f where
  facts := facts
  clauses := fun id attached => by
    have before := (books.kindred id).toReordered.continues
    have kept := before.trans (h.kept id (isRemoved_of_isAttached (before.attached attached))).continues
    exact .clause (kept.attached attached) fun l inside =>
      Array.mem_toList_iff.mpr ((kept.mem l).mp inside)
  pairs := fun p q stored => (h.pairs p q).mpr (.inl (books.binary ▸ stored))
  apart := fun p q stored => by
    rcases (h.pairs p q).mp stored with old | ⟨x, y, list, pair⟩
    · exact .inl (books.binary ▸ old)
    -- The first literal comes after the other on the trail, as that is its reason.
    obtain ⟨why, trail, reason⟩ := h.trail x [y] list
    cases reason y rfl
    have last : f.trail.lits[b.trail.lits.size]? = some x := by
      rw [trail]
      exact Array.getElem?_push_size
    have why : f.trail.reason x.var = .binary y := by
      rw [trail, Trail.reason_assign, if_pos rfl]
    have explains := sound.justified last
    rw [why] at explains
    obtain ⟨i, below, at_i⟩ := explains.2.before
    have differ : x.var ≠ y.var := by
      intro same
      have := sound.trail.distinct at_i last ((Lit.var_neg y).trans same.symm)
      omega
    rcases pair with ⟨rfl, rfl⟩ | ⟨rfl, rfl⟩
    · exact .inr differ
    · exact .inr differ.symm

theorem retains_handleConflict {handled : Handled} {conflict : Conflict}
    (result : e.handleConflict conflict = .ok (handled, f)) (sound : f.Sound [])
    (facts : ∀ l ∈ e.trail.facts, l ∈ f.trail.facts) : e.Retains f := by
  cases handled with
  | learnt =>
    obtain ⟨a, d, analyzed, gained⟩ := gained_handleConflict result
    exact gained.retains (sameBooks_back analyzed) sound facts
  | failed =>
    cases handleConflict_cases result with
    | full analyzed => exact .of_books facts (sameBooks_back analyzed)

/-! ### Reductions -/

theorem reductions_reduce (e : Engine) : e.reduce.stats.reductions = e.stats.reductions + 1 :=
  congrArg Schedule.reductions (reduce_counts e).2.2

theorem binary_reduceClause (half median : Nat) (deviation : Float) (r : ReductionState)
    (entry : ClauseId × Nat) : (reduceClause half median deviation r entry).engine.watches.binary =
      r.engine.watches.binary := by
  obtain ⟨id, i⟩ := entry
  unfold reduceClause
  dsimp only
  split
  · exact (r.engine.lists_removeClause id).1
  · dsimp only
    split
    · rfl
    · obtain ⟨_, _, later, -⟩ := r.engine.watches.unwatchLater_eq _ _
      dsimp only [freezeClause, modifyStats, modifyTally, modifyClause, detachLater, modifyWatches]
      rw [later]
  · rfl

theorem binary_thawClause (e : Engine) (id : ClauseId) :
    (e.thawClause id).watches.binary = e.watches.binary := by
  generalize result : e.thawClause id = f
  cases thawClause_cases result with
  | unit | attached => rfl

theorem binary_watchFrozen (e : Engine) (id : ClauseId) :
    (e.watchFrozen id).watches.binary = e.watches.binary := by
  unfold watchFrozen
  dsimp only
  split <;> rfl

theorem binary_foldl {α β : Type} {step : β → α → β} (engine : β → Engine)
    (each : ∀ b a, (engine (step b a)).watches.binary = (engine b).watches.binary) (l : List α) (b : β) :
    (engine (l.foldl step b)).watches.binary = (engine b).watches.binary := by
  induction l generalizing b with
  | nil => rfl
  | cons a l ih => exact (ih (step b a)).trans (each b a)

/-- A reduction leaves the clauses of two literals alone. -/
theorem binary_reduce (e : Engine) : e.reduce.watches.binary = e.watches.binary := by
  have thawed (ids : List ClauseId) (x : Engine) :
      (ids.foldl thawClause x).watches.binary = x.watches.binary := binary_foldl id binary_thawClause ids x
  have rewatched (x : Engine) : x.rewatchFrozen.watches.binary = x.watches.binary := by
    rw [rewatchFrozen, ← Array.foldl_toList]
    exact binary_foldl id binary_watchFrozen _ _
  obtain ⟨x, ids, same, sorted⟩ : ∃ (x : Engine) (ids : List ClauseId),
      e.reduce.watches = (ids.foldl thawClause (x.modifyWatches (·.cleanAll x.arena))).rewatchFrozen.watches ∧
        x.watches.binary = e.watches.binary := by
    unfold Engine.reduce
    dsimp only
    simp only [← Array.foldl_toList]
    exact ⟨_, _, rfl, binary_foldl ReductionState.engine (binary_reduceClause _ _ _) _ _⟩
  rw [same, rewatched, thawed, ← sorted]
  exact (Watches.cleanAll_cleaned _ _).binary

/-! ### Turns -/

theorem Chore.retains_or_reduces (chore : Chore e f) (h : e.Orderly) :
    e.Retains f ∨ f = e.reduce := by
  have facts : ∀ l ∈ e.trail.facts, l ∈ f.trail.facts := fun _ fact => (chore.facts h).subset fact
  cases chore with
  | noted | dated => exact .inl (.of_eq rfl rfl rfl)
  | rebuild => exact .inl (.of_eq rfl rfl rfl)
  | setDecision => exact .inl (.of_eq rfl rfl rfl)
  | setPolarity => exact .inl (.of_eq rfl rfl rfl)
  | cancelTo _ level => exact .inl (.of_books facts (sameBooks_cancelTo e level))
  | grown _ polarity =>
    exact .inl (.of_within facts (fun _ attached => ⟨attached, fun _ inside => inside⟩)
      (binary_grown polarity h.sound))
  | propagate result =>
    obtain ⟨-, -, grown, -⟩ := propagateFrom_sound h.sound h.apart result
    exact .inl (.of_extends grown)
  | simplifyAll quiet =>
    exact .inl (quiet.recalls.simplifyAll_spec quiet.zero quiet.propagated).2.2.2.retains
  | reduce => exact .inr rfl
  | vivifyAll quiet minSize => exact .inl (quiet.retains_vivifyAll minSize)
  | compact settled result => exact .inl (settled.retains_compact result)
  | @add _ _ _ c lits settled zero normalized bound result =>
    obtain ⟨pairs, faithful⟩ := settled.faithful
    cases added_of_addNormalized result with
    | empty => exact .inl (.of_eq rfl rfl rfl)
    | fact =>
      have assigned := faithful.toRegular.assignUnit zero normalized bound rfl
      exact .inl (retains_addFact assigned.sound assigned.apart).1
    | pair => exact .inl (retains_addBinary (by simpa using normalized.distinct) false)
    | long size stored => exact .inl (retains_storeOriginal stored)

/-- A turn that is no reduction forgets nothing. -/
theorem Turn.retains_or_reduces (turn : Turn e f) (h : e.Orderly) : e.Retains f ∨ f = e.reduce := by
  have facts : ∀ l ∈ e.trail.facts, l ∈ f.trail.facts := fun _ fact => (turn.facts h).subset fact
  cases turn with
  | chore chore => exact chore.retains_or_reduces h
  | openLevel => exact .inl (.of_books facts (sameBooks_openLevel e))
  | decide => exact .inl (.of_books facts (sameBooks_decide e _))
  | exhausted result =>
    rw [pickLit_eq result]
    exact .inl (.of_eq rfl rfl rfl)
  | picked _ _ _ result =>
    rw [pickLit_eq result] at facts ⊢
    exact .inl (.of_books facts ((SameBooks.others e).trans (sameBooks_decide _ _)))
  | blame fails result =>
    obtain ⟨examined, -⟩ := analyzeFinal_spec h.sound ((h.sound.trail.isFalse_iff _).mp fails) result
    exact .inl (.of_continues facts (fun id => (examined.alike id).continues) (by rw [examined.watches]))
  | learn result settled => exact .inl (retains_handleConflict result settled.order.1 facts)

/-- The two literals of every clause of two are of different variables. -/
def PairsApart (e : Engine) : Prop := ∀ p, ∀ q ∈ e.watches.binary.get p, p.var ≠ q.var

theorem pairsApart_initial (opts : Options) : (initial opts).PairsApart :=
  fun _ q stored => absurd stored (Array.not_mem_empty q)

/-- A turn keeps the literals of a clause of two apart. -/
theorem Turn.pairsApart (turn : Turn e f) (h : e.Orderly) (before : e.PairsApart) : f.PairsApart := by
  intro p q stored
  rcases turn.retains_or_reduces h with retains | rfl
  · rcases retains.apart p q stored with old | differ
    · exact before p q old
    · exact differ
  · exact before p q (binary_reduce e ▸ stored)

/-- A round counts no reduction unless it is one. -/
theorem Round.counts (round : Round e f) :
    f.stats.reductions = e.stats.reductions ∨ f = e.reduce := by
  cases round with
  | turn _ uncounted => exact .inl uncounted.reductions
  | clash => exact .inl rfl
  | learn _ result => exact .inl (handleConflict_counts result).1.reductions
  | reduce => exact .inr rfl

theorem Rounds.reductions_le (rounds : e.Rounds f) : e.stats.reductions ≤ f.stats.reductions := by
  induction rounds with
  | refl => exact Nat.le_refl _
  | @tail x y _ round ih =>
    rcases round.counts with same | rfl
    · exact same.symm ▸ ih
    · exact Nat.le_succ_of_le ih |>.trans_eq (reductions_reduce x).symm

/-- A round that counts no reduction forgets nothing. -/
theorem Round.retains (round : Round e f) (h : e.Orderly)
    (same : f.stats.reductions = e.stats.reductions) : e.Retains f := by
  have retains {x y : Engine} (turn : Turn x y) (orderly : x.Orderly)
      (same : y.stats.reductions = x.stats.reductions) : x.Retains y := by
    rcases turn.retains_or_reduces orderly with retains | rfl
    · exact retains
    · exact absurd ((reductions_reduce x).symm.trans same) (Nat.succ_ne_self _)
  have noted : Turn e e.clashed := .chore (.noted e)
  cases round with
  | turn turn => exact retains turn h same
  | clash => exact retains noted h rfl
  | learn turn => exact (retains noted h rfl).trans (retains turn (noted.orderly h) same)
  | reduce turn => exact retains turn h same

/-- Rounds that count no reduction forget nothing. -/
theorem Rounds.retains (rounds : e.Rounds f) (h : e.Orderly)
    (same : f.stats.reductions = e.stats.reductions) : e.Retains f := by
  induction rounds with
  | refl => exact .refl e
  | @tail x y before round ih =>
    have le := Rounds.reductions_le before
    have le' := Rounds.reductions_le (.single round)
    exact (ih (by omega)).trans (round.retains ((Rounds.turns before).orderly h) (by omega))

end Engine

end Cdcl
