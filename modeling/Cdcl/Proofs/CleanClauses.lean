import Cdcl.Proofs.Facts
import Cdcl.Proofs.RecentClauses
import Cdcl.Proofs.Retention

/-!
# Simplification leaves clean clauses

A simplification is skipped if there are as many facts as at the one before. Facts only join the others,
so they are the same ones then. The original clauses that were simplified by them have lost at most some
literals since, and a clause that was given later was cleaned when it was given. So all are clean,
whether or not the simplification is skipped, and another one right after it has nothing to do.

## Main results

- `Narrows`: what an engine does adds no literals to original clauses.
- `Turn.dated`: as long as no fact joins those of the last simplification, the original clauses are open.
- `simplify_cases`: a simplification has nothing to do, or it goes through all clauses.
- `clean_of_simplify`: either way it leaves the original clauses clean, and so the pairs that some become.
-/

namespace Cdcl

/-- An original clause in use. -/
def Clause.isOriginal (c : Clause) : Bool := !c.isRemoved && !c.isLearnt

theorem Clause.isOriginal_iff {c : Clause} :
    c.isOriginal = true ↔ c.isRemoved = false ∧ c.isLearnt = false := by
  simp [isOriginal]

/-- At level zero all literals of the trail are facts. -/
theorem Trail.facts_of_level_zero {t : Trail} (zero : t.level = 0) : t.facts = t.lits.toList := by
  rw [Coherent.facts_eq, Coherent.startAbove_of_level_le (by omega), ← Array.length_toList, List.take_length]

namespace Engine

variable {F : List (List Lit)} {e f g b : Engine} {id : ClauseId} {l : Lit}
  {before after learnts : List ClauseId}

/-! ### Original clauses only lose literals -/

/-- The literals of each original clause are literals of one there was. -/
def Narrows (e f : Engine) : Prop :=
  ∀ id, (f.clause id).isOriginal = true →
    ∃ x, (e.clause x).isOriginal = true ∧ ∀ l ∈ (f.clause id).lits, l ∈ (e.clause x).lits

namespace Narrows

theorem trans (h : e.Narrows f) (k : f.Narrows g) : e.Narrows g := by
  intro id original
  obtain ⟨x, original', within⟩ := k id original
  obtain ⟨y, original'', within'⟩ := h x original'
  exact ⟨y, original'', fun l inside => within' l (within l inside)⟩

theorem of_within (within : ∀ id, (f.clause id).isOriginal = true →
    (e.clause id).isOriginal = true ∧ ∀ l ∈ (f.clause id).lits, l ∈ (e.clause id).lits) :
    e.Narrows f :=
  fun id original => ⟨id, within id original⟩

theorem of_continues (clauses : ∀ id, (e.clause id).Continues (f.clause id)) : e.Narrows f := by
  refine of_within fun id original => ⟨?_, fun l => ((clauses id).mem l).mp⟩
  rw [Clause.isOriginal_iff] at original ⊢
  exact ⟨(clauses id).removed.symm.trans original.1, (clauses id).learnt.symm.trans original.2⟩

theorem of_eq (same : f.arena.clauses = e.arena.clauses) : e.Narrows f := by
  refine of_continues fun id => ?_
  rw [clause, clause, ClauseArena.get, ClauseArena.get, same]
  exact .refl _

theorem refl (e : Engine) : e.Narrows e := of_eq rfl

theorem of_books (books : e.SameBooks f) : e.Narrows f :=
  of_continues fun id => (books.kindred id).toReordered.continues

theorem of_extends (h : e.Extends f) : e.Narrows f := of_continues h.clauses

end Narrows

theorem narrows_removeClause (used : (e.clause id).isRemoved = false) : e.Narrows (e.removeClause id) := by
  obtain ⟨tally, lbdCounts, space, same⟩ := e.removeClause_eq id
  rw [same]
  refine .of_within fun x original => ?_
  change ((e.arena.without id space).get x).isOriginal = true at original
  change _ ∧ ∀ l ∈ ((e.arena.without id space).get x).lits, l ∈ (e.clause x).lits
  rw [get_without space used] at original ⊢
  split at original
  · rw [Clause.isOriginal_iff] at original
    cases original.1
  next ne =>
    rw [if_neg ne]
    exact ⟨original, fun _ inside => inside⟩

theorem narrows_addBinary (e : Engine) (x y : Lit) (learnt : Bool) : e.Narrows (e.addBinary x y learnt) := by
  obtain ⟨tally, same⟩ := e.addBinary_eq x y learnt
  rw [same]
  exact .of_eq rfl

theorem narrows_addFact (sound : (e.assign l .decision).Sound [])
    (apart : (e.assign l .decision).FrozenApart) : e.Narrows (e.addFact l) := by
  have assigned : e.Narrows (e.assign l .decision) := .of_eq rfl
  unfold Engine.addFact
  rcases run : (e.assign l .decision).propagate with ⟨f, _ | c⟩
  all_goals obtain ⟨-, -, grown, -⟩ := propagate_sound sound apart run
  · exact assigned.trans (.of_extends grown)
  · exact (assigned.trans (.of_extends grown)).trans (.of_eq rfl)

theorem SimplifiedTo.narrows {outcome : Simplified} (h : e.SimplifiedTo id outcome f)
    (sound : e.Sound []) (zero : e.trail.level = 0) (used : (e.clause id).isRemoved = false) :
    e.Narrows f := by
  have size := (sound.proper id used).size
  cases h with
  | removed => exact narrows_removeClause used
  | unchanged => exact .refl e
  | becameBinary => exact (narrows_removeClause used).trans (narrows_addBinary _ _ _ _)
  | shrunk _ wide =>
    have shrinks := shrinks_dropFalse size sound zero wide
    refine .of_within fun x original => ⟨?_, fun l => shrinks.mem used⟩
    obtain ⟨removed, -, learnt, -⟩ := flags_shrunk (dropFalse e.trail (e.clause id).lits) used x
    rw [Clause.isOriginal_iff] at original ⊢
    exact ⟨removed.symm.trans original.1, learnt.symm.trans original.2⟩

theorem Simplifying.narrows (h : e.Simplifying f) : e.Narrows f := by
  induction h with
  | refl => exact .refl e
  | clause _ sound zero used result ih => exact ih.trans (result.narrows sound zero used)
  | books _ ih => exact ih.trans (.of_eq rfl)

theorem Upkept.narrows_probeClause {pairs : List (Lit × Lit)} {lits : Array Lit}
    (h : e.Upkept F (before ++ id :: after) learnts b)
    (tried : Tried F before after learnts pairs e id lits g) : e.Narrows g := by
  obtain ⟨pairs', faithful⟩ := h.faithful
  obtain ⟨x, narrows, -, rfl⟩ := faithful.exists_probed (P := e.Narrows) h.zero h.propagated
    (.of_books (sameBooks_detachNow e id))
    (fun x q narrows => narrows.trans (.of_books (sameBooks_decide x q)))
    (fun sound apart narrows run =>
      have ⟨_, _, grown, _⟩ := propagate_sound sound apart run
      narrows.trans (.of_extends grown)) tried.probed
  exact narrows.trans (.of_books (sameBooks_cancelTo x 0))

theorem VivifiedTo.narrows (h : e.Upkept F (before ++ id :: after) learnts b) {stays : Bool}
    (result : VivifiedTo F before after learnts e id stays f) : e.Narrows f := by
  obtain ⟨pairs, faithful⟩ := h.faithful
  cases result with
  | idle => exact .refl e
  | satisfied =>
    have used := isRemoved_of_isAttached (faithful.guarded.clauses id (by simp)).1
    exact (narrows_removeClause used).trans (.of_eq rfl)
  | @fact _ lits g l stats tried list =>
    have shorter := tried.shorter.stats stats
    have assigned := shorter.assigned list
    have probed : e.Narrows { g with stats } := (h.narrows_probeClause tried).trans (.of_eq rfl)
    exact (probed.trans (narrows_removeClause shorter.used)).trans
      (narrows_addFact assigned.sound assigned.apart)
  | @pair _ lits g x y stats tried list =>
    have shorter := tried.shorter.stats stats
    have probed : e.Narrows { g with stats } := (h.narrows_probeClause tried).trans (.of_eq rfl)
    exact (probed.trans (narrows_removeClause shorter.used)).trans (narrows_addBinary _ _ _ _)
  | @shorter _ lits g stats tried size fewer =>
    refine (h.narrows_probeClause tried).trans (.of_within fun x original => ?_)
    have kept : ((({ g with stats } : Engine).replaceLits id lits).attach id).clause x =
        if id = x then (g.clause x).setLits lits else g.clause x := get_shrunk tried.shorter.used x
    rw [kept] at original ⊢
    split at original
    next same =>
      rw [if_pos same]
      exact ⟨original, fun l inside => same ▸ tried.shorter.sub inside⟩
    next ne =>
      rw [if_neg ne]
      exact ⟨original, fun _ inside => inside⟩
  | @unchanged _ lits g tried size =>
    exact (h.narrows_probeClause tried).trans (.of_books (sameBooks_attach g id))

theorem Quiet.narrows_vivifyAll (quiet : e.Quiet F) (minSize : Nat) : e.Narrows (e.vivifyAll minSize) := by
  obtain ⟨kept, g, vivified, narrows⟩ := quiet.vivifyAll_keeps (P := fun _ x => e.Narrows x) minSize
    (fun upkept old vivified => old.trans (vivified.narrows upkept)) (.refl e)
  rw [vivified]
  exact narrows.trans (.of_eq rfl)

/-- A reduction leaves original clauses alone. -/
theorem Orderly.narrows_reduce (h : e.Orderly) : e.Narrows e.reduce := by
  have filed := h.shelved.booked.filed
  obtain ⟨ranked, kept, reduced⟩ := e.reducedTo_reduce filed.learnts_nodup fun x member =>
    ((filed.learnt x).mp member).1
  have among {x : ClauseId} (listed : x ∈ ranked) : (e.clause x).isLearnt = true :=
    ((filed.learnt x).mp (List.mem_of_mem_take (reduced.perm.subset listed))).2
  refine .of_within fun x original => ?_
  have treated := reduced.treated x
  generalize e.reduce.clause x = c at original treated
  rw [Clause.isOriginal_iff] at original
  cases treated with
  | untouched => exact ⟨Clause.isOriginal_iff.mpr original, fun _ inside => inside⟩
  | removed => cases original.1
  | frozen listed =>
    rw [Clause.isLearnt_setFrozen, (Clause.alike_setFreezeCount _ _).learnt, among listed] at original
    cases original.2
  | thawed listed _ _ restored =>
    obtain ⟨lits, perm, rfl⟩ := restored
    rw [Clause.isLearnt_setFrozen] at original
    exact absurd ((among listed).symm.trans original.2) nofun

theorem narrows_compact (h : e.Orderly) (result : e.compact = .ok f) : e.Narrows f := by
  obtain ⟨ids, b, reasons, moved, held, -, rfl⟩ :=
    h.sound.compact_eq h.shelved.booked.filed.listsUsed result
  intro x original
  change (b.get x).isOriginal = true at original
  change ∃ y, (e.clause y).isOriginal = true ∧ ∀ l ∈ (b.get x).lits, l ∈ (e.clause y).lits
  rcases moved.get_or_absent x with ⟨id, -, reads⟩ | absent
  · rw [reads] at original ⊢
    exact ⟨id, original, fun _ inside => inside⟩
  · rw [absent] at original
    cases original

theorem originals_handleConflict {c : Conflict} {handled : Handled}
    (result : e.handleConflict c = .ok (handled, f)) (shelved : e.Shelved) : f.originals = e.originals := by
  cases handleConflict_cases result with
  | full analyzed => exact (sameBooks_back analyzed).originals
  | @learnt a _ d analyzed added =>
    have back := sameBooks_back analyzed
    refine (sameBooks_noted _ _ _).originals.trans (Eq.trans ?_ back.originals)
    cases addLearnt_cases added with
    | empty => rfl
    | unit => rfl
    | @pair l other =>
      have steady := steady_addBinary (a.cancelTo d.level) l other true
      exact (sameBooks_assign _ _ _).originals.trans steady.originals
    | stored _ stored => exact ((shelved.kept back.kept).booked.storeLearnt stored).2.1

theorem Orderly.mem_originals_iff (h : e.Orderly) :
    id ∈ e.originals ↔ (e.clause id).isOriginal = true := by
  rw [← Array.mem_toList_iff, h.shelved.booked.filed.original, Clause.isOriginal_iff]

/-- What is learnt is no original clause. -/
theorem Orderly.narrows_handleConflict (h : e.Orderly) (order : f.Orderly) {c : Conflict}
    {handled : Handled} (result : e.handleConflict c = .ok (handled, f)) : e.Narrows f := by
  refine .of_within fun id original => ?_
  have old : (e.clause id).isOriginal = true := by
    rw [← h.mem_originals_iff, ← originals_handleConflict result h.shelved]
    exact order.mem_originals_iff.mpr original
  refine ⟨old, fun l inside => ?_⟩
  have books {a : Engine} {d : Learnt} (analyzed : e.analyze c = .ok (a, d)) :=
    ((sameBooks_back analyzed).kindred id).toReordered.continues
  cases handled with
  | learnt =>
    obtain ⟨a, d, analyzed, gained⟩ := gained_handleConflict result
    have before := books analyzed
    have used := before.removed.trans (Clause.isOriginal_iff.mp old).1
    exact ((before.trans (gained.kept id used).continues).mem l).mp inside
  | failed =>
    cases handleConflict_cases result with
    | full analyzed => exact ((books analyzed).mem l).mp inside

/-! ### The date of a simplification -/

/-- No fact has gone since the last simplification, and if none has come the original clauses are as it
left them. -/
def Dated (e : Engine) : Prop :=
  ∀ n, e.simplifiedAt = some n →
    n ≤ e.trail.facts.length ∧ (n = e.trail.facts.length → e.OriginalsOpen)

theorem dated_initial (opts : Options) : (initial opts).Dated := nofun

/-- Facts may join, and original clauses lose literals. -/
theorem Dated.narrows (h : e.Dated) (order : e.Orderly) (order' : f.Orderly)
    (facts : e.trail.facts <+: f.trail.facts) (noted : f.simplifiedAt = e.simplifiedAt)
    (narrows : e.Narrows f) : f.Dated := by
  intro n at_n
  obtain ⟨le, clean⟩ := h n (noted.symm.trans at_n)
  have grown := facts.length_le
  refine ⟨le.trans grown, fun same id member l inside => ?_⟩
  obtain ⟨x, original, within⟩ := narrows id (order'.mem_originals_iff.mp member)
  rw [← facts.eq_of_length (by omega)]
  exact clean (by omega) x (order.mem_originals_iff.mpr original) l (within l inside)

/-- A clause that is stored as it is given has no literal with a value. -/
theorem Dated.storeOriginal (h : e.Dated) (order : e.Orderly) (zero : e.trail.level = 0)
    {lits : Array Lit} (free : ∀ l ∈ lits, e.trail.value l.var = .undecided)
    (result : e.storeOriginal lits = .ok f) : f.Dated := by
  obtain ⟨id, arena, stored, rfl⟩ := storeOriginal_eq result
  have adds := ClauseArena.adds_alloc stored
  intro n at_n
  obtain ⟨le, clean⟩ := h n at_n
  refine ⟨le, fun same x member l inside => ?_⟩
  change l ∈ (arena.get x).lits at inside
  rcases Array.mem_push.mp member with old | rfl
  · have used := (Clause.isOriginal_iff.mp (order.mem_originals_iff.mp old)).1
    rw [Adds.other adds (Adds.ne adds used)] at inside
    exact clean same x old l inside
  · rw [Adds.self adds] at inside
    exact (order.sound.undecided_iff zero).mp (free l inside)

theorem Chore.keeps_dated (chore : Chore e f) (h : e.Orderly) (dated : e.Dated) : f.Dated := by
  have facts := chore.facts h
  have order := chore.orderly h
  cases chore with
  | noted => exact dated.narrows h order facts rfl (.of_eq rfl)
  | rebuild => exact dated.narrows h order facts rfl (.of_eq rfl)
  | setDecision => exact dated.narrows h order facts rfl (.of_eq rfl)
  | setPolarity => exact dated.narrows h order facts rfl (.of_eq rfl)
  | grown => exact dated.narrows h order facts rfl (.of_eq rfl)
  -- At level zero all literals are facts, so what was noted is no more than there are.
  | dated simplified zero =>
    intro n at_n
    cases at_n
    refine ⟨?_, fun _ => simplified⟩
    change e.trail.lits.size ≤ e.trail.facts.length
    rw [Trail.facts_of_level_zero zero, Array.length_toList]
  | cancelTo _ level =>
    exact dated.narrows h order facts (uneventful_cancelTo e level).simplifiedAt
      (.of_books (sameBooks_cancelTo e level))
  | propagate result =>
    obtain ⟨-, -, grown, -⟩ := propagateFrom_sound h.sound h.apart result
    exact dated.narrows h order facts (uneventful_propagateFrom result).simplifiedAt (.of_extends grown)
  | simplifyAll quiet =>
    exact dated.narrows h order facts e.effects_simplifyAll.uneventful.simplifiedAt
      (quiet.recalls.simplifyAll_spec quiet.zero quiet.propagated).2.2.2.narrows
  | reduce => exact dated.narrows h order facts (reduce_counts e).2.1 h.narrows_reduce
  | vivifyAll quiet minSize =>
    exact dated.narrows h order facts (uneventful_vivifyAll e minSize).simplifiedAt
      (quiet.narrows_vivifyAll minSize)
  | compact settled result =>
    exact dated.narrows h order facts (uneventful_compact settled result).simplifiedAt
      (narrows_compact h result)
  | @add _ _ _ c lits settled zero normalized bound result =>
    have noted := (uneventful_addNormalized result).simplifiedAt
    obtain ⟨pairs, faithful⟩ := settled.faithful
    cases added_of_addNormalized result with
    | empty => exact dated.narrows h order facts noted (.of_eq rfl)
    | fact =>
      have assigned := faithful.toRegular.assignUnit zero normalized bound rfl
      exact dated.narrows h order facts noted (narrows_addFact assigned.sound assigned.apart)
    | pair => exact dated.narrows h order facts noted (narrows_addBinary _ _ _ _)
    | long size stored =>
      exact dated.storeOriginal h zero (fun l inside => normalized.undecided l (by simpa using inside))
        stored

/-- As long as no fact joins those of the last simplification, the original clauses are open. -/
theorem Turn.dated (turn : Turn e f) (h : e.Orderly) (dated : e.Dated) : f.Dated := by
  have facts := turn.facts h
  have order := turn.orderly h
  cases turn with
  | chore chore => exact chore.keeps_dated h dated
  | openLevel => exact dated.narrows h order facts rfl (.of_eq rfl)
  | decide => exact dated.narrows h order facts rfl (.of_books (sameBooks_decide e _))
  | exhausted result =>
    rw [pickLit_eq result] at facts order ⊢
    exact dated.narrows h order facts rfl (.of_eq rfl)
  | picked _ _ _ result =>
    rw [pickLit_eq result] at facts order ⊢
    exact dated.narrows h order facts rfl (.of_books ((SameBooks.others e).trans (sameBooks_decide _ _)))
  | blame fails result =>
    obtain ⟨examined, -⟩ := analyzeFinal_spec h.sound ((h.sound.trail.isFalse_iff _).mp fails) result
    exact dated.narrows h order facts (uneventful_analyzeFinal result).simplifiedAt
      (.of_continues fun id => (examined.alike id).continues)
  | learn result =>
    exact dated.narrows h order facts (handleConflict_counts result).1.simplifiedAt
      (h.narrows_handleConflict order result)

/-! ### Pairs that original clauses become -/

theorem SimplifiedTo.stored (h : e.SimplifiedTo id .becameBinary f) :
    (e.clause id).lit 1 ∈ f.watches.binary.get ((e.clause id).lit 0).neg ∧
      (e.clause id).lit 0 ∈ f.watches.binary.get ((e.clause id).lit 1).neg := by
  cases h with
  | becameBinary =>
    obtain ⟨tally, same⟩ := (e.removeClause id).addBinary_eq ((e.clause id).lit 0) ((e.clause id).lit 1)
      (e.clause id).isLearnt
    rw [same]
    exact ⟨Watches.mem_addBinary.mpr (.inr (.inl ⟨rfl, rfl⟩)),
      Watches.mem_addBinary.mpr (.inr (.inr ⟨rfl, rfl⟩))⟩

/-- A pair that an original clause becomes stays until the simplification is over. -/
theorem PairedBy.stored (h : e.Quiet F) {x y : Lit} (paired : e.PairedBy x y) :
    y ∈ e.simplifyAll.watches.binary.get x.neg ∧ x ∈ e.simplifyAll.watches.binary.get y.neg := by
  obtain @⟨before, after, id, f, list, result⟩ := paired
  obtain ⟨⟨olds, front, pairs, -, -, faithful⟩, -⟩ := h.recalls.simplifiedUpTo h.zero h.propagated list
  have used := isRemoved_of_isAttached (faithful.guarded.clauses id (by simp)).1
  have here := (simplifiedTo (faithful.sound.proper id used).size result).stored
  -- The clauses after this one add to the lists.
  have list' : e.originals.toList = (before ++ [id]) ++ after := by
    rw [list, List.append_assoc, List.singleton_append]
  obtain ⟨⟨olds', front', pairs', -, -, faithful'⟩, neat⟩ :=
    h.recalls.simplifiedUpTo h.zero h.propagated list'
  rw [← List.append_nil after] at faithful'
  have rest := (faithful'.simplifyOriginals after (neat.same.level.trans h.zero)
    (by rw [neat.same.head, neat.same.lits]; exact h.propagated)).2.2.retains.pairs
  obtain ⟨⟨stats, engine⟩, -⟩ := simplifyOriginal_eq result
  have all : e.simplifiedUpTo e.originals.toList =
      after.foldl simplifyOriginal (e.simplifiedUpTo (before ++ [id])) := by
    rw [list', simplifiedUpTo, List.foldl_append, simplifiedUpTo]
  obtain ⟨-, originals, -⟩ := h.recalls.learntsSimplified h.zero h.propagated
  rw [← all, simplifiedUpTo_append_singleton, engine] at rest
  rw [simplifyAll_eq, originals]
  exact ⟨rest _ _ here.1, rest _ _ here.2⟩

/-! ### A whole simplification -/

/-- All clauses are simplified by the facts of an engine, and it is noted by how many. -/
structure Done (F : List (List Lit)) (g f : Engine) : Prop where
  due : g.simplifiedAt ≠ some g.trail.size
  settled : f.Settled F
  noted : f.simplifiedAt = some f.trail.size
  retains : g.simplifyAll.Retains f
  same : g.trail.Same f.trail

/-- A simplification propagates. Then it has nothing to do, or it goes through all clauses. -/
theorem Settled.simplify_cases (h : e.Settled F) (zero : e.trail.level = 0) {outcome : Simplification}
    (result : e.simplify = (outcome, f)) (consistent : outcome ≠ .refuted) :
    ∃ g, e.propagate = (g, none) ∧ g.Quiet F ∧
      (outcome = .upToDate ∧ g.simplifiedAt = some g.trail.size ∧ f = g ∨
        outcome = .done ∧ g.Done F f) := by
  have spec := h.simplify zero result
  rw [if_neg consistent] at spec
  cases tidying_of_simplify h.ok result with
  | clash => exact absurd rfl consistent
  | upToDate run noted =>
    exact ⟨f, run, h.quiet_propagate zero run, .inl ⟨rfl, noted, rfl⟩⟩
  | @done g run due =>
    have quiet := h.quiet_propagate zero run
    obtain ⟨-, -, same⟩ := quiet.recalls.simplifyAll quiet.zero quiet.propagated
    exact ⟨g, run, quiet, .inr ⟨rfl, due, spec.1.toSettled, rfl, .of_eq rfl rfl rfl, same⟩⟩

theorem Done.compact (h : g.Done F e) (result : e.compact = .ok f) : g.Done F f := by
  obtain ⟨recalls, framed, same⟩ := h.settled.recalls.compact result
  refine ⟨h.due, recalls.settled (framed.ok.trans h.settled.ok), ?_,
    h.retains.trans (h.settled.retains_compact result), h.same.trans same⟩
  rw [(uneventful_compact h.settled result).simplifiedAt, h.noted, Trail.size, Trail.size, same.lits]

/-- With nothing left to propagate, propagation does nothing. -/
theorem propagate_of_propagated (propagated : e.trail.head = e.trail.lits.size) :
    e.propagate = (e, none) := by
  have queue : e.trail.lits[e.trail.head]? = none := Array.getElem?_eq_none (by omega)
  unfold propagate
  cases e.numVars with
  | zero => rfl
  | succ n => rw [propagateFrom, queue]

end Engine

namespace Solver

open Engine

variable {F : List (List Lit)} {s t : Solver} {a b : Lit}

/-- An original clause becomes this pair as the solver simplifies its clauses. -/
def Pairs (s : Solver) (a b : Lit) : Prop :=
  ∃ g, s.engine.propagate = (g, none) ∧ g.simplifiedAt ≠ some g.trail.size ∧ g.PairedBy a b

/-- What the second solver is if it is the first one after a simplification. -/
structure Cleaned (s t : Solver) : Prop where
  zero : t.engine.trail.level = 0
  propagated : t.engine.trail.head = t.engine.trail.lits.size
  originals : ∀ id, (t.engine.clause id).isOriginal = true →
    3 ≤ (t.engine.clause id).size ∧ ((t.engine.clause id).lits.toList.map Lit.var).Nodup ∧
      ∀ l ∈ (t.engine.clause id).lits, t.engine.trail.value l.var = .undecided
  pairs : ∀ a b, s.Pairs a b →
    (b ∈ t.engine.watches.binary.get a.neg ∧ a ∈ t.engine.watches.binary.get b.neg) ∧
      t.engine.trail.value a.var = .undecided ∧ t.engine.trail.value b.var = .undecided
  /-- Another simplification changes nothing. -/
  again : t.simplify = (.ok true, t)

/-- A solver without contradiction whose clauses were simplified by all its facts has nothing to do. -/
theorem simplify_of_upToDate (ok : s.engine.ok = true)
    (propagated : s.engine.trail.head = s.engine.trail.lits.size)
    (noted : s.engine.simplifiedAt = some s.engine.trail.size) : s.simplify = (.ok true, s) := by
  have same : s.engine.simplify = (.upToDate, s.engine) := by
    simp [Engine.simplify, ok, propagate_of_propagated propagated, noted]
  simp only [simplify, same]

theorem ok_of_simplify (simplified : s.simplify = (.ok true, t)) : s.engine.ok = true := by
  by_contra refuted
  have notOk : s.engine.ok = false := by simpa using refuted
  simp [simplify, Engine.simplify, notOk] at simplified

/-- A simplification that succeeds propagates. Then it has nothing to do, or it goes through all clauses. -/
theorem simplify_cases (h : s.engine.Settled F) (zero : s.engine.trail.level = 0)
    (simplified : s.simplify = (.ok true, t)) :
    ∃ g, s.engine.propagate = (g, none) ∧ g.Quiet F ∧
      (g.simplifiedAt = some g.trail.size ∧ t.engine = g ∨ g.Done F t.engine) := by
  unfold simplify at simplified
  rcases result : s.engine.simplify with ⟨outcome, f⟩
  rw [result] at simplified
  have cases := h.simplify_cases zero result
  cases outcome with
  | refuted => cases simplified
  | upToDate =>
    cases simplified
    obtain ⟨g, run, quiet, ⟨-, noted, same⟩ | ⟨other, -⟩⟩ := cases nofun
    · exact ⟨g, run, quiet, .inl ⟨noted, same⟩⟩
    · cases other
  | done =>
    obtain ⟨g, run, quiet, ⟨other, -⟩ | ⟨-, done⟩⟩ := cases nofun
    · cases other
    refine ⟨g, run, quiet, .inr ?_⟩
    have engine := engine_of_settle simplified
    rw [(noted_notify { s with engine := f, pureLitsStale := true } .simplified).engine] at engine
    rcases engine with same | compacted
    · rw [same]
      exact done
    · exact done.compact compacted

/-- Whether or not it goes through the clauses, a simplification that succeeds leaves them clean. -/
theorem clean_of_simplify (h : History F s ∨ Simplifies F s) (simplified : s.simplify = (.ok true, t)) :
    s.Cleaned t := by
  have asks : Simplifies F s := h.elim (fun before => .asked before (ok_of_simplify simplified)) id
  obtain ⟨orderly, ⟨log, working⟩, zero⟩ := asks.orderly
  have settled := working.settled
  have quiet := quiet_of_simplify settled zero simplified
  obtain ⟨order, dated⟩ := (asks.again simplified).keeps (P := Engine.Dated)
    (fun opts _ => dated_initial opts) Turn.dated
  obtain ⟨g, run, quiet', cases⟩ := simplify_cases settled zero simplified
  have noted : t.engine.simplifiedAt = some t.engine.trail.size := by
    rcases cases with ⟨noted, same⟩ | done
    · rw [same]
      exact noted
    · exact done.noted
  have clean : t.engine.OriginalsOpen := by
    refine (dated _ noted).2 ?_
    rw [Trail.facts_of_level_zero quiet.zero, Array.length_toList]
    rfl
  refine ⟨quiet.zero, quiet.propagated, fun id original => ?_, fun a b pairs => ?_,
    simplify_of_upToDate quiet.ok quiet.propagated noted⟩
  · have proper := order.sound.proper id (Clause.isOriginal_iff.mp original).1
    exact ⟨proper.size, proper.distinct, fun l inside =>
      (order.sound.undecided_iff quiet.zero).mpr
        (clean id (order.mem_originals_iff.mpr original) l inside)⟩
  · obtain ⟨g', run', due, paired⟩ := pairs
    cases run.symm.trans run'
    rcases cases with ⟨noted', -⟩ | done
    · exact absurd noted' due
    · obtain ⟨left, right⟩ := paired.stored quiet'
      have undecided := paired.undecided quiet'
      unfold Trail.value at undecided ⊢
      rw [done.same.values]
      exact ⟨⟨done.retains.pairs _ _ left, done.retains.pairs _ _ right⟩, undecided⟩

/-- By the fact that comes last one clause becomes a pair and another one loses a literal. -/
theorem clean_of_simplify_shortened : ∃ s t, History (clausesOf [[1, 2, 5], [2, 3, 4, 5], [-5]]) s ∧
    s.simplify = (.ok true, t) ∧ s.Pairs (.ofDimacs 1) (.ofDimacs 2) ∧
      (∃ id, (t.engine.clause id).isOriginal = true ∧
        (t.engine.clause id).lits = #[.ofDimacs 2, .ofDimacs 3, .ofDimacs 4]) ∧ s.Cleaned t := by
  let short : Array Lit := #[.ofDimacs 2, .ofDimacs 3, .ofDimacs 4]
  let isPair (e : Engine) : Bool := match e.originals.toList with
    | id :: _ =>
      let learnts := (e.simplifiedUpTo []).engine
      (learnts.simplifyClause id).1 == .becameBinary && (learnts.clause id).lit 0 == .ofDimacs 1 &&
        (learnts.clause id).lit 1 == .ofDimacs 2
    | [] => false
  have passes : sessionPasses {} 9 (giving 5 (clausesOf [[1, 2, 5], [2, 3, 4, 5], [-5]]))
      (clausesOf [[1, 2, 5], [2, 3, 4, 5], [-5]])
      (fun s => (match s.engine.propagate with
          | (g, none) => !(g.simplifiedAt == some g.trail.size) && isPair g
          | _ => false) &&
        s.simplifyPasses fun t => t.engine.originals.any fun id =>
          (t.engine.clause id).isOriginal && (t.engine.clause id).lits == short) = true := by
    decide +kernel
  obtain ⟨s, history, tests⟩ := exists_of_sessionPasses passes
  obtain ⟨pair, shrunk⟩ := Bool.and_eq_true_iff.mp tests
  obtain ⟨t, simplified, shrunk⟩ := exists_of_simplifyPasses shrunk
  refine ⟨s, t, history, simplified, ?_, ?_, clean_of_simplify (.inl history) simplified⟩
  · split at pair
    case h_2 => cases pair
    next g run =>
    obtain ⟨due, made⟩ := Bool.and_eq_true_iff.mp pair
    refine ⟨g, run, by simpa using due, ?_⟩
    unfold isPair at made
    split at made
    next id rest list =>
      obtain ⟨made, right⟩ := Bool.and_eq_true_iff.mp made
      obtain ⟨becomes, left⟩ := Bool.and_eq_true_iff.mp made
      rw [← eq_of_beq left, ← eq_of_beq right]
      exact @PairedBy.mk g [] rest id _ list (Prod.ext (eq_of_beq becomes) rfl)
    next => cases made
  · obtain ⟨id, -, test⟩ := Array.any_eq_true'.mp shrunk
    obtain ⟨original, lits⟩ := Bool.and_eq_true_iff.mp test
    exact ⟨id, original, eq_of_beq lits⟩

end Solver

end Cdcl
