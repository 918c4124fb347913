import Cdcl.Proofs.Faithfulness

/-!
# New clauses

A clause of two literals goes into the watch lists only, a longer one into the arena, and is watched
on its first two literals. Both keep an engine regular; a new original clause is covered from the
start if the literals it is watched on are not false.

## Main results

- `Regular.storeOriginal`, `Faithful.storeLearnt`: storing a clause of three literals or more.
- `Regular.addPair`, `Faithful.addBinary`: adding a clause of two.
-/

namespace Cdcl

/-- The second arena has one more clause. -/
structure ClauseArena.Adds (a : ClauseArena) (id : ClauseId) (c : Clause) (b : ClauseArena) : Prop where
  fresh : id.slot = a.clauses.size
  size : b.clauses.size = a.clauses.size + 1
  get : ∀ other, b.get other = if other = id then c else a.get other

theorem ClauseArena.adds_alloc {a b : ClauseArena} {lits : Array Lit} {learnt : Bool} {id : ClauseId}
    (result : a.alloc lits learnt = .ok (id, b)) : a.Adds id (.fresh lits learnt) b := by
  have get := get_alloc result
  obtain ⟨-, rfl, space, -, rfl⟩ := alloc_eq_ok_iff.mp result
  refine ⟨rfl, by simp, fun other => ?_⟩
  by_cases valid : other.slot < a.clauses.size ∨ other = ⟨a.clauses.size⟩
  · exact get other valid
  · obtain ⟨outside, ne⟩ := not_or.mp valid
    have beyond : a.clauses.size ≠ other.slot := fun same => ne (by cases other; cases same; rfl)
    rw [if_neg ne, get_eq, get_eq, Array.getElem?_eq_none (by simp; omega),
      Array.getElem?_eq_none (by omega)]

theorem ClauseArena.Adds.modify {a b : ClauseArena} {id : ClauseId} {c : Clause}
    (h : a.Adds id c b) (f : Clause → Clause) : a.Adds id (f c) (b.modify id f) where
  fresh := h.fresh
  size := by simp [ClauseArena.modify, h.size]
  get := by
    intro other
    rw [ClauseArena.get_modify _ _ _ _ (by rw [h.fresh, h.size]; omega), h.get]
    by_cases same : id = other
    · rw [if_pos same, if_pos same.symm, if_pos same.symm]
    · rw [if_neg same, if_neg (Ne.symm same), if_neg (Ne.symm same)]

theorem Watches.mem_addBinary {w : Watches} {a b p q : Lit} :
    q ∈ (w.addBinary a b).binary.get p ↔
      q ∈ w.binary.get p ∨ a.neg = p ∧ q = b ∨ b.neg = p ∧ q = a := by
  simp only [addBinary, DenseMap.get_modify]
  split
  next atB =>
    split
    next atA => simp [Array.mem_push, atA, atB, or_assoc]
    next atA => simp [Array.mem_push, atA, atB]
  next atB =>
    split
    next atA => simp [Array.mem_push, atA, atB]
    next atA => simp [atA, atB]

namespace Engine

variable {F : List (List Lit)} {L : Ledger} {m : Nat} {e f : Engine} {ids aside : List ClauseId}
  {pairs : List (Lit × Lit)} {a b : Lit} {id : ClauseId} {c : Clause} {arena : ClauseArena}

/-! ### Clauses of two literals -/

theorem addBinary_eq (e : Engine) (a b : Lit) (learnt : Bool) : ∃ tally,
    e.addBinary a b learnt = { e with watches := e.watches.addBinary a b, tally } := by
  unfold addBinary
  cases learnt
  · exact ⟨_, rfl⟩
  · exact ⟨_, rfl⟩

theorem framed_addBinary (e : Engine) (a b : Lit) (learnt : Bool) :
    e.Framed (e.addBinary a b learnt) := by
  obtain ⟨tally, same⟩ := e.addBinary_eq a b learnt
  rw [same]
  exact { Framed.refl e with }

theorem Sound.addBinary (h : e.Sound aside) (aBound : a.var.index < e.numVars)
    (bBound : b.var.index < e.numVars) :
    ({ e with watches := e.watches.addBinary a b } : Engine).Sound aside :=
  { h with
    justified := by
      intro i l at_i
      exact (h.justified at_i).transfer (.refl _ _)
        (fun _ _ old => Watches.mem_addBinary.mpr (.inl old))
        fun _ _ attached first => ⟨attached, first, fun _ => .rfl⟩
    binary_bounded := by
      intro p q member
      rcases Watches.mem_addBinary.mp member with old | ⟨rfl, rfl⟩ | ⟨rfl, rfl⟩
      · exact h.binary_bounded p q old
      · exact ⟨aBound, bBound⟩
      · exact ⟨bBound, aBound⟩
    tracked := { h.tracked with }
    blank := { h.blank with binary := by simp [Watches.addBinary, h.blank.binary] } }

theorem Regular.addBinary (h : e.Regular L m) (aBound : a.var.index < e.numVars)
    (bBound : b.var.index < e.numVars) (learnt : Bool) : (e.addBinary a b learnt).Regular L m := by
  obtain ⟨tally, same⟩ := e.addBinary_eq a b learnt
  rw [same]
  have added : ({ e with watches := e.watches.addBinary a b } : Engine).Regular L m :=
    { sound := h.sound.addBinary aBound bBound
      apart := { h.apart with }
      listed := { h.listed with }
      guarded :=
        { h.guarded with
          pairs := fun x y member => Watches.mem_addBinary.mpr (.inl (h.guarded.pairs x y member)) }
      guards := ⟨h.guards.clauses, h.guards.pairs⟩
      offers := h.offers }
  exact added.books

theorem respected_addBinary {σ : Valuation} (h : e.Respected σ)
    (holds : σ.satisfiesLit a ∨ σ.satisfiesLit b) (learnt : Bool) :
    (e.addBinary a b learnt).Respected σ := by
  obtain ⟨tally, same⟩ := e.addBinary_eq a b learnt
  rw [same]
  refine { h with binary := fun p q member assumed => ?_ }
  rcases Watches.mem_addBinary.mp member with old | ⟨rfl, rfl⟩ | ⟨rfl, rfl⟩
  · exact h.binary p q old assumed
  · exact holds.resolve_left ((σ.satisfiesLit_neg a).mp assumed)
  · exact holds.resolve_right ((σ.satisfiesLit_neg b).mp assumed)

theorem keeps_addBinary (e : Engine) (L : Ledger) (a b : Lit) (learnt : Bool) :
    e.Keeps L (e.addBinary a b learnt) L := by
  obtain ⟨tally, same⟩ := e.addBinary_eq a b learnt
  rw [same]
  exact .of_same (fun _ => id) rfl

/-- A clause of two literals that the formula implies may be added. -/
theorem Faithful.addBinary (h : e.Faithful F L m) (aBound : a.var.index < e.numVars)
    (bBound : b.var.index < e.numVars) (learnt : Bool)
    (implied : ∀ σ : Valuation, σ.satisfies F → σ.satisfiesLit a ∨ σ.satisfiesLit b) :
    (e.addBinary a b learnt).Faithful F L m where
  toRegular := h.toRegular.addBinary aBound bBound learnt
  upheld := fun σ holds => respected_addBinary (h.upheld σ holds) (implied σ holds) learnt
  held := fun c given => (h.held c given).keeps (e.keeps_addBinary L a b learnt)

/-- A stored clause of two literals that are covered may be answered for. -/
theorem Regular.coverPair (h : e.Regular L m) (differ : a.var ≠ b.var)
    (atA : b ∈ e.watches.binary.get a.neg) (atB : a ∈ e.watches.binary.get b.neg)
    (aCovered : e.trail.Before m a.neg → e.trail.Covers #[b] a)
    (bCovered : e.trail.Before m b.neg → e.trail.Covers #[a] b) : e.Regular (L.addPair a b) m :=
  -- A pair of the ledger is the new one, either way round, or an old one.
  { h with
    listed :=
      { h.listed with
        symmetric := by
          intro x y member
          simp only [Ledger.addPair, List.mem_cons, Prod.mk.injEq] at member ⊢
          rcases member with ⟨rfl, rfl⟩ | ⟨rfl, rfl⟩ | member
          · exact ⟨.inr (.inl ⟨rfl, rfl⟩), differ⟩
          · exact ⟨.inl ⟨rfl, rfl⟩, differ.symm⟩
          · exact (h.listed.symmetric x y member).imp_left fun old => .inr (.inr old) }
    guarded :=
      { h.guarded with
        pairs := by
          intro x y member
          rcases List.mem_cons.mp member with same | member
          · cases same
            exact atA
          rcases List.mem_cons.mp member with same | member
          · cases same
            exact atB
          · exact h.guarded.pairs x y member }
    guards :=
      { h.guards with
        pairs := by
          intro x y member before
          rcases List.mem_cons.mp member with same | member
          · cases same
            exact aCovered before
          rcases List.mem_cons.mp member with same | member
          · cases same
            exact bCovered before
          · exact h.guards.pairs x y member before } }

/-- A literal that is not false is not false before some position either. -/
theorem Sound.not_before (h : e.Sound aside) (free : e.trail.isFalse a = false) :
    ¬ e.trail.Before m a.neg := fun before => by
  rw [(h.trail.isFalse_iff a).mpr before.mem] at free
  cases free

/-- A clause of two literals, neither of which is false, may be added and answered for. -/
theorem Regular.addPair (h : e.Regular L m) (aBound : a.var.index < e.numVars)
    (bBound : b.var.index < e.numVars) (differ : a.var ≠ b.var)
    (aFree : e.trail.isFalse a = false) (bFree : e.trail.isFalse b = false) (learnt : Bool) :
    (e.addBinary a b learnt).Regular (L.addPair a b) m := by
  have added := h.addBinary aBound bBound learnt
  obtain ⟨tally, same⟩ := e.addBinary_eq a b learnt
  rw [same] at added ⊢
  refine added.coverPair differ ?_ ?_ (fun before => absurd before (h.sound.not_before aFree))
    fun before => absurd before (h.sound.not_before bFree)
  · exact Watches.mem_addBinary.mpr (.inr (.inl ⟨rfl, rfl⟩))
  · exact Watches.mem_addBinary.mpr (.inr (.inr ⟨rfl, rfl⟩))

theorem keeps_addPair (e : Engine) (L : Ledger) (a b : Lit) : e.Keeps L e (L.addPair a b) :=
  .of_sub (fun _ => id) (fun _ member => List.mem_cons_of_mem _ (List.mem_cons_of_mem _ member))
    (fun _ => id) fun _ _ _ => id

theorem held_addPair {c : List Lit} (left : a ∈ c) (right : b ∈ c) : e.Held (L.addPair a b) c :=
  .pair a b List.mem_cons_self left right

/-! ### Longer clauses -/

section Place

variable (added : e.arena.Adds id c arena)

include added

theorem Adds.clause (other : ClauseId) :
    arena.get other = if other = id then c else e.clause other := added.get other

theorem Adds.ne (used : (e.clause aid).isRemoved = false) : aid ≠ id := by
  rintro rfl
  have := slot_lt used
  have := added.fresh
  omega

theorem Adds.self : arena.get id = c := by
  rw [Adds.clause added, if_pos rfl]

theorem Adds.other {x : ClauseId} (ne : x ≠ id) : arena.get x = e.clause x := by
  rw [Adds.clause added, if_neg ne]

/-- No list has an entry of a clause that is new. -/
theorem Sound.entriesOf_new (h : e.Sound aside) (p : Lit) :
    entriesOf id (e.watches.long.get p) = 0 := by
  by_contra some
  obtain ⟨w, member, same⟩ := entriesOf_pos_iff.mp (Nat.pos_of_ne_zero some)
  have := h.inside p w member
  have := added.fresh
  rw [same] at *
  omega

/-- Before it is watched, a new clause is as if it were set aside. -/
theorem Sound.tracks_new (h : e.Sound aside) (attached : c.isAttached = true) :
    e.watches.Tracks arena.get (id :: aside) := by
  have usable {x : ClauseId} (member : x ∈ aside) : x ≠ id :=
    Adds.ne added (isRemoved_of_isAttached (h.tracked.usable x member))
  have absent := h.entriesOf_new added
  constructor
  case exact =>
    intro x xAttached notAside p
    simp only [List.mem_cons, not_or] at notAside
    rw [Adds.other added notAside.1] at xAttached ⊢
    exact h.tracked.exact x xAttached notAside.2 p
  case usable =>
    intro x member
    rcases List.mem_cons.mp member with rfl | later
    · rw [Adds.self added]
      exact attached
    · rw [Adds.other added (usable later)]
      exact h.tracked.usable x later
  case aside =>
    intro x member
    rcases List.mem_cons.mp member with rfl | later
    · exact absent
    · exact h.tracked.aside x later
  case stale =>
    intro x detached p some
    have ne : x ≠ id := by
      rintro rfl
      have := absent p
      omega
    rw [Adds.other added ne] at detached
    exact h.tracked.stale x detached p some
  case listed => exact h.tracked.listed

theorem Sound.place (h : e.Sound aside) (proper : c.Proper e.numVars)
    (attached : c.isAttached = true) :
    ({ e with arena, watches := e.watches.watch id (c.lit 0) (c.lit 1) } : Engine).Sound aside := by
  have size := proper.size
  have self := Adds.self added
  have other {x : ClauseId} (ne : x ≠ id) : arena.get x = e.clause x := Adds.other added ne
  have distinct : (arena.get id).lit 0 ≠ (arena.get id).lit 1 := fun same => by
    rw [self] at same
    exact absurd (proper.lit_inj (by omega) (by omega) (congrArg Lit.var same)) Nat.zero_ne_one
  have tracked := (h.tracks_new added attached).watch
    (fun member => Adds.ne added (isRemoved_of_isAttached (h.tracked.usable id member)) rfl) distinct
  rw [self] at tracked
  constructor
  case trail => exact h.trail
  case justified =>
    intro i l at_i
    refine (h.justified at_i).transfer (.refl _ _) (fun _ _ old => old) fun x _ working first => ?_
    change (arena.get x).isAttached = true ∧ (arena.get x).lit 0 = l ∧
      ∀ q, q ∈ (arena.get x).tail ↔ q ∈ (e.clause x).tail
    rw [other (Adds.ne added (isRemoved_of_isAttached working))]
    exact ⟨working, first, fun _ => .rfl⟩
  case proper =>
    intro x used
    change (arena.get x).isRemoved = false at used
    change (arena.get x).Proper e.numVars
    by_cases same : x = id
    · subst same
      rw [self]
      exact proper
    · rw [other same] at used ⊢
      exact h.proper x used
  case binary_bounded => exact h.binary_bounded
  case tracked => exact tracked
  case inside =>
    intro p w member
    have := added.fresh
    have := added.size
    dsimp only
    rcases Watches.mem_watch.mp member with old | ⟨_, rfl⟩ | ⟨_, rfl⟩
    · have := h.inside p w old
      omega
    · dsimp only
      omega
    · dsimp only
      omega
  case blockers =>
    intro p w member isAttached
    change (arena.get w.clause).isAttached = true at isAttached
    change w.blocker ∈ (arena.get w.clause).lits ∨ _
    rcases Watches.mem_watch.mp member with old | ⟨_, rfl⟩ | ⟨_, rfl⟩
    · -- No list had an entry of the new clause.
      have ne := clause_ne_of_entriesOf (h.entriesOf_new added p) old
      rw [other ne] at isAttached ⊢
      exact h.blockers p w old isAttached
    · rw [self]
      exact .inl (Clause.lit_mem (by omega))
    · rw [self]
      exact .inl (Clause.lit_mem (by omega))
  case blank => exact h.blank.watch _ _ _
  case unseen => exact h.unseen

theorem FrozenApart.place (h : e.FrozenApart) (attached : c.isAttached = true) :
    ({ e with arena, watches := e.watches.watch id (c.lit 0) (c.lit 1) } : Engine).FrozenApart := by
  have old {x : ClauseId} (frozen : (arena.get x).isFrozen = true) :
      x ≠ id ∧ arena.get x = e.clause x := by
    have ne : x ≠ id := by
      rintro rfl
      rw [Adds.self added, isFrozen_of_isAttached attached] at frozen
      cases frozen
    exact ⟨ne, Adds.other added ne⟩
  constructor
  · intro x used frozen p
    change (arena.get x).isRemoved = false at used
    change (arena.get x).isFrozen = true at frozen
    obtain ⟨ne, same⟩ := old frozen
    rw [same] at used frozen
    change entriesOf x ((e.watches.watch id (c.lit 0) (c.lit 1)).long.get p) = 0
    rw [Watches.entriesOf_watch_other ne.symm]
    exact h.unwatched x used frozen p
  · intro p w member used frozen
    change (arena.get w.clause).isRemoved = false at used
    change (arena.get w.clause).isFrozen = true at frozen
    change p.neg ∈ (arena.get w.clause).lits ∧ w.blocker ∈ (arena.get w.clause).lits
    have same := (old frozen).2
    rw [same] at used frozen ⊢
    exact h.entries p w member used frozen

/-- The clauses answered for so far stay as they are. -/
theorem Regular.place (h : e.Regular L m) (proper : c.Proper e.numVars)
    (attached : c.isAttached = true) :
    ({ e with arena, watches := e.watches.watch id (c.lit 0) (c.lit 1) } : Engine).Regular L m := by
  have other {x : ClauseId} (used : (e.clause x).isRemoved = false) : arena.get x = e.clause x := by
    rw [added.get, if_neg (Adds.ne added used)]
    rfl
  refine { sound := ?sound, apart := ?apart, listed := ?listed, guarded := ?guarded, guards := ?guards, offers := ?offers }
  case sound => exact h.sound.place added proper attached
  case apart => exact h.apart.place added attached
  case listed =>
    exact
      { h.listed with
        learnt := fun x member => by
          change (arena.get x).isRemoved = false ∧ (arena.get x).isLearnt = true
          rw [other (h.listed.learnt x member).1]
          exact h.listed.learnt x member }
  case guarded =>
    refine { h.guarded with clauses := fun x member => ?_ }
    change (arena.get x).isAttached = true ∧ _
    rw [other (isRemoved_of_isAttached (h.guarded.clauses x member).1)]
    exact h.guarded.clauses x member
  case guards =>
    refine { h.guards with clauses := fun x member w watched before => ?_ }
    have same := other (isRemoved_of_isAttached (h.guarded.clauses x member).1)
    change w = (arena.get x).lit 0 ∨ w = (arena.get x).lit 1 at watched
    change e.trail.Covers (arena.get x).lits w
    rw [same] at watched ⊢
    exact h.guards.clauses x member w watched before
  case offers => exact h.offers

theorem respected_place {σ : Valuation} (h : e.Respected σ)
    (holds : σ.satisfiesClause c.lits.toList) :
    ({ e with arena, watches := e.watches.watch id (c.lit 0) (c.lit 1) } : Engine).Respected σ := by
  refine { h with clauses := fun x used => ?_, binary := h.binary }
  change (arena.get x).isRemoved = false at used
  change σ.satisfiesClause (arena.get x).lits.toList
  rw [added.get] at used ⊢
  split at used
  next same =>
    rw [if_pos same]
    exact holds
  next other =>
    rw [if_neg other]
    exact h.clauses x used

end Place

/-! ### Storing -/

/-- A clause in use whose first two literals are covered may be answered for as an original one. -/
theorem Regular.coverOriginal (h : e.Regular L m) (attached : (e.clause id).isAttached = true)
    (notLearnt : id ∉ L.learnts) (new : id ∉ L.aside ++ L.originals)
    (covered : ∀ w, e.Watched id w → e.trail.Before m w.neg →
      e.trail.Covers (e.clause id).lits w) : e.Regular (L.addOriginal id) m :=
  { h with
    listed :=
      { h.listed with
        originals_nodup := by
          change (L.aside ++ (L.originals ++ [id])).Nodup
          rw [← List.append_assoc]
          refine h.listed.originals_nodup.append (List.nodup_singleton _) ?_
          exact fun x member same => new (List.mem_singleton.mp same ▸ member)
        disjoint := fun x learnt member => by
          change x ∈ L.aside ++ (L.originals ++ [id]) at member
          rw [← List.append_assoc] at member
          rcases List.mem_append.mp member with old | same
          · exact h.listed.disjoint x learnt old
          · exact notLearnt (List.mem_singleton.mp same ▸ learnt) }
    guarded :=
      { h.guarded with
        clauses := fun x member => by
          rcases List.mem_append.mp member with old | same
          · exact h.guarded.clauses x old
          · rw [List.mem_singleton.mp same]
            exact ⟨attached, fun inside => new (List.mem_append_left _ inside)⟩ }
    guards :=
      { h.guards with
        clauses := fun x member w watched before => by
          rcases List.mem_append.mp member with old | same
          · exact h.guards.clauses x old w watched before
          · rw [List.mem_singleton.mp same] at watched ⊢
            exact covered w watched before } }

/-- A clause in use whose first two literals are not false may be answered for as an original one. -/
theorem Regular.addOriginal (h : e.Regular L m) (attached : (e.clause id).isAttached = true)
    (notLearnt : id ∉ L.learnts) (new : id ∉ L.aside ++ L.originals)
    (free : ∀ w, e.Watched id w → e.trail.isFalse w = false) : e.Regular (L.addOriginal id) m :=
  h.coverOriginal attached notLearnt new fun w watched before =>
    absurd before (h.sound.not_before (free w watched))

theorem Regular.addLearnt (h : e.Regular L m) (used : (e.clause id).isRemoved = false)
    (learnt : (e.clause id).isLearnt = true) (new : id ∉ L.learnts)
    (notOriginal : id ∉ L.aside ++ L.originals) : e.Regular (L.addLearnt id) m :=
  { h with
    listed :=
      { h.listed with
        learnts_nodup := by
          refine h.listed.learnts_nodup.append (List.nodup_singleton _) ?_
          exact fun x member same => new (List.mem_singleton.mp same ▸ member)
        disjoint := fun x member => by
          rcases List.mem_append.mp member with old | same
          · exact h.listed.disjoint x old
          · exact List.mem_singleton.mp same ▸ notOriginal
        learnt := fun x member => by
          rcases List.mem_append.mp member with old | same
          · exact h.listed.learnt x old
          · rw [List.mem_singleton.mp same]
            exact ⟨used, learnt⟩ }
    guarded := { h.guarded with } }

theorem isAttached_fresh (lits : Array Lit) (learnt : Bool) :
    (Clause.fresh lits learnt).isAttached = true := by
  cases learnt <;> rfl

theorem isLearnt_fresh (lits : Array Lit) (learnt : Bool) :
    (Clause.fresh lits learnt).isLearnt = learnt := by
  cases learnt <;> rfl

theorem proper_fresh {n : Nat} {lits : Array Lit} (size : 3 ≤ lits.size)
    (distinct : (lits.toList.map Lit.var).Nodup) (bounded : ∀ l ∈ lits, l.var.index < n)
    (learnt : Bool) : (Clause.fresh lits learnt).Proper n :=
  ⟨size, distinct, bounded, rfl⟩

/-- The engine once an original clause has its handle, and is listed, watched and counted. -/
def withOriginal (e : Engine) (id : ClauseId) (arena : ClauseArena) (lits : Array Lit) : Engine :=
  { e with
    arena
    watches := e.watches.watch id ((arena.get id).lit 0) ((arena.get id).lit 1)
    originals := e.originals.push id
    tally :=
      { e.tally with
        originals := e.tally.originals + 1
        originalLits := e.tally.originalLits + lits.size } }

theorem storeOriginal_eq {lits : Array Lit} (result : e.storeOriginal lits = .ok f) : ∃ id arena,
    e.arena.alloc lits false = .ok (id, arena) ∧ f = e.withOriginal id arena lits := by
  unfold storeOriginal at result
  split at result
  · cases result
  next alloc =>
    cases result
    refine ⟨_, _, alloc, ?_⟩
    dsimp only [withOriginal, attach, modifyWatches, modifyTally, clause]

/-- Storing an original clause, neither of whose first two literals is false. -/
theorem Regular.storeOriginal (h : e.Regular L m) {lits : Array Lit}
    (proper : (Clause.fresh lits false).Proper e.numVars)
    (free : ∀ l ∈ lits, e.trail.isFalse l = false) (result : e.storeOriginal lits = .ok f) :
    ∃ id, f.Regular (L.addOriginal id) m ∧ e.Framed f ∧ f.originals = e.originals.push id ∧
      f.learnts = e.learnts ∧ f.trail = e.trail ∧
      (∀ σ, e.Respected σ → σ.satisfiesClause lits.toList → f.Respected σ) ∧
      e.Keeps L f (L.addOriginal id) ∧ f.Held (L.addOriginal id) lits.toList := by
  obtain ⟨id, arena, alloc, rfl⟩ := storeOriginal_eq result
  have added := ClauseArena.adds_alloc alloc
  have attached := isAttached_fresh lits false
  have self : arena.get id = .fresh lits false := by rw [added.get, if_pos rfl]
  have size := proper.size
  simp only [withOriginal, self]
  -- The handle is new: nothing that is listed has a clause there.
  have fresh : id ∉ L.aside ++ L.originals := fun member => Adds.ne added (h.live member) rfl
  refine ⟨id, ?_, ⟨⟨rfl, rfl, rfl, rfl⟩, .refl _⟩, rfl, trivial, trivial, fun σ old holds => ?_, ?_, ?_⟩
  · have placed := h.place added proper attached
    have listed := @Regular.addOriginal L m _ id placed ?_ ?_ ?_ ?_
    exact listed.books
    · change (arena.get id).isAttached = true
      rw [self]
      exact attached
    · exact fun member => Adds.ne added (h.listed.learnt id member).1 rfl
    · exact fresh
    · intro w watched
      change w = (arena.get id).lit 0 ∨ w = (arena.get id).lit 1 at watched
      rw [self] at watched
      have inside {i : Nat} (low : i < 3) : (Clause.fresh lits false).lit i ∈ lits :=
        Clause.lit_mem (c := .fresh lits false) (by omega)
      rcases watched with rfl | rfl
      · exact free _ (inside (by omega))
      · exact free _ (inside (by omega))
  · exact { respected_place added old holds with }
  · refine .of_sub (fun _ old => old) (fun _ old => old) (fun x member => ?_) fun x member l inside => ?_
    · exact (List.append_assoc ..) ▸ List.mem_append_left [id] member
    · change l ∈ (arena.get x).lits at inside
      rw [added.get, if_neg (Adds.ne added (h.live member))] at inside
      exact inside
  · refine .clause id ?_ fun l inside => ?_
    · exact List.mem_append_right _ (List.mem_append_right _ (List.mem_singleton.mpr rfl))
    · change l ∈ (arena.get id).lits at inside
      rw [self] at inside
      exact Array.mem_toList_iff.mpr inside

/-- The engine once a learnt clause has its handle, and is listed, watched and counted. -/
def withLearnt (e : Engine) (id : ClauseId) (arena : ClauseArena) (lits : Array Lit) (lbd : Nat) : Engine :=
  let arena := arena.modify id (·.setLbd lbd)
  { e with
    arena
    watches := e.watches.watch id ((arena.get id).lit 0) ((arena.get id).lit 1)
    learnts := e.learnts.push id
    recentLearnts := e.recentLearnts + 1
    tally :=
      { e.tally with learnts := e.tally.learnts + 1, learntLits := e.tally.learntLits + lits.size }
    lbdCounts := e.lbdCounts.modify (min lbd Clause.maxLbd) (· + 1) }

section Learnt

variable {lits : Array Lit} {lbd : Nat}

/-- In the end a learnt clause that was stored is bumped. -/
theorem storeLearnt_eq (result : e.storeLearnt lits lbd = .ok (id, f)) : ∃ arena,
    e.arena.alloc lits true = .ok (id, arena) ∧ f = (e.withLearnt id arena lits lbd).bumpClause id := by
  unfold storeLearnt at result
  split at result
  · cases result
  next alloc =>
    cases result
    refine ⟨_, alloc, ?_⟩
    dsimp only [withLearnt, attach, modifyWatches, modifyTally, recordLbd, clause]

theorem clause_withLearnt (alloc : e.arena.alloc lits true = .ok (id, arena)) (lbd : Nat) (x : ClauseId) :
    (e.withLearnt id arena lits lbd).clause x =
      if x = id then (Clause.fresh lits true).setLbd lbd else e.clause x :=
  ((ClauseArena.adds_alloc alloc).modify (·.setLbd lbd)).get x

/-- A learnt clause that the formula implies is listed and watched. -/
theorem Faithful.withLearnt (h : e.Faithful F L m) (proper : (Clause.fresh lits true).Proper e.numVars)
    (implied : ∀ σ : Valuation, σ.satisfies F → σ.satisfiesClause lits.toList)
    (alloc : e.arena.alloc lits true = .ok (id, arena)) (lbd : Nat) :
    (e.withLearnt id arena lits lbd).Faithful F (L.addLearnt id) m := by
  have alike := (Clause.fresh lits true).alike_setLbd lbd
  have added := (ClauseArena.adds_alloc alloc).modify (·.setLbd lbd)
  have attached : ((Clause.fresh lits true).setLbd lbd).isAttached = true :=
    alike.reordered.attached.trans (isAttached_fresh lits true)
  have self : (arena.modify id (·.setLbd lbd)).get id = (Clause.fresh lits true).setLbd lbd := by
    rw [added.get, if_pos rfl]
  -- The level count is set in the clause that was stored, before it is watched.
  have placed : ({ e with
      arena := arena.modify id (·.setLbd lbd)
      watches := e.watches.watch id (((Clause.fresh lits true).setLbd lbd).lit 0)
        (((Clause.fresh lits true).setLbd lbd).lit 1) } : Engine).Faithful F (L.addLearnt id) m := by
    refine ⟨?_, ?_, ?_⟩
    · refine (h.toRegular.place added (alike.reordered.proper proper) attached).addLearnt ?_ ?_ ?_ ?_
      · change ((arena.modify id (·.setLbd lbd)).get id).isRemoved = false
        rw [self]
        exact isRemoved_of_isAttached attached
      · change ((arena.modify id (·.setLbd lbd)).get id).isLearnt = true
        rw [self]
        exact alike.learnt.trans (isLearnt_fresh lits true)
      · exact fun member => Adds.ne added (h.listed.learnt id member).1 rfl
      · exact fun member => Adds.ne added (h.live member) rfl
    · intro σ holds
      exact respected_place added (h.upheld σ holds) (implied σ holds)
    · refine fun c given => (h.held c given).keeps ?_
      refine .of_sub (fun _ old => old) (fun _ old => old) (fun _ old => old) fun x member l inside => ?_
      change l ∈ ((arena.modify id (·.setLbd lbd)).get x).lits at inside
      rw [added.get, if_neg (Adds.ne added (h.live member))] at inside
      exact inside
  unfold Engine.withLearnt
  simp only [self]
  exact placed.books

/-- Storing a learnt clause that the formula implies. -/
theorem Faithful.storeLearnt (h : e.Faithful F L m) (proper : (Clause.fresh lits true).Proper e.numVars)
    (implied : ∀ σ : Valuation, σ.satisfies F → σ.satisfiesClause lits.toList)
    (result : e.storeLearnt lits lbd = .ok (id, f)) :
    f.Faithful F (L.addLearnt id) m ∧ e.Framed f ∧ f.originals = e.originals ∧
      f.learnts = e.learnts.push id ∧ f.trail = e.trail ∧ (f.clause id).isAttached = true ∧
      (f.clause id).lits = lits := by
  obtain ⟨arena, alloc, rfl⟩ := storeLearnt_eq result
  have stored := h.withLearnt proper implied alloc lbd
  have framed : e.Framed (e.withLearnt id arena lits lbd) := by
    unfold Engine.withLearnt
    exact { Framed.refl e with }
  have bumped := rescored_bumpClause (e.withLearnt id arena lits lbd) id
  have self := e.clause_withLearnt alloc lbd id
  rw [if_pos rfl] at self
  refine ⟨stored.rescored bumped, framed.trans bumped.framed, ?_, ?_, ?_, ?_, ?_⟩
  · rw [bumped.originals, Engine.withLearnt]
  · rw [bumped.learnts, Engine.withLearnt]
  · rw [bumped.trail, Engine.withLearnt]
  · rw [(bumped.alike id).reordered.attached, self]
    exact isAttached_fresh lits true
  · rw [(bumped.alike id).lits, self]
    rfl

end Learnt

end Engine

end Cdcl
