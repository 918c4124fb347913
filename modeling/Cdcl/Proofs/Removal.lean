import Cdcl.Proofs.NewClauses

/-!
# Removing clauses

At level zero a clause may be removed at any time: a fact whose reason it is needs none, and the
entries it leaves behind are in lists flagged dirty.

## Main results

- `Loose.removeClause`, `Loose.weaken`: removing a clause that is not answered for any more.
- `Sound.forget`: facts need no reasons.
-/

namespace Cdcl

namespace Watches

variable {w : Watches}

theorem dirty_smudge (w : Watches) (key p : Lit) :
    (w.smudge key).dirty.get p = true ↔ p = key ∨ w.dirty.get p = true := by
  unfold smudge
  split
  next already =>
    constructor
    · exact .inr
    · rintro (rfl | old)
      · exact already
      · exact old
  next =>
    simp only [DenseFlags.raise, DenseMap.get_insert]
    by_cases same : key = p
    · simp [same]
    · simp [same, Ne.symm same]

theorem listed_smudge (listed : ∀ p, w.dirty.get p = true → p ∈ w.dirtyKeys) (key p : Lit)
    (dirty : (w.smudge key).dirty.get p = true) : p ∈ (w.smudge key).dirtyKeys := by
  have cases := (dirty_smudge w key p).mp dirty
  unfold smudge
  split
  next already =>
    rcases cases with rfl | old
    · exact listed _ already
    · exact listed p old
  next =>
    rcases cases with rfl | old
    · exact Array.mem_push.mpr (.inr rfl)
    · exact Array.mem_push.mpr (.inl (listed p old))

/-- Flagging lists as dirty leaves the lists alone. -/
theorem smudge_eq (w : Watches) (key : Lit) : ∃ dirty dirtyKeys,
    w.smudge key = { w with dirty, dirtyKeys } ∧ dirty.fallback = w.dirty.fallback := by
  unfold smudge
  split
  · exact ⟨_, _, rfl, rfl⟩
  · exact ⟨_, _, rfl, DenseMap.fallback_insert ..⟩

theorem unwatchLater_eq (w : Watches) (first second : Lit) : ∃ dirty dirtyKeys,
    w.unwatchLater first second = { w with dirty, dirtyKeys } ∧
      dirty.fallback = w.dirty.fallback := by
  obtain ⟨_, _, once, same⟩ := w.smudge_eq first.neg
  obtain ⟨_, _, twice, same'⟩ := (w.smudge first.neg).smudge_eq second.neg
  unfold unwatchLater
  rw [twice, once]
  refine ⟨_, _, rfl, same'.trans ?_⟩
  rw [once]
  exact same

theorem dirty_unwatchLater (w : Watches) (first second p : Lit) :
    (w.unwatchLater first second).dirty.get p = true ↔
      p = first.neg ∨ p = second.neg ∨ w.dirty.get p = true := by
  rw [unwatchLater, dirty_smudge, dirty_smudge]
  exact or_left_comm

theorem listed_unwatchLater (listed : ∀ p, w.dirty.get p = true → p ∈ w.dirtyKeys)
    (first second p : Lit) (dirty : (w.unwatchLater first second).dirty.get p = true) :
    p ∈ (w.unwatchLater first second).dirtyKeys :=
  listed_smudge (fun q => listed_smudge listed first.neg q) second.neg p dirty

end Watches

/-- The arena once a clause is removed. -/
def ClauseArena.without (a : ClauseArena) (id : ClauseId) (space : Space) : ClauseArena :=
  { a.modify id Clause.remove with space }

/-- Equal but for reasons and levels. -/
structure Trail.Same (t u : Trail) : Prop where
  lits : u.lits = t.lits
  marks : u.marks = t.marks
  head : u.head = t.head
  values : u.values = t.values

namespace Trail.Same

variable {t u v : Trail}

theorem refl (t : Trail) : t.Same t := ⟨rfl, rfl, rfl, rfl⟩

theorem trans (h : t.Same u) (k : u.Same v) : t.Same v :=
  ⟨k.lits.trans h.lits, k.marks.trans h.marks, k.head.trans h.head, k.values.trans h.values⟩

theorem level (h : t.Same u) : u.level = t.level := by
  rw [Trail.level, Trail.level, h.marks]

theorem facts (h : t.Same u) : u.facts = t.facts := by
  rw [Trail.facts, Trail.facts, h.marks, h.lits]

theorem isTrue (h : t.Same u) (l : Lit) : u.isTrue l = t.isTrue l := by
  rw [Trail.isTrue, Trail.isTrue, Trail.valueLit, Trail.valueLit, Trail.value, Trail.value, h.values]

theorem isFalse (h : t.Same u) (l : Lit) : u.isFalse l = t.isFalse l := by
  rw [← Trail.isTrue_neg, ← Trail.isTrue_neg, h.isTrue]

end Trail.Same

namespace Engine

variable {F : List (List Lit)} {L K : Ledger} {m : Nat} {e f : Engine} {ids aside : List ClauseId}
  {pairs : List (Lit × Lit)} {id : ClauseId}

/-! ### Facts without reasons -/

/-- At level zero, coverage is truth. -/
theorem covers_of_level_zero {t : Trail} {n : Nat} (coherent : t.Coherent n) (zero : t.level = 0)
    {lits : Array Lit} {l w : Lit} (inside : l ∈ lits) (holds : t.isTrue l = true) :
    t.Covers lits w := by
  refine ⟨l, inside, holds, ?_⟩
  have := coherent.levelOf_le ((coherent.isTrue_iff l).mp holds)
  omega

theorem Sound.forget (h : e.Sound aside) (v : Var) (zero : e.trail.level = 0) :
    (e.modifyTrail (·.forgetReason v)).Sound aside :=
  { h with
    trail := h.trail.forgetReason v zero
    justified := by
      intro i l at_i
      change (e.modifyTrail (·.forgetReason v)).Explains
        ((e.trail.reasons.insert v .decision).get l.var) i l
      rw [DenseMap.get_insert]
      split
      · exact Trail.opens_of_level_zero zero i
      · exact (h.justified at_i).transfer ⟨fun _ _ => rfl, fun _ _ => rfl⟩ (fun _ _ => (fun old => old))
          fun _ _ attached first => ⟨attached, first, fun _ => .rfl⟩ }

theorem Guards.forget (h : e.Guards ids pairs m) (sound : e.Sound aside) (v : Var)
    (zero : e.trail.level = 0) : (e.modifyTrail (·.forgetReason v)).Guards ids pairs m where
  clauses := by
    intro id member w watched before
    obtain ⟨l, inside, holds, _⟩ := h.clauses id member w watched before
    exact covers_of_level_zero (sound.trail.forgetReason v zero) zero inside holds
  pairs := by
    intro a b member before
    obtain ⟨l, inside, holds, _⟩ := h.pairs a b member before
    exact covers_of_level_zero (sound.trail.forgetReason v zero) zero inside holds

theorem Loose.forget (h : e.Loose L m) (v : Var) (zero : e.trail.level = 0) :
    (e.modifyTrail (·.forgetReason v)).Loose L m where
  sound := h.sound.forget v zero
  listed := { h.listed with }
  guarded := { h.guarded with }
  guards := h.guards.forget h.sound v zero
  offers := h.offers

/-! ### Answering for fewer clauses -/

/-- Clauses may be struck off the ledger. -/
theorem Loose.weaken (h : e.Loose L m) {originals learnts : List ClauseId}
    (fewer : originals.Sublist L.originals) (fewer' : learnts.Sublist L.learnts) :
    e.Loose { L with originals, learnts } m :=
  { h with
    listed :=
      { originals_nodup := ((List.Sublist.refl L.aside).append fewer).nodup h.listed.originals_nodup
        learnts_nodup := fewer'.nodup h.listed.learnts_nodup
        disjoint := fun x learnt member => h.listed.disjoint x (fewer'.subset learnt)
          (((List.Sublist.refl L.aside).append fewer).subset member)
        learnt := fun x member => h.listed.learnt x (fewer'.subset member)
        symmetric := h.listed.symmetric }
    guarded := { h.guarded with clauses := fun x member => h.guarded.clauses x (fewer.subset member) }
    guards := { h.guards with clauses := fun x member => h.guards.clauses x (fewer.subset member) } }

theorem Regular.weaken (h : e.Regular L m) {originals learnts : List ClauseId}
    (fewer : originals.Sublist L.originals) (fewer' : learnts.Sublist L.learnts) :
    e.Regular { L with originals, learnts } m :=
  ⟨h.toLoose.weaken fewer fewer', h.apart⟩

/-! ### Clauses that leave -/

/-- The watch lists of `e` with more of them flagged dirty, and all those that hold the clause. -/
structure Flags (e : Engine) (id : ClauseId) (w : Watches) : Prop where
  changed : ∃ dirty dirtyKeys, w = { e.watches with dirty, dirtyKeys } ∧
    dirty.fallback = e.watches.dirty.fallback
  dirty : ∀ p, e.watches.dirty.get p = true → w.dirty.get p = true
  flagged : ∀ p, 0 < entriesOf id (e.watches.long.get p) → w.dirty.get p = true
  listed : ∀ p, w.dirty.get p = true → p ∈ w.dirtyKeys

/-- From `e` to `f` the clause leaves those that take part in propagation. Its entries stay behind in
lists flagged dirty, and the other clauses and the trail are as they were. -/
structure Retires (e : Engine) (id : ClauseId) (f : Engine) : Prop where
  numVars : f.numVars = e.numVars
  trail : f.trail = e.trail
  branching : f.branching = e.branching
  seen : f.seen = e.seen
  slots : f.arena.clauses.size = e.arena.clauses.size
  flags : e.Flags id f.watches
  others : ∀ x, x ≠ id → f.clause x = e.clause x
  detached : (f.clause id).isAttached = false
  proper : (f.clause id).isRemoved = false → (f.clause id).Proper f.numVars

/-- A list that holds an entry of a clause is dirty, or that of one of its watches. -/
theorem Sound.dirty_or_watch (h : e.Sound aside) {p : Lit}
    (some : 0 < entriesOf id (e.watches.long.get p)) :
    e.watches.dirty.get p = true ∨ (e.clause id).isFrozen = false ∧
      (p = ((e.clause id).lit 0).neg ∨ p = ((e.clause id).lit 1).neg) := by
  cases attached : (e.clause id).isAttached with
  | false => exact .inl (h.tracked.stale id attached p some)
  | true =>
    refine .inr ⟨isFrozen_of_isAttached attached, ?_⟩
    by_cases member : id ∈ aside
    · have := h.tracked.aside id member p
      omega
    · rw [h.tracked.exact id attached member p, Clause.watchCount] at some
      by_contra neither
      rw [if_neg neither] at some
      omega

/-- Flagging the lists of its watches flags all that hold the clause. -/
theorem Sound.flags_unwatchLater (h : e.Sound aside) (id : ClauseId) :
    e.Flags id (e.watches.unwatchLater ((e.clause id).lit 0) ((e.clause id).lit 1)) where
  changed := e.watches.unwatchLater_eq ..
  dirty := fun _ old => (Watches.dirty_unwatchLater ..).mpr (.inr (.inr old))
  flagged := by
    intro p some
    refine (Watches.dirty_unwatchLater ..).mpr ?_
    rcases h.dirty_or_watch some with old | ⟨-, here | there⟩
    · exact .inr (.inr old)
    · exact .inl here
    · exact .inr (.inl there)
  listed := Watches.listed_unwatchLater h.tracked.listed _ _

/-- The lists that still hold a frozen clause are flagged as it is. -/
theorem Sound.flags_of_isFrozen (h : e.Sound aside) (frozen : (e.clause id).isFrozen = true) :
    e.Flags id e.watches where
  changed := ⟨_, _, rfl, rfl⟩
  dirty := fun _ old => old
  flagged := by
    intro p some
    rcases h.dirty_or_watch some with old | ⟨thawed, -⟩
    · exact old
    · cases frozen.symm.trans thawed
  listed := h.tracked.listed

section Retire

variable (r : e.Retires id f) {aside' : List ClauseId}

include r

theorem Retires.ne_of_isAttached {x : ClauseId} (attached : (f.clause x).isAttached = true) : x ≠ id := by
  rintro rfl
  cases attached.symm.trans r.detached

/-- A clause that is no reason may leave. -/
theorem Sound.retire (h : e.Sound aside)
    (noReason : ∀ l ∈ e.trail.lits, e.trail.reason l.var ≠ .clause id)
    (leaves : ∀ x, x ∈ aside' ↔ x ∈ aside ∧ x ≠ id) : f.Sound aside' := by
  obtain ⟨flags, keys, lists, fallback⟩ := r.flags.changed
  have long : f.watches.long = e.watches.long := by rw [lists]
  have binary : f.watches.binary = e.watches.binary := by rw [lists]
  constructor
  case trail => exact r.trail ▸ r.numVars ▸ h.trail
  case justified =>
    intro i l at_i
    rw [r.trail] at at_i ⊢
    refine (h.justified at_i).transfer (r.trail ▸ .refl _ _) (fun _ _ old => binary ▸ old) ?_
    intro x reason attached first
    -- The clause that goes is the reason of no literal.
    have ne : x ≠ id := by
      rintro rfl
      exact noReason l (Array.mem_of_getElem? at_i) reason
    rw [r.others x ne]
    exact ⟨attached, first, fun _ => .rfl⟩
  case proper =>
    intro x live
    by_cases same : x = id
    · subst same
      exact r.proper live
    · rw [r.others x same] at live ⊢
      exact r.numVars ▸ h.proper x live
  case binary_bounded => exact binary ▸ r.numVars ▸ h.binary_bounded
  case tracked =>
    constructor
    case exact =>
      intro x attached notAside p
      have ne := r.ne_of_isAttached attached
      rw [r.others x ne] at attached ⊢
      rw [long]
      exact h.tracked.exact x attached (fun member => notAside ((leaves x).mpr ⟨member, ne⟩)) p
    case usable =>
      intro x member
      obtain ⟨old, ne⟩ := (leaves x).mp member
      rw [r.others x ne]
      exact h.tracked.usable x old
    case aside => exact fun x member => long ▸ h.tracked.aside x ((leaves x).mp member).1
    case stale =>
      intro x detached p some
      rw [long] at some
      -- Its own entries become stale where they are; those lists are flagged.
      by_cases same : x = id
      · subst same
        exact r.flags.flagged p some
      · rw [r.others x same] at detached
        exact r.flags.dirty p (h.tracked.stale x detached p some)
    case listed => exact r.flags.listed
  case inside => exact r.slots ▸ long ▸ h.inside
  case blockers =>
    intro p w member attached
    have ne := r.ne_of_isAttached attached
    rw [long] at member
    rw [r.others _ ne] at attached ⊢
    rw [r.trail]
    exact h.blockers p w member attached
  case blank =>
    rw [lists]
    exact { h.blank with dirty := fallback.trans h.blank.dirty }
  case unseen => exact r.seen ▸ h.unseen

/-- A clause that is no reason and is not answered for may leave. One listed as learnt stays listed if
it stays in use. -/
theorem Loose.retire (h : e.Loose L m)
    (noReason : ∀ l ∈ e.trail.lits, e.trail.reason l.var ≠ .clause id) (notOriginal : id ∉ L.originals)
    (listed : id ∈ L.learnts → (f.clause id).isRemoved = false ∧ (f.clause id).isLearnt = true)
    (fewer : aside'.Sublist L.aside) (leaves : ∀ x, x ∈ aside' ↔ x ∈ L.aside ∧ x ≠ id) :
    f.Loose { L with aside := aside' } m := by
  obtain ⟨flags, keys, lists, -⟩ := r.flags.changed
  -- The clauses that guard the formula are others than the one that goes.
  have inUse {x : ClauseId} (member : x ∈ L.originals) : f.clause x = e.clause x :=
    r.others x fun same => notOriginal (same ▸ member)
  constructor
  case sound => exact h.sound.retire r noReason leaves
  case offers =>
    rw [Offers, r.branching, r.numVars, r.trail]
    exact h.offers
  case listed =>
    refine ⟨(fewer.append (.refl _)).nodup h.listed.originals_nodup, h.listed.learnts_nodup,
      fun x learnt member => ?_, fun x member => ?_, h.listed.symmetric⟩
    · exact h.listed.disjoint x learnt ((fewer.append (.refl _)).subset member)
    · by_cases same : x = id
      · subst same
        exact listed member
      · rw [r.others x same]
        exact h.listed.learnt x member
  case guarded =>
    refine ⟨fun x member => ?_, fun a b member => ?_⟩
    · rw [inUse member]
      exact ⟨(h.guarded.clauses x member).1, fun inside =>
        (h.guarded.clauses x member).2 (fewer.subset inside)⟩
    · rw [lists]
      exact h.guarded.pairs a b member
  case guards =>
    refine ⟨fun x member q watched before => ?_, r.trail ▸ h.guards.pairs⟩
    rw [Watched, inUse member] at watched
    rw [r.trail] at before ⊢
    rw [inUse member]
    exact h.guards.clauses x member q watched before

end Retire

/-! ### Removing -/

/-- What removing a clause changes. -/
theorem removeClause_eq (e : Engine) (id : ClauseId) : ∃ tally lbdCounts space,
    e.removeClause id =
      { e with
        trail := if e.isLocked id then e.trail.forgetReason ((e.clause id).lit 0).var else e.trail
        watches := if (e.clause id).isFrozen then e.watches
          else e.watches.unwatchLater ((e.clause id).lit 0) ((e.clause id).lit 1)
        arena := e.arena.without id space
        tally, lbdCounts } := by
  unfold removeClause
  dsimp only
  have locked : (if (e.clause id).isFrozen = true then e else e.detachLater id).isLocked id =
      e.isLocked id := by
    split <;> rfl
  rw [locked]
  have uncounted (g : Engine) (c : Clause) : ∃ tally lbdCounts,
      g.uncount c = { g with tally, lbdCounts } := by
    unfold uncount
    split
    · exact ⟨_, _, rfl⟩
    · exact ⟨_, _, rfl⟩
  -- The cases are whether the clause was watched, and whether it was a reason.
  cases frozen : (e.clause id).isFrozen <;> cases e.isLocked id
  all_goals
    simp only [Bool.false_eq_true, if_true, if_false]
  · obtain ⟨_, _, same⟩ := uncounted (e.detachLater id) (e.clause id)
    rw [same]
    exact ⟨_, _, _, rfl⟩
  · obtain ⟨_, _, same⟩ := uncounted
      ((e.detachLater id).modifyTrail (·.forgetReason ((e.clause id).lit 0).var)) (e.clause id)
    rw [same]
    exact ⟨_, _, _, rfl⟩
  · obtain ⟨_, _, same⟩ := uncounted e (e.clause id)
    rw [same]
    exact ⟨_, _, _, rfl⟩
  · obtain ⟨_, _, same⟩ := uncounted
      (e.modifyTrail (·.forgetReason ((e.clause id).lit 0).var)) (e.clause id)
    rw [same]
    exact ⟨_, _, _, rfl⟩

section Removed

variable (space : Space)

theorem get_without (used : (e.clause id).isRemoved = false) (x : ClauseId) :
    (e.arena.without id space).get x = if id = x then (e.clause x).remove else e.clause x :=
  ClauseArena.get_modify e.arena id x Clause.remove (slot_lt used)

theorem get_without_of_ne (used : (e.clause id).isRemoved = false) {x : ClauseId} (ne : x ≠ id) :
    (e.arena.without id space).get x = e.clause x := by
  rw [get_without space used, if_neg (Ne.symm ne)]

/-- What is still in use is another clause. -/
theorem ne_of_live (used : (e.clause id).isRemoved = false) {x : ClauseId}
    (live : ((e.arena.without id space).get x).isRemoved = false) : x ≠ id := by
  rintro rfl
  rw [get_without space used, if_pos rfl] at live
  cases live

end Removed

/-- A reason of a literal of the trail is locked. -/
theorem Sound.isLocked_of_reason (h : e.Sound aside) {l : Lit} (member : l ∈ e.trail.lits)
    (reason : e.trail.reason l.var = .clause id) :
    (e.clause id).lit 0 = l ∧ e.isLocked id = true := by
  obtain ⟨i, at_i⟩ := Array.mem_iff_getElem?.mp member
  have justified := h.justified at_i
  rw [reason] at justified
  have first := justified.2.1
  refine ⟨first, ?_⟩
  unfold Engine.isLocked
  dsimp only
  rw [first, (h.trail.isTrue_iff l).mpr member, reason]
  exact Bool.true_and _ ▸ beq_self_eq_true _

/-- The engine in which the clause is no reason any more. -/
def unlocked (e : Engine) (id : ClauseId) : Engine :=
  { e with trail := if e.isLocked id then e.trail.forgetReason ((e.clause id).lit 0).var else e.trail }

theorem Loose.unlocked (h : e.Loose L m) (zero : e.trail.level = 0) (id : ClauseId) :
    (e.unlocked id).Loose L m ∧
      ∀ l ∈ (e.unlocked id).trail.lits, (e.unlocked id).trail.reason l.var ≠ .clause id := by
  unfold Engine.unlocked
  split
  · refine ⟨h.forget _ zero, fun l member => ?_⟩
    change (e.trail.reasons.insert ((e.clause id).lit 0).var .decision).get l.var ≠ _
    rw [DenseMap.get_insert]
    split
    · exact nofun
    next other =>
      intro reason
      exact other (congrArg Lit.var (h.sound.isLocked_of_reason member reason).1)
  next free =>
    exact ⟨h, fun l member reason => free (h.sound.isLocked_of_reason member reason).2⟩

/-- A clause that is removed leaves, once it is no reason. -/
theorem Sound.retires_removeClause (h : e.Sound aside) (used : (e.clause id).isRemoved = false) :
    (e.unlocked id).Retires id (e.removeClause id) := by
  obtain ⟨tally, lbdCounts, space, same⟩ := e.removeClause_eq id
  have self := get_without space used id
  rw [if_pos rfl] at self
  rw [same]
  constructor
  case numVars | trail | branching | seen => rfl
  case slots => exact Array.size_modify
  case flags =>
    dsimp only
    split
    next frozen => exact { h.flags_of_isFrozen frozen with }
    next => exact { h.flags_unwatchLater id with }
  case others => exact fun x ne => get_without_of_ne space used ne
  case detached =>
    change ((e.arena.without id space).get id).isAttached = false
    rw [self]
    rfl
  case proper =>
    intro live
    change ((e.arena.without id space).get id).isRemoved = false at live
    rw [self] at live
    cases live

/-- At level zero, a clause that is not answered for may be removed. -/
theorem Loose.removeClause (h : e.Loose L m) (used : (e.clause id).isRemoved = false)
    (zero : e.trail.level = 0) (notOriginal : id ∉ L.originals) (notLearnt : id ∉ L.learnts)
    {aside' : List ClauseId} (fewer : aside'.Sublist L.aside)
    (leaves : ∀ x, x ∈ aside' ↔ x ∈ L.aside ∧ x ≠ id) :
    (e.removeClause id).Loose { L with aside := aside' } m := by
  -- First the reasons, then the clause.
  obtain ⟨loose, noReason⟩ := h.unlocked zero id
  exact loose.retire (h.sound.retires_removeClause used) noReason notOriginal
    (fun learnt => absurd learnt notLearnt) fewer leaves

/-- Frozen clauses stay apart when a clause is removed. -/
theorem FrozenApart.removeClause (h : e.FrozenApart) (used : (e.clause id).isRemoved = false) :
    (e.removeClause id).FrozenApart := by
  obtain ⟨tally, lbdCounts, space, same⟩ := e.removeClause_eq id
  have lists : (e.removeClause id).watches.long = e.watches.long ∧
      (e.removeClause id).watches.frozen = e.watches.frozen := by
    rw [same]
    dsimp only
    split
    · exact ⟨rfl, rfl⟩
    · obtain ⟨_, _, later, -⟩ := e.watches.unwatchLater_eq ((e.clause id).lit 0) ((e.clause id).lit 1)
      rw [later]
      exact ⟨rfl, rfl⟩
  have kept {x : ClauseId} (live : ((e.removeClause id).clause x).isRemoved = false) :
      (e.removeClause id).clause x = e.clause x := by
    rw [same] at live ⊢
    exact get_without_of_ne space used (ne_of_live space used live)
  constructor
  · intro x live frozen p
    have clause := kept live
    rw [clause] at live frozen
    rw [lists.1]
    exact h.unwatched x live frozen p
  · intro p w member live frozen
    have clause := kept live
    rw [clause] at live frozen ⊢
    rw [lists.2] at member
    exact h.entries p w member live frozen

theorem Regular.removeClause (h : e.Regular L m) (used : (e.clause id).isRemoved = false)
    (zero : e.trail.level = 0) (notOriginal : id ∉ L.originals) (notLearnt : id ∉ L.learnts)
    {aside' : List ClauseId} (fewer : aside'.Sublist L.aside)
    (leaves : ∀ x, x ∈ aside' ↔ x ∈ L.aside ∧ x ≠ id) :
    (e.removeClause id).Regular { L with aside := aside' } m :=
  ⟨h.toLoose.removeClause used zero notOriginal notLearnt fewer leaves, h.apart.removeClause used⟩

/-! ### What removing a clause leaves alone -/

theorem clause_removeClause (used : (e.clause id).isRemoved = false) {x : ClauseId} (ne : x ≠ id) :
    (e.removeClause id).clause x = e.clause x := by
  obtain ⟨tally, lbdCounts, space, same⟩ := e.removeClause_eq id
  rw [same]
  exact get_without_of_ne space used ne

/-- Only the stored clauses differ, and reasons of facts. -/
structure Steady (e f : Engine) : Prop extends e.Framed f where
  originals : f.originals = e.originals
  learnts : f.learnts = e.learnts
  trail : e.trail.Same f.trail

theorem Steady.refl (e : Engine) : e.Steady e := ⟨.refl e, rfl, rfl, .refl _⟩

theorem Steady.trans {e f g : Engine} (h : e.Steady f) (k : f.Steady g) : e.Steady g :=
  ⟨h.toFramed.trans k.toFramed, k.originals.trans h.originals, k.learnts.trans h.learnts,
    h.trail.trans k.trail⟩

theorem steady_removeClause (e : Engine) (id : ClauseId) : e.Steady (e.removeClause id) := by
  obtain ⟨tally, lbdCounts, space, same⟩ := e.removeClause_eq id
  rw [same]
  refine ⟨⟨⟨rfl, rfl, rfl, rfl⟩, .refl _⟩, rfl, rfl, ?_⟩
  dsimp only
  split
  · exact ⟨rfl, rfl, rfl, rfl⟩
  · exact ⟨rfl, rfl, rfl, rfl⟩

theorem steady_addBinary (e : Engine) (a b : Lit) (learnt : Bool) :
    e.Steady (e.addBinary a b learnt) := by
  obtain ⟨tally, same⟩ := e.addBinary_eq a b learnt
  rw [same]
  exact ⟨⟨⟨rfl, rfl, rfl, rfl⟩, .refl _⟩, rfl, rfl, .refl _⟩

theorem respected_removeClause (used : (e.clause id).isRemoved = false) {σ : Valuation}
    (h : e.Respected σ) : (e.removeClause id).Respected σ := by
  obtain ⟨tally, lbdCounts, space, same⟩ := e.removeClause_eq id
  have facts := (e.steady_removeClause id).trail.facts
  rw [same] at facts ⊢
  constructor
  · constructor
    · intro x live
      have ne : x ≠ id := ne_of_live space used live
      change ((e.arena.without id space).get x).isRemoved = false at live
      change σ.satisfiesClause ((e.arena.without id space).get x).lits.toList
      rw [get_without_of_ne space used ne] at live ⊢
      exact h.clauses x live
    · intro p q member
      refine h.binary p q ?_
      dsimp only at member
      split at member
      · exact member
      · obtain ⟨_, _, unwatched, _⟩ := e.watches.unwatchLater_eq ((e.clause id).lit 0) ((e.clause id).lit 1)
        rw [unwatched] at member
        exact member
  · intro l fact
    rw [facts] at fact
    exact h.facts l fact

/-- A removal keeps what is held, if the clause that goes is held by something else. -/
theorem keeps_removeClause {K : Ledger} (used : (e.clause id).isRemoved = false)
    (pairs : ∀ p ∈ L.pairs, p ∈ K.pairs)
    (others : ∀ x ∈ L.aside ++ L.originals, x ≠ id → x ∈ K.aside ++ K.originals)
    (gone : id ∈ L.aside ++ L.originals →
      (e.removeClause id).Held K (e.clause id).lits.toList) :
    e.Keeps L (e.removeClause id) K where
  facts := fun l fact => (e.steady_removeClause id).trail.facts ▸ fact
  pairs := pairs
  clauses := by
    intro x member
    by_cases same : x = id
    · subst same
      exact gone member
    · refine .clause x (others x member same) fun l inside => ?_
      rw [clause_removeClause used same] at inside
      exact Array.mem_toList_iff.mpr inside

end Engine

end Cdcl
