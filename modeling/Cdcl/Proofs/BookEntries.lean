import Cdcl.Proofs.Accounts
import Cdcl.Proofs.Compacted
import Cdcl.Proofs.NewVariables

/-!
# Entries in the books

The operations that change the books of an engine, each with its entry: a clause is stored, removed,
shortened, frozen, thawed or counted under another level, a clause of two literals is added, and the
arena is compacted.
-/

namespace Cdcl

namespace Clause

theorem share_of_learnt {c : Clause} {i : LearntInfo} (used : c.isRemoved = false)
    (learnt : c.learnt? = some i) :
    c.share = { learnts := 1, learntLits := c.size, frozen := if i.frozen then 1 else 0 } := by
  rw [share, used, isLearnt, isFrozen, learnt]
  rfl

theorem share_of_original {c : Clause} (used : c.isRemoved = false) (learnt : c.learnt? = none) :
    c.share = { originals := 1, originalLits := c.size } := by
  rw [share, used, isLearnt, learnt]
  rfl

theorem lbdShare_of_learnt {c : Clause} {i : LearntInfo} (used : c.isRemoved = false)
    (learnt : c.learnt? = some i) (n : Nat) : c.lbdShare n = if i.lbd = n then 1 else 0 := by
  simp [lbdShare, used, isLearnt, lbd, learnt]

theorem lbdShare_of_original {c : Clause} (learnt : c.learnt? = none) (n : Nat) :
    c.lbdShare n = 0 := by
  simp [lbdShare, isLearnt, learnt]

end Clause

/-! ### Lists of clauses of two literals -/

theorem DenseMap.sum_modify {κ α : Type} [DenseKey κ] (m : DenseMap κ α) (weight : α → Nat)
    (blank : weight m.fallback = 0) (k : κ) (f : α → α) :
    ((m.modify k f).values.toList.map weight).sum + weight (m.get k) =
      (m.values.toList.map weight).sum + weight (f (m.get k)) := by
  have size := size_grow m (DenseKey.index k + 1) m.fallback
  have grown : ((m.grow (DenseKey.index k + 1) m.fallback).values.toList.map weight).sum =
      (m.values.toList.map weight).sum := by
    unfold grow
    split
    · rfl
    · simp [blank]
  have at_k : (m.grow (DenseKey.index k + 1) m.fallback).values.toList[DenseKey.index k]? =
      some (m.get k) := by
    have reading := get_grow m (DenseKey.index k + 1) k
    rw [get_eq, Array.getElem?_eq_getElem (by omega)] at reading
    rw [Array.getElem?_toList, Array.getElem?_eq_getElem (by omega)]
    exact congrArg some reading
  have exchanged := sum_map_modify weight f _ at_k
  rw [grown] at exchanged
  rw [← exchanged]
  unfold modify
  simp only [Array.toList_modify]

theorem DenseMap.insert_eq_modify {κ α : Type} [DenseKey κ] (m : DenseMap κ α) (k : κ) (v : α) :
    m.insert k v = m.modify k fun _ => v := by
  unfold insert modify
  dsimp only
  congr 1

namespace Watches

variable {w : Watches} {a b : Lit}

/-- A new literal brings no entries. -/
theorem pairCount_addLit (blank : w.binary.fallback = #[]) {l : Lit} (empty : w.binary.get l = #[]) :
    (w.addLit l).pairCount = w.pairCount := by
  have exchanged := DenseMap.sum_modify w.binary Array.size (by rw [blank]; rfl) l fun _ => #[]
  rw [← DenseMap.insert_eq_modify, empty] at exchanged
  exact Nat.add_right_cancel exchanged

theorem pairCount_addBinary (blank : w.binary.fallback = #[]) (a b : Lit) :
    (w.addBinary a b).pairCount = w.pairCount + 2 := by
  have first := DenseMap.sum_modify w.binary Array.size (by rw [blank]; rfl) a.neg (·.push b)
  have second := DenseMap.sum_modify (w.binary.modify a.neg (·.push b)) Array.size
    (by rw [DenseMap.fallback_modify, blank]; rfl) b.neg (·.push a)
  simp only [Array.size_push] at first second
  unfold pairCount addBinary
  dsimp only
  omega

theorem count_addBinary (w : Watches) (a b p q : Lit) : ((w.addBinary a b).binary.get p).count q =
    (w.binary.get p).count q + (if a.neg = p ∧ b = q then 1 else 0) +
      if b.neg = p ∧ a = q then 1 else 0 := by
  have push (xs : Array Lit) (x : Lit) : (xs.push x).count q = xs.count q + if x = q then 1 else 0 := by
    rw [Array.count_push]
    simp
  simp only [addBinary, DenseMap.get_modify]
  by_cases atB : b.neg = p <;> by_cases atA : a.neg = p <;> simp [atA, atB, push]

theorem Symmetric.addBinary (h : w.Symmetric) (a b : Lit) : (w.addBinary a b).Symmetric := by
  intro p q
  rw [count_addBinary, count_addBinary, h p q]
  have flip (x y : Lit) : x.neg = p ∧ y = q ↔ y.neg = q.neg ∧ x = p.neg := by
    rw [Lit.neg_inj]
    constructor
    · rintro ⟨rfl, rfl⟩; exact ⟨rfl, (Lit.neg_neg x).symm⟩
    · rintro ⟨rfl, rfl⟩; exact ⟨Lit.neg_neg p, rfl⟩
  simp only [flip]
  omega

end Watches

namespace Engine

variable {e f : Engine} {id : ClauseId} {os ks os' ks' : List ClauseId} {a b : Lit}

theorem Balanced.tally (h : e.Balanced) (arena : f.arena = e.arena) (lbdCounts : f.lbdCounts = e.lbdCounts)
    (tally : f.tally = { e.tally with
      originalBinary := f.tally.originalBinary, learntBinary := f.tally.learntBinary }) :
    f.Balanced where
  originals := by rw [tally, arena]; exact h.originals
  learnts := by rw [tally, arena]; exact h.learnts
  frozen := by rw [tally, arena]; exact h.frozen
  originalLits := by rw [tally, arena]; exact h.originalLits
  learntLits := by rw [tally, arena]; exact h.learntLits
  lbds := by rw [lbdCounts, arena]; exact h.lbds
  words := by rw [arena]; exact h.words
  room := by rw [arena]; exact h.room

theorem Filed.arena (h : e.Filed os ks) (arena : f.arena = e.arena) : f.Filed os ks where
  original := fun id => by rw [clause, arena]; exact h.original id
  learnt := fun id => by rw [clause, arena]; exact h.learnt id
  originals_nodup := h.originals_nodup
  learnts_nodup := h.learnts_nodup

theorem fields_addBinary (e : Engine) (a b : Lit) (learnt : Bool) :
    (e.addBinary a b learnt).arena = e.arena ∧ (e.addBinary a b learnt).lbdCounts = e.lbdCounts ∧
      (e.addBinary a b learnt).watches = e.watches.addBinary a b ∧
      (e.addBinary a b learnt).originals = e.originals ∧
      (e.addBinary a b learnt).learnts = e.learnts ∧
      (e.addBinary a b learnt).recentLearnts = e.recentLearnts := by
  cases learnt <;>
    simp only [Engine.addBinary, modifyTally, modifyWatches, if_true, if_false, Bool.false_eq_true,
      and_self]

theorem tally_addBinary (e : Engine) (a b : Lit) (learnt : Bool) :
    (e.addBinary a b learnt).tally = { e.tally with
      originalBinary := e.tally.originalBinary + if learnt then 0 else 1
      learntBinary := e.tally.learntBinary + if learnt then 1 else 0 } := by
  cases learnt <;>
    simp only [Engine.addBinary, modifyTally, modifyWatches, if_true, if_false, Bool.false_eq_true,
      Nat.add_zero]

theorem Booked.addBinary (h : e.Booked os ks) (a b : Lit) (learnt : Bool) :
    (e.addBinary a b learnt).Booked os ks := by
  obtain ⟨arena, lbdCounts, watches, -⟩ := e.fields_addBinary a b learnt
  have tally := e.tally_addBinary a b learnt
  generalize e.addBinary a b learnt = f at *
  refine ⟨h.balanced.tally arena lbdCounts (by rw [tally]), h.filed.arena arena, ?_, ?_, ?_⟩
  · rw [watches]
    simp [Watches.addBinary, h.blank]
  · rw [watches]
    exact h.symmetric.addBinary a b
  · have pairs := h.pairs
    rw [watches, tally, Watches.pairCount_addBinary h.blank]
    cases learnt <;> simp only [if_true, if_false, Bool.false_eq_true] <;> omega

/-! ### Exchanging a clause -/

/-- The clause is exchanged in the books, and stays filed where it is. -/
theorem Booked.exchange (h : e.Booked os ks) {change : Clause → Clause}
    (clauses : f.arena.clauses = (e.arena.modify id change).clauses)
    (used : (e.clause id).isRemoved = false)
    (exchanges : e.Exchanges f (e.clause id) (change (e.clause id)))
    (binary : f.watches.binary = e.watches.binary)
    (originalBinary : f.tally.originalBinary = e.tally.originalBinary)
    (learntBinary : f.tally.learntBinary = e.tally.learntBinary)
    (filed : f.Filed os' ks') : f.Booked os' ks' where
  balanced := h.balanced.exchange clauses used exchanges
  filed := filed
  blank := binary ▸ h.blank
  symmetric := by rw [Watches.Symmetric, binary]; exact h.symmetric
  pairs := by rw [Watches.pairCount, binary, originalBinary, learntBinary]; exact h.pairs

theorem clause_of_clauses {change : Clause → Clause}
    (clauses : f.arena.clauses = (e.arena.modify id change).clauses)
    (used : (e.clause id).isRemoved = false) (x : ClauseId) :
    f.clause x = if id = x then change (e.clause x) else e.clause x := by
  rw [← clause_modifyClause used change x]
  simp only [clause, ClauseArena.get_eq, modifyClause, clauses]

/-- A clause that stays in use, and learnt if it was, stays filed. -/
theorem Filed.exchange (h : e.Filed os ks) {change : Clause → Clause}
    (clauses : f.arena.clauses = (e.arena.modify id change).clauses)
    (used : (e.clause id).isRemoved = false)
    (removed : (change (e.clause id)).isRemoved = false)
    (learnt : (change (e.clause id)).isLearnt = (e.clause id).isLearnt) : f.Filed os ks := by
  have get := clause_of_clauses clauses used
  have same (x : ClauseId) : (f.clause x).isRemoved = (e.clause x).isRemoved ∧
      (f.clause x).isLearnt = (e.clause x).isLearnt := by
    rw [get]
    split
    next here =>
      subst here
      exact ⟨removed.trans used.symm, learnt⟩
    next => exact ⟨rfl, rfl⟩
  exact
    { h with
      original := fun x => by rw [(same x).1, (same x).2]; exact h.original x
      learnt := fun x => by rw [(same x).1, (same x).2]; exact h.learnt x }

/-- A clause that is removed leaves its list. -/
theorem Filed.remove (h : e.Filed os ks)
    (clauses : f.arena.clauses = (e.arena.modify id Clause.remove).clauses)
    (used : (e.clause id).isRemoved = false)
    (original : ∀ x, x ∈ os' ↔ x ∈ os ∧ x ≠ id) (learnt : ∀ x, x ∈ ks' ↔ x ∈ ks ∧ x ≠ id)
    (originals_nodup : os'.Nodup) (learnts_nodup : ks'.Nodup) : f.Filed os' ks' := by
  have get := clause_of_clauses clauses used
  have there (x : ClauseId) (p : Prop) : ((f.clause x).isRemoved = false ∧ p) ↔
      ((e.clause x).isRemoved = false ∧ p) ∧ x ≠ id := by
    rw [get]
    split
    next here =>
      subst here
      exact ⟨fun ⟨removed, _⟩ => absurd removed nofun, fun ⟨_, ne⟩ => absurd rfl ne⟩
    next ne => exact ⟨fun inside => ⟨inside, Ne.symm ne⟩, fun inside => inside.1⟩
  have flags (x : ClauseId) (ne : x ≠ id) : (f.clause x).isLearnt = (e.clause x).isLearnt := by
    rw [get, if_neg (Ne.symm ne)]
  constructor
  case original =>
    intro x
    rw [original, h.original, there]
    exact and_congr_left fun ne => by rw [flags x ne]
  case learnt =>
    intro x
    rw [learnt, h.learnt, there]
    exact and_congr_left fun ne => by rw [flags x ne]
  case originals_nodup => exact originals_nodup
  case learnts_nodup => exact learnts_nodup

/-! ### Removing -/

theorem fields_removeClause (e : Engine) (id : ClauseId) :
    (e.removeClause id).arena = (e.arena.modify id Clause.remove).free id ∧
      (e.removeClause id).tally = (e.uncount (e.clause id)).tally ∧
      (e.removeClause id).lbdCounts = (e.uncount (e.clause id)).lbdCounts := by
  unfold removeClause
  dsimp only
  unfold uncount
  split <;> (split <;> split <;> exact ⟨rfl, rfl, rfl⟩)

theorem lists_removeClause (e : Engine) (id : ClauseId) :
    (e.removeClause id).watches.binary = e.watches.binary ∧
      (e.removeClause id).watches.frozen = e.watches.frozen ∧
      (e.removeClause id).recentLearnts = e.recentLearnts := by
  have later : ∀ first second, (e.watches.unwatchLater first second).binary = e.watches.binary ∧
      (e.watches.unwatchLater first second).frozen = e.watches.frozen := fun first second => by
    obtain ⟨_, _, same, -⟩ := e.watches.unwatchLater_eq first second
    rw [same]
    exact ⟨rfl, rfl⟩
  obtain ⟨_, _, _, same⟩ := e.removeClause_eq id
  rw [same]
  dsimp only
  split
  · exact ⟨rfl, rfl, rfl⟩
  · exact ⟨(later _ _).1, (later _ _).2, rfl⟩

/-- The words of a clause that is removed are wasted. -/
theorem space_removeClause (used : (e.clause id).isRemoved = false) :
    (e.removeClause id).arena.space = e.arena.space.waste (e.clause id).words := by
  rw [(e.fields_removeClause id).1]
  change e.arena.space.waste ((e.arena.modify id Clause.remove).get id).words = _
  rw [ClauseArena.get_modify _ _ _ _ (slot_lt used), if_pos rfl]
  rfl

/-- A learnt clause in use was counted, so that what is taken from the counts is there. -/
theorem exchanges_removeLearnt (h : e.Balanced) (used : (e.clause id).isRemoved = false)
    {i : LearntInfo} (learnt : (e.clause id).learnt? = some i) :
    e.Exchanges (e.removeClause id) (e.clause id) (e.clause id).remove := by
  have counted := h.counted used
  have space := space_removeClause used
  have share := Clause.share_of_learnt used learnt
  have lbdShare := Clause.lbdShare_of_learnt used learnt
  -- One learnt clause fewer: its literals and its level count are taken off with it.
  have tally : (e.removeClause id).tally = { e.tally with
      learnts := e.tally.learnts - 1
      learntLits := e.tally.learntLits - (e.clause id).size
      frozen := if i.frozen then e.tally.frozen - 1 else e.tally.frozen } := by
    rw [(e.fields_removeClause id).2.1, uncount, learnt]
    rfl
  have lbdCounts : (e.removeClause id).lbdCounts = e.lbdCounts.modify i.lbd (· - 1) := by
    rw [(e.fields_removeClause id).2.2, uncount, learnt]
    rfl
  constructor
  case originals => rw [tally, Clause.share_remove, share]
  case learnts =>
    have := counted.learnts
    rw [share] at this
    rw [tally, Clause.share_remove, share]
    dsimp only at this ⊢
    omega
  case frozen =>
    have := counted.frozen
    rw [share] at this
    rw [tally, Clause.share_remove, share]
    dsimp only at this ⊢
    split at this <;> simp_all
  case originalLits => rw [tally, Clause.share_remove, share]
  case learntLits =>
    have := counted.learntLits
    rw [share] at this
    rw [tally, Clause.share_remove, share]
    dsimp only at this ⊢
    omega
  case lbds =>
    intro n
    have := counted.lbds n
    rw [lbdShare] at this
    rw [lbdCounts, DenseMap.get_modify, Clause.lbdShare_remove, lbdShare]
    split
    next same =>
      rw [if_pos same] at this
      omega
    next => rfl
  case used => rw [space]; rfl
  case wasted => rw [space, Clause.liveWords_remove, Clause.liveWords_of_used used]; rfl
  case limit => rw [space]; rfl

theorem exchanges_removeOriginal (h : e.Balanced) (used : (e.clause id).isRemoved = false)
    (original : (e.clause id).learnt? = none) :
    e.Exchanges (e.removeClause id) (e.clause id) (e.clause id).remove := by
  have counted := h.counted used
  have space := space_removeClause used
  have share := Clause.share_of_original used original
  have tally : (e.removeClause id).tally = { e.tally with
      originals := e.tally.originals - 1
      originalLits := e.tally.originalLits - (e.clause id).size } := by
    rw [(e.fields_removeClause id).2.1, uncount, original]
    rfl
  have lbdCounts : (e.removeClause id).lbdCounts = e.lbdCounts := by
    rw [(e.fields_removeClause id).2.2, uncount, original]
    rfl
  -- An original clause counts for nothing among the learnt ones, and its words stay used but are wasted.
  constructor
  case originals =>
    have := counted.originals
    rw [share] at this
    rw [tally, Clause.share_remove, share]
    dsimp only at this ⊢
    omega
  case learnts => rw [tally, Clause.share_remove, share]
  case frozen => rw [tally, Clause.share_remove, share]
  case originalLits =>
    have := counted.originalLits
    rw [share] at this
    rw [tally, Clause.share_remove, share]
    dsimp only at this ⊢
    omega
  case learntLits => rw [tally, Clause.share_remove, share]
  case lbds =>
    intro n
    rw [lbdCounts, Clause.lbdShare_remove, Clause.lbdShare_of_original original]
  case used => rw [space]; rfl
  case wasted => rw [space, Clause.liveWords_remove, Clause.liveWords_of_used used]; rfl
  case limit => rw [space]; rfl

theorem exchanges_removeClause (h : e.Balanced) (used : (e.clause id).isRemoved = false) :
    e.Exchanges (e.removeClause id) (e.clause id) (e.clause id).remove := by
  cases learnt : (e.clause id).learnt? with
  | some i => exact exchanges_removeLearnt h used learnt
  | none => exact exchanges_removeOriginal h used learnt

theorem binaryCounts_removeClause (e : Engine) (id : ClauseId) :
    (e.removeClause id).tally.originalBinary = e.tally.originalBinary ∧
      (e.removeClause id).tally.learntBinary = e.tally.learntBinary := by
  rw [(e.fields_removeClause id).2.1]
  unfold uncount
  split <;> exact ⟨rfl, rfl⟩

theorem Booked.removeClause (h : e.Booked os ks) (used : (e.clause id).isRemoved = false)
    (original : ∀ x, x ∈ os' ↔ x ∈ os ∧ x ≠ id) (learnt : ∀ x, x ∈ ks' ↔ x ∈ ks ∧ x ≠ id)
    (originals_nodup : os'.Nodup) (learnts_nodup : ks'.Nodup) :
    (e.removeClause id).Booked os' ks' := by
  have clauses : (e.removeClause id).arena.clauses = (e.arena.modify id Clause.remove).clauses := by
    rw [(e.fields_removeClause id).1]
    rfl
  obtain ⟨binary, -⟩ := e.lists_removeClause id
  obtain ⟨originalBinary, learntBinary⟩ := e.binaryCounts_removeClause id
  exact h.exchange clauses used (exchanges_removeClause h.balanced used) binary originalBinary
    learntBinary (h.filed.remove clauses used original learnt originals_nodup learnts_nodup)

/-- A list without one of its members. -/
theorem mem_without {before after : List ClauseId} (nodup : (before ++ id :: after).Nodup)
    (x : ClauseId) : x ∈ before ++ after ↔ x ∈ before ++ id :: after ∧ x ≠ id := by
  have fresh : id ∉ before ++ after := (List.nodup_cons.mp (List.nodup_middle.mp nodup)).1
  simp only [List.mem_append, List.mem_cons] at fresh ⊢
  constructor
  · intro member
    exact ⟨member.imp_right .inr, fun same => fresh (same ▸ member)⟩
  · rintro ⟨inside | same | inside, ne⟩
    · exact .inl inside
    · exact absurd same ne
    · exact .inr inside

theorem nodup_without {before after : List ClauseId} (nodup : (before ++ id :: after).Nodup) :
    (before ++ after).Nodup :=
  nodup.sublist (List.Sublist.append_left (List.sublist_cons_self _ _) _)

/-- An original clause that is removed leaves the list of originals. -/
theorem Booked.removeOriginal {before after : List ClauseId}
    (h : e.Booked (before ++ id :: after) ks) : (e.removeClause id).Booked (before ++ after) ks := by
  obtain ⟨used, original⟩ := (h.filed.original id).mp (by simp)
  have nodup := h.filed.originals_nodup
  refine h.removeClause used (mem_without nodup) (fun x => ?_) (nodup_without nodup)
    h.filed.learnts_nodup
  refine ⟨fun member => ⟨member, ?_⟩, fun member => member.1⟩
  rintro rfl
  exact absurd (original.symm.trans ((h.filed.learnt x).mp member).2) nofun

/-- A learnt clause that is removed leaves the list of learnt clauses. -/
theorem Booked.removeLearnt {before after : List ClauseId}
    (h : e.Booked os (before ++ id :: after)) : (e.removeClause id).Booked os (before ++ after) := by
  obtain ⟨used, learnt⟩ := (h.filed.learnt id).mp (by simp)
  have nodup := h.filed.learnts_nodup
  refine h.removeClause used (fun x => ?_) (mem_without nodup) h.filed.originals_nodup
    (nodup_without nodup)
  refine ⟨fun member => ⟨member, ?_⟩, fun member => member.1⟩
  rintro rfl
  exact absurd (learnt.symm.trans ((h.filed.original x).mp member).2) nofun

/-! ### Freezing, thawing and counting levels anew -/

/-- A learnt clause in use may be frozen or thawed, and reordered, if the number of frozen clauses
follows. -/
theorem Booked.setFrozen (h : e.Booked os ks) (used : (e.clause id).isRemoved = false)
    (isLearnt : (e.clause id).isLearnt = true) {change : Clause → Clause} {b : Bool}
    (clauses : f.arena.clauses = (e.arena.modify id change).clauses)
    (reorders : ∃ d, (e.clause id).Kindred d ∧ change (e.clause id) = d.setFrozen b)
    {n : Nat} (tally : f.tally = { e.tally with frozen := n })
    (frozen : n + (if (e.clause id).isFrozen then 1 else 0) = e.tally.frozen + if b then 1 else 0)
    (lbdCounts : f.lbdCounts = e.lbdCounts) (space : f.arena.space = e.arena.space)
    (binary : f.watches.binary = e.watches.binary) : f.Booked os ks := by
  obtain ⟨d, kindred, changed⟩ := reorders
  have usedD : d.isRemoved = false := kindred.removed.trans used
  have learntD : d.isLearnt = true := kindred.learnt.trans isLearnt
  have removed : (change (e.clause id)).isRemoved = false := changed ▸ usedD
  have learnt : (change (e.clause id)).isLearnt = (e.clause id).isLearnt := by
    rw [changed, Clause.isLearnt_setFrozen, kindred.learnt]
  have size : (change (e.clause id)).size = (e.clause id).size := by
    rw [changed]
    exact kindred.size
  have lbd : (change (e.clause id)).lbd = (e.clause id).lbd := by
    rw [changed, ← kindred.lbd, Clause.lbd, Clause.lbd, Clause.setFrozen, Clause.modifyLearnt]
    cases d.learnt? <;> rfl
  have frozen' : (change (e.clause id)).isFrozen = b := by
    rw [changed, Clause.isFrozen_setFrozen, learntD, Bool.true_and]
  have shares := Clause.share_of_isLearnt used isLearnt
  have shares' := Clause.share_of_isLearnt removed (learnt.trans isLearnt)
  rw [frozen', size] at shares'
  -- Freezing changes neither what the clause counts for in any other way, nor its words.
  have words : (change (e.clause id)).liveWords = (e.clause id).liveWords := by
    rw [Clause.liveWords, Clause.liveWords, removed, used, Clause.words, Clause.words, size, learnt]
  refine h.exchange clauses used ?_ binary (by rw [tally]) (by rw [tally])
    (h.filed.exchange clauses used removed learnt)
  constructor
  case originals => rw [tally, shares, shares']
  case learnts => rw [tally, shares, shares']
  case frozen => rw [tally, shares, shares']; exact frozen
  case originalLits => rw [tally, shares, shares']
  case learntLits => rw [tally, shares, shares']
  case lbds =>
    intro n
    rw [lbdCounts, Clause.lbdShare, Clause.lbdShare, removed, used, learnt, lbd]
  case used => rw [space]
  case wasted => rw [space, words]
  case limit => rw [space]

/-- The level count of a learnt clause in use may change if the table of counts follows. -/
theorem Booked.setLbd (h : e.Booked os ks) (used : (e.clause id).isRemoved = false) {i : LearntInfo}
    (learnt : (e.clause id).learnt? = some i) (lbd : Nat)
    (arena : f.arena = e.arena.modify id (·.setLbd lbd))
    (lbdCounts : f.lbdCounts = (e.lbdCounts.modify i.lbd (· - 1)).modify (min lbd Clause.maxLbd) (· + 1))
    (tally : f.tally = e.tally) (binary : f.watches.binary = e.watches.binary) : f.Booked os ks := by
  have clauses : f.arena.clauses = (e.arena.modify id (·.setLbd lbd)).clauses := by rw [arena]
  have space : f.arena.space = e.arena.space := by rw [arena]; rfl
  refine h.exchange clauses used ?_ binary (by rw [tally]) (by rw [tally])
    (h.filed.exchange clauses used used (Clause.isLearnt_setLbd _ lbd))
  constructor
  case originals => rw [tally, Clause.share_setLbd]
  case learnts => rw [tally, Clause.share_setLbd]
  case frozen => rw [tally, Clause.share_setLbd]
  case originalLits => rw [tally, Clause.share_setLbd]
  case learntLits => rw [tally, Clause.share_setLbd]
  case used => rw [space]
  case wasted => rw [space, Clause.liveWords_setLbd]
  case limit => rw [space]
  case lbds =>
    -- The clause leaves one entry of the table, where it was counted, and joins another.
    intro n
    have changed : ((e.clause id).setLbd lbd).learnt? = some { i with lbd := min lbd Clause.maxLbd } := by
      rw [Clause.setLbd, Clause.modifyLearnt, learnt]
      rfl
    have counts := (h.balanced.counted used).lbds n
    rw [Clause.lbdShare_of_learnt used learnt] at counts
    rw [Clause.lbdShare_of_learnt used learnt,
      Clause.lbdShare_of_learnt (c := (e.clause id).setLbd lbd) used changed, lbdCounts,
      DenseMap.get_modify, DenseMap.get_modify]
    by_cases here : i.lbd = n <;> by_cases there : min lbd Clause.maxLbd = n <;>
      simp only [here, there, if_true, if_false] at counts ⊢ <;> omega

theorem Booked.refreshLbd (h : e.Booked os ks) (used : (e.clause id).isRemoved = false) :
    (e.refreshLbd id).Booked os ks := by
  unfold Engine.refreshLbd
  dsimp only
  split
  · exact h
  next high =>
    rcases counted : e.countLevels (e.clause id).lits.toList with ⟨g, lbd⟩
    obtain ⟨same, clause⟩ : e.SameBooks g ∧ g.clause id = e.clause id := by
      unfold countLevels at counted
      cases counted
      exact ⟨{ SameBooks.refl e with }, rfl⟩
    have booked := same.booked h
    dsimp only
    split
    next lower =>
      cases learnt : (e.clause id).learnt? with
      | none =>
        rw [Clause.lbd, learnt] at high
        exact absurd (Nat.zero_le 3) high
      | some i =>
        have old : (e.clause id).lbd = i.lbd := by rw [Clause.lbd, learnt]; rfl
        rw [old]
        exact booked.setLbd (clause ▸ used) (clause ▸ learnt) lbd rfl rfl rfl rfl
    next => exact booked

/-! ### Shortening -/

/-- Literals of a clause in use may be dropped, and their words wasted. -/
theorem Booked.shrink (h : e.Booked os ks) (used : (e.clause id).isRemoved = false) {lits : Array Lit}
    (le : lits.size ≤ (e.clause id).size)
    (arena : f.arena = (e.arena.modify id (·.setLits lits)).waste ((e.clause id).size - lits.size))
    (tally : f.tally = if (e.clause id).isLearnt
      then { e.tally with learntLits := e.tally.learntLits - ((e.clause id).size - lits.size) }
      else { e.tally with originalLits := e.tally.originalLits - ((e.clause id).size - lits.size) })
    (lbdCounts : f.lbdCounts = e.lbdCounts) (binary : f.watches.binary = e.watches.binary) :
    f.Booked os ks := by
  have counted := h.balanced.counted used
  have clauses : f.arena.clauses = (e.arena.modify id (·.setLits lits)).clauses := by rw [arena]; rfl
  have space : f.arena.space = e.arena.space.waste ((e.clause id).size - lits.size) := by rw [arena]; rfl
  -- The words of the literals dropped are wasted, so that those in use and those wasted stay the same in
  -- all.
  have words : ((e.clause id).setLits lits).liveWords + ((e.clause id).size - lits.size) =
      (e.clause id).liveWords := by
    rw [Clause.liveWords_of_used used, Clause.liveWords_of_used (c := (e.clause id).setLits lits) used]
    change 1 + lits.size + _ + _ = 1 + (e.clause id).size + _
    rw [show ((e.clause id).setLits lits).isLearnt = (e.clause id).isLearnt from rfl]
    omega
  have binaries : f.tally.originalBinary = e.tally.originalBinary ∧
      f.tally.learntBinary = e.tally.learntBinary := by
    rw [tally]
    split <;> exact ⟨rfl, rfl⟩
  refine h.exchange clauses used ?_ binary binaries.1 binaries.2
    (h.filed.exchange clauses used used rfl)
  cases learnt : (e.clause id).learnt? with
  | some i =>
    have share := Clause.share_of_learnt used learnt
    have share' := Clause.share_of_learnt (c := (e.clause id).setLits lits) used learnt
    have isLearnt : (e.clause id).isLearnt = true := by rw [Clause.isLearnt, learnt]; rfl
    rw [if_pos isLearnt] at tally
    constructor
    case originals => rw [tally, share, share']
    case learnts => rw [tally, share, share']
    case frozen => rw [tally, share, share']
    case originalLits => rw [tally, share, share']
    case learntLits =>
      have := counted.learntLits
      rw [share] at this
      rw [tally, share, share']
      change _ - _ + (e.clause id).size = _ + lits.size
      dsimp only at this
      omega
    case lbds => intro n; rw [lbdCounts]; rfl
    case used => rw [space]; rfl
    case limit => rw [space]; rfl
    case wasted =>
      rw [space]
      change e.arena.space.wasted + _ + _ = _
      omega
  | none =>
    have share := Clause.share_of_original used learnt
    have share' := Clause.share_of_original (c := (e.clause id).setLits lits) used learnt
    have isLearnt : ¬ (e.clause id).isLearnt = true := by simp [Clause.isLearnt, learnt]
    rw [if_neg isLearnt] at tally
    constructor
    case originals => rw [tally, share, share']
    case learnts => rw [tally, share, share']
    case frozen => rw [tally, share, share']
    case learntLits => rw [tally, share, share']
    case originalLits =>
      have := counted.originalLits
      rw [share] at this
      rw [tally, share, share']
      change _ - _ + (e.clause id).size = _ + lits.size
      dsimp only at this
      omega
    case lbds => intro n; rw [lbdCounts]; rfl
    case used => rw [space]; rfl
    case limit => rw [space]; rfl
    case wasted =>
      rw [space]
      change e.arena.space.wasted + _ + _ = _
      omega

/-! ### Storing -/

theorem claim_of_alloc {a b : ClauseArena} {lits : Array Lit} {learnt : Bool} {id : ClauseId}
    (stored : a.alloc lits learnt = .ok (id, b)) :
    a.space.claim (Clause.fresh lits learnt).words = .ok b.space := by
  obtain ⟨-, -, space, claimed, rfl⟩ := ClauseArena.alloc_eq_ok_iff.mp stored
  exact claimed

theorem Balanced.store (h : e.Balanced) {c : Clause} (used : c.isRemoved = false)
    (total : ∀ weight : Clause → Nat, f.arena.total weight = e.arena.total weight + weight c)
    (originals : f.tally.originals = e.tally.originals + c.share.originals)
    (learnts : f.tally.learnts = e.tally.learnts + c.share.learnts)
    (frozen : f.tally.frozen = e.tally.frozen + c.share.frozen)
    (originalLits : f.tally.originalLits = e.tally.originalLits + c.share.originalLits)
    (learntLits : f.tally.learntLits = e.tally.learntLits + c.share.learntLits)
    (lbds : ∀ n, f.lbdCounts.get n = e.lbdCounts.get n + c.lbdShare n)
    (claimed : e.arena.space.claim c.words = .ok f.arena.space) : f.Balanced where
  originals := by rw [total, originals, h.originals]
  learnts := by rw [total, learnts, h.learnts]
  frozen := by rw [total, frozen, h.frozen]
  originalLits := by rw [total, originalLits, h.originalLits]
  learntLits := by rw [total, learntLits, h.learntLits]
  lbds := fun n => by rw [total, lbds, h.lbds]
  words := by
    have := h.words
    rw [total, (Space.claim_eq_ok_iff.mp claimed).2, Clause.liveWords_of_used used]
    dsimp only
    omega
  room := by
    obtain ⟨fits, space⟩ := Space.claim_eq_ok_iff.mp claimed
    rw [space]
    exact fits

theorem Filed.store (h : e.Filed os ks) {c : Clause} (adds : e.arena.Adds id c f.arena)
    (used : c.isRemoved = false) (original : ∀ x, x ∈ os' ↔ x ∈ os ∨ x = id ∧ c.isLearnt = false)
    (learnt : ∀ x, x ∈ ks' ↔ x ∈ ks ∨ x = id ∧ c.isLearnt = true) (originals_nodup : os'.Nodup)
    (learnts_nodup : ks'.Nodup) : f.Filed os' ks' := by
  have absent : e.clause id = .absent := clause_eq_absent (Nat.le_of_eq adds.fresh.symm)
  have gone : (e.clause id).isRemoved = true := absent ▸ rfl
  have get (x : ClauseId) : f.clause x = if x = id then c else e.clause x := adds.get x
  constructor
  case original =>
    intro x
    rw [original, h.original, get]
    by_cases same : x = id
    · subst same
      simp [gone, used]
    · simp [same]
  case learnt =>
    intro x
    rw [learnt, h.learnt, get]
    by_cases same : x = id
    · subst same
      simp [gone, used]
    · simp [same]
  case originals_nodup => exact originals_nodup
  case learnts_nodup => exact learnts_nodup

/-- A fresh handle is in no list. -/
theorem Filed.fresh (h : e.Filed os ks) {c : Clause} {arena : ClauseArena}
    (adds : e.arena.Adds id c arena) : id ∉ os ∧ id ∉ ks := by
  have gone : (e.clause id).isRemoved = true := by
    rw [clause_eq_absent (Nat.le_of_eq adds.fresh.symm)]
    rfl
  exact ⟨fun member => absurd (gone.symm.trans ((h.original id).mp member).1) nofun,
    fun member => absurd (gone.symm.trans ((h.learnt id).mp member).1) nofun⟩

theorem nodup_push (nodup : os.Nodup) (fresh : id ∉ os) : (os ++ [id]).Nodup :=
  List.nodup_append.mpr ⟨nodup, by simp, by
    intro x inside y last same
    rw [List.mem_singleton.mp last] at same
    exact fresh (same ▸ inside)⟩

/-- The counts after an original clause was stored. -/
theorem Balanced.storeOriginal (h : e.Balanced) {lits : Array Lit} {arena : ClauseArena}
    (stored : e.arena.alloc lits false = .ok (id, arena)) (arena_eq : f.arena = arena)
    (tally : f.tally = { e.tally with
      originals := e.tally.originals + 1
      originalLits := e.tally.originalLits + lits.size })
    (lbdCounts : f.lbdCounts = e.lbdCounts) : f.Balanced := by
  have share : (Clause.fresh lits false).share = { originals := 1, originalLits := lits.size } := rfl
  refine h.store (c := .fresh lits false) rfl (fun weight => ?_) ?_ ?_ ?_ ?_ ?_ (fun n => ?_) ?_
  case refine_1 =>
    rw [arena_eq]
    exact ClauseArena.total_push weight stored
  case refine_7 =>
    rw [lbdCounts]
    rfl
  case refine_8 =>
    rw [arena_eq]
    exact claim_of_alloc stored
  all_goals
    rw [tally, share]
    try rfl

/-- An original clause is stored, and filed as the last one. -/
theorem Booked.storeOriginal (h : e.Booked e.originals.toList ks) {lits : Array Lit}
    (result : e.storeOriginal lits = .ok f) : f.Booked f.originals.toList ks ∧
      f.learnts = e.learnts ∧ f.recentLearnts = e.recentLearnts ∧
      f.watches.frozen = e.watches.frozen := by
  obtain ⟨id, arena, stored, rfl⟩ := storeOriginal_eq result
  have adds := ClauseArena.adds_alloc stored
  have fresh := h.filed.fresh adds
  refine ⟨⟨h.balanced.storeOriginal stored rfl rfl rfl, ?_, h.blank, h.symmetric, h.pairs⟩, rfl, rfl, ?_⟩
  · rw [withOriginal, Array.toList_push]
    refine h.filed.store adds rfl (fun x => ?_) (fun x => ?_)
      (nodup_push h.filed.originals_nodup fresh.1) h.filed.learnts_nodup
    · simp [Clause.fresh, Clause.isLearnt]
    · simp [Clause.fresh, Clause.isLearnt]
  · rw [withOriginal, Watches.watch, Watches.pushLong, Watches.pushLong]

theorem sameBooks_bumpClause (e : Engine) (id : ClauseId) : e.SameBooks (e.bumpClause id) := by
  unfold bumpClause
  dsimp only
  have bumped := SameBooks.modifyClause e id fun c =>
    c.kindred_setActivity (c.activity + narrow e.clauseIncrement)
  split
  · refine bumped.trans ?_
    generalize e.modifyClause id _ = g
    have scaled (ids : List ClauseId) (arena : ClauseArena) :
        ({ g with arena } : Engine).SameBooks { g with
          arena := ids.foldl
            (fun arena id => arena.modify id fun c => c.setActivity (c.activity * 1e-20)) arena } := by
      induction ids generalizing arena with
      | nil => exact .refl _
      | cons id ids ih =>
        exact (SameBooks.modifyClause { g with arena } id fun c =>
          c.kindred_setActivity (c.activity * 1e-20)).trans (ih _)
    have := scaled g.learnts.toList g.arena
    rw [Array.foldl_toList] at this
    exact { this with }
  · exact bumped

theorem sameBooks_bumpIfLearnt (e : Engine) (id : ClauseId) : e.SameBooks (e.bumpIfLearnt id) := by
  unfold bumpIfLearnt
  split
  · exact sameBooks_bumpClause e id
  · exact .refl e

/-- The counts after a learnt clause was stored, with its level count. -/
theorem Balanced.storeLearnt (h : e.Balanced) {lits : Array Lit} {lbd : Nat} {arena : ClauseArena}
    (stored : e.arena.alloc lits true = .ok (id, arena))
    (arena_eq : f.arena = arena.modify id (·.setLbd lbd))
    (tally : f.tally = { e.tally with
      learnts := e.tally.learnts + 1, learntLits := e.tally.learntLits + lits.size })
    (lbdCounts : f.lbdCounts = e.lbdCounts.modify (min lbd Clause.maxLbd) (· + 1)) : f.Balanced := by
  have adds := ClauseArena.adds_alloc stored
  have share : ((Clause.fresh lits true).setLbd lbd).share =
      { learnts := 1, learntLits := lits.size } := rfl
  refine h.store (c := (Clause.fresh lits true).setLbd lbd) rfl (fun weight => ?_) ?_ ?_ ?_ ?_ ?_
    (fun n => ?_) ?_
  case refine_1 =>
    -- The clause is added as it is fresh, and then exchanged for the one with its level count.
    have exchanged := ClauseArena.total_modify weight (·.setLbd lbd)
      (show id.slot < arena.clauses.size by rw [adds.fresh, adds.size]; omega)
    rw [ClauseArena.total_push weight stored, adds.get, if_pos rfl] at exchanged
    rw [arena_eq]
    omega
  case refine_7 =>
    rw [lbdCounts, DenseMap.get_modify,
      Clause.lbdShare_of_learnt (i := { lbd := min lbd Clause.maxLbd }) rfl rfl]
    split <;> rfl
  case refine_8 =>
    rw [arena_eq]
    exact claim_of_alloc stored
  all_goals
    rw [tally, share]
    try rfl

/-- A learnt clause is stored, and filed as the last one. -/
theorem Booked.storeLearnt (h : e.Booked os e.learnts.toList) {lits : Array Lit} {lbd : Nat}
    (result : e.storeLearnt lits lbd = .ok (id, f)) : f.Booked os f.learnts.toList ∧
      f.originals = e.originals ∧ f.recentLearnts = e.recentLearnts + 1 ∧
      f.learnts = e.learnts.push id ∧ f.watches.frozen = e.watches.frozen := by
  obtain ⟨arena, stored, rfl⟩ := storeLearnt_eq result
  have adds := (ClauseArena.adds_alloc stored).modify (·.setLbd lbd)
  have fresh := h.filed.fresh adds
  have booked : (e.withLearnt id arena lits lbd).Booked os (e.withLearnt id arena lits lbd).learnts.toList := by
    refine ⟨h.balanced.storeLearnt stored rfl rfl rfl, ?_, h.blank, h.symmetric, h.pairs⟩
    rw [withLearnt, Array.toList_push]
    refine h.filed.store adds rfl (fun x => ?_) (fun x => ?_) h.filed.originals_nodup
      (nodup_push h.filed.learnts_nodup fresh.2)
    · simp [Clause.fresh, Clause.isLearnt, Clause.setLbd, Clause.modifyLearnt]
    · simp [Clause.fresh, Clause.isLearnt, Clause.setLbd, Clause.modifyLearnt]
  -- Bumping the clause scores it, and leaves the books alone.
  have same := sameBooks_bumpClause (e.withLearnt id arena lits lbd) id
  refine ⟨?_, ?_, ?_, ?_, ?_⟩
  · rw [same.learnts]
    exact same.booked booked
  · rw [same.originals, withLearnt]
  · rw [same.recentLearnts, withLearnt]
  · rw [same.learnts, withLearnt]
  · rw [same.frozen, withLearnt, Watches.watch, Watches.pushLong, Watches.pushLong]

/-! ### New variables -/

theorem Booked.grown (h : e.Booked os ks) {aside : List ClauseId} (sound : e.Sound aside)
    (polarity : Bool) : (e.grown polarity).Booked os ks where
  balanced := h.balanced.tally rfl rfl rfl
  filed := h.filed.arena rfl
  blank := ((sound.blank.addLit _).addLit _).binary
  symmetric := by
    intro p q
    rw [binary_grown polarity sound, binary_grown polarity sound]
    exact h.symmetric p q
  pairs := by
    have empty {q : Lit} (new : q.var = ⟨e.numVars⟩) : e.watches.binary.get q = #[] := by
      refine Array.eq_empty_iff_forall_not_mem.mpr fun r member => ?_
      have := (sound.binary_bounded q r member).1
      rw [new] at this
      exact Nat.lt_irrefl _ this
    have blank := sound.blank.addLit ⟨⟨e.numVars⟩, false⟩
    have once := Watches.pairCount_addLit sound.blank.binary (l := ⟨⟨e.numVars⟩, false⟩) (empty rfl)
    have twice := Watches.pairCount_addLit (w := e.watches.addLit ⟨⟨e.numVars⟩, false⟩) blank.binary
      (l := ⟨⟨e.numVars⟩, true⟩) (by
        rw [Watches.binary_addLit, if_neg (fun same => by cases same)]
        exact empty rfl)
    change ((e.watches.addLit ⟨⟨e.numVars⟩, false⟩).addLit ⟨⟨e.numVars⟩, true⟩).pairCount = _
    rw [twice, once]
    exact h.pairs

/-! ### Compaction -/

section Compaction

open ClauseArena

theorem Filed.listsUsed (h : e.Filed e.originals.toList e.learnts.toList) : e.ListsUsed := fun id member =>
  member.elim (fun original => ((h.original id).mp (Array.mem_toList_iff.mpr original)).1)
    fun learnt => ((h.learnt id).mp (Array.mem_toList_iff.mpr learnt)).1

/-- The lists hold the handles of all clauses in use. -/
theorem Filed.listed (h : e.Filed e.originals.toList e.learnts.toList)
    (used : (e.clause id).isRemoved = false) : id ∈ e.originals ∨ id ∈ e.learnts := by
  cases learnt : (e.clause id).isLearnt with
  | false => exact .inl (Array.mem_toList_iff.mp ((h.original id).mpr ⟨used, learnt⟩))
  | true => exact .inr (Array.mem_toList_iff.mp ((h.learnt id).mpr ⟨used, learnt⟩))

/-- What is moved keeps its share in every count, and nothing in use stays behind. -/
theorem Balanced.moved {ids : List ClauseId} (h : e.Balanced) (moved : e.arena.Moved ids f.arena)
    (all : ∀ id, (e.arena.get id).isRemoved = false → id ∈ ids) (tally : f.tally = e.tally)
    (lbdCounts : f.lbdCounts = e.lbdCounts) : f.Balanced := by
  have total {weight : Clause → Nat} (absent : ∀ c, c.isRemoved = true → weight c = 0) :
      f.arena.total weight = e.arena.total weight := moved.total all absent
  have share {c : Clause} (removed : c.isRemoved = true) : c.share = {} := by
    rw [Clause.share, if_pos removed]
  obtain ⟨used, wasted⟩ := moved.words all
  have words : f.arena.total Clause.liveWords = e.arena.total Clause.liveWords :=
    total fun c removed => by simp [Clause.liveWords, removed]
  constructor
  case originals => rw [tally, total fun c removed => by rw [share removed]]; exact h.originals
  case learnts => rw [tally, total fun c removed => by rw [share removed]]; exact h.learnts
  case frozen => rw [tally, total fun c removed => by rw [share removed]]; exact h.frozen
  case originalLits =>
    rw [tally, total fun c removed => by rw [share removed]]
    exact h.originalLits
  case learntLits =>
    rw [tally, total fun c removed => by rw [share removed]]
    exact h.learntLits
  case lbds =>
    intro n
    rw [lbdCounts, total fun c removed => by simp [Clause.lbdShare, removed]]
    exact h.lbds n
  case words => rw [used, wasted, words, Nat.zero_add]
  case room =>
    have := h.words
    have := h.room
    have limit : f.arena.space.limit = e.arena.space.limit := by rw [moved.space]
    omega

theorem Filed.moved {ids : List ClauseId} (h : e.Filed os ks) (moved : e.arena.Moved ids f.arena)
    (all : ∀ id, (e.clause id).isRemoved = false → id ∈ ids) :
    f.Filed (os.map (newId ids)) (ks.map (newId ids)) := by
  have member (held : List ClauseId) (learnt : Bool) (exact : ∀ id, id ∈ held ↔
      (e.clause id).isRemoved = false ∧ (e.clause id).isLearnt = learnt) (x : ClauseId) :
      x ∈ held.map (newId ids) ↔ (f.clause x).isRemoved = false ∧ (f.clause x).isLearnt = learnt := by
    rw [List.mem_map]
    constructor
    · rintro ⟨id, inside, rfl⟩
      have used := (exact id).mp inside
      rw [show f.clause (newId ids id) = e.clause id from moved.get (all id used.1)]
      exact used
    · rintro ⟨used, isLearnt⟩
      obtain ⟨id, kept, rfl⟩ := moved.onto used
      rw [show f.clause (newId ids id) = e.clause id from moved.get kept] at isLearnt
      exact ⟨id, (exact id).mpr ⟨moved.used id kept, isLearnt⟩, rfl⟩
  have nodup (held : List ClauseId) (used : ∀ id ∈ held, (e.clause id).isRemoved = false)
      (nodup : held.Nodup) : (held.map (newId ids)).Nodup :=
    nodup.map_on fun x inside y _ same => Moved.inj (all x (used x inside)) same
  exact ⟨member os false h.original, member ks true h.learnt,
    nodup os (fun id inside => ((h.original id).mp inside).1) h.originals_nodup,
    nodup ks (fun id inside => ((h.learnt id).mp inside).1) h.learnts_nodup⟩

theorem Booked.compact {aside : List ClauseId} (h : e.Booked e.originals.toList e.learnts.toList)
    (sound : e.Sound aside) (result : e.compact = .ok f) :
    f.Booked f.originals.toList f.learnts.toList ∧ f.learnts.size = e.learnts.size ∧
      f.recentLearnts = e.recentLearnts := by
  obtain ⟨ids, b, reasons, moved, held, -, rfl⟩ := sound.compact_eq h.filed.listsUsed result
  have all (id : ClauseId) (used : (e.clause id).isRemoved = false) : id ∈ ids :=
    (h.filed.listed used).elim (held.originals id) (held.learnts id)
  have binary : e.swept.watches.binary = e.watches.binary :=
    (Watches.cleanAll_cleaned e.watches e.arena).binary
  refine ⟨⟨h.balanced.moved moved all rfl rfl, ?_, ?_, ?_, ?_⟩, Array.size_map, rfl⟩
  · rw [Array.toList_map, Array.toList_map]
    exact h.filed.moved moved all
  · exact (congrArg DenseMap.fallback binary).trans h.blank
  · change Watches.Symmetric (e.swept.watches.rename (newId ids))
    simp only [Watches.Symmetric, Watches.rename, binary]
    exact h.symmetric
  · refine Eq.trans ?_ h.pairs
    change Watches.pairCount (e.swept.watches.rename (newId ids)) = _
    simp only [Watches.pairCount, Watches.rename, binary]

end Compaction

end Engine

end Cdcl
