import Cdcl.Proofs.EngineInvariant

/-!
# Watch lists

What the operations on watch lists do to the entries of a clause, and which of them keep the lists
in step with the clauses.

## Main results

- `Tracks.watch`: a clause that was set aside is tracked once it is watched.
- `Tracks.cleaned`: cleaning drops entries of no clause that takes part in propagation.
-/

namespace Cdcl

namespace Watches

variable {w : Watches} {arena : ClauseArena} {clause : ClauseId → Clause} {aside : List ClauseId}

/-! ### Adding entries -/

theorem long_setLong (w : Watches) (key : Lit) (ws : Array Watcher) (p : Lit) :
    (w.setLong key ws).long.get p = if key = p then ws else w.long.get p :=
  DenseMap.get_insert ..

theorem blank_setLong {key : Lit} {ws : Array Watcher} : (w.setLong key ws).Blank ↔ w.Blank := by
  constructor
  · intro h
    exact { h with long := by simpa [setLong] using h.long }
  · intro h
    exact { h with long := by simpa [setLong] using h.long }

theorem Blank.pushLong (h : w.Blank) (key : Lit) (x : Watcher) : (w.pushLong key x).Blank :=
  { h with long := by simp [Watches.pushLong, h.long] }

theorem mem_pushLong {key p : Lit} {x y : Watcher} :
    y ∈ (w.pushLong key x).long.get p ↔ y ∈ w.long.get p ∨ key = p ∧ y = x := by
  simp only [pushLong, DenseMap.get_modify]
  split
  next same => simp [Array.mem_push, same]
  next other => simp [other]

theorem mem_pushFrozen {key p : Lit} {x y : Watcher} :
    y ∈ (w.pushFrozen key x).frozen.get p ↔ y ∈ w.frozen.get p ∨ key = p ∧ y = x := by
  simp only [pushFrozen, DenseMap.get_modify]
  split
  next same => simp [Array.mem_push, same]
  next other => simp [other]

theorem entriesOf_pushLong (id : ClauseId) (key p : Lit) (x : Watcher) :
    entriesOf id ((w.pushLong key x).long.get p) =
      entriesOf id (w.long.get p) + if key = p ∧ x.clause = id then 1 else 0 := by
  simp only [pushLong, DenseMap.get_modify]
  split
  next same => simp [entriesOf_push, same]
  next other => simp [other]

/-- An entry that moves from one list to another leaves the other entries as they are. -/
theorem entriesOf_move (w : Watches) (id other : ClauseId) (blocker : Lit) (kept : Array Watcher)
    (rest : List Watcher) {p key : Lit} (differ : key ≠ p) (x : Lit) (q : Lit) :
    entriesOf other (((w.pushLong key ⟨id, x⟩).setLong p (kept ++ rest.toArray)).long.get q) +
        (if p = q ∧ id = other then 1 else 0) =
      entriesOf other ((w.setLong p (kept ++ (⟨id, blocker⟩ :: rest).toArray)).long.get q) +
        (if key = q ∧ id = other then 1 else 0) := by
  rw [long_setLong, long_setLong]
  split
  next here =>
    subst here
    rw [entriesOf_append, entriesOf_append, entriesOf_cons]
    simp only [differ, true_and, false_and, if_false]
    omega
  next there =>
    rw [entriesOf_pushLong]
    simp [there]

theorem mem_move {id : ClauseId} {blocker : Lit} {kept : Array Watcher} {rest : List Watcher}
    {p key x q : Lit} {y : Watcher}
    (member : y ∈ ((w.pushLong key ⟨id, x⟩).setLong p (kept ++ rest.toArray)).long.get q) :
    y ∈ (w.setLong p (kept ++ (⟨id, blocker⟩ :: rest).toArray)).long.get q ∨ y = ⟨id, x⟩ := by
  rw [long_setLong] at *
  split at member
  next here =>
    left
    rw [if_pos here]
    simp only [Array.mem_append, List.mem_toArray, List.mem_cons] at *
    exact member.imp_right .inr
  next there =>
    rw [if_neg there]
    exact (mem_pushLong.mp member).imp_right And.right

theorem mem_watch {id : ClauseId} {first second p : Lit} {y : Watcher} :
    y ∈ (w.watch id first second).long.get p ↔ y ∈ w.long.get p ∨
      first.neg = p ∧ y = ⟨id, second⟩ ∨ second.neg = p ∧ y = ⟨id, first⟩ := by
  rw [watch, mem_pushLong, mem_pushLong, or_assoc]

theorem entriesOf_watch_self {id : ClauseId} {first second : Lit} (distinct : first ≠ second)
    (p : Lit) : entriesOf id ((w.watch id first second).long.get p) =
      entriesOf id (w.long.get p) + if p = first.neg ∨ p = second.neg then 1 else 0 := by
  have apart : first.neg ≠ second.neg := fun same => distinct (Lit.neg_inj.mp same)
  rw [watch, entriesOf_pushLong, entriesOf_pushLong, Nat.add_assoc]
  congr 1
  by_cases atFirst : p = first.neg
  · simp [atFirst, apart.symm]
  · simp [atFirst, Ne.symm atFirst, eq_comm]

theorem entriesOf_watch_other {id other : ClauseId} (ne : id ≠ other) (first second p : Lit) :
    entriesOf other ((w.watch id first second).long.get p) = entriesOf other (w.long.get p) := by
  rw [watch, entriesOf_pushLong, entriesOf_pushLong, if_neg (fun h => ne h.2),
    if_neg (fun h => ne h.2)]
  rfl

theorem Blank.watch (h : w.Blank) (id : ClauseId) (first second : Lit) :
    (w.watch id first second).Blank :=
  (h.pushLong _ _).pushLong _ _

/-- A clause set aside is in step with the lists once it is watched on its first two literals. -/
theorem Tracks.watch {id : ClauseId} (h : w.Tracks clause (id :: aside)) (notAside : id ∉ aside)
    (distinct : (clause id).lit 0 ≠ (clause id).lit 1) :
    (w.watch id ((clause id).lit 0) ((clause id).lit 1)).Tracks clause aside where
  exact := by
    intro other otherAttached otherNotAside p
    by_cases same : id = other
    · subst same
      rw [entriesOf_watch_self distinct, h.aside id List.mem_cons_self, Nat.zero_add]
      rfl
    · rw [entriesOf_watch_other same]
      refine h.exact other otherAttached ?_ p
      simp only [List.mem_cons, not_or]
      exact ⟨Ne.symm same, otherNotAside⟩
  aside := by
    intro other member p
    have ne : id ≠ other := fun same => notAside (same ▸ member)
    rw [entriesOf_watch_other ne]
    exact h.aside other (List.mem_cons_of_mem _ member) p
  usable := fun other member => h.usable other (List.mem_cons_of_mem _ member)
  stale := by
    intro other detached p some
    have ne : id ≠ other := by
      rintro rfl
      rw [h.usable id List.mem_cons_self] at detached
      cases detached
    rw [entriesOf_watch_other ne] at some
    exact h.stale other detached p some
  listed := h.listed

/-! ### Cleaning -/

/-- The second lists are the first ones without some of the stale entries. -/
structure Cleaned (arena : ClauseArena) (w v : Watches) : Prop where
  sublist : ∀ p, (v.long.get p).toList.Sublist (w.long.get p).toList
  fresh : ∀ p, (v.long.get p).filter (!isStale arena ·) = (w.long.get p).filter (!isStale arena ·)
  dirty : ∀ p, v.dirty.get p = true → w.dirty.get p = true
  swept : ∀ p, w.dirty.get p = true → v.dirty.get p = false → ∀ x ∈ v.long.get p,
    (arena.get x.clause).isAttached = true
  binary : v.binary = w.binary
  frozen : v.frozen = w.frozen
  blank : w.Blank → v.Blank

theorem Cleaned.refl (arena : ClauseArena) (w : Watches) : Cleaned arena w w where
  sublist := fun _ => List.Sublist.refl _
  fresh := fun _ => rfl
  dirty := fun _ => id
  swept := fun _ yes no => by rw [yes] at no; cases no
  binary := rfl
  frozen := rfl
  blank := id

theorem Cleaned.mem {v : Watches} (h : Cleaned arena w v) {p : Lit} {x : Watcher}
    (member : x ∈ v.long.get p) : x ∈ w.long.get p :=
  Array.mem_toList_iff.mp ((h.sublist p).subset (Array.mem_toList_iff.mpr member))

theorem Cleaned.le {v : Watches} (h : Cleaned arena w v) (id : ClauseId) (p : Lit) :
    entriesOf id (v.long.get p) ≤ entriesOf id (w.long.get p) :=
  (h.sublist p).countP_le

theorem Cleaned.trans {v u : Watches} (h : Cleaned arena w v) (k : Cleaned arena v u) :
    Cleaned arena w u where
  sublist := fun p => (k.sublist p).trans (h.sublist p)
  fresh := fun p => (k.fresh p).trans (h.fresh p)
  dirty := fun p yes => h.dirty p (k.dirty p yes)
  swept := by
    intro p yes no x member
    cases between : v.dirty.get p with
    | true => exact k.swept p between no x member
    | false => exact h.swept p yes between x (k.mem member)
  binary := k.binary.trans h.binary
  frozen := k.frozen.trans h.frozen
  blank := fun b => k.blank (h.blank b)

theorem not_isStale_iff {x : Watcher} :
    (!isStale arena x) = true ↔ (arena.get x.clause).isAttached = true := by
  simp [isStale, Clause.isAttached]

/-- No entry of a clause that takes part in propagation is lost. -/
theorem Cleaned.kept {v : Watches} (h : Cleaned arena w v) (id : ClauseId)
    (attached : (arena.get id).isAttached = true) (p : Lit) :
    entriesOf id (v.long.get p) = entriesOf id (w.long.get p) := by
  have among (ws : Array Watcher) :
      entriesOf id (ws.filter (!isStale arena ·)) = entriesOf id ws := by
    simp only [entriesOf, Array.toList_filter, List.countP_filter]
    refine List.countP_congr fun x _ => ?_
    simp only [beq_iff_eq, Bool.and_eq_true, not_isStale_iff]
    exact ⟨fun h => h.1, fun same => ⟨same, same ▸ attached⟩⟩
  rw [← among, h.fresh, among]

theorem clean_cleaned (w : Watches) (arena : ClauseArena) (key : Lit) :
    Cleaned arena w (w.clean arena key) where
  sublist := by
    intro p
    simp only [clean, DenseMap.get_modify]
    split
    · rw [Array.toList_filter]
      exact List.filter_sublist
    · exact List.Sublist.refl _
  fresh := by
    intro p
    simp only [clean, DenseMap.get_modify]
    split
    · simp [Array.filter_filter]
    · rfl
  dirty := by
    intro p
    simp only [clean, DenseMap.get_insert]
    split
    · exact fun dirty => absurd dirty Bool.false_ne_true
    · exact id
  swept := by
    intro p yes no x member
    simp only [clean, DenseMap.get_insert, DenseMap.get_modify] at no member
    split at no
    next same =>
      rw [if_pos same] at member
      exact not_isStale_iff.mp (Array.mem_filter.mp member).2
    next => rw [yes] at no; cases no
  binary := rfl
  frozen := rfl
  blank := fun h =>
    { h with
      long := by simp [clean, h.long]
      dirty := by simp [clean, h.dirty] }

theorem cleanIfDirty_cleaned (w : Watches) (arena : ClauseArena) (key : Lit) :
    Cleaned arena w (w.cleanIfDirty arena key) := by
  unfold cleanIfDirty
  split
  · exact clean_cleaned w arena key
  · exact .refl arena w

theorem dirty_cleanIfDirty (w : Watches) (arena : ClauseArena) (key : Lit) :
    (w.cleanIfDirty arena key).dirty.get key = false := by
  unfold cleanIfDirty
  split
  · simp [clean, DenseMap.get_insert]
  next no => exact Bool.eq_false_iff.mpr no

theorem dirtyKeys_cleanIfDirty (w : Watches) (arena : ClauseArena) (key : Lit) :
    (w.cleanIfDirty arena key).dirtyKeys = w.dirtyKeys := by
  unfold cleanIfDirty
  split <;> rfl

private theorem foldl_cleanIfDirty (arena : ClauseArena) (keys : List Lit) (w : Watches) :
    let v := keys.foldl (fun w key => w.cleanIfDirty arena key) w
    Cleaned arena w v ∧ ∀ p ∈ keys, v.dirty.get p = false := by
  induction keys generalizing w with
  | nil => exact ⟨.refl arena w, nofun⟩
  | cons key keys ih =>
    obtain ⟨cleaned, swept⟩ := ih (w.cleanIfDirty arena key)
    refine ⟨(cleanIfDirty_cleaned w arena key).trans cleaned, fun p member => ?_⟩
    rcases List.mem_cons.mp member with rfl | later
    · have clean := dirty_cleanIfDirty w arena p
      refine Bool.eq_false_iff.mpr fun dirty => ?_
      rw [cleaned.dirty p dirty] at clean
      cases clean
    · exact swept p later

theorem cleanAll_cleaned (w : Watches) (arena : ClauseArena) :
    Cleaned arena w (w.cleanAll arena) := by
  unfold cleanAll
  rw [← Array.foldl_toList]
  have cleaned := (foldl_cleanIfDirty arena w.dirtyKeys.toList w).1
  exact { cleaned with blank := fun b => { cleaned.blank b with } }

/-- If every dirty list is known as such, none is dirty after a cleaning. -/
theorem dirty_cleanAll (w : Watches) (arena : ClauseArena)
    (listed : ∀ p, w.dirty.get p = true → p ∈ w.dirtyKeys) (p : Lit) :
    (w.cleanAll arena).dirty.get p = false := by
  have result := foldl_cleanIfDirty arena w.dirtyKeys.toList w
  unfold cleanAll
  rw [← Array.foldl_toList]
  refine Bool.eq_false_iff.mpr fun dirty => ?_
  have before := listed p (result.1.dirty p dirty)
  rw [result.2 p (Array.mem_toList_iff.mpr before)] at dirty
  cases dirty

/-- Cleaning keeps the lists in step with the clauses. -/
theorem Tracks.cleaned {v : Watches} (h : w.Tracks arena.get aside) (cleaned : Cleaned arena w v)
    (listed : ∀ p, v.dirty.get p = true → p ∈ v.dirtyKeys) : v.Tracks arena.get aside where
  exact := fun id attached notAside p => by
    rw [cleaned.kept id attached p]
    exact h.exact id attached notAside p
  aside := fun id member p => by
    have := cleaned.le id p
    have := h.aside id member p
    omega
  usable := h.usable
  stale := by
    intro id detached p some
    have before : 0 < entriesOf id (w.long.get p) := Nat.lt_of_lt_of_le some (cleaned.le id p)
    have dirty := h.stale id detached p before
    by_contra clean
    obtain ⟨x, member, rfl⟩ := entriesOf_pos_iff.mp some
    rw [cleaned.swept p dirty (Bool.eq_false_iff.mpr clean) x member] at detached
    cases detached
  listed := listed

/-- Lists that are not dirty hold no stale entries. -/
theorem Tracks.attached (h : w.Tracks clause aside) {p : Lit} (clean : w.dirty.get p = false)
    {x : Watcher} (member : x ∈ w.long.get p) : (clause x.clause).isAttached = true := by
  by_contra detached
  have some := entriesOf_pos_iff.mpr ⟨x, member, rfl⟩
  rw [h.stale x.clause (Bool.eq_false_iff.mpr detached) p some] at clean
  cases clean

end Watches

end Cdcl
