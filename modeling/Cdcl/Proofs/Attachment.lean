import Cdcl.Proofs.Extension
import Cdcl.Proofs.WatchLists

/-!
# Attaching clauses

Putting clauses to work, and cleaning the lists of those that no longer are, keeps an engine sound.
-/

namespace Cdcl

namespace Engine

variable {aside : List ClauseId} {e : Engine}

/-! ### Cleaning -/

theorem Sound.cleaned (h : e.Sound aside) {f : Watches → Watches}
    (cleaned : Watches.Cleaned e.arena e.watches (f e.watches))
    (listed : ∀ p, (f e.watches).dirty.get p = true → p ∈ (f e.watches).dirtyKeys) :
    (e.modifyWatches f).Sound aside :=
  h.rearranged cleaned.binary (fun p w member => h.inside p w (cleaned.mem member))
    (fun _ => .refl _) (fun _ _ => .inl rfl) (Watches.Tracks.cleaned h.tracked cleaned listed)
    (fun p w member => h.blockers p w (cleaned.mem member)) (cleaned.blank h.blank)

theorem FrozenApart.cleaned (h : e.FrozenApart) {f : Watches → Watches}
    (cleaned : Watches.Cleaned e.arena e.watches (f e.watches)) :
    (e.modifyWatches f).FrozenApart where
  unwatched := by
    intro id used frozen p
    have := h.unwatched id used frozen p
    have := cleaned.le id p
    change entriesOf id ((f e.watches).long.get p) = 0
    omega
  entries := by
    intro p w member
    refine h.entries p w ?_
    rw [← cleaned.frozen]
    exact member

/-! ### Putting frozen clauses back to work -/

/-- A clause without entries may change if it is taken for one that is set aside. -/
theorem tracks_replaced (h : e.watches.Tracks e.clause aside) {id : ClauseId}
    (used : (e.clause id).isRemoved = false) (notAside : id ∉ aside)
    (unwatched : ∀ p, entriesOf id (e.watches.long.get p) = 0) {g : Clause → Clause}
    (attached : (g (e.clause id)).isAttached = true) :
    e.watches.Tracks (e.modifyClause id g).clause (id :: aside) := by
  have other_clause {other : ClauseId} (ne : id ≠ other) :
      (e.modifyClause id g).clause other = e.clause other := by
    rw [clause_modifyClause used, if_neg ne]
  have self_clause : (e.modifyClause id g).clause id = g (e.clause id) := by
    rw [clause_modifyClause used, if_pos rfl]
  have ne_of_mem {other : ClauseId} (member : other ∈ aside) : id ≠ other := fun same =>
    notAside (same ▸ member)
  constructor
  -- Only `id` changes, and as it is set aside no entries are asked for.
  case exact =>
    intro other otherAttached absent p
    simp only [List.mem_cons, not_or] at absent
    rw [other_clause (Ne.symm absent.1)] at otherAttached ⊢
    exact h.exact other otherAttached absent.2 p
  case usable =>
    intro other member
    rcases List.mem_cons.mp member with rfl | later
    · rw [self_clause]
      exact attached
    · rw [other_clause (ne_of_mem later)]
      exact h.usable other later
  case aside =>
    intro other member
    rcases List.mem_cons.mp member with rfl | later
    · exact unwatched
    · exact h.aside other later
  case stale =>
    intro other detached p some
    by_cases same : id = other
    · subst same
      have := unwatched p
      omega
    · rw [other_clause same] at detached
      exact h.stale other detached p some
  case listed => exact h.listed

section Thaw

variable {id : ClauseId} {g : Clause → Clause}

/-- A frozen clause without entries may be thawed and watched. -/
theorem tracks_thaw {n : Nat} (h : e.watches.Tracks e.clause aside)
    (used : (e.clause id).isRemoved = false) (frozen : (e.clause id).isFrozen = true)
    (unwatched : ∀ p, entriesOf id (e.watches.long.get p) = 0)
    (proper : (g (e.clause id)).Proper n) (removed : (g (e.clause id)).isRemoved = false)
    (thawed : (g (e.clause id)).isFrozen = false) :
    ((e.modifyClause id g).attach id).watches.Tracks ((e.modifyClause id g).attach id).clause aside := by
  have self_clause : (e.modifyClause id g).clause id = g (e.clause id) := by
    rw [clause_modifyClause used, if_pos rfl]
  have size := proper.size
  have notAside : id ∉ aside := fun member => by
    have := isFrozen_of_isAttached (h.usable id member)
    exact absurd (frozen.symm.trans this) nofun
  have distinct : ((e.modifyClause id g).clause id).lit 0 ≠
      ((e.modifyClause id g).clause id).lit 1 := fun same => by
    rw [self_clause] at same
    exact absurd (proper.lit_inj (by omega) (by omega) (congrArg Lit.var same)) nofun
  have mid := tracks_replaced h used notAside unwatched (isAttached_iff.mpr ⟨removed, thawed⟩)
  exact mid.watch notAside distinct

/-- The new entries are of the clause, and their blockers are literals of it. -/
theorem mem_attach {p : Lit} {w : Watcher} (size : 2 ≤ (e.clause id).lits.size)
    (member : w ∈ (e.attach id).watches.long.get p) :
    w ∈ e.watches.long.get p ∨ w.clause = id ∧ w.blocker ∈ (e.clause id).lits := by
  rcases Watches.mem_watch.mp member with old | ⟨_, rfl⟩ | ⟨_, rfl⟩
  · exact .inl old
  · exact .inr ⟨rfl, Clause.lit_mem (by omega)⟩
  · exact .inr ⟨rfl, Clause.lit_mem (by omega)⟩

theorem mem_attach_modifyClause {p : Lit} {w : Watcher} (used : (e.clause id).isRemoved = false)
    (size : 2 ≤ (g (e.clause id)).lits.size)
    (member : w ∈ ((e.modifyClause id g).attach id).watches.long.get p) :
    w ∈ e.watches.long.get p ∨ w.clause = id ∧ w.blocker ∈ (g (e.clause id)).lits := by
  have same : (e.modifyClause id g).clause id = g (e.clause id) := by
    rw [clause_modifyClause used, if_pos rfl]
  rw [← same] at size ⊢
  exact mem_attach size member

/-- A frozen clause without entries may be thawed and attached, as long as its literals stay the
same but for their order. -/
theorem Sound.thaw (h : e.Sound aside) (used : (e.clause id).isRemoved = false)
    (frozen : (e.clause id).isFrozen = true) (unwatched : ∀ p, entriesOf id (e.watches.long.get p) = 0)
    (continues : (e.clause id).Continues (g (e.clause id)))
    (thawed : (g (e.clause id)).isFrozen = false)
    (first : (g (e.clause id)).lit 0 = (e.clause id).lit 0 ∨
      e.trail.isTrue ((e.clause id).lit 0) = false) :
    ((e.modifyClause id g).attach id).Sound aside := by
  have clause := clause_modifyClause used g
  have self_clause : (e.modifyClause id g).clause id = g (e.clause id) := by
    rw [clause, if_pos rfl]
  have proper := (h.proper id used).of_perm continues.lits continues.relocated
  have two : 2 ≤ (g (e.clause id)).lits.size := Nat.le_of_succ_le proper.size
  refine h.rearranged rfl ?_ ?_ ?_
    (tracks_thaw h.tracked used frozen unwatched proper (continues.removed.trans used) thawed) ?_
    (h.blank.watch _ _ _)
  · intro p w listed
    simp only [modifyClause, ClauseArena.modify, Array.size_modify]
    rcases mem_attach_modifyClause used two listed with old | ⟨rfl, _⟩
    · exact h.inside p w old
    · exact slot_lt used
  · exact continues_modifyClause used continues
  · intro other _
    change ((e.modifyClause id g).clause other).lit 0 = _ ∨ _
    rw [clause]
    split
    next same => exact same ▸ first
    next => exact .inl rfl
  · intro p w listed isAttached
    change _ ∈ ((e.modifyClause id g).clause w.clause).lits ∨ _
    change ((e.modifyClause id g).clause w.clause).isAttached = true at isAttached
    rcases mem_attach_modifyClause used two listed with old | ⟨rfl, inside⟩
    · rw [clause, if_neg (clause_ne_of_entriesOf (unwatched p) old).symm] at isAttached ⊢
      exact h.blockers p w old isAttached
    · left
      rw [self_clause]
      exact inside

end Thaw

theorem FrozenApart.thaw (h : e.FrozenApart) {id : ClauseId}
    (used : (e.clause id).isRemoved = false) {g : Clause → Clause}
    (continues : (e.clause id).Continues (g (e.clause id)))
    (thawed : (g (e.clause id)).isFrozen = false) :
    ((e.modifyClause id g).attach id).FrozenApart := by
  have clause := clause_modifyClause used g
  refine h.rearranged (fun other => ?_) (fun other _ frozen p => ?_) rfl
  · exact continues_modifyClause used continues other
  · refine Watches.entriesOf_watch_other (fun same => ?_) _ _ _
    subst same
    change ((e.modifyClause id g).clause id).isFrozen = true at frozen
    rw [clause, if_pos rfl, thawed] at frozen
    cases frozen

end Engine

end Cdcl
