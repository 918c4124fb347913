import Cdcl.Proofs.Removal
import Cdcl.Search.Vivification

/-!
# Clauses set aside

Vivification takes an original clause out of propagation, may put fewer literals in its place, and
puts it back to work.

## Main results

- `Regular.detachNow`: a clause is set aside.
- `Regular.attachAside`: a clause set aside goes back to work.
-/

namespace Cdcl

/-! ### Dropping entries -/

theorem entriesOf_eraseP_self (id : ClauseId) (ws : Array Watcher) :
    entriesOf id (ws.eraseP fun w => w.clause == id) = entriesOf id ws - 1 := by
  obtain ⟨ws⟩ := ws
  simp only [List.eraseP_toArray]
  unfold entriesOf
  induction ws with
  | nil => rfl
  | cons w ws ih =>
    rw [List.eraseP_cons]
    cases here : w.clause == id with
    | true => simp [here]
    | false =>
      simp only [Bool.cond_false] at ih ⊢
      simpa [List.countP_cons, here] using ih

theorem entriesOf_eraseP_other {id other : ClauseId} (ne : id ≠ other) (ws : Array Watcher) :
    entriesOf other (ws.eraseP fun w => w.clause == id) = entriesOf other ws := by
  obtain ⟨ws⟩ := ws
  simp only [List.eraseP_toArray]
  unfold entriesOf
  induction ws with
  | nil => rfl
  | cons w ws ih =>
    rw [List.eraseP_cons]
    cases here : w.clause == id with
    | true =>
      have apart : (w.clause == other) = false := by
        rw [beq_eq_false_iff_ne, beq_iff_eq.mp here]
        exact ne
      simp [apart]
    | false =>
      simp only [Bool.cond_false] at ih ⊢
      simpa [List.countP_cons] using ih

namespace Watches

variable {w : Watches}

theorem mem_dropEntry {id : ClauseId} {key p : Lit} {x : Watcher}
    (member : x ∈ (w.dropEntry id key).long.get p) : x ∈ w.long.get p := by
  simp only [dropEntry, DenseMap.get_modify] at member
  split at member
  · exact Array.mem_of_mem_eraseP member
  · exact member

theorem entriesOf_dropEntry_self (w : Watches) (id : ClauseId) (key p : Lit) :
    entriesOf id ((w.dropEntry id key).long.get p) =
      entriesOf id (w.long.get p) - if key = p then 1 else 0 := by
  simp only [dropEntry, DenseMap.get_modify]
  split
  · exact entriesOf_eraseP_self id _
  · rfl

theorem entriesOf_dropEntry_other {id other : ClauseId} (ne : id ≠ other) (key p : Lit) :
    entriesOf other ((w.dropEntry id key).long.get p) = entriesOf other (w.long.get p) := by
  simp only [dropEntry, DenseMap.get_modify]
  split
  · exact entriesOf_eraseP_other ne _
  · rfl

theorem Blank.dropEntry (h : w.Blank) (id : ClauseId) (key : Lit) : (w.dropEntry id key).Blank :=
  { h with long := by simp [Watches.dropEntry, h.long] }

end Watches

namespace Engine

variable {F : List (List Lit)} {L : Ledger} {m : Nat} {e f : Engine} {aside : List ClauseId}
  {id : ClauseId} {originals learnts : List ClauseId} {pairs : List (Lit × Lit)}

/-- A clause set aside is listed in front. -/
theorem mem_setAside {x : ClauseId} {kept rest : List ClauseId} :
    x ∈ [] ++ (kept ++ id :: rest) ↔ x ∈ [id] ++ (kept ++ rest) :=
  List.perm_middle.mem_iff

/-! ### Setting a clause aside -/

theorem Sound.detachNow (h : e.Sound aside) (attached : (e.clause id).isAttached = true)
    (notAside : id ∉ aside) : (e.detachNow id).Sound (id :: aside) := by
  unfold Engine.detachNow
  dsimp only [modifyWatches, Watches.unwatchNow]
  refine
    { h with
      tracked := ?_
      inside := fun p w member => h.inside p w (Watches.mem_dropEntry (Watches.mem_dropEntry member))
      blockers := fun p w member => h.blockers p w (Watches.mem_dropEntry (Watches.mem_dropEntry member))
      blank := (h.blank.dropEntry _ _).dropEntry _ _ }
  have other {x : ClauseId} (ne : id ≠ x) (p : Lit) :
      entriesOf x (((e.watches.dropEntry id ((e.clause id).lit 0).neg).dropEntry id
        ((e.clause id).lit 1).neg).long.get p) = entriesOf x (e.watches.long.get p) :=
    (Watches.entriesOf_dropEntry_other ne _ p).trans (Watches.entriesOf_dropEntry_other ne _ p)
  constructor
  case exact =>
    intro x xAttached absent p
    simp only [List.mem_cons, not_or] at absent
    rw [other (Ne.symm absent.1)]
    exact h.tracked.exact x xAttached absent.2 p
  case usable =>
    intro x member
    rcases List.mem_cons.mp member with rfl | later
    · exact attached
    · exact h.tracked.usable x later
  case aside =>
    intro x member p
    by_cases same : id = x
    · subst same
      have before := h.tracked.exact id attached notAside p
      rw [Watches.entriesOf_dropEntry_self, Watches.entriesOf_dropEntry_self, before,
        Clause.watchCount]
      -- One entry is dropped from either of its two lists, which are those that had one.
      by_cases atFirst : p = ((e.clause id).lit 0).neg
      · rw [if_pos (.inl atFirst), if_pos atFirst.symm]
        omega
      · rw [if_neg (Ne.symm atFirst)]
        by_cases atSecond : p = ((e.clause id).lit 1).neg
        · rw [if_pos (.inr atSecond), if_pos atSecond.symm]
        · rw [if_neg (fun some => some.elim atFirst atSecond)]
          omega
    · rw [other same]
      exact h.tracked.aside x ((List.mem_cons.mp member).resolve_left (Ne.symm same)) p
  case stale =>
    intro x detached p some
    have ne : id ≠ x := by
      rintro rfl
      exact absurd attached (Bool.eq_false_iff.mp detached)
    rw [other ne] at some
    exact h.tracked.stale x detached p some
  case listed => exact h.tracked.listed

theorem Regular.detachNow {kept rest : List ClauseId}
    (h : e.Regular { originals := kept ++ id :: rest, learnts, pairs } m) :
    (e.detachNow id).Regular { originals := kept ++ rest, learnts, pairs, aside := [id] } m := by
  have member : id ∈ kept ++ id :: rest := by simp
  have attached := (h.guarded.clauses id member).1
  have distinct := List.nodup_middle.mp h.listed.originals_nodup
  have fewer {x : ClauseId} (inside : x ∈ kept ++ rest) : x ∈ kept ++ id :: rest :=
    List.perm_middle.mem_iff.mpr (List.mem_cons_of_mem _ inside)
  have sound := h.sound.detachNow attached nofun
  unfold Engine.detachNow at sound ⊢
  dsimp only [modifyWatches, Watches.unwatchNow] at sound ⊢
  refine { sound := ?sound, apart := ?apart, listed := ?listed, guarded := ?guarded, guards := ?guards, offers := ?offers }
  case sound => exact sound
  -- Frozen clauses are in no list, before as after: the entries dropped are those of `id`.
  case apart =>
    refine ⟨fun x used frozen p => ?_, h.apart.entries⟩
    have before := h.apart.unwatched x used frozen p
    have ne : id ≠ x := by
      rintro rfl
      have := isFrozen_of_isAttached attached
      exact absurd (frozen.symm.trans this) nofun
    refine Eq.trans ?_ before
    exact (Watches.entriesOf_dropEntry_other ne _ p).trans (Watches.entriesOf_dropEntry_other ne _ p)
  case listed =>
    exact
      { originals_nodup := distinct
        learnts_nodup := h.listed.learnts_nodup
        disjoint := fun x learnt inside => h.listed.disjoint x learnt (mem_setAside.mpr inside)
        learnt := h.listed.learnt
        symmetric := h.listed.symmetric }
  case guarded =>
    refine ⟨fun x inside => ⟨(h.guarded.clauses x (fewer inside)).1, ?_⟩, h.guarded.pairs⟩
    rw [List.mem_singleton]
    rintro rfl
    exact (List.nodup_cons.mp distinct).1 inside
  case guards =>
    exact ⟨fun x inside => h.guards.clauses x (fewer inside), h.guards.pairs⟩
  case offers => exact h.offers

theorem Faithful.detachNow {kept rest : List ClauseId}
    (h : e.Faithful F { originals := kept ++ id :: rest, learnts, pairs } m) :
    (e.detachNow id).Faithful F { originals := kept ++ rest, learnts, pairs, aside := [id] } m where
  toRegular := h.toRegular.detachNow
  toEquivalent := h.toEquivalent.keeps
    (.of_sub (fun _ fact => fact) (fun _ pair => pair) (fun _ inside => mem_setAside.mp inside)
      fun _ _ _ inside => inside)
    fun σ holds => { h.upheld σ holds with }

/-! ### Putting it back to work -/

theorem Sound.attachAside (h : e.Sound (id :: aside)) (notAside : id ∉ aside) :
    (e.attach id).Sound aside := by
  have attached := h.tracked.usable id List.mem_cons_self
  have used := isRemoved_of_isAttached attached
  have proper := h.proper id used
  have size := proper.size
  have inside {i : Nat} (low : i < 3) : (e.clause id).lit i ∈ (e.clause id).lits :=
    Clause.lit_mem (by omega)
  have distinct : (e.clause id).lit 0 ≠ (e.clause id).lit 1 := fun same =>
    absurd (proper.lit_inj (by omega) (by omega) (congrArg Lit.var same)) nofun
  unfold Engine.attach
  dsimp only [modifyWatches]
  exact
    { h with
      tracked := h.tracked.watch notAside distinct
      inside := by
        intro p w member
        rcases Watches.mem_watch.mp member with old | ⟨_, rfl⟩ | ⟨_, rfl⟩
        · exact h.inside p w old
        · exact slot_lt used
        · exact slot_lt used
      blockers := by
        intro p w member isAttached
        rcases Watches.mem_watch.mp member with old | ⟨_, rfl⟩ | ⟨_, rfl⟩
        · exact h.blockers p w old isAttached
        · exact .inl (inside (by omega))
        · exact .inl (inside (by omega))
      blank := h.blank.watch _ _ _ }

/-- A clause set aside goes back to work if its first two literals are not false. -/
theorem Regular.attachAside (kept rest : List ClauseId)
    (h : e.Regular { originals := kept ++ rest, learnts, pairs, aside := [id] } m)
    (free : ∀ w, e.Watched id w → e.trail.isFalse w = false) :
    (e.attach id).Regular { originals := kept ++ id :: rest, learnts, pairs } m := by
  have attached := h.sound.tracked.usable id List.mem_cons_self
  have split {x : ClauseId} (inside : x ∈ kept ++ id :: rest) : x = id ∨ x ∈ kept ++ rest :=
    List.mem_cons.mp (List.perm_middle.mem_iff.mp inside)
  have sound := h.sound.attachAside nofun
  unfold Engine.attach at sound ⊢
  dsimp only [modifyWatches] at sound ⊢
  refine { sound := ?sound, apart := ?apart, listed := ?listed, guarded := ?guarded, guards := ?guards, offers := ?offers }
  case sound => exact sound
  case apart =>
    refine ⟨fun x used frozen p => ?_, h.apart.entries⟩
    have ne : id ≠ x := by
      rintro rfl
      have := isFrozen_of_isAttached attached
      exact absurd (frozen.symm.trans this) nofun
    exact (Watches.entriesOf_watch_other ne _ _ p).trans (h.apart.unwatched x used frozen p)
  case listed =>
    exact
      { originals_nodup := List.nodup_middle.mpr h.listed.originals_nodup
        learnts_nodup := h.listed.learnts_nodup
        disjoint := fun x learnt inside => h.listed.disjoint x learnt (mem_setAside.mp inside)
        learnt := h.listed.learnt
        symmetric := h.listed.symmetric }
  case guarded =>
    refine ⟨fun x inside => ⟨?_, nofun⟩, h.guarded.pairs⟩
    rcases split inside with rfl | inside
    · exact attached
    · exact (h.guarded.clauses x inside).1
  -- The clause that comes back has no false literal to watch. The others have not changed.
  case guards =>
    refine ⟨fun x inside w watched before => ?_, h.guards.pairs⟩
    rcases split inside with rfl | inside
    · have fails := (h.sound.trail.isFalse_iff w).mpr before.mem
      rw [free w watched] at fails
      cases fails
    · exact h.guards.clauses x inside w watched before
  case offers => exact h.offers

theorem Faithful.attachAside (kept rest : List ClauseId)
    (h : e.Faithful F { originals := kept ++ rest, learnts, pairs, aside := [id] } m)
    (free : ∀ w, e.Watched id w → e.trail.isFalse w = false) :
    (e.attach id).Faithful F { originals := kept ++ id :: rest, learnts, pairs } m where
  toRegular := h.toRegular.attachAside kept rest free
  toEquivalent := h.toEquivalent.keeps
    (.of_sub (fun _ fact => fact) (fun _ pair => pair) (fun _ inside => mem_setAside.mpr inside)
      fun _ _ _ inside => inside)
    fun σ holds => { h.upheld σ holds with }

end Engine

end Cdcl
