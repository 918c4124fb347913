import Cdcl.Proofs.ReductionPolicy
import Cdcl.Proofs.UnitPropagation

/-!
# Clauses that a reduction overlooks

Frozen clauses do not propagate, so that at level zero a single literal of one may be open. When a
reduction puts that clause back to work, the literal is assigned, and another frozen clause may
become false: one that is still to be put back to work, or one that stays frozen. Its watches are
chosen when no literal is left to choose. If the literals they fall on became false before the
reduction, propagation does not come by any more.

## Main results

- `Rested.thaws`: a clause that is put back to work has an open literal, unless another one that was
  put back to work before has made it false.
- `Rested.overlooks`: what a clause looks like that is false once propagation is over.
-/

namespace Cdcl

namespace Engine

variable {F : List (List Lit)} {aside : List ClauseId} {e f g : Engine} {id : ClauseId} {p : Lit}
  {m n : Nat}

/-- All literals of the clause are false. -/
def AllFalse (e : Engine) (id : ClauseId) : Prop := ∀ l ∈ (e.clause id).lits, e.trail.isFalse l = true

theorem AllFalse.extends (h : e.AllFalse id) (grown : e.Extends f) (before : e.trail.Assigns m)
    (after : f.trail.Assigns n) : f.AllFalse id :=
  fun l inside => grown.isFalse_of_assigns before after (h l (((grown.clauses id).mem l).mp inside))

/-! ### Propagation comes by -/

/-- The clause is frozen, and not on the list of any literal before position `m`. -/
structure Ahead (id : ClauseId) (m : Nat) (e : Engine) : Prop where
  used : (e.clause id).isRemoved = false
  frozen : (e.clause id).isFrozen = true
  unlisted : ∀ p, e.trail.Before m p → entriesOf id (e.watches.frozen.get p) = 0

/-- Without a conflict, the visits for a literal thaw no clause and empty the list of frozen ones; the
lists of literals on the trail stay as they are. -/
theorem frozen_propagateLit (h : e.Sound aside) (apart : e.FrozenApart) (latest : e.trail.Latest p)
    (result : e.propagateLit p = (f, none)) :
    e.FrozenKept { f with watches := { f.watches with frozen := e.watches.frozen } } ∧
      f.watches.frozen.get p = #[] ∧
      ∀ q ∈ e.trail.lits, q ≠ p → f.watches.frozen.get q = e.watches.frozen.get q := by
  unfold propagateLit at result
  rcases binary : visitBinary p.neg (e.watches.binary.get p).toList e with ⟨g, _ | c⟩
  case some =>
    rw [binary] at result
    cases result
  rw [binary] at result
  dsimp only at result
  obtain ⟨sound_g, apart_g, grown_g, -⟩ :=
    visitBinary_sound h apart latest (fun q inside => Array.mem_toList_iff.mp inside) binary
  have kept_g := (sameBooks_visitBinary binary).frozenKept
  have latest_g := grown_g.latest h.trail sound_g.trail latest
  rcases watched : g.propagateWatched p with ⟨k, _ | c⟩
  case some =>
    rw [watched] at result
    cases result
  rw [watched] at result
  dsimp only at result
  obtain ⟨sound_k, apart_k, grown_k, -⟩ := propagateWatched_sound sound_g apart_g latest_g watched
  have kept := kept_g.trans (frozenKept_propagateWatched watched)
  have visited := propagateFrozen_cases apart_k p
  rw [result] at visited
  cases visited with
  | moved lists _ _ emptied others =>
    refine ⟨⟨rfl, kept.slots, kept.clauses⟩, emptied, fun q onTrail ne => ?_⟩
    rw [← kept.lists]
    exact others q ((sound_k.trail.isTrue_iff q).mpr (grown_k.mem (grown_g.mem onTrail))) ne

theorem Ahead.propagateLit (ahead : e.Ahead id n) (h : e.Sound aside) (apart : e.FrozenApart)
    (at_n : e.trail.lits[n]? = some p) (latest : e.trail.Latest p)
    (result : e.propagateLit p = (f, none)) : f.Ahead id (n + 1) := by
  obtain ⟨sound, -, grown, -⟩ := propagateLit_sound h apart latest result
  obtain ⟨kept, emptied, others⟩ := frozen_propagateLit h apart latest result
  have inside := (Array.getElem?_eq_some_iff.mp at_n).1
  have used := (grown.clauses id).removed.trans ahead.used
  refine ⟨used, ?_, fun q before => ?_⟩
  · rcases kept.clauses id used with ⟨-, same, -⟩ | ⟨outside, -⟩
    · exact same.trans ahead.frozen
    · exact absurd (slot_lt ahead.used) (by omega)
  · rcases (Trail.before_succ ((grown.lits n inside).trans at_n)).mp before with rfl | before
    · rw [emptied]
      rfl
    · rw [grown.before (Nat.le_of_lt inside)] at before
      have ne : q ≠ p := by
        rintro rfl
        obtain ⟨j, below, at_j⟩ := before
        have := h.trail.distinct at_j at_n rfl
        omega
      rw [others q before.mem ne]
      exact ahead.unlisted q before

/-- What propagation has not come by is still ahead when it is over, and no conflict was met. -/
theorem Ahead.propagateFrom (ahead : e.Ahead id e.trail.head) (h : e.Sound aside)
    (apart : e.FrozenApart) (result : propagateFrom n e = (f, none)) : f.Ahead id f.trail.head := by
  have run := propagates result
  clear result
  generalize quiet : (none : Option Conflict) = conflict at run
  induction run with
  | spent | idle => exact ahead
  | next at_head run _ ih =>
    obtain ⟨sound_a, apart_a, -, latest⟩ := dequeue_sound h apart at_head
    obtain ⟨sound_g, apart_g, -⟩ := propagateLit_sound sound_a apart_a latest run
    have ahead_a : Ahead id _ (dequeue _) := ⟨ahead.used, ahead.frozen, ahead.unlisted⟩
    have ahead_g := ahead_a.propagateLit sound_a apart_a at_head latest run
    have head := head_propagateLit run
    exact ih (head.symm ▸ ahead_g) sound_g apart_g quiet
  | clash => cases quiet

/-- Attached clauses are come by unless one of their watches became false before the head. -/
theorem not_allFalse_of_calm (h : e.Sound []) (apart : e.FrozenApart) (zero : e.trail.level = 0)
    (attached : (e.clause id).isAttached = true) (calm : e.Calm e.trail.head id)
    (result : e.propagate = (f, none)) : ¬ f.AllFalse id := by
  intro fails
  obtain ⟨sound, -, grown, ends, -⟩ := propagate_sound h apart result
  have guarded : e.Guarded [] [id] [] :=
    ⟨fun x member => List.mem_singleton.mp member ▸ ⟨attached, List.not_mem_nil⟩, nofun⟩
  have guards : e.Guards [id] [] e.trail.head := by
    refine ⟨fun x member w watched before => ?_, nofun⟩
    cases List.mem_singleton.mp member
    obtain ⟨l, inside, holds⟩ := isSatisfied_iff.mp (calm w watched before)
    have level := h.trail.levelOf_le ((h.trail.isTrue_iff l).mp holds)
    exact ⟨l, inside, holds, by omega⟩
  have guards_f := (propagate_guards h apart guarded guards result).2 rfl
  have attached_f := (grown.clauses id).attached attached
  have size := (sound.proper id (isRemoved_of_isAttached attached_f)).size
  have first : (f.clause id).lit 0 ∈ (f.clause id).lits := Clause.lit_mem (by omega)
  have visited := (sound.trail.isFalse_iff _).mp (fails _ first)
  rw [Trail.mem_iff_before, ← ends rfl] at visited
  obtain ⟨l, inside, holds, -⟩ := guards_f.clauses id (List.mem_singleton.mpr rfl) _ (.inl rfl) visited
  exact absurd (Trail.isTrue_of_isFalse (fails l inside)) (by rw [holds]; nofun)

/-- And so are frozen clauses. -/
theorem not_allFalse_of_ahead (h : e.Sound []) (apart : e.FrozenApart) (watched : e.FrozenWatched)
    (ahead : e.Ahead id e.trail.head) (result : e.propagate = (f, none)) : ¬ f.AllFalse id := by
  intro fails
  obtain ⟨sound, -, -, ends, -⟩ := propagate_sound h apart result
  have watched_f := watched.propagateFrom h apart result
  have ahead_f := ahead.propagateFrom h apart result
  obtain ⟨l, inside, listed⟩ := watched_f.exact.once id ahead_f.used ahead_f.frozen
  have visited := (sound.trail.isFalse_iff l).mp (fails l inside)
  rw [Trail.mem_iff_before, ← ends rfl] at visited
  have none := ahead_f.unlisted _ visited
  rw [listed, if_pos rfl] at none
  cases none

/-! ### Putting clauses back to work -/

/-- Either all literals are false, or one that is not comes first, and another one second if there
is one. -/
theorem bringNonFalse_open {t : Trail} {lits lits' : Array Lit} {n : Nat}
    (result : bringNonFalse t lits = (lits', n)) :
    (∀ l ∈ lits, t.isFalse l = true) ∨ t.isFalse (lits'.getD 0 .missing) = false ∧
      (n = 1 ∨ t.isFalse (lits'.getD 1 .missing) = false) := by
  unfold bringNonFalse at result
  split at result
  next none =>
    refine .inl fun l inside => ?_
    obtain ⟨i, bound, rfl⟩ := Array.mem_iff_getElem.mp inside
    have fails := Trail.findNonFalse_eq_none none (Nat.zero_le i) (by omega)
    rwa [Array.getD_eq_getD_getElem?, Array.getElem?_eq_getElem bound] at fails
  next i found =>
    obtain ⟨-, high, open_⟩ := Trail.findNonFalse_eq_some found
    have inside : i < lits.size := by omega
    have swapped (k : Nat) : (lits.swapIfInBounds 0 i).getD k .missing =
        if k = 0 then lits.getD i .missing else if k = i then lits.getD 0 .missing
        else lits.getD k .missing :=
      Clause.lit_swap (c := { lits }) (by change 0 < lits.size; omega) inside k
    have first : (lits.swapIfInBounds 0 i).getD 0 .missing = lits.getD i .missing := by
      rw [swapped, if_pos rfl]
    dsimp only at result
    split at result
    next =>
      cases result
      exact .inr ⟨first.symm ▸ open_, .inl rfl⟩
    next j found' =>
      obtain ⟨low, high', open'⟩ := Trail.findNonFalse_eq_some found'
      cases result
      have inside' : j < (lits.swapIfInBounds 0 i).size := by omega
      have swapped' (k : Nat) : ((lits.swapIfInBounds 0 i).swapIfInBounds 1 j).getD k .missing =
          if k = 1 then (lits.swapIfInBounds 0 i).getD j .missing
          else if k = j then (lits.swapIfInBounds 0 i).getD 1 .missing
          else (lits.swapIfInBounds 0 i).getD k .missing :=
        Clause.lit_swap (c := { lits := lits.swapIfInBounds 0 i })
          (by change 1 < (lits.swapIfInBounds 0 i).size; omega) inside' k
      refine .inr ⟨?_, .inr ?_⟩
      · rw [swapped', if_neg (by omega), if_neg (by omega), first]
        exact open_
      · rw [swapped', if_pos rfl]
        exact open'

variable {L : Ledger} {ids : List ClauseId}

/-- A clause that is put back to work is satisfied or has two open watches, unless it is false. -/
theorem Thawable.heeds_next (h : Thawable L m (id :: ids) e) :
    (e.thawClause id).Calm e.trail.lits.size id ∨ (e.thawClause id).AllFalse id := by
  obtain ⟨loose, -, grown, -, -⟩ := h.next
  have used := (h.loose.listed.learnt id (h.among id List.mem_cons_self)).1
  have before := h.loose.sound.trail.assigns
  have after := loose.sound.trail.assigns
  rcases front : bringNonFalse e.trail (e.clause id).lits with ⟨lits, n⟩
  obtain ⟨arena, trail⟩ := fields_thawClause front
  have reads : ((e.thawClause id).clause id).lits = lits := by
    rw [clause, arena]
    change ((e.modifyClause id _).clause id).lits = _
    rw [clause_modifyClause used, if_pos rfl]
    rfl
  have lit (i : Nat) : ((e.thawClause id).clause id).lit i = lits.getD i .missing := by
    rw [Clause.lit, reads]
  have size := (loose.sound.proper id ((grown.clauses id).removed.trans used)).size
  rcases bringNonFalse_open front with fails | ⟨first, single | second⟩
  · exact .inr fun l inside =>
      grown.isFalse_of_assigns before after (fails l (((grown.clauses id).mem l).mp inside))
  · -- The first literal is true, or it is assigned.
    refine .inl (calm_of_satisfied (isSatisfied_iff.mpr ⟨_, Clause.lit_mem (i := 0) (by omega), ?_⟩))
    rw [lit, trail]
    split
    next => exact (Trail.isTrue_assign ..).mpr (.inl rfl)
    next assigned =>
      rw [single, beq_self_eq_true, Bool.true_and] at assigned
      by_contra notTrue
      have := Trail.value_eq_undecided (Bool.eq_false_iff.mpr notTrue) first
      exact assigned ((Trail.isUnassigned_iff _ _).mpr this)
  · refine .inl fun w watched falsified => ?_
    have open_ : e.trail.isFalse w = false := by
      rcases watched with rfl | rfl
      · rw [lit]
        exact first
      · rw [lit]
        exact second
    rw [grown.before (Nat.le_refl _)] at falsified
    rw [(before.isFalse_iff w).mpr falsified.mem] at open_
    cases open_

theorem Thawable.heeds (h : Thawable L m ids e) (member : id ∈ ids) :
    (ids.foldl thawClause e).Calm e.trail.lits.size id ∨ (ids.foldl thawClause e).AllFalse id := by
  obtain ⟨before, after, rfl⟩ := List.append_of_mem member
  obtain ⟨ready, grown, -⟩ := h.foldl
  rw [List.foldl_append, List.foldl_cons]
  generalize before.foldl thawClause e = k at *
  have fresh := (List.nodup_cons.mp ready.distinct).1
  obtain ⟨loose, -, grown', -, -⟩ := ready.next
  have later := ready.step
  rw [← List.append_nil after] at later
  obtain ⟨last, grown'', -, unmoved⟩ := later.foldl
  refine ready.heeds_next.imp (fun calm => ?_)
    fun fails => fails.extends grown'' loose.sound.trail.assigns last.loose.sound.trail.assigns
  refine (calm.extends grown'' loose.sound.trail.assigns last.loose.sound.trail.assigns grown'.size_le
    fun w watched => ?_).mono grown.size_le
  rwa [Watched, unmoved id fresh] at watched

/-! ### Reductions at level zero -/

/-- At level zero all literals are propagated, and nothing was overlooked. -/
structure Rested (F : List (List Lit)) (e : Engine) : Prop where
  orderly : e.Orderly
  settled : e.Settled F
  zero : e.trail.level = 0
  head : e.trail.head = e.trail.lits.size
  propagated : e.Propagated [] e.trail.lits.size

/-- Propagation brings an engine to rest again after a fact was added, if it meets no conflict. -/
theorem Rested.addFact (h : e.Rested F) {c : List Lit} {l : Lit}
    (normalized : Solver.Normalized e.trail c [l]) (bound : ∀ l ∈ c, l.var.index < e.numVars)
    (ok : (e.addFact l).ok = true) : (e.addFact l).Rested (F ++ [c]) := by
  obtain ⟨pairs, faithful⟩ := h.settled.faithful
  have assigned := faithful.toRegular.assignUnit h.zero normalized bound rfl
  have ordered : (e.assign l .decision).Orderly := h.orderly.aside (.others e) assigned.sound assigned.apart
  obtain ⟨settled, -, zero⟩ := (h.settled.addUnit h.zero normalized bound rfl).resolve_left
    fun refuted => absurd (ok.symm.trans refuted.notOk) nofun
  have orderly : (e.addFact l).Orderly := h.orderly.addFact assigned.sound assigned.apart
  have visited : (e.assign l .decision).Propagated [] (e.assign l .decision).trail.head := by
    have decided := h.propagated.decide h.orderly.sound.trail.assigns (Nat.le_refl _)
      (normalized.undecided l List.mem_cons_self)
    rw [← h.head] at decided
    exact ⟨decided.binary, decided.clauses, decided.frozen⟩
  unfold Engine.addFact at ok settled zero orderly ⊢
  rcases run : (e.assign l .decision).propagate with ⟨f, _ | c⟩
  · rw [run] at ok settled zero orderly
    obtain ⟨-, -, head, propagated⟩ := ordered.matched.rests visited run
    exact ⟨orderly, settled, zero, head, head ▸ propagated⟩
  · rw [run] at ok
    cases ok

/-- A reduction of the engine `e` puts the clause back to work when `f` is the engine. -/
def ThawsAt (e f : Engine) (id : ClauseId) : Prop :=
  ∃ before after, e.judged.thawing.toList = before ++ id :: after ∧ f = before.foldl thawClause e.sifted

/-- What becomes of a clause that a reduction and the propagation after it overlook. -/
structure Overlooked (e : Engine) (id : ClauseId) : Prop where
  used : (e.clause id).isRemoved = false
  /-- It was frozen. -/
  frozen : (e.clause id).isFrozen = true
  /-- The reduction made the last of its literals false. -/
  falsified : ∃ l ∈ (e.clause id).lits, l.neg ∈ e.reduce.trail.lits ∧ l.neg ∉ e.trail.lits
  allFalse : e.reduce.AllFalse id
  /-- A literal that it is watched on was false before. -/
  watched : ∃ w, e.reduce.Watched id w ∧ w.neg ∈ e.trail.lits

/-- A frozen clause is watched on a false literal only if it has no other. -/
theorem allFalse_of_frozenKey (fails : e.trail.isFalse (e.frozenKey id) = true) :
    e.AllFalse id ∧ e.frozenKey id = (e.clause id).lit 0 := by
  unfold frozenKey at fails ⊢
  cases found : e.trail.findNonFalse (e.clause id).lits 0 (e.clause id).size with
  | some k =>
    obtain ⟨-, -, open_⟩ := Trail.findNonFalse_eq_some found
    rw [found] at fails
    exact absurd (fails.symm.trans open_) nofun
  | none =>
    refine ⟨fun l inside => ?_, rfl⟩
    obtain ⟨i, bound, rfl⟩ := Array.mem_iff_getElem.mp inside
    rw [← Clause.lit_eq_getElem bound]
    exact Trail.findNonFalse_eq_none found (Nat.zero_le i) (by simpa [Clause.size] using bound)

namespace Rested

variable (h : e.Rested F)

include h

/-- Each frozen clause has an open literal. -/
theorem open_of_frozen (used : (e.clause id).isRemoved = false) (frozen : (e.clause id).isFrozen = true) :
    ∃ l ∈ (e.clause id).lits, l.neg ∉ e.trail.lits := by
  have not_refuted := (h.propagated.not_refuted h.orderly.matched).2 id used frozen
  simpa only [Array.mem_toList_iff, not_forall, exists_prop] using not_refuted

theorem distinct : e.learnts.toList.Nodup := h.orderly.shelved.booked.filed.learnts_nodup

theorem used (x : ClauseId) (member : x ∈ e.learnts.toList) : (e.clause x).isRemoved = false :=
  ((h.orderly.shelved.booked.filed.learnt x).mp member).1

/-- Clauses wait to be put back to work that are frozen, and have not been touched so far. -/
theorem sifted : ∃ L : Ledger, Thawable L e.trail.head e.judged.thawing.toList e.sifted ∧
    (∀ x ∈ e.judged.thawing.toList, e.sifted.clause x = e.clause x ∧
      (e.clause x).isRemoved = false ∧ (e.clause x).isFrozen = true) ∧
    e.sifted.trail.lits = e.trail.lits ∧ e.sifted.trail.head = e.trail.head := by
  obtain ⟨pairs, relisted⟩ := h.settled.survived h.zero
  refine ⟨_, relisted.thawable h.zero, fun x member => ?_, relisted.same.lits, relisted.same.head⟩
  obtain ⟨listed, frozen, same⟩ := mem_thawing_judged h.distinct h.used member
  exact ⟨same, h.used x (List.mem_of_mem_take (e.perm_ranked.subset listed)), frozen⟩

/-- A clause that is put back to work has an open literal, unless the last one became false when
others were put back to work. -/
theorem thaws (thaws : e.ThawsAt f id) : (∃ l ∈ (f.clause id).lits, f.trail.isFalse l = false) ∨
    ∃ l ∈ (f.clause id).lits, l.neg ∈ f.trail.lits ∧ l.neg ∉ e.trail.lits := by
  obtain ⟨before, after, split, rfl⟩ := thaws
  obtain ⟨L, ready, same, -⟩ := h.sifted
  rw [split] at ready same
  obtain ⟨reads, used, frozen⟩ := same id (List.mem_append_right _ List.mem_cons_self)
  obtain ⟨next, -, -, unmoved⟩ := ready.foldl
  have fresh : id ∉ before := fun early =>
    (List.nodup_append.mp ready.distinct).2.2 id early id List.mem_cons_self rfl
  obtain ⟨l, inside, open_⟩ := h.open_of_frozen used frozen
  rw [unmoved id fresh, reads]
  by_cases assigned : l.neg ∈ (before.foldl thawClause e.sifted).trail.lits
  · exact .inr ⟨l, inside, assigned, open_⟩
  · refine .inl ⟨l, inside, Bool.eq_false_iff.mpr fun fails => assigned ?_⟩
    exact (next.loose.sound.trail.isFalse_iff l).mp fails

theorem orderly_reduce : e.reduce.Orderly := (Chore.reduce h.settled h.zero).orderly h.orderly

theorem zero_reduce : e.reduce.trail.level = 0 := (h.settled.reduce h.zero).2.2.1

/-- The literals that a reduction assigns wait to be propagated. A clause that it puts back to work is
satisfied or has two open watches, unless it is false. -/
theorem reduced : e.reduce.trail.head = e.trail.lits.size ∧
    (∀ l, e.reduce.trail.Before e.trail.lits.size l ↔ l ∈ e.trail.lits) ∧
    ∀ x ∈ e.judged.thawing.toList, e.reduce.Calm e.trail.lits.size x ∨ e.reduce.AllFalse x := by
  obtain ⟨L, ready, -, lits, head⟩ := h.sifted
  obtain ⟨-, grown, head'⟩ := ready.thawed
  have heeds {x : ClauseId} (member : x ∈ e.judged.thawing.toList) := ready.heeds member
  have clause := e.clause_reduce
  have trail := e.trail_reduce
  rw [awakened_eq] at clause trail
  generalize e.judged.thawing.toList.foldl thawClause e.sifted = t at *
  refine ⟨?_, fun l => ?_, fun x member => ?_⟩
  · rw [trail, head', head, h.head]
  · rw [trail, ← lits, grown.before (Nat.le_refl _), ← Trail.mem_iff_before]
  · have heeded := heeds member
    rw [lits] at heeded
    simpa only [Calm, AllFalse, Watched, isSatisfied, clause, trail] using heeded

/-- Literals change places at most. -/
theorem mem_lits_reduce (l : Lit) : l ∈ (e.reduce.clause id).lits ↔ l ∈ (e.clause id).lits := by
  obtain ⟨thawed, unmoved⟩ := clause_reduce_judged h.distinct h.used id
  by_cases member : id ∈ e.judged.thawing.toList
  · obtain ⟨lits, perm, restored⟩ := thawed member
    rw [restored]
    exact Array.mem_toList_iff.symm.trans (perm.mem_iff.trans Array.mem_toList_iff)
  · rw [unmoved member, (clause_judged h.distinct h.used id).1]

/-- A literal of a clause that the reduction made false was open before. -/
theorem falsified (used : (e.clause id).isRemoved = false) (frozen : (e.clause id).isFrozen = true)
    (fails : e.reduce.AllFalse id) :
    ∃ l ∈ (e.clause id).lits, l.neg ∈ e.reduce.trail.lits ∧ l.neg ∉ e.trail.lits := by
  obtain ⟨l, inside, open_⟩ := h.open_of_frozen used frozen
  have false_l := fails l ((h.mem_lits_reduce l).mpr inside)
  exact ⟨l, inside, (h.orderly_reduce.sound.trail.isFalse_iff l).mp false_l, open_⟩

/-- A clause whose watches stay in place is satisfied if one of them was false before. -/
theorem calm_reduce (attached : (e.clause id).isAttached = true)
    (same : (e.reduce.clause id).lits = (e.clause id).lits) : e.reduce.Calm e.trail.lits.size id := by
  obtain ⟨-, before_iff, -⟩ := h.reduced
  have sound := h.orderly_reduce.sound
  generalize e.reduce = r at *
  intro w watched falsified
  have old : e.Watched id w := by
    unfold Watched Clause.lit at watched ⊢
    rwa [same] at watched
  have before := Trail.mem_iff_before.mp ((before_iff w.neg).mp falsified)
  obtain ⟨l, inside, holds⟩ := isSatisfied_iff.mp
    (h.propagated.clauses id ⟨attached, List.not_mem_nil⟩ w old before)
  have assigned := ((before_iff l).mpr ((h.orderly.sound.trail.isTrue_iff l).mp holds)).mem
  exact isSatisfied_iff.mpr ⟨l, same ▸ inside, (sound.trail.isTrue_iff l).mpr assigned⟩

/-- A clause at work is overlooked only if it was put back to work when it was false. -/
theorem overlooked_of_attached (attached : (e.reduce.clause id).isAttached = true)
    (missed : ¬ e.reduce.Calm e.trail.lits.size id) : e.Overlooked id := by
  obtain ⟨-, before_iff, heeds⟩ := h.reduced
  by_cases member : id ∈ e.judged.thawing.toList
  case neg =>
    have unmoved := (clause_reduce_judged h.distinct h.used id).2 member
    rw [unmoved] at attached
    have same := (clause_judged h.distinct h.used id).2.2 attached
    exact absurd (h.calm_reduce (same ▸ attached) (by rw [unmoved, same])) missed
  have fails := (heeds id member).resolve_left missed
  obtain ⟨L, -, same, -⟩ := h.sifted
  obtain ⟨-, used, frozen⟩ := same id member
  unfold Calm at missed
  simp only [not_forall] at missed
  obtain ⟨w, watched, before, -⟩ := missed
  exact ⟨used, frozen, h.falsified used frozen fails, fails, w, watched, (before_iff _).mp before⟩

/-- After a reduction a frozen clause is on the list of a single literal. -/
theorem entriesOf_reduce (p : Lit) : entriesOf id (e.reduce.watches.frozen.get p) =
    if id ∈ e.reduce.learnts.toList ∧ (e.reduce.clause id).isFrozen = true ∧
      p = (e.reduce.frozenKey id).neg then 1 else 0 := by
  have distinct := h.orderly_reduce.shelved.booked.filed.learnts_nodup
  have blank := h.orderly_reduce.sound.blank.frozen
  have clause := e.clause_reduce id
  have trail := e.trail_reduce
  have result := e.reduce_eq
  generalize e.awakened = t at *
  obtain ⟨frozen, same, fallback⟩ := t.rewatchFrozen_eq
  have learnts : e.reduce.learnts = t.learnts := by rw [result, same]
  have watches : e.reduce.watches = t.rewatchFrozen.watches := by rw [result]
  have blank' : t.watches.frozen.fallback = #[] := by
    rw [watches, same] at blank
    exact fallback.symm.trans blank
  rw [learnts] at distinct
  rw [watches, entriesOf_rewatchFrozen blank' distinct, learnts, frozenKey, frozenKey, clause, trail]

/-- A frozen clause is overlooked only if it was frozen before, and is false. -/
theorem overlooked_of_frozen (used : (e.reduce.clause id).isRemoved = false)
    (frozen : (e.reduce.clause id).isFrozen = true) (before : e.reduce.trail.Before e.trail.lits.size p)
    (listed : entriesOf id (e.reduce.watches.frozen.get p) ≠ 0) : e.Overlooked id := by
  obtain ⟨-, before_iff, -⟩ := h.reduced
  have sound := h.orderly_reduce.sound
  have key : p = (e.reduce.frozenKey id).neg := by
    by_contra other
    exact listed ((h.entriesOf_reduce p).trans (if_neg fun all => other all.2.2))
  have false_key : e.reduce.trail.isFalse (e.reduce.frozenKey id) = true :=
    (sound.trail.isFalse_iff _).mpr (key ▸ before.mem)
  obtain ⟨fails, first⟩ := allFalse_of_frozenKey false_key
  rw [key, first] at before
  have unmoved : e.reduce.clause id = e.judged.engine.clause id := by
    obtain ⟨thawed, unmoved⟩ := clause_reduce_judged h.distinct h.used id
    refine unmoved fun member => ?_
    obtain ⟨lits, -, restored⟩ := thawed member
    rw [restored, Clause.isFrozen_thawed] at frozen
    cases frozen
  obtain ⟨same, live, -⟩ := clause_judged h.distinct h.used id
  rw [← unmoved] at same live
  cases working : (e.clause id).isFrozen with
  | true =>
    exact ⟨live used, working, h.falsified (live used) working fails, fails, _, .inl rfl,
      (before_iff _).mp before⟩
  | false =>
    -- The clause was at work, and would be satisfied by now.
    have calm := h.calm_reduce (isAttached_iff.mpr ⟨live used, working⟩) same
    obtain ⟨l, inside, holds⟩ := isSatisfied_iff.mp (calm _ (.inl rfl) before)
    exact absurd (Trail.isTrue_of_isFalse (fails l inside)) (by rw [holds]; nofun)

/-- Once propagation is over, a clause that is false all the same was overlooked. -/
theorem overlooks (result : e.reduce.propagate = (f, none)) (used : (f.clause id).isRemoved = false)
    (fails : f.AllFalse id) : e.Overlooked id := by
  obtain ⟨head, -, -⟩ := h.reduced
  have orderly := h.orderly_reduce
  obtain ⟨-, -, grown, -⟩ := propagate_sound orderly.sound orderly.apart result
  have used' := (grown.clauses id).removed.symm.trans used
  cases frozen : (e.reduce.clause id).isFrozen with
  | false =>
    refine h.overlooked_of_attached (isAttached_iff.mpr ⟨used', frozen⟩) fun calm => ?_
    rw [← head] at calm
    exact not_allFalse_of_calm orderly.sound orderly.apart h.zero_reduce
      (isAttached_iff.mpr ⟨used', frozen⟩) calm result fails
  | true =>
    by_contra seen
    refine not_allFalse_of_ahead orderly.sound orderly.apart orderly.watched
      ⟨used', frozen, fun p before => ?_⟩ result fails
    by_contra listed
    exact seen (h.overlooked_of_frozen used' frozen (head ▸ before) listed)

/-- A clause of two literals is not overlooked. -/
theorem pairs_reduce (result : e.reduce.propagate = (f, none)) :
    ∀ p ∈ f.trail.lits, ∀ q ∈ f.watches.binary.get p, f.trail.isTrue q = true := by
  intro p assigned q stored
  obtain ⟨head, before_iff, -⟩ := h.reduced
  have orderly := h.orderly_reduce
  have zero := h.zero_reduce
  have binary := e.binary_reduce
  generalize e.reduce = r at *
  obtain ⟨-, -, grown, ends, -⟩ := propagate_sound orderly.sound orderly.apart result
  rw [grown.binary] at stored
  have guarded : r.Guarded [] [] [(p.neg, q)] := by
    refine ⟨nofun, fun a b member => ?_⟩
    obtain ⟨rfl, rfl⟩ := Prod.mk.inj (List.mem_singleton.mp member)
    rwa [Lit.neg_neg]
  have guards : r.Guards [] [(p.neg, q)] r.trail.head := by
    refine ⟨nofun, fun a b member before => ?_⟩
    obtain ⟨rfl, rfl⟩ := Prod.mk.inj (List.mem_singleton.mp member)
    rw [Lit.neg_neg, head, before_iff] at before
    have holds := h.propagated.binary p (Trail.mem_iff_before.mp before) b (binary ▸ stored)
    have onTrail := ((before_iff b).mpr ((h.orderly.sound.trail.isTrue_iff b).mp holds)).mem
    have level := orderly.sound.trail.levelOf_le onTrail
    exact ⟨b, Array.mem_singleton.mpr rfl, (orderly.sound.trail.isTrue_iff b).mpr onTrail, by omega⟩
  have guards_f := (propagate_guards orderly.sound orderly.apart guarded guards result).2 rfl
  rw [Trail.mem_iff_before, ← ends rfl] at assigned
  obtain ⟨l, inside, holds, -⟩ :=
    guards_f.pairs _ _ (List.mem_singleton.mpr rfl) (by rwa [Lit.neg_neg])
  exact Array.mem_singleton.mp inside ▸ holds

end Rested

/-- A reduction at rest puts no clause back to work that is false, unless others that it put back to
work before have made it so, and the propagation after it meets a conflict or leaves no clause that is
false, unless the reduction has made it so and did not watch it on a literal that waits. -/
theorem reduce_overlooks (h : e.Rested F) :
    (∀ f id, e.ThawsAt f id → (∃ l ∈ (f.clause id).lits, f.trail.isFalse l = false) ∨
      ∃ l ∈ (f.clause id).lits, l.neg ∈ f.trail.lits ∧ l.neg ∉ e.trail.lits) ∧
    ∀ f, e.reduce.propagate = (f, none) →
      (∀ id, (f.clause id).isRemoved = false → f.AllFalse id → e.Overlooked id) ∧
      ∀ p ∈ f.trail.lits, ∀ q ∈ f.watches.binary.get p, f.trail.isTrue q = true :=
  ⟨fun _ _ thaws => h.thaws thaws, fun _ result =>
    ⟨fun _ used fails => h.overlooks result used fails, h.pairs_reduce result⟩⟩

/-- Can these facts be added one after the other, and does the engine pass a test then? -/
def factsPass (test : Engine → Bool) : List Lit → Engine → Bool
  | [], e => test e
  | l :: ls, e => l.var.index < e.numVars && (e.trail.value l.var == .undecided &&
      ((e.addFact l).ok && factsPass test ls (e.addFact l)))

theorem Rested.exists_of_factsPass {test : Engine → Bool} {ls : List Lit} (h : e.Rested F)
    (passes : factsPass test ls e = true) : ∃ G f, Rested G f ∧ test f = true := by
  induction ls generalizing F e with
  | nil => exact ⟨F, e, h, passes⟩
  | cons l ls ih =>
    simp only [factsPass, Bool.and_eq_true, decide_eq_true_eq, beq_iff_eq] at passes
    obtain ⟨bound, open_, ok, rest⟩ := passes
    have normalized : Solver.Normalized e.trail [l] [l] :=
      ⟨fun _ member => member, List.nodup_singleton _, List.forall_mem_singleton.mpr open_,
        fun _ member => .inl member⟩
    exact ih (h.addFact normalized (List.forall_mem_singleton.mpr bound) ok) rest

/-- Clauses from which three short solves learn seven, four of which are frozen then. -/
def drowsyClauses : List (List Lit) :=
  Solver.clausesOf [[-5, 11, -3], [-20, 3, -11], [-4, -5, -11], [-14, 12, 10], [12, 16, 2],
    [20, 14, -11], [-16, 14, 11], [17, 2, 4], [-16, -9, -1], [-12, 3], [-10, 4], [20, 5],
    [-20, -17, -16], [5, -2], [2, 5, -3], [3, 9]]

/-- With three facts, a single literal of each of two frozen clauses is open. A reduction puts the first
one back to work, which makes the second one false. -/
theorem exists_drowsy : ∃ F e, Rested F e ∧
    e.trail.lits = #[.ofDimacs 4, .ofDimacs (-2), .ofDimacs (-10)] ∧ e.judged.thawing = #[⟨14⟩] ∧
    e.reduce.propagate.2 = none ∧ (e.reduce.propagate.1.clause ⟨13⟩).isRemoved = false ∧
    (e.reduce.propagate.1.clause ⟨13⟩).lits.all e.reduce.propagate.1.trail.isFalse = true := by
  have passes : Solver.sessionPasses
      { reduceFirst := 1, reduceIncrement := 1, restarts := .everyConflict, phaseSaving := 2 } 40
      (Solver.giving 20 drowsyClauses ++
        [.obey (.limitConflicts 2), .solve [], .obey (.limitConflicts 1), .solve [.ofDimacs 1],
          .obey (.limitConflicts 2), .solve []])
      drowsyClauses
      (fun s => s.engine.ok && (s.engine.trail.lits.size == 0 && (s.engine.trail.marks.size == 0 &&
        s.engine.factsPass (fun e =>
          e.trail.lits == #[.ofDimacs 4, .ofDimacs (-2), .ofDimacs (-10)] &&
            (e.judged.thawing == #[⟨14⟩] && (e.reduce.propagate.2 == none &&
              (!(e.reduce.propagate.1.clause ⟨13⟩).isRemoved &&
                (e.reduce.propagate.1.clause ⟨13⟩).lits.all e.reduce.propagate.1.trail.isFalse))))
          [.ofDimacs 4, .ofDimacs (-2), .ofDimacs (-10)]))) = true := by
    decide +kernel
  obtain ⟨s, history, tests⟩ := Solver.exists_of_sessionPasses passes
  simp only [Bool.and_eq_true, beq_iff_eq] at tests
  obtain ⟨ok, empty, marks, facts⟩ := tests
  have reached : Solver.Reached drowsyClauses s := .rest history
  have orderly : s.engine.Orderly := (Solver.Pause.reached reached).orderly
  have head : s.engine.trail.head = 0 := Nat.le_zero.mp (empty ▸ orderly.sound.trail.head_le)
  have rested : s.engine.Rested drowsyClauses :=
    ⟨orderly, reached.settled ok, marks, head.trans empty.symm, empty ▸ propagated_zero _ _⟩
  obtain ⟨F, e, rested', tests⟩ := rested.exists_of_factsPass facts
  simp only [Bool.and_eq_true, Bool.not_eq_true', beq_iff_eq] at tests
  exact ⟨F, e, rested', tests⟩

/-- The clause that is put back to work has an open literal, and another one is overlooked. -/
theorem reduce_overlooks_drowsy : ∃ (F : List (List Lit)) (e f g : Engine), e.Rested F ∧
    e.ThawsAt g ⟨14⟩ ∧ (∃ l ∈ (g.clause ⟨14⟩).lits, g.trail.isFalse l = false) ∧
    e.reduce.propagate = (f, none) ∧ (f.clause ⟨13⟩).isRemoved = false ∧ f.AllFalse ⟨13⟩ ∧
    e.Overlooked ⟨13⟩ := by
  obtain ⟨F, e, rested, -, thawing, none, used, fails⟩ := exists_drowsy
  have thaws : e.ThawsAt e.sifted ⟨14⟩ := ⟨[], [], by rw [thawing]; rfl, rfl⟩
  rcases run : e.reduce.propagate with ⟨f, conflict⟩
  rw [run] at none used fails
  cases none
  have allFalse : f.AllFalse ⟨13⟩ := fun l inside => Array.all_eq_true'.mp fails l inside
  have overlooks := reduce_overlooks rested
  refine ⟨F, e, f, e.sifted, rested, thaws, ?_, run, used, allFalse,
    (overlooks.2 f run).1 ⟨13⟩ used allFalse⟩
  -- Nothing was put back to work before.
  refine (overlooks.1 e.sifted ⟨14⟩ thaws).resolve_right ?_
  rintro ⟨l, -, assigned, before⟩
  obtain ⟨-, -, -, lits, -⟩ := rested.sifted
  exact before (lits ▸ assigned)

end Engine

end Cdcl
