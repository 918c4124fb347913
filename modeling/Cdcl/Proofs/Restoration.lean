import Cdcl.Proofs.ImplicationGraph

/-!
# What is above a level is undone exactly

Whatever is put on top of a trail, by new levels, by literals assigned for any reason, by propagation and
by going back part of the way, it stays on top: it only gives values to variables without one. So going
back to the level of the trail restores it, wherever the search may have gone in between.

## Main results

- `pushes_propagateFrom`: propagation only ever assigns variables without a value.
- `Atop.restores`: going back below what is on top restores the trail.
- `restored_of_ventures`: going back after any sequence of operations restores the trail, and a probe of
  a clause leaves it as it was.
-/

namespace Cdcl

namespace Trail

variable {t u w : Trail} {more : List Lit} {deeper : List Nat} {k : Nat}

/-- Literals of variables without a value were assigned, and propagated in part. -/
inductive Pushes (t : Trail) : Trail → Prop where
  | refl : Pushes t t
  | assign {u : Trail} {l : Lit} {why : Reason} (before : Pushes t u)
    (unassigned : u.value l.var = .undecided) : Pushes t (u.assign l why)
  | turn {u : Trail} (before : Pushes t u) (head : Nat) : Pushes t { u with head }

theorem Pushes.trans (h : t.Pushes u) (k : u.Pushes w) : t.Pushes w := by
  induction k with
  | refl => exact h
  | assign _ unassigned ih => exact ih.assign unassigned
  | turn _ head ih => exact ih.turn head

/-- The trail `u` is `t` with the literals `more`, of variables without a value in `t`, and with a level
that starts where `t` ends, and others that start at `deeper` places. -/
structure Atop (t u : Trail) (more : List Lit) (deeper : List Nat) : Prop where
  lits : u.lits.toList = t.lits.toList ++ more
  marks : u.marks.toList = t.marks.toList ++ t.lits.size :: deeper
  later : ∀ start ∈ deeper, t.lits.size ≤ start
  fresh : ∀ l ∈ more, t.value l.var = .undecided
  value : ∀ v, v ∉ more.map Lit.var → u.value v = t.value v
  reason : ∀ v, t.value v ≠ .undecided → u.reason v = t.reason v
  levelOf : ∀ v, t.value v ≠ .undecided → u.levelOf v = t.levelOf v

/-- The trail is the same again, but for reasons and levels of variables without a value. -/
structure Restored (t u : Trail) : Prop where
  lits : u.lits = t.lits
  marks : u.marks = t.marks
  head : u.head = t.head
  value : ∀ v, u.value v = t.value v
  reason : ∀ v, t.value v ≠ .undecided → u.reason v = t.reason v
  levelOf : ∀ v, t.value v ≠ .undecided → u.levelOf v = t.levelOf v

theorem Restored.refl (t : Trail) : t.Restored t := ⟨rfl, rfl, rfl, fun _ => rfl, fun _ _ => rfl, fun _ _ => rfl⟩

/-- The first level on top starts where the trail ends. -/
theorem atop_openLevel (t : Trail) : t.Atop t.openLevel [] [] where
  lits := by simp [Trail.openLevel]
  marks := by simp [Trail.openLevel]
  later := fun _ member => nomatch member
  fresh := fun _ member => nomatch member
  value := fun _ _ => rfl
  reason := fun _ _ => rfl
  levelOf := fun _ _ => rfl

namespace Atop

theorem size (h : t.Atop u more deeper) : u.lits.size = t.lits.size + more.length := by
  rw [← Array.length_toList, h.lits, List.length_append, Array.length_toList]

theorem level (h : t.Atop u more deeper) : u.level = t.level + (deeper.length + 1) := by
  unfold Trail.level
  rw [← Array.length_toList, h.marks, List.length_append, Array.length_toList, List.length_cons]

theorem openLevel (h : t.Atop u more deeper) :
    t.Atop u.openLevel more (deeper ++ [u.lits.size]) :=
  { h with
    marks := by simp [Trail.openLevel, h.marks]
    later := by
      intro start member
      rcases List.mem_append.mp member with old | new
      · exact h.later start old
      · rw [List.mem_singleton.mp new, h.size]
        exact Nat.le_add_right _ _ }

/-- A variable without a value on top has none below. -/
theorem undecided (h : t.Atop u more deeper) {v : Var} (unassigned : u.value v = .undecided) :
    t.value v = .undecided := by
  by_cases pushed : v ∈ more.map Lit.var
  · obtain ⟨l, member, rfl⟩ := List.mem_map.mp pushed
    exact h.fresh l member
  · exact (h.value v pushed).symm.trans unassigned

theorem assign (h : t.Atop u more deeper) {l : Lit} {why : Reason}
    (unassigned : u.value l.var = .undecided) : t.Atop (u.assign l why) (more ++ [l]) deeper where
  lits := by simp [Trail.assign, h.lits]
  marks := h.marks
  later := h.later
  fresh := by
    intro m member
    rcases List.mem_append.mp member with old | new
    · exact h.fresh m old
    · rw [List.mem_singleton.mp new]
      exact h.undecided unassigned
  value := by
    intro v apart
    rw [List.map_append, List.mem_append, not_or] at apart
    have differ : ¬ l.var = v := fun same => apart.2 (same ▸ List.mem_singleton_self _)
    rw [value_assign, if_neg differ]
    exact h.value v apart.1
  reason := by
    intro v assigned
    have differ : ¬ l.var = v := fun same => assigned (same ▸ h.undecided unassigned)
    rw [reason_assign, if_neg differ]
    exact h.reason v assigned
  levelOf := by
    intro v assigned
    have differ : ¬ l.var = v := fun same => assigned (same ▸ h.undecided unassigned)
    rw [levelOf_assign, if_neg differ]
    exact h.levelOf v assigned

theorem pushes (h : t.Atop u more deeper) (pushes : u.Pushes w) : ∃ more, t.Atop w more deeper := by
  induction pushes with
  | refl => exact ⟨more, h⟩
  | assign _ unassigned ih =>
    obtain ⟨more, atop⟩ := ih
    exact ⟨_, atop.assign unassigned⟩
  | turn _ head ih =>
    obtain ⟨more, atop⟩ := ih
    exact ⟨more, { atop with }⟩

/-- A level above `t` starts at one of the places known. -/
theorem startAbove (h : t.Atop u more deeper) (above : t.level ≤ k) : t.lits.size ≤ u.startAbove k := by
  have le : t.lits.size ≤ u.lits.size := h.size ▸ Nat.le_add_right _ _
  unfold Trail.startAbove
  rw [Array.getD_eq_getD_getElem?, ← Array.getElem?_toList, h.marks,
    List.getElem?_append_right (by simpa [Trail.level] using above)]
  rcases at_k : (t.lits.size :: deeper)[k - t.marks.toList.length]? with _ | start
  · exact le
  · rcases List.mem_cons.mp (List.mem_of_getElem? at_k) with rfl | member
    · exact Nat.le_refl _
    · exact h.later start member

/-- The literals above a level are among those on top. -/
theorem mem_above (h : t.Atop u more deeper) (above : t.level ≤ k) {v : Var} :
    v ∈ (u.above k).map (·.1.var) ↔ v ∈ (more.drop (u.startAbove k - t.lits.size)).map Lit.var := by
  have literals : (u.above k).map Prod.fst = (more.drop (u.startAbove k - t.lits.size)).reverse := by
    have le := h.startAbove above
    unfold Trail.above
    rw [List.map_reverse, List.zipIdx_map_fst, h.lits, List.drop_append,
      List.drop_eq_nil_of_le (by simpa using le), List.nil_append, Array.length_toList]
  have vars : (u.above k).map (·.1.var) = ((u.above k).map Prod.fst).map Lit.var := by
    rw [List.map_map]
    rfl
  rw [vars, literals, List.map_reverse, List.mem_reverse]

/-- Going back to a level above `t` leaves some of what is on top. -/
theorem cancelTo (h : t.Atop u more deeper) (above : t.level < k) :
    t.Atop (u.cancelTo k) (more.take (u.startAbove k - t.lits.size))
      (deeper.take (k - (t.level + 1))) where
  lits := by
    have le := h.startAbove above.le
    simp only [Trail.cancelTo, Array.toList_extract, List.extract_eq_take_drop, Nat.sub_zero,
      List.drop_zero]
    rw [h.lits, List.take_append, List.take_of_length_le (by simpa using le), Array.length_toList]
  marks := by
    obtain ⟨j, rfl⟩ : ∃ j, k = t.marks.size + (j + 1) := Nat.exists_eq_add_of_lt above
    simp only [Trail.cancelTo, Array.toList_extract, List.extract_eq_take_drop, Nat.sub_zero,
      List.drop_zero]
    rw [h.marks, List.take_append, List.take_of_length_le (by simp), Array.length_toList,
      Nat.add_sub_cancel_left, List.take_succ_cons, Trail.level]
    congr 3
    omega
  later := fun start member => h.later start (List.mem_of_mem_take member)
  fresh := fun l member => h.fresh l (List.mem_of_mem_take member)
  value := by
    intro v apart
    rw [value_cancelTo]
    split
    next undone =>
      -- It is undone, so it was without a value before anything was put on top.
      obtain ⟨l, member, rfl⟩ := List.mem_map.mp ((h.mem_above above.le).mp undone)
      exact (h.fresh l (List.mem_of_mem_drop member)).symm
    next kept =>
      refine h.value v fun pushed => ?_
      rw [← List.take_append_drop (u.startAbove k - t.lits.size) more, List.map_append,
        List.mem_append] at pushed
      exact pushed.elim apart fun undone => kept ((h.mem_above above.le).mpr undone)
  reason := h.reason
  levelOf := h.levelOf

/-- Going back below what is on top restores the trail, if nothing was left to propagate. -/
theorem restores (h : t.Atop u more deeper) (propagated : t.head = t.lits.size) :
    t.Restored (u.cancelTo t.level) := by
  have start : u.startAbove t.level = t.lits.size := by
    unfold Trail.startAbove Trail.level
    rw [Array.getD_eq_getD_getElem?, ← Array.getElem?_toList, h.marks,
      List.getElem?_append_right (by simp)]
    simp
  have literals : (u.cancelTo t.level).lits = t.lits := by
    rw [← Array.toList_inj]
    simp only [Trail.cancelTo, Array.toList_extract, List.extract_eq_take_drop, Nat.sub_zero,
      List.drop_zero]
    rw [start, h.lits, ← Array.length_toList, List.take_left]
  have levels : (u.cancelTo t.level).marks = t.marks := by
    rw [← Array.toList_inj]
    simp only [Trail.cancelTo, Array.toList_extract, List.extract_eq_take_drop, Nat.sub_zero,
      List.drop_zero]
    rw [h.marks, Trail.level, ← Array.length_toList, List.take_left]
  refine ⟨literals, levels, start.trans propagated.symm, fun v => ?_, h.reason, h.levelOf⟩
  rw [value_cancelTo]
  split
  next undone =>
    obtain ⟨l, member, rfl⟩ := List.mem_map.mp ((h.mem_above (Nat.le_refl _)).mp undone)
    exact (h.fresh l (List.mem_of_mem_drop member)).symm
  next kept =>
    refine h.value v fun pushed => kept ((h.mem_above (Nat.le_refl _)).mpr ?_)
    rwa [start, Nat.sub_self, List.drop_zero]

end Atop

end Trail

namespace Engine

variable {e f g : Engine} {conflict : Option Conflict}

/-! ### Propagation -/

theorem VisitEffect.pushes (effect : VisitEffect e f) : e.trail.Pushes f.trail := by
  cases effect with
  | assign why unassigned => exact Trail.Pushes.refl.assign unassigned
  | orient | swap | watch => exact .refl
  | refresh id =>
    rw [(rescored_refreshLbd e id).trail]
    exact .refl
  | thaw id =>
    rw [trail_thawFalsified]
    exact .refl

/-- Propagation assigns literals of variables without a value, and moves on in the queue. -/
theorem pushes_propagateFrom {n : Nat} (result : propagateFrom n e = (f, conflict)) :
    e.trail.Pushes f.trail := by
  have effects := propagateFrom_effects result
  clear result
  induction effects with
  | refl => exact .refl
  | tail _ effect ih =>
    refine ih.trans ?_
    cases effect with
    | visit effect => exact effect.pushes
    | queue => exact Trail.Pushes.refl.turn _

/-! ### Any sequence of operations above a level -/

/-- What can come of the engine `e` above its level: a level is opened, and then literals are assigned for
any reason, or propagated, more levels are opened, and some of them are left again. -/
inductive Ventures (e : Engine) : Engine → Prop where
  | start : Ventures e e.openLevel
  | openLevel {f : Engine} (before : Ventures e f) : Ventures e f.openLevel
  | enqueue {f : Engine} {l : Lit} {why : Reason} (before : Ventures e f)
    (unassigned : f.trail.value l.var = .undecided) : Ventures e (f.assign l why)
  | propagate {f g : Engine} {n : Nat} {conflict : Option Conflict} (before : Ventures e f)
    (result : propagateFrom n f = (g, conflict)) : Ventures e g
  | back {f : Engine} {k : Nat} (before : Ventures e f) (above : e.trail.level < k) :
    Ventures e (f.cancelTo k)

theorem Ventures.atop (h : e.Ventures f) : ∃ more deeper, e.trail.Atop f.trail more deeper := by
  induction h with
  | start => exact ⟨[], [], e.trail.atop_openLevel⟩
  | openLevel _ ih =>
    obtain ⟨more, deeper, atop⟩ := ih
    exact ⟨more, _, atop.openLevel⟩
  | enqueue _ unassigned ih =>
    obtain ⟨more, deeper, atop⟩ := ih
    exact ⟨_, deeper, atop.assign unassigned⟩
  | propagate _ result ih =>
    obtain ⟨more, deeper, atop⟩ := ih
    obtain ⟨more', atop'⟩ := atop.pushes (pushes_propagateFrom result)
    exact ⟨more', deeper, atop'⟩
  | @back f k _ above ih =>
    obtain ⟨more, deeper, atop⟩ := ih
    by_cases below : k < f.trail.level
    · rw [trail_cancelTo below]
      exact ⟨_, _, atop.cancelTo above⟩
    · rw [cancelTo_of_le (Nat.le_of_not_lt below)]
      exact ⟨more, deeper, atop⟩

/-- Going back to the level undoes it all. -/
theorem Ventures.restores (h : e.Ventures f) (propagated : e.trail.head = e.trail.lits.size) :
    e.trail.Restored (f.cancelTo e.trail.level).trail := by
  obtain ⟨more, deeper, atop⟩ := h.atop
  rw [trail_cancelTo (by rw [atop.level]; omega)]
  exact atop.restores propagated

/-! ### Probes -/

/-- A probe opens levels, unless all literals of the clause have values. -/
theorem ventures_probe {rest : List Lit} {kept kept' : Array Lit} (begun : f = e ∨ e.Ventures f)
    (result : probe rest kept f = (kept', g)) : g = e ∨ e.Ventures g := by
  induction rest generalizing kept f with
  | nil =>
    cases result
    exact begun
  | cons l rest ih =>
    unfold probe at result
    split at result
    next =>
      cases result
      exact begun
    next => exact ih begun result
    next undecided =>
      have unassigned : f.trail.value l.neg.var = .undecided := by
        rw [Lit.var_neg]
        exact (Trail.valueLit_eq_undecided_iff _ _).mp undecided
      have opened : e.Ventures f.openLevel := by
        rcases begun with rfl | ventures
        · exact .start
        · exact ventures.openLevel
      have decided : e.Ventures (f.decide l.neg) := opened.enqueue unassigned
      rcases run : (f.decide l.neg).propagate with ⟨h, _ | c⟩ <;> rw [run] at result
      · exact ih (.inr (decided.propagate run)) result
      · cases result
        exact .inr (decided.propagate run)

/-- A probe leaves the facts as it found them. -/
theorem restored_probeClause (zero : e.trail.level = 0) (propagated : e.trail.head = e.trail.lits.size)
    (id : ClauseId) : e.trail.Restored (e.probeClause id).2.trail := by
  unfold probeClause
  dsimp only
  rcases run : probe (e.clause id).lits.toList #[] (e.detachNow id) with ⟨kept, f⟩
  have same : (e.detachNow id).trail = e.trail := rfl
  rcases ventures_probe (.inl rfl) run with rfl | ventures
  · rw [cancelTo_of_le (by rw [same, zero]), same]
    exact .refl _
  · have restored := ventures.restores (same ▸ propagated)
    rwa [same, zero] at restored

end Engine

namespace Solver

open Engine

variable {F : List (List Lit)} {e f : Engine}

/-- Going back to the level of a moment when nothing is left to propagate restores the trail, whatever was
done above that level. In a vivification, each probe of a clause leaves the trail as it was. -/
theorem restored_of_ventures :
    (∀ e f : Engine, e.trail.head = e.trail.lits.size → e.Ventures f →
      e.trail.Restored (f.cancelTo e.trail.level).trail) ∧
    ∀ (e : Engine) (minSize : Nat) (id : ClauseId) (before after : List ClauseId), Vivifies F e →
      e.originals.toList = before ++ id :: after →
      (before.foldl (vivifyClause minSize) { engine := e }).engine.ok = true →
      let g := (before.foldl (vivifyClause minSize) { engine := e }).engine
      g.trail.level = 0 ∧ g.trail.Restored (g.probeClause id).2.trail := by
  refine ⟨fun e f propagated ventures => ventures.restores propagated, ?_⟩
  intro e minSize id before after vivifies list ok
  rcases vivifies.quiet.vivifyClauses minSize list with refuted | upkept
  · exact absurd (ok.symm.trans refuted.notOk) nofun
  · exact ⟨upkept.zero, restored_probeClause upkept.zero upkept.propagated id⟩

/-- From level one up to level three, with a reason that is none, and half the way back. The clause of
three literals is probed in a vivification. -/
theorem restored_of_ventures_twice : ∃ b e f id,
    Vivifies (clausesOf [[1], [-2, 3], [2, 3, 4], [-4, 5]]) b ∧
      e = (b.decide (.ofDimacs 2)).propagate.1 ∧ e.trail.level = 1 ∧ e.trail.lits.size = 3 ∧
      e.Ventures f ∧ f.trail.level = 2 ∧ f.trail.lits.size = 5 ∧
      e.trail.Restored (f.cancelTo e.trail.level).trail ∧
      b.originals.toList = [id] ∧ b.trail.Restored (b.probeClause id).2.trail := by
  have passes : sessionPasses {} 9
      (giving 6 (clausesOf [[1], [-2, 3], [2, 3, 4], [-4, 5]]))
      (clausesOf [[1], [-2, 3], [2, 3, 4], [-4, 5]])
      (fun s => s.engine.ok && s.simplifyPasses fun t =>
        let e := (t.engine.decide (.ofDimacs 2)).propagate.1
        let g := (e.openLevel.assign (.ofDimacs 4) (.binary (.ofDimacs 6))).propagate.1.openLevel
        let f := (g.assign (.ofDimacs 6) .decision).cancelTo 2
        t.engine.originals.size == 1 && (t.engine.ok && (e.trail.level == 1 &&
          (e.trail.lits.size == 3 && (e.trail.head == 3 && (e.trail.value ⟨3⟩ == .undecided &&
            (g.trail.value ⟨5⟩ == .undecided && (f.trail.level == 2 && f.trail.lits.size == 5)))))))) =
      true := by
    decide +kernel
  obtain ⟨s, history, tests⟩ := exists_of_sessionPasses passes
  obtain ⟨ok, tests⟩ := Bool.and_eq_true_iff.mp tests
  obtain ⟨t, simplified, tests⟩ := exists_of_simplifyPasses tests
  have vivifies : Vivifies _ t.engine := .command history ok simplified
  generalize made : (t.engine.decide (.ofDimacs 2)).propagate.1 = e at tests
  dsimp only at tests
  generalize opened :
    (e.openLevel.assign (.ofDimacs 4) (.binary (.ofDimacs 6))).propagate.1.openLevel = g at tests
  simp only [Bool.and_eq_true, beq_iff_eq] at tests
  obtain ⟨one, ok', level, size, head, unassigned, unassigned', level', size'⟩ := tests
  obtain ⟨id, list⟩ := List.length_eq_one_iff.mp one
  have ventures : e.Ventures g := by
    have first : e.Ventures (e.openLevel.assign (.ofDimacs 4) (.binary (.ofDimacs 6))) :=
      Ventures.start.enqueue unassigned
    rw [← opened]
    exact (first.propagate rfl).openLevel
  have decided : e.Ventures (g.assign (.ofDimacs 6) .decision) := ventures.enqueue unassigned'
  have back : e.Ventures ((g.assign (.ofDimacs 6) .decision).cancelTo 2) :=
    decided.back (by rw [level]; decide)
  obtain ⟨restored, probed⟩ :=
    restored_of_ventures (F := clausesOf [[1], [-2, 3], [2, 3, 4], [-4, 5]])
  exact ⟨t.engine, e, _, id, vivifies, made.symm, level, size, back, level', size',
    restored _ _ (head.trans size.symm) back, list, (probed _ 0 id [] [] vivifies list ok').2⟩

end Solver

end Cdcl
