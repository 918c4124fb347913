import Cdcl.Proofs.Redundancy

/-!
# Watches of learnt clauses

In the course of a search, learnt clauses that are not frozen are watched like original ones: a watch
that was visited while false belongs to a clause made true no later. The clauses that have a literal
false at level zero are left out, as they may have been thawed by a conflict that led back there.

The one watch that is not checked by a visit is that of a clause just thawed. If its second literal
stays false, then its first one was the only one of the last level, and is what the search learns.

## Main results

- `attends_propagateFrom`: propagation thaws a clause only as its conflict.
- `resolvent_single`: what is learnt from a clause with one literal of the last level.
- `gained_addLearnt`: what is stored of a clause learnt.
- `Alert.handleConflict`, `Searched.alert`: all clauses at work are watched.
-/

namespace Cdcl

namespace Trail

/-- Bringing a literal of the highest level to a position leaves those before it alone. -/
theorem bringHighest_spec (t : Trail) {c : Clause} {i : Nat} (inside : i < c.lits.size) :
    let d := c.setLits (t.bringHighest i c.lits)
    (∀ j, j < i → d.lit j = c.lit j) ∧
      ∀ j, i ≤ j → j < c.lits.size → t.levelOf (d.lit j).var ≤ t.levelOf (d.lit i).var := by
  obtain ⟨place, least, all⟩ := t.highestFrom_spec c.lits i (i + 1) (c.lits.size - (i + 1))
  have start : c.setLits (t.bringHighest i c.lits) =
      c.swap i (t.highestFrom c.lits i (i + 1) (c.lits.size - (i + 1))) := rfl
  dsimp only at place least all ⊢
  rw [start]
  generalize t.highestFrom c.lits i (i + 1) (c.lits.size - (i + 1)) = k at place least all
  have high : k < c.lits.size := by omega
  have swapped (j : Nat) := Clause.lit_swap inside high j
  refine ⟨fun j low => ?_, fun j low bound => ?_⟩
  · rw [swapped, if_neg (by omega), if_neg (by omega)]
  · rw [swapped i, if_pos rfl, swapped]
    split
    · exact Nat.le_refl _
    · split
      · exact least
      · exact all j (by omega) (by omega)

/-- The first two literals are of the highest levels. -/
structure Topped (t : Trail) (c : Clause) : Prop where
  le : t.levelOf (c.lit 1).var ≤ t.levelOf (c.lit 0).var
  highest : ∀ l ∈ c.lits, l ≠ c.lit 0 → t.levelOf l.var ≤ t.levelOf (c.lit 1).var

theorem Topped.of_lits {t : Trail} {c d : Clause} (h : t.Topped c) (same : d.lits = c.lits) :
    t.Topped d := by
  have lit (i : Nat) : d.lit i = c.lit i := by rw [Clause.lit, Clause.lit, same]
  constructor
  · rw [lit, lit]
    exact h.le
  · rw [same, lit, lit]
    exact h.highest

end Trail

namespace Engine

variable {aside : List ClauseId} {e f g : Engine} {p : Lit} {id : ClauseId} {conflict : Option Conflict}

/-! ### Clauses that propagation thaws -/

theorem topped_thawedByConflict {t : Trail} {c : Clause} (size : 2 ≤ c.lits.size) :
    t.Topped (thawedByConflict t c) := by
  obtain ⟨-, first⟩ := t.bringHighest_spec (c := c) (i := 0) (by omega)
  -- The literal of the highest level is brought to the front, and then the highest of the others behind it.
  generalize once : c.setLits (t.bringHighest 0 c.lits) = d at first
  have sizes : d.lits.size = c.lits.size := by
    rw [← once]
    exact Array.size_swapIfInBounds
  obtain ⟨same, second⟩ := t.bringHighest_spec (c := d) (i := 1) (by omega)
  have lits : (thawedByConflict t c).lits = (d.setLits (t.bringHighest 1 d.lits)).lits := by
    rw [← once]
    rfl
  have lit (i : Nat) : (thawedByConflict t c).lit i = (d.setLits (t.bringHighest 1 d.lits)).lit i := by
    rw [Clause.lit, Clause.lit, lits]
  have sizes' : (thawedByConflict t c).lits.size = c.lits.size := by
    rw [lits, ← sizes]
    exact Array.size_swapIfInBounds
  have perm : (thawedByConflict t c).lits.toList.Perm d.lits.toList := by
    rw [lits]
    exact bringHighest_perm ..
  have head := same 0 (by omega)
  constructor
  · rw [lit, lit, head]
    have inside : (d.setLits (t.bringHighest 1 d.lits)).lit 1 ∈ d.lits := by
      rw [← lit, ← Array.mem_toList_iff, ← perm.mem_iff, Array.mem_toList_iff]
      exact Clause.lit_mem (by omega)
    obtain ⟨i, bound, at_i⟩ := Array.mem_iff_getElem.mp inside
    rw [← at_i, ← Clause.lit_eq_getElem bound]
    exact first i (Nat.zero_le _) (by omega)
  · intro l inside other
    obtain ⟨i, bound, rfl⟩ := Array.mem_iff_getElem.mp inside
    rw [← Clause.lit_eq_getElem bound] at other ⊢
    have positive : 1 ≤ i := Nat.pos_of_ne_zero fun zero => other (by rw [zero])
    rw [lit, lit]
    exact second i positive (by omega)

/-- The clause is at work in `f` as it was in `e`, or it is the conflict, and was thawed by it. -/
def Attends (e f : Engine) (conflict : Option Conflict) (id : ClauseId) : Prop :=
  (e.clause id).isAttached = true ∨ conflict = some (.clause id) ∧ f.trail.Topped (f.clause id)

theorem attends_propagateFrozen (h : e.Sound aside) (apart : e.FrozenApart)
    (result : e.propagateFrozen p = (f, conflict)) (attached : (f.clause id).isAttached = true) :
    e.Attends f conflict id := by
  have visited := propagateFrozen_cases apart p
  rw [result] at visited
  cases visited with
  | moved => exact .inl attached
  | @falsified lists _ _ other used =>
    by_cases same : other = id
    · subst same
      refine .inr ⟨rfl, ?_⟩
      have rescored := rescored_thawFalsified (e.withFrozen lists) other
      have lits : (((e.withFrozen lists).thawFalsified other).clause other).lits =
          (thawedByConflict e.trail (e.clause other)).lits := by
        rw [(rescored.alike other).lits]
        change (((e.withFrozen lists).modifyClause other _).clause other).lits = _
        rw [clause_modifyClause (e := e.withFrozen lists) used, if_pos rfl]
        rfl
      have topped := topped_thawedByConflict (t := e.trail) (Nat.le_of_succ_le (h.proper other used).size)
      rw [trail_thawFalsified]
      exact topped.of_lits lits
    · rw [clause_thawFalsified (e := e.withFrozen lists) used same] at attached
      exact .inl attached

/-- The visits for a literal put no clause back to work but a conflict. -/
theorem attends_propagateLit (h : e.Sound aside) (apart : e.FrozenApart) (latest : e.trail.Latest p)
    (result : e.propagateLit p = (f, conflict)) (attached : (f.clause id).isAttached = true) :
    e.Attends f conflict id := by
  have stored : ∀ q ∈ (e.watches.binary.get p).toList, q ∈ e.watches.binary.get p := fun q member =>
    Array.mem_toList_iff.mp member
  have visited {g k : Engine} {answer : Option Conflict}
      (first : visitBinary p.neg (e.watches.binary.get p).toList e = (g, none))
      (second : g.propagateWatched p = (k, answer)) :
      k.Sound aside ∧ k.FrozenApart ∧
        ((k.clause id).isAttached = true → (e.clause id).isAttached = true) := by
    obtain ⟨sound_g, apart_g, extends_g, -⟩ := visitBinary_sound h apart latest stored first
    have latest_g := extends_g.latest h.trail sound_g.trail latest
    obtain ⟨sound_k, apart_k, extends_k, -⟩ := propagateWatched_sound sound_g apart_g latest_g second
    refine ⟨sound_k, apart_k, fun attached => ?_⟩
    obtain ⟨used, thawed⟩ := isAttached_iff.mp attached
    have same : g.clause id = e.clause id := by rw [clause, clause, arena_visitBinary first]
    have removed := (extends_k.clauses id).removed
    rcases (frozenKept_propagateWatched second).clauses id used with ⟨before, frozen, -⟩ | ⟨new, -⟩
    · rw [← same]
      exact isAttached_iff.mpr ⟨before, frozen ▸ thawed⟩
    · exact absurd (slot_lt (removed ▸ used)) (by omega)
  cases propagateLit_cases result with
  | binary first =>
    rw [clause, arena_visitBinary first] at attached
    exact .inl attached
  | watched first second =>
    obtain ⟨-, -, before⟩ := visited first second
    exact .inl (before attached)
  | frozen first second third =>
    obtain ⟨sound_k, apart_k, before⟩ := visited first second
    exact (attends_propagateFrozen sound_k apart_k third attached).imp_left before

/-- Propagation puts no clause back to work but a conflict. -/
theorem attends_propagateFrom {n : Nat} (h : e.Sound aside) (apart : e.FrozenApart)
    (result : propagateFrom n e = (f, conflict)) (attached : (f.clause id).isAttached = true) :
    e.Attends f conflict id := by
  have run := propagates result
  clear result
  induction run with
  | spent | idle => exact .inl attached
  | next at_head run _ ih =>
    obtain ⟨sound_a, apart_a, -, latest⟩ := dequeue_sound h apart at_head
    obtain ⟨sound_g, apart_g, -⟩ := propagateLit_sound sound_a apart_a latest run
    refine (ih sound_g apart_g attached).imp_left fun attached_g => ?_
    rcases attends_propagateLit sound_a apart_a latest run attached_g with before | ⟨none, -⟩
    · exact before
    · cases none
  | clash at_head run =>
    obtain ⟨sound_a, apart_a, -, latest⟩ := dequeue_sound h apart at_head
    rcases attends_propagateLit sound_a apart_a latest run attached with before | ⟨thaws, topped⟩
    · exact .inl before
    · exact .inr ⟨thaws, topped.le, topped.highest⟩

/-! ### Conflicts with one literal of the last level -/

end Engine

namespace Resolution

variable {level n i : Nat} {r r' : Resolution} {p : Lit} {v : Var}

/-- Only variables of the literals taken in are marked. -/
theorem source_addLits (lits : List Lit) (marked : (addLits level lits r).engine.seen.get v = .source) :
    r.engine.seen.get v = .source ∨ ∃ l ∈ lits, l.var = v := by
  induction lits generalizing r with
  | nil => exact .inl marked
  | cons l lits ih =>
    have one (mark : (addLit level r l).engine.seen.get v = .source) :
        r.engine.seen.get v = .source ∨ l.var = v := by
      unfold addLit at mark
      dsimp only at mark
      split at mark
      · by_cases same : l.var = v
        · exact .inr same
        · refine .inl ?_
          have old : (r.engine.seen.insert l.var .source).get v = r.engine.seen.get v := by
            rw [DenseMap.get_insert, if_neg same]
          rw [← old]
          split at mark <;> exact mark
      · exact .inl mark
    rcases ih marked with first | ⟨q, member, same⟩
    · exact (one first).imp_right fun same => ⟨l, List.mem_cons_self, same⟩
    · exact .inr ⟨q, List.mem_cons_of_mem _ member, same⟩

/-- With one literal pending, nothing is resolved: the last marked literal is the one. -/
theorem backward_pending (few : r.pending ≤ 1) (result : backward level n r = .ok (r', p, i)) :
    r'.lits = r.lits ∧ r.engine.seen.get p.var ≠ .unseen := by
  induction n with
  | zero => cases result
  | succ n ih =>
    unfold backward at result
    split at result
    · cases result
    next q _ =>
      split at result
      · exact ih result
      next seen =>
        dsimp only at result
        rw [if_pos few] at result
        cases result
        exact ⟨rfl, by simpa using seen⟩

end Resolution

namespace Engine

variable {aside : List ClauseId} {e f g : Engine} {p : Lit} {id : ClauseId} {conflict : Option Conflict}

/-- Minimization keeps the first literal of the resolvent, and some of the others. -/
theorem analyze_resolvent (sound : e.Sound aside) {c : Conflict} (conflict : e.IsConflict c)
    (positive : e.trail.level ≠ 0) {learnt : Learnt} (result : e.analyze c = .ok (f, learnt)) :
    ∃ first others kept, e.resolvent c = .ok (first :: others) ∧ learnt.lits.toList = first :: kept ∧
      ∀ l ∈ kept, l ∈ others := by
  obtain ⟨p, r, seen, m, h⟩ := analysis_of_analyze sound conflict positive result
  obtain ⟨rest, list, perm⟩ := h.list
  exact ⟨p.neg, r.lits.toList, rest, h.resolvent, list,
    fun l member => h.sublist.subset (perm.mem_iff.mp member)⟩

open Resolution in
/-- What resolution makes of a conflict with one literal of the last level is the conflict, without the
literals settled at level zero. -/
theorem resolvent_single (sound : e.Sound aside) {c : Conflict} (conflict : e.IsConflict c)
    (positive : e.trail.level ≠ 0) {w first : Lit} {others : List Lit}
    (single : ∀ l ∈ conflictLits e c, e.trail.levelOf l.var = e.trail.level → l = w)
    (resolved : e.resolvent c = .ok (first :: others)) :
    first = w ∧ ∀ l ∈ others, l ∈ conflictLits e c := by
  obtain ⟨current, marks, contra, waiting⟩ := start_marks sound conflict positive
  obtain ⟨q, -, -, falsifies⟩ := conflict
  obtain ⟨-, opposites, -⟩ := conflict_lits sound falsifies
  have marked {l : Lit} (inside : l.neg ∈ e.trail.lits)
      (mark : (start e.trail.level e c).engine.seen.get l.var = .source) : l ∈ conflictLits e c := by
    obtain ⟨k, rescored, started⟩ := start_eq e c
    rw [started] at mark
    rcases source_addLits _ mark with before | ⟨q, member, same⟩
    · dsimp only at before
      rw [rescored.seen, sound.unseen] at before
      cases before
    · have equal := eq_of_var_eq sound.trail (opposites q member) inside same
      exact Lit.neg_inj.mp equal ▸ member
  -- Only the one literal of the current level waits to be resolved.
  have pending {l : Lit} (member : l ∈ current) : l = w.neg := by
    obtain ⟨inside, mark, latest⟩ := (marks.latest l).mp member
    have opposite := marked (l := l.neg) ((Lit.neg_neg l).symm ▸ inside) mark
    rw [← single l.neg opposite latest, Lit.neg_neg]
  have few : (start e.trail.level e c).pending ≤ 1 := by
    rw [← marks.pending]
    have sub : current.Subperm [w.neg] :=
      List.subperm_of_subset marks.distinct fun l member => List.mem_singleton.mpr (pending member)
    exact sub.length_le
  unfold resolvent at resolved
  rcases run : backward e.trail.level e.trail.size (start e.trail.level e c) with fault | ⟨r, p, i⟩ <;>
    rw [run] at resolved <;> cases resolved
  have found := backward_resolved marks sound contra waiting run
  obtain ⟨lits, seen⟩ := backward_pending few run
  refine ⟨?_, fun l member => ?_⟩
  · have inside := Array.mem_of_getElem? found.at_i
    -- The literal the search stops at was marked from the start, because nothing was resolved.
    have mark : (start e.trail.level e c).engine.seen.get p.var = .source := by
      cases mark : (start e.trail.level e c).engine.seen.get p.var with
      | unseen => exact absurd mark seen
      | source => rfl
      | resolved =>
        obtain ⟨j, l, le, at_j, -⟩ := marks.resolved _ mark
        have := (Array.getElem?_eq_some_iff.mp at_j).1
        rw [Trail.size] at le
        omega
    rw [pending ((marks.latest p).mpr ⟨inside, mark, found.latest⟩), Lit.neg_neg]
  · rw [lits, Array.mem_toList_iff] at member
    obtain ⟨inside, mark, -⟩ := (marks.lower l).mp member
    exact marked inside mark

/-! ### Adding a clause learnt -/

/-- A clause learnt was added, and nothing else changed. -/
structure Gained (c : Learnt) (e f : Engine) : Prop where
  kept : ∀ id, (e.clause id).isRemoved = false → (e.clause id).Alike (f.clause id)
  clauses : ∀ id, (f.clause id).isRemoved = false →
    (e.clause id).isRemoved = false ∨ (f.clause id).lits = c.lits
  pairs : ∀ p q, q ∈ f.watches.binary.get p ↔ q ∈ e.watches.binary.get p ∨
    ∃ a b, c.lits.toList = [a, b] ∧ (a.neg = p ∧ q = b ∨ b.neg = p ∧ q = a)
  trail : ∀ l rest, c.lits.toList = l :: rest → ∃ why, f.trail = e.trail.assign l why ∧
    ∀ other, rest = [other] → why = .binary other
  stored : 3 ≤ c.lits.size → ∃ id, (f.clause id).isAttached = true ∧ (f.clause id).lits = c.lits

theorem Gained.rescored {c : Learnt} (h : e.Gained c f) (r : f.Rescored g) : e.Gained c g where
  kept := fun id used => (h.kept id used).trans (r.alike id)
  clauses := fun id used => by
    rw [(r.alike id).removed] at used
    rw [(r.alike id).lits]
    exact h.clauses id used
  pairs := by
    rw [r.watches]
    exact h.pairs
  trail := by
    rw [r.trail]
    exact h.trail
  stored := fun size => by
    obtain ⟨id, attached, lits⟩ := h.stored size
    exact ⟨id, (r.alike id).reordered.attached.trans attached, (r.alike id).lits.trans lits⟩

theorem storeLearnt_spec {lits : Array Lit} {lbd : Nat} (result : e.storeLearnt lits lbd = .ok (id, f)) :
    (∀ x, (e.clause x).isRemoved = false → (e.clause x).Alike (f.clause x)) ∧
      (∀ x, (f.clause x).isRemoved = false → (e.clause x).isRemoved = false ∨ (f.clause x).lits = lits) ∧
      f.watches.binary = e.watches.binary ∧ f.trail = e.trail ∧
      (f.clause id).isAttached = true ∧ (f.clause id).lits = lits := by
  obtain ⟨arena, alloc, rfl⟩ := storeLearnt_eq result
  have adds := ClauseArena.adds_alloc alloc
  have get := e.clause_withLearnt alloc lbd
  have bumped := rescored_bumpClause (e.withLearnt id arena lits lbd) id
  refine ⟨fun x used => ?_, fun x used => ?_, ?_, ?_, ?_, ?_⟩
  · have old := bumped.alike x
    rwa [get, if_neg (Adds.ne adds used)] at old
  · rw [(bumped.alike x).removed, get] at used
    rw [(bumped.alike x).lits, get]
    split
    · exact .inr rfl
    next other =>
      rw [if_neg other] at used
      exact .inl used
  · rw [bumped.watches, withLearnt, Watches.watch, Watches.pushLong, Watches.pushLong]
  · rw [bumped.trail, withLearnt]
  · rw [(bumped.alike id).reordered.attached, get, if_pos rfl]
    rfl
  · rw [(bumped.alike id).lits, get, if_pos rfl]
    rfl

/-- Only a clause of two literals joins the pairs. -/
theorem pairs_iff_of_length {c : Learnt} (e : Engine) (unpaired : c.lits.toList.length ≠ 2) (p q : Lit) :
    q ∈ e.watches.binary.get p ↔ q ∈ e.watches.binary.get p ∨
      ∃ a b, c.lits.toList = [a, b] ∧ (a.neg = p ∧ q = b ∨ b.neg = p ∧ q = a) := by
  refine ⟨.inl, ?_⟩
  rintro (old | ⟨a, b, same, -⟩)
  · exact old
  · exact absurd (congrArg List.length same) unpaired

theorem gained_addLearnt {c : Learnt} (result : e.addLearnt c = .ok f) : e.Gained c f := by
  have size : c.lits.size = c.lits.toList.length := Array.length_toList.symm
  cases addLearnt_cases result with
  | empty list =>
    refine ⟨fun _ _ => .refl _, fun _ => .inl, pairs_iff_of_length e (by simp [list]), ?_,
      fun wide => absurd wide (by simp [size, list])⟩
    intro _ _ same
    cases list.symm.trans same
  | unit list =>
    refine ⟨fun _ _ => .refl _, fun _ => .inl, pairs_iff_of_length e (by simp [list]), ?_,
      fun wide => absurd wide (by simp [size, list])⟩
    intro _ _ same
    cases list.symm.trans same
    exact ⟨_, rfl, nofun⟩
  | @pair l other list =>
    obtain ⟨tally, same⟩ := e.addBinary_eq l other true
    rw [same]
    refine ⟨fun _ _ => .refl _, fun _ => .inl, fun _ _ => ?_, fun _ _ equal => ?_,
      fun wide => absurd wide (by simp [size, list])⟩
    · refine Watches.mem_addBinary.trans (or_congr_right ?_)
      constructor
      · exact fun pair => ⟨l, other, list, pair⟩
      · rintro ⟨a, b, equal, pair⟩
        cases list.symm.trans equal
        exact pair
    · cases list.symm.trans equal
      refine ⟨_, rfl, ?_⟩
      rintro b ⟨⟩
      rfl
  | @stored l second third rest id g list stored =>
    obtain ⟨kept, clauses, binary, trail, attached, lits⟩ := storeLearnt_spec stored
    have long : c.lits.toList.length ≠ 2 := by simp [list]
    refine ⟨kept, clauses, fun p q => ?_, fun _ _ equal => ?_, fun _ => ⟨id, attached, lits⟩⟩
    · change q ∈ g.watches.binary.get p ↔ _
      rw [binary]
      exact pairs_iff_of_length e long p q
    · cases list.symm.trans equal
      rw [← trail]
      exact ⟨_, rfl, nofun⟩

/-- What the search learns from a conflict is added after going back. -/
theorem gained_handleConflict {c : Conflict} (result : e.handleConflict c = .ok (.learnt, g)) :
    ∃ f d, e.analyze c = .ok (f, d) ∧ (f.cancelTo d.level).Gained d g := by
  cases handleConflict_cases result with
  | @learnt f b d analyzed added =>
    refine ⟨f, d, analyzed, ?_⟩
    have gained := (gained_addLearnt added).rescored (rescored_decayActivities b)
    obtain ⟨policy, stats, noted, -⟩ := noteConflict_eq b.decayActivities d.lbd e.trail.size
    rw [noted]
    exact ⟨gained.kept, gained.clauses, gained.pairs, gained.trail, gained.stored⟩

/-! ### Clauses at work are watched -/

/-- Clauses at work and pairs, in which no literal looked at is false for good. -/
structure Spared (ids : List ClauseId) (twos : List (Lit × Lit)) (e : Engine) : Prop
    extends e.Guarded [] ids twos where
  lits : ∀ id ∈ ids, ∀ l ∈ (e.clause id).lits, l.neg ∉ e.trail.facts
  firsts : ∀ a b, (a, b) ∈ twos → a.neg ∉ e.trail.facts

/-- All clauses at work, and all of two literals, are covered, but for those with a literal that is
false for good. -/
def Alert (e : Engine) : Prop := ∀ ids pairs, e.Spared ids pairs → e.Guards ids pairs e.trail.head

variable {ids : List ClauseId} {pairs : List (Lit × Lit)}

/-- What is spared was so before, if nothing was put to work and no fact was lost. -/
theorem Spared.before (h : f.Spared ids pairs)
    (clauses : ∀ id ∈ ids, (e.clause id).isAttached = true ∧
      ∀ l ∈ (e.clause id).lits, l ∈ (f.clause id).lits)
    (binary : ∀ a b, (a, b) ∈ pairs → b ∈ e.watches.binary.get a.neg)
    (facts : ∀ l ∈ e.trail.facts, l ∈ f.trail.facts) : e.Spared ids pairs where
  clauses := fun id member => ⟨(clauses id member).1, nofun⟩
  pairs := binary
  lits := fun id member l inside fact => h.lits id member l ((clauses id member).2 l inside) (facts _ fact)
  firsts := fun a b member fact => h.firsts a b member (facts _ fact)

/-- At level zero there is nothing to watch for. -/
theorem alert_of_level_zero (sound : e.Sound aside) (zero : e.trail.level = 0) : e.Alert := by
  intro ids pairs spared
  have fact {l : Lit} {m : Nat} (before : e.trail.Before m l) : l ∈ e.trail.facts :=
    (Trail.Coherent.mem_facts_of_level_zero zero).mpr before.mem
  refine ⟨fun id member w watched before => ?_, fun a b member before => ?_⟩
  · have used := isRemoved_of_isAttached (spared.clauses id member).1
    have size := (sound.proper id used).size
    refine absurd (fact before) (spared.lits id member w ?_)
    rcases watched with rfl | rfl <;> exact Clause.lit_mem (by omega)
  · exact absurd (fact before) (spared.firsts a b member)

theorem Alert.openLevel (h : e.Alert) : e.openLevel.Alert := by
  intro ids pairs spared
  have facts : e.openLevel.trail.facts = e.trail.facts := e.trail.facts_openLevel
  have guards := h ids pairs (spared.before (fun id member => ⟨(spared.clauses id member).1, fun _ h => h⟩)
    spared.pairs fun l fact => facts ▸ fact)
  exact ⟨guards.clauses, guards.pairs⟩

theorem Alert.assign (h : e.Alert) {l : Lit} (why : Reason) (coherent : e.trail.Coherent e.numVars)
    (unassigned : e.trail.value l.var = .undecided) (bound : l.var.index < e.numVars) :
    (e.assign l why).Alert := by
  intro ids pairs spared
  have guards := h ids pairs (spared.before (fun id member => ⟨(spared.clauses id member).1, fun _ h => h⟩)
    spared.pairs fun l fact => Trail.facts_assign_subset fact)
  exact guards.assign why coherent unassigned bound coherent.head_le

/-- Propagation without conflict covers what became false. -/
theorem Alert.propagate (h : e.Alert) (sound : e.Sound []) (apart : e.FrozenApart)
    (result : e.propagate = (f, none)) : f.Alert := by
  obtain ⟨sound', -, grown, -⟩ := propagate_sound sound apart result
  intro ids pairs spared
  have before : e.Spared ids pairs := by
    refine spared.before (fun id member => ⟨?_, fun l => ((grown.clauses id).mem l).mpr⟩)
      (grown.binary ▸ spared.pairs) fun l => grown.facts_subset
    rcases attends_propagateFrom sound apart result (spared.clauses id member).1 with old | ⟨none, -⟩
    · exact old
    · cases none
  exact (propagate_guards sound apart before.toGuarded (h ids pairs before) result).2 rfl

/-! ### Learning from a conflict -/

/-- A literal just assigned covers what was falsified at the same level or later. -/
theorem covers_assign {t : Trail} {lits : Array Lit} {l w : Lit} (why : Reason) (inside : l ∈ lits)
    (le : w = l ∨ t.level ≤ t.levelOf w.var) : (t.assign l why).Covers lits w := by
  refine ⟨l, inside, (Trail.isTrue_assign ..).mpr (.inl rfl), ?_⟩
  rw [Trail.levelOf_assign, if_pos rfl, Trail.levelOf_assign]
  split
  · exact Nat.le_refl _
  next other => exact le.resolve_left fun same => other (by rw [same])

/-- From a conflict in `f` the search has learnt a clause, and gone back. -/
structure Turned (f : Engine) (d : Learnt) (l : Lit) (rest : List Lit) (g : Engine) : Prop where
  teaches : f.Teaches d
  gained : (f.cancelTo d.level).Gained d g
  asserts : (f.cancelTo d.level).Asserts d l rest

variable {d : Learnt} {l : Lit} {rest : List Lit}

theorem turned_handleConflict (sound : f.Sound aside) {c : Conflict} (conflict : f.IsConflict c)
    (positive : f.trail.level ≠ 0) (result : f.handleConflict c = .ok (.learnt, g)) :
    ∃ a d l rest, f.analyze c = .ok (a, d) ∧ f.Turned d l rest g := by
  obtain ⟨a, d, analyzed, gained⟩ := gained_handleConflict result
  obtain ⟨examined, -, teaches⟩ := analyze_teaches sound conflict positive analyzed
  obtain ⟨l, rest, asserts⟩ := teaches.asserts rfl sound.trail
  have lower : d.level < a.trail.level := examined.trail ▸ teaches.lower
  rw [cancelTo_eq lower] at gained
  refine ⟨a, d, l, rest, analyzed, teaches, ?_, asserts⟩
  rw [cancelTo_eq teaches.lower]
  exact
    { kept := fun id used => (examined.alike id).trans
        (gained.kept id ((examined.alike id).removed.trans used))
      clauses := fun id used => (gained.clauses id used).imp_left (examined.alike id).removed.symm.trans
      pairs := by
        have pairs := gained.pairs
        rw [examined.watches] at pairs
        exact pairs
      trail := by
        have trail := gained.trail
        rw [examined.trail] at trail
        exact trail
      stored := gained.stored }

/-- What was covered stays so. -/
theorem Gained.guards (h : e.Gained d f)
    (asserts : e.Asserts d l rest) (coherent : e.trail.Coherent e.numVars)
    (guards : e.Guards ids pairs e.trail.head) (used : ∀ id ∈ ids, (e.clause id).isRemoved = false) :
    f.Guards ids pairs f.trail.head := by
  obtain ⟨why, trail, -⟩ := h.trail l rest asserts.lits
  have assigned := guards.assign why coherent asserts.unassigned asserts.bound coherent.head_le
  have same : f.trail = (e.assign l why).trail := trail
  have alike (id : ClauseId) (member : id ∈ ids) := h.kept id (used id member)
  constructor
  · intro id member w watched before
    rw [Watched, (alike id member).lit, (alike id member).lit] at watched
    rw [same] at before ⊢
    rw [(alike id member).lits]
    exact assigned.clauses id member w watched before
  · rw [same]
    exact assigned.pairs

/-- A clause that a conflict put back to work stays unwatched only if it has one literal of the last
level; and then that one is what is learnt. -/
theorem Turned.thawed (sound : f.Sound aside) (conflict : f.IsConflict (.clause id))
    (positive : f.trail.level ≠ 0) (topped : f.trail.Topped (f.clause id)) {a : Engine}
    (analyzed : f.analyze (.clause id) = .ok (a, d)) {w : Lit}
    (h : f.Turned d l rest g) (deep : d.level ≠ 0) (watched : f.Watched id w)
    (before : f.trail.Before (f.trail.startAbove d.level) w.neg) :
    l ∈ (f.clause id).lits ∧ (w = l ∨ d.level ≤ f.trail.levelOf w.var) := by
  have coherent := sound.trail
  have found := conflict
  obtain ⟨p, -, latest, used, inside, fails⟩ := found
  have size := (sound.proper id used).size
  have first : (f.clause id).lit 0 ∈ (f.clause id).lits := Clause.lit_mem (by omega)
  have second : (f.clause id).lit 1 ∈ (f.clause id).lits := Clause.lit_mem (by omega)
  have below {q : Lit} (member : q ∈ (f.clause id).lits) : f.trail.levelOf q.var ≤ f.trail.level := by
    have := coherent.levelOf_le ((coherent.isFalse_iff q).mp (fails q member))
    rwa [Lit.var_neg] at this
  -- The first literal is at the current level: the topped clause has the latest ones in front.
  have top : f.trail.levelOf ((f.clause id).lit 0).var = f.trail.level := by
    refine Nat.le_antisymm (below first) ?_
    rw [← latest, ← Lit.var_neg p]
    by_cases same : p.neg = (f.clause id).lit 0
    · rw [same]
    · exact Nat.le_trans (topped.highest _ inside same) topped.le
  -- What is undone by going back is above the level gone back to.
  have early : f.trail.levelOf w.var < f.trail.level := by
    obtain ⟨i, at_i, place⟩ := before
    have level := coherent.level_eq place
    have le := (coherent.levelAt_le_iff h.teaches.lower i).mpr at_i
    have lower := h.teaches.lower
    rw [Lit.var_neg] at level
    omega
  have other : w = (f.clause id).lit 1 := by
    refine watched.resolve_left ?_
    rintro rfl
    omega
  -- So the clause has one literal of the current level, and the analysis stops at it at once.
  have single : ∀ q ∈ Resolution.conflictLits f (.clause id), f.trail.levelOf q.var = f.trail.level →
      q = (f.clause id).lit 0 := by
    intro q member level
    by_contra differ
    have := topped.highest q (Array.mem_toList_iff.mp member) differ
    rw [other] at early
    omega
  obtain ⟨q, others, kept, resolved, lits, sub⟩ := analyze_resolvent sound conflict positive analyzed
  obtain ⟨rfl, all⟩ := resolvent_single sound conflict positive single resolved
  have list := h.asserts.lits
  rw [lits] at list
  cases list
  refine ⟨first, .inr ?_⟩
  cases rest with
  | nil =>
    refine absurd (h.teaches.unit ?_) deep
    rw [← Array.length_toList, lits]
    exact Nat.le_refl _
  | cons q rest =>
    have level := h.teaches.latest q (by rw [lits]; rfl)
    -- The other literals learnt are of this clause, and none is higher than its second one.
    have member := all q (sub q List.mem_cons_self)
    have differ : q ≠ (f.clause id).lit 0 := by
      rintro rfl
      have distinct := h.teaches.distinct
      rw [lits] at distinct
      simp at distinct
    rw [other, ← level]
    exact topped.highest q (Array.mem_toList_iff.mp member) differ

/-- The clause learnt is covered by the literal it asserts. -/
theorem Turned.new (h : f.Turned d l rest g) (sound : g.Sound aside)
    (used : (g.clause id).isRemoved = false) (new : (g.clause id).lits = d.lits) {w : Lit}
    (watched : g.Watched id w) : g.trail.Covers (g.clause id).lits w := by
  obtain ⟨why, trail, -⟩ := h.gained.trail l rest h.asserts.lits
  have size := (sound.proper id used).size
  have lit (i : Nat) : (g.clause id).lit i = (l :: rest)[i]?.getD .missing := by
    rw [Clause.lit, new, Array.getD_eq_getD_getElem?, ← Array.getElem?_toList, h.asserts.lits]
  rw [trail]
  refine covers_assign why ?_ (watched.imp (·.trans (lit 0)) fun second => ?_)
  · rw [new, ← Array.mem_toList_iff, h.asserts.lits]
    exact List.mem_cons_self
  · rw [lit, List.getElem?_cons_succ] at second
    cases rest with
    | nil =>
      rw [new, ← Array.length_toList, h.asserts.lits] at size
      simp at size
    | cons q rest =>
      rw [second]
      exact Nat.le_of_eq (h.asserts.latest q rfl).symm

/-- So is a pair learnt. -/
theorem Turned.newPair (h : f.Turned d l rest g) (coherent : g.trail.Coherent g.numVars) {a b x y : Lit}
    (list : d.lits.toList = [x, y]) (pair : x.neg = a.neg ∧ b = y ∨ y.neg = a.neg ∧ b = x)
    {m : Nat} (before : g.trail.Before m a.neg) : g.trail.Covers #[b] a := by
  obtain ⟨why, trail, -⟩ := h.gained.trail l rest h.asserts.lits
  rw [h.asserts.lits] at list
  cases list
  rcases pair with ⟨same, rfl⟩ | ⟨same, rfl⟩ <;> cases Lit.neg_inj.mp same
  · refine absurd before.mem (coherent.not_mem_neg ?_)
    rw [trail]
    exact Array.mem_push.mpr (.inr rfl)
  · rw [trail]
    exact covers_assign why (Array.mem_singleton.mpr rfl)
      (.inr (Nat.le_of_eq (h.asserts.latest a rfl).symm))

/-- The state that the search goes on from after a conflict. -/
theorem Turned.trail (h : f.Turned d l rest g) :
    ∃ why, g.trail = (f.trail.cancelTo d.level).assign l why := by
  obtain ⟨why, trail, -⟩ := h.gained.trail l rest h.asserts.lits
  rw [cancelTo_eq h.teaches.lower] at trail
  exact ⟨why, trail⟩

section Back

variable {c : Conflict} {stats : Statistics} (turned : ({ f with stats } : Engine).Turned d l rest g)
  (sound : e.Sound []) (apart : e.FrozenApart) (run : e.propagate = (f, some c))

include turned sound apart run

theorem Turned.facts_subset {q : Lit} (fact : q ∈ e.trail.facts) : q ∈ g.trail.facts := by
  obtain ⟨sound_f, -, grown, -⟩ := propagate_sound sound apart run
  obtain ⟨why, trail⟩ := turned.trail
  rw [trail]
  refine Trail.facts_assign_subset ((sound_f.trail.mem_facts_cancelTo turned.teaches.lower).mpr ?_)
  exact grown.facts_subset fact

/-- Going back and learning keeps what was covered before the conflict. -/
theorem Turned.keeps (alert : e.Alert) (spared : e.Spared ids pairs) :
    g.Guards ids pairs g.trail.head := by
  obtain ⟨sound_f, -, grown, -⟩ := propagate_sound sound apart run
  have sound_k : ({ f with stats } : Engine).Sound [] := { sound_f with }
  have lower : d.level < f.trail.level := turned.teaches.lower
  have covered := (propagate_guards sound apart spared.toGuarded (alert ids pairs spared) run).1
  have guards : ({ f with stats } : Engine).Guards ids pairs e.trail.head :=
    ⟨covered.clauses, covered.pairs⟩
  -- Going back ends before what propagation had reached when it found the conflict.
  have marks : f.trail.startAbove d.level ≤ e.trail.head := by
    rw [grown.startAbove (grown.level ▸ lower)]
    exact sound.trail.startAbove_le_head (grown.level ▸ lower)
  have returned := guards.cancelTo sound_f.trail lower marks
  refine turned.gained.guards turned.asserts (sound_k.cancelTo d.level).trail ?_ fun id member => ?_
  · rw [cancelTo_eq turned.teaches.lower] at returned ⊢
    exact returned
  · rw [cancelTo_eq turned.teaches.lower]
    have used := isRemoved_of_isAttached (spared.clauses id member).1
    exact (grown.clauses id).removed.trans used

/-- A clause that the conflict put back to work is covered by what is learnt from it. -/
theorem Turned.covers_thawed (positive : f.trail.level ≠ 0) {a : Engine}
    (analyzed : ({ f with stats } : Engine).analyze c = .ok (a, d)) (deep : d.level ≠ 0)
    (thaws : c = .clause id) (topped : f.trail.Topped (f.clause id))
    (alike : (f.clause id).Alike (g.clause id)) {w : Lit} (watched : g.Watched id w)
    (before : g.trail.Before g.trail.head w.neg) : g.trail.Covers (g.clause id).lits w := by
  obtain ⟨sound_f, -, -, -, found⟩ := propagate_sound sound apart run
  have sound_k : ({ f with stats } : Engine).Sound [] := { sound_f with }
  have conflict : ({ f with stats } : Engine).IsConflict c := found c rfl
  have coherent := (sound_k.cancelTo d.level).trail
  rw [cancelTo_eq turned.teaches.lower] at coherent
  obtain ⟨why, trail⟩ := turned.trail
  subst thaws
  have watched' : f.Watched id w := by
    rw [Watched, alike.lit, alike.lit] at watched
    exact watched
  have early : f.trail.Before (f.trail.startAbove d.level) w.neg := by
    rw [trail] at before
    have := (Trail.before_assign coherent.head_le).mp before
    rw [sound_f.trail.before_cancelTo] at this
    exact this.mono (Nat.min_le_right _ _)
  obtain ⟨inside, le⟩ := turned.thawed sound_k conflict positive topped analyzed deep watched' early
  rw [trail, alike.lits]
  refine covers_assign why inside (le.imp_right fun le => ?_)
  rw [Trail.level_cancelTo turned.teaches.lower]
  exact le

end Back

/-- Learning from a conflict covers what is at work afterwards: the clause learnt, the one that the
conflict put back to work, and those that were covered before. -/
theorem Alert.handleConflict (h : e.Alert) (sound : e.Sound []) (apart : e.FrozenApart) {c : Conflict}
    (run : e.propagate = (f, some c)) (positive : f.trail.level ≠ 0) (stats : Statistics)
    (result : ({ f with stats } : Engine).handleConflict c = .ok (.learnt, g)) (after : g.Sound []) :
    g.Alert := by
  obtain ⟨sound_f, -, grown, -, found⟩ := propagate_sound sound apart run
  have sound_k : ({ f with stats } : Engine).Sound [] := { sound_f with }
  obtain ⟨a, d, l, rest, analyzed, turned⟩ := turned_handleConflict sound_k (found c rfl) positive result
  have gained := turned.gained
  rw [cancelTo_eq turned.teaches.lower] at gained
  by_cases zero : d.level = 0
  · obtain ⟨why, trail⟩ := turned.trail
    refine alert_of_level_zero after ?_
    rw [trail]
    exact (Trail.level_cancelTo turned.teaches.lower).trans zero
  intro ids pairs spared
  have facts {q : Lit} (fact : q ∈ e.trail.facts) : q ∈ g.trail.facts :=
    turned.facts_subset sound apart run fact
  constructor
  · intro id member w watched before
    have attached := (spared.clauses id member).1
    have used := isRemoved_of_isAttached attached
    rcases gained.clauses id used with old | new
    · have alike : (f.clause id).Alike (g.clause id) := gained.kept id old
      rcases attends_propagateFrom sound apart run (alike.reordered.attached ▸ attached) with
        attached' | ⟨thaws, topped⟩
      · -- The clause was at work before the conflict.
        have single : e.Spared [id] [] :=
          { clauses := fun x same => ⟨List.mem_singleton.mp same ▸ attached', nofun⟩
            pairs := nofun
            lits := by
              intro x same q inside fact
              cases List.mem_singleton.mp same
              refine spared.lits id member q ?_ (facts fact)
              rw [alike.lits]
              exact ((grown.clauses id).mem q).mpr inside
            firsts := nofun }
        exact (turned.keeps sound apart run h single).clauses id (List.mem_singleton.mpr rfl) w watched
          before
      · exact turned.covers_thawed sound apart run positive analyzed zero (Option.some.inj thaws) topped
          alike watched before
    · exact turned.new after used new watched
  · intro a b member before
    have stored := spared.pairs a b member
    rcases (gained.pairs _ _).mp stored with old | ⟨x, y, list, pair⟩
    · -- The pair was stored before the conflict.
      have single : e.Spared [] [(a, b)] :=
        { clauses := nofun
          pairs := by
            intro x y same
            cases List.mem_singleton.mp same
            exact grown.binary ▸ old
          lits := nofun
          firsts := by
            intro x y same fact
            cases List.mem_singleton.mp same
            exact spared.firsts a b member (facts fact) }
      exact (turned.keeps sound apart run h single).pairs a b (List.mem_singleton.mpr rfl) before
    · exact turned.newPair after.trail list pair before

/-! ### Steps of a search -/

/-- Only the trail and what is stored matter. -/
theorem Alert.congr (h : e.Alert) (trail : f.trail = e.trail) (arena : f.arena = e.arena)
    (watches : f.watches = e.watches) : f.Alert := by
  have clause (id : ClauseId) : f.clause id = e.clause id := by rw [clause, clause, arena]
  intro ids pairs spared
  have before : e.Spared ids pairs :=
    spared.before (fun id member => clause id ▸ ⟨(spared.clauses id member).1, fun _ h => h⟩)
      (watches ▸ spared.pairs) fun _ fact => trail ▸ fact
  have guards := h ids pairs before
  refine ⟨fun id member w watched before => ?_, trail ▸ guards.pairs⟩
  rw [Watched, clause] at watched
  rw [trail] at before ⊢
  rw [clause]
  exact guards.clauses id member w watched before

theorem Alert.decide (h : e.Alert) {l : Lit} (coherent : e.trail.Coherent e.numVars)
    (propagated : e.trail.head = e.trail.lits.size) (unassigned : e.trail.value l.var = .undecided)
    (bound : l.var.index < e.numVars) : (e.decide l).Alert :=
  h.openLevel.assign .decision (coherent.openLevel propagated) unassigned bound

theorem Alert.openAssumed (literals : List (Lit × Bool)) (h : e.Alert) {a : Assumed}
    (result : Engine.openAssumed literals e = (a, f)) : f.Alert := by
  induction literals generalizing e with
  | nil =>
    cases result
    exact h
  | cons entry literals ih =>
    unfold Engine.openAssumed at result
    split at result
    · cases result
      exact h
    · split at result
      · cases result
        exact h
      · exact ih h.openLevel result
    · exact ih h.openLevel result

end Engine

namespace Solver

open Engine

variable {F log : List (List Lit)} {s t : Solver}

theorem Searching.alert_branch (h : s.Searching F log)
    (propagated : s.engine.trail.head = s.engine.trail.lits.size) (alert : s.engine.Alert)
    (result : s.branch = (.continue, t)) : t.engine.Alert := by
  cases branch_cases result with
  | @assumed l e opened =>
    have alert_e := alert.openAssumed _ opened
    obtain ⟨working, presumes, framed, -, propagated', opened⟩ :=
      h.working.openAssumed _ h.presumes propagated rfl opened
    cases opened with
    | next unassigned at_level =>
      have bound : l.var.index < e.numVars :=
        framed.numVars ▸ h.bounded l (List.mem_of_getElem? at_level)
      exact alert_e.decide working.sound.trail propagated' unassigned bound
  | @picked l e f opened picked =>
    have alert_e := alert.openAssumed _ opened
    obtain ⟨working, -, -, -, propagated', -⟩ :=
      h.working.openAssumed _ h.presumes propagated rfl opened
    have offers : (e.modifyStats fun st => { st with decisions := st.decisions + 1 }).Offers :=
      { working.settled.offers with }
    obtain ⟨branching, same, -, spec⟩ := pickLit_spec offers picked
    have alert_f : f.Alert := alert_e.congr (by rw [same]; rfl) (by rw [same]; rfl) (by rw [same]; rfl)
    rw [same] at alert_f ⊢
    exact alert_f.decide working.sound.trail propagated' spec.2.1 spec.1

theorem Searching.alert_advance (h : s.Searching F log)
    (propagated : s.engine.trail.head = s.engine.trail.lits.size) (alert : s.engine.Alert)
    (result : s.advance = (.continue, t)) : t.engine.Alert := by
  cases advance_cases result with
  | rested checked zero rests =>
    have resumed := (h.noted (noted_withinBudget checked).1).resumed.1
    cases rests with
    | propagateFirst upkept =>
      cases upkeep_spec resumed.working zero upkept with
      | propagateFirst working task level => exact alert_of_level_zero working.sound level
    | decided upkept decides =>
      obtain ⟨more, searching, -, level, propagated, -⟩ := resumed.upkept zero upkept
      exact searching.alert_branch propagated (alert_of_level_zero searching.working.sound level) decides
  | decided checked calm positive decides =>
    have noted := (noted_withinBudget checked).1
    rw [← noted.engine] at propagated alert
    exact (h.noted noted).alert_branch propagated alert decides

/-- A step of a search leaves what is at work watched. -/
theorem Searching.alert_step (h : s.Searching F log) (alert : s.engine.Alert)
    (stepped : s.searchStep = .ok (.continue, t)) : t.engine.Alert := by
  obtain ⟨pairs, faithful⟩ := h.working.settled.faithful
  obtain ⟨more, searching, -⟩ := h.next stepped
  cases searchStep_cases stepped with
  | advanced proceeds advances =>
    obtain ⟨searching, -, -, finished⟩ := h.proceeds proceeds
    obtain ⟨asked, run⟩ := proceeds
    rw [(noted_stopRequested asked).engine] at run
    exact searching.alert_advance finished (alert.propagate faithful.sound faithful.apart run) advances
  | learnt conflicts positive handled =>
    obtain ⟨asked, run⟩ := conflicts
    rw [(noted_stopRequested asked).engine] at run
    exact alert.handleConflict faithful.sound faithful.apart run positive _ handled
      searching.working.sound

/-- In the course of a search, clauses at work are watched. -/
theorem Searched.alert (h : Searched F s) : s.engine.Alert := by
  induction h with
  | start before ok assumed starts =>
    obtain ⟨searching, -, zero⟩ := (before.ready ok).search assumed starts
    exact alert_of_level_zero searching.working.sound zero
  | step before stepped ih =>
    obtain ⟨log, searching⟩ := before.searching
    exact searching.alert_step ih stepped

end Solver

end Cdcl
