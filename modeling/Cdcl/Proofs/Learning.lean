import Cdcl.Proofs.ConflictSteps
import Cdcl.Proofs.Removal

/-!
# Learning from a conflict

The clause that analysis learns is stored, and its first literal assigned, at the level it goes back
to. Even if there is no room for the clause, the engine is as good as before.

## Main results

`Faithful.handleConflict`: an engine is faithful after it has learnt from a conflict.
-/

namespace Cdcl

/-- The second trail went back to a lower level, and at most assigned a literal since, which is a
fact or has a reason. -/
inductive Trail.Descends (t : Trail) : Trail → Prop where
  | back {k : Nat} (below : k < t.level) : Descends t (t.cancelTo k)
  | learnt {k : Nat} {l : Lit} {why : Reason} (below : k < t.level)
    (unassigned : (t.cancelTo k).value l.var = .undecided) (implied : k = 0 ∨ why ≠ .decision) :
    Descends t ((t.cancelTo k).assign l why)

/-- There was no room in the arena, or for a clause that has more literals than a header can count, but no
more than there are variables. -/
inductive NoRoom (numVars : Nat) : SolverError → Prop where
  | arena (requested limit : Nat) : NoRoom numVars (.arenaExhausted requested limit)
  | header {size : Nat} (large : Header.maxSize < size) (few : size ≤ numVars) :
    NoRoom numVars (.clauseTooLarge size)

namespace Engine

variable {F : List (List Lit)} {m : Nat} {e f : Engine} {pairs : List (Lit × Lit)} {c : Learnt}
  {l : Lit} {rest : List Lit} {originals learnts : List ClauseId}

theorem rescored_decayActivities (e : Engine) : e.Rescored e.decayActivities :=
  { Rescored.refl e with heap := rfl, decision := rfl }

/-- Taking note of a conflict brings the next reduction closer, and may ask for a restart. -/
theorem noteConflict_eq (e : Engine) (lbd size : Nat) : ∃ policy stats,
    e.noteConflict lbd size = { e with policy, stats } ∧
      policy.conflictsBeforeReduction = e.policy.conflictsBeforeReduction - 1 ∧
      policy.reductionGap = e.policy.reductionGap := by
  have noted : (e.policy.noteConflict e.opts e.stats.conflicts lbd size).1.conflictsBeforeReduction =
        e.policy.conflictsBeforeReduction - 1 ∧
      (e.policy.noteConflict e.opts e.stats.conflicts lbd size).1.reductionGap =
        e.policy.reductionGap := by
    unfold Policy.noteConflict
    dsimp only
    split
    · split
      · exact ⟨rfl, rfl⟩
      · exact ⟨rfl, rfl⟩
    · exact ⟨rfl, rfl⟩
    · exact ⟨rfl, rfl⟩
  unfold Engine.noteConflict
  dsimp only
  split
  · exact ⟨_, _, rfl, noted⟩
  · exact ⟨_, _, rfl, noted⟩

/-! ### Adding the clause -/

/-- The first literal of the clause is unassigned, and its others are false, the second one at the
current level. -/
structure Asserts (e : Engine) (c : Learnt) (l : Lit) (rest : List Lit) : Prop where
  lits : c.lits.toList = l :: rest
  distinct : (c.lits.toList.map Lit.var).Nodup
  unassigned : e.trail.value l.var = .undecided
  bound : l.var.index < e.numVars
  falsified : ∀ q ∈ rest, q.neg ∈ e.trail.lits
  unit : rest = [] → e.trail.level = 0
  latest : ∀ q, rest[0]? = some q → e.trail.levelOf q.var = e.trail.level

/-- How a clause is stored once its first literal is true: as a fact, as a clause of two literals, or
in the arena under these handles. -/
inductive Stored (e : Engine) : List Lit → List ClauseId → Prop where
  | fact {l : Lit} (fact : l ∈ e.trail.facts) : Stored e [l] []
  | pair {a b : Lit} (atA : b ∈ e.watches.binary.get a.neg) (atB : a ∈ e.watches.binary.get b.neg)
    (differ : a.var ≠ b.var) (holds : a ∈ e.trail.lits)
    (le : e.trail.levelOf a.var ≤ e.trail.levelOf b.var) : Stored e [a, b] []
  | clause {id : ClauseId} (attached : (e.clause id).isAttached = true)
    (holds : (e.clause id).lit 0 ∈ e.trail.lits)
    (le : e.trail.levelOf ((e.clause id).lit 0).var ≤ e.trail.levelOf ((e.clause id).lit 1).var) :
    Stored e (e.clause id).lits.toList [id]

/-- Only the trail, the watch lists and the arena matter. -/
theorem Stored.congr {d : List Lit} {more : List ClauseId} (h : e.Stored d more)
    (trail : f.trail = e.trail) (watches : f.watches = e.watches) (arena : f.arena = e.arena) :
    f.Stored d more := by
  cases h with
  | fact fact => exact .fact (trail ▸ fact)
  | pair atA atB differ holds le =>
    exact .pair (watches ▸ atA) (watches ▸ atB) differ (trail ▸ holds) (trail ▸ le)
  | @clause id attached holds le =>
    have same : f.clause id = e.clause id := by rw [Engine.clause, Engine.clause, arena]
    rw [← same] at attached holds le ⊢
    exact .clause attached (trail ▸ holds) (trail ▸ le)

theorem Stored.length_le {d : List Lit} {more : List ClauseId} (h : e.Stored d more) :
    more.length ≤ 1 := by
  cases h with
  | fact => exact Nat.zero_le _
  | pair => exact Nat.zero_le _
  | clause => exact Nat.le_refl _

section Asserts

variable (asserts : e.Asserts c l rest)

include asserts

theorem Asserts.beside {k : Nat} (coherent : e.trail.Coherent k) {q : Lit} {others : List Lit}
    (list : rest = q :: others) : e.trail.Beside e.trail.lits.size q.neg :=
  coherent.beside_end
    ⟨asserts.falsified q (list ▸ List.mem_cons_self), asserts.latest q (list ▸ rfl)⟩

theorem Asserts.bounded {k : Nat} (coherent : e.trail.Coherent k) {q : Lit} (member : q ∈ rest) :
    q.var.index < k :=
  coherent.bounded q.neg (asserts.falsified q member)

/-- The first literal is assigned no later than the second one. -/
theorem Asserts.level_le {q : Lit} {others : List Lit} (list : rest = q :: others) (why : Reason) :
    (e.trail.assign l why).levelOf l.var ≤ (e.trail.assign l why).levelOf q.var := by
  have level := asserts.latest q (list ▸ rfl)
  rw [Trail.levelOf_assign, if_pos rfl, Trail.levelOf_assign]
  split
  · exact Nat.le_refl _
  · exact Nat.le_of_eq level.symm

variable (h : e.Faithful F { originals, learnts, pairs } e.trail.head)
  (implied : ∀ σ : Valuation, σ.satisfies F → σ.satisfiesClause c.lits.toList)

include h implied

/-- A single literal becomes a fact. -/
theorem Asserts.addUnit (list : rest = []) :
    (e.assign l .decision).Faithful F { originals, learnts, pairs }
      (e.assign l .decision).trail.head ∧ (e.assign l .decision).Stored [l] [] := by
  have zero := asserts.unit list
  have coherent := h.sound.trail
  refine ⟨?_, .fact ((mem_facts_assign coherent).mpr (.inr ⟨zero, rfl⟩))⟩
  refine h.assign_decision asserts.unassigned asserts.bound (Trail.opens_of_level_zero zero _)
    (fun _ σ holds => ?_) coherent.head_le
  have sat := implied σ holds
  rw [asserts.lits, list] at sat
  simpa [Valuation.satisfiesClause] using sat

/-- Two literals become a clause of the watch lists. -/
theorem Asserts.addBinary {other : Lit} (list : rest = [other]) :
    let f := (e.addBinary l other true).assign l (.binary other)
    f.Faithful F { originals, learnts, pairs } f.trail.head ∧ f.Stored [l, other] [] := by
  dsimp only
  have coherent := h.sound.trail
  have distinct := asserts.distinct
  rw [asserts.lits, list] at distinct
  have added := h.addBinary asserts.bound
    (asserts.bounded coherent (list ▸ List.mem_cons_self)) true fun σ holds => by
      have sat := implied σ holds
      rw [asserts.lits, list] at sat
      simpa [Valuation.satisfiesClause] using sat
  obtain ⟨tally, same⟩ := e.addBinary_eq l other true
  rw [same] at added ⊢
  constructor
  · refine added.assign asserts.unassigned asserts.bound ?_ nofun coherent.head_le
    exact ⟨Watches.mem_addBinary.mpr (.inr (.inr ⟨rfl, rfl⟩)), asserts.beside coherent list⟩
  · exact .pair (Watches.mem_addBinary.mpr (.inr (.inl ⟨rfl, rfl⟩)))
      (Watches.mem_addBinary.mpr (.inr (.inr ⟨rfl, rfl⟩))) (by simpa using distinct)
      (Array.mem_push.mpr (.inr rfl)) (asserts.level_le list _)

/-- Three literals or more go into the arena. -/
theorem Asserts.addLong {second third : Lit} {others : List Lit}
    (list : rest = second :: third :: others) {id : ClauseId}
    (result : e.storeLearnt c.lits c.lbd = .ok (id, f)) :
    (f.assign l (.clause id)).Faithful F { originals, learnts := learnts ++ [id], pairs }
        (f.assign l (.clause id)).trail.head ∧ e.Framed f ∧ f.originals = e.originals ∧
      f.learnts = e.learnts.push id ∧ f.trail = e.trail ∧
      (f.assign l (.clause id)).Stored c.lits.toList [id] := by
  have coherent := h.sound.trail
  have whole := asserts.lits
  rw [list] at whole
  have size : c.lits.size = others.length + 3 := by
    rw [← Array.length_toList, whole]
    rfl
  have proper : (Clause.fresh c.lits true).Proper e.numVars := by
    refine proper_fresh (by omega) asserts.distinct (fun q member => ?_) true
    rw [← Array.mem_toList_iff, asserts.lits] at member
    rcases List.mem_cons.mp member with rfl | member
    · exact asserts.bound
    · exact asserts.bounded coherent member
  obtain ⟨faithful, framed, more, learnt, trail, working, same⟩ := h.storeLearnt proper implied result
  have tail : (f.clause id).tail = rest := by
    rw [Clause.tail, same, whole, list]
    rfl
  have first : (f.clause id).lit 0 = l := by
    rw [Clause.lit, same, Array.getD_eq_getD_getElem?, ← Array.getElem?_toList, whole]
    rfl
  have next : (f.clause id).lit 1 = second := by
    rw [Clause.lit, same, Array.getD_eq_getD_getElem?, ← Array.getElem?_toList, whole]
    rfl
  -- The clause is the reason of its first literal: the others are false, and the second is at this level.
  have explained : f.Explains (.clause id) f.trail.lits.size l := by
    refine ⟨working, first, fun q member => ?_, ?_⟩
    · rw [tail] at member
      rw [trail]
      exact Trail.mem_iff_before.mp (asserts.falsified q member)
    · rw [tail, trail]
      exact ⟨second, list ▸ List.mem_cons_self, asserts.beside coherent list⟩
  refine ⟨?_, framed, more, learnt, trail, ?_⟩
  · rw [← trail] at faithful
    refine faithful.assign (trail.symm ▸ asserts.unassigned) (framed.numVars.symm ▸ asserts.bound)
      explained (by simp) (trail.symm ▸ coherent.head_le)
  · have stored : (f.assign l (.clause id)).Stored (f.clause id).lits.toList [id] := by
      refine .clause (e := f.assign l (.clause id)) working ?_ ?_
      · change (f.clause id).lit 0 ∈ f.trail.lits.push l
        rw [first]
        exact Array.mem_push.mpr (.inr rfl)
      · change (f.trail.assign l _).levelOf ((f.clause id).lit 0).var ≤
          (f.trail.assign l _).levelOf ((f.clause id).lit 1).var
        rw [first, next, trail]
        exact asserts.level_le list _
    rw [same] at stored
    exact stored

/-- A learnt clause is stored, and implies its first literal. -/
theorem Asserts.addLearnt (result : e.addLearnt c = .ok f) :
    ∃ more why, f.Faithful F { originals, learnts := learnts ++ more, pairs } f.trail.head ∧
      e.Framed f ∧ f.originals = e.originals ∧ f.learnts.toList = e.learnts.toList ++ more ∧
      f.Stored c.lits.toList more ∧ f.trail = e.trail.assign l why ∧
      (e.trail.level = 0 ∨ why ≠ .decision) := by
  unfold Engine.addLearnt at result
  have whole := asserts.lits
  rw [whole] at result
  -- The cases are those of `addLearnt`: a fact, two literals, or a clause of the arena.
  match rest, asserts.unit with
  | [], unit =>
    cases result
    obtain ⟨faithful, stored⟩ := asserts.addUnit h implied rfl
    refine ⟨[], .decision, ?_, framed_assign e l .decision, rfl, ?_, whole ▸ stored, rfl,
      .inl (unit rfl)⟩
    · rw [List.append_nil]
      exact faithful
    · exact (List.append_nil _).symm
  | [other], _ =>
    cases result
    obtain ⟨faithful, stored⟩ := asserts.addBinary h implied rfl
    have steady := steady_addBinary e l other true
    refine ⟨[], .binary other, ?_, steady.toFramed.trans (framed_assign ..), steady.originals, ?_,
      whole ▸ stored, ?_, .inr nofun⟩
    · rw [List.append_nil]
      exact faithful
    · rw [List.append_nil]
      exact congrArg Array.toList steady.learnts
    · obtain ⟨tally, same⟩ := e.addBinary_eq l other true
      rw [same]
      rfl
  | second :: third :: others, _ =>
    dsimp only at result
    split at result
    · cases result
    next id g stored =>
      cases result
      obtain ⟨faithful, framed, more, learnt, trail, kept⟩ := asserts.addLong h implied rfl stored
      refine ⟨[id], .clause id, faithful, framed.trans (framed_assign ..), more, ?_, kept, ?_,
        .inr nofun⟩
      · change g.learnts.toList = _
        rw [learnt, Array.toList_push]
      · rw [← trail]
        rfl

end Asserts

/-- There is no header for a clause of so many literals. -/
theorem addLearnt_of_large (large : Header.maxSize < c.lits.size) :
    e.addLearnt c = .error (.clauseTooLarge c.lits.size) := by
  have refused : e.arena.alloc c.lits true = .error (.clauseTooLarge c.lits.size) :=
    ClauseArena.alloc_eq_error_iff.mpr (.inl ⟨large, rfl⟩)
  have long : 2 < c.lits.toList.length := Nat.lt_trans (by decide) large
  unfold Engine.addLearnt Engine.storeLearnt
  rw [refused]
  rcases list : c.lits.toList with _ | ⟨_, _ | ⟨_, _ | _⟩⟩
  · simp [list] at long
  · simp [list] at long
  · simp [list] at long
  · rfl

/-- A clause that was learnt is not stored if its header has no room for it, or the arena. -/
theorem addLearnt_error_cases {err : SolverError} (result : e.addLearnt c = .error err) :
    (∃ requested limit, err = .arenaExhausted requested limit) ∨
      Header.maxSize < c.lits.size ∧ err = .clauseTooLarge c.lits.size := by
  unfold Engine.addLearnt at result
  split at result
  · cases result
  · cases result
  · cases result
  · split at result
    next failed =>
      cases result
      unfold Engine.storeLearnt at failed
      split at failed
      next refused =>
        cases failed
        rcases ClauseArena.alloc_eq_error_iff.mp refused with large | ⟨-, claimed⟩
        · exact .inr large
        · exact .inl ⟨_, _, (Space.claim_eq_error_iff.mp claimed).2⟩
      · cases failed
    · cases result

theorem addLearnt_error {n : Nat} (few : c.lits.size ≤ n) {err : SolverError}
    (result : e.addLearnt c = .error err) : NoRoom n err := by
  rcases addLearnt_error_cases result with ⟨requested, limit, rfl⟩ | ⟨large, rfl⟩
  · exact .arena requested limit
  · exact .header large few

/-! ### Going back -/

/-- Back at its level, a clause that was learnt implies its first literal. -/
theorem Teaches.asserts (h : e.Teaches c) (trail : f.trail = e.trail)
    (coherent : f.trail.Coherent f.numVars) : ∃ l rest, (f.cancelTo c.level).Asserts c l rest := by
  obtain ⟨p, rest, lits, member, latest, below⟩ := h.shape
  have lower := h.lower
  rw [← trail] at member latest below lower
  have back := trail_cancelTo lower
  have coherent' := coherent.cancelTo lower
  have level : (f.cancelTo c.level).trail.level = c.level := by
    rw [back]
    exact Trail.level_cancelTo lower
  refine ⟨p.neg, rest, lits, h.distinct, ?_, ?_, fun q inside => ?_, fun none => ?_,
    fun q first => ?_⟩
  · rw [back, coherent'.undecided_iff]
    -- The literal was assigned above the level returned to, so that it has no value there.
    intro l inside same
    rw [coherent.mem_cancelTo] at inside
    obtain ⟨i, before, at_i⟩ := inside
    obtain ⟨j, at_j⟩ := Array.mem_iff_getElem?.mp member
    cases coherent.distinct at_i at_j same
    have := (coherent.levelAt_le_iff lower i).mpr before
    rw [coherent.level_eq at_j] at latest
    omega
  · rw [(framed_cancelTo f _).numVars]
    exact coherent.bounded p member
  · obtain ⟨opposite, le⟩ := below q inside
    obtain ⟨i, at_i⟩ := Array.mem_iff_getElem?.mp opposite
    rw [back, coherent.mem_cancelTo]
    refine ⟨i, (coherent.levelAt_le_iff lower i).mp ?_, at_i⟩
    rw [← coherent.level_eq at_i]
    exact le
  · rw [level]
    refine h.unit ?_
    rw [← Array.length_toList, lits, none]
    exact Nat.le_refl _
  · rw [level, back, trail]
    refine h.latest q ?_
    rw [lits]
    exact first

/-- What became of a conflict: the clause learnt from it was stored, or found no room. -/
inductive Learns (e f : Engine) : Handled → List ClauseId → Prop where
  | learnt (c : Learnt) {more : List ClauseId} (teaches : e.Teaches c)
    (stored : f.Stored c.lits.toList more) : Learns e f .learnt more
  | failed {err : SolverError} (full : NoRoom e.numVars err) : Learns e f (.failed err) []

/-- A conflict was analyzed, and the search went back to the level of what was learnt. Nothing but the
trail is different then, as far as faithfulness goes. -/
structure Reverts (F : List (List Lit)) (L : Ledger) (e g : Engine) (c : Learnt) : Prop where
  teaches : e.Teaches c
  asserts : ∃ l rest, (g.cancelTo c.level).Asserts c l rest
  faithful : (g.cancelTo c.level).Faithful F L (g.cancelTo c.level).trail.head
  trail : (g.cancelTo c.level).trail = e.trail.cancelTo c.level
  framed : e.Framed (g.cancelTo c.level)
  originals : (g.cancelTo c.level).originals = e.originals
  learnts : (g.cancelTo c.level).learnts = e.learnts

theorem Faithful.reverts {L : Ledger} {g : Engine} (h : e.Faithful F L m)
    (marks : ∀ k ∈ e.trail.marks, k ≤ m) {conflict : Conflict} (isConflict : e.IsConflict conflict)
    (positive : e.trail.level ≠ 0) (analyzed : e.analyze conflict = .ok (g, c)) :
    Reverts F L e g c := by
  obtain ⟨examined, unseen, teaches⟩ := analyze_teaches h.sound isConflict positive analyzed
  have kept := h.examined examined unseen
  have trail := examined.trail
  have lower : c.level < g.trail.level := trail ▸ teaches.lower
  exact
    { teaches
      asserts := teaches.asserts trail kept.sound.trail
      faithful := kept.cancelTo (trail.symm ▸ marks) lower
      trail := (trail_cancelTo lower).trans (congrArg (·.cancelTo c.level) trail)
      framed := examined.framed.trans (framed_cancelTo g c.level)
      originals := by
        rw [cancelTo_eq lower]
        exact examined.originals
      learnts := by
        rw [cancelTo_eq lower]
        exact examined.learnts }

/-- An engine is faithful after it has learnt from a conflict, or found no room to. -/
theorem Faithful.handleConflict (h : e.Faithful F { originals, learnts, pairs } m)
    (marks : ∀ k ∈ e.trail.marks, k ≤ m) {conflict : Conflict} (isConflict : e.IsConflict conflict)
    (positive : e.trail.level ≠ 0) {handled : Handled}
    (result : e.handleConflict conflict = .ok (handled, f)) :
    ∃ more, f.Faithful F { originals, learnts := learnts ++ more, pairs } f.trail.head ∧
      e.Scoped f ∧ f.originals = e.originals ∧ f.learnts.toList = e.learnts.toList ++ more ∧
      e.trail.Descends f.trail ∧ Learns e f handled more ∧
      (handled = .learnt →
        f.policy.conflictsBeforeReduction = e.policy.conflictsBeforeReduction - 1 ∧
        f.policy.reductionGap = e.policy.reductionGap) := by
  cases handleConflict_cases result with
  | full analyzed refused =>
    have back := h.reverts marks isConflict positive analyzed
    have full := addLearnt_error (back.teaches.size_le h.sound.trail) refused
    refine ⟨[], ?_, back.framed.toScoped, back.originals, ?_, ?_, .failed full, nofun⟩
    · rw [List.append_nil]
      exact back.faithful
    · rw [List.append_nil, back.learnts]
    · rw [back.trail]
      exact .back back.teaches.lower
  | @learnt g final c analyzed added =>
    have back := h.reverts marks isConflict positive analyzed
    have teaches := back.teaches
    obtain ⟨l, rest, asserts⟩ := back.asserts
    obtain ⟨more, why, faithful, framed, originals, learnts, stored, trail, implied⟩ :=
      asserts.addLearnt back.faithful (fun σ holds => teaches.entailed σ (h.upheld σ holds)) added
    have rescored := rescored_decayActivities final
    obtain ⟨policy, stats, noted, due, gap⟩ :=
      noteConflict_eq final.decayActivities c.lbd e.trail.size
    have all := back.framed.trans (framed.trans rescored.framed)
    rw [noted]
    refine ⟨more, (faithful.rescored rescored).books, { all.toScoped with }, ?_, ?_, ?_, ?_, ?_⟩
    · exact originals.trans back.originals
    · rw [← back.learnts]
      exact learnts
    · -- What is learnt is implied at its level, where its variable was not assigned before.
      change e.trail.Descends final.trail
      have unassigned := asserts.unassigned
      rw [back.trail, Trail.level_cancelTo teaches.lower] at implied
      rw [back.trail] at unassigned
      rw [trail, back.trail]
      exact .learnt teaches.lower unassigned implied
    · exact .learnt c teaches (stored.congr rfl rfl rfl)
    · exact fun _ => ⟨due.trans (by rw [all.paced.due]), gap.trans all.paced.gap⟩

end Engine

end Cdcl
