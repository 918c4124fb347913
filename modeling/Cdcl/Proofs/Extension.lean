import Cdcl.Proofs.Candidates
import Cdcl.Proofs.EngineInvariant

/-!
# What propagation may change

`Engine.Extends` relates an engine to a later one that has only propagated: implied literals are
appended to the trail, literals change places within clauses, frozen clauses may be put back to
work. The steps that do so are given here with what each of them keeps.
-/

namespace Cdcl

/-- The same clause later on: its literals may have changed places, and it may have been thawed. -/
structure Clause.Continues (c d : Clause) : Prop where
  lits : d.lits.toList.Perm c.lits.toList
  removed : d.isRemoved = c.isRemoved
  learnt : d.isLearnt = c.isLearnt
  frozen : d.isFrozen = true → c.isFrozen = true
  relocated : d.relocated = c.relocated

namespace Clause

theorem Reordered.continues {c d : Clause} (h : c.Reordered d) : c.Continues d :=
  ⟨h.lits, h.removed, h.learnt, fun frozen => h.frozen ▸ frozen, h.relocated⟩

theorem Alike.continues {c d : Clause} (h : c.Alike d) : c.Continues d := h.reordered.continues

theorem Continues.refl (c : Clause) : c.Continues c := (Reordered.refl c).continues

theorem Continues.trans {a b c : Clause} (h : a.Continues b) (g : b.Continues c) :
    a.Continues c :=
  ⟨g.lits.trans h.lits, g.removed.trans h.removed, g.learnt.trans h.learnt,
    fun frozen => h.frozen (g.frozen frozen), g.relocated.trans h.relocated⟩

theorem Continues.mem {c d : Clause} (h : c.Continues d) (l : Lit) : l ∈ d.lits ↔ l ∈ c.lits := by
  rw [← Array.mem_toList_iff, ← Array.mem_toList_iff]
  exact h.lits.mem_iff

theorem Continues.attached {c d : Clause} (h : c.Continues d) (attached : c.isAttached = true) :
    d.isAttached = true := by
  rw [Engine.isAttached_iff] at *
  refine ⟨h.removed.trans attached.1, ?_⟩
  cases frozen : d.isFrozen with
  | false => rfl
  | true => rw [h.frozen frozen] at attached; cases attached.2

theorem Continues.satisfied {c d : Clause} (h : c.Continues d) {σ : Valuation} :
    σ.satisfiesClause d.lits.toList ↔ σ.satisfiesClause c.lits.toList :=
  exists_congr fun _ => and_congr_left fun _ => h.lits.mem_iff

end Clause

namespace Engine

/-- A clause that is changed lives on, and so do all others. -/
theorem continues_modifyClause {e : Engine} {id : ClauseId} (used : (e.clause id).isRemoved = false) {g : Clause → Clause}
    (continues : (e.clause id).Continues (g (e.clause id))) (other : ClauseId) :
    (e.clause other).Continues ((e.modifyClause id g).clause other) := by
  rw [clause_modifyClause used]
  split
  next same => exact same ▸ continues
  next => exact .refl _

structure Extends (e f : Engine) : Prop where
  size_le : e.trail.lits.size ≤ f.trail.lits.size
  lits : ∀ i, i < e.trail.lits.size → f.trail.lits[i]? = e.trail.lits[i]?
  marks : f.trail.marks = e.trail.marks
  reasons : ∀ l ∈ e.trail.lits, f.trail.reason l.var = e.trail.reason l.var
  implied : ∀ {i : Nat} {l : Lit}, e.trail.lits.size ≤ i → f.trail.lits[i]? = some l →
    f.trail.reason l.var ≠ .decision
  clauses : ∀ id, (e.clause id).Continues (f.clause id)
  binary : f.watches.binary = e.watches.binary
  heap : f.branching.heap = e.branching.heap
  decision : f.branching.decision = e.branching.decision
  opts : f.opts = e.opts
  numVars : f.numVars = e.numVars
  ok : f.ok = e.ok
  originals : f.originals = e.originals
  learnts : f.learnts = e.learnts
  paced : e.policy.Paced f.policy

namespace Extends

variable {e f g : Engine}

theorem refl (e : Engine) : e.Extends e where
  size_le := Nat.le_refl _
  lits := fun _ _ => rfl
  marks := rfl
  reasons := fun _ _ => rfl
  implied := fun le at_i => absurd (Array.getElem?_eq_some_iff.mp at_i).1 (by omega)
  clauses := fun _ => .refl _
  binary := rfl
  heap := rfl
  decision := rfl
  opts := rfl
  numVars := rfl
  ok := rfl
  originals := rfl
  learnts := rfl
  paced := .refl _

theorem mem (h : e.Extends f) {l : Lit} (member : l ∈ e.trail.lits) : l ∈ f.trail.lits := by
  obtain ⟨i, at_i⟩ := Array.mem_iff_getElem?.mp member
  refine Array.mem_iff_getElem?.mpr ⟨i, ?_⟩
  rw [h.lits i (Array.getElem?_eq_some_iff.mp at_i).1, at_i]

theorem trans (h : e.Extends f) (k : f.Extends g) : e.Extends g where
  size_le := Nat.le_trans h.size_le k.size_le
  lits := fun i inside => by
    rw [k.lits i (Nat.lt_of_lt_of_le inside h.size_le), h.lits i inside]
  marks := k.marks.trans h.marks
  reasons := fun l member => by rw [k.reasons l (h.mem member), h.reasons l member]
  implied := by
    intro i l le at_i
    by_cases new : f.trail.lits.size ≤ i
    · exact k.implied new at_i
    · rw [k.lits i (by omega)] at at_i
      rw [k.reasons l (Array.mem_of_getElem? at_i)]
      exact h.implied le at_i
  clauses := fun id => (h.clauses id).trans (k.clauses id)
  binary := k.binary.trans h.binary
  heap := k.heap.trans h.heap
  decision := k.decision.trans h.decision
  opts := k.opts.trans h.opts
  numVars := k.numVars.trans h.numVars
  ok := k.ok.trans h.ok
  originals := k.originals.trans h.originals
  learnts := k.learnts.trans h.learnts
  paced := h.paced.trans k.paced

theorem level (h : e.Extends f) : f.trail.level = e.trail.level := by
  rw [Trail.level, Trail.level, h.marks]

theorem levelAt (h : e.Extends f) (i : Nat) : f.trail.levelAt i = e.trail.levelAt i := by
  rw [Trail.levelAt, Trail.levelAt, h.marks]

theorem before (h : e.Extends f) {i : Nat} (le : i ≤ e.trail.lits.size) {l : Lit} :
    f.trail.Before i l ↔ e.trail.Before i l := by
  refine exists_congr fun j => and_congr_right fun below => ?_
  rw [h.lits j (by omega)]

theorem startAbove (h : e.Extends f) {k : Nat} (below : k < e.trail.level) :
    f.trail.startAbove k = e.trail.startAbove k := by
  rw [Trail.startAbove_of_lt below, Trail.startAbove_of_lt (by rw [h.marks]; exact below)]
  simp only [h.marks]
  rfl

theorem prefix_lits (h : e.Extends f) : e.trail.lits.toList <+: f.trail.lits.toList := by
  refine List.prefix_iff_getElem?.mpr fun i inside => ?_
  rw [Array.length_toList] at inside
  rw [Array.getElem?_toList, h.lits i inside, Array.getElem?_eq_getElem inside, Array.getElem_toList]

theorem prefix_facts (h : e.Extends f) : e.trail.facts <+: f.trail.facts :=
  Trail.prefix_facts h.marks h.prefix_lits

theorem facts_subset (h : e.Extends f) {l : Lit} (fact : l ∈ e.trail.facts) :
    l ∈ f.trail.facts := h.prefix_facts.subset fact

/-- Above level zero no fact is added. -/
theorem facts_eq (h : e.Extends f) {n : Nat} (coherent : e.trail.Coherent n)
    (above : e.trail.level ≠ 0) {l : Lit} : l ∈ f.trail.facts ↔ l ∈ e.trail.facts := by
  rw [Trail.Coherent.mem_facts_iff, Trail.Coherent.mem_facts_iff, h.startAbove (by omega)]
  exact h.before (coherent.startAbove_le 0)

theorem isTrue (h : e.Extends f) {n m : Nat} (before : e.trail.Coherent n)
    (after : f.trail.Coherent m) {l : Lit} (holds : e.trail.isTrue l = true) :
    f.trail.isTrue l = true :=
  (after.isTrue_iff l).mpr (h.mem ((before.isTrue_iff l).mp holds))

theorem levelOf (h : e.Extends f) {n m : Nat} (before : e.trail.Coherent n)
    (after : f.trail.Coherent m) {l : Lit} (member : l ∈ e.trail.lits) :
    f.trail.levelOf l.var = e.trail.levelOf l.var := by
  obtain ⟨i, at_i⟩ := Array.mem_iff_getElem?.mp member
  have inside := (Array.getElem?_eq_some_iff.mp at_i).1
  rw [before.level_eq at_i, after.level_eq ((h.lits i inside).trans at_i), h.levelAt]

theorem latest (h : e.Extends f) {n m : Nat} (before : e.trail.Coherent n)
    (after : f.trail.Coherent m) {l : Lit} (latest : e.trail.Latest l) : f.trail.Latest l where
  mem := h.mem latest.mem
  level := by rw [h.levelOf before after latest.mem, latest.level, h.level]

/-- Nothing but the clauses and the lists of longer ones changes. -/
theorem of_clauses {arena : ClauseArena} {watches : Watches}
    (clauses : ∀ id, (e.clause id).Continues (arena.get id))
    (binary : watches.binary = e.watches.binary) : e.Extends { e with arena, watches } :=
  { refl e with clauses, binary }

/-- A clause is put back to work with its literals in another order. -/
theorem thaw {id : ClauseId} (used : (e.clause id).isRemoved = false) {g : Clause → Clause}
    (continues : (e.clause id).Continues (g (e.clause id))) :
    e.Extends ((e.modifyClause id g).attach id) :=
  of_clauses (continues_modifyClause used continues) rfl

theorem of_rescored (h : e.Rescored f) : e.Extends f where
  size_le := Nat.le_of_eq (congrArg (·.lits.size) h.trail.symm)
  lits := fun i _ => by rw [h.trail]
  marks := by rw [h.trail]
  reasons := fun l _ => by rw [h.trail]
  implied := by
    intro i l le at_i
    rw [h.trail] at at_i
    have inside := (Array.getElem?_eq_some_iff.mp at_i).1
    omega
  clauses := fun id => (h.alike id).continues
  binary := by rw [h.watches]
  heap := h.heap
  decision := h.decision
  opts := h.opts
  numVars := h.numVars
  ok := h.ok
  originals := h.originals
  learnts := h.learnts
  paced := h.paced

/-- What is stored stays satisfied: new facts are implied. -/
theorem respected {n : Nat} {aside : List ClauseId} (h : e.Extends f)
    (coherent : e.trail.Coherent n) (sound : f.Sound aside) {σ : Valuation}
    (old : e.Respected σ) : f.Respected σ := by
  have upheld : f.Upheld σ := by
    refine ⟨fun id used => ?_, h.binary ▸ old.binary⟩
    rw [(h.clauses id).satisfied]
    exact old.clauses id ((h.clauses id).removed ▸ used)
  refine ⟨upheld, fun l fact => ?_⟩
  by_cases zero : e.trail.level = 0
  · -- All literals are facts; by induction along the trail, their reasons imply the new ones.
    have all : ∀ (i : Nat) (l : Lit), f.trail.lits[i]? = some l → σ.satisfiesLit l := by
      intro i
      induction i using Nat.strongRecOn with
      | ind i ih =>
        intro l at_i
        by_cases inside : i < e.trail.lits.size
        · rw [h.lits i inside] at at_i
          refine old.facts l ((Trail.Coherent.mem_facts_of_level_zero zero).mpr ?_)
          exact Array.mem_of_getElem? at_i
        · refine sound.implied at_i (h.implied (by omega) at_i) upheld ?_
          rintro m ⟨j, below, at_j⟩
          exact ih j below m at_j
    obtain ⟨i, _, at_i⟩ := Trail.Coherent.mem_facts_iff.mp fact
    exact all i l at_i
  · exact old.facts l ((h.facts_eq coherent zero).mp fact)

end Extends

/-! ### Rearranging clauses -/

/-- Clauses may be rearranged and thawed, as long as no reason loses its first literal and the watch
lists follow. -/
theorem Sound.rearranged {aside : List ClauseId} {e : Engine} (h : e.Sound aside)
    {arena : ClauseArena} {watches : Watches} (binary : watches.binary = e.watches.binary)
    (inside : ∀ p, ∀ w ∈ watches.long.get p, w.clause.slot < arena.clauses.size)
    (clauses : ∀ id, (e.clause id).Continues (arena.get id))
    (first : ∀ id, (e.clause id).isRemoved = false →
      (arena.get id).lit 0 = (e.clause id).lit 0 ∨ e.trail.isTrue ((e.clause id).lit 0) = false)
    (tracked : watches.Tracks arena.get aside)
    (blockers : ∀ p, ∀ w ∈ watches.long.get p, (arena.get w.clause).isAttached = true →
      w.blocker ∈ (arena.get w.clause).lits ∨ w.blocker.neg ∈ e.trail.facts)
    (blank : watches.Blank) : ({ e with arena, watches } : Engine).Sound aside where
  trail := h.trail
  justified := by
    intro i l at_i
    refine (h.justified at_i).transfer (.refl _ _) (fun _ _ => (binary.symm ▸ id)) ?_
    intro id _ attached head
    have used := isRemoved_of_isAttached attached
    have holds : e.trail.isTrue l = true :=
      (h.trail.isTrue_iff l).mpr (Array.mem_of_getElem? at_i)
    -- A reason has its literal first, which is true, and a true literal stays first.
    have stays : (arena.get id).lit 0 = (e.clause id).lit 0 := by
      rcases first id used with stays | fails
      · exact stays
      · rw [head, holds] at fails
        cases fails
    have size := (h.proper id used).size
    exact ⟨(clauses id).attached attached, stays.trans head,
      fun q => (Clause.tail_perm (clauses id).lits (by omega) stays).mem_iff⟩
  proper := by
    intro id used
    have old := (clauses id).removed.symm.trans used
    exact (h.proper id old).of_perm (clauses id).lits (clauses id).relocated
  binary_bounded := by
    dsimp only
    rw [binary]
    exact h.binary_bounded
  tracked := tracked
  inside := inside
  blockers := blockers
  blank := blank
  unseen := h.unseen

/-- Frozen clauses stay apart if clauses are only rearranged or thawed. -/
theorem FrozenApart.rearranged {e : Engine} (h : e.FrozenApart) {arena : ClauseArena}
    {watches : Watches} (clauses : ∀ id, (e.clause id).Continues (arena.get id))
    (entries : ∀ id, (arena.get id).isRemoved = false → (arena.get id).isFrozen = true → ∀ p,
      entriesOf id (watches.long.get p) = entriesOf id (e.watches.long.get p))
    (frozen : watches.frozen = e.watches.frozen) :
    ({ e with arena, watches } : Engine).FrozenApart where
  unwatched := by
    intro id used isFrozen p
    refine (entries id used isFrozen p).trans ?_
    exact h.unwatched id ((clauses id).removed.symm.trans used) ((clauses id).frozen isFrozen) p
  entries := by
    intro p w member used isFrozen
    dsimp only at member
    rw [frozen] at member
    have old := h.entries p w member ((clauses w.clause).removed.symm.trans used)
      ((clauses w.clause).frozen isFrozen)
    exact ⟨((clauses w.clause).mem _).mpr old.1, ((clauses w.clause).mem _).mpr old.2⟩

/-! ### Assigning -/

/-- Assigning a literal that is explained keeps an engine sound. -/
theorem Sound.assign {aside : List ClauseId} {e : Engine} (h : e.Sound aside) {l : Lit}
    {why : Reason} (unassigned : e.trail.value l.var = .undecided)
    (bound : l.var.index < e.numVars) (explained : e.Explains why e.trail.lits.size l) :
    (e.assign l why).Sound aside where
  trail := h.trail.assign why unassigned bound
  justified := by
    intro i m at_i
    change (e.trail.assign l why).lits[i]? = some m at at_i
    change (e.assign l why).Explains ((e.trail.assign l why).reason m.var) i m
    have keep (before : Reason) (le : i ≤ e.trail.lits.size) (x : Lit)
        (old : e.Explains before i x) : (e.assign l why).Explains before i x :=
      old.transfer (e.trail.agreesTo_assign l why le) (fun _ _ => id)
        fun _ _ attached first => ⟨attached, first, fun _ => .rfl⟩
    rw [Trail.getElem?_assign] at at_i
    rw [Trail.reason_assign]
    split at at_i
    next atEnd =>
      cases at_i
      rw [if_pos rfl]
      exact keep why (Nat.le_of_eq atEnd) l (atEnd ▸ explained)
    next =>
      rw [if_neg (h.trail.var_ne unassigned (Array.mem_of_getElem? at_i)).symm]
      exact keep _ (Nat.le_of_lt (Array.getElem?_eq_some_iff.mp at_i).1) m (h.justified at_i)
  proper := h.proper
  binary_bounded := h.binary_bounded
  tracked := h.tracked
  inside := h.inside
  blockers := by
    intro p w member attached
    exact (h.blockers p w member attached).imp_right Trail.facts_assign_subset
  blank := h.blank
  unseen := h.unseen

theorem Extends.assign (e : Engine) {l : Lit} {why : Reason}
    (unassigned : ∀ m ∈ e.trail.lits, m.var ≠ l.var) (implied : why ≠ .decision) :
    e.Extends (e.assign l why) :=
  { Extends.refl e with
    size_le := by
      change e.trail.lits.size ≤ (e.trail.lits.push l).size
      simp
    lits := fun i inside => by
      change (e.trail.assign l why).lits[i]? = _
      rw [Trail.getElem?_assign, if_neg (by omega)]
    reasons := fun m member => by
      change (e.trail.assign l why).reason m.var = _
      rw [Trail.reason_assign, if_neg (unassigned m member).symm]
    implied := by
      intro i m le at_i
      change (e.trail.assign l why).lits[i]? = some m at at_i
      change (e.trail.assign l why).reason m.var ≠ _
      rw [Trail.getElem?_assign] at at_i
      split at at_i
      · cases at_i
        rw [Trail.reason_assign, if_pos rfl]
        exact implied
      · have inside := (Array.getElem?_eq_some_iff.mp at_i).1
        omega
    heap := Branching.heap_noteAssigned ..
    decision := Branching.decision_noteAssigned .. }

end Engine

end Cdcl
