import Cdcl.Proofs.FrozenClauses

/-!
# Reduction keeps the formula

Learnt clauses come and go: removing one takes nothing away that the formula does not imply by
itself, and original clauses and facts are left alone.

## Main results

- `Settled.reduce`: a reduction at level zero keeps an engine faithful.
-/

namespace Cdcl

namespace Engine

variable {F : List (List Lit)} {L : Ledger} {m : Nat} {e f b : Engine} {id : ClauseId}
  {originals learnts rest : List ClauseId} {pairs : List (Lit × Lit)}

theorem rescored_modifyClause (e : Engine) (id : ClauseId) {f : Clause → Clause}
    (alike : ∀ c : Clause, c.Alike (f c)) : e.Rescored (e.modifyClause id f) :=
  { Rescored.refl e with
    slots := by simp [modifyClause, ClauseArena.modify]
    alike := clause_modifyClause_alike e id alike }

/-- Learnt clauses play no part in what is equivalent to the formula. -/
theorem Equivalent.relearn (h : e.Equivalent F { originals, learnts, pairs })
    (learnts' : List ClauseId) : e.Equivalent F { originals, learnts := learnts', pairs } :=
  h.keeps (.of_sub (fun _ fact => fact) (fun _ pair => pair) (fun _ inside => inside)
    fun _ _ _ inside => inside) h.upheld

theorem Equivalent.removeLearnt (h : e.Equivalent F L) (used : (e.clause id).isRemoved = false)
    (absent : id ∉ L.aside ++ L.originals) : (e.removeClause id).Equivalent F L :=
  h.keeps (keeps_removeClause used (fun _ pair => pair) (fun _ inside _ => inside)
    fun inside => absurd inside absent) fun σ holds => respected_removeClause used (h.upheld σ holds)

theorem Equivalent.rescored (h : e.Equivalent F L) (r : e.Rescored f) : f.Equivalent F L :=
  h.keeps (Extends.of_rescored r).keeps fun σ holds => r.respected (h.upheld σ holds)

theorem steady_freezeClause (e : Engine) (id : ClauseId) : e.Steady (e.freezeClause id) := by
  unfold Engine.freezeClause Engine.detachLater
  dsimp only [modifyStats, modifyTally, modifyWatches, modifyClause]
  exact ⟨⟨⟨rfl, rfl, rfl, rfl⟩, .refl _⟩, rfl, rfl, .refl _⟩

/-- In the course of a reduction that began with the engine `b`. -/
structure Reducing (F : List (List Lit)) (originals rest : List ClauseId) (pairs : List (Lit × Lit))
    (b : Engine) (r : ReductionState) : Prop where
  loose : r.engine.Loose { originals, learnts := r.kept.toList ++ rest, pairs } b.trail.head
  equivalent : r.engine.Equivalent F { originals, learnts := r.kept.toList ++ rest, pairs }
  steady : b.Steady r.engine
  thawing : r.thawing.toList.Sublist r.kept.toList
  frozen : ∀ x ∈ r.thawing, (r.engine.clause x).isFrozen = true

section Step

variable {r : ReductionState} (h : Reducing F originals (id :: rest) pairs b r)

include h

theorem Reducing.used : (r.engine.clause id).isRemoved = false ∧ (r.engine.clause id).isLearnt = true :=
  h.loose.listed.learnt id (by simp)

theorem Reducing.fresh : id ∉ r.kept.toList ++ rest :=
  (List.nodup_cons.mp (List.nodup_middle.mp h.loose.listed.learnts_nodup)).1

theorem Reducing.notOriginal : id ∉ originals := h.loose.listed.disjoint id (by simp)

theorem Reducing.thawing_ne {x : ClauseId} (member : x ∈ r.thawing) : x ≠ id := by
  rintro rfl
  exact h.fresh (List.mem_append_left _ (h.thawing.subset (Array.mem_toList_iff.mpr member)))

theorem Reducing.remove (zero : b.trail.level = 0) (stats : Statistics) :
    Reducing F originals rest pairs b { r with engine := { r.engine.removeClause id with stats } } := by
  have steady := r.engine.steady_removeClause id
  have level : r.engine.trail.level = 0 := h.steady.trail.level.trans zero
  have fewer : (r.kept.toList ++ rest).Sublist (r.kept.toList ++ id :: rest) :=
    (List.sublist_cons_self id rest).append_left _
  have counted : r.engine.Steady { r.engine.removeClause id with stats } :=
    ⟨{ steady.toFramed with }, steady.originals, steady.learnts,
      steady.trail⟩
  refine ⟨?_, ?_, h.steady.trans counted, h.thawing, fun x member => ?_⟩
  · have removed := (h.loose.weaken (.refl _) fewer).removeClause h.used.1 level
      h.notOriginal h.fresh (List.Sublist.refl []) (by simp)
    exact removed.books
  · exact ((h.equivalent.relearn _).removeLearnt h.used.1 h.notOriginal).books
  · change ((r.engine.removeClause id).clause x).isFrozen = true
    rw [clause_removeClause h.used.1 (h.thawing_ne member)]
    exact h.frozen x member

theorem Reducing.keep : Reducing F originals rest pairs b { r with kept := r.kept.push id } := by
  have shift : (r.kept.push id).toList ++ rest = r.kept.toList ++ id :: rest := by simp
  refine ⟨?_, ?_, h.steady, ?_, h.frozen⟩
  · rw [shift]
    exact h.loose
  · rw [shift]
    exact h.equivalent
  · rw [Array.toList_push]
    exact h.thawing.trans (List.sublist_append_left _ [id])

/-- The clause stays, and is to be put back to work. -/
theorem Reducing.wake (frozen : (r.engine.clause id).isFrozen = true) :
    Reducing F originals rest pairs b
      { r with kept := r.kept.push id, thawing := r.thawing.push id } :=
  { h.keep with
    thawing := by
      rw [Array.toList_push, Array.toList_push]
      exact h.thawing.append (.refl [id])
    frozen := by
      intro x member
      rcases Array.mem_push.mp member with old | rfl
      · exact h.frozen x old
      · exact frozen }

/-- A change to what is known of learnt clauses. -/
theorem Reducing.rescored (rescored : r.engine.Rescored f) :
    Reducing F originals (id :: rest) pairs b { r with engine := f } where
  loose := h.loose.rescored rescored
  equivalent := h.equivalent.rescored rescored
  steady := h.steady.trans
    ⟨rescored.framed, rescored.originals, rescored.learnts, rescored.trail ▸ .refl _⟩
  thawing := h.thawing
  frozen := fun x member => (rescored.alike x).frozen.trans (h.frozen x member)

/-- The clause stays, and is taken out of propagation. -/
theorem Reducing.freeze
    (noReason : ∀ l ∈ r.engine.trail.lits, r.engine.trail.reason l.var ≠ .clause id) :
    Reducing F originals rest pairs b
      { r with engine := r.engine.freezeClause id, kept := r.kept.push id } := by
  have shift : (r.kept.push id).toList ++ rest = r.kept.toList ++ id :: rest := by simp
  obtain ⟨used, learnt⟩ := h.used
  have frozen := h.loose.freeze used learnt nofun h.notOriginal noReason
  have alike := alike_frozen (e := r.engine) used
  have steady := steady_freezeClause r.engine id
  refine ⟨?_, ?_, h.steady.trans steady, ?_, fun x member => ?_⟩
  · rw [shift]
    exact frozen.books
  · rw [shift]
    exact (h.equivalent.freeze used).books
  · rw [Array.toList_push]
    exact h.thawing.trans (List.sublist_append_left _ [id])
  · change ((r.engine.modifyClause id (·.setFrozen true)).clause x).isFrozen = true
    rw [(alike x).2.2.2 (h.thawing_ne member)]
    exact h.frozen x member

/-- Carrying out the verdict on a clause. -/
theorem Reducing.step (zero : b.trail.level = 0) (half median i : Nat) (deviation : Float) :
    Reducing F originals rest pairs b (reduceClause half median deviation r (id, i)) := by
  unfold reduceClause
  dsimp only
  split
  · exact h.remove zero _
  next freeze =>
    have noReason : ∀ l ∈ r.engine.trail.lits, r.engine.trail.reason l.var ≠ .clause id := by
      intro l member reason
      have locked := (h.loose.sound.isLocked_of_reason member reason).2
      simp [verdict, locked] at freeze
    have counted := rescored_modifyClause r.engine id fun c =>
      c.alike_setFreezeCount (c.freezeCount + 1)
    have next := h.rescored counted
    split
    · exact next.keep
    next => exact next.freeze (counted.trail.symm ▸ noReason)
  · split
    next frozen => exact h.wake frozen
    next => exact h.keep

end Step

theorem Reducing.foldl (zero : b.trail.level = 0) (half median : Nat) (deviation : Float)
    (entries : List (ClauseId × Nat)) {r : ReductionState}
    (h : Reducing F originals (entries.map Prod.fst ++ rest) pairs b r) :
    Reducing F originals rest pairs b
      (entries.foldl (reduceClause half median deviation) r) := by
  induction entries generalizing r with
  | nil => exact h
  | cons entry entries ih =>
    rw [List.foldl_cons]
    exact ih (h.step zero half median entry.2 deviation)

/-- Distinct frozen clauses wait to be put back to work at level zero. -/
structure Thawable (L : Ledger) (m : Nat) (ids : List ClauseId) (e : Engine) : Prop where
  loose : e.Loose L m
  unwatched : e.FrozenUnwatched
  among : ∀ x ∈ ids, x ∈ L.learnts
  distinct : ids.Nodup
  frozen : ∀ x ∈ ids, (e.clause x).isFrozen = true
  zero : e.trail.level = 0
  le : m ≤ e.trail.lits.size

namespace Thawable

variable {ids rest : List ClauseId}

theorem next (h : Thawable L m (id :: ids) e) :
    (e.thawClause id).Loose L m ∧ (e.thawClause id).FrozenUnwatched ∧ e.Extends (e.thawClause id) ∧
      (e.thawClause id).trail.head = e.trail.head ∧
      ∀ x, x ≠ id → (e.thawClause id).clause x = e.clause x :=
  thawClause_spec h.loose h.unwatched (h.among id List.mem_cons_self) (h.frozen id List.mem_cons_self)
    h.zero h.le

theorem step (h : Thawable L m (id :: ids) e) : Thawable L m ids (e.thawClause id) := by
  obtain ⟨fresh, distinct⟩ := List.nodup_cons.mp h.distinct
  obtain ⟨loose, unwatched, grown, -, other⟩ := h.next
  exact ⟨loose, unwatched, fun x member => h.among x (List.mem_cons_of_mem id member), distinct,
    fun x member => by
      rw [other x fun same => fresh (same ▸ member)]
      exact h.frozen x (List.mem_cons_of_mem id member),
    grown.level.trans h.zero, Nat.le_trans h.le grown.size_le⟩

/-- Some of the clauses are put back to work. -/
theorem foldl (h : Thawable L m (ids ++ rest) e) :
    Thawable L m rest (ids.foldl thawClause e) ∧ e.Extends (ids.foldl thawClause e) ∧
      (ids.foldl thawClause e).trail.head = e.trail.head ∧
      ∀ x, x ∉ ids → (ids.foldl thawClause e).clause x = e.clause x := by
  induction ids generalizing e with
  | nil => exact ⟨h, .refl e, rfl, fun _ _ => rfl⟩
  | cons id ids ih =>
    rw [List.cons_append] at h
    obtain ⟨-, -, grown, head, others⟩ := h.next
    obtain ⟨ready, grown', head', others'⟩ := ih h.step
    refine ⟨ready, grown.trans grown', head'.trans head, fun x absent => ?_⟩
    rw [List.mem_cons, not_or] at absent
    exact (others' x absent.2).trans (others x absent.1)

/-- All of the clauses are put back to work. -/
theorem thawed (h : Thawable L m ids e) :
    Thawable L m [] (ids.foldl thawClause e) ∧ e.Extends (ids.foldl thawClause e) ∧
      (ids.foldl thawClause e).trail.head = e.trail.head := by
  rw [← List.append_nil ids] at h
  obtain ⟨ready, grown, head, -⟩ := h.foldl
  exact ⟨ready, grown, head⟩

end Thawable

theorem Loose.permute (h : e.Loose { originals, learnts, pairs } m) {learnts' : List ClauseId}
    (perm : learnts'.Perm learnts) : e.Loose { originals, learnts := learnts', pairs } m :=
  { h with
    listed :=
      { h.listed with
        learnts_nodup := perm.nodup_iff.mpr h.listed.learnts_nodup
        disjoint := fun x member => h.listed.disjoint x (perm.mem_iff.mp member)
        learnt := fun x member => h.listed.learnt x (perm.mem_iff.mp member) } }

/-- At most the smallest deviation so far is replaced. -/
theorem exists_deviation_eq (p : Policy) (moved assigned : Nat) :
    ∃ minDeviation, (p.deviation moved assigned).2 = { p with minDeviation } := by
  unfold Policy.deviation
  dsimp only
  generalize (if assigned = 0 then p.minDeviation else Float.ofNat moved / Float.ofNat assigned) = raw
  by_cases less : p.minDeviation < raw
  · rw [if_pos less]
    exact ⟨_, rfl⟩
  · rw [if_neg less]
    exact ⟨_, rfl⟩

theorem paced_deviation (p : Policy) (moved assigned : Nat) :
    p.Paced (p.deviation moved assigned).2 := by
  obtain ⟨minDeviation, same⟩ := exists_deviation_eq p moved assigned
  rw [same]
  exact ⟨rfl, rfl, rfl⟩

/-- When a reduction begins, the older clauses are ranked and the recent ones wait at the end. -/
theorem Faithful.startReduction (h : e.Faithful F (e.ledger pairs) e.trail.head) (rescored : e.Rescored f)
    (n : Nat) :
    Reducing F e.originals.toList
      ((rank f.arena (e.learnts.toList.take n)).zipIdx.map Prod.fst ++ e.learnts.toList.drop n)
      pairs e { engine := f } := by
  have started := h.rescored rescored
  have ranking : (rank f.arena (e.learnts.toList.take n)).Perm (e.learnts.toList.take n) := perm_sortBy _ _
  have perm : (rank f.arena (e.learnts.toList.take n) ++ e.learnts.toList.drop n).Perm e.learnts.toList := by
    conv_rhs => rw [← List.take_append_drop n e.learnts.toList]
    exact ranking.append_right _
  rw [List.zipIdx_map_fst]
  exact ⟨started.toLoose.permute perm, started.toEquivalent.relearn _,
    ⟨rescored.framed, rescored.originals, rescored.learnts, rescored.trail ▸ .refl _⟩, .refl _, nofun⟩

/-- The clauses that survive a reduction, which began with the engine `b`, are listed again. Some of
them are still to be put back to work. -/
structure Relisted (F : List (List Lit)) (pairs : List (Lit × Lit)) (thawing : Array ClauseId)
    (b e : Engine) : Prop where
  loose : e.Loose (e.ledger pairs) b.trail.head
  equivalent : e.Equivalent F (e.ledger pairs)
  framed : b.Framed e
  same : b.trail.Same e.trail
  among : thawing.toList.Sublist e.learnts.toList
  frozen : ∀ x ∈ thawing, (e.clause x).isFrozen = true

theorem Reducing.relist {r : ReductionState} {recents : List ClauseId}
    (h : Reducing F b.originals.toList recents pairs b r) :
    Relisted F pairs r.thawing b { r.engine with learnts := r.kept ++ recents.toArray } := by
  have ledger : ({ r.engine with learnts := r.kept ++ recents.toArray } : Engine).ledger pairs =
      { originals := b.originals.toList, learnts := r.kept.toList ++ recents, pairs } := by
    simp [Engine.ledger, h.steady.originals]
  have kept : r.kept.toList.Sublist (r.kept ++ recents.toArray).toList := by simp
  refine ⟨?_, ?_, { h.steady.toFramed with }, h.steady.trail, h.thawing.trans kept, h.frozen⟩
  · rw [ledger]
    exact h.loose.books
  · rw [ledger]
    exact h.equivalent.books

theorem Relisted.thawable {pairs : List (Lit × Lit)} {thawing : Array ClauseId} {b : Engine}
    (h : Relisted F pairs thawing b e) (zero : b.trail.level = 0) :
    Thawable (e.ledger pairs) b.trail.head thawing.toList (e.modifyWatches (·.cleanAll e.arena)) := by
  obtain ⟨loose, unwatched, -⟩ := h.loose.cleanAll
  have head : (e.modifyWatches (·.cleanAll e.arena)).trail.head = b.trail.head := h.same.head
  exact ⟨loose, unwatched, fun x member => h.among.subset member,
    h.loose.listed.learnts_nodup.sublist h.among,
    fun x member => h.frozen x (Array.mem_toList_iff.mp member), h.same.level.trans zero,
    head ▸ loose.sound.trail.head_le⟩

/-- Once the watch lists are cleaned, the clauses that are thawed are put back to work, and frozen
clauses are watched anew. -/
theorem Relisted.rewatch {thawing : Array ClauseId} {g : Engine} (h : Relisted F pairs thawing b g)
    (zero : b.trail.level = 0) {arena : ClauseArena} (current : g.arena = arena)
    (rewatched : (thawing.foldl thawClause (g.modifyWatches (·.cleanAll arena))).rewatchFrozen = f) :
    f.Faithful F (f.ledger pairs) f.trail.head ∧ b.Framed f ∧ f.trail.level = 0 ∧
      b.trail.facts <+: f.trail.facts := by
  subst current
  obtain ⟨-, -, grown⟩ := h.loose.cleanAll
  have head : (g.modifyWatches (·.cleanAll g.arena)).trail.head = b.trail.head := h.same.head
  obtain ⟨ready, grown', head'⟩ := (h.thawable zero).thawed
  rw [Array.foldl_toList] at ready grown' head'
  generalize thawing.foldl thawClause (g.modifyWatches (·.cleanAll g.arena)) = t
    at ready grown' head' rewatched
  have loose := ready.loose
  have unwatched := ready.unwatched
  have all := grown.trans grown'
  have equivalent := h.equivalent.extends all h.loose.sound.trail loose.sound
  obtain ⟨regular, lists, same⟩ := loose.rewatchFrozen unwatched fun x member => by
    rw [← Array.mem_toList_iff, all.learnts] at member
    exact member
  -- Nothing but the lists of frozen clauses is built anew.
  rw [rewatched] at regular same
  subst same
  refine ⟨?_, h.framed.trans (all.framed.trans ⟨⟨rfl, rfl, rfl, rfl⟩, .refl _⟩),
    all.level.trans (h.same.level.trans zero), h.same.facts ▸ all.prefix_facts⟩
  have ledger : t.ledger pairs = g.ledger pairs := by
    rw [Engine.ledger, Engine.ledger, all.originals, all.learnts]
  change Faithful F (t.ledger pairs) t.trail.head _
  rw [ledger, head'.trans head]
  exact ⟨regular, equivalent.keeps (.of_same (fun _ fact => fact) rfl)
    fun σ holds => { equivalent.upheld σ holds with }⟩

/-! ### The course of a reduction -/

/-- The engine at the start of a reduction, and how much the phases moved. -/
def appraised (e : Engine) : Float × Engine :=
  (({ e with recentLearnts := 0 } : Engine).modifyStats fun s =>
    { s with reductions := s.reductions + 1 }).phaseDeviation

/-- The learnt clauses that a reduction decides about, from best to worst. -/
def ranked (e : Engine) : List ClauseId :=
  rank e.appraised.2.arena (e.learnts.toList.take (e.learnts.toList.length - e.recentLearnts))

/-- A reduction when all verdicts are carried out. -/
def judged (e : Engine) : ReductionState :=
  e.ranked.zipIdx.foldl (reduceClause (e.ranked.length / 2) e.lbdMedian e.appraised.1)
    { engine := e.appraised.2 }

/-- The engine with the clauses listed that survive a reduction. -/
def survived (e : Engine) : Engine :=
  { e.judged.engine with
    learnts := e.judged.kept ++ (e.learnts.toList.drop (e.learnts.toList.length - e.recentLearnts)).toArray }

/-- The engine when the thawed clauses are back at work. -/
def awakened (e : Engine) : Engine :=
  e.judged.thawing.foldl thawClause (e.survived.modifyWatches (·.cleanAll e.survived.arena))

theorem reduce_eq (e : Engine) : e.reduce =
    { e.awakened.rewatchFrozen with
      policy := e.awakened.rewatchFrozen.policy.noteReduction e.awakened.rewatchFrozen.opts } := rfl

theorem Settled.survived (h : e.Settled F) (zero : e.trail.level = 0) :
    ∃ pairs, Relisted F pairs e.judged.thawing e e.survived := by
  obtain ⟨pairs, faithful⟩ := h.faithful
  have rescored : e.Rescored e.appraised.2 :=
    { Rescored.refl e with heap := rfl, decision := rfl, paced := paced_deviation .. }
  have started := faithful.startReduction rescored (e.learnts.toList.length - e.recentLearnts)
  exact ⟨pairs, (started.foldl zero (e.ranked.length / 2) e.lbdMedian e.appraised.1).relist⟩

theorem Settled.thawable (h : e.Settled F) (zero : e.trail.level = 0) :
    ∃ pairs, Thawable (e.survived.ledger pairs) e.trail.head e.judged.thawing.toList
      (e.survived.modifyWatches (·.cleanAll e.survived.arena)) := by
  obtain ⟨pairs, relisted⟩ := h.survived zero
  exact ⟨pairs, relisted.thawable zero⟩

/-- A reduction at level zero keeps an engine faithful; there may be new facts to propagate. The next
reduction is due after a longer gap. -/
theorem Settled.reduce (h : e.Settled F) (zero : e.trail.level = 0) :
    e.reduce.Settled F ∧ e.Scoped e.reduce ∧ e.reduce.trail.level = 0 ∧
      ∃ p, e.policy.Paced p ∧ e.reduce.policy = p.noteReduction e.opts := by
  obtain ⟨pairs, relisted⟩ := h.survived zero
  obtain ⟨whole, framed, level, -⟩ := relisted.rewatch zero rfl (rfl : e.awakened.rewatchFrozen = _)
  rw [reduce_eq]
  generalize e.awakened.rewatchFrozen = f at *
  exact ⟨⟨⟨pairs, whole.books⟩, framed.ok.trans h.ok⟩, { framed.toScoped with }, level,
    f.policy, framed.paced, by rw [framed.opts]⟩

end Engine

end Cdcl
