import Cdcl.Proofs.FrozenClauses
import Cdcl.Proofs.Relocation

/-!
# Compaction

Compaction gives the clauses in use new handles, and changes nothing else that a search relies on.

## Main results

- `Sound.compact_spec`: a compaction visits all holders, unless there is no room for the clauses in use.
- `Recalls.compact`: an engine stays faithful.
-/

namespace Cdcl

namespace Watches

open ClauseArena

variable {w : Watches} {new : ClauseId → ClauseId}

theorem long_rename (blank : w.Blank) (p : Lit) :
    (w.rename new).long.get p = (w.long.get p).map (renameEntry new) := by
  rw [rename, DenseMap.get_mapValues _ (by rw [blank.long, Array.map_empty])]

theorem frozen_rename (blank : w.Blank) (p : Lit) :
    (w.rename new).frozen.get p = (w.frozen.get p).map (renameEntry new) := by
  rw [rename, DenseMap.get_mapValues _ (by rw [blank.frozen, Array.map_empty])]

theorem frozen_cleanFrozen (blank : w.Blank) (arena : ClauseArena) (p : Lit) :
    (w.cleanFrozen arena).frozen.get p = (w.frozen.get p).filter (!isFrozenStale arena ·) := by
  rw [cleanFrozen, DenseMap.get_mapValues _ (by rw [blank.frozen]; rfl)]

theorem entriesOf_renamed {ids : List ClauseId} {ws : Array Watcher} (held : ∀ x ∈ ws, x.clause ∈ ids)
    {id : ClauseId} : entriesOf (newId ids id) (ws.map (renameEntry (newId ids))) = entriesOf id ws := by
  unfold entriesOf
  rw [Array.toList_map, List.countP_map]
  refine List.countP_congr fun x member => ?_
  simp only [Function.comp_apply, beq_iff_eq, renameEntry]
  exact ⟨Moved.inj (held x (Array.mem_toList_iff.mp member)), fun same => by rw [same]⟩

end Watches

/-- The ledger under new handles. -/
def Ledger.rename (new : ClauseId → ClauseId) (L : Ledger) : Ledger :=
  { L with originals := L.originals.map new, learnts := L.learnts.map new, aside := L.aside.map new }

namespace Engine

open ClauseArena

variable {F : List (List Lit)} {L : Ledger} {m : Nat} {e f : Engine} {ids : List ClauseId}
  {b : ClauseArena} {id : ClauseId} {aside : List ClauseId}

/-- The engine with its clauses moved and the handles of its watches and reasons renamed. -/
def relocate (e : Engine) (ids : List ClauseId) (b : ClauseArena)
    (reasons : DenseMap Var Reason) : Engine :=
  { e with arena := b, watches := e.watches.rename (newId ids), trail := { e.trail with reasons } }

section Relocate

variable {reasons : DenseMap Var Reason} (moved : e.arena.Moved ids b)
  (held : e.Handles (· ∈ ids)) (clean : ∀ p, e.watches.dirty.get p = false)
  (renamed : ∀ l ∈ e.trail.lits, reasons.get l.var = (e.trail.reason l.var).rename (newId ids))

include moved

theorem clause_relocate (member : id ∈ ids) :
    (e.relocate ids b reasons).clause (newId ids id) = e.clause id := moved.get member

/-- A clause in use was so under an old handle. -/
theorem relocate_onto {x : ClauseId} (used : ((e.relocate ids b reasons).clause x).isRemoved = false) :
    ∃ id ∈ ids, (e.clause id).isRemoved = false ∧ newId ids id = x ∧
      (e.relocate ids b reasons).clause x = e.clause id := by
  obtain ⟨id, member, rfl⟩ := moved.onto used
  exact ⟨id, member, moved.used id member, rfl, moved.get member⟩

include held

omit moved in
theorem Sound.entriesOf_relocate (h : e.Sound []) (p : Lit) :
    entriesOf (newId ids id) ((e.relocate ids b reasons).watches.long.get p) =
      entriesOf id (e.watches.long.get p) := by
  change entriesOf (newId ids id) ((e.watches.rename (newId ids)).long.get p) = _
  rw [Watches.long_rename h.blank]
  exact Watches.entriesOf_renamed (held.long p)

include clean renamed

theorem Sound.relocate (h : e.Sound []) : (e.relocate ids b reasons).Sound [] := by
  -- An entry of a renamed list stands for one of the old list, whose clause moved along.
  have entry {p : Lit} {x : Watcher} (member : x ∈ (e.watches.rename (newId ids)).long.get p) :
      ∃ w ∈ e.watches.long.get p, w.clause ∈ ids ∧ (e.clause w.clause).isAttached = true ∧
        x = ⟨newId ids w.clause, w.blocker⟩ ∧ b.get (newId ids w.clause) = e.clause w.clause := by
    rw [Watches.long_rename h.blank] at member
    obtain ⟨w, inside, rfl⟩ := Array.mem_map.mp member
    have kept := held.long p w inside
    exact ⟨w, inside, kept, h.tracked.attached (clean p) inside, rfl, moved.get kept⟩
  constructor
  case trail =>
    exact { h.trail with }
  case justified =>
    intro i l at_i
    have onTrail := Array.mem_of_getElem? at_i
    change Explains _ (reasons.get l.var) i l
    rw [renamed l onTrail]
    have old := h.justified at_i
    cases reason : e.trail.reason l.var with
    | decision =>
      rw [reason] at old
      exact old
    | binary other =>
      rw [reason] at old
      exact old
    | clause id =>
      rw [reason] at old
      have same := moved.get (held.reasons l onTrail id reason)
      change (b.get (newId ids id)).isAttached = true ∧ (b.get (newId ids id)).lit 0 = l ∧
        (∀ q ∈ (b.get (newId ids id)).tail, e.trail.Before i q.neg) ∧
        ∃ q ∈ (b.get (newId ids id)).tail, e.trail.Beside i q.neg
      rw [same]
      exact old
  case proper =>
    intro x used
    obtain ⟨id, _, live, _, same⟩ := relocate_onto moved used
    rw [same]
    exact h.proper id live
  case binary_bounded => exact h.binary_bounded
  case tracked =>
    -- A clause in the new arena was moved there in use, so that nothing stale is left.
    refine ⟨fun x attached _ p => ?_, nofun, nofun, fun x detached p some => ?_, fun p dirty => ?_⟩
    · obtain ⟨id, member, live, rfl, same⟩ := relocate_onto moved (isRemoved_of_isAttached attached)
      rw [same] at attached ⊢
      rw [h.entriesOf_relocate held]
      exact h.tracked.exact id attached nofun p
    · obtain ⟨w, member, rfl⟩ := entriesOf_pos_iff.mp some
      obtain ⟨w', _, _, attached, rfl, same⟩ := entry member
      change (b.get (newId ids w'.clause)).isAttached = false at detached
      rw [same, attached] at detached
      cases detached
    · change e.watches.dirty.get p = true at dirty
      rw [clean p] at dirty
      cases dirty
  case inside =>
    intro p x member
    obtain ⟨w, _, kept, _, rfl, _⟩ := entry member
    exact slot_lt_of_used (moved.used_get kept)
  case blockers =>
    intro p x member _
    obtain ⟨w, inside, _, attached, rfl, same⟩ := entry member
    change w.blocker ∈ (b.get (newId ids w.clause)).lits ∨ w.blocker.neg ∈ e.trail.facts
    rw [same]
    exact h.blockers p w inside attached
  case blank => exact { h.blank with }
  case unseen => exact h.unseen

theorem Regular.relocate (h : e.Regular L m) (none : L.aside = [])
    (listed : ∀ id, id ∈ L.originals ∨ id ∈ L.learnts → id ∈ ids) :
    (e.relocate ids b reasons).Regular (L.rename (newId ids)) m := by
  obtain ⟨originals, learnts, pairs, _⟩ := L
  subst none
  have original (id : ClauseId) (member : id ∈ originals) : id ∈ ids := listed id (.inl member)
  have learnt (id : ClauseId) (member : id ∈ learnts) : id ∈ ids := listed id (.inr member)
  -- Handles that differ stand for clauses that moved apart, so no list gets one twice.
  have injOn {some : List ClauseId} (all : ∀ id ∈ some, id ∈ ids) (distinct : some.Nodup) :
      (some.map (newId ids)).Nodup :=
    distinct.map_on fun x xMember y _ same => Moved.inj (all x xMember) same
  have sound : e.Sound [] := h.sound
  refine { sound := ?sound, apart := ?apart, listed := ?listed, guarded := ?guarded, guards := ?guards, offers := ?offers }
  case sound => exact sound.relocate moved held clean renamed
  case apart =>
    refine ⟨fun x live frozen p => ?_, fun p x member live frozen => ?_⟩
    · obtain ⟨id, _, old, rfl, same⟩ := relocate_onto moved live
      rw [same] at frozen
      rw [sound.entriesOf_relocate held]
      exact h.apart.unwatched id old frozen p
    · change x ∈ (e.watches.rename (newId ids)).frozen.get p at member
      rw [Watches.frozen_rename h.sound.blank] at member
      obtain ⟨w, inside, rfl⟩ := Array.mem_map.mp member
      have kept := held.frozen p w inside
      have same : (e.relocate ids b reasons).clause (newId ids w.clause) = e.clause w.clause :=
        clause_relocate moved kept
      change ((e.relocate ids b reasons).clause (newId ids w.clause)).isFrozen = true at frozen
      change p.neg ∈ ((e.relocate ids b reasons).clause (newId ids w.clause)).lits ∧
        w.blocker ∈ ((e.relocate ids b reasons).clause (newId ids w.clause)).lits
      rw [same] at frozen ⊢
      exact h.apart.entries p w inside (moved.used _ kept) frozen
  case listed =>
    refine ⟨injOn original h.listed.originals_nodup, injOn learnt h.listed.learnts_nodup, ?_, ?_,
      h.listed.symmetric⟩
    · intro x member inside
      obtain ⟨id, idMember, rfl⟩ := List.mem_map.mp member
      obtain ⟨other, otherMember, same⟩ := List.mem_map.mp inside
      cases Moved.inj (original other otherMember) same
      exact h.listed.disjoint id idMember otherMember
    · intro x member
      obtain ⟨id, idMember, rfl⟩ := List.mem_map.mp member
      rw [clause_relocate moved (learnt id idMember)]
      exact h.listed.learnt id idMember
  case guarded =>
    refine ⟨fun x member => ⟨?_, List.not_mem_nil⟩, h.guarded.pairs⟩
    obtain ⟨id, idMember, rfl⟩ := List.mem_map.mp member
    rw [clause_relocate moved (original id idMember)]
    exact (h.guarded.clauses id idMember).1
  case guards =>
    refine ⟨fun x member w watched before => ?_, h.guards.pairs⟩
    obtain ⟨id, idMember, rfl⟩ := List.mem_map.mp member
    have same : (e.relocate ids b reasons).clause (newId ids id) = e.clause id :=
      clause_relocate moved (original id idMember)
    unfold Watched at watched
    rw [same] at watched ⊢
    exact h.guards.clauses id idMember w watched before
  case offers => exact h.offers

theorem Faithful.relocate (h : e.Faithful F L m) (none : L.aside = [])
    (listed : ∀ id, id ∈ L.originals ∨ id ∈ L.learnts → id ∈ ids) :
    (e.relocate ids b reasons).Faithful F (L.rename (newId ids)) m := by
  refine ⟨h.toRegular.relocate moved held clean renamed none listed, h.toEquivalent.keeps ?_ ?_⟩
  · refine ⟨fun _ fact => fact, fun _ pair => pair, fun id member => ?_⟩
    rw [none, List.nil_append] at member
    refine .clause (newId ids id) ?_ fun l inside => ?_
    · change newId ids id ∈ L.aside.map (newId ids) ++ L.originals.map (newId ids)
      rw [none]
      exact List.mem_map_of_mem member
    · rw [clause_relocate moved (listed id (.inl member))] at inside
      exact Array.mem_toList_iff.mpr inside
  · intro σ holds
    have old := h.upheld σ holds
    refine { old with clauses := fun x live => ?_, binary := old.binary }
    obtain ⟨id, _, before, _, same⟩ := relocate_onto moved live
    rw [same]
    exact old.clauses id before

end Relocate

/-! ### Compaction -/

/-- After the lists are swept none is dirty, and their entries are of clauses in use. -/
theorem Sound.clean_swept (h : e.Sound aside) (p : Lit) : e.swept.watches.dirty.get p = false :=
  Watches.dirty_cleanAll e.watches e.arena h.tracked.listed p

theorem Sound.blank_swept (h : e.Sound aside) : e.swept.watches.Blank := by
  have blank := (Watches.cleanAll_cleaned e.watches e.arena).blank h.blank
  exact ⟨blank.long, blank.dirty, blank.binary, blank.frozen⟩

theorem Sound.frozen_swept (h : e.Sound aside) (p : Lit) :
    e.swept.watches.frozen.get p =
      (e.watches.frozen.get p).filter (!Watches.isFrozenStale e.arena ·) := by
  have cleaned := Watches.cleanAll_cleaned e.watches e.arena
  change ((e.watches.cleanAll e.arena).cleanFrozen e.arena).frozen.get p = _
  rw [Watches.frozen_cleanFrozen (cleaned.blank h.blank), cleaned.frozen]

theorem Sound.attached_swept (h : e.Sound aside) {p : Lit} {w : Watcher}
    (member : w ∈ e.swept.watches.long.get p) : (e.clause w.clause).isAttached = true := by
  have cleaned := Watches.cleanAll_cleaned e.watches e.arena
  refine (h.tracked.cleaned cleaned fun p dirty => ?_).attached (h.clean_swept p) member
  have clean : (e.watches.cleanAll e.arena).dirty.get p = false := h.clean_swept p
  rw [clean] at dirty
  cases dirty

/-- After the lists are swept, they hold the entries that are not stale, and no others. -/
theorem Sound.long_swept (h : e.Sound aside) (p : Lit) :
    e.swept.watches.long.get p = (e.watches.long.get p).filter (!Watches.isStale e.arena ·) := by
  rw [← (Watches.cleanAll_cleaned e.watches e.arena).fresh p]
  exact (Array.filter_eq_self.mpr fun w member =>
    Watches.not_isStale_iff.mpr (h.attached_swept member)).symm

theorem Sound.dormant_swept (h : e.Sound aside) {p : Lit} {w : Watcher}
    (member : w ∈ e.swept.watches.frozen.get p) :
    w ∈ e.watches.frozen.get p ∧ (e.clause w.clause).isRemoved = false ∧
      (e.clause w.clause).isFrozen = true := by
  rw [h.frozen_swept] at member
  simpa [Watches.isFrozenStale, clause] using member

theorem Sound.inPlace (h : e.Sound aside) : e.arena.InPlace := fun id used =>
  ⟨(h.proper id used).inPlace, Nat.lt_of_lt_of_le (by decide) (h.proper id used).size⟩

theorem Sound.distinct_vars (h : e.Sound aside) : (e.trail.lits.toList.map Lit.var).Nodup := by
  refine List.pairwise_iff_getElem.mpr fun i j iBound jBound lt same => ?_
  simp only [List.getElem_map, Array.getElem_toList] at same
  simp only [List.length_map, Array.length_toList] at iBound jBound
  have := h.trail.distinct (Array.getElem?_eq_getElem iBound) (Array.getElem?_eq_getElem jBound) same
  omega

/-- A clause that takes part in propagation is held by the lists. -/
theorem Sound.attached_held (h : e.Sound []) {such : ClauseId → Prop} (held : e.swept.Handles such)
    (attached : (e.clause id).isAttached = true) : such id := by
  have cleaned := Watches.cleanAll_cleaned e.watches e.arena
  have watched : 0 < entriesOf id (e.swept.watches.long.get ((e.clause id).lit 0).neg) := by
    change 0 < entriesOf id ((e.watches.cleanAll e.arena).long.get _)
    rw [cleaned.kept id attached, h.tracked.exact id attached nofun, Clause.watchCount, if_pos (.inl rfl)]
    exact Nat.one_pos
  obtain ⟨w, member, rfl⟩ := entriesOf_pos_iff.mp watched
  exact held.long _ w member

/-- The clauses that the lists name are in use. -/
def ListsUsed (e : Engine) : Prop :=
  ∀ id, id ∈ e.originals ∨ id ∈ e.learnts → (e.clause id).isRemoved = false

theorem Sound.handles_swept (h : e.Sound aside) (lists : e.ListsUsed) :
    e.swept.Handles fun id => (e.arena.get id).isRemoved = false where
  long := fun _ _ member => isRemoved_of_isAttached (h.attached_swept member)
  frozen := fun _ _ member => (h.dormant_swept member).2.1
  reasons := fun l member id reason => by
    obtain ⟨i, at_i⟩ := Array.mem_iff_getElem?.mp member
    have justified := h.justified at_i
    rw [show e.trail.reason l.var = .clause id from reason] at justified
    exact isRemoved_of_isAttached justified.1
  originals := fun id member => lists id (.inl member)
  learnts := fun id member => lists id (.inr member)

/-- A compaction sweeps the lists, and visits all holders of handles. It fails only if there is no room
for the clauses in use. -/
theorem Sound.compact_spec (h : e.Sound aside) (lists : e.ListsUsed) :
    (∃ requested limit, e.compact = .error (.arenaExhausted requested limit) ∧
      e.arena.space.limit < e.arena.total Clause.liveWords) ∨
    ∃ ids b reasons, e.arena.Moved ids b ∧ e.swept.Handles (· ∈ ids) ∧
      (∀ l ∈ e.trail.lits, reasons.get l.var = (e.trail.reason l.var).rename (newId ids)) ∧
      e.compact = .ok { e.swept.relocate ids b reasons with
        originals := e.originals.map (newId ids)
        learnts := e.learnts.map (newId ids)
        stats := { e.stats with compactions := e.stats.compactions + 1 } } := by
  rcases visits_followAll h.inPlace h.blank_swept h.distinct_vars (h.handles_swept lists) [] _
    (underway_start e.arena) with
    ⟨requested, limit, failed, full⟩ | ⟨ids, m, f, result, underway, -, fits⟩
  · refine .inl ⟨requested, limit, ?_, full⟩
    unfold compact
    rw [failed]
    rfl
  · obtain ⟨held, trail, renames, rfl⟩ := fits ids List.prefix_rfl
    refine .inr ⟨ids, m.target, trail.reasons, underway.toMoved, held, fun l member => ?_, ?_⟩
    · exact renames.inside l.var (List.mem_map_of_mem (Array.mem_toList_iff.mpr member))
    · unfold compact
      rw [result, renames.rest]
      rfl

theorem Sound.compact_eq (h : e.Sound aside) (lists : e.ListsUsed) (result : e.compact = .ok f) :
    ∃ ids b reasons, e.arena.Moved ids b ∧ e.swept.Handles (· ∈ ids) ∧
      (∀ l ∈ e.trail.lits, reasons.get l.var = (e.trail.reason l.var).rename (newId ids)) ∧
      f = { e.swept.relocate ids b reasons with
        originals := e.originals.map (newId ids)
        learnts := e.learnts.map (newId ids)
        stats := { e.stats with compactions := e.stats.compactions + 1 } } := by
  rcases h.compact_spec lists with ⟨_, _, failed, _⟩ | ⟨ids, b, reasons, moved, held, renamed, fine⟩
  · rw [result] at failed
    cases failed
  · rw [result] at fine
    exact ⟨ids, b, reasons, moved, held, renamed, Except.ok.inj fine⟩

/-- Compaction fails only for want of room. -/
theorem Sound.compact_error (h : e.Sound aside) (lists : e.ListsUsed) {err : SolverError}
    (result : e.compact = .error err) :
    ∃ requested limit, err = .arenaExhausted requested limit := by
  rcases h.compact_spec lists with ⟨requested, limit, failed, _⟩ | ⟨_, _, _, _, _, _, fine⟩
  · rw [result] at failed
    exact ⟨requested, limit, Except.error.inj failed⟩
  · rw [result] at fine
    cases fine

theorem Faithful.swept (h : e.Faithful F L m) : e.swept.Faithful F L m := by
  have cleaned := Watches.cleanAll_cleaned e.watches e.arena
  obtain ⟨loose, -, -⟩ := h.toLoose.cleanAll
  have apart := h.apart.cleaned (f := (·.cleanAll e.arena)) cleaned
  have blank : (e.watches.cleanAll e.arena).Blank := loose.sound.blank
  have grown : e.Extends e.swept := .of_clauses (fun _ => .refl _) cleaned.binary
  have sound : e.swept.Sound L.aside :=
    loose.sound.frozenLists rfl rfl rfl rfl blank.frozen
  refine h.extends grown ⟨?_, ?_⟩
  · exact h.toLoose.extends grown sound ⟨h.guards.clauses, h.guards.pairs⟩
  · exact ⟨apart.unwatched, fun p w member =>
      apart.entries p w (cleaned.frozen ▸ (h.sound.dormant_swept member).1)⟩

/-- The clauses of the ledger are those that the lists name. -/
def Lists (e : Engine) (L : Ledger) : Prop :=
  ∀ id, id ∈ L.originals ∨ id ∈ L.learnts ↔ id ∈ e.originals ∨ id ∈ e.learnts

theorem lists_ledger (e : Engine) (pairs : List (Lit × Lit)) : e.Lists (e.ledger pairs) := fun id => by
  simp [ledger]

theorem Regular.listsUsed (h : e.Regular L m) (lists : e.Lists L) : e.ListsUsed := fun id member =>
  ((lists id).mpr member).elim (fun original => isRemoved_of_isAttached (h.guarded.clauses id original).1)
    fun learnt => (h.listed.learnt id learnt).1

/-- Compaction keeps an engine faithful, under new handles. -/
theorem Faithful.compact (h : e.Faithful F L m) (none : L.aside = []) (lists : e.Lists L)
    (result : e.compact = .ok f) :
    ∃ new, f.Faithful F (L.rename new) m ∧ f.originals = e.originals.map new ∧
      f.learnts = e.learnts.map new ∧ e.Framed f ∧ e.trail.Same f.trail := by
  obtain ⟨ids, b, reasons, moved, held, renamed, rfl⟩ :=
    h.sound.compact_eq (h.toRegular.listsUsed lists) result
  have relocated := h.swept.relocate (e := e.swept) moved held h.sound.clean_swept renamed none fun id member =>
    ((lists id).mp member).elim (held.originals id) (held.learnts id)
  exact ⟨newId ids, relocated.books, rfl, rfl, ⟨⟨rfl, rfl, rfl, rfl⟩, .refl _⟩, ⟨rfl, rfl, rfl, rfl⟩⟩

theorem Settled.listsUsed (h : e.Settled F) : e.ListsUsed := by
  obtain ⟨pairs, faithful⟩ := h.faithful
  exact faithful.toRegular.listsUsed (e.lists_ledger pairs)

theorem Settled.compact_eq (h : e.Settled F) (result : e.compact = .ok f) :
    ∃ ids b reasons, e.arena.Moved ids b ∧ e.swept.Handles (· ∈ ids) ∧
      (∀ l ∈ e.trail.lits, reasons.get l.var = (e.trail.reason l.var).rename (newId ids)) ∧
      f = { e.swept.relocate ids b reasons with
        originals := e.originals.map (newId ids)
        learnts := e.learnts.map (newId ids)
        stats := { e.stats with compactions := e.stats.compactions + 1 } } := by
  obtain ⟨pairs, faithful⟩ := h.faithful
  exact faithful.sound.compact_eq h.listsUsed result

theorem Settled.compact_error (h : e.Settled F) {err : SolverError} (result : e.compact = .error err) :
    ∃ requested limit, err = .arenaExhausted requested limit := by
  obtain ⟨pairs, faithful⟩ := h.faithful
  exact faithful.sound.compact_error h.listsUsed result

theorem lists_recalled {pairs : List (Lit × Lit)} {olds recents : List ClauseId}
    (list : e.learnts.toList = olds ++ recents) :
    e.Lists { originals := recents ++ e.originals.toList, learnts := olds, pairs } := fun id => by
  have learnt : id ∈ e.learnts ↔ id ∈ olds ++ recents := list ▸ Array.mem_toList_iff.symm
  simp only [learnt, List.mem_append, Array.mem_toList_iff]
  tauto

theorem Recalls.compact {n : Nat} (h : e.Recalls F n) (result : e.compact = .ok f) :
    f.Recalls F n ∧ e.Framed f ∧ e.trail.Same f.trail := by
  obtain ⟨pairs, olds, recents, list, le, faithful⟩ := h
  obtain ⟨new, moved, originals, learnts, framed, same⟩ :=
    faithful.compact rfl (lists_recalled list) result
  refine ⟨⟨pairs, olds.map new, recents.map new, ?_, ?_, ?_⟩, framed, same⟩
  · rw [learnts, Array.toList_map, list, List.map_append]
  · rw [List.length_map]
    exact le
  · rw [originals, Array.toList_map, ← List.map_append, same.head]
    exact moved

end Engine

end Cdcl
