import Cdcl.Proofs.Accounts
import Cdcl.Search.Compaction
import Mathlib.Algebra.Order.BigOperators.Group.List
import Mathlib.Algebra.Order.Group.Nat
import Mathlib.Data.List.Perm.Subperm

/-!
# Moving clauses

A compaction visits the holders of handles in turn, and moves a clause when it is first met. What the
fresh arena holds at any time is the clauses of a list of handles, in the order in which they were met,
and the place of a handle in the list is the new handle of its clause. The list only grows, so that
what was true of a place once remains true: `Visits` says what a step gives for this list and for every
longer one.

## Main results

- `visits_follow`: whether a clause was moved before or is moved now, its holder gets its place.
- `visits_followAll`: all holders get the places of what they held.
-/

namespace Cdcl

/-! ### Clauses that were moved -/

namespace Clause

@[simp] theorem relocated_relocate (c : Clause) (new : ClauseId) : (c.relocate new).relocated = true := rfl

/-- A clause that has a literal leaves room for its new handle. -/
theorem relocation_relocate {c : Clause} (some : 0 < c.lits.size) (new : ClauseId) :
    (c.relocate new).relocation = new := by
  simp [relocate, relocation, lit, Array.getD_eq_getD_getElem?, some, Lit.code_ofCode]

end Clause

namespace ClauseArena

variable {a b : ClauseArena} {ids more : List ClauseId} {id : ClauseId} {m : Move}

/-- Different clauses in use take no more words than all that are in use. -/
theorem sum_words_le (nodup : ids.Nodup) (used : ∀ id ∈ ids, (a.get id).isRemoved = false) :
    (ids.map fun id => (a.get id).words).sum ≤ a.total Clause.liveWords := by
  have words : (ids.map fun id => (a.get id).words) = ids.map fun id => (a.get id).liveWords :=
    List.map_congr_left fun id member => (Clause.liveWords_of_used (used id member)).symm
  obtain ⟨sorted, perm, sublist⟩ := nodup.subperm fun id member => mem_handles.mpr (used id member)
  calc (ids.map fun id => (a.get id).words).sum
      = (sorted.map fun id => (a.get id).liveWords).sum := by rw [words]; exact (perm.map _).sum_nat.symm
    _ ≤ (a.handles.map fun id => (a.get id).liveWords).sum :=
        (sublist.map _).sum_le_sum fun _ _ => Nat.zero_le _
    _ = a.total Clause.liveWords :=
        (total_eq_handles a _ fun c removed => by simp [Clause.liveWords, removed]).symm

/-! ### An arena of moved clauses -/

/-- The place of a handle in a list, as a handle of the arena that holds the clauses of the list. -/
def newId (ids : List ClauseId) (id : ClauseId) : ClauseId := ⟨ids.idxOf id⟩

theorem newId_extend (grown : ids <+: more) (member : id ∈ ids) : newId more id = newId ids id := by
  obtain ⟨others, rfl⟩ := grown
  exact congrArg ClauseId.mk (List.idxOf_append_of_mem member)

theorem newId_append_self (fresh : id ∉ ids) : newId (ids ++ [id]) id = ⟨ids.length⟩ := by
  rw [newId, List.idxOf_append, if_neg fresh]
  simp

/-- The second arena holds the clauses of these handles, and nothing else. They are different, and in
use in the first arena. -/
structure Moved (a : ClauseArena) (ids : List ClauseId) (b : ClauseArena) : Prop where
  nodup : ids.Nodup
  used : ∀ id ∈ ids, (a.get id).isRemoved = false
  clauses : b.clauses.toList = ids.map a.get
  space : b.space =
    { used := (ids.map fun id => (a.get id).words).sum, limit := a.space.limit : Space }

namespace Moved

variable (h : a.Moved ids b)

include h

theorem get (member : id ∈ ids) : b.get (newId ids id) = a.get id := by
  rw [get_eq, ← Array.getElem?_toList, h.clauses, List.getElem?_map, newId, List.getElem?_idxOf member]
  rfl

omit h in
theorem inj {other : ClauseId} (member : id ∈ ids) (same : newId ids id = newId ids other) :
    id = other :=
  (List.idxOf_inj member).mp (congrArg ClauseId.slot same)

/-- Every clause of the second arena has a place. -/
theorem onto {x : ClauseId} (used : (b.get x).isRemoved = false) : ∃ id ∈ ids, newId ids id = x := by
  have stored := getElem?_of_used used
  rw [← Array.getElem?_toList, h.clauses, List.getElem?_map, Option.map_eq_some_iff] at stored
  obtain ⟨id, at_x, -⟩ := stored
  obtain ⟨bound, rfl⟩ := List.getElem?_eq_some_iff.mp at_x
  exact ⟨_, List.getElem_mem bound, congrArg ClauseId.mk (h.nodup.idxOf_getElem _ bound)⟩

theorem used_get (member : id ∈ ids) : (b.get (newId ids id)).isRemoved = false := by
  rw [h.get member]
  exact h.used id member

end Moved

/-- If no clause in use is left behind, what the clauses in use weigh together stays the same. -/
theorem Moved.total (h : a.Moved ids b) (all : ∀ id, (a.get id).isRemoved = false → id ∈ ids)
    {weight : Clause → Nat} (light : ∀ c, c.isRemoved = true → weight c = 0) :
    b.total weight = a.total weight := by
  have perm : ids.Perm a.handles :=
    (List.perm_ext_iff_of_nodup h.nodup a.nodup_handles).mpr fun id =>
      ⟨fun member => mem_handles.mpr (h.used id member), fun listed => all id (mem_handles.mp listed)⟩
  rw [total_eq_handles a weight light, ClauseArena.total, h.clauses, List.map_map]
  exact (perm.map _).sum_nat

/-- If no clause in use is left behind, the words taken are those in use. -/
theorem Moved.words (h : a.Moved ids b) (all : ∀ id, (a.get id).isRemoved = false → id ∈ ids) :
    b.space.used = a.total Clause.liveWords ∧ b.space.wasted = 0 := by
  rw [← h.total all fun c removed => by simp [Clause.liveWords, removed], h.space, ClauseArena.total,
    h.clauses, List.map_map]
  exact ⟨congrArg List.sum (List.map_congr_left fun id member =>
    (Clause.liveWords_of_used (h.used id member)).symm), rfl⟩

/-! ### A compaction under way -/

/-- The clauses in use have literals, and were not moved elsewhere. -/
def InPlace (a : ClauseArena) : Prop :=
  ∀ id, (a.get id).isRemoved = false → (a.get id).relocated = false ∧ 0 < (a.get id).lits.size

/-- The clauses of these handles are moved, and their new handles left in the old arena. -/
structure Underway (a : ClauseArena) (ids : List ClauseId) (m : Move) : Prop
    extends Moved a ids m.target where
  left : ∀ id, m.source.get id =
    if id ∈ ids then (a.get id).relocate (newId ids id) else a.get id

theorem underway_start (a : ClauseArena) : a.Underway [] (.start a) where
  nodup := .nil
  used := nofun
  clauses := rfl
  space := rfl
  left := fun _ => (if_neg List.not_mem_nil).symm

/-- What the old arena says of its clauses, but for their literals, stays. -/
theorem Underway.flags (h : a.Underway ids m) (id : ClauseId) :
    (m.source.get id).isRemoved = (a.get id).isRemoved ∧
      (m.source.get id).isFrozen = (a.get id).isFrozen := by
  rw [h.left]
  split <;> exact ⟨rfl, rfl⟩

/-- A clause that was moved is found again at its place. -/
theorem Underway.follow_old (h : a.Underway ids m) (inPlace : a.InPlace) (member : id ∈ ids) :
    m.follow id = .ok (newId ids id, m) := by
  have left : m.source.get id = (a.get id).relocate (newId ids id) := (h.left id).trans (if_pos member)
  unfold Move.follow
  dsimp only
  rw [left, if_pos (Clause.relocated_relocate ..),
    Clause.relocation_relocate (inPlace id (h.used id member)).2]

/-- A clause that is met for the first time is moved to the next place. -/
theorem Underway.follow_new (h : a.Underway ids m) (used : (a.get id).isRemoved = false)
    (fresh : id ∉ ids) {target : ClauseArena} {new : ClauseId}
    (copied : m.target.copy (a.get id) = .ok (new, target)) :
    new = newId (ids ++ [id]) id ∧
      a.Underway (ids ++ [id]) { source := m.source.modify id (·.relocate new), target } := by
  -- The clause was not copied before, so that what is read is the clause, and no forwarding.
  have left : m.source.get id = a.get id := (h.left id).trans (if_neg fresh)
  unfold copy at copied
  split at copied
  · cases copied
  next space claimed =>
    cases copied
    have length : m.target.clauses.size = ids.length := by
      rw [← Array.length_toList, h.clauses, List.length_map]
    refine ⟨?_, ⟨?_, ?_, ?_, ?_⟩, fun x => ?_⟩
    · rw [newId_append_self fresh, length]
    · exact h.nodup.append (List.nodup_singleton id) (by simpa using fresh)
    · intro x member
      rcases List.mem_append.mp member with old | last
      · exact h.used x old
      · exact List.mem_singleton.mp last ▸ used
    · rw [Array.toList_push, h.clauses, List.map_append]
      rfl
    · rw [(Space.claim_eq_ok_iff.mp claimed).2, h.space]
      simp
    · dsimp only
      rw [get_modify _ _ _ _ (slot_lt_of_used (left ▸ used)), h.left x]
      by_cases same : id = x
      · subst same
        rw [if_pos rfl, if_neg fresh, if_pos (by simp), newId_append_self fresh, length]
      · rw [if_neg same]
        by_cases old : x ∈ ids
        · rw [if_pos old, if_pos (List.mem_append_left _ old),
            newId_extend (List.prefix_append ids [id]) old]
        · rw [if_neg old, if_neg (by simp [old, Ne.symm same])]

/-- There is no room for a clause only if there is none for all clauses in use. -/
theorem Underway.full (h : a.Underway ids m) (used : (a.get id).isRemoved = false) (fresh : id ∉ ids)
    {err : SolverError} (failed : m.target.copy (a.get id) = .error err) :
    ∃ requested limit, err = .arenaExhausted requested limit ∧
      a.space.limit < a.total Clause.liveWords := by
  unfold copy at failed
  split at failed
  next claimed =>
    cases failed
    obtain ⟨exceeds, rfl⟩ := Space.claim_eq_error_iff.mp claimed
    refine ⟨_, _, rfl, ?_⟩
    have fits := sum_words_le (a := a) (h.nodup.append (List.nodup_singleton id) (by simpa using fresh))
      fun x member => (List.mem_append.mp member).elim (h.used x)
        fun last => List.mem_singleton.mp last ▸ used
    rw [List.map_append, List.sum_append] at fits
    simp only [h.space, List.map_cons, List.map_nil, List.sum_cons, List.sum_nil] at exceeds fits
    omega
  · cases failed

end ClauseArena

/-! ### Steps of a compaction -/

/-- The reason under new handles. -/
def Reason.rename (new : ClauseId → ClauseId) : Reason → Reason
  | .clause id => .clause (new id)
  | why => why

namespace Watches

def renameEntry (new : ClauseId → ClauseId) (x : Watcher) : Watcher := { x with clause := new x.clause }

/-- The lists with the clauses of all entries renamed. -/
def rename (w : Watches) (new : ClauseId → ClauseId) : Watches :=
  { w with
    long := w.long.mapValues (·.map (renameEntry new))
    frozen := w.frozen.mapValues (·.map (renameEntry new)) }

end Watches

namespace Engine

open ClauseArena

variable {α β : Type} {a : ClauseArena} {id : ClauseId}

/-- However far a compaction is, this step gives what fits the clauses moved then and those moved
later. It fails only if there is no room for all clauses in use. -/
def Visits (a : ClauseArena) (x : Moving α) (fits : List ClauseId → α → Prop) : Prop :=
  ∀ ids m, a.Underway ids m →
    (∃ requested limit, x m = .error (.arenaExhausted requested limit) ∧
      a.space.limit < a.total Clause.liveWords) ∨
    ∃ more n v, x m = .ok (v, n) ∧ a.Underway more n ∧ ids <+: more ∧
      ∀ final, more <+: final → fits final v

namespace Visits

variable {x : Moving α} {fits : List ClauseId → α → Prop}

theorem mono {fits' : List ClauseId → α → Prop} (h : Visits a x fits)
    (weaker : ∀ ids v, fits ids v → fits' ids v) : Visits a x fits' := fun ids m underway =>
  (h ids m underway).imp_right fun ⟨more, n, v, result, later, grown, here⟩ =>
    ⟨more, n, v, result, later, grown, fun final longer => weaker final v (here final longer)⟩

theorem pure {v : α} (here : ∀ ids, fits ids v) : Visits a (Pure.pure v) fits :=
  fun ids m h => .inr ⟨ids, m, v, rfl, h, List.prefix_rfl, fun final _ => here final⟩

/-- What the first step gives still fits when the second one is done. -/
theorem bind {next : α → Moving β} {fits' : List ClauseId → β → Prop} (h : Visits a x fits)
    (rest : ∀ v ids, fits ids v → Visits a (next v) fun final w => fits final v → fits' final w) :
    Visits a (x >>= next) fits' := by
  intro ids m underway
  rcases h ids m underway with ⟨requested, limit, failed, full⟩ | ⟨more, n, v, result, later, grown, here⟩
  · refine .inl ⟨requested, limit, ?_, full⟩
    change Except.bind (x m) _ = _
    rw [failed]
    rfl
  · have run : (x >>= next) m = next v n := by
      change Except.bind (x m) _ = _
      rw [result]
      rfl
    rcases rest v more (here more List.prefix_rfl) more n later with
      ⟨requested, limit, failed, full⟩ | ⟨most, k, w, result', latest, longer', there⟩
    · exact .inl ⟨requested, limit, run.trans failed, full⟩
    · exact .inr ⟨most, k, w, run.trans result', latest, grown.trans longer', fun final longer =>
        there final longer (here final (longer'.trans longer))⟩

/-- What is read from the old arena is about clauses as they were. -/
theorem get : Visits a MonadState.get fun _ m => ∀ id,
    (m.source.get id).isRemoved = (a.get id).isRemoved ∧
      (m.source.get id).isFrozen = (a.get id).isFrozen :=
  fun ids m h => .inr ⟨ids, m, m, rfl, h, List.prefix_rfl, fun _ _ => h.flags⟩

variable {f : α → Moving β} {value : List ClauseId → α → β} {holds : List ClauseId → α → Prop}

/-- Elements of a list are visited one after the other. -/
theorem mapM (xs : List α)
    (each : ∀ x ∈ xs, Visits a (f x) fun ids v => holds ids x ∧ v = value ids x) :
    Visits a (xs.mapM f) fun ids vs => (∀ x ∈ xs, holds ids x) ∧ vs = xs.map (value ids) := by
  induction xs with
  | nil =>
    rw [List.mapM_nil]
    exact pure fun ids => ⟨nofun, rfl⟩
  | cons x xs ih =>
    rw [List.mapM_cons]
    refine (each x List.mem_cons_self).bind fun v _ _ =>
      (ih fun y member => each y (List.mem_cons_of_mem _ member)).bind fun vs _ _ => pure ?_
    rintro ids ⟨others, rfl⟩ ⟨first, rfl⟩
    exact ⟨List.forall_mem_cons.mpr ⟨first, others⟩, rfl⟩

theorem mapArray (xs : Array α)
    (each : ∀ x ∈ xs, Visits a (f x) fun ids v => holds ids x ∧ v = value ids x) :
    Visits a (xs.mapM f) fun ids vs => (∀ x ∈ xs, holds ids x) ∧ vs = xs.map (value ids) := by
  rw [Array.mapM_eq_mapM_toList, map_eq_pure_bind]
  refine (mapM xs.toList fun x member => each x (Array.mem_toList_iff.mp member)).bind fun vs _ _ =>
    pure ?_
  rintro ids ⟨holds, rfl⟩
  exact ⟨fun x member => holds x (Array.mem_toList_iff.mpr member), by rw [← Array.toList_map]⟩

end Visits

theorem visits_follow (inPlace : a.InPlace) (used : (a.get id).isRemoved = false) :
    Visits a (follow id) fun ids v => id ∈ ids ∧ v = newId ids id := by
  intro ids m underway
  by_cases old : id ∈ ids
  · exact .inr ⟨ids, m, newId ids id, underway.follow_old inPlace old, underway, List.prefix_rfl,
      fun final longer => ⟨longer.subset old, (newId_extend longer old).symm⟩⟩
  · have left : m.source.get id = a.get id := (underway.left id).trans (if_neg old)
    unfold follow Move.follow
    dsimp only
    rw [left, (inPlace id used).1, if_neg Bool.false_ne_true]
    rcases copied : m.target.copy (a.get id) with err | ⟨new, target⟩
    · obtain ⟨requested, limit, rfl, full⟩ := underway.full used old copied
      exact .inl ⟨requested, limit, rfl, full⟩
    · obtain ⟨rfl, later⟩ := underway.follow_new used old copied
      have member : id ∈ ids ++ [id] := by simp
      exact .inr ⟨_, _, _, rfl, later, List.prefix_append ids [id], fun final longer =>
        ⟨longer.subset member, (newId_extend longer member).symm⟩⟩

theorem visits_followEntry (inPlace : a.InPlace) {entry : Watcher}
    (used : (a.get entry.clause).isRemoved = false) :
    Visits a (followEntry entry) fun ids v =>
      entry.clause ∈ ids ∧ v = Watches.renameEntry (newId ids) entry := by
  refine (visits_follow inPlace used).bind fun new _ _ => .pure ?_
  rintro ids ⟨member, rfl⟩
  exact ⟨member, rfl⟩

theorem visits_follows (inPlace : a.InPlace) (held : Array ClauseId)
    (used : ∀ id ∈ held, (a.get id).isRemoved = false) :
    Visits a (held.mapM follow) fun ids vs => (∀ id ∈ held, id ∈ ids) ∧ vs = held.map (newId ids) :=
  .mapArray held fun id member => visits_follow inPlace (used id member)

/-- All entries of all lists are visited. -/
theorem visits_lists (inPlace : a.InPlace) {lists : DenseMap Lit (Array Watcher)}
    (blank : lists.fallback = #[])
    (used : ∀ p, ∀ w ∈ lists.get p, (a.get w.clause).isRemoved = false) :
    Visits a (lists.mapValuesM (·.mapM followEntry)) fun ids renamed =>
      (∀ p, ∀ w ∈ lists.get p, w.clause ∈ ids) ∧
        renamed = lists.mapValues (·.map (Watches.renameEntry (newId ids))) := by
  have stored (ws : Array Watcher) (member : ws ∈ lists.values) :
      ∀ w ∈ ws, (a.get w.clause).isRemoved = false := by
    obtain ⟨p, rfl⟩ := lists.exists_get_of_mem member
    exact used p
  refine (Visits.mapArray lists.values fun ws member => .mapArray ws fun w inside =>
    visits_followEntry inPlace (stored ws member w inside)).bind fun values _ _ => .pure ?_
  rintro ids ⟨held, rfl⟩
  refine ⟨fun p w inside => ?_, rfl⟩
  rcases lists.get_mem_or_eq p with member | empty
  · exact held _ member w inside
  · rw [empty, blank] at inside
    exact absurd inside (Array.not_mem_empty w)

/-! ### Reasons -/

/-- The reasons of these variables are under new handles. -/
structure Renames (ids : List ClauseId) (vs : List Var) (t u : Trail) : Prop where
  rest : u = { t with reasons := u.reasons }
  inside : ∀ v ∈ vs, u.reason v = (t.reason v).rename (newId ids)
  outside : ∀ v, v ∉ vs → u.reason v = t.reason v
  held : ∀ v ∈ vs, ∀ id, t.reason v = .clause id → id ∈ ids

/-- The reasons of different variables do not interfere. -/
theorem Renames.trans {ids : List ClauseId} {v : Var} {vs : List Var} {t u w : Trail}
    (h : Renames ids [v] t u) (k : Renames ids vs u w) (apart : v ∉ vs) :
    Renames ids (v :: vs) t w := by
  have other {x : Var} (member : x ∈ vs) : u.reason x = t.reason x :=
    h.outside x fun same => apart (List.mem_singleton.mp same ▸ member)
  refine ⟨by rw [k.rest, h.rest], fun x member => ?_, fun x absent => ?_, fun x member id reason => ?_⟩
  · rcases List.mem_cons.mp member with rfl | member
    · rw [k.outside x apart, h.inside x (List.mem_singleton.mpr rfl)]
    · rw [k.inside x member, other member]
  · rw [List.mem_cons, not_or] at absent
    rw [k.outside x absent.2, h.outside x (List.mem_singleton.not.mpr absent.1)]
  · rcases List.mem_cons.mp member with rfl | member
    · exact h.held x (List.mem_singleton.mpr rfl) id reason
    · exact k.held x member id ((other member).trans reason)

theorem visits_followReason (inPlace : a.InPlace) (t : Trail) (l : Lit)
    (used : ∀ id, t.reason l.var = .clause id → (a.get id).isRemoved = false) :
    Visits a (followReason t l) fun ids u => Renames ids [l.var] t u := by
  unfold followReason
  split
  next id reason =>
    refine Visits.get.bind fun m _ flags => ?_
    rw [if_neg (by rw [(flags id).1, used id reason]; exact Bool.false_ne_true)]
    refine (visits_follow inPlace (used id reason)).bind fun new _ _ => .pure ?_
    rintro ids ⟨member, rfl⟩ -
    have read (v : Var) : Trail.reason { t with reasons := t.reasons.insert l.var (.clause (newId ids id)) } v =
        if l.var = v then .clause (newId ids id) else t.reason v := DenseMap.get_insert ..
    refine ⟨rfl, fun v here => ?_, fun v absent => ?_, fun v here other same => ?_⟩
    · cases List.mem_singleton.mp here
      rw [read, if_pos rfl, reason]
      rfl
    · rw [read, if_neg fun same => absent (List.mem_singleton.mpr same.symm)]
    · cases List.mem_singleton.mp here
      cases reason.symm.trans same
      exact member
  next other =>
    refine .pure fun ids => ⟨rfl, fun v here => ?_, fun _ _ => rfl, fun v here id reason => ?_⟩
    · cases List.mem_singleton.mp here
      cases reason : t.reason l.var with
      | clause id => exact absurd reason (other id)
      | decision => rfl
      | binary q => rfl
    · cases List.mem_singleton.mp here
      exact absurd reason (other id)

theorem visits_followReasons (inPlace : a.InPlace) (ls : List Lit) (t : Trail)
    (distinct : (ls.map Lit.var).Nodup)
    (used : ∀ l ∈ ls, ∀ id, t.reason l.var = .clause id → (a.get id).isRemoved = false) :
    Visits a (ls.foldlM followReason t) fun ids u => Renames ids (ls.map Lit.var) t u := by
  induction ls generalizing t with
  | nil =>
    rw [List.foldlM_nil]
    exact .pure fun ids => ⟨rfl, nofun, fun _ _ => rfl, nofun⟩
  | cons l ls ih =>
    obtain ⟨apart, distinct⟩ := List.nodup_cons.mp distinct
    rw [List.foldlM_cons]
    refine (visits_followReason inPlace t l (used l List.mem_cons_self)).bind fun u _ first => ?_
    have others (q : Lit) (member : q ∈ ls) : u.reason q.var = t.reason q.var :=
      first.outside q.var fun same =>
        apart (List.mem_singleton.mp same ▸ List.mem_map_of_mem member)
    refine (ih u distinct fun q member id reason => ?_).mono fun ids w rest first =>
      first.trans rest apart
    exact used q (List.mem_cons_of_mem _ member) id ((others q member).symm.trans reason)

/-! ### All holders -/

/-- All handles that the engine holds are such. -/
structure Handles (such : ClauseId → Prop) (e : Engine) : Prop where
  long : ∀ p, ∀ w ∈ e.watches.long.get p, such w.clause
  frozen : ∀ p, ∀ w ∈ e.watches.frozen.get p, such w.clause
  reasons : ∀ l ∈ e.trail.lits, ∀ id, e.trail.reason l.var = .clause id → such id
  originals : ∀ id ∈ e.originals, such id
  learnts : ∀ id ∈ e.learnts, such id

/-- The engine before its clauses are moved: no list holds a stale entry. -/
def swept (e : Engine) : Engine :=
  { e with watches := (e.watches.cleanAll e.arena).cleanFrozen e.arena }

section Cleaning

variable {b : ClauseArena} (flags : ∀ id, (b.get id).isRemoved = (a.get id).isRemoved ∧
  (b.get id).isFrozen = (a.get id).isFrozen)

include flags

theorem cleanAll_congr (w : Watches) : w.cleanAll b = w.cleanAll a := by
  have stale : Watches.isStale b = Watches.isStale a := by
    funext entry
    simp only [Watches.isStale, (flags entry.clause).1, (flags entry.clause).2]
  simp only [Watches.cleanAll, Watches.cleanIfDirty, Watches.clean, stale]

theorem cleanFrozen_congr (w : Watches) : w.cleanFrozen b = w.cleanFrozen a := by
  have stale : Watches.isFrozenStale b = Watches.isFrozenStale a := by
    funext entry
    simp only [Watches.isFrozenStale, (flags entry.clause).1, (flags entry.clause).2]
  simp only [Watches.cleanFrozen, stale]

end Cleaning

/-- All holders get the places of what they held. -/
theorem visits_followAll {e : Engine} (inPlace : e.arena.InPlace) (blank : e.swept.watches.Blank)
    (distinct : (e.trail.lits.toList.map Lit.var).Nodup)
    (used : e.swept.Handles fun id => (e.arena.get id).isRemoved = false) :
    Visits e.arena e.followAll fun ids f => e.swept.Handles (· ∈ ids) ∧
      ∃ trail, Renames ids (e.trail.lits.toList.map Lit.var) e.trail trail ∧
        f = { e with
          watches := e.swept.watches.rename (newId ids)
          trail
          originals := e.originals.map (newId ids)
          learnts := e.learnts.map (newId ids) } := by
  unfold followAll
  refine Visits.get.bind fun _ _ flags => ?_
  rw [cleanAll_congr flags]
  refine (visits_lists inPlace blank.long used.long).bind fun long _ _ => ?_
  refine Visits.get.bind fun _ _ flags => ?_
  dsimp only
  rw [cleanFrozen_congr flags]
  refine (visits_lists inPlace blank.frozen used.frozen).bind fun frozen _ _ => ?_
  rw [← Array.foldlM_toList]
  refine (visits_followReasons inPlace e.trail.lits.toList e.trail distinct ?_).bind fun trail _ _ => ?_
  · exact fun l member => used.reasons l (Array.mem_toList_iff.mp member)
  refine (visits_follows inPlace e.learnts used.learnts).bind fun learnts _ _ => ?_
  refine (visits_follows inPlace e.originals used.originals).bind fun originals _ _ => .pure ?_
  rintro ids ⟨originals, rfl⟩ ⟨learnts, rfl⟩ renames ⟨frozen, rfl⟩ - ⟨long, rfl⟩ -
  have reasons (l : Lit) (member : l ∈ e.trail.lits) (id : ClauseId)
      (reason : e.trail.reason l.var = .clause id) : id ∈ ids :=
    renames.held l.var (List.mem_map_of_mem (Array.mem_toList_iff.mpr member)) id reason
  exact ⟨{ long, frozen, reasons, originals, learnts }, trail, renames, rfl⟩

end Engine

end Cdcl
