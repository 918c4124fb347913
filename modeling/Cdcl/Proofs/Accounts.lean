import Cdcl.Proofs.Removal
import Mathlib.Algebra.Ring.Nat

/-!
# The books of the clause database

Every clause in use has a share in the counts of clauses, of literals, of frozen clauses, of level
counts and of words. `Engine.Balanced` says that each count is the sum of the shares, and
`Engine.Filed` that the lists of clauses name the clauses in use and no others. Most of what an
engine does leaves its books alone: `Engine.SameBooks`. The rest exchanges the share of one clause.

## Main results

- `ClauseArena.total_modify`: changing a clause exchanges its share in a sum over the arena.
- `Balanced.exchange`: the books stay balanced if the counts follow such an exchange.
-/

namespace Cdcl

/-! ### Shares of clauses -/

namespace Clause

/-- What the clause adds to the counts of clauses and literals. -/
def share (c : Clause) : Tally :=
  if c.isRemoved then {}
  else if c.isLearnt then
    { learnts := 1, learntLits := c.size, frozen := if c.isFrozen then 1 else 0 }
  else { originals := 1, originalLits := c.size }

/-- What the clause adds to the number of learnt clauses of a level count. -/
def lbdShare (n : Nat) (c : Clause) : Nat :=
  if c.isRemoved = false ∧ c.isLearnt = true ∧ c.lbd = n then 1 else 0

/-- The words that the clause has in use. -/
def liveWords (c : Clause) : Nat := if c.isRemoved then 0 else c.words

/-- The same clause as far as the books are concerned. -/
structure Kindred (c d : Clause) : Prop extends c.Reordered d where
  lbd : d.lbd = c.lbd

theorem Kindred.refl (c : Clause) : c.Kindred c := ⟨.refl c, rfl⟩

theorem Kindred.trans {a b c : Clause} (h : a.Kindred b) (k : b.Kindred c) : a.Kindred c :=
  ⟨h.toReordered.trans k.toReordered, k.lbd.trans h.lbd⟩

theorem Reordered.size {c d : Clause} (h : c.Reordered d) : d.size = c.size := by
  simpa [Clause.size] using h.lits.length_eq

theorem Kindred.share {c d : Clause} (h : c.Kindred d) : d.share = c.share := by
  rw [Clause.share, Clause.share, h.removed, h.learnt, h.frozen, h.size]

theorem Kindred.lbdShare {c d : Clause} (h : c.Kindred d) (n : Nat) :
    d.lbdShare n = c.lbdShare n := by
  rw [Clause.lbdShare, Clause.lbdShare, h.removed, h.learnt, h.lbd]

theorem Kindred.liveWords {c d : Clause} (h : c.Kindred d) : d.liveWords = c.liveWords := by
  rw [Clause.liveWords, Clause.liveWords, words, words, h.removed, h.learnt, h.size]

theorem kindred_swap (c : Clause) (i j : Nat) : c.Kindred (c.swap i j) := ⟨reordered_swap c i j, rfl⟩

theorem kindred_modifyLearnt (c : Clause) {f : LearntInfo → LearntInfo}
    (frozen : ∀ i, (f i).frozen = i.frozen) (lbd : ∀ i, (f i).lbd = i.lbd) :
    c.Kindred (c.modifyLearnt f) where
  toReordered := (alike_modifyLearnt c frozen).reordered
  lbd := by
    unfold Clause.lbd modifyLearnt
    cases c.learnt? with
    | none => rfl
    | some i => exact lbd i

theorem kindred_setActivity (c : Clause) (a : Float32) : c.Kindred (c.setActivity a) :=
  c.kindred_modifyLearnt (fun _ => rfl) fun _ => rfl

theorem kindred_setFreezeCount (c : Clause) (n : Nat) : c.Kindred (c.setFreezeCount n) :=
  c.kindred_modifyLearnt (fun _ => rfl) fun _ => rfl

theorem share_setLbd (c : Clause) (lbd : Nat) : (c.setLbd lbd).share = c.share := by
  unfold share isLearnt isFrozen setLbd modifyLearnt
  cases c.learnt? <;> rfl

theorem liveWords_setLbd (c : Clause) (lbd : Nat) : (c.setLbd lbd).liveWords = c.liveWords := by
  unfold liveWords words isLearnt setLbd modifyLearnt
  cases c.learnt? <;> rfl

theorem isLearnt_setLbd (c : Clause) (lbd : Nat) : (c.setLbd lbd).isLearnt = c.isLearnt := by
  unfold isLearnt setLbd modifyLearnt
  cases c.learnt? <;> rfl

theorem share_of_isLearnt {c : Clause} (used : c.isRemoved = false) (learnt : c.isLearnt = true) :
    c.share = { learnts := 1, learntLits := c.size, frozen := if c.isFrozen then 1 else 0 } := by
  simp [share, used, learnt]

theorem share_remove (c : Clause) : c.remove.share = {} := rfl

theorem lbdShare_remove (c : Clause) (n : Nat) : c.remove.lbdShare n = 0 := rfl

theorem liveWords_remove (c : Clause) : c.remove.liveWords = 0 := rfl

theorem liveWords_of_used {c : Clause} (used : c.isRemoved = false) : c.liveWords = c.words := by
  rw [liveWords, used]
  rfl

end Clause

/-! ### Sums over an arena -/

theorem sum_map_modify {α : Type} (weight : α → Nat) (f : α → α) (xs : List α) {i : Nat} {x : α}
    (at_i : xs[i]? = some x) :
    ((xs.modify i f).map weight).sum + weight x = (xs.map weight).sum + weight (f x) := by
  induction xs generalizing i with
  | nil => cases at_i
  | cons y ys ih =>
    cases i with
    | zero =>
      cases at_i
      simp only [List.modify_zero_cons, List.map_cons, List.sum_cons]
      omega
    | succ i =>
      have := ih (by simpa using at_i)
      simp only [List.modify_succ_cons, List.map_cons, List.sum_cons]
      omega

namespace ClauseArena

variable {a b : ClauseArena} {id : ClauseId}

/-- The sum of what the clauses of the arena weigh. -/
def total (a : ClauseArena) (weight : Clause → Nat) : Nat := (a.clauses.toList.map weight).sum

/-- Changing a clause exchanges what it weighs. -/
theorem total_modify (weight : Clause → Nat) (f : Clause → Clause)
    (valid : id.slot < a.clauses.size) :
    (a.modify id f).total weight + weight (a.get id) = a.total weight + weight (f (a.get id)) := by
  have at_slot : a.clauses.toList[id.slot]? = some (a.get id) := by
    rw [get_eq, Array.getElem?_toList, Array.getElem?_eq_getElem valid]
    rfl
  unfold total modify
  rw [Array.toList_modify]
  exact sum_map_modify weight f _ at_slot

theorem total_push (weight : Clause → Nat) {lits : Array Lit} {learnt : Bool} {id : ClauseId}
    (stored : a.alloc lits learnt = .ok (id, b)) :
    b.total weight = a.total weight + weight (.fresh lits learnt) := by
  obtain ⟨-, -, space, -, rfl⟩ := alloc_eq_ok_iff.mp stored
  simp [total]

/-- Arenas whose clauses weigh the same have the same total. -/
theorem total_congr {weight : Clause → Nat} (slots : b.clauses.size = a.clauses.size)
    (same : ∀ id, weight (b.get id) = weight (a.get id)) : b.total weight = a.total weight := by
  unfold total
  congr 1
  refine List.ext_getElem? fun i => ?_
  simp only [List.getElem?_map, Array.getElem?_toList]
  by_cases inside : i < a.clauses.size
  · have := same ⟨i⟩
    rw [get_eq, get_eq] at this
    rw [Array.getElem?_eq_getElem inside, Array.getElem?_eq_getElem (slots.symm ▸ inside)] at this ⊢
    exact congrArg some this
  · rw [Array.getElem?_eq_none (by omega), Array.getElem?_eq_none (by omega)]

theorem le_total {weight : Clause → Nat} (absent : weight .absent = 0)
    (valid : id.slot < a.clauses.size) : weight (a.get id) ≤ a.total weight := by
  have := total_modify (a := a) weight (fun _ => .absent) valid
  omega

/-! ### Handles of clauses in use -/

/-- The handles of the clauses in use, in the order of their slots. -/
def handles (a : ClauseArena) : List ClauseId :=
  ((List.range a.clauses.size).map ClauseId.mk).filter fun id => !(a.get id).isRemoved

theorem mem_handles : id ∈ a.handles ↔ (a.get id).isRemoved = false := by
  unfold handles
  simp only [List.mem_filter, List.mem_map, List.mem_range, Bool.not_eq_true']
  exact ⟨And.right, fun used => ⟨⟨id.slot, slot_lt_of_used used, rfl⟩, used⟩⟩

theorem nodup_handles (a : ClauseArena) : a.handles.Nodup :=
  (List.nodup_range.map fun _ _ same => ClauseId.mk.inj same).filter _

/-- The clauses of an arena by their handles. -/
theorem clauses_eq (a : ClauseArena) :
    a.clauses.toList = (List.range a.clauses.size).map fun i => a.get ⟨i⟩ := by
  refine List.ext_getElem? fun i => ?_
  rw [Array.getElem?_toList, List.getElem?_map]
  by_cases inside : i < a.clauses.size
  · simp [inside, get_eq]
  · simp [inside]

/-- Removed clauses weigh nothing, so that a sum over the arena is one over the clauses in use. -/
theorem total_eq_handles (a : ClauseArena) (weight : Clause → Nat)
    (light : ∀ c, c.isRemoved = true → weight c = 0) :
    a.total weight = (a.handles.map fun id => weight (a.get id)).sum := by
  unfold total handles
  rw [clauses_eq, List.map_map, List.filter_map, List.map_map]
  generalize List.range a.clauses.size = slots
  induction slots with
  | nil => rfl
  | cons i slots ih =>
    rw [List.map_cons, List.sum_cons, ih, List.filter_cons]
    cases removed : (a.get ⟨i⟩).isRemoved with
    | true =>
      have none : weight (a.get ⟨i⟩) = 0 := light _ removed
      simp [removed, none]
    | false =>
      simp only [removed, Function.comp_apply, Bool.not_false, if_true, List.map_cons, List.sum_cons]

end ClauseArena

namespace Engine

variable {e f : Engine} {id : ClauseId}

/-! ### Balanced books -/

/-- Every count of clauses, literals and words is the sum of the shares, and no more words are taken than
the arena may have. -/
structure Balanced (e : Engine) : Prop where
  originals : e.tally.originals = e.arena.total (·.share.originals)
  learnts : e.tally.learnts = e.arena.total (·.share.learnts)
  frozen : e.tally.frozen = e.arena.total (·.share.frozen)
  originalLits : e.tally.originalLits = e.arena.total (·.share.originalLits)
  learntLits : e.tally.learntLits = e.arena.total (·.share.learntLits)
  lbds : ∀ n, e.lbdCounts.get n = e.arena.total (·.lbdShare n)
  words : e.arena.space.used = e.arena.space.wasted + e.arena.total Clause.liveWords
  room : e.arena.space.used ≤ e.arena.space.limit

/-- The counts change as the shares of one clause do. -/
structure Exchanges (e f : Engine) (c d : Clause) : Prop where
  originals : f.tally.originals + c.share.originals = e.tally.originals + d.share.originals
  learnts : f.tally.learnts + c.share.learnts = e.tally.learnts + d.share.learnts
  frozen : f.tally.frozen + c.share.frozen = e.tally.frozen + d.share.frozen
  originalLits : f.tally.originalLits + c.share.originalLits =
    e.tally.originalLits + d.share.originalLits
  learntLits : f.tally.learntLits + c.share.learntLits = e.tally.learntLits + d.share.learntLits
  lbds : ∀ n, f.lbdCounts.get n + c.lbdShare n = e.lbdCounts.get n + d.lbdShare n
  used : f.arena.space.used = e.arena.space.used
  wasted : f.arena.space.wasted + d.liveWords = e.arena.space.wasted + c.liveWords
  limit : f.arena.space.limit = e.arena.space.limit

/-- The books stay balanced if the counts follow the change of a clause. -/
theorem Balanced.exchange (h : e.Balanced) {change : Clause → Clause}
    (clauses : f.arena.clauses = (e.arena.modify id change).clauses)
    (used : (e.clause id).isRemoved = false)
    (exchanges : e.Exchanges f (e.clause id) (change (e.clause id))) : f.Balanced := by
  -- A sum over the arena changes by what the one clause weighs more or less.
  have total (weight : Clause → Nat) : f.arena.total weight + weight (e.clause id) =
      e.arena.total weight + weight (change (e.clause id)) := by
    rw [ClauseArena.total, clauses]
    exact ClauseArena.total_modify weight change (slot_lt used)
  constructor
  case originals =>
    have := total (·.share.originals)
    have := h.originals
    have := exchanges.originals
    omega
  case learnts =>
    have := total (·.share.learnts)
    have := h.learnts
    have := exchanges.learnts
    omega
  case frozen =>
    have := total (·.share.frozen)
    have := h.frozen
    have := exchanges.frozen
    omega
  case originalLits =>
    have := total (·.share.originalLits)
    have := h.originalLits
    have := exchanges.originalLits
    omega
  case learntLits =>
    have := total (·.share.learntLits)
    have := h.learntLits
    have := exchanges.learntLits
    omega
  case lbds =>
    intro n
    have := total (·.lbdShare n)
    have := h.lbds n
    have := exchanges.lbds n
    omega
  case words =>
    have := total Clause.liveWords
    have := h.words
    have := exchanges.used
    have := exchanges.wasted
    omega
  case room => rw [exchanges.used, exchanges.limit]; exact h.room

/-- A clause in use has its share in every count. -/
structure Counted (e : Engine) (c : Clause) : Prop where
  originals : c.share.originals ≤ e.tally.originals
  learnts : c.share.learnts ≤ e.tally.learnts
  frozen : c.share.frozen ≤ e.tally.frozen
  originalLits : c.share.originalLits ≤ e.tally.originalLits
  learntLits : c.share.learntLits ≤ e.tally.learntLits
  lbds : ∀ n, c.lbdShare n ≤ e.lbdCounts.get n

theorem Balanced.counted (h : e.Balanced) (used : (e.clause id).isRemoved = false) :
    e.Counted (e.clause id) := by
  have le (weight : Clause → Nat) (absent : weight .absent = 0) :
      weight (e.clause id) ≤ e.arena.total weight := ClauseArena.le_total absent (slot_lt used)
  constructor
  case originals => exact h.originals ▸ le (·.share.originals) rfl
  case learnts => exact h.learnts ▸ le (·.share.learnts) rfl
  case frozen => exact h.frozen ▸ le (·.share.frozen) rfl
  case originalLits => exact h.originalLits ▸ le (·.share.originalLits) rfl
  case learntLits => exact h.learntLits ▸ le (·.share.learntLits) rfl
  case lbds => exact fun n => h.lbds n ▸ le (·.lbdShare n) rfl

end Engine

namespace Watches

/-! ### Clauses of two literals -/

/-- The number of entries in all lists of clauses of two literals. -/
def pairCount (w : Watches) : Nat := (w.binary.values.toList.map Array.size).sum

/-- The literal `q` stands in the list of `p` as often as the opposite of `p` in that of the opposite
of `q`. -/
def Symmetric (w : Watches) : Prop :=
  ∀ p q, (w.binary.get p).count q = (w.binary.get q.neg).count p.neg

end Watches

namespace Engine

variable {e f g : Engine} {os ks : List ClauseId}

/-! ### Filing -/

/-- The lists name the clauses in use, each once. -/
structure Filed (os ks : List ClauseId) (e : Engine) : Prop where
  original : ∀ id, id ∈ os ↔ (e.clause id).isRemoved = false ∧ (e.clause id).isLearnt = false
  learnt : ∀ id, id ∈ ks ↔ (e.clause id).isRemoved = false ∧ (e.clause id).isLearnt = true
  originals_nodup : os.Nodup
  learnts_nodup : ks.Nodup

/-- The books of an engine: counts, lists of clauses, and clauses of two literals. -/
structure Booked (os ks : List ClauseId) (e : Engine) : Prop where
  balanced : e.Balanced
  filed : e.Filed os ks
  blank : e.watches.binary.fallback = #[]
  symmetric : e.watches.Symmetric
  pairs : e.watches.pairCount = 2 * (e.tally.originalBinary + e.tally.learntBinary)

/-- Whatever is done to a clause, a handle outside the arena reads the same. -/
theorem clause_modifyClause_or (e : Engine) (id : ClauseId) (change : Clause → Clause) (x : ClauseId) :
    (e.modifyClause id change).clause x = e.clause x ∨
      id = x ∧ (e.modifyClause id change).clause x = change (e.clause x) := by
  by_cases valid : id.slot < e.arena.clauses.size
  · change (e.arena.modify id change).get x = _ ∨ id = x ∧ (e.arena.modify id change).get x = _
    rw [ClauseArena.get_modify e.arena id x change valid]
    split
    next same => exact .inr ⟨same, rfl⟩
    next => exact .inl rfl
  · refine .inl ?_
    have outside : e.arena.clauses.modify id.slot change = e.arena.clauses := by
      refine Array.ext_getElem? fun i => ?_
      rw [Array.getElem?_modify]
      split
      next same => rw [← same, Array.getElem?_eq_none (by omega)]; rfl
      next => rfl
    simp only [clause, Engine.modifyClause, ClauseArena.get_eq, ClauseArena.modify, outside]

/-! ### What leaves the books alone -/

/-- The same books: clauses may only be reordered, scored and watched otherwise. -/
structure SameBooks (e f : Engine) : Prop where
  slots : f.arena.clauses.size = e.arena.clauses.size
  kindred : ∀ id, (e.clause id).Kindred (f.clause id)
  space : f.arena.space = e.arena.space
  tally : f.tally = e.tally
  lbdCounts : f.lbdCounts = e.lbdCounts
  binary : f.watches.binary = e.watches.binary
  frozen : f.watches.frozen = e.watches.frozen
  originals : f.originals = e.originals
  learnts : f.learnts = e.learnts
  recentLearnts : f.recentLearnts = e.recentLearnts

namespace SameBooks

theorem refl (e : Engine) : e.SameBooks e :=
  ⟨rfl, fun _ => .refl _, rfl, rfl, rfl, rfl, rfl, rfl, rfl, rfl⟩

theorem trans (h : e.SameBooks f) (k : f.SameBooks g) : e.SameBooks g where
  slots := k.slots.trans h.slots
  kindred := fun id => (h.kindred id).trans (k.kindred id)
  space := k.space.trans h.space
  tally := k.tally.trans h.tally
  lbdCounts := k.lbdCounts.trans h.lbdCounts
  binary := k.binary.trans h.binary
  frozen := k.frozen.trans h.frozen
  originals := k.originals.trans h.originals
  learnts := k.learnts.trans h.learnts
  recentLearnts := k.recentLearnts.trans h.recentLearnts

/-- The trail, branching, policies and the marks of analyses are not part of the books. -/
theorem others (e : Engine) {trail : Trail} {branching : Branching} {policy : Policy}
    {stats : Statistics} {clauseIncrement : Float} {ok : Bool} {seen : DenseMap Var Seen}
    {levelCounter : LevelCounter} {simplifiedAt : Option Nat} :
    e.SameBooks { e with
      trail, branching, policy, stats, clauseIncrement, ok, seen, levelCounter, simplifiedAt } :=
  { refl e with }

theorem removed (h : e.SameBooks f) (id : ClauseId) :
    (f.clause id).isRemoved = (e.clause id).isRemoved := (h.kindred id).removed

theorem balanced (h : e.SameBooks f) (b : e.Balanced) : f.Balanced := by
  have total {weight : Clause → Nat} (same : ∀ c d : Clause, c.Kindred d → weight d = weight c) :
      f.arena.total weight = e.arena.total weight :=
    ClauseArena.total_congr h.slots fun id => same _ _ (h.kindred id)
  constructor
  case originals => rw [h.tally, total fun _ _ k => congrArg _ k.share]; exact b.originals
  case learnts => rw [h.tally, total fun _ _ k => congrArg _ k.share]; exact b.learnts
  case frozen => rw [h.tally, total fun _ _ k => congrArg _ k.share]; exact b.frozen
  case originalLits => rw [h.tally, total fun _ _ k => congrArg _ k.share]; exact b.originalLits
  case learntLits => rw [h.tally, total fun _ _ k => congrArg _ k.share]; exact b.learntLits
  case lbds => exact fun n => by rw [h.lbdCounts, total fun _ _ k => k.lbdShare n]; exact b.lbds n
  case words => rw [h.space, total fun _ _ k => k.liveWords]; exact b.words
  case room => rw [h.space]; exact b.room

theorem filed (h : e.SameBooks f) (filed : e.Filed os ks) : f.Filed os ks where
  original := fun id => by rw [h.removed, (h.kindred id).learnt]; exact filed.original id
  learnt := fun id => by rw [h.removed, (h.kindred id).learnt]; exact filed.learnt id
  originals_nodup := filed.originals_nodup
  learnts_nodup := filed.learnts_nodup

theorem booked (h : e.SameBooks f) (b : e.Booked os ks) : f.Booked os ks where
  balanced := h.balanced b.balanced
  filed := h.filed b.filed
  blank := h.binary ▸ b.blank
  symmetric := by rw [Watches.Symmetric, h.binary]; exact b.symmetric
  pairs := by rw [Watches.pairCount, h.binary, h.tally]; exact b.pairs

theorem modifyClause (e : Engine) (id : ClauseId) {change : Clause → Clause}
    (kindred : ∀ c : Clause, c.Kindred (change c)) : e.SameBooks (e.modifyClause id change) :=
  { refl e with
    slots := by simp [Engine.modifyClause, ClauseArena.modify]
    kindred := by
      intro other
      rcases e.clause_modifyClause_or id change other with same | ⟨-, same⟩
      · rw [same]
        exact .refl _
      · rw [same]
        exact kindred _ }

/-- Only the lists of clauses that propagate are touched. -/
theorem modifyWatches (e : Engine) (change : Watches → Watches)
    (binary : (change e.watches).binary = e.watches.binary)
    (frozen : (change e.watches).frozen = e.watches.frozen) :
    e.SameBooks (e.modifyWatches change) := { refl e with binary, frozen }

end SameBooks

end Engine

end Cdcl
