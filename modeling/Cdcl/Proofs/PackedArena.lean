import Cdcl.Proofs.PackedClauses

/-!
# Arenas of packed clauses

An arena of words works as a map from handles to clauses. Every clause has words of its own, and its header
says which. An operation on one clause reads and writes no others; a clause that is shrunk has fewer words
from then on, and a new one gets words that no clause had.

## Main results

- `Region.Holds.edit`: an edit, and the words that it leaves alone.
- `PackedArena.Packs.step`: what one operation keeps.
- `PackedArena.serves_of_run`: what an arena answers after any operations.
-/

namespace Cdcl

namespace Region

variable {r s : Region} {o : Offset} {c d : ClauseWords}

/-- The words of a clause stand at an offset. -/
structure Holds (r : Region) (o : Offset) (c : ClauseWords) : Prop where
  whole : c.Whole
  words : ∀ i, i < c.toList.length → r.words[o.word + i]? = c.toList[i]?

theorem Holds.inside (h : r.Holds o c) : o.word + c.toList.length ≤ r.words.size := by
  -- The last word of the clause is a word of the region.
  have last := h.words (c.toList.length - 1) (by simp [ClauseWords.toList])
  rw [List.getElem?_eq_getElem (by simp [ClauseWords.toList])] at last
  have bound := (Array.getElem?_eq_some_iff.mp last).1
  simp only [ClauseWords.toList, List.length_cons] at bound ⊢
  omega

/-- Words that stay keep their clause. -/
theorem Holds.congr (h : r.Holds o c)
    (same : ∀ i, o.word ≤ i → i < o.word + c.toList.length → s.words[i]? = r.words[i]?) : s.Holds o c where
  whole := h.whole
  words := fun i inside => (same (o.word + i) (by omega) (by omega)).trans (h.words i inside)

/-- A clause is read from its words. -/
theorem Holds.clauseWords? (h : r.Holds o c) : r.clauseWords? o = .ok c := by
  have header : r.words[o.word + 0]? = some c.header := h.words 0 (by simp [ClauseWords.toList])
  have inside := h.inside
  have length : c.body.length =
      (Header.ofWord c.header.toNat).size + Clause.extraLength (Header.ofWord c.header.toNat).learnt := by
    rw [← h.whole.data, ← h.whole.extra, ClauseWords.body, List.length_append]
  simp only [ClauseWords.toList, List.length_cons] at inside
  -- The body is as long as the header says, and is read word by word.
  have body : (r.words.toList.drop (o.word + 1)).take c.body.length = c.body := by
    refine List.ext_getElem? fun i => ?_
    rw [List.getElem?_take, List.getElem?_drop, Array.getElem?_toList]
    split
    next low =>
      have at_i := h.words (i + 1) (by simpa [ClauseWords.toList] using low)
      rw [ClauseWords.toList, List.getElem?_cons_succ] at at_i
      rw [← at_i]
      congr 1
      omega
    next high => rw [List.getElem?_eq_none (Nat.le_of_not_lt high)]
  unfold Region.clauseWords? get? read?
  rw [header]
  dsimp only
  rw [← length, if_pos (by omega), body]
  exact congrArg Except.ok h.whole.split_body

theorem alloc_eq_error_iff {n : Nat} {e : SolverError} :
    r.alloc n = .error e ↔ r.space.claim n = .error e := by
  unfold alloc
  cases r.space.claim n with
  | error other => constructor <;> (rintro ⟨⟩; rfl)
  | ok space => constructor <;> rintro ⟨⟩

/-- Words that fit are written, and the others stay. -/
theorem exists_write (r : Region) (o : Offset) (ws : List UInt32) (room : o.word + ws.length ≤ r.words.size) :
    ∃ s, r.write? o ws = .ok s ∧ s.space = r.space ∧ s.words.size = r.words.size ∧
      ∀ i, s.words[i]? =
        if o.word ≤ i ∧ i < o.word + ws.length then ws[i - o.word]? else r.words[i]? := by
  have writes : (ws.zipIdx.foldl (fun words s => words.setIfInBounds (o.word + s.2) s.1) r.words).toList =
      ws.zipIdx.foldl (fun l s => l.set (o.word + s.2) s.1) r.words.toList :=
    (List.foldl_hom Array.toList fun words s => (Array.toList_setIfInBounds ..).symm).symm
  refine ⟨_, if_pos room, rfl, ?_, fun i => ?_⟩
  · exact (congrArg List.length writes).trans (length_foldl_set ..)
  · have overwritten := getElem?_foldl_set ws 0 o.word r.words.toList room i
    rw [← writes, Array.getElem?_toList, @Array.getElem?_toList _ r.words] at overwritten
    exact overwritten

/-- The words read again are the first of those written. -/
theorem getElem?_split {header : UInt32} {body : List UInt32} {i : Nat}
    (inside : i < (ClauseWords.split header body).toList.length) :
    (ClauseWords.split header body).toList[i]? = (header :: body)[i]? := by
  cases i with
  | zero => rfl
  | succ i =>
    simp only [ClauseWords.toList, ClauseWords.body, ClauseWords.split, ← List.take_add, List.length_cons,
      List.length_take, Nat.add_lt_add_iff_right] at inside ⊢
    rw [List.getElem?_cons_succ, List.getElem?_cons_succ, List.getElem?_take, if_pos (by omega)]

/-- An edit changes words of the clause only, and the clause has no more words afterwards. -/
theorem Holds.edit (h : r.Holds o c) {e : ClauseEdit} (allowed : e.Allowed (Clause.ofWords c)) :
    ∃ s d, r.edit? o e = .ok s ∧ s.Holds o d ∧ Clause.ofWords d = e.apply (Clause.ofWords c) ∧
      s.space = r.space ∧ s.words.size = r.words.size ∧ d.toList.length ≤ c.toList.length ∧
      ∀ i, i < o.word ∨ o.word + c.toList.length ≤ i → s.words[i]? = r.words[i]? := by
  obtain ⟨d, result, length, whole, meaning⟩ := ClauseWords.edited h.whole allowed
  have inside := h.inside
  -- An edit writes as many words as there were; those behind a clause that was shrunk are written
  -- too.
  have words : d.toList.length = c.toList.length := congrArg Nat.succ length
  obtain ⟨s, written, space, size, get⟩ := r.exists_write o d.toList (by omega)
  -- The header that was written may speak of fewer words, never of more.
  have few : (ClauseWords.split d.header d.body).toList.length ≤ d.toList.length := by
    simp only [ClauseWords.toList, ClauseWords.body, ClauseWords.split, ← List.take_add, List.length_cons,
      List.length_take]
    omega
  refine ⟨s, .split d.header d.body, ?_, ⟨whole, fun i low => ?_⟩, meaning, space, size, by omega,
    fun i outside => ?_⟩
  · rw [edit?, h.clauseWords?]
    dsimp only
    rw [result]
    exact written
  · rw [get, if_pos (by omega), getElem?_split low, Nat.add_sub_cancel_left]
    rfl
  · rw [get, if_neg (by omega)]

end Region

/-! ### One operation after the other -/

/-- What can be done to an arena that holds these clauses. -/
def ArenaOp.Allowed (a : ClauseArena) : ArenaOp → Prop
  | .store lits _ => ∀ l ∈ lits, l.code < UInt32.size
  | .edit id e => id.slot < a.clauses.size ∧ e.Allowed (a.get id)
  | .free id => id.slot < a.clauses.size
  | .waste _ => True

/-- Each operation is allowed when its turn comes. -/
def ClauseArena.Allows (a : ClauseArena) : List ArenaOp → Prop
  | [] => True
  | op :: ops => op.Allowed a ∧ (a.step op).2.Allows ops

instance ArenaOp.decidableAllowed (a : ClauseArena) : (op : ArenaOp) → Decidable (op.Allowed a)
  | .store lits _ => inferInstanceAs (Decidable (∀ l ∈ lits, l.code < UInt32.size))
  | .edit id e => inferInstanceAs (Decidable (id.slot < a.clauses.size ∧ e.Allowed (a.get id)))
  | .free id => inferInstanceAs (Decidable (id.slot < a.clauses.size))
  | .waste _ => inferInstanceAs (Decidable True)

instance ClauseArena.decidableAllows : (a : ClauseArena) → (ops : List ArenaOp) → Decidable (a.Allows ops)
  | _, [] => inferInstanceAs (Decidable True)
  | a, op :: ops =>
    have := decidableAllows (a.step op).2 ops
    inferInstanceAs (Decidable (op.Allowed a ∧ (a.step op).2.Allows ops))

namespace PackedArena

variable {p q : PackedArena} {a : ClauseArena} {op : ArenaOp} {ops : List ArenaOp}

/-- The words hold the clauses, one behind the other. -/
structure Packs (p : PackedArena) (a : ClauseArena) : Prop where
  space : p.region.space = a.space
  used : p.region.words.size = a.space.used
  room : a.space.used ≤ a.space.limit
  handles : p.places.size = a.clauses.size
  holds : ∀ i o, p.places[i]? = some o → ∃ c, p.region.Holds o c ∧ Clause.ofWords c = a.get ⟨i⟩
  apart : ∀ i j o u, i < j → p.places[i]? = some o → p.places[j]? = some u →
    o.word + (a.get ⟨i⟩).words ≤ u.word

theorem packs_empty (limit : Nat) : (empty limit).Packs (.empty limit) where
  space := rfl
  used := rfl
  room := Nat.zero_le limit
  handles := rfl
  holds := fun i o stored => by simp [empty] at stored
  apart := fun i j o u _ stored => by simp [empty] at stored

theorem Packs.place? (h : p.Packs a) {id : ClauseId} (valid : id.slot < a.clauses.size) :
    ∃ o c, p.place? id = .ok o ∧ p.places[id.slot]? = some o ∧ p.region.Holds o c ∧
      Clause.ofWords c = a.get id := by
  have bound : id.slot < p.places.size := h.handles.symm ▸ valid
  have stored : p.places[id.slot]? = some p.places[id.slot] := Array.getElem?_eq_getElem bound
  obtain ⟨c, holds, clause⟩ := h.holds _ _ stored
  refine ⟨_, c, ?_, stored, holds, clause⟩
  rw [PackedArena.place?, stored]

/-- A handle reads its clause. -/
theorem Packs.read? (h : p.Packs a) {id : ClauseId} (valid : id.slot < a.clauses.size) :
    p.read? id = .ok (a.get id) := by
  obtain ⟨o, c, place, -, holds, clause⟩ := h.place? valid
  rw [PackedArena.read?, place]
  dsimp only
  rw [holds.clauseWords?, ← clause]
  rfl

/-- What is written at the place of one clause is not in the words of another. -/
theorem Packs.outside (h : p.Packs a) {i j : Nat} {o u : Offset} {c d : ClauseWords} (ne : i ≠ j)
    (first : p.places[i]? = some o) (second : p.places[j]? = some u) (holds : p.region.Holds o c)
    (clause : Clause.ofWords c = a.get ⟨i⟩) (holds' : p.region.Holds u d)
    (clause' : Clause.ofWords d = a.get ⟨j⟩) :
    o.word + c.toList.length ≤ u.word ∨ u.word + d.toList.length ≤ o.word := by
  rcases Nat.lt_or_gt_of_ne ne with lt | gt
  · have before := h.apart i j o u lt first second
    rw [← clause, holds.whole.words] at before
    exact .inl before
  · have before := h.apart j i u o gt second first
    rw [← clause', holds'.whole.words] at before
    exact .inr before

theorem Packs.edit (h : p.Packs a) {id : ClauseId} {e : ClauseEdit} (valid : id.slot < a.clauses.size)
    (allowed : e.Allowed (a.get id)) :
    ∃ q, p.step (.edit id e) = .ok (.done, q) ∧ q.Packs (a.modify id e.apply) := by
  obtain ⟨o, c, place, stored, holds, clause⟩ := h.place? valid
  obtain ⟨r, d, edited, holds', meaning, space, size, few, same⟩ := holds.edit (clause ▸ allowed)
  have get (other : ClauseId) := a.get_modify id other e.apply valid
  refine ⟨{ p with region := r }, ?_, ?_⟩
  · simp only [step, place, edited]
  · constructor
    case space => exact space.trans h.space
    case used => exact size.trans h.used
    case room => exact h.room
    case handles => exact h.handles.trans (Array.size_modify ..).symm
    case holds =>
      -- The handle itself reads the words written; the words of any other clause are outside of
      -- them.
      intro i u stored'
      by_cases this : id = ⟨i⟩
      · subst this
        cases stored.symm.trans stored'
        exact ⟨d, holds', by rw [meaning, get, if_pos rfl, clause]⟩
      · obtain ⟨c', holds'', clause'⟩ := h.holds i u stored'
        have ne : id.slot ≠ i := fun same => this (by cases id; cases same; rfl)
        have outside := h.outside ne stored stored' holds clause holds'' clause'
        refine ⟨c', holds''.congr fun k low high => same k (by omega), ?_⟩
        rw [get, if_neg this, clause']
    case apart =>
      intro i j u v lt first second
      -- The clause edited may have got shorter, and the others have the words that they had.
      refine Nat.le_trans (Nat.add_le_add_left ?_ _) (h.apart i j u v lt first second)
      rw [get]
      split
      next this => rw [← this, ← clause, ← meaning, holds.whole.words, holds'.whole.words]; exact few
      next => exact Nat.le_refl _

theorem words_fresh (lits : Array Lit) (learnt : Bool) :
    (Clause.fresh lits learnt).words = 1 + lits.size + Clause.extraLength learnt := by
  cases learnt <;> rfl

/-- A new clause gets words behind all others. -/
theorem Packs.alloc (h : p.Packs a) {lits : Array Lit} {learnt : Bool} {space : Space}
    (size : lits.size ≤ Header.maxSize) (codes : ∀ l ∈ lits, l.code < UInt32.size)
    (claimed : a.space.claim (1 + lits.size + Clause.extraLength learnt) = .ok space) :
    ∃ r, Region.write?
        { space, words := p.region.words ++ Array.replicate (1 + lits.size + Clause.extraLength learnt) 0 }
        ⟨p.region.words.size⟩ (ClauseWords.fresh lits learnt).toList = .ok r ∧
      Packs { region := r, places := p.places.push ⟨p.region.words.size⟩ }
        { clauses := a.clauses.push (.fresh lits learnt), space } := by
  have allocated : a.alloc lits learnt =
      .ok (⟨a.clauses.size⟩, { clauses := a.clauses.push (.fresh lits learnt), space }) := by
    rw [← words_fresh] at claimed
    exact ClauseArena.alloc_eq_ok_iff.mpr ⟨size, rfl, space, claimed, rfl⟩
  have get := ClauseArena.get_alloc allocated
  obtain ⟨room, grown⟩ := Space.claim_eq_ok_iff.mp claimed
  have fresh := ClauseWords.ofWords_fresh learnt size codes
  have whole := ClauseWords.whole_fresh learnt size
  have length := whole.words
  rw [fresh, words_fresh] at length
  -- From here on only the number of words matters, not what it is made of.
  generalize 1 + lits.size + Clause.extraLength learnt = n at *
  obtain ⟨r, written, same, total, words⟩ := Region.exists_write
    { space, words := p.region.words ++ Array.replicate n 0 } ⟨p.region.words.size⟩
    (ClauseWords.fresh lits learnt).toList (by simp [length])
  simp only [Array.size_append, Array.size_replicate] at total
  -- Words that were there before are not written.
  have old (i : Nat) (low : i < p.region.words.size) : r.words[i]? = p.region.words[i]? := by
    rw [words, if_neg (by dsimp only; omega), Array.getElem?_append_left low]
  -- A place is an old one, or the new one at the end.
  have slot (i : Nat) {o : Offset} (stored : (p.places.push ⟨p.region.words.size⟩)[i]? = some o) :
      i < a.clauses.size ∧ p.places[i]? = some o ∨ i = a.clauses.size ∧ o = ⟨p.region.words.size⟩ := by
    rw [Array.getElem?_push, h.handles] at stored
    split at stored
    next last => exact .inr ⟨last, (Option.some.inj stored).symm⟩
    next => exact .inl ⟨h.handles ▸ (Array.getElem?_eq_some_iff.mp stored).1, stored⟩
  have before (i : Nat) (low : i < a.clauses.size) :
      ({ clauses := a.clauses.push (.fresh lits learnt), space } : ClauseArena).get ⟨i⟩ = a.get ⟨i⟩ := by
    rw [get ⟨i⟩ (.inl low), if_neg]
    rintro ⟨⟩
    exact Nat.lt_irrefl _ low
  have last := get ⟨a.clauses.size⟩ (.inr rfl)
  rw [if_pos rfl] at last
  refine ⟨r, written, ?_⟩
  constructor
  case space => exact same
  case used => rw [total, h.used, grown]
  case room => rw [grown]; exact room
  case handles => rw [Array.size_push, Array.size_push, h.handles]
  case holds =>
    intro i o stored
    rcases slot i stored with ⟨low, stored⟩ | ⟨rfl, rfl⟩
    · obtain ⟨c, holds, clause⟩ := h.holds i o stored
      have inside := holds.inside
      refine ⟨c, holds.congr fun k _ high => old k (by omega), ?_⟩
      rw [before i low, clause]
    · -- The words of the new clause are those that were written.
      refine ⟨ClauseWords.fresh lits learnt, ⟨whole, fun i low => ?_⟩, fresh.trans last.symm⟩
      rw [words, if_pos (by dsimp only; omega), Nat.add_sub_cancel_left]
  case apart =>
    intro i j o u lt first second
    rcases slot j second with ⟨low, second⟩ | ⟨rfl, rfl⟩
    · rcases slot i first with ⟨low', first⟩ | ⟨rfl, -⟩
      · rw [before i low']
        exact h.apart i j o u lt first second
      · -- No old handle is behind the new one.
        omega
    · -- Old words end where the region ended, and the new clause begins there.
      rcases slot i first with ⟨low', first⟩ | ⟨rfl, -⟩
      · obtain ⟨c, holds, clause⟩ := h.holds i o first
        rw [before i low', ← clause, holds.whole.words]
        -- The words of the old clause are inside the region as it was.
        exact holds.inside
      · omega

theorem Packs.store (h : p.Packs a) {lits : Array Lit} (codes : ∀ l ∈ lits, l.code < UInt32.size) (learnt : Bool) :
    ∃ q, p.step (.store lits learnt) = .ok ((a.store lits learnt).1, q) ∧ q.Packs (a.store lits learnt).2 := by
  unfold step PackedArena.store ClauseArena.store ClauseArena.alloc
  dsimp only
  split
  · exact ⟨p, rfl, h⟩
  next size =>
    -- The arena and the words ask for the same number of words, so both have room or none has.
    unfold Region.alloc
    rw [h.space, words_fresh]
    cases claimed : a.space.claim (1 + lits.size + Clause.extraLength learnt) with
    | error e => exact ⟨p, rfl, h⟩
    | ok space =>
      obtain ⟨r, written, packs⟩ := h.alloc (Nat.le_of_not_lt size) codes claimed
      refine ⟨_, ?_, packs⟩
      dsimp only
      rw [written, h.handles]

theorem Packs.waste (h : p.Packs a) (n : Nat) :
    ({ p with region := p.region.free n } : PackedArena).Packs (a.waste n) where
  space := congrArg (Space.waste · n) h.space
  used := h.used
  room := h.room
  handles := h.handles
  holds := fun i o stored => by
    obtain ⟨c, holds, clause⟩ := h.holds i o stored
    exact ⟨c, ⟨holds.whole, holds.words⟩, clause⟩
  apart := h.apart

/-- An operation does to the words what it does to the clauses. -/
theorem Packs.step (h : p.Packs a) (allowed : op.Allowed a) :
    ∃ q, p.step op = .ok ((a.step op).1, q) ∧ q.Packs (a.step op).2 := by
  cases op with
  | store lits learnt => exact h.store allowed learnt
  | edit id e => exact h.edit allowed.1 allowed.2
  | free id =>
    refine ⟨_, ?_, h.waste (a.get id).words⟩
    -- The words to be freed are those that the handle reads.
    rw [PackedArena.step, h.read? allowed]
    rfl
  | waste n => exact ⟨_, rfl, h.waste n⟩

theorem Packs.run (h : p.Packs a) (allowed : a.Allows ops) :
    ∃ q, p.run ops = .ok ((a.run ops).1, q) ∧ q.Packs (a.run ops).2 := by
  induction ops generalizing p a with
  | nil => exact ⟨p, rfl, h⟩
  | cons op ops ih =>
    obtain ⟨q, step, packs⟩ := h.step allowed.1
    obtain ⟨r, run, packs'⟩ := ih packs allowed.2
    refine ⟨r, ?_, packs'⟩
    rw [PackedArena.run, step]
    dsimp only
    rw [run]
    rfl

end PackedArena

/-! ### What a handle reads -/

/-- What an operation makes of the clause of a handle. -/
def ArenaOp.onClause (id : ClauseId) : ArenaOp → Clause → Clause
  | .edit other e, c => if other = id then e.apply c else c
  | .store _ _, c | .free _, c | .waste _, c => c

namespace ClauseArena

variable {a : ClauseArena} {op : ArenaOp} {ops : List ArenaOp} {id : ClauseId}

theorem limit_step (a : ClauseArena) (op : ArenaOp) : (a.step op).2.space.limit = a.space.limit := by
  cases op with
  | store lits learnt =>
    unfold step store
    dsimp only
    cases stored : a.alloc lits learnt with
    | error e => rfl
    | ok result =>
      obtain ⟨-, -, space, claimed, new⟩ := alloc_eq_ok_iff.mp stored
      obtain ⟨-, rfl⟩ := Space.claim_eq_ok_iff.mp claimed
      exact congrArg (·.space.limit) new
  | edit id e => rfl
  | free id => rfl
  | waste n => rfl

theorem limit_run (a : ClauseArena) (ops : List ArenaOp) : (a.run ops).2.space.limit = a.space.limit := by
  induction ops generalizing a with
  | nil => rfl
  | cons op ops ih => exact (ih _).trans (a.limit_step op)

/-- A handle stays one, and reads what the operation makes of its clause. -/
theorem get_step (allowed : op.Allowed a) (valid : id.slot < a.clauses.size) :
    id.slot < (a.step op).2.clauses.size ∧ (a.step op).2.get id = op.onClause id (a.get id) := by
  cases op with
  | store lits learnt =>
    unfold step store
    dsimp only
    rcases stored : a.alloc lits learnt with e | ⟨new, b⟩
    · exact ⟨valid, rfl⟩
    · have get := get_alloc stored id (.inl valid)
      -- The new handle is behind all that are valid, so theirs are read as before.
      obtain ⟨-, rfl, space, -, rfl⟩ := alloc_eq_ok_iff.mp stored
      refine ⟨by simp only [Array.size_push]; omega, get.trans (if_neg ?_)⟩
      rintro rfl
      exact Nat.lt_irrefl _ valid
  | edit other e =>
    exact ⟨Nat.lt_of_lt_of_eq valid (Array.size_modify ..).symm, a.get_modify other id e.apply allowed.1⟩
  | free other => exact ⟨valid, rfl⟩
  | waste n => exact ⟨valid, rfl⟩

/-- After any operations, a handle reads what its own ones make of its clause. -/
theorem get_run (allowed : a.Allows ops) (valid : id.slot < a.clauses.size) :
    id.slot < (a.run ops).2.clauses.size ∧
      (a.run ops).2.get id = ops.foldl (fun c op => op.onClause id c) (a.get id) := by
  induction ops generalizing a with
  | nil => exact ⟨valid, rfl⟩
  | cons op ops ih =>
    obtain ⟨valid', get⟩ := get_step allowed.1 valid
    rw [List.foldl_cons, ← get]
    exact ih allowed.2 valid'

end ClauseArena

namespace PackedArena

variable {p q : PackedArena} {a : ClauseArena} {limit : Nat} {ops : List ArenaOp}

/-- An arena of words, of which `limit` may be used, serves as a map from handles to clauses, which now are
those of `a`. -/
structure Serves (p : PackedArena) (limit : Nat) (a : ClauseArena) : Prop where
  space : p.region.space = a.space
  limited : p.region.space.limit = limit
  length : p.region.words.size = p.region.space.used
  /-- The places are below the limit. -/
  places : ∀ o ∈ p.places, o.word < limit
  /-- A handle reads its clause. -/
  reads : ∀ id, id.slot < a.clauses.size → p.read? id = .ok (a.get id)
  /-- Whatever is done, a handle then reads what its own operations make of its clause. -/
  owns : ∀ ops, a.Allows ops → ∃ q, p.run ops = .ok ((a.run ops).1, q) ∧
    ∀ id, id.slot < a.clauses.size →
      q.read? id = .ok (ops.foldl (fun c op => op.onClause id c) (a.get id))
  /-- There is no room for just those words that would go past the limit. -/
  lacks : ∀ n e, p.region.alloc n = .error e ↔
    limit < p.region.words.size + n ∧ e = .arenaExhausted (p.region.words.size + n) limit
  /-- A clause that fits is stored under a new handle. -/
  stores : ∀ lits learnt, (∀ l ∈ lits, l.code < UInt32.size) → lits.size ≤ Header.maxSize →
    p.region.words.size + (Clause.fresh lits learnt).words ≤ limit →
    ∃ q, p.step (.store lits learnt) = .ok (.stored ⟨a.clauses.size⟩, q) ∧
      q.read? ⟨a.clauses.size⟩ = .ok (.fresh lits learnt)
  /-- The arena is full for just those clauses whose words would go past the limit, and stays as it is. -/
  refuses : ∀ lits learnt e q, (∀ l ∈ lits, l.code < UInt32.size) → lits.size ≤ Header.maxSize →
    (p.step (.store lits learnt) = .ok (.refused e, q) ↔
      limit < p.region.words.size + (Clause.fresh lits learnt).words ∧ q = p ∧
        e = .arenaExhausted (p.region.words.size + (Clause.fresh lits learnt).words) limit)
  /-- A clause that no header has room for is refused as well. -/
  tooLarge : ∀ lits learnt, Header.maxSize < lits.size →
    p.step (.store lits learnt) = .ok (.refused (.clauseTooLarge lits.size), p)

/-- A clause that fits is stored. -/
theorem Packs.stored (h : p.Packs a) {lits : Array Lit} {learnt : Bool} (codes : ∀ l ∈ lits, l.code < UInt32.size)
    (size : lits.size ≤ Header.maxSize)
    (room : a.space.used + (Clause.fresh lits learnt).words ≤ a.space.limit) :
    ∃ q, p.step (.store lits learnt) = .ok (.stored ⟨a.clauses.size⟩, q) ∧
      q.read? ⟨a.clauses.size⟩ = .ok (.fresh lits learnt) := by
  have claimed := Space.claim_eq_ok_iff.mpr ⟨room, rfl⟩
  have stored : a.store lits learnt = (.stored ⟨a.clauses.size⟩,
      { clauses := a.clauses.push (.fresh lits learnt)
        space := { a.space with used := a.space.used + (Clause.fresh lits learnt).words } }) := by
    rw [ClauseArena.store, ClauseArena.alloc_eq_ok_iff.mpr ⟨size, rfl, _, claimed, rfl⟩]
  obtain ⟨q, step, packs⟩ := h.store codes learnt
  rw [stored] at step packs
  refine ⟨q, step, ?_⟩
  rw [packs.read? (by simp), ClauseArena.get_eq]
  simp

/-- A clause that does not fit is refused, and the arena stays as it is. -/
theorem step_of_full {lits : Array Lit} {learnt : Bool} (size : lits.size ≤ Header.maxSize)
    (full : p.region.space.limit < p.region.space.used + (Clause.fresh lits learnt).words) :
    p.step (.store lits learnt) = .ok (.refused (.arenaExhausted
      (p.region.space.used + (Clause.fresh lits learnt).words) p.region.space.limit), p) := by
  have refused := Space.claim_eq_error_iff.mpr ⟨full, rfl⟩
  rw [step, PackedArena.store, if_neg (Nat.not_lt_of_le size), Region.alloc, ← words_fresh, refused]

theorem Packs.serves (h : p.Packs a) (limited : a.space.limit = limit) : p.Serves limit a := by
  have length : p.region.words.size = p.region.space.used := by rw [h.used, h.space]
  constructor
  case space => exact h.space
  case limited => rw [h.space, limited]
  case length => exact length
  case places =>
    intro o member
    -- A place is in front of a word of its clause, and the words are within the limit.
    obtain ⟨i, stored⟩ := Array.mem_iff_getElem?.mp member
    obtain ⟨c, holds, -⟩ := h.holds i o stored
    have inside := holds.inside
    have room := h.room
    have used := h.used
    simp only [ClauseWords.toList, List.length_cons] at inside
    omega
  case reads => exact fun id valid => h.read? valid
  case owns =>
    intro ops allowed
    obtain ⟨q, run, packs⟩ := h.run allowed
    refine ⟨q, run, fun id valid => ?_⟩
    obtain ⟨valid', get⟩ := ClauseArena.get_run allowed valid
    rw [packs.read? valid', get]
  case lacks =>
    intro n e
    rw [length, ← limited, ← h.space]
    exact Region.alloc_eq_error_iff.trans Space.claim_eq_error_iff
  case stores =>
    intro lits learnt codes size room
    rw [h.used, ← limited] at room
    exact h.stored codes size room
  case refuses =>
    intro lits learnt e q codes size
    rw [length, ← limited, ← h.space]
    constructor
    · intro refused
      -- Whether the words claimed go past the limit decides what a step answers.
      by_cases full : p.region.space.limit < p.region.space.used + (Clause.fresh lits learnt).words
      · cases (step_of_full size full).symm.trans refused
        exact ⟨full, rfl, rfl⟩
      · rw [h.space] at full
        obtain ⟨r, stored, -⟩ := h.stored codes size (Nat.le_of_not_lt full)
        cases stored.symm.trans refused
    · rintro ⟨full, rfl, rfl⟩
      exact step_of_full size full
  case tooLarge =>
    intro lits learnt large
    exact if_pos large

/-- An arena of words serves as a map from handles to clauses after any operations. -/
theorem serves_of_run (allowed : (ClauseArena.empty limit).Allows ops) :
    ∃ p, (empty limit).run ops = .ok (((ClauseArena.empty limit).run ops).1, p) ∧
      p.Serves limit ((ClauseArena.empty limit).run ops).2 := by
  obtain ⟨p, run, packs⟩ := (packs_empty limit).run allowed
  exact ⟨p, run, packs.serves (ClauseArena.limit_run _ ops)⟩

/-- The activity and the counts of a clause shrunk by one move by one word, onto a literal and themselves.
The last clause does not fit any more. -/
theorem serves_of_run_shrunk : ∃ p,
    (empty 20).run
      [.store #[.ofDimacs 1, .ofDimacs (-2), .ofDimacs 3, .ofDimacs 4, .ofDimacs (-5)] true,
        .store #[.ofDimacs (-1), .ofDimacs 2, .ofDimacs 3] false,
        .edit ⟨0⟩ (.setLbd 70000), .edit ⟨0⟩ (.setFreezeCount 3), .edit ⟨0⟩ (.setFrozen true),
        .edit ⟨0⟩ (.swap 0 4), .edit ⟨0⟩ (.shrink 4), .waste 1, .edit ⟨1⟩ (.setMark 1),
        .edit ⟨1⟩ (.setLit 2 (.ofDimacs (-4))), .free ⟨1⟩,
        .store #[.ofDimacs 1, .ofDimacs 2, .ofDimacs 3, .ofDimacs 4, .ofDimacs 5, .ofDimacs 6] true] =
      .ok ([.stored ⟨0⟩, .stored ⟨1⟩, .done, .done, .done, .done, .done, .done, .done, .done, .done,
        .refused (.arenaExhausted 21 20)], p) ∧
      p.read? ⟨0⟩ = .ok
        { lits := #[.ofDimacs (-5), .ofDimacs (-2), .ofDimacs 3, .ofDimacs 4]
          learnt? := some { lbd := 65535, freezeCount := 3, frozen := true } } ∧
      p.read? ⟨1⟩ = .ok { lits := #[.ofDimacs (-1), .ofDimacs 2, .ofDimacs (-4)], mark := 1 } ∧
      p.region.space = { used := 12, wasted := 5, limit := 20 } := by
  have allowed : (ClauseArena.empty 20).Allows
      [.store #[.ofDimacs 1, .ofDimacs (-2), .ofDimacs 3, .ofDimacs 4, .ofDimacs (-5)] true,
        .store #[.ofDimacs (-1), .ofDimacs 2, .ofDimacs 3] false,
        .edit ⟨0⟩ (.setLbd 70000), .edit ⟨0⟩ (.setFreezeCount 3), .edit ⟨0⟩ (.setFrozen true),
        .edit ⟨0⟩ (.swap 0 4), .edit ⟨0⟩ (.shrink 4), .waste 1, .edit ⟨1⟩ (.setMark 1),
        .edit ⟨1⟩ (.setLit 2 (.ofDimacs (-4))), .free ⟨1⟩,
        .store #[.ofDimacs 1, .ofDimacs 2, .ofDimacs 3, .ofDimacs 4, .ofDimacs 5, .ofDimacs 6] true] := by
    decide +kernel
  obtain ⟨p, run, serves⟩ := serves_of_run allowed
  exact ⟨p, run, serves.reads ⟨0⟩ (by decide +kernel), serves.reads ⟨1⟩ (by decide +kernel), serves.space⟩

end PackedArena

end Cdcl
