import Cdcl.Arena.Packed
import Cdcl.Proofs.FloatBits
import Mathlib.Data.List.Basic

/-!
# Words of clauses

What is done to the words of a clause is done to the clause that they mean. To shrink a clause moves the
words behind the literals onto those of literals dropped, and maybe onto each other, and leaves words behind
that belong to no clause any more: they are read again as the new header says.

## Main results

- `ClauseWords.ofWords_fresh`: a clause stored at first.
- `ClauseWords.edited`: an edit that a clause allows has a result, and this means the clause edited.
-/

namespace Cdcl

theorem length_foldl_set {α : Type} (entries : List (α × Nat)) (n : Nat) (l : List α) :
    (entries.foldl (fun l s => l.set (n + s.2) s.1) l).length = l.length := by
  induction entries generalizing l with
  | nil => rfl
  | cons s entries ih => exact (ih _).trans List.length_set

/-- To set the elements of one list, one after the other, at places of another is to overwrite a part. -/
theorem getElem?_foldl_set {α : Type} (ws : List α) (k n : Nat) (l : List α)
    (room : n + k + ws.length ≤ l.length) (i : Nat) :
    ((ws.zipIdx k).foldl (fun l s => l.set (n + s.2) s.1) l)[i]? =
      if n + k ≤ i ∧ i < n + k + ws.length then ws[i - (n + k)]? else l[i]? := by
  induction ws generalizing k l with
  | nil =>
    rw [List.length_nil, if_neg (by omega)]
    rfl
  | cons w ws ih =>
    rw [List.length_cons] at room ⊢
    rw [List.zipIdx_cons, List.foldl_cons, ih (k + 1) _ (by rw [List.length_set]; omega), List.getElem?_set]
    -- The first word is written before the others, and none of them comes back to its place.
    by_cases first : n + k = i
    · subst first
      rw [if_neg (by omega), if_pos rfl, if_pos (by omega), if_pos (by omega), Nat.sub_self]
      rfl
    · rw [if_neg first]
      by_cases inside : n + (k + 1) ≤ i ∧ i < n + (k + 1) + ws.length
      · rw [if_pos inside, if_pos (by omega), show i - (n + k) = i - (n + (k + 1)) + 1 by omega,
          List.getElem?_cons_succ]
      · rw [if_neg inside, if_neg (by omega)]

/-! ### Headers -/

namespace Header

theorem toWord_lt {h : Header} (fits : h.Fits) : h.toWord < UInt32.size := by
  obtain ⟨mark, learnt, frozen, relocated, size⟩ := h
  obtain ⟨markBound, sizeBound⟩ := fits
  simp only [maxSize, Nat.reduceShiftLeft] at sizeBound markBound
  simp only [toWord, UInt32.size]
  cases learnt <;> cases frozen <;> cases relocated <;>
    simp only [Bool.toNat_true, Bool.toNat_false] <;> omega

/-- The word that holds a header gives it back. -/
theorem ofWord_ofNat {h : Header} (fits : h.Fits) : ofWord (UInt32.ofNat h.toWord).toNat = h := by
  rw [UInt32.toNat_ofNat_of_lt' (toWord_lt fits), ofWord_toWord h fits]

end Header

theorem Lit.ofCode_ofNat {l : Lit} (small : l.code < UInt32.size) : ofCode (UInt32.ofNat l.code).toNat = l := by
  rw [UInt32.toNat_ofNat_of_lt' small, ofCode_code]

namespace ClauseWords

variable {c d : ClauseWords}

/-- The words are as many as the header says. -/
structure Whole (c : ClauseWords) : Prop where
  data : c.data.length = (Header.ofWord c.header.toNat).size
  extra : c.extra.length = Clause.extraLength (Header.ofWord c.header.toNat).learnt

theorem Whole.split_body (h : c.Whole) : split c.header c.body = c := by
  unfold split body
  dsimp only
  rw [← h.data, ← h.extra]
  simp

theorem lits_ofWords (c : ClauseWords) :
    (Clause.ofWords c).lits = (c.data.map fun w => Lit.ofCode w.toNat).toArray := rfl

theorem size_ofWords (c : ClauseWords) : (Clause.ofWords c).size = c.data.length := by
  rw [Clause.size, lits_ofWords, List.size_toArray, List.length_map]

theorem isLearnt_ofWords (c : ClauseWords) :
    (Clause.ofWords c).isLearnt = (Header.ofWord c.header.toNat).learnt := by
  unfold Clause.ofWords Clause.isLearnt
  dsimp only
  cases (Header.ofWord c.header.toNat).learnt <;> rfl

theorem Whole.words (h : c.Whole) : (Clause.ofWords c).words = c.toList.length := by
  rw [Clause.words, size_ofWords, isLearnt_ofWords, toList, body, List.length_cons, List.length_append, h.extra,
    Clause.extraLength]
  omega

/-! ### Clauses stored at first -/

section Fresh

variable {lits : Array Lit} (learnt : Bool)

theorem header_fresh (size : lits.size ≤ Header.maxSize) :
    Header.ofWord (fresh lits learnt).header.toNat = { learnt, size := lits.size } :=
  Header.ofWord_ofNat ⟨Nat.zero_lt_succ 3, size⟩

theorem whole_fresh (size : lits.size ≤ Header.maxSize) : (fresh lits learnt).Whole := by
  constructor <;> rw [header_fresh learnt size]
  · simp [fresh]
  · cases learnt <;> rfl

theorem ofWords_fresh (size : lits.size ≤ Header.maxSize) (codes : ∀ l ∈ lits, l.code < UInt32.size) :
    Clause.ofWords (fresh lits learnt) = Clause.fresh lits learnt := by
  have read : ((fresh lits learnt).data.map fun w => Lit.ofCode w.toNat) = lits.toList := by
    have each : ∀ l ∈ lits.toList, ((fun w => Lit.ofCode w.toNat) ∘ fun l => UInt32.ofNat l.code) l = l :=
      fun l inside => Lit.ofCode_ofNat (codes l (Array.mem_toList_iff.mp inside))
    unfold fresh
    rw [List.map_map, List.map_congr_left each, List.map_id']
  unfold Clause.ofWords
  rw [header_fresh learnt size, read]
  cases learnt
  · rfl
  · -- The activity is stored by its bits, those of zero here.
    have activity : Float32.ofBits (0 : Float32).toBits = 0 := Float32.ofBits_toBits 0
    have info : Clause.infoOfWords (fresh lits true).extra false = {} := by
      unfold Clause.infoOfWords
      simp only [fresh, if_true, List.getD_cons_zero, List.getD_cons_succ, activity]
      rfl
    dsimp only
    rw [if_pos rfl, info]
    rfl

end Fresh

end ClauseWords

/-! ### Edits -/

/-- What a clause allows to be done to it. -/
def ClauseEdit.Allowed : ClauseEdit → Clause → Prop
  | .setLit i l, c => i < c.size ∧ l.code < UInt32.size
  | .swap i j, c => i < c.size ∧ j < c.size
  | .setMark mark, _ => mark < 4
  | .setFrozen _, c | .setLbd _, c | .setFreezeCount _, c | .setActivity _, c => c.isLearnt = true
  | .shrink n, c => 2 ≤ n ∧ n ≤ c.size

instance ClauseEdit.decidableAllowed : (e : ClauseEdit) → (c : Clause) → Decidable (e.Allowed c)
  | .setLit _ _, _ | .swap _ _, _ | .shrink _, _ => inferInstanceAs (Decidable (_ ∧ _))
  | .setMark mark, _ => inferInstanceAs (Decidable (mark < 4))
  | .setFrozen _, c | .setLbd _, c | .setFreezeCount _, c | .setActivity _, c =>
    inferInstanceAs (Decidable (c.isLearnt = true))

namespace ClauseWords

variable {c d : ClauseWords}

/-- An edit has a result: as many words, of which those that the header speaks of mean the clause edited. -/
def Edits (c : ClauseWords) (e : ClauseEdit) : Prop :=
  ∃ d, c.edit e = .ok d ∧ d.body.length = c.body.length ∧ (split d.header d.body).Whole ∧
    Clause.ofWords (split d.header d.body) = e.apply (Clause.ofWords c)

/-- Most edits leave the words as many as the header says. -/
theorem edits_of_whole {e : ClauseEdit} (result : c.edit e = .ok d) (length : d.body.length = c.body.length)
    (whole : d.Whole) (meaning : Clause.ofWords d = e.apply (Clause.ofWords c)) : c.Edits e := by
  refine ⟨d, result, length, ?_, ?_⟩ <;> rw [whole.split_body] <;> assumption

theorem edits_setLit (h : c.Whole) {i : Nat} {l : Lit} (inside : i < (Clause.ofWords c).size)
    (small : l.code < UInt32.size) : c.Edits (.setLit i l) := by
  rw [size_ofWords] at inside
  refine edits_of_whole (d := { c with data := c.data.set i (.ofNat l.code) }) (if_pos inside) ?_ ?_ ?_
  · simp [body]
  · exact ⟨(List.length_set ..).trans h.data, h.extra⟩
  · unfold Clause.ofWords ClauseEdit.apply Clause.setLits
    dsimp only
    rw [List.map_set, Lit.ofCode_ofNat small, List.setIfInBounds_toArray]

theorem edits_swap (h : c.Whole) {i j : Nat} (first : i < (Clause.ofWords c).size)
    (second : j < (Clause.ofWords c).size) : c.Edits (.swap i j) := by
  rw [size_ofWords] at first second
  refine edits_of_whole (d := { c with data := (c.data.set i c.data[j]).set j c.data[i] }) ?_ ?_ ?_ ?_
  · unfold edit swap
    dsimp only
    rw [List.getElem?_eq_getElem first, List.getElem?_eq_getElem second]
  · simp [body]
  · exact ⟨by simp [h.data], h.extra⟩
  · unfold Clause.ofWords ClauseEdit.apply Clause.swap
    dsimp only
    rw [List.map_set, List.map_set, Array.swapIfInBounds, dif_pos (by simpa using first),
      dif_pos (by simpa using second), Array.swap_def]
    simp

theorem edits_setMark (h : c.Whole) {mark : Nat} (small : mark < 4) : c.Edits (.setMark mark) := by
  have header := Header.ofWord_setMark (w := c.header) small
  refine edits_of_whole (d := { c with header := Header.markField.set c.header mark }) rfl rfl ?_ ?_
  · constructor <;> dsimp only <;> rw [header]
    · exact h.data
    · exact h.extra
  · unfold Clause.ofWords ClauseEdit.apply
    dsimp only
    rw [header]

theorem edits_setFrozen (h : c.Whole) (frozen : Bool) (learnt : (Clause.ofWords c).isLearnt = true) :
    c.Edits (.setFrozen frozen) := by
  have header := Header.ofWord_setFrozen (w := c.header) frozen
  refine edits_of_whole (d := { c with header := Header.frozenField.set c.header frozen.toNat }) rfl rfl ?_ ?_
  · constructor <;> dsimp only <;> rw [header]
    · exact h.data
    · exact h.extra
  · unfold Clause.ofWords ClauseEdit.apply Clause.setFrozen Clause.modifyLearnt
    dsimp only
    rw [isLearnt_ofWords] at learnt
    rw [header]
    dsimp only
    rw [learnt]
    rfl

/-- A change of the words behind the literals is one of what is known about a learnt clause. -/
theorem edits_modifyExtra (h : c.Whole) (learnt : (Clause.ofWords c).isLearnt = true) {e : ClauseEdit}
    {i : Nat} {f : UInt32 → UInt32} {change : LearntInfo → LearntInfo} (edit : c.edit e = c.modifyExtra i f)
    (inside : i < 2) (apply : e.apply (Clause.ofWords c) = (Clause.ofWords c).modifyLearnt change)
    (changes : ∀ v w frozen, Clause.infoOfWords ([v, w].modify i f) frozen =
      change (Clause.infoOfWords [v, w] frozen)) : c.Edits e := by
  rw [isLearnt_ofWords] at learnt
  have length : c.extra.length = 2 := by rw [h.extra, learnt]; rfl
  -- A learnt clause has two words behind its literals, so both are at hand.
  obtain ⟨v, w, extra⟩ := List.length_eq_two.mp length
  refine edits_of_whole (d := { c with extra := c.extra.modify i f }) ?_ ?_ ?_ ?_
  · rw [edit, modifyExtra, if_pos (by omega)]
  · simp [body]
  · exact ⟨h.data, (List.length_modify ..).trans h.extra⟩
  · rw [apply]
    unfold Clause.ofWords Clause.modifyLearnt
    dsimp only
    rw [learnt, extra, if_pos rfl, changes]
    rfl

theorem edits_setLbd (h : c.Whole) (learnt : (Clause.ofWords c).isLearnt = true) (n : Nat) :
    c.Edits (.setLbd n) := by
  have small : min n Clause.maxLbd < 1 <<< Clause.lbdField.width :=
    Nat.lt_succ_of_le (Nat.min_le_right n Clause.maxLbd)
  refine edits_modifyExtra h learnt rfl (Nat.lt_succ_self 1) rfl fun v w frozen => ?_
  -- The field that is set gives the number back; the other field of the same word is apart from it.
  simp only [Clause.infoOfWords, List.modify_succ_cons, List.modify_zero_cons, List.getD_cons_zero, List.getD_cons_succ]
  rw [BitField.get_set _ _ small, BitField.get_set_of_apart (by decide) _ small]

theorem edits_setFreezeCount (h : c.Whole) (learnt : (Clause.ofWords c).isLearnt = true) (n : Nat) :
    c.Edits (.setFreezeCount n) := by
  have small : min n Clause.maxLbd < 1 <<< Clause.freezeCountField.width :=
    Nat.lt_succ_of_le (Nat.min_le_right n Clause.maxLbd)
  refine edits_modifyExtra h learnt rfl (Nat.lt_succ_self 1) rfl fun v w frozen => ?_
  simp only [Clause.infoOfWords, List.modify_succ_cons, List.modify_zero_cons, List.getD_cons_zero,
    List.getD_cons_succ]
  rw [BitField.get_set _ _ small, BitField.get_set_of_apart (by decide) _ small]

theorem edits_setActivity (h : c.Whole) (learnt : (Clause.ofWords c).isLearnt = true) (a : Float32) :
    c.Edits (.setActivity a) := by
  refine edits_modifyExtra h learnt rfl (by decide) rfl fun v w frozen => ?_
  simp only [Clause.infoOfWords, List.modify_zero_cons, List.getD_cons_zero, List.getD_cons_succ,
    Float32.ofBits_toBits]

/-! ### Shrinking -/

theorem body_place (c : ClauseWords) (i : Nat) (w : UInt32) : (c.place i w).body = c.body.set i w := by
  unfold place body
  split
  next inside => rw [List.set_append_left _ _ inside]
  next outside => rw [List.set_append_right _ _ (Nat.le_of_not_lt outside)]

section Places

variable (saved : List (UInt32 × Nat)) (n : Nat) (c : ClauseWords)

theorem header_places : (saved.foldl (fun d s => d.place (n + s.2) s.1) c).header = c.header := by
  induction saved generalizing c with
  | nil => rfl
  | cons s saved ih =>
    have same : (c.place (n + s.2) s.1).header = c.header := by
      unfold place
      split <;> rfl
    exact (ih _).trans same

theorem body_places : (saved.foldl (fun d s => d.place (n + s.2) s.1) c).body =
    saved.foldl (fun l s => l.set (n + s.2) s.1) c.body :=
  (List.foldl_hom body fun d _ => (body_place d _ _).symm).symm

end Places

theorem length_body_shrink (c : ClauseWords) (n : Nat) : (c.shrink n).body.length = c.body.length := by
  unfold shrink
  split
  · rfl
  · rw [body_places]
    exact length_foldl_set ..

/-- What is behind the literals is written behind those that are left. -/
theorem getElem?_body_shrink {n : Nat} (le : n ≤ c.data.length) (i : Nat) :
    (c.shrink n).body[i]? =
      if n ≤ i ∧ i < n + c.extra.length then c.extra[i - n]? else c.body[i]? := by
  unfold shrink
  split
  next same =>
    subst same
    -- Nothing is moved if no literal is dropped: the words behind the literals are in place.
    split
    next inside => rw [body, List.getElem?_append_right inside.1]
    next => rfl
  next =>
    have room : n + 0 + c.extra.length ≤ c.body.length := by
      rw [body, List.length_append]
      omega
    rw [body_places]
    exact getElem?_foldl_set c.extra 0 n c.body room i

/-- The words that the new header speaks of are those of the literals left, and those behind the literals. -/
theorem split_shrink (h : c.Whole) {n : Nat} (le : n ≤ c.data.length) :
    ∃ header, Header.ofWord header.toNat = { Header.ofWord c.header.toNat with size := n } ∧
      split (c.shrink n).header (c.shrink n).body = { header, data := c.data.take n, extra := c.extra } := by
  -- The size was read from a header, so the smaller one fits into one as well.
  have fits : n ≤ Header.maxSize := by
    rw [h.data] at le
    exact Nat.le_trans le (Nat.lt_succ_iff.mp (Nat.mod_lt _ (by decide)))
  have header : Header.ofWord (c.shrink n).header.toNat = { Header.ofWord c.header.toNat with size := n } := by
    unfold shrink
    split
    next same => rw [same, h.data]
    next => rw [header_places, Header.ofWord_setSize fits]
  refine ⟨(c.shrink n).header, header, ?_⟩
  unfold split
  dsimp only
  rw [header]
  dsimp only
  have body := getElem?_body_shrink le
  congr 1
  · -- The literals left are before all words that were moved.
    refine List.ext_getElem? fun i => ?_
    rw [List.getElem?_take, List.getElem?_take, body]
    split
    next low => rw [if_neg (by omega), ClauseWords.body, List.getElem?_append_left (by omega)]
    next => rfl
  · -- What the header takes for the words behind the literals was written there.
    refine List.ext_getElem? fun i => ?_
    rw [List.getElem?_take, List.getElem?_drop, body, ← h.extra]
    split
    next => rw [if_pos (by omega), Nat.add_sub_cancel_left]
    next high => rw [List.getElem?_eq_none (by omega)]

theorem edits_shrink (h : c.Whole) {n : Nat} (le : n ≤ (Clause.ofWords c).size) : c.Edits (.shrink n) := by
  rw [size_ofWords] at le
  obtain ⟨header, read, split⟩ := split_shrink h le
  refine ⟨c.shrink n, rfl, length_body_shrink c n, ?_, ?_⟩ <;> rw [split]
  · constructor <;> dsimp only <;> rw [read]
    · exact List.length_take_of_le le
    · exact h.extra
  · unfold Clause.ofWords ClauseEdit.apply Clause.setLits
    dsimp only
    rw [read, List.map_take]
    simp

/-- An edit that a clause allows is done to its words. -/
theorem edited (h : c.Whole) {e : ClauseEdit} (allowed : e.Allowed (Clause.ofWords c)) : c.Edits e := by
  cases e with
  | setLit i l => exact edits_setLit h allowed.1 allowed.2
  | swap i j => exact edits_swap h allowed.1 allowed.2
  | setMark mark => exact edits_setMark h allowed
  | setFrozen frozen => exact edits_setFrozen h frozen allowed
  | setLbd n => exact edits_setLbd h allowed n
  | setFreezeCount n => exact edits_setFreezeCount h allowed n
  | setActivity a => exact edits_setActivity h allowed a
  | shrink n => exact edits_shrink h allowed.2

end ClauseWords

end Cdcl
