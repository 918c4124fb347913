import Cdcl.Proofs.MatchingWatches
import Mathlib.Data.Nat.Cast.Basic

/-!
# The books of the clauses

The counts that an engine keeps by hand agree with its clauses between calls, and wherever a search
pauses.

## Main results

- `Filed.total`: a sum over the arena is a sum over the lists of clauses.
- `books_of_pause`: every count is what a recount would give.
-/

namespace Cdcl

namespace Engine

variable {os ks : List ClauseId} {e : Engine}

/-- The lists of clauses name the clauses in use. -/
theorem Filed.perm (h : e.Filed os ks) : (os ++ ks).Perm e.arena.handles := by
  have apart : List.Disjoint os ks := by
    intro id inside also
    have left := ((h.original id).mp inside).2
    exact absurd (((h.learnt id).mp also).2.symm.trans left) nofun
  refine (List.perm_ext_iff_of_nodup
    (h.originals_nodup.append h.learnts_nodup apart) e.arena.nodup_handles).mpr fun id => ?_
  rw [List.mem_append, h.original, h.learnt, ClauseArena.mem_handles, ← clause]
  cases (e.clause id).isLearnt <;> simp

/-- A sum over the arena is a sum over the lists of clauses. -/
theorem Filed.total (h : e.Filed os ks) {weight inOriginal inLearnt : Clause → Nat}
    (light : ∀ c, c.isRemoved = true → weight c = 0)
    (original : ∀ c, c.isRemoved = false → c.isLearnt = false → weight c = inOriginal c)
    (learnt : ∀ c, c.isRemoved = false → c.isLearnt = true → weight c = inLearnt c) :
    e.arena.total weight = (os.map fun id => inOriginal (e.clause id)).sum +
      (ks.map fun id => inLearnt (e.clause id)).sum := by
  have left : (os.map fun id => inOriginal (e.clause id)) = os.map fun id => weight (e.clause id) :=
    List.map_congr_left fun id inside =>
      (original _ ((h.original id).mp inside).1 ((h.original id).mp inside).2).symm
  have right : (ks.map fun id => inLearnt (e.clause id)) = ks.map fun id => weight (e.clause id) :=
    List.map_congr_left fun id inside =>
      (learnt _ ((h.learnt id).mp inside).1 ((h.learnt id).mp inside).2).symm
  rw [e.arena.total_eq_handles weight light, left, right, ← List.sum_append, ← List.map_append]
  exact (h.perm.map _).symm.sum_eq

/-! ### Recounting -/

theorem sum_map_ite {α : Type} (p : α → Bool) (xs : List α) :
    (xs.map fun x => if p x = true then 1 else 0).sum = xs.countP p := by
  induction xs with
  | nil => rfl
  | cons x xs ih => rw [List.map_cons, List.sum_cons, ih, List.countP_cons, Nat.add_comm]

/-- The counts of an engine are what a recount would give. -/
structure BooksMatch (e : Engine) : Prop where
  /-- The lists name the clauses in use, each of them once. -/
  original : ∀ id, id ∈ e.originals ↔ (e.clause id).isRemoved = false ∧ (e.clause id).isLearnt = false
  learnt : ∀ id, id ∈ e.learnts ↔ (e.clause id).isRemoved = false ∧ (e.clause id).isLearnt = true
  originals_nodup : e.originals.toList.Nodup
  learnts_nodup : e.learnts.toList.Nodup
  originals : e.tally.originals = e.originals.size
  learnts : e.tally.learnts = e.learnts.size
  originalLits : e.tally.originalLits = (e.originals.toList.map fun id => (e.clause id).size).sum
  learntLits : e.tally.learntLits = (e.learnts.toList.map fun id => (e.clause id).size).sum
  frozen : e.tally.frozen = e.learnts.toList.countP fun id => (e.clause id).isFrozen
  binary : (e.watches.binary.values.toList.map Array.size).sum =
    2 * (e.tally.originalBinary + e.tally.learntBinary)
  lbds : ∀ n, e.lbdCounts.get n = e.learnts.toList.countP fun id => (e.clause id).lbd == n
  recent : e.recentLearnts ≤ e.learnts.size
  long : ∀ id, (e.clause id).isRemoved = false → 3 ≤ (e.clause id).size
  words : e.arena.space.used = e.arena.space.wasted +
    ((e.originals.toList.map fun id => (e.clause id).words).sum +
      (e.learnts.toList.map fun id => (e.clause id).words).sum)

section Shares

variable {c : Clause}

theorem share_of_removed (removed : c.isRemoved = true) : c.share = {} := by
  rw [Clause.share, if_pos removed]

theorem share_of_original (used : c.isRemoved = false) (original : c.isLearnt = false) :
    c.share = { originals := 1, originalLits := c.size } := by
  simp [Clause.share, used, original]

end Shares

/-- The sum of one part of the shares. -/
theorem Filed.total_share (h : e.Filed os ks) (part : Tally → Nat) (nothing : part {} = 0) :
    e.arena.total (fun c => part c.share) =
      (os.map fun id => part { originals := 1, originalLits := (e.clause id).size }).sum +
      (ks.map fun id => part
        { learnts := 1
          learntLits := (e.clause id).size
          frozen := if (e.clause id).isFrozen then 1 else 0 }).sum :=
  h.total (fun _ removed => (congrArg part (share_of_removed removed)).trans nothing)
    (fun _ used original => congrArg part (share_of_original used original))
    fun _ used learnt => congrArg part (Clause.share_of_isLearnt used learnt)

theorem Filed.total_lbdShare (h : e.Filed os ks) (n : Nat) :
    e.arena.total (·.lbdShare n) = ks.countP fun id => (e.clause id).lbd == n := by
  have total := @Filed.total os ks e h (Clause.lbdShare n) (fun _ => 0)
    (fun c => if (c.lbd == n) = true then 1 else 0)
    (fun c removed => by simp [Clause.lbdShare, removed])
    (fun c used original => by simp [Clause.lbdShare, original])
    (fun c used learnt => by simp [Clause.lbdShare, used, learnt])
  rw [total, sum_map_ite]
  simp

/-- The books of an engine in order match its clauses. -/
theorem Orderly.booksMatch (h : e.Orderly) : e.BooksMatch := by
  obtain ⟨⟨balanced, filed, -, -, pairs⟩, recent⟩ := h.shelved
  refine
    { original := fun id => Array.mem_toList_iff.symm.trans (filed.original id)
      learnt := fun id => Array.mem_toList_iff.symm.trans (filed.learnt id)
      originals_nodup := filed.originals_nodup
      learnts_nodup := filed.learnts_nodup
      originals := ?_, learnts := ?_, originalLits := ?_, learntLits := ?_, frozen := ?_
      binary := pairs
      lbds := fun n => ?_
      recent := recent
      long := fun id used => (h.sound.proper id used).size
      words := ?_ }
  · rw [balanced.originals, filed.total_share (·.originals) rfl]
    simp
  · rw [balanced.learnts, filed.total_share (·.learnts) rfl]
    simp
  · rw [balanced.originalLits, filed.total_share (·.originalLits) rfl]
    simp
  · rw [balanced.learntLits, filed.total_share (·.learntLits) rfl]
    simp
  · rw [balanced.frozen, filed.total_share (·.frozen) rfl, sum_map_ite]
    simp
  · rw [balanced.lbds, filed.total_lbdShare]
  · rw [balanced.words, filed.total (fun c removed => by simp [Clause.liveWords, removed])
      (fun c used _ => Clause.liveWords_of_used used) fun c used _ => Clause.liveWords_of_used used]

end Engine

namespace Solver

open Engine

variable {F : List (List Lit)} {e : Engine}

/-- Between calls, and wherever a search pauses, every count is what a recount would give. -/
theorem books_of_pause (h : Pause F e) : e.BooksMatch := h.orderly.booksMatch

/-- A clause of two literals was learnt, and the words of a removed clause are wasted. -/
theorem books_of_pause_learnt : ∃ e,
    Pause (clausesOf [[-1, -2, 3], [-1, -2, -3], [1, 2, 3], [2, 3, 4], [1, 2, 5], [5]]) e ∧
      e.tally.learntBinary = 1 ∧ e.arena.space.wasted = 4 ∧ e.BooksMatch := by
  obtain ⟨e, pause, learnt, -, words⟩ := exists_pause
  exact ⟨e, pause, learnt, words, books_of_pause pause⟩

end Solver

end Cdcl
