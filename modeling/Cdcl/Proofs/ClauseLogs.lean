import Cdcl.Data.ClauseLog
import Mathlib.Data.List.Induction

/-!
# What a log of clauses holds

A log only grows at its end, so the ends of its clauses are where their literals stop, and taking the last
clause back restores both arrays.

## Main results

`pop_push`, `clauses_of`: a log can be taken back and read back.
-/

namespace Cdcl

namespace ClauseLog

/-- The log of clauses that were added one after the other. -/
def of (F : List (List Lit)) : ClauseLog := F.foldl push {}

variable {F : List (List Lit)} {c : List Lit}

theorem of_append_singleton (F : List (List Lit)) (c : List Lit) : of (F ++ [c]) = (of F).push c :=
  List.foldl_append

/-- The last clause ends where the literals end. -/
theorem back_ends_of (F : List (List Lit)) : (of F).ends.back?.getD 0 = (of F).lits.size := by
  induction F using List.reverseRecOn with
  | nil => rfl
  | append_singleton F c _ =>
    rw [of_append_singleton]
    simp [push]

/-- Taking back the clause that was added last leaves what was there before it. -/
theorem pop_push (F : List (List Lit)) (c : List Lit) : ((of F).push c).pop = of F := by
  have ends : ((of F).push c).ends.pop = (of F).ends := Array.pop_push ..
  have lits : ((of F).lits ++ c.toArray).extract 0 (of F).lits.size = (of F).lits := by simp
  unfold pop
  rw [ends, back_ends_of]
  change ClauseLog.mk (((of F).lits ++ c.toArray).extract 0 (of F).lits.size) (of F).ends = of F
  rw [lits]

theorem clausesFrom_append (lits : Array Lit) (start : Nat) (ends : List Nat) (stop : Nat) :
    clausesFrom lits start (ends ++ [stop]) =
      clausesFrom lits start ends ++ [(lits.extract (ends.getLast?.getD start) stop).toList] := by
  induction ends generalizing start with
  | nil => rfl
  | cons e ends ih =>
    rw [List.cons_append, clausesFrom, ih, clausesFrom, List.cons_append, List.getLast?_cons,
      Option.getD_some]

/-- Clauses that end before the new literals are not touched by them. -/
theorem clausesFrom_grow {lits more : Array Lit} {ends : List Nat} (start : Nat)
    (bound : ∀ stop ∈ ends, stop ≤ lits.size) :
    clausesFrom (lits ++ more) start ends = clausesFrom lits start ends := by
  induction ends generalizing start with
  | nil => rfl
  | cons stop ends ih =>
    have le := bound stop List.mem_cons_self
    rw [clausesFrom, clausesFrom, ih stop fun e member => bound e (List.mem_cons_of_mem _ member)]
    have same : (lits ++ more).extract start stop = lits.extract start stop := by
      rw [Array.extract_append]
      simp [Nat.sub_eq_zero_of_le le]
    rw [same]

theorem ends_le (F : List (List Lit)) : ∀ stop ∈ (of F).ends.toList, stop ≤ (of F).lits.size := by
  induction F using List.reverseRecOn with
  | nil => exact nofun
  | append_singleton F c ih =>
    rw [of_append_singleton]
    intro stop member
    have grown : ((of F).push c).lits.size = (of F).lits.size + c.length := by simp [push]
    rw [grown]
    rcases List.mem_append.mp ((Array.toList_push ..) ▸ member) with old | new
    · exact Nat.le_add_right_of_le (ih stop old)
    · exact Nat.le_of_eq (List.mem_singleton.mp new)

/-- The clauses are read back as they were added. -/
theorem clauses_of (F : List (List Lit)) : (of F).clauses = F := by
  induction F using List.reverseRecOn with
  | nil => rfl
  | append_singleton F c ih =>
    have last : (of F).ends.toList.getLast?.getD 0 = (of F).lits.size := by
      rw [← back_ends_of F, Array.getLast?_toList]
    rw [of_append_singleton]
    change clausesFrom ((of F).lits ++ c.toArray) 0 ((of F).ends.push _).toList = F ++ [c]
    rw [Array.toList_push, clausesFrom_append, clausesFrom_grow 0 (ends_le F), last]
    change (of F).clauses ++ _ = _
    rw [ih]
    simp

end ClauseLog

end Cdcl
