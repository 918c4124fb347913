import Cdcl.Data.ScoredHeap
import Cdcl.Proofs.HeapContents
import Mathlib.Data.Finset.Card
import Mathlib.Order.Defs.Unbundled

/-!
# Order of the indexed heap

A heap whose comparison is a strict total order is a priority queue: no key is before its parent, so that
the top is the least key, and taking out the top again and again gives the keys in order. A sift starts
from a heap that is in order but for a hole. Around the hole, every key below is in order with every key
above, so that a neighbour of the hole may move into it.

## Main results

- `UpOrder.siftUp`, `DownOrder.siftDown`: a sift ends with a heap in order.
- `Holds.pop`, `Holds.drain`: the top is the least key, and the keys come out in order.
- `queue_of_queued`: so it is after any history of a heap.
-/

namespace Cdcl

namespace IndexedHeap

variable {κ : Type} {before after : κ → κ → Bool} {h : IndexedHeap κ}

/-- The comparison is a strict total order of the keys. -/
abbrev StrictlyOrders (before : κ → κ → Bool) : Prop :=
  IsStrictTotalOrder κ fun a b => before a b = true

namespace StrictlyOrders

theorem irrefl (order : StrictlyOrders before) (a : κ) : before a a = false :=
  Bool.eq_false_iff.mpr (order.toIrrefl.irrefl a)

theorem asymm (order : StrictlyOrders before) {a b : κ} (first : before a b = true) :
    before b a = false := by
  refine Bool.eq_false_iff.mpr fun second => ?_
  exact order.toIrrefl.irrefl a (order.toIsTrans.trans a b a first second)

/-- Of two keys, the one that is not before the other comes after it. -/
theorem before_of_ne (order : StrictlyOrders before) {a b : κ} (later : before b a = false) (ne : b ≠ a) :
    before a b = true := by
  by_contra earlier
  exact ne (order.toTrichotomous.trichotomous b a (Bool.eq_false_iff.mp later) earlier)

/-- Not to be before is transitive. -/
theorem trans_not (order : StrictlyOrders before) {a b c : κ} (ba : before b a = false)
    (cb : before c b = false) : before c a = false := by
  by_cases same : b = a
  · exact same ▸ cb
  · refine Bool.eq_false_iff.mpr fun ca => ?_
    exact Bool.eq_false_iff.mp cb (order.toIsTrans.trans c a b ca (order.before_of_ne ba same))

end StrictlyOrders

/-! ### Order but for a hole -/

/-- No key is before its parent, if the parent stands at `low` or behind it. -/
def OrderedFrom (before : κ → κ → Bool) (low : Nat) (h : IndexedHeap κ) : Prop :=
  ∀ j c p, 0 < j → low ≤ (j - 1) / 2 → h.items[j]? = some c → h.items[(j - 1) / 2]? = some p →
    before c p = false

/-- No key is before its parent. -/
abbrev Ordered (before : κ → κ → Bool) (h : IndexedHeap κ) : Prop := h.OrderedFrom before 0

/-- No key is before its parent, if neither stands at `hole` and the parent stands at `low` or behind it. -/
def OrderedApart (before : κ → κ → Bool) (low hole : Nat) (h : IndexedHeap κ) : Prop :=
  ∀ j c p, 0 < j → low ≤ (j - 1) / 2 → j ≠ hole → (j - 1) / 2 ≠ hole → h.items[j]? = some c →
    h.items[(j - 1) / 2]? = some p → before c p = false

/-- No key right below the hole is before the one right above it. -/
def OrderedAcross (before : κ → κ → Bool) (low hole : Nat) (h : IndexedHeap κ) : Prop :=
  ∀ j c p, 0 < hole → low ≤ (hole - 1) / 2 → 0 < j → (j - 1) / 2 = hole → h.items[j]? = some c →
    h.items[(hole - 1) / 2]? = some p → before c p = false

/-- What a sift to the top starts from: `x` may stand in the hole, as far as the keys below go. -/
structure UpOrder (before : κ → κ → Bool) (h : IndexedHeap κ) (hole : Nat) (x : κ) : Prop where
  apart : h.OrderedApart before 0 hole
  across : h.OrderedAcross before 0 hole
  below : ∀ j c, 0 < j → (j - 1) / 2 = hole → h.items[j]? = some c → before c x = false

/-- What a sift to the leaves starts from: `x` may stand in the hole, as far as the key above goes. -/
structure DownOrder (before : κ → κ → Bool) (low : Nat) (h : IndexedHeap κ) (hole : Nat) (x : κ) :
    Prop where
  apart : h.OrderedApart before low hole
  across : h.OrderedAcross before low hole
  above : ∀ p, 0 < hole → low ≤ (hole - 1) / 2 → h.items[(hole - 1) / 2]? = some p → before x p = false

section Sifting

variable [DenseKey κ] {low hole : Nat} {x y : κ}

theorem getElem?_place (inside : hole < h.items.size) (x : κ) (j : Nat) :
    (h.place hole x).items[j]? = if hole = j then some x else h.items[j]? := by
  rw [items_place, Array.getElem?_setIfInBounds]
  split <;> simp_all

/-- The hole is filled by a key that suits the ones above and below. -/
theorem OrderedApart.place (apart : h.OrderedApart before low hole) (inside : hole < h.items.size)
    (above : ∀ p, 0 < hole → low ≤ (hole - 1) / 2 → h.items[(hole - 1) / 2]? = some p →
      before x p = false)
    (below : ∀ j c, 0 < j → (j - 1) / 2 = hole → h.items[j]? = some c → before c x = false) :
    (h.place hole x).OrderedFrom before low := by
  intro j c p positive bound atChild atParent
  rw [getElem?_place inside] at atChild atParent
  by_cases here : hole = j
  · subst here
    rw [if_pos rfl] at atChild
    rw [if_neg (by omega)] at atParent
    cases atChild
    exact above p positive bound atParent
  · rw [if_neg here] at atChild
    by_cases under : hole = (j - 1) / 2
    · rw [if_pos under] at atParent
      cases atParent
      exact below j c positive under.symm atChild
    · rw [if_neg under] at atParent
      exact apart j c p positive bound (Ne.symm here) (Ne.symm under) atChild atParent

/-- The hole moves up past a key that `x` is before. -/
theorem UpOrder.move (order : StrictlyOrders before) (up : h.UpOrder before hole x)
    (inside : hole < h.items.size) (positive : 0 < hole) (atParent : h.items[(hole - 1) / 2]? = some y)
    (sooner : before x y = true) : (h.place hole y).UpOrder before ((hole - 1) / 2) x := by
  -- The sibling of the hole is not sooner than their parent `y`, which `x` is sooner than.
  have beside {j : Nat} {c : κ} (pos : 0 < j) (sibling : (j - 1) / 2 = (hole - 1) / 2) (other : hole ≠ j)
      (atChild : h.items[j]? = some c) : before c y = false :=
    up.apart j c y pos (Nat.zero_le _) (Ne.symm other) (by omega) atChild (sibling ▸ atParent)
  constructor
  case apart =>
    intro j c p pos _ notHere notUnder atChild above
    rw [getElem?_place inside] at atChild above
    rw [if_neg (by rintro rfl; exact notUnder rfl)] at atChild
    by_cases under : hole = (j - 1) / 2
    · rw [if_pos under] at above
      cases above
      exact up.across j c y positive (Nat.zero_le _) pos under.symm atChild atParent
    · rw [if_neg under] at above
      exact up.apart j c p pos (Nat.zero_le _) (by rintro rfl; exact notUnder rfl) (Ne.symm under) atChild
        above
  case across =>
    intro j c p pos _ childPos sibling atChild above
    rw [getElem?_place inside] at atChild above
    rw [if_neg (by omega)] at above
    have parent : before y p = false :=
      up.apart _ y p pos (Nat.zero_le _) (by omega) (by omega) atParent above
    by_cases here : hole = j
    · rw [if_pos here] at atChild
      cases atChild
      exact parent
    · rw [if_neg here] at atChild
      exact order.trans_not parent (beside childPos sibling here atChild)
  case below =>
    intro j c childPos sibling atChild
    rw [getElem?_place inside] at atChild
    by_cases here : hole = j
    · rw [if_pos here] at atChild
      cases atChild
      exact order.asymm sooner
    · rw [if_neg here] at atChild
      exact order.trans_not (order.asymm sooner) (beside childPos sibling here atChild)

/-- A sift to the top ends with a heap in order. -/
theorem UpOrder.siftUp (order : StrictlyOrders before) (up : h.UpOrder before hole x)
    (inside : hole < h.items.size) : (siftUp before h hole x).Ordered before := by
  induction hole using Nat.strongRecOn generalizing h with
  | ind hole ih =>
    have stop (above : ∀ p, 0 < hole → h.items[(hole - 1) / 2]? = some p → before x p = false) :
        (h.place hole x).Ordered before :=
      up.apart.place inside (fun p pos _ => above p pos) up.below
    unfold IndexedHeap.siftUp
    split
    next zero => exact stop fun p pos => absurd pos (by omega)
    next nonzero =>
      split
      next absent => exact stop fun p _ found => by rw [absent] at found; cases found
      next parent found =>
        split
        next sooner =>
          exact ih _ (by omega) (up.move order inside (by omega) found sooner)
            (by rw [size_place]; omega)
        next later =>
          refine stop fun p _ found' => ?_
          cases found.symm.trans found'
          exact Bool.eq_false_iff.mpr later

omit [DenseKey κ] in
/-- The upper child is a child, and no other child is before it. -/
theorem upperChild_least (order : StrictlyOrders before) {i c : Nat} {k : κ}
    (found : h.upperChild before i = some (c, k)) :
    h.items[c]? = some k ∧ (c - 1) / 2 = i ∧
      ∀ j d, 0 < j → (j - 1) / 2 = i → h.items[j]? = some d → before d k = false := by
  -- There are two children at most, and the one taken is not later than the other.
  have children {j : Nat} (pos : 0 < j) (child : (j - 1) / 2 = i) : j = 2 * i + 1 ∨ j = 2 * i + 2 := by
    omega
  unfold upperChild at found
  split at found
  next => cases found
  next left atLeft noRight =>
    cases found
    refine ⟨atLeft, by omega, fun j d pos child atChild => ?_⟩
    rcases children pos child with rfl | rfl
    · cases atLeft.symm.trans atChild
      exact order.irrefl _
    · rw [noRight] at atChild
      cases atChild
  next left right atLeft atRight =>
    split at found
    next sooner =>
      cases found
      refine ⟨atRight, by omega, fun j d pos child atChild => ?_⟩
      rcases children pos child with rfl | rfl
      · cases atLeft.symm.trans atChild
        exact order.asymm sooner
      · cases atRight.symm.trans atChild
        exact order.irrefl _
    next later =>
      cases found
      refine ⟨atLeft, by omega, fun j d pos child atChild => ?_⟩
      rcases children pos child with rfl | rfl
      · cases atLeft.symm.trans atChild
        exact order.irrefl _
      · cases atRight.symm.trans atChild
        exact Bool.eq_false_iff.mpr later

omit [DenseKey κ] in
/-- Without an upper child there are no children. -/
theorem no_child_of_upperChild {i j : Nat} {c : κ} (none : h.upperChild before i = none) (pos : 0 < j)
    (child : (j - 1) / 2 = i) : h.items[j]? ≠ some c := by
  intro atChild
  have inside := (Array.getElem?_eq_some_iff.mp atChild).1
  unfold upperChild at none
  split at none
  next noLeft =>
    have bound := Array.getElem?_eq_none_iff.mp noLeft
    omega
  next => cases none
  next => split at none <;> cases none

/-- The hole moves down past a child that is before `x` and before the other child. -/
theorem DownOrder.move (order : StrictlyOrders before) (down : h.DownOrder before low hole x)
    (inside : hole < h.items.size) {c : Nat} {child : κ}
    (found : h.upperChild before hole = some (c, child)) (sooner : before child x = true) :
    (h.place hole child).DownOrder before low c x := by
  obtain ⟨atChild, parent, least⟩ := upperChild_least order found
  have deeper := (upperChild_bounds found).1
  constructor
  case apart =>
    intro j d p pos bound notHere notUnder atOther above
    rw [getElem?_place inside] at atOther above
    by_cases here : hole = j
    · subst here
      rw [if_pos rfl] at atOther
      rw [if_neg (by omega)] at above
      cases atOther
      exact down.across c child p pos bound (by omega) parent atChild above
    · rw [if_neg here] at atOther
      by_cases under : hole = (j - 1) / 2
      · rw [if_pos under] at above
        cases above
        exact least j d pos under.symm atOther
      · rw [if_neg under] at above
        exact down.apart j d p pos bound (Ne.symm here) (Ne.symm under) atOther above
  case across =>
    intro j d p pos bound childPos under atGrandchild above
    rw [parent] at bound
    rw [getElem?_place inside] at atGrandchild above
    rw [if_neg (by omega)] at atGrandchild
    rw [if_pos parent.symm] at above
    cases above
    exact down.apart j d child childPos (by omega) (by omega) (by omega) atGrandchild
      (by rw [under]; exact atChild)
  case above =>
    intro p pos bound above
    rw [getElem?_place inside, if_pos parent.symm] at above
    cases above
    exact order.asymm sooner

/-- A sift to the leaves ends with a heap in order. -/
theorem DownOrder.siftDown (order : StrictlyOrders before) (down : h.DownOrder before low hole x)
    (inside : hole < h.items.size) : (siftDown before h hole x).OrderedFrom before low := by
  induction measure : h.items.size - hole using Nat.strongRecOn generalizing h hole with
  | ind n ih =>
    unfold IndexedHeap.siftDown
    split
    next none =>
      exact down.apart.place inside down.above fun j c pos child atChild =>
        absurd atChild (no_child_of_upperChild none pos child)
    next c child found =>
      have bounds := upperChild_bounds found
      split
      next sooner =>
        exact ih (h.items.size - c) (by omega) (down.move order inside found sooner)
          (by rw [size_place]; exact bounds.2) (by rw [size_place])
      next later =>
        refine down.apart.place inside down.above fun j d pos under atOther => ?_
        exact order.trans_not (Bool.eq_false_iff.mpr later)
          ((upperChild_least order found).2.2 j d pos under atOther)

end Sifting

/-- No key of a heap in order is before the top. -/
theorem Ordered.not_before_top (order : StrictlyOrders before) (ordered : h.Ordered before) {top : κ}
    (first : h.items[0]? = some top) (j : Nat) {c : κ} (at_j : h.items[j]? = some c) :
    before c top = false := by
  induction j using Nat.strongRecOn generalizing c with
  | ind j ih =>
    by_cases zero : j = 0
    · subst zero
      cases first.symm.trans at_j
      exact order.irrefl _
    · have inside := (Array.getElem?_eq_some_iff.mp at_j).1
      obtain ⟨p, atParent⟩ : ∃ p, h.items[(j - 1) / 2]? = some p :=
        ⟨_, Array.getElem?_eq_getElem (by omega)⟩
      exact order.trans_not (ih _ (by omega) atParent)
        (ordered j c p (by omega) (Nat.zero_le _) at_j atParent)

/-! ### Operations -/

/-- The top was the first key of the array. What is left is empty, or sifted down from the hole at the
top. -/
theorem getElem?_of_pop [DenseKey κ] {top : κ} {rest : IndexedHeap κ}
    (popped : h.pop? before = some (top, rest)) : h.items[0]? = some top ∧
      (rest.items = #[] ∨ ∃ last, 0 < h.items.pop.size ∧
        rest = siftDown before { items := h.items.pop, positions := h.positions.insert top none } 0 last) := by
  unfold pop? at popped
  split at popped
  next t last first _ =>
    simp only [Array.isEmpty_iff] at popped
    split at popped
    next single =>
      cases popped
      exact ⟨first, .inl single⟩
    next several =>
      cases popped
      have nonempty : 0 < h.items.pop.size :=
        Nat.pos_of_ne_zero fun zero => several (Array.eq_empty_of_size_eq_zero zero)
      exact ⟨first, .inr ⟨last, nonempty, rfl⟩⟩
  next => cases popped

/-- Sifting down position after position, the last first, puts the heap in order. -/
theorem ordered_settle [DenseKey κ] (order : StrictlyOrders before) (n : Nat)
    (ordered : h.OrderedFrom before n) : (settle before n h).Ordered before := by
  induction n generalizing h with
  | zero => exact ordered
  | succ n ih =>
    unfold settle
    split
    next x here =>
      refine ih (DownOrder.siftDown order ⟨?_, ?_, ?_⟩ (Array.getElem?_eq_some_iff.mp here).1)
      · intro j c p pos low _ notUnder atChild atParent
        exact ordered j c p pos (by omega) atChild atParent
      · exact fun j c p pos low => absurd low (by omega)
      · exact fun p pos low => absurd low (by omega)
    next absent =>
      refine ih fun j c p pos low atChild atParent => ?_
      by_cases here : (j - 1) / 2 = n
      · rw [here, absent] at atParent
        cases atParent
      · exact ordered j c p pos (by omega) atChild atParent

/-- The order changes, among these keys, only by putting `k` further to the front. -/
structure Promotes (before after : κ → κ → Bool) (keys : Finset κ) (k : κ) : Prop where
  others : ∀ a ∈ keys, ∀ b ∈ keys, a ≠ k → b ≠ k → after a b = before a b
  further : ∀ b ∈ keys, before k b = true → after k b = true

variable [DenseKey κ] [DecidableEq κ]

/-- The heap is in order, and holds these keys. -/
structure Holds (before : κ → κ → Bool) (h : IndexedHeap κ) (keys : Finset κ) : Prop where
  linked : h.Linked
  ordered : h.Ordered before
  members : ∀ k, k ∈ h.items ↔ k ∈ keys

omit [DecidableEq κ] in
/-- A key stands at one position only. -/
theorem Linked.position_eq (linked : h.Linked) {i j : Nat} {k : κ} (at_i : h.items[i]? = some k)
    (at_j : h.items[j]? = some k) : i = j :=
  Option.some.inj (((linked k i).mpr at_i).symm.trans ((linked k j).mpr at_j))

namespace Holds

variable {keys : Finset κ} {k : κ}

omit [DecidableEq κ] in
theorem mem_of_getElem? (holds : h.Holds before keys) {i : Nat} (at_i : h.items[i]? = some k) : k ∈ keys :=
  (holds.members k).mp (Array.mem_of_getElem? at_i)

theorem insert (order : StrictlyOrders before) (holds : h.Holds before keys) (absent : k ∉ keys) :
    (h.insert before k).Holds before (Insert.insert k keys) := by
  have notThere : k ∉ h.items := fun inside => absent ((holds.members k).mp inside)
  obtain ⟨linked, members⟩ := holds.linked.insert before notThere
  have old {j : Nat} {c : κ} (ne : j ≠ h.items.size) (at_j : (h.items.push k)[j]? = some c) :
      h.items[j]? = some c := by
    rwa [Array.getElem?_push, if_neg ne] at at_j
  have up : ({ h with items := h.items.push k } : IndexedHeap κ).UpOrder before h.items.size k := by
    -- The hole is behind all keys, so that nothing is below it.
    have childless {j : Nat} {c : κ} (pos : 0 < j) (child : (j - 1) / 2 = h.items.size)
        (at_j : (h.items.push k)[j]? = some c) : False := by
      have bound := (Array.getElem?_eq_some_iff.mp at_j).1
      rw [Array.size_push] at bound
      omega
    constructor
    case apart =>
      intro j c p pos low notHere notUnder atChild atParent
      exact holds.ordered j c p pos low (old notHere atChild) (old notUnder atParent)
    case across => exact fun j c p _ _ pos child atChild => (childless pos child atChild).elim
    case below => exact fun j c pos child atChild => (childless pos child atChild).elim
  refine ⟨linked, up.siftUp order (by simp), fun j => (members j).trans ?_⟩
  rw [holds.members, Finset.mem_insert, or_comm]

/-- The order that puts a key further to the front is restored by raising the key. -/
theorem raise (order : StrictlyOrders before) (order' : StrictlyOrders after)
    (promotes : Promotes before after keys k) (holds : h.Holds before keys) :
    (h.raise after k).Holds after keys := by
  obtain ⟨linked, members⟩ := holds.linked.raise after k
  refine ⟨linked, ?_, fun j => (members j).trans (holds.members j)⟩
  -- Keys other than the raised one are ordered as before.
  have kept {c p : κ} (cIn : c ∈ keys) (pIn : p ∈ keys) (cOther : c ≠ k) (pOther : p ≠ k)
      (inOrder : before c p = false) : after c p = false :=
    (promotes.others c cIn p pIn cOther pOther).trans inOrder
  unfold IndexedHeap.raise
  split
  next i found =>
    have here := (holds.linked k i).mp found
    have other {j : Nat} {c : κ} (ne : j ≠ i) (at_j : h.items[j]? = some c) : c ≠ k := by
      rintro rfl
      exact ne (holds.linked.position_eq at_j here)
    have up : h.UpOrder after i k := by
      constructor
      case apart =>
        intro j c p pos low notHere notUnder atChild atParent
        exact kept (holds.mem_of_getElem? atChild) (holds.mem_of_getElem? atParent)
          (other notHere atChild) (other notUnder atParent)
          (holds.ordered j c p pos low atChild atParent)
      case across =>
        intro j c p positive low pos child atChild atParent
        refine kept (holds.mem_of_getElem? atChild) (holds.mem_of_getElem? atParent)
          (other (by omega) atChild) (other (by omega) atParent) ?_
        exact order.trans_not (holds.ordered i k p positive low here atParent)
          (holds.ordered j c k pos (Nat.zero_le _) atChild (child ▸ here))
      case below =>
        intro j c pos child atChild
        have later := holds.ordered j c k pos (Nat.zero_le _) atChild (child ▸ here)
        exact order'.asymm (promotes.further c (holds.mem_of_getElem? atChild)
          (order.before_of_ne later (other (by omega) atChild)))
    exact up.siftUp order' (Array.getElem?_eq_some_iff.mp here).1
  next absent =>
    have notThere {j : Nat} {c : κ} (at_j : h.items[j]? = some c) : c ≠ k := by
      rintro rfl
      rw [(holds.linked c j).mpr at_j] at absent
      cases absent
    intro j c p pos low atChild atParent
    exact kept (holds.mem_of_getElem? atChild) (holds.mem_of_getElem? atParent) (notThere atChild)
      (notThere atParent) (holds.ordered j c p pos low atChild atParent)

/-- The top is the least key; what is left is in order, and holds the other keys. -/
theorem pop (order : StrictlyOrders before) (holds : h.Holds before keys) {top : κ}
    {rest : IndexedHeap κ} (popped : h.pop? before = some (top, rest)) :
    rest.Holds before (keys.erase top) ∧ top ∈ keys ∧ ∀ k ∈ keys, k ≠ top → before top k = true := by
  obtain ⟨linked, members, inside, -⟩ := holds.linked.pop popped
  obtain ⟨first, left⟩ := getElem?_of_pop popped
  refine ⟨⟨linked, ?_, fun k => ?_⟩, (holds.members top).mp inside, fun k member ne => ?_⟩
  · rcases left with empty | ⟨last, nonempty, sifted⟩
    · intro j c p _ _ atChild
      rw [empty] at atChild
      cases atChild
    · have old {j : Nat} {c : κ} (at_j : h.items.pop[j]? = some c) : h.items[j]? = some c := by
        rw [Array.getElem?_pop] at at_j
        split at at_j
        · exact at_j
        · cases at_j
      have down : ({ items := h.items.pop, positions := h.positions.insert top none } :
          IndexedHeap κ).DownOrder before 0 0 last := by
        constructor
        case apart =>
          intro j c p pos low _ _ atChild atParent
          exact holds.ordered j c p pos low (old atChild) (old atParent)
        case across => exact fun _ _ _ pos => absurd pos (Nat.lt_irrefl 0)
        case above => exact fun _ pos => absurd pos (Nat.lt_irrefl 0)
      rw [sifted]
      exact down.siftDown order nonempty
  · rw [members, holds.members, Finset.mem_erase, and_comm]
  · obtain ⟨j, at_j⟩ := Array.mem_iff_getElem?.mp ((holds.members k).mpr member)
    exact order.before_of_ne (holds.ordered.not_before_top order first j at_j) ne

omit [DecidableEq κ] in
theorem pop?_eq_none_iff (holds : h.Holds before keys) : h.pop? before = none ↔ keys = ∅ := by
  rw [IndexedHeap.pop?_eq_none_iff, Array.eq_empty_iff_forall_not_mem, Finset.eq_empty_iff_forall_notMem]
  exact forall_congr' fun k => not_congr (holds.members k)

/-- A heap that is built anew is in order, and holds the given keys. -/
theorem build (order : StrictlyOrders before) (linked : h.Linked) {ks : List κ} (distinct : ks.Nodup) :
    (h.build before ks).Holds before ks.toFinset := by
  obtain ⟨linked', members⟩ := linked.build before distinct
  refine ⟨linked', ordered_settle order _ fun j c p pos low atChild _ => ?_, fun k => ?_⟩
  · -- A parent in the second half would have its children behind the end.
    have inside := (Array.getElem?_eq_some_iff.mp atChild).1
    rw [List.size_toArray] at inside
    omega
  · rw [members, List.mem_toFinset]

/-- Taking out the top until nothing is left gives the keys in order. -/
theorem takeTop (order : StrictlyOrders before) (n : Nat) (holds : h.Holds before keys)
    (enough : h.items.size ≤ n) :
    (takeTop before n h).1.Pairwise (fun a b => before a b = true) ∧
      (∀ k, k ∈ (takeTop before n h).1 ↔ k ∈ keys) ∧ (takeTop before n h).2.Holds before ∅ := by
  induction n generalizing h keys with
  | zero =>
    have empty : h.items = #[] := Array.eq_empty_of_size_eq_zero (by omega)
    obtain rfl : keys = ∅ := holds.pop?_eq_none_iff.mp ((IndexedHeap.pop?_eq_none_iff _ _).mpr empty)
    exact ⟨.nil, fun k => by simp [IndexedHeap.takeTop], holds⟩
  | succ n ih =>
    unfold IndexedHeap.takeTop
    cases popped : h.pop? before with
    | none =>
      obtain rfl := holds.pop?_eq_none_iff.mp popped
      exact ⟨.nil, fun k => by simp, holds⟩
    | some result =>
      obtain ⟨top, rest⟩ := result
      obtain ⟨left, member, least⟩ := holds.pop order popped
      obtain ⟨-, -, -, size⟩ := holds.linked.pop popped
      obtain ⟨sorted, members, final⟩ := ih left (by omega)
      refine ⟨List.pairwise_cons.mpr ⟨fun k later => ?_, sorted⟩, fun k => ?_, final⟩
      · obtain ⟨ne, inside⟩ := Finset.mem_erase.mp ((members k).mp later)
        exact least k inside ne
      · rw [List.mem_cons, members, Finset.mem_erase]
        by_cases same : k = top
        · simp [same, member]
        · simp [same]

end Holds

/-! ### Histories -/

/-- A history of a heap: the order it is in by now, the heap, and the keys that it should hold. -/
inductive Queued : (κ → κ → Bool) → IndexedHeap κ → Finset κ → Prop where
  | empty {before : κ → κ → Bool} (order : StrictlyOrders before) : Queued before empty ∅
  /-- The keys may come in a new order. -/
  | build {before after : κ → κ → Bool} {h : IndexedHeap κ} {keys : Finset κ} {ks : List κ}
    (old : Queued before h keys) (order : StrictlyOrders after) (distinct : ks.Nodup) :
    Queued after (h.build after ks) ks.toFinset
  | insert {before : κ → κ → Bool} {h : IndexedHeap κ} {keys : Finset κ} {k : κ}
    (old : Queued before h keys) (absent : k ∉ keys) :
    Queued before (h.insert before k) (Insert.insert k keys)
  | pop {before : κ → κ → Bool} {h rest : IndexedHeap κ} {keys : Finset κ} {k : κ}
    (old : Queued before h keys) (popped : h.pop? before = some (k, rest)) :
    Queued before rest (keys.erase k)
  /-- Nothing happens to the heap if it does not hold the key. -/
  | raise {before after : κ → κ → Bool} {h : IndexedHeap κ} {keys : Finset κ} {k : κ}
    (old : Queued before h keys) (order : StrictlyOrders after) (promotes : Promotes before after keys k) :
    Queued after (h.raise after k) keys

namespace Queued

variable {keys : Finset κ}

theorem order (queued : Queued before h keys) : StrictlyOrders before := by
  induction queued with
  | empty order => exact order
  | build _ order => exact order
  | insert _ _ ih => exact ih
  | pop _ _ ih => exact ih
  | raise _ order => exact order

theorem holds (queued : Queued before h keys) : h.Holds before keys := by
  induction queued with
  | empty =>
    refine ⟨linked_empty, fun j c p _ _ atChild => ?_, fun k => ?_⟩
    · cases atChild
    · simp [IndexedHeap.empty]
  | build _ order distinct ih => exact .build order ih.linked distinct
  | insert old absent ih => exact ih.insert old.order absent
  | pop old popped ih => exact (ih.pop old.order popped).1
  | raise old order promotes ih => exact ih.raise old.order order promotes

end Queued

variable {keys : Finset κ}

/-- After any history, the heap is a queue of its keys: each stands at one position, which the table gives,
and none is before its parent; the top is the least key, and there is one unless there are no keys; a key
that is put further to the front is found; and the keys come out in order. -/
theorem queue_of_queued (queued : Queued before h keys) :
    h.items.toList.Nodup ∧
      (∀ k i, h.positions.get k = some i ↔ h.items[i]? = some k) ∧
      (∀ k, h.contains k = true ↔ k ∈ keys) ∧
      (∀ k, k ∈ h.items ↔ k ∈ keys) ∧
      (∀ j c p, 0 < j → h.items[j]? = some c → h.items[(j - 1) / 2]? = some p → before c p = false) ∧
      (h.pop? before = none ↔ keys = ∅) ∧
      (∀ k rest, h.pop? before = some (k, rest) → k ∈ keys ∧ ∀ j ∈ keys, j ≠ k → before k j = true) ∧
      (∀ k ∈ keys, ∀ after, h.raise? after k = some (h.raise after k)) ∧
      (h.drain before).1.Pairwise (fun a b => before a b = true) ∧
      (h.drain before).1.toFinset = keys ∧ (h.drain before).2.items = #[] := by
  have order := queued.order
  have holds := queued.holds
  have contained (k : κ) : h.contains k = true ↔ k ∈ keys :=
    (holds.linked.contains_iff k).trans (holds.members k)
  obtain ⟨sorted, members, final⟩ := holds.takeTop order h.size (Nat.le_refl _)
  refine ⟨?_, holds.linked, contained, holds.members, fun j c p pos => holds.ordered j c p pos (Nat.zero_le _),
    holds.pop?_eq_none_iff, fun k rest popped => (holds.pop order popped).2, fun k member after => ?_,
    sorted, ?_, ?_⟩
  · refine List.nodup_iff_getElem?_ne_getElem?.mpr fun i j less inside same => ?_
    rw [Array.getElem?_toList, Array.getElem?_toList] at same
    rw [Array.length_toList] at inside
    have at_j := Array.getElem?_eq_getElem inside
    have := holds.linked.position_eq (same.trans at_j) at_j
    omega
  · obtain ⟨i, found⟩ := Option.isSome_iff_exists.mp ((contained k).mpr member)
    simp only [raise?, IndexedHeap.raise, found, Option.map_some]
  · ext k
    rw [List.mem_toFinset]
    exact members k
  · exact (IndexedHeap.pop?_eq_none_iff before _).mp (final.pop?_eq_none_iff.mpr rfl)

/-- If the lower of two keys with equal scores comes first, scores order the keys strictly. -/
theorem strictlyOrders_scores (s : ScoredHeap) (ties : s.tieByIndex = true) : StrictlyOrders s.before where
  trichotomous a b := by
    simp only [ScoredHeap.before, ties]
    grind
  irrefl a := by
    simp only [ScoredHeap.before, ties]
    grind
  trans a b c := by
    simp only [ScoredHeap.before, ties]
    grind

/-- The key that came first gets the highest score, and the heap is told. -/
theorem queue_of_queued_raised : ∃ h : IndexedHeap Nat,
    Queued (ScoredHeap.before { scores := #[10, 2, 2, 4], tieByIndex := true }) h {3, 2, 1, 0} ∧
      h.items = #[0, 3, 2, 1] ∧
      (∀ j ∈ ({3, 2, 1, 0} : Finset Nat), j ≠ 0 →
        ScoredHeap.before { scores := #[10, 2, 2, 4], tieByIndex := true } 0 j = true) ∧
      (h.drain (ScoredHeap.before { scores := #[10, 2, 2, 4], tieByIndex := true })).1 = [0, 3, 1, 2] ∧
      (h.drain (ScoredHeap.before { scores := #[10, 2, 2, 4], tieByIndex := true })).1.Pairwise
        (fun a b => ScoredHeap.before { scores := #[10, 2, 2, 4], tieByIndex := true } a b = true) := by
  let low : ScoredHeap := { scores := #[1, 2, 2, 4], tieByIndex := true }
  let high : ScoredHeap := { scores := #[10, 2, 2, 4], tieByIndex := true }
  let queue : IndexedHeap Nat := ([0, 1, 2, 3].foldl (IndexedHeap.insert low.before) empty).raise high.before 0
  have zero : Queued low.before empty ∅ := .empty (strictlyOrders_scores low rfl)
  have one := zero.insert (k := 0) (by decide)
  have two := one.insert (k := 1) (by decide)
  have three := two.insert (k := 2) (by decide)
  have four := three.insert (k := 3) (by decide)
  have promotes : Promotes low.before high.before {3, 2, 1, 0} 0 := ⟨by decide, by decide⟩
  have queued : Queued high.before queue {3, 2, 1, 0} := four.raise (strictlyOrders_scores high rfl) promotes
  obtain ⟨-, -, -, -, -, -, least, -, sorted, -, -⟩ := queue_of_queued queued
  have popped : (queue.pop? high.before).map Prod.fst = some 0 := by decide +kernel
  obtain ⟨⟨top, rest⟩, taken, first⟩ := Option.map_eq_some_iff.mp popped
  cases first
  exact ⟨queue, queued, by decide +kernel, (least _ rest taken).2, by decide +kernel, sorted⟩

end IndexedHeap

end Cdcl
