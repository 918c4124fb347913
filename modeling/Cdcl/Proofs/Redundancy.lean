import Cdcl.Proofs.ConflictClauses

/-!
# Redundant literals

A literal of a clause learnt is redundant if its falsity follows from that of the others: if it has a
reason, and every other literal of that reason is settled at level zero, or is in the clause, or is
redundant itself. Recursive minimization leaves out exactly these.

An exploration that succeeds has explained all that it marked, and leads back along the trail, so that
what it found is redundant. One that gives up has met a literal that is not: a redundant literal has a
reason, and as a reason has a literal of its own level, some literal of the clause is of that level.

## Main results

- `Explainer.Redundant`: when a literal is redundant.
- `Explainer.Layered.run_exact`: recursive minimization keeps the literals that are not.
- `Solver.minimized_of_clash`: so it is at every conflict of a search.
-/

namespace Cdcl

namespace LevelMask

theorem mayHold_add (m : LevelMask) (level : Nat) : (m.add level).mayHold level = true := by
  simp [add, mayHold, Nat.testBit_or, Nat.one_shiftLeft, Nat.testBit_two_pow_self]

theorem mayHold_of_mayHold {m : LevelMask} {level : Nat} (h : m.mayHold level = true) (other : Nat) :
    (m.add other).mayHold level = true := by
  unfold mayHold add at *
  rw [Nat.testBit_or, h, Bool.true_or]

/-- A mask may hold the levels added to it. -/
theorem mayHold_foldl {α : Type} (level : α → Nat) {l : List α} {m : LevelMask} {n : Nat}
    (h : m.mayHold n = true ∨ ∃ a ∈ l, level a = n) :
    (l.foldl (fun mask a => mask.add (level a)) m).mayHold n = true := by
  induction l generalizing m with
  | nil => simpa using h
  | cons a l ih =>
    refine ih ?_
    rcases h with held | ⟨b, member, rfl⟩
    · exact .inl (mayHold_of_mayHold held (level a))
    · rcases List.mem_cons.mp member with rfl | later
      · exact .inl (mayHold_add m (level b))
      · exact .inr ⟨b, later, rfl⟩

end LevelMask

namespace Explainer

/-- The literal has a reason, and each of the others in it is settled at level zero, has its variable
in the clause, or is redundant itself. -/
inductive Redundant (x : Explainer) (c : List Lit) : Lit → Prop where
  | implied {l : Lit} {lits : List Lit} (causes : x.causes l.var = some lits)
    (known : ∀ q ∈ lits, x.trail.levelOf q.var ≠ 0 → (∀ m ∈ c, m.var ≠ q.var) → Redundant x c q) :
    Redundant x c l

/-- Only the levels and the causes of variables count. -/
theorem Redundant.congr {x y : Explainer} {c : List Lit} {l : Lit} (h : x.Redundant c l)
    (levels : ∀ v, y.trail.levelOf v = x.trail.levelOf v) (same : ∀ v, y.causes v = x.causes v) :
    y.Redundant c l := by
  induction h with
  | implied causes known ih =>
    refine .implied ((same _).trans causes) fun q member above outside => ?_
    exact ih q member (levels q.var ▸ above) outside

/-- What causes a literal of the trail is false before it, and one of the causes is of its level. -/
structure Layered (n : Nat) (x : Explainer) : Prop where
  coherent : x.trail.Coherent n
  earlier : ∀ {i : Nat} {l : Lit} {lits : List Lit}, x.trail.lits[i]? = some l →
    x.causes l.var = some lits → ∀ q ∈ lits, x.trail.Before i q.neg
  beside : ∀ {i : Nat} {l : Lit} {lits : List Lit}, x.trail.lits[i]? = some l →
    x.causes l.var = some lits → ∃ q ∈ lits, x.trail.levelOf q.var = x.trail.levelOf l.var

namespace Layered

variable {n : Nat} {x : Explainer} (h : x.Layered n) {c base lits : List Lit} {l q : Lit}

include h

/-- What falsifies a literal is false before it, at no higher level. -/
theorem lower (inside : l.neg ∈ x.trail.lits) (causes : x.causes l.var = some lits)
    (member : q ∈ lits) : q.neg ∈ x.trail.lits ∧ x.trail.levelOf q.var ≤ x.trail.levelOf l.var := by
  obtain ⟨i, at_i⟩ := Array.mem_iff_getElem?.mp inside
  obtain ⟨j, below, at_j⟩ := h.earlier at_i causes q member
  refine ⟨Array.mem_of_getElem? at_j, ?_⟩
  have first := h.coherent.level_eq at_j
  have second := h.coherent.level_eq at_i
  rw [Lit.var_neg] at first second
  rw [first, second]
  exact x.trail.levelAt_mono (Nat.le_of_lt below)

/-- Some literal of the clause is of the level of a redundant one. -/
theorem exists_level (redundant : x.Redundant c l) (inside : l.neg ∈ x.trail.lits)
    (above : x.trail.levelOf l.var ≠ 0) : ∃ m ∈ c, x.trail.levelOf m.var = x.trail.levelOf l.var := by
  induction redundant with
  | @implied l lits causes known ih =>
    obtain ⟨i, at_i⟩ := Array.mem_iff_getElem?.mp inside
    obtain ⟨q, member, level⟩ := h.beside at_i causes
    rw [Lit.var_neg] at level
    by_cases outside : ∀ m ∈ c, m.var ≠ q.var
    · rw [← level]
      exact ih q member (level ▸ above) outside (h.lower inside causes member).1 (level ▸ above)
    · push Not at outside
      obtain ⟨m, met, same⟩ := outside
      exact ⟨m, met, by rw [same, level]⟩

/-- What is explained by literals of a clause is in it or redundant. -/
theorem redundant_of_explained {seen : DenseMap Var Seen} (explained : Explained x seen base)
    (sub : ∀ q ∈ base, q ∈ c) (onTrail : ∀ v, seen.get v = .source → ∃ p ∈ x.trail.lits, p.var = v)
    (mark : seen.get l.var = .source) (outside : ∀ q ∈ base, q.var ≠ l.var) : x.Redundant c l := by
  have upTo (i : Nat) : ∀ p, x.trail.lits[i]? = some p → ∀ l : Lit, l.var = p.var →
      seen.get l.var = .source → (∀ q ∈ base, q.var ≠ l.var) → x.Redundant c l := by
    induction i using Nat.strongRecOn with
    | ind i ih =>
      intro p at_i l same mark outside
      rcases explained l.var mark with ⟨q, member, met⟩ | ⟨lits, causes, known⟩
      · exact absurd met (outside q member)
      · refine .implied causes fun q member above unmet => ?_
        obtain ⟨j, below, at_j⟩ := h.earlier at_i (same ▸ causes) q member
        have mark_q := (known q member).resolve_left above
        exact ih j below q.neg at_j q (Lit.var_neg q).symm mark_q fun m inside => unmet m (sub m inside)
  obtain ⟨p, inside, same⟩ := onTrail l.var mark
  obtain ⟨i, at_i⟩ := Array.mem_iff_getElem?.mp inside
  exact upTo i p at_i l same.symm mark outside

end Layered

/-! ### Explorations -/

section Explorations

variable {n top : Nat} {x : Explainer} {mask : LevelMask} {f g : Frontier} {lits c others : List Lit}
  {first : Lit} {answer : Bool}

theorem marked_absorb (inside : ∀ q ∈ lits, q.neg ∈ x.trail.lits)
    (stacked : ∀ q ∈ f.stack, q.neg ∈ x.trail.lits) (marked : ∀ q ∈ f.marked, q.neg ∈ x.trail.lits)
    (result : Frontier.absorb x mask lits f = (answer, g)) :
    (∀ q ∈ g.stack, q.neg ∈ x.trail.lits) ∧ ∀ q ∈ g.marked, q.neg ∈ x.trail.lits := by
  induction lits generalizing f with
  | nil =>
    cases result
    exact ⟨stacked, marked⟩
  | cons l rest ih =>
    obtain ⟨here, others⟩ := List.forall_mem_cons.mp inside
    unfold Frontier.absorb at result
    split at result
    · exact ih others stacked marked result
    · split at result
      · exact ih (f := ⟨f.seen.insert l.var .source, l :: f.stack, l :: f.marked⟩) others
          (List.forall_mem_cons.mpr ⟨here, stacked⟩) (List.forall_mem_cons.mpr ⟨here, marked⟩) result
      · cases result
        exact ⟨stacked, marked⟩

/-- An exploration marks only literals that are false. -/
theorem Layered.marked_explain (h : x.Layered n) {fuel : Nat}
    (stacked : ∀ q ∈ f.stack, q.neg ∈ x.trail.lits) (marked : ∀ q ∈ f.marked, q.neg ∈ x.trail.lits)
    (result : Frontier.explain x mask fuel f = .ok (answer, g)) :
    ∀ q ∈ g.marked, q.neg ∈ x.trail.lits := by
  induction fuel generalizing f with
  | zero => cases result
  | succ fuel ih =>
    unfold Frontier.explain at result
    split at result
    · cases result
      exact marked
    next l stack top =>
      rw [top] at stacked
      obtain ⟨here, below⟩ := List.forall_mem_cons.mp stacked
      split at result
      · cases result
      next lits causes =>
        have inside : ∀ q ∈ lits, q.neg ∈ x.trail.lits := fun q member => (h.lower here causes member).1
        split at result
        next k absorbed =>
          obtain ⟨stacked', marked'⟩ := marked_absorb (f := { f with stack }) inside below marked absorbed
          exact ih stacked' marked' result
        next k absorbed =>
          cases result
          exact (marked_absorb (f := { f with stack }) inside below marked absorbed).2

/-- The clause has a first literal of level `top` and others, all of which are marked, and their levels
are in the mask. -/
structure Searchable (x : Explainer) (mask : LevelMask) (top : Nat) (first : Lit) (others : List Lit)
    (seen : DenseMap Var Seen) : Prop where
  latest : x.trail.levelOf first.var = top
  marked : ∀ q ∈ others, seen.get q.var = .source
  masked : ∀ q ∈ others, mask.mayHold (x.trail.levelOf q.var) = true

/-- A redundant literal that is false below level `top`. -/
structure Explicable (x : Explainer) (top : Nat) (c : List Lit) (l : Lit) : Prop where
  fails : l.neg ∈ x.trail.lits
  below : x.trail.levelOf l.var < top
  redundant : x.Redundant c l

/-- Nothing stops an exploration at the reason of a redundant literal. -/
theorem Layered.absorb_explicable (h : x.Layered n) (searchable : x.Searchable mask top first others f.seen)
    (fails : ∀ q ∈ lits, q.neg ∈ x.trail.lits ∧ x.trail.levelOf q.var < top)
    (known : ∀ q ∈ lits, x.trail.levelOf q.var ≠ 0 → (∀ m ∈ first :: others, m.var ≠ q.var) →
      x.Redundant (first :: others) q)
    (stacked : ∀ q ∈ f.stack, x.Explicable top (first :: others) q)
    (result : Frontier.absorb x mask lits f = (answer, g)) :
    answer = true ∧ (∀ q ∈ g.stack, x.Explicable top (first :: others) q) ∧
      x.Searchable mask top first others g.seen := by
  induction lits generalizing f with
  | nil =>
    cases result
    exact ⟨rfl, stacked, searchable⟩
  | cons l rest ih =>
    obtain ⟨⟨opposite, below⟩, fails⟩ := List.forall_mem_cons.mp fails
    obtain ⟨known_l, known⟩ := List.forall_mem_cons.mp known
    unfold Frontier.absorb at result
    split at result
    · exact ih searchable fails known stacked result
    next unknown =>
      simp only [Bool.or_eq_true, beq_iff_eq, not_or] at unknown
      obtain ⟨above, unmarked⟩ := unknown
      -- The literal is not of the clause: the first is above it, and the others are marked.
      have outside : ∀ m ∈ first :: others, m.var ≠ l.var := by
        intro m member same
        rcases List.mem_cons.mp member with rfl | other
        · rw [← same, searchable.latest] at below
          exact Nat.lt_irrefl _ below
        · exact unmarked (same ▸ searchable.marked m other)
      have redundant := known_l above outside
      have reason : x.trail.reason l.var ≠ .decision := by
        cases redundant with
        | implied causes =>
          intro decision
          unfold Explainer.causes at causes
          rw [decision] at causes
          cases causes
      -- Neither reason to give up applies: it was not decided, and the clause has a literal of its level.
      have held : mask.mayHold (x.trail.levelOf l.var) = true := by
        obtain ⟨m, member, level⟩ := h.exists_level redundant opposite above
        rcases List.mem_cons.mp member with rfl | other
        · rw [← level, searchable.latest] at below
          exact absurd below (Nat.lt_irrefl _)
        · rw [← level]
          exact searchable.masked m other
      rw [if_pos (by simp [reason, held])] at result
      have marked : ∀ q ∈ others, (f.seen.insert l.var .source).get q.var = .source := by
        intro q member
        rw [DenseMap.get_insert]
        split
        · rfl
        · exact searchable.marked q member
      refine ih (f := ⟨f.seen.insert l.var .source, l :: f.stack, l :: f.marked⟩)
        { searchable with marked } fails known ?_ result
      exact List.forall_mem_cons.mpr ⟨⟨opposite, below, redundant⟩, stacked⟩

/-- An exploration of redundant literals does not give up. -/
theorem Layered.explain_explicable (h : x.Layered n) {fuel : Nat}
    (searchable : x.Searchable mask top first others f.seen)
    (stacked : ∀ q ∈ f.stack, x.Explicable top (first :: others) q)
    (result : Frontier.explain x mask fuel f = .ok (answer, g)) : answer = true := by
  induction fuel generalizing f with
  | zero => cases result
  | succ fuel ih =>
    unfold Frontier.explain at result
    split at result
    · cases result
      rfl
    next l stack top =>
      rw [top] at stacked
      obtain ⟨⟨fails, below, redundant⟩, stacked⟩ := List.forall_mem_cons.mp stacked
      split at result
      · cases result
      next lits causes =>
        obtain ⟨causes', known⟩ := redundant
        rw [causes] at causes'
        cases causes'
        have lower (q : Lit) (member : q ∈ lits) :
            q.neg ∈ x.trail.lits ∧ x.trail.levelOf q.var < _ :=
          ⟨(h.lower fails causes member).1, Nat.lt_of_le_of_lt (h.lower fails causes member).2 below⟩
        split at result
        next k absorbed =>
          obtain ⟨-, stacked', searchable'⟩ :=
            h.absorb_explicable (f := { f with stack }) searchable lower known stacked absorbed
          exact ih searchable' stacked' result
        next k absorbed =>
          have := (h.absorb_explicable (f := { f with stack }) searchable lower known stacked absorbed).1
          cases this

end Explorations

/-! ### The literals of a clause one after the other -/

/-- Minimization has gone through the literals before `rest`, and has kept those that are not
redundant. -/
structure Pruning (x : Explainer) (before : DenseMap Var Seen) (first : Lit)
    (others done rest : List Lit) (m : Minimizer) : Prop
    extends Minimizing x before others rest m where
  parts : others = done ++ rest
  fails : ∀ q ∈ m.marked, q.neg ∈ x.trail.lits
  exact : ∀ l, l ∈ m.kept ↔ l ∈ done ∧ ¬ x.Redundant (first :: others) l

section Pruning

variable {n top numVars : Nat} {x : Explainer} {mask : LevelMask} {before : DenseMap Var Seen} {first l : Lit}
  {others done rest : List Lit} {m m' : Minimizer}

theorem Pruning.stepRecursive (h : x.Layered n) (searchable : x.Searchable mask top first others before)
    (distinct : (others.map Lit.var).Nodup)
    (below : ∀ q ∈ others, q.neg ∈ x.trail.lits ∧ x.trail.levelOf q.var < top)
    (pruning : Pruning x before first others done (l :: rest) m)
    (result : m.stepRecursive x numVars mask l = .ok m') :
    Pruning x before first others (done ++ [l]) rest m' := by
  have minimizing := pruning.toMinimizing.stepRecursive result
  have parts : others = done ++ [l] ++ rest := by
    rw [List.append_assoc]
    exact pruning.parts
  have member : l ∈ others := pruning.parts ▸ List.mem_append_right _ List.mem_cons_self
  obtain ⟨opposite, lower⟩ := below l member
  -- What was kept before, and this literal if it is not redundant.
  have keep (needed : ¬ x.Redundant (first :: others) l) (q : Lit) :
      q ∈ m.kept.push l ↔ q ∈ done ++ [l] ∧ ¬ x.Redundant (first :: others) q := by
    rw [Array.mem_push, pruning.exact, List.mem_append, List.mem_singleton]
    constructor
    · rintro (⟨inside, kept⟩ | rfl)
      · exact ⟨.inl inside, kept⟩
      · exact ⟨.inr rfl, needed⟩
    · rintro ⟨inside | rfl, kept⟩
      · exact .inl ⟨inside, kept⟩
      · exact .inr rfl
  unfold Minimizer.stepRecursive at result
  split at result
  next decision =>
    cases result
    refine { minimizing with parts, fails := pruning.fails, exact := keep fun redundant => ?_ }
    cases redundant with
    | implied causes =>
      unfold Explainer.causes at causes
      rw [eq_of_beq decision] at causes
      cases causes
  next =>
    have stacked : ∀ q ∈ [l], q.neg ∈ x.trail.lits := List.forall_mem_singleton.mpr opposite
    split at result
    · cases result
    next f found =>
      cases result
      have marked := h.marked_explain (f := { seen := m.seen, stack := [l] }) stacked nofun found
      have fails : ∀ q ∈ f.marked ++ m.marked, q.neg ∈ x.trail.lits := fun q inside =>
        (List.mem_append.mp inside).elim (marked q) (pruning.fails q)
      refine { minimizing with parts, fails, exact := fun q => ?_ }
      have redundant : x.Redundant (first :: others) l := by
        refine h.redundant_of_explained minimizing.explained (fun q kept => ?_) (fun v mark => ?_)
          (minimizing.keeps l.var (searchable.marked l member)) (fun q kept same => ?_)
        · exact List.mem_cons_of_mem _ (minimizing.sublist.subset kept)
        · rcases minimizing.listed v mark with ⟨q, inside, same⟩ | ⟨q, inside, same⟩
          · exact ⟨q.neg, (below q inside).1, same⟩
          · exact ⟨q.neg, fails q inside, same⟩
        · -- No two literals of the clause have one variable.
          have sublist := pruning.sublist
          have split := ((sublist.map Lit.var).nodup distinct)
          rw [List.map_append, List.map_cons, List.nodup_middle, List.nodup_cons,
            ← List.map_append] at split
          exact split.1 (List.mem_map.mpr ⟨q, kept, same⟩)
      rw [pruning.exact, List.mem_append, List.mem_singleton]
      refine ⟨fun ⟨inside, kept⟩ => ⟨.inl inside, kept⟩, ?_⟩
      rintro ⟨inside | rfl, kept⟩
      · exact ⟨inside, kept⟩
      · exact absurd redundant kept
    next f found =>
      cases result
      refine { minimizing with parts, fails := pruning.fails, exact := keep fun redundant => ?_ }
      have marked : ∀ q ∈ others, m.seen.get q.var = .source := fun q inside =>
        pruning.keeps q.var (searchable.marked q inside)
      have searchable' : x.Searchable mask top first others m.seen := { searchable with marked }
      have answers := h.explain_explicable (f := { seen := m.seen, stack := [l] }) searchable'
        (List.forall_mem_singleton.mpr ⟨opposite, lower, redundant⟩) found
      cases answers

/-- Recursive minimization keeps the literals that are not redundant. -/
theorem Layered.run_exact (h : x.Layered n) {seen : DenseMap Var Seen}
    (source : ∀ v, seen.get v = .source ↔ ∃ q ∈ others, q.var = v) (clear : ∀ v, seen.get v ≠ .resolved)
    (distinct : (others.map Lit.var).Nodup)
    (below : ∀ q ∈ others, q.neg ∈ x.trail.lits ∧ x.trail.levelOf q.var < x.trail.levelOf first.var)
    (result : Minimizer.run x 2 numVars seen others = .ok m) (l : Lit) :
    l ∈ m.kept ↔ l ∈ others ∧ ¬ x.Redundant (first :: others) l := by
  have start : Pruning x seen first others [] others { seen } :=
    { explained := fun v mark => .inl ((source v).mp mark)
      sublist := List.Sublist.refl _
      keeps := fun _ => id
      listed := fun v mark => .inl ((source v).mp mark)
      clear
      parts := rfl
      fails := nofun
      exact := by simp }
  -- The induction is on the literals still to be judged; those judged before are in `done`.
  have loop {mask : LevelMask} (searchable : x.Searchable mask (x.trail.levelOf first.var) first others seen)
      (rest done : List Lit) (m₀ : Minimizer) (pruning : Pruning x seen first others done rest m₀)
      (result : rest.foldlM (Minimizer.stepRecursive x numVars mask) m₀ = .ok m) :
      Pruning x seen first others others [] m := by
    induction rest generalizing done m₀ with
    | nil =>
      cases result
      have parts := pruning.parts
      rw [List.append_nil] at parts
      rw [← parts] at pruning
      exact pruning
    | cons l rest ih =>
      rw [List.foldlM_cons] at result
      cases step : m₀.stepRecursive x numVars mask l with
      | error fault =>
        rw [step] at result
        cases result
      | ok between =>
        rw [step] at result
        exact ih _ between (pruning.stepRecursive h searchable distinct below step) result
  refine (loop ?_ others [] _ start result).exact l
  exact
    { latest := rfl
      marked := fun q member => (source q.var).mpr ⟨q, member, rfl⟩
      masked := fun q member => LevelMask.mayHold_foldl _ (.inr ⟨q, member, rfl⟩) }

end Pruning

end Explainer

namespace Engine

variable {aside : List ClauseId} {e f : Engine}

/-- The clause that resolution comes to, before it is minimized. -/
def resolvent (e : Engine) (c : Conflict) : Except Fault (List Lit) :=
  (Resolution.backward e.trail.level e.trail.size (Resolution.start e.trail.level e c)).map
    fun (r, p, _) => p.neg :: r.lits.toList

theorem Sound.layered (h : e.Sound aside) : e.explainer.Layered e.numVars where
  coherent := h.trail
  earlier := fun at_i causes => (h.causes at_i causes).1
  beside := by
    intro i l lits at_i causes
    obtain ⟨q, member, beside⟩ := h.beside at_i causes
    exact ⟨q, member, (Lit.var_neg q) ▸ h.levelOf_beside at_i beside⟩

theorem Examined.layered (h : e.Examined f) {n : Nat} (layered : e.explainer.Layered n) :
    f.explainer.Layered n := by
  have trail : f.explainer.trail = e.explainer.trail := h.trail
  constructor
  case coherent =>
    rw [trail]
    exact layered.coherent
  case earlier =>
    intro i l lits at_i causes
    rw [trail] at at_i ⊢
    rw [h.causes] at causes
    exact layered.earlier at_i causes
  case beside =>
    intro i l lits at_i causes
    rw [trail] at at_i ⊢
    rw [h.causes] at causes
    exact layered.beside at_i causes

/-- An examination leaves literals as redundant as they were. -/
theorem Examined.redundant_iff (h : e.Examined f) {c : List Lit} {l : Lit} :
    f.explainer.Redundant c l ↔ e.explainer.Redundant c l := by
  have trail : f.explainer.trail = e.explainer.trail := h.trail
  constructor
  · exact fun redundant => redundant.congr (fun v => by rw [trail]) fun v => (h.causes v).symm
  · exact fun redundant => redundant.congr (fun v => by rw [trail]) h.causes

theorem Analysis.resolvent {r : Resolution} {seen : DenseMap Var Seen} {m : Minimizer} {p : Lit}
    {c : Conflict} {learnt : Learnt} (h : Analysis e c p r seen m f learnt) :
    e.resolvent c = .ok (p.neg :: r.lits.toList) := by
  obtain ⟨i, -, found⟩ := h.resolved
  rw [Engine.resolvent, found]
  rfl

/-- Recursive minimization leaves out the redundant literals of the resolvent but for the first, and no
others. -/
theorem analyze_minimized (sound : e.Sound aside) {c : Conflict} (conflict : e.IsConflict c)
    (positive : e.trail.level ≠ 0) (recursive : e.opts.minimization = 2) {learnt : Learnt}
    (result : e.analyze c = .ok (f, learnt)) : ∃ first others kept,
      e.resolvent c = .ok (first :: others) ∧ learnt.lits.toList = first :: kept ∧
      ∀ l, l ∈ kept ↔ l ∈ others ∧ ¬ e.explainer.Redundant (first :: others) l := by
  obtain ⟨p, r, seen, m, h⟩ := analysis_of_analyze sound conflict positive result
  obtain ⟨i, resolved, -⟩ := h.resolved
  obtain ⟨rest, list, perm⟩ := h.list
  have examined := resolved.examined
  have below : ∀ q ∈ r.lits.toList, q.neg ∈ r.engine.explainer.trail.lits ∧
      r.engine.explainer.trail.levelOf q.var < r.engine.explainer.trail.levelOf p.neg.var := by
    intro q member
    have trail : r.engine.explainer.trail = e.trail := examined.trail
    rw [trail, Lit.var_neg, resolved.latest]
    obtain ⟨inside, -, other⟩ := resolved.lower q (Array.mem_toList_iff.mp member)
    have le := sound.trail.levelOf_le inside
    rw [Lit.var_neg] at le
    exact ⟨inside, Nat.lt_of_le_of_ne le other⟩
  have ran := h.ran
  have mode : r.engine.opts.minimization = 2 := examined.opts ▸ recursive
  rw [mode] at ran
  have exact (l : Lit) : l ∈ m.kept ↔ l ∈ r.lits.toList ∧
      ¬ r.engine.explainer.Redundant (p.neg :: r.lits.toList) l :=
    (examined.layered sound.layered).run_exact h.source h.clear (distinct_of_resolved sound resolved) below
      ran l
  refine ⟨p.neg, r.lits.toList, rest, h.resolvent, list, fun l => ?_⟩
  rw [perm.mem_iff, Array.mem_toList_iff, exact, examined.redundant_iff]

end Engine

namespace Solver

open Engine

variable {F : List (List Lit)} {s : Solver} {e : Engine} {c : Conflict}

/-- At every conflict of a search that minimizes recursively, the clause learnt is the resolvent without
its redundant literals. -/
theorem minimized_of_clash (h : Clash F s e c) (recursive : e.opts.minimization = 2) :
    ∃ first others f learnt kept, e.resolvent c = .ok (first :: others) ∧
      e.analyze c = .ok (f, learnt) ∧ learnt.lits.toList = first :: kept ∧
      ∀ l, l ∈ kept ↔ l ∈ others ∧ ¬ e.explainer.Redundant (first :: others) l := by
  obtain ⟨sound, conflict, positive, -⟩ := h.sound
  obtain ⟨f, learnt, analyzed⟩ := analyze_total sound conflict positive
  obtain ⟨first, others, kept, resolved, lits, exact⟩ :=
    analyze_minimized sound conflict positive recursive analyzed
  exact ⟨first, others, f, learnt, kept, resolved, analyzed, lits, exact⟩

/-- Six is implied by two, which is implied by one, so that the clause can do without its opposite. -/
theorem minimized_of_clash_chain : ∃ s e c,
    Clash (clausesOf [[-1, 2], [-2, 6], [-3, 4], [-1, -6, -4, 5], [-4, -6, -5]]) s e c ∧
      e.opts.minimization = 2 ∧
      e.resolvent c = .ok [.ofDimacs (-4), .ofDimacs (-6), .ofDimacs (-1)] ∧
      e.explainer.Redundant [.ofDimacs (-4), .ofDimacs (-6), .ofDimacs (-1)] (.ofDimacs (-6)) ∧
      ∃ first others f learnt kept, e.resolvent c = .ok (first :: others) ∧
        e.analyze c = .ok (f, learnt) ∧ learnt.lits.toList = first :: kept ∧
        ∀ l, l ∈ kept ↔ l ∈ others ∧ ¬ e.explainer.Redundant (first :: others) l := by
  have passes : sessionPasses {} 9
      (giving 6 (clausesOf [[-1, 2], [-2, 6], [-3, 4], [-1, -6, -4, 5], [-4, -6, -5]]))
      (clausesOf [[-1, 2], [-2, 6], [-3, 4], [-1, -6, -4, 5], [-4, -6, -5]])
      (fun s => s.engine.ok && s.searchPasses [.ofDimacs 1, .ofDimacs 3] (stepsPass
        (clashPasses fun e c => e.opts.minimization == 2 &&
          ((e.resolvent c).toOption == some [.ofDimacs (-4), .ofDimacs (-6), .ofDimacs (-1)] &&
            ((e.analyze c).toOption.map (·.2.lits)) == some #[.ofDimacs (-4), .ofDimacs (-1)])) 2)) = true := by
    decide +kernel
  obtain ⟨s, history, tests⟩ := exists_of_sessionPasses passes
  obtain ⟨ok, searches⟩ := Bool.and_eq_true_iff.mp tests
  obtain ⟨t, u, assumed, starts, steps⟩ := exists_of_searchPasses searches
  obtain ⟨w, searched, meets⟩ := (Searched.start history ok assumed starts).exists_of_stepsPass steps
  obtain ⟨e, c, clash, learns⟩ := searched.exists_of_clashPasses meets
  simp only [Bool.and_eq_true, beq_iff_eq] at learns
  obtain ⟨recursive, full, short⟩ := learns
  obtain ⟨first, others, f, learnt, kept, resolved, analyzed, lits, exact⟩ :=
    minimized_of_clash clash recursive
  have known : first :: others = [.ofDimacs (-4), .ofDimacs (-6), .ofDimacs (-1)] := by
    rw [resolved] at full
    exact Option.some.inj full
  have found : first :: kept = [.ofDimacs (-4), .ofDimacs (-1)] := by
    rw [analyzed] at short
    have same : learnt.lits = #[.ofDimacs (-4), .ofDimacs (-1)] := Option.some.inj short
    rw [← lits, same]
  have gone : e.explainer.Redundant (first :: others) (.ofDimacs (-6)) := by
    by_contra needed
    have inside := (exact (.ofDimacs (-6))).mpr ⟨?_, needed⟩
    · rw [(List.cons.inj found).2] at inside
      exact absurd inside (by decide)
    · rw [(List.cons.inj known).2]
      decide
  rw [known] at gone
  exact ⟨w, e, c, clash, recursive, known ▸ resolved, gone, first, others, f, learnt, kept, resolved, analyzed,
    lits, exact⟩

end Solver

end Cdcl
