import Cdcl.Proofs.EngineInvariant

/-!
# Minimization keeps what a clause says

A marked variable is either one of the clause, or its causes are all marked or settled at level
zero. Minimization drops a literal only if that stays so without it, and so the literals kept imply
all that is marked.

## Main results

- `Minimizer.run_minimizing`: what minimization keeps explains all that it marked.
- `Explained.satisfied`: under what is stored, what is explained holds.
-/

namespace Cdcl

/-- Every marked variable is that of a literal of `base`, or has causes that are marked or settled at
level zero. -/
def Explained (x : Explainer) (seen : DenseMap Var Seen) (base : List Lit) : Prop :=
  ∀ v, seen.get v = .source → (∃ q ∈ base, q.var = v) ∨
    ∃ lits, x.causes v = some lits ∧ ∀ q ∈ lits, x.trail.levelOf q.var = 0 ∨ seen.get q.var = .source

namespace Explained

variable {x : Explainer} {seen seen' : DenseMap Var Seen} {base base' : List Lit}

theorem weaken (h : Explained x seen base) (sub : ∀ q ∈ base, q ∈ base') : Explained x seen base' :=
  fun v mark => (h v mark).imp_left fun ⟨q, member, same⟩ => ⟨q, sub q member, same⟩

/-- The same marks in another map. -/
theorem congr (h : Explained x seen base) (same : ∀ v, seen'.get v = .source ↔ seen.get v = .source) :
    Explained x seen' base := by
  intro v mark
  refine (h v ((same v).mp mark)).imp_right fun ⟨lits, causes, known⟩ => ⟨lits, causes, ?_⟩
  exact fun q member => (known q member).imp_right (same q.var).mpr

/-- A literal whose causes are known is not needed. -/
theorem drop {l : Lit} (h : Explained x seen (l :: base)) {lits : List Lit}
    (causes : x.causes l.var = some lits)
    (known : ∀ q ∈ lits, x.trail.levelOf q.var = 0 ∨ seen.get q.var = .source) :
    Explained x seen base := by
  intro v mark
  rcases h v mark with ⟨q, member, rfl⟩ | explained
  · rcases List.mem_cons.mp member with rfl | old
    · exact .inr ⟨lits, causes, known⟩
    · exact .inl ⟨q, old, rfl⟩
  · exact .inr explained

/-- A literal newly marked is one to be explained. -/
theorem mark {l : Lit} (h : Explained x seen base) :
    Explained x (seen.insert l.var .source) (l :: base) := by
  intro v mark
  rw [DenseMap.get_insert] at mark
  have keeps (q : Lit) (old : seen.get q.var = .source) :
      (seen.insert l.var .source).get q.var = .source := by
    rw [DenseMap.get_insert]
    split
    · rfl
    · exact old
  split at mark
  next same => exact .inl ⟨l, List.mem_cons_self, same⟩
  next =>
    rcases h v mark with ⟨q, member, same⟩ | ⟨lits, causes, known⟩
    · exact .inl ⟨q, List.mem_cons_of_mem _ member, same⟩
    · exact .inr ⟨lits, causes, fun q member => (known q member).imp_right (keeps q)⟩

end Explained

/-! ### Exploring reasons -/

namespace Frontier

/-- The marks are those of before and those of the exploration, which were not set before. -/
structure Records (before : DenseMap Var Seen) (f : Frontier) : Prop where
  source : ∀ v, f.seen.get v = .source ↔ before.get v = .source ∨ ∃ q ∈ f.marked, q.var = v
  fresh : ∀ q ∈ f.marked, before.get q.var ≠ .source
  clear : ∀ v, f.seen.get v ≠ .resolved

variable {x : Explainer} {mask : LevelMask} {before : DenseMap Var Seen} {base : List Lit}

theorem Records.mark {f : Frontier} (h : Records before f) {l : Lit}
    (unmarked : f.seen.get l.var ≠ .source) (stack : List Lit) :
    Records before
      { seen := f.seen.insert l.var .source, stack, marked := l :: f.marked } where
  source := by
    intro v
    rw [DenseMap.get_insert]
    split
    next same => simp [← same]
    next other =>
      rw [h.source]
      refine or_congr_right ?_
      simp only [List.mem_cons, exists_eq_or_imp, other, false_or]
  fresh := by
    intro q member
    rcases List.mem_cons.mp member with rfl | old
    · exact fun mark => unmarked ((h.source _).mpr (.inl mark))
    · exact h.fresh q old
  clear := by
    intro v
    rw [DenseMap.get_insert]
    split
    · exact nofun
    · exact h.clear v

theorem absorb_spec {lits : List Lit} {f g : Frontier} {answer : Bool} (records : Records before f)
    (explained : Explained x f.seen (base ++ f.stack))
    (result : absorb x mask lits f = (answer, g)) :
    Records before g ∧ (∀ v, f.seen.get v = .source → g.seen.get v = .source) ∧
      (answer = true → Explained x g.seen (base ++ g.stack) ∧
        ∀ q ∈ lits, x.trail.levelOf q.var = 0 ∨ g.seen.get q.var = .source) := by
  induction lits generalizing f with
  | nil =>
    cases result
    exact ⟨records, fun _ => id, fun _ => ⟨explained, nofun⟩⟩
  | cons l rest ih =>
    unfold absorb at result
    split at result
    next known =>
      obtain ⟨records_g, keeps, done⟩ := ih records explained result
      refine ⟨records_g, keeps, fun yes => ⟨(done yes).1, fun q member => ?_⟩⟩
      rcases List.mem_cons.mp member with rfl | later
      · simp only [Bool.or_eq_true, beq_iff_eq] at known
        exact known.imp_right (keeps q.var)
      · exact (done yes).2 q later
    next unknown =>
      simp only [Bool.or_eq_true, beq_iff_eq, not_or] at unknown
      split at result
      next =>
        have marked : Explained x (f.seen.insert l.var .source) (base ++ l :: f.stack) :=
          explained.mark.weaken fun q member => by
            simp only [List.mem_cons, List.mem_append] at member ⊢
            tauto
        obtain ⟨records_g, keeps, done⟩ := ih (records.mark unknown.2 _) marked result
        -- A mark that is set stays set.
        have grows (v : Var) (old : f.seen.get v = .source) :
            (f.seen.insert l.var .source).get v = .source := by
          rw [DenseMap.get_insert]
          split
          · rfl
          · exact old
        refine ⟨records_g, fun v old => keeps v (grows v old), fun yes => ⟨(done yes).1, fun q member => ?_⟩⟩
        rcases List.mem_cons.mp member with rfl | later
        · refine .inr (keeps _ ?_)
          simp [DenseMap.get_insert]
        · exact (done yes).2 q later
      next =>
        cases result
        exact ⟨records, fun _ => id, nofun⟩

theorem explain_spec {n : Nat} {f g : Frontier} {answer : Bool} (records : Records before f)
    (explained : Explained x f.seen (base ++ f.stack))
    (result : explain x mask n f = .ok (answer, g)) :
    Records before g ∧ (answer = true → Explained x g.seen base) := by
  induction n generalizing f with
  | zero => cases result
  | succ n ih =>
    unfold explain at result
    split at result
    next empty =>
      cases result
      rw [empty, List.append_nil] at explained
      exact ⟨records, fun _ => explained⟩
    next l stack top =>
      split at result
      · cases result
      next lits causes =>
        rw [top] at explained
        have popped : Explained x f.seen ((l :: base) ++ stack) := explained.weaken fun q member => by
          simp only [List.mem_cons, List.mem_append, List.cons_append] at member ⊢
          tauto
        have start : Records before { f with stack } := ⟨records.source, records.fresh, records.clear⟩
        split at result
        next k absorbed =>
          obtain ⟨records_k, _, done⟩ := absorb_spec start popped absorbed
          obtain ⟨wider, known⟩ := done rfl
          exact ih records_k (wider.drop causes known) result
        next k absorbed =>
          cases result
          exact ⟨(absorb_spec start popped absorbed).1, nofun⟩

theorem get_foldl_unmark (marked : List Lit) (seen : DenseMap Var Seen) (v : Var) :
    (marked.foldl (fun seen l => seen.insert l.var .unseen) seen).get v =
      if ∃ q ∈ marked, q.var = v then .unseen else seen.get v := by
  induction marked generalizing seen with
  | nil => simp
  | cons l marked ih =>
    rw [List.foldl_cons, ih, DenseMap.get_insert]
    by_cases here : l.var = v
    · simp [here]
    · simp [here]

/-- Taking back the marks of an exploration leaves those of before. -/
theorem Records.unmark {f : Frontier} (h : Records before f) (clear : ∀ v, before.get v ≠ .resolved)
    (v : Var) : f.unmark.get v = before.get v := by
  rw [Frontier.unmark, get_foldl_unmark]
  split
  next marked =>
    obtain ⟨q, member, rfl⟩ := marked
    have := h.fresh q member
    have := clear q.var
    cases mark : before.get q.var <;> simp_all
  next unmarked =>
    have source := h.source v
    simp only [unmarked, or_false] at source
    have := h.clear v
    have := clear v
    cases mark : f.seen.get v <;> cases old : before.get v <;> simp_all

end Frontier

/-! ### The literals of a clause one after the other -/

/-- Minimization has gone through the literals before `rest`. -/
structure Minimizing (x : Explainer) (before : DenseMap Var Seen) (others rest : List Lit)
    (m : Minimizer) : Prop where
  explained : Explained x m.seen (m.kept.toList ++ rest)
  sublist : (m.kept.toList ++ rest).Sublist others
  keeps : ∀ v, before.get v = .source → m.seen.get v = .source
  listed : ∀ v, m.seen.get v = .source →
    (∃ q ∈ others, q.var = v) ∨ ∃ q ∈ m.marked, q.var = v
  clear : ∀ v, m.seen.get v ≠ .resolved

namespace Minimizing

variable {x : Explainer} {before : DenseMap Var Seen} {others rest : List Lit} {m : Minimizer} {l : Lit}

theorem keep (h : Minimizing x before others (l :: rest) m) :
    Minimizing x before others rest { m with kept := m.kept.push l } :=
  { h with
    explained := by simpa using h.explained
    sublist := by simpa using h.sublist }

theorem stepLocal (h : Minimizing x before others (l :: rest) m) :
    Minimizing x before others rest (m.stepLocal x l) := by
  unfold Minimizer.stepLocal
  split
  · exact h.keep
  next lits causes =>
    split
    · exact h.keep
    next redundant =>
      have known : ∀ q ∈ lits, x.trail.levelOf q.var = 0 ∨ m.seen.get q.var = .source := by
        intro q member
        have := h.clear q.var
        simp only [Minimizer.isNeeded, List.any_eq_true, not_exists, not_and] at redundant
        have := redundant q member
        cases mark : m.seen.get q.var <;> simp_all
      refine { h with explained := ?_, sublist := ?_ }
      · refine Explained.drop (l := l) (h.explained.weaken fun q member => ?_) causes known
        simp only [List.mem_append, List.mem_cons] at member ⊢
        tauto
      · exact ((List.sublist_cons_self l rest).append_left _).trans h.sublist

theorem stepRecursive {numVars : Nat} {mask : LevelMask} {m' : Minimizer}
    (h : Minimizing x before others (l :: rest) m)
    (result : m.stepRecursive x numVars mask l = .ok m') : Minimizing x before others rest m' := by
  unfold Minimizer.stepRecursive at result
  split at result
  · cases result
    exact h.keep
  · have records : Frontier.Records m.seen { seen := m.seen, stack := [l] } :=
      ⟨by simp, nofun, h.clear⟩
    have explained : Explained x m.seen ((m.kept.toList ++ rest) ++ [l]) :=
      h.explained.weaken fun q member => by
        simp only [List.mem_append, List.mem_cons, List.not_mem_nil, or_false] at member ⊢
        tauto
    split at result
    · cases result
    -- The literal is explained by the others. The marks set while it was explained may stay.
    next f found =>
      cases result
      obtain ⟨records_f, done⟩ := Frontier.explain_spec records explained found
      exact
        { explained := done rfl
          sublist := ((List.sublist_cons_self l rest).append_left _).trans h.sublist
          keeps := fun v old => (records_f.source v).mpr (.inl (h.keeps v old))
          listed := by
            intro v mark
            rcases (records_f.source v).mp mark with old | ⟨q, member, same⟩
            · exact (h.listed v old).imp_right fun ⟨q, member, same⟩ =>
                ⟨q, List.mem_append_right _ member, same⟩
            · exact .inr ⟨q, List.mem_append_left _ member, same⟩
          clear := records_f.clear }
    next f found =>
      cases result
      -- The explanation failed, and the marks set for it are taken back.
      have restored := (Frontier.explain_spec records explained found).1.unmark h.clear
      have kept := h.keep
      exact
        { explained := kept.explained.congr fun v => by rw [restored]
          sublist := kept.sublist
          keeps := fun v old => by rw [restored]; exact h.keeps v old
          listed := fun v mark => h.listed v (restored v ▸ mark)
          clear := fun v => by rw [restored]; exact h.clear v }

end Minimizing

theorem foldlM_minimizing {x : Explainer} {before : DenseMap Var Seen} {others rest : List Lit}
    {numVars : Nat} {mask : LevelMask} {m m' : Minimizer} (h : Minimizing x before others rest m)
    (result : rest.foldlM (Minimizer.stepRecursive x numVars mask) m = .ok m') :
    Minimizing x before others [] m' := by
  induction rest generalizing m with
  | nil =>
    cases result
    exact h
  | cons l rest ih =>
    rw [List.foldlM_cons] at result
    cases step : m.stepRecursive x numVars mask l with
    | error fault =>
      rw [step] at result
      cases result
    | ok between =>
      rw [step] at result
      exact ih (h.stepRecursive step) result

/-- What minimization keeps explains all that is marked in the end. -/
theorem Minimizer.run_minimizing {x : Explainer} {mode numVars : Nat} {seen : DenseMap Var Seen}
    {others : List Lit} {m : Minimizer} (source : ∀ v, seen.get v = .source → ∃ q ∈ others, q.var = v)
    (clear : ∀ v, seen.get v ≠ .resolved) (result : run x mode numVars seen others = .ok m) :
    Minimizing x seen others [] m := by
  have start : Minimizing x seen others others { seen } :=
    { explained := fun v mark => .inl (source v mark)
      sublist := List.Sublist.refl _
      keeps := fun _ => id
      listed := fun v mark => .inl (source v mark)
      clear }
  unfold run at result
  split at result
  next =>
    cases result
    have loop (rest : List Lit) (m : Minimizer) (h : Minimizing x seen others rest m) :
        Minimizing x seen others [] (rest.foldl (stepLocal x) m) := by
      induction rest generalizing m with
      | nil => exact h
      | cons l rest ih => exact ih _ h.stepLocal
    exact loop others _ start
  next => exact foldlM_minimizing start result
  next =>
    cases result
    exact
      { explained := fun v mark => .inl (by simpa using source v mark)
        sublist := by simp
        keeps := fun _ => id
        listed := fun v mark => .inl (source v mark)
        clear }

/-- An assignment that satisfies what is stored and falsifies the clause makes all that is explained
true, along the trail. -/
theorem Explained.satisfied {aside : List ClauseId} {e : Engine} (sound : e.Sound aside)
    {seen : DenseMap Var Seen} {base : List Lit}
    (h : Explained { trail := e.trail, arena := e.arena } seen base) {σ : Valuation}
    (respected : e.Respected σ) (opposites : ∀ q ∈ base, q.neg ∈ e.trail.lits)
    (fails : ∀ q ∈ base, ¬ σ.satisfiesLit q) :
    ∀ l ∈ e.trail.lits, seen.get l.var = .source → σ.satisfiesLit l := by
  have upTo : ∀ (i : Nat) (l : Lit), e.trail.lits[i]? = some l → seen.get l.var = .source →
      σ.satisfiesLit l := by
    intro i
    induction i using Nat.strongRecOn with
    | ind i ih =>
      intro l at_i mark
      rcases h l.var mark with ⟨q, member, same⟩ | ⟨lits, causes, known⟩
      · obtain ⟨j, at_j⟩ := Array.mem_iff_getElem?.mp (opposites q member)
        rw [sound.trail.distinct at_i at_j same.symm, at_j] at at_i
        rw [← Option.some.inj at_i, Valuation.satisfiesLit_neg]
        exact fails q member
      · obtain ⟨before, implied⟩ := sound.causes at_i causes
        refine implied σ respected.toUpheld fun q member => ?_
        rw [← Valuation.satisfiesLit_neg]
        obtain ⟨j, below, at_j⟩ := before q member
        rcases known q member with zero | marked
        · refine respected.facts _ (sound.trail.mem_facts_iff_levelOf.mpr ⟨?_, zero⟩)
          exact Array.mem_of_getElem? at_j
        · exact ih j below q.neg at_j marked
  intro l member mark
  obtain ⟨i, at_i⟩ := Array.mem_iff_getElem?.mp member
  exact upTo i l at_i mark

end Cdcl
