import Cdcl.Proofs.Facts

/-!
# The options are fixed

A solver keeps the options that it was created with.

## Main results

- `Turn.opts`: no operation on an engine changes its options.
-/

namespace Cdcl

namespace Engine

variable {F : List (List Lit)} {before after learnts : List ClauseId} {b e f : Engine} {id : ClauseId}

/-! ### Learning -/

theorem opts_effects (effects : Resolution.Effects e f) : f.opts = e.opts := by
  induction effects with
  | refl => rfl
  | tail _ effect ih =>
    refine Eq.trans ?_ ih
    cases effect with
    | mark | meet => rfl
    | cite id => exact (rescored_bumpIfLearnt _ id).opts

theorem opts_analyze {c : Conflict} {learnt : Learnt} (result : e.analyze c = .ok (f, learnt)) :
    f.opts = e.opts := by
  obtain ⟨u, g, effects, ⟨seen, before, after, rfl⟩, rfl, -⟩ := analyze_effects result
  have kept := opts_effects effects
  exact kept

theorem opts_addLearnt {c : Learnt} (result : e.addLearnt c = .ok f) : f.opts = e.opts := by
  cases addLearnt_cases result with
  | empty => rfl
  | unit => rfl
  | @pair l other => exact (framed_addBinary e l other true).opts
  | stored _ stored =>
    obtain ⟨arena, -, rfl⟩ := storeLearnt_eq stored
    exact (rescored_bumpClause _ _).opts

theorem opts_handleConflict {c : Conflict} {handled : Handled}
    (result : e.handleConflict c = .ok (handled, f)) : f.opts = e.opts := by
  cases handleConflict_cases result with
  | full analyzed => exact (framed_cancelTo _ _).opts.trans (opts_analyze analyzed)
  | @learnt _ b d analyzed added =>
    have back := (framed_cancelTo _ d.level).opts.trans (opts_analyze analyzed)
    obtain ⟨policy, stats, noted, -⟩ := noteConflict_eq b.decayActivities d.lbd e.trail.size
    rw [noted]
    exact (opts_addLearnt added).trans back

/-! ### Upkeep -/

theorem opts_addFact {l : Lit} (sound : (e.assign l .decision).Sound [])
    (apart : (e.assign l .decision).FrozenApart) : (e.addFact l).opts = e.opts := by
  unfold addFact
  rcases run : (e.assign l .decision).propagate with ⟨f, _ | c⟩
  all_goals
    obtain ⟨-, -, grown, -⟩ := propagate_sound sound apart run
    exact grown.opts

theorem Quiet.opts_vivifyAll (quiet : e.Quiet F) (minSize : Nat) : (e.vivifyAll minSize).opts = e.opts := by
  obtain ⟨kept, g, vivified, opts⟩ :
      ∃ (kept : Array ClauseId) (g : Engine),
        e.vivifyAll minSize = { g with originals := kept } ∧ g.opts = e.opts := by
    refine quiet.vivifyAll_keeps (P := fun _ x => x.opts = e.opts) minSize
      (fun upkept old vivified => ?_) rfl
    rcases vivified.upkept_or_fact upkept with upkept | ⟨pairs, lits, g, l, shorter, list, since, -, rfl⟩
    · exact upkept.framed.opts
    · have assigned := shorter.assigned list
      exact (opts_addFact assigned.sound assigned.apart).trans
        ((steady_removeClause g _).opts.trans since.1.opts)
  rw [vivified]
  exact opts

theorem Settled.opts_addNormalized (settled : e.Settled F) (zero : e.trail.level = 0)
    {c lits : List Lit} (normalized : Solver.Normalized e.trail c lits)
    (bound : ∀ l ∈ c, l.var.index < e.numVars) (result : Solver.addNormalized e lits = .ok f) :
    f.opts = e.opts := by
  obtain ⟨pairs, faithful⟩ := settled.faithful
  cases added_of_addNormalized result with
  | empty => rfl
  | fact =>
    have assigned := faithful.toRegular.assignUnit zero normalized bound rfl
    exact opts_addFact assigned.sound assigned.apart
  | @pair a b => exact (steady_addBinary e a b false).opts
  | long size stored => exact (settled.addLong zero normalized bound size stored).2.1.opts

/-! ### Turns -/

theorem Chore.opts (chore : Chore e f) (h : e.Orderly) : f.opts = e.opts := by
  cases chore with
  | noted | dated => rfl
  | rebuild => rfl
  | setDecision => rfl
  | setPolarity => rfl
  | cancelTo _ level => exact (framed_cancelTo e level).opts
  | grown => rfl
  | propagate result =>
    obtain ⟨-, -, grown, -⟩ := propagateFrom_sound h.sound h.apart result
    exact grown.opts
  | simplifyAll quiet => exact (quiet.recalls.simplifyAll quiet.zero quiet.propagated).2.1.opts
  | reduce settled zero => exact (settled.reduce zero).2.1.opts
  | vivifyAll quiet minSize => exact quiet.opts_vivifyAll minSize
  | compact settled result =>
    obtain ⟨pairs, faithful⟩ := settled.faithful
    obtain ⟨new, -, -, -, framed, -⟩ := faithful.compact rfl (e.lists_ledger _) result
    exact framed.opts
  | add settled zero normalized bound result =>
    exact settled.opts_addNormalized zero normalized bound result

/-- No operation on an engine changes its options. -/
theorem Turn.opts (turn : Turn e f) (h : e.Orderly) : f.opts = e.opts := by
  cases turn with
  | chore chore => exact chore.opts h
  | openLevel => rfl
  | decide => exact (framed_decide e _).opts
  | exhausted result => rw [pickLit_eq result]
  | picked _ _ _ result =>
    rw [pickLit_eq result]
    exact (framed_decide _ _).opts
  | blame fails result =>
    obtain ⟨examined, -⟩ := analyzeFinal_spec h.sound ((h.sound.trail.isFalse_iff _).mp fails) result
    exact examined.opts
  | learn result => exact opts_handleConflict result

theorem Turns.opts (turns : e.Turns f) (h : e.Orderly) : f.opts = e.opts :=
  (turns.keeps (P := fun x => x.opts = e.opts) (fun turn orderly same => (turn.opts orderly).trans same)
    ⟨h, rfl⟩).2

end Engine

end Cdcl
