import Explode.Mcl.Exploration

/-!
# The search is exhaustive

For a harness that always completes its callbacks and whose signatures identify
its states, the search with the breadth-first or the depth-first queue ends, has
visited the reachable signatures and no others, and has expanded each once.
-/

namespace Explode.Mcl

open ChoiceTree Machine EnumRandom ModelChecker

variable {St Sig Data : Type*}

inductive Reachable (h : TestHarness St Sig Data) : St → Prop
  | init : Reachable h h.init
  | step {ev : Event St} (hBefore : Reachable h ev.before) (hEv : IsTransition h ev)
      (hExit : ev.ret = .exit) : Reachable h ev.after

/-- Checkpoints restore, hooks do nothing, no call fails, and signatures tell states apart. -/
structure TestHarness.WellBehaved (h : TestHarness St Sig Data) : Prop where
  restore_checkpoint : ∀ st st', h.Checkpointed st → h.restore (h.checkpoint st) st' = st
  hooks : ∀ callback st, h.hook callback st = (.exit, st)
  exits : ∀ ev, IsTransition h ev → ev.ret = .exit
  branching : h.Branching
  sig_injective : Function.Injective h.getSig

theorem TestHarness.WellBehaved.contract {h : TestHarness St Sig Data} (hWell : h.WellBehaved) :
    h.Contract where
  restore_checkpoint := hWell.restore_checkpoint
  beforeTransitions st := hWell.hooks _ st
  beforeNewTransition st := by rw [hWell.hooks]

theorem TestHarness.WellBehaved.not_buggy {h : TestHarness St Sig Data} (hWell : h.WellBehaved) :
    ¬h.Buggy := by
  rintro (⟨callback, st, hBug⟩ | ⟨ev, hEv, hBug⟩)
  · rw [hWell.hooks] at hBug
    cases hBug
  · rw [hWell.exits ev hEv] at hBug
    cases hBug

theorem TestHarness.WellBehaved.reachable_iff {h : TestHarness St Sig Data}
    (hWell : h.WellBehaved) {st : St} :
    Worklist.Reachable (successors h) h.init st ↔ Reachable h st := by
  constructor
  · intro hReach
    induction hReach with
    | init => exact .init
    | step _ hy ih =>
      obtain ⟨_, ev, hEv, rfl, hExit, rfl⟩ := mem_successors_iff.mp hy
      exact .step ih hEv hExit
  · intro hReach
    induction hReach with
    | init => exact .init
    | @step ev _ hEv hExit ih =>
      exact .step ih (mem_successors_iff.mpr ⟨by rw [hWell.hooks], ev, hEv, rfl, hExit, rfl⟩)

variable [DecidableEq Sig] {h : TestHarness St Sig Data} {opt : Options}
  {mc mc' : ModelChecker St Sig Data}

theorem step_ne_exited (hContract : h.Contract) (hBuggy : ¬h.Buggy) (hMax : opt.maxState ≤ 0)
    (hInv : Inv h opt mc) (hStep : mc.step h opt = some mc') (hPc : mc.pc ≠ .exited) :
    mc'.pc ≠ .exited := by
  by_cases hFresh : mc.pc = .fresh
  · obtain ⟨s, st, hSetting, hGen⟩ := hInv.setting_of_fresh hFresh
    cases hSetting with
    | fresh _ hMode hCurr _ hTest _ =>
    obtain hEnds | ⟨m, rfl, hEnds⟩ := step_fresh hFresh hMode hCurr hTest hGen hStep
    · cases hEnds with
      | again => simp
      | expanded => cases opt.simulation <;> simp
    · cases hEnds with
      | bug _ hBug => exact absurd hBug hBuggy
      | limit _ _ hLimit => omega
  · cases step_between hContract hInv hFresh hStep with
    | stop _ _ hEq => simp [hEq]
    | pop _ _ hEq => simp [hEq]
    | restoring hRestoring _ => rcases hRestoring with hPc' | hPc' <;> simp [hPc']
    | stopped _ hEq => exact hEq ▸ hPc

theorem TestHarness.WellBehaved.runs (hWell : h.WellBehaved) (hQueue : opt.queue ≠ .priority)
    (hMax : opt.maxState ≤ 0) (hSim : opt.simulation = false) : Runs h opt (step h opt) := by
  have hRun : ∀ mc, Reaches (step h opt) (modelCheck h opt) mc →
      Inv h opt mc ∧ mc.pc ≠ .exited := by
    rintro mc ⟨n, hn⟩
    have hStep : ∀ a b, Inv h opt a ∧ a.pc ≠ .exited → step h opt a = some b → True →
        Inv h opt b ∧ b.pc ≠ .exited := fun a b ha hab _ =>
      ⟨inv_step hWell.contract ha.1 hab
        (keepsStates_of_branching hWell.contract hQueue hWell.branching ha.1 hab),
        step_ne_exited hWell.contract hWell.not_buggy hMax ha.1 hab ha.2⟩
    exact steps_invariant hStep ⟨inv_modelCheck h opt, by simp [modelCheck, initState, takeCkpt,
      newState, create]⟩ n (fun _ _ _ _ _ _ => trivial) hn
  exact runs_step hWell.contract hSim (fun mc hReach => (hRun mc hReach).2)
    (fun _ _ hInv => nextRestorable_of_branching hWell.contract hWell.branching hInv)
    fun hPriority => absurd hPriority hQueue

/-- The search ends. The visited signatures are the reachable ones, and each was taken off the
queue exactly once. -/
theorem modelCheck_explores (hWell : h.WellBehaved)
    (hFinite : {sig | ∃ st, Reachable h st ∧ h.getSig st = sig}.Finite)
    (hQueue : opt.queue = .bfs ∨ opt.queue = .dfs) (hMax : opt.maxState ≤ 0)
    (hSim : opt.simulation = false) :
    ∃ mc, Reaches (step h opt) (modelCheck h opt) mc ∧ mc.pc = .done ∧
      (∀ sig, sig ∈ mc.visited.map Prod.fst ↔ ∃ st, Reachable h st ∧ h.getSig st = sig) ∧
      (mc.popped.map State.sig).Nodup ∧
      ∀ sig, sig ∈ mc.popped.map State.sig ↔ ∃ st, Reachable h st ∧ h.getSig st = sig := by
  have hNotPriority : opt.queue ≠ .priority := by
    rcases hQueue with hQueue | hQueue <;> simp [hQueue]
  have hRuns := hWell.runs hNotPriority hMax hSim
  simp only [← hWell.reachable_iff] at hFinite ⊢
  obtain ⟨mc, hReach, hDone, hq, hRun⟩ := hRuns.ends hFinite
  have hSound :=
    (Worklist.sound_start (discipline St opt) h.getSig (successors h) h.init).steps hRun
  have hEmpty : (searchOf h mc).queue = [] := by rw [searchOf, hq]; rfl
  have hCovers := hSound.covers hEmpty fun _ => hWell.sig_injective
  have hSigs := (hRuns.searching hReach).map_sig_popped
  have hPerm := hSound.perm
  rw [hEmpty, List.append_nil] at hPerm
  have hPopped : ∀ sig, sig ∈ mc.popped.map State.sig ↔
      ∃ st, Worklist.Reachable (successors h) h.init st ∧ h.getSig st = sig := by
    intro sig
    rw [hSigs, List.mem_map]
    exact exists_congr fun st => and_congr_left fun _ => (hCovers st).symm
  refine ⟨mc, hReach, hDone, fun sig => ?_, ?_, hPopped⟩
  · rw [← hPopped, hSigs]
    exact hPerm.mem_iff
  · rw [hSigs]
    exact hPerm.nodup_iff.mp hSound.nodup

theorem binarySteps_transition {ev : Event Nat} (hEv : IsTransition binarySteps ev) :
    ev.ret = .exit ∧ ev.after < 2 := by
  obtain ⟨score, hPath⟩ := hEv.path
  generalize hOut : (⟨ev.ret, ev.after, score⟩ : Outcome Nat) = out at hPath
  generalize ev.calls = calls at hPath
  cases hPath with
  | choose hc hRest =>
    cases hRest
    obtain ⟨hRet, hAfter, _⟩ := (Outcome.mk.injEq ..).mp hOut
    exact ⟨hRet, hAfter ▸ Nat.mod_lt _ Nat.two_pos⟩

theorem binarySteps_wellBehaved : binarySteps.WellBehaved :=
  ⟨binarySteps_contract.restore_checkpoint, fun _ _ => rfl,
    fun _ hEv => (binarySteps_transition hEv).1, binarySteps_branching, Function.injective_id⟩

theorem binarySteps_finite :
    {sig | ∃ st, Reachable binarySteps st ∧ binarySteps.getSig st = sig}.Finite := by
  refine (Set.toFinite {0, 1}).subset ?_
  rintro _ ⟨st, hReach, rfl⟩
  cases hReach with
  | init => exact .inl rfl
  | step _ hEv _ =>
    have hLt := (binarySteps_transition hEv).2
    simp only [Set.mem_insert_iff, Set.mem_singleton_iff, binarySteps, id_eq]
    omega

theorem modelCheck_explores_binarySteps :
    ∃ mc, Reaches (step binarySteps bfsOptions) (modelCheck binarySteps bfsOptions) mc ∧
      mc.pc = .done ∧ 0 ∈ mc.visited.map Prod.fst ∧ (mc.popped.map State.sig).Nodup := by
  obtain ⟨mc, hReach, hDone, hVisited, hNodup, _⟩ := modelCheck_explores binarySteps_wellBehaved
    binarySteps_finite (.inl rfl) (by decide : bfsOptions.maxState ≤ 0) rfl
  exact ⟨mc, hReach, hDone, (hVisited 0).mpr ⟨0, .init, rfl⟩, hNodup⟩

end Explode.Mcl
