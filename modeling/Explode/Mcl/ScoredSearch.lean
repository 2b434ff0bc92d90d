import Explode.Mcl.Search

/-!
# The search with scores

With the priority queue a signature that was seen before gives a new state all
the same, with the id that is due to the next new signature.
-/

namespace Explode.Mcl

open ChoiceTree Machine EnumRandom ModelChecker

variable {St Sig Data : Type*} [DecidableEq Sig] {h : TestHarness St Sig Data} {opt : Options}
  {mc mc' : ModelChecker St Sig Data}

/-- In a run that is not ended by a limit, whose transitions can be run again and lead to new
signatures. -/
theorem scored_search_ends (hContract : h.Contract) (hQueue : opt.queue = .priority)
    (hSim : opt.simulation = false)
    (hFinite : {sig | ∃ st, Worklist.Reachable (successors h) h.init st ∧ h.getSig st = sig}.Finite)
    (hExit : ∀ mc, Reaches (step h opt) (modelCheck h opt) mc → mc.pc ≠ .exited)
    (hRestorable : ∀ mc, Reaches (step h opt) (modelCheck h opt) mc → mc.pc = .fresh →
      NextRestorable h mc)
    (hUnseen : ∀ mc, Reaches (step h opt) (modelCheck h opt) mc → mc.pc = .fresh →
      NextUnseen h mc) :
    (∃ mc, Reaches (step h opt) (modelCheck h opt) mc ∧ mc.pc = .done ∧ mc.q = [] ∧
      ∀ st, Worklist.Reachable (successors h) h.init st →
        h.getSig st ∈ mc.popped.map State.sig) ∧
      ∀ mc, Reaches (step h opt) (modelCheck h opt) mc →
        ((mc.popped ++ mc.q).map State.id).Nodup := by
  have hRuns := runs_step hContract hSim hExit (fun mc hReach _ => hRestorable mc hReach)
    fun _ => hUnseen
  refine ⟨?_, fun mc hReach => ?_⟩
  · obtain ⟨mc, hReach, hDone, hq, hRun⟩ := hRuns.ends hFinite
    have hSound :=
      (Worklist.sound_start (discipline St opt) h.getSig (successors h) h.init).steps hRun
    have hEmpty : (searchOf h mc).queue = [] := by rw [searchOf, hq]; rfl
    refine ⟨mc, hReach, hDone, hq, fun st hSt => ?_⟩
    rw [(hRuns.searching hReach).map_sig_popped]
    exact List.mem_map_of_mem
      ((hSound.covers hEmpty (fun hSkips => absurd hQueue hSkips) st).mp hSt)
  · exact (hRuns.searching hReach).ids.nodup_iff.mpr List.nodup_range

def scoredOptions : Options := { bfsOptions with queue := .priority }

def oneStep : TestHarness Nat Nat Nat where
  init := 0
  runOneTransition st :=
    ⟨.choose 2 fun c => .done (if st = 0 ∧ c = 1 then ⟨.exit, 1, 5⟩ else ⟨.skip, st, 0⟩),
      by decide, fun _ _ => trivial⟩
  getSig := id
  shouldCheckpoint _ _ := false
  checkpoint := id
  restore data _ := data
  hook _ st := (.exit, st)
  onError := id

theorem oneStep_finite : {sig | ∃ st, Worklist.Reachable (successors oneStep) oneStep.init st ∧
    oneStep.getSig st = sig}.Finite := by
  refine (Set.toFinite {0, 1}).subset ?_
  rintro _ ⟨st, hReach, rfl⟩
  induction hReach with
  | init => exact .inl rfl
  | @step x y _ hy _ =>
    have hSucc : successors oneStep x = if x = 0 then [1] else [] := by
      by_cases hx : x = 0 <;>
        simp [successors, oneStep, completed, DecisionTree.paths, DecisionTree.prolong,
          completion, hx, List.range_succ]
    rw [hSucc] at hy
    split_ifs at hy with hx
    · exact .inr (List.mem_singleton.mp hy)
    · cases hy

theorem scored_search_ends_oneStep :
    ∃ mc, Reaches (step oneStep scoredOptions) (modelCheck oneStep scoredOptions) mc ∧
      mc.pc = .done ∧ 1 ∈ mc.popped.map State.sig := by
  have hEnd : ∃ mc ∈ steps (step oneStep scoredOptions) 13 (modelCheck oneStep scoredOptions),
      mc.pc = .done := by decide +kernel
  have hAll : ∀ k ≤ 13, ∀ mc ∈ steps (step oneStep scoredOptions) k
      (modelCheck oneStep scoredOptions), mc.pc ≠ .exited ∧
        (mc.pc = .fresh → NextRestorable oneStep mc ∧ NextUnseen oneStep mc) := by decide +kernel
  have hRun : ∀ mc, Reaches (step oneStep scoredOptions) (modelCheck oneStep scoredOptions) mc →
      mc.pc ≠ .exited ∧ (mc.pc = .fresh → NextRestorable oneStep mc ∧ NextUnseen oneStep mc) :=
    fun mc hReach => hReach.of_all (fun b (hDone : b.pc = .done) => by rw [step, body, hDone])
      hEnd hAll
  obtain ⟨⟨mc, hReach, hDone, _, hSigs⟩, _⟩ := scored_search_ends
    ⟨fun _ _ _ => rfl, fun _ => rfl, fun _ => rfl⟩ rfl rfl oneStep_finite
    (fun mc hm => (hRun mc hm).1)
    (fun mc hm hPc => ((hRun mc hm).2 hPc).1) (fun mc hm hPc => ((hRun mc hm).2 hPc).2)
  exact ⟨mc, hReach, hDone, hSigs 1 (.step .init (by decide))⟩

structure Unfinished (h : TestHarness St Sig Data) (opt : Options)
    (mc : ModelChecker St Sig Data) : Prop where
  inv : Inv h opt mc
  under : CkptsUnder mc
  queue : mc.pc = .top → mc.q ≠ []
  pc : mc.pc ≠ .done ∧ mc.pc ≠ .exited

theorem Progress.under {s : State St Sig} {tr : Option (Event St)}
    (hProgress : Progress h opt mc mc' s tr) (hCkpt : ∀ n st, h.shouldCheckpoint n st = false)
    (hUnder : CkptsUnder mc) : CkptsUnder mc' := by
  cases hProgress with
  | unchanged _ hCkpts hVisited _ _ => exact hUnder.congr hCkpts hVisited
  | @born t s' m m' hBorn hCkpts₀ hVisited₀ _ _ _ _ _ hCkpts hVisited _ =>
    intro id ckpt hId
    rcases hBorn.start with ⟨hTrue, _⟩ | ⟨_, _, _, hSame⟩
    · rw [hCkpt] at hTrue
      cases hTrue
    · rw [hCkpts, hSame, hCkpts₀] at hId
      have hLt := hUnder id ckpt hId
      have hLe := hBorn.numStates.1
      simp only [ModelChecker.numStates, hVisited₀, hVisited] at hLt hLe ⊢
      omega

theorem Unfinished.step (hWell : h.WellBehaved) (hQueue : opt.queue = .priority)
    (hSim : opt.simulation = false) (hMax : opt.maxState ≤ 0)
    (hCkpt : ∀ n st, h.shouldCheckpoint n st = false) (hMore : Unfinished h opt mc)
    (hStep : mc.step h opt = some mc') : Unfinished h opt mc' := by
  have hContract := hWell.contract
  have hKeeps := keepsStates_of_next hContract hMore.inv hMore.under
    (nextRestorable_of_branching hContract hWell.branching hMore.inv) hStep
  have hInv := inv_step hContract hMore.inv hStep hKeeps
  have hExited := step_ne_exited hContract hWell.not_buggy hMax hMore.inv hStep hMore.pc.2
  by_cases hPc : mc.pc = .fresh
  · obtain ⟨s, st, hSetting, hGen⟩ := hMore.inv.setting_of_fresh hPc
    cases hSetting with
    | fresh _ hMode hCurr hRest hTest _ =>
    obtain hEnds | ⟨m, rfl, _⟩ := step_fresh hPc hMode hCurr hTest hGen hStep
    · cases hEnds with
      | again hIn _ _ =>
        exact ⟨hInv, (hIn.progress.congr rfl rfl rfl rfl).under hCkpt hMore.under, by simp, by simp⟩
      | @expanded m tr cur g hIn _ hNone _ =>
        refine ⟨hInv, (hIn.progress.congr rfl rfl rfl rfl).under hCkpt hMore.under, fun _ => ?_,
          by simp [hSim]⟩
        -- the transition completed, and its state was put on the queue
        have hGen' := hIn.gen
        cases hIn.progress with
        | unchanged _ _ _ _ hOld =>
          cases tr with
          | none => exact absurd (by rw [hWell.hooks]) (hNone rfl)
          | some t => exact absurd hQueue (hOld t rfl (hWell.exits t hGen'.1)).2
        | born _ _ _ _ _ _ _ _ _ _ hq =>
          intro hEmpty
          have hLength := congrArg List.length (hq.symm.trans hEmpty)
          rw [length_push] at hLength
          exact Nat.succ_ne_zero _ hLength
    · exact absurd rfl hExited
  · have hBetween := step_between hContract hMore.inv hPc hStep
    obtain ⟨hCkpts, hVisited, _⟩ := hBetween.tables
    have hUnder := hMore.under.congr hCkpts hVisited
    cases hBetween with
    | stop hTop hq _ => exact absurd hq (hMore.queue hTop)
    | pop _ _ hEq => exact ⟨hInv, hUnder, by simp [hEq], by simp [hEq]⟩
    | restoring hPc' _ =>
      rcases hPc' with hPc' | hPc' <;> exact ⟨hInv, hUnder, by simp [hPc'], by simp [hPc']⟩
    | stopped hStop _ =>
      rcases hStop with hStop | hStop
      · exact absurd hStop hMore.pc.1
      · exact absurd hStop hMore.pc.2

theorem scored_search_goes_on (hWell : h.WellBehaved) (hQueue : opt.queue = .priority)
    (hSim : opt.simulation = false) (hMax : opt.maxState ≤ 0)
    (hCkpt : ∀ n st, h.shouldCheckpoint n st = false)
    (hReach : Reaches (step h opt) (modelCheck h opt) mc) : mc.pc ≠ .done := by
  obtain ⟨n, hn⟩ := hReach
  have hStart : Unfinished h opt (modelCheck h opt) :=
    ⟨inv_modelCheck h opt, (searching_modelCheck h opt).under,
      fun _ => by rw [modelCheck_q]; exact List.cons_ne_nil _ _,
      (by decide : Pc.top ≠ .done ∧ Pc.top ≠ .exited)⟩
  have hStep : ∀ a b, Unfinished h opt a → step h opt a = some b → True → Unfinished h opt b :=
    fun a b ha hab _ => ha.step hWell hQueue hSim hMax hCkpt hab
  exact (steps_invariant hStep hStart n (fun _ _ _ _ _ _ => trivial) hn).pc.1

/-- Two states that were made for one signature share an id, and the search goes on forever. -/
theorem scored_search_repeats_ids :
    binarySteps.WellBehaved ∧
      {sig | ∃ st, Reachable binarySteps st ∧ binarySteps.getSig st = sig}.Finite ∧
      ((steps (step binarySteps scoredOptions) 3 (modelCheck binarySteps scoredOptions)).map
        fun mc => (mc.popped ++ mc.q).map State.id) = some [0, 1] ∧
      ((steps (step binarySteps scoredOptions) 5 (modelCheck binarySteps scoredOptions)).map
        fun mc => (mc.popped ++ mc.q).map State.id) = some [0, 1, 1] ∧
      ∀ mc, Reaches (step binarySteps scoredOptions) (modelCheck binarySteps scoredOptions) mc →
        mc.pc ≠ .done :=
  ⟨binarySteps_wellBehaved, binarySteps_finite, by decide +kernel, by decide +kernel,
    fun _ hReach => scored_search_goes_on binarySteps_wellBehaved rfl rfl (by decide)
      (fun _ _ => rfl) hReach⟩

end Explode.Mcl
