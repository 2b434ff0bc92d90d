import Explode.Mcl.SelfCheckpoint

/-!
# Restarts on bugs and aborts

In persistent mode a bug or an abort takes a checkpoint of the checker and has
the machine rebooted, and a new run goes on from the checkpoint.
-/

namespace Explode.Mcl

open ChoiceTree Machine EnumRandom ModelChecker

variable {St Sig Data : Type*} [DecidableEq Sig]

/-- How a run stops before its end: the program exits, or it restarts. -/
inductive Stop (σ : Type*)
  | exit (s : σ)
  | restart (s : σ)

namespace ModelChecker

section
variable (h : TestHarness St Sig Data) (opt : Options) (mc : ModelChecker St Sig Data)

/-- `run_test` of the search in persistent mode. `process_test_return` ends with the restart. -/
def persistentTest (callback : Callback) :
    Except (Halt (Stop (ModelChecker St Sig Data))) (TestRet × ModelChecker St Sig Data) :=
  match mc.runTest h opt callback with
  | .error .fail => .error .fail
  | .error (.exit next) => .error (.exit (.exit next))
  | .ok (ret, next) =>
    if ret = .bug ∨ ret = .abort then .error (.exit (.restart next)) else .ok (ret, next)

def persistentFresh : Except (Halt (Stop (ModelChecker St Sig Data))) (ModelChecker St Sig Data) :=
  mc.roundBy opt (persistentTest h opt)

/-- A new checker with what `self_restore` finds in the file, its states at new addresses. The
histories are kept, so that the harness may still answer anything. -/
def resumed : ModelChecker St Sig Data :=
  { create h .modelCheck
      (if opt.simulation then .unix ⟨[], opt.source, 0⟩ else .enum ⟨[], [], 0⟩) with
    q := mc.q.mapIdx fun i s => { s with addr := opt.address (mc.allocs + i) }
    ckpts := mc.ckpts
    visited := mc.visited
    mode := mc.mode
    bugs := mc.bugs
    ckptCalls := mc.ckptCalls
    allocs := mc.allocs + mc.q.length
    popped := mc.popped
    log := mc.log
    reports := mc.reports }

/-- One step of the runs in persistent mode. A state is re-created without restarts. -/
def persistentStep : Option (ModelChecker St Sig Data) :=
  match mc.pc with
  | .fresh =>
    match mc.persistentFresh h opt with
    | .ok next => some next
    | .error .fail => none
    | .error (.exit (.exit next)) => some { next with pc := .exited }
    | .error (.exit (.restart next)) => some (next.resumed h opt)
  | _ => mc.step h opt

end

end ModelChecker

/-- If the round that is run next ends in a restart, there is no choice left for the state. -/
def RestartsLast (h : TestHarness St Sig Data) (opt : Options) (mc : ModelChecker St Sig Data) :
    Prop :=
  ∀ m, mc.persistentFresh h opt = .error (.exit (.restart m)) →
    ∃ g, m.rand.repeat = some (false, g)

instance (h : TestHarness St Sig Data) (opt : Options) (mc : ModelChecker St Sig Data) :
    Decidable (RestartsLast h opt mc) :=
  match hCase : mc.persistentFresh h opt with
  | .error (.exit (.restart m)) =>
    decidable_of_iff (m.rand.repeat.map Prod.fst = some false) (by
      simp [RestartsLast, hCase, Option.map_eq_some_iff])
  | .error (.exit (.exit m)) => .isTrue fun m h => by cases hCase.symm.trans h
  | .error .fail => .isTrue fun m h => by cases hCase.symm.trans h
  | .ok m => .isTrue fun m h => by cases hCase.symm.trans h

variable {h : TestHarness St Sig Data} {opt : Options} {mc mc₀ mc' m : ModelChecker St Sig Data}
  {s : State St Sig} {st cur : St} {tr : Option (Event St)}

theorem ends_persistentTest {P : TestRet × ModelChecker St Sig Data → Prop}
    {Q : ModelChecker St Sig Data → Prop} {F : Prop} {callback : Callback}
    (hEnds : Ends P Q F (mc.runTest h opt callback)) :
    Ends P (fun stop => match stop with
      | .exit m => Q m
      | .restart m => ∃ ret, P (ret, m) ∧ (ret = .bug ∨ ret = .abort)) F
      (mc.persistentTest h opt callback) := by
  unfold persistentTest
  split
  · rename_i hRun
    rwa [hRun] at hEnds
  · rename_i hRun
    rwa [hRun] at hEnds
  · rename_i ret next hRun
    rw [hRun] at hEnds
    split
    · rename_i hStop
      exact ⟨ret, hEnds, hStop⟩
    · exact hEnds

inductive StoppedRound (h : TestHarness St Sig Data) (opt : Options)
    (mc₀ : ModelChecker St Sig Data) (s : State St Sig) (st : St) :
    Stop (ModelChecker St Sig Data) → Prop
  | exit {m : ModelChecker St Sig Data} : StoppedRound h opt mc₀ s st (.exit m)
  | restart {m : ModelChecker St Sig Data} {tr : Option (Event St)} {cur : St}
      (hIn : InRound h opt mc₀ m s st tr cur)
      (hNone : tr = none → (h.hook .beforeNewTransition st).1 ≠ .exit) :
      StoppedRound h opt mc₀ s st (.restart m)

theorem ends_persistentFresh (hMode : mc₀.mode = .modelCheck) (hCurr : mc₀.curr = some s)
    (hTest : mc₀.test = st) (hGen : RoundGen h opt st mc₀.rand) :
    Ends (RoundDone h opt mc₀ s st) (StoppedRound h opt mc₀ s st) (Untraced h opt mc₀ s st)
      (mc₀.persistentFresh h opt) := by
  refine ends_roundBy (fun mc callback hIn hEnds => ?_) hMode hCurr hTest hGen
  refine (ends_persistentTest hEnds).imp (fun _ => id) (fun stop hStop => ?_) id
  cases stop with
  | exit m => exact .exit
  | restart m =>
    obtain ⟨ret, hRet, hStops⟩ := hStop
    obtain hExit | ⟨tr, cur, hIn, hNone⟩ := hIn (ret, m) hRet
    · obtain rfl : ret = .exit := hExit
      simp at hStops
    · exact .restart hIn hNone

omit [DecidableEq Sig] in
theorem relocated_resumed (h : TestHarness St Sig Data) (opt : Options)
    (mc : ModelChecker St Sig Data) : Relocated mc (mc.resumed h opt) := by
  refine ⟨?_, rfl, rfl, rfl⟩
  change (mc.q.mapIdx fun i s => { s with addr := opt.address (mc.allocs + i) }).map
    State.placeless = mc.q.map State.placeless
  exact List.ext_getElem (by simp) fun i _ _ => by simp [State.placeless]

theorem inv_resumed (hSim : opt.simulation = false) (hMode : m.mode = .modelCheck)
    (hKept : Kept h opt m s st) : Inv h opt (m.resumed h opt) where
  located := by
    refine .top rfl hMode fun st => ?_
    have hRand : (m.resumed h opt).rand.reset = .enum (ofStack [] (-1)) := by
      simp [resumed, hSim, create, Random.reset, EnumRandom.reset, ofStack, ceilsOf, choicesOf]
    rw [hRand]
    exact ⟨.enum hSim (DecisionTree.Fits.nil _), fun hNe => absurd rfl hNe⟩
  queued := by
    intro _ s₁ hs₁
    obtain ⟨i, hi, rfl⟩ := List.mem_mapIdx.mp hs₁
    obtain ⟨st₁, pre, evs, base, hTracked⟩ := hKept.queued hSim m.q[i] (List.getElem_mem hi)
    obtain ⟨hBased, hEvs, hPath, hTrace, hSig, hSeen, hDistinct, hBranching⟩ := hTracked
    exact ⟨st₁, pre, evs, base, hBased, hEvs, hPath, hTrace, hSig, hSeen, hDistinct, hBranching⟩
  below := hKept.below
  reports := hKept.reports

theorem runs_persistentStep (hContract : h.Contract) (hSim : opt.simulation = false)
    (hExit : ∀ mc, Reaches (persistentStep h opt) (modelCheck h opt) mc → mc.pc ≠ .exited)
    (hRestorable : ∀ mc, Reaches (persistentStep h opt) (modelCheck h opt) mc → Inv h opt mc →
      mc.pc = .fresh → NextRestorable h mc)
    (hUnseen : opt.queue = .priority → ∀ mc, Reaches (persistentStep h opt) (modelCheck h opt) mc →
      mc.pc = .fresh → NextUnseen h mc)
    (hLast : ∀ mc, Reaches (persistentStep h opt) (modelCheck h opt) mc → mc.pc = .fresh →
      RestartsLast h opt mc) : Runs h opt (persistentStep h opt) where
  simulation := hSim
  contract := hContract
  other mc hPc := by
    unfold persistentStep
    split
    · exact absurd ‹_› hPc
    · rfl
  unseen := hUnseen
  round := by
    intro mc s st hReach hSearching hSetting hGen
    cases hSetting with
    | fresh hPc hMode hCurr hRest hTest _ =>
    have hEnds := ends_persistentFresh hMode hCurr hTest hGen
    have hKept : ∀ {m tr cur}, InRound h opt mc m s st tr cur → Kept h opt m s st :=
      fun hIn => hIn.stays hContract hSearching.inv hRest
        (hIn.keepsStates hContract hTest hSearching.under
          (hRestorable mc hReach hSearching.inv hPc))
    cases hCase : mc.persistentFresh h opt with
    | ok mc' =>
      rw [hCase] at hEnds
      obtain ⟨tr, g, hRoundEnds⟩ := RoundDone.ends hContract hSim hKept hEnds
      exact ⟨mc', tr, g, by rw [persistentStep, hPc, hCase], hRoundEnds⟩
    | error e =>
      rw [hCase] at hEnds
      cases e with
      | fail =>
        obtain ⟨m, tr, cur, hIn, hNone⟩ := hEnds
        obtain ⟨_, _, _, hTracked⟩ := (hKept hIn).rest
        cases hTracked.fullTrace_eq.symm.trans hNone
      | exit stop =>
        cases hEnds with
        | @exit m =>
          have hStep : mc.persistentStep h opt = some { m with pc := .exited } := by
            rw [persistentStep, hPc, hCase]
          exact absurd rfl (hExit _ (hReach.trans (.head hStep (.refl _ _))))
        | @restart m tr cur hIn hNone =>
          have hStep : mc.persistentStep h opt = some (m.resumed h opt) := by
            rw [persistentStep, hPc, hCase]
          refine ⟨_, tr, m.rand, hStep, inv_resumed hSim hIn.mode (hKept hIn),
            ⟨m, hIn.progress, hIn.popped, relocated_resumed h opt m⟩, hIn.run_eq hContract,
            hIn.tried hNone, .inr ⟨rfl, hLast mc hReach hPc m hCase⟩⟩

section
variable {next next' : ModelChecker St Sig Data → Option (ModelChecker St Sig Data)}
  (hRuns : Runs h opt next)
include hRuns

theorem Runs.seen_next (hReach : Reaches next (modelCheck h opt) mc) (hNext : next mc = some mc')
    {sig : Sig} (hSeen : mc.seen sig) : mc'.seen sig := by
  have hSearching := hRuns.searching hReach
  by_cases hPc : mc.pc = .fresh
  · obtain ⟨s, st, tr, g, hEnds, hUnseen⟩ := hRuns.round_of_fresh hReach hSearching hPc hNext
    obtain ⟨m, hProgress, _, hSame⟩ := hEnds.progress
    rw [seen_congr hSame.visited]
    rcases hProgress.same_or_added hUnseen with ⟨_, _, hVisited, _⟩ | ⟨t, _, _, hAdded⟩
    · rwa [seen_congr hVisited]
    · rw [seen_iff, hAdded.visited, List.map_append]
      exact List.mem_append_left _ ((seen_iff _).mp hSeen)
  · rw [hRuns.other mc hPc] at hNext
    rwa [seen_congr (step_between hRuns.contract hSearching.inv hPc hNext).tables.2.1]

theorem Runs.seen_of_reaches (hReach : Reaches next (modelCheck h opt) mc)
    (hRest : Reaches next mc mc') {sig : Sig} (hSeen : mc.seen sig) : mc'.seen sig := by
  obtain ⟨n, hn⟩ := hRest
  have hStep : ∀ a b, Reaches next (modelCheck h opt) a ∧ a.seen sig → next a = some b → True →
      Reaches next (modelCheck h opt) b ∧ b.seen sig := fun a b ha hab _ =>
    ⟨ha.1.trans (.head hab (.refl _ _)), hRuns.seen_next ha.1 hab ha.2⟩
  exact (steps_invariant hStep ⟨hReach, hSeen⟩ n (fun _ _ _ _ _ _ => trivial) hn).2

theorem Runs.seen_iff_of_done (hReach : Reaches next (modelCheck h opt) mc) (hDone : mc.pc = .done)
    (sig : Sig) :
    (∃ m, Reaches next (modelCheck h opt) m ∧ m.seen sig) ↔ mc.seen sig := by
  refine ⟨?_, fun hSeen => ⟨mc, hReach, hSeen⟩⟩
  rintro ⟨m, hm, hSeen⟩
  have hFixed : next mc = some mc := by
    rw [hRuns.other mc (by simp [hDone]), step, body, hDone]
  exact hRuns.seen_of_reaches hm (hm.to_fixed hReach hFixed) hSeen

theorem Runs.seen_iff_seen (hRuns' : Runs h opt next')
    (hFinite : {sig | ∃ st, Worklist.Reachable (successors h) h.init st ∧ h.getSig st = sig}.Finite)
    (sig : Sig) :
    (∃ mc, Reaches next (modelCheck h opt) mc ∧ mc.seen sig) ↔
      ∃ mc, Reaches next' (modelCheck h opt) mc ∧ mc.seen sig := by
  obtain ⟨mc, hReach, hDone, hq, hRun⟩ := hRuns.ends hFinite
  obtain ⟨mc', hReach', hDone', hq', hRun'⟩ := hRuns'.ends hFinite
  have hEmpty : (searchOf h mc).queue = [] := by rw [searchOf, hq]; rfl
  have hEmpty' : (searchOf h mc').queue = [] := by rw [searchOf, hq']; rfl
  rw [hRuns.seen_iff_of_done hReach hDone, hRuns'.seen_iff_of_done hReach' hDone', seen_iff,
    seen_iff]
  change sig ∈ (searchOf h mc).found ↔ sig ∈ (searchOf h mc').found
  by_cases hQueue : opt.queue = .priority
  · -- nothing is skipped, so both have expanded what can be reached
    have hStart := Worklist.sound_start (discipline St opt) h.getSig (successors h) h.init
    rw [(hStart.steps hRun).mem_found_iff hEmpty fun hSkips => absurd hQueue hSkips,
      (hStart.steps hRun').mem_found_iff hEmpty' fun hSkips => absurd hQueue hSkips]
  · have hUnique : ∀ x q q' q'', (discipline St opt).inserts x q q' →
        (discipline St opt).inserts x q q'' → q' = q'' := by
      intro x q q' q'' hFirst hSecond
      cases hCase : opt.queue with
      | priority => exact absurd hCase hQueue
      | bfs =>
        simp only [discipline, hCase] at hFirst hSecond
        rw [hFirst, hSecond]
      | dfs =>
        simp only [discipline, hCase] at hFirst hSecond
        rw [hFirst, hSecond]
    rw [Worklist.ended_unique hUnique hRun hEmpty hRun' hEmpty']

end

/-- The runs in persistent mode visit together what the run without restarts visits, if no restart
loses a choice. -/
theorem restarts_lose_nothing (hContract : h.Contract) (hBranch : h.Branching)
    (hSim : opt.simulation = false)
    (hFinite : {sig | ∃ st, Worklist.Reachable (successors h) h.init st ∧ h.getSig st = sig}.Finite)
    (hRun : ∀ mc, Reaches (step h opt) (modelCheck h opt) mc → mc.pc ≠ .exited ∧
      (mc.pc = .fresh → opt.queue = .priority → NextUnseen h mc))
    (hPersistent : ∀ mc, Reaches (persistentStep h opt) (modelCheck h opt) mc → mc.pc ≠ .exited ∧
      (mc.pc = .fresh → RestartsLast h opt mc ∧ (opt.queue = .priority → NextUnseen h mc)))
    (sig : Sig) :
    (∃ mc, Reaches (persistentStep h opt) (modelCheck h opt) mc ∧ mc.seen sig) ↔
      ∃ mc, Reaches (step h opt) (modelCheck h opt) mc ∧ mc.seen sig := by
  have hRuns := runs_step hContract hSim (fun mc hm => (hRun mc hm).1)
    (fun _ _ hInv => nextRestorable_of_branching hContract hBranch hInv)
    fun hQueue mc hm hPc => (hRun mc hm).2 hPc hQueue
  have hRuns' := runs_persistentStep hContract hSim (fun mc hm => (hPersistent mc hm).1)
    (fun _ _ hInv => nextRestorable_of_branching hContract hBranch hInv)
    (fun hQueue mc hm hPc => ((hPersistent mc hm).2 hPc).2 hQueue)
    fun mc hm hPc => ((hPersistent mc hm).2 hPc).1
  exact hRuns'.seen_iff_seen hRuns hFinite sig

def abortsAt (bad : Nat) : TestHarness Nat Nat Nat where
  init := 0
  runOneTransition st :=
    ⟨.choose 2 fun c => .done (if st ≠ 0 then ⟨.skip, st, 0⟩ else
        if c = bad then ⟨.abort, st, 0⟩ else ⟨.exit, 1, 0⟩), by decide, fun _ _ => trivial⟩
  getSig := id
  shouldCheckpoint _ _ := false
  checkpoint := id
  restore data _ := data
  hook _ st := (.exit, st)
  onError := id

theorem abortsAt_contract (bad : Nat) : (abortsAt bad).Contract :=
  ⟨fun _ _ _ => rfl, fun _ => rfl, fun _ => rfl⟩

theorem abortsAt_branching (bad : Nat) : (abortsAt bad).Branching := by
  rintro ev ⟨_, score, hPath⟩
  exact DecisionTree.IsPath.recorded_ne_nil (by decide) hPath

theorem abortsAt_finite (bad : Nat) : {sig | ∃ st,
    Worklist.Reachable (successors (abortsAt bad)) (abortsAt bad).init st ∧
      (abortsAt bad).getSig st = sig}.Finite := by
  refine (Set.toFinite {0, 1}).subset ?_
  rintro _ ⟨st, hReach, rfl⟩
  cases hReach with
  | init => exact .inl rfl
  | step _ hy =>
    obtain ⟨_, ev, hEv, _, hExit, rfl⟩ := mem_successors_iff.mp hy
    obtain ⟨score, hPath⟩ := hEv.path
    generalize hOut : (⟨ev.ret, ev.after, score⟩ : Outcome Nat) = out at hPath
    generalize ev.calls = calls at hPath
    cases hPath with
    | choose hc hRest =>
      cases hRest
      split_ifs at hOut
      · cases hExit.symm.trans (congrArg Outcome.ret hOut)
      · cases hExit.symm.trans (congrArg Outcome.ret hOut)
      · exact .inr (congrArg Outcome.state hOut)

theorem step_of_done (hDone : mc.pc = .done) : mc.step h opt = some mc := by
  rw [step, body, hDone]

theorem persistentStep_of_done (hDone : mc.pc = .done) : mc.persistentStep h opt = some mc := by
  rw [persistentStep, hDone]
  exact step_of_done hDone

/-- The abort comes with the last choice. -/
theorem restarts_lose_nothing_abortsLast :
    ∃ mc, Reaches (persistentStep (abortsAt 1) bfsOptions) (modelCheck (abortsAt 1) bfsOptions) mc ∧
      mc.seen 1 := by
  have hEnd : ∃ mc ∈ steps (step (abortsAt 1) bfsOptions) 13 (modelCheck (abortsAt 1) bfsOptions),
      mc.pc = .done := by decide +kernel
  have hAll : ∀ k ≤ 13, ∀ mc ∈ steps (step (abortsAt 1) bfsOptions) k
      (modelCheck (abortsAt 1) bfsOptions), mc.pc ≠ .exited := by decide +kernel
  have hEnd' : ∃ mc ∈ steps (persistentStep (abortsAt 1) bfsOptions) 13
      (modelCheck (abortsAt 1) bfsOptions), mc.pc = .done := by decide +kernel
  have hAll' : ∀ k ≤ 13, ∀ mc ∈ steps (persistentStep (abortsAt 1) bfsOptions) k
      (modelCheck (abortsAt 1) bfsOptions), mc.pc ≠ .exited ∧
        (mc.pc = .fresh → RestartsLast (abortsAt 1) bfsOptions mc) := by decide +kernel
  have hSeen : ∃ mc ∈ steps (step (abortsAt 1) bfsOptions) 3 (modelCheck (abortsAt 1) bfsOptions),
      mc.seen 1 := by decide +kernel
  refine (restarts_lose_nothing (abortsAt_contract 1) (abortsAt_branching 1) rfl (abortsAt_finite 1)
    (fun mc hm => ⟨hm.of_all (fun _ => step_of_done) hEnd hAll, fun _ hQueue => by cases hQueue⟩)
    (fun mc hm => ?_) 1).mpr ?_
  · obtain ⟨hExit, hLast⟩ := hm.of_all (fun _ => persistentStep_of_done) hEnd' hAll'
    exact ⟨hExit, fun hPc => ⟨hLast hPc, fun hQueue => by cases hQueue⟩⟩
  · obtain ⟨mc, hRun, hMem⟩ := hSeen
    exact ⟨mc, ⟨3, hRun⟩, hMem⟩

/-- The abort comes before the choice that leads to the last state, and that choice is lost. -/
theorem restart_loses_choices :
    (abortsAt 0).Contract ∧ (abortsAt 0).Branching ∧
      (∀ mc, Reaches (persistentStep (abortsAt 0) bfsOptions)
        (modelCheck (abortsAt 0) bfsOptions) mc → mc.pc ≠ .exited ∧ ¬mc.seen 1) ∧
      (∀ mc, Reaches (step (abortsAt 0) bfsOptions) (modelCheck (abortsAt 0) bfsOptions) mc →
        mc.pc ≠ .exited) ∧
      ∃ mc, Reaches (step (abortsAt 0) bfsOptions) (modelCheck (abortsAt 0) bfsOptions) mc ∧
        mc.seen 1 := by
  have hEnd : ∃ mc ∈ steps (persistentStep (abortsAt 0) bfsOptions) 4
      (modelCheck (abortsAt 0) bfsOptions), mc.pc = .done := by decide +kernel
  have hAll : ∀ k ≤ 4, ∀ mc ∈ steps (persistentStep (abortsAt 0) bfsOptions) k
      (modelCheck (abortsAt 0) bfsOptions), mc.pc ≠ .exited ∧ ¬mc.seen 1 := by decide +kernel
  have hEnd' : ∃ mc ∈ steps (step (abortsAt 0) bfsOptions) 13 (modelCheck (abortsAt 0) bfsOptions),
      mc.pc = .done := by decide +kernel
  have hAll' : ∀ k ≤ 13, ∀ mc ∈ steps (step (abortsAt 0) bfsOptions) k
      (modelCheck (abortsAt 0) bfsOptions), mc.pc ≠ .exited := by decide +kernel
  have hSeen : ∃ mc ∈ steps (step (abortsAt 0) bfsOptions) 5 (modelCheck (abortsAt 0) bfsOptions),
      mc.seen 1 := by decide +kernel
  refine ⟨abortsAt_contract 0, abortsAt_branching 0,
    fun mc hm => hm.of_all (fun _ => persistentStep_of_done) hEnd hAll,
    fun mc hm => hm.of_all (fun _ => step_of_done) hEnd' hAll', ?_⟩
  obtain ⟨mc, hRun, hMem⟩ := hSeen
  exact ⟨mc, ⟨5, hRun⟩, hMem⟩

end Explode.Mcl
