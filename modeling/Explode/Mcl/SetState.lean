import Explode.Mcl.Invariant

/-!
# Restoring queued states

`set_state` restores a checkpoint and then replays one transition after the
other until the choices of the state are used up.
-/

namespace Explode.Mcl

open ChoiceTree Machine EnumRandom ModelChecker

variable {St Sig Data : Type*}

structure SameTables (mc mc' : ModelChecker St Sig Data) : Prop where
  q : mc'.q = mc.q
  ckpts : mc'.ckpts = mc.ckpts
  visited : mc'.visited = mc.visited
  curr : mc'.curr = mc.curr
  popped : mc'.popped = mc.popped
  reports : mc'.reports = mc.reports

theorem SameTables.trans {mc m mc' : ModelChecker St Sig Data} (hFirst : SameTables mc m)
    (hRest : SameTables m mc') : SameTables mc mc' where
  q := hRest.q.trans hFirst.q
  ckpts := hRest.ckpts.trans hFirst.ckpts
  visited := hRest.visited.trans hFirst.visited
  curr := hRest.curr.trans hFirst.curr
  popped := hRest.popped.trans hFirst.popped
  reports := hRest.reports.trans hFirst.reports

theorem SameTables.keepsStates {opt : Options} {mc mc' : ModelChecker St Sig Data}
    (hSame : SameTables mc mc') : KeepsStates opt mc mc' := by
  refine ⟨fun id ckpt hCkpt => by rwa [hSame.ckpts], fun s hPush => ?_⟩
  have hLength := congrArg List.length hPush
  rw [hSame.q, length_push] at hLength
  omega

variable [DecidableEq Sig] {h : TestHarness St Sig Data} {opt : Options}
  {mc mc₀ mc' m : ModelChecker St Sig Data} {s : State St Sig} {st cur : St}
  {tr : Option (Event St)}

theorem runTest_beforeTransitions (hContract : h.Contract) (opt : Options)
    (mc : ModelChecker St Sig Data) (hMode : mc.mode = .regenState) (hCurr : mc.curr = some s) :
    mc.runTest h opt .beforeTransitions =
      .ok (.exit, mc.called (hookEvent h .beforeTransitions mc.test)) := by
  have hRet : (hookEvent h .beforeTransitions mc.test).ret = .exit := by
    simp [hookEvent, hContract.beforeTransitions]
  rw [runTest_eq h opt mc (call_hook h mc (by decide)),
    process_regenState h opt (mc.called (hookEvent h .beforeTransitions mc.test)) hMode hCurr,
    regenReturn, if_pos hRet, if_neg]
  · rw [hRet]
    rfl
  · exact fun hContra => absurd hContra.1 (by simp [hookEvent])

theorem restoreCkpt_eq (hContract : h.Contract) {ckpt : Checkpoint Data} {base : St}
    {curr : State St Sig} (hCkpt : mc.ckpts s.start = some ckpt)
    (hData : ckpt.data = h.checkpoint base) (hAsked : h.Checkpointed base)
    (hCurr : mc.curr = some curr) :
    mc.restoreCkpt h opt s = .ok (mc.called (hookEvent h .beforeTransitions base)) := by
  have hTest : h.restore ckpt.data mc.test = base := by
    rw [hData, hContract.restore_checkpoint _ _ hAsked]
  unfold restoreCkpt
  rw [hCkpt]
  simp only [hTest]
  rw [runTest_beforeTransitions hContract opt (mc.regenerating base) rfl hCurr]
  rfl

theorem runTest_regen {ev : Event St} (hMode : mc.mode = .regenState) (hCurr : mc.curr = some s)
    (hEv : IsTransition h ev) (hExit : ev.ret = .exit) (hTest : mc.test = ev.before)
    {pre post : Trace}
    (hRand : mc.rand = .replay ⟨pre ++ choicesOf (recorded ev.calls) ++ post, pre.length⟩)
    (hSeen : mc.seen (h.getSig ev.after)) :
    ∃ score, mc.runTest h opt .runOneTransition = .ok (.exit, mc.ran ev
      (.replay ⟨pre ++ choicesOf (recorded ev.calls) ++ post,
        (pre ++ choicesOf (recorded ev.calls)).length⟩) score) := by
  obtain ⟨score, hRun⟩ := run_replay hEv pre post
  rw [← hTest, ← hRand] at hRun
  refine ⟨score, ?_⟩
  rw [runTest_eq h opt mc (call_transition hEv hTest.symm hRun),
    process_regenState h opt (mc.ran ev _ score) hMode hCurr, regenReturn, if_pos hExit, if_neg]
  · rw [hExit]
    rfl
  · rintro ⟨_, hNew⟩
    exact hNew hSeen

theorem step_restore (hContract : h.Contract) (hPc : mc.pc = .restore)
    (hMode : mc.mode = .modelCheck) (hCurr : mc.curr = some s) (hRest : Restorable h opt mc s st) :
    ∃ mc' n, mc.step h opt = some mc' ∧ SameTables mc mc' ∧ Setting h opt mc' s st mc.rand n := by
  obtain ⟨pre, evs, base, hTracked⟩ := hRest
  obtain ⟨ckpt, hCkpt, hData, hAsked⟩ := hTracked.based.data
  have hBody : mc.body h opt = mc.stepRestore h opt s := by rw [body, hPc, hCurr]
  have hAfter : (hookEvent h .beforeTransitions base).after = base := by
    simp [hookEvent, hContract.beforeTransitions]
  rw [step, hBody, stepRestore, restoreCkpt_eq hContract hCkpt hData hAsked hCurr]
  cases evs with
  | nil =>
    have hTrace : s.trace = [] := hTracked.trace
    have hEnd : base = st := hTracked.transitions.eq_of_nil
    simp only [Except.map, hTrace, if_true]
    refine ⟨_, 0, rfl, ⟨rfl, rfl, rfl, rfl, rfl, rfl⟩, ?_⟩
    exact .fresh rfl hMode hCurr ⟨pre, [], base, hTracked.congr rfl rfl⟩ (hAfter.trans hEnd) rfl
  | cons ev todo =>
    have hTrace : s.trace ≠ [] := by
      rw [hTracked.trace]
      exact traceOf_ne_nil (List.cons_ne_nil ev todo) hTracked.branching
    have hBefore : base = ev.before := hTracked.transitions.eq_before
    simp only [Except.map, hTrace, if_false]
    refine ⟨_, todo.length + 1, rfl, ⟨rfl, rfl, rfl, rfl, rfl, rfl⟩, ?_⟩
    exact .regen [] rfl rfl hCurr (hTracked.congr rfl rfl) (hAfter.trans hBefore) rfl rfl

theorem step_regen {g : Random} {n : Nat} (hSetting : Setting h opt mc s st g (n + 1)) :
    ∃ mc', mc.step h opt = some mc' ∧ SameTables mc mc' ∧ Setting h opt mc' s st g n := by
  cases hSetting with
  | @regen base pre todo ev ran hPc hMode hCurr hTracked hTest hRand hOld =>
  have hMem : ev ∈ ran ++ ev :: todo := by simp
  obtain ⟨hEv, hExit⟩ := hTracked.transitions.mem hMem
  have hSeen : mc.seen (h.getSig ev.after) := by
    refine hTracked.seen _ (List.mem_cons_of_mem _ (List.mem_map_of_mem ?_))
    rw [hTracked.path]
    exact List.mem_append_right _ hMem
  have hSplit : s.trace = traceOf ran ++ choicesOf (recorded ev.calls) ++ traceOf todo := by
    simp [hTracked.trace]
  rw [hSplit] at hRand
  obtain ⟨score, hRun⟩ := runTest_regen hMode hCurr hEv hExit hTest hRand hSeen
  have hBody : mc.body h opt = mc.stepRegen h opt := by rw [body, hPc]
  rw [step, hBody, stepRegen, hRun]
  simp only [Except.bind, ModelChecker.ran, repeat_replay]
  have hRest := hTracked.transitions.after
  cases todo with
  | nil =>
    have hEnd : ev.after = st := hRest.eq_of_nil
    refine ⟨_, rfl, ⟨rfl, rfl, rfl, rfl, rfl, rfl⟩, ?_⟩
    exact .fresh rfl rfl hCurr ⟨pre, _, base, hTracked.congr rfl rfl⟩ hEnd hOld
  | cons next rest =>
    have hNext : ev.after = next.before := hRest.eq_before
    have hLeft : traceOf (next :: rest) ≠ [] := by
      refine traceOf_ne_nil (List.cons_ne_nil next rest) fun ev' hMem' => ?_
      exact hTracked.branching ev' (by simp [List.mem_cons.mp hMem'])
    have hTrace : ran ++ ev :: next :: rest = (ran ++ [ev]) ++ next :: rest := by simp
    rw [hTrace] at hTracked
    simp only [hLeft, ne_eq, not_false_eq_true, decide_true]
    refine ⟨_, rfl, ⟨rfl, rfl, rfl, rfl, rfl, rfl⟩, ?_⟩
    refine .regen (ran ++ [ev]) hPc hMode hCurr (hTracked.congr rfl rfl) hNext ?_ hOld
    simp [hSplit]

theorem Inv.of_same (hInv : Inv h opt mc) (hSame : SameTables mc mc')
    {g : Random} {n : Nat} (hSetting : Setting h opt mc' s st g n) (hGen : RoundGen h opt st g) :
    Inv h opt mc' where
  located := .setting hSetting hGen
  queued := by
    have hNotTop : mc'.pc ≠ .top := by
      cases hSetting with
      | regen _ hPc => simp [hPc]
      | fresh hPc => simp [hPc]
    intro hCase s₁ hs₁
    rw [hSame.q] at hs₁
    obtain ⟨st₁, hRest⟩ := hInv.queued (.inr (hCase.resolve_left hNotTop)) s₁ hs₁
    exact ⟨st₁, hRest.congr hSame.ckpts hSame.visited⟩
  below := hInv.below.congr hSame.ckpts hSame.visited
  reports := by
    rw [hSame.reports]
    exact hInv.reports

theorem inv_step (hContract : h.Contract) (hInv : Inv h opt mc) (hStep : mc.step h opt = some mc')
    (hKeeps : KeepsStates opt mc mc') : Inv h opt mc' := by
  cases hInv.located with
  | top hPc hMode hRand =>
    rw [step, body, hPc] at hStep
    cases hq : mc.q with
    | nil =>
      simp only [hq, Option.some.injEq] at hStep
      subst hStep
      refine ⟨.stopped (.inl rfl), ?_, hInv.below, hInv.reports⟩
      exact fun _ s₁ hs₁ => absurd hs₁ List.not_mem_nil
    | cons s q =>
      simp only [hq, Option.some.injEq] at hStep
      subst hStep
      have hQueued := hInv.queued (.inl hPc)
      obtain ⟨st, hRest⟩ := hQueued s (by simp [hq])
      refine ⟨.restore rfl hMode rfl (hRest.congr rfl rfl) (hRand st), ?_, hInv.below, hInv.reports⟩
      intro _ s₁ hs₁
      obtain ⟨st₁, hRest₁⟩ := hQueued s₁ (by rw [hq]; exact List.mem_cons_of_mem _ hs₁)
      exact ⟨st₁, hRest₁.congr rfl rfl⟩
  | restore hPc hMode hCurr hRest hGen =>
    obtain ⟨mc₁, n, hStep₁, hSame, hSetting⟩ := step_restore hContract hPc hMode hCurr hRest
    rw [hStep₁] at hStep
    cases hStep
    exact hInv.of_same hSame hSetting hGen
  | @setting s st g n hSetting hGen =>
    cases n with
    | zero =>
      cases hSetting with
      | fresh hPc hMode hCurr hRest hTest hRand =>
        subst hRand
        exact inv_of_fresh hContract hInv hPc hMode hCurr hRest hTest hGen hStep hKeeps
    | succ n =>
      obtain ⟨mc₁, hStep₁, hSame, hSetting₁⟩ := step_regen hSetting
      rw [hStep₁] at hStep
      cases hStep
      exact hInv.of_same hSame hSetting₁ hGen
  | stopped hPc =>
    have hBody : mc.body h opt = .ok mc := by
      rcases hPc with hPc | hPc <;> rw [body, hPc]
    rw [step, hBody] at hStep
    cases hStep
    exact hInv

theorem push_nil {α β : Type*} (opt : Options) (s : State α β) : push opt s [] = [s] := by
  unfold push
  cases opt.queue <;> rfl

section
variable (h opt)

theorem modelCheck_q :
    (modelCheck h opt).q = [⟨0, 0, h.getSig h.init, [], 0, opt.address 0, []⟩] :=
  push_nil opt _

theorem modelCheck_visited : (modelCheck h opt).visited = [(h.getSig h.init, 0)] :=
  rfl

theorem modelCheck_ckpts (id : Nat) :
    (modelCheck h opt).ckpts id = if id = 0 then some ⟨h.checkpoint h.init, 0, []⟩ else none :=
  Function.update_apply _ _ _ _

theorem modelCheck_rand_reset : (modelCheck h opt).rand.reset =
      if opt.simulation then .unix ⟨[], opt.source, 0⟩ else .enum (ofStack [] (-1)) := by
  cases hSim : opt.simulation <;>
    simp [modelCheck, hSim, initState, takeCkpt, newState, create, Random.reset,
      UnixRandom.reset, EnumRandom.reset, ofStack, ceilsOf, choicesOf]

theorem roundGen_modelCheck (st : St) : RoundGen h opt st (modelCheck h opt).rand.reset := by
  rw [modelCheck_rand_reset]
  cases hSim : opt.simulation with
  | true => exact ⟨.unix hSim, fun hNe => absurd rfl hNe⟩
  | false => exact ⟨.enum hSim (DecisionTree.Fits.nil _), fun hNe => absurd rfl hNe⟩

theorem inv_modelCheck : Inv h opt (modelCheck h opt) where
  located := .top rfl rfl (roundGen_modelCheck h opt)
  queued := by
    intro _ s hs
    rw [modelCheck_q, List.mem_singleton] at hs
    subst hs
    refine ⟨h.init, [], [], h.init, .init (modelCheck_ckpts h opt 0) rfl rfl, .nil _, rfl, rfl, rfl,
      ?_, fun _ => by simp [sigsOf], by simp⟩
    intro sig hSig
    rw [Mcl.seen_iff, modelCheck_visited]
    exact hSig
  below := by
    intro id ckpt hCkpt
    have hId : id = 0 := by
      by_contra hNe
      rw [modelCheck_ckpts, if_neg hNe] at hCkpt
      cases hCkpt
    have hPos : 0 < (modelCheck h opt).numStates := by
      rw [ModelChecker.numStates, modelCheck_visited]
      exact Nat.one_pos
    rw [hId]
    exact ⟨Nat.zero_le _, fun _ => hPos⟩
  reports := fun _ _ r hr => by cases hr

inductive SetsState : ModelChecker St Sig Data → ModelChecker St Sig Data → Prop
  | last {mc mc' : ModelChecker St Sig Data} (hStep : mc.step h opt = some mc')
      (hPc : mc'.pc = .fresh) : SetsState mc mc'
  | more {mc m mc' : ModelChecker St Sig Data} (hStep : mc.step h opt = some m)
      (hPc : m.pc = .regen) (hRest : SetsState m mc') : SetsState mc mc'

end

theorem setsState_of_setting {g : Random} (n : Nat) (hSetting : Setting h opt mc s st g (n + 1)) :
    ∃ mc', SetsState h opt mc mc' ∧ SameTables mc mc' ∧ Setting h opt mc' s st g 0 := by
  induction n generalizing mc with
  | zero =>
    obtain ⟨mc₁, hStep, hSame, hSetting₁⟩ := step_regen hSetting
    have hFresh := hSetting₁
    cases hFresh with
    | fresh hPc => exact ⟨mc₁, .last hStep hPc, hSame, hSetting₁⟩
  | succ n ih =>
    obtain ⟨mc₁, hStep, hSame, hSetting₁⟩ := step_regen hSetting
    obtain ⟨mc₂, hSets, hSame₂, hFresh⟩ := ih hSetting₁
    cases hSetting₁ with
    | regen _ hPc => exact ⟨mc₂, .more hStep hPc hSets, hSame.trans hSame₂, hFresh⟩

theorem setsState_of_restorable (hContract : h.Contract) (hPc : mc.pc = .restore)
    (hMode : mc.mode = .modelCheck) (hCurr : mc.curr = some s) (hRest : Restorable h opt mc s st) :
    ∃ mc', SetsState h opt mc mc' ∧ SameTables mc mc' ∧ Setting h opt mc' s st mc.rand 0 := by
  obtain ⟨mc₁, n, hStep, hSame, hSetting⟩ := step_restore hContract hPc hMode hCurr hRest
  cases n with
  | zero =>
    have hFresh := hSetting
    cases hFresh with
    | fresh hPc => exact ⟨mc₁, .last hStep hPc, hSame, hSetting⟩
  | succ n =>
    obtain ⟨mc₂, hSets, hSame₂, hFresh⟩ := setsState_of_setting n hSetting
    cases hSetting with
    | regen _ hPc => exact ⟨mc₂, .more hStep hPc hSets, hSame.trans hSame₂, hFresh⟩

def RunKeepsStates (h : TestHarness St Sig Data) (opt : Options) (n : Nat) : Prop :=
  ∀ k < n, ∀ mc mc', steps (step h opt) k (modelCheck h opt) = some mc → mc.step h opt = some mc' →
    KeepsStates opt mc mc'

theorem inv_of_run (hContract : h.Contract) {n : Nat} (hKeeps : RunKeepsStates h opt n)
    (hRun : steps (step h opt) n (modelCheck h opt) = some mc) : Inv h opt mc :=
  steps_invariant (fun _ _ hInv hStep hOk => inv_step hContract hInv hStep hOk)
    (inv_modelCheck h opt) n hKeeps hRun

def TestHarness.Branching (h : TestHarness St Sig Data) : Prop :=
  ∀ ev, IsTransition h ev → recorded ev.calls ≠ []

/-- The transition that is run next makes a recorded choice, or its state gets a checkpoint. -/
def NextRestorable (h : TestHarness St Sig Data) (mc : ModelChecker St Sig Data) : Prop :=
  ∀ ev m, mc.call h .runOneTransition = some (ev, m) →
    h.shouldCheckpoint mc.ckptCalls ev.after = true ∨ recorded ev.calls ≠ []

instance (h : TestHarness St Sig Data) (mc : ModelChecker St Sig Data) :
    Decidable (NextRestorable h mc) :=
  decidable_of_iff (∀ r ∈ mc.call h .runOneTransition,
      h.shouldCheckpoint mc.ckptCalls r.1.after = true ∨ recorded r.1.calls ≠ [])
    ⟨fun hAll ev m hCall => hAll (ev, m) hCall, fun hNext r hCall => hNext r.1 r.2 hCall⟩

theorem Inv.setting_of_fresh (hInv : Inv h opt mc) (hPc : mc.pc = .fresh) :
    ∃ s st, Setting h opt mc s st mc.rand 0 ∧ RoundGen h opt st mc.rand := by
  cases hInv.located with
  | @setting s st g n hSetting hGen =>
    cases hSetting with
    | regen _ hRegen => cases hRegen.symm.trans hPc
    | fresh _ hMode hCurr hRest hTest hRand =>
      subst hRand
      exact ⟨s, st, .fresh hPc hMode hCurr hRest hTest rfl, hGen⟩
  | top hTop => cases hTop.symm.trans hPc
  | restore hRestore => cases hRestore.symm.trans hPc
  | stopped hStop => rcases hStop with hStop | hStop <;> cases hStop.symm.trans hPc

theorem nextRestorable_of_branching (hContract : h.Contract) (hBranch : h.Branching)
    (hInv : Inv h opt mc) (hPc : mc.pc = .fresh) : NextRestorable h mc := by
  intro ev m hCall
  obtain ⟨s, st, hSetting, hGen⟩ := hInv.setting_of_fresh hPc
  obtain ⟨t, g, score, hEv, hBefore, _, hRun⟩ := hGen.gen.run
  rw [hContract.beforeNewTransition] at hBefore hRun
  cases hSetting with
  | fresh _ _ _ _ hTest _ =>
    rw [← hTest] at hRun hBefore
    rw [call_transition hEv hBefore hRun] at hCall
    obtain rfl : t = ev := congrArg Prod.fst (Option.some.inj hCall)
    exact .inr (hBranch t hEv)

theorem InRound.call_eq {t : Event St} (hIn : InRound h opt mc₀ m s st (some t) cur)
    (hContract : h.Contract) (hTest : mc₀.test = st) :
    ∃ m', mc₀.call h .runOneTransition = some (t, m') := by
  obtain ⟨score, hRun⟩ := hIn.run_eq hContract
  obtain ⟨hEv, hBefore, _⟩ := hIn.transition hContract
  rw [← hTest] at hRun hBefore
  exact ⟨_, call_transition hEv hBefore hRun⟩

theorem InRound.keepsStates (hIn : InRound h opt mc₀ m s st tr cur) (hContract : h.Contract)
    (hTest : mc₀.test = st) (hUnder : CkptsUnder mc₀) (hNext : NextRestorable h mc₀) :
    KeepsStates opt mc₀ m := by
  refine ⟨hIn.progress.kept hUnder, fun s₁ hPush => ?_⟩
  have hLength := congrArg List.length hPush
  rw [length_push] at hLength
  cases hIn.progress with
  | unchanged hq _ _ _ _ =>
    rw [hq] at hLength
    omega
  | @born t s' m₁ m' hBorn hCkpts₀ hVisited₀ hCalls₀ hTest₁ _ _ _ _ _ hq =>
    obtain rfl : s' = s₁ := push_injective (hq.symm.trans hPush)
    obtain ⟨_, hCall⟩ := hIn.call_eq hContract hTest
    rcases hBorn.start with ⟨_, hStart, _, _⟩ | ⟨hAsked, _, _, _⟩
    · left
      rw [hStart, Option.eq_none_iff_forall_ne_some]
      intro ckpt hCkpt
      have hLt := hUnder _ ckpt hCkpt
      simp only [ModelChecker.numStates, hVisited₀] at hLt
      omega
    · right
      rw [hCalls₀, hTest₁] at hAsked
      refine ⟨t, ?_, (hNext t _ hCall).resolve_left (by simp [hAsked])⟩
      rw [hBorn.path, List.getLast?_concat]
      rfl

theorem LeftRound.keepsStates (hLeft : LeftRound h opt mc₀ s st m) (hContract : h.Contract)
    (hTest : mc₀.test = st) (hUnder : CkptsUnder mc₀) (hNext : NextRestorable h mc₀) :
    KeepsStates opt mc₀ m := by
  cases hLeft with
  | bug hIn _ => exact hIn.keepsStates hContract hTest hUnder hNext
  | limit hIn hq _ =>
    refine ⟨hIn.progress.kept hUnder, fun s₁ hPush => ?_⟩
    have hLength := congrArg List.length hPush
    rw [length_push, hq] at hLength
    omega

theorem keepsStates_of_next (hContract : h.Contract) (hInv : Inv h opt mc)
    (hUnder : CkptsUnder mc) (hNext : mc.pc = .fresh → NextRestorable h mc)
    (hStep : mc.step h opt = some mc') : KeepsStates opt mc mc' := by
  cases hInv.located with
  | top hPc hMode hRand =>
    rw [step, body, hPc] at hStep
    cases hq : mc.q with
    | nil =>
      simp only [hq, Option.some.injEq] at hStep
      subst hStep
      refine ⟨fun _ _ hCkpt => hCkpt, fun s hPush => ?_⟩
      have hLength := congrArg List.length hPush
      rw [hq, length_push] at hLength
      exact absurd hLength (Nat.succ_ne_zero _).symm
    | cons s q =>
      simp only [hq, Option.some.injEq] at hStep
      subst hStep
      refine ⟨fun _ _ hCkpt => hCkpt, fun s hPush => ?_⟩
      have hLength := congrArg List.length hPush
      rw [hq, length_push, List.length_cons] at hLength
      simp at hLength
      omega
  | restore hPc hMode hCurr hRest hGen =>
    obtain ⟨mc₁, n, hStep₁, hSame, hSetting⟩ := step_restore hContract hPc hMode hCurr hRest
    rw [hStep₁] at hStep
    cases hStep
    exact hSame.keepsStates
  | @setting s st g n hSetting hGen =>
    cases hSetting with
    | regen _ hPc hMode hCurr hTracked hTest hRand hOld =>
      obtain ⟨mc₁, hStep₁, hSame, _⟩ :=
        step_regen (.regen _ hPc hMode hCurr hTracked hTest hRand hOld)
      rw [hStep₁] at hStep
      cases hStep
      exact hSame.keepsStates
    | fresh hPc hMode hCurr hRest hTest hRand =>
      subst hRand
      obtain hEnds | ⟨m, rfl, hEnds⟩ := step_fresh hPc hMode hCurr hTest hGen hStep
      · cases hEnds with
        | again hIn _ _ =>
          obtain ⟨hKept, hOwn⟩ := hIn.keepsStates hContract hTest hUnder (hNext hPc)
          exact ⟨hKept, hOwn⟩
        | expanded hIn _ _ _ =>
          obtain ⟨hKept, hOwn⟩ := hIn.keepsStates hContract hTest hUnder (hNext hPc)
          exact ⟨hKept, hOwn⟩
      · obtain ⟨hKept, hOwn⟩ := hEnds.keepsStates hContract hTest hUnder (hNext hPc)
        exact ⟨hKept, hOwn⟩
  | stopped hPc =>
    have hBody : mc.body h opt = .ok mc := by
      rcases hPc with hPc | hPc <;> rw [body, hPc]
    rw [step, hBody] at hStep
    cases hStep
    exact SameTables.keepsStates ⟨rfl, rfl, rfl, rfl, rfl, rfl⟩

theorem keepsStates_of_branching (hContract : h.Contract) (hQueue : opt.queue ≠ .priority)
    (hBranch : h.Branching) (hInv : Inv h opt mc) (hStep : mc.step h opt = some mc') :
    KeepsStates opt mc mc' :=
  keepsStates_of_next hContract hInv (hInv.below.under hQueue)
    (nextRestorable_of_branching hContract hBranch hInv) hStep

theorem runKeepsStates_of_branching (hContract : h.Contract) (hQueue : opt.queue ≠ .priority)
    (hBranch : h.Branching) (n : Nat) : RunKeepsStates h opt n := by
  induction n with
  | zero => exact fun k hk => absurd hk (Nat.not_lt_zero k)
  | succ n ih =>
    intro k hk mc mc' hRun hStep
    rcases Nat.lt_succ_iff_lt_or_eq.mp hk with hLt | rfl
    · exact ih k hLt mc mc' hRun hStep
    · exact keepsStates_of_branching hContract hQueue hBranch (inv_of_run hContract ih hRun) hStep

/-- In a run whose steps keep states, `set_state` leaves the harness in a state with the
signature of the state that was taken off the queue. -/
theorem setState_restores (hContract : h.Contract) {n : Nat} (hKeeps : RunKeepsStates h opt n)
    (hRun : steps (step h opt) n (modelCheck h opt) = some mc) (hPc : mc.pc = .restore)
    (hCurr : mc.curr = some s) :
    ∃ mc', SetsState h opt mc mc' ∧ h.getSig mc'.test = s.sig := by
  have hInv := inv_of_run hContract hKeeps hRun
  cases hInv.located with
  | @restore s₁ st _ hMode hCurr₁ hRest hGen =>
    obtain rfl : s₁ = s := Option.some.inj (hCurr₁.symm.trans hCurr)
    obtain ⟨mc', hSets, _, hFresh⟩ := setsState_of_restorable hContract hPc hMode hCurr hRest
    obtain ⟨_, _, _, hTracked⟩ := hRest
    cases hFresh with
    | fresh _ _ _ _ hTest _ => exact ⟨mc', hSets, by rw [hTest, hTracked.sig]⟩
  | top hTop => cases hTop.symm.trans hPc
  | setting hSetting =>
    cases hSetting with
    | regen _ hRegen => cases hRegen.symm.trans hPc
    | fresh hFresh => cases hFresh.symm.trans hPc
  | stopped hStop =>
    rcases hStop with hStop | hStop <;> cases hStop.symm.trans hPc

def silentSteps : TestHarness Nat Nat Nat where
  init := 0
  runOneTransition st := ⟨.done ⟨.exit, st + 1, 0⟩, trivial⟩
  getSig := id
  shouldCheckpoint _ _ := false
  checkpoint _ := 0
  restore _ _ := 0
  hook _ st := (.exit, st)
  onError := id

def binarySteps : TestHarness Nat Nat Nat where
  init := 0
  runOneTransition st := ⟨.choose 2 fun c => .done ⟨.exit, (st + c) % 2, 0⟩,
    by decide, fun _ _ => trivial⟩
  getSig := id
  shouldCheckpoint _ _ := false
  checkpoint _ := 0
  restore _ _ := 0
  hook _ st := (.exit, st)
  onError := id

def bfsOptions : Options where
  queue := .bfs
  simulation := false
  maxBugs := 1
  maxState := 0
  source _ := ⟨0, randRange_pos⟩
  address := id

theorem binarySteps_contract : binarySteps.Contract :=
  ⟨TestHarness.restores_of_stateless (fun _ _ => rfl) fun _ _ => rfl, fun _ => rfl, fun _ => rfl⟩

theorem binarySteps_branching : binarySteps.Branching := by
  rintro ev ⟨_, score, hPath⟩
  exact DecisionTree.IsPath.recorded_ne_nil (by decide) hPath

/-- After six steps the second state is about to be restored, with one transition to replay. -/
theorem setState_restores_second :
    ∃ mc s, steps (step binarySteps bfsOptions) 6 (modelCheck binarySteps bfsOptions) = some mc ∧
      mc.pc = .restore ∧ mc.curr = some s ∧ s.sig = 1 ∧
      ∃ mc', SetsState binarySteps bfsOptions mc mc' ∧ binarySteps.getSig mc'.test = s.sig := by
  have hRun : ((steps (step binarySteps bfsOptions) 6 (modelCheck binarySteps bfsOptions)).map
      fun mc => (mc.pc, mc.curr.map State.sig)) = some (.restore, some 1) := by decide
  obtain ⟨mc, hSteps, hEq⟩ := Option.map_eq_some_iff.mp hRun
  obtain ⟨hPc, hSig⟩ := Prod.mk.inj hEq
  obtain ⟨s, hCurr, hOne⟩ := Option.map_eq_some_iff.mp hSig
  refine ⟨mc, s, hSteps, hPc, hCurr, hOne, ?_⟩
  exact setState_restores binarySteps_contract
    (runKeepsStates_of_branching binarySteps_contract (by decide) binarySteps_branching 6)
    hSteps hPc hCurr

/-- The state reached by a transition without a choice has the trace of its parent. When it is
taken off the queue, `set_state` ends in the parent. -/
theorem silent_state_not_restored :
    silentSteps.Contract ∧
      ((steps (step silentSteps bfsOptions) 4 (modelCheck silentSteps bfsOptions)).map
        fun mc => (mc.pc, mc.curr.map State.sig)) = some (.restore, some 1) ∧
      ((steps (step silentSteps bfsOptions) 5 (modelCheck silentSteps bfsOptions)).map
        fun mc => (mc.pc, silentSteps.getSig mc.test)) = some (.fresh, 0) :=
  ⟨⟨TestHarness.restores_of_stateless (fun _ _ => rfl) fun _ _ => rfl, fun _ => rfl, fun _ => rfl⟩,
    by decide, by decide⟩

end Explode.Mcl
