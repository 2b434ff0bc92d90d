import Explode.Mcl.Frame

/-!
# Replaying the trace file of a bug

`replay_trace_file` runs the transitions of a trace file from the initial state
with rules of its own: no callback may return skip, and every transition that
completes must reach a signature that the replay has not seen.
-/

namespace Explode.Mcl

open ChoiceTree Machine EnumRandom ModelChecker

variable {St Sig Data : Type*}

def transitionsOf (log : List (Event St)) : List (Event St) :=
  log.filter fun ev => ev.callback = .runOneTransition

@[simp] theorem transitionsOf_append (log log' : List (Event St)) :
    transitionsOf (log ++ log') = transitionsOf log ++ transitionsOf log' :=
  List.filter_append _ _

theorem transitionsOf_hook (h : TestHarness St Sig Data) {callback : Callback}
    (hCallback : callback ≠ .runOneTransition) (st : St) :
    transitionsOf [hookEvent h callback st] = [] := by
  simp [transitionsOf, hookEvent, hCallback]

theorem transitionsOf_transition {h : TestHarness St Sig Data} {ev : Event St}
    (hEv : IsTransition h ev) : transitionsOf [ev] = [ev] := by
  simp [transitionsOf, hEv.callback]

variable [DecidableEq Sig]

/-- Replaying the file runs the same transitions with the same choices, without a failed
assertion on the way, and the callback that reported the bug does so again. -/
def Reproduces (h : TestHarness St Sig Data) (opt : Options) (r : BugReport St) : Prop :=
  ∃ start mc, replayTraceFile h opt r.file = some start ∧ Reaches (step h opt) start mc ∧
    transitionsOf mc.log = r.old ++ r.fresh ∧ r.event ∈ mc.log

structure Accepted (h : TestHarness St Sig Data) (evs : List (Event St)) (t : Event St) : Prop where
  ret : t.ret ≠ .skip
  sig : t.ret = .exit → h.getSig t.after ∉ sigsOf h evs
  after : t.ret = .exit → (h.hook .afterNewTransition t.after).1 ≠ .skip

structure Replayed (h : TestHarness St Sig Data) (mc : ModelChecker St Sig Data)
    (evs : List (Event St)) (st : St) (new : Trace) : Prop where
  mode : mc.mode = .replay
  curr : ∃ s, mc.curr = some s
  test : mc.test = st
  seen : ∀ sig, mc.seen sig = true ↔ sig ∈ sigsOf h evs
  log : transitionsOf mc.log = evs
  rand : ∃ g, mc.rand = .replay g
  pending : mc.pending = new

variable {h : TestHarness St Sig Data} {opt : Options} {mc mc' m : ModelChecker St Sig Data}
  {st : St} {evs : List (Event St)} {new : Trace} {ev : Event St}

theorem runTest_replay_hook {s : State St Sig} (hMode : mc.mode = .replay)
    (hCurr : mc.curr = some s) {callback : Callback} (hCallback : callback ≠ .runOneTransition) :
    mc.runTest h opt callback =
      if (h.hook callback mc.test).1 = .skip then .error .fail
      else .ok ((h.hook callback mc.test).1, mc.called (hookEvent h callback mc.test)) := by
  rw [runTest_eq h opt mc (call_hook h mc hCallback),
    process_replay h opt (mc.called (hookEvent h callback mc.test)) hMode hCurr, replayReturn]
  have hRet : (hookEvent h callback mc.test).ret = (h.hook callback mc.test).1 := rfl
  have hOther : (hookEvent h callback mc.test).callback ≠ .runOneTransition := hCallback
  rw [hRet]
  cases (h.hook callback mc.test).1 <;> simp [hOther, Except.map]

theorem Replayed.called (hReplayed : Replayed h mc evs st new) (callback : Callback)
    (hCallback : callback ≠ .runOneTransition) :
    Replayed h (mc.called (hookEvent h callback mc.test)) evs (h.hook callback st).2 new where
  mode := hReplayed.mode
  curr := hReplayed.curr
  test := by
    rw [← hReplayed.test]
    rfl
  seen := hReplayed.seen
  log := by
    simp [ModelChecker.called, hReplayed.log, transitionsOf_hook h hCallback]
  rand := hReplayed.rand
  pending := hReplayed.pending

section
variable (hReplayed : Replayed h mc evs st new) (hEv : IsTransition h ev) (hBefore : ev.before = st)
  {pre post : Trace}
  (hRand : mc.rand = .replay ⟨pre ++ choicesOf (recorded ev.calls) ++ post, pre.length⟩)
include hReplayed hEv hBefore hRand

theorem runTest_replay_eq (opt : Options) {s : State St Sig} (hCurr : mc.curr = some s) :
    ∃ score, mc.runTest h opt .runOneTransition =
      ((mc.ran ev (.replay ⟨pre ++ choicesOf (recorded ev.calls) ++ post,
        (pre ++ choicesOf (recorded ev.calls)).length⟩) score).replayReturn h opt s ev).map
        fun next => (ev.ret, next) := by
  obtain ⟨score, hRun⟩ := run_replay hEv pre post
  rw [hBefore, ← hReplayed.test, ← hRand] at hRun
  refine ⟨score, ?_⟩
  rw [runTest_eq h opt mc (call_transition hEv (hBefore.trans hReplayed.test.symm) hRun)]
  exact congrArg _ (process_replay h opt (mc.ran ev _ score) hReplayed.mode hCurr ev)

theorem runTest_replay_refused (opt : Options)
    (hRefused : ev.ret = .skip ∨ ev.ret = .exit ∧ h.getSig ev.after ∈ sigsOf h evs) :
    mc.runTest h opt .runOneTransition = .error .fail := by
  obtain ⟨s, hCurr⟩ := hReplayed.curr
  obtain ⟨score, hRun⟩ := runTest_replay_eq hReplayed hEv hBefore hRand opt hCurr
  generalize Random.replay ⟨pre ++ choicesOf (recorded ev.calls) ++ post, _⟩ = g at hRun
  rw [hRun, replayReturn]
  rcases hRefused with hSkip | ⟨hExit, hOld⟩
  · rw [hSkip]
    rfl
  · have hSeen : (mc.ran ev g score).seen (h.getSig (mc.ran ev g score).test) = true :=
      (hReplayed.seen _).mpr hOld
    simp only [hExit, hEv.callback, if_true]
    rw [if_pos hSeen]
    rfl

theorem runTest_replay_accepted (opt : Options) (hSkip : ev.ret ≠ .skip)
    (hNew : ev.ret = .exit → h.getSig ev.after ∉ sigsOf h evs) :
    ∃ mc', mc.runTest h opt .runOneTransition = .ok (ev.ret, mc') ∧
      mc'.rand = .replay ⟨pre ++ choicesOf (recorded ev.calls) ++ post,
        (pre ++ choicesOf (recorded ev.calls)).length⟩ ∧
      mc'.log = mc.log ++ [ev] ∧ mc'.pc = mc.pc ∧ mc'.mode = .replay ∧ mc'.curr = mc.curr ∧
      mc'.test = ev.after ∧ mc'.pending = new ∧
      (ev.ret = .exit → ∀ sig, mc'.seen sig = true ↔ sig ∈ sigsOf h (evs ++ [ev])) := by
  obtain ⟨s, hCurr⟩ := hReplayed.curr
  obtain ⟨score, hRun⟩ := runTest_replay_eq hReplayed hEv hBefore hRand opt hCurr
  generalize Random.replay ⟨pre ++ choicesOf (recorded ev.calls) ++ post, _⟩ = g at hRun ⊢
  rw [hRun, replayReturn]
  cases hCase : ev.ret with
  | skip => exact absurd hCase hSkip
  | bug => exact ⟨_, rfl, rfl, rfl, rfl, hReplayed.mode, rfl, rfl, hReplayed.pending, by simp⟩
  | abort => exact ⟨_, rfl, rfl, rfl, rfl, hReplayed.mode, rfl, rfl, hReplayed.pending, by simp⟩
  | exit =>
    have hUnseen : ¬(mc.ran ev g score).seen (h.getSig (mc.ran ev g score).test) = true :=
      fun hSeen => hNew hCase ((hReplayed.seen _).mp hSeen)
    simp only [hEv.callback, if_true]
    rw [if_neg hUnseen]
    rcases getState_cases h opt (mc.ran ev g score) s ev with
      ⟨hSeen, _, _⟩ | ⟨_, s', m', hGet, hBorn⟩
    · exact absurd hSeen hUnseen
    · rw [hGet]
      have hSame := hBorn.same
      refine ⟨m', rfl, ?_, ?_, ?_, ?_, ?_, ?_, ?_, fun _ sig => ?_⟩
      · rw [hSame]; rfl
      · rw [hSame]; rfl
      · rw [hSame]; rfl
      · rw [hSame]; exact hReplayed.mode
      · rw [hSame]; rfl
      · rw [hSame]; rfl
      · rw [hSame]; exact hReplayed.pending
      · rw [hBorn.seen_iff, sigsOf_concat, List.mem_append, List.mem_singleton]
        exact or_congr (hReplayed.seen sig) Iff.rfl

end

theorem step_oldTrace (hBranch : h.Branching) (todo : List (Event St)) {ran : List (Event St)}
    (hPc : mc.pc = .oldTrace) (hReplayed : Replayed h mc ran ev.before new)
    (hRand : mc.rand = .replay ⟨traceOf (ran ++ ev :: todo), (traceOf ran).length⟩)
    (hEvs : Transitions h ev.before (ev :: todo) st)
    (hDistinct : (sigsOf h (ran ++ ev :: todo)).Nodup) :
    ∃ mc', mc.step h opt = some mc' ∧ Transitions h ev.after todo st ∧
      Replayed h mc' (ran ++ [ev]) ev.after new ∧
      (todo = [] ∧ mc'.pc = .newTrace ∨ todo ≠ [] ∧ mc'.pc = .oldTrace ∧
        mc'.rand = .replay ⟨traceOf (ran ++ ev :: todo), (traceOf (ran ++ [ev])).length⟩) := by
  obtain ⟨hEv, hExit⟩ := hEvs.mem List.mem_cons_self
  have hRest : Transitions h ev.after todo st :=
    (show Transitions h ev.before ([] ++ ev :: todo) st from hEvs).after
  have hNew : h.getSig ev.after ∉ sigsOf h ran := by
    have hSigs : sigsOf h (ran ++ ev :: todo) =
        sigsOf h ran ++ (ev :: todo).map fun ev => h.getSig ev.after := by simp [sigsOf]
    rw [hSigs] at hDistinct
    intro hMem
    exact (List.nodup_append.mp hDistinct).2.2 _ hMem _ List.mem_cons_self rfl
  have hSplit : traceOf (ran ++ ev :: todo) =
      traceOf ran ++ choicesOf (recorded ev.calls) ++ traceOf todo := by simp
  rw [hSplit] at hRand ⊢
  obtain ⟨m, hRun, hRand', hLog, hPc', hMode, hCurr, hTest, hPending, hSeen⟩ :=
    runTest_replay_accepted hReplayed hEv rfl hRand opt (by simp [hExit]) (fun _ => hNew)
  have hAfter : ∀ pc g,
      Replayed h { m with rand := .replay g, pc := pc } (ran ++ [ev]) ev.after new := by
    intro pc g
    refine ⟨hMode, ?_, hTest, hSeen hExit, ?_, ⟨g, rfl⟩, hPending⟩
    · obtain ⟨s, hs⟩ := hReplayed.curr
      exact ⟨s, hCurr.trans hs⟩
    · simp [hLog, hReplayed.log, transitionsOf_transition hEv]
  have hBody : mc.body h opt = mc.stepOldTrace h opt := by rw [body, hPc]
  rw [step, hBody, stepOldTrace, hRun]
  simp only [Except.bind, hRand', repeat_replay]
  by_cases hNil : todo = []
  · subst hNil
    exact ⟨_, rfl, hRest, hAfter _ _, .inl ⟨rfl, rfl⟩⟩
  · have hLeft : traceOf todo ≠ [] :=
      traceOf_ne_nil hNil fun ev hMem => hBranch ev (hRest.mem hMem).1
    simp only [ne_eq, hLeft, not_false_eq_true, decide_true]
    refine ⟨_, rfl, hRest, hAfter _ _, .inr ⟨hNil, hPc'.trans hPc, ?_⟩⟩
    simp

theorem oldTrace_reaches (hBranch : h.Branching) (todo ran : List (Event St)) (ev : Event St)
    (mc : ModelChecker St Sig Data) (hPc : mc.pc = .oldTrace)
    (hReplayed : Replayed h mc ran ev.before new)
    (hRand : mc.rand = .replay ⟨traceOf (ran ++ ev :: todo), (traceOf ran).length⟩)
    (hEvs : Transitions h ev.before (ev :: todo) st)
    (hDistinct : (sigsOf h (ran ++ ev :: todo)).Nodup) :
    ∃ mc', Reaches (step h opt) mc mc' ∧ mc'.pc = .newTrace ∧
      Replayed h mc' (ran ++ ev :: todo) st new := by
  induction todo generalizing ran ev mc with
  | nil =>
    obtain ⟨m, hStep, hRest, hReplayed', ⟨_, hPc'⟩ | ⟨hNe, _⟩⟩ :=
      step_oldTrace hBranch [] hPc hReplayed hRand hEvs hDistinct
    · rw [hRest.eq_of_nil] at hReplayed'
      exact ⟨m, .head hStep (.refl _ _), hPc', hReplayed'⟩
    · exact absurd rfl hNe
  | cons next rest ih =>
    obtain ⟨m, hStep, hRest, hReplayed', ⟨hNil, _⟩ | ⟨_, hPc', hRand'⟩⟩ :=
      step_oldTrace hBranch (next :: rest) hPc hReplayed hRand hEvs hDistinct
    · cases hNil
    · have hList : ran ++ ev :: next :: rest = ran ++ [ev] ++ next :: rest := by simp
      rw [hRest.eq_before] at hReplayed' hRest
      rw [hList] at hRand' hDistinct ⊢
      obtain ⟨mc', hReach, hEnd⟩ := ih (ran ++ [ev]) next m hPc' hReplayed' hRand' hRest hDistinct
      exact ⟨mc', .head hStep hReach, hEnd⟩

theorem step_newTrace_nil (hPc : mc.pc = .newTrace) (hPending : mc.pending = []) :
    mc.step h opt = some { mc with pc := .finish } := by
  rw [step, body, hPc]
  simp [stepNewTrace, hPending]

section
variable {t : Event St} (hContract : h.Contract) (hBranch : h.Branching) (hPc : mc.pc = .newTrace)
  (hReplayed : Replayed h mc evs st (choicesOf (recorded t.calls))) (hEv : IsTransition h t)
  (hHook : (h.hook .beforeNewTransition st).1 = .exit)
include hContract hBranch hPc hReplayed hEv hHook

theorem step_newTrace_eq (opt : Options) :
    ∃ m, Replayed h m evs st (choicesOf (recorded t.calls)) ∧
      m.rand = .replay ⟨[] ++ choicesOf (recorded t.calls) ++ [], ([] : Trace).length⟩ ∧
      m.log = mc.log ++ [hookEvent h .beforeNewTransition st] ∧
      mc.body h opt = ((m.runTest h opt .runOneTransition).bind fun r =>
        if r.1 = .exit then (r.2.runTest h opt .afterNewTransition).map Prod.snd
        else .ok r.2).map fun next => { next with pc := .finish } := by
  obtain ⟨g, hg⟩ := hReplayed.rand
  have hNe : mc.pending ≠ [] := by
    rw [hReplayed.pending]
    simpa [choicesOf] using hBranch t hEv
  have hRand : mc.rand.reset.setChoices mc.pending =
      .replay ⟨[] ++ choicesOf (recorded t.calls) ++ [], ([] : Trace).length⟩ := by
    rw [hg, hReplayed.pending]
    simp [Random.reset, Random.setChoices, ReplayRandom.reset]
  have hStart : Replayed h mc.loadNewTrace evs st (choicesOf (recorded t.calls)) :=
    ⟨hReplayed.mode, hReplayed.curr, hReplayed.test, hReplayed.seen, hReplayed.log, ⟨_, hRand⟩,
      hReplayed.pending⟩
  have hCalled := hStart.called .beforeNewTransition (by decide)
  rw [hContract.beforeNewTransition] at hCalled
  refine ⟨_, hCalled, hRand, ?_, ?_⟩
  · rw [← hReplayed.test]
    rfl
  · rw [body, hPc]
    simp only [stepNewTrace, if_neg hNe, runNewTransition, newTransitionBy]
    have hExit : (h.hook .beforeNewTransition mc.loadNewTrace.test).1 = .exit := by
      rw [hStart.test]
      exact hHook
    obtain ⟨s, hCurr⟩ := hStart.curr
    rw [runTest_replay_hook hStart.mode hCurr (by decide), if_neg (by simp [hExit])]
    change Except.map _ (if _ then _ else _) = _
    rw [if_pos hExit]

theorem step_newTrace_refused (hBefore : t.before = st) (hRefused : ¬Accepted h evs t) :
    mc.step h opt = none := by
  obtain ⟨m, hReplayed', hRand, hLog, hBody⟩ :=
    step_newTrace_eq hContract hBranch hPc hReplayed hEv hHook opt
  by_cases hTrans : t.ret = .skip ∨ t.ret = .exit ∧ h.getSig t.after ∈ sigsOf h evs
  · rw [step, hBody, runTest_replay_refused hReplayed' hEv hBefore hRand opt hTrans]
    rfl
  · obtain ⟨hSkip, hNew⟩ := not_or.mp hTrans
    have hSig : t.ret = .exit → h.getSig t.after ∉ sigsOf h evs :=
      fun hExit hMem => hNew ⟨hExit, hMem⟩
    have hAfter : t.ret = .exit ∧ (h.hook .afterNewTransition t.after).1 = .skip := by
      by_contra hContra
      exact hRefused ⟨hSkip, hSig, fun hExit hRet => hContra ⟨hExit, hRet⟩⟩
    obtain ⟨m', hRun, _, _, _, hMode, hCurr, hTest, _, _⟩ :=
      runTest_replay_accepted hReplayed' hEv hBefore hRand opt hSkip hSig
    obtain ⟨s, hs⟩ := hReplayed'.curr
    have hFail : m'.runTest h opt .afterNewTransition = .error .fail := by
      rw [runTest_replay_hook hMode (hCurr.trans hs) (by decide), hTest, if_pos hAfter.2]
    rw [step, hBody, hRun]
    simp [Except.bind, hAfter.1, hFail, Except.map]

theorem step_newTrace_accepted (hBefore : t.before = st) (hAccepted : Accepted h evs t) :
    ∃ mc', mc.step h opt = some mc' ∧ mc'.pc = .finish ∧ mc'.mode = .replay ∧
      (∃ s, mc'.curr = some s) ∧ mc'.test = stateAfter h t ∧
      mc'.log = mc.log ++ [hookEvent h .beforeNewTransition st, t] ++
        if t.ret = .exit then [hookEvent h .afterNewTransition t.after] else [] := by
  obtain ⟨m, hReplayed', hRand, hLog, hBody⟩ :=
    step_newTrace_eq hContract hBranch hPc hReplayed hEv hHook opt
  obtain ⟨m', hRun, _, hLog', _, hMode, hCurr, hTest, _, _⟩ :=
    runTest_replay_accepted hReplayed' hEv hBefore hRand opt hAccepted.ret hAccepted.sig
  obtain ⟨s, hs⟩ := hReplayed'.curr
  rw [step, hBody, hRun]
  by_cases hExit : t.ret = .exit
  · have hAfter : m'.runTest h opt .afterNewTransition =
        .ok ((h.hook .afterNewTransition t.after).1,
          m'.called (hookEvent h .afterNewTransition t.after)) := by
      rw [runTest_replay_hook hMode (hCurr.trans hs) (by decide), hTest,
        if_neg (hAccepted.after hExit)]
    simp only [Except.bind, hExit, if_true, hAfter, Except.map]
    refine ⟨_, rfl, rfl, hMode, ⟨s, hCurr.trans hs⟩, ?_, ?_⟩
    · simp [stateAfter, hExit, ModelChecker.called, hookEvent]
    · simp [ModelChecker.called, hLog', hLog]
  · simp only [Except.bind, hExit, if_false, Except.map]
    refine ⟨_, rfl, rfl, hMode, ⟨s, hCurr.trans hs⟩, ?_, ?_⟩
    · simp [stateAfter, hExit, hTest]
    · simp [hLog', hLog]

end

theorem step_finish (h : TestHarness St Sig Data) (opt : Options) (mc : ModelChecker St Sig Data)
    {s : State St Sig} (hPc : mc.pc = .finish) (hMode : mc.mode = .replay)
    (hCurr : mc.curr = some s) (hRet : (h.hook .afterTransitions mc.test).1 ≠ .skip) :
    ∃ mc', mc.step h opt = some mc' ∧
      mc'.log = mc.log ++ [hookEvent h .afterTransitions mc.test] := by
  rw [step, body, hPc]
  simp only [runTest_replay_hook hMode hCurr (by decide : Callback.afterTransitions ≠ _),
    if_neg hRet]
  exact ⟨_, rfl, rfl⟩

theorem replayTraceFile_eq (hContract : h.Contract) (opt : Options) {file : List Char}
    {old new : Trace} (hLoad : loadTraceFile file = some (old, new)) :
    ∃ start, replayTraceFile h opt file = some start ∧ Replayed h start [] h.init new ∧
      (old = [] ∧ start.pc = .newTrace ∨ old ≠ [] ∧ start.pc = .oldTrace ∧
        start.rand = .replay ⟨old, 0⟩) := by
  have hCurr : (replayStart h opt new).curr =
      some ⟨0, 0, h.getSig h.init, [], 0, opt.address 0, []⟩ := rfl
  have hCkpt : (replayStart h opt new).ckpts 0 = some ⟨h.checkpoint h.init, 0, []⟩ := rfl
  have hRestore : (replayStart h opt new).restoreCkpt h opt
      ⟨0, 0, h.getSig h.init, [], 0, opt.address 0, []⟩ =
        .ok ((replayStart h opt new).called (hookEvent h .beforeTransitions h.init)) :=
    restoreCkpt_eq hContract hCkpt rfl (.inl rfl) hCurr
  have hStart : ∀ pc g, Replayed h { (replayStart h opt new).called
      (hookEvent h .beforeTransitions h.init) with rand := .replay g, pc := pc } [] h.init new := by
    intro pc g
    refine ⟨rfl, ⟨_, hCurr⟩, ?_, fun sig => ?_, ?_, ⟨g, rfl⟩, rfl⟩
    · simp [ModelChecker.called, hookEvent, hContract.beforeTransitions]
    · rw [Mcl.seen_iff]
      exact Iff.rfl
    · exact transitionsOf_hook h (by decide) h.init
  rw [replayTraceFile, hLoad, Option.bind_some, hCurr, Option.bind_some, hRestore]
  by_cases hNil : old = []
  · simp only [if_pos hNil]
    exact ⟨_, rfl, hStart _ _, .inl ⟨hNil, rfl⟩⟩
  · simp only [if_neg hNil]
    exact ⟨_, rfl, hStart _ _, .inr ⟨hNil, rfl, rfl⟩⟩

theorem replay_reaches_newTrace (hContract : h.Contract) (hBranch : h.Branching) (opt : Options)
    {file : List Char} {old : List (Event St)}
    (hLoad : loadTraceFile file = some (traceOf old, new)) (hOld : Transitions h h.init old st)
    (hDistinct : (sigsOf h old).Nodup) :
    ∃ start mc, replayTraceFile h opt file = some start ∧ Reaches (step h opt) start mc ∧
      mc.pc = .newTrace ∧ Replayed h mc old st new := by
  obtain ⟨start, hStart, hReplayed, ⟨hNil, hPc⟩ | ⟨hNe, hPc, hRand⟩⟩ :=
    replayTraceFile_eq hContract opt hLoad
  · have hEmpty : old = [] := by
      by_contra hNe
      exact traceOf_ne_nil hNe (fun ev hMem => hBranch ev (hOld.mem hMem).1) hNil
    subst hEmpty
    rw [hOld.eq_of_nil] at hReplayed
    exact ⟨start, start, hStart, .refl _ _, hPc, hReplayed⟩
  · cases old with
    | nil => exact absurd rfl hNe
    | cons ev todo =>
      rw [hOld.eq_before] at hReplayed hOld
      obtain ⟨mc, hReach, hEnd⟩ :=
        oldTrace_reaches hBranch todo [] ev start hPc hReplayed hRand hOld hDistinct
      exact ⟨start, mc, hStart, hReach, hEnd⟩

theorem newTrace_eq {t : Event St} (hSim : opt.simulation = false ∨ ∀ call ∈ t.calls, call.2 ≠ 1) :
    newTrace opt t = choicesOf (recorded t.calls) := by
  rcases hSim with hOff | hCalls
  · simp [newTrace, hOff]
  · have hAll : recorded t.calls = t.calls := by
      rw [recorded, List.filter_eq_self]
      intro call hMem
      simpa using hCalls call hMem
    rw [newTrace, hAll, ite_self]

section
variable {r : BugReport St} (hContract : h.Contract) (hBranch : h.Branching)
  (hOld : Transitions h h.init r.old st) (hDistinct : (sigsOf h r.old).Nodup)
include hContract hBranch hOld hDistinct

theorem report_reaches_newTrace (hFile : r.file = printTrace (traceOf r.old) new) :
    ∃ start mc, replayTraceFile h opt r.file = some start ∧ Reaches (step h opt) start mc ∧
      mc.pc = .newTrace ∧ Replayed h mc r.old st new := by
  apply replay_reaches_newTrace hContract hBranch opt _ hOld hDistinct
  rw [hFile, loadTraceFile_printTrace]

theorem reproduces_of_none (hFresh : r.fresh = [])
    (hFile : r.file = printTrace (traceOf r.old) []) (hRet : r.event.ret = .bug)
    (hEvent : r.event = hookEvent h .afterTransitions st) : Reproduces h opt r := by
  obtain ⟨start, mc, hStart, hReach, hPc, hReplayed⟩ :=
    report_reaches_newTrace hContract hBranch hOld hDistinct hFile
  obtain ⟨s, hCurr⟩ := hReplayed.curr
  have hNoSkip : (h.hook .afterTransitions mc.test).1 ≠ .skip := by
    rw [hEvent] at hRet
    rw [hReplayed.test]
    intro hSkip
    cases hRet.symm.trans hSkip
  obtain ⟨mc', hFinish, hLog⟩ :=
    step_finish h opt { mc with pc := .finish } rfl hReplayed.mode hCurr hNoSkip
  refine ⟨start, mc', hStart, ?_, ?_, ?_⟩
  · exact hReach.trans (.head (step_newTrace_nil hPc hReplayed.pending) (.head hFinish (.refl _ _)))
  · rw [hLog, transitionsOf_append, transitionsOf_hook h (by decide), hFresh]
    exact congrArg (· ++ []) hReplayed.log
  · rw [hLog, hEvent, hReplayed.test]
    simp

variable {t : Event St} (hFresh : r.fresh = [t])
  (hFile : r.file = printTrace (traceOf r.old) (choicesOf (recorded t.calls)))
  (hEv : IsTransition h t) (hBefore : t.before = st)
  (hHook : (h.hook .beforeNewTransition st).1 = .exit)
include hFresh hFile hEv hBefore hHook

theorem reproduces_of_accepted (hRet : r.event.ret = .bug)
    (hEvent : r.event ∈ roundEvents h st (some t)) (hAccepted : Accepted h r.old t) :
    Reproduces h opt r := by
  obtain ⟨start, mc, hStart, hReach, hPc, hReplayed⟩ :=
    report_reaches_newTrace hContract hBranch hOld hDistinct hFile
  obtain ⟨m, hStep, hPc', hMode, ⟨s, hCurr⟩, hTest, hLog⟩ :=
    step_newTrace_accepted hContract hBranch hPc hReplayed hEv hHook hBefore hAccepted
  have hTransitions : transitionsOf m.log = r.old ++ r.fresh := by
    have hAfter : transitionsOf (if t.ret = .exit then [hookEvent h .afterNewTransition t.after]
        else []) = [] := by
      split
      · exact transitionsOf_hook h (by decide) _
      · rfl
    rw [hLog, List.append_cons, transitionsOf_append, transitionsOf_append, transitionsOf_append,
      hAfter, hReplayed.log, transitionsOf_hook h (by decide), transitionsOf_transition hEv, hFresh]
    simp
  have hReach' : Reaches (step h opt) start m := hReach.trans (.head hStep (.refl _ _))
  rw [roundEvents, List.mem_append] at hEvent
  rcases hEvent with hEvent | hEvent
  · refine ⟨start, m, hStart, hReach', hTransitions, ?_⟩
    rw [hLog, List.append_assoc]
    exact List.mem_append_right _ hEvent
  · have hLast : r.event = hookEvent h .afterTransitions m.test := by
      rw [hTest]
      exact List.mem_singleton.mp hEvent
    have hNoSkip : (h.hook .afterTransitions m.test).1 ≠ .skip := by
      rw [hLast] at hRet
      intro hSkip
      cases hRet.symm.trans hSkip
    obtain ⟨mc', hFinish, hLog'⟩ := step_finish h opt m hPc' hMode hCurr hNoSkip
    refine ⟨start, mc', hStart, hReach'.trans (.head hFinish (.refl _ _)), ?_, ?_⟩
    · rw [hLog', transitionsOf_append, transitionsOf_hook h (by decide), hTransitions,
        List.append_nil]
    · rw [hLog', hLast]
      simp

theorem not_reproduces_of_refused (hRefused : ¬Accepted h r.old t) : ¬Reproduces h opt r := by
  rintro ⟨start, mc, hStart, hReach, hTransitions, _⟩
  obtain ⟨start', m, hStart', hReach', hPc, hReplayed⟩ :=
    report_reaches_newTrace hContract hBranch hOld hDistinct hFile
  obtain rfl : start' = start := Option.some.inj (hStart'.symm.trans hStart)
  have hStuck : m.step h opt = none :=
    step_newTrace_refused hContract hBranch hPc hReplayed hEv hHook hBefore hRefused
  refine not_reaches_of_stuck (P := fun c => r.old.length < (transitionsOf c.log).length) ?_
    hReach' hStuck ?_ hReach ?_
  · intro a b hLt hStep
    exact hLt.trans_le ((log_prefix_of_step hStep).filter _).length_le
  · rw [hReplayed.log]
    exact lt_irrefl _
  · rw [hTransitions, hFresh]
    simp

end

/-- The file of a bug found during the search shows the bug again exactly if the replay accepts
the last transition. -/
theorem replay_reproduces_iff (hContract : h.Contract) (hError : ∀ st, h.onError st = st)
    (hBranch : h.Branching) (hQueue : opt.queue ≠ .priority) {n : Nat}
    (hRun : steps (step h opt) n (modelCheck h opt) = some mc) {r : BugReport St}
    (hReport : r ∈ mc.reports) (hCallback : r.event.callback ≠ .beforeNewTransition)
    (hSim : opt.simulation = false ∨ ∀ t ∈ r.fresh, ∀ call ∈ t.calls, call.2 ≠ 1) :
    Reproduces h opt r ↔ ∀ t ∈ r.fresh, Accepted h r.old t := by
  have hInv := inv_of_run hContract (runKeepsStates_of_branching hContract hQueue hBranch n) hRun
  obtain ⟨st, tr, hOld, hDistinct, hFresh, hRound, hRet, hEvent, hFile⟩ :=
    hInv.reports hQueue hError r hReport
  cases tr with
  | none =>
    rw [Option.toList_none] at hFresh
    refine iff_of_true ?_ (by simp [hFresh])
    have hLast : r.event = hookEvent h .afterTransitions st := by
      rcases List.mem_cons.mp hEvent with hFirst | hLast
      · exact absurd (congrArg Event.callback hFirst) hCallback
      · exact List.mem_singleton.mp hLast
    exact reproduces_of_none hContract hBranch hOld hDistinct hFresh hFile hRet hLast
  | some t =>
    rw [Option.toList_some] at hFresh
    obtain ⟨hEv, hBefore, hHook⟩ := hRound t rfl
    have hCalls : opt.simulation = false ∨ ∀ call ∈ t.calls, call.2 ≠ 1 :=
      hSim.imp_right fun hAll => hAll t (by simp [hFresh])
    rw [roundTrace, newTrace_eq hCalls] at hFile
    simp only [hFresh, List.mem_singleton, forall_eq]
    constructor
    · intro hReproduces
      by_contra hRefused
      exact not_reproduces_of_refused hContract hBranch hOld hDistinct hFresh hFile hEv hBefore
        hHook hRefused hReproduces
    · intro hAccepted
      exact reproduces_of_accepted hContract hBranch hOld hDistinct hFresh hFile hEv hBefore
        hHook hRet hEvent hAccepted

def bugAfterStep : TestHarness Nat Nat Nat :=
  { binarySteps with
    hook := fun callback st => (if callback = .afterNewTransition then .bug else .exit, st) }

def twoBugs : Options := { bfsOptions with maxBugs := 2 }

theorem bugAfterStep_contract : bugAfterStep.Contract :=
  ⟨binarySteps_contract.restore_checkpoint, fun _ => rfl, fun _ => rfl⟩

theorem bugAfterStep_branching : bugAfterStep.Branching := by
  rintro ev ⟨_, score, hPath⟩
  exact DecisionTree.IsPath.recorded_ne_nil (by decide) hPath

def bugReport (c : Nat) : BugReport Nat where
  event := ⟨.afterNewTransition, c, [], .bug, c⟩
  old := []
  fresh := [⟨.runOneTransition, 0, [(c, 2)], .exit, c⟩]
  file := printTrace [] [UInt8.ofNat c]

/-- The second bug is behind a transition to a new state, and is reproduced. -/
theorem bug_after_new_state_reproduced :
    ∃ mc, steps (step bugAfterStep twoBugs) 5 (modelCheck bugAfterStep twoBugs) = some mc ∧
      bugReport 1 ∈ mc.reports ∧ Reproduces bugAfterStep twoBugs (bugReport 1) := by
  have hRun : (steps (step bugAfterStep twoBugs) 5 (modelCheck bugAfterStep twoBugs)).map
      ModelChecker.reports = some [bugReport 0, bugReport 1] := rfl
  obtain ⟨mc, hSteps, hReports⟩ := Option.map_eq_some_iff.mp hRun
  have hReport : bugReport 1 ∈ mc.reports := by simp [hReports]
  refine ⟨mc, hSteps, hReport, ?_⟩
  refine (replay_reproduces_iff bugAfterStep_contract (fun _ => rfl) bugAfterStep_branching
    (by decide) hSteps hReport (by decide) (.inl rfl)).mpr ?_
  intro t hMem
  obtain rfl := List.mem_singleton.mp hMem
  exact ⟨by decide, by decide, by decide⟩

/-- The first bug is behind a transition that stays in the initial state. The replay of its file
stops there, at the assertion that the signature is new. -/
theorem bug_after_seen_state_not_reproduced :
    bugAfterStep.Contract ∧ bugAfterStep.Branching ∧
      (∃ mc, steps (step bugAfterStep twoBugs) 3 (modelCheck bugAfterStep twoBugs) = some mc ∧
        bugReport 0 ∈ mc.reports) ∧
      (∃ start, replayTraceFile bugAfterStep twoBugs (bugReport 0).file = some start ∧
        step bugAfterStep twoBugs start = none) ∧
      ¬Reproduces bugAfterStep twoBugs (bugReport 0) := by
  have hRun : (steps (step bugAfterStep twoBugs) 3 (modelCheck bugAfterStep twoBugs)).map
      ModelChecker.reports = some [bugReport 0] := rfl
  obtain ⟨mc, hSteps, hReports⟩ := Option.map_eq_some_iff.mp hRun
  have hReplay : (replayTraceFile bugAfterStep twoBugs (bugReport 0).file).map
      (fun start => ((step bugAfterStep twoBugs start).isNone, (transitionsOf start.log).length)) =
        some (true, 0) := by decide
  obtain ⟨start, hStart, hEq⟩ := Option.map_eq_some_iff.mp hReplay
  obtain ⟨hStuck, hLog⟩ := Prod.mk.inj hEq
  refine ⟨bugAfterStep_contract, bugAfterStep_branching, ⟨mc, hSteps, by simp [hReports]⟩,
    ⟨start, hStart, Option.isNone_iff_eq_none.mp hStuck⟩, ?_⟩
  rintro ⟨start', m, hStart', hReach, hTransitions, _⟩
  obtain rfl : start' = start := Option.some.inj (hStart'.symm.trans hStart)
  refine not_reaches_of_stuck (P := fun c => 0 < (transitionsOf c.log).length) ?_ (.refl _ _)
    (Option.isNone_iff_eq_none.mp hStuck) (by simp [hLog]) hReach
    (by simp [hTransitions, bugReport])
  intro a b hLt hStep
  exact hLt.trans_le ((log_prefix_of_step hStep).filter _).length_le

end Explode.Mcl
