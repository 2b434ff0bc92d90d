import Explode.Mcl.Checkpoints

/-!
# One round of the search

A round restores a state, runs at most one new transition between the hooks
around it, and asks the generator whether to go on.
-/

namespace Explode.Mcl

open ChoiceTree Machine EnumRandom ModelChecker

variable {St Sig Data : Type*} (h : TestHarness St Sig Data) (opt : Options)

def stateAfter (t : Event St) : St :=
  if t.ret = .exit then (h.hook .afterNewTransition t.after).2 else t.after

def roundEvents (st : St) : Option (Event St) → List (Event St)
  | none => [hookEvent h .beforeNewTransition st, hookEvent h .afterTransitions st]
  | some t =>
    [hookEvent h .beforeNewTransition st, t] ++
      (if t.ret = .exit then [hookEvent h .afterNewTransition t.after] else []) ++
      [hookEvent h .afterTransitions (stateAfter h t)]

def roundTrace (opt : Options) : Option (Event St) → Trace
  | none => []
  | some t => newTrace opt t

def roundState (st : St) : Option (Event St) → St
  | none => (h.hook .beforeNewTransition st).2
  | some t => stateAfter h t

def TestHarness.Buggy (h : TestHarness St Sig Data) : Prop :=
  (∃ callback st, (h.hook callback st).1 = .bug) ∨ ∃ ev, IsTransition h ev ∧ ev.ret = .bug

theorem hookEvent_afterTransitions_mem {h : TestHarness St Sig Data} (hContract : h.Contract)
    (st : St) (tr : Option (Event St)) :
    hookEvent h .afterTransitions (roundState h st tr) ∈ roundEvents h st tr := by
  cases tr with
  | none => simp [roundEvents, roundState, hContract.beforeNewTransition]
  | some t => simp [roundEvents, roundState]

def RoundAt (st : St) (g : Random) :
    Option (Event St) → Prop
  | none => RoundGen h opt st g
  | some t => IsTransition h t ∧ t.before = (h.hook .beforeNewTransition st).2 ∧
      (h.hook .beforeNewTransition st).1 = .exit ∧ RanGen opt t g

def RoundRun (st : St) (g₀ g : Random) : Option (Event St) → Prop
  | none => g = g₀
  | some t => ∃ score, (h.runOneTransition st).1.run Random.random g₀ =
      some (t.calls, ⟨t.ret, t.after, score⟩, g)

theorem RoundAt.choices_eq {h : TestHarness St Sig Data} {opt : Options} {st : St}
    {tr : Option (Event St)} {g : Random} (hAt : RoundAt h opt st g tr)
    (hNone : tr = none → (h.hook .beforeNewTransition st).1 ≠ .exit) :
    g.choices = roundTrace opt tr := by
  cases tr with
  | none => exact by_contra fun hNe => hNone rfl (hAt.asked hNe)
  | some t => exact hAt.2.2.2.choices_eq

theorem call_hook (mc : ModelChecker St Sig Data)
    {callback : Callback} (hCallback : callback ≠ .runOneTransition) :
    mc.call h callback =
      some (hookEvent h callback mc.test, mc.called (hookEvent h callback mc.test)) := by
  cases callback with
  | runOneTransition => exact absurd rfl hCallback
  | _ => rfl

theorem call_transition {h : TestHarness St Sig Data} {mc : ModelChecker St Sig Data}
    {ev : Event St} {g : Random} {score : Int} (hEv : IsTransition h ev)
    (hBefore : ev.before = mc.test)
    (hRun : (h.runOneTransition mc.test).1.run Random.random mc.rand =
      some (ev.calls, ⟨ev.ret, ev.after, score⟩, g)) :
    mc.call h .runOneTransition = some (ev, mc.ran ev g score) := by
  obtain ⟨callback, before, calls, ret, after⟩ := ev
  obtain rfl : callback = .runOneTransition := hEv.callback
  obtain rfl : before = mc.test := hBefore
  simp [call, hRun]

variable [DecidableEq Sig]

/-- A report written in the round of a state. Its event is known when the harness keeps its contract
and `on_error` leaves it alone. -/
structure RoundReport (mc : ModelChecker St Sig Data) (s : State St Sig) (st : St)
    (tr : Option (Event St)) (r : BugReport St) : Prop where
  old : r.old = s.path
  fresh : r.fresh = tr.toList
  bug : r.event.ret = .bug
  file : ∃ old, mc.fullTrace s = some old ∧ r.file = printTrace old (roundTrace opt tr)
  event : h.Contract → (∀ x, h.onError x = x) → r.event ∈ roundEvents h st tr

inductive Progress (mc₀ mc : ModelChecker St Sig Data) (s : State St Sig) : Option (Event St) → Prop
  | unchanged {tr : Option (Event St)} (hq : mc.q = mc₀.q) (hCkpts : mc.ckpts = mc₀.ckpts)
      (hVisited : mc.visited = mc₀.visited) (hCalls : mc.ckptCalls = mc₀.ckptCalls)
      (hOld : ∀ t ∈ tr, t.ret = .exit →
        mc₀.seen (h.getSig t.after) ∧ opt.queue ≠ .priority) : Progress mc₀ mc s tr
  | born {t : Event St} {s' : State St Sig} {m m' : ModelChecker St Sig Data}
      (hBorn : Born h m s t s' m') (hCkpts₀ : m.ckpts = mc₀.ckpts)
      (hVisited₀ : m.visited = mc₀.visited) (hCalls₀ : m.ckptCalls = mc₀.ckptCalls)
      (hTest : m.test = t.after) (hChoices : m.rand.choices = newTrace opt t)
      (hExit : t.ret = .exit) (hNew : ¬(m.seen (h.getSig m.test) ∧ opt.queue ≠ .priority))
      (hCkpts : mc.ckpts = m'.ckpts) (hVisited : mc.visited = m'.visited)
      (hq : mc.q = push opt s' mc₀.q) : Progress mc₀ mc s (some t)

structure InRound (mc₀ mc : ModelChecker St Sig Data) (s : State St Sig) (st : St)
    (tr : Option (Event St)) (cur : St) : Prop where
  mode : mc.mode = .modelCheck
  curr : mc.curr = some s
  progress : Progress h opt mc₀ mc s tr
  popped : mc.popped = mc₀.popped
  run : RoundRun h (h.hook .beforeNewTransition st).2 mc₀.rand mc.rand tr
  gen : RoundAt h opt st mc.rand tr
  fresh : mc.fresh = tr.toList
  test : (∀ x, h.onError x = x) → mc.test = cur
  reports : ∀ r ∈ mc.reports, r ∈ mc₀.reports ∨ RoundReport h opt mc s st tr r

def Untraced (mc₀ : ModelChecker St Sig Data) (s : State St Sig) (st : St) : Prop :=
  ∃ m tr cur, InRound h opt mc₀ m s st tr cur ∧ m.fullTrace s = none

inductive LeftRound (mc₀ : ModelChecker St Sig Data)
    (s : State St Sig) (st : St) (m : ModelChecker St Sig Data) : Prop
  | bug {tr : Option (Event St)} {cur : St} (hIn : InRound h opt mc₀ m s st tr cur)
      (hBuggy : h.Buggy)
  | limit {s' : State St Sig} {tr : Option (Event St)} {cur : St}
      (hIn : InRound h opt mc₀ { m with q := push opt s' mc₀.q } s st tr cur)
      (hq : m.q = mc₀.q) (hMax : 0 < opt.maxState)

inductive Noted (mc : ModelChecker St Sig Data) (s : State St Sig)
    (ev : Event St) : ModelChecker St Sig Data → Prop
  | quiet (hRet : ev.ret ≠ .bug) : Noted mc s ev mc
  | bug {old : Trace} (hRet : ev.ret = .bug) (hOld : mc.fullTrace s = some old) :
      Noted mc s ev { mc with
        test := h.onError mc.test
        bugs := mc.bugs + 1
        reports := mc.reports ++ [⟨ev, s.path, mc.fresh, printTrace old mc.rand.choices⟩] }

variable {h opt} {mc₀ mc m : ModelChecker St Sig Data}
  {s : State St Sig} {st cur cur' : St} {tr : Option (Event St)} {ev : Event St}

theorem ends_process (opt : Options) (hMode : mc.mode = .modelCheck) (hCurr : mc.curr = some s)
    (hRet : ev.callback = .runOneTransition → ev.ret ≠ .exit) :
    Ends (Noted h mc s ev) (fun m => Noted h mc s ev m ∧ ev.ret = .bug) (mc.fullTrace s = none)
      (mc.processTestReturn h opt ev) := by
  rw [process_modelCheck h opt mc hMode hCurr]
  unfold checkReturn
  cases hCase : ev.ret with
  | exit =>
    simp only [if_neg fun hCallback => hRet hCallback hCase]
    exact .quiet (by simp [hCase])
  | skip => exact .quiet (by simp [hCase])
  | abort => exact .quiet (by simp [hCase])
  | bug =>
    unfold storeTraceFile
    cases hOld : mc.fullTrace s with
    | none => exact rfl
    | some old =>
      simp only [Option.map_some]
      split
      · exact ⟨.bug hCase hOld, trivial⟩
      · exact .bug hCase hOld

theorem ends_hook {callback : Callback} (hCallback : callback ≠ .runOneTransition)
    (hMode : mc.mode = .modelCheck) (hCurr : mc.curr = some s) :
    Ends (fun r => r.1 = (hookEvent h callback mc.test).ret ∧
        Noted h (mc.called (hookEvent h callback mc.test)) s (hookEvent h callback mc.test) r.2)
      (fun m => Noted h (mc.called (hookEvent h callback mc.test)) s
        (hookEvent h callback mc.test) m ∧ h.Buggy)
      (mc.fullTrace s = none) (mc.runTest h opt callback) := by
  rw [runTest_eq h opt mc (call_hook h mc hCallback)]
  have hOther : (hookEvent h callback mc.test).callback ≠ .runOneTransition := hCallback
  have hMode' : (mc.called (hookEvent h callback mc.test)).mode = .modelCheck := hMode
  refine Ends.map ?_ fun m hNoted => ⟨rfl, hNoted⟩
  refine (ends_process opt hMode' hCurr fun hEq => absurd hEq hOther).imp (fun _ => id) ?_ id
  exact fun m hm => ⟨hm.1, .inl ⟨callback, mc.test, hm.2⟩⟩

theorem runTest_hook_exit (h : TestHarness St Sig Data) (opt : Options)
    (mc : ModelChecker St Sig Data) {callback : Callback}
    (hCallback : callback ≠ .runOneTransition) (hMode : mc.mode = .modelCheck)
    (hCurr : mc.curr = some s) (hExit : (h.hook callback mc.test).1 = .exit) :
    mc.runTest h opt callback = .ok (.exit, mc.called (hookEvent h callback mc.test)) := by
  rw [runTest_eq h opt mc (call_hook h mc hCallback),
    process_modelCheck h opt (mc.called (hookEvent h callback mc.test)) hMode hCurr]
  have hRet : (hookEvent h callback mc.test).ret = .exit := hExit
  have hOther : (hookEvent h callback mc.test).callback ≠ .runOneTransition := hCallback
  simp [checkReturn, hRet, hOther, Except.map]

theorem Progress.congr (hProgress : Progress h opt mc₀ mc s tr) (hq : m.q = mc.q)
    (hCkpts : m.ckpts = mc.ckpts) (hVisited : m.visited = mc.visited)
    (hCalls : m.ckptCalls = mc.ckptCalls) : Progress h opt mc₀ m s tr := by
  cases hProgress with
  | unchanged hq' hCkpts' hVisited' hCalls' hOld =>
    exact .unchanged (hq.trans hq') (hCkpts.trans hCkpts') (hVisited.trans hVisited')
      (hCalls.trans hCalls') hOld
  | born hBorn hCkpts₀ hVisited₀ hCalls₀ hTest hChoices hExit hNew hCkpts' hVisited' hq' =>
    exact .born hBorn hCkpts₀ hVisited₀ hCalls₀ hTest hChoices hExit hNew (hCkpts.trans hCkpts')
      (hVisited.trans hVisited') (hq ▸ hq')

theorem InRound.transition {t : Event St} (hIn : InRound h opt mc₀ mc s st (some t) cur)
    (hContract : h.Contract) :
    IsTransition h t ∧ t.before = st ∧ (h.hook .beforeNewTransition st).1 = .exit := by
  obtain ⟨hEv, hBefore, hHook, _⟩ := hIn.gen
  exact ⟨hEv, hBefore.trans (hContract.beforeNewTransition st), hHook⟩

theorem InRound.run_eq (hIn : InRound h opt mc₀ mc s st tr cur) (hContract : h.Contract) :
    RoundRun h st mc₀.rand mc.rand tr :=
  hContract.beforeNewTransition st ▸ hIn.run

theorem InRound.called (hIn : InRound h opt mc₀ mc s st tr cur)
    (hAfter : (∀ x, h.onError x = x) → ev.after = cur') :
    InRound h opt mc₀ (mc.called ev) s st tr cur' where
  mode := hIn.mode
  curr := hIn.curr
  progress := hIn.progress.congr rfl rfl rfl rfl
  popped := hIn.popped
  run := hIn.run
  gen := hIn.gen
  fresh := hIn.fresh
  test := hAfter
  reports := fun r hr => (hIn.reports r hr).imp_right fun hReport =>
    ⟨hReport.old, hReport.fresh, hReport.bug, hReport.file, hReport.event⟩

theorem InRound.noted (hIn : InRound h opt mc₀ mc s st tr cur)
    (hEvent : h.Contract → (∀ x, h.onError x = x) → ev ∈ roundEvents h st tr)
    (hChoices : ev.ret = .bug → mc.rand.choices = roundTrace opt tr) (hNoted : Noted h mc s ev m) :
    InRound h opt mc₀ m s st tr cur := by
  cases hNoted with
  | quiet => exact hIn
  | @bug old hRet hOld =>
    refine ⟨hIn.mode, hIn.curr, hIn.progress.congr rfl rfl rfl rfl, hIn.popped, hIn.run, hIn.gen,
      hIn.fresh, fun hId => ?_, ?_⟩
    · exact (hId mc.test).trans (hIn.test hId)
    · intro r hr
      rcases List.mem_append.mp hr with hr | hr
      · exact (hIn.reports r hr).imp_right fun hReport =>
          ⟨hReport.old, hReport.fresh, hReport.bug, hReport.file, hReport.event⟩
      · rw [List.mem_singleton.mp hr]
        exact .inr ⟨rfl, hIn.fresh, hRet, ⟨old, hOld, by rw [hChoices hRet]⟩, hEvent⟩

theorem InRound.ends_hook (hIn : InRound h opt mc₀ mc s st tr cur) (callback : Callback)
    (hCallback : callback ≠ .runOneTransition)
    (hEvent : h.Contract → hookEvent h callback cur ∈ roundEvents h st tr)
    (hNone : tr = none → (h.hook .beforeNewTransition st).1 ≠ .exit) :
    Ends (fun r => r.1 = (h.hook callback mc.test).1 ∧
        InRound h opt mc₀ r.2 s st tr (h.hook callback cur).2)
      (fun m => InRound h opt mc₀ m s st tr (h.hook callback cur).2 ∧ h.Buggy)
      (Untraced h opt mc₀ s st) (mc.runTest h opt callback) := by
  have hCalled : InRound h opt mc₀ (mc.called (hookEvent h callback mc.test)) s st tr
      (h.hook callback cur).2 :=
    hIn.called fun hId => by rw [hIn.test hId]; rfl
  have hNext : ∀ m, Noted h (mc.called (hookEvent h callback mc.test)) s
      (hookEvent h callback mc.test) m → InRound h opt mc₀ m s st tr (h.hook callback cur).2 := by
    intro m hNoted
    refine hCalled.noted (fun hContract hId => ?_) (fun _ => hIn.gen.choices_eq hNone) hNoted
    rw [hIn.test hId]
    exact hEvent hContract
  exact (Mcl.ends_hook hCallback hIn.mode hIn.curr).imp
    (fun r hr => ⟨hr.1, hNext r.2 hr.2⟩) (fun m hm => ⟨hNext m hm.1, hm.2⟩)
    fun hNone => ⟨mc, tr, cur, hIn, hNone⟩

theorem InRound.ends_transition (hIn : InRound h opt mc₀ mc s st none cur)
    (hTest : mc.test = (h.hook .beforeNewTransition st).2)
    (hHook : (h.hook .beforeNewTransition st).1 = .exit) (hReports : mc.reports = mc₀.reports) :
    Ends (fun r => ∃ t, r.1 = t.ret ∧ InRound h opt mc₀ r.2 s st (some t) t.after)
      (LeftRound h opt mc₀ s st) (Untraced h opt mc₀ s st)
      (mc.runTest h opt .runOneTransition) := by
  have hGen : RoundGen h opt st mc.rand := hIn.gen
  obtain ⟨t, g, score, hEv, hBefore, hRan, hRun⟩ := hGen.gen.run
  have hRand : mc.rand = mc₀.rand := hIn.run
  have hRoundRun : RoundRun h (h.hook .beforeNewTransition st).2 mc₀.rand g (some t) :=
    ⟨score, hRand ▸ hRun⟩
  rw [← hTest] at hRun
  rw [runTest_eq h opt mc (call_transition hEv (hBefore.trans hTest.symm) hRun)]
  have hAt : RoundAt h opt st g (some t) := ⟨hEv, hBefore, hHook, hRan⟩
  have hFresh : mc.fresh ++ [t] = [t] := by rw [hIn.fresh]; rfl
  have hOld : ∀ m : ModelChecker St Sig Data, ∀ r ∈ mc.reports,
      r ∈ mc₀.reports ∨ RoundReport h opt m s st (some t) r :=
    fun _ r hr => .inl (hReports ▸ hr)
  obtain ⟨hq, hCkpts, hVisited, hCalls, _⟩ := hIn.progress
  by_cases hExit : t.ret = .exit
  · -- the transition completed, and its state is looked up
    rw [process_modelCheck h opt (mc.ran t g score) hIn.mode hIn.curr]
    unfold checkReturn
    simp only [hExit, hEv.callback, if_true]
    rcases getState_cases h opt (mc.ran t g score) s t with
      ⟨hSeen, hQueue, hGet⟩ | ⟨hNew, s', m', hGet, hBorn⟩
    · rw [hGet]
      refine ⟨t, hExit.symm, hIn.mode, hIn.curr, .unchanged hq hCkpts hVisited hCalls ?_,
        hIn.popped, hRoundRun, hAt, hFresh, fun _ => rfl, hOld _⟩
      rintro _ ⟨⟩ _
      refine ⟨?_, hQueue⟩
      rw [Mcl.seen_iff] at hSeen ⊢
      rwa [← hVisited]
    · have hProgress : Progress h opt mc₀ { m' with q := push opt s' mc₀.q } s (some t) :=
        .born hBorn hCkpts hVisited hCalls rfl hRan.choices_eq hExit hNew rfl rfl rfl
      have hIn' : InRound h opt mc₀ { m' with q := push opt s' mc₀.q } s st (some t) t.after := by
        have hSame := hBorn.same
        refine ⟨?_, ?_, hProgress, ?_, ?_, ?_, ?_, fun _ => ?_, ?_⟩
        · rw [hSame]; exact hIn.mode
        · rw [hSame]; exact hIn.curr
        · rw [hSame]; exact hIn.popped
        · rw [hSame]; exact hRoundRun
        · rw [hSame]; exact hAt
        · rw [hSame]; exact hFresh
        · rw [hSame]; rfl
        · rw [hSame]; exact hOld _
      have hq' : m'.q = mc₀.q := by rw [hBorn.same]; exact hq
      rw [hGet]
      simp only
      split
      · rename_i hLimit
        exact .limit hIn' hq' hLimit.1
      · exact ⟨t, hExit.symm, by rwa [hq']⟩
  · have hRanIn : InRound h opt mc₀ (mc.ran t g score) s st (some t) t.after := by
      refine ⟨hIn.mode, hIn.curr, .unchanged hq hCkpts hVisited hCalls ?_, hIn.popped, hRoundRun,
        hAt, hFresh, fun _ => rfl, hOld _⟩
      rintro _ ⟨⟩ hContra
      exact absurd hContra hExit
    have hNext : ∀ m, Noted h (mc.ran t g score) s t m →
        InRound h opt mc₀ m s st (some t) t.after := fun m hNoted =>
      hRanIn.noted (fun _ _ => by simp [roundEvents]) (fun _ => hRan.choices_eq) hNoted
    have hEnds : Ends (Noted h (mc.ran t g score) s t)
        (fun m => Noted h (mc.ran t g score) s t m ∧ t.ret = .bug)
        ((mc.ran t g score).fullTrace s = none) ((mc.ran t g score).processTestReturn h opt t) :=
      ends_process opt hIn.mode hIn.curr fun _ => hExit
    exact (hEnds.imp hNext (fun m hm => .bug (hNext m hm.1) (.inr ⟨t, hEv, hm.2⟩))
      fun hNone => ⟨_, _, _, hRanIn, hNone⟩).map fun m hm => ⟨t, rfl, hm⟩

inductive RoundDone (h : TestHarness St Sig Data) (opt : Options)
    (mc₀ : ModelChecker St Sig Data) (s : State St Sig) (st : St) : ModelChecker St Sig Data → Prop
  | again {m : ModelChecker St Sig Data} {t : Event St} {cur : St} {g : Random}
      (hIn : InRound h opt mc₀ m s st (some t) cur) (hRepeat : m.rand.repeat = some (true, g))
      (hGen : RoundGen h opt st g) :
      RoundDone h opt mc₀ s st { m with rand := g, pc := .restore }
  | expanded {m : ModelChecker St Sig Data} {tr : Option (Event St)} {cur : St} {g : Random}
      (hIn : InRound h opt mc₀ m s st tr cur) (hRepeat : m.rand.repeat = some (false, g))
      (hNone : tr = none → (h.hook .beforeNewTransition st).1 ≠ .exit)
      (hEnum : opt.simulation = false → ∃ e, g = .enum e) :
      RoundDone h opt mc₀ s st
        { m with rand := g, curr := none, pc := if opt.simulation then .done else .top }

theorem InRound.ends_repeat {σ : Type*} {Q : σ → Prop} {F : Prop}
    (hIn : InRound h opt mc₀ m s st tr cur)
    (hNone : tr = none → (h.hook .beforeNewTransition st).1 ≠ .exit) :
    Ends (RoundDone h opt mc₀ s st) Q F (match m.rand.repeat with
      | none => .error .fail
      | some (true, rand) => .ok { m with rand := rand, pc := .restore }
      | some (false, rand) => .ok { m with
          rand := rand, curr := none, pc := if opt.simulation then .done else .top }) := by
  cases tr with
  | none =>
    have hGen : RoundGen h opt st m.rand := hIn.gen
    obtain ⟨g, hRepeat, hEnum⟩ := hGen.gen.repeat_eq
    simp only [hRepeat]
    exact .expanded hIn hRepeat hNone hEnum
  | some t =>
    obtain ⟨hEv, hBefore, hHook, hRan⟩ := hIn.gen
    obtain ⟨again, g, hRepeat, hNext, hEnum⟩ := hRan.repeat_gen hEv hBefore
    cases again with
    | true =>
      simp only [hRepeat]
      exact .again hIn hRepeat ⟨hNext rfl, fun _ => hHook⟩
    | false =>
      simp only [hRepeat]
      exact .expanded hIn hRepeat hNone (hEnum rfl)

section
variable {σ : Type*} {Q : σ → Prop} {runTest : ModelChecker St Sig Data → Callback →
    Except (Halt σ) (TestRet × ModelChecker St Sig Data)}
  -- what `run_test` promises the mode promises too, if a callback that returns is one of the round
  (hTests : ∀ {P : TestRet × ModelChecker St Sig Data → Prop} {F : Prop}
    (mc : ModelChecker St Sig Data) (callback : Callback),
    (∀ r, P r → r.1 = .exit ∨ ∃ tr cur, InRound h opt mc₀ r.2 s st tr cur ∧
      (tr = none → (h.hook .beforeNewTransition st).1 ≠ .exit)) →
    Ends P (LeftRound h opt mc₀ s st) F (mc.runTest h opt callback) →
    Ends P Q F (runTest mc callback))
  (hMode : mc₀.mode = .modelCheck) (hCurr : mc₀.curr = some s) (hTest : mc₀.test = st)
  (hGen : RoundGen h opt st mc₀.rand)
include hTests

theorem InRound.ends_hookBy (hIn : InRound h opt mc₀ mc s st tr cur) (callback : Callback)
    (hCallback : callback ≠ .runOneTransition)
    (hEvent : h.Contract → hookEvent h callback cur ∈ roundEvents h st tr)
    (hNone : tr = none → (h.hook .beforeNewTransition st).1 ≠ .exit) :
    Ends (fun r => r.1 = (h.hook callback mc.test).1 ∧
        InRound h opt mc₀ r.2 s st tr (h.hook callback cur).2)
      Q (Untraced h opt mc₀ s st) (runTest mc callback) := by
  have hHook := hIn.ends_hook callback hCallback hEvent hNone
  exact hTests mc callback (fun r hr => .inr ⟨tr, _, hr.2, hNone⟩)
    (hHook.imp (fun _ => id) (fun m hm => .bug hm.1 hm.2) id)

include hMode hCurr hTest hGen

theorem ends_newTransitionBy :
    Ends (fun m => ∃ tr, InRound h opt mc₀ m s st tr (roundState h st tr) ∧
        (tr = none → (h.hook .beforeNewTransition st).1 ≠ .exit))
      Q (Untraced h opt mc₀ s st) (mc₀.newRound.newTransitionBy runTest) := by
  have hStart : InRound h opt mc₀ mc₀.newRound s st none st :=
    ⟨hMode, hCurr, .unchanged rfl rfl rfl rfl (by simp), rfl, rfl, hGen, rfl, fun _ => hTest,
      fun _ hr => .inl hr⟩
  subst hTest
  unfold newTransitionBy
  by_cases hHook : (h.hook .beforeNewTransition mc₀.test).1 = .exit
  · have hFirst := runTest_hook_exit h opt mc₀.newRound (by decide) hMode hCurr hHook
    refine Ends.bind (hTests mc₀.newRound .beforeNewTransition
      (P := fun r => r = (.exit, mc₀.newRound.called (hookEvent h .beforeNewTransition mc₀.test)))
      (fun r hr => .inl (hr ▸ rfl)) (by rw [hFirst]; exact rfl)) ?_
    rintro _ rfl
    have hNext : InRound h opt mc₀ (mc₀.newRound.called (hookEvent h .beforeNewTransition mc₀.test))
        s mc₀.test none (h.hook .beforeNewTransition mc₀.test).2 := hStart.called fun _ => rfl
    rw [if_pos rfl]
    refine Ends.bind (hTests _ _ ?_ (hNext.ends_transition rfl hHook rfl)) ?_
    · rintro r ⟨t, _, hIn⟩
      exact .inr ⟨some t, _, hIn, by simp⟩
    rintro ⟨ret, m⟩ ⟨t, rfl, hIn⟩
    by_cases hExit : t.ret = .exit
    · simp only [hExit, if_true]
      refine (hIn.ends_hookBy hTests .afterNewTransition (by decide)
        (fun _ => by simp [roundEvents, hExit]) (by simp)).map ?_
      rintro ⟨_, m⟩ ⟨_, hIn⟩
      exact ⟨some t, by simpa [roundState, stateAfter, hExit] using hIn, by simp⟩
    · simp only [hExit, if_false]
      exact ⟨some t, by simpa [roundState, stateAfter, hExit] using hIn, by simp⟩
  · refine Ends.bind (hStart.ends_hookBy hTests .beforeNewTransition (by decide)
      (fun _ => by simp [roundEvents]) fun _ => hHook) ?_
    rintro ⟨ret, m⟩ ⟨hRet, hIn⟩
    have hNe : ret ≠ .exit := fun hEq => hHook (hRet.symm.trans hEq)
    rw [if_neg hNe]
    exact ⟨none, hIn, fun _ => hHook⟩

theorem ends_roundBy :
    Ends (RoundDone h opt mc₀ s st) Q (Untraced h opt mc₀ s st) (mc₀.roundBy opt runTest) := by
  refine Ends.bind (ends_newTransitionBy hTests hMode hCurr hTest hGen) ?_
  rintro m ⟨tr, hIn, hNone⟩
  refine Ends.bind (hIn.ends_hookBy hTests .afterTransitions (by decide)
    (fun hContract => hookEvent_afterTransitions_mem hContract st tr) hNone) ?_
  rintro ⟨ret, m⟩ ⟨_, hIn⟩
  exact hIn.ends_repeat hNone

end

theorem ends_stepFresh (hMode : mc₀.mode = .modelCheck) (hCurr : mc₀.curr = some s)
    (hTest : mc₀.test = st) (hGen : RoundGen h opt st mc₀.rand) :
    Ends (RoundDone h opt mc₀ s st) (LeftRound h opt mc₀ s st) (Untraced h opt mc₀ s st)
      (mc₀.stepFresh h opt) :=
  ends_roundBy (fun _ _ _ => id) hMode hCurr hTest hGen

end Explode.Mcl
