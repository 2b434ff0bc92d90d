import Explode.Mcl.SetState

/-!
# The chains of checkpoints

The traces along the parents of a checkpoint, and then the trace of a state,
spell out the choices recorded on the path by which the state was reached.
-/

namespace Explode.Mcl

open ChoiceTree Machine EnumRandom ModelChecker

variable {St Sig Data : Type*} (h : TestHarness St Sig Data) (opt : Options)

def choicesAlong (evs : List (Event St)) : Trace := evs.flatMap (newTrace opt)

/-- The chain of checkpoints and the trace of the state spell out its path, which is made of
completed transitions and ends with the signature of the state. -/
structure Spelled (ckpts : Nat → Option (Checkpoint Data)) (s : State St Sig) : Prop where
  chained : ∃ pre, Chained ckpts s.start pre ∧ pre ++ s.trace = choicesAlong opt s.path
  transitions : ∀ ev ∈ s.path, IsTransition h ev ∧ ev.ret = .exit
  sig : s.sig = h.getSig ((s.path.getLast?.map Event.after).getD h.init)

/-- The loop of `replay`, started in a state with a generator, ends in a state. -/
inductive Regenerates : St → Random → St → Prop
  | last {st : St} {g g' g'' : Random} {calls : Calls} {out : Outcome St}
      (hRun : (h.runOneTransition st).1.run Random.random g = some (calls, out, g'))
      (hRepeat : g'.repeat = some (false, g'')) : Regenerates st g out.state
  | more {st st' : St} {g g' g'' : Random} {calls : Calls} {out : Outcome St}
      (hRun : (h.runOneTransition st).1.run Random.random g = some (calls, out, g'))
      (hRepeat : g'.repeat = some (true, g'')) (hRest : Regenerates out.state g'' st') :
      Regenerates st g st'

/-- The state that `set_state` leaves the harness in. -/
def SetTo (ckpts : Nat → Option (Checkpoint Data)) (s : State St Sig) (st : St) : Prop :=
  ∃ ckpt old base, ckpts s.start = some ckpt ∧
    base = (h.hook .beforeTransitions (h.restore ckpt.data old)).2 ∧
    if s.trace = [] then st = base else Regenerates h base (.replay (.load s.trace)) st

/-- What is restored depends on the checkpoint alone. -/
def TestHarness.RestoresAlike : Prop :=
  ∀ data st st', h.restore data st = h.restore data st'

variable {h opt}

section
variable {ckpts : Nat → Option (Checkpoint Data)} {s : State St Sig}

theorem Regenerates.unique {st a b : St} {g : Random} (ha : Regenerates h st g a)
    (hb : Regenerates h st g b) : a = b := by
  induction ha with
  | last hRun hRepeat =>
    cases hb with
    | last hRun' _ =>
      cases hRun.symm.trans hRun'
      rfl
    | more hRun' hRepeat' _ =>
      cases hRun.symm.trans hRun'
      cases hRepeat.symm.trans hRepeat'
  | more hRun hRepeat _ ih =>
    cases hb with
    | last hRun' hRepeat' =>
      cases hRun.symm.trans hRun'
      cases hRepeat.symm.trans hRepeat'
    | more hRun' hRepeat' hRest =>
      cases hRun.symm.trans hRun'
      cases hRepeat.symm.trans hRepeat'
      exact ih hRest

theorem SetTo.unique (hAlike : h.RestoresAlike) {a b : St} (ha : SetTo h ckpts s a)
    (hb : SetTo h ckpts s b) : a = b := by
  obtain ⟨ckpt, old, _, hCkpt, rfl, ha⟩ := ha
  obtain ⟨ckpt', old', _, hCkpt', rfl, hb⟩ := hb
  obtain rfl := Option.some.inj (hCkpt.symm.trans hCkpt')
  rw [hAlike ckpt.data old' old] at hb
  split_ifs at ha hb
  · exact ha.trans hb.symm
  · exact ha.unique hb

theorem SetTo.mono {ckpts' : Nat → Option (Checkpoint Data)}
    (hSame : ckpts' s.start = ckpts s.start) {st : St} (hSet : SetTo h ckpts' s st) :
    SetTo h ckpts s st := by
  obtain ⟨ckpt, old, base, hCkpt, hRest⟩ := hSet
  exact ⟨ckpt, old, base, hSame ▸ hCkpt, hRest⟩

theorem Spelled.mono {ckpts' : Nat → Option (Checkpoint Data)}
    (hKept : ∀ id ckpt, ckpts id = some ckpt → ckpts' id = some ckpt)
    (hSpelled : Spelled h opt ckpts s) : Spelled h opt ckpts' s := by
  obtain ⟨⟨pre, hChained, hTrace⟩, hPath, hSig⟩ := hSpelled
  exact ⟨⟨pre, hChained.mono hKept, hTrace⟩, hPath, hSig⟩

theorem Spelled.fullTrace_eq {mc : ModelChecker St Sig Data} (hSpelled : Spelled h opt mc.ckpts s) :
    mc.fullTrace s = some (choicesAlong opt s.path) := by
  obtain ⟨pre, hChained, hTrace⟩ := hSpelled.chained
  obtain ⟨ids, traces, hChain, hTraces, rfl⟩ := hChained.chain (s.start + 1) (Nat.lt_succ_self _)
  simp [fullTrace, hChain, hTraces, hTrace]

end

variable [DecidableEq Sig] {mc mc₀ m mc' : ModelChecker St Sig Data} {s s' : State St Sig}
  {st cur : St} {tr : Option (Event St)} {ev : Event St}

theorem Born.spelled (hBorn : Born h m s ev s' mc') (hSpelled : Spelled h opt m.ckpts s)
    (hUnder : CkptsUnder m) (hChoices : m.rand.choices = newTrace opt ev)
    (hEv : IsTransition h ev) (hExit : ev.ret = .exit) (hTest : m.test = ev.after) :
    Spelled h opt mc'.ckpts s' := by
  obtain ⟨⟨pre, hChained, hTrace⟩, hTransitions, _⟩ := hSpelled
  have hKept := (hBorn.extends hUnder).ckpts
  refine ⟨?_, fun t ht => ?_, ?_⟩
  · have hPath : choicesAlong opt s'.path = pre ++ (s.trace ++ m.rand.choices) := by
      rw [hBorn.path, ← List.append_assoc, hTrace, hChoices]
      simp [choicesAlong]
    obtain ⟨_, hStart, hNil, hCkpts⟩ | ⟨_, hStart, hCons, hCkpts⟩ := hBorn.start
    · obtain ⟨ckpt, hCkpt⟩ := hChained.exists_ckpt
      have hOwn : mc'.ckpts m.numStates =
          some ⟨h.checkpoint m.test, s.start, s.trace ++ m.rand.choices⟩ := by
        rw [hCkpts, Function.update_self]
      refine ⟨_, ?_, by rw [hNil, List.append_nil, hPath]⟩
      rw [hStart]
      exact .next (hChained.mono hKept) (hUnder _ _ hCkpt) hOwn rfl
    · refine ⟨pre, ?_, by rw [hCons, hPath]⟩
      rw [hStart]
      exact hChained.mono hKept
  · rw [hBorn.path] at ht
    obtain ht | ht := List.mem_append.mp ht
    · exact hTransitions t ht
    · obtain rfl := List.mem_singleton.mp ht
      exact ⟨hEv, hExit⟩
  · rw [hBorn.sig, hBorn.path, hTest]
    simp

structure Spells (h : TestHarness St Sig Data) (opt : Options) (mc : ModelChecker St Sig Data) :
    Prop where
  under : CkptsUnder mc
  queued : ∀ s ∈ mc.q, Spelled h opt mc.ckpts s
  reports : ∀ r ∈ mc.reports,
    r.file = printTrace (choicesAlong opt r.old) (choicesAlong opt r.fresh)

theorem Progress.ckptsUnder (hQueue : opt.queue ≠ .priority) (hProgress : Progress h opt mc₀ m s tr)
    (hUnder : CkptsUnder mc₀) : CkptsUnder m := by
  have hBelow : CkptsBelow opt mc₀ := fun id ckpt hCkpt =>
    ⟨Nat.le_of_lt (hUnder id ckpt hCkpt), fun _ => hUnder id ckpt hCkpt⟩
  exact (hProgress.ckptsBelow hBelow).under hQueue

theorem Progress.spelled (hProgress : Progress h opt mc₀ m s tr) (hUnder : CkptsUnder mc₀)
    (hEv : ∀ t ∈ tr, IsTransition h t) (hSpelled : Spelled h opt mc₀.ckpts s)
    (hQueued : ∀ s ∈ mc₀.q, Spelled h opt mc₀.ckpts s) :
    ∀ s ∈ m.q, Spelled h opt m.ckpts s := by
  have hKept := hProgress.kept hUnder
  cases hProgress with
  | unchanged hq _ _ _ _ =>
    rw [hq]
    exact fun s hs => (hQueued s hs).mono hKept
  | @born t s' m₁ m' hBorn hCkpts₀ hVisited₀ _ hTest hChoices hExit _ hCkpts _ hq =>
    intro s₁ hs₁
    rw [hq, mem_push_iff] at hs₁
    obtain rfl | hs₁ := hs₁
    · have hUnder₁ : CkptsUnder m₁ := hUnder.congr hCkpts₀ hVisited₀
      rw [hCkpts]
      exact hBorn.spelled (hCkpts₀ ▸ hSpelled) hUnder₁ hChoices (hEv t rfl) hExit hTest
    · exact (hQueued s₁ hs₁).mono hKept

theorem choicesAlong_toList (opt : Options) (tr : Option (Event St)) :
    choicesAlong opt tr.toList = roundTrace opt tr := by
  cases tr with
  | none => rfl
  | some t => simp [choicesAlong, roundTrace]

theorem InRound.spells (hQueue : opt.queue ≠ .priority) (hIn : InRound h opt mc₀ m s st tr cur)
    (hSpells : Spells h opt mc₀) (hSpelled : Spelled h opt mc₀.ckpts s) :
    Spells h opt m ∧ Spelled h opt m.ckpts s := by
  have hSelf := hSpelled.mono (hIn.progress.kept hSpells.under)
  have hEv : ∀ t ∈ tr, IsTransition h t := by
    rintro t rfl
    exact hIn.gen.1
  refine ⟨⟨hIn.progress.ckptsUnder hQueue hSpells.under,
    hIn.progress.spelled hSpells.under hEv hSpelled hSpells.queued, fun r hr => ?_⟩, hSelf⟩
  obtain hr | hReport := hIn.reports r hr
  · exact hSpells.reports r hr
  · obtain ⟨old, hFull, hFile⟩ := hReport.file
    rw [hSelf.fullTrace_eq] at hFull
    rw [hFile, hReport.old, hReport.fresh, Option.some.inj hFull, choicesAlong_toList]

inductive Stands (h : TestHarness St Sig Data) (opt : Options) (mc : ModelChecker St Sig Data) :
    Prop
  | top (hPc : mc.pc = .top) (hMode : mc.mode = .modelCheck)
      (hGen : ∀ st, RoundGen h opt st mc.rand.reset)
  | restore {s : State St Sig} (hPc : mc.pc = .restore) (hMode : mc.mode = .modelCheck)
      (hCurr : mc.curr = some s) (hSpelled : Spelled h opt mc.ckpts s)
      (hGen : ∀ st, SetTo h mc.ckpts s st → RoundGen h opt st mc.rand)
  | regen {s : State St Sig} (hPc : mc.pc = .regen) (hMode : mc.mode = .regenState)
      (hCurr : mc.curr = some s) (hSpelled : Spelled h opt mc.ckpts s)
      (hGen : ∀ st, SetTo h mc.ckpts s st → RoundGen h opt st mc.oldr)
      (hRest : ∀ st, Regenerates h mc.test mc.rand st → SetTo h mc.ckpts s st)
  | fresh {s : State St Sig} (hPc : mc.pc = .fresh) (hMode : mc.mode = .modelCheck)
      (hCurr : mc.curr = some s) (hSpelled : Spelled h opt mc.ckpts s)
      (hSet : SetTo h mc.ckpts s mc.test) (hGen : RoundGen h opt mc.test mc.rand)
  | stopped (hPc : mc.pc = .done ∨ mc.pc = .exited)

theorem ends_regen_hook (hMode : mc.mode = .regenState) (hCurr : mc.curr = some s)
    {callback : Callback} (hCallback : callback ≠ .runOneTransition) :
    Ends (fun r => r.2 = mc.called (hookEvent h callback mc.test)) (fun _ => False) True
      (mc.runTest h opt callback) := by
  rw [runTest_eq h opt mc (call_hook h mc hCallback),
    process_regenState h opt (mc.called (hookEvent h callback mc.test)) hMode hCurr, regenReturn]
  split
  · split
    · trivial
    · rfl
  · trivial

theorem ends_regen_transition (hMode : mc.mode = .regenState) (hCurr : mc.curr = some s) :
    Ends (fun r => ∃ ev calls out g, (h.runOneTransition mc.test).1.run Random.random mc.rand =
        some (calls, out, g) ∧ ev.after = out.state ∧ r.2 = mc.ran ev g out.score)
      (fun _ => False) True (mc.runTest h opt .runOneTransition) := by
  cases hRun : (h.runOneTransition mc.test).1.run Random.random mc.rand with
  | none =>
    simp only [runTest, call, hRun, Option.map_none]
    trivial
  | some r =>
    obtain ⟨calls, out, g⟩ := r
    have hCall : mc.call h .runOneTransition =
        some (⟨.runOneTransition, mc.test, calls, out.ret, out.state⟩,
          mc.ran ⟨.runOneTransition, mc.test, calls, out.ret, out.state⟩ g out.score) := by
      simp [call, hRun]
    rw [runTest_eq h opt mc hCall, process_regenState h opt (mc.ran _ g out.score) hMode hCurr,
      regenReturn]
    split
    · split
      · trivial
      · exact ⟨_, calls, out, g, rfl, rfl, rfl⟩
    · trivial

def Sound (h : TestHarness St Sig Data) (opt : Options) (mc : ModelChecker St Sig Data) : Prop :=
  Stands h opt mc ∧ Spells h opt mc

omit [DecidableEq Sig] in
theorem Spells.congr (hSpells : Spells h opt mc) (hq : ∀ s ∈ m.q, s ∈ mc.q)
    (hCkpts : m.ckpts = mc.ckpts) (hVisited : m.visited = mc.visited)
    (hReports : m.reports = mc.reports) : Spells h opt m where
  under := hSpells.under.congr hCkpts hVisited
  queued s hs := by
    rw [hCkpts]
    exact hSpells.queued s (hq s hs)
  reports r hr := hSpells.reports r (hReports ▸ hr)

theorem ends_restoreCkpt (hCurr : mc.curr = some s') :
    Ends (fun next => ∃ ckpt, mc.ckpts s.start = some ckpt ∧
        next = mc.called (hookEvent h .beforeTransitions (h.restore ckpt.data mc.test)))
      (fun _ => False) True (mc.restoreCkpt h opt s) := by
  unfold restoreCkpt
  cases hCkpt : mc.ckpts s.start with
  | none => trivial
  | some ckpt =>
    have hMode : (mc.regenerating (h.restore ckpt.data mc.test)).mode = .regenState := rfl
    refine (ends_regen_hook hMode hCurr (by decide)).map fun r hr => ⟨ckpt, rfl, ?_⟩
    rw [hr]
    rfl

theorem ends_sound_restore (hSpells : Spells h opt mc) (hMode : mc.mode = .modelCheck)
    (hCurr : mc.curr = some s) (hSpelled : Spelled h opt mc.ckpts s)
    (hGen : ∀ st, SetTo h mc.ckpts s st → RoundGen h opt st mc.rand) :
    Ends (Sound h opt) (fun _ => False) True (mc.stepRestore h opt s) := by
  refine (ends_restoreCkpt hCurr).map ?_
  rintro next ⟨ckpt, hCkpt, rfl⟩
  split_ifs with hNil
  · have hSet : SetTo h mc.ckpts s (h.hook .beforeTransitions (h.restore ckpt.data mc.test)).2 :=
      ⟨ckpt, mc.test, _, hCkpt, rfl, by rw [if_pos hNil]⟩
    exact ⟨.fresh rfl hMode hCurr hSpelled hSet (hGen _ hSet),
      hSpells.congr (fun _ => id) rfl rfl rfl⟩
  · refine ⟨.regen rfl rfl hCurr hSpelled hGen fun st hRest => ?_,
      hSpells.congr (fun _ => id) rfl rfl rfl⟩
    exact ⟨ckpt, mc.test, _, hCkpt, rfl, by rwa [if_neg hNil]⟩

theorem ends_sound_regen (hSpells : Spells h opt mc) (hPc : mc.pc = .regen)
    (hMode : mc.mode = .regenState) (hCurr : mc.curr = some s) (hSpelled : Spelled h opt mc.ckpts s)
    (hGen : ∀ st, SetTo h mc.ckpts s st → RoundGen h opt st mc.oldr)
    (hRest : ∀ st, Regenerates h mc.test mc.rand st → SetTo h mc.ckpts s st) :
    Ends (Sound h opt) (fun _ => False) True (mc.stepRegen h opt) := by
  refine Ends.bind (ends_regen_transition hMode hCurr) ?_
  rintro ⟨ret, _⟩ ⟨ev, calls, out, g, hRun, hAfter, rfl⟩
  cases hRepeat : (mc.ran ev g out.score).rand.repeat with
  | none => trivial
  | some r =>
    obtain ⟨again, g'⟩ := r
    cases again with
    | true =>
      refine ⟨.regen hPc hMode hCurr hSpelled hGen fun st hMore => hRest st ?_,
        hSpells.congr (fun _ => id) rfl rfl rfl⟩
      exact .more hRun hRepeat (by rwa [← hAfter])
    | false =>
      have hSet : SetTo h mc.ckpts s ev.after := by
        rw [hAfter]
        exact hRest _ (.last hRun hRepeat)
      exact ⟨.fresh rfl rfl hCurr hSpelled hSet (hGen _ hSet),
        hSpells.congr (fun _ => id) rfl rfl rfl⟩

theorem ends_sound_fresh (hAlike : h.RestoresAlike) (hQueue : opt.queue ≠ .priority)
    (hSpells : Spells h opt mc) (hMode : mc.mode = .modelCheck) (hCurr : mc.curr = some s)
    (hSpelled : Spelled h opt mc.ckpts s) (hSet : SetTo h mc.ckpts s mc.test)
    (hGen : RoundGen h opt mc.test mc.rand) :
    Ends (Sound h opt) (fun m => Sound h opt { m with pc := .exited }) True
      (mc.stepFresh h opt) := by
  refine (ends_stepFresh hMode hCurr rfl hGen).imp ?_ ?_ fun _ => trivial
  · intro m hDone
    cases hDone with
    | @again m t cur g hIn _ hGen' =>
      obtain ⟨hSpells', hSpelled'⟩ := hIn.spells hQueue hSpells hSpelled
      refine ⟨.restore rfl hIn.mode hIn.curr hSpelled' fun st hSet' => ?_,
        hSpells'.congr (fun _ => id) rfl rfl rfl⟩
      -- the state is set from the same checkpoint as before
      obtain ⟨pre, hChained, _⟩ := hSpelled.chained
      obtain ⟨ckpt, hCkpt⟩ := hChained.exists_ckpt
      have hSame : m.ckpts s.start = mc.ckpts s.start := by
        rw [hCkpt, hIn.progress.kept hSpells.under _ _ hCkpt]
      rw [(hSet'.mono hSame).unique hAlike hSet]
      exact hGen'
    | expanded hIn _ _ hEnum =>
      obtain ⟨hSpells', _⟩ := hIn.spells hQueue hSpells hSpelled
      refine ⟨?_, hSpells'.congr (fun _ => id) rfl rfl rfl⟩
      cases hSim : opt.simulation with
      | true => exact .stopped (.inl (by simp))
      | false =>
        obtain ⟨e, rfl⟩ := hEnum hSim
        exact .top (by simp) hIn.mode (roundGen_reset hSim e)
  · intro m hLeft
    cases hLeft with
    | bug hIn _ =>
      obtain ⟨hSpells', _⟩ := hIn.spells hQueue hSpells hSpelled
      exact ⟨.stopped (.inr rfl), hSpells'.congr (fun _ => id) rfl rfl rfl⟩
    | limit hIn hq _ =>
      obtain ⟨hSpells', _⟩ := hIn.spells hQueue hSpells hSpelled
      refine ⟨.stopped (.inr rfl), hSpells'.under, fun s₁ hs₁ => ?_, hSpells'.reports⟩
      have hs₀ : s₁ ∈ mc.q := hq ▸ hs₁
      exact (hSpells.queued s₁ hs₀).mono (hIn.progress.kept hSpells.under)

theorem Sound.ends_body (hAlike : h.RestoresAlike) (hQueue : opt.queue ≠ .priority)
    (hSound : Sound h opt mc) :
    Ends (Sound h opt) (fun m => Sound h opt { m with pc := .exited }) True (mc.body h opt) := by
  obtain ⟨hStands, hSpells⟩ := hSound
  cases hStands with
  | top hPc hMode hGen =>
    rw [body, hPc]
    cases hq : mc.q with
    | nil => exact ⟨.stopped (.inl rfl), hSpells.congr (by simp) rfl rfl rfl⟩
    | cons s q =>
      have hSpelled := hSpells.queued s (hq ▸ List.mem_cons_self)
      refine ⟨.restore rfl hMode rfl hSpelled fun st _ => hGen st, ?_⟩
      exact hSpells.congr (fun _ hs => hq ▸ List.mem_cons_of_mem s hs) rfl rfl rfl
  | @restore s hPc hMode hCurr hSpelled hGen =>
    have hBody : mc.body h opt = mc.stepRestore h opt s := by rw [body, hPc, hCurr]
    rw [hBody]
    exact (ends_sound_restore hSpells hMode hCurr hSpelled hGen).imp (fun _ => id)
      (fun _ hFalse => hFalse.elim) id
  | regen hPc hMode hCurr hSpelled hGen hRest =>
    have hBody : mc.body h opt = mc.stepRegen h opt := by rw [body, hPc]
    rw [hBody]
    exact (ends_sound_regen hSpells hPc hMode hCurr hSpelled hGen hRest).imp (fun _ => id)
      (fun _ hFalse => hFalse.elim) id
  | fresh hPc hMode hCurr hSpelled hSet hGen =>
    have hBody : mc.body h opt = mc.stepFresh h opt := by rw [body, hPc]
    rw [hBody]
    exact ends_sound_fresh hAlike hQueue hSpells hMode hCurr hSpelled hSet hGen
  | stopped hPc =>
    have hBody : mc.body h opt = .ok mc := by
      obtain hPc | hPc := hPc
      · rw [body, hPc]
      · rw [body, hPc]
    rw [hBody]
    exact ⟨.stopped hPc, hSpells⟩

theorem Sound.step (hAlike : h.RestoresAlike) (hQueue : opt.queue ≠ .priority)
    (hSound : Sound h opt mc) (hStep : mc.step h opt = some mc') : Sound h opt mc' := by
  have hEnds := hSound.ends_body hAlike hQueue
  obtain hOk | ⟨m, hExit, rfl⟩ := step_eq_some hStep
  · rwa [hOk] at hEnds
  · rwa [hExit] at hEnds

theorem sound_modelCheck (h : TestHarness St Sig Data) (opt : Options)
    (hQueue : opt.queue ≠ .priority) : Sound h opt (modelCheck h opt) := by
  have hInv := inv_modelCheck h opt
  constructor
  · exact .top rfl rfl (roundGen_modelCheck h opt)
  · refine ⟨hInv.below.under hQueue, fun s hs => ?_, List.forall_mem_nil _⟩
    rw [modelCheck_q, List.mem_singleton] at hs
    subst hs
    exact ⟨⟨[], .init (modelCheck_ckpts h opt 0) rfl, rfl⟩, List.forall_mem_nil _, rfl⟩

theorem head?_ckptChain {ckpts : Nat → Option (Checkpoint Data)} {fuel id : Nat} {ids : List Nat}
    (hChain : ckptChain ckpts fuel id = some ids) : ids.head? = some 0 := by
  induction fuel generalizing id ids with
  | zero => cases hChain
  | succ fuel ih =>
    cases id with
    | zero =>
      obtain rfl := Option.some.inj hChain
      rfl
    | succ id =>
      obtain ⟨ckpt, _, hRest⟩ := Option.bind_eq_some_iff.mp hChain
      obtain ⟨ids', hIds, rfl⟩ := Option.map_eq_some_iff.mp hRest
      rw [List.head?_append, ih hIds]
      rfl

/-- Over any harness whose restored states depend on the checkpoint alone, the chain of every queued
state ends at the initial checkpoint and spells out the path of the state. -/
theorem chains_spell_paths (hAlike : h.RestoresAlike) (hQueue : opt.queue ≠ .priority)
    (hReach : Reaches (step h opt) (modelCheck h opt) mc) :
    (∀ s ∈ mc.q, ∃ ids traces, ckptChain mc.ckpts (s.start + 1) s.start = some ids ∧
      ids.head? = some 0 ∧ (ids.mapM fun id => (mc.ckpts id).map Checkpoint.trace) = some traces ∧
      traces.flatten ++ s.trace = choicesAlong opt s.path ∧
      (∀ ev ∈ s.path, IsTransition h ev ∧ ev.ret = .exit) ∧
      s.sig = h.getSig ((s.path.getLast?.map Event.after).getD h.init)) ∧
    ∀ r ∈ mc.reports,
      loadTraceFile r.file = some (choicesAlong opt r.old, choicesAlong opt r.fresh) := by
  obtain ⟨n, hRun⟩ := hReach
  have hStep : ∀ a b : ModelChecker St Sig Data, Sound h opt a → step h opt a = some b → True →
      Sound h opt b := fun _ _ ha hab _ => ha.step hAlike hQueue hab
  obtain ⟨_, hSpells⟩ := steps_invariant hStep (sound_modelCheck h opt hQueue) n
    (fun _ _ _ _ _ _ => trivial) hRun
  refine ⟨fun s hs => ?_, fun r hr => ?_⟩
  · obtain ⟨⟨pre, hChained, hTrace⟩, hPath, hSig⟩ := hSpells.queued s hs
    obtain ⟨ids, traces, hChain, hTraces, rfl⟩ := hChained.chain (s.start + 1) (Nat.lt_succ_self _)
    exact ⟨ids, traces, hChain, head?_ckptChain hChain, hTraces, hTrace, hPath, hSig⟩
  · rw [hSpells.reports r hr]
    exact loadTraceFile_printTrace _ _

/-- Counts up to two and checkpoints the state in the middle. -/
def keptSteps : TestHarness Nat Nat Nat :=
  { binarySteps with
    runOneTransition := fun st => ⟨.choose 2 fun c => .done ⟨.exit, (st + c) % 3, 0⟩,
      by decide, fun _ _ => trivial⟩
    shouldCheckpoint := fun _ st => st = 1
    checkpoint := id
    restore := fun data _ => data }

/-- The third state is in the queue. It starts from the checkpoint of the second one. -/
theorem chains_spell_paths_keptSteps :
    ∃ mc s ids traces, Reaches (step keptSteps bfsOptions) (modelCheck keptSteps bfsOptions) mc ∧
      mc.q = [s] ∧ s.start = 1 ∧ ckptChain mc.ckpts (s.start + 1) s.start = some ids ∧
      ids.head? = some 0 ∧ (ids.mapM fun id => (mc.ckpts id).map Checkpoint.trace) = some traces ∧
      traces.flatten ++ s.trace = choicesAlong bfsOptions s.path := by
  have hRun : ((steps (step keptSteps bfsOptions) 10 (modelCheck keptSteps bfsOptions)).map
      fun mc => mc.q.map State.start) = some [1] := by decide
  obtain ⟨mc, hSteps, hStarts⟩ := Option.map_eq_some_iff.mp hRun
  obtain ⟨s, hq, hStart⟩ := List.map_eq_singleton_iff.mp hStarts
  have hReach : Reaches (step keptSteps bfsOptions) (modelCheck keptSteps bfsOptions) mc :=
    ⟨10, hSteps⟩
  obtain ⟨hChains, _⟩ :=
    chains_spell_paths (fun _ _ _ => rfl) (by decide : bfsOptions.queue ≠ _) hReach
  obtain ⟨ids, traces, hChain, hHead, hTraces, hTrace, _⟩ :=
    hChains s (hq ▸ List.mem_singleton.mpr rfl)
  exact ⟨mc, s, ids, traces, hReach, hq, hStart, hChain, hHead, hTraces, hTrace⟩

end Explode.Mcl
