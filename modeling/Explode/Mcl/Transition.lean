import Explode.Mcl.ModelChecker

/-!
# Transitions of a harness

What the checker needs of a harness to re-create its states, the transitions
from one state to another with the choices they record, and the generators of
a search round before and after the transition of the round.
-/

namespace Explode.Mcl

open ChoiceTree Machine EnumRandom

variable {St Sig Data : Type*} (h : TestHarness St Sig Data)

/-- The states that a search may checkpoint. -/
def TestHarness.Checkpointed (st : St) : Prop :=
  st = h.init ∨ ∃ asked, h.shouldCheckpoint asked st = true

/-- A restored checkpoint is the checkpointed state, and the callbacks that run before a
transition leave the state alone. A harness that never checkpoints restores the initial state. -/
structure TestHarness.Contract : Prop where
  restore_checkpoint : ∀ st st', h.Checkpointed st → h.restore (h.checkpoint st) st' = st
  beforeTransitions : ∀ st, h.hook .beforeTransitions st = (.exit, st)
  beforeNewTransition : ∀ st, (h.hook .beforeNewTransition st).2 = st

/-- A harness without checkpoints creates the initial state again. -/
theorem TestHarness.restores_of_stateless {h : TestHarness St Sig Data}
    (hNever : ∀ asked st, h.shouldCheckpoint asked st = false)
    (hRestore : ∀ data st, h.restore data st = h.init) (st st' : St) (hAsked : h.Checkpointed st) :
    h.restore (h.checkpoint st) st' = st := by
  rcases hAsked with rfl | ⟨asked, hAsked⟩
  · exact hRestore _ _
  · rw [hNever] at hAsked
    cases hAsked

structure IsTransition (ev : Event St) : Prop where
  callback : ev.callback = .runOneTransition
  path : ∃ score, (h.runOneTransition ev.before).1.IsPath ev.calls ⟨ev.ret, ev.after, score⟩

inductive Transitions : St → List (Event St) → St → Prop
  | nil (st : St) : Transitions st [] st
  | cons {ev : Event St} {evs : List (Event St)} {st : St} (hEv : IsTransition h ev)
      (hExit : ev.ret = .exit) (hRest : Transitions ev.after evs st) :
      Transitions ev.before (ev :: evs) st

def traceOf (evs : List (Event St)) : Trace :=
  evs.flatMap fun ev => choicesOf (recorded ev.calls)

def sigsOf (evs : List (Event St)) : List Sig :=
  h.getSig h.init :: evs.map fun ev => h.getSig ev.after

section
variable {h}

theorem IsTransition.inRange {ev : Event St} (hEv : IsTransition h ev) : InRange ev.calls := by
  obtain ⟨score, hPath⟩ := hEv.path
  exact inRange_of_isPath (h.runOneTransition ev.before).2 hPath

theorem Transitions.append {a b c : St} {evs evs' : List (Event St)}
    (hFirst : Transitions h a evs b) (hRest : Transitions h b evs' c) :
    Transitions h a (evs ++ evs') c := by
  induction hFirst with
  | nil => exact hRest
  | cons hEv hExit _ ih => exact .cons hEv hExit (ih hRest)

theorem Transitions.singleton {ev : Event St} (hEv : IsTransition h ev) (hExit : ev.ret = .exit) :
    Transitions h ev.before [ev] ev.after :=
  .cons hEv hExit (.nil _)

theorem Transitions.mem {a b : St} {evs : List (Event St)} (hEvs : Transitions h a evs b)
    {ev : Event St} (hMem : ev ∈ evs) : IsTransition h ev ∧ ev.ret = .exit := by
  induction hEvs with
  | nil => cases hMem
  | cons hEv hExit _ ih =>
    rcases List.mem_cons.mp hMem with rfl | hMem
    · exact ⟨hEv, hExit⟩
    · exact ih hMem

theorem Transitions.eq_of_nil {a b : St} (hEvs : Transitions h a [] b) : a = b := by
  cases hEvs
  rfl

theorem Transitions.eq_before {a b : St} {ev : Event St} {evs : List (Event St)}
    (hEvs : Transitions h a (ev :: evs) b) : a = ev.before := by
  cases hEvs
  rfl

theorem Transitions.after {ran todo : List (Event St)} {ev : Event St} {a b : St}
    (hEvs : Transitions h a (ran ++ ev :: todo) b) : Transitions h ev.after todo b := by
  induction ran generalizing a with
  | nil =>
    cases hEvs with
    | cons _ _ hRest => exact hRest
  | cons first ran ih =>
    cases hEvs with
    | cons _ _ hRest => exact ih hRest

@[simp] theorem traceOf_nil : traceOf ([] : List (Event St)) = [] := rfl

@[simp] theorem traceOf_cons (ev : Event St) (evs : List (Event St)) :
    traceOf (ev :: evs) = choicesOf (recorded ev.calls) ++ traceOf evs := rfl

@[simp] theorem traceOf_append (evs evs' : List (Event St)) :
    traceOf (evs ++ evs') = traceOf evs ++ traceOf evs' := by
  simp [traceOf]

theorem traceOf_ne_nil {evs : List (Event St)} (hEvs : evs ≠ [])
    (hRecorded : ∀ ev ∈ evs, recorded ev.calls ≠ []) : traceOf evs ≠ [] := by
  obtain ⟨ev, rest, rfl⟩ := List.exists_cons_of_ne_nil hEvs
  have hFirst := hRecorded ev List.mem_cons_self
  simp [choicesOf, hFirst]

theorem sigsOf_concat (evs : List (Event St)) (ev : Event St) :
    sigsOf h (evs ++ [ev]) = sigsOf h evs ++ [h.getSig ev.after] := by
  simp [sigsOf]

theorem repeat_replay (pre post : Trace) : Random.repeat (.replay ⟨pre ++ post, pre.length⟩) =
    some (decide (post ≠ []), .replay ⟨pre ++ post, pre.length⟩) := by
  have hLength : pre.length < pre.length + post.length ↔ post ≠ [] := by
    rw [← List.length_pos_iff]
    omega
  simp [Random.repeat, ReplayRandom.repeat, hLength]

theorem run_replay {ev : Event St} (hEv : IsTransition h ev) (pre post : Trace) :
    ∃ score, (h.runOneTransition ev.before).1.run Random.random
        (.replay ⟨pre ++ choicesOf (recorded ev.calls) ++ post, pre.length⟩) =
      some (ev.calls, ⟨ev.ret, ev.after, score⟩,
        .replay ⟨pre ++ choicesOf (recorded ev.calls) ++ post,
          (pre ++ choicesOf (recorded ev.calls)).length⟩) := by
  obtain ⟨score, hPath⟩ := hEv.path
  have hRun := hPath.run_eq (ReplayRandom.answers_of_recorded ev.calls hEv.inRange pre post)
  refine ⟨score, ?_⟩
  rw [Random.run_replay_eq, hRun]
  rfl

end

inductive GenAt (opt : Options) (st : St) : Random → Prop
  | enum {stack : Calls} (hSim : opt.simulation = false)
      (hFits : (h.runOneTransition st).1.Fits stack) : GenAt opt st (.enum (ofStack stack (-1)))
  | unix (hSim : opt.simulation = true) : GenAt opt st (.unix ⟨[], opt.source, 0⟩)

/-- The generator of a round that starts in a state. It has choices to replay only if a transition
was run in an earlier round of the state. -/
structure RoundGen (opt : Options) (st : St) (g : Random) : Prop where
  gen : GenAt h opt (h.hook .beforeNewTransition st).2 g
  asked : g.choices ≠ [] → (h.hook .beforeNewTransition st).1 = .exit

def newTrace (opt : Options) (ev : Event St) : Trace :=
  if opt.simulation then choicesOf ev.calls else choicesOf (recorded ev.calls)

inductive RanGen (opt : Options) (ev : Event St) : Random → Prop
  | enum (hSim : opt.simulation = false) :
      RanGen opt ev (.enum (ofStack (recorded ev.calls) ((recorded ev.calls).length - 1)))
  | unix {g : UnixRandom} (hSim : opt.simulation = true)
      (hChoices : g.choices = choicesOf ev.calls) : RanGen opt ev (.unix g)

section
variable {h} {opt : Options} {st : St} {g : Random}

theorem RanGen.choices_eq {ev : Event St} (hGen : RanGen opt ev g) :
    g.choices = newTrace opt ev := by
  cases hGen with
  | enum hSim =>
    simp only [newTrace, hSim]
    rfl
  | unix hSim hChoices =>
    simp only [newTrace, hSim]
    exact hChoices

/-- The transition an `EnumRandom` leads to: the path that completes its stack. -/
def enumEvent (h : TestHarness St Sig Data) (st : St) (stack : Calls) : Event St :=
  let p := (h.runOneTransition st).1.complete stack
  { callback := .runOneTransition, before := st, calls := p.1, ret := p.2.ret, after := p.2.state }

theorem isTransition_enumEvent {stack : Calls} (hFits : (h.runOneTransition st).1.Fits stack) :
    IsTransition h (enumEvent h st stack) := by
  refine ⟨rfl, _, hFits.isPath_complete ?_⟩
  exact (h.runOneTransition st).2.imp fun _ hCeil => hCeil.1

theorem run_enum {stack : Calls} (hFits : (h.runOneTransition st).1.Fits stack) :
    ∃ score, (h.runOneTransition st).1.run Random.random (.enum (ofStack stack (-1))) =
      some ((enumEvent h st stack).calls,
        ⟨(enumEvent h st stack).ret, (enumEvent h st stack).after, score⟩,
        .enum (ofStack (recorded (enumEvent h st stack).calls)
          ((recorded (enumEvent h st stack).calls).length - 1))) := by
  refine ⟨((h.runOneTransition st).1.complete stack).2.score, ?_⟩
  rw [Random.run_enum_eq, run_ofStack (h.runOneTransition st).2 hFits]
  rfl

theorem GenAt.run (hGen : GenAt h opt st g) :
    ∃ ev g' score, IsTransition h ev ∧ ev.before = st ∧ RanGen opt ev g' ∧
      (h.runOneTransition st).1.run Random.random g =
        some (ev.calls, ⟨ev.ret, ev.after, score⟩, g') := by
  cases hGen with
  | enum hSim hFits =>
    obtain ⟨score, hRun⟩ := run_enum hFits
    exact ⟨_, _, score, isTransition_enumEvent hFits, rfl, .enum hSim, hRun⟩
  | unix hSim =>
    obtain ⟨calls, out, g', hPath, hRun, hChoices, _⟩ :=
      run_unix (h.runOneTransition st).2 ⟨[], opt.source, 0⟩
    refine ⟨⟨.runOneTransition, st, calls, out.ret, out.state⟩, .unix g', out.score,
      ⟨rfl, out.score, hPath⟩, rfl, .unix hSim (by simpa using hChoices), ?_⟩
    rw [Random.run_unix_eq, hRun]
    rfl

theorem GenAt.exists_enum (hGen : GenAt h opt st g) (hSim : opt.simulation = false) :
    ∃ e, g = .enum e := by
  cases hGen with
  | enum => exact ⟨_, rfl⟩
  | unix hTrue => cases hSim.symm.trans hTrue

theorem GenAt.repeat_eq (hGen : GenAt h opt st g) :
    ∃ g', g.repeat = some (false, g') ∧ (opt.simulation = false → ∃ e, g' = .enum e) := by
  cases hGen with
  | enum hSim hFits => exact ⟨.enum _, rfl, fun _ => ⟨_, rfl⟩⟩
  | unix hSim => exact ⟨_, rfl, by simp [hSim]⟩

theorem RanGen.repeat_gen {ev : Event St} (hEv : IsTransition h ev) (hBefore : ev.before = st)
    (hGen : RanGen opt ev g) :
    ∃ again g', g.repeat = some (again, g') ∧ (again = true → GenAt h opt st g') ∧
      (again = false → opt.simulation = false → ∃ e, g' = .enum e) := by
  cases hGen with
  | enum hSim =>
    obtain ⟨hFlag, hNext⟩ := EnumRandom.repeat_eq (recorded ev.calls) (inRange_recorded hEv.inRange)
    obtain ⟨⟨again, g'⟩, hRepeat, hAgain⟩ := Option.map_eq_some_iff.mp hFlag
    refine ⟨again, .enum g', by simp [Random.repeat, hRepeat], ?_, fun _ _ => ⟨_, rfl⟩⟩
    rintro rfl
    obtain ⟨stack, hAdvance⟩ := Option.isSome_iff_exists.mp hAgain.symm
    rw [hNext stack hAdvance] at hRepeat
    cases hRepeat
    obtain ⟨score, hPath⟩ := hEv.path
    rw [hBefore] at hPath
    exact .enum hSim (hPath.fits_advance hAdvance)
  | unix hSim hChoices => exact ⟨false, _, rfl, by simp, by simp [hSim]⟩

theorem roundGen_reset (hSim : opt.simulation = false) (e : EnumRandom) (st : St) :
    RoundGen h opt st (Random.enum e).reset :=
  ⟨.enum hSim (DecisionTree.Fits.nil _), fun hNe => absurd rfl hNe⟩

end

end Explode.Mcl
