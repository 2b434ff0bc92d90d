import Explode.Lib.Machine
import Explode.Mcl.Recording
import Explode.Mcl.TraceFile
import Mathlib.Logic.Function.Basic

/-!
# The model checker

The search loop of `ModelChecker::model_check`, one step for each pass through a
loop body: taking a state off the queue, restoring its checkpoint, replaying one
transition of its trace, and running one new transition.
-/

namespace Explode.Mcl

open ChoiceTree Machine

inductive TestRet
  | exit
  | skip
  | abort
  | bug
deriving DecidableEq, Repr

inductive Callback
  | beforeTransitions
  | afterTransitions
  | beforeNewTransition
  | runOneTransition
  | afterNewTransition
deriving DecidableEq, Repr

/-- What a transition ends with: its status, the state, and the largest score it set. -/
structure Outcome (St : Type*) where
  ret : TestRet
  state : St
  score : Int

/-- A deterministic test harness. `shouldCheckpoint` is also told how often it was asked before, so
that it may answer anything. -/
structure TestHarness (St Sig Data : Type*) where
  init : St
  runOneTransition : St → Program (Outcome St)
  getSig : St → Sig
  shouldCheckpoint : Nat → St → Bool
  checkpoint : St → Data
  restore : Data → St → St
  hook : Callback → St → TestRet × St
  onError : St → St

structure Event (St : Type*) where
  callback : Callback
  before : St
  calls : Calls
  ret : TestRet
  after : St

/-- `State` and `ScoreState`. The path is a history of the transitions that led to the state
from the initial one; the checker never reads it. -/
structure State (St Sig : Type*) where
  start : Nat
  id : Nat
  sig : Sig
  trace : Trace
  score : Int
  addr : Nat
  path : List (Event St)

structure Checkpoint (Data : Type*) where
  data : Data
  parentId : Nat
  trace : Trace

inductive Mode
  | modelCheck
  | replay
  | regenState
deriving DecidableEq, Repr

inductive QueueKind
  | bfs
  | dfs
  | priority
deriving DecidableEq, Repr

/-- The options that the search reads, the values of `::random` after seeding, and the
addresses at which new states are allocated. -/
structure Options where
  queue : QueueKind
  simulation : Bool
  maxBugs : Int
  maxState : Int
  source : Nat → Fin randRange
  address : Nat → Nat

/-- Where the search, or the replay of a trace file, stands. -/
inductive Pc
  | top
  | restore
  | regen
  | fresh
  | oldTrace
  | newTrace
  | finish
  | done
  | exited
deriving DecidableEq, Repr

/-- The callback that reported a bug, the transitions from the initial state to the current one, the
new transition if it was run, and the trace file. -/
structure BugReport (St : Type*) where
  event : Event St
  old : List (Event St)
  fresh : List (Event St)
  file : List Char

/-- The fields of `ModelChecker` with the local variables of `set_state` and of
`replay_trace_file`. `popped`, `log`, `fresh` and `reports` are histories. -/
structure ModelChecker (St Sig Data : Type*) where
  test : St
  q : List (State St Sig)
  ckpts : Nat → Option (Checkpoint Data)
  visited : List (Sig × Nat)
  curr : Option (State St Sig)
  rand : Random
  oldr : Random
  mode : Mode
  lastScore : Int
  bugs : Int
  pc : Pc
  pending : Trace
  ckptCalls : Nat
  allocs : Nat
  popped : List (State St Sig)
  log : List (Event St)
  fresh : List (Event St)
  reports : List (BugReport St)

/-- Code that may fail an assertion or call `exit`. -/
abbrev Checked (St Sig Data : Type*) := Except (Halt (ModelChecker St Sig Data))

variable {St Sig Data : Type*} [DecidableEq Sig]

namespace ModelChecker

section
variable (h : TestHarness St Sig Data) (opt : Options) (mc : ModelChecker St Sig Data)

def numStates : Nat := mc.visited.length

def seen (sig : Sig) : Bool := mc.visited.any fun entry => entry.1 == sig

def visit (sig : Sig) (id : Nat) : List (Sig × Nat) :=
  if mc.seen sig then mc.visited.map fun entry => if entry.1 = sig then (sig, id) else entry
  else mc.visited ++ [(sig, id)]

def newState (sig : Sig) : State St Sig × ModelChecker St Sig Data :=
  let id := mc.numStates
  ({ start := 0, id := id, sig := sig, trace := [], score := mc.lastScore,
     addr := opt.address mc.allocs, path := [] },
   { mc with visited := mc.visit sig id, allocs := mc.allocs + 1 })

def takeCkpt (parent : Option (State St Sig)) (id : Nat) : ModelChecker St Sig Data :=
  let ckpt : Checkpoint Data := match parent with
    | none => { data := h.checkpoint mc.test, parentId := 0, trace := [] }
    | some parent => { data := h.checkpoint mc.test, parentId := parent.start,
                       trace := parent.trace ++ mc.rand.choices }
  { mc with ckpts := Function.update mc.ckpts id (some ckpt) }

def initState : State St Sig × ModelChecker St Sig Data :=
  let r := mc.newState opt (h.getSig mc.test)
  (r.1, r.2.takeCkpt h none r.1.id)

/-- The event is the transition that was just run. Without scores a seen signature gives no
new state. -/
def getState (parent : State St Sig) (ev : Event St) :
    Option (State St Sig) × ModelChecker St Sig Data :=
  let sig := h.getSig mc.test
  if mc.seen sig ∧ opt.queue ≠ .priority then (none, mc)
  else
    let r := mc.newState opt sig
    let s := { r.1 with path := parent.path ++ [ev] }
    let asked := { r.2 with ckptCalls := r.2.ckptCalls + 1 }
    if h.shouldCheckpoint mc.ckptCalls mc.test then
      (some { s with start := s.id }, asked.takeCkpt h (some parent) s.id)
    else
      (some { s with start := parent.start, trace := parent.trace ++ mc.rand.choices }, asked)

/-- `std::lower_bound`, with the start and the length of the range that is left. The range gets
shorter in every pass, so its length is enough fuel. -/
def lowerBound (q : List (State St Sig)) (addr : Nat) : Nat → Nat → Nat → Nat
  | 0, first, _ => first
  | fuel + 1, first, len =>
    if len = 0 then first
    else if q[first + len / 2]?.any fun t => t.addr < addr then
      lowerBound q addr fuel (first + len / 2 + 1) (len - len / 2 - 1)
    else lowerBound q addr fuel first (len / 2)

def push (s : State St Sig) (q : List (State St Sig)) : List (State St Sig) :=
  match opt.queue with
  | .bfs => q ++ [s]
  | .dfs => s :: q
  | .priority =>
    let place := lowerBound q s.addr q.length 0 q.length
    q.take place ++ s :: q.drop place

/-- The checkpoints from the initial one to the given one. The loop of the source does not end if
the ids do not decrease, and there is no result then. -/
def ckptChain (ckpts : Nat → Option (Checkpoint Data)) : Nat → Nat → Option (List Nat)
  | 0, _ => none
  | _ + 1, 0 => some [0]
  | fuel + 1, id + 1 =>
    (ckpts (id + 1)).bind fun ckpt =>
      (ckptChain ckpts fuel ckpt.parentId).map fun ids => ids ++ [id + 1]

def fullTrace (s : State St Sig) : Option Trace :=
  (ckptChain mc.ckpts (s.start + 1) s.start).bind fun ids =>
    (ids.mapM fun id => (mc.ckpts id).map Checkpoint.trace).map fun traces =>
      traces.flatten ++ s.trace

def storeTraceFile (s : State St Sig) : Option (List Char) :=
  (mc.fullTrace s).map fun old => printTrace old mc.rand.choices

def checkReturn (curr : State St Sig) (ev : Event St) :
    Checked St Sig Data (ModelChecker St Sig Data) :=
  match ev.ret with
  | .bug =>
    match mc.storeTraceFile curr with
    | none => .error .fail
    | some file =>
      let report := { event := ev, old := curr.path, fresh := mc.fresh, file := file }
      let next := { mc with test := h.onError mc.test, bugs := mc.bugs + 1,
                            reports := mc.reports ++ [report] }
      if opt.maxBugs ≤ next.bugs then .error (.exit next) else .ok next
  | .abort => .ok mc
  | .skip => .ok mc
  | .exit =>
    if ev.callback = .runOneTransition then
      match mc.getState h opt curr ev with
      | (none, next) => .ok next
      | (some s, next) =>
        if 0 < opt.maxState ∧ opt.maxState < next.numStates then .error (.exit next)
        else .ok { next with q := push opt s next.q }
    else .ok mc

def regenReturn (ev : Event St) : Checked St Sig Data (ModelChecker St Sig Data) :=
  if ev.ret = .exit then
    if ev.callback = .runOneTransition ∧ ¬mc.seen (h.getSig mc.test) then .error .fail
    else .ok mc
  else .error .fail

def replayReturn (curr : State St Sig) (ev : Event St) :
    Checked St Sig Data (ModelChecker St Sig Data) :=
  match ev.ret with
  | .skip => .error .fail
  | .bug => .ok mc
  | .abort => .ok mc
  | .exit =>
    if ev.callback = .runOneTransition then
      if mc.seen (h.getSig mc.test) then .error .fail
      else .ok (mc.getState h opt curr ev).2
    else .ok mc

def processTestReturn (ev : Event St) : Checked St Sig Data (ModelChecker St Sig Data) :=
  match mc.mode, mc.curr with
  | _, none => .error .fail
  | .modelCheck, some curr => mc.checkReturn h opt curr ev
  | .regenState, some _ => mc.regenReturn h ev
  | .replay, some curr => mc.replayReturn h opt curr ev

theorem process_modelCheck {curr : State St Sig} (hMode : mc.mode = .modelCheck)
    (hCurr : mc.curr = some curr) (ev : Event St) :
    mc.processTestReturn h opt ev = mc.checkReturn h opt curr ev := by
  rw [processTestReturn, hMode, hCurr]

theorem process_regenState {curr : State St Sig} (hMode : mc.mode = .regenState)
    (hCurr : mc.curr = some curr) (ev : Event St) :
    mc.processTestReturn h opt ev = mc.regenReturn h ev := by
  rw [processTestReturn, hMode, hCurr]

theorem process_replay {curr : State St Sig} (hMode : mc.mode = .replay)
    (hCurr : mc.curr = some curr) (ev : Event St) :
    mc.processTestReturn h opt ev = mc.replayReturn h opt curr ev := by
  rw [processTestReturn, hMode, hCurr]

def hookEvent (callback : Callback) (st : St) : Event St :=
  let r := h.hook callback st
  { callback := callback, before := st, calls := [], ret := r.1, after := r.2 }

def called (ev : Event St) : ModelChecker St Sig Data :=
  { mc with test := ev.after, log := mc.log ++ [ev] }

def ran (ev : Event St) (rand : Random) (score : Int) : ModelChecker St Sig Data :=
  { mc with test := ev.after, rand := rand, lastScore := max mc.lastScore score,
            log := mc.log ++ [ev], fresh := mc.fresh ++ [ev] }

def call (callback : Callback) : Option (Event St × ModelChecker St Sig Data) :=
  match callback with
  | .runOneTransition =>
    ((h.runOneTransition mc.test).1.run Random.random mc.rand).map fun r =>
      let ev := { callback := .runOneTransition, before := mc.test, calls := r.1,
                  ret := r.2.1.ret, after := r.2.1.state }
      (ev, mc.ran ev r.2.2 r.2.1.score)
  | callback =>
    let ev := hookEvent h callback mc.test
    some (ev, mc.called ev)

def runTest (callback : Callback) : Checked St Sig Data (TestRet × ModelChecker St Sig Data) :=
  match mc.call h callback with
  | none => .error .fail
  | some (ev, next) => (next.processTestReturn h opt ev).map fun next => (ev.ret, next)

theorem runTest_eq {callback : Callback} {ev : Event St} {next : ModelChecker St Sig Data}
    (hCall : mc.call h callback = some (ev, next)) :
    mc.runTest h opt callback =
      (next.processTestReturn h opt ev).map fun next => (ev.ret, next) := by
  rw [runTest, hCall]

/-- `run_new_transition` over the `run_test` of a mode. -/
def newTransitionBy {σ : Type*}
    (runTest : ModelChecker St Sig Data → Callback →
      Except (Halt σ) (TestRet × ModelChecker St Sig Data)) :
    Except (Halt σ) (ModelChecker St Sig Data) :=
  (runTest mc .beforeNewTransition).bind fun r =>
    if r.1 = .exit then
      (runTest r.2 .runOneTransition).bind fun r =>
        if r.1 = .exit then (runTest r.2 .afterNewTransition).map Prod.snd
        else .ok r.2
    else .ok r.2

def runNewTransition : Checked St Sig Data (ModelChecker St Sig Data) :=
  mc.newTransitionBy (runTest h opt)

def regenerating (st : St) : ModelChecker St Sig Data := { mc with test := st, mode := .regenState }

/-- The part of `set_state` before its replay loop. The mode is given back at the end. -/
def restoreCkpt (s : State St Sig) : Checked St Sig Data (ModelChecker St Sig Data) :=
  match mc.ckpts s.start with
  | none => .error .fail
  | some ckpt =>
    ((mc.regenerating (h.restore ckpt.data mc.test)).runTest h opt .beforeTransitions).map
      fun r => { r.2 with mode := mc.mode }

/-- The state has no trace left to replay: a new transition is run next. -/
def stepRestore (s : State St Sig) : Checked St Sig Data (ModelChecker St Sig Data) :=
  (mc.restoreCkpt h opt s).map fun next =>
    if s.trace = [] then { next with pc := .fresh }
    else { next with mode := .regenState, oldr := next.rand,
                     rand := .replay (ReplayRandom.load s.trace), pc := .regen }

/-- One pass of the loop in `replay`, called from `set_state`. -/
def stepRegen : Checked St Sig Data (ModelChecker St Sig Data) :=
  (mc.runTest h opt .runOneTransition).bind fun r =>
    match r.2.rand.repeat with
    | none => .error .fail
    | some (true, rand) => .ok { r.2 with rand := rand }
    | some (false, _) => .ok { r.2 with rand := r.2.oldr, mode := .modelCheck, pc := .fresh }

def newRound : ModelChecker St Sig Data := { mc with lastScore := 0, fresh := [] }

/-- The rest of the loop body of `model_check` after `set_state`, over the `run_test` of a mode. -/
def roundBy {σ : Type*}
    (runTest : ModelChecker St Sig Data → Callback →
      Except (Halt σ) (TestRet × ModelChecker St Sig Data)) :
    Except (Halt σ) (ModelChecker St Sig Data) :=
  (mc.newRound.newTransitionBy runTest).bind fun next =>
    (runTest next .afterTransitions).bind fun r =>
      match r.2.rand.repeat with
      | none => .error .fail
      | some (true, rand) => .ok { r.2 with rand := rand, pc := .restore }
      | some (false, rand) =>
        .ok { r.2 with rand := rand, curr := none, pc := if opt.simulation then .done else .top }

def stepFresh : Checked St Sig Data (ModelChecker St Sig Data) := mc.roundBy opt (runTest h opt)

/-- One pass of the loop in `replay`, called from `replay_trace_file`. -/
def stepOldTrace : Checked St Sig Data (ModelChecker St Sig Data) :=
  (mc.runTest h opt .runOneTransition).bind fun r =>
    match r.2.rand.repeat with
    | none => .error .fail
    | some (true, rand) => .ok { r.2 with rand := rand }
    | some (false, rand) => .ok { r.2 with rand := rand, pc := .newTrace }

def loadNewTrace : ModelChecker St Sig Data :=
  { mc with rand := mc.rand.reset.setChoices mc.pending }

def stepNewTrace : Checked St Sig Data (ModelChecker St Sig Data) :=
  if mc.pending = [] then .ok { mc with pc := .finish }
  else (mc.loadNewTrace.runNewTransition h opt).map fun next => { next with pc := .finish }

def body : Checked St Sig Data (ModelChecker St Sig Data) :=
  match mc.pc, mc.curr with
  | .top, _ =>
    match mc.q with
    | [] => .ok { mc with pc := .done }
    | s :: q => .ok { mc with q := q, curr := some s, rand := mc.rand.reset, pc := .restore,
                              popped := mc.popped ++ [s] }
  | .restore, some s => mc.stepRestore h opt s
  | .restore, none => .error .fail
  | .regen, _ => mc.stepRegen h opt
  | .fresh, _ => mc.stepFresh h opt
  | .oldTrace, _ => mc.stepOldTrace h opt
  | .newTrace, _ => mc.stepNewTrace h opt
  | .finish, _ => (mc.runTest h opt .afterTransitions).map fun r => { r.2 with pc := .done }
  | .done, _ => .ok mc
  | .exited, _ => .ok mc

def step : Option (ModelChecker St Sig Data) :=
  match mc.body h opt with
  | .ok next => some next
  | .error (.exit next) => some { next with pc := .exited }
  | .error .fail => none

end

def create (h : TestHarness St Sig Data) (mode : Mode) (rand : Random) :
    ModelChecker St Sig Data where
  test := h.init
  q := []
  ckpts := fun _ => none
  visited := []
  curr := none
  rand := rand
  oldr := rand
  mode := mode
  lastScore := 0
  bugs := 0
  pc := .top
  pending := []
  ckptCalls := 0
  allocs := 0
  popped := []
  log := []
  fresh := []
  reports := []

def modelCheck (h : TestHarness St Sig Data) (opt : Options) : ModelChecker St Sig Data :=
  let rand : Random := if opt.simulation then .unix ⟨[], opt.source, 0⟩ else .enum ⟨[], [], 0⟩
  let r := (create h .modelCheck rand).initState h opt
  { r.2 with q := push opt r.1 r.2.q }

/-- `replay_trace_file` up to `set_state`, for a new checker in replay mode. -/
def replayStart (h : TestHarness St Sig Data) (opt : Options) (newTrace : Trace) :
    ModelChecker St Sig Data :=
  let r := (create h .replay (.replay (ReplayRandom.load []))).initState h opt
  { r.2 with curr := some r.1, pending := newTrace }

/-- `replay_trace_file` up to its first loop. The state it sets has an empty trace. -/
def replayTraceFile (h : TestHarness St Sig Data) (opt : Options) (file : List Char) :
    Option (ModelChecker St Sig Data) :=
  (loadTraceFile file).bind fun traces =>
    (replayStart h opt traces.2).curr.bind fun s =>
      match (replayStart h opt traces.2).restoreCkpt h opt s with
      | .error _ => none
      | .ok mc =>
        if traces.1 = [] then some { mc with pc := .newTrace }
        else some { mc with rand := mc.rand.reset.setChoices traces.1, pc := .oldTrace }

end ModelChecker

end Explode.Mcl
