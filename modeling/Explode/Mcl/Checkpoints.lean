import Explode.Mcl.Transition

/-!
# Checkpoints and the states that start from them

A checkpoint knows its parent and the choices that lead from the parent to it.
A state is tracked if its checkpoint goes back to the initial state in this way
and its own trace records transitions from the checkpoint, each with a choice.
-/

namespace Explode.Mcl

open ChoiceTree Machine EnumRandom ModelChecker

variable {St Sig Data : Type*}

inductive Chained (ckpts : Nat → Option (Checkpoint Data)) : Nat → Trace → Prop
  | init {ckpt : Checkpoint Data} (hCkpt : ckpts 0 = some ckpt) (hTrace : ckpt.trace = []) :
      Chained ckpts 0 []
  | next {parent id : Nat} {pre : Trace} {ckpt : Checkpoint Data}
      (hParent : Chained ckpts parent pre) (hLt : parent < id) (hCkpt : ckpts id = some ckpt)
      (hId : ckpt.parentId = parent) : Chained ckpts id (pre ++ ckpt.trace)

/-- The checkpoint with the given id was taken in the given state, and the transitions lead
there from the initial state along the parent checkpoints. -/
inductive Based (h : TestHarness St Sig Data) (ckpts : Nat → Option (Checkpoint Data)) :
    Nat → List (Event St) → St → Prop
  | init {ckpt : Checkpoint Data} (hCkpt : ckpts 0 = some ckpt)
      (hData : ckpt.data = h.checkpoint h.init) (hTrace : ckpt.trace = []) :
      Based h ckpts 0 [] h.init
  | next {parent id : Nat} {pre evs : List (Event St)} {base st : St} {ckpt : Checkpoint Data}
      (hParent : Based h ckpts parent pre base) (hLt : parent < id) (hCkpt : ckpts id = some ckpt)
      (hId : ckpt.parentId = parent) (hTrace : ckpt.trace = traceOf evs)
      (hData : ckpt.data = h.checkpoint st) (hAsked : h.Checkpointed st)
      (hEvs : Transitions h base evs st) : Based h ckpts id (pre ++ evs) st

/-- The state is re-created by restoring its checkpoint, taken in the base state, and running
the transitions its trace records. -/
structure Tracked [DecidableEq Sig] (h : TestHarness St Sig Data) (opt : Options)
    (mc : ModelChecker St Sig Data) (s : State St Sig) (pre evs : List (Event St))
    (base st : St) : Prop where
  based : Based h mc.ckpts s.start pre base
  transitions : Transitions h base evs st
  path : s.path = pre ++ evs
  trace : s.trace = traceOf evs
  sig : s.sig = h.getSig st
  seen : ∀ sig ∈ sigsOf h s.path, mc.seen sig
  distinct : opt.queue ≠ .priority → (sigsOf h s.path).Nodup
  branching : ∀ ev ∈ evs, recorded ev.calls ≠ []

def Restorable [DecidableEq Sig] (h : TestHarness St Sig Data) (opt : Options)
    (mc : ModelChecker St Sig Data) (s : State St Sig) (st : St) : Prop :=
  ∃ pre evs base, Tracked h opt mc s pre evs base st

section
variable {h : TestHarness St Sig Data} {ckpts : Nat → Option (Checkpoint Data)} {id : Nat}
  {pre : List (Event St)} {base : St}

theorem Based.data (hBased : Based h ckpts id pre base) :
    ∃ ckpt, ckpts id = some ckpt ∧ ckpt.data = h.checkpoint base ∧ h.Checkpointed base := by
  cases hBased with
  | init hCkpt hData => exact ⟨_, hCkpt, hData, .inl rfl⟩
  | next _ _ hCkpt _ _ hData hAsked => exact ⟨_, hCkpt, hData, hAsked⟩

theorem Based.parentId_lt (hBased : Based h ckpts id pre base) :
    id = 0 ∨ ∃ ckpt, ckpts id = some ckpt ∧ ckpt.parentId < id := by
  cases hBased with
  | init => exact .inl rfl
  | next _ hLt hCkpt hId => exact .inr ⟨_, hCkpt, hId ▸ hLt⟩

theorem Based.mono {ckpts' : Nat → Option (Checkpoint Data)}
    (hKept : ∀ id ckpt, ckpts id = some ckpt → ckpts' id = some ckpt)
    (hBased : Based h ckpts id pre base) : Based h ckpts' id pre base := by
  induction hBased with
  | init hCkpt hData hTrace => exact .init (hKept _ _ hCkpt) hData hTrace
  | next _ hLt hCkpt hId hTrace hData hAsked hEvs ih =>
    exact .next ih hLt (hKept _ _ hCkpt) hId hTrace hData hAsked hEvs

theorem Based.transitions (hBased : Based h ckpts id pre base) : Transitions h h.init pre base := by
  induction hBased with
  | init => exact .nil _
  | next _ _ _ _ _ _ _ hEvs ih => exact ih.append hEvs

theorem Chained.exists_ckpt {pre : Trace} (hChained : Chained ckpts id pre) :
    ∃ ckpt, ckpts id = some ckpt := by
  cases hChained with
  | init hCkpt _ => exact ⟨_, hCkpt⟩
  | next _ _ hCkpt _ => exact ⟨_, hCkpt⟩

theorem Chained.mono {ckpts' : Nat → Option (Checkpoint Data)} {pre : Trace}
    (hKept : ∀ id ckpt, ckpts id = some ckpt → ckpts' id = some ckpt)
    (hChained : Chained ckpts id pre) : Chained ckpts' id pre := by
  induction hChained with
  | init hCkpt hTrace => exact .init (hKept _ _ hCkpt) hTrace
  | next _ hLt hCkpt hId ih => exact .next ih hLt (hKept _ _ hCkpt) hId

theorem Chained.chain {pre : Trace} (hChained : Chained ckpts id pre) (fuel : Nat)
    (hFuel : id < fuel) :
    ∃ ids traces, ckptChain ckpts fuel id = some ids ∧
      (ids.mapM fun id => (ckpts id).map Checkpoint.trace) = some traces ∧
      traces.flatten = pre := by
  induction hChained generalizing fuel with
  | @init ckpt hCkpt hTrace =>
    obtain ⟨fuel, rfl⟩ := Nat.exists_eq_succ_of_ne_zero (by omega : fuel ≠ 0)
    exact ⟨[0], [ckpt.trace], rfl, by simp [hCkpt], by simp [hTrace]⟩
  | @next parent id pre ckpt hParent hLt hCkpt hId ih =>
    obtain ⟨fuel, rfl⟩ := Nat.exists_eq_succ_of_ne_zero (by omega : fuel ≠ 0)
    obtain ⟨id, rfl⟩ := Nat.exists_eq_succ_of_ne_zero (by omega : id ≠ 0)
    obtain ⟨ids, traces, hChain, hTraces, hFlatten⟩ := ih fuel (by omega)
    refine ⟨ids ++ [id + 1], traces ++ [ckpt.trace], ?_, ?_, ?_⟩
    · simp [ckptChain, hCkpt, hId, hChain]
    · simp [List.mapM_append, hTraces, hCkpt]
    · simp [hFlatten]

theorem Based.chained (hBased : Based h ckpts id pre base) : Chained ckpts id (traceOf pre) := by
  induction hBased with
  | init hCkpt _ hTrace => exact .init hCkpt hTrace
  | next _ hLt hCkpt hId hTrace _ _ _ ih =>
    rw [traceOf_append, ← hTrace]
    exact .next ih hLt hCkpt hId

end

variable [DecidableEq Sig] {h : TestHarness St Sig Data} {opt : Options}
  {mc mc' : ModelChecker St Sig Data} {s : State St Sig} {st : St}

theorem Tracked.fullTrace_eq {pre evs : List (Event St)} {base : St}
    (hTracked : Tracked h opt mc s pre evs base st) : mc.fullTrace s = some (traceOf s.path) := by
  obtain ⟨ids, traces, hChain, hTraces, hFlatten⟩ :=
    hTracked.based.chained.chain (s.start + 1) (Nat.lt_succ_self _)
  simp [fullTrace, hChain, hTraces, hFlatten, hTracked.trace, hTracked.path]

structure Extends (mc mc' : ModelChecker St Sig Data) : Prop where
  ckpts : ∀ id ckpt, mc.ckpts id = some ckpt → mc'.ckpts id = some ckpt
  seen : ∀ sig, mc.seen sig → mc'.seen sig

theorem Extends.of_eq (hCkpts : mc'.ckpts = mc.ckpts) (hVisited : mc'.visited = mc.visited) :
    Extends mc mc' := by
  refine ⟨fun id ckpt h => by rwa [hCkpts], fun sig h => ?_⟩
  rwa [ModelChecker.seen, hVisited]

theorem Tracked.mono {pre evs : List (Event St)} {base : St} (hExt : Extends mc mc')
    (hTracked : Tracked h opt mc s pre evs base st) : Tracked h opt mc' s pre evs base st :=
  { hTracked with
    based := hTracked.based.mono hExt.ckpts
    seen := fun sig hSig => hExt.seen sig (hTracked.seen sig hSig) }

theorem Tracked.congr {pre evs : List (Event St)} {base : St}
    (hTracked : Tracked h opt mc s pre evs base st) (hCkpts : mc'.ckpts = mc.ckpts)
    (hVisited : mc'.visited = mc.visited) : Tracked h opt mc' s pre evs base st :=
  hTracked.mono (.of_eq hCkpts hVisited)

theorem Restorable.mono (hExt : Extends mc mc') (hRest : Restorable h opt mc s st) :
    Restorable h opt mc' s st := by
  obtain ⟨pre, evs, base, hTracked⟩ := hRest
  exact ⟨pre, evs, base, hTracked.mono hExt⟩

theorem Restorable.congr (hRest : Restorable h opt mc s st) (hCkpts : mc'.ckpts = mc.ckpts)
    (hVisited : mc'.visited = mc.visited) : Restorable h opt mc' s st :=
  hRest.mono (.of_eq hCkpts hVisited)

theorem seen_iff (sig : Sig) : mc.seen sig = true ↔ sig ∈ mc.visited.map Prod.fst := by
  simp [seen]

theorem visit_eq_of_not_seen {sig : Sig} (hNew : ¬mc.seen sig) (id : Nat) :
    mc.visit sig id = mc.visited ++ [(sig, id)] :=
  if_neg hNew

theorem map_fst_visit {sig : Sig} (hSeen : mc.seen sig) (id : Nat) :
    (mc.visit sig id).map Prod.fst = mc.visited.map Prod.fst := by
  rw [visit, if_pos hSeen, List.map_map]
  refine List.map_congr_left fun entry _ => ?_
  by_cases hEq : entry.1 = sig <;> simp [hEq]

theorem mem_visit_iff (sig sig' : Sig) (id : Nat) :
    sig' ∈ (mc.visit sig id).map Prod.fst ↔ mc.seen sig' ∨ sig' = sig := by
  by_cases hSeen : mc.seen sig
  · rw [map_fst_visit hSeen, seen_iff]
    constructor
    · exact Or.inl
    · rintro (hMem | rfl)
      · exact hMem
      · exact (seen_iff _).mp hSeen
  · rw [visit_eq_of_not_seen hSeen, seen_iff]
    simp

theorem length_visit (sig : Sig) (id : Nat) :
    mc.visited.length ≤ (mc.visit sig id).length ∧
      (¬mc.seen sig → (mc.visit sig id).length = mc.visited.length + 1) := by
  by_cases hSeen : mc.seen sig
  · have hLength := congrArg List.length (map_fst_visit hSeen id)
    simp only [List.length_map] at hLength
    exact ⟨hLength.ge, fun hNew => absurd hSeen hNew⟩
  · rw [visit_eq_of_not_seen hSeen]
    simp

structure Born (h : TestHarness St Sig Data) (mc : ModelChecker St Sig Data) (parent : State St Sig)
    (ev : Event St) (s : State St Sig) (mc' : ModelChecker St Sig Data) : Prop where
  id : s.id = mc.numStates
  sig : s.sig = h.getSig mc.test
  path : s.path = parent.path ++ [ev]
  visited : mc'.visited = mc.visit (h.getSig mc.test) mc.numStates
  start : h.shouldCheckpoint mc.ckptCalls mc.test = true ∧ s.start = mc.numStates ∧
        s.trace = [] ∧ mc'.ckpts = Function.update mc.ckpts mc.numStates
          (some ⟨h.checkpoint mc.test, parent.start, parent.trace ++ mc.rand.choices⟩) ∨
      h.shouldCheckpoint mc.ckptCalls mc.test = false ∧ s.start = parent.start ∧
        s.trace = parent.trace ++ mc.rand.choices ∧ mc'.ckpts = mc.ckpts
  same : mc' = { mc with ckpts := mc'.ckpts, visited := mc'.visited, allocs := mc'.allocs,
                         ckptCalls := mc'.ckptCalls }

theorem getState_cases (h : TestHarness St Sig Data) (opt : Options) (mc : ModelChecker St Sig Data)
    (parent : State St Sig) (ev : Event St) :
    (mc.seen (h.getSig mc.test) ∧ opt.queue ≠ .priority ∧
        mc.getState h opt parent ev = (none, mc)) ∨
      ¬(mc.seen (h.getSig mc.test) ∧ opt.queue ≠ .priority) ∧
        ∃ s mc', mc.getState h opt parent ev = (some s, mc') ∧ Born h mc parent ev s mc' := by
  by_cases hOld : mc.seen (h.getSig mc.test) ∧ opt.queue ≠ .priority
  · exact .inl ⟨hOld.1, hOld.2, if_pos hOld⟩
  · refine .inr ⟨hOld, ?_⟩
    unfold getState
    rw [if_neg hOld]
    by_cases hCkpt : h.shouldCheckpoint mc.ckptCalls mc.test = true
    · exact ⟨_, _, if_pos hCkpt, rfl, rfl, rfl, rfl, .inl ⟨hCkpt, rfl, rfl, rfl⟩, rfl⟩
    · refine ⟨_, _, if_neg hCkpt, rfl, rfl, rfl, rfl, .inr ⟨?_, rfl, rfl, rfl⟩, rfl⟩
      simpa using hCkpt

/-- A checkpoint is below the number of states, up to the reuse of ids by a search that keeps
several states of one signature. -/
def CkptsBelow (opt : Options) (mc : ModelChecker St Sig Data) : Prop :=
  ∀ id ckpt, mc.ckpts id = some ckpt →
    id ≤ mc.numStates ∧ (opt.queue ≠ .priority → id < mc.numStates)

def CkptsUnder (mc : ModelChecker St Sig Data) : Prop :=
  ∀ id ckpt, mc.ckpts id = some ckpt → id < mc.numStates

section
omit [DecidableEq Sig]

theorem CkptsBelow.under (hBelow : CkptsBelow opt mc) (hQueue : opt.queue ≠ .priority) :
    CkptsUnder mc :=
  fun id ckpt hCkpt => (hBelow id ckpt hCkpt).2 hQueue

variable (hCkpts : mc'.ckpts = mc.ckpts) (hVisited : mc'.visited = mc.visited)
include hCkpts hVisited

theorem CkptsBelow.congr (hBelow : CkptsBelow opt mc) : CkptsBelow opt mc' := by
  intro id ckpt hCkpt
  rw [hCkpts] at hCkpt
  simpa only [ModelChecker.numStates, hVisited] using hBelow id ckpt hCkpt

theorem CkptsUnder.congr (hUnder : CkptsUnder mc) : CkptsUnder mc' := by
  intro id ckpt hCkpt
  rw [hCkpts] at hCkpt
  simpa only [ModelChecker.numStates, hVisited] using hUnder id ckpt hCkpt

end

section
variable {parent : State St Sig} {ev : Event St} {ckpts : Nat → Option (Checkpoint Data)}
  (hBorn : Born h mc parent ev s mc')
include hBorn

theorem Born.seen_iff (sig : Sig) :
    mc'.seen sig = true ↔ mc.seen sig = true ∨ sig = h.getSig mc.test := by
  rw [Mcl.seen_iff, hBorn.visited, mem_visit_iff]

theorem Born.numStates :
    mc.numStates ≤ mc'.numStates ∧
      (¬mc.seen (h.getSig mc.test) → mc'.numStates = mc.numStates + 1) := by
  simp only [ModelChecker.numStates, hBorn.visited]
  exact length_visit _ _

theorem Born.ckptsBelow (hBelow : CkptsBelow opt mc)
    (hNew : ¬(mc.seen (h.getSig mc.test) ∧ opt.queue ≠ .priority)) : CkptsBelow opt mc' := by
  obtain ⟨hLe, hSucc⟩ := hBorn.numStates
  intro id ckpt hCkpt
  have hOld : ∀ ckpt, mc.ckpts id = some ckpt →
      id ≤ mc'.numStates ∧ (opt.queue ≠ .priority → id < mc'.numStates) := by
    intro ckpt hCkpt
    obtain ⟨hId, hIdLt⟩ := hBelow id ckpt hCkpt
    exact ⟨by omega, fun hQueue => Nat.lt_of_lt_of_le (hIdLt hQueue) hLe⟩
  rcases hBorn.start with ⟨_, _, _, hCkpts⟩ | ⟨_, _, _, hCkpts⟩
  · rw [hCkpts] at hCkpt
    by_cases hId : id = mc.numStates
    · subst hId
      refine ⟨hLe, fun hQueue => ?_⟩
      rw [hSucc fun hSeen => hNew ⟨hSeen, hQueue⟩]
      exact Nat.lt_succ_self _
    · rw [Function.update_of_ne hId] at hCkpt
      exact hOld ckpt hCkpt
  · rw [hCkpts] at hCkpt
    exact hOld ckpt hCkpt

theorem Born.extends (hUnder : CkptsUnder mc) : Extends mc mc' := by
  refine ⟨?_, fun sig hSig => (hBorn.seen_iff sig).mpr (.inl hSig)⟩
  intro id ckpt hCkpt
  rcases hBorn.start with ⟨_, _, _, hCkpts⟩ | ⟨_, _, _, hCkpts⟩
  · have hLt := hUnder id ckpt hCkpt
    rw [hCkpts, Function.update_of_ne (by omega), hCkpt]
  · rw [hCkpts, hCkpt]

theorem Born.restorable (hParent : Restorable h opt mc parent st) (hEv : IsTransition h ev)
    (hBefore : ev.before = st) (hExit : ev.ret = .exit) (hTest : mc.test = ev.after)
    (hChoices : mc.rand.choices = choicesOf (recorded ev.calls))
    (hNew : ¬(mc.seen (h.getSig mc.test) ∧ opt.queue ≠ .priority)) (hBelow : CkptsBelow opt mc)
    (hExt : Extends mc mc') (hOwn : mc.ckpts s.start = none ∨ recorded ev.calls ≠ []) :
    Restorable h opt mc' s ev.after := by
  obtain ⟨pre, evs, base, hTracked⟩ := hParent
  obtain ⟨hBased, hEvs, hPath, hTrace, hSig, hSeen, hDistinct, hBranching⟩ := hTracked.mono hExt
  subst hBefore
  have hLonger := hEvs.append (.singleton hEv hExit)
  have hSigs : sigsOf h s.path = sigsOf h parent.path ++ [h.getSig ev.after] := by
    rw [hBorn.path, sigsOf_concat]
  have hSeen' : ∀ sig ∈ sigsOf h s.path, mc'.seen sig := by
    intro sig hMem
    rw [hSigs] at hMem
    rcases List.mem_append.mp hMem with hMem | hMem
    · exact hSeen sig hMem
    · rw [hBorn.seen_iff, hTest]
      exact .inr (List.mem_singleton.mp hMem)
  have hDistinct' : opt.queue ≠ .priority → (sigsOf h s.path).Nodup := by
    intro hQueue
    rw [hSigs]
    refine List.nodup_append.mpr ⟨hDistinct hQueue, by simp, ?_⟩
    rintro sig hMem _ hLast rfl
    rw [List.mem_singleton.mp hLast] at hMem
    exact hNew ⟨by rw [hTest]; exact hTracked.seen _ hMem, hQueue⟩
  rcases hBorn.start with ⟨hAsked, hStart, hNil, hCkpts⟩ | ⟨_, hStart, hCons, hCkpts⟩
  · -- a checkpoint of its own, with the parent's checkpoint below it
    have hNewCkpt : mc'.ckpts mc.numStates = some
        ⟨h.checkpoint mc.test, parent.start, parent.trace ++ mc.rand.choices⟩ := by
      rw [hCkpts, Function.update_self]
    have hLe : parent.start ≤ mc.numStates := by
      obtain ⟨ckpt, hCkpt, _⟩ := hTracked.based.data
      exact (hBelow _ _ hCkpt).1
    have hNe : parent.start ≠ mc.numStates := by
      intro hEq
      have hPos : 0 < mc.numStates := by
        have hInit := (Mcl.seen_iff _).mp (hTracked.seen _ List.mem_cons_self)
        simpa [ModelChecker.numStates] using List.length_pos_of_mem hInit
      rw [← hEq] at hNewCkpt hPos
      rcases hBased.parentId_lt with hZero | ⟨ckpt, hCkpt, hLt⟩
      · exact absurd hZero (Nat.ne_of_gt hPos)
      · rw [hNewCkpt] at hCkpt
        cases hCkpt
        exact absurd hLt (Nat.lt_irrefl _)
    refine ⟨pre ++ (evs ++ [ev]), [], ev.after, ?_, .nil _, ?_, hNil, ?_, hSeen', hDistinct', ?_⟩
    · rw [hStart]
      refine .next hBased (Nat.lt_of_le_of_ne hLe hNe) hNewCkpt rfl ?_ ?_
        (.inr ⟨_, hTest ▸ hAsked⟩) hLonger
      · simp [hTrace, hChoices]
      · rw [hTest]
    · rw [hBorn.path, hPath, List.append_nil, List.append_assoc]
    · rw [hBorn.sig, hTest]
    · simp
  · obtain ⟨ckpt, hCkpt, _⟩ := hTracked.based.data
    have hRecorded : recorded ev.calls ≠ [] := by
      rcases hOwn with hNone | hRecorded
      · rw [hStart, hCkpt] at hNone
        cases hNone
      · exact hRecorded
    refine ⟨pre, evs ++ [ev], base, hStart ▸ hBased, hLonger, ?_, ?_, ?_, hSeen', hDistinct', ?_⟩
    · rw [hBorn.path, hPath, List.append_assoc]
    · simp [hCons, hTrace, hChoices]
    · rw [hBorn.sig, hTest]
    · intro ev' hMem
      rcases List.mem_append.mp hMem with hMem | hMem
      · exact hBranching ev' hMem
      · rw [List.mem_singleton.mp hMem]
        exact hRecorded

end

end Explode.Mcl
