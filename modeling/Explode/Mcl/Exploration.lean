import Explode.Lib.Worklist
import Explode.Mcl.SetState

/-!
# The search loop as a worklist search

The nodes are states of the harness, known by their signatures, and the
successors of a state are those in which its transition completes along a path
of its choices.
-/

namespace Explode.Mcl

open ChoiceTree Machine EnumRandom ModelChecker

variable {St Sig Data : Type*}

def State.rep (h : TestHarness St Sig Data) (s : State St Sig) : St :=
  s.path.getLast?.elim h.init Event.after

def completion (ret : TestRet) (st : St) : Option St := if ret = .exit then some st else none

def completed (paths : List (Calls × Outcome St)) : List St :=
  paths.filterMap fun p => completion p.2.ret p.2.state

def successors (h : TestHarness St Sig Data) (st : St) : List St :=
  if (h.hook .beforeNewTransition st).1 = .exit then completed (h.runOneTransition st).1.paths
  else []

/-- Where `push` may put a state. By its address, the priority queue puts it anywhere. -/
def discipline (St : Type*) (opt : Options) : Worklist.Discipline St where
  inserts x q q' := match opt.queue with
    | .bfs => q' = q ++ [x]
    | .dfs => q' = x :: q
    | .priority => ∃ front back, q = front ++ back ∧ q' = front ++ x :: back
  perm := by
    intro x q q' hInserts
    cases hQueue : opt.queue with
    | bfs =>
      simp only [hQueue] at hInserts
      exact hInserts ▸ List.perm_append_singleton x q
    | dfs =>
      simp only [hQueue] at hInserts
      exact hInserts ▸ .refl _
    | priority =>
      simp only [hQueue] at hInserts
      obtain ⟨front, back, rfl, rfl⟩ := hInserts
      exact List.perm_middle
  skips := opt.queue ≠ .priority

def searchOf (h : TestHarness St Sig Data) (mc : ModelChecker St Sig Data) :
    Worklist.Search St Sig where
  found := mc.visited.map Prod.fst
  queue := mc.q.map (State.rep h)
  done := mc.popped.map (State.rep h)

theorem mem_successors_iff {h : TestHarness St Sig Data} {st st' : St} :
    st' ∈ successors h st ↔ (h.hook .beforeNewTransition st).1 = .exit ∧
      ∃ ev, IsTransition h ev ∧ ev.before = st ∧ ev.ret = .exit ∧ ev.after = st' := by
  unfold successors
  split_ifs with hHook
  · rw [completed, List.mem_filterMap]
    refine ⟨?_, ?_⟩
    · rintro ⟨⟨calls, out⟩, hPath, hDone⟩
      rw [completion] at hDone
      split_ifs at hDone with hExit
      refine ⟨hHook, ⟨.runOneTransition, st, calls, out.ret, out.state⟩, ⟨rfl, out.score, ?_⟩, rfl,
        hExit, Option.some.inj hDone⟩
      exact (DecisionTree.mem_paths_iff ..).mp hPath
    · rintro ⟨_, ev, ⟨_, score, hPath⟩, rfl, hExit, rfl⟩
      refine ⟨_, (DecisionTree.mem_paths_iff ..).mpr hPath, ?_⟩
      rw [completion, if_pos hExit]
  · simp [hHook]

theorem Transitions.last_eq {h : TestHarness St Sig Data} {a b : St} {evs : List (Event St)}
    (hEvs : Transitions h a evs b) : evs.getLast?.elim a Event.after = b := by
  induction hEvs with
  | nil => rfl
  | @cons ev evs st _ _ _ ih =>
    rw [List.getLast?_cons]
    cases hLast : evs.getLast? with
    | none => simpa [hLast] using ih
    | some last => simpa [hLast] using ih

theorem inserts_push (h : TestHarness St Sig Data) (opt : Options) (s : State St Sig)
    (q : List (State St Sig)) : (discipline St opt).inserts (s.rep h) (q.map (State.rep h))
      ((push opt s q).map (State.rep h)) := by
  unfold push
  simp only [discipline]
  cases opt.queue with
  | bfs => simp
  | dfs => simp
  | priority =>
    refine ⟨(q.take (lowerBound q s.addr q.length 0 q.length)).map (State.rep h),
      (q.drop (lowerBound q s.addr q.length 0 q.length)).map (State.rep h), ?_, by simp⟩
    rw [← List.map_append, List.take_append_drop]

variable [DecidableEq Sig] {h : TestHarness St Sig Data} {opt : Options}
  {mc mc' m : ModelChecker St Sig Data} {s : State St Sig} {st cur : St} {stack : Calls}
  {tr : Option (Event St)}

theorem Restorable.rep_eq (hRest : Restorable h opt mc s st) : s.rep h = st := by
  obtain ⟨pre, evs, base, hTracked⟩ := hRest
  rw [State.rep, hTracked.path]
  exact (hTracked.based.transitions.append hTracked.transitions).last_eq

structure Added (h : TestHarness St Sig Data) (opt : Options) (mc mc' : ModelChecker St Sig Data)
    (t : Event St) (s : State St Sig) : Prop where
  exit : t.ret = .exit
  unseen : ¬mc.seen (h.getSig t.after)
  id : s.id = mc.numStates
  sig : s.sig = h.getSig t.after
  rep : s.rep h = t.after
  q : mc'.q = push opt s mc.q
  visited : mc'.visited = mc.visited ++ [(h.getSig t.after, mc.numStates)]
  ckpts : ∀ id ckpt, mc'.ckpts id = some ckpt → mc.ckpts id = some ckpt ∨ id = mc.numStates

def NextUnseen (h : TestHarness St Sig Data) (mc : ModelChecker St Sig Data) : Prop :=
  ∀ ev m, mc.call h .runOneTransition = some (ev, m) → ev.ret = .exit →
    ¬mc.seen (h.getSig ev.after)

instance (h : TestHarness St Sig Data) (mc : ModelChecker St Sig Data) :
    Decidable (NextUnseen h mc) :=
  decidable_of_iff (∀ r ∈ mc.call h .runOneTransition, r.1.ret = .exit →
      ¬mc.seen (h.getSig r.1.after))
    ⟨fun hAll ev m hCall => hAll (ev, m) hCall, fun hUnseen r hCall => hUnseen r.1 r.2 hCall⟩

section
variable (hProgress : Progress h opt mc mc' s tr)
  (hUnseen : opt.queue = .priority → ∀ t ∈ tr, t.ret = .exit → ¬mc.seen (h.getSig t.after))
include hProgress hUnseen

theorem Progress.same_or_added :
    (mc'.q = mc.q ∧ mc'.ckpts = mc.ckpts ∧ mc'.visited = mc.visited ∧
        ∀ t ∈ tr, t.ret = .exit → mc.seen (h.getSig t.after) ∧ opt.queue ≠ .priority) ∨
      ∃ t s', tr = some t ∧ Added h opt mc mc' t s' := by
  cases hProgress with
  | unchanged hq hCkpts hVisited _ hOld => exact .inl ⟨hq, hCkpts, hVisited, hOld⟩
  | @born t s' m m' hBorn hCkpts₀ hVisited₀ _ hTest _ hExit hNew hCkpts hVisited hq =>
    right
    have hNotSeen : ¬mc.seen (h.getSig t.after) := by
      by_cases hQueue : opt.queue = .priority
      · exact hUnseen hQueue t rfl hExit
      · rw [← seen_congr hVisited₀, ← hTest]
        exact fun hSeen => hNew ⟨hSeen, hQueue⟩
    have hStates : m.numStates = mc.numStates := by
      rw [ModelChecker.numStates, hVisited₀]
      rfl
    refine ⟨t, s', rfl, hExit, hNotSeen, hBorn.id.trans hStates, by rw [hBorn.sig, hTest], ?_,
      hq, ?_, ?_⟩
    · rw [State.rep, hBorn.path, List.getLast?_concat]
      rfl
    · rw [hVisited, hBorn.visited, hTest, hStates, visit_eq_of_not_seen, hVisited₀]
      rwa [seen_congr hVisited₀]
    · intro id ckpt hCkpt
      rw [hCkpts] at hCkpt
      rcases hBorn.start with ⟨_, _, _, hUpdate⟩ | ⟨_, _, _, hSame⟩
      · by_cases hId : id = m.numStates
        · exact .inr (hId.trans hStates)
        · rw [hUpdate, Function.update_of_ne hId, hCkpts₀] at hCkpt
          exact .inl hCkpt
      · rw [hSame, hCkpts₀] at hCkpt
        exact .inl hCkpt

theorem Progress.offers (hPopped : mc'.popped = mc.popped) :
    Worklist.Offers (discipline St opt) h.getSig (searchOf h mc)
      (tr.toList.filterMap fun t => completion t.ret t.after) (searchOf h mc') := by
  rcases hProgress.same_or_added hUnseen with
    ⟨hq, _, hVisited, hOld⟩ | ⟨t, s', rfl, hAdded⟩
  · have hSame : searchOf h mc' = searchOf h mc := by
      rw [searchOf, hq, hVisited, hPopped]
      rfl
    rw [hSame]
    cases tr with
    | none => exact .nil _
    | some t =>
      by_cases hExit : t.ret = .exit
      · obtain ⟨hSeen, hQueue⟩ := hOld t rfl hExit
        simp only [Option.toList_some, List.filterMap_cons, completion, if_pos hExit,
          List.filterMap_nil]
        exact .cons (.old hQueue ((seen_iff _).mp hSeen)) (.nil _)
      · simp only [Option.toList_some, List.filterMap_cons, completion, if_neg hExit,
          List.filterMap_nil]
        exact .nil _
  · have hNext : searchOf h mc' = { searchOf h mc with
        found := (searchOf h mc).found ++ [h.getSig t.after]
        queue := (push opt s' mc.q).map (State.rep h) } := by
      simp [searchOf, hAdded.q, hAdded.visited, hPopped]
    have hInserts := inserts_push h opt s' mc.q
    rw [hAdded.rep] at hInserts
    simp only [Option.toList_some, List.filterMap_cons, completion, if_pos hAdded.exit,
      List.filterMap_nil]
    rw [hNext]
    refine .cons (.new (fun hFound => hAdded.unseen ?_) hInserts) (.nil _)
    exact (seen_iff _).mpr hFound

end

def State.placeless (s : State St Sig) : State St Sig := { s with addr := 0 }

structure Relocated (mc mc' : ModelChecker St Sig Data) : Prop where
  q : mc'.q.map State.placeless = mc.q.map State.placeless
  popped : mc'.popped = mc.popped
  ckpts : mc'.ckpts = mc.ckpts
  visited : mc'.visited = mc.visited

/-- Every checkpoint and every state has an id below the number of signatures, and a state has the
signature of the harness state it stands for. -/
structure Tabled (h : TestHarness St Sig Data) (mc : ModelChecker St Sig Data) : Prop where
  under : CkptsUnder mc
  ids : ((mc.popped ++ mc.q).map State.id).Perm (List.range mc.numStates)
  sigs : ∀ s ∈ mc.popped ++ mc.q, s.sig = h.getSig (s.rep h)

structure Searching (h : TestHarness St Sig Data) (opt : Options)
    (mc : ModelChecker St Sig Data) : Prop extends Tabled h mc where
  inv : Inv h opt mc

omit [DecidableEq Sig] in
theorem Tabled.congr (hTabled : Tabled h mc) (hCkpts : mc'.ckpts = mc.ckpts)
    (hVisited : mc'.visited = mc.visited)
    (hAll : (mc'.popped ++ mc'.q).map State.placeless = (mc.popped ++ mc.q).map State.placeless) :
    Tabled h mc' where
  under := hTabled.under.congr hCkpts hVisited
  ids := by
    have hIds := congrArg (List.map State.id) hAll
    rw [List.map_map, List.map_map] at hIds
    have hPerm := hTabled.ids
    rw [show (mc.popped ++ mc.q).map State.id = (mc'.popped ++ mc'.q).map State.id from hIds.symm]
      at hPerm
    simpa only [ModelChecker.numStates, hVisited] using hPerm
  sigs s hs := by
    have hMem : s.placeless ∈ (mc.popped ++ mc.q).map State.placeless :=
      hAll ▸ List.mem_map_of_mem hs
    obtain ⟨s₀, hs₀, hEq⟩ := List.mem_map.mp hMem
    obtain ⟨hSig, hPath⟩ : s₀.sig = s.sig ∧ s₀.path = s.path :=
      ⟨congrArg (·.sig) hEq, congrArg (·.path) hEq⟩
    rw [← hSig, hTabled.sigs s₀ hs₀, State.rep, State.rep, hPath]

omit [DecidableEq Sig] in
theorem Relocated.tabled (hSame : Relocated mc mc') (hTabled : Tabled h mc) : Tabled h mc' :=
  hTabled.congr hSame.ckpts hSame.visited (by
    rw [List.map_append, List.map_append, hSame.q, hSame.popped])

omit [DecidableEq Sig] in
theorem Relocated.searchOf_eq (hSame : Relocated mc mc') (h : TestHarness St Sig Data) :
    searchOf h mc' = searchOf h mc := by
  have hReps := congrArg (List.map (State.rep h)) hSame.q
  rw [List.map_map, List.map_map] at hReps
  rw [searchOf, searchOf, hSame.popped, hSame.visited]
  exact congrArg (fun q => Worklist.Search.mk _ q _) hReps

theorem Tabled.progress (hTabled : Tabled h mc) (hProgress : Progress h opt mc mc' s tr)
    (hUnseen : opt.queue = .priority → ∀ t ∈ tr, t.ret = .exit → ¬mc.seen (h.getSig t.after))
    (hPopped : mc'.popped = mc.popped) : Tabled h mc' := by
  rcases hProgress.same_or_added hUnseen with
    ⟨hq, hCkpts, hVisited, _⟩ | ⟨t, s', rfl, hAdded⟩
  · exact hTabled.congr hCkpts hVisited (by rw [hPopped, hq])
  · have hStates : mc'.numStates = mc.numStates + 1 := by
      simp [ModelChecker.numStates, hAdded.visited]
    have hAll : (mc'.popped ++ mc'.q).Perm (s' :: (mc.popped ++ mc.q)) := by
      rw [hPopped, hAdded.q]
      exact ((push_perm opt s' mc.q).append_left mc.popped).trans List.perm_middle
    refine ⟨?_, ?_, ?_⟩
    · intro id ckpt hCkpt
      rw [hStates]
      rcases hAdded.ckpts id ckpt hCkpt with hOld | rfl
      · exact Nat.lt_succ_of_lt (hTabled.under id ckpt hOld)
      · exact Nat.lt_succ_self _
    · rw [hStates, List.range_succ]
      calc (mc'.popped ++ mc'.q).map State.id
        _ |>.Perm (mc.numStates :: (mc.popped ++ mc.q).map State.id) := by
          simpa only [List.map_cons, hAdded.id] using hAll.map State.id
        _ |>.Perm (mc.numStates :: List.range mc.numStates) := .cons _ hTabled.ids
        _ |>.Perm (List.range mc.numStates ++ [mc.numStates]) :=
          (List.perm_append_singleton _ _).symm
    · intro s hs
      rcases List.mem_cons.mp (hAll.subset hs) with rfl | hs
      · rw [hAdded.sig, hAdded.rep]
      · exact hTabled.sigs s hs

theorem Searching.map_sig_popped (hSearching : Searching h opt mc) :
    mc.popped.map State.sig = (searchOf h mc).done.map h.getSig := by
  rw [searchOf, List.map_map]
  exact List.map_congr_left fun s hs => hSearching.sigs s (List.mem_append_left _ hs)

theorem searching_modelCheck (h : TestHarness St Sig Data) (opt : Options) :
    Searching h opt (modelCheck h opt) where
  inv := inv_modelCheck h opt
  under := by
    intro id ckpt hCkpt
    have hId : id = 0 := by
      by_contra hNe
      rw [modelCheck_ckpts, if_neg hNe] at hCkpt
      cases hCkpt
    rw [hId, ModelChecker.numStates, modelCheck_visited]
    exact Nat.one_pos
  ids := by
    rw [modelCheck_q, ModelChecker.numStates, modelCheck_visited]
    exact .refl _
  sigs := by
    intro s hs
    rw [modelCheck_q] at hs
    obtain rfl := List.mem_singleton.mp hs
    rfl

theorem searchOf_modelCheck (h : TestHarness St Sig Data) (opt : Options) :
    searchOf h (modelCheck h opt) = Worklist.start h.getSig h.init := by
  rw [searchOf, modelCheck_q, modelCheck_visited]
  rfl

/-- The outcome of a round that expands s: its transition if one was run, with the generator
after it, and whether there is another round for s. -/
structure RoundEnds (h : TestHarness St Sig Data) (opt : Options)
    (mc mc' : ModelChecker St Sig Data) (s : State St Sig) (st : St) (tr : Option (Event St))
    (g : Random) : Prop where
  inv : Inv h opt mc'
  progress : ∃ m, Progress h opt mc m s tr ∧ m.popped = mc.popped ∧ Relocated m mc'
  run : RoundRun h st mc.rand g tr
  tried : tr = none ↔ (h.hook .beforeNewTransition st).1 ≠ .exit
  next : (mc'.pc = .restore ∧ mc'.mode = .modelCheck ∧ mc'.curr = some s ∧
        g.repeat = some (true, mc'.rand)) ∨
      mc'.pc = .top ∧ ∃ g', g.repeat = some (false, g')

structure Runs (h : TestHarness St Sig Data) (opt : Options)
    (next : ModelChecker St Sig Data → Option (ModelChecker St Sig Data)) : Prop where
  simulation : opt.simulation = false
  contract : h.Contract
  other : ∀ mc, mc.pc ≠ .fresh → next mc = mc.step h opt
  unseen : opt.queue = .priority →
    ∀ mc, Reaches next (modelCheck h opt) mc → mc.pc = .fresh → NextUnseen h mc
  round : ∀ mc s st, Reaches next (modelCheck h opt) mc → Searching h opt mc →
    Setting h opt mc s st mc.rand 0 → RoundGen h opt st mc.rand →
    ∃ mc' tr g, next mc = some mc' ∧ RoundEnds h opt mc mc' s st tr g

theorem SetsState.reaches_of {next : ModelChecker St Sig Data → Option (ModelChecker St Sig Data)}
    (hOther : ∀ mc, mc.pc ≠ .fresh → next mc = mc.step h opt) (hSets : SetsState h opt mc mc')
    (hPc : mc.pc ≠ .fresh) : Reaches next mc mc' := by
  induction hSets with
  | last hStep _ => exact .head ((hOther _ hPc).trans hStep) (.refl _ _)
  | more hStep hRegen _ ih =>
    exact .head ((hOther _ hPc).trans hStep) (ih (by simp [hRegen]))

theorem restorable_of_restore (hInv : Inv h opt mc) (hPc : mc.pc = .restore)
    (hCurr : mc.curr = some s) (hRep : s.rep h = st) : Restorable h opt mc s st := by
  cases hInv.located with
  | restore _ _ hCurr₁ hRest _ =>
    cases hCurr₁.symm.trans hCurr
    exact hRest.rep_eq.symm.trans hRep ▸ hRest
  | top hTop => cases hTop.symm.trans hPc
  | setting hSetting =>
    cases hSetting with
    | regen _ hRegen => cases hRegen.symm.trans hPc
    | fresh hFresh => cases hFresh.symm.trans hPc
  | stopped hStop => rcases hStop with hStop | hStop <;> cases hStop.symm.trans hPc

theorem step_top (hInv : Inv h opt mc) (hSim : opt.simulation = false) (hPc : mc.pc = .top)
    {q : List (State St Sig)} (hq : mc.q = s :: q) :
    ∃ mc', mc.step h opt = some mc' ∧ mc'.pc = .restore ∧ mc'.mode = .modelCheck ∧
      mc'.curr = some s ∧ mc'.rand = .enum (ofStack [] (-1)) ∧ mc'.ckpts = mc.ckpts ∧
      mc'.visited = mc.visited ∧ mc'.popped = mc.popped ++ [s] ∧ mc'.q = q := by
  cases hInv.located with
  | top _ hMode hRand =>
    have hReset : mc.rand.reset = .enum (ofStack [] (-1)) := by
      obtain ⟨e, hEnum⟩ := (hRand h.init).gen.exists_enum hSim
      cases hCase : mc.rand with
      | enum g => rfl
      | unix g =>
        rw [hCase] at hEnum
        cases hEnum
      | replay g =>
        rw [hCase] at hEnum
        cases hEnum
    refine ⟨{ mc with q := q, curr := some s, rand := mc.rand.reset, pc := .restore,
                      popped := mc.popped ++ [s] }, ?_, rfl, hMode, rfl, hReset, rfl, rfl, rfl, rfl⟩
    rw [step, body, hPc, hq]
  | restore hRestore => cases hRestore.symm.trans hPc
  | setting hSetting =>
    cases hSetting with
    | regen _ hRegen => cases hRegen.symm.trans hPc
    | fresh hFresh => cases hFresh.symm.trans hPc
  | stopped hStop => rcases hStop with hStop | hStop <;> cases hStop.symm.trans hPc

inductive Between (mc mc' : ModelChecker St Sig Data) : Prop
  | stop (hPc : mc.pc = .top) (hq : mc.q = []) (hEq : mc' = { mc with pc := .done }) :
      Between mc mc'
  | pop {s : State St Sig} {q : List (State St Sig)} (hPc : mc.pc = .top) (hq : mc.q = s :: q)
      (hEq : mc' = { mc with q := q, curr := some s, rand := mc.rand.reset, pc := .restore,
                             popped := mc.popped ++ [s] }) : Between mc mc'
  | restoring (hPc : mc'.pc = .regen ∨ mc'.pc = .fresh) (hSame : SameTables mc mc') : Between mc mc'
  | stopped (hPc : mc.pc = .done ∨ mc.pc = .exited) (hEq : mc' = mc) : Between mc mc'

theorem step_between (hContract : h.Contract) (hInv : Inv h opt mc) (hPc : mc.pc ≠ .fresh)
    (hStep : mc.step h opt = some mc') : Between mc mc' := by
  have hSetting : ∀ {s : State St Sig} {st : St} {g : Random} {n : Nat},
      Setting h opt mc' s st g n → mc'.pc = .regen ∨ mc'.pc = .fresh := by
    intro s st g n hSetting
    cases hSetting with
    | regen _ hRegen => exact .inl hRegen
    | fresh hFresh => exact .inr hFresh
  cases hInv.located with
  | top hTop hMode hRand =>
    rw [step, body, hTop] at hStep
    cases hq : mc.q with
    | nil =>
      simp only [hq, Option.some.injEq] at hStep
      exact .stop hTop hq (by rw [← hStep, hq])
    | cons s q =>
      simp only [hq, Option.some.injEq] at hStep
      exact .pop hTop hq hStep.symm
  | restore hRestore hMode hCurr hRest hGen =>
    obtain ⟨mc₁, n, hStep₁, hSame, hSetting₁⟩ := step_restore hContract hRestore hMode hCurr hRest
    cases hStep₁.symm.trans hStep
    exact .restoring (hSetting hSetting₁) hSame
  | @setting s st g n hOld hGen =>
    cases n with
    | zero =>
      cases hOld with
      | fresh hFresh => exact absurd hFresh hPc
    | succ n =>
      obtain ⟨mc₁, hStep₁, hSame, hSetting₁⟩ := step_regen hOld
      cases hStep₁.symm.trans hStep
      exact .restoring (hSetting hSetting₁) hSame
  | stopped hStop =>
    have hBody : mc.body h opt = .ok mc := by
      rcases hStop with hStop | hStop <;> rw [body, hStop]
    rw [step, hBody] at hStep
    exact .stopped hStop (Option.some.inj hStep).symm

omit [DecidableEq Sig] in
theorem Between.tables (hBetween : Between mc mc') : mc'.ckpts = mc.ckpts ∧
    mc'.visited = mc.visited ∧ mc'.popped ++ mc'.q = mc.popped ++ mc.q := by
  cases hBetween with
  | stop _ _ hEq => exact hEq ▸ ⟨rfl, rfl, rfl⟩
  | pop _ hq hEq => exact hEq ▸ ⟨rfl, rfl, by simp [hq]⟩
  | restoring _ hSame => exact ⟨hSame.ckpts, hSame.visited, by rw [hSame.popped, hSame.q]⟩
  | stopped _ hEq => exact hEq ▸ ⟨rfl, rfl, rfl⟩

structure Waiting (h : TestHarness St Sig Data) (opt : Options)
    (next : ModelChecker St Sig Data → Option (ModelChecker St Sig Data))
    (mc : ModelChecker St Sig Data) (s : State St Sig) (st : St) : Prop where
  reach : Reaches next (modelCheck h opt) mc
  pc : mc.pc = .restore
  mode : mc.mode = .modelCheck
  curr : mc.curr = some s
  rest : Restorable h opt mc s st

section
variable {next : ModelChecker St Sig Data → Option (ModelChecker St Sig Data)}
  (hRuns : Runs h opt next)
include hRuns

theorem Runs.unseen_of_round {g : Random} (hReach : Reaches next (modelCheck h opt) mc)
    (hPc : mc.pc = .fresh) (hTest : mc.test = st) (hEnds : RoundEnds h opt mc mc' s st tr g)
    (hQueue : opt.queue = .priority) : ∀ t ∈ tr, t.ret = .exit → ¬mc.seen (h.getSig t.after) := by
  rintro t rfl hExit
  obtain ⟨score, hRun⟩ := hEnds.run
  rw [← hTest] at hRun
  let ev : Event St := ⟨.runOneTransition, mc.test, t.calls, t.ret, t.after⟩
  have hCall : mc.call h .runOneTransition = some (ev, mc.ran ev g score) := by
    rw [call, hRun]
    rfl
  exact hRuns.unseen hQueue mc hReach hPc ev _ hCall hExit

theorem Runs.round_of_fresh (hReach : Reaches next (modelCheck h opt) mc)
    (hSearching : Searching h opt mc) (hPc : mc.pc = .fresh) (hNext : next mc = some mc') :
    ∃ s st tr g, RoundEnds h opt mc mc' s st tr g ∧
      (opt.queue = .priority → ∀ t ∈ tr, t.ret = .exit → ¬mc.seen (h.getSig t.after)) := by
  obtain ⟨s, st, hSetting, hGen⟩ := hSearching.inv.setting_of_fresh hPc
  obtain ⟨mc₁, tr, g, hNext₁, hEnds⟩ := hRuns.round mc s st hReach hSearching hSetting hGen
  cases hNext₁.symm.trans hNext
  cases hSetting with
  | fresh _ _ _ _ hTest _ =>
    exact ⟨s, st, tr, g, hEnds, hRuns.unseen_of_round hReach hPc hTest hEnds⟩

theorem Runs.searching_next (hReach : Reaches next (modelCheck h opt) mc)
    (hSearching : Searching h opt mc) (hNext : next mc = some mc') : Searching h opt mc' := by
  by_cases hPc : mc.pc = .fresh
  · obtain ⟨s, st, tr, g, hEnds, hUnseen⟩ := hRuns.round_of_fresh hReach hSearching hPc hNext
    obtain ⟨m, hProgress, hPopped, hSame⟩ := hEnds.progress
    exact ⟨hSame.tabled (hSearching.progress hProgress hUnseen hPopped), hEnds.inv⟩
  · rw [hRuns.other mc hPc] at hNext
    have hKeeps := keepsStates_of_next hRuns.contract hSearching.inv hSearching.under
      (fun hFresh => absurd hFresh hPc) hNext
    obtain ⟨hCkpts, hVisited, hAll⟩ :=
      (step_between hRuns.contract hSearching.inv hPc hNext).tables
    exact ⟨hSearching.congr hCkpts hVisited (congrArg _ hAll),
      inv_step hRuns.contract hSearching.inv hNext hKeeps⟩

theorem Runs.searching (hReach : Reaches next (modelCheck h opt) mc) : Searching h opt mc := by
  obtain ⟨n, hRun⟩ := hReach
  induction n generalizing mc with
  | zero =>
    cases hRun
    exact searching_modelCheck h opt
  | succ n ih =>
    rw [steps_succ] at hRun
    obtain ⟨m, hm, hNext⟩ := Option.bind_eq_some_iff.mp hRun
    exact hRuns.searching_next ⟨n, hm⟩ (ih hm) hNext

theorem Runs.round_reaches (hWaiting : Waiting h opt next mc s st)
    (hGen : RoundGen h opt st mc.rand) :
    ∃ mc₁ mc' tr g, Reaches next mc mc' ∧ mc'.popped = mc.popped ∧
      mc₁.rand = mc.rand ∧ RoundEnds h opt mc₁ mc' s st tr g ∧
      Worklist.Offers (discipline St opt) h.getSig (searchOf h mc)
        (tr.toList.filterMap fun t => completion t.ret t.after) (searchOf h mc') := by
  obtain ⟨mc₁, hSets, hSame, hSetting⟩ :=
    setsState_of_restorable hRuns.contract hWaiting.pc hWaiting.mode hWaiting.curr hWaiting.rest
  have hReach₁ := hSets.reaches_of hRuns.other (by simp [hWaiting.pc])
  have hSearch₁ : searchOf h mc₁ = searchOf h mc := by
    rw [searchOf, hSame.visited, hSame.q, hSame.popped]
    rfl
  cases hSetting with
  | fresh hPc₁ hMode₁ hCurr₁ hRest₁ hTest₁ hRand₁ =>
  rw [← hRand₁] at hGen
  have hReach₀ := hWaiting.reach.trans hReach₁
  obtain ⟨mc', tr, g, hNext, hEnds⟩ := hRuns.round mc₁ s st hReach₀ (hRuns.searching hReach₀)
    (.fresh hPc₁ hMode₁ hCurr₁ hRest₁ hTest₁ rfl) hGen
  obtain ⟨m, hProgress, hPopped, hRelocated⟩ := hEnds.progress
  have hOffers := hProgress.offers (hRuns.unseen_of_round hReach₀ hPc₁ hTest₁ hEnds) hPopped
  rw [hSearch₁, ← hRelocated.searchOf_eq] at hOffers
  exact ⟨mc₁, mc', tr, g, hReach₁.trans (.head hNext (.refl _ _)),
    hRelocated.popped.trans (hPopped.trans hSame.popped), hRand₁, hEnds, hOffers⟩

theorem Runs.refused_reaches (hWaiting : Waiting h opt next mc s st)
    (hRand : mc.rand = .enum (ofStack [] (-1)))
    (hHook : (h.hook .beforeNewTransition st).1 ≠ .exit) :
    ∃ mc', Reaches next mc mc' ∧ mc'.pc = .top ∧ mc'.popped = mc.popped ∧
      Worklist.Offers (discipline St opt) h.getSig (searchOf h mc) [] (searchOf h mc') := by
  have hGen : RoundGen h opt st mc.rand :=
    hRand ▸ ⟨.enum hRuns.simulation (DecisionTree.Fits.nil _), fun hNe => absurd rfl hNe⟩
  obtain ⟨mc₁, mc', tr, g, hReach', hPopped, hRand₁, hEnds, hOffers⟩ :=
    hRuns.round_reaches hWaiting hGen
  obtain rfl := hEnds.tried.mpr hHook
  refine ⟨mc', hReach', ?_, hPopped, hOffers⟩
  rcases hEnds.next with ⟨_, _, _, hRepeat⟩ | ⟨hTop, _⟩
  · have hSame : g = mc₁.rand := hEnds.run
    rw [hSame, hRand₁, hRand] at hRepeat
    cases hRepeat
  · exact hTop

theorem Runs.path_reaches (hHook : (h.hook .beforeNewTransition st).1 = .exit)
    (hFits : (h.runOneTransition st).1.Fits stack) (hWaiting : Waiting h opt next mc s st)
    (hRand : mc.rand = .enum (ofStack stack (-1))) :
    ∃ mc', Reaches next mc mc' ∧ mc'.popped = mc.popped ∧
      (match advance (recorded ((h.runOneTransition st).1.complete stack).1) with
        | some stack => mc'.pc = .restore ∧ mc'.mode = .modelCheck ∧ mc'.curr = some s ∧
            mc'.rand = .enum (ofStack stack (-1))
        | none => mc'.pc = .top) ∧
      Worklist.Offers (discipline St opt) h.getSig (searchOf h mc)
        (completed [(h.runOneTransition st).1.complete stack]) (searchOf h mc') := by
  have hGen : RoundGen h opt st mc.rand := by
    refine ⟨?_, fun _ => hHook⟩
    rw [hRuns.contract.beforeNewTransition, hRand]
    exact .enum hRuns.simulation hFits
  obtain ⟨mc₁, mc', tr, g, hReach', hPopped, hRand₁, hEnds, hOffers⟩ :=
    hRuns.round_reaches hWaiting hGen
  have hSome : tr ≠ none := fun hNone => hEnds.tried.mp hNone hHook
  obtain ⟨t, rfl⟩ := Option.ne_none_iff_exists'.mp hSome
  -- the transition is the one that completes the stack
  obtain ⟨score, hRun⟩ := hEnds.run
  obtain ⟨score', hEnum⟩ := run_enum hFits
  rw [hRand₁, hRand, hEnum] at hRun
  simp only [Option.some.injEq, Prod.mk.injEq, Outcome.mk.injEq] at hRun
  obtain ⟨_, ⟨hRet, hAfter, _⟩, hg⟩ := hRun
  obtain ⟨hFlag, hNext⟩ := EnumRandom.repeat_eq (recorded (enumEvent h st stack).calls)
    (inRange_recorded (isTransition_enumEvent hFits).inRange)
  refine ⟨mc', hReach', hPopped, ?_, ?_⟩
  · have hNextRound := hEnds.next
    rw [← hg] at hNextRound
    change match advance (recorded (enumEvent h st stack).calls) with
      | some stack => _
      | none => _
    cases hAdvance : advance (recorded (enumEvent h st stack).calls) with
    | none =>
      rw [hAdvance] at hFlag
      rcases hNextRound with ⟨_, _, _, hRepeat⟩ | ⟨hTop, _⟩
      · obtain ⟨r, hr, hEq⟩ := Option.map_eq_some_iff.mp hRepeat
        rw [hr, Option.map_some, (Prod.mk.inj hEq).1] at hFlag
        cases hFlag
      · exact hTop
    | some stack' =>
      have hMore := hNext stack' hAdvance
      rcases hNextRound with ⟨hPc', hMode', hCurr', hRepeat⟩ | ⟨_, g', hRepeat⟩
      · simp only [Random.repeat, hMore, Option.map_some, Option.some.injEq, Prod.mk.injEq]
          at hRepeat
        exact ⟨hPc', hMode', hCurr', hRepeat.2.symm⟩
      · simp [Random.repeat, hMore] at hRepeat
  · simp only [Option.toList_some, List.filterMap_cons, List.filterMap_nil] at hOffers
    rw [← hRet, ← hAfter] at hOffers
    exact hOffers

theorem Runs.rounds_reach (hHook : (h.hook .beforeNewTransition st).1 = .exit)
    (rest : List (Calls × Outcome St)) (stack : Calls)
    (hFits : (h.runOneTransition st).1.Fits stack)
    (hChain : ((h.runOneTransition st).1.complete stack :: rest).IsChain
      (h.runOneTransition st).1.Next)
    (hLast : ∀ p ∈ ((h.runOneTransition st).1.complete stack :: rest).getLast?,
      advance (recorded p.1) = none) (mc : ModelChecker St Sig Data)
    (hWaiting : Waiting h opt next mc s st) (hRand : mc.rand = .enum (ofStack stack (-1))) :
    ∃ mc', Reaches next mc mc' ∧ mc'.pc = .top ∧ mc'.popped = mc.popped ∧
      Worklist.Offers (discipline St opt) h.getSig (searchOf h mc)
        (completed ((h.runOneTransition st).1.complete stack :: rest)) (searchOf h mc') := by
  induction rest generalizing stack mc with
  | nil =>
    obtain ⟨mc', hReach', hPopped, hEnd, hOffers⟩ :=
      hRuns.path_reaches hHook hFits hWaiting hRand
    have hStop : advance (recorded ((h.runOneTransition st).1.complete stack).1) = none :=
      hLast _ (by simp)
    rw [hStop] at hEnd
    exact ⟨mc', hReach', hEnd, hPopped, hOffers⟩
  | cons p rest ih =>
    obtain ⟨mc₁, hReach₁, hPopped₁, hEnd, hOffers₁⟩ :=
      hRuns.path_reaches hHook hFits hWaiting hRand
    obtain ⟨⟨stack₁, hAdvance, rfl⟩, hTail⟩ := List.isChain_cons_cons.mp hChain
    rw [hAdvance] at hEnd
    obtain ⟨hPc₁, hMode₁, hCurr₁, hRand₁⟩ := hEnd
    have hPath := hFits.isPath_complete ((h.runOneTransition st).2.imp fun _ hCeil => hCeil.1)
    have hReach := hWaiting.reach.trans hReach₁
    have hRest := restorable_of_restore (hRuns.searching hReach).inv hPc₁ hCurr₁
      hWaiting.rest.rep_eq
    obtain ⟨mc₂, hReach₂, hPc₂, hPopped₂, hOffers₂⟩ := ih stack₁
      (hPath.fits_advance hAdvance) hTail (fun p hp => hLast p (by rwa [List.getLast?_cons_cons]))
      mc₁ ⟨hReach, hPc₁, hMode₁, hCurr₁, hRest⟩ hRand₁
    refine ⟨mc₂, hReach₁.trans hReach₂, hPc₂, hPopped₂.trans hPopped₁, ?_⟩
    have hAll := hOffers₁.append hOffers₂
    rwa [completed, completed, ← List.filterMap_append] at hAll

theorem Runs.expand_reaches (hReach : Reaches next (modelCheck h opt) mc) (hPc : mc.pc = .top)
    (hQueue : (searchOf h mc).queue ≠ []) :
    ∃ mc', Reaches next mc mc' ∧ mc'.pc = .top ∧
      Worklist.Step (discipline St opt) h.getSig (successors h) (searchOf h mc)
        (searchOf h mc') := by
  obtain ⟨s, q, hq⟩ := List.exists_cons_of_ne_nil (fun hNil : mc.q = [] => hQueue (by
    rw [searchOf, hNil]
    rfl))
  obtain ⟨mc₁, hStep, hPc₁, hMode₁, hCurr₁, hRand₁, hCkpts₁, hVisited₁, hPopped₁, hq₁⟩ :=
    step_top (hRuns.searching hReach).inv hRuns.simulation hPc hq
  have hNext : next mc = some mc₁ := (hRuns.other mc (by simp [hPc])).trans hStep
  have hReach₁ : Reaches next mc mc₁ := .head hNext (.refl _ _)
  have hInv₁ := (hRuns.searching (hReach.trans hReach₁)).inv
  have hSearch₁ : searchOf h mc₁ = ⟨(searchOf h mc).found, q.map (State.rep h),
      (searchOf h mc).done ++ [s.rep h]⟩ := by
    simp [searchOf, hVisited₁, hq₁, hPopped₁]
  have hWaiting : Waiting h opt next mc₁ s (s.rep h) :=
    ⟨hReach.trans hReach₁, hPc₁, hMode₁, hCurr₁, restorable_of_restore hInv₁ hPc₁ hCurr₁ rfl⟩
  obtain ⟨mc₂, hReach₂, hPc₂, _, hOffers⟩ : ∃ mc', Reaches next mc₁ mc' ∧ mc'.pc = .top ∧
      mc'.popped = mc₁.popped ∧
      Worklist.Offers (discipline St opt) h.getSig (searchOf h mc₁) (successors h (s.rep h))
        (searchOf h mc') := by
    unfold successors
    split_ifs with hHook
    · have hPos : (h.runOneTransition (s.rep h)).1.Widths (0 < ·) :=
        (h.runOneTransition (s.rep h)).2.imp fun _ hCeil => hCeil.1
      obtain ⟨first, rest, hPaths⟩ := List.exists_cons_of_ne_nil (DecisionTree.paths_ne_nil hPos)
      have hHead := DecisionTree.head?_paths hPos
      rw [hPaths, List.head?_cons] at hHead
      obtain rfl := Option.some.inj hHead
      have hChain := DecisionTree.isChain_paths hPos
      have hLast := DecisionTree.advance_last hPos
      rw [hPaths] at hChain hLast ⊢
      exact hRuns.rounds_reach hHook rest [] (.nil _) hChain hLast mc₁ hWaiting hRand₁
    · exact hRuns.refused_reaches hWaiting hRand₁ hHook
  rw [hSearch₁] at hOffers
  refine ⟨mc₂, hReach₁.trans hReach₂, hPc₂, .expand ?_ hOffers⟩
  rw [searchOf, hq]
  rfl

theorem Runs.ends
    (hFinite :
      {sig | ∃ st, Worklist.Reachable (successors h) h.init st ∧ h.getSig st = sig}.Finite) :
    ∃ mc, Reaches next (modelCheck h opt) mc ∧ mc.pc = .done ∧ mc.q = [] ∧
      Relation.ReflTransGen (Worklist.Step (discipline St opt) h.getSig (successors h))
        (Worklist.start h.getSig h.init) (searchOf h mc) := by
  have hExpand : ∀ m, (Reaches next (modelCheck h opt) m ∧ m.pc = .top) →
      (searchOf h m).queue ≠ [] → ∃ m', Reaches next m m' ∧
        (Reaches next (modelCheck h opt) m' ∧ m'.pc = .top) ∧
        Worklist.Step (discipline St opt) h.getSig (successors h) (searchOf h m)
          (searchOf h m') := by
    rintro m ⟨hReach, hPc⟩ hQueue
    obtain ⟨m', hReach', hPc', hStep⟩ := hRuns.expand_reaches hReach hPc hQueue
    exact ⟨m', hReach', ⟨hReach.trans hReach', hPc'⟩, hStep⟩
  have hSound := Worklist.sound_start (discipline St opt) h.getSig (successors h) h.init
  have hSearch := searchOf_modelCheck h opt
  rw [← hSearch] at hSound
  obtain ⟨m, hReach, ⟨_, hPc⟩, hEmpty, hRun⟩ := Worklist.exists_ended (searchOf h) hExpand hFinite
    (fun x hx => ⟨x, hx, rfl⟩) ⟨.refl _ _, rfl⟩ hSound
  have hq : m.q = [] := List.map_eq_nil_iff.mp hEmpty
  have hStep : m.step h opt = some { m with pc := .done } := by
    rw [step, body, hPc, hq]
  have hNext := (hRuns.other m (by simp [hPc])).trans hStep
  rw [hSearch] at hRun
  exact ⟨_, hReach.trans (.head hNext (.refl _ _)), rfl, hq, hRun⟩

end

theorem InRound.tried {mc₀ : ModelChecker St Sig Data} (hIn : InRound h opt mc₀ m s st tr cur)
    (hNone : tr = none → (h.hook .beforeNewTransition st).1 ≠ .exit) :
    tr = none ↔ (h.hook .beforeNewTransition st).1 ≠ .exit := by
  refine ⟨hNone, fun hHook => ?_⟩
  cases tr with
  | none => rfl
  | some t => exact absurd hIn.gen.2.2.1 hHook

theorem RoundDone.ends (hContract : h.Contract) (hSim : opt.simulation = false)
    (hKept : ∀ {m tr cur}, InRound h opt mc m s st tr cur → Kept h opt m s st)
    (hDone : RoundDone h opt mc s st mc') : ∃ tr g, RoundEnds h opt mc mc' s st tr g := by
  have hInv := hDone.inv fun hIn _ _ => hKept hIn
  cases hDone with
  | @again m t cur g hIn hRepeat _ =>
    exact ⟨some t, m.rand, hInv, ⟨m, hIn.progress, hIn.popped, ⟨rfl, rfl, rfl, rfl⟩⟩,
      hIn.run_eq hContract,
      hIn.tried (fun hNone => absurd hNone (Option.some_ne_none t)),
      .inl ⟨rfl, hIn.mode, hIn.curr, hRepeat⟩⟩
  | @expanded m tr cur g hIn hRepeat hNone _ =>
    exact ⟨tr, m.rand, hInv, ⟨m, hIn.progress, hIn.popped, ⟨rfl, rfl, rfl, rfl⟩⟩,
      hIn.run_eq hContract,
      hIn.tried hNone, .inr ⟨by simp [hSim], g, hRepeat⟩⟩

theorem runs_step (hContract : h.Contract) (hSim : opt.simulation = false)
    (hExit : ∀ mc, Reaches (step h opt) (modelCheck h opt) mc → mc.pc ≠ .exited)
    (hRestorable : ∀ mc, Reaches (step h opt) (modelCheck h opt) mc → Inv h opt mc →
      mc.pc = .fresh → NextRestorable h mc)
    (hUnseen : opt.queue = .priority → ∀ mc, Reaches (step h opt) (modelCheck h opt) mc →
      mc.pc = .fresh → NextUnseen h mc) : Runs h opt (step h opt) where
  simulation := hSim
  contract := hContract
  other _ _ := rfl
  unseen := hUnseen
  round := by
    intro mc s st hReach hSearching hSetting hGen
    cases hSetting with
    | fresh hPc hMode hCurr hRest hTest _ =>
    have hBody : mc.body h opt = mc.stepFresh h opt := by rw [body, hPc]
    have hEnds := ends_stepFresh hMode hCurr hTest hGen
    have hKept : ∀ {m tr cur}, InRound h opt mc m s st tr cur → Kept h opt m s st :=
      fun hIn => hIn.stays hContract hSearching.inv hRest
        (hIn.keepsStates hContract hTest hSearching.under
          (hRestorable mc hReach hSearching.inv hPc))
    rw [← hBody] at hEnds
    cases hCase : mc.body h opt with
    | ok mc' =>
      rw [hCase] at hEnds
      obtain ⟨tr, g, hRoundEnds⟩ := RoundDone.ends hContract hSim hKept hEnds
      exact ⟨mc', tr, g, by rw [step, hCase], hRoundEnds⟩
    | error e =>
      cases e with
      | exit m =>
        have hStep : mc.step h opt = some { m with pc := .exited } := by rw [step, hCase]
        exact absurd rfl (hExit _ (hReach.trans (.head hStep (.refl _ _))))
      | fail =>
        rw [hCase] at hEnds
        obtain ⟨m, tr, cur, hIn, hNone⟩ := hEnds
        obtain ⟨_, _, _, hTracked⟩ := (hKept hIn).rest
        cases hTracked.fullTrace_eq.symm.trans hNone

end Explode.Mcl
