import Explode.Mcl.Round
import Mathlib.Data.Multiset.ZeroCons

/-!
# The invariant of the search

Every queued state is restorable, and while a state is restored the harness has
run a part of its transitions.
-/

namespace Explode.Mcl

open ChoiceTree Machine EnumRandom ModelChecker

variable {St Sig Data : Type*} [DecidableEq Sig] (h : TestHarness St Sig Data) (opt : Options)

structure KeepsStates (mc mc' : ModelChecker St Sig Data) : Prop where
  kept : ∀ id ckpt, mc.ckpts id = some ckpt → mc'.ckpts id = some ckpt
  own : ∀ s, mc'.q = push opt s mc.q →
    mc.ckpts s.start = none ∨ ∃ ev ∈ s.path.getLast?, recorded ev.calls ≠ []

/-- A report says how the bug was found: the transitions to the state that was expanded, the
new transition, and the callback of the round that saw the bug. -/
def Traced (r : BugReport St) : Prop :=
  ∃ st tr, Transitions h h.init r.old st ∧ (sigsOf h r.old).Nodup ∧ r.fresh = Option.toList tr ∧
    (∀ t ∈ tr, IsTransition h t ∧ t.before = st ∧ (h.hook .beforeNewTransition st).1 = .exit) ∧
    r.event.ret = .bug ∧ r.event ∈ roundEvents h st tr ∧
    r.file = printTrace (traceOf r.old) (roundTrace opt tr)

/-- On the way to restoring s, with the given number of its transitions still to be run. The
generator of the round waits until the last of them. -/
inductive Setting (mc : ModelChecker St Sig Data) (s : State St Sig) (st : St) (g : Random) :
    Nat → Prop
  | regen {base : St} {pre todo : List (Event St)} {ev : Event St} (ran : List (Event St))
      (hPc : mc.pc = .regen) (hMode : mc.mode = .regenState) (hCurr : mc.curr = some s)
      (hTracked : Tracked h opt mc s pre (ran ++ ev :: todo) base st) (hTest : mc.test = ev.before)
      (hRand : mc.rand = .replay ⟨s.trace, (traceOf ran).length⟩) (hOld : mc.oldr = g) :
      Setting mc s st g (todo.length + 1)
  | fresh (hPc : mc.pc = .fresh) (hMode : mc.mode = .modelCheck) (hCurr : mc.curr = some s)
      (hRest : Restorable h opt mc s st) (hTest : mc.test = st) (hRand : mc.rand = g) :
      Setting mc s st g 0

inductive Located (mc : ModelChecker St Sig Data) : Prop
  | top (hPc : mc.pc = .top) (hMode : mc.mode = .modelCheck)
      (hRand : ∀ st, RoundGen h opt st mc.rand.reset)
  | restore {s : State St Sig} {st : St} (hPc : mc.pc = .restore) (hMode : mc.mode = .modelCheck)
      (hCurr : mc.curr = some s) (hRest : Restorable h opt mc s st)
      (hGen : RoundGen h opt st mc.rand)
  | setting {s : State St Sig} {st : St} {g : Random} {n : Nat}
      (hSetting : Setting h opt mc s st g n) (hGen : RoundGen h opt st g)
  | stopped (hPc : mc.pc = .done ∨ mc.pc = .exited)

/-- In simulation only the initial state is taken off the queue. -/
structure Inv (mc : ModelChecker St Sig Data) : Prop where
  located : Located h opt mc
  queued : mc.pc = .top ∨ opt.simulation = false → ∀ s ∈ mc.q, ∃ st, Restorable h opt mc s st
  below : CkptsBelow opt mc
  reports : opt.queue ≠ .priority → (∀ x, h.onError x = x) → ∀ r ∈ mc.reports, Traced h opt r

variable {h opt} {mc mc₀ mc' m : ModelChecker St Sig Data}
  {s : State St Sig} {st cur : St} {tr : Option (Event St)}

theorem push_perm {α β : Type*} (opt : Options) (s : State α β) (q : List (State α β)) :
    (push opt s q).Perm (s :: q) := by
  unfold push
  cases opt.queue with
  | bfs => exact List.perm_append_singleton s q
  | dfs => exact .refl _
  | priority =>
    refine List.perm_middle.trans (.cons s ?_)
    rw [List.take_append_drop]

theorem mem_push_iff {α β : Type*} (opt : Options) (s a : State α β) (q : List (State α β)) :
    s ∈ push opt a q ↔ s = a ∨ s ∈ q :=
  (push_perm opt a q).mem_iff.trans List.mem_cons

theorem length_push {α β : Type*} (opt : Options) (a : State α β) (q : List (State α β)) :
    (push opt a q).length = q.length + 1 :=
  (push_perm opt a q).length_eq

theorem push_injective {α β : Type*} {s s' : State α β} {q : List (State α β)}
    (hPush : push opt s q = push opt s' q) : s = s' := by
  have hPerm : (s :: q).Perm (s' :: q) :=
    (push_perm opt s q).symm.trans (hPush ▸ push_perm opt s' q)
  exact Multiset.cons_inj_left (q : Multiset (State α β)) |>.mp (Multiset.coe_eq_coe.mpr hPerm)

theorem step_eq_some (hStep : mc.step h opt = some mc') :
    mc.body h opt = .ok mc' ∨
      ∃ m, mc.body h opt = .error (.exit m) ∧ mc' = { m with pc := .exited } := by
  unfold step at hStep
  split at hStep
  · exact .inl (by rw [← Option.some.inj hStep]; assumption)
  · exact .inr ⟨_, ‹_›, (Option.some.inj hStep).symm⟩
  · cases hStep

theorem step_fresh (hPc : mc.pc = .fresh) (hMode : mc.mode = .modelCheck) (hCurr : mc.curr = some s)
    (hTest : mc.test = st) (hGen : RoundGen h opt st mc.rand) (hStep : mc.step h opt = some mc') :
    RoundDone h opt mc s st mc' ∨
      ∃ m, mc' = { m with pc := .exited } ∧ LeftRound h opt mc s st m := by
  have hBody : mc.body h opt = mc.stepFresh h opt := by rw [body, hPc]
  have hEnds := ends_stepFresh hMode hCurr hTest hGen
  rcases step_eq_some hStep with hOk | ⟨m, hExit, rfl⟩
  · rw [← hBody, hOk] at hEnds
    exact .inl hEnds
  · rw [← hBody, hExit] at hEnds
    exact .inr ⟨m, rfl, hEnds⟩

theorem seen_congr (hVisited : mc'.visited = mc.visited) (sig : Sig) :
    mc'.seen sig = mc.seen sig := by
  rw [ModelChecker.seen, hVisited]
  rfl

theorem Progress.extends (hProgress : Progress h opt mc₀ m s tr)
    (hKept : ∀ id ckpt, mc₀.ckpts id = some ckpt → m.ckpts id = some ckpt) : Extends mc₀ m := by
  refine ⟨hKept, fun sig hSig => ?_⟩
  cases hProgress with
  | unchanged _ _ hVisited _ _ => rwa [seen_congr hVisited]
  | born hBorn _ hVisited₀ _ _ _ _ _ _ hVisited _ =>
    rw [seen_congr hVisited, hBorn.seen_iff, seen_congr hVisited₀]
    exact .inl hSig

theorem Progress.kept (hProgress : Progress h opt mc₀ m s tr) (hUnder : CkptsUnder mc₀) :
    ∀ id ckpt, mc₀.ckpts id = some ckpt → m.ckpts id = some ckpt := by
  cases hProgress with
  | unchanged _ hCkpts _ _ _ =>
    intro id ckpt hCkpt
    rwa [hCkpts]
  | @born t s' m₁ m' hBorn hCkpts₀ hVisited₀ _ _ _ _ _ hCkpts _ _ =>
    intro id ckpt hCkpt
    have hUnder₁ : CkptsUnder m₁ := hUnder.congr hCkpts₀ hVisited₀
    rw [hCkpts]
    exact (hBorn.extends hUnder₁).ckpts id ckpt (by rwa [hCkpts₀])

theorem Progress.ckptsBelow (hProgress : Progress h opt mc₀ m s tr)
    (hBelow : CkptsBelow opt mc₀) : CkptsBelow opt m := by
  cases hProgress with
  | unchanged _ hCkpts hVisited _ _ => exact hBelow.congr hCkpts hVisited
  | @born t s' m₁ m' hBorn hCkpts₀ hVisited₀ _ _ _ _ hNew hCkpts hVisited _ =>
    have hBelow₁ : CkptsBelow opt m₁ := hBelow.congr hCkpts₀ hVisited₀
    exact (hBorn.ckptsBelow hBelow₁ hNew).congr hCkpts hVisited

theorem InRound.extends (hIn : InRound h opt mc₀ m s st tr cur)
    (hKept : ∀ id ckpt, mc₀.ckpts id = some ckpt → m.ckpts id = some ckpt) : Extends mc₀ m :=
  hIn.progress.extends hKept

theorem InRound.queued (hIn : InRound h opt mc₀ m s st tr cur) (hContract : h.Contract)
    (hSim : opt.simulation = false) (hRest : Restorable h opt mc₀ s st)
    (hBelow : CkptsBelow opt mc₀)
    (hQueued : ∀ s ∈ mc₀.q, ∃ st, Restorable h opt mc₀ s st) (hKeeps : KeepsStates opt mc₀ m) :
    ∀ s ∈ m.q, ∃ st, Restorable h opt m s st := by
  have hExt := hIn.extends hKeeps.kept
  have hOld : ∀ s ∈ mc₀.q, ∃ st, Restorable h opt m s st := fun s hs =>
    (hQueued s hs).imp fun st hRest => hRest.mono hExt
  have hProgress := hIn.progress
  cases hProgress with
  | unchanged hq _ _ _ _ =>
    rw [hq]
    exact hOld
  | @born t s' m₁ m' hBorn hCkpts₀ hVisited₀ hCalls₀ hTest hChoices hExit hNew hCkpts hVisited hq =>
    obtain ⟨hEv, hBefore, _⟩ := InRound.transition hIn hContract
    intro s₁ hs₁
    rw [hq, mem_push_iff] at hs₁
    rcases hs₁ with rfl | hs₁
    · have hOwn : m₁.ckpts s₁.start = none ∨ recorded t.calls ≠ [] := by
        rw [hCkpts₀]
        refine (hKeeps.own s₁ hq).imp_right ?_
        rintro ⟨ev, hLast, hRecorded⟩
        rw [hBorn.path, List.getLast?_concat] at hLast
        cases hLast
        exact hRecorded
      have hExt₁ : Extends m₁ m' := by
        refine ⟨fun id ckpt hCkpt => ?_, fun sig hSig => (hBorn.seen_iff sig).mpr (.inl hSig)⟩
        rw [hCkpts₀] at hCkpt
        rw [← hCkpts]
        exact hKeeps.kept id ckpt hCkpt
      have hBelow₁ : CkptsBelow opt m₁ := hBelow.congr hCkpts₀ hVisited₀
      have hTrace : m₁.rand.choices = choicesOf (recorded t.calls) := by
        simpa [newTrace, hSim] using hChoices
      have hNewRest := hBorn.restorable (hRest.congr hCkpts₀ hVisited₀) hEv hBefore hExit
        hTest hTrace hNew hBelow₁ hExt₁ hOwn
      exact ⟨t.after, hNewRest.congr hCkpts hVisited⟩
    · exact hOld s₁ hs₁

theorem InRound.traced (hIn : InRound h opt mc₀ m s st tr cur) (hContract : h.Contract)
    (hRest : Restorable h opt mc₀ s st) (hBelow : CkptsBelow opt mc₀)
    (hQueue : opt.queue ≠ .priority) (hId : ∀ x, h.onError x = x)
    (hReports : ∀ r ∈ mc₀.reports, Traced h opt r) : ∀ r ∈ m.reports, Traced h opt r := by
  intro r hr
  rcases hIn.reports r hr with hOld | hNew
  · exact hReports r hOld
  · obtain ⟨pre, evs, base, hTracked⟩ :=
      hRest.mono (hIn.extends (hIn.progress.kept (hBelow.under hQueue)))
    obtain ⟨old, hFull, hFile⟩ := hNew.file
    rw [hTracked.fullTrace_eq] at hFull
    cases hFull
    refine ⟨st, tr, ?_, ?_, hNew.fresh, ?_, hNew.bug, hNew.event hContract hId, ?_⟩
    · rw [hNew.old, hTracked.path]
      exact hTracked.based.transitions.append hTracked.transitions
    · rw [hNew.old]
      exact hTracked.distinct hQueue
    · rintro t ht
      obtain rfl : tr = some t := ht
      exact hIn.transition hContract
    · rw [hNew.old]
      exact hFile

structure Kept (h : TestHarness St Sig Data) (opt : Options) (m : ModelChecker St Sig Data)
    (s : State St Sig) (st : St) : Prop where
  rest : Restorable h opt m s st
  queued : opt.simulation = false → ∀ s ∈ m.q, ∃ st, Restorable h opt m s st
  below : CkptsBelow opt m
  reports : opt.queue ≠ .priority → (∀ x, h.onError x = x) → ∀ r ∈ m.reports, Traced h opt r

theorem InRound.stays (hIn : InRound h opt mc₀ m s st tr cur) (hContract : h.Contract)
    (hInv : Inv h opt mc₀) (hRest : Restorable h opt mc₀ s st) (hKeeps : KeepsStates opt mc₀ m) :
    Kept h opt m s st where
  rest := hRest.mono (hIn.extends hKeeps.kept)
  queued hSim := hIn.queued hContract hSim hRest hInv.below (hInv.queued (.inr hSim)) hKeeps
  below := hIn.progress.ckptsBelow hInv.below
  reports hQueue hId := hIn.traced hContract hRest hInv.below hQueue hId (hInv.reports hQueue hId)

theorem LeftRound.stays (hLeft : LeftRound h opt mc₀ s st m) (hContract : h.Contract)
    (hInv : Inv h opt mc₀) (hRest : Restorable h opt mc₀ s st) (hKeeps : KeepsStates opt mc₀ m) :
    Kept h opt m s st := by
  cases hLeft with
  | bug hIn _ => exact hIn.stays hContract hInv hRest hKeeps
  | limit hIn hq _ =>
    have hExt := hIn.extends hKeeps.kept
    refine ⟨(hRest.mono hExt).congr rfl rfl, fun hSim s₁ hs₁ => ?_,
      hIn.progress.ckptsBelow hInv.below, ?_⟩
    · obtain ⟨st₁, hRest₁⟩ := hInv.queued (.inr hSim) s₁ (hq ▸ hs₁)
      exact ⟨st₁, (hRest₁.mono hExt).congr rfl rfl⟩
    · intro hQueue hId
      exact hIn.traced hContract hRest hInv.below hQueue hId (hInv.reports hQueue hId)

theorem RoundDone.inv (hDone : RoundDone h opt mc s st mc')
    (hKept : ∀ {m tr cur}, InRound h opt mc m s st tr cur → m.q = mc'.q → m.ckpts = mc'.ckpts →
      Kept h opt m s st) : Inv h opt mc' := by
  cases hDone with
  | again hIn _ hGen =>
    obtain ⟨hRest, hQueued, hBelow, hReports⟩ := hKept hIn rfl rfl
    refine ⟨.restore rfl hIn.mode hIn.curr (hRest.congr rfl rfl) hGen, ?_, hBelow, hReports⟩
    rintro (hTop | hSim)
    · cases hTop
    · exact fun s₁ hs₁ => (hQueued hSim s₁ hs₁).imp fun _ hr => hr.congr rfl rfl
  | expanded hIn _ _ hEnum =>
    obtain ⟨hRest, hQueued, hBelow, hReports⟩ := hKept hIn rfl rfl
    cases hSim : opt.simulation with
    | true =>
      refine ⟨.stopped (.inl (by simp)), ?_, hBelow, hReports⟩
      rintro (hTop | hFalse)
      · simp at hTop
      · cases hSim.symm.trans hFalse
    | false =>
      obtain ⟨e, rfl⟩ := hEnum hSim
      refine ⟨.top (by simp) hIn.mode (roundGen_reset hSim e), fun _ s₁ hs₁ => ?_, hBelow, hReports⟩
      exact (hQueued hSim s₁ hs₁).imp fun _ hr => hr.congr rfl rfl

theorem inv_of_fresh (hContract : h.Contract) (hInv : Inv h opt mc) (hPc : mc.pc = .fresh)
    (hMode : mc.mode = .modelCheck) (hCurr : mc.curr = some s) (hRest : Restorable h opt mc s st)
    (hTest : mc.test = st) (hGen : RoundGen h opt st mc.rand) (hStep : mc.step h opt = some mc')
    (hKeeps : KeepsStates opt mc mc') : Inv h opt mc' := by
  obtain hEnds | ⟨m, rfl, hEnds⟩ := step_fresh hPc hMode hCurr hTest hGen hStep
  · refine RoundDone.inv hEnds fun hIn hq hCkpts => hIn.stays hContract hInv hRest ⟨?_, ?_⟩
    · rw [hCkpts]
      exact hKeeps.kept
    · rw [hq]
      exact hKeeps.own
  · obtain ⟨hRest', hQueued, hBelow, hReports⟩ :=
      hEnds.stays hContract hInv hRest ⟨hKeeps.kept, hKeeps.own⟩
    refine ⟨.stopped (.inr rfl), ?_, hBelow, hReports⟩
    rintro (hTop | hSim)
    · cases hTop
    · exact fun s₁ hs₁ => (hQueued hSim s₁ hs₁).imp fun _ hr => hr.congr rfl rfl

end Explode.Mcl
