import Explode.Driver.Candidates
import Explode.Driver.CanonMetadata
import Explode.Driver.DeltaPairs

/-!
# Trying the subsets of the deltas

A subset of the deltas is tried on a copy of the stable file system. Where the
deltas apply and no entry dangles, the references are counted again and the
candidate gets its signatures.
-/

namespace Explode.Driver

open Relation RootedGraph Loop Explode.Crash

namespace AbstFS

variable {fs : AbstFS} {o : Obj}

theorem canonHelper_ok (h : fs.Sound) (hShort : Short fs.Child maxDepth 0)
    (purpose : MarshalPurpose) : ∃ bytes, fs.canonHelper purpose = .ok bytes := by
  obtain ⟨seen, _, hBytes⟩ := canonHelper_eq h (internalCheck_ok h.keys hShort) purpose
  exact ⟨_, hBytes⟩

theorem type_of_view {o' : Obj} {ref : Int} (h : o'.view = { o.view with ref := ref }) :
    o'.type = o.type := by
  rw [← view_type, h, ← view_type]

theorem destroy_of_view {o' : Obj} {ref : Int} (h : o'.view = { o.view with ref := ref }) :
    destroy o' = destroy o := by
  have hBody : o'.body.view = o.body.view := congrArg ObjView.body h
  obtain ⟨_, _, _, body⟩ := o
  obtain ⟨_, _, _, body'⟩ := o'
  cases body <;> cases body' <;> simp_all [destroy, Body.view]

theorem getEntry_recount {fs' : AbstFS} {ref : Nat → Obj → Int}
    (h : ∀ x, fs'.objs.get? x = (fs.objs.get? x).map fun o => { o with ref := ref x o })
    (x : Nat) (n : Name) : fs'.getEntry x n = fs.getEntry x n := by
  rw [getEntry_eq, getEntry_eq, h]
  cases fs.objs.get? x <;> rfl

theorem fixRefcnts_ok (h : fs.links 0 = 0) :
    ∃ fs', ∃ ref : Nat → Obj → Int, fs.fixRefcnts = .ok fs' ∧
    ∀ x, fs'.objs.get? x = (fs.objs.get? x).map fun o => { o with ref := ref x o } := by
  rw [fixRefcnts, if_neg fun hRoot => hRoot.2 h]
  refine ⟨_, fun x o => if x = 0 ∨ fs.links x = 0 then o.ref else fs.links x, rfl, fun x => ?_⟩
  simp only [SortedMap.get?_mapWithKey]
  congr 1
  funext o
  split_ifs <;> rfl

end AbstFS

namespace StableFS

section Trial
variable {kinds : Nat → Bool} {s : StableFS} {done : List Delta} {fs fs' : AbstFS} {d : Delta}

theorem Coherent.applicable (h : s.Coherent kinds) (hEvaluable : s.Evaluable)
    {before rest : List Delta} (hSublist : (before ++ d :: rest).Sublist s.metaDeltas) :
    s.Applicable kinds s.volatile.id before d := by
  have hMem : d ∈ s.metaDeltas := hSublist.subset (by simp)
  obtain ⟨hPending, hMeta⟩ := List.mem_filter.mp hMem
  have hOnce := (h.once.filter _).sublist hSublist
  have hClean := hEvaluable.clean.sublist hSublist
  refine ⟨h.deltas d hPending, by simpa using hMeta, ?_, ?_⟩
  · intro id hAdds
    refine ⟨h.fresh d hPending id hAdds, fun e he => ?_⟩
    have hFirst := (List.pairwise_append.mp hOnce).2.2 e he d List.mem_cons_self id
    cases hAddsE : e.adds id with
    | false => rfl
    | true => cases (hFirst hAddsE).symm.trans hAdds
  · intro c hc
    exact ⟨hEvaluable.leaf d hMem c hc, fun e he =>
      (List.pairwise_append.mp hClean).2.2 e he d List.mem_cons_self c hc⟩

theorem Evaluable.copyable (h : s.Evaluable) (hStored : s.stable.Stored) : s.stable.Copyable := by
  refine ⟨h.fits, h.noBytes, h.self, ?_⟩
  refine AbstFS.internalCheck_ok hStored.keys (h.short.mono ?_)
  rintro x c ⟨o, n, ho, hn⟩
  exact .inl ⟨n, AbstFS.getEntry_eq_some.mpr ⟨o, ho, hn⟩⟩

theorem Ready.of_copy (h : s.Coherent kinds) (hEvaluable : s.Evaluable)
    (hCopy : s.stable.Recounted fs) : Ready kinds s [] fs where
  root := by
    obtain ⟨r, hr, hDir⟩ := h.stored.root
    rcases hCopy.get? 0 with ⟨hNone, _⟩ | ⟨o, o', ho, ho', hView⟩
    · cases hNone.symm.trans hr
    · cases hr.symm.trans ho
      exact ⟨o', ho', (AbstFS.type_of_view hView).trans hDir⟩
  keys := hCopy.keys h.stored.keys
  typed x o' ho' := by
    rcases hCopy.get? x with ⟨_, hNone⟩ | ⟨o, o₁, ho, h₁, hView⟩
    · cases hNone.symm.trans ho'
    · cases h₁.symm.trans ho'
      rw [AbstFS.type_of_view hView]
      exact h.stableTyped x o ho
  data x o' ho' := by
    rcases hCopy.get? x with ⟨_, hNone⟩ | ⟨o, o₁, ho, h₁, hView⟩
    · cases hNone.symm.trans ho'
    · cases h₁.symm.trans ho'
      rw [AbstFS.destroy_of_view hView]
      exact hEvaluable.data _ (SortedMap.get?_eq_some.mp ho)
  objects x o' ho' := by
    rcases hCopy.get? x with ⟨_, hNone⟩ | ⟨o, _, ho, _⟩
    · cases hNone.symm.trans ho'
    · exact .inl ⟨o, ho⟩
  entries x n c hEntry := by
    rw [hCopy.getEntry] at hEntry
    exact .inl hEntry
  nonzero x n c hEntry := by
    rw [hCopy.getEntry] at hEntry
    obtain ⟨o, ho, hn⟩ := AbstFS.getEntry_eq_some.mp hEntry
    exact (AbstFS.formed_entry (h.stored.formed x o ho) hn).2

/-- A file system that passed the search for dangling entries gets its signatures. -/
structure Tested [Hashes] (fs : AbstFS) : Prop extends fs.Sound where
  sig : ∃ w, fs.getSigWithName = .ok w
  metadataSig : ∃ w, fs.getMetadataSigWithName = .ok w

namespace Ready

theorem recount (h : Ready kinds s done fs) {ref : Nat → Obj → Int}
    (hGet : ∀ x, fs'.objs.get? x = (fs.objs.get? x).map fun o => { o with ref := ref x o }) :
    Ready kinds s done fs' := by
  have hSome : ∀ x o', fs'.objs.get? x = some o' →
      ∃ o, fs.objs.get? x = some o ∧ o' = { o with ref := ref x o } := by
    intro x o' ho'
    rw [hGet] at ho'
    obtain ⟨o, ho, hEq⟩ := Option.map_eq_some_iff.mp ho'
    exact ⟨o, ho, hEq.symm⟩
  refine ⟨⟨?_, ?_⟩, ?_, ?_, ?_, ?_, ?_⟩
  · obtain ⟨r, hr, hDir⟩ := h.root
    exact ⟨{ r with ref := ref 0 r }, by rw [hGet, hr]; rfl, hDir⟩
  · intro x o' ho'
    obtain ⟨o, ho, rfl⟩ := hSome x o' ho'
    exact h.keys x o ho
  · intro x o' ho'
    obtain ⟨o, ho, rfl⟩ := hSome x o' ho'
    exact h.typed x o ho
  · intro x o' ho'
    obtain ⟨o, ho, rfl⟩ := hSome x o' ho'
    exact h.data x o ho
  · intro x o' ho'
    obtain ⟨o, ho, rfl⟩ := hSome x o' ho'
    exact h.objects x o ho
  · intro x n c hEntry
    rw [AbstFS.getEntry_recount hGet] at hEntry
    exact h.entries x n c hEntry
  · intro x n c hEntry
    rw [AbstFS.getEntry_recount hGet] at hEntry
    exact h.nonzero x n c hEntry

theorem fixRefcnts (h : Ready kinds s done fs) (hDone : ∀ d ∈ done, d ∈ s.metaDeltas)
    (hShort : Short s.Possible maxDepth 0) [Hashes] (hDetect : fs.detectDangling = .ok false) :
    ∃ cand, fs.fixRefcnts = .ok cand ∧ Ready kinds s done cand ∧ Tested cand := by
  have hZero : fs.links 0 = 0 := by
    by_contra hLinks
    obtain ⟨p, o, n, ho, hn⟩ := AbstFS.links_pos.mp (Nat.pos_of_ne_zero hLinks)
    exact h.nonzero p n 0 (AbstFS.getEntry_eq_some.mpr ⟨o, ho, hn⟩) rfl
  obtain ⟨cand, ref, hFix, hGet⟩ := AbstFS.fixRefcnts_ok hZero
  have hReady := h.recount hGet
  have hChild : ∀ x c, cand.Child x c → fs.Child x c := by
    rintro x c ⟨o, n, ho, hn⟩
    have hEntry := AbstFS.getEntry_eq_some.mpr ⟨o, ho, hn⟩
    rw [AbstFS.getEntry_recount hGet] at hEntry
    obtain ⟨o₁, h₁, hn₁⟩ := AbstFS.getEntry_eq_some.mp hEntry
    exact ⟨o₁, n, h₁, hn₁⟩
  have hCandShort : Short cand.Child maxDepth 0 := hReady.short hDone hShort
  have hSound : cand.Sound := by
    refine ⟨hReady.toKeyed, fun p c hReach hEdge => ?_, fun x hReach =>
      (hCandShort.of_reached hReach).not_circle⟩
    obtain ⟨o, ho⟩ := AbstFS.named_of_detectDangling hDetect
      (ReflTransGen.mono hChild _ _ (hReach.tail hEdge))
    exact ⟨{ o with ref := ref c o }, by rw [hGet, ho]; rfl⟩
  obtain ⟨bytes, hBytes⟩ := AbstFS.canonHelper_ok hSound hCandShort .canonObj
  obtain ⟨bytes', hBytes'⟩ := AbstFS.canonHelper_ok hSound hCandShort .canonMetadata
  refine ⟨cand, hFix, hReady, hSound, ⟨explodeHash bytes, ?_⟩, ⟨explodeHash bytes', ?_⟩⟩
  · rw [AbstFS.getSigWithName, AbstFS.canonObjects, hBytes]
    rfl
  · rw [AbstFS.getMetadataSigWithName, AbstFS.canonMetadata, hBytes']
    rfl

end Ready

theorem trySubset_ok [Hashes]
    (h : s.Coherent kinds) (hEvaluable : s.Evaluable) {deltas : List Delta}
    (hSublist : deltas.Sublist s.metaDeltas) (hClear : ∃ cleared, fs.clear = .ok cleared) :
    ∃ trial fs', s.trySubset fs deltas = .ok (trial, fs') ∧ (∃ cleared, fs'.clear = .ok cleared) ∧
      ∀ cand, trial = .candidate cand → Tested cand := by
  obtain ⟨cleared, hClear⟩ := hClear
  obtain ⟨base, hCopy, hRecounted⟩ :=
    AbstFS.copy_recounted h.stored (hEvaluable.copyable h.stored) hClear
  obtain ⟨pruned, fs₁, done, hApply, hReady, hDone⟩ :=
    (Ready.of_copy h hEvaluable hRecounted).applyDeltas
      deltas (fun d hd => hSublist.subset hd) hEvaluable.short
      (fun before d rest hEq => h.applicable hEvaluable (hEq ▸ hSublist))
  rw [trySubset, hCopy]
  simp only [bind, Except.bind, hApply]
  cases pruned with
  | true => exact ⟨.pruned, fs₁, rfl, AbstFS.clear_ok hReady.data, by simp⟩
  | false =>
    obtain ⟨r, hDfs⟩ := AbstFS.dfsAt_ok AbstFS.dangleDetector
      (hReady.short hDone hEvaluable.short) none none false
    have hDetect : fs₁.detectDangling = .ok r.2 := by
      rw [AbstFS.detectDangling, AbstFS.dfs, hDfs]
      rfl
    simp only [Bool.false_eq_true, if_false, hDetect]
    cases hDangling : r.2 with
    | true => exact ⟨.dangling, fs₁, rfl, AbstFS.clear_ok hReady.data, by simp⟩
    | false =>
      obtain ⟨cand, hFix, hCand, hTested⟩ := hReady.fixRefcnts hDone hEvaluable.short
        (hDangling ▸ hDetect)
      refine ⟨.candidate cand, cand, ?_, AbstFS.clear_ok hCand.data, ?_⟩
      · simp only [Bool.false_eq_true, if_false, hFix]
      · rintro _ ⟨⟩
        exact hTested

theorem filterMap_getElem?_sublist {l : List Delta} {subset : List Nat} {k : Nat}
    (hSubset : subset.Pairwise (· < ·)) (hk : ∀ j ∈ subset, k ≤ j) :
    (subset.filterMap fun j => l[j]?).Sublist (l.drop k) := by
  induction subset generalizing k with
  | nil => exact List.nil_sublist _
  | cons j rest ih =>
    obtain ⟨hLater, hRest⟩ := List.pairwise_cons.mp hSubset
    have hDrop : (l.drop j).Sublist (l.drop k) :=
      List.drop_sublist_drop_left l (hk j List.mem_cons_self)
    rw [List.filterMap_cons]
    cases hj : l[j]? with
    | none => exact (ih hRest fun i hi => (hLater i hi).le).trans hDrop
    | some d =>
      obtain ⟨hLt, hGet⟩ := List.getElem?_eq_some_iff.mp hj
      rw [List.drop_eq_getElem_cons hLt, hGet] at hDrop
      exact ((ih hRest fun i hi => hLater i hi).cons_cons d).trans hDrop

theorem chosen_sublist {subset : List Nat} (h : subset.Pairwise (· < ·)) :
    (s.chosen subset).Sublist s.metaDeltas :=
  filterMap_getElem?_sublist h fun j _ => Nat.zero_le j

end Trial

section Trials
variable [Hashes]

def trySubsets (s : StableFS) : AbstFS → List (List Nat) → FsResult (List Trial)
  | _, [] => .ok []
  | fs, subset :: rest => do
    let (trial, fs) ← s.trySubset fs (s.chosen subset)
    let trials ← s.trySubsets fs rest
    .ok (trial :: trials)

end Trials

section Trials
variable {drv : FsDriver} [Hashes] {s s₁ : StableFS}

theorem Coherent.trySubsets {kinds : Nat → Bool} (h : s.Coherent kinds) (hEvaluable : s.Evaluable)
    {fs : AbstFS} (hClear : ∃ cleared, fs.clear = .ok cleared) {subsets : List (List Nat)}
    (hSubsets : ∀ subset ∈ subsets, subset.Pairwise (· < ·)) :
    ∃ trials, s.trySubsets fs subsets = .ok trials ∧
      ∀ cand, .candidate cand ∈ trials → Tested cand := by
  induction subsets generalizing fs with
  | nil => exact ⟨[], rfl, by simp⟩
  | cons subset rest ih =>
    obtain ⟨hFirst, hRest⟩ := List.forall_mem_cons.mp hSubsets
    obtain ⟨trial, fs', hTry, hClear', hTested⟩ :
        ∃ trial fs', s.trySubset fs (s.chosen subset) = .ok (trial, fs') ∧
          (∃ cleared, fs'.clear = .ok cleared) ∧
          ∀ cand, trial = .candidate cand → Tested cand :=
      trySubset_ok h hEvaluable (chosen_sublist hFirst) hClear
    obtain ⟨trials, hTrials, hAll⟩ := ih hClear' hRest
    refine ⟨trial :: trials, ?_, ?_⟩
    · rw [StableFS.trySubsets, hTry]
      simp only [bind, Except.bind, hTrials]
    · intro cand hMem
      rcases List.mem_cons.mp hMem with hEq | hLater
      · exact hTested cand hEq.symm
      · exact hAll cand hLater

omit [Hashes] in
theorem mounted_between (mnt : CString) (memory memory' : Memory) :
    (mounted mnt memory memory').Between := by
  refine ⟨rfl, fun _ => ⟨fun _ => true, ?_⟩⟩
  have hDir : ∀ (memory : Memory) x o,
      (AbstFS.init mnt memory).objs.get? x = some o → o.type = .dir := by
    intro memory x o ho
    rw [(AbstFS.eq_of_get?_root rfl ho).2]
    rfl
  constructor
  · exact AbstFS.init_consistent mnt memory'
  · intro p n c hEntry
    exact absurd (AbstFS.child_iff_getEntry.mpr ⟨n, hEntry⟩) (AbstFS.not_child_root rfl rfl p c)
  · exact (AbstFS.init_consistent mnt memory).toStored
  · exact fun x o ho => iff_of_true (hDir memory' x o ho) rfl
  · exact fun x o ho => iff_of_true (hDir memory x o ho) rfl
  · exact (AbstFS.init_consistent mnt memory).below
  · exact List.forall_mem_nil _
  · exact .nil
  · exact List.forall_mem_nil _

section Run
variable {mnt : CString} {memory memory' : Memory}
  {calls : List Syscall}
  (hSync : Meets (replayLogged drv)
    (fun _ s sys => sys.call = .sync → s.volatile.Copyable) [] (mounted mnt memory memory') calls)
  (hRun : calls.foldlM (replayLogged drv) (mounted mnt memory memory') = .ok s)
include hSync hRun

theorem logged_between : s.Between := by
  have hStep : ∀ (_ : List Syscall) s sys, Between s →
      (sys.call = .sync → s.volatile.Copyable) →
      Returns Between (fun _ => True) (s.replayLogged drv sys) := by
    intro _ s sys h hCopyable
    cases hNext : s.replayLogged drv sys with
    | ok s' => exact h.step hCopyable hNext
    | error e => trivial
  have hBetween := foldlM_returns (I := fun _ => Between) hStep calls []
    (mounted_between mnt memory memory') hSync
  rwa [hRun] at hBetween

/-- After every run of logged calls, and within one, all subsets of the deltas are tried without a
failure, and a candidate has no circle and gets its signatures. -/
theorem trySubsets_tested {memory₁ : Memory}
    (hNow : s₁ = s ∨ ∃ sys, s.replay drv (.enter sys) = .ok s₁)
    (hCheck : s₁.internalCheck = .ok ()) (hEvaluable : s₁.Evaluable) {subsets : List (List Nat)}
    (hSubsets : ∀ subset ∈ subsets, subset.Pairwise (· < ·)) :
    ∃ trials, s₁.trySubsets (.init [] memory₁) subsets = .ok trials ∧
      ∀ cand, .candidate cand ∈ trials → Tested cand := by
  have hBetween := logged_between hSync hRun
  obtain ⟨kinds, hCoherent⟩ : ∃ kinds, s₁.Coherent kinds := by
    rcases hNow with rfl | ⟨sys, hEnter⟩
    · exact hBetween.coherent hCheck
    · exact hBetween.enter hEnter
  exact hCoherent.trySubsets hEvaluable ⟨_, rfl⟩ hSubsets

/-- After every run of logged calls that `internal_check` lets pass, and within the next call, the
pending deltas fit the stable and the volatile file system. -/
theorem logged_coherent :
    (s.internalCheck = .ok () → ∃ kinds, s.Coherent kinds) ∧
      ∀ sys s₁, s.replay drv (.enter sys) = .ok s₁ → ∃ kinds, s₁.Coherent kinds := by
  have hBetween := logged_between hSync hRun
  exact ⟨hBetween.coherent, fun _ _ => hBetween.enter⟩

end Run

end Trials

section Samples

attribute [local instance] sampleHashes

def logged (calls : List Syscall) : FsResult StableFS :=
  calls.foldlM (replayLogged (sampleDriver false)) sampleMounted

def afterLogged (calls : List Syscall) : StableFS := (logged calls).toOption.getD sampleMounted

theorem logged_eq {calls : List Syscall} (h : (logged calls).isOk = true) :
    logged calls = .ok (afterLogged calls) := by
  rw [afterLogged]
  cases hRun : logged calls with
  | ok s => rfl
  | error e =>
    rw [hRun] at h
    cases h

/-- The directory `/d` is stable, and the file `/d/f` is not. -/
def madeCalls : List Syscall :=
  [⟨0, .mkdir [47, 100] 493, 0⟩, ⟨1, .sync, 0⟩,
    ⟨2, .openFile [47, 100, 47, 102] sampleFlags 420, 3⟩]

/-- The directory `/d` and the file `/f` are stable, and the file is moved into the directory. -/
def placedCalls : List Syscall :=
  [⟨0, .mkdir [47, 100] 493, 0⟩, ⟨1, .openFile [47, 102] sampleFlags 420, 3⟩, ⟨2, .close 3, 0⟩,
    ⟨3, .sync, 0⟩, ⟨4, .rename [47, 102] [47, 100, 47, 102], 0⟩]

theorem afterLogged_placed_evaluable : (afterLogged placedCalls).Evaluable where
  fits := by decide +kernel
  noBytes := by decide +kernel
  self := by decide +kernel
  data := by
    have hOk : ∀ e ∈ (afterLogged placedCalls).stable.objs.entries,
        (AbstFS.destroy e.2).isOk = true := by decide +kernel
    intro e he
    have hDestroy := hOk e he
    cases hEnd : AbstFS.destroy e.2 with
    | ok _ => rfl
    | error _ =>
      rw [hEnd] at hDestroy
      cases hDestroy
  short := by
    have hStable : ∀ e ∈ (afterLogged placedCalls).stable.objs.entries,
        ∀ n ∈ e.2.entries.entries, e.1 < n.2 ∧ n.2 < 3 := by decide +kernel
    have hPuts : ∀ d ∈ (afterLogged placedCalls).metaDeltas, ∀ c ∈ d.change.puts,
        d.targetId < c ∧ c < 3 := by decide +kernel
    refine Short.of_level (fun x => x) 3 ?_ (by decide) (by decide)
    rintro x c (⟨n, hEntry⟩ | ⟨d, hd, rfl, hc⟩)
    · obtain ⟨o, ho, hn⟩ := AbstFS.getEntry_eq_some.mp hEntry
      exact hStable (x, o) (SortedMap.get?_eq_some.mp ho) (n, c) (SortedMap.get?_eq_some.mp hn)
    · exact hPuts d hd c hc
  leaf := by
    have hTakes : ∀ d ∈ (afterLogged placedCalls).metaDeltas, ∀ c ∈ d.change.takes,
        ∀ e ∈ (afterLogged placedCalls).stable.objs.entries, e.1 = c →
          e.2.entries.entries = [] := by
      decide +kernel
    intro d hd c hc n
    by_contra hSome
    obtain ⟨x, hEntry⟩ := Option.ne_none_iff_exists'.mp hSome
    obtain ⟨o, ho, hn⟩ := AbstFS.getEntry_eq_some.mp hEntry
    have hEmpty := hTakes d hd c hc (c, o) (SortedMap.get?_eq_some.mp ho) rfl
    have hMem := SortedMap.get?_eq_some.mp hn
    rw [hEmpty] at hMem
    cases hMem
  clean := by decide +kernel

theorem trySubsets_tested_placed :
    (afterLogged placedCalls).metaDeltas =
        [⟨1, .addEntry [102] 2⟩, ⟨0, .removeEntry [102] 2⟩] ∧
      ∃ trials, (afterLogged placedCalls).trySubsets emptyFS (genPowerset 2) = .ok trials ∧
        ∀ cand, .candidate cand ∈ trials → Tested cand := by
  have hRun : placedCalls.foldlM (replayLogged (sampleDriver false))
      (mounted [] zeroMemory zeroMemory) =
        .ok (afterLogged placedCalls) := logged_eq (by decide +kernel)
  exact ⟨by decide +kernel, trySubsets_tested (by decide +kernel) hRun (.inl rfl)
    (by decide +kernel) afterLogged_placed_evaluable
    fun _ hSubset => (mem_genPowerset_iff.mp hSubset).1⟩

theorem logged_coherent_made :
    ((afterLogged madeCalls).internalCheck = .ok () →
        ∃ kinds, (afterLogged madeCalls).Coherent kinds) ∧
      ∀ sys s₁, (afterLogged madeCalls).replay (sampleDriver false)
        (.enter sys) = .ok s₁ → ∃ kinds, s₁.Coherent kinds := by
  have hRun : madeCalls.foldlM (replayLogged (sampleDriver false))
      (mounted [] zeroMemory zeroMemory) =
        .ok (afterLogged madeCalls) := logged_eq (by decide +kernel)
  exact logged_coherent (by decide +kernel) hRun

/-- The directory `/d` with the file `/d/f` is stable and is renamed to `/e`. -/
def movedCalls : List Syscall :=
  [⟨0, .mkdir [47, 100] 493, 0⟩, ⟨1, .openFile [47, 100, 47, 102] sampleFlags 420, 3⟩,
    ⟨2, .close 3, 0⟩, ⟨3, .sync, 0⟩, ⟨4, .rename [47, 100] [47, 101], 0⟩]

def crossedCalls : List Syscall :=
  [⟨0, .mkdir [47, 97] 493, 0⟩, ⟨1, .mkdir [47, 98] 493, 0⟩, ⟨2, .sync, 0⟩,
    ⟨3, .rename [47, 97] [47, 98, 47, 97], 0⟩, ⟨4, .rename [47, 98, 47, 97] [47, 97], 0⟩,
    ⟨5, .rename [47, 98] [47, 97, 47, 98], 0⟩]

def circling (ids : List Nat) (fs : AbstFS) : Bool :=
  ids.all fun x =>
    ((fs.objs.get? x).bind fun o => o.entries.entries.head?).any fun e => ids.contains e.2

theorem detectDangling_circling {ids : List Nat} {fs : AbstFS} (h : circling ids fs = true)
    (hRoot : 0 ∈ ids) : fs.detectDangling = .error .tooDeep := by
  have hDeep : ∀ levels, ∀ x ∈ ids, ∀ parent name,
      fs.dfsAt AbstFS.dangleDetector levels parent name (fs.objs.get? x) false =
        .error .tooDeep := by
    intro levels
    induction levels with
    | zero => exact fun _ _ _ _ => rfl
    | succ levels ih =>
      intro x hx parent name
      have hNext := List.all_eq_true.mp h x hx
      rw [Option.any_eq_true] at hNext
      obtain ⟨e, he, hMem⟩ := hNext
      obtain ⟨o, ho, hHead⟩ := Option.bind_eq_some_iff.mp he
      obtain ⟨rest, hEntries⟩ := List.head?_eq_some_iff.mp hHead
      have hFirst := ih e.2 (List.contains_iff_mem.mp hMem) (some o) (some e.1)
      rw [ho, AbstFS.dfsAt, hEntries]
      simp only [AbstFS.dangleDetector, Option.isNone_some, Bool.false_eq_true, if_false,
        visitEntries]
      simp only [AbstFS.dangleDetector] at hFirst
      rw [hFirst]
      rfl
  rw [AbstFS.detectDangling, AbstFS.dfs, hDeep maxDepth 0 hRoot]
  rfl

theorem eq_error {α : Type} {r : FsResult α} {f : FsFailure}
    (h : (match r with | .ok _ => none | .error e => some e) = some f) : r = .error f := by
  cases r with
  | ok a => cases h
  | error e => rw [Option.some.inj h]

def applied (test : AbstFS → Bool) : FsResult (Bool × AbstFS) → Bool
  | .ok (pruned, fs) => !pruned && test fs
  | .error _ => false

theorem exists_applied {test : AbstFS → Bool} {r : FsResult (Bool × AbstFS)}
    (h : applied test r = true) : ∃ fs, r = .ok (false, fs) ∧ test fs = true := by
  cases r with
  | error e => cases h
  | ok r =>
    obtain ⟨pruned, fs⟩ := r
    cases pruned with
    | true => cases h
    | false => exact ⟨fs, rfl, h⟩

/-- Half of a rename removes a directory that is not empty, and halves of three renames make a
circle below the root. -/
theorem trySubset_aborts :
    (logged movedCalls = .ok (afterLogged movedCalls) ∧
      (afterLogged movedCalls).internalCheck = .ok () ∧
      (afterLogged movedCalls).chosen [1] = [⟨0, .removeEntry [100] 1⟩] ∧
      (afterLogged movedCalls).trySubset emptyFS
        ((afterLogged movedCalls).chosen [1]) = .error .deletedIterator) ∧
    logged crossedCalls = .ok (afterLogged crossedCalls) ∧
      (afterLogged crossedCalls).internalCheck = .ok () ∧
      (afterLogged crossedCalls).chosen [0, 4] =
        [⟨2, .addEntry [97] 1⟩, ⟨1, .addEntry [98] 2⟩] ∧
      (afterLogged crossedCalls).trySubset emptyFS
        ((afterLogged crossedCalls).chosen [0, 4]) = .error .tooDeep := by
  refine ⟨⟨logged_eq (by decide +kernel), by decide +kernel, by decide +kernel,
    eq_error (by decide +kernel)⟩, logged_eq (by decide +kernel), by decide +kernel,
    by decide +kernel, ?_⟩
  have hApplied : applied (circling [0, 1, 2])
      (emptyFS.copy (afterLogged crossedCalls).stable >>= fun fs =>
        fs.applyDeltas ((afterLogged crossedCalls).chosen [0, 4])) = true := by
    decide +kernel
  obtain ⟨fs₁, hSteps, hCircling⟩ := exists_applied hApplied
  obtain ⟨base, hCopy, hApply⟩ := bind_eq_ok hSteps
  rw [trySubset, hCopy]
  simp only [bind, Except.bind, hApply, Bool.false_eq_true, if_false,
    detectDangling_circling hCircling (by decide)]

end Samples

end StableFS

end Explode.Driver
