import Explode.Driver.Entries
import Explode.Driver.SyncMount

/-!
# The second delta of a call

A call that has changed two objects has two deltas, and its second one means
little without the first. The subsets of the deltas are not closed in this way:
a subset that breaks up a call is rejected only where it leaves an entry without
an object in reach of the root.
-/

namespace Explode.Driver

open Relation Loop

namespace AbstFS

variable {fs : AbstFS}

theorem dangleDetector_returns (levels : Nat) (p : Option Obj) (n : Option Name) (id : Nat) :
    Returns (Ends
        (fun t => t = false ∧ ∀ x, ReflTransGen fs.Child id x → ∃ o, fs.objs.get? x = some o)
        fun t => t = true) (fun _ => True)
      (fs.dfsAt dangleDetector levels p n (fs.objs.get? id) false) := by
  induction levels generalizing p n id with
  | zero => trivial
  | succ levels ih =>
    cases hGet : fs.objs.get? id with
    | none => exact rfl
    | some o =>
      refine dfsAt_returns (fun done t => t = false ∧ ∀ e ∈ done, ∀ x,
        ReflTransGen fs.Child e.2 x → ∃ o, fs.objs.get? x = some o) ?_ ?_ ?_
      · exact ⟨rfl, List.forall_mem_nil _⟩
      · rintro done e _ _ ⟨rfl, hDone⟩
        refine (ih (some o) (some e.1) e.2).imp fun r hEnd => hEnd.imp ?_
        rintro t ⟨rfl, hNamed⟩
        exact ⟨rfl, List.forall_mem_append.mpr ⟨hDone, List.forall_mem_singleton.mpr hNamed⟩⟩
      · rintro _ ⟨rfl, hAll⟩
        refine ⟨rfl, fun x hReach => ?_⟩
        obtain rfl | ⟨c, ⟨o', name, hGet', hEntry⟩, hRest⟩ := hReach.cases_head
        · exact ⟨o, hGet⟩
        · cases hGet.symm.trans hGet'
          exact hAll (name, c) (SortedMap.get?_eq_some.mp hEntry) x hRest

theorem named_of_detectDangling (h : fs.detectDangling = .ok false) {x : Nat}
    (hReach : ReflTransGen fs.Child 0 x) : ∃ o, fs.objs.get? x = some o := by
  obtain ⟨⟨status, t⟩, hDfs, hFalse⟩ := map_eq_ok h
  have hEnds := fs.dangleDetector_returns maxDepth none none 0
  rw [show fs.dfsAt dangleDetector maxDepth none none (fs.objs.get? 0) false = _ from hDfs]
    at hEnds
  cases status with
  | stop => cases hFalse.symm.trans hEnds
  | cont => exact hEnds.2 x hReach

section
variable [Hashes]

theorem applyDeltas_induction {I : List Delta → AbstFS → Prop} {all done deltas : List Delta}
    {fs' : AbstFS} (hAll : done ++ deltas = all) (hInit : I done fs)
    (hStep : ∀ done d fs fs', d ∈ all → I done fs →
      fs.makeDeltaStable d = .ok (some fs') → I (done ++ [d]) fs')
    (h : fs.applyDeltas deltas = .ok (false, fs')) : I all fs' := by
  induction deltas generalizing done fs with
  | nil =>
    cases h
    rw [← hAll, List.append_nil]
    exact hInit
  | cons d rest ih =>
    rw [applyDeltas] at h
    obtain ⟨next, hDelta, h⟩ := bind_eq_ok h
    cases next with
    | none => cases h
    | some fs₁ =>
      have hMem : d ∈ all := by
        rw [← hAll]
        simp
      exact ih ((List.append_cons done d rest).symm.trans hAll)
        (hStep done d fs fs₁ hMem hInit hDelta) h

/-- Whatever of the deltas is applied, an entry that has one of these values keeps one of them. -/
structure Retains (all : List Delta) (x : Nat) (n : Name) (values : Nat → Prop) : Prop where
  removes : ∀ old, ⟨x, .removeEntry n old⟩ ∈ all → ¬values old
  replaces : ∀ old new, ⟨x, .replaceEntry n old new⟩ ∈ all → values old → values new

theorem Retains.step {all : List Delta} {x c : Nat} {n : Name} {values : Nat → Prop} {d : Delta}
    {fs' : AbstFS} (h : Retains all x n values) (hd : d ∈ all) (hKeys : fs.UnderIds)
    (hDelta : fs.makeDeltaStable d = .ok (some fs')) (hEntry : fs.getEntry x n = some c)
    (hc : values c) :
    ∃ c', fs'.getEntry x n = some c' ∧ values c' := by
  cases hDrops : d.drops x n with
  | false => exact ⟨c, makeDeltaStable_keeps hKeys hDelta hEntry hDrops, hc⟩
  | true =>
    obtain ⟨id, change⟩ := d
    simp only [Delta.drops, Bool.and_eq_true, decide_eq_true_eq] at hDrops
    obtain ⟨rfl, hName⟩ := hDrops
    cases change with
    | removeEntry m old =>
      obtain rfl : m = n := by simpa using hName
      obtain ⟨hFound, _⟩ := changeDir_ok hDelta
      cases hEntry.symm.trans hFound
      exact absurd hc (h.removes _ hd)
    | replaceEntry m old new =>
      obtain rfl : m = n := by simpa using hName
      obtain ⟨hFound, hCall⟩ := changeDir_ok hDelta
      cases hEntry.symm.trans hFound
      obtain ⟨fs₁, _, hLink⟩ := bind_eq_ok hCall
      refine ⟨new, ?_, h.replaces _ new hd hc⟩
      rw [(linkObj_sets hLink).2.2.entries, if_pos rfl]
    | add type mode => cases hName
    | truncate length => cases hName
    | pwrite buf off => cases hName
    | addEntry m child => cases hName

structure Unfinished (base : AbstFS) (all : List Delta) (id : Nat) (done : List Delta)
    (fs : AbstFS) : Prop where
  keys : ∀ x o, fs.objs.get? x = some o → o.id = x
  absent : fs.objs.get? id = none
  entries : ∀ x n c values, base.getEntry x n = some c ∨ ⟨x, .addEntry n c⟩ ∈ done →
    values c → Retains all x n values → ∃ c', fs.getEntry x n = some c' ∧ values c'

theorem Unfinished.step {base : AbstFS} {all done : List Delta} {id : Nat} {d : Delta}
    {fs' : AbstFS} (hAdds : ∀ d ∈ all, d.adds id = false) (hd : d ∈ all)
    (h : Unfinished base all id done fs) (hDelta : fs.makeDeltaStable d = .ok (some fs')) :
    Unfinished base all id (done ++ [d]) fs' where
  keys := makeDeltaStable_keys h.keys hDelta
  absent := makeDeltaStable_absent h.keys hDelta h.absent (hAdds d hd)
  entries x n c values hEntry hc hKeeps := by
    rw [List.mem_append, ← or_assoc] at hEntry
    rcases hEntry with hOld | hNew
    · obtain ⟨c₁, hEntry, hc₁⟩ := h.entries x n c values hOld hc hKeeps
      exact hKeeps.step hd h.keys hDelta hEntry hc₁
    · cases List.mem_singleton.mp hNew
      obtain ⟨_, hLink⟩ := changeDir_ok hDelta
      exact ⟨c, by rw [(linkObj_sets hLink).2.2.entries, if_pos rfl], hc⟩

end

end AbstFS

namespace StableFS

def chosen (s : StableFS) (subset : List Nat) : List Delta :=
  subset.filterMap fun j => s.metaDeltas[j]?

def deltaIndex (s : StableFS) (i : Nat) : Nat :=
  ((s.syscalls.take i).flatMap PendingCall.deltas).countP fun d => !d.isData

def secondIndex (s : StableFS) (i : Nat) (p : PendingCall) : Nat :=
  s.deltaIndex i + p.delta0.toList.countP fun d => !d.isData

def FirstIn (s : StableFS) (subset : List Nat) (i : Nat) (p : PendingCall) : Prop :=
  ∃ d, p.delta0 = some d ∧ d.isData = false ∧ s.deltaIndex i ∈ subset

def SecondIn (s : StableFS) (subset : List Nat) (i : Nat) (p : PendingCall) : Prop :=
  ∃ d, p.delta1 = some d ∧ d.isData = false ∧ s.secondIndex i p ∈ subset

/-- With the new entry, the entries lead from an object to the new one whatever of the pending
deltas is applied: one that is there takes only values from which they do. -/
inductive Leads (s : StableFS) (dir : Nat) (name : Name) (id : Nat) : Nat → Prop
  | here : Leads s dir name id id
  | entry {x c : Nat} {n : Name} (values : Nat → Prop)
      (there : s.stable.getEntry x n = some c ∨ (x, n, c) = (dir, name, id)) (first : values c)
      (kept : AbstFS.Retains s.metaDeltas x n values)
      (further : ∀ c, values c → Leads s dir name id c) : Leads s dir name id x

/-- The call has added an object, which no other delta adds, and an entry for it, and the entries
lead from the root to the object. -/
structure Exposed (s : StableFS) (i : Nat) (p : PendingCall) (id dir : Nat) (name : Name) :
    Prop where
  first : ∃ type mode, p.delta0 = some ⟨id, .add type mode⟩
  second : p.delta1 = some ⟨dir, .addEntry name id⟩
  absent : s.stable.objs.get? id = none
  only : ∀ j, j ≠ s.deltaIndex i → ∀ d ∈ s.metaDeltas[j]?, d.adds id = false
  reached : s.Leads dir name id 0

/-- Every call whose deltas are both pending has made a new object that stays exposed. -/
def AllExposed (s : StableFS) : Prop :=
  ∀ i p, s.syscalls[i]? = some p → p.delta0.isSome → p.delta1.isSome →
    ∃ id dir name, s.Exposed i p id dir name

variable {s : StableFS} {subset : List Nat} {i : Nat} {p : PendingCall}

theorem metaDeltas_getElem? (hCall : s.syscalls[i]? = some p) {k : Nat} {d : Delta}
    (hd : (p.deltas.filter fun d => !d.isData)[k]? = some d) :
    s.metaDeltas[s.deltaIndex i + k]? = some d := by
  obtain ⟨hi, hp⟩ := List.getElem?_eq_some_iff.mp hCall
  have hSplit : s.syscalls = s.syscalls.take i ++ p :: s.syscalls.drop (i + 1) := by
    rw [← hp, List.cons_getElem_drop_succ, List.take_append_drop]
  have hk : k < (p.deltas.filter fun d => !d.isData).length := (List.getElem?_eq_some_iff.mp hd).1
  have hDeltas : s.metaDeltas =
      ((s.syscalls.take i).flatMap PendingCall.deltas).filter (fun d => !d.isData) ++
        (p.deltas.filter (fun d => !d.isData) ++
          ((s.syscalls.drop (i + 1)).flatMap PendingCall.deltas).filter fun d => !d.isData) := by
    rw [metaDeltas, pendingDeltas]
    nth_rewrite 1 [hSplit]
    rw [List.flatMap_append, List.flatMap_cons, List.filter_append, List.filter_append]
  rw [hDeltas, deltaIndex, List.countP_eq_length_filter, List.getElem?_append_right (by omega),
    Nat.add_sub_cancel_left, List.getElem?_append_left hk, hd]

theorem mem_chosen {j : Nat} {d : Delta} (hj : j ∈ subset) (hd : s.metaDeltas[j]? = some d) :
    d ∈ s.chosen subset :=
  List.mem_filterMap.mpr ⟨j, hj, hd⟩

theorem chosen_subset {d : Delta} (hd : d ∈ s.chosen subset) : d ∈ s.metaDeltas := by
  obtain ⟨j, _, hd⟩ := List.mem_filterMap.mp hd
  exact List.mem_of_getElem? hd

section
variable [Hashes] {fs fs' cand : AbstFS} {id dir : Nat} {name : Name}

theorem trySubset_candidate {deltas : List Delta} (hStored : s.stable.Stored)
    (hCopyable : s.stable.Copyable) (h : s.trySubset fs deltas = .ok (.candidate cand, fs')) :
    ∃ base fs₁, s.stable.Recounted base ∧ base.applyDeltas deltas = .ok (false, fs₁) ∧
      fs₁.detectDangling = .ok false := by
  obtain ⟨base, hCopy, h⟩ := bind_eq_ok h
  obtain ⟨⟨pruned, fs₁⟩, hApply, h⟩ := bind_eq_ok h
  obtain ⟨cleared, hClear, _⟩ := bind_eq_ok hCopy
  obtain ⟨base', hCopy', hRecounted⟩ := AbstFS.copy_recounted hStored hCopyable hClear
  cases hCopy.symm.trans hCopy'
  cases pruned with
  | true => cases h
  | false =>
    obtain ⟨dangling, hDetect, h⟩ :=
      bind_eq_ok (show _ = Except.ok (Trial.candidate cand, fs') from h)
    cases dangling with
    | true => cases h
    | false => exact ⟨base, fs₁, hRecounted, hApply, hDetect⟩

theorem Exposed.firstIn (h : s.Exposed i p id dir name) (hStored : s.stable.Stored)
    (hCopyable : s.stable.Copyable)
    (hTry : s.trySubset fs (s.chosen subset) = .ok (.candidate cand, fs'))
    (hCall : s.syscalls[i]? = some p) (hSecond : s.SecondIn subset i p) :
    s.FirstIn subset i p := by
  obtain ⟨type, mode, hFirst⟩ := h.first
  by_contra hNot
  have hOut : s.deltaIndex i ∉ subset := fun hMem => hNot ⟨_, hFirst, rfl, hMem⟩
  have hDeltas : p.deltas.filter (fun d => !d.isData) =
      [⟨id, .add type mode⟩, ⟨dir, .addEntry name id⟩] := by
    rw [PendingCall.deltas, hFirst, h.second]
    rfl
  have hEntry : (⟨dir, .addEntry name id⟩ : Delta) ∈ s.chosen subset := by
    obtain ⟨_, _, _, hMem⟩ := hSecond
    rw [secondIndex, hFirst] at hMem
    exact mem_chosen hMem (metaDeltas_getElem? hCall (by rw [hDeltas]; rfl))
  have hAdds : ∀ d ∈ s.chosen subset, d.adds id = false := by
    intro d hd
    obtain ⟨j, hj, hd⟩ := List.mem_filterMap.mp hd
    refine h.only j ?_ d hd
    rintro rfl
    exact hOut hj
  obtain ⟨base, fs₁, hRecounted, hApply, hDetect⟩ := trySubset_candidate hStored hCopyable hTry
  have hInit : AbstFS.Unfinished base (s.chosen subset) id [] base := by
    refine ⟨hRecounted.keys hStored.keys, ?_, ?_⟩
    · rcases hRecounted.get? id with ⟨_, hNone⟩ | ⟨o, _, ho, _⟩
      · exact hNone
      · cases h.absent.symm.trans ho
    · rintro x n c values (hEntry | hDone) hc _
      · exact ⟨c, hEntry, hc⟩
      · cases hDone
  have hEnd := AbstFS.applyDeltas_induction (I := AbstFS.Unfinished base (s.chosen subset) id)
    (List.nil_append _) hInit (fun done d fs fs' hd h => h.step hAdds hd) hApply
  -- the entries lead from the root to the object, which is not there
  have hReached : ∀ x, s.Leads dir name id x → ReflTransGen fs₁.Child x id := by
    intro x hLeads
    induction hLeads with
    | here => exact .refl
    | @entry x c n values hThere hc hKept _ ih =>
      have hOld : base.getEntry x n = some c ∨ ⟨x, .addEntry n c⟩ ∈ s.chosen subset := by
        rcases hThere with hStable | hNew
        · exact .inl ((hRecounted.getEntry x n).trans hStable)
        · cases hNew
          exact .inr hEntry
      obtain ⟨c', hChild, hc'⟩ := hEnd.entries x n c values hOld hc
        ⟨fun old hd => hKept.removes old (chosen_subset hd),
          fun old new hd => hKept.replaces old new (chosen_subset hd)⟩
      exact .head (AbstFS.child_iff_getEntry.mpr ⟨n, hChild⟩) (ih c' hc')
  obtain ⟨o, ho⟩ := AbstFS.named_of_detectDangling hDetect (hReached 0 h.reached)
  cases hEnd.absent.symm.trans ho

/-- In every candidate the second delta of a call comes with the first, unless that one has been
made stable. -/
theorem second_needs_first (hStored : s.stable.Stored) (hCopyable : s.stable.Copyable)
    (hExposed : s.AllExposed)
    (hTry : s.trySubset fs (s.chosen subset) = .ok (.candidate cand, fs')) :
    ∀ i p, s.syscalls[i]? = some p → s.SecondIn subset i p →
      s.FirstIn subset i p ∨ p.delta0 = none := by
  intro i p hCall hSecond
  cases hFirst : p.delta0 with
  | none => exact .inr rfl
  | some d =>
    have hTwo : p.delta1.isSome := by
      obtain ⟨d₁, hd₁, _⟩ := hSecond
      rw [hd₁]
      rfl
    obtain ⟨id, dir, name, h⟩ := hExposed i p hCall (by rw [hFirst]; rfl) hTwo
    exact .inl (h.firstIn hStored hCopyable hTry hCall hSecond)

end

def Trial.candidate? : Trial → Option AbstFS
  | .candidate fs => some fs
  | _ => none

attribute [local instance] sampleHashes

def afterCalls (calls : List Syscall) : StableFS :=
  (calls.foldlM (replayCall (sampleDriver false)) sampleMounted).toOption.getD sampleMounted

/-- The candidate that a subset makes. -/
def candidateOf (s : StableFS) (subset : List Nat) : Option AbstFS :=
  (s.trySubset emptyFS (s.chosen subset)).toOption.bind fun r =>
    r.1.candidate?

theorem exists_candidate {s : StableFS} {subset : List Nat} (h : (s.candidateOf subset).isSome) :
    ∃ cand fs', s.trySubset emptyFS (s.chosen subset) = .ok (.candidate cand, fs') := by
  rw [candidateOf] at h
  cases hTry : s.trySubset emptyFS (s.chosen subset) with
  | error e =>
    rw [hTry] at h
    cases h
  | ok t =>
    obtain ⟨trial, fs'⟩ := t
    rw [hTry] at h
    cases trial with
    | candidate cand => exact ⟨cand, fs', rfl⟩
    | pruned => cases h
    | dangling => cases h

def created : StableFS := afterCalls [⟨0, .openFile [47, 97] sampleFlags 420, 3⟩]

theorem second_needs_first_created : created.AllExposed ∧ ∃ p, created.syscalls[0]? = some p ∧
    created.SecondIn [0, 1] 0 p ∧ (created.FirstIn [0, 1] 0 p ∨ p.delta0 = none) := by
  have hCandidate : (created.candidateOf [0, 1]).isSome := by decide +kernel
  obtain ⟨cand, fs', hTry⟩ := exists_candidate hCandidate
  obtain ⟨p, hp, hFirst, hSecond⟩ : ∃ p, created.syscalls = [p] ∧
      p.delta0 = some ⟨1, .add .file 420⟩ ∧ p.delta1 = some ⟨0, .addEntry [97] 1⟩ :=
    ⟨_, rfl, rfl, rfl⟩
  have hDeltas : created.metaDeltas = [⟨1, .add .file 420⟩, ⟨0, .addEntry [97] 1⟩] := by
    decide +kernel
  have hCall : created.syscalls[0]? = some p := by rw [hp]; rfl
  have hAll : created.AllExposed := by
    intro i p' hCall' _ _
    obtain ⟨rfl, rfl⟩ : i = 0 ∧ p' = p := by
      rw [hp, List.getElem?_singleton] at hCall'
      split_ifs at hCall' with hi
      exact ⟨hi, (Option.some.inj hCall').symm⟩
    refine ⟨1, 0, [97], ⟨.file, 420, hFirst⟩, hSecond, rfl, ?_, ?_⟩
    · intro j hj d hd
      rw [hDeltas] at hd
      rcases j with _ | _ | j
      · exact absurd rfl hj
      · cases hd
        rfl
      · cases hd
    · refine .entry (· = 1) (.inr rfl) rfl ⟨?_, ?_⟩ ?_
      · rw [hDeltas]
        simp
      · rw [hDeltas]
        simp
      · rintro _ rfl
        exact .here
  have hSecondIn : created.SecondIn [0, 1] 0 p := by
    refine ⟨_, hSecond, rfl, ?_⟩
    rw [secondIndex, hFirst]
    decide +kernel
  exact ⟨hAll, p, hCall, hSecondIn, second_needs_first (AbstFS.init_consistent _ _).toStored
    (by decide +kernel) hAll hTry 0 p hCall hSecondIn⟩

/-- The file `/a` is stable and is renamed to `/b`. -/
def renamed : StableFS :=
  afterCalls [⟨0, .openFile [47, 97] sampleFlags 420, 3⟩, ⟨1, .close 3, 0⟩, ⟨2, .sync, 0⟩,
    ⟨3, .rename [47, 97] [47, 98], 0⟩]

/-- The second delta of the rename makes a candidate without the first. It has neither name, and the
check accepts it. -/
theorem rename_halved :
    renamed.metaDeltas = [⟨0, .addEntry [98] 1⟩, ⟨0, .removeEntry [97] 1⟩] ∧
      (∃ p ∈ renamed.syscalls[0]?, renamed.SecondIn [1] 0 p ∧ ¬renamed.FirstIn [1] 0 p) ∧
      (renamed.candidateOf [1]).map (fun fs => (fs.getEntry 0 [97], fs.getEntry 0 [98])) =
        some (none, none) ∧
      (renamed.check ⟨false, false⟩ zeroMemory
        emptyFS).toOption.map Prod.fst = some .succeeded := by
  refine ⟨by decide +kernel, ⟨_, rfl, ⟨_, rfl, rfl, by decide +kernel⟩, ?_⟩, by decide +kernel,
    by decide +kernel⟩
  rintro ⟨d, _, _, hMem⟩
  revert hMem
  decide +kernel

-- a new name in a directory whose own name is missing, and one that is removed again
example :
    ((afterCalls [⟨0, .mkdir [47, 100] 493, 0⟩,
        ⟨1, .openFile [47, 100, 47, 102] sampleFlags 420, 3⟩]).candidateOf [0, 3]).isSome ∧
      ((afterCalls [⟨0, .openFile [47, 97] sampleFlags 420, 3⟩, ⟨1, .close 3, 0⟩,
        ⟨2, .unlink [47, 97], 0⟩]).candidateOf [1, 2]).isSome := by
  decide +kernel

end StableFS

end Explode.Driver
