import Explode.Driver.Coherent

/-!
# Applying a subset of the deltas

The deltas of a subset are applied one after the other. None of them fails as
long as the entries that a candidate may have form short paths, and no directory
with entries loses its own one.
-/

namespace Explode.Driver

open Relation RootedGraph Loop

namespace Change

def puts : Change → Option Nat
  | addEntry _ childId => some childId
  | replaceEntry _ _ newChildId => some newChildId
  | _ => none

def takes : Change → Option Nat
  | removeEntry _ childId => some childId
  | replaceEntry _ oldChildId _ => some oldChildId
  | _ => none

end Change

namespace AbstFS

variable {fs : AbstFS} {p c : Nat} {o : Obj} {name : Name}

theorem linkObj_isOk (hp : fs.objs.get? p = some o) (hDir : o.type = .dir)
    (hNew : fs.getEntry p name = none) (hc : c ≠ 0) : ∃ fs', fs.linkObj p c name = .ok fs' := by
  obtain ⟨d, hBody⟩ := dir_of_type hDir
  rw [getEntry_eq, hp, Option.bind_some, entries_of_body hBody] at hNew
  simp only [linkObj, addEntry, hp, hBody, hNew, Option.isSome_none, Bool.false_eq_true, if_false,
    if_neg hc, bind, Except.bind]
  split <;> exact ⟨_, rfl⟩

theorem unlinkObj_isOk (hOld : fs.getEntry p name = some c) (hLeaf : ∀ n, fs.getEntry c n = none)
    (hData : ∀ oc, fs.objs.get? c = some oc → destroy oc = .ok ()) :
    ∃ fs', fs.unlinkObj p name = .ok fs' := by
  have hNe : c ≠ p := by
    rintro rfl
    cases (hLeaf name).symm.trans hOld
  obtain ⟨o, hp, hEntry⟩ := getEntry_eq_some.mp hOld
  obtain ⟨d, hBody⟩ := dir_of_type (dir_of_entry hEntry)
  rw [entries_of_body hBody] at hEntry
  simp only [unlinkObj, hp, hBody, hEntry, get?_update, if_neg hNe]
  cases hc : fs.objs.get? c with
  | none => exact ⟨_, rfl⟩
  | some oc =>
    have hEmpty : oc.entries.entries.isEmpty = true := by
      refine SortedMap.entries_isEmpty.mpr (SortedMap.ext_get? fun n => ?_)
      have hNone := hLeaf n
      rwa [getEntry_eq, hc, Option.bind_some] at hNone
    have hDestroy : destroy { oc with ref := oc.ref - 1 } = .ok () := hData oc hc
    dsimp only
    split_ifs
    · have hEmpty' : ({ oc with ref := oc.ref - 1 } : Obj).entries.entries.isEmpty = true := hEmpty
      rw [deleteObj, if_pos hEmpty', hDestroy]
      exact ⟨_, rfl⟩
    · exact ⟨_, rfl⟩

theorem changeDir_isOk {id : Nat} {found : Option Nat} {call : FsResult AbstFS}
    (hDir : ∀ o, fs.objs.get? id = some o → o.type = .dir)
    (hCall : ∀ o, fs.objs.get? id = some o → fs.getEntry id name = found → ∃ fs', call = .ok fs') :
    ∃ r, fs.changeDir id name found call = .ok r := by
  rw [changeDir]
  cases ho : fs.objs.get? id with
  | none => exact ⟨_, rfl⟩
  | some o =>
    obtain ⟨d, hBody⟩ := dir_of_type (hDir o ho)
    simp only [hBody]
    split_ifs with hFound
    · obtain ⟨fs', hOk⟩ := hCall o ho (by
        rw [getEntry_eq, ho, Option.bind_some, entries_of_body hBody, hFound])
      rw [hOk]
      exact ⟨_, rfl⟩
    · exact ⟨_, rfl⟩

end AbstFS

namespace StableFS

def Possible (s : StableFS) (x c : Nat) : Prop :=
  (∃ n, s.stable.getEntry x n = some c) ∨
    ∃ d ∈ s.metaDeltas, d.targetId = x ∧ d.change.puts = some c

/-- The stable file system can be copied, no path of a candidate is too long, and an object that
loses an entry has no entries. -/
structure Evaluable (s : StableFS) : Prop where
  fits : s.stable.Fits
  noBytes : ∀ e ∈ s.stable.objs.entries, e.2.body.view.NoBytes
  self : ∀ e ∈ s.stable.objs.entries, ∀ n ∈ e.2.entries.entries, n.2 ≠ e.1
  data : ∀ e ∈ s.stable.objs.entries, AbstFS.destroy e.2 = .ok ()
  short : Short s.Possible maxDepth 0
  leaf : ∀ d ∈ s.metaDeltas, ∀ c ∈ d.change.takes, ∀ n, s.stable.getEntry c n = none
  clean : s.metaDeltas.Pairwise fun e d => ∀ c ∈ d.change.takes, e.targetId = c →
    e.change.puts = none

structure Ready (kinds : Nat → Bool) (s : StableFS) (done : List Delta) (fs : AbstFS) : Prop
    extends fs.Keyed where
  typed : fs.Typed kinds
  data : ∀ x o, fs.objs.get? x = some o → AbstFS.destroy o = .ok ()
  objects : ∀ x o, fs.objs.get? x = some o →
    (∃ o₀, s.stable.objs.get? x = some o₀) ∨ ∃ d ∈ done, d.adds x = true
  entries : ∀ x n c, fs.getEntry x n = some c →
    s.stable.getEntry x n = some c ∨ ∃ d ∈ done, d.targetId = x ∧ d.change.puts = some c
  nonzero : ∀ x n c, fs.getEntry x n = some c → c ≠ 0

section Trial
variable {kinds : Nat → Bool} {s : StableFS} {done : List Delta} {fs fs' : AbstFS} {d : Delta}
  {bound : Nat}

theorem puts_of_entry {change : Change} {name : Name} {c : Nat}
    (h : change.entry = some (name, some c)) : change.puts = some c := by
  cases change <;> cases h <;> rfl

theorem puts_ne_zero (hd : d.Typed kinds bound) {c : Nat} (h : d.change.puts = some c) : c ≠ 0 := by
  obtain ⟨id, change⟩ := d
  cases change with
  | addEntry name childId =>
    cases h
    exact hd.2.2
  | replaceEntry name oldChildId newChildId =>
    cases h
    exact hd.2.2
  | _ => cases h

namespace Ready

theorem short (h : Ready kinds s done fs) (hDone : ∀ d ∈ done, d ∈ s.metaDeltas)
    (hShort : Short s.Possible maxDepth 0) : Short fs.Child maxDepth 0 := by
  refine hShort.mono ?_
  rintro x c ⟨o, n, ho, hn⟩
  rcases h.entries x n c (AbstFS.getEntry_eq_some.mpr ⟨o, ho, hn⟩) with hStable | ⟨d, hd, hPuts⟩
  · exact .inl ⟨n, hStable⟩
  · exact .inr ⟨d, hDone d hd, hPuts⟩

theorem sets (h : Ready kinds s done fs) (hd : d.Typed kinds bound) {name : Name}
    {child : Option Nat} (hChange : d.change.entry = some (name, child))
    (hSets : fs.Sets d.targetId name child fs') : Ready kinds s (done ++ [d]) fs' where
  toKeyed := h.toKeyed.sets hSets fun hZero => h.nonzero _ _ 0 hZero rfl
  typed x o' ho' := by
    obtain ⟨o, ho, hBare⟩ := hSets.within x o' ho'
    rw [Obj.type_of_bare hBare]
    exact h.typed x o ho
  data x o' ho' := by
    obtain ⟨o, ho, hBare⟩ := hSets.within x o' ho'
    rw [Obj.destroy_of_bare hBare]
    exact h.data x o ho
  objects x o' ho' := by
    obtain ⟨o, ho, _⟩ := hSets.within x o' ho'
    refine (h.objects x o ho).imp_right ?_
    rintro ⟨e, he, hAdds⟩
    exact ⟨e, List.mem_append_left [d] he, hAdds⟩
  entries x n c hEntry := by
    rw [hSets.entries] at hEntry
    split_ifs at hEntry with hx
    · cases hx
      rw [hEntry] at hChange
      exact .inr ⟨d, by simp, rfl, puts_of_entry hChange⟩
    · refine (h.entries x n c hEntry).imp_right ?_
      rintro ⟨e, he, hPuts⟩
      exact ⟨e, List.mem_append_left [d] he, hPuts⟩
  nonzero x n c hEntry := by
    rw [hSets.entries] at hEntry
    split_ifs at hEntry
    · rw [hEntry] at hChange
      exact puts_ne_zero hd (puts_of_entry hChange)
    · exact h.nonzero x n c hEntry

theorem adds (h : Ready kinds s done fs) (hd : d.Typed kinds bound) {type : ObjType} {mode : Nat}
    (hChange : d.change = .add type mode) (hAdds : fs.Adds d.targetId type fs') :
    Ready kinds s (done ++ [d]) fs' := by
  obtain ⟨o, hId, hType, _, hDestroy, hGet⟩ := hAdds.get?
  obtain ⟨_, hKind⟩ := hd
  rw [hChange] at hKind
  refine ⟨⟨?_, ?_⟩, ?_, ?_, ?_, ?_, ?_⟩
  · obtain ⟨r, hr, hDir⟩ := h.root
    exact ⟨r, by rw [hGet, if_neg hKind.2.symm, hr], hDir⟩
  · intro x o' ho'
    rw [hGet] at ho'
    split_ifs at ho' with hx
    · cases ho'
      exact hId.trans hx.symm
    · exact h.keys x o' ho'
  · intro x o' ho'
    rw [hGet] at ho'
    split_ifs at ho' with hx
    · cases ho'
      rw [hType, hx]
      exact hKind.1
    · exact h.typed x o' ho'
  · intro x o' ho'
    rw [hGet] at ho'
    split_ifs at ho' with hx
    · cases ho'
      exact hDestroy
    · exact h.data x o' ho'
  · intro x o' ho'
    rw [hGet] at ho'
    split_ifs at ho' with hx
    · exact .inr ⟨d, by simp, by simp [Delta.adds, hx, hChange, Change.type]⟩
    · refine (h.objects x o' ho').imp_right ?_
      rintro ⟨e, he, hAdds⟩
      exact ⟨e, List.mem_append_left [d] he, hAdds⟩
  · intro x n c hEntry
    rw [hAdds.entries] at hEntry
    refine (h.entries x n c hEntry).imp_right ?_
    rintro ⟨e, he, hPuts⟩
    exact ⟨e, List.mem_append_left [d] he, hPuts⟩
  · intro x n c hEntry
    rw [hAdds.entries] at hEntry
    exact h.nonzero x n c hEntry

end Ready

structure Applicable (kinds : Nat → Bool) (bound : Nat) (s : StableFS) (done : List Delta)
    (d : Delta) : Prop where
  typed : d.Typed kinds bound
  isMeta : d.isData = false
  new : ∀ id, d.adds id = true → s.stable.objs.get? id = none ∧ ∀ e ∈ done, e.adds id = false
  leaf : ∀ c ∈ d.change.takes, (∀ n, s.stable.getEntry c n = none) ∧
    ∀ e ∈ done, e.targetId = c → e.change.puts = none

namespace Ready

theorem leaf (h : Ready kinds s done fs) (hd : s.Applicable kinds bound done d) {c : Nat}
    (hc : d.change.takes = some c) (n : Name) : fs.getEntry c n = none := by
  obtain ⟨hStable, hDone⟩ := hd.leaf c hc
  by_contra hSome
  obtain ⟨x, hx⟩ := Option.ne_none_iff_exists'.mp hSome
  rcases h.entries c n x hx with hOld | ⟨e, he, hTarget, hPuts⟩
  · cases (hStable n).symm.trans hOld
  · cases (hDone e he hTarget).symm.trans hPuts

theorem dir (h : Ready kinds s done fs) (hKind : kinds d.targetId = true) (o : Obj)
    (ho : fs.objs.get? d.targetId = some o) : o.type = .dir :=
  (h.typed d.targetId o ho).mpr hKind

variable [Hashes]

theorem makeDeltaStable_isOk (h : Ready kinds s done fs) (hd : s.Applicable kinds bound done d)
    (hDone : ∀ e ∈ done ++ [d], e ∈ s.metaDeltas) (hShort : Short s.Possible maxDepth 0) :
    ∃ r, fs.makeDeltaStable d = .ok r := by
  have hTyped := hd.typed
  have hLeaf := fun c hc => h.leaf hd (c := c) hc
  obtain ⟨id, change⟩ := d
  cases change with
  | truncate length => cases hd.isMeta
  | pwrite buf off => cases hd.isMeta
  | add type mode =>
    have hZero : id ≠ 0 := hTyped.2.2
    obtain ⟨hStable, hBefore⟩ := hd.new id (by simp [Delta.adds, Change.type])
    have hNew : fs.objs.get? id = none := by
      by_contra hSome
      obtain ⟨o, ho⟩ := Option.ne_none_iff_exists'.mp hSome
      rcases h.objects id o ho with ⟨o₀, ho₀⟩ | ⟨e, he, hAdds⟩
      · cases hStable.symm.trans ho₀
      · cases (hBefore e he).symm.trans hAdds
    have hReady := h.adds (d := ⟨id, .add type mode⟩) hTyped rfl (AbstFS.newObj_adds type mode hNew)
    have hCheck := AbstFS.internalCheck_ok hReady.keys (hReady.short hDone hShort)
    have hThere : ¬((fs.objs.get? id).isSome = true ∨ id = 0) := by
      rw [hNew]
      rintro (hSome | rfl)
      · cases hSome
      · exact hZero rfl
    simp only [AbstFS.makeDeltaStable, if_neg hThere, AbstFS.addObjAt, hCheck, bind, Except.bind]
    exact ⟨_, rfl⟩
  | addEntry name childId =>
    obtain ⟨_, hKind, hChild⟩ := hTyped
    exact AbstFS.changeDir_isOk (h.dir hKind) fun o ho hNew =>
      AbstFS.linkObj_isOk ho (h.dir hKind o ho) hNew hChild
  | removeEntry name childId =>
    obtain ⟨_, hKind⟩ := hTyped
    exact AbstFS.changeDir_isOk (h.dir hKind) fun o ho hOld =>
      AbstFS.unlinkObj_isOk hOld (hLeaf childId rfl) (h.data childId)
  | replaceEntry name oldChildId newChildId =>
    obtain ⟨_, hKind, hChild⟩ := hTyped
    refine AbstFS.changeDir_isOk (h.dir hKind) fun o ho hOld => ?_
    obtain ⟨fs₁, hUnlink⟩ := AbstFS.unlinkObj_isOk hOld (hLeaf oldChildId rfl) (h.data oldChildId)
    obtain ⟨_, hSets⟩ := AbstFS.unlinkObj_sets h.keys hUnlink
    have hNe : fs.getEntry id name ≠ some id := by
      intro hSelf
      cases hOld.symm.trans hSelf
      cases (hLeaf _ rfl name).symm.trans hSelf
    obtain ⟨o₁, h₁⟩ := hSets.kept id o ho hNe
    obtain ⟨o₂, h₂, hBare⟩ := hSets.within id o₁ h₁
    cases ho.symm.trans h₂
    have hDir : o₁.type = .dir := (Obj.type_of_bare hBare).trans (h.dir hKind o ho)
    obtain ⟨fs₂, hLink⟩ := AbstFS.linkObj_isOk h₁ hDir (by rw [hSets.entries, if_pos rfl]) hChild
    refine ⟨fs₂, ?_⟩
    rw [hUnlink]
    exact hLink

theorem step (h : Ready kinds s done fs) (hd : s.Applicable kinds bound done d)
    (hDelta : fs.makeDeltaStable d = .ok (some fs')) :
    Ready kinds s (done ++ [d]) fs' := by
  rcases AbstFS.makeDeltaStable_ok h.keys hDelta with ⟨name, child, hChange, hSets, _⟩ |
    ⟨type, mode, hChange, hAdds⟩ | ⟨hData, _⟩
  · exact h.sets hd.typed hChange hSets
  · exact h.adds hd.typed hChange hAdds
  · cases hd.isMeta.symm.trans hData

theorem applyDeltas (deltas : List Delta) (h : Ready kinds s done fs)
    (hMeta : ∀ d ∈ done ++ deltas, d ∈ s.metaDeltas) (hShort : Short s.Possible maxDepth 0)
    (hApplicable : ∀ before d rest, deltas = before ++ d :: rest →
      s.Applicable kinds bound (done ++ before) d) :
    ∃ pruned fs' all, fs.applyDeltas deltas = .ok (pruned, fs') ∧
      Ready kinds s all fs' ∧ ∀ d ∈ all, d ∈ s.metaDeltas := by
  induction deltas generalizing done fs with
  | nil => exact ⟨false, fs, done, rfl, h, by simpa using hMeta⟩
  | cons d rest ih =>
    have hd : s.Applicable kinds bound done d := by
      simpa using hApplicable [] d rest rfl
    have hDone : ∀ e ∈ done ++ [d], e ∈ s.metaDeltas := by
      intro e he
      exact hMeta e (by simp only [List.mem_append, List.mem_cons, List.not_mem_nil] at he ⊢; tauto)
    obtain ⟨r, hDelta⟩ : ∃ r, fs.makeDeltaStable d = .ok r := h.makeDeltaStable_isOk hd hDone hShort
    rw [AbstFS.applyDeltas, hDelta]
    cases r with
    | none => exact ⟨true, fs, done, rfl, h, fun e he => hMeta e (by simp [he])⟩
    | some fs₁ =>
      refine ih (h.step hd hDelta) (by simpa using hMeta) ?_
      intro before e rest' hEq
      have hMore := hApplicable (d :: before) e rest' (by rw [hEq]; rfl)
      simpa using hMore

end Ready

end Trial

end StableFS

end Explode.Driver
