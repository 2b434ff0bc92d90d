import Mathlib.Data.List.Flatten
import Explode.Driver.Replay
import Explode.Driver.Walks

/-!
# The two file systems of a replay

Whatever calls are replayed, an object keeps its kind in both file systems and
in the deltas, and the deltas that are left add only objects that the stable
file system does not have.
-/

namespace Explode.Driver

open Loop

def Delta.Typed (kinds : Nat → Bool) (bound : Nat) (d : Delta) : Prop :=
  d.targetId < bound ∧
    match d.change with
    | .add type _ => (type = .dir ↔ kinds d.targetId = true) ∧ d.targetId ≠ 0
    | .addEntry _ childId => kinds d.targetId = true ∧ childId ≠ 0
    | .removeEntry _ _ => kinds d.targetId = true
    | .replaceEntry _ _ newChildId => kinds d.targetId = true ∧ newChildId ≠ 0
    | _ => True

theorem Delta.Typed.mono {kinds kinds' : Nat → Bool} {bound bound' : Nat} {d : Delta}
    (h : d.Typed kinds bound) (hBound : bound ≤ bound')
    (hKinds : ∀ x < bound, kinds' x = kinds x) : d.Typed kinds' bound' := by
  refine ⟨h.1.trans_le hBound, ?_⟩
  rw [hKinds d.targetId h.1]
  exact h.2

theorem Delta.adds_iff {d : Delta} {id : Nat} :
    d.adds id = true ↔ d.targetId = id ∧ d.change.type = .add := by
  rw [adds, Bool.and_eq_true, decide_eq_true_iff, decide_eq_true_iff]

namespace AbstFS

def Typed (kinds : Nat → Bool) (fs : AbstFS) : Prop :=
  ∀ id o, fs.objs.get? id = some o → (o.type = .dir ↔ kinds id = true)

def kindsWith (kinds : Nat → Bool) (id : Nat) (new : Option ObjType) (x : Nat) : Bool :=
  if x = id then new.elim (kinds x) fun type => decide (type = .dir) else kinds x

theorem kindsWith_of_ne {kinds : Nat → Bool} {id x : Nat} {new : Option ObjType} (h : x ≠ id) :
    kindsWith kinds id new x = kinds x := if_neg h

theorem kindsWith_none (kinds : Nat → Bool) (id : Nat) : kindsWith kinds id none = kinds := by
  funext x
  exact ite_self (kinds x)

variable {kinds : Nat → Bool} {fs fs' : AbstFS} {new : Option ObjType}

theorem Evolves.typed (h : fs.Evolves new fs') (hTyped : fs.Typed kinds)
    (hKeys : ∀ id o, fs.objs.get? id = some o → id ≠ fs.id) :
    fs'.Typed (kindsWith kinds fs.id new) := by
  intro x o' ho'
  rcases h.types x o' ho' with ⟨o, ho, hType⟩ | ⟨rfl, rfl⟩
  · rw [kindsWith_of_ne (hKeys x o ho), hType]
    exact hTyped x o ho
  · simp [kindsWith]

theorem Consistent.entry (h : fs.Consistent fun _ => 0) (hTyped : fs.Typed kinds) {p c : Nat}
    {name : Name} (hEntry : fs.getEntry p name = some c) :
    p < fs.id ∧ kinds p = true ∧ c ≠ 0 := by
  obtain ⟨o, ho, hn⟩ := getEntry_eq_some.mp hEntry
  exact ⟨(h.below p o ho), (hTyped p o ho).mp (dir_of_entry hn),
    (formed_entry (h.formed p o ho) hn).2⟩

end AbstFS

theorem Data.copy_tidy {d dt d' : Data} (h : d.copy dt = .ok d') : d'.Tidy := by
  rw [Data.copy] at h
  split_ifs at h
  cases h
  have hLoop : ∀ (l : List DataRegion) (d : Data), d.Tidy →
      (l.foldl (fun d dr =>
        (d.newRegion dr.start dr.stop dr.magic dr.data 0).2.add
          (d.newRegion dr.start dr.stop dr.magic dr.data 0).1) d).Tidy := by
    intro l
    induction l with
    | nil => exact fun d hd => hd
    | cons dr rest ih =>
      exact fun d hd => ih _ ((hd.newRegion _ _ _ _ _).add (d.newRegion_bufferless _ _ _ _ _))
  exact hLoop dt.regions _ ⟨.nil, by simp⟩

theorem Obj.copy_formed {o vo o' : Obj} (hFormed : vo.Formed) (h : o.copy vo = .ok o') :
    o'.Formed ∧ o'.id = vo.id ∧ o'.type = vo.type := by
  obtain ⟨id, ref, mode, body⟩ := o
  obtain ⟨id', ref', mode', body'⟩ := vo
  cases body <;> cases body' <;> try cases h
  case file.file f g =>
    obtain ⟨d, hCopy, hEnd⟩ := bind_eq_ok h
    cases hEnd
    cases hData : f.d.copy g.d with
    | error e =>
      rw [hData] at hCopy
      cases hCopy
    | ok d' =>
      rw [hData] at hCopy
      cases hCopy
      exact ⟨Data.copy_tidy hData, rfl, rfl⟩
  case dir.dir =>
    dsimp only [Obj.copy] at h
    split_ifs at h
    cases h
    exact ⟨hFormed, rfl, rfl⟩
  case symLink.symLink => exact ⟨hFormed, rfl, rfl⟩

namespace StableFS

/-- What the volatile and the stable file system and the deltas between them agree on. -/
structure Coherent (kinds : Nat → Bool) (s : StableFS) : Prop where
  volatile : s.volatile.Consistent fun _ => 0
  slashless : s.volatile.Slashless
  stored : s.stable.Stored
  typed : s.volatile.Typed kinds
  stableTyped : s.stable.Typed kinds
  below : ∀ id o, s.stable.objs.get? id = some o → id < s.volatile.id
  deltas : ∀ d ∈ s.pendingDeltas, d.Typed kinds s.volatile.id
  once : s.pendingDeltas.Pairwise fun d e => ∀ id, d.adds id = true → e.adds id = false
  fresh : ∀ d ∈ s.pendingDeltas, ∀ id, d.adds id = true → s.stable.objs.get? id = none

variable {kinds : Nat → Bool} {s s' : StableFS} {sys : Syscall}

section Exits
variable {drv : FsDriver}

theorem exitNames_ok {call : AbstFS → FsResult AbstFS}
    (hExit : s.exitNames drv sys call = .ok s') : s' = s ∨
      ∃ p st, s.lastCall sys = .ok p ∧ call s.stable = .ok st ∧
        s' = { s.setLast p.clearDeltas with stable := st }.onSyncOps := by
  obtain ⟨p, hLast, hExit⟩ := bind_eq_ok hExit
  split_ifs at hExit
  · obtain ⟨st, hCall, hEnd⟩ := bind_eq_ok hExit
    cases hEnd
    exact .inr ⟨p, st, hLast, hCall, rfl⟩
  · cases hExit
    exact .inl rfl

theorem not_internalCheck {p : PendingCall} (hp : p ∈ s.syscalls) (hFirst : p.delta0 = none)
    (hTwo : p.sys.call.hasTwo = false ∨ p.delta1 = none) (hRename : p.sys.call.isRename = false) :
    s.internalCheck ≠ .ok () := by
  have hSecond : p.delta1 = none := by
    rcases hTwo with hTwo | hNone
    · by_contra hSome
      cases hTwo.symm.trans (p.two (Option.isSome_iff_ne_none.mpr hSome))
    · exact hNone
  have hCheck : p.check = false := by simp [PendingCall.check, hFirst, hSecond, hRename]
  rw [StableFS.internalCheck, if_neg]
  · exact nofun
  · rw [List.all_eq_true]
    intro hAll
    cases hCheck.symm.trans (hAll p hp)

theorem deltas_withoutTarget (calls : List PendingCall) (id : Nat) :
    (withoutTarget calls id).flatMap PendingCall.deltas =
      (calls.flatMap PendingCall.deltas).filter fun d => d.targetId ≠ id := by
  have hCleared : ∀ p : PendingCall,
      (p.clearTarget id).deltas = p.deltas.filter fun d => d.targetId ≠ id := by
    intro p
    rw [PendingCall.deltas, PendingCall.deltas, List.filter_append, ← Option.toList_filter,
      ← Option.toList_filter]
    rfl
  induction calls with
  | nil => rfl
  | cons p rest ih =>
    rw [List.flatMap_cons, List.filter_append, ← ih, ← hCleared, withoutTarget, List.map_cons,
      List.filter_cons]
    split_ifs with hAny
    · rfl
    · -- a call without deltas is dropped
      have hNone : (p.clearTarget id).deltas = [] := by
        simp only [Bool.or_eq_true, not_or, Option.not_isSome_iff_eq_none] at hAny
        rw [PendingCall.deltas, hAny.1, hAny.2]
        rfl
      rw [hNone]
      rfl

variable [Hashes]

theorem exitData_ok {fd : Nat} {call : PathCall}
    (hExit : s.exitData drv sys fd call = .ok s') : s' = s ∨
      ∃ p q, s.lastCall sys = .ok p ∧ q ∈ s'.syscalls ∧ q.sys = p.sys ∧ q.delta0 = none := by
  obtain ⟨p, hLast, hExit⟩ := bind_eq_ok hExit
  obtain ⟨des, _, hExit⟩ := bind_eq_ok hExit
  split_ifs at hExit
  · obtain ⟨st, _, hEnd⟩ := bind_eq_ok hExit
    cases hEnd
    exact .inr ⟨p, p.clearDeltas, hLast, by simp [setLast, onSyncOps], rfl, rfl⟩
  · rw [flushDelta0] at hExit
    split at hExit
    case h_1 => cases hExit
    case h_2 delta _ =>
    obtain ⟨next, _, hExit⟩ := bind_eq_ok hExit
    cases next with
    | none => cases hExit
    | some st =>
      cases hExit
      exact .inr ⟨p, p.clearDelta0, hLast, by simp [setLast, onSyncOps], rfl, rfl⟩
  · cases hExit
    exact .inl rfl

end Exits

namespace Coherent

variable (h : s.Coherent kinds)
include h

theorem congr (hStable : s'.stable = s.stable) (hVolatile : s'.volatile = s.volatile)
    (hCalls : s'.syscalls = s.syscalls) : s'.Coherent kinds := by
  obtain ⟨stable', volatile', fds', calls', ongoing', sigs'⟩ := s'
  cases hStable
  cases hVolatile
  cases hCalls
  exact ⟨h.volatile, h.slashless, h.stored, h.typed, h.stableTyped, h.below, h.deltas, h.once,
    h.fresh⟩

section Push
variable {v : AbstFS} {new : Option ObjType} {path : CString}

theorem typed_after (hEvolves : s.volatile.Evolves new v) :
    v.Typed (AbstFS.kindsWith kinds s.volatile.id new) :=
  hEvolves.typed h.typed fun id o ho => (h.volatile.below id o ho).ne

theorem push (hv : v.Consistent fun _ => 0) (hEvolves : s.volatile.Evolves new v) {p : PendingCall}
    (hDeltas : ∀ d ∈ p.deltas, d.Typed (AbstFS.kindsWith kinds s.volatile.id new) v.id)
    (hNew : ∀ d ∈ p.deltas, d.change.type = .add → d.targetId = s.volatile.id)
    (hOnce : p.deltas.Pairwise fun _ e => e.change.type ≠ .add) :
    (s.push v p).Coherent (AbstFS.kindsWith kinds s.volatile.id new) := by
  have hPending : (s.push v p).pendingDeltas = s.pendingDeltas ++ p.deltas := by
    simp [pendingDeltas, StableFS.push]
  have hId : s.volatile.id ≤ v.id := hEvolves.id ▸ Nat.le_add_right _ _
  have hKinds : ∀ x < s.volatile.id, AbstFS.kindsWith kinds s.volatile.id new x = kinds x :=
    fun x hx => AbstFS.kindsWith_of_ne hx.ne
  constructor
  · exact hv
  · exact hEvolves.slashless h.slashless
  · exact h.stored
  · exact h.typed_after hEvolves
  · intro id o ho
    rw [hKinds id (h.below id o ho)]
    exact h.stableTyped id o ho
  · exact fun id o ho => (h.below id o ho).trans_le hId
  · rw [hPending]
    intro d hd
    rcases List.mem_append.mp hd with hOld | hNewDelta
    · exact (h.deltas d hOld).mono hId hKinds
    · exact hDeltas d hNewDelta
  · rw [hPending, List.pairwise_append]
    refine ⟨h.once, hOnce.imp ?_, ?_⟩
    · intro d e he id _
      rw [Bool.eq_false_iff, ne_eq, Delta.adds_iff]
      exact fun hAdds => he hAdds.2
    · intro d hd e he id hAdds
      rw [Bool.eq_false_iff, ne_eq, Delta.adds_iff]
      rintro ⟨rfl, hType⟩
      have hLt := (h.deltas d hd).1
      rw [(Delta.adds_iff.mp hAdds).1, hNew e he hType] at hLt
      exact lt_irrefl _ hLt
  · rw [hPending]
    intro d hd id hAdds
    rcases List.mem_append.mp hd with hOld | hNewDelta
    · exact h.fresh d hOld id hAdds
    · obtain ⟨rfl, hType⟩ := Delta.adds_iff.mp hAdds
      rw [hNew d hNewDelta hType]
      by_contra hSome
      obtain ⟨o, ho⟩ := Option.ne_none_iff_exists'.mp hSome
      exact lt_irrefl _ (h.below _ o ho)

theorem push_one (hv : v.Consistent fun _ => 0) (hEvolves : s.volatile.Evolves none v) {d : Delta}
    (hd : d.Typed kinds v.id) (hType : d.change.type ≠ .add) :
    (s.push v (.one sys d)).Coherent kinds := by
  have hPush := h.push hv hEvolves (p := .one sys d)
  rw [AbstFS.kindsWith_none] at hPush
  refine hPush ?_ ?_ (List.pairwise_singleton _ d)
  · simpa [PendingCall.one, PendingCall.deltas] using hd
  · simpa [PendingCall.one, PendingCall.deltas] using fun hAdd => absurd hAdd hType

theorem parent (hEvolves : s.volatile.Evolves none v) (hPath : s.volatile.HasParent path)
    {nd : Namei} (hWant : nd.wantParent = true) {parent : Nat × Name}
    (hParent : v.findPath path nd = .ok parent) : parent.1 < v.id ∧ kinds parent.1 = true := by
  obtain ⟨nd₀, o, hFind, ho, hDir⟩ := hPath
  rw [← AbstFS.findPath_parent_agree hEvolves.agrees hEvolves.mnt rfl hWant hFind hParent]
  refine ⟨?_, (h.typed nd₀.1 o ho).mp hDir⟩
  rw [hEvolves.id]
  exact (h.volatile.below nd₀.1 o ho)

theorem enterAdd (hv : v.Consistent fun _ => 0) {type : ObjType} {mode : Nat}
    (hEvolves : s.volatile.Evolves (some type) v)
    (hEntry : ∃ nd, s.volatile.findPath path parentNameiInit = .ok nd ∧
      v.getEntry nd.1 nd.2 = some s.volatile.id) {two : sys.call.hasTwo}
    (hEnter : s.enterAdd sys two path type mode v = .ok s') : ∃ kinds', s'.Coherent kinds' := by
  obtain ⟨nd, parent, childId, hFind, hParent, hChild, rfl⟩ := enterAdd_ok hEnter
  obtain ⟨nd₀, hFind₀, hNew⟩ := hEntry
  have hSame : nd₀ = parent :=
    AbstFS.findPath_parent_same hEvolves.agrees hEvolves.mnt hFind₀ hParent
  rw [hSame, hChild] at hNew
  cases hNew
  have hFound := AbstFS.findPath_entry (hEvolves.slashless h.slashless) hFind hParent
  rw [hChild] at hFound
  have hTarget : nd.1 = s.volatile.id := (Option.some.inj hFound).symm
  rw [hTarget]
  obtain ⟨hParentId, hKind, hZero⟩ := hv.entry (h.typed_after hEvolves) hChild
  refine ⟨_, h.push hv hEvolves ?_ ?_ ?_⟩
  · simp only [PendingCall.deltas, Option.toList_some, List.cons_append, List.nil_append,
      List.forall_mem_cons]
    refine ⟨⟨?_, ?_, hZero⟩, ⟨hParentId, hKind, hZero⟩, by simp⟩
    · rw [hEvolves.id]
      exact Nat.lt_succ_self _
    · simp [AbstFS.kindsWith]
  · simp [PendingCall.deltas, Change.type]
  · simp [PendingCall.deltas, Change.type]

theorem enterRemove {call : PathCall}
    (hCall : ∀ v, call s.volatile path = .ok v → v.Consistent (fun _ => 0) ∧
      s.volatile.Evolves none v ∧ s.volatile.HasParent path)
    (hEnter : s.enterRemove sys path call = .ok s') :
    s'.Coherent kinds := by
  obtain ⟨target, v, parent, _, hv, hParent, rfl⟩ := enterRemove_ok hEnter
  obtain ⟨hConsistent, hEvolves, hPath⟩ := hCall v hv
  exact h.push_one hConsistent hEvolves (h.parent hEvolves hPath rfl hParent) nofun

theorem enterData {fd : Nat} {change : Change} {call : PathCall}
    (hCall : ∀ path v, call s.volatile path = .ok v → v.Consistent (fun _ => 0) ∧ s.volatile.Evolves
      none v) (hData : ∀ id, (⟨id, change⟩ : Delta).isData = true)
    (hEnter : s.enterData sys fd call change = .ok s') : s'.Coherent kinds := by
  obtain ⟨des, v, nd, _, hv, hFind, rfl⟩ := enterData_ok hEnter
  obtain ⟨hConsistent, hEvolves⟩ := hCall des.filename v hv
  obtain ⟨o, ho⟩ := AbstFS.findPath_exists hConsistent hFind
  have hId := (hConsistent.below nd.1 o ho)
  have hChange := hData nd.1
  cases change with
  | truncate length => exact h.push_one hConsistent hEvolves ⟨hId, trivial⟩ nofun
  | pwrite buf off => exact h.push_one hConsistent hEvolves ⟨hId, trivial⟩ nofun
  | add type mode => cases hChange
  | addEntry name childId => cases hChange
  | removeEntry name childId => cases hChange
  | replaceEntry name oldChildId newChildId => cases hChange

theorem enterLink {oldname newname : CString} (hEnter : s.enterLink sys oldname newname = .ok s') :
    s'.Coherent kinds := by
  obtain ⟨v, parent, childId, hLink, _, hChild, rfl⟩ := enterLink_ok hEnter
  have hConsistent := AbstFS.link_consistent h.volatile hLink
  have hEvolves := AbstFS.link_evolves hLink
  have hTyped := h.typed_after hEvolves
  rw [AbstFS.kindsWith_none] at hTyped
  exact h.push_one hConsistent hEvolves (hConsistent.entry hTyped hChild) nofun

theorem enterRename {oldname newname : CString} {two : sys.call.hasTwo}
    (hEnter : s.enterRename sys two oldname newname = .ok s') : s'.Coherent kinds := by
  obtain ⟨oldChild, child, v, parent, newChildId, parentOld, _, _, hRename, _, hChild, hOld, rfl⟩ :=
    enterRename_ok hEnter
  have hConsistent := AbstFS.rename_consistent h.volatile hRename
  obtain ⟨hEvolves, hPath⟩ := AbstFS.rename_evolves h.volatile hRename
  have hTyped := h.typed_after hEvolves
  rw [AbstFS.kindsWith_none] at hTyped
  have hFirst : (⟨parent.1, renameChange oldChild.obj parent.2 newChildId⟩ : Delta).Typed kinds
      v.id := by
    cases oldChild.obj <;> exact hConsistent.entry hTyped hChild
  have hType : (renameChange oldChild.obj parent.2 newChildId).type ≠ .add := by
    cases oldChild.obj <;> exact nofun
  have hPush := h.push hConsistent hEvolves
    (p := ⟨sys, some ⟨parent.1, renameChange oldChild.obj parent.2 newChildId⟩,
      some ⟨parentOld.1, .removeEntry parentOld.2 child.1⟩, fun _ => two⟩)
  rw [AbstFS.kindsWith_none] at hPush
  simp only [PendingCall.deltas, Option.toList_some, List.cons_append, List.nil_append,
    List.forall_mem_cons] at hPush
  refine hPush ⟨hFirst, h.parent hEvolves hPath rfl hOld, by simp⟩ ⟨?_, nofun, by simp⟩ ?_
  · exact fun hAdd => absurd hAdd hType
  · simp [Change.type]

end Push

section Records
variable {drv : FsDriver}

theorem restable (hVolatile : s'.volatile = s.volatile) (hStored : s'.stable.Stored)
    (hDeltas : s'.pendingDeltas.Sublist s.pendingDeltas)
    (hObjs : ∀ x o', s'.stable.objs.get? x = some o' → (o'.type = .dir ↔ kinds x = true) ∧
      ((∃ o, s.stable.objs.get? x = some o) ∨
        x < s.volatile.id ∧ ∀ d ∈ s'.pendingDeltas, d.targetId ≠ x)) : s'.Coherent kinds := by
  constructor
  · rw [hVolatile]
    exact h.volatile
  · rw [hVolatile]
    exact h.slashless
  · exact hStored
  · rw [hVolatile]
    exact h.typed
  · exact fun x o' ho' => (hObjs x o' ho').1
  · intro x o' ho'
    rw [hVolatile]
    rcases (hObjs x o' ho').2 with ⟨o, ho⟩ | ⟨hLt, _⟩
    · exact h.below x o ho
    · exact hLt
  · rw [hVolatile]
    exact fun d hd => h.deltas d (hDeltas.subset hd)
  · exact h.once.sublist hDeltas
  · intro d hd id hAdds
    by_contra hSome
    obtain ⟨o', ho'⟩ := Option.ne_none_iff_exists'.mp hSome
    rcases (hObjs id o' ho').2 with ⟨o, ho⟩ | ⟨_, hTargets⟩
    · cases (h.fresh d (hDeltas.subset hd) id hAdds).symm.trans ho
    · exact hTargets d hd (Delta.adds_iff.mp hAdds).1

theorem exitRename {oldname newname : CString}
    (hStable : s.stable.rename oldname newname = .ok s'.stable)
    (hVolatile : s'.volatile = s.volatile) (hDeltas : s'.pendingDeltas.Sublist s.pendingDeltas) :
    s'.Coherent kinds := by
  obtain ⟨old, new, c, fs₁, _, hNew, _, _, hZero, hLinked, hUnlinked⟩ :=
    AbstFS.rename_sets h.stored.keys hStable
  refine h.restable hVolatile ?_ hDeltas ?_
  · refine (h.stored.sets hLinked ?_).sets hUnlinked nofun
    rintro _ ⟨⟩
    exact ⟨AbstFS.findPath_parent_length hNew, hZero⟩
  · intro x o' ho'
    obtain ⟨o₁, h₁, hBare₁⟩ := hUnlinked.within x o' ho'
    obtain ⟨o, ho, hBare⟩ := hLinked.within x o₁ h₁
    rw [Obj.type_of_bare hBare₁, Obj.type_of_bare hBare]
    exact ⟨h.stableTyped x o ho, .inl ⟨o, ho⟩⟩

theorem makeObjStable {path : CString} {id : Nat} {st : AbstFS}
    (hStable : s.makeObjStable path = .ok (id, st)) :
    ∃ o, o.Formed ∧ o.id = id ∧ (o.type = .dir ↔ kinds id = true) ∧ id < s.volatile.id ∧
      ∀ x, st.objs.get? x = if x = id then some o else s.stable.objs.get? x := by
  obtain ⟨found, _, hStable⟩ := bind_eq_ok hStable
  cases found with
  | none => cases hStable
  | some id' =>
    dsimp only at hStable
    split at hStable
    case h_1 => cases hStable
    case h_2 vo hvo =>
    have hId := h.volatile.keys id' vo hvo
    have hLt := h.volatile.below id' vo hvo
    have hFormed := h.volatile.formed id' vo hvo
    have hKind := h.typed id' vo hvo
    split at hStable
    case h_1 o ho =>
      obtain ⟨o', hCopy, hEnd⟩ := bind_eq_ok hStable
      cases hEnd
      obtain ⟨hForm', hId', hType'⟩ := Obj.copy_formed hFormed hCopy
      refine ⟨o', hForm', hId'.trans hId, by rw [hType', hKind], hLt, ?_⟩
      exact AbstFS.get?_update s.stable id o'
    case h_2 hNone =>
      obtain ⟨⟨o', fs'⟩, hClone, hStable⟩ := bind_eq_ok hStable
      obtain ⟨st', hAdd, hEnd⟩ := bind_eq_ok hStable
      cases hEnd
      obtain ⟨copied, hCopy, hEnd⟩ := bind_eq_ok hClone
      cases hEnd
      obtain ⟨_, _, hEnd⟩ := bind_eq_ok hAdd
      cases hEnd
      obtain ⟨hForm', hId', hType'⟩ := Obj.copy_formed hFormed hCopy
      obtain ⟨_, _, _, hObjs, _⟩ := AbstFS.newObj_fresh s.stable vo.type 511
      refine ⟨{ o' with id := id }, hForm', rfl, by rw [← hKind, ← hType']; rfl, hLt, ?_⟩
      intro x
      rw [AbstFS.get?_update, ← hObjs]
      rfl

theorem exitFsync {fd : Nat} (hExit : s.exitFsync drv fd = .ok s') : s'.Coherent kinds := by
  rw [StableFS.exitFsync] at hExit
  split_ifs at hExit
  · cases hExit
    exact h
  · obtain ⟨des, _, hExit⟩ := bind_eq_ok hExit
    obtain ⟨⟨id, st⟩, hStable, hEnd⟩ := bind_eq_ok hExit
    cases hEnd
    obtain ⟨o, hFormed, hId, hKind, hLt, hGet⟩ := h.makeObjStable hStable
    have hCases : ∀ {x o'}, st.objs.get? x = some o' →
        x = id ∧ o' = o ∨ s.stable.objs.get? x = some o' := by
      intro x o' ho'
      rw [hGet] at ho'
      split_ifs at ho' with hx
      · cases ho'
        exact .inl ⟨hx, rfl⟩
      · exact .inr ho'
    refine h.restable rfl ⟨⟨?_, ?_⟩, ?_⟩ ?_ ?_
    · obtain ⟨r, hr, hDir⟩ := h.stored.root
      by_cases hZero : 0 = id
      · refine ⟨o, (hGet 0).trans (if_pos hZero), hKind.mpr ?_⟩
        rw [← hZero]
        exact (h.stableTyped 0 r hr).mp hDir
      · exact ⟨r, (hGet 0).trans ((if_neg hZero).trans hr), hDir⟩
    · intro x o' ho'
      rcases hCases ho' with ⟨rfl, rfl⟩ | hOld
      · exact hId
      · exact h.stored.keys x o' hOld
    · intro x o' ho'
      rcases hCases ho' with ⟨rfl, rfl⟩ | hOld
      · exact hFormed
      · exact h.stored.formed x o' hOld
    · have hSublist : ((withoutTarget s.syscalls id).flatMap PendingCall.deltas).Sublist
          s.pendingDeltas := by
        rw [deltas_withoutTarget]
        exact List.filter_sublist
      exact hSublist
    · intro x o' ho'
      rcases hCases ho' with ⟨rfl, rfl⟩ | hOld
      · refine ⟨hKind, .inr ⟨hLt, fun d hd => ?_⟩⟩
        have hMem : d ∈ (withoutTarget s.syscalls x).flatMap PendingCall.deltas := hd
        rw [deltas_withoutTarget] at hMem
        simpa using (List.mem_filter.mp hMem).2
      · exact ⟨h.stableTyped x o' hOld, .inl ⟨o', hOld⟩⟩

theorem exitSync (hCopyable : s.volatile.Copyable) (hExit : s.exitSync = .ok s') :
    s'.Coherent kinds := by
  obtain ⟨st, hCopy, hEnd⟩ := bind_eq_ok hExit
  obtain ⟨cleared, hClear, _⟩ := bind_eq_ok hCopy
  obtain ⟨st', hCopy', hSame⟩ := AbstFS.copy_same h.volatile hCopyable hClear
  cases hCopy.symm.trans hCopy'
  cases hEnd
  refine h.restable rfl (hSame.stored h.volatile.toStored) (List.nil_sublist _) ?_
  intro x o' ho'
  obtain ⟨o, ho, hView⟩ := hSame.get? ho'
  have hType : o'.type = o.type := by rw [← view_type, hView, view_type]
  rw [hType]
  exact ⟨h.typed x o ho, .inr ⟨(h.volatile.below x o ho), nofun⟩⟩

theorem exitNames {call : AbstFS → FsResult AbstFS}
    (hLast : ∀ p, s.lastCall sys = .ok p → p.sys = sys) (hRename : sys.call.isRename = false)
    (hExit : s.exitNames drv sys call = .ok s') (hCheck : s'.internalCheck = .ok ()) :
    s'.Coherent kinds := by
  rcases exitNames_ok hExit with rfl | ⟨p, st, hp, _, rfl⟩
  · exact h
  · refine absurd hCheck (not_internalCheck (p := p.clearDeltas) ?_ rfl (.inr rfl) ?_)
    · simp [setLast, onSyncOps]
    · exact (congrArg (fun sys => sys.call.isRename) (hLast p hp)).trans hRename

variable [Hashes]

theorem replayEnter (hEnter : s.replayEnter drv sys = .ok s') : ∃ kinds', s'.Coherent kinds' := by
  rw [StableFS.replayEnter] at hEnter
  split_ifs at hEnter with hRet
  · cases hEnter
    exact ⟨kinds, h⟩
  · obtain ⟨lsn, call, ret⟩ := sys
    cases call with
    | openFile filename flags mode =>
      obtain ⟨_, ⟨_, rfl⟩ | ⟨_, _, rfl⟩ | ⟨_, _, v, hCreat, hAdd⟩⟩ := enterOpen_ok hEnter
      · exact ⟨kinds, h⟩
      · exact ⟨kinds, h⟩
      · obtain ⟨hEvolves, hEntry⟩ := AbstFS.creat_evolves h.volatile hCreat
        exact h.enterAdd (AbstFS.creat_consistent h.volatile hCreat) hEvolves hEntry hAdd
    | mkdir pathname mode =>
      obtain ⟨v, hMkdir, hAdd⟩ := bind_eq_ok hEnter
      obtain ⟨hEvolves, hEntry⟩ := AbstFS.mkdir_evolves h.volatile hMkdir
      exact h.enterAdd (AbstFS.mkdir_consistent h.volatile hMkdir) hEvolves hEntry hAdd
    | unlink pathname =>
      exact ⟨kinds, h.enterRemove (fun v hv => ⟨AbstFS.unlink_consistent h.volatile hv,
        AbstFS.unlink_evolves h.volatile hv⟩) hEnter⟩
    | rmdir pathname =>
      exact ⟨kinds, h.enterRemove (fun v hv => ⟨AbstFS.rmdir_consistent h.volatile hv,
        AbstFS.rmdir_evolves h.volatile hv⟩) hEnter⟩
    | ftruncate fd length =>
      exact ⟨kinds, h.enterData (fun path v hv =>
        ⟨AbstFS.apply_consistent h.volatile (show s.volatile.apply
            (.truncate path length) = .ok v from hv),
          AbstFS.onFile_evolves hv⟩) (fun _ => rfl) hEnter⟩
    | pwrite64 fd buf pos =>
      exact ⟨kinds, h.enterData (fun path v hv =>
        ⟨AbstFS.apply_consistent h.volatile (show s.volatile.apply
            (.pwrite path buf pos) = .ok v from hv),
          AbstFS.onFile_evolves hv⟩) (fun _ => rfl) hEnter⟩
    | link oldname newname => exact ⟨kinds, h.enterLink hEnter⟩
    | rename oldname newname => exact ⟨kinds, h.enterRename hEnter⟩
    | close fd =>
      cases hEnter
      exact ⟨kinds, h⟩
    | sync =>
      cases hEnter
      exact ⟨kinds, h⟩
    | fsync fd =>
      cases hEnter
      exact ⟨kinds, h⟩

theorem exitData {fd : Nat} {call : PathCall} (hLast : ∀ p, s.lastCall sys = .ok p → p.sys = sys)
    (hTwo : sys.call.hasTwo = false) (hExit : s.exitData drv sys fd call = .ok s')
    (hCheck : s'.internalCheck = .ok ()) : s'.Coherent kinds := by
  rcases exitData_ok hExit with rfl | ⟨p, q, hp, hq, hSys, hFirst⟩
  · exact h
  · rw [hLast p hp] at hSys
    have hRename : sys.call.isRename = false := by
      cases hCall : sys.call <;> simp_all [Call.hasTwo, Call.isRename]
    refine absurd hCheck (not_internalCheck hq hFirst (.inl ?_) ?_)
    · rw [hSys, hTwo]
    · rw [hSys, hRename]

theorem replayExit
    (hLast : sys.call.changes = true → 0 ≤ sys.ret → ∀ p, s.lastCall sys = .ok p → p.sys = sys)
    (hOpen : ∀ filename flags mode, sys.call = .openFile filename flags mode → 0 ≤ sys.ret → tracked
      drv filename = true → ∃ id, s.volatile.stat filename = .ok (some id))
    (hSync : sys.call = .sync → s.volatile.Copyable) (hExit : s.replayExit drv sys = .ok s')
    (hCheck : s'.internalCheck = .ok ()) : s'.Coherent kinds := by
  obtain ⟨lsn, call, ret⟩ := sys
  rw [StableFS.replayExit] at hExit
  split_ifs at hExit with hFailed
  · cases hExit
    exact h
  · have hRet : call ≠ .sync → 0 ≤ ret :=
      fun hCall => not_lt.mp fun hLt => hFailed ⟨hCall, hLt⟩
    cases call with
    | sync => exact h.exitSync (hSync rfl) hExit
    | fsync fd => exact h.exitFsync hExit
    | close fd =>
      cases hExit
      exact h.congr rfl rfl rfl
    | openFile filename flags mode =>
      have hOpened : s.exitOpen drv
          ⟨lsn, .openFile filename flags mode, ret⟩ filename flags mode = .ok s' := hExit
      rw [exitOpen] at hOpened
      split_ifs at hOpened with _ hTracked
      · obtain ⟨id, hStat⟩ := hOpen filename flags mode rfl (hRet (by simp)) hTracked
        obtain ⟨found, hFound, hEnd⟩ := bind_eq_ok hOpened
        cases hFound.symm.trans hStat
        cases hEnd
        exact h.congr rfl rfl rfl
      · cases hOpened
        exact h
    | rename oldname newname =>
      rcases exitNames_ok hExit with rfl | ⟨p, st, _, hStable, rfl⟩
      · exact h
      · refine h.exitRename hStable rfl ?_
        simp only [pendingDeltas, setLast, onSyncOps, List.flatMap_append, List.flatMap_singleton]
        rw [show p.clearDeltas.deltas = [] from rfl, List.append_nil]
        exact (List.dropLast_sublist s.syscalls).flatMap PendingCall.deltas
    | mkdir _ _ =>
      exact h.exitNames (hLast rfl (hRet (by simp))) rfl hExit hCheck
    | unlink _ =>
      exact h.exitNames (hLast rfl (hRet (by simp))) rfl hExit hCheck
    | rmdir _ =>
      exact h.exitNames (hLast rfl (hRet (by simp))) rfl hExit hCheck
    | link _ _ =>
      exact h.exitNames (hLast rfl (hRet (by simp))) rfl hExit hCheck
    | ftruncate _ _ =>
      exact h.exitData (hLast rfl (hRet (by simp))) rfl hExit hCheck
    | pwrite64 _ _ _ =>
      exact h.exitData (hLast rfl (hRet (by simp))) rfl hExit hCheck

end Records

end Coherent

structure Between (s : StableFS) : Prop where
  ongoing : s.ongoing = none
  coherent : s.internalCheck = .ok () → ∃ kinds, s.Coherent kinds

section Runs
variable {drv : FsDriver} [Hashes]

theorem replay_enter_ok (h : s.replay drv (.enter sys) = .ok s') :
    s.internalCheck = .ok () ∧ ∃ s₁, s.replayEnter drv sys = .ok s₁ ∧
      s' = { s₁ with ongoing := some sys.lsn } := by
  obtain ⟨_, hCheck, h⟩ := bind_eq_ok h
  rw [replaySyscall] at h
  split_ifs at h
  obtain ⟨s₁, hEnter, hEnd⟩ := bind_eq_ok h
  cases hEnd
  exact ⟨hCheck, s₁, hEnter, rfl⟩

theorem replay_exit_ok (h : s.replay drv (.exit sys) = .ok s') :
    s.internalCheck = .ok () ∧ ∃ s₁, s.replayExit drv sys = .ok s₁ ∧
      s' = { s₁ with ongoing := none } := by
  obtain ⟨_, hCheck, h⟩ := bind_eq_ok h
  rw [replaySyscall] at h
  split_ifs at h
  obtain ⟨s₁, hExit, hEnd⟩ := bind_eq_ok h
  cases hEnd
  exact ⟨hCheck, s₁, hExit, rfl⟩

theorem Between.enter (h : s.Between) (hEnter : s.replay drv (.enter sys) = .ok s') :
    ∃ kinds, s'.Coherent kinds := by
  obtain ⟨hCheck, s₁, hFirst, rfl⟩ := replay_enter_ok hEnter
  obtain ⟨kinds, hCoherent⟩ := h.coherent hCheck
  obtain ⟨kinds', hNext⟩ := hCoherent.replayEnter hFirst
  exact ⟨kinds', hNext.congr rfl rfl rfl⟩

theorem lastCall_of_enter {s₁ : StableFS} (hChanges : sys.call.changes = true) (hRet : 0 ≤ sys.ret)
    (hEnter : s.replayEnter drv sys = .ok s₁) {p : PendingCall}
    (hLast : s₁.lastCall sys = .ok p) : p.sys = sys := by
  obtain ⟨op, v, q, _, _, hq, rfl⟩ := replayEnter_change hChanges hRet hEnter
  have hCalls : (s.push v q).syscalls = s.syscalls ++ [q] := rfl
  cases hLast.symm.trans (lastCall_of_syscalls hCalls hq)
  exact hq

theorem stat_of_enter {s₁ : StableFS} {filename : CString} {flags : OpenFlags} {mode : Nat}
    (hCall : sys.call = .openFile filename flags mode) (hRet : 0 ≤ sys.ret)
    (hTracked : tracked drv filename = true) (hEnter : s.replayEnter drv sys = .ok s₁) :
    ∃ id, s₁.volatile.stat filename = .ok (some id) := by
  rw [replayEnter, if_neg (Int.not_lt.mpr hRet)] at hEnter
  obtain ⟨lsn, call, ret⟩ := sys
  cases hCall
  obtain ⟨_, ⟨hNot, _⟩ | ⟨_, hStat, rfl⟩ | ⟨_, _, v, _, hAdd⟩⟩ := enterOpen_ok hEnter
  · cases hNot.symm.trans hTracked
  · exact hStat
  · obtain ⟨nd, parent, childId, hFind, _, _, rfl⟩ := enterAdd_ok hAdd
    exact ⟨nd.1, stat_of_findPath hFind⟩

theorem Between.step (h : s.Between) (hSync : sys.call = .sync → s.volatile.Copyable)
    (hStep : s.replayLogged drv sys = .ok s') : s'.Between := by
  obtain ⟨s₁, hFirst, hSecond⟩ := bind_eq_ok hStep
  obtain ⟨kinds, hCoherent⟩ := h.enter hFirst
  obtain ⟨_, s₂, hExit, rfl⟩ := replay_exit_ok hSecond
  obtain ⟨_, s₃, hEnter, rfl⟩ := replay_enter_ok hFirst
  refine ⟨rfl, fun hCheck => ⟨kinds, ?_⟩⟩
  refine (hCoherent.replayExit ?_ ?_ ?_ hExit hCheck).congr rfl rfl rfl
  · exact fun hChanges hRet p hLast => lastCall_of_enter hChanges hRet hEnter hLast
  · intro filename flags mode hCall hRet hTracked
    obtain ⟨id, hStat⟩ := stat_of_enter hCall hRet hTracked hEnter
    exact ⟨id, hStat⟩
  · intro hCall
    have hSame : s₃ = s := by
      rw [replayEnter] at hEnter
      obtain ⟨lsn, call, ret⟩ := sys
      cases hCall
      split_ifs at hEnter <;> cases hEnter <;> rfl
    rw [hSame]
    exact hSync hCall

end Runs

end StableFS

end Explode.Driver
