import Explode.Driver.CanonOrder

/-!
# What the canonical metadata tell

The bytes of the canonical form are a row of words of a prefix code, one for
each object in reach, in the order of the first visits.
-/

namespace Explode.Driver

open Relation Loop PrefixCode

inductive CanonBody
  | file
  | dir (entries : List (Name × Nat))
  | symLink (path : CString)
  deriving DecidableEq

structure CanonObj where
  number : Nat
  ref : Int
  mode : Nat
  body : CanonBody
  deriving DecidableEq

def Body.canon (idOf : Nat → Nat) : Body → CanonBody
  | .file _ => .file
  | .dir d => .dir (d.entries.entries.map fun e => (e.1, idOf e.2))
  | .symLink path => .symLink path

def Obj.canon (idOf : Nat → Nat) (o : Obj) : CanonObj :=
  ⟨idOf o.id, o.ref, o.mode, o.body.canon idOf⟩

namespace CanonBody

def code : CanonBody → Nat
  | file => 0
  | dir _ => 1
  | symLink _ => 2

def bytes : CanonBody → Bytes
  | file => []
  | dir entries => intBytes entries.length ++ entries.flatMap fun e =>
    (intBytes e.1.length ++ e.1) ++ intBytes e.2
  | symLink path => intBytes path.length ++ path

def Fits : CanonBody → Prop
  | file => True
  | dir entries => entries.length < 2147483648 ∧
    ∀ e ∈ entries, e.1.length < 2147483648 ∧ e.2 < 2147483648
  | symLink path => path.length < 2147483648

end CanonBody

namespace CanonObj

def bytes (c : CanonObj) : Bytes :=
  intBytes c.body.code ++
    (intBytes c.number ++ (intBytes c.ref ++ (intBytes c.mode ++ c.body.bytes)))

structure Fits (c : CanonObj) : Prop where
  number : c.number < 2147483648
  ref : -2147483648 ≤ c.ref ∧ c.ref < 2147483648
  mode : c.mode < 4294967296
  body : c.body.Fits

end CanonObj

theorem marshalObjBytes_eq (idOf : Nat → Nat) (o : Obj) :
    marshalObjBytes .canonMetadata idOf o = (o.canon idOf).bytes := by
  obtain ⟨id, ref, mode, body⟩ := o
  cases body with
  | file f => simp [marshalObjBytes, CanonObj.bytes, Obj.canon, Body.canon, CanonBody.bytes,
      CanonBody.code, marshalBody, Obj.type, Body.type, ObjType.code]
  | dir d =>
    have hEntry : marshalEntry idOf =
        fun e => intBytes e.1.length ++ (e.1 ++ intBytes (idOf e.2)) := by
      funext e
      simp [marshalEntry]
    simp [marshalObjBytes, CanonObj.bytes, Obj.canon, Body.canon, CanonBody.bytes,
      CanonBody.code, marshalBody, Obj.type, Body.type, ObjType.code, hEntry,
      List.flatMap_map, SortedMap.size]
  | symLink path => simp [marshalObjBytes, CanonObj.bytes, Obj.canon, Body.canon, CanonBody.bytes,
      CanonBody.code, marshalBody, Obj.type, Body.type, ObjType.code]

section Codes

theorem entries_code : Code
    (fun l : List (Name × Nat) => l.length < 2147483648 ∧
      ∀ e ∈ l, e.1.length < 2147483648 ∧ e.2 < 2147483648)
    fun l => intBytes l.length ++ l.flatMap fun e => (intBytes e.1.length ++ e.1) ++ intBytes e.2 :=
  natBytes_code.counted (string_code.pair natBytes_code)

theorem body_code (k : Nat) : Code (fun b : CanonBody => b.code = k ∧ b.Fits) CanonBody.bytes := by
  rintro a b r s ⟨rfl, ha⟩ ⟨hCode, hb⟩ hEq
  cases a with
  | file =>
    cases b with
    | file => exact ⟨rfl, hEq⟩
    | dir l => cases hCode
    | symLink path => cases hCode
  | dir l =>
    cases b with
    | file => cases hCode
    | dir m =>
      obtain ⟨rfl, hRest⟩ := entries_code l m r s ha hb hEq
      exact ⟨rfl, hRest⟩
    | symLink path => cases hCode
  | symLink path =>
    cases b with
    | file => cases hCode
    | dir l => cases hCode
    | symLink path' =>
      obtain ⟨rfl, hRest⟩ := string_code path path' r s ha hb hEq
      exact ⟨rfl, hRest⟩

theorem canonObj_code : Code CanonObj.Fits CanonObj.bytes := by
  have hHead := natBytes_code.bind fun k _ => natBytes_code.pair
    (intBytes_code.pair (unsignedBytes_code.pair (body_code k)))
  refine hHead.comap (fun c : CanonObj => (c.body.code, c.number, c.ref, c.mode, c.body)) ?_ ?_
  · rintro ⟨n, r, m, b⟩ ⟨n', r', m', b'⟩ _ _ hEq
    simp only [Prod.mk.injEq] at hEq
    simp only [CanonObj.mk.injEq]
    exact hEq.2
  · rintro c hc
    refine ⟨?_, hc.number, hc.ref, hc.mode, rfl, hc.body⟩
    cases c.body <;> simp [CanonBody.code]

end Codes

def Obj.target (o : Obj) : Option CString :=
  match o.body with
  | .symLink path => some path
  | _ => none

namespace AbstFS

/-- A bijection between the objects in reach that keeps everything but the ids. -/
structure Iso (fs fs' : AbstFS) (f : Nat → Nat) : Prop where
  root : f 0 = 0
  bij : Set.BijOn f {x | fs.Reach x} {x | fs'.Reach x}
  objs : ∀ x o, fs.Reach x → fs.objs.get? x = some o → ∃ o', fs'.objs.get? (f x) = some o' ∧
    o'.type = o.type ∧ o'.ref = o.ref ∧ o'.mode = o.mode ∧ o'.target = o.target ∧
    ∀ name, o'.entries.get? name = (o.entries.get? name).map f

/-- Every number of the metadata form fits in its 32 bits. -/
structure MetaFits (fs : AbstFS) : Prop where
  size : fs.objs.size < 2147483648
  ref : ∀ e ∈ fs.objs.entries, -2147483648 ≤ e.2.ref ∧ e.2.ref < 2147483648
  mode : ∀ e ∈ fs.objs.entries, e.2.mode < 4294967296
  entries : ∀ e ∈ fs.objs.entries, e.2.entries.size < 2147483648 ∧
    ∀ n ∈ e.2.entries.entries, n.1.length < 2147483648
  target : ∀ e ∈ fs.objs.entries, ∀ path ∈ e.2.target, path.length < 2147483648

def canonObjsOf (fs : AbstFS) (seen : List Nat) : List CanonObj :=
  seen.filterMap fun id => (fs.objs.get? id).map (Obj.canon seen.idxOf)

section
variable {fs fs' : AbstFS} {seen seen' : List Nat}

theorem number_eq_some (hNodup : seen.Nodup) {x k : Nat} :
    number seen x = some k ↔ seen[k]? = some x := by
  rw [number]
  constructor
  · intro h
    split_ifs at h with hx
    cases h
    exact List.getElem?_idxOf hx
  · intro h
    have hx := List.mem_of_getElem? h
    obtain ⟨hk, rfl⟩ := List.getElem?_eq_some_iff.mp h
    rw [if_pos hx, hNodup.idxOf_getElem]

theorem marshalObjBytes_congr (purpose : MarshalPurpose) {idOf idOf' : Nat → Nat} {o : Obj}
    (hId : idOf o.id = idOf' o.id) (hEntries : ∀ e ∈ o.entries.entries, idOf e.2 = idOf' e.2) :
    marshalObjBytes purpose idOf o = marshalObjBytes purpose idOf' o := by
  obtain ⟨id, ref, mode, body⟩ := o
  have hBody : marshalBody purpose idOf body = marshalBody purpose idOf' body := by
    cases body with
    | file f => rfl
    | symLink path => rfl
    | dir d =>
      simp only [marshalBody, List.append_cancel_left_eq]
      refine List.flatMap_congr ?_
      intro e he
      rw [marshalEntry, marshalEntry, hEntries e he]
  simp only [marshalObjBytes, hBody]
  rw [show idOf id = idOf' id from hId]

def orderBytes (fs : AbstFS) (purpose : MarshalPurpose) (seen l : List Nat) : Bytes :=
  (l.filterMap fun id => (fs.objs.get? id).map (marshalObjBytes purpose seen.idxOf)).flatten

theorem canonObjs_eq (h : fs.Sound) (hWalked : fs.Walked seen) {idMap : IdMap}
    (hMap : ∀ x, idMap.get? x = (fs.objs.get? x).map fun _ => number seen x)
    (purpose : MarshalPurpose) (l : List Nat) (hl : ∀ x ∈ l, x ∈ seen) :
    fs.canonObjs purpose idMap l = .ok (fs.orderBytes purpose seen l) := by
  have hNumber : ∀ x ∈ seen, idMap.idOf x = some (seen.idxOf x) := by
    intro x hx
    obtain ⟨o, ho, _⟩ := h.get?_of_reach ((hWalked.mem x).mp hx)
    rw [IdMap.idOf, hMap, ho]
    simp [number, hx]
  induction l with
  | nil => rfl
  | cons x rest ih =>
    obtain ⟨hx, hRest⟩ := List.forall_mem_cons.mp hl
    have hReach := (hWalked.mem x).mp hx
    obtain ⟨o, ho, hId⟩ := h.get?_of_reach hReach
    have hEntries : ∀ e ∈ o.entries.entries, e.2 ∈ seen := by
      intro e he
      exact (hWalked.mem e.2).mpr (h.child (hId ▸ ho) (hId ▸ hReach) he).2.choose_spec.2.2
    have hKnown : (idMap.idOf o.id).isSome ∧ ∀ e ∈ o.entries.entries, (idMap.idOf e.2).isSome := by
      refine ⟨?_, fun e he => ?_⟩
      · rw [hId, hNumber x hx]
        rfl
      · rw [hNumber e.2 (hEntries e he)]
        rfl
    have hBytes : marshalObjBytes purpose (fun i => (idMap.idOf i).getD 0) o =
        marshalObjBytes purpose seen.idxOf o := by
      apply marshalObjBytes_congr
      · rw [hId, hNumber x hx]
        rfl
      · intro e he
        rw [hNumber e.2 (hEntries e he)]
        rfl
    rw [canonObjs, ho]
    simp only [marshalObjHelper, if_pos hKnown, hBytes, ih hRest, bind, Except.bind]
    rw [orderBytes, orderBytes, List.filterMap_cons, ho]
    simp

theorem canonHelper_eq (h : fs.Sound) (hCheck : fs.internalCheck = .ok ())
    (purpose : MarshalPurpose) :
    ∃ seen, fs.Walked seen ∧ fs.canonHelper purpose = .ok (fs.orderBytes purpose seen seen) := by
  obtain ⟨idMap, seen, hOrder, hWalked, hMap⟩ := exists_walked h hCheck
  have hPlaces : ∀ x k, idMap.get? x = some (some k) ↔ seen[k]? = some x := by
    intro x k
    rw [hMap, ← number_eq_some hWalked.nodup]
    cases hx : fs.objs.get? x with
    | some o => simp
    | none =>
      have hNot : x ∉ seen := by
        intro hIn
        obtain ⟨o, ho, _⟩ := h.get?_of_reach ((hWalked.mem x).mp hIn)
        cases hx.symm.trans ho
      simp [number, hNot]
  have hSome : seen ≠ [] := by
    rintro rfl
    cases hWalked.first.length_le
  have hVector := idMapToOrder_eq hWalked.nodup hSome hPlaces
  refine ⟨seen, hWalked, ?_⟩
  simp only [canonHelper, hCheck, hOrder, hVector, bind, Except.bind]
  exact canonObjs_eq h hWalked hMap purpose seen fun x hx => hx

theorem orderBytes_canonMetadata (fs : AbstFS) (seen : List Nat) :
    fs.orderBytes .canonMetadata seen seen = (fs.canonObjsOf seen).flatMap CanonObj.bytes := by
  rw [orderBytes, canonObjsOf, List.flatMap_def, List.map_filterMap]
  simp only [Option.map_map]
  congr 2
  funext id
  congr 1
  funext o
  exact marshalObjBytes_eq seen.idxOf o

theorem canonMetadata_cases (h : fs.Sound) : fs.canonMetadata = .error .tooDeep ∨
    ∃ seen, fs.Walked seen ∧
      fs.canonMetadata = .ok ((fs.canonObjsOf seen).flatMap CanonObj.bytes) := by
  simp only [← orderBytes_canonMetadata]
  rw [canonMetadata]
  rcases internalCheck_cases h.keys h.acyclic with hOk | hError
  · exact .inr (canonHelper_eq h hOk .canonMetadata)
  · left
    simp only [canonHelper, hError, bind, Except.bind]

theorem idxOf_map_of_injOn {f : Nat → Nat} {l : List Nat} {x : Nat}
    (hf : ∀ y ∈ l, f y = f x → y = x) : (l.map f).idxOf (f x) = l.idxOf x := by
  induction l with
  | nil => rfl
  | cons y rest ih =>
    obtain ⟨hy, hRest⟩ := List.forall_mem_cons.mp hf
    rw [List.map_cons, List.idxOf_cons, List.idxOf_cons, ih hRest]
    by_cases hEq : y = x
    · simp [hEq]
    · have hNe : f y ≠ f x := fun h => hEq (hy h)
      rw [beq_false_of_ne hEq, beq_false_of_ne hNe]

section Iso
variable {f : Nat → Nat}

theorem entries_eq_map {o o' : Obj}
    (hEntries : ∀ name, o'.entries.get? name = (o.entries.get? name).map f) :
    o'.entries.entries = o.entries.entries.map fun e => (e.1, f e.2) := by
  have hMap : o'.entries = o.entries.mapVal f := by
    apply SortedMap.ext_get?
    intro name
    rw [hEntries, SortedMap.get?_mapVal]
  rw [hMap]
  rfl

theorem map_note {t : List Nat} {id : Nat} (hf : ∀ y ∈ t, f y = f id → y = id) :
    note (t.map f) (f id) = (note t id).map f := by
  rw [note, note]
  by_cases hMem : id ∈ t
  · rw [if_pos hMem, if_pos (List.mem_map_of_mem hMem)]
  · have hNot : f id ∉ t.map f := by
      intro hIn
      obtain ⟨y, hy, hEq⟩ := List.mem_map.mp hIn
      exact hMem (hf y hy hEq ▸ hy)
    rw [if_neg hMem, if_neg hNot]
    simp

structure Paired (fs fs' : AbstFS) (f : Nat → Nat) (o o' : Obj) : Prop where
  get : fs.objs.get? o.id = some o
  reach : fs.Reach o.id
  id : o'.id = f o.id
  entries : ∀ name, o'.entries.get? name = (o.entries.get? name).map f

theorem canon_body_eq {o o' : Obj} (hType : o'.type = o.type) (hTarget : o'.target = o.target)
    {idOf idOf' : Nat → Nat}
    (hEntries : o'.entries.entries.map (fun e => (e.1, idOf' e.2)) =
      o.entries.entries.map fun e => (e.1, idOf e.2)) :
    o'.body.canon idOf' = o.body.canon idOf := by
  obtain ⟨id, ref, mode, body⟩ := o
  obtain ⟨id', ref', mode', body'⟩ := o'
  cases body with
  | file f =>
    cases body' with
    | file f' => rfl
    | dir d' => cases hType
    | symLink path' => cases hType
  | dir d =>
    cases body' with
    | file f' => cases hType
    | dir d' => exact congrArg CanonBody.dir hEntries
    | symLink path' => cases hType
  | symLink path =>
    cases body' with
    | file f' => cases hType
    | dir d' => cases hType
    | symLink path' => exact congrArg CanonBody.symLink (Option.some.inj hTarget)

section
variable (h : fs.Sound) (h' : fs'.Sound) (hIso : fs.Iso fs' f)
include h h' hIso

theorem Iso.paired {x : Nat} (hx : fs.Reach x) :
    ∃ o o', fs.objs.get? x = some o ∧ fs'.objs.get? (f x) = some o' ∧
      fs.Paired fs' f o o' := by
  obtain ⟨o, ho, hId⟩ := h.get?_of_reach hx
  obtain ⟨o', ho', _, _, _, _, hEntries⟩ := hIso.objs x o hx ho
  refine ⟨o, o', ho, ho', hId ▸ ho, hId ▸ hx, ?_, hEntries⟩
  rw [hId]
  exact h'.keys (f x) o' ho'

theorem Iso.kids (o o' : Obj) (hPaired : fs.Paired fs' f o o') :
    List.Forall₂ (fun e e' => ∃ c c', fs.objs.get? e.2 = some c ∧ fs'.objs.get? e'.2 = some c' ∧
      fs.Paired fs' f c c') o.entries.entries o'.entries.entries := by
  rw [entries_eq_map hPaired.entries, List.forall₂_map_right_iff, List.forall₂_same]
  intro e he
  exact hIso.paired h h' (h.child hPaired.get hPaired.reach he).2.choose_spec.2.2

theorem Iso.walks :
    Related (SameStep fun t t' => t' = t.map f ∧ ∀ x ∈ t, fs.Reach x) (fs.dfs firstVisits [])
      (fs'.dfs firstVisits []) := by
  have hPre : ∀ (p : Option Obj) (n : Option Name) (p' : Option Obj) (n' : Option Name)
      (o o' : Obj) (t t' : List Nat), fs.Paired fs' f o o' →
      (t' = t.map f ∧ ∀ x ∈ t, fs.Reach x) →
      SameStep (fun t t' => t' = t.map f ∧ ∀ x ∈ t, fs.Reach x)
        (firstVisits.preVisit p n (some o) t) (firstVisits.preVisit p' n' (some o') t') := by
    rintro p n p' n' o o' t _ hPaired ⟨rfl, ht⟩
    refine ⟨rfl, ?_, ?_⟩
    · change note (t.map f) o'.id = (note t o.id).map f
      rw [hPaired.id]
      exact map_note fun y hy hEq => hIso.bij.injOn (ht y hy) hPaired.reach hEq
    · intro x hx
      rcases mem_note.mp hx with hx | rfl
      · exact ht x hx
      · exact hPaired.reach
  have hPost : ∀ (p : Option Obj) (n : Option Name) (p' : Option Obj) (n' : Option Name)
      (o o' : Obj) (t t' : List Nat), fs.Paired fs' f o o' →
      (t' = t.map f ∧ ∀ x ∈ t, fs.Reach x) →
      (firstVisits.postVisit p' n' (some o') t').2 =
          ((firstVisits.postVisit p n (some o) t).2).map f ∧
        ∀ x ∈ (firstVisits.postVisit p n (some o) t).2, fs.Reach x :=
    fun _ _ _ _ _ _ _ _ _ ht => ht
  obtain ⟨r, r', hr, hr', hPaired⟩ := hIso.paired h h' (x := 0) .refl
  rw [hIso.root] at hr'
  rw [dfs, dfs, hr, hr']
  exact dfsAt_related hPre hPost (hIso.kids h h') maxDepth none none none none hPaired
    ⟨rfl, List.forall_mem_nil _⟩

theorem Iso.walked (hWalked : fs.Walked seen) (hWalked' : fs'.Walked seen') :
    seen' = seen.map f := by
  have hWalks := hIso.walks h h'
  rw [hWalked.walk, hWalked'.walk] at hWalks
  exact hWalks.2.1

theorem Iso.canonObjsOf_eq (hWalked : fs.Walked seen) :
    fs'.canonObjsOf (seen.map f) = fs.canonObjsOf seen := by
  have hNumber : ∀ x ∈ seen, (seen.map f).idxOf (f x) = seen.idxOf x := by
    intro x hx
    apply idxOf_map_of_injOn
    intro y hy hEq
    exact hIso.bij.injOn ((hWalked.mem y).mp hy) ((hWalked.mem x).mp hx) hEq
  rw [canonObjsOf, canonObjsOf, List.filterMap_map]
  apply List.filterMap_congr
  intro x hx
  have hReach := (hWalked.mem x).mp hx
  obtain ⟨o, ho, hId⟩ := h.get?_of_reach hReach
  obtain ⟨o', ho', hType, hRef, hMode, hTarget, hEntries⟩ := hIso.objs x o hReach ho
  simp only [Function.comp, ho, ho', Option.map_some, Option.some.injEq]
  rw [Obj.canon, Obj.canon, h'.keys (f x) o' ho', hId, hNumber x hx, hRef, hMode]
  congr 1
  apply canon_body_eq hType hTarget
  rw [entries_eq_map hEntries, List.map_map]
  apply List.map_congr_left
  intro e he
  have hChild := (hWalked.mem e.2).mpr (h.child (hId ▸ ho) (hId ▸ hReach) he).2.choose_spec.2.2
  simp only [Function.comp, hNumber e.2 hChild]

end

theorem of_canon_body_eq {o o' : Obj} {idOf idOf' : Nat → Nat}
    (hEq : o'.body.canon idOf' = o.body.canon idOf) :
    o'.type = o.type ∧ o'.target = o.target ∧
      ∀ name, (o'.entries.get? name).map idOf' = (o.entries.get? name).map idOf := by
  obtain ⟨id, ref, mode, body⟩ := o
  obtain ⟨id', ref', mode', body'⟩ := o'
  cases body with
  | file f =>
    cases body' with
    | file f' => exact ⟨rfl, rfl, fun _ => rfl⟩
    | dir d' => cases hEq
    | symLink path' => cases hEq
  | dir d =>
    cases body' with
    | file f' => cases hEq
    | dir d' =>
      refine ⟨rfl, rfl, fun name => ?_⟩
      have hMaps : d'.entries.mapVal idOf' = d.entries.mapVal idOf := by
        rw [SortedMap.mk.injEq]
        exact CanonBody.dir.inj hEq
      change (d'.entries.get? name).map idOf' = (d.entries.get? name).map idOf
      rw [← SortedMap.get?_mapVal, hMaps, SortedMap.get?_mapVal]
    | symLink path' => cases hEq
  | symLink path =>
    cases body' with
    | file f' => cases hEq
    | dir d' => cases hEq
    | symLink path' => exact ⟨rfl, congrArg some (CanonBody.symLink.inj hEq), fun _ => rfl⟩

theorem getElem?_canonObjsOf (h : fs.Sound) (hWalked : fs.Walked seen) (k : Nat) :
    (fs.canonObjsOf seen)[k]? =
      (seen[k]?.bind fs.objs.get?).map (Obj.canon seen.idxOf) := by
  obtain ⟨g, hg⟩ : ∃ g : Nat → CanonObj, ∀ x ∈ seen,
      (fs.objs.get? x).map (Obj.canon seen.idxOf) = some (g x) := by
    refine ⟨fun x => ((fs.objs.get? x).map (Obj.canon seen.idxOf)).getD ⟨0, 0, 0, .file⟩, ?_⟩
    intro x hx
    obtain ⟨o, ho, _⟩ := h.get?_of_reach ((hWalked.mem x).mp hx)
    simp [ho]
  have hMap : fs.canonObjsOf seen = seen.map g := by
    rw [canonObjsOf, List.filterMap_congr hg, List.filterMap_eq_map']
  rw [hMap, List.getElem?_map]
  cases hx : seen[k]? with
  | none => rfl
  | some x => rw [Option.map_some, Option.bind_some, hg x (List.mem_of_getElem? hx)]

theorem exists_same_number (h : fs.Sound) (h' : fs'.Sound) (hWalked : fs.Walked seen)
    (hWalked' : fs'.Walked seen') (hEq : fs.canonObjsOf seen = fs'.canonObjsOf seen') {x : Nat}
    (hx : x ∈ seen) : ∃ y o o', seen'[seen.idxOf x]? = some y ∧ fs.objs.get? x = some o ∧
      fs'.objs.get? y = some o' ∧ o'.canon seen'.idxOf = o.canon seen.idxOf := by
  obtain ⟨o, ho, _⟩ := h.get?_of_reach ((hWalked.mem x).mp hx)
  have hAt := getElem?_canonObjsOf h hWalked (seen.idxOf x)
  rw [List.getElem?_idxOf hx, Option.bind_some, ho, hEq, getElem?_canonObjsOf h' hWalked',
    Option.map_some, Option.map_eq_some_iff] at hAt
  obtain ⟨o', ho', hCanon⟩ := hAt
  obtain ⟨y, hy, hGet⟩ := Option.bind_eq_some_iff.mp ho'
  exact ⟨y, o, o', hy, ho, hGet, hCanon⟩

theorem idxOf_of_getElem? (hNodup : seen.Nodup) {k x : Nat} (hx : seen[k]? = some x) :
    seen.idxOf x = k := by
  have hNumber := (number_eq_some hNodup).mpr hx
  rw [number, if_pos (List.mem_of_getElem? hx)] at hNumber
  exact Option.some.inj hNumber

theorem exists_iso (h : fs.Sound) (h' : fs'.Sound) (hWalked : fs.Walked seen)
    (hWalked' : fs'.Walked seen') (hEq : fs.canonObjsOf seen = fs'.canonObjsOf seen') :
    ∃ f, fs.Iso fs' f := by
  obtain ⟨f, hf⟩ : ∃ f : Nat → Nat, ∀ x ∈ seen, seen'[seen.idxOf x]? = some (f x) := by
    refine ⟨fun x => (seen'[seen.idxOf x]?).getD 0, fun x hx => ?_⟩
    obtain ⟨y, _, _, hy, _⟩ := exists_same_number h h' hWalked hWalked' hEq hx
    simp [hy]
  have hNumber : ∀ x ∈ seen, seen'.idxOf (f x) = seen.idxOf x :=
    fun x hx => idxOf_of_getElem? hWalked'.nodup (hf x hx)
  have hMaps : ∀ x ∈ seen, f x ∈ seen' := fun x hx => List.mem_of_getElem? (hf x hx)
  refine ⟨f, ?_, ⟨?_, ?_, ?_⟩, ?_⟩
  · obtain ⟨rest, rfl⟩ := hWalked.first
    obtain ⟨rest', rfl⟩ := hWalked'.first
    have hZero := hf 0 (by simp)
    simpa using hZero.symm
  · intro x hx
    exact (hWalked'.mem _).mp (hMaps x ((hWalked.mem x).mpr hx))
  · intro x hx y hy hSame
    have hx := (hWalked.mem x).mpr hx
    have hy := (hWalked.mem y).mpr hy
    exact (List.idxOf_inj hx).mp (by rw [← hNumber x hx, ← hNumber y hy, hSame])
  · intro y hy
    have hy := (hWalked'.mem y).mpr hy
    obtain ⟨x, _, _, hx, _⟩ := exists_same_number h' h hWalked' hWalked hEq.symm hy
    have hMem := List.mem_of_getElem? hx
    refine ⟨x, (hWalked.mem x).mp hMem, ?_⟩
    have hfx := hf x hMem
    rw [idxOf_of_getElem? hWalked.nodup hx, List.getElem?_idxOf hy] at hfx
    exact (Option.some.inj hfx).symm
  · intro x o hReach ho
    have hx := (hWalked.mem x).mpr hReach
    obtain ⟨y, o₁, o', hy, ho₁, ho', hCanon⟩ := exists_same_number h h' hWalked hWalked' hEq hx
    cases ho.symm.trans ho₁
    cases (hf x hx).symm.trans hy
    obtain ⟨_, hRef, hMode, hBody⟩ := CanonObj.mk.inj hCanon
    obtain ⟨hType, hTarget, hEntries⟩ := of_canon_body_eq hBody
    refine ⟨o', ho', hType, hRef, hMode, hTarget, fun name => ?_⟩
    have hNames := hEntries name
    cases hc : o.entries.get? name with
    | none =>
      rw [hc] at hNames
      exact Option.map_eq_none_iff.mp hNames
    | some c =>
      rw [hc, Option.map_some, Option.map_eq_some_iff] at hNames
      obtain ⟨c', hc', hSame⟩ := hNames
      have hcSeen : c ∈ seen := (hWalked.mem c).mpr (hReach.tail ⟨o, name, ho, hc⟩)
      have hcSeen' : c' ∈ seen' := (hWalked'.mem c').mpr
        (((hWalked'.mem _).mp (hMaps x hx)).tail ⟨o', name, ho', hc'⟩)
      have hfc := hf c hcSeen
      rw [← hSame, List.getElem?_idxOf hcSeen'] at hfc
      rw [hc', Option.map_some, Option.some.inj hfc]

end Iso

theorem canonObjsOf_fits (h : fs.Sound) (hFits : fs.MetaFits) (hWalked : fs.Walked seen) :
    ∀ c ∈ fs.canonObjsOf seen, c.Fits := by
  have hLength : seen.length ≤ fs.objs.size := by
    have hSub : seen ⊆ fs.objs.entries.map Prod.fst := by
      intro x hx
      obtain ⟨o, ho, _⟩ := h.get?_of_reach ((hWalked.mem x).mp hx)
      exact List.mem_map.mpr ⟨(x, o), SortedMap.get?_eq_some.mp ho, rfl⟩
    have := (hWalked.nodup.subperm hSub).length_le
    rwa [List.length_map] at this
  have hNumber : ∀ x ∈ seen, seen.idxOf x < 2147483648 := fun x hx =>
    (List.idxOf_lt_length_of_mem hx).trans_le (hLength.trans hFits.size.le)
  intro c hc
  obtain ⟨x, hx, hCanon⟩ := List.mem_filterMap.mp hc
  have hReach := (hWalked.mem x).mp hx
  obtain ⟨o, ho, rfl⟩ := Option.map_eq_some_iff.mp hCanon
  have hId := h.keys x o ho
  have hMem := SortedMap.get?_eq_some.mp ho
  refine ⟨?_, hFits.ref _ hMem, hFits.mode _ hMem, ?_⟩
  · change seen.idxOf o.id < 2147483648
    rw [hId]
    exact hNumber x hx
  · have hEntries := hFits.entries _ hMem
    have hTarget := hFits.target _ hMem
    have hKids : ∀ e ∈ o.entries.entries, e.2 ∈ seen := fun e he => (hWalked.mem e.2).mpr
      (h.child (hId ▸ ho) (hId ▸ hReach) he).2.choose_spec.2.2
    simp only at hEntries hTarget
    clear hc hCanon hMem ho hId
    obtain ⟨id, ref, mode, body⟩ := o
    cases body with
    | file f => trivial
    | symLink path => exact hTarget path rfl
    | dir d =>
      refine ⟨?_, ?_⟩
      · rw [List.length_map]
        exact hEntries.1
      · intro e he
        obtain ⟨n, hn, rfl⟩ := List.mem_map.mp he
        exact ⟨hEntries.2 n hn, hNumber n.2 (hKids n hn)⟩

/-- The canonical metadata decide isomorphism. A file system has none only when a walk over it is
too deep. -/
theorem canonMetadata_eq_iff_iso (h : fs.Sound) (h' : fs'.Sound) (hFits : fs.MetaFits)
    (hFits' : fs'.MetaFits) :
    Returns
      (fun bytes => Returns (fun bytes' => bytes = bytes' ↔ ∃ f, fs.Iso fs' f)
        (fun e => e = .tooDeep) fs'.canonMetadata)
      (fun e => e = .tooDeep) fs.canonMetadata := by
  rcases canonMetadata_cases h with hDeep | ⟨seen, hWalked, hBytes⟩
  · rw [hDeep]
    rfl
  rw [hBytes]
  rcases canonMetadata_cases h' with hDeep | ⟨seen', hWalked', hBytes'⟩
  · rw [hDeep]
    rfl
  rw [hBytes']
  constructor
  · intro hEq
    have hNonempty : ∀ c : CanonObj, c.Fits → c.bytes ≠ [] := by
      intro c _ hNil
      have := congrArg List.length hNil
      simp [CanonObj.bytes, length_intBytes] at this
    have hObjs := canonObj_code.flatMap_inj hNonempty (canonObjsOf_fits h hFits hWalked)
      (canonObjsOf_fits h' hFits' hWalked') hEq
    exact exists_iso h h' hWalked hWalked' hObjs
  · rintro ⟨f, hIso⟩
    rw [hIso.walked h h' hWalked hWalked', hIso.canonObjsOf_eq h h' hWalked]

theorem WellFormed.sound (h : fs.WellFormed) : fs.Sound where
  toKeyed := h.toKeyed
  named p c _ hChild := h.named p c hChild
  acyclic id _ := h.acyclic id

end

attribute [local instance] sampleHashes

/-- A file made first, and the same file made after a directory that is gone again. -/
theorem canonMetadata_eq_iff_iso_order :
    ∃ fs fs', emptyFS.run [.creat [47, 97] 420] = .ok fs ∧
      emptyFS.run [.mkdir [47, 98] 493, .creat [47, 97] 420, .rmdir [47, 98]] = .ok fs' ∧
      Returns
        (fun bytes => Returns (fun bytes' => bytes = bytes' ↔ ∃ f, fs.Iso fs' f)
          (fun e => e = .tooDeep) fs'.canonMetadata)
        (fun e => e = .tooDeep) fs.canonMetadata := by
  have hRun : emptyFS.run [.creat [47, 97] 420] = .ok _ := rfl
  have hRun' : emptyFS.run
      [.mkdir [47, 98] 493, .creat [47, 97] 420, .rmdir [47, 98]] = .ok _ := rfl
  have hFormed := (init_wellFormed [] zeroMemory).run
    [.creat [47, 97] 420] ⟨⟨0, [97], _, rfl, rfl, rfl, rfl⟩, trivial⟩
  have hFormed' := (init_wellFormed [] zeroMemory).run
    [.mkdir [47, 98] 493, .creat [47, 97] 420, .rmdir [47, 98]]
    ⟨⟨0, [98], _, rfl, rfl, rfl, rfl⟩, ⟨0, [97], _, rfl, rfl, rfl, rfl⟩,
      ⟨1, _, ⟨0, [98], _, rfl, rfl, rfl, rfl, rfl⟩, rfl, rfl⟩, trivial⟩
  rw [hRun] at hFormed
  rw [hRun'] at hFormed'
  refine ⟨_, _, hRun, hRun', canonMetadata_eq_iff_iso (WellFormed.sound hFormed)
    (WellFormed.sound hFormed') ?_ ?_⟩
  · constructor <;> decide +kernel
  · constructor <;> decide +kernel

end AbstFS

end Explode.Driver
