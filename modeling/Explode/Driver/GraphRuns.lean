import Explode.Driver.Circles

/-!
# The object graph over runs

The calls, used as the test driver uses them, keep the graph in order. A call
can still end the program when a path of the graph is too long for the search
for circles, or inside the file data.
-/

namespace Explode.Driver

open Relation RootedGraph Loop

namespace AbstFS

def Recounts (fs fs' : AbstFS) (d : Nat → Int) : Prop :=
  ∀ x o', fs'.objs.get? x = some o' →
    ∃ o, fs.objs.get? x = some o ∧ o'.type = o.type ∧ o'.ref = o.ref + d x

/-- What a call may fail with in spite of a proper use. -/
def Excused (e : FsFailure) : Prop := e = .tooDeep ∨ ∃ f, e = .data f

section Steps
variable {fs : AbstFS} {loose : Nat → Prop} {p c : Nat} {o oc : Obj} {name : Name}

theorem Recounts.trans {fs₁ fs₂ : AbstFS} {d d' : Nat → Int} (h : fs.Recounts fs₁ d)
    (h' : fs₁.Recounts fs₂ d') : fs.Recounts fs₂ fun x => d x + d' x := by
  intro x o₂ h₂
  obtain ⟨o₁, h₁, hType₁, hRef₁⟩ := h' x o₂ h₂
  obtain ⟨o, ho, hType, hRef⟩ := h x o₁ h₁
  exact ⟨o, ho, hType₁.trans hType, by rw [hRef₁, hRef, add_assoc]⟩

theorem Recounts.congr {fs' : AbstFS} {d d' : Nat → Int} (h : fs.Recounts fs' d)
    (hEq : ∀ x, d x = d' x) : fs.Recounts fs' d' := by
  intro x o' h'
  rw [← hEq]
  exact h x o' h'

theorem recounts_update {o' : Obj} (hGet : fs.objs.get? p = some o) (hType : o'.type = o.type) :
    fs.Recounts (fs.update p o') fun x => if x = p then o'.ref - o.ref else 0 := by
  intro x o₁ h₁
  rcases get?_update_cases h₁ with ⟨rfl, rfl⟩ | ⟨hNe, h₁⟩
  · exact ⟨o, hGet, hType, by simp⟩
  · exact ⟨o₁, h₁, rfl, by simp [hNe]⟩

theorem recounts_relink (hGet : fs.objs.get? p = some o) (entries : SortedMap Name Nat) (n : Int) :
    fs.Recounts ((fs.update p (o.setEntries entries)).countRef c n)
      fun x => if x = c then n else 0 := by
  have hUpdate := recounts_update hGet (@Obj.type_setEntries o entries)
  simp only [Obj.ref_setEntries, sub_self, ite_self] at hUpdate
  cases hc : (fs.update p (o.setEntries entries)).objs.get? c with
  | none =>
    rw [countRef_none hc]
    intro x o₁ h₁
    obtain ⟨o₂, h₂, hType, hRef⟩ := hUpdate x o₁ h₁
    have hNe : x ≠ c := by
      rintro rfl
      cases hc.symm.trans h₁
    exact ⟨o₂, h₂, hType, by simp [hRef, hNe]⟩
  | some oc =>
    rw [countRef_some hc]
    refine (hUpdate.trans (recounts_update hc ?_)).congr fun x => ?_
    · rfl
    · simp

def Keeps (fs fs' : AbstFS) : Prop :=
  ∀ x o, fs.objs.get? x = some o → ∃ o', fs'.objs.get? x = some o' ∧ o'.type = o.type ∧
    ∀ n y, o.entries.get? n = some y → o'.entries.get? n = some y

theorem keeps_update {o' : Obj} (hGet : fs.objs.get? p = some o) (hType : o'.type = o.type)
    (hKeep : ∀ n y, o.entries.get? n = some y → o'.entries.get? n = some y) :
    fs.Keeps (fs.update p o') := by
  intro x o₁ h₁
  rw [get?_update]
  split_ifs with hEq
  · subst hEq
    cases hGet.symm.trans h₁
    exact ⟨o', rfl, hType, hKeep⟩
  · exact ⟨o₁, h₁, rfl, fun _ _ h => h⟩

theorem keeps_countRef (fs : AbstFS) (c : Nat) (n : Int) : fs.Keeps (fs.countRef c n) := by
  cases hc : fs.objs.get? c with
  | none =>
    rw [countRef_none hc]
    exact fun x o ho => ⟨o, ho, rfl, fun _ _ h => h⟩
  | some oc =>
    rw [countRef_some hc]
    exact keeps_update hc rfl fun _ _ h => h

theorem Keeps.trans {fs₁ fs₂ : AbstFS} (h : fs.Keeps fs₁) (h' : fs₁.Keeps fs₂) : fs.Keeps fs₂ := by
  intro x o ho
  obtain ⟨o₁, h₁, hType₁, hKeep₁⟩ := h x o ho
  obtain ⟨o₂, h₂, hType₂, hKeep₂⟩ := h' x o₁ h₁
  exact ⟨o₂, h₂, hType₂.trans hType₁, fun n y hn => hKeep₂ n y (hKeep₁ n y hn)⟩

theorem Graph.countRef {extra extra' : Nat → Int} (h : fs.Graph loose extra) (n : Int)
    (hCount : ∀ x, extra x = extra' x + if x = c then n else 0) :
    (fs.countRef c n).Graph loose extra' := by
  have hExtra : ∀ x, x ≠ c → extra' x = extra x := by
    intro x hx
    rw [hCount, if_neg hx, add_zero]
  cases hc : fs.objs.get? c with
  | none =>
    rw [countRef_none hc]
    refine { h with ref := fun x o₁ h₁ hx => ?_ }
    rw [hExtra, h.ref x o₁ h₁ hx]
    rintro rfl
    cases hc.symm.trans h₁
  | some oc =>
    rw [countRef_some hc]
    refine h.update_same hc ?_ ?_ ?_ ?_ hExtra
    · rfl
    · rfl
    · rfl
    · change oc.ref + n + extra' c = oc.ref + extra c
      rw [hCount, if_pos rfl]
      omega

theorem linkObj_graph (h : fs.Graph loose fun _ => 0) (hGet : fs.objs.get? p = some o)
    (hDir : o.type = .dir) (hNew : o.entries.get? name = none) (hc : fs.objs.get? c = some oc)
    (hRoot : c ≠ 0) (hNot : ¬ReflTransGen fs.Child c p) (hp : ¬loose p) :
    ∃ fs', fs.linkObj p c name = .ok fs' ∧ fs'.Graph (fun x => loose x ∧ x ≠ c) (fun _ => 0) ∧
      fs.Recounts fs' (fun x => if x = c then 1 else 0) ∧ fs.Keeps fs' := by
  have hEntries := entries_setEntries hDir (o.entries.insert name c)
  have hGraph := h.addEntry hGet hNew ⟨oc, hc⟩ hNot hp hEntries Obj.type_setEntries
    Obj.id_setEntries Obj.ref_setEntries
  refine ⟨_, linkObj_eq hGet hDir hNew hRoot, hGraph.countRef 1 fun _ => rfl,
    recounts_relink hGet _ 1, (keeps_update hGet Obj.type_setEntries ?_).trans
      (keeps_countRef _ c 1)⟩
  intro n y hn
  rw [hEntries, SortedMap.get?_insert_of_ne, hn]
  rintro rfl
  cases hNew.symm.trans hn

theorem Graph.child_ne_zero {extra : Nat → Int} (h : fs.Graph loose extra) (hp : ¬loose p)
    (hEdge : fs.Child p c) : c ≠ 0 := by
  rintro rfl
  have ⟨o, _, hGet, _⟩ := hEdge
  exact h.acyclic 0 (TransGen.tail' (h.reachable p o hGet hp) hEdge)

theorem Graph.child_ne {extra : Nat → Int} (h : fs.Graph loose extra) (hEdge : fs.Child p c) :
    c ≠ p := by
  rintro rfl
  exact h.acyclic c (.single hEdge)

theorem Graph.mono {loose' : Nat → Prop} {extra : Nat → Int} (h : fs.Graph loose extra)
    (hLoose : ∀ x, loose x → loose' x) : fs.Graph loose' extra :=
  { h with reachable := fun x o hGet hx => h.reachable x o hGet fun hl => hx (hLoose x hl) }

theorem unlinkObj_graph (h : fs.Graph (fun _ => False) fun _ => 0)
    (hGet : fs.objs.get? p = some o) (hDir : o.type = .dir) (hOld : o.entries.get? name = some c)
    (hLeaf : ∀ oc, fs.objs.get? c = some oc → oc.ref = 1 → oc.entries = .empty) :
    Returns (fun fs' => fs'.Graph (fun _ => False) (fun _ => 0) ∧
      fs.Recounts fs' fun x => if x = c then -1 else 0) Excused (fs.unlinkObj p name) := by
  have hEdge : fs.Child p c := ⟨o, name, hGet, hOld⟩
  have hRoot : c ≠ 0 := h.child_ne_zero not_false hEdge
  have hNe : c ≠ p := h.child_ne hEdge
  obtain ⟨oc, hc⟩ := h.named p c hEdge
  obtain ⟨mid, hMid⟩ : ∃ mid, mid = fs.update p (o.setEntries (o.entries.erase name)) := ⟨_, rfl⟩
  have hcMid : mid.objs.get? c = some oc := by rw [hMid, get?_update, if_neg hNe, hc]
  have hGraph : mid.Graph (fun x => mid.links c = 0 ∧ ReflTransGen fs.Child c x)
      fun x => if x = c then -1 else 0 := by
    rw [hMid]
    exact h.rmEntry hGet hOld (entries_setEntries hDir _) Obj.type_setEntries Obj.id_setEntries
      Obj.ref_setEntries
  have hCounted : (mid.countRef c (-1)).Graph _ fun _ => 0 := hGraph.countRef (-1) (by simp)
  have hRecounts := recounts_relink (c := c) hGet (o.entries.erase name) (-1)
  rw [← hMid] at hRecounts
  have hcLast : (mid.countRef c (-1)).objs.get? c = some { oc with ref := oc.ref + -1 } := by
    rw [countRef_some hcMid, get?_update, if_pos rfl]
  have hRef := hGraph.ref c oc hcMid hRoot
  rw [if_pos rfl] at hRef
  rw [unlinkObj_eq hGet hOld (congrArg (countRef · c (-1)) hMid), hcLast]
  dsimp only
  split_ifs with hZero
  · -- the last entry for the object is gone
    have hEmpty : Obj.entries { oc with ref := oc.ref + -1 } = .empty := hLeaf oc hc (by omega)
    have hLinks : oc.ref + -1 + 0 = (mid.countRef c (-1)).links c := hCounted.ref c _ hcLast hRoot
    have hId : oc.id = c := h.keys c oc hc
    rw [deleteObj, if_pos (SortedMap.entries_isEmpty.mpr hEmpty)]
    cases hDestroy : destroy { oc with ref := oc.ref + -1 } with
    | error e =>
      refine .inr ?_
      unfold destroy at hDestroy
      split at hDestroy
      · split at hDestroy
        · cases hDestroy
        · cases hDestroy
          exact ⟨_, rfl⟩
      · cases hDestroy
    | ok =>
      constructor
      · refine hId ▸ hCounted.eraseObj ?_ hcLast hEmpty (by omega) hRoot
        rintro x ⟨_, hx⟩
        refine eq_of_reached_of_leaf ?_ hx
        rintro y ⟨o₁, n, h₁, hn⟩
        cases hc.symm.trans h₁
        cases (congrArg (SortedMap.get? · n) hEmpty).symm.trans hn
      · intro x o₁ h₁
        refine hRecounts x o₁ ?_
        change ((mid.countRef c (-1)).objs.erase oc.id).get? x = some o₁ at h₁
        rw [SortedMap.get?_erase] at h₁
        split_ifs at h₁
        exact h₁
  · refine ⟨hCounted.mono ?_, hRecounts⟩
    rintro x ⟨hLinks, _⟩
    exact hZero (by omega)

theorem addNewObj_graph (h : fs.Graph (fun _ => False) fun _ => 0) (hEntries : o.entries = .empty)
    (hRef : o.ref = 0) :
    Returns (fun r => r.1 = fs.id ∧ r.2.Graph (fun x => x = fs.id) (fun _ => 0) ∧
      ∀ x, r.2.objs.get? x = if x = fs.id then some { o with id := fs.id } else fs.objs.get? x)
      Excused (fs.addNewObj o) := by
  obtain ⟨fs', hfs'⟩ : ∃ fs' : AbstFS,
    fs' = (fs.addNr o.type 1).update fs.id { o with id := fs.id } := ⟨_, rfl⟩
  have hGraph : Graph { fs' with id := fs.id + 1 } (fun x => x = fs.id) fun _ => 0 := by
    rw [hfs']
    exact h.addObj (o := { o with id := fs.id }) hEntries rfl hRef
  have hKeys : fs'.UnderIds := fun id o hGet =>
    hGraph.keys id o hGet
  rw [addNewObj, addObjAt, ← hfs']
  rcases internalCheck_cases hKeys (fun id _ => hGraph.acyclic id) with hOk | hError
  · simp only [hOk, bind, Except.bind, pure, Except.pure]
    refine ⟨rfl, hGraph, fun x => ?_⟩
    rw [hfs']
    exact SortedMap.get?_insert fs.objs fs.id _ x
  · simp only [hError, bind, Except.bind]
    exact .inl rfl

end Steps

/-- The root is a directory, every entry names an object, and every object is in reach of the root,
has as many references as entries, a directory one, and a number below the next one. There is no
circle, and the objects of each type are counted. -/
structure WellFormed (fs : AbstFS) : Prop extends fs.Graph (fun _ => False) fun _ => 0 where
  dirs : ∀ id o, fs.objs.get? id = some o → id ≠ 0 → o.type = .dir → o.ref = 1

section Calls
variable {fs : AbstFS} {p c : Nat} {o oc : Obj} {name : Name}

theorem attach_wellFormed (h : fs.WellFormed) (hEntries : o.entries = .empty) (hRef : o.ref = 0)
    {op : Obj} (hp : fs.objs.get? p = some op) (hDir : op.type = .dir)
    (hNew : op.entries.get? name = none) :
    Returns (fun r => r.1 = fs.id ∧ ∃ fs', r.2.linkObj p r.1 name = .ok fs' ∧ fs'.WellFormed ∧
      ∃ o', fs'.objs.get? fs.id = some o' ∧ o'.type = o.type) Excused (fs.addNewObj o) := by
  have hpn : p ≠ fs.id := (h.below p op hp).ne
  refine (addNewObj_graph h.toGraph hEntries hRef).imp ?_
  rintro ⟨id, fs₁⟩ ⟨rfl, hGraph, hGet⟩
  have hp₁ : fs₁.objs.get? p = some op := by rw [hGet, if_neg hpn, hp]
  have hn₁ : fs₁.objs.get? fs.id = some { o with id := fs.id } := by rw [hGet, if_pos rfl]
  have hNot : ¬ReflTransGen fs₁.Child fs.id p := by
    intro hPath
    refine hpn (eq_of_reached_of_leaf ?_ hPath)
    rintro y ⟨o₁, n, h₁, hn⟩
    cases hn₁.symm.trans h₁
    change o.entries.get? n = some y at hn
    rw [hEntries] at hn
    cases hn
  obtain ⟨fs₂, hLink, hGraph₂, hRecounts, hKeeps⟩ := linkObj_graph hGraph hp₁ hDir hNew hn₁
    h.id_pos.ne' hNot hpn
  refine ⟨rfl, fs₂, hLink, ⟨hGraph₂.mono fun x hx => hx.2 hx.1, ?_⟩, ?_⟩
  · intro x o₂ h₂ hx hType
    obtain ⟨o₁, h₁, hType₁, hRef₁⟩ := hRecounts x o₂ h₂
    rw [hGet] at h₁
    split_ifs at h₁ with hEq
    · cases h₁
      rw [hRef₁, hRef]
      simp [hEq]
    · rw [hRef₁, h.dirs x o₁ h₁ hx (hType₁ ▸ hType)]
      simp [hEq]
  · obtain ⟨o₂, h₂, hType, _⟩ := hKeeps fs.id _ hn₁
    exact ⟨o₂, h₂, hType⟩

theorem WellFormed.update_same (h : fs.WellFormed) (hGet : fs.objs.get? p = some o) {o' : Obj}
    (hEntries : o'.entries = o.entries) (hType : o'.type = o.type) (hId : o'.id = o.id)
    (hRef : o'.ref = o.ref) : (fs.update p o').WellFormed := by
  refine ⟨h.toGraph.update_same hGet hEntries hType hId (by rw [hRef]) fun _ _ => rfl, ?_⟩
  intro x o₁ h₁ hx hDir
  rcases get?_update_cases h₁ with ⟨rfl, rfl⟩ | ⟨_, h₁⟩
  · rw [hRef]
    exact h.dirs x o hGet hx (hType ▸ hDir)
  · exact h.dirs x o₁ h₁ hx hDir

def Absent (fs : AbstFS) (path : CString) (p : Nat) : Prop :=
  ∃ name o, fs.findPath path parentNameiInit = .ok (p, name) ∧ fs.objs.get? p = some o ∧
    o.type = .dir ∧ o.entries.get? name = none

def Present (fs : AbstFS) (path : CString) (c : Nat) (oc : Obj) : Prop :=
  ∃ p name o, fs.findPath path parentNameiInit = .ok (p, name) ∧ fs.objs.get? p = some o ∧
    o.type = .dir ∧ o.entries.get? name = some c ∧ fs.objs.get? c = some oc

/-- The use that the test driver makes of a call. -/
def Driven (fs : AbstFS) : FsOp → Prop
  | .creat path _ => ∃ p, fs.Absent path p
  | .mkdir path _ => ∃ p, fs.Absent path p
  | .symlink oldpath newpath => oldpath.length < maxPath ∧ ∃ p, fs.Absent newpath p
  | .link oldpath newpath =>
    (∃ c name oc, fs.findPath oldpath nameiInit = .ok (c, name) ∧ fs.objs.get? c = some oc ∧
      oc.type ≠ .dir) ∧ ∃ p, fs.Absent newpath p
  | .unlink path => ∃ c oc, fs.Present path c oc ∧ oc.type ≠ .dir
  | .rmdir path => ∃ c oc, fs.Present path c oc ∧ oc.type = .dir ∧ oc.entries = .empty
  | .rename oldpath newpath => ∃ c oc p, fs.Present oldpath c oc ∧ fs.Absent newpath p ∧
    ¬ReflTransGen fs.Child c p
  | .pwrite path _ _ | .truncate path _ => ∃ c name oc, fs.findPath path nameiInit = .ok (c, name) ∧
    fs.objs.get? c = some oc ∧ oc.type = .file

theorem not_below_file (hc : fs.objs.get? c = some oc) (hFile : oc.type ≠ .dir)
    (hp : fs.objs.get? p = some o) (hDir : o.type = .dir) : ¬ReflTransGen fs.Child c p := by
  intro hReach
  have hEq : p = c := eq_of_reached_of_leaf (by
    rintro y ⟨o₁, n, h₁, hn⟩
    cases hc.symm.trans h₁
    exact hFile (dir_of_entry hn)) hReach
  subst hEq
  cases hc.symm.trans hp
  exact hFile hDir

theorem creat_wellFormed (h : fs.WellFormed) {path : CString} {mode : Nat}
    (hDriven : fs.Driven (.creat path mode)) :
    Returns WellFormed Excused (fs.creat path mode) := by
  obtain ⟨p, name, op, hPath, hp, hDir, hNew⟩ := hDriven
  have h' : WellFormed { fs with files := fs.files + 1 } :=
    { h with }
  rw [creat, hPath]
  refine (attach_wellFormed (o := (fs.newFile mode).1) h' rfl rfl hp hDir hNew).bind ?_
  rintro ⟨id, fs₁⟩ ⟨_, fs', hLink, hFormed, _⟩
  simp only [hLink]
  exact hFormed

theorem symlink_wellFormed (h : fs.WellFormed) {oldpath newpath : CString}
    (hDriven : fs.Driven (.symlink oldpath newpath)) :
    Returns WellFormed Excused (fs.symlink oldpath newpath) := by
  obtain ⟨hLength, p, name, op, hPath, hp, hDir, hNew⟩ := hDriven
  rw [symlink, hPath]
  simp only [if_neg (not_le.mpr hLength)]
  refine (attach_wellFormed (o := ⟨0, 0, 511, .symLink oldpath⟩) h rfl rfl hp hDir hNew).bind ?_
  rintro ⟨id, fs₁⟩ ⟨_, fs', hLink, hFormed, _⟩
  simp only [hLink]
  exact hFormed

theorem mkdir_wellFormed (h : fs.WellFormed) {path : CString} {mode : Nat}
    (hDriven : fs.Driven (.mkdir path mode)) :
    Returns WellFormed Excused (fs.mkdir path mode) := by
  obtain ⟨p, name, op, hPath, hp, hDir, hNew⟩ := hDriven
  rw [mkdir, hPath]
  refine (attach_wellFormed (o := ⟨0, 0, mode, .dir ⟨.empty, none⟩⟩) h rfl rfl hp hDir hNew).bind ?_
  rintro ⟨id, fs₁⟩ ⟨rfl, fs', hLink, hFormed, o', ho', hType⟩
  obtain ⟨d, hBody⟩ := dir_of_type hType
  simp only [hLink, bind, Except.bind, ho']
  refine hFormed.update_same ho' ?_ ?_ rfl rfl
  · rw [Obj.entries, Obj.entries, hBody]
  · rw [Obj.type, Obj.type, hBody]
    rfl

theorem link_wellFormed (h : fs.WellFormed) {oldpath newpath : CString}
    (hDriven : fs.Driven (.link oldpath newpath)) :
    Returns WellFormed Excused (fs.link oldpath newpath) := by
  obtain ⟨⟨c, n, oc, hOldPath, hc, hFile⟩, p, name, op, hPath, hp, hDir, hNew⟩ := hDriven
  have hNot : ¬ReflTransGen fs.Child c p := not_below_file hc hFile hp hDir
  have hRoot : c ≠ 0 := by
    rintro rfl
    obtain ⟨r, hr, hrDir⟩ := h.root
    cases hc.symm.trans hr
    exact hFile hrDir
  obtain ⟨fs', hLink, hGraph, hRecounts, _⟩ := linkObj_graph h.toGraph hp hDir hNew hc hRoot hNot
    not_false
  rw [link, hOldPath]
  simp only [bind, Except.bind, hPath, hLink]
  refine ⟨hGraph.mono fun x hx => hx.1, ?_⟩
  intro x o' ho' hx hDir'
  obtain ⟨o₁, h₁, hType, hRef⟩ := hRecounts x o' ho'
  have hNe : x ≠ c := by
    rintro rfl
    cases hc.symm.trans h₁
    exact hFile (hType ▸ hDir')
  rw [hRef, h.dirs x o₁ h₁ hx (hType ▸ hDir')]
  simp [hNe]

theorem Graph.ref_pos (h : fs.Graph (fun _ => False) fun _ => 0) (hGet : fs.objs.get? c = some oc)
    (hRoot : c ≠ 0) : 0 < oc.ref := by
  have hRef := h.ref c oc hGet hRoot
  rcases (h.reachable c oc hGet not_false).cases_tail with hEq | ⟨p, _, hEdge⟩
  · exact absurd hEq hRoot
  · have hPos := links_pos.mpr ⟨p, hEdge⟩
    omega

theorem unlinkObj_wellFormed (h : fs.WellFormed) {op : Obj} (hp : fs.objs.get? p = some op)
    (hDir : op.type = .dir) (hOld : op.entries.get? name = some c)
    (hc : fs.objs.get? c = some oc) (hEmpty : oc.entries = .empty) :
    Returns WellFormed Excused (fs.unlinkObj p name) := by
  refine (unlinkObj_graph h.toGraph hp hDir hOld ?_).imp ?_
  · intro o₁ h₁ _
    cases hc.symm.trans h₁
    exact hEmpty
  · rintro fs' ⟨hGraph, hRecounts⟩
    refine ⟨hGraph, ?_⟩
    intro x o' ho' hx hDir'
    obtain ⟨o₁, h₁, hType, hRef⟩ := hRecounts x o' ho'
    have hOne := h.dirs x o₁ h₁ hx (hType ▸ hDir')
    have hPos := hGraph.ref_pos ho' hx
    rw [hOne] at hRef
    rw [hRef] at hPos ⊢
    by_cases hEq : x = c
    · simp [hEq] at hPos
    · simp [hEq]

theorem unlink_wellFormed (h : fs.WellFormed) {path : CString}
    (hDriven : fs.Driven (.unlink path)) :
    Returns WellFormed Excused (fs.unlink path) := by
  obtain ⟨c, oc, ⟨p, name, op, hPath, hp, hDir, hOld, hc⟩, hFile⟩ := hDriven
  rw [unlink, hPath]
  exact unlinkObj_wellFormed h hp hDir hOld hc (entries_empty_of_not_dir hFile)

theorem rmdir_wellFormed (h : fs.WellFormed) {path : CString} (hDriven : fs.Driven (.rmdir path)) :
    Returns WellFormed Excused (fs.rmdir path) := by
  obtain ⟨c, oc, ⟨p, name, op, hPath, hp, hDir, hOld, hc⟩, hcDir, hEmpty⟩ := hDriven
  obtain ⟨d, hBody⟩ := dir_of_type hDir
  obtain ⟨dc, hcBody⟩ := dir_of_type hcDir
  have hEntries : d.entries.get? name = some c := by rwa [entries_of_body hBody] at hOld
  have hcEntries : dc.entries.entries.isEmpty = true := by
    rw [← entries_of_body hcBody, hEmpty]
    rfl
  rw [rmdir, hPath]
  simp only [bind, Except.bind, hp, Option.bind_some, Obj.dir?, hBody, hEntries, hc, hcBody,
    hcEntries, if_true]
  exact unlinkObj_wellFormed h hp hDir hOld hc hEmpty

theorem rename_wellFormed (h : fs.WellFormed) {oldpath newpath : CString}
    (hDriven : fs.Driven (.rename oldpath newpath)) :
    Returns WellFormed Excused (fs.rename oldpath newpath) := by
  obtain ⟨c, oc, q, ⟨p, name, op, hPath, hp, hDir, hOld, hc⟩,
    ⟨name', oq, hPath', hq, hqDir, hNew⟩, hNot⟩ := hDriven
  have hRoot := h.child_ne_zero not_false ⟨op, name, hp, hOld⟩
  obtain ⟨fs₁, hLink, hGraph, hRecounts, hKeeps⟩ := linkObj_graph h.toGraph hq hqDir hNew hc hRoot
    hNot not_false
  obtain ⟨op₁, hp₁, hType₁, hOld₁⟩ := hKeeps p op hp
  rw [rename, hPath]
  simp only [bind, Except.bind, getChild_eq hp hOld hc, hPath', hLink]
  refine (unlinkObj_graph (hGraph.mono fun x hx => hx.1) hp₁ (hType₁.trans hDir)
    (hOld₁ name c hOld) ?_).imp ?_
  · -- the new entry keeps the object
    intro oc₁ hc₁ hOne
    obtain ⟨o₁, h₁, _, hRef⟩ := hRecounts c oc₁ hc₁
    have hPos := h.ref_pos h₁ hRoot
    simp only [if_true] at hRef
    omega
  · rintro fs₂ ⟨hGraph₂, hRecounts₂⟩
    refine ⟨hGraph₂, ?_⟩
    intro x o₂ h₂ hx hxDir
    obtain ⟨o₁, h₁, hType, hRef⟩ := (hRecounts.trans hRecounts₂) x o₂ h₂
    rw [hRef, h.dirs x o₁ h₁ hx (hType ▸ hxDir)]
    by_cases hEq : x = c <;> simp [hEq]

theorem onFile_wellFormed (h : fs.WellFormed) {path : CString} {call : FileCall}
    (hDriven : ∃ c name oc, fs.findPath path nameiInit = .ok (c, name) ∧
      fs.objs.get? c = some oc ∧ oc.type = .file) :
    Returns WellFormed Excused (fs.onFile path call) := by
  obtain ⟨c, name, oc, hPath, hc, hFile⟩ := hDriven
  obtain ⟨f, hBody⟩ : ∃ f, oc.body = .file f := by
    unfold Obj.type at hFile
    cases hBody : oc.body with
    | file f => exact ⟨f, rfl⟩
    | dir d =>
      rw [hBody] at hFile
      cases hFile
    | symLink path =>
      rw [hBody] at hFile
      cases hFile
  rw [onFile, hPath]
  simp only [bind, Except.bind, hc, hBody]
  cases call f with
  | error e => exact .inr ⟨e, rfl⟩
  | ok f' =>
    refine h.update_same hc ?_ ?_ rfl rfl
    · rw [Obj.entries, Obj.entries, hBody]
    · rw [Obj.type, Obj.type, hBody]
      rfl

end Calls

section
variable [Hashes]

theorem apply_wellFormed {fs : AbstFS} (h : fs.WellFormed) (op : FsOp) (hDriven : fs.Driven op) :
    Returns WellFormed Excused (fs.apply op) := by
  cases op with
  | creat path mode => exact creat_wellFormed h hDriven
  | mkdir path mode => exact mkdir_wellFormed h hDriven
  | symlink oldpath newpath => exact symlink_wellFormed h hDriven
  | link oldpath newpath => exact link_wellFormed h hDriven
  | unlink path => exact unlink_wellFormed h hDriven
  | rmdir path => exact rmdir_wellFormed h hDriven
  | rename oldpath newpath => exact rename_wellFormed h hDriven
  | pwrite path buf off => exact onFile_wellFormed h hDriven
  | truncate path length => exact onFile_wellFormed h hDriven

omit [Hashes] in
theorem init_wellFormed (mnt : CString) (memory : Memory) : (init mnt memory).WellFormed where
  toLinked := linked_root rfl rfl rfl rfl Nat.one_pos
  reachable id o h _ := by rw [(eq_of_get?_root rfl h).1]
  ref id o h hRoot := absurd (eq_of_get?_root rfl h).1 hRoot
  acyclic x hx := by
    obtain ⟨y, hEdge, _⟩ := TransGen.head'_iff.mp hx
    exact not_child_root rfl rfl x y hEdge
  nr t := by
    have hZero : (init mnt memory).countType t = 0 := by
      rw [countType, SortedMap.total_eq_zero]
      intro k v h
      simp [(eq_of_get?_root (show (init mnt memory).objs = _ from rfl) h).1]
    rw [hZero]
    rfl
  dirs id o h hRoot := absurd (eq_of_get?_root rfl h).1 hRoot

theorem WellFormed.run {fs : AbstFS} (h : fs.WellFormed) (ops : List FsOp)
    (hDriven : Meets (fun fs op => fs.apply op) (fun _ fs op => fs.Driven op) [] fs ops) :
    Returns WellFormed Excused (fs.run ops) :=
  foldlM_returns (I := fun _ fs => fs.WellFormed) (Q := Excused)
    (fun _ _ op h hOp => apply_wellFormed h op hOp) ops [] h hDriven

/-- Driven calls keep the graph well formed or stop with an excused failure. -/
theorem run_wellFormed (mnt : CString) (memory : Memory) (ops : List FsOp)
    (hDriven : Meets (fun fs op => fs.apply op) (fun _ fs op => fs.Driven op) [] (init mnt memory)
      ops) :
    Returns WellFormed Excused ((init mnt memory).run ops) :=
  (init_wellFormed mnt memory).run ops hDriven

end

attribute [local instance] sampleHashes

/-- `/a` is created, gets the second name `/b`, and loses the first one. -/
theorem run_wellFormed_link :
    Returns WellFormed Excused
      (emptyFS.run [.creat [47, 97] 420, .link [47, 97] [47, 98], .unlink [47, 97]]) := by
  refine run_wellFormed _ _ _ ⟨⟨0, [97], _, rfl, rfl, rfl, rfl⟩, ?_⟩
  refine ⟨⟨⟨1, [], _, rfl, rfl, ?_⟩, 0, [98], _, rfl, rfl, rfl, rfl⟩, ?_⟩
  · decide
  exact ⟨⟨1, _, ⟨0, [97], _, rfl, rfl, rfl, rfl, rfl⟩, by decide⟩, trivial⟩

end AbstFS

end Explode.Driver
