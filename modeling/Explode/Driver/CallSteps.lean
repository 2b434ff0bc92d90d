import Explode.Lib.Loop
import Explode.Driver.AbstFS

/-!
# The steps of the calls

A link sets an entry and counts a reference. An unlink removes an entry, takes
a reference back and deletes the object with the last one. What is proved about
the calls is proved about these steps.
-/

namespace Explode.Driver

open Loop

namespace Obj

variable {o : Obj} {entries : SortedMap Name Nat}

theorem id_setEntries : (o.setEntries entries).id = o.id := by
  cases hBody : o.body <;> simp [setEntries, hBody]

theorem ref_setEntries : (o.setEntries entries).ref = o.ref := by
  cases hBody : o.body <;> simp [setEntries, hBody]

theorem type_setEntries : (o.setEntries entries).type = o.type := by
  cases hBody : o.body <;> simp [setEntries, hBody, type, Body.type]

end Obj

namespace AbstFS

variable {fs fs' : AbstFS} {p c : Nat} {o o' : Obj} {name : Name}

theorem dir_of_type (h : o.type = .dir) : ∃ d, o.body = .dir d := by
  unfold Obj.type at h
  cases hBody : o.body with
  | dir d => exact ⟨d, rfl⟩
  | file f =>
    rw [hBody] at h
    cases h
  | symLink path =>
    rw [hBody] at h
    cases h

theorem entries_of_body {d : DirObj} (h : o.body = .dir d) : o.entries = d.entries := by
  rw [Obj.entries, h]

theorem type_of_body {d : DirObj} (h : o.body = .dir d) : o.type = .dir := by
  rw [Obj.type, h]
  rfl

theorem entries_setEntries (h : o.type = .dir) (entries : SortedMap Name Nat) :
    (o.setEntries entries).entries = entries := by
  obtain ⟨d, hBody⟩ := dir_of_type h
  rw [Obj.setEntries, hBody]
  rfl

theorem entries_empty_of_not_dir (h : o.type ≠ .dir) : o.entries = .empty := by
  unfold Obj.type at h
  unfold Obj.entries
  cases hBody : o.body with
  | dir d =>
    rw [hBody] at h
    exact absurd rfl h
  | file f => rfl
  | symLink path => rfl

theorem dir_of_entry {x : Nat} (h : o.entries.get? name = some x) : o.type = .dir := by
  by_contra hType
  rw [entries_empty_of_not_dir hType] at h
  cases h

theorem get?_update (fs : AbstFS) (id : Nat) (o : Obj) (x : Nat) :
    (fs.update id o).objs.get? x = if x = id then some o else fs.objs.get? x :=
  SortedMap.get?_insert fs.objs id o x

theorem get?_update_cases {x : Nat} {o₁ : Obj} (h : (fs.update p o').objs.get? x = some o₁) :
    (x = p ∧ o₁ = o') ∨ (x ≠ p ∧ fs.objs.get? x = some o₁) := by
  rw [get?_update] at h
  split_ifs at h with hEq
  · cases h
    exact .inl ⟨hEq, rfl⟩
  · exact .inr ⟨hEq, h⟩

theorem exists_update_iff (hGet : fs.objs.get? p = some o) (x : Nat) :
    (∃ o₁, (fs.update p o').objs.get? x = some o₁) ↔ ∃ o₁, fs.objs.get? x = some o₁ := by
  rw [get?_update]
  split_ifs with hEq
  · rw [hEq]
    exact ⟨fun _ => ⟨o, hGet⟩, fun _ => ⟨o', rfl⟩⟩
  · rfl

def countRef (fs : AbstFS) (c : Nat) (n : Int) : AbstFS :=
  match fs.objs.get? c with
  | none => fs
  | some o => fs.update c { o with ref := o.ref + n }

theorem countRef_none (h : fs.objs.get? c = none) (n : Int) : fs.countRef c n = fs := by
  rw [countRef, h]

theorem countRef_some (h : fs.objs.get? c = some o) (n : Int) :
    fs.countRef c n = fs.update c { o with ref := o.ref + n } := by
  rw [countRef, h]

theorem countRef_nameId (fs : AbstFS) (c : Nat) (n : Int) :
    (fs.countRef c n).nameId = fs.nameId := by
  rw [countRef]
  split <;> rfl

theorem map_type_update (hGet : fs.objs.get? p = some o) (hType : o'.type = o.type) (x : Nat) :
    ((fs.update p o').objs.get? x).map Obj.type = (fs.objs.get? x).map Obj.type := by
  rw [get?_update]
  split_ifs with hEq
  · rw [hEq, hGet, Option.map_some, hType, Option.map_some]
  · rfl

theorem map_type_countRef (fs : AbstFS) (c : Nat) (n : Int) (x : Nat) :
    ((fs.countRef c n).objs.get? x).map Obj.type = (fs.objs.get? x).map Obj.type := by
  cases h : fs.objs.get? c with
  | none => rw [countRef_none h]
  | some o =>
    rw [countRef_some h]
    exact map_type_update h (by rfl) x

theorem linkObj_eq (hp : fs.objs.get? p = some o) (hDir : o.type = .dir)
    (hNew : o.entries.get? name = none) (hc : c ≠ 0) :
    fs.linkObj p c name =
      .ok ((fs.update p (o.setEntries (o.entries.insert name c))).countRef c 1) := by
  obtain ⟨d, hBody⟩ := dir_of_type hDir
  have hAdd : fs.addEntry p name c =
      .ok (fs.update p (o.setEntries (o.entries.insert name c))) := by
    rw [entries_of_body hBody] at hNew ⊢
    simp only [addEntry, hp, hBody, hNew, Option.isSome_none, Bool.false_eq_true, if_false,
      if_neg hc, Obj.setEntries]
  cases h : (fs.update p (o.setEntries (o.entries.insert name c))).objs.get? c with
  | none =>
    rw [countRef_none h]
    simp only [linkObj, hAdd, bind, Except.bind, h]
    rfl
  | some oc =>
    rw [countRef_some h]
    simp only [linkObj, hAdd, bind, Except.bind, h]
    rfl

theorem linkObj_ok (h : fs.linkObj p c name = .ok fs') :
    ∃ o, fs.objs.get? p = some o ∧ o.type = .dir ∧ o.entries.get? name = none ∧ c ≠ 0 ∧
      fs' = (fs.update p (o.setEntries (o.entries.insert name c))).countRef c 1 := by
  have hLink := h
  obtain ⟨_, hAdd, _⟩ := bind_eq_ok h
  rw [addEntry] at hAdd
  split at hAdd
  case h_1 => cases hAdd
  case h_2 o hp =>
  split at hAdd
  case h_2 => cases hAdd
  case h_1 d hBody =>
  split_ifs at hAdd with hNew hc
  have hDir := type_of_body hBody
  have hAbsent : o.entries.get? name = none := by
    rw [entries_of_body hBody]
    exact Option.not_isSome_iff_eq_none.mp hNew
  exact ⟨o, hp, hDir, hAbsent, hc, Except.ok.inj (hLink.symm.trans (linkObj_eq hp hDir hAbsent hc))⟩

theorem linkObj_nameId (h : fs.linkObj p c name = .ok fs') : fs'.nameId = fs.nameId := by
  obtain ⟨o, _, _, _, _, rfl⟩ := linkObj_ok h
  exact countRef_nameId _ c 1

theorem linkObj_types (h : fs.linkObj p c name = .ok fs') (x : Nat) :
    (fs'.objs.get? x).map Obj.type = (fs.objs.get? x).map Obj.type := by
  obtain ⟨o, hp, _, _, _, rfl⟩ := linkObj_ok h
  exact (map_type_countRef _ c 1 x).trans (map_type_update hp Obj.type_setEntries x)

theorem unlinkObj_eq (hp : fs.objs.get? p = some o) (hOld : o.entries.get? name = some c)
    {fs₁ : AbstFS}
    (h₁ : fs₁ = (fs.update p (o.setEntries (o.entries.erase name))).countRef c (-1)) :
    fs.unlinkObj p name =
      match fs₁.objs.get? c with
      | none => .ok fs₁
      | some oc => if oc.ref = 0 then fs₁.deleteObj oc else .ok fs₁ := by
  obtain ⟨d, hBody⟩ := dir_of_type (dir_of_entry hOld)
  rw [entries_of_body hBody] at hOld
  have hSame : { o with body := .dir { d with entries := d.entries.erase name } } =
      o.setEntries (o.entries.erase name) := by rw [Obj.setEntries, hBody, entries_of_body hBody]
  simp only [unlinkObj, hp, hBody, hOld, hSame]
  cases hc : (fs.update p (o.setEntries (o.entries.erase name))).objs.get? c with
  | none =>
    rw [countRef_none hc] at h₁
    rw [h₁, hc]
  | some oc =>
    rw [countRef_some hc] at h₁
    have hc₁ : fs₁.objs.get? c = some { oc with ref := oc.ref + -1 } := by
      rw [h₁, get?_update, if_pos rfl]
    rw [hc₁, h₁]
    rfl

/-- An object is deleted when its last reference goes, if it has no entries. -/
theorem unlinkObj_ok (h : fs.unlinkObj p name = .ok fs') :
    ∃ o c fs₁, fs.objs.get? p = some o ∧ o.entries.get? name = some c ∧
      fs₁ = (fs.update p (o.setEntries (o.entries.erase name))).countRef c (-1) ∧
      (fs' = fs₁ ∨ ∃ oc, fs₁.objs.get? c = some oc ∧ oc.ref = 0 ∧ oc.entries = .empty ∧
        fs' = { fs₁.addNr oc.type (-1) with objs := fs₁.objs.erase oc.id }) := by
  have hEntry : ∃ o c, fs.objs.get? p = some o ∧ o.entries.get? name = some c := by
    rw [unlinkObj] at h
    split at h
    case h_1 => cases h
    case h_2 o hp =>
    split at h
    case h_2 => cases h
    case h_1 d hBody =>
    split at h
    case h_1 => cases h
    case h_2 c hOld => exact ⟨o, c, hp, entries_of_body hBody ▸ hOld⟩
  obtain ⟨o, c, hp, hOld⟩ := hEntry
  rw [unlinkObj_eq hp hOld rfl] at h
  refine ⟨o, c, _, hp, hOld, rfl, ?_⟩
  split at h
  case h_1 => exact .inl (Except.ok.inj h).symm
  case h_2 oc hc =>
  split_ifs at h with hZero
  · rw [deleteObj] at h
    split_ifs at h with hEmpty
    obtain ⟨_, _, hEnd⟩ := bind_eq_ok h
    exact .inr ⟨oc, hc, hZero, SortedMap.entries_isEmpty.mp hEmpty, (Except.ok.inj hEnd).symm⟩
  · exact .inl (Except.ok.inj h).symm

theorem unlinkObj_nameId (h : fs.unlinkObj p name = .ok fs') : fs'.nameId = fs.nameId := by
  obtain ⟨o, c, fs₁, _, _, rfl, rfl | ⟨_, _, _, _, rfl⟩⟩ := unlinkObj_ok h
  · exact countRef_nameId _ c (-1)
  · exact countRef_nameId _ c (-1)

theorem addNewObj_ok {r : Nat × AbstFS} (h : fs.addNewObj o = .ok r) :
    r = (fs.id,
      { (fs.addNr o.type 1).update fs.id { o with id := fs.id } with id := fs.id + 1 }) := by
  obtain ⟨fs₁, hAt, hEnd⟩ := bind_eq_ok h
  obtain ⟨_, _, hEnd'⟩ := bind_eq_ok hAt
  cases hEnd'
  exact (Except.ok.inj hEnd).symm

theorem getChild_eq {oc : Obj} (hp : fs.objs.get? p = some o) (hOld : o.entries.get? name = some c)
    (hc : fs.objs.get? c = some oc) : fs.getChild p name = .ok c := by
  obtain ⟨d, hBody⟩ := dir_of_type (dir_of_entry hOld)
  rw [entries_of_body hBody] at hOld
  simp [getChild, hp, Obj.dir?, hBody, hOld, hc]

theorem getChild_ok (h : fs.getChild p name = .ok c) :
    ∃ o oc, fs.objs.get? p = some o ∧ o.entries.get? name = some c ∧ fs.objs.get? c = some oc := by
  rw [getChild] at h
  split at h
  case h_1 => cases h
  case h_2 d hDir =>
  obtain ⟨o, hp, hd⟩ := Option.bind_eq_some_iff.mp hDir
  split at h
  case h_1 => cases h
  case h_2 id hEntry =>
  split_ifs at h with hSome
  cases h
  obtain ⟨oc, hc⟩ := Option.isSome_iff_exists.mp hSome
  refine ⟨o, oc, hp, ?_, hc⟩
  rw [Obj.dir?] at hd
  cases hBody : o.body <;> rw [hBody] at hd <;> cases hd
  rw [entries_of_body hBody, hEntry]

section Calls
variable {path : CString}

theorem mkdir_ok {mode : Nat} (h : fs.mkdir path mode = .ok fs') :
    ∃ nd id fs₁ fs₂ o, fs.findPath path parentNameiInit = .ok nd ∧
      fs.addNewObj ⟨0, 0, mode, .dir ⟨.empty, none⟩⟩ = .ok (id, fs₁) ∧
      fs₁.linkObj nd.1 id nd.2 = .ok fs₂ ∧ fs₂.objs.get? id = some o ∧
      fs' = fs₂.update id { o with body := .dir ⟨o.entries, some nd.1⟩ } := by
  obtain ⟨nd, hFind, h⟩ := bind_eq_ok h
  obtain ⟨⟨id, fs₁⟩, hAdd, h⟩ := bind_eq_ok h
  obtain ⟨fs₂, hLink, h⟩ := bind_eq_ok h
  split at h
  case h_1 => cases h
  case h_2 o hGet => exact ⟨nd, id, fs₁, fs₂, o, hFind, hAdd, hLink, hGet, (Except.ok.inj h).symm⟩

theorem rmdir_ok (h : fs.rmdir path = .ok fs') :
    ∃ nd, fs.findPath path parentNameiInit = .ok nd ∧ fs.unlinkObj nd.1 nd.2 = .ok fs' := by
  obtain ⟨nd, hFind, h⟩ := bind_eq_ok h
  split at h
  case h_1 => cases h
  case h_2 =>
  split at h
  case h_1 => cases h
  case h_2 =>
  split_ifs at h
  exact ⟨nd, hFind, h⟩

theorem onFile_ok {call : FileCall} (h : fs.onFile path call = .ok fs') :
    ∃ nd o f f', fs.findPath path nameiInit = .ok nd ∧ fs.objs.get? nd.1 = some o ∧
      o.body = .file f ∧ call f = .ok f' ∧ fs' = fs.update nd.1 { o with body := .file f' } := by
  obtain ⟨nd, hFind, h⟩ := bind_eq_ok h
  split at h
  case h_1 => cases h
  case h_2 o hGet =>
  split at h
  case h_2 => cases h
  case h_1 f hBody =>
  obtain ⟨f', hFile, hEnd⟩ := bind_eq_ok h
  refine ⟨nd, o, f, f', hFind, hGet, hBody, ?_, (Except.ok.inj hEnd).symm⟩
  cases hCall : call f with
  | ok f₁ =>
    rw [hCall] at hFile
    cases hFile
    rfl
  | error e =>
    rw [hCall] at hFile
    cases hFile

theorem entries_setFile {f : FileObj} (hBody : o.body = .file f) (f' : FileObj) :
    Obj.entries { o with body := .file f' } = o.entries := by
  rw [Obj.entries, Obj.entries, hBody]

theorem type_setFile {f : FileObj} (hBody : o.body = .file f) (f' : FileObj) :
    Obj.type { o with body := .file f' } = o.type := by
  rw [Obj.type, Obj.type, hBody]
  rfl

end Calls

end AbstFS

end Explode.Driver
