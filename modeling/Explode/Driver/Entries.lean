import Explode.Driver.Copy
import Explode.Driver.GraphRuns
import Explode.Driver.StableCheck

/-!
# What the steps do to entries and objects

The file system is changed by few steps, for the calls and for the deltas alike.
A step sets one entry, adds one object or changes the data of one file. It says
nothing about reference counts here.
-/

namespace Explode.Driver

open Loop

namespace Obj

def bare (o : Obj) : Obj := { o.setEntries .empty with ref := 0 }

theorem bare_setEntries (o : Obj) (entries : SortedMap Name Nat) :
    (o.setEntries entries).bare = o.bare := by
  cases hBody : o.body <;> simp [bare, setEntries, hBody]

theorem bare_setRef (o : Obj) (ref : Int) : { o with ref := ref }.bare = o.bare := by
  cases hBody : o.body <;> simp [bare, setEntries, hBody]

theorem id_of_bare {o o' : Obj} (h : o'.bare = o.bare) : o'.id = o.id := by
  have hId : ∀ o : Obj, o.bare.id = o.id := by
    intro o
    cases hBody : o.body <;> simp [bare, setEntries, hBody]
  rw [← hId, h, hId]

theorem type_of_bare {o o' : Obj} (h : o'.bare = o.bare) : o'.type = o.type := by
  have hType : ∀ o : Obj, o.bare.type = o.type := by
    intro o
    cases hBody : o.body <;> simp [bare, setEntries, type, hBody, Body.type]
  rw [← hType, h, hType]

theorem destroy_of_bare {o o' : Obj} (h : o'.bare = o.bare) :
    AbstFS.destroy o' = AbstFS.destroy o := by
  have hDestroy : ∀ o : Obj, AbstFS.destroy o.bare = AbstFS.destroy o := by
    intro o
    cases hBody : o.body <;> simp [bare, setEntries, AbstFS.destroy, hBody]
  rw [← hDestroy, h, hDestroy]

theorem formed_of_bare {o o' : Obj} (h : o'.bare = o.bare) (ho : o.Formed)
    (hEntries : ∀ n c, o'.entries.get? n = some c → n.length < maxName ∧ c ≠ 0) : o'.Formed := by
  obtain ⟨id, ref, mode, body⟩ := o
  obtain ⟨id', ref', mode', body'⟩ := o'
  cases body <;> cases body' <;> simp [bare, setEntries] at h
  case file.file =>
    obtain ⟨_, _, rfl⟩ := h
    exact ho
  case dir.dir => exact hEntries
  case symLink.symLink =>
    obtain ⟨_, rfl, rfl⟩ := h
    exact ho

theorem formed_of_view {o o' : Obj} (h : o'.view = o.view) (ho : o.Formed) : o'.Formed := by
  obtain ⟨id, ref, mode, body⟩ := o
  obtain ⟨id', ref', mode', body'⟩ := o'
  cases body <;> cases body' <;> simp [view, Body.view] at h
  case file.file f f' =>
    have hRegions : f'.d.regions = f.d.regions := h.2.2.2.2.2
    exact ⟨hRegions ▸ ho.sorted, hRegions ▸ ho.bufferless⟩
  case dir.dir =>
    intro name c hEntry
    rw [h.2.2.2] at hEntry
    exact ho name c hEntry
  case symLink.symLink =>
    obtain ⟨_, _, rfl, rfl⟩ := h
    exact ho

end Obj

namespace AbstFS

variable {fs fs' : AbstFS} {p c : Nat} {o : Obj} {name : Name}

theorem getEntry_eq (fs : AbstFS) (p : Nat) (name : Name) :
    fs.getEntry p name = (fs.objs.get? p).bind fun o => o.entries.get? name := by
  rw [getEntry]
  cases fs.objs.get? p with
  | none => rfl
  | some o =>
    rw [Option.bind_some, Option.bind_some, Obj.dir?, Obj.entries]
    cases o.body <;> rfl

theorem getEntry_eq_some {x : Nat} : fs.getEntry p name = some x ↔
    ∃ o, fs.objs.get? p = some o ∧ o.entries.get? name = some x := by
  rw [getEntry_eq, Option.bind_eq_some_iff]

theorem child_iff_getEntry {p c : Nat} : fs.Child p c ↔ ∃ n, fs.getEntry p n = some c := by
  simp only [getEntry_eq_some]
  constructor
  · rintro ⟨o, n, ho, hn⟩
    exact ⟨n, o, ho, hn⟩
  · rintro ⟨n, o, ho, hn⟩
    exact ⟨o, n, ho, hn⟩

theorem getEntry_update (fs : AbstFS) (p : Nat) (o : Obj) (x : Nat) (n : Name) :
    (fs.update p o).getEntry x n = if x = p then o.entries.get? n else fs.getEntry x n := by
  rw [getEntry_eq, getEntry_eq, get?_update]
  split_ifs <;> rfl

namespace Recounted

theorem get? (h : fs.Recounted fs') (x : Nat) :
    fs.objs.get? x = none ∧ fs'.objs.get? x = none ∨
      ∃ o o', fs.objs.get? x = some o ∧ fs'.objs.get? x = some o' ∧
        o'.view = { o.view with ref := fs.links x } := by
  have hView := h.objs x
  rw [view, view] at hView
  cases ho : fs.objs.get? x with
  | none =>
    rw [ho] at hView
    exact .inl ⟨rfl, Option.map_eq_none_iff.mp hView⟩
  | some o =>
    rw [ho] at hView
    obtain ⟨o', ho', hView⟩ := Option.map_eq_some_iff.mp hView
    exact .inr ⟨o, o', rfl, ho', hView⟩

theorem getEntry (h : fs.Recounted fs') (x : Nat) (n : Name) :
    fs'.getEntry x n = fs.getEntry x n := by
  rw [getEntry_eq, getEntry_eq]
  rcases h.get? x with ⟨ho, ho'⟩ | ⟨o, o', ho, ho', hView⟩
  · rw [ho, ho']
  · rw [ho, ho', Option.bind_some, Option.bind_some, ← view_entries, hView, ← view_entries]

theorem keys (h : fs.Recounted fs') (hKeys : fs.UnderIds)
    (x : Nat) (o' : Obj) (ho' : fs'.objs.get? x = some o') : o'.id = x := by
  rcases h.get? x with ⟨_, hNone⟩ | ⟨o, o₁, ho, h₁, hView⟩
  · cases hNone.symm.trans ho'
  · cases h₁.symm.trans ho'
    exact (congrArg ObjView.id hView).trans (hKeys x o ho)

end Recounted

namespace Same

theorem get? (h : fs'.Same fs) {x : Nat} {o' : Obj} (ho' : fs'.objs.get? x = some o') :
    ∃ o, fs.objs.get? x = some o ∧ o'.view = o.view := by
  have hView := h.objs x
  rw [view, view, ho', Option.map_some] at hView
  obtain ⟨o, ho, hEq⟩ := Option.map_eq_some_iff.mp hView.symm
  exact ⟨o, ho, hEq.symm⟩

theorem stored (h : fs'.Same fs) (hStored : fs.Stored) : fs'.Stored where
  root := by
    obtain ⟨r, hr, hDir⟩ := hStored.root
    have hView := h.objs 0
    rw [view, view, hr, Option.map_some] at hView
    obtain ⟨r', hr', hEq⟩ := Option.map_eq_some_iff.mp hView
    exact ⟨r', hr', by rw [← view_type, hEq, view_type, hDir]⟩
  keys x o' ho' := by
    obtain ⟨o, ho, hView⟩ := h.get? ho'
    exact (congrArg ObjView.id hView).trans (hStored.keys x o ho)
  formed x o' ho' := by
    obtain ⟨o, ho, hView⟩ := h.get? ho'
    exact Obj.formed_of_view hView (hStored.formed x o ho)

end Same

structure Sets (fs : AbstFS) (p : Nat) (name : Name) (child : Option Nat) (fs' : AbstFS) :
    Prop where
  dir : ∃ o, fs.objs.get? p = some o ∧ o.type = .dir
  entries : ∀ x n, fs'.getEntry x n = if (x, n) = (p, name) then child else fs.getEntry x n
  within : ∀ x o', fs'.objs.get? x = some o' → ∃ o, fs.objs.get? x = some o ∧ o'.bare = o.bare
  kept : ∀ x o, fs.objs.get? x = some o → fs.getEntry p name ≠ some x →
    ∃ o', fs'.objs.get? x = some o'
  id : fs'.id = fs.id
  mnt : fs'.mnt = fs.mnt

namespace Sets

variable {child : Option Nat} {fs₁ : AbstFS} {oc : Obj}

theorem of_update (hp : fs.objs.get? p = some o) (hDir : o.type = .dir)
    {entries : SortedMap Name Nat}
    (hEntries : ∀ n, entries.get? n = if n = name then child else o.entries.get? n) :
    fs.Sets p name child (fs.update p (o.setEntries entries)) where
  dir := ⟨o, hp, hDir⟩
  entries x n := by
    rw [getEntry_update, entries_setEntries hDir, hEntries]
    by_cases hx : x = p
    · subst hx
      by_cases hn : n = name
      · simp [hn]
      · simp [hn, getEntry_eq, hp]
    · simp [hx]
  within x o' ho' := by
    rcases get?_update_cases ho' with ⟨rfl, rfl⟩ | ⟨_, ho'⟩
    · exact ⟨o, hp, Obj.bare_setEntries o entries⟩
    · exact ⟨o', ho', rfl⟩
  kept x o₁ h₁ _ := (exists_update_iff hp x).mpr ⟨o₁, h₁⟩
  id := rfl
  mnt := rfl

theorem countRef (h : fs.Sets p name child fs₁) (c : Nat) (n : Int) :
    fs.Sets p name child (fs₁.countRef c n) := by
  cases hc : fs₁.objs.get? c with
  | none =>
    rw [countRef_none hc]
    exact h
  | some oc =>
    rw [countRef_some hc]
    refine ⟨h.dir, fun x n => ?_, fun x o' ho' => ?_, fun x o₁ h₁ hx => ?_, h.id, h.mnt⟩
    · rw [getEntry_update, ← h.entries]
      split_ifs with hx
      · rw [hx, getEntry_eq, hc]
        rfl
      · rfl
    · rcases get?_update_cases ho' with ⟨rfl, rfl⟩ | ⟨_, ho'⟩
      · obtain ⟨o, ho, hBare⟩ := h.within x oc hc
        exact ⟨o, ho, (Obj.bare_setRef oc _).trans hBare⟩
      · exact h.within x o' ho'
    · exact (exists_update_iff hc x).mpr (h.kept x o₁ h₁ hx)

theorem erase (h : fs.Sets p name child fs₁) (hc : fs₁.objs.get? c = some oc) (hId : oc.id = c)
    (hEmpty : oc.entries = .empty) (hEntry : fs.getEntry p name = some c) (t : ObjType) (n : Int) :
    fs.Sets p name child { fs₁.addNr t n with objs := fs₁.objs.erase oc.id } where
  dir := h.dir
  entries x n := by
    rw [hId, ← h.entries, getEntry_eq, getEntry_eq]
    simp only [SortedMap.get?_erase]
    split_ifs with hx
    · rw [hx, hc, Option.bind_some, hEmpty]
      rfl
    · rfl
  within x o' ho' := by
    simp only [SortedMap.get?_erase] at ho'
    split_ifs at ho'
    exact h.within x o' ho'
  kept x o₁ h₁ hx := by
    have hNe : x ≠ c := by
      rintro rfl
      exact hx hEntry
    simp only [hId, SortedMap.get?_erase, if_neg hNe]
    exact h.kept x o₁ h₁ hx
  id := h.id
  mnt := h.mnt

end Sets

theorem linkObj_sets (h : fs.linkObj p c name = .ok fs') :
    fs.getEntry p name = none ∧ c ≠ 0 ∧ fs.Sets p name (some c) fs' := by
  obtain ⟨o, hp, hDir, hNew, hZero, rfl⟩ := linkObj_ok h
  refine ⟨?_, hZero, (Sets.of_update hp hDir fun n => ?_).countRef c 1⟩
  · rw [getEntry_eq, hp, Option.bind_some, hNew]
  · rw [SortedMap.get?_insert]
    split_ifs <;> rfl

theorem unlinkObj_sets (hKeys : fs.UnderIds) (h : fs.unlinkObj p name = .ok fs') :
    (∃ c, fs.getEntry p name = some c) ∧ fs.Sets p name none fs' := by
  obtain ⟨o, c, fs₁, hp, hOld, hfs₁, hEnd⟩ := unlinkObj_ok h
  have hSets : fs.Sets p name none fs₁ := by
    rw [hfs₁]
    refine (Sets.of_update hp (dir_of_entry hOld) fun n => ?_).countRef c (-1)
    rw [SortedMap.get?_erase]
    split_ifs <;> rfl
  have hEntry := getEntry_eq_some.mpr ⟨o, hp, hOld⟩
  refine ⟨⟨c, hEntry⟩, ?_⟩
  rcases hEnd with rfl | ⟨oc, hc, _, hEmpty, rfl⟩
  · exact hSets
  · obtain ⟨o₁, h₁, hBare⟩ := hSets.within c oc hc
    exact hSets.erase hc ((Obj.id_of_bare hBare).trans (hKeys c o₁ h₁)) hEmpty hEntry _ _

theorem linkObj_keys (hKeys : fs.UnderIds)
    (h : fs.linkObj p c name = .ok fs') (x : Nat) (o' : Obj) (ho' : fs'.objs.get? x = some o') :
    o'.id = x := by
  obtain ⟨o, ho, hBare⟩ := (linkObj_sets h).2.2.within x o' ho'
  exact (Obj.id_of_bare hBare).trans (hKeys x o ho)

theorem Extends.getEntry (h : fs.Extends c o fs') (x : Nat) (n : Name) :
    fs'.getEntry x n = fs.getEntry x n := by
  rw [getEntry_eq, getEntry_eq, h.get?]
  split_ifs with hx
  · rw [hx, h.new, Option.bind_some, h.empty]
    rfl
  · rfl

structure Attaches (fs : AbstFS) (o : Obj) (p : Nat) (name : Name) (fs' : AbstFS) : Prop where
  free : fs.getEntry p name = none
  entries : ∀ x n, fs'.getEntry x n = if (x, n) = (p, name) then some fs.id else fs.getEntry x n
  within : ∀ x o', fs'.objs.get? x = some o' →
    x = fs.id ∧ o'.bare = Obj.bare { o with id := fs.id } ∨
    ∃ o₁, fs.objs.get? x = some o₁ ∧ o'.bare = o₁.bare
  id : fs'.id = fs.id + 1
  mnt : fs'.mnt = fs.mnt
  nameId : fs'.nameId = fs.nameId

theorem attach_ok (hNext : fs.objs.get? fs.id = none) (hEmpty : o.entries = .empty) {id : Nat}
    {fs₁ : AbstFS} (hAdd : fs.addNewObj o = .ok (id, fs₁))
    (hLink : fs₁.linkObj p id name = .ok fs') : id = fs.id ∧ fs.Attaches o p name fs' := by
  cases addNewObj_ok hAdd
  have hExt : fs.Extends fs.id { o with id := fs.id }
      { (fs.addNr o.type 1).update fs.id { o with id := fs.id } with id := fs.id + 1 } :=
    ⟨hNext, rfl, hEmpty⟩
  obtain ⟨hNone, _, hSets⟩ := linkObj_sets hLink
  have hNameId := linkObj_nameId hLink
  refine ⟨rfl, (hExt.getEntry p name).symm.trans hNone, fun x n => ?_, fun x o' ho' => ?_,
    hSets.id, hSets.mnt, hNameId⟩
  · rw [hSets.entries, hExt.getEntry]
  · obtain ⟨o₁, h₁, hBare⟩ := hSets.within x o' ho'
    obtain ⟨rfl, rfl⟩ | h₁ := hExt.cases h₁
    · exact .inl ⟨rfl, hBare⟩
    · exact .inr ⟨o₁, h₁, hBare⟩

section Attached
variable {path oldpath newpath : CString} {mode : Nat}

theorem creat_attaches (hNext : fs.objs.get? fs.id = none) (h : fs.creat path mode = .ok fs') :
    ∃ nd, fs.findPath path parentNameiInit = .ok nd ∧
      fs.Attaches (fs.newFile mode).1 nd.1 nd.2 fs' := by
  obtain ⟨nd, hFind, h⟩ := bind_eq_ok h
  obtain ⟨⟨id, fs₁⟩, hAdd, hLink⟩ := bind_eq_ok h
  have hNext' : (fs.newFile mode).2.objs.get? (fs.newFile mode).2.id = none := hNext
  obtain ⟨_, h⟩ := attach_ok hNext' rfl hAdd hLink
  exact ⟨nd, hFind, h.free, h.entries, h.within, h.id, h.mnt, h.nameId⟩

theorem symlink_attaches (hNext : fs.objs.get? fs.id = none)
    (h : fs.symlink oldpath newpath = .ok fs') :
    ∃ nd, fs.findPath newpath parentNameiInit = .ok nd ∧
      fs.Attaches ⟨0, 0, 511, .symLink oldpath⟩ nd.1 nd.2 fs' := by
  obtain ⟨nd, hFind, h⟩ := bind_eq_ok h
  split_ifs at h
  obtain ⟨⟨id, fs₁⟩, hAdd, hLink⟩ := bind_eq_ok h
  exact ⟨nd, hFind, (attach_ok hNext rfl hAdd hLink).2⟩

theorem mkdir_attaches (hNext : fs.objs.get? fs.id = none) (h : fs.mkdir path mode = .ok fs') :
    ∃ nd fs₁ o, fs.findPath path parentNameiInit = .ok nd ∧
      fs.Attaches ⟨0, 0, mode, .dir ⟨.empty, none⟩⟩ nd.1 nd.2 fs₁ ∧
      fs₁.objs.get? fs.id = some o ∧
      fs' = fs₁.update fs.id { o with body := .dir ⟨o.entries, some nd.1⟩ } := by
  obtain ⟨nd, id, fs₁, fs₂, o, hFind, hAdd, hLink, hGet, rfl⟩ := mkdir_ok h
  obtain ⟨rfl, hAttach⟩ := attach_ok hNext rfl hAdd hLink
  exact ⟨nd, fs₂, o, hFind, hAttach, hGet, rfl⟩

end Attached

theorem Sets.trans {fs₁ : AbstFS} {child : Option Nat} (h : fs.Sets p name none fs₁)
    (h' : fs₁.Sets p name child fs') : fs.Sets p name child fs' where
  dir := h.dir
  entries x n := by
    rw [h'.entries, h.entries]
    split_ifs <;> rfl
  within x o₂ h₂ := by
    obtain ⟨o₁, h₁, hBare₁⟩ := h'.within x o₂ h₂
    obtain ⟨o, ho, hBare⟩ := h.within x o₁ h₁
    exact ⟨o, ho, hBare₁.trans hBare⟩
  kept x o ho hx := by
    obtain ⟨o₁, h₁⟩ := h.kept x o ho hx
    refine h'.kept x o₁ h₁ ?_
    rw [h.entries, if_pos rfl]
    exact nofun
  id := h'.id.trans h.id
  mnt := h'.mnt.trans h.mnt

theorem Keyed.sets {child : Option Nat} (h : fs.Keyed) (hSets : fs.Sets p name child fs')
    (hNe : fs.getEntry p name ≠ some 0) : fs'.Keyed where
  root := by
    obtain ⟨r, hr, hDir⟩ := h.root
    obtain ⟨r', hr'⟩ := hSets.kept 0 r hr hNe
    obtain ⟨r₁, h₁, hBare⟩ := hSets.within 0 r' hr'
    cases hr.symm.trans h₁
    exact ⟨r', hr', (Obj.type_of_bare hBare).trans hDir⟩
  keys x o' ho' := by
    obtain ⟨o, ho, hBare⟩ := hSets.within x o' ho'
    exact (Obj.id_of_bare hBare).trans (h.keys x o ho)

theorem Stored.sets {child : Option Nat} (h : fs.Stored) (hSets : fs.Sets p name child fs')
    (hChild : ∀ c, child = some c → name.length < maxName ∧ c ≠ 0) : fs'.Stored where
  toKeyed := h.toKeyed.sets hSets fun hZero => by
    obtain ⟨o, ho, hn⟩ := getEntry_eq_some.mp hZero
    exact (formed_entry (h.formed p o ho) hn).2 rfl
  formed x o' ho' := by
    obtain ⟨o, ho, hBare⟩ := hSets.within x o' ho'
    refine Obj.formed_of_bare hBare (h.formed x o ho) fun n c hn => ?_
    have hEntry := getEntry_eq_some.mpr ⟨o', ho', hn⟩
    rw [hSets.entries] at hEntry
    split_ifs at hEntry with hx
    · cases hx
      exact hChild c hEntry
    · obtain ⟨o₁, h₁, hn₁⟩ := getEntry_eq_some.mp hEntry
      exact formed_entry (h.formed x o₁ h₁) hn₁

structure Adds (fs : AbstFS) (id : Nat) (type : ObjType) (fs' : AbstFS) : Prop where
  new : fs.objs.get? id = none
  get? : ∃ o : Obj, o.id = id ∧ o.type = type ∧ o.entries = .empty ∧ destroy o = .ok () ∧
    ∀ x, fs'.objs.get? x = if x = id then some o else fs.objs.get? x
  id : fs'.id = fs.id

theorem Adds.entries {id : Nat} {type : ObjType} (h : fs.Adds id type fs') (x : Nat) (n : Name) :
    fs'.getEntry x n = fs.getEntry x n := by
  obtain ⟨o, _, _, hEmpty, _, hGet⟩ := h.get?
  rw [getEntry_eq, getEntry_eq, hGet]
  split_ifs with hx
  · rw [hx, h.new, Option.bind_some, hEmpty]
    rfl
  · rfl

structure Writes (fs : AbstFS) (id : Nat) (fs' : AbstFS) : Prop where
  file : ∃ o f f', fs.objs.get? id = some o ∧ o.body = .file f ∧
    fs' = fs.update id { o with body := .file f' }

theorem Writes.entries {id : Nat} (h : fs.Writes id fs') (x : Nat) (n : Name) :
    fs'.getEntry x n = fs.getEntry x n := by
  obtain ⟨o, f, f', ho, hBody, rfl⟩ := h.file
  rw [getEntry_update]
  split_ifs with hx
  · rw [hx, getEntry_eq, ho, Option.bind_some, Obj.entries, Obj.entries, hBody]
  · rfl

end AbstFS

def Change.entry : Change → Option (Name × Option Nat)
  | addEntry name childId => some (name, some childId)
  | removeEntry name _ => some (name, none)
  | replaceEntry name _ newChildId => some (name, some newChildId)
  | _ => none

namespace Delta

def drops (d : Delta) (p : Nat) (name : Name) : Bool :=
  d.targetId = p && match d.change with
    | .removeEntry n _ => n = name
    | .replaceEntry n _ _ => n = name
    | _ => false

def adds (d : Delta) (id : Nat) : Bool := d.targetId = id && d.change.type = .add

end Delta

namespace AbstFS

section
variable {fs fs' : AbstFS}
  {d : Delta}

theorem changeDir_ok {id : Nat} {name : Name} {found : Option Nat} {call : FsResult AbstFS}
    (h : fs.changeDir id name found call = .ok (some fs')) :
    fs.getEntry id name = found ∧ call = .ok fs' := by
  rw [changeDir] at h
  split at h
  case h_1 => cases h
  case h_2 o ho =>
  split at h
  case h_2 => cases h
  case h_1 dir hBody =>
  split_ifs at h with hFound
  · constructor
    · rw [getEntry_eq, ho, Option.bind_some, entries_of_body hBody, hFound]
    · obtain ⟨_, hCall, hSome⟩ := map_eq_ok h
      rw [hCall, Option.some.inj hSome]
  · cases h

theorem changeFile_ok {id : Nat} {call : FileCall}
    (h : fs.changeFile id call = .ok (some fs')) : fs.Writes id fs' := by
  rw [changeFile] at h
  split at h
  case h_1 => cases h
  case h_2 o ho =>
  split at h
  case h_2 => cases h
  case h_1 f hBody =>
  obtain ⟨f', _, h⟩ := bind_eq_ok h
  cases h
  exact ⟨o, f, f', ho, hBody, rfl⟩

theorem newObj_fresh (fs : AbstFS) (type : ObjType) (mode : Nat) :
    (fs.newObj type mode).1.type = type ∧ (fs.newObj type mode).1.entries = .empty ∧
      destroy (fs.newObj type mode).1 = .ok () ∧ (fs.newObj type mode).2.objs = fs.objs ∧
      (fs.newObj type mode).2.id = fs.id := by
  cases type <;> exact ⟨rfl, rfl, rfl, rfl, rfl⟩

theorem newObj_adds {id : Nat} (type : ObjType) (mode : Nat) (hNew : fs.objs.get? id = none) :
    fs.Adds id type (((fs.newObj type mode).2.addNr (fs.newObj type mode).1.type 1).update id
      { (fs.newObj type mode).1 with id := id }) := by
  obtain ⟨hType, hEntries, hDestroy, hObjs, hId⟩ := newObj_fresh fs type mode
  refine ⟨hNew, ⟨{ (fs.newObj type mode).1 with id := id }, rfl, hType, hEntries, ?_, ?_⟩, hId⟩
  · exact hDestroy
  · intro x
    rw [← hObjs]
    exact get?_update _ id _ x

variable [Hashes]

theorem makeDeltaStable_ok (hKeys : fs.UnderIds) (h : fs.makeDeltaStable d = .ok (some fs')) :
    (∃ name child, d.change.entry = some (name, child) ∧ fs.Sets d.targetId name child fs' ∧
      (d.drops d.targetId name = true ∨ fs.getEntry d.targetId name = none)) ∨
      (∃ type mode, d.change = .add type mode ∧ fs.Adds d.targetId type fs') ∨
      d.isData = true ∧ fs.Writes d.targetId fs' := by
  obtain ⟨id, change⟩ := d
  cases change with
  | add type mode =>
    rw [makeDeltaStable] at h
    dsimp only at h
    split_ifs at h with hThere
    obtain ⟨hNew, _⟩ := not_or.mp hThere
    obtain ⟨_, hAdd, hSome⟩ := map_eq_ok h
    obtain ⟨_, _, hEnd⟩ := bind_eq_ok hAdd
    cases hSome
    cases hEnd
    exact .inr (.inl ⟨type, mode, rfl,
      newObj_adds type mode (Option.not_isSome_iff_eq_none.mp hNew)⟩)
  | truncate length => exact .inr (.inr ⟨rfl, changeFile_ok h⟩)
  | pwrite buf off => exact .inr (.inr ⟨rfl, changeFile_ok h⟩)
  | addEntry name childId =>
    obtain ⟨hFound, hLink⟩ := changeDir_ok h
    exact .inl ⟨name, some childId, rfl, (linkObj_sets hLink).2.2, .inr hFound⟩
  | removeEntry name childId =>
    obtain ⟨_, hUnlink⟩ := changeDir_ok h
    exact .inl ⟨name, none, rfl, (unlinkObj_sets hKeys hUnlink).2, .inl (by simp [Delta.drops])⟩
  | replaceEntry name oldChildId newChildId =>
    obtain ⟨_, hCall⟩ := changeDir_ok h
    obtain ⟨fs₁, hUnlink, hLink⟩ := bind_eq_ok hCall
    exact .inl ⟨name, some newChildId, rfl,
      (unlinkObj_sets hKeys hUnlink).2.trans (linkObj_sets hLink).2.2,
      .inl (by simp [Delta.drops])⟩

theorem makeDeltaStable_keys (hKeys : fs.UnderIds) (h : fs.makeDeltaStable d = .ok (some fs'))
    (x : Nat) (o' : Obj) (ho' : fs'.objs.get? x = some o') : o'.id = x := by
  rcases makeDeltaStable_ok hKeys h with ⟨name, child, _, hSets, _⟩ | ⟨type, mode, _, hAdds⟩ |
    ⟨_, hWrites⟩
  · obtain ⟨o, ho, hBare⟩ := hSets.within x o' ho'
    exact (Obj.id_of_bare hBare).trans (hKeys x o ho)
  · obtain ⟨o, hId, _, _, _, hGet⟩ := hAdds.get?
    rw [hGet] at ho'
    split_ifs at ho' with hx
    · cases ho'
      exact hId.trans hx.symm
    · exact hKeys x o' ho'
  · obtain ⟨o, f, f', ho, _, rfl⟩ := hWrites.file
    rcases get?_update_cases ho' with ⟨hx, rfl⟩ | ⟨_, ho'⟩
    · exact (hKeys _ o ho).trans hx.symm
    · exact hKeys x o' ho'

theorem makeDeltaStable_keeps (hKeys : fs.UnderIds) (h : fs.makeDeltaStable d = .ok (some fs'))
    {x c : Nat} {n : Name} (hEntry : fs.getEntry x n = some c) (hDrops : d.drops x n = false) :
    fs'.getEntry x n = some c := by
  rcases makeDeltaStable_ok hKeys h with ⟨name, child, _, hSets, hFound⟩ | ⟨type, mode, _, hAdds⟩ |
    ⟨_, hWrites⟩
  · rw [hSets.entries]
    split_ifs with hx
    · cases hx
      rcases hFound with hFound | hFound
      · cases hDrops.symm.trans hFound
      · cases hFound.symm.trans hEntry
    · exact hEntry
  · rw [hAdds.entries, hEntry]
  · rw [hWrites.entries, hEntry]

theorem makeDeltaStable_absent (hKeys : fs.UnderIds)
    (h : fs.makeDeltaStable d = .ok (some fs')) {x : Nat}
    (hNone : fs.objs.get? x = none) (hAdds : d.adds x = false) : fs'.objs.get? x = none := by
  by_contra hSome
  obtain ⟨o', ho'⟩ := Option.ne_none_iff_exists'.mp hSome
  rcases makeDeltaStable_ok hKeys h with ⟨name, child, _, hSets, _⟩ | ⟨type, mode, hAdd, hStep⟩ |
    ⟨_, hWrites⟩
  · obtain ⟨o, ho, _⟩ := hSets.within x o' ho'
    cases hNone.symm.trans ho
  · obtain ⟨o, _, _, _, _, hGet⟩ := hStep.get?
    rw [hGet] at ho'
    split_ifs at ho' with hx
    · simp [Delta.adds, hAdd, hx, Change.type] at hAdds
    · cases hNone.symm.trans ho'
  · obtain ⟨o, f, f', ho, _, rfl⟩ := hWrites.file
    obtain ⟨o₁, h₁⟩ := (exists_update_iff ho x).mp ⟨o', ho'⟩
    cases hNone.symm.trans h₁

end

end AbstFS

end Explode.Driver
