import Mathlib.Data.List.TakeWhile
import Explode.Driver.Entries

/-!
# Walks before and after a call

A path is cut into the names of its directories and a last name. A call keeps
the types of the objects, and it gives a new object only to a name that had
none.
-/

namespace Explode.Driver

open Loop

theorem splitLast_eq {path front : CString} {name : Name}
    (h : splitLast path = some (front, name)) : path = front ++ slash :: name ∧ slash ∉ name := by
  rw [splitLast] at h
  split_ifs at h with hMem
  cases h
  have hDrop : path.reverse.dropWhile (· ≠ slash) ≠ [] := by
    intro hNil
    simpa using List.dropWhile_eq_nil_iff.mp hNil slash (List.mem_reverse.mpr hMem)
  constructor
  · have hHead : slash :: (path.reverse.dropWhile (· ≠ slash)).drop 1 =
        path.reverse.dropWhile (· ≠ slash) := by
      have hFirst : ¬((path.reverse.dropWhile (· ≠ slash)).head hDrop ≠ slash) := by
        simpa using List.head_dropWhile_not (fun c => decide (c ≠ slash)) hDrop
      have hCons := List.cons_head_tail hDrop
      rw [not_not.mp hFirst] at hCons
      rw [List.drop_one, hCons]
    have hSplit := List.takeWhile_append_dropWhile (p := fun c => decide (c ≠ slash))
      (l := path.reverse)
    rw [← hHead] at hSplit
    simpa using congrArg List.reverse hSplit.symm
  · intro hIn
    simpa using List.mem_takeWhile_imp (List.mem_reverse.mp hIn)

theorem splitNames_slashless (cur : Name) {name : Name} (h : slash ∉ name)
    (hNe : cur ++ name ≠ []) : splitNames cur name = [cur ++ name] := by
  induction name generalizing cur with
  | nil =>
    rw [List.append_nil] at hNe
    simp [splitNames, hNe]
  | cons c rest ih =>
    obtain ⟨hc, hRest⟩ := not_or.mp (mt List.mem_cons.mpr h)
    rw [splitNames, if_neg fun hSlash => hc hSlash.1.symm, ih (cur ++ [c]) hRest (by simp)]
    simp

theorem splitNames_append (cur : Name) (front : CString) {name : Name} (h : slash ∉ name)
    (hNe : name ≠ []) :
    splitNames cur (front ++ slash :: name) = splitNames cur front ++ [name] ∨
      splitNames cur (front ++ slash :: name) = splitNames cur front ++ [slash :: name] := by
  induction front generalizing cur with
  | nil =>
    rw [List.nil_append, splitNames, splitNames]
    split_ifs with hSlash hEmpty hEmpty
    · exact absurd hEmpty hSlash.2
    · left
      rw [splitNames_slashless [] h hNe]
      rfl
    · right
      rw [splitNames_slashless (cur ++ [slash]) h (by simp), List.isEmpty_iff.mp hEmpty]
      rfl
    · exact absurd ⟨rfl, hEmpty⟩ hSlash
  | cons c rest ih =>
    rw [List.cons_append, splitNames, splitNames]
    split_ifs
    · simpa using ih []
    · exact ih (cur ++ [c])

namespace AbstFS

variable {fs fs' : AbstFS} {names : List Name} {name : Name} {path : CString}

theorem walkNames_cons {id x : Nat} (h : fs.walkNames (name :: names) id = .ok (some x)) :
    ∃ child, fs.getEntry id name = some child ∧ fs.walkNames names child = .ok (some x) := by
  rw [walkNames] at h
  split at h
  case h_1 => cases h
  case h_2 d hDir =>
  split_ifs at h
  split at h
  case h_1 => cases h
  case h_2 child hEntry =>
  split_ifs at h
  refine ⟨child, ?_, h⟩
  rw [getEntry, hDir]
  exact hEntry

theorem walkNames_concat {id x : Nat} (h : fs.walkNames (names ++ [name]) id = .ok (some x)) :
    ∃ p, fs.walkNames names id = .ok (some p) ∧ fs.getEntry p name = some x := by
  induction names generalizing id with
  | nil =>
    obtain ⟨child, hEntry, hEnd⟩ := walkNames_cons h
    cases hEnd
    exact ⟨id, rfl, hEntry⟩
  | cons first rest ih =>
    rw [List.cons_append, walkNames] at h
    rw [walkNames]
    split at h
    case h_1 => cases h
    case h_2 d hDir =>
    split_ifs at h with hLength
    split at h
    case h_1 => cases h
    case h_2 child hEntry =>
    split_ifs at h with hChild
    rw [if_neg hLength]
    rw [if_pos hChild]
    exact ih h

def Agrees (fs fs' : AbstFS) : Prop :=
  ∀ p n a b, fs.getEntry p n = some a → fs'.getEntry p n = some b → a = b

theorem walkNames_agree (hAgree : fs.Agrees fs') {id x y : Nat}
    (h : fs.walkNames names id = .ok (some x)) (h' : fs'.walkNames names id = .ok (some y)) :
    x = y := by
  induction names generalizing id with
  | nil =>
    cases h
    cases h'
    rfl
  | cons name rest ih =>
    obtain ⟨c, hc, hRest⟩ := walkNames_cons h
    obtain ⟨c', hc', hRest'⟩ := walkNames_cons h'
    cases hAgree id name c c' hc hc'
    exact ih hRest hRest'

theorem findPath_parent_agree (hAgree : fs.Agrees fs') (hMnt : fs'.mnt = fs.mnt) {nd nd' : Namei}
    (hWant : nd.wantParent = true) (hWant' : nd'.wantParent = true) {r r' : Nat × Name}
    (h : fs.findPath path nd = .ok r) (h' : fs'.findPath path nd' = .ok r') : r.1 = r'.1 := by
  rcases findPath_walk h with ⟨hNot, _⟩ | ⟨_, front, name, hSplit, _, hNames, _⟩
  · cases hNot.symm.trans hWant
  · rcases findPath_walk h' with ⟨hNot, _⟩ | ⟨_, front', name', hSplit', _, hNames', _⟩
    · cases hNot.symm.trans hWant'
    · rw [hMnt] at hSplit'
      cases hSplit.symm.trans hSplit'
      exact walkNames_agree hAgree hNames hNames'

theorem findPath_parent_name {r : Nat × Name} (h : fs.findPath path parentNameiInit = .ok r) :
    (∃ front, splitLast (path.drop fs.mnt.length) = some (front, r.2)) ∧ slash ∉ r.2 := by
  rcases findPath_walk h with ⟨hNot, _⟩ | ⟨_, front, name, hSplit, _, _, hName⟩
  · cases hNot
  · have hSame : r.2 = name := by simpa [parentNameiInit] using hName
    rw [hSame]
    exact ⟨⟨front, hSplit⟩, (splitLast_eq hSplit).2⟩

theorem findPath_parent_same (hAgree : fs.Agrees fs') (hMnt : fs'.mnt = fs.mnt)
    {r r' : Nat × Name} (h : fs.findPath path parentNameiInit = .ok r)
    (h' : fs'.findPath path parentNameiInit = .ok r') : r = r' := by
  obtain ⟨⟨front, hSplit⟩, _⟩ := findPath_parent_name h
  obtain ⟨⟨front', hSplit'⟩, _⟩ := findPath_parent_name h'
  rw [hMnt, hSplit] at hSplit'
  refine Prod.ext (findPath_parent_agree hAgree hMnt rfl rfl h h') ?_
  exact (Prod.mk.inj (Option.some.inj hSplit')).2

def Slashless (fs : AbstFS) : Prop := ∀ p n c, fs.getEntry p n = some c → slash ∉ n

theorem walkNames_last (hSlashless : fs.Slashless) {front : CString} (hName : slash ∉ name)
    (hNe : name ≠ []) {x : Nat}
    (h : fs.walkNames (splitNames [] ((front ++ slash :: name).drop 1)) 0 = .ok (some x)) :
    ∃ p, fs.walkNames (splitNames [] (front.drop 1)) 0 = .ok (some p) ∧
      fs.getEntry p name = some x := by
  have hNames : splitNames [] ((front ++ slash :: name).drop 1) =
        splitNames [] (front.drop 1) ++ [name] ∨
      splitNames [] ((front ++ slash :: name).drop 1) =
        splitNames [] (front.drop 1) ++ [slash :: name] := by
    cases front with
    | nil => exact .inl (splitNames_slashless [] hName hNe)
    | cons c rest => exact splitNames_append [] rest hName hNe
  rcases hNames with hNames | hNames
  · rw [hNames] at h
    exact walkNames_concat h
  · rw [hNames] at h
    obtain ⟨p, _, hEntry⟩ := walkNames_concat h
    exact absurd List.mem_cons_self (hSlashless p _ _ hEntry)

theorem findPath_entry (hSlashless : fs.Slashless) {r parent : Nat × Name}
    (h : fs.findPath path nameiInit = .ok r)
    (hParent : fs.findPath path parentNameiInit = .ok parent) :
    fs.getEntry parent.1 parent.2 = some r.1 := by
  obtain ⟨⟨_, hLast⟩, hName⟩ := findPath_parent_name hParent
  rcases findPath_walk hParent with ⟨hNot, _⟩ | ⟨_, front, name, hSplit, hLength, hFront, _⟩
  · cases hNot
  · obtain ⟨rfl, rfl⟩ := Prod.mk.inj (Option.some.inj (hSplit.symm.trans hLast))
    rcases findPath_walk h with ⟨_, hFull⟩ | ⟨hNot, _⟩
    · rw [(splitLast_eq hSplit).1] at hFull
      obtain ⟨p, hp, hEntry⟩ :=
        walkNames_last hSlashless hName (List.ne_nil_of_length_pos hLength.1) hFull
      cases hFront.symm.trans hp
      exact hEntry
    · cases hNot

theorem getEntry_same {p : Nat} {o o' : Obj} (hGet : fs.objs.get? p = some o)
    (hEntries : o'.entries = o.entries) (x : Nat) (n : Name) :
    (fs.update p o').getEntry x n = fs.getEntry x n := by
  rw [getEntry_update]
  split_ifs with hx
  · rw [hx, getEntry_eq, hGet, Option.bind_some, hEntries]
  · rfl

theorem getEntry_of_getChild {p c : Nat} (h : fs.getChild p name = .ok c) :
    fs.getEntry p name = some c := by
  obtain ⟨o, _, hp, hEntry, _⟩ := getChild_ok h
  exact getEntry_eq_some.mpr ⟨o, hp, hEntry⟩

structure Evolves (fs : AbstFS) (new : Option ObjType) (fs' : AbstFS) : Prop where
  mnt : fs'.mnt = fs.mnt
  id : fs'.id = fs.id + new.toList.length
  types : ∀ x o', fs'.objs.get? x = some o' →
    (∃ o, fs.objs.get? x = some o ∧ o'.type = o.type) ∨ x = fs.id ∧ new = some o'.type
  entries : ∀ p n c, fs'.getEntry p n = some c →
    fs.getEntry p n = some c ∨ fs.getEntry p n = none ∧ slash ∉ n

def HasParent (fs : AbstFS) (path : CString) : Prop :=
  ∃ nd o, fs.findPath path parentNameiInit = .ok nd ∧ fs.objs.get? nd.1 = some o ∧ o.type = .dir

namespace Evolves

variable {new : Option ObjType} {fs₁ : AbstFS} {p : Nat} {o o' : Obj}

theorem agrees (h : fs.Evolves new fs') : fs.Agrees fs' := by
  intro p n a b ha hb
  rcases h.entries p n b hb with hOld | ⟨hNone, _⟩
  · exact Option.some.inj (ha.symm.trans hOld)
  · cases hNone.symm.trans ha

theorem slashless (h : fs.Evolves new fs') (hSlashless : fs.Slashless) : fs'.Slashless := by
  intro p n c hEntry
  rcases h.entries p n c hEntry with hOld | ⟨_, hName⟩
  · exact hSlashless p n c hOld
  · exact hName

theorem refl (fs : AbstFS) : fs.Evolves none fs :=
  ⟨rfl, rfl, fun _ o ho => .inl ⟨o, ho, rfl⟩, fun _ _ _ hEntry => .inl hEntry⟩

theorem sets (h : fs.Evolves new fs₁) {child : Option Nat} (hSets : fs₁.Sets p name child fs')
    (hNew : child ≠ none → fs.getEntry p name = none ∧ slash ∉ name) : fs.Evolves new fs' where
  mnt := hSets.mnt.trans h.mnt
  id := hSets.id.trans h.id
  types x o' ho' := by
    obtain ⟨o₁, h₁, hBare⟩ := hSets.within x o' ho'
    rw [Obj.type_of_bare hBare]
    exact h.types x o₁ h₁
  entries q n c hEntry := by
    rw [hSets.entries] at hEntry
    split_ifs at hEntry with hx
    · cases hx
      exact .inr (hNew (by rw [hEntry]; exact Option.some_ne_none c))
    · exact h.entries q n c hEntry

theorem update_same (h : fs.Evolves new fs₁) (hGet : fs₁.objs.get? p = some o)
    (hType : o'.type = o.type) (hEntries : o'.entries = o.entries) :
    fs.Evolves new (fs₁.update p o') where
  mnt := h.mnt
  id := h.id
  types x o₂ h₂ := by
    rcases get?_update_cases h₂ with ⟨rfl, rfl⟩ | ⟨_, h₂⟩
    · rw [hType]
      exact h.types x o hGet
    · exact h.types x o₂ h₂
  entries q n c hEntry := by
    rw [getEntry_same hGet hEntries] at hEntry
    exact h.entries q n c hEntry

end Evolves

theorem Attaches.evolves {o : Obj} {p : Nat} (h : fs.Attaches o p name fs') (hName : slash ∉ name) :
    fs.Evolves (some o.type) fs' where
  mnt := h.mnt
  id := h.id
  types x o' ho' := by
    obtain ⟨hx, hBare⟩ | ⟨o₁, h₁, hBare⟩ := h.within x o' ho'
    · exact .inr ⟨hx, congrArg some (Obj.type_of_bare hBare).symm⟩
    · exact .inl ⟨o₁, h₁, Obj.type_of_bare hBare⟩
  entries q n c hEntry := by
    rw [h.entries] at hEntry
    split_ifs at hEntry with hx
    · cases hx
      exact .inr ⟨h.free, hName⟩
    · exact .inl hEntry

section Calls
variable {oldpath newpath : CString} {mode : Nat}

theorem creat_evolves (h : fs.Consistent fun _ => 0) (hCall : fs.creat path mode = .ok fs') :
    fs.Evolves (some .file) fs' ∧
      ∃ nd, fs.findPath path parentNameiInit = .ok nd ∧ fs'.getEntry nd.1 nd.2 = some fs.id := by
  obtain ⟨nd, hFind, hAttach⟩ := creat_attaches h.get?_next hCall
  exact ⟨hAttach.evolves (findPath_parent_name hFind).2, nd, hFind,
    (hAttach.entries nd.1 nd.2).trans (if_pos rfl)⟩

theorem mkdir_evolves (h : fs.Consistent fun _ => 0) (hCall : fs.mkdir path mode = .ok fs') :
    fs.Evolves (some .dir) fs' ∧
      ∃ nd, fs.findPath path parentNameiInit = .ok nd ∧ fs'.getEntry nd.1 nd.2 = some fs.id := by
  obtain ⟨nd, fs₁, o, hFind, hAttach, hGet, rfl⟩ := mkdir_attaches h.get?_next hCall
  have hEvolves := hAttach.evolves (findPath_parent_name hFind).2
  have hDir : o.type = .dir := by
    rcases hEvolves.types fs.id o hGet with ⟨o₀, h₀, _⟩ | ⟨_, hType⟩
    · cases h.get?_next.symm.trans h₀
    · exact (Option.some.inj hType).symm
  refine ⟨hEvolves.update_same hGet hDir.symm rfl, nd, hFind, ?_⟩
  rw [getEntry_same hGet (by rfl), hAttach.entries, if_pos rfl]

theorem link_evolves (hCall : fs.link oldpath newpath = .ok fs') : fs.Evolves none fs' := by
  obtain ⟨nd, _, hCall⟩ := bind_eq_ok hCall
  obtain ⟨ndNew, hNew, hLink⟩ := bind_eq_ok hCall
  obtain ⟨hNone, _, hSets⟩ := linkObj_sets hLink
  exact (Evolves.refl fs).sets hSets fun _ => ⟨hNone, (findPath_parent_name hNew).2⟩

theorem unlinkObj_evolves (hKeys : fs.UnderIds) {nd : Nat × Name}
    (hFind : fs.findPath path parentNameiInit = .ok nd)
    (hUnlink : fs.unlinkObj nd.1 nd.2 = .ok fs') :
    fs.Evolves none fs' ∧ fs.HasParent path := by
  obtain ⟨_, hSets⟩ := unlinkObj_sets hKeys hUnlink
  obtain ⟨o, ho, hDir⟩ := hSets.dir
  exact ⟨(Evolves.refl fs).sets hSets (absurd rfl), nd, o, hFind, ho, hDir⟩

theorem unlink_evolves (h : fs.Consistent fun _ => 0) (hCall : fs.unlink path = .ok fs') :
    fs.Evolves none fs' ∧ fs.HasParent path := by
  obtain ⟨nd, hFind, hUnlink⟩ := bind_eq_ok hCall
  exact unlinkObj_evolves (fun id o ho => h.keys id o ho) hFind hUnlink

theorem rmdir_evolves (h : fs.Consistent fun _ => 0) (hCall : fs.rmdir path = .ok fs') :
    fs.Evolves none fs' ∧ fs.HasParent path := by
  obtain ⟨nd, hFind, hUnlink⟩ := rmdir_ok hCall
  exact unlinkObj_evolves (fun id o ho => h.keys id o ho) hFind hUnlink

theorem rename_sets (hKeys : fs.UnderIds) (hCall : fs.rename oldpath newpath = .ok fs') :
    ∃ old new c fs₁, fs.findPath oldpath parentNameiInit = .ok old ∧
      fs.findPath newpath parentNameiInit = .ok new ∧ fs.getEntry old.1 old.2 = some c ∧
      fs.getEntry new.1 new.2 = none ∧ c ≠ 0 ∧ fs.Sets new.1 new.2 (some c) fs₁ ∧
      fs₁.Sets old.1 old.2 none fs' := by
  obtain ⟨old, hOld, hCall⟩ := bind_eq_ok hCall
  obtain ⟨c, hChild, hCall⟩ := bind_eq_ok hCall
  obtain ⟨new, hNew, hCall⟩ := bind_eq_ok hCall
  obtain ⟨fs₁, hLink, hUnlink⟩ := bind_eq_ok hCall
  obtain ⟨hNone, hZero, hSets⟩ := linkObj_sets hLink
  exact ⟨old, new, c, fs₁, hOld, hNew, getEntry_of_getChild hChild, hNone, hZero, hSets,
    (unlinkObj_sets (linkObj_keys hKeys hLink) hUnlink).2⟩

theorem rename_evolves (h : fs.Consistent fun _ => 0)
    (hCall : fs.rename oldpath newpath = .ok fs') :
    fs.Evolves none fs' ∧ fs.HasParent oldpath := by
  obtain ⟨old, new, c, fs₁, hOld, hNew, hEntry, hNone, _, hLinked, hUnlinked⟩ :=
    rename_sets (fun id o ho => h.keys id o ho) hCall
  obtain ⟨o, ho, hn⟩ := getEntry_eq_some.mp hEntry
  refine ⟨?_, old, o, hOld, ho, dir_of_entry hn⟩
  exact ((Evolves.refl fs).sets hLinked fun _ => ⟨hNone, (findPath_parent_name hNew).2⟩).sets
    hUnlinked (absurd rfl)

theorem onFile_evolves {call : FileCall}
    (hCall : fs.onFile path call = .ok fs') : fs.Evolves none fs' := by
  obtain ⟨nd, o, f, f', _, hGet, hBody, _, rfl⟩ := onFile_ok hCall
  exact (Evolves.refl fs).update_same hGet (type_setFile hBody f') (entries_setFile hBody f')

end Calls

end AbstFS

end Explode.Driver
