import Explode.Lib.Decimal
import Explode.Driver.BackPaths

/-!
# Paths for new objects

A new name is the next number of a counter, with zeros before it, and a new path
is the path of some directory with a new name at its end.
-/

namespace Explode.Driver

open Relation Loop Decimal

/-- `id_to_name`. The number would be written before the buffer if it did not fit. -/
def idToName (nameId len : Nat) : FsResult Name :=
  let tmp := printInt (toInt nameId)
  if tmp.length < len then .ok (List.replicate (len - 1 - tmp.length) 48 ++ tmp)
  else .error .nameTooLong

def nameToId (name : Option Name) : Int := (name.map atoi).getD 0

namespace AbstFS

/-- `new_name`. The counter is an `int`, here with its 32 bits as a number. -/
def newName (fs : AbstFS) (nameLen : Nat) : FsResult (Name × AbstFS) := do
  let name ← idToName fs.nameId nameLen
  pure (name, { fs with nameId := (fs.nameId + 1) % 4294967296 })

def chooseIf (fs : AbstFS) (pred : Obj → Bool) (choose : Nat → Nat) (path : CString)
    (pathLen : Nat) : FsResult CString :=
  let qualified := (fs.objs.entries.map Prod.snd).filter pred
  if qualified.isEmpty then .ok path
  else
    match qualified[choose qualified.length]? with
    | none => .error .invalidId
    | some o => fs.findBackPath o.id path pathLen

def isDir (o : Obj) : Bool := o.type = .dir

def chooseDir (fs : AbstFS) (choose : Nat → Nat) (path : CString) (pathLen : Nat) :
    FsResult CString :=
  fs.chooseIf isDir choose path pathLen

/-- `new_path`, with the option `name_len` and with what the buffer holds before it. -/
def newPath (fs : AbstFS) (nameLen : Nat) (choose : Nat → Nat) (path : CString) (pathLen : Nat) :
    FsResult (CString × AbstFS) := do
  let path ← fs.chooseDir choose path pathLen
  if maxName < nameLen then .error .nameTooLong
  else do
    let (name, fs) ← fs.newName nameLen
    if 1 + path.length + name.length < pathLen then pure (path ++ slash :: name, fs)
    else .error .invalidPath

end AbstFS

section Names
variable {k len : Nat} {name : Name}

theorem atoi_idToName (h : idToName k len = .ok name) (hk : k < 2147483648) : atoi name = k := by
  rw [idToName, toInt_of_lt hk] at h
  split_ifs at h
  cases h
  exact atoi_padded hk _

theorem printInt_ne_nil (x : Int) : printInt x ≠ [] := by
  rw [printInt]
  split_ifs
  · exact List.cons_ne_nil _ _
  · exact digits_ne_nil 9 _

theorem idToName_eq (h : idToName k len = .ok name) :
    ∃ pad, name = List.replicate pad 48 ++ printInt (toInt k) := by
  rw [idToName] at h
  split_ifs at h
  exact ⟨_, (Except.ok.inj h).symm⟩

theorem idToName_ne_nil (h : idToName k len = .ok name) : name ≠ [] := by
  obtain ⟨pad, rfl⟩ := idToName_eq h
  exact List.append_ne_nil_of_right_ne_nil _ (printInt_ne_nil _)

theorem slash_notMem_idToName (h : idToName k len = .ok name) : slash ∉ name := by
  obtain ⟨pad, rfl⟩ := idToName_eq h
  intro hMem
  obtain hZero | hPrint := List.mem_append.mp hMem
  · exact absurd (List.eq_of_mem_replicate hZero) (by decide)
  · rw [printInt] at hPrint
    have hDigit : ∀ n, slash ∉ digits 10 n := fun n hn =>
      absurd (isDigit_of_mem_digits hn) (by decide)
    split_ifs at hPrint
    · obtain hMinus | hRest := List.mem_cons.mp hPrint
      · exact absurd hMinus (by decide)
      · exact hDigit _ hRest
    · exact hDigit _ hPrint

end Names

namespace AbstFS

variable {fs fs' : AbstFS} {choose : Nat → Nat} {path path' : CString} {nameLen pathLen x : Nat}

def DirsReached (fs : AbstFS) : Prop :=
  ∀ x o, fs.objs.get? x = some o → o.type = .dir → ReflTransGen fs.Child 0 x

theorem chooseDir_front (hStored : fs.Stored)
    (hMnt : fs.DirsReached ∨ fs.mnt.length ≤ path.length) {front : CString}
    (h : fs.chooseDir choose path pathLen = .ok front) : fs.mnt.length ≤ front.length := by
  obtain ⟨r, hr, hDir⟩ := hStored.root
  have hRoot : r ∈ (fs.objs.entries.map Prod.snd).filter isDir := by
    rw [List.mem_filter]
    exact ⟨List.mem_map.mpr ⟨(0, r), SortedMap.get?_eq_some.mp hr, rfl⟩, decide_eq_true hDir⟩
  rw [chooseDir, chooseIf, if_neg (by simpa using List.ne_nil_of_mem hRoot)] at h
  split at h
  case h_1 => cases h
  case h_2 o hChosen =>
  obtain ⟨hMem, hType⟩ := List.mem_filter.mp (List.mem_of_getElem? hChosen)
  obtain ⟨⟨x, o⟩, he, rfl⟩ := List.mem_map.mp hMem
  have ho := SortedMap.get?_eq_some.mpr he
  have hId := hStored.keys x o ho
  rw [← hId] at ho
  obtain ⟨rfl, hNot⟩ | ⟨names, _, rfl⟩ := findBackPath_front hStored.keys ⟨o, ho⟩ h
  · exact hMnt.resolve_left fun hDirs => hNot (hDirs o.id o ho (of_decide_eq_true hType))
  · rw [List.length_append]
    exact Nat.le_add_right _ _

theorem newPath_ok (h : fs.newPath nameLen choose path pathLen = .ok (path', fs')) :
    ∃ front name, fs.chooseDir choose path pathLen = .ok front ∧
      idToName fs.nameId nameLen = .ok name ∧ path' = front ++ slash :: name ∧
      fs' = { fs with nameId := (fs.nameId + 1) % 4294967296 } := by
  obtain ⟨front, hFront, h⟩ := bind_eq_ok h
  split_ifs at h
  obtain ⟨⟨name, fs₁⟩, hName, h⟩ := bind_eq_ok h
  obtain ⟨n, hn, hEnd⟩ := bind_eq_ok hName
  cases hEnd
  dsimp only at h
  split_ifs at h
  cases h
  exact ⟨front, name, hFront, hn, rfl, rfl⟩

def PathExists (fs : AbstFS) (path : CString) : Prop :=
  ∃ nd x, fs.walkPath path nameiInit = .ok nd ∧ nd.obj = some x

instance (fs : AbstFS) : DecidablePred fs.PathExists := fun path =>
  decidable_of_iff (Returns (fun nd => nd.obj.isSome) (fun _ => False)
    (fs.walkPath path nameiInit)) <| by
    constructor
    · intro h
      obtain ⟨nd, hWalk, hSome⟩ := h.exists_ok
      exact ⟨nd, _, hWalk, (Option.some_get hSome).symm⟩
    · rintro ⟨nd, x, hWalk, hObj⟩
      rw [hWalk]
      exact Option.isSome_iff_exists.mpr ⟨x, hObj⟩

theorem newPath_not_exists (hStored : fs.Stored) (hSlashless : fs.Slashless)
    (hMnt : fs.DirsReached ∨ fs.mnt.length ≤ path.length)
    (hNew : ∀ p name c, idToName fs.nameId nameLen = .ok name → fs.getEntry p name ≠ some c)
    (h : fs.newPath nameLen choose path pathLen = .ok (path', fs')) : ¬fs.PathExists path' := by
  obtain ⟨front, name, hFront, hName, rfl, _⟩ := newPath_ok h
  have hLength := chooseDir_front hStored hMnt hFront
  rintro ⟨nd, x, hWalk, hObj⟩
  have hFind : fs.findPath (front ++ slash :: name) nameiInit = .ok (x, nd.name) := by
    simp only [findPath, hWalk, hObj, bind, Except.bind]
  obtain ⟨_, hFull⟩ | ⟨hNot, _⟩ := findPath_walk hFind
  · rw [List.drop_append_of_le_length hLength] at hFull
    obtain ⟨p, _, hEntry⟩ := walkNames_last hSlashless (slash_notMem_idToName hName)
      (idToName_ne_nil hName) hFull
    exact hNew p name x hName hEntry
  · cases hNot

end AbstFS

end Explode.Driver
