import Explode.Lib.SortedMap
import Explode.Driver.Archive

/-!
# The abstract file system

Objects are kept in a map by their ids, and a directory maps names to ids. The
root has the id 0. A pointer to an object is the id under which the map has it.
-/

namespace Explode.Driver

abbrev CString := Bytes

abbrev Name := CString

def maxPath : Nat := 4096

def maxName : Nat := 256

def maxDepth : Nat := maxPath / 2

def slash : UInt8 := 47

inductive ObjType
  | file
  | dir
  | symLink
  deriving DecidableEq, Repr

structure FileObj where
  size : Nat
  sig : Word
  d : Data

structure DirObj where
  entries : SortedMap Name Nat
  paren : Option Nat
  deriving DecidableEq

inductive Body
  | file (f : FileObj)
  | dir (d : DirObj)
  | symLink (path : CString)

def Body.type : Body → ObjType
  | file _ => .file
  | dir _ => .dir
  | symLink _ => .symLink

structure Obj where
  id : Nat
  ref : Int
  mode : Nat
  body : Body

namespace Obj

def type (o : Obj) : ObjType := o.body.type

def dir? (o : Obj) : Option DirObj :=
  match o.body with
  | .dir d => some d
  | _ => none

def file? (o : Obj) : Option FileObj :=
  match o.body with
  | .file f => some f
  | _ => none

def entries (o : Obj) : SortedMap Name Nat :=
  match o.body with
  | .dir d => d.entries
  | _ => .empty

def setEntries (o : Obj) (entries : SortedMap Name Nat) : Obj :=
  match o.body with
  | .dir d => { o with body := .dir { d with entries } }
  | _ => o

end Obj

inductive FsFailure
  | invalidPath
  | pathNotParsed
  | walkFailed
  | dangling
  | nullPointer
  | entryExists
  | noEntry
  | invalidId
  | notFile
  | notEmpty
  | symlinkTooLong
  | tooDeep
  | circle
  | badObject
  | deletedIterator
  | shortArchive
  | negative
  | nameTooLong
  | unknownType
  | orphan
  | badOrder
  | fdInUse
  | fdUnknown
  | wrongCall
  | badDelta
  | notApplied
  | notStarted
  | skipTable
  | data (f : DataFailure)
  deriving DecidableEq, Repr

abbrev FsResult := Except FsFailure

/-- What the constructor of a file finds in its memory: whether `_buf` is not null, and the bytes
of its later allocations. -/
abbrev FileMemory := Bool × (Nat → Nat → UInt8)

/-- The memory of each new file. -/
abbrev Memory := Nat → FileMemory

abbrev zeroMemory : Memory := fun _ => (false, fun _ _ => 0)

abbrev FileCall := FileObj → Except DataFailure FileObj

structure AbstFS where
  id : Nat
  nameId : Nat
  objs : SortedMap Nat Obj
  mnt : CString
  nr : ObjType → Int
  memory : Memory
  files : Nat

abbrev PathCall := AbstFS → CString → FsResult AbstFS

/-- `namei_t`. The name is what the buffer holds up to its first zero byte. -/
structure Namei where
  wantParent : Bool
  obj : Option Nat
  name : Name
  deriving DecidableEq

def nameiInit : Namei := ⟨false, none, []⟩

def parentNameiInit : Namei := ⟨true, none, []⟩

/-- The names of a path. A name runs to the first slash after its first character. -/
def splitNames : Name → CString → List Name
  | cur, [] => if cur.isEmpty then [] else [cur]
  | cur, c :: rest =>
    if c = slash ∧ ¬cur.isEmpty then cur :: splitNames [] rest else splitNames (cur ++ [c]) rest

def splitLast (path : CString) : Option (CString × Name) :=
  if slash ∈ path then
    some (((path.reverse.dropWhile (· ≠ slash)).drop 1).reverse,
      (path.reverse.takeWhile (· ≠ slash)).reverse)
  else none

inductive VisitStatus
  | cont
  | stop
  deriving DecidableEq, Repr

structure Visitor (σ : Type) where
  wantDangling : Bool
  preVisit : Option Obj → Option Name → Option Obj → σ → VisitStatus × σ
  postVisit : Option Obj → Option Name → Option Obj → σ → VisitStatus × σ

def visitEntries {σ : Type} (visit : Name → Nat → σ → FsResult (VisitStatus × σ)) :
    List (Name × Nat) → σ → FsResult (VisitStatus × σ)
  | [], s => .ok (.cont, s)
  | e :: rest, s => do
    let r ← visit e.1 e.2 s
    match r.1 with
    | .stop => .ok r
    | .cont => visitEntries visit rest r.2

namespace AbstFS

def walkNames (fs : AbstFS) : List Name → Nat → FsResult (Option Nat)
  | [], id => .ok (some id)
  | name :: rest, id =>
    match (fs.objs.get? id).bind Obj.dir? with
    | none => .error .pathNotParsed
    | some d =>
      if maxName ≤ name.length then .error .invalidPath
      else
        match d.entries.get? name with
        | none => .ok none
        | some child => if (fs.objs.get? child).isSome then fs.walkNames rest child
          else .error .dangling

/-- `walk_path`. It returns a negative number when it finds no object. The name is copied over the
one that the buffer had, without a zero byte after it. -/
def walkPath (fs : AbstFS) (path : CString) (nd : Namei) : FsResult Namei :=
  if ¬(0 < path.length ∧ path.length < maxPath) then .error .invalidPath
  else if path.head? ≠ some slash ∨ path.getLast? = some slash then .error .invalidPath
  else if ¬fs.mnt <+: path then .error .invalidPath
  else
    let rest := path.drop fs.mnt.length
    if nd.wantParent then
      match splitLast rest with
      | none => .error .invalidPath
      | some (front, name) =>
        if ¬(0 < name.length ∧ name.length < maxName) then .error .invalidPath
        else do
          let obj ← fs.walkNames (splitNames [] (front.drop 1)) 0
          pure { nd with obj := obj, name := name ++ nd.name.drop name.length }
    else do
      let obj ← fs.walkNames (splitNames [] (rest.drop 1)) 0
      pure { nd with obj := obj }

section
variable {σ : Type}

/-- `dfs_`, with the number of levels that are left before it throws. -/
def dfsAt (fs : AbstFS) (v : Visitor σ) :
    Nat → Option Obj → Option Name → Option Obj → σ → FsResult (VisitStatus × σ)
  | 0, _, _, _, _ => .error .tooDeep
  | _ + 1, parent, name, none, s =>
    if ¬v.wantDangling then .ok (.cont, s)
    else
      let pre := v.preVisit parent name none s
      match pre.1 with
      | .stop => .ok pre
      | .cont => .ok (v.postVisit parent name none pre.2)
  | levels + 1, parent, name, some obj, s =>
    let pre := v.preVisit parent name (some obj) s
    match pre.1 with
    | .stop => .ok pre
    | .cont => do
      let kids ← visitEntries
        (fun n id s => fs.dfsAt v levels (some obj) (some n) (fs.objs.get? id) s)
        obj.entries.entries pre.2
      match kids.1 with
      | .stop => .ok kids
      | .cont => .ok (.cont, (v.postVisit parent name (some obj) kids.2).2)

def dfs (fs : AbstFS) (v : Visitor σ) (s : σ) : FsResult (VisitStatus × σ) :=
  fs.dfsAt v maxDepth none none (fs.objs.get? 0) s

end

def circleDetector : Visitor (Bool × List Nat) where
  wantDangling := false
  preVisit _ _ obj s :=
    match obj with
    | none => (.cont, s)
    | some o => if o.id ∈ s.2 then (.stop, (true, s.2)) else (.cont, (s.1, o.id :: s.2))
  postVisit _ _ _ s := (.cont, (s.1, s.2.tail))

def detectCircle (fs : AbstFS) : FsResult Bool :=
  (fs.dfs circleDetector (false, [])).map fun r => r.2.1

def checkObjects (fs : AbstFS) : Bool := fs.objs.entries.all fun e => e.2.id = e.1

def internalCheck (fs : AbstFS) : FsResult Unit := do
  let found ← fs.detectCircle
  if found then .error .circle
  else if fs.checkObjects then .ok ()
  else .error .badObject

def update (fs : AbstFS) (id : Nat) (o : Obj) : AbstFS := { fs with objs := fs.objs.insert id o }

def addNr (fs : AbstFS) (t : ObjType) (n : Int) : AbstFS :=
  { fs with nr := Function.update fs.nr t (fs.nr t + n) }

def addObjAt (fs : AbstFS) (o : Obj) (id : Nat) : FsResult AbstFS := do
  let fs' := (fs.addNr o.type 1).update id { o with id := id }
  fs'.internalCheck
  pure fs'

def addNewObj (fs : AbstFS) (o : Obj) : FsResult (Nat × AbstFS) := do
  let fs' ← fs.addObjAt o fs.id
  pure (fs.id, { fs' with id := fs.id + 1 })

def addEntry (fs : AbstFS) (paren : Nat) (name : Name) (id : Nat) : FsResult AbstFS :=
  match fs.objs.get? paren with
  | none => .error .nullPointer
  | some o =>
    match o.body with
    | .dir d =>
      if (d.entries.get? name).isSome then .error .entryExists
      else if id = 0 then .error .invalidId
      else
        .ok (fs.update paren { o with body := .dir { d with entries := d.entries.insert name id } })
    | _ => .error .nullPointer

/-- `link_obj`. An object that is not there has no reference to count. -/
def linkObj (fs : AbstFS) (paren child : Nat) (name : Name) : FsResult AbstFS := do
  let fs' ← fs.addEntry paren name child
  match fs'.objs.get? child with
  | none => pure fs'
  | some o => pure (fs'.update child { o with ref := o.ref + 1 })

def destroy (o : Obj) : FsResult Unit :=
  match o.body with
  | .file f =>
    if f.d.regions.all DataRegion.internalCheck then .ok () else .error (.data .internalCheck)
  | _ => .ok ()

/-- `delete_obj`. Its loop over the entries of a directory uses an iterator after it has erased
its entry. -/
def deleteObj (fs : AbstFS) (o : Obj) : FsResult AbstFS :=
  if o.entries.entries.isEmpty then do
    destroy o
    pure { fs.addNr o.type (-1) with objs := fs.objs.erase o.id }
  else .error .deletedIterator

def unlinkObj (fs : AbstFS) (paren : Nat) (name : Name) : FsResult AbstFS :=
  match fs.objs.get? paren with
  | none => .error .nullPointer
  | some o =>
    match o.body with
    | .dir d =>
      match d.entries.get? name with
      | none => .error .noEntry
      | some id =>
        let fs' :=
          fs.update paren { o with body := .dir { d with entries := d.entries.erase name } }
        match fs'.objs.get? id with
        | none => .ok fs'
        | some child =>
          let child' := { child with ref := child.ref - 1 }
          if child'.ref = 0 then (fs'.update id child').deleteObj child'
          else .ok (fs'.update id child')
    | _ => .error .nullPointer

/-- `get_child`, which asserts that the entry is there. -/
def getChild (fs : AbstFS) (paren : Nat) (name : Name) : FsResult Nat :=
  match (fs.objs.get? paren).bind Obj.dir? with
  | none => .error .nullPointer
  | some d =>
    match d.entries.get? name with
    | none => .error .noEntry
    | some id => if (fs.objs.get? id).isSome then .ok id else .error .nullPointer

def findPath (fs : AbstFS) (path : CString) (nd : Namei) : FsResult (Nat × Name) := do
  let nd' ← fs.walkPath path nd
  match nd'.obj with
  | none => .error .walkFailed
  | some id => .ok (id, nd'.name)

def newFile (fs : AbstFS) (mode : Nat) : Obj × AbstFS :=
  let mem := fs.memory fs.files
  (⟨0, 0, mode, .file ⟨0, 0, .empty mem.1 mem.2⟩⟩, { fs with files := fs.files + 1 })

def creat (fs : AbstFS) (path : CString) (mode : Nat) : FsResult AbstFS := do
  let nd ← fs.findPath path parentNameiInit
  let (child, fs) := fs.newFile mode
  let (id, fs) ← fs.addNewObj child
  fs.linkObj nd.1 id nd.2

def link (fs : AbstFS) (oldpath newpath : CString) : FsResult AbstFS := do
  let nd ← fs.findPath oldpath nameiInit
  let ndNew ← fs.findPath newpath parentNameiInit
  fs.linkObj ndNew.1 nd.1 ndNew.2

def rename (fs : AbstFS) (oldpath newpath : CString) : FsResult AbstFS := do
  let ndOld ← fs.findPath oldpath parentNameiInit
  let oldObj ← fs.getChild ndOld.1 ndOld.2
  let ndNew ← fs.findPath newpath parentNameiInit
  let fs ← fs.linkObj ndNew.1 oldObj ndNew.2
  fs.unlinkObj ndOld.1 ndOld.2

def unlink (fs : AbstFS) (path : CString) : FsResult AbstFS := do
  let nd ← fs.findPath path parentNameiInit
  fs.unlinkObj nd.1 nd.2

def symlink (fs : AbstFS) (oldpath newpath : CString) : FsResult AbstFS := do
  let nd ← fs.findPath newpath parentNameiInit
  if maxPath ≤ oldpath.length then .error .symlinkTooLong
  else do
    let (id, fs) ← fs.addNewObj ⟨0, 0, 511, .symLink oldpath⟩
    fs.linkObj nd.1 id nd.2

/-- `mkdir`, which sets the parent of the new directory at its end. -/
def mkdir (fs : AbstFS) (path : CString) (mode : Nat) : FsResult AbstFS := do
  let nd ← fs.findPath path parentNameiInit
  let (id, fs) ← fs.addNewObj ⟨0, 0, mode, .dir ⟨.empty, none⟩⟩
  let fs ← fs.linkObj nd.1 id nd.2
  match fs.objs.get? id with
  | none => .error .nullPointer
  | some o => pure (fs.update id { o with body := .dir ⟨o.entries, some nd.1⟩ })

def rmdir (fs : AbstFS) (path : CString) : FsResult AbstFS := do
  let nd ← fs.findPath path parentNameiInit
  match (fs.objs.get? nd.1).bind Obj.dir? with
  | none => .error .nullPointer
  | some d =>
    match ((d.entries.get? nd.2).bind fs.objs.get?).bind Obj.dir? with
    | none => .error .notEmpty
    | some child =>
      if child.entries.entries.isEmpty then fs.unlinkObj nd.1 nd.2 else .error .notEmpty

def stat (fs : AbstFS) (path : CString) : FsResult (Option Nat) :=
  (fs.walkPath path nameiInit).map Namei.obj

end AbstFS

section
variable [Hashes]

def liftData {α : Type} : Except DataFailure α → FsResult α
  | .ok a => .ok a
  | .error f => .error (.data f)

def dataSig (d : Data) : Word := explodeHash (canonData d)

namespace FileObj

def pwrite (f : FileObj) (buf : Bytes) (off : Nat) : Except DataFailure FileObj := do
  let d ← f.d.pwrite buf off
  pure
    { size := if f.size < off + buf.length then off + buf.length else f.size
      sig := dataSig d
      d := d }

def truncate (f : FileObj) (length : Nat) : Except DataFailure FileObj := do
  let d ← f.d.truncate length
  pure { size := length, sig := dataSig d, d := d }

end FileObj

inductive FsOp
  | creat (path : CString) (mode : Nat)
  | mkdir (path : CString) (mode : Nat)
  | symlink (oldpath newpath : CString)
  | link (oldpath newpath : CString)
  | unlink (path : CString)
  | rmdir (path : CString)
  | rename (oldpath newpath : CString)
  | pwrite (path : CString) (buf : Bytes) (off : Nat)
  | truncate (path : CString) (length : Nat)
  deriving DecidableEq, Repr

namespace AbstFS

def onFile (fs : AbstFS) (path : CString) (call : FileCall) :
    FsResult AbstFS := do
  let nd ← fs.findPath path nameiInit
  match fs.objs.get? nd.1 with
  | none => .error .nullPointer
  | some o =>
    match o.body with
    | .file f => do
      let f' ← liftData (call f)
      pure (fs.update nd.1 { o with body := .file f' })
    | _ => .error .notFile

def pwrite (fs : AbstFS) (path : CString) (buf : Bytes) (off : Nat) : FsResult AbstFS :=
  fs.onFile path fun f => f.pwrite buf off

def truncate (fs : AbstFS) (path : CString) (length : Nat) : FsResult AbstFS :=
  fs.onFile path fun f => f.truncate length

def apply (fs : AbstFS) : FsOp → FsResult AbstFS
  | .creat path mode => fs.creat path mode
  | .mkdir path mode => fs.mkdir path mode
  | .symlink oldpath newpath => fs.symlink oldpath newpath
  | .link oldpath newpath => fs.link oldpath newpath
  | .unlink path => fs.unlink path
  | .rmdir path => fs.rmdir path
  | .rename oldpath newpath => fs.rename oldpath newpath
  | .pwrite path buf off => fs.pwrite path buf off
  | .truncate path length => fs.truncate path length

def run (fs : AbstFS) (ops : List FsOp) : FsResult AbstFS :=
  ops.foldlM (fun fs op => fs.apply op) fs

end AbstFS

end

namespace AbstFS

/-- A file system after `init`, with the mode of its root. -/
def init (mnt : CString) (memory : Memory) : AbstFS where
  id := 1
  nameId := 1
  objs := SortedMap.empty.insert 0 ⟨0, 0, 511, .dir ⟨.empty, none⟩⟩
  mnt := mnt
  nr := fun _ => 0
  memory := memory
  files := 0

end AbstFS

abbrev emptyFS : AbstFS := .init [] zeroMemory

end Explode.Driver
