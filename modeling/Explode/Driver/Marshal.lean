import Explode.Driver.AbstFS

/-!
# Marshalling the abstract file system

The bytes of a file system are its numbers, its mount point and its objects, in
the order of their ids. When they are read back, the entries of a directory are
put aside until all objects are there, and are then linked one by one, which
counts the references again.
-/

namespace Explode.Driver

inductive MarshalPurpose
  | marshalOnly
  | canonObj
  | canonMetadata
  deriving DecidableEq, Repr

def ObjType.code : ObjType → Nat
  | file => 0
  | dir => 1
  | symLink => 2

def marshalDataRegion (dr : DataRegion) : Bytes :=
  intBytes dr.start ++ intBytes dr.stop ++ intBytes dr.magic ++
    if dr.magic = 0 then dr.data.take (dr.stop - dr.start) else []

def marshalData (d : Data) : Bytes :=
  intBytes d.regions.length ++ d.regions.flatMap marshalDataRegion

def marshalEntry (idOf : Nat → Nat) (e : Name × Nat) : Bytes :=
  intBytes e.1.length ++ e.1 ++ intBytes (idOf e.2)

def marshalBody (purpose : MarshalPurpose) (idOf : Nat → Nat) : Body → Bytes
  | .file f =>
    match purpose with
    | .marshalOnly => intBytes f.size ++ wordBytes f.sig ++ marshalData f.d
    | .canonObj => intBytes f.size ++ wordBytes f.sig ++ canonData f.d
    | .canonMetadata => []
  | .dir d => intBytes d.entries.size ++ d.entries.entries.flatMap (marshalEntry idOf)
  | .symLink path => intBytes path.length ++ path

def marshalObjBytes (purpose : MarshalPurpose) (idOf : Nat → Nat) (o : Obj) : Bytes :=
  intBytes o.type.code ++ intBytes (idOf o.id) ++ intBytes o.ref ++ intBytes o.mode ++
    marshalBody purpose idOf o.body

/-- `id_map_t`, with `none` for an invalid id. -/
abbrev IdMap := SortedMap Nat (Option Nat)

def IdMap.idOf (idMap : IdMap) (id : Nat) : Option Nat := (idMap.get? id).join

/-- `marshal_obj_helper` with a map. It asserts that the map knows the ids of the object and of its
entries. -/
def marshalObjHelper (purpose : MarshalPurpose) (idMap : IdMap) (o : Obj) : FsResult Bytes :=
  if (idMap.idOf o.id).isSome ∧ ∀ e ∈ o.entries.entries, (idMap.idOf e.2).isSome then
    .ok (marshalObjBytes purpose (fun i => (idMap.idOf i).getD 0) o)
  else .error .orphan

def marshalObj (o : Obj) : Bytes := marshalObjBytes .marshalOnly id o

structure DelayedLink where
  id : Nat
  childId : Nat
  entryName : Name
  deriving DecidableEq, Repr

namespace Archive

def read {α : Type} : Option (α × Archive) → FsResult (α × Archive)
  | none => .error .shortArchive
  | some r => .ok r

def readNat (ar : Archive) : FsResult (Nat × Archive) := do
  let (v, ar) ← read ar.getInt
  if v < 0 then .error .negative else .ok (v.toNat, ar)

end Archive

/-- The loop of `unmarshal_data`. The bytes of a regular region are not read: those of its new
buffer are written to the archive. -/
def unmarshalRegions : Nat → Archive → Data → FsResult (Data × Archive)
  | 0, ar, d => .ok (d, ar)
  | n + 1, ar, d => do
    let (start, ar) ← ar.readNat
    let (stop, ar) ← ar.readNat
    let (magic, ar) ← ar.readNat
    if magic = 0 then
      let fresh := d.alloc (stop - start)
      unmarshalRegions n (ar.put fresh.1) (fresh.2.add ⟨start, stop, magic, fresh.1⟩)
    else unmarshalRegions n ar (d.add ⟨start, stop, magic, []⟩)

def unmarshalData (ar : Archive) (d : Data) : FsResult (Data × Archive) := do
  let (n, ar) ← Archive.read ar.getInt
  unmarshalRegions n.toNat ar d

/-- The loop of `unmarshal_obj` over the entries of a directory. -/
def unmarshalEntries (id : Nat) :
    Nat → Archive → List DelayedLink → FsResult (List DelayedLink × Archive)
  | 0, ar, links => .ok (links, ar)
  | n + 1, ar, links => do
    let (len, ar) ← ar.readNat
    if maxName ≤ len then .error .nameTooLong
    else do
      let (name, ar) ← Archive.read (ar.get len)
      let (childId, ar) ← ar.readNat
      if id = childId then .error .circle
      else unmarshalEntries id n ar (links ++ [⟨id, childId, name⟩])

/-- The switch of `unmarshal_obj` over the types, with what the constructor of a file finds in its
memory. -/
def unmarshalBody (mem : FileMemory) (delayedLinks : List DelayedLink)
    (type id mode : Nat) (ar : Archive) : FsResult ((Obj × List DelayedLink) × Archive) :=
  match type with
  | 0 => do
    let (size, ar) ← ar.readNat
    let (sig, ar) ← Archive.read ar.getWord
    let (d, ar) ← unmarshalData ar (.empty mem.1 mem.2)
    .ok ((⟨id, 0, mode, .file ⟨size, sig, d⟩⟩, delayedLinks), ar)
  | 1 => do
    let (n, ar) ← Archive.read ar.getInt
    let (links, ar) ← unmarshalEntries id n.toNat ar delayedLinks
    .ok ((⟨id, 0, mode, .dir ⟨.empty, none⟩⟩, links), ar)
  | 2 => do
    let (len, ar) ← ar.readNat
    if maxPath ≤ len then .error .symlinkTooLong
    else do
      let (path, ar) ← Archive.read (ar.get len)
      .ok ((⟨id, 0, 511, .symLink path⟩, delayedLinks), ar)
  | _ => .error .unknownType

/-- `unmarshal_obj`. The references of the object are read and not used. -/
def unmarshalObj (mem : FileMemory) (delayedLinks : List DelayedLink)
    (ar : Archive) : FsResult ((Obj × List DelayedLink) × Archive) := do
  let (type, ar) ← ar.readNat
  let (id, ar) ← ar.readNat
  let (_, ar) ← Archive.read (ar.get 4)
  let (mode, ar) ← Archive.read ar.getUnsigned
  unmarshalBody mem delayedLinks type id mode ar

namespace AbstFS

structure Unmarshalling where
  fs : AbstFS
  ar : Archive
  delayedLinks : List DelayedLink

/-- The first loop of `unmarshal`. The root is copied, which asserts its type. -/
def unmarshalObjs : Nat → Unmarshalling → FsResult Unmarshalling
  | 0, u => .ok u
  | n + 1, u => do
    let ((o, links), ar) ← unmarshalObj (u.fs.memory u.fs.files) u.delayedLinks u.ar
    if o.id = 0 ∧ o.type ≠ .dir then .error .badObject
    else
      let files := if o.type = .file then u.fs.files + 1 else u.fs.files
      unmarshalObjs n ⟨{ u.fs.update o.id o with files := files }, ar, links⟩

/-- `clear`. It deletes all objects but the root, which loses its entries. -/
def clear (fs : AbstFS) : FsResult AbstFS := do
  (fs.objs.erase 0).entries.forM fun e => destroy e.2
  let root : Obj := ((fs.objs.get? 0).getD ⟨0, 0, 511, .dir ⟨.empty, none⟩⟩).setEntries .empty
  pure { fs with
    id := 1
    nameId := 1
    nr := fun _ => 0
    objs := SortedMap.empty.insert 0 { root with id := 0 } }

def marshal (fs : AbstFS) (ar : Archive) : FsResult Archive := do
  fs.internalCheck
  let globals := ((ar.put (intBytes fs.id)).put (intBytes fs.nameId)).put (intBytes fs.objs.size)
  let numbers := intBytes (fs.nr .file) ++ intBytes (fs.nr .dir) ++ intBytes (fs.nr .symLink)
  let objs := fs.objs.entries.flatMap fun e => marshalObj e.2
  pure (((globals.putString fs.mnt).put numbers).put objs)

structure Globals where
  id : Nat
  nameId : Nat
  numObjs : Int
  mnt : CString
  nr : ObjType → Int

def nrOf (files dirs symLinks : Int) : ObjType → Int
  | .file => files
  | .dir => dirs
  | .symLink => symLinks

def unmarshalGlobals (ar : Archive) : FsResult (Globals × Archive) := do
  let (id, ar) ← ar.readNat
  let (nameId, ar) ← ar.readNat
  let (numObjs, ar) ← Archive.read ar.getInt
  let (mnt, ar) ← Archive.read ar.getString
  let (files, ar) ← Archive.read ar.getInt
  let (dirs, ar) ← Archive.read ar.getInt
  let (symLinks, ar) ← Archive.read ar.getInt
  .ok (⟨id, nameId, numObjs, mnt, nrOf files dirs symLinks⟩, ar)

def unmarshal (fs : AbstFS) (ar : Archive) : FsResult (AbstFS × Archive) := do
  fs.internalCheck
  let fs ← fs.clear
  let (g, ar) ← unmarshalGlobals ar
  let u ← unmarshalObjs g.numObjs.toNat
    ⟨{ fs with id := g.id, nameId := g.nameId, mnt := g.mnt, nr := g.nr }, ar, []⟩
  let fs ← u.delayedLinks.foldlM (fun fs l => fs.linkObj l.id l.childId l.entryName) u.fs
  fs.internalCheck
  pure (fs, u.ar)

def copy (fs f : AbstFS) : FsResult AbstFS := do
  let fs ← fs.clear
  let ar ← f.marshal .empty
  let (fs, _) ← fs.unmarshal ar
  pure fs

end AbstFS

end Explode.Driver
