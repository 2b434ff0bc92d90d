import Explode.Driver.Marshal

/-!
# The stable file system

The records of the logged system calls are replayed on a volatile file system.
What a call changes there stays pending as at most two deltas, one for each
object, until a later call makes the object stable.
-/

namespace Explode.Driver

inductive DeltaType
  | add
  | truncate
  | pwrite
  | addEntry
  | removeEntry
  | replaceEntry
  deriving DecidableEq, Repr

inductive Change
  | add (type : ObjType) (mode : Nat)
  | truncate (length : Nat)
  | pwrite (buf : Bytes) (off : Nat)
  | addEntry (name : Name) (childId : Nat)
  | removeEntry (name : Name) (childId : Nat)
  | replaceEntry (name : Name) (oldChildId newChildId : Nat)
  deriving DecidableEq, Repr

def Change.type : Change → DeltaType
  | add _ _ => .add
  | truncate _ => .truncate
  | pwrite _ _ => .pwrite
  | addEntry _ _ => .addEntry
  | removeEntry _ _ => .removeEntry
  | replaceEntry _ _ _ => .replaceEntry

structure Delta where
  targetId : Nat
  change : Change
  deriving DecidableEq, Repr

/-- Of the flags of an `open` only `O_SYNC` is read. -/
structure OpenFlags where
  sync : Bool
  deriving DecidableEq, Repr

inductive Call
  | openFile (filename : CString) (flags : OpenFlags) (mode : Nat)
  | close (fd : Nat)
  | ftruncate (fd : Nat) (length : Nat)
  | pwrite64 (fd : Nat) (buf : Bytes) (pos : Nat)
  | mkdir (pathname : CString) (mode : Nat)
  | unlink (pathname : CString)
  | rmdir (pathname : CString)
  | link (oldname newname : CString)
  | rename (oldname newname : CString)
  | sync
  | fsync (fd : Nat)
  deriving DecidableEq, Repr

namespace Call

def hasTwo : Call → Bool
  | openFile _ _ _ => true
  | mkdir _ _ => true
  | rename _ _ => true
  | _ => false

def isRename : Call → Bool
  | rename _ _ => true
  | _ => false

end Call

structure Syscall where
  lsn : Nat
  call : Call
  ret : Int
  deriving DecidableEq, Repr

inductive SyscallRec
  | enter (sys : Syscall)
  | exit (sys : Syscall)
  /-- A record that `replay_syscall` does not handle. -/
  | unhandled
  deriving DecidableEq, Repr

/-- `struct syscall`. A delta that is cleared is not there. -/
structure PendingCall where
  sys : Syscall
  delta0 : Option Delta
  delta1 : Option Delta
  two : delta1.isSome → sys.call.hasTwo
  deriving DecidableEq

namespace PendingCall

def one (sys : Syscall) (delta : Delta) : PendingCall := ⟨sys, some delta, none, nofun⟩

def clearDeltas (p : PendingCall) : PendingCall := ⟨p.sys, none, none, nofun⟩

def clearDelta0 (p : PendingCall) : PendingCall := ⟨p.sys, none, p.delta1, p.two⟩

def clearTarget (p : PendingCall) (id : Nat) : PendingCall where
  sys := p.sys
  delta0 := p.delta0.filter fun d => d.targetId ≠ id
  delta1 := p.delta1.filter fun d => d.targetId ≠ id
  two h := p.two (Option.isSome_of_isSome_filter _ _ h)

def deltas (p : PendingCall) : List Delta := p.delta0.toList ++ p.delta1.toList

/-- What `internal_check` asserts of a call. -/
def check (p : PendingCall) : Bool :=
  (p.sys.call.isRename || decide (p.delta0.map Delta.targetId ≠ p.delta1.map Delta.targetId)) &&
    match p.delta0, p.delta1 with
    | some d, some e => decide (d.change.type ≠ e.change.type) && p.sys.call.hasTwo
    | _, _ => true

end PendingCall

structure FileDes where
  filename : CString
  osync : Bool
  deriving DecidableEq, Repr

structure FsDriver where
  mountSync : Bool
  ignore : CString → Bool

/-- `data::internal_check`, with the region before. -/
def checkRegions : Option DataRegion → List DataRegion → Bool
  | _, [] => true
  | prev, dr :: rest =>
    dr.start % 4 = 0 && dr.stop % 4 = 0 &&
      prev.all (fun p => decide (p.magic = dr.magic) && decide (p.stop < dr.start)) &&
      dr.internalCheck && checkRegions (some dr) rest

/-- `data::copy`. A regular region without a buffer cannot be copied. -/
def Data.copy (d dt : Data) : Except DataFailure Data :=
  if d.regions.all DataRegion.internalCheck ∧ checkRegions none dt.regions ∧
      dt.regions.all (fun dr => decide (dr.magic ≠ 0) || !dr.data.isEmpty) then
    .ok (dt.regions.foldl
      (fun d dr =>
        let clone := d.newRegion dr.start dr.stop dr.magic dr.data 0
        clone.2.add clone.1)
      { d with regions := [] })
  else .error .internalCheck

def Obj.copy (o vo : Obj) : FsResult Obj :=
  match o.body, vo.body with
  | .file f, .file g => do
    let d ← liftData (f.d.copy g.d)
    pure { vo with body := .file ⟨g.size, g.sig, d⟩ }
  | .dir _, .dir e =>
    if ∀ entry ∈ e.entries.entries, entry.2 ≠ 0 then .ok { vo with body := .dir e }
    else .error .invalidId
  | .symLink _, .symLink path => .ok { vo with body := .symLink path }
  | _, _ => .error .badObject

namespace AbstFS

def newObj (fs : AbstFS) (type : ObjType) (mode : Nat) : Obj × AbstFS :=
  match type with
  | .file => fs.newFile mode
  | .dir => (⟨0, 0, mode, .dir ⟨.empty, none⟩⟩, fs)
  | .symLink => (⟨0, 0, 511, .symLink []⟩, fs)

def clone (fs : AbstFS) (vo : Obj) : FsResult (Obj × AbstFS) := do
  let fresh := fs.newObj vo.type 511
  let o ← fresh.1.copy vo
  pure (o, fresh.2)

def getEntry (fs : AbstFS) (id : Nat) (name : Name) : Option Nat :=
  ((fs.objs.get? id).bind Obj.dir?).bind fun d => d.entries.get? name

section
variable [Hashes]

/-- A data delta on an object. It is pruned where the object is not there. -/
def changeFile (fs : AbstFS) (id : Nat) (call : FileCall) : FsResult (Option AbstFS) :=
  match fs.objs.get? id with
  | none => .ok none
  | some o =>
    match o.body with
    | .file f => do
      let f' ← liftData (call f)
      pure (some (fs.update id { o with body := .file f' }))
    | _ => .error .notFile

def changeDir (fs : AbstFS) (id : Nat) (name : Name) (found : Option Nat)
    (call : FsResult AbstFS) : FsResult (Option AbstFS) :=
  match fs.objs.get? id with
  | none => .ok none
  | some o =>
    match o.body with
    | .dir d => if d.entries.get? name = found then call.map some else .ok none
    | _ => .error .badObject

/-- `make_delta_stable`, which returns false for a delta that does not apply. -/
def makeDeltaStable (fs : AbstFS) (delta : Delta) : FsResult (Option AbstFS) :=
  let id := delta.targetId
  match delta.change with
  | .add type mode =>
    if (fs.objs.get? id).isSome ∨ id = 0 then .error .badDelta
    else
      let fresh := fs.newObj type mode
      (fresh.2.addObjAt fresh.1 id).map some
  | .truncate length => fs.changeFile id fun f => f.truncate length
  | .pwrite buf off => fs.changeFile id fun f => f.pwrite buf off
  | .addEntry name childId => fs.changeDir id name none (fs.linkObj id childId name)
  | .removeEntry name childId => fs.changeDir id name (some childId) (fs.unlinkObj id name)
  | .replaceEntry name oldChildId newChildId =>
    fs.changeDir id name (some oldChildId) do
      let fs ← fs.unlinkObj id name
      fs.linkObj id newChildId name

end

end AbstFS

structure StableFS where
  stable : AbstFS
  volatile : AbstFS
  fds : SortedMap Nat FileDes
  syscalls : List PendingCall
  ongoing : Option Nat
  validSigs : List Word

namespace StableFS

def init (stable volatile : AbstFS) : StableFS := ⟨stable, volatile, .empty, [], none, []⟩

def internalCheck (s : StableFS) : FsResult Unit :=
  if s.syscalls.all PendingCall.check then .ok () else .error .badDelta

def onSyncOps (s : StableFS) : StableFS := { s with validSigs := [] }

def clear (s : StableFS) : FsResult StableFS := do
  let v ← s.volatile.clear
  let st ← s.stable.clear
  pure { s with stable := st, volatile := v, fds := .empty, syscalls := [], ongoing := none }

def start (s : StableFS) : FsResult StableFS :=
  if s.fds.entries.isEmpty ∧ s.syscalls.isEmpty ∧ s.ongoing.isNone ∧
      s.volatile.objs.size = 1 ∧ s.stable.objs.size = 1 then .ok s
  else .error .notStarted

def finish (s : StableFS) : FsResult StableFS := s.clear

def push (s : StableFS) (volatile : AbstFS) (p : PendingCall) : StableFS :=
  { s with volatile := volatile, syscalls := s.syscalls ++ [p] }

/-- The call that an exit record belongs to, which has to be the last one. -/
def lastCall (s : StableFS) (sys : Syscall) : FsResult PendingCall :=
  match s.syscalls.getLast? with
  | none => .error .wrongCall
  | some p => if p.sys.lsn = sys.lsn then .ok p else .error .wrongCall

def setLast (s : StableFS) (p : PendingCall) : StableFS :=
  { s with syscalls := s.syscalls.dropLast ++ [p] }

def fileDes (s : StableFS) (fd : Nat) : FsResult FileDes :=
  match s.fds.get? fd with
  | none => .error .fdUnknown
  | some des => .ok des

def enterAdd (s : StableFS) (sys : Syscall) (two : sys.call.hasTwo) (path : CString)
    (type : ObjType) (mode : Nat) (v : AbstFS) : FsResult StableFS := do
  let nd ← v.findPath path nameiInit
  let parent ← v.findPath path parentNameiInit
  match v.getEntry parent.1 parent.2 with
  | none => .error .noEntry
  | some childId =>
    pure (s.push v
      ⟨sys, some ⟨nd.1, .add type mode⟩, some ⟨parent.1, .addEntry parent.2 childId⟩, fun _ => two⟩)

def enterRemove (s : StableFS) (sys : Syscall) (path : CString)
    (call : PathCall) : FsResult StableFS := do
  let target ← s.volatile.findPath path nameiInit
  let v ← call s.volatile path
  let parent ← v.findPath path parentNameiInit
  pure (s.push v (.one sys ⟨parent.1, .removeEntry parent.2 target.1⟩))

def enterData (s : StableFS) (sys : Syscall) (fd : Nat) (call : PathCall) (change : Change) :
    FsResult StableFS := do
  let des ← s.fileDes fd
  let v ← call s.volatile des.filename
  let nd ← v.findPath des.filename nameiInit
  pure (s.push v (.one sys ⟨nd.1, change⟩))

def enterLink (s : StableFS) (sys : Syscall) (oldname newname : CString) :
    FsResult StableFS := do
  let v ← s.volatile.link oldname newname
  let parent ← v.findPath newname parentNameiInit
  match v.getEntry parent.1 parent.2 with
  | none => .error .noEntry
  | some childId => pure (s.push v (.one sys ⟨parent.1, .addEntry parent.2 childId⟩))

/-- The second walk reuses the buffer that has the new name. The entry for the new name is there,
since `rename` has linked it. -/
def enterRename (s : StableFS) (sys : Syscall) (two : sys.call.hasTwo)
    (oldname newname : CString) : FsResult StableFS := do
  let oldChild ← s.volatile.walkPath newname nameiInit
  let child ← s.volatile.findPath oldname nameiInit
  let v ← s.volatile.rename oldname newname
  let parent ← v.findPath newname parentNameiInit
  match v.getEntry parent.1 parent.2 with
  | none => .error .noEntry
  | some newChildId =>
    let change := match oldChild.obj with
      | none => Change.addEntry parent.2 newChildId
      | some oldChildId => Change.replaceEntry parent.2 oldChildId newChildId
    let parentOld ← v.findPath oldname ⟨true, some parent.1, parent.2⟩
    pure (s.push v
      ⟨sys, some ⟨parent.1, change⟩, some ⟨parentOld.1, .removeEntry parentOld.2 child.1⟩,
        fun _ => two⟩)

section
variable (drv : FsDriver)

def tracked (filename : CString) : Bool :=
  decide (filename.head? = some slash) && !drv.ignore filename

def exitNames (s : StableFS) (sys : Syscall) (call : AbstFS → FsResult AbstFS) :
    FsResult StableFS := do
  let p ← s.lastCall sys
  if drv.mountSync then
    let st ← call s.stable
    pure { s.setLast p.clearDeltas with stable := st }.onSyncOps
  else pure s

section
variable [Hashes]

def flushDelta0 (s : StableFS) (p : PendingCall) : FsResult StableFS :=
  match p.delta0 with
  | none => .error .badDelta
  | some delta => do
    match ← s.stable.makeDeltaStable delta with
    | none => .error .notApplied
    | some st => pure { s.setLast p.clearDelta0 with stable := st }.onSyncOps

def exitData (s : StableFS) (sys : Syscall) (fd : Nat) (call : PathCall) : FsResult StableFS := do
  let p ← s.lastCall sys
  let des ← s.fileDes fd
  if drv.mountSync then
    let st ← call s.stable des.filename
    pure { s.setLast p.clearDeltas with stable := st }.onSyncOps
  else if des.osync then s.flushDelta0 p
  else pure s

def exitCreat (s : StableFS) (sys : Syscall) (filename : CString) (flags : OpenFlags)
    (mode : Nat) : FsResult StableFS := do
  let p ← s.lastCall sys
  if drv.mountSync then
    let st ← s.stable.creat filename mode
    pure { s with syscalls := s.syscalls.dropLast, stable := st }.onSyncOps
  else if flags.sync then s.flushDelta0 p
  else pure s

end

def enterOpen (s : StableFS) (sys : Syscall) (two : sys.call.hasTwo) (filename : CString)
    (mode : Nat) : FsResult StableFS :=
  if (s.fds.get? sys.ret.toNat).isSome then .error .fdInUse
  else if tracked drv filename then do
    match ← s.volatile.stat filename with
    | some _ => pure s
    | none => do
      let v ← s.volatile.creat filename mode
      s.enterAdd sys two filename .file mode v
  else pure s

def exitOpen [Hashes] (s : StableFS)
    (sys : Syscall) (filename : CString) (flags : OpenFlags) (mode : Nat) :
    FsResult StableFS :=
  if (s.fds.get? sys.ret.toNat).isSome then .error .fdInUse
  else if tracked drv filename then do
    let s := { s with fds := s.fds.insert sys.ret.toNat ⟨filename, flags.sync⟩ }
    match ← s.volatile.stat filename with
    | some _ => pure s
    | none => s.exitCreat drv sys filename flags mode
  else pure s

def makeObjStable (s : StableFS) (path : CString) : FsResult (Nat × AbstFS) := do
  match ← s.volatile.stat path with
  | none => .error .walkFailed
  | some id =>
    match s.volatile.objs.get? id with
    | none => .error .nullPointer
    | some vo =>
      match s.stable.objs.get? id with
      | some o => do
        let o' ← o.copy vo
        pure (id, s.stable.update id o')
      | none => do
        let clone ← s.stable.clone vo
        let st ← clone.2.addObjAt clone.1 id
        pure (id, st)

def withoutTarget (syscalls : List PendingCall) (id : Nat) : List PendingCall :=
  (syscalls.map fun p => p.clearTarget id).filter fun p => p.delta0.isSome || p.delta1.isSome

def exitFsync (s : StableFS) (fd : Nat) : FsResult StableFS :=
  if drv.mountSync then .ok s
  else do
    let des ← s.fileDes fd
    let (id, st) ← s.makeObjStable des.filename
    pure { s with stable := st, syscalls := withoutTarget s.syscalls id }.onSyncOps

/-- `sync`, whatever it returned. -/
def exitSync (s : StableFS) : FsResult StableFS := do
  let st ← s.stable.copy s.volatile
  pure { s with stable := st, syscalls := [] }.onSyncOps

section
variable [Hashes]

def replayEnter (s : StableFS) (sys : Syscall) : FsResult StableFS :=
  if sys.ret < 0 then .ok s
  else
    match h : sys.call with
    | .openFile filename _ mode => s.enterOpen drv sys (by rw [h]; rfl) filename mode
    | .ftruncate fd length =>
      s.enterData sys fd (fun fs path => fs.truncate path length) (.truncate length)
    | .pwrite64 fd buf pos =>
      s.enterData sys fd (fun fs path => fs.pwrite path buf pos) (.pwrite buf pos)
    | .mkdir pathname mode => do
      let v ← s.volatile.mkdir pathname mode
      s.enterAdd sys (by rw [h]; rfl) pathname .dir mode v
    | .unlink pathname => s.enterRemove sys pathname AbstFS.unlink
    | .rmdir pathname => s.enterRemove sys pathname AbstFS.rmdir
    | .link oldname newname => s.enterLink sys oldname newname
    | .rename oldname newname => s.enterRename sys (by rw [h]; rfl) oldname newname
    | .close _ => .ok s
    | .sync => .ok s
    | .fsync _ => .ok s

/-- The handler of an exit record. Only `sync` does not look at the result. -/
def replayExit (s : StableFS) (sys : Syscall) : FsResult StableFS :=
  if sys.call ≠ .sync ∧ sys.ret < 0 then .ok s
  else
    match sys.call with
    | .openFile filename flags mode =>
      s.exitOpen drv sys filename flags mode
    | .close fd => .ok { s with fds := s.fds.erase fd }
    | .ftruncate fd length =>
      s.exitData drv sys fd fun fs path =>
        fs.truncate path length
    | .pwrite64 fd buf pos =>
      s.exitData drv sys fd fun fs path =>
        fs.pwrite path buf pos
    | .mkdir pathname mode => s.exitNames drv sys fun fs => fs.mkdir pathname mode
    | .unlink pathname => s.exitNames drv sys fun fs => fs.unlink pathname
    | .rmdir pathname => s.exitNames drv sys fun fs => fs.rmdir pathname
    | .link oldname newname => s.exitNames drv sys fun fs => fs.link oldname newname
    | .rename oldname newname => s.exitNames drv sys fun fs => fs.rename oldname newname
    | .sync => s.exitSync
    | .fsync fd => s.exitFsync drv fd

def replaySyscall (s : StableFS) : SyscallRec → FsResult StableFS
  | .enter sys =>
    if s.ongoing.isSome then .error .wrongCall
    else do
      let s ← s.replayEnter drv sys
      pure { s with ongoing := some sys.lsn }
  | .exit sys =>
    if s.ongoing = some sys.lsn then do
      let s ← s.replayExit drv sys
      pure { s with ongoing := none }
    else .error .wrongCall
  | .unhandled => .ok s

def replay (s : StableFS) (rec : SyscallRec) : FsResult StableFS := do
  s.internalCheck
  s.replaySyscall drv rec

end

end

end StableFS

end Explode.Driver
