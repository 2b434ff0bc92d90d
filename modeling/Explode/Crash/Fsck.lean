import Explode.Crash.BlockDev

/-!
# Cached recovery runs

A recovery program is run on a crash disk, its sector accesses are traced, and
the sectors it read are stored in a decision tree with the sectors it wrote at
the leaves.
-/

namespace Explode.Crash

/-- A deterministic recovery program. Its next access depends on the sectors read so far. -/
inductive Program
  | done
  | read (loc : SectorLoc) (next : Chunk → Program)
  | write (loc : SectorLoc) (b : Chunk) (next : Program)

inductive Access
  | read (loc : SectorLoc) (b : Chunk)
  | write (loc : SectorLoc) (b : Chunk)
  deriving DecidableEq

namespace Program

/-- The accesses of a run on a device and the contents it leaves. A sector that does not exist
stops the run. -/
def run : Program → BlockDevDataVec → Option (List Access × BlockDevDataVec)
  | done, dev => some ([], dev)
  | read loc next, dev => do
    let b ← dev.readChunk loc
    let rest ← (next b).run dev
    pure (.read loc b :: rest.1, rest.2)
  | write loc b next, dev => do
    let dev' ← dev.writeChunk loc b
    let rest ← next.run dev'
    pure (.write loc b :: rest.1, rest.2)

end Program

def Access.toRec [ChunkHash] : Access → ChunkDB → Option (SectorRec × ChunkDB)
  | .read loc b, db => (db.write b).map fun r => (⟨.read, loc, r.1⟩, r.2)
  | .write loc b, db => (db.write b).map fun r => (⟨.write, loc, r.1⟩, r.2)

/-- The sector records of a trace. Parsing it stores every sector in the database. -/
def parseTrace [ChunkHash] :
    List Access → ChunkDB → Option (List SectorRec × ChunkDB)
  | [], db => some ([], db)
  | a :: rest, db => do
    let first ← a.toRec db
    let more ← parseTrace rest first.2
    pure (first.1 :: more.1, more.2)

inductive FsckFailure
  | chunkDB
  | device
  | nothingRead
  | notDeterministic
  | notNew
  deriving DecidableEq, Repr

inductive Node
  | null
  | leaf (wrSet : WrSet)
  | read (loc : SectorLoc) (next : Signature → Node)

namespace Node

/-- The loop of `add_to_cache` and the new leaf, with the locations and signatures that were
read in their order. -/
def add (wrSet : WrSet) :
    Node → WrSet → Except FsckFailure Node
  | .null, [] => .ok (.leaf wrSet)
  | _, [] => .error .notNew
  | .null, (loc, sig) :: rest => do
    let child ← add wrSet .null rest
    pure (.read loc (Function.update (fun _ => .null) sig child))
  | .leaf _, _ :: _ => .error .notDeterministic
  | .read here next, (loc, sig) :: rest =>
    if here ≠ loc then .error .notDeterministic
    else do
      let child ← add wrSet (next sig) rest
      pure (.read here (Function.update next sig child))

/-- The loop of `run_cached`: the stored writes on a hit. Each sector that is looked at goes to the
database. -/
def find [ChunkHash] (disks : BlockDevDataVec) :
    Node → ChunkDB → Except FsckFailure (Option WrSet × ChunkDB)
  | .null, db => .ok (none, db)
  | .leaf wrSet, db => .ok (some wrSet, db)
  | .read loc next, db =>
    match BlockDevDataVec.read db disks loc with
    | none => .error .chunkDB
    | some r => (next r.1).find disks r.2

end Node

/-- What a recovery run read first, in its order, and what it wrote. The writes are a map. -/
structure Trace where
  reads : WrSet
  wrSet : WrSet
  nodup : (wrSet.map Prod.fst).Nodup

/-- The loop of `run_real` over the log. It ends with the first write, so the test that a sector
was not written before always succeeds. -/
def scanLog : List SectorRec → WrSet → Trace
  | [], rdOrd => ⟨rdOrd, [], List.nodup_nil⟩
  | r :: rest, rdOrd =>
    match r.type with
    | .read =>
      if (rdOrd.lookup r.loc).isSome then scanLog rest rdOrd
      else scanLog rest (rdOrd ++ [(r.loc, r.sig)])
    | .write => ⟨rdOrd, [(r.loc, r.sig)], List.nodup_singleton _⟩
    | _ => scanLog rest rdOrd

structure Fsck where
  root : Node
  db : ChunkDB

namespace Fsck

def start (db : ChunkDB) : Fsck := ⟨.null, db⟩

def addToCache (f : Fsck) (t : Trace) : Except FsckFailure Fsck :=
  if t.reads = [] then .error .nothingRead
  else do
    let root ← f.root.add t.wrSet t.reads
    pure { f with root }

def addAll (f : Fsck) (traces : List Trace) : Except FsckFailure Fsck :=
  traces.foldlM addToCache f

/-- `run_cached`: whether it hits, and the disks and the database after it. -/
def runCached [ChunkHash] (f : Fsck) (disks : BlockDevDataVec) :
    Except FsckFailure (Bool × BlockDevDataVec × ChunkDB) := do
  let found ← f.root.find disks f.db
  match found.1 with
  | some wrSet =>
    match BlockDevDataVec.writeSet found.2 disks wrSet with
    | none => .error .device
    | some dev => pure (true, dev, found.2)
  | none => pure (false, disks, found.2)

def runReal [ChunkHash] (prog : Program) (f : Fsck)
    (disks : BlockDevDataVec) : Except FsckFailure (BlockDevDataVec × Fsck) :=
  match prog.run disks with
  | none => .error .device
  | some (accesses, dev) =>
    match parseTrace accesses f.db with
    | none => .error .chunkDB
    | some (log, db) => do
      let f' ← addToCache { f with db } (scanLog log [])
      pure (dev, f')

/-- `run` with the cache on: the contents of the device after it. -/
def run [ChunkHash] (prog : Program) (f : Fsck) (disks : BlockDevDataVec) :
    Except FsckFailure (BlockDevDataVec × Fsck) := do
  let (found, dev, db) ← f.runCached disks
  if found then pure (dev, { f with db }) else runReal prog { f with db } dev

def runAll [ChunkHash] (prog : Program) :
    Fsck → List BlockDevDataVec → Except FsckFailure (List BlockDevDataVec)
  | _, [] => .ok []
  | f, disks :: rest => do
    let first ← f.run prog disks
    let more ← runAll prog first.2 rest
    pure (first.1 :: more)

end Fsck

end Explode.Crash
