import Explode.Crash.Powerset
import Explode.Driver.Canon
import Explode.Driver.ObjectGraph
import Explode.Driver.StableFS

/-!
# Checking a recovered file system

The recovered file system is compared with the stable one after each subset of
the pending metadata deltas.
-/

namespace Explode.Driver

open Explode.Crash

structure CheckOptions where
  metadataOnly : Bool
  dataLossOnly : Bool
  deriving DecidableEq, Repr

namespace Delta

def isData (d : Delta) : Bool := d.change.type = .truncate || d.change.type = .pwrite

def shorter (size : Nat) (d : Delta) : Bool :=
  match d.change with
  | .truncate length => length ≤ size
  | _ => false

def longer (size : Nat) (d : Delta) : Bool :=
  match d.change with
  | .truncate length => size ≤ length
  | .pwrite buf off => size ≤ off + buf.length
  | _ => false

def equalByte (c : UInt8) (off : Nat) (d : Delta) : Bool :=
  match d.change with
  | .pwrite buf start => start ≤ off && off < start + buf.length && buf.getD (off - start) 0 == c
  | _ => false

end Delta

section
variable [Hashes]

/-- The words of a region that `diff_region` visits in a file of a size. -/
def regionWords (size : Nat) (dr : DataRegion) : List (Nat × Word) :=
  ((List.range ((dr.stop - dr.start + 3) / 4)).map fun i => dr.start + 4 * i).filterMap fun off =>
    if off < size then
      some (off, if dr.magic ≠ 0 then positionHash off dr.magic
        else getSig dr.data (off - dr.start))
    else none

/-- The visits of `diff_region`, with a test for an offset, the byte of the other file and the byte
of this one. It ends at a byte that fails the test. -/
def diffWords (explained : Nat → UInt8 → UInt8 → Bool) :
    List (Nat × Word) → Data → Except DataFailure Bool
  | [], _ => .ok true
  | (off, v2) :: rest, other => do
    let (v1, other) ← other.pread 4 off
    if ∀ i : Fin 4, explained (off + i) (v1.getD i 0) (v2 i) then diffWords explained rest other
    else .ok false

def explainedByte (opts : CheckOptions) (deltas : List Delta) (off : Nat) (c1 c2 : UInt8) : Bool :=
  c1 == c2 || deltas.any (Delta.equalByte c2 off) || (opts.dataLossOnly && c1 == 0)

def zeroedByte (deltas : List Delta) (off : Nat) (c1 _c2 : UInt8) : Bool :=
  c1 != 0 || deltas.any (Delta.equalByte 0 off)

def explainedSize (opts : CheckOptions) (deltas : List Delta) (size1 size2 : Nat) : Bool :=
  if size2 < size1 then deltas.any (Delta.shorter size2)
  else if size1 < size2 then deltas.any (Delta.longer size2) || opts.dataLossOnly
  else true

/-- The body of the loop of `check_data` for two files. Their labels are their types and
signatures. -/
def checkFile (opts : CheckOptions) (deltas : List Delta) (f1 f2 : FileObj) :
    Except DataFailure Bool :=
  if f1.sig = f2.sig then .ok true
  else if explainedSize opts deltas f1.size f2.size then do
    let same ← diffWords (explainedByte opts deltas)
      (f2.d.regions.flatMap (regionWords f2.size)) f1.d
    if same then
      diffWords (zeroedByte deltas) (f1.d.regions.flatMap (regionWords f1.size)) f2.d
    else .ok false
  else .ok false

def checkFiles (opts : CheckOptions) (dataDeltas : List Delta) (fs1 fs2 : AbstFS) :
    List (Nat × Nat) → FsResult Bool
  | [] => .ok true
  | (id1, id2) :: rest =>
    match fs1.objs.get? id1, fs2.objs.get? id2 with
    | some o1, some o2 =>
      match o1.body, o2.body with
      | .file f1, .file f2 => do
        let ok ← liftData (checkFile opts (dataDeltas.filter fun d => d.targetId = o1.id) f1 f2)
        if ok then checkFiles opts dataDeltas fs1 fs2 rest else .ok false
      | _, _ =>
        if o1.type = o2.type then checkFiles opts dataDeltas fs1 fs2 rest else .error .badObject
    | _, _ => .error .badOrder

def checkData (opts : CheckOptions) (stable recovered : AbstFS) (dataDeltas : List Delta) :
    FsResult Bool := do
  let order1 ← idMapToOrder (← stable.dfsOrder true)
  let order2 ← idMapToOrder (← recovered.dfsOrder true)
  if order1.length = order2.length then
    checkFiles opts dataDeltas stable recovered (order1.zip order2)
  else .error .badOrder

end

namespace AbstFS

def dangleDetector : Visitor Bool where
  wantDangling := true
  preVisit _ _ obj s := if obj.isNone then (.stop, true) else (.cont, s)
  postVisit _ _ _ s := (.cont, s)

def detectDangling (fs : AbstFS) : FsResult Bool :=
  (fs.dfs dangleDetector false).map fun r => r.2

/-- `fix_refcnts`. The count of an object without an entry is left as it is. -/
def fixRefcnts (fs : AbstFS) : FsResult AbstFS :=
  if (fs.objs.get? 0).isSome ∧ fs.links 0 ≠ 0 then .error .badObject
  else
    .ok { fs with
      objs := fs.objs.mapWithKey fun id o =>
        if id = 0 ∨ fs.links id = 0 then o else { o with ref := fs.links id } }

section
variable [Hashes]

def getSigWithName (fs : AbstFS) : FsResult Word := fs.canonObjects.map explodeHash

def getMetadataSigWithName (fs : AbstFS) : FsResult Word :=
  fs.canonMetadata.map explodeHash

/-- Whether `compare` returns zero. -/
def sameSig (fs fs' : AbstFS) : FsResult Bool := do
  let abst ← fs.getSigWithName
  let actual ← fs'.getSigWithName
  pure (decide (abst = actual))

/-- Whether `compare_metadata` returns zero. -/
def sameMetadataSig (fs fs' : AbstFS) : FsResult Bool := do
  let abst ← fs.getMetadataSigWithName
  let actual ← fs'.getMetadataSigWithName
  pure (decide (abst = actual))

end

section
variable [Hashes]

/-- The loop over the deltas of a subset, and whether it ended at one that does not apply. -/
def applyDeltas (fs : AbstFS) : List Delta → FsResult (Bool × AbstFS)
  | [] => .ok (false, fs)
  | d :: rest => do
    match ← fs.makeDeltaStable d with
    | none => .ok (true, fs)
    | some fs => fs.applyDeltas rest

end

end AbstFS

inductive Verdict
  | succeeded
  | failed
  | aborted
  deriving DecidableEq, Repr

namespace StableFS

def pendingDeltas (s : StableFS) : List Delta := s.syscalls.flatMap PendingCall.deltas

def metaDeltas (s : StableFS) : List Delta := s.pendingDeltas.filter fun d => !d.isData

def dataDeltas (s : StableFS) : List Delta := s.pendingDeltas.filter Delta.isData

section
variable [Hashes] (opts : CheckOptions)

inductive Trial
  | pruned
  | dangling
  | candidate (fs : AbstFS)

/-- The file system for a subset of the deltas, made in a file system that was used before, which
is returned as it is afterwards. -/
def trySubset (s : StableFS) (fs : AbstFS) (deltas : List Delta) :
    FsResult (Trial × AbstFS) := do
  let fs ← fs.copy s.stable
  let (pruned, fs) ← fs.applyDeltas deltas
  if pruned then .ok (.pruned, fs)
  else if ← fs.detectDangling then .ok (.dangling, fs)
  else do
    let fs ← fs.fixRefcnts
    .ok (.candidate fs, fs)

/-- The comparison of a candidate with the recovered file system, if their metadata are the
same. -/
def compareCandidate (s : StableFS) (fs recovered : AbstFS) : FsResult (Option Bool) := do
  if ← fs.sameMetadataSig recovered then
    if ← fs.sameSig recovered then .ok (some true)
    else if opts.metadataOnly then .ok (some true)
    else (checkData opts fs recovered s.dataDeltas).map some
  else .ok none

/-- The loop of `check` over the subsets, with a bound on their number. It collects the signatures
of the candidates. -/
def tryCandidates (s : StableFS) (recovered : AbstFS) :
    Nat → Powerset → AbstFS → List Word → FsResult (Bool × List Word)
  | 0, _, _, sigs => .ok (false, sigs)
  | n + 1, ps, fs, sigs =>
    match ps.next with
    | none => .error .skipTable
    | some none => .ok (false, sigs)
    | some (some (subset, ps)) => do
      let (trial, fs) ← s.trySubset fs (subset.filterMap fun j => s.metaDeltas[j]?)
      match trial with
      | .pruned => s.tryCandidates recovered n ps.skipPrefix fs sigs
      | .dangling => s.tryCandidates recovered n ps fs sigs
      | .candidate fs => do
        let sig ← fs.getSigWithName
        match ← s.compareCandidate opts fs recovered with
        | none => s.tryCandidates recovered n ps fs (sig :: sigs)
        | some valid => .ok (valid, sig :: sigs)

/-- `check`, with the memory behind the files of its local file system. -/
def check (memory : Memory) (s : StableFS) (recovered : AbstFS) :
    FsResult (Verdict × StableFS) := do
  s.internalCheck
  let recoveredSig ← recovered.getSigWithName
  if recoveredSig ∈ s.validSigs then .ok (.succeeded, s)
  else if maxSet < s.metaDeltas.length then do
    let s ← s.clear
    .ok (.aborted, s)
  else do
    let n := s.metaDeltas.length
    let (valid, sigs) ← s.tryCandidates opts recovered (2 ^ n + 1)
      (.init n) (.init [] memory) s.validSigs
    if valid then .ok (.succeeded, { s with validSigs := recoveredSig :: sigs })
    else do
      let s ← s.clear
      .ok (.failed, { s with validSigs := sigs })

end

end StableFS

end Explode.Driver
