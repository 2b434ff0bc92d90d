import Mathlib.Logic.Function.Basic
import Explode.Crash.Log

/-!
# Parsing the Linux buffer log

Block records of the buffer cache are translated to sector records. A buffer
that is cleaned while it is locked may still be submitted before the unlock, so
its removal is put off until then.
-/

namespace Explode.Crash

inductive LinuxRecType
  | bhDirty
  | bhClean
  | bhLock
  | bhWait
  | bhUnlock
  | bhWrite
  | bhWriteSync
  | bioStartWrite
  | bioWait
  | bioWrite
  | bioRead
  | bioWriteDone
  deriving DecidableEq, Repr

/-- The size holds the bits of a C `int`. -/
structure LinuxBlockRec where
  type : LinuxRecType
  loc : SectorLoc
  size : UInt32
  data : List UInt8
  deriving DecidableEq, Repr

namespace LinuxBlockRec

/-- An unsigned division, since the sector size is an unsigned constant. -/
def nsector (r : LinuxBlockRec) : Nat := r.size.toNat / sectorSize

def sectorLoc (r : LinuxBlockRec) (i : Nat) : SectorLoc := (r.loc.1, r.loc.2 + i)

def sector (r : LinuxBlockRec) (i : Nat) : Chunk :=
  (r.data.drop (i * sectorSize)).take sectorSize

end LinuxBlockRec

structure SectorState where
  locked : Bool
  dirtied : Bool
  delayedClear : Bool
  submitted : Bool
  delayedClearRec : Option LinuxBlockRec
  prevDirty : Option SectorRec
  deriving DecidableEq

namespace SectorState

def discard : SectorState := ⟨false, false, false, false, none, none⟩

def clear (s : SectorState) : SectorState := { s with dirtied := false, prevDirty := none }

def write (s : SectorState) : SectorState :=
  { s with dirtied := false, delayedClear := false, submitted := false, prevDirty := none }

end SectorState

inductive ParseFailure
  | alreadyLocked
  | notLocked
  | collision
  | noDelayedRec
  deriving DecidableEq, Repr

/-- The parser's table, the database it fills and the log it writes. A sector without an entry
is in the state that `get_state` creates for it. -/
structure LinuxBlockRecParser where
  states : SectorLoc → SectorState
  db : ChunkDB
  log : List SectorRec

namespace LinuxBlockRecParser

def start (db : ChunkDB) : LinuxBlockRecParser := ⟨fun _ => .discard, db, []⟩

abbrev Parsed := Except ParseFailure LinuxBlockRecParser

section
variable [ChunkHash] (xfs : Bool) (r : LinuxBlockRec)
  (p : LinuxBlockRecParser)
variable (p : LinuxBlockRecParser) (i : Nat)

def getState (i : Nat) : SectorState := p.states (r.sectorLoc i)

def setState (i : Nat) (s : SectorState) : LinuxBlockRecParser :=
  { p with states := Function.update p.states (r.sectorLoc i) s }

def pushBack (type : SectorRecType) (i : Nat) (sig : Signature) : LinuxBlockRecParser :=
  { p with log := p.log ++ [⟨type, r.sectorLoc i, sig⟩] }

def dbWrite (i : Nat) : Except ParseFailure (Signature × LinuxBlockRecParser) :=
  match p.db.write (r.sector i) with
  | none => .error .collision
  | some (sig, db) => .ok (sig, { p with db := db })

/-- The loop that every `parse_*` function runs over the sectors of its record. -/
def forSectors (body : LinuxBlockRecParser → Nat → Parsed) : Parsed :=
  (List.range r.nsector).foldlM body p

def lockSector : Parsed :=
  if (p.getState r i).locked then .error .alreadyLocked
  else .ok (p.setState r i { p.getState r i with locked := true })

def parseLock : Parsed := p.forSectors r (lockSector r)

def parseRemoveReal (i : Nat) : LinuxBlockRecParser := p.pushBack r .remove i 0

/-- The removal that was put off is logged with the index of the unlock record. -/
def unlockSector : Parsed :=
  let s := p.getState r i
  if !xfs && !s.locked then .error .notLocked
  else
    let s := { s with locked := false }
    if s.delayedClear then
      let s := s.clear
      let p := p.setState r i { s with delayedClear := false }
      if s.submitted then .ok p
      else
        match s.delayedClearRec with
        | none => .error .noDelayedRec
        | some delayed => .ok (p.parseRemoveReal delayed i)
    else .ok (p.setState r i s)

def parseUnlock : Parsed := p.forSectors r (unlockSector xfs r)

def addSector : Parsed :=
  (p.dbWrite r i).bind fun (sig, p) =>
    let s := p.getState r i
    let s := if r.type = .bhDirty then { s with dirtied := true } else { s with submitted := true }
    let p := p.setState r i s
    if s.prevDirty.map SectorRec.sig = some sig then .ok p else .ok (p.pushBack r .add i sig)

def parseAdd : Parsed := p.forSectors r (addSector r)

def removeSector : Parsed :=
  let s := p.getState r i
  if s.submitted then .ok (p.setState r i s.clear)
  else if s.locked then
    .ok (p.setState r i { s with delayedClear := true, delayedClearRec := some r })
  else .ok ((p.setState r i s.clear).parseRemoveReal r i)

def parseRemove : Parsed := p.forSectors r (removeSector r)

def writeSector : Parsed :=
  (p.dbWrite r i).bind fun (sig, p) =>
    .ok ((p.setState r i (p.getState r i).write).pushBack r .write i sig)

def parseWrite : Parsed := p.forSectors r (writeSector r)

def readSector : Parsed :=
  (p.dbWrite r i).bind fun (sig, p) => .ok (p.pushBack r .read i sig)

def parseRead : Parsed := p.forSectors r (readSector r)

end

def parse [ChunkHash] (xfs : Bool) (p : LinuxBlockRecParser) (r : LinuxBlockRec) : Parsed :=
  match r.type with
  | .bhDirty | .bhWrite | .bhWriteSync | .bioStartWrite => p.parseAdd r
  | .bhClean => p.parseRemove r
  | .bioWriteDone => p.parseWrite r
  | .bhLock => p.parseLock r
  | .bhUnlock => p.parseUnlock xfs r
  | .bioRead => p.parseRead r
  | .bioWrite | .bhWait | .bioWait => .ok p

def parseAll [ChunkHash] (xfs : Bool) (db : ChunkDB) (recs : List LinuxBlockRec) : Parsed :=
  recs.foldlM (parse xfs) (start db)

end LinuxBlockRecParser

end Explode.Crash
