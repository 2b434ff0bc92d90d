import Explode.Crash.Permuter
import Explode.Crash.Record

/-!
# Parsing a raw log

The parser that is registered for the category of a type constructs the record
from the bytes that follow, and adds to the log what the record stands for.
-/

namespace Explode.Crash

open ByteStream

inductive LogFailure
  | unhandledType (type : UInt32)
  | corrupted
  | sectorRecord
  | noEnterRecord
  | block (f : ParseFailure)
  deriving DecidableEq, Repr

structure RecParser (σ : Type) where
  start : σ → σ
  parse : UInt32 → Bytes → σ → Except LogFailure (σ × Bytes)
  finish : σ → σ

def RecParser.ofReader {σ : Type} (read : UInt32 → Reader Record)
    (handle : Record → σ → Except LogFailure σ) : RecParser σ where
  start s := s
  parse type bytes s :=
    match read type bytes with
    | none => .error .corrupted
    | some (r, rest) => (handle r s).map fun s => (s, rest)
  finish s := s

abbrev LogMgr (σ : Type) := List (UInt32 × RecParser σ)

namespace LogMgr

section
variable {σ : Type} (mgr : LogMgr σ)

def parseLoop : Nat → Bytes → σ → Except LogFailure σ
  | _, [], s => .ok s
  | 0, _ :: _, _ => .error .corrupted
  | n + 1, b :: bytes, s =>
    match readWord (b :: bytes) with
    | none => .error .corrupted
    | some (type, rest) =>
      match mgr.lookup (catOf type) with
      | none => .error (.unhandledType type)
      | some p => (p.parse type rest s).bind fun r => parseLoop n r.2 r.1

def startAll (s : σ) : σ := mgr.foldl (fun s c => c.2.start s) s

def finishAll (s : σ) : σ := mgr.foldl (fun s c => c.2.finish s) s

/-- `LogMgr::parse`. Every pass reads a type, so the number of bytes bounds the passes. -/
def parse (rawLog : Bytes) (s : σ) : Except LogFailure σ :=
  (mgr.parseLoop rawLog.length rawLog (mgr.startAll s)).map mgr.finishAll

end

end LogMgr

inductive LogItem
  | sector (s : SectorRec)
  | record (r : Record)
  deriving DecidableEq

structure LogState where
  linux : LinuxBlockRecParser
  syscalls : List UInt32
  log : List LogItem

namespace LogState

def pushBack (s : LogState) (item : LogItem) : LogState := { s with log := s.log ++ [item] }

end LogState

def signed (w : UInt32) : Int := w.toInt32.toInt

def sectorRecParser : RecParser LogState where
  start s := s
  parse _ _ _ := .error .sectorRecord
  finish s := s

def sectorTypeOf (type : UInt32) : Option SectorRecType :=
  if type = makeType blockCat 1 then some .add
  else if type = makeType blockCat 2 then some .remove
  else if type = makeType blockCat 3 then some .write
  else none

section
variable [ChunkHash] (xfs : Bool)

/-- A sector record of a generic block record. It keeps the type of the block record if there is no
type for it. -/
def pushSector (r : Record) (dev flags sector size : UInt32) (data : Bytes) (s : LogState)
    (i : Nat) : Except LogFailure LogState :=
  let chunk := (data.drop (i * sectorSize)).take sectorSize
  match s.linux.db.write chunk with
  | none => .error (.block .collision)
  | some (sig, db) =>
    let s := { s with linux := { s.linux with db := db } }
    match sectorTypeOf r.type with
    | some type => .ok (s.pushBack (.sector ⟨type, (signed dev, signed sector + i), sig⟩))
    | none =>
      .ok (s.pushBack (.record { r with body := .block dev flags (sector + .ofNat i) size chunk }))

def handleBlockRec (r : Record) (s : LogState) : Except LogFailure LogState :=
  match r.body with
  | .block dev flags sector size data =>
    (List.range (size.toNat / sectorSize)).foldlM (pushSector r dev flags sector size data) s
  | _ => .ok s

def blockRecParser : RecParser LogState :=
  .ofReader (fun type => readBlockRec type true) (handleBlockRec)

def handleLinuxBlockRec (r : Record) (s : LogState) : Except LogFailure LogState :=
  match r.body, LinuxRecType.ofCode r.type with
  | .block dev _ sector size data, some type =>
    match { s.linux with log := [] }.parse xfs
      ⟨type, (signed dev, signed sector), size, data⟩ with
    | .error f => .error (.block f)
    | .ok linux => .ok { s with linux := linux, log := s.log ++ linux.log.map .sector }
  | _, _ => .ok s

def linuxBlockRecParser : RecParser LogState :=
  let clear (s : LogState) := { s with linux := .start s.linux.db }
  { RecParser.ofReader readLinuxBlockRec (handleLinuxBlockRec xfs) with
    start := clear
    finish := clear }

end

def handleSyscallRec (r : Record) (s : LogState) : Except LogFailure LogState :=
  match r.body with
  | .exit _ _ enterLsn =>
    if enterLsn ∈ s.syscalls then .ok (s.pushBack (.record r)) else .error .noEnterRecord
  | _ => .ok ({ s with syscalls := r.lsn :: s.syscalls }.pushBack (.record r))

/-- `SyscallRecParser`, which ignores other types. -/
def syscallRecParser : RecParser LogState where
  start s := s
  parse type bytes s :=
    match readSyscallRec type with
    | none => .ok (s, bytes)
    | some read => (RecParser.ofReader (fun _ => read) handleSyscallRec).parse type bytes s
  finish s := s

def handleAppRec (r : Record) (s : LogState) : Except LogFailure LogState :=
  .ok (s.pushBack (.record r))

def appRecParser : RecParser LogState := .ofReader readAppRec handleAppRec

namespace Permuter

section
variable (cat : UInt32)

def lastCheckType : UInt32 := makeType cat 1

def curCheckType : UInt32 := makeType cat 2

def isLastCheck : LogItem → Bool
  | .sector _ => false
  | .record r => r.type = lastCheckType cat

/-- `RecParser::finish`: the search for a mark ends at the first one, and the marks before that are
removed. -/
def finish (log : List LogItem) : List LogItem :=
  let before := log.takeWhile fun item => !isLastCheck cat item
  if before.length = log.length then .record ⟨lastCheckType cat, 0, 0, .app []⟩ :: log
  else (before.filter fun item => !isLastCheck cat item) ++ log.drop before.length

def recParser : RecParser LogState :=
  { appRecParser with finish := fun s => { s with log := finish cat s.log } }

def toLogRec : LogItem → LogRec
  | .sector s => .sector s
  | .record r =>
    if r.type = lastCheckType cat then .lastCheck
    else if r.type = curCheckType cat then .curCheck
    else .other

def epochAfter (log : List LogItem) : Epoch :=
  (log.map (toLogRec cat)).foldl Epoch.replay .longGonePast

end

end Permuter

/-- `LogMgr::the`, with the categories that were created for applications. -/
def LogMgr.the [ChunkHash] (xfs : Bool) (permuterCat : UInt32)
    (appCats : List UInt32) : LogMgr LogState :=
  [(sectorCat, sectorRecParser), (blockCat, blockRecParser),
    (syscallCat, syscallRecParser), (linuxCat, linuxBlockRecParser xfs)] ++
  appCats.map fun cat =>
    (cat, if cat = permuterCat then Permuter.recParser cat else appRecParser)

end Explode.Crash
