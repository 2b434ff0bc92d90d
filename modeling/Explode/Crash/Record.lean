import Explode.Crash.LinuxLog
import Explode.Lib.ByteStream

/-!
# Records of the raw log

A record starts with its type, a sequence number, the thread that wrote it and a
magic number. The upper half of the type is a category, which decides on the
format of the rest.
-/

namespace Explode.Crash

open ByteStream

def makeType (cat minor : UInt32) : UInt32 := cat <<< 16 ||| minor

def catOf (type : UInt32) : UInt32 := type >>> 16

def ekmLogMagic : UInt32 := 0xF12C0109

def sectorCat : UInt32 := 1

def blockCat : UInt32 := 2

def syscallCat : UInt32 := 4

def linuxCat : UInt32 := 16

def usrCatBegin : UInt32 := 32

namespace LinuxRecType

def all : List LinuxRecType :=
  [bhDirty, bhClean, bhLock, bhWait, bhUnlock, bhWrite, bhWriteSync, bioStartWrite, bioWait,
    bioWrite, bioRead, bioWriteDone]

def minor : LinuxRecType → UInt32
  | bhDirty => 1
  | bhClean => 2
  | bhLock => 3
  | bhWait => 4
  | bhUnlock => 5
  | bhWrite => 6
  | bhWriteSync => 7
  | bioStartWrite => 8
  | bioWait => 9
  | bioWrite => 10
  | bioRead => 11
  | bioWriteDone => 12

def code (t : LinuxRecType) : UInt32 := makeType linuxCat t.minor

def ofCode (type : UInt32) : Option LinuxRecType := all.find? fun t => t.code = type

def hasData : LinuxRecType → Bool
  | bhDirty | bhWrite | bhWriteSync | bioRead | bioStartWrite | bioWriteDone => true
  | bhClean | bhLock | bhWait | bhUnlock | bioWait | bioWrite => false

theorem ofCode_code (t : LinuxRecType) : ofCode t.code = some t := by
  cases t <;> decide

theorem catOf_code (t : LinuxRecType) : catOf t.code = linuxCat := by
  cases t <;> decide

end LinuxRecType

inductive Value
  | int (v : UInt32)
  | int8 (low high : UInt32)
  | bytes (b : Bytes)
  deriving DecidableEq, Repr

inductive RecordBody
  | block (dev flags sector size : UInt32) (data : Bytes)
  | app (data : Bytes)
  | enter (args : List Value)
  | exit (ret : UInt32) (args : List Value) (enterLsn : UInt32)
  deriving DecidableEq, Repr

structure Record where
  type : UInt32
  lsn : UInt32
  pid : UInt32
  body : RecordBody
  deriving DecidableEq, Repr

/-- The constructor of `Record`, without the type. It stops if the magic number is another one. -/
def readHeader : Reader (UInt32 × UInt32) :=
  andThen readWord fun lsn => andThen readWord fun pid => andThen readWord fun magic bytes =>
    if magic = ekmLogMagic then some ((lsn, pid), bytes) else none

/-- `unmarshal` of an array of a known size. A size that is negative is as large as a size can be,
and no array is. -/
def readArray (size : UInt32) : Reader Bytes := take size.toNat

def readBlockRec (type : UInt32) (hasData : Bool) : Reader Record :=
  andThen readHeader fun h => andThen readWord fun dev => andThen readWord fun flags =>
    andThen readWord fun sector => andThen readWord fun size =>
      andThen (if hasData then readArray size else done []) fun data =>
        done ⟨type, h.1, h.2, .block dev flags sector size data⟩

def readLinuxBlockRec (type : UInt32) : Reader Record :=
  readBlockRec type (((LinuxRecType.ofCode type).map LinuxRecType.hasData).getD false)

def readAppRec (type : UInt32) : Reader Record :=
  andThen readHeader fun h => andThen readCounted fun data => done ⟨type, h.1, h.2, .app data⟩

/-- How a field is unmarshalled. Strings and arrays have their length before them. -/
inductive Field
  | int
  | int8
  | counted
  deriving DecidableEq, Repr

def Field.read : Field → Reader Value
  | int => andThen readWord fun v => done (.int v)
  | int8 => andThen readWord fun low => andThen readWord fun high => done (.int8 low high)
  | counted => andThen readCounted fun b => done (.bytes b)

def readFields : List Field → Reader (List Value)
  | [] => done []
  | f :: rest => andThen f.read fun v => andThen (readFields rest) fun vs => done (v :: vs)

/-- The fields of the enter record, and those between the return value and the sequence number of
the exit record. The minor type is twice the place in this list. -/
def syscallFormats : List (List Field × List Field) :=
  [([.counted], []),                          -- chdir
    ([.int], []),                             -- close
    ([.int], []),                             -- fdatasync
    ([.int], []),                             -- fsync
    ([.int, .int], []),                       -- ftruncate
    ([.counted, .counted], []),               -- link
    ([.int, .int, .int, .int], [.int8]),      -- llseek
    ([.int, .int, .int], []),                 -- lseek
    ([.counted, .int], []),                   -- mkdir
    ([.counted, .int, .int], []),             -- open
    ([.int, .counted, .int, .int8], []),      -- pwrite64
    ([.int, .int], [.counted]),               -- read
    ([.counted, .counted], []),               -- rename
    ([.counted], []),                         -- rmdir
    ([.counted, .counted], []),               -- symlink
    ([], []),                                 -- sync
    ([.counted, .int], []),                   -- truncate
    ([.counted], []),                         -- unlink
    ([.int, .counted, .int], [])]             -- write

def readEnterRec (type : UInt32) (fields : List Field) : Reader Record :=
  andThen readHeader fun h => andThen (readFields fields) fun args =>
    done ⟨type, h.1, h.2, .enter args⟩

def readExitRec (type : UInt32) (fields : List Field) : Reader Record :=
  andThen readHeader fun h => andThen readWord fun ret => andThen (readFields fields) fun args =>
    andThen readWord fun enterLsn => done ⟨type, h.1, h.2, .exit ret args enterLsn⟩

def readSyscallRec (type : UInt32) : Option (Reader Record) :=
  let minor := (type &&& 0xFFFF).toNat
  (syscallFormats[minor / 2]?).map fun f =>
    if minor % 2 = 0 then readEnterRec type f.1 else readExitRec type f.2

def headerBytes (lsn pid : UInt32) : Bytes := word lsn ++ word pid ++ word ekmLogMagic

theorem reads_header (lsn pid : UInt32) : Reads readHeader (headerBytes lsn pid) (lsn, pid) := by
  rw [headerBytes, List.append_assoc]
  refine (reads_word lsn).andThen ((reads_word pid).andThen ?_)
  rw [← List.append_nil (word ekmLogMagic)]
  exact (reads_word ekmLogMagic).andThen fun _ => rfl

def blockBytes (lsn pid dev flags sector size : UInt32) (data : Bytes) : Bytes :=
  headerBytes lsn pid ++ (word dev ++ (word flags ++ (word sector ++ (word size ++ data))))

theorem reads_linuxBlockRec (t : LinuxRecType) (lsn pid dev flags sector size : UInt32)
    {data : Bytes} (hData : data.length = if t.hasData then size.toNat else 0) :
    Reads (readLinuxBlockRec t.code) (blockBytes lsn pid dev flags sector size data)
      ⟨t.code, lsn, pid, .block dev flags sector size data⟩ := by
  have hRead : Reads (if t.hasData then readArray size else done []) data data := by
    cases hHas : t.hasData with
    | false =>
      rw [hHas, if_neg Bool.false_ne_true] at hData
      rw [List.length_eq_zero_iff.mp hData]
      exact reads_done []
    | true =>
      rw [hHas, if_pos rfl] at hData
      rw [if_pos rfl, readArray, ← hData]
      exact reads_take data
  rw [readLinuxBlockRec, LinuxRecType.ofCode_code, blockBytes]
  exact (reads_header lsn pid).andThen ((reads_word dev).andThen ((reads_word flags).andThen
    ((reads_word sector).andThen ((reads_word size).andThen hRead.andThen_done))))

def appBytes (lsn pid : UInt32) (data : Bytes) : Bytes :=
  headerBytes lsn pid ++ (word (UInt32.ofNat data.length) ++ data)

theorem reads_appRec (type lsn pid : UInt32) {data : Bytes} (hData : data.length < 4294967296) :
    Reads (readAppRec type) (appBytes lsn pid data) ⟨type, lsn, pid, .app data⟩ :=
  (reads_header lsn pid).andThen (reads_counted hData).andThen_done

end Explode.Crash
