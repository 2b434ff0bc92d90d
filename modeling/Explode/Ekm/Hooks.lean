import Explode.Crash.Record
import Explode.Ekm.LogBuf

/-!
# The hooks of the kernel module

A hook writes a record for a buffer head, a bio, a request, an application or a
system call to the log, under a lock. All writers share one counter for the
sequence numbers.
-/

namespace Explode.Ekm

open ByteStream Crash

structure Tracing where
  devices : List UInt32
  wantRead : Bool
  deriving DecidableEq, Repr

structure BufferHead where
  dev : UInt32
  blocknr : Nat
  size : Nat
  data : Pointer
  deriving DecidableEq, Repr

/-- The segments are those of the vector, with as many bytes as their lengths say. -/
structure Bio where
  dev : UInt32
  sector : Nat
  size : Nat
  rw : UInt32
  segments : List Pointer
  deriving DecidableEq, Repr

/-- The device and the direction are those of the bio of the request. -/
structure Request where
  dev : UInt32
  sector : Nat
  currentNrSectors : Nat
  rw : UInt32
  buffer : Pointer
  deriving DecidableEq, Repr

structure AppRecord where
  type : UInt32
  data : Pointer
  deriving DecidableEq, Repr

def rwRead : UInt32 := 0

def rwWrite : UInt32 := 1

inductive BhState
  | dirty
  | clean
  | lock
  | wait
  | unlock
  | write
  | writeSync
  deriving DecidableEq, Repr

inductive BioState
  | startWrite
  | wait
  deriving DecidableEq, Repr

inductive ReqState
  | write
  | read
  | writeDone
  deriving DecidableEq, Repr

def BhState.type : BhState → LinuxRecType
  | dirty => .bhDirty
  | clean => .bhClean
  | lock => .bhLock
  | wait => .bhWait
  | unlock => .bhUnlock
  | write => .bhWrite
  | writeSync => .bhWriteSync

def BioState.type : BioState → LinuxRecType
  | startWrite => .bioStartWrite
  | wait => .bioWait

def ReqState.type : ReqState → LinuxRecType
  | write => .bioWrite
  | read => .bioRead
  | writeDone => .bioWriteDone

def ReqState.dir : ReqState → UInt32
  | write | writeDone => rwWrite
  | read => rwRead

/-- The arguments that the enter record of a system call holds. -/
inductive Entering
  | chdir (filename : Pointer)
  | close (fd : UInt32)
  | fdatasync (fd : UInt32)
  | fsync (fd : UInt32)
  | ftruncate (fd length : UInt32)
  | link (oldname newname : Pointer)
  | llseek (fd offsetHigh offsetLow origin : UInt32)
  | lseek (fd offset origin : UInt32)
  | mkdir (pathname : Pointer) (mode : UInt32)
  | openFile (filename : Pointer) (flags mode : UInt32)
  | pwrite64 (fd : UInt32) (buf : Pointer) (count : UInt32) (pos : UInt64)
  | read (fd count : UInt32)
  | rename (oldname newname : Pointer)
  | rmdir (pathname : Pointer)
  | symlink (oldname newname : Pointer)
  | sync
  | truncate (filename : Pointer) (length : UInt32)
  | unlink (pathname : Pointer)
  | write (fd : UInt32) (buf : Pointer) (count : UInt32)
  deriving DecidableEq, Repr

/-- What the exit record of a system call holds between the return value and the number of its
enter record. Most have nothing there. -/
inductive Exiting
  | llseek (result : UInt64)
  | read (buf : Pointer)
  | other (place : Nat)
  deriving DecidableEq, Repr

/-- A call of `log_add_int`, `log_add_int8`, `log_add_str` or `log_add_sized_buf`. -/
inductive Arg
  | int (num : UInt32)
  | int8 (num : UInt64)
  | str (s : Pointer)
  | sizedBuf (buf : Pointer)
  deriving DecidableEq, Repr

def Arg.log (b : LogBuf) : Arg → LogBuf
  | int num => b.logAddInt num
  | int8 num => b.logAddInt8 num
  | str s => b.logAddStr s
  | sizedBuf buf => b.logAddSizedBuf buf

def Arg.value : Arg → Value
  | int num => .int num
  | int8 num => .int8 num.toUInt32 (num >>> 32).toUInt32
  | str s => .bytes s.bytes
  | sizedBuf buf => .bytes buf.bytes

def Entering.args : Entering → Nat × List Arg
  | chdir filename => (0, [.str filename])
  | close fd => (1, [.int fd])
  | fdatasync fd => (2, [.int fd])
  | fsync fd => (3, [.int fd])
  | ftruncate fd length => (4, [.int fd, .int length])
  | link oldname newname => (5, [.str oldname, .str newname])
  | llseek fd high low origin => (6, [.int fd, .int high, .int low, .int origin])
  | lseek fd offset origin => (7, [.int fd, .int offset, .int origin])
  | mkdir pathname mode => (8, [.str pathname, .int mode])
  | openFile filename flags mode => (9, [.str filename, .int flags, .int mode])
  | pwrite64 fd buf count pos => (10, [.int fd, .sizedBuf buf, .int count, .int8 pos])
  | read fd count => (11, [.int fd, .int count])
  | rename oldname newname => (12, [.str oldname, .str newname])
  | rmdir pathname => (13, [.str pathname])
  | symlink oldname newname => (14, [.str oldname, .str newname])
  | sync => (15, [])
  | truncate filename length => (16, [.str filename, .int length])
  | unlink pathname => (17, [.str pathname])
  | write fd buf count => (18, [.int fd, .sizedBuf buf, .int count])

def Exiting.args : Exiting → Nat × List Arg
  | llseek result => (6, [.int8 result])
  | read buf => (11, [.sizedBuf buf])
  | other place => (place, [])

def invalidLsn : UInt32 := 0xFFFFFFFF

/-- The buffer, the counter and the variable `explode_lsn` of every system call. `log` is a history
of the records written since the log was emptied. -/
structure Ekm where
  buf : LogBuf
  lsn : UInt32
  entryLsn : Nat → UInt32
  log : List Record

namespace Ekm

def init : Ekm := ⟨.empty, 0, fun _ => invalidLsn, []⟩

section
variable (e : Ekm) (pid : UInt32)

def logHeader (b : LogBuf) (type lsn pid : UInt32) : LogBuf :=
  [type, lsn, pid, ekmLogMagic].foldl LogBuf.logAddInt b

/-- `ekm_log_app_record`, which counts before it writes the number. -/
def logAppRecord (gr : AppRecord) : Ekm :=
  let lsn := e.lsn + 1
  { e with
    buf := (logHeader e.buf gr.type lsn pid).logAddSizedBuf gr.data
    lsn := lsn
    log := e.log ++ [⟨gr.type, lsn, pid, .app gr.data.bytes⟩] }

/-- What the entries for buffer heads, bios and requests have in common. The flags are zero, since
`ekm_is_commit` returns zero. -/
def logBlockEntry (type : LinuxRecType) (dev sector size : UInt32) (data : List Pointer) : Ekm :=
  let b := [dev, 0, sector, size].foldl LogBuf.logAddInt (logHeader e.buf type.code e.lsn pid)
  { e with
    buf := if type.hasData then data.foldl LogBuf.logAddBuf b else b
    lsn := e.lsn + 1
    log := e.log ++ [⟨type.code, e.lsn, pid, .block dev 0 sector size
      (if type.hasData then data.flatMap Pointer.bytes else [])⟩] }

/-- `log_add_bh_entry`, which converts a block number to a sector number. -/
def logAddBhEntry (bh : BufferHead) (type : LinuxRecType) : Ekm :=
  e.logBlockEntry pid type bh.dev (.ofNat (bh.blocknr * (bh.size / 512))) (.ofNat bh.size) [bh.data]

/-- `log_add_bio_entry`. There is no result if the segments do not have the size of the bio. -/
def logAddBioEntry (bio : Bio) (type : LinuxRecType) : Option Ekm :=
  if type.hasData ∧ (bio.segments.flatMap Pointer.bytes).length ≠ bio.size then none
  else some (e.logBlockEntry pid type bio.dev (.ofNat bio.sector) (.ofNat bio.size) bio.segments)

def logAddReqEntry (req : Request) (type : LinuxRecType) : Ekm :=
  e.logBlockEntry pid type req.dev (.ofNat req.sector) (.ofNat (req.currentNrSectors * 512))
    [req.buffer]

def bhHook (t : Tracing) (state : BhState) (bh : BufferHead) : Ekm :=
  if bh.dev ∉ t.devices ∨ bh.size = 0 then e
  else if bh.data.invalid then e
  else e.logAddBhEntry pid bh state.type

def bioHook (t : Tracing) (state : BioState) (bio : Bio) : Option Ekm :=
  if bio.dev ∉ t.devices ∨ bio.rw &&& rwWrite = 0 then some e
  else if bio.segments.any Pointer.invalid then some e
  else e.logAddBioEntry pid bio state.type

def reqHook (t : Tracing) (state : ReqState) (req : Request) : Ekm :=
  if req.dev ∉ t.devices ∨ req.rw &&& state.dir = 0 then e
  else if !t.wantRead ∧ req.rw &&& rwRead ≠ 0 then e
  else e.logAddReqEntry pid req state.type

/-- The hooks at the start of a system call, with its place among the running ones and whether it is
traced. -/
def enterHook (k : Nat) (call : Entering) (traced : Bool) : Ekm :=
  if traced then
    let type := makeType syscallCat (.ofNat (2 * call.args.1))
    { e with
      buf := call.args.2.foldl Arg.log (logHeader e.buf type e.lsn pid)
      lsn := e.lsn + 1
      entryLsn := Function.update e.entryLsn k e.lsn
      log := e.log ++ [⟨type, e.lsn, pid, .enter (call.args.2.map Arg.value)⟩] }
  else { e with entryLsn := Function.update e.entryLsn k invalidLsn }

/-- The hooks at the end of a system call. They write nothing if the result cannot be copied from
the user. -/
def exitHook (k : Nat) (call : Exiting) (ret : UInt32) (copied : Bool) : Ekm :=
  if e.entryLsn k = invalidLsn ∨ !copied then e
  else
    let type := makeType syscallCat (.ofNat (2 * call.args.1 + 1))
    { e with
      buf := (call.args.2.foldl Arg.log ((logHeader e.buf type e.lsn pid).logAddInt ret)).logAddInt
        (e.entryLsn k)
      lsn := e.lsn + 1
      log := e.log ++ [⟨type, e.lsn, pid, .exit ret (call.args.2.map Arg.value) (e.entryLsn k)⟩] }

def emptyLog : Ekm := { e with buf := .empty, lsn := 0, log := [] }

end

end Ekm

/-- A call of a hook, with the thread that makes it. -/
inductive Hook
  | app (gr : AppRecord)
  | bh (t : Tracing) (state : BhState) (bh : BufferHead)
  | bio (t : Tracing) (state : BioState) (bio : Bio)
  | req (t : Tracing) (state : ReqState) (req : Request)
  | enter (k : Nat) (call : Entering) (traced : Bool)
  | exit (k : Nat) (call : Exiting) (ret : UInt32) (copied : Bool)
  | copyLog (size : Int)

namespace Ekm

/-- A call under the lock. Copying the log out empties the buffer but does not reset the counter. -/
def step (e : Ekm) (h : UInt32 × Hook) : Option Ekm :=
  match h.2 with
  | .app gr => some (e.logAppRecord h.1 gr)
  | .bh t state bh => some (e.bhHook h.1 t state bh)
  | .bio t state bio => e.bioHook h.1 t state bio
  | .req t state req => some (e.reqHook h.1 t state req)
  | .enter k call traced => some (e.enterHook h.1 k call traced)
  | .exit k call ret copied => some (e.exitHook h.1 k call ret copied)
  | .copyLog size =>
    match e.buf.copyLogBuffer size with
    | none => some e
    | some r => some { e with buf := r.2 }

def run (e : Ekm) (hooks : List (UInt32 × Hook)) : Option Ekm := hooks.foldlM step e

end Ekm

end Explode.Ekm
