import Mathlib.Algebra.Order.Group.Int
import Mathlib.Data.Finset.Basic
import Explode.Lib.Loop

/-!
# Sector records and the chunk database

Logged buffers are broken into sectors. The contents of a sector are kept once,
in a database of chunks, and a record refers to them by their signature.
-/

namespace Explode.Crash

abbrev Signature := UInt32

abbrev Chunk := List UInt8

abbrev SectorLoc := Int × Int

/-- `wr_set_t` -/
abbrev WrSet := List (SectorLoc × Signature)

def sectorSize : Nat := 512

/-- The hash function `explode_hash`, of which nothing is assumed. -/
class ChunkHash where
  explodeHash : Chunk → Signature

export ChunkHash (explodeHash)

def checksum (b : Chunk) : Signature := b.foldl (fun sum x => sum + x.toUInt32) 0

abbrev checksumHash : ChunkHash := ⟨checksum⟩

structure ChunkDB where
  chunks : List (Signature × Chunk)
  deriving DecidableEq

namespace ChunkDB

def read (db : ChunkDB) (sig : Signature) : Option Chunk := db.chunks.lookup sig

/-- `ChunkDB::write`, which asserts that no two chunks share a signature. -/
def write [ChunkHash] (db : ChunkDB) (b : Chunk) : Option (Signature × ChunkDB) :=
  match db.read (explodeHash b) with
  | some unit => if unit = b then some (explodeHash b, db) else none
  | none => some (explodeHash b, ⟨(explodeHash b, b) :: db.chunks⟩)

end ChunkDB

inductive SectorRecType
  | add
  | remove
  | write
  | read
  deriving DecidableEq, Repr

structure SectorRec where
  type : SectorRecType
  loc : SectorLoc
  sig : Signature
  deriving DecidableEq, Repr

end Explode.Crash
