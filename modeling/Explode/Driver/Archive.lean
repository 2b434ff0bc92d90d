import Explode.Driver.Data

/-!
# Archives

An archive is a growing row of bytes with a read position. Integers, sizes and
file offsets take four bytes, the low one first.

The canonical form of file data lists its runs of bytes: a tag, a length and,
unless the bytes are zero, the bytes or the magic number.
-/

namespace Explode.Driver

def intBytes (v : Int) : Bytes :=
  let w := (v % 4294967296).toNat
  [UInt8.ofNat w, UInt8.ofNat (w / 256), UInt8.ofNat (w / 65536), UInt8.ofNat (w / 16777216)]

def unsignedOf : Bytes → Nat
  | [] => 0
  | b :: rest => b.toNat + 256 * unsignedOf rest

def intOf (bytes : Bytes) : Int :=
  if unsignedOf bytes < 2147483648 then unsignedOf bytes else unsignedOf bytes - 4294967296

def wordBytes (w : Word) : Bytes := List.ofFn w

structure Archive where
  buf : Bytes
  rd : Nat
  deriving DecidableEq, Repr

namespace Archive

variable (ar : Archive)

def empty : Archive := ⟨[], 0⟩

def put (p : Bytes) : Archive := { ar with buf := ar.buf ++ p }

/-- `get`, which asserts that so many bytes were written. -/
def get (n : Nat) : Option (Bytes × Archive) :=
  if ar.rd + n ≤ ar.buf.length then
    some ((ar.buf.drop ar.rd).take n, { ar with rd := ar.rd + n })
  else none

def getInt : Option (Int × Archive) := (ar.get 4).map fun r => (intOf r.1, r.2)

def getUnsigned : Option (Nat × Archive) :=
  (ar.get 4).map fun r => (unsignedOf r.1, r.2)

def getWord : Option (Word × Archive) :=
  (ar.get 4).map fun r => (fun i => r.1.getD i 0, r.2)

def putString (s : Bytes) : Archive := (ar.put (intBytes s.length)).put s

def getString : Option (Bytes × Archive) :=
  ar.getUnsigned.bind fun r => r.2.get r.1

end Archive

def byteRuns (bytes : Bytes) : List Bytes :=
  bytes.splitBy fun a b => (a == 0) == (b == 0)

def canonDataRegion (dr : DataRegion) : Bytes :=
  if dr.magic ≠ 0 then intBytes 2 ++ intBytes (dr.stop - dr.start) ++ intBytes dr.magic
  else
    (byteRuns (dr.data.take (dr.stop - dr.start))).flatMap fun run =>
      if run.head? = some 0 then intBytes 0 ++ intBytes run.length
      else intBytes 1 ++ intBytes run.length ++ run

/-- The loop of `canon_data` with the end of the previous region. -/
def canonRegions : Nat → List DataRegion → Bytes
  | _, [] => []
  | prevEnd, dr :: rest =>
    intBytes 0 ++ intBytes (dr.start - prevEnd) ++ canonDataRegion dr ++ canonRegions dr.stop rest

def canonData (d : Data) : Bytes := canonRegions 0 d.regions

end Explode.Driver
