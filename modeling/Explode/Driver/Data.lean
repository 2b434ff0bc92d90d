import Mathlib.Data.Fintype.Defs
import Mathlib.Algebra.Notation.Pi.Defs
import Mathlib.Data.UInt
import Explode.Lib.ByteStream
import Explode.Lib.IntervalMap

/-!
# Sparse file data

The bytes of a file are kept as regions: regular ones with their own bytes, and
magic ones whose words are the position hashes of their offsets. Offsets outside
every region hold zero.
-/

namespace Explode.Driver

/-- The bytes of a `signature_t` in the order they have in memory. -/
abbrev Word := Fin 4 → UInt8

/-- The hash functions `position_hash` and `explode_hash`, of which nothing is assumed. -/
class Hashes where
  positionHash : Nat → Nat → Word
  explodeHash : Bytes → Word

export Hashes (positionHash explodeHash)

abbrev sampleHashes : Hashes where
  positionHash off magic _ := UInt8.ofNat (off + magic + 50)
  explodeHash bytes _ := UInt8.ofNat bytes.length

def offMax : Nat := 2147483644

def roundDown (x : Nat) : Nat := x / 4 * 4

def roundUp (x : Nat) : Nat := roundDown (x + 3)

theorem roundDown_spec (x : Nat) : roundDown x % 4 = 0 ∧ roundDown x ≤ x := by
  rw [roundDown]
  omega

theorem le_roundUp (x : Nat) : x ≤ roundUp x := by
  rw [roundUp, roundDown]
  omega

theorem roundUp_spec {x : Nat} (hMax : x ≤ offMax) :
    roundUp x % 4 = 0 ∧ x ≤ roundUp x ∧ roundUp x ≤ offMax := by
  rw [roundUp, roundDown]
  rw [offMax] at hMax ⊢
  omega

inductive RegionType
  | zero
  | data
  deriving DecidableEq, Repr

structure DataRegion where
  start : Nat
  stop : Nat
  magic : Nat
  data : Bytes
  deriving DecidableEq, Repr

def getSig (data : Bytes) (o : Nat) : Word := fun i => data.getD (o + i) 0

inductive DataFailure
  | internalCheck
  | mergePending
  | insertPending
  | bufInUse
  | outOfRange
  | unaligned
  | lucky
  deriving DecidableEq, Repr

namespace DataRegion

def internalCheck (r : DataRegion) : Bool :=
  r.stop ≤ offMax &&
    if r.magic ≠ 0 then r.data.isEmpty && decide (r.start < r.stop)
    else if r.data.isEmpty then r.stop = r.start
    else decide (r.start < r.stop) && decide (getSig r.data 0 ≠ 0) &&
      decide (getSig r.data (r.stop - r.start - 4) ≠ 0)

end DataRegion

structure Data where
  regions : List DataRegion
  /-- Whether `_buf` is not null. No constructor sets it. -/
  buf : Bool
  junk : Nat → Nat → UInt8
  allocs : Nat

def memcpy (dst : Bytes) (at_ : Nat) (src : Bytes) (n : Nat) : Bytes :=
  dst.take at_ ++ src.take n ++ dst.drop (at_ + n)

namespace Data

def alloc (d : Data) (n : Nat) : Bytes × Data :=
  ((List.range n).map (d.junk d.allocs), { d with allocs := d.allocs + 1 })

def newRegion (d : Data) (start stop magic : Nat) (data : Bytes) (o : Nat) : DataRegion × Data :=
  if magic ≠ 0 then (⟨start, stop, magic, []⟩, d)
  else
    (⟨start, stop, magic,
      (List.range (stop - start)).map fun i => data.getD (o + i) (d.junk d.allocs i)⟩,
      { d with allocs := d.allocs + 1 })

@[simp]
theorem newRegion_regions (d : Data) (start stop magic : Nat) (data : Bytes) (o : Nat) :
    (d.newRegion start stop magic data o).2.regions = d.regions := by
  rw [newRegion]
  split <;> rfl

def add (d : Data) (r : DataRegion) : Data :=
  { d with regions := IntervalMap.insert DataRegion.start r d.regions }

def addIfAny (d : Data) : Option DataRegion → Data
  | none => d
  | some r => d.add r

def erase (d : Data) (r : DataRegion) : Data :=
  { d with regions := IntervalMap.erase DataRegion.start r d.regions }

def update (d : Data) (r r' : DataRegion) : Data :=
  { d with regions := IntervalMap.update DataRegion.start r r' d.regions }

end Data

/-- The loop of `intersected_range` over the regions from the first candidate on. -/
def scanRange (endIn : Nat) : List DataRegion → Nat × List DataRegion
  | [] => (endIn, [])
  | r :: rest =>
    if endIn < r.start then (endIn, [])
    else if endIn < r.stop then (r.stop, [r])
    else ((scanRange endIn rest).1, r :: (scanRange endIn rest).2)

structure Range where
  start : Nat
  stop : Nat
  regions : List DataRegion
  deriving DecidableEq, Repr

/-- The regions that overlap or touch an interval, and the interval extended over them. -/
def intersectedRange (l : List DataRegion) (startIn endIn : Nat) : Range :=
  let prev := (l.takeWhile fun r => r.start < startIn).getLast?.filter fun r => startIn ≤ r.stop
  let found := scanRange endIn (prev.toList ++ l.dropWhile fun r => r.start < startIn)
  { start := prev.elim startIn DataRegion.start
    stop := found.1
    regions := found.2 }

/-- A call of `write_region`. The buffer starts with the byte for the start of the interval. -/
structure Piece where
  start : Nat
  stop : Nat
  type : RegionType
  magic : Nat
  buf : Bytes
  deriving DecidableEq, Repr

structure Writing where
  data : Data
  insertFront : Option DataRegion
  insertBack : Option DataRegion
  mergeFront : Option DataRegion
  mergeBack : Option DataRegion

inductive WriteStop
  | failed (f : DataFailure)
  | returned (d : Data)

namespace Piece

def OtherKind (p : Piece) (dr : DataRegion) : Prop := p.type = .zero ∨ dr.magic ≠ p.magic

instance (p : Piece) (dr : DataRegion) : Decidable (p.OtherKind dr) :=
  inferInstanceAs (Decidable (_ ∨ _))

end Piece

namespace Writing

def start (d : Data) : Writing := ⟨d, none, none, none, none⟩

def overwrite (w : Writing) (dr : DataRegion) : Except WriteStop Writing :=
  if dr.internalCheck then .ok { w with data := w.data.erase dr }
  else .error (.failed .internalCheck)

/-- A region that starts before the interval and ends in it. The bytes past the new end are
not cleared, since the end is moved before their number is computed. -/
def overFront (p : Piece) (w : Writing) (dr : DataRegion) : Except WriteStop Writing :=
  if p.OtherKind dr then
    if p.start = dr.stop then .ok w
    else .ok { w with data := w.data.update dr { dr with stop := p.start } }
  else if w.mergeFront.isSome then .error (.failed .mergePending)
  else .ok { w with data := w.data.erase dr, mergeFront := some dr }

/-- A region around the interval. The copy of its end starts at the offset of the end of the
interval in the file, not in the region. -/
def inside (p : Piece) (w : Writing) (dr : DataRegion) : Except WriteStop Writing :=
  if p.OtherKind dr then
    if w.insertFront.isSome ∨ w.insertBack.isSome then .error (.failed .insertPending)
    else
      let front := w.data.newRegion dr.start p.start dr.magic dr.data 0
      let back := front.2.newRegion p.stop dr.stop dr.magic dr.data p.stop
      if dr.internalCheck then
        .ok { w with
          data := back.2.erase dr, insertFront := some front.1, insertBack := some back.1 }
      else .error (.failed .internalCheck)
  else if w.insertFront.isSome ∨ w.insertBack.isSome then .error (.failed .insertPending)
  else if w.mergeFront.isSome ∨ w.mergeBack.isSome then .error (.failed .mergePending)
  else if p.magic ≠ 0 then .error (.returned w.data)
  else
    .error (.returned (w.data.update dr
      { dr with data := memcpy dr.data (p.start - dr.start) p.buf (p.stop - p.start) }))

def overBack (p : Piece) (w : Writing) (dr : DataRegion) : Except WriteStop Writing :=
  if p.stop < dr.start then .error (.failed .outOfRange)
  else if p.OtherKind dr then
    if p.stop = dr.start then .ok w
    else if w.insertBack.isSome then .error (.failed .insertPending)
    else
      let back := w.data.newRegion p.stop dr.stop dr.magic dr.data (p.stop - dr.start)
      if dr.internalCheck then
        .ok { w with data := back.2.erase dr, insertBack := some back.1 }
      else .error (.failed .internalCheck)
  else if w.mergeBack.isSome then .error (.failed .mergePending)
  else .ok { w with data := w.data.erase dr, mergeBack := some dr }

def overRegion (p : Piece) (w : Writing) (dr : DataRegion) : Except WriteStop Writing :=
  if p.start ≤ dr.start ∧ dr.stop ≤ p.stop then w.overwrite dr
  else if dr.start < p.start ∧ dr.stop ≤ p.stop then overFront p w dr
  else if dr.start < p.start ∧ p.stop < dr.stop then inside p w dr
  else overBack p w dr

/-- The bytes of the written region: what is merged is copied into a new buffer, the back one
from its first byte on, and the written bytes are put over it. -/
def mergedBytes (p : Piece) (mergeFront mergeBack : Option DataRegion) (start : Nat)
    (fresh : Bytes) : Bytes :=
  let front := mergeFront.elim fresh fun mf => memcpy fresh 0 mf.data (p.start - mf.start)
  let back := mergeBack.elim front fun mb =>
    memcpy front (mb.start - start) mb.data (mb.stop - p.stop)
  memcpy back (p.start - start) p.buf (p.stop - p.start)

def finish (p : Piece) (w : Writing) : Data :=
  let d := (w.data.addIfAny w.insertFront).addIfAny w.insertBack
  match p.type with
  | .zero => d
  | .data =>
    let start := w.mergeFront.elim p.start DataRegion.start
    let stop := w.mergeBack.elim p.stop DataRegion.stop
    if p.magic ≠ 0 then d.add ⟨start, stop, p.magic, []⟩
    else
      let fresh := d.alloc (stop - start)
      fresh.2.add ⟨start, stop, p.magic, mergedBytes p w.mergeFront w.mergeBack start fresh.1⟩

end Writing

namespace Data

def writeRegion (d : Data) (p : Piece) : Except DataFailure Data :=
  match (intersectedRange d.regions p.start p.stop).regions.foldlM (Writing.overRegion p)
      (Writing.start d) with
  | .ok w => .ok (w.finish p)
  | .error (.returned d') => .ok d'
  | .error (.failed f) => .error f

end Data

section
variable [Hashes]

def getType (sig : Word) (off : Nat) : RegionType × Nat :=
  if sig = 0 then (.zero, 0)
  else if sig = positionHash off 1 then (.data, 1)
  else if sig = positionHash off 2 then (.data, 2)
  else (.data, 0)

/-- The end of the run of words of one type, with the number of words that are left. -/
def scanWords (buf : Bytes) (bufStart : Nat) (kind : RegionType × Nat) : Nat → Nat → Nat
  | 0, stop => stop
  | n + 1, stop =>
    if getType (getSig buf (stop - bufStart)) stop = kind then
      scanWords buf bufStart kind n (stop + 4)
    else stop

def nextRegion (buf : Bytes) (bufStart bufEnd start : Nat) : Option Piece :=
  if start = bufEnd then none
  else
    let kind := getType (getSig buf (start - bufStart)) start
    some
      { start := start
        stop := scanWords buf bufStart kind ((bufEnd - start) / 4 - 1) (start + 4)
        type := kind.1
        magic := kind.2
        buf := buf.drop (start - bufStart) }

def pieces (buf : Bytes) (bufStart bufEnd : Nat) : Nat → Nat → List Piece
  | 0, _ => []
  | n + 1, start =>
    match nextRegion buf bufStart bufEnd start with
    | none => []
    | some p => p :: pieces buf bufStart bufEnd n p.stop

def magicByte (magic x : Nat) : UInt8 :=
  positionHash (x / 4 * 4) magic ⟨x % 4, Nat.mod_lt x (by decide)⟩

def magicBytes (start stop magic : Nat) : Bytes :=
  (List.range (stop - start)).map fun i => magicByte magic (start + i)

def isLucky (dr : DataRegion) : Bool :=
  (List.range ((dr.stop - dr.start) / 4)).any fun i =>
    decide (positionHash (dr.start + 4 * i) dr.magic = 0)

/-- One region of `pread`, in a buffer that starts at an offset. -/
def readRegion (start stop : Nat) (buf : Bytes) (dr : DataRegion) : Except DataFailure Bytes :=
  if ¬(start ≤ dr.start ∧ dr.stop ≤ stop) then .error .outOfRange
  else if dr.magic = 0 then .ok (memcpy buf (dr.start - start) dr.data (dr.stop - dr.start))
  else if ¬(dr.start % 4 = 0 ∧ dr.stop % 4 = 0) then .error .unaligned
  else if isLucky dr then .error .lucky
  else
    .ok (memcpy buf (dr.start - start) (magicBytes dr.start dr.stop dr.magic) (dr.stop - dr.start))

namespace Data

def pread (d : Data) (size off : Nat) : Except DataFailure (Bytes × Data) := do
  let range := intersectedRange d.regions off (off + size)
  let fresh := d.alloc (range.stop - range.start)
  let cleared := memcpy fresh.1 0 (List.replicate size 0) size
  let buf ← range.regions.foldlM (readRegion range.start range.stop) cleared
  if range.start ≤ off ∧ off + size ≤ range.stop then
    .ok ((buf.drop (off - range.start)).take size, fresh.2)
  else .error .outOfRange

def readEdge (base a b : Nat) (buf : Bytes × Data) : Except DataFailure (Bytes × Data) :=
  if a < b then do
    let read ← buf.2.pread (b - a) a
    pure (memcpy buf.1 (a - base) read.1 (b - a), read.2)
  else pure buf

/-- The part of `pwrite` that extends an unaligned interval to word boundaries. -/
def readEdges (d : Data) (b : Bytes) (off : Nat) :
    Except DataFailure (Bytes × Data) := do
  let bufStart := roundDown off
  let oldEnd := off + b.length
  let bufEnd := roundUp oldEnd
  let front ← readEdge bufStart bufStart off (d.alloc (bufEnd - bufStart))
  let back ← readEdge bufStart oldEnd bufEnd front
  pure (memcpy back.1 (off - bufStart) b b.length, back.2)

/-- The calls of `write_region` for a word-aligned buffer. -/
def writeWords (d : Data) (buf : Bytes) (bufStart : Nat) : Except DataFailure Data := do
  let words := pieces buf bufStart (bufStart + buf.length) (buf.length / 4) bufStart
  let d' ← words.foldlM writeRegion d
  pure { d' with buf := false }

def pwrite (d : Data) (b : Bytes) (off : Nat) : Except DataFailure Data :=
  if off % 4 ≠ 0 ∨ (off + b.length) % 4 ≠ 0 then
    if d.buf then .error .bufInUse
    else do
      let edges ← d.readEdges b off
      edges.2.writeWords edges.1 (roundDown off)
  else d.writeWords b off

def zeroRange (d : Data) (start stop : Nat) : Except DataFailure Data :=
  d.writeRegion ⟨start, stop, .zero, 0, []⟩

/-- The part of `truncate` that clears the rest of the last word. -/
def clearWord (d : Data) (length : Nat) : Except DataFailure Data :=
  if length < roundUp length then
    d.pwrite (List.replicate (roundUp length - length) 0) length
  else .ok d

def truncate (d : Data) (length : Nat) : Except DataFailure Data := do
  let d' ← d.clearWord length
  d'.zeroRange (roundUp length) offMax

end Data

end

inductive DataOp
  | pwrite (b : Bytes) (off : Nat)
  | truncate (length : Nat)
  deriving DecidableEq, Repr

def DataOp.apply [Hashes] (d : Data) : DataOp → Except DataFailure Data
  | .pwrite b off => d.pwrite b off
  | .truncate length => d.truncate length

def Data.empty (buf : Bool) (junk : Nat → Nat → UInt8) : Data := ⟨[], buf, junk, 0⟩

end Explode.Driver
