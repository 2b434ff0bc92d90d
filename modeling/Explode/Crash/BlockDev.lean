import Explode.Crash.Log

/-!
# Disk contents

The contents of the traced devices, sector by sector. A write takes the chunk of
its signature from the database.
-/

namespace Explode.Crash

/-- The contents of one device. Its size is a whole number of sectors. -/
structure BlockDevData where
  id : Int
  sectors : List Chunk
  deriving DecidableEq

namespace BlockDevData

def readSector (d : BlockDevData) (sector : Int) : Option Chunk :=
  if 0 ≤ sector then d.sectors[sector.toNat]? else none

def writeSector (d : BlockDevData) (sector : Int) (b : Chunk) : Option BlockDevData :=
  if 0 ≤ sector ∧ sector < d.sectors.length then
    some { d with sectors := d.sectors.set sector.toNat b }
  else none

end BlockDevData

abbrev BlockDevDataVec := List BlockDevData

namespace BlockDevDataVec

def findData (disks : BlockDevDataVec) (device : Int) : Option BlockDevData :=
  disks.find? fun d => d.id = device

def readChunk (disks : BlockDevDataVec) (loc : SectorLoc) : Option Chunk :=
  (findData disks loc.1).bind fun d => d.readSector loc.2

def writeChunk : BlockDevDataVec → SectorLoc → Chunk → Option BlockDevDataVec
  | [], _, _ => none
  | d :: disks, loc, b =>
    if d.id = loc.1 then (d.writeSector loc.2 b).map (· :: disks)
    else (writeChunk disks loc b).map (d :: ·)

def write (db : ChunkDB) (disks : BlockDevDataVec) (loc : SectorLoc) (sig : Signature) :
    Option BlockDevDataVec :=
  (db.read sig).bind (writeChunk disks loc)

/-- `read`, which stores the sector in the database to learn its signature. -/
def read [ChunkHash] (db : ChunkDB) (disks : BlockDevDataVec)
    (loc : SectorLoc) : Option (Signature × ChunkDB) :=
  (readChunk disks loc).bind (db.write)

def haveSector [ChunkHash] (db : ChunkDB) (disks : BlockDevDataVec)
    (s : SectorRec) : Option (Bool × ChunkDB) :=
  (read db disks s.loc).map fun r => (r.1 == s.sig, r.2)

def writeSet (db : ChunkDB) (disks : BlockDevDataVec) (wset : WrSet) : Option BlockDevDataVec :=
  wset.foldlM (fun disks w => write db disks w.1 w.2) disks

end BlockDevDataVec

def ChunkDB.Extends (db db' : ChunkDB) : Prop :=
  ∀ sig b, db.read sig = some b → db'.read sig = some b

theorem ChunkDB.Extends.refl (db : ChunkDB) : db.Extends db := fun _ _ h => h

theorem ChunkDB.Extends.trans {db db' db'' : ChunkDB} (h : db.Extends db') (h' : db'.Extends db'') :
    db.Extends db'' := fun sig b hRead => h' sig b (h sig b hRead)

theorem ChunkDB.write_spec [ChunkHash] {db db' : ChunkDB} {b : Chunk}
    {sig : Signature} (hWrite : db.write b = some (sig, db')) :
    sig = explodeHash b ∧ db'.read sig = some b ∧ db.Extends db' := by
  unfold ChunkDB.write at hWrite
  split at hWrite
  · rename_i unit hOld
    split at hWrite
    · rename_i hSame
      cases hWrite
      exact ⟨rfl, hSame ▸ hOld, .refl db⟩
    · cases hWrite
  · rename_i hNew
    cases hWrite
    refine ⟨rfl, ?_, ?_⟩
    · rw [read, List.lookup_cons_self]
    · intro sig c hRead
      have hNe : sig ≠ explodeHash b := by
        rintro rfl
        cases hNew.symm.trans hRead
      rw [read, List.lookup_cons, beq_false_of_ne hNe]
      exact hRead

namespace BlockDevDataVec

variable {disks disks' : BlockDevDataVec} {loc : SectorLoc} {b : Chunk}

theorem readSector_writeSector {d d' : BlockDevData} {sector : Int}
    (hWrite : d.writeSector sector b = some d') (other : Int) :
    d'.readSector other = if other = sector then some b else d.readSector other := by
  unfold BlockDevData.writeSector at hWrite
  split at hWrite
  · rename_i hRange
    cases hWrite
    simp only [BlockDevData.readSector]
    by_cases hEq : other = sector
    · subst hEq
      have hLt : other.toNat < d.sectors.length := by omega
      rw [if_pos hRange.1, if_pos rfl, List.getElem?_set_self hLt]
    · rw [if_neg hEq]
      split
      · have hNe : sector.toNat ≠ other.toNat := by omega
        rw [List.getElem?_set_ne hNe]
      · rfl
  · cases hWrite

theorem readChunk_cons (d : BlockDevData) (disks : BlockDevDataVec) (loc : SectorLoc) :
    readChunk (d :: disks) loc =
      if d.id = loc.1 then d.readSector loc.2 else readChunk disks loc := by
  simp only [readChunk, findData, List.find?_cons]
  split <;> simp_all

theorem readChunk_writeChunk (hWrite : writeChunk disks loc b = some disks') (other : SectorLoc) :
    readChunk disks' other = if other = loc then some b else readChunk disks other := by
  induction disks generalizing disks' with
  | nil => cases hWrite
  | cons d disks ih =>
    unfold writeChunk at hWrite
    split at hWrite
    · rename_i hDev
      obtain ⟨d', hd', rfl⟩ := Option.map_eq_some_iff.mp hWrite
      have hId : d'.id = d.id := by
        unfold BlockDevData.writeSector at hd'
        split at hd'
        · cases hd'
          rfl
        · cases hd'
      rw [readChunk_cons, readChunk_cons, hId, readSector_writeSector hd']
      by_cases hSame : d.id = other.1
      · rw [if_pos hSame, if_pos hSame]
        have hIff : other.2 = loc.2 ↔ other = loc := by
          constructor
          · intro hSnd
            exact Prod.ext (hSame.symm.trans hDev) hSnd
          · rintro rfl
            rfl
        simp only [hIff]
      · have hNe : other ≠ loc := by
          rintro rfl
          exact hSame hDev
        rw [if_neg hSame, if_neg hSame, if_neg hNe]
    · rename_i hDev
      obtain ⟨rest, hRest, rfl⟩ := Option.map_eq_some_iff.mp hWrite
      rw [readChunk_cons, readChunk_cons]
      split
      · rename_i hSame
        have hNe : other ≠ loc := by
          rintro rfl
          exact hDev hSame
        rw [if_neg hNe]
      · exact ih hRest

theorem isSome_writeSector (d : BlockDevData) (sector : Int) (b : Chunk) :
    (d.writeSector sector b).isSome = (d.readSector sector).isSome := by
  rw [BlockDevData.writeSector, BlockDevData.readSector]
  by_cases hLow : 0 ≤ sector
  · have hLt : sector < d.sectors.length ↔ sector.toNat < d.sectors.length := by omega
    by_cases hHigh : sector.toNat < d.sectors.length
    · simp [hLow, hLt, hHigh]
    · simp [hLow, hLt, hHigh]
  · simp [hLow]

theorem isSome_writeChunk (disks : BlockDevDataVec) (loc : SectorLoc) (b : Chunk) :
    (writeChunk disks loc b).isSome = (readChunk disks loc).isSome := by
  induction disks with
  | nil => rfl
  | cons d disks ih =>
    rw [readChunk_cons, writeChunk]
    split
    · rw [Option.isSome_map, isSome_writeSector]
    · rw [Option.isSome_map, ih]

theorem exists_writeChunk (hRead : (readChunk disks loc).isSome) (b : Chunk) :
    ∃ disks', writeChunk disks loc b = some disks' :=
  Option.isSome_iff_exists.mp ((isSome_writeChunk disks loc b).trans hRead)

theorem write_spec {db : ChunkDB} {sig : Signature}
    (hWrite : write db disks loc sig = some disks') :
    (db.read sig).isSome ∧ ∀ other, readChunk disks' other =
      if other = loc then db.read sig else readChunk disks other := by
  obtain ⟨b, hb, hChunk⟩ := Option.bind_eq_some_iff.mp hWrite
  rw [hb]
  exact ⟨rfl, readChunk_writeChunk hChunk⟩

theorem writeSet_spec {db : ChunkDB} {wset : WrSet}
    (hNodup : (wset.map Prod.fst).Nodup) (hWrite : writeSet db disks wset = some disks') :
    (∀ w ∈ wset, (db.read w.2).isSome) ∧ ∀ loc, readChunk disks' loc =
      match wset.lookup loc with
      | some sig => db.read sig
      | none => readChunk disks loc := by
  induction wset generalizing disks with
  | nil =>
    cases hWrite
    exact ⟨fun w hw => absurd hw List.not_mem_nil, fun loc => rfl⟩
  | cons w wset ih =>
    obtain ⟨hNew, hRest⟩ := List.nodup_cons.mp hNodup
    rw [writeSet, List.foldlM_cons] at hWrite
    obtain ⟨mid, hFirst, hTail⟩ := Option.bind_eq_some_iff.mp hWrite
    obtain ⟨hKnown, hMid⟩ := write_spec hFirst
    obtain ⟨hKnowns, hSet⟩ := ih hRest hTail
    refine ⟨List.forall_mem_cons.mpr ⟨hKnown, hKnowns⟩, fun loc => ?_⟩
    rw [hSet loc, hMid loc, List.lookup_cons]
    by_cases hEq : loc = w.1
    · subst hEq
      have hNone : wset.lookup w.1 = none := by
        rw [List.lookup_eq_none_iff]
        intro p hp
        rw [bne_iff_ne]
        rintro hEq
        exact hNew (hEq ▸ List.mem_map_of_mem hp)
      rw [hNone, beq_self_eq_true, if_pos rfl]
    · rw [beq_false_of_ne hEq, if_neg hEq]

/-- The database has the chunks and the disks have the sectors that `write_set` asks for. -/
def Writable (db : ChunkDB) (disks : BlockDevDataVec) (wset : WrSet) : Prop :=
  ∀ w ∈ wset, (db.read w.2).isSome ∧ (readChunk disks w.1).isSome

theorem isSome_writeSet (db : ChunkDB) (disks : BlockDevDataVec) (wset : WrSet) :
    (writeSet db disks wset).isSome ↔ Writable db disks wset := by
  induction wset generalizing disks with
  | nil => exact ⟨fun _ w hw => absurd hw List.not_mem_nil, fun _ => rfl⟩
  | cons w wset ih =>
    rw [Writable, List.forall_mem_cons, writeSet, List.foldlM_cons]
    cases hFirst : write db disks w.1 w.2 with
    | none =>
      refine ⟨fun h => absurd h Bool.false_ne_true, fun ⟨⟨hSig, hLoc⟩, _⟩ => ?_⟩
      obtain ⟨b, hb⟩ := Option.isSome_iff_exists.mp hSig
      rw [write, hb, Option.bind_some] at hFirst
      rw [← isSome_writeChunk disks w.1 b, hFirst] at hLoc
      exact hLoc
    | some mid =>
      obtain ⟨b, hb, hChunk⟩ := Option.bind_eq_some_iff.mp hFirst
      have hHere : (readChunk disks w.1).isSome := by
        rw [← isSome_writeChunk disks w.1 b, hChunk]
        rfl
      have hSame : ∀ loc, (readChunk mid loc).isSome = (readChunk disks loc).isSome := by
        intro loc
        rw [readChunk_writeChunk hChunk]
        split
        case isTrue hEq => rw [hEq, hHere, Option.isSome_some]
        case isFalse => rfl
      refine (ih mid).trans ?_
      simp only [Writable, hSame, hb, hHere, Option.isSome_some, and_self, true_and]

theorem exists_writeSet {db : ChunkDB} {wset : WrSet}
    (hKnown : Writable db disks wset) : ∃ disks', writeSet db disks wset = some disks' :=
  Option.isSome_iff_exists.mp ((isSome_writeSet db disks wset).mpr hKnown)

end BlockDevDataVec

end Explode.Crash
