import Explode.Crash.Coverage
import Explode.Crash.Record

/-!
# What the disks of a crash hold

The parser of the block records and the permuter share a database of chunks,
which only grows. What stands on a disk that is given to the checker was there
at the start of the trace, or it is the data of a block record for that sector.
-/

namespace Explode.Crash

open Loop Machine Mcl BufferPermuter

/-- The record writes the chunk to the sector. -/
def LinuxBlockRec.Writes (r : LinuxBlockRec) (loc : SectorLoc) (b : Chunk) : Prop :=
  r.type.hasData ∧ r.type ≠ .bioRead ∧ ∃ i < r.nsector, r.sectorLoc i = loc ∧ r.sector i = b

namespace LinuxBlockRecParser

def SourcedSector (recs : List LinuxBlockRec) (db : ChunkDB) (s : SectorRec) : Prop :=
  s.type = .add ∨ s.type = .write →
    ∃ r ∈ recs, ∃ b, r.Writes s.loc b ∧ db.read s.sig = some b

/-- Sectors are added and written with the data that a block record has for them. -/
def Sourced (recs : List LinuxBlockRec) (p : LinuxBlockRecParser) : Prop :=
  ∀ s ∈ p.log, SourcedSector recs p.db s

section
variable {xfs : Bool} {recs : List LinuxBlockRec}
  {r : LinuxBlockRec} {p : LinuxBlockRecParser} {i : Nat} {sig : Signature}

theorem Sourced.push (h : Sourced recs p) {r' : LinuxBlockRec} {type : SectorRecType}
    (hNew : SourcedSector recs p.db ⟨type, r'.sectorLoc i, sig⟩) :
    Sourced recs (p.pushBack r' type i sig) :=
  List.forall_mem_append.mpr ⟨h, List.forall_mem_singleton.mpr hNew⟩

theorem Sourced.dbWrite [ChunkHash] (h : Sourced recs p) (hr : r ∈ recs) (hi : i < r.nsector)
    {next : Signature × LinuxBlockRecParser → Parsed}
    (hNext : ∀ sig q, Sourced recs q → (r.type.hasData → r.type ≠ .bioRead →
        ∀ type, SourcedSector recs q.db ⟨type, r.sectorLoc i, sig⟩) →
      Returns (Sourced recs) (fun _ => True) (next (sig, q))) :
    Returns (Sourced recs) (fun _ => True) ((p.dbWrite r i).bind next) := by
  rw [LinuxBlockRecParser.dbWrite]
  split
  · trivial
  · rename_i sig db hWrite
    obtain ⟨_, hRead, hExtends⟩ := ChunkDB.write_spec hWrite
    refine hNext sig { p with db := db } ?_ ?_
    · intro s hs hType
      obtain ⟨r, hr, b, hb, hOld⟩ := h s hs hType
      exact ⟨r, hr, b, hb, hExtends _ _ hOld⟩
    · exact fun hData hKind _ _ => ⟨r, hr, _, ⟨hData, hKind, i, hi, rfl, rfl⟩, hRead⟩

theorem Sourced.unlock (h : Sourced recs p) :
    Returns (Sourced recs) (fun _ => True) (p.unlockSector xfs r i) := by
  unfold unlockSector
  dsimp only
  split_ifs
  · trivial
  · exact h
  · split
    · trivial
    · exact Sourced.push (p := p.setState r i _) h (by simp [SourcedSector])
  · exact h

theorem Sourced.remove (h : Sourced recs p) :
    Returns (Sourced recs) (fun _ => True) (p.removeSector r i) := by
  unfold removeSector
  dsimp only
  split_ifs
  · exact h
  · exact h
  · exact Sourced.push (p := p.setState r i _) h (by simp [SourcedSector])

theorem Sourced.add [ChunkHash] (h : Sourced recs p) (hr : r ∈ recs) (hData : r.type.hasData)
    (hKind : r.type ≠ .bioRead) (hi : i < r.nsector) :
    Returns (Sourced recs) (fun _ => True) (p.addSector r i) := by
  refine h.dbWrite hr hi fun sig q hq hNew => ?_
  dsimp only
  split_ifs
  · exact hq
  · exact Sourced.push (p := q.setState r i _) hq (hNew hData hKind .add)
  · exact hq
  · exact Sourced.push (p := q.setState r i _) hq (hNew hData hKind .add)

theorem Sourced.parse [ChunkHash] (h : Sourced recs p) (hr : r ∈ recs) :
    Returns (Sourced recs) (fun _ => True) (p.parse xfs r) := by
  have hLoop : ∀ {body : LinuxBlockRecParser → Nat → Parsed},
      (∀ i < r.nsector, ∀ q, Sourced recs q → Returns (Sourced recs) (fun _ => True) (body q i)) →
      Returns (Sourced recs) (fun _ => True) (p.forSectors r body) :=
    fun hBody => range_returns (I := fun _ => Sourced recs) hBody h
  unfold LinuxBlockRecParser.parse
  split
  case _ hType | _ hType | _ hType | _ hType =>
    exact hLoop fun i hi q hq => hq.add hr (by rw [hType]; rfl) (by rw [hType]; decide) hi
  case _ => exact hLoop fun i _ q hq => hq.remove
  case _ hType =>
    refine hLoop fun i hi q hq => hq.dbWrite hr hi fun sig q' hq' hNew => ?_
    have hWrites := hNew (by rw [hType]; rfl) (by rw [hType]; decide)
    exact Sourced.push (p := q'.setState r i _) hq' (hWrites _)
  case _ =>
    refine hLoop fun i _ q hq => ?_
    rw [lockSector]
    split
    · trivial
    · exact hq
  case _ => exact hLoop fun i _ q hq => hq.unlock
  case _ =>
    refine hLoop fun i hi q hq => hq.dbWrite hr hi fun sig q' hq' _ => ?_
    exact hq'.push (by simp [SourcedSector])
  all_goals exact h

end

theorem sourced_parseAll [ChunkHash] {xfs : Bool} {db : ChunkDB} {recs : List LinuxBlockRec}
    {q : LinuxBlockRecParser} (hParse : parseAll xfs db recs = .ok q) : Sourced recs q := by
  have hAll : Meets (parse xfs) (fun _ _ _ => True) [] (start db) recs ∧
      Returns (Sourced recs) (fun _ => True) (parseAll xfs db recs) :=
    meets_of_invariant (fun p r hr hp => hp.parse hr) (fun _ _ _ _ _ => trivial)
      (by simp [Sourced, start]) []
  rw [hParse] at hAll
  exact hAll.2

end LinuxBlockRecParser

theorem diskAfter_cases (content : Signature → Option Chunk) (initDisks : BlockDevDataVec)
    (log : List LogRec) (loc : SectorLoc) :
    diskAfter content initDisks log loc = initDisks.readChunk loc ∨
      ∃ s, .sector s ∈ log ∧ s.type = .write ∧ s.loc = loc ∧
        diskAfter content initDisks log loc = content s.sig := by
  induction log using List.reverseRecOn with
  | nil => exact .inl rfl
  | append_singleton log r ih =>
    rw [diskAfter_concat]
    grind

/-- In every replay of sector records that were parsed from block records, a sector of a crash has
its first contents or the data of a block record that wrote it. -/
theorem crashes_hold_logged_data [ChunkHash] {xfs : Bool} {db : ChunkDB} {recs : List LinuxBlockRec}
    {q : LinuxBlockRecParser} (hParse : LinuxBlockRecParser.parseAll xfs db recs = .ok q)
    {log : List LogRec} (hLog : ∀ s, .sector s ∈ log → s ∈ q.log) {opt : PermuterOptions}
    {rand : UnixRandom} {initDisks : BlockDevDataVec} {n : Nat} {p : VersionedPermuter}
    (hRun : steps (step opt.versioned) n (start q.db rand initDisks log) = some p) :
    ∀ disks ∈ p.crashes, ∀ loc b, disks.readChunk loc = some b →
      initDisks.readChunk loc = some b ∨ ∃ r ∈ recs, r.Writes loc b := by
  intro disks hMem loc b hb
  obtain ⟨hInv, hExtends⟩ := inv_of_run _ _ hRun
  obtain ⟨done, rest, choice, rfl, _, _, hChoice, _, hRead⟩ := hInv.crashes disks hMem
  have hLogged : ∀ s, .sector s ∈ done → s.type = .add ∨ s.type = .write → s.loc = loc →
      p.db.read s.sig = some b → ∃ r ∈ recs, r.Writes loc b := by
    rintro s hs hType rfl hKnown
    obtain ⟨r, hr, b', hWrites, hSector⟩ :=
      LinuxBlockRecParser.sourced_parseAll hParse s (hLog s (List.mem_append_left _ hs)) hType
    cases (hExtends _ _ hSector).symm.trans hKnown
    exact ⟨r, hr, hWrites⟩
  rw [hRead loc, overlay] at hb
  split at hb
  · rename_i sig hSig
    obtain ⟨s, hs, hType, hLoc, rfl⟩ := mem_versionsSince (hChoice loc sig hSig)
    exact .inr (hLogged s hs (.inl hType) hLoc hb)
  · obtain hInit | ⟨s, hs, hType, hLoc, hWrite⟩ :=
      diskAfter_cases p.db.read initDisks done loc
    · exact .inl (hInit ▸ hb)
    · exact .inr (hLogged s hs (.inr hType) hLoc (hWrite ▸ hb))

def dirtied : List LinuxBlockRec := [⟨.bhDirty, (0, 0), 512, sampleChunk 1⟩]

attribute [local instance] checksumHash

def dirtiedRun (q : LinuxBlockRecParser) : Option VersionedPermuter :=
  steps (step sampleOptions.versioned) 5
    (start q.db sampleRand sampleDisks (.lastCheck :: q.log.map .sector))

theorem crashes_hold_logged_data_dirtied :
    ∃ q p, LinuxBlockRecParser.parseAll false sampleDb dirtied = .ok q ∧
      dirtiedRun q = some p ∧ p.crashes.length = 2 ∧
      ∀ disks ∈ p.crashes, ∀ loc b, disks.readChunk loc = some b →
        sampleDisks.readChunk loc = some b ∨ ∃ r ∈ dirtied, r.Writes loc b := by
  have hTwo : ((LinuxBlockRecParser.parseAll false sampleDb dirtied).toOption.bind fun q =>
      (dirtiedRun q).map fun p => p.crashes.length) = some 2 := by decide +kernel
  cases hParse : LinuxBlockRecParser.parseAll false sampleDb dirtied with
  | error e =>
    rw [hParse] at hTwo
    cases hTwo
  | ok q =>
    rw [hParse] at hTwo
    obtain ⟨p, hRun, hLength⟩ := Option.map_eq_some_iff.mp hTwo
    exact ⟨q, p, rfl, hRun, hLength, crashes_hold_logged_data hParse (by simp) hRun⟩

/-- The contents that the checker gets are those that are possible where crashes are checked. -/
theorem handed_iff_possible [ChunkHash] {opt : PermuterOptions} {db : ChunkDB}
    {initDisks : BlockDevDataVec} {log : List LogRec} (rand : UnixRandom)
    (hWell : WellFormed db initDisks log)
    (hOk : ∀ p, Reaches (step opt.versioned) (start db rand initDisks log) p → StepOk opt p) :
    ∃ p, Reaches (step opt.versioned) (start db rand initDisks log) p ∧ p.pc = .done ∧
      ∀ contents, Handed p contents ↔ ∃ before after choice, log = before ++ after ∧
        InEpoch before opt.wants ∧ IsChoice before choice ∧
        contents = overlay db.read initDisks before choice := by
  obtain ⟨p, hReaches, hDone, hCovers⟩ := replay_covers hWell log [] _ rfl
    (tracked_start rand hWell) (accounted_start rand hWell) hOk
  refine ⟨p, hReaches, hDone, fun contents => ⟨?_, ?_⟩⟩
  · rintro ⟨disks, hMem, hContents⟩
    obtain ⟨n, hRun⟩ := hReaches
    obtain ⟨hInv, hExtends⟩ := inv_of_run _ _ hRun
    obtain ⟨done, rest, choice, rfl, hEpoch, _, hChoice, _, hRead⟩ := hInv.crashes disks hMem
    refine ⟨done, rest, choice, rfl, hEpoch, hChoice, funext fun loc => ?_⟩
    rw [← hContents loc, hRead loc, overlay, overlay]
    split
    · rename_i sig hSig
      exact hExtends.read_eq (known_of_version hWell ⟨rest, rfl⟩ (hChoice loc sig hSig)).1
    · exact diskAfter_extends hExtends initDisks done
        (fun s hs hType => hWell.known s (List.mem_append_left _ hs) (.inr hType)) loc
  · rintro ⟨before, after, choice, hLog, hEpoch, hChoice, rfl⟩
    exact hCovers before after hLog hEpoch choice hChoice

theorem handed_iff_possible_sample :
    ∃ p, Reaches (step sampleOptions.versioned)
        (start sampleDb sampleRand sampleDisks sampleLog) p ∧ p.pc = .done ∧
      ∀ contents, Handed p contents ↔ ∃ before after choice, sampleLog = before ++ after ∧
        InEpoch before sampleOptions.wants ∧ IsChoice before choice ∧
        contents = overlay sampleDb.read sampleDisks before choice := by
  have hWell : WellFormed sampleDb sampleDisks sampleLog := by
    apply wellFormed_sample
    simp [sampleLog, sampleRec]
  have hEnd : (steps (step sampleOptions.versioned) 9
      (start sampleDb sampleRand sampleDisks sampleLog)).map BufferPermuter.pc =
        some .done := by decide +kernel
  exact handed_iff_possible sampleRand hWell (stepOk_of_run hEnd (by decide +kernel))

end Explode.Crash
