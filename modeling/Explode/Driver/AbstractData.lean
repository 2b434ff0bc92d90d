import Explode.Driver.RegionRuns
import Explode.Driver.AbstFS

/-!
# Reading a file into the abstract file system

The loop of `abstract_data` reads a file from its start and, once it is past the
offsets at which the tests write, goes on near the offset of their last write.
-/

namespace Explode.Driver

def abstractBuf : Nat := 1024 * 16

def jumpOffset : Nat := 0x3ffff000

/-- How many bytes each `pread` of a file of a given size returns, by its offset and by the number
of earlier reads at the same offset. -/
structure ReadCounts (size : Nat) where
  count : Nat → Nat → Nat
  inside : ∀ off j, off < size → 1 ≤ count off j ∧ count off j ≤ min abstractBuf (size - off)
  outside : ∀ off j, size ≤ off → count off j = 0

structure Abstracting where
  fs : AbstFS
  off : Nat
  reads : Nat → Nat

def nextOffset (off n : Nat) : Nat :=
  if 33000 < off + n ∧ off + n < 0x40000000 then jumpOffset else off + n

def Abstracting.next (s : Abstracting) (fs : AbstFS) (n : Nat) : Abstracting where
  fs := fs
  off := nextOffset s.off n
  reads := Function.update s.reads s.off (s.reads s.off + 1)

section
variable [Hashes] {size : Nat} (counts : ReadCounts size) (content : Nat → UInt8) (path : CString)

/-- The loop of `abstract_data`, with a bound on the number of its passes. -/
def abstractLoop : Nat → Abstracting → Option (FsResult AbstFS)
  | 0, _ => none
  | fuel + 1, s =>
    let n := counts.count s.off (s.reads s.off)
    if n = 0 then some (.ok s.fs)
    else
      match s.fs.pwrite path ((List.range n).map fun i => content (s.off + i)) s.off with
      | .error f => some (.error f)
      | .ok fs => abstractLoop fuel (s.next fs n)

def abstractData (fuel : Nat) (fs : AbstFS) : Option (FsResult AbstFS) :=
  abstractLoop counts content path fuel ⟨fs, 0, fun _ => 0⟩

end

theorem next_past_jump {s : Abstracting} (fs : AbstFS) {n : Nat} (h : s.off = jumpOffset)
    (hn : 4096 ≤ n) : 0x40000000 ≤ (s.next fs n).off := by
  rw [jumpOffset] at h
  rw [Abstracting.next, nextOffset, if_neg (by omega)]
  dsimp only
  omega

theorem next_at_jump {s : Abstracting} (fs : AbstFS) {n : Nat} (h : s.off = jumpOffset)
    (hn : n < 4096) : (s.next fs n).off = jumpOffset := by
  rw [jumpOffset] at h
  exact if_pos (by omega)

theorem next_reads_jump {s : Abstracting} (fs : AbstFS) {n : Nat} (h : s.off = jumpOffset) :
    (s.next fs n).reads jumpOffset = s.reads jumpOffset + 1 := by
  rw [← h]
  exact Function.update_self s.off _ s.reads

theorem next_reads_of_le {s : Abstracting} (fs : AbstFS) {n : Nat} (h : s.off ≤ 33000)
    (hReads : s.reads jumpOffset = 0) : (s.next fs n).reads jumpOffset = 0 := by
  have hOther : jumpOffset ≠ s.off := by
    rw [jumpOffset]
    omega
  exact (Function.update_of_ne hOther _ _).trans hReads

theorem next_from_start {s : Abstracting} (fs : AbstFS) {n : Nat} (h : s.off ≤ 33000)
    (hn : n ≤ abstractBuf) : (s.next fs n).off = jumpOffset ∨
      (s.next fs n).off = s.off + n ∧ (s.next fs n).off ≤ 33000 := by
  rw [abstractBuf] at hn
  rw [Abstracting.next, nextOffset]
  split_ifs
  · exact .inl rfl
  · refine .inr ⟨rfl, ?_⟩
    dsimp only
    omega

section
variable [Hashes] {size : Nat} {counts : ReadCounts size} {content : Nat → UInt8} {path : CString}

variable (counts content path) in
def Abstracting.Ends (s : Abstracting) : Prop :=
  ∃ fuel, (abstractLoop counts content path fuel s).isSome

theorem ends_of_next {s : Abstracting}
    (hNext : counts.count s.off (s.reads s.off) ≠ 0 → ∀ fs, Abstracting.Ends counts content path
        (s.next fs (counts.count s.off (s.reads s.off)))) :
    Abstracting.Ends counts content path s := by
  by_cases hn : counts.count s.off (s.reads s.off) = 0
  · refine ⟨1, ?_⟩
    rw [abstractLoop, if_pos hn]
    rfl
  · cases hWrite : s.fs.pwrite path
        ((List.range (counts.count s.off (s.reads s.off))).map fun i => content (s.off + i))
        s.off with
    | error f =>
      refine ⟨1, ?_⟩
      simp only [abstractLoop, if_neg hn, hWrite]
      rfl
    | ok fs =>
      obtain ⟨fuel, hFuel⟩ := hNext hn fs
      refine ⟨fuel + 1, ?_⟩
      simp only [abstractLoop, if_neg hn, hWrite]
      exact hFuel

theorem ends_of_size_le {s : Abstracting} (h : size ≤ s.off) :
    Abstracting.Ends counts content path s :=
  ends_of_next fun hn => absurd (counts.outside _ _ h) hn

theorem ends_past_jump {s : Abstracting} (h : 0x40000000 ≤ s.off) :
    Abstracting.Ends counts content path s := by
  induction hLeft : size - s.off using Nat.strongRecOn generalizing s with
  | ind left ih =>
    rcases Nat.lt_or_ge s.off size with hLt | hGe
    · have hCount := counts.inside s.off (s.reads s.off) hLt
      apply ends_of_next
      intro _ fs
      have hOff : (s.next fs (counts.count s.off (s.reads s.off))).off =
          s.off + counts.count s.off (s.reads s.off) := if_neg (by omega)
      exact ih _ (by omega) (by omega) rfl
    · exact ends_of_size_le hGe

theorem ends_at_jump {s : Abstracting} {last : Nat} (h : s.off = jumpOffset)
    (hLast : 4096 ≤ counts.count jumpOffset last) (hReads : s.reads jumpOffset ≤ last) :
    Abstracting.Ends counts content path s := by
  induction hLeft : last - s.reads jumpOffset generalizing s with
  | zero =>
    have hNow : s.reads jumpOffset = last := by omega
    apply ends_of_next
    intro _ fs
    apply ends_past_jump
    rw [h, hNow]
    exact next_past_jump fs h hLast
  | succ left ih =>
    apply ends_of_next
    intro _ fs
    rw [h]
    rcases Nat.lt_or_ge (counts.count jumpOffset (s.reads jumpOffset)) 4096 with hShort | hFar
    · have hSame := next_reads_jump fs h (n := counts.count jumpOffset (s.reads jumpOffset))
      exact ih (next_at_jump fs h hShort) (by omega) (by omega)
    · exact ends_past_jump (next_past_jump fs h hFar)

theorem ends_from_start {s : Abstracting} (h : s.off ≤ 33000) (hReads : s.reads jumpOffset = 0)
    (hCounts : size ≤ jumpOffset ∨ ∃ last, 4096 ≤ counts.count jumpOffset last) :
    Abstracting.Ends counts content path s := by
  induction hLeft : 33000 - s.off using Nat.strongRecOn generalizing s with
  | ind left ih =>
    apply ends_of_next
    intro hn fs
    have hLt : s.off < size := by
      by_contra hGe
      exact hn (counts.outside _ _ (Nat.not_lt.mp hGe))
    have hCount := counts.inside s.off (s.reads s.off) hLt
    have hRest := next_reads_of_le fs h hReads (n := counts.count s.off (s.reads s.off))
    rcases next_from_start fs h (Nat.le_trans hCount.2 (Nat.min_le_left _ _)) with
      hJump | ⟨hOff, hBefore⟩
    · rcases hCounts with hSmall | ⟨last, hLast⟩
      · exact ends_of_size_le (hJump ▸ hSmall)
      · exact ends_at_jump hJump hLast (hRest ▸ Nat.zero_le last)
    · exact ih _ (by omega) hBefore hRest rfl

/-- File data that has no regions, with `_buf` null. -/
structure Data.Blank (d : Data) : Prop where
  regions : d.regions = []
  buf : d.buf = false


theorem Data.Blank.wellFormed {d : Data} (h : d.Blank) : d.WellFormed := by
  refine wellFormed_of_regions (d := Data.empty false d.junk) h.regions (wellFormed_empty _ _)

omit [Hashes] in
theorem Data.Blank.preadSafe {d : Data} (h : d.Blank) (n off : Nat) : d.PreadSafe n off := by
  intro i hi hPast
  rw [h.regions] at hPast
  have hStart : (intersectedRange [] off (off + n)).start = off := rfl
  omega

theorem Data.Blank.byteAt {d : Data} (h : d.Blank) (x : Nat) : d.byteAt x = 0 := by
  rw [Data.byteAt, h.regions]
  rfl

theorem Data.Blank.writeWords {d : Data} (h : d.Blank) {buf : Bytes} {bufStart : Nat}
    (hStart : bufStart % 4 = 0) (hLength : buf.length % 4 = 0)
    (hMax : bufStart + buf.length ≤ offMax) (hZero : ∀ i, buf.getD i 0 = 0) :
    ∃ d', d.writeWords buf bufStart = .ok d' ∧ d'.Blank := by
  have hPieces := @pieces_kinded _ buf _ _ hStart rfl (by omega) hMax
    (buf.length / 4) bufStart hStart (Nat.le_refl _) (by omega)
  have hType : ∀ p ∈ pieces buf bufStart (bufStart + buf.length) (buf.length / 4)
      bufStart, p.type = .zero := by
    intro p hp
    obtain ⟨hWF, -, hLt, -, -, hKind⟩ := hPieces p hp
    have hWord : getSig buf (p.start - bufStart) = 0 := by
      funext i
      exact hZero _
    have hFirst := hKind p.start hWF.start_aligned (Nat.le_refl _) hLt
    rw [hWord, getType, if_pos rfl] at hFirst
    exact (congrArg Prod.fst hFirst).symm
  have hFold : ∀ l : List Piece, (∀ p ∈ l, p.type = .zero) →
      l.foldlM Data.writeRegion d = .ok d := by
    intro l hl
    induction l with
    | nil => rfl
    | cons p rest ih =>
      obtain ⟨hp, hRest⟩ := List.forall_mem_cons.mp hl
      have hWrite : d.writeRegion p = .ok d := by
        rw [Data.writeRegion, h.regions]
        have hNone : (intersectedRange [] p.start p.stop).regions = [] := rfl
        rw [hNone]
        simp only [List.foldlM_nil, pure, Except.pure, Writing.finish, hp]
        rfl
      rw [List.foldlM_cons, hWrite]
      exact ih hRest
  refine ⟨{ d with buf := false }, ?_, h.regions, rfl⟩
  rw [Data.writeWords, hFold _ hType]
  rfl

theorem Data.Blank.pwrite {d : Data} (h : d.Blank) {n off : Nat} (hMax : off + n ≤ offMax) :
    ∃ d', d.pwrite (List.replicate n 0) off = .ok d' ∧ d'.Blank := by
  have hZero : ∀ i, (List.replicate n (0 : UInt8)).getD i 0 = 0 := by
    intro i
    rw [List.getD_eq_getElem?_getD, List.getElem?_replicate]
    split <;> rfl
  rw [Data.pwrite, List.length_replicate]
  split_ifs with hUnaligned hBuf
  · exact absurd hBuf (by simp [h.buf])
  · obtain ⟨edges, hRead, hRegions, hSame, hLength, hBytes⟩ :=
      @readEdges_spec _ d (List.replicate n 0) off h.wellFormed
      ⟨fun _ => h.preadSafe _ _, fun _ => h.preadSafe _ _⟩
    rw [List.length_replicate] at hLength hBytes
    have hEdges : edges.2.Blank := ⟨hRegions.trans h.regions, hSame.trans h.buf⟩
    have hDown := roundDown_spec off
    have hUp := roundUp_spec hMax
    have hEdgesZero : ∀ i, edges.1.getD i 0 = 0 := by
      intro i
      rcases Nat.lt_or_ge i edges.1.length with hi | hi
      · have hByte := hBytes (roundDown off + i) (by omega) (by omega)
        rw [Nat.add_sub_cancel_left] at hByte
        rw [hByte, hZero, h.byteAt, ite_self]
      · rw [List.getD_eq_getElem?_getD, List.getElem?_eq_none hi, Option.getD_none]
    obtain ⟨d', hWrite, hBlank⟩ := hEdges.writeWords hDown.1 (by omega) (by omega) hEdgesZero
    refine ⟨d', ?_, hBlank⟩
    rw [hRead]
    exact hWrite
  · exact h.writeWords (by omega) (by rw [List.length_replicate]; omega)
      (by rwa [List.length_replicate]) hZero

end

def filePath : CString := [47, 109, 47, 102]

def oneFile (f : FileObj) : AbstFS where
  id := 2
  nameId := 1
  objs := ⟨[(0, ⟨0, 0, 511, .dir ⟨⟨[([102], 1)], by decide⟩, none⟩⟩),
    (1, ⟨1, 1, 511, .file f⟩)], List.pairwise_pair.mpr Nat.zero_lt_one⟩
  mnt := [47, 109]
  nr := fun _ => 1
  memory := zeroMemory
  files := 1

section
variable [Hashes] {size : Nat} {counts : ReadCounts size}

theorem pwrite_oneFile {f : FileObj} (h : f.d.Blank) {n off : Nat} (hMax : off + n ≤ offMax) :
    ∃ f', (oneFile f).pwrite filePath (List.replicate n 0) off = .ok (oneFile f') ∧ f'.d.Blank := by
  obtain ⟨d', hWrite, hBlank⟩ := h.pwrite hMax
  obtain ⟨name, hFind⟩ : ∃ name, (oneFile f).findPath filePath nameiInit = .ok (1, name) :=
    ⟨_, rfl⟩
  refine ⟨⟨if f.size < off + n then off + n else f.size, dataSig d', d'⟩, ?_, hBlank⟩
  rw [AbstFS.pwrite, AbstFS.onFile, hFind]
  have hFile : f.pwrite (List.replicate n 0) off =
      .ok ⟨if f.size < off + n then off + n else f.size, dataSig d', d'⟩ := by
    rw [FileObj.pwrite, hWrite, List.length_replicate]
    rfl
  have hBody : (oneFile f).objs.get? 1 = some ⟨1, 1, 511, .file f⟩ := rfl
  simp only [bind, Except.bind, hBody, hFile]
  rfl

theorem abstractLoop_eq_none (hSize : jumpOffset < size)
    (hShort : ∀ j, counts.count jumpOffset j < 4096) (fuel : Nat) {s : Abstracting} {f : FileObj}
    (hFs : s.fs = oneFile f) (hBlank : f.d.Blank) (hOff : s.off ≤ 33000 ∨ s.off = jumpOffset) :
    abstractLoop counts (fun _ => 0) filePath fuel s = none := by
  induction fuel generalizing s f with
  | zero => rfl
  | succ fuel ih =>
    have hLt : s.off < size := by
      rw [jumpOffset] at hSize hOff
      omega
    have hCount := counts.inside s.off (s.reads s.off) hLt
    have hMax : s.off + counts.count s.off (s.reads s.off) ≤ offMax := by
      rw [abstractBuf] at hCount
      rw [jumpOffset] at hOff
      rw [offMax]
      omega
    obtain ⟨f', hWrite, hBlank'⟩ := pwrite_oneFile hBlank hMax
    rw [← hFs] at hWrite
    rw [abstractLoop, if_neg (by omega), List.map_const', List.length_range, hWrite]
    apply ih rfl hBlank'
    rcases hOff with hStart | hJump
    · rcases next_from_start (oneFile f') hStart
        (Nat.le_trans hCount.2 (Nat.min_le_left _ _)) with hJump | ⟨-, hBefore⟩
      · exact .inr hJump
      · exact .inl hBefore
    · rw [hJump]
      exact .inr (next_at_jump (oneFile f') hJump (hShort _))

end

/-- The loop ends exactly when the file ends before the offset of the jump or some read there gets
past the window. -/
theorem abstractData_ends_iff [Hashes] (size : Nat) (counts : ReadCounts size) :
    (∀ content path fs, ∃ fuel, (abstractData counts content path fuel fs).isSome) ↔
      size ≤ jumpOffset ∨ ∃ j, 4096 ≤ counts.count jumpOffset j := by
  constructor
  · intro hEnds
    by_contra hNot
    obtain ⟨hSize, hShort⟩ := not_or.mp hNot
    obtain ⟨fuel, hFuel⟩ := hEnds (fun _ => 0) filePath
      (oneFile ⟨0, 0, Data.empty false fun _ _ => 0⟩)
    rw [abstractData, abstractLoop_eq_none (Nat.not_le.mp hSize)
      (fun j => Nat.not_le.mp fun hFar => hShort ⟨j, hFar⟩) fuel rfl ⟨rfl, rfl⟩
      (.inl (Nat.zero_le _))] at hFuel
    cases hFuel
  · intro hCounts content path fs
    exact ends_from_start (Nat.zero_le _) rfl hCounts

def fullReads (size : Nat) : ReadCounts size where
  count off _ := min abstractBuf (size - off)
  inside off _ h := by
    rw [abstractBuf]
    omega
  outside off _ h := by omega

attribute [local instance] sampleHashes

/-- A file that ends shortly after the offset of the jump is read over and over again. -/
theorem abstractData_never_ends :
    (fullReads (jumpOffset + 100)).count jumpOffset 0 = 100 ∧
      ∀ fuel, abstractData (fullReads (jumpOffset + 100)) (fun _ => 0)
        filePath fuel (oneFile ⟨0, 0, Data.empty false fun _ _ => 0⟩) = none := by
  refine ⟨rfl, fun fuel => ?_⟩
  refine abstractLoop_eq_none (by omega) ?_ fuel rfl ⟨rfl, rfl⟩ (.inl (Nat.zero_le _))
  intro j
  rw [fullReads]
  dsimp only
  omega

end Explode.Driver
