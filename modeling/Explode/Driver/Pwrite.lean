import Explode.Driver.Pread
import Explode.Driver.WriteLoop

/-!
# Writing file data

A buffer is cut into runs of words of one type, and each run is written as a
region. An interval that does not start or end at a word boundary is first
extended with the bytes that the file holds there.
-/

namespace Explode.Driver

open Loop

section
variable [Hashes] {buf : Bytes} {bufStart bufEnd : Nat}

def SameKind (buf : Bytes) (bufStart : Nat) (kind : RegionType × Nat) (a b : Nat) : Prop :=
  ∀ x, x % 4 = 0 → a ≤ x → x < b → getType (getSig buf (x - bufStart)) x = kind

theorem scanWords_spec {kind : RegionType × Nat} {a : Nat} (n b : Nat) (hb : b % 4 = 0)
    (hKind : SameKind buf bufStart kind a b) :
    let stop := scanWords buf bufStart kind n b
    b ≤ stop ∧ stop ≤ b + 4 * n ∧ stop % 4 = 0 ∧ SameKind buf bufStart kind a stop := by
  induction n generalizing b with
  | zero => exact ⟨Nat.le_refl b, Nat.le_refl b, hb, hKind⟩
  | succ n ih =>
    rw [scanWords]
    split
    case isTrue hWord =>
      have hNext : SameKind buf bufStart kind a (b + 4) := by
        intro x hx hLow hHigh
        rcases Nat.lt_or_ge x b with hLt | hGe
        · exact hKind x hx hLow hLt
        · have hEq : x = b := by omega
          rw [hEq]
          exact hWord
      obtain ⟨hLe, hBound, hAligned, hAll⟩ := ih (b + 4) (by omega) hNext
      exact ⟨by omega, by omega, hAligned, hAll⟩
    case isFalse => exact ⟨Nat.le_refl b, by omega, hb, hKind⟩

omit [Hashes] in
theorem getSig_eq (buf : Bytes) (hStart : bufStart % 4 = 0) {x : Nat} (hx : bufStart ≤ x) :
    getSig buf (x / 4 * 4 - bufStart) ⟨x % 4, Nat.mod_lt x (by decide)⟩ =
      buf.getD (x - bufStart) 0 := by
  have hIndex : x / 4 * 4 - bufStart + x % 4 = x - bufStart := by omega
  rw [getSig, hIndex]

theorem getType_cases (sig : Word) (off : Nat) :
    (sig = 0 ∧ getType sig off = (.zero, 0)) ∨ (sig ≠ 0 ∧ (getType sig off).1 = .data ∧
        ((getType sig off).2 ≠ 0 → sig = positionHash off (getType sig off).2)) := by
  rw [getType]
  split
  case isTrue hZero => exact Or.inl ⟨hZero, rfl⟩
  case isFalse hNonzero =>
    refine Or.inr ⟨hNonzero, ?_⟩
    split
    case isTrue hFirst => exact ⟨rfl, fun _ => hFirst⟩
    case isFalse =>
      split
      case isTrue hSecond => exact ⟨rfl, fun _ => hSecond⟩
      case isFalse => exact ⟨rfl, fun h => absurd rfl h⟩

theorem SameKind.byteAt_eq {p : Piece} (hStart : bufStart % 4 = 0) (hLow : bufStart ≤ p.start)
    (hpStart : p.start % 4 = 0) (hpStop : p.stop % 4 = 0)
    (hBuf : p.buf = buf.drop (p.start - bufStart))
    (h : SameKind buf bufStart (p.type, p.magic) p.start p.stop) {x : Nat}
    (hx : p.start ≤ x) (hx' : x < p.stop) :
    p.byteAt x = buf.getD (x - bufStart) 0 := by
  have hWord := h (x / 4 * 4) (by omega) (by omega) (by omega)
  have hByte := getSig_eq buf hStart (Nat.le_trans hLow hx)
  rcases getType_cases (getSig buf (x / 4 * 4 - bufStart))
    (x / 4 * 4) with ⟨hZero, hKind⟩ | ⟨_, hType, hMagic⟩
  · have hType : p.type = .zero := by
      rw [hWord] at hKind
      exact congrArg Prod.fst hKind
    rw [Piece.byteAt, hType, ← hByte, hZero]
    rfl
  · rw [hWord] at hType hMagic
    rw [Piece.byteAt, show p.type = .data from hType]
    dsimp only
    split
    case isTrue =>
      have hIndex : p.start - bufStart + (x - p.start) = x - bufStart := by omega
      rw [hBuf, List.getD_eq_getElem?_getD, List.getElem?_drop, hIndex,
        List.getD_eq_getElem?_getD]
    case isFalse hNonzero => rw [magicByte, ← hMagic hNonzero, hByte]

theorem SameKind.nonzero {p : Piece} (hStart : bufStart % 4 = 0) (hLow : bufStart ≤ p.start)
    (hpStart : p.start % 4 = 0) (hpStop : p.stop % 4 = 0)
    (hBuf : p.buf = buf.drop (p.start - bufStart))
    (h : SameKind buf bufStart (p.type, p.magic) p.start p.stop) (hData : p.type = .data) {x : Nat}
    (hx : x % 4 = 0) (hLower : p.start ≤ x) (hUpper : x < p.stop) :
    ∃ i < 4, p.byteAt (x + i) ≠ 0 := by
  have hWord := h x hx hLower hUpper
  have hNonzero : getSig buf (x - bufStart) ≠ 0 := by
    rcases getType_cases (getSig buf (x - bufStart)) x with
      ⟨_, hKind⟩ | ⟨hNonzero, _⟩
    · rw [hWord] at hKind
      cases hData.symm.trans (congrArg Prod.fst hKind)
    · exact hNonzero
  obtain ⟨i, hi⟩ := Function.ne_iff.mp hNonzero
  refine ⟨i, i.isLt, ?_⟩
  have hIndex : x - bufStart + i = x + i - bufStart := by omega
  rw [h.byteAt_eq hStart hLow hpStart hpStop hBuf (by omega) (by omega), ← hIndex]
  exact hi

theorem nextRegion_spec {start : Nat} (hBufStart : bufStart % 4 = 0)
    (hEnd : bufEnd = bufStart + buf.length) (hBufEnd : bufEnd % 4 = 0) (hMax : bufEnd ≤ offMax)
    (hStart : start % 4 = 0) (hLow : bufStart ≤ start) (hHigh : start < bufEnd) :
    ∃ p, nextRegion buf bufStart bufEnd start = some p ∧ p.start = start ∧
      start < p.stop ∧ p.stop ≤ bufEnd ∧ p.WellFormed ∧
      (∀ x, p.start ≤ x → x < p.stop → p.byteAt x = buf.getD (x - bufStart) 0) ∧
      SameKind buf bufStart (p.type, p.magic) p.start p.stop := by
  obtain ⟨kind, hKind⟩ : ∃ kind, kind = getType (getSig buf (start - bufStart)) start := ⟨_, rfl⟩
  have hFirst : SameKind buf bufStart kind start (start + 4) := by
    intro x hx hx1 hx2
    have hEq : x = start := by omega
    rw [hEq, hKind]
  obtain ⟨hLe, hBound, hAligned, hAll⟩ :=
    scanWords_spec ((bufEnd - start) / 4 - 1) (start + 4) (by omega) hFirst
  obtain ⟨stop, hStop⟩ : ∃ stop, stop = scanWords buf bufStart kind
    ((bufEnd - start) / 4 - 1) (start + 4) := ⟨_, rfl⟩
  rw [← hStop] at hLe hBound hAligned hAll
  refine ⟨⟨start, stop, kind.1, kind.2, buf.drop (start - bufStart)⟩, ?_, rfl,
    by dsimp only; omega, by dsimp only; omega, ?_, ?_, hAll⟩
  · rw [nextRegion, if_neg (by omega), ← hKind, hStop]
  · constructor
    · exact hStart
    · exact hAligned
    · dsimp only
      omega
    · dsimp only
      omega
    · intro _
      dsimp only
      omega
    · intro _ _
      simp only [List.length_drop]
      omega
    · intro hData x hx hLower hUpper
      exact SameKind.nonzero hBufStart hLow hStart hAligned rfl hAll hData hx hLower hUpper
  · intro x hx hx'
    exact SameKind.byteAt_eq hBufStart hLow hStart hAligned rfl hAll hx hx'

end

namespace Data

section
variable [Hashes]

/-- Every call of `write_region` for a word-aligned buffer finds regions that it handles
rightly. -/
def WordsSafe (d : Data) (buf : Bytes) (bufStart : Nat) : Prop :=
  Meets writeRegion (fun _ d p => ∀ r ∈ d.regions, p.Safe r) [] d
    (pieces buf bufStart (bufStart + buf.length) (buf.length / 4) bufStart)

instance (d : Data) (buf : Bytes) (bufStart : Nat) : Decidable (d.WordsSafe buf bufStart) :=
  inferInstanceAs (Decidable (Meets _ _ _ _ _))

end

section
variable [Hashes] {buf : Bytes} {bufStart bufEnd : Nat} {d : Data}

theorem foldlM_pieces (hBufStart : bufStart % 4 = 0) (hEnd : bufEnd = bufStart + buf.length)
    (hBufEnd : bufEnd % 4 = 0) (hMax : bufEnd ≤ offMax) (n start : Nat) (hStart : start % 4 = 0)
    (hLow : bufStart ≤ start) (hHigh : start ≤ bufEnd) (hEnough : (bufEnd - start) / 4 ≤ n)
    (done : List Piece) (hWF : d.WellFormed)
    (hSafe : Meets writeRegion (fun _ d p => ∀ r ∈ d.regions, p.Safe r) done d
      (pieces buf bufStart bufEnd n start)) :
    ∃ d', (pieces buf bufStart bufEnd n start).foldlM writeRegion d = .ok d' ∧
      d'.WellFormed ∧ ∀ x, d'.byteAt x =
        if start ≤ x ∧ x < bufEnd then buf.getD (x - bufStart) 0 else d.byteAt x := by
  induction n generalizing start d done with
  | zero =>
    refine ⟨d, rfl, hWF, ?_⟩
    intro x
    rw [if_neg (by omega)]
  | succ n ih =>
    rw [pieces] at hSafe ⊢
    rcases Nat.eq_or_lt_of_le hHigh with hDone | hMore
    · have hNone : nextRegion buf bufStart bufEnd start = none := by
        rw [nextRegion, if_pos hDone]
      rw [hNone]
      refine ⟨d, rfl, hWF, ?_⟩
      intro x
      rw [if_neg (by omega)]
    · obtain ⟨p, hNext, hpStart, hLt, hLe, hp, hBytes, -⟩ :=
        nextRegion_spec hBufStart hEnd hBufEnd hMax hStart hLow hMore
      rw [hNext] at hSafe ⊢
      obtain ⟨hFirst, hRest⟩ := hSafe
      obtain ⟨d1, hWrite, hWF1, _, hByte1⟩ := writeRegion_spec hWF hp hFirst
      rw [hWrite] at hRest
      have hAligned := hp.stop_aligned
      obtain ⟨d2, hFold, hWF2, hByte2⟩ :=
        ih p.stop hAligned (by omega) hLe (by omega) (done ++ [p]) hWF1 hRest
      refine ⟨d2, ?_, hWF2, ?_⟩
      · rw [List.foldlM_cons, hWrite]
        exact hFold
      · -- the bytes of the first run, of the later ones and of the rest
        intro x
        rw [hByte2 x, hByte1 x]
        rcases Nat.lt_or_ge x p.stop with hBefore | hAfter
        · rw [if_neg (by omega)]
          by_cases hIn : start ≤ x
          · rw [if_pos (by omega), if_pos (by omega), hBytes x (by omega) hBefore]
          · rw [if_neg (by omega), if_neg (by omega)]
        · by_cases hIn : x < bufEnd
          · rw [if_pos ⟨hAfter, hIn⟩, if_pos (by omega)]
          · rw [if_neg (by omega), if_neg (by omega), if_neg (by omega)]

theorem writeWords_spec (hWF : d.WellFormed) (hStart : bufStart % 4 = 0)
    (hLength : buf.length % 4 = 0) (hMax : bufStart + buf.length ≤ offMax)
    (hSafe : d.WordsSafe buf bufStart) :
    ∃ d', d.writeWords buf bufStart = .ok d' ∧ d'.WellFormed ∧
      d'.buf = false ∧ ∀ x, d'.byteAt x =
        if bufStart ≤ x ∧ x < bufStart + buf.length then buf.getD (x - bufStart) 0
        else d.byteAt x := by
  obtain ⟨d', hFold, hWF', hByte⟩ := foldlM_pieces hStart rfl (by omega) hMax (buf.length / 4)
    bufStart hStart (Nat.le_refl _) (by omega) (by omega) [] hWF hSafe
  refine ⟨{ d' with buf := false }, ?_, ⟨hWF'.ordered, hWF'.regions⟩, rfl, hByte⟩
  rw [writeWords, hFold]
  rfl

end

section
variable [Hashes] {d : Data}

theorem readEdge_spec {base a b : Nat} {buf : Bytes × Data}
    (hWF : buf.2.WellFormed) (hSafe : a < b → buf.2.PreadSafe (b - a) a)
    (hBase : base ≤ a) (hRoom : b ≤ base + buf.1.length) :
    ∃ buf', readEdge base a b buf = .ok buf' ∧ buf'.2.regions = buf.2.regions ∧
      buf'.2.buf = buf.2.buf ∧ buf'.1.length = buf.1.length ∧
      ∀ x, base ≤ x → buf'.1.getD (x - base) 0 =
        if a ≤ x ∧ x < b then buf.2.byteAt x else buf.1.getD (x - base) 0 := by
  rw [readEdge]
  split
  case isTrue hLt =>
    rw [pread_spec hWF (hSafe hLt)]
    have hFits : a - base + (b - a) ≤ buf.1.length := by omega
    have hRead : b - a ≤ ((List.range (b - a)).map fun i => buf.2.byteAt (a + i)).length := by simp
    refine ⟨_, rfl, rfl, rfl, length_memcpy hFits hRead, ?_⟩
    intro x hx
    rw [getD_memcpy hFits hRead]
    by_cases hIn : a ≤ x ∧ x < b
    · have hIndex : a + (x - base - (a - base)) = x := by omega
      rw [if_pos (by omega), if_pos hIn, List.getD_eq_getElem?_getD, List.getElem?_map,
        List.getElem?_range (by omega), Option.map_some, Option.getD_some, hIndex]
    · rw [if_neg (by omega), if_neg hIn]
  case isFalse =>
    refine ⟨buf, rfl, rfl, rfl, rfl, ?_⟩
    intro x _
    rw [if_neg (by omega)]

/-- The reads of the bytes around an unaligned interval do not see a byte that is not cleared. -/
def EdgesSafe (d : Data) (b : Bytes) (off : Nat) : Prop :=
  (roundDown off < off → d.PreadSafe (off - roundDown off) (roundDown off)) ∧
    (off + b.length < roundUp (off + b.length) →
      d.PreadSafe (roundUp (off + b.length) - (off + b.length)) (off + b.length))

instance (d : Data) (b : Bytes) (off : Nat) : Decidable (d.EdgesSafe b off) :=
  inferInstanceAs (Decidable (_ ∧ _))

omit [Hashes] in
theorem preadSafe_of_regions {d d' : Data} (h : d'.regions = d.regions) {size off : Nat}
    (hSafe : d.PreadSafe size off) : d'.PreadSafe size off := by
  rw [PreadSafe, h]
  exact hSafe

theorem wellFormed_of_regions {d d' : Data} (h : d'.regions = d.regions)
    (hWF : d.WellFormed) : d'.WellFormed :=
  ⟨h ▸ hWF.ordered, h ▸ hWF.regions⟩

theorem byteAt_of_regions {d d' : Data} (h : d'.regions = d.regions) (x : Nat) :
    d'.byteAt x = d.byteAt x := by
  rw [byteAt, byteAt, h]

theorem readEdges_spec {b : Bytes} {off : Nat} (hWF : d.WellFormed) (hSafe : d.EdgesSafe b off) :
    ∃ edges, d.readEdges b off = .ok edges ∧ edges.2.regions = d.regions ∧
      edges.2.buf = d.buf ∧ edges.1.length = roundUp (off + b.length) - roundDown off ∧
      ∀ x, roundDown off ≤ x → x < roundUp (off + b.length) →
        edges.1.getD (x - roundDown off) 0 =
          if off ≤ x ∧ x < off + b.length then b.getD (x - off) 0
          else d.byteAt x := by
  have hDown := (roundDown_spec off).2
  have hUp := le_roundUp (off + b.length)
  obtain ⟨hFrontSafe, hBackSafe⟩ := hSafe
  rw [readEdges]
  generalize roundDown off = bufStart at hFrontSafe hDown ⊢
  generalize roundUp (off + b.length) = bufEnd at hBackSafe hUp ⊢
  have hFresh : (d.alloc (bufEnd - bufStart)).1.length = bufEnd - bufStart := by simp [alloc]
  have hFreshWF : (d.alloc (bufEnd - bufStart)).2.WellFormed := ⟨hWF.ordered, hWF.regions⟩
  obtain ⟨front, hReadFront, hRegions, hBuf, hLength, hBytes⟩ :=
    readEdge_spec hFreshWF (fun h => preadSafe_of_regions rfl (hFrontSafe h))
      (Nat.le_refl bufStart) (show off ≤ _ by omega)
  have hFrontRegions : front.2.regions = d.regions := hRegions
  obtain ⟨back, hReadBack, hRegions', hBuf', hLength', hBytes'⟩ :=
    readEdge_spec (wellFormed_of_regions hFrontRegions hWF)
      (fun h => preadSafe_of_regions hFrontRegions (hBackSafe h)) (show bufStart ≤ _ by omega)
      (show bufEnd ≤ _ by omega)
  have hFits : off - bufStart + b.length ≤ back.1.length := by omega
  have hCopy := length_memcpy hFits (Nat.le_refl b.length)
  refine ⟨(memcpy back.1 (off - bufStart) b b.length, back.2), ?_, hRegions'.trans hFrontRegions,
    hBuf'.trans hBuf, by dsimp only; omega, ?_⟩
  · simp only [hReadFront, bind, Except.bind, hReadBack]
    rfl
  · intro x hLow hHigh
    rw [getD_memcpy hFits (Nat.le_refl b.length)]
    by_cases hIn : off ≤ x ∧ x < off + b.length
    · have hIndex : x - bufStart - (off - bufStart) = x - off := by omega
      rw [if_pos (by omega), if_pos hIn, hIndex]
    · rw [if_neg (by omega), if_neg hIn, hBytes' x hLow]
      -- the byte was read at the end of the interval or at its start
      rcases Nat.lt_or_ge x off with hBefore | hAfter
      · rw [if_neg (by omega), hBytes x hLow, if_pos ⟨hLow, hBefore⟩]
        exact byteAt_of_regions rfl x
      · rw [if_pos (by omega)]
        exact byteAt_of_regions hFrontRegions x

end

section
variable [Hashes]

def EdgesWriteSafe (bufStart : Nat) : Except DataFailure (Bytes × Data) → Prop
  | .ok edges => edges.2.WordsSafe edges.1 bufStart
  | .error _ => True

/-- The condition on a write, before each of the reads and region writes that it makes. -/
def PwriteSafe (d : Data) (b : Bytes) (off : Nat) : Prop :=
  if off % 4 ≠ 0 ∨ (off + b.length) % 4 ≠ 0 then
    d.buf = false ∧ d.EdgesSafe b off ∧ EdgesWriteSafe (roundDown off) (d.readEdges b off)
  else d.WordsSafe b off

/-- Truncation only writes the rest of its last word. -/
def TruncateSafe (d : Data) (length : Nat) : Prop :=
  length < roundUp length → d.PwriteSafe (List.replicate (roundUp length - length) 0) length

instance (bufStart : Nat) (edges : Except DataFailure (Bytes × Data)) :
    Decidable (EdgesWriteSafe bufStart edges) :=
  match edges with
  | .ok edges => inferInstanceAs (Decidable (edges.2.WordsSafe edges.1 bufStart))
  | .error _ => inferInstanceAs (Decidable True)

instance (d : Data) (b : Bytes) (off : Nat) : Decidable (d.PwriteSafe b off) :=
  inferInstanceAs (Decidable (if off % 4 ≠ 0 ∨ (off + b.length) % 4 ≠ 0 then _ else _))

instance (d : Data) (length : Nat) : Decidable (d.TruncateSafe length) :=
  inferInstanceAs (Decidable (_ → _))

end

section
variable [Hashes] {d : Data}

theorem pwrite_spec {b : Bytes} {off : Nat} (hWF : d.WellFormed)
    (hMax : off + b.length ≤ offMax) (hSafe : d.PwriteSafe b off) :
    ∃ d', d.pwrite b off = .ok d' ∧ d'.WellFormed ∧
      ∀ x, d'.byteAt x =
        if off ≤ x ∧ x < off + b.length then b.getD (x - off) 0
        else d.byteAt x := by
  rw [PwriteSafe] at hSafe
  rw [pwrite]
  split
  case isTrue hUnaligned =>
    rw [if_pos hUnaligned] at hSafe
    obtain ⟨hBuf, hEdges, hWords⟩ := hSafe
    obtain ⟨edges, hRead, hRegions, _, hLength, hBytes⟩ := readEdges_spec hWF hEdges
    rw [hRead] at hWords
    have hDown := roundDown_spec off
    have hUp := roundUp_spec hMax
    obtain ⟨d', hWrite, hWF', _, hByte⟩ := writeWords_spec (wellFormed_of_regions hRegions hWF)
      hDown.1 (by omega) (by omega) hWords
    refine ⟨d', ?_, hWF', ?_⟩
    · rw [hBuf, if_neg Bool.false_ne_true, hRead]
      exact hWrite
    · intro x
      rw [hByte x]
      by_cases hIn : roundDown off ≤ x ∧ x < roundDown off + edges.1.length
      · rw [if_pos hIn, hBytes x hIn.1 (by omega)]
      · rw [if_neg hIn, if_neg (by omega), byteAt_of_regions hRegions x]
  case isFalse hAligned =>
    rw [if_neg hAligned] at hSafe
    obtain ⟨d', hWrite, hWF', _, hByte⟩ :=
      writeWords_spec hWF (by omega) (by omega) hMax hSafe
    exact ⟨d', hWrite, hWF', hByte⟩

theorem byteAt_of_offMax_le (hWF : d.WellFormed) {x : Nat} (hx : offMax ≤ x) : d.byteAt x = 0 := by
  have hNone : regionValue d.regions x = none := by
    apply regionValue_eq_none
    intro r hr _
    have := (hWF.regions r hr).stop_le
    omega
  rw [byteAt, hNone]
  rfl

theorem clearWord_spec {length : Nat} (hWF : d.WellFormed)
    (hMax : roundUp length ≤ offMax) (hSafe : d.TruncateSafe length) :
    ∃ d', d.clearWord length = .ok d' ∧ d'.WellFormed ∧
      ∀ x, d'.byteAt x =
        if length ≤ x ∧ x < roundUp length then 0 else d.byteAt x := by
  rw [clearWord]
  split
  case isTrue hLt =>
    obtain ⟨d1, hWrite, hWF1, hByte⟩ := pwrite_spec hWF
      (by rw [List.length_replicate]; omega) (hSafe hLt)
    refine ⟨d1, hWrite, hWF1, ?_⟩
    intro x
    rw [hByte x, List.length_replicate]
    by_cases hIn : length ≤ x ∧ x < roundUp length
    · rw [if_pos (by omega), if_pos hIn, List.getD_eq_getElem?_getD, List.getElem?_replicate,
        if_pos (by omega), Option.getD_some]
    · rw [if_neg (by omega), if_neg hIn]
  case isFalse =>
    refine ⟨d, rfl, hWF, ?_⟩
    intro x
    rw [if_neg (by omega)]

theorem truncate_spec {length : Nat} (hWF : d.WellFormed) (hMax : length ≤ offMax)
    (hSafe : d.TruncateSafe length) :
    ∃ d', d.truncate length = .ok d' ∧ d'.WellFormed ∧
      ∀ x, d'.byteAt x =
        if length ≤ x then 0 else d.byteAt x := by
  have hUp := roundUp_spec hMax
  obtain ⟨d1, hFill, hWF1, hByte1⟩ := clearWord_spec hWF hUp.2.2 hSafe
  rw [truncate]
  generalize roundUp length = aligned at hUp hByte1 ⊢
  have hPiece : Piece.WellFormed ⟨aligned, offMax, .zero, 0, []⟩ := by
    have hAligned : offMax % 4 = 0 := by decide
    refine ⟨hUp.1, hAligned, hUp.2.2, Nat.le_refl _, ?_, ?_, ?_⟩ <;>
    · intro h
      cases h
  have hPieceSafe : ∀ r ∈ d1.regions, Piece.Safe ⟨aligned, offMax, .zero, 0, []⟩ r := by
    intro r hr
    refine ⟨?_, fun _ _ _ _ => Or.inl rfl⟩
    intro _ hOver
    exact absurd (hWF1.regions r hr).stop_le (Nat.not_le.mpr hOver)
  obtain ⟨d2, hZero, hWF2, _, hByte2⟩ := writeRegion_spec hWF1 hPiece hPieceSafe
  refine ⟨d2, ?_, hWF2, ?_⟩
  · rw [hFill]
    exact hZero
  · intro x
    rw [hByte2 x, hByte1 x]
    dsimp only [Piece.byteAt]
    by_cases hBefore : length ≤ x
    · rw [if_pos hBefore]
      rcases Nat.lt_or_ge x aligned with hx | hx
      · rw [if_neg (by omega), if_pos ⟨hBefore, hx⟩]
      · rcases Nat.lt_or_ge x offMax with hx' | hx'
        · rw [if_pos ⟨hx, hx'⟩]
        · rw [if_neg (by omega), if_neg (by omega), byteAt_of_offMax_le hWF hx']
    · rw [if_neg (by omega), if_neg (by omega), if_neg hBefore]

end

end Data

end Explode.Driver
