import Explode.Driver.Archive
import Explode.Driver.RegionRuns

/-!
# Regions are maximal runs

If only zeros and position hashes are written, in whole words, the regions are
the maximal runs of words with one magic number.
-/

namespace Explode.Driver

open IntervalMap Loop

section
variable [Hashes]

/-- The regions are the maximal runs of words of the array with one magic number, without those
of zeros. -/
structure IsRegionMap (bytes : Nat → UInt8) (regions : List DataRegion) : Prop where
  runs : Decomposes (fun r => r.start / 4) (fun r => r.stop / 4) DataRegion.magic
    (magicAt bytes) regions
  regions : ∀ r ∈ regions,
    r.start % 4 = 0 ∧ r.stop % 4 = 0 ∧ (r.magic = 1 ∨ r.magic = 2) ∧ r.data = []

def DataOp.Magic : DataOp → Prop
  | .pwrite b off => off % 4 = 0 ∧ b.length % 4 = 0 ∧ off + b.length < 2 ^ 31 ∧
      ∀ n < b.length / 4, getSig b (4 * n) = 0 ∨
        getSig b (4 * n) = positionHash (off + 4 * n) 1 ∨
        getSig b (4 * n) = positionHash (off + 4 * n) 2
  | .truncate length => length % 4 = 0 ∧ length < 2 ^ 31

instance (op : DataOp) : Decidable op.Magic :=
  match op with
  | .pwrite _ _ => inferInstanceAs (Decidable (_ ∧ _))
  | .truncate _ => inferInstanceAs (Decidable (_ ∧ _))

def MagicOn (magic a b : Nat) : Prop :=
  ∀ x, x % 4 = 0 → a ≤ x → x < b → getType (positionHash x magic) x = (.data, magic)

def Piece.Magic (p : Piece) : Prop :=
  p.type = .data → p.magic ≠ 0 ∧ MagicOn p.magic p.start p.stop

structure Data.Canonical (d : Data) : Prop where
  wellFormed : d.WellFormed
  magic : ∀ r ∈ d.regions, r.magic ≠ 0 ∧ MagicOn r.magic r.start r.stop
  apart : d.regions.Pairwise fun r r' => r.stop = r'.start → r.magic ≠ r'.magic

end

section
variable [Hashes] {p : Piece} {d d' : Data}
  {before old after kept written keptBack : List DataRegion} {front back mf mb : Option DataRegion}

theorem Data.Canonical.safe (hCanon : d.Canonical) (hMagic : p.Magic) :
    ∀ r ∈ d.regions, p.Safe r := by
  intro r hr
  have hNonzero := (hCanon.magic r hr).1
  constructor
  · intro _ _ _ hZero
    exact absurd hZero hNonzero
  · intro _ _ _ hZero
    cases hType : p.type with
    | zero => exact .inl hType
    | data => exact absurd hZero (hMagic hType).1

theorem wordAt_magic {r : DataRegion} (hMagic : r.magic ≠ 0) (n : Nat) :
    wordAt r.byteAt n = positionHash (4 * n) r.magic := by
  funext i
  have hi := i.isLt
  have hBase : (4 * n + i.val) / 4 * 4 = 4 * n := by omega
  have hIndex : (⟨(4 * n + i.val) % 4, Nat.mod_lt _ (by decide)⟩ : Fin 4) = i := by
    apply Fin.ext
    dsimp only
    omega
  rw [wordAt, DataRegion.byteAt, if_neg hMagic, magicByte, hBase, hIndex]

theorem kindOn_iff_magicOn {r : DataRegion} (hMagic : r.magic ≠ 0) :
    KindOn r.byteAt r.magic r.start r.stop ↔ MagicOn r.magic r.start r.stop := by
  constructor
  · intro h x hx hLow hHigh
    obtain ⟨n, rfl⟩ : ∃ n, x = 4 * n := ⟨x / 4, by omega⟩
    have hKind := magicAt_eq_some.mp (h n hLow hHigh)
    rwa [wordAt_magic hMagic] at hKind
  · intro h n hLow hHigh
    rw [magicAt_eq_some, wordAt_magic hMagic]
    exact h (4 * n) (by omega) hLow hHigh

theorem Data.Canonical.tight (hCanon : d.Canonical) : d.Tight where
  wellFormed := hCanon.wellFormed
  kinds r hr := (kindOn_iff_magicOn (hCanon.magic r hr).1).mpr (hCanon.magic r hr).2
  apart := hCanon.apart

theorem Data.Tight.canonical (hTight : d.Tight)
    (hMagic : ∀ r ∈ d.regions, r.magic ≠ 0) : d.Canonical where
  wellFormed := hTight.wellFormed
  magic r hr := ⟨hMagic r hr, (kindOn_iff_magicOn (hMagic r hr)).mp (hTight.kinds r hr)⟩
  apart := hTight.apart

theorem Data.Canonical.writeRegion (hCanon : d.Canonical) (hp : p.WellFormed) (hKinded : p.Kinded)
    (hMagic : p.Magic) (hRoom : p.start < p.stop ∨ p.stop = offMax) :
    ∃ d', d.writeRegion p = .ok d' ∧ d'.Canonical := by
  obtain ⟨d', hWrite, hTight, hKinds⟩ :=
    hCanon.tight.writeRegion hp hKinded hRoom (hCanon.safe hMagic)
  refine ⟨d', hWrite, hTight.canonical ?_⟩
  intro r hr
  rcases hKinds r hr with ⟨hType, hSame⟩ | ⟨q, hq, hSame⟩
  · rw [hSame]
    exact (hMagic hType).1
  · rw [hSame]
    exact (hCanon.magic q hq).1

theorem getType_magic {sig : Word} {x : Nat} (hSig : sig ≠ 0)
    (hMagic : sig = positionHash x 1 ∨ sig = positionHash x 2) : (getType sig x).2 ≠ 0 := by
  rw [getType, if_neg hSig]
  split
  · simp
  · rename_i hFirst
    rw [if_pos (hMagic.resolve_left hFirst)]
    simp

theorem getType_cases_magic {sig : Word} {x magic : Nat}
    (hType : getType sig x = (.data, magic)) (hNonzero : magic ≠ 0) :
    magic = 1 ∨ magic = 2 := by
  rw [getType] at hType
  split_ifs at hType
  · cases hType
  · cases hType
    exact .inl rfl
  · cases hType
    exact .inr rfl
  · cases hType
    exact absurd rfl hNonzero

theorem pieces_magic (buf : Bytes) {bufStart bufEnd : Nat} (hBufStart : bufStart % 4 = 0)
    (hEnd : bufEnd = bufStart + buf.length) (hBufEnd : bufEnd % 4 = 0) (hMax : bufEnd ≤ offMax)
    (hWords : ∀ x, x % 4 = 0 → bufStart ≤ x → x < bufEnd → getSig buf (x - bufStart) = 0 ∨
      getSig buf (x - bufStart) = positionHash x 1 ∨ getSig buf (x - bufStart) = positionHash x 2)
    (n start : Nat) (hStart : start % 4 = 0) (hLow : bufStart ≤ start) (hHigh : start ≤ bufEnd) :
    ∀ p ∈ pieces buf bufStart bufEnd n start, p.WellFormed ∧
      p.Kinded ∧ p.Magic ∧ p.start < p.stop := by
  intro p hMem
  obtain ⟨hp, hKinded, hLt, hFrom, hTo, hKind⟩ :=
    pieces_kinded buf hBufStart hEnd hBufEnd hMax n start hStart hLow hHigh p hMem
  refine ⟨hp, hKinded, ?_, hLt⟩
  intro hType
  have hAligned := hp.start_aligned
  have hNonzero : p.magic ≠ 0 := by
    have hFirst := hKind p.start hAligned (Nat.le_refl _) hLt
    have hSig : getSig buf (p.start - bufStart) ≠ 0 := by
      intro hZero
      rw [getType, if_pos hZero, hType] at hFirst
      cases hFirst
    have hMagic := getType_magic hSig ((hWords p.start hAligned hFrom (by omega)).resolve_left hSig)
    rwa [hFirst] at hMagic
  refine ⟨hNonzero, ?_⟩
  intro x hx hxLow hxHigh
  have hHere := hKind x hx hxLow hxHigh
  rcases getType_cases (getSig buf (x - bufStart)) x with
    ⟨-, hZero⟩ | ⟨-, -, hSame⟩
  · rw [hHere, hType] at hZero
    cases hZero
  · rw [hHere] at hSame
    rw [← hSame hNonzero, hHere, hType]

theorem Data.Canonical.apply (hCanon : d.Canonical) {op : DataOp} (hOp : op.Magic) :
    ∃ d', op.apply d = .ok d' ∧ d'.Canonical ∧ d'.byteAt = op.onBytes d.byteAt := by
  cases op with
  | pwrite b off =>
    obtain ⟨hOff, hLength, hFits, hWords⟩ := hOp
    have hMax : off + b.length ≤ offMax := by
      rw [offMax]
      omega
    have hAligned : ¬(off % 4 ≠ 0 ∨ (off + b.length) % 4 ≠ 0) := by omega
    have hGood := @pieces_magic _ b off _ hOff rfl (by omega) hMax (by
        intro x hx hLow hHigh
        have hIndex : off + 4 * ((x - off) / 4) = x := by omega
        have hWord := hWords ((x - off) / 4) (by omega)
        have hOffset : 4 * ((x - off) / 4) = x - off := by omega
        rwa [hIndex, hOffset] at hWord)
      (b.length / 4) off hOff (Nat.le_refl _) (by omega)
    have hStep : ∀ d, ∀ p ∈ pieces b off (off + b.length) (b.length / 4) off, Data.Canonical d →
        Returns Data.Canonical (fun _ => False) (d.writeRegion p) := by
      intro d p hp hd
      obtain ⟨hWF, hKinded, hMagic, hLt⟩ := hGood p hp
      obtain ⟨d', hWrite, hCanon'⟩ := hd.writeRegion hWF hKinded hMagic (.inl hLt)
      rw [hWrite]
      exact hCanon'
    have hPieces : ∀ (_ : List Piece) d, ∀ p ∈ pieces b off (off + b.length) (b.length / 4) off,
        Data.Canonical d → ∀ r ∈ d.regions, Piece.Safe p r :=
      fun _ d p hp hd => hd.safe (hGood p hp).2.2.1
    obtain ⟨hMeets, hReturns⟩ := meets_of_invariant hStep hPieces hCanon []
    have hSafe : d.PwriteSafe b off := by
      rw [Data.PwriteSafe, if_neg hAligned]
      exact hMeets
    obtain ⟨d', hWrite, -, hByte⟩ := Data.pwrite_spec hCanon.wellFormed hMax hSafe
    refine ⟨d', hWrite, ?_, funext hByte⟩
    rw [Data.pwrite, if_neg hAligned, Data.writeWords] at hWrite
    obtain ⟨d₁, hFold, hEq⟩ := bind_eq_ok hWrite
    rw [hFold] at hReturns
    cases hEq
    exact ⟨⟨hReturns.wellFormed.ordered, hReturns.wellFormed.regions⟩, hReturns.magic,
      hReturns.apart⟩
  | truncate length =>
    obtain ⟨hLength, hFits⟩ := hOp
    have hMax : length ≤ offMax := by
      rw [offMax]
      omega
    have hUp : roundUp length = length := by
      rw [roundUp, roundDown]
      omega
    have hSafe : d.TruncateSafe length := by
      intro hLt
      omega
    obtain ⟨d', hTruncate, -, hByte⟩ := Data.truncate_spec hCanon.wellFormed hMax hSafe
    refine ⟨d', hTruncate, ?_, funext hByte⟩
    have hPiece : Piece.WellFormed ⟨length, offMax, .zero, 0, []⟩ := by
      have hAligned : offMax % 4 = 0 := by decide
      refine ⟨hLength, hAligned, hMax, Nat.le_refl _, ?_, ?_, ?_⟩ <;>
      · intro h
        cases h
    obtain ⟨d₁, hWrite, hCanon'⟩ := hCanon.writeRegion hPiece (fun hType => by cases hType)
      (fun hType => by cases hType) (.inr rfl)
    have hSame : d.truncate length = .ok d₁ := by
      rw [Data.truncate, Data.clearWord, hUp, if_neg (Nat.lt_irrefl _)]
      exact hWrite
    rw [hSame] at hTruncate
    cases hTruncate
    exact hCanon'

theorem Data.Canonical.isRegionMap (hCanon : d.Canonical) : IsRegionMap d.byteAt d.regions := by
  constructor
  · exact hCanon.tight.runs
  · intro r hr
    have hWF := hCanon.wellFormed.regions r hr
    have hNonempty := hWF.nonempty
    obtain ⟨hNonzero, hOn⟩ := hCanon.magic r hr
    refine ⟨hWF.start_aligned, hWF.stop_aligned, ?_, hWF.no_data hNonzero⟩
    exact getType_cases_magic (hOn r.start hWF.start_aligned (Nat.le_refl _) hNonempty) hNonzero

theorem IsRegionMap.eq {bytes : Nat → UInt8} {l l' : List DataRegion}
    (h : IsRegionMap bytes l) (h' : IsRegionMap bytes l') : l = l' := by
  apply h.runs.eq h'.runs
  intro r hr r' hr' hStart hStop hMagic
  obtain ⟨hAligned, hAligned', -, hData⟩ := h.regions r hr
  obtain ⟨hAligned₂, hAligned₂', -, hData₂⟩ := h'.regions r' hr'
  obtain ⟨start, stop, magic, data⟩ := r
  obtain ⟨start', stop', magic', data'⟩ := r'
  simp only [DataRegion.mk.injEq] at *
  exact ⟨by omega, by omega, hMagic.symm, hData.trans hData₂.symm⟩

theorem foldlM_canonical {ops : List DataOp} (hOps : ∀ op ∈ ops, op.Magic)
    (buf : Bool) (junk : Nat → Nat → UInt8) :
    ∃ d, ops.foldlM DataOp.apply (Data.empty buf junk) = .ok d ∧
      d.Canonical ∧ d.byteAt = byteArray ops := by
  induction ops using List.reverseRecOn with
  | nil => exact ⟨_, rfl, ⟨wellFormed_empty buf junk, by simp [Data.empty], .nil⟩, rfl⟩
  | append_singleton ops op ih =>
    obtain ⟨d, hRun, hCanon, hByte⟩ := ih fun op hMem => hOps op (List.mem_append_left _ hMem)
    obtain ⟨d', hApply, hCanon', hByte'⟩ := hCanon.apply (hOps op (by simp))
    refine ⟨d', ?_, hCanon', ?_⟩
    · rw [foldlM_append_ok hRun, List.foldlM_cons, hApply]
      rfl
    · rw [hByte', hByte, byteArray_concat]

end

/-- After any operations of whole words that are zero or magic, the regions are the maximal runs of
the array of bytes. -/
theorem regions_of_byteArray [Hashes] (buf : Bool)
    (junk : Nat → Nat → UInt8) (ops : List DataOp) (hOps : ∀ op ∈ ops, op.Magic) :
    ∃ d, ops.foldlM DataOp.apply (Data.empty buf junk) = .ok d ∧
      IsRegionMap (byteArray ops) d.regions ∧
      ∀ (buf' : Bool) (junk' : Nat → Nat → UInt8) (ops' : List DataOp),
        (∀ op ∈ ops', op.Magic) → byteArray ops' = byteArray ops →
          ∃ d', ops'.foldlM DataOp.apply (Data.empty buf' junk') = .ok d' ∧
            d'.regions = d.regions ∧ canonData d' = canonData d := by
  obtain ⟨d, hRun, hCanon, hByte⟩ := foldlM_canonical hOps buf junk
  have hMap := hCanon.isRegionMap
  rw [hByte] at hMap
  refine ⟨d, hRun, hMap, ?_⟩
  intro buf' junk' ops' hOps' hSame
  obtain ⟨d', hRun', hCanon', hByte'⟩ := foldlM_canonical hOps' buf' junk'
  have hMap' := hCanon'.isRegionMap
  rw [hByte', hSame] at hMap'
  have hRegions := hMap'.eq hMap
  exact ⟨d', hRun', hRegions, by rw [canonData, canonData, hRegions]⟩

def sampleMagicOps : List DataOp :=
  [.pwrite [51, 51, 51, 51] 0, .pwrite [59, 59, 59, 59] 8, .pwrite [56, 56, 56, 56] 4,
    .pwrite [55, 55, 55, 55, 0, 0, 0, 0] 4, .truncate 12]

attribute [local instance] sampleHashes

theorem regions_of_byteArray_sample :
    (∀ op ∈ sampleMagicOps, op.Magic) ∧
      ∃ d, sampleMagicOps.foldlM DataOp.apply (Data.empty false sampleJunk) = .ok d ∧
        IsRegionMap (byteArray sampleMagicOps) d.regions ∧
        ∀ (buf' : Bool) (junk' : Nat → Nat → UInt8) (ops' : List DataOp),
          (∀ op ∈ ops', op.Magic) → byteArray ops' = byteArray sampleMagicOps →
            ∃ d', ops'.foldlM DataOp.apply (Data.empty buf' junk') = .ok d' ∧
              d'.regions = d.regions ∧ canonData d' = canonData d := by
  have hOps : ∀ op ∈ sampleMagicOps, op.Magic := by decide +kernel
  exact ⟨hOps, regions_of_byteArray false sampleJunk sampleMagicOps hOps⟩

-- the two words become one region
example : ((sampleMagicOps.foldlM DataOp.apply (Data.empty false sampleJunk)).map
    fun d => d.regions).toOption = some [⟨0, 8, 1, []⟩] := by decide +kernel

end Explode.Driver
