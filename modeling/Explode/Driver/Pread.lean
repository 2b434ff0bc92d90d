import Explode.Driver.Regions

/-!
# Reading file data

A read copies every region that it finds into one buffer. The holes between
them read as zero where the buffer was cleared.
-/

namespace Explode.Driver

open IntervalMap

section
variable [Hashes] {r : DataRegion} {l : List DataRegion} {start stop : Nat} {buf : Bytes}

theorem getD_magicBytes {a b magic x : Nat} (hLow : a ≤ x) (hHigh : x < b) :
    (magicBytes a b magic).getD (x - a) 0 = magicByte magic x := by
  have hIndex : a + (x - a) = x := by omega
  rw [magicBytes, List.getD_eq_getElem?_getD, List.getElem?_map,
    List.getElem?_range (by omega), Option.map_some, Option.getD_some, hIndex]

theorem DataRegion.WellFormed.not_isLucky (h : r.WellFormed) (hMagic : r.magic ≠ 0) :
    isLucky r = false := by
  rw [isLucky, List.any_eq_false]
  intro k hk
  have hBound := List.mem_range.mp hk
  have hAligned := h.start_aligned
  simp only [decide_eq_true_eq]
  intro hZero
  obtain ⟨i, hi, hByte⟩ := h.nonzero (r.start + 4 * k) (by omega) (by omega) (by omega)
  apply hByte
  have hBase : (r.start + 4 * k + i) / 4 * 4 = r.start + 4 * k := by omega
  simp only [DataRegion.byteAt, if_neg hMagic, magicByte, hBase, hZero]
  rfl

theorem readRegion_spec (h : r.WellFormed) (hStart : start ≤ r.start)
    (hStop : r.stop ≤ stop) (hBuf : buf.length = stop - start) :
    ∃ buf', readRegion start stop buf r = .ok buf' ∧ buf'.length = buf.length ∧
      ∀ x, start ≤ x → buf'.getD (x - start) 0 =
        if r.start ≤ x ∧ x < r.stop then r.byteAt x else buf.getD (x - start) 0 := by
  have hNonempty := h.nonempty
  have hRoom : r.start - start + (r.stop - r.start) ≤ buf.length := by omega
  have hCopy : ∀ src : Bytes, r.stop - r.start ≤ src.length →
      (∀ x, r.start ≤ x → x < r.stop → src.getD (x - r.start) 0 = r.byteAt x) →
      ∀ x, start ≤ x → (memcpy buf (r.start - start) src (r.stop - r.start)).getD (x - start) 0 =
        if r.start ≤ x ∧ x < r.stop then r.byteAt x else buf.getD (x - start) 0 := by
    intro src hSrc hBytes x hx
    rw [getD_memcpy hRoom hSrc]
    by_cases hIn : r.start ≤ x ∧ x < r.stop
    · have hIndex : x - start - (r.start - start) = x - r.start := by omega
      rw [if_pos (by omega), if_pos hIn, hIndex, hBytes x hIn.1 hIn.2]
    · rw [if_neg (by omega), if_neg hIn]
  rw [readRegion, if_neg (by simp [hStart, hStop])]
  split
  case isTrue hMagic =>
    have hLength := h.regular hMagic
    refine ⟨_, rfl, length_memcpy hRoom hLength, hCopy _ hLength ?_⟩
    intro x _ _
    rw [DataRegion.byteAt, if_pos hMagic]
  case isFalse hMagic =>
    rw [if_neg (by simp [h.start_aligned, h.stop_aligned]), h.not_isLucky hMagic,
      if_neg Bool.false_ne_true]
    have hLength : r.stop - r.start ≤ (magicBytes r.start r.stop r.magic).length := by
      simp [magicBytes]
    refine ⟨_, rfl, length_memcpy hRoom hLength, hCopy _ hLength ?_⟩
    intro x hLow hHigh
    rw [getD_magicBytes hLow hHigh, DataRegion.byteAt, if_neg hMagic]

theorem foldlM_readRegion (hOrd : Ordered l) (hWF : ∀ r ∈ l, r.WellFormed)
    (hContains : ∀ r ∈ l, start ≤ r.start ∧ r.stop ≤ stop) (hBuf : buf.length = stop - start) :
    ∃ buf', l.foldlM (readRegion start stop) buf = .ok buf' ∧
      buf'.length = buf.length ∧ ∀ x, start ≤ x → buf'.getD (x - start) 0 =
        (regionValue l x).getD (buf.getD (x - start) 0) := by
  induction l generalizing buf with
  | nil => exact ⟨buf, rfl, rfl, fun _ _ => rfl⟩
  | cons r rest ih =>
    obtain ⟨_, hAfter, hRest⟩ := ordered_cons.mp hOrd
    obtain ⟨hStart, hStop⟩ := hContains r List.mem_cons_self
    obtain ⟨next, hRead, hLength, hBytes⟩ :=
      readRegion_spec (hWF r List.mem_cons_self) hStart hStop hBuf
    obtain ⟨buf', hFold, hLength', hBytes'⟩ := ih hRest
      (fun q hq => hWF q (List.mem_cons_of_mem r hq))
      (fun q hq => hContains q (List.mem_cons_of_mem r hq)) (hLength.trans hBuf)
    refine ⟨buf', ?_, hLength'.trans hLength, ?_⟩
    · rw [List.foldlM_cons, hRead]
      exact hFold
    · intro x hx
      rw [hBytes' x hx, hBytes x hx, ← List.singleton_append, regionValue_append,
        regionValue_singleton]
      split
      case isTrue hIn =>
        have hNone : regionValue rest x = none := by
          apply regionValue_eq_none
          intro q hq _
          have := hAfter q hq
          omega
        rw [hNone]
        rfl
      case isFalse => rfl

end

theorem eq_map_of_getD {l : Bytes} {n : Nat} {f : Nat → UInt8} (hLength : l.length = n)
    (h : ∀ i < n, l.getD i 0 = f i) : l = (List.range n).map f := by
  apply List.ext_getElem
  · simpa using hLength
  · intro i hi hi'
    have hByte := h i (hLength ▸ hi)
    rw [List.getD_eq_getElem?_getD, List.getElem?_eq_getElem hi, Option.getD_some] at hByte
    simpa using hByte

namespace Data

/-- Every byte that a read does not clear lies in a region. -/
def PreadSafe (d : Data) (size off : Nat) : Prop :=
  ∀ i < size, (intersectedRange d.regions off (off + size)).start + size ≤ off + i →
    ∃ r ∈ d.regions, r.start ≤ off + i ∧ off + i < r.stop

instance (d : Data) (size off : Nat) : Decidable (d.PreadSafe size off) :=
  inferInstanceAs (Decidable (∀ i < size, _))

variable [Hashes] {d : Data}

theorem pread_returns (hWF : d.WellFormed) (size off : Nat) :
    ∃ bytes, d.pread size off = .ok (bytes, { d with allocs := d.allocs + 1 }) ∧
      bytes.length = size ∧ ∀ i < size,
        ((intersectedRange d.regions off (off + size)).start + size ≤ off + i →
          ∃ r ∈ d.regions, r.start ≤ off + i ∧ off + i < r.stop) →
        bytes.getD i 0 = d.byteAt (off + i) := by
  obtain ⟨before, after, hRange⟩ := intersectedRange_spec hWF.ordered off (off + size)
  rw [pread]
  generalize intersectedRange d.regions off (off + size) = range at hRange
  have hSplit := hRange.split
  have hOrdLeft := (ordered_append.mp (hSplit ▸ hWF.ordered)).1
  have hStart := hRange.start_le
  have hStop := hRange.le_stop
  obtain ⟨fresh, hFresh⟩ : ∃ fresh, fresh = (d.alloc (range.stop - range.start)).1 := ⟨_, rfl⟩
  have hFreshLength : fresh.length = range.stop - range.start := by
    simp [hFresh, alloc]
  have hRoom : 0 + size ≤ fresh.length := by omega
  have hClear : size ≤ (List.replicate size (0 : UInt8)).length := by simp
  have hCleared := (length_memcpy hRoom hClear).trans hFreshLength
  have hFoundWF : ∀ r ∈ range.regions, r.WellFormed := by
    intro r hr
    apply hWF.regions r
    rw [hSplit]
    simp [hr]
  obtain ⟨buf, hFold, hLength, hBytes⟩ :=
    foldlM_readRegion (ordered_append.mp hOrdLeft).2.1 hFoundWF hRange.contains hCleared
  refine ⟨(buf.drop (off - range.start)).take size, ?_, ?_, ?_⟩
  · simp only [← hFresh, hFold]
    exact if_pos ⟨hStart, hStop⟩
  · rw [List.length_take, List.length_drop]
    omega
  · intro i hi hIn
    have hIndex : off - range.start + i = off + i - range.start := by omega
    have hFound : regionValue d.regions (off + i) = regionValue range.regions (off + i) := by
      have hNoBefore : regionValue before (off + i) = none := by
        apply regionValue_eq_none
        intro r hr _
        have := hRange.before_lt r hr
        omega
      have hNoAfter : regionValue after (off + i) = none := by
        apply regionValue_eq_none
        intro r hr _
        have := hRange.after_gt r hr
        omega
      rw [hSplit, regionValue_append, regionValue_append, hNoBefore, hNoAfter, Option.none_or,
        Option.or_none]
    have hTake : ((buf.drop (off - range.start)).take size).getD i 0 =
        buf.getD (off + i - range.start) 0 := by
      simp only [List.getD_eq_getElem?_getD, List.getElem?_take_of_lt hi, List.getElem?_drop,
        hIndex]
    rw [hTake, hBytes _ (by omega), byteAt, hFound, getD_memcpy hRoom hClear]
    by_cases hBelow : off + i - range.start < size
    · rw [if_pos (by omega)]
      simp [List.getD_eq_getElem?_getD, hBelow]
    · obtain ⟨r, hr, hLow, hHigh⟩ := hIn (by omega)
      have hValue : regionValue d.regions (off + i) =
          some (r.byteAt (off + i)) := value_of_mem hWF.ordered hr hLow hHigh
      rw [← hFound, hValue]
      rfl

theorem pread_spec (hWF : d.WellFormed) {size off : Nat} (hSafe : d.PreadSafe size off) :
    d.pread size off = .ok ((List.range size).map fun i => d.byteAt (off + i),
        { d with allocs := d.allocs + 1 }) := by
  obtain ⟨bytes, hRead, hLength, hBytes⟩ := pread_returns hWF size off
  rw [hRead, eq_map_of_getD hLength fun i hi => hBytes i hi (hSafe i hi)]

end Data

end Explode.Driver
