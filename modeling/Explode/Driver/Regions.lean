import Mathlib.Data.List.TakeWhile
import Explode.Driver.Data

/-!
# Regions of the file data

What `intersected_range` finds in an ordered list of regions, and the byte array
that such a list stands for.
-/

namespace Explode.Driver

open IntervalMap

abbrev Ordered (l : List DataRegion) : Prop :=
  IntervalMap.Ordered DataRegion.start DataRegion.stop l

section
variable {l : List DataRegion} {a b : Nat}

theorem scanRange_split (hOrd : Ordered l) :
    ∃ after, l = (scanRange b l).2 ++ after ∧ (∀ r ∈ (scanRange b l).2, r.start ≤ b) ∧
      (∀ r ∈ after, b < r.start) ∧ b ≤ (scanRange b l).1 ∧
      ∀ r ∈ (scanRange b l).2, r.stop ≤ (scanRange b l).1 := by
  induction l with
  | nil => exact ⟨[], by simp [scanRange]⟩
  | cons r rest ih =>
    obtain ⟨hr, hAfter, hRest⟩ := ordered_cons.mp hOrd
    rw [scanRange]
    split
    case isTrue hBeyond =>
      refine ⟨r :: rest, rfl, by simp, ?_, Nat.le_refl b, by simp⟩
      intro q hq
      rcases List.mem_cons.mp hq with rfl | hq
      · exact hBeyond
      · have := hAfter q hq
        omega
    case isFalse hReached =>
      split
      case isTrue hOver =>
        refine ⟨rest, rfl, ?_, ?_, Nat.le_of_lt hOver, ?_⟩
        · intro q hq
          cases List.mem_singleton.mp hq
          omega
        · intro q hq
          have := hAfter q hq
          omega
        · intro q hq
          cases List.mem_singleton.mp hq
          exact Nat.le_refl _
      case isFalse hWithin =>
        obtain ⟨after, hSplit, hStart, hBeyond, hLe, hStop⟩ := ih hRest
        refine ⟨after, ?_, ?_, hBeyond, hLe, ?_⟩
        · rw [List.cons_append, ← hSplit]
        · intro q hq
          rcases List.mem_cons.mp hq with rfl | hq
          · omega
          · exact hStart q hq
        · intro q hq
          rcases List.mem_cons.mp hq with rfl | hq
          · dsimp only
            omega
          · exact hStop q hq

theorem start_ge_of_mem_dropWhile (hOrd : Ordered l) :
    ∀ r ∈ l.dropWhile fun r => r.start < a, a ≤ r.start := by
  induction l with
  | nil => simp
  | cons r rest ih =>
    obtain ⟨hr, hAfter, hRest⟩ := ordered_cons.mp hOrd
    rw [List.dropWhile_cons]
    split
    case isTrue => exact ih hRest
    case isFalse hStart =>
      have hFirst : a ≤ r.start := by simpa using hStart
      intro q hq
      rcases List.mem_cons.mp hq with rfl | hq
      · exact hFirst
      · have := hAfter q hq
        omega

structure RangeSpec (l : List DataRegion) (a b : Nat) (range : Range)
    (before after : List DataRegion) :
    Prop where
  split : l = before ++ range.regions ++ after
  before_lt : ∀ r ∈ before, r.stop < a
  touches : ∀ r ∈ range.regions, a ≤ r.stop ∧ r.start ≤ b
  after_gt : ∀ r ∈ after, b < r.start
  start_le : range.start ≤ a
  le_stop : b ≤ range.stop
  contains : ∀ r ∈ range.regions, range.start ≤ r.start ∧ r.stop ≤ range.stop

theorem rangeSpec_scan {before rest : List DataRegion} {s : Nat} (hOrd : Ordered (before ++ rest))
    (hBefore : ∀ r ∈ before, r.stop < a) (hRest : ∀ r ∈ rest, a ≤ r.stop ∧ s ≤ r.start)
    (hStart : s ≤ a) :
    ∃ after, RangeSpec (before ++ rest) a b ⟨s, (scanRange b rest).1, (scanRange b rest).2⟩
      before after := by
  obtain ⟨_, hRestOrd, _⟩ := ordered_append.mp hOrd
  obtain ⟨after, hScan, hReached, hBeyond, hLe, hStop⟩ := scanRange_split (b := b) hRestOrd
  have hMem : ∀ r ∈ (scanRange b rest).2, r ∈ rest := by
    intro r hr
    rw [hScan]
    exact List.mem_append_left after hr
  refine ⟨after, ?_, hBefore, ?_, hBeyond, hStart, hLe, ?_⟩
  · rw [List.append_assoc, ← hScan]
  · intro r hr
    exact ⟨(hRest r (hMem r hr)).1, hReached r hr⟩
  · intro r hr
    exact ⟨(hRest r (hMem r hr)).2, hStop r hr⟩

theorem intersectedRange_spec (hOrd : Ordered l) (a b : Nat) :
    ∃ before after, RangeSpec l a b (intersectedRange l a b) before after := by
  obtain ⟨low, hLow⟩ : ∃ low, low = l.takeWhile fun r => r.start < a := ⟨_, rfl⟩
  obtain ⟨rest, hRest⟩ : ∃ rest, rest = l.dropWhile fun r => r.start < a := ⟨_, rfl⟩
  have hSplit : l = low ++ rest := by
    rw [hLow, hRest, List.takeWhile_append_dropWhile]
  have hLowStart : ∀ r ∈ low, r.start < a := by
    intro r hr
    rw [hLow] at hr
    simpa using List.mem_takeWhile_imp hr
  have hRestStart : ∀ r ∈ rest, a ≤ r.start := hRest ▸ start_ge_of_mem_dropWhile hOrd
  have hOrdSplit : Ordered (low ++ rest) := hSplit ▸ hOrd
  obtain ⟨hLowOrd, hRestOrd, hAcross⟩ := ordered_append.mp hOrdSplit
  have hRestTouch : ∀ r ∈ rest, a ≤ r.stop ∧ a ≤ r.start := by
    intro r hr
    have := hRestStart r hr
    have := hRestOrd.nonempty r hr
    omega
  simp only [intersectedRange, ← hLow, ← hRest]
  rcases List.eq_nil_or_concat low with hNil | ⟨init, r, hConcat⟩
  · -- no region starts before the interval
    subst hNil
    obtain ⟨after, hSpec⟩ := rangeSpec_scan (b := b) hOrdSplit (by simp) hRestTouch (Nat.le_refl a)
    rw [List.nil_append] at hSpec hSplit
    subst hSplit
    exact ⟨[], after, hSpec⟩
  · rw [List.concat_eq_append] at hConcat
    subst hConcat
    obtain ⟨_, _, hInit⟩ := ordered_append.mp hLowOrd
    have hLast : r.start < a := hLowStart r (by simp)
    have hInitStop : ∀ q ∈ init, q.stop ≤ r.start := fun q hq => hInit q hq r (by simp)
    rw [List.getLast?_concat]
    by_cases hTouch : a ≤ r.stop
    · rw [Option.filter_some, if_pos (by simpa using hTouch), Option.toList_some,
        Option.elim_some, List.singleton_append]
      rw [List.append_assoc, List.singleton_append] at hOrdSplit hSplit
      have hBefore : ∀ q ∈ init, q.stop < a := by
        intro q hq
        have := hInitStop q hq
        omega
      have hCandidates : ∀ q ∈ r :: rest, a ≤ q.stop ∧ r.start ≤ q.start := by
        intro q hq
        rcases List.mem_cons.mp hq with rfl | hq
        · exact ⟨hTouch, Nat.le_refl _⟩
        · have := hRestTouch q hq
          omega
      obtain ⟨after, hSpec⟩ :=
        rangeSpec_scan (b := b) hOrdSplit hBefore hCandidates (Nat.le_of_lt hLast)
      exact ⟨init, after, hSplit ▸ hSpec⟩
    · rw [Option.filter_some, if_neg (by simpa using hTouch), Option.toList_none,
        Option.elim_none, List.nil_append]
      have hNonempty : r.start < r.stop := hLowOrd.nonempty r (by simp)
      have hBefore : ∀ q ∈ init ++ [r], q.stop < a := by
        intro q hq
        rcases List.mem_append.mp hq with hq | hq
        · have := hInitStop q hq
          omega
        · cases List.mem_singleton.mp hq
          omega
      obtain ⟨after, hSpec⟩ :=
        rangeSpec_scan (b := b) hOrdSplit hBefore hRestTouch (Nat.le_refl a)
      exact ⟨init ++ [r], after, hSplit ▸ hSpec⟩

/-- How the regions that overlap or touch an interval lie to it: one is around it, or at most one
starts before it and at most one ends after it. -/
inductive Layout (a b : Nat) : List DataRegion → Prop
  | around {r : DataRegion} (hStart : r.start < a) (hStop : b < r.stop) : Layout a b [r]
  | parts {front back : Option DataRegion} {mid : List DataRegion}
      (hFront : ∀ r ∈ front, r.start < a ∧ a ≤ r.stop ∧ r.stop ≤ b)
      (hMid : ∀ r ∈ mid, a ≤ r.start ∧ r.stop ≤ b)
      (hBack : ∀ r ∈ back, a ≤ r.start ∧ r.start ≤ b ∧ b < r.stop) :
      Layout a b (front.toList ++ mid ++ back.toList)

theorem exists_mid_back (hOrd : Ordered l) (hTouch : ∀ r ∈ l, a ≤ r.start ∧ r.start ≤ b) :
    ∃ (mid : List DataRegion) (back : Option DataRegion), l = mid ++ back.toList ∧
      (∀ r ∈ mid, a ≤ r.start ∧ r.stop ≤ b) ∧
      ∀ r ∈ back, a ≤ r.start ∧ r.start ≤ b ∧ b < r.stop := by
  induction l with
  | nil => exact ⟨[], none, by simp⟩
  | cons r rest ih =>
    obtain ⟨_, hAfter, hRest⟩ := ordered_cons.mp hOrd
    obtain ⟨hStart, hReached⟩ := hTouch r List.mem_cons_self
    by_cases hOver : b < r.stop
    · -- nothing that touches the interval can follow a region that ends after it
      have hNil : rest = [] := by
        apply List.eq_nil_iff_forall_not_mem.mpr
        intro q hq
        have := hAfter q hq
        have := hTouch q (List.mem_cons_of_mem r hq)
        omega
      refine ⟨[], some r, by simp [hNil], by simp, ?_⟩
      intro q hq
      cases hq
      exact ⟨hStart, hReached, hOver⟩
    · obtain ⟨mid, back, hSplit, hMid, hBack⟩ :=
        ih hRest fun q hq => hTouch q (List.mem_cons_of_mem r hq)
      refine ⟨r :: mid, back, by rw [hSplit, List.cons_append], ?_, hBack⟩
      intro q hq
      rcases List.mem_cons.mp hq with rfl | hq
      · exact ⟨hStart, by omega⟩
      · exact hMid q hq

theorem layout_of_touches (hOrd : Ordered l) (hTouch : ∀ r ∈ l, a ≤ r.stop ∧ r.start ≤ b) :
    Layout a b l := by
  cases l with
  | nil =>
    have hLayout : Layout a b (Option.toList none ++ [] ++ Option.toList none) :=
      Layout.parts (by simp) (by simp) (by simp)
    exact hLayout
  | cons r rest =>
    obtain ⟨_, hAfter, hRest⟩ := ordered_cons.mp hOrd
    obtain ⟨hStop, hReached⟩ := hTouch r List.mem_cons_self
    have hTail : ∀ q ∈ rest, a ≤ q.start ∧ q.start ≤ b := by
      intro q hq
      have := hAfter q hq
      have := hTouch q (List.mem_cons_of_mem r hq)
      omega
    by_cases hBefore : r.start < a
    · by_cases hOver : b < r.stop
      · have hNil : rest = [] := by
          apply List.eq_nil_iff_forall_not_mem.mpr
          intro q hq
          have := hAfter q hq
          have := hTail q hq
          omega
        rw [hNil]
        exact Layout.around hBefore hOver
      · obtain ⟨mid, back, hSplit, hMid, hBack⟩ := exists_mid_back hRest hTail
        have hFront : ∀ q ∈ some r, q.start < a ∧ a ≤ q.stop ∧ q.stop ≤ b := by
          intro q hq
          cases hq
          omega
        have hLayout := Layout.parts hFront hMid hBack
        rwa [List.append_assoc, ← hSplit] at hLayout
    · have hAll : ∀ q ∈ r :: rest, a ≤ q.start ∧ q.start ≤ b := by
        intro q hq
        rcases List.mem_cons.mp hq with rfl | hq
        · omega
        · exact hTail q hq
      obtain ⟨mid, back, hSplit, hMid, hBack⟩ := exists_mid_back hOrd hAll
      have hFront : ∀ q ∈ (none : Option DataRegion), q.start < a ∧ a ≤ q.stop ∧ q.stop ≤ b := by
        simp
      have hLayout := Layout.parts hFront hMid hBack
      rwa [List.append_assoc, ← hSplit] at hLayout

end

section
variable {dst src : Bytes} {n k : Nat}

theorem length_memcpy (hDst : k + n ≤ dst.length) (hSrc : n ≤ src.length) :
    (memcpy dst k src n).length = dst.length := by
  simp only [memcpy, List.length_append, List.length_take, List.length_drop]
  omega

theorem getD_memcpy (hDst : k + n ≤ dst.length) (hSrc : n ≤ src.length) (i : Nat) :
    (memcpy dst k src n).getD i 0 =
      if k ≤ i ∧ i < k + n then src.getD (i - k) 0 else dst.getD i 0 := by
  have hTake : (dst.take k).length = k := by
    rw [List.length_take]
    omega
  have hCopied : (dst.take k ++ src.take n).length = k + n := by
    rw [List.length_append, List.length_take, List.length_take]
    omega
  simp only [memcpy, List.getD_eq_getElem?_getD]
  rcases Nat.lt_or_ge i k with hLt | hGe
  · rw [if_neg (by omega), List.getElem?_append_left (by omega),
      List.getElem?_append_left (by omega), List.getElem?_take_of_lt hLt]
  · by_cases hIn : i < k + n
    · rw [if_pos (by omega), List.getElem?_append_left (by omega),
        List.getElem?_append_right (by omega), hTake, List.getElem?_take_of_lt (by omega)]
    · rw [if_neg (by omega), List.getElem?_append_right (by omega), hCopied, List.getElem?_drop]
      congr 2
      omega

end

section
variable [Hashes]

def DataRegion.byteAt (r : DataRegion) (x : Nat) : UInt8 :=
  if r.magic = 0 then r.data.getD (x - r.start) 0 else magicByte r.magic x

/-- An aligned interval that is not empty, with its bytes and without a word of zeros. -/
structure DataRegion.WellFormed (r : DataRegion) : Prop where
  start_aligned : r.start % 4 = 0
  stop_aligned : r.stop % 4 = 0
  nonempty : r.start < r.stop
  stop_le : r.stop ≤ offMax
  regular : r.magic = 0 → r.stop - r.start ≤ r.data.length
  no_data : r.magic ≠ 0 → r.data = []
  nonzero : ∀ x, x % 4 = 0 → r.start ≤ x → x < r.stop →
    ∃ i < 4, r.byteAt (x + i) ≠ 0

def regionValue (l : List DataRegion) (x : Nat) : Option UInt8 :=
  value DataRegion.start DataRegion.stop DataRegion.byteAt l x

namespace Data

def byteAt (d : Data) (x : Nat) : UInt8 := (regionValue d.regions x).getD 0

structure WellFormed (d : Data) : Prop where
  ordered : Ordered d.regions
  regions : ∀ r ∈ d.regions, r.WellFormed

end Data

end

section
variable [Hashes] {r : DataRegion} {l l' : List DataRegion} {x : Nat}

theorem regionValue_append : regionValue (l ++ l') x =
    (regionValue l x).or (regionValue l' x) := value_append

theorem regionValue_eq_none (h : ∀ r ∈ l, r.start ≤ x → r.stop ≤ x) :
    regionValue l x = none := value_eq_none h

@[simp]
theorem regionValue_nil : regionValue [] x = none := rfl

theorem regionValue_singleton : regionValue [r] x =
    if r.start ≤ x ∧ x < r.stop then some (r.byteAt x) else none := rfl

theorem byteAt_of_mem {d : Data} (h : d.WellFormed) (hr : r ∈ d.regions)
    (hLow : r.start ≤ x) (hHigh : x < r.stop) :
    d.byteAt x = r.byteAt x := by
  rw [Data.byteAt, regionValue, value_of_mem h.ordered hr hLow hHigh]
  rfl

theorem exists_region {d : Data} (h : d.byteAt x ≠ 0) :
    ∃ r ∈ d.regions, r.start ≤ x ∧ x < r.stop := by
  by_contra hNone
  push Not at hNone
  have hValue : regionValue d.regions x = none := regionValue_eq_none hNone
  rw [Data.byteAt, hValue] at h
  exact h rfl

theorem DataRegion.WellFormed.internalCheck (h : r.WellFormed) : r.internalCheck = true := by
  have hLe := h.stop_le
  have hLt := h.nonempty
  have hStart := h.start_aligned
  have hStop := h.stop_aligned
  rw [DataRegion.internalCheck]
  by_cases hMagic : r.magic = 0
  · have hLength := h.regular hMagic
    have hData : r.data.isEmpty = false := by
      rw [List.isEmpty_eq_false_iff_exists_mem]
      apply List.exists_mem_of_length_pos
      omega
    have hFirst : getSig r.data 0 ≠ 0 := by
      obtain ⟨i, hi, hByte⟩ := h.nonzero r.start hStart (Nat.le_refl _) hLt
      intro hZero
      have := congrFun hZero ⟨i, hi⟩
      simp_all [getSig, DataRegion.byteAt]
    have hLast : getSig r.data (r.stop - r.start - 4) ≠ 0 := by
      obtain ⟨i, hi, hByte⟩ := h.nonzero (r.stop - 4) (by omega) (by omega) (by omega)
      intro hZero
      have hWord := congrFun hZero ⟨i, hi⟩
      have hIndex : r.stop - 4 + i - r.start = r.stop - r.start - 4 + i := by omega
      rw [DataRegion.byteAt, if_pos hMagic, hIndex] at hByte
      exact hByte hWord
    simp [hLe, hMagic, hData, hLt, hFirst, hLast]
  · simp [hLe, hMagic, h.no_data hMagic, hLt]

end

end Explode.Driver
