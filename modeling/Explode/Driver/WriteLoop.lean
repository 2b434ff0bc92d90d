import Explode.Lib.Loop
import Explode.Driver.WriteRegion

/-!
# The loop of `write_region`

The regions found for a write are handled one after the other. A region before
the interval, the regions in it and a region after it each have their own
step, and what they leave is put together after the loop.
-/

namespace Explode.Driver

open IntervalMap Writing

section
variable [Hashes] {p : Piece} {r : DataRegion}

theorem DataRegion.WellFormed.clip_stop (h : r.WellFormed) {b : Nat}
    (hAligned : b % 4 = 0) (hStart : r.start < b) (hStop : b ≤ r.stop) :
    Clip r r.start b { r with stop := b } := by
  refine ⟨rfl, rfl, rfl, ?_, fun x _ _ => rfl⟩
  constructor
  · exact h.start_aligned
  · exact hAligned
  · exact hStart
  · exact Nat.le_trans hStop h.stop_le
  · intro hMagic
    exact Nat.le_trans (Nat.sub_le_sub_right hStop r.start) (h.regular hMagic)
  · exact h.no_data
  · intro x hx hLow hHigh
    exact h.nonzero x hx hLow (Nat.lt_of_lt_of_le hHigh hStop)

omit [Hashes] in
@[simp]
theorem newRegion_buf (d : Data) (start stop magic : Nat) (data : Bytes) (o : Nat) :
    (d.newRegion start stop magic data o).2.buf = d.buf := by
  rw [Data.newRegion]
  split <;> rfl

theorem DataRegion.WellFormed.clip_newRegion (h : r.WellFormed) (d : Data)
    {a b o : Nat} (ha : a % 4 = 0) (hb : b % 4 = 0) (hStart : r.start ≤ a) (hLt : a < b)
    (hStop : b ≤ r.stop) (hIndex : r.magic = 0 → o = a - r.start) :
    Clip r a b (d.newRegion a b r.magic r.data o).1 := by
  obtain ⟨copy, hCopy⟩ : ∃ copy, copy = (d.newRegion a b r.magic r.data o).1 := ⟨_, rfl⟩
  have hFields : copy.start = a ∧ copy.stop = b ∧ copy.magic = r.magic := by
    rw [hCopy, Data.newRegion]
    split <;> exact ⟨rfl, rfl, rfl⟩
  obtain ⟨hCopyStart, hCopyStop, hCopyMagic⟩ := hFields
  have hByte : ∀ x, a ≤ x → x < b → copy.byteAt x = r.byteAt x := by
    intro x hLow hHigh
    rw [DataRegion.byteAt, DataRegion.byteAt, hCopyMagic, hCopyStart]
    by_cases hMagic : r.magic = 0
    · have hLength := h.regular hMagic
      rw [if_pos hMagic, if_pos hMagic, hCopy, Data.newRegion, if_neg (by simp [hMagic])]
      simp only [List.getD_eq_getElem?_getD, List.getElem?_map]
      rw [List.getElem?_range (by omega), Option.map_some, Option.getD_some, hIndex hMagic]
      have hSame : a - r.start + (x - a) = x - r.start := by omega
      rw [hSame, List.getElem?_eq_getElem (by omega), Option.getD_some, Option.getD_some]
    · rw [if_neg hMagic, if_neg hMagic]
  rw [← hCopy]
  refine ⟨hCopyStart, hCopyStop, hCopyMagic, ?_, hByte⟩
  constructor
  · rw [hCopyStart]
    exact ha
  · rw [hCopyStop]
    exact hb
  · rw [hCopyStart, hCopyStop]
    exact hLt
  · rw [hCopyStop]
    exact Nat.le_trans hStop h.stop_le
  · intro hMagic
    rw [hCopyMagic] at hMagic
    rw [hCopyStart, hCopyStop, hCopy, Data.newRegion, if_neg (by simp [hMagic])]
    simp
  · intro hMagic
    rw [hCopyMagic] at hMagic
    rw [hCopy, Data.newRegion, if_pos hMagic]
  · intro x hx hLow hHigh
    rw [hCopyStart] at hLow
    rw [hCopyStop] at hHigh
    obtain ⟨i, hi, hNonzero⟩ := h.nonzero x hx (by omega) (by omega)
    refine ⟨i, hi, ?_⟩
    rw [hByte (x + i) (by omega) (by omega)]
    exact hNonzero

end

section
variable {p : Piece} {mf mb : Option DataRegion} {fresh : Bytes}

theorem elim_start_le (h : ∀ m ∈ mf, m.start < p.start) :
    mf.elim p.start DataRegion.start ≤ p.start := by
  cases mf with
  | none => exact Nat.le_refl _
  | some m => exact Nat.le_of_lt (h m rfl)

theorem le_elim_stop (h : ∀ m ∈ mb, p.stop < m.stop) : p.stop ≤ mb.elim p.stop DataRegion.stop := by
  cases mb with
  | none => exact Nat.le_refl _
  | some m => exact Nat.le_of_lt (h m rfl)

structure Mergeable (p : Piece) (mf mb : Option DataRegion) : Prop where
  front : ∀ m ∈ mf, m.start < p.start ∧ p.start ≤ m.stop ∧ m.stop - m.start ≤ m.data.length
  back : ∀ m ∈ mb, m.start = p.stop ∧ p.stop < m.stop ∧ m.stop - m.start ≤ m.data.length

theorem merged_copies (hMerge : Mergeable p mf mb) (hLe : p.start ≤ p.stop)
    (hFresh : fresh.length = mb.elim p.stop DataRegion.stop - mf.elim p.start DataRegion.start) :
    let start := mf.elim p.start DataRegion.start
    let front := mf.elim fresh fun m => memcpy fresh 0 m.data (p.start - m.start)
    let back := mb.elim front fun m => memcpy front (m.start - start) m.data (m.stop - p.stop)
    back.length = fresh.length ∧
      (∀ m ∈ mf, ∀ x, m.start ≤ x → x < p.start →
        back.getD (x - start) 0 = m.data.getD (x - m.start) 0) ∧
      ∀ m ∈ mb, ∀ x, p.stop ≤ x → x < m.stop →
        back.getD (x - start) 0 = m.data.getD (x - m.start) 0 := by
  intro start front back
  have hStart : start ≤ p.start := elim_start_le fun m hm => (hMerge.front m hm).1
  have hStop := le_elim_stop fun m hm => (hMerge.back m hm).2.1
  have hFront : front.length = fresh.length ∧ ∀ m ∈ mf, ∀ x, m.start ≤ x → x < p.start →
      front.getD (x - start) 0 = m.data.getD (x - m.start) 0 := by
    cases mf with
    | none => exact ⟨rfl, by simp⟩
    | some m =>
      obtain ⟨_, _, hData⟩ := hMerge.front m rfl
      have hBase : start = m.start := rfl
      have hRoom : 0 + (p.start - m.start) ≤ fresh.length := by
        rw [hFresh, Option.elim_some]
        omega
      refine ⟨length_memcpy hRoom (by omega), ?_⟩
      intro m' hm' x hLow hHigh
      cases hm'
      exact (getD_memcpy hRoom (by omega) _).trans (if_pos (by omega))
  cases mb with
  | none => exact ⟨hFront.1, hFront.2, by simp⟩
  | some m =>
    obtain ⟨hTouch, hPast, hData⟩ := hMerge.back m rfl
    rw [Option.elim_some] at hFresh
    have hRoom : m.start - start + (m.stop - p.stop) ≤ front.length := by
      rw [hFront.1, hFresh]
      omega
    have hBytes := getD_memcpy hRoom (show _ ≤ m.data.length by omega)
    refine ⟨(length_memcpy hRoom (by omega)).trans hFront.1, ?_, ?_⟩
    · intro f hf x hLow hHigh
      have hBase : start = f.start := by
        cases hf
        rfl
      have hOutside : ¬(m.start - start ≤ x - start ∧
          x - start < m.start - start + (m.stop - p.stop)) := by omega
      exact (hBytes _).trans ((if_neg hOutside).trans (hFront.2 f hf x hLow hHigh))
    · intro m' hm' x hLow hHigh
      cases hm'
      have hInside : m.start - start ≤ x - start ∧
          x - start < m.start - start + (m.stop - p.stop) := by omega
      have hIndex : x - start - (m.start - start) = x - m.start := by omega
      rw [← hIndex]
      exact (hBytes _).trans (if_pos hInside)

theorem mergedBytes_spec (hMerge : Mergeable p mf mb) (hLe : p.start ≤ p.stop)
    (hBuf : p.stop - p.start ≤ p.buf.length)
    (hFresh : fresh.length = mb.elim p.stop DataRegion.stop - mf.elim p.start DataRegion.start) :
    let start := mf.elim p.start DataRegion.start
    let bytes := mergedBytes p mf mb start fresh
    bytes.length = fresh.length ∧
      (∀ x, p.start ≤ x → x < p.stop → bytes.getD (x - start) 0 = p.buf.getD (x - p.start) 0) ∧
      (∀ m ∈ mf, ∀ x, m.start ≤ x → x < p.start →
        bytes.getD (x - start) 0 = m.data.getD (x - m.start) 0) ∧
      ∀ m ∈ mb, ∀ x, p.stop ≤ x → x < m.stop →
        bytes.getD (x - start) 0 = m.data.getD (x - m.start) 0 := by
  intro start bytes
  have hStart : start ≤ p.start := elim_start_le fun m hm => (hMerge.front m hm).1
  have hStop := le_elim_stop fun m hm => (hMerge.back m hm).2.1
  obtain ⟨hLength, hFront, hBack⟩ := merged_copies hMerge hLe hFresh
  have hRoom : p.start - start + (p.stop - p.start) ≤ fresh.length := by
    rw [hFresh]
    omega
  rw [← hLength] at hRoom
  have hBytes := getD_memcpy hRoom hBuf
  refine ⟨(length_memcpy hRoom hBuf).trans hLength, ?_, ?_, ?_⟩
  · intro x hLow hHigh
    refine (hBytes _).trans ((if_pos (by omega)).trans ?_)
    congr 1
    omega
  · intro m hm x hLow hHigh
    have hBase : start = m.start := by
      cases hm
      rfl
    exact (hBytes _).trans ((if_neg (by omega)).trans (hFront m hm x hLow hHigh))
  · intro m hm x hLow hHigh
    exact (hBytes _).trans ((if_neg (by omega)).trans (hBack m hm x hLow hHigh))

end

section
variable [Hashes] {p : Piece} {mf mb : Option DataRegion}

structure Merging [Hashes] (p : Piece) (mf mb : Option DataRegion) : Prop where
  front : ∀ m ∈ mf, m.WellFormed ∧ m.magic = p.magic ∧ m.start < p.start ∧ p.start ≤ m.stop
  back : ∀ m ∈ mb, m.WellFormed ∧ m.magic = p.magic ∧ m.start ≤ p.stop ∧ p.stop < m.stop

structure HoldsBytes (p : Piece) (mf mb : Option DataRegion) (w : DataRegion) : Prop where
  length : w.stop - w.start ≤ w.data.length
  within : ∀ x, p.start ≤ x → x < p.stop →
    w.data.getD (x - w.start) 0 = p.buf.getD (x - p.start) 0
  front : ∀ m ∈ mf, ∀ x, m.start ≤ x → x < p.start →
    w.data.getD (x - w.start) 0 = m.data.getD (x - m.start) 0
  back : ∀ m ∈ mb, ∀ x, p.stop ≤ x → x < m.stop →
    w.data.getD (x - w.start) 0 = m.data.getD (x - m.start) 0

theorem Written.of_bytes (hp : p.WellFormed) (hType : p.type = .data) (hMerging : Merging p mf mb)
    {w : DataRegion} (hStart : w.start = mf.elim p.start DataRegion.start)
    (hStop : w.stop = mb.elim p.stop DataRegion.stop) (hMagic : w.magic = p.magic)
    (hNoData : p.magic ≠ 0 → w.data = []) (hBytes : p.magic = 0 → HoldsBytes p mf mb w) :
    Written p mf mb [w] := by
  have hLow := elim_start_le fun m hm => (hMerging.front m hm).2.2.1
  have hHigh := le_elim_stop fun m hm => (hMerging.back m hm).2.2.2
  have hNonempty := hp.nonempty hType
  have hWithin : ∀ x, p.start ≤ x → x < p.stop → w.byteAt x = p.byteAt x := by
    intro x hx hx'
    simp only [DataRegion.byteAt, Piece.byteAt, hType, hMagic]
    split
    case isTrue h => exact (hBytes h).within x hx hx'
    case isFalse => rfl
  have hFront : ∀ m ∈ mf, ∀ x, m.start ≤ x → x < p.start → w.byteAt x = m.byteAt x := by
    intro m hm x hx hx'
    rw [DataRegion.byteAt, DataRegion.byteAt, hMagic, (hMerging.front m hm).2.1]
    split
    case isTrue h => exact (hBytes h).front m hm x hx hx'
    case isFalse => rfl
  have hBack : ∀ m ∈ mb, ∀ x, p.stop ≤ x → x < m.stop → w.byteAt x = m.byteAt x := by
    intro m hm x hx hx'
    rw [DataRegion.byteAt, DataRegion.byteAt, hMagic, (hMerging.back m hm).2.1]
    split
    case isTrue h => exact (hBytes h).back m hm x hx hx'
    case isFalse => rfl
  refine Written.region hType ?_ hStart hStop hMagic hWithin hFront hBack
  have hpStart := hp.start_aligned
  have hpStop := hp.stop_aligned
  constructor
  · rw [hStart]
    cases mf with
    | none => exact hpStart
    | some m => exact (hMerging.front m rfl).1.start_aligned
  · rw [hStop]
    cases mb with
    | none => exact hpStop
    | some m => exact (hMerging.back m rfl).1.stop_aligned
  · omega
  · rw [hStop]
    cases mb with
    | none => exact hp.stop_le
    | some m => exact (hMerging.back m rfl).1.stop_le
  · intro h
    exact (hBytes (hMagic ▸ h)).length
  · intro h
    exact hNoData (hMagic ▸ h)
  · -- a word lies before the interval, in it or after it
    intro x hx hx1 hx2
    rcases Nat.lt_or_ge x p.start with hBefore | hAfter
    · cases mf with
      | none =>
        simp only [Option.elim_none] at hStart
        omega
      | some m =>
        simp only [Option.elim_some] at hStart
        obtain ⟨hm, _, _, hReach⟩ := hMerging.front m rfl
        obtain ⟨i, hi, hByte⟩ := hm.nonzero x hx (by omega) (by omega)
        exact ⟨i, hi, by rwa [hFront m rfl (x + i) (by omega) (by omega)]⟩
    · rcases Nat.lt_or_ge x p.stop with hIn | hPast
      · obtain ⟨i, hi, hByte⟩ := hp.nonzero hType x hx hAfter hIn
        exact ⟨i, hi, by rwa [hWithin (x + i) (by omega) (by omega)]⟩
      · cases mb with
        | none =>
          simp only [Option.elim_none] at hStop
          omega
        | some m =>
          simp only [Option.elim_some] at hStop
          obtain ⟨hm, _, hReach, _⟩ := hMerging.back m rfl
          have hmStop := hm.stop_aligned
          obtain ⟨i, hi, hByte⟩ := hm.nonzero x hx (by omega) (by omega)
          exact ⟨i, hi, by rwa [hBack m rfl (x + i) (by omega) (by omega)]⟩

end

section
variable [Hashes] {p : Piece} {d : Data} {w : Writing}
  {before after : List DataRegion} {front back : Option DataRegion}

structure Neighbours [Hashes] (p : Piece) (before : List DataRegion)
    (front back : Option DataRegion) (after : List DataRegion) : Prop where
  before_lt : ∀ r ∈ before, r.start < p.start ∧ ∀ f ∈ front, r.start < f.start
  after_gt : ∀ r ∈ after, p.stop < r.start
  front : ∀ r ∈ front, r.WellFormed ∧ r.start < p.start ∧ p.start ≤ r.stop
  back : ∀ r ∈ back, r.WellFormed ∧ r.start ≤ p.stop ∧ p.stop < r.stop

structure Pending [Hashes] (p : Piece) (d : Data) (before : List DataRegion)
    (front back : Option DataRegion) (after kept keptBack : List DataRegion) (w : Writing) :
    Prop where
  kept_front : KeptFront p front kept w.mergeFront
  kept_back : KeptBack p back keptBack w.mergeBack
  regions : ((w.data.addIfAny w.insertFront).addIfAny w.insertBack).regions =
    before ++ kept ++ keptBack ++ after
  buf : w.data.buf = d.buf

omit [Hashes] in
@[simp]
theorem addIfAny_buf (d : Data) (r : Option DataRegion) : (d.addIfAny r).buf = d.buf := by
  cases r <;> rfl

theorem KeptFront.same_kind {kept : List DataRegion} {mf : Option DataRegion}
    (h : KeptFront p front kept mf) :
    ∀ m ∈ mf, m ∈ front ∧ m.magic = p.magic := by
  cases h with
  | absent => simp
  | clipped => simp
  | @merged r hSame =>
    intro m hm
    cases hm
    exact ⟨rfl, not_not.mp fun h => hSame (Or.inr h)⟩

theorem KeptBack.same_kind {kept : List DataRegion} {mb : Option DataRegion}
    (h : KeptBack p back kept mb) :
    ∀ m ∈ mb, m ∈ back ∧ m.magic = p.magic ∧ ¬p.OtherKind m := by
  cases h with
  | absent => simp
  | clipped => simp
  | @merged r hSame =>
    intro m hm
    cases hm
    exact ⟨rfl, not_not.mp fun h => hSame (Or.inr h), hSame⟩

theorem Pending.add_regions {kept keptBack : List DataRegion} {r : DataRegion} {d' : Data}
    (hp : p.WellFormed) (hType : p.type = .data) (hN : Neighbours p before front back after)
    (hPending : Pending p d before front back after kept keptBack w)
    (hRegions : d'.regions = before ++ kept ++ keptBack ++ after)
    (hStart : r.start = w.mergeFront.elim p.start DataRegion.start) :
    (d'.add r).regions = before ++ kept ++ [r] ++ keptBack ++ after := by
  have hNonempty := hp.nonempty hType
  have hLe : r.start ≤ p.start := by
    rw [hStart]
    exact elim_start_le fun m hm => (hN.front m (hPending.kept_front.same_kind m hm).1).2.1
  have hLeft : ∀ q ∈ before ++ kept, q.start < r.start := by
    intro q hq
    rcases List.mem_append.mp hq with hq | hq
    · rw [hStart]
      cases hmf : w.mergeFront with
      | none => exact (hN.before_lt q hq).1
      | some m =>
        have hm := (hPending.kept_front.same_kind m hmf).1
        exact (hN.before_lt q hq).2 m hm
    · obtain ⟨hq, hStop, _, hNone⟩ := hPending.kept_front.bounds q hq
      rw [hStart, hNone, Option.elim_none, ← hStop]
      exact hq.nonempty
  have hRight : ∀ q ∈ keptBack ++ after, r.start < q.start := by
    intro q hq
    rcases List.mem_append.mp hq with hq | hq
    · have := (hPending.kept_back.bounds q hq).2.1
      omega
    · have := hN.after_gt q hq
      omega
  rw [List.append_assoc] at hRegions
  rw [Data.add, hRegions, insert_between hLeft hRight]
  simp

theorem Pending.finish {kept keptBack : List DataRegion} (hp : p.WellFormed)
    (hN : Neighbours p before front back after)
    (hSafe : ∀ r ∈ back, p.Safe r) (hStarts : ∀ m ∈ w.mergeBack, p.start ≤ m.start)
    (hPending : Pending p d before front back after kept keptBack w) :
    ∃ written, Outcome p front back kept written keptBack ∧
      (w.finish p).regions = before ++ kept ++ written ++ keptBack ++ after ∧
      (w.finish p).buf = d.buf := by
  have hMerging : Merging p w.mergeFront w.mergeBack := by
    constructor
    · intro m hm
      obtain ⟨hMem, hMagic⟩ := hPending.kept_front.same_kind m hm
      exact ⟨(hN.front m hMem).1, hMagic, (hN.front m hMem).2⟩
    · intro m hm
      obtain ⟨hMem, hMagic, _⟩ := hPending.kept_back.same_kind m hm
      exact ⟨(hN.back m hMem).1, hMagic, (hN.back m hMem).2⟩
  have hOutcome : ∀ written, Written p w.mergeFront w.mergeBack written →
      Outcome p front back kept written keptBack := fun written hWritten =>
    ⟨⟨_, _, hPending.kept_front, hPending.kept_back, hWritten⟩, fun r hr => (hN.front r hr).2,
      fun r hr => (hN.back r hr).2⟩
  rw [Writing.finish]
  cases hType : p.type with
  | zero =>
    refine ⟨[], hOutcome [] (Written.zero hType), ?_, ?_⟩
    · simp [hPending.regions]
    · simp [hPending.buf]
  | data =>
    dsimp only
    split
    case isTrue hMagic =>
      refine ⟨[_], hOutcome _ ?_, hPending.add_regions hp hType hN hPending.regions rfl, ?_⟩
      · exact Written.of_bytes hp hType hMerging rfl rfl rfl (fun _ => rfl)
          fun hZero => absurd hZero hMagic
      · simp [Data.add, hPending.buf]
    case isFalse hMagic =>
      have hZero : p.magic = 0 := not_not.mp hMagic
      have hMergeable : Mergeable p w.mergeFront w.mergeBack := by
        constructor
        · intro m hm
          obtain ⟨hm, hm0, hStart, hStop⟩ := hMerging.front m hm
          exact ⟨hStart, hStop, hm.regular (hm0.trans hZero)⟩
        · intro m hm
          obtain ⟨hMem, _, hSame⟩ := hPending.kept_back.same_kind m hm
          obtain ⟨hWF, hm0, hStart, hStop⟩ := hMerging.back m hm
          have hTouch : m.start = p.stop := by
            rcases Nat.lt_or_ge m.start p.stop with hLt | hGe
            · exact absurd ((hSafe m hMem).2 (hStarts m hm) hLt hStop hZero) hSame
            · omega
          exact ⟨hTouch, hStop, hWF.regular (hm0.trans hZero)⟩
      refine ⟨[_], hOutcome _ ?_, hPending.add_regions hp hType hN hPending.regions rfl, ?_⟩
      · apply Written.of_bytes hp hType hMerging rfl rfl rfl
        · intro h
          exact absurd hZero h
        · intro _
          have hFresh : (((w.data.addIfAny w.insertFront).addIfAny w.insertBack).alloc
              (w.mergeBack.elim p.stop DataRegion.stop -
                w.mergeFront.elim p.start DataRegion.start)).1.length =
              w.mergeBack.elim p.stop DataRegion.stop -
                w.mergeFront.elim p.start DataRegion.start := by
            simp [Data.alloc]
          obtain ⟨hLength, hWithin, hFront, hBack⟩ :=
            mergedBytes_spec hMergeable hp.start_le (hp.regular hType hZero) hFresh
          exact ⟨Nat.le_of_eq (hLength.trans hFresh).symm, hWithin, hFront, hBack⟩
      · simp [Data.add, Data.alloc, hPending.buf]

end

section
variable [Hashes] {p : Piece} {d : Data} {w : Writing}
  {before rest after : List DataRegion} {front back : Option DataRegion}

structure AfterFront [Hashes] (p : Piece) (d : Data) (before : List DataRegion)
    (front : Option DataRegion) (kept rest : List DataRegion) (w : Writing) : Prop where
  kept_front : KeptFront p front kept w.mergeFront
  regions : w.data.regions = before ++ kept ++ rest
  insertFront : w.insertFront = none
  insertBack : w.insertBack = none
  mergeBack : w.mergeBack = none
  buf : w.data.buf = d.buf

theorem overFront_spec {r : DataRegion} (hp : p.WellFormed) (hr : r.WellFormed)
    (hStart : r.start < p.start) (hReach : p.start ≤ r.stop) (hStop : r.stop ≤ p.stop)
    (hOrd : Ordered d.regions) (hSplit : d.regions = before ++ r :: rest) :
    ∃ kept w, overRegion p (Writing.start d) r = .ok w ∧
      AfterFront p d before (some r) kept rest w := by
  obtain ⟨hBefore, hRest⟩ := (hSplit ▸ hOrd : Ordered (before ++ r :: rest)).key_lt
  have hOver : overRegion p (Writing.start d) r =
      overFront p (Writing.start d) r := by
    rw [overRegion, if_neg (by omega), if_pos ⟨hStart, hStop⟩]
  have hClip := hr.clip_stop hp.start_aligned hStart hReach
  rw [hOver, overFront]
  split
  case isTrue hOther =>
    split
    case isTrue hTouch =>
      have hSame : { r with stop := p.start } = r := by rw [hTouch]
      refine ⟨[r], _, rfl, ?_⟩
      constructor
      · rw [hSame] at hClip
        exact KeptFront.clipped hOther hClip
      · simp [Writing.start, hSplit]
      all_goals rfl
    case isFalse =>
      refine ⟨[{ r with stop := p.start }], _, rfl, ?_⟩
      constructor
      · exact KeptFront.clipped hOther hClip
      · simp [Writing.start, Data.update, hSplit, update_between hBefore hRest]
      all_goals rfl
  case isFalse hSame =>
    rw [if_neg (by simp [Writing.start])]
    refine ⟨[], _, rfl, ?_⟩
    constructor
    · exact KeptFront.merged hSame
    · simp [Writing.start, Data.erase, hSplit, erase_between hBefore hRest]
    all_goals rfl

theorem KeptFront.ordered_between {kept : List DataRegion} {mf : Option DataRegion}
    (h : KeptFront p front kept mf) (hReach : ∀ r ∈ front, p.start ≤ r.stop)
    (hOrd : Ordered (before ++ front.toList ++ rest)) : Ordered (before ++ kept ++ rest) := by
  cases h with
  | absent => exact hOrd
  | @clipped r r' _ hClip =>
    simp only [Option.toList_some, List.append_assoc, List.singleton_append] at hOrd ⊢
    apply hOrd.shrink
    · exact Nat.le_of_eq hClip.start_eq.symm
    · exact hClip.wellFormed.nonempty
    · rw [hClip.stop_eq]
      exact hReach r rfl
  | merged =>
    simp only [Option.toList_some, List.append_assoc, List.singleton_append] at hOrd
    rw [List.append_nil]
    exact hOrd.sublist ((List.sublist_cons_self _ rest).append_left before)

theorem foldlM_front (hp : p.WellFormed)
    (hFront : ∀ r ∈ front, r.WellFormed ∧ r.start < p.start ∧ p.start ≤ r.stop ∧ r.stop ≤ p.stop)
    (hOrd : Ordered d.regions) (hSplit : d.regions = before ++ front.toList ++ rest) :
    ∃ kept w, front.toList.foldlM (overRegion p) (Writing.start d) = .ok w ∧
      AfterFront p d before front kept rest w := by
  cases front with
  | none =>
    refine ⟨[], Writing.start d, rfl, ⟨KeptFront.absent, ?_, rfl, rfl, rfl, rfl⟩⟩
    simpa [Writing.start] using hSplit
  | some r =>
    obtain ⟨hr, hStart, hReach, hStop⟩ := hFront r rfl
    rw [Option.toList_some, List.append_assoc, List.singleton_append] at hSplit
    obtain ⟨kept, w, hOver, hAfter⟩ := overFront_spec hp hr hStart hReach hStop hOrd hSplit
    refine ⟨kept, w, ?_, hAfter⟩
    simp [hOver]

theorem foldlM_mid {mid : List DataRegion}
    (hMid : ∀ r ∈ mid, r.WellFormed ∧ p.start ≤ r.start ∧ r.stop ≤ p.stop)
    (hOrd : Ordered (before ++ mid ++ rest)) (hSplit : w.data.regions = before ++ mid ++ rest) :
    mid.foldlM (overRegion p) w =
      .ok { w with data := { w.data with regions := before ++ rest } } := by
  induction mid generalizing w with
  | nil =>
    rw [List.append_nil] at hSplit
    rw [← hSplit]
    rfl
  | cons r mid ih =>
    obtain ⟨hr, hStart, hStop⟩ := hMid r List.mem_cons_self
    rw [List.append_assoc, List.cons_append] at hOrd hSplit
    obtain ⟨hBefore, hRest⟩ := hOrd.key_lt
    have hOver : overRegion p w r =
        .ok { w with data := { w.data with regions := before ++ mid ++ rest } } := by
      rw [overRegion, if_pos ⟨hStart, hStop⟩, overwrite, if_pos hr.internalCheck,
        Data.erase, hSplit, erase_between hBefore hRest, List.append_assoc]
    have hOrdRest : Ordered (before ++ mid ++ rest) := by
      rw [List.append_assoc]
      exact hOrd.sublist ((List.sublist_cons_self r (mid ++ rest)).append_left before)
    rw [List.foldlM_cons, hOver]
    exact ih (fun q hq => hMid q (List.mem_cons_of_mem r hq)) hOrdRest rfl

theorem overBack_spec {r : DataRegion} {kept : List DataRegion} (hp : p.WellFormed)
    (hr : r.WellFormed) (hStart : p.start ≤ r.start) (hReach : r.start ≤ p.stop)
    (hStop : p.stop < r.stop) (hOrd : Ordered w.data.regions)
    (hBefore : ∀ q ∈ before ++ kept, q.start < p.stop)
    (hAfter : AfterFront p d before front kept (r :: after) w) :
    ∃ keptBack w', overRegion p w r = .ok w' ∧
      Pending p d before front (some r) after kept keptBack w' := by
  have hSplit := hAfter.regions
  obtain ⟨hLeft, hRight⟩ := (hSplit ▸ hOrd : Ordered (before ++ kept ++ r :: after)).key_lt
  have hOver : overRegion p w r = overBack p w r := by
    rw [overRegion, if_neg (by omega), if_neg (by omega), if_neg (by omega)]
  have hpStop := hp.stop_aligned
  have hErase := erase_between hLeft hRight
  rw [hOver, overBack, if_neg (by omega)]
  split
  case isTrue hOther =>
    split
    case isTrue hTouch =>
      have hClip : Clip r p.stop r.stop r := ⟨hTouch.symm, rfl, rfl, hr, fun _ _ _ => rfl⟩
      refine ⟨[r], w, rfl, ?_⟩
      constructor
      · exact hAfter.kept_front
      · rw [hAfter.mergeBack]
        exact KeptBack.clipped hOther hClip
      · rw [hAfter.insertFront, hAfter.insertBack]
        simp [Data.addIfAny, hSplit]
      · exact hAfter.buf
    case isFalse hOverlap =>
      have hClip := hr.clip_newRegion w.data hpStop hr.stop_aligned hReach hStop (Nat.le_refl _)
        (fun _ => rfl : r.magic = 0 → p.stop - r.start = p.stop - r.start)
      rw [if_neg (by simp [hAfter.insertBack]), if_pos hr.internalCheck]
      refine ⟨[(w.data.newRegion p.stop r.stop r.magic r.data (p.stop - r.start)).1], _, rfl, ?_⟩
      constructor
      · exact hAfter.kept_front
      · dsimp only
        rw [hAfter.mergeBack]
        exact KeptBack.clipped hOther hClip
      · have hRight' : ∀ q ∈ after, (w.data.newRegion p.stop r.stop r.magic r.data
            (p.stop - r.start)).1.start < q.start := by
          intro q hq
          rw [hClip.start_eq]
          have := hRight q hq
          obtain ⟨_, hRest, _⟩ := ordered_append.mp (hSplit ▸ hOrd)
          have := (ordered_cons.mp hRest).2.1 q hq
          omega
        have hLeft' : ∀ q ∈ before ++ kept, q.start < (w.data.newRegion p.stop r.stop r.magic
            r.data (p.stop - r.start)).1.start := by
          intro q hq
          rw [hClip.start_eq]
          exact hBefore q hq
        simp only [hAfter.insertFront, Data.addIfAny, Data.add, Data.erase, Data.newRegion_regions,
          hSplit, hErase, insert_between hLeft' hRight']
        simp
      · simp [Data.erase, hAfter.buf]
  case isFalse hSame =>
    rw [if_neg (by simp [hAfter.mergeBack])]
    refine ⟨[], _, rfl, ?_⟩
    constructor
    · exact hAfter.kept_front
    · exact KeptBack.merged hSame
    · simp only [hAfter.insertFront, hAfter.insertBack, Data.addIfAny, Data.erase, hSplit, hErase,
        List.append_nil]
    · exact hAfter.buf

theorem foldlM_parts {mid : List DataRegion} (hp : p.WellFormed)
    (hN : Neighbours p before front back after) (hFront : ∀ r ∈ front, r.stop ≤ p.stop)
    (hMid : ∀ r ∈ mid, r.WellFormed ∧ p.start ≤ r.start ∧ r.stop ≤ p.stop)
    (hBack : ∀ r ∈ back, p.start ≤ r.start) (hOrd : Ordered d.regions)
    (hSplit : d.regions = before ++ (front.toList ++ mid ++ back.toList) ++ after) :
    ∃ kept keptBack w,
      (front.toList ++ mid ++ back.toList).foldlM (overRegion p) (Writing.start d) = .ok w ∧
      Pending p d before front back after kept keptBack w := by
  have hSplitFront : d.regions = before ++ front.toList ++ (mid ++ (back.toList ++ after)) := by
    rw [hSplit]
    simp
  obtain ⟨kept, w, hFold, hAfter⟩ := foldlM_front hp
    (fun r hr => ⟨(hN.front r hr).1, (hN.front r hr).2.1, (hN.front r hr).2.2, hFront r hr⟩)
    hOrd hSplitFront
  have hKeptStart : ∀ q ∈ before ++ kept, q.start < p.start := by
    intro q hq
    rcases List.mem_append.mp hq with hq | hq
    · exact (hN.before_lt q hq).1
    · obtain ⟨hWF, hStop, _⟩ := hAfter.kept_front.bounds q hq
      rw [← hStop]
      exact hWF.nonempty
  have hOrdKept : Ordered (before ++ kept ++ (mid ++ (back.toList ++ after))) :=
    hAfter.kept_front.ordered_between (fun r hr => (hN.front r hr).2.2) (hSplitFront ▸ hOrd)
  have hRegions := hAfter.regions
  rw [← List.append_assoc] at hOrdKept hRegions
  have hFoldMid := foldlM_mid hMid hOrdKept hRegions
  have hOrdBack : Ordered (before ++ kept ++ (back.toList ++ after)) := by
    apply hOrdKept.sublist
    rw [List.append_assoc (before ++ kept) mid]
    exact (List.sublist_append_right mid _).append_left (before ++ kept)
  have hAfterMid : AfterFront p d before front kept (back.toList ++ after)
      { w with data := { w.data with regions := before ++ kept ++ (back.toList ++ after) } } :=
    ⟨hAfter.kept_front, rfl, hAfter.insertFront, hAfter.insertBack, hAfter.mergeBack, hAfter.buf⟩
  have hLoop := Loop.foldlM_append_ok ((Loop.foldlM_append_ok hFold mid).trans hFoldMid) back.toList
  rw [hLoop]
  cases back with
  | none =>
    refine ⟨kept, [], _, rfl, hAfter.kept_front, ?_, ?_, hAfter.buf⟩
    · dsimp only
      rw [hAfter.mergeBack]
      exact KeptBack.absent
    · simp [hAfter.insertFront, hAfter.insertBack, Data.addIfAny]
  | some r =>
    have hr := hN.back r rfl
    have hLe := hp.start_le
    obtain ⟨keptBack, w', hOver, hPending⟩ := overBack_spec hp hr.1 (hBack r rfl) hr.2.1 hr.2.2
      hOrdBack (fun q hq => by have := hKeptStart q hq; omega) hAfterMid
    refine ⟨kept, keptBack, w', ?_, hPending⟩
    rw [Option.toList_some, List.foldlM_cons]
    exact congrArg (· >>= pure) hOver

theorem inside_other_spec {r : DataRegion} (hp : p.WellFormed)
    (hr : r.WellFormed) (hStart : r.start < p.start) (hStop : p.stop < r.stop)
    (hSafe : p.Safe r) (hOther : p.OtherKind r) (hOrd : Ordered d.regions)
    (hSplit : d.regions = before ++ r :: after) :
    ∃ kept keptBack w, overRegion p (Writing.start d) r = .ok w ∧
      Pending p d before (some r) (some r) after kept keptBack w := by
  have hOrdSplit : Ordered (before ++ r :: after) := hSplit ▸ hOrd
  obtain ⟨hLeft, hRight⟩ := hOrdSplit.key_lt
  have hRest := (ordered_cons.mp (ordered_append.mp hOrdSplit).2.1).2.1
  have hLe := hp.start_le
  obtain ⟨first, hFirst⟩ : ∃ first, first = d.newRegion r.start p.start r.magic r.data 0 := ⟨_, rfl⟩
  obtain ⟨last, hLast⟩ : ∃ last, last = first.2.newRegion p.stop r.stop r.magic r.data p.stop :=
    ⟨_, rfl⟩
  have hFront : Clip r r.start p.start first.1 := by
    rw [hFirst]
    exact hr.clip_newRegion d hr.start_aligned hp.start_aligned (Nat.le_refl _) hStart (by omega)
      fun _ => (Nat.sub_self _).symm
  have hBack : Clip r p.stop r.stop last.1 := by
    rw [hLast]
    apply hr.clip_newRegion _ hp.stop_aligned hr.stop_aligned (by omega) hStop (Nat.le_refl _)
    -- the copy starts at the right byte since the region starts the file
    intro hMagic
    rw [hSafe.1 hStart hStop hOther hMagic, Nat.sub_zero]
  have hOver : overRegion p (Writing.start d) r = .ok
      ⟨last.2.erase r, some first.1, some last.1, none, none⟩ := by
    rw [overRegion, if_neg (by omega), if_neg (by omega), if_pos ⟨hStart, hStop⟩,
      inside, if_pos hOther, if_neg (by simp [Writing.start])]
    simp only [Writing.start, hr.internalCheck, if_true, ← hFirst, ← hLast]
  have hRegions : last.2.regions = before ++ r :: after := by
    rw [hLast, Data.newRegion_regions, hFirst, Data.newRegion_regions, hSplit]
  have hInsert : IntervalMap.insert DataRegion.start first.1 (before ++ after) =
      before ++ first.1 :: after := by
    apply insert_between
    · rw [hFront.start_eq]
      exact hLeft
    · rw [hFront.start_eq]
      exact hRight
  have hInsertBack : IntervalMap.insert DataRegion.start last.1 (before ++ [first.1] ++ after) =
      before ++ [first.1] ++ last.1 :: after := by
    apply insert_between
    · intro q hq
      rw [hBack.start_eq]
      rcases List.mem_append.mp hq with hq | hq
      · have := hLeft q hq
        omega
      · rw [List.mem_singleton.mp hq, hFront.start_eq]
        omega
    · intro q hq
      rw [hBack.start_eq]
      have := hRest q hq
      omega
  refine ⟨[first.1], [last.1], _, hOver, KeptFront.clipped hOther hFront,
    KeptBack.clipped hOther hBack, ?_, ?_⟩
  · simp only [Data.addIfAny, Data.add, Data.erase, hRegions, erase_between hLeft hRight, hInsert]
    rw [List.append_cons, hInsertBack]
    simp
  · simp [Data.erase, hLast, hFirst]

theorem inside_same_spec {r : DataRegion} (hp : p.WellFormed) (hr : r.WellFormed)
    (hStart : r.start < p.start) (hStop : p.stop < r.stop) (hSame : ¬p.OtherKind r)
    (hOrd : Ordered d.regions) (hSplit : d.regions = before ++ r :: after) :
    ∃ r' d', overRegion p (Writing.start d) r = .error (.returned d') ∧ d'.buf = d.buf ∧
      d'.regions = before ++ r' :: after ∧
      Outcome p (some r) (some r) [] [r'] [] := by
  have hLe := hp.start_le
  have hType : p.type = .data := by
    cases hType : p.type with
    | zero => exact absurd (Or.inl hType) hSame
    | data => rfl
  have hMagic : r.magic = p.magic := not_not.mp fun h => hSame (Or.inr h)
  obtain ⟨hLeft, hRight⟩ := (hSplit ▸ hOrd : Ordered (before ++ r :: after)).key_lt
  have hMerging : Merging p (some r) (some r) := by
    constructor
    · intro m hm
      cases hm
      exact ⟨hr, hMagic, hStart, by omega⟩
    · intro m hm
      cases hm
      exact ⟨hr, hMagic, by omega, hStop⟩
  have hOutcome : ∀ r', Written p (some r) (some r) [r'] →
      Outcome p (some r) (some r) [] [r'] [] := by
    intro r' hWritten
    refine ⟨⟨_, _, KeptFront.merged hSame, KeptBack.merged hSame, hWritten⟩, ?_, ?_⟩
    · intro m hm
      cases hm
      omega
    · intro m hm
      cases hm
      omega
  rw [overRegion, if_neg (by omega), if_neg (by omega), if_pos ⟨hStart, hStop⟩,
    inside, if_neg hSame, if_neg (by simp [Writing.start]),
    if_neg (by simp [Writing.start])]
  split
  case isTrue hNonzero =>
    refine ⟨r, _, rfl, rfl, hSplit, hOutcome r ?_⟩
    apply Written.of_bytes hp hType hMerging rfl rfl hMagic
    · intro _
      exact hr.no_data (hMagic ▸ hNonzero)
    · intro h
      exact absurd h hNonzero
  case isFalse hZero =>
    have hRegular : p.magic = 0 := not_not.mp hZero
    have hLength := hr.regular (hMagic.trans hRegular)
    have hBuf := hp.regular hType hRegular
    have hRoom : p.start - r.start + (p.stop - p.start) ≤ r.data.length := by omega
    have hBytes := getD_memcpy hRoom hBuf
    refine ⟨{ r with data := memcpy r.data (p.start - r.start) p.buf (p.stop - p.start) }, _, rfl,
      rfl, ?_, hOutcome _ ?_⟩
    · simp [Writing.start, Data.update, hSplit, update_between hLeft hRight]
    · refine Written.of_bytes hp hType hMerging rfl rfl ?_ ?_ ?_
      · exact hMagic
      · intro h
        exact absurd hRegular h
      · intro _
        constructor
        · rw [length_memcpy hRoom hBuf]
          exact hLength
        · intro x hLow hHigh
          dsimp only
          refine (hBytes _).trans ((if_pos (by omega)).trans ?_)
          congr 1
          omega
        · intro m hm x hLow hHigh
          cases hm
          dsimp only
          exact (hBytes _).trans (if_neg (by omega))
        · intro m hm x hLow hHigh
          cases hm
          dsimp only
          exact (hBytes _).trans (if_neg (by omega))

theorem replaces_around {r : DataRegion} {kept written keptBack : List DataRegion}
    (hLe : p.start ≤ p.stop) (h : Outcome p (some r) (some r) kept written keptBack) :
    Replaces p [r] (kept ++ written ++ keptBack) := by
  apply h.replaces hLe
  · intro q hq
    cases hq
    exact List.mem_singleton_self r
  · intro q hq
    cases hq
    exact List.mem_singleton_self r
  · intro _ _
    rfl
  · intro _ _
    rfl

theorem replaces_parts {mid kept written keptBack : List DataRegion} (hLe : p.start ≤ p.stop)
    (hFront : ∀ r ∈ front, r.stop ≤ p.stop) (hMid : ∀ r ∈ mid, p.start ≤ r.start ∧ r.stop ≤ p.stop)
    (hBack : ∀ r ∈ back, p.start ≤ r.start) (h : Outcome p front back kept written keptBack) :
    Replaces p (front.toList ++ mid ++ back.toList)
      (kept ++ written ++ keptBack) := by
  have hNoMid : ∀ x, x < p.start ∨ p.stop ≤ x → regionValue mid x = none := by
    intro x hx
    apply regionValue_eq_none
    intro r hr _
    have := hMid r hr
    omega
  apply h.replaces hLe
  · intro r hr
    simp [Option.mem_def.mp hr]
  · intro r hr
    simp [Option.mem_def.mp hr]
  · intro x hx
    have hNoBack : regionValue back.toList x = none := by
      apply regionValue_eq_none
      intro r hr _
      have := hBack r (Option.mem_toList.mp hr)
      omega
    rw [regionValue_append, regionValue_append, hNoMid x (.inl hx), hNoBack, Option.or_none,
      Option.or_none]
  · intro x hx
    have hNoFront : regionValue front.toList x = none := by
      apply regionValue_eq_none
      intro r hr _
      have := hFront r (Option.mem_toList.mp hr)
      omega
    rw [regionValue_append, regionValue_append, hNoMid x (.inr hx), hNoFront, Option.none_or,
      Option.none_or]

structure Rewritten [Hashes] (p : Piece) (d d' : Data) (before old after : List DataRegion)
    (front back : Option DataRegion) (kept written keptBack : List DataRegion) : Prop where
  old_eq : d.regions = before ++ old ++ after
  new_eq : d'.regions = before ++ (kept ++ written ++ keptBack) ++ after
  before_lt : ∀ r ∈ before, r.stop < p.start
  after_gt : ∀ r ∈ after, p.stop < r.start
  front_mem : ∀ r ∈ front, r ∈ old
  back_mem : ∀ r ∈ back, r ∈ old
  outcome : Outcome p front back kept written keptBack
  replaces : Replaces p old (kept ++ written ++ keptBack)

theorem writeRegion_rewritten (hWF : d.WellFormed) (hp : p.WellFormed)
    (hSafe : ∀ r ∈ d.regions, p.Safe r) :
    ∃ d', d.writeRegion p = .ok d' ∧ d'.buf = d.buf ∧
      ∃ before old after front back kept written keptBack,
        Rewritten p d d' before old after front back kept written keptBack := by
  obtain ⟨before, after, hRange⟩ := intersectedRange_spec hWF.ordered p.start p.stop
  have hSplit := hRange.split
  have hLe := hp.start_le
  rw [Data.writeRegion]
  generalize hFound : (intersectedRange d.regions p.start p.stop).regions = found at hSplit
  have hTouch := hRange.touches
  rw [hFound] at hTouch
  have hMem : ∀ r ∈ found, r ∈ d.regions := by
    intro r hr
    rw [hSplit]
    simp [hr]
  have hOrdSplit : Ordered (before ++ found ++ after) := hSplit ▸ hWF.ordered
  obtain ⟨hOrdLeft, _, _⟩ := ordered_append.mp hOrdSplit
  obtain ⟨hOrdBefore, hOrdFound, hBeforeFound⟩ := ordered_append.mp hOrdLeft
  have hBeforeLt : ∀ r ∈ before, r.start < p.start ∧ ∀ f ∈ found, r.start < f.start := by
    intro r hr
    have hNonempty := hOrdBefore.nonempty r hr
    have := hRange.before_lt r hr
    refine ⟨by omega, ?_⟩
    intro f hf
    exact Nat.lt_of_lt_of_le hNonempty (hBeforeFound r hr f hf)
  cases layout_of_touches hOrdFound hTouch with
  | @around r hStart hStop =>
    have hr := hWF.regions r (hMem r List.mem_cons_self)
    have hrSafe := hSafe r (hMem r List.mem_cons_self)
    rw [List.append_assoc, List.singleton_append] at hSplit
    rw [List.foldlM_cons]
    by_cases hOther : p.OtherKind r
    · obtain ⟨kept, keptBack, w, hOver, hPending⟩ :=
        inside_other_spec hp hr hStart hStop hrSafe hOther hWF.ordered hSplit
      have hN : Neighbours p before (some r) (some r) after := by
        refine ⟨?_, hRange.after_gt, ?_, ?_⟩
        · intro q hq
          refine ⟨(hBeforeLt q hq).1, ?_⟩
          intro f hf
          cases hf
          exact (hBeforeLt q hq).2 r List.mem_cons_self
        · intro q hq
          cases hq
          exact ⟨hr, hStart, by omega⟩
        · intro q hq
          cases hq
          exact ⟨hr, by omega, hStop⟩
      have hStarts : ∀ m ∈ w.mergeBack, p.start ≤ m.start := by
        intro m hm
        obtain ⟨hMem, _, hSame⟩ := hPending.kept_back.same_kind m hm
        cases hMem
        exact absurd hOther hSame
      obtain ⟨written, hOutcome, hRegions, hBuf⟩ :=
        hPending.finish hp hN (fun q hq => by cases hq; exact hrSafe) hStarts
      rw [hOver]
      exact ⟨w.finish p, rfl, hBuf, before, [r], after, some r, some r, kept, written, keptBack,
        by simp [hSplit], by simp [hRegions], hRange.before_lt, hRange.after_gt, by simp, by simp,
        hOutcome, replaces_around hLe hOutcome⟩
    · obtain ⟨r', d', hOver, hBuf, hRegions, hOutcome⟩ :=
        inside_same_spec hp hr hStart hStop hOther hWF.ordered hSplit
      rw [hOver]
      exact ⟨d', rfl, hBuf, before, [r], after, some r, some r, [], [r'], [],
        by simp [hSplit], by simp [hRegions], hRange.before_lt, hRange.after_gt, by simp, by simp,
        hOutcome, replaces_around hLe hOutcome⟩
  | @parts front back mid hFront hMid hBack =>
    have hN : Neighbours p before front back after := by
      refine ⟨?_, hRange.after_gt, ?_, ?_⟩
      · intro q hq
        refine ⟨(hBeforeLt q hq).1, ?_⟩
        intro f hf
        exact (hBeforeLt q hq).2 f (by simp [Option.mem_def.mp hf])
      · intro q hq
        have hqMem := hMem q (by simp [Option.mem_def.mp hq])
        exact ⟨hWF.regions q hqMem, (hFront q hq).1, (hFront q hq).2.1⟩
      · intro q hq
        have hqMem := hMem q (by simp [Option.mem_def.mp hq])
        exact ⟨hWF.regions q hqMem, (hBack q hq).2⟩
    have hMidWF : ∀ r ∈ mid, r.WellFormed ∧ p.start ≤ r.start ∧ r.stop ≤ p.stop := by
      intro r hr
      exact ⟨hWF.regions r (hMem r (by simp [hr])), hMid r hr⟩
    obtain ⟨kept, keptBack, w, hLoop, hPending⟩ := foldlM_parts hp hN
      (fun r hr => (hFront r hr).2.2) hMidWF (fun r hr => (hBack r hr).1) hWF.ordered hSplit
    have hBackSafe : ∀ r ∈ back, p.Safe r := by
      intro r hr
      exact hSafe r (hMem r (by simp [Option.mem_def.mp hr]))
    have hStarts : ∀ m ∈ w.mergeBack, p.start ≤ m.start := by
      intro m hm
      exact (hBack m (hPending.kept_back.same_kind m hm).1).1
    obtain ⟨written, hOutcome, hRegions, hBuf⟩ := hPending.finish hp hN hBackSafe hStarts
    have hReplaces := replaces_parts hLe (fun r hr => (hFront r hr).2.2) hMid
      (fun r hr => (hBack r hr).1) hOutcome
    rw [hLoop]
    exact ⟨w.finish p, rfl, hBuf, before, _, after, front, back, kept, written, keptBack,
      hSplit, by simp [hRegions], hRange.before_lt, hRange.after_gt,
      fun r hr => by simp [Option.mem_def.mp hr], fun r hr => by simp [Option.mem_def.mp hr],
      hOutcome, hReplaces⟩

/-- A call of `write_region` on regions that it handles rightly changes the bytes of its
interval and no others. -/
theorem writeRegion_spec (hWF : d.WellFormed) (hp : p.WellFormed)
    (hSafe : ∀ r ∈ d.regions, p.Safe r) :
    ∃ d', d.writeRegion p = .ok d' ∧ d'.WellFormed ∧ d'.buf = d.buf ∧
      ∀ x, d'.byteAt x =
        if p.start ≤ x ∧ x < p.stop then p.byteAt x
        else d.byteAt x := by
  obtain ⟨d', hWrite, hBuf, before, old, after, front, back, kept, written, keptBack, hRew⟩ :=
    writeRegion_rewritten hWF hp hSafe
  obtain ⟨hWF', hByte⟩ :=
    hRew.replaces.apply hWF hRew.old_eq hRew.new_eq hRew.before_lt hRew.after_gt
  exact ⟨d', hWrite, hWF', hBuf, hByte⟩

end

end Explode.Driver
