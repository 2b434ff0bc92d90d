import Explode.Driver.Regions

/-!
# Writing a region

A call of `write_region` replaces the regions that overlap or touch the written
interval. What is left of a region of another kind stays as a region of its
own, and what is left of a region of the same kind becomes a part of the
written one.
-/

namespace Explode.Driver

open IntervalMap

section
variable [Hashes]

def Piece.byteAt (p : Piece) (x : Nat) : UInt8 :=
  match p.type with
  | .zero => 0
  | .data => if p.magic = 0 then p.buf.getD (x - p.start) 0 else magicByte p.magic x

structure Piece.WellFormed (p : Piece) : Prop where
  start_aligned : p.start % 4 = 0
  stop_aligned : p.stop % 4 = 0
  start_le : p.start ≤ p.stop
  stop_le : p.stop ≤ offMax
  nonempty : p.type = .data → p.start < p.stop
  regular : p.type = .data → p.magic = 0 → p.stop - p.start ≤ p.buf.length
  nonzero : p.type = .data → ∀ x, x % 4 = 0 → p.start ≤ x → x < p.stop →
    ∃ i < 4, p.byteAt (x + i) ≠ 0

/-- A region around a write is split at the right place only if it holds no bytes of its own or
starts the file, and one merged at the end is copied in full only if it does not overlap. -/
def Piece.Safe (p : Piece) (dr : DataRegion) : Prop :=
  (dr.start < p.start → p.stop < dr.stop → p.OtherKind dr → dr.magic = 0 → dr.start = 0) ∧
    (p.start ≤ dr.start → dr.start < p.stop → p.stop < dr.stop → p.magic = 0 → p.OtherKind dr)

instance (p : Piece) (dr : DataRegion) : Decidable (p.Safe dr) :=
  inferInstanceAs (Decidable (_ ∧ _))

structure Clip (r : DataRegion) (a b : Nat) (r' : DataRegion) : Prop where
  start_eq : r'.start = a
  stop_eq : r'.stop = b
  magic_eq : r'.magic = r.magic
  wellFormed : r'.WellFormed
  byteAt_eq : ∀ x, a ≤ x → x < b → r'.byteAt x = r.byteAt x

inductive KeptFront (p : Piece) :
    Option DataRegion → List DataRegion → Option DataRegion → Prop
  | absent : KeptFront p none [] none
  | clipped {r r' : DataRegion} (hOther : p.OtherKind r)
      (hClip : Clip r r.start p.start r') : KeptFront p (some r) [r'] none
  | merged {r : DataRegion} (hSame : ¬p.OtherKind r) : KeptFront p (some r) [] (some r)

inductive KeptBack (p : Piece) :
    Option DataRegion → List DataRegion → Option DataRegion → Prop
  | absent : KeptBack p none [] none
  | clipped {r r' : DataRegion} (hOther : p.OtherKind r)
      (hClip : Clip r p.stop r.stop r') : KeptBack p (some r) [r'] none
  | merged {r : DataRegion} (hSame : ¬p.OtherKind r) : KeptBack p (some r) [] (some r)

inductive Written (p : Piece) (mf mb : Option DataRegion) : List DataRegion → Prop
  | zero (hType : p.type = .zero) : Written p mf mb []
  | region {w : DataRegion} (hType : p.type = .data) (hWF : w.WellFormed)
      (hStart : w.start = mf.elim p.start DataRegion.start)
      (hStop : w.stop = mb.elim p.stop DataRegion.stop) (hMagic : w.magic = p.magic)
      (hWithin : ∀ x, p.start ≤ x → x < p.stop →
        w.byteAt x = p.byteAt x)
      (hFront : ∀ m ∈ mf, ∀ x, m.start ≤ x → x < p.start → w.byteAt x = m.byteAt x)
      (hBack : ∀ m ∈ mb, ∀ x, p.stop ≤ x → x < m.stop →
        w.byteAt x = m.byteAt x) : Written p mf mb [w]

structure Replaces (p : Piece) (old new : List DataRegion) : Prop where
  ordered : Ordered new
  wellFormed : ∀ r ∈ new, r.WellFormed
  lower : ∀ r ∈ new, p.start ≤ r.start ∨ ∃ q ∈ old, q.start ≤ r.start
  upper : ∀ r ∈ new, r.stop ≤ p.stop ∨ ∃ q ∈ old, r.stop ≤ q.stop
  outside : ∀ x, ¬(p.start ≤ x ∧ x < p.stop) → regionValue new x = regionValue old x
  within : ∀ x, p.start ≤ x → x < p.stop → (regionValue new x).getD 0 = p.byteAt x

end

section
variable [Hashes] {p : Piece}

theorem Replaces.apply {d d' : Data} {before old new after : List DataRegion}
    (hRep : Replaces p old new) (hWF : d.WellFormed)
    (hOld : d.regions = before ++ old ++ after) (hNew : d'.regions = before ++ new ++ after)
    (hBefore : ∀ r ∈ before, r.stop < p.start) (hAfter : ∀ r ∈ after, p.stop < r.start) :
    d'.WellFormed ∧ ∀ x, d'.byteAt x =
      if p.start ≤ x ∧ x < p.stop then p.byteAt x
      else d.byteAt x := by
  obtain ⟨hOrdLeft, hOrdAfter, hAcross⟩ := ordered_append.mp (hOld ▸ hWF.ordered)
  obtain ⟨hOrdBefore, hOrdOld, hBeforeOld⟩ := ordered_append.mp hOrdLeft
  have hBeforeNew : ∀ q ∈ before, ∀ r ∈ new, q.stop ≤ r.start := by
    intro q hq r hr
    rcases hRep.lower r hr with hLow | ⟨o, ho, hLow⟩
    · have := hBefore q hq
      omega
    · exact Nat.le_trans (hBeforeOld q hq o ho) hLow
  have hNewAfter : ∀ r ∈ new, ∀ q ∈ after, r.stop ≤ q.start := by
    intro r hr q hq
    rcases hRep.upper r hr with hUp | ⟨o, ho, hUp⟩
    · have := hAfter q hq
      omega
    · exact Nat.le_trans hUp (hAcross o (List.mem_append_right before ho) q hq)
  refine ⟨⟨?_, ?_⟩, ?_⟩
  · rw [hNew]
    refine ordered_append.mpr ⟨ordered_append.mpr ⟨hOrdBefore, hRep.ordered, hBeforeNew⟩,
      hOrdAfter, ?_⟩
    intro r hr q hq
    rcases List.mem_append.mp hr with hr | hr
    · exact hAcross r (List.mem_append_left old hr) q hq
    · exact hNewAfter r hr q hq
  · intro r hr
    rw [hNew] at hr
    rcases List.mem_append.mp hr with hr | hr
    · rcases List.mem_append.mp hr with hr | hr
      · exact hWF.regions r (by rw [hOld]; simp [hr])
      · exact hRep.wellFormed r hr
    · exact hWF.regions r (by rw [hOld]; simp [hr])
  · intro x
    rw [Data.byteAt, Data.byteAt, hNew, hOld]
    simp only [regionValue_append]
    split
    case isTrue hIn =>
      have hNoBefore : regionValue before x = none := by
        apply regionValue_eq_none
        intro r hr _
        have := hBefore r hr
        omega
      have hNoAfter : regionValue after x = none := by
        apply regionValue_eq_none
        intro r hr _
        have := hAfter r hr
        omega
      rw [hNoBefore, hNoAfter, Option.none_or, Option.or_none]
      exact hRep.within x hIn.1 hIn.2
    case isFalse hOut => rw [hRep.outside x hOut]

section
variable {front back mf mb : Option DataRegion} {kept keptBack written : List DataRegion}

theorem KeptFront.value_or (hKept : KeptFront p front kept mf) (hWritten : Written p mf mb written)
    (hFront : ∀ r ∈ front, r.start < p.start ∧ p.start ≤ r.stop)
    (hStop : ∀ m ∈ mb, p.stop < m.stop) (hLe : p.start ≤ p.stop) {x : Nat} (hx : x < p.start) :
    (regionValue kept x).or (regionValue written x) = regionValue front.toList x := by
  have hBeyond : p.start ≤ mb.elim p.stop DataRegion.stop := by
    cases mb with
    | none => exact hLe
    | some m => exact Nat.le_trans hLe (Nat.le_of_lt (hStop m rfl))
  cases hKept with
  | absent =>
    cases hWritten with
    | zero => rfl
    | region _ _ hStart =>
      simp only [Option.elim_none] at hStart
      simp only [regionValue_nil, Option.none_or, Option.toList_none, regionValue_singleton]
      rw [if_neg (by omega)]
  | @clipped r r' hOther hClip =>
    have hr := hFront r rfl
    have hEmpty : regionValue written x = none := by
      cases hWritten with
      | zero => rfl
      | region _ _ hStart =>
        simp only [Option.elim_none] at hStart
        rw [regionValue_singleton, if_neg (by omega)]
    rw [hEmpty, Option.or_none, Option.toList_some, regionValue_singleton, regionValue_singleton,
      hClip.start_eq, hClip.stop_eq]
    by_cases hIn : r.start ≤ x
    · rw [if_pos ⟨hIn, hx⟩, if_pos ⟨hIn, by omega⟩, hClip.byteAt_eq x hIn hx]
    · rw [if_neg (by omega), if_neg (by omega)]
  | @merged r hSame =>
    have hr := hFront r rfl
    cases hWritten with
    | zero hType => exact absurd (Or.inl hType) hSame
    | region _ _ hStart hStop' _ _ hFrontEq =>
      rw [Option.elim_some] at hStart
      rw [regionValue_nil, Option.none_or, Option.toList_some, regionValue_singleton,
        regionValue_singleton, hStart]
      by_cases hIn : r.start ≤ x
      · rw [if_pos ⟨hIn, by omega⟩, if_pos ⟨hIn, by omega⟩, hFrontEq r rfl x hIn hx]
      · rw [if_neg (by omega), if_neg (by omega)]

theorem KeptBack.value_or (hKept : KeptBack p back kept mb) (hWritten : Written p mf mb written)
    (hBack : ∀ r ∈ back, r.start ≤ p.stop ∧ p.stop < r.stop)
    (hStart : ∀ m ∈ mf, m.start < p.start) (hLe : p.start ≤ p.stop) {x : Nat} (hx : p.stop ≤ x) :
    (regionValue written x).or (regionValue kept x) = regionValue back.toList x := by
  have hBeyond : mf.elim p.start DataRegion.start ≤ p.stop := by
    cases mf with
    | none => exact hLe
    | some m => exact Nat.le_trans (Nat.le_of_lt (hStart m rfl)) hLe
  cases hKept with
  | absent =>
    cases hWritten with
    | zero => rfl
    | region _ _ _ hStop =>
      simp only [Option.elim_none] at hStop
      rw [regionValue_nil, Option.or_none, Option.toList_none, regionValue_nil,
        regionValue_singleton, if_neg (by omega)]
  | @clipped r r' hOther hClip =>
    have hr := hBack r rfl
    have hEmpty : regionValue written x = none := by
      cases hWritten with
      | zero => rfl
      | region _ _ _ hStop =>
        simp only [Option.elim_none] at hStop
        rw [regionValue_singleton, if_neg (by omega)]
    rw [hEmpty, Option.none_or, Option.toList_some, regionValue_singleton, regionValue_singleton,
      hClip.start_eq, hClip.stop_eq]
    by_cases hIn : x < r.stop
    · rw [if_pos ⟨hx, hIn⟩, if_pos ⟨by omega, hIn⟩, hClip.byteAt_eq x hx hIn]
    · rw [if_neg (by omega), if_neg (by omega)]
  | @merged r hSame =>
    have hr := hBack r rfl
    cases hWritten with
    | zero hType => exact absurd (Or.inl hType) hSame
    | region _ _ hStart' hStop _ _ _ hBackEq =>
      rw [Option.elim_some] at hStop
      rw [regionValue_nil, Option.or_none, Option.toList_some, regionValue_singleton,
        regionValue_singleton, hStop]
      by_cases hIn : x < r.stop
      · rw [if_pos ⟨by omega, hIn⟩, if_pos ⟨by omega, hIn⟩, hBackEq r rfl x hx hIn]
      · rw [if_neg (by omega), if_neg (by omega)]

theorem KeptFront.bounds (hKept : KeptFront p front kept mf) :
    ∀ r ∈ kept, r.WellFormed ∧ r.stop = p.start ∧ (∃ q ∈ front, r.start = q.start) ∧ mf = none := by
  cases hKept with
  | absent => simp
  | @clipped q q' hOther hClip =>
    intro r hr
    cases List.mem_singleton.mp hr
    exact ⟨hClip.wellFormed, hClip.stop_eq, ⟨q, rfl, hClip.start_eq⟩, rfl⟩
  | merged => simp

theorem KeptBack.bounds (hKept : KeptBack p back kept mb) :
    ∀ r ∈ kept, r.WellFormed ∧ r.start = p.stop ∧ (∃ q ∈ back, r.stop = q.stop) ∧ mb = none := by
  cases hKept with
  | absent => simp
  | @clipped q q' hOther hClip =>
    intro r hr
    cases List.mem_singleton.mp hr
    exact ⟨hClip.wellFormed, hClip.start_eq, ⟨q, rfl, hClip.stop_eq⟩, rfl⟩
  | merged => simp

theorem KeptFront.ordered (hKept : KeptFront p front kept mf) : Ordered kept := by
  cases hKept with
  | absent => exact ordered_nil
  | clipped _ hClip => exact ordered_singleton hClip.wellFormed.nonempty
  | merged => exact ordered_nil

theorem KeptBack.ordered (hKept : KeptBack p back kept mb) : Ordered kept := by
  cases hKept with
  | absent => exact ordered_nil
  | clipped _ hClip => exact ordered_singleton hClip.wellFormed.nonempty
  | merged => exact ordered_nil

theorem KeptFront.merged_eq (hKept : KeptFront p front kept mf) : mf = none ∨ mf = front := by
  cases hKept with
  | absent => exact Or.inl rfl
  | clipped => exact Or.inl rfl
  | merged => exact Or.inr rfl

theorem KeptBack.merged_eq (hKept : KeptBack p back kept mb) : mb = none ∨ mb = back := by
  cases hKept with
  | absent => exact Or.inl rfl
  | clipped => exact Or.inl rfl
  | merged => exact Or.inr rfl

structure Outcome [Hashes] (p : Piece) (front back : Option DataRegion)
    (kept written keptBack : List DataRegion) : Prop where
  parts : ∃ mf mb, KeptFront p front kept mf ∧ KeptBack p back keptBack mb ∧ Written p mf mb written
  front_lt : ∀ r ∈ front, r.start < p.start ∧ p.start ≤ r.stop
  back_gt : ∀ r ∈ back, r.start ≤ p.stop ∧ p.stop < r.stop

theorem Outcome.replaces {old : List DataRegion} (h : Outcome p front back kept written keptBack)
    (hLe : p.start ≤ p.stop) (hFrontMem : ∀ r ∈ front, r ∈ old) (hBackMem : ∀ r ∈ back, r ∈ old)
    (hOldFront : ∀ x < p.start, regionValue old x = regionValue front.toList x)
    (hOldBack : ∀ x, p.stop ≤ x → regionValue old x = regionValue back.toList x) :
    Replaces p old (kept ++ written ++ keptBack) := by
  obtain ⟨⟨mf, mb, hFront, hBack, hWritten⟩, hFrontLt, hBackGt⟩ := h
  have hmf : ∀ m ∈ mf, m ∈ front ∧ m.start < p.start := by
    intro m hm
    rcases hFront.merged_eq with hNone | hEq
    · simp [hNone] at hm
    · rw [hEq] at hm
      exact ⟨hm, (hFrontLt m hm).1⟩
  have hmb : ∀ m ∈ mb, m ∈ back ∧ p.stop < m.stop := by
    intro m hm
    rcases hBack.merged_eq with hNone | hEq
    · simp [hNone] at hm
    · rw [hEq] at hm
      exact ⟨hm, (hBackGt m hm).2⟩
  have hWrittenBounds : ∀ w ∈ written, w.WellFormed ∧
      w.start = mf.elim p.start DataRegion.start ∧ w.stop = mb.elim p.stop DataRegion.stop := by
    cases hWritten with
    | zero => simp
    | region _ hWF hStart hStop =>
      intro w hw
      cases List.mem_singleton.mp hw
      exact ⟨hWF, hStart, hStop⟩
  have hStartLe : mf.elim p.start DataRegion.start ≤ p.start := by
    cases mf with
    | none => exact Nat.le_refl _
    | some m => exact Nat.le_of_lt (hmf m rfl).2
  have hStopGe : p.stop ≤ mb.elim p.stop DataRegion.stop := by
    cases mb with
    | none => exact Nat.le_refl _
    | some m => exact Nat.le_of_lt (hmb m rfl).2
  have hKeptWritten : ∀ r ∈ kept, ∀ w ∈ written, r.stop ≤ w.start := by
    intro r hr w hw
    obtain ⟨_, hStop, _, hNone⟩ := hFront.bounds r hr
    have := (hWrittenBounds w hw).2.1
    simp only [hNone, Option.elim_none] at this
    omega
  have hWrittenKept : ∀ w ∈ written, ∀ r ∈ keptBack, w.stop ≤ r.start := by
    intro w hw r hr
    obtain ⟨_, hStart, _, hNone⟩ := hBack.bounds r hr
    have := (hWrittenBounds w hw).2.2
    simp only [hNone, Option.elim_none] at this
    omega
  have hWrittenOrd : Ordered written := by
    cases hWritten with
    | zero => exact ordered_nil
    | region _ hWF => exact ordered_singleton hWF.nonempty
  constructor
  · -- ordered
    refine ordered_append.mpr ⟨ordered_append.mpr ⟨hFront.ordered, hWrittenOrd, hKeptWritten⟩,
      hBack.ordered, ?_⟩
    intro r hr q hq
    rcases List.mem_append.mp hr with hr | hr
    · have := (hFront.bounds r hr).2.1
      have := (hBack.bounds q hq).2.1
      omega
    · exact hWrittenKept r hr q hq
  · intro r hr
    rcases List.mem_append.mp hr with hr | hr
    · rcases List.mem_append.mp hr with hr | hr
      · exact (hFront.bounds r hr).1
      · exact (hWrittenBounds r hr).1
    · exact (hBack.bounds r hr).1
  · intro r hr
    rcases List.mem_append.mp hr with hr | hr
    · rcases List.mem_append.mp hr with hr | hr
      · obtain ⟨_, _, ⟨q, hq, hStart⟩, _⟩ := hFront.bounds r hr
        exact Or.inr ⟨q, hFrontMem q hq, Nat.le_of_eq hStart.symm⟩
      · have hStart := (hWrittenBounds r hr).2.1
        cases mf with
        | none => exact Or.inl (Nat.le_of_eq hStart.symm)
        | some m => exact Or.inr ⟨m, hFrontMem m (hmf m rfl).1, Nat.le_of_eq hStart.symm⟩
    · have := (hBack.bounds r hr).2.1
      exact Or.inl (by omega)
  · intro r hr
    rcases List.mem_append.mp hr with hr | hr
    · rcases List.mem_append.mp hr with hr | hr
      · have := (hFront.bounds r hr).2.1
        exact Or.inl (by omega)
      · have hStop := (hWrittenBounds r hr).2.2
        cases mb with
        | none => exact Or.inl (Nat.le_of_eq hStop)
        | some m => exact Or.inr ⟨m, hBackMem m (hmb m rfl).1, Nat.le_of_eq hStop⟩
    · obtain ⟨_, _, ⟨q, hq, hStop⟩, _⟩ := hBack.bounds r hr
      exact Or.inr ⟨q, hBackMem q hq, Nat.le_of_eq hStop⟩
  · intro x hOut
    rw [regionValue_append, regionValue_append]
    rcases Nat.lt_or_ge x p.start with hx | hx
    · have hNone : regionValue keptBack x = none := by
        apply regionValue_eq_none
        intro r hr _
        have := (hBack.bounds r hr).2.1
        omega
      rw [hNone, Option.or_none, hOldFront x hx]
      exact hFront.value_or hWritten hFrontLt (fun m hm => (hmb m hm).2) hLe hx
    · have hNone : regionValue kept x = none := by
        apply regionValue_eq_none
        intro r hr _
        have := (hFront.bounds r hr).2.1
        omega
      have hx' : p.stop ≤ x := by omega
      rw [hNone, Option.none_or, hOldBack x hx']
      exact hBack.value_or hWritten hBackGt (fun m hm => (hmf m hm).2) hLe hx'
  · intro x hStart hStop
    have hNoFront : regionValue kept x = none := by
      apply regionValue_eq_none
      intro r hr _
      have := (hFront.bounds r hr).2.1
      omega
    have hNoBack : regionValue keptBack x = none := by
      apply regionValue_eq_none
      intro r hr _
      have := (hBack.bounds r hr).2.1
      omega
    rw [regionValue_append, regionValue_append, hNoFront, hNoBack, Option.none_or, Option.or_none]
    cases hWritten with
    | zero hType => simp [Piece.byteAt, hType]
    | region _ _ hStart' hStop' _ hWithin =>
      rw [regionValue_singleton, if_pos ⟨by omega, by omega⟩, Option.getD_some,
        hWithin x hStart hStop]

end

end

end Explode.Driver
