import Explode.Lib.Runs
import Explode.Driver.ByteArray

/-!
# Regions as runs of words

Every word of a region is of the kind of the region, and regions of one kind do
not touch. Both are kept by each call of `write_region` that handles the regions
it finds rightly, so the regions are the maximal runs of words of one kind.
-/

namespace Explode.Driver

open IntervalMap Loop

section
variable [Hashes]

def wordAt (bytes : Nat → UInt8) (n : Nat) : Word := fun i => bytes (4 * n + i)

def magicAt (bytes : Nat → UInt8) (n : Nat) : Option Nat :=
  match getType (wordAt bytes n) (4 * n) with
  | (.zero, _) => none
  | (.data, magic) => some magic

def KindOn (bytes : Nat → UInt8) (magic a b : Nat) : Prop :=
  ∀ n, a ≤ 4 * n → 4 * n < b → magicAt bytes n = some magic

/-- Each region is a whole run of words of its kind. -/
structure Data.Tight (d : Data) : Prop where
  wellFormed : d.WellFormed
  kinds : ∀ r ∈ d.regions, KindOn r.byteAt r.magic r.start r.stop
  apart : d.regions.Pairwise fun r r' => r.stop = r'.start → r.magic ≠ r'.magic

/-- The region with no more bytes than its interval has. -/
def DataRegion.trim (r : DataRegion) :
    DataRegion := { r with data := r.data.take (r.stop - r.start) }

def Piece.Kinded (p : Piece) : Prop :=
  p.type = .data → KindOn p.byteAt p.magic p.start p.stop

end

section
variable [Hashes] {bytes bytes' : Nat → UInt8} {magic a b a' b' c : Nat}

theorem KindOn.congr (h : KindOn bytes magic a b) (hLow : a ≤ a') (hHigh : b' ≤ b)
    (hAligned : b' % 4 = 0) (hSame : ∀ x, a' ≤ x → x < b' → bytes' x = bytes x) :
    KindOn bytes' magic a' b' := by
  intro n hn hn'
  have hWord : wordAt bytes' n = wordAt bytes n := by
    funext i
    have hi := i.isLt
    exact hSame (4 * n + i) (by omega) (by omega)
  rw [magicAt, hWord]
  exact h n (by omega) (by omega)

theorem KindOn.glue (h : KindOn bytes magic a b)
    (h' : KindOn bytes magic b c) : KindOn bytes magic a c := by
  intro n hn hn'
  rcases Nat.lt_or_ge (4 * n) b with hLt | hGe
  · exact h n hn hLt
  · exact h' n hGe hn'

theorem magicAt_eq_some {n : Nat} : magicAt bytes n = some magic ↔
    getType (wordAt bytes n) (4 * n) = (.data, magic) := by
  rw [magicAt]
  split <;> simp_all

theorem magicAt_eq_none {n : Nat} : magicAt bytes n = none ↔ wordAt bytes n = 0 := by
  rw [magicAt]
  rcases getType_cases (wordAt bytes n) (4 * n) with ⟨hZero, hType⟩ | ⟨hNe, hType, -⟩
  · rw [hType]
    exact iff_of_true rfl hZero
  · split <;> simp_all

end

section
variable [Hashes] {p : Piece} {d d' : Data}
  {before old after kept written keptBack : List DataRegion} {front back mf mb : Option DataRegion}

theorem KeptFront.clip_of_mem (hKept : KeptFront p front kept mf) {r : DataRegion} (hr : r ∈ kept) :
    ∃ q ∈ front, p.OtherKind q ∧ Clip q q.start p.start r ∧ kept = [r] := by
  cases hKept with
  | absent => cases hr
  | @clipped q q' hOther hClip =>
    cases List.mem_singleton.mp hr
    exact ⟨q, rfl, hOther, hClip, rfl⟩
  | merged => cases hr

theorem KeptBack.clip_of_mem (hKept : KeptBack p back keptBack mb) {r : DataRegion}
    (hr : r ∈ keptBack) :
    ∃ q ∈ back, p.OtherKind q ∧ Clip q p.stop q.stop r ∧ keptBack = [r] := by
  cases hKept with
  | absent => cases hr
  | @clipped q q' hOther hClip =>
    cases List.mem_singleton.mp hr
    exact ⟨q, rfl, hOther, hClip, rfl⟩
  | merged => cases hr

theorem Written.of_mem (hWritten : Written p mf mb written) {w : DataRegion} (hw : w ∈ written) :
    p.type = .data ∧ w.magic = p.magic ∧ w.start = mf.elim p.start DataRegion.start ∧
      w.stop = mb.elim p.stop DataRegion.stop ∧ written = [w] := by
  cases hWritten with
  | zero => cases hw
  | region hType _ hStart hStop hMagic =>
    cases List.mem_singleton.mp hw
    exact ⟨hType, hMagic, hStart, hStop, rfl⟩

theorem Written.bytes_of_mem (hWritten : Written p mf mb written) {w : DataRegion}
    (hw : w ∈ written) : (∀ x, p.start ≤ x → x < p.stop → w.byteAt x = p.byteAt x) ∧
      (∀ m ∈ mf, ∀ x, m.start ≤ x → x < p.start → w.byteAt x = m.byteAt x) ∧
      ∀ m ∈ mb, ∀ x, p.stop ≤ x → x < m.stop → w.byteAt x = m.byteAt x := by
  cases hWritten with
  | zero => cases hw
  | region _ _ _ _ _ hWithin hFront hBack =>
    cases List.mem_singleton.mp hw
    exact ⟨hWithin, hFront, hBack⟩

omit [Hashes] in
theorem pairwise_of_forall_singleton {l : List DataRegion} {R : DataRegion → DataRegion → Prop}
    (h : ∀ r ∈ l, l = [r]) : l.Pairwise R := by
  cases l with
  | nil => exact .nil
  | cons r rest =>
    rw [h r List.mem_cons_self]
    exact List.pairwise_singleton _ _

theorem Rewritten.apart (hRew : Rewritten p d d' before old after front back kept written keptBack)
    (hApart : d.regions.Pairwise fun r r' => r.stop = r'.start → r.magic ≠ r'.magic)
    (hRoom : ∀ r ∈ back, p.start < p.stop) (hLe : p.start ≤ p.stop) :
    d'.regions.Pairwise fun r r' => r.stop = r'.start → r.magic ≠ r'.magic := by
  obtain ⟨⟨mf, mb, hFront, hBack, hWritten⟩, -, -⟩ := hRew.outcome
  rw [hRew.old_eq] at hApart
  obtain ⟨hLeft, hAfter, hOldAfter⟩ := List.pairwise_append.mp hApart
  obtain ⟨hBefore, -, hBeforeOld⟩ := List.pairwise_append.mp hLeft
  have hBeforeFront : ∀ b ∈ before, ∀ q ∈ front, b.stop = q.start → b.magic ≠ q.magic :=
    fun b hb q hq => hBeforeOld b hb q (hRew.front_mem q hq)
  have hBackAfter : ∀ q ∈ back, ∀ a ∈ after, q.stop = a.start → q.magic ≠ a.magic :=
    fun q hq a ha => hOldAfter q (List.mem_append_right _ (hRew.back_mem q hq)) a ha
  -- what is kept before the interval and what is kept after it are of another kind
  have hKeptWritten : ∀ r ∈ kept, ∀ w ∈ written, r.stop = w.start → r.magic ≠ w.magic := by
    intro r hr w hw _
    obtain ⟨q, -, hOther, hClip, -⟩ := hFront.clip_of_mem hr
    obtain ⟨hType, hMagic, -⟩ := hWritten.of_mem hw
    rw [hClip.magic_eq, hMagic]
    exact hOther.resolve_left (by simp [hType])
  have hWrittenKept : ∀ w ∈ written, ∀ r ∈ keptBack, w.stop = r.start → w.magic ≠ r.magic := by
    intro w hw r hr _
    obtain ⟨q, -, hOther, hClip, -⟩ := hBack.clip_of_mem hr
    obtain ⟨hType, hMagic, -⟩ := hWritten.of_mem hw
    rw [hClip.magic_eq, hMagic]
    exact (hOther.resolve_left (by simp [hType])).symm
  have hKeptKept : ∀ r ∈ kept, ∀ r' ∈ keptBack, r.stop = r'.start → r.magic ≠ r'.magic := by
    intro r hr r' hr' hTouch
    obtain ⟨_, -, -, hClip, -⟩ := hFront.clip_of_mem hr
    obtain ⟨q, hq, -, hClip', -⟩ := hBack.clip_of_mem hr'
    have := hRoom q hq
    rw [hClip.stop_eq, hClip'.start_eq] at hTouch
    omega
  have hNew : (kept ++ written ++ keptBack).Pairwise
      fun r r' => r.stop = r'.start → r.magic ≠ r'.magic := by
    refine List.pairwise_append.mpr ⟨List.pairwise_append.mpr ⟨?_, ?_, hKeptWritten⟩, ?_, ?_⟩
    · apply pairwise_of_forall_singleton
      intro r hr
      obtain ⟨-, -, -, -, hEq⟩ := hFront.clip_of_mem hr
      exact hEq
    · apply pairwise_of_forall_singleton
      intro w hw
      obtain ⟨-, -, -, -, hEq⟩ := hWritten.of_mem hw
      exact hEq
    · apply pairwise_of_forall_singleton
      intro r hr
      obtain ⟨-, -, -, -, hEq⟩ := hBack.clip_of_mem hr
      exact hEq
    · intro r hr r' hr'
      rcases List.mem_append.mp hr with hr | hr
      · exact hKeptKept r hr r' hr'
      · exact hWrittenKept r hr r' hr'
  have hBeforeNew : ∀ b ∈ before, ∀ r ∈ kept ++ written ++ keptBack,
      b.stop = r.start → b.magic ≠ r.magic := by
    intro b hb r hr hTouch
    have hBelow := hRew.before_lt b hb
    rcases List.mem_append.mp hr with hr | hr
    · rcases List.mem_append.mp hr with hr | hr
      · obtain ⟨q, hq, -, hClip, -⟩ := hFront.clip_of_mem hr
        rw [hClip.magic_eq]
        exact hBeforeFront b hb q hq (hTouch.trans hClip.start_eq)
      · obtain ⟨-, hMagic, hStart, -⟩ := hWritten.of_mem hr
        cases mf with
        | none =>
          rw [Option.elim_none] at hStart
          omega
        | some m =>
          obtain ⟨hm, hSame⟩ := hFront.same_kind m rfl
          rw [hMagic, ← hSame]
          exact hBeforeFront b hb m hm (hTouch.trans hStart)
    · obtain ⟨q, -, -, hClip, -⟩ := hBack.clip_of_mem hr
      rw [hClip.start_eq] at hTouch
      omega
  have hNewAfter : ∀ r ∈ kept ++ written ++ keptBack, ∀ a ∈ after,
      r.stop = a.start → r.magic ≠ a.magic := by
    intro r hr a ha hTouch
    have hAbove := hRew.after_gt a ha
    rcases List.mem_append.mp hr with hr | hr
    · rcases List.mem_append.mp hr with hr | hr
      · obtain ⟨q, -, -, hClip, -⟩ := hFront.clip_of_mem hr
        rw [hClip.stop_eq] at hTouch
        omega
      · obtain ⟨-, hMagic, -, hStop, -⟩ := hWritten.of_mem hr
        cases mb with
        | none =>
          rw [Option.elim_none] at hStop
          omega
        | some m =>
          obtain ⟨hm, hSame, -⟩ := hBack.same_kind m rfl
          rw [hMagic, ← hSame]
          exact hBackAfter m hm a ha (hStop.symm.trans hTouch)
    · obtain ⟨q, hq, -, hClip, -⟩ := hBack.clip_of_mem hr
      rw [hClip.magic_eq]
      exact hBackAfter q hq a ha (hClip.stop_eq.symm.trans hTouch)
  rw [hRew.new_eq]
  refine List.pairwise_append.mpr ⟨List.pairwise_append.mpr ⟨hBefore, hNew, hBeforeNew⟩, hAfter, ?_⟩
  intro r hr a ha
  rcases List.mem_append.mp hr with hr | hr
  · exact hOldAfter r (List.mem_append_left _ hr) a ha
  · exact hNewAfter r hr a ha

theorem Rewritten.magic_cases
    (hRew : Rewritten p d d' before old after front back kept written keptBack) {r : DataRegion}
    (hr : r ∈ d'.regions) :
    p.type = .data ∧ r.magic = p.magic ∨ ∃ q ∈ d.regions, r.magic = q.magic := by
  obtain ⟨⟨mf, mb, hFront, hBack, hWritten⟩, -, -⟩ := hRew.outcome
  rw [hRew.new_eq] at hr
  rw [hRew.old_eq]
  simp only [List.mem_append] at hr
  rcases hr with (hr | (hr | hr) | hr) | hr
  · exact .inr ⟨r, by simp [hr], rfl⟩
  · obtain ⟨q, hq, -, hClip, -⟩ := hFront.clip_of_mem hr
    exact .inr ⟨q, by simp [hRew.front_mem q hq], hClip.magic_eq⟩
  · obtain ⟨hType, hMagic, -⟩ := hWritten.of_mem hr
    exact .inl ⟨hType, hMagic⟩
  · obtain ⟨q, hq, -, hClip, -⟩ := hBack.clip_of_mem hr
    exact .inr ⟨q, by simp [hRew.back_mem q hq], hClip.magic_eq⟩
  · exact .inr ⟨r, by simp [hr], rfl⟩

theorem Rewritten.kinds (hRew : Rewritten p d d' before old after front back kept written keptBack)
    (hTight : d.Tight) (hp : p.WellFormed) (hKinded : p.Kinded) :
    ∀ r ∈ d'.regions, KindOn r.byteAt r.magic r.start r.stop := by
  obtain ⟨⟨mf, mb, hFront, hBack, hWritten⟩, hFrontLt, hBackGt⟩ := hRew.outcome
  have hOld : ∀ r ∈ before ++ old ++ after, KindOn r.byteAt r.magic
      r.start r.stop ∧ r.stop % 4 = 0 := by
    rw [← hRew.old_eq]
    exact fun r hr => ⟨hTight.kinds r hr, (hTight.wellFormed.regions r hr).stop_aligned⟩
  have hFrontOld : ∀ q ∈ front, q ∈ before ++ old ++ after :=
    fun q hq => by simp [hRew.front_mem q hq]
  have hBackOld : ∀ q ∈ back, q ∈ before ++ old ++ after :=
    fun q hq => by simp [hRew.back_mem q hq]
  intro r hr
  rw [hRew.new_eq] at hr
  simp only [List.mem_append] at hr
  rcases hr with (hr | (hr | hr) | hr) | hr
  · exact (hOld r (by simp [hr])).1
  · obtain ⟨q, hq, -, hClip, -⟩ := hFront.clip_of_mem hr
    rw [hClip.magic_eq, hClip.start_eq, hClip.stop_eq]
    exact (hOld q (hFrontOld q hq)).1.congr (Nat.le_refl _) (hFrontLt q hq).2 hp.start_aligned
      hClip.byteAt_eq
  · obtain ⟨hType, hMagic, hStart, hStop, -⟩ := hWritten.of_mem hr
    obtain ⟨hWithin, hBytesFront, hBytesBack⟩ := hWritten.bytes_of_mem hr
    rw [hMagic]
    -- the part of the region before the interval, the interval and the part after it
    have hMid : KindOn r.byteAt p.magic p.start p.stop :=
      (hKinded hType).congr (Nat.le_refl _) (Nat.le_refl _) hp.stop_aligned hWithin
    have hLeft : KindOn r.byteAt p.magic r.start p.start := by
      cases mf with
      | none =>
        intro n hLow hHigh
        rw [hStart] at hLow
        exact absurd hHigh (Nat.not_lt.mpr hLow)
      | some m =>
        obtain ⟨hm, hSame⟩ := hFront.same_kind m rfl
        rw [hStart, ← hSame]
        exact (hOld m (hFrontOld m hm)).1.congr (Nat.le_refl _) (hFrontLt m hm).2 hp.start_aligned
          (hBytesFront m rfl)
    have hRight : KindOn r.byteAt p.magic p.stop r.stop := by
      cases mb with
      | none =>
        intro n hLow hHigh
        rw [hStop] at hHigh
        exact absurd hHigh (Nat.not_lt.mpr hLow)
      | some m =>
        obtain ⟨hm, hSame, -⟩ := hBack.same_kind m rfl
        rw [hStop, ← hSame]
        exact (hOld m (hBackOld m hm)).1.congr (hBackGt m hm).1 (Nat.le_refl _)
          (hOld m (hBackOld m hm)).2 (hBytesBack m rfl)
    exact (hLeft.glue hMid).glue hRight
  · obtain ⟨q, hq, -, hClip, -⟩ := hBack.clip_of_mem hr
    rw [hClip.magic_eq, hClip.start_eq, hClip.stop_eq]
    exact (hOld q (hBackOld q hq)).1.congr (hBackGt q hq).1 (Nat.le_refl _)
      (hOld q (hBackOld q hq)).2 hClip.byteAt_eq
  · exact (hOld r (by simp [hr])).1

theorem Data.Tight.writeRegion (hTight : d.Tight) (hp : p.WellFormed) (hKinded : p.Kinded)
    (hRoom : p.start < p.stop ∨ p.stop = offMax) (hSafe : ∀ r ∈ d.regions, p.Safe r) :
    ∃ d', d.writeRegion p = .ok d' ∧ d'.Tight ∧ ∀ r ∈ d'.regions,
      p.type = .data ∧ r.magic = p.magic ∨ ∃ q ∈ d.regions, r.magic = q.magic := by
  obtain ⟨d', hWrite, -, before, old, after, front, back, kept, written, keptBack, hRew⟩ :=
    writeRegion_rewritten hTight.wellFormed hp hSafe
  obtain ⟨hWF, -⟩ := hRew.replaces.apply hTight.wellFormed hRew.old_eq hRew.new_eq hRew.before_lt
    hRew.after_gt
  refine ⟨d', hWrite, ⟨hWF, hRew.kinds hTight hp hKinded, hRew.apart hTight.apart ?_ hp.start_le⟩,
    fun r hr => hRew.magic_cases hr⟩
  intro q hq
  rcases hRoom with hLt | hMax
  · exact hLt
  · have hBeyond := (hRew.outcome.back_gt q hq).2
    have hMem : q ∈ d.regions := by
      rw [hRew.old_eq]
      simp [hRew.back_mem q hq]
    have := (hTight.wellFormed.regions q hMem).stop_le
    omega

theorem pieces_kinded (buf : Bytes) {bufStart bufEnd : Nat} (hBufStart : bufStart % 4 = 0)
    (hEnd : bufEnd = bufStart + buf.length) (hBufEnd : bufEnd % 4 = 0) (hMax : bufEnd ≤ offMax)
    (n start : Nat) (hStart : start % 4 = 0) (hLow : bufStart ≤ start) (hHigh : start ≤ bufEnd) :
    ∀ p ∈ pieces buf bufStart bufEnd n start, p.WellFormed ∧ p.Kinded ∧ p.start < p.stop ∧
      bufStart ≤ p.start ∧ p.stop ≤ bufEnd ∧
      SameKind buf bufStart (p.type, p.magic) p.start p.stop := by
  induction n generalizing start with
  | zero => simp [pieces]
  | succ n ih =>
    rw [pieces]
    rcases Nat.eq_or_lt_of_le hHigh with hDone | hMore
    · rw [nextRegion, if_pos hDone]
      simp
    · obtain ⟨p, hNext, hpStart, hLt, hLe, hp, hBytes, hKind⟩ :=
        nextRegion_spec hBufStart hEnd hBufEnd hMax hStart hLow hMore
      rw [hNext]
      refine List.forall_mem_cons.mpr ⟨⟨hp, ?_, by omega, by omega, hLe, hKind⟩, ?_⟩
      · intro hType m hm hm'
        have hStop := hp.stop_aligned
        have hWord : wordAt p.byteAt m = getSig buf (4 * m - bufStart) := by
          funext i
          have hi := i.isLt
          have hIndex : 4 * m + i - bufStart = 4 * m - bufStart + i := by omega
          rw [wordAt, hBytes _ (by omega) (by omega), getSig, hIndex]
        rw [magicAt_eq_some, hWord, hKind (4 * m) (by omega) hm hm', hType]
      · exact ih p.stop hp.stop_aligned (by omega) hLe

theorem Data.Tight.runs (hTight : d.Tight) :
    Decomposes (fun r => r.start / 4) (fun r => r.stop / 4) DataRegion.magic
      (magicAt d.byteAt) d.regions := by
  have hAligned : ∀ r ∈ d.regions, r.start % 4 = 0 ∧ r.stop % 4 = 0 ∧ r.start < r.stop :=
    fun r hr => ⟨(hTight.wellFormed.regions r hr).start_aligned,
      (hTight.wellFormed.regions r hr).stop_aligned, (hTight.wellFormed.regions r hr).nonempty⟩
  apply decomposes_of_apart
  · constructor
    · intro r hr
      have := hAligned r hr
      omega
    · exact hTight.wellFormed.ordered.apart.imp fun hLe => Nat.div_le_div_right hLe
  · intro r hr n hLow hHigh
    have hEnds := hAligned r hr
    have hSame : KindOn d.byteAt r.magic r.start r.stop :=
      (hTight.kinds r hr).congr (Nat.le_refl _) (Nat.le_refl _) hEnds.2.1 fun x hx hx' =>
        byteAt_of_mem hTight.wellFormed hr hx hx'
    exact hSame n (by omega) (by omega)
  · apply hTight.apart.imp_of_mem
    intro r r' hr hr' hApart hTouch
    have := hAligned r hr
    have := hAligned r' hr'
    exact hApart (by omega)
  · intro n hn
    obtain ⟨i, hi⟩ := Function.ne_iff.mp (fun hZero => hn (magicAt_eq_none.mpr hZero))
    obtain ⟨r, hr, hLow, hHigh⟩ := exists_region hi
    have := hAligned r hr
    have := i.isLt
    exact ⟨r, hr, by omega, by omega⟩

theorem Data.Tight.trim_eq (hTight : d.Tight) (hTight' : d'.Tight) (hBytes : d.byteAt = d'.byteAt) :
    d.regions.map DataRegion.trim = d'.regions.map DataRegion.trim := by
  have hTrim : ∀ {d : Data}, d.Tight →
      Decomposes (fun r => r.start / 4) (fun r => r.stop / 4) DataRegion.magic
        (magicAt d.byteAt) (d.regions.map DataRegion.trim) :=
    fun h => Decomposes.map h.runs
  refine (hTrim hTight).eq (hBytes ▸ hTrim hTight') ?_
  simp only [List.forall_mem_map]
  intro r hr r' hr' hStart hStop hMagic
  have hForm := hTight.wellFormed.regions r hr
  have hForm' := hTight'.wellFormed.regions r' hr'
  have hEnds := And.intro hForm.start_aligned hForm.stop_aligned
  have hEnds' := And.intro hForm'.start_aligned hForm'.stop_aligned
  have hByte : ∀ x, r.start ≤ x → x < r.stop → r.byteAt x = r'.byteAt x := by
    intro x hLow hHigh
    rw [← byteAt_of_mem hTight.wellFormed hr hLow hHigh, hBytes]
    dsimp only [DataRegion.trim] at hStart hStop
    exact byteAt_of_mem hTight'.wellFormed hr' (by omega) (by omega)
  obtain ⟨start, stop, magic, data⟩ := r
  obtain ⟨start', stop', magic', data'⟩ := r'
  dsimp only [DataRegion.trim] at hStart hStop hMagic hEnds hEnds' hByte ⊢
  obtain rfl : start' = start := by omega
  obtain rfl : stop' = stop := by omega
  obtain rfl : magic' = magic := hMagic
  by_cases hZero : magic' = 0
  · have hRoom := hForm.regular hZero
    have hRoom' := hForm'.regular hZero
    dsimp only at hRoom hRoom'
    congr 1
    refine List.ext_getElem (by simp; omega) fun i hi hi' => ?_
    have hIn := hByte (start' + i) (by omega) (by rw [List.length_take] at hi; omega)
    rw [List.length_take] at hi hi'
    simp only [DataRegion.byteAt, hZero, if_pos, Nat.add_sub_cancel_left,
      List.getD_eq_getElem?_getD, List.getElem?_eq_getElem (show i < data.length by omega),
      List.getElem?_eq_getElem (show i < data'.length by omega), Option.getD_some] at hIn
    rwa [List.getElem_take, List.getElem_take]
  · obtain rfl : data = [] := hForm.no_data hZero
    obtain rfl : data' = [] := hForm'.no_data hZero
    rfl

theorem tight_empty (buf : Bool) (junk : Nat → Nat → UInt8) : (Data.empty buf junk).Tight :=
  ⟨wellFormed_empty buf junk, by simp [Data.empty], .nil⟩

theorem Data.Tight.of_regions (h : d.Tight) (hSame : d'.regions = d.regions) : d'.Tight :=
  ⟨Data.wellFormed_of_regions hSame h.wellFormed, hSame ▸ h.kinds, hSame ▸ h.apart⟩

end

end Explode.Driver
