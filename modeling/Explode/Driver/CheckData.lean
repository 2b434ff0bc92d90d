import Explode.Driver.Pread
import Explode.Driver.StableCheck

/-!
# What the comparison of two files accepts

Both passes of the comparison look at words that are not zero: the first one at
those of the recovered file, the second one at those of the stable file.
-/

namespace Explode.Driver

open IntervalMap

namespace FileObj

section
variable [Hashes]

def Visits (f : FileObj) (off : Nat) : Prop :=
  off % 4 = 0 ∧ off < f.size ∧ ∃ i < 4, f.d.byteAt (off + i) ≠ 0

/-- Each file can be read at every word that the other one visits. -/
structure ReadsSafe (f1 f2 : FileObj) : Prop where
  first : ∀ off, f2.Visits off → f1.d.PreadSafe 4 off
  second : ∀ off, f1.Visits off → f2.d.PreadSafe 4 off

/-- Every difference in size and bytes is one that the pending deltas allow. -/
structure Explained (opts : CheckOptions) (deltas : List Delta) (f1 f2 : FileObj) : Prop where
  size : explainedSize opts deltas f1.size f2.size
  bytes : ∀ off, f2.Visits off → ∀ i < 4,
    explainedByte opts deltas (off + i) (f1.d.byteAt (off + i)) (f2.d.byteAt (off + i))
  zeros : ∀ off, f1.Visits off → ∀ i < 4, zeroedByte deltas (off + i) (f2.d.byteAt (off + i))
      (f1.d.byteAt (off + i))

end

end FileObj

section
variable [Hashes] {d : Data}

theorem mem_regionWords {r : DataRegion} (h : d.WellFormed) (hr : r ∈ d.regions)
    {size off : Nat} {v : Word} : (off, v) ∈ regionWords size r ↔
      off % 4 = 0 ∧ r.start ≤ off ∧ off < r.stop ∧ off < size ∧
        v = fun i : Fin 4 => d.byteAt (off + i) := by
  have hWF := h.regions r hr
  have hStart := hWF.start_aligned
  have hStop := hWF.stop_aligned
  have hWord : ∀ x, x % 4 = 0 → r.start ≤ x → x < r.stop →
      (if r.magic ≠ 0 then positionHash x r.magic else getSig r.data (x - r.start)) =
        fun i : Fin 4 => d.byteAt (x + i) := by
    intro x hx hLow hHigh
    funext i
    have hi := i.isLt
    rw [byteAt_of_mem h hr (by omega) (by omega), DataRegion.byteAt]
    by_cases hMagic : r.magic = 0
    · have hIndex : x + i - r.start = x - r.start + i := by omega
      rw [if_neg (not_not.mpr hMagic), if_pos hMagic, getSig, hIndex]
    · have hDown : (x + i) / 4 * 4 = x := by omega
      have hRest : (x + i) % 4 = i := by omega
      rw [if_pos hMagic, if_neg hMagic, magicByte]
      simp only [hDown, hRest]
  simp only [regionWords, List.mem_filterMap, List.mem_map, List.mem_range]
  constructor
  · rintro ⟨x, ⟨i, hi, rfl⟩, hSome⟩
    by_cases hSize : r.start + 4 * i < size
    · rw [if_pos hSize, hWord _ (by omega) (by omega) (by omega)] at hSome
      obtain ⟨rfl, rfl⟩ := Prod.mk.inj (Option.some.inj hSome)
      exact ⟨by omega, by omega, by omega, hSize, rfl⟩
    · rw [if_neg hSize] at hSome
      cases hSome
  · rintro ⟨hAligned, hLow, hHigh, hSize, rfl⟩
    refine ⟨off, ⟨(off - r.start) / 4, by omega, by omega⟩, ?_⟩
    rw [if_pos hSize, hWord off hAligned hLow hHigh]

theorem mem_words {f : FileObj} (h : f.d.WellFormed) {off : Nat} {v : Word} :
    (off, v) ∈ f.d.regions.flatMap (regionWords f.size) ↔
      f.Visits off ∧ v = fun i : Fin 4 => f.d.byteAt (off + i) := by
  rw [List.mem_flatMap]
  constructor
  · rintro ⟨r, hr, hMem⟩
    obtain ⟨hAligned, hLow, hHigh, hSize, rfl⟩ := (mem_regionWords h hr).mp hMem
    refine ⟨⟨hAligned, hSize, ?_⟩, rfl⟩
    obtain ⟨i, hi, hByte⟩ := (h.regions r hr).nonzero off hAligned hLow hHigh
    have hStop := (h.regions r hr).stop_aligned
    exact ⟨i, hi, by rwa [byteAt_of_mem h hr (by omega) (by omega)]⟩
  · rintro ⟨⟨hAligned, hSize, i, hi, hByte⟩, rfl⟩
    obtain ⟨r, hr, hLow, hHigh⟩ := exists_region hByte
    have hStart := (h.regions r hr).start_aligned
    have hStop := (h.regions r hr).stop_aligned
    exact ⟨r, hr, (mem_regionWords h hr).mpr ⟨hAligned, by omega, by omega, hSize, rfl⟩⟩

theorem diffWords_spec (h : d.WellFormed) (explained : Nat → UInt8 → UInt8 → Bool)
    (words : List (Nat × Word)) (hSafe : ∀ w ∈ words, d.PreadSafe 4 w.1) :
    ∃ b, diffWords explained words d = .ok b ∧
      (b = true ↔ ∀ w ∈ words, ∀ i : Fin 4,
        explained (w.1 + i) (d.byteAt (w.1 + i)) (w.2 i) = true) := by
  induction words generalizing d with
  | nil => exact ⟨true, rfl, by simp⟩
  | cons w rest ih =>
    obtain ⟨hFirst, hRest⟩ := List.forall_mem_cons.mp hSafe
    obtain ⟨off, v2⟩ := w
    obtain ⟨b, hb, hIff⟩ := ih (d := { d with allocs := d.allocs + 1 }) ⟨h.ordered, h.regions⟩ hRest
    rw [diffWords, Data.pread_spec h hFirst]
    have hBytes : ∀ i : Fin 4, ((List.range 4).map fun i =>
        d.byteAt (off + i)).getD i 0 = d.byteAt (off + i) := by
      intro i
      simp [List.getD]
    simp only [bind, Except.bind, hBytes]
    split_ifs with hAll
    · refine ⟨b, hb, ?_⟩
      rw [hIff, List.forall_mem_cons]
      exact ⟨fun hTail => ⟨hAll, hTail⟩, fun hBoth => hBoth.2⟩
    · exact ⟨false, rfl, iff_of_false (by simp) fun hBoth => hAll (hBoth (off, v2) (by simp))⟩

/-- Equal signatures and explained differences are accepted, and nothing else. -/
theorem checkFile_spec (opts : CheckOptions) (deltas : List Delta) {f1 f2 : FileObj}
    (h1 : f1.d.WellFormed) (h2 : f2.d.WellFormed)
    (hSafe : f1.sig ≠ f2.sig → FileObj.ReadsSafe f1 f2) :
    ∃ b, checkFile opts deltas f1 f2 = .ok b ∧
      (b = true ↔ f1.sig = f2.sig ∨ FileObj.Explained opts deltas f1 f2) := by
  have hPass : ∀ (f g : FileObj) (test : Nat → UInt8 → UInt8 → Bool),
      f.d.WellFormed → g.d.WellFormed →
      (∀ off, g.Visits off → f.d.PreadSafe 4 off) →
      ∃ b, diffWords test (g.d.regions.flatMap (regionWords g.size)) f.d =
        .ok b ∧ (b = true ↔ ∀ off, g.Visits off → ∀ i < 4, test (off + i) (f.d.byteAt (off + i))
            (g.d.byteAt (off + i)) = true) := by
    intro f g test hf hg hReads
    obtain ⟨b, hb, hIff⟩ := diffWords_spec hf test _ fun w hw => hReads w.1 ((mem_words hg).mp hw).1
    refine ⟨b, hb, hIff.trans ⟨fun hAll off hVisits i hi => ?_, fun hAll w hw i => ?_⟩⟩
    · exact hAll _ ((mem_words hg).mpr ⟨hVisits, rfl⟩) ⟨i, hi⟩
    · obtain ⟨hVisits, hWord⟩ := (mem_words hg).mp hw
      rw [hWord]
      exact hAll w.1 hVisits i i.isLt
  rw [checkFile]
  split_ifs with hSig hSize
  · exact ⟨true, rfl, iff_of_true rfl (.inl hSig)⟩
  · obtain ⟨b, hb, hFirst⟩ := hPass f1 f2 (explainedByte opts deltas) h1 h2 (hSafe hSig).first
    obtain ⟨c, hc, hSecond⟩ := hPass f2 f1 (zeroedByte deltas) h2 h1 (hSafe hSig).second
    rw [hb]
    simp only [bind, Except.bind]
    cases b with
    | false =>
      refine ⟨false, rfl, iff_of_false (by simp) ?_⟩
      rintro (hEq | hExplained)
      · exact hSig hEq
      · exact absurd (hFirst.mpr hExplained.bytes) (by simp)
    | true =>
      refine ⟨c, hc, hSecond.trans ⟨fun hZeros => .inr ⟨hSize, hFirst.mp rfl, hZeros⟩, ?_⟩⟩
      rintro (hEq | hExplained)
      · exact absurd hEq hSig
      · exact hExplained.zeros
  · refine ⟨false, rfl, iff_of_false (by simp) ?_⟩
    rintro (hEq | hExplained)
    · exact hSig hEq
    · exact hSize hExplained.size

end

def oneWord (magic : Nat) : FileObj where
  size := 4
  sig _ := .ofNat magic
  d := { Data.empty false fun _ _ => 0 with regions := [⟨0, 4, magic, []⟩] }

attribute [local instance] sampleHashes

theorem checkFile_spec_oneWord :
    ∃ b, checkFile ⟨false, false⟩ [] (oneWord 1) (oneWord 2) = .ok b ∧
      (b = true ↔ (oneWord 1).sig = (oneWord 2).sig ∨
        FileObj.Explained ⟨false, false⟩ [] (oneWord 1) (oneWord 2)) := by
  have hWF : ∀ magic ∈ [1, 2], (oneWord magic).d.WellFormed := by
    intro magic hMagic
    have hByte : magicByte magic 0 ≠ 0 ∧ magic ≠ 0 := by
      revert magic
      decide
    constructor
    · exact ordered_cons.mpr ⟨by simp, by simp, ordered_nil⟩
    · intro r hr
      obtain rfl := List.mem_singleton.mp hr
      refine ⟨by simp, by simp, by simp, by simp [offMax], fun h => absurd h hByte.2, fun _ => rfl,
        fun x hWord _ hStop => ⟨0, by simp, ?_⟩⟩
      obtain rfl : x = 0 := by
        simp only at hStop
        omega
      simpa [DataRegion.byteAt, hByte.2] using hByte.1
  have hSafe : ∀ off, off % 4 = 0 ∧ off < 4 → ∀ magic, (oneWord magic).d.PreadSafe 4 off := by
    intro off hOff magic i hi _
    exact ⟨⟨0, 4, magic, []⟩, by simp [oneWord], by simp, by simp; omega⟩
  exact checkFile_spec _ _ (hWF 1 (by simp)) (hWF 2 (by simp)) fun _ =>
    ⟨fun off h => hSafe off ⟨h.1, h.2.1⟩ 1, fun off h => hSafe off ⟨h.1, h.2.1⟩ 2⟩

end Explode.Driver
