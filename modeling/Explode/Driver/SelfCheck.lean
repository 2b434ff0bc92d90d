import Explode.Driver.RegionRuns
import Explode.Driver.StableFS

/-!
# The self-check of file data

`internal_check` asserts that neighbouring regions have the same magic number.
It accepts the data exactly when all words that are not zero are of one kind,
as long as no region write meets a region that it does not handle rightly.
-/

namespace Explode.Driver

open IntervalMap Loop

section
variable [Hashes]

def OneKind (bytes : Nat → UInt8) : Prop :=
  ∀ m n k l, magicAt bytes m = some k → magicAt bytes n = some l → k = l

namespace Data

def internalCheck (d : Data) : Bool := checkRegions none d.regions

def WritesSafe (d : Data) (b : Bytes) (off : Nat) : Prop :=
  if off % 4 ≠ 0 ∨ (off + b.length) % 4 ≠ 0 then
    EdgesWriteSafe (roundDown off) (d.readEdges b off)
  else d.WordsSafe b off

instance (d : Data) (b : Bytes) (off : Nat) : Decidable (d.WritesSafe b off) :=
  inferInstanceAs (Decidable (if off % 4 ≠ 0 ∨ (off + b.length) % 4 ≠ 0 then _ else _))

end Data

def DataOp.WritesSafe (d : Data) : DataOp → Prop
  | .pwrite b off => d.WritesSafe b off
  | .truncate length => length < roundUp length →
    d.WritesSafe (List.replicate (roundUp length - length) 0) length

instance (d : Data) (op : DataOp) : Decidable (op.WritesSafe d) :=
  match op with
  | .pwrite b off => inferInstanceAs (Decidable (d.WritesSafe b off))
  | .truncate _ => inferInstanceAs (Decidable (_ → _))

end

section
variable [Hashes] {d d' : Data}

namespace Data

theorem readEdge_returns {base a b : Nat} {buf : Bytes × Data}
    (hWF : buf.2.WellFormed) (hBase : base ≤ a) (hRoom : b ≤ base + buf.1.length) :
    ∃ buf', readEdge base a b buf = .ok buf' ∧ buf'.2.regions = buf.2.regions ∧
      buf'.1.length = buf.1.length := by
  rw [readEdge]
  split
  case isTrue hLt =>
    obtain ⟨bytes, hRead, hLength, -⟩ := pread_returns hWF (b - a) a
    rw [hRead]
    exact ⟨_, rfl, rfl, length_memcpy (by omega) (Nat.le_of_eq hLength.symm)⟩
  case isFalse => exact ⟨buf, rfl, rfl, rfl⟩

theorem readEdges_returns (hWF : d.WellFormed) (b : Bytes) (off : Nat) :
    ∃ edges, d.readEdges b off = .ok edges ∧ edges.2.regions = d.regions ∧
      edges.1.length = roundUp (off + b.length) - roundDown off := by
  have hDown := (roundDown_spec off).2
  have hUp := le_roundUp (off + b.length)
  rw [readEdges]
  generalize roundDown off = bufStart at hDown ⊢
  generalize roundUp (off + b.length) = bufEnd at hUp ⊢
  have hFresh : (d.alloc (bufEnd - bufStart)).1.length = bufEnd - bufStart := by simp [alloc]
  have hFreshWF : (d.alloc (bufEnd - bufStart)).2.WellFormed := ⟨hWF.ordered, hWF.regions⟩
  obtain ⟨front, hReadFront, hRegions, hLength⟩ :=
    readEdge_returns hFreshWF (Nat.le_refl bufStart) (show off ≤ _ by omega)
  have hFrontRegions : front.2.regions = d.regions := hRegions
  obtain ⟨back, hReadBack, hRegions', hLength'⟩ :=
    readEdge_returns (wellFormed_of_regions hFrontRegions hWF)
      (show bufStart ≤ off + b.length by omega) (show bufEnd ≤ _ by omega)
  refine ⟨(memcpy back.1 (off - bufStart) b b.length, back.2), ?_,
    hRegions'.trans hFrontRegions, ?_⟩
  · simp only [hReadFront, bind, Except.bind, hReadBack]
    rfl
  · rw [length_memcpy (by omega) (Nat.le_refl _)]
    omega

theorem Tight.writeWords {buf : Bytes} {bufStart : Nat} (hTight : d.Tight)
    (hStart : bufStart % 4 = 0) (hLength : buf.length % 4 = 0)
    (hMax : bufStart + buf.length ≤ offMax) (hSafe : d.WordsSafe buf bufStart) :
    ∃ d', d.writeWords buf bufStart = .ok d' ∧ d'.Tight := by
  have hPieces := @pieces_kinded _ buf _ _ hStart rfl (by omega) hMax
    (buf.length / 4) bufStart hStart (Nat.le_refl _) (by omega)
  have hMeets := hSafe.and (fun _ p => p ∈ pieces buf bufStart (bufStart + buf.length)
    (buf.length / 4) bufStart) fun k hk => List.getElem_mem hk
  have hRun := foldlM_returns (I := fun _ d => d.Tight) (Q := fun _ => False) (by
      intro done d p hTight ⟨hMem, hSafe⟩
      obtain ⟨hp, hKinded, hLt, -⟩ := hPieces p hMem
      obtain ⟨d', hWrite, hTight', -⟩ := hTight.writeRegion hp hKinded (.inl hLt) hSafe
      rw [hWrite]
      exact hTight') _ [] hTight hMeets
  rw [Data.writeWords]
  cases hFold : (pieces buf bufStart (bufStart + buf.length) (buf.length / 4)
      bufStart).foldlM Data.writeRegion d with
  | error e =>
    rw [hFold] at hRun
    exact hRun.elim
  | ok d' =>
    rw [hFold] at hRun
    exact ⟨{ d' with buf := false }, rfl, hRun.of_regions rfl⟩

theorem Tight.pwrite {b : Bytes} {off : Nat} (hTight : d.Tight) (hMax : off + b.length ≤ offMax)
    (hSafe : d.WritesSafe b off) (h : d.pwrite b off = .ok d') : d'.Tight := by
  rw [WritesSafe] at hSafe
  rw [Data.pwrite] at h
  split_ifs at h with hUnaligned hBuf
  · rw [if_pos hUnaligned] at hSafe
    obtain ⟨edges, hRead, hRegions, hLength⟩ := readEdges_returns hTight.wellFormed b off
    rw [hRead] at h hSafe
    have hDown := roundDown_spec off
    have hUp := roundUp_spec hMax
    obtain ⟨d₁, hWrite, hTight₁⟩ := (hTight.of_regions hRegions).writeWords hDown.1 (by omega)
      (by omega) hSafe
    cases hWrite.symm.trans h
    exact hTight₁
  · rw [if_neg hUnaligned] at hSafe
    obtain ⟨d₁, hWrite, hTight₁⟩ := hTight.writeWords (by omega) (by omega) hMax hSafe
    cases hWrite.symm.trans h
    exact hTight₁

theorem Tight.truncate {length : Nat} (hTight : d.Tight) (hMax : length ≤ offMax)
    (hSafe : (DataOp.truncate length).WritesSafe d)
    (h : d.truncate length = .ok d') : d'.Tight := by
  have hUp := roundUp_spec hMax
  obtain ⟨d₁, hClear, hZero⟩ := bind_eq_ok h
  have hTight₁ : d₁.Tight := by
    rw [clearWord] at hClear
    split_ifs at hClear with hLt
    · refine hTight.pwrite ?_ (hSafe hLt) hClear
      rw [List.length_replicate]
      omega
    · cases hClear
      exact hTight
  have hPiece : Piece.WellFormed ⟨roundUp length, offMax, .zero, 0, []⟩ := by
    refine ⟨hUp.1, (by decide : offMax % 4 = 0), hUp.2.2, Nat.le_refl _, ?_, ?_, ?_⟩ <;>
    · intro hType
      cases hType
  obtain ⟨d₂, hWrite, hTight₂, -⟩ := hTight₁.writeRegion hPiece (fun hType => by cases hType)
    (.inr rfl) (by
      intro r hr
      refine ⟨fun _ hOver => ?_, fun _ _ _ _ => .inl rfl⟩
      exact absurd (hTight₁.wellFormed.regions r hr).stop_le (Nat.not_le.mpr hOver))
  cases hWrite.symm.trans hZero
  exact hTight₂

end Data

theorem DataOp.apply_tight {op : DataOp} (hTight : d.Tight) (hRange : op.InRange)
    (hSafe : op.WritesSafe d) (h : op.apply d = .ok d') :
    d'.Tight := by
  cases op with
  | pwrite b off => exact hTight.pwrite hRange hSafe h
  | truncate length => exact hTight.truncate hRange hSafe h

theorem checkRegions_iff (prev : Option DataRegion) {l : List DataRegion}
    (hOrd : Ordered (prev.toList ++ l)) (hWF : ∀ r ∈ l, r.WellFormed)
    (hApart : (prev.toList ++ l).Pairwise fun r r' => r.stop = r'.start → r.magic ≠ r'.magic) :
    checkRegions prev l = true ↔ (prev.toList ++ l).IsChain fun r r' => r.magic = r'.magic := by
  induction l generalizing prev with
  | nil => cases prev <;> simp [checkRegions]
  | cons r rest ih =>
    obtain ⟨hFirst, hRest⟩ := List.forall_mem_cons.mp hWF
    have hTail := (ordered_append.mp hOrd).2.1
    have hTailApart := (List.pairwise_append.mp hApart).2.1
    rw [checkRegions, Bool.and_eq_true, ih (some r) hTail hRest hTailApart,
      decide_eq_true hFirst.start_aligned, decide_eq_true hFirst.stop_aligned,
      hFirst.internalCheck, Bool.and_true, Bool.true_and, Bool.true_and]
    cases prev with
    | none => simp
    | some p =>
      have hLe := (ordered_append.mp hOrd).2.2 p (by simp) r (by simp)
      have hNe := (List.pairwise_append.mp hApart).2.2 p (by simp) r (by simp)
      simp only [Option.all_some, Bool.and_eq_true, decide_eq_true_eq, Option.toList_some,
        List.singleton_append, List.isChain_cons_cons]
      apply and_congr_left
      intro _
      constructor
      · exact And.left
      · intro hSame
        exact ⟨hSame, Nat.lt_of_le_of_ne hLe fun hTouch => hNe hTouch hSame⟩

theorem Data.Tight.internalCheck_iff (hTight : d.Tight) :
    d.internalCheck = true ↔ OneKind d.byteAt := by
  have hRuns := hTight.runs
  rw [Data.internalCheck, checkRegions_iff none hTight.wellFormed.ordered
    hTight.wellFormed.regions hTight.apart]
  have hTrans : IsTrans DataRegion fun r r' => r.magic = r'.magic := ⟨fun _ _ _ => Eq.trans⟩
  rw [List.isChain_iff_pairwise]
  constructor
  · intro hSame m n k l hm hn
    have hRegion : ∀ n k, magicAt d.byteAt n = some k → ∃ r ∈ d.regions, r.magic = k := by
      intro n k hk
      obtain ⟨r, hr, hLow, hHigh⟩ := hRuns.covers n (by rw [hk]; simp)
      exact ⟨r, hr, Option.some.inj ((hRuns.uniform r hr n hLow hHigh).symm.trans hk)⟩
    obtain ⟨r, hr, rfl⟩ := hRegion m k hm
    obtain ⟨r', hr', rfl⟩ := hRegion n l hn
    rcases hTight.wellFormed.ordered.cases hSame hr hr' with rfl | ⟨-, hEq⟩ | ⟨-, hEq⟩
    · rfl
    · exact hEq
    · exact hEq.symm
  · intro hOne
    apply List.pairwise_of_forall_mem_list
    intro r hr r' hr'
    exact hOne _ _ _ _ (hRuns.uniform r hr _ (Nat.le_refl _) (hRuns.ordered.nonempty r hr))
      (hRuns.uniform r' hr' _ (Nat.le_refl _) (hRuns.ordered.nonempty r' hr'))

theorem Data.Tight.copy_iff (hTight : d.Tight)
    (hChecked : d'.regions.all DataRegion.internalCheck = true) :
    (∃ copied, d'.copy d = .ok copied) ↔ d.internalCheck = true := by
  have hBuffers : d.regions.all (fun dr => decide (dr.magic ≠ 0) || !dr.data.isEmpty) = true := by
    apply List.all_eq_true.mpr
    intro r hr
    have hr' := hTight.wellFormed.regions r hr
    rw [Bool.or_eq_true, decide_eq_true_eq, Bool.not_eq_true', List.isEmpty_eq_false_iff,
      ← List.length_pos_iff]
    refine or_iff_not_imp_left.mpr fun hMagic => ?_
    have hRoom := hr'.regular (not_not.mp hMagic)
    have hLt := hr'.nonempty
    omega
  rw [Data.copy, Data.internalCheck]
  split_ifs with h
  · exact iff_of_true ⟨_, rfl⟩ h.2.1
  · refine iff_of_false (by simp) fun hCheck => h ⟨hChecked, hCheck, hBuffers⟩

theorem foldlM_tight {buf : Bool} {junk : Nat → Nat → UInt8} {ops : List DataOp}
    (hRange : ∀ op ∈ ops, op.InRange)
    (hSafe : Meets DataOp.apply (fun _ d op => op.WritesSafe d) [] (Data.empty buf junk) ops)
    (hRun : ops.foldlM DataOp.apply (Data.empty buf junk) = .ok d) :
    d.Tight := by
  have hMeets := hSafe.and (fun _ op => op.InRange) fun k hk => hRange ops[k] (List.getElem_mem hk)
  have hReturns := foldlM_returns (I := fun _ d => d.Tight) (Q := fun _ => True) (by
      intro done d op hTight ⟨hRange, hSafe⟩
      cases hApply : op.apply d with
      | error e => trivial
      | ok d' => exact op.apply_tight hTight hRange hSafe hApply)
    ops [] (tight_empty buf junk) hMeets
  rw [hRun] at hReturns
  exact hReturns

end

/-- After any operations in range whose region writes are all safe, the self-check passes exactly
when the words of the file that are not zero are of one kind. -/
theorem internalCheck_iff_oneKind [Hashes] (buf : Bool)
    (junk : Nat → Nat → UInt8) (ops : List DataOp) (d : Data) (hRange : ∀ op ∈ ops, op.InRange)
    (hSafe : Meets DataOp.apply (fun _ d op => op.WritesSafe d) [] (Data.empty buf junk) ops)
    (hRun : ops.foldlM DataOp.apply (Data.empty buf junk) = .ok d) :
    (d.internalCheck = true ↔ OneKind d.byteAt) ∧
      ∀ target : Data, target.regions.all DataRegion.internalCheck = true →
        ((∃ copied, target.copy d = .ok copied) ↔ OneKind d.byteAt) := by
  have hTight := foldlM_tight hRange hSafe hRun
  constructor
  · exact hTight.internalCheck_iff
  · intro target hChecked
    exact (hTight.copy_iff hChecked).trans hTight.internalCheck_iff

def oneKindOps : List DataOp :=
  [.pwrite [1, 1, 1, 1, 2, 2, 2, 2, 3, 3, 3, 3] 0, .pwrite [0, 0, 0, 0] 4, .truncate 12]

def oneKindData : Data :=
  { Data.empty false sampleJunk with
    regions := [⟨0, 4, 0, [1, 1, 1, 1]⟩, ⟨8, 12, 0, [3, 3, 3, 3]⟩], allocs := 3 }

attribute [local instance] sampleHashes

theorem internalCheck_iff_oneKind_split :
    (∀ op ∈ oneKindOps, op.InRange) ∧
      Meets DataOp.apply (fun _ d op => op.WritesSafe d) []
        (Data.empty false sampleJunk) oneKindOps ∧
      oneKindData.internalCheck = true ∧
      OneKind oneKindData.byteAt := by
  have hRange : ∀ op ∈ oneKindOps, op.InRange := by decide
  have hSafe : Meets DataOp.apply (fun _ d op => op.WritesSafe d) []
      (Data.empty false sampleJunk) oneKindOps := by decide +kernel
  have hRun : oneKindOps.foldlM DataOp.apply (Data.empty false sampleJunk) =
      .ok oneKindData := by rfl
  have hCheck : oneKindData.internalCheck = true := by decide +kernel
  exact ⟨hRange, hSafe, hCheck, (internalCheck_iff_oneKind false sampleJunk oneKindOps
    oneKindData hRange hSafe hRun).1.mp hCheck⟩

/-- An ordinary word and, two words later, one with a magic number fail the self-check. -/
theorem internalCheck_fails_on_mixed_words :
    (∀ op ∈ [DataOp.pwrite [1, 1, 1, 1] 0, .pwrite [59, 59, 59, 59] 8], op.InRange) ∧
      ([DataOp.pwrite [1, 1, 1, 1] 0, .pwrite [59, 59, 59, 59] 8].foldlM
        DataOp.apply (Data.empty false sampleJunk)).map
          (fun d => (d.internalCheck, ((Data.empty false sampleJunk).copy d).toOption.isSome)) =
        .ok (false, false) := by
  decide +kernel

end Explode.Driver
