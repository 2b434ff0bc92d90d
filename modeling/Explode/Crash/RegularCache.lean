import Explode.Crash.Permuter

/-!
# The regular cache

The regular cache keeps the last version of a sector only. A crash lays the
cached sectors of a subset over the current disks. Which subsets there are is
an option.
-/

namespace Explode.Crash

open Machine Mcl BufferPermuter

abbrev Cache := CacheMap Signature

def setSector (cache : Cache) (s : SectorRec) : Cache :=
  match cache.lookup s.loc with
  | none => (s.loc, s.sig) :: cache
  | some _ => cache.map fun e => if e.1 = s.loc then (e.1, s.sig) else e

def Cache.wrSet (cache : Cache) (subset : Finset Nat) : WrSet :=
  (cache.zipIdx.filter fun x => x.2 ∈ subset).map Prod.fst

/-- `Cache`, whose iterator is initialised with the number of cached sectors. -/
abbrev PermuterOptions.regular (opt : PermuterOptions) (iteration : Iteration Signature) :
    CacheBase Signature PowersetState where
  wants := opt.wants
  add cache s := some (setSector cache s)
  createIterator cache :=
    some (.init cache.length opt.kernelWrites opt.deterministicThreshold opt.randomTries)
  next := PowersetState.next
  wrSet cache e := some (Cache.wrSet (iteration.visit cache) e.subset)

abbrev RegularPermuter := BufferPermuter Signature PowersetState

namespace Powerset

theorem next_of_unskipped {n i : Nat} (hn : n < maxSet) (hi : i < 2 ^ n) :
    next ⟨n, i, []⟩ = some (some ((genPowerset n).getD i [], ⟨n, i + 1, []⟩)) := by
  have hPow : 2 ^ n ≤ 2 ^ maxSet := Nat.pow_le_pow_right (by decide) hn.le
  have hSkip : skip ⟨n, i, []⟩ (2 ^ n - i) i = some i := by
    obtain ⟨k, hk⟩ : ∃ k, 2 ^ n - i = k + 1 := ⟨2 ^ n - i - 1, by omega⟩
    rw [hk, skip, if_pos (by omega)]
    simp
  have hTable : (genPowerset maxSet).getD i [] = (genPowerset n).getD i [] := by
    rw [List.getD_eq_getElem?_getD, List.getD_eq_getElem?_getD, getElem?_genPowerset hn.le hi]
  rw [next, hSkip, Option.map_some, if_neg (show i ≠ 2 ^ n by omega), hTable]

theorem next_end {n : Nat} (hn : n < maxSet) : next ⟨n, 2 ^ n, []⟩ = some none := by
  have hPow : 2 ^ n < 2 ^ maxSet := Nat.pow_lt_pow_right (by decide) hn
  rw [next, Nat.sub_self, skip, if_pos hPow, Option.map_some, if_pos rfl]

end Powerset

theorem filter_mem_genPowerset (P : Nat → Bool) (n : Nat) :
    (List.range n).filter P ∈ genPowerset n := by
  induction n with
  | zero => exact List.mem_singleton.mpr rfl
  | succ n ih =>
    rw [List.range_succ, List.filter_append, genPowerset, List.mem_append]
    cases hLast : P n with
    | true =>
      rw [List.filter_singleton, hLast, cond_true]
      exact .inr (List.mem_map_of_mem ih)
    | false =>
      rw [List.filter_singleton, hLast, cond_false, List.append_nil]
      exact .inl ih

namespace SetType

/-- The number of subsets of a mode that comes to an end. -/
def count (n : Nat) : SetType → Nat
  | atomic => 1
  | leftToRight => n + 1
  | unordered | interleaved => 2 ^ n

theorem count_lt (type : SetType) {n : Nat} (hn : n < maxSet) : type.count n < 2 ^ maxSet := by
  have hPow : 2 ^ n < 2 ^ maxSet := Nat.pow_lt_pow_right (by decide) hn
  have hMax : maxSet < 2 ^ maxSet := by decide
  cases type with
  | atomic => exact (by decide : 1 < 2 ^ maxSet)
  | leftToRight => exact lt_of_le_of_lt hn hMax
  | unordered => exact hPow
  | interleaved => exact hPow

end SetType

namespace PowersetState

/-- After i subsets of a set that is small enough for the table. -/
structure Enumerates (n i : Nat) (type : SetType) (st : PowersetState) : Prop where
  type_eq : st.type = type
  size : st.size = n
  few : (n : Int) ≤ st.deterministicThreshold
  skips : st.skipTable = []
  iter : st.iter = i
  subset : type = .unordered → 0 < i → st.subset = ((genPowerset n).getD (i - 1) []).toFinset

variable {n i : Nat} {type : SetType} {st : PowersetState}

theorem Enumerates.next_true (hType : type ≠ .interleaved) (hn : n < maxSet)
    (h : st.Enumerates n i type) (g : UnixRandom) (hi : i < type.count n) :
    ∃ st', st.next g = some (true, st', g) ∧ st'.Enumerates n (i + 1) type := by
  have hCount := type.count_lt hn
  have hBound : (2 : Nat) ^ maxSet < 2 ^ 31 := by decide
  have hIter : toInt ((i : Int) + 1) = ((i + 1 : Nat) : Int) :=
    Combination.toInt_eq (by omega) (by omega)
  obtain ⟨rfl, rfl, hFew, hSkips, hAt, -⟩ := h
  unfold next
  generalize hClear : (if st.iter = 0 then { st with subset := ∅ } else st) = st₀
  have hSame : st₀.type = st.type ∧ st₀.size = st.size ∧
      st₀.deterministicThreshold = st.deterministicThreshold ∧ st₀.skipTable = [] ∧
      st₀.iter = i := by
    rw [← hClear]
    split
    · exact ⟨rfl, rfl, rfl, hSkips, hAt⟩
    · exact ⟨rfl, rfl, rfl, hSkips, hAt⟩
  obtain ⟨hType₀, hSize₀, hFew₀, hSkips₀, hAt₀⟩ := hSame
  simp only [hType₀, hSize₀, hAt₀, hSkips₀, hFew₀, hIter]
  cases hMode : st.type with
  | interleaved => exact absurd hMode hType
  | atomic =>
    rw [hMode] at hi
    obtain rfl : i = 0 := Nat.lt_one_iff.mp hi
    refine ⟨_, if_neg (by decide), rfl, rfl, hFew, rfl, rfl, ?_⟩
    rintro ⟨⟩
  | leftToRight =>
    rw [hMode] at hi
    have hLe : ¬ ((st.size : Int) < i) := by
      have hLt : i < st.size + 1 := hi
      omega
    simp only [if_neg hLe]
    split
    · refine ⟨_, rfl, rfl, rfl, hFew, rfl, rfl, ?_⟩
      rintro ⟨⟩
    · refine ⟨_, rfl, rfl, rfl, hFew, rfl, rfl, ?_⟩
      rintro ⟨⟩
  | unordered =>
    rw [hMode] at hi
    simp only [if_pos hFew, Int.toNat_natCast, Powerset.next_of_unskipped hn hi]
    exact ⟨_, rfl, rfl, rfl, hFew, rfl, rfl, fun _ _ => rfl⟩

theorem Enumerates.next_false (hType : type ≠ .interleaved) (hn : n < maxSet)
    (h : st.Enumerates n (type.count n) type) (g : UnixRandom) :
    ∃ st', st.next g = some (false, st', g) := by
  have hCount := type.count_lt hn
  obtain ⟨rfl, rfl, hFew, hSkips, hAt, -⟩ := h
  have hLater : st.iter ≠ 0 := by
    rw [hAt]
    cases st.type with
    | atomic => exact Int.natCast_ne_zero.mpr Nat.one_ne_zero
    | leftToRight => exact Int.natCast_ne_zero.mpr (Nat.succ_ne_zero _)
    | unordered => exact Int.natCast_ne_zero.mpr (Nat.two_pow_pos _).ne'
    | interleaved => exact Int.natCast_ne_zero.mpr (Nat.two_pow_pos _).ne'
  simp only [next, if_neg hLater]
  simp only [hAt, hSkips]
  cases hMode : st.type with
  | interleaved => exact absurd hMode hType
  | atomic => exact ⟨st, rfl⟩
  | leftToRight => exact ⟨st, if_pos (Int.ofNat_lt.mpr (Nat.lt_succ_self _))⟩
  | unordered =>
    simp only [if_pos hFew, SetType.count, Int.toNat_natCast, Powerset.next_end hn]
    exact ⟨_, rfl⟩

theorem handOut_init {threshold : Int} (tries : Int) (hType : type ≠ .interleaved)
    (hFew : (n : Int) ≤ threshold) (hn : n < maxSet) (g : UnixRandom) :
    ∃ subsets st st', handOut next subset (type.count n) (init n type threshold tries) g =
        some (subsets, st, g) ∧ st.next g = some (false, st', g) ∧
      (type = .unordered → ∀ s ⊆ Finset.range n, s ∈ subsets) := by
  have hInit : (init n type threshold tries).Enumerates n 0 type :=
    ⟨rfl, rfl, hFew, rfl, rfl, fun _ hPos => absurd hPos (Nat.lt_irrefl 0)⟩
  have hNext : ∀ i (st : PowersetState), st.Enumerates n i type → i < type.count n →
      ∃ st', st.next g = some (true, st', g) ∧ st'.Enumerates n (i + 1) type :=
    fun i st h => h.next_true hType hn g
  obtain ⟨subsets, st, hOut, hAll, hEach⟩ :=
    handOut_counted subset hNext hInit (Nat.zero_add (type.count n))
  obtain ⟨st', hLast⟩ := hAll.next_false hType hn g
  refine ⟨subsets, st, st', hOut, hLast, ?_⟩
  rintro rfl s hs
  have hTable : subsets.map id = (List.range' 0 (2 ^ n)).map
      fun i => ((genPowerset n).getD i []).toFinset := by
    rw [← List.forall₂_eq_eq_eq, List.forall₂_map_left_iff, List.forall₂_map_right_iff]
    refine hEach.imp ?_
    rintro _ i ⟨st, hst, rfl⟩
    exact hst.subset rfl (Nat.succ_pos i)
  rw [List.map_id] at hTable
  have hMem := filter_mem_genPowerset (fun i => decide (i ∈ s)) n
  obtain ⟨i, hi, hGet⟩ := List.getElem_of_mem hMem
  have hPlace : i < 2 ^ n := length_genPowerset n ▸ hi
  rw [hTable, List.mem_map]
  refine ⟨i, List.mem_range'_1.mpr ⟨Nat.zero_le i, by omega⟩, ?_⟩
  rw [List.getD_eq_getElem _ _ hi, hGet]
  ext x
  simp only [List.mem_toFinset, List.mem_filter, List.mem_range, decide_eq_true_eq]
  exact and_iff_right_of_imp fun hx => Finset.mem_range.mp (hs hx)

end PowersetState

namespace Cache

theorem wrSet_sublist (cache : Cache) (subset : Finset Nat) :
    (cache.wrSet subset).Sublist cache := by
  have hFirst : cache.zipIdx.map Prod.fst = cache := List.zipIdx_map_fst 0 cache
  have hSub := (List.filter_sublist (p := fun x : (SectorLoc × Signature) × Nat =>
    decide (x.2 ∈ subset)) (l := cache.zipIdx)).map Prod.fst
  rwa [hFirst] at hSub

def subsetWhere (cache : Cache) (P : SectorLoc × Signature → Bool) : Finset Nat :=
  (Finset.range cache.length).filter fun i => cache[i]?.any P

theorem wrSet_subsetWhere (cache : Cache) (P : SectorLoc × Signature → Bool) :
    cache.wrSet (cache.subsetWhere P) = cache.filter P := by
  have hTest : ∀ x ∈ cache.zipIdx, decide (x.2 ∈ cache.subsetWhere P) = P x.1 := by
    intro x hx
    have hGet : cache[x.2]? = some x.1 := List.mem_zipIdx_iff_getElem?.mp hx
    obtain ⟨hLt, hEq⟩ := List.getElem?_eq_some_iff.mp hGet
    simp [subsetWhere, hLt, hEq]
  rw [wrSet, List.filter_congr hTest]
  have hFirst : cache.zipIdx.map Prod.fst = cache := List.zipIdx_map_fst 0 cache
  conv_rhs => rw [← hFirst, List.filter_map]
  rfl

end Cache

/-- The crash of a subset. -/
def regularCrash (iteration : Iteration Signature) (p : RegularPermuter) :
    Finset Nat → Option BlockDevDataVec :=
  p.crashOf fun subset => some (Cache.wrSet (iteration.visit p.cache) subset)

theorem regular_check [ChunkHash] {opt : PermuterOptions} (iteration : Iteration Signature)
    {p : RegularPermuter} (hWrites : opt.kernelWrites ≠ .interleaved)
    (hFew : (p.cache.length : Int) ≤ opt.deterministicThreshold) (hSmall : p.cache.length < maxSet)
    (hEnabled : opt.wants.crashEnabled p.cur = true)
    (hCrash : ∀ subset, ∃ disks, regularCrash iteration p subset = some disks) (r : Resume) :
    ∃ p' e crashes, p.checkCrashes (opt.regular iteration) r = some p' ∧
      Reaches (step (opt.regular iteration)) p'
        { p with pc := .permuting e r, crashes := p.crashes ++ crashes } ∧
      step (opt.regular iteration)
          { p with pc := .permuting e r, crashes := p.crashes ++ crashes } =
        { p with pc := .permuting e r, crashes := p.crashes ++ crashes }.resume r ∧
      (opt.kernelWrites = .unordered → ∀ subset ⊆ Finset.range p.cache.length,
        ∃ disks ∈ crashes, regularCrash iteration p subset = some disks) ∧
      ∀ disks ∈ crashes, ∃ subset, regularCrash iteration p subset = some disks := by
  obtain ⟨subsets, e, e', hOut, hLast, hAll⟩ :=
    PowersetState.handOut_init opt.randomTries hWrites hFew hSmall p.rand
  have hWr : ∀ e, (opt.regular iteration).wrSet p.cache e =
      some (Cache.wrSet (iteration.visit p.cache) (PowersetState.subset e)) := fun _ => rfl
  obtain ⟨p', crashes, hCheck, hReach, hResume, hEach⟩ := @check_reaches _ _ _ _
    (opt.regular iteration) p _ _ _ (fun s => some (Cache.wrSet (iteration.visit p.cache) s)) _ hWr
    hEnabled rfl _ hOut _ hLast (fun subset _ => hCrash subset) r
  refine ⟨p', e, crashes, hCheck, hReach, hResume, ?_, ?_⟩
  · intro hUnordered subset hSub
    obtain ⟨disks, hMem, hEq⟩ :=
      List.mem_map.mp (hEach ▸ List.mem_map_of_mem (hAll hUnordered subset hSub))
    exact ⟨disks, hMem, hEq.symm⟩
  · intro disks hMem
    obtain ⟨subset, -, hEq⟩ := List.mem_map.mp (hEach ▸ List.mem_map_of_mem hMem)
    exact ⟨subset, hEq⟩

end Explode.Crash
