import Explode.Crash.Powerset
import Mathlib.Data.Finset.Card

/-!
# Random samples

Above the threshold, `Powerset` and `Combination` draw random samples instead of
running through all of them. Both draw one sample more than they are told.
-/

namespace Explode.Crash

open Machine MixedRadix Mcl

namespace PowersetState

structure Sampling (tries : Nat) (st : PowersetState) : Prop where
  type : st.type = .unordered
  many : st.deterministicThreshold < st.size
  tries : st.randomTries = tries

variable {tries : Nat} {st st' : PowersetState} {g g' : UnixRandom}

theorem Sampling.next_eq (h : Sampling tries st) : st.next g =
    if (tries : Int) < st.iter then some (false, st, g)
    else (randSubset st.size (if st.iter = 0 then ∅ else st.subset) g).map fun r =>
      (true, { st with subset := r.1, iter := toInt (st.iter + 1) }, r.2) := by
  have hMany := not_le.mpr h.many
  by_cases hFirst : st.iter = 0
  · simp only [next, if_pos hFirst, h.type, if_neg hMany, h.tries]
    simp only [hFirst, if_neg (not_lt.mpr (Int.natCast_nonneg tries))]
  · simp only [next, if_neg hFirst, h.type, if_neg hMany, h.tries]

theorem subset_randSubset {size : Nat} {subset : Finset Nat} {r : Finset Nat × UnixRandom}
    (hRun : randSubset size subset g = some r) : subset ⊆ r.1 := by
  obtain ⟨sz, _, hRest⟩ := Option.bind_eq_some_iff.mp hRun
  obtain ⟨q, _, rfl⟩ := Option.map_eq_some_iff.mp hRest
  exact Finset.subset_union_left

theorem Sampling.of_next (h : Sampling tries st) (hNext : st.next g = some (true, st', g')) :
    Sampling tries st' ∧ st'.iter = toInt (st.iter + 1) ∧
      (st.iter ≠ 0 → st.subset ⊆ st'.subset) := by
  rw [h.next_eq] at hNext
  split at hNext
  · cases hNext
  · obtain ⟨r, hRun, hEq⟩ := Option.map_eq_some_iff.mp hNext
    cases hEq
    refine ⟨⟨h.type, h.many, h.tries⟩, rfl, fun hLater => ?_⟩
    have hSub := subset_randSubset hRun
    rwa [if_neg hLater] at hSub

end PowersetState

theorem toInt_zero : toInt ((0 : Nat) : Int) = 0 := by decide

/-- So many samples, each of them a function of the draws of its own call, any valid one with some
draws, and no draw that is refused. -/
structure Samples {σ α : Type} (next : σ → UnixRandom → Option (Bool × σ × UnixRandom))
    (value : σ → α) (s : σ) (tries : Nat) (Valid : α → Prop) (g : UnixRandom) : Prop where
  count : ∃ samples t g' t' g'', handOut next value tries s g = some (samples, t, g') ∧
    next t g' = some (false, t', g'')
  independent : ∃ f : (Nat → Fin randRange) → α, ∀ k g samples t g' t' g'',
    handOut next value k s g = some (samples, t, g') → next t g' = some (true, t', g'') →
      value t' = f fun i => g'.source (g'.drawn + i)
  support : ∀ a, Valid a → ∃ k g samples r, handOut next value k s g = some (samples, r) ∧
    a ∈ samples
  accepted : ∀ k samples t g', handOut next value k s g = some (samples, t, g') →
    (next t g').isSome

section
variable {σ α : Type} {next : σ → UnixRandom → Option (Bool × σ × UnixRandom)} {value : σ → α}
  {s t : σ} {g g' : UnixRandom} {samples : List α} {k : Nat}

theorem handOut_invariant {P : Nat → σ → Prop}
    (hNext : ∀ k s g s' g', P k s → next s g = some (true, s', g') → P (k + 1) s') {m : Nat}
    (hInit : P m s) (hOut : handOut next value k s g = some (samples, t, g')) : P (m + k) t := by
  induction k generalizing m s g samples with
  | zero =>
    cases hOut
    exact hInit
  | succ k ih =>
    obtain ⟨s₁, g₁, rest, hFirst, hRest, rfl⟩ := handOut_succ hOut
    have hAfter := ih (hNext m s g s₁ g₁ hInit hFirst) hRest
    rwa [Nat.add_right_comm, Nat.add_assoc] at hAfter

theorem not_count {tries : Nat} {P : Nat → σ → Prop}
    (hNext : ∀ k s g s' g', P k s → next s g = some (true, s', g') → P (k + 1) s') (hInit : P 0 s)
    (hLast : ∀ t g t' g', P tries t → next t g ≠ some (false, t', g')) :
    ¬∃ samples t g' t' g'', handOut next value tries s g = some (samples, t, g') ∧
      next t g' = some (false, t', g'') := by
  rintro ⟨samples, t, g', t', g'', hOut, hStop⟩
  have hAfter := handOut_invariant hNext hInit hOut
  rw [Nat.zero_add] at hAfter
  exact hLast t g' t' g'' hAfter hStop

end

namespace PowersetState

variable {tries : Nat} {st st' : PowersetState} {g g' : UnixRandom} {k : Nat}

def Drawn (tries k : Nat) (st : PowersetState) : Prop := Sampling tries st ∧ st.iter = toInt k

theorem Drawn.next (h : Drawn tries k st) (hNext : st.next g = some (true, st', g')) :
    Drawn tries (k + 1) st' := by
  obtain ⟨hSampling, hIter, _⟩ := h.1.of_next hNext
  refine ⟨hSampling, ?_⟩
  rw [hIter, h.2, Combination.toInt_add_one]
  rfl

theorem Drawn.samples_grow {samples : List (Finset Nat)} (h : Drawn tries k st) (hPos : 0 < k)
    {left : Nat} (hInt : k + left ≤ 2 ^ 32)
    (hOut : handOut PowersetState.next subset left st g = some (samples, st', g')) :
    (st.subset :: samples).Pairwise (· ⊆ ·) := by
  induction left generalizing k st g samples with
  | zero =>
    cases hOut
    exact List.pairwise_singleton _ _
  | succ left ih =>
    obtain ⟨st₁, g₁, rest, hNext, hRest, rfl⟩ := handOut_succ hOut
    have hTail := ih (h.next hNext) (Nat.succ_pos k) (by omega) hRest
    obtain ⟨_, _, hGrow⟩ := h.1.of_next hNext
    have hSub : st.subset ⊆ st₁.subset := by
      apply hGrow
      rw [h.2]
      intro hZero
      have := Combination.toInt_eq_zero (by omega) hZero
      omega
    refine List.pairwise_cons.mpr ⟨?_, hTail⟩
    intro sample hMem
    rcases List.mem_cons.mp hMem with rfl | hMem
    · exact hSub
    · exact hSub.trans ((List.pairwise_cons.mp hTail).1 sample hMem)

theorem Drawn.card_lt (h : Drawn tries 0 st) (hPos : 0 < st.size)
    (hNext : st.next g = some (true, st', g')) : st'.subset.card < st.size := by
  have hFirst : st.iter = 0 := by rw [h.2, toInt_zero]
  rw [h.1.next_eq, hFirst, if_neg (not_lt.mpr (Int.natCast_nonneg tries)), if_pos rfl] at hNext
  obtain ⟨r, hRun, hEq⟩ := Option.map_eq_some_iff.mp hNext
  cases hEq
  obtain ⟨sz, hSize, hRest⟩ := Option.bind_eq_some_iff.mp hRun
  obtain ⟨q, _, rfl⟩ := Option.map_eq_some_iff.mp hRest
  have hLt : sz.1 < st.size := by
    unfold UnixRandom.random at hSize
    split at hSize
    · cases hSize
      exact UnixRandom.draw_lt hPos g
    · cases hSize
  calc (∅ ∪ (q.1.take sz.1).toFinset).card
      = (q.1.take sz.1).toFinset.card := by rw [Finset.empty_union]
    _ ≤ (q.1.take sz.1).length := List.toFinset_card_le _
    _ ≤ sz.1 := List.length_take_le _ _
    _ < st.size := hLt

end PowersetState

namespace Combination

structure Drawn (tries : Nat) (cl : List Nat) (k : Nat) (c : Combination) : Prop where
  ceils : c.ceils = cl
  many : c.deterministicThreshold < c.ceils.length
  tries : c.randomTries = tries
  iter : c.iter = toInt k

variable {tries k : Nat} {cl : List Nat} {c c' : Combination} {g g' : UnixRandom}

theorem drawn_of_ceilings {threshold : Int} (hMany : threshold < cl.length)
    (hInit : ceilings threshold tries cl = some c) : Drawn tries cl 0 c := by
  unfold ceilings at hInit
  split at hInit
  · cases hInit
  · cases hInit
    refine ⟨rfl, hMany, rfl, ?_⟩
    rw [toInt_zero]

theorem Drawn.next_eq (h : Drawn tries cl k c) : c.next g =
    if (tries : Int) < toInt k then some (false, c, g)
    else (randSubset cl g).map fun r =>
      (true, { c with subset := r.1, iter := toInt ((k + 1 : Nat) : Int) }, r.2) := by
  have hStep : toInt (toInt k + 1) = toInt ((k + 1 : Nat) : Int) := toInt_add_one k
  rw [Combination.next, if_pos h.many, h.tries, h.iter, h.ceils, hStep]

theorem Drawn.next (h : Drawn tries cl k c) (hNext : c.next g = some (true, c', g')) :
    Drawn tries cl (k + 1) c' := by
  rw [h.next_eq] at hNext
  split at hNext
  · cases hNext
  · obtain ⟨r, _, hEq⟩ := Option.map_eq_some_iff.mp hNext
    cases hEq
    exact ⟨h.ceils, h.many, h.tries, by dsimp only⟩

def tupleOf : List Nat → (Nat → Fin randRange) → List Nat
  | [], _ => []
  | c :: cl, draws => (c + 1) * (draws 0).val / randRange :: tupleOf cl fun i => draws (i + 1)

theorem randSubset_eq (hAccepted : ∀ c ∈ cl, c + 1 ≤ maxCeil) (g : UnixRandom) :
    ∃ g', randSubset cl g = some (tupleOf cl fun i => g.source (g.drawn + i), g') := by
  induction cl generalizing g with
  | nil => exact ⟨g, rfl⟩
  | cons c cl ih =>
    obtain ⟨hFirst, hRest⟩ := List.forall_mem_cons.mp hAccepted
    obtain ⟨g', hg'⟩ := ih hRest
      ⟨g.choices ++ [UInt8.ofNat (g.draw (c + 1))], g.source, g.drawn + 1⟩
    refine ⟨g', ?_⟩
    rw [randSubset, UnixRandom.random, if_pos hFirst, Option.bind_some, hg', Option.map_some,
      tupleOf]
    simp only [Nat.add_zero, Nat.add_right_comm, Nat.add_assoc, UnixRandom.draw]

theorem exists_draw {ceil t : Nat} (hCeil : ceil ≤ randRange) (ht : t < ceil) :
    ∃ x : Fin randRange, ceil * x.val / randRange = t := by
  have hPos : 0 < ceil := Nat.zero_lt_of_lt ht
  have hRange := randRange_pos
  -- the least number whose product reaches t times the range
  let x := (t * randRange + (ceil - 1)) / ceil
  have hLow : t * randRange ≤ ceil * x := by
    have hMod := Nat.div_add_mod (t * randRange + (ceil - 1)) ceil
    have hLt := Nat.mod_lt (t * randRange + (ceil - 1)) hPos
    change t * randRange ≤ ceil * ((t * randRange + (ceil - 1)) / ceil)
    omega
  have hHigh : ceil * x < (t + 1) * randRange := by
    have hLe := Nat.mul_div_le (t * randRange + (ceil - 1)) ceil
    change ceil * ((t * randRange + (ceil - 1)) / ceil) < _
    rw [Nat.succ_mul]
    omega
  have hx : x < randRange := by
    have hBound : ceil * x < ceil * randRange :=
      hHigh.trans_le (Nat.mul_le_mul_right _ ht)
    exact Nat.lt_of_mul_lt_mul_left hBound
  refine ⟨⟨x, hx⟩, ?_⟩
  exact Nat.div_eq_of_lt_le hLow hHigh

theorem exists_tupleOf (hAccepted : ∀ c ∈ cl, c + 1 ≤ maxCeil) {t : List Nat}
    (hBounded : Bounded cl t) : ∃ draws, tupleOf cl draws = t := by
  induction hBounded with
  | nil => exact ⟨fun _ => ⟨0, randRange_pos⟩, rfl⟩
  | @cons c x cl xs hx hxs ih =>
    obtain ⟨hFirst, hRest⟩ := List.forall_mem_cons.mp hAccepted
    obtain ⟨draws, rfl⟩ := ih hRest
    have hRange : maxCeil ≤ randRange := by decide
    obtain ⟨first, hEq⟩ := exists_draw (hFirst.trans hRange) (Nat.lt_succ_of_le hx)
    refine ⟨fun i => if i = 0 then first else draws (i - 1), ?_⟩
    rw [tupleOf, if_pos rfl, hEq]
    rfl

theorem Drawn.next_of_le (h : Drawn tries cl k c) (hAccepted : ∀ c ∈ cl, c + 1 ≤ maxCeil)
    (hLe : k ≤ tries) (hInt : tries < 2 ^ 31) : ∃ c' g', c.next g = some (true, c', g') ∧
      c'.subset = tupleOf cl fun i => g.source (g.drawn + i) := by
  have hIter : toInt k = k := toInt_eq (Int.natCast_nonneg k) (by omega)
  obtain ⟨g', hRun⟩ := randSubset_eq hAccepted g
  rw [h.next_eq, hIter, if_neg (by omega), hRun]
  exact ⟨_, g', rfl, rfl⟩

theorem Drawn.handOut_all (h : Drawn tries cl k c) (hAccepted : ∀ c ∈ cl, c + 1 ≤ maxCeil)
    (hInt : tries < 2 ^ 31) (left : Nat) (hLeft : k + left ≤ tries + 1) :
    ∃ samples c' g', handOut Combination.next subset left c g = some (samples, c', g') := by
  induction left generalizing k c g with
  | zero => exact ⟨[], c, g, rfl⟩
  | succ left ih =>
    obtain ⟨c₁, g₁, hNext, _⟩ := h.next_of_le (g := g) hAccepted (by omega) hInt
    obtain ⟨samples, c', g', hRest⟩ := ih (g := g₁) (h.next hNext) (by omega)
    exact ⟨_, c', g', handOut_cons hNext hRest⟩

/-- Above the threshold `tries + 1` combinations are handed out, one more than asked for. -/
theorem samples_one_more {threshold : Int} (hMany : threshold < cl.length)
    (hAccepted : ∀ c ∈ cl, c + 1 ≤ maxCeil) (hInt : tries + 1 < 2 ^ 31)
    (hInit : ceilings threshold tries cl = some c) (g : UnixRandom) :
    Samples Combination.next subset c (tries + 1) (Bounded cl) g := by
  have hDrawn := drawn_of_ceilings hMany hInit
  have hAfter : ∀ {k g samples c' g'},
      handOut Combination.next subset k c g = some (samples, c', g') → Drawn tries cl k c' := by
    intro k g samples c' g' hOut
    have hRun := handOut_invariant (fun _ _ _ _ _ h hNext => Drawn.next h hNext) hDrawn hOut
    rwa [Nat.zero_add] at hRun
  have hNext : ∀ {k c' g'}, Drawn tries cl k c' →
      c'.next g' = some (false, c', g') ∨ ∃ c'' g'', c'.next g' = some (true, c'', g'') ∧
        c''.subset = tupleOf cl fun i => g'.source (g'.drawn + i) := by
    intro k c' g' h
    rw [h.next_eq]
    split
    · exact .inl rfl
    · obtain ⟨g'', hRun⟩ := randSubset_eq hAccepted g'
      rw [hRun]
      exact .inr ⟨_, _, rfl, rfl⟩
  constructor
  · obtain ⟨samples, c', g', hOut⟩ := hDrawn.handOut_all (g := g) hAccepted (by omega)
      (tries + 1) (by omega)
    refine ⟨samples, c', g', c', g', hOut, ?_⟩
    rw [(hAfter hOut).next_eq, toInt_eq (Int.natCast_nonneg _) (by omega), if_pos (by omega)]
  · refine ⟨tupleOf cl, ?_⟩
    intro k g samples c' g' c'' g'' hOut hTrue
    rcases hNext (hAfter hOut) with hFalse | ⟨_, _, hEq, hSample⟩
    · cases hFalse.symm.trans hTrue
    · cases hEq.symm.trans hTrue
      exact hSample
  · intro t ht
    obtain ⟨draws, rfl⟩ := exists_tupleOf hAccepted ht
    obtain ⟨c', g', hTrue, hSample⟩ := hDrawn.next_of_le (g := ⟨[], draws, 0⟩) hAccepted
      (Nat.zero_le _) (by omega)
    refine ⟨1, ⟨[], draws, 0⟩, _, _, handOut_cons hTrue rfl, ?_⟩
    rw [List.mem_singleton, hSample]
    simp only [Nat.zero_add]
  · intro k samples c' g' hOut
    rcases hNext (hAfter hOut) with hFalse | ⟨_, _, hEq, _⟩
    · rw [hFalse]
      rfl
    · rw [hEq]
      rfl

theorem samples_one_more_default :
    ∃ c, ceilings 3 10 [1, 2, 1, 2] = some c ∧
      Samples Combination.next subset c 11 (Bounded [1, 2, 1, 2]) zeroRand :=
  ⟨_, rfl, samples_one_more (by decide) (by decide) (by decide) rfl zeroRand⟩

end Combination

/-- The counters are compared too late, so neither class stops after as many samples as it was
told, whatever it draws. -/
theorem samples_never (threshold : Int) (tries : Nat) (hInt : tries < 2 ^ 31) (g : UnixRandom) :
    (∀ n : Nat, threshold < n → ¬Samples PowersetState.next PowersetState.subset
      (.init n .unordered threshold tries) tries (· ⊆ Finset.range n) g) ∧
    ∀ cl c, threshold < cl.length → Combination.ceilings threshold tries cl = some c →
      ¬Samples Combination.next Combination.subset c tries (Bounded cl) g := by
  have hIter : toInt tries = tries := Combination.toInt_eq (Int.natCast_nonneg _) (by omega)
  constructor
  · intro n hn hSamples
    refine not_count (P := PowersetState.Drawn tries) (fun _ _ _ _ _ h hNext => h.next hNext)
      ⟨⟨rfl, hn, rfl⟩, toInt_zero.symm⟩ ?_ hSamples.count
    intro st g st' g' h hFalse
    rw [h.1.next_eq, h.2, hIter, if_neg (lt_irrefl _)] at hFalse
    obtain ⟨r, _, hEq⟩ := Option.map_eq_some_iff.mp hFalse
    cases hEq
  · intro cl c hMany hInit hSamples
    refine not_count (P := Combination.Drawn tries cl) (fun _ _ _ _ _ h hNext => h.next hNext)
      (Combination.drawn_of_ceilings hMany hInit) ?_ hSamples.count
    intro c g c' g' h hFalse
    rw [h.next_eq, hIter, if_neg (lt_irrefl _)] at hFalse
    obtain ⟨r, _, hEq⟩ := Option.map_eq_some_iff.mp hFalse
    cases hEq

theorem samples_never_default :
    ¬Samples PowersetState.next PowersetState.subset (.init 4 .unordered 3 10) 10
      (· ⊆ Finset.range 4) Combination.zeroRand ∧
    ∃ c, Combination.ceilings 3 10 [1, 2, 1, 2] = some c ∧
      ¬Samples Combination.next Combination.subset c 10 (Bounded [1, 2, 1, 2])
        Combination.zeroRand := by
  obtain ⟨hSubsets, hTuples⟩ := samples_never 3 10 (by decide) Combination.zeroRand
  constructor
  · exact hSubsets 4 (by decide)
  · exact ⟨_, rfl, hTuples [1, 2, 1, 2] _ (by decide) rfl⟩

def quarters (xs : List Nat) : UnixRandom :=
  ⟨[], fun i => ⟨xs.getD i 0 % 4 * 2 ^ 29, by rw [randRange]; omega⟩, 0⟩

/-- Two subsets instead of one, the second with the elements of the first although its own draws are
the same both times. -/
theorem two_samples_of_one :
    (handOut PowersetState.next PowersetState.subset 2 (.init 4 .unordered 3 1)
      (quarters [1, 0, 1, 1])).map Prod.fst = some [{0}, {0, 1}] ∧
    (handOut PowersetState.next PowersetState.subset 2 (.init 4 .unordered 3 1)
      (quarters [1, 2, 1, 1])).map Prod.fst = some [{2}, {1, 2}] ∧
    (PowersetState.next (.init 256 .unordered 3 1) (quarters [])).isNone := by
  decide +kernel

/-- The subsets of a random enumeration only grow, from one that is not the whole set. -/
theorem samples_chain {n tries left : Nat} {threshold : Int} (hMany : threshold < n) (hPos : 0 < n)
    (hInt : left < 2 ^ 32) {g g' : UnixRandom} {samples : List (Finset Nat)} {st : PowersetState}
    (hOut : handOut PowersetState.next PowersetState.subset left
      (.init n .unordered threshold tries) g = some (samples, st, g')) :
    samples.Pairwise (· ⊆ ·) ∧ ∀ first ∈ samples.head?, first.card < n := by
  have hDrawn : PowersetState.Drawn tries 0 (.init n .unordered threshold tries) :=
    ⟨⟨rfl, hMany, rfl⟩, toInt_zero.symm⟩
  cases left with
  | zero =>
    cases hOut
    simp
  | succ left =>
    obtain ⟨st₁, g₁, rest, hNext, hRest, rfl⟩ := handOut_succ hOut
    constructor
    · exact (hDrawn.next hNext).samples_grow Nat.one_pos (by omega) hRest
    · rintro _ ⟨⟩
      exact hDrawn.card_lt hPos hNext

theorem samples_chain_two :
    ∃ samples ∈ (handOut PowersetState.next PowersetState.subset 2 (.init 4 .unordered 3 1)
        (quarters [1, 0, 1, 1])).map Prod.fst,
      samples.Pairwise (· ⊆ ·) ∧ ∀ first ∈ samples.head?, first.card < 4 := by
  have hRun : (handOut PowersetState.next PowersetState.subset 2 (.init 4 .unordered 3 1)
      (quarters [1, 0, 1, 1])).map Prod.fst = some [{0}, {0, 1}] := by decide +kernel
  obtain ⟨⟨samples, st, g'⟩, hOut, _⟩ := Option.map_eq_some_iff.mp hRun
  rw [hOut]
  exact ⟨samples, rfl, @samples_chain 4 1 2 3 (by decide) (by decide) (by decide) _ _ _ _ hOut⟩

end Explode.Crash
