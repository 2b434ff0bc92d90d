import Explode.Lib.Machine
import Explode.Lib.MixedRadix
import Explode.Mcl.Random
import Mathlib.Data.List.Forall2

/-!
# Enumerating combinations

`Combination` runs through the tuples below given ceilings, all of them in
order if there are few positions, a number of random ones otherwise. Its
counters are of type `int`.
-/

namespace Explode.Crash

open Machine MixedRadix Mcl

def toInt (n : Int) : Int := n.bmod (2 ^ 32)

structure Combination where
  deterministicThreshold : Int
  randomTries : Int
  total : Int
  iter : Int
  ceils : List Nat
  subset : List Nat
  deriving DecidableEq, Repr

namespace Combination

def ceilings (deterministicThreshold randomTries : Int) (cl : List Nat) : Option Combination :=
  if 0 ∈ cl then none
  else
    let total := cl.foldl (fun total (c : Nat) => toInt (total * (c + 1))) 1
    some ⟨deterministicThreshold, randomTries, if total < 0 then 1000000 else total, 0, cl, []⟩

/-- `rand_subset`, which asks for a number up to each ceiling. -/
def randSubset : List Nat → UnixRandom → Option (List Nat × UnixRandom)
  | [], g => some ([], g)
  | c :: ceils, g =>
    (g.random (c + 1)).bind fun r =>
      (randSubset ceils r.2).map fun rest => (r.1 :: rest.1, rest.2)

/-- The answer is false at the end, and missing after a failed assertion. The loop of the source
goes from the last position to the first. -/
def next (c : Combination) (g : UnixRandom) : Option (Bool × Combination × UnixRandom) :=
  if c.deterministicThreshold < c.ceils.length then
    if c.randomTries < c.iter then some (false, c, g)
    else
      (randSubset c.ceils g).map fun r =>
        (true, { c with subset := r.1, iter := toInt (c.iter + 1) }, r.2)
  else if c.iter = 0 then
    some (true, { c with subset := List.replicate c.ceils.length 0, iter := toInt (c.iter + 1) }, g)
  else if c.subset.length ≠ c.ceils.length then none
  else
    let bumped := increment c.ceils.reverse c.subset.reverse
    let c := { c with subset := bumped.2.reverse }
    if bumped.1 then some (true, { c with iter := toInt (c.iter + 1) }, g)
    else if c.iter = c.total then some (false, c, g)
    else none

/-- Between two calls the tuple is within the ceilings, but for the first call. -/
def Fits (c : Combination) : Prop := c.iter ≠ 0 → Bounded c.ceils c.subset

variable {c c' : Combination} {g g' : UnixRandom}

theorem fits_of_ceilings {threshold tries : Int} {cl : List Nat}
    (hInit : ceilings threshold tries cl = some c) : c.Fits ∧ c.ceils = cl := by
  unfold ceilings at hInit
  split at hInit
  · cases hInit
  · cases hInit
    constructor
    · intro hIter
      exact absurd rfl hIter
    · rfl

theorem bounded_randSubset {ceils : List Nat} {r : List Nat × UnixRandom}
    (hRun : randSubset ceils g = some r) : Bounded ceils r.1 := by
  induction ceils generalizing g r with
  | nil =>
    cases hRun
    exact .nil
  | cons c ceils ih =>
    obtain ⟨first, hFirst, hRest⟩ := Option.bind_eq_some_iff.mp hRun
    obtain ⟨rest, hTail, rfl⟩ := Option.map_eq_some_iff.mp hRest
    have hDigit : first.1 ≤ c := by
      unfold UnixRandom.random at hFirst
      split at hFirst
      · cases hFirst
        exact Nat.le_of_lt_succ (UnixRandom.draw_lt (Nat.succ_pos c) g)
      · cases hFirst
    exact .cons hDigit (ih hTail)

theorem bounded_of_next (hFits : c.Fits) (hNext : c.next g = some (true, c', g')) :
    Bounded c'.ceils c'.subset ∧ c'.ceils = c.ceils := by
  unfold next at hNext
  split at hNext
  · split at hNext
    · cases hNext
    · obtain ⟨r, hRun, hEq⟩ := Option.map_eq_some_iff.mp hNext
      cases hEq
      exact ⟨bounded_randSubset hRun, rfl⟩
  · split at hNext
    · cases hNext
      exact ⟨bounded_zeros _, rfl⟩
    · rename_i hIter
      split at hNext
      · cases hNext
      · have hRev := (hFits hIter).reverse
        simp only at hNext
        split at hNext
        · rename_i hMore
          cases hNext
          rcases increment_spec hRev with ⟨_, hBounded, _⟩ | ⟨hLast, _⟩
          · have hBack := hBounded.reverse
            rw [List.reverse_reverse] at hBack
            exact ⟨hBack, rfl⟩
          · rw [hLast] at hMore
            cases hMore
        · split at hNext
          · cases hNext
          · cases hNext

def index (c : Combination) : Nat := value c.ceils.reverse c.subset.reverse

/-- After k tuples of a deterministic enumeration. -/
structure Counted (c : Combination) (k : Nat) : Prop where
  few : (c.ceils.length : Int) ≤ c.deterministicThreshold
  fits : card c.ceils < 2 ^ 32
  iter : c.iter = toInt k
  bounded : 0 < k → Bounded c.ceils c.subset
  index : 0 < k → c.index + 1 = k

theorem toInt_eq {n : Int} (hLow : 0 ≤ n) (hHigh : n < 2 ^ 31) : toInt n = n := by
  rw [toInt, Int.bmod_def]
  split
  · omega
  · omega

theorem foldl_total {cl : List Nat} (acc : Nat) (hSmall : acc * card cl < 2 ^ 31) :
    cl.foldl (fun total (c : Nat) => toInt (total * (c + 1))) (acc : Int) =
      (acc * card cl : Nat) := by
  induction cl generalizing acc with
  | nil => simp [card]
  | cons c cl ih =>
    rw [card, ← Nat.mul_assoc] at hSmall ⊢
    have hAcc : acc * (c + 1) < 2 ^ 31 :=
      Nat.lt_of_le_of_lt (Nat.le_mul_of_pos_right _ (card_pos cl)) hSmall
    have hStep : toInt ((acc : Int) * (c + 1)) = ((acc * (c + 1) : Nat) : Int) := by
      rw [toInt_eq]
      · rw [Int.natCast_mul]
        rfl
      · exact Int.mul_nonneg (Int.natCast_nonneg acc) (by omega)
      · exact Int.ofNat_lt.mpr hAcc
    rw [List.foldl_cons, hStep]
    exact ih _ hSmall

theorem counted_of_ceilings (tries : Int) {threshold : Int} {cl : List Nat}
    (hFew : (cl.length : Int) ≤ threshold) (hPos : 0 ∉ cl) (hSmall : card cl < 2 ^ 31) :
    ∃ c, ceilings threshold tries cl = some c ∧ c.ceils = cl ∧ c.total = card cl ∧
      c.Counted 0 := by
  rw [ceilings, if_neg hPos]
  refine ⟨_, rfl, rfl, ?_, hFew, by simp only; omega, rfl, fun h => absurd h (Nat.lt_irrefl 0),
    fun h => absurd h (Nat.lt_irrefl 0)⟩
  have hTotal : cl.foldl (fun total (c : Nat) => toInt (total * (c + 1))) 1 = (card cl : Int) := by
    have hFold := foldl_total 1 (by rwa [Nat.one_mul])
    rwa [Nat.one_mul] at hFold
  simp only [hTotal]
  rw [if_neg]
  omega

theorem toInt_add_one (n : Int) : toInt (toInt n + 1) = toInt (n + 1) :=
  Int.bmod_add_bmod

theorem toInt_eq_zero {n : Nat} (hn : n < 2 ^ 32) (hZero : toInt n = 0) : n = 0 := by
  rw [toInt, Int.bmod_def] at hZero
  split at hZero
  · omega
  · omega

theorem Counted.iter_ne_zero {k : Nat} (hCounted : c.Counted k) (hPos : 0 < k)
    (hLe : k ≤ card c.ceils) : c.iter ≠ 0 := by
  intro hZero
  rw [hCounted.iter] at hZero
  have := toInt_eq_zero (hLe.trans_lt hCounted.fits) hZero
  omega

theorem next_counted {k : Nat} (hCounted : c.Counted k) (g : UnixRandom)
    (hMore : k < card c.ceils) :
    ∃ c', c.next g = some (true, c', g) ∧ c'.ceils = c.ceils ∧ c'.total = c.total ∧
      c'.Counted (k + 1) := by
  have hIter : toInt (c.iter + 1) = toInt ((k + 1 : Nat) : Int) := by
    rw [hCounted.iter, toInt_add_one]
    rfl
  rw [next, if_neg (not_lt.mpr hCounted.few)]
  cases k with
  | zero =>
    have hZero : c.iter = 0 := hCounted.iter
    rw [if_pos hZero]
    refine ⟨_, rfl, rfl, rfl, hCounted.few, hCounted.fits, hIter, ?_, ?_⟩
    · intro _
      exact bounded_zeros _
    · intro _
      have hValue := value_zeros c.ceils.reverse
      rw [List.length_reverse] at hValue
      simp only [Combination.index, List.reverse_replicate, hValue]
  | succ k =>
    have hBounded := hCounted.bounded (Nat.succ_pos k)
    have hIndex := hCounted.index (Nat.succ_pos k)
    rw [if_neg (hCounted.iter_ne_zero (Nat.succ_pos k) hMore.le),
      if_neg (not_not.mpr hBounded.length_eq)]
    rcases increment_spec hBounded.reverse with ⟨hTrue, hNext, hValue⟩ | ⟨_, hCard⟩
    · simp only [hTrue, if_true]
      refine ⟨_, rfl, rfl, rfl, hCounted.few, hCounted.fits, hIter, ?_, ?_⟩
      · intro _
        have hBack := hNext.reverse
        rwa [List.reverse_reverse] at hBack
      · intro _
        simp only [Combination.index, List.reverse_reverse, hValue]
        exact congrArg (· + 1) hIndex
    · rw [card_reverse] at hCard
      have hLast : k + 1 = card c.ceils := hIndex.symm.trans hCard
      omega

theorem next_counted_end (hCounted : c.Counted (card c.ceils)) (g : UnixRandom) :
    ∃ c', c.next g = if c.iter = c.total then some (false, c', g) else none := by
  have hBounded := hCounted.bounded (card_pos _)
  have hIndex : value c.ceils.reverse c.subset.reverse + 1 = card c.ceils :=
    hCounted.index (card_pos _)
  rw [next, if_neg (not_lt.mpr hCounted.few), if_neg (hCounted.iter_ne_zero (card_pos _) le_rfl),
    if_neg (not_not.mpr hBounded.length_eq)]
  rcases increment_spec hBounded.reverse with ⟨_, hNext, hValue⟩ | ⟨hFalse, _⟩
  · have hLt := hNext.value_lt
    rw [card_reverse, hValue] at hLt
    omega
  · simp only [hFalse, Bool.false_eq_true, if_false]
    exact ⟨_, rfl⟩

/-- The tuples by their places in the enumeration. -/
theorem handOut_ceilings (tries : Int) {threshold : Int} {cl : List Nat} (g : UnixRandom)
    (hFew : (cl.length : Int) ≤ threshold) (hPos : 0 ∉ cl) (hSmall : card cl < 2 ^ 31) :
    ∃ c tuples c' c'', ceilings threshold tries cl = some c ∧
      handOut next subset (card cl) c g = some (tuples, c', g) ∧
      c'.next g = some (false, c'', g) ∧ (∀ t ∈ tuples, Bounded cl t) ∧
      tuples.map (fun t => value cl.reverse t.reverse) = List.range' 0 (card cl) := by
  obtain ⟨c, hInit, hCeils, hTotal, hCounted⟩ := counted_of_ceilings tries hFew hPos hSmall
  have hNext : ∀ k (c : Combination), c.Counted k ∧ c.ceils = cl ∧ c.total = card cl → k < card cl →
      ∃ c', c.next g = some (true, c', g) ∧ c'.Counted (k + 1) ∧ c'.ceils = cl ∧
        c'.total = card cl := by
    rintro k c ⟨hCounted, rfl, hTotal⟩ hLt
    obtain ⟨c', hNext, hCeils', hTotal', hCounted'⟩ := next_counted hCounted g hLt
    exact ⟨c', hNext, hCounted', hCeils', hTotal'.trans hTotal⟩
  obtain ⟨tuples, c', hOut, ⟨hCounted', rfl, hTotal'⟩, hEach⟩ :=
    handOut_counted subset hNext ⟨hCounted, hCeils, hTotal⟩ (Nat.zero_add (card cl))
  obtain ⟨c'', hLast⟩ := next_counted_end hCounted' g
  have hIter : c'.iter = c'.total := by
    rw [hCounted'.iter, hTotal', toInt_eq]
    · omega
    · omega
  rw [if_pos hIter] at hLast
  have hPlaces : List.Forall₂ (fun t k => Bounded c'.ceils t ∧
      value c'.ceils.reverse t.reverse = k) tuples (List.range' 0 (card c'.ceils)) := by
    refine hEach.imp ?_
    rintro _ k ⟨d, ⟨hCounted, hSame, _⟩, rfl⟩
    have hIndex := hCounted.index (Nat.succ_pos k)
    rw [← hSame]
    exact ⟨hCounted.bounded (Nat.succ_pos k), Nat.succ.inj hIndex⟩
  obtain ⟨hBounded, hValues⟩ := (List.forall₂_and_left _ _).mp hPlaces
  refine ⟨c, tuples, c', c'', hInit, hOut, hLast, hBounded, ?_⟩
  rw [← List.forall₂_eq_eq_eq]
  exact List.forall₂_map_left_iff.mpr hValues

theorem mem_of_values {cl : List Nat} {tuples : List (List Nat)}
    (hBounded : ∀ t ∈ tuples, Bounded cl t)
    (hValues : tuples.map (fun t => value cl.reverse t.reverse) = List.range' 0 (card cl))
    {t : List Nat} (ht : Bounded cl t) : t ∈ tuples := by
  have hLt := ht.reverse.value_lt
  rw [card_reverse] at hLt
  have hMem : value cl.reverse t.reverse ∈ tuples.map fun t => value cl.reverse t.reverse := by
    rw [hValues]
    exact List.mem_range'_1.mpr ⟨Nat.zero_le _, by omega⟩
  obtain ⟨s, hs, hEq⟩ := List.mem_map.mp hMem
  have hRev := (hBounded s hs).reverse.eq_of_value_eq ht.reverse hEq
  rwa [← List.reverse_injective hRev]

/-- All tuples below the ceilings are handed out in lexicographic order, and then `next` returns
false. -/
theorem next_exact (threshold tries : Int) (cl : List Nat) (g : UnixRandom) (hPos : 0 ∉ cl)
    (hFew : (cl.length : Int) ≤ threshold) (hSmall : (cl.map (· + 1)).prod < 2 ^ 31) :
    ∃ c tuples c' c'', ceilings threshold tries cl = some c ∧
      handOut next subset (cl.map (· + 1)).prod c g = some (tuples, c', g) ∧
      tuples.Pairwise (· < ·) ∧ (∀ t, t ∈ tuples ↔ Bounded cl t) ∧
      c'.next g = some (false, c'', g) := by
  rw [← card_eq_prod] at hSmall ⊢
  obtain ⟨c, tuples, c', c'', hInit, hOut, hLast, hBounded, hValues⟩ :=
    handOut_ceilings tries g hFew hPos hSmall
  refine ⟨c, tuples, c', c'', hInit, hOut, ?_, fun t => ?_, hLast⟩
  · have hSorted : (tuples.map fun t => value cl.reverse t.reverse).Pairwise (· < ·) := by
      rw [hValues]
      exact List.pairwise_lt_range'
    exact (List.pairwise_map.mp hSorted).imp_of_mem fun hs ht hLt =>
      (hBounded _ hs).lt_of_value_lt (hBounded _ ht) hLt
  · exact ⟨hBounded t, mem_of_values hBounded hValues⟩

def zeroRand : UnixRandom := ⟨[], fun _ => ⟨0, randRange_pos⟩, 0⟩

/-- Two digits, and the empty vector. -/
theorem next_exact_two :
    (∃ c tuples c' c'', ceilings 3 9 [1, 2] = some c ∧
      handOut next subset 6 c zeroRand = some (tuples, c', zeroRand) ∧
      tuples.Pairwise (· < ·) ∧ (∀ t, t ∈ tuples ↔ Bounded [1, 2] t) ∧
      c'.next zeroRand = some (false, c'', zeroRand)) ∧
    ∃ c tuples c' c'', ceilings 3 9 [] = some c ∧
      handOut next subset 1 c zeroRand = some (tuples, c', zeroRand) ∧
      tuples.Pairwise (· < ·) ∧ (∀ t, t ∈ tuples ↔ Bounded [] t) ∧
      c'.next zeroRand = some (false, c'', zeroRand) := by
  constructor
  · exact next_exact 3 9 [1, 2] zeroRand (by decide) (by decide) (by decide)
  · exact next_exact 3 9 [] zeroRand (by decide) (by decide) (by decide)

end Combination

end Explode.Crash
