import Explode.Crash.Combination
import Mathlib.Data.Finset.Lattice.Basic
import Mathlib.Data.Finset.Range
import Mathlib.Data.List.Nodup
import Mathlib.Data.Nat.Log
import Mathlib.Data.Nat.Bitwise
import Mathlib.Data.Nat.Size
import Mathlib.Tactic.Ring

/-!
# Enumerating subsets

`Powerset` runs through the subsets of the numbers below a size, in the order of
a table: the subsets of a smaller size come first. Other modes give the whole set
or the initial segments only, or draw random subsets.
-/

namespace Explode.Crash

open Mcl

def maxSet : Nat := 10

/-- `gen_powerset_`, with sets as increasing lists. -/
def genPowerset : Nat → List (List Nat)
  | 0 => [[]]
  | n + 1 => genPowerset n ++ (genPowerset n).map (· ++ [n])

def findOrder (x : Nat) : Nat := x.log2 + if x &&& (x - 1) = 0 then 0 else 1

structure Powerset where
  size : Nat
  iter : Nat
  skipTable : List Nat
  deriving DecidableEq, Repr

namespace Powerset

def init (n : Nat) : Powerset := ⟨n, 0, []⟩

/-- The loop of `next` over the table, with the number of entries that are left. A test past the
end of the table throws. -/
def skip (ps : Powerset) : Nat → Nat → Option Nat
  | 0, iter => if iter < 2 ^ maxSet then some iter else none
  | n + 1, iter =>
    if iter < 2 ^ maxSet then
      if iter ∈ ps.skipTable then ps.skip n (iter + 1) else some iter
    else none

/-- `next`. The answer is missing when it throws, and without a subset at the end. -/
def next (ps : Powerset) : Option (Option (List Nat × Powerset)) :=
  (ps.skip (2 ^ ps.size - ps.iter) ps.iter).map fun iter =>
    if iter = 2 ^ ps.size then none
    else some ((genPowerset maxSet).getD iter [], { ps with iter := iter + 1 })

/-- `skip_prefix`, which sets every entry at the right distance from the last one. -/
def skipPrefix (ps : Powerset) : Powerset :=
  { ps with
    skipTable := ps.skipTable ++ (List.range (2 ^ ps.size)).filter fun i =>
      ps.iter - 1 ≤ i ∧ (i - (ps.iter - 1)) % 2 ^ findOrder ps.iter = 0 }

end Powerset

inductive SetType
  | atomic
  | leftToRight
  | unordered
  | interleaved
  deriving DecidableEq, Repr

structure PowersetState where
  type : SetType
  deterministicThreshold : Int
  randomTries : Int
  size : Nat
  iter : Int
  subset : Finset Nat
  skipTable : List Nat
  deriving DecidableEq

namespace PowersetState

def init (n : Nat) (t : SetType) (deterThresh randTries : Int) : PowersetState :=
  ⟨t, deterThresh, randTries, n, 0, ∅, []⟩

/-- The loop of `rand_subset` that exchanges elements, from the i-th on. -/
def exchange (size : Nat) : Nat → Nat → List Nat → UnixRandom → Option (List Nat × UnixRandom)
  | 0, _, randSet, g => some (randSet, g)
  | left + 1, i, randSet, g =>
    (g.random (size - i)).bind fun j =>
      exchange size left (i + 1)
        ((randSet.set j.1 (randSet.getD i 0)).set i (randSet.getD j.1 0)) j.2

/-- `rand_subset` inserts into the set that it is given. -/
def randSubset (size : Nat) (subset : Finset Nat) (g : UnixRandom) :
    Option (Finset Nat × UnixRandom) :=
  (g.random size).bind fun sz =>
    (exchange size sz.1 0 (List.range size) sz.2).map fun r =>
      (subset ∪ (r.1.take sz.1).toFinset, r.2)

/-- `next`, which clears the set only at the first call. -/
def next (st : PowersetState) (g : UnixRandom) : Option (Bool × PowersetState × UnixRandom) :=
  let st := if st.iter = 0 then { st with subset := ∅ } else st
  let more subset := some (true, { st with subset, iter := toInt (st.iter + 1) }, g)
  match st.type with
  | .atomic => if st.iter = 1 then some (false, st, g) else more (st.subset ∪ Finset.range st.size)
  | .leftToRight =>
    if st.size < st.iter then some (false, st, g)
    else if st.iter = 0 then more st.subset
    else more (insert (st.iter - 1).toNat st.subset)
  | .unordered =>
    if st.size ≤ st.deterministicThreshold then
      match (⟨st.size, st.iter.toNat, st.skipTable⟩ : Powerset).next with
      | none => none
      | some none => some (false, { st with iter := 2 ^ st.size }, g)
      | some (some (s, ps)) => some (true, { st with subset := s.toFinset, iter := ps.iter }, g)
    else if st.randomTries < st.iter then some (false, st, g)
    else
      (randSubset st.size st.subset g).map fun r =>
        (true, { st with subset := r.1, iter := toInt (st.iter + 1) }, r.2)
  | .interleaved => more st.subset

end PowersetState

theorem length_genPowerset (n : Nat) : (genPowerset n).length = 2 ^ n := by
  induction n with
  | zero => rfl
  | succ n ih =>
    rw [genPowerset, List.length_append, List.length_map, ih]
    ring

theorem genPowerset_isPrefix {m n : Nat} (h : m ≤ n) : genPowerset m <+: genPowerset n := by
  induction h with
  | refl => exact List.prefix_rfl
  | step _ ih => exact ih.trans (List.prefix_append _ _)

theorem getElem?_genPowerset {m n i : Nat} (h : m ≤ n) (hi : i < 2 ^ m) :
    (genPowerset n)[i]? = (genPowerset m)[i]? := by
  obtain ⟨rest, hRest⟩ := genPowerset_isPrefix h
  rw [← hRest, List.getElem?_append_left]
  rwa [length_genPowerset]

theorem mem_genPowerset_iff {n : Nat} {s : List Nat} :
    s ∈ genPowerset n ↔ s.Pairwise (· < ·) ∧ ∀ x ∈ s, x < n := by
  induction n generalizing s with
  | zero =>
    rw [genPowerset, List.mem_singleton]
    constructor
    · rintro rfl
      simp
    · rintro ⟨_, hLt⟩
      exact List.eq_nil_iff_forall_not_mem.mpr fun x hx => Nat.not_lt_zero x (hLt x hx)
  | succ n ih =>
    rw [genPowerset, List.mem_append, List.mem_map]
    constructor
    · rintro (hs | ⟨t, ht, rfl⟩)
      · obtain ⟨hSorted, hLt⟩ := ih.mp hs
        exact ⟨hSorted, fun x hx => (hLt x hx).trans (Nat.lt_succ_self n)⟩
      · obtain ⟨hSorted, hLt⟩ := ih.mp ht
        refine ⟨List.pairwise_append.mpr ⟨hSorted, List.pairwise_singleton _ _, ?_⟩, ?_⟩
        · intro x hx y hy
          rw [List.mem_singleton.mp hy]
          exact hLt x hx
        · intro x hx
          rcases List.mem_append.mp hx with hx | hx
          · exact (hLt x hx).trans (Nat.lt_succ_self n)
          · rw [List.mem_singleton.mp hx]
            exact Nat.lt_succ_self n
    · rintro ⟨hSorted, hLt⟩
      by_cases hMem : n ∈ s
      · -- the largest number is the last one
        obtain ⟨front, back, rfl⟩ := List.append_of_mem hMem
        obtain ⟨hFront, hBack, hCross⟩ := List.pairwise_append.mp hSorted
        have hNil : back = [] := by
          refine List.eq_nil_iff_forall_not_mem.mpr fun x hx => ?_
          have hAbove := List.rel_of_pairwise_cons hBack hx
          have hBelow := hLt x (by simp [hx])
          omega
        subst hNil
        refine .inr ⟨front, ih.mpr ⟨hFront, fun x hx => ?_⟩, rfl⟩
        exact hCross x hx n List.mem_cons_self
      · refine .inl (ih.mpr ⟨hSorted, fun x hx => ?_⟩)
        have hBelow := hLt x hx
        have hNe : x ≠ n := fun hEq => hMem (hEq ▸ hx)
        omega

theorem nodup_genPowerset (n : Nat) : (genPowerset n).Nodup := by
  induction n with
  | zero => exact List.nodup_singleton _
  | succ n ih =>
    rw [genPowerset]
    refine List.nodup_append.mpr ⟨ih, ih.map fun s t hEq => List.append_cancel_right hEq, ?_⟩
    rintro s hs t ht rfl
    obtain ⟨t, _, rfl⟩ := List.mem_map.mp ht
    exact Nat.lt_irrefl n ((mem_genPowerset_iff.mp hs).2 n (by simp))

theorem findOrder_succ (i : Nat) : findOrder (i + 1) = Nat.size i := by
  have hPos : i + 1 ≠ 0 := Nat.succ_ne_zero i
  apply Nat.le_antisymm
  · rw [findOrder]
    split_ifs with hPow
    · obtain ⟨k, hk⟩ := (Nat.and_sub_one_eq_zero_iff_isPowerOfTwo hPos).mp hPow
      rw [hk, Nat.log2_two_pow, Nat.add_zero]
      by_contra hSize
      have hLt := Nat.size_le.mp (Nat.le_sub_one_of_lt (not_le.mp hSize))
      have hDouble : 2 ^ k = 2 * 2 ^ (k - 1) := by
        rw [← Nat.pow_succ']
        congr 1
        omega
      have hOne : 0 < 2 ^ (k - 1) := Nat.two_pow_pos _
      omega
    · refine Nat.lt_size.mpr ?_
      have hLe : 2 ^ (i + 1).log2 ≤ i + 1 := Nat.log2_self_le hPos
      have hNe : 2 ^ (i + 1).log2 ≠ i + 1 := fun hEq =>
        hPow ((Nat.and_sub_one_eq_zero_iff_isPowerOfTwo hPos).mpr ⟨_, hEq.symm⟩)
      omega
  · rw [Nat.size_le, findOrder]
    split_ifs with hPow
    · obtain ⟨k, hk⟩ := (Nat.and_sub_one_eq_zero_iff_isPowerOfTwo hPos).mp hPow
      rw [hk, Nat.log2_two_pow, Nat.add_zero]
      omega
    · exact (Nat.lt_succ_self i).trans Nat.lt_log2_self

theorem isPrefix_iff_mod {n i j : Nat} {a b : List Nat} (ha : (genPowerset n)[i]? = some a)
    (hb : (genPowerset n)[j]? = some b) : a <+: b ↔ j % 2 ^ Nat.size i = i := by
  induction n generalizing i j a b with
  | zero =>
    obtain ⟨hi, rfl⟩ := List.getElem?_eq_some_iff.mp ha
    obtain ⟨hj, rfl⟩ := List.getElem?_eq_some_iff.mp hb
    simp only [genPowerset, List.length_singleton, Nat.lt_one_iff] at hi hj
    subst hi hj
    simp
  | succ n ih =>
    have hLast : ∀ {k : Nat} {s : List Nat}, (genPowerset n)[k]? = some s → n ∉ s := fun hs hn =>
      Nat.lt_irrefl n ((mem_genPowerset_iff.mp (List.mem_of_getElem? hs)).2 n hn)
    have hi := (List.getElem?_eq_some_iff.mp ha).1
    have hj := (List.getElem?_eq_some_iff.mp hb).1
    rw [length_genPowerset] at hi hj
    rw [genPowerset, List.getElem?_append, length_genPowerset, List.getElem?_map] at ha hb
    split_ifs at ha with hLeft
    · have hSize : Nat.size i ≤ n := Nat.size_le.mpr hLeft
      split_ifs at hb with hLeft'
      · exact ih ha hb
      · obtain ⟨c, hc, rfl⟩ := Option.map_eq_some_iff.mp hb
        have hDvd : 2 ^ Nat.size i ∣ 2 ^ n := pow_dvd_pow 2 hSize
        have hMod : j % 2 ^ Nat.size i = (j - 2 ^ n) % 2 ^ Nat.size i := by
          obtain ⟨k, rfl⟩ := Nat.exists_eq_add_of_le (not_lt.mp hLeft')
          rw [Nat.add_sub_cancel_left, Nat.add_mod, Nat.mod_eq_zero_of_dvd hDvd, Nat.zero_add,
            Nat.mod_mod]
        rw [hMod, ← ih ha hc, List.prefix_concat_iff]
        refine or_iff_right fun hEq => hLast ha ?_
        simp [hEq]
    · obtain ⟨c, hc, rfl⟩ := Option.map_eq_some_iff.mp ha
      have hSize : Nat.size i = n + 1 :=
        Nat.le_antisymm (Nat.size_le.mpr hi) (Nat.lt_size.mpr (not_lt.mp hLeft))
      rw [hSize, Nat.mod_eq_of_lt hj]
      split_ifs at hb with hLeft'
      · refine iff_of_false (fun hPrefix => hLast hb (hPrefix.subset (by simp))) ?_
        omega
      · obtain ⟨d, hd, rfl⟩ := Option.map_eq_some_iff.mp hb
        constructor
        · intro hPrefix
          rcases List.prefix_concat_iff.mp hPrefix with hEq | hInner
          · have hcd : c = d := List.append_cancel_right hEq
            subst hcd
            have hIndex := (nodup_genPowerset n).getElem_inj_iff.mp
              ((List.getElem?_eq_some_iff.mp hc).2.trans (List.getElem?_eq_some_iff.mp hd).2.symm)
            omega
          · exact absurd (hInner.subset (by simp)) (hLast hd)
        · rintro rfl
          obtain rfl := Option.some.inj (hc.symm.trans hd)
          exact List.prefix_rfl

end Explode.Crash
