import Explode.Crash.Powerset

/-!
# Enumerating with skipped prefixes

After each subset the caller may have all subsets skipped that continue it. The
index of a subset has its numbers as bits, so these are the entries of the table
at a distance that is a power of two.
-/

namespace Explode.Crash

namespace Powerset

/-- The loop of a caller, with a bound on its passes: the subsets in their order, and whether it
called `skip_prefix` after each. -/
def enumerate (wantsSkip : List (List Nat) → Bool) :
    Nat → List (List Nat) → Powerset → Option (List (List Nat × Bool))
  | 0, _, _ => none
  | fuel + 1, done, ps =>
    match ps.next with
    | none => none
    | some none => some []
    | some (some (s, ps)) =>
      let skips := wantsSkip (done ++ [s])
      (enumerate wantsSkip fuel (done ++ [s]) (if skips then ps.skipPrefix else ps)).map
        ((s, skips) :: ·)

def entry (i : Nat) : List Nat := (genPowerset maxSet).getD i []

theorem getElem?_entry {n i : Nat} (hn : n ≤ maxSet) (hi : i < 2 ^ n) :
    (genPowerset n)[i]? = some (entry i) := by
  have hMax : i < (genPowerset maxSet).length := by
    rw [length_genPowerset]
    exact hi.trans_le (Nat.pow_le_pow_right (by decide) hn)
  rw [← getElem?_genPowerset hn hi, entry, List.getD_eq_getElem?_getD,
    List.getElem?_eq_getElem hMax]
  rfl

section
variable {n i j : Nat} (hn : n ≤ maxSet) (hi : i < 2 ^ n) (hj : j < 2 ^ n)
include hn hi hj

theorem entry_isPrefix_iff : entry i <+: entry j ↔ j % 2 ^ Nat.size i = i :=
  isPrefix_iff_mod (getElem?_entry hn hi) (getElem?_entry hn hj)

theorem le_of_entry_isPrefix (h : entry i <+: entry j) : i ≤ j := by
  rw [entry_isPrefix_iff hn hi hj] at h
  rw [← h]
  exact Nat.mod_le _ _

theorem entry_injective (h : entry i = entry j) : i = j :=
  Nat.le_antisymm (le_of_entry_isPrefix hn hi hj (h ▸ List.prefix_rfl))
    (le_of_entry_isPrefix hn hj hi (h ▸ List.prefix_rfl))

end

theorem exists_entry_iff {n : Nat} (hn : n ≤ maxSet) {s : List Nat} :
    (∃ i < 2 ^ n, entry i = s) ↔ s.Pairwise (· < ·) ∧ ∀ x ∈ s, x < n := by
  rw [← mem_genPowerset_iff, List.mem_iff_getElem?]
  constructor
  · rintro ⟨i, hi, rfl⟩
    exact ⟨i, getElem?_entry hn hi⟩
  · rintro ⟨i, hs⟩
    have hi : i < 2 ^ n := by
      rw [← length_genPowerset n]
      exact (List.getElem?_eq_some_iff.mp hs).1
    exact ⟨i, hi, Option.some.inj ((getElem?_entry hn hi).symm.trans hs)⟩

theorem skip_spec (ps : Powerset) {left i last : Nat} (hLeft : i + left = last)
    (hLast : last ≤ 2 ^ maxSet) :
    ∃ j, i ≤ j ∧ j ≤ last ∧ (∀ x, i ≤ x → x < j → x ∈ ps.skipTable) ∧
      (j < last → j ∉ ps.skipTable) ∧
      ps.skip left i = if j < 2 ^ maxSet then some j else none := by
  induction left generalizing i with
  | zero =>
    refine ⟨i, Nat.le_refl i, by omega, fun x hx hx' => by omega, fun hLt => by omega, rfl⟩
  | succ left ih =>
    have hi : i < 2 ^ maxSet := by omega
    by_cases hMem : i ∈ ps.skipTable
    · obtain ⟨j, hLow, hHigh, hAll, hStop, hEq⟩ := @ih (i + 1) (by omega)
      refine ⟨j, by omega, hHigh, fun x hx hx' => ?_, hStop, ?_⟩
      · rcases Nat.eq_or_lt_of_le hx with rfl | hx
        · exact hMem
        · exact hAll x hx hx'
      · rw [skip, if_pos hi, if_pos hMem, hEq]
    · refine ⟨i, Nat.le_refl i, by omega, fun x hx hx' => by omega, fun _ => hMem, ?_⟩
      rw [skip, if_pos hi, if_neg hMem, if_pos hi]

theorem mem_skipPrefix_iff (ps : Powerset) (hn : ps.size ≤ maxSet) {j i : Nat}
    (hIter : ps.iter = j + 1) (hj : j < 2 ^ ps.size) (hi : i < 2 ^ ps.size) :
    i ∈ ps.skipPrefix.skipTable ↔ i ∈ ps.skipTable ∨ entry j <+: entry i := by
  rw [entry_isPrefix_iff hn hj hi, skipPrefix, hIter, findOrder_succ]
  simp only [List.mem_append, List.mem_filter, List.mem_range, Nat.add_sub_cancel,
    decide_eq_true_eq]
  refine or_congr_right ?_
  have hSmall : j < 2 ^ Nat.size j := Nat.lt_size_self j
  constructor
  · rintro ⟨_, hLe, hMod⟩
    obtain ⟨t, ht⟩ := Nat.dvd_of_mod_eq_zero hMod
    obtain rfl : i = j + 2 ^ Nat.size j * t := by omega
    rw [Nat.add_mul_mod_self_left, Nat.mod_eq_of_lt hSmall]
  · intro hMod
    have hSplit := Nat.mod_add_div i (2 ^ Nat.size j)
    rw [hMod] at hSplit
    refine ⟨hi, by omega, ?_⟩
    rw [← hSplit, Nat.add_sub_cancel_left, Nat.mul_mod_right]

/-- Of the subsets passed so far, those left out are those with a skipped proper prefix. -/
structure Enumerated (n : Nat) (ps : Powerset) (run : List (List Nat × Bool)) : Prop where
  size : ps.size = n
  iter : ps.iter ≤ 2 ^ n
  indices : ∃ is : List Nat, run.map Prod.fst = is.map entry ∧ is.Pairwise (· < ·) ∧
    ∀ i ∈ is, i < ps.iter
  complete : ∀ i < ps.iter, entry i ∈ run.map Prod.fst ↔
    ∀ p, p <+: entry i → p ≠ entry i → (p, true) ∉ run
  table : ∀ i < 2 ^ n, i ∈ ps.skipTable ↔ ∃ p, (p, true) ∈ run ∧ p <+: entry i

theorem enumerated_init (n : Nat) : Enumerated n (init n) [] where
  size := rfl
  iter := Nat.zero_le _
  indices := ⟨[], rfl, .nil, by simp⟩
  complete i hi := absurd hi (Nat.not_lt_zero i)
  table i _ := by simp [init]

section
variable {n j : Nat} {ps : Powerset} {run : List (List Nat × Bool)}

theorem Enumerated.exists_index (h : Enumerated n ps run) {p : List Nat} {b : Bool}
    (hp : (p, b) ∈ run) : ∃ i < ps.iter, entry i = p := by
  obtain ⟨is, hMap, _, hLt⟩ := h.indices
  have hMem : p ∈ is.map entry := hMap ▸ List.mem_map_of_mem hp
  obtain ⟨i, hi, hEq⟩ := List.mem_map.mp hMem
  exact ⟨i, hLt i hi, hEq⟩

theorem Enumerated.pass (hn : n ≤ maxSet) (h : Enumerated n ps run) (hLow : ps.iter ≤ j)
    (hHigh : j ≤ 2 ^ n) (hAll : ∀ x, ps.iter ≤ x → x < j → x ∈ ps.skipTable) :
    Enumerated n { ps with iter := j } run where
  size := h.size
  iter := hHigh
  indices := by
    obtain ⟨is, hMap, hSorted, hLt⟩ := h.indices
    exact ⟨is, hMap, hSorted, fun i hi => (hLt i hi).trans_le hLow⟩
  complete i hi := by
    rcases Nat.lt_or_ge i ps.iter with hOld | hNew
    · exact h.complete i hOld
    · have hi' : i < 2 ^ n := Nat.lt_of_lt_of_le hi hHigh
      obtain ⟨p, hp, hPrefix⟩ := (h.table i hi').mp (hAll i hNew hi)
      obtain ⟨a, ha, rfl⟩ := h.exists_index hp
      refine iff_of_false (fun hMem => ?_) fun hNone => hNone _ hPrefix (fun hEq => ?_) hp
      · obtain ⟨⟨_, b⟩, hb, hEq⟩ := List.mem_map.mp hMem
        obtain ⟨c, hc, rfl⟩ := h.exists_index hb
        have := entry_injective hn (by omega) hi' hEq
        omega
      · have := entry_injective hn (by omega) hi' hEq
        omega
  table := h.table

theorem Enumerated.hand_out (hn : n ≤ maxSet) (h : Enumerated n ps run) (hj : ps.iter < 2 ^ n)
    (hFree : ps.iter ∉ ps.skipTable) (b : Bool) :
    Enumerated n
      (if b then { ps with iter := ps.iter + 1 }.skipPrefix else { ps with iter := ps.iter + 1 })
      (run ++ [(entry ps.iter, b)]) := by
  have hNew : ∀ {i : Nat}, i < ps.iter → entry i ≠ entry ps.iter := fun hi hEq => by
    have := entry_injective hn (by omega) hj hEq
    omega
  have hBase : ∀ ps' : Powerset, ps'.size = n → ps'.iter = ps.iter + 1 →
      (∀ i < 2 ^ n, i ∈ ps'.skipTable ↔
        ∃ p, (p, true) ∈ run ++ [(entry ps.iter, b)] ∧ p <+: entry i) →
      Enumerated n ps' (run ++ [(entry ps.iter, b)]) := by
    intro ps' hSize hIter hTable
    refine ⟨hSize, by omega, ?_, ?_, hTable⟩
    · obtain ⟨is, hMap, hSorted, hLt⟩ := h.indices
      refine ⟨is ++ [ps.iter], by simp [hMap], List.pairwise_append.mpr
        ⟨hSorted, List.pairwise_singleton _ _, fun x hx y hy => ?_⟩, fun i hi => ?_⟩
      · rw [List.mem_singleton.mp hy]
        exact hLt x hx
      · rcases List.mem_append.mp hi with hi | hi
        · have := hLt i hi
          omega
        · rw [List.mem_singleton.mp hi]
          omega
    · intro i hi
      rw [hIter] at hi
      rw [List.map_append, List.mem_append]
      rcases Nat.lt_succ_iff_lt_or_eq.mp hi with hOld | rfl
      · -- an entry before does not continue the new one
        have hOther : entry i ∉ [(entry ps.iter, b)].map Prod.fst := by
          simpa using hNew hOld
        rw [or_iff_left hOther, h.complete i hOld]
        refine forall₃_congr fun p hPrefix _ => ?_
        rw [List.mem_append, not_or]
        refine (and_iff_left fun hLast => ?_).symm
        obtain ⟨rfl, _⟩ := Prod.mk.inj (List.mem_singleton.mp hLast)
        have := le_of_entry_isPrefix hn hj (by omega) hPrefix
        omega
      · refine iff_of_true (.inr (by simp)) fun p hPrefix hNe hMem => ?_
        rcases List.mem_append.mp hMem with hMem | hMem
        · exact hFree ((h.table _ hj).mpr ⟨p, hMem, hPrefix⟩)
        · exact hNe (Prod.mk.inj (List.mem_singleton.mp hMem)).1
  have hSize := h.size
  cases b with
  | false =>
    refine hBase _ hSize rfl fun i hi => (h.table i hi).trans ?_
    simp
  | true =>
    refine hBase _ hSize rfl fun i hi => ?_
    subst hSize
    rw [if_pos rfl, mem_skipPrefix_iff { ps with iter := ps.iter + 1 } hn rfl hj hi]
    simp only [h.table i hi, List.mem_append, List.mem_singleton, Prod.mk.injEq, and_true]
    constructor
    · rintro (⟨p, hp, hPrefix⟩ | hPrefix)
      · exact ⟨p, .inl hp, hPrefix⟩
      · exact ⟨_, .inr rfl, hPrefix⟩
    · rintro ⟨p, hp | rfl, hPrefix⟩
      · exact .inl ⟨p, hp, hPrefix⟩
      · exact .inr hPrefix

theorem Enumerated.next_cases (hn : n ≤ maxSet) (h : Enumerated n ps run) :
    (∃ j, ps.iter ≤ j ∧ j < 2 ^ n ∧ j ∉ ps.skipTable ∧
      Enumerated n { ps with iter := j } run ∧
      ps.next = some (some (entry j, { ps with iter := j + 1 }))) ∨
    Enumerated n { ps with iter := 2 ^ n } run ∧
      ps.next = if n < maxSet then some none else none := by
  have hPow : 2 ^ n ≤ 2 ^ maxSet := Nat.pow_le_pow_right (by decide) hn
  obtain ⟨j, hLow, hHigh, hAll, hStop, hEq⟩ := skip_spec ps (Nat.add_sub_of_le h.iter) hPow
  have hPass := h.pass hn hLow hHigh hAll
  rw [← h.size] at hEq
  rcases Nat.lt_or_eq_of_le hHigh with hLt | rfl
  · refine .inl ⟨j, hLow, hLt, hStop hLt, hPass, ?_⟩
    rw [next, hEq, if_pos (by omega), Option.map_some, h.size, if_neg (by omega)]
    rfl
  · refine .inr ⟨hPass, ?_⟩
    have hIff : 2 ^ n < 2 ^ maxSet ↔ n < maxSet := Nat.pow_lt_pow_iff_right (by decide)
    rw [next, hEq, h.size]
    simp only [hIff]
    split_ifs
    · rw [Option.map_some, if_pos rfl]
    · rfl

theorem Enumerated.enumerate_eq (wantsSkip : List (List Nat) → Bool) (hn : n ≤ maxSet)
    (h : Enumerated n ps run) (fuel : Nat) (hFuel : 2 ^ n < ps.iter + fuel) :
    ∃ rest ps', enumerate wantsSkip fuel (run.map Prod.fst) ps =
        (if n < maxSet then some rest else none) ∧
      ps'.iter = 2 ^ n ∧ Enumerated n ps' (run ++ rest) := by
  induction fuel generalizing ps run with
  | zero =>
    have := h.iter
    omega
  | succ fuel ih =>
    rcases h.next_cases hn with ⟨j, hLow, hj, hFree, hPass, hNext⟩ | ⟨hPass, hNext⟩
    · let skips := wantsSkip (run.map Prod.fst ++ [entry j])
      have hOut := hPass.hand_out hn hj hFree skips
      have hIter : (if skips then { ps with iter := j + 1 }.skipPrefix
          else { ps with iter := j + 1 }).iter = j + 1 := by
        split_ifs <;> rfl
      obtain ⟨rest, ps', hRest, hEnd, hAll⟩ := ih hOut (by simp only [hIter]; omega)
      refine ⟨(entry j, skips) :: rest, ps', ?_, hEnd, ?_⟩
      · rw [List.map_append] at hRest
        rw [enumerate, hNext]
        change Option.map _ (enumerate wantsSkip fuel (run.map Prod.fst ++ [entry j])
          (if skips then { ps with iter := j + 1 }.skipPrefix
            else { ps with iter := j + 1 })) = _
        rw [show run.map Prod.fst ++ [entry j] = run.map Prod.fst ++
          [(entry j, skips)].map Prod.fst from rfl, hRest]
        split_ifs <;> rfl
      · rw [List.append_cons]
        exact hAll
    · refine ⟨[], _, ?_, rfl, by rwa [List.append_nil]⟩
      rw [enumerate, hNext]
      split_ifs <;> rfl

end

theorem enumerate_mono {wantsSkip : List (List Nat) → Bool} {fuel : Nat} {done : List (List Nat)}
    {ps : Powerset} {run : List (List Nat × Bool)}
    (hRun : enumerate wantsSkip fuel done ps = some run) (more : Nat) :
    enumerate wantsSkip (fuel + more) done ps = some run := by
  induction fuel generalizing done ps run with
  | zero => cases hRun
  | succ fuel ih =>
    rw [Nat.succ_add]
    rw [enumerate] at hRun ⊢
    split at hRun
    · cases hRun
    · exact hRun
    · obtain ⟨rest, hRest, rfl⟩ := Option.map_eq_some_iff.mp hRun
      simp only [ih hRest, Option.map_some]

/-- Whatever the caller skips, it gets the subsets of which no proper prefix was skipped, each once
and after its proper prefixes. -/
theorem enumerate_exact (n : Nat) (hn : n ≤ maxSet) (wantsSkip : List (List Nat) → Bool) :
    (∃ fuel run, enumerate wantsSkip fuel [] (init n) = some run ∧
      (∀ s, s ∈ run.map Prod.fst ↔ (s.Pairwise (· < ·) ∧ ∀ x ∈ s, x < n) ∧
        ∀ p, p <+: s → p ≠ s → (p, true) ∉ run) ∧
      (run.map Prod.fst).Nodup ∧ (run.map Prod.fst).Pairwise fun s t => ¬t <+: s) ↔
    n < maxSet := by
  constructor
  · rintro ⟨fuel, run, hRun, _⟩
    by_contra hMax
    obtain ⟨_, _, hNone, _, _⟩ := (enumerated_init n).enumerate_eq wantsSkip hn
      (fuel + (2 ^ n + 1)) (by simp only [init]; omega)
    rw [if_neg hMax] at hNone
    cases (enumerate_mono hRun (2 ^ n + 1)).symm.trans hNone
  intro hn
  obtain ⟨run, ps, hRun, hIter, h⟩ := (enumerated_init n).enumerate_eq wantsSkip hn.le
    (2 ^ n + 1) (by simp [init])
  rw [List.nil_append] at h
  obtain ⟨is, hMap, hSorted, hLt⟩ := h.indices
  rw [if_pos hn] at hRun
  refine ⟨2 ^ n + 1, run, hRun, fun s => ?_, ?_, ?_⟩
  · rw [← exists_entry_iff hn.le]
    constructor
    · intro hs
      rw [hMap] at hs
      obtain ⟨i, hi, rfl⟩ := List.mem_map.mp hs
      have hComplete := h.complete i (hLt i hi)
      rw [hMap] at hComplete
      exact ⟨⟨i, hIter ▸ hLt i hi, rfl⟩, hComplete.mp hs⟩
    · rintro ⟨⟨i, hi, rfl⟩, hNone⟩
      exact (h.complete i (hIter.symm ▸ hi)).mpr hNone
  · rw [hMap]
    refine List.pairwise_map.mpr (hSorted.imp_of_mem fun {i j} hi hj hij hEq => ?_)
    have := entry_injective hn.le (hIter ▸ hLt i hi) (hIter ▸ hLt j hj) hEq
    omega
  · rw [hMap]
    refine List.pairwise_map.mpr (hSorted.imp_of_mem fun {i j} hi hj hij hPrefix => ?_)
    have := le_of_entry_isPrefix hn.le (hIter ▸ hLt j hj) (hIter ▸ hLt i hi) hPrefix
    omega

theorem enumerate_exact_three :
    ∃ run, enumerate (fun done => done.length = 3) 9 [] (init 3) = some run ∧
      [0, 1] ∈ run.map Prod.fst ∧ [1, 2] ∉ run.map Prod.fst := by
  have hEval : enumerate (fun done => done.length = 3) 9 [] (init 3) = some
      [([], false), ([0], false), ([1], true), ([0, 1], false), ([2], false), ([0, 2], false),
        ([0, 1, 2], false)] := by decide +kernel
  obtain ⟨fuel, run, hRun, hMem, _, _⟩ :=
    (enumerate_exact 3 (by decide) fun done => done.length = 3).mpr (by decide)
  have hSame := enumerate_mono hEval fuel
  rw [Nat.add_comm, enumerate_mono hRun 9] at hSame
  cases hSame
  refine ⟨_, hEval, by decide, fun hIn => ?_⟩
  exact ((hMem [1, 2]).mp hIn).2 [1] (by decide) (by decide) (by decide)

/-- With the largest size, a caller that has everything skipped after the empty set makes `next`
test an entry past the end of the skip table. -/
theorem next_throws_maxSet : ∃ ps, (init maxSet).next = some (some ([], ps)) ∧
    ps.skipPrefix.next = none := by
  have hInit := enumerated_init maxSet
  have hFree : 0 ∉ (init maxSet).skipTable := by simp [init]
  have hOut := hInit.hand_out (Nat.le_refl _) (Nat.two_pow_pos _) hFree true
  have hEntry : entry 0 = [] := by
    have hGet : (genPowerset 0)[0]? = some (entry 0) := getElem?_entry (Nat.zero_le _) (by decide)
    exact (Option.some.inj hGet).symm
  refine ⟨⟨maxSet, 1, []⟩, by decide +kernel, ?_⟩
  rcases hOut.next_cases (Nat.le_refl _) with ⟨j, _, hj, hSkipped, _⟩ | ⟨_, hNext⟩
  · refine absurd ((hOut.table j hj).mpr ⟨entry 0, by simp [init], ?_⟩) hSkipped
    rw [hEntry]
    exact List.nil_prefix
  · rw [if_neg (Nat.lt_irrefl _)] at hNext
    exact hNext

end Powerset

end Explode.Crash
