import Explode.Driver.Regions
import Explode.Lib.SortedMap

/-!
# The iterators of `intersected_range`

`intersected_range` looks for the first region in the map of a data object,
steps back, scans forward and collects the keys of the regions it met in a map
of its own.
-/

namespace Explode.Driver

structure Extent (Off : Type) where
  start : Off
  stop : Off
  deriving DecidableEq, Repr

/-- A data object as a map from offsets. An iterator is a position in it, and the number of its
entries is the end. -/
abbrev RegionMap (Off : Type) [LinearOrder Off] := SortedMap Off (Extent Off)

structure IteratorRange (Off : Type) where
  low : Nat
  high : Nat
  start : Off
  stop : Off
  deriving DecidableEq, Repr

namespace RegionMap

variable {Off : Type} [LinearOrder Off]

def lowerBound (m : RegionMap Off) (k : Off) : Nat :=
  (m.entries.takeWhile fun e => e.1 < k).length

def find (m : RegionMap Off) (k : Off) : Nat := m.entries.findIdx fun e => e.1 = k

/-- The start of the interval, the side list and the iterator before the loop. The region in
front of the iterator is met if it reaches the interval. -/
def stepBack (m : RegionMap Off) (startIn : Off) : Off × SortedMap Off Bool × Nat :=
  match m.lowerBound startIn with
  | 0 => (startIn, .empty, 0)
  | it + 1 =>
    match m.entries[it]? with
    | none => (startIn, .empty, it + 1)
    | some (_, r) =>
      if startIn ≤ r.stop then (r.start, SortedMap.empty.insert r.start true, it)
      else (startIn, .empty, it + 1)

/-- The loop over the entries from the iterator on, with the end of the interval and the side
list. -/
def scan (endIn : Off) :
    List (Off × Extent Off) → Off × SortedMap Off Bool → Off × SortedMap Off Bool
  | [], acc => acc
  | (_, r) :: rest, acc =>
    if endIn < r.start then acc
    else if endIn < r.stop then (r.stop, acc.2.insert r.start true)
    else scan endIn rest (acc.1, acc.2.insert r.start true)

def intersectedRange (m : RegionMap Off) (startIn endIn : Off) : Option (IteratorRange Off) :=
  let (start, list, it) := m.stepBack startIn
  let (stop, list) := scan endIn (m.entries.drop it) (endIn, list)
  match list.entries.head?, list.entries.getLast? with
  | some first, some last =>
    if m.find first.1 = m.size ∨ m.find last.1 = m.size then none
    else some ⟨m.find first.1, m.find last.1 + 1, start, stop⟩
  | _, _ => some ⟨m.size, m.size, start, stop⟩

structure Disjoint (l : List (Off × Extent Off)) : Prop where
  key : ∀ e ∈ l, e.1 = e.2.start
  nonempty : ∀ e ∈ l, e.2.start < e.2.stop
  apart : l.Pairwise fun e f => e.2.stop ≤ f.2.start

def Meets (a b : Off) (e : Off × Extent Off) : Prop := e.2.start ≤ b ∧ a ≤ e.2.stop

instance (a b : Off) (e : Off × Extent Off) : Decidable (Meets a b e) :=
  inferInstanceAs (Decidable (_ ∧ _))

section
variable {l l' : List (Off × Extent Off)} {a b : Off}

theorem Disjoint.sublist (hDisj : Disjoint l) (hSub : l'.Sublist l) : Disjoint l' where
  key e he := hDisj.key e (hSub.subset he)
  nonempty e he := hDisj.nonempty e (hSub.subset he)
  apart := hDisj.apart.sublist hSub

theorem Disjoint.head_lt {e : Off × Extent Off} (hDisj : Disjoint (e :: l)) :
    ∀ f ∈ l, e.2.start < f.2.start := fun f hf =>
  (hDisj.nonempty e List.mem_cons_self).trans_le ((List.pairwise_cons.mp hDisj.apart).1 f hf)

def sideKeys (l : List (Off × Extent Off)) : List (Off × Bool) := l.map fun e => (e.2.start, true)

theorem scan_spec (hDisj : Disjoint l) (side : SortedMap Off Bool)
    (hSide : ∀ k ∈ side.entries, ∀ e ∈ l, k.1 < e.2.start) :
    ∃ mid after, l = mid ++ after ∧ (∀ e ∈ mid, e.2.start ≤ b) ∧ (∀ e ∈ after, b < e.2.start) ∧
      (scan b l (b, side)).2.entries = side.entries ++ sideKeys mid ∧
      (scan b l (b, side)).1 = mid.getLast?.elim b fun e => max b e.2.stop := by
  induction l generalizing side with
  | nil => exact ⟨[], [], rfl, by simp, by simp, by simp [scan, sideKeys], rfl⟩
  | cons e rest ih =>
    have hLater := hDisj.head_lt
    have hAdded : (side.insert e.2.start true).entries = side.entries ++ [(e.2.start, true)] :=
      SortedMap.entries_insert_last fun k hk => hSide k hk e List.mem_cons_self
    rw [scan]
    split_ifs with hBeyond hOver
    · refine ⟨[], e :: rest, rfl, by simp, ?_, by simp [sideKeys], rfl⟩
      intro f hf
      obtain rfl | hf := List.mem_cons.mp hf
      · exact hBeyond
      · exact hBeyond.trans (hLater f hf)
    · refine ⟨[e], rest, rfl, ?_, ?_, hAdded, ?_⟩
      · simpa using hBeyond
      · intro f hf
        exact hOver.trans_le ((List.pairwise_cons.mp hDisj.apart).1 f hf)
      · simp [max_eq_right hOver.le]
    · have hSide' : ∀ k ∈ (side.insert e.2.start true).entries, ∀ f ∈ rest, k.1 < f.2.start := by
        intro k hk f hf
        rw [hAdded] at hk
        obtain hk | hk := List.mem_append.mp hk
        · exact hSide k hk f (List.mem_cons_of_mem _ hf)
        · rw [List.mem_singleton.mp hk]
          exact hLater f hf
      obtain ⟨mid, after, rfl, hMid, hAfter, hKeys, hStop⟩ :=
        ih (hDisj.sublist (List.sublist_cons_self _ _)) _ hSide'
      refine ⟨e :: mid, after, rfl, ?_, hAfter, ?_, ?_⟩
      · intro f hf
        obtain rfl | hf := List.mem_cons.mp hf
        · exact not_lt.mp hBeyond
        · exact hMid f hf
      · rw [hKeys, hAdded, List.append_assoc]
        rfl
      · rw [hStop]
        cases mid with
        | nil => simp [max_eq_left (not_lt.mp hOver)]
        | cons f mid => rfl

theorem scan_again {e : Off × Extent Off} (hStart : e.2.start ≤ b) :
    scan b (e :: l) (b, SortedMap.empty.insert e.2.start true) = scan b (e :: l) (b, .empty) := by
  have hTwice : (SortedMap.empty.insert e.2.start true).insert e.2.start true =
      SortedMap.empty.insert e.2.start true :=
    SortedMap.insert_self (SortedMap.get?_insert_self _ _ _)
  simp only [scan, if_neg hStart.not_gt, hTwice]

end

section
variable {m : RegionMap Off} {a b : Off}

theorem find_eq {i : Nat} {e : Off × Extent Off} (hi : m.entries[i]? = some e) :
    m.find e.1 = i := by
  obtain ⟨hLt, rfl⟩ := List.getElem?_eq_some_iff.mp hi
  refine (List.findIdx_eq hLt).mpr ⟨by simp, fun j hj => ?_⟩
  have hSorted := List.pairwise_iff_getElem.mp m.sorted j i (hj.trans hLt) hLt hj
  simpa using hSorted.ne

structure Parts (m : RegionMap Off) (a b : Off) (before mid after : List (Off × Extent Off)) :
    Prop where
  entries : m.entries = before ++ mid ++ after
  before_lt : ∀ e ∈ before, e.2.stop < a
  meets : ∀ e ∈ mid, Meets a b e
  after_gt : ∀ e ∈ after, b < e.2.start

theorem stepBack_spec (hDisj : Disjoint m.entries) (a : Off) :
    ∃ before rest, m.entries = before ++ rest ∧ (m.stepBack a).2.2 = before.length ∧
      (∀ e ∈ before, e.2.stop < a) ∧ (∀ e ∈ rest, a ≤ e.2.stop) ∧
      ((m.stepBack a).1 = a ∧ (m.stepBack a).2.1 = .empty ∧ (∀ e ∈ rest, a ≤ e.2.start) ∨
        ∃ e rest', rest = e :: rest' ∧ e.2.start < a ∧ (m.stepBack a).1 = e.2.start ∧
          (m.stepBack a).2.1 = SortedMap.empty.insert e.2.start true) := by
  obtain ⟨low, hLow⟩ : ∃ low, low = m.entries.takeWhile fun e => e.1 < a := ⟨_, rfl⟩
  obtain ⟨rest, hRest⟩ : ∃ rest, rest = m.entries.dropWhile fun e => e.1 < a := ⟨_, rfl⟩
  have hSplit : m.entries = low ++ rest := by
    rw [hLow, hRest, List.takeWhile_append_dropWhile]
  have hLowStart : ∀ e ∈ low, e.2.start < a := by
    intro e he
    have hKey := hDisj.key e (hSplit ▸ List.mem_append_left _ he)
    rw [hLow] at he
    rw [← hKey]
    simpa using List.mem_takeWhile_imp he
  have hRestStart : ∀ e ∈ rest, a ≤ e.2.start := by
    intro e he
    have hKey := hDisj.key e (hSplit ▸ List.mem_append_right _ he)
    rw [hRest] at he
    rw [← hKey]
    exact SortedMap.le_of_mem_dropWhile m.sorted he
  have hRestStop : ∀ e ∈ rest, a ≤ e.2.stop := fun e he =>
    (hRestStart e he).trans (hDisj.nonempty e (hSplit ▸ List.mem_append_right _ he)).le
  unfold stepBack lowerBound
  rw [← hLow]
  obtain rfl | ⟨init, e, hConcat⟩ := List.eq_nil_or_concat low
  · exact ⟨[], rest, hSplit, rfl, by simp, hRestStop, .inl ⟨rfl, rfl, hRestStart⟩⟩
  · rw [List.concat_eq_append] at hConcat
    subst hConcat
    have hDisjLow := hDisj.sublist (hSplit ▸ List.sublist_append_left (init ++ [e]) rest)
    have hInit : ∀ f ∈ init, f.2.stop < a := by
      intro f hf
      refine lt_of_le_of_lt ?_ (hLowStart e (by simp))
      exact (List.pairwise_append.mp hDisjLow.apart).2.2 f hf e (by simp)
    have hAt : m.entries[init.length]? = some e := by simp [hSplit]
    rw [List.length_append, List.length_singleton]
    simp only [hAt]
    split_ifs with hTouch
    · refine ⟨init, e :: rest, by simp [hSplit], rfl, hInit, ?_, .inr ?_⟩
      · intro f hf
        obtain rfl | hf := List.mem_cons.mp hf
        · exact hTouch
        · exact hRestStop f hf
      · exact ⟨e, rest, rfl, hLowStart e (by simp), rfl, rfl⟩
    · refine ⟨init ++ [e], rest, hSplit, by simp, ?_, hRestStop, .inl ⟨rfl, rfl, hRestStart⟩⟩
      intro f hf
      obtain hf | hf := List.mem_append.mp hf
      · exact hInit f hf
      · rw [List.mem_singleton.mp hf]
        exact not_le.mp hTouch

theorem intersectedRange_eq (hDisj : Disjoint m.entries) (hab : a ≤ b) :
    ∃ before mid after, Parts m a b before mid after ∧
      m.intersectedRange a b = some
        { low := if mid = [] then m.size else before.length
          high := if mid = [] then m.size else before.length + mid.length
          start := mid.head?.elim a fun e => min a e.2.start
          stop := mid.getLast?.elim b fun e => max b e.2.stop } := by
  obtain ⟨before, rest, hSplit, hIt, hBefore, hRest, hStart⟩ := stepBack_spec hDisj a
  have hDrop : m.entries.drop (m.stepBack a).2.2 = rest := by
    rw [hIt, hSplit, List.drop_left]
  have hDisjRest := hDisj.sublist (hSplit ▸ List.sublist_append_right before rest)
  obtain ⟨mid, after, rfl, hMid, hAfter, hKeys, hStop⟩ :=
    scan_spec (b := b) hDisjRest .empty (List.forall_mem_nil _)
  rw [show (SortedMap.empty : SortedMap Off Bool).entries = [] from rfl, List.nil_append] at hKeys
  have hScan : scan b (mid ++ after) (b, (m.stepBack a).2.1) =
      scan b (mid ++ after) (b, .empty) := by
    obtain ⟨_, hEmpty, _⟩ | ⟨e, rest', hCons, hLt, _, hSide⟩ := hStart
    · rw [hEmpty]
    · rw [hCons, hSide, scan_again (hLt.le.trans hab)]
  have hFirst : (m.stepBack a).1 = mid.head?.elim a fun e => min a e.2.start := by
    obtain ⟨hSame, _, hLater⟩ | ⟨e, rest', hCons, hLt, hBack, _⟩ := hStart
    · cases mid with
      | nil => exact hSame
      | cons f mid =>
        rw [hSame, List.head?_cons, Option.elim_some, min_eq_left (hLater f (by simp))]
    · cases mid with
      | nil =>
        -- the region in front starts in the interval, so the loop meets it
        have hBeyond := hAfter e (by rw [List.nil_append] at hCons; simp [hCons])
        exact absurd (hLt.trans_le hab) hBeyond.not_gt
      | cons f mid =>
        obtain ⟨rfl, _⟩ := List.cons.inj hCons
        rw [hBack, List.head?_cons, Option.elim_some, min_eq_right hLt.le]
  refine ⟨before, mid, after, ⟨by rw [hSplit, List.append_assoc], hBefore, ?_, hAfter⟩, ?_⟩
  · exact fun e he => ⟨hMid e he, hRest e (List.mem_append_left _ he)⟩
  · unfold intersectedRange
    simp only [hDrop, hScan, hKeys, hStop, hFirst]
    obtain rfl | ⟨init, last, hConcat⟩ := List.eq_nil_or_concat mid
    · rfl
    · rw [List.concat_eq_append] at hConcat
      obtain ⟨first, tail, hCons⟩ :=
        List.exists_cons_of_ne_nil (by simp [hConcat] : mid ≠ [])
      have hKey : ∀ e ∈ mid, e.2.start = e.1 := fun e he =>
        (hDisjRest.key e (List.mem_append_left _ he)).symm
      have hHead : (sideKeys mid).head? = some (first.1, true) := by
        rw [← hKey first (by simp [hCons]), hCons]
        rfl
      have hLast : (sideKeys mid).getLast? = some (last.1, true) := by
        rw [← hKey last (by simp [hConcat]), hConcat]
        simp [sideKeys]
      have hLow : m.find first.1 = before.length := find_eq (by simp [hSplit, hCons])
      have hHigh : m.find last.1 = before.length + init.length :=
        find_eq (by simp [hSplit, hConcat])
      have hSize : before.length < m.size ∧ before.length + init.length < m.size := by
        simp only [SortedMap.size, hSplit, hConcat, List.length_append, List.length_singleton]
        omega
      have hNe : mid ≠ [] := by simp [hConcat]
      simp only [hHead, hLast, hLow, hHigh]
      rw [if_neg (by omega), if_neg hNe, if_neg hNe]
      simp [hConcat, Nat.add_assoc]

theorem Parts.meets_iff {before mid after : List (Off × Extent Off)}
    (hParts : Parts m a b before mid after) {i : Nat} {e : Off × Extent Off}
    (hi : m.entries[i]? = some e) :
    before.length ≤ i ∧ i < before.length + mid.length ↔ Meets a b e := by
  rw [hParts.entries] at hi
  obtain hFront | hBack := Nat.lt_or_ge i (before.length + mid.length)
  · rw [List.getElem?_append_left (by simpa using hFront)] at hi
    obtain hBefore | hMid := Nat.lt_or_ge i before.length
    · rw [List.getElem?_append_left hBefore] at hi
      have hLt := hParts.before_lt e (List.mem_of_getElem? hi)
      refine ⟨fun hIn => absurd hIn.1 (by omega), fun hMeets => absurd hMeets.2 hLt.not_ge⟩
    · rw [List.getElem?_append_right hMid] at hi
      exact ⟨fun _ => hParts.meets e (List.mem_of_getElem? hi), fun _ => ⟨hMid, hFront⟩⟩
  · rw [List.getElem?_append_right (by simpa using hBack)] at hi
    have hGt := hParts.after_gt e (List.mem_of_getElem? hi)
    refine ⟨fun hIn => absurd hIn.2 (by omega), fun hMeets => absurd hMeets.1 hGt.not_ge⟩

theorem Parts.filter_eq {before mid after : List (Off × Extent Off)}
    (hParts : Parts m a b before mid after) : m.entries.filter (Meets a b ·) = mid := by
  have hBefore : before.filter (Meets a b ·) = [] := by
    refine List.filter_eq_nil_iff.mpr fun e he => ?_
    exact fun hMeets => (hParts.before_lt e he).not_ge (of_decide_eq_true hMeets).2
  have hAfter : after.filter (Meets a b ·) = [] := by
    refine List.filter_eq_nil_iff.mpr fun e he => ?_
    exact fun hMeets => (hParts.after_gt e he).not_ge (of_decide_eq_true hMeets).1
  have hMid : mid.filter (Meets a b ·) = mid :=
    List.filter_eq_self.mpr fun e he => decide_eq_true (hParts.meets e he)
  rw [hParts.entries, List.filter_append, List.filter_append, hBefore, hAfter, hMid,
    List.nil_append, List.append_nil]

/-- The iterators enclose exactly the regions that overlap or touch the interval, and the interval
is extended over them. -/
theorem intersectedRange_exact (m : RegionMap Off) (hDisj : Disjoint m.entries) (hab : a ≤ b) :
    ∃ found, m.intersectedRange a b = some found ∧
      found.low ≤ found.high ∧ found.high ≤ m.size ∧
      (∀ i e, m.entries[i]? = some e →
        (found.low ≤ i ∧ i < found.high ↔ e.2.start ≤ b ∧ a ≤ e.2.stop)) ∧
      ((∀ e ∈ m.entries, ¬(e.2.start ≤ b ∧ a ≤ e.2.stop)) →
        found.low = found.high ∧ found.start = a ∧ found.stop = b) ∧
      (found.low < found.high →
        ∃ first last, m.entries[found.low]? = some first ∧
          m.entries[found.high - 1]? = some last ∧
          found.start = min a first.2.start ∧ found.stop = max b last.2.stop) := by
  obtain ⟨before, mid, after, hParts, hFound⟩ := intersectedRange_eq hDisj hab
  have hIff := fun i e (hi : m.entries[i]? = some e) => hParts.meets_iff hi
  have hSize : m.size = before.length + mid.length + after.length := by
    simp [SortedMap.size, hParts.entries, Nat.add_assoc]
  refine ⟨_, hFound, ?_⟩
  obtain rfl | ⟨init, last, hConcat⟩ := List.eq_nil_or_concat mid
  · refine ⟨Nat.le_refl _, Nat.le_refl _, fun i e hi => ?_, fun _ => ⟨rfl, rfl, rfl⟩, ?_⟩
    · obtain ⟨hLt, _⟩ := List.getElem?_eq_some_iff.mp hi
      simp only [if_true]
      refine ⟨fun hIn => absurd hIn.2 (by omega), fun hMeets => ?_⟩
      obtain ⟨hGe, hBelow⟩ := (hIff i e hi).mpr hMeets
      exact absurd hBelow (by simpa using hGe)
    · exact fun hLt => absurd hLt (Nat.lt_irrefl _)
  · rw [List.concat_eq_append] at hConcat
    obtain ⟨first, tail, hCons⟩ := List.exists_cons_of_ne_nil (by simp [hConcat] : mid ≠ [])
    have hNe : mid ≠ [] := by simp [hConcat]
    have hLength : mid.length = init.length + 1 := by simp [hConcat]
    have hFirst : m.entries[before.length]? = some first := by simp [hParts.entries, hCons]
    have hLast : m.entries[before.length + mid.length - 1]? = some last := by
      rw [hLength, ← Nat.add_assoc, Nat.add_sub_cancel]
      simp [hParts.entries, hConcat]
    simp only [if_neg hNe]
    refine ⟨Nat.le_add_right _ _, by omega, hIff, fun hNone => ?_, fun _ => ?_⟩
    · exact absurd (hParts.meets first (by simp [hCons]))
        (hNone first (List.mem_of_getElem? hFirst))
    · refine ⟨first, last, hFirst, hLast, by rw [hCons]; rfl, ?_⟩
      rw [hConcat, List.getLast?_concat]
      rfl

def twoExtents : RegionMap Int where
  entries := [(0, ⟨0, 4⟩), (8, ⟨8, 12⟩)]
  sorted := by decide

theorem intersectedRange_exact_twoExtents :
    Disjoint twoExtents.entries ∧ ∃ found, twoExtents.intersectedRange 4 6 = some found ∧
      found.low ≤ found.high ∧ found.start = 0 := by
  have hDisj : Disjoint twoExtents.entries := ⟨by decide, by decide, by decide⟩
  obtain ⟨found, hFound, hLe, _, _, _, hEnds⟩ :=
    intersectedRange_exact twoExtents hDisj (by decide : (4 : Int) ≤ 6)
  refine ⟨hDisj, found, hFound, hLe, ?_⟩
  have hSome : twoExtents.intersectedRange 4 6 = some ⟨0, 1, 0, 6⟩ := by decide +kernel
  obtain rfl := Option.some.inj (hSome.symm.trans hFound)
  rfl

end

end RegionMap

section
variable {l : List DataRegion} {a b : Nat}

def DataRegion.entry (r : DataRegion) : Nat × Extent Nat := (r.start, ⟨r.start, r.stop⟩)

def regionMap (l : List DataRegion) (hOrd : Ordered l) : RegionMap Nat where
  entries := l.map DataRegion.entry
  sorted := by
    rw [List.pairwise_map]
    refine hOrd.apart.imp_of_mem fun {r s} hr _ hApart => ?_
    exact Nat.lt_of_lt_of_le (hOrd.nonempty r hr) hApart

theorem regionMap_disjoint (hOrd : Ordered l) : RegionMap.Disjoint (regionMap l hOrd).entries where
  key := List.forall_mem_map.mpr fun _ _ => rfl
  nonempty := List.forall_mem_map.mpr hOrd.nonempty
  apart := by
    rw [regionMap, List.pairwise_map]
    exact hOrd.apart

theorem scanRange_stop (b : Nat) (l : List DataRegion) :
    (scanRange b l).1 = (scanRange b l).2.getLast?.elim b fun r => max b r.stop := by
  induction l with
  | nil => rfl
  | cons r rest ih =>
    rw [scanRange]
    split_ifs with hBeyond hOver
    · rfl
    · simp [Nat.max_eq_right (Nat.le_of_lt hOver)]
    · dsimp only
      rw [ih]
      cases (scanRange b rest).2 with
      | nil => simp [Nat.max_eq_left (Nat.le_of_not_lt hOver)]
      | cons r' rest' => rfl

theorem intersectedRange_start (hOrd : Ordered l) (hab : a ≤ b) :
    (intersectedRange l a b).start =
      (intersectedRange l a b).regions.head?.elim a fun r => min a r.start := by
  have hLater := start_ge_of_mem_dropWhile (a := a) hOrd
  unfold intersectedRange
  cases hPrev : (l.takeWhile fun r => r.start < a).getLast?.filter fun r => a ≤ r.stop with
  | none =>
    obtain ⟨after, hSplit, _⟩ := scanRange_split (b := b) (hOrd.sublist (List.dropWhile_sublist _))
    simp only [Option.elim_none, Option.toList_none, List.nil_append]
    cases hFound : (scanRange b (l.dropWhile fun r => r.start < a)).2 with
    | nil => rfl
    | cons r rest =>
      have hMem : r ∈ l.dropWhile fun r => r.start < a := by
        rw [hSplit, hFound]
        exact List.mem_cons_self
      rw [List.head?_cons, Option.elim_some, Nat.min_eq_left (hLater r hMem)]
  | some p =>
    have hLt : p.start < a := by
      obtain ⟨hLast, _⟩ := Option.filter_eq_some_iff.mp hPrev
      simpa using List.mem_takeWhile_imp (List.mem_of_getLast? hLast)
    have hReached : ¬b < p.start := by omega
    simp only [Option.elim_some, Option.toList_some, List.singleton_append, scanRange,
      if_neg hReached]
    split_ifs <;> simp [Nat.min_eq_right (Nat.le_of_lt hLt)]

/-- The loop over iterators finds the range that the list version finds. -/
theorem intersectedRange_regionMap (hOrd : Ordered l) (hab : a ≤ b) :
    ∃ found, (regionMap l hOrd).intersectedRange a b = some found ∧
      found.start = (intersectedRange l a b).start ∧ found.stop = (intersectedRange l a b).stop ∧
      (intersectedRange l a b).regions = (l.drop found.low).take (found.high - found.low) := by
  obtain ⟨before, mid, after, hParts, hFound⟩ :=
    RegionMap.intersectedRange_eq (regionMap_disjoint hOrd) hab
  obtain ⟨front, back, hSpec⟩ := intersectedRange_spec hOrd a b
  have hParts' : RegionMap.Parts (regionMap l hOrd) a b (front.map DataRegion.entry)
      ((intersectedRange l a b).regions.map DataRegion.entry) (back.map DataRegion.entry) := by
    constructor
    · rw [regionMap, ← List.map_append, ← List.map_append, ← hSpec.split]
    · exact List.forall_mem_map.mpr hSpec.before_lt
    · exact List.forall_mem_map.mpr fun r hr => (hSpec.touches r hr).symm
    · exact List.forall_mem_map.mpr hSpec.after_gt
  have hMid : mid = (intersectedRange l a b).regions.map DataRegion.entry :=
    hParts.filter_eq.symm.trans hParts'.filter_eq
  refine ⟨_, hFound, ?_, ?_, ?_⟩
  · rw [intersectedRange_start hOrd hab, hMid, List.head?_map]
    cases (intersectedRange l a b).regions.head? <;> rfl
  · rw [show (intersectedRange l a b).stop = _ from scanRange_stop b _, hMid, List.getLast?_map]
    change _ = (intersectedRange l a b).regions.getLast?.elim b _
    cases (intersectedRange l a b).regions.getLast? <;> rfl
  · cases hRegions : (intersectedRange l a b).regions with
    | nil => simp [hMid, hRegions]
    | cons r rest =>
      have hNe : mid ≠ [] := by simp [hMid, hRegions]
      have hFront : before.length = front.length := by
        have hAt : (regionMap l hOrd).entries[before.length]? = some r.entry := by
          simp [hParts.entries, hMid, hRegions]
        have hAt' : (regionMap l hOrd).entries[front.length]? = some r.entry := by
          simp [hParts'.entries, hRegions]
        exact (RegionMap.find_eq hAt).symm.trans (RegionMap.find_eq hAt')
      have hLength : mid.length = (r :: rest).length := by simp [hMid, hRegions]
      have hSplit : l = front ++ (r :: rest ++ back) := by
        rw [← hRegions, ← List.append_assoc]
        exact hSpec.split
      rw [if_neg hNe, if_neg hNe, Nat.add_sub_cancel_left, hLength, hFront]
      conv_rhs => rw [hSplit, List.drop_left, List.take_left]

def twoRegions : List DataRegion := [⟨0, 4, 1, []⟩, ⟨8, 12, 1, []⟩]

theorem intersectedRange_regionMap_two :
    ∃ (hOrd : Ordered twoRegions) (found : _),
      (regionMap twoRegions hOrd).intersectedRange 2 9 = some found ∧
        found.start = (intersectedRange twoRegions 2 9).start ∧
        found.stop = (intersectedRange twoRegions 2 9).stop ∧
        (intersectedRange twoRegions 2 9).regions =
          (twoRegions.drop found.low).take (found.high - found.low) :=
  ⟨⟨by decide, by decide⟩, intersectedRange_regionMap _ (by decide)⟩

end

end Explode.Driver
