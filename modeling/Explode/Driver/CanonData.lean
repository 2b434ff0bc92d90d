import Mathlib.Data.List.SplitBy
import Explode.Driver.ArchiveCode
import Explode.Driver.ByteArray

/-!
# The canonical form of file data

`canon_data` writes the gap before each region and then, for a regular region,
its runs of zero and of other bytes.
-/

namespace Explode.Driver

open PrefixCode

/-- The loop `while(*p && p < end) p ++;`, or the one for zeros, with the number of bytes that are
left: the pointer at its end, and the places it looks at. -/
def skipBytes (mem : Nat → UInt8) (zeros : Bool) : Nat → Nat → Nat × List Nat
  | 0, p => (p, [p])
  | left + 1, p =>
    if decide (mem p = 0) = zeros then
      ((skipBytes mem zeros left (p + 1)).1, p :: (skipBytes mem zeros left (p + 1)).2)
    else (p, [p])

def segment (mem : Nat → UInt8) (a b : Nat) : Bytes := (List.range' a (b - a)).map mem

def otherBytes (run : Bytes) : Bytes :=
  if run.isEmpty then [] else intBytes 1 ++ intBytes run.length ++ run

def zeroBytes (n : Nat) : Bytes := if n = 0 then [] else intBytes 0 ++ intBytes n

/-- The loop of `canon_data_region` for a regular region: what it writes, and the places it looks
at. -/
def scanRegion (mem : Nat → UInt8) (stop : Nat) : Nat → Nat → Bytes × List Nat
  | 0, _ => ([], [])
  | fuel + 1, p =>
    if p < stop then
      let other := skipBytes mem false (stop - p) p
      let zero := skipBytes mem true (stop - other.1) other.1
      let rest := scanRegion mem stop fuel zero.1
      (otherBytes (segment mem p other.1) ++ zeroBytes (zero.1 - other.1) ++ rest.1,
        other.2 ++ zero.2 ++ rest.2)
    else ([], [])

namespace DataRegion

/-- The bytes that `canon_data_region` looks at, with what lies after the buffer. -/
def scan (dr : DataRegion) (past : Nat → UInt8) : Bytes × List Nat :=
  scanRegion (fun i => dr.data.getD i (past i)) (dr.stop - dr.start) (dr.stop - dr.start) 0

end DataRegion

namespace Data

/-- No byte after a buffer is looked at, whatever it is. -/
def InBounds (d : Data) : Prop :=
  ∀ dr ∈ d.regions, dr.magic = 0 → ∀ past, ∀ i ∈ (dr.scan past).2, i < dr.data.length

/-- Regular regions that are not empty have a buffer that is longer than they are. Only a write that
cut them back leaves such a buffer. -/
def Spare (d : Data) : Prop :=
  ∀ dr ∈ d.regions, dr.magic = 0 → dr.start < dr.stop → dr.stop - dr.start < dr.data.length

/-- The regions are sorted and disjoint, and hold the bytes of their interval. -/
structure Cut (d : Data) : Prop where
  sorted : d.regions.Pairwise fun r r' => r.stop ≤ r'.start
  start_le : ∀ r ∈ d.regions, r.start ≤ r.stop
  stop_le : ∀ r ∈ d.regions, r.stop ≤ offMax
  magic_lt : ∀ r ∈ d.regions, r.magic < 2147483648
  regular : ∀ r ∈ d.regions, r.magic = 0 → r.stop - r.start ≤ r.data.length

instance (d : Data) : Decidable d.Spare := inferInstanceAs (Decidable (∀ dr ∈ d.regions, _))

end Data

inductive Run
  | zero (length : Nat)
  | other (bytes : Bytes)
  | magic (length magic : Nat)
  deriving DecidableEq, Repr

namespace Run

def tag : Run → Nat
  | zero _ => 0
  | other _ => 1
  | magic _ _ => 2

def body : Run → Bytes
  | zero length => intBytes length
  | other bytes => intBytes bytes.length ++ bytes
  | magic length m => intBytes length ++ intBytes m

def bytes (r : Run) : Bytes := intBytes r.tag ++ r.body

def Fits : Run → Prop
  | zero length => length < 2147483648
  | other bytes => bytes.length < 2147483648
  | magic length m => length < 2147483648 ∧ m < 2147483648

end Run

def runOf (run : Bytes) : Run :=
  if run.head? = some 0 then .zero run.length else .other run

def DataRegion.runs (dr : DataRegion) : List Run :=
  if dr.magic ≠ 0 then [.magic (dr.stop - dr.start) dr.magic]
  else (byteRuns (dr.data.take (dr.stop - dr.start))).map runOf

def gapRuns : Nat → List DataRegion → List Run
  | _, [] => []
  | prevEnd, dr :: rest => .zero (dr.start - prevEnd) :: dr.runs ++ gapRuns dr.stop rest

def Data.runs (d : Data) : List Run := gapRuns 0 d.regions

/-- Where the runs of zeros and of other bytes end in a row of bytes that starts at `p`. -/
def runEnds (p : Nat) : Bytes → List Nat
  | [] => []
  | [_] => [p + 1]
  | x :: y :: rest =>
    if decide (x = 0) = decide (y = 0) then runEnds (p + 1) (y :: rest)
    else (p + 1) :: runEnds (p + 1) (y :: rest)

/-- The start of a region and the ends of its runs, each with the magic number of the bytes before
it. -/
def DataRegion.boundaries (dr : DataRegion) : List (Nat × Nat) :=
  (dr.start, 0) ::
    if dr.magic ≠ 0 then [(dr.stop, dr.magic)]
    else (runEnds dr.start (dr.data.take (dr.stop - dr.start))).map fun x => (x, 0)

def Data.boundaries (d : Data) : List (Nat × Nat) := d.regions.flatMap DataRegion.boundaries

section
variable {mem : Nat → UInt8} {stop a b c p : Nat}

theorem skipBytes_spec (mem : Nat → UInt8) (zeros : Bool) {left : Nat} (h : left = stop - p)
    (hp : p ≤ stop) :
    p ≤ (skipBytes mem zeros left p).1 ∧ (skipBytes mem zeros left p).1 ≤ stop ∧
      (∀ i, p ≤ i → i < (skipBytes mem zeros left p).1 → decide (mem i = 0) = zeros) ∧
      ((skipBytes mem zeros left p).1 < stop →
        decide (mem (skipBytes mem zeros left p).1 = 0) ≠ zeros) ∧
      ∀ i, i ∈ (skipBytes mem zeros left p).2 ↔ p ≤ i ∧ i ≤ (skipBytes mem zeros left p).1 := by
  induction left generalizing p with
  | zero =>
    refine ⟨Nat.le_refl p, hp, ?_, ?_, ?_⟩
    · intro i hi hi'
      exact absurd hi' (Nat.not_lt.mpr hi)
    · intro hLt
      exact absurd hLt (by rw [skipBytes]; omega)
    · intro i
      rw [skipBytes, List.mem_singleton]
      omega
  | succ left ih =>
    rw [skipBytes]
    split_ifs with hKind
    · obtain ⟨hLow, hHigh, hRun, hEnd, hReads⟩ := ih (p := p + 1) (by omega) (by omega)
      refine ⟨by omega, hHigh, ?_, hEnd, ?_⟩
      · intro i hi hi'
        rcases Nat.eq_or_lt_of_le hi with rfl | hLt
        · exact hKind
        · exact hRun i hLt hi'
      · intro i
        rw [List.mem_cons, hReads]
        omega
    · refine ⟨Nat.le_refl p, hp, ?_, fun _ => hKind, ?_⟩
      · intro i hi hi'
        exact absurd hi' (Nat.not_lt.mpr hi)
      · intro i
        rw [List.mem_singleton]
        omega

theorem segment_append (hab : a ≤ b) (hbc : b ≤ c) :
    segment mem a b ++ segment mem b c = segment mem a c := by
  obtain ⟨k, rfl⟩ := Nat.exists_eq_add_of_le hab
  obtain ⟨l, rfl⟩ := Nat.exists_eq_add_of_le hbc
  rw [segment, segment, segment, ← List.map_append, Nat.add_sub_cancel_left,
    Nat.add_sub_cancel_left, Nat.add_assoc, Nat.add_sub_cancel_left]
  exact congrArg _ List.range'_append_1

theorem forall_mem_segment {P : UInt8 → Prop} (h : ∀ i, a ≤ i → i < b → P (mem i)) :
    ∀ x ∈ segment mem a b, P x := by
  intro x hx
  obtain ⟨i, hi, rfl⟩ := List.mem_map.mp hx
  rw [List.mem_range'_1] at hi
  exact h i hi.1 (by omega)

theorem head?_segment (hab : a < b) : (segment mem a b).head? = some (mem a) := by
  obtain ⟨k, rfl⟩ := Nat.exists_eq_add_of_lt hab
  rw [segment, Nat.add_assoc, Nat.add_sub_cancel_left, List.range'_succ]
  rfl

theorem length_segment : (segment mem a b).length = b - a := by simp [segment]

theorem skipBytes_pass (mem : Nat → UInt8) (hp : p < stop) :
    let q := (skipBytes mem false (stop - p) p).1
    let r := (skipBytes mem true (stop - q) q).1
    p ≤ q ∧ q ≤ r ∧ r ≤ stop ∧ p < r ∧ (∀ i, p ≤ i → i < q → decide (mem i = 0) = false) ∧
      (q < stop → decide (mem q = 0) = true) ∧ (∀ i, q ≤ i → i < r → decide (mem i = 0) = true) ∧
      (r < stop → decide (mem r = 0) = false) ∧
      ∀ i, i ∈ (skipBytes mem false (stop - p) p).2 ++ (skipBytes mem true (stop - q) q).2 ↔
        p ≤ i ∧ i ≤ r := by
  obtain ⟨hLow, hHigh, hRun, hEnd, hReads⟩ := skipBytes_spec mem false rfl hp.le
  dsimp only
  generalize skipBytes mem false (stop - p) p = first at *
  obtain ⟨hLow', hHigh', hRun', hEnd', hReads'⟩ := skipBytes_spec mem true rfl hHigh
  generalize skipBytes mem true (stop - first.1) first.1 = second at *
  refine ⟨hLow, hLow', hHigh', ?_, hRun, ?_, hRun', ?_, ?_⟩
  · rcases Nat.eq_or_lt_of_le hLow with hEq | hLt
    · rcases Nat.eq_or_lt_of_le hLow' with hEq' | hLt'
      · exact absurd (Bool.eq_true_of_not_eq_false (hEnd (by omega))) (hEq' ▸ hEnd' (by omega))
      · omega
    · omega
  · exact fun h => Bool.eq_true_of_not_eq_false (hEnd h)
  · exact fun h => Bool.eq_false_of_not_eq_true (hEnd' h)
  · intro i
    rw [List.mem_append, hReads, hReads']
    omega

theorem scanRegion_done (mem : Nat → UInt8) (stop fuel : Nat) :
    scanRegion mem stop fuel stop = ([], []) := by
  cases fuel with
  | zero => rfl
  | succ fuel => rw [scanRegion, if_neg (Nat.lt_irrefl stop)]

theorem mem_scanRegion (mem : Nat → UInt8) {fuel : Nat} (hp : p < stop) (hFuel : stop - p ≤ fuel)
    (i : Nat) :
    i ∈ (scanRegion mem stop fuel p).2 ↔ p ≤ i ∧ i ≤ stop := by
  induction fuel generalizing p with
  | zero => omega
  | succ fuel ih =>
    obtain ⟨-, -, hHigh, hMore, -, -, -, -, hReads⟩ := skipBytes_pass mem hp
    rw [scanRegion, if_pos hp, List.mem_append, hReads]
    rcases Nat.eq_or_lt_of_le hHigh with hEq | hLt
    · rw [hEq, scanRegion_done]
      simp
    · rw [ih hLt (by omega)]
      omega

theorem byteRuns_append (zeros : Bool) {l m : Bytes}
    (hl : ∀ x ∈ l, decide (x = 0) = zeros) (hm : ∀ x ∈ m.head?, decide (x = 0) ≠ zeros) :
    byteRuns (l ++ m) = (if l.isEmpty then [] else [l]) ++ byteRuns m := by
  have hKind : ∀ x y : UInt8, ((x == 0) == (y == 0)) = decide (decide (x = 0) = decide (y = 0)) :=
    fun _ _ => rfl
  have hSplit : byteRuns (l ++ m) = byteRuns l ++ byteRuns m := by
    apply List.splitBy_append
    intro x hx y hy
    rw [hKind, decide_eq_false_iff_not, hl x (List.mem_of_mem_getLast? hx)]
    exact (hm y hy).symm
  rw [hSplit]
  split_ifs with hEmpty
  · rw [List.isEmpty_iff.mp hEmpty]
    rfl
  · have hOne : byteRuns l = [l] := by
      apply List.splitBy_of_isChain (fun hNil => hEmpty (List.isEmpty_iff.mpr hNil))
      apply List.Pairwise.isChain
      apply List.pairwise_of_forall_mem_list
      intro x hx y hy
      rw [hKind, decide_eq_true_eq, hl x hx, hl y hy]
    rw [hOne]

theorem otherBytes_eq {l : Bytes} (hl : ∀ x ∈ l, decide (x = 0) = false) :
    ((if l.isEmpty then [] else [l]).map runOf).flatMap Run.bytes = otherBytes l := by
  cases l with
  | nil => rfl
  | cons x rest =>
    have hx : ¬x = 0 := of_decide_eq_false (hl x List.mem_cons_self)
    simp [otherBytes, runOf, Run.bytes, Run.tag, Run.body, hx]

theorem zeroBytes_eq {l : Bytes} (hl : ∀ x ∈ l, decide (x = 0) = true) :
    ((if l.isEmpty then [] else [l]).map runOf).flatMap Run.bytes = zeroBytes l.length := by
  cases l with
  | nil => rfl
  | cons x rest =>
    have hx : x = 0 := of_decide_eq_true (hl x List.mem_cons_self)
    simp [zeroBytes, runOf, Run.bytes, Run.tag, Run.body, hx]

theorem scanRegion_fst {fuel : Nat} (hp : p ≤ stop) (hFuel : stop - p ≤ fuel) :
    (scanRegion mem stop fuel p).1 =
      ((byteRuns (segment mem p stop)).map runOf).flatMap Run.bytes := by
  induction fuel generalizing p with
  | zero =>
    have hEmpty : segment mem p stop = [] := by
      apply List.eq_nil_of_length_eq_zero
      rw [length_segment]
      omega
    rw [hEmpty]
    rfl
  | succ fuel ih =>
    rcases Nat.eq_or_lt_of_le hp with rfl | hLt
    · have hEmpty : segment mem p p = [] := by
        apply List.eq_nil_of_length_eq_zero
        rw [length_segment, Nat.sub_self]
      rw [scanRegion_done, hEmpty]
      rfl
    · obtain ⟨hLow, hMid, hHigh, hMore, hOther, hBound, hZero, hBound', -⟩ := skipBytes_pass mem hLt
      rw [scanRegion, if_pos hLt]
      dsimp only
      generalize (skipBytes mem false (stop - p) p).1 = q at *
      generalize (skipBytes mem true (stop - q) q).1 = r at *
      -- bytes that are not zero, zeros, and what the next pass starts with
      have hFirst : byteRuns (segment mem p q ++ segment mem q stop) = _ :=
        byteRuns_append false (forall_mem_segment hOther) (by
          intro x hx
          rcases Nat.eq_or_lt_of_le (Nat.le_trans hMid hHigh) with rfl | hMore
          · simp [segment] at hx
          · rw [head?_segment hMore, Option.mem_some_iff] at hx
            simp [← hx, hBound hMore])
      have hSecond : byteRuns (segment mem q r ++ segment mem r stop) = _ :=
        byteRuns_append true (forall_mem_segment hZero) (by
          intro x hx
          rcases Nat.eq_or_lt_of_le hHigh with rfl | hMore
          · simp [segment] at hx
          · rw [head?_segment hMore, Option.mem_some_iff] at hx
            simp [← hx, hBound' hMore])
      rw [segment_append hLow (Nat.le_trans hMid hHigh)] at hFirst
      rw [segment_append hMid hHigh] at hSecond
      rw [hFirst, hSecond, List.map_append, List.map_append, List.flatMap_append,
        List.flatMap_append, otherBytes_eq (forall_mem_segment hOther),
        zeroBytes_eq (forall_mem_segment hZero), length_segment, ih hHigh (by omega),
        List.append_assoc]

end

section
variable {dr : DataRegion} {d d' : Data}

/-- What lies past the buffer does not show in the canonical form of a regular region. -/
theorem DataRegion.scan_fst (hMagic : dr.magic = 0) (hData : dr.stop - dr.start ≤ dr.data.length)
    (past : Nat → UInt8) : (dr.scan past).1 = canonDataRegion dr := by
  have hSegment : segment (fun i => dr.data.getD i (past i)) 0 (dr.stop - dr.start) =
      dr.data.take (dr.stop - dr.start) := by
    apply List.ext_getElem
    · rw [length_segment, List.length_take]
      omega
    · intro i hi hi'
      rw [length_segment] at hi
      simp [segment, List.getElem?_eq_getElem (show i < dr.data.length by omega)]
  rw [scan, scanRegion_fst (Nat.zero_le _) (Nat.sub_le _ _), hSegment, canonDataRegion,
    if_neg (not_not.mpr hMagic), List.flatMap_map]
  congr 1
  funext run
  rw [runOf]
  split <;> rfl

theorem scan_fst_mixed :
    (DataRegion.scan ⟨4, 12, 0, [1, 2, 0, 0, 0, 3, 0, 0]⟩ fun _ => 9).1 =
      canonDataRegion ⟨4, 12, 0, [1, 2, 0, 0, 0, 3, 0, 0]⟩ :=
  DataRegion.scan_fst rfl (by decide) _

theorem DataRegion.scan_inBounds_iff (past : Nat → UInt8) :
    (∀ i ∈ (dr.scan past).2, i < dr.data.length) ↔
      (dr.start < dr.stop → dr.stop - dr.start < dr.data.length) := by
  rcases Nat.eq_zero_or_pos (dr.stop - dr.start) with hZero | hPos
  · rw [scan, hZero]
    refine iff_of_true (List.forall_mem_nil _) fun hLt => ?_
    omega
  · have hReads := mem_scanRegion (fun i => dr.data.getD i (past i)) hPos (Nat.le_refl _)
    rw [Nat.sub_zero] at hReads
    constructor
    · intro h _
      exact h _ ((hReads _).mpr ⟨Nat.zero_le _, Nat.le_refl _⟩)
    · intro h i hi
      have hLe := ((hReads i).mp hi).2
      have hRoom := h (by omega)
      omega

theorem Data.inBounds_iff : d.InBounds ↔ d.Spare := by
  constructor
  · intro h dr hdr hMagic
    exact (DataRegion.scan_inBounds_iff fun _ => 0).mp (h dr hdr hMagic fun _ => 0)
  · intro h dr hdr hMagic past
    exact (DataRegion.scan_inBounds_iff past).mpr (h dr hdr hMagic)

theorem runBody_code (k : Nat) : Code (fun r : Run => r.tag = k ∧ r.Fits) Run.body := by
  rintro a b r s ⟨rfl, ha⟩ ⟨hTag, hb⟩ hEq
  cases a with
  | zero =>
    cases b with
    | zero =>
      obtain ⟨hValue, hRest⟩ := natBytes_code _ _ r s ha hb hEq
      exact ⟨congrArg _ hValue, hRest⟩
    | other => cases hTag
    | magic => cases hTag
  | other =>
    cases b with
    | zero => cases hTag
    | other =>
      obtain ⟨hValue, hRest⟩ := string_code _ _ r s ha hb hEq
      exact ⟨congrArg _ hValue, hRest⟩
    | magic => cases hTag
  | magic n m =>
    cases b with
    | zero => cases hTag
    | other => cases hTag
    | magic n' m' =>
      obtain ⟨hValue, hRest⟩ := natBytes_code.pair natBytes_code (n, m) (n', m') r s ha hb hEq
      cases hValue
      exact ⟨rfl, hRest⟩

theorem run_code : Code Run.Fits Run.bytes := by
  refine (natBytes_code.bind fun k _ => runBody_code k).comap (fun r : Run => (r.tag, r)) ?_ ?_
  · exact fun a b _ _ hEq => (Prod.mk.inj hEq).2
  · refine fun r hr => ⟨?_, rfl, hr⟩
    cases r <;> simp [Run.tag]

theorem DataRegion.bytes_runs (h : dr.start ≤ dr.stop) :
    dr.runs.flatMap Run.bytes = canonDataRegion dr := by
  rw [runs, canonDataRegion]
  split_ifs with hMagic
  · simp [Run.bytes, Run.tag, Run.body, Int.ofNat_sub h]
  · rw [List.flatMap_map]
    congr 1
    funext run
    rw [runOf]
    split <;> rfl

theorem bytes_gapRuns {prevEnd : Nat} {l : List DataRegion} (hFirst : ∀ r ∈ l, prevEnd ≤ r.start)
    (hSorted : l.Pairwise fun r r' => r.stop ≤ r'.start) (hLe : ∀ r ∈ l, r.start ≤ r.stop) :
    (gapRuns prevEnd l).flatMap Run.bytes = canonRegions prevEnd l := by
  induction l generalizing prevEnd with
  | nil => rfl
  | cons r rest ih =>
    obtain ⟨hHead, hTail⟩ := List.pairwise_cons.mp hSorted
    obtain ⟨hr, hRest⟩ := List.forall_mem_cons.mp hLe
    rw [gapRuns, canonRegions, List.cons_append, List.flatMap_cons, List.flatMap_append,
      ih hHead hTail hRest, DataRegion.bytes_runs hr, Run.bytes, Run.body,
      Int.ofNat_sub (hFirst r List.mem_cons_self)]
    simp only [List.append_assoc]
    rfl

theorem Data.Cut.bytes_runs (h : d.Cut) : d.runs.flatMap Run.bytes = canonData d :=
  bytes_gapRuns (fun _ _ => Nat.zero_le _) h.sorted h.start_le

theorem DataRegion.fits_runs (hLe : dr.start ≤ dr.stop) (hStop : dr.stop ≤ offMax)
    (hMagic : dr.magic < 2147483648) : ∀ r ∈ dr.runs, r.Fits := by
  rw [offMax] at hStop
  rw [runs]
  split_ifs
  · intro r hr
    cases List.mem_singleton.mp hr
    exact ⟨by omega, hMagic⟩
  · intro r hr
    obtain ⟨run, hRun, rfl⟩ := List.mem_map.mp hr
    have hLength : run.length < 2147483648 := by
      have hSub := (List.sublist_flatten_of_mem hRun).length_le
      rw [byteRuns, List.flatten_splitBy, List.length_take] at hSub
      omega
    rw [runOf]
    split <;> exact hLength

theorem fits_gapRuns {prevEnd : Nat} {l : List DataRegion} (hLe : ∀ r ∈ l, r.start ≤ r.stop)
    (hStop : ∀ r ∈ l, r.stop ≤ offMax) (hMagic : ∀ r ∈ l, r.magic < 2147483648) :
    ∀ r ∈ gapRuns prevEnd l, r.Fits := by
  induction l generalizing prevEnd with
  | nil => exact List.forall_mem_nil _
  | cons dr rest ih =>
    obtain ⟨hLe, hLe'⟩ := List.forall_mem_cons.mp hLe
    obtain ⟨hStop, hStop'⟩ := List.forall_mem_cons.mp hStop
    obtain ⟨hMagic, hMagic'⟩ := List.forall_mem_cons.mp hMagic
    rw [gapRuns]
    intro r hr
    rcases List.mem_append.mp hr with hr | hr
    · rcases List.mem_cons.mp hr with rfl | hr
      · rw [offMax] at hStop
        exact show dr.start - prevEnd < 2147483648 by omega
      · exact DataRegion.fits_runs hLe hStop hMagic r hr
    · exact ih hLe' hStop' hMagic' r hr

theorem Data.Cut.fits (h : d.Cut) : ∀ r ∈ d.runs, r.Fits :=
  fits_gapRuns h.start_le h.stop_le h.magic_lt

end

namespace Run

def length : Run → Nat
  | zero length => length
  | other bytes => bytes.length
  | magic length _ => length

def number : Run → Nat
  | magic _ m => m
  | _ => 0

/-- The end and the magic number of each run of a row that starts at `p`. -/
def ends : Nat → List Run → List (Nat × Nat)
  | _, [] => []
  | p, r :: rest => (p + r.length, r.number) :: ends (p + r.length) rest

/-- The run of so many bytes at `p`, of a magic region if the number is not zero. -/
def readAt (mem : Nat → UInt8) (p n m : Nat) : Run :=
  if m ≠ 0 then magic n m else if n = 0 ∨ mem p = 0 then zero n else other (segment mem p (p + n))

/-- The runs, laid out from `p` on, are those of `mem`. -/
def Show (mem : Nat → UInt8) : Nat → List Run → Prop
  | _, [] => True
  | p, r :: rest => r = readAt mem p r.length r.number ∧ Show mem (p + r.length) rest

variable {mem : Nat → UInt8} {p : Nat} {l l' : List Run}

theorem ends_append : ends p (l ++ l') = ends p l ++ ends (p + (l.map length).sum) l' := by
  induction l generalizing p with
  | nil => rfl
  | cons r rest ih =>
    rw [List.cons_append, ends, ends, ih, List.map_cons, List.sum_cons, Nat.add_assoc]
    rfl

theorem show_append :
    Show mem p (l ++ l') ↔ Show mem p l ∧ Show mem (p + (l.map length).sum) l' := by
  induction l generalizing p with
  | nil => exact iff_of_eq (true_and _).symm
  | cons r rest ih =>
    rw [List.cons_append, Show, Show, ih, List.map_cons, List.sum_cons, Nat.add_assoc, and_assoc]

theorem Show.eq_of_ends (h : Show mem p l) (h' : Show mem p l') (hEnds : ends p l = ends p l') :
    l = l' := by
  induction l generalizing p l' with
  | nil =>
    cases l' with
    | nil => rfl
    | cons => cases hEnds
  | cons r rest ih =>
    cases l' with
    | nil => cases hEnds
    | cons r' rest' =>
      obtain ⟨hHead, hRest⟩ := List.cons.inj hEnds
      obtain ⟨hStop, hNumber⟩ := Prod.mk.inj hHead
      obtain rfl : r = r' := by
        rw [h.1, h'.1, hNumber, Nat.add_left_cancel hStop]
      exact congrArg _ (ih h.2 h'.2 hRest)

end Run

section
variable {mem : Nat → UInt8} {p : Nat} {dr : DataRegion}
  {l : List DataRegion} {d d' : Data}

theorem byteRuns_induction {motive : Bytes → Prop} (nil : motive [])
    (append : ∀ (zeros : Bool) (run rest : Bytes), run ≠ [] →
      (∀ x ∈ run, decide (x = 0) = zeros) → (∀ x ∈ rest.head?, decide (x = 0) ≠ zeros) →
      motive rest → motive (run ++ rest)) (bytes : Bytes) : motive bytes := by
  induction hLength : bytes.length using Nat.strong_induction_on generalizing bytes with
  | _ n ih =>
    cases bytes with
    | nil => exact nil
    | cons x rest =>
      let same := fun y : UInt8 => decide (decide (y = 0) = decide (x = 0))
      have hRun : (x :: rest).takeWhile same = x :: rest.takeWhile same := by
        rw [List.takeWhile_cons, if_pos (decide_eq_true rfl)]
      have hSplit := List.takeWhile_append_dropWhile (p := same) (l := x :: rest)
      have hShort : ((x :: rest).dropWhile same).length < n := by
        rw [← hLength, ← congrArg List.length hSplit, hRun, List.length_append, List.length_cons]
        omega
      rw [← hSplit]
      refine append (decide (x = 0)) _ _ (by simp [hRun]) ?_ ?_ (ih _ hShort _ rfl)
      · intro y hy
        have hSame : same y = true := List.mem_takeWhile_imp hy
        exact of_decide_eq_true hSame
      · intro y hy
        have hStops := List.head?_dropWhile_not same (x :: rest)
        rw [Option.mem_def.mp hy] at hStops
        exact of_decide_eq_false hStops

theorem runEnds_append (zeros : Bool) {run rest : Bytes} (hNe : run ≠ [])
    (hRun : ∀ x ∈ run, decide (x = 0) = zeros) (hRest : ∀ x ∈ rest.head?, decide (x = 0) ≠ zeros) :
    runEnds p (run ++ rest) = (p + run.length) :: runEnds (p + run.length) rest := by
  induction run generalizing p with
  | nil => exact absurd rfl hNe
  | cons x more ih =>
    obtain ⟨hx, hMore⟩ := List.forall_mem_cons.mp hRun
    cases more with
    | nil =>
      cases rest with
      | nil => rfl
      | cons y rest =>
        have hy : decide (x = 0) ≠ decide (y = 0) := fun h => hRest y rfl (h.symm.trans hx)
        rw [List.singleton_append, runEnds, if_neg hy, List.length_singleton]
    | cons y more =>
      have hy : decide (x = 0) = decide (y = 0) := hx.trans (hMore y List.mem_cons_self).symm
      rw [List.cons_append, List.cons_append, runEnds, if_pos hy, ← List.cons_append,
        ih (List.cons_ne_nil _ _) hMore, Nat.add_assoc, Nat.add_comm 1]
      rfl

theorem runOf_spec {run : Bytes} (hNe : run ≠ []) (hBytes : run = segment mem p (p + run.length)) :
    runOf run = .readAt mem p run.length 0 ∧ (runOf run).length = run.length ∧
      (runOf run).number = 0 := by
  have hPos := List.length_pos_iff.mpr hNe
  have hHead : run.head? = some (mem p) := by
    rw [hBytes]
    exact head?_segment (by omega)
  rw [runOf, hHead, Run.readAt, ← hBytes]
  by_cases hZero : mem p = 0
  · simp [hZero, Run.length, Run.number]
  · simp [hZero, hPos.ne', Run.length, Run.number]

theorem byteRuns_spec {bytes : Bytes} (hBytes : bytes = segment mem p (p + bytes.length)) :
    Run.Show mem p ((byteRuns bytes).map runOf) ∧
      Run.ends p ((byteRuns bytes).map runOf) = (runEnds p bytes).map (fun x => (x, 0)) ∧
      (((byteRuns bytes).map runOf).map Run.length).sum = bytes.length := by
  induction bytes using byteRuns_induction generalizing p with
  | nil => exact ⟨trivial, rfl, rfl⟩
  | append zeros run rest hNe hRun hRest ih =>
    rw [List.length_append, ← segment_append (Nat.le_add_right p run.length) (by omega)] at hBytes
    obtain ⟨hFirst, hLast⟩ := List.append_inj hBytes (by rw [length_segment]; omega)
    obtain ⟨hShows, hLength, hNumber⟩ := runOf_spec hNe hFirst
    obtain ⟨hShow, hEnds, hSum⟩ := ih (by rw [← Nat.add_assoc] at hLast; exact hLast)
    rw [byteRuns_append zeros hRun hRest, if_neg (by simpa using hNe), List.singleton_append,
      List.map_cons, runEnds_append zeros hNe hRun hRest, Run.Show, Run.ends, hLength, hNumber,
      hEnds, List.map_cons, List.map_cons, List.sum_cons, hLength, hSum, List.length_append]
    exact ⟨⟨hShows, hShow⟩, rfl, rfl⟩

variable [Hashes]

theorem DataRegion.runs_spec (hLe : dr.start ≤ dr.stop)
    (hRegular : dr.magic = 0 → dr.stop - dr.start ≤ dr.data.length)
    (hBytes : ∀ x, dr.start ≤ x → x < dr.stop → mem x = dr.byteAt x) :
    Run.Show mem dr.start dr.runs ∧ (dr.start, 0) :: Run.ends dr.start dr.runs = dr.boundaries ∧
      (dr.runs.map Run.length).sum = dr.stop - dr.start := by
  rw [runs, boundaries]
  split_ifs with hMagic
  · refine ⟨⟨(if_pos hMagic).symm, trivial⟩, ?_, rfl⟩
    rw [Run.ends, Run.ends, Run.length, Run.number, Nat.add_sub_cancel' hLe]
  · have hData := hRegular (not_not.mp hMagic)
    have hLength : (dr.data.take (dr.stop - dr.start)).length = dr.stop - dr.start := by
      rw [List.length_take]
      omega
    have hSegment : dr.data.take (dr.stop - dr.start) =
        segment mem dr.start (dr.start + (dr.data.take (dr.stop - dr.start)).length) := by
      apply List.ext_getElem
      · rw [length_segment]
        omega
      · intro i hi hi'
        have hByte := hBytes (dr.start + i) (by omega) (by omega)
        rw [DataRegion.byteAt, if_pos (not_not.mp hMagic), Nat.add_sub_cancel_left] at hByte
        simp [segment, hByte, List.getElem?_eq_getElem (show i < dr.data.length by omega)]
    obtain ⟨hShow, hEnds, hSum⟩ := byteRuns_spec hSegment
    exact ⟨hShow, by rw [hEnds], hSum.trans hLength⟩

theorem gapRuns_spec {prevEnd : Nat} (hFirst : ∀ r ∈ l, prevEnd ≤ r.start)
    (hSorted : l.Pairwise fun r r' => r.stop ≤ r'.start) (hLe : ∀ r ∈ l, r.start ≤ r.stop)
    (hRegular : ∀ r ∈ l, r.magic = 0 → r.stop - r.start ≤ r.data.length)
    (hBytes : ∀ x, prevEnd ≤ x → mem x = (regionValue l x).getD 0) :
    Run.Show mem prevEnd (gapRuns prevEnd l) ∧
      Run.ends prevEnd (gapRuns prevEnd l) = l.flatMap DataRegion.boundaries := by
  induction l generalizing prevEnd with
  | nil => exact ⟨trivial, rfl⟩
  | cons dr rest ih =>
    obtain ⟨hHead, hTail⟩ := List.pairwise_cons.mp hSorted
    obtain ⟨hr, hRest⟩ := List.forall_mem_cons.mp hLe
    obtain ⟨hData, hData'⟩ := List.forall_mem_cons.mp hRegular
    have hStart := hFirst dr List.mem_cons_self
    have hCons : ∀ x, regionValue (dr :: rest) x =
        (regionValue [dr] x).or (regionValue rest x) :=
      fun x => regionValue_append (l := [dr])
    -- the gap holds zeros, the region its bytes, and the other regions lie behind it
    have hGap : dr.start - prevEnd = 0 ∨ mem prevEnd = 0 := by
      refine (Nat.eq_zero_or_pos _).imp_right fun hPos => ?_
      rw [hBytes prevEnd (Nat.le_refl _), regionValue_eq_none]
      · rfl
      · intro r hMem hStarts
        rcases List.mem_cons.mp hMem with rfl | hMem
        · omega
        · have := hHead r hMem
          omega
    have hIn : ∀ x, dr.start ≤ x → x < dr.stop → mem x = dr.byteAt x := by
      intro x hLow hHigh
      rw [hBytes x (by omega), hCons, regionValue_singleton, if_pos ⟨hLow, hHigh⟩]
      rfl
    have hAfter : ∀ x, dr.stop ≤ x → mem x = (regionValue rest x).getD 0 := by
      intro x hLow
      rw [hBytes x (by omega), hCons, regionValue_singleton, if_neg (by omega), Option.none_or]
    obtain ⟨hShow, hEnds, hSum⟩ := DataRegion.runs_spec hr hData hIn
    obtain ⟨hShow', hEnds'⟩ := ih hHead hTail hRest hData' hAfter
    have hAt : prevEnd + (Run.zero (dr.start - prevEnd)).length = dr.start := by
      rw [Run.length]
      omega
    rw [gapRuns, List.cons_append, Run.Show, Run.ends, Run.show_append, Run.ends_append, hAt, hSum,
      Nat.add_sub_cancel' hr, hEnds', List.flatMap_cons, ← hEnds]
    exact ⟨⟨(if_pos hGap).symm, hShow, hShow'⟩, rfl⟩

theorem Data.Cut.runs_spec (h : d.Cut) :
    Run.Show d.byteAt 0 d.runs ∧ Run.ends 0 d.runs = d.boundaries :=
  gapRuns_spec (fun _ _ => Nat.zero_le _) h.sorted h.start_le h.regular fun _ _ => rfl

theorem Data.Cut.runs_eq_iff (h : d.Cut) (h' : d'.Cut) (hBytes : d.byteAt = d'.byteAt) :
    d.runs = d'.runs ↔ d.boundaries = d'.boundaries := by
  obtain ⟨hShow, hEnds⟩ := h.runs_spec
  obtain ⟨hShow', hEnds'⟩ := h'.runs_spec
  rw [← hEnds, ← hEnds']
  constructor
  · exact congrArg _
  · rw [hBytes] at hShow
    exact hShow.eq_of_ends hShow'

omit [Hashes] in
theorem Data.Cut.canonData_eq_iff (h : d.Cut) (h' : d'.Cut) :
    (canonData d = canonData d' ∧ d.InBounds ∧ d'.InBounds) ↔
      (d.runs = d'.runs ∧ d.Spare ∧ d'.Spare) := by
  rw [Data.inBounds_iff, Data.inBounds_iff, ← h.bytes_runs, ← h'.bytes_runs]
  apply and_congr_left
  intro _
  constructor
  · intro hEq
    refine run_code.flatMap_inj ?_ h.fits h'.fits hEq
    intro r _
    simp [Run.bytes, intBytes]
  · exact congrArg _

end

/-- The archives agree, and no byte outside a buffer is looked at, exactly when the runs are the
same and all regular regions have longer buffers than they need. If both objects hold the same
bytes, the runs are the same exactly when the regions and the runs in them have the same
boundaries. -/
theorem canonData_eq_inBounds_iff [Hashes] {d d' : Data} (h : d.Cut) (h' : d'.Cut) :
    ((canonData d = canonData d' ∧ d.InBounds ∧ d'.InBounds) ↔
      (d.runs = d'.runs ∧ d.Spare ∧ d'.Spare)) ∧
    (d.byteAt = d'.byteAt → ((canonData d = canonData d' ∧ d.InBounds ∧ d'.InBounds) ↔
        (d.boundaries = d'.boundaries ∧ d.Spare ∧ d'.Spare))) := by
  refine ⟨h.canonData_eq_iff h', ?_⟩
  intro hBytes
  rw [h.canonData_eq_iff h', h.runs_eq_iff h' hBytes]

def cutBack : Data :=
  { Data.empty false sampleJunk with
    regions := [⟨0, 8, 0, [1, 1, 1, 1, 0, 0, 0, 0, 9]⟩, ⟨12, 20, 0, [0, 0, 0, 0, 2, 2, 2, 2, 9]⟩] }

def cutThrice : Data :=
  { Data.empty false sampleJunk with
    regions := [⟨0, 4, 0, [1, 1, 1, 1, 9]⟩, ⟨8, 12, 0, [0, 0, 0, 0, 9]⟩,
      ⟨16, 20, 0, [2, 2, 2, 2, 9]⟩] }

theorem byteAt_eq_of_below [Hashes] {d d' : Data} (n : Nat)
    (hBelow : ∀ x < n, d.byteAt x = d'.byteAt x)
    (hStop : ∀ r ∈ d.regions, r.stop ≤ n) (hStop' : ∀ r ∈ d'.regions, r.stop ≤ n) :
    d.byteAt = d'.byteAt := by
  funext x
  rcases Nat.lt_or_ge x n with hLt | hGe
  · exact hBelow x hLt
  · rw [Data.byteAt, Data.byteAt, regionValue_eq_none fun r hr _ => (hStop r hr).trans hGe,
      regionValue_eq_none fun r hr _ => (hStop' r hr).trans hGe]

attribute [local instance] sampleHashes

theorem canonData_eq_inBounds_iff_cutBack :
    cutBack.byteAt = cutThrice.byteAt ∧
      canonData cutBack = canonData cutThrice ∧ cutBack.InBounds ∧ cutThrice.InBounds := by
  have hBack : cutBack.Cut := by constructor <;> decide
  have hThrice : cutThrice.Cut := by constructor <;> decide
  have hBytes : cutBack.byteAt = cutThrice.byteAt :=
    byteAt_eq_of_below 20 (by decide) (by decide) (by decide)
  exact ⟨hBytes, ((canonData_eq_inBounds_iff hBack hThrice).2 hBytes).mpr (by decide)⟩

def uncut : Data :=
  { Data.empty false sampleJunk with regions := [⟨0, 8, 0, [1, 1, 1, 1, 2, 2, 2, 2]⟩] }

def cutInTwo : Data :=
  { Data.empty false sampleJunk with
    regions := [⟨0, 4, 0, [1, 1, 1, 1]⟩, ⟨4, 8, 0, [2, 2, 2, 2]⟩] }

/-- The archives of the same bytes differ, and the byte after a buffer is looked at. -/
theorem canonData_depends_on_cut :
    (∀ x, uncut.byteAt x = cutInTwo.byteAt x) ∧ canonData uncut ≠ canonData cutInTwo ∧
      ∀ past, 8 ∈ ((⟨0, 8, 0, [1, 1, 1, 1, 2, 2, 2, 2]⟩ : DataRegion).scan past).2 := by
  refine ⟨?_, by decide, fun past => (mem_scanRegion _ (by decide) (by decide) 8).mpr (by decide)⟩
  exact congrFun (byteAt_eq_of_below 8 (by decide) (by decide) (by decide))

end Explode.Driver
