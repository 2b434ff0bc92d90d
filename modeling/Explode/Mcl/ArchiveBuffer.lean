import Explode.Driver.ArchiveCode
import Mathlib.Tactic

/-!
# The buffer of an archive

An archive is an area of memory with a pointer to the next byte to be written
and one to the next byte to be read. It grows by doubling its length until the
bytes to be written fit.
-/

namespace Explode.Mcl

open Driver (intBytes unsignedOf)

/-- Pointers are addresses in the memory, which has a byte at every address. The number of
allocations says which address the next one returns. -/
structure ArchiveBuffer where
  buf : Int
  curWr : Int
  curRd : Int
  len : Int
  mem : Int → UInt8
  allocs : Nat

/-- What a failed call ends with. A loop that takes more passes than it was given is still
running. -/
inductive ArchiveFailure
  | running
  | tooSmall
  | outOfMemory
  | uninitialized
  deriving DecidableEq, Repr

def wrapInt (n : Int) : Int := (n + 2147483648) % 4294967296 - 2147483648

def copied (mem : Int → UInt8) (dst : Int) (bytes : Bytes) : Int → UInt8 := fun x =>
  if dst ≤ x then (bytes[(x - dst).toNat]?).getD (mem x) else mem x

def moved (mem : Int → UInt8) (src dst size : Int) : Int → UInt8 := fun x =>
  if dst ≤ x ∧ x < dst + size then mem (x - dst + src) else mem x

namespace ArchiveBuffer

def minLen : Nat := 16

variable (malloc : Nat → Int)

def init (mem : Int → UInt8) (l : Nat) : ArchiveBuffer where
  buf := malloc 0
  curWr := malloc 0
  curRd := malloc 0
  len := if l < minLen then minLen else l
  mem := mem
  allocs := 1

/-- The assertion is on the length that is asked for. Only a null pointer is checked for. -/
def resize (ar : ArchiveBuffer) (l : Int) : Except ArchiveFailure ArchiveBuffer :=
  if ar.curWr - ar.buf ≤ l then
    let new := malloc ar.allocs
    if new = 0 then .error .outOfMemory
    else .ok { buf := new, curWr := ar.curWr + (new - ar.buf), curRd := ar.curRd + (new - ar.buf),
               len := l, mem := moved ar.mem ar.buf new (min ar.len l), allocs := ar.allocs + 1 }
  else .error .tooSmall

/-- The loop of `check_expand`, with a bound on the number of passes. -/
def checkExpand : Nat → ArchiveBuffer → Nat → Except ArchiveFailure ArchiveBuffer
  | 0, _, _ => .error .running
  | fuel + 1, ar, l =>
    if ar.buf + ar.len < ar.curWr + l then
      (ar.resize malloc (wrapInt (2 * ar.len))).bind fun ar' => checkExpand fuel ar' l
    else .ok ar

def put (fuel : Nat) (ar : ArchiveBuffer) (p : Bytes) : Except ArchiveFailure ArchiveBuffer :=
  (checkExpand malloc fuel ar p.length).map fun ar' =>
    { ar' with mem := copied ar'.mem ar'.curWr p, curWr := ar'.curWr + p.length }

def get (ar : ArchiveBuffer) (l : Nat) : Except ArchiveFailure (Bytes × ArchiveBuffer) :=
  if ar.curRd + l ≤ ar.curWr then
    .ok ((List.range l).map fun i : Nat => ar.mem (ar.curRd + i), { ar with curRd := ar.curRd + l })
  else .error .uninitialized

def putString (fuel : Nat) (ar : ArchiveBuffer) (s : Bytes) : Except ArchiveFailure ArchiveBuffer :=
  (ar.put malloc fuel (intBytes s.length)).bind fun ar' => ar'.put malloc fuel s

def getString (ar : ArchiveBuffer) : Except ArchiveFailure (Bytes × ArchiveBuffer) :=
  (ar.get 4).bind fun r => r.2.get (unsignedOf r.1)

def attach (ar : ArchiveBuffer) (b : Int) (bytes : Bytes) : ArchiveBuffer :=
  { ar with buf := b, len := bytes.length, curWr := b + bytes.length, curRd := b,
            mem := copied ar.mem b bytes }

def detach (ar : ArchiveBuffer) : ArchiveBuffer :=
  { ar with buf := 0, curWr := 0, curRd := 0, len := 0 }

end ArchiveBuffer

inductive ArchiveOp
  | put (p : Bytes)
  | get (l : Nat)
  | putString (s : Bytes)
  | getString
  | resize (l : Int)
  | attach (b : Int) (bytes : Bytes)
  | detach
  deriving DecidableEq, Repr

def ArchiveBuffer.step (malloc : Nat → Int) (fuel : Nat) (ar : ArchiveBuffer) :
    ArchiveOp → Except ArchiveFailure (Bytes × ArchiveBuffer)
  | .put p => (ar.put malloc fuel p).map fun ar' => ([], ar')
  | .get l => ar.get l
  | .putString s => (ar.putString malloc fuel s).map fun ar' => ([], ar')
  | .getString => ar.getString
  | .resize l => (ar.resize malloc l).map fun ar' => ([], ar')
  | .attach b bytes => .ok ([], ar.attach b bytes)
  | .detach => .ok ([], ar.detach)

def ArchiveBuffer.call (malloc : Nat → Int) (fuel : Nat) (r : List Bytes × ArchiveBuffer)
    (op : ArchiveOp) : Except ArchiveFailure (List Bytes × ArchiveBuffer) :=
  (r.2.step malloc fuel op).map fun r' => (r.1 ++ [r'.1], r'.2)

def ArchiveBuffer.run (malloc : Nat → Int) (fuel : Nat) (ar : ArchiveBuffer)
    (ops : List ArchiveOp) : Except ArchiveFailure (List Bytes × ArchiveBuffer) :=
  ops.foldlM (call malloc fuel) ([], ar)

/-- What a call does to the row of bytes since the last `attach` or `detach`. There is no result
if more bytes are asked for than are left. -/
def queueStep (q : Driver.Archive) : ArchiveOp → Option (Bytes × Driver.Archive)
  | .put p => some ([], q.put p)
  | .get l => q.get l
  | .putString s => some ([], q.putString s)
  | .getString => q.getString
  | .resize _ => some ([], q)
  | .attach _ bytes => some ([], ⟨bytes, 0⟩)
  | .detach => some ([], .empty)

def queueCall (r : List Bytes × Driver.Archive) (op : ArchiveOp) :
    Option (List Bytes × Driver.Archive) :=
  (queueStep r.2 op).map fun r' => (r.1 ++ [r'.1], r'.2)

def queueRun (ops : List ArchiveOp) : Option (List Bytes × Driver.Archive) :=
  ops.foldlM queueCall ([], .empty)

structure Holds (ar : ArchiveBuffer) (q : Driver.Archive) : Prop where
  rd_le : q.rd ≤ q.buf.length
  curWr : ar.curWr = ar.buf + q.buf.length
  curRd : ar.curRd = ar.buf + q.rd
  room : (q.buf.length : Int) ≤ ar.len
  isInt : ar.len < 2147483648
  bytes : ∀ i, i < q.buf.length → q.buf[i]? = some (ar.mem (ar.buf + i))

/-- So many bytes fit after some doublings of the length, which are still ints. -/
def CanGrow (ar : ArchiveBuffer) (l : Nat) : Prop :=
  ∃ k : Nat, ar.curWr - ar.buf + l ≤ ar.len * 2 ^ k ∧ ar.len * 2 ^ k < 2147483648

inductive Agrees {α : Type} : Except ArchiveFailure (α × ArchiveBuffer) →
    Option (α × Driver.Archive) → Prop
  | returned {a : α} {ar : ArchiveBuffer} {q : Driver.Archive} (hHolds : Holds ar q) :
      Agrees (.ok (a, ar)) (some (a, q))
  | failed : Agrees (.error .uninitialized) none

open ArchiveBuffer

section
variable {malloc : Nat → Int} {ar : ArchiveBuffer} {q : Driver.Archive}

theorem Holds.written (hHolds : Holds ar q) : ar.curWr - ar.buf = q.buf.length := by
  rw [hHolds.curWr]
  omega

theorem resize_ok (hMalloc : ∀ k, malloc k ≠ 0) (hHolds : Holds ar q) {l : Int}
    (hLe : (q.buf.length : Int) ≤ l) (hInt : l < 2147483648) :
    ∃ ar', ar.resize malloc l = .ok ar' ∧ Holds ar' q ∧ ar'.len = l := by
  have hWritten := hHolds.written
  unfold resize
  rw [if_pos (by omega), if_neg (hMalloc _)]
  refine ⟨_, rfl, ⟨hHolds.rd_le, ?_, ?_, hLe, hInt, fun i hi => ?_⟩, rfl⟩
  · dsimp only
    rw [hHolds.curWr]
    omega
  · dsimp only
    rw [hHolds.curRd]
    omega
  · have hIn : malloc ar.allocs ≤ malloc ar.allocs + (i : Int) ∧
        malloc ar.allocs + (i : Int) < malloc ar.allocs + min ar.len l := by
      have := hHolds.room
      omega
    have hFrom : malloc ar.allocs + (i : Int) - malloc ar.allocs + ar.buf = ar.buf + i := by omega
    dsimp only [moved]
    rw [if_pos hIn, hFrom]
    exact hHolds.bytes i hi

theorem resize_error (hHolds : Holds ar q) {l : Int} (hLt : l < q.buf.length) :
    ar.resize malloc l = .error .tooSmall := by
  have := hHolds.written
  rw [resize, if_neg (by omega)]

theorem wrapInt_eq {n : Int} (hLow : -2147483648 ≤ n) (hHigh : n < 2147483648) : wrapInt n = n := by
  unfold wrapInt
  omega

theorem wrapInt_neg {n : Int} (hLow : 2147483648 ≤ n) (hHigh : n < 4294967296) : wrapInt n < 0 := by
  unfold wrapInt
  omega

theorem checkExpand_ok (hMalloc : ∀ k, malloc k ≠ 0) (l k : Nat) {fuel : Nat} (hFuel : k < fuel)
    (hHolds : Holds ar q) (hFits : (q.buf.length : Int) + l ≤ ar.len * 2 ^ k)
    (hInt : ar.len * 2 ^ k < 2147483648) :
    ∃ ar' j, checkExpand malloc fuel ar l = .ok ar' ∧ Holds ar' q ∧ j ≤ k ∧
      ar'.len = ar.len * 2 ^ j ∧ (q.buf.length : Int) + l ≤ ar'.len := by
  induction k generalizing ar fuel with
  | zero =>
    obtain ⟨fuel, rfl⟩ := Nat.exists_eq_succ_of_ne_zero (Nat.ne_of_gt hFuel)
    simp only [pow_zero, mul_one] at hFits
    rw [checkExpand, if_neg (by rw [hHolds.curWr]; omega)]
    exact ⟨ar, 0, rfl, hHolds, Nat.le_refl _, by simp, hFits⟩
  | succ k ih =>
    obtain ⟨fuel, rfl⟩ := Nat.exists_eq_succ_of_ne_zero (Nat.ne_of_gt (Nat.zero_lt_of_lt hFuel))
    rw [checkExpand]
    split_ifs with hFull
    · have hDouble : ar.len * 2 ^ (k + 1) = 2 * ar.len * 2 ^ k := by ring
      have hRoom := hHolds.room
      have hSmall : 2 * ar.len ≤ 2 * ar.len * 2 ^ k :=
        le_mul_of_one_le_right (by omega) (one_le_pow₀ (by decide))
      rw [hDouble] at hFits hInt
      rw [wrapInt_eq (by omega) (by omega)]
      obtain ⟨ar₁, hResize, hHolds₁, hLen⟩ :=
        resize_ok hMalloc hHolds (by omega : (q.buf.length : Int) ≤ 2 * ar.len) (by omega)
      rw [hResize]
      rw [← hLen] at hFits hInt
      obtain ⟨ar', j, hExpand, hHolds', hj, hLen', hEnough⟩ :=
        ih (Nat.lt_of_succ_lt_succ hFuel) hHolds₁ hFits hInt
      refine ⟨ar', j + 1, hExpand, hHolds', by omega, ?_, hEnough⟩
      rw [hLen', hLen]
      ring
    · exact ⟨ar, 0, rfl, hHolds, Nat.zero_le _, by simp, by rw [hHolds.curWr] at hFull; omega⟩

theorem checkExpand_error (hMalloc : ∀ k, malloc k ≠ 0) (l fuel : Nat) (hHolds : Holds ar q)
    (hFull : ∀ k : Nat, (q.buf.length : Int) + l ≤ ar.len * 2 ^ k → 2147483648 ≤ ar.len * 2 ^ k) :
    checkExpand malloc fuel ar l = .error .running ∨
      checkExpand malloc fuel ar l = .error .tooSmall := by
  induction fuel generalizing ar with
  | zero => exact .inl rfl
  | succ fuel ih =>
    have hRoom := hHolds.room
    have hInt := hHolds.isInt
    have hNow := hFull 0
    simp only [pow_zero, mul_one] at hNow
    rw [checkExpand, if_pos (by rw [hHolds.curWr]; omega)]
    obtain hSmall | hLarge := lt_or_ge (2 * ar.len) 2147483648
    · rw [wrapInt_eq (by omega) hSmall]
      obtain ⟨ar₁, hResize, hHolds₁, hLen⟩ :=
        resize_ok hMalloc hHolds (by omega : (q.buf.length : Int) ≤ 2 * ar.len) hSmall
      rw [hResize]
      refine ih hHolds₁ fun k hk => ?_
      have hDouble : ar₁.len * 2 ^ k = ar.len * 2 ^ (k + 1) := by
        rw [hLen]
        ring
      rw [hDouble] at hk ⊢
      exact hFull (k + 1) hk
    · have hNeg := wrapInt_neg hLarge (by omega)
      rw [resize_error hHolds (by omega)]
      exact .inr rfl

theorem copied_apply {mem : Int → UInt8} {dst : Int} {bytes : Bytes} {i : Nat}
    (hi : i < bytes.length) : bytes[i]? = some (copied mem dst bytes (dst + i)) := by
  have hIndex : (dst + (i : Int) - dst).toNat = i := by omega
  rw [copied, if_pos (by omega), hIndex, List.getElem?_eq_getElem hi, Option.getD_some]

theorem copied_before {mem : Int → UInt8} {dst x : Int} {bytes : Bytes} (hx : x < dst) :
    copied mem dst bytes x = mem x := by
  rw [copied, if_neg (by omega)]

theorem Holds.append (hHolds : Holds ar q) {p : Bytes}
    (hFits : (q.buf.length : Int) + p.length ≤ ar.len) :
    Holds { ar with mem := copied ar.mem ar.curWr p, curWr := ar.curWr + p.length } (q.put p) := by
  obtain ⟨hRd, hWr, hCurRd, hRoom, hInt, hBytes⟩ := hHolds
  refine ⟨?_, ?_, hCurRd, ?_, hInt, fun i hi => ?_⟩
  · simp only [Driver.Archive.put, List.length_append]
    omega
  · simp only [Driver.Archive.put, List.length_append]
    omega
  · simpa [Driver.Archive.put] using hFits
  · simp only [Driver.Archive.put, List.length_append] at hi ⊢
    obtain hOld | hNew := Nat.lt_or_ge i q.buf.length
    · rw [List.getElem?_append_left hOld, hBytes i hOld, copied_before (by omega)]
    · have hAt : ar.buf + (i : Int) = ar.curWr + (i - q.buf.length : Nat) := by omega
      rw [List.getElem?_append_right hNew, hAt]
      exact copied_apply (by omega)

theorem CanGrow.le {m n : Nat} (hGrow : CanGrow ar n) (hLe : m ≤ n) : CanGrow ar m := by
  obtain ⟨k, hFits, hInt⟩ := hGrow
  exact ⟨k, by omega, hInt⟩

theorem CanGrow.bounded (hHolds : Holds ar q) {l : Nat} (hGrow : CanGrow ar l) :
    ∃ k < 32, (q.buf.length : Int) + l ≤ ar.len * 2 ^ k ∧ ar.len * 2 ^ k < 2147483648 := by
  obtain ⟨k, hFits, hInt⟩ := hGrow
  rw [hHolds.written] at hFits
  have hRoom := hHolds.room
  obtain hZero | hPos : ar.len = 0 ∨ 1 ≤ ar.len := by omega
  · rw [hZero, zero_mul] at hFits
    exact ⟨0, by decide, by rw [hZero]; simpa using hFits, by rw [hZero]; simp⟩
  · refine ⟨k, ?_, hFits, hInt⟩
    by_contra hLarge
    have hPow : (2 : Int) ^ 32 ≤ 2 ^ k := pow_le_pow_right₀ (by decide) (by omega)
    have hMul : (2 : Int) ^ k ≤ ar.len * 2 ^ k := le_mul_of_one_le_left (by positivity) hPos
    have hNum : (2 : Int) ^ 32 = 4294967296 := by norm_num
    omega

theorem put_error (hMalloc : ∀ k, malloc k ≠ 0) (fuel : Nat) (hHolds : Holds ar q)
    {p : Bytes} (hGrow : ¬CanGrow ar p.length) :
    ar.put malloc fuel p = .error .running ∨ ar.put malloc fuel p = .error .tooSmall := by
  have hFull : ∀ k : Nat, (q.buf.length : Int) + p.length ≤ ar.len * 2 ^ k →
      2147483648 ≤ ar.len * 2 ^ k := by
    intro k hk
    by_contra hSmall
    exact hGrow ⟨k, by rw [hHolds.written]; exact hk, by omega⟩
  refine (checkExpand_error hMalloc p.length fuel hHolds hFull).imp ?_ ?_
  · intro hExpand
    rw [put, hExpand]
    rfl
  · intro hExpand
    rw [put, hExpand]
    rfl

theorem canGrow_add {ar' : ArchiveBuffer} {m n j : Nat} (hLen : ar'.len = ar.len * 2 ^ j)
    (hWritten : ar'.curWr - ar'.buf = ar.curWr - ar.buf + m) (hGrow : CanGrow ar' n) :
    CanGrow ar (m + n) := by
  obtain ⟨k, hFits, hInt⟩ := hGrow
  have hPow : ar'.len * 2 ^ k = ar.len * 2 ^ (j + k) := by rw [hLen, pow_add, mul_assoc]
  rw [hPow] at hFits hInt
  exact ⟨j + k, by push_cast; omega, hInt⟩

theorem CanGrow.rest {ar' : ArchiveBuffer} {m n j : Nat} (hGrow : CanGrow ar (m + n))
    (hLen : ar'.len = ar.len * 2 ^ j) (hPos : 0 ≤ ar.len) (hInt' : ar'.len < 2147483648)
    (hWritten : ar'.curWr - ar'.buf = ar.curWr - ar.buf + m) : CanGrow ar' n := by
  obtain ⟨k, hFits, hInt⟩ := hGrow
  push_cast at hFits
  obtain hLt | hLe := Nat.lt_or_ge k j
  · have hMono : ar.len * 2 ^ k ≤ ar'.len := by
      rw [hLen]
      exact mul_le_mul_of_nonneg_left (pow_le_pow_right₀ (by decide) hLt.le) hPos
    exact ⟨0, by simp only [pow_zero, mul_one]; omega, by simpa using hInt'⟩
  · have hPow : ar'.len * 2 ^ (k - j) = ar.len * 2 ^ k := by
      rw [hLen, mul_assoc, ← pow_add, Nat.add_sub_cancel' hLe]
    exact ⟨k - j, by rw [hPow]; omega, by rw [hPow]; exact hInt⟩

theorem get_agrees (hHolds : Holds ar q) (l : Nat) : Agrees (ar.get l) (q.get l) := by
  obtain ⟨hRd, hWr, hCurRd, hRoom, hInt, hBytes⟩ := hHolds
  unfold ArchiveBuffer.get Driver.Archive.get
  by_cases hLeft : q.rd + l ≤ q.buf.length
  · have hNext : (List.range l).map (fun i : Nat => ar.mem (ar.curRd + i)) =
        (q.buf.drop q.rd).take l := by
      refine List.ext_getElem? fun i => ?_
      obtain hi | hi := Nat.lt_or_ge i l
      · have hAt : ar.curRd + (i : Int) = ar.buf + (q.rd + i : Nat) := by omega
        rw [List.getElem?_take_of_lt hi, List.getElem?_drop, hBytes (q.rd + i) (by omega), ← hAt]
        simp [hi]
      · rw [List.getElem?_eq_none (by simpa using hi), List.getElem?_eq_none (by simp; omega)]
    rw [if_pos (by omega), if_pos hLeft, hNext]
    exact .returned ⟨hLeft, hWr, by dsimp only; omega, hRoom, hInt, hBytes⟩
  · rw [if_neg (by omega), if_neg hLeft]
    exact .failed

theorem getString_agrees (hHolds : Holds ar q) : Agrees ar.getString q.getString := by
  unfold getString Driver.Archive.getString Driver.Archive.getUnsigned
  have hSize := get_agrees hHolds 4
  generalize ar.get 4 = c at hSize ⊢
  generalize q.get 4 = d at hSize ⊢
  cases hSize with
  | returned hHolds' => exact get_agrees hHolds' _
  | failed => exact .failed

def Able (ar : ArchiveBuffer) : ArchiveOp → Prop
  | .put p => CanGrow ar p.length
  | .putString s => CanGrow ar (4 + s.length)
  | _ => True

def Legal (q : Driver.Archive) : ArchiveOp → Prop
  | .resize l => (q.buf.length : Int) ≤ l ∧ l < 2147483648
  | .attach _ bytes => bytes.length < 2147483648
  | _ => True

theorem attach_holds (ar : ArchiveBuffer) (b : Int) {bytes : Bytes}
    (hInt : bytes.length < 2147483648) : Holds (ar.attach b bytes) ⟨bytes, 0⟩ :=
  ⟨Nat.zero_le _, rfl, (Int.add_zero b).symm, Int.le_refl _,
    by dsimp only [ArchiveBuffer.attach]; omega, fun _ hi => copied_apply hi⟩

theorem detach_holds (ar : ArchiveBuffer) : Holds ar.detach .empty :=
  ⟨Nat.le_refl _, rfl, rfl, Int.le_refl _, by dsimp only [ArchiveBuffer.detach]; omega,
    fun _ hi => absurd hi (Nat.not_lt_zero _)⟩

theorem init_holds (malloc : Nat → Int) (mem : Int → UInt8) {l : Nat} (hInt : l < 2147483648) :
    Holds (.init malloc mem l) .empty := by
  refine ⟨Nat.le_refl _, (Int.add_zero _).symm, (Int.add_zero _).symm, ?_, ?_,
    fun _ hi => absurd hi (Nat.not_lt_zero _)⟩
  · dsimp only [init, Driver.Archive.empty, List.length_nil]
    split <;> omega
  · dsimp only [init]
    split
    · decide
    · omega

variable (hMalloc : ∀ k, malloc k ≠ 0) {fuel : Nat} (hFuel : 32 ≤ fuel) (hHolds : Holds ar q)
include hMalloc hFuel hHolds

theorem put_ok {p : Bytes} (hGrow : CanGrow ar p.length) :
    ∃ ar' j, ar.put malloc fuel p = .ok ar' ∧ Holds ar' (q.put p) ∧ ar'.len = ar.len * 2 ^ j := by
  obtain ⟨k, hk, hFits, hInt⟩ := hGrow.bounded hHolds
  obtain ⟨ar₁, j, hExpand, hHolds₁, _, hLen, hEnough⟩ :=
    checkExpand_ok hMalloc p.length k (by omega : k < fuel) hHolds hFits hInt
  refine ⟨_, j, ?_, hHolds₁.append hEnough, hLen⟩
  rw [put, hExpand]
  rfl

theorem putString_ok {s : Bytes} (hGrow : CanGrow ar (4 + s.length)) :
    ∃ ar', ar.putString malloc fuel s = .ok ar' ∧ Holds ar' (q.putString s) := by
  obtain ⟨ar₁, j, hFirst, hHolds₁, hLen₁⟩ := put_ok hMalloc hFuel hHolds
    (hGrow.le (by simp [Driver.length_intBytes]) : CanGrow ar (intBytes s.length).length)
  have hWritten : ar₁.curWr - ar₁.buf = ar.curWr - ar.buf + 4 := by
    rw [hHolds₁.written, hHolds.written]
    simp [Driver.Archive.put, Driver.length_intBytes]
  have hPos : 0 ≤ ar.len := by
    have := hHolds.room
    omega
  have hRest := hGrow.rest hLen₁ hPos hHolds₁.isInt hWritten
  obtain ⟨ar₂, _, hSecond, hHolds₂, _⟩ := put_ok hMalloc hFuel hHolds₁ hRest
  refine ⟨ar₂, ?_, hHolds₂⟩
  rw [putString, hFirst]
  exact hSecond

theorem putString_error {s : Bytes} (hGrow : ¬CanGrow ar (4 + s.length)) :
    ar.putString malloc fuel s = .error .running ∨
      ar.putString malloc fuel s = .error .tooSmall := by
  unfold putString
  by_cases hSize : CanGrow ar (intBytes s.length).length
  · obtain ⟨ar₁, j, hFirst, hHolds₁, hLen₁⟩ := put_ok hMalloc hFuel hHolds hSize
    have hWritten : ar₁.curWr - ar₁.buf = ar.curWr - ar.buf + 4 := by
      rw [hHolds₁.written, hHolds.written]
      simp [Driver.Archive.put, Driver.length_intBytes]
    rw [hFirst]
    exact put_error hMalloc fuel hHolds₁ fun hRest => hGrow (canGrow_add hLen₁ hWritten hRest)
  · obtain hPut | hPut := put_error hMalloc fuel hHolds hSize
    · rw [hPut]
      exact .inl rfl
    · rw [hPut]
      exact .inr rfl

theorem step_agrees {op : ArchiveOp} (hLegal : Legal q op) (hAble : Able ar op) :
    Agrees (ar.step malloc fuel op) (queueStep q op) := by
  cases op with
  | put p =>
    obtain ⟨ar', _, hPut, hHolds', _⟩ := put_ok hMalloc hFuel hHolds hAble
    simp only [step, hPut]
    exact .returned hHolds'
  | get l => exact get_agrees hHolds l
  | putString s =>
    obtain ⟨ar', hPut, hHolds'⟩ := putString_ok hMalloc hFuel hHolds hAble
    simp only [step, hPut]
    exact .returned hHolds'
  | getString => exact getString_agrees hHolds
  | resize l =>
    obtain ⟨ar', hResize, hHolds', _⟩ := resize_ok hMalloc hHolds hLegal.1 hLegal.2
    simp only [step, hResize]
    exact .returned hHolds'
  | attach b bytes => exact .returned (attach_holds ar b hLegal)
  | detach => exact .returned (detach_holds ar)

theorem step_not_able {op : ArchiveOp} (hAble : ¬Able ar op) :
    (∃ r, queueStep q op = some r) ∧ (ar.step malloc fuel op = .error .running ∨
      ar.step malloc fuel op = .error .tooSmall) := by
  cases op with
  | put p =>
    refine ⟨⟨_, rfl⟩, (put_error hMalloc fuel hHolds hAble).imp ?_ ?_⟩
    · intro hPut
      rw [step, hPut]
      rfl
    · intro hPut
      rw [step, hPut]
      rfl
  | putString s =>
    refine ⟨⟨_, rfl⟩, (putString_error hMalloc hFuel hHolds hAble).imp ?_ ?_⟩
    · intro hPut
      rw [step, hPut]
      rfl
    · intro hPut
      rw [step, hPut]
      rfl
  | _ => exact absurd trivial hAble

end

section
variable {malloc : Nat → Int} {fuel : Nat}

theorem run_concat (ar : ArchiveBuffer) (pre : List ArchiveOp) (op : ArchiveOp) :
    ar.run malloc fuel (pre ++ [op]) = (ar.run malloc fuel pre).bind fun r =>
      call malloc fuel r op := by
  rw [ArchiveBuffer.run, List.foldlM_append]
  refine congrArg _ (funext fun r => ?_)
  rw [List.foldlM_cons]
  cases call malloc fuel r op <;> rfl

theorem queueRun_concat (pre : List ArchiveOp) (op : ArchiveOp) :
    queueRun (pre ++ [op]) = (queueRun pre).bind fun r => queueCall r op := by
  rw [queueRun, List.foldlM_append]
  refine congrArg _ (funext fun r => ?_)
  rw [List.foldlM_cons]
  cases queueCall r op <;> rfl

theorem Agrees.call {c : Except ArchiveFailure (Bytes × ArchiveBuffer)}
    {d : Option (Bytes × Driver.Archive)} (hAgrees : Agrees c d) (outs : List Bytes) :
    Agrees (c.map fun r => (outs ++ [r.1], r.2)) (d.map fun r => (outs ++ [r.1], r.2)) := by
  cases hAgrees with
  | returned hHolds => exact .returned hHolds
  | failed => exact .failed

/-- If every call that writes finds an archive that can grow enough, and only then, all calls return
what the row of bytes returns and leave the pointers in order. -/
theorem archive_agrees_iff (malloc : Nat → Int) (hMalloc : ∀ k, malloc k ≠ 0) (mem : Int → UInt8)
    (l : Nat) (hInt : l < 2147483648) (ops : List ArchiveOp)
    (hLegal : ∀ pre op outs q, pre ++ [op] <+: ops → queueRun pre = some (outs, q) → Legal q op)
    (fuel : Nat) (hFuel : 32 ≤ fuel) :
    (∀ pre, pre <+: ops →
        Agrees ((init malloc mem l).run malloc fuel pre) (queueRun pre)) ↔
      ∀ pre op outs ar, pre ++ [op] <+: ops →
        (init malloc mem l).run malloc fuel pre = .ok (outs, ar) → Able ar op := by
  constructor
  · intro hAgrees pre op outs ar hPre hRun
    by_contra hAble
    have hBefore := hAgrees pre ((List.prefix_append _ _).trans hPre)
    have hAfter := hAgrees (pre ++ [op]) hPre
    rw [run_concat, queueRun_concat] at hAfter
    rw [hRun] at hBefore hAfter
    generalize queueRun pre = d at hBefore hAfter
    cases hBefore with
    | returned hHolds =>
      obtain ⟨⟨r, hQueue⟩, hFails⟩ := step_not_able hMalloc hFuel hHolds hAble
      simp only [Except.bind, call, Option.bind_some, queueCall, hQueue] at hAfter
      obtain hFails | hFails := hFails
      · rw [hFails] at hAfter
        cases hAfter
      · rw [hFails] at hAfter
        cases hAfter
  · intro hAble pre hPre
    induction pre using List.reverseRecOn with
    | nil => exact .returned (init_holds malloc mem hInt)
    | append_singleton pre op ih =>
      have hBefore := ih ((List.prefix_append _ _).trans hPre)
      have hLegalOp := fun outs q => hLegal pre op outs q hPre
      have hAbleOp := fun outs ar => hAble pre op outs ar hPre
      rw [run_concat, queueRun_concat]
      generalize (init malloc mem l).run malloc fuel pre = c at hBefore hAbleOp ⊢
      generalize queueRun pre = d at hBefore hLegalOp ⊢
      cases hBefore with
      | @returned outs ar q hHolds =>
        have hStep := step_agrees hMalloc hFuel hHolds (hLegalOp outs q rfl) (hAbleOp outs ar rfl)
        exact hStep.call outs
      | failed => exact .failed

/-- Twenty bytes go into an archive made with the smallest length, which is doubled once. -/
theorem archive_agrees_iff_doubled :
    Agrees ((init (fun k => 4096 * (k + 1)) (fun _ => 0) 0).run
        (fun k => 4096 * (k + 1)) 32 [.put (List.replicate 20 7), .get 3])
      (queueRun [.put (List.replicate 20 7), .get 3]) := by
  refine (archive_agrees_iff _ (fun k => by omega) _ 0 (by decide) _ ?_ 32 (Nat.le_refl _)).mpr ?_ _
    List.prefix_rfl
  · intro pre op outs q hPre _
    have hMem : op ∈ [ArchiveOp.put (List.replicate 20 7), .get 3] := hPre.subset (by simp)
    obtain rfl | rfl : op = .put (List.replicate 20 7) ∨ op = .get 3 := by simpa using hMem
    · trivial
    · trivial
  · intro pre op outs ar hPre hRun
    obtain ⟨rest, hOps⟩ := hPre
    obtain _ | ⟨first, pre⟩ := pre
    · obtain ⟨rfl, _⟩ : op = .put (List.replicate 20 7) ∧ rest = [.get 3] := by simpa using hOps
      obtain ⟨_, rfl⟩ := Prod.mk.inj (Except.ok.inj hRun)
      exact ⟨1, by decide, by decide⟩
    · have hMem : op ∈ [ArchiveOp.get 3] := by
        have hTail : pre ++ [op] ++ rest = [.get 3] := by simpa using (List.cons.inj hOps).2
        rw [← hTail]
        simp
      obtain rfl := List.mem_singleton.mp hMem
      trivial

theorem checkExpand_running (hMalloc : ∀ k, malloc k ≠ 0) {ar : ArchiveBuffer} {l : Nat}
    (hPos : 0 < l) (hLen : ar.len = 0) (hWr : ar.curWr = ar.buf) :
    checkExpand malloc fuel ar l = .error .running := by
  induction fuel generalizing ar with
  | zero => rfl
  | succ fuel ih =>
    have hWrap : wrapInt (2 * ar.len) = 0 := by rw [hLen]; rfl
    rw [checkExpand, if_pos (by omega), hWrap, resize,
      if_pos (by omega), if_neg (hMalloc _)]
    refine ih rfl ?_
    dsimp only
    omega

/-- After the buffer was given away a byte is written. -/
theorem put_after_detach_running :
    queueRun [.detach, .put [7]] = some ([[], []], ⟨[7], 0⟩) ∧
      ∀ fuel, (init (fun k => 4096 * (k + 1)) (fun _ => 0) 0).run
        (fun k => 4096 * (k + 1)) fuel [.detach, .put [7]] = .error .running := by
  refine ⟨by decide, fun fuel => ?_⟩
  have hExpand : checkExpand (fun k => 4096 * (k + 1)) fuel
      (init (fun k => 4096 * (k + 1)) (fun _ => 0) 0).detach 1 = .error .running :=
    checkExpand_running (fun k => by omega) (by decide) rfl rfl
  have hPut : (init (fun k => 4096 * (k + 1)) (fun _ => 0) 0).detach.put
      (fun k => 4096 * (k + 1)) fuel [7] = .error .running := by
    rw [put, List.length_singleton, hExpand]
    rfl
  rw [show [ArchiveOp.detach, .put [7]] = [.detach] ++ [.put [7]] from rfl, run_concat]
  change call _ fuel ([[]], _) (.put [7]) = _
  rw [call, step, hPut]
  rfl

end

end Explode.Mcl
