import Mathlib.Data.List.TakeWhile
import Mathlib.Tactic.Ring

/-!
# Decimal numbers

The digits that `sprintf` writes for an `int`, and the number that `atoi` reads
from the front of a string. Zeros before the digits do not change the number.
-/

namespace Explode.Decimal

def digit (n : Nat) : UInt8 := UInt8.ofNat (48 + n)

def digits : Nat → Nat → List UInt8
  | 0, _ => []
  | places + 1, n => if n < 10 then [digit n] else digits places (n / 10) ++ [digit (n % 10)]

def printInt (x : Int) : List UInt8 :=
  if x < 0 then 45 :: digits 10 x.natAbs else digits 10 x.natAbs

def isSpace (c : UInt8) : Bool := c = 32 || 9 ≤ c && c ≤ 13

def isDigit (c : UInt8) : Bool := 48 ≤ c && c ≤ 57

def addDigit (n : Nat) (c : UInt8) : Nat := 10 * n + (c.toNat - 48)

def readDigits (s : List UInt8) : Nat := (s.takeWhile isDigit).foldl addDigit 0

/-- `strtol` to base ten, for a `long` of 64 bits. -/
def strtol (s : List UInt8) : Int :=
  let s := s.dropWhile isSpace
  let value : Int :=
    if s.head? = some 45 then -(readDigits s.tail)
    else if s.head? = some 43 then readDigits s.tail
    else readDigits s
  max (-9223372036854775808) (min value 9223372036854775807)

def toInt (x : Int) : Int := (x + 2147483648) % 4294967296 - 2147483648

def atoi (s : List UInt8) : Int := toInt (strtol s)

theorem toInt_of_lt {n : Nat} (h : n < 2147483648) : toInt n = n := by
  rw [toInt]
  omega

theorem toInt_lt (x : Int) : toInt x < 2147483648 := by
  rw [toInt]
  omega

theorem toNat_digit {n : Nat} (h : n < 10) : (digit n).toNat = 48 + n := by
  rw [digit, UInt8.toNat_ofNat']
  omega

theorem isDigit_digit {n : Nat} (h : n < 10) : isDigit (digit n) = true := by
  have hNat := toNat_digit h
  simp only [isDigit, Bool.and_eq_true, decide_eq_true_eq, UInt8.le_iff_toNat_le, hNat]
  exact ⟨Nat.le_add_right 48 n, Nat.add_le_add_left (Nat.le_of_lt_succ h) 48⟩

theorem isDigit_of_mem_digits {places n : Nat} {c : UInt8} (h : c ∈ digits places n) :
    isDigit c = true := by
  induction places generalizing n with
  | zero => cases h
  | succ places ih =>
    rw [digits] at h
    split_ifs at h with hn
    · rw [List.mem_singleton.mp h]
      exact isDigit_digit hn
    · obtain hFront | hLast := List.mem_append.mp h
      · exact ih hFront
      · rw [List.mem_singleton.mp hLast]
        exact isDigit_digit (Nat.mod_lt n (by decide))

theorem foldl_digits {places n : Nat} (h : n < 10 ^ places) :
    (digits places n).foldl addDigit 0 = n := by
  induction places generalizing n with
  | zero =>
    rw [pow_zero] at h
    rw [digits, List.foldl_nil]
    omega
  | succ places ih =>
    rw [digits]
    split_ifs with hn
    · rw [List.foldl_cons, List.foldl_nil, addDigit, toNat_digit hn]
      omega
    · have hFront : n / 10 < 10 ^ places := by
        rw [pow_succ] at h
        omega
      rw [List.foldl_append, ih hFront, List.foldl_cons, List.foldl_nil, addDigit,
        toNat_digit (Nat.mod_lt n (by decide))]
      omega

theorem digits_ne_nil (places n : Nat) : digits (places + 1) n ≠ [] := by
  rw [digits]
  split_ifs
  · exact List.cons_ne_nil _ _
  · simp

theorem foldl_zeros (pad : Nat) : (List.replicate pad (48 : UInt8)).foldl addDigit 0 = 0 := by
  induction pad with
  | zero => rfl
  | succ pad ih =>
    rw [List.replicate_succ, List.foldl_cons]
    exact ih

theorem isDigit_of_mem_padded {pad places n : Nat} {c : UInt8}
    (h : c ∈ List.replicate pad 48 ++ digits places n) : isDigit c = true := by
  obtain hZero | hDigit := List.mem_append.mp h
  · rw [List.eq_of_mem_replicate hZero]
    decide
  · exact isDigit_of_mem_digits hDigit

theorem readDigits_padded {places n : Nat} (h : n < 10 ^ places) (pad : Nat) :
    readDigits (List.replicate pad 48 ++ digits places n) = n := by
  rw [readDigits, List.takeWhile_eq_self_iff.mpr fun c => isDigit_of_mem_padded,
    List.foldl_append, foldl_zeros, foldl_digits h]

theorem strtol_of_digits {s : List UInt8} (h : ∀ c ∈ s, isDigit c = true)
    (hFits : readDigits s < 9223372036854775808) : strtol s = readDigits s := by
  have hHead : ∀ c, s.head? = some c → isDigit c = true := fun c hc =>
    h c (List.mem_of_mem_head? hc)
  have hSpace : s.dropWhile isSpace = s := by
    cases s with
    | nil => rfl
    | cons c rest =>
      apply List.dropWhile_cons_of_neg
      have hDigit := hHead c rfl
      simp only [isDigit, isSpace, Bool.and_eq_true, Bool.or_eq_true, decide_eq_true_eq,
        UInt8.le_iff_toNat_le, ← UInt8.toNat_inj] at hDigit ⊢
      have h32 : (32 : UInt8).toNat = 32 := rfl
      have h13 : (13 : UInt8).toNat = 13 := rfl
      have h48 : (48 : UInt8).toNat = 48 := rfl
      omega
  have hMinus : s.head? ≠ some 45 := fun hc => absurd (hHead 45 hc) (by decide)
  have hPlus : s.head? ≠ some 43 := fun hc => absurd (hHead 43 hc) (by decide)
  rw [strtol, hSpace]
  simp only [if_neg hMinus, if_neg hPlus]
  omega

theorem atoi_padded {n : Nat} (h : n < 2147483648) (pad : Nat) :
    atoi (List.replicate pad 48 ++ printInt n) = n := by
  have hPrint : printInt n = digits 10 n := by
    rw [printInt, if_neg (by omega), Int.natAbs_natCast]
  have hRead : readDigits (List.replicate pad 48 ++ digits 10 n) = n :=
    readDigits_padded (h.trans (by decide)) pad
  rw [atoi, hPrint, strtol_of_digits (fun c => isDigit_of_mem_padded) (by omega), hRead,
    toInt_of_lt h]

end Explode.Decimal
