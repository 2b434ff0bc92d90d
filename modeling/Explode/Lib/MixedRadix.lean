import Mathlib.Algebra.BigOperators.Group.List.Basic
import Mathlib.Algebra.Order.Group.Nat

/-!
# Counting in mixed radix

A numeral is a list of digits, the least significant first, below a list of
ceilings: a digit runs from zero up to its ceiling. Counting up carries over
the digits at their ceiling.
-/

namespace MixedRadix

def card : List Nat → Nat
  | [] => 1
  | c :: ceils => (c + 1) * card ceils

inductive Bounded : List Nat → List Nat → Prop
  | nil : Bounded [] []
  | cons {c x : Nat} {ceils xs : List Nat} (hx : x ≤ c) (hxs : Bounded ceils xs) :
      Bounded (c :: ceils) (x :: xs)

def value : List Nat → List Nat → Nat
  | c :: ceils, x :: xs => x + (c + 1) * value ceils xs
  | _, _ => 0

def increment : List Nat → List Nat → Bool × List Nat
  | c :: ceils, x :: xs =>
    if c < x + 1 then ((increment ceils xs).1, 0 :: (increment ceils xs).2)
    else (true, (x + 1) :: xs)
  | _, xs => (false, xs)

variable {ceils xs ys : List Nat}

theorem card_pos (ceils : List Nat) : 0 < card ceils := by
  induction ceils with
  | nil => exact Nat.one_pos
  | cons c ceils ih => exact Nat.mul_pos (Nat.succ_pos c) ih

theorem card_eq_prod (ceils : List Nat) : card ceils = (ceils.map (· + 1)).prod := by
  induction ceils with
  | nil => rfl
  | cons c ceils ih => rw [card, ih, List.map_cons, List.prod_cons]

theorem card_reverse (ceils : List Nat) : card ceils.reverse = card ceils := by
  rw [card_eq_prod, card_eq_prod, List.map_reverse, List.prod_reverse]

theorem Bounded.length_eq (hxs : Bounded ceils xs) : xs.length = ceils.length := by
  induction hxs with
  | nil => rfl
  | cons _ _ ih => exact congrArg (· + 1) ih

theorem bounded_zeros (ceils : List Nat) : Bounded ceils (List.replicate ceils.length 0) := by
  induction ceils with
  | nil => exact .nil
  | cons c ceils ih => exact .cons (Nat.zero_le c) ih

theorem value_zeros (ceils : List Nat) : value ceils (List.replicate ceils.length 0) = 0 := by
  induction ceils with
  | nil => rfl
  | cons c ceils ih =>
    rw [List.length_cons, List.replicate_succ, value, ih]
    omega

theorem Bounded.value_lt (hxs : Bounded ceils xs) : value ceils xs < card ceils := by
  induction hxs with
  | nil => exact Nat.one_pos
  | @cons c x ceils xs hx _ ih =>
    rw [value, card]
    calc x + (c + 1) * value ceils xs
        < (c + 1) + (c + 1) * value ceils xs := by omega
      _ = (c + 1) * (value ceils xs + 1) := by rw [Nat.mul_succ]; omega
      _ ≤ (c + 1) * card ceils := Nat.mul_le_mul_left _ ih

theorem Bounded.eq_of_value_eq (hxs : Bounded ceils xs) (hys : Bounded ceils ys)
    (hEq : value ceils xs = value ceils ys) : xs = ys := by
  induction hxs generalizing ys with
  | nil =>
    cases hys
    rfl
  | @cons c x ceils xs hx _ ih =>
    cases hys with
    | @cons _ y _ ys hy hys =>
      rw [value, value] at hEq
      have hMod : ∀ z v : Nat, z ≤ c → (z + (c + 1) * v) % (c + 1) = z := fun z v hz => by
        rw [Nat.add_mul_mod_self_left]
        exact Nat.mod_eq_of_lt (Nat.lt_succ_of_le hz)
      have hDigit : x = y := by
        rw [← hMod x (value ceils xs) hx, ← hMod y (value ceils ys) hy, hEq]
      subst hDigit
      have hRest := Nat.eq_of_mul_eq_mul_left (Nat.succ_pos c) (Nat.add_left_cancel hEq)
      rw [ih hys hRest]

theorem increment_spec (hxs : Bounded ceils xs) :
    ((increment ceils xs).1 = true ∧ Bounded ceils (increment ceils xs).2 ∧
      value ceils (increment ceils xs).2 = value ceils xs + 1) ∨
    ((increment ceils xs).1 = false ∧ value ceils xs + 1 = card ceils) := by
  induction hxs with
  | nil => exact .inr ⟨rfl, rfl⟩
  | @cons c x ceils xs hx hxs ih =>
    rw [increment, value]
    split
    · obtain rfl : x = c := by omega
      rcases ih with ⟨hMore, hBounded, hValue⟩ | ⟨hLast, hCard⟩
      · refine .inl ⟨hMore, .cons (Nat.zero_le x) hBounded, ?_⟩
        rw [value, hValue, Nat.mul_succ]
        omega
      · refine .inr ⟨hLast, ?_⟩
        rw [card, ← hCard, Nat.mul_succ]
        omega
    · refine .inl ⟨rfl, .cons (by omega) hxs, ?_⟩
      rw [value]
      omega

theorem Bounded.value_concat (hxs : Bounded ceils xs) (c x : Nat) :
    value (ceils ++ [c]) (xs ++ [x]) = value ceils xs + card ceils * x := by
  induction hxs with
  | nil => simp [value, card]
  | @cons d y ceils xs _ _ ih =>
    rw [List.cons_append, List.cons_append, value, value, ih, card, Nat.mul_add, Nat.mul_assoc,
      Nat.add_assoc]

theorem Bounded.reverse (hxs : Bounded ceils xs) : Bounded ceils.reverse xs.reverse := by
  have hSnoc : ∀ {ceils xs : List Nat} {c x : Nat}, Bounded ceils xs → x ≤ c →
      Bounded (ceils ++ [c]) (xs ++ [x]) := by
    intro ceils xs c x hxs hx
    induction hxs with
    | nil => exact .cons hx .nil
    | cons hy _ ih => exact .cons hy ih
  induction hxs with
  | nil => exact .nil
  | cons hx _ ih =>
    rw [List.reverse_cons, List.reverse_cons]
    exact hSnoc ih hx

theorem Bounded.lt_of_value_lt (hxs : Bounded ceils xs) (hys : Bounded ceils ys)
    (hLt : value ceils.reverse xs.reverse < value ceils.reverse ys.reverse) : xs < ys := by
  induction hxs generalizing ys with
  | nil =>
    cases hys
    exact absurd hLt (Nat.lt_irrefl _)
  | @cons c x ceils xs hx hxs ih =>
    cases hys with
    | @cons _ y _ ys hy hys =>
      simp only [List.reverse_cons, hxs.reverse.value_concat, hys.reverse.value_concat,
        card_reverse] at hLt
      rcases Nat.lt_trichotomy x y with hDigit | rfl | hDigit
      · exact List.Lex.rel hDigit
      · exact List.Lex.cons (ih hys (by omega))
      · have hSmall := hys.reverse.value_lt
        rw [card_reverse] at hSmall
        have hStep : card ceils * (y + 1) ≤ card ceils * x := Nat.mul_le_mul_left _ hDigit
        rw [Nat.mul_succ] at hStep
        omega

end MixedRadix
