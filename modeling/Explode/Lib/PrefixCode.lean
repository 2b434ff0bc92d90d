import Mathlib.Data.List.Basic

/-!
# Prefix codes

A code on some values is such that a word tells its value and its own end,
whatever follows it. Words of one length that differ are a code, and codes are
closed under pairs, under lists of a known length and under counted lists.
-/

namespace PrefixCode

universe u v w

variable {α : Type u} {β : Type v} {γ : Type w}

def Code (P : α → Prop) (enc : α → List γ) : Prop :=
  ∀ a b r s, P a → P b → enc a ++ r = enc b ++ s → a = b ∧ r = s

section
variable {P : α → Prop} {Q : β → Prop} {enc : α → List γ} {enc' : β → List γ}

theorem Code.of_length (n : Nat) (hLength : ∀ a, P a → (enc a).length = n)
    (hInj : ∀ a b, P a → P b → enc a = enc b → a = b) : Code P enc := by
  intro a b r s ha hb h
  obtain ⟨hWord, hRest⟩ := List.append_inj h ((hLength a ha).trans (hLength b hb).symm)
  exact ⟨hInj a b ha hb hWord, hRest⟩

theorem Code.bind {Q : α → β → Prop} {enc' : α → β → List γ} (h : Code P enc)
    (h' : ∀ a, P a → Code (Q a) (enc' a)) :
    Code (fun x : α × β => P x.1 ∧ Q x.1 x.2) fun x => enc x.1 ++ enc' x.1 x.2 := by
  rintro ⟨a, x⟩ ⟨b, y⟩ r s ⟨ha, hx⟩ ⟨hb, hy⟩ hEq
  simp only [List.append_assoc] at hEq
  obtain ⟨rfl, hRest⟩ := h a b _ _ ha hb hEq
  obtain ⟨rfl, hEnd⟩ := h' a ha x y r s hx hy hRest
  exact ⟨rfl, hEnd⟩

theorem Code.pair (h : Code P enc) (h' : Code Q enc') :
    Code (fun x : α × β => P x.1 ∧ Q x.2) fun x => enc x.1 ++ enc' x.2 :=
  h.bind fun _ _ => h'

theorem Code.comap (h : Code P enc) (f : β → α) (hf : ∀ x y, Q x → Q y → f x = f y → x = y)
    (hP : ∀ x, Q x → P (f x)) : Code Q fun x => enc (f x) := by
  intro x y r s hx hy hEq
  obtain ⟨hValue, hRest⟩ := h _ _ r s (hP x hx) (hP y hy) hEq
  exact ⟨hf x y hx hy hValue, hRest⟩

theorem Code.list (h : Code P enc) (n : Nat) :
    Code (fun l : List α => l.length = n ∧ ∀ a ∈ l, P a) fun l => l.flatMap enc := by
  induction n with
  | zero =>
    rintro l m r s ⟨hl, _⟩ ⟨hm, _⟩ hEq
    rw [List.length_eq_zero_iff] at hl hm
    subst hl hm
    exact ⟨rfl, hEq⟩
  | succ n ih =>
    rintro l m r s ⟨hl, hlP⟩ ⟨hm, hmP⟩ hEq
    obtain ⟨a, l, rfl⟩ := List.exists_cons_of_length_eq_add_one hl
    obtain ⟨b, m, rfl⟩ := List.exists_cons_of_length_eq_add_one hm
    obtain ⟨ha, hl'⟩ := List.forall_mem_cons.mp hlP
    obtain ⟨hb, hm'⟩ := List.forall_mem_cons.mp hmP
    simp only [List.flatMap_cons, List.append_assoc] at hEq
    obtain ⟨rfl, hRest⟩ := h a b _ _ ha hb hEq
    obtain ⟨rfl, hEnd⟩ := ih l m r s ⟨Nat.succ.inj hl, hl'⟩ ⟨Nat.succ.inj hm, hm'⟩ hRest
    exact ⟨rfl, hEnd⟩

theorem Code.counted {N : Nat → Prop} {encLength : Nat → List γ} (hLength : Code N encLength)
    (h : Code P enc) : Code (fun l : List α => N l.length ∧ ∀ a ∈ l, P a) fun l =>
      encLength l.length ++ l.flatMap enc := by
  have hBind := hLength.bind fun n _ => h.list n
  refine (hBind.comap (fun l : List α => (l.length, l)) ?_ ?_)
  · exact fun l m _ _ hEq => (Prod.mk.inj hEq).2
  · exact fun l hl => ⟨hl.1, rfl, hl.2⟩

theorem Code.flatMap_inj (h : Code P enc) (hNonempty : ∀ a, P a → enc a ≠ []) {l m : List α}
    (hl : ∀ a ∈ l, P a) (hm : ∀ a ∈ m, P a) (hEq : l.flatMap enc = m.flatMap enc) : l = m := by
  induction l generalizing m with
  | nil =>
    cases m with
    | nil => rfl
    | cons b m =>
      have hb := (List.forall_mem_cons.mp hm).1
      rw [List.flatMap_nil, List.flatMap_cons] at hEq
      exact absurd (List.append_eq_nil_iff.mp hEq.symm).1 (hNonempty b hb)
  | cons a l ih =>
    obtain ⟨ha, hl'⟩ := List.forall_mem_cons.mp hl
    cases m with
    | nil =>
      rw [List.flatMap_nil, List.flatMap_cons] at hEq
      exact absurd (List.append_eq_nil_iff.mp hEq).1 (hNonempty a ha)
    | cons b m =>
      obtain ⟨hb, hm'⟩ := List.forall_mem_cons.mp hm
      rw [List.flatMap_cons, List.flatMap_cons] at hEq
      obtain ⟨rfl, hRest⟩ := h a b _ _ ha hb hEq
      rw [ih hl' hm' hRest]

end

end PrefixCode
