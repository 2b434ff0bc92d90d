import Mathlib.Data.List.Basic

/-!
# Machines that may stop

A machine has a partial step: a state without a successor is one in which it
has failed. Besides, a step may be computed by code that leaves through an
early exit, and then the rules for partial correctness follow the code.
-/

namespace Machine

universe u v w
variable {σ : Type u} {ε : Type v} {α β : Type w}

def steps (step : σ → Option σ) : Nat → σ → Option σ
  | 0, a => some a
  | n + 1, a => (step a).bind (steps step n)

theorem steps_add (step : σ → Option σ) (m n : Nat) (a : σ) :
    steps step (m + n) a = (steps step m a).bind (steps step n) := by
  induction m generalizing a with
  | zero => simp [steps]
  | succ m ih =>
    rw [Nat.succ_add, steps, steps, Option.bind_assoc]
    exact congrArg _ (funext fun b => ih b)

theorem steps_succ (step : σ → Option σ) (n : Nat) (a : σ) :
    steps step (n + 1) a = (steps step n a).bind step := by
  rw [steps_add]
  congr 1
  funext b
  simp [steps]

def Reaches (step : σ → Option σ) (a b : σ) : Prop := ∃ n, steps step n a = some b

theorem Reaches.refl (step : σ → Option σ) (a : σ) : Reaches step a a := ⟨0, rfl⟩

theorem Reaches.head {step : σ → Option σ} {a b c : σ} (h : step a = some b)
    (hRest : Reaches step b c) : Reaches step a c := by
  obtain ⟨n, hn⟩ := hRest
  exact ⟨n + 1, by rw [steps, h]; exact hn⟩

theorem Reaches.trans {step : σ → Option σ} {a b c : σ} (h : Reaches step a b)
    (hRest : Reaches step b c) : Reaches step a c := by
  obtain ⟨m, hm⟩ := h
  obtain ⟨n, hn⟩ := hRest
  exact ⟨m + n, by rw [steps_add, hm]; exact hn⟩

theorem Reaches.exists_le {step : σ → Option σ} {a b c : σ} {n : Nat} (hc : Reaches step a c)
    (hEnd : steps step n a = some b) (hFixed : step b = some b) :
    ∃ k ≤ n, steps step k a = some c := by
  obtain ⟨m, hm⟩ := hc
  rcases Nat.le_total m n with hLe | hLe
  · exact ⟨m, hLe, hm⟩
  · obtain ⟨d, rfl⟩ := Nat.exists_eq_add_of_le hLe
    have hStay : ∀ d, steps step d b = some b := by
      intro d
      induction d with
      | zero => rfl
      | succ d ih =>
        rw [steps, hFixed]
        exact ih
    rw [steps_add, hEnd, Option.bind_some, hStay] at hm
    cases hm
    exact ⟨n, Nat.le_refl n, hEnd⟩

theorem Reaches.to_fixed {step : σ → Option σ} {a b c : σ} (hc : Reaches step a c)
    (hb : Reaches step a b) (hFixed : step b = some b) : Reaches step c b := by
  obtain ⟨n, hn⟩ := hb
  obtain ⟨k, hk, hRun⟩ := hc.exists_le hn hFixed
  obtain ⟨d, rfl⟩ := Nat.exists_eq_add_of_le hk
  rw [steps_add, hRun] at hn
  exact ⟨d, hn⟩

theorem Reaches.of_all {step : σ → Option σ} {P Q : σ → Prop} {a c : σ} {n : Nat}
    (hc : Reaches step a c) (hFixed : ∀ b, Q b → step b = some b)
    (hEnd : ∃ b ∈ steps step n a, Q b) (hAll : ∀ k ≤ n, ∀ b ∈ steps step k a, P b) : P c := by
  obtain ⟨b, hRun, hb⟩ := hEnd
  obtain ⟨k, hk, hStep⟩ := hc.exists_le hRun (hFixed b hb)
  exact hAll k hk c hStep

theorem steps_invariant {step : σ → Option σ} {Ok : σ → σ → Prop} {Inv : σ → Prop}
    (hStep : ∀ a b, Inv a → step a = some b → Ok a b → Inv b) {a : σ} (hInit : Inv a) (n : Nat)
    (hOk : ∀ k < n, ∀ b c, steps step k a = some b → step b = some c → Ok b c) {b : σ}
    (hRun : steps step n a = some b) : Inv b := by
  induction n generalizing b with
  | zero =>
    cases hRun
    exact hInit
  | succ n ih =>
    rw [steps_succ] at hRun
    obtain ⟨c, hc, hLast⟩ := Option.bind_eq_some_iff.mp hRun
    have hBefore := ih (fun k hk => hOk k (by omega)) hc
    exact hStep c b hBefore hLast (hOk n (Nat.lt_succ_self n) c b hc hLast)

theorem not_reaches_of_stuck {step : σ → Option σ} {P : σ → Prop}
    (hP : ∀ a b, P a → step a = some b → P b) {a b : σ} (hReach : Reaches step a b)
    (hStuck : step b = none) (hb : ¬P b) {c : σ} (hc : Reaches step a c) : ¬P c := by
  obtain ⟨m, hm⟩ := hReach
  obtain ⟨n, hn⟩ := hc
  intro hPc
  rcases Nat.lt_or_ge m n with hLt | hGe
  · obtain ⟨k, rfl⟩ := Nat.exists_eq_add_of_lt hLt
    rw [Nat.add_assoc, steps_add, hm, Option.bind_some, steps, hStuck] at hn
    cases hn
  · obtain ⟨k, rfl⟩ := Nat.exists_eq_add_of_le hGe
    rw [steps_add, hn, Option.bind_some] at hm
    have hStep : ∀ a b, P a → step a = some b → True → P b := fun a b h hs _ => hP a b h hs
    exact hb (steps_invariant hStep hPc k (fun _ _ _ _ _ _ => trivial) hm)

section
variable {γ : Type v} (next : σ → γ → Option (Bool × σ × γ)) (value : σ → α)

/-- The values of a number of calls that all answer that there is one more. -/
def handOut : Nat → σ → γ → Option (List α × σ × γ)
  | 0, s, g => some ([], s, g)
  | k + 1, s, g =>
    match next s g with
    | some (true, s, g) => (handOut k s g).map fun r => (value s :: r.1, r.2)
    | _ => none

variable {next value}

theorem handOut_succ {k : Nat} {s t : σ} {g g' : γ} {values : List α}
    (hOut : handOut next value (k + 1) s g = some (values, t, g')) :
    ∃ s₁ g₁ rest, next s g = some (true, s₁, g₁) ∧
      handOut next value k s₁ g₁ = some (rest, t, g') ∧ values = value s₁ :: rest := by
  rw [handOut] at hOut
  split at hOut
  · rename_i s₁ g₁ hNext
    obtain ⟨⟨rest, r⟩, hRest, hEq⟩ := Option.map_eq_some_iff.mp hOut
    cases hEq
    exact ⟨s₁, g₁, rest, hNext, hRest, rfl⟩
  · cases hOut

theorem handOut_cons {k : Nat} {s s₁ t : σ} {g g₁ g' : γ} {values : List α}
    (hNext : next s g = some (true, s₁, g₁))
    (hRest : handOut next value k s₁ g₁ = some (values, t, g')) :
    handOut next value (k + 1) s g = some (value s₁ :: values, t, g') := by
  rw [handOut, hNext]
  simp only [hRest, Option.map_some]

/-- Calls that do not change the second state, with what holds after each of them. -/
theorem handOut_counted (value : σ → α) {P : Nat → σ → Prop} {g : γ} {total : Nat}
    (hNext : ∀ i s, P i s → i < total → ∃ s', next s g = some (true, s', g) ∧ P (i + 1) s')
    {i left : Nat} {s : σ} (hs : P i s) (hLeft : i + left = total) :
    ∃ values t, handOut next value left s g = some (values, t, g) ∧ P total t ∧
      List.Forall₂ (fun a j => ∃ s', P (j + 1) s' ∧ value s' = a) values (List.range' i left) := by
  induction left generalizing i s with
  | zero =>
    obtain rfl : i = total := hLeft
    exact ⟨[], s, rfl, hs, .nil⟩
  | succ left ih =>
    obtain ⟨s', hFirst, hs'⟩ := hNext i s hs (by omega)
    obtain ⟨values, t, hRest, ht, hEach⟩ := ih hs' (by omega)
    rw [List.range'_succ]
    exact ⟨value s' :: values, t, handOut_cons hFirst hRest, ht, .cons ⟨s', hs', rfl⟩ hEach⟩

end

/-- Why code does not run to its end: it fails, or it exits early in some state. -/
inductive Halt (σ : Type u)
  | fail
  | exit (s : σ)

/-- However the code ends: a result satisfies the first predicate, an early exit the second,
and the third is the reason of a failure. -/
def Ends (P : α → Prop) (Q : σ → Prop) (F : Prop) : Except (Halt σ) α → Prop
  | .ok a => P a
  | .error (.exit s) => Q s
  | .error .fail => F

theorem Ends.imp {P P' : α → Prop} {Q Q' : σ → Prop} {F F' : Prop} {c : Except (Halt σ) α}
    (h : Ends P Q F c) (hP : ∀ a, P a → P' a) (hQ : ∀ s, Q s → Q' s) (hF : F → F') :
    Ends P' Q' F' c := by
  match c with
  | .ok a => exact hP a h
  | .error (.exit s) => exact hQ s h
  | .error .fail => exact hF h

theorem Ends.bind {P : α → Prop} {R : β → Prop} {Q : σ → Prop} {F : Prop} {c : Except (Halt σ) α}
    {f : α → Except (Halt σ) β} (h : Ends P Q F c) (hf : ∀ a, P a → Ends R Q F (f a)) :
    Ends R Q F (c.bind f) := by
  match c with
  | .ok a => exact hf a h
  | .error (.exit s) => exact h
  | .error .fail => exact h

theorem Ends.map {P : α → Prop} {R : β → Prop} {Q : σ → Prop} {F : Prop} {c : Except (Halt σ) α}
    {f : α → β} (h : Ends P Q F c) (hf : ∀ a, P a → R (f a)) : Ends R Q F (c.map f) := by
  match c with
  | .ok a => exact hf a h
  | .error (.exit s) => exact h
  | .error .fail => exact h

end Machine
