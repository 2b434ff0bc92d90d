import Mathlib.Data.List.Basic

/-!
# Loops that can fail

A computation in `Except` either returns or fails. A loop over a list of
inputs keeps an invariant that may name the inputs already handled, and every
pass may rely on a side condition on the state before it.
-/

namespace Loop

universe u v w

variable {α β σ : Type u} {ε : Type v} {ι : Type w}

def Returns (P : α → Prop) (Q : ε → Prop) : Except ε α → Prop
  | .ok a => P a
  | .error e => Q e

instance Returns.decidable (P : α → Prop) (Q : ε → Prop) [DecidablePred P] [DecidablePred Q] :
    DecidablePred (Returns P Q)
  | .ok a => inferInstanceAs (Decidable (P a))
  | .error e => inferInstanceAs (Decidable (Q e))

theorem Returns.exists_ok {P : α → Prop} {c : Except ε α} (h : Returns P (fun _ => False) c) :
    ∃ a, c = .ok a ∧ P a := by
  cases c with
  | ok a => exact ⟨a, rfl, h⟩
  | error e => cases h

theorem Returns.imp {P P' : α → Prop} {Q : ε → Prop} {c : Except ε α} (h : Returns P Q c)
    (hP : ∀ a, P a → P' a) : Returns P' Q c := by
  cases c with
  | ok a => exact hP a h
  | error e => exact h

theorem Returns.bind {P : α → Prop} {R : β → Prop} {Q : ε → Prop} {c : Except ε α}
    {f : α → Except ε β} (h : Returns P Q c) (hf : ∀ a, P a → Returns R Q (f a)) :
    Returns R Q (c >>= f) := by
  cases c with
  | ok a => exact hf a h
  | error e => exact h

theorem bind_eq_ok {c : Except ε α} {f : α → Except ε β} {b : β} (h : (c >>= f) = .ok b) :
    ∃ a, c = .ok a ∧ f a = .ok b := by
  cases c with
  | ok a => exact ⟨a, rfl, h⟩
  | error e => cases h

theorem map_eq_ok {c : Except ε α} {f : α → β} {b : β} (h : c.map f = .ok b) :
    ∃ a, c = .ok a ∧ f a = b := by
  cases c with
  | ok a => exact ⟨a, rfl, Except.ok.inj h⟩
  | error e => cases h

def Related {α β : Type u} (R : α → β → Prop) : Except ε α → Except ε β → Prop
  | .ok a, .ok b => R a b
  | .error e, .error e' => e = e'
  | _, _ => False

theorem Related.bind {α' β' : Type u} {R : α → β → Prop} {S : α' → β' → Prop} {c : Except ε α}
    {c' : Except ε β} (h : Related R c c') {f : α → Except ε α'} {g : β → Except ε β'}
    (hf : ∀ a b, R a b → Related S (f a) (g b)) : Related S (c >>= f) (c' >>= g) := by
  cases c with
  | ok a =>
    cases c' with
    | ok b => exact hf a b h
    | error e => cases h
  | error e =>
    cases c' with
    | ok b => cases h
    | error e' => exact h

/-- The side condition holds at every input, in the state that the inputs before it lead to. -/
def Meets (step : σ → ι → Except ε σ) (Ok : List ι → σ → ι → Prop) :
    List ι → σ → List ι → Prop
  | _, _, [] => True
  | done, s, a :: rest =>
    Ok done s a ∧
      match step s a with
      | .ok s' => Meets step Ok (done ++ [a]) s' rest
      | .error _ => True

instance Meets.decidable (step : σ → ι → Except ε σ) (Ok : List ι → σ → ι → Prop)
    [∀ done s a, Decidable (Ok done s a)] (done : List ι) (s : σ) (inputs : List ι) :
    Decidable (Meets step Ok done s inputs) := by
  induction inputs generalizing done s with
  | nil => exact isTrue trivial
  | cons a rest ih =>
    rw [Meets]
    cases step s a with
    | ok s' => exact @instDecidableAnd _ _ _ (ih _ s')
    | error e => exact inferInstance

section
variable {step : σ → ι → Except ε σ} {Ok : List ι → σ → ι → Prop}

theorem Meets.of_append {done : List ι} {s : σ} (inputs more : List ι)
    (h : Meets step Ok done s (inputs ++ more)) : Meets step Ok done s inputs := by
  induction inputs generalizing done s with
  | nil => trivial
  | cons a rest ih =>
    obtain ⟨hOk, hRest⟩ := h
    refine ⟨hOk, ?_⟩
    cases hStep : step s a with
    | ok s' =>
      rw [hStep] at hRest
      exact ih hRest
    | error e => trivial

theorem Meets.and (Static : List ι → ι → Prop) {done : List ι} {s : σ} {inputs : List ι}
    (h : Meets step Ok done s inputs)
    (hStatic : ∀ k, (hk : k < inputs.length) → Static (done ++ inputs.take k) inputs[k]) :
    Meets step (fun done s a => Static done a ∧ Ok done s a) done s inputs := by
  induction inputs generalizing done s with
  | nil => trivial
  | cons a rest ih =>
    obtain ⟨hOk, hRest⟩ := h
    have hFirst : Static done a := by
      simpa using hStatic 0 (Nat.succ_pos _)
    refine ⟨⟨hFirst, hOk⟩, ?_⟩
    cases hStep : step s a with
    | error e => trivial
    | ok s' =>
      rw [hStep] at hRest
      apply ih hRest
      intro k hk
      simpa using hStatic (k + 1) (Nat.succ_lt_succ hk)

theorem foldlM_returns {I : List ι → σ → Prop} {Q : ε → Prop}
    (hStep : ∀ done s a, I done s → Ok done s a → Returns (I (done ++ [a])) Q (step s a))
    (inputs done : List ι) {s : σ} (hInit : I done s) (hOk : Meets step Ok done s inputs) :
    Returns (I (done ++ inputs)) Q (inputs.foldlM step s) := by
  induction inputs generalizing done s with
  | nil =>
    rw [List.append_nil]
    exact hInit
  | cons a rest ih =>
    obtain ⟨hFirst, hRest⟩ := hOk
    have hReturns := hStep done s a hInit hFirst
    rw [List.foldlM_cons, List.append_cons]
    cases hRun : step s a with
    | ok s' =>
      rw [hRun] at hReturns hRest
      exact ih (done ++ [a]) hReturns hRest
    | error e =>
      rw [hRun] at hReturns
      exact hReturns

theorem meets_of_invariant {I : σ → Prop} {Q : ε → Prop} {inputs : List ι}
    (hStep : ∀ s, ∀ a ∈ inputs, I s → Returns I Q (step s a))
    (hOk : ∀ done s, ∀ a ∈ inputs, I s → Ok done s a) {s : σ} (hInit : I s) (done : List ι) :
    Meets step Ok done s inputs ∧ Returns I Q (inputs.foldlM step s) := by
  induction inputs generalizing done s with
  | nil => exact ⟨trivial, hInit⟩
  | cons a rest ih =>
    obtain ⟨hFirst, hRest⟩ : Returns I Q (step s a) ∧ ∀ s, ∀ b ∈ rest, I s →
        Returns I Q (step s b) :=
      ⟨hStep s a List.mem_cons_self hInit,
        fun s b hb => hStep s b (List.mem_cons_of_mem a hb)⟩
    have hOkRest : ∀ done s, ∀ b ∈ rest, I s → Ok done s b :=
      fun done s b hb => hOk done s b (List.mem_cons_of_mem a hb)
    rw [Meets, List.foldlM_cons]
    cases hRun : step s a with
    | error e =>
      rw [hRun] at hFirst
      exact ⟨⟨hOk done s a List.mem_cons_self hInit, trivial⟩, hFirst⟩
    | ok s' =>
      rw [hRun] at hFirst
      obtain ⟨hMeets, hReturns⟩ := ih hRest hOkRest hFirst (done ++ [a])
      exact ⟨⟨hOk done s a List.mem_cons_self hInit, hMeets⟩, hReturns⟩

end

theorem foldlM_related {τ : Type u} {R : σ → τ → Prop} {step : σ → ι → Except ε σ}
    {step' : τ → ι → Except ε τ} {Ok : List ι → σ → ι → Prop} {Ok' : List ι → τ → ι → Prop}
    (hStep : ∀ done s t a, R s t → Ok done s a → Ok' done t a → Related R (step s a) (step' t a))
    (inputs done : List ι) {s : σ} {t : τ} (h : R s t) (hOk : Meets step Ok done s inputs)
    (hOk' : Meets step' Ok' done t inputs) :
    Related R (inputs.foldlM step s) (inputs.foldlM step' t) := by
  induction inputs generalizing done s t with
  | nil => exact h
  | cons a rest ih =>
    have hFirst := hStep done s t a h hOk.1 hOk'.1
    have hRest := hOk.2
    have hRest' := hOk'.2
    rw [List.foldlM_cons, List.foldlM_cons]
    cases hs : step s a with
    | error e =>
      rw [hs] at hFirst
      cases ht : step' t a with
      | error e' =>
        rw [ht] at hFirst
        exact hFirst
      | ok t' => simp [ht, Related] at hFirst
    | ok s' =>
      rw [hs] at hFirst hRest
      cases ht : step' t a with
      | error e' => simp [ht, Related] at hFirst
      | ok t' =>
        rw [ht] at hFirst hRest'
        exact ih (done ++ [a]) hFirst hRest hRest'

theorem foldlM_error {step : σ → ι → Except ε σ} {Q : ε → Prop}
    (hStep : ∀ s a f, step s a = .error f → Q f) {inputs : List ι} {s : σ} {f : ε}
    (h : inputs.foldlM step s = .error f) : Q f := by
  induction inputs generalizing s with
  | nil => cases h
  | cons a rest ih =>
    rw [List.foldlM_cons] at h
    cases hFirst : step s a with
    | error f' =>
      rw [hFirst] at h
      cases h
      exact hStep s a f hFirst
    | ok s' =>
      rw [hFirst] at h
      exact ih h

theorem foldlM_append_ok {step : σ → ι → Except ε σ} {s t : σ} {inputs : List ι}
    (h : inputs.foldlM step s = .ok t) (more : List ι) :
    (inputs ++ more).foldlM step s = more.foldlM step t := by
  rw [List.foldlM_append, h]
  rfl

theorem range_returns {step : σ → Nat → Except ε σ} {I : Nat → σ → Prop} {Q : ε → Prop} {n : Nat}
    (hStep : ∀ i < n, ∀ s, I i s → Returns (I (i + 1)) Q (step s i)) {s : σ} (hInit : I 0 s) :
    Returns (I n) Q ((List.range n).foldlM step s) := by
  induction n with
  | zero => exact hInit
  | succ n ih =>
    rw [List.range_succ, List.foldlM_append]
    have hDone := ih fun i hi => hStep i (Nat.lt_succ_of_lt hi)
    apply Returns.bind hDone
    intro s' hs'
    rw [List.foldlM_cons]
    apply (hStep n (Nat.lt_succ_self n) s' hs').bind
    intro s'' hs''
    exact hs''

end Loop
