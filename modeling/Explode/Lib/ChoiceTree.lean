import Mathlib.Data.List.Chain
import Mathlib.Data.List.Range
import Mathlib.Data.List.Lex

/-!
# Finite choice trees and their depth-first enumeration

A deterministic computation that asks for numbers below a width is a finite
tree. A search that can only rerun the computation from its root keeps a stack
of the answers given at the branching nodes, those of width at least two, and
advances the stack like an odometer.
-/

namespace ChoiceTree

universe u v

inductive DecisionTree (α : Type u) where
  | done : α → DecisionTree α
  | choose : (width : Nat) → (Nat → DecisionTree α) → DecisionTree α

variable {α : Type u} {σ : Type v}

/-- The calls of one run: the answer and the width at every node passed. -/
abbrev Calls := List (Nat × Nat)

def recorded (calls : Calls) : Calls := calls.filter (fun call => call.2 != 1)

@[simp] theorem recorded_nil : recorded [] = [] := rfl

@[simp] theorem recorded_trivial (c : Nat) (calls : Calls) :
    recorded ((c, 1) :: calls) = recorded calls := by
  simp [recorded]

theorem recorded_branching {n : Nat} (hn : n ≠ 1) (c : Nat) (calls : Calls) :
    recorded ((c, n) :: calls) = (c, n) :: recorded calls := by
  simp [recorded, hn]

namespace DecisionTree

/-- Every node that can be reached by answers below the widths has a width in P. -/
def Widths (P : Nat → Prop) : DecisionTree α → Prop
  | done _ => True
  | choose n next => P n ∧ ∀ c < n, Widths P (next c)

inductive IsPath : DecisionTree α → Calls → α → Prop
  | done (a : α) : IsPath (done a) [] a
  | choose {n c : Nat} {next : Nat → DecisionTree α} {calls : Calls} {a : α} (hc : c < n)
      (h : IsPath (next c) calls a) : IsPath (choose n next) ((c, n) :: calls) a

theorem IsPath.recorded_ne_nil {n : Nat} (hn : n ≠ 1) {next : Nat → DecisionTree α} {calls : Calls}
    {a : α} (h : IsPath (DecisionTree.choose n next) calls a) : recorded calls ≠ [] := by
  cases h
  simp [recorded_branching hn]

def prolong (c n : Nat) (p : Calls × α) : Calls × α := ((c, n) :: p.1, p.2)

def paths : DecisionTree α → List (Calls × α)
  | done a => [([], a)]
  | choose n next => (List.range n).flatMap fun c =>
      (paths (next c)).map (prolong c n)

theorem mem_paths_iff (t : DecisionTree α) (calls : Calls) (a : α) :
    (calls, a) ∈ paths t ↔ IsPath t calls a := by
  induction t generalizing calls with
  | done b =>
    constructor
    · intro h
      obtain ⟨rfl, rfl⟩ : calls = [] ∧ a = b := by simpa [paths] using h
      exact .done a
    · rintro ⟨⟩
      simp [paths]
  | choose n next ih =>
    simp only [paths, List.mem_flatMap, List.mem_range, List.mem_map, prolong, Prod.mk.injEq]
    constructor
    · rintro ⟨c, hc, ⟨rest, b⟩, hRest, rfl, rfl⟩
      exact .choose hc ((ih c rest).mp hRest)
    · rintro ⟨⟩
      rename_i c rest hc h
      exact ⟨c, hc, (rest, a), (ih c rest).mpr h, rfl, rfl⟩

theorem paths_lex (t : DecisionTree α) : (paths t).Pairwise fun p q =>
    p.1.map Prod.fst < q.1.map Prod.fst := by
  induction t with
  | done a => simp [paths]
  | choose n next ih =>
    simp only [paths, List.pairwise_flatMap, List.pairwise_map, List.mem_map]
    constructor
    · intro c _
      exact (ih c).imp fun h => .cons h
    · refine List.pairwise_lt_range.imp ?_
      rintro c d hcd _ ⟨p, _, rfl⟩ _ ⟨q, _, rfl⟩
      exact .rel hcd

theorem paths_ne_nil {t : DecisionTree α} (h : t.Widths (0 < ·)) : paths t ≠ [] := by
  induction t with
  | done a => simp [paths]
  | choose n next ih =>
    obtain ⟨hn, hNext⟩ := h
    obtain ⟨p, hp⟩ := List.exists_mem_of_ne_nil _ (ih 0 (hNext 0 hn))
    apply List.ne_nil_of_mem
    exact List.mem_flatMap.mpr ⟨0, List.mem_range.mpr hn, List.mem_map_of_mem hp⟩

/-- The path that follows the stack at branching nodes and answers zero after it. -/
def complete : DecisionTree α → Calls → Calls × α
  | done a, _ => ([], a)
  | choose n next, stack =>
    if n = 1 then prolong 0 1 (complete (next 0) stack)
    else match stack with
      | [] => prolong 0 n (complete (next 0) [])
      | (c, _) :: stack => prolong c n (complete (next c) stack)

@[simp] theorem complete_trivial (next : Nat → DecisionTree α) (stack : Calls) :
    complete (choose 1 next) stack = prolong 0 1 (complete (next 0) stack) := by
  rw [complete.eq_def]
  exact if_pos rfl

theorem complete_nil {n : Nat} (hn : n ≠ 1) (next : Nat → DecisionTree α) :
    complete (choose n next) [] = prolong 0 n (complete (next 0) []) := by
  rw [complete, if_neg hn]

theorem complete_cons {n : Nat} (hn : n ≠ 1) (next : Nat → DecisionTree α) (c m : Nat)
    (stack : Calls) :
    complete (choose n next) ((c, m) :: stack) = prolong c n (complete (next c) stack) := by
  rw [complete, if_neg hn]

end DecisionTree

/-- Advance the last counter that is below its width, dropping those after it. -/
def advance : Calls → Option Calls
  | [] => none
  | (c, n) :: stack =>
    match advance stack with
    | some stack => some ((c, n) :: stack)
    | none => if c + 1 < n then some [(c + 1, n)] else none

theorem advance_ne_nil {stack next : Calls} (h : advance stack = some next) : 0 < next.length := by
  cases stack with
  | nil => cases h
  | cons call stack =>
    rw [advance] at h
    split at h
    · cases h
      exact Nat.succ_pos _
    · split at h
      · cases h
        exact Nat.one_pos
      · cases h

theorem advance_concat (stack : Calls) (c n : Nat) :
    advance (stack ++ [(c, n)]) =
      if c + 1 < n then some (stack ++ [(c + 1, n)]) else advance stack := by
  induction stack with
  | nil => simp [advance]
  | cons call stack ih =>
    rw [List.cons_append, advance, ih]
    by_cases h : c + 1 < n
    · simp [h]
    · simp [h, advance]

namespace DecisionTree

theorem head?_paths {t : DecisionTree α} (h : t.Widths (0 < ·)) :
    (paths t).head? = some (complete t []) := by
  induction t with
  | done a => rfl
  | choose n next ih =>
    obtain ⟨hn, hNext⟩ := h
    obtain ⟨m, rfl⟩ := Nat.exists_eq_succ_of_ne_zero (Nat.pos_iff_ne_zero.mp hn)
    rw [paths, List.range_succ_eq_map, List.flatMap_cons, List.head?_append, List.head?_map,
      ih 0 (hNext 0 hn)]
    by_cases hm : m = 0
    · subst hm
      simp
    · simp [complete_nil (by omega : m.succ ≠ 1)]

/-- Consecutive paths: advancing the record of the first and completing it gives the second. -/
def Next (t : DecisionTree α) (p q : Calls × α) : Prop :=
  ∃ stack, advance (recorded p.1) = some stack ∧ complete t stack = q

theorem advance_last {t : DecisionTree α} (h : t.Widths (0 < ·)) :
    ∀ p ∈ (paths t).getLast?, advance (recorded p.1) = none := by
  induction t with
  | done a =>
    intro p hp
    obtain rfl : p = ([], a) := by simpa [paths, eq_comm] using hp
    rfl
  | choose n next ih =>
    obtain ⟨hn, hNext⟩ := h
    obtain ⟨m, rfl⟩ := Nat.exists_eq_succ_of_ne_zero (Nat.pos_iff_ne_zero.mp hn)
    intro p hp
    have hLast := paths_ne_nil (hNext m (Nat.lt_succ_self m))
    rw [paths, List.range_succ, List.flatMap_append, List.flatMap_singleton,
      List.getLast?_append_of_ne_nil _ (mt List.map_eq_nil_iff.mp hLast), List.getLast?_map] at hp
    obtain ⟨q, hq, rfl⟩ := Option.map_eq_some_iff.mp hp
    have hTail := ih m (hNext m (Nat.lt_succ_self m)) q hq
    by_cases hm : m = 0
    · subst hm
      exact hTail
    · simp [prolong, recorded_branching (by omega : m.succ ≠ 1), advance, hTail]

theorem next_trivial {next : Nat → DecisionTree α} {p q : Calls × α} (h : Next (next 0) p q) :
    Next (choose 1 next) (prolong 0 1 p) (prolong 0 1 q) := by
  obtain ⟨stack, hAdvance, rfl⟩ := h
  exact ⟨stack, by rwa [prolong, recorded_trivial], complete_trivial next stack⟩

theorem next_same {n c : Nat} (hn : n ≠ 1) {next : Nat → DecisionTree α} {p q : Calls × α}
    (h : Next (next c) p q) :
    Next (choose n next) (prolong c n p) (prolong c n q) := by
  obtain ⟨stack, hAdvance, rfl⟩ := h
  refine ⟨(c, n) :: stack, ?_, complete_cons hn next c n stack⟩
  rw [prolong, recorded_branching hn, advance, hAdvance]

theorem next_carry {n c : Nat} (hc : c + 1 < n) {next : Nat → DecisionTree α} {p q : Calls × α}
    (hp : advance (recorded p.1) = none) (hq : complete (next (c + 1)) [] = q) :
    Next (choose n next) (prolong c n p) (prolong (c + 1) n q) := by
  have hn : n ≠ 1 := by omega
  refine ⟨[(c + 1, n)], ?_, by rw [complete_cons hn, hq]⟩
  rw [prolong, recorded_branching hn, advance, hp]
  exact if_pos hc

theorem isChain_paths {t : DecisionTree α} (h : t.Widths (0 < ·)) : (paths t).IsChain (Next t) := by
  induction t with
  | done a => simp [paths]
  | choose n next ih =>
    obtain ⟨hn, hNext⟩ := h
    have hBlocks : ∀ c < n, ((paths (next c)).map (prolong c n)).IsChain
        (Next (choose n next)) := by
      intro c hc
      refine List.isChain_map_of_isChain _ ?_ (ih c (hNext c hc))
      intro p q hpq
      by_cases h1 : n = 1
      · subst h1
        obtain rfl : c = 0 := by omega
        exact next_trivial hpq
      · exact next_same h1 hpq
    rw [paths, List.flatMap_def, List.isChain_flatten]
    · constructor
      · intro block hBlock
        obtain ⟨c, hc, rfl⟩ := List.mem_map.mp hBlock
        exact hBlocks c (List.mem_range.mp hc)
      · rw [List.isChain_map]
        obtain ⟨m, rfl⟩ := Nat.exists_eq_succ_of_ne_zero (Nat.pos_iff_ne_zero.mp hn)
        rw [List.isChain_range_succ]
        intro c hc p hp q hq
        rw [List.getLast?_map] at hp
        rw [List.head?_map, head?_paths (hNext (c + 1) (by omega))] at hq
        obtain ⟨p', hp', rfl⟩ := Option.map_eq_some_iff.mp hp
        obtain rfl := Option.some.inj hq
        exact next_carry (by omega) (advance_last (hNext c (by omega)) p' hp') rfl
    · intro hNil
      obtain ⟨c, hc, hEmpty⟩ := List.mem_map.mp hNil
      exact paths_ne_nil (hNext c (List.mem_range.mp hc)) (List.map_eq_nil_iff.mp hEmpty)

inductive Fits : DecisionTree α → Calls → Prop
  | nil (t : DecisionTree α) : Fits t []
  | trivial {next : Nat → DecisionTree α} {stack : Calls} (h : Fits (next 0) stack) :
      Fits (choose 1 next) stack
  | branch {n c : Nat} {next : Nat → DecisionTree α} {stack : Calls} (hn : n ≠ 1) (hc : c < n)
      (h : Fits (next c) stack) : Fits (choose n next) ((c, n) :: stack)

theorem IsPath.fits_advance {t : DecisionTree α} {calls stack : Calls} {a : α}
    (h : IsPath t calls a) (hAdvance : advance (recorded calls) = some stack) : Fits t stack := by
  induction h generalizing stack with
  | done a => cases hAdvance
  | @choose n c next calls a hc h ih =>
    by_cases hn : n = 1
    · subst hn
      obtain rfl : c = 0 := by omega
      exact .trivial (ih (by simpa using hAdvance))
    · rw [recorded_branching hn, advance] at hAdvance
      split at hAdvance
      · rename_i rest hRest
        cases hAdvance
        exact .branch hn hc (ih hRest)
      · split at hAdvance
        · cases hAdvance
          exact .branch hn ‹_› (.nil _)
        · cases hAdvance

theorem Fits.isPath_complete {t : DecisionTree α} {stack : Calls} (h : Fits t stack)
    (ht : t.Widths (0 < ·)) : IsPath t (complete t stack).1 (complete t stack).2 := by
  induction t generalizing stack with
  | done a => exact .done a
  | choose n next ih =>
    obtain ⟨hn, hNext⟩ := ht
    by_cases h1 : n = 1
    · subst h1
      rw [complete_trivial]
      cases h with
      | nil => exact .choose hn (ih 0 (.nil _) (hNext 0 hn))
      | trivial h => exact .choose hn (ih 0 h (hNext 0 hn))
      | branch h1 => exact absurd rfl h1
    · cases h with
      | nil =>
        rw [complete_nil h1]
        exact .choose hn (ih 0 (.nil _) (hNext 0 hn))
      | trivial h => exact absurd rfl h1
      | @branch _ c _ stack _ hc h =>
        rw [complete_cons h1]
        exact .choose hc (ih c h (hNext c hc))

theorem Fits.recorded_complete {t : DecisionTree α} {stack : Calls} (h : Fits t stack) :
    ∃ zeros : Calls, (∀ call ∈ zeros, call.1 = 0) ∧
      recorded (complete t stack).1 = stack ++ zeros := by
  induction t generalizing stack with
  | done a =>
    cases h
    exact ⟨[], by simp, rfl⟩
  | choose n next ih =>
    by_cases h1 : n = 1
    · subst h1
      rw [complete_trivial, prolong, recorded_trivial]
      cases h with
      | nil => exact ih 0 (.nil _)
      | trivial h => exact ih 0 h
      | branch h1 => exact absurd rfl h1
    · cases h with
      | nil =>
        obtain ⟨zeros, hZeros, hRecord⟩ := ih 0 (.nil _)
        rw [complete_nil h1, prolong, recorded_branching h1, hRecord]
        refine ⟨(0, n) :: zeros, ?_, rfl⟩
        intro call hCall
        rcases List.mem_cons.mp hCall with rfl | hCall
        · rfl
        · exact hZeros call hCall
      | trivial h => exact absurd rfl h1
      | @branch _ c _ stack _ hc h =>
        obtain ⟨zeros, hZeros, hRecord⟩ := ih c h
        refine ⟨zeros, hZeros, ?_⟩
        rw [complete_cons h1, prolong, recorded_branching h1, hRecord, List.cons_append]

theorem IsPath.lt_width {t : DecisionTree α} {calls : Calls} {a : α} (h : IsPath t calls a) :
    ∀ call ∈ calls, call.1 < call.2 := by
  induction h with
  | done a => simp
  | choose hc h ih =>
    intro call hCall
    rcases List.mem_cons.mp hCall with rfl | hCall
    · exact hc
    · exact ih call hCall

theorem IsPath.widths {P : Nat → Prop} {t : DecisionTree α} {calls : Calls} {a : α}
    (h : IsPath t calls a) (ht : t.Widths P) : ∀ call ∈ calls, P call.2 := by
  induction h with
  | done a => simp
  | choose hc h ih =>
    intro call hCall
    rcases List.mem_cons.mp hCall with rfl | hCall
    · exact ht.1
    · exact ih (ht.2 _ hc) call hCall

theorem Widths.imp {P Q : Nat → Prop} (hPQ : ∀ n, P n → Q n) {t : DecisionTree α}
    (h : t.Widths P) : t.Widths Q := by
  induction t with
  | done a => trivial
  | choose n next ih => exact ⟨hPQ n h.1, fun c hc => ih c (h.2 c hc)⟩

/-- Run a computation against a generator. The generator may refuse to answer. -/
def run (random : Nat → σ → Option (Nat × σ)) : DecisionTree α → σ → Option (Calls × α × σ)
  | done a, g => some ([], a, g)
  | choose n next, g => (random n g).bind fun answer =>
      (run random (next answer.1) answer.2).map fun rest => ((answer.1, n) :: rest.1, rest.2)

end DecisionTree

inductive Answers (random : Nat → σ → Option (Nat × σ)) : σ → Calls → σ → Prop
  | nil (g : σ) : Answers random g [] g
  | cons {g g₁ g' : σ} {c n : Nat} {calls : Calls} (h : random n g = some (c, g₁))
      (hRest : Answers random g₁ calls g') : Answers random g ((c, n) :: calls) g'

theorem DecisionTree.run_lift {τ : Type*} {random : Nat → σ → Option (Nat × σ)}
    {random' : Nat → τ → Option (Nat × τ)} {f : σ → τ}
    (hf : ∀ n g, random' n (f g) = (random n g).map fun r => (r.1, f r.2)) (t : DecisionTree α)
    (g : σ) :
    t.run random' (f g) = (t.run random g).map fun r => (r.1, r.2.1, f r.2.2) := by
  induction t generalizing g with
  | done a => rfl
  | choose n next ih =>
    rw [run, run, hf]
    cases random n g with
    | none => rfl
    | some answer => simp [ih, Function.comp_def]

theorem DecisionTree.IsPath.run_eq {random : Nat → σ → Option (Nat × σ)} {t : DecisionTree α}
    {calls : Calls} {a : α} (h : t.IsPath calls a) {g g' : σ}
    (hAnswers : Answers random g calls g') :
    t.run random g = some (calls, a, g') := by
  induction h generalizing g with
  | done a => cases hAnswers; rfl
  | choose hc h ih =>
    cases hAnswers with
    | cons hFirst hRest => simp [run, hFirst, ih hRest]

theorem DecisionTree.answers_of_run {random : Nat → σ → Option (Nat × σ)} {t : DecisionTree α}
    {calls : Calls} {a : α} {g g' : σ} (h : t.run random g = some (calls, a, g')) :
    Answers random g calls g' := by
  induction t generalizing calls g with
  | done b =>
    cases h
    exact .nil _
  | choose n next ih =>
    obtain ⟨⟨c, g₁⟩, hFirst, hRest⟩ := Option.bind_eq_some_iff.mp h
    obtain ⟨⟨rest, b, g₂⟩, hRun, hEq⟩ := Option.map_eq_some_iff.mp hRest
    cases hEq
    exact .cons hFirst (ih c hRun)

end ChoiceTree
