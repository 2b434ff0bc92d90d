import Mathlib.Logic.Relation

/-!
# Graphs with a root

What can be reached from a root, and circles, when edges are added or the edges
into one node are removed.
-/

namespace RootedGraph

open Relation

universe u

variable {α : Type u} {r r' : α → α → Prop} {root p c y : α}

def Acyclic (r : α → α → Prop) : Prop := ∀ x, ¬TransGen r x x

theorem Acyclic.mono (h : Acyclic r) (hSub : ∀ x y, r' x y → r x y) : Acyclic r' :=
  fun x hx => h x (TransGen.mono hSub x x hx)

theorem reach_of_still_reached (hSub : ∀ x y, r x y → y ≠ c → r' x y)
    (hc : ReflTransGen r' root c) (h : ReflTransGen r root y) : ReflTransGen r' root y := by
  induction h with
  | refl => exact .refl
  | @tail x y _ hEdge ih =>
    by_cases hEq : y = c
    · rw [hEq]
      exact hc
    · exact ih.tail (hSub x y hEdge hEq)

theorem reach_of_not_reached (hSub : ∀ x y, r x y → y ≠ c → r' x y)
    (h : ReflTransGen r root y) (hNot : ¬ReflTransGen r c y) : ReflTransGen r' root y := by
  induction h with
  | refl => exact .refl
  | @tail x y _ hEdge ih =>
    have hNe : y ≠ c := by
      rintro rfl
      exact hNot .refl
    exact (ih fun hx => hNot (hx.tail hEdge)).tail (hSub x y hEdge hNe)

theorem not_reached_of_edge (hAcyclic : Acyclic r) (hEdge : r p c) : ¬ReflTransGen r c p :=
  fun h => hAcyclic p (TransGen.head' hEdge h)

theorem eq_of_reached_of_leaf (hLeaf : ∀ x, ¬r c x) (h : ReflTransGen r c y) : y = c := by
  rcases h.cases_head with hEq | ⟨x, hEdge, _⟩
  · exact hEq.symm
  · exact absurd hEdge (hLeaf x)

theorem transGen_add (hAdd : ∀ x y, r' x y → r x y ∨ x = p ∧ y = c) {x : α} (h : TransGen r' x y) :
    TransGen r x y ∨ ReflTransGen r x p ∧ ReflTransGen r c y := by
  induction h with
  | @single y hEdge =>
    rcases hAdd x y hEdge with hOld | ⟨rfl, rfl⟩
    · exact .inl (.single hOld)
    · exact .inr ⟨.refl, .refl⟩
  | @tail y z _ hEdge ih =>
    rcases hAdd y z hEdge with hOld | ⟨rfl, rfl⟩
    · exact ih.imp (·.tail hOld) fun h => ⟨h.1, h.2.tail hOld⟩
    · rcases ih with hPath | ⟨hPath, _⟩
      · exact .inr ⟨hPath.to_reflTransGen, .refl⟩
      · exact .inr ⟨hPath, .refl⟩

theorem Acyclic.add (h : Acyclic r) (hAdd : ∀ x y, r' x y → r x y ∨ x = p ∧ y = c)
    (hNot : ¬ReflTransGen r c p) : Acyclic r' := by
  intro x hx
  rcases transGen_add hAdd hx with hOld | ⟨hTo, hFrom⟩
  · exact h x hOld
  · exact hNot (hFrom.trans hTo)

/-- Every walk from a node has fewer edges than a number. -/
def Short (r : α → α → Prop) : Nat → α → Prop
  | 0, _ => False
  | n + 1, x => ∀ y, r x y → Short r n y

namespace Short

variable {n : Nat} {x : α}

theorem mono (h : Short r n x) (hSub : ∀ x y, r' x y → r x y) : Short r' n x := by
  induction n generalizing x with
  | zero => exact h
  | succ n ih => exact fun y hEdge => ih (h y (hSub x y hEdge))

theorem succ (h : Short r n x) : Short r (n + 1) x := by
  induction n generalizing x with
  | zero => exact h.elim
  | succ n ih => exact fun y hEdge => ih (h y hEdge)

theorem of_reached (h : Short r n x) (hReach : ReflTransGen r x y) : Short r n y := by
  induction hReach with
  | refl => exact h
  | @tail a b _ hEdge ih =>
    cases n with
    | zero => exact h
    | succ n => exact (ih b hEdge).succ

theorem not_circle (h : Short r n x) : ¬TransGen r x x := by
  induction n generalizing x with
  | zero => exact h.elim
  | succ n ih =>
    intro hCircle
    obtain ⟨y, hEdge, hBack⟩ := TransGen.head'_iff.mp hCircle
    exact ih (h y hEdge) (TransGen.tail' hBack hEdge)

theorem of_level (level : α → Nat) (b : Nat)
    (hLevel : ∀ x y, r x y → level x < level y ∧ level y < b) (hx : level x < b)
    (hn : b ≤ level x + n) : Short r n x := by
  induction n generalizing x with
  | zero => exact absurd hx (Nat.not_lt.mpr hn)
  | succ n ih =>
    intro y hEdge
    obtain ⟨hUp, hBound⟩ := hLevel x y hEdge
    exact ih hBound (by omega)

end Short

end RootedGraph
