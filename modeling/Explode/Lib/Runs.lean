import Mathlib.Data.List.Sort
import Explode.Lib.IntervalMap

/-!
# Maximal runs

Some of the points carry a label. A list of intervals, each of a kind, is the
decomposition into maximal runs if the points of an interval are labelled with
its kind, the points next to it are not, and no labelled point is left out.
-/

namespace IntervalMap

variable {α κ : Type} (lo hi : α → Nat) (kind : α → κ) (label : Nat → Option κ)

structure Decomposes (l : List α) : Prop where
  ordered : Ordered lo hi l
  uniform : ∀ a ∈ l, ∀ n, lo a ≤ n → n < hi a → label n = some (kind a)
  begins : ∀ a ∈ l, ∀ n, n + 1 = lo a → label n ≠ some (kind a)
  ends : ∀ a ∈ l, label (hi a) ≠ some (kind a)
  covers : ∀ n, label n ≠ none → ∃ a ∈ l, lo a ≤ n ∧ n < hi a

variable {lo hi kind label} {l l' : List α}

theorem Ordered.cases (hOrd : Ordered lo hi l) {R : α → α → Prop} (hPair : l.Pairwise R) {a b : α}
    (ha : a ∈ l) (hb : b ∈ l) : a = b ∨ (hi a ≤ lo b ∧ R a b) ∨ (hi b ≤ lo a ∧ R b a) := by
  have hBoth := hOrd.apart.and hPair
  induction l with
  | nil => cases ha
  | cons c rest ih =>
    obtain ⟨hFirst, hRest⟩ := List.pairwise_cons.mp hBoth
    rcases List.mem_cons.mp ha with rfl | hTail
    · rcases List.mem_cons.mp hb with rfl | hb
      · exact .inl rfl
      · exact .inr (.inl (hFirst b hb))
    · rcases List.mem_cons.mp hb with rfl | hb
      · exact .inr (.inr (hFirst a hTail))
      · exact ih (ordered_cons.mp hOrd).2.2 (List.pairwise_cons.mp hPair).2 hTail hb hRest

theorem decomposes_of_apart (hOrd : Ordered lo hi l)
    (hUniform : ∀ a ∈ l, ∀ n, lo a ≤ n → n < hi a → label n = some (kind a))
    (hApart : l.Pairwise fun a b => hi a = lo b → kind a ≠ kind b)
    (hCovers : ∀ n, label n ≠ none → ∃ a ∈ l, lo a ≤ n ∧ n < hi a) :
    Decomposes lo hi kind label l := by
  -- an interval with the label of a point next to another one touches that one
  have hKind : ∀ a ∈ l, ∀ n, label n = some (kind a) →
      ∃ b ∈ l, lo b ≤ n ∧ n < hi b ∧ kind b = kind a := by
    intro a ha n hn
    obtain ⟨b, hb, hLo, hHi⟩ := hCovers n (by rw [hn]; simp)
    refine ⟨b, hb, hLo, hHi, ?_⟩
    have hSame := (hUniform b hb n hLo hHi).symm.trans hn
    exact Option.some.inj hSame
  refine ⟨hOrd, hUniform, ?_, ?_, hCovers⟩
  · intro a ha n hn hLabel
    obtain ⟨b, hb, hLo, hHi, hSame⟩ := hKind a ha n hLabel
    have hNonempty := hOrd.nonempty a ha
    rcases hOrd.cases hApart ha hb with rfl | ⟨hLe, -⟩ | ⟨hLe, hTouch⟩
    · omega
    · omega
    · exact hTouch (by omega) hSame
  · intro a ha hLabel
    obtain ⟨b, hb, hLo, hHi, hSame⟩ := hKind a ha (hi a) hLabel
    have hNonempty := hOrd.nonempty a ha
    rcases hOrd.cases hApart ha hb with rfl | ⟨hLe, hTouch⟩ | ⟨hLe, -⟩
    · omega
    · exact hTouch (by omega) hSame.symm
    · omega

theorem Decomposes.exists_same (h : Decomposes lo hi kind label l)
    (h' : Decomposes lo hi kind label l') {a : α} (ha : a ∈ l) :
    ∃ b ∈ l', lo b = lo a ∧ hi b = hi a ∧ kind b = kind a := by
  have hNonempty := h.ordered.nonempty a ha
  have hStart := h.uniform a ha (lo a) (Nat.le_refl _) hNonempty
  obtain ⟨b, hb, hLo, hHi⟩ := h'.covers (lo a) (by rw [hStart]; simp)
  have hKind : kind b = kind a :=
    Option.some.inj ((h'.uniform b hb (lo a) hLo hHi).symm.trans hStart)
  refine ⟨b, hb, ?_, ?_, hKind⟩
  · by_contra hNe
    obtain ⟨n, hn⟩ : ∃ n, n + 1 = lo a := ⟨lo a - 1, by omega⟩
    apply h.begins a ha n hn
    rw [← hKind]
    exact h'.uniform b hb n (by omega) (by omega)
  · rcases Nat.lt_trichotomy (hi b) (hi a) with hLt | hEq | hGt
    · exfalso
      apply h'.ends b hb
      rw [hKind]
      exact h.uniform a ha (hi b) (by omega) hLt
    · exact hEq
    · exfalso
      apply h.ends a ha
      rw [← hKind]
      exact h'.uniform b hb (hi a) (by omega) hGt

theorem Decomposes.map {β : Type} {f : β → α} {l : List β}
    (h : Decomposes (lo ∘ f) (hi ∘ f) (kind ∘ f) label l) :
    Decomposes lo hi kind label (l.map f) where
  ordered := ⟨List.forall_mem_map.mpr h.ordered.nonempty, List.pairwise_map.mpr h.ordered.apart⟩
  uniform := List.forall_mem_map.mpr h.uniform
  begins := List.forall_mem_map.mpr h.begins
  ends := List.forall_mem_map.mpr h.ends
  covers n hn := by
    obtain ⟨b, hb, hIn⟩ := h.covers n hn
    exact ⟨f b, List.mem_map_of_mem hb, hIn⟩

theorem Decomposes.eq (h : Decomposes lo hi kind label l) (h' : Decomposes lo hi kind label l')
    (hExt : ∀ a ∈ l, ∀ b ∈ l', lo b = lo a → hi b = hi a → kind b = kind a → a = b) : l = l' := by
  have hSorted : ∀ {l : List α}, Ordered lo hi l → l.Pairwise fun a b => lo a < lo b := by
    intro l hOrd
    apply hOrd.apart.imp_of_mem
    intro a b ha _ hLe
    exact Nat.lt_of_lt_of_le (hOrd.nonempty a ha) hLe
  have hIrrefl : Std.Irrefl fun a b => lo a < lo b := ⟨fun a => Nat.lt_irrefl (lo a)⟩
  have hAntisymm : Std.Antisymm fun a b => lo a < lo b :=
    ⟨fun a b hLt hGt => absurd hLt (Nat.lt_asymm hGt)⟩
  apply (hSorted h.ordered).eq_of_mem_iff (hSorted h'.ordered)
  intro a
  constructor
  · intro ha
    obtain ⟨b, hb, hLo, hHi, hKind⟩ := h.exists_same h' ha
    rwa [hExt a ha b hb hLo hHi hKind]
  · intro ha
    obtain ⟨b, hb, hLo, hHi, hKind⟩ := h'.exists_same h ha
    rwa [← hExt b hb a ha hLo.symm hHi.symm hKind.symm]

end IntervalMap
