import Mathlib.Data.List.Basic

/-!
# Maps keyed by the start of an interval

A list of disjoint, non-empty, half-open intervals in increasing order, as an
ordered map from their starts holds them.
-/

namespace IntervalMap

variable {α β : Type} (lo hi : α → Nat)

structure Ordered (l : List α) : Prop where
  nonempty : ∀ a ∈ l, lo a < hi a
  apart : l.Pairwise fun a b => hi a ≤ lo b

def insert (a : α) : List α → List α
  | [] => [a]
  | b :: l =>
    if lo a < lo b then a :: b :: l
    else if lo a = lo b then a :: l
    else b :: insert a l

def erase (a : α) (l : List α) : List α := l.filter fun b => lo b ≠ lo a

def update (a a' : α) (l : List α) : List α := l.map fun b => if lo b = lo a then a' else b

def value (val : α → Nat → β) : List α → Nat → Option β
  | [], _ => none
  | a :: l, x => if lo a ≤ x ∧ x < hi a then some (val a x) else value val l x

variable {lo hi}

theorem ordered_nil : Ordered lo hi [] := ⟨by simp, List.Pairwise.nil⟩

theorem ordered_cons {a : α} {l : List α} :
    Ordered lo hi (a :: l) ↔ lo a < hi a ∧ (∀ b ∈ l, hi a ≤ lo b) ∧ Ordered lo hi l := by
  constructor
  · rintro ⟨hNonempty, hApart⟩
    obtain ⟨hFirst, hRest⟩ := List.pairwise_cons.mp hApart
    refine ⟨hNonempty a List.mem_cons_self, hFirst, ?_, hRest⟩
    intro b hb
    exact hNonempty b (List.mem_cons_of_mem a hb)
  · rintro ⟨ha, hFirst, hRest⟩
    constructor
    · intro b hb
      rcases List.mem_cons.mp hb with rfl | hb
      · exact ha
      · exact hRest.nonempty b hb
    · exact List.pairwise_cons.mpr ⟨hFirst, hRest.apart⟩

theorem ordered_append {l l' : List α} :
    Ordered lo hi (l ++ l') ↔
      Ordered lo hi l ∧ Ordered lo hi l' ∧ ∀ a ∈ l, ∀ b ∈ l', hi a ≤ lo b := by
  constructor
  · rintro ⟨hNonempty, hApart⟩
    obtain ⟨hLeft, hRight, hAcross⟩ := List.pairwise_append.mp hApart
    refine ⟨⟨?_, hLeft⟩, ⟨?_, hRight⟩, hAcross⟩
    · intro a ha
      exact hNonempty a (List.mem_append_left l' ha)
    · intro a ha
      exact hNonempty a (List.mem_append_right l ha)
  · rintro ⟨hLeft, hRight, hAcross⟩
    constructor
    · intro a ha
      rcases List.mem_append.mp ha with ha | ha
      · exact hLeft.nonempty a ha
      · exact hRight.nonempty a ha
    · exact List.pairwise_append.mpr ⟨hLeft.apart, hRight.apart, hAcross⟩

theorem ordered_singleton {a : α} (ha : lo a < hi a) : Ordered lo hi [a] :=
  ordered_cons.mpr ⟨ha, by simp, ordered_nil⟩

section
variable {a : α} {l l' : List α}

theorem insert_between (hBefore : ∀ b ∈ l, lo b < lo a) (hAfter : ∀ b ∈ l', lo a < lo b) :
    insert lo a (l ++ l') = l ++ a :: l' := by
  induction l with
  | nil =>
    cases l' with
    | nil => rfl
    | cons b rest => simp [insert, hAfter b List.mem_cons_self]
  | cons b rest ih =>
    have hb : lo b < lo a := hBefore b List.mem_cons_self
    have hRest := ih fun c hc => hBefore c (List.mem_cons_of_mem b hc)
    rw [List.cons_append, insert, if_neg (by omega), if_neg (by omega), hRest, List.cons_append]

theorem erase_between (hBefore : ∀ b ∈ l, lo b < lo a) (hAfter : ∀ b ∈ l', lo a < lo b) :
    erase lo a (l ++ a :: l') = l ++ l' := by
  have hLeft : l.filter (fun b => lo b ≠ lo a) = l := by
    apply List.filter_eq_self.mpr
    intro b hb
    have := hBefore b hb
    simp only [ne_eq, decide_not, Bool.not_eq_eq_eq_not, Bool.not_true, decide_eq_false_iff_not]
    omega
  have hRight : l'.filter (fun b => lo b ≠ lo a) = l' := by
    apply List.filter_eq_self.mpr
    intro b hb
    have := hAfter b hb
    simp only [ne_eq, decide_not, Bool.not_eq_eq_eq_not, Bool.not_true, decide_eq_false_iff_not]
    omega
  rw [erase, List.filter_append, List.filter_cons_of_neg (by simp), hLeft, hRight]

theorem update_between {a' : α} (hBefore : ∀ b ∈ l, lo b < lo a)
    (hAfter : ∀ b ∈ l', lo a < lo b) : update lo a a' (l ++ a :: l') = l ++ a' :: l' := by
  have hLeft : l.map (fun b => if lo b = lo a then a' else b) = l := by
    apply List.map_congr_left ?_ |>.trans (List.map_id l)
    intro b hb
    have := hBefore b hb
    rw [if_neg (by omega), id]
  have hRight : l'.map (fun b => if lo b = lo a then a' else b) = l' := by
    apply List.map_congr_left ?_ |>.trans (List.map_id l')
    intro b hb
    have := hAfter b hb
    rw [if_neg (by omega), id]
  rw [update, List.map_append, List.map_cons, if_pos rfl, hLeft, hRight]

theorem Ordered.key_lt (h : Ordered lo hi (l ++ a :: l')) :
    (∀ b ∈ l, lo b < lo a) ∧ ∀ b ∈ l', lo a < lo b := by
  obtain ⟨hLeft, hRight, hAcross⟩ := ordered_append.mp h
  obtain ⟨ha, hAfter, _⟩ := ordered_cons.mp hRight
  constructor
  · intro b hb
    exact Nat.lt_of_lt_of_le (hLeft.nonempty b hb) (hAcross b hb a List.mem_cons_self)
  · intro b hb
    exact Nat.lt_of_lt_of_le ha (hAfter b hb)

end

theorem Ordered.sublist {l l' : List α} (h : Ordered lo hi l) (hSub : List.Sublist l' l) :
    Ordered lo hi l' :=
  ⟨fun a ha => h.nonempty a (hSub.subset ha), h.apart.sublist hSub⟩

theorem Ordered.shrink {l l' : List α} {a a' : α} (h : Ordered lo hi (l ++ a :: l'))
    (hLo : lo a ≤ lo a') (hNonempty : lo a' < hi a') (hHi : hi a' ≤ hi a) :
    Ordered lo hi (l ++ a' :: l') := by
  obtain ⟨hLeft, hRight, hAcross⟩ := ordered_append.mp h
  obtain ⟨_, hAfter, hRest⟩ := ordered_cons.mp hRight
  refine ordered_append.mpr ⟨hLeft, ordered_cons.mpr ⟨hNonempty, ?_, hRest⟩, ?_⟩
  · intro b hb
    exact Nat.le_trans hHi (hAfter b hb)
  · intro b hb c hc
    rcases List.mem_cons.mp hc with rfl | hc
    · exact Nat.le_trans (hAcross b hb a List.mem_cons_self) hLo
    · exact hAcross b hb c (List.mem_cons_of_mem a hc)

section
variable {a b : α} {l : List α}

theorem mem_of_mem_insert (h : b ∈ insert lo a l) : b = a ∨ b ∈ l := by
  induction l with
  | nil => exact .inl (List.mem_singleton.mp h)
  | cons c rest ih =>
    rw [insert] at h
    split_ifs at h
    · exact List.mem_cons.mp h
    · rcases List.mem_cons.mp h with h | h
      · exact .inl h
      · exact .inr (List.mem_cons_of_mem c h)
    · rcases List.mem_cons.mp h with rfl | h
      · exact .inr List.mem_cons_self
      · exact (ih h).imp_right (List.mem_cons_of_mem c)

theorem mem_of_mem_update {a' : α} (h : b ∈ update lo a a' l) : b = a' ∨ b ∈ l := by
  obtain ⟨c, hc, hEq⟩ := List.mem_map.mp h
  split_ifs at hEq
  · exact .inl hEq.symm
  · exact .inr (hEq ▸ hc)

theorem pairwise_insert (h : l.Pairwise fun a b => lo a < lo b) :
    (insert lo a l).Pairwise fun a b => lo a < lo b := by
  induction l with
  | nil => exact List.pairwise_singleton _ _
  | cons c rest ih =>
    obtain ⟨hFirst, hRest⟩ := List.pairwise_cons.mp h
    rw [insert]
    split_ifs with hLess hSame
    · refine List.pairwise_cons.mpr ⟨?_, h⟩
      intro b hb
      rcases List.mem_cons.mp hb with rfl | hb
      · exact hLess
      · exact Nat.lt_trans hLess (hFirst b hb)
    · exact List.pairwise_cons.mpr ⟨fun b hb => hSame ▸ hFirst b hb, hRest⟩
    · refine List.pairwise_cons.mpr ⟨?_, ih hRest⟩
      intro b hb
      rcases mem_of_mem_insert hb with rfl | hb
      · omega
      · exact hFirst b hb

theorem pairwise_update {a' : α} (hKey : lo a' = lo a) (h : l.Pairwise fun a b => lo a < lo b) :
    (update lo a a' l).Pairwise fun a b => lo a < lo b := by
  have hKeys : ∀ c, lo (if lo c = lo a then a' else c) = lo c := by
    intro c
    split_ifs with hEq
    · rw [hKey, hEq]
    · rfl
  rw [update, List.pairwise_map]
  simpa only [hKeys] using h

end

section
variable {val : α → Nat → β} {l l' : List α} {x : Nat}

theorem value_append :
    value lo hi val (l ++ l') x = (value lo hi val l x).or (value lo hi val l' x) := by
  induction l with
  | nil => simp [value]
  | cons a rest ih =>
    rw [List.cons_append, value, value, ih]
    split <;> simp

theorem value_eq_none (h : ∀ a ∈ l, lo a ≤ x → hi a ≤ x) : value lo hi val l x = none := by
  induction l with
  | nil => rfl
  | cons a rest ih =>
    have ha := h a List.mem_cons_self
    rw [value, if_neg (by omega)]
    exact ih fun b hb => h b (List.mem_cons_of_mem a hb)

theorem value_of_mem (h : Ordered lo hi l) {a : α} (ha : a ∈ l) (hLo : lo a ≤ x) (hHi : x < hi a) :
    value lo hi val l x = some (val a x) := by
  induction l with
  | nil => cases ha
  | cons b rest ih =>
    obtain ⟨_, hAfter, hRest⟩ := ordered_cons.mp h
    rw [value]
    rcases List.mem_cons.mp ha with rfl | ha
    · rw [if_pos ⟨hLo, hHi⟩]
    · have := hAfter a ha
      rw [if_neg (by omega), ih hRest ha]

end

end IntervalMap
