import Mathlib.Data.List.Perm.Basic
import Mathlib.Order.Basic
import Mathlib.Data.List.Lex
import Mathlib.Data.UInt
import Mathlib.Tactic

/-!
# Sorted maps

A map is the list of its bindings in the order of the keys, as an iteration
over it gives them. The order is part of the type, so two maps with the same
bindings are equal.
-/

namespace Explode

structure SortedMap (κ υ : Type) [LinearOrder κ] where
  entries : List (κ × υ)
  sorted : entries.Pairwise fun a b => a.1 < b.1
  deriving DecidableEq

namespace SortedMap

variable {κ υ ω : Type} [LinearOrder κ]

def empty : SortedMap κ υ := ⟨[], .nil⟩

def get? (m : SortedMap κ υ) (k : κ) : Option υ := m.entries.lookup k

def insertEntry (k : κ) (v : υ) : List (κ × υ) → List (κ × υ)
  | [] => [(k, v)]
  | e :: rest =>
    if k < e.1 then (k, v) :: e :: rest
    else if k = e.1 then (k, v) :: rest
    else e :: insertEntry k v rest

theorem mem_insertEntry {k : κ} {v : υ} {l : List (κ × υ)} {e : κ × υ}
    (h : e ∈ insertEntry k v l) : e = (k, v) ∨ e ∈ l := by
  induction l with
  | nil => exact .inl (List.mem_singleton.mp h)
  | cons a rest ih =>
    rw [insertEntry] at h
    split_ifs at h
    · exact List.mem_cons.mp h
    · rcases List.mem_cons.mp h with h | h
      · exact .inl h
      · exact .inr (List.mem_cons_of_mem a h)
    · rcases List.mem_cons.mp h with h | h
      · exact .inr (h ▸ List.mem_cons_self)
      · exact (ih h).imp_right (List.mem_cons_of_mem a)

theorem sorted_insertEntry {k : κ} {v : υ} {l : List (κ × υ)}
    (h : l.Pairwise fun a b => a.1 < b.1) :
    (insertEntry k v l).Pairwise fun a b => a.1 < b.1 := by
  induction l with
  | nil => exact List.pairwise_singleton _ _
  | cons a rest ih =>
    obtain ⟨hHead, hRest⟩ := List.pairwise_cons.mp h
    rw [insertEntry]
    split_ifs with hLt hEq
    · refine List.pairwise_cons.mpr ⟨fun e he => ?_, h⟩
      rcases List.mem_cons.mp he with rfl | he
      · exact hLt
      · exact hLt.trans (hHead e he)
    · exact List.pairwise_cons.mpr ⟨fun e he => hEq ▸ hHead e he, hRest⟩
    · refine List.pairwise_cons.mpr ⟨fun e he => ?_, ih hRest⟩
      rcases mem_insertEntry he with rfl | he
      · exact lt_of_le_of_ne (not_lt.mp hLt) (Ne.symm hEq)
      · exact hHead e he

def insert (m : SortedMap κ υ) (k : κ) (v : υ) : SortedMap κ υ :=
  ⟨insertEntry k v m.entries, sorted_insertEntry m.sorted⟩

def erase (m : SortedMap κ υ) (k : κ) : SortedMap κ υ :=
  ⟨m.entries.filter fun e => e.1 ≠ k, m.sorted.sublist List.filter_sublist⟩

def size (m : SortedMap κ υ) : Nat := m.entries.length

variable {m m' : SortedMap κ υ} {k k' : κ} {v v' : υ}

@[simp] theorem get?_empty (k : κ) : (empty : SortedMap κ υ).get? k = none := rfl

theorem lookup_of_mem {l : List (κ × υ)} (hSorted : l.Pairwise fun a b => a.1 < b.1)
    (h : (k, v) ∈ l) : l.lookup k = some v := by
  induction l with
  | nil => cases h
  | cons a rest ih =>
    obtain ⟨hHead, hRest⟩ := List.pairwise_cons.mp hSorted
    rcases List.mem_cons.mp h with rfl | h
    · exact List.lookup_cons_self
    · rw [List.lookup_cons, beq_false_of_ne (hHead (k, v) h).ne']
      exact ih hRest h

theorem mem_of_lookup {l : List (κ × υ)} (h : l.lookup k = some v) : (k, v) ∈ l := by
  induction l with
  | nil => cases h
  | cons a rest ih =>
    rw [List.lookup_cons] at h
    by_cases hEq : k = a.1
    · rw [beq_iff_eq.mpr hEq] at h
      cases h
      rw [hEq]
      exact List.mem_cons_self
    · rw [beq_false_of_ne hEq] at h
      exact List.mem_cons_of_mem a (ih h)

theorem get?_eq_some : m.get? k = some v ↔ (k, v) ∈ m.entries :=
  ⟨mem_of_lookup, lookup_of_mem m.sorted⟩

theorem get?_eq_none : m.get? k = none ↔ ∀ v, (k, v) ∉ m.entries := by
  constructor
  · intro h v hMem
    rw [get?_eq_some.mpr hMem] at h
    cases h
  · intro h
    cases hGet : m.get? k with
    | none => rfl
    | some v => exact absurd (get?_eq_some.mp hGet) (h v)

theorem ext_get? (h : ∀ k, m.get? k = m'.get? k) : m = m' := by
  have hMem : ∀ e, e ∈ m.entries ↔ e ∈ m'.entries := by
    intro e
    rw [← get?_eq_some, ← get?_eq_some, h]
  have hNodup : ∀ n : SortedMap κ υ, n.entries.Nodup := fun n =>
    n.sorted.imp fun hLt hEq => (hEq ▸ hLt).false
  have hPerm : m.entries.Perm m'.entries :=
    (List.perm_ext_iff_of_nodup (hNodup m) (hNodup m')).mpr hMem
  have hEntries : m.entries = m'.entries :=
    hPerm.eq_of_pairwise (fun a b _ _ hab hba => absurd hab hba.not_gt) m.sorted m'.sorted
  cases m
  cases m'
  cases hEntries
  rfl

theorem lookup_insertEntry (k : κ) (v : υ) (l : List (κ × υ)) (k' : κ) :
    (insertEntry k v l).lookup k' = if k' = k then some v else l.lookup k' := by
  induction l with
  | nil =>
    rw [insertEntry, List.lookup_cons]
    by_cases hEq : k' = k
    · rw [beq_iff_eq.mpr hEq, if_pos hEq]
    · rw [beq_false_of_ne hEq, if_neg hEq]
  | cons a rest ih =>
    rw [insertEntry]
    by_cases hKey : k' = k
    · subst hKey
      rw [if_pos rfl]
      split_ifs with hLt hEq
      · exact List.lookup_cons_self
      · exact List.lookup_cons_self
      · rw [List.lookup_cons, beq_false_of_ne hEq, ih, if_pos rfl]
    · rw [if_neg hKey]
      split_ifs with hLt hEq
      · rw [List.lookup_cons, beq_false_of_ne hKey]
      · rw [List.lookup_cons, beq_false_of_ne hKey, List.lookup_cons,
          beq_false_of_ne (hEq ▸ hKey)]
      · rw [List.lookup_cons, List.lookup_cons, ih, if_neg hKey]

theorem get?_insert (m : SortedMap κ υ) (k : κ) (v : υ) (k' : κ) :
    (m.insert k v).get? k' = if k' = k then some v else m.get? k' :=
  lookup_insertEntry k v m.entries k'

@[simp] theorem get?_insert_self (m : SortedMap κ υ) (k : κ) (v : υ) :
    (m.insert k v).get? k = some v := by
  rw [get?_insert, if_pos rfl]

theorem get?_insert_of_ne (h : k' ≠ k) : (m.insert k v).get? k' = m.get? k' := by
  rw [get?_insert, if_neg h]

theorem get?_foldl_insert_of_ne {α : Type} (key : α → κ) (val : α → υ) {l : List α}
    (m : SortedMap κ υ) (h : ∀ a ∈ l, key a ≠ k) :
    (l.foldl (fun m a => m.insert (key a) (val a)) m).get? k = m.get? k := by
  induction l generalizing m with
  | nil => rfl
  | cons a rest ih =>
    obtain ⟨ha, hRest⟩ := List.forall_mem_cons.mp h
    rw [List.foldl_cons, ih _ hRest, get?_insert_of_ne ha.symm]

theorem get?_foldl_insert {α : Type} (key : α → κ) (val : α → υ) {l : List α} (m : SortedMap κ υ)
    (h : ∀ a ∈ l, ∀ b ∈ l, key a = key b → val a = val b) {a : α} (ha : a ∈ l) :
    (l.foldl (fun m a => m.insert (key a) (val a)) m).get? (key a) = some (val a) := by
  induction l generalizing m a with
  | nil => cases ha
  | cons b rest ih =>
    rw [List.foldl_cons]
    by_cases hRest : ∃ c ∈ rest, key c = key a
    · obtain ⟨c, hc, hKey⟩ := hRest
      rw [← hKey, h a ha c (List.mem_cons_of_mem b hc) hKey.symm]
      exact ih _ (fun x hx y hy => h x (List.mem_cons_of_mem b hx) y (List.mem_cons_of_mem b hy)) hc
    · have hNone : ∀ c ∈ rest, key c ≠ key a := fun c hc hKey => hRest ⟨c, hc, hKey⟩
      obtain rfl | hMem := List.mem_cons.mp ha
      · rw [get?_foldl_insert_of_ne key val _ hNone, get?_insert_self]
      · exact absurd rfl (hNone a hMem)

theorem get?_erase (m : SortedMap κ υ) (k k' : κ) :
    (m.erase k).get? k' = if k' = k then none else m.get? k' := by
  split_ifs with hEq
  · rw [get?_eq_none]
    intro v hMem
    have hNe := (List.mem_filter.mp hMem).2
    rw [hEq] at hNe
    simp at hNe
  · cases hGet : m.get? k' with
    | none =>
      rw [get?_eq_none] at hGet ⊢
      exact fun v hMem => hGet v (List.mem_filter.mp hMem).1
    | some v =>
      rw [get?_eq_some] at hGet ⊢
      exact List.mem_filter.mpr ⟨hGet, by simpa using hEq⟩

@[simp] theorem get?_erase_self (m : SortedMap κ υ) (k : κ) : (m.erase k).get? k = none := by
  rw [get?_erase, if_pos rfl]

theorem get?_erase_of_ne (h : k' ≠ k) : (m.erase k).get? k' = m.get? k' := by
  rw [get?_erase, if_neg h]

theorem erase_insert_self (h : m.get? k = none) : (m.insert k v).erase k = m := by
  apply ext_get?
  intro k'
  rw [get?_erase, get?_insert]
  split_ifs with hEq
  · rw [hEq, h]
  · rfl

theorem insert_self (h : m.get? k = some v) : m.insert k v = m := by
  apply ext_get?
  intro k'
  rw [get?_insert]
  split_ifs with hEq
  · rw [hEq, h]
  · rfl

theorem entries_insert_perm (m : SortedMap κ υ) (k : κ) (v : υ) :
    (m.insert k v).entries.Perm ((k, v) :: (m.erase k).entries) := by
  have hNodup : ∀ n : SortedMap κ υ, n.entries.Nodup := fun n =>
    n.sorted.imp fun hLt hEq => (hEq ▸ hLt).false
  have hNew : ((k, v) :: (m.erase k).entries).Nodup := by
    refine List.nodup_cons.mpr ⟨?_, hNodup _⟩
    rw [← get?_eq_some, get?_erase_self]
    simp
  refine (List.perm_ext_iff_of_nodup (hNodup _) hNew).mpr fun e => ?_
  obtain ⟨k', v'⟩ := e
  rw [List.mem_cons, ← get?_eq_some, ← get?_eq_some, get?_insert, get?_erase]
  by_cases hEq : k' = k
  · simp [hEq, eq_comm]
  · simp [hEq]

theorem le_of_mem_dropWhile {l : List (κ × υ)} (hSorted : l.Pairwise fun a b => a.1 < b.1)
    {e : κ × υ} (he : e ∈ l.dropWhile fun e => e.1 < k) : k ≤ e.1 := by
  induction l with
  | nil => cases he
  | cons a rest ih =>
    obtain ⟨hHead, hRest⟩ := List.pairwise_cons.mp hSorted
    rw [List.dropWhile_cons] at he
    split at he
    case isTrue => exact ih hRest he
    case isFalse hFirst =>
      have hLe : k ≤ a.1 := by simpa using hFirst
      obtain rfl | he := List.mem_cons.mp he
      · exact hLe
      · exact hLe.trans (hHead e he).le

theorem insertEntry_last {l : List (κ × υ)} (h : ∀ e ∈ l, e.1 < k) :
    insertEntry k v l = l ++ [(k, v)] := by
  induction l with
  | nil => rfl
  | cons e rest ih =>
    have hFirst := h e List.mem_cons_self
    rw [insertEntry, if_neg hFirst.not_gt, if_neg hFirst.ne',
      ih fun e he => h e (List.mem_cons_of_mem _ he), List.cons_append]

theorem entries_insert_last (h : ∀ e ∈ m.entries, e.1 < k) :
    (m.insert k v).entries = m.entries ++ [(k, v)] :=
  insertEntry_last h

theorem entries_perm_erase (h : m.get? k = some v) :
    m.entries.Perm ((k, v) :: (m.erase k).entries) := by
  have hPerm := entries_insert_perm m k v
  rwa [insert_self h] at hPerm

theorem erase_eq_self (h : m.get? k = none) : m.erase k = m := by
  apply ext_get?
  intro k'
  rw [get?_erase]
  split_ifs with hEq
  · rw [hEq, h]
  · rfl

def mapVal (m : SortedMap κ υ) (f : υ → ω) : SortedMap κ ω where
  entries := m.entries.map fun e => (e.1, f e.2)
  sorted := List.pairwise_map.mpr m.sorted

theorem get?_mapVal (m : SortedMap κ υ) (f : υ → ω) (k : κ) :
    (m.mapVal f).get? k = (m.get? k).map f := by
  obtain ⟨l, hl⟩ := m
  simp only [mapVal, get?]
  clear hl
  induction l with
  | nil => rfl
  | cons e rest ih =>
    rw [List.map_cons, List.lookup_cons, List.lookup_cons, ih]
    cases k == e.1 <;> rfl

theorem mapVal_mapVal {ψ : Type} (m : SortedMap κ υ) (f : υ → ω) (g : ω → ψ) :
    (m.mapVal f).mapVal g = m.mapVal fun v => g (f v) := by
  apply ext_get?
  intro k
  rw [get?_mapVal, get?_mapVal, get?_mapVal, Option.map_map]
  rfl

theorem mapVal_congr {f g : υ → ω} (h : ∀ e ∈ m.entries, f e.2 = g e.2) :
    m.mapVal f = m.mapVal g := by
  apply ext_get?
  intro k
  rw [get?_mapVal, get?_mapVal]
  cases hk : m.get? k with
  | none => rfl
  | some v => exact congrArg some (h (k, v) (get?_eq_some.mp hk))

def mapWithKey (m : SortedMap κ υ) (f : κ → υ → ω) : SortedMap κ ω where
  entries := m.entries.map fun e => (e.1, f e.1 e.2)
  sorted := List.pairwise_map.mpr m.sorted

theorem get?_mapWithKey (m : SortedMap κ υ) (f : κ → υ → ω) (k : κ) :
    (m.mapWithKey f).get? k = (m.get? k).map (f k) := by
  obtain ⟨l, hl⟩ := m
  simp only [mapWithKey, get?]
  clear hl
  induction l with
  | nil => rfl
  | cons e rest ih =>
    rw [List.map_cons, List.lookup_cons, List.lookup_cons, ih]
    cases hk : k == e.1 with
    | true => simp [eq_of_beq hk]
    | false => rfl

def total (m : SortedMap κ υ) (f : κ × υ → Nat) : Nat := (m.entries.map f).sum

theorem entries_isEmpty {m : SortedMap κ υ} : m.entries.isEmpty = true ↔ m = empty := by
  rw [List.isEmpty_iff]
  constructor
  · intro h
    obtain ⟨entries, sorted⟩ := m
    cases h
    rfl
  · rintro rfl
    rfl

@[simp]
theorem total_empty (f : κ × υ → Nat) : (empty : SortedMap κ υ).total f = 0 := rfl

theorem total_mapVal (m : SortedMap κ υ) (g : υ → ω) (f : κ × ω → Nat) :
    (m.mapVal g).total f = m.total fun e => f (e.1, g e.2) := by
  rw [total, total, mapVal, List.map_map]
  rfl

theorem total_erase_add (f : κ × υ → Nat) (h : m.get? k = some v) :
    (m.erase k).total f + f (k, v) = m.total f := by
  rw [total, total, ((entries_perm_erase h).map f).sum_eq, List.map_cons, List.sum_cons, add_comm]

theorem total_insert (m : SortedMap κ υ) (f : κ × υ → Nat) (k : κ) (v : υ) :
    (m.insert k v).total f = (m.erase k).total f + f (k, v) := by
  rw [total, total, ((entries_insert_perm m k v).map f).sum_eq, List.map_cons, List.sum_cons,
    add_comm]

theorem total_insert_new (f : κ × υ → Nat) (h : m.get? k = none) :
    (m.insert k v).total f = m.total f + f (k, v) := by
  rw [total_insert, erase_eq_self h]

theorem total_insert_old (f : κ × υ → Nat) (v' : υ) (h : m.get? k = some v) :
    (m.insert k v').total f + f (k, v) = m.total f + f (k, v') := by
  rw [total_insert, ← total_erase_add f h]
  ring

theorem total_eq_zero {f : κ × υ → Nat} :
    m.total f = 0 ↔ ∀ k v, m.get? k = some v → f (k, v) = 0 := by
  rw [total, List.sum_eq_zero_iff]
  constructor
  · intro h k v hGet
    exact h _ (List.mem_map_of_mem (get?_eq_some.mp hGet))
  · intro h x hx
    obtain ⟨e, hMem, rfl⟩ := List.mem_map.mp hx
    exact h e.1 e.2 (get?_eq_some.mpr hMem)

theorem total_pos {f : κ × υ → Nat} : 0 < m.total f ↔ ∃ k v, m.get? k = some v ∧ 0 < f (k, v) := by
  rw [Nat.pos_iff_ne_zero, ne_eq, total_eq_zero]
  simp only [not_forall, Nat.pos_iff_ne_zero, exists_prop, ne_eq]

end SortedMap

instance byteOrder : LinearOrder UInt8 where
  le_refl a := UInt8.le_refl a
  le_trans a b c := UInt8.le_trans
  lt_iff_le_not_ge a b := by simp only [UInt8.le_iff_toNat_le, UInt8.lt_iff_toNat_lt]; omega
  le_antisymm a b := UInt8.le_antisymm
  le_total a b := UInt8.le_total a b
  toDecidableLE := inferInstance

end Explode
