import Mathlib.Algebra.GroupWithZero.Nat
import Mathlib.Data.List.Basic
import Mathlib.Data.List.Forall2
import Mathlib.Data.List.Perm.Basic
import Mathlib.Data.List.Infix

/-!
# Ordered trees

A node is addressed by the child numbers on the way down to it. The recursive
orders list addresses, so a node occurs once however the labels are chosen, and
an ancestor is a prefix. Trees may also be compared up to the order of children.
-/

universe u

inductive RoseTree (α : Type u)
  | node (label : α) (children : List (RoseTree α))

namespace RoseTree

variable {α : Type u}
variable (t : RoseTree α) (p : List Nat)

def label : RoseTree α → α
  | node label _ => label

def children : RoseTree α → List (RoseTree α)
  | node _ children => children

theorem node_eta (t : RoseTree α) : .node t.label t.children = t := by
  cases t
  rfl

theorem induction {P : RoseTree α → Prop}
    (node : ∀ label children, (∀ t ∈ children, P t) → P (.node label children))
    (t : RoseTree α) : P t :=
  @RoseTree.rec α P (fun ts => ∀ t ∈ ts, P t) node (List.forall_mem_nil _)
    (fun _ _ hFirst hRest => List.forall_mem_cons.mpr ⟨hFirst, hRest⟩) t

def at? : RoseTree α → List Nat → Option (RoseTree α)
  | t, [] => some t
  | t, i :: p => t.children[i]?.bind fun c => c.at? p

@[simp]
theorem at?_nil : t.at? [] = some t := by
  cases t
  rfl

theorem at?_cons (i : Nat) (p : List Nat) :
    t.at? (i :: p) = t.children[i]?.bind fun c => c.at? p := by
  cases t
  rfl

theorem at?_append (p q : List Nat) : t.at? (p ++ q) = (t.at? p).bind fun c => c.at? q := by
  induction p generalizing t with
  | nil => simp
  | cons i p ih =>
    simp only [List.cons_append, at?_cons, Option.bind_assoc, ih]

theorem at?_concat {t c : RoseTree α} {p : List Nat} (hAt : t.at? p = some c) (i : Nat) :
    t.at? (p ++ [i]) = c.children[i]? := by
  rw [at?_append, hAt, Option.bind_some, at?_cons]
  cases c.children[i]? <;> simp

theorem forall_at?_node {P : RoseTree α → Prop} {label : α} {ts : List (RoseTree α)} :
    (∀ p n, (node label ts).at? p = some n → P n) ↔
      P (node label ts) ∧ ∀ t ∈ ts, ∀ p n, t.at? p = some n → P n := by
  constructor
  · intro h
    refine ⟨h [] _ (at?_nil _), fun t ht p n hn => ?_⟩
    obtain ⟨i, hi⟩ := List.mem_iff_getElem?.mp ht
    apply h (i :: p) n
    rw [at?_cons, children, hi, Option.bind_some, hn]
  · rintro ⟨hNode, hBelow⟩ p n hn
    cases p with
    | nil =>
      rw [at?_nil] at hn
      exact Option.some.inj hn ▸ hNode
    | cons i p =>
      rw [at?_cons] at hn
      obtain ⟨t, ht, hn⟩ := Option.bind_eq_some_iff.mp hn
      exact hBelow t (List.mem_of_getElem? ht) p n hn

def childrenAt : List (RoseTree α) :=
  ((t.at? p).map children).getD []

theorem childrenAt_eq {t c : RoseTree α} {p : List Nat} (hAt : t.at? p = some c) :
    t.childrenAt p = c.children := by
  rw [childrenAt, hAt, Option.map_some, Option.getD_some]

section Fold
variable {β : Type*} (f : α → List β → β)

mutual

/-- The value of a tree from the label and the values of the children of every node. -/
def fold : RoseTree α → β
  | node label ts => f label (foldAll ts)

def foldAll : List (RoseTree α) → List β
  | [] => []
  | t :: ts => fold t :: foldAll ts

end

theorem foldAll_eq_map (ts : List (RoseTree α)) : foldAll f ts = ts.map (fold f) := by
  induction ts with
  | nil => rfl
  | cons t ts ih => rw [foldAll, ih, List.map_cons]

theorem fold_node (label : α) (ts : List (RoseTree α)) :
    fold f (node label ts) = f label (ts.map (fold f)) := by
  rw [fold, foldAll_eq_map]

end Fold

def size : RoseTree α → Nat := fold fun _ sizes => sizes.sum + 1

theorem size_node (label : α) (ts : List (RoseTree α)) :
    size (node label ts) = (ts.map size).sum + 1 := by
  rw [size, fold_node]

mutual

/-- Equality up to the order of the children of every node. -/
def Iso : RoseTree α → RoseTree α → Prop
  | node label ts, t => label = t.label ∧ ∃ order, order.Perm t.children ∧ IsoEach ts order

def IsoEach : List (RoseTree α) → List (RoseTree α) → Prop
  | [], order => order = []
  | t :: ts, order => ∃ u us, order = u :: us ∧ Iso t u ∧ IsoEach ts us

end

theorem isoEach_iff {ts order : List (RoseTree α)} :
    IsoEach ts order ↔ List.Forall₂ Iso ts order := by
  induction ts generalizing order with
  | nil => rw [IsoEach, List.forall₂_nil_left_iff]
  | cons t ts ih =>
    rw [IsoEach, List.forall₂_cons_left_iff]
    simp only [ih]
    constructor
    · rintro ⟨u, us, rfl, hIso, hRest⟩
      exact ⟨u, us, hIso, hRest, rfl⟩
    · rintro ⟨u, us, hIso, hRest, rfl⟩
      exact ⟨u, us, rfl, hIso, hRest⟩

theorem iso_node {label : α} {ts : List (RoseTree α)} {t : RoseTree α} : (node label ts).Iso t ↔
    label = t.label ∧ ∃ order, order.Perm t.children ∧ List.Forall₂ Iso ts order := by
  simp only [Iso, isoEach_iff]

theorem Iso.size_eq {t u : RoseTree α} (h : t.Iso u) : t.size = u.size := by
  induction t using induction generalizing u with
  | node label ts ih =>
    obtain ⟨label', us⟩ := u
    obtain ⟨_, order, hOrder, hEach⟩ := iso_node.mp h
    have hMap : ts.map size = order.map size := by
      clear h hOrder
      induction hEach with
      | nil => rfl
      | cons hHead _ ihs =>
        obtain ⟨hFirst, hRest⟩ := List.forall_mem_cons.mp ih
        rw [List.map_cons, List.map_cons, hFirst hHead, ihs hRest]
    rw [size_node, size_node]
    exact congrArg (· + 1) (hMap ▸ (hOrder.map size).sum_nat)

/-- A child without a counterpart of its size tells trees apart. -/
theorem not_iso_of_size {label : α} {t u : RoseTree α} {ts : List (RoseTree α)}
    (h : ∀ c ∈ u.children, c.size ≠ t.size) : ¬(node label (t :: ts)).Iso u := by
  intro hIso
  obtain ⟨_, order, hOrder, hEach⟩ := iso_node.mp hIso
  cases hEach with
  | @cons _ c _ _ hHead _ =>
    exact h c (hOrder.mem_iff.mp List.mem_cons_self) hHead.size_eq.symm

mutual

/-- The addresses of a tree that stands at the given address, a node before those below it. -/
def preOrder : RoseTree α → List Nat → List (List Nat)
  | node _ children, p => p :: preOrders children p 0

/-- The addresses of the trees below an address, which are numbered from the given child on. -/
def preOrders : List (RoseTree α) → List Nat → Nat → List (List Nat)
  | [], _, _ => []
  | t :: ts, p, i => preOrder t (p ++ [i]) ++ preOrders ts p (i + 1)

end

mutual

def postOrder : RoseTree α → List Nat → List (List Nat)
  | node _ children, p => postOrders children p 0 ++ [p]

def postOrders : List (RoseTree α) → List Nat → Nat → List (List Nat)
  | [], _, _ => []
  | t :: ts, p, i => postOrder t (p ++ [i]) ++ postOrders ts p (i + 1)

end

theorem preOrder_eq : preOrder t p = p :: preOrders t.children p 0 := by
  cases t
  rw [preOrder, children]

theorem postOrder_eq : postOrder t p = postOrders t.children p 0 ++ [p] := by
  cases t
  rw [postOrder, children]

theorem preOrders_drop {ts : List (RoseTree α)} {i : Nat} {t : RoseTree α} (hAt : ts[i]? = some t)
    (p : List Nat) : preOrders (ts.drop i) p i =
      preOrder t (p ++ [i]) ++ preOrders (ts.drop (i + 1)) p (i + 1) := by
  obtain ⟨hLt, rfl⟩ := List.getElem?_eq_some_iff.mp hAt
  rw [List.drop_eq_getElem_cons hLt, preOrders]

theorem postOrders_drop {ts : List (RoseTree α)} {i : Nat} {t : RoseTree α}
    (hAt : ts[i]? = some t) (p : List Nat) : postOrders (ts.drop i) p i =
      postOrder t (p ++ [i]) ++ postOrders (ts.drop (i + 1)) p (i + 1) := by
  obtain ⟨hLt, rfl⟩ := List.getElem?_eq_some_iff.mp hAt
  rw [List.drop_eq_getElem_cons hLt, postOrders]

theorem perm_postOrders {ts : List (RoseTree α)}
    (ih : ∀ t ∈ ts, ∀ p, (postOrder t p).Perm (preOrder t p)) (p : List Nat) (i : Nat) :
    (postOrders ts p i).Perm (preOrders ts p i) := by
  induction ts generalizing i with
  | nil => exact .refl _
  | cons t ts ihs =>
    obtain ⟨hFirst, hRest⟩ := List.forall_mem_cons.mp ih
    rw [postOrders, preOrders]
    exact (hFirst _).append (ihs hRest (i + 1))

theorem perm_postOrder : (postOrder t p).Perm (preOrder t p) := by
  induction t using induction generalizing p with
  | node label ts ih =>
    rw [postOrder, preOrder]
    exact ((perm_postOrders ih p 0).append_right [p]).trans (List.perm_append_singleton _ _)

theorem mem_preOrders {ts : List (RoseTree α)} {p x : List Nat} {i : Nat}
    (ih : ∀ t ∈ ts, ∀ p x, x ∈ preOrder t p ↔ ∃ q, x = p ++ q ∧ (t.at? q).isSome) :
    x ∈ preOrders ts p i ↔
      ∃ j q, x = p ++ (i + j) :: q ∧ (ts[j]?.bind fun t => t.at? q).isSome := by
  induction ts generalizing i with
  | nil => simp [preOrders]
  | cons t ts ihs =>
    obtain ⟨hFirst, hRest⟩ := List.forall_mem_cons.mp ih
    rw [preOrders, List.mem_append, hFirst, ihs hRest]
    constructor
    · rintro (⟨q, rfl, hAt⟩ | ⟨j, q, rfl, hAt⟩)
      · exact ⟨0, q, by simp, by simpa using hAt⟩
      · exact ⟨j + 1, q, by simp [Nat.add_assoc, Nat.add_comm 1], by simpa using hAt⟩
    · rintro ⟨j, q, rfl, hAt⟩
      obtain _ | j := j
      · exact .inl ⟨q, by simp, by simpa using hAt⟩
      · exact .inr ⟨j, q, by simp [Nat.add_assoc, Nat.add_comm 1], by simpa using hAt⟩

theorem mem_preOrder (p x : List Nat) : x ∈ preOrder t p ↔ ∃ q, x = p ++ q ∧ (t.at? q).isSome := by
  induction t using induction generalizing p x with
  | node label ts ih =>
    rw [preOrder, List.mem_cons, mem_preOrders ih]
    constructor
    · rintro (rfl | ⟨j, q, rfl, hAt⟩)
      · exact ⟨[], by simp, by simp⟩
      · exact ⟨j :: q, by simp, by simpa [at?_cons, children] using hAt⟩
    · rintro ⟨q, rfl, hAt⟩
      obtain _ | ⟨j, q⟩ := q
      · exact .inl (List.append_nil p)
      · exact .inr ⟨j, q, by simp, by simpa [at?_cons, children] using hAt⟩

theorem mem_postOrder (p x : List Nat) :
    x ∈ postOrder t p ↔ ∃ q, x = p ++ q ∧ (t.at? q).isSome := by
  rw [(perm_postOrder t p).mem_iff, mem_preOrder]

theorem eq_of_prefix {p q q' : List Nat} {i j : Nat} (h : p ++ i :: q <+: p ++ j :: q') :
    i = j := by
  obtain ⟨rest, hRest⟩ := h
  simp only [List.append_assoc, List.cons_append, List.append_cancel_left_eq,
    List.cons.injEq] at hRest
  exact hRest.1

theorem not_prefix_of_later {ts : List (RoseTree α)} {x y : List Nat} {i : Nat}
    (hx : x ∈ preOrder t (p ++ [i])) (hy : y ∈ preOrders ts p (i + 1)) : ¬x <+: y ∧ ¬y <+: x := by
  obtain ⟨q, rfl, _⟩ := (mem_preOrder t _ x).mp hx
  obtain ⟨j, q', rfl, _⟩ := (mem_preOrders fun t _ => mem_preOrder t).mp hy
  rw [List.append_assoc, List.singleton_append]
  constructor
  · intro hPrefix
    have := eq_of_prefix hPrefix
    omega
  · intro hPrefix
    have := eq_of_prefix hPrefix
    omega

theorem not_prefix_parent {ts : List (RoseTree α)} {y : List Nat} {i : Nat}
    (hy : y ∈ preOrders ts p i) : ¬y <+: p := by
  intro hPrefix
  obtain ⟨j, q, rfl, _⟩ := (mem_preOrders fun t _ => mem_preOrder t).mp hy
  have hLength := hPrefix.length_le
  simp only [List.length_append, List.length_cons] at hLength
  omega

theorem pairwise_preOrder : (preOrder t p).Pairwise fun x y => ¬y <+: x := by
  induction t using induction generalizing p with
  | node label ts ih =>
    have hTrees : ∀ i, (preOrders ts p i).Pairwise fun x y => ¬y <+: x := by
      induction ts with
      | nil => exact fun _ => .nil
      | cons t ts ihs =>
        obtain ⟨hFirst, hRest⟩ := List.forall_mem_cons.mp ih
        intro i
        rw [preOrders, List.pairwise_append]
        exact ⟨hFirst _, ihs hRest _, fun x hx y hy => (not_prefix_of_later t p hx hy).2⟩
    rw [preOrder, List.pairwise_cons]
    exact ⟨fun y hy => not_prefix_parent p hy, hTrees 0⟩

theorem pairwise_postOrder : (postOrder t p).Pairwise fun x y => ¬x <+: y := by
  induction t using induction generalizing p with
  | node label ts ih =>
    have hTrees : ∀ i, (postOrders ts p i).Pairwise fun x y => ¬x <+: y := by
      induction ts with
      | nil => exact fun _ => .nil
      | cons t ts ihs =>
        obtain ⟨hFirst, hRest⟩ := List.forall_mem_cons.mp ih
        intro i
        rw [postOrders, List.pairwise_append]
        refine ⟨hFirst _, ihs hRest _, fun x hx y hy => ?_⟩
        rw [(perm_postOrder t _).mem_iff] at hx
        rw [(perm_postOrders (fun t _ => perm_postOrder t) p (i + 1)).mem_iff] at hy
        exact (not_prefix_of_later t p hx hy).1
    rw [postOrder, List.pairwise_append]
    refine ⟨hTrees 0, List.pairwise_singleton _ _, fun x hx y hy => ?_⟩
    obtain rfl := List.mem_singleton.mp hy
    rw [(perm_postOrders (fun t _ => perm_postOrder t) y 0).mem_iff] at hx
    exact not_prefix_parent y hx

end RoseTree
