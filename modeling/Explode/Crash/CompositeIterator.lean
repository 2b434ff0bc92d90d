import Explode.Lib.RoseTree

/-!
# Iterators over a tree of components

An iterator walks a tree with a stack of positions in the children vectors and a
stack of their ends.
-/

namespace Explode.Crash

open RoseTree

/-- An iterator of the children vector of the component at an address. -/
structure ChildIter where
  owner : List Nat
  idx : Nat
  deriving DecidableEq, Repr

namespace ChildIter

def succ (it : ChildIter) : ChildIter := { it with idx := it.idx + 1 }

def target (it : ChildIter) : List Nat := it.owner ++ [it.idx]

end ChildIter

inductive Order
  | pre
  | post
  deriving DecidableEq, Repr

def Order.addresses {α : Type} : Order → RoseTree α → List Nat → List (List Nat)
  | .pre => preOrder
  | .post => postOrder

/-- `atRoot` is `_M_first` of a pre-order and `_M_last` of a post-order iterator. The root pointer
is the address of the iterator it points into. -/
structure CompositeIterator where
  order : Order
  root : Option (List Nat)
  rootPtr : Nat
  its : List ChildIter
  ends : List ChildIter
  done : Bool
  atRoot : Bool
  deriving DecidableEq, Repr

inductive Storage
  | member (loc : Nat)
  | element (it : ChildIter)
  deriving DecidableEq, Repr

section
variable {α : Type} (c : RoseTree α)

def beginOf (x : List Nat) : ChildIter := ⟨x, 0⟩

def endOf (x : List Nat) : ChildIter := ⟨x, (c.childrenAt x).length⟩

/-- `_M_push_left_most`, for a component and its address. The component bounds the loop. -/
def pushLeftMost : RoseTree α → List Nat → List ChildIter × List ChildIter →
    List ChildIter × List ChildIter
  | .node _ [], _, frames => frames
  | .node _ (t :: ts), x, frames =>
    pushLeftMost t (x ++ [0]) (⟨x, 0⟩ :: frames.1, ⟨x, ts.length + 1⟩ :: frames.2)

/-- The loop of `_M_next`, with the top of the first stack apart. -/
def nextLoop : ChildIter → List ChildIter → List ChildIter → Bool →
    List ChildIter × List ChildIter × Bool
  | top, [], ends, done =>
    if ends.head? = some top then ([], ends.tail, true) else ([top], ends, done)
  | top, it :: its, ends, done =>
    if ends.head? = some top then nextLoop it.succ its ends.tail done
    else (top :: it :: its, ends, done)

namespace CompositeIterator

variable (x : CompositeIterator)

/-- What `_M_done` is depends on what the memory held. -/
def default (order : Order) (loc : Nat) (done : Bool) : CompositeIterator where
  order := order
  root := none
  rootPtr := loc
  its := []
  ends := []
  done := done
  atRoot := order = .pre

def ofRoot (order : Order) (loc : Nat) (root : List Nat) (done : Bool) : Option CompositeIterator :=
  (c.at? root).map fun t =>
    let frames := if order = .pre then ([], []) else pushLeftMost t root ([], [])
    { order, root := some root, rootPtr := loc, its := frames.1, ends := frames.2, done,
      atRoot := frames.1.isEmpty }

def copy (loc : Nat) : CompositeIterator := { x with rootPtr := loc }

def assign (_x y : CompositeIterator) : CompositeIterator := y

def next (top : ChildIter) (its ends : List ChildIter) : CompositeIterator :=
  let r := nextLoop top its ends x.done
  { x with its := r.1, ends := r.2.1, done := r.2.2, atRoot := false }

def preIncrement : Option CompositeIterator :=
  if x.atRoot then x.root.map fun r => x.next (beginOf r) x.its (endOf c r :: x.ends)
  else x.its.head?.bind fun top => (c.at? top.target).map fun _ =>
    x.next (beginOf top.target) x.its (endOf c top.target :: x.ends)

def postIncrement : Option CompositeIterator :=
  if x.atRoot then some { x with atRoot := false, done := true }
  else x.its.head?.bind fun top =>
    if x.ends.head? = some top.succ then
      some { x with its := x.its.tail, ends := x.ends.tail, atRoot := x.its.tail.isEmpty }
    else (c.at? top.succ.target).map fun t =>
      let frames := pushLeftMost t top.succ.target (top.succ :: x.its.tail, x.ends)
      { x with its := frames.1, ends := frames.2 }

def increment : Option CompositeIterator :=
  match x.order with
  | .pre => x.preIncrement c
  | .post => x.postIncrement c

def reference : Option Storage :=
  if x.atRoot then some (.member x.rootPtr) else x.its.head?.map .element

/-- The tops of the stacks are compared only if neither iterator is done. -/
def equal (x y : CompositeIterator) : Option Bool :=
  if x.root = y.root ∧ x.done = y.done then
    if x.done then some true
    else x.its.head?.bind fun a => y.its.head?.map fun b => a = b
  else some false

end CompositeIterator

def Framed (it e : ChildIter) : Prop :=
  e = endOf c it.owner ∧ it.idx < (c.childrenAt it.owner).length

def preAfter : List ChildIter → List (List Nat)
  | [] => []
  | it :: its =>
    preOrders ((c.childrenAt it.owner).drop (it.idx + 1)) it.owner (it.idx + 1) ++ preAfter its

def preRest (it : ChildIter) (its : List ChildIter) : List (List Nat) :=
  preOrders ((c.childrenAt it.owner).drop it.idx) it.owner it.idx ++ preAfter c its

def postRest (root : List Nat) : List ChildIter → List (List Nat)
  | [] => [root]
  | it :: its =>
    it.target :: (postOrders ((c.childrenAt it.owner).drop (it.idx + 1)) it.owner (it.idx + 1) ++
      postRest root its)

inductive Left (root : List Nat) (x : CompositeIterator) : List (List Nat) → Prop
  | first {t : RoseTree α} (hOrder : x.order = .pre) (hDone : x.done = false)
      (hFirst : x.atRoot = true) (hIts : x.its = []) (hEnds : x.ends = [])
      (hAt : c.at? root = some t) : Left root x (t.preOrder root)
  | inPre {it e : ChildIter} {its ends : List ChildIter} (hOrder : x.order = .pre)
      (hDone : x.done = false) (hFirst : x.atRoot = false) (hIts : x.its = it :: its)
      (hEnds : x.ends = e :: ends) (hIt : Framed c it e)
      (hBelow : List.Forall₂ (Framed c) its ends) :
      Left root x (preRest c it its)
  | inPost {it e : ChildIter} {its ends : List ChildIter} (hOrder : x.order = .post)
      (hDone : x.done = false) (hLast : x.atRoot = false) (hIts : x.its = it :: its)
      (hEnds : x.ends = e :: ends) (hIt : Framed c it e)
      (hBelow : List.Forall₂ (Framed c) its ends) :
      Left root x (postRest c root (it :: its))
  | last (hOrder : x.order = .post) (hDone : x.done = false) (hLast : x.atRoot = true)
      (hIts : x.its = []) (hEnds : x.ends = []) : Left root x [root]
  | past (hDone : x.done = true) : Left root x []

variable {c}

theorem Framed.exists_target {it e : ChildIter} (hFramed : Framed c it e) :
    ∃ t, (c.childrenAt it.owner)[it.idx]? = some t ∧ c.at? it.target = some t := by
  obtain ⟨_, hLt⟩ := hFramed
  have hChild := List.getElem?_eq_getElem hLt
  refine ⟨_, hChild, ?_⟩
  cases hOwner : c.at? it.owner with
  | none =>
    rw [childrenAt, hOwner] at hLt
    cases hLt
  | some t =>
    rw [ChildIter.target, at?_concat hOwner, ← childrenAt_eq hOwner, hChild]

theorem preRest_framed {it e : ChildIter} (hFramed : Framed c it e) (its : List ChildIter) :
    preRest c it its = it.target :: preRest c (beginOf it.target) (it :: its) := by
  obtain ⟨t, hChild, hAt⟩ := hFramed.exists_target
  rw [preRest, preRest, preOrders_drop hChild, ← ChildIter.target, preOrder_eq, preAfter,
    beginOf, List.drop_zero, childrenAt_eq hAt]
  simp only [List.cons_append, List.append_assoc]

theorem nextLoop_spec (top : ChildIter) {its ends : List ChildIter}
    (hLe : top.idx ≤ (c.childrenAt top.owner).length) (hFramed : List.Forall₂ (Framed c) its ends) :
    (nextLoop top its (endOf c top.owner :: ends) false = ([], [], true) ∧
        preRest c top its = []) ∨
      ∃ it its' ends', nextLoop top its (endOf c top.owner :: ends) false =
          (it :: its', ends', false) ∧ List.Forall₂ (Framed c) (it :: its') ends' ∧
        preRest c top its = preRest c it its' := by
  -- a position at its end is popped and the one below it moves on
  induction hFramed generalizing top with
  | nil =>
    rw [nextLoop]
    split_ifs with hEnd
    · refine .inl ⟨rfl, ?_⟩
      have hIdx : (c.childrenAt top.owner).length = top.idx :=
        congrArg ChildIter.idx (Option.some.inj hEnd)
      rw [preRest, List.drop_eq_nil_of_le hIdx.le, preOrders, preAfter, List.append_nil]
    · refine .inr ⟨top, [], [endOf c top.owner], rfl, .cons ⟨rfl, ?_⟩ .nil, rfl⟩
      refine lt_of_le_of_ne hLe fun hIdx => hEnd ?_
      rw [List.head?_cons, endOf, ← hIdx]
  | @cons it e its ends hIt hRest ih =>
    rw [nextLoop]
    split_ifs with hEnd
    · have hIdx : (c.childrenAt top.owner).length = top.idx :=
        congrArg ChildIter.idx (Option.some.inj hEnd)
      have hSame : preRest c top (it :: its) = preRest c it.succ its := by
        rw [preRest, List.drop_eq_nil_of_le hIdx.le, preOrders, List.nil_append]
        rfl
      obtain ⟨rfl, hLt⟩ := hIt
      rw [hSame, List.tail_cons]
      exact ih it.succ hLt
    · refine .inr ⟨top, it :: its, _, rfl, .cons ⟨rfl, ?_⟩ (.cons hIt hRest), rfl⟩
      refine lt_of_le_of_ne hLe fun hIdx => hEnd ?_
      rw [List.head?_cons, endOf, ← hIdx]

theorem pushLeftMost_spec (root : List Nat) (t : RoseTree α) {x : List Nat}
    {its ends : List ChildIter} {rest : List (List Nat)} (hAt : c.at? x = some t)
    (hFramed : List.Forall₂ (Framed c) its ends) (hRest : postRest c root its = x :: rest) :
    List.Forall₂ (Framed c) (pushLeftMost t x (its, ends)).1 (pushLeftMost t x (its, ends)).2 ∧
      postRest c root (pushLeftMost t x (its, ends)).1 = t.postOrder x ++ rest := by
  induction t using RoseTree.induction generalizing x its ends rest with
  | node label ts ih =>
    cases ts with
    | nil => exact ⟨hFramed, by rw [pushLeftMost, hRest, postOrder, postOrders]; rfl⟩
    | cons t ts =>
      have hChildren : c.childrenAt x = t :: ts := childrenAt_eq hAt
      have hFirst : c.at? (x ++ [0]) = some t := at?_concat hAt 0
      have hFrame : Framed c ⟨x, 0⟩ ⟨x, ts.length + 1⟩ := by
        rw [Framed, endOf, hChildren]
        exact ⟨rfl, Nat.zero_lt_succ _⟩
      have hPushed : postRest c root (⟨x, 0⟩ :: its) =
          (x ++ [0]) :: (postOrders ts x 1 ++ x :: rest) := by
        rw [postRest, hChildren, hRest]
        rfl
      rw [pushLeftMost]
      obtain ⟨hFramed', hRest'⟩ :=
        ih t List.mem_cons_self hFirst (hFramed.cons hFrame) hPushed
      refine ⟨hFramed', ?_⟩
      rw [hRest', postOrder, postOrders]
      simp only [List.append_assoc, List.cons_append, List.nil_append]

theorem pushLeftMost_ne_nil (t : RoseTree α) (x : List Nat) {its ends : List ChildIter}
    (hIts : its ≠ []) : (pushLeftMost t x (its, ends)).1 ≠ [] := by
  induction t using RoseTree.induction generalizing x its ends with
  | node label ts ih =>
    cases ts with
    | nil => exact hIts
    | cons t ts => exact ih t List.mem_cons_self _ (List.cons_ne_nil _ _)

section
variable {root a : List Nat} {l : List (List Nat)} {x x' : CompositeIterator}

theorem left_post (hOrder : x.order = .post) (hDone : x.done = false)
    (hLast : x.atRoot = x.its.isEmpty) (hFramed : List.Forall₂ (Framed c) x.its x.ends) :
    Left c root x (postRest c root x.its) := by
  generalize hIts : x.its = its at hFramed hLast
  generalize hEnds : x.ends = ends at hFramed
  cases hFramed with
  | nil => exact .last hOrder hDone hLast hIts hEnds
  | cons hIt hBelow => exact .inPost hOrder hDone hLast hIts hEnds hIt hBelow

theorem left_ofRoot {order : Order} {loc : Nat} {t : RoseTree α} (hAt : c.at? root = some t)
    (hRun : CompositeIterator.ofRoot c order loc root false = some x) :
    Left c root x (order.addresses t root) := by
  rw [CompositeIterator.ofRoot, hAt, Option.map_some] at hRun
  obtain rfl := Option.some.inj hRun
  cases order with
  | pre => exact .first rfl rfl rfl rfl rfl hAt
  | post =>
    obtain ⟨hFramed, hRest⟩ := pushLeftMost_spec root t hAt .nil (rfl : postRest c root [] = _)
    rw [List.append_nil] at hRest
    rw [Order.addresses, ← hRest]
    exact left_post rfl rfl rfl hFramed

theorem Left.done_iff (hLeft : Left c root x l) : x.done = true ↔ l = [] := by
  cases hLeft with
  | first _ hDone => simp [hDone, preOrder_eq]
  | inPre _ hDone _ _ _ hIt _ => simp [hDone, preRest_framed hIt]
  | inPost _ hDone => simp [hDone, postRest]
  | last _ hDone => simp [hDone]
  | past hDone => simp [hDone]

theorem Left.current (hLeft : Left c root x (a :: l)) :
    (x.atRoot = true ∧ a = root) ∨
      (x.atRoot = false ∧ ∃ it e, x.its.head? = some it ∧ Framed c it e ∧ it.target = a) := by
  generalize hl : a :: l = l' at hLeft
  cases hLeft with
  | first _ _ hFirst _ _ _ =>
    rw [preOrder_eq] at hl
    exact .inl ⟨hFirst, (List.cons.inj hl).1⟩
  | inPre _ _ hFirst hIts _ hIt _ =>
    rw [preRest_framed hIt] at hl
    exact .inr ⟨hFirst, _, _, by rw [hIts, List.head?_cons], hIt, (List.cons.inj hl).1.symm⟩
  | inPost _ _ hLast hIts _ hIt _ =>
    exact .inr ⟨hLast, _, _, by rw [hIts, List.head?_cons], hIt, (List.cons.inj hl).1.symm⟩
  | last _ _ hLast _ _ => exact .inl ⟨hLast, (List.cons.inj hl).1⟩
  | past _ => cases hl

theorem left_next (hOrder : x.order = .pre) (hDone : x.done = false) (y : List Nat)
    {its ends : List ChildIter} (hFramed : List.Forall₂ (Framed c) its ends) :
    Left c root (x.next (beginOf y) its (endOf c y :: ends)) (preRest c (beginOf y) its) := by
  have hCases := nextLoop_spec (beginOf y) (Nat.zero_le _) hFramed
  change (nextLoop _ _ (endOf c y :: ends) _ = _ ∧ _) ∨ _ at hCases
  unfold CompositeIterator.next
  rw [hDone]
  obtain ⟨hNext, hRest⟩ | ⟨it, its', ends', hNext, hFramed', hRest⟩ := hCases
  · rw [hRest, hNext]
    exact .past rfl
  · change nextLoop _ _ (endOf c y :: ends) _ = _ at hNext
    rw [hRest, hNext]
    cases hFramed' with
    | cons hIt hBelow => exact .inPre hOrder rfl rfl rfl rfl hIt hBelow

theorem Left.preIncrement (hOrder : x.order = .pre) (hRoot : x.root = some root)
    (hLeft : Left c root x (a :: l)) : ∃ x', x.preIncrement c = some x' ∧ Left c root x' l := by
  generalize hl : a :: l = l' at hLeft
  unfold CompositeIterator.preIncrement
  cases hLeft with
  | @first t _ hDone hFirst hIts hEnds hAt =>
    obtain ⟨_, rfl⟩ := List.cons.inj (hl.trans (preOrder_eq t root))
    have hNext : Left c root (x.next (beginOf root) [] [endOf c root])
        (preRest c (beginOf root) []) := left_next hOrder hDone root .nil
    rw [preRest, beginOf, childrenAt_eq hAt, List.drop_zero, preAfter, List.append_nil] at hNext
    rw [if_pos hFirst, hRoot, hIts, hEnds]
    exact ⟨_, rfl, hNext⟩
  | @inPre it _ its _ _ hDone hFirst hIts hEnds hIt hBelow =>
    obtain ⟨_, rfl⟩ := List.cons.inj (hl.trans (preRest_framed hIt its))
    obtain ⟨t, _, hAt⟩ := hIt.exists_target
    rw [if_neg (by simp [hFirst]), hIts, hEnds, List.head?_cons, Option.bind_some, hAt]
    exact ⟨_, rfl, left_next hOrder hDone _ (.cons hIt hBelow)⟩
  | inPost hPost => cases hOrder.symm.trans hPost
  | last hPost => cases hOrder.symm.trans hPost
  | past _ => cases hl

theorem Left.postIncrement (hOrder : x.order = .post) (hLeft : Left c root x (a :: l)) :
    ∃ x', x.postIncrement c = some x' ∧ Left c root x' l := by
  generalize hl : a :: l = l' at hLeft
  unfold CompositeIterator.postIncrement
  cases hLeft with
  | first hPre => cases hOrder.symm.trans hPre
  | inPre hPre => cases hOrder.symm.trans hPre
  | @inPost it e its ends _ hDone hLast hIts hEnds hIt hBelow =>
    obtain ⟨_, rfl⟩ := List.cons.inj hl
    obtain ⟨rfl, hLt⟩ := hIt
    rw [if_neg (by simp [hLast]), hIts, hEnds, List.head?_cons, List.head?_cons, Option.bind_some]
    split_ifs with hEnd
    · have hIdx : (c.childrenAt it.owner).length = it.idx + 1 :=
        congrArg ChildIter.idx (Option.some.inj hEnd)
      refine ⟨_, rfl, ?_⟩
      rw [List.drop_eq_nil_of_le hIdx.le, postOrders, List.nil_append]
      exact left_post hOrder hDone rfl hBelow
    · have hNext : it.idx + 1 < (c.childrenAt it.owner).length := by
        refine lt_of_le_of_ne hLt fun hIdx => hEnd ?_
        rw [endOf, ← hIdx]
        rfl
      have hFrame : Framed c it.succ (endOf c it.owner) := ⟨rfl, hNext⟩
      obtain ⟨t, hChild, hAt⟩ := hFrame.exists_target
      obtain ⟨hFramed, hRest⟩ := pushLeftMost_spec root t hAt (.cons hFrame hBelow)
        (rfl : postRest c root (it.succ :: its) = _)
      have hNonempty : (pushLeftMost t it.succ.target
          (it.succ :: its, endOf c it.owner :: ends)).1 ≠ [] :=
        pushLeftMost_ne_nil t _ (List.cons_ne_nil _ _)
      have hSame : postOrders ((c.childrenAt it.owner).drop (it.idx + 1)) it.owner (it.idx + 1) ++
          postRest c root its = postRest c root (pushLeftMost t it.succ.target
            (it.succ :: its, endOf c it.owner :: ends)).1 := by
        have hSplit := postOrders_drop hChild it.owner
        change postOrders ((c.childrenAt it.owner).drop (it.idx + 1)) it.owner (it.idx + 1) =
          t.postOrder it.succ.target ++ _ at hSplit
        rw [hRest, hSplit, List.append_assoc]
        rfl
      rw [hAt, hSame]
      refine ⟨_, rfl, left_post hOrder hDone ?_ hFramed⟩
      rw [hLast]
      simpa [List.isEmpty_iff] using hNonempty
  | last _ _ hLast _ _ =>
    obtain ⟨_, rfl⟩ := List.cons.inj hl
    rw [if_pos hLast]
    exact ⟨_, rfl, .past rfl⟩
  | past _ => cases hl

theorem Left.increment (hRoot : x.root = some root) (hLeft : Left c root x (a :: l)) :
    ∃ x', x.increment c = some x' ∧ Left c root x' l := by
  unfold CompositeIterator.increment
  cases hOrder : x.order with
  | pre => exact hLeft.preIncrement hOrder hRoot
  | post => exact hLeft.postIncrement hOrder

end

theorem nextLoop_done (top : ChildIter) (its ends : List ChildIter) :
    (nextLoop top its ends true).2.2 = true := by
  induction its generalizing top ends with
  | nil =>
    rw [nextLoop]
    split_ifs <;> rfl
  | cons it its ih =>
    rw [nextLoop]
    split_ifs
    · exact ih _ _
    · rfl

theorem increment_keeps {x x' : CompositeIterator} (hStep : x.increment c = some x') :
    x'.root = x.root ∧ x'.rootPtr = x.rootPtr ∧ (x.done = true → x'.done = true) := by
  have hNext : ∀ top its ends, x.done = true → (x.next top its ends).done = true := by
    intro top its ends hDone
    rw [CompositeIterator.next, hDone]
    exact nextLoop_done top its ends
  rw [CompositeIterator.increment] at hStep
  cases hOrder : x.order with
  | pre =>
    simp only [hOrder, CompositeIterator.preIncrement] at hStep
    split_ifs at hStep
    · obtain ⟨r, _, rfl⟩ := Option.map_eq_some_iff.mp hStep
      exact ⟨rfl, rfl, hNext _ _ _⟩
    · obtain ⟨top, _, hTop⟩ := Option.bind_eq_some_iff.mp hStep
      obtain ⟨t, _, rfl⟩ := Option.map_eq_some_iff.mp hTop
      exact ⟨rfl, rfl, hNext _ _ _⟩
  | post =>
    simp only [hOrder, CompositeIterator.postIncrement] at hStep
    split_ifs at hStep
    · obtain rfl := Option.some.inj hStep
      exact ⟨rfl, rfl, fun _ => rfl⟩
    · obtain ⟨top, _, hTop⟩ := Option.bind_eq_some_iff.mp hStep
      split_ifs at hTop
      · obtain rfl := Option.some.inj hTop
        exact ⟨rfl, rfl, id⟩
      · obtain ⟨t, _, rfl⟩ := Option.map_eq_some_iff.mp hTop
        exact ⟨rfl, rfl, id⟩

end

end Explode.Crash
