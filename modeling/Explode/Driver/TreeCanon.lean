import Explode.Lib.RoseTree
import Mathlib.Data.UInt
import Mathlib.Order.Basic
import Mathlib.Data.List.Lex

/-!
# Canonical forms of labelled trees

A node's children are sorted by the length and the bytes of their own forms.
Its form is then a breadth-first listing of the labels: a separator follows the
root and follows the children of each node that has any, and an end mark closes
the listing.
-/

namespace Explode.Driver

def maxLabel : Nat := 5

def maxForm : Nat := 4096

abbrev Label := Vector UInt8 maxLabel

abbrev Form := List UInt8

def formSeparator : UInt8 := 36

def formEnd : UInt8 := 35

abbrev NodeT := RoseTree Label

def ltnode (n₁ n₂ : NodeT × Form) : Bool :=
  n₁.2.length < n₂.2.length || (n₁.2.length == n₂.2.length && decide (n₁.2 < n₂.2))

/-- The loop of `canon_form_inter`. The queue holds nodes and null pointers. Each pass writes to a
buffer of `MAX_FORM` bytes, which bounds the number of passes. -/
def listNodes : Nat → List (Option NodeT) → Form → Option Form
  | 0, _, _ => none
  | _ + 1, [], buf => some buf
  | passes + 1, none :: q, buf =>
    if buf.length < maxForm then listNodes passes q (buf ++ [formSeparator]) else none
  | passes + 1, some cur :: q, buf =>
    if buf.length + maxLabel < maxForm then
      listNodes passes (q ++ (cur.children.map some ++ if cur.children.isEmpty then [] else [none]))
        (buf ++ cur.label.toList)
    else none

section
variable (sort : List (NodeT × Form) → List (NodeT × Form))

mutual

/-- The node with its children in canonical order, and its form. An assertion that fails gives
`none`. -/
def canonFormInter : NodeT → Option (NodeT × Form)
  | .node label children => do
    let forms ← canonicalize children
    let n := .node label ((sort forms).map Prod.fst)
    let buf ← listNodes (maxForm + 1) [some n, none] []
    if buf.length < maxForm then some (n, buf ++ [formEnd]) else none

def canonicalize : List NodeT → Option (List (NodeT × Form))
  | [] => some []
  | c :: rest => do
    let form ← canonFormInter c
    let forms ← canonicalize rest
    some (form :: forms)

end

def canonForm (root : NodeT) : Option Form := (canonFormInter sort root).map Prod.snd

end

/-- What `std::sort` promises. Nodes with equal forms may come in any order. -/
def Sorts (sort : List (NodeT × Form) → List (NodeT × Form)) : Prop :=
  ∀ forms, (sort forms).Perm forms ∧ (sort forms).Pairwise fun a b => ltnode b a = false

/-- The bytes of a listing without its first separator: a label for each node, and a separator for
each one with children. -/
def weight : NodeT → Nat :=
  RoseTree.fold fun _ weights => maxLabel + (if weights = [] then 0 else 1) + weights.sum

def formLen (t : NodeT) : Nat := weight t + 2

end Explode.Driver
