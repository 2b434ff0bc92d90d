import Mathlib.Tactic
import Explode.Driver.TreeCanon

/-!
# The breadth-first listing

The queue of the listing is cut into groups, the children of one node each. A
level is written group by group, and the groups of the next level come from the
nodes with children.
-/

namespace Explode.Driver

open RoseTree

def Legible (inner : Label → Prop) (n : NodeT) : Prop :=
  n.label.toList.head? ≠ some formSeparator ∧ (n.children ≠ [] ↔ inner n.label)

def AllLegible (inner : Label → Prop) (t : NodeT) : Prop :=
  ∀ p n, t.at? p = some n → Legible inner n

theorem allLegible_node {inner : Label → Prop} {label : Label} {cs : List NodeT} :
    AllLegible inner (.node label cs) ↔
      Legible inner (.node label cs) ∧ ∀ c ∈ cs, AllLegible inner c :=
  forall_at?_node

theorem AllLegible.self {inner : Label → Prop} {t : NodeT} (h : AllLegible inner t) :
    Legible inner t := h [] t (at?_nil t)

theorem AllLegible.children {inner : Label → Prop} {t : NodeT} (h : AllLegible inner t) :
    ∀ c ∈ t.children, AllLegible inner c := by
  rw [← node_eta t] at h
  exact (allLegible_node.mp h).2

def queueOf (groups : List (List NodeT)) : List (Option NodeT) :=
  groups.flatMap fun g => g.map some ++ [none]

def nextGroups (ns : List NodeT) : List (List NodeT) :=
  (ns.map children).filter fun cs => !cs.isEmpty

theorem nextGroups_cons (n : NodeT) (ns : List NodeT) : nextGroups (n :: ns) =
    if n.children = [] then nextGroups ns else n.children :: nextGroups ns := by
  cases hKids : n.children <;> simp [nextGroups, hKids]

def levelBytes (groups : List (List NodeT)) : Form :=
  groups.flatMap fun g => g.flatMap (fun n => n.label.toList) ++ [formSeparator]

section
variable {passes passes' : Nat} {q q' : List (Option NodeT)} {buf out out' : Form}
  {groups groups' : List (List NodeT)}

theorem listNodes_nodes {ns : List NodeT}
    (h : listNodes passes (ns.map some ++ none :: q) buf = some out) :
    ∃ passes' < passes, listNodes passes' (q ++ queueOf (nextGroups ns))
      (buf ++ ns.flatMap (fun n => n.label.toList) ++ [formSeparator]) = some out := by
  induction ns generalizing passes q buf with
  | nil =>
    cases passes with
    | zero => cases h
    | succ passes =>
      simp only [List.map_nil, List.nil_append, listNodes] at h
      split at h
      case isTrue =>
        refine ⟨passes, Nat.lt_succ_self passes, ?_⟩
        simpa [nextGroups, queueOf] using h
      case isFalse => cases h
  | cons n ns ih =>
    cases passes with
    | zero => cases h
    | succ passes =>
      simp only [List.map_cons, List.cons_append, listNodes] at h
      split at h
      case isTrue =>
        rw [List.append_assoc, List.cons_append] at h
        obtain ⟨passes', hLt, hRest⟩ := ih h
        refine ⟨passes', by omega, ?_⟩
        rw [nextGroups_cons]
        cases hKids : n.children with
        | nil => simpa [hKids] using hRest
        | cons c cs => simpa [hKids, queueOf] using hRest
      case isFalse => cases h

theorem nextGroups_append (ns ns' : List NodeT) :
    nextGroups (ns ++ ns') = nextGroups ns ++ nextGroups ns' := by
  rw [nextGroups, List.map_append, List.filter_append]
  rfl

theorem queueOf_append (groups groups' : List (List NodeT)) :
    queueOf (groups ++ groups') = queueOf groups ++ queueOf groups' := List.flatMap_append

theorem listNodes_groups (h : listNodes passes (queueOf groups ++ q) buf = some out) :
    ∃ passes', passes' + groups.length ≤ passes ∧
      listNodes passes' (q ++ queueOf (nextGroups groups.flatten))
        (buf ++ levelBytes groups) = some out := by
  induction groups generalizing passes q buf with
  | nil => exact ⟨passes, le_rfl, by simpa [queueOf, nextGroups, levelBytes] using h⟩
  | cons g groups ih =>
    have hQueue : queueOf (g :: groups) ++ q = g.map some ++ none :: (queueOf groups ++ q) := by
      simp [queueOf]
    rw [hQueue] at h
    obtain ⟨passes₁, hLt, hGroup⟩ := listNodes_nodes h
    rw [List.append_assoc] at hGroup
    obtain ⟨passes₂, hLe, hRest⟩ := ih hGroup
    refine ⟨passes₂, by rw [List.length_cons]; omega, ?_⟩
    rw [List.flatten_cons, nextGroups_append, queueOf_append]
    simpa [levelBytes] using hRest

theorem listNodes_level (hSome : groups ≠ [])
    (h : listNodes passes (queueOf groups) buf = some out) :
    ∃ passes' < passes, listNodes passes' (queueOf (nextGroups groups.flatten))
      (buf ++ levelBytes groups) = some out := by
  rw [← List.append_nil (queueOf groups)] at h
  obtain ⟨passes', hLe, hNext⟩ := listNodes_groups h
  have hLength := List.length_pos_iff.mpr hSome
  exact ⟨passes', by omega, hNext⟩

theorem listNodes_extends (h : listNodes passes q buf = some out) : ∃ more, out = buf ++ more := by
  induction passes generalizing q buf with
  | zero => cases h
  | succ passes ih =>
    cases q with
    | nil =>
      cases h
      exact ⟨[], (List.append_nil _).symm⟩
    | cons cur q =>
      cases cur with
      | none =>
        simp only [listNodes] at h
        split at h
        case isTrue =>
          obtain ⟨more, rfl⟩ := ih h
          exact ⟨_, List.append_assoc buf _ more⟩
        case isFalse => cases h
      | some cur =>
        simp only [listNodes] at h
        split at h
        case isTrue =>
          obtain ⟨more, rfl⟩ := ih h
          exact ⟨_, List.append_assoc buf _ more⟩
        case isFalse => cases h

/-- The bytes of the levels of a tree, from the groups of one level on. -/
def listing : Nat → List (List NodeT) → Form
  | 0, _ => []
  | levels + 1, groups => levelBytes groups ++ listing levels (nextGroups groups.flatten)

theorem listing_nil (levels : Nat) : listing levels [] = [] := by
  induction levels with
  | zero => rfl
  | succ levels ih => exact ih

theorem listNodes_listing {levels : Nat}
    (hEnd : (fun groups => nextGroups groups.flatten)^[levels] groups = [])
    (h : listNodes passes (queueOf groups) buf = some out) :
    out = buf ++ listing levels groups := by
  induction levels generalizing passes groups buf with
  | zero =>
    obtain rfl : groups = [] := hEnd
    cases passes with
    | zero => cases h
    | succ passes =>
      cases h
      exact (List.append_nil _).symm
  | succ levels ih =>
    by_cases hNone : groups = []
    · subst hNone
      cases passes with
      | zero => cases h
      | succ passes =>
        cases h
        rw [listing_nil, List.append_nil]
    · obtain ⟨passes', _, hNext⟩ := listNodes_level hNone h
      rw [ih hEnd hNext, listing, List.append_assoc]

end

section
variable {inner : Label → Prop} {ns ns' : List NodeT} {groups groups' : List (List NodeT)}
  {more more' : Form}

theorem labelBytes_ne (n : NodeT) (h : Legible inner n) (rest : Form) :
    n.label.toList ++ rest ≠ formSeparator :: more := by
  intro hEq
  apply h.1
  have hHead := congrArg List.head? hEq
  have hLength : n.label.toList.length = maxLabel := Vector.length_toList
  cases hBytes : n.label.toList with
  | nil =>
    rw [hBytes] at hLength
    cases hLength
  | cons b bs =>
    rw [hBytes] at hHead
    exact hHead

theorem labels_of_bytes (hLegible : ∀ n ∈ ns, Legible inner n)
    (hLegible' : ∀ n ∈ ns', Legible inner n)
    (h : ns.flatMap (fun n => n.label.toList) ++ formSeparator :: more =
      ns'.flatMap (fun n => n.label.toList) ++ formSeparator :: more') :
    ns.map label = ns'.map label ∧ more = more' := by
  induction ns generalizing ns' with
  | nil =>
    cases ns' with
    | nil =>
      cases h
      exact ⟨rfl, rfl⟩
    | cons n' ns' =>
      rw [List.flatMap_cons, List.append_assoc] at h
      exact absurd h.symm (labelBytes_ne n' (hLegible' n' List.mem_cons_self) _)
  | cons n ns ih =>
    cases ns' with
    | nil =>
      rw [List.flatMap_cons, List.append_assoc] at h
      exact absurd h (labelBytes_ne n (hLegible n List.mem_cons_self) _)
    | cons n' ns' =>
      rw [List.flatMap_cons, List.flatMap_cons, List.append_assoc, List.append_assoc] at h
      have hLength : n.label.toList.length = n'.label.toList.length := by
        rw [Vector.length_toList, Vector.length_toList]
      obtain ⟨hLabel, hRest⟩ := List.append_inj h hLength
      obtain ⟨hLabels, hMore⟩ := ih (fun m hm => hLegible m (List.mem_cons_of_mem n hm))
        (fun m hm => hLegible' m (List.mem_cons_of_mem n' hm)) hRest
      have hEq : n.label = n'.label := Vector.toList_inj.mp hLabel
      rw [List.map_cons, List.map_cons, hEq, hLabels]
      exact ⟨rfl, hMore⟩

theorem labels_of_levelBytes (hLegible : ∀ g ∈ groups, ∀ n ∈ g, Legible inner n)
    (hLegible' : ∀ g ∈ groups', ∀ n ∈ g, Legible inner n) (hLength : groups.length = groups'.length)
    (h : levelBytes groups ++ more = levelBytes groups' ++ more') :
    groups.map (List.map label) = groups'.map (List.map label) ∧ more = more' := by
  induction groups generalizing groups' with
  | nil =>
    cases groups' with
    | nil => exact ⟨rfl, h⟩
    | cons g' groups' => cases hLength
  | cons g groups ih =>
    cases groups' with
    | nil => cases hLength
    | cons g' groups' =>
      simp only [levelBytes, List.flatMap_cons, List.append_assoc, List.singleton_append] at h
      obtain ⟨hLabels, hRest⟩ := labels_of_bytes (hLegible g List.mem_cons_self)
        (hLegible' g' List.mem_cons_self) h
      obtain ⟨hMore, hEq⟩ := ih (fun k hk => hLegible k (List.mem_cons_of_mem g hk))
        (fun k hk => hLegible' k (List.mem_cons_of_mem g' hk)) (Nat.succ.inj hLength) hRest
      rw [List.map_cons, List.map_cons, hLabels, hMore]
      exact ⟨rfl, hEq⟩

theorem eq_of_nextGroups (hLegible : ∀ n ∈ ns, Legible inner n)
    (hLegible' : ∀ n ∈ ns', Legible inner n) (hLabels : ns.map label = ns'.map label) :
    (nextGroups ns).length = (nextGroups ns').length ∧
      (nextGroups ns = nextGroups ns' → ns = ns') := by
  induction ns generalizing ns' with
  | nil =>
    cases ns' with
    | nil => exact ⟨rfl, fun _ => rfl⟩
    | cons => cases hLabels
  | cons n ns ih =>
    cases ns' with
    | nil => cases hLabels
    | cons n' ns' =>
      obtain ⟨hLabel, hRest⟩ := List.cons.inj hLabels
      obtain ⟨hLength, hEq⟩ := ih (fun m hm => hLegible m (List.mem_cons_of_mem n hm))
        (fun m hm => hLegible' m (List.mem_cons_of_mem n' hm)) hRest
      have hKind : n.children ≠ [] ↔ n'.children ≠ [] := by
        rw [(hLegible n List.mem_cons_self).2, (hLegible' n' List.mem_cons_self).2]
        exact iff_of_eq (congrArg inner hLabel)
      rw [nextGroups_cons, nextGroups_cons]
      by_cases hKids : n.children = []
      · have hKids' : n'.children = [] := not_not.mp (mt hKind.mpr (not_not.mpr hKids))
        rw [if_pos hKids, if_pos hKids']
        refine ⟨hLength, fun hGroups => ?_⟩
        rw [← node_eta n, ← node_eta n', hLabel, hKids, hKids', hEq hGroups]
      · rw [if_neg hKids, if_neg (hKind.mp hKids)]
        refine ⟨congrArg Nat.succ hLength, fun hGroups => ?_⟩
        obtain ⟨hChildren, hGroups⟩ := List.cons.inj hGroups
        rw [← node_eta n, ← node_eta n', hLabel, hChildren, hEq hGroups]

theorem allLegible_flatten (h : ∀ g ∈ groups, ∀ t ∈ g, AllLegible inner t) :
    ∀ t ∈ groups.flatten, Legible inner t := by
  intro t ht
  obtain ⟨g, hg, ht⟩ := List.mem_flatten.mp ht
  exact (h g hg t ht).self

theorem allLegible_nextGroups (h : ∀ g ∈ groups, ∀ t ∈ g, AllLegible inner t) :
    ∀ g ∈ nextGroups groups.flatten, ∀ t ∈ g, AllLegible inner t := by
  intro g hg t ht
  obtain ⟨n, hn, rfl⟩ := List.mem_map.mp (List.mem_filter.mp hg).1
  obtain ⟨k, hk, hn⟩ := List.mem_flatten.mp hn
  exact (h k hk n hn).children t ht

end

theorem listNodes_injective {inner : Label → Prop} {passes passes' : Nat}
    {groups groups' : List (List NodeT)} {buf out : Form}
    (hLegible : ∀ g ∈ groups, ∀ t ∈ g, AllLegible inner t)
    (hLegible' : ∀ g ∈ groups', ∀ t ∈ g, AllLegible inner t)
    (hLength : groups.length = groups'.length)
    (h : listNodes passes (queueOf groups) buf = some out)
    (h' : listNodes passes' (queueOf groups') buf = some out) : groups = groups' := by
  induction passes using Nat.strong_induction_on generalizing passes' groups groups' buf with
  | _ passes ih =>
    cases groups with
    | nil => exact (List.eq_nil_of_length_eq_zero hLength.symm).symm
    | cons g rest =>
      cases groups' with
      | nil => cases hLength
      | cons g' rest' =>
        obtain ⟨passes₁, hLt, hNext⟩ := listNodes_level (List.cons_ne_nil g rest) h
        obtain ⟨passes₂, _, hNext'⟩ := listNodes_level (List.cons_ne_nil g' rest') h'
        generalize g :: rest = groups at *
        generalize g' :: rest' = groups' at *
        obtain ⟨more, hMore⟩ := listNodes_extends hNext
        obtain ⟨more', hMore'⟩ := listNodes_extends hNext'
        have hBytes : levelBytes groups ++ more = levelBytes groups' ++ more' := by
          rw [← List.append_cancel_left_eq buf, ← List.append_assoc, ← List.append_assoc, ← hMore,
            ← hMore']
        obtain ⟨hLabels, rfl⟩ := labels_of_levelBytes (fun k hk n hn => (hLegible k hk n hn).self)
          (fun k hk n hn => (hLegible' k hk n hn).self) hLength hBytes
        rw [← List.append_cancel_right hBytes] at hNext'
        obtain ⟨hCount, hEq⟩ := eq_of_nextGroups (allLegible_flatten hLegible)
          (allLegible_flatten hLegible') (by rw [List.map_flatten, List.map_flatten, hLabels])
        have hNextEq := ih passes₁ hLt (allLegible_nextGroups hLegible)
          (allLegible_nextGroups hLegible') hCount hNext hNext'
        have hLengths := congrArg (List.map List.length) hLabels
        simp only [List.map_map, Function.comp_def, List.length_map] at hLengths
        exact List.eq_iff_flatten_eq.mpr ⟨hEq hNextEq, hLengths⟩

end Explode.Driver
