import Explode.Crash.IteratorLifetime

/-!
# Loops over the components of a storage stack

The loops assign the iterator of the first component, a temporary, to an
iterator of their own. At the root they therefore read what the storage of the
dead temporary holds.
-/

namespace Explode.Crash

open RoseTree

/-- A component, `_in_kern`, and the components below it. -/
abbrev Component := RoseTree Bool

inductive Method
  | init
  | mount
  | umount
  | recover
  | threads
  deriving DecidableEq, Repr

inductive Side
  | user
  | kern
  deriving DecidableEq, Repr

def Side.has : Side → Component → Bool
  | .user, t => !t.label
  | .kern, t => t.label

structure Handled where
  stale : Nat
  calls : List (Method × List Nat)
  deriving DecidableEq, Repr

section
variable (c : Component) (dead : Nat → Option (List Nat))

/-- `*it` for the iterator at address 0, with the component it points to. What dead storage holds
is given for each time it is read. -/
def dereference (w : Iterators) (stale : Nat) : Option (List Nat × Component × Nat) :=
  (w 0).bind fun x => x.reference.bind fun
    | .element it => (c.at? it.target).map fun t => (it.target, t, stale)
    | .member loc =>
      match w loc with
      | some y => y.root.bind fun p => (c.at? p).map fun t => (p, t, stale)
      | none => (dead stale).bind fun p => (c.at? p).map fun t => (p, t, stale + 1)

def callAll (deref : Nat → Option (List Nat × Component × Nat)) :
    List Method → Handled → Option Handled
  | [], h => some h
  | m :: ms, h => (deref h.stale).bind fun r => callAll deref ms ⟨r.2.2, h.calls ++ [(m, r.1)]⟩

def handle (deref : Nat → Option (List Nat × Component × Nat)) (side : Option Side)
    (methods : List Method) (h : Handled) : Option Handled :=
  match side with
  | none => callAll deref methods h
  | some side => (deref h.stale).bind fun r =>
    if side.has r.2.1 then callAll deref methods { h with stale := r.2.2 }
    else some { h with stale := r.2.2 }

def passes (order : Order) (side : Option Side) (methods : List Method) :
    Nat → Iterators → Handled → Option Handled
  | 0, _, _ => none
  | fuel + 1, w, h =>
    (w.step c (.ofRoot 2 order [] true)).bind fun w₁ =>
    ((w₁ 0).bind fun x => (w₁ 2).bind fun y => x.equal y).bind fun same =>
    (w₁.step c (.destroy 2)).bind fun w₂ =>
    if same then some h
    else (handle (dereference c dead w₂) side methods h).bind fun h' =>
      (w₂.step c (.increment 0)).bind fun w₃ => passes order side methods fuel w₃ h'

def forAll (order : Order) (side : Option Side) (methods : List Method) (fuel : Nat) :
    Option (List (Method × List Nat)) :=
  (Iterators.run c [.default 0 order false, .ofRoot 1 order [] false, .assign 0 1,
      .destroy 1]).bind fun w =>
    (passes c dead order side methods fuel w ⟨0, []⟩).map Handled.calls

def initAll := forAll c dead .post none [.init, .mount]

def mountAll := forAll c dead .post none [.mount]

def umountAll := forAll c dead .pre none [.umount]

def recoverAll := forAll c dead .post none [.recover, .mount]

def threadsAll := forAll c dead .post none [.threads]

def mountUser := forAll c dead .post (some .user) [.mount]

def umountUser := forAll c dead .pre (some .user) [.umount]

def recoverUser := forAll c dead .post (some .user) [.recover, .mount]

def mountKern := forAll c dead .post (some .kern) [.mount]

def umountKern := forAll c dead .pre (some .kern) [.umount]

def recoverKern := forAll c dead .post (some .kern) [.recover, .mount]

def matching (side : Option Side) (p : List Nat) : Bool :=
  match side with
  | none => true
  | some side => ((c.at? p).map side.has).getD false

def inOrder (order : Order) (side : Option Side) (methods : List Method) :
    List (Method × List Nat) :=
  ((order.addresses c []).filter (matching c side)).flatMap fun p => methods.map fun m => (m, p)

/-- For the test, the dead temporary holds a component of the same kind as the root, and for the
calls it holds the root. -/
def HoldsRoot (side : Option Side) (methods : List Method) : Prop :=
  match side with
  | none => ∀ i < methods.length, dead i = some []
  | some side => (∃ p t, dead 0 = some p ∧ c.at? p = some t ∧ side.has t = side.has c) ∧
    (side.has c = true → ∀ i < methods.length, dead (i + 1) = some [])

def look (a : List Nat) (stale : Nat) : Option (List Nat × Component × Nat) :=
  if a = [] then (dead stale).bind fun p => (c.at? p).map fun t => (p, t, stale + 1)
  else (c.at? a).map fun t => (a, t, stale)

end

def alone (x : CompositeIterator) : Iterators := Function.update (fun _ => none) 0 (some x)

section
variable {c : Component} {dead : Nat → Option (List Nat)} {order : Order} {side : Option Side}
  {methods : List Method} {x : CompositeIterator}

theorem dereference_alone {a : List Nat} {l : List (List Nat)} (hLeft : Left c [] x (a :: l))
    (hPtr : x.rootPtr = 1) : dereference c dead (alone x) = look c dead a := by
  funext stale
  have hIt : alone x 0 = some x := rfl
  unfold dereference look
  rw [hIt, Option.bind_some, CompositeIterator.reference]
  obtain ⟨hAtRoot, rfl⟩ | ⟨hAtRoot, it, e, hTop, _, rfl⟩ := hLeft.current
  · rw [if_pos hAtRoot, if_pos rfl, hPtr]
    rfl
  · rw [if_neg (by simp [hAtRoot]), if_neg (by simp [ChildIter.target]), hTop]
    rfl

theorem alone_ofRoot (c : Component) (order : Order) {loc : Nat} (hLoc : loc ≠ 0) (done : Bool)
    (x : CompositeIterator) :
    ∃ y, CompositeIterator.ofRoot c order loc [] done = some y ∧ y.order = order ∧
      y.root = some [] ∧ y.rootPtr = loc ∧ y.done = done ∧
      (alone x).step c (.ofRoot loc order [] done) =
        some (Function.update (alone x) loc (some y)) := by
  have hFree : alone x loc = none := Function.update_of_ne hLoc _ _
  rw [Iterators.step, Iterators.create, if_pos hFree, CompositeIterator.ofRoot, at?_nil]
  exact ⟨_, rfl, rfl, rfl, rfl, rfl, rfl⟩

theorem alone_destroy (c : Component) {loc : Nat} (hLoc : loc ≠ 0) (x y : CompositeIterator) :
    Iterators.step c (Function.update (alone x) loc (some y)) (.destroy loc) = some (alone x) := by
  have hFree : alone x loc = none := Function.update_of_ne hLoc _ _
  rw [Iterators.step, Function.update_self, Option.map_some, Function.update_idem, ← hFree,
    Function.update_eq_self]

theorem passes_alone (hRoot : x.root = some []) (fuel : Nat) (h : Handled) :
    passes c dead order side methods (fuel + 1) (alone x) h =
      if x.done then some h
      else (handle (dereference c dead (alone x)) side methods h).bind fun h' =>
        (x.increment c).bind fun x' => passes c dead order side methods fuel (alone x') h' := by
  obtain ⟨y, _, _, hEndRoot, _, hEndDone, hEnd⟩ := alone_ofRoot c order (by decide : 2 ≠ 0) true x
  have hEqual : x.equal y = some x.done := by
    rw [CompositeIterator.equal, hRoot, hEndRoot, hEndDone]
    cases x.done <;> simp
  have hNext : (alone x).step c (.increment 0) = (x.increment c).map alone := by
    have hIt : alone x 0 = some x := rfl
    rw [Iterators.step, hIt, Option.bind_some]
    refine congrArg (fun f => (x.increment c).map f) (funext fun x' => ?_)
    rw [alone, Function.update_idem, alone]
  rw [passes, hEnd, Option.bind_some]
  change ((some x).bind fun x => (some y).bind fun y => x.equal y).bind _ = _
  rw [Option.bind_some, Option.bind_some, hEqual, Option.bind_some,
    alone_destroy c (by decide) x y, Option.bind_some, hNext]
  refine congrArg _ (congrArg _ (funext fun h' => ?_))
  rw [Option.bind_map]
  rfl

theorem passes_eq {l : List (List Nat)} (hLeft : Left c [] x l) (hRoot : x.root = some [])
    (hPtr : x.rootPtr = 1) {fuel : Nat} (hFuel : l.length < fuel) (h : Handled) :
    passes c dead order side methods fuel (alone x) h =
      l.foldlM (fun h a => handle (look c dead a) side methods h) h := by
  induction l generalizing x fuel h with
  | nil =>
    obtain ⟨fuel, rfl⟩ := Nat.exists_eq_succ_of_ne_zero (Nat.ne_of_gt hFuel)
    rw [passes_alone hRoot, if_pos (hLeft.done_iff.mpr rfl)]
    rfl
  | cons a l ih =>
    obtain ⟨fuel, rfl⟩ := Nat.exists_eq_succ_of_ne_zero (Nat.ne_of_gt (Nat.zero_lt_of_lt hFuel))
    obtain ⟨x', hStep, hLeft'⟩ := hLeft.increment hRoot
    obtain ⟨hRoot', hPtr', _⟩ := increment_keeps hStep
    have hGoes : ¬x.done = true := by simp [hLeft.done_iff]
    rw [passes_alone hRoot, if_neg hGoes, dereference_alone hLeft hPtr, hStep, List.foldlM_cons]
    refine congrArg _ (funext fun h' => ?_)
    rw [Option.bind_some]
    exact ih hLeft' (hRoot'.trans hRoot) (hPtr'.trans hPtr) (Nat.lt_of_succ_lt_succ hFuel) h'

theorem forAll_eq (c : Component) (dead : Nat → Option (List Nat)) (order : Order)
    (side : Option Side) (methods : List Method) {fuel : Nat}
    (hFuel : (order.addresses c []).length < fuel) :
    forAll c dead order side methods fuel = ((order.addresses c []).foldlM
      (fun h a => handle (look c dead a) side methods h) ⟨0, []⟩).map Handled.calls := by
  obtain ⟨y, hBegin, hOrder, hRoot, hPtr, _, hTemp⟩ :=
    alone_ofRoot c order (by decide : 1 ≠ 0) false (.default order 0 false)
  have hAssign : Iterators.step c (Function.update (alone (.default order 0 false)) 1 (some y))
      (.assign 0 1) = some (Function.update (alone y) 1 (some y)) := by
    have hIt : Function.update (alone (.default order 0 false)) 1 (some y) 0 =
        some (.default order 0 false) := rfl
    have hSame : (CompositeIterator.default order 0 false).order = y.order := hOrder.symm
    rw [Iterators.step, hIt, Function.update_self, Option.bind_some, Option.bind_some,
      if_pos hSame, Function.update_comm (by decide), alone, Function.update_idem]
    rfl
  have hRun : Iterators.run c [.default 0 order false, .ofRoot 1 order [] false, .assign 0 1,
      .destroy 1] = some (alone y) := by
    have hFirst : Iterators.step c (fun _ => none) (.default 0 order false) =
        some (alone (.default order 0 false)) := rfl
    have hLast := alone_destroy c (by decide : 1 ≠ 0) y y
    simp only [Iterators.run, List.foldlM_cons, List.foldlM_nil, hFirst, hTemp, hAssign, hLast,
      Option.bind_eq_bind, Option.bind_some, Option.pure_def]
  rw [forAll, hRun, Option.bind_some, passes_eq (left_ofRoot (at?_nil c) hBegin) hRoot hPtr hFuel]

def callsAt (c : Component) (side : Option Side) (methods : List Method) (a : List Nat) :
    List (Method × List Nat) :=
  if matching c side a then methods.map fun m => (m, a) else []

theorem inOrder_eq (c : Component) (order : Order) (side : Option Side) (methods : List Method) :
    inOrder c order side methods = (order.addresses c []).flatMap (callsAt c side methods) := by
  unfold inOrder
  induction order.addresses c [] with
  | nil => rfl
  | cons a l ih =>
    rw [List.filter_cons, List.flatMap_cons, ← ih, callsAt]
    split_ifs
    · rw [List.flatMap_cons]
    · rw [List.nil_append]

theorem callAll_same {deref : Nat → Option (List Nat × Component × Nat)} {a : List Nat}
    {t : Component} (hDeref : ∀ n, deref n = some (a, t, n)) (methods : List Method) (h : Handled) :
    callAll deref methods h = some ⟨h.stale, h.calls ++ methods.map fun m => (m, a)⟩ := by
  induction methods generalizing h with
  | nil => simp [callAll]
  | cons m ms ih => simp [callAll, hDeref, ih]

theorem handle_child {a : List Nat} (hChild : a ≠ []) (hAt : (c.at? a).isSome) (h : Handled) :
    handle (look c dead a) side methods h =
      some ⟨h.stale, h.calls ++ callsAt c side methods a⟩ := by
  obtain ⟨t, ht⟩ := Option.isSome_iff_exists.mp hAt
  have hDeref : ∀ n, look c dead a n = some (a, t, n) := by
    intro n
    rw [look, if_neg hChild, ht, Option.map_some]
  unfold callsAt matching handle
  cases side with
  | none => rw [if_pos rfl, callAll_same hDeref]
  | some side =>
    simp only [hDeref, ht, Option.bind_some, Option.map_some, Option.getD_some]
    split_ifs
    · rw [callAll_same hDeref]
    · rw [List.append_nil]

theorem handle_children {l : List (List Nat)} (hl : ∀ a ∈ l, a ≠ [] ∧ (c.at? a).isSome)
    (h : Handled) : l.foldlM (fun h a => handle (look c dead a) side methods h) h =
      some ⟨h.stale, h.calls ++ l.flatMap (callsAt c side methods)⟩ := by
  induction l generalizing h with
  | nil => simp
  | cons a l ih =>
    obtain ⟨⟨hChild, hAt⟩, hRest⟩ := List.forall_mem_cons.mp hl
    rw [List.foldlM_cons, handle_child hChild hAt, List.flatMap_cons, ← List.append_assoc]
    exact ih hRest _

theorem callAll_extends {deref : Nat → Option (List Nat × Component × Nat)}
    {h h' : Handled} (hRun : callAll deref methods h = some h') :
    ∃ more, h'.calls = h.calls ++ more ∧ more.map Prod.fst = methods := by
  induction methods generalizing h with
  | nil =>
    obtain rfl := Option.some.inj hRun
    exact ⟨[], (List.append_nil _).symm, rfl⟩
  | cons m ms ih =>
    obtain ⟨r, _, hRest⟩ := Option.bind_eq_some_iff.mp hRun
    obtain ⟨more, hMore, hFst⟩ := ih hRest
    exact ⟨(m, r.1) :: more, by rw [hMore, List.append_assoc]; rfl, by rw [List.map_cons, hFst]⟩

theorem callAll_root_iff (c : Component) (dead : Nat → Option (List Nat)) (methods : List Method)
    (n : Nat) (calls : List (Method × List Nat)) :
    (callAll (look c dead []) methods ⟨n, calls⟩).map Handled.calls =
        some (calls ++ methods.map fun m => (m, [])) ↔
      ∀ i < methods.length, dead (n + i) = some [] := by
  induction methods generalizing n calls with
  | nil => simp [callAll]
  | cons m ms ih =>
    have hTail := ih (n + 1) (calls ++ [(m, [])])
    have hSplit : (∀ i < (m :: ms).length, dead (n + i) = some []) ↔
        dead n = some [] ∧ ∀ i < ms.length, dead (n + 1 + i) = some [] := by
      simp only [List.length_cons, Nat.forall_lt_succ_left, Nat.add_zero, Nat.add_assoc,
        Nat.add_comm 1]
    rw [hSplit]
    constructor
    · intro hRun
      obtain ⟨h', hCalls, hEq⟩ := Option.map_eq_some_iff.mp hRun
      obtain ⟨r, hLook, hRest⟩ := Option.bind_eq_some_iff.mp hCalls
      rw [look, if_pos rfl] at hLook
      obtain ⟨p, hDead, hp⟩ := Option.bind_eq_some_iff.mp hLook
      obtain ⟨t, _, rfl⟩ := Option.map_eq_some_iff.mp hp
      obtain ⟨more, hMore, _⟩ := callAll_extends hRest
      obtain rfl : p = [] := by
        rw [hMore] at hEq
        simp only [List.append_assoc, List.singleton_append, List.map_cons,
          List.append_cancel_left_eq, List.cons.injEq, Prod.mk.injEq] at hEq
        exact hEq.1.2
      refine ⟨hDead, hTail.mp ?_⟩
      rw [hRest, Option.map_some, hEq, List.map_cons, List.append_assoc]
      rfl
    · rintro ⟨hDead, hRest⟩
      have hLook : look c dead [] n = some ([], c, n + 1) := by
        rw [look, if_pos rfl, hDead, Option.bind_some, at?_nil, Option.map_some]
      rw [callAll, hLook, Option.bind_some, hTail.mpr hRest, List.append_assoc]
      rfl

theorem handle_root_iff (c : Component) (dead : Nat → Option (List Nat)) (side : Option Side)
    {methods : List Method} (hMethods : methods ≠ []) (calls : List (Method × List Nat)) :
    (handle (look c dead []) side methods ⟨0, calls⟩).map Handled.calls =
        some (calls ++ callsAt c side methods []) ↔ HoldsRoot c dead side methods := by
  unfold handle callsAt matching HoldsRoot
  cases side with
  | none =>
    rw [if_pos rfl, callAll_root_iff]
    simp only [Nat.zero_add]
  | some side =>
    have hMap : (methods.map fun m => (m, ([] : List Nat))) ≠ [] := by simpa using hMethods
    simp only [at?_nil, Option.map_some, Option.getD_some, look, if_true]
    cases hDead : dead 0 with
    | none => simp
    | some p =>
      cases hAt : c.at? p with
      | none => simp [hAt]
      | some t =>
        have hRoot := callAll_root_iff c dead methods 1 calls
        simp only [Nat.add_comm 1] at hRoot
        have hKind : (∃ q u, some p = some q ∧ c.at? q = some u ∧ side.has u = side.has c) ↔
            side.has t = side.has c := by
          constructor
          · rintro ⟨q, u, hq, hu, hSame⟩
            obtain rfl := Option.some.inj hq
            obtain rfl := Option.some.inj (hAt.symm.trans hu)
            exact hSame
          · exact fun hSame => ⟨p, t, rfl, hAt, hSame⟩
        rw [hKind]
        simp only [Option.bind_some, hAt, Option.map_some, Nat.zero_add]
        cases hHas : side.has t <;> cases hRootHas : side.has c
        · simp
        · simpa using hMethods
        · simp only [if_true, Bool.false_eq_true, if_false, List.append_nil, reduceCtorEq,
            false_and, iff_false]
          intro hRun
          obtain ⟨h', hCalls, hEq⟩ := Option.map_eq_some_iff.mp hRun
          obtain ⟨more, hMore, hFst⟩ := callAll_extends hCalls
          rw [hMore] at hEq
          obtain rfl : more = [] := by simpa using hEq
          exact hMethods hFst.symm
        · simpa using hRoot

def EndsWith (loop : Nat → Option (List (Method × List Nat))) (calls : List (Method × List Nat)) :
    Prop :=
  ∃ n, ∀ fuel, n ≤ fuel → loop fuel = some calls

theorem below_root (c : Component) :
    ∀ a ∈ preOrders c.children [] 0, a ≠ [] ∧ (c.at? a).isSome := by
  intro a ha
  have hMem : a ∈ preOrder c [] := by
    rw [preOrder_eq]
    exact List.mem_cons_of_mem _ ha
  have hPairwise := pairwise_preOrder c []
  rw [preOrder_eq, List.pairwise_cons] at hPairwise
  obtain ⟨q, rfl, hAt⟩ := (mem_preOrder c [] a).mp hMem
  refine ⟨fun hNil => hPairwise.1 _ ha ?_, hAt⟩
  rw [hNil]

theorem forAll_endsWith_iff (c : Component) (dead : Nat → Option (List Nat)) (order : Order)
    (side : Option Side) {methods : List Method} (hMethods : methods ≠ []) :
    EndsWith (forAll c dead order side methods) (inOrder c order side methods) ↔
      HoldsRoot c dead side methods := by
  have hRun : ∀ fuel, (order.addresses c []).length < fuel →
      (forAll c dead order side methods fuel = some (inOrder c order side methods) ↔
        HoldsRoot c dead side methods) := by
    intro fuel hFuel
    rw [forAll_eq c dead order side methods hFuel, inOrder_eq]
    cases order with
    | pre =>
      have hRoot := handle_root_iff c dead side hMethods []
      rw [Order.addresses, preOrder_eq, List.foldlM_cons, List.flatMap_cons, ← hRoot]
      cases handle (look c dead []) side methods ⟨0, []⟩ with
      | none => simp
      | some h =>
        rw [Option.bind_eq_bind, Option.bind_some, handle_children (below_root c)]
        simp
    | post =>
      have hBelow : ∀ a ∈ postOrders c.children [] 0, a ≠ [] ∧ (c.at? a).isSome := by
        intro a ha
        rw [(perm_postOrders (fun t _ => perm_postOrder t) [] 0).mem_iff] at ha
        exact below_root c a ha
      rw [Order.addresses, postOrder_eq, List.foldlM_append, handle_children hBelow,
        Option.bind_eq_bind, Option.bind_some, List.foldlM_cons, List.flatMap_append,
        List.flatMap_singleton, List.nil_append, ← handle_root_iff c dead side hMethods
          ((postOrders c.children [] 0).flatMap (callsAt c side methods))]
      simp
  constructor
  · rintro ⟨n, hEnds⟩
    exact (hRun (max n ((order.addresses c []).length + 1)) (by omega)).mp (hEnds _ (by omega))
  · exact fun hHolds => ⟨_, fun fuel hFuel => (hRun fuel hFuel).mpr hHolds⟩

/-- A loop ends and makes its calls in the recursive order if and only if the dead temporary still
holds the root when it is read. -/
theorem stack_in_order_iff (c : Component) (dead : Nat → Option (List Nat)) :
    ((∀ p, p ∈ c.postOrder [] ↔ (c.at? p).isSome) ∧
      (c.postOrder []).Pairwise fun p q => ¬p <+: q) ∧
    ((∀ p, p ∈ c.preOrder [] ↔ (c.at? p).isSome) ∧
      (c.preOrder []).Pairwise fun p q => ¬q <+: p) ∧
    (EndsWith (initAll c dead) (inOrder c .post none [.init, .mount]) ↔
      HoldsRoot c dead none [.init, .mount]) ∧
    (EndsWith (mountAll c dead) (inOrder c .post none [.mount]) ↔
      HoldsRoot c dead none [.mount]) ∧
    (EndsWith (umountAll c dead) (inOrder c .pre none [.umount]) ↔
      HoldsRoot c dead none [.umount]) ∧
    (EndsWith (recoverAll c dead) (inOrder c .post none [.recover, .mount]) ↔
      HoldsRoot c dead none [.recover, .mount]) ∧
    (EndsWith (mountUser c dead) (inOrder c .post (some .user) [.mount]) ↔
      HoldsRoot c dead (some .user) [.mount]) ∧
    (EndsWith (umountUser c dead) (inOrder c .pre (some .user) [.umount]) ↔
      HoldsRoot c dead (some .user) [.umount]) ∧
    (EndsWith (recoverUser c dead) (inOrder c .post (some .user) [.recover, .mount]) ↔
      HoldsRoot c dead (some .user) [.recover, .mount]) ∧
    (EndsWith (mountKern c dead) (inOrder c .post (some .kern) [.mount]) ↔
      HoldsRoot c dead (some .kern) [.mount]) ∧
    (EndsWith (umountKern c dead) (inOrder c .pre (some .kern) [.umount]) ↔
      HoldsRoot c dead (some .kern) [.umount]) ∧
    (EndsWith (recoverKern c dead) (inOrder c .post (some .kern) [.recover, .mount]) ↔
      HoldsRoot c dead (some .kern) [.recover, .mount]) := by
  have hForAll : ∀ order side m ms, EndsWith (forAll c dead order side (m :: ms))
      (inOrder c order side (m :: ms)) ↔ HoldsRoot c dead side (m :: ms) := by
    intro order side m ms
    exact forAll_endsWith_iff c dead order side (List.cons_ne_nil m ms)
  refine ⟨⟨fun p => ?_, pairwise_postOrder c []⟩, ⟨fun p => ?_, pairwise_preOrder c []⟩,
    hForAll .post none .init [.mount], hForAll .post none .mount [],
    hForAll .pre none .umount [], hForAll .post none .recover [.mount],
    hForAll .post (some .user) .mount [], hForAll .pre (some .user) .umount [],
    hForAll .post (some .user) .recover [.mount], hForAll .post (some .kern) .mount [],
    hForAll .pre (some .kern) .umount [], hForAll .post (some .kern) .recover [.mount]⟩
  · simp [mem_postOrder]
  · simp [mem_preOrder]

/-- The dead temporary holds the component below the root, which is then mounted twice. -/
theorem mountAll_twice :
    mountAll (.node true [.node true []]) (fun _ => some [0]) 3 =
        some [(.mount, [0]), (.mount, [0])] ∧
      inOrder (.node true [.node true []]) .post none [.mount] =
        [(.mount, [0]), (.mount, [])] ∧
      ¬EndsWith (mountAll (.node true [.node true []]) fun _ => some [0])
        (inOrder (.node true [.node true []]) .post none [.mount]) := by
  refine ⟨by decide, by decide, fun hEnds => ?_⟩
  have hHolds : HoldsRoot (.node true [.node true []]) (fun _ => some [0]) none [.mount] :=
    (forAll_endsWith_iff (.node true [.node true []]) (fun _ => some [0]) .post none
      (List.cons_ne_nil Method.mount [])).mp hEnds
  cases hHolds 0 (by decide)

end

end Explode.Crash
