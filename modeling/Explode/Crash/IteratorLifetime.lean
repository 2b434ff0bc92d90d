import Explode.Crash.CompositeIterator
import Mathlib.Logic.Function.Basic

/-!
# Iterators that point into other iterators

Iterators are constructed, copied, assigned, moved on and destroyed at addresses
of their own. A copy points its root pointer at itself, but an assigned iterator
keeps that of the one it was assigned from, which may be destroyed first.
-/

namespace Explode.Crash

abbrev Iterators := Nat → Option CompositeIterator

inductive IterOp
  | default (loc : Nat) (order : Order) (done : Bool)
  | ofRoot (loc : Nat) (order : Order) (root : List Nat) (done : Bool)
  | copy (loc src : Nat)
  | assign (loc src : Nat)
  | increment (loc : Nat)
  | destroy (loc : Nat)
  deriving DecidableEq, Repr

namespace Iterators

def create (w : Iterators) (loc : Nat) (x : Option CompositeIterator) : Option Iterators :=
  if w loc = none then x.map fun x => Function.update w loc (some x) else none

variable {α : Type} (c : RoseTree α)

/-- Nothing results if the operation itself is undefined, for instance on a dead iterator or past
the end of the stack. -/
def step (w : Iterators) : IterOp → Option Iterators
  | .default loc order done => w.create loc (some (.default order loc done))
  | .ofRoot loc order root done => w.create loc (CompositeIterator.ofRoot c order loc root done)
  | .copy loc src => w.create loc ((w src).map fun y => y.copy loc)
  | .assign loc src => (w loc).bind fun x => (w src).bind fun y =>
    if x.order = y.order then some (Function.update w loc (some (x.assign y))) else none
  | .increment loc => (w loc).bind fun x => (x.increment c).map fun x' =>
    Function.update w loc (some x')
  | .destroy loc => (w loc).map fun _ => Function.update w loc none

def run (ops : List IterOp) : Option Iterators := ops.foldlM (step c) fun _ => none

end Iterators

structure Origin where
  setBy : Nat
  hasRoot : Bool
  deriving DecidableEq, Repr

def IterOp.note (f : Nat → Origin) : IterOp → Nat → Origin
  | .default loc _ _ => Function.update f loc ⟨loc, false⟩
  | .ofRoot loc _ _ _ => Function.update f loc ⟨loc, true⟩
  | .copy loc src => Function.update f loc ⟨loc, (f src).hasRoot⟩
  | .assign loc src => Function.update f loc (f src)
  | .increment _ => f
  | .destroy _ => f

def origin (ops : List IterOp) : Nat → Origin := ops.foldl IterOp.note fun loc => ⟨loc, false⟩

section
variable {α : Type} (c : RoseTree α)

def Storage.Owned (w : Iterators) : Storage → Prop
  | .member loc => ∃ y, w loc = some y
  | .element it => it.idx < (c.childrenAt it.owner).length

/-- Dereferencing the iterator accesses owned storage only. -/
def CompositeIterator.Safe (w : Iterators) (x : CompositeIterator) : Prop :=
  ∃ s, x.reference = some s ∧ s.Owned c w

structure CompositeIterator.Blank (x : CompositeIterator) : Prop where
  root : x.root = none
  its : x.its = []
  atRoot : x.atRoot = decide (x.order = .pre)

structure CompositeIterator.Sound (o : Origin) (x : CompositeIterator) : Prop where
  rootPtr : x.rootPtr = o.setBy
  hasRoot : x.root.isSome = o.hasRoot
  stands : x.done = true ∨ x.Blank ∨ ∃ root l, x.root = some root ∧ Left c root x l

variable {c} {x x' : CompositeIterator} {o : Origin}

theorem Left.copy {root : List Nat} {l : List (List Nat)} (hLeft : Left c root x l) (loc : Nat) :
    Left c root (x.copy loc) l := by
  cases hLeft with
  | first hOrder hDone hFirst hIts hEnds hAt => exact .first hOrder hDone hFirst hIts hEnds hAt
  | inPre hOrder hDone hFirst hIts hEnds hIt hBelow =>
    exact .inPre hOrder hDone hFirst hIts hEnds hIt hBelow
  | inPost hOrder hDone hLast hIts hEnds hIt hBelow =>
    exact .inPost hOrder hDone hLast hIts hEnds hIt hBelow
  | last hOrder hDone hLast hIts hEnds => exact .last hOrder hDone hLast hIts hEnds
  | past hDone => exact .past hDone

theorem sound_default (order : Order) (loc : Nat) (done : Bool) :
    (CompositeIterator.default order loc done).Sound c ⟨loc, false⟩ :=
  ⟨rfl, rfl, .inr (.inl ⟨rfl, rfl, rfl⟩)⟩

theorem sound_ofRoot {order : Order} {loc : Nat} {root : List Nat} {done : Bool}
    (hRun : CompositeIterator.ofRoot c order loc root done = some x) : x.Sound c ⟨loc, true⟩ := by
  obtain ⟨t, hAt, hEq⟩ := Option.map_eq_some_iff.mp hRun
  cases done with
  | true =>
    subst hEq
    exact ⟨rfl, rfl, .inl rfl⟩
  | false =>
    have hLeft := left_ofRoot hAt hRun
    subst hEq
    exact ⟨rfl, rfl, .inr (.inr ⟨root, _, rfl, hLeft⟩)⟩

theorem CompositeIterator.Sound.copy (hSound : x.Sound c o) (loc : Nat) :
    (x.copy loc).Sound c ⟨loc, o.hasRoot⟩ := by
  refine ⟨rfl, hSound.hasRoot, ?_⟩
  obtain hDone | hBlank | ⟨root, l, hRoot, hLeft⟩ := hSound.stands
  · exact .inl hDone
  · exact .inr (.inl ⟨hBlank.root, hBlank.its, hBlank.atRoot⟩)
  · exact .inr (.inr ⟨root, l, hRoot, hLeft.copy loc⟩)

theorem CompositeIterator.Blank.increment (hBlank : x.Blank) : x.increment c = none := by
  unfold CompositeIterator.increment
  have hAtRoot := hBlank.atRoot
  cases hOrder : x.order with
  | pre =>
    rw [hOrder] at hAtRoot
    simp [CompositeIterator.preIncrement, hAtRoot, hBlank.root]
  | post =>
    rw [hOrder] at hAtRoot
    simp [CompositeIterator.postIncrement, hAtRoot, hBlank.its]

theorem CompositeIterator.Sound.increment (hSound : x.Sound c o)
    (hStep : x.increment c = some x') : x'.Sound c o := by
  obtain ⟨hRoot', hPtr, hDone'⟩ := increment_keeps hStep
  refine ⟨hPtr.trans hSound.rootPtr, by rw [hRoot', hSound.hasRoot], ?_⟩
  obtain hDone | hBlank | ⟨root, l, hRoot, hLeft⟩ := hSound.stands
  · exact .inl (hDone' hDone)
  · rw [hBlank.increment] at hStep
    cases hStep
  · cases l with
    | nil => exact .inl (hDone' (hLeft.done_iff.mpr rfl))
    | cons a l =>
      obtain ⟨y, hStep', hLeft'⟩ := hLeft.increment hRoot
      obtain rfl := Option.some.inj (hStep.symm.trans hStep')
      exact .inr (.inr ⟨root, l, hRoot'.trans hRoot, hLeft'⟩)

namespace Iterators

variable {w w' : Iterators} {f : Nat → Origin} {op : IterOp}

def Sound (c : RoseTree α) (f : Nat → Origin) (w : Iterators) : Prop :=
  ∀ loc x, w loc = some x → x.Sound c (f loc)

theorem Sound.update (hSound : Sound c f w) (loc : Nat) (hx : x.Sound c o) :
    Sound c (Function.update f loc o) (Function.update w loc (some x)) := by
  intro loc' y hy
  obtain rfl | hNe := eq_or_ne loc' loc
  · rw [Function.update_self] at hy ⊢
    obtain rfl := Option.some.inj hy
    exact hx
  · rw [Function.update_of_ne hNe] at hy ⊢
    exact hSound loc' y hy

theorem Sound.step (hSound : Sound c f w) (hStep : w.step c op = some w') :
    Sound c (op.note f) w' := by
  have hCreate : ∀ {loc x?}, w.create loc x? = some w' →
      ∃ x, x? = some x ∧ w' = Function.update w loc (some x) := by
    intro loc x? hStep
    rw [create] at hStep
    split_ifs at hStep
    obtain ⟨x, hx, rfl⟩ := Option.map_eq_some_iff.mp hStep
    exact ⟨x, hx, rfl⟩
  cases op with
  | default loc order done =>
    obtain ⟨x, hx, rfl⟩ := hCreate hStep
    obtain rfl := Option.some.inj hx
    exact hSound.update loc (sound_default order loc done)
  | ofRoot loc order root done =>
    obtain ⟨x, hx, rfl⟩ := hCreate hStep
    exact hSound.update loc (sound_ofRoot hx)
  | copy loc src =>
    obtain ⟨x, hx, rfl⟩ := hCreate hStep
    obtain ⟨y, hy, rfl⟩ := Option.map_eq_some_iff.mp hx
    exact hSound.update loc ((hSound src y hy).copy loc)
  | assign loc src =>
    obtain ⟨x, _, hx⟩ := Option.bind_eq_some_iff.mp hStep
    obtain ⟨y, hy, hxy⟩ := Option.bind_eq_some_iff.mp hx
    split_ifs at hxy
    obtain rfl := Option.some.inj hxy
    exact hSound.update loc (hSound src y hy)
  | increment loc =>
    obtain ⟨x, hx, hStep⟩ := Option.bind_eq_some_iff.mp hStep
    obtain ⟨x', hx', rfl⟩ := Option.map_eq_some_iff.mp hStep
    have hNew := hSound.update loc ((hSound loc x hx).increment hx')
    rwa [Function.update_eq_self] at hNew
  | destroy loc =>
    obtain ⟨x, _, rfl⟩ := Option.map_eq_some_iff.mp hStep
    intro loc' y hy
    obtain rfl | hNe := eq_or_ne loc' loc
    · rw [Function.update_self] at hy
      cases hy
    · rw [Function.update_of_ne hNe] at hy
      exact hSound loc' y hy

theorem run_sound {ops : List IterOp} (hRun : run c ops = some w) : Sound c (origin ops) w := by
  have hGen : ∀ (ops : List IterOp) (f : Nat → Origin) (w₀ : Iterators), Sound c f w₀ →
      ops.foldlM (Iterators.step c) w₀ = some w → Sound c (ops.foldl IterOp.note f) w := by
    intro ops
    induction ops with
    | nil =>
      intro f w₀ hSound hRun
      obtain rfl := Option.some.inj hRun
      exact hSound
    | cons op ops ih =>
      intro f w₀ hSound hRun
      obtain ⟨w₁, hStep, hRest⟩ := Option.bind_eq_some_iff.mp hRun
      exact ih _ w₁ (hSound.step hStep) hRest
  exact hGen ops _ _ (fun _ _ h => by cases h) hRun

end Iterators

theorem CompositeIterator.Sound.safe_iff (hSound : x.Sound c o) (hEnd : x.done = false)
    (w : Iterators) :
    x.Safe c w ↔ (x.atRoot = true → ∃ y, w o.setBy = some y) ∧
      (x.atRoot = false → o.hasRoot = true) := by
  unfold CompositeIterator.Safe CompositeIterator.reference
  cases hAtRoot : x.atRoot with
  | true =>
    rw [if_pos rfl, hSound.rootPtr]
    simp [Storage.Owned]
  | false =>
    rw [if_neg (by simp), ← hSound.hasRoot]
    obtain hDone | hBlank | ⟨root, l, hRoot, hLeft⟩ := hSound.stands
    · rw [hEnd] at hDone
      cases hDone
    · simp [hBlank.its, hBlank.root]
    · have hSome : x.root.isSome = true := by rw [hRoot, Option.isSome_some]
      refine iff_of_true ?_ ⟨by simp, fun _ => hSome⟩
      cases l with
      | nil =>
        rw [hLeft.done_iff.mpr rfl] at hEnd
        cases hEnd
      | cons a l =>
        obtain ⟨hTrue, _⟩ | ⟨_, it, e, hTop, hFramed, _⟩ := hLeft.current
        · rw [hAtRoot] at hTrue
          cases hTrue
        · exact ⟨.element it, by rw [hTop, Option.map_some], hFramed.2⟩

/-- An iterator at the root can be dereferenced if and only if the iterator that set its root
pointer lives, and any other one if and only if it has a root. -/
theorem dereference_safe_iff (c : RoseTree α) (ops : List IterOp) (w : Iterators)
    (hRun : Iterators.run c ops = some w) (loc : Nat) (x : CompositeIterator)
    (hLive : w loc = some x) (hEnd : x.done = false) :
    x.Safe c w ↔ (x.atRoot = true → ∃ y, w (origin ops loc).setBy = some y) ∧
      (x.atRoot = false → (origin ops loc).hasRoot = true) :=
  (Iterators.run_sound hRun loc x hLive).safe_iff hEnd w

/-- A copy of an iterator at a single component, after the original was destroyed. -/
theorem dereference_safe_iff_copied : ∃ w x,
    Iterators.run (.node true []) [.ofRoot 0 .post [] false, .copy 1 0, .destroy 0] = some w ∧
      w 1 = some x ∧ x.done = false ∧ x.atRoot = true ∧ x.Safe (.node true []) w := by
  refine ⟨_, _, rfl, rfl, rfl, rfl, ?_⟩
  refine (dereference_safe_iff _ [.ofRoot 0 .post [] false, .copy 1 0, .destroy 0] _ rfl 1 _ rfl
    rfl).mpr ⟨fun _ => ⟨_, rfl⟩, fun hFalse => ?_⟩
  cases hFalse

/-- What the loops over components do: an iterator is assigned from a temporary, and reads what
the temporary held when it is gone. -/
theorem assigned_reads_dead : ∃ w x,
    Iterators.run (.node true [])
        [.default 0 .post false, .ofRoot 1 .post [] false, .assign 0 1, .destroy 1] = some w ∧
      w 0 = some x ∧ x.done = false ∧ x.reference = some (.member 1) ∧ w 1 = none ∧
      ¬x.Safe (.node true []) w := by
  refine ⟨_, _, rfl, rfl, rfl, rfl, rfl, ?_⟩
  rintro ⟨s, hRef, hOwned⟩
  obtain rfl := Option.some.inj hRef
  obtain ⟨y, hy⟩ := hOwned
  cases hy

end

end Explode.Crash
