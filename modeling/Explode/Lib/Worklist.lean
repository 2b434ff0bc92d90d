import Explode.Lib.Machine
import Mathlib.Data.List.Perm.Basic
import Mathlib.Data.Set.Card
import Mathlib.Logic.Relation

/-!
# Worklist search

A search knows nodes by their keys. It takes the first node off its queue and
offers the successors of the node one after the other.
-/

namespace Worklist

open Machine

universe u v w
variable {α : Type u} {β : Type v}

structure Search (α : Type u) (β : Type v) where
  found : List β
  queue : List α
  done : List α

structure Discipline (α : Type u) where
  inserts : α → List α → List α → Prop
  perm : ∀ {x : α} {q q' : List α}, inserts x q q' → q'.Perm (x :: q)
  skips : Prop

inductive Offer (d : Discipline α) (key : α → β) (s : Search α β) (x : α) : Search α β → Prop
  | old (hSkips : d.skips) (hFound : key x ∈ s.found) : Offer d key s x s
  | new {q : List α} (hNew : key x ∉ s.found) (hInserts : d.inserts x s.queue q) :
      Offer d key s x { s with found := s.found ++ [key x], queue := q }

inductive Offers (d : Discipline α) (key : α → β) : Search α β → List α → Search α β → Prop
  | nil (s : Search α β) : Offers d key s [] s
  | cons {s t u : Search α β} {x : α} {xs : List α} (hOffer : Offer d key s x t)
      (hRest : Offers d key t xs u) : Offers d key s (x :: xs) u

inductive Step (d : Discipline α) (key : α → β) (succ : α → List α) (s t : Search α β) : Prop
  | expand {x : α} {q : List α} (hQueue : s.queue = x :: q)
      (hOffers : Offers d key ⟨s.found, q, s.done ++ [x]⟩ (succ x) t) : Step d key succ s t

inductive Reachable (succ : α → List α) (init : α) : α → Prop
  | init : Reachable succ init init
  | step {x y : α} (hx : Reachable succ init x) (hy : y ∈ succ x) : Reachable succ init y

def start (key : α → β) (init : α) : Search α β := ⟨[key init], [init], []⟩

structure Sound (d : Discipline α) (key : α → β) (succ : α → List α) (init : α) (s : Search α β)
    (expanded : List α) : Prop where
  perm : s.found.Perm ((s.done ++ s.queue).map key)
  nodup : s.found.Nodup
  root : init ∈ s.done ++ s.queue
  reach : ∀ x ∈ s.done ++ s.queue, Reachable succ init x
  closed : ∀ x ∈ expanded, ∀ y ∈ succ x,
    key y ∈ s.found ∧ (¬d.skips → y ∈ s.done ++ s.queue)

variable {d : Discipline α} {key : α → β} {succ : α → List α} {init x : α}
  {s t t' u : Search α β} {xs ys expanded : List α}

theorem Offers.append (hFirst : Offers d key s xs t) (hRest : Offers d key t ys u) :
    Offers d key s (xs ++ ys) u := by
  induction hFirst with
  | nil => exact hRest
  | cons hOffer _ ih => exact .cons hOffer (ih hRest)

theorem Offer.done_eq (hOffer : Offer d key s x t) : t.done = s.done := by
  cases hOffer <;> rfl

theorem Offers.done_eq (hOffers : Offers d key s xs t) : t.done = s.done := by
  induction hOffers with
  | nil => rfl
  | cons hOffer _ ih => exact ih.trans hOffer.done_eq

structure Kept (d : Discipline α) (key : α → β) (s t : Search α β) (xs : List α) : Prop where
  found : ∀ k ∈ s.found, k ∈ t.found
  nodes : ∀ y ∈ s.done ++ s.queue, y ∈ t.done ++ t.queue
  offered : ∀ y ∈ xs, key y ∈ t.found ∧ (¬d.skips → y ∈ t.done ++ t.queue)

theorem Offer.kept (hOffer : Offer d key s x t) : Kept d key s t [x] := by
  cases hOffer with
  | old hSkips hFound =>
    refine ⟨fun _ hk => hk, fun _ hy => hy, fun y hy => ?_⟩
    rw [List.mem_singleton.mp hy]
    exact ⟨hFound, fun hNot => absurd hSkips hNot⟩
  | new hNew hInserts =>
    have hPerm := d.perm hInserts
    refine ⟨fun _ hk => List.mem_append_left _ hk, fun y hy => ?_, fun y hy => ?_⟩
    · rcases List.mem_append.mp hy with hy | hy
      · exact List.mem_append_left _ hy
      · exact List.mem_append_right _ (hPerm.symm.subset (List.mem_cons_of_mem _ hy))
    · rw [List.mem_singleton.mp hy]
      refine ⟨by simp, fun _ => ?_⟩
      exact List.mem_append_right _ (hPerm.symm.subset List.mem_cons_self)

theorem Kept.trans (hFirst : Kept d key s t xs) (hRest : Kept d key t u ys) :
    Kept d key s u (xs ++ ys) where
  found k hk := hRest.found k (hFirst.found k hk)
  nodes y hy := hRest.nodes y (hFirst.nodes y hy)
  offered y hy := by
    rcases List.mem_append.mp hy with hy | hy
    · obtain ⟨hFound, hNode⟩ := hFirst.offered y hy
      exact ⟨hRest.found _ hFound, fun hNot => hRest.nodes y (hNode hNot)⟩
    · exact hRest.offered y hy

theorem Offers.kept (hOffers : Offers d key s xs t) : Kept d key s t xs := by
  induction hOffers with
  | nil => exact ⟨fun _ hk => hk, fun _ hy => hy, fun y hy => absurd hy List.not_mem_nil⟩
  | cons hOffer _ ih => exact hOffer.kept.trans ih

theorem sound_start (d : Discipline α) (key : α → β) (succ : α → List α) (init : α) :
    Sound d key succ init (start key init) (start key init).done where
  perm := .refl _
  nodup := List.nodup_singleton _
  root := List.mem_singleton_self _
  reach x hx := by
    obtain rfl : x = init := List.mem_singleton.mp hx
    exact .init
  closed x hx := absurd hx List.not_mem_nil

theorem Sound.offer (hSound : Sound d key succ init s expanded) (hOffer : Offer d key s x t)
    (hReach : Reachable succ init x) : Sound d key succ init t expanded := by
  have hKept := hOffer.kept
  have hClosed : ∀ x ∈ expanded, ∀ y ∈ succ x,
      key y ∈ t.found ∧ (¬d.skips → y ∈ t.done ++ t.queue) := by
    intro x hx y hy
    obtain ⟨hFound, hNode⟩ := hSound.closed x hx y hy
    exact ⟨hKept.found _ hFound, fun hNot => hKept.nodes y (hNode hNot)⟩
  cases hOffer with
  | old => exact hSound
  | @new q hNew hInserts =>
    have hPerm := d.perm hInserts
    have hNodes : (s.done ++ q).Perm (x :: (s.done ++ s.queue)) :=
      (hPerm.append_left s.done).trans List.perm_middle
    refine ⟨?_, ?_, hKept.nodes _ hSound.root, ?_, hClosed⟩
    · calc s.found ++ [key x]
        _ |>.Perm (key x :: s.found) := List.perm_append_singleton _ _
        _ |>.Perm (key x :: (s.done ++ s.queue).map key) := .cons _ hSound.perm
        _ |>.Perm ((s.done ++ q).map key) := (hNodes.map key).symm
    · refine List.nodup_append.mpr ⟨hSound.nodup, List.nodup_singleton _, ?_⟩
      rintro k hk _ hLast rfl
      exact hNew (List.mem_singleton.mp hLast ▸ hk)
    · intro y hy
      rcases List.mem_cons.mp (hNodes.subset hy) with rfl | hy
      · exact hReach
      · exact hSound.reach y hy

theorem Sound.offers (hSound : Sound d key succ init s expanded) (hOffers : Offers d key s xs t)
    (hReach : ∀ x ∈ xs, Reachable succ init x) : Sound d key succ init t expanded := by
  induction hOffers with
  | nil => exact hSound
  | cons hOffer _ ih =>
    exact ih (hSound.offer hOffer (hReach _ List.mem_cons_self)) fun x hx =>
      hReach x (List.mem_cons_of_mem _ hx)

theorem Sound.step (hSound : Sound d key succ init s s.done) (hStep : Step d key succ s t) :
    Sound d key succ init t t.done ∧ t.done.length = s.done.length + 1 := by
  obtain @⟨x, q, hQueue, hOffers⟩ := hStep
  have hNodes : (s.done ++ [x]) ++ q = s.done ++ s.queue := by
    rw [hQueue, List.append_assoc, List.singleton_append]
  have hPopped : Sound d key succ init ⟨s.found, q, s.done ++ [x]⟩ s.done := by
    obtain ⟨hPerm, hNodup, hRoot, hReach, hClosed⟩ := hSound
    rw [← hNodes] at hPerm hRoot hReach hClosed
    exact ⟨hPerm, hNodup, hRoot, hReach, hClosed⟩
  have hx : Reachable succ init x := hSound.reach x (by simp [hQueue])
  have hOffered := hPopped.offers hOffers fun y hy => .step hx hy
  have hDone := hOffers.done_eq
  refine ⟨{ hOffered with closed := fun y hy => ?_ }, by simp [hDone]⟩
  rw [hDone] at hy
  rcases List.mem_append.mp hy with hy | hy
  · exact hOffered.closed y hy
  · rw [List.mem_singleton.mp hy]
    exact hOffers.kept.offered

theorem Sound.length_done_le {keys : Set β} (hFinite : keys.Finite)
    (hKeys : ∀ x, Reachable succ init x → key x ∈ keys)
    (hSound : Sound d key succ init s expanded) : s.done.length ≤ keys.ncard := by
  classical
  have hNodup : ((s.done ++ s.queue).map key).Nodup := hSound.perm.nodup_iff.mp hSound.nodup
  rw [List.map_append] at hNodup
  have hSubset : ((s.done.map key).toFinset : Set β) ⊆ keys := by
    intro k hk
    obtain ⟨x, hx, rfl⟩ := List.mem_map.mp (List.mem_toFinset.mp hk)
    exact hKeys x (hSound.reach x (List.mem_append_left _ hx))
  calc s.done.length
      = (s.done.map key).toFinset.card := by
        rw [List.toFinset_card_of_nodup hNodup.of_append_left, List.length_map]
    _ = ((s.done.map key).toFinset : Set β).ncard := (Set.ncard_coe_finset _).symm
    _ ≤ keys.ncard := Set.ncard_le_ncard hSubset hFinite

theorem Sound.covers (hSound : Sound d key succ init s s.done) (hQueue : s.queue = [])
    (hKeys : d.skips → Function.Injective key) (x : α) : Reachable succ init x ↔ x ∈ s.done := by
  have hNodes : s.done ++ s.queue = s.done := by rw [hQueue, List.append_nil]
  constructor
  · intro hReach
    induction hReach with
    | init => exact hNodes ▸ hSound.root
    | @step x y _ hy ih =>
      obtain ⟨hFound, hNode⟩ := hSound.closed x ih y hy
      by_cases hSkips : d.skips
      · have hKey := hSound.perm.subset hFound
        rw [hNodes] at hKey
        obtain ⟨z, hz, hEq⟩ := List.mem_map.mp hKey
        exact hKeys hSkips hEq ▸ hz
      · exact hNodes ▸ hNode hSkips
  · exact fun hx => hSound.reach x (hNodes.symm ▸ hx)

theorem Sound.mem_found_iff (hSound : Sound d key succ init s s.done) (hQueue : s.queue = [])
    (hKeys : d.skips → Function.Injective key) {k : β} :
    k ∈ s.found ↔ ∃ x, Reachable succ init x ∧ key x = k := by
  rw [hSound.perm.mem_iff, hQueue, List.append_nil, List.mem_map]
  exact exists_congr fun x => and_congr_left fun _ => (hSound.covers hQueue hKeys x).symm

section
variable (hUnique : ∀ x q q' q'', d.inserts x q q' → d.inserts x q q'' → q' = q'')
include hUnique

theorem Offer.unique (hFirst : Offer d key s x t) (hSecond : Offer d key s x t') : t = t' := by
  cases hFirst with
  | old _ hFound =>
    cases hSecond with
    | old => rfl
    | new hNew => exact absurd hFound hNew
  | new hNew hInserts =>
    cases hSecond with
    | old _ hFound => exact absurd hFound hNew
    | new _ hInserts' => rw [hUnique _ _ _ _ hInserts hInserts']

theorem Offers.unique (hFirst : Offers d key s xs t) (hSecond : Offers d key s xs t') : t = t' := by
  induction hFirst with
  | nil =>
    cases hSecond
    rfl
  | cons hOffer _ ih =>
    cases hSecond with
    | cons hOffer' hRest' =>
      obtain rfl := hOffer.unique hUnique hOffer'
      exact ih hRest'

theorem Step.unique (hFirst : Step d key succ s t) (hSecond : Step d key succ s t') : t = t' := by
  obtain @⟨x, q, hQueue, hOffers⟩ := hFirst
  obtain @⟨x', q', hQueue', hOffers'⟩ := hSecond
  obtain ⟨rfl, rfl⟩ := List.cons.inj (hQueue.symm.trans hQueue')
  exact hOffers.unique hUnique hOffers'

theorem ended_unique (hFirst : Relation.ReflTransGen (Step d key succ) s t) (ht : t.queue = [])
    (hSecond : Relation.ReflTransGen (Step d key succ) s t') (ht' : t'.queue = []) : t = t' := by
  have hStuck : ∀ {t u : Search α β}, t.queue = [] →
      Relation.ReflTransGen (Step d key succ) t u → t = u := by
    intro t u hEmpty hRun
    rcases hRun.cases_head with rfl | ⟨_, hStep, _⟩
    · rfl
    · obtain ⟨hQueue, _⟩ := hStep
      rw [hEmpty] at hQueue
      cases hQueue
  have hRight : Relator.RightUnique (Step d key succ) := fun _ _ _ hFirst hSecond =>
    hFirst.unique hUnique hSecond
  rcases Relation.ReflTransGen.total_of_right_unique hRight hFirst hSecond with hRun | hRun
  · exact hStuck ht hRun
  · exact (hStuck ht' hRun).symm

end

theorem Sound.steps (hSound : Sound d key succ init s s.done)
    (hRun : Relation.ReflTransGen (Step d key succ) s t) : Sound d key succ init t t.done := by
  induction hRun with
  | refl => exact hSound
  | tail _ hStep ih => exact (ih.step hStep).1

/-- A machine that can expand whenever something is queued empties the queue, if there are
finitely many keys. -/
theorem exists_ended {σ : Type w} {next : σ → Option σ} {P : σ → Prop} (abs : σ → Search α β)
    (hExpand : ∀ m, P m → (abs m).queue ≠ [] →
      ∃ m', Reaches next m m' ∧ P m' ∧ Step d key succ (abs m) (abs m'))
    {keys : Set β} (hFinite : keys.Finite) (hKeys : ∀ x, Reachable succ init x → key x ∈ keys)
    {m : σ} (hm : P m) (hSound : Sound d key succ init (abs m) (abs m).done) :
    ∃ m', Reaches next m m' ∧ P m' ∧ (abs m').queue = [] ∧
      Relation.ReflTransGen (Step d key succ) (abs m) (abs m') := by
  obtain ⟨k, hk⟩ : ∃ k, keys.ncard < (abs m).done.length + k :=
    ⟨keys.ncard + 1, by omega⟩
  induction k generalizing m with
  | zero =>
    have hLe := hSound.length_done_le hFinite hKeys
    omega
  | succ k ih =>
    by_cases hQueue : (abs m).queue = []
    · exact ⟨m, .refl _ _, hm, hQueue, .refl⟩
    · obtain ⟨m₁, hReach₁, hm₁, hStep⟩ := hExpand m hm hQueue
      obtain ⟨hSound₁, hLength⟩ := hSound.step hStep
      obtain ⟨m₂, hReach₂, hm₂, hEmpty, hRun⟩ := ih hm₁ hSound₁ (by omega)
      exact ⟨m₂, hReach₁.trans hReach₂, hm₂, hEmpty, hRun.head hStep⟩

end Worklist
