import Explode.Lib.RootedGraph
import Explode.Driver.CallSteps

/-!
# The graph of file system objects

Directory entries are the edges of a graph whose nodes are the objects. The
calls of the file system are made of few steps: an object is added or deleted,
an entry is added or removed, a reference is counted.
-/

namespace Explode.Driver

open Relation RootedGraph
open SortedMap (get?_erase get?_insert get?_insert_self)

def linkTo (c : Nat) (e : Name × Nat) : Nat := if e.2 = c then 1 else 0

namespace AbstFS

def links (fs : AbstFS) (c : Nat) : Nat := fs.objs.total fun e => e.2.entries.total (linkTo c)

def countType (fs : AbstFS) (t : ObjType) : Nat :=
  fs.objs.total fun e => if e.1 ≠ 0 ∧ e.2.type = t then 1 else 0

def Child (fs : AbstFS) (p c : Nat) : Prop :=
  ∃ o name, fs.objs.get? p = some o ∧ o.entries.get? name = some c

abbrev HasRoot (fs : AbstFS) : Prop := ∃ o, fs.objs.get? 0 = some o ∧ o.type = .dir

/-- The objects stand under their ids. -/
abbrev UnderIds (fs : AbstFS) : Prop := ∀ id o, fs.objs.get? id = some o → o.id = id

structure Keyed (fs : AbstFS) : Prop where
  root : fs.HasRoot
  keys : fs.UnderIds

structure Linked (fs : AbstFS) : Prop extends fs.Keyed where
  named : ∀ p c, fs.Child p c → ∃ o, fs.objs.get? c = some o
  below : ∀ id o, fs.objs.get? id = some o → id < fs.id

/-- The object graph with the objects that may be out of reach, and how many more entries than
counted references each object has. -/
structure Graph (fs : AbstFS) (loose : Nat → Prop) (extra : Nat → Int) : Prop
    extends fs.Linked where
  reachable : ∀ id o, fs.objs.get? id = some o → ¬loose id → ReflTransGen fs.Child 0 id
  ref : ∀ id o, fs.objs.get? id = some o → id ≠ 0 → o.ref + extra id = fs.links id
  acyclic : Acyclic fs.Child
  nr : ∀ t, fs.nr t = fs.countType t

theorem links_pos {fs : AbstFS} {c : Nat} : 0 < fs.links c ↔ ∃ p, fs.Child p c := by
  rw [links, SortedMap.total_pos]
  constructor
  · rintro ⟨p, o, hGet, hPos⟩
    obtain ⟨name, id, hEntry, hLink⟩ := SortedMap.total_pos.mp hPos
    rw [linkTo] at hLink
    split at hLink
    case isTrue hEq =>
      change id = c at hEq
      rw [hEq] at hEntry
      exact ⟨p, o, name, hGet, hEntry⟩
    case isFalse => cases hLink
  · rintro ⟨p, o, name, hGet, hEntry⟩
    refine ⟨p, o, hGet, SortedMap.total_pos.mpr ⟨name, c, hEntry, ?_⟩⟩
    rw [linkTo, if_pos rfl]
    exact Nat.one_pos

section Update
variable {fs : AbstFS} {loose : Nat → Prop} {extra : Nat → Int} {p c : Nat} {o o' : Obj}
  {name : Name}

theorem child_update_iff {x y : Nat} : (fs.update p o').Child x y ↔
    if x = p then ∃ name, o'.entries.get? name = some y else fs.Child x y := by
  unfold Child
  simp only [get?_update]
  split_ifs with hEq
  · simp
  · rfl

theorem countType_update (hGet : fs.objs.get? p = some o) (hType : o'.type = o.type) (t : ObjType) :
    (fs.update p o').countType t = fs.countType t := by
  have hTotal := SortedMap.total_insert_old
    (fun e : Nat × Obj => if e.1 ≠ 0 ∧ e.2.type = t then 1 else 0) o' hGet
  simp only [hType] at hTotal
  exact Nat.add_right_cancel hTotal

theorem links_update (o' : Obj) (hGet : fs.objs.get? p = some o) (x : Nat) :
    (fs.update p o').links x + o.entries.total (linkTo x) =
      fs.links x + o'.entries.total (linkTo x) :=
  SortedMap.total_insert_old _ o' hGet

theorem Linked.update (h : fs.Linked) (hGet : fs.objs.get? p = some o) (hType : o'.type = o.type)
    (hId : o'.id = o.id)
    (hNamed : ∀ n c, o'.entries.get? n = some c → ∃ oc, fs.objs.get? c = some oc) :
    (fs.update p o').Linked where
  root := by
    obtain ⟨r, hr, hDir⟩ := h.root
    rw [HasRoot, get?_update]
    split_ifs with hEq
    · subst hEq
      cases hGet.symm.trans hr
      exact ⟨o', rfl, hType.trans hDir⟩
    · exact ⟨r, hr, hDir⟩
  keys x o₁ h₁ := by
    rcases get?_update_cases h₁ with ⟨rfl, rfl⟩ | ⟨_, h₁⟩
    · exact hId.trans (h.keys x o hGet)
    · exact h.keys x o₁ h₁
  named x y hChild := by
    rw [exists_update_iff hGet]
    rw [child_update_iff] at hChild
    split_ifs at hChild
    · obtain ⟨n, hn⟩ := hChild
      exact hNamed n y hn
    · exact h.named x y hChild
  below x o₁ h₁ := by
    obtain ⟨o₂, h₂⟩ := (exists_update_iff hGet x).mp ⟨o₁, h₁⟩
    exact h.below x o₂ h₂

theorem Graph.update (h : fs.Graph loose extra) (hGet : fs.objs.get? p = some o)
    (hType : o'.type = o.type) (hId : o'.id = o.id) {loose' : Nat → Prop} {extra' : Nat → Int}
    (hNamed : ∀ n c, o'.entries.get? n = some c → ∃ oc, fs.objs.get? c = some oc)
    (hReachable : ∀ x o₁, fs.objs.get? x = some o₁ → ¬loose' x →
      ReflTransGen (fs.update p o').Child 0 x)
    (hRef : p ≠ 0 → o'.ref + extra' p = (fs.update p o').links p)
    (hRefs : ∀ x o₁, x ≠ p → fs.objs.get? x = some o₁ → x ≠ 0 →
      o₁.ref + extra' x = (fs.update p o').links x)
    (hAcyclic : Acyclic (fs.update p o').Child) : (fs.update p o').Graph loose' extra' where
  toLinked := h.toLinked.update hGet hType hId hNamed
  reachable x o₁ h₁ hLoose := by
    obtain ⟨o₂, h₂⟩ := (exists_update_iff hGet x).mp ⟨o₁, h₁⟩
    exact hReachable x o₂ h₂ hLoose
  ref x o₁ h₁ hRoot := by
    rcases get?_update_cases h₁ with ⟨rfl, rfl⟩ | ⟨hNe, h₁⟩
    · exact hRef hRoot
    · exact hRefs x o₁ hNe h₁ hRoot
  acyclic := hAcyclic
  nr t := (h.nr t).trans (congrArg Nat.cast (countType_update hGet hType t).symm)

theorem Graph.update_same (h : fs.Graph loose extra) (hGet : fs.objs.get? p = some o)
    (hEntries : o'.entries = o.entries) (hType : o'.type = o.type) (hId : o'.id = o.id)
    {extra' : Nat → Int} (hRef : o'.ref + extra' p = o.ref + extra p)
    (hExtra : ∀ x, x ≠ p → extra' x = extra x) : (fs.update p o').Graph loose extra' := by
  have hChild : (fs.update p o').Child = fs.Child := by
    funext x y
    apply propext
    rw [child_update_iff, hEntries]
    split_ifs with hEq
    · subst hEq
      constructor
      · exact fun ⟨name, hn⟩ => ⟨o, name, hGet, hn⟩
      · rintro ⟨o₁, name, h₁, hn⟩
        cases hGet.symm.trans h₁
        exact ⟨name, hn⟩
    · rfl
  have hLinks : ∀ x, (fs.update p o').links x = fs.links x := by
    intro x
    have hTotal := links_update o' hGet x
    rw [hEntries] at hTotal
    exact Nat.add_right_cancel hTotal
  apply h.update hGet hType hId
  · intro n c hn
    exact h.named p c ⟨o, n, hGet, hEntries ▸ hn⟩
  · rw [hChild]
    exact h.reachable
  · intro hRoot
    rw [hLinks, hRef]
    exact h.ref p o hGet hRoot
  · intro x o₁ hNe h₁ hRoot
    rw [hLinks, hExtra x hNe]
    exact h.ref x o₁ h₁ hRoot
  · rw [hChild]
    exact h.acyclic

theorem Graph.addEntry (h : fs.Graph loose extra) (hGet : fs.objs.get? p = some o)
    (hNew : o.entries.get? name = none) (hc : ∃ oc, fs.objs.get? c = some oc)
    (hNot : ¬ReflTransGen fs.Child c p) (hp : ¬loose p)
    (hEntries : o'.entries = o.entries.insert name c) (hType : o'.type = o.type)
    (hId : o'.id = o.id) (hRef : o'.ref = o.ref) :
    (fs.update p o').Graph (fun x => loose x ∧ x ≠ c)
      fun x => extra x + if x = c then 1 else 0 := by
  have hChild : ∀ x y, (fs.update p o').Child x y ↔ fs.Child x y ∨ x = p ∧ y = c := by
    intro x y
    rw [child_update_iff, hEntries]
    split_ifs with hEq
    · subst hEq
      constructor
      · rintro ⟨n, hn⟩
        rw [get?_insert] at hn
        split_ifs at hn with hName
        · cases hn
          exact .inr ⟨rfl, rfl⟩
        · exact .inl ⟨o, n, hGet, hn⟩
      · rintro (⟨o₁, n, h₁, hn⟩ | ⟨_, rfl⟩)
        · cases hGet.symm.trans h₁
          refine ⟨n, ?_⟩
          rw [SortedMap.get?_insert_of_ne, hn]
          rintro rfl
          cases hNew.symm.trans hn
        · exact ⟨name, get?_insert_self _ _ _⟩
    · simp [hEq]
  have hLinks : ∀ x, (fs.update p o').links x = fs.links x + if x = c then 1 else 0 := by
    intro x
    have hTotal := links_update o' hGet x
    rw [hEntries, SortedMap.total_insert_new _ hNew, linkTo] at hTotal
    simp only [eq_comm (a := c)] at hTotal
    omega
  have hMono : ∀ {x y}, ReflTransGen fs.Child x y → ReflTransGen (fs.update p o').Child x y :=
    fun hPath => ReflTransGen.mono (fun a b hab => (hChild a b).mpr (.inl hab)) _ _ hPath
  apply h.update hGet hType hId
  · intro n x hn
    rw [hEntries, get?_insert] at hn
    split_ifs at hn
    · cases hn
      exact hc
    · exact h.named p x ⟨o, n, hGet, hn⟩
  · intro x o₁ h₁ hLoose
    by_cases hEq : x = c
    · rw [hEq]
      exact (hMono (h.reachable p o hGet hp)).tail ((hChild p c).mpr (.inr ⟨rfl, rfl⟩))
    · exact hMono (h.reachable x o₁ h₁ fun hl => hLoose ⟨hl, hEq⟩)
  · intro hRoot
    rw [hLinks, hRef, ← add_assoc, h.ref p o hGet hRoot]
    split_ifs <;> simp
  · intro x o₁ _ h₁ hRoot
    rw [hLinks, ← add_assoc, h.ref x o₁ h₁ hRoot]
    split_ifs <;> simp
  · exact h.acyclic.add (fun x y hxy => (hChild x y).mp hxy) hNot

theorem Graph.rmEntry (h : fs.Graph (fun _ => False) fun _ => 0) (hGet : fs.objs.get? p = some o)
    (hOld : o.entries.get? name = some c) (hEntries : o'.entries = o.entries.erase name)
    (hType : o'.type = o.type) (hId : o'.id = o.id) (hRef : o'.ref = o.ref) :
    (fs.update p o').Graph (fun x => (fs.update p o').links c = 0 ∧ ReflTransGen fs.Child c x)
      fun x => if x = c then -1 else 0 := by
  have hChild : ∀ x y, fs.Child x y → y ≠ c → (fs.update p o').Child x y := by
    rintro x y ⟨o₁, n, h₁, hn⟩ hNe
    rw [child_update_iff, hEntries]
    split_ifs with hEq
    · subst hEq
      cases hGet.symm.trans h₁
      refine ⟨n, ?_⟩
      rw [SortedMap.get?_erase_of_ne, hn]
      rintro rfl
      exact hNe (Option.some.inj (hn.symm.trans hOld))
    · exact ⟨o₁, n, h₁, hn⟩
  have hSub : ∀ x y, (fs.update p o').Child x y → fs.Child x y := by
    intro x y hxy
    rw [child_update_iff, hEntries] at hxy
    split_ifs at hxy with hEq
    · obtain ⟨n, hn⟩ := hxy
      rw [get?_erase] at hn
      split_ifs at hn
      exact ⟨o, n, hEq ▸ hGet, hn⟩
    · exact hxy
  have hLinks : ∀ x, (fs.update p o').links x + (if x = c then 1 else 0) = fs.links x := by
    intro x
    have hTotal := links_update o' hGet x
    rw [hEntries, ← SortedMap.total_erase_add _ hOld, linkTo] at hTotal
    simp only [eq_comm (a := c)] at hTotal
    omega
  have hCount : ∀ x : Nat, ∀ r : Int, r + 0 = fs.links x →
      r + (if x = c then -1 else 0) = (fs.update p o').links x := by
    intro x r hr
    have hx := hLinks x
    split_ifs at hx ⊢ <;> omega
  apply h.update hGet hType hId
  · intro n x hn
    rw [hEntries, get?_erase] at hn
    split_ifs at hn
    exact h.named p x ⟨o, n, hGet, hn⟩
  · intro x o₁ h₁ hLoose
    have hReach := h.reachable x o₁ h₁ not_false
    by_cases hZero : (fs.update p o').links c = 0
    · exact reach_of_not_reached hChild hReach fun hcx => hLoose ⟨hZero, hcx⟩
    · obtain ⟨q, hq⟩ := links_pos.mp (Nat.pos_of_ne_zero hZero)
      have hqc := hSub q c hq
      obtain ⟨oq, hoq⟩ : ∃ oq, fs.objs.get? q = some oq := by
        obtain ⟨oq, _, hoq, _⟩ := hqc
        exact ⟨oq, hoq⟩
      have hToq := reach_of_not_reached hChild (h.reachable q oq hoq not_false)
        (not_reached_of_edge h.acyclic hqc)
      exact reach_of_still_reached hChild (hToq.tail hq) hReach
  · intro hRoot
    rw [hRef]
    exact hCount p o.ref (h.ref p o hGet hRoot)
  · intro x o₁ _ h₁ hRoot
    exact hCount x o₁.ref (h.ref x o₁ h₁ hRoot)
  · exact h.acyclic.mono hSub

end Update

section Objects
variable {fs fs' : AbstFS} {loose : Nat → Prop} {extra : Nat → Int} {c : Nat} {o : Obj}

structure Extends (fs : AbstFS) (c : Nat) (o : Obj) (fs' : AbstFS) : Prop where
  new : fs.objs.get? c = none
  objs : fs'.objs = fs.objs.insert c o
  empty : o.entries = .empty

namespace Extends

theorem get? (h : fs.Extends c o fs') (x : Nat) :
    fs'.objs.get? x = if x = c then some o else fs.objs.get? x := by
  rw [h.objs, get?_insert]

theorem old (h : fs.Extends c o fs') {x : Nat} {o₁ : Obj} (h₁ : fs.objs.get? x = some o₁) :
    x ≠ c ∧ fs'.objs.get? x = some o₁ := by
  have hNe : x ≠ c := by
    rintro rfl
    cases h.new.symm.trans h₁
  exact ⟨hNe, by rw [h.get?, if_neg hNe, h₁]⟩

theorem cases (h : fs.Extends c o fs') {x : Nat} {o₁ : Obj} (h₁ : fs'.objs.get? x = some o₁) :
    (x = c ∧ o₁ = o) ∨ fs.objs.get? x = some o₁ := by
  rw [h.get?] at h₁
  split_ifs at h₁ with hEq
  · exact .inl ⟨hEq, (Option.some.inj h₁).symm⟩
  · exact .inr h₁

theorem child (h : fs.Extends c o fs') : fs'.Child = fs.Child := by
  funext x y
  apply propext
  unfold Child
  simp only [h.get?]
  split_ifs with hEq
  · subst hEq
    simp [h.empty, h.new]
  · rfl

theorem links (h : fs.Extends c o fs') (x : Nat) : fs'.links x = fs.links x := by
  rw [AbstFS.links, h.objs]
  exact (SortedMap.total_insert_new _ h.new).trans (by simp [h.empty, AbstFS.links])

theorem countType (h : fs.Extends c o fs') (hc : c ≠ 0) (t : ObjType) :
    fs'.countType t = fs.countType t + if t = o.type then 1 else 0 := by
  rw [AbstFS.countType, h.objs]
  refine (SortedMap.total_insert_new _ h.new).trans ?_
  simp only [AbstFS.countType, ne_eq, hc, not_false_eq_true, true_and, eq_comm (a := t)]

end Extends

theorem extends_erase (hGet : fs.objs.get? c = some o) (hEmpty : o.entries = .empty)
    (hObjs : fs'.objs = fs.objs.erase c) : fs'.Extends c o fs := by
  refine ⟨?_, SortedMap.ext_get? fun x => ?_, hEmpty⟩
  · rw [hObjs, get?_erase, if_pos rfl]
  · rw [hObjs, get?_insert, get?_erase]
    split_ifs with hEq
    · rw [hEq, hGet]
    · rfl

theorem nr_addNr (fs : AbstFS) (t : ObjType) (n : Int) (x : ObjType) :
    (fs.addNr t n).nr x = fs.nr x + if x = t then n else 0 := by
  refine (Function.update_apply fs.nr t (fs.nr t + n) x).trans ?_
  split_ifs with hEq
  · rw [hEq]
  · rw [add_zero]

theorem Linked.get?_next (h : fs.Linked) : fs.objs.get? fs.id = none := by
  cases hGet : fs.objs.get? fs.id with
  | none => rfl
  | some o => exact absurd (h.below fs.id o hGet) (lt_irrefl fs.id)

theorem Linked.id_pos (h : fs.Linked) : 0 < fs.id := by
  obtain ⟨r, hr, _⟩ := h.root
  exact h.below 0 r hr

theorem Linked.links_eq_zero (h : fs.Linked) (hGet : fs.objs.get? c = none) : fs.links c = 0 := by
  apply Nat.eq_zero_of_not_pos
  intro hPos
  obtain ⟨p, hChild⟩ := links_pos.mp hPos
  obtain ⟨oc, hoc⟩ := h.named p c hChild
  cases hGet.symm.trans hoc

theorem Linked.addObj (h : fs.Linked) (hExt : fs.Extends fs.id o fs') (hId : o.id = fs.id)
    (hNext : fs'.id = fs.id + 1) : fs'.Linked where
  root := by
    obtain ⟨r, hr, hDir⟩ := h.root
    exact ⟨r, (hExt.old hr).2, hDir⟩
  keys x o₁ h₁ := by
    rcases hExt.cases h₁ with ⟨rfl, rfl⟩ | h₁
    · exact hId
    · exact h.keys x o₁ h₁
  named p c hpc := by
    rw [hExt.child] at hpc
    obtain ⟨oc, hoc⟩ := h.named p c hpc
    exact ⟨oc, (hExt.old hoc).2⟩
  below x o₁ h₁ := by
    rw [hNext, Nat.lt_succ_iff]
    rcases hExt.cases h₁ with ⟨rfl, _⟩ | h₁
    · exact le_rfl
    · exact (h.below x o₁ h₁).le

theorem Linked.eraseObj (h : fs.Linked) (hExt : fs'.Extends c o fs) (hLinks : fs.links c = 0)
    (hRoot : c ≠ 0) (hNext : fs'.id = fs.id) : fs'.Linked where
  root := by
    obtain ⟨r, hr, hDir⟩ := h.root
    obtain ⟨rfl, _⟩ | hr := hExt.cases hr
    · exact absurd rfl hRoot
    · exact ⟨r, hr, hDir⟩
  keys x o₁ h₁ := h.keys x o₁ (hExt.old h₁).2
  named p x hpx := by
    rw [← hExt.child] at hpx
    obtain ⟨ox, hox⟩ := h.named p x hpx
    obtain ⟨rfl, _⟩ | hox := hExt.cases hox
    · exact absurd hLinks (links_pos.mpr ⟨p, hpx⟩).ne'
    · exact ⟨ox, hox⟩
  below x o₁ h₁ := hNext ▸ h.below x o₁ (hExt.old h₁).2

theorem Graph.addObj (h : fs.Graph (fun _ => False) fun _ => 0) (hEntries : o.entries = .empty)
    (hId : o.id = fs.id) (hRef : o.ref = 0) :
    Graph { (fs.addNr o.type 1).update fs.id o with id := fs.id + 1 } (fun x => x = fs.id)
      fun _ => 0 := by
  have hExt : fs.Extends fs.id o { (fs.addNr o.type 1).update fs.id o with id := fs.id + 1 } :=
    ⟨h.get?_next, rfl, hEntries⟩
  refine ⟨h.toLinked.addObj hExt hId rfl, ?_, ?_, ?_, ?_⟩
  · intro x o₁ h₁ hLoose
    rw [hExt.child]
    rcases hExt.cases h₁ with ⟨rfl, _⟩ | h₁
    · exact absurd rfl hLoose
    · exact h.reachable x o₁ h₁ not_false
  · intro x o₁ h₁ hRoot
    rw [hExt.links]
    rcases hExt.cases h₁ with ⟨rfl, rfl⟩ | h₁
    · rw [hRef, h.links_eq_zero hExt.new]
      rfl
    · exact h.ref x o₁ h₁ hRoot
  · rw [hExt.child]
    exact h.acyclic
  · intro t
    refine (nr_addNr fs o.type 1 t).trans ?_
    rw [hExt.countType h.id_pos.ne', h.nr t]
    split_ifs <;> simp

theorem Graph.eraseObj (h : fs.Graph loose fun _ => 0) (hLoose : ∀ x, loose x → x = c)
    (hGet : fs.objs.get? c = some o) (hEntries : o.entries = .empty) (hLinks : fs.links c = 0)
    (hRoot : c ≠ 0) :
    Graph { fs.addNr o.type (-1) with objs := fs.objs.erase c } (fun _ => False) fun _ => 0 := by
  have hExt : Extends { fs.addNr o.type (-1) with objs := fs.objs.erase c } c o fs :=
    extends_erase hGet hEntries rfl
  refine ⟨h.toLinked.eraseObj hExt hLinks hRoot rfl, ?_, ?_, ?_, ?_⟩
  · intro x o₁ h₁ _
    obtain ⟨hNe, h₁⟩ := hExt.old h₁
    rw [← hExt.child]
    exact h.reachable x o₁ h₁ fun hx => hNe (hLoose x hx)
  · intro x o₁ h₁ hx
    rw [← hExt.links]
    exact h.ref x o₁ (hExt.old h₁).2 hx
  · rw [← hExt.child]
    exact h.acyclic
  · intro t
    refine (nr_addNr fs o.type (-1) t).trans ?_
    rw [h.nr t, hExt.countType hRoot]
    split_ifs <;> simp

section Root
variable (hObjs : fs.objs = SortedMap.empty.insert 0 o)
include hObjs

theorem eq_of_get?_root {x : Nat} {o₁ : Obj} (h₁ : fs.objs.get? x = some o₁) : x = 0 ∧ o₁ = o := by
  rw [hObjs, get?_insert] at h₁
  split_ifs at h₁ with hEq
  · exact ⟨hEq, (Option.some.inj h₁).symm⟩
  · cases h₁

theorem not_child_root (hEntries : o.entries = .empty) (p c : Nat) : ¬fs.Child p c := by
  rintro ⟨o₁, n, h₁, hn⟩
  rw [(eq_of_get?_root hObjs h₁).2, hEntries] at hn
  cases hn

theorem linked_root (hEntries : o.entries = .empty) (hDir : o.type = .dir) (hId : o.id = 0)
    (hNext : 0 < fs.id) : fs.Linked where
  root := ⟨o, hObjs ▸ get?_insert_self _ _ _, hDir⟩
  keys x o₁ h₁ := by
    obtain ⟨rfl, rfl⟩ := eq_of_get?_root hObjs h₁
    exact hId
  named p c h := absurd h (not_child_root hObjs hEntries p c)
  below x o₁ h₁ := (eq_of_get?_root hObjs h₁).1 ▸ hNext

end Root

end Objects

end AbstFS

end Explode.Driver
