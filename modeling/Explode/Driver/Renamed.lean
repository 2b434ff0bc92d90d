import Explode.Driver.CanonMetadata
import Explode.Driver.Entries

/-!
# File systems under other ids

A renaming gives each object another id and puts the new ids into the entries
and the parents. It keeps the ways between the objects, so the walks over both
file systems visit corresponding objects and end alike.
-/

namespace Explode.Driver

open Relation Loop RootedGraph
open SortedMap (get?_eq_some get?_mapVal)

def Body.rename (f : Nat → Nat) : Body → Body
  | .file data => .file data
  | .dir d => .dir ⟨d.entries.mapVal f, d.paren.map f⟩
  | .symLink path => .symLink path

def Obj.rename (f : Nat → Nat) (o : Obj) : Obj :=
  { o with id := f o.id, body := o.body.rename f }

section Rename
variable (f : Nat → Nat) (o : Obj)

@[simp]
theorem Obj.id_rename : (o.rename f).id = f o.id := rfl

@[simp]
theorem Obj.ref_rename : (o.rename f).ref = o.ref := rfl

@[simp]
theorem Obj.type_rename : (o.rename f).type = o.type := by
  obtain ⟨id, ref, mode, body⟩ := o
  cases body <;> rfl

@[simp]
theorem Obj.target_rename : (o.rename f).target = o.target := by
  obtain ⟨id, ref, mode, body⟩ := o
  cases body <;> rfl

@[simp]
theorem Obj.file?_rename : (o.rename f).file? = o.file? := by
  obtain ⟨id, ref, mode, body⟩ := o
  cases body <;> rfl

@[simp]
theorem Obj.entries_rename : (o.rename f).entries = o.entries.mapVal f := by
  obtain ⟨id, ref, mode, body⟩ := o
  cases body <;> rfl

theorem Obj.rename_rename (g : Nat → Nat) : (o.rename f).rename g = o.rename fun x => g (f x) := by
  obtain ⟨id, ref, mode, body⟩ := o
  cases body with
  | file data => rfl
  | symLink path => rfl
  | dir d =>
    simp only [Obj.rename, Body.rename, SortedMap.mapVal_mapVal, Option.map_map]
    rfl

end Rename

namespace AbstFS

def Live (fs : AbstFS) (x : Nat) : Prop := (fs.objs.get? x).isSome

/-- The file systems are equal up to the ids of their objects. An id without an object, as a parent
can have, has none under its new name either. -/
structure Renamed (f : Nat → Nat) (fs fs' : AbstFS) : Prop where
  root : f 0 = 0
  inj : ∀ x y, fs.Live x → fs.Live y → f x = f y → x = y
  objs : ∀ x o, fs.objs.get? x = some o → fs'.objs.get? (f x) = some (o.rename f)
  onto : ∀ y, fs'.Live y → ∃ x, fs.Live x ∧ f x = y
  gone : ∀ x, ¬fs.Live x → ¬fs'.Live (f x)
  rest : { fs' with id := fs.id, objs := fs.objs } = fs

/-- The objects are sound, and all of them are in reach. -/
structure Rooted (fs : AbstFS) : Prop extends fs.Sound where
  reach : ∀ x, fs.Live x → fs.Reach x

section
variable {f : Nat → Nat} {fs fs' : AbstFS} {x y : Nat}

theorem live_iff : fs.Live x ↔ ∃ o, fs.objs.get? x = some o := Option.isSome_iff_exists

theorem Sound.live (h : fs.Sound) (hx : fs.Reach x) : fs.Live x := by
  obtain ⟨o, ho, _⟩ := h.get?_of_reach hx
  exact live_iff.mpr ⟨o, ho⟩

theorem WellFormed.rooted (h : fs.WellFormed) : fs.Rooted where
  toSound := h.sound
  reach x hx := by
    obtain ⟨o, ho⟩ := live_iff.mp hx
    exact h.reachable x o ho not_false

theorem Rooted.live_iff_reach (h : fs.Rooted) : fs.Live x ↔ fs.Reach x :=
  ⟨h.reach x, h.toSound.live⟩

theorem Rooted.live_child (h : fs.Rooted) (hChild : fs.Child x y) : fs.Live y := by
  obtain ⟨o, n, ho, hn⟩ := hChild
  exact live_iff.mpr (h.named x y (h.reach x (live_iff.mpr ⟨o, ho⟩)) ⟨o, n, ho, hn⟩)

namespace Renamed

section
variable (h : Renamed f fs fs')
include h

theorem live (hx : fs.Live x) : fs'.Live (f x) := by
  obtain ⟨o, ho⟩ := live_iff.mp hx
  exact live_iff.mpr ⟨_, h.objs x o ho⟩

theorem child (hEdge : fs.Child x y) : fs'.Child (f x) (f y) := by
  obtain ⟨o, n, ho, hn⟩ := hEdge
  refine ⟨o.rename f, n, h.objs x o ho, ?_⟩
  rw [Obj.entries_rename, get?_mapVal, hn]
  rfl

theorem child_back {y' : Nat} (hx : fs.Live x)
    (hEdge : fs'.Child (f x) y') : ∃ y, fs.Child x y ∧ f y = y' := by
  obtain ⟨o, ho⟩ := live_iff.mp hx
  obtain ⟨o', n, ho', hn⟩ := hEdge
  cases (h.objs x o ho).symm.trans ho'
  rw [Obj.entries_rename, get?_mapVal] at hn
  obtain ⟨y, hy, rfl⟩ := Option.map_eq_some_iff.mp hn
  exact ⟨y, ⟨o, n, ho, hy⟩, rfl⟩

theorem reach (hx : fs.Reach x) : fs'.Reach (f x) := by
  induction hx with
  | refl =>
    rw [h.root]
    exact .refl
  | tail _ hEdge ih => exact ih.tail (h.child hEdge)

theorem reach_back (hSound : fs.Sound) {y' : Nat} (hy : fs'.Reach y') :
    ∃ y, fs.Reach y ∧ f y = y' := by
  induction hy with
  | refl => exact ⟨0, .refl, h.root⟩
  | tail _ hEdge ih =>
    obtain ⟨x, hx, rfl⟩ := ih
    obtain ⟨y, hChild, rfl⟩ := h.child_back (hSound.live hx) hEdge
    exact ⟨y, hx.tail hChild, rfl⟩

theorem way_back (hRooted : fs.Rooted) (hx : fs.Live x) {y' : Nat}
    (hWay : TransGen fs'.Child (f x) y') : ∃ y, fs.Live y ∧ f y = y' ∧ TransGen fs.Child x y := by
  induction hWay with
  | single hEdge =>
    obtain ⟨y, hChild, rfl⟩ := h.child_back hx hEdge
    exact ⟨y, hRooted.live_child hChild, rfl, .single hChild⟩
  | tail _ hEdge ih =>
    obtain ⟨y, hy, rfl, hWay⟩ := ih
    obtain ⟨z, hChild, rfl⟩ := h.child_back hy hEdge
    exact ⟨z, hRooted.live_child hChild, rfl, hWay.tail hChild⟩

theorem get?_back {o' : Obj} (ho' : fs'.objs.get? y = some o') :
    ∃ x o, fs.objs.get? x = some o ∧ f x = y ∧ o' = o.rename f := by
  obtain ⟨x, hx, rfl⟩ := h.onto y (live_iff.mpr ⟨o', ho'⟩)
  obtain ⟨o, ho⟩ := live_iff.mp hx
  exact ⟨x, o, ho, rfl, Option.some.inj (ho'.symm.trans (h.objs x o ho))⟩

theorem keyed (hKeyed : fs.Keyed) : fs'.Keyed where
  root := by
    obtain ⟨r, hr, hType⟩ := hKeyed.root
    refine ⟨r.rename f, ?_, (r.type_rename f).trans hType⟩
    rw [← h.objs 0 r hr, h.root]
  keys y o' ho' := by
    obtain ⟨x, o, ho, rfl, rfl⟩ := h.get?_back ho'
    rw [Obj.id_rename, hKeyed.keys x o ho]

theorem rooted (hRooted : fs.Rooted) : fs'.Rooted where
  toKeyed := h.keyed hRooted.toKeyed
  named := by
    intro p' c' hReach hEdge
    obtain ⟨p, hp, rfl⟩ := h.reach_back hRooted.toSound hReach
    obtain ⟨c, hChild, rfl⟩ := h.child_back (hRooted.toSound.live hp) hEdge
    exact live_iff.mp (h.live (hRooted.live_child hChild))
  acyclic := by
    intro x' hReach hCircle
    obtain ⟨x, hx, rfl⟩ := h.reach_back hRooted.toSound hReach
    have hLive := hRooted.toSound.live hx
    obtain ⟨y, hy, hSame, hWay⟩ := h.way_back hRooted hLive hCircle
    cases h.inj y x hy hLive hSame
    exact hRooted.acyclic x hx hWay
  reach := by
    intro y hy
    obtain ⟨x, hx, rfl⟩ := h.onto y hy
    exact h.reach (hRooted.reach x hx)

theorem iso (hRooted : fs.Rooted) : fs.Iso fs' f where
  root := h.root
  bij := by
    refine ⟨fun x hx => h.reach hx, ?_, fun y hy => h.reach_back hRooted.toSound hy⟩
    intro x hx y hy hEq
    exact h.inj x y (hRooted.toSound.live hx) (hRooted.toSound.live hy) hEq
  objs := by
    intro x o _ ho
    refine ⟨o.rename f, h.objs x o ho, o.type_rename f, rfl, rfl, o.target_rename f, ?_⟩
    intro name
    rw [Obj.entries_rename, get?_mapVal]

theorem getEntry_back {p' c' : Nat} {name : Name} (hEntry : fs'.getEntry p' name = some c') :
    ∃ p c, fs.getEntry p name = some c ∧ f p = p' ∧ f c = c' := by
  obtain ⟨o', ho', hn⟩ := getEntry_eq_some.mp hEntry
  obtain ⟨p, hp, rfl⟩ := h.onto p' (live_iff.mpr ⟨o', ho'⟩)
  obtain ⟨o, ho⟩ := live_iff.mp hp
  cases (h.objs p o ho).symm.trans ho'
  rw [Obj.entries_rename, get?_mapVal] at hn
  obtain ⟨c, hc, rfl⟩ := Option.map_eq_some_iff.mp hn
  exact ⟨p, c, getEntry_eq_some.mpr ⟨o, ho, hc⟩, rfl, rfl⟩

theorem entries_perm :
    fs'.objs.entries.Perm (fs.objs.entries.map fun e => (f e.1, e.2.rename f)) := by
  have hNodup : ∀ m : SortedMap Nat Obj, m.entries.Nodup := fun m =>
    m.sorted.imp fun hLt hEq => absurd (congrArg Prod.fst hEq) hLt.ne
  have hNew : (fs.objs.entries.map fun e => (f e.1, e.2.rename f)).Nodup := by
    refine (hNodup fs.objs).map_on ?_
    rintro ⟨x, o⟩ he ⟨y, o₁⟩ he₁ hEq
    have ho := get?_eq_some.mpr he
    have ho₁ := get?_eq_some.mpr he₁
    obtain rfl := h.inj x y (live_iff.mpr ⟨o, ho⟩) (live_iff.mpr ⟨o₁, ho₁⟩) (Prod.mk.inj hEq).1
    cases ho.symm.trans ho₁
    rfl
  rw [List.perm_ext_iff_of_nodup (hNodup fs'.objs) hNew]
  rintro ⟨y, o'⟩
  rw [← get?_eq_some, List.mem_map]
  constructor
  · intro ho'
    obtain ⟨x, hx, rfl⟩ := h.onto y (live_iff.mpr ⟨o', ho'⟩)
    obtain ⟨o, ho⟩ := live_iff.mp hx
    cases (h.objs x o ho).symm.trans ho'
    exact ⟨(x, o), get?_eq_some.mp ho, rfl⟩
  · rintro ⟨e, he, hEq⟩
    cases hEq
    exact h.objs e.1 e.2 (get?_eq_some.mpr he)

theorem links_eq (hNamed : ∀ p c, fs.Child p c → fs.Live c)
    (hx : fs.Live x) : fs'.links (f x) = fs.links x := by
  rw [links, SortedMap.total, (h.entries_perm.map _).sum_eq, List.map_map, links, SortedMap.total]
  congr 1
  apply List.map_congr_left
  intro e he
  have ho := get?_eq_some.mpr he
  simp only [Function.comp, Obj.entries_rename, SortedMap.total_mapVal]
  rw [SortedMap.total, SortedMap.total]
  congr 1
  apply List.map_congr_left
  intro n hn
  have hLive := hNamed e.1 n.2 ⟨e.2, n.1, ho, get?_eq_some.mpr hn⟩
  have hSame : f n.2 = f x ↔ n.2 = x := ⟨h.inj n.2 x hLive hx, congrArg f⟩
  simp only [linkTo, hSame]

theorem formed (hNamed : ∀ p c, fs.Child p c → fs.Live c)
    (hRoot : fs.Live 0) {o : Obj} (ho : fs.objs.get? x = some o) (hForm : o.Formed) :
    (o.rename f).Formed := by
  have hEntries : ∀ name c, o.entries.get? name = some c → f c ≠ 0 := by
    intro name c hc hZero
    have hLive := hNamed x c ⟨o, name, ho, hc⟩
    exact (formed_entry hForm hc).2 (h.inj c 0 hLive hRoot (hZero.trans h.root.symm))
  clear ho
  obtain ⟨id, ref, mode, body⟩ := o
  cases body with
  | file data => exact hForm
  | symLink path => exact hForm
  | dir d =>
    intro name c' hc'
    change (d.entries.mapVal f).get? name = some c' at hc'
    rw [get?_mapVal] at hc'
    obtain ⟨c, hc, rfl⟩ := Option.map_eq_some_iff.mp hc'
    exact ⟨(hForm name c hc).1, hEntries name c hc⟩

theorem consistent (hConsistent : fs.Consistent fun _ => 0)
    (hNext : ∀ y, fs'.Live y → y < fs'.id) : fs'.Consistent fun _ => 0 := by
  have hNamed : ∀ p c, fs.Child p c → fs.Live c := fun p c hChild =>
    live_iff.mpr (hConsistent.named p c hChild)
  refine ⟨⟨h.keyed hConsistent.toKeyed, ?_, ?_⟩, ?_, ?_⟩
  · rintro p' c' hEdge
    obtain ⟨name, hEntry⟩ := child_iff_getEntry.mp hEdge
    obtain ⟨p, c, hOldEntry, _, rfl⟩ := h.getEntry_back hEntry
    exact live_iff.mp (h.live (hNamed p c (child_iff_getEntry.mpr ⟨name, hOldEntry⟩)))
  · exact fun y o' ho' => hNext y (live_iff.mpr ⟨o', ho'⟩)
  · intro y o' ho'
    obtain ⟨x, o, ho, rfl, rfl⟩ := h.get?_back ho'
    obtain ⟨r, hr, _⟩ := hConsistent.root
    exact h.formed hNamed (live_iff.mpr ⟨r, hr⟩) ho (hConsistent.formed x o ho)
  · intro y o' ho'
    obtain ⟨x, o, ho, rfl, rfl⟩ := h.get?_back ho'
    rw [Obj.ref_rename, h.links_eq hNamed (live_iff.mpr ⟨o, ho⟩)]
    exact hConsistent.ref x o ho

end

end Renamed

theorem Iso.walked_map (h : fs.Sound) (h' : fs'.Sound) (hIso : fs.Iso fs' f) {seen : List Nat}
    (hWalked : fs.Walked seen) : fs'.Walked (seen.map f) := by
  have hWalks := hIso.walks h h'
  rw [hWalked.walk] at hWalks
  cases hWalk' : fs'.dfs firstVisits [] with
  | error e =>
    rw [hWalk'] at hWalks
    cases hWalks
  | ok r =>
    obtain ⟨status, seen'⟩ := r
    rw [hWalk'] at hWalks
    obtain ⟨hStatus, hSeen, _⟩ := hWalks
    obtain rfl : .cont = status := hStatus
    obtain rfl : seen' = seen.map f := hSeen
    constructor
    · exact hWalk'
    · exact hWalked.nodup.map_on fun x hx y hy hEq =>
        hIso.bij.injOn ((hWalked.mem x).mp hx) ((hWalked.mem y).mp hy) hEq
    · have hFirst := hWalked.first.map f
      rwa [List.map_singleton, hIso.root] at hFirst
    · intro y
      rw [List.mem_map]
      constructor
      · rintro ⟨x, hx, rfl⟩
        exact hIso.bij.mapsTo ((hWalked.mem x).mp hx)
      · intro hy
        obtain ⟨x, hx, rfl⟩ := hIso.bij.surjOn hy
        exact ⟨x, (hWalked.mem x).mpr hx, rfl⟩

theorem Iso.short (h : fs.Sound) (hIso : fs.Iso fs' f) {levels : Nat} (hx : fs.Reach x)
    (hShort : Short fs.Child levels x) : Short fs'.Child levels (f x) := by
  induction levels generalizing x with
  | zero => exact hShort
  | succ levels ih =>
    rintro y' ⟨o', name, ho', hEntry⟩
    obtain ⟨o, ho, _⟩ := h.get?_of_reach hx
    obtain ⟨_, hSome, -, -, -, -, hEntries⟩ := hIso.objs x o hx ho
    cases hSome.symm.trans ho'
    rw [hEntries] at hEntry
    obtain ⟨y, hy, rfl⟩ := Option.map_eq_some_iff.mp hEntry
    have hChild : fs.Child x y := ⟨o, name, ho, hy⟩
    exact ih (hx.tail hChild) (hShort y hChild)

theorem Iso.internalCheck (h : fs.Sound) (h' : fs'.Sound) (hIso : fs.Iso fs' f)
    (hCheck : fs.internalCheck = .ok ()) : fs'.internalCheck = .ok () := by
  have hShort := hIso.short h .refl (short_of_internalCheck hCheck)
  rw [hIso.root] at hShort
  exact internalCheck_ok h'.keys hShort

end

end AbstFS

end Explode.Driver
