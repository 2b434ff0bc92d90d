import Explode.Driver.Walks

/-!
# Parent pointers

Only `mkdir` sets the parent of a directory. A rename into another directory
leaves the old parent, and a copy has no parents at all.
-/

namespace Explode.Driver

open Relation RootedGraph Loop

def Obj.paren? (o : Obj) : Option (Option Nat) := o.dir?.map DirObj.paren

theorem Obj.paren?_of_bare {o o' : Obj} (h : o'.bare = o.bare) : o'.paren? = o.paren? := by
  have hParen : ∀ o : Obj, o.bare.paren? = o.paren? := by
    intro o
    cases hBody : o.body <;> simp [bare, setEntries, paren?, dir?, hBody]
  rw [← hParen, h, hParen]

theorem Obj.paren?_setEntries (o : Obj) (entries : SortedMap Name Nat) :
    (o.setEntries entries).paren? = o.paren? :=
  paren?_of_bare (bare_setEntries o entries)

theorem Obj.paren?_isSome {o : Obj} : o.paren?.isSome ↔ o.type = .dir := by
  cases hBody : o.body <;> simp [paren?, dir?, type, Body.type, hBody]

namespace AbstFS

section
variable {fs fs' : AbstFS}

def parenOf (fs : AbstFS) (x : Nat) : Option (Option Nat) := (fs.objs.get? x).bind Obj.paren?

/-- Every parent pointer but the root's names a directory with the object in it. -/
structure Parented (fs : AbstFS) : Prop where
  root : fs.parenOf 0 = some none
  parent : ∀ x a, x ≠ 0 → fs.parenOf x = some a → ∃ p, a = some p ∧ fs.Child p x

def RootOnly (fs : AbstFS) : Prop := ∀ e ∈ fs.objs.entries, e.2.type = .dir → e.1 = 0

instance (fs : AbstFS) : Decidable fs.RootOnly :=
  inferInstanceAs (Decidable (∀ e ∈ fs.objs.entries, _))

theorem parenOf_eq_some {x : Nat} {a : Option Nat} :
    fs.parenOf x = some a ↔ ∃ o, fs.objs.get? x = some o ∧ o.paren? = some a :=
  Option.bind_eq_some_iff

theorem Parented.of_frame (h : fs.Parented) (hRoot : fs'.HasRoot)
    (hParen : ∀ x a, fs'.parenOf x = some a →
      fs.parenOf x = some a ∨ x ≠ 0 ∧ ∃ p, a = some p ∧ fs'.Child p x)
    (hEntry : ∀ p n x a, fs.getEntry p n = some x → fs'.parenOf x = some a →
      ∃ m, fs'.getEntry p m = some x) : fs'.Parented := by
  constructor
  · obtain ⟨o, ho, hDir⟩ := hRoot
    obtain ⟨a, ha⟩ := Option.isSome_iff_exists.mp (Obj.paren?_isSome.mpr hDir)
    have hSome := parenOf_eq_some.mpr ⟨o, ho, ha⟩
    rcases hParen 0 a hSome with hOld | ⟨hNe, -⟩
    · exact (hSome.trans hOld.symm).trans h.root
    · exact absurd rfl hNe
  · intro x a hx ha
    rcases hParen x a ha with hOld | ⟨-, hNew⟩
    · obtain ⟨p, rfl, hChild⟩ := h.parent x a hx hOld
      obtain ⟨n, hn⟩ := child_iff_getEntry.mp hChild
      exact ⟨p, rfl, child_iff_getEntry.mpr (hEntry p n x _ hn ha)⟩
    · exact hNew

theorem Sets.parenOf {p : Nat} {name : Name} {child : Option Nat} (h : fs.Sets p name child fs')
    {x : Nat} {a : Option Nat} (ha : fs'.parenOf x = some a) : fs.parenOf x = some a := by
  obtain ⟨o', ho', hParen⟩ := parenOf_eq_some.mp ha
  obtain ⟨o, ho, hBare⟩ := h.within x o' ho'
  exact parenOf_eq_some.mpr ⟨o, ho, (Obj.paren?_of_bare hBare).symm.trans hParen⟩

theorem not_dir_of_parenOf {x : Nat} {o : Obj} (ho : fs.objs.get? x = some o)
    (hType : o.type ≠ .dir) (a : Option Nat) : fs.parenOf x ≠ some a := by
  intro ha
  obtain ⟨o', ho', hParen⟩ := parenOf_eq_some.mp ha
  cases ho.symm.trans ho'
  exact hType (Obj.paren?_isSome.mp (by rw [hParen]; rfl))

theorem linkObj_parented (h : fs.Parented) {p c : Nat} {name : Name} (hRoot : fs'.HasRoot)
    (hLink : fs.linkObj p c name = .ok fs') : fs'.Parented := by
  obtain ⟨hNone, -, hSets⟩ := linkObj_sets hLink
  refine h.of_frame hRoot (fun x a ha => .inl (hSets.parenOf ha)) ?_
  intro q n x a hEntry _
  refine ⟨n, ?_⟩
  rw [hSets.entries, if_neg, hEntry]
  rintro ⟨⟩
  cases hNone.symm.trans hEntry

theorem Attaches.parenOf {o : Obj} {p : Nat} {name : Name} (h : fs.Attaches o p name fs') {x : Nat}
    {a : Option Nat} (ha : fs'.parenOf x = some a) :
    x = fs.id ∧ o.paren? = some a ∨ fs.parenOf x = some a := by
  obtain ⟨o', ho', hParen⟩ := parenOf_eq_some.mp ha
  obtain ⟨hx, hBare⟩ | ⟨o₁, h₁, hBare⟩ := h.within x o' ho'
  · exact .inl ⟨hx, (Obj.paren?_of_bare hBare).symm.trans hParen⟩
  · exact .inr (parenOf_eq_some.mpr ⟨o₁, h₁, (Obj.paren?_of_bare hBare).symm.trans hParen⟩)

theorem Attaches.kept {o : Obj} {p : Nat} {name : Name} (h : fs.Attaches o p name fs') {q x : Nat}
    {n : Name} (hEntry : fs.getEntry q n = some x) : fs'.getEntry q n = some x := by
  rw [h.entries, if_neg, hEntry]
  rintro ⟨⟩
  cases h.free.symm.trans hEntry

theorem attach_parented (h : fs.Parented) {o : Obj} (hType : o.type ≠ .dir) {p : Nat} {name : Name}
    (hRoot : fs'.HasRoot) (hAttach : fs.Attaches o p name fs') : fs'.Parented := by
  refine h.of_frame hRoot ?_ fun q n x _ hEntry _ => ⟨n, hAttach.kept hEntry⟩
  intro x a ha
  obtain ⟨_, hNew⟩ | hOld := hAttach.parenOf ha
  · exact absurd (Obj.paren?_isSome.mp (by rw [hNew]; rfl)) hType
  · exact .inl hOld

theorem mkdir_parented (h : fs.Parented) (hNext : fs.objs.get? fs.id = none) {path : CString}
    {mode : Nat} (hRoot : fs'.HasRoot) (hCall : fs.mkdir path mode = .ok fs') : fs'.Parented := by
  obtain ⟨nd, fs₁, o, _, hAttach, hGet, rfl⟩ := mkdir_attaches hNext hCall
  have hEntries := getEntry_same hGet
    (show Obj.entries { o with body := .dir ⟨o.entries, some nd.1⟩ } = o.entries from rfl)
  refine h.of_frame hRoot (fun x a ha => ?_) fun q n x _ hx _ => ⟨n, by
    rw [hEntries, hAttach.kept hx]⟩
  rw [parenOf, get?_update] at ha
  split_ifs at ha with hNew
  · cases ha
    have hZero : 0 ≠ fs.id := by
      intro hEq
      obtain ⟨r, hr, -⟩ := parenOf_eq_some.mp h.root
      rw [hEq, hNext] at hr
      cases hr
    refine .inr ⟨hNew ▸ hZero.symm, nd.1, rfl, child_iff_getEntry.mpr ⟨nd.2, ?_⟩⟩
    rw [hEntries, hNew, hAttach.entries, if_pos rfl]
  · obtain ⟨hx, _⟩ | hOld := hAttach.parenOf ha
    · exact absurd hx hNew
    · exact .inl hOld

theorem unlinkObj_parented (h : fs.Parented) (hKeys : fs.UnderIds) {p c : Nat} {name : Name}
    (hRoot : fs'.HasRoot) (hOld : fs.getEntry p name = some c) (hGone : fs'.parenOf c = none)
    (hUnlink : fs.unlinkObj p name = .ok fs') : fs'.Parented := by
  obtain ⟨-, hSets⟩ := unlinkObj_sets hKeys hUnlink
  refine h.of_frame hRoot (fun x a ha => .inl (hSets.parenOf ha)) ?_
  intro q n x a hEntry ha
  refine ⟨n, ?_⟩
  rw [hSets.entries, if_neg, hEntry]
  rintro ⟨⟩
  cases hOld.symm.trans hEntry
  cases hGone.symm.trans ha

def SameDir (fs : AbstFS) : FsOp → Prop
  | .rename oldpath newpath => ∀ old new c a, fs.findPath oldpath parentNameiInit = .ok old →
    fs.findPath newpath parentNameiInit = .ok new → fs.getEntry old.1 old.2 = some c →
    fs.parenOf c = some a → new.1 = old.1
  | _ => True

theorem rename_parented (h : fs.Parented) (hKeys : fs.UnderIds)
    {oldpath newpath : CString} (hRoot : fs'.HasRoot)
    (hSame : fs.SameDir (.rename oldpath newpath)) (hCall : fs.rename oldpath newpath = .ok fs') :
    fs'.Parented := by
  obtain ⟨⟨p₀, n₀⟩, ⟨q₀, m₀⟩, c, fs₁, hOld, hNew, hEntry, hNone, -, hLinked, hUnlinked⟩ :=
    rename_sets hKeys hCall
  have hParen : ∀ x a, fs'.parenOf x = some a → fs.parenOf x = some a :=
    fun x a ha => hLinked.parenOf (hUnlinked.parenOf ha)
  have hNe : ∀ {p n x}, fs.getEntry p n = some x → (q₀, m₀) ≠ (p, n) := by
    rintro _ _ _ hx ⟨⟩
    cases hNone.symm.trans hx
  refine h.of_frame hRoot (fun x a ha => .inl (hParen x a ha)) ?_
  intro p n x a hx ha
  by_cases hAt : (p, n) = (p₀, n₀)
  · -- the new name stands for the old one
    cases hAt
    cases hEntry.symm.trans hx
    obtain rfl : q₀ = p₀ := hSame _ _ c a hOld hNew hEntry (hParen c a ha)
    refine ⟨m₀, ?_⟩
    rw [hUnlinked.entries, if_neg (hNe hEntry), hLinked.entries, if_pos rfl]
  · refine ⟨n, ?_⟩
    rw [hUnlinked.entries, if_neg hAt, hLinked.entries, if_neg (hNe hx).symm, hx]

theorem onFile_parented (h : fs.Parented) {path : CString} {call : FileCall} (hRoot : fs'.HasRoot)
    (hCall : fs.onFile path call = .ok fs') : fs'.Parented := by
  obtain ⟨nd, o, f, f', _, hGet, hBody, _, rfl⟩ := onFile_ok hCall
  refine h.of_frame hRoot ?_ fun q n x _ hx _ => ⟨n, ?_⟩
  · intro x a ha
    rw [parenOf, get?_update] at ha
    split_ifs at ha
    · cases ha
    · exact .inl ha
  · rw [getEntry_same hGet (entries_setFile hBody f'), hx]

theorem rmdir_gone (h : fs.WellFormed) {p c : Nat} {name : Name} {op oc : Obj}
    (hp : fs.objs.get? p = some op) (hDir : op.type = .dir) (hOld : op.entries.get? name = some c)
    (hc : fs.objs.get? c = some oc) (hcDir : oc.type = .dir) (hEmpty : oc.entries = .empty)
    (hUnlink : fs.unlinkObj p name = .ok fs') : fs'.objs.get? c = none := by
  have hRoot := h.child_ne_zero not_false ⟨op, name, hp, hOld⟩
  have hReturns := unlinkObj_graph h.toGraph hp hDir hOld (by
    intro o₁ h₁ _
    cases hc.symm.trans h₁
    exact hEmpty)
  rw [hUnlink] at hReturns
  obtain ⟨hGraph, hRecounts⟩ := hReturns
  apply Option.eq_none_iff_forall_ne_some.mpr
  intro o' ho'
  obtain ⟨o, ho, -, hRef⟩ := hRecounts c o' ho'
  have hPos := hGraph.ref_pos ho' hRoot
  have hOne := h.dirs c o ho hRoot (by cases hc.symm.trans ho; exact hcDir)
  simp only [if_true] at hRef
  omega

variable [Hashes]

theorem apply_parented (hFormed : fs.WellFormed) (h : fs.Parented) {op : FsOp}
    (hDriven : fs.Driven op) (hSame : fs.SameDir op)
    (hCall : fs.apply op = .ok fs') : fs'.Parented := by
  have hReturns := apply_wellFormed hFormed op hDriven
  rw [hCall] at hReturns
  have hRoot := hReturns.root
  have hKeys : fs.UnderIds :=
    fun id o ho => hFormed.keys id o ho
  have hNext := hFormed.get?_next
  cases op with
  | creat path mode =>
    obtain ⟨nd, -, hAttach⟩ := creat_attaches hNext hCall
    exact attach_parented h (by simp [newFile, Obj.type, Body.type]) hRoot hAttach
  | mkdir path mode => exact mkdir_parented h hNext hRoot hCall
  | symlink oldpath newpath =>
    obtain ⟨nd, -, hAttach⟩ := symlink_attaches hNext hCall
    exact attach_parented h (by simp [Obj.type, Body.type]) hRoot hAttach
  | link oldpath newpath =>
    obtain ⟨nd, -, hCall⟩ := bind_eq_ok hCall
    obtain ⟨ndNew, -, hLink⟩ := bind_eq_ok hCall
    exact linkObj_parented h hRoot hLink
  | unlink path =>
    obtain ⟨c, oc, ⟨p, name, o, hPath, hp, -, hOld, hc⟩, hType⟩ := hDriven
    obtain ⟨nd, hFind, hUnlink⟩ := bind_eq_ok hCall
    cases hPath.symm.trans hFind
    have hEntry := getEntry_eq_some.mpr ⟨o, hp, hOld⟩
    refine unlinkObj_parented h hKeys hRoot hEntry ?_ hUnlink
    apply Option.eq_none_iff_forall_ne_some.mpr
    intro a ha
    exact not_dir_of_parenOf hc hType a ((unlinkObj_sets hKeys hUnlink).2.parenOf ha)
  | rmdir path =>
    obtain ⟨c, oc, ⟨p, name, o, hPath, hp, hDir, hOld, hc⟩, hcDir, hEmpty⟩ := hDriven
    obtain ⟨nd, hFind, hUnlink⟩ := rmdir_ok hCall
    cases hPath.symm.trans hFind
    have hEntry := getEntry_eq_some.mpr ⟨o, hp, hOld⟩
    refine unlinkObj_parented h hKeys hRoot hEntry ?_ hUnlink
    rw [parenOf, rmdir_gone hFormed hp hDir hOld hc hcDir hEmpty hUnlink]
    rfl
  | rename oldpath newpath => exact rename_parented h hKeys hRoot hSame hCall
  | pwrite path buf off => exact onFile_parented h hRoot hCall
  | truncate path length => exact onFile_parented h hRoot hCall

end

section Copy
variable {fs fs' : AbstFS}

def Parentless (fs : AbstFS) : Prop := ∀ x a, fs.parenOf x = some a → a = none

theorem Parentless.update (h : fs.Parentless) {x : Nat} {o : Obj}
    (ho : ∀ a, o.paren? = some a → a = none) : (fs.update x o).Parentless := by
  intro y a ha
  rw [parenOf, get?_update] at ha
  split_ifs at ha
  · exact ho a ha
  · exact h y a ha

theorem clear_parentless (hRoot : ∀ a, fs.parenOf 0 = some a → a = none)
    (hClear : fs.clear = .ok fs') : fs'.Parentless := by
  obtain ⟨_, _, hClear⟩ := bind_eq_ok hClear
  cases hClear
  intro x a ha
  rw [parenOf, SortedMap.get?_insert] at ha
  split_ifs at ha
  · change (Obj.setEntries _ _).paren? = some a at ha
    rw [Obj.paren?_setEntries] at ha
    cases hGet : fs.objs.get? 0 with
    | none =>
      rw [hGet] at ha
      exact (Option.some.inj ha).symm
    | some o =>
      rw [hGet] at ha
      exact hRoot a (parenOf_eq_some.mpr ⟨o, hGet, ha⟩)
  · cases ha

theorem unmarshalBody_paren? {mem : FileMemory} {links : List DelayedLink}
    {type id mode : Nat} {ar : Archive} {r : (Obj × List DelayedLink) × Archive}
    (h : unmarshalBody mem links type id mode ar = .ok r) (a : Option Nat)
    (ha : r.1.1.paren? = some a) : a = none := by
  unfold unmarshalBody at h
  split at h
  case h_1 =>
    obtain ⟨_, _, h⟩ := bind_eq_ok h
    obtain ⟨_, _, h⟩ := bind_eq_ok h
    obtain ⟨_, _, h⟩ := bind_eq_ok h
    cases h
    cases ha
  case h_2 =>
    obtain ⟨_, _, h⟩ := bind_eq_ok h
    obtain ⟨_, _, h⟩ := bind_eq_ok h
    cases h
    exact (Option.some.inj ha).symm
  case h_3 =>
    obtain ⟨_, _, h⟩ := bind_eq_ok h
    dsimp only at h
    split_ifs at h
    obtain ⟨_, _, h⟩ := bind_eq_ok h
    cases h
    cases ha
  case h_4 => cases h

theorem unmarshalObjs_parentless {n : Nat} {u u' : Unmarshalling} (h : u.fs.Parentless)
    (hRun : unmarshalObjs n u = .ok u') : u'.fs.Parentless := by
  induction n generalizing u with
  | zero =>
    cases hRun
    exact h
  | succ n ih =>
    obtain ⟨r, hObj, hRun⟩ := bind_eq_ok hRun
    dsimp only at hRun
    split_ifs at hRun
    all_goals
      obtain ⟨_, _, hObj⟩ := bind_eq_ok hObj
      obtain ⟨_, _, hObj⟩ := bind_eq_ok hObj
      obtain ⟨_, _, hObj⟩ := bind_eq_ok hObj
      obtain ⟨_, _, hObj⟩ := bind_eq_ok hObj
      exact ih (h.update (unmarshalBody_paren? hObj)) hRun

theorem relink_parentless {links : List DelayedLink} (h : fs.Parentless)
    (hRun : links.foldlM (fun fs l => fs.linkObj l.id l.childId l.entryName) fs = .ok fs') :
    fs'.Parentless := by
  induction links generalizing fs with
  | nil =>
    cases hRun
    exact h
  | cons l rest ih =>
    obtain ⟨fs₁, hLink, hRun⟩ := bind_eq_ok hRun
    exact ih (fun x a ha => h x a ((linkObj_sets hLink).2.2.parenOf ha)) hRun

theorem copy_parentless {target : AbstFS} (hRoot : ∀ a, target.parenOf 0 = some a → a = none)
    (hCopy : target.copy fs = .ok fs') : fs'.Parentless := by
  obtain ⟨fs₁, hClear, hCopy⟩ := bind_eq_ok hCopy
  obtain ⟨ar, -, hCopy⟩ := bind_eq_ok hCopy
  obtain ⟨⟨fs₂, ar'⟩, hRead, hCopy⟩ := bind_eq_ok hCopy
  cases hCopy
  obtain ⟨_, -, hRead⟩ := bind_eq_ok hRead
  obtain ⟨fs₃, hAgain, hRead⟩ := bind_eq_ok hRead
  obtain ⟨g, -, hRead⟩ := bind_eq_ok hRead
  obtain ⟨u, hObjs, hRead⟩ := bind_eq_ok hRead
  obtain ⟨fs₄, hLinks, hRead⟩ := bind_eq_ok hRead
  obtain ⟨_, -, hRead⟩ := bind_eq_ok hRead
  cases hRead
  have hCleared := clear_parentless (clear_parentless hRoot hClear 0) hAgain
  exact relink_parentless (unmarshalObjs_parentless hCleared hObjs) hLinks

namespace Same

variable (h : fs'.Same fs)
include h

theorem getEntry (x : Nat) (n : Name) : fs'.getEntry x n = fs.getEntry x n := by
  have hView : ∀ f : AbstFS, f.getEntry x n = (f.view x).bind fun v => v.body.entries.get? n := by
    intro f
    rw [getEntry_eq, view, Option.bind_map]
    congr 1
    funext o
    exact congrArg (SortedMap.get? · n) (view_entries o).symm
  rw [hView, hView, h.objs]

theorem child : fs'.Child = fs.Child := by
  funext p c
  rw [eq_iff_iff, child_iff_getEntry, child_iff_getEntry]
  simp only [h.getEntry]

theorem mapVal_view : fs'.objs.mapVal Obj.view = fs.objs.mapVal Obj.view := by
  apply SortedMap.ext_get?
  intro x
  rw [SortedMap.get?_mapVal, SortedMap.get?_mapVal]
  exact h.objs x

theorem links (x : Nat) : fs'.links x = fs.links x := by
  have hView : ∀ f : AbstFS, f.links x =
      (f.objs.mapVal Obj.view).total fun e => e.2.body.entries.total (linkTo x) := by
    intro f
    rw [SortedMap.total_mapVal, AbstFS.links]
    simp only [view_entries]
  rw [hView, hView, h.mapVal_view]

theorem countType (t : ObjType) : fs'.countType t = fs.countType t := by
  have hView : ∀ f : AbstFS, f.countType t = (f.objs.mapVal Obj.view).total fun e =>
      if e.1 ≠ 0 ∧ e.2.body.type = t then 1 else 0 := by
    intro f
    rw [SortedMap.total_mapVal, AbstFS.countType]
    simp only [view_type]
  rw [hView, hView, h.mapVal_view]

theorem type_eq {x : Nat} {o' : Obj} (ho' : fs'.objs.get? x = some o') :
    ∃ o, fs.objs.get? x = some o ∧ o'.type = o.type ∧ o'.ref = o.ref ∧ o'.id = o.id := by
  obtain ⟨o, ho, hView⟩ := h.get? ho'
  refine ⟨o, ho, ?_, congrArg ObjView.ref hView, congrArg ObjView.id hView⟩
  rw [← view_type, hView, view_type]

theorem exists_get? {x : Nat} {o : Obj} (ho : fs.objs.get? x = some o) :
    ∃ o', fs'.objs.get? x = some o' := by
  have hView := h.objs x
  rw [view, view, ho, Option.map_some] at hView
  obtain ⟨o', ho', -⟩ := Option.map_eq_some_iff.mp hView
  exact ⟨o', ho'⟩

theorem consistent (hConsistent : fs.Consistent fun _ => 0) : fs'.Consistent fun _ => 0 := by
  have hStored := h.stored hConsistent.toStored
  refine ⟨⟨hStored.toKeyed, ?_, ?_⟩, hStored.formed, ?_⟩
  · intro p c hChild
    rw [h.child] at hChild
    obtain ⟨o, ho⟩ := hConsistent.named p c hChild
    exact h.exists_get? ho
  · intro x o' ho'
    obtain ⟨o, ho, -⟩ := h.type_eq ho'
    rw [h.id]
    exact hConsistent.below x o ho
  · intro x o' ho'
    obtain ⟨o, ho, -, hRef, -⟩ := h.type_eq ho'
    rw [hRef, h.links]
    exact hConsistent.ref x o ho

theorem wellFormed (hConsistent : fs.Consistent fun _ => 0) (hFormed : fs.WellFormed) :
    fs'.WellFormed := by
  have hCopy := h.consistent hConsistent
  refine ⟨⟨hCopy.toLinked, ?_, ?_, ?_, ?_⟩, ?_⟩
  · intro x o' ho' hLoose
    obtain ⟨o, ho, -⟩ := h.type_eq ho'
    rw [h.child]
    exact hFormed.reachable x o ho hLoose
  · exact fun x o' ho' _ => hCopy.ref x o' ho'
  · rw [h.child]
    exact hFormed.acyclic
  · intro t
    rw [h.nr, h.countType]
    exact hFormed.nr t
  · intro x o' ho' hx hDir
    obtain ⟨o, ho, hType, hRef, -⟩ := h.type_eq ho'
    rw [hRef]
    exact hFormed.dirs x o ho hx (hType ▸ hDir)

end Same

theorem copy_parented {target : AbstFS} (hRoot : ∀ a, target.parenOf 0 = some a → a = none)
    (hStored : fs.Stored) (hOnly : fs.RootOnly) (hSame : fs'.Same fs)
    (hCopy : target.copy fs = .ok fs') : fs'.Parented := by
  have hNone := copy_parentless hRoot hCopy
  constructor
  · obtain ⟨o, ho, hDir⟩ := (hSame.stored hStored).root
    obtain ⟨a, ha⟩ := Option.isSome_iff_exists.mp (Obj.paren?_isSome.mpr hDir)
    have hSome := parenOf_eq_some.mpr ⟨o, ho, ha⟩
    rwa [hNone 0 a hSome] at hSome
  · intro x a hx ha
    obtain ⟨o', ho', hParen⟩ := parenOf_eq_some.mp ha
    obtain ⟨o, ho, hType, -⟩ := hSame.type_eq ho'
    refine absurd (hOnly (x, o) (SortedMap.get?_eq_some.mp ho) ?_) hx
    rw [← hType]
    exact Obj.paren?_isSome.mp (by rw [hParen]; rfl)

end Copy

end AbstFS

/-- A call on one of several file systems, or a copy of one to another. -/
inductive TreeStep
  | call (i : Nat) (op : FsOp)
  | copy (i j : Nat)

namespace TreeStep

section
variable [Hashes]

def apply (trees : Nat → AbstFS) : TreeStep → FsResult (Nat → AbstFS)
  | call i op => do
    let fs ← (trees i).apply op
    pure (Function.update trees i fs)
  | copy i j => do
    let fs ← (trees i).copy (trees j)
    pure (Function.update trees i fs)

end

/-- The calls are used as the test driver uses them, a rename of a directory stays in its directory,
and what is copied has no directory but the root and can be read back. -/
def KeepsParents (trees : Nat → AbstFS) : TreeStep → Prop
  | call i op => (trees i).Driven op ∧ (trees i).SameDir op
  | copy i j => i ≠ j ∧ (trees j).Copyable ∧ (trees j).RootOnly

end TreeStep

namespace AbstFS

section
variable [Hashes]

structure Tree (fs : AbstFS) : Prop where
  wellFormed : fs.WellFormed
  consistent : fs.Consistent fun _ => 0
  parented : fs.Parented

theorem Tree.apply {fs fs' : AbstFS} (h : fs.Tree) {op : FsOp} (hDriven : fs.Driven op)
    (hSame : fs.SameDir op) (hCall : fs.apply op = .ok fs') :
    fs'.Tree := by
  have hReturns := apply_wellFormed h.wellFormed op hDriven
  rw [hCall] at hReturns
  exact ⟨hReturns, apply_consistent h.consistent hCall,
    apply_parented h.wellFormed h.parented hDriven hSame hCall⟩

omit [Hashes] in
theorem Tree.copy {fs fs' target : AbstFS} (h : fs.Tree) (hTarget : target.Tree)
    (hCopyable : fs.Copyable) (hOnly : fs.RootOnly) (hCopy : target.copy fs = .ok fs') :
    fs'.Tree := by
  have hRoot : ∀ a, target.parenOf 0 = some a → a = none := by
    intro a ha
    exact (Option.some.inj (hTarget.parented.root.symm.trans ha)).symm
  obtain ⟨cleared, hClear, -⟩ := bind_eq_ok hCopy
  obtain ⟨fs₁, hCopy', hSame⟩ := copy_same h.consistent hCopyable hClear
  cases hCopy.symm.trans hCopy'
  exact ⟨hSame.wellFormed h.consistent h.wellFormed, hSame.consistent h.consistent,
    copy_parented hRoot h.consistent.toStored hOnly hSame hCopy⟩

omit [Hashes] in
theorem init_tree (mnt : CString) (memory : Memory) : (init mnt memory).Tree := by
  refine ⟨init_wellFormed mnt memory, init_consistent mnt memory, rfl, ?_⟩
  intro x a hx ha
  rw [parenOf, init, SortedMap.get?_insert, if_neg hx] at ha
  cases ha

theorem Tree.step {trees trees' : Nat → AbstFS} (h : ∀ i, (trees i).Tree) {step : TreeStep}
    (hStep : step.KeepsParents trees)
    (hApply : step.apply trees = .ok trees') : ∀ i, (trees' i).Tree := by
  cases step with
  | call j op =>
    obtain ⟨fs, hCall, hEnd⟩ := bind_eq_ok hApply
    cases hEnd
    refine (Function.forall_update_iff trees fun _ fs => fs.Tree).mpr ⟨?_, fun i _ => h i⟩
    exact (h j).apply hStep.1 hStep.2 hCall
  | copy j k =>
    obtain ⟨fs, hCopy, hEnd⟩ := bind_eq_ok hApply
    cases hEnd
    refine (Function.forall_update_iff trees fun _ fs => fs.Tree).mpr ⟨?_, fun i _ => h i⟩
    exact (h k).copy (h j) hStep.2.1 hStep.2.2 hCopy

end

end AbstFS

open AbstFS

/-- After any steps that keep the parents, every directory of every file system but its root has the
directory as its parent that has an entry for it. -/
theorem parented_of_steps [Hashes] (mnt : Nat → CString) (memory : Nat → Memory)
    (steps : List TreeStep) (trees : Nat → AbstFS)
    (hSteps : Meets TreeStep.apply (fun _ trees step => step.KeepsParents trees) []
      (fun i => init (mnt i) (memory i)) steps)
    (hRun : steps.foldlM TreeStep.apply (fun i => init (mnt i) (memory i)) = .ok trees) (i : Nat) :
    (trees i).Parented := by
  have hReturns := foldlM_returns (I := fun _ trees => ∀ i, (trees i).Tree) (Q := fun _ => True) (by
      intro done trees step h hStep
      cases hApply : step.apply trees with
      | error e => trivial
      | ok trees' => exact Tree.step h hStep hApply)
    steps [] (fun i => init_tree (mnt i) (memory i)) hSteps
  rw [hRun] at hReturns
  exact (hReturns i).parented

def keepingSteps : List TreeStep :=
  [.call 0 (.mkdir [47, 97] 493), .call 0 (.rename [47, 97] [47, 98]),
    .call 1 (.creat [47, 99] 420), .copy 2 1]

attribute [local instance] sampleHashes

theorem parented_of_steps_keeping :
    ∃ trees, keepingSteps.foldlM TreeStep.apply (fun _ => emptyFS) = .ok trees ∧
      (trees 0).parenOf 1 = some (some 0) ∧ ∀ i, (trees i).Parented := by
  have hRun : keepingSteps.foldlM TreeStep.apply (fun _ => emptyFS) = .ok _ := rfl
  refine ⟨_, hRun, rfl, parented_of_steps _ _ keepingSteps _ ?_ hRun⟩
  refine ⟨⟨⟨0, [97], _, rfl, rfl, rfl, rfl⟩, trivial⟩, ⟨?_, ?_⟩, ?_⟩
  · refine ⟨1, _, 0, ⟨0, [97], _, rfl, rfl, rfl, rfl, rfl⟩, ⟨[98], _, rfl, rfl, rfl, rfl⟩, ?_⟩
    intro hPath
    refine absurd (eq_of_reached_of_leaf ?_ hPath) Nat.zero_ne_one
    rintro y ⟨o, n, ho, hn⟩
    cases ho
    cases hn
  · intro old new c a hOld hNew _ _
    cases hOld
    cases hNew
    rfl
  · refine ⟨⟨⟨0, [99], _, rfl, rfl, rfl, rfl⟩, trivial⟩, ?_⟩
    refine ⟨⟨by decide, by decide +kernel, by decide +kernel⟩, trivial⟩

/-- A rename into another directory leaves the old parent, and a copy has none. -/
theorem rename_copy_lose_parent :
    (∃ fs, emptyFS.run
        [.mkdir [47, 97] 493, .mkdir [47, 98] 493, .rename [47, 97] [47, 98, 47, 97]] = .ok fs ∧
      fs.getEntry 2 [97] = some 1 ∧ fs.parenOf 1 = some (some 0) ∧
      (fs.objs.get? 0).map (fun o => o.entries.entries) = some [([98], 2)]) ∧
    ∃ fs fs', emptyFS.run [.mkdir [47, 97] 493] = .ok fs ∧ emptyFS.copy fs = .ok fs' ∧
      fs'.getEntry 0 [97] = some 1 ∧ fs'.parenOf 1 = some none := by
  have hRename : emptyFS.run
      [.mkdir [47, 97] 493, .mkdir [47, 98] 493, .rename [47, 97] [47, 98, 47, 97]] = .ok _ := rfl
  have hMkdir : emptyFS.run [.mkdir [47, 97] 493] = .ok _ := rfl
  refine ⟨⟨_, hRename, ?_, ?_, ?_⟩, _, _, hMkdir, rfl, ?_, ?_⟩ <;> decide +kernel

end Explode.Driver
