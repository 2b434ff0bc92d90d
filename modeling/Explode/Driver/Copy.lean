import Explode.Driver.Circles
import Explode.Driver.RoundTrip

/-!
# Copies of a file system

The links that were put aside are made one by one. After the last one every
directory has its entries and every object its references again.
-/

namespace Explode.Driver

open Loop
open SortedMap (get?_eq_some get?_insert)

namespace AbstFS

theorem view_update (fs : AbstFS) (p : Nat) (o : Obj) (x : Nat) :
    (fs.update p o).view x = if x = p then some o.view else fs.view x := by
  rw [view, get?_update]
  split_ifs
  · rfl
  · rfl

section Link
variable {fs fs' : AbstFS} {p c : Nat} {name : Name}

theorem view_countRef (fs : AbstFS) (c : Nat) (n : Int) (x : Nat) :
    (fs.countRef c n).view x =
      (fs.view x).map fun v => { v with ref := v.ref + if x = c then n else 0 } := by
  cases hChild : fs.objs.get? c with
  | none =>
    rw [countRef_none hChild]
    split_ifs with hEq
    · rw [hEq, view, hChild]
      rfl
    · simp
  | some oc =>
    rw [countRef_some hChild, view_update]
    split_ifs with hEq
    · rw [hEq, view, hChild]
      rfl
    · simp

theorem linkObj_view (h : fs.linkObj p c name = .ok fs') :
    { fs' with objs := fs.objs } = fs ∧ ∀ x, fs'.view x = (fs.view x).map fun v =>
      { v with
        ref := v.ref + if x = c then 1 else 0
        body := if x = p then .dir (v.body.entries.insert name c) else v.body } := by
  obtain ⟨o, hp, hDir, -, -, rfl⟩ := linkObj_ok h
  obtain ⟨d, hBody⟩ := dir_of_type hDir
  constructor
  · rw [countRef]
    split <;> rfl
  · intro x
    rw [view_countRef, view_update]
    by_cases hEq : x = p
    · rw [if_pos hEq, hEq, view, hp]
      simp [Obj.view, Obj.setEntries, Obj.entries, hBody, Body.view, BodyView.entries]
    · simp [hEq]

end Link

end AbstFS

def entriesOf (links : List DelayedLink) (x : Nat) : SortedMap Name Nat :=
  links.foldl (fun m l => if l.id = x then m.insert l.entryName l.childId else m) .empty

def ObjView.grown (links : List DelayedLink) (x : Nat) (v : ObjView) : ObjView :=
  { v with
    ref := links.countP fun l => l.childId = x
    body :=
      match v.body with
      | .dir _ => .dir (entriesOf links x)
      | b => b }

theorem grown_nil (x : Nat) (v : ObjView) : v.grown [] x = v.bare := by
  obtain ⟨id, ref, mode, body⟩ := v
  cases body <;> rfl

def DistinctNames (links : List DelayedLink) : Prop :=
  links.Pairwise fun a b => ¬(a.id = b.id ∧ a.entryName = b.entryName)

theorem entriesOf_append (links : List DelayedLink) (l : DelayedLink) (x : Nat) :
    entriesOf (links ++ [l]) x =
      if l.id = x then (entriesOf links x).insert l.entryName l.childId else entriesOf links x := by
  rw [entriesOf, List.foldl_append]
  rfl

theorem get?_entriesOf {links : List DelayedLink} (hNames : DistinctNames links) {x c : Nat}
    {name : Name} : (entriesOf links x).get? name = some c ↔ ⟨x, c, name⟩ ∈ links := by
  induction links using List.reverseRecOn generalizing c with
  | nil => simp [entriesOf, SortedMap.empty, SortedMap.get?]
  | append_singleton done l ih =>
    obtain ⟨hDone, _, hLast⟩ := List.pairwise_append.mp hNames
    obtain ⟨lid, child, lname⟩ := l
    rw [entriesOf_append, List.mem_append, List.mem_singleton, ← ih hDone]
    split_ifs with hEq
    · rw [get?_insert]
      split_ifs with hName
      · have hNone : ¬(entriesOf done x).get? name = some c := by
          intro hc
          exact hLast _ ((ih hDone).mp hc) _ (List.mem_singleton.mpr rfl) ⟨hEq.symm, hName⟩
        have hx : x = lid := hEq.symm
        have hn : name = lname := hName
        rw [or_iff_right hNone]
        simp [hx, hn, eq_comm]
      · simp [show name ≠ lname from hName]
    · simp [show x ≠ lid from fun h => hEq h.symm]

section Relink
variable {V : Nat → Option ObjView} {links : List DelayedLink}

structure Linkable (V : Nat → Option ObjView) (links : List DelayedLink) : Prop where
  paren : ∀ l ∈ links, ∃ v entries, V l.id = some v ∧ v.body = .dir entries
  child : ∀ l ∈ links, l.childId ≠ 0
  names : DistinctNames links

namespace AbstFS

theorem relink_step {done : List DelayedLink} {l : DelayedLink} (h : Linkable V (done ++ [l]))
    {fs : AbstFS} (hView : ∀ x, fs.view x = (V x).map (ObjView.grown done x)) :
    ∃ fs', fs.linkObj l.id l.childId l.entryName = .ok fs' ∧ { fs' with objs := fs.objs } = fs ∧
      ∀ x, fs'.view x = (V x).map (ObjView.grown (done ++ [l]) x) := by
  have hMem : l ∈ done ++ [l] := by simp
  obtain ⟨v, entries, hParen, hDir⟩ := h.paren l hMem
  have hGrown := hView l.id
  rw [hParen, Option.map_some, view, Option.map_eq_some_iff] at hGrown
  obtain ⟨o, hGet, ho⟩ := hGrown
  have hBodyView : o.view.body = .dir (entriesOf done l.id) := by
    rw [ho, ObjView.grown, hDir]
  have hEntries : o.entries = entriesOf done l.id := by
    rw [← view_entries, hBodyView]
    rfl
  have hType : o.type = .dir := by
    rw [← view_type, hBodyView]
    rfl
  have hNew : o.entries.get? l.entryName = none := by
    obtain ⟨hDone, _, hLast⟩ := List.pairwise_append.mp h.names
    rw [hEntries, Option.eq_none_iff_forall_ne_some]
    intro c hc
    exact hLast _ ((get?_entriesOf hDone).mp hc) _ (List.mem_singleton.mpr rfl) ⟨rfl, rfl⟩
  have hLink := linkObj_eq hGet hType hNew (h.child l hMem)
  obtain ⟨hRest, hViews⟩ := linkObj_view hLink
  refine ⟨_, hLink, hRest, ?_⟩
  intro x
  rw [hViews, hView, Option.map_map]
  cases hx : V x with
  | none => rfl
  | some w =>
    simp only [Option.map_some, Function.comp, ObjView.grown, Option.some.injEq,
      ObjView.mk.injEq, true_and]
    refine ⟨?_, ?_⟩
    · rw [List.countP_append, List.countP_singleton]
      by_cases hEq : x = l.childId
      · simp [hEq]
      · simp [hEq, Ne.symm hEq]
    · split_ifs with hEq
      · subst hEq
        cases hParen.symm.trans hx
        rw [hDir, entriesOf_append, if_pos rfl]
        rfl
      · rw [entriesOf_append, if_neg (Ne.symm hEq)]

theorem relink (links done : List DelayedLink) (h : Linkable V (done ++ links)) {fs : AbstFS}
    (hView : ∀ x, fs.view x = (V x).map (ObjView.grown done x)) :
    ∃ fs', links.foldlM (fun fs l => fs.linkObj l.id l.childId l.entryName) fs = .ok fs' ∧
      { fs' with objs := fs.objs } = fs ∧
      ∀ x, fs'.view x = (V x).map (ObjView.grown (done ++ links) x) := by
  induction links generalizing done fs with
  | nil =>
    rw [List.append_nil]
    exact ⟨fs, rfl, rfl, hView⟩
  | cons l rest ih =>
    rw [List.append_cons] at h ⊢
    have hFirst : Linkable V (done ++ [l]) :=
      ⟨fun a ha => h.paren a (List.mem_append_left rest ha),
        fun a ha => h.child a (List.mem_append_left rest ha), (List.pairwise_append.mp h.names).1⟩
    obtain ⟨fs₁, hLink, hSame, hView₁⟩ := relink_step hFirst hView
    obtain ⟨fs', hRun, hSame', hView'⟩ := ih (done ++ [l]) h hView₁
    refine ⟨fs', ?_, ?_, hView'⟩
    · rw [List.foldlM_cons, hLink]
      exact hRun
    · rw [← hSame, ← hSame']

end AbstFS

end Relink

namespace AbstFS

def allLinks (fs : AbstFS) : List DelayedLink := fs.objs.entries.flatMap fun e => e.2.links

section
variable {fs : AbstFS}

theorem mem_allLinks (h : fs.Stored) {x c : Nat} {name : Name} :
    ⟨x, c, name⟩ ∈ fs.allLinks ↔ ∃ o, fs.objs.get? x = some o ∧ o.entries.get? name = some c := by
  simp only [allLinks, List.mem_flatMap, Obj.links, linksOf, List.mem_map]
  constructor
  · rintro ⟨e, he, n, hn, hEq⟩
    have hGet := get?_eq_some.mpr he
    cases hEq
    rw [h.keys e.1 e.2 hGet]
    exact ⟨e.2, hGet, get?_eq_some.mpr hn⟩
  · rintro ⟨o, ho, hc⟩
    refine ⟨(x, o), get?_eq_some.mp ho, (name, c), get?_eq_some.mp hc, ?_⟩
    rw [h.keys x o ho]

theorem links_eq_countP (fs : AbstFS) (x : Nat) :
    fs.links x = fs.allLinks.countP fun l => l.childId = x := by
  have hEntries : ∀ l : List (Name × Nat), ∀ id, (l.map (linkTo x)).sum =
      (linksOf id l).countP fun l => l.childId = x := by
    intro l id
    induction l with
    | nil => rfl
    | cons e rest ih =>
      rw [List.map_cons, List.sum_cons, ih, linkTo]
      simp [linksOf, List.countP_cons, Nat.add_comm]
  rw [allLinks, List.countP_flatMap, links, SortedMap.total]
  congr 1
  apply List.map_congr_left
  intro e _
  exact hEntries e.2.entries.entries e.2.id

theorem allLinks_linkable (h : fs.Stored) : Linkable fs.view fs.allLinks := by
  constructor
  · rintro ⟨x, c, name⟩ hl
    obtain ⟨o, ho, hc⟩ := (mem_allLinks h).mp hl
    refine ⟨o.view, o.entries, by rw [view, ho]; rfl, ?_⟩
    rw [Obj.entries] at hc ⊢
    cases hBody : o.body with
    | dir d => rw [Obj.view, hBody, Body.view]
    | file f =>
      rw [hBody] at hc
      cases hc
    | symLink path =>
      rw [hBody] at hc
      cases hc
  · rintro ⟨x, c, name⟩ hl
    obtain ⟨o, ho, hc⟩ := (mem_allLinks h).mp hl
    exact (formed_entry (h.formed x o ho) hc).2
  · rw [DistinctNames, allLinks, List.pairwise_flatMap]
    constructor
    · intro e _
      rw [Obj.links, linksOf, List.pairwise_map]
      exact e.2.entries.sorted.imp fun hLess hSame => hLess.ne hSame.2
    · refine fs.objs.sorted.imp_of_mem ?_
      intro a b ha hb hLess
      simp only [Obj.links, linksOf, List.mem_map]
      rintro _ ⟨m, _, rfl⟩ _ ⟨n, _, rfl⟩ ⟨hIds, _⟩
      have hA := h.keys a.1 a.2 (get?_eq_some.mpr ha)
      have hB := h.keys b.1 b.2 (get?_eq_some.mpr hb)
      exact hLess.ne (hA.symm.trans (hIds.trans hB))

theorem grown_allLinks (h : fs.Stored) {x : Nat} {v : ObjView} (hv : fs.view x = some v) :
    v.grown fs.allLinks x = { v with ref := fs.links x } := by
  obtain ⟨o, ho, rfl⟩ := Option.map_eq_some_iff.mp hv
  have hNames := (allLinks_linkable h).names
  obtain ⟨id, ref, mode, body⟩ := o
  simp only [ObjView.grown, Obj.view, ObjView.mk.injEq, true_and]
  refine ⟨by rw [← links_eq_countP], ?_⟩
  cases body with
  | file f => rfl
  | symLink path => rfl
  | dir d =>
    simp only [Body.view, BodyView.dir.injEq]
    apply SortedMap.ext_get?
    intro name
    ext c
    rw [get?_entriesOf hNames, mem_allLinks h]
    simp [ho, Obj.entries]

end

structure Recounted (fs fs' : AbstFS) : Prop where
  id : fs'.id = fs.id
  nameId : fs'.nameId = fs.nameId
  mnt : fs'.mnt = fs.mnt
  nr : fs'.nr = fs.nr
  objs : ∀ x, fs'.view x = (fs.view x).map fun v => { v with ref := fs.links x }

theorem Recounted.same {fs fs' : AbstFS} (h : fs.Recounted fs')
    (hConsistent : fs.Consistent fun _ => 0) : fs'.Same fs where
  id := h.id
  nameId := h.nameId
  mnt := h.mnt
  nr := h.nr
  objs x := by
    rw [h.objs, view]
    cases hx : fs.objs.get? x with
    | none => rfl
    | some o =>
      have hRef := hConsistent.ref x o hx
      rw [add_zero] at hRef
      rw [Option.map_some, Option.map_some, ← hRef]
      rfl

def skeleton (fs : AbstFS) (x : Nat) : Option (Nat × SortedMap Name Nat) :=
  (fs.objs.get? x).map fun o => (o.id, o.entries)

theorem skeleton_eq_view (fs : AbstFS) (x : Nat) :
    fs.skeleton x = (fs.view x).map fun v => (v.id, v.body.entries) := by
  rw [skeleton, view, Option.map_map]
  congr 1
  funext o
  simp only [Function.comp, view_entries]
  rfl

section Check
variable {fs fs' : AbstFS}

theorem dfsAt_circleDetector_congr (h : ∀ x, fs.skeleton x = fs'.skeleton x) (levels : Nat)
    (parent parent' : Option Obj) (name : Option Name) (obj obj' : Option Obj)
    (hObj : obj.map (fun o => (o.id, o.entries)) = obj'.map fun o => (o.id, o.entries))
    (s : Bool × List Nat) :
    fs.dfsAt circleDetector levels parent name obj s =
      fs'.dfsAt circleDetector levels parent' name obj' s := by
  induction levels generalizing parent parent' name obj obj' s with
  | zero => rfl
  | succ levels ih =>
    cases obj with
    | none =>
      cases obj' with
      | none => rfl
      | some o' => cases hObj
    | some o =>
      cases obj' with
      | none => cases hObj
      | some o' =>
        obtain ⟨hId, hEntries⟩ := Prod.mk.inj (Option.some.inj hObj)
        have hVisit : (fun n id s => fs.dfsAt circleDetector levels (some o) (some n)
            (fs.objs.get? id) s) = fun n id s => fs'.dfsAt circleDetector levels (some o') (some n)
              (fs'.objs.get? id) s := by
          funext n id s
          exact ih _ _ _ _ _ (h id) s
        have hPre : circleDetector.preVisit parent name (some o) s =
            circleDetector.preVisit parent' name (some o') s := by
          simp only [circleDetector, hId]
        rw [dfsAt, dfsAt, hVisit, hEntries, hPre]
        rfl

theorem internalCheck_congr (h : ∀ x, fs.skeleton x = fs'.skeleton x) :
    fs.internalCheck = fs'.internalCheck := by
  have hObjects : fs.checkObjects = fs'.checkObjects := by
    have hIds : ∀ x, (fs.objs.get? x).map Obj.id = (fs'.objs.get? x).map Obj.id := by
      intro x
      have hx := congrArg (Option.map Prod.fst) (h x)
      simpa [skeleton, Option.map_map, Function.comp_def] using hx
    have hIff : ∀ f : AbstFS, f.checkObjects = true ↔
        ∀ x, (f.objs.get? x).map Obj.id = some x ∨ (f.objs.get? x).map Obj.id = none := by
      intro f
      rw [checkObjects_iff]
      refine forall_congr' fun x => ?_
      cases f.objs.get? x <;> simp
    rw [Bool.eq_iff_iff, hIff, hIff]
    simp only [hIds]
  rw [internalCheck, internalCheck, detectCircle, detectCircle, dfs, dfs, hObjects,
    dfsAt_circleDetector_congr h maxDepth none none none _ _ (h 0)]

end Check

structure Fits (fs : AbstFS) : Prop where
  id : fs.id < 2147483648
  nameId : fs.nameId < 2147483648
  size : fs.objs.size < 2147483648
  mnt : fs.mnt.length < 4294967296
  nr : ∀ t, -2147483648 ≤ fs.nr t ∧ fs.nr t < 2147483648
  objs : ∀ e ∈ fs.objs.entries, e.2.Fits

instance (fs : AbstFS) : Decidable fs.Fits :=
  decidable_of_iff
    (fs.id < 2147483648 ∧ fs.nameId < 2147483648 ∧ fs.objs.size < 2147483648 ∧
      fs.mnt.length < 4294967296 ∧
      (∀ t ∈ [ObjType.file, .dir, .symLink], -2147483648 ≤ fs.nr t ∧ fs.nr t < 2147483648) ∧
      ∀ e ∈ fs.objs.entries, e.2.Fits)
    ⟨fun ⟨h₁, h₂, h₃, h₄, h₅, h₆⟩ => ⟨h₁, h₂, h₃, h₄, fun t => h₅ t (by cases t <;> simp), h₆⟩,
      fun h => ⟨h.id, h.nameId, h.size, h.mnt, fun t _ => h.nr t, h.objs⟩⟩

section RoundTrip
variable {fs target cleared : AbstFS}

def globalBytes (fs : AbstFS) : Bytes :=
  intBytes fs.id ++ (intBytes fs.nameId ++ (intBytes fs.objs.size ++
    ((intBytes fs.mnt.length ++ fs.mnt) ++
      (intBytes (fs.nr .file) ++ (intBytes (fs.nr .dir) ++ intBytes (fs.nr .symLink))))))

theorem unmarshalGlobals_reads (h : fs.Fits) : Reads unmarshalGlobals fs.globalBytes
    ⟨fs.id, fs.nameId, fs.objs.size, fs.mnt, fs.nr⟩ := by
  have hNr : nrOf (fs.nr .file) (fs.nr .dir) (fs.nr .symLink) = fs.nr := by
    funext t
    cases t <;> rfl
  have hSize := h.size
  refine (readNat_reads h.id).bind ((readNat_reads h.nameId).bind
    ((getInt_reads (by omega) (by omega)).bind ((getString_reads h.mnt).bind
      ((getInt_reads (h.nr .file).1 (h.nr .file).2).bind
        ((getInt_reads (h.nr .dir).1 (h.nr .dir).2).bind
          (Reads.last (getInt_reads (h.nr .symLink).1 (h.nr .symLink).2) ?_))))))
  dsimp only
  rw [hNr]
  exact Reads.done _

theorem unmarshalGlobals_grows : Grows unmarshalGlobals fun _ => True :=
  readNat_grows.bind fun _ => readNat_grows.bind fun _ => getInt_grows.bind fun _ =>
    getString_grows.bind fun _ => getInt_grows.bind fun _ => getInt_grows.bind fun _ =>
      getInt_grows.bind fun _ => Grows.done fun _ _ _ _ _ _ _ => trivial

theorem marshal_eq (hCheck : fs.internalCheck = .ok ()) : fs.marshal .empty =
    .ok ⟨fs.globalBytes ++ fs.objs.entries.flatMap fun e => marshalObj e.2, 0⟩ := by
  rw [marshal, hCheck]
  simp only [bind, Except.bind, pure, Except.pure, Archive.put, Archive.putString, Archive.empty,
    globalBytes, List.nil_append, List.append_assoc]

theorem clear_ok (hData : ∀ x o, fs.objs.get? x = some o → destroy o = .ok ()) :
    ∃ cleared, fs.clear = .ok cleared := by
  have hLoop : ∀ l : List (Nat × Obj), (∀ e ∈ l, destroy e.2 = .ok ()) →
      l.forM (fun e => destroy e.2) = .ok () := by
    intro l hl
    induction l with
    | nil => rfl
    | cons e rest ih =>
      obtain ⟨he, hRest⟩ := List.forall_mem_cons.mp hl
      rw [List.forM, he]
      exact ih hRest
  have hAll : ((fs.objs.erase 0).entries.forM fun e => destroy e.2) = .ok () := by
    refine hLoop _ fun e he => ?_
    have hGet := get?_eq_some.mpr he
    rw [SortedMap.get?_erase] at hGet
    split_ifs at hGet
    exact hData e.1 e.2 hGet
  rw [clear, hAll]
  exact ⟨_, rfl⟩

theorem clear_eq (h : target.clear = .ok cleared) : ∃ root : Obj, root.id = 0 ∧
    root.entries = .empty ∧ cleared.objs = SortedMap.empty.insert 0 root := by
  obtain ⟨_, _, hEnd⟩ := Loop.bind_eq_ok h
  cases hEnd
  refine ⟨_, rfl, ?_, rfl⟩
  generalize (target.objs.get? 0).getD ⟨0, 0, 511, .dir ⟨.empty, none⟩⟩ = root
  obtain ⟨id, ref, mode, body⟩ := root
  cases body <;> rfl

theorem clear_cleared (h : target.clear = .ok cleared) :
    cleared.internalCheck = .ok () ∧ ∃ again, cleared.clear = .ok again := by
  obtain ⟨root, hId, hEntries, hObjs⟩ := clear_eq h
  constructor
  · have hSkeleton : ∀ x, cleared.skeleton x = emptyFS.skeleton x := by
      intro x
      rw [skeleton, skeleton, hObjs, emptyFS, init, get?_insert, get?_insert]
      split_ifs
      · rw [Option.map_some, hId, hEntries]
        rfl
      · rfl
    rw [internalCheck_congr hSkeleton]
    rfl
  · have hErase : (cleared.objs.erase 0).entries = [] := by
      rw [hObjs, SortedMap.erase_insert_self rfl]
      rfl
    rw [clear, hErase]
    exact ⟨_, rfl⟩

theorem unmarshal_bytes (h : fs.Stored) (hFits : fs.Fits)
    (hReadable : ∀ id o, fs.objs.get? id = some o → o.Readable)
    (hCheck : fs.internalCheck = .ok ()) (hTarget : target.internalCheck = .ok ())
    (hClear : target.clear = .ok cleared) {ar : Archive} (hMarshal : fs.marshal .empty = .ok ar) :
    ∃ fs', target.unmarshal ar = .ok (fs', ar.skip ar.buf.length) ∧ fs.Recounted fs' := by
  obtain ⟨root, hRootId, hRootEntries, hObjs⟩ := clear_eq hClear
  cases (marshal_eq hCheck).symm.trans hMarshal
  obtain ⟨objBytes, hObjBytes⟩ : ∃ b, b = fs.objs.entries.flatMap fun e => marshalObj e.2 :=
    ⟨_, rfl⟩
  rw [← hObjBytes] at hMarshal ⊢
  obtain ⟨ar, har⟩ : ∃ ar : Archive, ar = ⟨fs.globalBytes ++ objBytes, 0⟩ := ⟨_, rfl⟩
  rw [← har]
  have hAhead : ar.Ahead (fs.globalBytes ++ objBytes) := ⟨[], by rw [har]; rfl, by rw [har]; rfl⟩
  have hGlobals := unmarshalGlobals_reads hFits ar objBytes hAhead
  have hGet : ∀ e ∈ fs.objs.entries, fs.objs.get? e.1 = some e.2 :=
    fun e he => get?_eq_some.mpr he
  obtain ⟨u, hRead, hAr, hLinks, h₁, h₂, h₃, h₄, hViews⟩ :=
    unmarshalObjs_reads fs.objs.entries (fun e he => hReadable e.1 e.2 (hGet e he))
      (fun e he => h.keys e.1 e.2 (hGet e he)) fs.objs.sorted
      (fun e he hZero => by
        obtain ⟨r, hr, hDir⟩ := h.root
        cases (hZero ▸ hGet e he).symm.trans hr
        exact hDir)
      ⟨{ cleared with id := fs.id, nameId := fs.nameId, mnt := fs.mnt, nr := fs.nr },
        ar.skip fs.globalBytes.length, []⟩ []
      (by rw [List.append_nil, ← hObjBytes]; exact hAhead.skip)
  -- nothing of the old root is left
  have hBare : ∀ x, u.fs.view x = (fs.view x).map (ObjView.grown [] x) := by
    intro x
    rw [hViews]
    change ((fs.objs.get? x).map fun o => o.view.bare).or (cleared.view x) =
      ((fs.objs.get? x).map Obj.view).map (ObjView.grown [] x)
    cases hx : fs.objs.get? x with
    | some o => simp [grown_nil]
    | none =>
      have hNe : x ≠ 0 := by
        rintro rfl
        obtain ⟨r, hr, _⟩ := h.root
        cases hx.symm.trans hr
      rw [view, hObjs, SortedMap.get?_insert_of_ne hNe]
      rfl
  obtain ⟨fs', hRelink, hSame, hView'⟩ := relink fs.allLinks [] (allLinks_linkable h) hBare
  have hObjViews : ∀ x, fs'.view x = (fs.view x).map fun v => { v with ref := fs.links x } := by
    intro x
    rw [hView']
    cases hx : fs.view x with
    | none => rfl
    | some v => rw [Option.map_some, List.nil_append, grown_allLinks h hx, Option.map_some]
  have hSkeleton : ∀ x, fs'.skeleton x = fs.skeleton x := by
    intro x
    rw [skeleton_eq_view, skeleton_eq_view, hObjViews, Option.map_map]
    rfl
  have hCheck' : fs'.internalCheck = .ok () := by
    rw [internalCheck_congr hSkeleton, hCheck]
  have hEnd : u.ar = ar.skip ar.buf.length := by
    rw [hAr, Archive.skip_skip, ← hObjBytes, ← List.length_append, har]
  refine ⟨fs', ?_, ?_⟩
  · have hRead' : unmarshalObjs fs.objs.size _ = .ok u := hRead
    have hLinks' : u.delayedLinks = fs.allLinks := by
      rw [hLinks]
      rfl
    rw [unmarshal, hTarget, hClear]
    simp only [bind, Except.bind, hGlobals, Int.toNat_natCast, hRead', hLinks', hRelink, hCheck',
      hEnd]
    rfl
  · exact
      { id := (congrArg AbstFS.id hSame).trans h₁
        nameId := (congrArg AbstFS.nameId hSame).trans h₂
        mnt := (congrArg AbstFS.mnt hSame).trans h₃
        nr := (congrArg AbstFS.nr hSame).trans h₄
        objs := hObjViews }

/-- What `copy` returns as it was: the numbers fit, no region has bytes of its own, no
directory is its own entry, and `internalCheck` passes. -/
structure Copyable (fs : AbstFS) : Prop where
  fits : fs.Fits
  noBytes : ∀ e ∈ fs.objs.entries, e.2.body.view.NoBytes
  self : ∀ e ∈ fs.objs.entries, ∀ n ∈ e.2.entries.entries, n.2 ≠ e.1
  check : fs.internalCheck = .ok ()

instance (fs : AbstFS) : Decidable fs.Copyable :=
  decidable_of_iff
    (fs.Fits ∧ (∀ e ∈ fs.objs.entries, e.2.body.view.NoBytes) ∧
      (∀ e ∈ fs.objs.entries, ∀ n ∈ e.2.entries.entries, n.2 ≠ e.1) ∧ fs.internalCheck = .ok ())
    ⟨fun ⟨h₁, h₂, h₃, h₄⟩ => ⟨h₁, h₂, h₃, h₄⟩, fun h => ⟨h.fits, h.noBytes, h.self, h.check⟩⟩

theorem Copyable.readable (h : fs.Copyable) (hStored : fs.Stored) (id : Nat) (o : Obj)
    (ho : fs.objs.get? id = some o) : o.Readable := by
  have hMem := get?_eq_some.mp ho
  refine ⟨hStored.formed id o ho, h.fits.objs _ hMem, h.noBytes _ hMem, ?_⟩
  intro name hName
  rw [hStored.keys id o ho] at hName
  exact h.self _ hMem _ (get?_eq_some.mp hName) rfl

theorem copy_recounted (hStored : fs.Stored) (h : fs.Copyable)
    (hClear : target.clear = .ok cleared) :
    ∃ fs', target.copy fs = .ok fs' ∧ fs.Recounted fs' := by
  have hMarshal := marshal_eq h.check
  generalize (⟨fs.globalBytes ++ fs.objs.entries.flatMap fun e => marshalObj e.2, 0⟩ : Archive) =
    ar at hMarshal
  obtain ⟨hCleared, again, hAgain⟩ := clear_cleared hClear
  obtain ⟨fs', hRead, hRecounted⟩ := unmarshal_bytes hStored h.fits (h.readable hStored) h.check
    hCleared hAgain hMarshal
  refine ⟨fs', ?_, hRecounted⟩
  rw [copy, hClear]
  simp only [bind, Except.bind, hMarshal, hRead]
  rfl

theorem copy_same (hConsistent : fs.Consistent fun _ => 0) (h : fs.Copyable)
    (hClear : target.clear = .ok cleared) : ∃ fs', target.copy fs = .ok fs' ∧ fs'.Same fs := by
  obtain ⟨fs', hCopy, hRecounted⟩ := copy_recounted hConsistent.toStored h hClear
  exact ⟨fs', hCopy, hRecounted.same hConsistent⟩

section Clean

theorem unmarshalRegions_grows (n : Nat) (d : Data) :
    Grows (fun ar => unmarshalRegions n ar d) fun d' =>
      ∀ r ∈ d'.regions, r ∈ d.regions ∨ (r.magic = 0 → r.stop ≤ r.start ∧ r.data = []) := by
  induction n generalizing d with
  | zero => exact Grows.done fun _ => .inl
  | succ n ih =>
    refine readNat_grows.bind fun start => readNat_grows.bind fun stop =>
      readNat_grows.bind fun magic => ?_
    have hAdd : ∀ {d' : Data} {a : DataRegion},
        (∀ r ∈ d'.regions, r ∈ (d.add a).regions ∨ (r.magic = 0 → r.stop ≤ r.start ∧ r.data = [])) →
        (a.magic = 0 → a.stop ≤ a.start ∧ a.data = []) → ∀ r ∈ d'.regions,
          r ∈ d.regions ∨ (r.magic = 0 → r.stop ≤ r.start ∧ r.data = []) := by
      intro d' a h ha r hr
      rcases h r hr with hOld | hEmpty
      · rcases IntervalMap.mem_of_mem_insert hOld with rfl | hOld
        · exact .inr ha
        · exact .inl hOld
      · exact .inr hEmpty
    intro ar d' ar' hRun
    dsimp only at hRun
    split_ifs at hRun with hMagic
    · obtain ⟨hLe, hRest⟩ := ih _ _ _ _ hRun
      have hLength : (d.alloc (stop - start)).1.length = stop - start := by simp [Data.alloc]
      rw [Archive.put, List.length_append, hLength] at hLe hRest
      refine ⟨by omega, fun hEq _ _ _ => hAdd (hRest (by omega)) fun _ => ⟨?_, ?_⟩⟩
      · change stop ≤ start
        omega
      · exact List.eq_nil_of_length_eq_zero (hLength.trans (by omega))
    · obtain ⟨hLe, hRest⟩ := ih _ _ _ _ hRun
      exact ⟨hLe, fun hEq _ _ _ => hAdd (hRest hEq) fun hZero => absurd hZero hMagic⟩

theorem unmarshalData_grows (d : Data) :
    Grows (fun ar => unmarshalData ar d) fun d' =>
      ∀ r ∈ d'.regions, r ∈ d.regions ∨ (r.magic = 0 → r.stop ≤ r.start ∧ r.data = []) :=
  getInt_grows.bind fun n => (unmarshalRegions_grows n.toNat d).imp fun _ h _ => h

theorem unmarshalEntries_grows (id n : Nat) (links : List DelayedLink) :
    Grows (fun ar => unmarshalEntries id n ar links) fun links' =>
      ∀ l ∈ links', l ∈ links ∨ l.id ≠ l.childId := by
  induction n generalizing links with
  | zero => exact Grows.done fun _ => .inl
  | succ n ih =>
    refine readNat_grows.bind fun len => ?_
    dsimp only
    split_ifs
    · exact Grows.error _
    · refine (get_grows len).bind fun name => ?_
      dsimp only
      refine readNat_grows.bind fun child => ?_
      dsimp only
      split_ifs with hSelf
      · exact Grows.error _
      · intro ar links' ar' hRun
        obtain ⟨hLe, hLinks⟩ := ih _ _ _ _ hRun
        refine ⟨hLe, fun hEq _ _ _ l hl => ?_⟩
        rcases hLinks hEq l hl with hOld | hNe
        · rcases List.mem_append.mp hOld with hOld | hNew
          · exact .inl hOld
          · cases List.mem_singleton.mp hNew
            exact .inr hSelf
        · exact .inr hNe

theorem unmarshalBody_grows (mem : FileMemory) (links : List DelayedLink) (type id mode : Nat) :
    Grows (unmarshalBody mem links type id mode) fun r =>
      (r.1.view.body.NoBytes ∧ r.1.entries = .empty) ∧
        ∀ l ∈ r.2, l ∈ links ∨ l.id ≠ l.childId := by
  unfold unmarshalBody
  split
  · refine readNat_grows.bind fun size => getWord_grows.bind fun sig => ?_
    refine (unmarshalData_grows _).bind fun d => ?_
    refine Grows.done fun hRegions _ _ => ⟨⟨?_, rfl⟩, fun _ => .inl⟩
    intro r hr
    exact (hRegions r hr).resolve_left List.not_mem_nil
  · refine getInt_grows.bind fun n =>
      (unmarshalEntries_grows id n.toNat links).bind fun links' => ?_
    exact Grows.done fun hLinks _ => ⟨⟨trivial, rfl⟩, hLinks⟩
  · refine readNat_grows.bind fun len => ?_
    dsimp only
    split_ifs
    · exact Grows.error _
    · refine (get_grows len).bind fun path => ?_
      dsimp only
      exact Grows.done fun _ _ => ⟨⟨trivial, rfl⟩, fun _ => .inl⟩
  · exact Grows.error _

theorem unmarshalObj_grows (mem : FileMemory) (links : List DelayedLink) :
    Grows (unmarshalObj mem links) fun r =>
      (r.1.view.body.NoBytes ∧ r.1.entries = .empty) ∧
        ∀ l ∈ r.2, l ∈ links ∨ l.id ≠ l.childId := by
  refine readNat_grows.bind fun type => readNat_grows.bind fun id => (get_grows 4).bind fun _ =>
    getUnsigned_grows.bind fun mode => (unmarshalBody_grows mem links type id mode).imp ?_
  exact fun r h _ _ _ _ => h

/-- The root aside, regular regions have no bytes, and no directory is its own entry. -/
def Clean (fs : AbstFS) : Prop :=
  ∀ x v, fs.view x = some v →
    (x ≠ 0 → v.body.NoBytes) ∧ ∀ name, v.body.entries.get? name ≠ some x

theorem unmarshalObjs_clean (n : Nat) {u u' : Unmarshalling} (h : unmarshalObjs n u = .ok u') :
    u.ar.buf.length ≤ u'.ar.buf.length ∧ (u'.ar.buf.length = u.ar.buf.length →
      u.fs.Clean → (∀ l ∈ u.delayedLinks, l.id ≠ l.childId) →
      u'.fs.Clean ∧ ∀ l ∈ u'.delayedLinks, l.id ≠ l.childId) := by
  induction n generalizing u with
  | zero =>
    cases h
    exact ⟨Nat.le_refl _, fun _ hClean hLinks => ⟨hClean, hLinks⟩⟩
  | succ n ih =>
    obtain ⟨⟨⟨o, links⟩, ar⟩, hObj, hRest⟩ := bind_eq_ok h
    dsimp only at hRest
    rw [ite_eq_iff] at hRest
    obtain ⟨-, hRest⟩ := hRest.resolve_left fun hBad => nomatch hBad.2
    obtain ⟨hLe, hGood⟩ := unmarshalObj_grows _ _ _ _ _ hObj
    obtain ⟨hLe', hClean'⟩ := ih hRest
    refine ⟨hLe.trans hLe', fun hEq hClean hLinks => ?_⟩
    dsimp only at hLe' hClean'
    obtain ⟨⟨hBytes, hEntries⟩, hNew⟩ := hGood (by omega)
    refine hClean' (by omega) ?_ fun l hl => (hNew l hl).elim (hLinks l) fun hNe => hNe
    intro x v hv
    change (u.fs.update o.id o).view x = some v at hv
    rw [view_update] at hv
    split_ifs at hv
    · cases hv
      rw [view_entries, hEntries]
      exact ⟨fun _ => hBytes, fun name => nofun⟩
    · exact hClean x v hv

theorem Clean.linkObj {fs fs' : AbstFS} (h : fs.Clean) {p c : Nat} {name : Name} (hNe : p ≠ c)
    (hLink : fs.linkObj p c name = .ok fs') : fs'.Clean := by
  intro x v hv
  rw [(linkObj_view hLink).2 x] at hv
  obtain ⟨v, hOld, rfl⟩ := Option.map_eq_some_iff.mp hv
  obtain ⟨hBytes, hSelf⟩ := h x v hOld
  dsimp only
  split_ifs with hEq
  · subst hEq
    refine ⟨fun _ => trivial, fun n hn => ?_⟩
    change (v.body.entries.insert name c).get? n = some x at hn
    rw [get?_insert] at hn
    split_ifs at hn
    · exact hNe (Option.some.inj hn).symm
    · exact hSelf n hn
  · exact ⟨hBytes, hSelf⟩

theorem unmarshal_clean {target fs' : AbstFS} {ar ar' : Archive}
    (h : target.unmarshal ar = .ok (fs', ar')) (hLength : ar'.buf.length = ar.buf.length) :
    fs'.Clean := by
  obtain ⟨_, -, h⟩ := bind_eq_ok h
  obtain ⟨cleared, hClear, h⟩ := bind_eq_ok h
  obtain ⟨⟨g, ar₁⟩, hGlobals, h⟩ := bind_eq_ok h
  obtain ⟨u, hObjs, h⟩ := bind_eq_ok h
  obtain ⟨fs₁, hLinks, h⟩ := bind_eq_ok h
  obtain ⟨_, -, h⟩ := bind_eq_ok h
  cases h
  obtain ⟨root, -, hEntries, hRoot⟩ := clear_eq hClear
  have hFirst := (unmarshalGlobals_grows ar g ar₁ hGlobals).1
  obtain ⟨hLe, hClean⟩ := unmarshalObjs_clean _ hObjs
  dsimp only at hLe hClean
  obtain ⟨hClean, hNe⟩ := hClean (by omega) (by
    intro x v hv
    rw [view, hRoot, get?_insert] at hv
    split_ifs at hv with hZero
    · cases hv
      rw [view_entries, hEntries]
      exact ⟨fun hOther => absurd hZero hOther, fun name => nofun⟩
    · cases hv) (by simp)
  clear hObjs hLe hLength
  obtain ⟨fs₀, hStart⟩ : ∃ fs₀, fs₀ = u.fs := ⟨_, rfl⟩
  rw [← hStart] at hLinks hClean
  clear hStart
  generalize u.delayedLinks = links at hLinks hNe
  induction links generalizing fs₀ with
  | nil =>
    cases hLinks
    exact hClean
  | cons l rest ih =>
    obtain ⟨hl, hRest⟩ := List.forall_mem_cons.mp hNe
    obtain ⟨fs₂, hLink, hLinks⟩ := bind_eq_ok hLinks
    exact ih fs₂ (hClean.linkObj hl hLink) hLinks hRest

theorem Clean.of_same {fs fs' : AbstFS} (h : fs'.Clean) (hSame : fs'.Same fs) (hRoot : fs.HasRoot) :
    (∀ e ∈ fs.objs.entries, e.2.body.view.NoBytes) ∧
      ∀ e ∈ fs.objs.entries, ∀ n ∈ e.2.entries.entries, n.2 ≠ e.1 := by
  have hAt : ∀ e ∈ fs.objs.entries, (e.1 ≠ 0 → e.2.body.view.NoBytes) ∧
      ∀ name, e.2.entries.get? name ≠ some e.1 := by
    intro e he
    have hView : fs.view e.1 = some e.2.view := by
      rw [view, get?_eq_some.mpr he]
      rfl
    rw [← view_entries]
    exact h e.1 e.2.view ((hSame.objs e.1).trans hView)
  constructor
  · intro e he
    by_cases hZero : e.1 = 0
    · obtain ⟨o, ho, hDir⟩ := hRoot
      have hGet := get?_eq_some.mpr he
      rw [hZero, ho, Option.some.injEq] at hGet
      obtain ⟨d, hBody⟩ := dir_of_type hDir
      rw [← hGet, hBody]
      trivial
    · exact (hAt e he).1 hZero
  · intro e he n hn hEq
    exact (hAt e he).2 n.1 (hEq ▸ get?_eq_some.mpr hn)

end Clean

/-- Every file system that the calls make is the same after it was marshalled and read back, and all
bytes are read, exactly when its regular regions have no bytes and no directory is its own entry. -/
theorem unmarshal_marshal [Hashes] {mnt : CString} {memory : Memory} {ops : List FsOp}
    (hRun : (init mnt memory).run ops = .ok fs) (hFits : fs.Fits)
    (hTarget : target.internalCheck = .ok ()) (hClear : target.clear = .ok cleared) :
    Returns
      (fun ar =>
        ((∃ fs' ar', target.unmarshal ar = .ok (fs', ar') ∧ ar'.buf = ar.buf ∧
            ar'.rd = ar.buf.length ∧ fs'.Same fs) ↔
          (∀ e ∈ fs.objs.entries, e.2.body.view.NoBytes) ∧
            ∀ e ∈ fs.objs.entries, ∀ n ∈ e.2.entries.entries, n.2 ≠ e.1) ∧
        ((∀ e ∈ fs.objs.entries, e.2.body.view.NoBytes) →
          (∀ e ∈ fs.objs.entries, ∀ n ∈ e.2.entries.entries, n.2 ≠ e.1) →
          ∃ fs', target.copy fs = .ok fs' ∧ fs'.Same fs))
      (fun e => e = .tooDeep ∨ e = .circle) (fs.marshal .empty) := by
  have hConsistent := run_consistent (init_consistent mnt memory) ops hRun
  cases hCheck : fs.internalCheck with
  | error e =>
    rw [marshal, hCheck]
    exact internalCheck_error (fun id o ho => hConsistent.keys id o ho) hCheck
  | ok _ =>
    have hMarshal := marshal_eq hCheck
    obtain ⟨ar, har⟩ : ∃ ar : Archive,
      ar = ⟨fs.globalBytes ++ fs.objs.entries.flatMap fun e => marshalObj e.2, 0⟩ := ⟨_, rfl⟩
    rw [← har] at hMarshal
    rw [hMarshal]
    refine ⟨⟨?_, ?_⟩, ?_⟩
    · rintro ⟨fs', ar', hRead, hBuf, -, hSame⟩
      exact (unmarshal_clean hRead (congrArg List.length hBuf)).of_same hSame hConsistent.root
    · rintro ⟨hBytes, hSelf⟩
      have hCopyable : fs.Copyable := ⟨hFits, hBytes, hSelf, hCheck⟩
      obtain ⟨fs', hRead, hRecounted⟩ := unmarshal_bytes hConsistent.toStored hFits
        (hCopyable.readable hConsistent.toStored) hCheck hTarget hClear hMarshal
      refine ⟨fs', _, hRead, rfl, ?_, hRecounted.same hConsistent⟩
      rw [Archive.skip, har, Nat.zero_add]
    · intro hBytes hSelf
      exact copy_same hConsistent ⟨hFits, hBytes, hSelf, hCheck⟩ hClear

end RoundTrip

attribute [local instance] sampleHashes

/-- A file with a magic region and a second name in a directory. -/
theorem unmarshal_marshal_link :
    ∃ fs, emptyFS.run
        [.creat [47, 97] 420, .pwrite [47, 97] [51, 51, 51, 51] 0, .mkdir [47, 98] 493,
          .link [47, 97] [47, 98, 47, 99]] = .ok fs ∧
      Returns
        (fun ar =>
          (∃ fs' ar', emptyFS.unmarshal ar = .ok (fs', ar') ∧
            ar'.buf = ar.buf ∧ ar'.rd = ar.buf.length ∧ fs'.Same fs) ∧
          ∃ fs', emptyFS.copy fs = .ok fs' ∧ fs'.Same fs)
        (fun e => e = .tooDeep ∨ e = .circle) (fs.marshal .empty) := by
  have hRun : emptyFS.run
      [.creat [47, 97] 420, .pwrite [47, 97] [51, 51, 51, 51] 0, .mkdir [47, 98] 493,
        .link [47, 97] [47, 98, 47, 99]] = .ok _ := rfl
  have hTarget : emptyFS.internalCheck = .ok () := rfl
  refine ⟨_, hRun, (unmarshal_marshal hRun
    ⟨by decide, by decide, by decide +kernel, by decide, ?_, by decide +kernel⟩ hTarget rfl).imp ?_⟩
  · intro t
    cases t <;> decide +kernel
  · rintro ar ⟨hRound, hCopy⟩
    exact ⟨hRound.mpr ⟨by decide +kernel, by decide +kernel⟩,
      hCopy (by decide +kernel) (by decide +kernel)⟩

/-- The four bytes of a regular region are not read back: zeros of the new buffer take their place,
and the archive has grown by four bytes. -/
theorem unmarshal_regular_region :
    ∃ fs ar fs' ar', emptyFS.run [.creat [47, 97] 420, .pwrite [47, 97] [1, 2, 3, 4] 0] = .ok fs ∧
      fs.marshal .empty = .ok ar ∧
      emptyFS.unmarshal ar = .ok (fs', ar') ∧
      ((fs.objs.get? 1).bind Obj.file?).map (fun f => f.d.regions) =
        some [⟨0, 4, 0, [1, 2, 3, 4]⟩] ∧
      ((fs'.objs.get? 1).bind Obj.file?).map (fun f => f.d.regions) =
        some [⟨0, 4, 0, [0, 0, 0, 0]⟩] ∧
      ar.buf.length = 101 ∧ ar'.buf.length = 105 ∧ ar'.rd = 97 := by
  have hRun : emptyFS.run [.creat [47, 97] 420, .pwrite [47, 97] [1, 2, 3, 4] 0] = .ok _ := rfl
  refine ⟨_, _, _, _, hRun, rfl, rfl, ?_, ?_, ?_, ?_, ?_⟩ <;> decide +kernel

end AbstFS

end Explode.Driver
