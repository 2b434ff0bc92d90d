import Explode.Driver.Renamed

/-!
# New ids in the order of the first visits

`dfs_remap_ids` numbers the objects in the order in which a walk over the sorted
names first meets them.
-/

namespace Explode.Driver

open Relation Loop
open SortedMap (get?_eq_some get?_mapVal)

/-- `id_map[id]`, zero where the map has no such id. -/
def IdMap.newId (idMap : IdMap) (id : Nat) : Nat := (idMap.idOf id).getD 0

/-- The body with new ids. A parent is a pointer and stays one to the same directory; a directory
that is gone has the first id without an object. -/
def Body.fixIds (idMap : IdMap) (free : Nat) : Body → Body
  | .file f => .file f
  | .dir d => .dir ⟨d.entries.mapVal idMap.newId, d.paren.map fun p => (idMap.idOf p).getD free⟩
  | .symLink path => .symLink path

namespace AbstFS

/-- `fix_ids`. The objects out of reach would all go to the invalid id. -/
def fixIds (fs : AbstFS) (idMap : IdMap) : FsResult AbstFS := do
  fs.internalCheck
  if idMap.entries.any fun e => e.2.isNone then .error .badOrder
  else
    let objs := fs.objs.entries.foldl (fun m e => m.insert (idMap.newId e.1)
      { e.2 with id := idMap.newId e.1, body := e.2.body.fixIds idMap fs.objs.size }) .empty
    let fs' := { fs with objs := objs }
    fs'.internalCheck
    .ok fs'

/-- `dfs_remap_ids`, with the map from inode numbers to ids. -/
def dfsRemapIds (fs : AbstFS) (actualToAbst : SortedMap Nat Nat) :
    FsResult (AbstFS × SortedMap Nat Nat) := do
  let idMap ← fs.dfsOrder true
  let fixed ← fs.fixIds idMap
  let fs' := { fixed with id := fixed.objs.size }
  fs'.internalCheck
  .ok (fs', actualToAbst.mapVal idMap.newId)

/-- The ids that a depth-first walk visits, each object before those of its entries and these in
the order of their names. -/
inductive PreOrder (fs : AbstFS) : List Nat → List Nat → Prop
  | nil : PreOrder fs [] []
  | cons {id : Nat} {rest visits : List Nat} {o : Obj} (hGet : fs.objs.get? id = some o)
    (hRest : PreOrder fs (o.entries.entries.map Prod.snd ++ rest) visits) :
    PreOrder fs (id :: rest) (id :: visits)

def firsts (visits : List Nat) : List Nat := visits.foldl note []

section Order
variable {fs : AbstFS}

def Before (fs : AbstFS) (ids visits : List Nat) : Prop :=
  ∀ rest more, fs.PreOrder rest more → fs.PreOrder (ids ++ rest) (visits ++ more)

theorem firstVisits_before (h : fs.Rooted) (levels : Nat) (p : Option Obj) (n : Option Name)
    {id : Nat} (hLive : fs.Live id) (seen : List Nat) :
    Returns (Ends (fun t => ∃ visits, fs.Before [id] visits ∧ t = visits.foldl note seen)
        fun _ => False) (fun _ => True)
      (fs.dfsAt firstVisits levels p n (fs.objs.get? id) seen) := by
  induction levels generalizing p n id seen with
  | zero => trivial
  | succ levels ih =>
    obtain ⟨o, hGet⟩ := live_iff.mp hLive
    have hId := h.keys id o hGet
    rw [hGet]
    refine dfsAt_returns (fun done t => ∃ visits, fs.Before (done.map Prod.snd) visits ∧
      t = visits.foldl note (note seen id)) ?_ ?_ ?_
    · rw [← hId]
      exact ⟨[], fun rest more hMore => hMore, rfl⟩
    · rintro done e he _ ⟨visits, hBefore, rfl⟩
      have hChild := h.live_child ⟨o, e.1, hGet, get?_eq_some.mpr he⟩
      refine (ih (some o) (some e.1) hChild _).imp fun r hEnd => hEnd.imp ?_
      rintro _ ⟨others, hOthers, rfl⟩
      refine ⟨visits ++ others, fun rest more hMore => ?_, List.foldl_append.symm⟩
      rw [List.map_append, List.append_assoc, List.append_assoc]
      exact hBefore _ _ (hOthers rest more hMore)
    · rintro _ ⟨visits, hBefore, rfl⟩
      exact ⟨id :: visits, fun rest more hMore => .cons hGet (hBefore rest more hMore), rfl⟩

theorem Walked.preOrder (h : fs.Rooted) {seen : List Nat} (hWalked : fs.Walked seen) :
    ∃ visits, fs.PreOrder [0] visits ∧ seen = firsts visits := by
  have hFirst := firstVisits_before h maxDepth none none (h.live .refl) []
  rw [show fs.dfsAt firstVisits maxDepth none none (fs.objs.get? 0) [] = _ from hWalked.walk]
    at hFirst
  obtain ⟨visits, hBefore, hSeen⟩ := hFirst
  have hAll := hBefore [] [] .nil
  simp only [List.append_nil] at hAll
  exact ⟨visits, hAll, hSeen⟩

end Order

def renumber (fs : AbstFS) (seen : List Nat) : AbstFS :=
  { fs with
    id := seen.length
    objs := fs.objs.entries.foldl
      (fun m e => m.insert (seen.idxOf e.1) (e.2.rename seen.idxOf)) .empty }

def place (seen : List Nat) (x : Nat) : Nat := if x ∈ seen then seen.idxOf x else 0

section Renumber
variable {fs fs' : AbstFS} {seen : List Nat} {f : Nat → Nat} {x : Nat}
  (h : fs.Rooted) (hWalked : fs.Walked seen)
include h hWalked

theorem Walked.mem_iff_live : x ∈ seen ↔ fs.Live x :=
  (hWalked.mem x).trans h.live_iff_reach.symm

theorem Walked.length_eq : seen.length = fs.objs.size := by
  have hKeys : (fs.objs.entries.map Prod.fst).Nodup := by
    rw [List.Nodup, List.pairwise_map]
    exact fs.objs.sorted.imp fun hLt => hLt.ne
  have hPerm : seen.Perm (fs.objs.entries.map Prod.fst) := by
    rw [List.perm_ext_iff_of_nodup hWalked.nodup hKeys]
    intro x
    rw [hWalked.mem_iff_live h, live_iff, List.mem_map]
    constructor
    · rintro ⟨o, ho⟩
      exact ⟨(x, o), get?_eq_some.mp ho, rfl⟩
    · rintro ⟨e, he, rfl⟩
      exact ⟨e.2, get?_eq_some.mpr he⟩
  rw [hPerm.length_eq, List.length_map]
  rfl

theorem get?_renumber (k : Nat) :
    (fs.renumber seen).objs.get? k =
      seen[k]?.bind fun x => (fs.objs.get? x).map (Obj.rename seen.idxOf) := by
  cases hk : seen[k]? with
  | none =>
    rw [Option.bind_none]
    apply (SortedMap.get?_foldl_insert_of_ne _ _ _ ?_).trans (SortedMap.get?_empty k)
    intro e he hPlace
    have hMem := (hWalked.mem_iff_live h).mpr (live_iff.mpr ⟨e.2, get?_eq_some.mpr he⟩)
    have hLt := List.idxOf_lt_length_of_mem hMem
    rw [hPlace] at hLt
    exact absurd hk (by simp [hLt])
  | some x =>
    obtain ⟨o, ho⟩ := live_iff.mp ((hWalked.mem_iff_live h).mp (List.mem_of_getElem? hk))
    rw [Option.bind_some, ho, Option.map_some, ← idxOf_of_getElem? hWalked.nodup hk]
    refine SortedMap.get?_foldl_insert (fun e : Nat × Obj => seen.idxOf e.1)
      (fun e => e.2.rename seen.idxOf) _ ?_ (get?_eq_some.mp ho)
    intro a ha b hb hPlace
    have hMem := (hWalked.mem_iff_live h).mpr (live_iff.mpr ⟨a.2, get?_eq_some.mpr ha⟩)
    have hKey : a.1 = b.1 := (List.idxOf_inj hMem).mp hPlace
    have hSame := (get?_eq_some.mpr ha).symm.trans (hKey ▸ get?_eq_some.mpr hb)
    exact congrArg (Obj.rename seen.idxOf) (Option.some.inj hSame)

theorem idxOf_of_not_live (hx : ¬fs.Live x) : seen.idxOf x = seen.length :=
  List.idxOf_eq_length (mt (hWalked.mem_iff_live h).mp hx)

theorem live_renumber (k : Nat) : (fs.renumber seen).Live k ↔ k < seen.length := by
  rw [Live, get?_renumber h hWalked]
  cases hk : seen[k]? with
  | none => simpa using List.getElem?_eq_none_iff.mp hk
  | some x =>
    obtain ⟨o, ho⟩ := live_iff.mp ((hWalked.mem_iff_live h).mp (List.mem_of_getElem? hk))
    obtain ⟨hLt, _⟩ := List.getElem?_eq_some_iff.mp hk
    simp [ho, hLt]

theorem renamed_renumber : Renamed seen.idxOf fs (fs.renumber seen) where
  root := by
    obtain ⟨rest, rfl⟩ := hWalked.first
    simp
  inj x y hx _ hEq := (List.idxOf_inj ((hWalked.mem_iff_live h).mpr hx)).mp hEq
  objs := by
    intro x o ho
    have hMem := (hWalked.mem_iff_live h).mpr (live_iff.mpr ⟨o, ho⟩)
    rw [get?_renumber h hWalked, List.getElem?_idxOf hMem, Option.bind_some, ho, Option.map_some]
  onto := by
    intro y hy
    obtain ⟨x, hx⟩ : ∃ x, seen[y]? = some x :=
      ⟨_, List.getElem?_eq_getElem ((live_renumber h hWalked y).mp hy)⟩
    exact ⟨x, (hWalked.mem_iff_live h).mp (List.mem_of_getElem? hx),
      idxOf_of_getElem? hWalked.nodup hx⟩
  gone := by
    intro x hx
    rw [idxOf_of_not_live h hWalked hx, live_renumber h hWalked]
    exact lt_irrefl _
  rest := rfl

theorem Renamed.idxOf_map (hRenamed : Renamed f fs fs') (x : Nat) :
    (seen.map f).idxOf (f x) = seen.idxOf x := by
  by_cases hx : fs.Live x
  · apply idxOf_map_of_injOn
    intro y hy hEq
    exact hRenamed.inj y x ((hWalked.mem_iff_live h).mp hy) hx hEq
  · have hWalked' := (hRenamed.iso h).walked_map h.toSound (hRenamed.rooted h).toSound hWalked
    rw [idxOf_of_not_live h hWalked hx,
      idxOf_of_not_live (hRenamed.rooted h) hWalked' (hRenamed.gone x hx), List.length_map]

theorem Renamed.place_map (hRenamed : Renamed f fs fs') (x : Nat) :
    place (seen.map f) (f x) = place seen x := by
  have hWalked' := (hRenamed.iso h).walked_map h.toSound (hRenamed.rooted h).toSound hWalked
  have hMem : f x ∈ seen.map f ↔ x ∈ seen := by
    rw [hWalked'.mem_iff_live (hRenamed.rooted h), hWalked.mem_iff_live h]
    exact ⟨fun hLive => not_not.mp (mt (hRenamed.gone x) (not_not.mpr hLive)), hRenamed.live⟩
  simp only [place, hMem, hRenamed.idxOf_map h hWalked]

theorem Renamed.renumber_eq (hRenamed : Renamed f fs fs') :
    fs'.renumber (seen.map f) = fs.renumber seen := by
  have h' := hRenamed.rooted h
  have hWalked' := (hRenamed.iso h).walked_map h.toSound h'.toSound hWalked
  have hObjs : (fs'.renumber (seen.map f)).objs = (fs.renumber seen).objs := by
    apply SortedMap.ext_get?
    intro k
    rw [get?_renumber h hWalked, get?_renumber h' hWalked', List.getElem?_map]
    cases hk : seen[k]? with
    | none => rfl
    | some x =>
      obtain ⟨o, ho⟩ := live_iff.mp ((hWalked.mem_iff_live h).mp (List.mem_of_getElem? hk))
      simp only [Option.map_some, Option.bind_some, ho, hRenamed.objs x o ho, Obj.rename_rename,
        hRenamed.idxOf_map h hWalked]
  calc fs'.renumber (seen.map f)
      = { { fs' with id := fs.id, objs := fs.objs } with
          id := (seen.map f).length, objs := (fs'.renumber (seen.map f)).objs } := rfl
    _ = fs.renumber seen := by
      rw [hRenamed.rest, hObjs, List.length_map]
      rfl

end Renumber

section Remap
variable {fs fs' : AbstFS} {seen : List Nat} {idMap : IdMap} {f : Nat → Nat} {x : Nat}

theorem newId_eq (hIdOf : ∀ x, idMap.idOf x = number seen x) (x : Nat) :
    idMap.newId x = place seen x := by
  rw [IdMap.newId, hIdOf, number, place]
  split_ifs <;> rfl

theorem parent_eq (hIdOf : ∀ x, idMap.idOf x = number seen x) (x : Nat) :
    (idMap.idOf x).getD seen.length = seen.idxOf x := by
  rw [hIdOf, number]
  split_ifs with hx
  · rfl
  · exact (List.idxOf_eq_length hx).symm

variable (h : fs.Rooted) (hWalked : fs.Walked seen)
include h hWalked

theorem idOf_eq (hMap : ∀ x, idMap.get? x = (fs.objs.get? x).map fun _ => number seen x) (x : Nat) :
    idMap.idOf x = number seen x := by
  rw [IdMap.idOf, hMap, number]
  by_cases hx : fs.Live x
  · obtain ⟨o, ho⟩ := live_iff.mp hx
    rw [ho]
    rfl
  · rw [if_neg (mt (hWalked.mem_iff_live h).mp hx), Option.not_isSome_iff_eq_none.mp hx]
    rfl

theorem fixIds_body (hIdOf : ∀ x, idMap.idOf x = number seen x) {o : Obj}
    (ho : fs.objs.get? x = some o) :
    o.body.fixIds idMap seen.length = o.body.rename seen.idxOf := by
  have hEntries : ∀ e ∈ o.entries.entries, idMap.newId e.2 = seen.idxOf e.2 := by
    intro e he
    have hLive := h.live_child ⟨o, e.1, ho, get?_eq_some.mpr he⟩
    rw [newId_eq hIdOf, place, if_pos ((hWalked.mem_iff_live h).mpr hLive)]
  clear ho
  obtain ⟨id, ref, mode, body⟩ := o
  cases body with
  | file data => rfl
  | symLink path => rfl
  | dir d =>
    have hMap : d.entries.mapVal idMap.newId = d.entries.mapVal seen.idxOf :=
      SortedMap.mapVal_congr hEntries
    simp only [Body.fixIds, Body.rename, hMap, parent_eq hIdOf]

theorem fixIds_objs (hIdOf : ∀ x, idMap.idOf x = number seen x) :
    fs.objs.entries.foldl (fun m e => m.insert (idMap.newId e.1)
        { e.2 with id := idMap.newId e.1, body := e.2.body.fixIds idMap fs.objs.size }) .empty =
      (fs.renumber seen).objs := by
  apply List.foldl_ext
  intro m e he
  have ho := get?_eq_some.mpr he
  have hMem := (hWalked.mem_iff_live h).mpr (live_iff.mpr ⟨e.2, ho⟩)
  rw [← hWalked.length_eq h, fixIds_body h hWalked hIdOf ho, newId_eq hIdOf, place, if_pos hMem,
    Obj.rename, h.keys e.1 e.2 ho]

theorem internalCheck_renumber (hCheck : fs.internalCheck = .ok ()) :
    (fs.renumber seen).internalCheck = .ok () := by
  have hRenamed := renamed_renumber h hWalked
  exact (hRenamed.iso h).internalCheck h.toSound (hRenamed.rooted h).toSound hCheck

theorem size_renumber : (fs.renumber seen).objs.size = seen.length := by
  have hRenamed := renamed_renumber h hWalked
  have hWalked' := (hRenamed.iso h).walked_map h.toSound (hRenamed.rooted h).toSound hWalked
  rw [← hWalked'.length_eq (hRenamed.rooted h), List.length_map]

theorem dfsRemapIds_eq (hCheck : fs.internalCheck = .ok ()) (actual : SortedMap Nat Nat) :
    fs.dfsRemapIds actual = .ok (fs.renumber seen, actual.mapVal (place seen)) := by
  obtain ⟨idMap, seen', hOrder, hWalked', hMap⟩ := exists_walked h.toSound hCheck
  obtain rfl : seen' = seen := by
    have hWalk := hWalked'.walk
    rw [hWalked.walk] at hWalk
    cases hWalk
    rfl
  have hIdOf := idOf_eq h hWalked hMap
  have hValid : (idMap.entries.any fun e => e.2.isNone) = false := by
    rw [List.any_eq_false]
    intro e he
    have hEntry := hMap e.1
    rw [get?_eq_some.mpr he] at hEntry
    obtain ⟨o, ho, hNumber⟩ := Option.map_eq_some_iff.mp hEntry.symm
    rw [← hNumber, number, if_pos ((hWalked.mem_iff_live h).mpr (live_iff.mpr ⟨o, ho⟩))]
    exact Bool.false_ne_true
  have hFixed : fs.fixIds idMap = .ok { fs.renumber seen' with id := fs.id } := by
    have hSame : ({ fs with objs := (fs.renumber seen').objs } : AbstFS).internalCheck =
        .ok () := by
      rw [← internalCheck_renumber h hWalked hCheck]
      exact internalCheck_congr fun _ => rfl
    simp only [fixIds, hCheck, hValid, fixIds_objs h hWalked hIdOf, bind, Except.bind, hSame]
    rfl
  have hNew : idMap.newId = place seen' := funext (newId_eq hIdOf)
  have hRemapped : ({ fs.renumber seen' with id := seen'.length } : AbstFS).internalCheck =
      .ok () := internalCheck_renumber h hWalked hCheck
  simp only [dfsRemapIds, hOrder, hFixed, hNew, bind, Except.bind, size_renumber h hWalked,
    hRemapped]
  rfl

theorem place_place (x : Nat) : place (seen.map seen.idxOf) (place seen x) = place seen x := by
  have hRenamed := renamed_renumber h hWalked
  have hAt : ∀ y, seen.idxOf y = place seen y →
      place (seen.map seen.idxOf) (place seen y) = place seen y := by
    intro y hy
    have hPlace := hRenamed.place_map h hWalked y
    rwa [hy] at hPlace
  by_cases hx : x ∈ seen
  · exact hAt x (if_pos hx).symm
  · have hRoot : place seen 0 = 0 := by
      rw [place, if_pos ((hWalked.mem 0).mpr .refl), hRenamed.root]
    have hGone : place seen x = place seen 0 := (if_neg hx).trans hRoot.symm
    rw [hGone]
    exact hAt 0 (hRenamed.root.trans hRoot.symm)

/-- The objects are renumbered in the order `seen`, and nothing else changes. -/
structure Remapped (fs : AbstFS) (actual : SortedMap Nat Nat) (seen : List Nat) (fs' : AbstFS)
    (actual' : SortedMap Nat Nat) : Prop where
  live : ∀ x, x ∈ seen ↔ fs.Live x
  ids : ∀ k, fs'.Live k ↔ k < fs.objs.size
  next : fs'.id = fs.objs.size
  objs : ∀ x o, fs.objs.get? x = some o → ∃ o', fs'.objs.get? (seen.idxOf x) = some o' ∧
    o'.id = seen.idxOf x ∧ o'.type = o.type ∧ o'.mode = o.mode ∧ o'.ref = o.ref ∧
    o'.target = o.target ∧ o'.file? = o.file? ∧
    ∀ name, o'.entries.get? name = (o.entries.get? name).map seen.idxOf
  rest : { fs' with id := fs.id, objs := fs.objs } = fs
  actual : ∀ inode, actual'.get? inode =
    (actual.get? inode).map fun x => if x ∈ seen then seen.idxOf x else 0

theorem remapped_renumber (actual : SortedMap Nat Nat) :
    Remapped fs actual seen (fs.renumber seen) (actual.mapVal (place seen)) where
  live _ := hWalked.mem_iff_live h
  ids k := by rw [live_renumber h hWalked, hWalked.length_eq h]
  next := hWalked.length_eq h
  objs := by
    intro x o ho
    refine ⟨o.rename seen.idxOf, (renamed_renumber h hWalked).objs x o ho, ?_, o.type_rename _, rfl,
      rfl, o.target_rename _, o.file?_rename _, ?_⟩
    · rw [Obj.id_rename, h.keys x o ho]
    · intro name
      rw [Obj.entries_rename, get?_mapVal]
  rest := rfl
  actual inode := get?_mapVal actual _ inode

omit h hWalked

/-- The new ids are the places of the objects among the first visits of a depth-first walk, and file
systems that are equal up to their ids get the same result. -/
theorem dfsRemapIds_canonical (hForm : fs.WellFormed) (hCheck : fs.internalCheck = .ok ())
    (actual : SortedMap Nat Nat) :
    ∃ visits fs' actual', fs.PreOrder [0] visits ∧ fs.dfsRemapIds actual = .ok (fs', actual') ∧
      Remapped fs actual (firsts visits) fs' actual' ∧
      fs'.dfsRemapIds actual' = .ok (fs', actual') ∧
      ∀ f fs₂, Renamed f fs fs₂ → fs₂.dfsRemapIds (actual.mapVal f) = .ok (fs', actual') := by
  have h := hForm.rooted
  obtain ⟨_, seen, _, hWalked, _⟩ := exists_walked h.toSound hCheck
  obtain ⟨visits, hOrder, rfl⟩ := hWalked.preOrder h
  -- a renamed file system is walked in the same order, so both results are one
  have hSame : ∀ f fs₂ actual₂, Renamed f fs fs₂ → fs₂.dfsRemapIds actual₂ =
      .ok (fs.renumber (firsts visits), actual₂.mapVal (place ((firsts visits).map f))) := by
    intro f fs₂ actual₂ hRenamed
    have h₂ := hRenamed.rooted h
    have hIso := hRenamed.iso h
    rw [dfsRemapIds_eq h₂ (hIso.walked_map h.toSound h₂.toSound hWalked)
      (hIso.internalCheck h.toSound h₂.toSound hCheck), hRenamed.renumber_eq h hWalked]
  refine ⟨visits, _, _, hOrder, dfsRemapIds_eq h hWalked hCheck actual,
    remapped_renumber h hWalked actual, ?_, ?_⟩
  · rw [hSame _ _ _ (renamed_renumber h hWalked), SortedMap.mapVal_mapVal]
    simp only [place_place h hWalked]
  · intro f fs₂ hRenamed
    rw [hSame f fs₂ _ hRenamed, SortedMap.mapVal_mapVal]
    simp only [hRenamed.place_map h hWalked]

attribute [local instance] sampleHashes

/-- The file `/z` was made before the directory `/a`, and then got the second name `/a/b`. The last
inode is that of an object that is gone. -/
theorem dfsRemapIds_canonical_linked :
    ∃ fs visits fs' actual', emptyFS.run [.creat [47, 122] 420, .mkdir [47, 97] 493,
          .link [47, 122] [47, 97, 47, 98]] = .ok fs ∧ fs.internalCheck = .ok () ∧
      fs.PreOrder [0] visits ∧
      fs.dfsRemapIds ⟨[(20, 0), (21, 1), (22, 2), (23, 9)], by decide⟩ = .ok (fs', actual') ∧
      Remapped fs ⟨[(20, 0), (21, 1), (22, 2), (23, 9)], by decide⟩ (firsts visits) fs' actual' ∧
      fs'.dfsRemapIds actual' = .ok (fs', actual') := by
  have hRun : emptyFS.run
      [.creat [47, 122] 420, .mkdir [47, 97] 493, .link [47, 122] [47, 97, 47, 98]] = .ok _ := rfl
  have hForm := (init_wellFormed [] zeroMemory).run
    [.creat [47, 122] 420, .mkdir [47, 97] 493, .link [47, 122] [47, 97, 47, 98]]
    ⟨⟨0, [122], _, rfl, rfl, rfl, rfl⟩, ⟨0, [97], _, rfl, rfl, rfl, rfl⟩,
      ⟨⟨1, [], _, rfl, rfl, by decide⟩, 2, [98], _, rfl, rfl, rfl, rfl⟩, trivial⟩
  rw [hRun] at hForm
  obtain ⟨visits, fs', actual', hOrder, hRemap, hRemapped, hAgain, _⟩ :=
    dfsRemapIds_canonical hForm rfl ⟨[(20, 0), (21, 1), (22, 2), (23, 9)], by decide⟩
  exact ⟨_, visits, fs', actual', hRun, rfl, hOrder, hRemap, hRemapped, hAgain⟩

end Remap

end AbstFS

end Explode.Driver
