import Explode.Driver.Circles
import Explode.Driver.Walks

/-!
# Paths back from the root

The search for an object keeps the names on the way from the root, and it stops
at the object. The path is the mount point and these names.
-/

namespace Explode.Driver

open Relation RootedGraph Loop

namespace AbstFS

variable {fs : AbstFS}

def tracer (target : Nat) : Visitor (List (Option Name)) where
  wantDangling := false
  preVisit _ name obj s := (if obj.map Obj.id = some target then .stop else .cont, s ++ [name])
  postVisit _ _ _ s := (.cont, s.dropLast)

/-- What `find_back_path` does for one of the names. The root has none. -/
def appendName (fs : AbstFS) (pathLen : Nat) (path : CString) :
    Option Name → FsResult CString
  | none => .ok fs.mnt
  | some n =>
    if path.length + 1 + n.length < pathLen then .ok (path ++ slash :: n) else .error .invalidPath

/-- `find_back_path`, with what the buffer holds before it. -/
def findBackPath (fs : AbstFS) (target : Nat) (path : CString) (pathLen : Nat) :
    FsResult CString := do
  let r ← fs.dfs (tracer target) []
  r.2.foldlM (fs.appendName pathLen) path

def joinNames (names : List Name) : CString := names.flatMap (slash :: ·)

def ProperNames (fs : AbstFS) : Prop :=
  ∀ p n c, fs.getEntry p n = some c → n ≠ [] ∧ slash ∉ n ∧ n.length < maxName

def PathsFit (fs : AbstFS) (pathLen : Nat) : Prop :=
  ∀ names x, fs.walkNames names 0 = .ok (some x) →
    (fs.mnt ++ joinNames names).length < min pathLen maxPath

section Names

theorem joinNames_cons (n : Name) (names : List Name) :
    joinNames (n :: names) = slash :: (n ++ joinNames names) := rfl

theorem splitNames_joinNames (cur : Name) {name : Name} (h : slash ∉ name)
    (hNe : cur ++ name ≠ []) (names : List Name) :
    splitNames cur (name ++ joinNames names) =
      (cur ++ name) :: splitNames [] ((joinNames names).drop 1) := by
  induction name generalizing cur with
  | nil =>
    rw [List.append_nil] at hNe
    cases names with
    | nil => simp [joinNames, splitNames, hNe]
    | cons n rest => simp [joinNames_cons, splitNames, hNe]
  | cons c rest ih =>
    obtain ⟨hc, hRest⟩ := not_or.mp (mt List.mem_cons.mpr h)
    rw [List.cons_append, splitNames, if_neg fun hSlash => hc hSlash.1.symm,
      ih (cur ++ [c]) hRest (by simp)]
    simp

theorem splitNames_drop_joinNames {names : List Name} (h : ∀ n ∈ names, n ≠ [] ∧ slash ∉ n) :
    splitNames [] ((joinNames names).drop 1) = names := by
  induction names with
  | nil => rfl
  | cons n rest ih =>
    obtain ⟨⟨hNe, hSlash⟩, hRest⟩ := List.forall_mem_cons.mp h
    rw [joinNames_cons, List.drop_one, List.tail_cons, splitNames_joinNames [] hSlash hNe,
      ih hRest, List.nil_append]

theorem getLast?_joinNames {names : List Name} (h : ∀ n ∈ names, n ≠ [] ∧ slash ∉ n)
    (hNames : names ≠ []) (front : CString) :
    (front ++ joinNames names).getLast? ≠ some slash := by
  obtain ⟨rest, n, rfl⟩ := List.eq_nil_or_concat' names |>.resolve_left hNames
  obtain ⟨hNe, hSlash⟩ := h n (by simp)
  have hEnd : front ++ joinNames (rest ++ [n]) = (front ++ joinNames rest ++ [slash]) ++ n := by
    simp [joinNames]
  rw [hEnd, List.getLast?_append_of_ne_nil _ hNe]
  intro hLast
  exact hSlash (List.mem_of_getLast? hLast)

theorem length_joinNames {names : List Name} (h : ∀ n ∈ names, n ≠ [] ∧ slash ∉ n) :
    2 * names.length ≤ (joinNames names).length := by
  induction names with
  | nil => exact Nat.zero_le _
  | cons n rest ih =>
    obtain ⟨⟨hNe, _⟩, hRest⟩ := List.forall_mem_cons.mp h
    have hn := List.length_pos_of_ne_nil hNe
    have hMore := ih hRest
    rw [joinNames_cons, List.length_cons, List.length_cons, List.length_append]
    omega

theorem foldlM_appendName (pathLen : Nat) (names : List Name) (path : CString)
    (h : (path ++ joinNames names).length < pathLen) :
    (names.map some).foldlM (fs.appendName pathLen) path = .ok (path ++ joinNames names) := by
  induction names generalizing path with
  | nil => simp [joinNames, pure, Except.pure]
  | cons n rest ih =>
    have hJoin : path ++ joinNames (n :: rest) = (path ++ slash :: n) ++ joinNames rest := by
      simp [joinNames_cons]
    rw [hJoin] at h ⊢
    have hHead : path.length + 1 + n.length < pathLen := by
      rw [List.length_append, List.length_append, List.length_cons] at h
      omega
    rw [List.map_cons, List.foldlM_cons, appendName, if_pos hHead]
    exact ih _ h

end Names

section Tracer
variable {path : CString} {x pathLen : Nat}

def Leads (fs : AbstFS) : List Name → Nat → Nat → Prop
  | [], id, x => id = x
  | n :: rest, id, x => ∃ c, fs.getEntry id n = some c ∧ fs.Leads rest c x

theorem tracer_returns (hKeys : fs.UnderIds) (hLive : ∃ o, fs.objs.get? x = some o) (levels : Nat)
    (p : Option Obj) (n : Option Name) (id : Nat) (s : List (Option Name)) :
    Returns (Ends (fun t => t = s ∧ ¬ReflTransGen fs.Child id x)
        fun t => ∃ names, t = s ++ n :: names.map some ∧ fs.Leads names id x) (fun _ => True)
      (fs.dfsAt (tracer x) levels p n (fs.objs.get? id) s) := by
  induction levels generalizing p n id s with
  | zero => trivial
  | succ levels ih =>
    cases hGet : fs.objs.get? id with
    | none =>
      refine ⟨rfl, fun hReach => ?_⟩
      obtain rfl | ⟨c, hChild, _⟩ := hReach.cases_head
      · obtain ⟨o, ho⟩ := hLive
        cases hGet.symm.trans ho
      · exact not_child_of_none hGet hChild
    | some o =>
      have hId := hKeys id o hGet
      refine dfsAt_returns (fun done t => t = s ++ [n] ∧ id ≠ x ∧
        ∀ e ∈ done, ¬ReflTransGen fs.Child e.2 x) ?_ ?_ ?_
      · simp only [tracer, Option.map_some, Option.some.injEq, hId]
        split_ifs with hTarget
        · exact ⟨[], rfl, hTarget⟩
        · exact ⟨rfl, hTarget, List.forall_mem_nil _⟩
      · rintro done e he _ ⟨rfl, hNe, hDone⟩
        have hEntry := getEntry_eq_some.mpr ⟨o, hGet, SortedMap.get?_eq_some.mpr he⟩
        refine (ih (some o) (some e.1) e.2 (s ++ [n])).imp ?_
        rintro ⟨_ | _, t⟩ hEnd
        · exact ⟨hEnd.1, hNe,
            List.forall_mem_append.mpr ⟨hDone, List.forall_mem_singleton.mpr hEnd.2⟩⟩
        · obtain ⟨names, rfl, hLeads⟩ := hEnd
          exact ⟨e.1 :: names, by simp, e.2, hEntry, hLeads⟩
      · rintro _ ⟨rfl, hNe, hAll⟩
        refine ⟨by simp [tracer], fun hReach => ?_⟩
        obtain hSame | ⟨c, ⟨o', name, ho', hn⟩, hRest⟩ := hReach.cases_head
        · exact hNe hSame
        · cases hGet.symm.trans ho'
          exact hAll (name, c) (SortedMap.get?_eq_some.mp hn) hRest

theorem foldlM_appendName_front {names : List Name} {front : CString}
    (h : (names.map some).foldlM (fs.appendName pathLen) path = .ok front) :
    front = path ++ joinNames names := by
  induction names generalizing path with
  | nil =>
    cases h
    simp [joinNames]
  | cons n rest ih =>
    rw [List.map_cons, List.foldlM_cons, appendName] at h
    split_ifs at h
    · rw [ih h, joinNames_cons]
      simp
    · cases h

theorem findBackPath_front (hKeys : fs.UnderIds) (hLive : ∃ o, fs.objs.get? x = some o)
    {front : CString} (h : fs.findBackPath x path pathLen = .ok front) :
    front = path ∧ ¬ReflTransGen fs.Child 0 x ∨
      ∃ names, fs.Leads names 0 x ∧ front = fs.mnt ++ joinNames names := by
  obtain ⟨⟨status, s⟩, hSearch, hFold⟩ := bind_eq_ok h
  have hEnds := tracer_returns hKeys hLive maxDepth none none 0 []
  rw [show fs.dfsAt (tracer x) maxDepth none none (fs.objs.get? 0) [] = _ from hSearch] at hEnds
  cases status with
  | cont =>
    obtain ⟨rfl, hNot⟩ := hEnds
    cases hFold
    exact .inl ⟨rfl, hNot⟩
  | stop =>
    obtain ⟨names, rfl, hLeads⟩ := hEnds
    exact .inr ⟨names, hLeads, foldlM_appendName_front hFold⟩

end Tracer

section Search

variable {x pathLen : Nat}

theorem walkNames_append {front : List Name} {id p : Nat}
    (h : fs.walkNames front id = .ok (some p)) (names : List Name) :
    fs.walkNames (front ++ names) id = fs.walkNames names p := by
  induction front generalizing id with
  | nil =>
    cases h
    rfl
  | cons name rest ih =>
    rw [List.cons_append, walkNames]
    rw [walkNames] at h
    split at h
    case h_1 => cases h
    case h_2 d hDir =>
    split_ifs at h with hLength
    split at h
    case h_1 => cases h
    case h_2 child hEntry =>
    split_ifs at h with hChild
    rw [if_neg hLength, if_pos hChild]
    exact ih h

theorem reach_of_walk {names : List Name} {id : Nat}
    (h : fs.walkNames names id = .ok (some x)) : ReflTransGen fs.Child id x := by
  induction names generalizing id with
  | nil =>
    cases h
    exact .refl
  | cons n rest ih =>
    obtain ⟨c, hEntry, hRest⟩ := walkNames_cons h
    exact .head (child_iff_getEntry.mpr ⟨n, hEntry⟩) (ih hRest)

theorem walkPath_join {names : List Name} (h : ∀ n ∈ names, n ≠ [] ∧ slash ∉ n) {nd : Namei}
    (hWant : nd.wantParent = false) (hMax : (fs.mnt ++ joinNames names).length < maxPath)
    (hHead : (fs.mnt ++ joinNames names).head? = some slash)
    (hLast : (fs.mnt ++ joinNames names).getLast? ≠ some slash) :
    fs.walkPath (fs.mnt ++ joinNames names) nd =
      (fs.walkNames names 0).map fun obj => { nd with obj := obj } := by
  have hPos : 0 < (fs.mnt ++ joinNames names).length := by
    apply List.length_pos_of_ne_nil
    intro hNil
    rw [hNil] at hHead
    cases hHead
  rw [walkPath, if_neg (not_not.mpr ⟨hPos, hMax⟩),
    if_neg (not_or.mpr ⟨not_not.mpr hHead, hLast⟩), if_neg (not_not.mpr ⟨_, rfl⟩)]
  simp only [hWant, List.drop_left, splitNames_drop_joinNames h, Bool.false_eq_true, if_false]
  cases fs.walkNames names 0 <;> rfl

theorem head_last_of_walkPath {path : CString} {nd nd' : Namei}
    (h : fs.walkPath path nd = .ok nd') :
    path.head? = some slash ∧ path.getLast? ≠ some slash := by
  rw [walkPath] at h
  split_ifs at h with _ hEnds
  all_goals exact ⟨not_not.mp (not_or.mp hEnds).1, (not_or.mp hEnds).2⟩

theorem names_of_walk (hNames : fs.ProperNames) {names : List Name} {id x : Nat}
    (h : fs.walkNames names id = .ok (some x)) : ∀ n ∈ names, n ≠ [] ∧ slash ∉ n := by
  induction names generalizing id with
  | nil => exact List.forall_mem_nil _
  | cons n rest ih =>
    obtain ⟨c, hEntry, hRest⟩ := walkNames_cons h
    obtain ⟨hNe, hSlash, _⟩ := hNames id n c hEntry
    exact List.forall_mem_cons.mpr ⟨⟨hNe, hSlash⟩, ih hRest⟩

theorem live_of_reach (hForm : fs.WellFormed) (hReach : ReflTransGen fs.Child 0 x) :
    ∃ o, fs.objs.get? x = some o := by
  obtain rfl | ⟨p, _, o, n, ho, hn⟩ := hReach.cases_tail
  · exact hForm.root.imp fun _ hr => hr.1
  · exact hForm.named p x ⟨o, n, ho, hn⟩

theorem names_eq_nil_iff (hForm : fs.WellFormed) {names : List Name}
    (hWalk : fs.walkNames names 0 = .ok (some x)) : names = [] ↔ x = 0 := by
  constructor
  · rintro rfl
    cases hWalk
    rfl
  · rintro rfl
    cases names with
    | nil => rfl
    | cons n rest =>
      obtain ⟨c, hEntry, hRest⟩ := walkNames_cons hWalk
      exact absurd (TransGen.head' (child_iff_getEntry.mpr ⟨n, hEntry⟩) (reach_of_walk hRest))
        (hForm.acyclic 0)

variable (hForm : fs.WellFormed) (hNames : fs.ProperNames)
include hForm hNames

theorem walkNames_entry {p c : Nat} {n : Name} (h : fs.getEntry p n = some c) (names : List Name) :
    fs.walkNames (n :: names) p = fs.walkNames names c := by
  obtain ⟨o, ho, hn⟩ := getEntry_eq_some.mp h
  obtain ⟨oc, hoc⟩ := hForm.named p c ⟨o, n, ho, hn⟩
  obtain ⟨d, hDir, hEntry⟩ := Option.bind_eq_some_iff.mp h
  have hShort := (hNames p n c h).2.2
  rw [walkNames, hDir]
  simp only [hEntry, hoc, Option.isSome_some, if_true, if_neg (Nat.not_le.mpr hShort)]

theorem walkNames_of_leads {names : List Name} {id : Nat} (h : fs.Leads names id x) :
    fs.walkNames names id = .ok (some x) := by
  induction names generalizing id with
  | nil =>
    cases h
    rfl
  | cons n rest ih =>
    obtain ⟨c, hEntry, hRest⟩ := h
    exact (walkNames_entry hForm hNames hEntry rest).trans (ih hRest)

theorem short_of_pathsFit (hFit : fs.PathsFit pathLen) (levels : Nat) {id : Nat}
    {front : List Name} (hFront : fs.walkNames front 0 = .ok (some id))
    (hLevels : levels + front.length = maxDepth) : Short fs.Child levels id := by
  induction levels generalizing id front with
  | zero =>
    have hLong := length_joinNames (names_of_walk hNames hFront)
    have hShort := hFit front id hFront
    rw [List.length_append] at hShort
    have hDepth : maxPath = 2 * maxDepth := by decide
    omega
  | succ levels ih =>
    intro c hChild
    obtain ⟨n, hEntry⟩ := child_iff_getEntry.mp hChild
    have hNext : fs.walkNames (front ++ [n]) 0 = .ok (some c) := by
      rw [walkNames_append hFront, walkNames_entry hForm hNames hEntry]
      rfl
    apply ih hNext
    rw [List.length_append, List.length_singleton]
    omega

theorem findBackPath_ok (hFit : fs.PathsFit pathLen) (hReach : ReflTransGen fs.Child 0 x)
    (path : CString) :
    ∃ names, fs.walkNames names 0 = .ok (some x) ∧
      fs.findBackPath x path pathLen = .ok (fs.mnt ++ joinNames names) := by
  have hShort : Short fs.Child maxDepth 0 :=
    short_of_pathsFit hForm hNames hFit maxDepth (show fs.walkNames [] 0 = _ from rfl) (add_zero _)
  obtain ⟨⟨status, s⟩, hSearch⟩ := dfsAt_ok (tracer x) hShort none none []
  have hEnds := tracer_returns hForm.keys (live_of_reach hForm hReach) maxDepth none none 0 []
  rw [hSearch] at hEnds
  cases status with
  | cont => exact absurd hReach hEnds.2
  | stop =>
    obtain ⟨names, rfl, hLeads⟩ := hEnds
    have hWalk := walkNames_of_leads hForm hNames hLeads
    refine ⟨names, hWalk, ?_⟩
    rw [findBackPath, dfs, hSearch]
    exact foldlM_appendName pathLen names fs.mnt ((hFit names x hWalk).trans_le (min_le_left _ _))

theorem head_last_back {names : List Name} (hWalk : fs.walkNames names 0 = .ok (some x)) :
    ((fs.mnt ++ joinNames names).head? = some slash ∧
        (fs.mnt ++ joinNames names).getLast? ≠ some slash) ↔
      (fs.mnt.head? = some slash ∨ fs.mnt = [] ∧ x ≠ 0) ∧
        (x = 0 → fs.mnt.getLast? ≠ some slash) := by
  cases names with
  | nil =>
    have hRoot := (names_eq_nil_iff hForm hWalk).mp rfl
    simp [joinNames, hRoot]
  | cons n rest =>
    have hOther : x ≠ 0 := fun hx => List.cons_ne_nil _ _ ((names_eq_nil_iff hForm hWalk).mpr hx)
    have hLast := getLast?_joinNames (names_of_walk hNames hWalk) (List.cons_ne_nil _ _) fs.mnt
    simp only [hLast, hOther, ne_eq, not_false_eq_true, and_true, false_implies]
    cases fs.mnt with
    | nil => simp [joinNames_cons]
    | cons c m => simp

end Search

section Result
variable {x pathLen : Nat}

/-- A walk along the path back from an object finds it exactly if the mount point begins with a
slash or is empty below the root, and does not end with one at the root. -/
theorem walkPath_findBackPath_iff (hForm : fs.WellFormed) (hNames : fs.ProperNames)
    (hFit : fs.PathsFit pathLen) (hReach : ReflTransGen fs.Child 0 x) (path : CString) (nd : Namei)
    (hWant : nd.wantParent = false) :
    (∃ back, fs.findBackPath x path pathLen = .ok back ∧
        fs.walkPath back nd = .ok { nd with obj := some x }) ↔
      (fs.mnt.head? = some slash ∨ fs.mnt = [] ∧ x ≠ 0) ∧
        (x = 0 → fs.mnt.getLast? ≠ some slash) := by
  obtain ⟨names, hWalk, hBack⟩ := findBackPath_ok hForm hNames hFit hReach path
  rw [← head_last_back hForm hNames hWalk, hBack]
  constructor
  · rintro ⟨back, hSame, hFound⟩
    cases hSame
    exact head_last_of_walkPath hFound
  · rintro ⟨hHead, hLast⟩
    refine ⟨_, rfl, ?_⟩
    rw [walkPath_join (names_of_walk hNames hWalk) hWant
      ((hFit names x hWalk).trans_le (min_le_right _ _)) hHead hLast, hWalk]
    rfl

end Result

section Examples

theorem properNames_of_all
    (h : ∀ e ∈ fs.objs.entries, ∀ n ∈ e.2.entries.entries,
      n.1 ≠ [] ∧ slash ∉ n.1 ∧ n.1.length < maxName) : fs.ProperNames := by
  intro p n c hEntry
  obtain ⟨o, ho, hn⟩ := getEntry_eq_some.mp hEntry
  exact h (p, o) (SortedMap.get?_eq_some.mp ho) (n, c) (SortedMap.get?_eq_some.mp hn)

theorem pathsFit_of_bound {pathLen : Nat} (bound : Nat → Nat)
    (h : ∀ e ∈ fs.objs.entries, ∀ n ∈ e.2.entries.entries, 1 + n.1.length + bound n.2 ≤ bound e.1)
    (hRoot : fs.mnt.length + bound 0 < min pathLen maxPath) : fs.PathsFit pathLen := by
  have hBelow : ∀ (names : List Name) (id x : Nat), fs.walkNames names id = .ok (some x) →
      (joinNames names).length ≤ bound id := by
    intro names
    induction names with
    | nil => exact fun id x _ => Nat.zero_le _
    | cons n rest ih =>
      intro id x hWalk
      obtain ⟨c, hEntry, hRest⟩ := walkNames_cons hWalk
      obtain ⟨o, ho, hn⟩ := getEntry_eq_some.mp hEntry
      have hStep := h (id, o) (SortedMap.get?_eq_some.mp ho) (n, c) (SortedMap.get?_eq_some.mp hn)
      have hMore := ih c x hRest
      rw [joinNames_cons, List.length_cons, List.length_append]
      dsimp only at hStep
      omega
  intro names x hWalk
  have hNames := hBelow names 0 x hWalk
  rw [List.length_append]
  omega

attribute [local instance] sampleHashes

/-- The file `/m/a/b` with the second name `/m/c`. -/
theorem walkPath_findBackPath_iff_linked :
    ∃ fs, (init [47, 109] zeroMemory).run
        [.mkdir [47, 109, 47, 97] 493, .creat [47, 109, 47, 97, 47, 98] 420,
          .link [47, 109, 47, 97, 47, 98] [47, 109, 47, 99]] = .ok fs ∧
      ReflTransGen fs.Child 0 2 ∧
      ((∃ back, fs.findBackPath 2 [] maxPath = .ok back ∧
          fs.walkPath back nameiInit = .ok { nameiInit with obj := some 2 }) ↔
        (fs.mnt.head? = some slash ∨ fs.mnt = [] ∧ 2 ≠ 0) ∧
          (2 = 0 → fs.mnt.getLast? ≠ some slash)) := by
  have hRun : (init [47, 109] zeroMemory).run
      [.mkdir [47, 109, 47, 97] 493, .creat [47, 109, 47, 97, 47, 98] 420,
        .link [47, 109, 47, 97, 47, 98] [47, 109, 47, 99]] = .ok _ := rfl
  have hForm := (init_wellFormed [47, 109] zeroMemory).run
    [.mkdir [47, 109, 47, 97] 493, .creat [47, 109, 47, 97, 47, 98] 420,
      .link [47, 109, 47, 97, 47, 98] [47, 109, 47, 99]]
    ⟨⟨0, [97], _, rfl, rfl, rfl, rfl⟩, ⟨1, [98], _, rfl, rfl, rfl, rfl⟩,
      ⟨⟨2, [], _, rfl, rfl, by decide⟩, 0, [99], _, rfl, rfl, rfl, rfl⟩, trivial⟩
  rw [hRun] at hForm
  have hReach := hForm.reachable 2 _ rfl not_false
  refine ⟨_, hRun, hReach, walkPath_findBackPath_iff hForm (properNames_of_all ?_)
    (pathsFit_of_bound (fun id => if id = 0 then 4 else if id = 1 then 2 else 0) ?_ ?_) hReach []
    nameiInit rfl⟩
  · decide +kernel
  · decide +kernel
  · decide +kernel

/-- The root of a file system that is not mounted, and of one that is mounted on the root: the
paths are empty and a slash. -/
theorem findBackPath_root_rejected :
    (emptyFS.WellFormed ∧ emptyFS.ProperNames ∧ emptyFS.PathsFit maxPath ∧
      emptyFS.findBackPath 0 [] maxPath = .ok [] ∧
      emptyFS.walkPath [] nameiInit = .error .invalidPath) ∧
    (init [47] zeroMemory).WellFormed ∧
      (init [47] zeroMemory).ProperNames ∧
      (init [47] zeroMemory).PathsFit maxPath ∧
      (init [47] zeroMemory).findBackPath 0 [] maxPath = .ok [47] ∧
      (init [47] zeroMemory).walkPath [47] nameiInit = .error .invalidPath := by
  refine ⟨⟨init_wellFormed _ _, properNames_of_all ?_,
    pathsFit_of_bound (fun _ => 0) ?_ ?_, rfl, rfl⟩, init_wellFormed _ _,
    properNames_of_all ?_, pathsFit_of_bound (fun _ => 0) ?_ ?_, rfl, rfl⟩
  all_goals decide +kernel

end Examples

end AbstFS

end Explode.Driver
