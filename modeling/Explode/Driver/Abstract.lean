import Explode.Driver.AbstractData
import Explode.Driver.NewPath
import Explode.Driver.RemapIds

/-!
# The abstract file system of a directory tree

`abstract` goes through a directory tree on disk. Each file that it meets for
the first time becomes a new object, and a further name of a file becomes a
link.
-/

namespace Explode.Driver

open Relation Loop Decimal

mutual

inductive DiskNode
  | file (ino mode size : Nat) (counts : ReadCounts size) (content : Nat → UInt8)
  | dir (ino mode : Nat) (entries : DiskDir)
  | symLink (ino : Nat) (target : CString)

inductive DiskDir
  | nil
  | cons (name : Name) (node : DiskNode) (rest : DiskDir)

end

def DiskNode.ino : DiskNode → Nat
  | .file ino _ _ _ _ => ino
  | .dir ino _ _ => ino
  | .symLink ino _ => ino

abbrev Inodes := SortedMap Nat Nat

/-- The failure without a cause is that of a file whose reads have not come to their end. -/
def ended {α : Type} : Option (FsResult α) → Except (Option FsFailure) α
  | none => .error none
  | some c => c.mapError some

section
variable [Hashes] (ignore : CString → Bool) (passes : Nat)

namespace AbstFS

def abstractNew (fs : AbstFS) (path : CString) : DiskNode → Except (Option FsFailure) AbstFS
  | .dir _ mode _ => ended (some (fs.mkdir path (mode % 512)))
  | .symLink _ target => ended (some (fs.symlink target path))
  | .file _ mode _ counts content => do
    let fs ← ended (some (fs.creat path (mode % 512)))
    ended (abstractData counts content path passes fs)

def markVisited (fs : AbstFS) (inodes : Inodes) (path : CString) (node : DiskNode) :
    Except (Option FsFailure) (AbstFS × Inodes) := do
  let fs ← fs.abstractNew passes path node
  match ← ended (some (fs.stat path)) with
  | none => .error (some .nullPointer)
  | some id => .ok (fs, inodes.insert node.ino id)

def linkVisited (fs : AbstFS) (path : CString) (old : Nat) : Except (Option FsFailure) AbstFS := do
  let back ← ended (some (fs.findBackPath old [] maxPath))
  ended (some (fs.link back path))

end AbstFS

mutual

def abstractOne (path : CString) (node : DiskNode) (fs : AbstFS) (inodes : Inodes) :
    Except (Option FsFailure) (AbstFS × Inodes) :=
  if ignore path then .ok (fs, inodes)
  else
    match inodes.get? node.ino with
    | some old => do
      let fs ← fs.linkVisited path old
      .ok (fs, inodes)
    | none => do
      let (fs, inodes) ← fs.markVisited passes inodes path node
      match node with
      | .dir _ _ entries => abstractDir path entries fs inodes
      | _ => .ok (fs, inodes)

def abstractDir (path : CString) : DiskDir → AbstFS → Inodes →
    Except (Option FsFailure) (AbstFS × Inodes)
  | .nil, fs, inodes => .ok (fs, inodes)
  | .cons name node rest, fs, inodes =>
    if name = [46] ∨ name = [46, 46] then abstractDir path rest fs inodes
    else do
      let (fs, inodes) ← abstractOne (path ++ slash :: name) node fs inodes
      abstractDir path rest fs inodes

end

def mapper : Visitor Int where
  wantDangling := false
  preVisit _ name _ nameId := (.cont, if nameId < nameToId name then nameToId name else nameId)
  postVisit _ _ _ nameId := (.cont, nameId)

def abstractRoot (mnt : CString) (ino : Nat) (entries : DiskDir) (fs : AbstFS) :
    Except (Option FsFailure) (AbstFS × Inodes) :=
  if ignore mnt then .ok (fs, .empty)
  else
    abstractDir ignore passes mnt entries fs (SortedMap.empty.insert ino 0)

def AbstFS.abstract (fs : AbstFS) (mnt : CString) (ino : Nat) (entries : DiskDir) :
    Except (Option FsFailure) (AbstFS × Inodes) := do
  let fs ← ended (some fs.clear)
  let (fs, inodes) ← abstractRoot ignore passes mnt ino entries { fs with mnt := mnt }
  ended (some fs.internalCheck)
  let (fs, inodes) ← ended (some (fs.dfsRemapIds inodes))
  let r ← ended (some (fs.dfs mapper 0))
  .ok ({ fs with nameId := ((r.2 + 1) % 4294967296).toNat }, inodes)

end

theorem ended_eq_ok {α : Type} {c : Option (FsResult α)} {a : α}
    (h : ended c = .ok a) : c = some (.ok a) := by
  cases c with
  | none => cases h
  | some c =>
    cases c with
    | error e => cases h
    | ok b =>
      cases h
      rfl

namespace AbstFS

variable {fs fs' : AbstFS} {path : CString}

structure Sprouted (fs : AbstFS) : Prop where
  consistent : fs.Consistent fun _ => 0
  reach : ∀ x, fs.Live x → fs.Reach x
  slashless : fs.Slashless

structure Grows (fs fs' : AbstFS) : Prop where
  entries : ∀ p n c, fs.getEntry p n = some c → fs'.getEntry p n = some c
  live : ∀ x, fs'.Live x → fs.Live x ∨ ∃ p n, fs.Live p ∧ fs'.getEntry p n = some x
  slashless : ∀ p n c, fs'.getEntry p n = some c → fs.getEntry p n = some c ∨ slash ∉ n

theorem Sprouted.grows (h : fs.Sprouted) (hGrows : fs.Grows fs')
    (hConsistent : fs'.Consistent fun _ => 0) : fs'.Sprouted := by
  have hReach : ∀ x, fs.Reach x → fs'.Reach x := by
    intro x hx
    refine ReflTransGen.mono (fun p c hEdge => ?_) 0 x hx
    obtain ⟨n, hEntry⟩ := child_iff_getEntry.mp hEdge
    exact child_iff_getEntry.mpr ⟨n, hGrows.entries p n c hEntry⟩
  refine ⟨hConsistent, ?_, ?_⟩
  · intro x hx
    obtain hOld | ⟨p, n, hp, hEntry⟩ := hGrows.live x hx
    · exact hReach x (h.reach x hOld)
    · exact (hReach p (h.reach p hp)).tail (child_iff_getEntry.mpr ⟨n, hEntry⟩)
  · intro p n c hEntry
    obtain hOld | hName := hGrows.slashless p n c hEntry
    · exact h.slashless p n c hOld
    · exact hName

theorem Sets.grows {p c : Nat} {name : Name} (h : fs.Sets p name (some c) fs')
    (hNone : fs.getEntry p name = none) (hName : slash ∉ name) : fs.Grows fs' where
  entries q n x hEntry := by
    rw [h.entries, if_neg]
    · exact hEntry
    · rintro hSame
      cases hSame
      cases hNone.symm.trans hEntry
  live x hx := by
    obtain ⟨o', ho'⟩ := live_iff.mp hx
    obtain ⟨o, ho, _⟩ := h.within x o' ho'
    exact .inl (live_iff.mpr ⟨o, ho⟩)
  slashless q n x hEntry := by
    rw [h.entries] at hEntry
    split_ifs at hEntry with hSame
    · cases hSame
      exact .inr hName
    · exact .inl hEntry

theorem Attaches.grows {o : Obj} {p : Nat} {name : Name} (h : fs.Attaches o p name fs')
    (hp : ∃ op, fs.objs.get? p = some op) (hName : slash ∉ name) : fs.Grows fs' where
  entries q n c hEntry := by
    rw [h.entries, if_neg, hEntry]
    rintro ⟨⟩
    cases h.free.symm.trans hEntry
  live x hx := by
    obtain ⟨o', ho'⟩ := live_iff.mp hx
    obtain ⟨rfl, _⟩ | ⟨o₁, h₁, _⟩ := h.within x o' ho'
    · exact .inr ⟨p, name, live_iff.mpr hp, (h.entries p name).trans (if_pos rfl)⟩
    · exact .inl (live_iff.mpr ⟨o₁, h₁⟩)
  slashless q n c hEntry := by
    rw [h.entries] at hEntry
    split_ifs at hEntry with hSame
    · cases hSame
      exact .inr hName
    · exact .inl hEntry

theorem Grows.update_same {fs₁ : AbstFS} (h : fs.Grows fs₁) {x : Nat} {o o' : Obj}
    (hGet : fs₁.objs.get? x = some o) (hEntries : o'.entries = o.entries) :
    fs.Grows (fs₁.update x o') where
  entries p n c hEntry := (getEntry_same hGet hEntries p n).trans (h.entries p n c hEntry)
  live y hy := by
    simp only [getEntry_same hGet hEntries]
    apply h.live
    obtain ⟨o₂, ho₂⟩ := live_iff.mp hy
    obtain ⟨rfl, rfl⟩ | ⟨_, ho₂⟩ := get?_update_cases ho₂
    · exact live_iff.mpr ⟨o, hGet⟩
    · exact live_iff.mpr ⟨o₂, ho₂⟩
  slashless p n c hEntry :=
    h.slashless p n c ((getEntry_same hGet hEntries p n).symm.trans hEntry)

theorem Grows.refl (fs : AbstFS) : fs.Grows fs :=
  ⟨fun _ _ _ hEntry => hEntry, fun _ hx => .inl hx, fun _ _ _ hEntry => .inl hEntry⟩

section Calls
variable {mode : Nat} {oldpath newpath : CString}

theorem creat_grows (h : fs.Consistent fun _ => 0) (hCall : fs.creat path mode = .ok fs') :
    fs.Grows fs' := by
  obtain ⟨nd, hFind, hAttach⟩ := creat_attaches h.get?_next hCall
  exact hAttach.grows (findPath_exists h hFind) (findPath_parent_name hFind).2

theorem mkdir_grows (h : fs.Consistent fun _ => 0) (hCall : fs.mkdir path mode = .ok fs') :
    fs.Grows fs' := by
  obtain ⟨nd, fs₁, o, hFind, hAttach, hGet, rfl⟩ := mkdir_attaches h.get?_next hCall
  have hGrows := hAttach.grows (findPath_exists h hFind) (findPath_parent_name hFind).2
  exact hGrows.update_same hGet rfl

theorem symlink_grows (h : fs.Consistent fun _ => 0)
    (hCall : fs.symlink oldpath newpath = .ok fs') : fs.Grows fs' := by
  obtain ⟨nd, hFind, hAttach⟩ := symlink_attaches h.get?_next hCall
  exact hAttach.grows (findPath_exists h hFind) (findPath_parent_name hFind).2

theorem link_grows (hCall : fs.link oldpath newpath = .ok fs') : fs.Grows fs' := by
  obtain ⟨nd, _, hCall⟩ := bind_eq_ok hCall
  obtain ⟨ndNew, hNew, hLink⟩ := bind_eq_ok hCall
  obtain ⟨hNone, _, hSets⟩ := linkObj_sets hLink
  exact hSets.grows hNone (findPath_parent_name hNew).2

theorem onFile_grows {call : FileCall} (hCall : fs.onFile path call = .ok fs') : fs.Grows fs' := by
  obtain ⟨nd, o, f, f', _, hGet, hBody, _, rfl⟩ := onFile_ok hCall
  exact (Grows.refl fs).update_same hGet (entries_setFile hBody f')

end Calls

section Tree
variable [Hashes] {ignore : CString → Bool} {passes : Nat}

theorem Sprouted.pwrite (h : fs.Sprouted) {buf : Bytes} {off : Nat}
    (hCall : fs.pwrite path buf off = .ok fs') : fs'.Sprouted :=
  h.grows (onFile_grows hCall) (@apply_consistent _ _ h.consistent _ (.pwrite path buf off) hCall)

theorem Sprouted.abstractLoop {size : Nat} {counts : ReadCounts size} {content : Nat → UInt8}
    {s : Abstracting} (h : s.fs.Sprouted)
    (hLoop : Driver.abstractLoop counts content path passes s = some (.ok fs')) : fs'.Sprouted := by
  induction passes generalizing s with
  | zero => cases hLoop
  | succ passes ih =>
    rw [Driver.abstractLoop] at hLoop
    split_ifs at hLoop
    · cases hLoop
      exact h
    · split at hLoop
      case h_1 => cases hLoop
      case h_2 fs₁ hWrite => exact ih (h.pwrite hWrite) hLoop

theorem Sprouted.abstractNew (h : fs.Sprouted) {node : DiskNode}
    (hNew : fs.abstractNew passes path node = .ok fs') : fs'.Sprouted := by
  cases node with
  | dir ino mode entries =>
    have hCall := Option.some.inj (ended_eq_ok hNew)
    exact h.grows (mkdir_grows h.consistent hCall) (mkdir_consistent h.consistent hCall)
  | symLink ino target =>
    have hCall := Option.some.inj (ended_eq_ok hNew)
    exact h.grows (symlink_grows h.consistent hCall) (symlink_consistent h.consistent hCall)
  | file ino mode size counts content =>
    obtain ⟨fs₁, hCreat, hData⟩ := bind_eq_ok hNew
    have hCall := Option.some.inj (ended_eq_ok hCreat)
    have hCreated : fs₁.Sprouted :=
      h.grows (creat_grows h.consistent hCall) (creat_consistent h.consistent hCall)
    exact Sprouted.abstractLoop (s := ⟨fs₁, 0, fun _ => 0⟩) hCreated (ended_eq_ok hData)

theorem Sprouted.markVisited (h : fs.Sprouted) {inodes : Inodes} {node : DiskNode}
    {r : AbstFS × Inodes} (hMark : fs.markVisited passes inodes path node = .ok r) :
    r.1.Sprouted := by
  obtain ⟨fs₁, hNew, hMark⟩ := bind_eq_ok hMark
  obtain ⟨found, _, hEnd⟩ := bind_eq_ok hMark
  cases found with
  | none => cases hEnd
  | some id =>
    cases hEnd
    exact h.abstractNew hNew

omit [Hashes] in
theorem Sprouted.linkVisited (h : fs.Sprouted) {old : Nat}
    (hLink : fs.linkVisited path old = .ok fs') : fs'.Sprouted := by
  obtain ⟨back, _, hLink⟩ := bind_eq_ok hLink
  have hCall := Option.some.inj (ended_eq_ok hLink)
  exact h.grows (link_grows hCall) (link_consistent h.consistent hCall)

mutual

theorem Sprouted.abstractOne (path : CString) (node : DiskNode) {fs : AbstFS} {inodes : Inodes}
    {r : AbstFS × Inodes} (h : fs.Sprouted)
    (hOne : Driver.abstractOne ignore passes path node fs inodes = .ok r) : r.1.Sprouted := by
  rw [Driver.abstractOne] at hOne
  split_ifs at hOne
  · cases hOne
    exact h
  · split at hOne
    · obtain ⟨fs₁, hLink, hEnd⟩ := bind_eq_ok hOne
      cases hEnd
      exact h.linkVisited hLink
    · obtain ⟨⟨fs₁, inodes₁⟩, hMark, hRest⟩ := bind_eq_ok hOne
      have hMarked := h.markVisited hMark
      cases node with
      | dir ino mode entries => exact Sprouted.abstractDir path entries hMarked hRest
      | symLink ino target =>
        cases hRest
        exact hMarked
      | file ino mode size counts content =>
        cases hRest
        exact hMarked

theorem Sprouted.abstractDir (path : CString) (entries : DiskDir) {fs : AbstFS} {inodes : Inodes}
    {r : AbstFS × Inodes} (h : fs.Sprouted)
    (hDir : Driver.abstractDir ignore passes path entries fs inodes = .ok r) : r.1.Sprouted := by
  cases entries with
  | nil =>
    cases hDir
    exact h
  | cons name node rest =>
    rw [Driver.abstractDir] at hDir
    split_ifs at hDir
    · exact Sprouted.abstractDir path rest h hDir
    · obtain ⟨⟨fs₁, inodes₁⟩, hOne, hRest⟩ := bind_eq_ok hDir
      have hFirst := Sprouted.abstractOne (path ++ slash :: name) node h hOne
      exact Sprouted.abstractDir path rest hFirst hRest

end

omit [Hashes] in
theorem sprouted_of_clear {prior : AbstFS} (h : prior.Consistent fun _ => 0)
    (hClear : prior.clear = .ok fs) (mnt : CString) :
    ({ fs with mnt := mnt } : AbstFS).Sprouted := by
  obtain ⟨_, _, hEnd⟩ := bind_eq_ok hClear
  cases hEnd
  obtain ⟨r, hr, hDir⟩ := h.root
  have hRef : r.ref = 0 := by
    have hLinks : prior.links 0 = 0 := by
      by_contra hPos
      obtain ⟨p, hChild⟩ := links_pos.mp (Nat.pos_of_ne_zero hPos)
      exact h.ne_zero hChild rfl
    have hCount := h.ref 0 r hr
    rwa [hLinks, add_zero] at hCount
  obtain ⟨id, ref, mode, body⟩ := r
  obtain rfl : ref = 0 := hRef
  cases body with
  | file f => cases hDir
  | symLink target => cases hDir
  | dir d =>
    simp only [hr, Option.getD_some]
    refine ⟨consistent_root rfl rfl rfl rfl rfl Nat.one_pos, ?_, ?_⟩
    · intro x hx
      obtain ⟨o, ho⟩ := live_iff.mp hx
      rw [(eq_of_get?_root rfl ho).1]
      exact .refl
    · intro p n c hEntry
      exact absurd (child_iff_getEntry.mpr ⟨n, hEntry⟩) (not_child_root rfl rfl p c)

end Tree

section Mapper

theorem nameToId_lt (n : Option Name) : nameToId n < 2147483648 := by
  cases n with
  | none => decide
  | some name => exact toInt_lt _

theorem mapper_returns (h : fs.Rooted) (levels : Nat) (p : Option Obj) (n : Option Name) {id : Nat}
    (hLive : fs.Live id) (s : Int) :
    Returns (Ends (fun t => s ≤ t ∧ (s < 2147483648 → t < 2147483648) ∧ nameToId n ≤ t ∧
        ∀ q name c, ReflTransGen fs.Child id q → fs.getEntry q name = some c → atoi name ≤ t)
        fun _ => False) (fun _ => True) (fs.dfsAt mapper levels p n (fs.objs.get? id) s) := by
  induction levels generalizing p n id s with
  | zero => trivial
  | succ levels ih =>
    obtain ⟨o, hGet⟩ := live_iff.mp hLive
    rw [hGet]
    refine dfsAt_returns (fun done t => s ≤ t ∧ (s < 2147483648 → t < 2147483648) ∧
      nameToId n ≤ t ∧ ∀ e ∈ done, atoi e.1 ≤ t ∧ ∀ q name c, ReflTransGen fs.Child e.2 q →
        fs.getEntry q name = some c → atoi name ≤ t) ?_ ?_ ?_
    · have hBound := nameToId_lt n
      refine ⟨?_, ?_, ?_, List.forall_mem_nil _⟩ <;> split_ifs <;> omega
    · rintro done e he t ⟨hLe, hLt, hName, hDone⟩
      have hChild := h.live_child ⟨o, e.1, hGet, SortedMap.get?_eq_some.mpr he⟩
      refine (ih (some o) (some e.1) hChild t).imp fun r hEnd => hEnd.imp ?_
      rintro t' ⟨hLater, hLast, hEntry, hAll⟩
      refine ⟨hLe.trans hLater, fun hs => hLast (hLt hs), hName.trans hLater,
        List.forall_mem_append.mpr ⟨?_, List.forall_mem_singleton.mpr ⟨hEntry, hAll⟩⟩⟩
      exact fun e he => ⟨(hDone e he).1.trans hLater, fun q name c hq hEntry =>
        ((hDone e he).2 q name c hq hEntry).trans hLater⟩
    · rintro t ⟨hLe, hLt, hName, hAll⟩
      refine ⟨hLe, hLt, hName, fun q name c hReach hEntry => ?_⟩
      obtain rfl | ⟨x, ⟨o', n', ho', hn'⟩, hRest⟩ := hReach.cases_head
      · obtain ⟨o', ho', hn⟩ := getEntry_eq_some.mp hEntry
        cases hGet.symm.trans ho'
        exact (hAll (name, c) (SortedMap.get?_eq_some.mp hn)).1
      · cases hGet.symm.trans ho'
        exact (hAll (n', x) (SortedMap.get?_eq_some.mp hn')).2 q name c hRest hEntry

theorem dfs_mapper (h : fs.Rooted) {r : VisitStatus × Int} (hWalk : fs.dfs mapper 0 = .ok r) :
    0 ≤ r.2 ∧ r.2 < 2147483648 ∧ ∀ p name c, fs.getEntry p name = some c → atoi name ≤ r.2 := by
  have hEnds := mapper_returns h maxDepth none none (h.live .refl) 0
  rw [show fs.dfsAt mapper maxDepth none none (fs.objs.get? 0) 0 = _ from hWalk] at hEnds
  obtain ⟨_ | _, t⟩ := r
  · obtain ⟨hLe, hLt, _, hAll⟩ := hEnds
    refine ⟨hLe, hLt (by decide), fun p name c hEntry => hAll p name c ?_ hEntry⟩
    obtain ⟨o, ho, _⟩ := getEntry_eq_some.mp hEntry
    exact h.reach p (live_iff.mpr ⟨o, ho⟩)
  · cases hEnds

end Mapper

section Result

theorem Sprouted.rooted (h : fs.Sprouted) (hCheck : fs.internalCheck = .ok ()) : fs.Rooted where
  toKeyed := h.consistent.toKeyed
  named p c _ hChild := h.consistent.named p c hChild
  acyclic := acyclic_of_internalCheck hCheck
  reach := h.reach

theorem Sprouted.dfsRemapIds (h : fs.Sprouted) (hCheck : fs.internalCheck = .ok ())
    {inodes inodes' : Inodes} (hRemap : fs.dfsRemapIds inodes = .ok (fs', inodes')) :
    fs'.Rooted ∧ fs'.Consistent (fun _ => 0) ∧ fs'.Slashless := by
  have hRooted := h.rooted hCheck
  obtain ⟨_, seen, _, hWalked, _⟩ := exists_walked hRooted.toSound hCheck
  rw [dfsRemapIds_eq hRooted hWalked hCheck] at hRemap
  cases hRemap
  have hRenamed := renamed_renumber hRooted hWalked
  refine ⟨hRenamed.rooted hRooted, hRenamed.consistent h.consistent fun y hy =>
    (live_renumber hRooted hWalked y).mp hy, ?_⟩
  intro p' name c' hEntry
  obtain ⟨p, c, hOld, _, _⟩ := hRenamed.getEntry_back hEntry
  exact h.slashless p name c hOld

variable [Hashes] {ignore : CString → Bool} {passes : Nat}

theorem abstract_ok {prior : AbstFS} (h : prior.Consistent fun _ => 0) {mnt : CString} {ino : Nat}
    {entries : DiskDir} {inodes : Inodes}
    (hAbstract : prior.abstract ignore passes mnt ino entries = .ok (fs, inodes)) :
    fs.Consistent (fun _ => 0) ∧ fs.Slashless ∧
      ∀ p name c, fs.getEntry p name = some c → atoi name < fs.nameId := by
  obtain ⟨cleared, hClear, hAbstract⟩ := bind_eq_ok hAbstract
  obtain ⟨⟨fs₁, inodes₁⟩, hRoot, hAbstract⟩ := bind_eq_ok hAbstract
  obtain ⟨_, hCheck, hAbstract⟩ := bind_eq_ok hAbstract
  obtain ⟨⟨fs₂, inodes₂⟩, hRemap, hAbstract⟩ := bind_eq_ok hAbstract
  obtain ⟨r, hMap, hEnd⟩ := bind_eq_ok hAbstract
  cases hEnd
  have hCleared := sprouted_of_clear h (Option.some.inj (ended_eq_ok hClear)) mnt
  have hSprouted : fs₁.Sprouted := by
    rw [abstractRoot] at hRoot
    split_ifs at hRoot
    · cases hRoot
      exact hCleared
    · exact Sprouted.abstractDir mnt entries hCleared hRoot
  obtain ⟨hRooted, hConsistent, hSlashless⟩ := hSprouted.dfsRemapIds
    (Option.some.inj (ended_eq_ok hCheck)) (Option.some.inj (ended_eq_ok hRemap))
  obtain ⟨hPos, hLt, hNames⟩ := dfs_mapper hRooted (Option.some.inj (ended_eq_ok hMap))
  refine ⟨{ hConsistent with }, hSlashless, ?_⟩
  intro p name c hEntry
  have hName := hNames p name c hEntry
  dsimp only
  omega

end Result

end AbstFS

end Explode.Driver
