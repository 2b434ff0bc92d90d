import Explode.Driver.Abstract
import Explode.Driver.Parents

/-!
# New paths are new

Every name in a file system that is a number with zeros before it has a smaller
number than the counter.
-/

namespace Explode.Driver

open Relation Loop Decimal

def FsOp.newName? : FsOp → Option CString
  | .creat path _ => some path
  | .mkdir path _ => some path
  | .symlink _ newpath => some newpath
  | .link _ newpath => some newpath
  | .rename _ newpath => some newpath
  | .unlink _ => none
  | .rmdir _ => none
  | .pwrite _ _ _ => none
  | .truncate _ _ => none

structure NamedTree where
  fs : AbstFS
  issued : List CString

inductive NameStep
  | call (i : Nat) (op : FsOp)
  | newPath (i : Nat) (choose : Nat → Nat) (path : CString) (pathLen : Nat)
  | copy (i j : Nat)
  | abstract (i : Nat) (ignore : CString → Bool) (passes : Nat) (mnt : CString) (ino : Nat)
    (entries : DiskDir)

namespace NameStep

section
variable [Hashes] (nameLen : Nat)

def apply (trees : Nat → NamedTree) : NameStep → Except (Option FsFailure) (Nat → NamedTree)
  | call i op => do
    let fs ← ended (some ((trees i).fs.apply op))
    .ok (Function.update trees i ⟨fs, (trees i).issued⟩)
  | newPath i choose path pathLen => do
    let r ← ended (some ((trees i).fs.newPath nameLen choose path pathLen))
    .ok (Function.update trees i ⟨r.2, r.1 :: (trees i).issued⟩)
  | copy i j => do
    let fs ← ended (some ((trees i).fs.copy (trees j).fs))
    .ok (Function.update trees i ⟨fs, (trees j).issued⟩)
  | abstract i ignore passes mnt ino entries => do
    let r ← (trees i).fs.abstract ignore passes mnt ino entries
    .ok (Function.update trees i ⟨r.1, []⟩)

end

/-- New names come from `new_path`, its counter has not overflowed, and a copy is made of another
file system that can be read back. -/
def Fresh (trees : Nat → NamedTree) : NameStep → Prop
  | call i op => ∀ path ∈ op.newName?, path ∈ (trees i).issued
  | newPath i _ _ _ => (trees i).fs.nameId < 2147483648
  | copy i j => i ≠ j ∧ (trees j).fs.Copyable
  | abstract _ _ _ _ _ _ => True

instance (trees : Nat → NamedTree) : DecidablePred (Fresh trees)
  | call _ op => Option.decidableForallMem op.newName?
  | newPath _ _ _ _ => Nat.decLt _ _
  | copy _ _ => instDecidableAnd
  | abstract _ _ _ _ _ _ => instDecidableTrue

end NameStep

namespace AbstFS

variable {fs fs' : AbstFS}

structure Renames (fs : AbstFS) (op : FsOp) (fs' : AbstFS) : Prop where
  nameId : fs'.nameId = fs.nameId
  entries : ∀ p n c, fs'.getEntry p n = some c → fs.getEntry p n = some c ∨
    ∃ path nd, path ∈ op.newName? ∧ fs.findPath path parentNameiInit = .ok nd ∧ nd.2 = n

theorem Sets.renames {op : FsOp} {fs₁ : AbstFS} {p : Nat} {name : Name} {child : Option Nat}
    (h : fs.Renames op fs₁) (hSets : fs₁.Sets p name child fs') (hId : fs'.nameId = fs₁.nameId)
    (hNew : ∀ c, child = some c →
      ∃ path nd, path ∈ op.newName? ∧ fs.findPath path parentNameiInit = .ok nd ∧ nd.2 = name) :
    fs.Renames op fs' where
  nameId := hId.trans h.nameId
  entries q n c hEntry := by
    rw [hSets.entries] at hEntry
    split_ifs at hEntry with hx
    · cases hx
      exact .inr (hNew c hEntry)
    · exact h.entries q n c hEntry

theorem Renames.refl (fs : AbstFS) (op : FsOp) : fs.Renames op fs :=
  ⟨rfl, fun _ _ _ hEntry => .inl hEntry⟩

theorem Attaches.renames {op : FsOp} {o : Obj} {path : CString} {nd : Nat × Name}
    (h : fs.Attaches o nd.1 nd.2 fs') (hPath : path ∈ op.newName?)
    (hFind : fs.findPath path parentNameiInit = .ok nd) : fs.Renames op fs' where
  nameId := h.nameId
  entries q n c hEntry := by
    rw [h.entries] at hEntry
    split_ifs at hEntry with hx
    · cases hx
      exact .inr ⟨path, nd, hPath, hFind, rfl⟩
    · exact .inl hEntry

theorem Renames.updated {op : FsOp} {fs₁ : AbstFS} (h : fs.Renames op fs₁) {x : Nat} {o o' : Obj}
    (hGet : fs₁.objs.get? x = some o) (hEntries : o'.entries = o.entries) :
    fs.Renames op (fs₁.update x o') where
  nameId := h.nameId
  entries q n c hEntry := by
    rw [getEntry_same hGet hEntries] at hEntry
    exact h.entries q n c hEntry

section Calls
variable {op : FsOp}
  {path : CString}

theorem unlinkObj_renames (hKeys : fs.UnderIds) {p : Nat}
    {name : Name} (h : fs.unlinkObj p name = .ok fs') : fs.Renames op fs' := by
  obtain ⟨_, hSets⟩ := unlinkObj_sets hKeys h
  refine Sets.renames (Renames.refl fs op) hSets (unlinkObj_nameId h) ?_
  intro c hc
  cases hc

theorem linkObj_renames (hPath : path ∈ op.newName?) {nd : Nat × Name}
    (hFind : fs.findPath path parentNameiInit = .ok nd) {c : Nat}
    (hLink : fs.linkObj nd.1 c nd.2 = .ok fs') : fs.Renames op fs' := by
  obtain ⟨_, _, hSets⟩ := linkObj_sets hLink
  exact Sets.renames (Renames.refl fs op) hSets (linkObj_nameId hLink)
    fun _ _ => ⟨path, nd, hPath, hFind, rfl⟩

theorem onFile_renames {call : FileCall}
    (hCall : fs.onFile path call = .ok fs') : fs.Renames op fs' := by
  obtain ⟨nd, o, f, f', _, hGet, hBody, _, rfl⟩ := onFile_ok hCall
  exact (Renames.refl fs op).updated hGet (entries_setFile hBody f')

theorem rename_renames (hKeys : fs.UnderIds) {oldpath newpath : CString}
    (hCall : fs.rename oldpath newpath = .ok fs') : fs.Renames (.rename oldpath newpath) fs' := by
  obtain ⟨old, _, hCall⟩ := bind_eq_ok hCall
  obtain ⟨c, _, hCall⟩ := bind_eq_ok hCall
  obtain ⟨new, hNew, hCall⟩ := bind_eq_ok hCall
  obtain ⟨fs₁, hLink, hUnlink⟩ := bind_eq_ok hCall
  have hLinked : fs.Renames (.rename oldpath newpath) fs₁ := linkObj_renames rfl hNew hLink
  refine Sets.renames hLinked (unlinkObj_sets (linkObj_keys hKeys hLink) hUnlink).2
    (unlinkObj_nameId hUnlink) ?_
  intro c hc
  cases hc

variable [Hashes]

theorem apply_renames (h : fs.Consistent fun _ => 0)
    (hCall : fs.apply op = .ok fs') : fs.Renames op fs' := by
  have hKeys : fs.UnderIds := fun id o ho => h.keys id o ho
  cases op with
  | creat path mode =>
    obtain ⟨nd, hFind, hAttach⟩ := creat_attaches h.get?_next hCall
    exact hAttach.renames rfl hFind
  | mkdir path mode =>
    obtain ⟨nd, fs₁, o, hFind, hAttach, hGet, rfl⟩ := mkdir_attaches h.get?_next hCall
    exact (hAttach.renames rfl hFind).updated hGet rfl
  | symlink oldpath newpath =>
    obtain ⟨nd, hFind, hAttach⟩ := symlink_attaches h.get?_next hCall
    exact hAttach.renames rfl hFind
  | link oldpath newpath =>
    obtain ⟨nd, _, hCall⟩ := bind_eq_ok hCall
    obtain ⟨ndNew, hFind, hLink⟩ := bind_eq_ok hCall
    exact linkObj_renames rfl hFind hLink
  | unlink path =>
    obtain ⟨nd, _, hUnlink⟩ := bind_eq_ok hCall
    exact unlinkObj_renames hKeys hUnlink
  | rmdir path =>
    obtain ⟨nd, _, hUnlink⟩ := rmdir_ok hCall
    exact unlinkObj_renames hKeys hUnlink
  | rename oldpath newpath => exact rename_renames hKeys hCall
  | pwrite path buf off => exact onFile_renames hCall
  | truncate path length => exact onFile_renames hCall

theorem apply_slashless (h : fs.Consistent fun _ => 0) (hSlashless : fs.Slashless)
    (hCall : fs.apply op = .ok fs') : fs'.Slashless := by
  intro p n c hEntry
  obtain hOld | ⟨path, nd, _, hFind, rfl⟩ := (apply_renames h hCall).entries p n c hEntry
  · exact hSlashless p n c hOld
  · exact (findPath_parent_name hFind).2

end Calls

end AbstFS

theorem eq_of_last_slash {front front' a b : CString} (ha : slash ∉ a) (hb : slash ∉ b)
    (h : front ++ slash :: a = front' ++ slash :: b) : a = b := by
  obtain ⟨t, _, ht⟩ | ⟨t, _, ht⟩ := List.append_eq_append_iff.mp h
  · cases t with
    | nil => exact (List.cons.inj ht).2
    | cons x t =>
      refine absurd ?_ ha
      rw [(List.cons.inj ht).2]
      exact List.mem_append_right _ List.mem_cons_self
  · cases t with
    | nil => exact (List.cons.inj ht).2.symm
    | cons x t =>
      refine absurd ?_ hb
      rw [(List.cons.inj ht).2]
      exact List.mem_append_right _ List.mem_cons_self

namespace NamedTree

structure NamesBelow (nameLen : Nat) (t : NamedTree) : Prop where
  consistent : t.fs.Consistent fun _ => 0
  slashless : t.fs.Slashless
  entries : ∀ p name c k, t.fs.getEntry p name = some c → idToName k nameLen = .ok name →
    k < 2147483648 → k < t.fs.nameId
  issued : ∀ path ∈ t.issued, ∃ front name k, path = front ++ slash :: name ∧
    idToName k nameLen = .ok name ∧ k < 2147483648 ∧ k < t.fs.nameId

variable {nameLen : Nat}
  {t : NamedTree} {fs : AbstFS}

theorem NamesBelow.newPath (h : t.NamesBelow nameLen) (hCounter : t.fs.nameId < 2147483648)
    {choose : Nat → Nat} {path path' : CString} {pathLen : Nat}
    (hNew : t.fs.newPath nameLen choose path pathLen = .ok (path', fs)) :
    NamesBelow nameLen ⟨fs, path' :: t.issued⟩ := by
  obtain ⟨front, name, _, hName, rfl, rfl⟩ := AbstFS.newPath_ok hNew
  have hNext : (t.fs.nameId + 1) % 4294967296 = t.fs.nameId + 1 := by omega
  constructor
  · exact { h.consistent with }
  · exact h.slashless
  · intro p n c k hEntry hn hk
    have hBelow := h.entries p n c k hEntry hn hk
    dsimp only
    omega
  · dsimp only
    rw [hNext]
    rintro path (_ | ⟨_, hOld⟩)
    · exact ⟨front, name, t.fs.nameId, rfl, hName, hCounter, Nat.lt_succ_self _⟩
    · obtain ⟨front', n, k, hSplit, hn, hk, hBelow⟩ := h.issued path hOld
      exact ⟨front', n, k, hSplit, hn, hk, Nat.lt_succ_of_lt hBelow⟩

theorem NamesBelow.copy (h : t.NamesBelow nameLen) (hCopyable : t.fs.Copyable) {target : AbstFS}
    (hCopy : target.copy t.fs = .ok fs) : NamesBelow nameLen ⟨fs, t.issued⟩ := by
  obtain ⟨cleared, hClear, -⟩ := bind_eq_ok hCopy
  obtain ⟨fs₁, hCopy', hSame⟩ := AbstFS.copy_same h.consistent hCopyable hClear
  cases hCopy.symm.trans hCopy'
  constructor
  · exact hSame.consistent h.consistent
  · intro p n c hEntry
    exact h.slashless p n c ((hSame.getEntry p n).symm.trans hEntry)
  · intro p n c k hEntry hn hk
    rw [hSame.nameId]
    exact h.entries p n c k ((hSame.getEntry p n).symm.trans hEntry) hn hk
  · rw [hSame.nameId]
    exact h.issued

theorem init_namesBelow (mnt : CString) (memory : Memory) :
    NamesBelow nameLen ⟨AbstFS.init mnt memory, []⟩ := by
  have hNone : ∀ p name c, (AbstFS.init mnt memory).getEntry p name ≠ some c := by
    intro p name c hEntry
    obtain ⟨o, ho, hn⟩ := AbstFS.getEntry_eq_some.mp hEntry
    rw [AbstFS.init, SortedMap.get?_insert] at ho
    split_ifs at ho
    · cases ho
      cases hn
    · cases ho
  constructor
  · exact AbstFS.init_consistent mnt memory
  · exact fun p name c hEntry => absurd hEntry (hNone p name c)
  · exact fun p name c _ hEntry => absurd hEntry (hNone p name c)
  · exact List.forall_mem_nil _

variable [Hashes]

theorem NamesBelow.call (h : t.NamesBelow nameLen) {op : FsOp}
    (hFresh : ∀ path ∈ op.newName?, path ∈ t.issued) (hCall : t.fs.apply op = .ok fs) :
    NamesBelow nameLen ⟨fs, t.issued⟩ := by
  have hRenames := AbstFS.apply_renames h.consistent hCall
  constructor
  · exact AbstFS.apply_consistent h.consistent hCall
  · exact AbstFS.apply_slashless h.consistent h.slashless hCall
  · intro p name c k hEntry hName hk
    rw [hRenames.nameId]
    obtain hOld | ⟨path, nd, hPath, hFind, rfl⟩ := hRenames.entries p name c hEntry
    · exact h.entries p name c k hOld hName hk
    · obtain ⟨front, issued, k', hSplit, hIssued, hk', hBelow⟩ := h.issued path (hFresh path hPath)
      obtain ⟨⟨front', hLast⟩, hSlash⟩ := AbstFS.findPath_parent_name hFind
      have hEnd := congrArg (path.take t.fs.mnt.length ++ ·) (splitLast_eq hLast).1
      rw [List.take_append_drop, ← List.append_assoc, hSplit] at hEnd
      obtain rfl := eq_of_last_slash (slash_notMem_idToName hIssued) hSlash hEnd
      have hSame := (atoi_idToName hIssued hk').symm.trans (atoi_idToName hName hk)
      omega
  · rw [hRenames.nameId]
    exact h.issued

theorem NamesBelow.abstract (h : t.NamesBelow nameLen) {ignore : CString → Bool}
    {passes ino : Nat} {mnt : CString} {entries : DiskDir} {r : AbstFS × Inodes}
    (hAbstract : t.fs.abstract ignore passes mnt ino entries = .ok r) :
    NamesBelow nameLen ⟨r.1, []⟩ := by
  obtain ⟨hConsistent, hSlashless, hNames⟩ := AbstFS.abstract_ok h.consistent hAbstract
  refine ⟨hConsistent, hSlashless, ?_, List.forall_mem_nil _⟩
  intro p name c k hEntry hName hk
  have hBelow := hNames p name c hEntry
  rw [atoi_idToName hName hk] at hBelow
  exact Int.ofNat_lt.mp hBelow

theorem NamesBelow.step {trees trees' : Nat → NamedTree} (h : ∀ i, (trees i).NamesBelow nameLen)
    {step : NameStep} (hFresh : step.Fresh trees) (hApply : step.apply nameLen trees = .ok trees') :
    ∀ i, (trees' i).NamesBelow nameLen := by
  have hUpdate : ∀ i t, NamesBelow nameLen t →
      ∀ j, (Function.update trees i t j).NamesBelow nameLen := fun i t ht =>
    (Function.forall_update_iff trees fun _ t => t.NamesBelow nameLen).mpr ⟨ht, fun j _ => h j⟩
  cases step with
  | call i op =>
    obtain ⟨fs, hCall, hEnd⟩ := bind_eq_ok hApply
    cases hEnd
    exact hUpdate i _ ((h i).call hFresh (Option.some.inj (ended_eq_ok hCall)))
  | newPath i choose path pathLen =>
    obtain ⟨r, hNew, hEnd⟩ := bind_eq_ok hApply
    cases hEnd
    exact hUpdate i _ ((h i).newPath hFresh (Option.some.inj (ended_eq_ok hNew)))
  | copy i j =>
    obtain ⟨fs, hCopy, hEnd⟩ := bind_eq_ok hApply
    cases hEnd
    exact hUpdate i _ ((h j).copy hFresh.2 (Option.some.inj (ended_eq_ok hCopy)))
  | abstract i ignore passes mnt ino entries =>
    obtain ⟨r, hAbstract, hEnd⟩ := bind_eq_ok hApply
    cases hEnd
    exact hUpdate i _ ((h i).abstract hAbstract)

end NamedTree

/-- After any fresh steps, the next path does not exist yet, if the counter has not overflowed and
the path starts with the mount point. -/
theorem newPath_fresh_of_steps [Hashes] (nameLen : Nat) (mnt : Nat → CString)
    (memory : Nat → Memory) (steps : List NameStep) (trees : Nat → NamedTree)
    (hSteps : Meets (NameStep.apply nameLen) (fun _ trees step => step.Fresh trees) []
      (fun i => ⟨AbstFS.init (mnt i) (memory i), []⟩) steps)
    (hRun : steps.foldlM (NameStep.apply nameLen)
      (fun i => ⟨AbstFS.init (mnt i) (memory i), []⟩) = .ok trees) (i : Nat) (choose : Nat → Nat)
    (path path' : CString) (pathLen : Nat) (fs' : AbstFS)
    (hCounter : (trees i).fs.nameId < 2147483648)
    (hMnt : (trees i).fs.DirsReached ∨ (trees i).fs.mnt.length ≤ path.length)
    (hNew : (trees i).fs.newPath nameLen choose path pathLen = .ok (path', fs')) :
    ¬(trees i).fs.PathExists path' := by
  have hReturns := foldlM_returns
    (I := fun _ trees => ∀ i, NamedTree.NamesBelow nameLen (trees i)) (Q := fun _ => True)
    (by
      intro done trees step h hFresh
      cases hApply : step.apply nameLen trees with
      | error e => trivial
      | ok trees' => exact NamedTree.NamesBelow.step h hFresh hApply)
    steps [] (fun i => NamedTree.init_namesBelow (mnt i) (memory i)) hSteps
  rw [hRun] at hReturns
  have hBelow := hReturns i
  refine AbstFS.newPath_not_exists hBelow.consistent.toStored hBelow.slashless hMnt ?_ hNew
  intro p name c hName hEntry
  exact Nat.lt_irrefl _ (hBelow.entries p name c _ hEntry hName hCounter)

def numberedTree : DiskDir :=
  .cons [108, 43, 102] (.dir 2 493 .nil) (.cons [55] (.symLink 3 [97]) .nil)

def freshSteps : List NameStep :=
  [.abstract 0 (fun _ => false) 0 [47, 109] 1 numberedTree,
    .newPath 0 (fun _ => 0) [] 4096, .call 0 (.creat [47, 109, 47, 48, 48, 56] 420), .copy 1 0]

attribute [local instance] sampleHashes

theorem newPath_fresh_of_steps_numbered :
    ∃ trees fs', freshSteps.foldlM (NameStep.apply 4) (fun _ => ⟨emptyFS, []⟩) = .ok trees ∧
      (trees 1).fs.newPath 4 (fun _ => 0) [47, 109] 4096 =
        .ok ([47, 109, 47, 48, 48, 57], fs') ∧
      (trees 1).fs.PathExists [47, 109, 47, 48, 48, 56] ∧
      ¬(trees 1).fs.PathExists [47, 109, 47, 48, 48, 57] := by
  obtain ⟨trees, hRun, hOld, hCounter, hMnt, hNew⟩ := Returns.exists_ok
    (P := fun trees => (trees 1).fs.PathExists [47, 109, 47, 48, 48, 56] ∧
      (trees 1).fs.nameId < 2147483648 ∧ (trees 1).fs.mnt.length ≤ 2 ∧
      Returns (fun r => r.1 = [47, 109, 47, 48, 48, 57]) (fun _ => False)
        ((trees 1).fs.newPath 4 (fun _ => 0) [47, 109] 4096))
    (c := freshSteps.foldlM (NameStep.apply 4) (fun _ => ⟨emptyFS, []⟩)) (by decide +kernel)
  obtain ⟨⟨path, fs'⟩, hNew, rfl⟩ := hNew.exists_ok
  exact ⟨trees, fs', hRun, hNew, hOld, newPath_fresh_of_steps 4 _ _ freshSteps trees
    (by decide +kernel) hRun 1 (fun _ => 0) [47, 109] _ 4096 fs' hCounter (.inr hMnt) hNew⟩

def overflowingTree : DiskDir :=
  .cons [50, 49, 52, 55, 52, 56, 51, 54, 52, 55] (.symLink 2 [97])
    (.cons [45, 50, 49, 52, 55, 52, 56, 51, 54, 52, 56] (.symLink 3 [97]) .nil)

/-- The counter goes from the largest number to the smallest, for which there is a name already. -/
theorem newPath_overflow_exists :
    ∃ r fs' path, emptyFS.abstract (fun _ => false) 0 [47, 109] 1 overflowingTree = .ok r ∧
      r.1.newPath 12 (fun _ => 0) [] 4096 = .ok (path, fs') ∧
      (printInt (toInt r.1.nameId)).length < 12 ∧ r.1.PathExists path := by
  obtain ⟨r, hAbstract, hLength, hNew⟩ := Returns.exists_ok
    (P := fun r => (printInt (toInt r.1.nameId)).length < 12 ∧
      Returns (fun new => r.1.PathExists new.1) (fun _ => False)
        (r.1.newPath 12 (fun _ => 0) [] 4096))
    (c := emptyFS.abstract (fun _ => false) 0 [47, 109] 1 overflowingTree) (by decide +kernel)
  obtain ⟨⟨path, fs'⟩, hNew, hExists⟩ := hNew.exists_ok
  exact ⟨r, fs', path, hAbstract, hNew, hLength, hExists⟩

end Explode.Driver
