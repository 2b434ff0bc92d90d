import Explode.Lib.Loop
import Explode.Driver.StableFS

/-!
# What the handlers of enter records do

Each handler runs its call on the volatile file system and appends one pending
call. The deltas of the call are read off the volatile file system.
-/

namespace Explode.Driver

open Loop

namespace Call

def fsOp (filename : Nat → Option CString) : Call → Option FsOp
  | mkdir pathname mode => some (.mkdir pathname mode)
  | unlink pathname => some (.unlink pathname)
  | rmdir pathname => some (.rmdir pathname)
  | link oldname newname => some (.link oldname newname)
  | rename oldname newname => some (.rename oldname newname)
  | ftruncate fd length => (filename fd).map fun path => .truncate path length
  | pwrite64 fd buf pos => (filename fd).map fun path => .pwrite path buf pos
  | _ => none

def changes (call : Call) : Bool := (call.fsOp fun _ => some []).isSome

end Call

namespace StableFS

variable {s s' : StableFS} {sys : Syscall}

theorem fileDes_ok {fd : Nat} {des : FileDes} (h : s.fileDes fd = .ok des) :
    s.fds.get? fd = some des := by
  rw [fileDes] at h
  split at h
  · cases h
  · cases h
    assumption

theorem enterAdd_ok {two : sys.call.hasTwo} {path : CString} {type : ObjType} {mode : Nat}
    {v : AbstFS} (h : s.enterAdd sys two path type mode v = .ok s') :
    ∃ nd parent childId, v.findPath path nameiInit = .ok nd ∧
      v.findPath path parentNameiInit = .ok parent ∧
      v.getEntry parent.1 parent.2 = some childId ∧
      s' = s.push v ⟨sys, some ⟨nd.1, .add type mode⟩,
        some ⟨parent.1, .addEntry parent.2 childId⟩, fun _ => two⟩ := by
  obtain ⟨nd, hNd, h⟩ := bind_eq_ok h
  obtain ⟨parent, hParent, h⟩ := bind_eq_ok h
  cases hEntry : v.getEntry parent.1 parent.2 with
  | none =>
    rw [hEntry] at h
    cases h
  | some childId =>
    rw [hEntry] at h
    cases h
    exact ⟨nd, parent, childId, hNd, hParent, hEntry, rfl⟩

theorem enterRemove_ok {path : CString} {call : PathCall}
    (h : s.enterRemove sys path call = .ok s') :
    ∃ target v parent, s.volatile.findPath path nameiInit = .ok target ∧
      call s.volatile path = .ok v ∧ v.findPath path parentNameiInit = .ok parent ∧
      s' = s.push v (.one sys ⟨parent.1, .removeEntry parent.2 target.1⟩) := by
  obtain ⟨target, hTarget, h⟩ := bind_eq_ok h
  obtain ⟨v, hCall, h⟩ := bind_eq_ok h
  obtain ⟨parent, hParent, h⟩ := bind_eq_ok h
  cases h
  exact ⟨target, v, parent, hTarget, hCall, hParent, rfl⟩

theorem enterData_ok {fd : Nat} {call : PathCall}
    {change : Change} (h : s.enterData sys fd call change = .ok s') :
    ∃ des v nd, s.fds.get? fd = some des ∧ call s.volatile des.filename = .ok v ∧
      v.findPath des.filename nameiInit = .ok nd ∧
      s' = s.push v (.one sys ⟨nd.1, change⟩) := by
  obtain ⟨des, hDes, h⟩ := bind_eq_ok h
  obtain ⟨v, hCall, h⟩ := bind_eq_ok h
  obtain ⟨nd, hNd, h⟩ := bind_eq_ok h
  cases h
  exact ⟨des, v, nd, fileDes_ok hDes, hCall, hNd, rfl⟩

theorem enterLink_ok {oldname newname : CString} (h : s.enterLink sys oldname newname = .ok s') :
    ∃ v parent childId, s.volatile.link oldname newname = .ok v ∧
      v.findPath newname parentNameiInit = .ok parent ∧
      v.getEntry parent.1 parent.2 = some childId ∧
      s' = s.push v (.one sys ⟨parent.1, .addEntry parent.2 childId⟩) := by
  obtain ⟨v, hLink, h⟩ := bind_eq_ok h
  obtain ⟨parent, hParent, h⟩ := bind_eq_ok h
  cases hEntry : v.getEntry parent.1 parent.2 with
  | none =>
    rw [hEntry] at h
    cases h
  | some childId =>
    rw [hEntry] at h
    cases h
    exact ⟨v, parent, childId, hLink, hParent, hEntry, rfl⟩

def renameChange (oldChild : Option Nat) (name : Name) (newChildId : Nat) : Change :=
  match oldChild with
  | none => .addEntry name newChildId
  | some oldChildId => .replaceEntry name oldChildId newChildId

theorem enterRename_ok {two : sys.call.hasTwo} {oldname newname : CString}
    (h : s.enterRename sys two oldname newname = .ok s') :
    ∃ oldChild child v parent newChildId parentOld,
      s.volatile.walkPath newname nameiInit = .ok oldChild ∧
      s.volatile.findPath oldname nameiInit = .ok child ∧
      s.volatile.rename oldname newname = .ok v ∧
      v.findPath newname parentNameiInit = .ok parent ∧
      v.getEntry parent.1 parent.2 = some newChildId ∧
      v.findPath oldname ⟨true, some parent.1, parent.2⟩ = .ok parentOld ∧
      s' = s.push v ⟨sys, some ⟨parent.1, renameChange oldChild.obj parent.2 newChildId⟩,
          some ⟨parentOld.1, .removeEntry parentOld.2 child.1⟩, fun _ => two⟩ := by
  obtain ⟨oldChild, hOld, h⟩ := bind_eq_ok h
  obtain ⟨child, hChild, h⟩ := bind_eq_ok h
  obtain ⟨v, hRename, h⟩ := bind_eq_ok h
  obtain ⟨parent, hParent, h⟩ := bind_eq_ok h
  cases hEntry : v.getEntry parent.1 parent.2 with
  | none =>
    rw [hEntry] at h
    cases h
  | some newChildId =>
    rw [hEntry] at h
    obtain ⟨parentOld, hParentOld, h⟩ := bind_eq_ok h
    cases h
    exact ⟨oldChild, child, v, parent, newChildId, parentOld, hOld, hChild, hRename, hParent,
      hEntry, hParentOld, rfl⟩

/-- The two records of a call. -/
def enterExit (step : StableFS → SyscallRec → FsResult StableFS) (s : StableFS)
    (sys : Syscall) : FsResult StableFS := do
  let s ← step s (.enter sys)
  step s (.exit sys)

section
variable (drv : FsDriver) [Hashes]

def replayCall (s : StableFS) (sys : Syscall) : FsResult StableFS :=
  enterExit (replaySyscall drv) s sys

/-- A call with the check that `replay` makes before each record. -/
def replayLogged (s : StableFS) (sys : Syscall) : FsResult StableFS :=
  enterExit (replay drv) s sys

def fsOp (s : StableFS) (call : Call) : Option FsOp :=
  call.fsOp fun fd => (s.fds.get? fd).map FileDes.filename

def creates (s : StableFS) (sys : Syscall) : Bool :=
  match sys.call with
  | .openFile filename _ _ =>
    decide (0 ≤ sys.ret) && tracked drv filename && decide (s.volatile.stat filename = .ok none)
  | _ => false

end

section
variable {drv : FsDriver} [Hashes]

theorem replayEnter_change (hChanges : sys.call.changes) (hRet : 0 ≤ sys.ret)
    (h : s.replayEnter drv sys = .ok s') :
    ∃ op v p, s.fsOp sys.call = some op ∧
      s.volatile.apply op = .ok v ∧ p.sys = sys ∧ s' = s.push v p := by
  rw [replayEnter, if_neg (Int.not_lt.mpr hRet)] at h
  obtain ⟨lsn, call, ret⟩ := sys
  cases call with
  | mkdir pathname mode =>
    obtain ⟨v, hCall, h⟩ := bind_eq_ok h
    obtain ⟨nd, parent, childId, _, _, _, rfl⟩ := enterAdd_ok h
    exact ⟨_, v, _, rfl, hCall, rfl, rfl⟩
  | unlink pathname =>
    obtain ⟨target, v, parent, _, hCall, _, rfl⟩ := enterRemove_ok h
    exact ⟨_, v, _, rfl, hCall, rfl, rfl⟩
  | rmdir pathname =>
    obtain ⟨target, v, parent, _, hCall, _, rfl⟩ := enterRemove_ok h
    exact ⟨_, v, _, rfl, hCall, rfl, rfl⟩
  | link oldname newname =>
    obtain ⟨v, parent, childId, hCall, _, _, rfl⟩ := enterLink_ok h
    exact ⟨_, v, _, rfl, hCall, rfl, rfl⟩
  | rename oldname newname =>
    obtain ⟨oldChild, child, v, parent, newChildId, parentOld, _, _, hCall, _, _, _, rfl⟩ :=
      enterRename_ok h
    exact ⟨_, v, _, rfl, hCall, rfl, rfl⟩
  | ftruncate fd length =>
    obtain ⟨des, v, nd, hDes, hCall, _, rfl⟩ := enterData_ok h
    exact ⟨.truncate des.filename length, v, _, by simp [fsOp, Call.fsOp, hDes], hCall, rfl, rfl⟩
  | pwrite64 fd buf pos =>
    obtain ⟨des, v, nd, hDes, hCall, _, rfl⟩ := enterData_ok h
    exact ⟨.pwrite des.filename buf pos, v, _, by simp [fsOp, Call.fsOp, hDes], hCall, rfl, rfl⟩
  | openFile filename flags mode => cases hChanges
  | close fd => cases hChanges
  | sync => cases hChanges
  | fsync fd => cases hChanges

omit [Hashes] in
theorem lastCall_of_syscalls {done : List PendingCall} {p : PendingCall}
    (hCalls : s.syscalls = done ++ [p]) (hp : p.sys = sys) : s.lastCall sys = .ok p := by
  rw [lastCall, hCalls, List.getLast?_concat]
  exact if_pos (congrArg Syscall.lsn hp)

theorem replayCall_eq (hOngoing : s.ongoing = none) (hEnter : s.replayEnter drv sys = .ok s')
    {s₂ : StableFS} (hExit : replayExit drv { s' with ongoing := some sys.lsn } sys = .ok s₂) :
    s.replayCall drv sys = .ok { s₂ with ongoing := none } := by
  have hEnter' : s.replaySyscall drv (.enter sys) = .ok { s' with ongoing := some sys.lsn } := by
    rw [replaySyscall, hOngoing, hEnter]
    rfl
  have hExit' : replaySyscall drv { s' with ongoing := some sys.lsn }
      (.exit sys) = .ok { s₂ with ongoing := none } := by
    rw [replaySyscall, if_pos rfl, hExit]
    rfl
  rw [replayCall, enterExit, hEnter']
  exact hExit'

theorem replayEnter_of_isOk (hOngoing : s.ongoing = none)
    (h : (s.replaySyscall drv (.enter sys)).isOk) :
    ∃ s', s.replayEnter drv sys = .ok s' := by
  rw [replaySyscall, hOngoing] at h
  cases hEnter : s.replayEnter drv sys with
  | ok s' => exact ⟨s', rfl⟩
  | error e =>
    rw [hEnter] at h
    cases h

omit [Hashes] in
theorem stat_of_findPath {fs : AbstFS} {path : CString} {nd : Nat × Name}
    (h : fs.findPath path nameiInit = .ok nd) : fs.stat path = .ok (some nd.1) := by
  obtain ⟨nd', hWalk, h⟩ := bind_eq_ok h
  rw [AbstFS.stat, hWalk]
  cases hObj : nd'.obj with
  | none =>
    rw [hObj] at h
    cases h
  | some id =>
    rw [hObj] at h
    cases h
    rw [Except.map, hObj]

omit [Hashes] in
theorem enterOpen_ok {two : sys.call.hasTwo} {filename : CString} {mode : Nat}
    (h : s.enterOpen drv sys two filename mode = .ok s') :
    s.fds.get? sys.ret.toNat = none ∧
      (tracked drv filename = false ∧ s' = s ∨
      tracked drv filename = true ∧ (∃ id, s.volatile.stat filename = .ok (some id)) ∧ s' = s ∨
      tracked drv filename = true ∧ s.volatile.stat filename = .ok none ∧
        ∃ v, s.volatile.creat filename mode = .ok v ∧
          s.enterAdd sys two filename .file mode v = .ok s') := by
  rw [enterOpen] at h
  split_ifs at h with hUsed hTracked
  · refine ⟨Option.not_isSome_iff_eq_none.mp hUsed, .inr ?_⟩
    obtain ⟨found, hStat, h⟩ := bind_eq_ok h
    cases found with
    | some id =>
      cases h
      exact .inl ⟨hTracked, ⟨id, hStat⟩, rfl⟩
    | none =>
      obtain ⟨v, hCreat, h⟩ := bind_eq_ok h
      exact .inr ⟨hTracked, hStat, v, hCreat, h⟩
  · cases h
    exact ⟨Option.not_isSome_iff_eq_none.mp hUsed, .inl ⟨Bool.eq_false_iff.mpr hTracked, rfl⟩⟩

theorem exitOpen_found {filename : CString} {flags : OpenFlags} {mode id : Nat}
    (hFree : s.fds.get? sys.ret.toNat = none) (hTracked : tracked drv filename = true)
    (hStat : s.volatile.stat filename = .ok (some id)) :
    s.exitOpen drv sys filename flags mode =
      .ok { s with fds := s.fds.insert sys.ret.toNat ⟨filename, flags.sync⟩ } := by
  rw [exitOpen, hFree, if_neg (by simp), if_pos hTracked]
  simp only [hStat]
  rfl

theorem exitOpen_untracked {filename : CString} {flags : OpenFlags} {mode : Nat}
    (hFree : s.fds.get? sys.ret.toNat = none) (hTracked : tracked drv filename = false) :
    s.exitOpen drv sys filename flags mode = .ok s := by
  rw [exitOpen, hFree, if_neg (by simp), if_neg (by simp [hTracked])]
  rfl

omit [Hashes] in
theorem not_failed (hRet : 0 ≤ sys.ret) : ¬(sys.call ≠ .sync ∧ sys.ret < 0) :=
  fun h => absurd h.2 (Int.not_lt.mpr hRet)

theorem replayCall_open (hOngoing : s.ongoing = none) {filename : CString} {flags : OpenFlags}
    {mode : Nat} (hCall : sys.call = .openFile filename flags mode) (hRet : 0 ≤ sys.ret)
    (hEnter : s.replayEnter drv sys = .ok s') :
    s.fds.get? sys.ret.toNat = none ∧
      (tracked drv filename = false ∧ s.replayCall drv sys = .ok s ∨
      tracked drv filename = true ∧ (∃ id, s.volatile.stat filename = .ok (some id)) ∧
        s.replayCall drv sys =
          .ok { s with fds := s.fds.insert sys.ret.toNat ⟨filename, flags.sync⟩ } ∨
      tracked drv filename = true ∧ s.volatile.stat filename = .ok none ∧
        ∃ v nd parent childId p, s.volatile.creat filename mode = .ok v ∧
          v.findPath filename nameiInit = .ok nd ∧
          v.findPath filename parentNameiInit = .ok parent ∧
          v.getEntry parent.1 parent.2 = some childId ∧ p.sys = sys ∧
          p.delta0 = some ⟨nd.1, .add .file mode⟩ ∧
          p.delta1 = some ⟨parent.1, .addEntry parent.2 childId⟩ ∧
          s.replayCall drv sys =
            .ok { s with volatile := v, syscalls := s.syscalls ++ [p],
                         fds := s.fds.insert sys.ret.toNat ⟨filename, flags.sync⟩ }) := by
  have hOpen := hEnter
  rw [replayEnter, if_neg (Int.not_lt.mpr hRet)] at hOpen
  obtain ⟨lsn, call, ret⟩ := sys
  cases hCall
  have hExitEq : ∀ t : StableFS, t.replayExit drv
      ⟨lsn, .openFile filename flags mode, ret⟩ = t.exitOpen drv
        ⟨lsn, .openFile filename flags mode, ret⟩ filename flags mode :=
    fun t => if_neg (not_failed hRet)
  obtain ⟨hFree, hCases⟩ := enterOpen_ok hOpen
  refine ⟨hFree, ?_⟩
  rcases hCases with ⟨hTracked, rfl⟩ | ⟨hTracked, ⟨id, hStat⟩, rfl⟩ |
    ⟨hTracked, hStat, v, hCreat, hAdd⟩
  · left
    refine ⟨hTracked, ?_⟩
    rw [replayCall_eq hOngoing hEnter ((hExitEq _).trans (exitOpen_untracked hFree hTracked)),
      ← hOngoing]
  · right
    left
    refine ⟨hTracked, ⟨id, hStat⟩, ?_⟩
    rw [replayCall_eq hOngoing hEnter ((hExitEq _).trans (exitOpen_found hFree hTracked hStat)),
      ← hOngoing]
  · right
    right
    obtain ⟨nd, parent, childId, hFind, hParent, hEntry, rfl⟩ := enterAdd_ok hAdd
    refine ⟨hTracked, hStat, v, nd, parent, childId, ⟨_, some _, some _, fun _ => rfl⟩, hCreat,
      hFind, hParent, hEntry, rfl, rfl, rfl, ?_⟩
    rw [replayCall_eq hOngoing hEnter
      ((hExitEq _).trans (exitOpen_found hFree hTracked (stat_of_findPath hFind))), ← hOngoing]
    rfl

theorem replayCall_close (hOngoing : s.ongoing = none) {fd : Nat} (hCall : sys.call = .close fd)
    (hRet : 0 ≤ sys.ret) : s.replayCall drv sys = .ok { s with fds := s.fds.erase fd } := by
  have hEnter : s.replayEnter drv sys = .ok s := by
    rw [replayEnter]
    split_ifs
    · rfl
    · obtain ⟨lsn, call, ret⟩ := sys
      cases hCall
      rfl
  have hExit : replayExit drv { s with ongoing := some sys.lsn } sys =
      .ok { s with ongoing := some sys.lsn, fds := s.fds.erase fd } := by
    rw [replayExit, if_neg (not_failed hRet), hCall]
  rw [replayCall_eq hOngoing hEnter hExit, ← hOngoing]

theorem replayCall_failed (hOngoing : s.ongoing = none) (hSync : sys.call ≠ .sync)
    (hRet : sys.ret < 0) : s.replayCall drv sys = .ok s := by
  have hEnter : s.replayEnter drv sys = .ok s := by
    rw [replayEnter, if_pos hRet]
  have hExit : replayExit drv { s with ongoing := some sys.lsn } sys =
      .ok { s with ongoing := some sys.lsn } := by
    rw [replayExit, if_pos ⟨hSync, hRet⟩]
  rw [replayCall_eq hOngoing hEnter hExit, ← hOngoing]

end

end StableFS

end Explode.Driver
